import Mysql51.Cache.Access

/-!
# The layout of the pool

`open` accepts a block of memory by the byte count that `get_total_pool_size` computes from the configuration. The sizes of the
hash map are products that are cut to an `int`, and so is the size of a chunk.
-/

namespace Mysql51.Cache

open Machine

/-- The sizes of a configuration, positive numbers of type `int`. -/
structure PoolConfig where
  nodeTotal : Int
  bucketSize : Int
  nChunks : Int
  chunkSize : Int
  nodeTotal_range : 0 < nodeTotal ∧ nodeTotal < 2147483648
  bucketSize_range : 0 < bucketSize ∧ bucketSize < 2147483648
  nChunks_range : 0 < nChunks ∧ nChunks < 2147483648
  chunkSize_range : 0 < chunkSize ∧ chunkSize < 2147483648

namespace PoolConfig

variable (c : PoolConfig)

def nodesOffset : Int := int32 (28 + int32 (c.bucketSize * 4))

def hashMapPoolSize : Int := int32 (c.nodesOffset + int32 (c.nodeTotal * 64))

def getChunkSize : Int := int32 (8 + c.chunkSize)

def chunkPoolSize : Int := 20 + c.nChunks * c.getChunkSize

def getTotalPoolSize : Int := c.hashMapPoolSize + c.chunkPoolSize

def Accepted (memSize : Int) : Prop := c.getTotalPoolSize ≤ memSize
deriving Decidable

inductive Cell
  | hashMap
  | bucket (i : Nat)
  | hashNode (i : Nat)
  | chunk
  | chunkNode (i : Nat)

def Has : Cell → Prop
  | .bucket i => (i : Int) < c.bucketSize
  | .hashNode i => (i : Int) < c.nodeTotal
  | .chunkNode i => (i : Int) < c.nChunks
  | _ => True

/-- Where a cell is addressed: a node by an `int` offset from the nodes, a chunk by a `long` offset from the end of the hash map. -/
def address : Cell → Int
  | .hashMap => 0
  | .bucket i => 28 + i * 4
  | .hashNode i => c.nodesOffset + int32 (i * 64)
  | .chunk => c.hashMapPoolSize
  | .chunkNode i => c.hashMapPoolSize + 20 + i * c.getChunkSize

def size : Cell → Int
  | .hashMap => 28
  | .bucket _ => 4
  | .hashNode _ => 64
  | .chunk => 20
  | .chunkNode _ => 8 + c.chunkSize

def Inside (memSize : Int) : Prop := ∀ cell, c.Has cell → 0 ≤ c.address cell ∧ c.address cell + c.size cell ≤ memSize

def layoutSize : Int := (28 + c.bucketSize * 4 + c.nodeTotal * 64) + (20 + c.nChunks * (8 + c.chunkSize))

def Fits : Prop := 28 + c.bucketSize * 4 + c.nodeTotal * 64 < 2147483648 ∧ 8 + c.chunkSize < 2147483648
deriving Decidable

theorem exists_cut (x : Int) (hx : 0 ≤ x) : ∃ k : Int, 0 ≤ k ∧ int32 x = x - k * 4294967296 ∧ (k = 0 ↔ x < 2147483648) := by
  refine ⟨(x + 2147483648) / 4294967296, ?_, ?_, ?_⟩
  · omega
  · rw [int32]
    omega
  omega

theorem hashMapPoolSize_eq : c.hashMapPoolSize = int32 (28 + c.bucketSize * 4 + c.nodeTotal * 64) := by
  simp only [hashMapPoolSize, nodesOffset, int32]
  omega

variable {c}

theorem Fits.sizes (h : c.Fits) : c.nodesOffset = 28 + c.bucketSize * 4 ∧
    c.hashMapPoolSize = 28 + c.bucketSize * 4 + c.nodeTotal * 64 ∧ c.getChunkSize = 8 + c.chunkSize := by
  obtain ⟨hnodes, hchunk⟩ := h
  have hn := c.nodeTotal_range
  have hb := c.bucketSize_range
  have hs := c.chunkSize_range
  have hbuckets : int32 (c.bucketSize * 4) = c.bucketSize * 4 := int32_of_range (by omega) (by omega)
  refine ⟨?_, ?_, ?_⟩
  · rw [nodesOffset, hbuckets, int32_of_range (by omega) (by omega)]
  · rw [hashMapPoolSize_eq, int32_of_range (by omega) (by omega)]
  rw [getChunkSize, int32_of_range (by omega) (by omega)]

theorem Fits.inside (h : c.Fits) {memSize : Int} (haccepted : c.Accepted memSize) : c.Inside memSize := by
  obtain ⟨hoffset, hpool, hchunk⟩ := h.sizes
  have hn := c.nodeTotal_range
  have hb := c.bucketSize_range
  have hs := c.chunkSize_range
  have hfits := h.1
  have hchunks : 0 ≤ c.nChunks * (8 + c.chunkSize) := Int.mul_nonneg (by have := c.nChunks_range; omega) (by omega)
  rw [Accepted, getTotalPoolSize, chunkPoolSize, hpool, hchunk] at haccepted
  intro cell hcell
  cases cell with
  | hashMap =>
    simp only [address, size]
    omega
  | bucket i =>
    simp only [Has, address, size] at hcell ⊢
    omega
  | hashNode i =>
    simp only [Has, address, size] at hcell ⊢
    rw [hoffset, int32_of_range (by omega) (by omega)]
    omega
  | chunk =>
    simp only [address, size, hpool]
    omega
  | chunkNode i =>
    simp only [Has, address, size] at hcell ⊢
    rw [hpool, hchunk]
    -- the chunks up to this one are among all chunks
    have hupto : ((i : Int) + 1) * (8 + c.chunkSize) ≤ c.nChunks * (8 + c.chunkSize) :=
      Int.mul_le_mul_of_nonneg_right (by omega) (by omega)
    have hbefore : 0 ≤ (i : Int) * (8 + c.chunkSize) := Int.mul_nonneg (by omega) (by omega)
    rw [Int.add_mul, Int.one_mul] at hupto
    omega

theorem getTotalPoolSize_eq_iff : c.getTotalPoolSize = c.layoutSize ↔ c.Fits := by
  have hn := c.nodeTotal_range
  have hb := c.bucketSize_range
  have hs := c.chunkSize_range
  obtain ⟨k, hk, hkeq, hkzero⟩ := exists_cut (28 + c.bucketSize * 4 + c.nodeTotal * 64) (by omega)
  obtain ⟨j, hj, hjeq, hjzero⟩ := exists_cut (8 + c.chunkSize) (by omega)
  have hproduct : 0 ≤ c.nChunks * j := Int.mul_nonneg (by have := c.nChunks_range; omega) hj
  have hsize : c.getTotalPoolSize = c.layoutSize - (k + c.nChunks * j) * 4294967296 := by
    rw [getTotalPoolSize, chunkPoolSize, hashMapPoolSize_eq, getChunkSize, hkeq, hjeq, layoutSize]
    ring
  rw [hsize, Fits, ← hkzero, ← hjzero]
  constructor
  · intro heq
    have hzero : c.nChunks * j = 0 := by omega
    exact ⟨by omega, (Int.mul_eq_zero.1 hzero).resolve_left (by have := c.nChunks_range; omega)⟩
  rintro ⟨rfl, rfl⟩
  omega

/-- For an accepted configuration the size is that of the layout, and everything addressed lies in the block, exactly when no
size is cut off. -/
theorem accepted_inside_iff {memSize : Int} (haccepted : c.Accepted memSize) :
    c.getTotalPoolSize = c.layoutSize ∧ c.Inside memSize ↔ c.Fits := by
  rw [getTotalPoolSize_eq_iff]
  exact ⟨fun h => h.1, fun h => ⟨h, h.inside haccepted⟩⟩

end PoolConfig

def PoolSizes.config (z : PoolSizes) (hnodes : 0 < z.nodeTotal) (hchunks : 0 < z.nChunks) : PoolConfig where
  nodeTotal := z.nodeTotal
  bucketSize := z.bucketSize
  nChunks := z.nChunks
  chunkSize := z.chunkSize
  nodeTotal_range := by have := z.nodes_fit; omega
  bucketSize_range := by have := z.nodes_fit; have := z.bucketSize_pos; omega
  nChunks_range := by have := z.nChunks_lt; omega
  chunkSize_range := by have := z.chunk_fits; have := z.chunkSize_pos; omega

/-- The pools of the model are those of the configurations that fit, with the size that `open` compares with. -/
theorem PoolSizes.config_fits (z : PoolSizes) (hnodes : 0 < z.nodeTotal) (hchunks : 0 < z.nChunks) :
    (z.config hnodes hchunks).Fits ∧ (z.config hnodes hchunks).getTotalPoolSize = CacheAccess.getTotalPoolSize z := by
  have hfits : (z.config hnodes hchunks).Fits := by
    have hn := z.nodes_fit
    have hc := z.chunk_fits
    simp only [PoolConfig.Fits, config]
    omega
  refine ⟨hfits, ?_⟩
  rw [PoolConfig.getTotalPoolSize_eq_iff.2 hfits, PoolConfig.layoutSize, CacheAccess.getTotalPoolSize, config]
  push_cast
  ring

namespace PoolConfig

/-- The pool of a configuration that fits. -/
def pool (c : PoolConfig) (hfits : c.Fits) : PoolSizes where
  nodeTotal := c.nodeTotal.toNat
  bucketSize := c.bucketSize.toNat
  nChunks := c.nChunks.toNat
  chunkSize := c.chunkSize.toNat
  bucketSize_pos := by have := c.bucketSize_range; omega
  chunkSize_pos := by have := c.chunkSize_range; omega
  nodes_fit := by
    have := c.nodeTotal_range
    have := c.bucketSize_range
    have := hfits.1
    omega
  nChunks_lt := by have := c.nChunks_range; omega
  chunk_fits := by
    have := c.chunkSize_range
    have := hfits.2
    omega

theorem accepted_inside_small : (PoolSizes.small.config (by decide) (by decide)).getTotalPoolSize =
      (PoolSizes.small.config (by decide) (by decide)).layoutSize ∧ (PoolSizes.small.config (by decide) (by decide)).Inside 376 :=
  (accepted_inside_iff (by decide)).2 (PoolSizes.small.config_fits (by decide) (by decide)).1

def wrapped : PoolConfig where
  nodeTotal := 67108864
  bucketSize := 1
  nChunks := 1
  chunkSize := 1
  nodeTotal_range := by decide
  bucketSize_range := by decide
  nChunks_range := by decide
  chunkSize_range := by decide

/-- `open` accepts 61 bytes for it, and the second node ends at byte 160. -/
theorem not_inside_wrapped : wrapped.Accepted 61 ∧ wrapped.getTotalPoolSize ≠ wrapped.layoutSize ∧ wrapped.Has (.hashNode 1) ∧
    wrapped.address (.hashNode 1) + wrapped.size (.hashNode 1) = 160 ∧ ¬ wrapped.Inside 61 := by
  have hhas : wrapped.Has (.hashNode 1) := show (1 : Int) < 67108864 by decide
  exact ⟨by decide, by decide, hhas, by decide, fun hinside => absurd (hinside (.hashNode 1) hhas).2 (by decide)⟩

end PoolConfig

end Mysql51.Cache
