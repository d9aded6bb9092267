import Mysql51.Cache.Chunks
import Mysql51.Cache.WellFormed

/-!
# Who owns which chunk

The chunks of a pool are on the free list or belong to one used node each. Seen from one node there are three kinds of chunk:
free ones, its own (`mine`) and those of the other nodes (`others`).
-/

namespace Mysql51.Cache

open Link Machine Function List

structure CChunkAllocator.SizeOk (a : CChunkAllocator) : Prop where
  chunkSize_pos : 0 < a.chunkSize
  chunkSize_lt : a.chunkSize < 2147483648
  chunkTotal_lt : a.chunkTotal < 2147483648

structure AllocRep (a : CChunkAllocator) (free mine others : List Nat) : Prop where
  freeChain : Chain a.next a.freeList free
  total : (free ++ (mine ++ others)).Perm (List.range a.chunkTotal)
  freeTotal : a.freeTotal = free.length

structure AllocFrame (others : List Nat) (a a' : CChunkAllocator) : Prop where
  chunkTotal : a'.chunkTotal = a.chunkTotal
  chunkSize : a'.chunkSize = a.chunkSize
  node : ∀ i ∈ others, a'.chunkNodes i = a.chunkNodes i

variable {l : List Nat} {hdr : Option Nat} {d : List UInt8} {len oldLen : Int}

namespace AllocFrame

variable {others : List Nat} {a a' a'' : CChunkAllocator}

section

variable (h : AllocFrame others a a')
include h

theorem trans (h' : AllocFrame others a' a'') : AllocFrame others a a'' :=
  ⟨h'.chunkTotal.trans h.chunkTotal, h'.chunkSize.trans h.chunkSize, fun i hi => (h'.node i hi).trans (h.node i hi)⟩

theorem sizeOk (hsize : a.SizeOk) : a'.SizeOk :=
  ⟨h.chunkSize ▸ hsize.chunkSize_pos, h.chunkSize ▸ hsize.chunkSize_lt, h.chunkTotal ▸ hsize.chunkTotal_lt⟩

theorem getChunkNum (len : Int) : a'.getChunkNum len = a.getChunkNum len := by
  rw [CChunkAllocator.getChunkNum, CChunkAllocator.getChunkNum, h.chunkSize]

theorem chain (hsub : l ⊆ others) (hl : Chain a.next hdr l) : Chain a'.next hdr l :=
  (chain_congr fun i hi => by rw [CChunkAllocator.next, CChunkAllocator.next, h.node i (hsub hi)]).2 hl

theorem holds (hsub : l ⊆ others) (hl : a.Holds l d) : a'.Holds l d :=
  (CChunkAllocator.holds_congr h.chunkSize fun i hi => by rw [h.node i (hsub hi)]).2 hl

end

end AllocFrame

namespace AllocRep

variable {a : CChunkAllocator} {free mine others : List Nat}

theorem nodup (hrep : AllocRep a free mine others) : (free ++ (mine ++ others)).Nodup :=
  hrep.total.nodup_iff.2 nodup_range

theorem length_eq (hrep : AllocRep a free mine others) : free.length + (mine.length + others.length) = a.chunkTotal := by
  have hlen := hrep.total.length_eq
  simpa only [length_append, length_range] using hlen

theorem malloc (hrep : AllocRep a free [] others) (hsize : a.SizeOk) {n : Nat} (hn : n ≤ free.length) :
    ∃ a' head free' mine', a.malloc n = some (a', head) ∧ AllocRep a' free' mine' others ∧
      Chain a'.next head mine' ∧ mine'.length = n ∧ AllocFrame others a a' := by
  have hsplit := take_append_drop n free
  have hlen := hrep.length_eq
  have hlt := hsize.chunkTotal_lt
  have htake := length_take_of_le hn
  have hchain : Chain a.next a.freeList (free.take n ++ free.drop n) := by
    rw [hsplit]
    exact hrep.freeChain
  obtain ⟨a', head, heq, hfree, hmine, hframe, htotal⟩ := CChunkAllocator.malloc_spec hchain
    (by rw [hsplit]; exact hrep.freeTotal) (by rw [hsplit]; omega)
  rw [htake] at heq
  refine ⟨a', head, free.drop n, (free.take n).reverse, heq, ⟨hfree, ?_, htotal⟩, hmine, by simpa using hn,
    hframe.chunkTotal, hframe.chunkSize, fun i hi => hframe.node i fun hm => ?_⟩
  · rw [hframe.chunkTotal]
    refine List.Perm.trans ?_ hrep.total
    rw [← append_assoc, nil_append]
    refine List.Perm.append_right others ?_
    refine ((reverse_perm _).append_left _).trans ?_
    exact perm_append_comm.trans (by rw [hsplit])
  exact disjoint_of_nodup_append hrep.nodup (mem_of_mem_take hm) (by simpa using hi)

section

variable (hrep : AllocRep a free mine others)
include hrep

theorem release (hsize : a.SizeOk) (hmine : Chain a.next hdr mine) :
    ∃ a', a.free hdr = some a' ∧ AllocRep a' (mine.reverse ++ free) [] others ∧ AllocFrame others a a' := by
  have hlen := hrep.length_eq
  have hlt := hsize.chunkTotal_lt
  obtain ⟨a', heq, hfree, hframe, htotal⟩ := CChunkAllocator.free_spec hmine hrep.freeChain
    (fun i hi hm => disjoint_of_nodup_append hrep.nodup hm (by simp [hi])) hrep.freeTotal
    (by rw [length_append]; omega) (by omega)
  refine ⟨a', heq, ⟨hfree, ?_, by simpa using htotal⟩, hframe.chunkTotal, hframe.chunkSize, fun i hi => hframe.node i fun hm => ?_⟩
  · rw [hframe.chunkTotal]
    refine List.Perm.trans ?_ hrep.total
    rw [nil_append, ← append_assoc]
    refine List.Perm.append_right others ?_
    exact ((reverse_perm mine).append_right free).trans perm_append_comm
  have hnd := (nodup_append.1 hrep.nodup).2.1
  exact disjoint_of_nodup_append hnd hm hi

theorem split (hsize : a.SizeOk) (hmine : Chain a.next hdr mine) (hlow : -2147483648 ≤ len) (hhigh : len < 2147483648)
    (hnum : (mine.length : Int) = a.getChunkNum len) :
    ∃ a', a.split hdr d len = some a' ∧ AllocRep a' free mine others ∧ Chain a'.next hdr mine ∧ AllocFrame others a a' ∧
      (len = d.length → d.length + a.chunkSize ≤ 2147483648 → a'.Holds mine d) := by
  have hlen := hrep.length_eq
  obtain ⟨a', heq, hframe, hholds⟩ := CChunkAllocator.split_spec (d := d) hmine hlow hhigh hsize.chunkSize_pos
    hsize.chunkSize_lt hnum (by omega)
  refine ⟨a', heq, ⟨?_, ?_, ?_⟩, ?_, ⟨hframe.chunkTotal, hframe.chunkSize, fun i hi => hframe.node i fun hm => ?_⟩, hholds⟩
  · rw [hframe.next, hframe.freeList]
    exact hrep.freeChain
  · rw [hframe.chunkTotal]
    exact hrep.total
  · rw [hframe.freeTotal]
    exact hrep.freeTotal
  · rw [hframe.next]
    exact hmine
  have hnd := (nodup_append.1 hrep.nodup).2.1
  exact disjoint_of_nodup_append hnd hm hi

/-- When the test of `update_node` finds room, the chunks that are free after the `free` suffice. -/
theorem le_of_not_lacks (hsize : a.SizeOk)
    (hold : (mine.length : Int) = a.getChunkNum oldLen) {n : Nat} (hn : a.getChunkNum len = n)
    (hroom : ¬a.Lacks oldLen len) : n ≤ (mine.reverse ++ free).length := by
  rw [CChunkAllocator.Lacks, not_and_or, hrep.freeTotal] at hroom
  have hrange := hsize.chunkTotal_lt
  have hlen := hrep.length_eq
  have hnumLt := a.getChunkNum_lt len
  rw [length_append, length_reverse]
  rcases hroom with hroom | hroom
  · omega
  rw [int32_of_range (by omega) (by omega)] at hroom
  omega

/-- What `update_node` does to the chunks, when its test finds room: the `malloc` after the `free` does not fail. -/
theorem refit (hsize : a.SizeOk) (hmine : Chain a.next hdr mine) (hold : (mine.length : Int) = a.getChunkNum oldLen)
    (hlow : -2147483648 ≤ len) (hhigh : len < 2147483648) (hnum : 0 ≤ a.getChunkNum len) (hroom : ¬a.Lacks oldLen len) :
    ∃ a' head free' mine', a.refit hdr oldLen d len = some (head, a') ∧ AllocRep a' free' mine' others ∧
      Chain a'.next head mine' ∧ (mine'.length : Int) = a.getChunkNum len ∧ AllocFrame others a a' ∧
      (len = d.length → d.length + a.chunkSize ≤ 2147483648 → a'.Holds mine' d) := by
  by_cases hsame : a.getChunkNum oldLen = a.getChunkNum len
  · obtain ⟨a', heq, hrep', hmine', hframe, hholds⟩ := hrep.split hsize hmine (d := d) hlow hhigh (hold.trans hsame)
    refine ⟨a', hdr, free, mine, ?_, hrep', hmine', hold.trans hsame, hframe, hholds⟩
    rw [CChunkAllocator.refit, if_neg (not_not.2 hsame), heq]
    rfl
  obtain ⟨a₁, heq₁, hrep₁, hframe₁⟩ := hrep.release hsize hmine
  obtain ⟨n, hn⟩ := Int.eq_ofNat_of_zero_le hnum
  have hfits := hrep.le_of_not_lacks hsize hold hn hroom
  obtain ⟨a₂, head, free₂, mine₂, heq₂, hrep₂, hmine₂, hlen₂, hframe₂⟩ := hrep₁.malloc (hframe₁.sizeOk hsize) hfits
  have hframe₁₂ := hframe₁.trans hframe₂
  obtain ⟨a₃, heq₃, hrep₃, hmine₃, hframe₃, hholds₃⟩ := hrep₂.split (hframe₁₂.sizeOk hsize) hmine₂ (d := d) hlow hhigh
    (by rw [hframe₁₂.getChunkNum, hn, hlen₂])
  refine ⟨a₃, head, free₂, mine₂, ?_, hrep₃, hmine₃, by rw [hn, hlen₂], hframe₁₂.trans hframe₃, ?_⟩
  · rw [CChunkAllocator.refit, if_pos hsame, heq₁]
    simp only [some_bind_eq, hn, heq₂, heq₃]
  rwa [hframe₁₂.chunkSize] at hholds₃

end

end AllocRep

private theorem initLoop_chain (n : Nat) :
    let a := (List.range n).foldl (fun (a : CChunkAllocator) i => (a.setNext i none).freeListInsert i)
      ⟨0, 0, 0, none, fun _ => default⟩
    Chain a.next a.freeList (List.range n).reverse := by
  induction n with
  | zero => rfl
  | succ n ih =>
    rw [range_succ, foldl_append, reverse_append]
    dsimp only [foldl_cons, foldl_nil] at ih ⊢
    generalize (List.range n).foldl _ _ = a at ih
    refine ⟨rfl, ?_⟩
    have hself : ((a.setNext n none).freeListInsert n).next n = a.freeList := by
      simp [CChunkAllocator.next, CChunkAllocator.freeListInsert, CChunkAllocator.setNext, CChunkAllocator.modify]
    rw [hself]
    refine (chain_congr fun i hi => ?_).2 ih
    have hne : i ≠ n := by
      rintro rfl
      simp at hi
    simp [CChunkAllocator.next, CChunkAllocator.freeListInsert, CChunkAllocator.setNext, CChunkAllocator.modify, hne]

theorem CChunkAllocator.initPoolData_rep (nChunks chunkSize : Nat) :
    AllocRep (initPoolData nChunks chunkSize) (List.range nChunks).reverse [] [] := by
  refine ⟨initLoop_chain nChunks, ?_, by simp [initPoolData]⟩
  show ((List.range nChunks).reverse ++ []).Perm (List.range nChunks)
  rw [append_nil]
  exact reverse_perm _

/-- The chunks of the pool: `cfree` on the free list, `own i` on the chain of the used node `i`. -/
structure ChunkRep (m : CHashMap) (add cfree : List Nat) (own : Nat → List Nat) : Prop where
  freeChain : Chain m.allocator.next m.allocator.freeList cfree
  ownChain : ∀ i ∈ add, Chain m.allocator.next (m.hashNode i).chunkHead (own i)
  total : (cfree ++ add.flatMap own).Perm (List.range m.allocator.chunkTotal)
  ownLength : ∀ i ∈ add, ((own i).length : Int) = m.allocator.getChunkNum (m.hashNode i).chunkLen
  freeTotal : m.allocator.freeTotal = cfree.length

/-- The chunks of the used nodes hold the byte strings `bytes`. -/
def DataRep (m : CHashMap) (add : List Nat) (own : Nat → List Nat) (bytes : Nat → List UInt8) : Prop :=
  ∀ i ∈ add, m.allocator.Holds (own i) (bytes i) ∧ (m.hashNode i).chunkLen = (bytes i).length

namespace ChunkRep

variable {m m' : CHashMap} {add add' rest cfree cfree' mine : List Nat} {own : Nat → List Nat} {i : Nat}

theorem congr (hrep : ChunkRep m add cfree own) (hperm : add'.Perm add) (halloc : m'.allocator = m.allocator)
    (hbody : ∀ j ∈ add, (m'.hashNode j).chunkHead = (m.hashNode j).chunkHead ∧
      (m'.hashNode j).chunkLen = (m.hashNode j).chunkLen) : ChunkRep m' add' cfree own := by
  refine ⟨?_, fun j hj => ?_, ?_, fun j hj => ?_, ?_⟩
  · rw [halloc]
    exact hrep.freeChain
  · rw [halloc, (hbody j (hperm.mem_iff.1 hj)).1]
    exact hrep.ownChain j (hperm.mem_iff.1 hj)
  · rw [halloc]
    exact ((hperm.flatMap_right own).append_left cfree).trans hrep.total
  · rw [halloc, (hbody j (hperm.mem_iff.1 hj)).2]
    exact hrep.ownLength j (hperm.mem_iff.1 hj)
  rw [halloc]
  exact hrep.freeTotal

theorem view (hrep : ChunkRep m (i :: rest) cfree own) : AllocRep m.allocator cfree (own i) (rest.flatMap own) :=
  ⟨hrep.freeChain, hrep.total, hrep.freeTotal⟩

theorem view_nil (hrep : ChunkRep m add cfree own) : AllocRep m.allocator cfree [] (add.flatMap own) :=
  ⟨hrep.freeChain, hrep.total, hrep.freeTotal⟩

theorem own_subset {j : Nat} (hj : j ∈ rest) : own j ⊆ rest.flatMap own :=
  fun _ hx => mem_flatMap.2 ⟨j, hj, hx⟩

theorem of_view_nil (hown : ∀ j ∈ rest, Chain m.allocator.next (m.hashNode j).chunkHead (own j) ∧
      ((own j).length : Int) = m.allocator.getChunkNum (m.hashNode j).chunkLen)
    (hview : AllocRep m'.allocator cfree' [] (rest.flatMap own)) (hframe : AllocFrame (rest.flatMap own) m.allocator m'.allocator)
    (hbody : ∀ j ∈ rest, (m'.hashNode j).chunkHead = (m.hashNode j).chunkHead ∧
      (m'.hashNode j).chunkLen = (m.hashNode j).chunkLen) : ChunkRep m' rest cfree' own := by
  refine ⟨hview.freeChain, fun j hj => ?_, hview.total, fun j hj => ?_, hview.freeTotal⟩
  · rw [(hbody j hj).1]
    exact hframe.chain (own_subset hj) (hown j hj).1
  rw [hframe.getChunkNum, (hbody j hj).2]
  exact (hown j hj).2

theorem of_view (hi : i ∉ rest) (hown : ∀ j ∈ rest, Chain m.allocator.next (m.hashNode j).chunkHead (own j) ∧
      ((own j).length : Int) = m.allocator.getChunkNum (m.hashNode j).chunkLen)
    (hview : AllocRep m'.allocator cfree' mine (rest.flatMap own))
    (hframe : AllocFrame (rest.flatMap own) m.allocator m'.allocator)
    (hmine : Chain m'.allocator.next (m'.hashNode i).chunkHead mine)
    (hlen : (mine.length : Int) = m'.allocator.getChunkNum (m'.hashNode i).chunkLen)
    (hbody : ∀ j ∈ rest, (m'.hashNode j).chunkHead = (m.hashNode j).chunkHead ∧
      (m'.hashNode j).chunkLen = (m.hashNode j).chunkLen) : ChunkRep m' (i :: rest) cfree' (update own i mine) := by
  have hother {j : Nat} (hj : j ∈ rest) : update own i mine j = own j :=
    update_of_ne (ne_of_mem_of_not_mem hj hi) _ _
  refine ⟨hview.freeChain, fun j hj => ?_, ?_, fun j hj => ?_, hview.freeTotal⟩
  · rcases mem_cons.1 hj with rfl | hj
    · rw [update_self]
      exact hmine
    rw [hother hj, (hbody j hj).1]
    exact hframe.chain (own_subset hj) (hown j hj).1
  · rw [flatMap_cons, update_self, flatMap_congr fun j hj => hother hj]
    exact hview.total
  rcases mem_cons.1 hj with rfl | hj
  · rw [update_self]
    exact hlen
  rw [hother hj, hframe.getChunkNum, (hbody j hj).2]
  exact (hown j hj).2

end ChunkRep

end Mysql51.Cache
