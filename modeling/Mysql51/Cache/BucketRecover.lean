import Mysql51.Cache.CoreDump

/-!
# Recovery from an untrusted buffer

`core_recover_bucket_mem` puts the records of a buffer into the cache. The length of a record is a signed number of the
buffer. `set` takes it as it is: under a key that is not in the cache it fails, but under a key that is, the entry gets the
negative length, and the loop goes on at a place before the end of the header.
-/

namespace Mysql51.Cache

open Machine List Option

namespace CacheAccess

/-- `set` with a negative length. As an `unsigned` it is above `INT_MAX`, so many bytes the branch of the log would copy. -/
def setNegative (s : CacheAccess) (key : TMBHashKey) (data : List UInt8) (dataLen now : Int) : Option (Int × CacheAccess) := do
  match ← s.cache.replaceNode key data dataLen now with
  | (none, cache) => some (1, { s with cache := cache })
  | (some i, cache) => if 0 ≤ s.cacheDumpMin then none else some (0, { s with cache := cache.setNodeFlag i .dirty })

variable (rest : List UInt8)

def bucketKey : TMBHashKey := Vector.ofFn fun i => rest.getD i.val 0

def bucketLen : Int := int32 (ofLeBytes ((rest.drop 16).take 4))

def bucketData : List UInt8 := (rest.drop 20).take (bucketLen rest).toNat

def setBucket (s : CacheAccess) (rest : List UInt8) (now : Int) : Option (Int × CacheAccess) :=
  if 0 ≤ bucketLen rest then s.set (bucketKey rest) (bucketData rest) .dirty now
  else s.setNegative (bucketKey rest) (rest.drop 20) (bucketLen rest) now

/-- What `core_recover_bucket_mem` leaves: its return value, `ipos`, the keys and lengths of the records it has applied and the
cache. -/
structure BucketRecovery where
  ret : Int
  ipos : Int
  applied : List (TMBHashKey × Int)
  cache : CacheAccess

/-- The loop of `core_recover_bucket_mem`; `none` if it does not end or reads in front of the buffer. -/
def recoverBucketLoop (clock : Nat → Int) (buff : List UInt8) :
    Nat → Int → List (TMBHashKey × Int) → CacheAccess → Option BucketRecovery
  | 0, _, _, _ => none
  | fuel + 1, ipos, applied, s =>
    if (buff.length : Int) - ipos ≤ 20 then some ⟨0, ipos, applied, s⟩
    else if ipos < 0 then none
    else
      let rest := buff.drop ipos.toNat
      if bucketLen rest > buff.length - ipos - 20 then some ⟨-2, ipos, applied, s⟩
      else do
        let (ret, s) ← s.setBucket rest (clock applied.length)
        if ret ≠ 0 then some ⟨-2, ipos, applied, s⟩
        else
          recoverBucketLoop clock buff fuel (ipos + 20 + bucketLen rest) (applied ++ [(bucketKey rest, bucketLen rest)]) s

/-- `core_recover_bucket_mem` returns `0` or `-2`, and `recover_size` is the size of the whole records that it has applied. -/
def RecoversWhole (clock : Nat → Int) (s : CacheAccess) (buff : List UInt8) : Prop :=
  ∃ fuel r es, recoverBucketLoop clock buff fuel 0 [] s = some r ∧ (r.ret = 0 ∨ r.ret = -2) ∧
    r.applied = es.map (fun e : Entry => (e.key, (e.data.length : Int))) ∧ Lru.dumpBytes es <+: buff ∧
    uint32 r.ipos = (Lru.dumpBytes es).length

end CacheAccess

open CacheAccess Lru

/-- The records in front of `rest` can be applied one after the other to a cache that stands for `l`, until one is cut off, has no
place, or has a negative length and a key that is not in the cache. -/
inductive RecoverOk (z : PoolSizes) (logging : Prop) (clock : Nat → Int) : Nat → List UInt8 → List Entry → Prop
  | done {n rest l} (hlen : rest.length ≤ 20) : RecoverOk z logging clock n rest l
  | cut {n rest l} (hlen : 20 < rest.length) (hcut : (rest.length : Int) - 20 < bucketLen rest) :
      RecoverOk z logging clock n rest l
  | absent {n rest l} (hlen : 20 < rest.length) (hneg : bucketLen rest < 0) (hkey : lookup l (bucketKey rest) = none) :
      RecoverOk z logging clock n rest l
  | refused {n rest l} (hlen : 20 < rest.length) (hlow : 0 ≤ bucketLen rest) (hhigh : bucketLen rest ≤ (rest.length : Int) - 20)
      (hacc : ¬ Accepts z l (bucketKey rest) (bucketData rest)) : RecoverOk z logging clock n rest l
  | applied {n rest l} (hlen : 20 < rest.length) (hlow : 0 ≤ bucketLen rest) (hhigh : bucketLen rest ≤ (rest.length : Int) - 20)
      (hacc : Accepts z l (bucketKey rest) (bucketData rest))
      (hlog : logging → (bucketData rest).length + 36 ≤ maxBinlogItemLen)
      (hrest : RecoverOk z logging clock (n + 1) (rest.drop (20 + (bucketLen rest).toNat))
        (⟨bucketKey rest, bucketData rest, .dirty, clock n, Sim.keptExpire l (bucketKey rest)⟩ :: without l (bucketKey rest))) :
      RecoverOk z logging clock n rest l

/-! ### Records -/

theorem Entry.exists_of (key : TMBHashKey) (data : List UInt8) : ∃ e : Entry, e.key = key ∧ e.data = data :=
  ⟨⟨key, data, .dirty, 0, 0⟩, rfl, rfl⟩

theorem CacheAccess.length_bucketData {rest : List UInt8} (hlow : 0 ≤ bucketLen rest) (hhigh : bucketLen rest ≤ (rest.length : Int) - 20) :
    ((bucketData rest).length : Int) = bucketLen rest := by
  rw [bucketData, length_take, length_drop]
  omega

theorem CacheAccess.eq_dumpBytes_append {rest : List UInt8} (hlow : 0 ≤ bucketLen rest)
    (hhigh : bucketLen rest ≤ (rest.length : Int) - 20) {e : Entry} (hkey : e.key = bucketKey rest) (hdata : e.data = bucketData rest) :
    rest = e.dumpBytes ++ rest.drop (20 + (bucketLen rest).toNat) := by
  have hlength := length_bucketData hlow hhigh
  have hfour : ((rest.drop 16).take 4).length = 4 := by
    rw [length_take, length_drop]
    omega
  have hlt := ofLeBytes_lt ((rest.drop 16).take 4)
  rw [hfour] at hlt
  have hlen : (bucketData rest).length = ofLeBytes ((rest.drop 16).take 4) := by
    have hdef : bucketLen rest = int32 (ofLeBytes ((rest.drop 16).take 4)) := rfl
    generalize ofLeBytes ((rest.drop 16).take 4) = x at hdef hlt ⊢
    unfold int32 at hdef
    omega
  have hhead : e.key.toList = rest.take 16 := by
    rw [hkey]
    apply ext_getElem
    · rw [Vector.length_toList, length_take]
      omega
    intro i hi hi'
    rw [Vector.length_toList] at hi
    simp only [bucketKey, Vector.getElem_toList, Vector.getElem_ofFn]
    rw [getElem_take, getD_eq_getElem?_getD, List.getElem?_eq_getElem (by omega), getD_some]
  have hbytes : leBytes 4 (bucketData rest).length = (rest.drop 16).take 4 := by
    have hbytes := leBytes_ofLeBytes ((rest.drop 16).take 4)
    rwa [hfour, ← hlen] at hbytes
  rw [Entry.dumpBytes, hdata, hhead, hbytes, bucketData, ← drop_drop, append_assoc, append_assoc, take_append_drop]
  conv_lhs => rw [← take_append_drop 16 rest, ← take_append_drop 4 (rest.drop 16), drop_drop]

/-! ### Negative lengths -/

variable (a : CChunkAllocator)

variable {len dumpMin : Int} {data : List UInt8} {r : BucketRecovery}

theorem CChunkAllocator.getChunkNum_nonpos (hsize : 0 < a.chunkSize) (hlt : a.chunkSize < 2147483648) (hlow : -2147483648 ≤ len)
    (hneg : len < 0) : a.getChunkNum len ≤ 0 := by
  rw [getChunkNum, int32_of_range (by omega) (by omega)]
  rcases le_or_gt 0 (len + a.chunkSize - 1) with hnonneg | hlow
  · rw [Int.tdiv_eq_zero_of_lt hnonneg (by omega)]
  have hquot := Int.tdiv_nonneg (show 0 ≤ -(len + a.chunkSize - 1) by omega) (Int.natCast_nonneg a.chunkSize)
  rw [Int.neg_tdiv] at hquot
  omega

theorem CChunkAllocator.malloc_of_nonpos {n : Int} (hn : n ≤ 0) : ∃ a', a.malloc n = some (a', none) := by
  by_cases hlack : a.freeTotal < n
  · exact ⟨a, malloc_of_lack hlack⟩
  have hzero : n.toNat = 0 := by omega
  refine ⟨{ a with freeTotal := int32 (a.freeTotal - n) }, ?_⟩
  rw [malloc, if_neg hlack, hzero]
  rfl

theorem CChunkAllocator.split_of_neg (hdr : Option Nat) (hneg : len < 0) (d d' : List UInt8) :
    a.split hdr d len = a.split hdr d' len := by
  unfold split
  cases hdr with
  | none => cases a.chunkTotal <;> rfl
  | some i =>
    cases a.chunkTotal with
    | zero => rfl
    | succ n =>
      have hlt : len < a.chunkSize := by omega
      simp only [splitLoop, if_pos hlt, if_pos hneg]

theorem CHashMap.replaceNode_of_neg (m : CHashMap) (key : TMBHashKey) (hneg : len < 0) (d d' : List UInt8) (now : Int) :
    m.replaceNode key d len now = m.replaceNode key d' len now := by
  have hsplit : ∀ (a : CChunkAllocator) hdr, a.split hdr d len = a.split hdr d' len := fun a hdr => a.split_of_neg hdr hneg d d'
  have hupdate : ∀ (m : CHashMap) i, m.updateNode i d len now = m.updateNode i d' len now := by
    intro m i
    simp only [updateNode, hsplit]
  have hinsert : ∀ m : CHashMap, m.insertNode key d len now = m.insertNode key d' len now := by
    intro m
    simp only [insertNode, hsplit]
  simp only [replaceNode, hupdate, hinsert]

theorem CacheAccess.set_eq_setNegative (s : CacheAccess) (key : TMBHashKey)
    (hlow : -2147483648 ≤ len) (hneg : len < 0) (hlen : data.length = uint32 len) (rest : List UInt8) (now : Int) :
    s.set key data .dirty now = s.setNegative key rest len now := by
  have hlength : int32 data.length = len := by
    rw [hlen, int32, uint32]
    omega
  have hlong : maxBinlogItemLen ≤ (setRecord key data 0).length := by
    rw [length_setRecord, hlen, uint32, maxBinlogItemLen]
    omega
  rw [CacheAccess.set, setCore, setNegative, hlength, s.cache.replaceNode_of_neg key hneg data rest]
  refine congrArg _ (funext fun r => ?_)
  obtain ⟨node, cache⟩ := r
  cases node with
  | none => rfl
  | some i =>
    by_cases hlog : 0 ≤ s.cacheDumpMin
    · simp [writeLog, hlog, Nat.not_lt.2 hlong]
    · simp [writeLog, hlog]

theorem CacheAccess.bucketLen_range (rest : List UInt8) : -2147483648 ≤ bucketLen rest ∧ bucketLen rest < 2147483648 :=
  int32_range _

namespace Sim

variable {z : PoolSizes} {s : CacheAccess} {add : List Nat} {l : List Entry} {key : TMBHashKey} {len : Int}

theorem chunkSize_range (h : Sim z s.cache add l) : 0 < s.cache.allocator.chunkSize ∧ s.cache.allocator.chunkSize < 2147483648 := by
  rw [h.chunkSize]
  have hfits := z.chunk_fits
  exact ⟨z.chunkSize_pos, by omega⟩

theorem setNegative_absent (h : Sim z s.cache add l) (hkey : lookup l key = none) (hlow : -2147483648 ≤ len) (hneg : len < 0)
    (data : List UInt8) (now : Int) : ∃ s', s.setNegative key data len now = some (1, s') := by
  obtain ⟨hpos, hlt⟩ := h.chunkSize_range
  have hinsert : ∃ m', s.cache.insertNode key data len now = some (none, m') := by
    cases hfree : s.cache.freeList with
    | none => exact ⟨_, CHashMap.insertNode_of_full _ hfree key data len now⟩
    | some i =>
      obtain ⟨a', hmalloc⟩ := s.cache.allocator.malloc_of_nonpos (s.cache.allocator.getChunkNum_nonpos hpos hlt hlow hneg)
      refine ⟨s.cache.setAllocator a', ?_⟩
      rw [CHashMap.insertNode_of_free _ hfree, hmalloc]
      rfl
  obtain ⟨m', hinsert⟩ := hinsert
  refine ⟨{ s with cache := m' }, ?_⟩
  simp only [setNegative, CHashMap.replaceNode, h.findNode_none hkey, some_bind_eq, hinsert]

/-- Under a key of the cache a negative length never fails: it asks for no more chunks than the entry has. -/
theorem setNegative_present (h : Sim z s.cache add l) {e : Entry} (hkey : lookup l key = some e) (hlow : -2147483648 ≤ len)
    (hneg : len < 0) {now ret : Int} {s' : CacheAccess} (hset : s.setNegative key data len now = some (ret, s')) : ret = 0 := by
  obtain ⟨hpos, hlt⟩ := h.chunkSize_range
  obtain ⟨i, hi, -, hfind, -⟩ := h.findNode_some hkey
  have hframe := CHashMap.insertAddListHead_frame s.cache i
  have hroom : ¬ (s.cache.insertAddListHead i).allocator.Lacks ((s.cache.insertAddListHead i).hashNode i).chunkLen len := by
    rintro ⟨hgrow, -⟩
    have hnew := s.cache.allocator.getChunkNum_nonpos hpos hlt hlow hneg
    obtain ⟨free, chain, cfree, own, bytes, hrep, -, -⟩ := h.rep
    have hold := hrep.chunks.ownLength i hi
    rw [hframe.allocator, hframe.chunkLen] at hgrow
    omega
  simp only [setNegative, CHashMap.replaceNode, hfind, some_bind_eq, CHashMap.updateNode_eq, if_neg hroom] at hset
  obtain ⟨⟨node, m'⟩, hupdate, hset⟩ := bind_eq_some_iff.1 hset
  obtain ⟨⟨head, a⟩, -, hpair⟩ := map_eq_some_iff.1 hupdate
  cases hpair
  dsimp only at hset
  split at hset
  · cases hset
  · exact (Prod.mk.inj (Option.some.inj hset)).1.symm

end Sim

/-! ### The loop -/

namespace CacheAccess

variable {z : PoolSizes} {clock : Nat → Int} {buff : List UInt8} {s : CacheAccess} {add : List Nat} {l : List Entry}

theorem recoverBucketLoop_succ (fuel ipos : Nat) (applied : List (TMBHashKey × Int)) (s : CacheAccess) :
    recoverBucketLoop clock buff (fuel + 1) ipos applied s =
      if (buff.drop ipos).length ≤ 20 then some ⟨0, ipos, applied, s⟩
      else if bucketLen (buff.drop ipos) > (buff.drop ipos).length - 20 then some ⟨-2, ipos, applied, s⟩
      else (s.setBucket (buff.drop ipos) (clock applied.length)).bind fun r =>
        if r.1 ≠ 0 then some ⟨-2, ipos, applied, r.2⟩
        else recoverBucketLoop clock buff fuel (ipos + 20 + bucketLen (buff.drop ipos))
          (applied ++ [(bucketKey (buff.drop ipos), bucketLen (buff.drop ipos))]) r.2 := by
  have hlength : (buff.drop ipos).length = buff.length - ipos := length_drop
  by_cases hshort : (buff.length : Int) - ipos ≤ 20
  · rw [recoverBucketLoop, if_pos hshort, if_pos (by omega)]
  have hrest : (buff.length : Int) - ipos - 20 = ((buff.drop ipos).length : Int) - 20 := by omega
  rw [recoverBucketLoop, if_neg hshort, if_neg (by omega),
    if_neg (show ¬ (buff.drop ipos).length ≤ 20 by omega), Int.toNat_natCast, hrest]
  rfl

variable {applied : List (TMBHashKey × Int)}

theorem applied_isPrefixOf {fuel : Nat} {ipos : Int}
    (hloop : recoverBucketLoop clock buff fuel ipos applied s = some r) : applied <+: r.applied := by
  induction fuel generalizing ipos applied s with
  | zero => cases hloop
  | succ fuel ih =>
    rw [recoverBucketLoop] at hloop
    split at hloop
    · cases hloop
      exact prefix_rfl
    split at hloop
    · cases hloop
    dsimp only at hloop
    split at hloop
    · cases hloop
      exact prefix_rfl
    obtain ⟨⟨ret, s₁⟩, -, hloop⟩ := bind_eq_some_iff.1 hloop
    dsimp only at hloop
    split at hloop
    · cases hloop
      exact prefix_rfl
    exact (prefix_append _ _).trans (ih hloop)

theorem recoverBucketLoop_of_ok {n ipos : Nat} {rest : List UInt8}
    (hok : RecoverOk z (0 ≤ dumpMin) clock n rest l) (h : Sim z s.cache add l) (hdump : s.cacheDumpMin = dumpMin)
    (hrest : rest = buff.drop ipos) (hshort : buff.length + z.chunkSize ≤ 2147483647) (hn : applied.length = n) :
    ∃ fuel r es, recoverBucketLoop clock buff fuel ipos applied s = some r ∧ (r.ret = 0 ∨ r.ret = -2) ∧
      r.applied = applied ++ es.map (fun e : Entry => (e.key, (e.data.length : Int))) ∧ dumpBytes es <+: rest ∧
      r.ipos = ipos + (dumpBytes es).length := by
  induction hok generalizing s add ipos applied with
  | done hlen =>
    subst hrest
    refine ⟨1, ⟨0, ipos, applied, s⟩, [], ?_, .inl rfl, (append_nil _).symm, nil_prefix, by simp [dumpBytes]⟩
    rw [recoverBucketLoop_succ, if_pos hlen]
  | cut hlen hcut =>
    subst hrest
    refine ⟨1, ⟨-2, ipos, applied, s⟩, [], ?_, .inr rfl, (append_nil _).symm, nil_prefix, by simp [dumpBytes]⟩
    rw [recoverBucketLoop_succ, if_neg (by omega), if_pos hcut]
  | absent hlen hneg hkey =>
    subst hrest
    obtain ⟨s', hset⟩ := h.setNegative_absent hkey (bucketLen_range _).1 hneg ((buff.drop ipos).drop 20) (clock applied.length)
    refine ⟨1, ⟨-2, ipos, applied, s'⟩, [], ?_, .inr rfl, (append_nil _).symm, nil_prefix, by simp [dumpBytes]⟩
    rw [recoverBucketLoop_succ, if_neg (by omega), if_neg (by omega), setBucket, if_neg (by omega), hset]
    rfl
  | refused hlen hlow hhigh hacc =>
    subst hrest
    have hlength := length_bucketData hlow hhigh
    have hdrop : (buff.drop ipos).length ≤ buff.length := (drop_sublist _ _).length_le
    obtain ⟨cache, add', -, hset⟩ := h.setCore_fails (by omega) hacc none .dirty (clock applied.length)
    refine ⟨1, ⟨-2, ipos, applied, { s with cache := cache }⟩, [], ?_, .inr rfl, (append_nil _).symm, nil_prefix,
      by simp [dumpBytes]⟩
    rw [recoverBucketLoop_succ, if_neg (by omega), if_neg (by omega), setBucket, if_pos hlow, CacheAccess.set, hset]
    rfl
  | @applied n rest l hlen hlow hhigh hacc hlog hrest' ih =>
    subst hrest hn hdump
    have hlength := length_bucketData hlow hhigh
    have hdrop : (buff.drop ipos).length ≤ buff.length := (drop_sublist _ _).length_le
    rcases h.set_of_accepts (by omega) hacc (clock applied.length) with ⟨s₁, add₁, hset, h₁, hdump₁, -⟩ | ⟨-, hlogging, hlong⟩
    · have hplace : (buff.drop ipos).drop (20 + (bucketLen (buff.drop ipos)).toNat) =
          buff.drop (ipos + (20 + (bucketLen (buff.drop ipos)).toNat)) := drop_drop
      obtain ⟨fuel, r, es, hloop, hret, happlied, hprefix, hpos⟩ := ih h₁ hdump₁ hplace
        (show (applied ++ [(bucketKey (buff.drop ipos), bucketLen (buff.drop ipos))]).length = applied.length + 1 by simp)
      obtain ⟨e, hkey, hdata⟩ := Entry.exists_of (bucketKey (buff.drop ipos)) (bucketData (buff.drop ipos))
      have hrecord := eq_dumpBytes_append hlow hhigh hkey hdata
      refine ⟨fuel + 1, r, e :: es, ?_, hret, ?_, ?_, ?_⟩
      · have hnext : (ipos : Int) + 20 + bucketLen (buff.drop ipos) =
            ((ipos + (20 + (bucketLen (buff.drop ipos)).toNat) : Nat) : Int) := by omega
        rw [recoverBucketLoop_succ, if_neg (by omega), if_neg (by omega), setBucket, if_pos hlow, hset, bind_some,
          if_neg (fun hne => hne rfl), hnext, hloop]
      · rw [happlied, append_assoc, map_cons, singleton_append, hkey, hdata, hlength]
      · rw [dumpBytes_cons, hrecord]
        exact (prefix_append_right_inj _).2 hprefix
      rw [hpos, dumpBytes_cons, length_append, length_dumpBytes_entry, hdata]
      omega
    have hfits := hlog hlogging
    omega

/-- When only whole records have been applied, they could be applied one after the other. -/
theorem ok_of_recoverBucketLoop {fuel ipos : Nat} (h : Sim z s.cache add l)
    (hdump : s.cacheDumpMin = dumpMin) (hshort : buff.length + z.chunkSize ≤ 2147483647)
    (hloop : recoverBucketLoop clock buff fuel ipos applied s = some r) (hwhole : ∀ x ∈ r.applied, 0 ≤ x.2) :
    RecoverOk z (0 ≤ dumpMin) clock applied.length (buff.drop ipos) l := by
  induction fuel generalizing ipos applied s add l with
  | zero => cases hloop
  | succ fuel ih =>
    rw [recoverBucketLoop_succ] at hloop
    split at hloop
    case isTrue hlen => exact .done hlen
    case isFalse hlen =>
      split at hloop
      case isTrue hcut => exact .cut (by omega) hcut
      case isFalse hcut =>
        have hdrop : (buff.drop ipos).length ≤ buff.length := (drop_sublist _ _).length_le
        obtain ⟨⟨ret, s₁⟩, hset, hloop⟩ := bind_eq_some_iff.1 hloop
        dsimp only at hloop
        rw [setBucket] at hset
        by_cases hlow : 0 ≤ bucketLen (buff.drop ipos)
        · have hlength := length_bucketData hlow (by omega)
          rw [if_pos hlow] at hset
          by_cases hacc : Accepts z l (bucketKey (buff.drop ipos)) (bucketData (buff.drop ipos))
          · rcases h.set_of_accepts (by omega) hacc (clock applied.length) with ⟨s₂, add₂, hset₂, h₂, hdump₂, hlog⟩ | ⟨hnone, -, -⟩
            · obtain ⟨rfl, rfl⟩ := Prod.mk.inj (Option.some.inj (hset.symm.trans hset₂))
              rw [if_neg (by decide)] at hloop
              refine .applied (by omega) hlow (by omega) hacc (hdump ▸ hlog) ?_
              rw [drop_drop]
              have hplace : (ipos : Int) + 20 + bucketLen (buff.drop ipos) =
                  ((ipos + (20 + (bucketLen (buff.drop ipos)).toNat) : Nat) : Int) := by omega
              rw [hplace] at hloop
              have hrest := ih h₂ (hdump₂.trans hdump) hloop
              rwa [length_append, length_singleton] at hrest
            rw [hnone] at hset
            cases hset
          exact .refused (by omega) hlow (by omega) hacc
        rw [if_neg hlow] at hset
        cases hkey : lookup l (bucketKey (buff.drop ipos)) with
        | none => exact .absent (by omega) (by omega) hkey
        | some e =>
          -- the entry of the key would have been given the negative length
          obtain rfl := h.setNegative_present hkey (bucketLen_range _).1 (by omega) hset
          rw [if_neg (by decide)] at hloop
          have hmem := (applied_isPrefixOf hloop).subset (mem_append_right applied mem_cons_self)
          exact absurd (hwhole _ hmem) hlow

def oneBuffer : List UInt8 := TMBHashKey.one.toList ++ leBytes 4 2 ++ [9, 9]

section

variable {free : List Nat} {chain : Nat → List Nat} {cfree : List Nat} {own : Nat → List Nat}
  (hrep : PoolRep s.cache free chain add cfree own)
include hrep

/-- A length of -20 under the key of an entry: `set` returns `0`, and the entry stays where it is found. -/
theorem setBucket_stuck {i : Nat} (hi : i ∈ add) (hkey : (s.cache.hashNode i).key = bucketKey buff)
    (hlen : bucketLen buff = -20) (hsize : s.cache.allocator.getChunkNum (-20) = 0) (hdump : s.cacheDumpMin < 0) (now : Int) :
    ∃ s' cfree' own', s.setBucket buff now = some (0, s') ∧ PoolRep s'.cache free chain (i :: add.erase i) cfree' own' ∧
      (s'.cache.hashNode i).key = bucketKey buff ∧ s'.cache.allocator.getChunkNum (-20) = 0 ∧ s'.cacheDumpMin < 0 := by
  have hframe := CHashMap.insertAddListHead_frame s.cache i
  have hrep₁ := hrep.touch hi
  have hsize₁ : (s.cache.insertAddListHead i).allocator.getChunkNum (-20) = 0 := by rw [hframe.allocator, hsize]
  have hold := hrep₁.chunks.ownLength i mem_cons_self
  have hroom : ¬ (s.cache.insertAddListHead i).allocator.Lacks ((s.cache.insertAddListHead i).hashNode i).chunkLen (-20) := by
    rintro ⟨hgrow, -⟩
    rw [hsize₁] at hgrow
    omega
  obtain ⟨head, a', cfree', mine, hupdate, hrep₂, halloc, -⟩ := hrep₁.updateNode_ok mem_cons_self (buff.drop 20) now
    (show -2147483648 ≤ (-20 : Int) by decide) (by decide) (by rw [hsize₁]) hroom
  rw [erase_cons_head] at hrep₂
  refine ⟨{ s with cache := CHashMap.setNodeFlag ((s.cache.insertAddListHead i).fill i (-20) head now a') i .dirty }, cfree', _, ?_,
    hrep₂.setNodeFlag i .dirty, ?_, ?_, hdump⟩
  · rw [setBucket, hlen, if_neg (by decide), ← hkey]
    simp only [setNegative, CHashMap.replaceNode, hrep.hash.findNode_some hi, some_bind_eq, hupdate,
      if_neg (show ¬ 0 ≤ s.cacheDumpMin by omega)]
  · have hfill := THashNode.key_eq (CHashMap.body_fill_self (s.cache.insertAddListHead i) i (-20) head now a')
    rw [CHashMap.setNodeFlag, CHashMap.hashNode_modify_self]
    exact hfill.trans ((hframe.key i).trans hkey)
  have hfill : (CHashMap.setNodeFlag ((s.cache.insertAddListHead i).fill i (-20) head now a') i .dirty).allocator = a' :=
    (CHashMap.sizes_fill (s.cache.insertAddListHead i) i (-20) head now a').2.2
  rw [hfill, halloc.getChunkNum, hsize₁]

theorem recoverBucketLoop_stuck {i : Nat} (hi : i ∈ add) (hkey : (s.cache.hashNode i).key = bucketKey buff)
    (hlen : bucketLen buff = -20) (hlong : 20 < buff.length) (hsize : s.cache.allocator.getChunkNum (-20) = 0)
    (hdump : s.cacheDumpMin < 0) (fuel : Nat) (applied : List (TMBHashKey × Int)) :
    recoverBucketLoop clock buff fuel 0 applied s = none := by
  induction fuel generalizing s add cfree own applied with
  | zero => rfl
  | succ fuel ih =>
    obtain ⟨s', cfree', own', hset, hrep', hkey', hsize', hdump'⟩ :=
      setBucket_stuck hrep hi hkey hlen hsize hdump (clock applied.length)
    have hloop : recoverBucketLoop clock buff (fuel + 1) (0 : Nat) applied s = _ := recoverBucketLoop_succ fuel 0 applied s
    rw [drop_zero] at hloop
    refine hloop.trans ?_
    rw [if_neg (by omega), if_neg (by omega), hset, bind_some, if_neg (fun hne => hne rfl), hlen]
    exact ih hrep' mem_cons_self hkey' hsize' hdump' _

end

/-- The key of sixteen zero bytes with the length -20, and one byte more. -/
def stuckBuffer : List UInt8 := List.replicate 16 0 ++ leBytes 4 4294967276 ++ [0]

theorem stuckBuffer_record : bucketKey stuckBuffer = TMBHashKey.zero ∧ bucketLen stuckBuffer = -20 ∧ 20 < stuckBuffer.length := by
  decide +kernel

end CacheAccess

end Mysql51.Cache
