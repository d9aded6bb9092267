import Mysql51.Cache.MarkClean

/-!
# The iterator of the shared memory map

`TfcShmMap` keeps its values in a cache. Its iterator has no position in the add list: `init_begin` and `operator++` ask for the
oldest key and `get` it, which moves it to the front, until the oldest key is the first one again.
-/

namespace Mysql51.Cache

open Machine List Option

def CacheAccess.oldestKey (s : CacheAccess) : Option TMBHashKey := s.cache.addTail.map fun i => (s.cache.hashNode i).key

/-- `TfcShmMapIterator`; of the pointer `_ca` it matters whether it is null. -/
structure TfcShmMapIterator where
  ca : Bool
  firstKey : TMBHashKey
  curKey : TMBHashKey
  curData : List UInt8
  curDataFlag : Int

namespace TfcShmMapIterator

def init (size : Nat) : TfcShmMapIterator :=
  { ca := false, firstKey := TMBHashKey.zero, curKey := TMBHashKey.zero, curData := List.replicate size 0, curDataFlag := -1 }

variable (it : TfcShmMapIterator)

def load (size : Nat) (s : CacheAccess) : Option (TfcShmMapIterator × CacheAccess) := do
  let ((ret, got), s) ← s.get it.curKey size
  some ({ it with curDataFlag := ret, curData := CChunkAllocator.overwrite it.curData (got.elim [] CacheAccess.Got.buf) }, s)

def initBegin (size : Nat) (s : CacheAccess) : Option (TfcShmMapIterator × CacheAccess) :=
  match s.oldestKey with
  | none => some ({ it with ca := false, curDataFlag := 1 }, s)
  | some key => { it with ca := true, firstKey := key, curKey := key, curDataFlag := 0 }.load size s

def next (size : Nat) (s : CacheAccess) : Option (TfcShmMapIterator × CacheAccess) :=
  if it.ca then
    match s.oldestKey with
    | none => some ({ it with ca := false, curDataFlag := 1 }, s)
    | some key =>
      let it := { it with curKey := key, curDataFlag := 0 }
      if it.firstKey = key then some ({ it with ca := false }, s) else it.load size s
  else some (it, s)

def atEnd : Bool := !it.ca

def visit (size : Nat) : Nat → TfcShmMapIterator → CacheAccess → Option (List TfcShmMapIterator × CacheAccess)
  | fuel, it, s =>
    if it.atEnd then some ([], s)
    else
      match fuel with
      | 0 => none
      | fuel + 1 => do
          let (it', s) ← it.next size s
          let (its, s) ← visit size fuel it' s
          some (it :: its, s)

def iterate (size fuel : Nat) (s : CacheAccess) : Option (List TfcShmMapIterator × CacheAccess) := do
  let (it, s) ← it.initBegin size s
  visit size fuel it s

end TfcShmMapIterator

namespace Sim

open Lru CacheAccess

variable {z : PoolSizes} {s : CacheAccess} {add : List Nat} {l : List Entry} {i : Nat} {e : Entry}

theorem oldestKey_nil (h : Sim z s.cache add []) : s.oldestKey = none := by
  obtain ⟨hadds, hlen, -⟩ := h.addRep
  obtain rfl := eq_nil_of_length_eq_zero hlen
  rw [oldestKey, hadds.tail]
  rfl

theorem exists_concat (h : Sim z s.cache add (l ++ [e])) : ∃ add' i, add = add' ++ [i] := by
  have hlen := h.addRep.2.1
  rcases eq_nil_or_concat' add with rfl | hconcat
  · simp at hlen
  · exact hconcat

theorem oldestKey_concat (h : Sim z s.cache (add ++ [i]) (l ++ [e])) : s.oldestKey = some e.key := by
  obtain ⟨hadds, -, -⟩ := h.addRep
  obtain ⟨free, chain, cfree, own, bytes, -, -, hl⟩ := h.rep
  rw [map_append, map_singleton] at hl
  obtain ⟨-, rfl⟩ := append_singleton_inj.1 hl
  rw [oldestKey, hadds.tail, List.getLast?_concat]
  rfl

theorem get_concat (h : Sim z s.cache (add ++ [i]) (l ++ [e])) (bufSize : Nat) :
    ∃ cache, Sim z cache (i :: add) (e :: l) ∧ s.get e.key bufSize = some (gotten e bufSize, { s with cache := cache }) := by
  have hkeys := h.keys_nodup
  obtain ⟨j, hj, cache, hkey, h', hget⟩ := h.get_touches (lookup_eq_some hkeys (e := e) (by simp)) bufSize
  have hnodup := h.addRep.1.chain.nodup
  have hlast : (s.cache.hashNode i).key = e.key := by
    obtain ⟨free, chain, cfree, own, bytes, -, -, hl⟩ := h.rep
    rw [map_append, map_singleton] at hl
    rw [(append_singleton_inj.1 hl).2]
    rfl
  obtain rfl : j = i := h.key_inj hj (by simp) (hkey.trans hlast.symm)
  rw [map_append, map_singleton, nodup_append] at hkeys
  have hadd : (add ++ [j]).erase j = add := by
    rw [nodup_append] at hnodup
    rw [erase_append_right _ fun hmem => hnodup.2.2 j hmem j (by simp) rfl, erase_cons_head, append_nil]
  have hwithout : without (l ++ [e]) e.key = l := by
    rw [without, filter_append, filter_cons_of_neg (by simp), filter_nil, append_nil, filter_eq_self]
    intro e' he'
    rw [decide_eq_true_iff]
    exact hkeys.2.2 e'.key (mem_map_of_mem he') e.key (by simp)
  rw [hadd, hwithout] at h'
  exact ⟨cache, h', hget⟩

end Sim

namespace TfcShmMapIterator

variable {z : PoolSizes} {s : CacheAccess} {add done : List Nat} {l seen : List Entry} {first : Entry} {it : TfcShmMapIterator}

theorem visit_succ (size fuel : Nat) (s : CacheAccess) (hca : it.ca) :
    visit size (fuel + 1) it s = (it.next size s).bind fun r => (visit size fuel r.1 r.2).bind fun q => some (it :: q.1, q.2) := by
  rw [visit, atEnd, hca, if_neg (by decide)]
  rfl

/-- The iterator has met the entries `seen`, which are now in front; `l` are those that it has still to meet. -/
theorem visit_eq (size : Nat) (h : Sim z s.cache (done ++ add) (seen ++ first :: l)) (hlen : add.length = l.length)
    (hca : it.ca) (hfirst : it.firstKey = first.key) {fuel : Nat} (hfuel : l.length < fuel) :
    ∃ its s', visit size fuel it s = some (its, s') ∧ its.map curKey = it.curKey :: (l.map Entry.key).reverse ∧
      Sim z s'.cache (add ++ done) (l ++ (seen ++ [first])) := by
  induction l using List.reverseRecOn generalizing s add done seen it fuel with
  | nil =>
    obtain ⟨fuel, rfl⟩ := Nat.exists_eq_succ_of_ne_zero (Nat.ne_zero_of_lt hfuel)
    obtain rfl := eq_nil_of_length_eq_zero hlen
    rw [append_nil] at h
    obtain ⟨done, i, rfl⟩ := h.exists_concat
    have hnext : it.next size s = some ({ it with curKey := first.key, curDataFlag := 0, ca := false }, s) := by
      simp only [next, hca, if_true, h.oldestKey_concat, hfirst]
    refine ⟨[it], s, ?_, rfl, h⟩
    rw [visit_succ size fuel s hca, hnext]
    cases fuel <;> rfl
  | append_singleton l e ih =>
    obtain ⟨fuel, rfl⟩ := Nat.exists_eq_succ_of_ne_zero (Nat.ne_zero_of_lt hfuel)
    rw [length_append, length_singleton] at hlen hfuel
    obtain ⟨add, i, rfl⟩ : ∃ add' i, add = add' ++ [i] := by
      rcases eq_nil_or_concat' add with rfl | hconcat
      · simp at hlen
      · exact hconcat
    rw [length_append, length_singleton] at hlen
    rw [← append_assoc, ← cons_append, ← append_assoc] at h
    obtain ⟨cache, h', hget⟩ := h.get_concat size
    have hne : first.key ≠ e.key := by
      have hkeys := h.keys_nodup
      rw [map_append, nodup_append] at hkeys
      exact hkeys.2.2 first.key (by simp) e.key (by simp)
    obtain ⟨it', hnext, hca', hfirst', hcur'⟩ : ∃ it', it.next size s = some (it', { s with cache := cache }) ∧ it'.ca ∧
        it'.firstKey = first.key ∧ it'.curKey = e.key := by
      simp only [next, hca, if_true, h.oldestKey_concat, hfirst, if_neg hne, load, hget, some_bind_eq]
      exact ⟨_, rfl, rfl, rfl, rfl⟩
    obtain ⟨its, s', hvisit, hkeys, hsim⟩ :=
      ih (show Sim z (CacheAccess.cache { s with cache := cache }) ((i :: done) ++ add) ((e :: seen) ++ first :: l) from h')
        (by omega) hca' hfirst'
        (show l.length < fuel by omega)
    refine ⟨it :: its, s', ?_, ?_, ?_⟩
    · rw [visit_succ size fuel s hca, hnext]
      simp only [bind_some, hvisit]
    · rw [map_cons, hkeys, hcur', map_append, map_singleton, reverse_append, reverse_singleton, singleton_append]
    rw [append_assoc, append_assoc]
    exact hsim

/-- A whole iteration meets every key once, the oldest first, and leaves the nodes of the add list in their order. -/
theorem iterate_visits (it : TfcShmMapIterator) (size : Nat) (h : Sim z s.cache add l) {fuel : Nat} (hfuel : l.length ≤ fuel) :
    ∃ its s', it.iterate size fuel s = some (its, s') ∧ its.map curKey = (l.map Entry.key).reverse ∧
      (its.map curKey).Nodup ∧ Sim z s'.cache add l := by
  have hnodup := nodup_reverse.2 h.keys_nodup
  rcases eq_nil_or_concat' l with rfl | ⟨l, e, rfl⟩
  · refine ⟨[], s, ?_, rfl, nodup_nil, h⟩
    simp only [iterate, initBegin, h.oldestKey_nil, some_bind_eq]
    cases fuel <;> rfl
  obtain ⟨add, i, rfl⟩ := h.exists_concat
  obtain ⟨cache, h', hget⟩ := h.get_concat size
  have hlen := h.addRep.2.1
  simp only [length_append, length_singleton, Nat.add_right_cancel_iff] at hlen hfuel
  obtain ⟨it', hbegin, hca, hfirst, hcur⟩ : ∃ it', it.initBegin size s = some (it', { s with cache := cache }) ∧ it'.ca ∧
      it'.firstKey = e.key ∧ it'.curKey = e.key := by
    simp only [initBegin, h.oldestKey_concat, load, hget, some_bind_eq]
    exact ⟨_, rfl, rfl, rfl, rfl⟩
  obtain ⟨its, s', hvisit, hkeys, hsim⟩ := visit_eq size
    (show Sim z (CacheAccess.cache { s with cache := cache }) ([i] ++ add) ([] ++ e :: l) from h') hlen hca hfirst
    (show l.length < fuel by omega)
  have hall : its.map curKey = ((l ++ [e]).map Entry.key).reverse := by
    rw [hkeys, hcur, map_append, map_singleton, reverse_append, reverse_singleton, singleton_append]
  refine ⟨its, s', ?_, hall, hall ▸ hnodup, hsim⟩
  simp only [iterate, hbegin, some_bind_eq, hvisit]

/-- Two entries are met, the older one first. -/
theorem iterate_visits_small : ∃ (m : CHashMap) (add : List Nat) (l : List Entry) (its : List TfcShmMapIterator) (s' : CacheAccess),
    Sim PoolSizes.small m add l ∧ l.map Entry.key = [TMBHashKey.one, TMBHashKey.zero] ∧
    (init 3).iterate 3 2 ⟨m, -1, true, CBinLog.init 20000000 8⟩ = some (its, s') ∧
    its.map curKey = [TMBHashKey.zero, TMBHashKey.one] ∧ Sim PoolSizes.small s'.cache add l := by
  let s₀ : CacheAccess := ⟨CHashMap.initPoolData 4 2 4 8, -1, true, CBinLog.init 20000000 8⟩
  obtain ⟨m₁, add₁, h₁, -⟩ := Sim.setCore_ok (s := s₀) (Sim.init PoolSizes.small) (by decide)
    (show Lru.Accepts PoolSizes.small [] TMBHashKey.zero [1, 2, 3] by decide) none .dirty 7
  obtain ⟨m₂, add₂, h₂, -⟩ := Sim.setCore_ok (s := { s₀ with cache := m₁ }) h₁ (by decide)
    (show Lru.Accepts PoolSizes.small _ TMBHashKey.one [4, 5, 6] by decide) none .dirty 8
  obtain ⟨its, s', hiter, hkeys, -, hsim⟩ := iterate_visits (s := { s₀ with cache := m₂ }) (init 3) 3 h₂ (show 2 ≤ 2 by decide)
  exact ⟨m₂, add₂, _, its, s', h₂, by decide, hiter, by rw [hkeys]; decide, hsim⟩

end TfcShmMapIterator

end Mysql51.Cache
