import Mathlib.Algebra.Order.BigOperators.Group.List
import Mysql51.Cache.Totality

/-!
# Dumping the dirty entries to memory

`core_dump_mem` writes the entries that a `dirty_iterator` walks along into a buffer, `core_recover_mem` puts the entries of
such a buffer into a cache. The iterator starts with the head of the list whatever its flag, and an entry without data cannot
be recovered; otherwise the dirty entries come back.
-/

namespace Mysql51.Cache

open Link Machine Function List Option

namespace CacheAccess

/-- The loop of `core_dump_mem`, with the iterator at node `cur`. The bytes up to `ipos` are `out`. -/
def coreDumpLoop (m : CHashMap) (maxsize modbase mobres : Int) : Nat → Option Nat → List UInt8 → Option (List UInt8)
  | _, none, out => some out
  | 0, some _, _ => none
  | fuel + 1, some i, out => do
      let (ret, dataLen, data) ← m.mergeNodeData i (maxsize - out.length - 20)
      if ret ≠ 0 then some out
      else if modbase ≠ -1 ∧ uint32 modbase = 0 then none
      else
        let key := (m.hashNode i).key
        let next ← m.nextDirty m.nodeTotal (m.addNext i)
        if modbase ≠ -1 ∧ inResidue modbase mobres key = false then coreDumpLoop m maxsize modbase mobres fuel next out
        else coreDumpLoop m maxsize modbase mobres fuel next (out ++ (key.toList ++ leBytes 4 (uint32 dataLen) ++ data))

def coreDumpMem (s : CacheAccess) (maxsize modbase mobres : Int) : Option (Int × List UInt8) :=
  if maxsize ≤ 0 then some (-1, [])
  else (coreDumpLoop s.cache maxsize modbase mobres s.cache.nodeTotal s.cache.addHead []).map fun out => ((out.length : Int), out)

/-- The loop of `core_recover_mem`: `rest` are the bytes from `ipos` on. It is left with `none` at the assertion that `set` does
not fail. A negative length would read behind the buffer. -/
def coreRecoverLoop (clock : Nat → Int) : Nat → List UInt8 → CacheAccess → Option (List UInt8 × CacheAccess)
  | 0, rest, s => some (rest, s)
  | fuel + 1, rest, s =>
    if rest.length ≤ 20 then some (rest, s)
    else
      let key : TMBHashKey := Vector.ofFn fun i => rest.getD i.val 0
      let dataLen := int32 (ofLeBytes ((rest.drop 16).take 4))
      if dataLen > (rest.length : Int) - 20 then some (rest, s)
      else if dataLen < 0 then none
      else do
        let (ret, s) ← s.set key ((rest.drop 20).take dataLen.toNat) .dirty (clock fuel)
        if ret ≠ 0 then none else coreRecoverLoop clock fuel (rest.drop (20 + dataLen.toNat)) s

def coreRecoverMem (s : CacheAccess) (clock : Nat → Int) (buff : List UInt8) : Option (Int × CacheAccess) :=
  (coreRecoverLoop clock buff.length buff s).map fun r => ((buff.length : Int) - r.1.length, r.2)

end CacheAccess

/-! ### The bytes of entries -/

def Entry.dumpBytes (e : Entry) : List UInt8 := e.key.toList ++ leBytes 4 e.data.length ++ e.data

variable {es l : List Entry} {m : CHashMap} {maxsize : Int} {fuel : Nat} {e : Entry} {z : PoolSizes}

namespace Lru

def dumpBytes (es : List Entry) : List UInt8 := es.flatMap Entry.dumpBytes

def dirties (l : List Entry) : List Entry := l.filter fun e => e.flag = .dirty

def iterated : List Entry → List Entry
  | [] => []
  | e :: rest => e :: dirties rest

theorem length_dumpBytes_entry (e : Entry) : e.dumpBytes.length = 20 + e.data.length := by
  rw [Entry.dumpBytes, length_append, length_append, Vector.length_toList, length_leBytes]

theorem dumpBytes_cons (e : Entry) (es : List Entry) : dumpBytes (e :: es) = e.dumpBytes ++ dumpBytes es := flatMap_cons

theorem dumpBytes_append (es es' : List Entry) : dumpBytes (es ++ es') = dumpBytes es ++ dumpBytes es' := flatMap_append

variable {es' : List Entry}

theorem length_dumpBytes_perm (h : es.Perm es') : (dumpBytes es).length = (dumpBytes es').length :=
  (h.flatMap_right _).length_eq

theorem length_dumpBytes_sublist (h : es.Sublist es') : (dumpBytes es).length ≤ (dumpBytes es').length := by
  induction h with
  | slnil => exact Nat.le_refl _
  | cons e _ ih =>
    rw [dumpBytes_cons, length_append]
    omega
  | cons_cons e _ ih =>
    rw [dumpBytes_cons, dumpBytes_cons, length_append, length_append]
    omega

end Lru

/-! ### The walk of the iterator -/

namespace Lru

theorem flag_ne_unchg {f : ENodeFlag} : f ≠ .unchg ↔ f = .dirty := by cases f <;> decide

theorem iterated_dropWhile (l : List Entry) : iterated (l.dropWhile fun e => e.flag = .unchg) = dirties l := by
  induction l with
  | nil => rfl
  | cons e l ih =>
    by_cases hflag : e.flag = .unchg
    · rw [dropWhile_cons_of_pos (by simp [hflag]), ih, dirties, dirties, filter_cons_of_neg (by simp [hflag])]
    rw [dropWhile_cons_of_neg (by simp [hflag]), iterated, dirties, dirties,
      filter_cons_of_pos (by simpa using flag_ne_unchg.1 hflag)]

end Lru

namespace CacheAccess

open Lru

theorem coreDumpLoop_eq {free chain add cfree own} {bytes : Nat → List UInt8}
    (hrep : PoolRep m free chain add cfree own) (hdata : DataRep m add own bytes) (hmax : maxsize < 2147483648) {is : List Nat}
    {cur : Option Nat} {out : List UInt8} (hchain : Chain m.addNext cur is) (hsub : is ⊆ add)
    (hfuel : is.length ≤ fuel) (hnodes : is.length ≤ m.nodeTotal)
    (hroom : (out.length : Int) + (dumpBytes (is.map (m.entry bytes))).length ≤ maxsize) (mobres : Int) :
    coreDumpLoop m maxsize (-1) mobres fuel cur out = some (out ++ dumpBytes (iterated (is.map (m.entry bytes)))) := by
  induction fuel generalizing is cur out with
  | zero =>
    rw [Nat.le_zero, length_eq_zero_iff] at hfuel
    subst hfuel
    rw [chain_nil] at hchain
    subst hchain
    rw [coreDumpLoop, map_nil, iterated, dumpBytes, flatMap_nil, append_nil]
  | succ fuel ih =>
    cases is with
    | nil =>
      rw [chain_nil] at hchain
      subst hchain
      rw [coreDumpLoop, map_nil, iterated, dumpBytes, flatMap_nil, append_nil]
    | cons i is =>
      obtain ⟨rfl, hrest⟩ := hchain
      rw [length_cons] at hfuel hnodes
      rw [map_cons, dumpBytes_cons, length_append, length_dumpBytes_entry] at hroom
      have hbytes : (m.entry bytes i).data = bytes i := rfl
      rw [hbytes] at hroom
      have hmerge : m.mergeNodeData i (maxsize - out.length - 20) = some (0, ((bytes i).length : Int), bytes i) := by
        rw [hrep.mergeNodeData hdata (hsub mem_cons_self), merged_of_le (by omega)]
      obtain ⟨cur', hnext, hchain'⟩ := CHashMap.nextDirty_eq hrest (show is.length ≤ m.nodeTotal by omega)
      have hlen : uint32 ((bytes i).length : Int) = (bytes i).length := by
        rw [uint32]
        omega
      have hsublist := dropWhile_sublist (l := is) fun j => decide ((m.hashNode j).flag = .unchg)
      have hmapped : (is.dropWhile fun j => decide ((m.hashNode j).flag = .unchg)).map (m.entry bytes) =
          (is.map (m.entry bytes)).dropWhile fun e => e.flag = .unchg := by
        rw [dropWhile_map]
        rfl
      have hlength := hsublist.length_le
      have hless := length_dumpBytes_sublist (hsublist.map (m.entry bytes))
      have hrecord : (m.hashNode i).key.toList ++ leBytes 4 (bytes i).length ++ bytes i = (m.entry bytes i).dumpBytes := rfl
      rw [coreDumpLoop, hmerge]
      simp only [some_bind_eq, hnext, hlen, hrecord]
      rw [if_neg (by decide), if_neg (by decide), if_neg fun hskip => absurd rfl hskip.1,
        ih hchain' (fun j hj => hsub (mem_cons_of_mem i (hsublist.subset hj))) (by omega) (by omega) (by
          rw [length_append, length_dumpBytes_entry, hbytes]
          omega), hmapped, iterated_dropWhile, map_cons, iterated, dumpBytes_cons, append_assoc]

end CacheAccess

namespace Sim

open CHashMap Lru CacheAccess

variable {z : PoolSizes} {s : CacheAccess} {add : List Nat} {l : List Entry}

theorem coreDumpMem (h : Sim z s.cache add l) (hpos : 0 < maxsize) (hmax : maxsize < 2147483648)
    (hroom : ((dumpBytes l).length : Int) ≤ maxsize) (mobres : Int) :
    s.coreDumpMem maxsize (-1) mobres = some (((dumpBytes (iterated l)).length : Int), dumpBytes (iterated l)) := by
  obtain ⟨hadds, -, hle⟩ := h.addRep
  have hnodes := h.nodeTotal
  obtain ⟨free, chain, cfree, own, bytes, hrep, hdata, rfl⟩ := h.rep
  rw [CacheAccess.coreDumpMem, if_neg (by omega),
    coreDumpLoop_eq hrep hdata hmax hadds.chain (List.Subset.refl _) (by omega) (by omega) (by simpa using hroom) mobres]
  rfl

end Sim

/-! ### Recovery -/

namespace CacheAccess

open Lru

theorem ofFn_dumpBytes (e : Entry) (rest : List UInt8) :
    (Vector.ofFn fun i : Fin 16 => (e.dumpBytes ++ rest).getD i.val 0) = e.key := by
  apply Vector.ext
  intro i hi
  rw [Vector.getElem_ofFn, Entry.dumpBytes, append_assoc, append_assoc, getD_eq_getElem?_getD,
    List.getElem?_append_left (by simpa using hi), Vector.getElem?_toList, Vector.getElem?_eq_getElem hi, getD_some]

theorem coreRecoverLoop_cons (clock : Nat → Int) (fuel : Nat) (s : CacheAccess) {rest : List UInt8}
    (hlen : e.data.length < 2147483648) (hne : e.data ≠ [] ∨ rest ≠ []) :
    coreRecoverLoop clock (fuel + 1) (e.dumpBytes ++ rest) s =
      (s.set e.key e.data .dirty (clock fuel)).bind fun r => if r.1 ≠ 0 then none else coreRecoverLoop clock fuel rest r.2 := by
  have hpos : 0 < e.data.length + rest.length := by
    rcases hne with hne | hne
    · have := length_pos_of_ne_nil hne
      omega
    have := length_pos_of_ne_nil hne
    omega
  have htotal : (e.dumpBytes ++ rest).length = 20 + e.data.length + rest.length := by
    rw [length_append, length_dumpBytes_entry]
  have hhead : e.dumpBytes ++ rest = e.key.toList ++ (leBytes 4 e.data.length ++ (e.data ++ rest)) := by
    rw [Entry.dumpBytes, append_assoc, append_assoc]
  have hkey : e.key.toList.length = 16 := Vector.length_toList
  have hdrop : (e.dumpBytes ++ rest).drop 16 = leBytes 4 e.data.length ++ (e.data ++ rest) := by
    rw [hhead]
    exact drop_left' hkey
  have hdrop' : (e.dumpBytes ++ rest).drop 20 = e.data ++ rest := by
    have h20 : 20 = 16 + 4 := rfl
    rw [h20, ← drop_drop, hdrop]
    exact drop_left' (length_leBytes 4 _)
  have hdataLen : int32 (ofLeBytes (((e.dumpBytes ++ rest).drop 16).take 4)) = e.data.length := by
    rw [hdrop, take_left' (length_leBytes 4 _), ofLeBytes_leBytes_of_lt (by omega), int32_of_range (by omega) (by omega)]
  have hrest : (e.dumpBytes ++ rest).drop (20 + e.data.length) = rest := by
    rw [← drop_drop, hdrop', drop_left]
  rw [coreRecoverLoop, if_neg (by omega), ofFn_dumpBytes]
  simp only [hdataLen]
  rw [if_neg (by omega), if_neg (by omega), Int.toNat_natCast, hdrop', take_left, hrest]
  rfl

end CacheAccess

namespace Lru

/-- An entry that a cache with a log of this kind can take back: it has data, and its record fits if there is a log. -/
def Recoverable (cacheDumpMin : Int) (e : Entry) : Prop :=
  e.data ≠ [] ∧ (0 ≤ cacheDumpMin → e.data.length + 36 ≤ maxBinlogItemLen)

def setAll (es : List Entry) (c : TMBHashKey → Option (List UInt8)) : TMBHashKey → Option (List UInt8) :=
  es.foldl (fun c e => update c e.key (some e.data)) c

/-- Entries of different keys that have a place in a cache beside the list. -/
structure Fit (z : PoolSizes) (es l : List Entry) : Prop where
  keys : ((es ++ l).map Entry.key).Nodup
  nodes : es.length + l.length ≤ z.nodeTotal
  chunks : usedChunks z es + usedChunks z l ≤ z.nChunks
  lengths : ∀ e ∈ es, e.data.length + z.chunkSize ≤ 2147483648

theorem usedChunks_cons (z : PoolSizes) (e : Entry) (l : List Entry) :
    usedChunks z (e :: l) = chunksFor z.chunkSize e.data.length + usedChunks z l := by
  rw [usedChunks, map_cons, sum_cons]
  rfl

theorem Fit.accepts (h : Fit z (e :: es) l) (hne : e.data ≠ []) : lookup l e.key = none ∧ Accepts z l e.key e.data := by
  have hkeys := h.keys
  rw [cons_append, map_cons, nodup_cons] at hkeys
  have hnone : lookup l e.key = none :=
    lookup_eq_none.2 fun e' he' hkey => hkeys.1 (mem_map.2 ⟨e', mem_append_right es he', hkey⟩)
  have hnodes := h.nodes
  have hchunks := h.chunks
  rw [usedChunks_cons] at hchunks
  rw [length_cons] at hnodes
  refine ⟨hnone, ?_⟩
  rw [Accepts, hnone, freeChunks]
  exact ⟨by omega, (chunksFor_pos z.chunkSize_pos).2 (length_pos_of_ne_nil hne), by omega⟩

theorem Fit.rest {e' : Entry} (h : Fit z (e :: es) l) (hkey : e'.key = e.key)
    (hdata : e'.data = e.data) : Fit z es (e' :: l) where
  keys := by
    have hkeys := h.keys
    rw [cons_append, map_cons] at hkeys
    have hperm : ((es ++ e' :: l).map Entry.key).Perm (e.key :: (es ++ l).map Entry.key) := by
      rw [← hkey, ← map_cons]
      exact perm_middle.map _
    exact hperm.nodup_iff.2 hkeys
  nodes := by
    have hnodes := h.nodes
    rw [length_cons] at hnodes ⊢
    omega
  chunks := by
    have hchunks := h.chunks
    rw [usedChunks_cons] at hchunks ⊢
    rw [hdata]
    omega
  lengths := fun d hd => h.lengths d (mem_cons_of_mem e hd)

end Lru

namespace Sim

open CHashMap Lru CacheAccess

variable {z : PoolSizes} {s : CacheAccess} {add : List Nat} {l : List Entry}

/-- A `set` of data that has a place returns, unless there is a log and the record is too long for it. -/
theorem set_of_accepts (h : Sim z s.cache add l) {key : TMBHashKey} {data : List UInt8}
    (hd : data.length + z.chunkSize ≤ 2147483648) (hacc : Accepts z l key data) (now : Int) :
    (∃ s' add', s.set key data .dirty now = some (0, s') ∧
      Sim z s'.cache add' (⟨key, data, .dirty, now, keptExpire l key⟩ :: without l key) ∧ s'.cacheDumpMin = s.cacheDumpMin ∧
      (0 ≤ s.cacheDumpMin → data.length + 36 ≤ maxBinlogItemLen)) ∨
    s.set key data .dirty now = none ∧ 0 ≤ s.cacheDumpMin ∧ maxBinlogItemLen < data.length + 36 := by
  obtain ⟨cache, add', hsim, hset⟩ := h.setCore_ok hd hacc none .dirty now
  have hnone := writeLog_eq_none { s with cache := cache } (0 ≤ s.cacheDumpMin ∧ ENodeFlag.dirty = ENodeFlag.dirty)
    (setRecord_ne_nil key data 0) now
  rw [length_setRecord, decide_eq_true_iff] at hnone
  change s.set key data .dirty now = Option.map _ (writeLog _ _ (setRecord key data 0) now) at hset
  cases hlog : ({ s with cache := cache } : CacheAccess).writeLog (0 ≤ s.cacheDumpMin ∧ ENodeFlag.dirty = ENodeFlag.dirty)
      (setRecord key data 0) now with
  | none =>
    have hlong := hnone.1 hlog
    rw [hlog] at hset
    exact .inr ⟨hset, hlong.1.1, by omega⟩
  | some s' =>
    obtain ⟨hcache, hdump⟩ := writeLog_frame hlog
    rw [hlog] at hset
    refine .inl ⟨s', add', hset, by rw [hcache]; exact hsim, hdump, fun hlogging => ?_⟩
    by_contra hlong
    rw [hnone.2 ⟨⟨hlogging, rfl⟩, by omega⟩] at hlog
    cases hlog

theorem set_recoverable (h : Sim z s.cache add l) (hfit : Fit z (e :: es) l) (hrec : Recoverable s.cacheDumpMin e) (now : Int) :
    ∃ s' add' e', s.set e.key e.data .dirty now = some (0, s') ∧ Sim z s'.cache add' (e' :: l) ∧ e'.key = e.key ∧
      e'.data = e.data ∧ s'.cacheDumpMin = s.cacheDumpMin := by
  obtain ⟨hnone, hacc⟩ := hfit.accepts hrec.1
  rcases h.set_of_accepts (hfit.lengths e mem_cons_self) hacc now with ⟨s', add', hset, hsim, hdump, -⟩ | ⟨-, hlogging, hlong⟩
  · rw [without_of_none hnone] at hsim
    exact ⟨s', add', _, hset, hsim, rfl, rfl, hdump⟩
  have hshort := hrec.2 hlogging
  omega

/-- The loop of `core_recover_mem` over entries that can be taken back. Those behind them still have a place. -/
theorem coreRecoverLoop_append (clock : Nat → Int) (more : List Entry) (h : Sim z s.cache add l) (hfit : Fit z (es ++ more) l)
    (hrec : ∀ e ∈ es, Recoverable s.cacheDumpMin e) (hfuel : es.length ≤ fuel) (rest : List UInt8) :
    ∃ s' add' l', coreRecoverLoop clock fuel (dumpBytes es ++ rest) s = coreRecoverLoop clock (fuel - es.length) rest s' ∧
      Sim z s'.cache add' l' ∧ contents l' = setAll es (contents l) ∧ s'.cacheDumpMin = s.cacheDumpMin ∧ Fit z more l' := by
  induction es generalizing s add l fuel with
  | nil => exact ⟨s, add, l, rfl, h, rfl, rfl, hfit⟩
  | cons e es ih =>
    rw [length_cons] at hfuel
    obtain ⟨fuel, rfl⟩ := Nat.exists_eq_succ_of_ne_zero (show fuel ≠ 0 by omega)
    have hgood := hrec e mem_cons_self
    have hlen := hfit.lengths e mem_cons_self
    have hpos := z.chunkSize_pos
    obtain ⟨s₁, add₁, e', hset, hsim, hkey, hdata, hdump⟩ := h.set_recoverable hfit hgood (clock fuel)
    obtain ⟨s', add', l', hloop, hsim', hcontents, hdump', hmore⟩ := ih hsim (Fit.rest hfit hkey hdata)
      (fun d hd => hdump ▸ hrec d (mem_cons_of_mem e hd)) (show es.length ≤ fuel by omega)
    refine ⟨s', add', l', ?_, hsim', ?_, hdump'.trans hdump, hmore⟩
    · rw [dumpBytes_cons, append_assoc, coreRecoverLoop_cons clock fuel s (by omega) (.inl hgood.1), hset, length_cons,
        Nat.succ_sub_succ, ← hloop]
      rfl
    have hfresh := (hfit.accepts hgood.1).1
    have hupdate : contents (e' :: l) = update (contents l) e.key (some e.data) := by
      have hview := view_cons_without (l := l) (fun d : Entry => some d.data) e'
      rw [hkey, hdata, without_of_none hfresh] at hview
      exact hview
    rw [hcontents, hupdate]
    rfl

end Sim

/-! ### Round trips -/

namespace Lru

theorem setAll_apply (hnd : (es.map Entry.key).Nodup) (c : TMBHashKey → Option (List UInt8)) (key : TMBHashKey) :
    setAll es c key = (lookup es key).elim (c key) fun e => some e.data := by
  induction es generalizing c with
  | nil => rfl
  | cons e es ih =>
    rw [map_cons, nodup_cons] at hnd
    show setAll es (update c e.key (some e.data)) key = _
    rw [ih hnd.2]
    by_cases hkey : key = e.key
    · have hnone : lookup es e.key = none := lookup_eq_none.2 fun d hd heq => hnd.1 (mem_map.2 ⟨d, hd, heq⟩)
      rw [hkey, hnone, lookup_cons_self]
      exact update_self ..
    rw [lookup_cons_of_ne (Ne.symm hkey), update_of_ne hkey]

theorem dirty_eq (hnd : (l.map Entry.key).Nodup) (key : TMBHashKey) : dirty l key = (lookup (dirties l) key).map Entry.data := by
  have hsub : (dirties l).Sublist l := filter_sublist
  cases hlook : lookup (dirties l) key with
  | some e =>
    obtain ⟨hmem, rfl⟩ := lookup_some hlook
    have hflag : e.flag = .dirty := by simpa using (mem_filter.1 hmem).2
    rw [dirty, view, lookup_eq_some hnd (hsub.subset hmem), bind_some, if_pos hflag]
    rfl
  | none =>
    rw [dirty, view]
    cases he : lookup l key with
    | none => rfl
    | some e =>
      obtain ⟨hmem, hkey⟩ := lookup_some he
      rw [bind_some, if_neg]
      · rfl
      · exact fun hflag => lookup_eq_none.1 hlook e (mem_filter.2 ⟨hmem, by simpa using hflag⟩) hkey

end Lru

open Lru

/-- The dump holds exactly the dirty entries, each once, and recovery into `t` gives exactly them back. -/
def DumpRoundTrips (z : PoolSizes) (l : List Entry) (s t : CacheAccess) (maxsize : Int) (clock : Nat → Int) : Prop :=
  ∃ n buff es, s.coreDumpMem maxsize (-1) 0 = some (n, buff) ∧ n = buff.length ∧ es.Perm (dirties l) ∧ buff = dumpBytes es ∧
    ∃ n' t' add' l', t.coreRecoverMem clock buff = some (n', t') ∧ Sim z t'.cache add' l' ∧ contents l' = dirty l

namespace Sim

variable {z : PoolSizes} {s t : CacheAccess} {add addT : List Nat} {l : List Entry}

theorem fit_of_sublist (h : Sim z s.cache add l) (hsub : es.Sublist l) : Fit z es [] := by
  obtain ⟨free, chain, cfree, own, bytes, hrep, -, -⟩ := h.rep
  obtain ⟨hnodes, hchunks⟩ := h.counts hrep
  have hlength := hsub.length_le
  have hused : usedChunks z es ≤ usedChunks z l :=
    (hsub.map fun e : Entry => chunksFor z.chunkSize e.data.length).sum_le_sum fun _ _ => Nat.zero_le _
  refine ⟨?_, ?_, ?_, fun e he => h.fits e (hsub.subset he)⟩
  · rw [append_nil]
    exact h.keys_nodup.sublist (hsub.map Entry.key)
  · rw [length_nil]
    omega
  rw [usedChunks, usedChunks, map_nil, sum_nil]
  exact hused.trans (by omega)

theorem unique {add' : List Nat} {l' : List Entry} (h : Sim z m add l) (h' : Sim z m add' l') : l = l' := by
  have hadd : add = add' := Chain.unique h.addRep.1.chain h'.addRep.1.chain
  subst hadd
  obtain ⟨free, chain, cfree, own, bytes, hrep, hdata, rfl⟩ := h.rep
  obtain ⟨free', chain', cfree', own', bytes', hrep', hdata', rfl⟩ := h'.rep
  apply map_congr_left
  intro i hi
  have hmerge := hrep.mergeNodeData hdata hi (max (bytes i).length (bytes' i).length)
  rw [hrep'.mergeNodeData hdata' hi, merged_of_le (le_max_right _ _), merged_of_le (le_max_left _ _)] at hmerge
  have hbytes : bytes' i = bytes i := congrArg (fun r => r.2.2) (Option.some.inj hmerge)
  rw [CHashMap.entry, CHashMap.entry, hbytes]

end Sim

theorem Lru.length_le_dumpBytes (es : List Entry) : es.length ≤ (dumpBytes es).length := by
  induction es with
  | nil => exact Nat.le_refl _
  | cons e es ih =>
    rw [dumpBytes_cons, length_append, length_dumpBytes_entry, length_cons]
    omega

theorem Lru.iterated_eq (h : ∀ e ∈ l.head?, e.flag = .dirty) : iterated l = dirties l := by
  cases l with
  | nil => rfl
  | cons e l => rw [iterated, dirties, dirties, filter_cons_of_pos (by simpa using h e rfl)]

theorem Lru.head_dirty (hperm : es.Perm (dirties l)) (hbytes : dumpBytes (iterated l) = dumpBytes es) :
    ∀ e ∈ l.head?, e.flag = .dirty := by
  cases l with
  | nil => exact fun e he => (nomatch he)
  | cons e l =>
    rintro d ⟨⟩
    by_contra hflag
    have hlength := length_dumpBytes_perm hperm
    rw [← hbytes, iterated, dirties, dirties, filter_cons_of_neg (by simpa using hflag), dumpBytes_cons, length_append,
      length_dumpBytes_entry] at hlength
    omega

namespace Sim

open CacheAccess

variable {z : PoolSizes} {s t : CacheAccess} {add : List Nat} {l : List Entry}

theorem coreRecoverLoop_bad (clock : Nat → Int) (h : Sim z t.cache add l) (hfit : Fit z (e :: es) l)
    (hbad : ¬Recoverable t.cacheDumpMin e) (hfuel : 0 < fuel) : coreRecoverLoop clock fuel (dumpBytes (e :: es)) t = none ∨
      coreRecoverLoop clock fuel (dumpBytes (e :: es)) t = some (dumpBytes (e :: es), t) := by
  obtain ⟨fuel, rfl⟩ := Nat.exists_eq_succ_of_ne_zero hfuel.ne'
  have hlen := hfit.lengths e mem_cons_self
  have hpos := z.chunkSize_pos
  rw [dumpBytes_cons]
  by_cases hempty : e.data = []
  · by_cases hlast : dumpBytes es = []
    · -- the loop takes a head at the end of the buffer for the end of the buffer
      right
      rw [hlast, append_nil, coreRecoverLoop, if_pos]
      rw [length_dumpBytes_entry, hempty]
      exact Nat.le_refl _
    left
    have hacc : ¬Accepts z l e.key e.data := by
      have hkeys := hfit.keys
      rw [cons_append, map_cons, nodup_cons] at hkeys
      have hnone : lookup l e.key = none :=
        lookup_eq_none.2 fun e' he' hkey => hkeys.1 (mem_map.2 ⟨e', mem_append_right es he', hkey⟩)
      rw [Accepts, hnone, hempty]
      exact fun hacc => absurd ((chunksFor_pos z.chunkSize_pos).1 hacc.2.1) (lt_irrefl 0)
    obtain ⟨cache, add', -, hset⟩ := h.setCore_fails hlen hacc none .dirty (clock fuel)
    rw [coreRecoverLoop_cons clock fuel t (by omega) (.inr hlast), CacheAccess.set, hset]
    rfl
  left
  have hlog : 0 ≤ t.cacheDumpMin ∧ maxBinlogItemLen < e.data.length + 36 := by
    by_contra hno
    exact hbad ⟨hempty, fun hdump => by omega⟩
  obtain ⟨-, hacc⟩ := hfit.accepts hempty
  obtain ⟨cache, add', -, hset⟩ := h.setCore_ok hlen hacc none .dirty (clock fuel)
  have hnone := (writeLog_eq_none { t with cache := cache } (0 ≤ t.cacheDumpMin ∧ ENodeFlag.dirty = ENodeFlag.dirty)
    (setRecord_ne_nil e.key e.data 0) (clock fuel)).2 ⟨by simpa using hlog.1, by rw [length_setRecord]; omega⟩
  rw [coreRecoverLoop_cons clock fuel t (by omega) (.inl hempty), CacheAccess.set, hset]
  show Option.bind (Option.map _ (writeLog _ _ (setRecord e.key e.data 0) (clock fuel))) _ = _
  rw [hnone]
  rfl

end Sim

theorem Lru.all_or_first_bad (P : Entry → Prop) (es : List Entry) :
    (∀ e ∈ es, P e) ∨ ∃ front e back, es = front ++ e :: back ∧ (∀ d ∈ front, P d) ∧ ¬P e := by
  induction es with
  | nil => exact .inl fun e he => (nomatch he)
  | cons e es ih =>
    by_cases he : P e
    · rcases ih with hall | ⟨front, d, back, rfl, hfront, hd⟩
      · exact .inl (forall_mem_cons.2 ⟨he, hall⟩)
      · exact .inr ⟨e :: front, d, back, rfl, forall_mem_cons.2 ⟨he, hfront⟩, hd⟩
    exact .inr ⟨[], e, es, rfl, fun d hd => (nomatch hd), he⟩

section RoundTrip

open CacheAccess

variable {z : PoolSizes} {s t : CacheAccess} {add addT : List Nat} {l : List Entry}

theorem Sim.coreRecoverMem_iff (h : Sim z s.cache add l) (ht : Sim z t.cache addT []) (clock : Nat → Int) :
    (∃ n' t' add' l', t.coreRecoverMem clock (dumpBytes (dirties l)) = some (n', t') ∧ Sim z t'.cache add' l' ∧
        contents l' = dirty l) ↔
      ∀ e ∈ dirties l, Recoverable t.cacheDumpMin e := by
  have hsub : (dirties l).Sublist l := filter_sublist
  have hfit := h.fit_of_sublist hsub
  have hkeys : ((dirties l).map Entry.key).Nodup := h.keys_nodup.sublist (hsub.map _)
  constructor
  · rintro ⟨n', t', add', l', hrecover, hsim', hcontents⟩
    rcases all_or_first_bad (Recoverable t.cacheDumpMin) (dirties l) with hall | ⟨front, e, back, hsplit, hgood, hbad⟩
    · exact hall
    exfalso
    rw [hsplit] at hfit hkeys hrecover
    have hlength := length_le_dumpBytes (front ++ e :: back)
    rw [length_append, length_cons] at hlength
    obtain ⟨t₁, add₁, l₁, hloop, hsim₁, hcontents₁, hdump, hmore⟩ :=
      Sim.coreRecoverLoop_append clock (e :: back) ht hfit hgood (show front.length ≤ (dumpBytes (front ++ e :: back)).length by omega)
        (dumpBytes (e :: back))
    rw [← dumpBytes_append] at hloop
    rw [coreRecoverMem, hloop] at hrecover
    rcases hsim₁.coreRecoverLoop_bad clock hmore (hdump ▸ hbad)
      (show 0 < (dumpBytes (front ++ e :: back)).length - front.length by omega) with hnone | hstop
    · rw [hnone] at hrecover
      cases hrecover
    -- the entry is dirty, but it is not recovered
    rw [hstop] at hrecover
    cases hrecover
    rw [hsim'.unique hsim₁, hcontents₁] at hcontents
    have hfresh : lookup front e.key = none := by
      rw [map_append, map_cons, nodup_append] at hkeys
      exact lookup_eq_none.2 fun d hd hkey => hkeys.2.2 _ (mem_map.2 ⟨d, hd, hkey⟩) _ mem_cons_self rfl
    have hmem : e ∈ dirties l := hsplit ▸ mem_append_right front mem_cons_self
    have hdirty := congrFun hcontents e.key
    rw [setAll_apply (hkeys.sublist ((sublist_append_left front _).map _)), hfresh, dirty_eq h.keys_nodup,
      lookup_eq_some (h.keys_nodup.sublist (hsub.map _)) hmem] at hdirty
    cases hdirty
  intro hall
  have hlength := length_le_dumpBytes (dirties l)
  obtain ⟨t', add', l', hloop, hsim', hcontents, -, -⟩ :=
    Sim.coreRecoverLoop_append clock [] ht (by rw [append_nil]; exact hfit) hall hlength []
  rw [append_nil] at hloop
  have hend (fuel : Nat) : CacheAccess.coreRecoverLoop clock fuel [] t' = some ([], t') := by
    cases fuel <;> rfl
  refine ⟨_, t', add', l', by rw [coreRecoverMem, hloop, hend]; rfl, hsim', ?_⟩
  funext key
  rw [hcontents, setAll_apply hkeys, dirty_eq h.keys_nodup]
  cases lookup (dirties l) key <;> rfl

/-- The dirty entries, and no others, come back exactly if the first entry of the list is not clean, and every dirty entry has data
and, if the cache that is filled keeps a log, fits into a record. -/
theorem dumpRoundTrips_iff (h : Sim z s.cache add l) (ht : Sim z t.cache addT []) {maxsize : Int} (hpos : 0 < maxsize)
    (hmax : maxsize < 2147483648) (hroom : ((dumpBytes l).length : Int) ≤ maxsize) (clock : Nat → Int) :
    DumpRoundTrips z l s t maxsize clock ↔
      (∀ e ∈ l.head?, e.flag = .dirty) ∧ ∀ e ∈ dirties l, Recoverable t.cacheDumpMin e := by
  have hdump := h.coreDumpMem hpos hmax hroom 0
  constructor
  · rintro ⟨n, buff, es, hmem, -, hperm, rfl, hrecover⟩
    rw [hdump] at hmem
    have hbytes : dumpBytes (iterated l) = dumpBytes es := congrArg Prod.snd (Option.some.inj hmem)
    have hhead := head_dirty hperm hbytes
    rw [← hbytes, iterated_eq hhead] at hrecover
    exact ⟨hhead, (h.coreRecoverMem_iff ht clock).1 hrecover⟩
  · rintro ⟨hhead, hall⟩
    rw [iterated_eq hhead] at hdump
    exact ⟨_, _, dirties l, hdump, rfl, List.Perm.refl _, rfl, (h.coreRecoverMem_iff ht clock).2 hall⟩

end RoundTrip

theorem oneEntry (flag : ENodeFlag) :
    ∃ s t add, CacheAccess.openInit 1000 PoolSizes.small = .ok t ∧ t.set TMBHashKey.one [7] flag 1 = some (0, s) ∧
      Sim PoolSizes.small s.cache add [⟨TMBHashKey.one, [7], flag, 1, 0⟩] ∧ Sim PoolSizes.small t.cache [] [] ∧
      t.cacheDumpMin = -1 := by
  have hinit := Sim.init PoolSizes.small
  obtain ⟨cache, add, hsim, hset⟩ := @Sim.setCore_ok PoolSizes.small ⟨_, -1, true, CBinLog.init 20000000 8⟩ [] []
    TMBHashKey.one hinit [7] (by decide) (by decide) none flag 1
  refine ⟨⟨cache, -1, true, CBinLog.init 20000000 8⟩, _, add, rfl, ?_, hsim, hinit, rfl⟩
  rw [CacheAccess.set]
  exact hset

theorem dumpRoundTrips_iff_oneEntry :
    ∃ s t, CacheAccess.openInit 1000 PoolSizes.small = .ok t ∧ t.set TMBHashKey.one [7] .dirty 1 = some (0, s) ∧
      DumpRoundTrips PoolSizes.small [⟨TMBHashKey.one, [7], .dirty, 1, 0⟩] s t 100 fun _ => 2 := by
  obtain ⟨s, t, add, hopen, hset, hsim, hempty, hdump⟩ := oneEntry .dirty
  refine ⟨s, t, hopen, hset, (dumpRoundTrips_iff hsim hempty (by decide) (by decide) (by decide) _).2 ⟨?_, ?_⟩⟩
  · rintro e ⟨⟩
    rfl
  · intro e he
    rw [mem_singleton.1 (mem_filter.1 he).1, hdump]
    exact ⟨by decide, by decide⟩

/-- A cache whose only entry is clean. -/
theorem not_dumpRoundTrips :
    ∃ s t, CacheAccess.openInit 1000 PoolSizes.small = .ok t ∧ t.set TMBHashKey.one [7] .unchg 1 = some (0, s) ∧
      ¬DumpRoundTrips PoolSizes.small [⟨TMBHashKey.one, [7], .unchg, 1, 0⟩] s t 100 fun _ => 2 := by
  obtain ⟨s, t, add, hopen, hset, hsim, hempty, hdump⟩ := oneEntry .unchg
  refine ⟨s, t, hopen, hset, ?_⟩
  rintro ⟨n, buff, es, hmem, -, hperm, rfl, -⟩
  rw [hsim.coreDumpMem (by decide) (by decide) (by decide)] at hmem
  have hflag := head_dirty hperm (congrArg Prod.snd (Option.some.inj hmem)) _ rfl
  cases hflag

end Mysql51.Cache
