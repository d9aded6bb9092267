import Mathlib.Data.List.TakeWhile
import Mysql51.Cache.Refinement

/-!
# Marking a residue class clean

The bulk `mark_clean` walks along the add list with a `dirty_iterator` and moves each node it marks to the front of the list it
walks along, so that the walk starts over. Each time it does, one dirty node of the residue class is gone.
-/

namespace Mysql51.Cache

open Link Machine List

variable {m : CHashMap} {cur : Option Nat} {e : Entry}

theorem CHashMap.nextDirty_eq {l : List Nat} (hl : Chain m.addNext cur l) {fuel : Nat}
    (hfuel : l.length ≤ fuel) : ∃ cur', m.nextDirty fuel cur = some cur' ∧
      Chain m.addNext cur' (l.dropWhile fun i => (m.hashNode i).flag = .unchg) := by
  induction l generalizing cur fuel with
  | nil =>
    rw [chain_nil] at hl
    subst hl
    exact ⟨none, by cases fuel <;> rfl, rfl⟩
  | cons i l ih =>
    obtain ⟨rfl, hrest⟩ := hl
    cases fuel with
    | zero => simp at hfuel
    | succ fuel =>
      rw [length_cons, Nat.add_le_add_iff_right] at hfuel
      by_cases hflag : (m.hashNode i).flag = .unchg
      · obtain ⟨cur', hnext, hchain⟩ := ih hrest hfuel
        refine ⟨cur', by rw [nextDirty, if_pos hflag]; exact hnext, ?_⟩
        rw [dropWhile_cons_of_pos (by simp [hflag])]
        exact hchain
      refine ⟨some i, by rw [nextDirty, if_neg hflag], ?_⟩
      rw [dropWhile_cons_of_neg (by simp [hflag])]
      exact ⟨rfl, hrest⟩

theorem CHashMap.flag_of_dropWhile {l : List Nat} {i : Nat}
    (hcur : Chain m.addNext cur (l.dropWhile fun j => (m.hashNode j).flag = .unchg)) (hi : cur = some i) :
    (m.hashNode i).flag ≠ .unchg := by
  have hhead := List.head?_dropWhile_not (fun j => decide ((m.hashNode j).flag = .unchg)) l
  cases hcase : l.dropWhile fun j => decide ((m.hashNode j).flag = .unchg) with
  | nil =>
    rw [hcase, chain_nil] at hcur
    rw [hcur] at hi
    cases hi
  | cons j rest =>
    rw [hcase] at hcur hhead
    obtain rfl : j = i := Option.some.inj (hcur.1.symm.trans hi)
    simpa using hhead

namespace Lru

def pending (modbase mobres : Int) (l : List Entry) : Nat :=
  l.countP fun e => e.flag = .dirty ∧ CacheAccess.inResidue modbase mobres e.key

def marked (modbase mobres : Int) (e : Entry) : Entry :=
  if CacheAccess.inResidue modbase mobres e.key then { e with flag := .unchg } else e

theorem marked_of_clean {modbase mobres : Int} (h : CacheAccess.inResidue modbase mobres e.key → e.flag = .unchg) :
    marked modbase mobres e = e := by
  unfold marked
  split_ifs with hin
  · rw [← h hin]
  · rfl

theorem marked_unchg {modbase mobres : Int} (hin : CacheAccess.inResidue modbase mobres e.key) :
    marked modbase mobres { e with flag := .unchg } = marked modbase mobres e := by
  rw [marked, marked, if_pos hin, if_pos hin]

end Lru

namespace Sim

open CHashMap Lru CacheAccess

variable {z : PoolSizes} {s : CacheAccess} {add : List Nat} {l : List Entry} {i : Nat}

theorem key_inj (h : Sim z m add l) {j : Nat} (hi : i ∈ add) (hj : j ∈ add)
    (hkey : (m.hashNode i).key = (m.hashNode j).key) : i = j := by
  obtain ⟨free, chain, cfree, own, bytes, hrep, -, -⟩ := h.rep
  exact hrep.hash.keys i hi j hj hkey

variable {modbase mobres : Int}

theorem pending_markClean (h : Sim z s.cache add l) {key : TMBHashKey} (he : lookup l key = some e)
    (hin : inResidue modbase mobres key) :
    pending modbase mobres ({ e with flag := .unchg } :: without l key) + (if e.flag = .dirty then 1 else 0) =
      pending modbase mobres l := by
  have hperm := (h.touch_perm he).countP_eq fun e => decide (e.flag = .dirty ∧ inResidue modbase mobres e.key)
  rw [pending, pending, ← hperm, countP_cons, countP_cons, (lookup_some he).2]
  by_cases hflag : e.flag = .dirty <;> simp [hflag, hin]

theorem markClean_returns (h : Sim z s.cache add l) (hi : i ∈ add) (now : Int) :
    ∃ e s₁, lookup l (s.cache.hashNode i).key = some e ∧ (s.cache.hashNode i).flag = e.flag ∧
      s.markClean (s.cache.hashNode i).key now = some (0, s₁) ∧
      Sim z s₁.cache (i :: add.erase i) ({ e with flag := .unchg } :: without l (s.cache.hashNode i).key) := by
  obtain ⟨e, he, hflag, -, -⟩ := h.node hi
  obtain ⟨j, hj, cache, hkey, h', hmark⟩ := h.markClean_some he now
  obtain rfl := h.key_inj hj hi hkey
  have hlog : { s with cache := cache }.writeLog (0 ≤ s.cacheDumpMin) (recordHead .opMarkClean (s.cache.hashNode j).key) now
      ≠ none := by
    rw [Ne, writeLog_eq_none _ _ (recordHead_ne_nil _ _), length_recordHead]
    exact fun hlong => absurd hlong.2 (by decide)
  obtain ⟨s₁, hs₁⟩ := Option.ne_none_iff_exists'.1 hlog
  refine ⟨e, s₁, he, hflag, by rw [hmark, hs₁]; rfl, ?_⟩
  rw [(writeLog_frame hs₁).1]
  exact h'

theorem length_le_nodeTotal (pre suf : List Nat) (h : Sim z s.cache add l) (hadd : add = pre ++ suf) :
    suf.length ≤ s.cache.nodeTotal := by
  have hle := h.addRep.2.2
  rw [hadd, length_append] at hle
  rw [h.nodeTotal]
  omega

theorem map_marked_of_clean (h : Sim z s.cache add l)
    (hmarked : ∀ i ∈ add, inResidue modbase mobres (s.cache.hashNode i).key → (s.cache.hashNode i).flag = .unchg) :
    l.map (marked modbase mobres) = l := by
  obtain ⟨free, chain, cfree, own, bytes, -, -, rfl⟩ := h.rep
  rw [map_map]
  refine map_congr_left fun i hi => ?_
  exact marked_of_clean (hmarked i hi)

/-- The loop of the bulk `mark_clean` ends: `suf` is what lies ahead of it. A clean node is visited at the front only, so
each node of the class that it moves back to the front is one less to come. -/
theorem markCleanLoop_ends (mobres now : Int) {fuel : Nat} {pre suf : List Nat} (h : Sim z s.cache add l)
    (hmod : uint32 modbase ≠ 0) (hadd : add = pre ++ suf) (hcur : Chain s.cache.addNext cur suf)
    (hclean : ∀ i, cur = some i → (s.cache.hashNode i).flag = .unchg → pre = [])
    (hfuel : pending modbase mobres l * (z.nodeTotal + 1) + suf.length ≤ fuel) :
    ∃ s', CacheAccess.markCleanLoop modbase mobres now fuel cur s = some s' ∧ ((∀ e ∈ l, e.data.length ≤ 102400) →
      (∀ i ∈ pre, inResidue modbase mobres (s.cache.hashNode i).key → (s.cache.hashNode i).flag = .unchg) →
      ∃ add' l', Sim z s'.cache add' l' ∧ l'.Perm (l.map (marked modbase mobres))) := by
  induction fuel generalizing s add l cur pre suf with
  | zero =>
    cases suf with
    | nil =>
      rw [chain_nil] at hcur
      subst hcur
      refine ⟨s, rfl, fun _ hmarked => ⟨add, l, h, ?_⟩⟩
      rw [append_nil] at hadd
      rw [h.map_marked_of_clean (hadd ▸ hmarked)]
    | cons i suf =>
      rw [length_cons] at hfuel
      omega
  | succ fuel ih =>
    cases suf with
    | nil =>
      rw [chain_nil] at hcur
      subst hcur
      refine ⟨s, rfl, fun _ hmarked => ⟨add, l, h, ?_⟩⟩
      rw [append_nil] at hadd
      rw [h.map_marked_of_clean (hadd ▸ hmarked)]
    | cons i suf =>
      obtain ⟨rfl, hsuf⟩ := hcur
      have hi : i ∈ add := by simp [hadd]
      obtain ⟨e, he, hflag, -, hmerge⟩ := h.node hi
      rw [length_cons] at hfuel
      unfold CacheAccess.markCleanLoop
      simp only [hmerge, Option.bind_eq_bind, Option.bind_some, if_neg hmod]
      split
      case isTrue hlarge =>
          refine ⟨s, rfl, fun hsmall _ => absurd ?_ hlarge⟩
          have hle := hsmall e (lookup_some he).1
          rw [merged_of_le (by omega)]
      case isFalse =>
        by_cases hin : inResidue modbase mobres (s.cache.hashNode i).key
        · obtain ⟨e', s₁, he', -, hmark, h₁⟩ := h.markClean_returns hi now
          obtain rfl : e = e' := Option.some.inj (he.symm.trans he')
          obtain ⟨hadds, -, -⟩ := h₁.addRep
          have hlen := h₁.length_le_nodeTotal [i] (add.erase i) rfl
          obtain ⟨cur', hnext, hsuf'⟩ := nextDirty_eq hadds.chain.2 hlen
          have hpending := h.pending_markClean he hin
          have hsplit := (add.erase i).takeWhile_append_dropWhile (p := fun j => (s₁.cache.hashNode j).flag = .unchg)
          have hshort := ((add.erase i).dropWhile_sublist fun j => decide ((s₁.cache.hashNode j).flag = .unchg)).length_le
          rw [if_pos hin, hmark]
          simp only [Option.map_some, Option.bind_some, hnext]
          obtain ⟨s', hloop, hends⟩ := ih h₁
            (show i :: add.erase i = (i :: (add.erase i).takeWhile fun j => (s₁.cache.hashNode j).flag = .unchg) ++ _ by
              rw [cons_append, hsplit]) hsuf'
            (fun j hj hunchg => absurd hunchg (flag_of_dropWhile hsuf' hj)) (by
              cases hcase : e.flag with
              | dirty =>
                rw [hcase, if_pos rfl] at hpending
                rw [← hpending, Nat.succ_mul] at hfuel
                rw [h₁.nodeTotal] at hlen
                omega
              | unchg =>
                obtain rfl := hclean i rfl (hflag.trans hcase)
                rw [hadd, nil_append, erase_cons_head] at hshort
                rw [hcase, if_neg (by decide), add_zero] at hpending
                rw [hpending, hadd, nil_append, erase_cons_head]
                omega)
          refine ⟨s', hloop, fun hsmall hmarked => ?_⟩
          have hsmall' : ∀ e' ∈ { e with flag := .unchg } :: without l (s.cache.hashNode i).key, e'.data.length ≤ 102400 := by
            intro e' he'
            rcases mem_cons.1 he' with rfl | he'
            · exact hsmall e (lookup_some he).1
            · exact hsmall e' (mem_without.1 he').1
          obtain ⟨add', l', h', hl'⟩ := hends hsmall' (by
            intro j hj _
            rcases mem_cons.1 hj with rfl | hj
            · exact h₁.front.1
            · simpa using mem_takeWhile_imp hj)
          refine ⟨add', l', h', hl'.trans ?_⟩
          rw [map_cons, marked_unchg ((lookup_some he).2.symm ▸ hin), ← map_cons]
          exact (h.touch_perm he).map _
        have hlen := h.length_le_nodeTotal (pre ++ [i]) suf (by simp [hadd])
        obtain ⟨cur', hnext, hsuf'⟩ := nextDirty_eq hsuf hlen
        have hsplit := suf.takeWhile_append_dropWhile (p := fun j => (s.cache.hashNode j).flag = .unchg)
        have hshort := (suf.dropWhile_sublist fun j => decide ((s.cache.hashNode j).flag = .unchg)).length_le
        rw [if_neg hin]
        simp only [Option.bind_some, hnext]
        obtain ⟨s', hloop, hends⟩ := ih h
          (show add = (pre ++ i :: suf.takeWhile fun j => (s.cache.hashNode j).flag = .unchg) ++ _ by
            rw [hadd, append_assoc, cons_append, hsplit]) hsuf'
          (fun j hj hunchg => absurd hunchg (flag_of_dropWhile hsuf' hj)) (by omega)
        refine ⟨s', hloop, fun hsmall hmarked => hends hsmall fun j hj hj' => ?_⟩
        rcases mem_append.1 hj with hj | hj
        · exact hmarked j hj hj'
        rcases mem_cons.1 hj with rfl | hj
        · exact absurd hj' hin
        · simpa using mem_takeWhile_imp hj

theorem markCleanMod_ends (h : Sim z s.cache add l) (hmod : uint32 modbase ≠ 0) (mobres now : Int) :
    ∃ s', s.markCleanMod modbase mobres now = some (0, s') ∧ ((∀ e ∈ l, e.data.length ≤ 102400) →
      ∃ add' l', Sim z s'.cache add' l' ∧ l'.Perm (l.map (marked modbase mobres))) := by
  obtain ⟨hadds, hlen, hle⟩ := h.addRep
  have hpending : pending modbase mobres l ≤ l.length := countP_le_length
  obtain ⟨s', hloop, hends⟩ := h.markCleanLoop_ends mobres now hmod (show add = [] ++ add from rfl) hadds.chain
    (fun _ _ _ => rfl) (show pending modbase mobres l * (z.nodeTotal + 1) + add.length ≤
      (s.cache.nodeTotal + 2) * (s.cache.nodeTotal + 2) by
        rw [h.nodeTotal]
        nlinarith)
  refine ⟨s', ?_, fun hsmall => hends hsmall (fun _ hi => nomatch hi)⟩
  simp only [CacheAccess.markCleanMod, hloop, Option.bind_eq_bind, Option.bind_some]

theorem inResidue_iff (hpos : 0 < modbase) (hmod : modbase < 2147483648) (hlow : -2147483648 ≤ mobres)
    (hhigh : mobres < 2147483648) (key : TMBHashKey) : inResidue modbase mobres key ↔ (key.uin : Int) % modbase = mobres := by
  have hbase : (uint32 modbase : Int) = modbase := uint32_of_range (by omega) (by omega)
  have hlt := Int.emod_lt_of_pos (key.uin : Int) hpos
  have hcast : ((key.uin % uint32 modbase : Nat) : Int) = (key.uin : Int) % modbase := by rw [Int.natCast_emod, hbase]
  rw [inResidue, decide_eq_true_iff]
  have hres : (uint32 mobres : Int) = if 0 ≤ mobres then mobres else mobres + 4294967296 := by
    unfold uint32
    split <;> omega
  split at hres <;> omega

end Sim

namespace CacheAccess

open Lru

/-- In every state that short calls lead to, if the values fit the buffer of the bulk `mark_clean`, it returns; the entries
whose keys leave the remainder `mobres` are clean then, and the others are as before. -/
theorem markCleanMod_marks (z : PoolSizes) (memSize : Int) (s : CacheAccess) (hopen : openInit memSize z = .ok s)
    (dumpMin logSize logNum : Int) (ops : List Op) (hshort : ∀ op ∈ ops, op.Short z) (t : CacheAccess)
    (hrun : (s.coreInit dumpMin logSize logNum).run ops = some t) :
    ∃ add l, Sim z t.cache add l ∧ ((∀ e ∈ l, e.data.length ≤ 102400) →
      ∀ modbase mobres now : Int, 0 < modbase → modbase < 2147483648 → -2147483648 ≤ mobres → mobres < 2147483648 →
        ∃ t' add' l', t.markCleanMod modbase mobres now = some (0, t') ∧ Sim z t'.cache add' l' ∧
          l'.Perm (l.map fun e => if (e.key.uin : Int) % modbase = mobres then { e with flag := .unchg } else e)) := by
  obtain ⟨add, l, hsim⟩ := Run.invariant (P := fun t : CacheAccess => ∃ add l, Sim z t.cache add l)
    (fun t op t' hop ⟨add, l, hsim⟩ hstep => by
      obtain ⟨⟨ret, t'⟩, hexec, rfl⟩ := Option.map_eq_some_iff.1 hstep
      obtain ⟨add', l', hsim', -, -⟩ := hsim.exec (hshort op hop) hexec
      exact ⟨add', l', hsim'⟩)
    ⟨[], [], openInit_sim hopen dumpMin logSize logNum⟩ hrun
  refine ⟨add, l, hsim, fun hsmall modbase mobres now hpos hmod hlow hhigh => ?_⟩
  obtain ⟨t', hmark, hends⟩ := hsim.markCleanMod_ends (show uint32 modbase ≠ 0 by unfold uint32; omega) mobres now
  obtain ⟨add', l', hsim', hperm⟩ := hends hsmall
  refine ⟨t', add', l', hmark, hsim', hperm.trans (List.Perm.of_eq (map_congr_left fun e _ => ?_))⟩
  simp only [marked, Sim.inResidue_iff hpos hmod hlow hhigh]

/-- One dirty entry with an even key is marked by `mark_clean(2, 0)`. -/
theorem markCleanMod_marks_small : ∃ s t t' add add' e, openInit 1000 PoolSizes.small = .ok s ∧
    (s.coreInit (-1) 20000000 8).run [.set TMBHashKey.zero [1, 2, 3] .dirty 7] = some t ∧ Sim PoolSizes.small t.cache add [e] ∧
    e.key = TMBHashKey.zero ∧ e.flag = .dirty ∧ e.data.length = 3 ∧ t.markCleanMod 2 0 9 = some (0, t') ∧
    Sim PoolSizes.small t'.cache add' [{ e with flag := .unchg }] := by
  obtain ⟨s, hopen⟩ : ∃ s, openInit 1000 PoolSizes.small = .ok s := ⟨_, rfl⟩
  have hends : (((s.coreInit (-1) 20000000 8).run [.set TMBHashKey.zero [1, 2, 3] .dirty 7]).bind fun t => t.cache.addHead.map fun i =>
      (t.cache.addNext i, (t.cache.hashNode i).key, (t.cache.hashNode i).flag, (t.cache.hashNode i).chunkLen)) =
        some (none, TMBHashKey.zero, .dirty, 3) := by
    cases hopen
    decide +kernel
  obtain ⟨t, hrun, hhead⟩ := Option.bind_eq_some_iff.1 hends
  obtain ⟨i, hhead, hnode⟩ := Option.map_eq_some_iff.1 hhead
  simp only [Prod.mk.injEq] at hnode
  obtain ⟨hlast, hkey, hflag, hlen⟩ := hnode
  obtain ⟨add, l, hsim, hmarks⟩ := markCleanMod_marks PoolSizes.small 1000 s hopen (-1) 20000000 8 _
    (by simp [Op.Short, PoolSizes.small]) t hrun
  obtain ⟨free, chain, cfree, own, bytes, hrep, hdata, hl⟩ := hsim.rep
  obtain rfl : add = [i] := Chain.unique hrep.hash.adds.chain ⟨hhead, hlast⟩
  obtain rfl : l = [t.cache.entry bytes i] := hl
  have hthree : (bytes i).length = 3 := by
    have hchunk := (hdata i (by simp)).2
    omega
  obtain ⟨t', add', l', hmark, hsim', hperm⟩ := hmarks (by simp [CHashMap.entry, hthree]) 2 0 9 (by decide) (by decide) (by decide)
    (by decide)
  have hzero : ((t.cache.entry bytes i).key.uin : Int) % 2 = 0 := by
    show ((t.cache.hashNode i).key.uin : Int) % 2 = 0
    rw [hkey]
    decide
  rw [map_singleton, if_pos hzero, List.perm_singleton] at hperm
  subst hperm
  exact ⟨s, t, t', [i], add', _, hopen, hrun, hsim, hkey, hflag, hthree, hmark, hsim'⟩

/-- `mark_clean(2, 2)` marks nothing, though an even key is congruent to 2. -/
theorem not_markCleanMod_congruent : ∃ s t t' i, openInit 1000 PoolSizes.small = .ok s ∧
    (s.coreInit (-1) 20000000 8).run [.set TMBHashKey.zero [1, 2, 3] .dirty 7] = some t ∧
    t.markCleanMod 2 2 9 = some (0, t') ∧ t'.cache.addHead = some i ∧ (t'.cache.hashNode i).key = TMBHashKey.zero ∧
    (TMBHashKey.zero.uin : Int) % 2 = 2 % 2 ∧ (t'.cache.hashNode i).flag = .dirty := by
  obtain ⟨s, hopen⟩ : ∃ s, openInit 1000 PoolSizes.small = .ok s := ⟨_, rfl⟩
  have hmark : (((s.coreInit (-1) 20000000 8).run [.set TMBHashKey.zero [1, 2, 3] .dirty 7]).bind fun t =>
      (t.markCleanMod 2 2 9).bind fun r => r.2.cache.addHead.map fun i =>
        (r.1, (r.2.cache.hashNode i).key, (r.2.cache.hashNode i).flag)) = some (0, TMBHashKey.zero, .dirty) := by
    cases hopen
    decide +kernel
  obtain ⟨t, hrun, hmark⟩ := Option.bind_eq_some_iff.1 hmark
  obtain ⟨⟨ret, t'⟩, hmark, hhead⟩ := Option.bind_eq_some_iff.1 hmark
  obtain ⟨i, hhead, hvalues⟩ := Option.map_eq_some_iff.1 hhead
  obtain ⟨rfl, hkey, hflag⟩ : ret = 0 ∧ _ = _ ∧ _ = _ := by simpa using hvalues
  exact ⟨s, t, t', i, hopen, hrun, hmark, hhead, hkey, by decide, hflag⟩

end CacheAccess

end Mysql51.Cache
