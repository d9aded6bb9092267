import Mathlib.Data.List.Nodup
import Mysql51.Innodb.ReadView

/-!
# Read views are snapshots

The ids in a read view are those of the transactions that ran when it was opened, in descending order since `trx_list` is, and
no smaller id is hidden by its limits. So a view sees exactly its creator and what had been committed.
-/

namespace Mysql51.Innodb

open List

/-! ### What a view sees -/

structure ReadView.Sorted (view : ReadView) : Prop where
  ids : view.trxIds.Pairwise (· > ·)
  low : ∀ id ∈ view.trxIds, id < view.lowLimitId
  up : ∀ id ∈ view.trxIds, view.upLimitId ≤ id
  limits : view.upLimitId ≤ view.lowLimitId

variable {ids : List Nat} {sys : TrxSys} {crTrxId : Nat} {trx : Trx} {w : Watched} {f : Trx → Trx} {acts : List TrxAct}

theorem seesLoop_iff {trxId : Nat} (h : ids.Pairwise (· < ·)) : seesLoop trxId ids = true ↔ trxId ∉ ids := by
  induction ids with
  | nil => simp [seesLoop]
  | cons id rest ih =>
    obtain ⟨hid, hrest⟩ := pairwise_cons.1 h
    rw [seesLoop]
    by_cases hle : trxId ≤ id
    · have hnot : trxId ∉ rest := fun hmem => absurd (hid trxId hmem) (by omega)
      rw [if_pos hle, decide_eq_true_iff, mem_cons, not_or]
      constructor
      · intro hlt
        exact ⟨by omega, hnot⟩
      intro hne
      omega
    rw [if_neg hle, ih hrest, mem_cons, not_or]
    constructor
    · intro hmem
      exact ⟨by omega, hmem⟩
    exact And.right

theorem ReadView.Sorted.sees_iff {view : ReadView} (h : view.Sorted) (trxId : Nat) :
    readViewSeesTrxId view trxId = true ↔ trxId < view.lowLimitId ∧ trxId ∉ view.trxIds := by
  have hlimits := h.limits
  unfold readViewSeesTrxId
  by_cases hup : trxId < view.upLimitId
  · rw [if_pos hup]
    refine ⟨fun _ => ⟨by omega, fun hmem => absurd (h.up trxId hmem) (by omega)⟩, fun _ => rfl⟩
  rw [if_neg hup]
  by_cases hlow : view.lowLimitId ≤ trxId
  · rw [if_pos hlow]
    constructor
    · intro hfalse
      cases hfalse
    intro hlt
    omega
  rw [if_neg hlow, seesLoop_iff (pairwise_reverse.2 h.ids), mem_reverse]
  exact ⟨fun hmem => ⟨by omega, hmem⟩, And.right⟩

theorem getLast?_le (h : ids.Pairwise (· > ·)) {last id : Nat} (hlast : ids.getLast? = some last)
    (hid : id ∈ ids) : last ≤ id := by
  obtain ⟨front, rfl⟩ := List.getLast?_eq_some_iff.1 hlast
  rcases mem_append.1 hid with hfront | hsame
  · exact ((pairwise_append.1 h).2.2 id hfront last (mem_singleton_self last)).le
  rw [mem_singleton.1 hsame]

/-! ### What is opened -/

def hidden (sys : TrxSys) (crTrxId : Nat) : List Trx := sys.trxList.filter fun trx => trx.id ≠ crTrxId && trx.running

theorem openLoop_ids (crTrxId : Nat) (trxs : List Trx) (ids : List Nat) (no : Nat) :
    (openLoop crTrxId trxs ids no).1 = ids ++ (trxs.filter fun trx => trx.id ≠ crTrxId && trx.running).map Trx.id := by
  induction trxs generalizing ids no with
  | nil => simp [openLoop]
  | cons trx rest ih =>
    rw [openLoop]
    split
    · rename_i hhide
      rw [ih, filter_cons_of_pos (by simpa using hhide), map_cons, append_assoc, singleton_append]
    rename_i hshow
    rw [ih, filter_cons_of_neg (by simpa using hshow)]

theorem openLoop_no (crTrxId : Nat) (trxs : List Trx) (ids : List Nat) (no : Nat) : (openLoop crTrxId trxs ids no).2 ≤ no ∧
    ∀ trx ∈ trxs, trx.id ≠ crTrxId → trx.running = true → ∀ n, trx.no = some n → (openLoop crTrxId trxs ids no).2 ≤ n := by
  induction trxs generalizing ids no with
  | nil => exact ⟨le_refl no, fun trx htrx => by cases htrx⟩
  | cons trx rest ih =>
    rw [openLoop]
    split
    · rename_i hhide
      constructor
      · apply (ih _ _).1.trans
        split
        · split <;> omega
        exact le_refl no
      intro other hother hne hrun n hn
      rcases mem_cons.1 hother with rfl | hrest
      · apply (ih _ _).1.trans
        rw [hn]
        dsimp only
        split <;> omega
      exact (ih _ _).2 other hrest hne hrun n hn
    rename_i hshow
    obtain ⟨hle, hall⟩ := ih ids no
    refine ⟨hle, fun other hother hne hrun n hn => ?_⟩
    rcases mem_cons.1 hother with rfl | hrest
    · exact absurd ⟨hne, hrun⟩ hshow
    exact hall other hrest hne hrun n hn

theorem openView_trxIds (sys : TrxSys) (crTrxId : Nat) : (openView sys crTrxId).trxIds = (hidden sys crTrxId).map Trx.id :=
  (openLoop_ids crTrxId sys.trxList [] sys.maxTrxId).trans (nil_append _)

theorem mem_hidden : trx ∈ hidden sys crTrxId ↔ trx ∈ sys.trxList ∧ trx.id ≠ crTrxId ∧ trx.running = true := by
  simp [hidden]

/-! ### What every step keeps -/

/-- The list of transactions is in descending order, and agrees with what has happened. -/
structure Watched.Consistent (w : Watched) : Prop where
  pos : 0 < w.sys.maxTrxId
  sorted : w.sys.trxList.Pairwise fun a b => b.id < a.id
  ids : ∀ id ∈ w.log.ids, 0 < id ∧ id < w.sys.maxTrxId
  listed : ∀ trx ∈ w.sys.trxList, trx.id ∈ w.log.ids
  committed_ids : ∀ id ∈ w.log.committed, id ∈ w.log.ids
  committed : ∀ id ∈ w.log.ids, id ∈ w.log.committed ↔ ∀ trx ∈ w.sys.trxList, trx.id = id → trx.running = false
  nos : ∀ p ∈ w.log.nos, p.2 < w.sys.maxTrxId ∧ p.1 ∈ w.log.ids ∧ ∀ trx ∈ w.sys.trxList, trx.id = p.1 → trx.no = some p.2

theorem Watched.Consistent.openView_sorted (h : w.Consistent) (crTrxId : Nat) : (openView w.sys crTrxId).Sorted := by
  have hids : (openView w.sys crTrxId).trxIds.Pairwise (· > ·) := by
    rw [openView_trxIds, pairwise_map]
    exact h.sorted.sublist filter_sublist
  have hlow : ∀ id ∈ (openView w.sys crTrxId).trxIds, id < w.sys.maxTrxId := by
    intro id hid
    rw [openView_trxIds] at hid
    obtain ⟨trx, htrx, rfl⟩ := mem_map.1 hid
    exact (h.ids trx.id (h.listed trx (mem_hidden.1 htrx).1)).2
  have hup : (openView w.sys crTrxId).upLimitId = (openView w.sys crTrxId).trxIds.getLast?.getD w.sys.maxTrxId := rfl
  refine ⟨hids, hlow, ?_, ?_⟩
  · intro id hid
    rw [hup]
    cases hlast : (openView w.sys crTrxId).trxIds.getLast? with
    | none =>
      rw [List.getLast?_eq_none_iff.1 hlast] at hid
      cases hid
    | some last => exact getLast?_le hids hlast hid
  rw [hup]
  cases hlast : (openView w.sys crTrxId).trxIds.getLast? with
  | none => exact le_refl _
  | some last => exact (hlow last (mem_of_getLast? hlast)).le

/-- A transaction that has become committed, or runs: a view opened now hides exactly those that run, its creator apart. -/
theorem Watched.Consistent.mem_trxIds (h : w.Consistent) {t : Nat} (ht : t ∈ w.log.ids) :
    t ∈ (openView w.sys crTrxId).trxIds ↔ t ≠ crTrxId ∧ t ∉ w.log.committed := by
  rw [openView_trxIds, mem_map, h.committed t ht]
  constructor
  · rintro ⟨trx, htrx, rfl⟩
    obtain ⟨hmem, hne, hrun⟩ := mem_hidden.1 htrx
    refine ⟨hne, fun hall => ?_⟩
    rw [hall trx hmem rfl] at hrun
    cases hrun
  rintro ⟨hne, hnot⟩
  push Not at hnot
  obtain ⟨trx, hmem, rfl, hrun⟩ := hnot
  exact ⟨trx, mem_hidden.2 ⟨hmem, hne, by simpa using hrun⟩, rfl⟩

/-! ### Steps -/

theorem mem_setTrx {id : Nat} :
    trx ∈ (setTrx sys id f).trxList ↔ ∃ old ∈ sys.trxList, trx = if old.id = id then f old else old := by
  simp only [setTrx, mem_map, eq_comm]

theorem setTrx_sorted {id : Nat} (hf : ∀ trx, (f trx).id = trx.id)
    (h : sys.trxList.Pairwise fun a b => b.id < a.id) : (setTrx sys id f).trxList.Pairwise fun a b => b.id < a.id := by
  have hid : ∀ trx : Trx, (if trx.id = id then f trx else trx).id = trx.id := by
    intro trx
    split
    · exact hf trx
    rfl
  rw [setTrx, pairwise_map]
  simpa only [hid] using h

theorem init_consistent {maxTrxId : Nat} (h : 0 < maxTrxId) : (Watched.init maxTrxId).Consistent := by
  refine ⟨h, List.Pairwise.nil, ?_, ?_, ?_, ?_, ?_⟩
  all_goals
    intro _ hmem
    cases hmem

namespace Watched.Consistent

variable {w : Watched} (h : w.Consistent)
include h

theorem start : (TrxAct.start.apply w).Consistent := by
  have hold : ∀ id ∈ w.log.ids, id ≠ w.sys.maxTrxId := fun id hid => ne_of_lt (h.ids id hid).2
  refine ⟨Nat.succ_pos _, ?_, ?_, ?_, ?_, ?_, ?_⟩
  · exact pairwise_cons.2 ⟨fun trx htrx => (h.ids _ (h.listed trx htrx)).2, h.sorted⟩
  · intro id hid
    rcases mem_cons.1 hid with rfl | hid
    · exact ⟨h.pos, Nat.lt_succ_self _⟩
    exact ⟨(h.ids id hid).1, (h.ids id hid).2.trans (Nat.lt_succ_self _)⟩
  · intro trx htrx
    rcases mem_cons.1 htrx with rfl | htrx
    · exact mem_cons_self
    exact mem_cons_of_mem _ (h.listed trx htrx)
  · intro id hid
    exact mem_cons_of_mem _ (h.committed_ids id hid)
  · intro id hid
    rcases mem_cons.1 hid with rfl | hid
    · constructor
      · intro hcommitted
        exact absurd rfl (hold _ (h.committed_ids _ hcommitted))
      intro hall
      have hrun := hall ⟨w.sys.maxTrxId, none, .active⟩ mem_cons_self rfl
      cases hrun
    refine (h.committed id hid).trans ⟨fun hall trx htrx heq => ?_, fun hall trx htrx => hall trx (mem_cons_of_mem _ htrx)⟩
    rcases mem_cons.1 htrx with rfl | htrx
    · exact absurd heq.symm (hold id hid)
    exact hall trx htrx heq
  intro p hp
  obtain ⟨hlt, hid, hno⟩ := h.nos p hp
  refine ⟨hlt.trans (Nat.lt_succ_self _), mem_cons_of_mem _ hid, fun trx htrx heq => ?_⟩
  rcases mem_cons.1 htrx with rfl | htrx
  · exact absurd heq.symm (hold _ hid)
  exact hno trx htrx heq

theorem unique {trx' : Trx} (hmem : trx ∈ w.sys.trxList) (hmem' : trx' ∈ w.sys.trxList) (hid : trx.id = trx'.id) :
    trx = trx' := by
  have hnodup := pairwise_map.2 (h.sorted.imp ne_of_gt)
  exact inj_on_of_nodup_map hnodup hmem hmem' hid

variable {id : Nat}

/-- A change that keeps whether transactions run keeps which of them have become committed. -/
theorem committed_setTrx (hid : ∀ trx, (f trx).id = trx.id)
    (hrun : ∀ trx ∈ w.sys.trxList, trx.id = id → (f trx).running = trx.running) {t : Nat} (ht : t ∈ w.log.ids) :
    t ∈ w.log.committed ↔ ∀ trx ∈ (setTrx w.sys id f).trxList, trx.id = t → trx.running = false := by
  have hsame : ∀ old ∈ w.sys.trxList, (if old.id = id then f old else old).id = old.id ∧
      (if old.id = id then f old else old).running = old.running := by
    intro old hold
    split
    · exact ⟨hid old, hrun old hold ‹_›⟩
    exact ⟨rfl, rfl⟩
  rw [h.committed t ht]
  constructor
  · intro hall new hnew heq
    obtain ⟨old, hold, rfl⟩ := mem_setTrx.1 hnew
    rw [(hsame old hold).2]
    exact hall old hold ((hsame old hold).1.symm.trans heq)
  intro hall old hold heq
  rw [← (hsame old hold).2]
  exact hall _ (mem_setTrx.2 ⟨old, hold, rfl⟩) ((hsame old hold).1.trans heq)

theorem listed_setTrx (hid : ∀ trx, (f trx).id = trx.id) : ∀ trx ∈ (setTrx w.sys id f).trxList, trx.id ∈ w.log.ids := by
  intro new hnew
  obtain ⟨old, hold, rfl⟩ := mem_setTrx.1 hnew
  split
  · rw [hid]
    exact h.listed old hold
  exact h.listed old hold

theorem assignNo (henabled : (TrxAct.assignNo id).enabled w.sys = true) : ((TrxAct.assignNo id).apply w).Consistent := by
  obtain ⟨trx, htrx, hcond⟩ := any_eq_true.1 henabled
  simp only [Bool.and_eq_true, decide_eq_true_eq, Option.isNone_iff_eq_none] at hcond
  obtain ⟨⟨rfl, hrun⟩, hnone⟩ := hcond
  refine ⟨Nat.succ_pos _, setTrx_sorted (fun _ => rfl) h.sorted, ?_, h.listed_setTrx fun _ => rfl, h.committed_ids,
    fun t ht => h.committed_setTrx (f := fun trx => { trx with no := some w.sys.maxTrxId }) (fun _ => rfl)
      (fun _ _ _ => rfl) ht, ?_⟩
  · intro t ht
    exact ⟨(h.ids t ht).1, (h.ids t ht).2.trans (Nat.lt_succ_self _)⟩
  intro p hp
  rcases mem_cons.1 hp with rfl | hp
  · refine ⟨Nat.lt_succ_self _, h.listed trx htrx, fun new hnew heq => ?_⟩
    obtain ⟨old, hold, rfl⟩ := mem_setTrx.1 hnew
    split at heq
    · rw [if_pos ‹_›]
    exact absurd heq ‹_›
  obtain ⟨hlt, hid, hno⟩ := h.nos p hp
  refine ⟨hlt.trans (Nat.lt_succ_self _), hid, fun new hnew heq => ?_⟩
  obtain ⟨old, hold, rfl⟩ := mem_setTrx.1 hnew
  split at heq
  · -- a transaction with a number does not get another one
    have hsame := hno old hold heq
    rw [h.unique hold htrx ‹_›, hnone] at hsame
    cases hsame
  rw [if_neg ‹_›]
  exact hno old hold heq

theorem nos_setConcState (concState : ConcState) : ∀ p ∈ w.log.nos, p.2 < w.sys.maxTrxId ∧ p.1 ∈ w.log.ids ∧
      ∀ trx ∈ (setConcState w.sys id concState).trxList, trx.id = p.1 → trx.no = some p.2 := by
  intro p hp
  obtain ⟨hlt, hid, hno⟩ := h.nos p hp
  refine ⟨hlt, hid, fun new hnew heq => ?_⟩
  obtain ⟨old, hold, rfl⟩ := mem_setTrx.1 hnew
  split at heq
  · rw [if_pos ‹_›]
    exact hno old hold heq
  rw [if_neg ‹_›]
  exact hno old hold heq

theorem prepare (henabled : (TrxAct.prepare id).enabled w.sys = true) : ((TrxAct.prepare id).apply w).Consistent := by
  obtain ⟨trx, htrx, hcond⟩ := any_eq_true.1 henabled
  simp only [Bool.and_eq_true, decide_eq_true_eq] at hcond
  obtain ⟨rfl, hactive⟩ := hcond
  have hrun : ∀ old ∈ w.sys.trxList, old.id = trx.id → ({ old with concState := .prepared } : Trx).running = old.running := by
    intro old hold heq
    rw [h.unique hold htrx heq]
    simp [Trx.running, hactive]
  exact ⟨h.pos, setTrx_sorted (fun _ => rfl) h.sorted, h.ids, h.listed_setTrx fun _ => rfl, h.committed_ids,
    fun t ht => h.committed_setTrx (f := fun trx => { trx with concState := .prepared }) (fun _ => rfl) hrun ht,
    h.nos_setConcState .prepared⟩

theorem commitInMemory (henabled : (TrxAct.commitInMemory id).enabled w.sys = true) :
    ((TrxAct.commitInMemory id).apply w).Consistent := by
  obtain ⟨trx, htrx, hcond⟩ := any_eq_true.1 henabled
  simp only [Bool.and_eq_true, decide_eq_true_eq] at hcond
  obtain ⟨rfl, hrun⟩ := hcond
  refine ⟨h.pos, setTrx_sorted (fun _ => rfl) h.sorted, h.ids, h.listed_setTrx fun _ => rfl, ?_, ?_,
    h.nos_setConcState .committedInMemory⟩
  · intro t ht
    rcases mem_cons.1 ht with rfl | ht
    · exact h.listed trx htrx
    exact h.committed_ids t ht
  intro t ht
  rcases eq_or_ne t trx.id with rfl | hne
  · refine iff_of_true mem_cons_self fun new hnew heq => ?_
    obtain ⟨old, hold, rfl⟩ := mem_setTrx.1 hnew
    split at heq
    · rw [if_pos ‹_›]
      rfl
    exact absurd heq ‹_›
  have hother : t ∈ w.log.committed ↔ t ∈ trx.id :: w.log.committed := by simp [hne]
  change t ∈ trx.id :: w.log.committed ↔ _
  rw [← hother, h.committed t ht]
  constructor
  · intro hall new hnew heq
    obtain ⟨old, hold, rfl⟩ := mem_setTrx.1 hnew
    split at heq
    · exact absurd (heq.symm.trans ‹_›) hne
    rw [if_neg ‹_›]
    exact hall old hold heq
  intro hall old hold heq
  have hnew := hall _ (mem_setTrx.2 ⟨old, hold, rfl⟩)
  rw [if_neg fun hc => hne (heq.symm.trans hc)] at hnew
  exact hnew heq

theorem remove (henabled : (TrxAct.remove id).enabled w.sys = true) : ((TrxAct.remove id).apply w).Consistent := by
  obtain ⟨trx, htrx, hcond⟩ := any_eq_true.1 henabled
  simp only [Bool.and_eq_true, decide_eq_true_eq] at hcond
  obtain ⟨rfl, hstate⟩ := hcond
  have hsub : ∀ other, other ∈ (trxRemove w.sys trx.id).trxList ↔ other ∈ w.sys.trxList ∧ other.id ≠ trx.id := by
    intro other
    simp [trxRemove]
  refine ⟨h.pos, h.sorted.sublist filter_sublist, h.ids, fun other hother => h.listed other ((hsub other).1 hother).1,
    h.committed_ids, ?_, ?_⟩
  · intro t ht
    change t ∈ w.log.committed ↔ _
    rw [h.committed t ht]
    refine ⟨fun hall other hother => hall other ((hsub other).1 hother).1, fun hall other hother heq => ?_⟩
    by_cases hsame : other.id = trx.id
    · rw [h.unique hother htrx hsame]
      simp [Trx.running, hstate]
    exact hall other ((hsub other).2 ⟨hother, hsame⟩) heq
  intro p hp
  obtain ⟨hlt, hid, hno⟩ := h.nos p hp
  exact ⟨hlt, hid, fun other hother => hno other ((hsub other).1 hother).1⟩

end Watched.Consistent

theorem Watched.Consistent.of_trxs {w' : Watched} (h : w.Consistent) (hmax : w'.sys.maxTrxId = w.sys.maxTrxId)
    (htrx : w'.sys.trxList = w.sys.trxList) (hlog : w'.log = w.log) : w'.Consistent := by
  obtain ⟨⟨maxTrxId, trxList, viewList⟩, log⟩ := w'
  dsimp only at hmax htrx hlog
  subst hmax htrx hlog
  exact ⟨h.pos, h.sorted, h.ids, h.listed, h.committed_ids, h.committed, h.nos⟩

theorem oldestCopy_trxs (sys : TrxSys) :
    (readViewOldestCopyOrOpenNew sys 0).2.maxTrxId = sys.maxTrxId ∧ (readViewOldestCopyOrOpenNew sys 0).2.trxList = sys.trxList := by
  unfold readViewOldestCopyOrOpenNew
  split <;> exact ⟨rfl, rfl⟩

theorem Watched.Consistent.step {w' : Watched} {a : TrxAct} (h : w.Consistent) (hstep : trxStep w a = some w') :
    w'.Consistent := by
  unfold trxStep at hstep
  split at hstep
  · rename_i henabled
    cases hstep
    cases a with
    | start => exact h.start
    | assignNo id => exact h.assignNo henabled
    | prepare id => exact h.prepare henabled
    | commitInMemory id => exact h.commitInMemory henabled
    | remove id => exact h.remove henabled
    | openNow id => exact h.of_trxs rfl rfl rfl
    | oldestCopy => exact h.of_trxs (oldestCopy_trxs w.sys).1 (oldestCopy_trxs w.sys).2 rfl
    | close i => exact h.of_trxs rfl rfl rfl
  cases hstep

/-! ### Runs -/

/-- What has happened up to one state is part of what has happened up to another: nothing that is new there has an id or a number
below the counter here. -/
structure Watched.Before (w w' : Watched) : Prop where
  max : w.sys.maxTrxId ≤ w'.sys.maxTrxId
  ids : ∀ id ∈ w'.log.ids, id ∈ w.log.ids ∨ w.sys.maxTrxId ≤ id
  nos : ∀ p ∈ w'.log.nos, p ∈ w.log.nos ∨ w.sys.maxTrxId ≤ p.2
  committed : ∀ id ∈ w.log.committed, id ∈ w'.log.committed

theorem Watched.Before.refl (w : Watched) : w.Before w :=
  ⟨le_refl _, fun _ hid => .inl hid, fun _ hp => .inl hp, fun _ hid => hid⟩

theorem Watched.Before.trans {a b c : Watched} (h : a.Before b) (h' : b.Before c) : a.Before c := by
  refine ⟨h.max.trans h'.max, fun id hid => ?_, fun p hp => ?_, fun id hid => h'.committed id (h.committed id hid)⟩
  · rcases h'.ids id hid with hb | hnew
    · exact h.ids id hb
    exact .inr (h.max.trans hnew)
  rcases h'.nos p hp with hb | hnew
  · exact h.nos p hb
  exact .inr (h.max.trans hnew)

theorem Watched.Before.step {w' : Watched} {a : TrxAct} (hstep : trxStep w a = some w') : w.Before w' := by
  unfold trxStep at hstep
  split at hstep
  · cases hstep
    have hkeep : ∀ {sys : TrxSys}, sys.maxTrxId = w.sys.maxTrxId → w.Before ⟨sys, w.log⟩ := fun hmax =>
      ⟨hmax.ge, fun _ hid => .inl hid, fun _ hp => .inl hp, fun _ hid => hid⟩
    cases a with
    | start =>
      refine ⟨Nat.le_succ _, fun id hid => ?_, fun _ hp => .inl hp, fun _ hid => hid⟩
      rcases mem_cons.1 hid with rfl | hold
      · exact .inr le_rfl
      exact .inl hold
    | assignNo id =>
      refine ⟨Nat.le_succ _, fun _ hid => .inl hid, fun p hp => ?_, fun _ hid => hid⟩
      rcases mem_cons.1 hp with rfl | hold
      · exact .inr le_rfl
      exact .inl hold
    | commitInMemory id =>
      exact ⟨le_refl _, fun _ hid => .inl hid, fun _ hp => .inl hp, fun _ hid => mem_cons_of_mem _ hid⟩
    | prepare id => exact hkeep rfl
    | remove id => exact hkeep rfl
    | openNow id => exact hkeep rfl
    | oldestCopy => exact hkeep (oldestCopy_trxs w.sys).1
    | close i => exact hkeep rfl
  cases hstep

theorem Watched.Before.run {w' : Watched} (hrun : Run.run trxStep w acts = some w') : w.Before w' :=
  Run.invariant (P := fun u => w.Before u) (fun _ _ _ _ hbefore hstep => hbefore.trans (Watched.Before.step hstep))
    (Watched.Before.refl w) hrun

theorem Watched.Consistent.run {w' : Watched} (h : w.Consistent) (hrun : Run.run trxStep w acts = some w') : w'.Consistent :=
  Run.invariant (fun _ _ _ _ hcons hstep => hcons.step hstep) h hrun

/-- A view opened in a state sees, of all ids ever assigned, its creator and those committed in that state. -/
theorem Watched.Consistent.sees_openView {w' : Watched} (h : w.Consistent) (hbefore : w.Before w') {t : Nat}
    (hcr : crTrxId < w.sys.maxTrxId) (ht : t ∈ w'.log.ids) :
    readViewSeesTrxId (openView w.sys crTrxId) t = true ↔ t = crTrxId ∨ t ∈ w.log.committed := by
  have hlow : (openView w.sys crTrxId).lowLimitId = w.sys.maxTrxId := rfl
  rw [(h.openView_sorted crTrxId).sees_iff, hlow]
  rcases hbefore.ids t ht with hold | hnew
  · rw [h.mem_trxIds hold, not_and_or, not_not, not_not, and_iff_right (h.ids t hold).2]
  refine iff_of_false (fun hc => absurd hc.1 (not_lt.2 hnew)) ?_
  rintro (rfl | hcommitted)
  · omega
  exact absurd (h.ids t (h.committed_ids t hcommitted)).2 (not_lt.2 hnew)

/-- Read views are exact snapshots: in every run, at any time after transaction `c` opened a view, the view sees the id of a
transaction exactly if it is `c` or had become committed in memory when the view was opened. -/
theorem readViewSeesTrxId_iff (maxTrxId : Nat) (hmax : 0 < maxTrxId) (acts acts' : List TrxAct) (w₁ w₂ w₃ : Watched) (c : Nat)
    (hrun : Run.run trxStep (Watched.init maxTrxId) acts = some w₁) (hopen : trxStep w₁ (.openNow c) = some w₂)
    (hrun' : Run.run trxStep w₂ acts' = some w₃) : ∃ v, w₂.sys.viewList = v :: w₁.sys.viewList ∧ v.creatorTrxId = c ∧
      ∀ t ∈ w₃.log.ids, readViewSeesTrxId v t = true ↔ t = c ∨ t ∈ w₁.log.committed := by
  have hcons := (init_consistent hmax).run hrun
  have hbefore := (Watched.Before.step hopen).trans (Watched.Before.run hrun')
  unfold trxStep at hopen
  split at hopen
  · rename_i henabled
    cases hopen
    obtain ⟨trx, htrx, hcond⟩ := any_eq_true.1 henabled
    simp only [Bool.and_eq_true, decide_eq_true_eq] at hcond
    have hc : c < w₁.sys.maxTrxId := hcond.1.1 ▸ (hcons.ids _ (hcons.listed trx htrx)).2
    exact ⟨openView w₁.sys c, rfl, rfl, fun t ht => hcons.sees_openView hbefore hc ht⟩
  · cases hopen

/-- A view of transaction 6 that is opened after transaction 5 has become committed, and before transaction 7 starts. -/
theorem readViewSeesTrxId_iff_sample :
    ∃ w₁ w₂ w₃ v, Run.run trxStep (Watched.init 5) [.start, .start, .commitInMemory 5] = some w₁ ∧
      trxStep w₁ (.openNow 6) = some w₂ ∧ Run.run trxStep w₂ [.start] = some w₃ ∧ w₂.sys.viewList = [v] ∧
      ∀ t ∈ w₃.log.ids, readViewSeesTrxId v t = true ↔ t = 6 ∨ t ∈ w₁.log.committed := by
  obtain ⟨v, hlist, -, hsees⟩ := readViewSeesTrxId_iff 5 (by decide) [.start, .start, .commitInMemory 5] [.start] _ _ _ 6 rfl rfl
    rfl
  exact ⟨_, _, _, v, rfl, rfl, rfl, hlist, hsees⟩

end Mysql51.Innodb
