import Mysql51.Innodb.Snapshot

/-!
# Purge is safe

The views in `view_list` are in the order of the states they were opened in, the oldest last. The view of purge is a copy of the
oldest one that hides its creator too: what it sees had been committed when the oldest view was opened, and so is seen by every
view opened since.
-/

namespace Mysql51.Innodb

open List Option

/-! ### The copy of a view -/

theorem copyLoop_false {ids : List Nat} {creator n insertDone : Nat} {out : List Nat} (hins : insertDone ≤ out.length)
    (hn : out.length - insertDone + n ≤ ids.length) :
    copyLoop ids creator n false insertDone out = out ++ (ids.drop (out.length - insertDone)).take n := by
  induction n generalizing out with
  | zero => simp [copyLoop]
  | succ n ih =>
    have hlt : out.length - insertDone < ids.length := by omega
    have hlen : (out ++ [ids.getD (out.length - insertDone) 0]).length - insertDone = out.length - insertDone + 1 := by
      rw [length_append, length_singleton]
      omega
    rw [copyLoop, if_neg (by simp), ih (by rw [length_append]; omega) (by rw [hlen]; omega), hlen,
      drop_eq_getElem_cons hlt, take_succ_cons, append_assoc, singleton_append, getD_eq_getElem?_getD,
      List.getElem?_eq_getElem hlt, getD_some]

theorem copyLoop_true {ids : List Nat} (creator : Nat) {n j : Nat} (hj : j ≤ ids.length) (hn : n = ids.length - j) :
    ∃ k, k ≤ ids.length ∧ copyLoop ids creator (n + 1) true 0 (ids.take j) = ids.take k ++ creator :: ids.drop k ∧
      (∀ i, j ≤ i → i < k → creator ≤ ids.getD i 0) ∧ (k < ids.length → ids.getD k 0 < creator) := by
  induction n generalizing j with
  | zero =>
    obtain rfl : j = ids.length := by omega
    refine ⟨ids.length, le_refl _, ?_, fun i hi hlt => by omega, fun hlt => absurd hlt (lt_irrefl _)⟩
    rw [copyLoop, if_pos ⟨rfl, .inl (by simp)⟩]
    simp [copyLoop]
  | succ n ih =>
    have hlen : (ids.take j).length = j := length_take_of_le hj
    rw [copyLoop, hlen]
    by_cases hless : ids.getD j 0 < creator
    · refine ⟨j, hj, ?_, fun i hi hlt => by omega, fun _ => hless⟩
      have hout : (ids.take j ++ [creator]).length - 1 = j := by simp [hlen]
      have hrest : (ids.drop j).take (n + 1) = ids.drop j := take_of_length_le (by rw [length_drop]; omega)
      rw [if_pos ⟨rfl, .inr hless⟩, copyLoop_false (by simp) (by rw [hout]; omega), hout, hrest, append_assoc, singleton_append]
    have hlt : j < ids.length := by omega
    obtain ⟨k, hk, hcopy, hbig, hsmall⟩ := ih (j := j + 1) hlt (by omega)
    refine ⟨k, hk, ?_, fun i hi hik => ?_, hsmall⟩
    · rw [if_neg (by rintro ⟨-, hge | hlt'⟩ <;> omega), Nat.sub_zero, ← hcopy]
      congr 1
      rw [getD_eq_getElem?_getD, List.getElem?_eq_getElem hlt, getD_some, take_append_getElem]
    rcases Nat.eq_or_lt_of_le hi with rfl | hlt'
    · exact not_lt.1 hless
    · exact hbig i hlt' hik

/-- A view and the state in which it was opened, by transaction `c` that ran there or, with the id 0, for purge. -/
structure ReadView.Shows (view : ReadView) (w : Watched) (c : Nat) : Prop where
  sorted : view.Sorted
  low : view.lowLimitId = w.sys.maxTrxId
  creator : view.creatorTrxId = c
  runs : c ≠ 0 → ∃ trx ∈ w.sys.trxList, trx.id = c ∧ trx.running = true
  ids : ∀ t, t ∈ view.trxIds ↔ t ≠ c ∧ ∃ trx ∈ w.sys.trxList, trx.id = t ∧ trx.running = true
  no_le : view.lowLimitNo ≤ w.sys.maxTrxId
  no : ∀ trx ∈ w.sys.trxList, trx.running = true → ∀ n, trx.no = some n → view.lowLimitNo ≤ n

variable {w base w' : Watched} {c : Nat} {view : ReadView}

theorem Watched.Consistent.openView_shows (h : w.Consistent) (hc : c = 0 ∨ (TrxAct.openNow c).enabled w.sys = true) :
    (openView w.sys c).Shows w c := by
  have hcreator : c ≠ 0 → ∃ trx ∈ w.sys.trxList, trx.id = c ∧ trx.running = true ∧ trx.no = none := by
    intro hne
    obtain ⟨trx, htrx, hcond⟩ := any_eq_true.1 (hc.resolve_left hne)
    simp only [Bool.and_eq_true, decide_eq_true_eq, isNone_iff_eq_none] at hcond
    exact ⟨trx, htrx, hcond.1.1, by simp [Trx.running, hcond.1.2], hcond.2⟩
  obtain ⟨hle, hno⟩ := openLoop_no c w.sys.trxList [] w.sys.maxTrxId
  refine ⟨h.openView_sorted c, rfl, rfl, fun hne => ?_, fun t => ?_, hle, fun trx htrx hrun n hn => ?_⟩
  · obtain ⟨trx, htrx, hid, hrun, -⟩ := hcreator hne
    exact ⟨trx, htrx, hid, hrun⟩
  · rw [openView_trxIds, List.mem_map]
    constructor
    · rintro ⟨trx, htrx, rfl⟩
      obtain ⟨hmem, hne, hrun⟩ := mem_hidden.1 htrx
      exact ⟨hne, trx, hmem, rfl, hrun⟩
    rintro ⟨hne, trx, hmem, rfl, hrun⟩
    exact ⟨trx, mem_hidden.2 ⟨hmem, hne, hrun⟩, rfl⟩
  by_cases hid : trx.id = c
  · -- the creator has no number yet
    have hpos := (h.ids _ (h.listed trx htrx)).1
    obtain ⟨trx', htrx', hid', -, hnone⟩ := hcreator (by omega)
    rw [h.unique htrx htrx' (hid.trans hid'.symm), hnone] at hn
    cases hn
  exact hno trx htrx hid hrun n hn

theorem copyView_trxIds (hsorted : view.Sorted) (hcreator : view.creatorTrxId ∉ view.trxIds) :
    (copyView view 0).trxIds.Pairwise (· > ·) ∧
    (∀ t, t ∈ (copyView view 0).trxIds ↔ t ∈ view.trxIds ∨ (view.creatorTrxId ≠ 0 ∧ t = view.creatorTrxId)) ∧
    (copyView view 0).upLimitId = (copyView view 0).trxIds.getLast?.getD view.upLimitId := by
  -- the last cell is read by its index
  have hup : ∀ ids : List Nat, (if 0 < ids.length then ids.getD (ids.length - 1) 0 else view.upLimitId) =
      ids.getLast?.getD view.upLimitId := by
    intro ids
    rw [List.getLast?_eq_getElem?]
    split
    · rw [getD_eq_getElem?_getD, List.getElem?_eq_getElem (by omega)]
      rfl
    rw [List.getElem?_eq_none (by omega)]
    rfl
  by_cases hzero : view.creatorTrxId = 0
  · have hcopy : (copyView view 0).trxIds = view.trxIds := by
      have hloop : copyLoop view.trxIds view.creatorTrxId view.trxIds.length false 0 [] = view.trxIds := by
        rw [copyLoop_false (Nat.zero_le _) (by simp), nil_append, length_nil, Nat.zero_sub, drop_zero, take_length]
      simpa [copyView, hzero] using hloop
    have hlimit : (copyView view 0).upLimitId =
        if 0 < view.trxIds.length then (copyView view 0).trxIds.getD (view.trxIds.length - 1) 0 else view.upLimitId := by
      simp [copyView, hzero]
    rw [hlimit, hcopy]
    exact ⟨hsorted.ids, fun t => by simp [hzero], hup _⟩
  obtain ⟨k, hk, hloop, hbig, hsmall⟩ := copyLoop_true view.creatorTrxId (Nat.zero_le view.trxIds.length) rfl
  have hcopy : (copyView view 0).trxIds = view.trxIds.take k ++ view.creatorTrxId :: view.trxIds.drop k := by
    simpa [copyView, hzero] using hloop
  have hlen : (view.trxIds.take k ++ view.creatorTrxId :: view.trxIds.drop k).length = view.trxIds.length + 1 := by
    simp only [length_append, length_take, length_cons, length_drop]
    omega
  have hlimit : (copyView view 0).upLimitId =
      if 0 < view.trxIds.length + 1 then (copyView view 0).trxIds.getD (view.trxIds.length + 1 - 1) 0 else view.upLimitId := by
    simp [copyView, hzero]
  rw [hlimit, hcopy, ← hlen]
  refine ⟨?_, ?_, hup _⟩
  · have hids := hsorted.ids
    rw [← take_append_drop k view.trxIds, pairwise_append] at hids
    obtain ⟨hfront, hback, hcross⟩ := hids
    refine pairwise_append.2 ⟨hfront, pairwise_cons.2 ⟨fun b hb => ?_, hback⟩, fun a ha b hb => ?_⟩
    · have hlt : k < view.trxIds.length := by
        by_contra hge
        rw [drop_eq_nil_of_le (not_lt.1 hge)] at hb
        cases hb
      have hfirst := hsmall hlt
      rw [getD_eq_getElem?_getD, List.getElem?_eq_getElem hlt, getD_some] at hfirst
      rw [drop_eq_getElem_cons hlt] at hb hback
      rcases mem_cons.1 hb with rfl | hlater
      · exact hfirst
      · exact lt_trans ((pairwise_cons.1 hback).1 b hlater) hfirst
    rcases mem_cons.1 hb with rfl | hlater
    · obtain ⟨i, hi, rfl⟩ := mem_take_iff_getElem.1 ha
      have hle := hbig i (Nat.zero_le i) (by omega)
      rw [getD_eq_getElem?_getD, List.getElem?_eq_getElem (by omega), getD_some] at hle
      exact lt_of_le_of_ne hle fun heq => hcreator (heq ▸ getElem_mem _)
    exact hcross a ha b hlater
  intro t
  have hsplit : t ∈ view.trxIds ↔ t ∈ view.trxIds.take k ∨ t ∈ view.trxIds.drop k := by
    rw [← mem_append, take_append_drop]
  rw [mem_append, mem_cons, hsplit]
  tauto

theorem ReadView.Shows.copyView (hw : w.Consistent) (h : view.Shows w c) : (copyView view 0).Shows w 0 := by
  have hcreator : view.creatorTrxId ∉ view.trxIds := by
    rw [h.ids, h.creator]
    exact fun hc => hc.1 rfl
  obtain ⟨hsorted, hids, hup⟩ := copyView_trxIds h.sorted hcreator
  have hrunning : ∀ t, t ∈ (Innodb.copyView view 0).trxIds ↔ t ≠ 0 ∧ ∃ trx ∈ w.sys.trxList, trx.id = t ∧ trx.running = true := by
    intro t
    rw [hids, h.ids, h.creator]
    constructor
    · rintro (⟨-, trx, htrx, rfl, hrun⟩ | ⟨hne, rfl⟩)
      · exact ⟨ne_of_gt (hw.ids _ (hw.listed trx htrx)).1, trx, htrx, rfl, hrun⟩
      · exact ⟨hne, h.runs hne⟩
    rintro ⟨hne, hrun⟩
    rcases eq_or_ne t c with rfl | hother
    · exact .inr ⟨hne, rfl⟩
    · exact .inl ⟨hother, hrun⟩
  have hlow : ∀ id ∈ (Innodb.copyView view 0).trxIds, id < w.sys.maxTrxId := by
    intro id hid
    obtain ⟨-, trx, htrx, rfl, -⟩ := (hrunning id).1 hid
    exact (hw.ids _ (hw.listed trx htrx)).2
  refine ⟨⟨hsorted, ?_, ?_, ?_⟩, h.low, rfl, fun hne => absurd rfl hne, hrunning, h.no_le, h.no⟩
  · rw [show (Innodb.copyView view 0).lowLimitId = w.sys.maxTrxId from h.low]
    exact hlow
  · intro id hid
    rw [hup]
    cases hlast : (Innodb.copyView view 0).trxIds.getLast? with
    | none =>
      rw [List.getLast?_eq_none_iff.1 hlast] at hid
      cases hid
    | some last => exact getLast?_le hsorted hlast hid
  rw [hup, show (Innodb.copyView view 0).lowLimitId = view.lowLimitId from rfl]
  cases hlast : (Innodb.copyView view 0).trxIds.getLast? with
  | none => exact h.sorted.limits
  | some last =>
    rw [h.low]
    exact (hlow last (mem_of_getLast? hlast)).le

/-! ### The list of views -/

/-- The views in the list show states in their order, the last one the oldest, and none before a given one. -/
def ViewsSince (base w : Watched) : Prop :=
  ∃ shown : List (Watched × Nat), List.Forall₂ (fun view s => ReadView.Shows view s.1 s.2) w.sys.viewList shown ∧
    (∀ s ∈ shown, s.1.Consistent ∧ base.Before s.1 ∧ s.1.Before w) ∧ shown.Pairwise fun a b => b.1.Before a.1

theorem viewsSince_of_nil (h : w.sys.viewList = []) : ViewsSince w w := by
  refine ⟨[], h ▸ List.Forall₂.nil, ?_, List.Pairwise.nil⟩
  intro s hs
  cases hs

section

variable (h : ViewsSince base w)
include h

theorem ViewsSince.of_viewList (hbefore : w.Before w') (hviews : w'.sys.viewList = w.sys.viewList) : ViewsSince base w' := by
  obtain ⟨shown, hshown, hall, hordered⟩ := h
  refine ⟨shown, hviews ▸ hshown, fun s hs => ?_, hordered⟩
  obtain ⟨hcons, hbase, hw⟩ := hall s hs
  exact ⟨hcons, hbase, hw.trans hbefore⟩

theorem ViewsSince.openNow (hw : w.Consistent) (hbase : base.Before w)
    (hc : c = 0 ∨ (TrxAct.openNow c).enabled w.sys = true) : ViewsSince base ⟨readViewOpenNow w.sys c, w.log⟩ := by
  obtain ⟨shown, hshown, hall, hordered⟩ := h
  have hsame : w.Before ⟨readViewOpenNow w.sys c, w.log⟩ :=
    ⟨le_refl _, fun _ hid => .inl hid, fun _ hp => .inl hp, fun _ hid => hid⟩
  refine ⟨(w, c) :: shown, List.Forall₂.cons (hw.openView_shows hc) hshown, fun s hs => ?_,
    pairwise_cons.2 ⟨fun s hs => (hall s hs).2.2, hordered⟩⟩
  rcases mem_cons.1 hs with rfl | hs
  · exact ⟨hw, hbase, hsame⟩
  obtain ⟨hcons, hsbase, hsw⟩ := hall s hs
  exact ⟨hcons, hsbase, hsw.trans hsame⟩

theorem ViewsSince.close (i : Nat) : ViewsSince base ⟨readViewClose w.sys i, w.log⟩ := by
  obtain ⟨shown, hshown, hall, hordered⟩ := h
  have hsame : w.Before ⟨readViewClose w.sys i, w.log⟩ :=
    ⟨le_refl _, fun _ hid => .inl hid, fun _ hp => .inl hp, fun _ hid => hid⟩
  refine ⟨shown.eraseIdx i, ?_, fun s hs => ?_, hordered.sublist (eraseIdx_sublist shown i)⟩
  · change List.Forall₂ _ (w.sys.viewList.eraseIdx i) _
    rw [eraseIdx_eq_take_drop_succ, eraseIdx_eq_take_drop_succ]
    exact rel_append (forall₂_take i hshown) (forall₂_drop (i + 1) hshown)
  obtain ⟨hcons, hbase, hw⟩ := hall s (mem_of_mem_eraseIdx hs)
  exact ⟨hcons, hbase, hw.trans hsame⟩

/-- The view of purge shows the state of the oldest view, or the current one, and every view in the list shows a later one. -/
theorem ViewsSince.oldestCopy (hw : w.Consistent) (hbase : base.Before w) :
    ∃ oldest : Watched, oldest.Consistent ∧ base.Before oldest ∧ oldest.Before w ∧
      (readViewOldestCopyOrOpenNew w.sys 0).1.Shows oldest 0 ∧
      ViewsSince oldest ⟨(readViewOldestCopyOrOpenNew w.sys 0).2, w.log⟩ := by
  obtain ⟨shown, hshown, hall, hordered⟩ := h
  unfold readViewOldestCopyOrOpenNew
  cases hlast : w.sys.viewList.getLast? with
  | none =>
    have hnil : w.sys.viewList = [] := List.getLast?_eq_none_iff.1 hlast
    exact ⟨w, hw, hbase, Watched.Before.refl w, hw.openView_shows (.inl rfl),
      (viewsSince_of_nil hnil).openNow hw (Watched.Before.refl w) (.inl rfl)⟩
  | some view =>
    obtain ⟨front, hfront⟩ := List.getLast?_eq_some_iff.1 hlast
    obtain ⟨sfront, s, rfl⟩ : ∃ sfront s, shown = sfront ++ [s] := by
      rcases eq_nil_or_concat shown with rfl | ⟨sfront, s, rfl⟩
      · rw [hfront] at hshown
        have := hshown.length_eq
        simp at this
      exact ⟨sfront, s, concat_eq_append⟩
    have hlen : front.length = sfront.length := by
      have := hshown.length_eq
      rw [hfront, length_append, length_append] at this
      exact Nat.add_right_cancel this
    obtain ⟨hcons, hsbase, hsw⟩ := hall s (by simp)
    have hview : view.Shows s.1 s.2 := by
      have hdrop := forall₂_drop_append _ _ _ hshown
      rw [hfront, ← hlen, drop_left] at hdrop
      exact (forall₂_cons.1 hdrop).1
    have hcopy := hview.copyView hcons
    have hsame : w.Before ⟨{ w.sys with viewList := w.sys.viewList ++ [copyView view 0] }, w.log⟩ :=
      ⟨le_refl _, fun _ hid => .inl hid, fun _ hp => .inl hp, fun _ hid => hid⟩
    have holdest : ∀ s' ∈ sfront ++ [s], s.1.Before s'.1 := by
      intro s' hs'
      rcases mem_append.1 hs' with hs' | hs'
      · exact (pairwise_append.1 hordered).2.2 s' hs' s (mem_singleton_self s)
      rw [mem_singleton.1 hs']
      exact Watched.Before.refl s.1
    refine ⟨s.1, hcons, hsbase, hsw, hcopy, (sfront ++ [s]) ++ [(s.1, 0)], ?_, fun s' hs' => ?_, ?_⟩
    · exact rel_append hshown (List.Forall₂.cons hcopy List.Forall₂.nil)
    · rcases mem_append.1 hs' with hold | hnew
      · obtain ⟨hcons', -, hw'⟩ := hall s' hold
        exact ⟨hcons', holdest s' hold, hw'.trans hsame⟩
      rw [mem_singleton.1 hnew]
      exact ⟨hcons, Watched.Before.refl s.1, hsw.trans hsame⟩
    refine pairwise_append.2 ⟨hordered, pairwise_singleton _ _, fun a ha b hb => ?_⟩
    rw [mem_singleton.1 hb]
    exact holdest a ha

theorem ViewsSince.step {a : TrxAct} (hw : w.Consistent) (hbase : base.Before w)
    (hstep : trxStep w a = some w') : ViewsSince base w' := by
  have hbefore := Watched.Before.step hstep
  unfold trxStep at hstep
  split at hstep
  · rename_i henabled
    cases hstep
    cases a with
    | start => exact h.of_viewList hbefore rfl
    | assignNo id => exact h.of_viewList hbefore rfl
    | prepare id => exact h.of_viewList hbefore rfl
    | commitInMemory id => exact h.of_viewList hbefore rfl
    | remove id => exact h.of_viewList hbefore rfl
    | openNow id => exact h.openNow hw hbase (.inr henabled)
    | oldestCopy =>
      obtain ⟨oldest, -, hold, -, -, shown, hshown, hall, hordered⟩ := h.oldestCopy hw hbase
      exact ⟨shown, hshown, fun s hs => ⟨(hall s hs).1, hold.trans (hall s hs).2.1, (hall s hs).2.2⟩, hordered⟩
    | close i => exact h.close i
  cases hstep

theorem ViewsSince.run {acts : List TrxAct} (hw : w.Consistent) (hbase : base.Before w)
    (hrun : Run.run trxStep w acts = some w') : ViewsSince base w' := by
  have hinv : w'.Consistent ∧ base.Before w' ∧ ViewsSince base w' :=
    Run.invariant (P := fun u => u.Consistent ∧ base.Before u ∧ ViewsSince base u)
      (fun u a u' _ hu hstep => ⟨hu.1.step hstep, hu.2.1.trans (Watched.Before.step hstep), hu.2.2.step hu.1 hu.2.1 hstep⟩)
      ⟨hw, hbase, h⟩ hrun
  exact hinv.2.2

end

/-! ### Purge -/

theorem ReadView.Shows.sees_committed {t : Nat} (h : view.Shows w c) (hw : w.Consistent) (hbase : base.Before w)
    (ht : t ∈ base.log.committed) : readViewSeesTrxId view t = true := by
  have hcommitted := hbase.committed t ht
  have hid := hw.committed_ids t hcommitted
  rw [h.sorted.sees_iff, h.low, h.ids]
  refine ⟨(hw.ids t hid).2, ?_⟩
  rintro ⟨-, trx, htrx, heq, hrun⟩
  rw [(hw.committed t hid).1 hcommitted trx htrx heq] at hrun
  cases hrun

/-- An id below the limit of a view that does not run in the state it shows had been committed there. -/
theorem Watched.Consistent.committed_of_not_running (h : w.Consistent) (hbefore : w.Before w') {t : Nat} (ht : t ∈ w'.log.ids)
    (hlt : t < w.sys.maxTrxId) (hrun : ¬∃ trx ∈ w.sys.trxList, trx.id = t ∧ trx.running = true) : t ∈ w.log.committed := by
  have hid : t ∈ w.log.ids := (hbefore.ids t ht).resolve_right (not_le.2 hlt)
  rw [h.committed t hid]
  intro trx htrx heq
  by_contra hne
  exact hrun ⟨trx, htrx, heq, by simpa using hne⟩

/-- Purge safety: in every run, at any time after the view `p` of purge was obtained, every open view sees each transaction id that
`p` sees, and each transaction whose number is below the `low_limit_no` of `p`. -/
theorem purge_safe (maxTrxId : Nat) (hmax : 0 < maxTrxId) (acts acts' : List TrxAct) (w₁ w₂ w₃ : Watched)
    (hrun : Run.run trxStep (Watched.init maxTrxId) acts = some w₁) (hpurge : trxStep w₁ .oldestCopy = some w₂)
    (hrun' : Run.run trxStep w₂ acts' = some w₃) : ∀ v ∈ w₃.sys.viewList,
      (∀ t ∈ w₃.log.ids, readViewSeesTrxId (readViewOldestCopyOrOpenNew w₁.sys 0).1 t = true → readViewSeesTrxId v t = true) ∧
      ∀ t no, (t, no) ∈ w₃.log.nos → no < (readViewOldestCopyOrOpenNew w₁.sys 0).1.lowLimitNo → readViewSeesTrxId v t = true := by
  have hinit : ViewsSince (Watched.init maxTrxId) (Watched.init maxTrxId) := viewsSince_of_nil rfl
  have hcons₁ := (init_consistent hmax).run hrun
  have hviews₁ := hinit.run (init_consistent hmax) (Watched.Before.refl _) hrun
  obtain ⟨base, hbase, -, hbase₁, hp, hviews₂⟩ := hviews₁.oldestCopy hcons₁ (Watched.Before.run hrun)
  have hcons₂ := hcons₁.step hpurge
  have hbase₂ := hbase₁.trans (Watched.Before.step hpurge)
  have hbase₃ := hbase₂.trans (Watched.Before.run hrun')
  obtain rfl : w₂ = ⟨(readViewOldestCopyOrOpenNew w₁.sys 0).2, w₁.log⟩ := (Option.some.inj hpurge).symm
  obtain ⟨shown, hshown, hall, -⟩ := hviews₂.run hcons₂ hbase₂ hrun'
  intro v hv
  obtain ⟨i, hi, rfl⟩ := getElem_of_mem hv
  have hi' : i < shown.length := hshown.length_eq ▸ hi
  have hv := (forall₂_iff_get.1 hshown).2 i hi hi'
  obtain ⟨hcons, hbefore, -⟩ := hall _ (getElem_mem hi')
  constructor
  · intro t ht hsees
    rw [hp.sorted.sees_iff, hp.low, hp.ids] at hsees
    apply hv.sees_committed hcons hbefore
    apply hbase.committed_of_not_running hbase₃ ht hsees.1
    rintro ⟨trx, htrx, rfl, hrunning⟩
    exact hsees.2 ⟨ne_of_gt (hbase.ids _ (hbase.listed trx htrx)).1, trx, htrx, rfl, hrunning⟩
  · intro t no hno hlt
    -- the number was assigned before the oldest view was opened
    have hold : (t, no) ∈ base.log.nos := (hbase₃.nos _ hno).resolve_right (not_le.2 (lt_of_lt_of_le hlt hp.no_le))
    obtain ⟨-, hid, htrxNo⟩ := hbase.nos _ hold
    apply hv.sees_committed hcons hbefore
    apply hbase.committed_of_not_running (Watched.Before.refl base) hid (hbase.ids t hid).2
    rintro ⟨trx, htrx, heq, hrunning⟩
    exact absurd (hp.no trx htrx hrunning no (htrxNo trx htrx heq)) (not_le.2 hlt)

/-- Transaction 5 has committed with the number 7 before transaction 6 opens a view. After purge has its view, 8 opens another. -/
theorem purge_safe_sample : ∃ w₁ w₂ w₃,
      Run.run trxStep (Watched.init 5) [.start, .start, .assignNo 5, .commitInMemory 5, .openNow 6] = some w₁ ∧
      trxStep w₁ .oldestCopy = some w₂ ∧ Run.run trxStep w₂ [.start, .openNow 8] = some w₃ ∧ w₃.sys.viewList.length = 3 ∧
      5 ∈ w₃.log.ids ∧ readViewSeesTrxId (readViewOldestCopyOrOpenNew w₁.sys 0).1 5 = true ∧
      (5, 7) ∈ w₃.log.nos ∧ 7 < (readViewOldestCopyOrOpenNew w₁.sys 0).1.lowLimitNo ∧
      ∀ v ∈ w₃.sys.viewList,
        (∀ t ∈ w₃.log.ids, readViewSeesTrxId (readViewOldestCopyOrOpenNew w₁.sys 0).1 t = true → readViewSeesTrxId v t = true) ∧
        ∀ t no, (t, no) ∈ w₃.log.nos → no < (readViewOldestCopyOrOpenNew w₁.sys 0).1.lowLimitNo →
          readViewSeesTrxId v t = true := by
  refine ⟨_, _, _, rfl, rfl, rfl, rfl, by decide, by decide, by decide, by decide, ?_⟩
  exact purge_safe 5 (by decide) [.start, .start, .assignNo 5, .commitInMemory 5, .openNow 6] [.start, .openNow 8] _ _ _ rfl rfl rfl

end Mysql51.Innodb
