import Mysql51.Innodb.RecLockQueue

/-!
# Runs of record lock requests

Each function of the interface changes the queue in the ways whose effect is known: a granted lock is only made or extended
when it conflicts with no lock on the record, a waiting one only behind a lock that it has to wait for, and a lock leaves
together with a look at those that wait behind it.
-/

namespace Mysql51.Innodb.RecLock

open List

variable {queue : List Lock} {mode : TypeMode} {heapNo trx nHeap : Nat}

/-! ### Requests that are granted -/

variable {l : Lock} {k : Nat}

theorem compatible_of_not_conflicting (hnone : lockRecOtherHasConflicting queue mode heapNo trx = false) (h : Lined queue)
    (hl : l ∈ queue) (hbit : l.getNthBit heapNo = true) (hr : heapNo ≠ supremum) (htrx : l.trx ≠ trx)
    (hgap : l.typeMode.gap = false) (hgap' : mode.gap = false) : lockModeCompatible l.typeMode.mode mode.mode ≠ false := by
  intro hmode
  rw [lockRecOtherHasConflicting, any_eq_false] at hnone
  apply hnone l hl
  have hwaits := lockRecHasToWait_of_conflict htrx.symm ((lockModeCompatible_comm _ _).trans hmode) hgap' hgap
    (h.intention_eq_false hl hr hbit hgap)
  simp [hbit, hr, hwaits]

theorem stripGap_of_ne (hr : heapNo ≠ supremum) : stripGap mode heapNo = mode := if_neg hr

theorem stripGap_wait (mode : TypeMode) (heapNo : Nat) : (stripGap mode heapNo).wait = mode.wait := by
  unfold stripGap
  split_ifs <;> rfl

theorem stripGap_insertIntention (mode : TypeMode) (heapNo : Nat) :
    (stripGap mode heapNo).insertIntention = mode.insertIntention := by
  unfold stripGap
  split_ifs <;> rfl

theorem Ordered.create (h : Ordered queue) (hlt : heapNo < nHeap) (hwait : mode.wait = false)
    (hintention : mode.insertIntention = false) (hnone : lockRecOtherHasConflicting queue mode heapNo trx = false) :
    Ordered (lockRecCreate queue mode heapNo trx nHeap) := by
  have hnot : (newLock mode heapNo trx nHeap).typeMode.wait ≠ true := by
    rw [newLock, stripGap_wait, hwait]
    exact Bool.false_ne_true
  apply h.concat
  · exact fun htrue => absurd htrue hnot
  · intro htrue
    rw [newLock, stripGap_insertIntention, hintention] at htrue
    cases htrue
  · intro l hl hconflict
    obtain ⟨r, hr, hbit, hbit'⟩ := hconflict.common
    obtain rfl := (only_newLock hlt r).1 hbit'
    have hmode := hconflict.mode
    have hgap := hconflict.gap'
    rw [newLock, stripGap_of_ne hr] at hmode hgap
    exact absurd hmode (compatible_of_not_conflicting hnone h.lined hl hbit hr hconflict.trx hconflict.gap hgap)
  exact fun htrue => absurd htrue hnot

theorem Ordered.extend (h : Ordered queue) {lock : Lock} (hk : queue[k]? = some lock) (htrx : lock.trx = trx)
    (htype : lock.typeMode = stripGap mode heapNo) (hlt : heapNo < lock.bitmap.length) (hwait : mode.wait = false)
    (hintention : mode.insertIntention = false) (hnone : lockRecOtherHasConflicting queue mode heapNo trx = false) :
    Ordered (queue.modify k fun l => l.setNthBit heapNo) := by
  apply h.setNthBit hk hlt
  · rw [htype, stripGap_wait, hwait]
  · rw [htype, stripGap_insertIntention, hintention]
  intro l hl hbit hr htrx' hgap hgap'
  rw [htype, stripGap_of_ne hr] at hgap' ⊢
  exact compatible_of_not_conflicting hnone h.lined hl hbit hr (htrx ▸ htrx') hgap hgap'

theorem Ordered.addToQueue (h : Ordered queue) (hlt : heapNo < nHeap) (hrequested : Requested mode)
    (hnone : lockRecOtherHasConflicting queue mode heapNo trx = false) :
    Ordered (lockRecAddToQueue queue mode heapNo trx nHeap) := by
  obtain ⟨-, -, hintention, hwait⟩ := hrequested
  have hcreate : Ordered (lockRecCreate queue (stripGap mode heapNo) heapNo trx nHeap) := by
    have hidem : stripGap (stripGap mode heapNo) heapNo = stripGap mode heapNo := by
      unfold stripGap
      split_ifs <;> rfl
    have hsame : lockRecCreate queue (stripGap mode heapNo) heapNo trx nHeap = lockRecCreate queue mode heapNo trx nHeap := by
      rw [lockRecCreate, lockRecCreate, newLock, newLock, hidem]
    rw [hsame]
    exact h.create hlt hwait hintention hnone
  unfold lockRecAddToQueue
  split
  · next k hsimilar =>
    split_ifs
    · obtain ⟨hk, hp, -⟩ := List.findIdx?_eq_some_iff_getElem.1 hsimilar
      simp only [Bool.and_eq_true, decide_eq_true_iff] at hp
      exact h.extend (List.getElem?_eq_some_iff.2 ⟨hk, rfl⟩) hp.1.1 hp.1.2 hp.2 hwait hintention hnone
    exact hcreate
  exact hcreate

/-! ### Requests that wait -/

theorem waitLock_eq_none (h : waitLock queue trx = none) (hl : l ∈ queue) (htrx : l.trx = trx) : l.typeMode.wait = false := by
  have hnot := List.findIdx?_eq_none_iff.1 h l hl
  simpa [htrx] using hnot

theorem waitLock_eq_some (h : waitLock queue trx = some k) : ∃ l, queue[k]? = some l ∧ l.trx = trx ∧ l.typeMode.wait = true := by
  obtain ⟨hk, hp, -⟩ := List.findIdx?_eq_some_iff_getElem.1 h
  exact ⟨queue[k], List.getElem?_eq_some_iff.2 ⟨hk, rfl⟩, by simpa using hp⟩

theorem lockRecHasToWait_stripGap (h : lockRecHasToWait trx mode l (heapNo = supremum) = true) :
    lockRecHasToWait trx (stripGap { mode with wait := true } heapNo) l (heapNo = supremum) = true := by
  unfold stripGap
  split_ifs with hr
  · unfold lockRecHasToWait at h ⊢
    simp only [hr, decide_true, Bool.true_or, Bool.true_and, Bool.false_and] at h ⊢
    split_ifs at h ⊢ <;> simp_all
  exact h

theorem Ordered.createWaiting (h : Ordered queue) (hlt : heapNo < nHeap) (hintention : mode.insertIntention = true → mode.gap = true)
    (hsome : lockRecOtherHasConflicting queue mode heapNo trx = true) :
    Ordered (lockRecCreate queue { mode with wait := true } heapNo trx nHeap) := by
  have honly := @only_newLock { mode with wait := true } heapNo trx nHeap hlt
  apply h.concat
  · exact fun _ => ⟨heapNo, honly⟩
  · intro htrue hgap r hbit
    rw [(honly r).1 hbit]
    by_contra hr
    rw [newLock, stripGap_insertIntention] at htrue
    rw [newLock, stripGap_of_ne hr] at hgap
    exact nomatch hgap.symm.trans (hintention htrue)
  · intro _ _ _
    rw [newLock, stripGap_wait]
  intro _
  rw [lockRecOtherHasConflicting, any_eq_true] at hsome
  obtain ⟨l, hl, hboth⟩ := hsome
  rw [Bool.and_eq_true] at hboth
  refine ⟨l, hl, heapNo, (honly heapNo).2 rfl, hboth.1, ?_⟩
  have hstrip := lockRecHasToWait_stripGap hboth.2
  have hsupremum : (newLock { mode with wait := true } heapNo trx nHeap).getNthBit 1 = decide (heapNo = supremum) := by
    rw [Bool.eq_iff_iff, honly 1, decide_eq_true_iff]
    exact eq_comm
  have hguard : trx ≠ l.trx ∧ lockModeCompatible (stripGap { mode with wait := true } heapNo).mode l.typeMode.mode = false := by
    by_contra hnot
    rw [lockRecHasToWait, if_neg hnot] at hstrip
    cases hstrip
  rw [lockHasToWait, hsupremum]
  exact (if_pos hguard).trans hstrip

def LastWaits (trx heapNo : Nat) (queue : List Lock) : Prop :=
  ∀ (i : Nat) (l : Lock), queue[i]? = some l → l.trx = trx → l.typeMode.wait = true → i + 1 = queue.length ∧ l.Only heapNo

theorem lastWaits_create (hnone : waitLock queue trx = none) (hlt : heapNo < nHeap) :
    LastWaits trx heapNo (lockRecCreate queue mode heapNo trx nHeap) := by
  intro i l hi htrx hwait
  rw [lockRecCreate] at hi ⊢
  rcases Nat.lt_or_ge i queue.length with hlt' | hge
  · rw [List.getElem?_append_left hlt'] at hi
    have hfalse := waitLock_eq_none hnone (mem_of_getElem? hi) htrx
    exact nomatch hfalse.symm.trans hwait
  have hi' := (List.getElem?_eq_some_iff.1 hi).1
  rw [length_append, length_singleton] at hi' ⊢
  obtain rfl : i = queue.length := by omega
  rw [List.getElem?_concat_length] at hi
  cases hi
  exact ⟨rfl, only_newLock hlt⟩

theorem length_grantLoop (on : Lock → Bool) (ahead rest : List Lock) : (grantLoop on ahead rest).length = rest.length := by
  induction rest generalizing ahead with
  | nil => rfl
  | cons l rest ih => rw [grantLoop, length_cons, ih, length_cons]

theorem LastWaits.dequeue (h : LastWaits trx heapNo queue) (hk : k < queue.length) :
    LastWaits trx heapNo (lockRecDequeueFromPage queue k) := by
  intro i l hi htrx hwait
  rw [lockRecDequeueFromPage, getElem?_grantLoop] at hi
  obtain ⟨l', hl', rfl⟩ := Option.map_eq_some_iff.1 hi
  have hsame := (wait_settle hwait).1
  rw [hsame] at hwait htrx ⊢
  rw [lockRecDequeueFromPage, length_grantLoop, length_eraseIdx_of_lt hk]
  rw [List.getElem?_eraseIdx] at hl'
  split_ifs at hl' with hik
  · obtain ⟨hlast, honly⟩ := h i l' hl' htrx hwait
    omega
  obtain ⟨hlast, honly⟩ := h (i + 1) l' hl' htrx hwait
  exact ⟨by omega, honly⟩

theorem Ordered.cancelWaiting (h : Ordered queue) (v : Nat) : Ordered (lockCancelWaitingAndRelease queue v) := by
  unfold lockCancelWaitingAndRelease
  split
  · exact h.lined.dequeue _
  · exact h

theorem LastWaits.cancelWaiting (h : LastWaits trx heapNo queue) (v : Nat) :
    LastWaits trx heapNo (lockCancelWaitingAndRelease queue v) := by
  unfold lockCancelWaitingAndRelease
  split
  · next k hwaits =>
    obtain ⟨l, hl, -⟩ := waitLock_eq_some hwaits
    exact h.dequeue (List.getElem?_eq_some_iff.1 hl).1
  exact h

theorem cancelAll (victims : List Nat) (h : Ordered queue) (hlast : LastWaits trx heapNo queue) :
    Ordered (victims.foldl lockCancelWaitingAndRelease queue) ∧
      LastWaits trx heapNo (victims.foldl lockCancelWaitingAndRelease queue) := by
  induction victims generalizing queue with
  | nil => exact ⟨h, hlast⟩
  | cons v victims ih => exact ih (h.cancelWaiting v) (hlast.cancelWaiting v)

theorem Ordered.enqueueWaiting (h : Ordered queue) (hnone : waitLock queue trx = none) (hlt : heapNo < nHeap)
    (hintention : mode.insertIntention = true → mode.gap = true)
    (hsome : lockRecOtherHasConflicting queue mode heapNo trx = true) (deadlock : Deadlock) :
    Ordered (lockRecEnqueueWaiting queue mode heapNo trx nHeap deadlock) := by
  obtain ⟨hordered, hlast⟩ := cancelAll (deadlock.victims.filter (· ≠ trx)) (h.createWaiting hlt hintention hsome)
    (lastWaits_create hnone hlt)
  unfold lockRecEnqueueWaiting
  dsimp only
  split
  · next k hwaits =>
    split_ifs
    · obtain ⟨l, hl, htrx, hwait⟩ := waitLock_eq_some hwaits
      obtain ⟨hk, honly⟩ := hlast k l hl htrx hwait
      exact hordered.giveUp hl hk honly
    exact hordered
  exact hordered

/-! ### Every step keeps the order -/

theorem Ordered.lockSlow (h : Ordered queue) (hrequested : Requested mode) (hlt : heapNo < nHeap) (hnone : waitLock queue trx = none)
    (impl : Bool) (deadlock : Deadlock) : Ordered (lockRecLockSlow queue impl mode heapNo trx nHeap deadlock) := by
  unfold lockRecLockSlow
  split_ifs with hexpl hconflicting
  · exact h
  · refine h.enqueueWaiting hnone hlt (fun htrue => ?_) hconflicting deadlock
    exact nomatch hrequested.2.2.1.symm.trans htrue
  · exact h.addToQueue hlt hrequested (Bool.eq_false_iff.2 hconflicting)
  exact h

theorem Ordered.lockRecLock (h : Ordered queue) (hrequested : Requested mode) (hlt : heapNo < nHeap)
    (hnone : waitLock queue trx = none) (impl : Bool) (deadlock : Deadlock) :
    Ordered (lockRecLock queue impl mode heapNo trx nHeap deadlock) := by
  obtain ⟨-, -, hintention, hwait⟩ := id hrequested
  unfold RecLock.lockRecLock
  split
  · split_ifs
    · exact h.create hlt hwait hintention rfl
    · exact h
  · next lock =>
    split_ifs with hslow hset
    · exact h.lockSlow hrequested hlt hnone impl deadlock
    · push Not at hslow
      obtain ⟨-, htype, hlen⟩ := hslow
      have hfirst : [lock][0]? = some lock := rfl
      exact h.setNthBit hfirst hlen (by rw [htype, hwait]) (by rw [htype, hintention]) fun l hl _ _ htrx => absurd
        (congrArg Lock.trx (mem_singleton.1 hl)) htrx
    exact h
  exact h.lockSlow hrequested hlt hnone impl deadlock

theorem findLast_eq_some {p : Lock → Bool} (h : findLast p queue = some k) : ∃ l, queue[k]? = some l ∧ p l = true := by
  induction queue generalizing k with
  | nil => cases h
  | cons l rest ih =>
    rw [findLast] at h
    cases hrest : findLast p rest with
    | some m =>
      rw [hrest] at h
      obtain rfl : m + 1 = k := by simpa using h
      exact ih hrest
    | none =>
      rw [hrest, Option.map_none, Option.none_or] at h
      split_ifs at h with hp
      cases h
      exact ⟨l, rfl, hp⟩

theorem Ordered.unlock (h : Ordered queue) (hnone : waitLock queue trx = none) (lockMode : LockMode) :
    Ordered (lockRecUnlock queue trx heapNo lockMode) := by
  unfold lockRecUnlock
  split
  · next k hfind =>
    obtain ⟨l, hl, hp⟩ := findLast_eq_some hfind
    simp only [Bool.and_eq_true, decide_eq_true_iff] at hp
    exact h.resetNthBit hl (waitLock_eq_none hnone (mem_of_getElem? hl) hp.2.1)
  exact h

theorem Ordered.release (h : Ordered queue) (trx count : Nat) : Ordered (lockReleaseOffKernel trx count queue) := by
  induction count generalizing queue with
  | zero => exact h
  | succ count ih =>
    rw [lockReleaseOffKernel]
    split
    · exact ih (h.lined.dequeue _)
    · exact h

theorem Ordered.step (h : Ordered queue) {act : Act} {queue' : List Lock} (hstep : step queue act = some queue') : Ordered queue' := by
  obtain ⟨henabled, hperform⟩ := Option.ite_none_right_eq_some.1 hstep
  cases hperform
  cases act with
  | lock impl mode heapNo trx nHeap deadlock => exact h.lockRecLock henabled.1 henabled.2.1 henabled.2.2 impl deadlock
  | insert heapNo trx nHeap deadlock =>
    show Ordered (lockRecInsertCheckAndLock queue heapNo trx nHeap deadlock)
    unfold lockRecInsertCheckAndLock
    split_ifs with hconflicting
    · exact h.enqueueWaiting henabled.2 henabled.1 (fun _ => rfl) hconflicting deadlock
    · exact h
  | unlock trx heapNo lockMode => exact h.unlock henabled lockMode
  | cancelWaiting trx => exact h.cancelWaiting trx
  | release trx count => exact h.release trx count

theorem ordered_nil : Ordered [] where
  lined := ⟨by simp, by simp, by simp⟩
  blocked := by simp [Blocked]

/-- In every state of every run, granted locks of different transactions that are not on gaps are compatible on each record but
the supremum, and a waiting lock has a lock of another transaction ahead of it, on the same record, that it has to wait for. -/
theorem rule3_and_blocked (acts : List Act) (queue : List Lock) (hpasses : Run.Passes step [] acts queue) :
    (∀ lock ∈ queue, ∀ lock' ∈ queue, lock.trx ≠ lock'.trx → lock.typeMode.wait = false → lock'.typeMode.wait = false →
      lock.typeMode.gap = false → lock'.typeMode.gap = false →
      ∀ heapNo, heapNo ≠ supremum → lock.getNthBit heapNo = true → lock'.getNthBit heapNo = true →
        lockModeCompatible lock.typeMode.mode lock'.typeMode.mode = true) ∧
    ∀ ahead w behind, queue = ahead ++ w :: behind → w.typeMode.wait = true →
      ∃ heapNo, w.getNthBit heapNo = true ∧
        ∃ lock ∈ ahead, lock.trx ≠ w.trx ∧ lock.getNthBit heapNo = true ∧ lockHasToWait w lock = true := by
  obtain ⟨pre, -, hrun⟩ := hpasses
  have hordered : Ordered queue := Run.invariant (fun _ _ _ _ h hstep => h.step hstep) ordered_nil hrun
  constructor
  · intro lock hlock lock' hlock' htrx hwait hwait' hgap hgap' heapNo hr hbit hbit'
    by_contra hmode
    rw [Bool.not_eq_true] at hmode
    have hconflict : Conflict lock lock' := ⟨htrx, hmode, hgap, hgap', heapNo, hr, hbit, hbit'⟩
    obtain ⟨i, hi⟩ := mem_iff_getElem?.1 hlock
    obtain ⟨j, hj⟩ := mem_iff_getElem?.1 hlock'
    rcases Nat.lt_trichotomy i j with hij | rfl | hij
    · exact nomatch hwait'.symm.trans (hordered.lined.exclusive i j lock lock' hij hi hj hconflict)
    · exact htrx (congrArg Lock.trx (Option.some.inj (hi.symm.trans hj)))
    · exact nomatch hwait.symm.trans (hordered.lined.exclusive j i lock' lock hij hj hi hconflict.symm)
  · rintro ahead w behind rfl hwait
    obtain ⟨i, lock, hi, hlock, heapNo, hbit, hbit', hhas⟩ := hordered.blocked ahead.length w (by simp) hwait rfl
    rw [List.getElem?_append_left hi] at hlock
    refine ⟨heapNo, hbit, lock, mem_of_getElem? hlock, fun htrx => ?_, hbit', hhas⟩
    rw [lockHasToWait, if_neg fun hand => hand.1 htrx.symm] at hhas
    cases hhas

/-- Two transactions lock record 2, and a third one waits for both. -/
def sharedThenExclusive : List Act :=
  [.lock false { mode := .s } 2 1 8 {}, .lock false { mode := .s, recNotGap := true } 2 2 8 {},
    .lock false { mode := .x } 2 3 8 {}, .unlock 1 2 .s]

theorem rule3_and_blocked_shared : ∃ queue, Run.run step [] sharedThenExclusive = some queue ∧
    (∃ ahead w, queue = ahead ++ [w] ∧ w.trx = 3 ∧ w.typeMode.wait = true ∧
      ∃ heapNo, w.getNthBit heapNo = true ∧
        ∃ lock ∈ ahead, lock.trx ≠ w.trx ∧ lock.getNthBit heapNo = true ∧ lockHasToWait w lock = true) := by
  refine ⟨_, rfl, _, _, (dropLast_append_getLast (by decide)).symm, by decide, by decide, ?_⟩
  exact (rule3_and_blocked sharedThenExclusive _ ⟨_, prefix_rfl, rfl⟩).2 _ _ []
    (dropLast_append_getLast (by decide)).symm (by decide)

end Mysql51.Innodb.RecLock
