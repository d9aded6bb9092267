import Mysql51.ThrLock.Steps
import Mysql51.Lib.Run

/-!
# The outcomes of `thr_lock`, and runs of a lock

`thr_lock` grants a read lock or a write lock, queues the request, or refuses it (`Locked`). With what the other functions do,
every step keeps the bookkeeping of the lock, and no step leaves requests behind that wait for nothing or lets a write request
overtake another one.
-/

namespace Mysql51.ThrLock

open TailQueue Function List

variable {n : Nat}

variable {q : Queue} {j : Fin n} {lock' : Lock n}

namespace Lock

variable {env : Env} {check : Fin n → Bool} {lock entered : Lock n} {i : Fin n} {owner : Nat} {t t' : LockType}

/-- `thr_lock` has written request `i` and nothing else. -/
structure Entered (lock entered : Lock n) (i : Fin n) (owner : Nat) (t : LockType) : Prop where
  linked : entered.Linked
  ids : entered.ids = lock.ids
  idle : lock.Idle i
  next : entered.links.next i = none
  owner : entered.reqs.owner = update lock.reqs.owner i owner
  type : entered.reqs.type = update lock.reqs.type i t
  cond : entered.reqs.cond = update lock.reqs.cond i false
  count : entered.reqs.readNoWriteCount = lock.reqs.readNoWriteCount

theorem Linked.entered_enter (h : lock.Linked) (hidle : lock.Idle i) (owner : Nat) (t : LockType) :
    lock.Entered { links := lock.links.assign (.next i) none, reqs := lock.reqs.enter i owner t } i owner t := by
  obtain ⟨hlinked, hids⟩ := @linked_of_rep n { links := lock.links.assign (.next i) none, reqs := lock.reqs.enter i owner t }
    _ (Store.Rep.assign_next h hidle none)
  exact ⟨hlinked, hids, hidle, by simp [Store.assign], rfl, rfl, rfl, rfl⟩

namespace Entered

section

variable (h : lock.Entered entered i owner t)
include h

theorem setType (t' : LockType) : lock.Entered (entered.mapReqs fun reqs => reqs.setType i t') i owner t' where
  linked := h.linked.mapReqs _
  ids := h.ids
  idle := h.idle
  next := h.next
  owner := h.owner
  type := by
    show update entered.reqs.type i t' = _
    rw [h.type, update_idem]
  cond := h.cond
  count := h.count

theorem ne (hj : j ∈ lock.ids q) : j ≠ i := by
  rintro rfl
  exact h.idle q hj

theorem first (hlinked : lock.Linked) (q : Queue) : entered.first q = lock.first q := by
  rw [h.linked.first_eq, hlinked.first_eq, h.ids]

theorem type_self : entered.reqs.type i = t := by rw [h.type, update_self]

theorem owner_self : entered.reqs.owner i = owner := by rw [h.owner, update_self]

theorem type_eq (hj : j ∈ lock.ids q) : entered.reqs.type j = lock.reqs.type j := by rw [h.type, update_of_ne (h.ne hj)]

theorem owner_eq (hj : j ∈ lock.ids q) : entered.reqs.owner j = lock.reqs.owner j := by rw [h.owner, update_of_ne (h.ne hj)]

end

end Entered

structure Placed (lock lock' : Lock n) (q : Queue) (i : Fin n) (owner : Nat) (t : LockType) : Prop where
  linked : lock'.Linked
  idle : lock.Idle i
  ids : lock'.ids = update lock.ids q (lock.ids q ++ [i])
  owner : lock'.reqs.owner = update lock.reqs.owner i owner
  type : lock'.reqs.type = update lock.reqs.type i t
  cond : lock'.reqs.cond = update lock.reqs.cond i q.waits
  count : lock'.reqs.readNoWriteCount = lock.reqs.readNoWriteCount + if q = .read ∧ t = .readNoInsert then 1 else 0

section

variable (h : lock.Entered entered i owner t)
include h

theorem Entered.placed {g : Requests n → Requests n}
    (howner : (g entered.reqs).owner = entered.reqs.owner) (htype : (g entered.reqs).type = entered.reqs.type)
    (hcond : (g entered.reqs).cond = update entered.reqs.cond i q.waits) (hcount : (g entered.reqs).readNoWriteCount =
      entered.reqs.readNoWriteCount + if q = .read ∧ entered.reqs.type i = .readNoInsert then 1 else 0) :
    lock.Placed ((entered.append q i).mapReqs g) q i owner t := by
  have hidle : entered.Idle i := fun r => h.ids ▸ h.idle r
  obtain ⟨hlinked, hids⟩ := h.linked.append (q := q) hidle h.next
  refine ⟨hlinked, h.idle, ?_, howner.trans h.owner, htype.trans h.type, ?_, ?_⟩
  · rw [← h.ids]
    exact hids
  · refine hcond.trans ?_
    rw [h.cond, update_idem]
  refine hcount.trans ?_
  rw [h.count, h.type_self]

theorem Entered.placed_read : lock.Placed ((entered.append .read i).mapReqs fun reqs => reqs.countRead i) .read i owner t :=
  h.placed (by simp) (by simp) (by simp [h.cond, Queue.waits]) (by simp)

theorem Entered.placed_write : lock.Placed (entered.append .write i) .write i owner t :=
  h.placed (g := id) rfl rfl (by simp [h.cond, Queue.waits]) (by simp)

theorem Entered.placed_wait (hq : q.waits = true) :
    lock.Placed ((entered.append q i).mapReqs fun reqs => reqs.setCond i true) q i owner t := by
  have hread : q ≠ .read := by
    rintro rfl
    cases hq
  exact h.placed rfl rfl (by simp [hq]) (by simp [hread])

end

end Lock

def Env.lockedType (env : Env) (t : LockType) : LockType :=
  if t = .writeConcurrentInsert ∧ env.hasCheckStatus = false then env.upgradedConcurrentInsertLock else t

namespace Lock

variable {env : Env} {check : Fin n → Bool} {lock entered : Lock n} {i : Fin n} {owner : Nat} {t t' : LockType}

/-- The test with which `thr_lock` grants a request while `w` is the first granted write lock. -/
def Beside (env : Env) (lock : Lock n) (owner : Nat) (t : LockType) (w : Fin n) : Prop :=
  owner = lock.reqs.owner w ∨
    if t ≤ .readNoInsert then
      lock.reqs.type w ≤ .writeDelayed ∧ (t ≤ .readHighPriority ∨
        lock.reqs.type w ≠ .writeConcurrentInsert ∧ lock.reqs.type w ≠ .writeAllowRead)
    else env.lockedType t = .writeAllowWrite ∧ lock.first .writeWait = none ∧ lock.reqs.type w = .writeAllowWrite

inductive Locked (env : Env) (lock : Lock n) (i : Fin n) (owner : Nat) (t : LockType) (lock' : Lock n) : Prop
  | read (h : lock.Placed lock' .read i owner t) (hkind : t ≤ .readNoInsert)
      (hbeside : ∀ w ∈ lock.first .write, lock.Beside env owner t w)
  | write {t' : LockType} (h : lock.Placed lock' .write i owner t') (hread : ¬ t ≤ .readNoInsert) (hkind : Queue.write.Holds t')
      (hbeside : ∀ w ∈ lock.first .write, t' = env.lockedType t ∧ lock.Beside env owner t w)
      (halone : lock.first .write = none →
        lock.ids .read = [] ∨ t' ≤ .writeDelayed ∧ (¬ t'.Inserts ∨ lock.reqs.readNoWriteCount = 0))
      (hfirst : lock.first .write = none → lock.ids .writeWait = [])
  | wait {t' : LockType} {q : Queue} (h : lock.Placed lock' q i owner t') (hq : q.waits = true) (hkind : q.Holds t')
      (hbusy : lock.ids .write ≠ [] ∨ lock.ids .read ≠ [])
      (hbeside : ∀ w ∈ lock.first .write, t = .writeDelayed ∨ ¬ lock.Beside env owner t w)
  | refuse {t' : LockType} (h : lock.Entered lock' i owner t')
      (hbeside : ∀ w ∈ lock.first .write, t = .writeDelayed ∨ ¬ lock.Beside env owner t w)

/-- A request that is not granted is queued, or it would deadlock within its connection. -/
theorem locked_waitForLock (h : lock.Entered entered i owner t') (hq : q.waits = true) (hkind : q.Holds t')
    (hbusy : lock.ids .write ≠ [] ∨ lock.ids .read ≠ [])
    (hbeside : ∀ w ∈ lock.first .write, t = .writeDelayed ∨ ¬ lock.Beside env owner t w) :
    lock.Locked env i owner t (entered.waitForLock env q i).2 := by
  unfold Lock.waitForLock
  dsimp only
  split_ifs
  · exact .refuse h hbeside
  · exact .wait (h.placed_wait hq) hq hkind hbusy hbeside

theorem locked_thrLockRead (h : lock.Entered entered i owner t) (hlinked : lock.Linked) (hlive : lock.Live)
    (hkind : t ≤ .readNoInsert) : lock.Locked env i owner t (entered.thrLockRead env i).2 := by
  unfold Lock.thrLockRead
  simp only [h.first hlinked, h.type_self, h.owner_self]
  cases hfirst : lock.first .write with
  | some w =>
    obtain ⟨ws, hws⟩ := hlinked.first_eq_some.1 hfirst
    have hw : w ∈ lock.ids .write := hws ▸ mem_cons_self
    have hiff : lock.Beside env owner t w ↔ owner = entered.reqs.owner w ∨ entered.reqs.type w ≤ .writeDelayed ∧
        (t ≤ .readHighPriority ∨ entered.reqs.type w ≠ .writeConcurrentInsert ∧ entered.reqs.type w ≠ .writeAllowRead) := by
      rw [Beside, if_pos hkind, h.type_eq hw, h.owner_eq hw]
    have honly : ∀ v, v ∈ lock.first .write → v = w := fun v hv => (Option.mem_some_iff.1 (hfirst ▸ hv)).symm
    dsimp only
    split_ifs with hbeside
    · exact .read h.placed_read hkind fun v hv => honly v hv ▸ hiff.2 hbeside
    · exact .refuse (h.setType .unlock) fun v hv => .inr (honly v hv ▸ mt hiff.1 hbeside)
    exact locked_waitForLock h rfl hkind (.inl (hws ▸ cons_ne_nil w ws)) fun v hv =>
      .inr (honly v hv ▸ mt hiff.1 hbeside)
  | none =>
    split_ifs with hgrant
    · exact .read h.placed_read hkind (by simp [hfirst])
    refine locked_waitForLock h rfl hkind (.inr fun hread => hgrant (.inl ?_)) (by simp [hfirst])
    have hempty := (hlive (hlinked.first_eq_none.1 hfirst) hread).1
    rw [hlinked.first_eq_none.2 hempty]
    rfl

theorem locked_thrLockOnlyWrite (h : lock.Entered entered i owner t') (hlinked : lock.Linked) (hread : ¬ t ≤ .readNoInsert)
    (hkind : Queue.write.Holds t') (hfirst : lock.first .write = none) (hwait : lock.first .writeWait = none) :
    lock.Locked env i owner t (entered.thrLockOnlyWrite env i).2 := by
  unfold Lock.thrLockOnlyWrite
  simp only [h.first hlinked, h.type_self, h.count]
  split_ifs with hgrant
  · exact .write h.placed_write hread hkind (by simp [hfirst]) (fun _ => hgrant.imp_left hlinked.first_eq_none.1) fun _ =>
      hlinked.first_eq_none.1 hwait
  · exact locked_waitForLock h rfl hkind (.inr fun hempty => hgrant (.inl (hlinked.first_eq_none.2 hempty))) (by simp [hfirst])

theorem holds_upgraded (env : Env) : Queue.write.Holds env.upgradedConcurrentInsertLock := by
  rcases env.upgraded with htype | htype
  all_goals
    rw [htype]
    exact ⟨by decide, by decide⟩

theorem locked_thrLockWrite (h : lock.Entered entered i owner (env.lockedType t)) (hlinked : lock.Linked) (hlive : lock.Live)
    (hread : ¬ t ≤ .readNoInsert) (hkind : Queue.write.Holds (env.lockedType t)) :
    lock.Locked env i owner t (entered.thrLockWrite env check i).2 := by
  unfold Lock.thrLockWrite
  simp only [h.first hlinked, h.owner_self]
  cases hfirst : lock.first .write with
  | some w =>
    obtain ⟨ws, hws⟩ := hlinked.first_eq_some.1 hfirst
    have hw : w ∈ lock.ids .write := hws ▸ mem_cons_self
    have hiff : lock.Beside env owner t w ↔ owner = entered.reqs.owner w ∨
        entered.reqs.type i = .writeAllowWrite ∧ lock.first .writeWait = none ∧ entered.reqs.type w = .writeAllowWrite := by
      rw [Beside, if_neg hread, h.type_self, h.type_eq hw, h.owner_eq hw]
    have honly : ∀ v, v ∈ lock.first .write → v = w := fun v hv => (Option.mem_some_iff.1 (hfirst ▸ hv)).symm
    dsimp only
    split_ifs with habort hbeside
    · refine .refuse (h.setType .unlock) fun v hv => .inr (honly v hv ▸ mt hiff.1 ?_)
      rintro (howner | ⟨-, -, htype⟩)
      · exact habort.2 howner
      rw [habort.1] at htype
      cases htype
    · exact .write h.placed_write hread hkind (fun v hv => ⟨rfl, honly v hv ▸ hiff.2 hbeside⟩) (by simp [hfirst])
        (by simp [hfirst])
    exact locked_waitForLock h rfl hkind (.inl (hws ▸ cons_ne_nil w ws)) fun v hv =>
      .inr (honly v hv ▸ mt hiff.1 hbeside)
  | none =>
    split_ifs with hwait
    · exact locked_thrLockOnlyWrite (h.setType _) hlinked hread (holds_upgraded env) hfirst hwait
    · exact locked_thrLockOnlyWrite h hlinked hread hkind hfirst hwait
    refine locked_waitForLock h rfl hkind (.inr fun hempty => hwait ?_) (by simp [hfirst])
    exact hlinked.first_eq_none.2 (hlive (hlinked.first_eq_none.1 hfirst) hempty).1

theorem Sound.locked_thrLock (h : lock.Sound) (hlive : lock.Live) (henabled : lock.Enabled (.lock i owner t)) :
    lock.Locked env i owner t (lock.thrLock env check i owner t).2 := by
  obtain ⟨⟨-, -, hdefault⟩, hidle⟩ := henabled
  have hentered := h.linked.entered_enter hidle owner t
  have hsame : ¬ (t = .writeConcurrentInsert ∧ env.hasCheckStatus = false) → env.lockedType t = t := fun hnot => if_neg hnot
  unfold Lock.thrLock
  dsimp only
  split_ifs with hread hdelayed honly hqueue hcheck
  · exact locked_thrLockRead hentered h.linked hlive hread
  · exact .refuse (hentered.setType .unlock) fun _ _ => .inl hdelayed
  · refine .wait (hentered.placed_wait rfl) rfl ⟨hread, hdefault⟩ ?_ fun _ _ => .inl hdelayed
    rw [hentered.first h.linked, hentered.first h.linked] at hqueue
    by_contra hnone
    push Not at hnone
    rw [h.linked.first_eq_none.2 hnone.1, h.linked.first_eq_none.2 hnone.2] at hqueue
    simp at hqueue
  · have htype := hsame (by simp [hdelayed])
    exact locked_thrLockWrite (htype.symm ▸ hentered) h.linked hlive hread (htype.symm ▸ ⟨hread, hdefault⟩)
  · have htype : env.lockedType t = env.upgradedConcurrentInsertLock := if_pos hcheck
    exact locked_thrLockWrite (htype ▸ hentered.setType _) h.linked hlive hread (htype ▸ holds_upgraded env)
  have htype := hsame hcheck
  exact locked_thrLockWrite (htype.symm ▸ hentered) h.linked hlive hread (htype.symm ▸ ⟨hread, hdefault⟩)

/-! ### Every step keeps the bookkeeping -/

theorem Entered.sound (h : lock.Entered entered i owner t) (hsound : lock.Sound) : entered.Sound := by
  refine ⟨h.linked, fun q j hj => ?_, fun q j hj => ?_, ?_⟩
  · rw [h.ids] at hj
    rw [h.type_eq hj]
    exact hsound.kind q j hj
  · rw [h.ids] at hj
    rw [h.cond, update_of_ne (h.ne hj)]
    exact hsound.cond q j hj
  rw [h.count, hsound.count, h.ids]
  exact countP_congr fun j hj => by rw [h.type_eq hj]

section

variable {lock' : Lock n} {q : Queue} (h : lock.Placed lock' q i owner t)
include h

theorem Placed.mem_iff {r : Queue} : j ∈ lock'.ids r ↔ j ∈ lock.ids r ∨ r = q ∧ j = i := by
  rw [h.ids]
  exact Store.mem_update_append

theorem Placed.sound (hsound : lock.Sound) (hkind : q.Holds t) : lock'.Sound := by
  have hne : ∀ r, ∀ j ∈ lock.ids r, j ≠ i := by
    rintro r j hj rfl
    exact h.idle r hj
  refine ⟨h.linked, fun r j hj => ?_, fun r j hj => ?_, ?_⟩
  · rcases h.mem_iff.1 hj with hj | ⟨rfl, rfl⟩
    · rw [h.type, update_of_ne (hne r j hj)]
      exact hsound.kind r j hj
    rw [h.type, update_self]
    exact hkind
  · rcases h.mem_iff.1 hj with hj | ⟨rfl, rfl⟩
    · rw [h.cond, update_of_ne (hne r j hj)]
      exact hsound.cond r j hj
    rw [h.cond, update_self]
  have hold : (lock.ids .read).countP (fun j => lock'.reqs.type j = .readNoInsert) = lock.reqs.readNoWriteCount := by
    rw [hsound.count]
    exact countP_congr fun j hj => by rw [h.type, update_of_ne (hne .read j hj)]
  rw [h.count, ← hold, h.ids]
  by_cases hq : q = .read
  · subst hq
    rw [update_self, countP_append, countP_singleton, h.type, update_self]
    simp
  rw [update_of_ne (Ne.symm hq), if_neg fun hand => hq hand.1, Nat.add_zero]

end

theorem Locked.sound (h : lock.Locked env i owner t lock') (hsound : lock.Sound) : lock'.Sound := by
  cases h with
  | read h hkind => exact h.sound hsound hkind
  | write h _ hkind => exact h.sound hsound hkind
  | wait h _ hkind => exact h.sound hsound hkind
  | refuse h => exact h.sound hsound

theorem Locked.live (h : lock.Locked env i owner t lock') (hlive : lock.Live) : lock'.Live := by
  cases h with
  | read h =>
    intro _ hread
    exact absurd (h.mem_iff.2 (.inr ⟨rfl, rfl⟩)) (by simp [hread])
  | write h =>
    intro hwrite _
    exact absurd (h.mem_iff.2 (.inr ⟨rfl, rfl⟩)) (by simp [hwrite])
  | wait h hq hkind hbusy =>
    intro hwrite hread
    refine absurd hbusy ?_
    have hempty : ∀ r, lock'.ids r = [] → lock.ids r = [] := by
      intro r hr
      rw [eq_nil_iff_forall_not_mem] at hr ⊢
      exact fun j hj => hr j (h.mem_iff.2 (.inl hj))
    simp [hempty _ hwrite, hempty _ hread]
  | refuse h =>
    unfold Live
    rw [h.ids]
    exact hlive

theorem Updated.sound (h : lock.Updated lock') (hsound : lock.Sound) : lock'.Sound := by
  obtain ⟨mid, ws, rs, hreleased, hwoken⟩ := h
  exact hwoken.sound (hreleased.sound hsound)

theorem Updated.live (h : lock.Updated lock') : lock'.Live := by
  obtain ⟨mid, ws, rs, hreleased, hwoken⟩ := h
  exact hwoken.live

/-- What every step keeps: the bookkeeping, and that a request waits only while a lock is granted. -/
structure Consistent (lock : Lock n) : Prop where
  sound : lock.Sound
  live : lock.Live

theorem Updated.consistent (h : lock.Updated lock') (hsound : lock.Sound) : lock'.Consistent :=
  ⟨h.sound hsound, h.live⟩

theorem Consistent.perform (h : lock.Consistent) {act : Act n} (henabled : lock.Enabled act) :
    (lock.perform env check act).Consistent := by
  cases act with
  | lock i owner t =>
    have hlocked : lock.Locked env i owner t (lock.thrLock env check i owner t).2 := h.sound.locked_thrLock h.live henabled
    exact ⟨hlocked.sound h.sound, hlocked.live h.live⟩
  | unlock i => exact (h.sound.thrUnlock henabled).consistent h.sound
  | abortWait i => exact (h.sound.abortWait henabled).consistent h.sound
  | abortLocks upgradeLock =>
    obtain ⟨hsound, hlive⟩ := h.sound.thrAbortLocks upgradeLock
    exact ⟨hsound, hlive⟩
  | abortLocksForThread thread => exact (h.sound.thrAbortLocksForThread thread).consistent h.sound

theorem Consistent.step (h : lock.Consistent) {act : Act n × (Fin n → Bool)}
    (hstep : lock.step env act = some lock') : lock'.Consistent := by
  obtain ⟨henabled, hperform⟩ := Option.ite_none_right_eq_some.1 hstep
  cases hperform
  exact h.perform henabled

theorem consistent_init (next : Fin n → Option (Fin n)) (prev : Fin n → Link (Fin n) Queue) : (init next prev).Consistent := by
  have hrep : (init next prev).links.Rep (fun _ => []) fun _ => False :=
    ⟨fun q => rfl, fun q _ => rfl, fun q => nodup_nil, fun q r i hi => absurd hi not_mem_nil⟩
  obtain ⟨hlinked, hids⟩ := linked_of_rep hrep
  refine ⟨⟨hlinked, ?_, ?_, ?_⟩, ?_⟩
  · simp [hids]
  · simp [hids]
  · rw [hids]
    rfl
  simp [hids, Live]

/-- In every state of every run the queues are linked, the condition variables and the count of `TL_READ_NO_INSERT` locks
are right, and both wait queues are empty when no lock is granted. -/
theorem consistent_of_passes (env : Env) (next : Fin n → Option (Fin n)) (prev : Fin n → Link (Fin n) Queue)
    (acts : List (Act n × (Fin n → Bool))) (lock : Lock n) (hpasses : Run.Passes (step env) (init next prev) acts lock) :
    lock.Linked ∧ (∀ q, ∀ i ∈ lock.ids q, lock.reqs.cond i = q.waits) ∧
      lock.reqs.readNoWriteCount = (lock.ids .read).countP (fun i => lock.reqs.type i = .readNoInsert) ∧
      (lock.ids .write = [] → lock.ids .read = [] → lock.ids .writeWait = [] ∧ lock.ids .readWait = []) := by
  obtain ⟨pre, -, hrun⟩ := hpasses
  have hconsistent : lock.Consistent :=
    Run.invariant (fun _ _ _ _ h hstep => h.step hstep) (consistent_init next prev) hrun
  exact ⟨hconsistent.sound.linked, hconsistent.sound.cond, hconsistent.sound.count, hconsistent.live⟩

def plainEnv : Env where
  info := id
  threadId := id
  upgradedConcurrentInsertLock := .write
  maxWriteLockCount := 18446744073709551615
  hasCheckStatus := false
  upgraded := .inl rfl

def noCheck {n : Nat} (_ : Fin n) : Bool := false

def handOver : List (Act 2 × (Fin 2 → Bool)) :=
  [(.lock 0 1 .write, noCheck), (.lock 1 2 .readNoInsert, noCheck), (.unlock 0, noCheck)]

theorem consistent_of_passes_handOver : ∃ lock : Lock 2,
    Run.run (step plainEnv) (init (fun _ => none) .next) handOver = some lock ∧ lock.ids .read = [1] ∧ lock.Linked ∧
      (∀ q, ∀ i ∈ lock.ids q, lock.reqs.cond i = q.waits) ∧
      lock.reqs.readNoWriteCount = (lock.ids .read).countP (fun i => lock.reqs.type i = .readNoInsert) ∧
      (lock.ids .write = [] → lock.ids .read = [] → lock.ids .writeWait = [] ∧ lock.ids .readWait = []) :=
  ⟨_, rfl, rfl, consistent_of_passes plainEnv (fun _ => none) .next handOver _ ⟨handOver, prefix_rfl, rfl⟩⟩

/-! ### Nobody is overtaken -/

/-- The waiting requests that a step takes out of their queue without granting them. -/
def givesUp (env : Env) (lock : Lock n) : Act n → Fin n → Bool
  | .lock _ _ _, _ => false
  | .unlock i, j => j = i
  | .abortWait i, j => j = i
  | .abortLocks _, _ => true
  | .abortLocksForThread thread, j => threadOf env lock.reqs j = thread

/-- The write requests that are granted are the front of their queue, without those that are given up, and new ones are put at
its end. A new one that is granted overtakes no waiting one, unless its owner has the write lock or shares it with a
`TL_WRITE_ALLOW_WRITE` lock while nobody waits. -/
def Fifo (env : Env) (lock : Lock n) (act : Act n) (lock' : Lock n) : Prop :=
  ∃ granted rest new, (lock.ids .writeWait).filter (fun j => !lock.givesUp env act j) = granted ++ rest ∧
    lock'.ids .writeWait = rest ++ new ∧ (∀ i ∈ granted, i ∈ lock'.ids .write) ∧ (∀ i ∈ new, lock.Idle i) ∧
    ∀ i ∈ lock'.ids .write, i ∈ lock.ids .write ∨ i ∈ granted ∨
      lock.Idle i ∧ (lock.ids .writeWait = [] ∨ ∃ w ∈ lock.first .write, lock'.reqs.owner i = lock.reqs.owner w)

theorem Placed.fifo {q : Queue} {k : Fin n} {t₀ : LockType} (h : lock.Placed lock' q k owner t)
    (hwrite : q = .write → lock.ids .writeWait = [] ∨ ∃ w ∈ lock.first .write, owner = lock.reqs.owner w) :
    lock.Fifo env (.lock k owner t₀) lock' := by
  refine ⟨[], lock.ids .writeWait, if q = .writeWait then [k] else [], by simp [givesUp], ?_, by simp, fun i hi => ?_, fun i hi => ?_⟩
  · rw [h.ids]
    by_cases hq : q = .writeWait
    · rw [hq, update_self, if_pos rfl]
    · rw [update_of_ne (Ne.symm hq), if_neg hq, append_nil]
  · split_ifs at hi
    · rw [mem_singleton.1 hi]
      exact h.idle
    cases hi
  rcases h.mem_iff.1 hi with hi | ⟨hq, rfl⟩
  · exact .inl hi
  · rw [h.owner, update_self]
    exact .inr (.inr ⟨h.idle, hwrite hq.symm⟩)

theorem Released.fifo {mid : Lock n} {act : Act n} (h : lock.Released mid) (hsound : lock.Sound)
    (hids : mid.ids .writeWait = (lock.ids .writeWait).filter fun j => !lock.givesUp env act j) :
    lock.Fifo env act (mid.wakeUpWaiters env check) := by
  obtain ⟨ws, rs, hwoken⟩ := (h.sound hsound).wakeUpWaiters env check
  refine ⟨ws, _, [], hids.symm.trans hwoken.writeWait, (append_nil _).symm, fun i hi => ?_, by simp, fun i hi => ?_⟩
  · rw [hwoken.write]
    exact mem_append_right _ hi
  rw [hwoken.write, mem_append] at hi
  exact hi.imp (fun hi => (h.ids .write).subset hi) .inl

theorem Linked.unlink_writeWait {g : Requests n → Requests n} {q : Queue} (h : lock.Linked) (hi : i ∈ lock.ids q) :
    ((lock.unlink q i).mapReqs g).ids .writeWait = (lock.ids .writeWait).filter fun j => !decide (j = i) := by
  have hids : ((lock.unlink q i).mapReqs g).ids = update lock.ids q ((lock.ids q).erase i) := (h.unlink hi).2
  rw [hids]
  by_cases hq : q = .writeWait
  · subst hq
    rw [update_self, (h.nodup _).erase_eq_filter]
    rfl
  rw [update_of_ne (Ne.symm hq), eq_comm, filter_eq_self]
  intro j hj
  have hne : j ≠ i := by
    rintro rfl
    exact hq (h.unique hi hj)
  simp [hne]

/-- In every state of every run, a step grants write requests in the order in which they wait. -/
theorem write_requests_fifo (env : Env) (next : Fin n → Option (Fin n)) (prev : Fin n → Link (Fin n) Queue)
    (acts : List (Act n × (Fin n → Bool))) {lock lock' : Lock n} (hrun : Run.run (step env) (init next prev) acts = some lock)
    (act : Act n × (Fin n → Bool)) (hstep : lock.step env act = some lock') : lock.Fifo env act.1 lock' := by
  have h : lock.Consistent := Run.invariant (fun _ _ _ _ h hstep => h.step hstep) (consistent_init next prev) hrun
  obtain ⟨henabled, hperform⟩ := Option.ite_none_right_eq_some.1 hstep
  cases hperform
  obtain ⟨act, check⟩ := act
  cases act with
  | lock k owner t =>
    cases h.sound.locked_thrLock h.live henabled with
    | read hplaced => exact hplaced.fifo (by simp)
    | write hplaced hread hkind hbeside halone hfirst =>
      refine hplaced.fifo fun _ => ?_
      cases hw : lock.first .write with
      | none => exact .inl (hfirst hw)
      | some w =>
        rcases (hbeside w hw).2 with howner | hshared
        · exact .inr ⟨w, rfl, howner⟩
        rw [if_neg hread] at hshared
        exact .inl (h.sound.linked.first_eq_none.1 hshared.2.1)
    | wait hplaced hq =>
      refine hplaced.fifo fun hwrite => ?_
      rw [hwrite] at hq
      cases hq
    | refuse hentered =>
      have hwait := (congrFun hentered.ids .writeWait).trans (append_nil _).symm
      exact ⟨[], _, [], by simp [givesUp], hwait, by simp, by simp, fun i hi => .inl (hentered.ids ▸ hi)⟩
  | unlock k =>
    obtain ⟨q, hk, heq, hreleased⟩ := h.sound.released_thrUnlock henabled env check
    rw [show lock.perform env check (.unlock k) = _ from heq]
    exact hreleased.fifo h.sound (h.sound.linked.unlink_writeWait hk)
  | abortWait k =>
    obtain ⟨q, hk, -, heq, hreleased⟩ := h.sound.released_abortWait henabled env check
    rw [show lock.perform env check (.abortWait k) = _ from heq]
    exact hreleased.fifo h.sound (h.sound.linked.unlink_writeWait hk)
  | abortLocks upgradeLock =>
    have hids := h.sound.ids_thrAbortLocks upgradeLock
    have hwrite : (lock.thrAbortLocks upgradeLock).ids .write = lock.ids .write := congrFun hids .write
    exact ⟨[], [], [], by simp [givesUp], congrFun hids .writeWait, by simp, by simp, fun i hi => .inl (hwrite ▸ hi)⟩
  | abortLocksForThread thread =>
    obtain ⟨mid, hreleased, hids, heq⟩ := h.sound.released_thrAbortLocksForThread env thread
    rw [show lock.perform env check (.abortLocksForThread thread) = _ from heq check]
    exact hreleased.fifo h.sound (hids.trans (filter_congr fun _ _ => decide_not))

def twoWriters : List (Act 2 × (Fin 2 → Bool)) := [(.lock 0 1 .write, noCheck), (.lock 1 2 .write, noCheck)]

theorem write_requests_fifo_twoWriters : ∃ lock lock' : Lock 2,
    Run.run (step plainEnv) (init (fun _ => none) .next) twoWriters = some lock ∧
    lock.step plainEnv (.unlock 0, noCheck) = some lock' ∧ lock'.ids .write = [1] ∧ lock.Fifo plainEnv (.unlock 0) lock' :=
  ⟨_, _, rfl, rfl, rfl, write_requests_fifo plainEnv (fun _ => none) .next twoWriters rfl (.unlock 0, noCheck) rfl⟩

end Lock

end Mysql51.ThrLock
