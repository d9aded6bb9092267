import Mysql51.ThrLock.Locked

/-!
# Which locks are granted together

Locks of different owners that exclude each other are not granted together, in runs in which each owner requests its locks in
the order of `thr_multi_lock`, as long as the test of `thr_lock` against the first granted write lock is enough: it looks at
neither the other write locks nor the read locks. Nothing is demanded of a request when no write lock is granted.
-/

namespace Mysql51.ThrLock

open TailQueue Function List

variable {n : Nat}

theorem LockType.compatible_writeDelayed (r : LockType) : LockType.writeDelayed.Compatible r :=
  ⟨by decide, fun _ => by decide⟩

theorem LockType.eq_writeAllowWrite {t : LockType} (hread : ¬ t ≤ .readNoInsert) (hle : t ≤ .writeAllowWrite) :
    t = .writeAllowWrite := by
  revert hread hle
  cases t <;> decide

variable {j : Fin n} {act : Act n × (Fin n → Bool)}

namespace Lock

structure Exclusive (lock : Lock n) : Prop where
  writes : ∀ v ∈ lock.ids .write, ∀ w ∈ lock.ids .write, lock.reqs.owner v ≠ lock.reqs.owner w →
    lock.reqs.type v = .writeAllowWrite ∧ lock.reqs.type w = .writeAllowWrite
  reads : ∀ w ∈ lock.ids .write, ∀ r ∈ lock.ids .read, lock.reqs.owner w ≠ lock.reqs.owner r →
    (lock.reqs.type w).Compatible (lock.reqs.type r)

/-- The steps in question: nobody calls `thr_abort_locks`, and an owner requests no lock of a higher type than it has in the
queues. -/
def Ordered (lock : Lock n) : Act n → Prop
  | .lock _ owner t => ∀ j, ¬ lock.Idle j → lock.reqs.owner j = owner → t ≤ lock.reqs.type j
  | .unlock _ => True
  | .abortWait _ => True
  | .abortLocks _ => False
  | .abortLocksForThread _ => True

instance (lock : Lock n) : (act : Act n) → Decidable (lock.Ordered act)
  | .lock _ owner t => inferInstanceAs (Decidable (∀ j, ¬ lock.Idle j → lock.reqs.owner j = owner → t ≤ lock.reqs.type j))
  | .unlock _ => inferInstanceAs (Decidable True)
  | .abortWait _ => inferInstanceAs (Decidable True)
  | .abortLocks _ => inferInstanceAs (Decidable False)
  | .abortLocksForThread _ => inferInstanceAs (Decidable True)

def orderedStep (env : Env) (lock : Lock n) (act : Act n × (Fin n → Bool)) : Option (Lock n) :=
  if lock.Ordered act.1 then lock.step env act else none

/-- A lock that `thr_lock` grants while write locks are granted goes with all of them and with all read locks. -/
def Fits (env : Env) (lock : Lock n) : Act n → Prop
  | .lock _ owner t => ∀ w ∈ lock.first .write, lock.Beside env owner t w →
    if t ≤ .readNoInsert then ∀ v ∈ lock.ids .write, lock.reqs.owner v ≠ owner → (lock.reqs.type v).Compatible t
    else ∀ r ∈ lock.ids .read, owner ≠ lock.reqs.owner r → (env.lockedType t).Compatible (lock.reqs.type r)
  | .unlock _ => True
  | .abortWait _ => True
  | .abortLocks _ => True
  | .abortLocksForThread _ => True

/-- Behind a granted `TL_WRITE_ALLOW_WRITE` there are only locks of this type. -/
def Shared (lock : Lock n) : Prop :=
  (lock.ids .write).Pairwise fun v w => lock.reqs.type v = .writeAllowWrite → lock.reqs.type w = .writeAllowWrite

structure Guarded (lock : Lock n) : Prop where
  consistent : lock.Consistent
  exclusive : lock.Exclusive
  shared : lock.Shared

variable {env : Env} {check : Fin n → Bool} {lock lock' : Lock n} {i : Fin n} {owner : Nat} {t t' : LockType}

/-! ### Granted locks that stay as they are -/

structure Fewer (lock lock' : Lock n) : Prop where
  write : (lock'.ids .write).Sublist (lock.ids .write)
  read : (lock'.ids .read).Sublist (lock.ids .read)
  owner : ∀ j, j ∈ lock'.ids .write ∨ j ∈ lock'.ids .read → lock'.reqs.owner j = lock.reqs.owner j
  type : ∀ j, j ∈ lock'.ids .write ∨ j ∈ lock'.ids .read → lock'.reqs.type j = lock.reqs.type j

theorem Fewer.exclusive (h : lock.Fewer lock') (hexclusive : lock.Exclusive) : lock'.Exclusive := by
  refine ⟨fun v hv w hw hne => ?_, fun w hw r hr hne => ?_⟩
  · rw [h.owner v (.inl hv), h.owner w (.inl hw)] at hne
    rw [h.type v (.inl hv), h.type w (.inl hw)]
    exact hexclusive.writes v (h.write.subset hv) w (h.write.subset hw) hne
  rw [h.owner w (.inl hw), h.owner r (.inr hr)] at hne
  rw [h.type w (.inl hw), h.type r (.inr hr)]
  exact hexclusive.reads w (h.write.subset hw) r (h.read.subset hr) hne

theorem Fewer.shared (h : lock.Fewer lock') (hshared : lock.Shared) : lock'.Shared := by
  refine (hshared.sublist h.write).imp_of_mem ?_
  intro v w hv hw himp
  rwa [h.type v (.inl hv), h.type w (.inl hw)]

theorem Released.fewer (h : lock.Released lock') : lock.Fewer lock' where
  write := h.ids .write
  read := h.ids .read
  owner j _ := congrFun h.owner j
  type j hj := hj.elim (h.type .write j) (h.type .read j)

theorem Entered.fewer (h : lock.Entered lock' i owner t) : lock.Fewer lock' where
  write := by rw [h.ids]
  read := by rw [h.ids]
  owner j hj := hj.elim (fun hj => h.owner_eq (h.ids ▸ hj)) fun hj => h.owner_eq (h.ids ▸ hj)
  type j hj := hj.elim (fun hj => h.type_eq (h.ids ▸ hj)) fun hj => h.type_eq (h.ids ▸ hj)

variable {q r : Queue}

section

variable (h : lock.Placed lock' q i owner t)
include h

theorem Placed.ne (hj : j ∈ lock.ids r) : j ≠ i := by
  rintro rfl
  exact h.idle r hj

theorem Placed.owner_eq (hj : j ∈ lock.ids r) : lock'.reqs.owner j = lock.reqs.owner j := by rw [h.owner, update_of_ne (h.ne hj)]

theorem Placed.type_eq (hj : j ∈ lock.ids r) : lock'.reqs.type j = lock.reqs.type j := by rw [h.type, update_of_ne (h.ne hj)]

theorem Placed.owner_self : lock'.reqs.owner i = owner := by
  rw [h.owner, update_self]

theorem Placed.type_self : lock'.reqs.type i = t := by
  rw [h.type, update_self]

theorem Placed.ids_ne (hr : r ≠ q) : lock'.ids r = lock.ids r := by
  rw [h.ids, update_of_ne hr]

theorem Placed.fewer (hq : q.waits = true) : lock.Fewer lock' := by
  have hsame : ∀ r : Queue, r.waits = false → lock'.ids r = lock.ids r := by
    intro r hr
    apply h.ids_ne
    rintro rfl
    rw [hq] at hr
    cases hr
  have hwrite := hsame .write rfl
  have hread := hsame .read rfl
  refine ⟨by rw [hwrite], by rw [hread], fun j hj => ?_, fun j hj => ?_⟩
  · rw [hwrite, hread] at hj
    exact hj.elim h.owner_eq h.owner_eq
  rw [hwrite, hread] at hj
  exact hj.elim h.type_eq h.type_eq

end

/-! ### Locks that are granted -/

theorem Woken.exclusive {ws rs : List (Fin n)} (h : lock.Woken lock' ws rs) (hsound : lock.Sound) (hexclusive : lock.Exclusive)
    (hshared : lock.Shared) : lock'.Exclusive ∧ lock'.Shared := by
  by_cases hnone : ws = [] ∧ rs = []
  · obtain ⟨rfl, rfl⟩ := hnone
    have hwrite := h.write
    have hread := h.read
    rw [append_nil] at hwrite hread
    have hfewer : lock.Fewer lock' := by
      refine ⟨by rw [hwrite], by rw [hread], fun j _ => congrFun h.owner j, fun j hj => ?_⟩
      rw [hwrite, hread] at hj
      exact hj.elim (fun hj => h.type_eq hsound.linked hj nofun) fun hj => h.type_eq hsound.linked hj nofun
    exact ⟨hfewer.exclusive hexclusive, hfewer.shared hshared⟩
  have hwrite : lock'.ids .write = ws := by
    rw [h.write, h.idle (by tauto), nil_append]
  refine ⟨⟨fun v hv w hw hne => ?_, fun w hw r hr _ => ?_⟩, ?_⟩
  · rw [hwrite] at hv hw
    rcases h.alike v hv w hw with rfl | htypes
    · exact absurd rfl hne
    · exact htypes
  · rw [hwrite] at hw
    exact h.compatible w hw r hr
  rw [Shared, hwrite]
  refine pairwise_of_forall_mem_list fun v hv w hw hallow => ?_
  rcases h.alike v hv w hw with rfl | htypes
  · exact hallow
  · exact htypes.2

theorem Updated.guarded (h : lock.Updated lock') (hguarded : lock.Guarded) : lock'.Guarded := by
  have hconsistent := h.consistent hguarded.consistent.sound
  obtain ⟨mid, ws, rs, hreleased, hwoken⟩ := h
  obtain ⟨hexclusive, hshared⟩ := hwoken.exclusive (hreleased.sound hguarded.consistent.sound)
    (hreleased.fewer.exclusive hguarded.exclusive) (hreleased.fewer.shared hguarded.shared)
  exact ⟨hconsistent, hexclusive, hshared⟩

theorem Placed.exclusive_read (h : lock.Placed lock' .read i owner t) (hexclusive : lock.Exclusive)
    (hfits : ∀ v ∈ lock.ids .write, lock.reqs.owner v ≠ owner → (lock.reqs.type v).Compatible t) : lock'.Exclusive := by
  have hwrite : lock'.ids .write = lock.ids .write := h.ids_ne nofun
  refine ⟨fun v hv w hw hne => ?_, fun w hw r hr hne => ?_⟩
  · rw [hwrite] at hv hw
    rw [h.owner_eq hv, h.owner_eq hw] at hne
    rw [h.type_eq hv, h.type_eq hw]
    exact hexclusive.writes v hv w hw hne
  rw [hwrite] at hw
  rw [h.owner_eq hw] at hne
  rw [h.type_eq hw]
  rcases h.mem_iff.1 hr with hr | ⟨-, rfl⟩
  · rw [h.owner_eq hr] at hne
    rw [h.type_eq hr]
    exact hexclusive.reads w hw r hr hne
  rw [h.owner_self] at hne
  rw [h.type_self]
  exact hfits w hw hne

theorem Placed.exclusive_write (h : lock.Placed lock' .write i owner t) (hexclusive : lock.Exclusive)
    (hwrites : ∀ v ∈ lock.ids .write, lock.reqs.owner v ≠ owner → lock.reqs.type v = .writeAllowWrite ∧ t = .writeAllowWrite)
    (hreads : ∀ r ∈ lock.ids .read, owner ≠ lock.reqs.owner r → t.Compatible (lock.reqs.type r)) : lock'.Exclusive := by
  have hread : lock'.ids .read = lock.ids .read := h.ids_ne nofun
  refine ⟨fun v hv w hw hne => ?_, fun w hw r hr hne => ?_⟩
  · rcases h.mem_iff.1 hv with hv | ⟨-, rfl⟩ <;> rcases h.mem_iff.1 hw with hw | ⟨-, rfl⟩
    · rw [h.owner_eq hv, h.owner_eq hw] at hne
      rw [h.type_eq hv, h.type_eq hw]
      exact hexclusive.writes v hv w hw hne
    · rw [h.owner_eq hv, h.owner_self] at hne
      rw [h.type_eq hv, h.type_self]
      exact hwrites v hv hne
    · rw [h.owner_eq hw, h.owner_self] at hne
      rw [h.type_eq hw, h.type_self]
      exact (hwrites w hw hne.symm).symm
    exact absurd rfl hne
  rw [hread] at hr
  rw [h.owner_eq hr] at hne
  rw [h.type_eq hr]
  rcases h.mem_iff.1 hw with hw | ⟨-, rfl⟩
  · rw [h.owner_eq hw] at hne
    rw [h.type_eq hw]
    exact hexclusive.reads w hw r hr hne
  rw [h.owner_self] at hne
  rw [h.type_self]
  exact hreads r hr hne

theorem Placed.shared_read (h : lock.Placed lock' .read i owner t) (hshared : lock.Shared) : lock'.Shared := by
  have hwrite : lock'.ids .write = lock.ids .write := h.ids_ne nofun
  rw [Shared, hwrite]
  refine hshared.imp_of_mem fun hv hw himp => ?_
  rwa [h.type_eq hv, h.type_eq hw]

theorem Placed.shared_write (h : lock.Placed lock' .write i owner t) (hshared : lock.Shared)
    (hlast : ∀ v ∈ lock.ids .write, lock.reqs.type v = .writeAllowWrite → t = .writeAllowWrite) : lock'.Shared := by
  rw [Shared, h.ids, update_self, pairwise_append]
  refine ⟨hshared.imp_of_mem fun hv hw himp => ?_, pairwise_singleton _ _, fun v hv w hw htype => ?_⟩
  · rwa [h.type_eq hv, h.type_eq hw]
  rw [h.type_eq hv] at htype
  rw [mem_singleton.1 hw, h.type_self]
  exact hlast v hv htype

/-- A write lock that passes the test goes with the granted write locks, and is behind no `TL_WRITE_ALLOW_WRITE` of another
type. -/
theorem Guarded.beside (h : lock.Guarded) {w : Fin n} {ws : List (Fin n)} (hws : lock.ids .write = w :: ws)
    (hread : ¬ t ≤ .readNoInsert) (hordered : lock.Ordered (.lock i owner t)) (hbeside : lock.Beside env owner t w) {v : Fin n}
    (hv : v ∈ lock.ids .write) (hcase : lock.reqs.owner v ≠ owner ∨ lock.reqs.type v = .writeAllowWrite) :
    lock.reqs.type v = .writeAllowWrite ∧ env.lockedType t = .writeAllowWrite := by
  have hw : w ∈ lock.ids .write := hws ▸ mem_cons_self
  -- an owner that has a TL_WRITE_ALLOW_WRITE requests no other write lock
  have hlow : ∀ u ∈ lock.ids .write, lock.reqs.owner u = owner → lock.reqs.type u = .writeAllowWrite →
      env.lockedType t = .writeAllowWrite := by
    intro u hu howner htype
    have hle := hordered u (fun hidle => hidle .write hu) howner
    rw [htype] at hle
    rw [LockType.eq_writeAllowWrite hread hle]
    exact if_neg (by simp)
  rcases hbeside with howner | hallow
  · by_cases hsame : lock.reqs.owner v = owner
    · have htype := hcase.resolve_left (not_not.2 hsame)
      exact ⟨htype, hlow v hv hsame htype⟩
    obtain ⟨htype, hhead⟩ := h.exclusive.writes v hv w hw (howner ▸ hsame)
    exact ⟨htype, hlow w hw howner.symm hhead⟩
  rw [if_neg hread] at hallow
  refine ⟨?_, hallow.1⟩
  have hshared := h.shared
  rw [Shared, hws, pairwise_cons] at hshared
  rw [hws] at hv
  rcases mem_cons.1 hv with rfl | hv
  · exact hallow.2.2
  · exact hshared.1 v hv hallow.2.2

theorem Locked.guarded (h : lock.Locked env i owner t lock') (hguarded : lock.Guarded)
    (hordered : lock.Ordered (.lock i owner t)) (hfits : lock.Fits env (.lock i owner t)) : lock'.Guarded := by
  have hlinked := hguarded.consistent.sound.linked
  have hconsistent : lock'.Consistent := ⟨h.sound hguarded.consistent.sound, h.live hguarded.consistent.live⟩
  cases h with
  | read h hkind hbeside =>
    refine ⟨hconsistent, h.exclusive_read hguarded.exclusive fun v hv => ?_, ?_⟩
    · obtain ⟨w, ws, hws⟩ := exists_cons_of_ne_nil (ne_nil_of_mem hv)
      have hfirst := hlinked.first_eq_some.2 ⟨ws, hws⟩
      have hall := hfits w hfirst (hbeside w hfirst)
      rw [if_pos hkind] at hall
      exact hall v hv
    exact h.shared_read hguarded.shared
  | write h hread hkind hbeside halone =>
    cases hfirst : lock.first .write with
    | none =>
      have hempty := hlinked.first_eq_none.1 hfirst
      refine ⟨hconsistent, h.exclusive_write hguarded.exclusive (by simp [hempty]) fun r hr _ => ?_,
        h.shared_write hguarded.shared (by simp [hempty])⟩
      rcases halone hfirst with hnone | ⟨hle, hzero⟩
      · rw [hnone] at hr
        cases hr
      refine ⟨hle, fun hno hinserts => ?_⟩
      have hcount := hzero.resolve_left (not_not.2 hinserts)
      rw [hguarded.consistent.sound.count, countP_eq_zero] at hcount
      exact hcount r hr (by simpa using hno)
    | some w =>
      obtain ⟨ws, hws⟩ := hlinked.first_eq_some.1 hfirst
      obtain ⟨rfl, hpass⟩ := hbeside w hfirst
      have hall := hfits w hfirst hpass
      rw [if_neg hread] at hall
      refine ⟨hconsistent, h.exclusive_write hguarded.exclusive (fun v hv hne => ?_) hall,
        h.shared_write hguarded.shared fun v hv htype => ?_⟩
      · exact hguarded.beside hws hread hordered hpass hv (.inl hne)
      · exact (hguarded.beside hws hread hordered hpass hv (.inr htype)).2
  | wait h hq => exact ⟨hconsistent, (h.fewer hq).exclusive hguarded.exclusive, (h.fewer hq).shared hguarded.shared⟩
  | refuse h => exact ⟨hconsistent, h.fewer.exclusive hguarded.exclusive, h.fewer.shared hguarded.shared⟩

theorem fits_of_denied (h : ∀ w ∈ lock.first .write, t = .writeDelayed ∨ ¬ lock.Beside env owner t w) :
    lock.Fits env (.lock i owner t) := by
  intro w hw hpass
  obtain rfl := (h w hw).resolve_right (not_not.2 hpass)
  rw [if_neg (by decide), Env.lockedType, if_neg (by simp)]
  exact fun r _ _ => LockType.compatible_writeDelayed _

theorem Locked.fits (h : lock.Locked env i owner t lock') (hexclusive : lock'.Exclusive) : lock.Fits env (.lock i owner t) := by
  cases h with
  | read h hkind _ =>
    intro w hw hpass
    rw [if_pos hkind]
    intro v hv hne
    have hfit := hexclusive.reads v (h.mem_iff.2 (.inl hv)) i (h.mem_iff.2 (.inr ⟨rfl, rfl⟩))
    rw [h.owner_eq hv, h.owner_self, h.type_eq hv, h.type_self] at hfit
    exact hfit hne
  | write h hread _ hbeside _ =>
    intro w hw hpass
    rw [if_neg hread]
    intro r hr hne
    have hfit := hexclusive.reads i (h.mem_iff.2 (.inr ⟨rfl, rfl⟩)) r (h.mem_iff.2 (.inl hr))
    rw [h.owner_eq hr, h.owner_self, h.type_eq hr, h.type_self, (hbeside w hw).1] at hfit
    exact hfit hne
  | wait _ _ _ _ hbeside => exact fits_of_denied hbeside
  | refuse _ hbeside => exact fits_of_denied hbeside

/-! ### Runs -/

theorem Guarded.step (h : lock.Guarded) (hstep : lock.orderedStep env act = some lock')
    (hfits : lock.Fits env act.1) : lock'.Guarded := by
  obtain ⟨hordered, hstep⟩ := Option.ite_none_right_eq_some.1 hstep
  obtain ⟨henabled, hperform⟩ := Option.ite_none_right_eq_some.1 hstep
  cases hperform
  obtain ⟨act, check⟩ := act
  have hsound := h.consistent.sound
  cases act with
  | lock i owner t => exact (hsound.locked_thrLock h.consistent.live henabled).guarded h hordered hfits
  | unlock i => exact (hsound.thrUnlock henabled).guarded h
  | abortWait i => exact (hsound.abortWait henabled).guarded h
  | abortLocks upgradeLock => exact hordered.elim
  | abortLocksForThread thread => exact (hsound.thrAbortLocksForThread thread).guarded h

theorem Guarded.fits (h : lock.Guarded) (hstep : lock.orderedStep env act = some lock')
    (hexclusive : lock'.Exclusive) : lock.Fits env act.1 := by
  obtain ⟨-, hstep⟩ := Option.ite_none_right_eq_some.1 hstep
  obtain ⟨henabled, hperform⟩ := Option.ite_none_right_eq_some.1 hstep
  cases hperform
  obtain ⟨act, check⟩ := act
  cases act with
  | lock i owner t => exact (h.consistent.sound.locked_thrLock h.consistent.live henabled).fits hexclusive
  | unlock i => trivial
  | abortWait i => trivial
  | abortLocks upgradeLock => trivial
  | abortLocksForThread thread => trivial

theorem guarded_init (next : Fin n → Option (Fin n)) (prev : Fin n → Link (Fin n) Queue) : (init next prev).Guarded := by
  have hids : ∀ q, (init next prev).ids q = [] := by
    intro q
    cases n <;> rfl
  refine ⟨consistent_init next prev, ⟨?_, ?_⟩, ?_⟩
  · simp [hids]
  · simp [hids]
  simp [Shared, hids]

/-- In the states of an ordered run granted locks of different owners go together exactly when each lock that `thr_lock`
grants while a write lock is granted goes with all granted locks. -/
theorem exclusive_iff_fits (env : Env) (next : Fin n → Option (Fin n)) (prev : Fin n → Link (Fin n) Queue)
    (acts : List (Act n × (Fin n → Bool))) : (∀ lock, Run.Passes (orderedStep env) (init next prev) acts lock → lock.Exclusive) ↔
      ∀ lock act, Run.Takes (orderedStep env) (init next prev) acts lock act → (lock.orderedStep env act).isSome →
        lock.Fits env act.1 :=
  Run.invariant_iff (fun _ h => h.exclusive) (fun _ _ _ _ h hstep hfits => h.step hstep hfits)
    (fun _ _ _ _ h hstep hexclusive => h.fits hstep hexclusive) (guarded_init next prev)

/-- A second owner requests a lock of type `t` while a first one has a `TL_WRITE_ALLOW_WRITE`. -/
def secondRequest (t : LockType) : List (Act 2 × (Fin 2 → Bool)) :=
  [(.lock ⟨0, Nat.zero_lt_two⟩ 1 .writeAllowWrite, noCheck), (.lock ⟨1, Nat.one_lt_two⟩ 2 t, noCheck)]

theorem exclusive_iff_fits_read : ∀ lock, Run.Passes (orderedStep plainEnv) (init (fun _ => none) .next)
    (secondRequest .read) lock → lock.Exclusive := by
  apply (exclusive_iff_fits plainEnv (fun _ => none) .next (secondRequest .read)).2
  intro lock act htakes _
  rcases Run.takes_cons.1 htakes with ⟨rfl, rfl⟩ | ⟨_, hstep, htakes⟩
  · intro w hw
    cases hw
  cases hstep
  rcases Run.takes_cons.1 htakes with ⟨rfl, rfl⟩ | ⟨_, _, pre, hpre, _⟩
  · intro w _ _ v hv _
    obtain rfl := mem_singleton.1 hv
    exact ⟨by decide, fun h => by cases h⟩
  · simp at hpre

/-- `TL_READ_NO_INSERT` is granted beside a `TL_WRITE_ALLOW_WRITE` of another owner. -/
theorem not_exclusive_readNoInsert : ∃ lock : Lock 2, Run.Passes (orderedStep plainEnv) (init (fun _ => none) .next)
    (secondRequest .readNoInsert) lock ∧ ¬ lock.Exclusive := by
  refine ⟨_, ⟨secondRequest .readNoInsert, prefix_rfl, rfl⟩, fun hexclusive => ?_⟩
  have hcompatible := hexclusive.reads 0 (by decide) 1 (by decide) (by decide)
  exact absurd hcompatible (by decide)

end Lock

end Mysql51.ThrLock
