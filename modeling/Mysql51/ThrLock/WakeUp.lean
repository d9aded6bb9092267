import Mysql51.ThrLock.Linked

/-!
# What waking up does

`wake_up_waiters` grants requests only when no write lock is granted: some of the first waiting write requests, and waiting
read requests that go with them. `Woken` says all that the rest of the development uses of it.
-/

namespace Mysql51.ThrLock

open Function List

variable {n : Nat}

namespace LockType

def Compatible (w r : LockType) : Prop := w ≤ .writeDelayed ∧ (r = .readNoInsert → ¬ w.Inserts)
deriving Decidable

theorem le_writeDelayed {t : LockType} (hlow : ¬ t ≥ .writeLowPriority) (hdefault : t ≠ .writeDefault) : t ≤ .writeDelayed := by
  revert hlow hdefault
  cases t <;> decide

end LockType

namespace Queue

def waits : Queue → Bool
  | readWait => true
  | read => false
  | writeWait => true
  | write => false

def Holds (t : LockType) : Queue → Prop
  | readWait => t ≤ .readNoInsert
  | read => t ≤ .readNoInsert
  | writeWait => ¬ t ≤ .readNoInsert ∧ t ≠ .writeDefault
  | write => ¬ t ≤ .readNoInsert ∧ t ≠ .writeDefault

end Queue

variable {lock : Lock n} {i : Fin n} {is : List (Fin n)}

namespace Lock

/-- The bookkeeping of a lock: its pointers are linked, requests are in the queues of their kind, exactly the waiting ones
have a condition variable, and the `TL_READ_NO_INSERT` locks are counted. -/
structure Sound (lock : Lock n) : Prop where
  linked : lock.Linked
  kind : ∀ q, ∀ i ∈ lock.ids q, q.Holds (lock.reqs.type i)
  cond : ∀ q, ∀ i ∈ lock.ids q, lock.reqs.cond i = q.waits
  count : lock.reqs.readNoWriteCount = (lock.ids .read).countP fun i => lock.reqs.type i = .readNoInsert

def Live (lock : Lock n) : Prop :=
  lock.ids .write = [] → lock.ids .read = [] → lock.ids .writeWait = [] ∧ lock.ids .readWait = []

/-- The lock after the write requests `ws` and the read requests `rs` have been granted by `wake_up_waiters`. -/
structure Woken (lock lock' : Lock n) (ws rs : List (Fin n)) : Prop where
  linked : lock'.Linked
  owner : lock'.reqs.owner = lock.reqs.owner
  write : lock'.ids .write = lock.ids .write ++ ws
  read : lock'.ids .read = lock.ids .read ++ rs
  writeWait : lock.ids .writeWait = ws ++ lock'.ids .writeWait
  readWait : ∀ i, i ∈ lock.ids .readWait ↔ i ∈ rs ∨ i ∈ lock'.ids .readWait
  type : ∀ i, lock'.reqs.type i = lock.reqs.type i ∨
    i ∈ lock.ids .writeWait ∧ lock.reqs.type i = .writeConcurrentInsert ∧ lock'.reqs.type i = .write
  cond : ∀ i, lock'.reqs.cond i = true ↔ (i ∉ ws ∧ i ∉ rs) ∧ lock.reqs.cond i = true
  count : lock'.reqs.readNoWriteCount = lock.reqs.readNoWriteCount + rs.countP fun i => lock.reqs.type i = .readNoInsert
  idle : ws ≠ [] ∨ rs ≠ [] → lock.ids .write = []
  alike : ∀ i ∈ ws, ∀ j ∈ ws, i = j ∨ lock'.reqs.type i = .writeAllowWrite ∧ lock'.reqs.type j = .writeAllowWrite
  compatible : ∀ w ∈ ws, ∀ r ∈ lock'.ids .read, (lock'.reqs.type w).Compatible (lock'.reqs.type r)
  live : lock'.Live

/-- Nothing but counters of the lock and the type of a waiting concurrent insert has changed. -/
structure Adjusted (lock lock' : Lock n) : Prop where
  links : lock'.links = lock.links
  owner : lock'.reqs.owner = lock.reqs.owner
  type : ∀ i, lock'.reqs.type i = lock.reqs.type i ∨
    i ∈ lock.ids .writeWait ∧ lock.reqs.type i = .writeConcurrentInsert ∧ lock'.reqs.type i = .write
  cond : lock'.reqs.cond = lock.reqs.cond
  count : lock'.reqs.readNoWriteCount = lock.reqs.readNoWriteCount

theorem Adjusted.refl (lock : Lock n) : lock.Adjusted lock := ⟨rfl, rfl, fun _ => .inl rfl, rfl, rfl⟩

theorem Adjusted.setCount (lock : Lock n) (c : Nat) :
    lock.Adjusted (lock.mapReqs fun reqs => { reqs with writeLockCount := c }) := ⟨rfl, rfl, fun _ => .inl rfl, rfl, rfl⟩

variable {lock' : Lock n}

theorem Adjusted.ids (h : lock.Adjusted lock') : lock'.ids = lock.ids := by
  unfold Lock.ids Lock.first
  rw [h.links]

theorem Adjusted.linked (h : lock.Adjusted lock') (hlinked : lock.Linked) : lock'.Linked := by
  rw [Linked, h.ids, h.links]
  exact hlinked

theorem Sound.ne_writeConcurrentInsert (h : lock.Sound)
    (hi : i ∈ lock.ids .read ∨ i ∈ lock.ids .readWait) : lock.reqs.type i ≠ .writeConcurrentInsert := by
  intro htype
  have hle : lock.reqs.type i ≤ .readNoInsert := hi.elim (h.kind .read i) (h.kind .readWait i)
  rw [htype] at hle
  exact absurd hle (by decide)

theorem Sound.woken_freeAll (h : lock.Sound) (hadjusted : lock.Adjusted lock')
    (hwrite : lock.ids .write = []) (hlive : lock.ids .writeWait = [] ∨ lock.ids .readWait ≠ [] ∨ lock.ids .read ≠ []) :
    lock.Woken (lock'.freeAllReadLocks false) [] (lock.ids .readWait) := by
  have hids := hadjusted.ids
  obtain ⟨hlinked, hread, hreadWait, hwrite', hwriteWait, hfreed⟩ := (hadjusted.linked h.linked).freeAllReadLocks false
  have hstays : ∀ is : List (Fin n), is.filter (fun j => !lock'.reqs.stays false j) = is := by
    intro is
    apply filter_eq_self.2
    intro j _
    simp [Requests.stays]
  have hnone : (lock'.ids .readWait).filter (lock'.reqs.stays false) = [] := by
    apply filter_eq_nil_iff.2
    intro j _
    simp [Requests.stays]
  rw [hstays, hids] at hread hfreed
  rw [hnone] at hreadWait
  rw [hids] at hwrite' hwriteWait
  refine ⟨hlinked, hfreed.owner.trans hadjusted.owner, ?_, hread, ?_, ?_, ?_, ?_, ?_, fun _ => hwrite, by simp, by simp, ?_⟩
  · rw [hwrite', append_nil]
  · rw [hwriteWait, nil_append]
  · intro i
    rw [hreadWait]
    simp
  · intro i
    rw [hfreed.type]
    exact hadjusted.type i
  · intro i
    rw [hfreed.cond, hadjusted.cond]
    simp
  · rw [hfreed.count, hadjusted.count]
    congr 1
    apply countP_congr
    intro i hi
    rcases hadjusted.type i with htype | ⟨-, htype, -⟩
    · rw [htype]
    · exact absurd htype (h.ne_writeConcurrentInsert (.inr hi))
  intro hw hr
  rw [hread, append_eq_nil_iff] at hr
  rw [hwriteWait, hreadWait]
  refine ⟨?_, rfl⟩
  rcases hlive with hlive | hlive | hlive
  · exact hlive
  · exact absurd hr.2 hlive
  exact absurd hr.1 hlive

section

variable {check : Fin n → Bool} {old new : Requests n} {i : Fin n} {more : List (Fin n)} (h : Granted check old new i more)
include h

theorem Granted.type_eq {j : Fin n} (hj : j ∈ i :: more) : new.type j = new.type i := by
  rcases mem_cons.1 hj with rfl | hj
  · rfl
  obtain ⟨hjtype, hitype⟩ := h.all j hj
  rw [h.type, if_neg (by simp [hitype]), update_eq_self, hjtype, hitype]

theorem Granted.alike : ∀ j ∈ i :: more, ∀ k ∈ i :: more,
      j = k ∨ new.type j = .writeAllowWrite ∧ new.type k = .writeAllowWrite := by
  intro j hj k hk
  cases more with
  | nil => exact .inl ((mem_singleton.1 hj).trans (mem_singleton.1 hk).symm)
  | cons m more =>
    obtain ⟨-, hitype⟩ := h.all m mem_cons_self
    have hi : new.type i = .writeAllowWrite := by
      rw [h.type, update_self, if_neg (by simp [hitype]), hitype]
    exact .inr ⟨(h.type_eq hj).trans hi, (h.type_eq hk).trans hi⟩

end

/-- The first waiting write requests are granted; `granted` is the lock after the loop. -/
structure Grants (check : Fin n → Bool) (lock granted : Lock n) (i : Fin n) (more rest : List (Fin n)) : Prop where
  linked : granted.Linked
  waiting : lock.ids .writeWait = i :: more ++ rest
  ids : granted.ids = update (update lock.ids .writeWait rest) .write (i :: more)
  reqs : Granted check lock.reqs granted.reqs i more

theorem Sound.grants (h : lock.Sound) (check : Fin n → Bool)
    (hwrite : lock.ids .write = []) (hwait : lock.ids .writeWait = i :: is) (c : Nat) :
    ∃ more rest, Grants check lock (grantLoop check n i (lock.mapReqs fun reqs => { reqs with writeLockCount := c })).2 i more rest ∧
      (grantLoop check n i (lock.mapReqs fun reqs => { reqs with writeLockCount := c })).2.reqs.type
          (grantLoop check n i (lock.mapReqs fun reqs => { reqs with writeLockCount := c })).1 =
        (grantLoop check n i (lock.mapReqs fun reqs => { reqs with writeLockCount := c })).2.reqs.type i := by
  have hlen : is.length < n := by
    have hcard := (h.linked.nodup .writeWait).length_le_card
    rw [Fintype.card_fin, hwait, length_cons] at hcard
    omega
  obtain ⟨more, rest, hsplit, hlinked, hids, hgranted, hlast⟩ :=
    (h.linked.mapReqs fun reqs => { reqs with writeLockCount := c }).grantLoop check hwait hlen
  refine ⟨more, rest, ⟨hlinked, by rw [hwait, hsplit, cons_append], ?_, ?_⟩, hlast⟩
  · rw [hids]
    have hsame : (lock.mapReqs fun reqs => { reqs with writeLockCount := c }).ids = lock.ids := rfl
    rw [hsame, hwrite, nil_append]
  exact ⟨hgranted.owner, hgranted.type, hgranted.cond, hgranted.count, hgranted.all⟩

namespace Grants

variable {check : Fin n → Bool} {lock granted : Lock n} {i : Fin n} {more rest : List (Fin n)}

section

variable (h : Grants check lock granted i more rest)
include h

theorem type (j : Fin n) : granted.reqs.type j = lock.reqs.type j ∨
    j ∈ lock.ids .writeWait ∧ lock.reqs.type j = .writeConcurrentInsert ∧ granted.reqs.type j = .write := by
  by_cases hj : j = i
  · subst hj
    rw [h.reqs.type, update_self]
    split_ifs with hcheck
    · exact .inr ⟨h.waiting ▸ by simp, hcheck.1, rfl⟩
    · exact .inl rfl
  rw [h.reqs.type, update_of_ne hj]
  exact .inl rfl

theorem woken (hwrite : lock.ids .write = []) (hread : lock.ids .read = []) : lock.Woken granted (i :: more) [] := by
  have hread' : granted.ids .read = [] := by
    rw [h.ids]
    simpa using hread
  refine ⟨h.linked, h.reqs.owner, ?_, ?_, ?_, ?_, h.type, ?_, h.reqs.count, fun _ => hwrite, h.reqs.alike, ?_, ?_⟩
  · rw [h.ids, update_self, hwrite, nil_append]
  · rw [hread', hread, append_nil]
  · rw [h.waiting, h.ids]
    simp
  · intro j
    rw [h.ids]
    simp
  · intro j
    rw [h.reqs.cond]
    simp
  · intro w _ r hr
    rw [hread'] at hr
    cases hr
  intro hw
  rw [h.ids, update_self] at hw
  cases hw

/-- The granted write requests, and the waiting read requests that are freed with them. -/
theorem woken_free (hsound : lock.Sound) (hwrite : lock.ids .write = []) (hdelayed : granted.reqs.type i ≤ .writeDelayed)
    (hread : ∀ r ∈ lock.ids .read, lock.reqs.type r = .readNoInsert → ¬ (granted.reqs.type i).Inserts) :
    ∃ rs, lock.Woken (granted.freeAllReadLocks (granted.reqs.type i).Inserts) (i :: more) rs := by
  obtain ⟨hlinked, hread', hreadWait, hwrite', hwriteWait, hfreed⟩ :=
    h.linked.freeAllReadLocks (decide (granted.reqs.type i).Inserts)
  have hids : granted.ids .read = lock.ids .read ∧ granted.ids .readWait = lock.ids .readWait := by
    rw [h.ids]
    simp
  rw [hids.1, hids.2] at hread'
  rw [hids.2] at hreadWait hfreed
  generalize hrs : (lock.ids .readWait).filter (fun j => !granted.reqs.stays (decide (granted.reqs.type i).Inserts) j) = rs at *
  refine ⟨rs, hlinked, hfreed.owner.trans h.reqs.owner, ?_, hread', ?_, ?_, ?_, ?_, ?_, fun _ => hwrite, ?_, ?_, ?_⟩
  · rw [hwrite', h.ids, update_self, hwrite, nil_append]
  · rw [hwriteWait, h.waiting, h.ids]
    simp
  · intro j
    rw [hreadWait, ← hrs, mem_filter, mem_filter, Bool.not_eq_true']
    cases granted.reqs.stays (decide (granted.reqs.type i).Inserts) j <;> simp
  · intro j
    rw [hfreed.type]
    exact h.type j
  · intro j
    rw [hfreed.cond, h.reqs.cond]
    tauto
  · rw [hfreed.count, h.reqs.count]
    congr 1
    apply countP_congr
    intro j hj
    have hmem : j ∈ lock.ids .readWait := by
      rw [← hrs] at hj
      exact (mem_filter.1 hj).1
    rcases h.type j with htype | ⟨-, htype, -⟩
    · rw [htype]
    · exact absurd htype (hsound.ne_writeConcurrentInsert (.inr hmem))
  · rw [hfreed.type]
    exact h.reqs.alike
  · intro w hw r hr
    rw [hfreed.type, h.reqs.type_eq hw]
    refine ⟨hdelayed, fun hno => ?_⟩
    rw [hread', mem_append] at hr
    rcases hr with hr | hr
    · rcases h.type r with htype | ⟨-, htype, -⟩
      · exact hread r hr (htype ▸ hno)
      · exact absurd htype (hsound.ne_writeConcurrentInsert (.inl hr))
    rw [← hrs, mem_filter, Bool.not_eq_true', Requests.stays, hno] at hr
    simpa using hr.2
  intro hw
  rw [hwrite', h.ids, update_self] at hw
  cases hw

end

end Grants

theorem Linked.woken_self (h : lock.Linked) (hbusy : lock.ids .write ≠ [] ∨ lock.ids .read ≠ []) : lock.Woken lock [] [] where
  linked := h
  owner := rfl
  write := by simp
  read := by simp
  writeWait := by simp
  readWait := by simp
  type _ := .inl rfl
  cond := by simp
  count := by simp
  idle := by simp
  alike := by simp
  compatible := by simp
  live hwrite hread := absurd hbusy (by simp [hwrite, hread])

section

variable {lock : Lock n} (h : lock.Sound)
include h

theorem Sound.wakeWriters (check : Fin n → Bool) (hwrite : lock.ids .write = [])
    (hread : lock.ids .read = []) (hwait : lock.ids .writeWait = i :: is) (c : Nat) :
    ∃ ws rs, lock.Woken (lock.wakeWriters check c i) ws rs := by
  obtain ⟨more, rest, hgrants, hlast⟩ := h.grants check hwrite hwait c
  unfold Lock.wakeWriters
  simp only [hlast]
  split_ifs with hexclusive
  · exact ⟨_, _, hgrants.woken hwrite hread⟩
  have hdefault : (grantLoop check n i (lock.mapReqs fun reqs => { reqs with writeLockCount := c })).2.reqs.type i ≠
      .writeDefault := by
    rcases hgrants.type i with htype | ⟨-, -, htype⟩
    · rw [htype]
      exact (h.kind .writeWait i (hwait ▸ mem_cons_self)).2
    rw [htype]
    decide
  obtain ⟨rs, hwoken⟩ := hgrants.woken_free h hwrite (LockType.le_writeDelayed hexclusive hdefault) (by simp [hread])
  exact ⟨_, rs, hwoken⟩

theorem Sound.wakeIdle (env : Env) (check : Fin n → Bool) (hwrite : lock.ids .write = [])
    (hread : lock.ids .read = []) : ∃ ws rs, lock.Woken (lock.wakeIdle env check) ws rs := by
  unfold Lock.wakeIdle
  cases hfirst : lock.first .writeWait with
  | none => exact ⟨_, _, h.woken_freeAll (.refl lock) hwrite (.inl (h.linked.first_eq_none.1 hfirst))⟩
  | some i =>
    obtain ⟨is, hwait⟩ := h.linked.first_eq_some.1 hfirst
    dsimp only
    split_ifs with hprefer hover hreaders
    · have hne : lock.ids .readWait ≠ [] := by
        intro hempty
        rw [h.linked.first_eq_none.2 hempty] at hreaders
        cases hreaders
      exact ⟨_, _, h.woken_freeAll (.setCount lock 0) hwrite (.inr (.inl hne))⟩
    · exact h.wakeWriters check hwrite hread hwait 0
    · exact h.wakeWriters check hwrite hread hwait _
    push Not at hprefer
    have hne : lock.ids .readWait ≠ [] := by
      intro hempty
      rw [h.linked.first_eq_none.2 hempty] at hprefer
      simp at hprefer
    have hinserts : decide (lock.reqs.type i).Inserts = false := by
      rw [hprefer.1]
      decide
    rw [hinserts]
    exact ⟨_, _, h.woken_freeAll (.refl lock) hwrite (.inr (.inl hne))⟩

theorem Sound.wakeBesideReads (check : Fin n → Bool) (hwrite : lock.ids .write = [])
    (hread : lock.ids .read ≠ []) : ∃ ws rs, lock.Woken (lock.wakeBesideReads check) ws rs := by
  unfold Lock.wakeBesideReads
  cases hfirst : lock.first .writeWait with
  | none => exact ⟨_, _, h.woken_freeAll (.refl lock) hwrite (.inr (.inr hread))⟩
  | some i =>
    obtain ⟨is, hwait⟩ := h.linked.first_eq_some.1 hfirst
    dsimp only
    split_ifs with hbeside hupgrade
    · refine ⟨_, _, h.woken_freeAll ⟨rfl, rfl, fun j => ?_, rfl, rfl⟩ hwrite (.inr (.inr hread))⟩
      by_cases hj : j = i
      · subst hj
        exact .inr ⟨hwait ▸ mem_cons_self, hupgrade.1, by simp [Lock.mapReqs]⟩
      exact .inl (by simp [Lock.mapReqs, hj])
    · have hgrants : ∃ more rest, Grants (fun _ => false) lock (grantLoop (fun _ => false) n i lock).2 i more rest ∧ _ :=
        h.grants (fun _ => false) hwrite hwait lock.reqs.writeLockCount
      obtain ⟨more, rest, hgrants, -⟩ := hgrants
      have htype : (grantLoop (fun _ => false) n i lock).2.reqs.type i = lock.reqs.type i := by
        rw [hgrants.reqs.type, update_self, if_neg (by simp)]
      rw [← htype]
      obtain ⟨rs, hwoken⟩ := hgrants.woken_free h hwrite (htype ▸ hbeside.1) (by
        intro r hr hno
        rw [htype]
        rcases hbeside.2 with hinserts | hzero
        · exact hinserts
        rw [h.count, countP_eq_zero] at hzero
        exact absurd (by simpa using hno) (hzero r hr))
      exact ⟨_, rs, hwoken⟩
    exact ⟨_, _, h.linked.woken_self (.inr hread)⟩

/-- `wake_up_waiters` grants requests that go together, and leaves nobody waiting for nothing. -/
theorem Sound.wakeUpWaiters (env : Env) (check : Fin n → Bool) : ∃ ws rs, lock.Woken (lock.wakeUpWaiters env check) ws rs := by
  unfold Lock.wakeUpWaiters
  split_ifs with hwrite hread
  · refine ⟨_, _, h.linked.woken_self (.inl fun hempty => ?_)⟩
    rw [h.linked.first_eq_none.2 hempty] at hwrite
    cases hwrite
  · exact h.wakeIdle env check (h.linked.first_eq_none.1 (by simpa using hwrite)) (h.linked.first_eq_none.1 (by simpa using hread))
  refine h.wakeBesideReads check (h.linked.first_eq_none.1 (by simpa using hwrite)) fun hempty => hread ?_
  rw [h.linked.first_eq_none.2 hempty]
  rfl

end

end Lock

end Mysql51.ThrLock
