import Mysql51.ThrLock.WakeUp

/-!
# Releasing and aborting

A step takes requests out of queues and wakes others up (`Released`, then `Woken`), or it is a `thr_lock`, which has four
outcomes (`Locked`). All invariants of a lock are proved from these, and here those that hold of it under any use: the
bookkeeping is right, and no request waits while no lock is granted.
-/

namespace Mysql51.ThrLock

open TailQueue Function List

variable {n : Nat}

variable {q : Queue} {i : Fin n} {lock' : Lock n}

namespace Lock

/-! ### Waking up keeps the bookkeeping -/

section

variable {lock lock' : Lock n} {ws rs : List (Fin n)} (h : lock.Woken lock' ws rs)
include h

theorem Woken.sub (hi : i ∈ lock'.ids q) : i ∈ lock.ids q ∨ q = .write ∧ i ∈ ws ∨ q = .read ∧ i ∈ rs := by
  cases q with
  | readWait => exact .inl ((h.readWait i).2 (.inr hi))
  | read =>
    rw [h.read, mem_append] at hi
    exact hi.imp_right fun hi => .inr ⟨rfl, hi⟩
  | writeWait =>
    rw [h.writeWait]
    exact .inl (mem_append_right _ hi)
  | write =>
    rw [h.write, mem_append] at hi
    exact hi.imp_right fun hi => .inl ⟨rfl, hi⟩

theorem Woken.mem_writeWait (hi : i ∈ ws) : i ∈ lock.ids .writeWait := by
  rw [h.writeWait]
  exact mem_append_left _ hi

theorem Woken.mem_readWait (hi : i ∈ rs) : i ∈ lock.ids .readWait := (h.readWait i).2 (.inl hi)

theorem Woken.type_eq (hlinked : lock.Linked) (hi : i ∈ lock.ids q) (hq : q ≠ .writeWait) : lock'.reqs.type i = lock.reqs.type i := by
  rcases h.type i with htype | ⟨hwait, -, -⟩
  · exact htype
  · exact absurd (hlinked.unique hi hwait) hq

theorem Woken.holds (hsound : lock.Sound) (hi : i ∈ lock.ids q) : q.Holds (lock'.reqs.type i) := by
  rcases h.type i with htype | ⟨hwait, -, htype⟩
  · rw [htype]
    exact hsound.kind q i hi
  obtain rfl := hsound.linked.unique hi hwait
  rw [htype]
  exact ⟨by decide, by decide⟩

theorem Woken.cond_eq (hsound : lock.Sound) (hi : i ∈ lock'.ids q) : lock'.reqs.cond i = q.waits := by
  rw [Bool.eq_iff_iff, h.cond]
  rcases h.sub hi with hold | ⟨rfl, hws⟩ | ⟨rfl, hrs⟩
  · rw [hsound.cond q i hold]
    refine ⟨fun hcond => hcond.2, fun hq => ⟨⟨fun hws => ?_, fun hrs => ?_⟩, hq⟩⟩
    · have hmem : i ∈ lock'.ids .write := by
        rw [h.write]
        exact mem_append_right _ hws
      rw [h.linked.unique hi hmem] at hq
      cases hq
    have hmem : i ∈ lock'.ids .read := by
      rw [h.read]
      exact mem_append_right _ hrs
    rw [h.linked.unique hi hmem] at hq
    cases hq
  · simp [hws, Queue.waits]
  simp [hrs, Queue.waits]

theorem Woken.sound (hsound : lock.Sound) : lock'.Sound := by
  refine ⟨h.linked, fun q i hi => ?_, fun q i hi => h.cond_eq hsound hi, ?_⟩
  · rcases h.sub hi with hold | ⟨rfl, hws⟩ | ⟨rfl, hrs⟩
    · exact h.holds hsound hold
    · exact (h.holds hsound (h.mem_writeWait hws) : Queue.writeWait.Holds _)
    exact (h.holds hsound (h.mem_readWait hrs) : Queue.readWait.Holds _)
  rw [h.count, hsound.count, h.read, countP_append]
  congr 1
  · exact countP_congr fun i hi => by rw [h.type_eq hsound.linked hi nofun]
  · exact countP_congr fun i hi => by rw [h.type_eq hsound.linked (h.mem_readWait hi) nofun]

end

/-! ### Requests that leave -/

/-- Some requests have left the queues of `lock`. -/
structure Released (lock lock' : Lock n) : Prop where
  linked : lock'.Linked
  ids : ∀ q, (lock'.ids q).Sublist (lock.ids q)
  owner : lock'.reqs.owner = lock.reqs.owner
  type : ∀ q, ∀ i ∈ lock'.ids q, lock'.reqs.type i = lock.reqs.type i
  cond : ∀ q, ∀ i ∈ lock'.ids q, lock'.reqs.cond i = lock.reqs.cond i
  count : lock'.reqs.readNoWriteCount = (lock'.ids .read).countP fun i => lock'.reqs.type i = .readNoInsert

variable {lock : Lock n}

theorem Released.sound (h : lock.Released lock') (hsound : lock.Sound) : lock'.Sound := by
  refine ⟨h.linked, fun q i hi => ?_, fun q i hi => ?_, h.count⟩
  · rw [h.type q i hi]
    exact hsound.kind q i ((h.ids q).subset hi)
  rw [h.cond q i hi]
  exact hsound.cond q i ((h.ids q).subset hi)

theorem Released.trans {mid : Lock n} (h : lock.Released mid) (h' : mid.Released lock') : lock.Released lock' where
  linked := h'.linked
  ids q := (h'.ids q).trans (h.ids q)
  owner := h'.owner.trans h.owner
  type q i hi := (h'.type q i hi).trans (h.type q i ((h'.ids q).subset hi))
  cond q i hi := (h'.cond q i hi).trans (h.cond q i ((h'.ids q).subset hi))
  count := h'.count

section unlinking

variable {lock : Lock n} {q : Queue} {i : Fin n}

theorem Sound.released_unlink (h : lock.Sound) (hi : i ∈ lock.ids q) {g : Requests n → Requests n}
    (howner : (g lock.reqs).owner = lock.reqs.owner) (htype : ∀ j, j ≠ i → (g lock.reqs).type j = lock.reqs.type j)
    (hcond : ∀ j, j ≠ i → (g lock.reqs).cond j = lock.reqs.cond j) (hcount : (g lock.reqs).readNoWriteCount =
      lock.reqs.readNoWriteCount - if q = .read ∧ lock.reqs.type i = .readNoInsert then 1 else 0) :
    lock.Released ((lock.unlink q i).mapReqs g) := by
  obtain ⟨hlinked, hids⟩ := h.linked.unlink hi
  have hids' : ((lock.unlink q i).mapReqs g).ids = update lock.ids q ((lock.ids q).erase i) := hids
  have hsub : ∀ r, (update lock.ids q ((lock.ids q).erase i) r).Sublist (lock.ids r) := by
    intro r
    by_cases hr : r = q
    · subst hr
      rw [update_self]
      exact erase_sublist
    rw [update_of_ne hr]
  have hne : ∀ r, ∀ j ∈ update lock.ids q ((lock.ids q).erase i) r, j ≠ i := by
    rintro r j hj rfl
    obtain rfl := h.linked.unique ((hsub r).subset hj) hi
    rw [update_self] at hj
    exact (h.linked.nodup r).not_mem_erase hj
  have hread : (update lock.ids q ((lock.ids q).erase i) .read).countP (fun j => lock.reqs.type j = .readNoInsert) =
      (lock.ids .read).countP (fun j => lock.reqs.type j = .readNoInsert) -
        if q = .read ∧ lock.reqs.type i = .readNoInsert then 1 else 0 := by
    by_cases hq : q = .read
    · subst hq
      simp [countP_erase, hi]
    rw [update_of_ne (Ne.symm hq), if_neg fun hand => hq hand.1, Nat.sub_zero]
  refine ⟨hlinked, fun r => ?_, howner, fun r j hj => ?_, fun r j hj => ?_, ?_⟩
  · rw [hids']
    exact hsub r
  · rw [hids'] at hj
    exact htype j (hne r j hj)
  · rw [hids'] at hj
    exact hcond j (hne r j hj)
  rw [hids']
  refine hcount.trans ?_
  rw [h.count, ← hread]
  exact countP_congr fun j hj => by rw [← htype j (hne .read j hj)]; rfl

theorem Sound.released_aborted (h : lock.Sound) {stay gone : List (Fin n)} (hlinked : lock'.Linked)
    (hq : q ≠ .read) (hids : lock'.ids = update lock.ids q stay) (hstay : stay.Sublist (lock.ids q))
    (haborted : Aborted lock.reqs lock'.reqs gone) (hgone : ∀ j ∈ gone, j ∈ lock.ids q ∧ j ∉ stay) : lock.Released lock' := by
  have hsub : ∀ r, (lock'.ids r).Sublist (lock.ids r) := by
    intro r
    rw [hids]
    by_cases hr : r = q
    · subst hr
      rwa [update_self]
    rw [update_of_ne hr]
  have hkeep : ∀ r, ∀ j ∈ lock'.ids r, j ∉ gone := by
    intro r j hj hjgone
    obtain rfl := h.linked.unique ((hsub r).subset hj) (hgone j hjgone).1
    rw [hids, update_self] at hj
    exact (hgone j hjgone).2 hj
  refine ⟨hlinked, hsub, haborted.owner, fun r j hj => haborted.type j (hkeep r j hj),
    fun r j hj => haborted.cond j (hkeep r j hj), ?_⟩
  have hread : lock'.ids .read = lock.ids .read := by rw [hids, update_of_ne (Ne.symm hq)]
  rw [haborted.count, h.count, hread]
  exact countP_congr fun j hj => by rw [haborted.type j (hkeep .read j (hread ▸ hj))]

theorem Sound.released_abortThreadLoop (h : lock.Sound) (env : Env) (hq : q ≠ .read) (thread : Nat) :
    lock.Released (abortThreadLoop env q thread n (lock.first q) lock) ∧ (abortThreadLoop env q thread n (lock.first q) lock).ids =
      update lock.ids q ((lock.ids q).filter fun i => threadOf env lock.reqs i ≠ thread) := by
  have hlen : (lock.ids q).length ≤ n := by
    have hcard := (h.linked.nodup q).length_le_card
    rwa [Fintype.card_fin] at hcard
  obtain ⟨hlinked, hids, haborted⟩ :=
    h.linked.abortThreadLoop env thread (nil_append (lock.ids q)).symm hlen
  rw [h.linked.first_eq]
  refine ⟨h.released_aborted hlinked hq hids filter_sublist haborted fun j hj => ?_, hids⟩
  rw [mem_filter, decide_eq_true_iff] at hj
  refine ⟨hj.1, fun hstay => ?_⟩
  simpa [hj.2] using (mem_filter.1 hstay).2

end unlinking

def Updated (lock lock' : Lock n) : Prop := ∃ mid ws rs, lock.Released mid ∧ mid.Woken lock' ws rs

theorem Released.updated (h : lock.Released lock') (hsound : lock.Sound) (env : Env) (check : Fin n → Bool) :
    lock.Updated (lock'.wakeUpWaiters env check) := by
  obtain ⟨ws, rs, hwoken⟩ := (h.sound hsound).wakeUpWaiters env check
  exact ⟨lock', ws, rs, h, hwoken⟩

variable {lock : Lock n} {i : Fin n} {env : Env} {check : Fin n → Bool}

section

variable (h : lock.Sound)
include h

/-- `thr_unlock` takes the request out of the queue it is in before it wakes others up. -/
theorem Sound.released_thrUnlock (henabled : lock.Enabled (.unlock i)) (env : Env) (check : Fin n → Bool) : ∃ q, i ∈ lock.ids q ∧
      lock.thrUnlock env check i =
        ((lock.unlink q i).mapReqs fun reqs => (reqs.uncountRead i).setType i .unlock).wakeUpWaiters env check ∧
      lock.Released ((lock.unlink q i).mapReqs fun reqs => (reqs.uncountRead i).setType i .unlock) := by
  have hrel : ∀ q, i ∈ lock.ids q → (q = .read ∨ ¬ lock.reqs.type i ≤ .readNoInsert) →
      lock.Released ((lock.unlink q i).mapReqs fun reqs => (reqs.uncountRead i).setType i .unlock) := by
    intro q hi hq
    refine h.released_unlink hi (by simp) (fun j hj => by simp [hj]) (fun j _ => by simp) ?_
    rw [Requests.setType_count, Requests.uncountRead_count]
    rcases hq with rfl | hq
    · simp
    have hno : lock.reqs.type i ≠ .readNoInsert := by
      intro htype
      rw [htype] at hq
      exact hq (by decide)
    simp [hno]
  unfold Lock.thrUnlock
  dsimp only
  rcases henabled with hi | hi | ⟨hi, hdelayed⟩
  · have hkind : lock.reqs.type i ≤ .readNoInsert := h.kind .read i hi
    rw [if_pos hkind]
    exact ⟨.read, hi, rfl, hrel .read hi (.inl rfl)⟩
  · have hkind := (h.kind .write i hi).1
    have hcond : lock.reqs.cond i = false := h.cond .write i hi
    rw [if_neg hkind, if_neg (by simp [hcond])]
    exact ⟨.write, hi, rfl, hrel .write hi (.inr hkind)⟩
  have hkind := (h.kind .writeWait i hi).1
  rw [if_neg hkind, if_pos ⟨hdelayed, h.cond .writeWait i hi⟩]
  exact ⟨.writeWait, hi, rfl, hrel .writeWait hi (.inr hkind)⟩

theorem Sound.thrUnlock (henabled : lock.Enabled (.unlock i)) : lock.Updated (lock.thrUnlock env check i) := by
  obtain ⟨q, -, heq, hreleased⟩ := h.released_thrUnlock henabled env check
  rw [heq]
  exact hreleased.updated h env check

/-- A wait that ends takes the request out of the queue it waits in before others are woken up. -/
theorem Sound.released_abortWait (henabled : lock.Enabled (.abortWait i)) (env : Env) (check : Fin n → Bool) :
    ∃ q : Queue, i ∈ lock.ids q ∧ q.waits = true ∧
      lock.abortWait env check i = ((lock.unlink q i).mapReqs fun reqs => reqs.setType i .unlock).wakeUpWaiters env check ∧
      lock.Released ((lock.unlink q i).mapReqs fun reqs => reqs.setType i .unlock) := by
  have hrel : ∀ q : Queue, i ∈ lock.ids q → q ≠ .read →
      lock.Released ((lock.unlink q i).mapReqs fun reqs => reqs.setType i .unlock) := fun q hi hq =>
    h.released_unlink hi (by simp) (fun j hj => by simp [hj]) (fun j _ => by simp) (by simp [hq])
  unfold Lock.abortWait
  rcases henabled with hi | hi
  · have hkind : lock.reqs.type i ≤ .readNoInsert := h.kind .readWait i hi
    rw [if_pos hkind]
    exact ⟨.readWait, hi, rfl, rfl, hrel .readWait hi nofun⟩
  rw [if_neg (h.kind .writeWait i hi).1]
  exact ⟨.writeWait, hi, rfl, rfl, hrel .writeWait hi nofun⟩

theorem Sound.abortWait (henabled : lock.Enabled (.abortWait i)) : lock.Updated (lock.abortWait env check i) := by
  obtain ⟨q, -, -, heq, hreleased⟩ := h.released_abortWait henabled env check
  rw [heq]
  exact hreleased.updated h env check

theorem Sound.released_thrAbortLocksForThread (env : Env) (thread : Nat) : ∃ mid, lock.Released mid ∧
    mid.ids .writeWait = (lock.ids .writeWait).filter (fun i => threadOf env lock.reqs i ≠ thread) ∧
    ∀ check, lock.thrAbortLocksForThread env check thread = mid.wakeUpWaiters env check := by
  obtain ⟨hread, hids⟩ := h.released_abortThreadLoop env (q := .readWait) nofun thread
  obtain ⟨hwrite, hids'⟩ := (hread.sound h).released_abortThreadLoop env (q := .writeWait) nofun thread
  refine ⟨_, hread.trans hwrite, ?_, fun _ => rfl⟩
  rw [hids', update_self, hids, update_of_ne (by decide)]
  unfold threadOf
  rw [hread.owner]

theorem Sound.thrAbortLocksForThread (thread : Nat) : lock.Updated (lock.thrAbortLocksForThread env check thread) := by
  obtain ⟨mid, hreleased, -, heq⟩ := h.released_thrAbortLocksForThread env thread
  rw [heq]
  exact hreleased.updated h env check

theorem Sound.released_clear (hq : q ≠ .read) :
    lock.Released { links := lock.links.clear q, reqs := abortAll (lock.ids q) lock.reqs } ∧
      ({ links := lock.links.clear q, reqs := abortAll (lock.ids q) lock.reqs } : Lock n).ids = update lock.ids q [] := by
  obtain ⟨hlinked, hids⟩ := @linked_of_rep n { links := lock.links.clear q, reqs := abortAll (lock.ids q) lock.reqs }
    _ ((Store.Rep.clear h.linked q).mono fun _ hopen => hopen.1)
  exact ⟨h.released_aborted hlinked hq hids (nil_sublist _) (aborted_abortAll _ _) fun j hj => ⟨hj, not_mem_nil⟩, hids⟩

theorem Sound.setType_writeOnly (hi : i ∈ lock.ids .write) : (lock.mapReqs fun reqs => reqs.setType i .writeOnly).Sound := by
  have hids : (lock.mapReqs fun reqs => reqs.setType i .writeOnly).ids = lock.ids := rfl
  refine ⟨h.linked.mapReqs _, fun q j hj => ?_, h.cond, ?_⟩
  · by_cases hji : j = i
    · subst hji
      obtain rfl := h.linked.unique hj hi
      simp [Lock.mapReqs, Queue.Holds]
      decide
    simpa [Lock.mapReqs, hji] using h.kind q j hj
  rw [hids]
  refine h.count.trans (countP_congr fun j hj => ?_)
  have hji : j ≠ i := by
    rintro rfl
    cases h.linked.unique hj hi
  simp [Lock.mapReqs, hji]

/-- `thr_abort_locks` empties both wait queues, and may raise the type of the first write lock. -/
theorem Sound.ids_thrAbortLocks (upgradeLock : Bool) :
    (lock.thrAbortLocks upgradeLock).ids = update (update lock.ids .readWait []) .writeWait [] := by
  obtain ⟨hread, hids⟩ := h.released_clear (q := .readWait) (by decide)
  have hids' := ((hread.sound h).released_clear (q := .writeWait) (by decide)).2
  rw [hids] at hids'
  unfold Lock.thrAbortLocks
  dsimp only
  split
  · split_ifs <;> exact hids'
  · exact hids'

theorem Sound.thrAbortLocks (upgradeLock : Bool) :
    (lock.thrAbortLocks upgradeLock).Sound ∧ (lock.thrAbortLocks upgradeLock).Live := by
  have hnone := h.ids_thrAbortLocks upgradeLock
  refine ⟨?_, fun _ _ => ⟨congrFun hnone .writeWait, congrFun hnone .readWait⟩⟩
  obtain ⟨hread, hids⟩ := h.released_clear (q := .readWait) nofun
  have hwrite := ((hread.sound h).released_clear (q := .writeWait) nofun).1
  have hwait : update lock.ids .readWait [] .writeWait = lock.ids .writeWait := by simp
  rw [hids, hwait] at hwrite
  have hsound := hwrite.sound (hread.sound h)
  unfold Lock.thrAbortLocks
  dsimp only
  split
  · next w hfirst =>
    split_ifs
    · obtain ⟨ws, hw⟩ := hsound.linked.first_eq_some.1 hfirst
      exact hsound.setType_writeOnly (hw ▸ mem_cons_self)
    exact hsound
  exact hsound

end

end Lock

end Mysql51.ThrLock
