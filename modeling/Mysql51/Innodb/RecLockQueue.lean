import Mysql51.Innodb.RecLock
import Mysql51.Lib.Run

/-!
# Record locks exclude each other, and nobody waits for nothing

Two facts are kept by every change of the queue. Of two conflicting record locks the one behind waits, whether or not the one
ahead is granted; and each lock that waits has a lock ahead that it has to wait for.
-/

namespace Mysql51.Innodb.RecLock

open List

namespace Lock

theorem getNthBit_setNthBit {lock : Lock} {h : Nat} (hlt : h < lock.bitmap.length) (i : Nat) :
    (lock.setNthBit h).getNthBit i = true ↔ i = h ∨ lock.getNthBit i = true := by
  unfold getNthBit setNthBit
  by_cases hi : i = h
  · subst hi
    simp [hlt]
  simp [getD_eq_getElem?_getD, List.getElem?_set_ne (Ne.symm hi), hi]

theorem getNthBit_resetNthBit {lock : Lock} {h i : Nat} : (lock.resetNthBit h).getNthBit i = true ↔ i ≠ h ∧ lock.getNthBit i = true := by
  unfold getNthBit resetNthBit
  by_cases hi : i = h
  · subst hi
    simp [getD_eq_getElem?_getD, List.getElem?_set]
    split_ifs <;> simp
  simp [getD_eq_getElem?_getD, List.getElem?_set_ne (Ne.symm hi), hi]

@[simp] theorem getNthBit_resetWait (lock : Lock) (i : Nat) : lock.resetWait.getNthBit i = lock.getNthBit i := rfl

def Only (lock : Lock) (h : Nat) : Prop := ∀ i, lock.getNthBit i = true ↔ i = h

theorem Only.findSetBit {lock : Lock} {h : Nat} (honly : lock.Only h) : lock.findSetBit = some h := by
  have hbit : ∀ i, lock.bitmap[i]? = some true ↔ i = h := by
    intro i
    rw [← honly i, getNthBit, getD_eq_getElem?_getD]
    cases lock.bitmap[i]? <;> simp
  obtain ⟨hlt, hget⟩ := List.getElem?_eq_some_iff.1 ((hbit h).2 rfl)
  rw [Lock.findSetBit, List.findIdx?_eq_some_iff_getElem]
  refine ⟨hlt, hget, fun j hj htrue => ?_⟩
  have heq := (hbit j).1 (List.getElem?_eq_some_iff.2 ⟨hj.trans hlt, htrue⟩)
  omega

end Lock

theorem only_newLock {typeMode : TypeMode} {heapNo trx nHeap : Nat} (hlt : heapNo < nHeap) :
    (newLock typeMode heapNo trx nHeap).Only heapNo := by
  intro i
  have hlen : heapNo < (List.replicate ((1 + (nHeap + 64) / 8) * 8) false).length := by
    rw [length_replicate]
    omega
  unfold Lock.getNthBit newLock
  by_cases hi : i = heapNo
  · subst hi
    simp only [getD_eq_getElem?_getD, List.getElem?_set_self hlen, Option.getD_some]
  simp only [getD_eq_getElem?_getD, List.getElem?_set_ne (Ne.symm hi), List.getElem?_replicate]
  split_ifs <;> simp [hi]

/-! ### Waiting and conflicts -/

/-- Two locks of different transactions, neither on a gap, that conflict on a record other than the supremum. -/
structure Conflict (lock lock' : Lock) : Prop where
  trx : lock.trx ≠ lock'.trx
  mode : lockModeCompatible lock.typeMode.mode lock'.typeMode.mode = false
  gap : lock.typeMode.gap = false
  gap' : lock'.typeMode.gap = false
  common : ∃ h, h ≠ supremum ∧ lock.getNthBit h = true ∧ lock'.getNthBit h = true

theorem lockHasToWait_resetWait_right (lock1 lock2 : Lock) : lockHasToWait lock1 lock2.resetWait = lockHasToWait lock1 lock2 := rfl

variable {lock w : Lock} {queue ahead : List Lock} {r k : Nat} {on : Lock → Bool} {f : Lock → Lock}

theorem Conflict.symm {lock' : Lock} (h : Conflict lock lock') : Conflict lock' lock where
  trx := h.trx.symm
  mode := (lockModeCompatible_comm _ _).trans h.mode
  gap := h.gap'
  gap' := h.gap
  common := h.common.imp fun _ hcommon => ⟨hcommon.1, hcommon.2.2, hcommon.2.1⟩

def Blocks (lock w : Lock) : Prop := ∃ h, w.getNthBit h = true ∧ lock.getNthBit h = true ∧ lockHasToWait w lock = true

/-- A waiting lock covers one record, an insert intention is on a gap, and of two conflicting locks the one behind waits. -/
structure Lined (queue : List Lock) : Prop where
  only : ∀ lock ∈ queue, lock.typeMode.wait = true → ∃ h, lock.Only h
  intention : ∀ lock ∈ queue, lock.typeMode.insertIntention = true → lock.typeMode.gap = false →
    ∀ h, lock.getNthBit h = true → h = supremum
  exclusive : ∀ (i j : Nat) (lock lock' : Lock), i < j → queue[i]? = some lock → queue[j]? = some lock' →
    Conflict lock lock' → lock'.typeMode.wait = true

def Blocked (on : Lock → Bool) (queue : List Lock) : Prop :=
  ∀ (j : Nat) (w : Lock), queue[j]? = some w → w.typeMode.wait = true → on w = false →
    ∃ (i : Nat) (lock : Lock), i < j ∧ queue[i]? = some lock ∧ Blocks lock w

structure Ordered (queue : List Lock) : Prop where
  lined : Lined queue
  blocked : Blocked (fun _ => false) queue

theorem lockRecHasToWait_of_conflict {trx : Nat} {typeMode : TypeMode} (htrx : trx ≠ lock.trx)
    (hmode : lockModeCompatible typeMode.mode lock.typeMode.mode = false) (hgap : typeMode.gap = false)
    (hgap' : lock.typeMode.gap = false) (hintention : lock.typeMode.insertIntention = false) :
    lockRecHasToWait trx typeMode lock false = true := by
  simp [lockRecHasToWait, htrx, hmode, hgap, hgap', hintention]

theorem Lined.intention_eq_false (h : Lined queue) (hlock : lock ∈ queue) (hr : r ≠ supremum) (hbit : lock.getNthBit r = true)
    (hgap : lock.typeMode.gap = false) : lock.typeMode.insertIntention = false := by
  by_contra hintention
  rw [Bool.not_eq_false] at hintention
  exact hr (h.intention lock hlock hintention hgap r hbit)

theorem Lined.lockHasToWait (h : Lined queue) (hlock : lock ∈ queue) (honly : w.Only r) (hconflict : Conflict lock w) :
    lock.getNthBit r = true ∧ lockHasToWait w lock = true := by
  obtain ⟨r', hr', hbit, hbit'⟩ := hconflict.common
  obtain rfl := (honly r').1 hbit'
  refine ⟨hbit, ?_⟩
  have hsupremum : w.getNthBit 1 = false := by
    rw [Bool.eq_false_iff]
    exact fun htrue => hr' ((honly 1).1 htrue).symm
  have hsymm := hconflict.symm
  rw [RecLock.lockHasToWait, if_pos ⟨hsymm.trx, hsymm.mode⟩, hsupremum]
  exact lockRecHasToWait_of_conflict hsymm.trx hsymm.mode hsymm.gap hsymm.gap'
    (h.intention_eq_false hlock hr' hbit hconflict.gap)

/-! ### Granting -/

def settle (on : Lock → Bool) (ahead : List Lock) (lock : Lock) : Lock := if on lock then grantUnlessWaits ahead lock else lock

theorem settle_cases (on : Lock → Bool) (ahead : List Lock) (lock : Lock) :
    settle on ahead lock = lock ∨ settle on ahead lock = lock.resetWait := by
  unfold settle grantUnlessWaits
  split_ifs <;> simp

theorem lockRecHasToWaitInQueue_settle (on : Lock → Bool) (before ahead after : List Lock) (lock w : Lock) :
    lockRecHasToWaitInQueue (ahead ++ settle on before lock :: after) w = lockRecHasToWaitInQueue (ahead ++ lock :: after) w := by
  unfold lockRecHasToWaitInQueue
  rcases settle_cases on before lock with heq | heq
  · rw [heq]
  · simp only [heq, any_append, any_cons, Lock.getNthBit_resetWait, lockHasToWait_resetWait_right]

theorem getElem?_grantLoop (on : Lock → Bool) (ahead rest : List Lock) (i : Nat) :
    (grantLoop on ahead rest)[i]? = rest[i]?.map (settle on (ahead ++ rest.take i)) := by
  induction rest generalizing ahead i with
  | nil => simp [grantLoop]
  | cons lock rest ih =>
    cases i with
    | zero => simp [grantLoop, settle]
    | succ i =>
      rw [grantLoop, List.getElem?_cons_succ, ih, List.getElem?_cons_succ]
      congr 1
      funext w
      have hsame := lockRecHasToWaitInQueue_settle on ahead ahead (rest.take i) lock w
      unfold settle grantUnlessWaits at hsame ⊢
      rw [append_assoc, singleton_append, take_succ_cons, hsame]

theorem conflict_settle {ahead' : List Lock} {lock' : Lock} (h : Conflict (settle on ahead lock) (settle on ahead' lock')) :
    Conflict lock lock' := by
  rcases settle_cases on ahead lock with heq | heq <;> rcases settle_cases on ahead' lock' with heq' | heq'
  all_goals
    rw [heq, heq'] at h
    exact ⟨h.trx, h.mode, h.gap, h.gap', h.common⟩

theorem blocks_settle (h : Blocks lock w) : Blocks (settle on ahead lock) w := by
  rcases settle_cases on ahead lock with heq | heq
  all_goals
    rw [heq]
    exact h

/-- A lock that waits after the loop has waited before, and has been found to have to wait if it was looked at. -/
theorem wait_settle (h : (settle on ahead lock).typeMode.wait = true) :
    settle on ahead lock = lock ∧ (on lock = true → lockRecHasToWaitInQueue ahead lock = true) := by
  unfold settle grantUnlessWaits at h ⊢
  split_ifs at h ⊢ with hon hgrant
  · cases h
  · refine ⟨rfl, fun _ => ?_⟩
    rw [h, Bool.true_and, Bool.not_eq_true, Bool.not_eq_false'] at hgrant
    exact hgrant
  exact ⟨rfl, fun htrue => absurd htrue hon⟩

theorem Lock.Only.hasToWaitInQueue (h : w.Only r) (ahead : List Lock) :
    lockRecHasToWaitInQueue ahead w = true ↔ ∃ lock ∈ ahead, lock.getNthBit r = true ∧ lockHasToWait w lock = true := by
  simp [lockRecHasToWaitInQueue, h.findSetBit]

theorem mem_take_iff {j : Nat} : lock ∈ queue.take j ↔ ∃ i, i < j ∧ queue[i]? = some lock := by
  rw [mem_iff_getElem?]
  refine exists_congr fun i => ?_
  by_cases hi : i < j
  · simp [List.getElem?_take_of_lt hi, hi]
  · rw [List.getElem?_take_eq_none (Nat.le_of_not_lt hi)]
    simp [hi]

theorem Lined.grantLoop (h : Lined queue) (hblocked : Blocked on queue) : Ordered (grantLoop on [] queue) := by
  have hget : ∀ i lock', (RecLock.grantLoop on [] queue)[i]? = some lock' →
      ∃ lock, queue[i]? = some lock ∧ settle on (queue.take i) lock = lock' := by
    intro i lock' hlock'
    rw [getElem?_grantLoop, nil_append] at hlock'
    exact Option.map_eq_some_iff.1 hlock'
  have hmem : ∀ lock' ∈ RecLock.grantLoop on [] queue, ∃ i lock, queue[i]? = some lock ∧ settle on (queue.take i) lock = lock' := by
    intro lock' hlock'
    obtain ⟨i, hi⟩ := mem_iff_getElem?.1 hlock'
    exact ⟨i, hget i lock' hi⟩
  refine ⟨⟨fun lock' hlock' hwait => ?_, fun lock' hlock' hint hgap r hbit => ?_, ?_⟩, ?_⟩
  · obtain ⟨i, lock, hlock, rfl⟩ := hmem lock' hlock'
    have hsame := (wait_settle hwait).1
    rw [hsame] at hwait ⊢
    exact h.only lock (mem_of_getElem? hlock) hwait
  · obtain ⟨i, lock, hlock, rfl⟩ := hmem lock' hlock'
    have hold := h.intention lock (mem_of_getElem? hlock)
    rcases settle_cases on (queue.take i) lock with heq | heq
    all_goals
      rw [heq] at hint hgap hbit
      exact hold hint hgap r hbit
  · intro i j lock₁ lock₂ hij h₁ h₂ hconflict
    obtain ⟨lock, hlock, rfl⟩ := hget i lock₁ h₁
    obtain ⟨w, hw, rfl⟩ := hget j lock₂ h₂
    replace hconflict := conflict_settle hconflict
    have hwait := h.exclusive i j lock w hij hlock hw hconflict
    obtain ⟨r, honly⟩ := h.only w (mem_of_getElem? hw) hwait
    -- the lock ahead is one that the waiting lock has to wait for
    have hahead : lockRecHasToWaitInQueue (queue.take j) w = true :=
      (honly.hasToWaitInQueue _).2 ⟨lock, mem_take_iff.2 ⟨i, hij, hlock⟩, h.lockHasToWait (mem_of_getElem? hlock) honly hconflict⟩
    unfold settle grantUnlessWaits
    rw [hahead, Bool.not_true, Bool.and_false, if_neg Bool.false_ne_true, ite_self]
    exact hwait
  intro j w' hw' hwait _
  obtain ⟨w, hw, rfl⟩ := hget j w' hw'
  obtain ⟨hsame, hqueue⟩ := wait_settle hwait
  rw [hsame] at hwait ⊢
  have hfind : ∃ i lock, i < j ∧ queue[i]? = some lock ∧ Blocks lock w := by
    cases hon : on w with
    | false => exact hblocked j w hw hwait hon
    | true =>
      obtain ⟨r, honly⟩ := h.only w (mem_of_getElem? hw) hwait
      obtain ⟨lock, hlock, hbit, hhas⟩ := (honly.hasToWaitInQueue _).1 (hqueue hon)
      obtain ⟨i, hij, hi⟩ := mem_take_iff.1 hlock
      exact ⟨i, lock, hij, hi, r, (honly r).2 rfl, hbit, hhas⟩
  obtain ⟨i, lock, hij, hlock, hblocks⟩ := hfind
  refine ⟨i, settle on (queue.take i) lock, hij, ?_, blocks_settle hblocks⟩
  rw [getElem?_grantLoop, hlock, nil_append, Option.map_some]

/-! ### Changes of the queue -/

theorem Lined.dequeue (h : Lined queue) (k : Nat) : Ordered (lockRecDequeueFromPage queue k) := by
  refine Lined.grantLoop ⟨fun lock hlock => ?_, fun lock hlock => ?_, ?_⟩ fun _ _ _ _ hfalse => absurd hfalse (by simp)
  · exact h.only lock (mem_of_mem_eraseIdx hlock)
  · exact h.intention lock (mem_of_mem_eraseIdx hlock)
  intro i j lock lock' hij hi hj
  rw [List.getElem?_eraseIdx] at hi hj
  split_ifs at hi hj with hik hjk hjk
  · exact h.exclusive i j lock lock' hij hi hj
  · exact h.exclusive i (j + 1) lock lock' (by omega) hi hj
  · omega
  exact h.exclusive (i + 1) (j + 1) lock lock' (by omega) hi hj

theorem Ordered.concat (h : Ordered queue) (honly : lock.typeMode.wait = true → ∃ r, lock.Only r)
    (hintention : lock.typeMode.insertIntention = true → lock.typeMode.gap = false → ∀ r, lock.getNthBit r = true → r = supremum)
    (hconflict : ∀ l ∈ queue, Conflict l lock → lock.typeMode.wait = true)
    (hblocked : lock.typeMode.wait = true → ∃ l ∈ queue, Blocks l lock) : Ordered (queue ++ [lock]) := by
  have hget : ∀ (i : Nat) (l : Lock), (queue ++ [lock])[i]? = some l → queue[i]? = some l ∨ i = queue.length ∧ l = lock := by
    intro i l hl
    rcases Nat.lt_trichotomy i queue.length with hi | rfl | hi
    · rw [List.getElem?_append_left hi] at hl
      exact .inl hl
    · rw [List.getElem?_concat_length] at hl
      exact .inr ⟨rfl, (Option.some.inj hl).symm⟩
    rw [List.getElem?_eq_none (by rw [length_append, length_singleton]; omega)] at hl
    cases hl
  have hlt : ∀ (i : Nat) (l : Lock), queue[i]? = some l → i < queue.length := fun i l hl => (List.getElem?_eq_some_iff.1 hl).1
  refine ⟨⟨fun l hl => ?_, fun l hl => ?_, fun i j l l' hij hi hj hcon => ?_⟩, fun j w hw hwait _ => ?_⟩
  · rcases mem_append.1 hl with hl | hl
    · exact h.lined.only l hl
    rw [mem_singleton.1 hl]
    exact honly
  · rcases mem_append.1 hl with hl | hl
    · exact h.lined.intention l hl
    rw [mem_singleton.1 hl]
    exact hintention
  · rcases hget i l hi with hold | ⟨rfl, -⟩
    · rcases hget j l' hj with hold' | ⟨-, rfl⟩
      · exact h.lined.exclusive i j l l' hij hold hold' hcon
      · exact hconflict l (mem_of_getElem? hold) hcon
    rcases hget j l' hj with hold' | ⟨rfl, -⟩
    · exact absurd (hlt j l' hold') (by omega)
    · omega
  rcases hget j w hw with hj | ⟨rfl, rfl⟩
  · obtain ⟨i, l, hij, hi, hblocks⟩ := h.blocked j w hj hwait rfl
    exact ⟨i, l, hij, by rw [List.getElem?_append_left (hlt i l hi), hi], hblocks⟩
  obtain ⟨l, hl, hblocks⟩ := hblocked hwait
  obtain ⟨i, hi⟩ := mem_iff_getElem?.1 hl
  exact ⟨i, l, hlt i l hi, by rw [List.getElem?_append_left (hlt i l hi), hi], hblocks⟩

theorem getElem?_modify_eq_some {i : Nat} {l' : Lock} (h : (queue.modify k f)[i]? = some l') :
    ∃ l, queue[i]? = some l ∧ (i = k ∧ l' = f l ∨ i ≠ k ∧ l' = l) := by
  rw [List.getElem?_modify] at h
  obtain ⟨l, hl, rfl⟩ := Option.map_eq_some_iff.1 h
  refine ⟨l, hl, ?_⟩
  by_cases hi : k = i
  · exact .inl ⟨hi.symm, if_pos hi⟩
  · exact .inr ⟨Ne.symm hi, if_neg hi⟩

theorem getElem?_modify_self {l : Lock} (h : queue[k]? = some l) : (queue.modify k f)[k]? = some (f l) := by simp [h]

theorem getElem?_modify_ne {i : Nat} (hi : i ≠ k) : (queue.modify k f)[i]? = queue[i]? := by simp [Ne.symm hi]

theorem Ordered.setNthBit (h : Ordered queue) (hk : queue[k]? = some lock) (hlt : r < lock.bitmap.length)
    (hwait : lock.typeMode.wait = false) (hintention : lock.typeMode.insertIntention = false)
    (hfree : ∀ l ∈ queue, l.getNthBit r = true → r ≠ supremum → l.trx ≠ lock.trx → l.typeMode.gap = false →
      lock.typeMode.gap = false → lockModeCompatible l.typeMode.mode lock.typeMode.mode ≠ false) :
    Ordered (queue.modify k fun l => l.setNthBit r) := by
  have hget : ∀ (i : Nat) (l' : Lock), (queue.modify k fun l => l.setNthBit r)[i]? = some l' →
      i = k ∧ l' = lock.setNthBit r ∨ i ≠ k ∧ queue[i]? = some l' := by
    intro i l' hl'
    obtain ⟨l, hl, ⟨rfl, rfl⟩ | ⟨hi, rfl⟩⟩ := getElem?_modify_eq_some hl'
    · exact .inl ⟨rfl, by rw [Option.some.inj (hk.symm.trans hl)]⟩
    · exact .inr ⟨hi, hl⟩
  -- a conflict with the new bit is one that the lock has had before
  have hold : ∀ l ∈ queue, Conflict l (lock.setNthBit r) → Conflict l lock := by
    intro l hl hconflict
    obtain ⟨r', hr', hbit, hbit'⟩ := hconflict.common
    rcases (Lock.getNthBit_setNthBit hlt r').1 hbit' with rfl | hbit'
    · exact absurd hconflict.mode (hfree l hl hbit hr' hconflict.trx hconflict.gap hconflict.gap')
    · exact ⟨hconflict.trx, hconflict.mode, hconflict.gap, hconflict.gap', r', hr', hbit, hbit'⟩
  refine ⟨⟨fun l hl => ?_, fun l hl => ?_, fun i j l l' hij hi hj hconflict => ?_⟩, fun j w hw hwaits _ => ?_⟩
  · obtain ⟨i, hi⟩ := mem_iff_getElem?.1 hl
    rcases hget i l hi with ⟨-, rfl⟩ | ⟨-, hi⟩
    · intro htrue
      exact nomatch hwait.symm.trans htrue
    exact h.lined.only l (mem_of_getElem? hi)
  · obtain ⟨i, hi⟩ := mem_iff_getElem?.1 hl
    rcases hget i l hi with ⟨-, rfl⟩ | ⟨-, hi⟩
    · intro htrue
      exact nomatch hintention.symm.trans htrue
    exact h.lined.intention l (mem_of_getElem? hi)
  · rcases hget i l hi with ⟨rfl, rfl⟩ | ⟨-, hi'⟩ <;> rcases hget j l' hj with ⟨rfl, rfl⟩ | ⟨-, hj'⟩
    · omega
    · exact h.lined.exclusive i j lock l' hij hk hj' (hold l' (mem_of_getElem? hj') hconflict.symm).symm
    · exact h.lined.exclusive i j l lock hij hi' hk (hold l (mem_of_getElem? hi') hconflict)
    exact h.lined.exclusive i j l l' hij hi' hj' hconflict
  rcases hget j w hw with ⟨-, rfl⟩ | ⟨-, hj⟩
  · exact nomatch hwait.symm.trans hwaits
  obtain ⟨i, l, hij, hi, r', hbit, hbit', hhas⟩ := h.blocked j w hj hwaits rfl
  by_cases hik : i = k
  · subst hik
    obtain rfl := Option.some.inj (hk.symm.trans hi)
    exact ⟨i, lock.setNthBit r, hij, getElem?_modify_self hk, r', hbit, (Lock.getNthBit_setNthBit hlt r').2 (.inr hbit'), hhas⟩
  exact ⟨i, l, hij, (getElem?_modify_ne hik).trans hi, r', hbit, hbit', hhas⟩

theorem Ordered.resetNthBit (h : Ordered queue) (hk : queue[k]? = some lock) (hwait : lock.typeMode.wait = false) :
    Ordered (RecLock.grantLoop (fun l => l.getNthBit r) [] (queue.modify k fun l => l.resetNthBit r)) := by
  have hget : ∀ (i : Nat) (l' : Lock), (queue.modify k fun l => l.resetNthBit r)[i]? = some l' →
      ∃ l, queue[i]? = some l ∧ l'.trx = l.trx ∧ l'.typeMode = l.typeMode ∧
        (∀ r', l'.getNthBit r' = true → l.getNthBit r' = true) ∧ (l'.typeMode.wait = true → l' = l) := by
    intro i l' hl'
    obtain ⟨l, hl, ⟨rfl, rfl⟩ | ⟨-, rfl⟩⟩ := getElem?_modify_eq_some hl'
    · obtain rfl := Option.some.inj (hk.symm.trans hl)
      exact ⟨lock, hk, rfl, rfl, fun r' hbit => (Lock.getNthBit_resetNthBit.1 hbit).2,
        fun htrue => nomatch hwait.symm.trans htrue⟩
    exact ⟨l', hl, rfl, rfl, fun _ hbit => hbit, fun _ => rfl⟩
  refine Lined.grantLoop ⟨fun l' hl' hwaits => ?_, fun l' hl' hint hgap r' hbit => ?_, ?_⟩ ?_
  · obtain ⟨i, hi⟩ := mem_iff_getElem?.1 hl'
    obtain ⟨l, hl, -, -, -, heq⟩ := hget i l' hi
    obtain rfl := heq hwaits
    exact h.lined.only l' (mem_of_getElem? hl) hwaits
  · obtain ⟨i, hi⟩ := mem_iff_getElem?.1 hl'
    obtain ⟨l, hl, -, htype, hbits, -⟩ := hget i l' hi
    rw [htype] at hint hgap
    exact h.lined.intention l (mem_of_getElem? hl) hint hgap r' (hbits r' hbit)
  · intro i j l₁ l₂ hij hi hj hconflict
    obtain ⟨l, hl, htrx, htype, hbits, -⟩ := hget i l₁ hi
    obtain ⟨l', hl', htrx', htype', hbits', -⟩ := hget j l₂ hj
    obtain ⟨htrxs, hmode, hgap, hgap', r', hr', hbit, hbit'⟩ := hconflict
    rw [htrx, htrx'] at htrxs
    rw [htype, htype'] at hmode
    rw [htype] at hgap
    rw [htype'] at hgap' ⊢
    exact h.lined.exclusive i j l l' hij hl hl' ⟨htrxs, hmode, hgap, hgap', r', hr', hbits r' hbit, hbits' r' hbit'⟩
  intro j w hw hwaits hoff
  obtain ⟨w', hw', -, -, -, heq⟩ := hget j w hw
  obtain rfl := heq hwaits
  obtain ⟨i, l, hij, hi, r', hbit, hbit', hhas⟩ := h.blocked j w hw' hwaits rfl
  by_cases hik : i = k
  · subst hik
    obtain rfl := Option.some.inj (hk.symm.trans hi)
    -- the waiting lock is on another record than the one given up
    have hne : r' ≠ r := by
      rintro rfl
      exact absurd (hbit.symm.trans hoff) (by simp)
    exact ⟨i, lock.resetNthBit r, hij, getElem?_modify_self hk, r', hbit, Lock.getNthBit_resetNthBit.2 ⟨hne, hbit'⟩, hhas⟩
  exact ⟨i, l, hij, (getElem?_modify_ne hik).trans hi, r', hbit, hbit', hhas⟩

theorem Ordered.giveUp (h : Ordered queue) (hk : queue[k]? = some lock) (hlast : k + 1 = queue.length) (honly : lock.Only r) :
    Ordered (queue.modify k fun l => l.resetWait.resetNthBit r) := by
  have hnone : ∀ r', (lock.resetWait.resetNthBit r).getNthBit r' ≠ true := by
    intro r' hbit
    obtain ⟨hne, hbit⟩ := Lock.getNthBit_resetNthBit.1 hbit
    exact hne ((honly r').1 hbit)
  have hget : ∀ (i : Nat) (l' : Lock), (queue.modify k fun l => l.resetWait.resetNthBit r)[i]? = some l' →
      l' = lock.resetWait.resetNthBit r ∨ i < k ∧ queue[i]? = some l' := by
    intro i l' hl'
    obtain ⟨l, hl, ⟨rfl, rfl⟩ | ⟨hi, rfl⟩⟩ := getElem?_modify_eq_some hl'
    · exact .inl (by rw [Option.some.inj (hk.symm.trans hl)])
    have hlt := (List.getElem?_eq_some_iff.1 hl).1
    exact .inr ⟨by omega, hl⟩
  refine ⟨⟨fun l hl => ?_, fun l hl => ?_, fun i j l l' hij hi hj hconflict => ?_⟩, fun j w hw hwaits _ => ?_⟩
  · obtain ⟨i, hi⟩ := mem_iff_getElem?.1 hl
    rcases hget i l hi with rfl | ⟨-, hi⟩
    · exact fun htrue => absurd htrue Bool.false_ne_true
    · exact h.lined.only l (mem_of_getElem? hi)
  · obtain ⟨i, hi⟩ := mem_iff_getElem?.1 hl
    rcases hget i l hi with rfl | ⟨-, hi⟩
    · exact fun _ _ r' hbit => absurd hbit (hnone r')
    · exact h.lined.intention l (mem_of_getElem? hi)
  · obtain ⟨r', -, hbit, hbit'⟩ := hconflict.common
    rcases hget i l hi with rfl | ⟨-, hi⟩
    · exact absurd hbit (hnone r')
    rcases hget j l' hj with rfl | ⟨-, hj⟩
    · exact absurd hbit' (hnone r')
    · exact h.lined.exclusive i j l l' hij hi hj hconflict
  rcases hget j w hw with rfl | ⟨hjk, hj⟩
  · exact absurd hwaits Bool.false_ne_true
  obtain ⟨i, l, hij, hi, hblocks⟩ := h.blocked j w hj hwaits rfl
  exact ⟨i, l, hij, (getElem?_modify_ne (by omega)).trans hi, hblocks⟩

end Mysql51.Innodb.RecLock
