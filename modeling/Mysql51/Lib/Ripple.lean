import Mathlib.Tactic.LinearCombination
import Mysql51.Lib.BigEndian

/-!
# Loops with a carry

A loop over the words of numbers, lowest first, that writes a word and hands a carry on at each step. When one step conserves
the value of what it reads, a whole run does: what it has written and the carry that it leaves are worth what it has read and
the carry that it was given.
-/

namespace Machine

open List

variable {α : Type}

/-- The words that a loop writes, lowest first, and the carry that it leaves. -/
def ripple (step : Nat → α → Nat × Nat) : Nat → List α → List Nat × Nat
  | carry, [] => ([], carry)
  | carry, x :: xs =>
    let (a, carry) := step carry x
    let (out, carry) := ripple step carry xs
    (a :: out, carry)

theorem ripple_cons (step : Nat → α → Nat × Nat) (carry : Nat) (x : α) (xs : List α) : ripple step carry (x :: xs) =
      ((step carry x).1 :: (ripple step (step carry x).2 xs).1, (ripple step (step carry x).2 xs).2) := rfl

def weigh (b : Nat) (w : α → ℤ) : List α → ℤ
  | [] => 0
  | x :: xs => w x + b * weigh b w xs

theorem ofBase_reverse_append (b : Nat) (us vs : List Nat) :
    ofBase b (us ++ vs).reverse = ofBase b us.reverse + b ^ us.length * ofBase b vs.reverse := by
  rw [reverse_append, ofBase_append, length_reverse]
  ring

theorem ofBase_reverse_cons (b w : Nat) (ws : List Nat) : ofBase b (w :: ws).reverse = w + b * ofBase b ws.reverse := by
  have happend := ofBase_reverse_append b [w] ws
  rw [singleton_append, length_singleton, pow_one, reverse_singleton, ofBase_cons, length_nil, pow_zero,
    mul_one, ofBase_nil, add_zero] at happend
  exact happend

/-- What a stretch of a loop has done: the words that it has written, from the lowest one up, and the carry that it leaves
are worth `total`. -/
structure Stretch (b k : Nat) (s : ℤ) (out : List Nat) (carry n : Nat) (total : ℤ) : Prop where
  length : out.length = n
  word : ∀ w ∈ out, w < b
  carry_le : carry ≤ k
  value : (ofBase b out.reverse : ℤ) + s * (b ^ n * carry) = total

section

variable {b k : Nat} {s : ℤ}

theorem Stretch.copy (ws : List Nat) (h : ∀ w ∈ ws, w < b) : Stretch b k s ws 0 ws.length (ofBase b ws.reverse) := by
  refine ⟨rfl, h, Nat.zero_le k, ?_⟩
  push_cast
  ring

theorem Stretch.append {out high : List Nat} {carry carry' n m : Nat} {total total' : ℤ}
    (h : Stretch b k s out carry n total) (h' : Stretch b k s high carry' m (total' + s * carry)) :
    Stretch b k s (out ++ high) carry' (n + m) (total + b ^ n * total') := by
  refine ⟨?_, fun w hw => ?_, h'.carry_le, ?_⟩
  · rw [length_append, h.length, h'.length]
  · exact (mem_append.1 hw).elim (h.word w) (h'.word w)
  have hlow := h.value
  have hhigh := h'.value
  rw [ofBase_reverse_append, h.length, pow_add]
  push_cast
  linear_combination hlow + (b : ℤ) ^ n * hhigh

theorem Stretch.zeroes {out : List Nat} {carry n : Nat} {total : ℤ} (h : Stretch b k s out carry n total) (hb : 0 < b)
    (m : Nat) : Stretch b k s (List.replicate m 0 ++ out) carry (m + n) ((b : ℤ) ^ m * total) := by
  have hzeroes := Stretch.copy (b := b) (k := k) (s := s) (List.replicate m 0) (fun w hw => (eq_of_mem_replicate hw) ▸ hb)
  rw [length_replicate] at hzeroes
  have hnext : Stretch b k s out carry n (total + s * (0 : Nat)) := by
    rw [Nat.cast_zero, mul_zero, add_zero]
    exact h
  have hboth := hzeroes.append hnext
  rw [reverse_replicate, ofBase_replicate_zero, Nat.cast_zero, zero_add] at hboth
  exact hboth

theorem Stretch.ripple (step : Nat → α → Nat × Nat) (w : α → ℤ) (xs : List α)
    (hstep : ∀ x ∈ xs, ∀ c ≤ k, (step c x).1 < b ∧ (step c x).2 ≤ k ∧
      ((step c x).1 : ℤ) + s * (b * (step c x).2) = w x + s * c) {c : Nat} (hc : c ≤ k) :
    Stretch b k s (ripple step c xs).1 (ripple step c xs).2 xs.length (weigh b w xs + s * c) := by
  induction xs generalizing c with
  | nil => exact ⟨rfl, by simp [Machine.ripple], hc, by simp [Machine.ripple, weigh]⟩
  | cons x xs ih =>
    obtain ⟨hword, hcarry, hvalue⟩ := hstep x mem_cons_self c hc
    have hrest := ih (fun y hy => hstep y (mem_cons_of_mem x hy)) hcarry
    rw [ripple_cons]
    refine ⟨by rw [length_cons, hrest.length, length_cons], fun v hv => ?_, hrest.carry_le, ?_⟩
    · exact (mem_cons.1 hv).elim (fun h => h ▸ hword) (hrest.word v)
    have htail := hrest.value
    rw [ofBase_reverse_cons, weigh, length_cons, pow_succ]
    push_cast
    linear_combination (b : ℤ) * htail + hvalue

theorem Stretch.of_nonneg {out : List Nat} {carry n : Nat} {total : ℤ} (h : Stretch b k (-1) out carry n total)
    (htotal : 0 ≤ total) : carry = 0 ∧ (ofBase b out.reverse : ℤ) = total := by
  have hvalue := h.value
  have hlt : ofBase b out.reverse < b ^ n := by
    have hlt := ofBase_lt (fun w hw => h.word w (mem_reverse.1 hw))
    rwa [length_reverse, h.length] at hlt
  have hzero : carry = 0 := by
    by_contra hne
    have hle : b ^ n * 1 ≤ b ^ n * carry := Nat.mul_le_mul_left _ (Nat.one_le_iff_ne_zero.2 hne)
    zify at hlt hle
    linarith
  rw [hzero, Nat.cast_zero, mul_zero, mul_zero, add_zero] at hvalue
  exact ⟨hzero, hvalue⟩

def rippleTrace (step : Nat → α → Nat × Nat) : Nat → List α → List (Nat × Nat)
  | _, [] => []
  | carry, x :: xs => step carry x :: rippleTrace step (step carry x).2 xs

theorem forall_rippleTrace {step : Nat → α → Nat × Nat} {xs : List α}
    (hstep : ∀ x ∈ xs, ∀ c ≤ k, (step c x).1 < b ∧ (step c x).2 ≤ k) {c : Nat} (hc : c ≤ k) :
    ∀ t ∈ rippleTrace step c xs, t.1 < b ∧ t.2 ≤ k := by
  induction xs generalizing c with
  | nil => simp [rippleTrace]
  | cons x xs ih =>
    have hhead := hstep x mem_cons_self c hc
    intro t ht
    rcases mem_cons.1 ht with rfl | ht
    · exact hhead
    · exact ih (fun y hy => hstep y (mem_cons_of_mem x hy)) hhead.2 t ht

end

theorem weigh_mul (b : Nat) (p : ℤ) (ws : List Nat) : weigh b (fun w : Nat => p * w) ws = p * ofBase b ws.reverse := by
  induction ws with
  | nil => simp [weigh]
  | cons w ws ih =>
    rw [weigh, ih, ofBase_reverse_cons]
    push_cast
    ring

theorem zip_take {us vs : List Nat} (h : vs.length ≤ us.length) : us.zip vs = (us.take vs.length).zip vs := by
  rw [zip_eq_zip_take_min, min_eq_right h, take_length]

/-- The weights of a loop over two numbers add up to the sum of multiples of the numbers. -/
theorem weigh_zip (b : Nat) (p q : ℤ) {us vs : List Nat} (h : us.length = vs.length) :
    weigh b (fun x : Nat × Nat => p * x.1 + q * x.2) (us.zip vs) = p * ofBase b us.reverse + q * ofBase b vs.reverse := by
  induction us generalizing vs with
  | nil =>
    rw [length_nil] at h
    rw [length_eq_zero_iff.1 h.symm]
    simp [weigh]
  | cons u us ih =>
    cases vs with
    | nil => cases h
    | cons v vs =>
      rw [zip_cons_cons, weigh, ih (Nat.succ.inj h), ofBase_reverse_cons, ofBase_reverse_cons]
      push_cast
      ring

end Machine
