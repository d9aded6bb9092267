import Mathlib.Data.Nat.Bitwise
import Mysql51.Myisam.PackedRow

/-!
# The bits of a packed row

The bits that `_mi_rec_pack` writes are the bits that `_mi_rec_unpack` reads, one for each column that has a bit, and no bit is
left over.
-/

namespace Mysql51.Myisam

open List

variable {w : BitWriter}

namespace BitWriter

/-- The bits below the next one are those that were pushed since the last full byte. -/
structure Ok (w : BitWriter) : Prop where
  bit : ∃ k < 8, w.bit = 2 ^ k
  flag : w.flag < w.bit

theorem ok_start : start.Ok := ⟨⟨0, by decide, rfl⟩, by decide⟩

def flagWith (w : BitWriter) (b : Bool) : Nat := if b then w.flag ||| w.bit else w.flag

theorem Ok.flagWith_eq (hw : w.Ok) (b : Bool) : w.flagWith b = w.flag + if b then w.bit else 0 := by
  obtain ⟨k, -, hk⟩ := hw.bit
  cases b with
  | false => rfl
  | true =>
    have hlt := hw.flag
    rw [hk] at hlt
    have hor := Nat.two_pow_add_eq_or_of_lt hlt 1
    rw [mul_one] at hor
    rw [flagWith, if_pos rfl, if_pos rfl, hk, Nat.lor_comm, ← hor, add_comm]

theorem push_full (h : 128 ≤ w.bit) (b : Bool) : w.push b = ⟨w.written ++ [UInt8.ofNat (w.flagWith b)], 0, 1⟩ :=
  if_pos (by rw [Nat.shiftLeft_eq]; omega)

theorem push_part (h : w.bit < 128) (b : Bool) : w.push b = ⟨w.written, w.flagWith b, 2 * w.bit⟩ := by
  rw [push, if_neg (by rw [Nat.shiftLeft_eq]; omega), Nat.shiftLeft_eq, mul_comm]
  rfl

section

variable {w : BitWriter} (hw : w.Ok)
include hw

theorem Ok.flagWith_lt (b : Bool) : w.flagWith b < 2 * w.bit := by
  have hlt := hw.flag
  rw [hw.flagWith_eq]
  split <;> omega

theorem Ok.flagWith_mod (b : Bool) : w.flagWith b % w.bit = w.flag := by
  rw [hw.flagWith_eq]
  split
  · rw [Nat.add_mod_right, Nat.mod_eq_of_lt hw.flag]
  · rw [add_zero, Nat.mod_eq_of_lt hw.flag]

theorem Ok.bit_le : w.bit ≤ 128 := by
  obtain ⟨k, hk8, hk⟩ := hw.bit
  rw [hk]
  exact Nat.pow_le_pow_right (by decide) (Nat.le_of_lt_succ hk8)

theorem Ok.toNat_flag : (UInt8.ofNat w.flag).toNat = w.flag := by
  have hlt := hw.flag
  have hle := hw.bit_le
  rw [UInt8.toNat_ofNat']
  exact Nat.mod_eq_of_lt (by omega)

theorem Ok.toNat_flagWith (b : Bool) : (UInt8.ofNat (w.flagWith b)).toNat = w.flagWith b := by
  have hlt := hw.flagWith_lt b
  have hle := hw.bit_le
  rw [UInt8.toNat_ofNat']
  exact Nat.mod_eq_of_lt (by omega)

theorem Ok.push (b : Bool) : (w.push b).Ok := by
  obtain ⟨k, hk8, hk⟩ := hw.bit
  by_cases hfull : 128 ≤ w.bit
  · rw [push_full hfull]
    exact ⟨⟨0, by decide, rfl⟩, Nat.one_pos⟩
  have hk7 : k < 7 := by
    by_contra hge
    have : (2 : Nat) ^ 7 ≤ 2 ^ k := Nat.pow_le_pow_right (by decide) (by omega)
    omega
  rw [push_part (by omega)]
  exact ⟨⟨k + 1, by omega, by rw [hk, pow_succ, mul_comm]⟩, hw.flagWith_lt b⟩

end

def pushAll (w : BitWriter) (bits : List Bool) : BitWriter := bits.foldl push w

theorem finish_pushAll (bits : List Bool) (hw : w.Ok) : ∃ more, (w.pushAll bits).finish = w.written ++ more ∧
      (w.bit ≠ 1 ∨ bits ≠ [] → ∃ x more', more = x :: more' ∧ x.toNat % w.bit = w.flag) := by
  induction bits generalizing w with
  | nil =>
    by_cases hbit : w.bit = 1
    · exact ⟨[], by rw [pushAll, foldl_nil, finish, if_neg (not_not.2 hbit), append_nil], by simp [hbit]⟩
    refine ⟨[UInt8.ofNat w.flag], if_pos hbit, fun _ => ⟨_, _, rfl, ?_⟩⟩
    rw [hw.toNat_flag, Nat.mod_eq_of_lt hw.flag]
  | cons b bits ih =>
    obtain ⟨more, hmore, hhead⟩ := ih (hw.push b)
    by_cases hfull : 128 ≤ w.bit
    · -- the byte is full with this bit
      rw [push_full hfull] at hmore
      refine ⟨UInt8.ofNat (w.flagWith b) :: more, ?_, fun _ => ⟨_, more, rfl, ?_⟩⟩
      · rw [pushAll, foldl_cons, push_full hfull]
        exact hmore.trans (by rw [append_assoc]; rfl)
      rw [hw.toNat_flagWith, hw.flagWith_mod]
    rw [push_part (by omega)] at hmore hhead
    obtain ⟨x, more', rfl, hx⟩ := hhead (.inl (by show 2 * w.bit ≠ 1; omega))
    refine ⟨x :: more', ?_, fun _ => ⟨x, more', rfl, ?_⟩⟩
    · rw [pushAll, foldl_cons, push_part (by omega)]
      exact hmore
    have hx' : x.toNat % (2 * w.bit) = w.flagWith b := hx
    have hmod : x.toNat % w.bit = x.toNat % (2 * w.bit) % w.bit := (Nat.mod_mul_left_mod _ _ _).symm
    rw [hmod, hx', hw.flagWith_mod]

theorem length_finish_pushAll (bits : List Bool) (hw : w.Ok) {k : Nat} (hk : w.bit = 2 ^ k) :
    (w.pushAll bits).finish.length = w.written.length + (k + bits.length + 7) / 8 := by
  induction bits generalizing w k with
  | nil =>
    have hk8 : k < 8 := by
      obtain ⟨j, hj, hj'⟩ := hw.bit
      have := Nat.pow_right_injective (le_refl 2) (hk.symm.trans hj')
      omega
    rw [pushAll, foldl_nil, finish, length_nil]
    by_cases h0 : k = 0
    · rw [if_neg (by rw [hk, h0]; decide), h0]
      rfl
    have hbit : w.bit ≠ 1 := by
      rw [hk]
      exact (Nat.one_lt_two_pow h0).ne'
    rw [if_pos hbit, length_append, length_singleton]
    omega
  | cons b bits ih =>
    rw [pushAll, foldl_cons]
    by_cases hfull : 128 ≤ w.bit
    · have hk7 : k = 7 := by
        obtain ⟨j, hj, hj'⟩ := hw.bit
        have hkj := Nat.pow_right_injective (le_refl 2) (hk.symm.trans hj')
        have : ¬k < 7 := fun hlt => by
          have : (2 : Nat) ^ k ≤ 2 ^ 6 := Nat.pow_le_pow_right (by decide) (by omega)
          omega
        omega
      have hrest := ih (hw.push b) (k := 0) (by rw [push_full hfull]; rfl)
      rw [pushAll] at hrest
      rw [hrest, push_full hfull, length_append, length_singleton, length_cons]
      omega
    have hrest := ih (hw.push b) (k := k + 1) (by rw [push_part (by omega), hk, pow_succ, mul_comm])
    rw [pushAll] at hrest
    rw [hrest, push_part (by omega), length_cons]
    show w.written.length + _ = _
    omega

end BitWriter

namespace BitReader

open BitWriter

/-- The reader stands where the writer stood when `bits` were still to come. -/
structure At (w : BitWriter) (bits : List Bool) (r : BitReader) : Prop where
  writer : w.Ok
  packpos : ∃ more rest, (w.pushAll bits).finish = w.written ++ more ∧ r.packpos = more ++ rest
  flag : r.flag = (r.packpos.headD 0).toNat
  bit : r.bit = w.bit

theorem at_start (bits : List Bool) (rest : List UInt8) : At .start bits (.start ((BitWriter.start.pushAll bits).finish ++ rest)) :=
  ⟨ok_start, ⟨_, rest, rfl, rfl⟩, rfl, rfl⟩

variable {w : BitWriter} {b : Bool} {bits : List Bool} {r : BitReader}

/-- The byte that is read holds the byte that is being filled together with the next bit. -/
theorem At.flag_mod_two (h : At w (b :: bits) r) : r.flag % (2 * w.bit) = w.flagWith b := by
  obtain ⟨more, rest, hmore, hpos⟩ := h.packpos
  rw [pushAll, foldl_cons] at hmore
  by_cases hfull : 128 ≤ w.bit
  · obtain ⟨more', hmore', -⟩ := finish_pushAll bits (h.writer.push b)
    rw [pushAll, hmore, push_full hfull, append_assoc] at hmore'
    rw [h.flag, hpos, append_cancel_left hmore']
    show (UInt8.ofNat (w.flagWith b)).toNat % _ = _
    rw [h.writer.toNat_flagWith, Nat.mod_eq_of_lt (h.writer.flagWith_lt b)]
  obtain ⟨more', hmore', hhead⟩ := finish_pushAll bits (h.writer.push b)
  rw [push_part (by omega)] at hmore hmore' hhead
  obtain ⟨x, tail, hx, hmod⟩ := hhead (.inl (by show 2 * w.bit ≠ 1; omega))
  rw [pushAll, hmore] at hmore'
  rw [h.flag, hpos, append_cancel_left hmore', hx]
  exact hmod

theorem At.flagged (h : At w (b :: bits) r) : r.flagged = b := by
  obtain ⟨k, -, hk⟩ := h.writer.bit
  have hmod := h.flag_mod_two
  have hlt := h.writer.flag
  rw [h.writer.flagWith_eq] at hmod
  have htest : r.flag.testBit k = b := by
    rw [Nat.testBit_eq_decide_div_mod_eq]
    have hdiv : r.flag / 2 ^ k % 2 = r.flag % (2 * 2 ^ k) / 2 ^ k := by
      rw [mul_comm, Nat.mod_mul_right_div_self]
    rw [hdiv, ← hk, hmod]
    have hpos : 0 < w.bit := by omega
    cases b with
    | false => simp [Nat.div_eq_of_lt hlt]
    | true => simp [Nat.add_div_right _ hpos, Nat.div_eq_of_lt hlt]
  rw [BitReader.flagged, h.bit, hk, Nat.and_two_pow, htest]
  cases b with
  | false => simp
  | true => simp

theorem At.next (h : At w (b :: bits) r) : At (w.push b) bits r.next := by
  obtain ⟨more, rest, hmore, hpos⟩ := h.packpos
  rw [pushAll, foldl_cons] at hmore
  by_cases hfull : 128 ≤ w.bit
  · obtain ⟨more', hmore', -⟩ := finish_pushAll bits (h.writer.push b)
    have hmore'' := hmore'
    rw [pushAll, hmore, push_full hfull, append_assoc] at hmore'
    have hcut := append_cancel_left hmore'
    have hnext : r.next = start r.packpos.tail := if_pos (by rw [h.bit, Nat.shiftLeft_eq]; omega)
    refine ⟨h.writer.push b, ⟨more', rest, hmore'', ?_⟩, ?_, ?_⟩
    · rw [hnext, hpos, hcut]
      rfl
    · rw [hnext]
      rfl
    rw [hnext, push_full hfull]
    rfl
  have hnext : r.next = { r with bit := r.bit <<< 1 } := if_neg (by rw [h.bit, Nat.shiftLeft_eq]; omega)
  rw [hnext]
  refine ⟨h.writer.push b, ⟨more, rest, ?_, hpos⟩, h.flag, ?_⟩
  · rw [pushAll, hmore, push_part (by omega)]
  · rw [push_part (by omega), h.bit, Nat.shiftLeft_eq, mul_comm]

theorem At.done (h : At w [] r) : r.done = true := by
  rw [BitReader.done, h.bit]
  by_cases hbit : w.bit = 1
  · simp [hbit]
  obtain ⟨more, rest, hmore, hpos⟩ := h.packpos
  have hfinish : w.written ++ [UInt8.ofNat w.flag] = w.written ++ more := (if_pos hbit).symm.trans hmore
  have hlt := h.writer.flag
  have hflag : r.flag = w.flag := by
    rw [h.flag, hpos, ← append_cancel_left hfinish]
    exact h.writer.toNat_flag
  obtain ⟨k, hk8, hk⟩ := h.writer.bit
  rw [hk] at hlt ⊢
  have hzero : w.flag &&& (4294967295 - (2 ^ k - 1)) = 0 := by
    apply Nat.eq_of_testBit_eq
    intro i
    have hpow : (2 : Nat) ^ k ≤ 2 ^ 8 := Nat.pow_le_pow_right (by decide) hk8.le
    have hmask : 4294967295 - (2 ^ k - 1) = 2 ^ 32 - ((2 ^ k - 1) + 1) := by omega
    rw [hmask]
    have hsub := Nat.testBit_two_pow_sub_succ (x := 2 ^ k - 1) (n := 32) (by omega) i
    rw [Nat.testBit_and, hsub, Nat.testBit_two_pow_sub_one, Nat.zero_testBit]
    by_cases hik : i < k
    · simp [hik]
    rw [Nat.testBit_eq_false_of_lt (lt_of_lt_of_le hlt (Nat.pow_le_pow_right (by decide) (by omega)))]
    rfl
  rw [hflag, hzero]
  exact Bool.or_true _

end BitReader

end Mysql51.Myisam
