import Mathlib.Data.List.Basic
import Mathlib.Data.Nat.Digits.Defs

/-!
# Machine integers and their bytes

Fixed-width integers are `Int` or `Nat` with the reduction written out, so that arithmetic stays linear and each place
where a result is stored in a narrower type shows.
-/

namespace Machine

theorem some_bind_eq {α β : Type} (a : α) (f : α → Option β) : (some a >>= f) = f a := rfl

open List

/-- The value a 32-bit signed integer holds after `x` is stored in it. -/
def int32 (x : Int) : Int := (x + 2147483648) % 4294967296 - 2147483648

/-- The value a 32-bit unsigned integer holds after `x` is stored in it. -/
def uint32 (x : Int) : Nat := (x % 4294967296).toNat

variable {x : Int} {n i : Nat} {bs : List UInt8}

theorem int32_of_range (hlow : -2147483648 ≤ x) (hhigh : x < 2147483648) : int32 x = x := by
  unfold int32
  omega

theorem int32_range (x : Int) : -2147483648 ≤ int32 x ∧ int32 x < 2147483648 := by
  unfold int32
  omega

theorem uint32_of_range (hlow : 0 ≤ x) (hhigh : x < 4294967296) : (uint32 x : Int) = x := by
  unfold uint32
  omega

/-- The value a 64-bit signed integer holds after `x` is stored in it. -/
def int64 (x : Int) : Int := (x + 9223372036854775808) % 18446744073709551616 - 9223372036854775808

theorem int64_of_range (hlow : -9223372036854775808 ≤ x) (hhigh : x < 9223372036854775808) : int64 x = x := by
  unfold int64
  omega

def leBytes : Nat → Nat → List UInt8
  | 0, _ => []
  | n + 1, x => UInt8.ofNat x :: leBytes n (x / 256)

def ofLeBytes : List UInt8 → Nat
  | [] => 0
  | b :: bs => b.toNat + 256 * ofLeBytes bs

@[simp] theorem length_leBytes (n x : Nat) : (leBytes n x).length = n := by
  induction n generalizing x with
  | zero => rfl
  | succ n ih => simp [leBytes, ih]

theorem ofLeBytes_leBytes (n x : Nat) : ofLeBytes (leBytes n x) = x % 256 ^ n := by
  induction n generalizing x with
  | zero => simp [leBytes, ofLeBytes, Nat.mod_one]
  | succ n ih =>
    rw [leBytes, ofLeBytes, ih, UInt8.toNat_ofNat', pow_succ' 256 n, Nat.mod_mul]

theorem ofLeBytes_leBytes_of_lt {x : Nat} (hx : x < 256 ^ n) : ofLeBytes (leBytes n x) = x := by
  rw [ofLeBytes_leBytes, Nat.mod_eq_of_lt hx]

theorem ofLeBytes_append (as bs : List UInt8) : ofLeBytes (as ++ bs) = ofLeBytes as + 256 ^ as.length * ofLeBytes bs := by
  induction as with
  | nil => simp [ofLeBytes]
  | cons a as ih =>
    rw [cons_append, ofLeBytes, ofLeBytes, ih, length_cons, pow_succ']
    ring

theorem leBytes_ofLeBytes (bs : List UInt8) : leBytes bs.length (ofLeBytes bs) = bs := by
  induction bs with
  | nil => rfl
  | cons b bs ih =>
    have hb := b.toNat_lt
    have hhead : UInt8.ofNat (b.toNat + 256 * ofLeBytes bs) = b := by
      apply UInt8.toNat_inj.1
      rw [UInt8.toNat_ofNat']
      omega
    have hrest : (b.toNat + 256 * ofLeBytes bs) / 256 = ofLeBytes bs := by omega
    rw [length_cons, leBytes, ofLeBytes, hhead, hrest, ih]

theorem ofLeBytes_lt (bs : List UInt8) : ofLeBytes bs < 256 ^ bs.length := by
  induction bs with
  | nil => simp [ofLeBytes]
  | cons b bs ih =>
    have hb := b.toNat_lt
    rw [ofLeBytes, length_cons, pow_succ']
    omega

def int32Bytes (x : Int32) : List UInt8 := leBytes 4 x.toUInt32.toNat

def int32OfBytes (bs : List UInt8) : Int32 := (UInt32.ofNat (ofLeBytes bs)).toInt32

@[simp] theorem length_int32Bytes (x : Int32) : (int32Bytes x).length = 4 := length_leBytes 4 _

@[simp] theorem int32OfBytes_int32Bytes (x : Int32) : int32OfBytes (int32Bytes x) = x := by
  rw [int32OfBytes, int32Bytes, ofLeBytes_leBytes_of_lt x.toUInt32.toNat_lt, UInt32.ofNat_toNat, Int32.toInt32_toUInt32]

def slice (bs : List UInt8) (i n : Nat) : List UInt8 := (bs.drop i).take n

theorem slice_append_left {as : List UInt8} (h : i + n ≤ as.length) : slice (as ++ bs) i n = slice as i n := by
  unfold slice
  rw [drop_append_of_le_length (by omega), take_append_of_le_length (by rw [length_drop]; omega)]

theorem slice_append_right {as : List UInt8} (h : as.length ≤ i) : slice (as ++ bs) i n = slice bs (i - as.length) n := by
  unfold slice
  rw [drop_append, drop_of_length_le h, nil_append]

theorem slice_zero (h : bs.length = n) : slice bs 0 n = bs := by
  subst h
  exact take_length

theorem length_slice (bs : List UInt8) (i n : Nat) : (slice bs i n).length = min n (bs.length - i) := by
  rw [slice, length_take, length_drop]

theorem slice_append_slice (bs : List UInt8) (i m n : Nat) : slice bs i m ++ slice bs (i + m) n = slice bs i (m + n) := by
  rw [slice, slice, slice, ← drop_drop, take_add]

theorem take_slice (bs : List UInt8) (i m n : Nat) : (slice bs i n).take m = slice bs i (min m n) := take_take

theorem drop_slice (bs : List UInt8) (i m n : Nat) : (slice bs i n).drop m = slice bs (i + m) (n - m) := by
  rw [slice, slice, drop_take, drop_drop]

theorem slice_take {m : Nat} (h : i + n ≤ m) : slice (bs.take m) i n = slice bs i n := by
  rw [slice, slice, drop_take, take_take, min_eq_left (by omega)]

theorem slice_flatMap {α : Type*} {f : α → List UInt8} (hlen : ∀ x, (f x).length = n) {l : List α} (hi : i < l.length) :
    slice (l.flatMap f) (n * i) n = f l[i] := by
  induction l generalizing i with
  | nil => cases hi
  | cons x l ih =>
    rw [flatMap_cons]
    cases i with
    | zero =>
      rw [slice_append_left (by rw [hlen]; omega)]
      exact slice_zero (hlen x)
    | succ i =>
      have hstart : n * (i + 1) - (f x).length = n * i := by rw [hlen, Nat.mul_succ, Nat.add_sub_cancel]
      rw [slice_append_right (by rw [hlen]; exact Nat.le_mul_of_pos_right n i.succ_pos), hstart]
      exact ih (Nat.lt_of_succ_lt_succ hi)

end Machine
