import Mysql51.Lib.Machine

/-!
# Doubles that are not negative

A double is its pattern of bits. Patterns without a sign are ordered as the numbers that they stand for, up to infinity,
so the order here is that of the patterns. Arithmetic is exact arithmetic on rationals followed by one rounding.
-/

namespace Machine

def infBits : Nat := 0x7ff0000000000000

structure Double where
  bits : Nat
  bits_le : bits ≤ infBits
  deriving DecidableEq

namespace Double

theorem bits_injective : Function.Injective bits := by
  intro a b h
  cases a
  cases b
  cases h
  rfl

instance : LinearOrder Double := LinearOrder.lift' bits bits_injective

instance : Zero Double := ⟨⟨0, Nat.zero_le _⟩⟩

variable (a : Double)

theorem zero_le : 0 ≤ a := Nat.zero_le a.bits

theorem not_lt_zero : ¬a < 0 := Nat.not_lt_zero a.bits

def dblMax : Double := ⟨infBits - 1, Nat.sub_le _ _⟩

def toRat : Rat :=
  let fraction : Nat := a.bits % 2 ^ 52
  let exponent : Nat := a.bits / 2 ^ 52
  -- the patterns with exponent zero have no hidden bit and the scale of exponent one
  let mantissa : Nat := if exponent = 0 then fraction else fraction + 2 ^ 52
  mkRat (mantissa * 2 ^ (exponent - 1) : Nat) (2 ^ 1074)

def roundQuotient (n d : Nat) : Nat :=
  let q := n / d
  let r := n % d
  if d < 2 * r ∨ (d = 2 * r ∧ q % 2 = 1) then q + 1 else q

def roundRatio (n d : Nat) : Double :=
  -- a scale at which the quotient has 53 or 54 bits, and the next one if it has 54; no scale below that of exponent zero
  let coarse : Int := (n.log2 : Int) - d.log2 - 53
  let exact := if n * 2 ^ (-coarse).toNat / (d * 2 ^ coarse.toNat) < 2 ^ 53 then coarse else coarse + 1
  let scale := max exact (-1074)
  let mantissa := roundQuotient (n * 2 ^ (-scale).toNat) (d * 2 ^ scale.toNat)
  ⟨min infBits ((scale + 1074).toNat * 2 ^ 52 + mantissa), Nat.min_le_left _ _⟩

def round (q : Rat) : Double := if q = 0 then 0 else roundRatio q.num.toNat q.den

instance : Add Double := ⟨fun a b => round (a.toRat + b.toRat)⟩

instance : Mul Double := ⟨fun a b => round (a.toRat * b.toRat)⟩

instance : NatCast Double := ⟨fun n => round n⟩

example : (round (mkRat 2 100)).bits = 0x3f947ae147ae147b := by decide +kernel

example : ((1000000 : Nat) : Double) * round (mkRat 1 1000000) = round 1 := by decide +kernel

def toBytes : List UInt8 := leBytes 8 a.bits

/-- The double read from eight bytes; the patterns beyond infinity are not in use. -/
def ofBytes (bs : List UInt8) : Double := ⟨min infBits (ofLeBytes bs), Nat.min_le_left _ _⟩

@[simp] theorem length_toBytes : a.toBytes.length = 8 := length_leBytes 8 a.bits

@[simp] theorem ofBytes_toBytes : ofBytes a.toBytes = a := by
  apply bits_injective
  have hlt : a.bits < 256 ^ 8 := lt_of_le_of_lt a.bits_le (by decide)
  calc min infBits (ofLeBytes (leBytes 8 a.bits)) = min infBits a.bits := by rw [ofLeBytes_leBytes_of_lt hlt]
    _ = a.bits := min_eq_right a.bits_le

end Double

end Machine
