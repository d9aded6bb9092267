import Mathlib.Data.List.Basic

/-!
# Character classes of `latin1`

The table that `my_isdigit`, `my_isspace` and `my_ispunct` look a character up in.
-/

namespace Mysql51.Strings

def ctypeLatin1 : List Nat :=
  [0,
   32, 32, 32, 32, 32, 32, 32, 32, 32, 40, 40, 40, 40, 40, 32, 32,
   32, 32, 32, 32, 32, 32, 32, 32, 32, 32, 32, 32, 32, 32, 32, 32,
   72, 16, 16, 16, 16, 16, 16, 16, 16, 16, 16, 16, 16, 16, 16, 16,
   132, 132, 132, 132, 132, 132, 132, 132, 132, 132, 16, 16, 16, 16, 16, 16,
   16, 129, 129, 129, 129, 129, 129, 1, 1, 1, 1, 1, 1, 1, 1, 1,
   1, 1, 1, 1, 1, 1, 1, 1, 1, 1, 1, 16, 16, 16, 16, 16,
   16, 130, 130, 130, 130, 130, 130, 2, 2, 2, 2, 2, 2, 2, 2, 2,
   2, 2, 2, 2, 2, 2, 2, 2, 2, 2, 2, 16, 16, 16, 16, 32,
   16, 0, 16, 2, 16, 16, 16, 16, 16, 16, 1, 16, 1, 0, 1, 0,
   0, 16, 16, 16, 16, 16, 16, 16, 16, 16, 2, 16, 2, 0, 2, 1,
   72, 16, 16, 16, 16, 16, 16, 16, 16, 16, 16, 16, 16, 16, 16, 16,
   16, 16, 16, 16, 16, 16, 16, 16, 16, 16, 16, 16, 16, 16, 16, 16,
   1, 1, 1, 1, 1, 1, 1, 1, 1, 1, 1, 1, 1, 1, 1, 1,
   1, 1, 1, 1, 1, 1, 1, 16, 1, 1, 1, 1, 1, 1, 1, 2,
   2, 2, 2, 2, 2, 2, 2, 2, 2, 2, 2, 2, 2, 2, 2, 2,
   2, 2, 2, 2, 2, 2, 2, 16, 2, 2, 2, 2, 2, 2, 2, 2]

def inClass (bits : Nat) (c : UInt8) : Bool := ctypeLatin1.getD (c.toNat + 1) 0 &&& bits != 0

def isDigit (c : UInt8) : Bool := inClass 0x4 c

def isSpace (c : UInt8) : Bool := inClass 0x8 c

def isPunct (c : UInt8) : Bool := inClass 0x10 c

def digitOf (c : UInt8) : Nat := c.toNat - 48

def bytes (text : String) : List UInt8 := text.toList.map fun c => UInt8.ofNat c.toNat

theorem isDigit_iff (c : UInt8) : isDigit c = true ↔ 48 ≤ c.toNat ∧ c.toNat ≤ 57 := by
  have hall : ∀ n < 256, (ctypeLatin1.getD (n + 1) 0 &&& 0x4 != 0) = true ↔ 48 ≤ n ∧ n ≤ 57 := by decide +kernel
  exact hall c.toNat c.toNat_lt

theorem isDigit_of_isDelim {c : UInt8} (h : (isPunct c || isSpace c) = true) : isDigit c = false := by
  have hall : ∀ n < 256, ((ctypeLatin1.getD (n + 1) 0 &&& 0x10 != 0) || (ctypeLatin1.getD (n + 1) 0 &&& 0x8 != 0)) = true →
      (ctypeLatin1.getD (n + 1) 0 &&& 0x4 != 0) = false := by decide +kernel
  exact hall c.toNat c.toNat_lt h

theorem digitOf_lt {c : UInt8} (h : isDigit c = true) : digitOf c < 10 := by
  have hrange := (isDigit_iff c).1 h
  rw [digitOf]
  omega

end Mysql51.Strings
