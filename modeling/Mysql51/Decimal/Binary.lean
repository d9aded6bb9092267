import Mysql51.Decimal.Basic

/-!
# The binary format of decimals

`decimal2bin` writes a decimal in a format of fixed length for a precision and a scale, and `bin2decimal` reads it back.
-/

namespace Mysql51.Decimal

open Machine

def binSize (digits : Nat) : Nat := digits / digPerDec1 * 4 + dig2bytes (digits - digits / digPerDec1 * digPerDec1)

def decimalBinSize (precision scale : Nat) : Nat := binSize (precision - scale) + binSize scale

/-- The loop that takes further digits of the fraction into the same number of bytes. -/
def widen (i lim : Nat) : Nat → Nat → Nat
  | fuel + 1, frac1x => if frac1x < lim ∧ dig2bytes frac1x = i then widen i lim fuel (frac1x + 1) else frac1x
  | 0, frac1x => frac1x

def flipTop : List UInt8 → List UInt8
  | b :: bs => (b ^^^ 0x80) :: bs
  | [] => []

/-- The fraction that is written: its words of nine digits, the digits in the last word, `fsize0`, and the error. -/
def fitFrac (frac fromFrac : Nat) (error : Int) : Nat × Nat × Nat × Int :=
  let frac0 := frac / digPerDec1
  let frac0x := frac - frac0 * digPerDec1
  let frac1 := fromFrac / digPerDec1
  let frac1x := fromFrac - frac1 * digPerDec1
  let fsize0 := binSize frac
  let fsize1 := binSize fromFrac
  if fsize0 < fsize1 then (frac0, frac0x, fsize0, eDecTruncated)
  else if fsize1 < fsize0 ∧ 0 < frac1x then
    if frac0 = frac1 then (frac1, frac0x, fsize1, error) else (frac1 + 1, 0, fsize0, error)
  else (frac1, frac1x, fsize0, error)

def writeFirst (mask intg1x : Nat) (buf1 : List Nat) : List UInt8 × List Nat :=
  if 0 < intg1x then (beBytes (dig2bytes intg1x) ((buf1.headD 0 % powers10 intg1x) ^^^ mask), buf1.drop 1) else ([], buf1)

def writeLast (mask frac frac1 frac1x : Nat) (buf1 : List Nat) : List UInt8 :=
  let frac0 := frac / digPerDec1
  let frac0x := frac - frac0 * digPerDec1
  if 0 < frac1x then
    let i := dig2bytes frac1x
    let lim := if frac1 < frac0 then digPerDec1 else frac0x
    let frac1x := widen i lim digPerDec1 frac1x
    beBytes i ((buf1.headD 0 / powers10 (digPerDec1 - frac1x)) ^^^ mask)
  else []

/-- `decimal2bin` after its test for zero, with what that test may have set, `mask`, `intg` and `buf1`, and up to the last
change of the first byte. -/
def writeBin (mask intg : Nat) (buf1 : List Nat) (fromIntg fromFrac precision frac : Nat) : Int × List UInt8 :=
  let intg0 := (precision - frac) / digPerDec1
  let intg0x := (precision - frac) - intg0 * digPerDec1
  let isize0 := binSize (precision - frac)
  let fsize1 := binSize fromFrac
  let toEnd := binSize frac + isize0
  let pad (n : Nat) : List UInt8 := List.replicate n (UInt8.ofNat mask)
  let intg1 := fromIntg / digPerDec1
  let intg1x := fromIntg - intg1 * digPerDec1
  let isize1 := binSize fromIntg
  let (out, buf1, intg1, intg1x, error) :=
    if intg < fromIntg then
      ([], buf1.drop (intg1 + (if 0 < intg1x then 1 else 0) - (intg0 + if 0 < intg0x then 1 else 0)), intg0, intg0x,
        eDecOverflow)
    else (pad (isize0 - isize1), buf1, intg1, intg1x, eDecOk)
  let (frac1, frac1x, fsize0, error) := fitFrac frac fromFrac error
  let (first, buf1) := writeFirst mask intg1x buf1
  let out := out ++ first ++ (buf1.take (intg1 + frac1)).flatMap fun w => beBytes 4 (w ^^^ mask)
  let out := out ++ writeLast mask frac frac1 frac1x (buf1.drop (intg1 + frac1))
  let out := if fsize1 < fsize0 then out ++ pad (min (fsize0 - fsize1) (toEnd - out.length)) else out
  (error, out)

/-- `decimal2bin`: the error and the bytes written. The mask is the pattern of `-1` or zero. -/
def decimal2bin (d : DecimalT) (precision frac : Nat) : Int × List UInt8 :=
  let (buf1, fromIntg) := d.removeLeadingZeroes
  let (error, out) :=
    if fromIntg + binSize d.frac = 0 then writeBin 0 1 [0] fromIntg d.frac precision frac
    else writeBin (if d.sign then 0xffffffff else 0) (precision - frac) buf1 fromIntg d.frac precision frac
  (error, flipTop out)

/-- `mi_sint1korr` to `mi_sint4korr`: bytes as a signed number, in the 32-bit pattern of a word. -/
def miSintKorr (bs : List UInt8) : Nat :=
  let x := ofBeBytes bs
  if 128 * 256 ^ (bs.length - 1) ≤ x then x + 2 ^ 32 - 256 ^ bs.length else x

def fixIntgFracError (len intg1 frac1 : Nat) : Nat × Nat × Int :=
  if len < intg1 + frac1 then
    if len < intg1 then (len, 0, eDecOverflow) else (intg1, len - intg1, eDecTruncated)
  else (intg1, frac1, eDecOk)

theorem fixIntgFracError_fits {len intg1 frac1 : Nat} (h : intg1 + frac1 ≤ len) :
    fixIntgFracError len intg1 frac1 = (intg1, frac1, eDecOk) := by
  rw [fixIntgFracError, if_neg (by omega)]

def keepWord (buf : List Nat) (intg x digits : Nat) : List Nat × Nat :=
  if buf ≠ [] ∨ x ≠ 0 then (buf ++ [x], intg) else (buf, intg - digits)

def readFirst (mask intg0x : Nat) (src : List UInt8) (intg : Nat) : Option (List UInt8 × List Nat × Nat) :=
  if 0 < intg0x then
    let i := dig2bytes intg0x
    let x := miSintKorr (src.take i) ^^^ mask
    if powers10 (intg0x + 1) ≤ x then none
    else
      let (buf, intg) := keepWord [] intg x intg0x
      some (src.drop i, buf, intg)
  else some (src, [], intg)

/-- The loop of `bin2decimal` over the words of nine digits before the point. -/
def readIntg (mask : Nat) : Nat → List UInt8 → List Nat → Nat → Option (List UInt8 × List Nat × Nat)
  | 0, src, buf, intg => some (src, buf, intg)
  | n + 1, src, buf, intg =>
    let x := miSintKorr (src.take 4) ^^^ mask
    if digBase - 1 < x then none
    else
      let (buf, intg) := keepWord buf intg x digPerDec1
      readIntg mask n (src.drop 4) buf intg

def readFrac (mask : Nat) : Nat → List UInt8 → List Nat → Option (List UInt8 × List Nat)
  | 0, src, buf => some (src, buf)
  | n + 1, src, buf =>
    let x := miSintKorr (src.take 4) ^^^ mask
    if digBase - 1 < x then none else readFrac mask n (src.drop 4) (buf ++ [x])

def readLast (mask frac0x : Nat) (src : List UInt8) (buf : List Nat) : Option (List Nat) :=
  if 0 < frac0x then
    let x := (miSintKorr (src.take (dig2bytes frac0x)) ^^^ mask) * powers10 (digPerDec1 - frac0x) % 2 ^ 32
    if digBase - 1 < x then none else some (buf ++ [x])
  else some buf

def readBin (mask intg0 intg0x frac0 frac0x : Nat) (src : List UInt8) : Option DecimalT := do
  let (src, buf, intg) ← readFirst mask intg0x src (intg0 * digPerDec1 + intg0x)
  let (src, buf, intg) ← readIntg mask intg0 src buf intg
  let (src, buf) ← readFrac mask frac0 src buf
  let buf ← readLast mask frac0x src buf
  some ⟨intg, frac0 * digPerDec1 + frac0x, mask ≠ 0, buf⟩

def bin2decimal (src : List UInt8) (len precision scale : Nat) : Int × DecimalT :=
  let intg := precision - scale
  let intg0 := intg / digPerDec1
  let frac0 := scale / digPerDec1
  let intg0x := intg - intg0 * digPerDec1
  let frac0x := scale - frac0 * digPerDec1
  let intg1 := intg0 + if 0 < intg0x then 1 else 0
  let frac1 := frac0 + if 0 < frac0x then 1 else 0
  let mask := if 128 ≤ (src.headD 0).toNat then 0 else 0xffffffff
  let src := flipTop (src.take (decimalBinSize precision scale))
  let (fitIntg, fitFrac, error) := fixIntgFracError len intg1 frac1
  let read :=
    if error = eDecOk then readBin mask intg0 intg0x frac0 frac0x src
    else if fitIntg < intg1 then readBin mask fitIntg 0 0 0 (src.drop (dig2bytes intg0x + 4 * (intg0 - fitIntg)))
    else readBin mask intg0 intg0x fitFrac 0 src
  match read with
  | some d => (error, d)
  | none => (eDecBadNum, DecimalT.makeZero)

example : decimal2bin ⟨10, 4, false, [1, 234567890, 123400000]⟩ 14 4 =
    (eDecOk, [0x81, 0x0d, 0xfb, 0x38, 0xd2, 0x04, 0xd2]) := by decide +kernel

example : decimal2bin ⟨10, 4, true, [1, 234567890, 123400000]⟩ 14 4 =
    (eDecOk, [0x7e, 0xf2, 0x04, 0xc7, 0x2d, 0xfb, 0x2d]) := by decide +kernel

end Mysql51.Decimal
