import Mysql51.Lib.ByteFile

/-!
# The prefix of a bitmap

`bitmap_set_prefix` of `my_bitmap.c` sets the first bits of a bitmap and clears the others, byte by byte. It counts the bytes
to clear from the last full byte on, but starts behind the partial one.
-/

namespace Mysql51.Mysys

def bitmapBufferSize (bits : Nat) : Nat := (bits + 31) % 2 ^ 32 / 32 * 4

/-- A bitmap in a buffer of the size that `bitmap_init` allocates. -/
structure MyBitmap where
  bitmap : List UInt8
  nBits : Nat
  nBits_pos : 0 < nBits
  nBits_lt : nBits < 2 ^ 32
  size_eq : bitmap.length = bitmapBufferSize nBits

def noBytesInMap (nBits : Nat) : Nat := (nBits + 7) % 2 ^ 32 / 8

/-- `none` when a byte behind the buffer is written. -/
def memset (buf : List UInt8) (pos : Nat) (c : UInt8) (len : Nat) : Option (List UInt8) :=
  if len = 0 then some buf
  else if pos + len ≤ buf.length then some (ByteFile.writeAt buf pos (List.replicate len c)) else none

/-- `m` has moved behind the partial byte when the bytes to clear, counted from the last full one, are cleared. -/
def bitmapSetPrefix (map : MyBitmap) (prefixSize : Nat) : Option (List UInt8) := do
  let prefixSize := min prefixSize map.nBits
  let prefixBytes := prefixSize / 8
  let m ← memset map.bitmap 0 0xff prefixBytes
  let prefixBits := prefixSize % 8
  let m ← memset m prefixBytes (2 ^ prefixBits - 1).toUInt8 (if prefixBits ≠ 0 then 1 else 0)
  -- the difference of two unsigned numbers
  let d := (noBytesInMap map.nBits + 2 ^ 32 - prefixBytes) % 2 ^ 32
  memset m (prefixBytes + if prefixBits ≠ 0 then 1 else 0) 0 d

section

variable {buf : List UInt8} {pos len n : Nat} {c : UInt8} (hbuf : buf.length = n)
include hbuf

theorem isSome_memset : (memset buf pos c len).isSome ↔ len = 0 ∨ pos + len ≤ n := by
  unfold memset
  split <;> simp [*]

theorem isSome_memset_bind {f : List UInt8 → Option (List UInt8)} {p : Prop}
    (hf : ∀ m : List UInt8, m.length = n → ((f m).isSome ↔ p)) :
    (memset buf pos c len >>= f).isSome ↔ (len = 0 ∨ pos + len ≤ n) ∧ p := by
  unfold memset
  split
  case isTrue hzero => exact (hf buf hbuf).trans (and_iff_right (.inl hzero)).symm
  case isFalse hne =>
    rw [hbuf]
    split
    case isTrue hle =>
      refine (hf _ ?_).trans (and_iff_right (.inr hle)).symm
      rw [ByteFile.length_writeAt, List.length_replicate]
      omega
    case isFalse hgt => simp [hne, hgt]

end

/-- The byte that is cleared too much is behind the buffer when the last word has no unused byte. -/
theorem bitmapSetPrefix_inside_iff (map : MyBitmap) (prefixSize : Nat) (hle : prefixSize ≤ map.nBits) :
    (bitmapSetPrefix map prefixSize).isSome ↔
      map.nBits + 31 < 2 ^ 32 ∧ (prefixSize % 8 = 0 ∨ noBytesInMap map.nBits < bitmapBufferSize map.nBits) ∨
        prefixSize = 0 ∧ 2 ^ 32 ≤ map.nBits + 7 := by
  have hpos := map.nBits_pos
  have hlt := map.nBits_lt
  refine (isSome_memset_bind map.size_eq fun m hm => isSome_memset_bind hm fun m' hm' => isSome_memset hm').trans ?_
  simp only [bitmapBufferSize, noBytesInMap, min_eq_left hle]
  split <;> omega

def bitmap32 : MyBitmap := ⟨[0, 0, 0, 0], 32, by decide, by decide, rfl⟩

theorem bitmapSetPrefix_bitmap32 : 16 ≤ bitmap32.nBits ∧ (bitmapSetPrefix bitmap32 16).isSome :=
  ⟨by decide, (bitmapSetPrefix_inside_iff bitmap32 16 (by decide)).2 (by decide)⟩

/-- The first bit is set in byte 0, then bytes 1 to 4 are cleared. -/
theorem bitmapSetPrefix_bitmap32_one : 1 ≤ bitmap32.nBits ∧ bitmapSetPrefix bitmap32 1 = none := by
  decide

end Mysql51.Mysys
