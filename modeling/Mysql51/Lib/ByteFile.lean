import Mysql51.Lib.Machine

/-!
# Files as lists of bytes

A write puts its bytes at an offset of the file; a gap before the offset is filled with zeros.
-/

namespace ByteFile

open Machine List

def writeAt (f : List UInt8) (p : Nat) (bs : List UInt8) : List UInt8 :=
  f.take p ++ List.replicate (p - f.length) 0 ++ bs ++ f.drop (p + bs.length)

variable {f g : List UInt8} {p : Nat} {bs : List UInt8}

theorem length_writeAt (f : List UInt8) (p : Nat) (bs : List UInt8) : (writeAt f p bs).length = max f.length (p + bs.length) := by
  simp only [writeAt, length_append, length_take, length_replicate, length_drop]
  omega

theorem getElem?_writeAt (f : List UInt8) (p : Nat) (bs : List UInt8) (i : Nat) : (writeAt f p bs)[i]? =
      if i < p then (if i < f.length then f[i]? else some 0) else if i < p + bs.length then bs[i - p]? else f[i]? := by
  have hfirst : (f.take p ++ List.replicate (p - f.length) 0).length = p := by
    rw [length_append, length_take, length_replicate]
    omega
  rw [writeAt, append_assoc, List.getElem?_append, hfirst]
  split
  case isTrue hlt =>
    rw [List.getElem?_append, length_take]
    by_cases hi : i < f.length
    · rw [if_pos (by omega), if_pos hi, List.getElem?_take, if_pos hlt]
    · rw [if_neg (by omega), if_neg hi, List.getElem?_replicate, if_pos (by omega)]
  case isFalse hge =>
    rw [List.getElem?_append]
    by_cases hi : i < p + bs.length
    · rw [if_pos (by omega), if_pos hi]
    rw [if_neg (by omega), if_neg hi, List.getElem?_drop]
    congr 1
    omega

theorem writeAt_append (f : List UInt8) (p : Nat) (as bs : List UInt8) :
    writeAt (writeAt f p as) (p + as.length) bs = writeAt f p (as ++ bs) := by
  apply ext_getElem?
  intro i
  simp only [getElem?_writeAt, length_writeAt, length_append, List.getElem?_append]
  grind

def Agree (f g : List UInt8) (i j : Nat) : Prop := ∀ k < j, i ≤ k → f[k]? = g[k]?

instance (f g : List UInt8) (i j : Nat) : Decidable (Agree f g i j) :=
  inferInstanceAs (Decidable (∀ k < j, i ≤ k → f[k]? = g[k]?))

variable {i j : Nat}

theorem Agree.mono (h : Agree f g i j) {i' j' : Nat} (hi : i ≤ i') (hj : j' ≤ j) : Agree f g i' j' :=
  fun k hk hik => h k (hk.trans_le hj) (hi.trans hik)

theorem agree_of_le (h : j ≤ i) : Agree f g i j := by
  intro k hk hik
  omega

theorem Agree.trans {f' : List UInt8} (h : Agree f g i j) (h' : Agree g f' i j) : Agree f f' i j :=
  fun k hk hik => (h k hk hik).trans (h' k hk hik)

theorem Agree.symm (h : Agree f g i j) : Agree g f i j := fun k hk hik => (h k hk hik).symm

theorem Agree.append {m : Nat} (h : Agree f g i m) (h' : Agree f g m j) : Agree f g i j := by
  intro k hk hik
  by_cases hm : k < m
  · exact h k hm hik
  · exact h' k hk (Nat.le_of_not_lt hm)

theorem Agree.slice_eq {n : Nat} (h : Agree f g i (i + n)) : slice f i n = slice g i n := by
  apply ext_getElem?
  intro k
  simp only [slice, List.getElem?_take, List.getElem?_drop]
  split
  · exact h (i + k) (by omega) (by omega)
  · rfl

theorem Agree.le_length (h : Agree f g i j) (hij : i < j) (hj : j ≤ g.length) : j ≤ f.length := by
  have hlast := h (j - 1) (by omega) (by omega)
  rw [List.getElem?_eq_getElem (show j - 1 < g.length by omega)] at hlast
  have := (List.getElem?_eq_some_iff.1 hlast).1
  omega

theorem agree_take {m : Nat} (h : j ≤ m) : Agree (f.take m) f i j := by
  intro k hk _
  rw [List.getElem?_take, if_pos (hk.trans_le h)]

theorem agree_writeAt_before (bs : List UInt8) (hp : p ≤ f.length) (hj : j ≤ p) : Agree (writeAt f p bs) f i j := by
  intro k hk _
  rw [getElem?_writeAt, if_pos (by omega), if_pos (by omega)]

theorem agree_writeAt_behind (hi : p + bs.length ≤ i) : Agree (writeAt f p bs) f i j := by
  intro k _ hik
  rw [getElem?_writeAt, if_neg (by omega), if_neg (by omega)]

theorem agree_writeAt_writeAt : Agree (writeAt f p bs) (writeAt g p bs) p (p + bs.length) := by
  intro k hk hpk
  have hge : ¬ k < p := Nat.not_lt.2 hpk
  simp only [getElem?_writeAt, if_neg hge, if_pos hk]

theorem slice_writeAt : slice (writeAt f p bs) p bs.length = bs := by
  apply ext_getElem?
  intro k
  simp only [slice, List.getElem?_take, List.getElem?_drop, getElem?_writeAt]
  split
  · rw [if_neg (by omega), if_pos (by omega)]
    congr 1
    omega
  rw [List.getElem?_eq_none (by omega)]

theorem agree_writeAt_slice (h : bs = slice g p bs.length) : Agree (writeAt f p bs) g p (p + bs.length) := by
  intro k hk hpk
  have hge : ¬ k < p := Nat.not_lt.2 hpk
  have hbyte := congrArg (·[k - p]?) h
  simp only [slice, List.getElem?_take, List.getElem?_drop, if_pos (show k - p < bs.length by omega),
    Nat.add_sub_cancel' hpk] at hbyte
  rw [getElem?_writeAt, if_neg hge, if_pos hk, hbyte]

end ByteFile
