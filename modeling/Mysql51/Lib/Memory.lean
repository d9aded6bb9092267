import Mathlib.Data.List.Basic

/-!
# Bytes at addresses

Memory as a function from addresses to bytes, with byte strings read from and written to it. What is read back after a write is
what was written, and a write leaves what is before and behind it.
-/

namespace Memory

open List

def fetch (m : Nat → UInt8) : Nat → Nat → List UInt8
  | _, 0 => []
  | pos, n + 1 => m pos :: fetch m (pos + 1) n

def store (m : Nat → UInt8) (pos : Nat) (bs : List UInt8) : Nat → UInt8 := fun p =>
  if pos ≤ p then (bs[p - pos]?).getD (m p) else m p

variable (m : Nat → UInt8)

@[simp] theorem fetch_zero (pos : Nat) : fetch m pos 0 = [] := rfl

@[simp] theorem length_fetch (pos n : Nat) : (fetch m pos n).length = n := by
  induction n generalizing pos with
  | zero => rfl
  | succ n ih => rw [fetch, length_cons, ih]

theorem fetch_add (pos a b : Nat) : fetch m pos (a + b) = fetch m pos a ++ fetch m (pos + a) b := by
  induction a generalizing pos with
  | zero => simp
  | succ a ih =>
    rw [Nat.add_right_comm, fetch, fetch, ih, cons_append, Nat.add_right_comm pos 1 a]
    rfl

theorem take_fetch {pos n k : Nat} (h : k ≤ n) : (fetch m pos n).take k = fetch m pos k := by
  obtain ⟨j, rfl⟩ := Nat.exists_eq_add_of_le h
  rw [fetch_add]
  exact take_left' (length_fetch m pos k)

theorem drop_fetch {pos n k : Nat} (h : k ≤ n) : (fetch m pos n).drop k = fetch m (pos + k) (n - k) := by
  obtain ⟨j, rfl⟩ := Nat.exists_eq_add_of_le h
  rw [fetch_add, Nat.add_sub_cancel_left]
  exact drop_left' (length_fetch m pos k)

theorem getElem?_fetch {pos n i : Nat} (hi : i < n) : (fetch m pos n)[i]? = some (m (pos + i)) := by
  induction n generalizing pos i with
  | zero => omega
  | succ n ih =>
    cases i with
    | zero => rfl
    | succ i =>
      rw [fetch, List.getElem?_cons_succ, ih (by omega), Nat.add_right_comm, Nat.add_assoc]

theorem fetch_congr {m m' : Nat → UInt8} {pos n : Nat} (h : ∀ p, pos ≤ p → p < pos + n → m p = m' p) :
    fetch m pos n = fetch m' pos n := by
  induction n generalizing pos with
  | zero => rfl
  | succ n ih =>
    rw [fetch, fetch, h pos (Nat.le_refl _) (by omega), ih fun p hle hlt => h p (by omega) (by omega)]

variable {m}

theorem store_before {pos p : Nat} (bs : List UInt8) (hp : p < pos) : store m pos bs p = m p := if_neg (by omega)

theorem store_after {pos p : Nat} {bs : List UInt8} (hp : pos + bs.length ≤ p) : store m pos bs p = m p := by
  rw [store, if_pos (by omega), List.getElem?_eq_none (by omega)]
  rfl

theorem store_inside {pos i : Nat} {bs : List UInt8} (hi : i < bs.length) : store m pos bs (pos + i) = bs[i] := by
  rw [store, if_pos (by omega), Nat.add_sub_cancel_left, List.getElem?_eq_getElem hi]
  rfl

theorem fetch_store (pos : Nat) (bs : List UInt8) : fetch (store m pos bs) pos bs.length = bs := by
  apply ext_getElem?
  intro i
  by_cases hi : i < bs.length
  · rw [getElem?_fetch _ hi, store_inside hi, List.getElem?_eq_getElem hi]
  · rw [List.getElem?_eq_none (by simpa using hi), List.getElem?_eq_none (by omega)]

theorem store_fetch {m' : Nat → UInt8} {pos q n j : Nat} (hj : j < n) : store m pos (fetch m' q n) (pos + j) = m' (q + j) := by
  have hget := @getElem?_fetch m' q n j hj
  rw [store_inside (by rwa [length_fetch])]
  exact (List.getElem?_eq_some_iff.1 hget).2

theorem fetch_store_before {pos p n : Nat} (bs : List UInt8) (h : p + n ≤ pos) : fetch (store m pos bs) p n = fetch m p n :=
  fetch_congr fun _ _ hlt => store_before bs (by omega)

theorem fetch_store_after {pos p n : Nat} {bs : List UInt8} (h : pos + bs.length ≤ p) :
    fetch (store m pos bs) p n = fetch m p n :=
  fetch_congr fun _ hle _ => store_after (by omega)

theorem fetch_store_append {pos n : Nat} (bs : List UInt8) :
    fetch (store m (pos + n) bs) pos (n + bs.length) = fetch m pos n ++ bs := by
  rw [fetch_add, fetch_store, fetch_store_before bs (Nat.le_refl _)]

theorem store_nil (pos : Nat) : store m pos [] = m := by
  funext p
  by_cases hp : p < pos
  · exact store_before [] hp
  · exact store_after (by simpa using hp)

theorem store_append (pos : Nat) (as bs : List UInt8) : store (store m pos as) (pos + as.length) bs = store m pos (as ++ bs) := by
  funext p
  simp only [store, getElem?_append, Nat.sub_sub]
  grind

theorem store_append_before (pos : Nat) (as bs : List UInt8) :
    store (store m (pos + as.length) bs) pos as = store m pos (as ++ bs) := by
  funext p
  simp only [store, getElem?_append, Nat.sub_sub]
  grind

theorem fetch_store_part (pos : Nat) (as bs cs : List UInt8) :
    fetch (store m pos (as ++ bs ++ cs)) (pos + as.length) bs.length = bs := by
  rw [← store_append, ← store_append, length_append, ← Nat.add_assoc, fetch_store_before cs (Nat.le_refl _), fetch_store]

theorem fetch_part {pos : Nat} {as bs cs : List UInt8} (h : fetch m pos (as ++ bs ++ cs).length = as ++ bs ++ cs) :
    fetch m (pos + as.length) bs.length = bs := by
  rw [length_append, length_append, fetch_add, fetch_add] at h
  have hfirst := append_inj h (by simp)
  exact (append_inj hfirst.1 (by simp)).2

theorem store_restore (pos : Nat) (b : UInt8) : store (store m pos [b]) pos [m pos] = m := by
  funext p
  rcases Nat.lt_trichotomy p pos with hlt | rfl | hgt
  · rw [store_before _ hlt, store_before _ hlt]
  · exact @store_inside _ _ 0 [m p] (by simp)
  rw [store_after hgt, store_after hgt]

end Memory
