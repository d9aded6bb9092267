import Mathlib.Data.List.TakeWhile

/-!
# The runs of a text

The maximal stretches of a list whose members all satisfy a test, and the number that a stretch of digits stands for.
-/

namespace Machine

open List

variable {α : Type}

def runs (p : α → Bool) (l : List α) : List (List α) := (l.splitOnP fun a => !p a).filter fun run => !run.isEmpty

section

variable {p : α → Bool}

@[simp] theorem runs_nil : runs p [] = [] := by
  rw [runs, splitOnP_nil]
  rfl

theorem runs_cons_of_not {a : α} (h : p a = false) (l : List α) : runs p (a :: l) = runs p l := by
  rw [runs, splitOnP_cons_eq_if_modifyHead, if_pos (by rw [h]; rfl), filter_cons_of_neg (by simp)]
  rfl

theorem runs_append_of_not {s : List α} (h : ∀ a ∈ s, p a = false) (l : List α) : runs p (s ++ l) = runs p l := by
  induction s with
  | nil => rfl
  | cons a s ih =>
    rw [cons_append, runs_cons_of_not (h a mem_cons_self)]
    exact ih fun b hb => h b (mem_cons_of_mem a hb)

theorem runs_cons {a : α} (h : p a = true) (l : List α) : runs p (a :: l) = (a :: l.takeWhile p) :: runs p (l.dropWhile p) := by
  have hrun : ∀ b ∈ a :: l.takeWhile p, (!p b) = false := by
    intro b hb
    obtain rfl | hb := mem_cons.1 hb
    · rw [h]
      rfl
    rw [mem_takeWhile_imp hb]
    rfl
  have hsplit : a :: l = a :: l.takeWhile p ++ l.dropWhile p := by
    rw [cons_append, takeWhile_append_dropWhile]
  rw [runs, hsplit]
  cases hrest : l.dropWhile p with
  | nil =>
    rw [append_nil, splitOnP_eq_singleton hrun, filter_cons_of_pos (by simp), runs_nil]
    rfl
  | cons b rest =>
    have hb : p b = false := by
      have hhead := head_dropWhile_not p (l := l) (by rw [hrest]; simp)
      simpa only [hrest, head_cons] using hhead
    rw [splitOnP_append_cons_of_forall_mem hrun b (by rw [hb]; rfl), filter_cons_of_pos (by simp), runs_cons_of_not hb]
    rfl

end

def decimalOf (ds : List Nat) : Nat := ds.foldl (fun v d => v * 10 + d) 0

/-- A number that is built up in a machine word is the number modulo the size of the word. -/
theorem foldl_mod (m : Nat) (ds : List Nat) (v : Nat) :
    ds.foldl (fun v d => (v * 10 + d) % m) (v % m) = ds.foldl (fun v d => v * 10 + d) v % m := by
  induction ds generalizing v with
  | nil => rfl
  | cons d ds ih =>
    rw [foldl_cons, foldl_cons, ← ih]
    congr 1
    rw [Nat.add_mod, Nat.mul_mod, Nat.mod_mod, ← Nat.mul_mod, ← Nat.add_mod]

end Machine
