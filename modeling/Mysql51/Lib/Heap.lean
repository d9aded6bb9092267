import Mathlib.Algebra.Order.Interval.Finset.SuccPred
import Mathlib.Data.Nat.SuccPred
import Mathlib.Order.Interval.Finset.Nat

/-!
# Binary heaps in an array

A heap in the places from one on, where the parent of place `i` is place `i / 2`. A loop that restores the order of a heap moves
a hole through it: every pair that does not touch the hole is in order, and so are the parent and the children of the hole.
-/

namespace Machine

open Function

variable {α : Type}

/-- What a comparison function has to satisfy: its sign is that of an order in which different things may be equal. -/
structure Comparison (cmp : α → α → Int) : Prop where
  swap : ∀ a b, cmp a b < 0 ↔ 0 < cmp b a
  trans : ∀ {a b c}, cmp a b ≤ 0 → cmp b c ≤ 0 → cmp a c ≤ 0

namespace Comparison

variable {cmp : α → α → Int} (h : Comparison cmp)
include h

theorem self (a : α) : cmp a a = 0 := by
  have hswap := h.swap a a
  omega

theorem not_lt {a b : α} : ¬ cmp a b < 0 ↔ cmp b a ≤ 0 := by
  rw [h.swap, Int.not_lt]

theorem neg : Comparison fun a b => cmp a b * -1 := by
  refine ⟨fun a b => ?_, fun {a b c} hab hbc => ?_⟩
  · have hswap := h.swap b a
    constructor <;> intro hlt <;> omega
  have hcb : cmp c b ≤ 0 := h.not_lt.1 (by omega)
  have hba : cmp b a ≤ 0 := h.not_lt.1 (by omega)
  have hnot := h.not_lt.2 (h.trans hcb hba)
  omega

end Comparison

def OrderedFrom (cmp : α → α → Int) (n k : Nat) (root : Nat → α) : Prop :=
  ∀ i, 2 ≤ i → i ≤ n → k ≤ i / 2 → cmp (root (i / 2)) (root i) ≤ 0

structure Holed (cmp : α → α → Int) (n k : Nat) (root : Nat → α) (hole : Nat) : Prop where
  off : ∀ i, 2 ≤ i → i ≤ n → k ≤ i / 2 → i ≠ hole → i / 2 ≠ hole → cmp (root (i / 2)) (root i) ≤ 0
  across : 2 ≤ hole → k ≤ hole / 2 → ∀ c, c ≤ n → c / 2 = hole → cmp (root (hole / 2)) (root c) ≤ 0

def Below (s i : Nat) : Prop := ∃ d, i / 2 ^ d = s

theorem Below.refl (s : Nat) : Below s s := ⟨0, Nat.div_one s⟩

theorem Below.le {s i : Nat} (h : Below s i) : s ≤ i := by
  obtain ⟨d, rfl⟩ := h
  exact Nat.div_le_self i _

theorem Below.child {s i c : Nat} (h : Below s i) (hc : c / 2 = i) : Below s c := by
  obtain ⟨d, rfl⟩ := h
  exact ⟨d + 1, by rw [pow_succ', ← Nat.div_div_eq_div_mul, hc]⟩

theorem Below.parent {s i : Nat} (h : Below s i) (hlt : s < i) : Below s (i / 2) := by
  obtain ⟨d, hd⟩ := h
  cases d with
  | zero => exact absurd hd (by rw [pow_zero, Nat.div_one]; omega)
  | succ d => exact ⟨d, by rw [Nat.div_div_eq_div_mul, ← pow_succ']; exact hd⟩

section

variable {cmp : α → α → Int} {n k : Nat} {root : Nat → α} {hole : Nat}

theorem OrderedFrom.holed (hcmp : Comparison cmp) (h : OrderedFrom cmp n k root) (hole : Nat) : Holed cmp n k root hole := by
  refine ⟨fun i hi hin hk _ _ => h i hi hin hk, fun htwo hk c hc hchild => ?_⟩
  exact hcmp.trans (h hole htwo (by omega) hk) (hchild ▸ h c (by omega) hc (by omega))

theorem Holed.down (h : Holed cmp n k root hole) (hhole : 1 ≤ hole) {c : Nat} (hc : c ≤ n) (hchild : c / 2 = hole)
    (hk : k ≤ hole) (hleast : ∀ s, s ≤ n → s / 2 = hole → cmp (root c) (root s) ≤ 0) :
    Holed cmp n k (update root hole (root c)) c := by
  refine ⟨fun i hi hin hki hic hpc => ?_, fun htwo _ s hs hgrand => ?_⟩
  · by_cases hih : i = hole
    · subst hih
      rw [update_self, update_of_ne (by omega)]
      exact h.across (by omega) hki c hc hchild
    rw [update_of_ne hih]
    by_cases hph : i / 2 = hole
    · rw [hph, update_self]
      exact hleast i hin hph
    rw [update_of_ne hph]
    exact h.off i hi hin hki hih hph
  rw [hchild, update_self, update_of_ne (by omega)]
  exact hgrand ▸ h.off s (by omega) hs (by omega) (by omega) (by omega)

theorem Holed.up (hcmp : Comparison cmp) (h : Holed cmp n k root hole) (hhole : 2 ≤ hole) (hn : hole ≤ n) (hk : k ≤ hole / 2) :
    Holed cmp n k (update root hole (root (hole / 2))) (hole / 2) := by
  refine ⟨fun i hi hin hki hip hpp => ?_, fun htwo hki s hs hchild => ?_⟩
  · have hih : i ≠ hole := fun heq => hpp (heq ▸ rfl)
    rw [update_of_ne hih]
    by_cases hph : i / 2 = hole
    · rw [hph, update_self]
      exact h.across hhole hk i hin hph
    rw [update_of_ne hph]
    exact h.off i hi hin hki hih hph
  have habove := h.off (hole / 2) htwo (by omega) hki (by omega) (by omega)
  rw [update_of_ne (by omega)]
  by_cases hsh : s = hole
  · rw [hsh, update_self]
    exact habove
  rw [update_of_ne hsh]
  exact hcmp.trans habove (hchild ▸ h.off s (by omega) hs (by omega) hsh (by omega))

theorem Holed.fill (h : Holed cmp n k root hole) {e : α} (habove : 2 ≤ hole → k ≤ hole / 2 → cmp (root (hole / 2)) e ≤ 0)
    (hbelow : ∀ c, 2 ≤ c → c ≤ n → c / 2 = hole → k ≤ hole → cmp e (root c) ≤ 0) : OrderedFrom cmp n k (update root hole e) := by
  intro i hi hin hki
  by_cases hih : i = hole
  · subst hih
    rw [update_self, update_of_ne (by omega)]
    exact habove hi hki
  rw [update_of_ne hih]
  by_cases hph : i / 2 = hole
  · rw [hph, update_self]
    exact hbelow i hi hin hph (by omega)
  rw [update_of_ne hph]
  exact h.off i hi hin hki hih hph

end

def bag (n : Nat) (root : Nat → α) : Multiset α := (Finset.Icc 1 n).val.map root

theorem bag_congr {n : Nat} {root root' : Nat → α} (h : ∀ i, 1 ≤ i → i ≤ n → root i = root' i) : bag n root = bag n root' := by
  refine Multiset.map_congr rfl fun i hi => ?_
  rw [Finset.mem_val] at hi
  have hmem := Finset.mem_Icc.1 hi
  exact h i hmem.1 hmem.2

theorem bag_succ (n : Nat) (root : Nat → α) : bag (n + 1) root = root (n + 1) ::ₘ bag n root := by
  have hinsert :=
    Finset.insert_Icc_right_eq_Icc_add_one (Nat.le_add_left 1 n)
  rw [bag, bag, ← hinsert, Finset.insert_val_of_notMem, Multiset.map_cons]
  rw [Finset.mem_Icc]
  omega

/-- A hole that is filled somewhere else, after what was there has been moved into it. -/
theorem bag_move {n hole c : Nat} (hhole : 1 ≤ hole ∧ hole ≤ n) (hc : 1 ≤ c ∧ c ≤ n) (hne : c ≠ hole) (root : Nat → α) (e : α) :
    bag n (update (update root hole (root c)) c e) = bag n (update root hole e) := by
  have hswap : update (update root hole (root c)) c e = update root hole e ∘ Equiv.swap hole c := by
    funext i
    by_cases hic : i = c
    · subst hic
      rw [update_self, comp_apply, Equiv.swap_apply_right, update_self]
    rw [update_of_ne hic]
    by_cases hih : i = hole
    · subst hih
      rw [update_self, comp_apply, Equiv.swap_apply_left, update_of_ne hne]
    rw [update_of_ne hih, comp_apply, Equiv.swap_apply_of_ne_of_ne hih hic, update_of_ne hih]
  have hperm : (Finset.Icc 1 n).map (Equiv.swap hole c).toEmbedding = Finset.Icc 1 n := by
    apply Finset.map_perm
    intro i hi
    by_contra hout
    apply hi
    apply Equiv.swap_apply_of_ne_of_ne
    · rintro rfl
      exact hout (Finset.mem_coe.2 (Finset.mem_Icc.2 hhole))
    rintro rfl
    exact hout (Finset.mem_coe.2 (Finset.mem_Icc.2 hc))
  rw [bag, bag, hswap, ← Multiset.map_map]
  congr 1
  exact congrArg Finset.val hperm

theorem bag_replace {n i : Nat} (hi : 1 ≤ i ∧ i ≤ n) (root : Nat → α) (e : α) :
    root i ::ₘ bag n (update root i e) = e ::ₘ bag n root := by
  have hfront (top : α) (f : Nat → α) : bag (n + 1) (update f (n + 1) top) = top ::ₘ bag n f := by
    rw [bag_succ, update_self, bag_congr fun j _ hj => update_of_ne (by omega) top f]
  have hback : update (update root (n + 1) e) i (root i) = update root (n + 1) e := by
    rw [update_comm (by omega), update_eq_self]
  have hmove := bag_move ⟨hi.1, Nat.le_succ_of_le hi.2⟩ ⟨Nat.le_add_left 1 n, Nat.le_refl _⟩
    (by omega) (update root (n + 1) e) (root i)
  rw [update_self, hfront, hback, hfront] at hmove
  rw [← hmove]
  congr 1
  refine bag_congr fun j _ hj => ?_
  by_cases hji : j = i
  · rw [hji, update_self, update_self]
  · rw [update_of_ne hji, update_of_ne hji, update_of_ne (by omega)]

end Machine
