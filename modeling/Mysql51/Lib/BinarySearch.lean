import Mathlib.Order.Lattice

/-!
# Binary searches over an index range

Two shapes of the search: for the first index at which a downward closed predicate fails, and for an index whose value
equals a given one, with the last index probed when there is none. Both carry fuel; the results are stated for every
amount that covers the range.
-/

namespace BinarySearch

/-- The search in `[lo, hi]`: the middle index and what is left of it goes when it is below. -/
def lowerBound (below : Nat → Bool) : Nat → Nat → Nat → Nat
  | 0, _, hi => hi
  | fuel + 1, lo, hi =>
    if lo < hi then
      if below ((hi + lo) / 2) then lowerBound below fuel ((hi + lo) / 2 + 1) hi
      else lowerBound below fuel lo ((hi + lo) / 2)
    else hi

section
variable {below : Nat → Bool} {fuel lo hi : Nat}

theorem lowerBound_mem (hle : lo ≤ hi) : lo ≤ lowerBound below fuel lo hi ∧ lowerBound below fuel lo hi ≤ hi := by
  induction fuel generalizing lo hi with
  | zero => exact ⟨hle, le_rfl⟩
  | succ fuel ih =>
    rw [lowerBound]
    split_ifs with hlt hbelow
    · have hright : (hi + lo) / 2 + 1 ≤ hi := by omega
      obtain ⟨hlow, hhigh⟩ := ih hright
      exact ⟨by omega, hhigh⟩
    · have hleft : lo ≤ (hi + lo) / 2 := by omega
      obtain ⟨hlow, hhigh⟩ := ih hleft
      exact ⟨hlow, by omega⟩
    exact ⟨hle, le_rfl⟩

theorem below_of_lt_lowerBound (hmono : ∀ i j, i ≤ j → j < hi → below j = true → below i = true) {i : Nat} (hlo : lo ≤ i)
    (hi' : i < lowerBound below fuel lo hi) (hfuel : hi - lo ≤ fuel) : below i = true := by
  induction fuel generalizing lo hi with
  | zero =>
    rw [lowerBound] at hi'
    omega
  | succ fuel ih =>
    rw [lowerBound] at hi'
    split_ifs at hi' with hlt hbelow
    · by_cases hmid : i ≤ (hi + lo) / 2
      · exact hmono i _ hmid (by omega) hbelow
      · exact ih hmono (by omega) hi' (by omega)
    · exact ih (fun i j hij hj => hmono i j hij (by omega)) hlo hi' (by omega)
    omega

theorem not_below_lowerBound (hfuel : hi - lo ≤ fuel) (hlt : lowerBound below fuel lo hi < hi) :
    below (lowerBound below fuel lo hi) = false := by
  induction fuel generalizing lo hi with
  | zero => exact absurd hlt (lt_irrefl hi)
  | succ fuel ih =>
    rw [lowerBound] at hlt ⊢
    split_ifs at hlt ⊢ with hlo hbelow
    · exact ih (by omega) hlt
    · by_cases hmid : lowerBound below fuel lo ((hi + lo) / 2) < (hi + lo) / 2
      · exact ih (by omega) hmid
      have hleft : lo ≤ (hi + lo) / 2 := by omega
      have hmem := @lowerBound_mem below fuel lo _ hleft
      rw [show lowerBound below fuel lo ((hi + lo) / 2) = (hi + lo) / 2 by omega]
      exact Bool.eq_false_iff.2 hbelow
    exact absurd hlt (lt_irrefl hi)

end

variable {α : Type*} [LinearOrder α]

/-- How the search for a value ends: at an index that holds it, or with the index probed last. -/
inductive Probe where
  | found (index : Nat)
  | missed (index : Nat)
deriving Repr, DecidableEq

def probeAt (value : Nat → α) (v : α) (rest : Nat → Nat → Probe) (lo hi mid : Nat) : Probe :=
  if value mid < v then
    if mid + 1 ≤ hi then rest (mid + 1) hi else .missed mid
  else if v < value mid then
    if mid = 0 then .missed mid
    else if lo ≤ mid - 1 then rest lo (mid - 1) else .missed mid
  else .found mid

/-- The search for `v` in `[lo, hi]`, both indices included, the range not being empty. -/
def probe (value : Nat → α) (v : α) : Nat → Nat → Nat → Probe
  | 0, lo, _ => .missed lo
  | fuel + 1, lo, hi =>
    probeAt value v (probe value v fuel) lo hi ((hi + lo) / 2)

section
variable {value : Nat → α} {v : α} {fuel lo hi m : Nat}

theorem probe_found (hprobe : probe value v fuel lo hi = .found m) (hle : lo ≤ hi) : value m = v ∧ lo ≤ m ∧ m ≤ hi := by
  induction fuel generalizing lo hi with
  | zero => cases hprobe
  | succ fuel ih =>
    rw [probe, probeAt] at hprobe
    split_ifs at hprobe with hless hright hmore hzero hleft
    · obtain ⟨hvalue, hlow, hhigh⟩ := ih hprobe hright
      exact ⟨hvalue, by omega, hhigh⟩
    · obtain ⟨hvalue, hlow, hhigh⟩ := ih hprobe hleft
      exact ⟨hvalue, hlow, by omega⟩
    cases hprobe
    exact ⟨le_antisymm (not_lt.1 hmore) (not_lt.1 hless), by omega, by omega⟩

/-- A search that misses ends at the place of `v` in an increasing range: what is before it is below `v`, the rest above. -/
theorem probe_missed (hprobe : probe value v fuel lo hi = .missed m)
    (hmono : ∀ i j, lo ≤ i → i < j → j ≤ hi → value i < value j) (hle : lo ≤ hi) (hfuel : hi - lo < fuel) :
    lo ≤ m ∧ m ≤ hi ∧ (∀ i, lo ≤ i → i < m → value i < v) ∧ (∀ i, m < i → i ≤ hi → v < value i) ∧ value m ≠ v := by
  induction fuel generalizing lo hi with
  | zero => omega
  | succ fuel ih =>
    rw [probe, probeAt] at hprobe
    generalize hmid : (hi + lo) / 2 = mid at hprobe
    split_ifs at hprobe with hless hright hmore hzero hleft
    · obtain ⟨hlow, hhigh, hbelow, habove, hne⟩ := ih hprobe (fun i j hi' => hmono i j (by omega)) hright (by omega)
      refine ⟨by omega, hhigh, fun i hlo hi' => ?_, habove, hne⟩
      rcases lt_trichotomy i mid with hlt | rfl | hgt
      · exact (hmono i mid hlo hlt (by omega)).trans hless
      · exact hless
      exact hbelow i hgt hi'
    · cases hprobe
      refine ⟨by omega, by omega, fun i hlo hi' => (hmono i _ hlo hi' (by omega)).trans hless, ?_, hless.ne⟩
      intro i hi' hhi
      omega
    · cases hprobe
      refine ⟨by omega, by omega, fun i hlo hi' => by omega, ?_, hmore.ne'⟩
      intro i hi' hhi
      exact hmore.trans (hmono _ i (by omega) hi' hhi)
    · obtain ⟨hlow, hhigh, hbelow, habove, hne⟩ :=
        ih hprobe (fun i j hi' hij hj => hmono i j hi' hij (by omega)) hleft (by omega)
      refine ⟨hlow, by omega, hbelow, fun i hi' hhi => ?_, hne⟩
      rcases lt_trichotomy i mid with hlt | rfl | hgt
      · exact habove i hi' (by omega)
      · exact hmore
      exact hmore.trans (hmono mid i (by omega) hgt hhi)
    cases hprobe
    refine ⟨by omega, by omega, fun i hlo hi' => by omega, ?_, hmore.ne'⟩
    intro i hi' hhi
    exact hmore.trans (hmono _ i (by omega) hi' hhi)

end

end BinarySearch
