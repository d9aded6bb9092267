import Mathlib.Data.Nat.Bitwise

/-!
# Partitions by linear hashing

The mask covers the smallest power of two that is not below the number of partitions, within 16 bits. A hash value is cut to it, and to half of
it if there is no such partition. A partition that is added takes its rows from the one that differs from it in the highest bit.
-/

namespace Mysql51.Partitioning

/-- The loop of `set_linear_hash_mask`; without fuel it has not ended. -/
def maskLoop (noParts : Nat) : Nat → Nat → Option Nat
  | 0, _ => none
  | fuel + 1, mask => if mask < noParts then maskLoop noParts fuel ((mask <<< 1) % 2 ^ 32) else some mask

/-- The mask is kept in 16 bits. -/
def setLinearHashMask (noParts : Nat) : Option Nat := (maskLoop noParts 32 1).map fun mask => (mask - 1) % 2 ^ 16

def getPartIdFromLinearHash (hashValue : BitVec 64) (mask noParts : Nat) : Nat :=
  let partId := (hashValue.toNat &&& mask) % 2 ^ 32
  if partId ≥ noParts then
    let newMask := ((mask + 1) >>> 1) - 1
    (hashValue.toNat &&& newMask) % 2 ^ 32
  else partId

theorem maskLoop_eq {noParts fuel i : Nat} (hparts : noParts ≤ 2 ^ 31) (hfuel : 32 ≤ fuel + i) (hi : i ≤ 31)
    (hbelow : i = 0 ∨ 2 ^ (i - 1) < noParts) :
    ∃ k ≤ 31, maskLoop noParts fuel (2 ^ i) = some (2 ^ k) ∧ noParts ≤ 2 ^ k ∧ (k = 0 ∨ 2 ^ (k - 1) < noParts) := by
  induction fuel generalizing i with
  | zero => omega
  | succ fuel ih =>
    rw [maskLoop]
    by_cases hless : 2 ^ i < noParts
    · have hnext : i + 1 ≤ 31 := (Nat.pow_lt_pow_iff_right (a := 2) (by decide)).1 (hless.trans_le hparts)
      have hshift : (2 ^ i <<< 1) % 2 ^ 32 = 2 ^ (i + 1) := by
        rw [Nat.shiftLeft_eq, pow_one, ← pow_succ]
        exact Nat.mod_eq_of_lt (Nat.pow_lt_pow_right (by decide) (by omega))
      rw [if_pos hless, hshift]
      exact ih (by omega) hnext (.inr (by simpa using hless))
    rw [if_neg hless]
    exact ⟨i, hi, rfl, not_lt.1 hless, hbelow⟩

theorem setLinearHashMask_eq {noParts : Nat} (hparts : noParts ≤ 2 ^ 16) : ∃ k ≤ 31,
    setLinearHashMask noParts = some (2 ^ k - 1) ∧ noParts ≤ 2 ^ k ∧ (k = 0 ∨ 2 ^ (k - 1) < noParts) := by
  obtain ⟨k, hk, hloop, hle, hhalf⟩ := @maskLoop_eq noParts 32 0 (by omega) (by decide) (by decide) (.inl rfl)
  have hpow : 2 ^ k ≤ 2 ^ 16 := by
    rcases hhalf with rfl | hhalf
    · decide
    have hlt := (Nat.pow_lt_pow_iff_right (a := 2) (by decide)).1 (hhalf.trans_le hparts)
    exact Nat.pow_le_pow_right (by decide) (by omega)
  have hpos := Nat.two_pow_pos k
  refine ⟨k, hk, ?_, hle, hhalf⟩
  rw [setLinearHashMask, ← pow_zero 2, hloop, Option.map_some, Nat.mod_eq_of_lt (by omega)]

theorem setLinearHashMask_large {noParts : Nat} (hlarge : 2 ^ 16 ≤ noParts) (hparts : noParts ≤ 2 ^ 31) :
    setLinearHashMask noParts = some (2 ^ 16 - 1) := by
  obtain ⟨k, hk, hloop, hle, -⟩ := @maskLoop_eq noParts 32 0 hparts (by decide) (by decide) (.inl rfl)
  have hbits := (Nat.pow_le_pow_iff_right (a := 2) (by decide)).1 (hlarge.trans hle)
  obtain ⟨j, rfl⟩ := Nat.exists_eq_add_of_le hbits
  have hpos := Nat.two_pow_pos j
  rw [setLinearHashMask, ← pow_zero 2, hloop, Option.map_some, pow_add]
  exact congrArg some (by omega)

theorem and_mask {k : Nat} (hk : k ≤ 31) (hashValue : Nat) : (hashValue &&& (2 ^ k - 1)) % 2 ^ 32 = hashValue % 2 ^ k := by
  rw [Nat.and_two_pow_sub_one_eq_mod]
  refine Nat.mod_eq_of_lt ((Nat.mod_lt _ (Nat.two_pow_pos k)).trans ?_)
  exact Nat.pow_lt_pow_right (by decide) (by omega)

/-- The partition of a hash value is its remainder by the power of two, or by half of it. -/
theorem getPartIdFromLinearHash_eq {k noParts : Nat} (hk : k ≤ 31) (hpos : 1 ≤ noParts) (hashValue : BitVec 64) :
    getPartIdFromLinearHash hashValue (2 ^ k - 1) noParts =
      if noParts ≤ hashValue.toNat % 2 ^ k then hashValue.toNat % 2 ^ (k - 1) else hashValue.toNat % 2 ^ k := by
  have hone := Nat.one_le_two_pow (n := k)
  rw [getPartIdFromLinearHash, and_mask hk, Nat.sub_add_cancel hone]
  cases k with
  | zero => rw [pow_zero, Nat.mod_one, if_neg (by omega), if_neg (by omega)]
  | succ k =>
    rw [pow_succ, Nat.shiftRight_one, Nat.mul_div_cancel _ (by decide), and_mask (by omega)]
    rfl

/-- There is a partition for every hash value, and one more partition takes all its rows from the same one. -/
theorem linearHash_moves (noParts : Nat) (hpos : 1 ≤ noParts) (hparts : noParts < 2 ^ 31) : ∃ mask mask' moved,
    setLinearHashMask noParts = some mask ∧ setLinearHashMask (noParts + 1) = some mask' ∧ ∀ hashValue : BitVec 64,
      getPartIdFromLinearHash hashValue mask noParts < noParts ∧
      (getPartIdFromLinearHash hashValue mask' (noParts + 1) = getPartIdFromLinearHash hashValue mask noParts ∨
        getPartIdFromLinearHash hashValue mask' (noParts + 1) = noParts) ∧
      (getPartIdFromLinearHash hashValue mask' (noParts + 1) = noParts →
        getPartIdFromLinearHash hashValue mask noParts = moved) := by
  by_cases hlarge : 2 ^ 16 ≤ noParts
  · -- the mask stays at 16 bits, so that no row moves
    have heq (noParts : Nat) (hlarge : 2 ^ 16 ≤ noParts) (hashValue : BitVec 64) :
        getPartIdFromLinearHash hashValue (2 ^ 16 - 1) noParts = hashValue.toNat % 2 ^ 16 := by
      rw [getPartIdFromLinearHash_eq (by decide) (by omega), if_neg (by omega)]
    refine ⟨_, _, 0, setLinearHashMask_large hlarge hparts.le, setLinearHashMask_large (by omega) hparts, fun hashValue => ?_⟩
    rw [heq _ hlarge, heq _ (by omega)]
    exact ⟨by omega, .inl rfl, by omega⟩
  obtain ⟨k, hk, hmask, hle, hhalf⟩ := @setLinearHashMask_eq noParts (by omega)
  obtain ⟨k', hk', hmask', hle', hhalf'⟩ := @setLinearHashMask_eq (noParts + 1) (by omega)
  refine ⟨_, _, noParts % 2 ^ (k' - 1), hmask, hmask', fun hashValue => ?_⟩
  rw [getPartIdFromLinearHash_eq hk hpos, getPartIdFromLinearHash_eq hk' (Nat.le_add_left 1 noParts)]
  generalize hashValue.toNat = h
  have hlt : h % 2 ^ k < 2 ^ k := Nat.mod_lt _ (Nat.two_pow_pos k)
  have hlt' : h % 2 ^ k' < 2 ^ k' := Nat.mod_lt _ (Nat.two_pow_pos k')
  rcases hhalf' with rfl | hhalf'
  · rw [pow_zero] at hle'
    omega
  obtain ⟨j, rfl⟩ : ∃ j, k' = j + 1 := ⟨k' - 1, by
    cases k' with
    | zero => rw [pow_zero] at hle'; omega
    | succ j => rfl⟩
  rw [Nat.add_sub_cancel] at hhalf' ⊢
  -- the lower bits of a value that is cut to `j + 1` bits are the value cut to `j` bits
  have hlow : h % 2 ^ (j + 1) % 2 ^ j = h % 2 ^ j := Nat.mod_mod_of_dvd h (Nat.pow_dvd_pow 2 (Nat.le_succ j))
  have hltj : h % 2 ^ j < 2 ^ j := Nat.mod_lt _ (Nat.two_pow_pos j)
  by_cases hsame : k = j + 1
  · subst hsame
    rw [Nat.add_sub_cancel] at hhalf ⊢
    have hmore : 2 ^ j < noParts := hhalf.resolve_left (Nat.succ_ne_zero j)
    by_cases hbehind : noParts ≤ h % 2 ^ (j + 1)
    · rw [if_pos hbehind]
      by_cases hmoved : h % 2 ^ (j + 1) = noParts
      · rw [if_neg (by omega), ← hmoved, hlow]
        exact ⟨by omega, .inr rfl, fun _ => rfl⟩
      · rw [if_pos (by omega)]
        exact ⟨by omega, .inl rfl, fun h => absurd h (by omega)⟩
    · rw [if_neg hbehind, if_neg (by omega)]
      exact ⟨by omega, .inl rfl, fun h => absurd h (by omega)⟩
  · -- the mask changes, so that there are `2 ^ j` partitions
    have hj : k = j := by
      have hup : k ≤ j + 1 := by
        rcases hhalf with rfl | hhalf
        · omega
        · have hpow : 2 ^ (k - 1) < 2 ^ (j + 1) := by omega
          have := (Nat.pow_lt_pow_iff_right (a := 2) (by decide)).1 hpow
          omega
      have hdown : j ≤ k := (Nat.pow_le_pow_iff_right (a := 2) (by decide)).1 (by omega : 2 ^ j ≤ 2 ^ k)
      omega
    subst hj
    rw [if_neg (by omega)]
    by_cases hbehind : noParts + 1 ≤ h % 2 ^ (k + 1)
    · rw [if_pos hbehind]
      exact ⟨by omega, .inl rfl, fun h => absurd h (by omega)⟩
    rw [if_neg hbehind]
    by_cases hmoved : h % 2 ^ (k + 1) = noParts
    · rw [hmoved] at hlow ⊢
      exact ⟨by omega, .inr rfl, fun _ => hlow.symm⟩
    · rw [Nat.mod_eq_of_lt (by omega)] at hlow
      exact ⟨by omega, .inl hlow, fun h => absurd h hmoved⟩

theorem linearHash_moves_six : ∃ mask mask' moved, setLinearHashMask 6 = some mask ∧ setLinearHashMask 7 = some mask' ∧
    ∀ hashValue : BitVec 64, getPartIdFromLinearHash hashValue mask 6 < 6 ∧
      (getPartIdFromLinearHash hashValue mask' 7 = getPartIdFromLinearHash hashValue mask 6 ∨
        getPartIdFromLinearHash hashValue mask' 7 = 6) ∧
      (getPartIdFromLinearHash hashValue mask' 7 = 6 → getPartIdFromLinearHash hashValue mask 6 = moved) :=
  linearHash_moves 6 (by decide) (by decide)

end Mysql51.Partitioning
