import Mathlib.Data.List.DropRight
import Mathlib.Data.List.GetD
import Mathlib.Order.PiLex
import Mysql51.Lib.BigEndian

/-!
# Simple collations

A simple collation compares the weights of bytes, and a shorter string as if spaces followed. The hash of a key leaves out the
space characters at its end, but no other bytes of their weight. A sort key is filled up with space characters.
-/

namespace Mysql51.Strings

open Machine (memcmp)

/-- The loop over the rest of the longer string. -/
def endSpaceLoop (map : UInt8 → UInt8) (swap : Int) : List UInt8 → Int
  | [] => 0
  | c :: rest => if map c ≠ map 32 then if map c < map 32 then -swap else swap else endSpaceLoop map swap rest

/-- `my_strnncollsp_simple`, where strings that differ in spaces at their end are equal. -/
def myStrnncollspSimple (map : UInt8 → UInt8) : List UInt8 → List UInt8 → Int
  | a :: as, b :: bs => if map a ≠ map b then (map a).toNat - (map b).toNat else myStrnncollspSimple map as bs
  | as, [] => endSpaceLoop map 1 as
  | [], bs => endSpaceLoop map (-1) bs

def hashStep (nr : UInt64 × UInt64) (weight : UInt8) : UInt64 × UInt64 :=
  (nr.1 ^^^ ((nr.1 &&& (63 : UInt64)) + nr.2) * weight.toUInt64 + (nr.1 <<< (8 : UInt64)), nr.2 + 3)

def myHashSortSimple (sortOrder : UInt8 → UInt8) (key : List UInt8) (nr : UInt64 × UInt64) : UInt64 × UInt64 :=
  (key.rdropWhile (· == 32)).foldl (fun nr c => hashStep nr (sortOrder c)) nr

/-! ### The order -/

/-- The weights of a string that is followed by spaces. -/
def padded (map : UInt8 → UInt8) (a : List UInt8) : Lex (Nat → Nat) := toLex fun i => (map (a.getD i 32)).toNat

section Order

variable (map : UInt8 → UInt8) (a b : List UInt8) (c d : UInt8)

theorem padded_lt_cons : padded map (c :: a) < padded map (d :: b) ↔ map c < map d ∨ map c = map d ∧ padded map a < padded map b := by
  constructor
  · rintro ⟨i, hsame, hlt⟩
    cases i with
    | zero => exact .inl hlt
    | succ i =>
      exact .inr ⟨UInt8.toNat_inj.1 (hsame 0 i.succ_pos), i, fun j hj => hsame (j + 1) (Nat.succ_lt_succ hj), hlt⟩
  rintro (hlt | ⟨hfirst, i, hsame, hlt⟩)
  · exact ⟨0, fun j hj => absurd hj j.not_lt_zero, hlt⟩
  refine ⟨i + 1, fun j hj => ?_, hlt⟩
  cases j with
  | zero => exact congrArg UInt8.toNat hfirst
  | succ j => exact hsame j (Nat.lt_of_succ_lt_succ hj)

theorem padded_nil : padded map [] = padded map [32] := by
  funext i
  cases i <;> rfl

theorem endSpaceLoop_neg (swap : Int) : endSpaceLoop map (-swap) a = -endSpaceLoop map swap a := by
  induction a with
  | nil => rfl
  | cons c a ih =>
    rw [endSpaceLoop, endSpaceLoop]
    split_ifs
    · rfl
    · rfl
    exact ih

/-- The sign of a comparison is the order of the two strings with their spaces. -/
def Compares (res : Int) : Prop :=
  (res < 0 ↔ padded map a < padded map b) ∧ (0 < res ↔ padded map b < padded map a)

variable {map a b c d}

theorem Compares.swap {res : Int} (h : Compares map a b res) : Compares map b a (-res) :=
  ⟨Int.neg_neg_iff_pos.trans h.2, Int.neg_pos.trans h.1⟩

theorem Compares.nonpos_iff {res : Int} (h : Compares map a b res) : res ≤ 0 ↔ padded map a ≤ padded map b :=
  (not_lt.symm.trans (not_congr h.2)).trans not_lt

theorem Compares.eq_zero_iff {res : Int} (h : Compares map a b res) : res = 0 ↔ padded map a = padded map b := by
  have hnonneg : 0 ≤ res ↔ padded map b ≤ padded map a := (not_lt.symm.trans (not_congr h.1)).trans not_lt
  rw [Int.le_antisymm_iff, h.nonpos_iff, hnonneg, ← le_antisymm_iff]

theorem Compares.cons {res : Int} (h : Compares map a b res) (heq : map c = map d) : Compares map (c :: a) (d :: b) res := by
  have hirrefl : ¬ map d < map d := UInt8.lt_irrefl _
  rw [Compares, padded_lt_cons, padded_lt_cons, heq]
  simp only [hirrefl, false_or, true_and]
  exact h

theorem compares_cons_of_lt (h : map c < map d) {res : Int} (hres : res < 0) : Compares map (c :: a) (d :: b) res := by
  rw [Compares, padded_lt_cons, padded_lt_cons]
  refine ⟨iff_of_true hres (.inl h), iff_of_false (by omega) ?_⟩
  rintro (hlt | ⟨heq, -⟩)
  · exact UInt8.lt_asymm h hlt
  · exact UInt8.ne_of_lt h heq.symm

theorem compares_cons_of_ne (h : map c ≠ map d) {res : Int} (hneg : map c < map d → res < 0) (hpos : map d < map c → 0 < res) :
    Compares map (c :: a) (d :: b) res := by
  rcases UInt8.lt_or_lt_of_ne h with hlt | hgt
  · exact compares_cons_of_lt hlt (hneg hlt)
  have hswap := (@compares_cons_of_lt map b a d c hgt (-res) (by have := hpos hgt; omega)).swap
  rwa [Int.neg_neg] at hswap

theorem compares_endSpaceLoop : Compares map a [] (endSpaceLoop map 1 a) := by
  induction a with
  | nil => exact ⟨iff_of_false (Int.lt_irrefl 0) (lt_irrefl _), iff_of_false (Int.lt_irrefl 0) (lt_irrefl _)⟩
  | cons c a ih =>
    have hspace : Compares map (c :: a) [32] (endSpaceLoop map 1 (c :: a)) := by
      rw [endSpaceLoop]
      split_ifs with hne hlt
      · exact compares_cons_of_lt hlt (by decide)
      · exact compares_cons_of_ne hne (fun h => absurd h hlt) fun _ => by decide
      exact ih.cons (not_not.1 hne)
    rwa [Compares, ← padded_nil] at hspace

theorem compares_myStrnncollspSimple (map : UInt8 → UInt8) (a b : List UInt8) : Compares map a b (myStrnncollspSimple map a b) := by
  induction a, b using myStrnncollspSimple.induct map with
  | case1 c a d b hne =>
    rw [myStrnncollspSimple, if_pos hne]
    refine compares_cons_of_ne hne (fun h => ?_) fun h => ?_ <;>
    · rw [UInt8.lt_iff_toNat_lt] at h
      omega
  | case2 c a d b heq ih =>
    rw [myStrnncollspSimple, if_neg heq]
    exact ih.cons (not_not.1 heq)
  | case3 a =>
    rw [myStrnncollspSimple]
    exact compares_endSpaceLoop
  | case4 b hb =>
    rw [myStrnncollspSimple, endSpaceLoop_neg]
    · exact compares_endSpaceLoop.swap
    · exact hb

end Order

/-! ### The hash -/

theorem padded_rdropWhile (map : UInt8 → UInt8) (a : List UInt8) : padded map (a.rdropWhile (· == 32)) = padded map a := by
  induction a using List.reverseRecOn with
  | nil => rfl
  | append_singleton a c ih =>
    rw [List.rdropWhile_concat]
    split_ifs with hc
    · obtain rfl : c = 32 := eq_of_beq hc
      rw [ih]
      funext i
      refine congrArg (fun x => (map x).toNat) ?_
      rw [List.getD_eq_getElem?_getD, List.getD_eq_getElem?_getD]
      rcases Nat.lt_or_ge i a.length with hi | hi
      · rw [List.getElem?_append_left hi]
      rw [List.getElem?_eq_none hi, List.getElem?_append_right hi]
      rcases hsub : i - a.length with _ | k <;> rfl
    rfl

theorem myHashSortSimple_eq (map : UInt8 → UInt8) (key : List UInt8) (nr : UInt64 × UInt64) :
    myHashSortSimple map key nr = ((key.rdropWhile (· == 32)).map map).foldl hashStep nr := List.foldl_map.symm

/-- A string that does not end in a space is no longer than another one of the same weights, if only the space has its weight. -/
theorem length_le_of_padded {map : UInt8 → UInt8} (hspace : ∀ c, map c = map 32 → c = 32) {a b : List UInt8}
    (h : padded map (a.rdropWhile (· == 32)) = padded map b) : (a.rdropWhile (· == 32)).length ≤ b.length := by
  by_contra hlonger
  have hne : a.rdropWhile (· == 32) ≠ [] := by
    intro hnil
    rw [hnil] at hlonger
    exact hlonger (Nat.zero_le _)
  refine List.rdropWhile_last_not (· == 32) a hne (beq_iff_eq.2 (hspace _ (UInt8.toNat_inj.1 ?_)))
  have hlast : (map (_ : UInt8)).toNat = (map _).toNat := congrFun h ((a.rdropWhile (· == 32)).length - 1)
  rw [List.getD_eq_default b _ (by omega), List.getD_eq_getElem _ _ (by have := List.length_pos_iff.2 hne; omega)] at hlast
  rw [List.getLast_eq_getElem]
  exact hlast

theorem weights_eq_of_padded {map : UInt8 → UInt8} (hspace : ∀ c, map c = map 32 → c = 32) {a b : List UInt8}
    (h : padded map a = padded map b) : (a.rdropWhile (· == 32)).map map = (b.rdropWhile (· == 32)).map map := by
  have hdrop : padded map (a.rdropWhile (· == 32)) = padded map (b.rdropWhile (· == 32)) := by
    rw [padded_rdropWhile, padded_rdropWhile, h]
  have hlength := le_antisymm (length_le_of_padded hspace hdrop) (length_le_of_padded hspace hdrop.symm)
  refine List.ext_getElem (by simpa using hlength) fun i hi hi' => ?_
  rw [List.length_map] at hi hi'
  have hweight : (map (_ : UInt8)).toNat = (map _).toNat := congrFun hdrop i
  rw [List.getD_eq_getElem _ _ hi, List.getD_eq_getElem _ _ hi'] at hweight
  rw [List.getElem_map, List.getElem_map]
  exact UInt8.toNat_inj.1 hweight

/-- The comparison is a total preorder for every table. Strings that compare equal have the same hash exactly when no other byte
has the weight of the space. -/
theorem collation_hash (map : UInt8 → UInt8) :
    (∀ a b, (myStrnncollspSimple map a b).sign = -(myStrnncollspSimple map b a).sign) ∧
    (∀ a b c, myStrnncollspSimple map a b ≤ 0 → myStrnncollspSimple map b c ≤ 0 → myStrnncollspSimple map a c ≤ 0) ∧
    ((∀ a b nr, myStrnncollspSimple map a b = 0 → myHashSortSimple map a nr = myHashSortSimple map b nr) ↔
      ∀ c, map c = map 32 → c = 32) := by
  have hcompare := compares_myStrnncollspSimple map
  refine ⟨fun a b => ?_, fun a b c hab hbc => ?_, fun hhash c hc => ?_, fun hspace a b nr hab => ?_⟩
  · rcases lt_trichotomy (padded map a) (padded map b) with hlt | heq | hgt
    · rw [Int.sign_eq_neg_one_of_neg ((hcompare a b).1.2 hlt), Int.sign_eq_one_of_pos ((hcompare b a).2.2 hlt)]
    · rw [(hcompare a b).eq_zero_iff.2 heq, (hcompare b a).eq_zero_iff.2 heq.symm]
      rfl
    · rw [Int.sign_eq_one_of_pos ((hcompare a b).2.2 hgt), Int.sign_eq_neg_one_of_neg ((hcompare b a).1.2 hgt)]
      rfl
  · rw [(hcompare _ _).nonpos_iff] at *
    exact hab.trans hbc
  · by_contra hne
    have hequal : myStrnncollspSimple map [c] [] = 0 := by
      simp [myStrnncollspSimple, endSpaceLoop, hc]
    have hcount := congrArg Prod.snd (hhash [c] [] (0, 0) hequal)
    simp [myHashSortSimple, hashStep, List.rdropWhile, hne] at hcount
  · rw [myHashSortSimple_eq, myHashSortSimple_eq, weights_eq_of_padded hspace ((hcompare a b).eq_zero_iff.1 hab)]

/-- A table in which the no-break space has the weight of the space. -/
def noBreakTable (c : UInt8) : UInt8 := if c = 160 then 32 else c

theorem collation_hash_id : ∀ a b nr, myStrnncollspSimple id a b = 0 → myHashSortSimple id a nr = myHashSortSimple id b nr :=
  (collation_hash id).2.2.2 fun _ h => h

theorem noBreak_hash_ne : myStrnncollspSimple noBreakTable [65, 160] [65] = 0 ∧
    myHashSortSimple noBreakTable [65, 160] (1, 4) ≠ myHashSortSimple noBreakTable [65] (1, 4) := by
  decide +kernel

/-! ### Sort keys -/

/-- The weights of the first bytes, filled up with the space and not with its weight. -/
def myStrnxfrmSimple (map : UInt8 → UInt8) (len : Nat) (src : List UInt8) : List UInt8 :=
  (src.take len).map map ++ List.replicate (len - min len src.length) 32

theorem memcmp_eq {a b : List UInt8} (h : a.length = b.length) : memcmp a b = myStrnncollspSimple id a b := by
  induction a generalizing b with
  | nil =>
    rw [List.length_eq_zero_iff.1 h.symm]
    rfl
  | cons c a ih =>
    cases b with
    | nil => cases h
    | cons d b =>
      rw [memcmp, myStrnncollspSimple, ih (Nat.succ.inj h), ite_not]
      rfl

section

variable (map : UInt8 → UInt8) {len : Nat}

theorem memcmp_myStrnxfrmSimple (a b : List UInt8) : memcmp (myStrnxfrmSimple map len a) (myStrnxfrmSimple map len b) < 0 ↔
    padded id (myStrnxfrmSimple map len a) < padded id (myStrnxfrmSimple map len b) := by
  rw [memcmp_eq]
  · exact (compares_myStrnncollspSimple id _ _).1
  · simp [myStrnxfrmSimple]

variable {map}

theorem padded_myStrnxfrmSimple (hspace : map 32 = 32) {a : List UInt8} (hlen : a.length ≤ len) :
    padded id (myStrnxfrmSimple map len a) = padded map a := by
  refine congrArg toLex (funext fun i => congrArg UInt8.toNat ?_)
  rw [myStrnxfrmSimple, List.take_of_length_le hlen, id, List.getD_eq_getElem?_getD, List.getD_eq_getElem?_getD]
  by_cases hi : i < a.length
  · rw [List.getElem?_append_left (by simpa using hi), List.getElem?_map, List.getElem?_eq_getElem hi]
    rfl
  rw [List.getElem?_append_right (by simpa using hi), List.getElem?_replicate, List.getElem?_eq_none (by omega)]
  split_ifs <;> exact hspace.symm

end

/-- Sort keys are in the order of the strings exactly for the tables that keep the space. -/
theorem sortKeys_iff (map : UInt8 → UInt8) (len : Nat) : (∀ a b, a.length ≤ len → b.length ≤ len →
      (memcmp (myStrnxfrmSimple map len a) (myStrnxfrmSimple map len b) < 0 ↔ myStrnncollspSimple map a b < 0)) ↔
    len = 0 ∨ map 32 = 32 := by
  simp only [memcmp_myStrnxfrmSimple, (compares_myStrnncollspSimple map _ _).1]
  constructor
  · intro h
    by_contra hnot
    obtain ⟨hpos, hspace⟩ := not_or.1 hnot
    obtain ⟨len, rfl⟩ := Nat.exists_eq_add_one_of_ne_zero hpos
    -- a space and no byte at all compare equal
    have hle := not_lt.1 fun hlt => ((h [32] [] (by simp) (by simp)).1 hlt).ne' (padded_nil map)
    have hge := not_lt.1 fun hlt => ((h [] [32] (by simp) (by simp)).1 hlt).ne (padded_nil map)
    have hsame := hle.antisymm hge
    exact hspace (UInt8.toNat_inj.1 (congrFun hsame 0)).symm
  rintro (rfl | hspace) a b ha hb
  · rw [List.length_eq_zero_iff.1 (Nat.le_zero.1 ha), List.length_eq_zero_iff.1 (Nat.le_zero.1 hb)]
    exact iff_of_false (lt_irrefl _) (lt_irrefl _)
  rw [padded_myStrnxfrmSimple hspace ha, padded_myStrnxfrmSimple hspace hb]

theorem sortKeys_id : ∀ a b : List UInt8, a.length ≤ 4 → b.length ≤ 4 →
    (memcmp (myStrnxfrmSimple id 4 a) (myStrnxfrmSimple id 4 b) < 0 ↔ myStrnncollspSimple id a b < 0) :=
  (sortKeys_iff id 4).2 (.inr rfl)

end Mysql51.Strings
