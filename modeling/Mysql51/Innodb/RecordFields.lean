import Mathlib.Data.Nat.Bitwise
import Mysql51.Innodb.Record

/-!
# Fields of compact records

How one field is written to a compact record and read from it. The null bits and the lengths grow downwards from the header
through pointers of their own, which the two sides move alike.
-/

namespace Mysql51.Innodb

open Machine Memory List

variable {m : Nat → UInt8} {base k : Nat}

def nullBit (m : Nat → UInt8) (base k : Nat) : Bool := (m (base - k / 8)).toNat.testBit (k % 8)

theorem and_two_pow_ne_zero {n i : Nat} : n &&& 2 ^ i ≠ 0 ↔ n.testBit i = true := by
  rw [Nat.and_two_pow]
  cases n.testBit i <;> simp

theorem or_and_mask {x flag mask i : Nat} (hx : x < 2 ^ i) (hmask : (2 ^ i - 1) &&& mask = 2 ^ i - 1) (hflag : flag &&& mask = 0) :
    (x ||| flag) &&& mask = x := by
  have hself : x &&& (2 ^ i - 1) = x := by rw [Nat.and_two_pow_sub_one_eq_mod, Nat.mod_eq_of_lt hx]
  rw [Nat.and_or_distrib_right, hflag, Nat.or_zero]
  nth_rewrite 1 [← hself]
  rw [Nat.and_assoc, hmask, hself]

theorem and_mask_ne_zero : machReadFrom1 m (base - k / 8) &&& 2 ^ (k % 8) ≠ 0 ↔ nullBit m base k = true := and_two_pow_ne_zero

def NullAt (base k nulls nullMask : Nat) : Prop := nextNull nulls nullMask = (base - k / 8, 2 ^ (k % 8))

theorem nullAt_zero (base : Nat) : NullAt base 0 base 1 := rfl

theorem nullAt_succ (base k : Nat) : NullAt base (k + 1) (base - k / 8) (2 ^ (k % 8) <<< 1) := by
  have hmask : 2 ^ (k % 8) <<< 1 = 2 ^ (k % 8 + 1) := by rw [Nat.shiftLeft_eq, pow_one, pow_succ]
  rw [NullAt, hmask]
  have hlt : k % 8 < 8 := Nat.mod_lt _ (by decide)
  by_cases hlast : k % 8 = 7
  · have hnext : (k + 1) % 8 = 0 ∧ (k + 1) / 8 = k / 8 + 1 := by omega
    rw [nextNull, hlast, if_pos (by decide), hnext.1, hnext.2, Nat.sub_add_eq, pow_zero]
  have hnext : (k + 1) % 8 = k % 8 + 1 ∧ (k + 1) / 8 = k / 8 := by omega
  have hbyte : 2 ^ (k % 8 + 1) < 256 := Nat.pow_lt_pow_right (by decide) (by omega : k % 8 + 1 < 8)
  have hpos := Nat.two_pow_pos (k % 8 + 1)
  rw [nextNull, if_neg (by rw [Nat.mod_eq_of_lt hbyte]; omega), hnext.1, hnext.2]

theorem nullBit_set {j : Nat} (hk : k / 8 ≤ base) (hj : j / 8 ≤ base) :
    nullBit (store m (base - k / 8) [UInt8.ofNat (machReadFrom1 m (base - k / 8) ||| 2 ^ (k % 8))]) base j =
      (nullBit m base j || decide (j = k)) := by
  have hbyte : UInt8.toNat (UInt8.ofNat (machReadFrom1 m (base - k / 8) ||| 2 ^ (k % 8))) =
      machReadFrom1 m (base - k / 8) ||| 2 ^ (k % 8) := by
    rw [UInt8.toNat_ofNat']
    refine Nat.mod_eq_of_lt (Nat.or_lt_two_pow (UInt8.toNat_lt _) ?_)
    exact Nat.pow_lt_pow_right (by decide) (Nat.mod_lt k (by decide))
  by_cases hsame : j / 8 = k / 8
  · have hat := @store_inside m (base - k / 8) 0 [UInt8.ofNat (machReadFrom1 m (base - k / 8) ||| 2 ^ (k % 8))] (by simp)
    rw [nullBit, nullBit, hsame]
    rw [add_zero] at hat
    rw [hat, getElem_cons_zero, hbyte, Nat.testBit_or, Nat.testBit_two_pow, machReadFrom1]
    congr 2
    exact propext ⟨fun h => by omega, fun h => by omega⟩
  have hne : decide (j = k) = false := decide_eq_false fun h => hsame (by rw [h])
  have hother : store m (base - k / 8) [UInt8.ofNat (machReadFrom1 m (base - k / 8) ||| 2 ^ (k % 8))] (base - j / 8) =
      m (base - j / 8) := by
    rcases Nat.lt_or_gt_of_ne hsame with hlt | hgt
    · exact store_after (by rw [length_singleton]; omega)
    · exact store_before _ (by omega)
  rw [nullBit, hother, hne, Bool.or_false, nullBit]

theorem nullBit_congr {m' : Nat → UInt8} (h : m' (base - k / 8) = m (base - k / 8)) : nullBit m' base k = nullBit m base k := by
  rw [nullBit, h, nullBit]

section

variable {rec : Nat}

theorem recGetBitField1_set (offs : Nat) {val mask : Nat} (hmask : mask < 256) (hval : val &&& mask = val) :
    recGetBitField1 (recSetBitField1 m rec val offs mask 0) rec offs mask 0 = val := by
  have hat := @store_inside m (rec - offs) 0 [(m (rec - offs) &&& ~~~ UInt8.ofNat mask) ||| UInt8.ofNat (val <<< 0)] (by simp)
  rw [add_zero] at hat
  have hsmall : val < 256 := by
    rw [← hval]
    exact lt_of_le_of_lt Nat.and_le_right hmask
  rw [recGetBitField1, machReadFrom1, recSetBitField1, hat]
  apply Nat.eq_of_testBit_eq
  intro i
  have hvali : (val.testBit i && mask.testBit i) = val.testBit i := by rw [← Nat.testBit_and, hval]
  have hnot : (~~~ UInt8.ofNat mask).toNat = 2 ^ 8 - (mask + 1) := by
    rw [UInt8.toNat_not, UInt8.toNat_ofNat', Nat.mod_eq_of_lt hmask, Nat.sub_sub, add_comm]
    rfl
  rw [getElem_cons_zero, Nat.shiftRight_zero, Nat.shiftLeft_zero, UInt8.toNat_or, UInt8.toNat_and, hnot, UInt8.toNat_ofNat',
    Nat.mod_eq_of_lt hsmall, Nat.testBit_and, Nat.testBit_or, Nat.testBit_and, Nat.testBit_two_pow_sub_succ hmask, ← hvali]
  cases mask.testBit i <;> simp

theorem recSetBitField1_of_ne {offs val mask shift p : Nat} (hp : p ≠ rec - offs) :
    recSetBitField1 m rec val offs mask shift p = m p := by
  rcases Nat.lt_or_gt_of_ne hp with hlt | hgt
  · exact store_before _ hlt
  · exact store_after hgt

end

/-- A field of a tuple is one of the index: the types are the same, and `NULL` and the length are allowed. -/
structure DField.Conforms (field : DictField) (dfield : DField) : Prop where
  type : dfield.type = field.col
  null : dfield.data = none → field.col.nullable = true
  short : ∀ data, dfield.data = some data → data.length < 16384
  fixed : ∀ data, dfield.data = some data → field.fixedLen ≠ 0 → data.length = field.fixedLen
  fits : ∀ data, dfield.data = some data → field.fixedLen = 0 → data.length ≤ field.col.len ∨ field.col.mtype = dataBlob

def DField.bytes (dfield : DField) : List UInt8 := dfield.data.getD []

def lengthCode (field : DictField) (dfield : DField) : List UInt8 :=
  match dfield.data with
  | none => []
  | some data =>
    if field.fixedLen ≠ 0 then []
    else if OneByte field.col data.length then [UInt8.ofNat data.length]
    else [UInt8.ofNat (data.length >>> 8) ||| 0x80, UInt8.ofNat data.length]

variable {field : DictField} {dfield : DField} {data : List UInt8}

theorem len_of_some (hdata : dfield.data = some data) : dfield.len = data.length := by rw [DField.len, hdata]

theorem len_ne_null (hconf : dfield.Conforms field) (hdata : dfield.data = some data) : dfield.len ≠ univSqlNull := by
  have hshort := hconf.short data hdata
  rw [len_of_some hdata, univSqlNull]
  omega

theorem len_of_none (hdata : dfield.data = none) : dfield.len = univSqlNull := by rw [DField.len, hdata]

theorem bytes_of_none (hdata : dfield.data = none) : dfield.bytes = [] := by rw [DField.bytes, hdata]; rfl

theorem bytes_of_some (hdata : dfield.data = some data) : dfield.bytes = data := by rw [DField.bytes, hdata]; rfl

theorem lengthCode_of_none (hdata : dfield.data = none) : lengthCode field dfield = [] := by rw [lengthCode, hdata]

theorem length_lengthCode (hdata : dfield.data = some data) :
    (lengthCode field dfield).length = if field.fixedLen ≠ 0 then 0 else if OneByte field.col data.length then 1 else 2 := by
  rw [lengthCode, hdata]
  dsimp only
  split_ifs <;> rfl

theorem storeValue_eq {w : Writer} (hconf : dfield.Conforms field) (hdata : dfield.data = some data)
    (hroom : (lengthCode field dfield).length ≤ w.lens) : storeData dfield (storeLength field dfield w) = some { w with
      mem := store (store w.mem (w.lens + 1 - (lengthCode field dfield).length) (lengthCode field dfield).reverse) w.pos data
      lens := w.lens - (lengthCode field dfield).length
      pos := w.pos + data.length } := by
  have hlength : storeLength field dfield w = { w with
      mem := store w.mem (w.lens + 1 - (lengthCode field dfield).length) (lengthCode field dfield).reverse
      lens := w.lens - (lengthCode field dfield).length } := by
    rw [storeLength, len_of_some hdata, hconf.type]
    rw [lengthCode, hdata] at hroom ⊢
    dsimp only at hroom ⊢
    split_ifs at hroom ⊢ with hfixed hone
    · rw [reverse_nil, store_nil]
      rfl
    · rfl
    -- the second byte goes before the first
    have hstore := @store_append_before w.mem (w.lens - 1) [UInt8.ofNat data.length] [UInt8.ofNat (data.length >>> 8) ||| 0x80]
    have hlens : w.lens - 1 + [UInt8.ofNat data.length].length = w.lens := Nat.sub_add_cancel (by simp at hroom; omega)
    rw [hlens] at hstore
    rw [hstore]
    rfl
  rw [storeData, hdata, hlength]
  rfl

theorem initFieldLength_eq {c : OffsCursor} (hconf : dfield.Conforms field) (hdata : dfield.data = some data)
    (hroom : (lengthCode field dfield).length ≤ c.lens)
    (hcode : fetch m (c.lens + 1 - (lengthCode field dfield).length) (lengthCode field dfield).length = (lengthCode field dfield).reverse) :
    initFieldLength m field c = (c.offs + data.length,
      { c with lens := c.lens - (lengthCode field dfield).length, offs := c.offs + data.length }) := by
  have hshort := hconf.short data hdata
  rw [initFieldLength]
  rw [lengthCode, hdata] at hroom hcode ⊢
  dsimp only at hroom hcode ⊢
  by_cases hfixed : field.fixedLen = 0
  · rw [if_neg (not_not_intro hfixed)] at hroom hcode ⊢
    rw [if_pos hfixed]
    by_cases hone : OneByte field.col data.length
    · rw [if_pos hone] at hroom hcode ⊢
      have hbyte : m c.lens = UInt8.ofNat data.length := (List.cons.inj hcode).1
      have hlen : machReadFrom1 m c.lens = data.length := by
        rw [machReadFrom1, hbyte, UInt8.toNat_ofNat']
        have hfits := hconf.fits data hdata hfixed
        rcases hone with hlt | ⟨hcol, hblob⟩
        · omega
        have := hfits.resolve_right hblob
        omega
      have hbranch : ¬ ((field.col.len > 255 ∨ field.col.mtype = dataBlob) ∧ data.length &&& 0x80 ≠ 0) := by
        rintro ⟨hlong, hbit⟩
        rcases hone with hlt | ⟨hcol, hblob⟩
        · have hset : data.length.testBit 7 = true := and_two_pow_ne_zero.1 hbit
          rw [Nat.testBit_lt_two_pow hlt] at hset
          cases hset
        rcases hlong with hlong | hlong
        · omega
        · exact hblob hlong
      rw [hlen, if_neg hbranch]
      rfl
    rw [if_neg hone] at hroom hcode ⊢
    have hlong : 128 ≤ data.length ∧ (field.col.len > 255 ∨ field.col.mtype = dataBlob) := by
      rw [OneByte, not_or, not_and_or, not_not] at hone
      exact ⟨Nat.le_of_not_lt hone.1, hone.2.imp (fun h => by omega) id⟩
    have hlens : 2 ≤ c.lens := hroom
    have hsecond : m (c.lens - 1) = UInt8.ofNat data.length := (List.cons.inj hcode).1
    have hfirst : m c.lens = UInt8.ofNat (data.length >>> 8) ||| 0x80 := by
      have hback := (List.cons.inj (List.cons.inj hcode).2).1
      rwa [length_cons, length_singleton, show c.lens + 1 - (1 + 1) + 1 = c.lens by omega] at hback
    have hhigh : machReadFrom1 m c.lens = data.length / 256 + 128 := by
      have hsmall : data.length / 256 < 64 := by omega
      rw [machReadFrom1, hfirst, UInt8.toNat_or, UInt8.toNat_ofNat', Nat.shiftRight_eq_div_pow, Nat.mod_eq_of_lt (by omega)]
      rw [Nat.or_comm, add_comm]
      exact (Nat.two_pow_add_eq_or_of_lt (i := 7) (by omega) 1).symm
    have hlow : machReadFrom1 m (c.lens - 1) = data.length % 256 := by
      rw [machReadFrom1, hsecond, UInt8.toNat_ofNat']
    -- bit 15 marks two bytes, bit 14 is clear, and the rest is the length
    have hvalue : (data.length / 256 + 128) <<< 8 ||| data.length % 256 = 2 ^ 15 + data.length := by
      rw [Nat.shiftLeft_eq, mul_comm, ← Nat.two_pow_add_eq_or_of_lt (Nat.mod_lt _ (by decide))]
      omega
    have hmark : data.length / 256 + 128 &&& 0x80 ≠ 0 := by
      refine (@and_two_pow_ne_zero _ 7).2 ?_
      rw [add_comm, Nat.testBit_two_pow_add_eq _ 7, Nat.testBit_lt_two_pow (by omega)]
      rfl
    have hextern : ¬ (2 ^ 15 + data.length) &&& 0x4000 ≠ 0 := by
      intro hbit
      have hset := (@and_two_pow_ne_zero _ 14).1 hbit
      rw [Nat.testBit_two_pow_add_gt (by decide), Nat.testBit_lt_two_pow hshort] at hset
      cases hset
    have hmasked : (2 ^ 15 + data.length) &&& 0x3fff = data.length := by
      rw [Nat.and_two_pow_sub_one_eq_mod (2 ^ 15 + data.length) 14]
      omega
    rw [hhigh, if_pos ⟨hlong.2, hmark⟩, hlow, hvalue, if_neg hextern, hmasked]
    rfl
  rw [if_pos hfixed] at hroom hcode ⊢
  rw [if_neg hfixed, hconf.fixed data hdata hfixed]
  rfl

end Mysql51.Innodb
