import Mathlib.Data.List.Forall2
import Mysql51.Innodb.RecordFields

/-!
# Compact records are read as they were written

`rec_convert_dtuple_to_rec_new` writes the null bits and the lengths of the fields of a tuple downwards from the header and the
data upwards from the origin. What it writes for one field stays while it writes the next ones, so that in the end
`rec_init_offsets` finds all of it.
-/

namespace Mysql51.Innodb

open Machine Memory List Option

variable {m : Nat → UInt8} {base nb k : Nat} {field : DictField} {dfield : DField}

/-! ### One field -/

def nextNullable (k : Nat) (field : DictField) : Nat := if field.col.nullable then k + 1 else k

/-- The field is in memory: its null bit, its length below `lens`, its data at `pos`. -/
structure FieldAt (m : Nat → UInt8) (base k lens pos : Nat) (field : DictField) (dfield : DField) : Prop where
  null : field.col.nullable = true → nullBit m base k = dfield.data.isNone
  code : fetch m (lens + 1 - (lengthCode field dfield).length) (lengthCode field dfield).length = (lengthCode field dfield).reverse
  data : fetch m pos dfield.bytes.length = dfield.bytes

/-- From `w` to `w'` nothing was written but between the two ends of the lengths, between the two ends of the data, and the null
bits from number `k` on. The `nb` bytes up to `base` are the null bits. -/
structure Kept (base nb k : Nat) (w w' : Writer) : Prop where
  lens : w'.lens ≤ w.lens
  pos : w.pos ≤ w'.pos
  below : ∀ p, p ≤ w'.lens → w'.mem p = w.mem p
  lengths : ∀ p, w.lens < p → p + nb ≤ base → w'.mem p = w.mem p
  values : ∀ p, base < p → p < w.pos → w'.mem p = w.mem p
  above : ∀ p, w'.pos ≤ p → w'.mem p = w.mem p
  bits : ∀ j, j < k → j / 8 < nb → nullBit w'.mem base j = nullBit w.mem base j

theorem Kept.refl (w : Writer) : Kept base nb k w w :=
  ⟨le_rfl, le_rfl, fun _ _ => rfl, fun _ _ _ => rfl, fun _ _ _ => rfl, fun _ _ => rfl, fun _ _ _ => rfl⟩

variable {w w' : Writer} {nNodePtrField : Option Nat}

theorem Kept.trans {w'' : Writer} {k' : Nat} (h : Kept base nb k w w') (h' : Kept base nb k' w' w'') (hk : k ≤ k') :
    Kept base nb k w w'' where
  lens := h'.lens.trans h.lens
  pos := h.pos.trans h'.pos
  below p hp := (h'.below p hp).trans (h.below p (hp.trans h'.lens))
  lengths p hp hbase := (h'.lengths p (h.lens.trans_lt hp) hbase).trans (h.lengths p hp hbase)
  values p hbase hp := (h'.values p hbase (hp.trans_le h.pos)).trans (h.values p hbase hp)
  above p hp := (h'.above p hp).trans (h.above p (h'.pos.trans hp))
  bits j hj hnb := (h'.bits j (hj.trans_le hk) hnb).trans (h.bits j hj hnb)

theorem Kept.of_masks {nulls nullMask : Nat} (h : Kept base nb k { w with nulls := nulls, nullMask := nullMask } w') :
    Kept base nb k w w' :=
  ⟨h.lens, h.pos, h.below, h.lengths, h.values, h.above, h.bits⟩

theorem FieldAt.kept {lens pos k' : Nat} (h : FieldAt w.mem base k lens pos field dfield) (hkept : Kept base nb k' w w')
    (hk : field.col.nullable = true → k < k' ∧ k / 8 < nb) (hlens : w.lens = lens - (lengthCode field dfield).length)
    (hroom : (lengthCode field dfield).length ≤ lens) (hbase : lens + nb ≤ base) (hpos : base < pos)
    (hend : w.pos = pos + dfield.bytes.length) : FieldAt w'.mem base k lens pos field dfield where
  null hnull := (hkept.bits k (hk hnull).1 (hk hnull).2).trans (h.null hnull)
  code := (fetch_congr fun p hle hlt => hkept.lengths p (by omega) (by omega)).trans h.code
  data := (fetch_congr fun p hle hlt => hkept.values p (by omega) (by omega)).trans h.data

/-- The state of the writer before the field with the number `k` of the nullable ones. -/
structure WriterAt (base nb k : Nat) (w : Writer) : Prop where
  null : NullAt base k w.nulls w.nullMask
  lens : w.lens + nb ≤ base
  pos : base < w.pos
  zero : ∀ j, k ≤ j → j / 8 < nb → nullBit w.mem base j = false

theorem storeValue_spec {data : List UInt8} (hat : WriterAt base nb k w) (hconf : dfield.Conforms field)
    (hdata : dfield.data = some data) (hroom : (lengthCode field dfield).length ≤ w.lens) :
    ∃ w', storeData dfield (storeLength field dfield w) = some w' ∧ WriterAt base nb k w' ∧
      w'.lens = w.lens - (lengthCode field dfield).length ∧ w'.pos = w.pos + dfield.bytes.length ∧
      (∀ k', Kept base nb k' w w') ∧
      fetch w'.mem (w.lens + 1 - (lengthCode field dfield).length) (lengthCode field dfield).length = (lengthCode field dfield).reverse ∧
      fetch w'.mem w.pos dfield.bytes.length = dfield.bytes := by
  have hlens := hat.lens
  have hpos := hat.pos
  obtain ⟨n, hn⟩ : ∃ n, n = (lengthCode field dfield).length := ⟨_, rfl⟩
  have hrev : (lengthCode field dfield).reverse.length = n := by rw [length_reverse, hn]
  rw [storeValue_eq hconf hdata hroom, bytes_of_some hdata]
  rw [← hn] at hroom ⊢
  have hbefore : ∀ p, p < w.pos → p + n ≤ w.lens ∨ w.lens < p →
      store (store w.mem (w.lens + 1 - n) (lengthCode field dfield).reverse) w.pos data p = w.mem p := by
    intro p hp hcode
    rw [store_before data hp]
    rcases hcode with hlow | hhigh
    · exact store_before _ (by omega)
    · exact store_after (by rw [hrev]; omega)
  have hbits : ∀ j, j / 8 < nb →
      nullBit (store (store w.mem (w.lens + 1 - n) (lengthCode field dfield).reverse) w.pos data) base j = nullBit w.mem base j :=
    fun j hj => nullBit_congr (hbefore _ (by omega) (.inr (by omega)))
  refine ⟨_, rfl, ⟨hat.null, ?_, ?_, fun j hj hnb => (hbits j hnb).trans (hat.zero j hj hnb)⟩, rfl, rfl,
    fun k' => ⟨Nat.sub_le _ _, Nat.le_add_right _ _, ?_, ?_, ?_, ?_, fun j _ hj => hbits j hj⟩, ?_, ?_⟩
  · exact (Nat.add_le_add_right (Nat.sub_le _ _) _).trans hlens
  · exact hpos.trans_le (Nat.le_add_right _ _)
  · intro p hp
    have hp' : p ≤ w.lens - n := hp
    exact hbefore p (by omega) (.inl (by omega))
  · intro p hp hbase
    exact hbefore p (by omega) (.inr hp)
  · intro p hbase hp
    exact hbefore p hp (.inr (by omega))
  · intro p hp
    have hp' : w.pos + data.length ≤ p := hp
    show store (store w.mem (w.lens + 1 - n) (lengthCode field dfield).reverse) w.pos data p = w.mem p
    rw [store_after hp', store_after (by rw [hrev]; omega)]
  · rw [fetch_store_before data (by omega), ← hrev, fetch_store]
  exact fetch_store _ _

theorem storeNull_spec (hat : WriterAt base nb k w) (hk : k / 8 < nb) :
    let w' := { w with
      nulls := base - k / 8
      nullMask := 2 ^ (k % 8) <<< 1
      mem := store w.mem (base - k / 8) [UInt8.ofNat (machReadFrom1 w.mem (base - k / 8) ||| 2 ^ (k % 8))] }
    WriterAt base nb (k + 1) w' ∧ Kept base nb k w w' ∧ nullBit w'.mem base k = true := by
  have hlens := hat.lens
  have hpos := hat.pos
  have hother : ∀ p, p < base - k / 8 ∨ base - k / 8 < p →
      store w.mem (base - k / 8) [UInt8.ofNat (machReadFrom1 w.mem (base - k / 8) ||| 2 ^ (k % 8))] p = w.mem p := by
    rintro p (hlt | hgt)
    · exact store_before _ hlt
    · exact store_after hgt
  have hbit := fun j (hj : j / 8 < nb) => @nullBit_set w.mem base k j (by omega) (by omega)
  refine ⟨⟨nullAt_succ base k, hlens, hpos, fun j hj hnb => ?_⟩, ⟨le_rfl, le_rfl, ?_, ?_, ?_, ?_, fun j hj hnb => ?_⟩, ?_⟩
  · rw [hbit j hnb, hat.zero j (by omega) hnb, decide_eq_false (by omega)]
    rfl
  · intro p hp
    have hp' : p ≤ w.lens := hp
    exact hother p (by omega)
  · intro p _ hbase
    exact hother p (by omega)
  · intro p hbase _
    exact hother p (by omega)
  · intro p hp
    have hp' : w.pos ≤ p := hp
    exact hother p (by omega)
  · rw [hbit j hnb, decide_eq_false (by omega), Bool.or_false]
  rw [hbit k hk, decide_eq_true rfl, Bool.or_true]

theorem storeField_spec (hat : WriterAt base nb k w) (hconf : dfield.Conforms field) (hk : field.col.nullable = true → k / 8 < nb)
    (hroom : (lengthCode field dfield).length ≤ w.lens) :
    ∃ w', storeField field dfield w = some w' ∧ WriterAt base nb (nextNullable k field) w' ∧
      w'.lens = w.lens - (lengthCode field dfield).length ∧ w'.pos = w.pos + dfield.bytes.length ∧ Kept base nb k w w' ∧
      FieldAt w'.mem base k w.lens w.pos field dfield := by
  rw [storeField, hconf.type, nextNullable]
  by_cases hnull : field.col.nullable = true
  · rw [if_pos hnull, if_pos hnull, hat.null]
    dsimp only
    cases hdata : dfield.data with
    | none =>
      obtain ⟨hat', hkept, hbit⟩ := storeNull_spec hat (hk hnull)
      have hcode : lengthCode field dfield = [] := by rw [lengthCode, hdata]
      have hbytes : dfield.bytes = [] := by rw [DField.bytes, hdata]; rfl
      rw [if_pos (len_of_none hdata), hcode, hbytes]
      refine ⟨_, rfl, hat', rfl, rfl, hkept, ⟨fun _ => ?_, ?_, ?_⟩⟩
      · rw [hdata]
        exact hbit
      · rw [hcode]
        rfl
      rw [hbytes]
      rfl
    | some data =>
      have hnext : WriterAt base nb (k + 1) { w with nulls := base - k / 8, nullMask := 2 ^ (k % 8) <<< 1 } :=
        ⟨nullAt_succ base k, hat.lens, hat.pos, fun j hj hnb => hat.zero j (by omega) hnb⟩
      obtain ⟨w', hstore, hat', hlens, hpos, hkept, hcode, hbytes⟩ := storeValue_spec hnext hconf hdata hroom
      rw [if_neg (len_ne_null hconf hdata)]
      refine ⟨w', hstore, hat', hlens, hpos, (hkept k).of_masks, ⟨fun _ => ?_, hcode, hbytes⟩⟩
      rw [hdata]
      exact ((hkept (k + 1)).bits k (Nat.lt_succ_self k) (hk hnull)).trans (hat.zero k le_rfl (hk hnull))
  rw [if_neg hnull, if_neg hnull]
  obtain ⟨data, hdata⟩ : ∃ data, dfield.data = some data :=
    ne_none_iff_exists'.1 fun hnone => hnull (hconf.null hnone)
  obtain ⟨w', hstore, hat', hlens, hpos, hkept, hcode, hbytes⟩ := storeValue_spec hat hconf hdata hroom
  exact ⟨w', hstore, hat', hlens, hpos, hkept k, ⟨fun h => absurd h hnull, hcode, hbytes⟩⟩

/-! ### All fields -/

def lengthCodes : List DictField → List DField → Nat
  | field :: fields, dfield :: dfields => (lengthCode field dfield).length + lengthCodes fields dfields
  | _, _ => 0

def dataSize (dfields : List DField) : Nat := (dfields.map fun dfield => dfield.bytes.length).sum

theorem dataSize_cons (dfield : DField) (dfields : List DField) :
    dataSize (dfield :: dfields) = dfield.bytes.length + dataSize dfields := rfl

def FieldsAt (m : Nat → UInt8) (base : Nat) : Nat → Nat → Nat → List DictField → List DField → Prop
  | k, lens, pos, field :: fields, dfield :: dfields =>
    FieldAt m base k lens pos field dfield ∧
      FieldsAt m base (nextNullable k field) (lens - (lengthCode field dfield).length) (pos + dfield.bytes.length) fields dfields
  | _, _, _, _, _ => True

/-- The field behind those of the index: none, or the child page number of a node pointer. -/
inductive NodePtr : Option Nat → Nat → List DField → Prop
  | leaf (n : Nat) : NodePtr none n []
  | child (n : Nat) (type : DType) (data : List UInt8) (hlen : data.length = 4) : NodePtr (some n) n [⟨type, some data⟩]

variable {dfields : List DField} {index : DictIndex} {extraSize : Nat}

theorem NodePtr.ne {n i : Nat} (h : NodePtr nNodePtrField n dfields) (hi : i < n) : nNodePtrField ≠ some i := by
  cases h with
  | leaf => exact (some_ne_none i).symm
  | child => exact fun heq => absurd (Option.some.inj heq) (by omega)

theorem next_of_append {α : Type} {all done fields more : List α} {a : α} (h : all = done ++ a :: fields ++ more) :
    all[done.length]? = some a ∧ all = (done ++ [a]) ++ fields ++ more ∧ (done ++ [a]).length = done.length + 1 := by
  subst h
  refine ⟨?_, ?_, ?_⟩
  · rw [append_assoc, cons_append, List.getElem?_append_right le_rfl, Nat.sub_self, List.getElem?_cons_zero]
  · rw [append_assoc done [a], singleton_append]
  rw [length_append, length_singleton]

theorem NodePtr.next {i n : Nat} (h : NodePtr nNodePtrField (i + (n + 1)) dfields) :
    nNodePtrField ≠ some i ∧ NodePtr nNodePtrField (i + 1 + n) dfields :=
  ⟨h.ne (by omega), by rwa [add_assoc, add_comm 1]⟩

def nullables (k : Nat) (fields : List DictField) : Nat := k + fields.countP (·.col.nullable)

theorem nullables_cons (k : Nat) (field : DictField) (fields : List DictField) :
    nullables k (field :: fields) = nullables (nextNullable k field) fields := by
  rw [nullables, nullables, nextNullable, countP_cons]
  split_ifs <;> omega

theorem nextNullable_le (k : Nat) (field : DictField) (fields : List DictField) :
    k ≤ nextNullable k field ∧ nextNullable k field ≤ nullables k (field :: fields) := by
  rw [nullables_cons, nullables, nextNullable]
  split_ifs <;> omega

section Loops

variable {index : DictIndex} {nNodePtrField : Option Nat} {done fields more : List DictField} {dfields nodePtr : List DField}
  (hindex : index.fields = done ++ fields ++ more) (hconf : List.Forall₂ DField.Conforms fields dfields)
  (hnode : NodePtr nNodePtrField (done.length + fields.length) nodePtr)

include hindex hconf hnode in
theorem storeLoop_spec {w : Writer} {low : Nat}
    (hat : WriterAt base nb k w) (hk : nullables k fields ≤ 8 * nb) (hlens : w.lens = low + lengthCodes fields dfields) :
    ∃ w', storeLoop index nNodePtrField (dfields ++ nodePtr) done.length w = some w' ∧ Kept base nb k w w' ∧ w'.lens = low ∧
      w'.pos = w.pos + dataSize dfields + dataSize nodePtr ∧ FieldsAt w'.mem base k w.lens w.pos fields dfields ∧
      ∀ dfield ∈ nodePtr, fetch w'.mem (w.pos + dataSize dfields) dfield.bytes.length = dfield.bytes := by
  induction hconf generalizing done k w with
  | nil =>
    cases hnode with
    | leaf => exact ⟨w, rfl, .refl w, hlens, rfl, trivial, fun _ h => absurd h not_mem_nil⟩
    | child _ type data hlen =>
      have hpos := hat.pos
      have hlow := hat.lens
      refine ⟨{ w with mem := store w.mem w.pos data, pos := w.pos + data.length }, if_pos rfl,
        ⟨le_rfl, Nat.le_add_right _ _, fun p hp => store_before data ?_, fun p _ hp => store_before data (by omega),
          fun p _ hp => store_before data hp, fun p hp => store_after hp, fun j _ hj => nullBit_congr (store_before data (by omega))⟩,
        hlens, rfl, trivial, ?_⟩
      · have hp' : p ≤ w.lens := hp
        omega
      intro d hd
      rw [mem_singleton.1 hd]
      exact fetch_store _ _
  | @cons field dfield fields dfields hfield hconf ih =>
    rw [lengthCodes] at hlens
    have hnext := nextNullable_le k field fields
    have hbit : field.col.nullable = true → k < nextNullable k field ∧ k / 8 < nb := by
      intro hnull
      have hsucc : nextNullable k field = k + 1 := if_pos hnull
      omega
    obtain ⟨w₁, hstore, hat₁, hlens₁, hpos₁, hkept₁, hfield₁⟩ :=
      storeField_spec hat hfield (fun hnull => (hbit hnull).2) (by omega)
    obtain ⟨hget, hindex', hdone⟩ := next_of_append hindex
    obtain ⟨hne, hnode'⟩ := hnode.next
    obtain ⟨w', hloop, hkept, hlow, hpos, hfields, hchild⟩ := ih hindex' (by rwa [hdone]) hat₁
      (by rwa [← nullables_cons]) (by omega)
    refine ⟨w', ?_, hkept₁.trans hkept hnext.1, hlow, ?_, ⟨?_, ?_⟩, ?_⟩
    · rw [cons_append, storeLoop, if_neg hne, hget, ← hloop, hdone]
      show (storeField field dfield w).bind _ = _
      rw [hstore]
      rfl
    · rw [hpos, hpos₁, dataSize_cons, add_assoc w.pos]
    · exact hfield₁.kept hkept hbit hlens₁ (by omega) hat.lens hat.pos hpos₁
    · rw [← hlens₁, ← hpos₁]
      exact hfields
    intro d hd
    have hd' := hchild d hd
    rwa [hpos₁, add_assoc, ← dataSize_cons] at hd'

def fieldEnds : Nat → List DField → List Nat
  | _, [] => []
  | offs, dfield :: dfields =>
    (match dfield.data with
      | none => offs ||| recOffsSqlNull
      | some data => offs + data.length) :: fieldEnds (offs + dfield.bytes.length) dfields

theorem initField_spec {i pos : Nat} {c : OffsCursor} (hget : index.fields[i]? = some field)
    (hne : nNodePtrField ≠ some i) (hconf : dfield.Conforms field) (hfield : FieldAt m base k c.lens pos field dfield)
    (hnull : NullAt base k c.nulls c.nullMask) (hroom : (lengthCode field dfield).length ≤ c.lens) :
    ∃ c', initField m index nNodePtrField i c = some ((fieldEnds c.offs [dfield]).headD 0, c') ∧
      NullAt base (nextNullable k field) c'.nulls c'.nullMask ∧ c'.lens = c.lens - (lengthCode field dfield).length ∧
      c'.offs = c.offs + dfield.bytes.length := by
  rw [initField, if_neg hne, hget, some_bind_eq, nextNullable, fieldEnds, headD_cons]
  by_cases hcol : field.col.nullable = true
  · rw [if_pos hcol, if_pos hcol, hnull]
    dsimp only
    have hbit := hfield.null hcol
    cases hdata : dfield.data with
    | none =>
      rw [hdata] at hbit
      rw [if_pos (and_mask_ne_zero.2 hbit), lengthCode_of_none hdata, bytes_of_none hdata]
      exact ⟨_, rfl, nullAt_succ base k, rfl, rfl⟩
    | some data =>
      rw [hdata] at hbit
      rw [if_neg fun h => Bool.noConfusion ((and_mask_ne_zero.1 h).symm.trans hbit), bytes_of_some hdata,
        @initFieldLength_eq m field dfield data ⟨base - k / 8, c.lens, c.offs, 2 ^ (k % 8) <<< 1⟩ hconf hdata hroom hfield.code]
      exact ⟨_, rfl, nullAt_succ base k, rfl, rfl⟩
  rw [if_neg hcol, if_neg hcol]
  obtain ⟨data, hdata⟩ : ∃ data, dfield.data = some data :=
    ne_none_iff_exists'.1 fun hnone => hcol (hconf.null hnone)
  rw [@initFieldLength_eq m field dfield data _ hconf hdata hroom hfield.code, bytes_of_some hdata, hdata]
  exact ⟨_, rfl, hnull, rfl, rfl⟩

include hindex hconf hnode in
theorem initFields_spec {c : OffsCursor} {low pos : Nat}
    (hnull : NullAt base k c.nulls c.nullMask) (hfields : FieldsAt m base k c.lens pos fields dfields)
    (hlens : c.lens = low + lengthCodes fields dfields) :
    initFields m index nNodePtrField (dfields ++ nodePtr).length done.length c = some (fieldEnds c.offs (dfields ++ nodePtr), low) := by
  induction hconf generalizing done k c pos with
  | nil =>
    cases hnode with
    | leaf => exact congrArg (fun lens => some ([], lens)) hlens
    | child _ type data hlen =>
      show (initField m index (some (done.length + 0)) done.length c).bind _ = some ([c.offs + data.length], low)
      have hlow : c.lens = low := hlens
      rw [initField, add_zero, if_pos rfl, hlen, ← hlow]
      rfl
  | @cons field dfield fields dfields hfield hconf ih =>
    rw [lengthCodes] at hlens
    obtain ⟨hhead, htail⟩ := hfields
    obtain ⟨hget, hindex', hdone⟩ := next_of_append hindex
    obtain ⟨hne, hnode'⟩ := hnode.next
    obtain ⟨c', hread, hnull', hlens', hoffs'⟩ := initField_spec hget hne hfield hhead hnull (by omega)
    have hloop := ih hindex' (by rwa [hdone]) hnull' (by rwa [hlens']) (by omega)
    rw [cons_append, length_cons, initFields, hread, some_bind_eq]
    dsimp only
    rw [← hdone, hloop, hoffs']
    rfl

include hindex hconf hnode in
/-- The first loop of `rec_convert_dtuple_to_rec_new` counts the bytes of the lengths. -/
theorem originLoop_eq {rec : Nat} :
    originLoop index nNodePtrField (dfields ++ nodePtr) done.length rec = some (rec + lengthCodes fields dfields) := by
  induction hconf generalizing done rec with
  | nil =>
    cases hnode with
    | leaf => rfl
    | child => exact if_pos rfl
  | @cons field dfield fields dfields hfield hconf ih =>
    obtain ⟨hget, hindex', hdone⟩ := next_of_append hindex
    obtain ⟨hne, hnode'⟩ := hnode.next
    have hloop := @ih (done ++ [field]) hindex' (by rwa [hdone])
    rw [hdone] at hloop
    rw [cons_append, originLoop, if_neg hne, hget, some_bind_eq, lengthCodes]
    cases hdata : dfield.data with
    | none =>
      rw [hfield.type, if_pos ⟨hfield.null hdata, len_of_none hdata⟩, hloop, lengthCode_of_none hdata, length_nil, zero_add]
    | some data =>
      rw [if_neg fun h => len_ne_null hfield hdata h.2, hloop, length_lengthCode hdata, len_of_some hdata, hfield.type, add_assoc]

end Loops

/-- The loop of `rec_get_converted_size_new` counts the bytes of the lengths and of the data. -/
theorem sizeLoop_eq {index : DictIndex} {dtuple : DTuple} {done fields more : List DictField} {ddone dfields dmore : List DField}
    {size : Nat} (hindex : index.fields = done ++ fields ++ more) (htuple : dtuple.fields = ddone ++ dfields ++ dmore)
    (hlen : ddone.length = done.length) (hconf : List.Forall₂ DField.Conforms fields dfields) :
    sizeLoop index dtuple fields.length done.length size = some (size + lengthCodes fields dfields + dataSize dfields) := by
  induction hconf generalizing done ddone size with
  | nil => rfl
  | @cons field dfield fields dfields hfield hconf ih =>
    obtain ⟨hget, hindex', hdone⟩ := next_of_append hindex
    obtain ⟨hdget, htuple', hddone⟩ := next_of_append htuple
    have hloop := fun size => @ih (done ++ [field]) (ddone ++ [dfield]) size hindex' htuple' (by rw [hdone, hddone, hlen])
    rw [hdone] at hloop
    rw [hlen] at hdget
    rw [length_cons, sizeLoop, hget, hdget, some_bind_eq, some_bind_eq, lengthCodes, dataSize_cons]
    cases hdata : dfield.data with
    | none =>
      rw [if_pos (len_of_none hdata), hloop, lengthCode_of_none hdata, bytes_of_none hdata, length_nil, zero_add, zero_add]
    | some data =>
      rw [if_neg (len_ne_null hfield hdata), hloop, length_lengthCode hdata, len_of_some hdata, bytes_of_some hdata]
      congr 1
      omega

/-! ### The record -/

/-- A tuple is one for records of the index: the fields of the index, or the first ones and the number of a child page. -/
inductive DTuple.Conforms (index : DictIndex) : DTuple → Prop
  | ordinary (infoBits : Nat) (dfields : List DField) (hstatus : infoBits &&& recNewStatusMask = recStatusOrdinary)
      (hne : dfields ≠ []) (hfields : List.Forall₂ DField.Conforms index.fields dfields) : Conforms index ⟨infoBits, dfields⟩
  | nodePtr (infoBits : Nat) (dfields : List DField) (type : DType) (data : List UInt8)
      (hstatus : infoBits &&& recNewStatusMask = recStatusNodePtr) (hlen : data.length = 4)
      (hfields : List.Forall₂ DField.Conforms (index.fields.take (dictIndexGetNUniqueInTree index)) dfields) :
      Conforms index ⟨infoBits, dfields ++ [⟨type, some data⟩]⟩

theorem DTuple.Conforms.split {dtuple : DTuple} (h : dtuple.Conforms index) (hcomp : index.comp = true) :
    ∃ fields more dfields nodePtr nNodePtrField, index.fields = fields ++ more ∧ dtuple.fields = dfields ++ nodePtr ∧
      NodePtr nNodePtrField fields.length nodePtr ∧ List.Forall₂ DField.Conforms fields dfields ∧
      recGetConvertedSizeNew index dtuple =
        sizeLoop index dtuple fields.length 0 (recNNewExtraBytes + utBitsInBytes index.nNullable + dataSize nodePtr) ∧
      (∀ m buf, recConvertDtupleToRecNew m buf index dtuple =
        (originLoop index nNodePtrField dtuple.fields 0 (buf + recNNewExtraBytes + utBitsInBytes index.nNullable)).bind
          (initRec m index dtuple nNodePtrField)) ∧
      ∀ m rec, recGetStatus m rec = dtuple.infoBits &&& recNewStatusMask → recGetOffsets m rec index =
        (initFields m index nNodePtrField dtuple.fields.length 0 ⟨rec - (recNNewExtraBytes + 1),
          rec - (recNNewExtraBytes + 1) - utBitsInBytes index.nNullable, 0, 1⟩).bind fun (ends, lens) =>
            some (((rec - (lens + 1)) ||| recOffsCompact) :: ends) := by
  cases h with
  | ordinary infoBits dfields hstatus hne hfields =>
    refine ⟨index.fields, [], dfields, [], none, (append_nil _).symm, (append_nil _).symm, .leaf _, hfields, ?_, ?_, ?_⟩
    · rw [recGetConvertedSizeNew, hstatus]
      rfl
    · intro m buf
      rw [recConvertDtupleToRecNew, hstatus]
      rfl
    intro m rec hrec
    have hlen : max index.fields.length 1 = dfields.length := by
      rw [hfields.length_eq]
      exact max_eq_left (length_pos_iff.2 hne)
    rw [recGetOffsets, recGetNFields, if_pos hcomp, hrec, hstatus]
    show recInitOffsets m rec index index.fields.length = _
    rw [recInitOffsets, if_pos hcomp, hrec, hstatus, hlen]
    rfl
  | nodePtr infoBits dfields type data hstatus hlen hfields =>
    have hcount : dfields.length = dictIndexGetNUniqueInTree index := by
      rw [← hfields.length_eq, length_take_of_le]
      rw [dictIndexGetNUniqueInTree]
      split_ifs
      · exact index.uniq_le
      · exact le_rfl
    refine ⟨index.fields.take (dictIndexGetNUniqueInTree index), index.fields.drop (dictIndexGetNUniqueInTree index), dfields,
      [⟨type, some data⟩], some dfields.length, (take_append_drop _ _).symm, rfl, ?_, hfields, ?_, ?_, ?_⟩
    · rw [hfields.length_eq]
      exact .child _ type data hlen
    · rw [recGetConvertedSizeNew, hstatus, hfields.length_eq, hcount]
      show _ = sizeLoop index _ _ 0 (recNNewExtraBytes + utBitsInBytes index.nNullable + (data.length + 0))
      rw [hlen]
      rfl
    · intro m buf
      rw [recConvertDtupleToRecNew, hstatus, length_append]
      rfl
    intro m rec hrec
    rw [recGetOffsets, recGetNFields, if_pos hcomp, hrec, hstatus]
    show recInitOffsets m rec index (dictIndexGetNUniqueInTree index + 1) = _
    rw [recInitOffsets, if_pos hcomp, hrec, hstatus, length_append, hcount, max_eq_left (Nat.le_add_left 1 _)]
    rfl

/-- From the label `init` on, the fields are written, and nothing outside of the record. -/
theorem initRec_spec {index : DictIndex} {dtuple : DTuple} {nNodePtrField : Option Nat} {fields more : List DictField}
    {dfields nodePtr : List DField} {buf rec : Nat} (hbuf : 0 < buf) (hindex : index.fields = fields ++ more)
    (htuple : dtuple.fields = dfields ++ nodePtr) (hconf : List.Forall₂ DField.Conforms fields dfields)
    (hnode : NodePtr nNodePtrField fields.length nodePtr)
    (hrec : rec = buf + recNNewExtraBytes + utBitsInBytes index.nNullable + lengthCodes fields dfields) :
    ∃ m', initRec m index dtuple nNodePtrField rec = some (m', rec) ∧ recGetStatus m' rec = dtuple.infoBits &&& recNewStatusMask ∧
      (∀ p, p < buf ∨ rec + dataSize dfields + dataSize nodePtr ≤ p → m' p = m p) ∧
      FieldsAt m' (rec - (recNNewExtraBytes + 1)) 0 (rec - (recNNewExtraBytes + 1) - utBitsInBytes index.nNullable) rec fields dfields ∧
      ∀ dfield ∈ nodePtr, fetch m' (rec + dataSize dfields) dfield.bytes.length = dfield.bytes := by
  have hextra : recNNewExtraBytes = 5 := rfl
  obtain ⟨nb, hnb⟩ : ∃ nb, nb = utBitsInBytes index.nNullable := ⟨_, rfl⟩
  obtain ⟨base, hbase⟩ : ∃ base, base = rec - (recNNewExtraBytes + 1) := ⟨_, rfl⟩
  have hcount : nullables 0 fields ≤ 8 * nb := by
    have hall := index.nullable_eq
    rw [hindex, countP_append] at hall
    rw [nullables, hnb, utBitsInBytes]
    omega
  -- the memory before the loop
  obtain ⟨m₁, hm₁⟩ : ∃ m₁, m₁ = store m (base - nb + 1) (List.replicate (base - (base - nb)) 0) := ⟨_, rfl⟩
  obtain ⟨m₂, hm₂⟩ : ∃ m₂, m₂ = recSetInfoBits (recSetStatus m₁ rec (dtuple.infoBits &&& recNewStatusMask)) rec true
    (dtuple.infoBits &&& recInfoBitsMask) := ⟨_, rfl⟩
  have hheader : ∀ p, p ≠ rec - 3 → p ≠ rec - 5 → m₂ p = m₁ p := by
    intro p hthree hfive
    rw [hm₂]
    exact (recSetBitField1_of_ne hfive).trans (recSetBitField1_of_ne hthree)
  have hzeros : ∀ p, base - nb < p → p ≤ base → m₁ p = 0 := by
    intro p hlow hhigh
    obtain ⟨i, rfl⟩ : ∃ i, p = base - nb + 1 + i := ⟨p - (base - nb + 1), by omega⟩
    rw [hm₁, store_inside (by rw [length_replicate]; omega), getElem_replicate]
  have hstatus : recGetStatus m₂ rec = dtuple.infoBits &&& recNewStatusMask := by
    have hbyte : m₂ (rec - 3) = recSetStatus m₁ rec (dtuple.infoBits &&& recNewStatusMask) (rec - 3) := by
      rw [hm₂]
      exact recSetBitField1_of_ne (by show rec - 3 ≠ rec - 5; omega)
    have hget := @recGetBitField1_set m₁ rec recNewStatus (dtuple.infoBits &&& recNewStatusMask) recNewStatusMask (by decide)
      (by rw [Nat.and_assoc, Nat.and_self])
    rw [← hget]
    exact congrArg (fun b : UInt8 => (b.toNat &&& recNewStatusMask) >>> 0) hbyte
  have hat : WriterAt base nb 0 ⟨m₂, rec, base, base - nb, 1⟩ := by
    refine ⟨nullAt_zero base, ?_, ?_, fun j _ hj => ?_⟩
    · show base - nb + nb ≤ base
      omega
    · show base < rec
      omega
    show (m₂ (base - j / 8)).toNat.testBit (j % 8) = false
    rw [hheader (base - j / 8) (by omega) (by omega), hzeros (base - j / 8) (by omega) (by omega)]
    exact Nat.zero_testBit _
  obtain ⟨w', hloop, hkept, hlow, hpos, hfields, hchild⟩ := @storeLoop_spec base nb 0 index nNodePtrField [] fields more dfields nodePtr
    hindex hconf (by rwa [length_nil, zero_add]) ⟨m₂, rec, base, base - nb, 1⟩ (buf - 1) hat hcount (by
      show base - nb = buf - 1 + lengthCodes fields dfields
      omega)
  refine ⟨w'.mem, ?_, ?_, ?_, ?_, hchild⟩
  · rw [initRec, ← hbase, ← hnb, ← hm₁, ← hm₂, htuple]
    rw [length_nil] at hloop
    rw [hloop]
    rfl
  · have hbyte : w'.mem (rec - 3) = m₂ (rec - 3) := hkept.values _ (by omega) (by show rec - 3 < rec; omega)
    rw [← hstatus]
    exact congrArg (fun b : UInt8 => (b.toNat &&& recNewStatusMask) >>> 0) hbyte
  · intro p hp
    have hsame : w'.mem p = m₂ p := by
      rcases hp with hlt | hge
      · exact hkept.below p (by omega)
      · exact hkept.above p (hpos.trans_le hge)
    have hout : m₁ p = m p := by
      rw [hm₁]
      rcases hp with hlt | hge
      · exact store_before _ (by omega)
      · exact store_after (by rw [length_replicate]; omega)
    rw [hsame, hheader p (by omega) (by omega), hout]
  rw [← hbase, ← hnb]
  exact hfields

/-! ### The offsets -/

theorem length_fieldEnds (offs : Nat) (dfields : List DField) : (fieldEnds offs dfields).length = dfields.length := by
  induction dfields generalizing offs with
  | nil => rfl
  | cons dfield dfields ih => rw [fieldEnds, length_cons, ih, length_cons]

theorem fieldEnds_getElem? {offs i : Nat} (hget : dfields[i]? = some dfield) :
    (fieldEnds offs dfields)[i]? = some (match dfield.data with
      | none => (offs + dataSize (dfields.take i)) ||| recOffsSqlNull
      | some data => offs + dataSize (dfields.take i) + data.length) := by
  induction dfields generalizing offs i with
  | nil => cases hget
  | cons d dfields ih =>
    cases i with
    | zero =>
      cases hget
      rfl
    | succ i =>
      rw [fieldEnds, List.getElem?_cons_succ, ih hget, take_succ_cons, dataSize_cons, add_assoc]

variable {dfields : List DField} {i : Nat}

theorem dataSize_take_succ (hget : dfields[i]? = some dfield) :
    dataSize (dfields.take (i + 1)) = dataSize (dfields.take i) + dfield.bytes.length := by
  rw [take_add_one, hget, dataSize, dataSize, map_append, sum_append]
  rfl

theorem dataSize_take_le (dfields : List DField) (i : Nat) : dataSize (dfields.take i) ≤ dataSize dfields := by
  conv_rhs => rw [← take_append_drop i dfields, dataSize, map_append, sum_append]
  exact Nat.le_add_right _ _

theorem fieldEnds_and_mask (hsize : dataSize dfields < 2 ^ 30) (hget : dfields[i]? = some dfield) :
    (fieldEnds 0 dfields).getD i 0 &&& recOffsMask = dataSize (dfields.take (i + 1)) := by
  have hle := dataSize_take_le dfields (i + 1)
  rw [dataSize_take_succ hget] at hle ⊢
  rw [getD_eq_getElem?_getD, fieldEnds_getElem? hget, getD_some, DField.bytes] at *
  cases hdata : dfield.data with
  | none =>
    rw [hdata] at hle
    rw [zero_add]
    exact or_and_mask (i := 30) (by omega) (by decide) (by decide)
  | some data =>
    rw [hdata, getD_some] at hle
    have hand := @or_and_mask (dataSize (dfields.take i) + data.length) 0 recOffsMask 30 (by omega) (by decide) (by decide)
    rw [Nat.or_zero] at hand
    rwa [zero_add]

theorem fieldEnds_and_null (hsize : dataSize dfields < 2 ^ 30) (hget : dfields[i]? = some dfield) :
    (fieldEnds 0 dfields).getD i 0 &&& recOffsSqlNull ≠ 0 ↔ dfield.data = none := by
  have hle := dataSize_take_le dfields (i + 1)
  rw [dataSize_take_succ hget] at hle
  rw [getD_eq_getElem?_getD, fieldEnds_getElem? hget, getD_some, recOffsSqlNull, and_two_pow_ne_zero]
  rw [DField.bytes] at hle
  cases hdata : dfield.data with
  | none =>
    refine iff_of_true ?_ rfl
    rw [Nat.testBit_or, Nat.testBit_two_pow_self, Bool.or_true]
  | some data =>
    rw [hdata, getD_some] at hle
    have hclear : (0 + dataSize (dfields.take i) + data.length).testBit 31 = false := Nat.testBit_lt_two_pow (by omega)
    refine iff_of_false (fun hset => ?_) (some_ne_none data)
    cases hclear.symm.trans hset

theorem recGetNthField_eq (rec : Nat) (hsize : dataSize dfields < 2 ^ 30) (hget : dfields[i]? = some dfield) :
    recGetNthField rec (extraSize :: fieldEnds 0 dfields) i = (rec + dataSize (dfields.take i), dfield.len) := by
  have hstart : (if i = 0 then rec else rec + ((extraSize :: fieldEnds 0 dfields).getD i 0 &&& recOffsMask)) =
      rec + dataSize (dfields.take i) := by
    cases i with
    | zero => rfl
    | succ i =>
      have hi : i < dfields.length := (Nat.lt_succ_self i).trans (List.getElem?_eq_some_iff.1 hget).1
      have hd := List.getElem?_eq_getElem hi
      rw [if_neg (Nat.succ_ne_zero i), getD_cons_succ, fieldEnds_and_mask hsize hd]
  rw [recGetNthField, hstart, getD_cons_succ]
  have hend := fieldEnds_and_mask hsize hget
  have hnull := fieldEnds_and_null hsize hget
  rw [hend, dataSize_take_succ hget]
  cases hdata : dfield.data with
  | none => rw [if_pos (hnull.2 hdata), len_of_none hdata]
  | some data =>
    rw [if_neg fun h => some_ne_none data (hdata.symm.trans (hnull.1 h)), len_of_some hdata, bytes_of_some hdata]
    congr 1
    omega

theorem recOffsDataSize_eq (hsize : dataSize dfields < 2 ^ 30) (hne : dfields ≠ []) :
    recOffsDataSize (extraSize :: fieldEnds 0 dfields) = dataSize dfields := by
  obtain ⟨n, hn⟩ : ∃ n, dfields.length = n + 1 := ⟨dfields.length - 1, by have := length_pos_iff.2 hne; omega⟩
  obtain ⟨d, hd⟩ : ∃ d, dfields[n]? = some d := ⟨dfields[n], List.getElem?_eq_getElem (by omega)⟩
  rw [recOffsDataSize, recOffsNFields, length_cons, length_fieldEnds, hn, Nat.add_sub_cancel, getD_cons_succ,
    fieldEnds_and_mask hsize hd, take_of_length_le hn.le]

section

variable {fields : List DictField} (hconf : List.Forall₂ DField.Conforms fields dfields)
include hconf

theorem FieldsAt.data {lens pos : Nat} (hfields : FieldsAt m base k lens pos fields dfields) (hget : dfields[i]? = some dfield) :
    fetch m (pos + dataSize (dfields.take i)) dfield.bytes.length = dfield.bytes := by
  induction hconf generalizing k lens pos i with
  | nil => cases hget
  | @cons field d fields dfields hfield hconf ih =>
    cases i with
    | zero =>
      cases hget
      exact hfields.1.data
    | succ i =>
      rw [take_succ_cons, dataSize_cons, ← add_assoc]
      exact ih hfields.2 hget

theorem dataSize_lt : dataSize dfields ≤ 16384 * fields.length := by
  induction hconf with
  | nil => exact le_rfl
  | @cons field dfield fields dfields hfield hconf ih =>
    have hbytes : dfield.bytes.length ≤ 16384 := by
      rw [DField.bytes]
      cases hdata : dfield.data with
      | none => exact Nat.zero_le _
      | some data => exact (hfield.short data hdata).le
    rw [dataSize_cons, length_cons]
    omega

theorem lengthCodes_le : lengthCodes fields dfields ≤ 2 * fields.length := by
  induction hconf with
  | nil => exact le_rfl
  | @cons field dfield fields dfields hfield hconf ih =>
    have hcode : (lengthCode field dfield).length ≤ 2 := by
      cases hdata : dfield.data with
      | none => rw [lengthCode, hdata]; exact Nat.zero_le _
      | some data =>
        rw [length_lengthCode hdata]
        split_ifs <;> decide
    rw [lengthCodes, length_cons]
    omega

end

/-- A tuple is stored in as many bytes as `rec_get_converted_size_new` says, and the offsets of the record give back its fields:
which are NULL, where they are, and their data. -/
theorem recGetOffsets_convert {index : DictIndex} (hcomp : index.comp = true) {dtuple : DTuple} (hconf : dtuple.Conforms index)
    (m : Nat → UInt8) {buf : Nat} (hbuf : 0 < buf) : ∃ size m' rec offsets, recGetConvertedSizeNew index dtuple = some size ∧
      recConvertDtupleToRecNew m buf index dtuple = some (m', rec) ∧ (∀ p, p < buf ∨ buf + size ≤ p → m' p = m p) ∧
      recGetOffsets m' rec index = some offsets ∧ recOffsNFields offsets = dtuple.fields.length ∧
      buf + recOffsExtraSize offsets = rec ∧ rec + recOffsDataSize offsets = buf + size ∧
      ∀ i dfield, dtuple.fields[i]? = some dfield →
        (recOffsNthSqlNull offsets i = true ↔ dfield.data = none) ∧
          recGetNthField rec offsets i = (rec + dataSize (dtuple.fields.take i), dfield.len) ∧
          fetch m' (rec + dataSize (dtuple.fields.take i)) dfield.bytes.length = dfield.bytes := by
  obtain ⟨fields, more, dfields, nodePtr, nNodePtrField, hindex, htuple, hnode, hfields, hsize, hconvert, hoffsets⟩ := hconf.split hcomp
  have hextra : recNNewExtraBytes = 5 := rfl
  obtain ⟨rec, hrec⟩ : ∃ rec, rec = buf + recNNewExtraBytes + utBitsInBytes index.nNullable + lengthCodes fields dfields := ⟨_, rfl⟩
  have hnode' : NodePtr nNodePtrField (([] : List DictField).length + fields.length) nodePtr := by rwa [length_nil, zero_add]
  have horigin := @originLoop_eq index nNodePtrField [] fields more dfields nodePtr hindex hfields hnode'
    (buf + recNNewExtraBytes + utBitsInBytes index.nNullable)
  obtain ⟨m', hinit, hstatus, hframe, hat, hchild⟩ := @initRec_spec m index dtuple nNodePtrField fields more dfields nodePtr buf rec hbuf
    hindex htuple hfields hnode hrec
  have hoffs : recGetOffsets m' rec index = some (((rec - buf) ||| recOffsCompact) :: fieldEnds 0 dtuple.fields) := by
    have hread := @initFields_spec m' (rec - (recNNewExtraBytes + 1)) 0 index nNodePtrField [] fields more dfields nodePtr
      hindex hfields hnode' ⟨rec - (recNNewExtraBytes + 1), rec - (recNNewExtraBytes + 1) - utBitsInBytes index.nNullable, 0, 1⟩
      (buf - 1) rec (nullAt_zero _) hat (by
        show rec - (recNNewExtraBytes + 1) - utBitsInBytes index.nNullable = buf - 1 + lengthCodes fields dfields
        omega)
    rw [length_nil, ← htuple] at hread
    rw [hoffsets m' rec hstatus, hread, bind_some]
    dsimp only
    rw [Nat.sub_add_cancel hbuf]
  have hall : dataSize dtuple.fields = dataSize dfields + dataSize nodePtr := by
    rw [htuple, dataSize, map_append, sum_append]
    rfl
  have hlen : fields.length ≤ 1023 := by
    have hlt := index.length_lt
    rw [hindex, length_append] at hlt
    omega
  have hpage : dataSize nodePtr ≤ 4 := by
    cases hnode with
    | leaf => exact Nat.zero_le _
    | child _ _ data hdata => exact hdata.le
  have hbound : dataSize dtuple.fields < 2 ^ 30 := by
    have hdata := dataSize_lt hfields
    omega
  have hne : dtuple.fields ≠ [] := by
    cases hconf with
    | ordinary infoBits dfields hstatus hne hfields => exact hne
    | nodePtr infoBits dfields type data hstatus hlen hfields => exact append_ne_nil_of_right_ne_nil _ (cons_ne_nil _ _)
  have hextraSize : recOffsExtraSize (((rec - buf) ||| recOffsCompact) :: fieldEnds 0 dtuple.fields) = rec - buf := by
    have hcodes := lengthCodes_le hfields
    have hnulls : utBitsInBytes index.nNullable ≤ 128 := by
      have hcount := index.nullable_eq
      have hle := @List.countP_le_length _ (fun field : DictField => field.col.nullable) index.fields
      have hlt := index.length_lt
      rw [utBitsInBytes]
      omega
    exact or_and_mask (i := 31) (by omega) (by decide) (by decide)
  have hsizeLoop := @sizeLoop_eq index dtuple [] fields more [] dfields nodePtr
    (recNNewExtraBytes + utBitsInBytes index.nNullable + dataSize nodePtr) hindex htuple rfl hfields
  rw [length_nil] at horigin hsizeLoop
  refine ⟨_, m', rec, _, hsize.trans hsizeLoop, ?_, fun p hp => hframe p (by omega), hoffs, ?_, ?_, ?_, fun i dfield hget => ⟨?_, ?_, ?_⟩⟩
  · rw [hconvert, htuple, horigin, bind_some, ← hrec, hinit]
  · rw [recOffsNFields, length_cons, length_fieldEnds, Nat.add_sub_cancel]
  · rw [hextraSize]
    omega
  · rw [recOffsDataSize_eq hbound hne]
    omega
  · rw [recOffsNthSqlNull, getD_cons_succ, decide_eq_true_iff]
    exact fieldEnds_and_null hbound hget
  · exact recGetNthField_eq rec hbound hget
  · rw [htuple] at hget ⊢
    by_cases hi : i < dfields.length
    · rw [List.getElem?_append_left hi] at hget
      rw [take_append_of_le_length hi.le]
      exact hat.data hfields hget
    rw [List.getElem?_append_right (Nat.le_of_not_lt hi)] at hget
    have hmem := mem_of_getElem? hget
    have hzero : i - dfields.length = 0 := by
      cases hnode with
      | leaf => cases hmem
      | child => exact Nat.lt_one_iff.1 (List.getElem?_eq_some_iff.1 hget).1
    have htake : (dfields ++ nodePtr).take i = dfields := by
      rw [show i = dfields.length by omega]
      exact take_left
    rw [htake]
    exact hchild dfield hmem

def keyAndStrings : DictIndex where
  comp := true
  clustered := true
  nUniq := 1
  nNullable := 3
  fields := [⟨⟨6, 256, 4⟩, 4⟩, ⟨⟨12, 0, 300⟩, 0⟩, ⟨⟨12, 0, 300⟩, 0⟩, ⟨⟨12, 0, 300⟩, 0⟩]
  nullable_eq := rfl
  uniq_le := by decide
  length_lt := by decide

/-- A key, a string whose length takes one byte, one whose length takes two, and a NULL. -/
theorem recGetOffsets_convert_null : ∃ m' rec offsets,
      recConvertDtupleToRecNew (fun _ => 255) 1000 keyAndStrings ⟨0, [⟨⟨6, 256, 4⟩, some [1, 2, 3, 4]⟩,
          ⟨⟨12, 0, 300⟩, some [65, 66]⟩, ⟨⟨12, 0, 300⟩, some (replicate 128 67)⟩, ⟨⟨12, 0, 300⟩, none⟩]⟩ = some (m', rec) ∧
        recGetOffsets m' rec keyAndStrings = some offsets ∧ recGetNthField rec offsets 1 = (rec + 4, 2) ∧
        recGetNthField rec offsets 2 = (rec + 6, 128) ∧ fetch m' (rec + 6) 128 = replicate 128 67 ∧
        recGetNthField rec offsets 3 = (rec + 134, univSqlNull) := by
  have hkey : DField.Conforms ⟨⟨6, 256, 4⟩, 4⟩ ⟨⟨6, 256, 4⟩, some [1, 2, 3, 4]⟩ :=
    ⟨rfl, nofun, fun _ h => Option.some.inj h ▸ by decide, fun _ h _ => Option.some.inj h ▸ rfl, fun _ _ h => absurd h (by decide)⟩
  have hnull : DField.Conforms ⟨⟨12, 0, 300⟩, 0⟩ ⟨⟨12, 0, 300⟩, none⟩ := ⟨rfl, fun _ => rfl, nofun, nofun, nofun⟩
  have hstring (data : List UInt8) (hlen : data.length ≤ 300) : DField.Conforms ⟨⟨12, 0, 300⟩, 0⟩ ⟨⟨12, 0, 300⟩, some data⟩ :=
    ⟨rfl, nofun, fun _ h => Option.some.inj h ▸ hlen.trans_lt (by decide), fun _ _ h => absurd rfl h,
      fun _ h _ => Option.some.inj h ▸ .inl hlen⟩
  obtain ⟨size, m', rec, offsets, -, hconvert, -, hoffsets, -, -, -, hfields⟩ :=
    @recGetOffsets_convert keyAndStrings rfl _ (.ordinary 0 _ rfl (cons_ne_nil _ _) (.cons hkey
      (.cons (hstring [65, 66] (by decide)) (.cons (hstring (replicate 128 67) (length_replicate.trans_le (by decide))) (.cons hnull .nil)))))
      (fun _ => 255) 1000 (by decide)
  have hlong : (replicate 128 (67 : UInt8)).length = 128 := length_replicate
  have hthird := hfields 2 _ rfl
  have hlast := (hfields 3 _ rfl).2.1
  simp only [DField.len, DField.bytes, Option.getD_some, hlong, dataSize, take, map_cons, sum_cons] at hthird hlast
  exact ⟨m', rec, offsets, hconvert, hoffsets, (hfields 1 _ rfl).2.1, hthird.2.1, hthird.2.2, hlast⟩

end Mysql51.Innodb
