import Mathlib.Data.List.Forall2
import Mysql51.Myisam.PackedColumn

/-!
# Packed rows are read back

`_mi_rec_unpack` of a row that `_mi_rec_pack` wrote. It reads the row back if the length of the row fits into the `uint` that
`_mi_rec_pack` returns, if no column was taken for zero only because of what lies behind `zero_string`, and if the row passes
the comparisons with `min_pack_length`.
-/

namespace Mysql51.Myisam

open Machine List

/-! ### One column -/

variable {cur : Cursor} {cs recinfo : List ColumnDef} {fs : List Field} {share : Share}

section Column

variable {behind : Nat → UInt8} {c : ColumnDef} {f : Field} (fromEnd t : Nat) {tail : List UInt8} {st : UnpackState}
  {w : BitWriter} {bits : List Bool}

theorem leftOut_gives {E Cond : Prop} (hcur : cur.minPackLength < 4294967296) (hrest : cur.rest = tail) (hcond : Cond)
    (g : Field) : Gives (some (g, cur)) (g, cur.behind 0 0 tail) E Cond := by
  have hmin : uint32 ((cur.minPackLength : Int) - (0 : Nat)) = cur.minPackLength := by
    rw [uint32]
    omega
  have hsame : cur.behind 0 0 tail = cur := by rw [Cursor.behind, hmin, add_zero, ← hrest]
  rw [hsame]
  exact (Gives.always _ E).congr id fun _ => iff_of_true trivial hcond

theorem packColumn_blob (behind : Nat → UInt8) {n : Nat} {f : Field} (hne : blobLength ⟨.blob, n⟩ f ≠ 0) :
    packColumn behind ⟨.blob, n⟩ f =
      (f.bytes.take (sizeLength ⟨.blob, n⟩) ++ f.data.take (blobLength ⟨.blob, n⟩ f), some false) :=
  if_neg hne

theorem unpackBitColumn_gives {b : Bool} (hfit : Fits c f) (hc : c.length < 32768)
    (hcur : cur.minPackLength < 4294967296) (hb : (packColumn behind c f).2 = some b)
    (hrest : cur.rest = (packColumn behind c f).1 ++ tail) : Gives (unpackBitColumn c fromEnd b cur)
      (unpacked behind c f tail, cur.behind (packColumn behind c f).1.length c.minLength tail)
      (Exact (packColumn behind c f).1.length t c.minLength fromEnd cur)
      (Compared behind c f → cur.minPackLength - c.minLength ≤ t) := by
  obtain ⟨type, length⟩ := c
  cases type with
  | blob =>
    by_cases hzero : blobLength ⟨.blob, length⟩ f = 0
    · have hpack : packColumn behind ⟨.blob, length⟩ f = ([], some true) := if_pos hzero
      have hfield : unpacked behind ⟨.blob, length⟩ f tail = ⟨List.replicate (length - 8) 0, []⟩ := if_pos hzero
      rw [hpack] at hb hrest ⊢
      cases hb
      rw [hfield]
      exact leftOut_gives hcur hrest (fun hne => absurd hzero hne) _
    have hpack := packColumn_blob behind hzero
    have hfield : unpacked behind ⟨.blob, length⟩ f tail = ⟨f.bytes, f.data.take (blobLength ⟨.blob, length⟩ f) ++ tail⟩ :=
      if_neg hzero
    rw [hpack] at hb hrest ⊢
    cases hb
    rw [hfield]
    exact (unpackBlob_gives fromEnd t hc hzero hfit.1 hfit.2 hcur hrest).congr id fun _ => ⟨fun h _ => h, fun h => h hzero⟩
  | skipZero =>
    by_cases hzero : f.bytes = zeroString behind length
    · have hpack : packColumn behind ⟨.skipZero, length⟩ f = ([], some true) := if_pos hzero
      have hfield : unpacked behind ⟨.skipZero, length⟩ f tail = ⟨List.replicate length 0, []⟩ := if_pos hzero
      rw [hpack] at hb hrest ⊢
      cases hb
      rw [hfield]
      exact leftOut_gives hcur hrest (fun hne => absurd hzero hne) _
    have hpack : packColumn behind ⟨.skipZero, length⟩ f = (f.bytes, some false) := if_neg hzero
    have hfield : unpacked behind ⟨.skipZero, length⟩ f tail = ⟨f.bytes, []⟩ := if_neg hzero
    rw [hpack] at hb hrest ⊢
    cases hb
    rw [hfield]
    exact (unpackWhole_gives fromEnd t hfit hrest (Nat.zero_le 1) hc (Cursor.count_zero hcur).symm).congr id
      fun _ => ⟨fun h _ => h, fun h => h hzero⟩
  | skipEndspace =>
    exact (unpackBitColumn_space fromEnd t (.inl rfl) hfit (padded_rdropWhile rfl hfit) hc hb hrest).congr id
      fun _ => ⟨fun h _ => h, fun h => h trivial⟩
  | skipPrespace =>
    exact (unpackBitColumn_space fromEnd t (.inr rfl) hfit (padded_dropWhile rfl hfit) hc hb hrest).congr id
      fun _ => ⟨fun h _ => h, fun h => h trivial⟩
  | varchar | normal | constant | intervall | zero | check => cases hb

theorem isSome_ite (B : Prop) [Decidable B] (p q : List UInt8) (a b : Bool) :
    (if B then (p, some a) else (q, some b)).2.isSome = true := by
  by_cases hB : B
  · rw [if_pos hB]
    rfl
  rw [if_neg hB]
  rfl

theorem isSome_packColumn (behind : Nat → UInt8) (c : ColumnDef) (f : Field) : (packColumn behind c f).2.isSome = c.type.hasBit := by
  obtain ⟨type, length⟩ := c
  cases type with
  | blob | skipZero | skipEndspace | skipPrespace => exact isSome_ite ..
  | varchar | normal | constant | intervall | zero | check => rfl

theorem unpackColumn_gives (htype : c.type.ofRow = true) (hfit : Fits c f) (hc : c.length < 32768)
    (hcur : st.cur.minPackLength < 4294967296) (hrest : st.cur.rest = (packColumn behind c f).1 ++ tail)
    (hbits : BitReader.At w ((packColumn behind c f).2.toList ++ bits) st.bits) :
    ∃ reader, BitReader.At (w.pushAll (packColumn behind c f).2.toList) bits reader ∧ Gives (unpackColumn c fromEnd st)
        (unpacked behind c f tail, ⟨st.cur.behind (packColumn behind c f).1.length c.minLength tail, reader, st.toPos + c.length⟩)
        (Exact (packColumn behind c f).1.length t c.minLength fromEnd st.cur)
        (Compared behind c f → st.cur.minPackLength - c.minLength ≤ t) := by
  cases hb : (packColumn behind c f).2 with
  | none =>
    rw [hb] at hbits
    refine ⟨st.bits, hbits, ?_⟩
    have hsome := isSome_packColumn behind c f
    obtain ⟨type, length⟩ := c
    cases type with
    | normal =>
      have hcolumn := unpackNormal_gives fromEnd t hfit hrest
      exact (hcolumn.map _).congr id fun _ => ⟨fun h _ => h, fun h => h trivial⟩
    | varchar =>
      have hcolumn := unpackVarchar_gives fromEnd t hfit.1 hc hfit.2 hrest
      have hpack : packColumn behind ⟨.varchar, length⟩ f = (packVarchar ⟨.varchar, length⟩ f, none) := rfl
      have hmin : ColumnDef.minLength ⟨.varchar, length⟩ = 1 := rfl
      have hcond : True ↔ (Compared behind ⟨.varchar, length⟩ f → st.cur.minPackLength - 1 ≤ t) :=
        iff_of_true trivial fun h => h.elim
      rw [hpack, hmin]
      have hmap := (hcolumn.congr id fun _ => hcond).map fun r => (r.1, UnpackState.mk r.2 st.bits (st.toPos + length))
      exact hmap
    | blob | skipZero | skipEndspace | skipPrespace =>
      rw [hb] at hsome
      cases hsome
    | constant | intervall | zero | check => cases htype
  | some b =>
    rw [hb] at hbits
    have hat : BitReader.At w (b :: bits) st.bits := hbits
    refine ⟨st.bits.next, hat.next, ?_⟩
    have hcolumn := unpackBitColumn_gives fromEnd t hfit hc hcur hb hrest
    rw [← hat.flagged] at hcolumn
    obtain ⟨type, length⟩ := c
    cases type with
    | blob | skipZero | skipEndspace | skipPrespace => exact hcolumn.map _
    | varchar | normal | constant | intervall | zero | check => cases hb

end Column

/-! ### All columns -/

def rowBytes (behind : Nat → UInt8) : List ColumnDef → List Field → List UInt8
  | c :: cs, f :: fs => (packColumn behind c f).1 ++ rowBytes behind cs fs
  | _, _ => []

def rowBits (behind : Nat → UInt8) : List ColumnDef → List Field → List Bool
  | c :: cs, f :: fs => (packColumn behind c f).2.toList ++ rowBits behind cs fs
  | _, _ => []

def unpackedRow (behind : Nat → UInt8) : List ColumnDef → List Field → List UInt8 → List Field
  | c :: cs, f :: fs, tail => unpacked behind c f (rowBytes behind cs fs ++ tail) :: unpackedRow behind cs fs tail
  | _, _, _ => []

def minLengths (cs : List ColumnDef) : Nat := (cs.map ColumnDef.minLength).sum

/-- At each column at which `_mi_rec_unpack` compares, the columns behind it have as many bytes as `min_pack_length` counts for
them, and `reserve` bytes more. -/
def Budgeted (behind : Nat → UInt8) (reserve : Nat) : List ColumnDef → List Field → Prop
  | c :: cs, f :: fs =>
    (Compared behind c f → reserve + minLengths cs ≤ (rowBytes behind cs fs).length) ∧ Budgeted behind reserve cs fs
  | _, _ => True

instance decidableBudgeted (behind : Nat → UInt8) (reserve : Nat) : ∀ cs fs, Decidable (Budgeted behind reserve cs fs)
  | _ :: cs, _ :: fs => @instDecidableAnd _ _ _ (decidableBudgeted behind reserve cs fs)
  | [], _ => inferInstanceAs (Decidable True)
  | _ :: _, [] => inferInstanceAs (Decidable True)

theorem packColumns_eq (behind : Nat → UInt8) (cs : List ColumnDef) (fs : List Field) (st : PackState) :
    packColumns behind cs fs st = ⟨st.bits.pushAll (rowBits behind cs fs), st.out ++ rowBytes behind cs fs⟩ := by
  induction cs generalizing fs st with
  | nil =>
    rw [packColumns, rowBits, rowBytes, append_nil]
    · rfl
    all_goals simp
  | cons c cs ih =>
    cases fs with
    | nil =>
      rw [packColumns, rowBits, rowBytes, append_nil]
      · rfl
      all_goals simp
    | cons f fs =>
      have hbits : (st.add (packColumn behind c f)).bits = st.bits.pushAll (packColumn behind c f).2.toList := by
        rw [PackState.add]
        cases (packColumn behind c f).2 <;> rfl
      rw [packColumns, ih, hbits, rowBits, rowBytes, BitWriter.pushAll, BitWriter.pushAll, BitWriter.pushAll,
        foldl_append, PackState.add, append_assoc]

theorem unpackColumns_cons (fromEnd : Nat) (c : ColumnDef) (cs : List ColumnDef) (st : UnpackState) :
    unpackColumns fromEnd (c :: cs) st =
      (unpackColumn c fromEnd st).bind fun r => (unpackColumns fromEnd cs r.2).map fun q => (r.1 :: q.1, q.2) := by
  rw [unpackColumns]
  cases unpackColumn c fromEnd st <;> rfl

/-- The columns of a row are at `from`, `t` bytes of the row are behind them, and `min_pack_length` counts what the columns and
the bytes behind them need, and `reserve`. -/
structure RowExact (behind : Nat → UInt8) (fromEnd t reserve : Nat) (cs : List ColumnDef) (fs : List Field) (cur : Cursor) :
    Prop where
  fromEnd : fromEnd = cur.pos + (rowBytes behind cs fs).length + t
  small : (rowBytes behind cs fs).length + t < 4294967296
  counted : cur.minPackLength = reserve + minLengths cs + t
  minPackLength : cur.minPackLength < 2147483648

theorem minLengths_cons (c : ColumnDef) (cs : List ColumnDef) : minLengths (c :: cs) = c.minLength + minLengths cs := rfl

theorem length_rowBytes_cons (behind : Nat → UInt8) (c : ColumnDef) (cs : List ColumnDef) (f : Field) (fs : List Field) :
    (rowBytes behind (c :: cs) (f :: fs)).length = (packColumn behind c f).1.length + (rowBytes behind cs fs).length := by
  rw [rowBytes, length_append]

section RowExact

variable {behind : Nat → UInt8} {fromEnd t reserve : Nat} {c : ColumnDef} {cs : List ColumnDef} {f : Field} {fs : List Field}
  {cur : Cursor}

section

variable (h : RowExact behind fromEnd t reserve (c :: cs) (f :: fs) cur)
include h

theorem RowExact.column :
    Exact (packColumn behind c f).1.length ((rowBytes behind cs fs).length + t) c.minLength fromEnd cur := by
  obtain ⟨hend, hsmall, hcounted, hmin⟩ := h
  rw [length_rowBytes_cons] at hend hsmall
  rw [minLengths_cons] at hcounted
  exact ⟨by omega, by omega, by omega, hmin⟩

theorem RowExact.rest (tail : List UInt8) :
    RowExact behind fromEnd t reserve cs fs (cur.behind (packColumn behind c f).1.length c.minLength tail) := by
  obtain ⟨hend, hsmall, hcounted, hmin⟩ := h
  rw [length_rowBytes_cons] at hend hsmall
  rw [minLengths_cons] at hcounted
  have hnext : (cur.behind (packColumn behind c f).1.length c.minLength tail).minPackLength = reserve + minLengths cs + t := by
    show uint32 ((cur.minPackLength : Int) - c.minLength) = _
    rw [uint32]
    omega
  refine ⟨?_, by omega, hnext, by omega⟩
  show fromEnd = cur.pos + (packColumn behind c f).1.length + (rowBytes behind cs fs).length + t
  omega

theorem RowExact.compare : cur.minPackLength - c.minLength ≤ (rowBytes behind cs fs).length + t ↔
      reserve + minLengths cs ≤ (rowBytes behind cs fs).length := by
  have hcounted := h.counted
  rw [minLengths_cons] at hcounted
  omega

end

end RowExact

theorem unpackColumns_gives (behind : Nat → UInt8) (fromEnd t reserve : Nat) {cs : List ColumnDef} {fs : List Field}
    (hfits : List.Forall₂ Fits cs fs) (htypes : ∀ c ∈ cs, c.type.ofRow = true) (hlengths : ∀ c ∈ cs, c.length < 32768)
    {st : UnpackState} {tail : List UInt8} {w : BitWriter} (hcur : st.cur.minPackLength < 4294967296)
    (hrest : st.cur.rest = rowBytes behind cs fs ++ tail) (hbits : BitReader.At w (rowBits behind cs fs) st.bits) :
    ∃ st', st'.cur.pos = st.cur.pos + (rowBytes behind cs fs).length ∧ st'.toPos = st.toPos + (cs.map ColumnDef.length).sum ∧
      st'.bits.done = true ∧
      Gives (unpackColumns fromEnd cs st) (unpackedRow behind cs fs tail, st') (RowExact behind fromEnd t reserve cs fs st.cur)
        (Budgeted behind reserve cs fs) := by
  induction hfits generalizing st w with
  | nil => exact ⟨st, rfl, rfl, hbits.done, Gives.always _ _⟩
  | @cons c f cs fs hfit hfits ih =>
    rw [rowBytes, append_assoc] at hrest
    obtain ⟨reader, hreader, hcolumn⟩ := unpackColumn_gives fromEnd ((rowBytes behind cs fs).length + t)
      (htypes c mem_cons_self) hfit (hlengths c mem_cons_self) hcur hrest hbits
    have hmin : (st.cur.behind (packColumn behind c f).1.length c.minLength (rowBytes behind cs fs ++ tail)).minPackLength <
        4294967296 := by
      show uint32 ((st.cur.minPackLength : Int) - c.minLength) < _
      rw [uint32]
      omega
    obtain ⟨st', hpos, hto, hdone, hrow⟩ := @ih (fun d hd => htypes d (mem_cons_of_mem c hd))
      (fun d hd => hlengths d (mem_cons_of_mem c hd)) ⟨_, reader, st.toPos + c.length⟩ _ hmin rfl hreader
    refine ⟨st', ?_, ?_, hdone, ?_⟩
    · rw [hpos, length_rowBytes_cons, ← add_assoc]
    · rw [hto, map_cons, sum_cons, ← add_assoc]
    -- the comparisons at this column, then those at the columns behind it
    rw [unpackColumns_cons]
    have hfirst := hcolumn.congr RowExact.column fun hex : RowExact behind fromEnd t reserve (c :: cs) (f :: fs) st.cur =>
        forall_congr' fun _ : Compared behind c f => RowExact.compare hex
    exact hfirst.bind (hrow.map _) fun hex => hex.rest _

/-! ### What is read back -/

variable (behind : Nat → UInt8)

def ZeroSafe (c : ColumnDef) (f : Field) : Prop :=
  c.type = .skipZero → f.bytes = zeroString behind c.length → f.bytes = List.replicate c.length 0
deriving Decidable

def SameRow : List ColumnDef → List Field → List Field → Prop
  | c :: cs, f :: fs, g :: gs => Same c f g ∧ SameRow cs fs gs
  | [], [], [] => True
  | _, _, _ => False

theorem ofLeBytes_replicate_zero (n : Nat) : ofLeBytes (List.replicate n 0) = 0 := by
  induction n with
  | zero => rfl
  | succ n ih =>
    rw [replicate_succ, ofLeBytes, ih]
    rfl

theorem same_unpacked {behind : Nat → UInt8} {c : ColumnDef} {f : Field} (hfit : Fits c f) (tail : List UInt8) :
    Same c f (unpacked behind c f tail) ↔ ZeroSafe behind c f := by
  obtain ⟨type, length⟩ := c
  cases type with
  | blob =>
    refine iff_of_true ?_ fun h => by cases h
    by_cases hzero : blobLength ⟨.blob, length⟩ f = 0
    · have hfield : unpacked behind ⟨.blob, length⟩ f tail = ⟨List.replicate (length - 8) 0, []⟩ := if_pos hzero
      have hlength : blobLength ⟨.blob, length⟩ ⟨List.replicate (length - 8) 0, []⟩ = 0 := by
        rw [blobLength, miCalcBlobLength, take_replicate, ofLeBytes_replicate_zero, ite_self]
      rw [hfield]
      exact ⟨hlength.trans hzero.symm, by rw [hlength, hzero, take_zero, take_zero]⟩
    have hfield : unpacked behind ⟨.blob, length⟩ f tail = ⟨f.bytes, f.data.take (blobLength ⟨.blob, length⟩ f) ++ tail⟩ :=
      if_neg hzero
    rw [hfield]
    exact ⟨rfl, take_left' (by rw [length_take]; exact min_eq_left hfit.2)⟩
  | varchar =>
    refine iff_of_true ?_ fun h => by cases h
    have hlength : varcharLength ⟨.varchar, length⟩ (unpacked behind ⟨.varchar, length⟩ f tail) =
        varcharLength ⟨.varchar, length⟩ f := by
      show ofLeBytes ((f.bytes.take _).take _) = _
      rw [take_take, min_eq_left (Nat.le_add_right _ _)]
      rfl
    refine ⟨hlength, ?_⟩
    rw [hlength]
    show ((f.bytes.take _).drop _).take _ = _
    rw [drop_take, Nat.add_sub_cancel_left, take_take, Nat.min_self]
  | skipZero =>
    by_cases hzero : f.bytes = zeroString behind length
    · have hfield : unpacked behind ⟨.skipZero, length⟩ f tail = ⟨List.replicate length 0, []⟩ := if_pos hzero
      rw [hfield]
      exact ⟨fun h _ _ => h.symm, fun h => (h rfl hzero).symm⟩
    have hfield : unpacked behind ⟨.skipZero, length⟩ f tail = ⟨f.bytes, []⟩ := if_neg hzero
    rw [hfield]
    exact iff_of_true rfl fun _ h => absurd h hzero
  | normal | skipEndspace | skipPrespace | constant | intervall | zero | check => exact iff_of_true rfl fun h => by cases h

theorem sameRow_unpackedRow {behind : Nat → UInt8} (hfits : List.Forall₂ Fits cs fs)
    (tail : List UInt8) : SameRow cs fs (unpackedRow behind cs fs tail) ↔ List.Forall₂ (ZeroSafe behind) cs fs := by
  induction hfits with
  | nil => exact iff_of_true trivial List.Forall₂.nil
  | cons hfit _ ih => exact (and_congr (same_unpacked hfit _) ih).trans forall₂_cons.symm

/-! ### `mi_create` -/

/-- What `min_pack_length` counts in a table without packed rows, in which VARCHAR columns have their full length. -/
def Share.reserve (share : Share) : Nat := if share.packRecord then 0 else (columnSums share.columns).varcharLength

structure SumsOf (columns : List ColumnDef) (s : ColumnSums) : Prop where
  reclength : s.reclength = (columns.map ColumnDef.length).sum
  packed : s.packed = columns.countP (·.type.hasBit)
  minPackLength : s.minPackLength = minLengths columns
  varcharLength : s.varcharLength = (columnSums columns).varcharLength

theorem foldl_columnSums (cs : List ColumnDef) (s : ColumnSums) :
    (cs.foldl ColumnSums.add s).reclength = s.reclength + (cs.map ColumnDef.length).sum ∧
      (cs.foldl ColumnSums.add s).packed = s.packed + cs.countP (·.type.hasBit) ∧
      (cs.foldl ColumnSums.add s).minPackLength = s.minPackLength + minLengths cs := by
  induction cs generalizing s with
  | nil => exact ⟨rfl, rfl, rfl⟩
  | cons c cs ih =>
    have hstep : (s.add c).reclength = s.reclength + c.length ∧ (s.add c).packed = s.packed + (if c.type.hasBit then 1 else 0) ∧
        (s.add c).minPackLength = s.minPackLength + c.minLength := by
      obtain ⟨type, length⟩ := c
      cases type <;> exact ⟨rfl, rfl, rfl⟩
    obtain ⟨hrec, hpacked, hmin⟩ := hstep
    obtain ⟨ihrec, ihpacked, ihmin⟩ := ih (s.add c)
    rw [foldl_cons, ihrec, ihpacked, ihmin, hrec, hpacked, hmin, map_cons, sum_cons, countP_cons, minLengths_cons]
    exact ⟨by omega, by omega, by omega⟩

theorem sumsOf_columnSums (columns : List ColumnDef) : SumsOf columns (columnSums columns) := by
  obtain ⟨hrec, hpacked, hmin⟩ := foldl_columnSums columns ⟨0, 0, 0, 0⟩
  rw [zero_add] at hrec hpacked hmin
  exact ⟨hrec, hpacked, hmin, rfl⟩

theorem foldl_varcharLength (cs : List ColumnDef) {s s' : ColumnSums} (h : s.varcharLength = s'.varcharLength) :
    (cs.foldl ColumnSums.add s).varcharLength = (cs.foldl ColumnSums.add s').varcharLength := by
  induction cs generalizing s s' with
  | nil => exact h
  | cons c cs ih =>
    apply ih
    obtain ⟨type, length⟩ := c
    cases type with
    | varchar =>
      show uint32 (s.varcharLength + _) = uint32 (s'.varcharLength + _)
      rw [h]
    | _ => exact h

theorem removeZeroField_eq {cs' : List ColumnDef} (h : removeZeroField cs = some cs') :
    ∃ front back, cs = front ++ ⟨.skipZero, 1⟩ :: back ∧ cs' = front ++ ⟨.normal, 1⟩ :: back := by
  induction cs generalizing cs' with
  | nil => cases h
  | cons c cs ih =>
    rw [removeZeroField] at h
    cases hcs : removeZeroField cs with
    | some rest =>
      rw [hcs] at h
      cases h
      obtain ⟨front, back, rfl, rfl⟩ := ih hcs
      exact ⟨c :: front, back, rfl, rfl⟩
    | none =>
      rw [hcs] at h
      dsimp only at h
      split at h
      · next hzero =>
        obtain ⟨type, length⟩ := c
        obtain ⟨rfl, rfl⟩ := hzero
        cases h
        exact ⟨[], cs, rfl, rfl⟩
      cases h

theorem SumsOf.removeZero {front back : List ColumnDef} {s : ColumnSums} (h : SumsOf (front ++ ⟨.skipZero, 1⟩ :: back) s) :
    SumsOf (front ++ ⟨.normal, 1⟩ :: back) { s with packed := s.packed - 1, minPackLength := s.minPackLength + 1 } where
  reclength := by
    rw [h.reclength, map_append, map_append]
    rfl
  packed := by
    show s.packed - 1 = _
    rw [h.packed, countP_append, countP_append, countP_cons_of_pos rfl, countP_cons_of_neg (by decide)]
    omega
  minPackLength := by
    rw [h.minPackLength, minLengths, minLengths, map_append, map_append, sum_append, sum_append,
      map_cons, map_cons, sum_cons, sum_cons]
    show _ + (0 + _) + 1 = _ + (1 + _)
    omega
  varcharLength := by
    rw [h.varcharLength, columnSums, columnSums, foldl_append, foldl_append]
    exact foldl_varcharLength back rfl

theorem avoidBadPacking_cases (recinfo : List ColumnDef) (s : ColumnSums) : avoidBadPacking recinfo s = (recinfo, s) ∨
      ∃ front back, recinfo = front ++ ⟨.skipZero, 1⟩ :: back ∧ avoidBadPacking recinfo s =
          (front ++ ⟨.normal, 1⟩ :: back, { s with packed := s.packed - 1, minPackLength := s.minPackLength + 1 }) := by
  rw [avoidBadPacking]
  split
  · cases hremove : removeZeroField recinfo with
    | none => exact .inl rfl
    | some recinfo' =>
      obtain ⟨front, back, hrecinfo, rfl⟩ := removeZeroField_eq hremove
      exact .inr ⟨front, back, hrecinfo, rfl⟩
  exact .inl rfl

/-- What `_mi_rec_unpack` relies on. -/
structure Created (share : Share) : Prop where
  reclength : share.reclength = (share.columns.map ColumnDef.length).sum
  packBits : share.packBits = (share.columns.countP (·.type.hasBit) + 7) / 8
  minPackLength : share.minPackLength =
    share.packBits + (share.reserve + minLengths share.columns + if share.calcChecksum then 1 else 0)
  few : share.columns.length * 7 ≤ 65535
  types : ∀ c ∈ share.columns, c.type.ofRow = true
  lengths : ∀ c ∈ share.columns, c.length < 32768

theorem avoidBadPacking_spec (htypes : ∀ c ∈ recinfo, c.type.ofRow = true) (hlengths : ∀ c ∈ recinfo, c.length < 32768) :
    ∃ columns s, avoidBadPacking recinfo (columnSums recinfo) = (columns, s) ∧ SumsOf columns s ∧
      columns.length = recinfo.length ∧ ∀ c ∈ columns, c.type.ofRow = true ∧ c.length < 32768 := by
  have hsums := sumsOf_columnSums recinfo
  rcases avoidBadPacking_cases recinfo (columnSums recinfo) with h | ⟨front, back, hrecinfo, h⟩
  · exact ⟨_, _, h, hsums, rfl, fun c hc => ⟨htypes c hc, hlengths c hc⟩⟩
  have hsums' : SumsOf (front ++ ⟨.skipZero, 1⟩ :: back) (columnSums recinfo) := by
    rw [← hrecinfo]
    exact hsums
  refine ⟨_, _, h, hsums'.removeZero, ?_, fun c hc => ?_⟩
  · rw [hrecinfo, length_append, length_append]
    rfl
  have hother (hmem : c ∈ front ++ ⟨.skipZero, 1⟩ :: back) : c.type.ofRow = true ∧ c.length < 32768 := by
    rw [← hrecinfo] at hmem
    exact ⟨htypes c hmem, hlengths c hmem⟩
  rcases mem_append.1 hc with hc | hc
  · exact hother (mem_append_left _ hc)
  rcases mem_cons.1 hc with rfl | hc
  · exact ⟨rfl, by decide⟩
  · exact hother (mem_append_right _ (mem_cons_of_mem _ hc))

theorem created_of_miCreate {oldOptions flags : Options} {headerLength : Nat}
    (hcreate : miCreate oldOptions flags headerLength recinfo = some share) (htypes : ∀ c ∈ recinfo, c.type.ofRow = true)
    (hlengths : ∀ c ∈ recinfo, c.length < 32768) : Created share := by
  obtain ⟨columns, s, havoid, hs, hlength, hmem⟩ := avoidBadPacking_spec htypes hlengths
  rw [miCreate, havoid] at hcreate
  dsimp only at hcreate
  split at hcreate
  · cases hcreate
  split at hcreate
  · cases hcreate
  next hfew =>
  cases hcreate
  refine ⟨hs.reclength, by rw [← hs.packed], ?_, ?_, fun c hc => (hmem c hc).1, fun c hc => (hmem c hc).2⟩
  · rw [Share.reserve, ← hs.varcharLength, ← hs.minPackLength]
    dsimp only
    omega
  rw [hlength]
  rw [miColumndefSize] at hfew
  omega

/-! ### Bounds of `min_pack_length` -/

theorem ColumnDef.minLength_le {c : ColumnDef} (h : c.length < 32768) : c.minLength ≤ 32768 := by
  obtain ⟨type, length⟩ := c
  cases type with
  | blob | skipZero | skipEndspace | skipPrespace | varchar => exact Nat.le_of_ble_eq_true rfl
  | normal | constant | intervall | zero | check => exact h.le

theorem minLengths_le (hlengths : ∀ c ∈ cs, c.length < 32768) : minLengths cs ≤ cs.length * 32768 := by
  induction cs with
  | nil => exact Nat.le_refl 0
  | cons c cs ih =>
    have hhead := ColumnDef.minLength_le (hlengths c mem_cons_self)
    have hrest := ih fun d hd => hlengths d (mem_cons_of_mem c hd)
    rw [minLengths_cons, length_cons]
    omega

theorem foldl_varcharLength_le (hfits : List.Forall₂ Fits cs fs) (hlengths : ∀ c ∈ cs, c.length < 32768) (s : ColumnSums) :
    (cs.foldl ColumnSums.add s).varcharLength ≤ s.varcharLength + cs.length * 32768 := by
  induction hfits generalizing s with
  | nil => exact Nat.le_add_right _ _
  | @cons c f cs fs hfit hfits ih =>
    have hrest := ih (fun d hd => hlengths d (mem_cons_of_mem c hd)) (s.add c)
    have hstep : (s.add c).varcharLength ≤ s.varcharLength + 32768 := by
      have hlt := hlengths c mem_cons_self
      obtain ⟨type, length⟩ := c
      cases type with
      | varchar =>
        have hlt' : length < 32768 := hlt
        have hpos : 1 ≤ length := by
          have hsum : haVarcharPacklength ((length : Int) - 1) + varcharLength ⟨.varchar, length⟩ f ≤ length := hfit.2
          rw [haVarcharPacklength] at hsum
          split at hsum <;> omega
        show uint32 (s.varcharLength + ((length : Int) - 1)) ≤ _
        rw [uint32]
        omega
      | _ => exact Nat.le_add_right _ _
    rw [foldl_cons, length_cons]
    omega

theorem Created.minPackLength_lt (h : Created share) {record : List Field}
    (hfits : List.Forall₂ Fits share.columns record) : share.minPackLength < 2147483648 := by
  have hmin := minLengths_le h.lengths
  have hvarchar := foldl_varcharLength_le hfits h.lengths ⟨0, 0, 0, 0⟩
  have hreserve : share.reserve ≤ share.columns.length * 32768 := by
    rw [Share.reserve]
    split
    · exact Nat.zero_le _
    rw [zero_add] at hvarchar
    exact hvarchar
  have hbits : share.columns.countP (·.type.hasBit) ≤ share.columns.length := countP_le_length
  have hfew := h.few
  have hpackBits := h.packBits
  rw [h.minPackLength]
  split <;> omega

/-! ### How long a packed row is -/

/-- The sum that `_my_calc_total_blob_length` returns, before it is cut to an `ulong`. -/
def myCalcTotalBlobLength : List ColumnDef → List Field → Nat
  | c :: cs, f :: fs => (if c.type = .blob then blobLength c f else 0) + myCalcTotalBlobLength cs fs
  | _, _ => 0

/-- `mi_create` counts a byte for such a column also if the column is empty. -/
def FieldType.ofSpaces : FieldType → Bool
  | .skipEndspace | .skipPrespace => true
  | _ => false

theorem length_packSpace {c : ColumnDef} {f : Field} (hlen : f.bytes.length = c.length) (hpos : 0 < c.length)
    (stripped : List UInt8) : 1 ≤ (packSpace c f stripped).1.length ∧ (packSpace c f stripped).1.length ≤ c.length := by
  have hhead : (spaceLength c stripped.length).length = 1 + if c.length > 255 ∧ stripped.length > 127 then 1 else 0 := by
    rw [spaceLength]
    split_ifs <;> rfl
  rw [packSpace]
  by_cases hshort : stripped.length + 1 + (if c.length > 255 ∧ stripped.length > 127 then 1 else 0) < c.length
  · rw [if_pos hshort, length_append, hhead]
    omega
  · rw [if_neg hshort, hlen]
    exact ⟨hpos, le_rfl⟩

theorem length_packVarchar {c : ColumnDef} {f : Field} (hlen : f.bytes.length = c.length)
    (hfit : haVarcharPacklength ((c.length : Int) - 1) + varcharLength c f ≤ c.length) :
    1 ≤ (packVarchar c f).length ∧ (packVarchar c f).length ≤ c.length + 1 := by
  rw [packVarchar]
  split_ifs with hone
  · rw [length_append, length_take, length_take, length_drop]
    omega
  · have htwo : haVarcharPacklength ((c.length : Int) - 1) = 2 := by
      rw [haVarcharPacklength] at hone ⊢
      exact if_neg fun hshort => hone (if_pos hshort)
    have hhead : 1 ≤ (storeKeyLengthInc (varcharLength c f)).length ∧ (storeKeyLengthInc (varcharLength c f)).length ≤ 3 := by
      rw [storeKeyLengthInc]
      split_ifs
      · rw [length_singleton]
        decide
      · rw [length_cons, length_beBytes]
        decide
    rw [length_append, length_take, length_drop]
    omega

/-- A packed column has the bytes that `mi_create` counts for it, and at most one more than the column and its BLOB. -/
theorem length_packColumn (behind : Nat → UInt8) {c : ColumnDef} {f : Field} (hfit : Fits c f)
    (hspaces : c.type.ofSpaces = true → 0 < c.length) : c.minLength ≤ (packColumn behind c f).1.length ∧
      (packColumn behind c f).1.length ≤ c.length + 1 + if c.type = .blob then blobLength c f else 0 := by
  obtain ⟨type, n⟩ := c
  cases type with
  | blob =>
    refine ⟨Nat.zero_le _, ?_⟩
    obtain ⟨hlen, -⟩ := hfit
    by_cases hzero : blobLength ⟨.blob, n⟩ f = 0
    · rw [packColumn]
      dsimp only
      rw [if_pos hzero]
      exact Nat.zero_le _
    · rw [packColumn_blob behind hzero, length_append, length_take, length_take, if_pos rfl]
      dsimp only at hlen ⊢
      omega
  | skipZero =>
    refine ⟨Nat.zero_le _, ?_⟩
    have hlen : f.bytes.length = n := hfit
    by_cases hzero : f.bytes = zeroString behind n
    · rw [packColumn]
      dsimp only
      rw [if_pos hzero]
      exact Nat.zero_le _
    · rw [packColumn]
      dsimp only
      rw [if_neg hzero]
      exact hlen.le.trans (Nat.le_succ n)
  | skipEndspace | skipPrespace =>
    obtain ⟨hone, hle⟩ := length_packSpace hfit (hspaces rfl) _
    exact ⟨hone, hle.trans (Nat.le_succ n)⟩
  | varchar => exact length_packVarchar hfit.1 hfit.2
  | normal | constant | intervall | zero | check =>
    have hlen : f.bytes.length = n := hfit
    exact ⟨hlen.ge, hlen.le.trans (Nat.le_succ n)⟩

theorem length_rowBytes (behind : Nat → UInt8) (hfits : List.Forall₂ Fits cs fs)
    (hspaces : ∀ c ∈ cs, c.type.ofSpaces = true → 0 < c.length) : minLengths cs ≤ (rowBytes behind cs fs).length ∧
      (rowBytes behind cs fs).length ≤ (cs.map ColumnDef.length).sum + cs.length + myCalcTotalBlobLength cs fs := by
  induction hfits with
  | nil => exact ⟨le_rfl, le_rfl⟩
  | @cons c f cs fs hfit _ ih =>
    obtain ⟨hmin, hmax⟩ := length_packColumn behind hfit (hspaces c mem_cons_self)
    obtain ⟨hmins, hmaxs⟩ := ih fun c' hc' => hspaces c' (mem_cons_of_mem c hc')
    rw [minLengths_cons, length_rowBytes_cons, map_cons, sum_cons, length_cons, myCalcTotalBlobLength]
    omega

theorem budgeted_zero (behind : Nat → UInt8) (hfits : List.Forall₂ Fits cs fs)
    (hspaces : ∀ c ∈ cs, c.type.ofSpaces = true → 0 < c.length) : Budgeted behind 0 cs fs := by
  induction hfits with
  | nil => exact trivial
  | @cons c f cs fs _ hfits ih =>
    have hspaces' : ∀ c' ∈ cs, c'.type.ofSpaces = true → 0 < c'.length := fun c' hc' => hspaces c' (mem_cons_of_mem c hc')
    refine ⟨fun _ => ?_, ih hspaces'⟩
    rw [zero_add]
    exact (length_rowBytes behind hfits hspaces').1

/-! ### Whole rows -/

/-- `_mi_rec_unpack` of what `_mi_rec_pack` wrote and returned does not fail and gives the same record. `rest` is the memory
behind the row. -/
def RoundTrips (share : Share) (checksum : UInt8) (record : List Field) (rest : List UInt8) : Prop :=
  ∃ fields,
    miRecUnpack share ((miRecPack behind share checksum record).1 ++ rest) (miRecPack behind share checksum record).2 =
        some fields ∧
      SameRow share.columns record fields

theorem length_rowBits (hfits : List.Forall₂ Fits cs fs) : (rowBits behind cs fs).length = cs.countP (·.type.hasBit) := by
  induction hfits with
  | nil => rfl
  | @cons c f cs fs _ _ ih =>
    have hcolumn : (packColumn behind c f).2.toList.length = if c.type.hasBit then 1 else 0 := by
      rw [← isSome_packColumn behind c f]
      cases (packColumn behind c f).2 <;> rfl
    rw [rowBits, length_append, hcolumn, ih, countP_cons, add_comm]

section Row

variable {behind : Nat → UInt8} {share : Share} {record : List Field} (checksum : UInt8) (rest : List UInt8)

theorem Created.length_flagBytes (h : Created share) (hfits : List.Forall₂ Fits share.columns record) :
    (BitWriter.start.pushAll (rowBits behind share.columns record)).finish.length = share.packBits := by
  rw [BitWriter.length_finish_pushAll _ BitWriter.ok_start (k := 0) rfl, length_rowBits behind hfits, h.packBits]
  show 0 + (0 + _ + 7) / 8 = _
  rw [zero_add, zero_add]

theorem miRecPack_bytes (behind : Nat → UInt8) (share : Share) (checksum : UInt8) (record : List Field) :
    (miRecPack behind share checksum record).1 = (BitWriter.start.pushAll (rowBits behind share.columns record)).finish ++
        (rowBytes behind share.columns record ++ if share.calcChecksum then [checksum] else []) := by
  rw [miRecPack, packColumns_eq]
  rw [nil_append, append_assoc]

theorem Created.length_miRecPack (h : Created share) (hfits : List.Forall₂ Fits share.columns record) :
    (miRecPack behind share checksum record).1.length =
      share.packBits + (rowBytes behind share.columns record).length + if share.calcChecksum then 1 else 0 := by
  rw [miRecPack_bytes, length_append, length_append, h.length_flagBytes hfits, ← add_assoc]
  cases share.calcChecksum <;> rfl

/-- `_mi_rec_unpack` fails or gives the columns as they are read back. It gives them if the length did not overflow and the
comparisons with `min_pack_length` hold. -/
theorem miRecUnpack_miRecPack (behind : Nat → UInt8) (h : Created share) (hfits : List.Forall₂ Fits share.columns record) :
    ∃ tail, Gives
      (miRecUnpack share ((miRecPack behind share checksum record).1 ++ rest) (miRecPack behind share checksum record).2)
      (unpackedRow behind share.columns record tail) True
      ((miRecPack behind share checksum record).1.length < 4294967296 ∧
        share.reserve + minLengths share.columns ≤ (rowBytes behind share.columns record).length ∧
        Budgeted behind share.reserve share.columns record) := by
  have hlength : (miRecPack behind share checksum record).1.length = _ := h.length_miRecPack checksum hfits
  have hmin := h.minPackLength
  have hminlt := h.minPackLength_lt hfits
  generalize ht : (if share.calcChecksum then 1 else 0) = t at hlength hmin
  have hfound : (miRecPack behind share checksum record).2 = uint32 (miRecPack behind share checksum record).1.length := rfl
  generalize (miRecPack behind share checksum record).2 = found at hfound ⊢
  have hmem : (miRecPack behind share checksum record).1 ++ rest =
      (BitWriter.start.pushAll (rowBits behind share.columns record)).finish ++
        (rowBytes behind share.columns record ++ ((if share.calcChecksum then [checksum] else []) ++ rest)) := by
    rw [miRecPack_bytes, append_assoc, append_assoc]
  have hdrop : ((miRecPack behind share checksum record).1 ++ rest).drop share.packBits =
      rowBytes behind share.columns record ++ ((if share.calcChecksum then [checksum] else []) ++ rest) := by
    rw [hmem]
    exact drop_left' (h.length_flagBytes hfits)
  have hat : BitReader.At .start (rowBits behind share.columns record)
      (.start ((miRecPack behind share checksum record).1 ++ rest)) := by
    rw [hmem]
    exact BitReader.at_start _ _
  have hcur : uint32 ((share.minPackLength : Int) - share.packBits) = share.reserve + minLengths share.columns + t := by
    rw [uint32]
    omega
  have hcurlt : uint32 ((share.minPackLength : Int) - share.packBits) < 4294967296 := by omega
  obtain ⟨st, hpos, hto, hdone, hrow⟩ := @unpackColumns_gives behind found t share.reserve _ _ hfits h.types h.lengths
    ⟨⟨_, share.packBits, uint32 ((share.minPackLength : Int) - share.packBits)⟩,
      .start ((miRecPack behind share checksum record).1 ++ rest), 0⟩ _ _ hcurlt hdrop hat
  refine ⟨(if share.calcChecksum then [checksum] else []) ++ rest, ?_⟩
  have hpos' : st.cur.pos = share.packBits + (rowBytes behind share.columns record).length := hpos
  have hto' : st.toPos = share.reclength := by
    rw [hto, h.reclength]
    exact zero_add _
  rw [miRecUnpack]
  dsimp only
  rw [uint32] at hfound
  rcases Nat.lt_or_ge (miRecPack behind share checksum record).1.length 4294967296 with hsmall | hlarge
  · have hexact := hrow.iff ⟨by show found = share.packBits + _ + t; omega, by omega, hcur, by
      show uint32 ((share.minPackLength : Int) - share.packBits) < _
      omega⟩
    by_cases hshort : found < share.minPackLength
    · rw [if_pos hshort]
      exact Gives.fails fun hcond => by
        omega
    rw [if_neg hshort]
    rcases hrow.only with hnone | hsome
    · rw [hnone]
      refine Gives.fails fun hcond => ?_
      have hsome := hexact.2 hcond.2.2
      rw [hnone] at hsome
      cases hsome
    rw [hsome]
    dsimp only
    rw [ht, if_pos ⟨hto', by omega, hdone⟩]
    exact (Gives.always _ True).congr id fun _ => iff_of_true trivial ⟨hsmall, by omega, hexact.1 hsome⟩
  -- the length that was returned is not the length of the row
  have hlong : ¬((miRecPack behind share checksum record).1.length < 4294967296 ∧
      share.reserve + minLengths share.columns ≤ (rowBytes behind share.columns record).length ∧
      Budgeted behind share.reserve share.columns record) := fun hcond => absurd hcond.1 (by omega)
  by_cases hshort : found < share.minPackLength
  · rw [if_pos hshort]
    exact Gives.fails hlong
  rw [if_neg hshort]
  rcases hrow.only with hnone | hsome
  · rw [hnone]
    exact Gives.fails hlong
  rw [hsome]
  dsimp only
  rw [ht, if_neg (fun hcheck => by
    omega)]
  exact Gives.fails hlong

/-- A packed row is read back exactly if its length fits into an `uint`, no column is taken for zero that is not, and the row
passes the comparisons with `min_pack_length`. -/
theorem miRecUnpack_miRecPack_iff {oldOptions flags : Options} {headerLength : Nat} {recinfo : List ColumnDef}
    (hcreate : miCreate oldOptions flags headerLength recinfo = some share) (htypes : ∀ c ∈ recinfo, c.type.ofRow = true)
    (hlengths : ∀ c ∈ recinfo, c.length < 32768) (hfits : List.Forall₂ Fits share.columns record) :
    RoundTrips behind share checksum record rest ↔
      (miRecPack behind share checksum record).1.length < 4294967296 ∧
        List.Forall₂ (ZeroSafe behind) share.columns record ∧
        share.reserve + minLengths share.columns ≤ (rowBytes behind share.columns record).length ∧
        Budgeted behind share.reserve share.columns record := by
  obtain ⟨tail, hgives⟩ := miRecUnpack_miRecPack checksum rest behind (created_of_miCreate hcreate htypes hlengths) hfits
  constructor
  · rintro ⟨fields, hunpack, hsame⟩
    rcases hgives.only with hnone | hsome
    · rw [hnone] at hunpack
      cases hunpack
    obtain ⟨hlength, hmin, hbudget⟩ := (hgives.iff trivial).1 hsome
    rw [hsome] at hunpack
    cases hunpack
    exact ⟨hlength, (sameRow_unpackedRow hfits tail).1 hsame, hmin, hbudget⟩
  · rintro ⟨hlength, hsafe, hmin, hbudget⟩
    exact ⟨_, (hgives.iff trivial).2 ⟨hlength, hmin, hbudget⟩, (sameRow_unpackedRow hfits tail).2 hsafe⟩

end Row

def sampleShare : Share :=
  ⟨[⟨.normal, 2⟩, ⟨.skipZero, 2⟩, ⟨.skipEndspace, 5⟩, ⟨.varchar, 4⟩, ⟨.blob, 9⟩], 22, 6, 1, true, true⟩

def sampleRecord : List Field :=
  [⟨[1, 2], []⟩, ⟨[0, 0], []⟩, ⟨[65, 32, 32, 32, 32], []⟩, ⟨[2, 66, 67, 0], []⟩, ⟨[3], [7, 8, 9]⟩]

theorem miCreate_sample : miCreate ⟨false, false⟩ ⟨false, true⟩ 400 sampleShare.columns = some sampleShare := rfl

theorem not_roundTrips_long {data : List UInt8} (hdata : data.length = 4294967291) :
    ¬RoundTrips (fun _ => 0) ⟨[⟨.blob, 12⟩], 12, 1, 1, true, false⟩ 0 [⟨[251, 255, 255, 255], data⟩] [] := by
  have hcreated : Created ⟨[⟨.blob, 12⟩], 12, 1, 1, true, false⟩ := by
    refine ⟨rfl, rfl, rfl, by decide, by decide, by decide⟩
  have hblob : blobLength ⟨.blob, 12⟩ ⟨[251, 255, 255, 255], data⟩ = 4294967291 := rfl
  have hfit : Fits ⟨.blob, 12⟩ ⟨[251, 255, 255, 255], data⟩ := ⟨rfl, by rw [hblob, hdata]⟩
  have hfits : List.Forall₂ Fits [⟨.blob, 12⟩] [⟨[251, 255, 255, 255], data⟩] := List.Forall₂.cons hfit List.Forall₂.nil
  have hcolumn := packColumn_blob (fun _ => 0) (n := 12) (f := ⟨[251, 255, 255, 255], data⟩) (by rw [hblob]; decide)
  have hlength : (rowBytes (fun _ => 0) [⟨.blob, 12⟩] [⟨[251, 255, 255, 255], data⟩]).length = 4294967295 := by
    have hsize : sizeLength ⟨.blob, 12⟩ = 4 := rfl
    have hnil : rowBytes (fun _ => 0) [] [] = [] := rfl
    rw [length_rowBytes_cons, hcolumn, hblob, hsize, hnil, length_append, length_take, length_take, hdata, Nat.min_self]
    simp
  obtain ⟨tail, hgives⟩ := miRecUnpack_miRecPack 0 [] (fun _ => 0) hcreated hfits
  rintro ⟨fields, hunpack, -⟩
  rcases hgives.only with hnone | hsome
  · rw [hnone] at hunpack
    cases hunpack
  have hlt := ((hgives.iff trivial).1 hsome).1
  rw [hcreated.length_miRecPack 0 hfits, hlength] at hlt
  exact absurd hlt (by decide)

end Mysql51.Myisam
