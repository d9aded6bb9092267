import Mysql51.Myisam.PackBits

/-!
# One column of a packed row

What `_mi_rec_unpack` makes of a column that `_mi_rec_pack` wrote. It takes exactly the bytes of the column. Whether it goes on
is decided by the bytes that are left for the columns behind it and by what `min_pack_length` still counts for them.
-/

namespace Mysql51.Myisam

open Machine List

/-- The types of columns of rows that are written with `_mi_rec_pack`. -/
def FieldType.ofRow : FieldType → Bool
  | .normal | .skipZero | .skipEndspace | .skipPrespace | .varchar | .blob => true
  | _ => false

def FieldType.hasBit : FieldType → Bool
  | .skipZero | .skipEndspace | .skipPrespace | .blob => true
  | _ => false

def ColumnDef.minLength (c : ColumnDef) : Nat :=
  match c.type with
  | .blob | .skipZero => 0
  | .skipPrespace | .skipEndspace | .varchar => 1
  | _ => c.length

/-- A column of a record as its definition has it. The length of a VARCHAR fits, and the pointer of a BLOB leads to its data. -/
def Fits (c : ColumnDef) (f : Field) : Prop :=
  match c.type with
  | .blob => f.bytes.length = c.length - 8 ∧ blobLength c f ≤ f.data.length
  | .varchar => f.bytes.length = c.length ∧ haVarcharPacklength ((c.length : Int) - 1) + varcharLength c f ≤ c.length
  | _ => f.bytes.length = c.length

instance : ∀ c f, Decidable (Fits c f)
  | ⟨.blob, _⟩, _ => inferInstanceAs (Decidable (_ ∧ _))
  | ⟨.varchar, _⟩, _ => inferInstanceAs (Decidable (_ ∧ _))
  | ⟨.normal, _⟩, _ | ⟨.skipEndspace, _⟩, _ | ⟨.skipPrespace, _⟩, _ | ⟨.skipZero, _⟩, _ => inferInstanceAs (Decidable (_ = _))
  | ⟨.constant, _⟩, _ | ⟨.intervall, _⟩, _ | ⟨.zero, _⟩, _ | ⟨.check, _⟩, _ => inferInstanceAs (Decidable (_ = _))

/-- Equal bytes for a fixed column, equal length and content for a VARCHAR or a BLOB. -/
def Same (c : ColumnDef) (f g : Field) : Prop :=
  match c.type with
  | .blob => blobLength c g = blobLength c f ∧ g.data.take (blobLength c g) = f.data.take (blobLength c f)
  | .varchar =>
    varcharLength c g = varcharLength c f ∧
      (g.bytes.drop (haVarcharPacklength ((c.length : Int) - 1))).take (varcharLength c g) =
        (f.bytes.drop (haVarcharPacklength ((c.length : Int) - 1))).take (varcharLength c f)
  | _ => g.bytes = f.bytes

def unpacked (behind : Nat → UInt8) (c : ColumnDef) (f : Field) (tail : List UInt8) : Field :=
  match c.type with
  | .blob =>
    if blobLength c f = 0 then ⟨List.replicate (c.length - 8) 0, []⟩ else ⟨f.bytes, f.data.take (blobLength c f) ++ tail⟩
  | .skipZero => if f.bytes = zeroString behind c.length then ⟨List.replicate c.length 0, []⟩ else ⟨f.bytes, []⟩
  | .varchar => ⟨f.bytes.take (haVarcharPacklength ((c.length : Int) - 1) + varcharLength c f), []⟩
  | _ => ⟨f.bytes, []⟩

/-- The columns at which `_mi_rec_unpack` compares what is left with `min_pack_length`. -/
def Compared (behind : Nat → UInt8) (c : ColumnDef) (f : Field) : Prop :=
  match c.type with
  | .blob => blobLength c f ≠ 0
  | .skipZero => f.bytes ≠ zeroString behind c.length
  | .varchar => False
  | _ => True

instance (behind : Nat → UInt8) : ∀ c f, Decidable (Compared behind c f)
  | ⟨.blob, _⟩, _ => inferInstanceAs (Decidable (_ ≠ _))
  | ⟨.skipZero, _⟩, _ => inferInstanceAs (Decidable (_ ≠ _))
  | ⟨.varchar, _⟩, _ => inferInstanceAs (Decidable False)
  | ⟨.normal, _⟩, _ | ⟨.skipEndspace, _⟩, _ | ⟨.skipPrespace, _⟩, _ => inferInstanceAs (Decidable True)
  | ⟨.constant, _⟩, _ | ⟨.intervall, _⟩, _ | ⟨.zero, _⟩, _ | ⟨.check, _⟩, _ => inferInstanceAs (Decidable True)

/-! ### Results that are known up to a comparison -/

structure Gives {α : Type} (r : Option α) (x : α) (Exact Cond : Prop) : Prop where
  only : r = none ∨ r = some x
  iff : Exact → (r = some x ↔ Cond)

namespace Gives

variable {α β : Type} {r : Option α} {x : α} {Exact Cond B : Prop} [Decidable B]

theorem last (h : Exact → (B ↔ ¬Cond)) : Gives (if B then none else some x) x Exact Cond := by
  by_cases hB : B
  · rw [if_pos hB]
    exact ⟨.inl rfl, fun hex => ⟨fun hnone => (nomatch hnone), fun hcond => absurd hcond ((h hex).1 hB)⟩⟩
  rw [if_neg hB]
  exact ⟨.inr rfl, fun hex => ⟨fun _ => not_not.1 fun hcond => hB ((h hex).2 hcond), fun _ => rfl⟩⟩

theorem fails (h : ¬Cond) : Gives none x Exact Cond := ⟨.inl rfl, fun _ => ⟨fun hnone => (nomatch hnone), fun hcond => absurd hcond h⟩⟩

theorem always (x : α) (Exact : Prop) : Gives (some x) x Exact True := ⟨.inr rfl, fun _ => ⟨fun _ => trivial, fun _ => rfl⟩⟩

theorem map (hr : Gives r x Exact Cond) (f : α → β) : Gives (r.map f) (f x) Exact Cond where
  only := hr.only.imp (fun h => by rw [h]; rfl) (fun h => by rw [h]; rfl)
  iff hex := by
    rw [← hr.iff hex]
    rcases hr.only with h | h
    · rw [h]
      exact ⟨fun hnone => (nomatch hnone), fun hnone => (nomatch hnone)⟩
    rw [h]
    exact ⟨fun _ => rfl, fun _ => rfl⟩

theorem bind {g : α → Option β} {y : β} {Exact' Cond' : Prop} (hr : Gives r x Exact Cond) (hg : Gives (g x) y Exact' Cond')
    (hexact : Exact → Exact') : Gives (r.bind g) y Exact (Cond ∧ Cond') := by
  rcases hr.only with h | h
  · rw [h]
    refine ⟨.inl rfl, fun hex => ⟨fun hnone => (nomatch hnone), fun hcond => ?_⟩⟩
    have hsome := (hr.iff hex).2 hcond.1
    rw [h] at hsome
    cases hsome
  rw [h]
  exact ⟨hg.only, fun hex => (hg.iff (hexact hex)).trans ⟨fun hcond' => ⟨(hr.iff hex).1 h, hcond'⟩, And.right⟩⟩

theorem congr {Exact' Cond' : Prop} (hr : Gives r x Exact Cond) (hexact : Exact' → Exact) (hcond : Exact' → (Cond ↔ Cond')) :
    Gives r x Exact' Cond' :=
  ⟨hr.only, fun hex => (hr.iff (hexact hex)).trans (hcond hex)⟩

end Gives

/-- The `n` bytes of a column are at `from`, and `t` bytes of the row are behind them. `m` is what the column added to
`min_pack_length`. -/
structure Exact (n t m fromEnd : Nat) (cur : Cursor) : Prop where
  fromEnd : fromEnd = cur.pos + n + t
  small : n + t < 4294967296
  counted : m ≤ cur.minPackLength
  minPackLength : cur.minPackLength < 2147483648

def Cursor.behind (cur : Cursor) (n m : Nat) (tail : List UInt8) : Cursor := ⟨tail, cur.pos + n, uint32 (cur.minPackLength - m)⟩

section Columns

variable {c : ColumnDef} {f : Field} {cur : Cursor} (fromEnd t : Nat) {tail : List UInt8}

theorem unpackNormal_gives (hlen : f.bytes.length = c.length) (hrest : cur.rest = f.bytes ++ tail) :
    Gives (unpackNormal c fromEnd cur) (⟨f.bytes, []⟩, cur.behind f.bytes.length c.length tail)
      (Exact f.bytes.length t c.length fromEnd cur) (cur.minPackLength - c.length ≤ t) := by
  have htake : cur.rest.take c.length = f.bytes := by rw [hrest, ← hlen, take_left]
  have hdrop : cur.rest.drop c.length = tail := by rw [hrest, ← hlen, drop_left]
  have hcur : (cur.count c.length).skip c.length = cur.behind f.bytes.length c.length tail := by
    rw [Cursor.skip, Cursor.count, Cursor.behind, hdrop, hlen]
  rw [unpackNormal, htake, hcur]
  apply Gives.last
  intro ⟨hend, hsmall, hcounted, hmin⟩
  rw [Cursor.left, uint32]
  omega

theorem unpackWhole_gives (hlen : f.bytes.length = c.length) (hrest : cur.rest = f.bytes ++ tail) {m : Nat} (hm : m ≤ 1)
    (hc : c.length < 32768) {cur' : Cursor} (hcur' : cur' = cur.count m) :
    Gives (unpackWhole c fromEnd cur') (⟨f.bytes, []⟩, cur.behind f.bytes.length m tail)
      (Exact f.bytes.length t m fromEnd cur) (cur.minPackLength - m ≤ t) := by
  subst hcur'
  have htake : (cur.count m).rest.take c.length = f.bytes := by rw [Cursor.count, hrest, ← hlen, take_left]
  have hdrop : cur.rest.drop c.length = tail := by rw [hrest, ← hlen, drop_left]
  have hskip : (cur.count m).skip c.length = cur.behind f.bytes.length m tail := by
    rw [Cursor.skip, Cursor.count, Cursor.behind, hdrop, hlen]
  rw [unpackWhole, htake, hskip]
  apply Gives.last
  intro ⟨hend, hsmall, hcounted, hmin⟩
  show uint32 ((uint32 ((cur.minPackLength : Int) - m) : Nat) + (c.length : Int)) > uint32 ((fromEnd : Int) - cur.pos) ↔ _
  rw [uint32, uint32, uint32]
  omega

theorem Cursor.count_zero (hcur : cur.minPackLength < 4294967296) : cur.count 0 = cur := by
  have hmin : uint32 ((cur.minPackLength : Int) - 0) = cur.minPackLength := by
    rw [uint32]
    omega
  rw [Cursor.count, Int.natCast_zero, hmin]

/-! ### Columns without their spaces -/

theorem getSpaceLength_gives {n : Nat} (hn : n < c.length) (hc : c.length < 32768) {more : List UInt8}
    (hrest : cur.rest = spaceLength c n ++ more) :
    Gives (getSpaceLength c fromEnd cur) (n, (spaceLength c n).length) (fromEnd = cur.pos + (spaceLength c n).length + n + t) True := by
  by_cases htwo : c.length > 255 ∧ n > 127
  · have hbytes : spaceLength c n = [UInt8.ofNat ((n &&& 127) + 128), UInt8.ofNat (n >>> 7)] := if_pos htwo
    have hlow : n &&& 127 = n % 128 := Nat.and_two_pow_sub_one_eq_mod n 7
    have hhigh : n >>> 7 = n / 128 := Nat.shiftRight_eq_div_pow n 7
    have hfirst : (cur.rest.headD 0).toNat = n % 128 + 128 := by
      rw [hrest, hbytes, hlow]
      show (UInt8.ofNat (n % 128 + 128)).toNat = _
      rw [UInt8.toNat_ofNat']
      omega
    have hsecond : ((cur.rest.drop 1).headD 0).toNat = n / 128 := by
      rw [hrest, hbytes, hhigh]
      show (UInt8.ofNat (n / 128)).toNat = _
      rw [UInt8.toNat_ofNat']
      omega
    have hset : (n % 128 + 128) &&& 128 ≠ 0 := by
      have htest : (n % 128 + 128).testBit 7 = true := by
        rw [Nat.testBit_eq_decide_div_mod_eq]
        have : (n % 128 + 128) / 2 ^ 7 % 2 = 1 := by omega
        exact decide_eq_true this
      have hand := Nat.and_two_pow (n % 128 + 128) 7
      rw [htest] at hand
      exact fun h0 => absurd (hand.symm.trans h0) (by decide)
    have hvalue : ((n % 128 + 128) &&& 127) + (n / 128) <<< 7 = n := by
      have hmask : (n % 128 + 128) &&& 127 = (n % 128 + 128) % 128 := Nat.and_two_pow_sub_one_eq_mod _ 7
      rw [hmask, Nat.shiftLeft_eq]
      omega
    rw [getSpaceLength, hfirst, hsecond, if_pos ⟨htwo.1, hset⟩, hvalue, hbytes]
    apply Gives.last
    intro hend
    rw [hend, length_cons, length_singleton]
    simp only [not_true_eq_false, iff_false, not_le]
    omega
  have hbytes : spaceLength c n = [UInt8.ofNat n] := if_neg htwo
  have hfirst : (cur.rest.headD 0).toNat = n := by
    rw [hrest, hbytes]
    show (UInt8.ofNat n).toNat = _
    rw [UInt8.toNat_ofNat']
    omega
  have hclear : ¬(c.length > 255 ∧ n &&& 128 ≠ 0) := by
    rintro ⟨hlong, hset⟩
    have hand := Nat.and_two_pow n 7
    rw [Nat.testBit_eq_false_of_lt (by omega : n < 2 ^ 7)] at hand
    exact hset hand
  rw [getSpaceLength, hfirst, if_neg hclear, hbytes]
  apply Gives.last
  intro hend
  rw [hend, length_singleton]
  simp only [not_true_eq_false, iff_false]
  omega

def Padded (c : ColumnDef) (f : Field) (stripped : List UInt8) : Prop :=
  f.bytes =
    if c.type = .skipEndspace then stripped ++ List.replicate (c.length - stripped.length) 32
    else List.replicate (c.length - stripped.length) 32 ++ stripped

theorem takeSpace_gives {stripped : List UInt8} (hpad : Padded c f stripped) (hshort : stripped.length < c.length)
    (hc : c.length < 32768) (hrest : cur.rest = stripped ++ tail) :
    Gives (takeSpace c fromEnd stripped.length cur) (⟨f.bytes, []⟩, cur.skip stripped.length)
      (Exact stripped.length t 0 fromEnd cur) (cur.minPackLength ≤ t) := by
  have htake : cur.rest.take stripped.length = stripped := by rw [hrest, take_left]
  rw [takeSpace, htake, hpad]
  apply Gives.last
  intro ⟨hend, hsmall, _, hmin⟩
  rw [Cursor.left, uint32, uint32]
  omega

theorem unpackSpace_gives {stripped : List UInt8} (hpad : Padded c f stripped) (hshort : stripped.length < c.length)
    (hc : c.length < 32768) (hrest : cur.rest = (spaceLength c stripped.length ++ stripped) ++ tail) :
    Gives (unpackSpace c fromEnd cur) (⟨f.bytes, []⟩, cur.behind (spaceLength c stripped.length ++ stripped).length 1 tail)
      (Exact (spaceLength c stripped.length ++ stripped).length t 1 fromEnd cur) (cur.minPackLength - 1 ≤ t) := by
  rw [append_assoc] at hrest
  have hlength := getSpaceLength_gives fromEnd t hshort hc hrest
  rcases hlength.only with hnone | hsome
  · rw [unpackSpace, hnone]
    refine ⟨.inl rfl, fun hex => ?_⟩
    have hend := hex.fromEnd
    rw [length_append, ← add_assoc] at hend
    have habsurd := (hlength.iff hend).2 trivial
    rw [hnone] at habsurd
    cases habsurd
  rw [unpackSpace, hsome]
  have hdrop : cur.rest.drop (spaceLength c stripped.length).length = stripped ++ tail := by rw [hrest, drop_left]
  have htaken := takeSpace_gives fromEnd t hpad hshort hc
    (show ((cur.skip (spaceLength c stripped.length).length).count 1).rest = stripped ++ tail from hdrop)
  have hcur : ((cur.skip (spaceLength c stripped.length).length).count 1).skip stripped.length =
      cur.behind (spaceLength c stripped.length ++ stripped).length 1 tail := by
    rw [Cursor.skip, Cursor.count, Cursor.skip, Cursor.behind, hdrop, drop_left, length_append, add_assoc]
  rw [hcur] at htaken
  have hmin (hex : Exact (spaceLength c stripped.length ++ stripped).length t 1 fromEnd cur) :
      uint32 ((cur.minPackLength : Int) - (1 : Nat)) = cur.minPackLength - 1 := by
    have := hex.counted
    have := hex.minPackLength
    rw [uint32]
    omega
  apply htaken.congr
  · intro hex
    have hend := hex.fromEnd
    have hsmall := hex.small
    have hlt := hex.minPackLength
    rw [length_append] at hend hsmall
    refine ⟨?_, by omega, Nat.zero_le _, ?_⟩
    · show fromEnd = cur.pos + (spaceLength c stripped.length).length + stripped.length + t
      omega
    show uint32 ((cur.minPackLength : Int) - (1 : Nat)) < _
    rw [hmin hex]
    omega
  intro hex
  show uint32 ((cur.minPackLength : Int) - (1 : Nat)) ≤ t ↔ _
  rw [hmin hex]

theorem replicate_space {spaces stripped : List UInt8} {n : Nat} (h : ∀ x ∈ spaces, (x == 32) = true)
    (hlen : stripped.length + spaces.length = n) : List.replicate (n - stripped.length) 32 = spaces :=
  (eq_replicate_iff.2 ⟨by omega, fun x hx => beq_iff_eq.1 (h x hx)⟩).symm

theorem padded_rdropWhile (htype : c.type = .skipEndspace) (hlen : f.bytes.length = c.length) :
    Padded c f (f.bytes.rdropWhile (· == 32)) := by
  have happend := rdropWhile_append_rtakeWhile (p := (· == (32 : UInt8))) (l := f.bytes)
  rw [Padded, if_pos htype, replicate_space (fun _ => mem_rtakeWhile_imp), happend]
  rw [← length_append, happend, hlen]

theorem padded_dropWhile (htype : c.type = .skipPrespace) (hlen : f.bytes.length = c.length) :
    Padded c f (f.bytes.dropWhile (· == 32)) := by
  have happend := takeWhile_append_dropWhile (p := (· == (32 : UInt8))) (l := f.bytes)
  rw [Padded, if_neg (by rw [htype]; decide), replicate_space (fun _ => mem_takeWhile_imp), happend]
  rw [Nat.add_comm, ← length_append, happend, hlen]

theorem unpackBitColumn_space (htype : c.type = .skipEndspace ∨ c.type = .skipPrespace) {stripped : List UInt8}
    (hlen : f.bytes.length = c.length) (hpad : Padded c f stripped) (hc : c.length < 32768) {flagged : Bool}
    (hflagged : (packSpace c f stripped).2 = some flagged) (hrest : cur.rest = (packSpace c f stripped).1 ++ tail) :
    Gives (unpackBitColumn c fromEnd flagged cur) (⟨f.bytes, []⟩, cur.behind (packSpace c f stripped).1.length 1 tail)
      (Exact (packSpace c f stripped).1.length t 1 fromEnd cur) (cur.minPackLength - 1 ≤ t) := by
  by_cases hshort : stripped.length + 1 + (if c.length > 255 ∧ stripped.length > 127 then 1 else 0) < c.length
  · have hpack : packSpace c f stripped = (spaceLength c stripped.length ++ stripped, some true) := if_pos hshort
    rw [hpack] at hflagged hrest ⊢
    cases hflagged
    have hunpack : unpackBitColumn c fromEnd true cur = unpackSpace c fromEnd cur := by
      rw [unpackBitColumn, if_pos rfl]
      rcases htype with htype | htype <;> rw [htype]
    rw [hunpack]
    exact unpackSpace_gives fromEnd t hpad (by omega) hc hrest
  have hpack : packSpace c f stripped = (f.bytes, some false) := if_neg hshort
  rw [hpack] at hflagged hrest ⊢
  cases hflagged
  have hunpack : unpackBitColumn c fromEnd false cur = unpackWhole c fromEnd (cur.count 1) := by
    rw [unpackBitColumn, if_neg (by decide)]
    rcases htype with htype | htype <;> rw [htype]
  rw [hunpack]
  exact unpackWhole_gives fromEnd t hlen hrest (le_refl 1) hc rfl

/-! ### BLOB columns -/

theorem sizeLength_of_blobLength (hc : c.length < 32768) (h : blobLength c f ≠ 0) :
    sizeLength c = c.length - 8 ∧ sizeLength c ≤ 4 := by
  have hsize : 1 ≤ sizeLength c ∧ sizeLength c ≤ 4 := by
    by_contra hno
    exact h (if_neg hno)
  refine ⟨?_, hsize.2⟩
  have h1 := hsize.1
  have h2 := hsize.2
  rw [sizeLength, uint32] at h1 h2 ⊢
  omega

theorem unpackBlob_gives (hc : c.length < 32768) (hne : blobLength c f ≠ 0) (hlen : f.bytes.length = c.length - 8)
    (hdata : blobLength c f ≤ f.data.length) (hcur : cur.minPackLength < 4294967296)
    (hrest : cur.rest = (f.bytes.take (sizeLength c) ++ f.data.take (blobLength c f)) ++ tail) : Gives (unpackBlob c fromEnd cur)
      (⟨f.bytes, f.data.take (blobLength c f) ++ tail⟩,
        cur.behind (f.bytes.take (sizeLength c) ++ f.data.take (blobLength c f)).length 0 tail)
      (Exact (f.bytes.take (sizeLength c) ++ f.data.take (blobLength c f)).length t 0 fromEnd cur) (cur.minPackLength - 0 ≤ t) := by
  obtain ⟨hsize, -⟩ := sizeLength_of_blobLength hc hne
  have hbytes : f.bytes.take (sizeLength c) = f.bytes := take_of_length_le (by omega)
  have hlength : f.bytes.length = sizeLength c := by omega
  have hcount : (f.bytes ++ f.data.take (blobLength c f)).length = sizeLength c + blobLength c f := by
    rw [length_append, length_take, min_eq_left hdata, hlength]
  rw [hbytes] at hrest ⊢
  rw [append_assoc] at hrest
  have htake : cur.rest.take (sizeLength c) = f.bytes := by rw [hrest, ← hlength, take_left]
  have hdrop : cur.rest.drop (sizeLength c) = f.data.take (blobLength c f) ++ tail := by rw [hrest, ← hlength, drop_left]
  have hblob : miCalcBlobLength (sizeLength c) cur.rest = blobLength c f := by
    rw [blobLength, miCalcBlobLength, miCalcBlobLength, htake, hbytes]
  have hskip : cur.skip (sizeLength c + blobLength c f) = cur.behind (sizeLength c + blobLength c f) 0 tail := by
    have htail : cur.rest.drop (sizeLength c + blobLength c f) = tail := by
      rw [← drop_drop, hdrop]
      exact drop_left' (by rw [length_take, min_eq_left hdata])
    have hmin : uint32 ((cur.minPackLength : Int) - (0 : Nat)) = cur.minPackLength := by
      rw [uint32]
      omega
    rw [Cursor.skip, Cursor.behind, htail, hmin]
  rw [unpackBlob, htake, hdrop, hblob, hcount, hskip]
  apply Gives.last
  intro ⟨hend, hsmall, _, hmin⟩
  rw [Cursor.fromLeft]
  omega

/-! ### VARCHAR columns -/

theorem getKeyLength_storeKeyLengthInc {n : Nat} (hn : n < 65536) (rest : List UInt8) :
    getKeyLength (storeKeyLengthInc n ++ rest) = (n, (storeKeyLengthInc n).length) := by
  by_cases hshort : n < 255
  · have hstore : storeKeyLengthInc n = [UInt8.ofNat n] := if_pos hshort
    have hvalue : (UInt8.ofNat n).toNat = n := by
      rw [UInt8.toNat_ofNat']
      omega
    have hne : UInt8.ofNat n ≠ 255 := fun heq => by
      rw [heq] at hvalue
      have h255 : (255 : UInt8).toNat = 255 := rfl
      omega
    rw [hstore]
    exact (if_pos hne).trans (by rw [singleton_append, headD_cons, hvalue]; rfl)
  have hstore : storeKeyLengthInc n = 255 :: beBytes 2 n := if_neg hshort
  have htake : (beBytes 2 n ++ rest).take 2 = beBytes 2 n := take_left' (length_beBytes 2 n)
  rw [hstore]
  exact (if_neg (not_not.2 rfl)).trans (by
    rw [cons_append, drop_one, tail_cons, htake, ofBeBytes_beBytes_of_lt hn]
    rfl)

theorem takeVarchar_gives {content : List UInt8} (head : List UInt8) (hrest : cur.rest = content ++ tail) :
    Gives (takeVarchar fromEnd content.length head cur) (⟨head ++ content, []⟩, cur.behind content.length 1 tail)
      (fromEnd = cur.pos + content.length + t) True := by
  have htake : cur.rest.take content.length = content := by rw [hrest, take_left]
  have hcur : (cur.skip content.length).count 1 = cur.behind content.length 1 tail := by
    rw [Cursor.skip, Cursor.count, Cursor.behind, hrest, drop_left]
  rw [takeVarchar, htake, hcur]
  apply Gives.last
  intro hend
  simp only [not_true_eq_false, iff_false]
  omega

theorem unpackVarchar_gives (hlen : f.bytes.length = c.length) (hc : c.length < 32768)
    (hfit : haVarcharPacklength ((c.length : Int) - 1) + varcharLength c f ≤ c.length)
    (hrest : cur.rest = packVarchar c f ++ tail) : Gives (unpackVarchar c fromEnd cur)
      (⟨f.bytes.take (haVarcharPacklength ((c.length : Int) - 1) + varcharLength c f), []⟩,
        cur.behind (packVarchar c f).length 1 tail)
      (Exact (packVarchar c f).length t 1 fromEnd cur) True := by
  have hpos : 1 ≤ c.length := by
    rw [haVarcharPacklength] at hfit
    split at hfit <;> omega
  have hone : uint32 ((c.length : Int) - 1) = c.length - 1 := by
    rw [uint32]
    omega
  have hpack : haVarcharPacklength ((uint32 ((c.length : Int) - 1) : Nat) : Int) = haVarcharPacklength ((c.length : Int) - 1) := by
    rw [hone, Int.natCast_sub hpos, Int.natCast_one]
  by_cases hshort : haVarcharPacklength ((c.length : Int) - 1) = 1
  · have hpacked : packVarchar c f = f.bytes.take 1 ++ (f.bytes.drop 1).take (varcharLength c f) := if_pos hshort
    have hvalue : varcharLength c f = ofLeBytes (f.bytes.take 1) := by rw [varcharLength, hshort]
    rw [hshort] at hfit
    obtain ⟨x, xs, hbytes⟩ : ∃ x xs, f.bytes = x :: xs := exists_cons_of_length_pos (by omega)
    have hx : varcharLength c f = x.toNat := by rw [hvalue, hbytes]; rfl
    have hcontent : (xs.take x.toNat).length = x.toNat := by
      rw [hbytes, length_cons] at hlen
      rw [length_take]
      omega
    have hdrop : (cur.skip 1).rest = xs.take x.toNat ++ tail := by
      rw [Cursor.skip, hrest, hpacked, hx, hbytes]
      rfl
    have hhead : cur.rest.headD 0 = x := by
      rw [hrest, hpacked, hbytes]
      rfl
    have hfield : f.bytes.take (1 + varcharLength c f) = [x] ++ xs.take x.toNat := by
      rw [hbytes, hx, add_comm, take_succ_cons]
      rfl
    have hlength : (packVarchar c f).length = 1 + x.toNat := by
      rw [hpacked, hbytes, hx, length_append]
      show 1 + (xs.take x.toNat).length = _
      rw [hcontent]
    have htaken := takeVarchar_gives fromEnd t [x] hdrop
    rw [hcontent] at htaken
    rw [unpackVarchar, hpack, if_pos hshort, hhead, if_neg (by rw [hone]; omega), hshort, hfield, hlength]
    have hcur : (cur.skip 1).behind x.toNat 1 tail = cur.behind (1 + x.toNat) 1 tail := by
      rw [Cursor.behind, Cursor.behind, Cursor.skip, add_assoc]
    rw [← hcur]
    apply htaken.congr
    · intro hex
      have hend := hex.fromEnd
      show fromEnd = cur.pos + 1 + x.toNat + t
      omega
    exact fun _ => Iff.rfl
  have htwo : haVarcharPacklength ((c.length : Int) - 1) = 2 := by
    rw [haVarcharPacklength] at hshort ⊢
    split at hshort
    · exact absurd rfl hshort
    · rw [if_neg ‹_›]
  have hpacked : packVarchar c f = storeKeyLengthInc (varcharLength c f) ++ (f.bytes.drop 2).take (varcharLength c f) :=
    if_neg hshort
  have hvalue : varcharLength c f = ofLeBytes (f.bytes.take 2) := by rw [varcharLength, htwo]
  rw [htwo] at hfit
  have hcontent : ((f.bytes.drop 2).take (varcharLength c f)).length = varcharLength c f := by
    rw [length_take, length_drop]
    omega
  have hkey := getKeyLength_storeKeyLengthInc (n := varcharLength c f) (by omega)
    ((f.bytes.drop 2).take (varcharLength c f) ++ tail)
  rw [← append_assoc, ← hpacked, ← hrest] at hkey
  have hdrop : (cur.skip (storeKeyLengthInc (varcharLength c f)).length).rest =
      (f.bytes.drop 2).take (varcharLength c f) ++ tail := by
    rw [Cursor.skip, hrest, hpacked, append_assoc, drop_left]
  have hhead : leBytes 2 (varcharLength c f) = f.bytes.take 2 := by
    have htake : (f.bytes.take 2).length = 2 := by
      rw [length_take]
      omega
    have hinv := leBytes_ofLeBytes (f.bytes.take 2)
    rw [htake, ← hvalue] at hinv
    exact hinv
  have hlength : (packVarchar c f).length = (storeKeyLengthInc (varcharLength c f)).length + varcharLength c f := by
    rw [hpacked, length_append, hcontent]
  have htaken := takeVarchar_gives fromEnd t (f.bytes.take 2) hdrop
  rw [hcontent, ← take_add] at htaken
  have hlong : ¬varcharLength c f > uint32 ((c.length : Int) - 2) := by
    rw [uint32]
    omega
  rw [unpackVarchar, hpack, if_neg hshort, hkey]
  dsimp only
  rw [if_neg hlong, htwo, hhead, hlength]
  have hcur : (cur.skip (storeKeyLengthInc (varcharLength c f)).length).behind (varcharLength c f) 1 tail =
      cur.behind ((storeKeyLengthInc (varcharLength c f)).length + varcharLength c f) 1 tail := by
    rw [Cursor.behind, Cursor.behind, Cursor.skip, add_assoc]
  rw [← hcur]
  apply htaken.congr
  · intro hex
    have hend := hex.fromEnd
    show fromEnd = cur.pos + (storeKeyLengthInc (varcharLength c f)).length + varcharLength c f + t
    omega
  exact fun _ => Iff.rfl

end Columns

end Mysql51.Myisam
