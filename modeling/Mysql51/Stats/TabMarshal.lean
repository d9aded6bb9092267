import Mysql51.Stats.TabDml

/-!
# Marshalling the statistics of tables

`marshal_key` and `marshal_stats` write an object into a buffer, `de_marshal` reads it back. The length of a name is written as
a `char` and read back as a signed number, and `marshal_key` overwrites the names of databases.
-/

namespace Mysql51.Stats

open Machine Cache Option

def signedChar (b : UInt8) : Int := if b.toNat < 128 then b.toNat else (b.toNat : Int) - 256

/-- A length and a string of that length. A negative length, converted to a `size_t`, is more than a string can hold; a string that
is longer than the buffer is read behind it. -/
def readString : List UInt8 → Option (List UInt8 × List UInt8)
  | [] => none
  | b :: p =>
    if signedChar b < 0 ∨ p.length < (signedChar b).toNat then none
    else some (p.take (signedChar b).toNat, p.drop (signedChar b).toNat)

def readNames : Nat → List UInt8 → Option (List CDBTabName)
  | 0, _ => some []
  | n + 1, p => do
      let (db, p) ← readString p
      let (table, p) ← readString p
      let names ← readNames n p
      some (⟨db, table⟩ :: names)

namespace CDBTabDml

def deMarshalKey (op : CDBTabDml) (buf : List UInt8) : Option CDBTabDml := do
  let p := buf.drop 384
  let nameCount ← p[4]?
  let names ← readNames nameCount.toNat (p.drop 5)
  some { op with key := ⟨names, int32OfBytes (p.take 4)⟩ }

def deMarshal (op : CDBTabDml) (buf : List UInt8) : Option CDBTabDml := (op.deMarshalStats buf).deMarshalKey buf

def marshal (hash : List UInt8 → TMBHashKey) (op : CDBTabDml) (buf : List UInt8) : TMBHashKey × List UInt8 × CDBTabDml :=
  let (keyBuf, op) := op.marshalKey
  (hash keyBuf, op.marshalStats (buf.take 384 ++ keyBuf), op)

end CDBTabDml

theorem signedChar_ofNat {n : Nat} (hn : n < 256) : signedChar (UInt8.ofNat n) = if n < 128 then (n : Int) else (n : Int) - 256 := by
  rw [signedChar, UInt8.toNat_ofNat_of_lt' hn]

theorem readString_stringBytes {s : List UInt8} (hs : s.length < 128) (rest : List UInt8) :
    readString (stringBytes s ++ rest) = some (s, rest) := by
  have hlen : signedChar (UInt8.ofNat s.length) = s.length := by rw [signedChar_ofNat (by omega), if_pos hs]
  rw [stringBytes, List.cons_append, readString, hlen, Int.toNat_natCast, if_neg (by rw [List.length_append]; omega),
    List.take_left, List.drop_left]

theorem readString_of_long {s : List UInt8} (hlow : 128 ≤ s.length) (hhigh : s.length < 256) (rest : List UInt8) :
    readString (stringBytes s ++ rest) = none := by
  have hlen : signedChar (UInt8.ofNat s.length) = (s.length : Int) - 256 := by
    rw [signedChar_ofNat hhigh, if_neg (by omega)]
  rw [stringBytes, List.cons_append, readString, hlen, if_pos (.inl (by omega))]

def CDBTabName.Short (name : CDBTabName) : Prop := name.db.length < 128 ∧ name.table.length < 128
deriving Decidable

theorem readNames_bytes {names : List CDBTabName} (hlen : ∀ name ∈ names, name.db.length < 256 ∧ name.table.length < 256)
    (rest : List UInt8) :
    readNames names.length (names.flatMap CDBTabName.bytes ++ rest) = if ∀ name ∈ names, name.Short then some names else none := by
  induction names with
  | nil => simp [readNames]
  | cons name names ih =>
    obtain ⟨⟨hdb, htable⟩, hlen⟩ := List.forall_mem_cons.1 hlen
    have hbytes : (name :: names).flatMap CDBTabName.bytes ++ rest =
        stringBytes name.db ++ (stringBytes name.table ++ (names.flatMap CDBTabName.bytes ++ rest)) := by
      simp only [List.flatMap_cons, CDBTabName.bytes, List.append_assoc]
    rw [hbytes, List.length_cons, readNames]
    by_cases hshort : name.Short
    · simp only [readString_stringBytes hshort.1, readString_stringBytes hshort.2, ih hlen, bind_eq_bind, bind_some,
        List.forall_mem_cons, hshort, true_and]
      split <;> rfl
    rw [if_neg fun hall => hshort (hall name List.mem_cons_self)]
    by_cases hd : name.db.length < 128
    · have ht : 128 ≤ name.table.length := Nat.le_of_not_lt fun ht => hshort ⟨hd, ht⟩
      simp only [readString_stringBytes hd, readString_of_long ht htable, bind_eq_bind, bind_some, bind_none]
    simp only [readString_of_long (Nat.le_of_not_lt hd) hdb, bind_eq_bind, bind_none]

namespace CDBTabDml

variable (op : CDBTabDml)

def Bounded : Prop :=
  op.key.names.length < 256 ∧ ∀ name ∈ op.key.names, name.db.length < 256 ∧ name.table.length < 256

variable {op}

theorem marshal_buffer (hash : List UInt8 → TMBHashKey) {buf : List UInt8} (hbuf : buf.length = op.marshalSize) :
    (op.marshal hash buf).2.1 = entryBytes op.key op.commStats := by
  have hhead : (buf.take 384).length = 384 := by
    rw [List.length_take, hbuf, marshalSize]
    omega
  exact marshalStats_append _ hhead op.key

theorem deMarshal_entryBytes (hop : op.Bounded) (old : CDBTabDml) :
    old.deMarshal (entryBytes op.key op.commStats) = if ∀ name ∈ op.key.names, name.Short then some op else none := by
  have hdrop : (entryBytes op.key op.commStats).drop 384 = op.key.bytes := by
    rw [entryBytes, ← length_statsBytes op.commStats, List.drop_left]
  have hbytes : op.key.bytes = int32Bytes op.key.result ++
      (UInt8.ofNat op.key.names.length :: (op.key.names.flatMap CDBTabName.bytes ++ [])) := by
    rw [CDBTabDmlKey.bytes, List.append_assoc, List.append_nil]
    rfl
  have hcount : op.key.bytes[4]? = some (UInt8.ofNat op.key.names.length) := by
    rw [hbytes, List.getElem?_append_right (by simp), length_int32Bytes]
    rfl
  have hrest : op.key.bytes.drop 5 = op.key.names.flatMap CDBTabName.bytes ++ [] := by
    have hfive : 5 = (int32Bytes op.key.result).length + 1 := by rw [length_int32Bytes]
    rw [hbytes, hfive, List.drop_append]
    simp
  have hresult : op.key.bytes.take 4 = int32Bytes op.key.result := by
    rw [hbytes, ← length_int32Bytes op.key.result, List.take_left]
  rw [deMarshal, deMarshalKey]
  simp only [hdrop, hcount, hrest, hresult, some_bind_eq, UInt8.toNat_ofNat_of_lt' hop.1,
    readNames_bytes hop.2, int32OfBytes_int32Bytes, deMarshalStats]
  have hstats : statsOfBytes (entryBytes op.key op.commStats) = op.commStats := statsOfBytes_append _ _
  split
  · rw [hstats]
    rfl
  rfl

/-- `marshal_key` keeps the object exactly when each table has the name of its database. -/
theorem marshalKey_key_iff : (op.marshalKey).2.key = op.key ↔ ∀ name ∈ op.key.names, name.db = name.table := by
  obtain ⟨⟨names, result⟩, commStats⟩ := op
  simp only [marshalKey, CDBTabDmlKey.mk.injEq, and_true]
  conv_lhs => rhs; rw [← List.map_id names]
  rw [List.map_inj_left]
  refine forall₂_congr fun name _ => ?_
  obtain ⟨db, table⟩ := name
  simp only [id, CDBTabName.mk.injEq, and_true]
  exact eq_comm

/-- An object is read back as it was, and marshalling leaves it as it was, with the same hash and bytes the next time. -/
def Survives (hash : List UInt8 → TMBHashKey) (op : CDBTabDml) (buf : List UInt8) : Prop :=
  (∀ old : CDBTabDml, old.deMarshal (op.marshal hash buf).2.1 = some op) ∧ (op.marshal hash buf).2.2.key = op.key ∧
    ((op.marshal hash buf).2.2.marshal hash buf).1 = (op.marshal hash buf).1 ∧
    ((op.marshal hash buf).2.2.marshal hash buf).2.1 = (op.marshal hash buf).2.1

/-- An object within the limits survives exactly when each table has the name of its database and the names are short. -/
theorem survives_iff (hash : List UInt8 → TMBHashKey) {buf : List UInt8} (hbuf : buf.length = op.marshalSize) (hop : op.Bounded) :
    Survives hash op buf ↔ ∀ name ∈ op.key.names, name.db = name.table ∧ name.db.length < 128 := by
  have hback : (∀ old : CDBTabDml, old.deMarshal (op.marshal hash buf).2.1 = some op) ↔ ∀ name ∈ op.key.names, name.Short := by
    simp only [marshal_buffer hash hbuf, deMarshal_entryBytes hop]
    refine ⟨fun h => ?_, fun h old => if_pos h⟩
    by_contra hlong
    have hnone := h op
    rw [if_neg hlong] at hnone
    cases hnone
  have hkey : (op.marshal hash buf).2.2.key = op.key ↔ ∀ name ∈ op.key.names, name.db = name.table := marshalKey_key_iff
  constructor
  · rintro ⟨hread, hsame, -, -⟩ name hname
    exact ⟨hkey.1 hsame name hname, (hback.1 hread name hname).1⟩
  intro h
  have hsame := hkey.2 fun name hname => (h name hname).1
  have hobject : (op.marshal hash buf).2.2 = op := by
    have hstats : (op.marshal hash buf).2.2 = { op with key := (op.marshal hash buf).2.2.key } := rfl
    rw [hstats, hsame]
  refine ⟨hback.2 fun name hname => ⟨(h name hname).2, ?_⟩, hsame, ?_, ?_⟩
  · rw [← (h name hname).1]
    exact (h name hname).2
  · rw [hobject]
  · rw [hobject]

def sameNames : CDBTabDml := ⟨⟨[⟨[100, 98], [100, 98]⟩], 0⟩, Vector.replicate 6 CDBCommStat.zero⟩

theorem survives_sameNames : Survives (fun _ => TMBHashKey.zero) sameNames (List.replicate 395 0) :=
  (survives_iff _ (show (List.replicate 395 0).length = sameNames.marshalSize by decide +kernel) ⟨by decide, by decide⟩).2 (by decide)

def tableOfDb : CDBTabDml := ⟨⟨[⟨[100, 98], [116]⟩], 0⟩, Vector.replicate 6 CDBCommStat.zero⟩

/-- `marshal_key` leaves the object with the database `t`. -/
theorem not_survives_tableOfDb : tableOfDb.Bounded ∧
    (tableOfDb.marshal (fun _ => TMBHashKey.zero) (List.replicate 394 0)).2.2.key.names = [⟨[116], [116]⟩] ∧
    ¬ Survives (fun _ => TMBHashKey.zero) tableOfDb (List.replicate 394 0) :=
  ⟨⟨by decide, by decide⟩, rfl, fun h => absurd h.2.1 (by decide)⟩

end CDBTabDml

end Mysql51.Stats
