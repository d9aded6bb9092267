import Mysql51.Cache.Totality
import Mysql51.Stats.CommStat

/-!
# Statistics of the statements on tables

`cdb_tab_dml_add` enters the time that a statement took under the tables it used and its result. The cache holds, under a
hash of the tables and the result, the statistics of the six kinds of statements followed by the tables and the result.
-/

namespace Mysql51.Stats

open Machine Cache Cache.CacheAccess

structure CDBTabName where
  db : List UInt8
  table : List UInt8
  deriving DecidableEq

structure CDBTabDmlKey where
  names : List CDBTabName
  result : Int32
  deriving DecidableEq

structure CDBTabDml where
  key : CDBTabDmlKey
  commStats : Vector CDBCommStat 6

def stringBytes (s : List UInt8) : List UInt8 := UInt8.ofNat s.length :: s

def CDBTabName.bytes (name : CDBTabName) : List UInt8 := stringBytes name.db ++ stringBytes name.table

def CDBTabDmlKey.bytes (key : CDBTabDmlKey) : List UInt8 :=
  int32Bytes key.result ++ [UInt8.ofNat key.names.length] ++ key.names.flatMap CDBTabName.bytes

def statsBytes (commStats : Vector CDBCommStat 6) : List UInt8 := commStats.toList.flatMap CDBCommStat.toBytes

def statsOfBytes (buf : List UInt8) : Vector CDBCommStat 6 :=
  Vector.ofFn fun i => CDBCommStat.ofBytes (slice buf (64 * i.val) 64)

namespace CDBTabDml

def marshalSize (op : CDBTabDml) : Nat :=
  384 + 4 + 1 + (op.key.names.map fun name => (name.db.length + 1) + (name.table.length + 1)).sum

variable (op : CDBTabDml)

/-- `marshal_key`: the bytes that it writes behind the statistics. A reference to the name of the database is used as a
variable for the name of the table, so the object is left with tables in place of databases. -/
def marshalKey : List UInt8 × CDBTabDml :=
  (op.key.bytes, { op with key.names := op.key.names.map fun name => { name with db := name.table } })

def resetStats : CDBTabDml := { op with commStats := Vector.replicate 6 CDBCommStat.zero }

def marshalStats (buf : List UInt8) : List UInt8 := statsBytes op.commStats ++ buf.drop 384

def deMarshalStats (buf : List UInt8) : CDBTabDml := { op with commStats := statsOfBytes buf }

def statAdd (type : Fin 6) (v : Double) (init : Bool) : CDBTabDml :=
  { op with commStats := op.commStats.set type (cdbCommStatAdd op.commStats[type] v init) }

end CDBTabDml

def opDiff (beginTime endTime : UInt64) : Double := ((endTime - beginTime).toNat : Double) * Double.round (mkRat 1 1000000)

/-- `cdb_tab_dml_add` on the cache of the current segment. The first result is what the call of `set` returned, if there
was one. `none` stands for sizes beyond `int` and for statistics taken from a buffer that `get` has not filled. -/
def cdbTabDmlAdd (hash : List UInt8 → TMBHashKey) (optCdbStatTableDml : Int) (s : CacheAccess) (op : CDBTabDml) (type : Int)
    (beginTime endTime : UInt64) (now : Int) : Option (Option Int × CDBTabDml × CacheAccess) :=
  if optCdbStatTableDml = 0 then some (none, op, s)
  else if htype : 0 ≤ type ∧ type < 6 then do
    let type : Fin 6 := ⟨type.toNat, by omega⟩
    let v := opDiff beginTime endTime
    let bufSize := op.marshalSize
    if 2147483648 ≤ bufSize then none
    else
      let (keyBuf, op) := op.marshalKey
      -- the statistics in the new buffer are not yet set
      let buf := List.replicate 384 0 ++ keyBuf
      let h := hash keyBuf
      match ← s.getKey h with
      | ((rv, _), s) =>
        if 0 < rv then
          let op := op.resetStats.statAdd type v true
          let (r, s) ← s.set h (op.marshalStats buf) .dirty now
          some (some r, op, s)
        else if rv = 0 then
          match ← s.get h bufSize with
          | ((0, some got), s) =>
            let buf := got.buf ++ buf.drop got.buf.length
            let op := (op.deMarshalStats buf).statAdd type v false
            let (r, s) ← s.set h (op.marshalStats buf) .dirty now
            some (some r, op, s)
          | _ => none
        else some (none, op, s)
  else some (none, op, s)

@[simp] theorem length_statsBytes (commStats : Vector CDBCommStat 6) : (statsBytes commStats).length = 384 := by
  simp [statsBytes, List.length_flatMap]

theorem statsOfBytes_append (commStats : Vector CDBCommStat 6) (bs : List UInt8) :
    statsOfBytes (statsBytes commStats ++ bs) = commStats := by
  have hstat : ∀ i : Fin 6, slice (statsBytes commStats ++ bs) (64 * i.val) 64 = commStats[i].toBytes := by
    intro i
    rw [slice_append_left (by rw [length_statsBytes]; omega), statsBytes, slice_flatMap CDBCommStat.length_toBytes (by simp)]
    simp
  simp only [statsOfBytes, hstat, CDBCommStat.ofBytes_toBytes]
  simp

variable (op : CDBTabDml)

theorem length_key_bytes : 384 + op.key.bytes.length = op.marshalSize := by
  simp [CDBTabDml.marshalSize, CDBTabDmlKey.bytes, List.length_flatMap, CDBTabName.bytes, stringBytes]
  omega

def entryBytes (key : CDBTabDmlKey) (commStats : Vector CDBCommStat 6) : List UInt8 := statsBytes commStats ++ key.bytes

theorem length_entryBytes (commStats : Vector CDBCommStat 6) : (entryBytes op.key commStats).length = op.marshalSize := by
  rw [entryBytes, List.length_append, length_statsBytes, length_key_bytes]

theorem marshalStats_append {head : List UInt8} (hhead : head.length = 384) (key : CDBTabDmlKey) :
    op.marshalStats (head ++ key.bytes) = entryBytes key op.commStats := by
  rw [CDBTabDml.marshalStats, ← hhead, List.drop_left]
  rfl

theorem marshalStats_entry (key : CDBTabDmlKey) (commStats : Vector CDBCommStat 6) :
    op.marshalStats (entryBytes key commStats) = entryBytes key op.commStats :=
  marshalStats_append op (length_statsBytes commStats) key

def entered (old : Option (Vector CDBCommStat 6)) (type : Fin 6) (v : Double) : Vector CDBCommStat 6 :=
  match old with
  | none => (Vector.replicate 6 CDBCommStat.zero).set type (cdbCommStatAdd CDBCommStat.zero v true)
  | some commStats => commStats.set type (cdbCommStatAdd commStats[type] v false)

theorem resetStats_statAdd (type : Fin 6) (v : Double) : (op.resetStats.statAdd type v true).commStats = entered none type v := by
  simp [CDBTabDml.resetStats, CDBTabDml.statAdd, entered]

theorem deMarshalStats_statAdd (key : CDBTabDmlKey) (commStats : Vector CDBCommStat 6) (type : Fin 6)
    (v : Double) : ((op.deMarshalStats (entryBytes key commStats)).statAdd type v false).commStats =
      entered (some commStats) type v := by
  rw [CDBTabDml.deMarshalStats, entryBytes, statsOfBytes_append]
  rfl

section

open Lru

variable {hash : List UInt8 → TMBHashKey} {z : PoolSizes} {opt : Int} {s : CacheAccess} {add : List Nat} {l : List Entry}
  {op : CDBTabDml} {old : Option (Vector CDBCommStat 6)}

theorem set_spec (h : Sim z s.cache add l) (hdump : s.cacheDumpMin < 0) (key : TMBHashKey) {data : List UInt8}
    (hsize : data.length + z.chunkSize ≤ 2147483647) (now : Int) :
    ∃ ret s', s.set key data .dirty now = some (ret, s') ∧ s'.cacheDumpMin < 0 ∧
      (ret = 0 → ∃ add' l', Sim z s'.cache add' l' ∧ contents l' = Function.update (contents l) key (some data)) := by
  obtain ⟨⟨ret, s'⟩, hset⟩ := Option.isSome_iff_exists.1
    (h.setCore_isSome hsize (fun hlog => absurd hlog (not_le.2 hdump)) key none now)
  obtain ⟨add', l', h', hcontents, -, hdump'⟩ := h.setCore hsize hset
  refine ⟨ret, s', hset, by omega, fun hret => ⟨add', l', h', ?_⟩⟩
  rw [hcontents, if_pos hret]

/-- A call that enters a sample: the entry is the one before it with the sample, and no other entry changes. -/
theorem cdbTabDmlAdd_spec (h : Sim z s.cache add l) (hdump : s.cacheDumpMin < 0) (hopt : opt ≠ 0) (type : Fin 6)
    (hsize : op.marshalSize + z.chunkSize ≤ 2147483647)
    (hold : contents l (hash op.key.bytes) = old.map (entryBytes op.key)) (beginTime endTime : UInt64) (now : Int) :
    ∃ ret op' s', cdbTabDmlAdd hash opt s op type.val beginTime endTime now = some (some ret, op', s') ∧
      s'.cacheDumpMin < 0 ∧ (ret = 0 → ∃ add' l', Sim z s'.cache add' l' ∧
        contents l' = Function.update (contents l) (hash op.key.bytes)
          (some (entryBytes op.key (entered old type (opDiff beginTime endTime))))) := by
  have htype : (0 : Int) ≤ type.val ∧ (type.val : Int) < 6 := by omega
  have hfits : ¬2147483648 ≤ op.marshalSize := by omega
  have hhead : (List.replicate 384 (0 : UInt8)).length = 384 := List.length_replicate
  have hentry : (entryBytes op.key (entered old type (opDiff beginTime endTime))).length + z.chunkSize ≤ 2147483647 :=
    (length_entryBytes op _).symm ▸ hsize
  simp only [cdbTabDmlAdd, if_neg hopt, dif_pos htype, if_neg hfits, CDBTabDml.marshalKey, Option.bind_eq_bind,
    Int.toNat_natCast, Fin.eta]
  cases old with
  | none =>
    have hnone : lookup l (hash op.key.bytes) = none := by
      cases hlook : lookup l (hash op.key.bytes) with
      | none => rfl
      | some e =>
        rw [contents_of_lookup hlook] at hold
        cases hold
    obtain ⟨ret, s', hset, hdump', hstored⟩ := set_spec h hdump (hash op.key.bytes) hentry now
    rw [h.getKey_none hnone]
    simp only [Option.bind_some, marshalStats_append _ hhead, resetStats_statAdd, hset]
    exact ⟨ret, _, s', if_pos (by decide), hdump', hstored⟩
  | some commStats =>
    obtain ⟨e, he, hdata⟩ : ∃ e, lookup l (hash op.key.bytes) = some e ∧ e.data = entryBytes op.key commStats := by
      cases hlook : lookup l (hash op.key.bytes) with
      | none =>
        rw [contents, view_of_none hlook] at hold
        cases hold
      | some e =>
        rw [contents_of_lookup hlook] at hold
        exact ⟨e, rfl, Option.some.inj hold⟩
    obtain ⟨cache, add₁, got, h₁, hgetKey⟩ := h.getKey_some he
    have he₁ : lookup (touch l (hash op.key.bytes)) (hash op.key.bytes) = some e := (lookup_touch _).trans he
    obtain ⟨cache₂, add₂, h₂, hget⟩ := Sim.get_some (s := { s with cache := cache }) h₁ he₁ op.marshalSize
    have hlen : e.data.length = op.marshalSize := hdata ▸ length_entryBytes op commStats
    have hmerged : merged e.data (int32 op.marshalSize) = (0, (e.data.length : Int), e.data) := by
      rw [int32_of_range (by omega) (by have := z.chunkSize_pos; omega)]
      exact merged_of_le (by omega)
    -- the stored entry fills the whole buffer
    have hbuf : e.data ++ (List.replicate 384 (0 : UInt8) ++ op.key.bytes).drop e.data.length = entryBytes op.key commStats := by
      have hdrop : (List.replicate 384 (0 : UInt8) ++ op.key.bytes).length ≤ e.data.length := by
        rw [List.length_append, hhead, length_key_bytes, hlen]
      rw [List.drop_of_length_le hdrop, List.append_nil, hdata]
    obtain ⟨ret, s', hset, hdump', hstored⟩ :=
      set_spec (s := { s with cache := cache₂ }) h₂ hdump (hash op.key.bytes) hentry now
    rw [contents, view_touch, view_touch] at hstored
    rw [hgetKey]
    simp only [Option.bind_some, hget, Sim.gotten, hmerged, hbuf, marshalStats_entry, deMarshalStats_statAdd, hset]
    exact ⟨ret, _, s', (if_neg (by decide)).trans (if_pos trivial), hdump', hstored⟩

end

open Cache.Lru Option

/-- A call of `cdb_tab_dml_add`, and the clock in it. -/
structure TabCall where
  op : CDBTabDml
  type : Int
  beginTime : UInt64
  endTime : UInt64
  now : Int

def TabCall.duration (c : TabCall) : Double := opDiff c.beginTime c.endTime

def samples (calls : List TabCall) (key : CDBTabDmlKey) (type : Fin 6) : List Double :=
  (calls.filter fun c => c.op.key = key ∧ c.type = (type.val : Int)).map TabCall.duration

def tabStep (hash : List UInt8 → TMBHashKey) (opt : Int) (p : List TabCall × CacheAccess) (c : TabCall) :
    Option (List TabCall × CacheAccess) :=
  match cdbTabDmlAdd hash opt p.2 c.op c.type c.beginTime c.endTime c.now with
  | none => none
  | some (r, _, s) => if r.getD 0 = 0 then some (p.1 ++ [c], s) else none

/-- Every key and kind with samples has a stored entry that is the tally of them. -/
def StatsRight (hash : List UInt8 → TMBHashKey) (p : List TabCall × CacheAccess) : Prop :=
  ∀ (key : CDBTabDmlKey) (type : Fin 6), samples p.1 key type ≠ [] →
    ∃ got s, p.2.get (hash key.bytes) (384 + key.bytes.length) = some ((0, some got), s) ∧
      (statsOfBytes got.buf)[type].Tallies (samples p.1 key type)

/-- A call after which the entry is still right: the counter has not reached its end, the duration is not at a threshold,
and either the key is new, or the kind of statement is not, or the duration is zero. -/
def SampleOk (calls : List TabCall) (c : TabCall) : Prop :=
  ∀ type : Fin 6, c.type = (type.val : Int) →
    (samples calls c.op.key type).length < 2147483647 ∧ Bucketed c.duration ∧
    ((∀ t, samples calls c.op.key t = []) ∨ samples calls c.op.key type ≠ [] ∨ c.duration = 0)

instance (calls : List TabCall) (c : TabCall) : Decidable (SampleOk calls c) :=
  inferInstanceAs (Decidable (∀ type : Fin 6, c.type = (type.val : Int) →
    (samples calls c.op.key type).length < 2147483647 ∧ Bucketed c.duration ∧
    ((∀ t, samples calls c.op.key t = []) ∨ samples calls c.op.key type ≠ [] ∨ c.duration = 0)))

/-! ### One more call -/

section

variable {calls : List TabCall} {c : TabCall} {key : CDBTabDmlKey} {type t : Fin 6}

theorem samples_concat_self (htype : c.type = (type.val : Int)) :
    samples (calls ++ [c]) c.op.key type = samples calls c.op.key type ++ [c.duration] := by
  simp [samples, htype]

theorem samples_concat_of_ne (hne : ¬(c.op.key = key ∧ c.type = (t.val : Int))) : samples (calls ++ [c]) key t = samples calls key t := by
  simp only [samples, List.filter_append, List.filter_cons, hne, decide_false, Bool.false_eq_true, if_false, List.filter_nil,
    List.append_nil]

end

section

variable {hash : List UInt8 → TMBHashKey} {z : PoolSizes} {s : CacheAccess} {add : List Nat} {l : List Entry}
  {key : CDBTabDmlKey} {commStats : Vector CDBCommStat 6}

theorem get_entryBytes (h : Sim z s.cache add l) (hc : contents l (hash key.bytes) = some (entryBytes key commStats)) :
    ∃ got s', s.get (hash key.bytes) (384 + key.bytes.length) = some ((0, some got), s') ∧ statsOfBytes got.buf = commStats := by
  obtain ⟨e, he, hdata⟩ := bind_eq_some_iff.1 hc
  have hdata := Option.some.inj hdata
  have hlen : e.data.length = 384 + key.bytes.length := by
    rw [hdata, entryBytes, List.length_append, length_statsBytes]
  obtain ⟨cache, add', -, hget⟩ := h.get_some he (384 + key.bytes.length)
  have hfits := h.fits e (lookup_some he).1
  have hsize := z.chunkSize_pos
  have hmerged : merged e.data (int32 ((384 + key.bytes.length : Nat) : Int)) = (0, (e.data.length : Int), e.data) := by
    rw [int32_of_range (by omega) (by omega)]
    exact merged_of_le (by omega)
  rw [hget, Sim.gotten, hmerged]
  refine ⟨_, _, rfl, ?_⟩
  rw [hdata]
  exact statsOfBytes_append commStats key.bytes

end

/-- The statistics under a key while they are right: none without samples, else six that are kept. -/
structure KeptStats (calls : List TabCall) (key : CDBTabDmlKey) (old : Option (Vector CDBCommStat 6)) : Prop where
  eq_none : old = none ↔ ∀ t, samples calls key t = []
  kept : ∀ commStats ∈ old, ∀ t : Fin 6, commStats[t].Kept (samples calls key t)

section

variable {calls : List TabCall} {c : TabCall} {key : CDBTabDmlKey} {type : Fin 6} {old : Option (Vector CDBCommStat 6)}

theorem KeptStats.concat_of_ne (h : KeptStats calls key old)
    (hne : c.op.key ≠ key ∨ ∀ type : Fin 6, c.type ≠ (type.val : Int)) : KeptStats (calls ++ [c]) key old := by
  have hsame : ∀ t, samples (calls ++ [c]) key t = samples calls key t := by
    intro t
    apply samples_concat_of_ne
    rintro ⟨hkey, htype⟩
    exact hne.elim (fun hne => hne hkey) (fun hne => hne t htype)
  exact ⟨by simpa only [hsame] using h.eq_none, by simpa only [hsame] using h.kept⟩

theorem entered_of_ne (old : Option (Vector CDBCommStat 6)) {t : Fin 6} (hne : type ≠ t) (v : Double) :
    (entered old type v)[t] = (old.getD (Vector.replicate 6 CDBCommStat.zero))[t] := by
  have hval : type.val ≠ t.val := fun h => hne (Fin.ext h)
  cases old <;> simp [entered, Vector.getElem_set_ne, hval]

theorem KeptStats.getD (h : KeptStats calls key old) (t : Fin 6) :
    (old.getD (Vector.replicate 6 CDBCommStat.zero))[t].Kept (samples calls key t) := by
  cases old with
  | none =>
    rw [h.eq_none.1 rfl t]
    simpa using CDBCommStat.kept_zero
  | some commStats => exact h.kept commStats rfl t

theorem KeptStats.entered (h : KeptStats calls c.op.key old) (htype : c.type = (type.val : Int)) (hok : SampleOk calls c) :
    KeptStats (calls ++ [c]) c.op.key (some (entered old type c.duration)) := by
  obtain ⟨hlen, hbucket, hfirst⟩ := hok type htype
  have hself : samples (calls ++ [c]) c.op.key type = _ := samples_concat_self htype
  refine ⟨⟨fun hnone => (by cases hnone), fun hempty => ?_⟩, ?_⟩
  · rw [hempty type] at hself
    simp at hself
  intro commStats hmem t
  obtain rfl := mem_some_iff.1 hmem
  by_cases ht : type = t
  · subst ht
    rw [hself]
    cases old with
    | none =>
      rw [h.eq_none.1 rfl type]
      simpa [Stats.entered] using CDBCommStat.kept_first CDBCommStat.zero hbucket
    | some commStats =>
      have hne : samples calls c.op.key type ≠ [] ∨ c.duration = 0 := by
        rcases hfirst with hempty | hrest
        · cases h.eq_none.2 hempty
        · exact hrest
      simpa [Stats.entered] using (h.kept commStats rfl type).add hlen hbucket hne
  rw [entered_of_ne old ht, samples_concat_of_ne (fun hc => ht (Fin.ext (by omega)))]
  exact h.getD t

theorem KeptStats.sampleOk (h : KeptStats calls c.op.key old) (htype : c.type = (type.val : Int))
    (ht : (Stats.entered old type c.duration)[type].Tallies (samples (calls ++ [c]) c.op.key type)) : SampleOk calls c := by
  intro type' htype'
  obtain rfl : type = type' := Fin.ext (by omega)
  rw [samples_concat_self htype] at ht
  cases old with
  | none =>
    have hempty := h.eq_none.1 rfl
    rw [hempty type] at ht ⊢
    refine ⟨by decide, CDBCommStat.bucketed_of_tallies_first CDBCommStat.zero ?_, .inl hempty⟩
    simpa [Stats.entered] using ht
  | some commStats =>
    have hadd : (cdbCommStatAdd commStats[type] c.duration false).Tallies (samples calls c.op.key type ++ [c.duration]) := by
      simpa [Stats.entered] using ht
    obtain ⟨hlen, hbucket, hfirst⟩ := (h.kept commStats rfl type).of_tallies hadd
    exact ⟨hlen, hbucket, .inr hfirst⟩

end

end Mysql51.Stats
