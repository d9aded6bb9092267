import Mathlib.Algebra.Order.BigOperators.Group.List
import Mysql51.Lib.Double

/-!
# The statistics of one kind of operation

`CDBCommStat` keeps the number of samples, their sum, smallest and largest, and a table of how many fell between two
thresholds. `cdb_comm_stat_add` enters one sample, and the table is stored as its bytes.
-/

namespace Mysql51.Stats

open Machine

structure CDBCommStat where
  total : Int32
  timeSum : Double
  timeMin : Double
  timeMax : Double
  timeBucket : Vector Int32 9

def timeBucketThreshold : Vector Double 10 :=
  #v[Double.round (mkRat 2 100), Double.round (mkRat 4 100), Double.round (mkRat 6 100), Double.round (mkRat 8 100),
    Double.round (mkRat 1 10), Double.round (mkRat 5 10), Double.round 1, Double.round 2, Double.round 10, Double.dblMax]

namespace CDBCommStat

def zero : CDBCommStat := ⟨0, 0, 0, 0, Vector.replicate 9 0⟩

def initial : CDBCommStat := ⟨0, 0, Double.dblMax, 0, Vector.replicate 9 0⟩

end CDBCommStat

/-- The first bucket that the loop of `cdb_comm_stat_add` finds for a sample. Both bounds are strict. -/
def timeBucketOf (v : Double) : Option (Fin 9) :=
  (List.finRange 9).find? fun i => timeBucketThreshold[i.castSucc] < v ∧ v < timeBucketThreshold[i.succ]

def cdbCommStatAdd (cs : CDBCommStat) (v : Double) (init : Bool) : CDBCommStat :=
  let cs := if init then CDBCommStat.initial else cs
  { total := cs.total + 1
    timeSum := cs.timeSum + v
    timeMin := if v < cs.timeMin then v else cs.timeMin
    timeMax := if cs.timeMax < v then v else cs.timeMax
    timeBucket := match timeBucketOf v with
      | none => cs.timeBucket
      | some i => cs.timeBucket.set i (cs.timeBucket[i] + 1) }

namespace CDBCommStat

variable (cs : CDBCommStat)

def toBytes : List UInt8 :=
  int32Bytes cs.total ++ cs.timeSum.toBytes ++ cs.timeMin.toBytes ++ cs.timeMax.toBytes ++
    cs.timeBucket.toList.flatMap int32Bytes

def ofBytes (bs : List UInt8) : CDBCommStat where
  total := int32OfBytes (slice bs 0 4)
  timeSum := Double.ofBytes (slice bs 4 8)
  timeMin := Double.ofBytes (slice bs 12 8)
  timeMax := Double.ofBytes (slice bs 20 8)
  timeBucket := Vector.ofFn fun i => int32OfBytes (slice bs (28 + 4 * i.val) 4)

@[simp] theorem length_toBytes : cs.toBytes.length = 64 := by
  simp [toBytes, List.length_flatMap]

theorem ofBytes_toBytes : ofBytes cs.toBytes = cs := by
  have hbucket : ∀ i : Fin 9, slice cs.toBytes (28 + 4 * i.val) 4 = int32Bytes cs.timeBucket[i] := by
    intro i
    rw [toBytes, slice_append_right (by simp)]
    simp only [List.length_append, length_int32Bytes, Double.length_toBytes, Nat.reduceAdd, Nat.add_sub_cancel_left]
    rw [slice_flatMap length_int32Bytes (by simp)]
    simp
  have hhead : slice cs.toBytes 0 4 = int32Bytes cs.total ∧ slice cs.toBytes 4 8 = cs.timeSum.toBytes ∧
      slice cs.toBytes 12 8 = cs.timeMin.toBytes ∧ slice cs.toBytes 20 8 = cs.timeMax.toBytes := by
    simp [toBytes, slice, List.drop_append, List.drop_eq_nil_of_le]
  rw [ofBytes, hhead.1, hhead.2.1, hhead.2.2.1, hhead.2.2.2]
  simp only [hbucket, int32OfBytes_int32Bytes, Double.ofBytes_toBytes]
  cases cs
  simp

def inBuckets : Int := (cs.timeBucket.toList.map Int32.toInt).sum

/-- The statistics say about samples what the names of their fields say. -/
structure Tallies (cs : CDBCommStat) (vs : List Double) : Prop where
  total : cs.total.toInt = vs.length
  timeMin : IsLeast {v | v ∈ vs} cs.timeMin
  timeMax : IsGreatest {v | v ∈ vs} cs.timeMax
  timeBucket : cs.inBuckets = vs.countP fun v => timeBucketThreshold[0] < v

structure Counts (cs : CDBCommStat) (vs : List Double) : Prop where
  total : cs.total.toInt = vs.length
  timeBucket : cs.inBuckets = vs.countP fun v => timeBucketThreshold[0] < v
  nonneg : ∀ b ∈ cs.timeBucket.toList.map Int32.toInt, 0 ≤ b

theorem counts_zero : Counts zero [] := ⟨by decide, by decide, by decide⟩

theorem counts_initial : Counts initial [] := ⟨by decide, by decide, by decide⟩

end CDBCommStat

def Bucketed (v : Double) : Prop := timeBucketThreshold[0] < v → (timeBucketOf v).isSome
deriving Decidable

theorem timeBucketOf_some {v : Double} {i : Fin 9} (h : timeBucketOf v = some i) :
    timeBucketThreshold[i.castSucc] < v ∧ v < timeBucketThreshold[i.succ] := by
  have hfound := List.find?_some h
  rwa [decide_eq_true_eq] at hfound

theorem lt_of_timeBucketOf {v : Double} {i : Fin 9} (h : timeBucketOf v = some i) : timeBucketThreshold[0] < v := by
  have hfirst : ∀ i : Fin 9, timeBucketThreshold[0] ≤ timeBucketThreshold[i.castSucc] := by decide +kernel
  exact lt_of_le_of_lt (hfirst i) (timeBucketOf_some h).1

theorem bucketed_iff (v : Double) : Bucketed v ↔ ((timeBucketOf v).isSome ↔ timeBucketThreshold[0] < v) := by
  constructor
  · intro hv
    refine ⟨fun hsome => ?_, hv⟩
    obtain ⟨i, hi⟩ := Option.isSome_iff_exists.1 hsome
    exact lt_of_timeBucketOf hi
  intro hiff
  exact hiff.2

theorem lt_dblMax_of_bucketed {v : Double} (h : Bucketed v) : v < Double.dblMax := by
  have hlast : ∀ i : Fin 9, timeBucketThreshold[i.succ] ≤ Double.dblMax := by decide +kernel
  have hfirst : timeBucketThreshold[0] < Double.dblMax := by decide +kernel
  by_contra hge
  rw [not_lt] at hge
  obtain ⟨i, hi⟩ := Option.isSome_iff_exists.1 (h (lt_of_lt_of_le hfirst hge))
  exact lt_irrefl v (lt_of_lt_of_le (timeBucketOf_some hi).2 (le_trans (hlast i) hge))

theorem toInt_succ_iff (x : Int32) : (x + 1).toInt = x.toInt + 1 ↔ x.toInt < 2147483647 := by
  have hlow := x.le_toInt
  have hhigh := x.toInt_lt
  rw [Int32.toInt_add, Int32.toInt_one, Int.bmod_def]
  omega

namespace CDBCommStat

variable {cs : CDBCommStat} {v : Double} {vs : List Double}

theorem Counts.le_total (h : Counts cs vs) (i : Fin 9) : cs.timeBucket[i].toInt ≤ vs.length := by
  have hmem : cs.timeBucket[i].toInt ∈ cs.timeBucket.toList.map Int32.toInt := by
    apply List.mem_map_of_mem
    simp
  calc cs.timeBucket[i].toInt ≤ cs.inBuckets := List.single_le_sum h.nonneg _ hmem
    _ ≤ vs.length := by
      rw [h.timeBucket]
      exact_mod_cast List.countP_le_length

theorem total_add (h : Counts cs vs) (v : Double) :
    (cdbCommStatAdd cs v false).total.toInt = (vs ++ [v]).length ↔ vs.length < 2147483647 := by
  have hsucc := toInt_succ_iff cs.total
  rw [h.total] at hsucc
  simpa [cdbCommStatAdd] using hsucc

theorem inBuckets_add (h : Counts cs vs) (hlen : vs.length < 2147483647) (v : Double) :
    (cdbCommStatAdd cs v false).inBuckets = cs.inBuckets + (if (timeBucketOf v).isSome then 1 else 0) ∧
    ∀ b ∈ (cdbCommStatAdd cs v false).timeBucket.toList.map Int32.toInt, 0 ≤ b := by
  cases hi : timeBucketOf v with
  | none => simpa [cdbCommStatAdd, hi, inBuckets] using h.nonneg
  | some i =>
    have hsucc : (cs.timeBucket[i] + 1).toInt = cs.timeBucket[i].toInt + 1 := by
      rw [toInt_succ_iff]
      have := h.le_total i
      omega
    have hbuckets : (cdbCommStatAdd cs v false).timeBucket.toList.map Int32.toInt =
        (cs.timeBucket.toList.map Int32.toInt).set i (cs.timeBucket[i].toInt + 1) := by
      rw [← hsucc, ← List.map_set]
      simp only [cdbCommStatAdd, hi, Bool.false_eq_true, if_false]
      rw [Vector.toList_set]
    rw [inBuckets, hbuckets]
    constructor
    · rw [List.sum_set']
      simp [inBuckets]
    intro b hb
    rcases List.mem_or_eq_of_mem_set hb with hold | rfl
    · exact h.nonneg b hold
    have := h.nonneg cs.timeBucket[i].toInt (List.mem_map_of_mem (by simp))
    omega

theorem inBuckets_add_iff (h : Counts cs vs) (hlen : vs.length < 2147483647) :
    (cdbCommStatAdd cs v false).inBuckets = (vs ++ [v]).countP (fun v => timeBucketThreshold[0] < v) ↔ Bucketed v := by
  rw [(inBuckets_add h hlen v).1, h.timeBucket, List.countP_append, bucketed_iff]
  by_cases hsome : (timeBucketOf v).isSome <;> by_cases hlt : timeBucketThreshold[0] < v <;> simp [hsome, hlt]

theorem Counts.add (h : Counts cs vs) (hlen : vs.length < 2147483647) (hv : Bucketed v) :
    Counts (cdbCommStatAdd cs v false) (vs ++ [v]) :=
  ⟨(total_add h v).2 hlen, (inBuckets_add_iff h hlen).2 hv, (inBuckets_add h hlen v).2⟩

/-- The statistics of one operation while they are right: zero without samples, a tally with them. -/
structure Kept (cs : CDBCommStat) (vs : List Double) : Prop extends Counts cs vs where
  bounds : if vs = [] then cs.timeMin = 0 ∧ cs.timeMax = 0
    else IsLeast {v | v ∈ vs} cs.timeMin ∧ IsGreatest {v | v ∈ vs} cs.timeMax

theorem kept_zero : Kept zero [] := ⟨counts_zero, rfl, rfl⟩

theorem Kept.tallies (h : Kept cs vs) (hvs : vs ≠ []) : Tallies cs vs := by
  have hbounds := h.bounds
  rw [if_neg hvs] at hbounds
  exact ⟨h.total, hbounds.1, hbounds.2, h.timeBucket⟩

theorem kept_of_bounds (h : Counts cs (vs ++ [v])) (hmin : IsLeast {w | w ∈ vs ++ [v]} cs.timeMin)
    (hmax : IsGreatest {w | w ∈ vs ++ [v]} cs.timeMax) : Kept cs (vs ++ [v]) := by
  refine ⟨h, ?_⟩
  rw [if_neg (by simp)]
  exact ⟨hmin, hmax⟩

theorem isLeast_concat {m : Double} (h : IsLeast {w | w ∈ vs} m) : IsLeast {w | w ∈ vs ++ [v]} (if v < m then v else m) := by
  have hset : {w | w ∈ vs ++ [v]} = insert v {w | w ∈ vs} := by
    ext w
    simp [or_comm]
  rw [hset, ← min_def_lt]
  exact h.insert v

theorem isGreatest_concat {m : Double} (h : IsGreatest {w | w ∈ vs} m) :
    IsGreatest {w | w ∈ vs ++ [v]} (if m < v then v else m) := by
  have hset : {w | w ∈ vs ++ [v]} = insert v {w | w ∈ vs} := by
    ext w
    simp [or_comm]
  rw [hset, ← max_def_lt, max_comm]
  exact h.insert v

theorem Kept.add (h : Kept cs vs) (hlen : vs.length < 2147483647) (hv : Bucketed v) (hfirst : vs ≠ [] ∨ v = 0) :
    Kept (cdbCommStatAdd cs v false) (vs ++ [v]) := by
  have hbounds := h.bounds
  apply kept_of_bounds (h.toCounts.add hlen hv)
  all_goals by_cases hvs : vs = []
  · rw [if_pos hvs] at hbounds
    simp [cdbCommStatAdd, hvs, hbounds.1, hfirst.resolve_left (not_not.2 hvs)]
  · rw [if_neg hvs] at hbounds
    exact isLeast_concat hbounds.1
  · rw [if_pos hvs] at hbounds
    simp [cdbCommStatAdd, hvs, hbounds.2, hfirst.resolve_left (not_not.2 hvs)]
  rw [if_neg hvs] at hbounds
  exact isGreatest_concat hbounds.2

theorem Kept.of_tallies (h : Kept cs vs) (ht : Tallies (cdbCommStatAdd cs v false) (vs ++ [v])) :
    vs.length < 2147483647 ∧ Bucketed v ∧ (vs ≠ [] ∨ v = 0) := by
  have hlen := (total_add h.toCounts v).1 ht.total
  refine ⟨hlen, (inBuckets_add_iff h.toCounts hlen).1 ht.timeBucket, ?_⟩
  by_contra hnot
  push Not at hnot
  -- the minimum of zeroed memory is zero, and no sample is less
  have hbounds := h.bounds
  rw [if_pos hnot.1] at hbounds
  have hmem := ht.timeMin.1
  simp [cdbCommStatAdd, hnot.1, hbounds.1, Double.not_lt_zero] at hmem
  exact hnot.2 hmem.symm

theorem kept_first (cs : CDBCommStat) (hv : Bucketed v) : Kept (cdbCommStatAdd cs v true) [v] := by
  have hcounts := counts_initial.add (by decide) hv
  have hlt := lt_dblMax_of_bucketed hv
  apply @kept_of_bounds _ v [] hcounts
  · simp [cdbCommStatAdd, initial, hlt]
  have hmax : (if 0 < v then v else 0) = v := by
    split
    · rfl
    rename_i hnot
    exact le_antisymm (Double.zero_le v) (not_lt.1 hnot)
  simp [cdbCommStatAdd, initial, hmax]

theorem bucketed_of_tallies_first (cs : CDBCommStat) (h : Tallies (cdbCommStatAdd cs v true) [v]) : Bucketed v :=
  (@inBuckets_add_iff initial v [] counts_initial (by decide)).1 h.timeBucket

end CDBCommStat

end Mysql51.Stats
