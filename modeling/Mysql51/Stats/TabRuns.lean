import Mysql51.Stats.TabDml

/-!
# Runs of table statistics

A run of `cdb_tab_dml_add` between two switches of the segments, with the calls made so far kept beside the cache. Each
stored entry is the tally of the samples under its key as long as the calls meet a condition on the samples before them.
-/

namespace Mysql51.Stats

open Machine Cache Cache.CacheAccess Cache.Lru Option

/-- The state of a run of calls: the cache holds at most the entries of the keys of the calls among them, with statistics
that have a property. -/
def Entries (hash : List UInt8 → TMBHashKey) (z : PoolSizes) (calls : List TabCall) (p : List TabCall × CacheAccess)
    (Q : CDBTabDmlKey → Option (Vector CDBCommStat 6) → Prop) : Prop :=
  ∃ add l, Sim z p.2.cache add l ∧ p.2.cacheDumpMin < 0 ∧ p.1 ⊆ calls ∧
    ∀ c ∈ calls, ∃ old, contents l (hash c.op.key.bytes) = old.map (entryBytes c.op.key) ∧ Q c.op.key old

def TabSim (hash : List UInt8 → TMBHashKey) (z : PoolSizes) (calls : List TabCall) (p : List TabCall × CacheAccess) : Prop :=
  Entries hash z calls p (KeptStats p.1)

def NoCollision (hash : List UInt8 → TMBHashKey) (calls : List TabCall) : Prop :=
  ∀ c ∈ calls, ∀ c' ∈ calls, hash c.op.key.bytes = hash c'.op.key.bytes → c.op.key = c'.op.key

section

variable {hash : List UInt8 → TMBHashKey} {z : PoolSizes} {opt : Int} {calls : List TabCall} {p p' : List TabCall × CacheAccess}
  {c : TabCall} {Q : CDBTabDmlKey → Option (Vector CDBCommStat 6) → Prop}

theorem TabSim.statsRight (h : TabSim hash z calls p) : StatsRight hash p := by
  obtain ⟨add, l, hsim, -, hsub, hstored⟩ := h
  intro key type hne
  obtain ⟨c, hc, rfl⟩ : ∃ c ∈ calls, c.op.key = key := by
    obtain ⟨v, hv⟩ := List.exists_mem_of_ne_nil _ hne
    obtain ⟨c, hc, -⟩ := List.mem_map.1 hv
    obtain ⟨hmem, htest⟩ := List.mem_filter.1 hc
    exact ⟨c, hsub hmem, (of_decide_eq_true htest).1⟩
  obtain ⟨old, hcontents, hkept⟩ := hstored c hc
  cases old with
  | none => exact absurd (hkept.eq_none.1 rfl type) hne
  | some commStats =>
    obtain ⟨got, s', hget, hstats⟩ := get_entryBytes hsim hcontents
    exact ⟨got, s', hget, hstats ▸ (hkept.kept commStats rfl type).tallies hne⟩

theorem tabStep_some (hstep : tabStep hash opt p c = some p') : ∃ r op' s',
    cdbTabDmlAdd hash opt p.2 c.op c.type c.beginTime c.endTime c.now = some (r, op', s') ∧ r.getD 0 = 0 ∧
      p' = (p.1 ++ [c], s') := by
  unfold tabStep at hstep
  split at hstep
  · cases hstep
  rename_i r op' s' hadd
  by_cases hr : r.getD 0 = 0
  · rw [if_pos hr] at hstep
    exact ⟨r, op', s', hadd, hr, (Option.some.inj hstep).symm⟩
  rw [if_neg hr] at hstep
  cases hstep

theorem Entries.enters (hopt : opt ≠ 0) (hinj : NoCollision hash calls) (h : Entries hash z calls p Q) (hc : c ∈ calls)
    (hsize : c.op.marshalSize + z.chunkSize ≤ 2147483647) {type : Fin 6} (htype : c.type = (type.val : Int))
    (hstep : tabStep hash opt p c = some p') :
    ∃ old add' l', Q c.op.key old ∧ p'.1 = p.1 ++ [c] ∧ Sim z p'.2.cache add' l' ∧ p'.2.cacheDumpMin < 0 ∧
      contents l' (hash c.op.key.bytes) = some (entryBytes c.op.key (entered old type c.duration)) ∧
      ∀ c' ∈ calls, c.op.key ≠ c'.op.key →
        ∃ old', contents l' (hash c'.op.key.bytes) = old'.map (entryBytes c'.op.key) ∧ Q c'.op.key old' := by
  obtain ⟨add, l, hsim, hdump, -, hstored⟩ := h
  obtain ⟨r, op', s', hadd, hr, rfl⟩ := tabStep_some hstep
  obtain ⟨old, hold, hkept⟩ := hstored c hc
  obtain ⟨ret, op₁, s₁, hspec, hdump', hset⟩ :=
    cdbTabDmlAdd_spec hsim hdump hopt type hsize hold c.beginTime c.endTime c.now
  rw [htype, hspec] at hadd
  cases hadd
  obtain ⟨add', l', hsim', hcontents⟩ := hset hr
  refine ⟨old, add', l', hkept, rfl, hsim', hdump', ?_, fun c' hc' hne => ?_⟩
  · rw [hcontents, Function.update_self]
    rfl
  have hhash : hash c'.op.key.bytes ≠ hash c.op.key.bytes := fun heq => hne (hinj c' hc' c hc heq).symm
  obtain ⟨old', hold', hkept'⟩ := hstored c' hc'
  refine ⟨old', ?_, hkept'⟩
  rw [hcontents, Function.update_of_ne hhash]
  exact hold'

theorem cdbTabDmlAdd_skips (s : CacheAccess) (htype : ∀ type : Fin 6, c.type ≠ (type.val : Int)) :
    cdbTabDmlAdd hash opt s c.op c.type c.beginTime c.endTime c.now = some (none, c.op, s) := by
  have hrange : ¬(0 ≤ c.type ∧ c.type < 6) := fun hrange => htype ⟨c.type.toNat, by omega⟩ (by simp [hrange.1])
  rw [cdbTabDmlAdd, dif_neg hrange, ite_self]

/-- The property of the statistics may be one of the calls so far. A call keeps it if entering its sample does. -/
theorem Entries.step {Q' : CDBTabDmlKey → Option (Vector CDBCommStat 6) → Prop} (hopt : opt ≠ 0)
    (hinj : NoCollision hash calls) (h : Entries hash z calls p Q) (hc : c ∈ calls)
    (hsize : c.op.marshalSize + z.chunkSize ≤ 2147483647) (hstep : tabStep hash opt p c = some p')
    (hself : ∀ type : Fin 6, c.type = (type.val : Int) → ∀ old, Q c.op.key old → Q' c.op.key (some (entered old type c.duration)))
    (hother : ∀ key old, (c.op.key ≠ key ∨ ∀ type : Fin 6, c.type ≠ (type.val : Int)) → Q key old → Q' key old) :
    Entries hash z calls p' Q' := by
  by_cases htype : ∃ type : Fin 6, c.type = (type.val : Int)
  · obtain ⟨type, htype⟩ := htype
    obtain ⟨old, add', l', hkept, hcalls, hsim', hdump', hcontents, hothers⟩ := h.enters hopt hinj hc hsize htype hstep
    obtain ⟨-, -, -, -, hsub, -⟩ := h
    refine ⟨add', l', hsim', hdump', ?_, fun c' hc' => ?_⟩
    · rw [hcalls]
      exact List.append_subset.2 ⟨hsub, by simpa using hc⟩
    by_cases hkey : c.op.key = c'.op.key
    · rw [← hkey]
      exact ⟨some _, hcontents, hself type htype old hkept⟩
    obtain ⟨old', hold', hkept'⟩ := hothers c' hc' hkey
    exact ⟨old', hold', hother _ old' (.inl hkey) hkept'⟩
  push Not at htype
  obtain ⟨add, l, hsim, hdump, hsub, hstored⟩ := h
  obtain ⟨r, op', s', hadd, -, rfl⟩ := tabStep_some hstep
  rw [cdbTabDmlAdd_skips p.2 htype] at hadd
  cases hadd
  refine ⟨add, l, hsim, hdump, List.append_subset.2 ⟨hsub, by simpa using hc⟩, fun c' hc' => ?_⟩
  obtain ⟨old, hold, hkept⟩ := hstored c' hc'
  exact ⟨old, hold, hother _ old (.inr htype) hkept⟩

theorem Entries.isSome (hopt : opt ≠ 0) (h : Entries hash z calls p Q) (hc : c ∈ calls)
    (hsize : c.op.marshalSize + z.chunkSize ≤ 2147483647) :
    (cdbTabDmlAdd hash opt p.2 c.op c.type c.beginTime c.endTime c.now).isSome := by
  by_cases htype : ∃ type : Fin 6, c.type = (type.val : Int)
  · obtain ⟨type, htype⟩ := htype
    obtain ⟨add, l, hsim, hdump, -, hstored⟩ := h
    obtain ⟨old, hold, -⟩ := hstored c hc
    obtain ⟨ret, op', s', hspec, -, -⟩ := cdbTabDmlAdd_spec hsim hdump hopt type hsize hold c.beginTime c.endTime c.now
    rw [htype, hspec]
    rfl
  push Not at htype
  rw [cdbTabDmlAdd_skips p.2 htype]
  rfl

theorem TabSim.step (hopt : opt ≠ 0) (hinj : NoCollision hash calls) (h : TabSim hash z calls p) (hc : c ∈ calls)
    (hsize : c.op.marshalSize + z.chunkSize ≤ 2147483647) (hstep : tabStep hash opt p c = some p') (hok : SampleOk p.1 c) :
    TabSim hash z calls p' := by
  have hcalls : p'.1 = p.1 ++ [c] := by
    obtain ⟨r, op', s', -, -, rfl⟩ := tabStep_some hstep
    rfl
  apply Entries.step hopt hinj h hc hsize hstep
  · intro type htype old hkept
    rw [hcalls]
    exact hkept.entered htype hok
  intro key old hne hkept
  rw [hcalls]
  exact hkept.concat_of_ne hne

theorem TabSim.sampleOk (hopt : opt ≠ 0) (hinj : NoCollision hash calls) (h : TabSim hash z calls p) (hc : c ∈ calls)
    (hsize : c.op.marshalSize + z.chunkSize ≤ 2147483647) (hstep : tabStep hash opt p c = some p') (hright : StatsRight hash p') :
    SampleOk p.1 c := by
  intro type htype
  obtain ⟨old, add', l', hkept, hcalls, hsim', -, hcontents, -⟩ := Entries.enters hopt hinj h hc hsize htype hstep
  have hne : samples p'.1 c.op.key type ≠ [] := by
    rw [hcalls, samples_concat_self htype]
    simp
  obtain ⟨got, s', hget, htallies⟩ := hright c.op.key type hne
  obtain ⟨got', s'', hget', hstats⟩ := get_entryBytes hsim' hcontents
  rw [hget] at hget'
  cases hget'
  rw [hstats, hcalls] at htallies
  exact hkept.sampleOk htype htallies type htype

theorem TabSim.entries (h : TabSim hash z calls p) : Entries hash z calls p fun _ _ => True := by
  obtain ⟨add, l, hsim, hdump, hsub, hstored⟩ := h
  refine ⟨add, l, hsim, hdump, hsub, fun c hc => ?_⟩
  obtain ⟨old, hold, -⟩ := hstored c hc
  exact ⟨old, hold, trivial⟩

theorem openInit_tabSim {memSize : Int} {s : CacheAccess} (hopen : openInit memSize z = .ok s) : TabSim hash z calls ([], s) := by
  have hdump : s.cacheDumpMin < 0 := by
    unfold openInit at hopen
    split at hopen <;> cases hopen
    exact Int.negSucc_lt_zero 0
  refine ⟨[], [], openInit_sim hopen 0 0 0, hdump, List.nil_subset _, fun c _ => ⟨none, rfl, ?_, ?_⟩⟩
  · simp [samples]
  intro commStats hmem
  cases hmem

end

/-- In the runs of calls on a new cache in which no `set` fails, every call returns, and every entry is the tally of the
samples under its key exactly as long as every call meets the condition. The keys of the calls have different hashes. -/
theorem statsRight_iff (hash : List UInt8 → TMBHashKey) (opt : Int) (hopt : opt ≠ 0) (z : PoolSizes) (memSize : Int)
    (s : CacheAccess) (hopen : openInit memSize z = .ok s) (calls : List TabCall)
    (hsize : ∀ c ∈ calls, c.op.marshalSize + z.chunkSize ≤ 2147483647) (hinj : NoCollision hash calls) :
    (∀ p c, Run.Takes (tabStep hash opt) ([], s) calls p c →
      (cdbTabDmlAdd hash opt p.2 c.op c.type c.beginTime c.endTime c.now).isSome) ∧
    ((∀ p, Run.Passes (tabStep hash opt) ([], s) calls p → StatsRight hash p) ↔
      ∀ p c, Run.Takes (tabStep hash opt) ([], s) calls p c → (tabStep hash opt p c).isSome → SampleOk p.1 c) := by
  constructor
  · intro p c htakes
    obtain ⟨hc, hentries⟩ := Run.invariant_takes (P := fun p => Entries hash z calls p fun _ _ => True)
      (fun p c p' hc hp hstep => Entries.step hopt hinj hp hc (hsize c hc) hstep (fun _ _ _ _ => trivial) (fun _ _ _ _ => trivial))
      (openInit_tabSim hopen).entries htakes
    exact hentries.isSome hopt hc (hsize c hc)
  · apply Run.invariant_iff (P := TabSim hash z calls)
    · intro p hp
      exact hp.statsRight
    · intro p c p' hc hp hstep hok
      exact hp.step hopt hinj hc (hsize c hc) hstep hok
    · intro p c p' hc hp hstep hright
      exact hp.sampleOk hopt hinj hc (hsize c hc) hstep hright
    · exact openInit_tabSim hopen

/-- A statement on the table `d.t` that took some microseconds. -/
def sampleCall (type : Int) (micros : UInt64) : TabCall :=
  ⟨⟨⟨[⟨[100], [116]⟩], 0⟩, Vector.replicate 6 CDBCommStat.zero⟩, type, 0, micros, 0⟩

theorem noCollision_sampleCall (hash : List UInt8 → TMBHashKey) (xs : List (Int × UInt64)) :
    NoCollision hash (xs.map fun x => sampleCall x.1 x.2) := by
  intro c hc c' hc' _
  obtain ⟨x, -, rfl⟩ := List.mem_map.1 hc
  obtain ⟨y, -, rfl⟩ := List.mem_map.1 hc'
  rfl

/-- Two statements of one kind. -/
theorem statsRight_sampleCall : ∃ s, openInit 10000 PoolSizes.wide = .ok s ∧
    ((∀ p, Run.Passes (tabStep (fun _ => TMBHashKey.zero) 1) ([], s) [sampleCall 0 30000, sampleCall 0 50000] p →
        StatsRight (fun _ => TMBHashKey.zero) p) ↔
      ∀ p c, Run.Takes (tabStep (fun _ => TMBHashKey.zero) 1) ([], s) [sampleCall 0 30000, sampleCall 0 50000] p c →
        (tabStep (fun _ => TMBHashKey.zero) 1 p c).isSome → SampleOk p.1 c) :=
  ⟨_, rfl, (statsRight_iff (fun _ => TMBHashKey.zero) 1 (by decide) PoolSizes.wide 10000 _ rfl _ (by decide)
    (noCollision_sampleCall _ [(0, 30000), (0, 50000)])).2⟩

/-- The minimum of a second kind of statement under a key stays zero, and a statement of exactly one second is in no
bucket. -/
theorem not_statsRight : ∃ s p q, openInit 10000 PoolSizes.wide = .ok s ∧
    Run.run (tabStep (fun _ => TMBHashKey.zero) 1) ([], s) [sampleCall 0 30000, sampleCall 1 30000] = some p ∧
    ¬StatsRight (fun _ => TMBHashKey.zero) p ∧
    Run.run (tabStep (fun _ => TMBHashKey.zero) 1) ([], s) [sampleCall 0 1000000] = some q ∧
    ¬StatsRight (fun _ => TMBHashKey.zero) q := by
  obtain ⟨s, hopen⟩ : ∃ s, openInit 10000 PoolSizes.wide = .ok s := ⟨_, rfl⟩
  have hruns : (Run.run (tabStep (fun _ => TMBHashKey.zero) 1) ([], s) [sampleCall 0 30000, sampleCall 1 30000]).isSome ∧
      (Run.run (tabStep (fun _ => TMBHashKey.zero) 1) ([], s) [sampleCall 0 1000000]).isSome := by
    cases hopen
    decide +kernel
  obtain ⟨p, hp⟩ := isSome_iff_exists.1 hruns.1
  obtain ⟨q, hq⟩ := isSome_iff_exists.1 hruns.2
  have hsize (type : Int) (micros : UInt64) : (sampleCall type micros).op.marshalSize + PoolSizes.wide.chunkSize ≤ 2147483647 :=
    show (793 : Nat) ≤ 2147483647 by decide
  refine ⟨s, p, q, hopen, hp, fun hright => ?_, hq, fun hright => ?_⟩
  · have hfirst : SampleOk [] (sampleCall 0 30000) := by decide +kernel
    have hsecond : ¬SampleOk [sampleCall 0 30000] (sampleCall 1 30000) := by decide +kernel
    have hinj := noCollision_sampleCall (fun _ => TMBHashKey.zero) [(0, 30000), (1, 30000)]
    obtain ⟨p₁, hp₁, hp⟩ := bind_eq_some_iff.1 hp
    obtain ⟨p₂, hp₂, hp⟩ := bind_eq_some_iff.1 hp
    cases hp
    have hsim := (openInit_tabSim hopen).step (by decide) hinj List.mem_cons_self (hsize 0 30000) hp₁ hfirst
    have hok := hsim.sampleOk (by decide) hinj (List.mem_cons_of_mem _ List.mem_cons_self) (hsize 1 30000) hp₂ hright
    obtain ⟨-, -, s₁, -, -, rfl⟩ := tabStep_some hp₁
    exact hsecond hok
  · have honly : ¬SampleOk [] (sampleCall 0 1000000) := by decide +kernel
    have hinj := noCollision_sampleCall (fun _ => TMBHashKey.zero) [(0, 1000000)]
    obtain ⟨p₁, hp₁, hq⟩ := bind_eq_some_iff.1 hq
    cases hq
    exact honly ((openInit_tabSim hopen).sampleOk (by decide) hinj List.mem_cons_self (hsize 0 1000000) hp₁ hright)

end Mysql51.Stats
