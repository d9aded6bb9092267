import Mysql51.Stats.ShmPair

/-!
# Switching segments under writers

The reset of a segment is safe as long as no swap overtakes a writer that has fetched the current segment and not yet
locked it. Then the writers are all on the current segment, and it keeps their samples until it goes on standby.
-/

namespace Mysql51.Stats

open Machine Cache Cache.CacheAccess Function Option

def WriterPc.shm : WriterPc → Option Shm
  | .idle => none
  | .fetched s _ => some s
  | .ready s _ _ => some s
  | .locked s _ _ => some s
  | .added s => some s

def WriterPc.holds : WriterPc → Option Shm
  | .locked s _ _ => some s
  | .added s => some s
  | _ => none

def WriterPc.ca : WriterPc → Option (Shm × Nat)
  | .ready s ca _ => some (s, ca)
  | .locked s ca _ => some (s, ca)
  | _ => none

def SwitchPc.Holds (current : Shm) : SwitchPc → Shm → Prop
  | .lockedCurrent, s => s = current
  | .lockedBoth, _ => True
  | .swapped, _ => True
  | .unlockedStandby, s => s = current
  | _, _ => False

variable {lock : Shm → Option Owner} {w : Nat}

namespace ShmPair

def ResetSafe (p : ShmPair) : Prop := p.switcher = .idle → ∀ w, (p.writer w).shm ≠ some p.standby

/-- The switcher is not about to swap while a writer has fetched the current segment and not locked it. -/
def SwapOk (p : ShmPair) : Prop :=
  p.switcher = .lockedBoth → ∀ w, (p.writer w).shm = some p.current → (p.writer w).holds = some p.current

/-- All writers are on the current segment and go through its live `CacheAccess`, and locks are with their owners. -/
structure Orderly (p : ShmPair) : Prop where
  shm : ∀ w s, (p.writer w).shm = some s → s = p.current
  holds : ∀ w s, (p.writer w).holds = some s → p.lock s = some (.writer w)
  switcher : ∀ s, p.switcher.Holds p.current s → p.lock s = some .switcher
  ca : ∀ w s n, (p.writer w).ca = some (s, n) → n = p.resets s

variable {hash : List UInt8 → TMBHashKey} {fresh : CacheAccess} {p p' : ShmPair} {w : Nat} {x : Sample}

theorem Orderly.of_writer (h : Orderly p) {pc : WriterPc} (c : Shm → CacheAccess)
    (hshm : ∀ s, pc.shm = some s → s = p.current) (hholds : ∀ s, pc.holds = some s → lock s = some (.writer w))
    (hca : ∀ s n, pc.ca = some (s, n) → n = p.resets s)
    (hlock : ∀ s owner, owner ≠ .writer w → p.lock s = some owner → lock s = some owner) :
    Orderly { p with writer := update p.writer w pc, lock := lock, ca := c } := by
  have hother {w' : Nat} (hw : w' ≠ w) : update p.writer w pc w' = p.writer w' := update_of_ne hw pc p.writer
  constructor <;> dsimp only
  · intro w' s hs
    by_cases hw : w' = w
    · rw [hw, update_self] at hs
      exact hshm s hs
    rw [hother hw] at hs
    exact h.shm w' s hs
  · intro w' s hs
    by_cases hw : w' = w
    · rw [hw, update_self] at hs
      exact hw ▸ hholds s hs
    rw [hother hw] at hs
    exact hlock s _ (fun heq => hw (Owner.writer.inj heq)) (h.holds w' s hs)
  · intro s hs
    exact hlock s _ (fun heq => Owner.noConfusion heq) (h.switcher s hs)
  intro w' s n hs
  by_cases hw : w' = w
  · rw [hw, update_self] at hs
    exact hca s n hs
  rw [hother hw] at hs
  exact h.ca w' s n hs

theorem acquire_some {s : Shm} {owner : Owner} (h : p.acquire s owner = some p') :
    p.lock s = none ∧ p' = p.setLock s (some owner) := by
  unfold acquire at h
  split at h
  · rename_i hfree
    exact ⟨hfree, (Option.some.inj h).symm⟩
  cases h

theorem Orderly.call (h : Orderly p) (hstep : p.call w x = some p') : Orderly p' := by
  unfold ShmPair.call at hstep
  split at hstep
  · cases hstep
    apply h.of_writer p.ca
    · intro s hs
      exact (Option.some.inj hs).symm
    · intro s hs
      cases hs
    · intro s n hs
      cases hs
    intro s owner _ howner
    exact howner
  cases hstep

theorem Orderly.writerStep (h : Orderly p) (hstep : p.writerStep hash w = some p') : Orderly p' := by
  unfold ShmPair.writerStep at hstep
  split at hstep
  · cases hstep
  · rename_i s x hw
    cases hstep
    have hcur : s = p.current := h.shm w s (by rw [hw, WriterPc.shm])
    apply h.of_writer p.ca <;> simp_all [WriterPc.shm, WriterPc.holds, WriterPc.ca]
  · rename_i s n x hw
    obtain ⟨p₁, hlock, rfl⟩ := map_eq_some_iff.1 hstep
    obtain ⟨hfree, rfl⟩ := acquire_some hlock
    have hcur : s = p.current := h.shm w s (by rw [hw, WriterPc.shm])
    have hlive : n = p.resets s := h.ca w s n (by rw [hw, WriterPc.ca])
    apply h.of_writer p.ca
    · simp_all [WriterPc.shm]
    · simp_all [WriterPc.holds, setLock_self]
    · simp_all [WriterPc.ca]
    intro s' owner _ howner
    have hne : s' ≠ s := fun heq => by rw [heq, hfree] at howner; cases howner
    rwa [setLock_of_ne p hne]
  · rename_i s n x hw
    split at hstep
    · obtain ⟨c, -, rfl⟩ := map_eq_some_iff.1 hstep
      have hcur : s = p.current := h.shm w s (by rw [hw, WriterPc.shm])
      have hown := h.holds w s (by rw [hw, WriterPc.holds])
      apply h.of_writer (update p.ca s c) <;> simp_all [WriterPc.shm, WriterPc.holds, WriterPc.ca]
    cases hstep
  rename_i s hw
  cases hstep
  have hown := h.holds w s (by rw [hw, WriterPc.holds])
  apply h.of_writer p.ca
  · simp [WriterPc.shm]
  · simp [WriterPc.holds]
  · simp [WriterPc.ca]
  intro s' owner hne howner
  have hs : s' ≠ s := fun heq => by
    rw [heq, hown] at howner
    exact hne (Option.some.inj howner).symm
  rwa [setLock_of_ne p hs]

theorem Orderly.of_switcher (h : Orderly p) {pc : SwitchPc} (hholds : ∀ s, pc.Holds p.current s → lock s = some .switcher)
    (hlock : ∀ s w, p.lock s = some (.writer w) → lock s = some (.writer w)) : Orderly { p with lock := lock, switcher := pc } :=
  ⟨h.shm, fun w s hs => hlock s w (h.holds w s hs), hholds, h.ca⟩

theorem setLock_writer {s t : Shm} {owner : Option Owner} (hs : ∀ w, p.lock s ≠ some (.writer w))
    (ht : p.lock t = some (.writer w)) : (p.setLock s owner).lock t = some (.writer w) := by
  have hne : t ≠ s := fun heq => hs w (heq ▸ ht)
  rwa [setLock_of_ne p hne]

theorem Orderly.swap (h : Orderly p) (hpc : p.switcher = .lockedBoth) (hok : SwapOk p) :
    (∀ w, (p.writer w).shm = none) ∧ Orderly { p with current := p.standby, switcher := .swapped } := by
  -- a writer on the current segment has its lock, but the switcher has
  have hnone : ∀ w, (p.writer w).shm = none := by
    intro w
    cases hs : (p.writer w).shm with
    | none => rfl
    | some s =>
      obtain rfl := h.shm w s hs
      have hwriter := h.holds w _ (hok hpc w hs)
      rw [h.switcher p.current (by rw [hpc]; trivial)] at hwriter
      cases hwriter
  refine ⟨hnone, ⟨?_, h.holds, ?_, h.ca⟩⟩
  · intro w s hs
    rw [hnone w] at hs
    cases hs
  intro s _
  exact h.switcher s (by rw [hpc]; trivial)

theorem Orderly.switchStep (h : Orderly p) (hok : SwapOk p) (hstep : p.switchStep fresh = some p') : Orderly p' := by
  unfold ShmPair.switchStep at hstep
  split at hstep <;> rename_i hpc
  · cases hstep
    refine ⟨h.shm, h.holds, fun s hs => hs.elim, ?_⟩
    intro w s n hs
    have hcur : s ≠ p.standby := by
      have hshm : (p.writer w).shm = some s := by
        revert hs
        show (p.writer w).ca = some (s, n) → _
        cases p.writer w <;> simp [WriterPc.ca, WriterPc.shm] <;> intro heq _ <;> exact heq
      rw [h.shm w s hshm]
      exact p.current_ne_standby
    show n = update p.resets p.standby _ s
    rw [update_of_ne hcur]
    exact h.ca w s n hs
  · obtain ⟨p₁, hlock, rfl⟩ := map_eq_some_iff.1 hstep
    obtain ⟨hfree, rfl⟩ := acquire_some hlock
    apply h.of_switcher
    · rintro s rfl
      exact setLock_self p _ _
    intro s w
    exact setLock_writer (by simp [hfree])
  · obtain ⟨p₁, hlock, rfl⟩ := map_eq_some_iff.1 hstep
    obtain ⟨hfree, rfl⟩ := acquire_some hlock
    apply h.of_switcher
    · intro s _
      by_cases hs : s = p.standby
      · exact hs ▸ setLock_self p _ _
      rw [setLock_of_ne p hs]
      exact h.switcher s (by rw [hpc]; exact (Shm.eq_other hs).trans (Shm.other_other _))
    intro s w
    exact setLock_writer (by simp [hfree])
  · cases hstep
    exact (h.swap hpc hok).2
  · cases hstep
    have hown := h.switcher p.standby (by rw [hpc]; trivial)
    apply h.of_switcher
    · rintro s rfl
      rw [setLock_of_ne p p.current_ne_standby]
      exact h.switcher _ (by rw [hpc]; trivial)
    intro s w
    exact setLock_writer (by simp [hown])
  cases hstep
  have hown := h.switcher p.current (by rw [hpc]; rfl)
  apply h.of_switcher
  · intro s hs
    exact hs.elim
  intro s w
  exact setLock_writer (by simp [hown])

theorem Orderly.resetSafe (h : Orderly p) : ResetSafe p := by
  intro _ w hs
  exact p.current_ne_standby (h.shm w _ hs).symm

theorem run_swap (hash : List UInt8 → TMBHashKey) (fresh : CacheAccess) (hpc : p.switcher = .lockedBoth) :
    ∃ q, Run.run (step hash fresh) p [.switch, .switch, .switch] = some q ∧ q.writer = p.writer ∧ q.standby = p.current ∧
      q.switcher = .idle := by
  simp only [Run.run_cons, Run.run_nil, step, switchStep, hpc, bind_some, setSwitcher]
  exact ⟨_, rfl, rfl, Shm.other_other _, rfl⟩

/-- A swap is in order exactly when the switcher, left alone, would reset safely after it. -/
theorem Orderly.swapOk_iff (h : Orderly p) (hash : List UInt8 → TMBHashKey) (fresh : CacheAccess) :
    SwapOk p ↔ (p.switcher = .lockedBoth →
      ∀ q, Run.run (ShmPair.step hash fresh) p [.switch, .switch, .switch] = some q → ResetSafe q) := by
  constructor
  · intro hok hpc q hrun
    obtain ⟨q', hrun', hwriter, -, -⟩ := run_swap hash fresh hpc
    rw [hrun] at hrun'
    cases hrun'
    intro _ w
    rw [hwriter, (h.swap hpc hok).1 w]
    exact nofun
  intro hsafe hpc w hs
  obtain ⟨q, hrun, hwriter, hstandby, hidle⟩ := run_swap hash fresh hpc
  have hno := hsafe hpc q hrun hidle w
  rw [hwriter, hstandby] at hno
  exact absurd hs hno

end ShmPair

/-! ### What the segments keep -/

/-- A pair with an account of its segments: what a segment was when it was last reset, and the samples entered since it
last went on standby. -/
structure WatchedPair where
  pair : ShmPair
  base : Shm → CacheAccess
  since : Shm → List Sample

namespace WatchedPair

def start (ca : Shm → CacheAccess) : WatchedPair where
  pair := ⟨.one, fun _ => none, ca, fun _ => 0, fun _ => .idle, .idle⟩
  base := ca
  since := fun _ => []

def step (hash : List UInt8 → TMBHashKey) (fresh : CacheAccess) (q : WatchedPair) (act : PairAct) : Option WatchedPair :=
  (q.pair.step hash fresh act).map fun p =>
    match act with
    | .call _ _ => { q with pair := p }
    | .writer w =>
      match q.pair.writer w with
      | .locked s _ x => { q with pair := p, since := update q.since s (q.since s ++ [x]) }
      | _ => { q with pair := p }
    | .switch =>
      match q.pair.switcher with
      | .idle => { q with pair := p, base := update q.base q.pair.standby fresh }
      | .lockedBoth => { q with pair := p, since := update q.since q.pair.current [] }
      | _ => { q with pair := p }

/-- A segment holds every sample entered in it: it is what the updates by all of them make of it. -/
def Keeps (hash : List UInt8 → TMBHashKey) (q : WatchedPair) (s : Shm) : Prop :=
  Run.run (insDmlUpdate hash) (q.base s) (q.since s) = some (q.pair.ca s)

/-- The current segment keeps its samples. The one on standby has no further ones, and is as it was reset until it is
swapped in. -/
structure Sound (hash : List UInt8 → TMBHashKey) (q : WatchedPair) : Prop where
  orderly : q.pair.Orderly
  current : q.Keeps hash q.pair.current
  since : q.since q.pair.standby = []
  base : q.pair.switcher = .reset ∨ q.pair.switcher = .lockedCurrent ∨ q.pair.switcher = .lockedBoth →
    q.pair.ca q.pair.standby = q.base q.pair.standby

variable {hash : List UInt8 → TMBHashKey} {fresh : CacheAccess} {q q' : WatchedPair}

theorem sound_start (hash : List UInt8 → TMBHashKey) (ca : Shm → CacheAccess) : (start ca).Sound hash := by
  refine ⟨⟨?_, ?_, ?_, ?_⟩, rfl, rfl, ?_⟩ <;> simp [start, WriterPc.shm, WriterPc.holds, WriterPc.ca, SwitchPc.Holds]

section

variable (h : q.Sound hash)
include h

theorem Sound.of_same (horderly : q'.pair.Orderly) (hcurrent : q'.pair.current = q.pair.current)
    (hca : q'.pair.ca = q.pair.ca) (hbase : q'.base = q.base) (hsince : q'.since = q.since)
    (hpc : q'.pair.switcher = .reset ∨ q'.pair.switcher = .lockedCurrent ∨ q'.pair.switcher = .lockedBoth →
      q.pair.switcher = .reset ∨ q.pair.switcher = .lockedCurrent ∨ q.pair.switcher = .lockedBoth) : q'.Sound hash := by
  refine ⟨horderly, ?_, ?_, fun hsw => ?_⟩
  · rw [Keeps, hcurrent, hca, hbase, hsince]
    exact h.current
  · rw [hsince, ShmPair.standby, hcurrent]
    exact h.since
  rw [hca, hbase, ShmPair.standby, hcurrent]
  exact h.base (hpc hsw)

theorem Sound.call {x : Sample} (hstep : q.step hash fresh (.call w x) = some q') : q'.Sound hash := by
  obtain ⟨p', hp', rfl⟩ := map_eq_some_iff.1 hstep
  have horderly := h.orderly.call hp'
  replace hp' : q.pair.call w x = some p' := hp'
  unfold ShmPair.call at hp'
  split at hp'
  · cases hp'
    exact h.of_same horderly rfl rfl rfl rfl id
  cases hp'

theorem Sound.writer (hstep : q.step hash fresh (.writer w) = some q') : q'.Sound hash := by
  obtain ⟨p', hp', hq'⟩ := map_eq_some_iff.1 hstep
  have horderly := h.orderly.writerStep hp'
  simp only [ShmPair.step, ShmPair.writerStep] at hp'
  cases hw : q.pair.writer w with
  | idle =>
    simp only [hw] at hp' hq'
    cases hp'
  | fetched s x =>
    simp only [hw] at hp' hq'
    cases hp'
    subst hq'
    exact h.of_same horderly rfl rfl rfl rfl id
  | ready s n x =>
    simp only [hw] at hp' hq'
    obtain ⟨p₁, hlock, rfl⟩ := map_eq_some_iff.1 hp'
    obtain ⟨-, rfl⟩ := ShmPair.acquire_some hlock
    subst hq'
    exact h.of_same horderly rfl rfl rfl rfl id
  | locked s n x =>
    simp only [hw] at hp' hq'
    obtain rfl := h.orderly.shm w s (by rw [hw, WriterPc.shm])
    split at hp'
    · obtain ⟨c, hc, rfl⟩ := map_eq_some_iff.1 hp'
      subst hq'
      have hne := q.pair.current_ne_standby.symm
      refine ⟨horderly, ?_, ?_, fun hsw => ?_⟩
      · show Run.run _ (q.base q.pair.current) (update q.since q.pair.current (q.since q.pair.current ++ [x]) q.pair.current) =
          some (update q.pair.ca q.pair.current c q.pair.current)
        rw [update_self, update_self, Run.run_append, h.current, bind_some, Run.run_cons, hc]
        rfl
      · show update q.since q.pair.current _ q.pair.standby = []
        rw [update_of_ne hne, h.since]
      show update q.pair.ca q.pair.current c q.pair.standby = q.base q.pair.standby
      rw [update_of_ne hne, h.base hsw]
    cases hp'
  | added s =>
    simp only [hw] at hp' hq'
    cases hp'
    subst hq'
    exact h.of_same horderly rfl rfl rfl rfl id

theorem Sound.switch (hok : q.pair.SwapOk) (hstep : q.step hash fresh .switch = some q') : q'.Sound hash := by
  obtain ⟨p', hp', hq'⟩ := map_eq_some_iff.1 hstep
  have horderly := h.orderly.switchStep hok hp'
  have hne := q.pair.current_ne_standby
  simp only [ShmPair.step, ShmPair.switchStep] at hp'
  cases hpc : q.pair.switcher with
  | idle =>
    simp only [hpc] at hp' hq'
    cases hp'
    subst hq'
    refine ⟨horderly, ?_, h.since, fun _ => ?_⟩
    · show Run.run _ (update q.base q.pair.standby fresh q.pair.current) (q.since q.pair.current) =
        some (update q.pair.ca q.pair.standby fresh q.pair.current)
      rw [update_of_ne hne, update_of_ne hne]
      exact h.current
    show update q.pair.ca q.pair.standby fresh q.pair.standby = update q.base q.pair.standby fresh q.pair.standby
    rw [update_self, update_self]
  | reset =>
    simp only [hpc] at hp' hq'
    obtain ⟨p₁, hlock, rfl⟩ := map_eq_some_iff.1 hp'
    obtain ⟨-, rfl⟩ := ShmPair.acquire_some hlock
    subst hq'
    exact h.of_same horderly rfl rfl rfl rfl fun _ => .inl hpc
  | lockedCurrent =>
    simp only [hpc] at hp' hq'
    obtain ⟨p₁, hlock, rfl⟩ := map_eq_some_iff.1 hp'
    obtain ⟨-, rfl⟩ := ShmPair.acquire_some hlock
    subst hq'
    exact h.of_same horderly rfl rfl rfl rfl fun _ => .inr (.inl hpc)
  | lockedBoth =>
    simp only [hpc] at hp' hq'
    cases hp'
    subst hq'
    refine ⟨horderly, ?_, ?_, fun hsw => ?_⟩
    · show Run.run _ (q.base q.pair.standby) (update q.since q.pair.current [] q.pair.standby) = some (q.pair.ca q.pair.standby)
      rw [update_of_ne hne.symm, h.since, Run.run_nil, h.base (.inr (.inr hpc))]
    · show update q.since q.pair.current [] q.pair.current.other.other = []
      rw [Shm.other_other, update_self]
    rcases hsw with hsw | hsw | hsw <;> cases hsw
  | swapped =>
    simp only [hpc] at hp' hq'
    cases hp'
    subst hq'
    refine h.of_same horderly rfl rfl rfl rfl fun hsw => ?_
    rcases hsw with hsw | hsw | hsw <;> cases hsw
  | unlockedStandby =>
    simp only [hpc] at hp' hq'
    cases hp'
    subst hq'
    refine h.of_same horderly rfl rfl rfl rfl fun hsw => ?_
    rcases hsw with hsw | hsw | hsw <;> cases hsw

theorem Sound.step {act : PairAct} (hok : act = .switch → q.pair.SwapOk)
    (hstep : q.step hash fresh act = some q') : q'.Sound hash := by
  cases act with
  | call w x => exact h.call hstep
  | writer w => exact h.writer hstep
  | switch => exact h.switch (hok rfl) hstep

end

/-- In every run in which no swap overtakes a writer, the next reset falls on no writer, and a segment that is about to go
on standby holds all samples entered in it. A swap that overtakes a writer leads to a reset under it, if the switcher goes
on alone. -/
theorem resetSafe_of_swapOk (hash : List UInt8 → TMBHashKey) (fresh : CacheAccess) (ca : Shm → CacheAccess)
    (acts : List PairAct) (q : WatchedPair) (hrun : Run.run (step hash fresh) (start ca) acts = some q)
    (hok : ∀ u, Run.Takes (step hash fresh) (start ca) acts u .switch → u.pair.SwapOk) :
    q.pair.ResetSafe ∧ (q.pair.switcher = .lockedBoth → q.Keeps hash q.pair.current) ∧
    (q.pair.SwapOk ↔ (q.pair.switcher = .lockedBoth →
      ∀ p, Run.run (ShmPair.step hash fresh) q.pair [.switch, .switch, .switch] = some p → p.ResetSafe)) := by
  have hsound : q.Sound hash := by
    apply Run.invariant_of_takes (fun u act => act = .switch → u.pair.SwapOk) (sound_start hash ca) hrun
    · intro u act u' hu hstep hswap
      exact hu.step hswap hstep
    · intro u act htakes hact
      exact hok u (hact ▸ htakes)
  exact ⟨hsound.orderly.resetSafe, fun _ => hsound.current, hsound.orderly.swapOk_iff hash fresh⟩

def sampleWrite : Sample := ⟨⟨0, 0, CDBCommStat.zero⟩, 0, 0⟩

def switchShm : List PairAct := List.replicate 6 .switch

/-- Writer 0 enters a sample. -/
def enterSample : List PairAct := .call 0 sampleWrite :: List.replicate 4 (.writer 0)

theorem pair_step {act : PairAct} (hstep : q.step hash fresh act = some q') : q.pair.step hash fresh act = some q'.pair := by
  obtain ⟨p', hp', rfl⟩ := map_eq_some_iff.1 hstep
  rw [hp']
  split <;> try split
  all_goals rfl

theorem writer_idle {p p' : ShmPair} {act : PairAct} (hact : act = .call 0 sampleWrite ∨ act = .writer 0 ∨ act = .switch)
    (hstep : p.step hash fresh act = some p') (hw : w ≠ 0) (hidle : p.writer w = .idle) : p'.writer w = .idle := by
  have hset (p : ShmPair) (pc : WriterPc) : (p.setWriter 0 pc).writer w = p.writer w := update_of_ne hw _ _
  rcases hact with rfl | rfl | rfl
  · simp only [ShmPair.step, ShmPair.call] at hstep
    split at hstep <;> cases hstep
    rw [hset, hidle]
  · simp only [ShmPair.step, ShmPair.writerStep] at hstep
    split at hstep <;> simp only [ShmPair.acquire, map_eq_some_iff, ite_none_right_eq_some, some.injEq, reduceCtorEq] at hstep
    · rw [← hstep, hset, hidle]
    · obtain ⟨_, ⟨-, rfl⟩, rfl⟩ := hstep
      rw [hset]
      exact hidle
    · obtain ⟨-, _, -, rfl⟩ := hstep
      rw [hset]
      exact hidle
    · rw [← hstep, hset]
      exact hidle
  · simp only [ShmPair.step, ShmPair.switchStep] at hstep
    split at hstep <;> simp only [ShmPair.acquire, map_eq_some_iff, ite_none_right_eq_some, some.injEq] at hstep
    case h_2 | h_3 =>
      obtain ⟨_, ⟨-, rfl⟩, rfl⟩ := hstep
      exact hidle
    all_goals
      rw [← hstep]
      exact hidle

/-- A sample is entered, the segments are switched, another sample is entered, and the switcher is about to swap again. -/
theorem resetSafe_entered : ∃ s q, openInit 10000 PoolSizes.wide = .ok s ∧
    Run.run (step (fun _ => TMBHashKey.zero) s) (start fun _ => s)
      (enterSample ++ switchShm ++ enterSample ++ List.replicate 3 .switch) = some q ∧
    q.pair.switcher = .lockedBoth ∧ q.pair.current = .two ∧ (q.since .two).length = 1 ∧ q.pair.ResetSafe ∧
    q.Keeps (fun _ => TMBHashKey.zero) q.pair.current := by
  obtain ⟨s, hopen⟩ : ∃ s, openInit 10000 PoolSizes.wide = .ok s := ⟨_, rfl⟩
  have hends : (Run.run (step (fun _ => TMBHashKey.zero) s) (start fun _ => s)
      (enterSample ++ switchShm ++ enterSample ++ List.replicate 3 .switch)).map
      (fun q => (q.pair.switcher, q.pair.current, (q.since .two).length)) = some (.lockedBoth, .two, 1) := by
    cases hopen
    decide +kernel
  have hcheck : Run.check (step (fun _ => TMBHashKey.zero) s)
      (fun q _ => q.pair.switcher != .lockedBoth || (q.pair.writer 0).shm == none) (start fun _ => s)
      (enterSample ++ switchShm ++ enterSample ++ List.replicate 3 .switch) = true := by
    cases hopen
    decide +kernel
  obtain ⟨q, hrun, hq⟩ := map_eq_some_iff.1 hends
  simp only [Prod.mk.injEq] at hq
  obtain ⟨hsafe, hkeeps, -⟩ := resetSafe_of_swapOk (fun _ => TMBHashKey.zero) s (fun _ => s) _ q hrun fun u htakes hpc w hshm => by
    by_cases hw : w = 0
    · have hnone := Run.ok_of_check hcheck htakes
      subst hw
      simp [hpc, hshm] at hnone
    have hidle := (Run.invariant_takes (P := fun q => q.pair.writer w = .idle) (fun v act v' hact hidle hstep => by
      refine writer_idle ?_ (pair_step hstep) hw hidle
      simp only [enterSample, switchShm, List.mem_append, List.mem_cons, List.mem_replicate] at hact
      tauto) rfl htakes).2
    rw [hidle] at hshm
    cases hshm
  exact ⟨s, q, hopen, hrun, hq.1, hq.2.1, hq.2.2, hsafe, hkeeps hq.1⟩

/-- A writer that has fetched the first segment is overtaken by a switch: the next reset is of that segment. If the writer
enters its sample before that reset, the sample is gone when the segment next goes on standby. -/
theorem not_resetSafe : ∃ s q q', openInit 10000 PoolSizes.wide = .ok s ∧
    Run.run (step (fun _ => TMBHashKey.zero) s) (start fun _ => s) (.call 0 sampleWrite :: switchShm) = some q ∧
    ¬q.pair.ResetSafe ∧ Run.run (step (fun _ => TMBHashKey.zero) s) (start fun _ => s)
      (.call 0 sampleWrite :: switchShm ++ List.replicate 4 (.writer 0) ++ switchShm ++ List.replicate 3 .switch) = some q' ∧
    q'.pair.switcher = .lockedBoth ∧ ¬q'.Keeps (fun _ => TMBHashKey.zero) q'.pair.current := by
  obtain ⟨s, hopen⟩ : ∃ s, openInit 10000 PoolSizes.wide = .ok s := ⟨_, rfl⟩
  have hfirst : (Run.run (step (fun _ => TMBHashKey.zero) s) (start fun _ => s) (.call 0 sampleWrite :: switchShm)).map
      (fun q => (q.pair.switcher, (q.pair.writer 0).shm, q.pair.standby)) = some (.idle, some .one, .one) := by
    cases hopen
    decide +kernel
  have hsecond : (Run.run (step (fun _ => TMBHashKey.zero) s) (start fun _ => s)
      (.call 0 sampleWrite :: switchShm ++ List.replicate 4 (.writer 0) ++ switchShm ++ List.replicate 3 .switch)).map
      (fun q => (q.pair.switcher, (q.pair.ca q.pair.current).cache.addHead.isSome,
        (Run.run (insDmlUpdate fun _ => TMBHashKey.zero) (q.base q.pair.current) (q.since q.pair.current)).map
          fun c => c.cache.addHead.isSome)) = some (.lockedBoth, false, some true) := by
    cases hopen
    decide +kernel
  obtain ⟨q, hq, hpcs⟩ := map_eq_some_iff.1 hfirst
  obtain ⟨q', hq', hends⟩ := map_eq_some_iff.1 hsecond
  simp only [Prod.mk.injEq] at hpcs hends
  refine ⟨s, q, q', hopen, hq, fun hsafe => ?_, hq', hends.1, fun hkeeps => ?_⟩
  · exact hsafe hpcs.1 0 (hpcs.2.2 ▸ hpcs.2.1)
  · have hhas := hends.2.2
    rw [hkeeps, map_some, hends.2.1] at hhas
    cases hhas

end WatchedPair

end Mysql51.Stats
