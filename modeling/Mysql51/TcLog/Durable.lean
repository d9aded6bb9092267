import Mysql51.TcLog.View
import Mysql51.Lib.Run

/-!
# Durability of group commit

An id that `log_xid` has logged is on disk until `unlog` clears it. A thread learns from the state of its page that the page has
been synced, and the state may come from a sync that began before the id was stored only if ids are stored in a page while it is
synced.
-/

namespace Mysql51.TcLog

open Function List

def Entry.place (e : Entry) : Nat × Nat := (e.page, e.slot)

def Pc.syncs : Pc → Option Entry
  | .startSync e | .msync e _ _ _ | .toPool e _ | .leaveSync e _ => some e
  | _ => none

namespace View

def Live (v : View) (e : Entry) : Prop := (∃ t, (v.core t).entry = some e) ∨ e ∈ v.logged

def OnDisk (v : View) (e : Entry) : Prop := (v.disk e.page)[e.slot]? = some e.xid

def Covered (v : View) (e : Entry) : Prop := v.OnDisk e ∧ e.stored < v.synced e.page

/-! ### Places -/

structure Placed (v : View) : Prop where
  enter_ne : ∀ t xid, v.core t = .enter xid → xid ≠ 0
  live : ∀ e, v.Live e → e.xid ≠ 0 ∧ (v.slots e.page)[e.slot]? = some e.xid ∧ e.stored < v.now
  threads_ne : ∀ t u e e', (v.core t).entry = some e → (v.core u).entry = some e' → t ≠ u → e.place ≠ e'.place
  logged_ne : ∀ t e e', (v.core t).entry = some e → e' ∈ v.logged → e.place ≠ e'.place
  nodup : (v.logged.map Entry.place).Nodup

variable {v v' : View} {t : Nat} {e : Entry} {pc : Pc}

theorem core_setCore (v : View) (t : Nat) (pc : Pc) (u : Nat) :
    (v.setCore t pc).core u = if u = t then pc else v.core u := update_apply v.core t pc u

theorem Placed.congr (h : v.Placed) (hentry : ∀ u, (v'.core u).entry = (v.core u).entry)
    (henter : ∀ u xid, v'.core u = .enter xid → v.core u = .enter xid ∨ xid ≠ 0) (hslots : v'.slots = v.slots)
    (hlogged : v'.logged = v.logged) (hnow : v.now ≤ v'.now) : v'.Placed := by
  have hlive : ∀ e, v'.Live e → v.Live e := by
    rintro e (⟨u, hu⟩ | he)
    · exact .inl ⟨u, (hentry u).symm.trans hu⟩
    exact .inr (hlogged ▸ he)
  refine ⟨?_, ?_, ?_, ?_, hlogged ▸ h.nodup⟩
  · intro u xid hu
    exact (henter u xid hu).elim (h.enter_ne u xid) id
  · intro e he
    obtain ⟨hxid, hslot, hstored⟩ := h.live e (hlive e he)
    exact ⟨hxid, hslots ▸ hslot, hstored.trans_le hnow⟩
  · intro u u' e e' he he'
    exact h.threads_ne u u' e e' ((hentry u).symm.trans he) ((hentry u').symm.trans he')
  intro u e e' he he'
  exact h.logged_ne u e e' ((hentry u).symm.trans he) (hlogged ▸ he')

theorem entry_setCore (hentry : pc.entry = (v.core t).entry) (u : Nat) : ((v.setCore t pc).core u).entry = (v.core u).entry := by
  exact congrFun (Log.comp_update_of_eq Pc.entry hentry) u

theorem live_setCore (hentry : pc.entry = (v.core t).entry) (he : (v.setCore t pc).Live e) : v.Live e := by
  rcases he with ⟨u, hu⟩ | he
  · exact .inl ⟨u, (entry_setCore hentry u).symm.trans hu⟩
  exact .inr he

theorem enter_setCore (hpc : ∀ xid, pc = .enter xid → xid ≠ 0) (u xid : Nat) (hu : (v.setCore t pc).core u = .enter xid) :
    v.core u = .enter xid ∨ xid ≠ 0 := by
  rw [core_setCore] at hu
  split at hu
  · exact .inr (hpc xid hu)
  exact .inl hu

theorem Placed.setCore (h : v.Placed) (hentry : pc.entry = (v.core t).entry) (hpc : ∀ xid, pc = .enter xid → xid ≠ 0) :
    (v.setCore t pc).Placed :=
  h.congr (entry_setCore hentry) (enter_setCore hpc) rfl rfl le_rfl

theorem Placed.drop (h : v.Placed) (t : Nat) : (v.setCore t .idle).Placed := by
  have hentry : ∀ u e, ((v.setCore t .idle).core u).entry = some e → (v.core u).entry = some e := by
    intro u e hu
    rw [core_setCore] at hu
    split at hu
    · cases hu
    exact hu
  refine ⟨?_, ?_, ?_, ?_, h.nodup⟩
  · intro u xid hu
    rw [core_setCore] at hu
    split at hu
    · cases hu
    exact h.enter_ne u xid hu
  · rintro e (⟨u, hu⟩ | he)
    · exact h.live e (.inl ⟨u, hentry u e hu⟩)
    exact h.live e (.inr he)
  · intro u u' e e' he he'
    exact h.threads_ne u u' e e' (hentry u e he) (hentry u' e' he')
  intro u e e' he he'
  exact h.logged_ne u e e' (hentry u e he) he'

theorem Placed.log (h : v.Placed) (he : (v.core t).entry = some e) :
    Placed { v.setCore t .idle with logged := e :: v.logged } := by
  have hdrop := h.drop t
  have hentry : ∀ u e', ((v.setCore t .idle).core u).entry = some e' → u ≠ t ∧ (v.core u).entry = some e' := by
    intro u e' hu
    rw [core_setCore] at hu
    split at hu
    · cases hu
    case isFalse hne => exact ⟨hne, hu⟩
  refine ⟨hdrop.enter_ne, ?_, hdrop.threads_ne, ?_, ?_⟩
  · rintro e' (⟨u, hu⟩ | he')
    · exact hdrop.live e' (.inl ⟨u, hu⟩)
    rcases mem_cons.1 he' with rfl | he'
    · exact h.live e' (.inl ⟨t, he⟩)
    exact hdrop.live e' (.inr he')
  · intro u e₁ e₂ he₁ he₂
    rcases mem_cons.1 he₂ with rfl | he₂
    · obtain ⟨hne, he₁⟩ := hentry u e₁ he₁
      exact h.threads_ne u t e₁ e₂ he₁ he hne
    exact hdrop.logged_ne u e₁ e₂ he₁ he₂
  rw [map_cons, nodup_cons]
  refine ⟨?_, h.nodup⟩
  intro hmem
  obtain ⟨e', he', hplace⟩ := mem_map.1 hmem
  exact h.logged_ne t e e' he he' hplace.symm

theorem Placed.finish (h : v.Placed) (he : (v.core t).entry = some e) (err : Bool) : (v.finish t e err).Placed := by
  cases err with
  | true => exact h.drop t
  | false => exact h.log he

theorem getElem?_setSlot (v : View) (p slot xid q i : Nat) (hslot : slot < (v.slots p).length) :
    ((v.setSlot p slot xid).slots q)[i]? = if q = p ∧ i = slot then some xid else (v.slots q)[i]? := by
  simp only [setSlot, update_apply]
  by_cases hq : q = p
  · subst hq
    rw [if_pos rfl, List.getElem?_set]
    by_cases hi : i = slot
    · subst hi
      rw [if_pos rfl, if_pos hslot, if_pos ⟨rfl, rfl⟩]
    rw [if_neg (Ne.symm hi), if_neg (fun h => hi h.2)]
  rw [if_neg hq, if_neg (fun h => hq h.1)]

theorem Placed.store (h : v.Placed) {xid p slot : Nat} (hcore : v.core t = .enter xid)
    (hfree : (v.slots p)[slot]? = some 0) : (v.store t ⟨xid, p, slot, v.now⟩).Placed := by
  have hslot := (List.getElem?_eq_some_iff.1 hfree).1
  have hslots := fun q i => getElem?_setSlot v p slot xid q i hslot
  -- all other ids are elsewhere, since the slot is free
  have hplace : ∀ e, v.Live e → e.place ≠ (p, slot) := by
    rintro e he hplace
    obtain ⟨hxid, hmem, -⟩ := h.live e he
    obtain ⟨hpage, hslot⟩ := Prod.mk.inj hplace
    rw [hpage, hslot, hfree] at hmem
    exact hxid (Option.some.inj hmem).symm
  have hentry : ∀ u e, ((v.store t ⟨xid, p, slot, v.now⟩).core u).entry = some e →
      (u = t ∧ e = ⟨xid, p, slot, v.now⟩) ∨ (u ≠ t ∧ (v.core u).entry = some e) := by
    intro u e hu
    change ((v.setCore t (.wantSync ⟨xid, p, slot, v.now⟩)).core u).entry = some e at hu
    rw [core_setCore] at hu
    split_ifs at hu with heq
    · exact .inl ⟨heq, (Option.some.inj hu).symm⟩
    exact .inr ⟨heq, hu⟩
  have hother : ∀ e, v.Live e → e.xid ≠ 0 ∧ ((v.store t ⟨xid, p, slot, v.now⟩).slots e.page)[e.slot]? = some e.xid ∧
      e.stored < v.now + 1 := by
    intro e he
    obtain ⟨hxid, hmem, hstored⟩ := h.live e he
    refine ⟨hxid, ?_, hstored.trans (Nat.lt_succ_self _)⟩
    refine (hslots e.page e.slot).trans ?_
    rw [if_neg (fun hsame => hplace e he (Prod.ext hsame.1 hsame.2)), hmem]
  refine ⟨?_, ?_, ?_, ?_, h.nodup⟩
  · intro u xid' hu
    change (v.setCore t (.wantSync ⟨xid, p, slot, v.now⟩)).core u = .enter xid' at hu
    rw [core_setCore] at hu
    split at hu
    · cases hu
    exact h.enter_ne u xid' hu
  · rintro e (⟨u, hu⟩ | he)
    · rcases hentry u e hu with ⟨-, rfl⟩ | ⟨-, hu⟩
      · exact ⟨h.enter_ne t xid hcore, (hslots p slot).trans (if_pos ⟨rfl, rfl⟩), Nat.lt_succ_self _⟩
      exact hother e (.inl ⟨u, hu⟩)
    exact hother e (.inr he)
  · intro u u' e e' he he' hne
    rcases hentry u e he with ⟨rfl, rfl⟩ | ⟨-, hu⟩
    · rcases hentry u' e' he' with ⟨rfl, rfl⟩ | ⟨-, hu'⟩
      · exact absurd rfl hne
      exact (hplace e' (.inl ⟨u', hu'⟩)).symm
    rcases hentry u' e' he' with ⟨rfl, rfl⟩ | ⟨-, hu'⟩
    · exact hplace e (.inl ⟨u, hu⟩)
    exact h.threads_ne u u' e e' hu hu' hne
  intro u e e' he he'
  rcases hentry u e he with ⟨-, rfl⟩ | ⟨-, hu⟩
  · exact (hplace e' (.inr he')).symm
  exact h.logged_ne u e e' hu he'

theorem Placed.unlog (h : v.Placed) (he : e ∈ v.logged) :
    Placed { v.setSlot e.page e.slot 0 with logged := v.logged.erase e } := by
  obtain ⟨-, hmem, -⟩ := h.live e (.inr he)
  have hslots := fun q i => getElem?_setSlot v e.page e.slot 0 q i (List.getElem?_eq_some_iff.1 hmem).1
  have hother : ∀ e', v.Live e' → e'.place ≠ e.place → e'.xid ≠ 0 ∧
      ((v.setSlot e.page e.slot 0).slots e'.page)[e'.slot]? = some e'.xid ∧ e'.stored < v.now := by
    intro e' he' hne
    obtain ⟨hxid, hmem', hstored⟩ := h.live e' he'
    refine ⟨hxid, ?_, hstored⟩
    rw [hslots, if_neg (fun hsame => hne (Prod.ext hsame.1 hsame.2)), hmem']
  -- what is left in the list is at other places
  have hperm := perm_cons_erase he
  have hnodup := (hperm.map Entry.place).nodup_iff.1 h.nodup
  rw [map_cons, nodup_cons] at hnodup
  refine ⟨h.enter_ne, ?_, h.threads_ne, ?_, hnodup.2⟩
  · rintro e' (⟨u, hu⟩ | he')
    · exact hother e' (.inl ⟨u, hu⟩) (h.logged_ne u e' e hu he)
    refine hother e' (.inr (mem_of_mem_erase he')) fun hplace => hnodup.1 ?_
    rw [← hplace]
    exact mem_map_of_mem he'
  intro u e₁ e₂ he₁ he₂
  exact h.logged_ne u e₁ e₂ he₁ (mem_of_mem_erase he₂)

/-! ### The syncing thread -/

structure OneSync (v : View) : Prop where
  wantActive : ∀ t e, v.core t = .wantActive e → v.lockSync = some t ∧ v.syncing = none
  syncs : ∀ t e, (v.core t).syncs = some e → v.syncing = some e.page
  unique : ∀ t u e e', (v.core t).syncs = some e → (v.core u).syncs = some e' → t = u

theorem OneSync.congr (h : v.OneSync) (hcore : ∀ u e, (v'.core u).syncs = some e → (v.core u).syncs = some e)
    (hwant : ∀ u e, v'.core u = .wantActive e → v.core u = .wantActive e) (hsyncing : v'.syncing = v.syncing)
    (hlock : v'.lockSync = v.lockSync) : v'.OneSync := by
  refine ⟨?_, ?_, ?_⟩
  · intro u e hu
    rw [hlock, hsyncing]
    exact h.wantActive u e (hwant u e hu)
  · intro u e hu
    rw [hsyncing]
    exact h.syncs u e (hcore u e hu)
  intro u u' e e' hu hu'
  exact h.unique u u' e e' (hcore u e hu) (hcore u' e' hu')

theorem OneSync.thread_step (h : v.OneSync) (hcore : v'.core = update v.core t pc) (hsyncing : v'.syncing = v.syncing)
    (hlock : v'.lockSync = v.lockSync) (hsyncs : pc.syncs = none ∨ pc.syncs = (v.core t).syncs)
    (hwant : ∀ e, pc ≠ .wantActive e) : v'.OneSync := by
  refine h.congr ?_ ?_ hsyncing hlock
  · intro u e hu
    rw [hcore, update_apply] at hu
    split_ifs at hu with heq
    · subst heq
      rcases hsyncs with hnone | hsame
      · rw [hnone] at hu
        cases hu
      exact hsame.symm.trans hu
    exact hu
  intro u e hu
  rw [hcore, update_apply] at hu
  split at hu
  · exact absurd hu (hwant e)
  exact hu

theorem OneSync.wantLock (h : v.OneSync) (hlock : v.lockSync = none) (hsyncing : v.syncing = none) :
    OneSync { v.setCore t (.wantActive e) with lockSync := some t } := by
  have hnone : ∀ u e', ((v.setCore t (.wantActive e)).core u).syncs ≠ some e' := by
    intro u e' hu
    rw [core_setCore] at hu
    split at hu
    · cases hu
    have := h.syncs u e' hu
    rw [hsyncing] at this
    cases this
  refine ⟨?_, fun u e' hu => absurd hu (hnone u e'), fun u _ e' _ hu => absurd hu (hnone u e')⟩
  intro u e' hu
  change (v.setCore t (.wantActive e)).core u = .wantActive e' at hu
  rw [core_setCore] at hu
  split_ifs at hu with heq
  · exact ⟨congrArg some heq.symm, hsyncing⟩
  have := (h.wantActive u e' hu).1
  rw [hlock] at this
  cases this

theorem OneSync.takeSync (h : v.OneSync) (hcore : v.core t = .wantActive e) :
    OneSync { v.setCore t (.startSync e) with syncing := some e.page, lockSync := none } := by
  obtain ⟨hlock, hsyncing⟩ := h.wantActive t e hcore
  have hsyncs : ∀ u e', ((v.setCore t (.startSync e)).core u).syncs = some e' → u = t ∧ e' = e := by
    intro u e' hu
    rw [core_setCore] at hu
    split_ifs at hu with heq
    · exact ⟨heq, (Option.some.inj hu).symm⟩
    have := h.syncs u e' hu
    rw [hsyncing] at this
    cases this
  refine ⟨?_, ?_, ?_⟩
  · intro u e' hu
    change (v.setCore t (.startSync e)).core u = .wantActive e' at hu
    rw [core_setCore] at hu
    split at hu
    · cases hu
    case isFalse hne =>
        have := (h.wantActive u e' hu).1
        rw [hlock] at this
        exact absurd (Option.some.inj this).symm hne
  · intro u e' hu
    rw [(hsyncs u e' hu).2]
  intro u u' e₁ e₂ hu hu'
  exact (hsyncs u e₁ hu).1.trans (hsyncs u' e₂ hu').1.symm

theorem OneSync.release (h : v.OneSync) (hcore : (v.core t).syncs = some e) (hlock : v.lockSync = none)
    (logged : List Entry) : OneSync { v.setCore t .idle with syncing := none, logged := logged } := by
  have hnone : ∀ u e', ((v.setCore t .idle).core u).syncs ≠ some e' := by
    intro u e' hu
    rw [core_setCore] at hu
    split at hu
    · cases hu
    case isFalse hne => exact hne (h.unique u t e' e hu hcore)
  refine ⟨?_, fun u e' hu => absurd hu (hnone u e'), fun u _ e' _ hu => absurd hu (hnone u e')⟩
  intro u e' hu
  change (v.setCore t .idle).core u = .wantActive e' at hu
  rw [core_setCore] at hu
  split at hu
  · cases hu
  have := (h.wantActive u e' hu).1
  rw [hlock] at this
  cases this

theorem syncs_writeBack (v : View) (p u : Nat) : ((v.writeBack p).core u).syncs = (v.core u).syncs := by
  simp only [View.writeBack]
  split
  case h_1 h => rw [h]; rfl
  case h_2 => rfl

theorem entry_writeBack (v : View) (p u : Nat) : ((v.writeBack p).core u).entry = (v.core u).entry := by
  simp only [View.writeBack]
  split
  case h_1 h => rw [h]; rfl
  case h_2 => rfl

/-! ### What is on disk -/

def Promise (v : View) : Pc → Prop
  | .msync e q start written =>
    q = e.page ∧ ∀ e', v.Live e' → e'.page = e.page → e'.stored < start ∧ (written = true → v.OnDisk e')
  | .toPool e false => ∀ e', v.Live e' → e'.page = e.page → v.Covered e'
  | .leaveSync e false => v.Covered e
  | _ => True

/-- What the threads, the states of the pages and the list of logged ids promise. -/
structure Promised (v : View) : Prop where
  thread : ∀ t, v.Promise (v.core t)
  pool : ∀ p, v.state p = .pool → ∀ e, v.Live e → e.page = p → v.Covered e
  logged : ∀ e ∈ v.logged, v.Covered e

theorem Promise.mono (h : v.Promise pc) (hlive : ∀ e e', pc.syncs = some e → v'.Live e' → e'.page = e.page → v.Live e')
    (hentry : ∀ e, pc.entry = some e → v.Live e) (hdisk : ∀ e, v.Live e → v.OnDisk e → v'.OnDisk e)
    (hcovered : ∀ e, v.Live e → v.Covered e → v'.Covered e) : v'.Promise pc := by
  unfold Promise at h ⊢
  split
  case h_1 e q start written =>
      refine ⟨h.1, fun e' he' hpage => ?_⟩
      have he := hlive e e' rfl he' hpage
      exact ⟨(h.2 e' he hpage).1, fun hwritten => hdisk e' he ((h.2 e' he hpage).2 hwritten)⟩
  case h_2 e =>
      intro e' he' hpage
      have he := hlive e e' rfl he' hpage
      exact hcovered e' he (h e' he hpage)
  case h_3 e => exact hcovered e (hentry e rfl) h
  case h_4 => trivial

theorem Promised.mono (h : v.Promised) (hlive : ∀ e, v'.Live e → v.Live e)
    (hdisk : ∀ e, v.Live e → v.OnDisk e → v'.OnDisk e) (hcovered : ∀ e, v.Live e → v.Covered e → v'.Covered e)
    (hcore : ∀ u, v'.core u = v.core u ∨ v'.Promise (v'.core u))
    (hstate : ∀ p, v'.state p = .pool → v.state p = .pool ∨ ∀ e, v.Live e → e.page = p → v'.Covered e)
    (hlogged : ∀ e ∈ v'.logged, e ∈ v.logged ∨ v'.Covered e) : v'.Promised := by
  refine ⟨?_, ?_, ?_⟩
  · intro u
    rcases hcore u with hu | hu
    · rw [hu]
      exact (h.thread u).mono (fun _ e' _ he' _ => hlive e' he') (fun e he => .inl ⟨u, he⟩) hdisk hcovered
    exact hu
  · intro p hp e he hpage
    rcases hstate p hp with hp | hp
    · exact hcovered e (hlive e he) (h.pool p hp e (hlive e he) hpage)
    exact hp e (hlive e he) hpage
  intro e he
  rcases hlogged e he with he | he
  · exact hcovered e (.inr he) (h.logged e he)
  exact he

theorem Promised.thread_step (h : v.Promised) (hcore : v'.core = update v.core t pc) (hpc : v'.Promise pc)
    (hentry : ∀ e, pc.entry = some e → v.Live e) (hdisk : v'.disk = v.disk) (hsynced : v'.synced = v.synced)
    (hstate : v'.state = v.state) (hlogged : ∀ e ∈ v'.logged, v.Live e ∧ v.Covered e) : v'.Promised := by
  have hu : ∀ u, v'.core u = if u = t then pc else v.core u := fun u => by rw [hcore, update_apply]
  have hOnDisk : ∀ e, v.OnDisk e → v'.OnDisk e := by
    intro e he
    unfold OnDisk
    rw [hdisk]
    exact he
  have hCovered : ∀ e, v.Covered e → v'.Covered e :=
    fun e he => ⟨hOnDisk e he.1, (congrArg (fun f => e.stored < f e.page) hsynced).mpr he.2⟩
  refine h.mono ?_ (fun e _ => hOnDisk e) (fun e _ => hCovered e) ?_ ?_ (fun e he => .inr (hCovered e (hlogged e he).2))
  · rintro e (⟨u, he⟩ | he)
    · rw [hu] at he
      split at he
      · exact hentry e he
      exact .inl ⟨u, he⟩
    exact (hlogged e he).1
  · intro u
    rw [hu]
    split
    · exact .inr hpc
    exact .inl rfl
  intro p hp
  exact .inl (hstate ▸ hp)

theorem Promised.finish (h : v.Promised) (he : (v.core t).entry = some e) {err : Bool}
    (hcovered : err = false → v.Covered e) : (v.finish t e err).Promised := by
  refine h.thread_step rfl trivial nofun rfl rfl rfl ?_
  intro e' he'
  cases err with
  | true => exact ⟨.inr he', h.logged e' he'⟩
  | false =>
    rcases mem_cons.1 he' with rfl | he'
    · exact ⟨.inl ⟨t, he⟩, hcovered rfl⟩
    exact ⟨.inr he', h.logged e' he'⟩

/-- The new id is not on the page that is synced, and its own page leaves the state `POOL`. -/
theorem Promised.store (h : v.Promised) (hone : v.OneSync) {xid p slot : Nat} (hsyncing : v.syncing ≠ some p) :
    (v.store t ⟨xid, p, slot, v.now⟩).Promised := by
  have hlive : ∀ e, (v.store t ⟨xid, p, slot, v.now⟩).Live e → e.page = p ∨ v.Live e := by
    rintro e (⟨u, hu⟩ | he)
    · change ((v.setCore t (.wantSync ⟨xid, p, slot, v.now⟩)).core u).entry = some e at hu
      rw [core_setCore] at hu
      split at hu
      · exact .inl (congrArg Entry.page (Option.some.inj hu)).symm
      exact .inr (.inl ⟨u, hu⟩)
    exact .inr (.inr he)
  refine ⟨?_, ?_, h.logged⟩
  · intro u
    change (v.store t ⟨xid, p, slot, v.now⟩).Promise ((v.setCore t (.wantSync ⟨xid, p, slot, v.now⟩)).core u)
    rw [core_setCore]
    split
    · trivial
    refine (h.thread u).mono ?_ (fun e he => .inl ⟨u, he⟩) (fun _ _ => id) (fun _ _ => id)
    intro e e' hsyncs he' hpage
    refine (hlive e' he').resolve_left fun hp => hsyncing ?_
    rw [hone.syncs u e hsyncs, ← hpage, hp]
  intro q hq e he hpage
  change update v.state p .dirty q = .pool at hq
  rw [update_apply] at hq
  split at hq
  · cases hq
  case isFalse hne => exact h.pool q hq e ((hlive e he).resolve_left fun hp => hne (hpage.symm.trans hp)) hpage

theorem Promised.startSync (h : v.Promised) (hplaced : v.Placed) (hcore : v.core t = .startSync e) :
    Promised { v.setCore t (.msync e e.page v.now false) with now := v.now + 1 } := by
  have hentry : (v.core t).entry = some e := by rw [hcore]; rfl
  have hlive : ∀ e', (v.setCore t (.msync e e.page v.now false)).Live e' → v.Live e' := by
    intro e' he'
    exact live_setCore (by rw [hcore]; rfl) he'
  refine h.thread_step rfl ⟨rfl, ?_⟩ ?_ rfl rfl rfl (fun e' he' => ⟨.inr he', h.logged e' he'⟩)
  · intro e' he' _
    exact ⟨(hplaced.live e' (hlive e' he')).2.2, fun hfalse => by cases hfalse⟩
  rintro e' he'
  exact .inl ⟨t, hentry.trans he'⟩

theorem Promised.syncDone (h : v.Promised) {q start : Nat} (hcore : v.core t = .msync e q start true) :
    Promised { v.setCore t (.toPool e false) with synced := update v.synced q start } := by
  obtain ⟨rfl, hpage⟩ := hcore ▸ h.thread t
  have hlive : ∀ e', (v.setCore t (.toPool e false)).Live e' → v.Live e' := by
    intro e' he'
    exact live_setCore (by rw [hcore]; rfl) he'
  have hsynced : ∀ e', v.Live e' → v.OnDisk e' → e'.page = e.page ∨ v.Covered e' →
      e'.stored < update v.synced e.page start e'.page := by
    intro e' he' _ hcovered
    rw [update_apply]
    split_ifs with heq
    · exact (hpage e' he' heq).1
    exact (hcovered.resolve_left heq).2
  refine h.mono hlive (fun _ _ => id) (fun e' he' hcov => ⟨hcov.1, hsynced e' he' hcov.1 (.inr hcov)⟩) ?_
    (fun _ => .inl) (fun _ => .inl)
  intro u
  change (v.setCore t (.toPool e false)).core u = v.core u ∨ Promise _ ((v.setCore t (.toPool e false)).core u)
  rw [core_setCore]
  split
  · refine .inr fun e' he' hsame => ?_
    have hdisk := (hpage e' (hlive e' he') hsame).2 rfl
    exact ⟨hdisk, hsynced e' (hlive e' he') hdisk (.inl hsame)⟩
  exact .inl rfl

theorem Promised.toPool (h : v.Promised) {err : Bool} (hcore : v.core t = .toPool e err) :
    ((v.setState e.page (if err then .error else .pool)).setCore t (.leaveSync e err)).Promised := by
  have hentry : (v.core t).entry = some e := by rw [hcore]; rfl
  have hpromise := h.thread t
  rw [hcore] at hpromise
  refine h.mono ?_ (fun _ _ => id) (fun _ _ => id) ?_ ?_ (fun _ => .inl)
  · intro e' he'
    exact live_setCore (by rw [hcore]; rfl) he'
  · intro u
    change (v.setCore t (.leaveSync e err)).core u = v.core u ∨ Promise _ ((v.setCore t (.leaveSync e err)).core u)
    rw [core_setCore]
    split
    · cases err with
      | true => exact .inr trivial
      | false => exact .inr (hpromise e (.inl ⟨t, hentry⟩) rfl)
    exact .inl rfl
  intro p hp
  change update v.state e.page (if err then .error else .pool) p = .pool at hp
  rw [update_apply] at hp
  split at hp
  case isTrue heq =>
      subst heq
      cases err with
      | true => cases hp
      | false => exact .inr hpromise
  case isFalse => exact .inl hp

theorem Promised.writeBack (h : v.Promised) (hplaced : v.Placed) (p : Nat) : (v.writeBack p).Promised := by
  have hlive : ∀ e, (v.writeBack p).Live e → v.Live e := by
    rintro e (⟨u, hu⟩ | he)
    · exact .inl ⟨u, (entry_writeBack v p u).symm.trans hu⟩
    exact .inr he
  have hdisk : ∀ e, v.Live e → e.page = p ∨ v.OnDisk e → (v.writeBack p).OnDisk e := by
    intro e he hor
    change (update v.disk p (v.slots p) e.page)[e.slot]? = some e.xid
    rw [update_apply]
    split_ifs with heq
    · exact heq ▸ (hplaced.live e he).2.1
    exact hor.resolve_left heq
  have hOnDisk : ∀ e, v.Live e → v.OnDisk e → (v.writeBack p).OnDisk e := fun e he hon => hdisk e he (.inr hon)
  refine h.mono hlive hOnDisk (fun e he hcov => ⟨hOnDisk e he hcov.1, hcov.2⟩) ?_ (fun _ => .inl) (fun _ => .inl)
  intro u
  have hthread := h.thread u
  simp only [View.writeBack]
  split
  case h_1 e q start written hu =>
      rw [hu] at hthread
      refine .inr ⟨hthread.1, fun e' he' hpage => ?_⟩
      obtain ⟨hstored, hwritten⟩ := hthread.2 e' (hlive e' he') hpage
      refine ⟨hstored, fun hor => ?_⟩
      rcases Bool.or_eq_true_iff.1 hor with hw | hp
      · exact hOnDisk e' (hlive e' he') (hwritten hw)
      exact hdisk e' (hlive e' he') (.inl (hpage.trans (hthread.1.symm.trans (of_decide_eq_true hp))))
  case h_2 => exact .inl rfl

/-! ### Steps and runs -/

structure Sound (v : View) : Prop where
  placed : v.Placed
  oneSync : v.OneSync
  promised : v.Promised
  /-- There are no slots behind the last page. -/
  behind : ∀ p, v.npages ≤ p → v.slots p = []

theorem Sound.finish (h : v.Sound) (he : (v.core t).entry = some e) {err : Bool}
    (hcovered : err = false → v.Covered e) : (v.finish t e err).Sound where
  placed := h.placed.finish he err
  oneSync := h.oneSync.thread_step rfl rfl rfl (.inl rfl) nofun
  promised := h.promised.finish he hcovered
  behind := h.behind

theorem behind_setSlot (h : ∀ p, v.npages ≤ p → v.slots p = []) (q slot xid p : Nat) (hp : v.npages ≤ p) :
    (v.setSlot q slot xid).slots p = [] := by
  simp only [setSlot, update_apply]
  split_ifs with heq
  · rw [← heq, h p hp, set_nil]
  exact h p hp

theorem Sound.setCore (h : v.Sound) (hentry : pc.entry = (v.core t).entry) (henter : ∀ xid, pc = .enter xid → xid ≠ 0)
    (hsyncs : pc.syncs = none ∨ pc.syncs = (v.core t).syncs) (hwant : ∀ e, pc ≠ .wantActive e)
    (hpromise : (v.setCore t pc).Promise pc) : (v.setCore t pc).Sound where
  placed := h.placed.setCore hentry henter
  oneSync := h.oneSync.thread_step rfl rfl rfl hsyncs hwant
  promised := h.promised.thread_step rfl hpromise (fun _ he => .inl ⟨t, hentry.symm.trans he⟩) rfl rfl rfl
    (fun e he => ⟨.inr he, h.promised.logged e he⟩)
  behind := h.behind

theorem Sound.step (h : v.Sound) (hstep : Step v v') : v'.Sound := by
  have hlogged : ∀ e ∈ v.logged, v.Live e ∧ v.Covered e := fun e he => ⟨.inr he, h.promised.logged e he⟩
  -- the entry of a thread that waits for `LOCK_sync` or for its page
  have hwaits : ∀ {t e}, v.core t = .wantSync e ∨ v.core t = .sleepPage e false → (v.core t).entry = some e := by
    rintro t e (hcore | hcore) <;> rw [hcore] <;> rfl
  cases hstep with
  | call t hxid hcore =>
    refine h.setCore (by rw [hcore]; rfl) ?_ (.inl rfl) nofun trivial
    intro xid heq
    exact Pc.enter.inj heq ▸ hxid
  | fault t hcore => exact h.setCore hcore.symm nofun (.inl rfl) nofun trivial
  | store t hcore hfree hsyncing =>
    refine ⟨h.placed.store hcore hfree, ?_, h.promised.store h.oneSync hsyncing, fun q => behind_setSlot h.behind _ _ _ q⟩
    exact h.oneSync.thread_step rfl rfl rfl (.inl rfl) nofun
  | sleep t hcore =>
    exact h.setCore (by rw [hcore]; rfl) nofun (.inl rfl) nofun trivial
  | @wantActive t e hcore hlock hsyncing =>
    have hentry := hwaits hcore
    refine ⟨?_, h.oneSync.wantLock hlock hsyncing, ?_, h.behind⟩
    · exact h.placed.congr (entry_setCore hentry.symm) (enter_setCore fun _ h => nomatch h) rfl rfl le_rfl
    exact h.promised.thread_step rfl trivial (fun e' he' => .inl ⟨t, hentry.trans he'⟩) rfl rfl rfl hlogged
  | @synchronized t e hcore hstate =>
    have hentry := hwaits hcore
    refine h.finish hentry fun herr => ?_
    -- the state is neither `DIRTY` nor `ERROR`
    have hpool : v.state e.page = .pool := by
      cases hcase : v.state e.page with
      | pool => rfl
      | dirty => exact absurd hcase hstate
      | error => exact absurd hcase (of_decide_eq_false herr)
    exact h.promised.pool e.page hpool e (.inl ⟨t, hentry⟩) rfl
  | @takeSync t e hcore =>
    have hentry : (v.core t).entry = some e := by rw [hcore]; rfl
    refine ⟨?_, h.oneSync.takeSync hcore, ?_, h.behind⟩
    · exact h.placed.congr (entry_setCore hentry.symm) (enter_setCore fun _ h => nomatch h) rfl rfl le_rfl
    exact h.promised.thread_step rfl trivial (fun e' he' => .inl ⟨t, hentry.trans he'⟩) rfl rfl rfl hlogged
  | @startSync t e hcore q hsyncing =>
    have hentry : (v.core t).entry = some e := by rw [hcore]; rfl
    have hsyncs : (v.core t).syncs = some e := by rw [hcore]; rfl
    obtain rfl : e.page = q := Option.some.inj ((h.oneSync.syncs t e hsyncs).symm.trans hsyncing)
    refine ⟨?_, ?_, h.promised.startSync h.placed hcore, h.behind⟩
    · exact h.placed.congr (entry_setCore hentry.symm) (enter_setCore fun _ h => nomatch h) rfl rfl (Nat.le_succ _)
    exact h.oneSync.thread_step rfl rfl rfl (.inr hsyncs.symm) nofun
  | syncFailed t hcore =>
    exact h.setCore (by rw [hcore]; rfl) nofun (.inr (by rw [hcore]; rfl)) nofun trivial
  | @syncDone t e q start hcore =>
    have hentry : (v.core t).entry = some e := by rw [hcore]; rfl
    have hsyncs : (v.core t).syncs = some e := by rw [hcore]; rfl
    refine ⟨?_, ?_, h.promised.syncDone hcore, h.behind⟩
    · exact h.placed.congr (entry_setCore hentry.symm) (enter_setCore fun _ h => nomatch h) rfl rfl le_rfl
    exact h.oneSync.thread_step rfl rfl rfl (.inr hsyncs.symm) nofun
  | @toPool t e err hcore q hsyncing =>
    have hentry : (v.core t).entry = some e := by rw [hcore]; rfl
    have hsyncs : (v.core t).syncs = some e := by rw [hcore]; rfl
    obtain rfl : e.page = q := Option.some.inj ((h.oneSync.syncs t e hsyncs).symm.trans hsyncing)
    refine ⟨?_, ?_, h.promised.toPool hcore, h.behind⟩
    · exact h.placed.congr (entry_setCore hentry.symm) (enter_setCore fun _ h => nomatch h) rfl rfl le_rfl
    exact h.oneSync.thread_step rfl rfl rfl (.inr hsyncs.symm) nofun
  | @leaveSync t e err hcore hlock =>
    have hentry : (v.core t).entry = some e := by rw [hcore]; rfl
    have hpromise := h.promised.thread t
    rw [hcore] at hpromise
    refine ⟨?_, h.oneSync.release (by rw [hcore]; rfl) hlock _, ?_, h.behind⟩
    · exact (h.placed.finish hentry err).congr (fun _ => rfl) (fun _ _ => .inl) rfl rfl le_rfl
    have hfinish : (v.finish t e err).Promised := h.promised.finish hentry fun herr => by subst herr; exact hpromise
    exact ⟨hfinish.thread, hfinish.pool, hfinish.logged⟩
  | dropSync t hcore hlock =>
    refine ⟨?_, h.oneSync.release (by rw [hcore]; rfl) hlock _, ?_, h.behind⟩
    · exact (h.placed.drop t).congr (fun _ => rfl) (fun _ _ => .inl) rfl rfl le_rfl
    exact h.promised.thread_step rfl trivial nofun rfl rfl rfl hlogged
  | syncFault t hcore hsyncing =>
    refine ⟨h.placed.drop t, h.oneSync.thread_step rfl rfl rfl (.inl rfl) nofun, ?_, h.behind⟩
    exact h.promised.thread_step rfl trivial nofun rfl rfl rfl hlogged
  | @unlog e he =>
    refine ⟨h.placed.unlog he, h.oneSync.congr (fun _ _ => id) (fun _ _ => id) rfl rfl, ?_, fun q => behind_setSlot h.behind _ _ _ q⟩
    have hlive : ∀ e', (∃ t, (v.core t).entry = some e') ∨ e' ∈ v.logged.erase e → v.Live e' :=
      fun e' he' => he'.imp_right mem_of_mem_erase
    exact h.promised.mono hlive (fun _ _ => id) (fun _ _ => id) (fun _ => .inl rfl) (fun _ => .inl)
      (fun _ he' => .inl (mem_of_mem_erase he'))
  | writeBack p =>
    have henter : ∀ u pc', (v.writeBack p).core u = pc' → pc'.syncs = none → v.core u = pc' := by
      intro u pc' hu hsyncs
      have hnone := (syncs_writeBack v p u).symm.trans ((congrArg Pc.syncs hu).trans hsyncs)
      simp only [View.writeBack] at hu
      split at hu
      case h_1 hmsync => rw [hmsync] at hnone; cases hnone
      case h_2 => exact hu
    refine ⟨?_, ?_, h.promised.writeBack h.placed p, h.behind⟩
    · exact h.placed.congr (entry_writeBack v p) (fun u xid hu => .inl (henter u _ hu rfl)) rfl rfl le_rfl
    exact h.oneSync.congr (fun u e he => (syncs_writeBack v p u).symm.trans he) (fun u e hu => henter u _ hu rfl) rfl rfl

end View

theorem sound_start (sizes : List Nat) (nthreads : Nat) : (start sizes nthreads).view.Sound where
  placed :=
    { enter_ne := nofun
      live := fun _ h => h.elim (fun ⟨_, h⟩ => nomatch h) nofun
      threads_ne := nofun
      logged_ne := nofun
      nodup := nodup_nil }
  oneSync := ⟨fun _ _ h => (nomatch h), fun _ _ h => (nomatch h), fun _ _ _ _ h => (nomatch h)⟩
  promised := ⟨fun _ => trivial, fun _ _ _ h => h.elim (fun ⟨_, h⟩ => nomatch h) nofun, fun _ h => (nomatch h)⟩
  behind := by
    intro p hp
    change List.replicate (sizes.getD p 0) 0 = []
    rw [getD_eq_getElem?_getD, List.getElem?_eq_none hp, Option.getD_none, replicate_zero]

/-- Every logged id is found by `recover`, and a sync of its page that began after it was stored has succeeded. -/
def Log.Durable (s : Log) : Prop := ∀ e ∈ s.logged, e.stored < s.synced e.page ∧ e.xid ∈ s.recover

theorem View.Sound.durable {s : Log} (h : s.view.Sound) : s.Durable := by
  intro e he
  obtain ⟨hxid, hslot, -⟩ := h.placed.live e (.inr he)
  obtain ⟨hdisk, hsynced⟩ := h.promised.logged e he
  refine ⟨hsynced, mem_filter.2 ⟨mem_flatMap.2 ⟨e.page, ?_, mem_of_getElem? hdisk⟩, by simpa using hxid⟩⟩
  rw [mem_range]
  by_contra hpage
  rw [h.behind e.page (Nat.le_of_not_lt hpage)] at hslot
  cases hslot

theorem View.Sound.log_step {s s' : Log} {a : Log.Action} (h : s.view.Sound) (hstep : s.step a = some s') (hok : s.storeOk a) :
    s'.view.Sound := by
  rcases Log.step_view hstep hok with hsame | hstep
  · rw [hsame]
    exact h
  exact h.step hstep

/-- As long as no id is stored in the page that is synced, every logged id is durable. -/
theorem logged_durable (sizes : List Nat) (nthreads : Nat) {as : List Log.Action} {s : Log}
    (hrun : Run.run Log.step (start sizes nthreads) as = some s)
    (hok : ∀ s' a, Run.Takes Log.step (start sizes nthreads) as s' a → s'.storeOk a) : s.Durable :=
  (Run.invariant_of_takes (P := fun s : Log => s.view.Sound) (fun s a => s.storeOk a) (sound_start sizes nthreads) hrun
    (fun _ _ _ h => h.log_step) hok).durable

def sharedSync : List Log.Action :=
  [.call 0 10, .lockActive 0, .store 0 0, .lockSync 0 0, .call 1 11, .lockActive 1, .store 1 1, .takeSync 0, .startSync 0,
    .writeBack 0, .endSync 0 false, .call 2 12, .lockActive 2, .lockPool 2, .store 2 0, .toPool 0 0, .lockSync 1 0, .leaveSync 0 2]

theorem logged_durable_sharedSync : ∃ s, Run.run Log.step (start [4, 4, 4] 3) sharedSync = some s ∧
    (∀ s' a, Run.Takes Log.step (start [4, 4, 4] 3) sharedSync s' a → s'.storeOk a) ∧ s.logged.length = 2 ∧ s.Durable := by
  have hrun := (Option.some_get (show (Run.run Log.step (start [4, 4, 4] 3) sharedSync).isSome by decide +kernel)).symm
  have hok := fun s' a => Run.ok_of_check (t := s') (a := a)
    (show Run.check Log.step Log.storeOk (start [4, 4, 4] 3) sharedSync = true by decide +kernel)
  exact ⟨_, hrun, hok, by decide +kernel, logged_durable [4, 4, 4] 3 hrun hok⟩

/-- Thread 1 stores its id in page 0, which thread 0 syncs; before it gets `LOCK_sync`, page 0 is back in the pool and the
sync is over, so it syncs the page again. Meanwhile thread 4 gets page 0 from the pool and stores an id that the sync does
not write; the state `POOL` that the sync leaves makes it return with success. -/
def resyncedPage : List Log.Action :=
  [.call 0 10, .lockActive 0, .store 0 0, .lockSync 0 0, .call 1 11, .lockActive 1, .store 1 1, .takeSync 0, .startSync 0,
    .writeBack 0, .endSync 0 false, .call 2 12, .lockActive 2, .lockPool 2, .store 2 0, .lockSync 2 0, .toPool 0 0,
    .leaveSync 0 2, .lockSync 2 0, .takeSync 2, .startSync 2, .writeBack 1, .endSync 2 false, .call 3 13, .lockActive 3,
    .lockPool 3, .store 3 0, .lockSync 3 0, .toPool 2 0, .leaveSync 2 3, .lockSync 1 0, .takeSync 1, .startSync 1,
    .writeBack 0, .call 4 14, .lockActive 4, .lockPool 4, .store 4 2, .lockSync 4 0, .endSync 1 false, .toPool 1 0,
    .lockSync 4 0]

theorem not_durable_resyncedPage : ∃ s, Run.run Log.step (start [4, 4, 4] 5) resyncedPage = some s ∧
    ⟨14, 0, 2, 8⟩ ∈ s.logged ∧ s.synced 0 = 7 ∧ s.recover = [10, 11, 12] ∧ ¬ s.Durable := by
  have hrun := (Option.some_get (show (Run.run Log.step (start [4, 4, 4] 5) resyncedPage).isSome by decide +kernel)).symm
  refine ⟨_, hrun, by decide +kernel, by decide +kernel, by decide +kernel, fun hdurable => ?_⟩
  exact absurd (hdurable ⟨14, 0, 2, 8⟩ (by decide +kernel)).1 (by decide +kernel)

end Mysql51.TcLog
