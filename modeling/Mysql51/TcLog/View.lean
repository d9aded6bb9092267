import Mysql51.TcLog.Mmap

/-!
# What durability depends on

Whether an id is on disk depends on the slots and states of the pages, on the disk, on which page is synced and on how far each
thread has come with its id. The links of the pool, the counters and the other locks do not matter, nor does which sleeping
threads have been signalled.
-/

namespace Mysql51.TcLog

open Function Option

/-- How far a thread has come with its id: without an id in a page, all that counts is the id that it is going to store. -/
def Pc.core : Pc → Pc
  | .idle | .unlog _ | .fault => .idle
  | .enter xid | .sleepActive xid _ | .wantPool xid | .sleepPool xid _ | .wantPage xid _ => .enter xid
  | .sleepPage e _ => .sleepPage e false
  | pc => pc

def Pc.entry : Pc → Option Entry
  | .wantSync e | .sleepPage e _ | .wantActive e | .startSync e | .msync e _ _ _ | .toPool e _ | .leaveSync e _ => some e
  | _ => none

theorem Pc.core_wake (c : Log.Cond) (pc : Pc) : (pc.wake c).core = pc.core := by cases pc <;> rfl

@[ext] structure View where
  npages : Nat
  slots : Nat → List Nat
  state : Nat → PageState
  syncing : Option Nat
  lockSync : Option Nat
  core : Nat → Pc
  disk : Nat → List Nat
  synced : Nat → Nat
  logged : List Entry
  now : Nat

def Log.view (s : Log) : View where
  npages := s.npages
  slots := fun p => (s.pages p).slots
  state := fun p => (s.pages p).state
  syncing := s.syncing
  lockSync := s.lockSync
  core := fun t => (s.threads t).core
  disk := s.disk
  synced := s.synced
  logged := s.logged
  now := s.now

namespace View

def setCore (v : View) (t : Nat) (pc : Pc) : View := { v with core := update v.core t pc }

def setState (v : View) (p : Nat) (state : PageState) : View := { v with state := update v.state p state }

def setSlot (v : View) (p slot xid : Nat) : View :=
  { v with slots := update v.slots p ((v.slots p).set slot xid) }

def store (v : View) (t : Nat) (e : Entry) : View :=
  { (v.setSlot e.page e.slot e.xid).setState e.page .dirty with
    core := update v.core t (.wantSync e), now := v.now + 1 }

def finish (v : View) (t : Nat) (e : Entry) (err : Bool) : View :=
  { v.setCore t .idle with logged := if err then v.logged else e :: v.logged }

def writeBack (v : View) (p : Nat) : View :=
  { v with
    disk := update v.disk p (v.slots p)
    core := fun t =>
      match v.core t with
      | .msync e page start written => .msync e page start (written || decide (page = p))
      | pc => pc }

/-- The steps on the view, no id being stored in the page that is synced. -/
inductive Step : View → View → Prop where
  | call (v : View) (t : Nat) {xid : Nat} (hxid : xid ≠ 0) (hcore : v.core t = .idle) : Step v (v.setCore t (.enter xid))
  | fault (v : View) (t : Nat) (hcore : (v.core t).entry = none) : Step v (v.setCore t .idle)
  | store (v : View) (t : Nat) {xid p slot : Nat} (hcore : v.core t = .enter xid) (hfree : (v.slots p)[slot]? = some 0)
      (hsyncing : v.syncing ≠ some p) : Step v (v.store t ⟨xid, p, slot, v.now⟩)
  | sleep (v : View) (t : Nat) {e : Entry} (hcore : v.core t = .wantSync e) : Step v (v.setCore t (.sleepPage e false))
  | wantActive (v : View) (t : Nat) {e : Entry} (hcore : v.core t = .wantSync e ∨ v.core t = .sleepPage e false)
      (hlock : v.lockSync = none) (hsyncing : v.syncing = none) :
      Step v { v.setCore t (.wantActive e) with lockSync := some t }
  | synchronized (v : View) (t : Nat) {e : Entry} (hcore : v.core t = .wantSync e ∨ v.core t = .sleepPage e false)
      (hstate : v.state e.page ≠ .dirty) : Step v (v.finish t e (decide (v.state e.page = .error)))
  | takeSync (v : View) (t : Nat) {e : Entry} (hcore : v.core t = .wantActive e) :
      Step v { v.setCore t (.startSync e) with syncing := some e.page, lockSync := none }
  | startSync (v : View) (t : Nat) {e : Entry} (hcore : v.core t = .startSync e) {q : Nat} (hsyncing : v.syncing = some q) :
      Step v { v.setCore t (.msync e q v.now false) with now := v.now + 1 }
  | syncFailed (v : View) (t : Nat) {e : Entry} {q start : Nat} {written : Bool} (hcore : v.core t = .msync e q start written) :
      Step v (v.setCore t (.toPool e true))
  | syncDone (v : View) (t : Nat) {e : Entry} {q start : Nat} (hcore : v.core t = .msync e q start true) :
      Step v { v.setCore t (.toPool e false) with synced := update v.synced q start }
  | toPool (v : View) (t : Nat) {e : Entry} {err : Bool} (hcore : v.core t = .toPool e err) {q : Nat}
      (hsyncing : v.syncing = some q) :
      Step v ((v.setState q (if err then .error else .pool)).setCore t (.leaveSync e err))
  | leaveSync (v : View) (t : Nat) {e : Entry} {err : Bool} (hcore : v.core t = .leaveSync e err) (hlock : v.lockSync = none) :
      Step v { v.finish t e err with syncing := none }
  | dropSync (v : View) (t : Nat) {e : Entry} {err : Bool} (hcore : v.core t = .leaveSync e err) (hlock : v.lockSync = none) :
      Step v { v.setCore t .idle with syncing := none }
  | syncFault (v : View) (t : Nat) {e : Entry} (hcore : v.core t = .startSync e ∨ ∃ err, v.core t = .toPool e err)
      (hsyncing : v.syncing = none) : Step v (v.setCore t .idle)
  | unlog (v : View) {e : Entry} (he : e ∈ v.logged) :
      Step v { v.setSlot e.page e.slot 0 with logged := v.logged.erase e }
  | writeBack (v : View) (p : Nat) : Step v (v.writeBack p)

end View

/-! ### The steps of the log on the view -/

namespace Log

open View

def storeOk (s : Log) : Action → Bool
  | .store t _ =>
    match s.threads t with
    | .wantPage _ p => decide (s.syncing ≠ some p)
    | _ => true
  | _ => true

theorem syncing_ne_of_storeOk {s : Log} {t slot xid p : Nat} (hok : s.storeOk (.store t slot)) (hpc : s.threads t = .wantPage xid p) :
    s.syncing ≠ some p := by
  simpa only [storeOk, hpc, decide_eq_true_eq] using hok

/-- What an update leaves as it is at its place stays the same everywhere. -/
theorem comp_update_of_eq {α β : Type} (g : α → β) {f : Nat → α} {p : Nat} {a : α} (h : g a = g (f p)) :
    (fun q => g (update f p a q)) = fun q => g (f q) :=
  (comp_update g f p a).trans (by rw [h]; exact update_eq_self p (g ∘ f))

@[simp] theorem view_setPc (s : Log) (t : Nat) (pc : Pc) : (s.setPc t pc).view = s.view.setCore t pc.core := by
  ext1 <;> try rfl
  exact comp_update Pc.core s.threads t pc

theorem view_setPage (s : Log) (p : Nat) (f : Page → Page) (hslots : ∀ pg, (f pg).slots = pg.slots)
    (hstate : ∀ pg, (f pg).state = pg.state) : (s.setPage p f).view = s.view := by
  ext1 <;> try rfl
  · exact comp_update_of_eq Page.slots (hslots _)
  · exact comp_update_of_eq Page.state (hstate _)

theorem view_broadcast (s : Log) (c : Cond) : (s.broadcast c).view = s.view := by
  ext1 <;> try rfl
  funext t
  exact Pc.core_wake c (s.threads t)

theorem setCore_self (v : View) (t : Nat) {pc : Pc} (h : v.core t = pc) : v.setCore t pc = v := by
  rw [setCore, ← h, update_eq_self]

theorem view_signal {s s' : Log} {c : Cond} {w : Nat} (h : s.signal c w = some s') : s'.view = s.view := by
  unfold signal at h
  split at h
  · split at h
    · cases h
      rw [view_setPc, Pc.core_wake]
      exact setCore_self _ _ rfl
    cases h
  exact congrArg view (Option.some.inj h).symm

theorem view_takePage (s : Log) (prev : Option Nat) (p : Nat) : (s.takePage prev p).view = s.view := by
  unfold takePage
  split
  · rfl
  case h_2 next _ =>
    split
    · rfl
    case h_2 q => exact view_setPage s q ({ · with next := some next }) (fun _ => rfl) (fun _ => rfl)

variable {s s' : Log} {t xid : Nat} {e : Entry} {w : Nat}

/-- A thread that looks for an active page still has its id to store, or has met a null pointer. -/
theorem view_searchPool (h : s.searchPool t xid = some s') (hcore : s.view.core t = .enter xid) :
    s'.view = s.view ∨ s'.view = s.view.setCore t .idle := by
  unfold searchPool at h
  split at h
  · cases h
    exact .inr (view_setPc s t .fault)
  case h_2 first _ =>
    have htaken : ∀ prev p, ((s.takePage prev p).leavePool t xid p).view = s.view := by
      intro prev p
      show ((s.takePage prev p).setPc t (.wantPage xid p)).view = _
      rw [view_setPc, view_takePage]
      exact setCore_self _ _ hcore
    split at h
    · cases h
      exact .inl (htaken none first)
    obtain ⟨rest, -, hs'⟩ := map_eq_some_iff.1 h
    split at hs'
    case h_1 prev p _ =>
      subst hs'
      exact .inl (htaken (some prev) p)
    case h_2 =>
      subst hs'
      left
      show (s.setPc t (.sleepPool xid false)).view = _
      rw [view_setPc]
      exact setCore_self _ _ hcore

theorem view_afterActive (h : s.afterActive t xid = some s') (hcore : s.view.core t = .enter xid) :
    s'.view = s.view ∨ s'.view = s.view.setCore t .idle := by
  have hkeep : ∀ pc : Pc, pc.core = .enter xid → (s.setPc t pc).view = s.view := by
    intro pc hpc
    rw [view_setPc, hpc]
    exact setCore_self _ _ hcore
  unfold afterActive at h
  split at h
  case h_1 p _ =>
    left
    split at h
    · cases h
      exact hkeep (.sleepActive xid false) rfl
    cases h
    exact hkeep (.wantPage xid p) rfl
  case h_2 =>
    dsimp only at h
    split at h
    · cases h
      exact .inl (hkeep (.wantPool xid) rfl)
    have hsearch := view_searchPool h hcore
    exact hsearch

theorem view_store (s : Log) (t xid p slot : Nat) : (s.store t xid p slot).view = s.view.store t ⟨xid, p, slot, s.now⟩ := by
  ext1 <;> try rfl
  · exact comp_update Page.slots s.pages p _
  · exact comp_update Page.state s.pages p _
  exact comp_update Pc.core s.threads t _

theorem view_finish (s : Log) (t : Nat) (e : Entry) (err : Bool) : (s.finish t e err).view = s.view.finish t e err := by
  have hview := view_setPc s t .idle
  show { (s.setPc t .idle).view with logged := if err then s.logged else e :: s.logged } = _
  rw [hview]
  rfl

theorem view_wantActive {u : Log} (hview : u.view = s.view) (t : Nat) (e : Entry) :
    ({ u.setPc t (.wantActive e) with lockSync := some t } : Log).view
      = { s.view.setCore t (.wantActive e) with lockSync := some t } := by
  have hpc := view_setPc u t (.wantActive e)
  show { (u.setPc t (.wantActive e)).view with lockSync := some t } = _
  rw [hpc, hview]
  rfl

theorem view_synchronized (h : s.synchronized t e w = some s') :
    s'.view = s.view.finish t e (decide (s.view.state e.page = .error)) := by
  unfold Log.synchronized at h
  dsimp only at h
  split at h
  · rw [view_signal h, view_finish]
    rfl
  cases h
  rw [view_finish]
  rfl

theorem step_afterStore (h : s.afterStore t e w = some s') (hcore : s.view.core t = .wantSync e) (hlock : s.lockSync = none) :
    View.Step s.view s'.view := by
  have hview := view_setPage s e.page ({ · with lock := none }) (fun _ => rfl) (fun _ => rfl)
  unfold afterStore at h
  dsimp only at h
  split at h
  · split at h
    · cases h
      rw [view_setPc, view_setPage _ e.page (fun pg => { pg with waiters := pg.waiters + 1 }) (fun _ => rfl) (fun _ => rfl),
        hview]
      exact .sleep _ t hcore
    case isFalse hdirty =>
      rw [view_synchronized h, hview]
      exact .synchronized _ t (.inl hcore) hdirty
  case isFalse hsyncing =>
    cases h
    have hnone : s.view.syncing = none := not_isSome_iff_eq_none.1 hsyncing
    rw [view_wantActive hview]
    exact .wantActive _ t (.inl hcore) hlock hnone

theorem step_afterSleep (h : s.afterSleep t e w = some s') (hcore : s.view.core t = .sleepPage e false)
    (hlock : s.lockSync = none) : s'.view = s.view ∨ View.Step s.view s'.view := by
  have hview := view_setPage s e.page (fun pg => { pg with waiters := pg.waiters - 1 }) (fun _ => rfl) (fun _ => rfl)
  unfold afterSleep at h
  dsimp only at h
  split at h
  · split at h
    · cases h
      left
      rw [view_setPc]
      exact setCore_self _ _ hcore
    case isFalse hsyncing =>
      cases h
      have hnone : s.view.syncing = none := not_isSome_iff_eq_none.1 hsyncing
      right
      rw [view_wantActive hview]
      exact .wantActive _ t (.inr hcore) hlock hnone
  case isFalse hdirty =>
    right
    rw [view_synchronized h, hview]
    exact .synchronized _ t (.inr hcore) hdirty

theorem view_setState (s : Log) (q : Nat) (state : PageState) :
    (s.setPage q fun pg => { pg with next := none, state := state }).view = s.view.setState q state := by
  ext1 <;> try rfl
  · apply comp_update_of_eq Page.slots
    rfl
  exact comp_update Page.state s.pages q _

theorem step_toPool {err : Bool} (h : s.toPool t e err w = some s') (hcore : s.view.core t = .toPool e err) :
    View.Step s.view s'.view := by
  unfold Log.toPool at h
  split at h
  case h_1 hnone =>
    cases h
    rw [view_setPc]
    exact .syncFault _ t (.inr ⟨err, hcore⟩) hnone
  case h_2 q hsome =>
    rw [view_signal h, view_setPc]
    have hlast := view_setPage s s.poolLast ({ · with next := some q }) (fun _ => rfl) (fun _ => rfl)
    have hstate := view_setState (s.setPage s.poolLast ({ · with next := some q })) q (if err then .error else .pool)
    rw [hlast] at hstate
    have hview := (view_broadcast _ (.page q)).trans hstate
    exact (congrArg (fun v : View => View.Step s.view (v.setCore t (.leaveSync e err))) hview).mpr (.toPool s.view t hcore hsome)

theorem step_leaveSync {err : Bool} (h : s.leaveSync t e err w = some s') (hcore : s.view.core t = .leaveSync e err)
    (hlock : s.lockSync = none) : View.Step s.view s'.view := by
  have hview : ({ s with syncing := none } : Log).view = { s.view with syncing := none } := rfl
  unfold Log.leaveSync at h
  split at h
  · cases h
    rw [view_setPc, hview]
    exact .dropSync _ t hcore hlock
  rw [view_signal h, view_finish, hview]
  exact .leaveSync _ t hcore hlock

theorem view_unlog (s : Log) (t : Nat) (e : Entry) (hcore : s.view.core t = .idle) :
    (s.unlog t e).view = { s.view.setSlot e.page e.slot 0 with logged := s.logged.erase e } := by
  ext1 <;> try rfl
  · exact comp_update Page.slots s.pages e.page _
  · apply comp_update_of_eq Page.state
    rfl
  apply comp_update_of_eq Pc.core
  exact hcore.symm

theorem view_writeBack (s : Log) (p : Nat) : (s.writeBack p).view = s.view.writeBack p := by
  ext1 <;> try rfl
  funext t
  simp only [view, Log.writeBack, View.writeBack]
  cases s.threads t <;> rfl

theorem step_view {a : Action} (hstep : s.step a = some s') (hok : s.storeOk a) :
    s'.view = s.view ∨ View.Step s.view s'.view := by
  cases a with
  | call t xid =>
    obtain ⟨⟨-, hxid, hidle⟩, hs'⟩ := ite_none_right_eq_some.1 hstep
    cases hs'
    rw [view_setPc]
    exact .inr (.call _ t hxid (congrArg Pc.core hidle))
  | lockActive t =>
    obtain ⟨-, hs'⟩ := ite_none_right_eq_some.1 hstep
    have hview : ∀ xid, s.view.core t = .enter xid → s.afterActive t xid = some s' →
        s'.view = s.view ∨ View.Step s.view s'.view := by
      intro xid hcore hs'
      refine (view_afterActive hs' hcore).imp_right fun h => ?_
      rw [h]
      exact .fault _ t (by rw [hcore]; rfl)
    split at hs'
    case h_1 xid hpc => exact hview xid (congrArg Pc.core hpc) hs'
    case h_2 xid hpc => exact hview xid (congrArg Pc.core hpc) hs'
    case h_3 => cases hs'
  | lockPool t =>
    obtain ⟨-, hs'⟩ := ite_none_right_eq_some.1 hstep
    have hview : ∀ xid, s.view.core t = .enter xid → ({ s with lockPool := some t } : Log).searchPool t xid = some s' →
        s'.view = s.view ∨ View.Step s.view s'.view := by
      intro xid hcore hs'
      refine (view_searchPool hs' hcore).imp_right fun h => ?_
      rw [h]
      exact .fault _ t (by show (s.view.core t).entry = none; rw [hcore]; rfl)
    split at hs'
    case h_1 xid hpc => exact hview xid (congrArg Pc.core hpc) hs'
    case h_2 xid hpc => exact hview xid (congrArg Pc.core hpc) hs'
    case h_3 => cases hs'
  | store t slot =>
    simp only [step] at hstep
    split at hstep
    case h_1 xid p hpc =>
      obtain ⟨⟨-, hfree⟩, hs'⟩ := ite_none_right_eq_some.1 hstep
      cases hs'
      rw [view_store]
      exact .inr (.store _ t (congrArg Pc.core hpc) hfree (syncing_ne_of_storeOk hok hpc))
    case h_2 => cases hstep
  | lockSync t w =>
    obtain ⟨hlock, hs'⟩ := ite_none_right_eq_some.1 hstep
    split at hs'
    case h_1 e hpc => exact .inr (step_afterStore hs' (congrArg Pc.core hpc) hlock)
    case h_2 e hpc => exact step_afterSleep hs' (congrArg Pc.core hpc) hlock
    case h_3 => cases hs'
  | takeSync t =>
    simp only [step] at hstep
    split at hstep
    case h_1 e hpc =>
      obtain ⟨-, hs'⟩ := ite_none_right_eq_some.1 hstep
      cases hs'
      have hview : (s.takeSync t e).view = { s.view.setCore t (.startSync e) with syncing := some e.page, lockSync := none } := by
        have hpc := view_setPc (s.broadcast .active) t (.startSync e)
        rw [view_broadcast] at hpc
        exact congrArg (fun v : View => { v with syncing := some e.page, lockSync := none }) hpc
      rw [hview]
      exact .inr (.takeSync _ t (congrArg Pc.core hpc))
    case h_2 => cases hstep
  | startSync t =>
    simp only [step] at hstep
    split at hstep
    case h_1 e hpc =>
      cases hstep
      right
      unfold Log.startSync
      split
      case h_1 hnone =>
        rw [view_setPc]
        exact .syncFault _ t (.inl (congrArg Pc.core hpc)) hnone
      case h_2 q hsome =>
        have hview := congrArg (fun v : View => { v with now := s.now + 1 }) (view_setPc s t (.msync e q s.now false))
        exact (congrArg (View.Step s.view) hview).mpr (.startSync s.view t (congrArg Pc.core hpc) hsome)
    case h_2 => cases hstep
  | endSync t err =>
    simp only [step] at hstep
    split at hstep
    case h_1 e page start written hpc =>
      right
      split at hstep
      · cases hstep
        rw [view_setPc]
        exact .syncFailed _ t (congrArg Pc.core hpc)
      split at hstep
      case isTrue hwritten =>
        cases hstep
        subst hwritten
        have hview := congrArg (fun v : View => { v with synced := update s.synced page start })
          (view_setPc s t (.toPool e false))
        exact (congrArg (View.Step s.view) hview).mpr (.syncDone s.view t (congrArg Pc.core hpc))
      case isFalse => cases hstep
    case h_2 => cases hstep
  | toPool t w =>
    simp only [step] at hstep
    split at hstep
    case h_1 e err hpc =>
      obtain ⟨-, hs'⟩ := ite_none_right_eq_some.1 hstep
      exact .inr (step_toPool hs' (congrArg Pc.core hpc))
    case h_2 => cases hstep
  | leaveSync t w =>
    simp only [step] at hstep
    split at hstep
    case h_1 e err hpc =>
      obtain ⟨hlock, hs'⟩ := ite_none_right_eq_some.1 hstep
      exact .inr (step_leaveSync hs' (congrArg Pc.core hpc) hlock)
    case h_2 => cases hstep
  | unlog t e =>
    obtain ⟨⟨-, hidle, he⟩, hs'⟩ := ite_none_right_eq_some.1 hstep
    cases hs'
    rw [view_unlog s t e (congrArg Pc.core hidle)]
    exact .inr (.unlog s.view he)
  | afterUnlog t w =>
    simp only [step] at hstep
    split at hstep
    case h_1 p hpc =>
      obtain ⟨-, hs'⟩ := ite_none_right_eq_some.1 hstep
      have hview : ((s.setPage p fun pg => { pg with free := pg.free + 1 }).setPc t .idle).view = s.view := by
        rw [view_setPc, view_setPage s p (fun pg => { pg with free := pg.free + 1 }) (fun _ => rfl) (fun _ => rfl)]
        have hcore := congrArg Pc.core hpc
        exact setCore_self _ _ hcore
      left
      unfold afterUnlog at hs'
      dsimp only at hs'
      split at hs'
      · rw [view_signal hs', hview]
      · rw [← Option.some.inj hs', hview]
    case h_2 => cases hstep
  | wake t =>
    left
    simp only [step] at hstep
    split at hstep
    case h_4 => cases hstep
    all_goals
      rename_i hpc
      have hcore := congrArg Pc.core hpc
      rw [← Option.some.inj hstep, view_setPc]
      exact setCore_self _ _ hcore
  | writeBack p =>
    obtain ⟨-, hs'⟩ := ite_none_right_eq_some.1 hstep
    rw [← Option.some.inj hs', view_writeBack]
    exact .inr (.writeBack s.view p)

end Log

end Mysql51.TcLog
