import Mysql51.Cache.Replay

/-!
# Recovery from the log

With logging on, does the cache that `StartUp` rebuilds from the log have the dirty entries of the cache that wrote it?
Over a run of successful calls that makes the log drop no file it does, exactly as long as each call either logs what it
does to dirty entries or does nothing to them, and the replay has room for each dirty entry.
-/

namespace Mysql51.Cache

open Link Machine Function

def HasDirty (m : CHashMap) (key : TMBHashKey) (data : List UInt8) : Prop :=
  ∃ add i, AddRep m add ∧ i ∈ add ∧ (m.hashNode i).key = key ∧ (m.hashNode i).flag = .dirty ∧
    m.mergeNodeData i (m.hashNode i).chunkLen = some (0, (m.hashNode i).chunkLen, data)

/-- The record that a call writes when it succeeds, and the time it is written. -/
def Op.logRec : Op → Option (LogRec × Int)
  | .set key data .dirty now => some (.set key data 0, now)
  | .setExpire key data expiretime .dirty now => some (.set key data expiretime, now)
  | .markClean key now => some (.markClean key, now)
  | .del key now => some (.del key, now)
  | _ => none

variable {op : Op} {key : TMBHashKey} {data : List UInt8} {add' : List Nat} {l' : List Entry}

namespace CacheAccess

/-- A successful call that makes the log drop no file. The bulk `mark_clean` is left out. -/
def loggedStep (s : CacheAccess) (op : Op) : Option CacheAccess :=
  match op, s.exec op with
  | .markCleanMod .., _ => none
  | op, some (0, s') => if op.logRec.any (fun (r, now) => s.binlog.dropsFile r.buff now) then none else some s'
  | _, _ => none

theorem loggedStep_eq_some {s s' : CacheAccess} (h : s.loggedStep op = some s') :
    (∀ modbase mobres now, op ≠ .markCleanMod modbase mobres now) ∧ s.exec op = some (0, s') ∧
      ∀ r now, op.logRec = some (r, now) → s.binlog.dropsFile r.buff now = false := by
  unfold loggedStep at h
  split at h
  · cases h
  · next op' s₁ hbulk hexec =>
    split at h
    · cases h
    next hdrops =>
    cases h
    refine ⟨hbulk, hexec, ?_⟩
    intro r now hrec
    simpa [hrec] using hdrops
  cases h

def restarted (s₀ t : CacheAccess) : CacheAccess := { s₀ with binlog := { s₀.binlog with files := t.binlog.files } }

variable (clock : Nat → Int)

def Rebuilds (s₀ t r : CacheAccess) : Prop := ∃ fuel, (restarted s₀ t).startUp clock fuel = some (0, r)

def Recovers (s₀ t : CacheAccess) : Prop :=
  ∃ r, Rebuilds clock s₀ t r ∧ ∀ key data, HasDirty r.cache key data ↔ HasDirty t.cache key data

/-- A step with the records that the calls so far were to write. -/
def trackedStep (u : CacheAccess × List LogRec) (op : Op) : Option (CacheAccess × List LogRec) :=
  (u.1.loggedStep op).map fun t => (t, u.2 ++ op.logRec.toList.map Prod.fst)

end CacheAccess

/-- The entries that the records make of an empty cache, one after the other. -/
def Lru.rebuilt (z : PoolSizes) (rs : List LogRec) : List Entry := rs.foldl (Lru.redo z) []

namespace CacheAccess

/-- The condition on a `set` after the records `rs`. A dirty entry must have room among what they rebuild as well. A clean one
must not replace a dirty one, since the log is not told. -/
def SetRecoverable (z : PoolSizes) (t : CacheAccess) (rs : List LogRec) (key : TMBHashKey) (data : List UInt8) : ENodeFlag → Prop
  | .dirty => 1 ≤ t.binlog.maxlogNum ∧ Lru.Accepts z (Lru.rebuilt z rs) key data
  | .unchg => ∀ d, ¬HasDirty t.cache key d

/-- The condition on a call. `del_node` tells the log nothing. -/
def Recoverable (z : PoolSizes) (t : CacheAccess) (rs : List LogRec) : Op → Prop
  | .set key data flag _ => SetRecoverable z t rs key data flag
  | .setExpire key data _ flag _ => SetRecoverable z t rs key data flag
  | .delNode modbase mobres => ∀ key d, HasDirty t.cache key d → inResidue modbase mobres key = false
  | _ => True

end CacheAccess

/-! ### The calls and the log -/

def Op.dirtyAfter (d : TMBHashKey → Option (List UInt8)) : Op → TMBHashKey → Option (List UInt8)
  | .set key data flag _ => update d key (if flag = .dirty then some data else none)
  | .setExpire key data _ flag _ => update d key (if flag = .dirty then some data else none)
  | .markClean key _ => update d key none
  | .del key _ => update d key none
  | .delNode modbase mobres => fun key => if CacheAccess.inResidue modbase mobres key then none else d key
  | _ => d

def Op.logItems (op : Op) : List LogItem := op.logRec.toList.map fun (r, now) => ⟨r.buff, now⟩

theorem CacheAccess.writeLog_holds {s s' : CacheAccess} {f : Nat → Option (List LogItem)} (hf : s.binlog.Holds f)
    {wanted : Bool} {x : LogItem} (hne : x.buff ≠ []) (hkeep : wanted = true → s.binlog.dropsFile x.buff x.now = false)
    (hlog : s.writeLog wanted x.buff x.now = some s') : ∃ f', s'.binlog.Holds f' ∧ s'.binlog.maxlogNum = s.binlog.maxlogNum ∧
      CBinLog.items f' s.binlog.maxlogNum.toNat = CBinLog.items f s.binlog.maxlogNum.toNat ++
        (if wanted = true ∧ 1 ≤ s.binlog.maxlogNum then [x] else []) := by
  by_cases hw : wanted = true
  · have hsome : s.writeLog wanted x.buff x.now ≠ none := by simp [hlog]
    rw [Ne, writeLog_eq_none s wanted hne, not_and, not_lt] at hsome
    have hx : x.Fits := ⟨List.length_pos_iff.2 hne, hsome hw⟩
    obtain ⟨ret, log', f', hwrite, hholds, hnum, hitems⟩ := CBinLog.writeToBinLog_holds hf hx (hkeep hw)
    have hlen : x.buff.length < maxBinlogItemLen := by
      have := hx.2
      omega
    rw [writeLog, if_pos hw, if_pos hlen, hwrite, Option.map_some, Option.some.injEq] at hlog
    subst hlog
    refine ⟨f', hholds, hnum, hitems.trans ?_⟩
    by_cases hone : 1 ≤ s.binlog.maxlogNum
    · rw [if_pos hone, if_pos ⟨hw, hone⟩]
    rw [if_neg hone, if_neg (fun h => hone h.2), show s.binlog.maxlogNum.toNat = 0 by omega]
    rfl
  rw [writeLog, if_neg hw, Option.some.injEq] at hlog
  subst hlog
  refine ⟨f, hf, rfl, ?_⟩
  rw [if_neg (fun h => hw h.1), List.append_nil]

namespace Sim

open CHashMap Lru CacheAccess

variable {z : PoolSizes} {s s' : CacheAccess} {add : List Nat} {l : List Entry} {f : Nat → Option (List LogItem)}

theorem hasDirty_iff {m : CHashMap} (h : Sim z m add l) : HasDirty m key data ↔ dirty l key = some data := by
  constructor
  · rintro ⟨add', i, hadds, hi, rfl, hflag, hmerge⟩
    rw [Chain.unique hadds.chain h.addRep.1.chain] at hi
    obtain ⟨e, he, hflag', hlen, hmerge'⟩ := h.node hi
    rw [hmerge', hlen, merged_of_le le_rfl] at hmerge
    rw [dirty, view, he, Option.bind_some, if_pos (hflag'.symm.trans hflag)]
    simpa using hmerge
  intro hdirty
  rw [dirty, view] at hdirty
  obtain ⟨e, he, hdata⟩ := Option.bind_eq_some_iff.1 hdirty
  split at hdata
  · next hflag =>
    cases hdata
    obtain ⟨i, hi, hkey, -, -⟩ := h.findNode_some he
    obtain ⟨e', he', hflag', hlen, hmerge⟩ := h.node hi
    rw [hkey, he, Option.some.injEq] at he'
    subst he'
    refine ⟨add, i, h.addRep.1, hi, hkey, hflag'.trans hflag, ?_⟩
    rw [hmerge, hlen, merged_of_le le_rfl]
  cases hdata

def After (z : PoolSizes) (s s' : CacheAccess) (l : List Entry) (f : Nat → Option (List LogItem)) (op : Op) : Prop :=
  ∃ add' l' f', Sim z s'.cache add' l' ∧ s'.binlog.Holds f' ∧ s'.binlog.maxlogNum = s.binlog.maxlogNum ∧
    s'.cacheDumpMin = s.cacheDumpMin ∧ dirty l' = op.dirtyAfter (dirty l) ∧
    CBinLog.items f' s.binlog.maxlogNum.toNat = CBinLog.items f s.binlog.maxlogNum.toNat ++
      (if 1 ≤ s.binlog.maxlogNum then op.logItems else [])

theorem after_setCore (h : Sim z s.cache add l) (hf : s.binlog.Holds f) (hdump : 0 ≤ s.cacheDumpMin)
    (hd : data.length + z.chunkSize ≤ 2147483647) {expiretime : Option Int} {flag : ENodeFlag} {now : Int}
    (hset : s.setCore key data expiretime flag now = some (0, s'))
    (hdirty : op.dirtyAfter (dirty l) = update (dirty l) key (if flag = .dirty then some data else none))
    (hrec : op.logRec = if flag = .dirty then some (.set key data (expiretime.getD 0), now) else none)
    (hkeep : ∀ r now, op.logRec = some (r, now) → s.binlog.dropsFile r.buff now = false) : After z s s' l f op := by
  obtain ⟨-, -, -, -, hret, -⟩ := h.setCore hd hset
  have hacc := hret.1 rfl
  obtain ⟨cache, add', h', heq⟩ := h.setCore_ok (by omega) hacc expiretime flag now
  rw [heq] at hset
  obtain ⟨s₁, hlog, hpair⟩ := Option.map_eq_some_iff.1 hset
  cases hpair
  obtain ⟨hcache, hdump'⟩ := writeLog_frame hlog
  have hkeep' (hw : decide (0 ≤ s.cacheDumpMin ∧ flag = ENodeFlag.dirty) = true) :
      s.binlog.dropsFile (setRecord key data (expiretime.getD 0)) now = false := by
    rw [decide_eq_true_iff] at hw
    rw [if_pos hw.2] at hrec
    exact hkeep (.set key data (expiretime.getD 0)) now hrec
  generalize hx : setRecord key data (expiretime.getD 0) = buff at hlog hkeep'
  have hne : buff ≠ [] := hx ▸ setRecord_ne_nil key data (expiretime.getD 0)
  obtain ⟨f', hf', hnum, hitems⟩ := writeLog_holds (s := { s with cache := cache }) hf (x := ⟨buff, now⟩) hne hkeep' hlog
  refine ⟨add', _, f', by rw [hcache]; exact h', hf', hnum, hdump', ?_, hitems.trans ?_⟩
  · rw [hdirty]
    exact view_cons_without _ _
  rw [Op.logItems, hrec]
  cases flag with
  | dirty => simp [hdump, LogRec.buff, hx]
  | unchg => simp

theorem after_quiet {cache : CHashMap} (h' : Sim z cache add' l') (hf : s.binlog.Holds f)
    (hdirty : dirty l' = op.dirtyAfter (dirty l)) (hrec : op.logRec = none) :
    After z s { s with cache := cache } l f op := by
  refine ⟨add', l', f, h', hf, rfl, rfl, hdirty, ?_⟩
  rw [Op.logItems, hrec]
  simp

theorem after_record {cache cache' : CHashMap} (h' : Sim z cache' add' l')
    (hf : s.binlog.Holds f) (hdump : 0 ≤ s.cacheDumpMin) {r : LogRec} {now : Int} (hne : r.buff ≠ [])
    (hdirty : dirty l' = op.dirtyAfter (dirty l)) (hrec : op.logRec = some (r, now))
    (hkeep : ∀ r now, op.logRec = some (r, now) → s.binlog.dropsFile r.buff now = false)
    (hlog : { s with cache := cache }.writeLog (0 ≤ s.cacheDumpMin) r.buff now = some s') :
    After z s { s' with cache := cache' } l f op := by
  obtain ⟨-, hdump'⟩ := writeLog_frame hlog
  obtain ⟨f', hf', hnum, hitems⟩ := writeLog_holds (s := { s with cache := cache }) hf (x := ⟨r.buff, now⟩) hne
    (fun _ => hkeep r now hrec) hlog
  refine ⟨add', l', f', h', hf', hnum, hdump', hdirty, hitems.trans ?_⟩
  rw [Op.logItems, hrec]
  simp [hdump]

theorem after_exec (h : Sim z s.cache add l) (hf : s.binlog.Holds f) (hdump : 0 ≤ s.cacheDumpMin)
    (hshort : op.Short z) (hbulk : ∀ modbase mobres now, op ≠ .markCleanMod modbase mobres now) (hexec : s.exec op = some (0, s'))
    (hkeep : ∀ r now, op.logRec = some (r, now) → s.binlog.dropsFile r.buff now = false) : After z s s' l f op := by
  cases op with
  | set key data flag now =>
    refine h.after_setCore hf hdump hshort hexec rfl ?_ hkeep
    cases flag <;> rfl
  | setExpire key data expiretime flag now =>
    refine h.after_setCore hf hdump hshort hexec rfl ?_ hkeep
    cases flag <;> rfl
  | get key bufSize =>
    obtain ⟨⟨⟨ret, got⟩, s₁⟩, hget, heq⟩ := Option.map_eq_some_iff.1 hexec
    cases heq
    cases he : lookup l key with
    | none =>
      rw [h.get_none he] at hget
      cases hget
    | some e =>
      obtain ⟨cache, add', h', heq⟩ := h.get_some he bufSize
      rw [heq, Option.some.injEq, Prod.mk.injEq] at hget
      obtain ⟨-, rfl⟩ := hget
      exact after_quiet h' hf (view_touch _) rfl
  | getKey key =>
    obtain ⟨⟨⟨ret, got⟩, s₁⟩, hget, heq⟩ := Option.map_eq_some_iff.1 hexec
    cases heq
    cases he : lookup l key with
    | none =>
      rw [h.getKey_none he] at hget
      cases hget
    | some e =>
      obtain ⟨cache, add', got', h', heq⟩ := h.getKey_some he
      rw [heq] at hget
      cases hget
      exact after_quiet h' hf (view_touch _) rfl
  | markClean key now =>
    change s.markClean key now = some (0, s') at hexec
    cases he : lookup l key with
    | none =>
      rw [h.markClean_none he] at hexec
      cases hexec
    | some e =>
      obtain ⟨i, -, cache, -, h', heq⟩ := h.markClean_some he now
      rw [heq] at hexec
      obtain ⟨s₁, hlog, hpair⟩ := Option.map_eq_some_iff.1 hexec
      cases hpair
      have hdirty : dirty ({ e with flag := .unchg } :: without l key) = (Op.markClean key now).dirtyAfter (dirty l) := by
        obtain ⟨-, rfl⟩ := lookup_some he
        exact view_cons_without _ _
      have hafter := after_record h' hf hdump (recordHead_ne_nil _ _) (r := .markClean key) hdirty rfl hkeep hlog
      have hcache : s'.cache = cache := (writeLog_frame hlog).1
      rw [← hcache] at hafter
      exact hafter
  | markCleanMod modbase mobres now => exact absurd rfl (hbulk modbase mobres now)
  | del key now =>
    change s.del key now = some (0, s') at hexec
    cases he : lookup l key with
    | none =>
      rw [h.del_none he] at hexec
      cases hexec
    | some e =>
      obtain ⟨cache, add', h', heq⟩ := h.del_some he now
      rw [heq] at hexec
      obtain ⟨s₁, hlog, hpair⟩ := Option.map_eq_some_iff.1 hexec
      cases hpair
      exact after_record h' hf hdump (recordHead_ne_nil _ _) (r := .del key) (view_without _) rfl hkeep hlog
  | delNode modbase mobres =>
    change s.delNode modbase mobres = some (0, s') at hexec
    by_cases hmod : uint32 modbase = 0
    · unfold CacheAccess.delNode at hexec
      split at hexec
      · next hhead =>
        cases hexec
        obtain rfl := h.eq_nil hhead
        exact after_quiet h hf (by funext key; simp [Op.dirtyAfter, dirty, view, lookup]) rfl
      rw [if_pos hmod] at hexec
      cases hexec
    obtain ⟨cache, add', h', heq⟩ := h.delNode_ok hmod mobres
    rw [heq] at hexec
    cases hexec
    exact after_quiet h' hf (view_filter _ _) rfl

end Sim

/-! ### The rebuilt cache -/

theorem Lru.dirty_redo (z : PoolSizes) (l : List Entry) (r : LogRec) : dirty (redo z l r) = match r with
      | .set key data _ => if Accepts z l key data then update (dirty l) key (some data) else dirty l
      | .markClean key => update (dirty l) key none
      | .del key => update (dirty l) key none := by
  cases r with
  | set key data expiretime =>
    dsimp only [redo]
    split
    · exact view_cons_without _ _
    · exact view_touch _
  | markClean key =>
    rw [redo]
    cases he : lookup l key with
    | none =>
      rw [eq_comm, Option.elim_none, update_eq_self_iff]
      exact (view_of_none he).symm
    | some e =>
      obtain ⟨-, rfl⟩ := lookup_some he
      exact view_cons_without _ _
  | del key => exact view_without _

structure Logged (z : PoolSizes) (dumpMin logNum : Int) (t : CacheAccess) (l : List Entry) (rs : List LogRec) : Prop where
  sim : ∃ add, Sim z t.cache add l
  log : ∃ f, t.binlog.Holds f ∧ (CBinLog.items f logNum.toNat).map LogItem.buff = rs.map LogRec.buff
  fits : ∀ r ∈ rs, r.Fits z
  maxlogNum : t.binlog.maxlogNum = logNum
  dumpMin : t.cacheDumpMin = dumpMin

namespace Logged

open Lru CacheAccess

variable {z : PoolSizes} {memSize dumpMin logSize logNum : Int} {s t : CacheAccess} {l : List Entry} {rs : List LogRec}

theorem init (hopen : openInit memSize z = .ok s) (dumpMin logSize logNum : Int) :
    Logged z dumpMin logNum (s.coreInit dumpMin logSize logNum) [] [] := by
  refine ⟨⟨[], openInit_sim hopen dumpMin logSize logNum⟩, ⟨fun _ => none, ⟨fun _ => rfl, by simp⟩, ?_⟩, by simp, rfl, rfl⟩
  simp [CBinLog.items]

section

variable (h : Logged z dumpMin logNum t l rs)
include h

/-- `StartUp` over the log returns, and what it rebuilds stands for the replayed list. -/
theorem rebuilds (hopen : openInit memSize z = .ok s) (logSize : Int) (clock : Nat → Int) :
    (∃ r, Rebuilds clock (s.coreInit dumpMin logSize logNum) t r) ∧ ∀ r, Rebuilds clock (s.coreInit dumpMin logSize logNum) t r →
      ∃ add' l', Sim z r.cache add' l' ∧ timeless l' = rebuilt z rs := by
  obtain ⟨f, hf, hitems⟩ := h.log
  have hinit : s.cacheinit = true := by
    unfold openInit at hopen
    split at hopen
    · cases hopen
    cases hopen
    rfl
  have hstart (fuel : Nat) := Sim.startUpLoop (f := f) clock fuel (s := { restarted (s.coreInit dumpMin logSize logNum) t with
      binlog := (restarted (s.coreInit dumpMin logSize logNum) t).binlog.setReadRecordStartTime })
    (openInit_sim hopen dumpMin logSize logNum) (CBinLog.Holds.ahead_start ⟨hf.files, hf.fits⟩) hitems h.fits
  have hloop (fuel : Nat) : (restarted (s.coreInit dumpMin logSize logNum) t).startUp clock fuel =
      (startUpLoop clock fuel { restarted (s.coreInit dumpMin logSize logNum) t with
        binlog := (restarted (s.coreInit dumpMin logSize logNum) t).binlog.setReadRecordStartTime }).map fun s => (0, s) := by
    rw [startUp, if_pos (show (restarted (s.coreInit dumpMin logSize logNum) t).cacheinit = true from hinit), Option.map_eq_bind]
    rfl
  constructor
  · obtain ⟨r, hr⟩ := Option.isSome_iff_exists.1 ((hstart (rs.length + 1)).1 (Nat.lt_succ_self _))
    exact ⟨r, rs.length + 1, by rw [hloop, hr]; rfl⟩
  rintro r ⟨fuel, hr⟩
  rw [hloop] at hr
  obtain ⟨r', hr', hpair⟩ := Option.map_eq_some_iff.1 hr
  cases hpair
  exact (hstart fuel).2 r hr'

theorem hasDirty_iff {d : List UInt8} : HasDirty t.cache key d ↔ dirty l key = some d := by
  obtain ⟨add, hsim⟩ := h.sim
  exact hsim.hasDirty_iff

theorem recovers_iff_dirty (hopen : openInit memSize z = .ok s) (clock : Nat → Int) :
    Recovers clock (s.coreInit dumpMin logSize logNum) t ↔ dirty l = dirty (rebuilt z rs) := by
  obtain ⟨⟨r, hr⟩, hrebuilt⟩ := h.rebuilds hopen logSize clock
  constructor
  · rintro ⟨r, hr, hsame⟩
    obtain ⟨add', l', hsim', htimeless⟩ := hrebuilt r hr
    rw [← htimeless, dirty_timeless]
    funext key
    apply Option.ext
    intro d
    rw [← h.hasDirty_iff, ← hsame key d, hsim'.hasDirty_iff]
  intro hdirty
  obtain ⟨add', l', hsim', htimeless⟩ := hrebuilt r hr
  refine ⟨r, hr, ?_⟩
  intro key d
  rw [hsim'.hasDirty_iff, h.hasDirty_iff, hdirty, ← htimeless, dirty_timeless]

theorem step (hdump : 0 ≤ dumpMin) (hshort : op.Short z) {t' : CacheAccess} (hstep : t.loggedStep op = some t') :
    ∃ l', Logged z dumpMin logNum t' l' (rs ++ if 1 ≤ logNum then op.logRec.toList.map Prod.fst else []) ∧
      dirty l' = op.dirtyAfter (dirty l) := by
  obtain ⟨hbulk, hexec, hkeep⟩ := loggedStep_eq_some hstep
  obtain ⟨add, hsim⟩ := h.sim
  obtain ⟨f, hf, hitems⟩ := h.log
  obtain ⟨add', l', f', hsim', hf', hnum, hdump', hdirty, hitems'⟩ :=
    hsim.after_exec hf (h.dumpMin ▸ hdump) hshort hbulk hexec hkeep
  rw [h.maxlogNum] at hitems'
  refine ⟨l', ⟨⟨add', hsim'⟩, ⟨f', hf', ?_⟩, ?_, hnum.trans h.maxlogNum, hdump'.trans h.dumpMin⟩, hdirty⟩
  · rw [hitems', List.map_append, hitems, List.map_append]
    congr 1
    split
    · rw [Op.logItems, List.map_map, List.map_map]
      rfl
    rfl
  intro r hr
  rcases List.mem_append.1 hr with hr | hr
  · exact h.fits r hr
  split at hr
  · obtain ⟨⟨r', now⟩, hmem, rfl⟩ := List.mem_map.1 hr
    rw [Option.mem_toList] at hmem
    cases op with
    | set key data flag now =>
      cases flag with
      | dirty =>
        cases hmem
        have hd : data.length + z.chunkSize ≤ 2147483647 := hshort
        exact Nat.le_succ_of_le hd
      | unchg => cases hmem
    | setExpire key data expiretime flag now =>
      cases flag with
      | dirty =>
        cases hmem
        have hd : data.length + z.chunkSize ≤ 2147483647 := hshort
        exact Nat.le_succ_of_le hd
      | unchg => cases hmem
    | markClean key now =>
      cases hmem
      trivial
    | del key now =>
      cases hmem
      trivial
    | _ => cases hmem
  cases hr

theorem rs_eq_nil (hnum : ¬1 ≤ logNum) : rs = [] := by
  obtain ⟨f, -, hitems⟩ := h.log
  rw [show logNum.toNat = 0 by omega, CBinLog.items_zero, List.map_nil, eq_comm, List.map_eq_nil_iff] at hitems
  exact hitems

end

theorem rebuilt_append (z : PoolSizes) (rs : List LogRec) (r : LogRec) : rebuilt z (rs ++ [r]) = redo z (rebuilt z rs) r := by
  rw [rebuilt, List.foldl_append, rebuilt]
  rfl

section

variable (h : Logged z dumpMin logNum t l rs)
include h

/-- A dirty `set` keeps the dirty entries the same exactly when the replay accepts it. -/
theorem setRecoverable_iff (hsame : dirty l = dirty (rebuilt z rs)) {all : List LogRec} (hall : 1 ≤ logNum → rs = all)
    (key : TMBHashKey) (expiretime now : Int) (flag : ENodeFlag) :
    update (dirty l) key (if flag = .dirty then some data else none) = dirty (rebuilt z (rs ++ if 1 ≤ logNum then
          (if flag = .dirty then some (LogRec.set key data expiretime, now) else none).toList.map Prod.fst else [])) ↔
      SetRecoverable z t all key data flag := by
  cases flag with
  | dirty =>
    rw [SetRecoverable, h.maxlogNum, if_pos rfl, if_pos rfl]
    by_cases hnum : 1 ≤ logNum
    · rw [← hall hnum, if_pos hnum, Option.toList_some, List.map_singleton, rebuilt_append, dirty_redo, hsame]
      dsimp only
      by_cases hacc : Accepts z (rebuilt z rs) key data
      · simp [hnum, hacc]
      rw [if_neg hacc, update_eq_self_iff]
      refine iff_of_false ?_ fun hok => hacc hok.2
      -- an entry with these data would be accepted again
      intro hkey
      rw [dirty, view] at hkey
      obtain ⟨e, he, hdata⟩ := Option.bind_eq_some_iff.1 hkey.symm
      split at hdata
      · cases hdata
        exact hacc (by rw [Accepts, he]; exact Nat.le_add_right _ _)
      cases hdata
    obtain rfl := h.rs_eq_nil hnum
    rw [if_neg hnum, List.append_nil, ← hsame, update_eq_self_iff, hsame]
    exact iff_of_false (by simp [rebuilt, dirty, view, lookup]) fun hok => hnum hok.1
  | unchg =>
    have hclean : ENodeFlag.unchg ≠ .dirty := by decide
    simp only [SetRecoverable, if_neg hclean, Option.toList_none, List.map_nil, ite_self, List.append_nil, h.hasDirty_iff]
    rw [← hsame, update_eq_self_iff]
    exact ⟨fun hnone d hd => by simp [← hnone] at hd, fun hall => (Option.eq_none_iff_forall_ne_some.2 hall).symm⟩

theorem dirty_rebuilt_forget (hsame : dirty l = dirty (rebuilt z rs)) {r : LogRec}
    (hr : ∀ l, dirty (redo z l r) = update (dirty l) key none) :
    update (dirty l) key none = dirty (rebuilt z (rs ++ if 1 ≤ logNum then [r] else [])) := by
  by_cases hnum : 1 ≤ logNum
  · rw [if_pos hnum, rebuilt_append, hr, hsame]
  obtain rfl := h.rs_eq_nil hnum
  rw [if_neg hnum, List.append_nil, ← hsame, update_eq_self_iff, hsame]
  simp [rebuilt, dirty, view, lookup]

/-- A step keeps the dirty entries of the cache and of the rebuilt one the same exactly when it is recoverable. -/
theorem recoverable_iff (hsame : dirty l = dirty (rebuilt z rs)) {all : List LogRec} (hall : 1 ≤ logNum → rs = all) :
    op.dirtyAfter (dirty l) = dirty (rebuilt z (rs ++ if 1 ≤ logNum then op.logRec.toList.map Prod.fst else [])) ↔
      Recoverable z t all op := by
  cases op with
  | set key data flag now =>
    have hset := @setRecoverable_iff data _ _ _ _ _ _ h hsame all hall key 0 now flag
    cases flag <;> exact hset
  | setExpire key data expiretime flag now =>
    have hset := @setRecoverable_iff data _ _ _ _ _ _ h hsame all hall key expiretime now flag
    cases flag <;> exact hset
  | markClean key now =>
    exact iff_of_true (h.dirty_rebuilt_forget hsame fun l => dirty_redo z l (.markClean key)) trivial
  | del key now => exact iff_of_true (h.dirty_rebuilt_forget hsame fun l => dirty_redo z l (.del key)) trivial
  | delNode modbase mobres =>
    simp only [Op.logRec, Option.toList_none, List.map_nil, ite_self, List.append_nil, ← hsame, Op.dirtyAfter, Recoverable,
      h.hasDirty_iff]
    rw [funext_iff]
    refine forall_congr' fun key => ?_
    cases hin : inResidue modbase mobres key with
    | false => simp
    | true =>
      cases dirty l key <;> simp
  | get key bufSize => simp [Op.logRec, Op.dirtyAfter, Recoverable, hsame]
  | getKey key => simp [Op.logRec, Op.dirtyAfter, Recoverable, hsame]
  | markCleanMod modbase mobres now => simp [Op.logRec, Op.dirtyAfter, Recoverable, hsame]

end

end Logged

namespace CacheAccess

/-- Over every run of successful calls that makes the log drop no file, the cache can be recovered from its log in every
state exactly when every call of the run is recoverable. -/
theorem recovers_iff (z : PoolSizes) (memSize : Int) (s : CacheAccess) (hopen : openInit memSize z = .ok s)
    (dumpMin logSize logNum : Int) (hdump : 0 ≤ dumpMin) (clock : Nat → Int) (ops : List Op) (hshort : ∀ op ∈ ops, op.Short z) :
    (∀ u, Run.Passes trackedStep (s.coreInit dumpMin logSize logNum, []) ops u →
      Recovers clock (s.coreInit dumpMin logSize logNum) u.1) ↔
    ∀ u op, Run.Takes trackedStep (s.coreInit dumpMin logSize logNum, []) ops u op → (trackedStep u op).isSome →
      Recoverable z u.1 u.2 op := by
  refine Run.invariant_iff (P := fun u => ∃ l rs, Logged z dumpMin logNum u.1 l rs ∧ Lru.dirty l = Lru.dirty (Lru.rebuilt z rs) ∧
      (1 ≤ logNum → rs = u.2)) ?_ ?_ ?_ ⟨[], [], Logged.init hopen dumpMin logSize logNum, rfl, fun _ => rfl⟩
  · rintro u ⟨l, rs, h, hsame, -⟩
    exact (h.recovers_iff_dirty hopen clock).2 hsame
  · rintro u op u' hop ⟨l, rs, h, hsame, hall⟩ hstep hok
    obtain ⟨t', hlogged, rfl⟩ := Option.map_eq_some_iff.1 hstep
    obtain ⟨l', h', hdirty⟩ := h.step hdump (hshort op hop) hlogged
    refine ⟨l', _, h', hdirty.trans ((h.recoverable_iff hsame hall).2 hok), fun hnum => ?_⟩
    rw [if_pos hnum, hall hnum]
  · rintro u op u' hop ⟨l, rs, h, hsame, hall⟩ hstep hrecovers
    obtain ⟨t', hlogged, rfl⟩ := Option.map_eq_some_iff.1 hstep
    obtain ⟨l', h', hdirty⟩ := h.step hdump (hshort op hop) hlogged
    exact (h.recoverable_iff hsame hall).1 (hdirty.symm.trans ((h'.recovers_iff_dirty hopen clock).1 hrecovers))

/-- A dirty entry is written, marked clean and deleted. -/
theorem recovers_small : ∃ s, openInit 1000 PoolSizes.small = .ok s ∧
    ∀ u, Run.Passes trackedStep (s.coreInit 0 20000000 8, []) [.set TMBHashKey.zero [1, 2, 3] .dirty 7,
        .markClean TMBHashKey.zero 8, .del TMBHashKey.zero 10] u → Recovers (fun _ => 0) (s.coreInit 0 20000000 8) u.1 := by
  refine ⟨_, rfl, (recovers_iff PoolSizes.small 1000 _ rfl 0 20000000 8 (by decide) (fun _ => 0) _
    (by simp [Op.Short, PoolSizes.small])).2 fun u op htakes _ => ?_⟩
  rcases Run.takes_cons.1 htakes with ⟨rfl, rfl⟩ | ⟨u', -, htakes⟩
  · exact ⟨by decide, by decide +kernel⟩
  have hop : op = .markClean TMBHashKey.zero 8 ∨ op = .del TMBHashKey.zero 10 := by
    obtain ⟨pre, hpre, -⟩ := htakes
    simpa using hpre.subset (List.mem_append_right pre (List.mem_singleton_self op))
  rcases hop with rfl | rfl <;> trivial

/-- A dirty entry that `del_node` deletes comes back. -/
theorem not_recovers_of_delNode : ∃ s t, openInit 1000 PoolSizes.small = .ok s ∧
    Run.Passes loggedStep (s.coreInit 0 20000000 8) [.set TMBHashKey.zero [1] .dirty 7, .delNode 1 0] t ∧
    ¬Recovers (fun _ => 0) (s.coreInit 0 20000000 8) t := by
  obtain ⟨s, hopen⟩ : ∃ s, openInit 1000 PoolSizes.small = .ok s := ⟨_, rfl⟩
  have hreturns : (Run.run loggedStep (s.coreInit 0 20000000 8)
      [.set TMBHashKey.zero [1] .dirty 7, .delNode 1 0]).isSome := by
    cases hopen
    decide +kernel
  obtain ⟨t, hrun⟩ := Option.isSome_iff_exists.1 hreturns
  refine ⟨s, t, hopen, ⟨_, List.prefix_rfl, hrun⟩, ?_⟩
  obtain ⟨t₁, hset, hrun⟩ := Option.bind_eq_some_iff.1 hrun
  obtain ⟨t₂, hdel, heq⟩ := Option.bind_eq_some_iff.1 hrun
  cases heq
  obtain ⟨l₁, h₁, hdirty₁⟩ := (Logged.init hopen 0 20000000 8).step (by decide)
    (show Op.Short PoolSizes.small (.set TMBHashKey.zero [1] .dirty 7) by simp [Op.Short, PoolSizes.small]) hset
  obtain ⟨l₂, h₂, hdirty₂⟩ := h₁.step (by decide) (show Op.Short PoolSizes.small (.delNode 1 0) from trivial) hdel
  rw [h₂.recovers_iff_dirty hopen, hdirty₂, hdirty₁]
  intro hsame
  have hzero := congrFun hsame TMBHashKey.zero
  revert hzero
  decide +kernel

end CacheAccess

end Mysql51.Cache
