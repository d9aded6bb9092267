import Mysql51.ThrLock.Lock
import Mathlib.Data.Fintype.Card

/-!
# The queues of a lock

A lock is linked when its pointers are those of four disjoint lists. The operations on the pointers are then operations on
the lists, which is what the loops of the source are followed through here.
-/

namespace Mysql51.ThrLock

open TailQueue Function List

variable {n : Nat}

namespace Lock

def Linked (lock : Lock n) : Prop := lock.links.Rep lock.ids fun _ => False

theorem ids_eq {lock : Lock n} {f : Queue → List (Fin n)} (h : lock.links.Rep f fun _ => False) : lock.ids = f := by
  funext q
  have hlen : (f q).length ≤ n := by
    have hcard := (h.nodup q).length_le_card
    rwa [Fintype.card_fin] at hcard
  exact Store.walk_path (h.path q) (h.stop q id) hlen

theorem linked_of_rep {lock : Lock n} {f : Queue → List (Fin n)} (h : lock.links.Rep f fun _ => False) :
    lock.Linked ∧ lock.ids = f := by
  have hids := ids_eq h
  exact ⟨by rw [Linked, hids]; exact h, hids⟩

namespace Linked

variable {lock : Lock n}

section

variable (h : lock.Linked)
include h

theorem first_eq (q : Queue) : lock.first q = (lock.ids q).head? := h.data_eq id

theorem first_eq_none {q : Queue} : lock.first q = none ↔ lock.ids q = [] := by
  rw [h.first_eq, List.head?_eq_none_iff]

theorem first_eq_some {q : Queue} {i : Fin n} : lock.first q = some i ↔ ∃ is, lock.ids q = i :: is := by
  rw [h.first_eq]
  cases lock.ids q with
  | nil => simp
  | cons j is => simp

theorem mapReqs (g : Requests n → Requests n) : (lock.mapReqs g).Linked := h

theorem append {q : Queue} {i : Fin n} (hi : lock.Idle i) (hnext : lock.links.next i = none) :
    (lock.append q i).Linked ∧ (lock.append q i).ids = update lock.ids q (lock.ids q ++ [i]) := by
  apply linked_of_rep
  apply (Store.Rep.append h hi).mono
  intro r hr
  by_cases hrq : r = q
  · rw [if_pos hrq] at hr
    exact hr hnext
  rwa [if_neg hrq] at hr

theorem unlink {q : Queue} {i : Fin n} (hi : i ∈ lock.ids q) :
    (lock.unlink q i).Linked ∧ (lock.unlink q i).ids = update lock.ids q ((lock.ids q).erase i) :=
  linked_of_rep (Store.Rep.unlink h hi id)

theorem unique {q r : Queue} {i : Fin n} (hq : i ∈ lock.ids q) (hr : i ∈ lock.ids r) : q = r :=
  h.disjoint q r i hq hr

end

end Linked

end Lock

/-! ### Freeing read locks -/

structure Requests.Freed (old new : Requests n) (is : List (Fin n)) : Prop where
  owner : new.owner = old.owner
  type : new.type = old.type
  cond : ∀ j, new.cond j = true ↔ j ∉ is ∧ old.cond j = true
  count : new.readNoWriteCount = old.readNoWriteCount + is.countP fun i => old.type i = .readNoInsert

theorem Requests.Freed.refl (reqs : Requests n) : reqs.Freed reqs [] := ⟨rfl, rfl, fun _ => by simp, rfl⟩

theorem Requests.Freed.cons {old new : Requests n} {i : Fin n} {is : List (Fin n)}
    (h : ((old.countRead i).setCond i false).Freed new is) : old.Freed new (i :: is) := by
  refine ⟨by simpa using h.owner, by simpa using h.type, fun j => ?_, ?_⟩
  · rw [h.cond, mem_cons]
    by_cases hji : j = i
    · simp [hji]
    · simp [hji]
  rw [h.count, countP_cons]
  simp
  omega

/-- The request goes back to the wait queue: a `TL_READ_NO_INSERT` beside a concurrent insert. -/
def Requests.stays (reqs : Requests n) (usingConcurrentInsert : Bool) (i : Fin n) : Bool :=
  reqs.type i = .readNoInsert && usingConcurrentInsert

theorem Requests.stays_iff {reqs : Requests n} {usingConcurrentInsert : Bool} {i : Fin n} :
    reqs.stays usingConcurrentInsert i = true ↔ reqs.type i = .readNoInsert ∧ usingConcurrentInsert = true := by
  simp [Requests.stays]

namespace Lock

section
variable {usingConcurrentInsert : Bool} {i : Fin n} {lock : Lock n} {f : Queue → List (Fin n)} {rs bs : List (Fin n)}

theorem freeRead_of_stays (h : lock.links.Rep f (· = .readWait)) (hread : f .read = rs ++ i :: bs)
    (hstays : lock.reqs.stays usingConcurrentInsert i = true) : (lock.freeRead usingConcurrentInsert i).links.Rep
        (update (update f .read (rs ++ bs)) .readWait (f .readWait ++ [i])) (· = .readWait) ∧
      (lock.freeRead usingConcurrentInsert i).links.next i = bs.head? ∧
      (lock.freeRead usingConcurrentInsert i).reqs = lock.reqs := by
  have hi : i ∈ f .read := hread ▸ by simp
  have hnodup := h.nodup .read
  rw [hread] at hnodup
  have hirs : i ∉ rs := fun hmem => (nodup_append.1 hnodup).2.2 i hmem i mem_cons_self rfl
  have hibs : i ∉ bs := (nodup_cons.1 (nodup_append.1 hnodup).2.1).1
  have herase : (f .read).erase i = rs ++ bs := by rw [hread, erase_append_right _ hirs, erase_cons_head]
  have hunlink := h.unlink hi (by simp)
  rw [herase] at hunlink
  have hout : ∀ q, i ∉ update f .read (rs ++ bs) q := by
    intro q
    by_cases hq : q = .read
    · subst hq
      simp [hirs, hibs]
    rw [update_of_ne hq]
    exact fun hmem => hq (h.disjoint q .read i hmem hi)
  have happend := hunlink.append (q := .readWait) hout
  have hnext : (lock.links.unlink .read i).next i = bs.head? := by rw [h.next_unlink hi, h.next_eq (by simp) hread]
  rw [freeRead, if_pos (Requests.stays_iff.1 hstays)]
  refine ⟨?_, (hunlink.next_append hout).trans hnext, rfl⟩
  have hwait : update f .read (rs ++ bs) .readWait = f .readWait := update_of_ne (by decide) _ _
  rw [hwait] at happend
  apply happend.mono
  intro q hq
  by_contra hne
  rw [if_neg hne] at hq
  exact hne hq

theorem freeRead_of_not_stays (h : lock.links.Rep f (· = .readWait)) (hread : f .read = rs ++ i :: bs)
    (hstays : lock.reqs.stays usingConcurrentInsert i = false) :
    (lock.freeRead usingConcurrentInsert i).links = lock.links ∧ lock.links.next i = bs.head? ∧
      (lock.freeRead usingConcurrentInsert i).reqs = (lock.reqs.countRead i).setCond i false := by
  have hnot : ¬ (lock.reqs.type i = .readNoInsert ∧ usingConcurrentInsert = true) := by
    rw [← Requests.stays_iff, hstays]
    decide
  rw [freeRead, if_neg hnot]
  exact ⟨rfl, h.next_eq (by simp) hread, rfl⟩

/-- The loop of `free_all_read_locks` from request `i` on, with `bs` behind it in the queue of granted locks. -/
theorem freeLoop_spec {fuel : Nat} (h : lock.links.Rep f (· = .readWait)) (hread : f .read = rs ++ i :: bs)
    (hfuel : bs.length < fuel) : ∃ f', (freeLoop usingConcurrentInsert fuel i lock).links.Rep f' (· = .readWait) ∧
      f' .read = rs ++ (i :: bs).filter (fun j => !lock.reqs.stays usingConcurrentInsert j) ∧
      f' .readWait = f .readWait ++ (i :: bs).filter (lock.reqs.stays usingConcurrentInsert) ∧
      f' .write = f .write ∧ f' .writeWait = f .writeWait ∧
      lock.reqs.Freed (freeLoop usingConcurrentInsert fuel i lock).reqs
        ((i :: bs).filter fun j => !lock.reqs.stays usingConcurrentInsert j) := by
  induction bs generalizing i lock f rs fuel with
  | nil =>
    obtain ⟨fuel, rfl⟩ := Nat.exists_eq_add_of_le' (show 1 ≤ fuel from hfuel)
    rw [freeLoop]
    cases hstays : lock.reqs.stays usingConcurrentInsert i with
    | true =>
      obtain ⟨hrep, hnext, hreqs⟩ := freeRead_of_stays h hread hstays
      rw [hnext, List.head?_nil]
      exact ⟨_, hrep, by simp [hstays], by simp [hstays], by simp, by simp, by simpa [hreqs, hstays] using .refl lock.reqs⟩
    | false =>
      obtain ⟨hlinks, hnext, hreqs⟩ := freeRead_of_not_stays h hread hstays
      rw [hlinks, hnext, List.head?_nil]
      refine ⟨f, hlinks ▸ h, by simp [hstays, hread], by simp [hstays], rfl, rfl, ?_⟩
      simpa [hreqs, hstays] using Requests.Freed.cons (.refl _)
  | cons j bs ih =>
    obtain ⟨fuel, rfl⟩ := Nat.exists_eq_add_of_le' ((Nat.le_add_left 1 _).trans hfuel)
    have hfuel' : bs.length < fuel := by
      rw [length_cons] at hfuel
      omega
    rw [freeLoop]
    cases hstays : lock.reqs.stays usingConcurrentInsert i with
    | true =>
      obtain ⟨hrep, hnext, hreqs⟩ := freeRead_of_stays h hread hstays
      rw [hnext, List.head?_cons]
      have hread₁ : update (update f .read (rs ++ j :: bs)) .readWait (f .readWait ++ [i]) .read = rs ++ j :: bs := by simp
      obtain ⟨f', hrep', hread', hwait', hwrite', hwwait', hfreed⟩ := ih hrep hread₁ hfuel'
      rw [hreqs] at hread' hwait' hfreed
      refine ⟨f', hrep', ?_, ?_, ?_, ?_, ?_⟩
      · rw [hread', filter_cons_of_neg (a := i) (by simp [hstays])]
      · rw [hwait', filter_cons_of_pos (a := i) hstays]
        simp
      · rw [hwrite']
        simp
      · rw [hwwait']
        simp
      rwa [filter_cons_of_neg (a := i) (by simp [hstays])]
    | false =>
      obtain ⟨hlinks, hnext, hreqs⟩ := freeRead_of_not_stays h hread hstays
      rw [hlinks, hnext, List.head?_cons]
      have hread₁ : f .read = (rs ++ [i]) ++ j :: bs := by rw [hread, append_assoc, singleton_append]
      obtain ⟨f', hrep', hread', hwait', hwrite', hwwait', hfreed⟩ := ih (hlinks ▸ h) hread₁ hfuel'
      have hsame : (lock.freeRead usingConcurrentInsert i).reqs.stays usingConcurrentInsert =
          lock.reqs.stays usingConcurrentInsert := by
        funext k
        simp [Requests.stays, hreqs]
      simp only [hsame] at hread' hwait' hfreed
      refine ⟨f', hrep', ?_, ?_, hwrite', hwwait', ?_⟩
      · rw [hread', filter_cons_of_pos (a := i) (by simp [hstays]), append_assoc, singleton_append]
      · rw [hwait', filter_cons_of_neg (a := i) (by simp [hstays])]
      rw [filter_cons_of_pos (a := i) (by simp [hstays])]
      exact Requests.Freed.cons (hreqs ▸ hfreed)

end

/-- `free_all_read_locks`: the requests of the wait queue that do not stay there are granted, behind the read locks granted
before. -/
theorem Linked.freeAllReadLocks {lock : Lock n} (h : lock.Linked) (usingConcurrentInsert : Bool) :
    (lock.freeAllReadLocks usingConcurrentInsert).Linked ∧ (lock.freeAllReadLocks usingConcurrentInsert).ids .read =
      lock.ids .read ++ (lock.ids .readWait).filter (fun j => !lock.reqs.stays usingConcurrentInsert j) ∧
    (lock.freeAllReadLocks usingConcurrentInsert).ids .readWait =
      (lock.ids .readWait).filter (lock.reqs.stays usingConcurrentInsert) ∧
    (lock.freeAllReadLocks usingConcurrentInsert).ids .write = lock.ids .write ∧
    (lock.freeAllReadLocks usingConcurrentInsert).ids .writeWait = lock.ids .writeWait ∧
    lock.reqs.Freed (lock.freeAllReadLocks usingConcurrentInsert).reqs
      ((lock.ids .readWait).filter fun j => !lock.reqs.stays usingConcurrentInsert j) := by
  unfold Lock.freeAllReadLocks
  cases hfirst : lock.first .readWait with
  | none =>
    have hempty := h.first_eq_none.1 hfirst
    refine ⟨h, by simp [hempty], by simp [hempty], rfl, rfl, ?_⟩
    simpa [hempty] using Requests.Freed.refl lock.reqs
  | some i =>
    obtain ⟨is, hwait⟩ := h.first_eq_some.1 hfirst
    have hsplice : (lock.links.splice .read .readWait i).Rep _ (· = .readWait) :=
      (Store.Rep.splice h (by decide) id hwait).mono fun q hq => hq.resolve_right fun hfalse => hfalse.1
    have hlen : is.length < n := by
      have hcard := (h.nodup .readWait).length_le_card
      rw [Fintype.card_fin, hwait, length_cons] at hcard
      omega
    have hread₀ : update (update lock.ids .read (lock.ids .read ++ lock.ids .readWait)) .readWait []
        .read = lock.ids .read ++ i :: is := by simp [hwait]
    obtain ⟨f, hrep, hread, hwait', hwrite, hwwait, hfreed⟩ :=
      @freeLoop_spec n usingConcurrentInsert i ⟨lock.links.splice .read .readWait i, lock.reqs⟩ _ _ is n hsplice hread₀ hlen
    rw [← hwait] at hread hwait' hfreed
    dsimp only
    generalize freeLoop usingConcurrentInsert n i ⟨lock.links.splice .read .readWait i, lock.reqs⟩ = lock₁ at *
    have hqueues : ∀ lock' : Lock n, lock'.links = lock₁.links.terminate .readWait → lock'.Linked ∧ lock'.ids = f := by
      intro lock' hlinks
      apply linked_of_rep
      rw [hlinks]
      exact (hrep.terminate .readWait).mono fun q hq => hq.2 hq.1
    split_ifs with hdone
    · obtain ⟨hlinked, hids⟩ := hqueues (Lock.mapReqs ⟨lock₁.links.terminate .readWait, lock₁.reqs⟩ _) rfl
      rw [hids]
      exact ⟨hlinked, hread, by simpa using hwait', by simpa using hwrite, by simpa using hwwait, hfreed.owner, hfreed.type,
        hfreed.cond, hfreed.count⟩
    obtain ⟨hlinked, hids⟩ := hqueues ⟨lock₁.links.terminate .readWait, lock₁.reqs⟩ rfl
    rw [hids]
    exact ⟨hlinked, hread, by simpa using hwait', by simpa using hwrite, by simpa using hwwait, hfreed⟩

/-! ### Granting write locks -/

/-- The request `i` and those of `more` are granted as write locks; a concurrent insert may become a `TL_WRITE`. -/
structure Granted (check : Fin n → Bool) (old new : Requests n) (i : Fin n) (more : List (Fin n)) : Prop where
  owner : new.owner = old.owner
  type : new.type = update old.type i
    (if old.type i = .writeConcurrentInsert ∧ check i = true then .write else old.type i)
  cond : ∀ j, new.cond j = true ↔ j ∉ i :: more ∧ old.cond j = true
  count : new.readNoWriteCount = old.readNoWriteCount
  all : ∀ j ∈ more, old.type j = .writeAllowWrite ∧ old.type i = .writeAllowWrite

theorem Linked.grantWrite {lock : Lock n} (h : lock.Linked) (check : Fin n → Bool) {i : Fin n} {is : List (Fin n)}
    (hwait : lock.ids .writeWait = i :: is) : (lock.grantWrite check i).Linked ∧
    (lock.grantWrite check i).ids = update (update lock.ids .writeWait is) .write (lock.ids .write ++ [i]) ∧
    Granted check lock.reqs (lock.grantWrite check i).reqs i [] := by
  have hi : i ∈ lock.ids .writeWait := hwait ▸ mem_cons_self
  have hunlink := Store.Rep.unlink h hi id
  rw [hwait, erase_cons_head] at hunlink
  have hnodup := h.nodup .writeWait
  rw [hwait] at hnodup
  have hout : ∀ q, i ∉ update lock.ids .writeWait is q := by
    intro q
    by_cases hq : q = .writeWait
    · subst hq
      rw [update_self]
      exact (nodup_cons.1 hnodup).1
    rw [update_of_ne hq]
    exact fun hmem => hq (h.unique hmem hi)
  have happend := (hunlink.append (q := .write) hout).terminate .write
  rw [update_of_ne (by decide)] at happend
  obtain ⟨hlinked, hids⟩ := @linked_of_rep n (lock.grantWrite check i) _ (happend.mono fun q hq => by
    rw [if_neg hq.2] at hq
    exact hq.1)
  refine ⟨hlinked, hids, ?_, ?_, ?_, ?_, nofun⟩
  · unfold Lock.grantWrite
    split_ifs <;> rfl
  · unfold Lock.grantWrite
    split_ifs <;> simp
  · intro j
    unfold Lock.grantWrite
    by_cases hji : j = i
    · simp [hji]
    · split_ifs <;> simp [hji]
  unfold Lock.grantWrite
  split_ifs <;> rfl

/-- The loop that grants write requests takes the first one, and behind a `TL_WRITE_ALLOW_WRITE` those of that type. -/
theorem Linked.grantLoop (check : Fin n → Bool) {is : List (Fin n)} {fuel : Nat} {lock : Lock n} {i : Fin n} (h : lock.Linked)
    (hwait : lock.ids .writeWait = i :: is) (hfuel : is.length < fuel) :
    ∃ more rest, is = more ++ rest ∧ (grantLoop check fuel i lock).2.Linked ∧ (grantLoop check fuel i lock).2.ids =
        update (update lock.ids .writeWait rest) .write (lock.ids .write ++ i :: more) ∧
      Granted check lock.reqs (grantLoop check fuel i lock).2.reqs i more ∧
      (grantLoop check fuel i lock).2.reqs.type (grantLoop check fuel i lock).1 =
        (grantLoop check fuel i lock).2.reqs.type i := by
  induction is generalizing fuel lock i with
  | nil =>
    obtain ⟨fuel, rfl⟩ := Nat.exists_eq_add_of_le' (show 1 ≤ fuel from hfuel)
    obtain ⟨hlinked, hids, hgranted⟩ := h.grantWrite check hwait
    have hnone : (lock.grantWrite check i).first .writeWait = none := by
      rw [hlinked.first_eq_none, hids]
      simp
    rw [Lock.grantLoop, hnone]
    exact ⟨[], [], rfl, hlinked, hids, hgranted, rfl⟩
  | cons j is ih =>
    obtain ⟨fuel, rfl⟩ := Nat.exists_eq_add_of_le' ((Nat.le_add_left 1 _).trans hfuel)
    have hfuel' : is.length < fuel := by
      rw [length_cons] at hfuel
      omega
    obtain ⟨hlinked, hids, hgranted⟩ := h.grantWrite check hwait
    have hwait' : (lock.grantWrite check i).ids .writeWait = j :: is := by
      rw [hids]
      simp
    rw [Lock.grantLoop, hlinked.first_eq_some.2 ⟨is, hwait'⟩]
    dsimp only
    split_ifs with hboth
    · obtain ⟨more, rest, hsplit, hlinked', hids', hgranted', hlast⟩ := ih hlinked hwait' hfuel'
      have hnodup := h.nodup .writeWait
      rw [hwait] at hnodup
      have hne : ∀ k ∈ j :: is, k ≠ i := fun k hk heq => (nodup_cons.1 hnodup).1 (heq ▸ hk)
      have hsame : ∀ k ∈ j :: is, (lock.grantWrite check i).reqs.type k = lock.reqs.type k := by
        intro k hk
        rw [hgranted.type, update_of_ne (hne k hk)]
      have hi : lock.reqs.type i = .writeAllowWrite := by
        have hnew := hboth.1
        rw [hgranted.type, update_self] at hnew
        split_ifs at hnew
        exact hnew
      have htype : (Lock.grantLoop check fuel j (lock.grantWrite check i)).2.reqs.type = (lock.grantWrite check i).reqs.type := by
        rw [hgranted'.type, if_neg (by simp [hboth.2]), update_eq_self]
      refine ⟨j :: more, rest, by rw [hsplit, cons_append], hlinked', ?_, ⟨?_, ?_, ?_, ?_, ?_⟩, ?_⟩
      · rw [hids', hids]
        funext q
        cases q <;> simp
      · rw [hgranted'.owner, hgranted.owner]
      · rw [htype, hgranted.type]
      · intro k
        rw [hgranted'.cond, hgranted.cond]
        simp only [mem_cons, not_mem_nil, or_false, not_or]
        tauto
      · rw [hgranted'.count, hgranted.count]
      · intro k hk
        refine ⟨?_, hi⟩
        rcases mem_cons.1 hk with rfl | hk
        · rw [← hsame k mem_cons_self, hboth.2]
        · rw [← hsame k (mem_cons_of_mem j (hsplit ▸ mem_append_left rest hk)), (hgranted'.all k hk).1]
      rw [hlast, htype, hboth.1, hboth.2]
    exact ⟨[], j :: is, rfl, hlinked, hids, hgranted, rfl⟩

/-! ### Aborting waiting requests -/

structure Aborted (old new : Requests n) (is : List (Fin n)) : Prop where
  owner : new.owner = old.owner
  type : ∀ j, j ∉ is → new.type j = old.type j
  cond : ∀ j, j ∉ is → new.cond j = old.cond j
  count : new.readNoWriteCount = old.readNoWriteCount
  gone : ∀ j ∈ is, new.type j = .unlock ∧ new.cond j = false

theorem Aborted.refl (reqs : Requests n) : Aborted reqs reqs [] :=
  ⟨rfl, fun _ _ => rfl, fun _ _ => rfl, rfl, fun _ hj => absurd hj not_mem_nil⟩

theorem Aborted.trans {old mid new : Requests n} {is js : List (Fin n)} (h : Aborted old mid is) (h' : Aborted mid new js) :
    Aborted old new (is ++ js) := by
  refine ⟨h'.owner.trans h.owner, fun j hj => ?_, fun j hj => ?_, h'.count.trans h.count, fun j hj => ?_⟩
  · rw [mem_append, not_or] at hj
    rw [h'.type j hj.2, h.type j hj.1]
  · rw [mem_append, not_or] at hj
    rw [h'.cond j hj.2, h.cond j hj.1]
  by_cases hjs : j ∈ js
  · exact h'.gone j hjs
  rw [h'.type j hjs, h'.cond j hjs]
  exact h.gone j ((mem_append.1 hj).resolve_right hjs)

theorem aborted_one (reqs : Requests n) (i : Fin n) : Aborted reqs ((reqs.setType i .unlock).setCond i false) [i] := by
  refine ⟨rfl, fun j hj => ?_, fun j hj => ?_, rfl, fun j hj => ?_⟩
  · rw [mem_singleton] at hj
    simp [hj]
  · rw [mem_singleton] at hj
    simp [hj]
  rw [mem_singleton] at hj
  simp [hj]

theorem aborted_abortAll (is : List (Fin n)) (reqs : Requests n) : Aborted reqs (abortAll is reqs) is := by
  induction is generalizing reqs with
  | nil => exact .refl reqs
  | cons i is ih => exact (aborted_one reqs i).trans (ih _)

/-- The loop of `thr_abort_locks_for_thread` from some point of a wait queue on: the requests of the thread leave it. -/
theorem Linked.abortThreadLoop (env : Env) {q : Queue} (thread : Nat) {bs : List (Fin n)} {fuel : Nat} {lock : Lock n}
    {as : List (Fin n)} (h : lock.Linked) (hq : lock.ids q = as ++ bs) (hfuel : bs.length ≤ fuel) :
    (abortThreadLoop env q thread fuel bs.head? lock).Linked ∧ (abortThreadLoop env q thread fuel bs.head? lock).ids =
      update lock.ids q (as ++ bs.filter fun i => threadOf env lock.reqs i ≠ thread) ∧
    Aborted lock.reqs (abortThreadLoop env q thread fuel bs.head? lock).reqs
      (bs.filter fun i => threadOf env lock.reqs i = thread) := by
  induction bs generalizing fuel lock as with
  | nil =>
    have hloop : Lock.abortThreadLoop env q thread fuel none lock = lock := by cases fuel <;> rfl
    rw [List.head?_nil, hloop]
    refine ⟨h, ?_, .refl _⟩
    rw [filter_nil, ← hq, update_eq_self]
  | cons i bs ih =>
    obtain ⟨fuel, rfl⟩ := Nat.exists_eq_add_of_le' ((Nat.le_add_left 1 _).trans hfuel)
    have hfuel' : bs.length ≤ fuel := Nat.le_of_succ_le_succ hfuel
    have hnext : lock.links.next i = bs.head? := Store.Rep.next_eq h id hq
    rw [List.head?_cons, Lock.abortThreadLoop]
    by_cases hthread : threadOf env lock.reqs i = thread
    · have hi : i ∈ lock.ids q := hq ▸ by simp
      have hnodup := h.nodup q
      rw [hq] at hnodup
      have hias : i ∉ as := fun hmem => (nodup_append.1 hnodup).2.2 i hmem i mem_cons_self rfl
      obtain ⟨hlinked, hids⟩ := (h.mapReqs fun reqs => (reqs.setType i .unlock).setCond i false).unlink hi
      generalize hlock : (lock.mapReqs fun reqs => (reqs.setType i .unlock).setCond i false).unlink q i = lock₁ at hlinked hids
      have hreqs : lock₁.reqs = (lock.reqs.setType i .unlock).setCond i false := by rw [← hlock]; rfl
      have hids₁ : lock₁.ids = update lock.ids q (as ++ bs) := by
        rw [hids]
        refine congrArg (update lock.ids q) ?_
        rw [show (lock.mapReqs fun reqs => (reqs.setType i .unlock).setCond i false).ids q = as ++ i :: bs from hq,
          erase_append_right _ hias, erase_cons_head]
      have hnext₁ : lock₁.links.next i = bs.head? := by
        rw [← hlock]
        exact (Store.Rep.next_unlink h hi).trans hnext
      have hthreads : threadOf env lock₁.reqs = threadOf env lock.reqs := by
        funext j
        simp [threadOf, hreqs]
      obtain ⟨hlinked', hids', haborted⟩ := @ih fuel lock₁ as hlinked (by rw [hids₁, update_self]) hfuel'
      rw [if_pos hthread, hnext₁]
      rw [hthreads] at hids' haborted
      refine ⟨hlinked', ?_, ?_⟩
      · rw [hids', hids₁, update_idem, filter_cons_of_neg (by simp [hthread])]
      rw [filter_cons_of_pos (by simp [hthread])]
      rw [hreqs] at haborted
      exact (aborted_one lock.reqs i).trans haborted
    rw [if_neg hthread, hnext]
    have hq' : lock.ids q = (as ++ [i]) ++ bs := by rw [hq, append_assoc, singleton_append]
    obtain ⟨hlinked', hids', haborted⟩ := @ih fuel lock (as ++ [i]) h hq' hfuel'
    refine ⟨hlinked', ?_, ?_⟩
    · rw [hids', filter_cons_of_pos (by simp [hthread]), append_assoc, singleton_append]
    · rwa [filter_cons_of_neg (by simp [hthread])]

end Lock

end Mysql51.ThrLock
