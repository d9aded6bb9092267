import Mathlib.Data.List.Nodup

/-!
# Queues with a pointer to the last link

A queue keeps the address of the pointer that ends it, and each cell the address of the pointer that points to it, so that
a cell is put at the end or taken out without a walk. An address is that of a queue's first pointer or of a cell's `next`
pointer. `Rep` reads a store of such pointers as one list for each queue; a queue may be open, with a pointer at its end
that is still to be written.
-/

set_option linter.unusedSectionVars false

namespace TailQueue

open Function

inductive Link (ι κ : Type*) where
  | data (q : κ)
  | next (i : ι)
deriving DecidableEq

structure Store (ι κ : Type*) where
  data : κ → Option ι
  last : κ → Link ι κ
  next : ι → Option ι
  prev : ι → Link ι κ

namespace Store

variable {ι κ : Type*} [DecidableEq ι] [DecidableEq κ] (s : Store ι κ)

def deref : Link ι κ → Option ι
  | .data q => s.data q
  | .next i => s.next i

def assign (l : Link ι κ) (v : Option ι) : Store ι κ :=
  match l with
  | .data q => { s with data := update s.data q v }
  | .next i => { s with next := update s.next i v }

def setPrev (i : ι) (l : Link ι κ) : Store ι κ := { s with prev := update s.prev i l }

variable (q : κ)

def setLast (l : Link ι κ) : Store ι κ := { s with last := update s.last q l }

def append (i : ι) : Store ι κ := ((s.assign (s.last q) (some i)).setPrev i (s.last q)).setLast q (.next i)

def unlink (i : ι) : Store ι κ :=
  match s.next i with
  | some j => (s.assign (s.prev i) (some j)).setPrev j (s.prev i)
  | none => (s.assign (s.prev i) none).setLast q (s.prev i)

def splice (q r : κ) (i : ι) : Store ι κ :=
  (((s.assign (s.last q) (some i)).setPrev i (s.last q)).setLast q (s.last r)).setLast r (.data r)

def terminate : Store ι κ := s.assign (s.last q) none

def clear : Store ι κ := (s.setLast q (.data q)).assign (.data q) none

def walk : Nat → Option ι → List ι
  | 0, _ => []
  | _ + 1, none => []
  | fuel + 1, some i => i :: walk fuel (s.next i)

/-! ### What an assignment changes -/

@[simp] theorem deref_assign (l m : Link ι κ) (v : Option ι) : (s.assign l v).deref m = if m = l then v else s.deref m := by
  cases l <;> cases m <;> simp [assign, deref, update_apply]

@[simp] theorem prev_assign (l : Link ι κ) (v : Option ι) : (s.assign l v).prev = s.prev := by cases l <;> rfl

@[simp] theorem last_assign (l : Link ι κ) (v : Option ι) : (s.assign l v).last = s.last := by cases l <;> rfl

@[simp] theorem deref_setPrev (i : ι) (l m : Link ι κ) : (s.setPrev i l).deref m = s.deref m := by cases m <;> rfl

@[simp] theorem prev_setPrev (i : ι) (l : Link ι κ) : (s.setPrev i l).prev = update s.prev i l := rfl

@[simp] theorem last_setPrev (i : ι) (l : Link ι κ) : (s.setPrev i l).last = s.last := rfl

@[simp] theorem deref_setLast (l m : Link ι κ) : (s.setLast q l).deref m = s.deref m := by cases m <;> rfl

@[simp] theorem prev_setLast (l : Link ι κ) : (s.setLast q l).prev = s.prev := rfl

@[simp] theorem last_setLast (l : Link ι κ) : (s.setLast q l).last = update s.last q l := rfl

theorem unlink_of_some {q : κ} {i j : ι} (hnext : s.next i = some j) :
    s.unlink q i = (s.assign (s.prev i) (some j)).setPrev j (s.prev i) := by rw [unlink, hnext]

theorem unlink_of_none {q : κ} {i : ι} (hnext : s.next i = none) :
    s.unlink q i = (s.assign (s.prev i) none).setLast q (s.prev i) := by rw [unlink, hnext]

/-! ### Paths -/

variable {s}

/-- From the pointer at `l` the cells `is` follow one another, each with the address of the pointer to it, up to the pointer
at `e`. -/
def Path (s : Store ι κ) : Link ι κ → List ι → Link ι κ → Prop
  | l, [], e => l = e
  | l, i :: is, e => s.deref l = some i ∧ s.prev i = l ∧ Path s (.next i) is e

def links : Link ι κ → List ι → List (Link ι κ)
  | _, [] => []
  | l, i :: is => l :: links (.next i) is

theorem path_congr {s' : Store ι κ} {l e : Link ι κ} {is : List ι} (hderef : ∀ m ∈ links l is, s'.deref m = s.deref m)
    (hprev : ∀ i ∈ is, s'.prev i = s.prev i) (h : s.Path l is e) : s'.Path l is e := by
  induction is generalizing l with
  | nil => exact h
  | cons i is ih =>
    obtain ⟨hhead, hback, hrest⟩ := h
    refine ⟨(hderef l List.mem_cons_self).trans hhead, (hprev i List.mem_cons_self).trans hback, ?_⟩
    exact ih (fun m hm => hderef m (List.mem_cons_of_mem l hm)) (fun j hj => hprev j (List.mem_cons_of_mem i hj)) hrest

theorem path_append {l e : Link ι κ} {is js : List ι} : s.Path l (is ++ js) e ↔ ∃ m, s.Path l is m ∧ s.Path m js e := by
  induction is generalizing l with
  | nil => simp [Path]
  | cons i is ih =>
    simp only [List.cons_append, Path, ih]
    constructor
    · rintro ⟨hhead, hback, m, hleft, hright⟩
      exact ⟨m, ⟨hhead, hback, hleft⟩, hright⟩
    rintro ⟨m, ⟨hhead, hback, hleft⟩, hright⟩
    exact ⟨hhead, hback, m, hleft, hright⟩

section

variable {l e : Link ι κ} {is : List ι} (h : s.Path l is e)
include h

/-- The addresses on a path and its end are the start and the `next` pointers of the cells. -/
theorem links_concat : links l is ++ [e] = l :: is.map .next := by
  induction is generalizing l with
  | nil => exact congrArg (fun m => [m]) h.symm
  | cons i is ih => rw [links, List.cons_append, ih h.2.2, List.map_cons]

theorem mem_links {m : Link ι κ} (hm : m ∈ links l is) : m = l ∨ ∃ i ∈ is, m = .next i := by
  have hmem : m ∈ l :: is.map .next := links_concat h ▸ List.mem_append_left _ hm
  rcases List.mem_cons.1 hmem with rfl | hmem
  · exact .inl rfl
  obtain ⟨i, hi, rfl⟩ := List.mem_map.1 hmem
  exact .inr ⟨i, hi, rfl⟩

theorem path_end : e = l ∨ ∃ i ∈ is, e = .next i := by
  have hmem : e ∈ l :: is.map .next := links_concat h ▸ List.mem_append_right _ (List.mem_singleton_self e)
  rcases List.mem_cons.1 hmem with rfl | hmem
  · exact .inl rfl
  obtain ⟨i, hi, rfl⟩ := List.mem_map.1 hmem
  exact .inr ⟨i, hi, rfl⟩

theorem path_end_not_mem (hnodup : is.Nodup) (hl : ∀ i ∈ is, l ≠ .next i) : e ∉ links l is := by
  have hall : (links l is ++ [e]).Nodup := by
    rw [links_concat h, List.nodup_cons]
    refine ⟨?_, hnodup.map fun i j hij => Link.next.inj hij⟩
    intro hmem
    obtain ⟨i, hi, heq⟩ := List.mem_map.1 hmem
    exact hl i hi heq.symm
  intro hmem
  exact (List.nodup_append.1 hall).2.2 e hmem e (List.mem_singleton_self e) rfl

theorem walk_path (hend : s.deref e = none) {fuel : Nat} (hfuel : is.length ≤ fuel) : s.walk fuel (s.deref l) = is := by
  induction is generalizing l fuel with
  | nil =>
    rw [show l = e from h, hend]
    cases fuel <;> rfl
  | cons i is ih =>
    cases fuel with
    | zero => simp at hfuel
    | succ fuel =>
      rw [h.1, walk]
      exact congrArg _ (ih h.2.2 (Nat.le_of_succ_le_succ hfuel))

end

/-! ### Queues -/

/-- The store holds the cells `f q` in queue `q`; only open queues may lack the null pointer at their end. -/
structure Rep (s : Store ι κ) (f : κ → List ι) (isOpen : κ → Prop) : Prop where
  path : ∀ q, s.Path (.data q) (f q) (s.last q)
  stop : ∀ q, ¬ isOpen q → s.deref (s.last q) = none
  nodup : ∀ q, (f q).Nodup
  disjoint : ∀ q r i, i ∈ f q → i ∈ f r → q = r

theorem mem_update_append {f : κ → List ι} {q r : κ} {i j : ι} : j ∈ update f q (f q ++ [i]) r ↔ j ∈ f r ∨ r = q ∧ j = i := by
  by_cases hr : r = q
  · subst hr
    simp
  simp [hr]

namespace Rep

variable {f : κ → List ι} {isOpen : κ → Prop}

section

variable (h : s.Rep f isOpen)
include h

theorem links_disjoint {q r : κ} {m : Link ι κ} (hm : m = .data q ∨ ∃ i ∈ f q, m = .next i)
    (hm' : m = .data r ∨ ∃ i ∈ f r, m = .next i) : q = r := by
  rcases hm with rfl | ⟨i, hi, rfl⟩
  · rcases hm' with heq | ⟨j, -, heq⟩
    · exact Link.data.inj heq
    · cases heq
  rcases hm' with heq | ⟨j, hj, heq⟩
  · cases heq
  obtain rfl := Link.next.inj heq
  exact h.disjoint q r i hi hj

theorem last_not_mem (q r : κ) : s.last q ∉ links (.data r) (f r) := by
  intro hmem
  obtain rfl := h.links_disjoint (path_end (h.path q)) (mem_links (h.path r) hmem)
  exact path_end_not_mem (h.path q) (h.nodup q) (fun _ _ => nofun) hmem

theorem last_inj {q r : κ} (heq : s.last q = s.last r) : q = r := by
  have hend := path_end (h.path q)
  rw [heq] at hend
  exact h.links_disjoint hend (path_end (h.path r))

theorem next_ne_last {i : ι} (hi : ∀ q, i ∉ f q) (q : κ) : s.last q ≠ .next i := by
  intro heq
  rcases path_end (h.path q) with hend | ⟨j, hj, hend⟩
  · rw [heq] at hend
    cases hend
  rw [heq] at hend
  obtain rfl := Link.next.inj hend
  exact hi q hj

/-- A path stays when the only pointers that change are at the end of a queue and the only cells outside of it. -/
theorem path_frame {s' : Store ι κ} {q r : κ} (hderef : ∀ m, m ≠ s.last q → s'.deref m = s.deref m)
    (hprev : ∀ i ∈ f r, s'.prev i = s.prev i) : s'.Path (.data r) (f r) (s.last r) := by
  refine path_congr (fun m hm => hderef m ?_) hprev (h.path r)
  rintro rfl
  exact h.last_not_mem q r hm

/-- Putting a cell at the end of a queue; what its `next` pointer holds is what the queue ends with. -/
theorem append {q : κ} {i : ι} (hi : ∀ r, i ∉ f r) :
    (s.append q i).Rep (update f q (f q ++ [i])) fun r => if r = q then s.next i ≠ none else isOpen r := by
  have hnext := h.next_ne_last hi q
  have hframe : ∀ r, (s.append q i).Path (.data r) (f r) (s.last r) := by
    intro r
    refine h.path_frame (q := q) (fun m hm => by simp [Store.append, hm]) fun j hj => ?_
    have hne : j ≠ i := fun heq => hi r (heq ▸ hj)
    simp [Store.append, hne]
  refine ⟨fun r => ?_, fun r hr => ?_, fun r => ?_, fun r t j hj hj' => ?_⟩
  · by_cases hr : r = q
    · subst hr
      rw [update_self, path_append]
      exact ⟨s.last r, hframe r, by simp [Store.append], by simp [Store.append], by simp [Store.append, Path]⟩
    rw [update_of_ne hr]
    simpa [Store.append, hr] using hframe r
  · by_cases hrq : r = q
    · subst hrq
      rw [if_pos rfl, not_not] at hr
      simp only [Store.append, last_setLast, update_self, deref_setLast, deref_setPrev, deref_assign, if_neg (Ne.symm hnext)]
      exact hr
    rw [if_neg hrq] at hr
    have hne : s.last r ≠ s.last q := fun heq => hrq (h.last_inj heq)
    simpa [Store.append, hrq, hne] using h.stop r hr
  · by_cases hr : r = q
    · subst hr
      rw [update_self, List.nodup_append]
      refine ⟨h.nodup r, List.nodup_singleton i, fun j hj k hk => ?_⟩
      rw [List.mem_singleton.1 hk]
      exact fun heq => hi r (heq ▸ hj)
    rw [update_of_ne hr]
    exact h.nodup r
  rw [mem_update_append] at hj hj'
  rcases hj with hj | ⟨rfl, rfl⟩
  · rcases hj' with hj' | ⟨rfl, rfl⟩
    · exact h.disjoint r t j hj hj'
    · exact absurd hj (hi r)
  rcases hj' with hj' | ⟨rfl, -⟩
  · exact absurd hj' (hi t)
  · rfl

theorem rest_of_erase (q : κ) (i : ι) : (∀ r, (update f q ((f q).erase i) r).Nodup) ∧
    ∀ r t j, j ∈ update f q ((f q).erase i) r → j ∈ update f q ((f q).erase i) t → r = t := by
  have hsub : ∀ r, (update f q ((f q).erase i) r).Sublist (f r) := by
    intro r
    by_cases hr : r = q
    · subst hr
      rw [update_self]
      exact List.erase_sublist
    rw [update_of_ne hr]
  exact ⟨fun r => (h.nodup r).sublist (hsub r), fun r t j hj hj' => h.disjoint r t j ((hsub r).subset hj) ((hsub t).subset hj')⟩

theorem unlink {q : κ} {i : ι} (hi : i ∈ f q) (hq : ¬ isOpen q) : (s.unlink q i).Rep (update f q ((f q).erase i)) isOpen := by
  obtain ⟨as, bs, hsplit⟩ := List.append_of_mem hi
  have hnodup := h.nodup q
  have hpath := h.path q
  rw [hsplit] at hnodup hpath
  obtain ⟨hasNodup, hbsNodup, hdisj⟩ := List.nodup_append.1 hnodup
  have hias : i ∉ as := fun hmem => hdisj i hmem i List.mem_cons_self rfl
  have herase : (f q).erase i = as ++ bs := by rw [hsplit, List.erase_append_right _ hias, List.erase_cons_head]
  obtain ⟨m, hleft, hhead, hback, hright⟩ := path_append.1 hpath
  have hm := path_end hleft
  have hmq : m = .data q ∨ ∃ a ∈ f q, m = .next a := by
    rcases hm with rfl | ⟨a, ha, rfl⟩
    · exact .inl rfl
    · exact .inr ⟨a, hsplit ▸ List.mem_append_left _ ha, rfl⟩
  -- the pointer that is written is one of this queue
  have hother : ∀ r, r ≠ q → m ∉ links (.data r) (f r) ∧ s.last r ≠ m := by
    intro r hr
    refine ⟨fun hmem => hr (h.links_disjoint (mem_links (h.path r) hmem) hmq), fun heq => ?_⟩
    exact hr (h.links_disjoint (path_end (h.path r)) (heq ▸ hmq))
  have hasLinks := path_end_not_mem hleft hasNodup fun _ _ => nofun
  obtain ⟨hnodup', hdisjoint'⟩ := h.rest_of_erase q i
  cases bs with
  | nil =>
    have hnone : s.next i = none := by
      have hstop := h.stop q hq
      rwa [← show Link.next i = s.last q from hright] at hstop
    rw [unlink_of_none s hnone, hback]
    refine ⟨fun r => ?_, fun r hr => ?_, hnodup', hdisjoint'⟩
    · by_cases hr : r = q
      · subst hr
        rw [update_self, herase, List.append_nil, last_setLast, update_self]
        refine path_congr (fun x hx => ?_) (fun _ _ => by simp) hleft
        have hne : x ≠ m := fun heq => hasLinks (heq ▸ hx)
        simp [hne]
      rw [update_of_ne hr, last_setLast, update_of_ne hr, last_assign]
      refine path_congr (fun x hx => ?_) (fun _ _ => by simp) (h.path r)
      have hne : x ≠ m := fun heq => (hother r hr).1 (heq ▸ hx)
      simp [hne]
    by_cases hrq : r = q
    · subst hrq
      simp
    simpa [hrq, (hother r hrq).2] using h.stop r hr
  | cons j bs =>
    obtain ⟨hnext, hjback, hrest⟩ := hright
    have hsome : s.next i = some j := hnext
    have hbs : ∀ b ∈ j :: bs, m ≠ .next b := by
      rintro b hb rfl
      rcases hm with hm | ⟨a, ha, hm⟩
      · cases hm
      · exact hdisj a ha b (List.mem_cons_of_mem i hb) (Link.next.inj hm).symm
    rw [unlink_of_some s hsome, hback]
    refine ⟨fun r => ?_, fun r hr => ?_, hnodup', hdisjoint'⟩
    · by_cases hr : r = q
      · subst hr
        rw [update_self, herase, path_append, last_setPrev, last_assign]
        refine ⟨m, ?_, by simp, by simp, ?_⟩
        · refine path_congr (fun x hx => ?_) (fun a ha => ?_) hleft
          · have hne : x ≠ m := fun heq => hasLinks (heq ▸ hx)
            simp [hne]
          have hne : a ≠ j := fun heq => hdisj a ha j (List.mem_cons_of_mem i List.mem_cons_self) heq
          simp [hne]
        refine path_congr (fun x hx => ?_) (fun b hb => ?_) hrest
        · have hne : x ≠ m := by
            rintro rfl
            rcases mem_links hrest hx with heq | ⟨b, hb, heq⟩
            · exact hbs j List.mem_cons_self heq
            · exact hbs b (List.mem_cons_of_mem j hb) heq
          simp [hne]
        have hne : b ≠ j := by
          rintro rfl
          exact (List.nodup_cons.1 (List.nodup_cons.1 hbsNodup).2).1 hb
        simp [hne]
      rw [update_of_ne hr, last_setPrev, last_assign]
      refine path_congr (fun x hx => ?_) (fun b hb => ?_) (h.path r)
      · have hne : x ≠ m := fun heq => (hother r hr).1 (heq ▸ hx)
        simp [hne]
      have hne : b ≠ j := by
        rintro rfl
        exact hr (h.disjoint r q b hb (hsplit ▸ by simp))
      simp [hne]
    have hne : s.last r ≠ m := by
      by_cases hrq : r = q
      · subst hrq
        rcases path_end hrest with heq | ⟨b, hb, heq⟩
        · rw [heq]
          exact (hbs j List.mem_cons_self).symm
        rw [heq]
        exact (hbs b (List.mem_cons_of_mem j hb)).symm
      exact (hother r hrq).2
    simpa [hne] using h.stop r hr

theorem assign_next {i : ι} (hi : ∀ q, i ∉ f q) (v : Option ι) : (s.assign (.next i) v).Rep f isOpen := by
  refine ⟨fun q => ?_, fun q hq => ?_, h.nodup, h.disjoint⟩
  · rw [last_assign]
    refine path_congr (fun m hm => ?_) (fun _ _ => by simp) (h.path q)
    have hne : m ≠ .next i := by
      rintro rfl
      rcases mem_links (h.path q) hm with heq | ⟨j, hj, heq⟩
      · cases heq
      · exact hi q (Link.next.inj heq ▸ hj)
    simp [hne]
  simpa [h.next_ne_last hi q] using h.stop q hq

theorem terminate (q : κ) : (s.terminate q).Rep f fun r => isOpen r ∧ r ≠ q := by
  have hframe : ∀ r, (s.terminate q).Path (.data r) (f r) (s.last r) := fun r =>
    h.path_frame (q := q) (fun m hm => by simp [Store.terminate, hm]) fun i hi => by simp [Store.terminate]
  refine ⟨fun r => ?_, fun r hr => ?_, h.nodup, h.disjoint⟩
  · simpa [Store.terminate] using hframe r
  by_cases hrq : r = q
  · subst hrq
    simp [Store.terminate]
  have hne : s.last r ≠ s.last q := fun heq => hrq (h.last_inj heq)
  have hopen : ¬ isOpen r := fun hopen => hr ⟨hopen, hrq⟩
  simpa [Store.terminate, hne] using h.stop r hopen

theorem clear (q : κ) : (s.clear q).Rep (update f q []) fun r => isOpen r ∧ r ≠ q := by
  refine ⟨fun r => ?_, fun r hr => ?_, fun r => ?_, fun r t i hi hi' => ?_⟩
  · by_cases hr : r = q
    · subst hr
      simp [Store.clear, Path]
    rw [update_of_ne hr, Store.clear, last_assign, last_setLast, update_of_ne hr]
    refine path_congr (fun m hm => ?_) (fun _ _ => by simp) (h.path r)
    have hne : m ≠ .data q := fun heq => hr (h.links_disjoint (mem_links (h.path r) hm) (.inl heq))
    simp [hne]
  · by_cases hrq : r = q
    · subst hrq
      simp [Store.clear]
    have hne : s.last r ≠ .data q := fun heq => hrq (h.links_disjoint (path_end (h.path r)) (.inl heq))
    have hopen : ¬ isOpen r := fun hopen => hr ⟨hopen, hrq⟩
    simpa [Store.clear, hrq, hne] using h.stop r hopen
  · by_cases hr : r = q
    · simp [hr]
    · simpa [hr] using h.nodup r
  by_cases hr : r = q
  · simp [hr] at hi
  by_cases ht : t = q
  · simp [ht] at hi'
  rw [update_of_ne hr] at hi
  rw [update_of_ne ht] at hi'
  exact h.disjoint r t i hi hi'

/-- Moving all cells of a terminated queue to the end of another one, whose first pointer is left to be written. -/
theorem splice {q r : κ} (hqr : q ≠ r) (hr : ¬ isOpen r) {i : ι} {is : List ι} (hi : f r = i :: is) :
    (s.splice q r i).Rep (update (update f q (f q ++ f r)) r []) fun t => t = r ∨ isOpen t ∧ t ≠ q := by
  have hir : i ∈ f r := hi ▸ List.mem_cons_self
  have hpath := h.path r
  have hnodup := h.nodup r
  rw [hi] at hpath hnodup
  have hderef : ∀ m, m ≠ s.last q → (s.splice q r i).deref m = s.deref m := fun m hm => by simp [Store.splice, hm]
  have hprev : ∀ j, j ≠ i → (s.splice q r i).prev j = s.prev j := fun j hj => by simp [Store.splice, hj]
  have hframe : ∀ t, t ≠ r → (s.splice q r i).Path (.data t) (f t) (s.last t) := fun t ht =>
    h.path_frame hderef fun j hj => hprev j fun heq => ht (h.disjoint t r i (heq ▸ hj) hir)
  have hmoved : (s.splice q r i).Path (.next i) is (s.last r) := by
    refine path_congr (fun m hm => hderef m ?_) (fun j hj => hprev j ?_) hpath.2.2
    · rintro rfl
      exact h.last_not_mem q r (hi ▸ List.mem_cons_of_mem _ hm)
    rintro rfl
    exact (List.nodup_cons.1 hnodup).1 hj
  refine ⟨fun t => ?_, fun t ht => ?_, fun t => ?_, fun t u j hj hj' => ?_⟩
  · by_cases htr : t = r
    · subst htr
      simp [Store.splice, Path]
    rw [update_of_ne htr]
    by_cases htq : t = q
    · subst htq
      rw [update_self, path_append, hi]
      refine ⟨s.last t, hframe t htr, by simp [Store.splice], by simp [Store.splice], ?_⟩
      simpa [Store.splice, htr] using hmoved
    rw [update_of_ne htq]
    simpa [Store.splice, htr, htq] using hframe t htr
  · push Not at ht
    obtain ⟨htr, htq⟩ := ht
    by_cases heq : t = q
    · subst heq
      have hne : s.last r ≠ s.last t := fun heq => htr (h.last_inj heq).symm
      simpa [Store.splice, htr, hne] using h.stop r hr
    have hne : s.last t ≠ s.last q := fun heq' => heq (h.last_inj heq')
    simpa [Store.splice, htr, heq, hne] using h.stop t fun hopen => heq (htq hopen)
  · by_cases htr : t = r
    · simp [htr]
    rw [update_of_ne htr]
    by_cases htq : t = q
    · subst htq
      rw [update_self, List.nodup_append]
      refine ⟨h.nodup t, h.nodup r, fun j hj k hk heq => ?_⟩
      exact htr (h.disjoint t r j hj (heq ▸ hk))
    rw [update_of_ne htq]
    exact h.nodup t
  -- a cell of the other queue counts as one of the queue it is moved to
  have hfrom : ∀ {t}, j ∈ update (update f q (f q ++ f r)) r [] t → t ≠ r ∧ (j ∈ f t ∨ t = q ∧ j ∈ f r) := by
    intro t hj
    by_cases htr : t = r
    · simp [htr] at hj
    rw [update_of_ne htr] at hj
    refine ⟨htr, ?_⟩
    by_cases htq : t = q
    · subst htq
      rw [update_self, List.mem_append] at hj
      exact hj.imp_right fun hj => ⟨rfl, hj⟩
    rw [update_of_ne htq] at hj
    exact .inl hj
  obtain ⟨htr, hjt⟩ := hfrom hj
  obtain ⟨hur, hju⟩ := hfrom hj'
  rcases hjt with hjt | ⟨rfl, hjt⟩
  · rcases hju with hju | ⟨rfl, hju⟩
    · exact h.disjoint t u j hjt hju
    · exact absurd (h.disjoint t r j hjt hju) htr
  rcases hju with hju | ⟨rfl, -⟩
  · exact absurd (h.disjoint u r j hju hjt) hur
  · rfl

theorem mono {isOpen' : κ → Prop} (hmono : ∀ q, isOpen q → isOpen' q) : s.Rep f isOpen' :=
  ⟨h.path, fun q hq => h.stop q fun hopen => hq (hmono q hopen), h.nodup, h.disjoint⟩

theorem next_eq {q : κ} (hq : ¬ isOpen q) {as bs : List ι} {i : ι} (hsplit : f q = as ++ i :: bs) : s.next i = bs.head? := by
  have hpath := h.path q
  rw [hsplit] at hpath
  obtain ⟨m, -, -, -, hrest⟩ := path_append.1 hpath
  cases bs with
  | nil =>
    have hstop := h.stop q hq
    rwa [← show Link.next i = s.last q from hrest] at hstop
  | cons j bs => exact hrest.1

theorem data_eq {q : κ} (hq : ¬ isOpen q) : s.data q = (f q).head? := by
  have hpath := h.path q
  cases hf : f q with
  | nil =>
    rw [hf] at hpath
    have hstop := h.stop q hq
    rwa [← show Link.data q = s.last q from hpath] at hstop
  | cons i is =>
    rw [hf] at hpath
    exact hpath.1

theorem next_unlink {q : κ} {i : ι} (hi : i ∈ f q) : (s.unlink q i).next i = s.next i := by
  obtain ⟨as, bs, hsplit⟩ := List.append_of_mem hi
  have hpath := h.path q
  have hnodup := h.nodup q
  rw [hsplit] at hpath hnodup
  obtain ⟨m, hleft, -, hback, -⟩ := path_append.1 hpath
  have hne : Link.next i ≠ s.prev i := by
    rw [hback]
    intro heq
    rcases path_end hleft with hm | ⟨a, ha, hm⟩
    · rw [← heq] at hm
      cases hm
    rw [← heq] at hm
    obtain rfl := Link.next.inj hm
    exact (List.nodup_append.1 hnodup).2.2 i ha i List.mem_cons_self rfl
  show (s.unlink q i).deref (.next i) = s.deref (.next i)
  cases hnext : s.next i with
  | none => rw [unlink_of_none s hnext, deref_setLast, deref_assign, if_neg hne]
  | some j => rw [unlink_of_some s hnext, deref_setPrev, deref_assign, if_neg hne]

theorem next_append {q : κ} {i : ι} (hi : ∀ r, i ∉ f r) : (s.append q i).next i = s.next i := by
  show (s.append q i).deref (.next i) = s.deref (.next i)
  rw [Store.append, deref_setLast, deref_setPrev, deref_assign, if_neg (h.next_ne_last hi q).symm]

end

end Rep

end Store

end TailQueue
