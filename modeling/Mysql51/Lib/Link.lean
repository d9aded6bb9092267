import Mathlib.Data.List.Nodup
import Mathlib.Data.List.Perm.Basic

/-!
# Linked lists over a pointer map

A linked structure is a map from cells to cells. `Seg` and `Chain` read such a map as a list, `Back` reads the backward pointers
of a doubly linked list, and the lemmas say what one pointer write does to the list read: a cell put in front, a cell cut out, a
cell outside the list changed.
-/

namespace Link

open Function List Option

variable {α β : Type*}

/-- Following `next` from `h` visits the cells of `l` in order and arrives at `t`. -/
def Seg (next : α → Option α) : Option α → List α → Option α → Prop
  | h, [], t => h = t
  | h, a :: l, t => h = some a ∧ Seg next (next a) l t

def Chain (next : α → Option α) (h : Option α) (l : List α) : Prop := Seg next h l none

/-- The backward pointers along `l`, the first of which is `p`. -/
def Back (prev : α → Option α) : Option α → List α → Prop
  | _, [] => True
  | p, a :: l => prev a = p ∧ Back prev (some a) l

variable {next prev : α → Option α} {h p : Option α} {l l₂ : List α}

@[simp] theorem seg_nil {t : Option α} : Seg next h [] t ↔ h = t := Iff.rfl

@[simp] theorem seg_cons {t : Option α} {a : α} : Seg next h (a :: l) t ↔ h = some a ∧ Seg next (next a) l t := Iff.rfl

@[simp] theorem chain_nil : Chain next h [] ↔ h = none := Iff.rfl

@[simp] theorem chain_cons {a : α} : Chain next h (a :: l) ↔ h = some a ∧ Chain next (next a) l := Iff.rfl

@[simp] theorem back_nil : Back prev p [] := trivial

@[simp] theorem back_cons {a : α} : Back prev p (a :: l) ↔ prev a = p ∧ Back prev (some a) l := Iff.rfl

theorem seg_append {t : Option α} {l₁ : List α} : Seg next h (l₁ ++ l₂) t ↔ ∃ m, Seg next h l₁ m ∧ Seg next m l₂ t := by
  induction l₁ generalizing h with
  | nil => simp
  | cons a l₁ ih =>
    simp only [cons_append, seg_cons, ih]
    constructor
    · rintro ⟨rfl, m, hl, hr⟩
      exact ⟨m, ⟨rfl, hl⟩, hr⟩
    rintro ⟨m, ⟨rfl, hl⟩, hr⟩
    exact ⟨rfl, m, hl, hr⟩

theorem chain_append {l₁ : List α} : Chain next h (l₁ ++ l₂) ↔ ∃ m, Seg next h l₁ m ∧ Chain next m l₂ := seg_append

theorem back_append {l₁ : List α} : Back prev p (l₁ ++ l₂) ↔ Back prev p l₁ ∧ Back prev (l₁.getLast?.or p) l₂ := by
  induction l₁ generalizing p with
  | nil => simp
  | cons a l₁ ih =>
    rw [cons_append, back_cons, ih, back_cons, and_assoc]
    cases l₁ with
    | nil => simp
    | cons b l₁ =>
      obtain ⟨c, hc⟩ : ∃ c, (b :: l₁).getLast? = some c := ⟨_, List.getLast?_eq_some_getLast (by simp)⟩
      rw [List.getLast?_cons_cons, hc, some_or, some_or]

theorem Chain.unique {l₁ : List α} (h₁ : Chain next h l₁) (h₂ : Chain next h l₂) : l₁ = l₂ := by
  induction l₁ generalizing h l₂ with
  | nil =>
    cases l₂ with
    | nil => rfl
    | cons b l₂ =>
      rw [chain_nil] at h₁
      simp [h₁] at h₂
  | cons a l₁ ih =>
    obtain ⟨rfl, h₁⟩ := h₁
    cases l₂ with
    | nil => simp at h₂
    | cons b l₂ =>
      obtain ⟨hb, h₂⟩ := h₂
      cases hb
      rw [ih h₁ h₂]

theorem Chain.nodup (hl : Chain next h l) : l.Nodup := by
  induction l generalizing h with
  | nil => exact nodup_nil
  | cons a l ih =>
    obtain ⟨rfl, hl⟩ := hl
    refine nodup_cons.2 ⟨fun hmem => ?_, ih hl⟩
    -- the tail from a second visit to `a` would be as long as the whole tail
    obtain ⟨l₁, l₂, rfl⟩ := append_of_mem hmem
    obtain ⟨m, _, hm⟩ := chain_append.1 hl
    obtain ⟨rfl, hm⟩ := hm
    have heq := congrArg List.length (Chain.unique hl hm)
    simp only [length_append, length_cons] at heq
    omega

section

variable {next next' : α → Option α} {l : List α} (hnext : ∀ a ∈ l, next' a = next a)
include hnext

theorem seg_congr {t : Option α} : Seg next' h l t ↔ Seg next h l t := by
  induction l generalizing h with
  | nil => rfl
  | cons a l ih =>
    rw [seg_cons, seg_cons, hnext a (by simp), ih fun b hb => hnext b (by simp [hb])]

theorem chain_congr : Chain next' h l ↔ Chain next h l := seg_congr hnext

end

theorem back_congr {prev' : α → Option α} (hprev : ∀ a ∈ l, prev' a = prev a) : Back prev' p l ↔ Back prev p l := by
  induction l generalizing p with
  | nil => rfl
  | cons a l ih =>
    rw [back_cons, back_cons, hprev a (by simp), ih fun b hb => hprev b (by simp [hb])]

theorem Chain.head?_eq (hl : Chain next h l) : h = l.head? := by
  cases l with
  | nil => exact hl
  | cons a l => exact hl.1

theorem Chain.eq_nil (hl : Chain next none l) : l = [] := by
  cases l with
  | nil => rfl
  | cons a l => simp at hl

theorem Chain.next_eq {l₁ : List α} {a : α} (hl : Chain next h (l₁ ++ a :: l₂)) : next a = l₂.head? := by
  obtain ⟨m, _, _, hl⟩ := chain_append.1 hl
  exact Chain.head?_eq hl

theorem Back.prev_eq {l₁ : List α} {a : α}
    (hl : Back prev p (l₁ ++ a :: l₂)) : prev a = l₁.getLast?.or p := (back_append.1 hl).2.1

section Update

variable [DecidableEq α]

variable {v : Option α}

section

variable {l : List α} {a : α} (ha : a ∉ l)
include ha

theorem chain_update_of_notMem : Chain (update next a v) h l ↔ Chain next h l :=
  chain_congr fun _ hb => update_of_ne (ne_of_mem_of_not_mem hb ha) _ _

theorem seg_update_of_notMem {t : Option α} : Seg (update next a v) h l t ↔ Seg next h l t :=
  seg_congr fun _ hb => update_of_ne (ne_of_mem_of_not_mem hb ha) _ _

theorem back_update_of_notMem : Back (update prev a v) p l ↔ Back prev p l :=
  back_congr fun _ hb => update_of_ne (ne_of_mem_of_not_mem hb ha) _ _

end

theorem Chain.push {a : α} (hl : Chain next h l) (ha : a ∉ l) : Chain (update next a h) (some a) (a :: l) := by
  refine ⟨rfl, ?_⟩
  rw [update_self]
  exact (chain_update_of_notMem ha).2 hl

def setOpt (f : α → β) (p : Option α) (v : β) : α → β :=
  match p with
  | none => f
  | some a => update f a v

@[simp] theorem setOpt_none (f : α → β) (v : β) : setOpt f none v = f := rfl

@[simp] theorem setOpt_some (f : α → β) (a : α) (v : β) : setOpt f (some a) v = update f a v := rfl

theorem setOpt_of_ne {f : α → β} {v : β} {b : α} (hb : p ≠ some b) : setOpt f p v b = f b := by
  cases p with
  | none => rfl
  | some a => exact update_of_ne (fun he => hb (by rw [he])) _ _

theorem Back.push {a : α}
    (hc : Chain next h l) (hl : Back prev none l) (ha : a ∉ l) : Back (setOpt (update prev a none) h (some a)) none (a :: l) := by
  cases l with
  | nil =>
    rw [chain_nil] at hc
    simp [hc]
  | cons b l =>
    obtain ⟨rfl, hc⟩ := hc
    simp only [mem_cons, not_or] at ha
    have hb : b ∉ l := (nodup_cons.1 (Chain.nodup (h := some b) ⟨rfl, hc⟩)).1
    refine ⟨?_, ?_, ?_⟩
    · rw [setOpt_some, update_of_ne ha.1, update_self]
    · rw [setOpt_some, update_self]
    rw [setOpt_some, back_update_of_notMem hb, back_update_of_notMem ha.2]
    exact hl.2

section

variable {next : α → Option α} {h : Option α} {l₁ l₂ : List α} {a : α} (hc : Chain next h (l₁ ++ a :: l₂))
include hc

theorem Chain.unlink (hb : Back prev none (l₁ ++ a :: l₂)) :
    Chain (setOpt next (prev a) (next a)) (if h = some a then next a else h) (l₁ ++ l₂) := by
  have hnd := hc.nodup
  have hprev := hb.prev_eq
  rw [or_none] at hprev
  rcases eq_nil_or_concat l₁ with rfl | ⟨l, b, rfl⟩
  · simp only [nil_append, chain_cons] at hc ⊢
    obtain ⟨rfl, hc⟩ := hc
    simp only [List.getLast?_nil] at hprev
    simpa [hprev] using hc
  rw [concat_eq_append] at hc hnd hprev ⊢
  simp only [List.getLast?_append, List.getLast?_singleton, some_or] at hprev
  rw [hprev, setOpt_some]
  obtain ⟨m, hseg, rfl, htail⟩ := chain_append.1 hc
  obtain ⟨m', hseg, rfl, hba⟩ := seg_append.1 hseg
  have hba : next b = some a := hba
  have hhead : h ≠ some a := by
    intro he
    subst he
    cases l with
    | nil =>
      have hab : some a = some b := hseg
      cases hab
      simp at hnd
    | cons c l =>
      obtain ⟨hca, _⟩ := hseg
      cases hca
      simp at hnd
  rw [if_neg hhead]
  simp only [append_assoc, singleton_append, nodup_append, nodup_cons, mem_cons] at hnd
  have hbl : b ∉ l := fun hm => hnd.2.2 b hm b (.inl rfl) rfl
  have hbl₂ : b ∉ l₂ := fun hm => hnd.2.1.1 (.inr hm)
  refine chain_append.2 ⟨next a, seg_append.2 ⟨some b, (seg_update_of_notMem hbl).2 hseg, rfl, ?_⟩, ?_⟩
  · exact update_self _ _ _
  · exact (chain_update_of_notMem hbl₂).2 htail

theorem Back.unlink (hb : Back prev none (l₁ ++ a :: l₂)) : Back (setOpt prev (next a) (prev a)) none (l₁ ++ l₂) := by
  have hnd := hc.nodup
  have hnext := hc.next_eq
  have hprev := hb.prev_eq
  rw [or_none] at hprev
  obtain ⟨hb₁, _, hb₂⟩ := back_append.1 hb
  refine back_append.2 ⟨?_, ?_⟩
  · cases l₂ with
    | nil => simpa [hnext] using hb₁
    | cons c l₂ =>
      rw [hnext, List.head?_cons, setOpt_some]
      refine (back_update_of_notMem fun hm => ?_).2 hb₁
      exact (disjoint_of_nodup_append hnd) hm (by simp)
  cases l₂ with
  | nil => trivial
  | cons c l₂ =>
    rw [hnext, List.head?_cons, setOpt_some, or_none]
    have hnd' : c ∉ l₂ := by
      have := (nodup_append.1 hnd).2.1
      simp only [nodup_cons] at this
      exact this.2.1
    refine ⟨?_, (back_update_of_notMem hnd').2 hb₂.2⟩
    rw [update_self, hprev]

end

theorem getLast?_unlink {l₁ : List α} {a : α} (hnd : (l₁ ++ a :: l₂).Nodup) (hb : Back prev none (l₁ ++ a :: l₂)) :
    (if (l₁ ++ a :: l₂).getLast? = some a then prev a else (l₁ ++ a :: l₂).getLast?) = (l₁ ++ l₂).getLast? := by
  have hprev := hb.prev_eq
  rw [or_none] at hprev
  rcases eq_nil_or_concat l₂ with rfl | ⟨l, b, rfl⟩
  · simp [hprev]
  rw [concat_eq_append] at hnd ⊢
  have hne : b ≠ a := by
    rintro rfl
    have := (nodup_append.1 hnd).2.1
    simp at this
  rw [show l₁ ++ a :: (l ++ [b]) = (l₁ ++ a :: l) ++ [b] by simp, show l₁ ++ (l ++ [b]) = (l₁ ++ l) ++ [b] by simp,
    List.getLast?_concat, List.getLast?_concat, if_neg (by simpa using hne)]

end Update

end Link
