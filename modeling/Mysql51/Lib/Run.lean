import Mathlib.Data.List.Infix

/-!
# Runs of a step function

A step function may fail; a run of it stops there. An invariant is proved of one step and holds in every state that a
run reaches, and where a step keeps the invariant exactly under a condition, a run keeps it exactly as long as the
condition is met.
-/

namespace Run

open List Option

variable {σ α : Type*} (step : σ → α → Option σ)

def run (s : σ) (as : List α) : Option σ := as.foldlM step s

@[simp] theorem run_nil (s : σ) : run step s [] = some s := rfl

@[simp] theorem run_cons (s : σ) (a : α) (as : List α) : run step s (a :: as) = (step s a).bind (run step · as) := rfl

theorem run_append (s : σ) (as bs : List α) : run step s (as ++ bs) = (run step s as).bind (run step · bs) := by
  induction as generalizing s with
  | nil => rfl
  | cons a as ih =>
    rw [cons_append, run_cons, run_cons, bind_assoc]
    exact congrArg _ (funext ih)

def Passes (s : σ) (as : List α) (t : σ) : Prop := ∃ pre, pre <+: as ∧ run step s pre = some t

def Takes (s : σ) (as : List α) (t : σ) (a : α) : Prop := ∃ pre, pre ++ [a] <+: as ∧ run step s pre = some t

variable {step} {P : σ → Prop} {s t : σ} {as : List α}

theorem passes_self : Passes step s as s := ⟨[], nil_prefix, rfl⟩

/-- A run of actions with a property `Q` is empty, or takes a first step. -/
theorem exists_run {Q : List α → Prop} : (∃ pre, Q pre ∧ run step s pre = some t) ↔
    (t = s ∧ Q []) ∨ ∃ b s', step s b = some s' ∧ ∃ pre, Q (b :: pre) ∧ run step s' pre = some t := by
  constructor
  · rintro ⟨pre, hpre, hrun⟩
    cases pre with
    | nil => exact .inl ⟨(Option.some.inj hrun).symm, hpre⟩
    | cons b pre =>
      obtain ⟨s', hstep, hrun⟩ := bind_eq_some_iff.1 hrun
      exact .inr ⟨b, s', hstep, pre, hpre, hrun⟩
  rintro (⟨rfl, hpre⟩ | ⟨b, s', hstep, pre, hpre, hrun⟩)
  · exact ⟨[], hpre, rfl⟩
  refine ⟨b :: pre, hpre, ?_⟩
  rw [run_cons, hstep]
  exact hrun

theorem passes_cons {a : α} : Passes step s (a :: as) t ↔ t = s ∨ ∃ s', step s a = some s' ∧ Passes step s' as t := by
  rw [Passes, exists_run]
  simp [Passes, cons_prefix_cons, and_assoc]

theorem takes_cons {a b : α} :
    Takes step s (a :: as) t b ↔ (t = s ∧ b = a) ∨ ∃ s', step s a = some s' ∧ Takes step s' as t b := by
  rw [Takes, exists_run]
  simp [Takes, cons_prefix_cons, and_assoc]

section

variable (hstep : ∀ s a s', a ∈ as → P s → step s a = some s' → P s')
include hstep

theorem invariant (hs : P s) (hrun : run step s as = some t) : P t := by
  induction as generalizing s with
  | nil =>
    cases hrun
    exact hs
  | cons a as ih =>
    obtain ⟨s', hs', hrun⟩ := bind_eq_some_iff.1 hrun
    exact ih (fun s b s' hb => hstep s b s' (mem_cons_of_mem a hb)) (hstep s a s' mem_cons_self hs hs') hrun

theorem invariant_takes (hs : P s) {a : α} (htakes : Takes step s as t a) : a ∈ as ∧ P t := by
  obtain ⟨pre, hpre, hrun⟩ := htakes
  have hsub := hpre.subset
  refine ⟨hsub (by simp), invariant (fun s b s' hb => hstep s b s' (hsub (by simp [hb]))) hs hrun⟩

end

theorem isSome_run (hstep : ∀ s a, a ∈ as → P s → ∃ s', step s a = some s' ∧ P s') (hs : P s) : (run step s as).isSome := by
  induction as generalizing s with
  | nil => rfl
  | cons a as ih =>
    obtain ⟨s', hs', hP⟩ := hstep s a mem_cons_self hs
    rw [run_cons, hs']
    exact ih (fun s b hb => hstep s b (mem_cons_of_mem a hb)) hP

def check (step : σ → α → Option σ) (ok : σ → α → Bool) (s : σ) : List α → Bool
  | [] => true
  | a :: as => ok s a && ((step s a).all (check step ok · as))

theorem ok_of_check {ok : σ → α → Bool} (hcheck : check step ok s as) {a : α} (htakes : Takes step s as t a) : ok t a := by
  induction as generalizing s with
  | nil =>
    obtain ⟨pre, hpre, -⟩ := htakes
    simp at hpre
  | cons b as ih =>
    obtain ⟨hok, hrest⟩ := Bool.and_eq_true_iff.1 hcheck
    rcases takes_cons.1 htakes with ⟨rfl, rfl⟩ | ⟨s', hs', htakes⟩
    · exact hok
    rw [hs'] at hrest
    exact ih hrest htakes

/-- What a step keeps under a condition holds at the end of a run that takes only steps that meet the condition. -/
theorem invariant_of_takes (ok : σ → α → Prop) (hs : P s) (hrun : run step s as = some t)
    (hgood : ∀ s a s', P s → step s a = some s' → ok s a → P s') (hok : ∀ t a, Takes step s as t a → ok t a) : P t := by
  induction as generalizing s with
  | nil =>
    cases hrun
    exact hs
  | cons a as ih =>
    obtain ⟨s', hs', hrun⟩ := bind_eq_some_iff.1 hrun
    apply ih (hgood s a s' hs hs' (hok s a (takes_cons.2 (.inl ⟨rfl, rfl⟩)))) hrun
    intro t b htakes
    exact hok t b (takes_cons.2 (.inr ⟨s', hs', htakes⟩))

/-- A condition `ok` on steps that keeps `P`, and without which a step ends outside of `Q`: then `Q` holds in all states
of a run exactly when all steps that the run takes meet the condition. -/
theorem invariant_iff {ok : σ → α → Prop} {Q : σ → Prop} (hweak : ∀ s, P s → Q s)
    (hgood : ∀ s a s', a ∈ as → P s → step s a = some s' → ok s a → P s')
    (hbad : ∀ s a s', a ∈ as → P s → step s a = some s' → Q s' → ok s a) (hs : P s) :
    (∀ t, Passes step s as t → Q t) ↔ ∀ t a, Takes step s as t a → (step t a).isSome → ok t a := by
  induction as generalizing s with
  | nil =>
    refine ⟨fun _ t a ⟨pre, hpre, _⟩ => ?_, fun _ t ⟨pre, hpre, hrun⟩ => ?_⟩
    · simp at hpre
    rw [prefix_nil.1 hpre] at hrun
    cases hrun
    exact hweak s hs
  | cons a as ih =>
    have ih {s : σ} := @ih s (fun s b s' hb => hgood s b s' (mem_cons_of_mem a hb))
      (fun s b s' hb => hbad s b s' (mem_cons_of_mem a hb))
    simp only [passes_cons, takes_cons]
    constructor
    · rintro hall t b (⟨rfl, rfl⟩ | ⟨s', hs', htakes⟩) hsome
      · obtain ⟨s', hs'⟩ := isSome_iff_exists.1 hsome
        exact hbad t b s' mem_cons_self hs hs' (hall s' (.inr ⟨s', hs', passes_self⟩))
      have hok := hbad s a s' mem_cons_self hs hs' (hall s' (.inr ⟨s', hs', passes_self⟩))
      have hP := hgood s a s' mem_cons_self hs hs' hok
      exact (ih hP).1 (fun t ht => hall t (.inr ⟨s', hs', ht⟩)) t b htakes hsome
    rintro hok t (rfl | ⟨s', hs', hpasses⟩)
    · exact hweak t hs
    have hP := hgood s a s' mem_cons_self hs hs' (hok s a (.inl ⟨rfl, rfl⟩) (by simp [hs']))
    exact (ih hP).2 (fun t b htakes => hok t b (.inr ⟨s', hs', htakes⟩)) t hpasses

/-- A condition `ok` under which a step does what it should and keeps `P`: then all steps of a run that meets it do so. -/
theorem refines {ok good : σ → α → Prop}
    (hstep : ∀ s a s', P s → step s a = some s' → ok s a → good s a ∧ P s') (hs : P s)
    (hok : ∀ t a t', Takes step s as t a → step t a = some t' → ok t a) :
    ∀ t a t', Takes step s as t a → step t a = some t' → good t a ∧ P t' := by
  induction as generalizing s with
  | nil =>
    rintro t a t' ⟨pre, hpre, -⟩
    simp at hpre
  | cons a as ih =>
    simp only [takes_cons] at hok ⊢
    rintro t b t' (⟨rfl, rfl⟩ | ⟨s', hs', htakes⟩) ht'
    · exact hstep t b t' hs ht' (hok t b t' (.inl ⟨rfl, rfl⟩) ht')
    have hP := (hstep s a s' hs hs' (hok s a s' (.inl ⟨rfl, rfl⟩) hs')).2
    exact ih hP (fun u c u' hu => hok u c u' (.inr ⟨s', hs', hu⟩)) t b t' htakes ht'

end Run
