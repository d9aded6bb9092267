import Mathlib.Data.List.Basic

/-!
# Parsers of self-delimiting codes

A parser reads a code if it takes exactly the code from the front of any input and gives its value, and if it asks for more
input on every proper part of the code. Codes that are read one behind the other are read as one.
-/

variable {τ α β ε : Type}

/-- The parser `p` reads the code `w` as `a`, and fails with `e` as long as a part of the code is missing. -/
structure Reads (e : ε) (p : List τ → Except ε (α × List τ)) (w : List τ) (a : α) : Prop where
  whole : ∀ rest, p (w ++ rest) = .ok (a, rest)
  short : ∀ pre more, w = pre ++ more → more ≠ [] → p pre = .error e

namespace Reads

open List

variable {e : ε} {p : List τ → Except ε (α × List τ)} {w w' : List τ} {a : α} {b : β}

theorem pure (e : ε) (a : α) : Reads e (fun log : List τ => .ok (a, log)) [] a where
  whole _ := rfl
  short _ _ h hmore := absurd (append_eq_nil_iff.1 h.symm).2 hmore

theorem bind {q : α → List τ → Except ε (β × List τ)} (hp : Reads e p w a) (hq : Reads e (q a) w' b) :
    Reads e (fun log => p log >>= fun r => q r.1 r.2) (w ++ w') b where
  whole rest := by
    rw [append_assoc, hp.whole]
    exact hq.whole rest
  short pre more h hmore := by
    -- the part ends in the first code or in the second one
    obtain ⟨part, rfl, hpart⟩ | ⟨part, rfl, hpart⟩ := append_eq_append_iff.1 h
    · rw [hp.whole]
      exact hq.short part more hpart hmore
    by_cases hnil : part = []
    · subst hnil
      rw [append_nil] at hp
      have hwhole := hp.whole []
      rw [append_nil] at hwhole
      rw [hwhole]
      exact hq.short [] more hpart.symm hmore
    rw [hp.short pre part rfl hnil]
    rfl

theorem congr {q : List τ → Except ε (α × List τ)} (h : Reads e p w a) (hpq : ∀ log, q log = p log) : Reads e q w a :=
  (funext hpq : q = p) ▸ h

end Reads
