import Mathlib.Data.List.Basic
import HpiDriver.Foundations.Ledger

/-!
# Simulations

Calls on a concrete state, which may fail, next to what they mean on an abstract one, which tells
when they may come. When one call carries a relation between the two states over to the states
behind it, a history of calls does (`Simulates.run`): it does not fail, and the concrete state ends
up as the abstract one tells. The same goes for the books of the blocks that the calls ask for
(`Refinement.books`).
-/

namespace Simulation

/-- A kind of calls: what they do, what they mean, and when they may come. -/
structure Refinement (ι σ τ : Type*) where
  step : ι → σ → Option σ
  next : ι → τ → τ
  Ok : ι → τ → Prop

namespace Refinement

variable {ι σ τ β : Type*} (S : Refinement ι σ τ) {c : ι} {l l' : List ι} {s : σ} {t : τ}

/-- One call after another. -/
def run (l : List ι) (s : σ) : Option σ := l.foldlM (fun s c => S.step c s) s

/-- What one call after another means. -/
def after (l : List ι) (t : τ) : τ := l.foldl (fun t c => S.next c t) t

/-- Every call of the history may come where it does. -/
def Admissible : List ι → τ → Prop
  | [], _ => True
  | c :: l, t => S.Ok c t ∧ Admissible l (S.next c t)

instance instDecidableAdmissible [∀ c t, Decidable (S.Ok c t)] :
    (l : List ι) → (t : τ) → Decidable (S.Admissible l t)
  | [], _ => .isTrue trivial
  | c :: l, t =>
    have := instDecidableAdmissible l (S.next c t)
    inferInstanceAs (Decidable (S.Ok c t ∧ S.Admissible l (S.next c t)))

theorem after_append : S.after (l ++ l') t = S.after l' (S.after l t) := List.foldl_append

theorem admissible_append :
    S.Admissible (l ++ l') t ↔ S.Admissible l t ∧ S.Admissible l' (S.after l t) := by
  induction l generalizing t with
  | nil => simp [Admissible, after]
  | cons c l ih => simp only [List.cons_append, Admissible, ih, after, List.foldl_cons, and_assoc]

/-- One call carries the relation over. -/
def Simulates (R : σ → τ → Prop) : Prop :=
  ∀ c s t, R s t → S.Ok c t → ∃ s', S.step c s = some s' ∧ R s' (S.next c t)

/-- Calls that mean nothing in some states: they may come where they mean something. -/
def ofPartial (step : ι → σ → Option σ) (next : ι → τ → Option τ) : Refinement ι σ τ where
  step := step
  next c t := (next c t).getD t
  Ok c t := (next c t).isSome

variable {S}

/-- A history of calls may come when all of it means something. -/
theorem admissible_ofPartial {step : ι → σ → Option σ} {next : ι → τ → Option τ} {t' : τ}
    (h : l.foldlM (fun t c => next c t) t = some t') :
    (ofPartial step next).Admissible l t ∧ (ofPartial step next).after l t = t' := by
  induction l generalizing t with
  | nil => exact ⟨trivial, Option.some.inj h⟩
  | cons c l ih =>
    rw [List.foldlM_cons] at h
    obtain ⟨t₁, hc, h⟩ := Option.bind_eq_some_iff.1 h
    have hnext : (ofPartial step next).next c t = t₁ := congrArg (Option.getD · t) hc
    obtain ⟨hok, hafter⟩ := ih h
    refine ⟨⟨Option.isSome_iff_exists.2 ⟨t₁, hc⟩, ?_⟩, ?_⟩
    · rwa [hnext]
    · rwa [after, List.foldl_cons, hnext]

/-- **A history carries the relation over.** -/
theorem Simulates.run {R : σ → τ → Prop} (hS : S.Simulates R) (h : R s t)
    (hl : S.Admissible l t) : ∃ s', S.run l s = some s' ∧ R s' (S.after l t) := by
  induction l generalizing s t with
  | nil => exact ⟨s, rfl, h⟩
  | cons c l ih =>
    obtain ⟨hc, hl⟩ := hl
    obtain ⟨s₁, hstep, h₁⟩ := hS c s t h hc
    obtain ⟨s', hrun, h'⟩ := ih h₁ hl
    refine ⟨s', ?_, h'⟩
    rw [Refinement.run, List.foldlM_cons, hstep]
    exact hrun

/-- What every admissible call keeps, an admissible history keeps. -/
theorem invariant {P : τ → Prop} (hP : ∀ c t, P t → S.Ok c t → P (S.next c t)) (h : P t)
    (hl : S.Admissible l t) : P (S.after l t) := by
  induction l generalizing t with
  | nil => exact h
  | cons c l ih => exact ih (hP c t h hl.1) hl.2

open Ledger

variable (S) in
/-- The requests of a history, when those of a call are told by the abstract state. -/
def history (events : ι → τ → List (Event β)) : List ι → τ → List (Event β)
  | [], _ => []
  | c :: l, t => events c t ++ history events l (S.next c t)

/-- **The books of a history.** When every call keeps the books of what is held, a history does. -/
theorem books {events : ι → τ → List (Event β)} {held : τ → Set β}
    (hbooks : ∀ c t, S.Ok c t → Books (held t) (events c t) (held (S.next c t)))
    (hl : S.Admissible l t) :
    Books (held t) (S.history events l t) (held (S.after l t)) := by
  induction l generalizing t with
  | nil => exact .nil _
  | cons c l ih => exact (hbooks c t hl.1).append (ih hl.2)

end Refinement

end Simulation
