import Mathlib.Tactic.Common

/-!
# Labelled transition systems and their runs

A run is the list of labels it performed, oldest first, with the state it ends in. Three rules
package the inductions of the development: an invariant of the steps is an invariant of the
runs, with or without the history, and a simulation of the steps carries every run of one system
to a run of another.
-/
namespace Transition

universe u v w

structure System (σ : Type u) (ε : Type v) where
  init : σ → Prop
  step : σ → ε → σ → Prop

variable {σ : Type u} {ε : Type v} {τ : Type w}

namespace System

inductive Run (S : System σ ε) : List ε → σ → Prop
  | start {s} : S.init s → Run S [] s
  | snoc {es s e s'} : Run S es s → S.step s e s' → Run S (es ++ [e]) s'

def Reachable (S : System σ ε) (s : σ) : Prop := ∃ es, S.Run es s

/-- The sub-system whose steps all meet the guard in the state they start from. -/
def restrict (S : System σ ε) (G : σ → ε → Prop) : System σ ε where
  init := S.init
  step s e s' := G s e ∧ S.step s e s'

/-- The same steps from a given state on. -/
def resume (S : System σ ε) (s : σ) : System σ ε where
  init t := t = s
  step := S.step

theorem Run.invariant {S : System σ ε} {I : σ → Prop} (hi : ∀ s, S.init s → I s)
    (hs : ∀ s e s', I s → S.step s e s' → I s') {es : List ε} {s : σ} (h : S.Run es s) : I s := by
  induction h with
  | start h => exact hi _ h
  | snoc hr hstep ih => exact hs _ _ _ ih hstep

/-- An invariant that speaks of the history as well. -/
theorem Run.history {S : System σ ε} {I : List ε → σ → Prop} (hi : ∀ s, S.init s → I [] s)
    (hs : ∀ es s e s', I es s → S.step s e s' → I (es ++ [e]) s') {es : List ε} {s : σ}
    (h : S.Run es s) : I es s := by
  induction h with
  | start h => exact hi _ h
  | snoc hr hstep ih => exact hs _ _ _ _ ih hstep

theorem Run.simulation {S : System σ ε} {T : System τ ε} {R : σ → τ → Prop}
    (hi : ∀ s, S.init s → ∃ t, T.init t ∧ R s t)
    (hs : ∀ s e s' t, R s t → S.step s e s' → ∃ t', T.step t e t' ∧ R s' t')
    {es : List ε} {s : σ} (h : S.Run es s) : ∃ t, T.Run es t ∧ R s t := by
  induction h with
  | start h =>
      obtain ⟨t, ht, hr⟩ := hi _ h
      exact ⟨t, .start ht, hr⟩
  | snoc hr hstep ih =>
      obtain ⟨t, ht, hrel⟩ := ih
      obtain ⟨t', ht', hrel'⟩ := hs _ _ _ _ hrel hstep
      exact ⟨t', .snoc ht ht', hrel'⟩

end System

end Transition
