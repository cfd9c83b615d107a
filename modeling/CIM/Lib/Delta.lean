import Mathlib.Data.Set.BooleanAlgebra
import Mathlib.Order.CompletePartialOrder
import Mathlib.Tactic.Tauto

/-!
# Changes of a set

A change deletes some elements and adds others. Changes that do not undo one another commute, so
a queue of changes may be worked off out of order wherever the changes that are overtaken are
independent of the one that overtakes them.
-/
namespace Change

universe u

structure Delta (α : Type u) where
  del : Set α
  add : Set α

namespace Delta

variable {α : Type u} {d e : Delta α} {l : List (Delta α)}

def apply (d : Delta α) (x : Set α) : Set α := x \ d.del ∪ d.add

/-- The change that turns `old` into `new`. -/
def between (old new : Set α) : Delta α := ⟨old \ new, new \ old⟩

/-- Neither change adds what the other deletes. -/
def Independent (d e : Delta α) : Prop := Disjoint d.add e.del ∧ Disjoint d.del e.add

/-- The changes of `l` in order, the first of them first. -/
def applyAll (l : List (Delta α)) (x : Set α) : Set α := l.foldl (fun y d => d.apply y) x

theorem mem_apply {x : Set α} {a : α} : a ∈ d.apply x ↔ a ∈ x ∧ a ∉ d.del ∨ a ∈ d.add :=
  Iff.rfl

theorem between_apply (old new : Set α) : (between old new).apply old = new := by
  ext a
  change (a ∈ old ∧ ¬ (a ∈ old ∧ a ∉ new) ∨ a ∈ new ∧ a ∉ old) ↔ a ∈ new
  by_cases ho : a ∈ old
  · simp [ho]
  · simp [ho]

theorem apply_comm (h : Independent d e) (x : Set α) :
    e.apply (d.apply x) = d.apply (e.apply x) := by
  ext a
  have hadd : a ∈ d.add → a ∉ e.del := fun hd he => Set.disjoint_left.mp h.1 hd he
  have hdel : a ∈ d.del → a ∉ e.add := fun hd he => Set.disjoint_left.mp h.2 hd he
  rw [mem_apply, mem_apply, mem_apply, mem_apply]
  tauto

theorem applyAll_append (l₁ l₂ : List (Delta α)) (x : Set α) :
    applyAll (l₁ ++ l₂) x = applyAll l₂ (applyAll l₁ x) :=
  List.foldl_append

theorem applyAll_cons (d : Delta α) (l : List (Delta α)) (x : Set α) :
    applyAll (d :: l) x = applyAll l (d.apply x) := rfl

/-- A change passes over the independent changes before it. -/
theorem apply_applyAll (h : ∀ d ∈ l, Independent d e) (x : Set α) :
    e.apply (applyAll l x) = applyAll l (e.apply x) := by
  induction l generalizing x with
  | nil => rfl
  | cons d l ih =>
      rw [applyAll_cons, applyAll_cons, ih (fun d' hd' => h d' (List.mem_cons_of_mem d hd')),
        apply_comm (h d List.mem_cons_self)]

/-- Working off a change before the independent ones ahead of it. -/
theorem applyAll_overtake {l₁ l₂ : List (Delta α)} (h : ∀ d ∈ l₁, Independent d e)
    (x : Set α) : applyAll (l₁ ++ l₂) (e.apply x) = applyAll (l₁ ++ e :: l₂) x := by
  rw [applyAll_append, applyAll_append, applyAll_cons, apply_applyAll h]

end Delta

end Change
