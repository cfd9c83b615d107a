import Mathlib.Data.List.Basic
import Mathlib.Data.List.Induction
import Mathlib.Tactic.Common

/-!
# The first and the last place of a test

A search in a list, from the front or from the back, finds nothing, or it splits the list at the
element it finds. A client searches by its own test and reasons about the two parts.
-/
namespace Place

universe u

variable {α : Type u} {p : α → Bool} {l front back : List α} {a : α}

theorem first_none (h : ∀ a ∈ l, ¬p a) : l.findIdx? p = none := by
  rw [List.findIdx?_eq_none_iff]
  intro a ha
  exact Bool.eq_false_iff.mpr (h a ha)

theorem first_append (hfront : ∀ a ∈ front, ¬p a) (ha : p a) :
    (front ++ a :: back).findIdx? p = some front.length := by
  rw [List.findIdx?_append, first_none hfront]
  simp [List.findIdx?_cons, ha]

theorem exists_first (p : α → Bool) (l : List α) : (∀ a ∈ l, ¬p a) ∨
    ∃ front a back, l = front ++ a :: back ∧ (∀ a ∈ front, ¬p a) ∧ p a := by
  induction l with
  | nil => exact .inl nofun
  | cons a l ih =>
      by_cases ha : p a
      · exact .inr ⟨[], a, l, rfl, nofun, ha⟩
      · rcases ih with hnone | ⟨front, b, back, rfl, hfront, hb⟩
        · exact .inl (List.forall_mem_cons.mpr ⟨ha, hnone⟩)
        · exact .inr ⟨a :: front, b, back, rfl, List.forall_mem_cons.mpr ⟨ha, hfront⟩, hb⟩

/-- The search from the back. -/
def last (p : α → Bool) (l : List α) : Option Nat :=
  (l.reverse.findIdx? p).map fun i => l.length - 1 - i

theorem last_none (h : ∀ a ∈ l, ¬p a) : last p l = none := by
  rw [last, first_none fun a ha => h a (List.mem_reverse.mp ha), Option.map_none]

theorem last_append (ha : p a) (hback : ∀ a ∈ back, ¬p a) :
    last p (front ++ a :: back) = some front.length := by
  have hrev : (front ++ a :: back).reverse.findIdx? p = some back.reverse.length := by
    rw [List.reverse_append, List.reverse_cons, List.append_assoc]
    exact first_append (fun a ha => hback a (List.mem_reverse.mp ha)) ha
  rw [last, hrev, Option.map_some, List.length_append, List.length_cons, List.length_reverse]
  exact congrArg some (by omega)

theorem exists_last (p : α → Bool) (l : List α) : (∀ a ∈ l, ¬p a) ∨
    ∃ front a back, l = front ++ a :: back ∧ p a ∧ ∀ a ∈ back, ¬p a := by
  rcases exists_first p l.reverse with hnone | ⟨front, a, back, heq, hfront, ha⟩
  · exact .inl fun a ha => hnone a (List.mem_reverse.mpr ha)
  · refine .inr ⟨back.reverse, a, front.reverse, ?_, ha, fun a ha => hfront a ?_⟩
    · rw [← List.reverse_reverse l, heq]
      simp
    · exact List.mem_reverse.mp ha

end Place
