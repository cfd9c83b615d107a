import CIM.Lib.SortedSet
import Mathlib.Data.List.TakeWhile

/-!
# Sorted arrays

Arrays in the strict order of a key: the search of `std::lower_bound` with a test for equality, an
insertion by swaps from the end, and `std::sort`.
-/
universe u v

namespace SortedArray

open SortedSet (Sorted)

variable {α : Type u} {β : Type v} [LinearOrder β]

def search (key : α → β) (l : List α) (k : β) : Option Nat :=
  match l.dropWhile fun a => key a < k with
  | [] => none
  | a :: _ => if k < key a then none else some (l.takeWhile fun a => key a < k).length

/-- The last element is swapped forward; the elements before it are given in reverse. -/
def bubble (key : α → β) (a : α) : List α → List α
  | [] => [a]
  | b :: l => if key a < key b then b :: bubble key a l else a :: b :: l

def sort (key : α → β) (l : List α) : List α := l.mergeSort fun a b => decide (key a ≤ key b)

variable {key : α → β} {l : List α} {k : β} {a : α}

theorem search_none (hs : Sorted key l) (h : search key l k = none) : ∀ a ∈ l, key a ≠ k := by
  intro a ha
  rw [← List.takeWhile_append_dropWhile (p := fun a => key a < k) (l := l), List.mem_append] at ha
  rcases ha with ha | ha
  · have hlt : key a < k := by simpa using List.mem_takeWhile_imp ha
    exact hlt.ne
  · have hsub : Sorted key (l.dropWhile fun a => key a < k) :=
      List.Pairwise.sublist (List.dropWhile_sublist _) hs
    unfold search at h
    split at h
    · rename_i hd
      rw [hd] at ha
      cases ha
    · rename_i b rest hd
      split at h
      · rename_i hlt
        rw [hd] at ha hsub
        rcases List.mem_cons.mp ha with rfl | ha
        · exact hlt.ne'
        · exact (hlt.trans (List.rel_of_pairwise_cons hsub ha)).ne'
      · cases h

theorem search_some {i : Nat} (h : search key l k = some i) :
    ∃ l₁ a l₂, l = l₁ ++ a :: l₂ ∧ l₁.length = i ∧ key a = k := by
  unfold search at h
  split at h
  · cases h
  · rename_i a rest hd
    split at h
    · cases h
    · rename_i hlt
      have ha : ¬ key a < k := by
        have hhead := List.head_dropWhile_not (l := l) (fun a => key a < k)
          (by rw [hd]; exact List.cons_ne_nil _ _)
        simp only [hd, List.head_cons, decide_eq_false_iff_not] at hhead
        exact hhead
      refine ⟨l.takeWhile fun a => key a < k, a, rest, ?_, Option.some.inj h, ?_⟩
      · rw [← hd, List.takeWhile_append_dropWhile]
      · exact le_antisymm (not_lt.mp hlt) (not_lt.mp ha)

theorem bubble_perm (a : α) (l : List α) : (bubble key a l).Perm (a :: l) := by
  induction l with
  | nil => exact .refl _
  | cons b l ih =>
      rw [bubble]
      split
      · exact (ih.cons b).trans (.swap a b l)
      · exact .refl _

theorem bubble_sorted (hs : l.Pairwise fun a b => key b < key a) (ha : ∀ b ∈ l, key b ≠ key a) :
    (bubble key a l).Pairwise fun a b => key b < key a := by
  induction l with
  | nil => exact List.pairwise_singleton _ _
  | cons b l ih =>
      obtain ⟨hhead, htail⟩ := List.pairwise_cons.mp hs
      rw [bubble]
      split
      · rename_i hlt
        apply List.pairwise_cons.mpr
        refine ⟨?_, ih htail fun x hx => ha x (List.mem_cons_of_mem b hx)⟩
        intro x hx
        rcases List.mem_cons.mp ((bubble_perm a l).subset hx) with rfl | hx
        · exact hlt
        · exact hhead x hx
      · rename_i hlt
        have hba : key b < key a := lt_of_le_of_ne (not_lt.mp hlt) (ha b List.mem_cons_self)
        apply List.pairwise_cons.mpr
        refine ⟨?_, hs⟩
        intro x hx
        rcases List.mem_cons.mp hx with rfl | hx
        · exact hba
        · exact (hhead x hx).trans hba

/-- A new last element, swapped to its place. -/
theorem push_perm (a : α) (l : List α) : (bubble key a l.reverse).reverse.Perm (a :: l) :=
  (List.reverse_perm _).trans ((bubble_perm a _).trans ((List.reverse_perm l).cons a))

theorem push_sorted (hs : Sorted key l) (ha : ∀ b ∈ l, key b ≠ key a) :
    Sorted key (bubble key a l.reverse).reverse := by
  rw [Sorted, List.pairwise_reverse]
  apply bubble_sorted
  · rw [List.pairwise_reverse]
    exact hs
  · intro b hb
    exact ha b (List.mem_reverse.mp hb)

theorem sort_perm (key : α → β) (l : List α) : (sort key l).Perm l := List.mergeSort_perm l _

/-- Sorting is strict exactly for different keys. -/
theorem sort_sorted_iff (l : List α) : Sorted key (sort key l) ↔ (l.map key).Nodup := by
  have hperm := (sort_perm key l).map key
  constructor
  · intro hs
    exact hperm.nodup_iff.mp (List.pairwise_map.mpr (hs.imp ne_of_lt))
  · intro hnodup
    have hle : (sort key l).Pairwise fun a b => decide (key a ≤ key b) = true := by
      apply List.pairwise_mergeSort
      · intro a b c hab hbc
        exact decide_eq_true ((of_decide_eq_true hab).trans (of_decide_eq_true hbc))
      · intro a b
        rw [Bool.or_eq_true, decide_eq_true_iff, decide_eq_true_iff]
        exact le_total (key a) (key b)
    have hne : (sort key l).Pairwise fun a b => key a ≠ key b :=
      List.pairwise_map.mp (hperm.nodup_iff.mpr hnodup)
    exact (hle.and hne).imp fun hab => lt_of_le_of_ne (of_decide_eq_true hab.1) hab.2

end SortedArray
