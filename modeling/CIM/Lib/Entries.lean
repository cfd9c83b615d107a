import Mathlib.Data.List.AList
import Mathlib.Data.List.Induction
import Mathlib.Data.List.Nodup
import Mathlib.Tactic.Common

/-!
# Entries that a later operation on their key replaces

A list of entries with distinct keys. An entry that is added again moves to the end. What is in the
list after a sequence of operations, and in which order, is said in terms of the sequence: the
entries added by an operation behind which their key is not used again.
-/
namespace Entries

universe u v

inductive Op (κ : Type u) (α : Type v)
  | add (k : κ) (a : α)
  | del (k : κ)

variable {κ : Type u} {α : Type v} [DecidableEq κ]

def Op.key : Op κ α → κ
  | .add k _ => k
  | .del k => k

def remove (k : κ) (l : List (κ × α)) : List (κ × α) := l.filter (·.1 ≠ k)

def apply (l : List (κ × α)) : Op κ α → List (κ × α)
  | .add k a => remove k l ++ [(k, a)]
  | .del k => remove k l

/-- The entries that no later operation takes back, in the order they were added. -/
def lasting : List (Op κ α) → List (κ × α)
  | [] => []
  | .add k a :: ops => if k ∈ ops.map Op.key then lasting ops else (k, a) :: lasting ops
  | .del _ :: ops => lasting ops

/-- What the key was last added with, if it was not deleted since. -/
def value (k : κ) (ops : List (Op κ α)) : Option α :=
  ((lasting ops).find? (·.1 = k)).map Prod.snd

variable {k : κ} {a : α} {l : List (κ × α)} {ops : List (Op κ α)}

theorem remove_cons (x : κ × α) :
    remove k (x :: l) = if x.1 = k then remove k l else x :: remove k l := by
  unfold remove
  rw [List.filter_cons]
  by_cases h : x.1 = k <;> simp [h]

theorem lasting_snoc (ops : List (Op κ α)) (op : Op κ α) :
    lasting (ops ++ [op]) = apply (lasting ops) op := by
  have hkept : ∀ ops : List (Op κ α), lasting (ops ++ [op]) =
      remove op.key (lasting ops) ++ lasting [op] := by
    intro ops
    induction ops with
    | nil => rfl
    | cons o ops ih =>
        cases o with
        | del k => exact ih
        | add k a =>
            simp only [List.cons_append, lasting, List.map_append, List.mem_append,
              List.map_singleton, List.mem_singleton, ih]
            by_cases hk : k ∈ ops.map Op.key
            · rw [if_pos (.inl hk), if_pos hk]
            · rw [if_neg hk, remove_cons]
              by_cases hop : k = op.key
              · rw [if_pos (.inr hop), if_pos hop]
              · rw [if_neg (not_or.mpr ⟨hk, hop⟩), if_neg hop]
                rfl
  rw [hkept]
  cases op with
  | add k a => rfl
  | del k => exact List.append_nil _

theorem mem_keys_of_lasting (h : (k, a) ∈ lasting ops) : k ∈ ops.map Op.key := by
  induction ops with
  | nil => cases h
  | cons o ops ih =>
      rw [List.map_cons]
      cases o with
      | del k' => exact List.mem_cons_of_mem _ (ih h)
      | add k' a' =>
          rw [lasting] at h
          split at h
          · exact List.mem_cons_of_mem _ (ih h)
          · rcases List.mem_cons.mp h with h | h
            · cases h
              exact List.mem_cons_self
            · exact List.mem_cons_of_mem _ (ih h)

theorem lasting_nodup (ops : List (Op κ α)) : ((lasting ops).map Prod.fst).Nodup := by
  induction ops with
  | nil => exact List.nodup_nil
  | cons o ops ih =>
      cases o with
      | del k => exact ih
      | add k a =>
          rw [lasting]
          split
          · exact ih
          · rename_i hk
            refine List.nodup_cons.mpr ⟨?_, ih⟩
            intro hmem
            obtain ⟨⟨k', a'⟩, hin, rfl⟩ := List.mem_map.mp hmem
            exact hk (mem_keys_of_lasting hin)

/-- Erasing the first entry of a key erases all there are. -/
theorem eraseP_eq_remove (h : (l.map Prod.fst).Nodup) :
    l.eraseP (fun x => decide (x.1 = k)) = remove k l := by
  induction l with
  | nil => rfl
  | cons x l ih =>
      obtain ⟨hx, hl⟩ := List.nodup_cons.mp h
      rw [remove_cons, List.eraseP_cons]
      by_cases hk : x.1 = k
      · rw [if_pos hk, decide_eq_true hk, cond_true, remove, List.filter_eq_self.mpr]
        intro y hy
        have hne : y.1 ≠ k := fun he => hx (hk ▸ he ▸ List.mem_map_of_mem hy)
        exact decide_eq_true hne
      · rw [if_neg hk, decide_eq_false hk, cond_false, ih hl]

theorem find_remove_self : (remove k l).find? (·.1 = k) = none := by
  rw [List.find?_eq_none]
  intro x hx
  have hne := (List.mem_filter.mp hx).2
  simpa using hne

theorem find_remove_ne {k' : κ} (h : k' ≠ k) :
    (remove k l).find? (·.1 = k') = l.find? (·.1 = k') := by
  induction l with
  | nil => rfl
  | cons x l ih =>
      rw [remove_cons, List.find?_cons]
      by_cases hx : x.1 = k
      · have hne : x.1 ≠ k' := fun he => h (he.symm.trans hx)
        rw [if_pos hx, ih]
        simp only [hne, decide_false]
      · rw [if_neg hx, List.find?_cons, ih]

theorem value_add (ops : List (Op κ α)) (k k' : κ) (a : α) :
    value k' (ops ++ [.add k a]) = if k' = k then some a else value k' ops := by
  rw [value, lasting_snoc, apply, List.find?_append]
  by_cases h : k' = k
  · subst h
    rw [if_pos rfl, find_remove_self]
    simp
  · have hlast : [(k, a)].find? (·.1 = k') = none := by
      simpa using fun he : k = k' => h he.symm
    rw [if_neg h, find_remove_ne h, hlast, Option.or_none, value]

theorem value_del (ops : List (Op κ α)) (k k' : κ) :
    value k' (ops ++ [.del k]) = if k' = k then none else value k' ops := by
  rw [value, lasting_snoc, apply]
  by_cases h : k' = k
  · subst h
    rw [if_pos rfl, find_remove_self]
    rfl
  · rw [if_neg h, find_remove_ne h, value]

/-- The entries inserted into a map, each over the ones before it. -/
def insertAll (m : AList fun _ : κ => α) (l : List (κ × α)) : AList fun _ : κ => α :=
  l.foldl (fun m x => m.insert x.1 x.2) m

/-- The value of a key is that of its last entry, or the one it had before. -/
theorem lookup_insertAll (m : AList fun _ : κ => α) (l : List (κ × α)) (k : κ) :
    (insertAll m l).lookup k =
      ((l.filter fun x => decide (x.1 = k)).getLast?.map Prod.snd).or (m.lookup k) := by
  induction l using List.reverseRecOn with
  | nil => rfl
  | append_singleton l x ih =>
      rw [insertAll, List.foldl_append, List.filter_append, List.foldl_cons, List.foldl_nil]
      by_cases hk : x.1 = k
      · subst hk
        rw [AList.lookup_insert, List.filter_cons_of_pos (by simp), List.filter_nil,
          List.getLast?_concat]
        rfl
      · rw [AList.lookup_insert_ne (Ne.symm hk), ← insertAll, ih,
          List.filter_cons_of_neg (by simpa using hk), List.filter_nil, List.append_nil]

end Entries
