import Mathlib.Data.List.Nodup
import Mathlib.Order.Lattice
import Mathlib.Tactic.Common

/-!
# Ordered sets with a comparator

`std::set` as the list of its elements in order. The comparator is a function of the program; on
the elements that may be compared it agrees with the order of a key, which the rules below rely
on. A key may change while its element is in no set.
-/
universe u v

namespace SortedSet

variable {α : Type u} {β : Type v} [LinearOrder β]

/-- Nothing is inserted where an equivalent element is. -/
def insert (lt : α → α → Bool) (a : α) : List α → List α
  | [] => [a]
  | b :: l => if lt a b then a :: b :: l else if lt b a then b :: insert lt a l else b :: l

/-- The element equivalent to `a`. -/
def find (lt : α → α → Bool) (a : α) : List α → Option α
  | [] => none
  | b :: l => if lt a b then none else if lt b a then find lt a l else some b

/-- Erase the element equivalent to `a`. -/
def erase (lt : α → α → Bool) (a : α) : List α → List α
  | [] => []
  | b :: l => if lt a b then b :: l else if lt b a then b :: erase lt a l else l

/-- On the elements in `S` the comparator compares keys. -/
def Compares (lt : α → α → Bool) (key : α → β) (S : α → Prop) : Prop :=
  ∀ a b, S a → S b → (lt a b = true ↔ key a < key b)

def Sorted (key : α → β) (l : List α) : Prop := l.Pairwise fun a b => key a < key b

variable {lt : α → α → Bool} {key key' : α → β} {S : α → Prop} {a : α} {l : List α}

theorem Sorted.congr (h : Sorted key l) (hk : ∀ x ∈ l, key' x = key x) : Sorted key' l := by
  apply List.Pairwise.imp_of_mem _ h
  intro x y hx hy hxy
  rw [hk x hx, hk y hy]
  exact hxy

theorem Sorted.eq_of_key (hs : Sorted key l) {x y : α} (hx : x ∈ l) (hy : y ∈ l)
    (hk : key x = key y) : x = y := by
  have hnodup : (l.map key).Nodup := List.pairwise_map.mpr (hs.imp ne_of_lt)
  exact List.inj_on_of_nodup_map hnodup hx hy hk

theorem mem_insert_subset {x : α} (hx : x ∈ insert lt a l) : x = a ∨ x ∈ l := by
  induction l with
  | nil => exact .inl (List.mem_singleton.mp hx)
  | cons b l ih =>
      rw [insert] at hx
      split at hx
      · exact List.mem_cons.mp hx
      · split at hx
        · rcases List.mem_cons.mp hx with rfl | hx
          · exact .inr List.mem_cons_self
          · exact (ih hx).imp_right (List.mem_cons_of_mem b)
        · exact .inr hx

theorem find_none (h : Compares lt key S) (ha : S a) (hl : ∀ x ∈ l, S x)
    (hne : ∀ x ∈ l, key x ≠ key a) : find lt a l = none := by
  induction l with
  | nil => rfl
  | cons b l ih =>
      have hb := hl b List.mem_cons_self
      rw [find]
      split
      · rfl
      · rename_i hab
        rw [h a b ha hb] at hab
        rw [if_pos ((h b a hb ha).mpr (lt_of_le_of_ne (not_lt.mp hab) (hne b List.mem_cons_self)))]
        exact ih (fun x hx => hl x (List.mem_cons_of_mem b hx))
          fun x hx => hne x (List.mem_cons_of_mem b hx)

theorem insert_perm (h : Compares lt key S) (ha : S a) (hl : ∀ x ∈ l, S x)
    (hne : ∀ x ∈ l, key x ≠ key a) : (insert lt a l).Perm (a :: l) := by
  induction l with
  | nil => exact .refl _
  | cons b l ih =>
      have hb := hl b List.mem_cons_self
      rw [insert]
      split
      · exact .refl _
      · rename_i hab
        rw [h a b ha hb] at hab
        rw [if_pos ((h b a hb ha).mpr (lt_of_le_of_ne (not_lt.mp hab) (hne b List.mem_cons_self)))]
        have hrest := ih (fun x hx => hl x (List.mem_cons_of_mem b hx))
          fun x hx => hne x (List.mem_cons_of_mem b hx)
        exact (hrest.cons b).trans (.swap a b l)

theorem mem_insert (h : Compares lt key S) (ha : S a) (hl : ∀ x ∈ l, S x)
    (hne : ∀ x ∈ l, key x ≠ key a) (x : α) : x ∈ insert lt a l ↔ x = a ∨ x ∈ l := by
  rw [(insert_perm h ha hl hne).mem_iff, List.mem_cons]

theorem Sorted.insert (hs : Sorted key l) (h : Compares lt key S) (ha : S a)
    (hl : ∀ x ∈ l, S x) : Sorted key (insert lt a l) := by
  induction l with
  | nil => exact List.pairwise_singleton _ a
  | cons b l ih =>
      have hb := hl b List.mem_cons_self
      obtain ⟨hhead, htail⟩ := List.pairwise_cons.mp hs
      rw [SortedSet.insert]
      split
      · rename_i hab
        have hlt := (h a b ha hb).mp hab
        refine List.pairwise_cons.mpr ⟨?_, hs⟩
        intro x hx
        rcases List.mem_cons.mp hx with rfl | hx
        · exact hlt
        · exact lt_trans hlt (hhead x hx)
      · split
        · rename_i hba
          refine List.pairwise_cons.mpr ⟨?_, ih htail fun x hx => hl x (List.mem_cons_of_mem b hx)⟩
          intro x hx
          rcases mem_insert_subset hx with rfl | hx
          · exact (h b x hb ha).mp hba
          · exact hhead x hx
        · exact hs

theorem erase_sublist (lt : α → α → Bool) (a : α) (l : List α) : (erase lt a l).Sublist l := by
  induction l with
  | nil => exact List.Sublist.refl _
  | cons b l ih =>
      rw [erase]
      split
      · exact List.Sublist.refl _
      · split
        · exact ih.cons_cons b
        · exact List.sublist_cons_self b l

theorem mem_erase (hs : Sorted key l) (h : Compares lt key S) (hl : ∀ x ∈ l, S x) (ha : a ∈ l)
    (x : α) : x ∈ erase lt a l ↔ x ∈ l ∧ x ≠ a := by
  induction l with
  | nil => cases ha
  | cons b l ih =>
      have hSa := hl a ha
      have hSb := hl b List.mem_cons_self
      obtain ⟨hhead, htail⟩ := List.pairwise_cons.mp hs
      rcases List.mem_cons.mp ha with rfl | hal
      · have hirr : ¬ lt a a = true := fun hlt => lt_irrefl _ ((h a a hSa hSa).mp hlt)
        rw [erase, if_neg hirr, if_neg hirr, List.mem_cons]
        constructor
        · intro hx
          refine ⟨.inr hx, ?_⟩
          rintro rfl
          exact lt_irrefl _ (hhead x hx)
        · rintro ⟨hx, hne⟩
          exact hx.resolve_left hne
      · have hlt := hhead a hal
        have hab : ¬ lt a b = true := fun hlt' => lt_asymm hlt ((h a b hSa hSb).mp hlt')
        rw [erase, if_neg hab, if_pos ((h b a hSb hSa).mpr hlt), List.mem_cons,
          ih htail (fun x hx => hl x (List.mem_cons_of_mem b hx)) hal, List.mem_cons]
        constructor
        · rintro (rfl | hx)
          · refine ⟨.inl rfl, ?_⟩
            rintro rfl
            exact lt_irrefl _ hlt
          · exact ⟨.inr hx.1, hx.2⟩
        · rintro ⟨hx, hne⟩
          exact hx.imp_right fun hx => ⟨hx, hne⟩

/-- An equivalent element is found, and keeps its place. -/
theorem find_key (hs : Sorted key l) (h : Compares lt key S) (ha : S a) (hl : ∀ x ∈ l, S x)
    {b : α} (hb : b ∈ l) (hk : key b = key a) :
    find lt a l = some b ∧ insert lt a l = l := by
  induction l with
  | nil => cases hb
  | cons x l ih =>
      have hx := hl x List.mem_cons_self
      obtain ⟨hhead, htail⟩ := List.pairwise_cons.mp hs
      rcases List.mem_cons.mp hb with rfl | hbl
      · have hab : ¬ lt a b = true := fun hlt => hk.not_gt ((h a b ha hx).mp hlt)
        have hba : ¬ lt b a = true := fun hlt => hk.not_lt ((h b a hx ha).mp hlt)
        rw [find, insert, if_neg hab, if_neg hba, if_neg hab, if_neg hba]
        exact ⟨rfl, rfl⟩
      · have hlt : key x < key a := hk ▸ hhead b hbl
        have hax : ¬ lt a x = true := fun hlt' => lt_asymm hlt ((h a x ha hx).mp hlt')
        obtain ⟨hfind, hinsert⟩ := ih htail (fun y hy => hl y (List.mem_cons_of_mem x hy)) hbl
        rw [find, insert, if_neg hax, if_pos ((h x a hx ha).mpr hlt), if_neg hax,
          if_pos ((h x a hx ha).mpr hlt), hfind, hinsert]
        exact ⟨rfl, rfl⟩

/-- A property that goes down the order marks out a front part. -/
theorem takeWhile_eq_filter {r : α → Bool} (h : l.Pairwise fun x y => r y = true → r x = true) :
    l.takeWhile r = l.filter r := by
  induction l with
  | nil => rfl
  | cons b l ih =>
      obtain ⟨hhead, htail⟩ := List.pairwise_cons.mp h
      by_cases hb : r b = true
      · rw [List.takeWhile_cons_of_pos hb, List.filter_cons_of_pos hb, ih htail]
      · rw [List.takeWhile_cons_of_neg hb, List.filter_cons_of_neg hb]
        apply (List.filter_eq_nil_iff.mpr _).symm
        intro x hx hrx
        exact hb (hhead x hx hrx)

theorem takeWhile_congr {q r : α → Bool} (h : ∀ x ∈ l, q x = r x) :
    l.takeWhile q = l.takeWhile r := by
  induction l with
  | nil => rfl
  | cons b l ih =>
      rw [List.takeWhile_cons, List.takeWhile_cons, h b List.mem_cons_self,
        ih fun x hx => h x (List.mem_cons_of_mem b hx)]

/-- Two front parts after each other. -/
theorem takeWhile_append {p q r : α → Bool} (hp : l.Pairwise fun x y => p y = true → p x = true)
    (hr : ∀ x ∈ l, r x = (p x || q x)) :
    l.takeWhile p ++ (l.dropWhile p).takeWhile q = l.takeWhile r := by
  induction l with
  | nil => rfl
  | cons b l ih =>
      obtain ⟨hhead, htail⟩ := List.pairwise_cons.mp hp
      have hb := hr b List.mem_cons_self
      have hl : ∀ x ∈ l, r x = (p x || q x) := fun x hx => hr x (List.mem_cons_of_mem b hx)
      by_cases hpb : p b = true
      · rw [List.takeWhile_cons_of_pos hpb, List.dropWhile_cons_of_pos hpb,
          List.takeWhile_cons_of_pos (by rw [hb, hpb]; rfl), List.cons_append, ih htail hl]
      · have hnone : ∀ x ∈ b :: l, q x = r x := by
          intro x hx
          have hpx : p x = false := by
            rcases List.mem_cons.mp hx with rfl | hxl
            · exact Bool.eq_false_iff.mpr hpb
            · exact Bool.eq_false_iff.mpr fun he => hpb (hhead x hxl he)
          rw [hr x hx, hpx, Bool.false_or]
        rw [List.takeWhile_cons_of_neg hpb, List.dropWhile_cons_of_neg hpb, List.nil_append]
        exact takeWhile_congr hnone

end SortedSet
