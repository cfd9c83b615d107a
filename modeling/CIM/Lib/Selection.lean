import Mathlib.Algebra.Order.BigOperators.Group.List
import Mathlib.Algebra.Order.Ring.Nat
import Mathlib.Data.List.Rotate
import Mathlib.Order.Interval.Finset.Nat

/-!
# Selection by weight

The parts of a weighted choice: the search by halving for the place where a predicate turns true,
the slots that consecutive weights cut out of a range of numbers, and the first element in cyclic
order that meets a condition.
-/
namespace Selection

/-- Halves the `len` places from `first` on until the first one with `p` is left. -/
def bisect (p : Nat → Bool) (first len : Nat) : Nat :=
  if len = 0 then first
  else if p (first + len / 2) then bisect p first (len / 2)
  else bisect p (first + len / 2 + 1) (len - len / 2 - 1)
termination_by len
decreasing_by all_goals omega

/-- The search finds the place where the predicate turns. -/
theorem bisect_eq {p : Nat → Bool} {r first len : Nat} (hfirst : first ≤ r)
    (hr : r ≤ first + len) (hbelow : ∀ i, i < r → p i = false) (habove : ∀ i, r ≤ i → p i = true) :
    bisect p first len = r := by
  induction len using Nat.strongRecOn generalizing first with
  | ind len ih =>
      rw [bisect]
      by_cases hz : len = 0
      · rw [if_pos hz]
        omega
      · rw [if_neg hz]
        by_cases hp : p (first + len / 2) = true
        · have hge : r ≤ first + len / 2 := by
            by_contra hlt
            rw [hbelow _ (Nat.lt_of_not_le hlt)] at hp
            cases hp
          rw [if_pos hp]
          exact ih (len / 2) (by omega) hfirst hge
        · have hlt : first + len / 2 < r := by
            by_contra hge
            exact hp (habove _ (Nat.le_of_not_lt hge))
          rw [if_neg hp]
          exact ih (len - len / 2 - 1) (by omega) (by omega) (by omega)

/-- Where the slot of the `i`-th weight starts. -/
def start (ws : List Nat) (i : Nat) : Nat := (ws.take i).sum

theorem start_succ {ws : List Nat} {i : Nat} (hi : i < ws.length) :
    start ws (i + 1) = start ws i + ws[i] := by
  rw [start, List.take_succ_eq_append_getElem hi, List.sum_append, List.sum_singleton, start]

theorem start_mono (ws : List Nat) {i j : Nat} (h : i ≤ j) : start ws i ≤ start ws j := by
  induction h with
  | refl => exact Nat.le_refl _
  | @step j _ ih =>
      by_cases hj : j < ws.length
      · rw [Nat.succ_eq_add_one, start_succ hj]
        omega
      · have hsame : start ws (j + 1) = start ws j := by
          rw [start, start, List.take_of_length_le (by omega), List.take_of_length_le (by omega)]
        exact hsame ▸ ih

theorem start_length (ws : List Nat) : start ws ws.length = ws.sum := by
  rw [start, List.take_length]

/-- Positive weights take one number each at least. -/
theorem start_ge {ws : List Nat} (hpos : ∀ w ∈ ws, 0 < w) {i : Nat} (hi : i ≤ ws.length) :
    i ≤ start ws i := by
  induction i with
  | zero => exact Nat.zero_le _
  | succ i ih =>
      have hw := hpos ws[i] (List.getElem_mem hi)
      have hle := ih (Nat.le_of_succ_le hi)
      rw [start_succ hi]
      omega

theorem start_le {ws : List Nat} {bound : Nat} (hw : ∀ w ∈ ws, w ≤ bound) (i : Nat) :
    start ws i ≤ i * bound := by
  have hsum := List.sum_le_card_nsmul (ws.take i) bound fun w hm => hw w (List.mem_of_mem_take hm)
  rw [Nat.nsmul_eq_mul, List.length_take] at hsum
  exact Nat.le_trans hsum (Nat.mul_le_mul_right _ (Nat.min_le_left _ _))

/-- Every number below the sum is in a slot. -/
theorem exists_slot {ws : List Nat} {d : Nat} (hd : d < ws.sum) :
    ∃ i, i < ws.length ∧ start ws i ≤ d ∧ d < start ws (i + 1) := by
  by_contra hnone
  have hall : ∀ i, i ≤ ws.length → start ws i ≤ d := by
    intro i
    induction i with
    | zero => exact fun _ => Nat.zero_le _
    | succ i ih =>
        intro hi
        by_contra hlt
        exact hnone ⟨i, hi, ih (Nat.le_of_succ_le hi), Nat.lt_of_not_le hlt⟩
  have hlast := hall ws.length (Nat.le_refl _)
  rw [start_length] at hlast
  omega

theorem slot_unique {ws : List Nat} {i j d : Nat} (hi : start ws i ≤ d) (hi' : d < start ws (i + 1))
    (hj : start ws j ≤ d) (hj' : d < start ws (j + 1)) : i = j := by
  rcases Nat.lt_trichotomy i j with hlt | heq | hgt
  · have h := start_mono ws (Nat.succ_le_of_lt hlt)
    exact absurd (Nat.lt_of_lt_of_le hi' h) (Nat.not_lt.mpr hj)
  · exact heq
  · have h := start_mono ws (Nat.succ_le_of_lt hgt)
    exact absurd (Nat.lt_of_lt_of_le hj' h) (Nat.not_lt.mpr hi)

/-- A slot holds as many numbers as its weight says. -/
theorem card_slot {ws : List Nat} {i : Nat} (hi : i < ws.length) :
    ((Finset.range ws.sum).filter fun d => start ws i ≤ d ∧ d < start ws (i + 1)).card = ws[i] := by
  have hle : start ws (i + 1) ≤ ws.sum := start_length ws ▸ start_mono ws hi
  have hslot : ((Finset.range ws.sum).filter fun d => start ws i ≤ d ∧ d < start ws (i + 1)) =
      Finset.Ico (start ws i) (start ws (i + 1)) := by
    ext d
    simp only [Finset.mem_filter, Finset.mem_range, Finset.mem_Ico]
    omega
  rw [hslot, Nat.card_Ico, start_succ hi, Nat.add_sub_cancel_left]

/-- A walk around the list from the place `i` on, up to the first element that is good. -/
theorem walk_rotate {α : Type*} (good : α → Bool) (xs : List α) (i : Nat) {place : Nat → Nat}
    (hplace : ∀ k, k < xs.length → place k = (i + k) % xs.length) :
    ((List.range xs.length).findSome? fun k => (xs[place k]?).filter good) =
      (xs.rotate i).find? good := by
  have hrotate : (List.range xs.length).map (fun k => xs[place k]?) = (xs.rotate i).map some := by
    apply List.ext_getElem
    · simp
    · intro k hk hk'
      have hlt : k < xs.length := by simpa using hk
      have hmod : (i + k) % xs.length < xs.length := Nat.mod_lt _ (Nat.zero_lt_of_lt hlt)
      simp only [List.getElem_map, List.getElem_range, List.getElem_rotate, Nat.add_comm k i,
        hplace k hlt, List.getElem?_eq_getElem hmod]
  have hfind : ∀ ys : List α, (ys.map some).findSome? (Option.filter good) = ys.find? good := by
    intro ys
    induction ys with
    | nil => rfl
    | cons y ys ih =>
        cases hy : good y with
        | true => simp [Option.filter, hy]
        | false => simp [Option.filter, hy, ih]
  rw [← hfind, ← hrotate, List.findSome?_map]
  rfl

end Selection
