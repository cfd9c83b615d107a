import Mathlib.Data.List.Basic
import Mathlib.Tactic.Common

/-!
# Overwriting a stretch of a list

`patch xs i src` stores `src` at positions `i, i+1, …` of `xs` and never changes the length:
what would fall behind the end of `xs` is dropped. `slice` is the reading counterpart. Both
are cut at a block boundary by `patch_append` and `slice_append`, the only facts a loop over
the blocks of a chained buffer needs.
-/
namespace Patch

variable {α : Type*}

def patch : List α → Nat → List α → List α
  | [], _, _ => []
  | x :: xs, i+1, src => x :: patch xs i src
  | x :: xs, 0, [] => x :: xs
  | _ :: xs, 0, s :: src => s :: patch xs 0 src

def slice (xs : List α) (i n : Nat) : List α := (xs.drop i).take n

theorem cons_patch_succ (x : α) (xs : List α) (i : Nat) (src : List α) :
    patch (x :: xs) (i + 1) src = x :: patch xs i src := rfl

theorem cons_patch_cons (x s : α) (xs src : List α) :
    patch (x :: xs) 0 (s :: src) = s :: patch xs 0 src := rfl

@[simp] theorem length_patch (xs : List α) (i : Nat) (src : List α) :
    (patch xs i src).length = xs.length := by
  induction xs, i, src using patch.induct with
  | case1 i src => rfl
  | case2 x xs i src ih => simp only [cons_patch_succ, List.length_cons, ih]
  | case3 x xs => rfl
  | case4 x xs s src ih => simp only [cons_patch_cons, List.length_cons, ih]

@[simp] theorem patch_nil (xs : List α) (i : Nat) : patch xs i [] = xs := by
  induction xs generalizing i with
  | nil => rfl
  | cons x xs ih =>
      cases i with
      | zero => rfl
      | succ i => rw [cons_patch_succ, ih]

@[simp] theorem length_slice (xs : List α) (i n : Nat) :
    (slice xs i n).length = min n (xs.length - i) := by
  simp [slice]

@[simp] theorem slice_zero (xs : List α) (i : Nat) : slice xs i 0 = [] := by
  simp [slice]

theorem patch_eq {xs src : List α} {i : Nat} (h : i + src.length ≤ xs.length) :
    patch xs i src = xs.take i ++ src ++ xs.drop (i + src.length) := by
  induction xs, i, src using patch.induct with
  | case1 i src => simp at h; simp [h]
  | case2 x xs i src ih =>
      have h' : i + src.length ≤ xs.length := by simp at h; omega
      simp [cons_patch_succ, ih h', Nat.succ_add]
  | case3 x xs => simp
  | case4 x xs s src ih =>
      have h' : 0 + src.length ≤ xs.length := by simp at h; omega
      simp [cons_patch_cons, ih h']

/-- A store that starts inside the first block splits at the block's end. -/
theorem patch_append {a b : List α} {i : Nat} (src : List α) (h : i ≤ a.length) :
    patch (a ++ b) i src =
      patch a i (src.take (a.length - i)) ++ patch b 0 (src.drop (a.length - i)) := by
  induction a, i, src using patch.induct with
  | case1 i src =>
      obtain rfl : i = 0 := by simpa using h
      simp
  | case2 x a i src ih => simp [cons_patch_succ, ih (by simpa using h)]
  | case3 x a => simp
  | case4 x a s src ih => simp [cons_patch_cons, ih (Nat.zero_le _)]

/-- A read that starts inside the first block splits at the block's end. -/
theorem slice_append {a b : List α} {i : Nat} (n : Nat) (h : i ≤ a.length) :
    slice (a ++ b) i n = slice a i n ++ slice b 0 (n - (a.length - i)) := by
  simp only [slice, List.drop_append_of_le_length h, List.take_append, List.length_drop,
    List.drop_zero]

theorem slice_of_le {a b : List α} {i n : Nat} (h : i + n ≤ a.length) :
    slice (a ++ b) i n = slice a i n := by
  rw [slice_append n (by omega), Nat.sub_eq_zero_of_le (by omega), slice_zero, List.append_nil]

theorem patch_of_le {a b src : List α} {i : Nat} (h : i + src.length ≤ a.length) :
    patch (a ++ b) i src = patch a i src ++ b := by
  rw [patch_append src (by omega), List.take_of_length_le (by omega),
    List.drop_eq_nil_of_le (by omega), patch_nil]

theorem patch_skip {a b : List α} (i : Nat) (src : List α) :
    patch (a ++ b) (a.length + i) src = a ++ patch b i src := by
  induction a with
  | nil => simp
  | cons x a ih =>
      have he : (x :: a).length + i = (a.length + i) + 1 := by simp only [List.length_cons]; omega
      rw [he]
      exact congrArg (x :: ·) ih

theorem slice_skip (a b : List α) (i n : Nat) : slice (a ++ b) (a.length + i) n = slice b i n := by
  simp [slice]

/-- What is read at the place of a store is what was stored. -/
theorem slice_patch_self {xs src : List α} {i : Nat} (h : i + src.length ≤ xs.length) :
    slice (patch xs i src) i src.length = src := by
  have hlen : (xs.take i).length = i := List.length_take_of_le (by omega)
  rw [patch_eq h, List.append_assoc]
  have hskip := slice_skip (xs.take i) (src ++ xs.drop (i + src.length)) 0 src.length
  rw [Nat.add_zero, hlen] at hskip
  rw [hskip, slice_of_le (Nat.le_of_eq (Nat.zero_add _)), slice, List.drop_zero, List.take_length]

theorem getElem?_patch {xs src : List α} {i m : Nat} (h : m < i ∨ i + src.length ≤ m) :
    (patch xs i src)[m]? = xs[m]? := by
  induction xs, i, src using patch.induct generalizing m with
  | case1 i src => rfl
  | case2 x xs i src ih =>
      cases m with
      | zero => rfl
      | succ m => exact ih (by omega)
  | case3 x xs => rfl
  | case4 x xs s src ih =>
      cases m with
      | zero => simp only [List.length_cons] at h; omega
      | succ m => exact ih (by simp only [List.length_cons] at h; omega)

/-- What is read beside a store is not changed by it. -/
theorem slice_patch_beside {xs src : List α} {i j n : Nat}
    (h : j + n ≤ i ∨ i + src.length ≤ j) : slice (patch xs i src) j n = slice xs j n := by
  apply List.ext_getElem?
  intro m
  unfold slice
  rw [List.getElem?_take, List.getElem?_take, List.getElem?_drop, List.getElem?_drop]
  by_cases hm : m < n
  · rw [if_pos hm, if_pos hm, getElem?_patch (by omega)]
  · rw [if_neg hm, if_neg hm]

end Patch
