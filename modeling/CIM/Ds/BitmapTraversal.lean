import Mathlib.Data.List.Chain
import CIM.Ds.BitmapIterators

/-!
# All traversals

They go through the words as they are, of a compressed bitmap as well: it is traversed as it should
be only if compression left every word in its place.
-/
namespace CIM.ds.Bitmap

open Transition

variable {b : Bitmap} {v : Bool} {w : UInt16} {k n size : Nat} {ws data raw : List UInt16}

theorem runWords_length (fuel : Nat) : (runWords v fuel n).length ≤ n := by
  induction fuel generalizing n with
  | zero => exact Nat.zero_le n
  | succ fuel ih =>
      unfold runWords
      by_cases hn : n = 0
      · rw [if_pos hn]
        exact Nat.zero_le n
      · have hle := ih (n := n / 16384)
        rw [if_neg hn, List.length_cons]
        omega

/-- The words of a run are fewer than those it stands for. -/
theorem runWords_shorter (hn : 1 < n) : (runWords v 5 (14 * n)).length + 1 ≤ n := by
  have hle := runWords_length (v := v) (n := 14 * n / 16384) 4
  rw [runWords, if_neg (by omega), List.length_cons]
  omega

theorem digits_zero {fuel : Nat} (hfuel : n < 16384 ^ fuel)
    (h : ∀ w ∈ runWords v fuel n, bits w = 0) : n = 0 := by
  induction fuel generalizing n with
  | zero => exact Nat.lt_one_iff.mp hfuel
  | succ fuel ih =>
      by_contra hn
      unfold runWords at h
      rw [if_neg hn] at h
      have hdigit := h _ List.mem_cons_self
      have hrest := ih (n := n / 16384) (by
        rw [Nat.pow_succ] at hfuel
        exact Nat.div_lt_of_lt_mul (by omega)) fun w hw => h w (List.mem_cons_of_mem _ hw)
      have hlow : n % 16384 = 0 := by
        rw [← runWord_count v n]
        exact congrArg UInt16.toNat hdigit
      omega

/-- The words of a run are not those of fourteen bits that it stands for. -/
theorem runWords_differ (hn : 1 < n) (hsize : 14 * n < 4294967310)
    (h : ∀ w ∈ runWords v 5 (14 * n), bits w = uniform v) : False := by
  cases v with
  | false =>
      have hzero := digits_zero (v := false) (by omega) h
      omega
  | true =>
      have hfirst : runWord true (14 * n) ∈ runWords true 5 (14 * n) := by
        rw [runWords, if_neg (by omega)]
        exact List.mem_cons_self
      have hones : 14 * n % 16384 = 16383 := by
        rw [← runWord_count true (14 * n)]
        exact congrArg UInt16.toNat (h _ hfirst)
      omega

/-- The compressed words are those of the bitmap, wherever not the last of these is meant. -/
def Agrees (raw words : List UInt16) : Prop :=
  ∀ i, i < raw.length → i + 1 < words.length → bits (raw.getD i 0) = words.getD i 0

theorem Agrees.drop {l m words : List UInt16} (h : Agrees (l ++ raw) (m ++ words))
    (hlen : l.length = m.length) : Agrees raw words := by
  intro i hi hiw
  have hall := h (l.length + i) (by rw [List.length_append]; omega)
    (by rw [List.length_append]; omega)
  rw [List.getD_append_right _ _ _ _ (Nat.le_add_right _ _), Nat.add_sub_cancel_left, hlen,
    List.getD_append_right _ _ _ _ (Nat.le_add_right _ _), Nat.add_sub_cancel_left] at hall
  exact hall

/-- A run that was written is no run of one word. -/
theorem Agrees.short {rest words : List UInt16} (hsize : 14 * n < 4294967310)
    (h : Agrees (flush v (14 * n) ++ rest) (List.replicate n (uniform v) ++ words)) : n ≤ 1 := by
  by_contra hn
  have hn : 1 < n := Nat.not_le.mp hn
  have hdiv : 14 * n / VALUE_SIZE = n := Nat.mul_div_cancel_left _ (by decide)
  have hshort := runWords_shorter (v := v) hn
  unfold flush at h
  rw [hdiv, if_pos hn] at h
  refine runWords_differ (v := v) hn hsize fun w hw => ?_
  obtain ⟨i, hi, rfl⟩ := List.getElem_of_mem hw
  have hword := h i (by rw [List.length_append]; omega)
    (by rw [List.length_append, List.length_replicate]; omega)
  rw [List.getD_append _ _ _ _ hi, List.getD_eq_getElem _ _ hi,
    List.getD_append _ _ _ _ (by rw [List.length_replicate]; omega),
    List.getD_replicate _ (by omega)] at hword
  exact hword

variable {s : Bitmaps} {i : Nat}

end CIM.ds.Bitmap
