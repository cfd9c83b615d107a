import Mathlib.Data.List.Basic
import Mathlib.Tactic.Common

/-!
# Escaping for JSON

`JsonUtil::NeedEscape` and `JsonUtil::Escape`. The buffer is resized to what it should hold, and the
text is appended behind that.
-/
namespace CIM.JsonUtil

/-- The letter behind the backslash: the cases of the three switches. -/
def letter : UInt8 → Option UInt8
  | 12 => some 102
  | 9 => some 116
  | 13 => some 114
  | 10 => some 110
  | 8 => some 98
  | 34 => some 34
  | 92 => some 92
  | _ => none

def NeedEscape : List UInt8 → Bool
  | [] => false
  | c :: v => if (letter c).isSome then true else NeedEscape v

/-- The first pass of `Escape`. -/
def size (v : List UInt8) : Nat :=
  v.foldl (fun size c => size + if (letter c).isSome then 2 else 1) 0

/-- What a byte is appended as. -/
def piece (c : UInt8) : List UInt8 :=
  match letter c with
  | some l => [92, l]
  | none => [c]

def Escape (v : List UInt8) : List UInt8 :=
  if size v = v.length then v
  else v.foldl (fun rt c => rt ++ piece c) (List.replicate (size v) 0)

/-! ## What it should be -/

/-- Every byte in its place. -/
def escaped (v : List UInt8) : List UInt8 := v.flatMap piece

/-- The byte that a letter behind a backslash stands for. -/
def unletter : UInt8 → UInt8
  | 102 => 12
  | 116 => 9
  | 114 => 13
  | 110 => 10
  | 98 => 8
  | l => l

def unescape : List UInt8 → List UInt8
  | [] => []
  | [c] => [c]
  | c :: l :: v => if c = 92 then unletter l :: unescape v else c :: unescape (l :: v)

structure Escapes (v : List UInt8) : Prop where
  replaced : Escape v = escaped v
  undone : unescape (Escape v) = v
  injective : ∀ w, Escape w = Escape v → w = v
  needed : NeedEscape v = true ↔ Escape v ≠ v

theorem letter_cases {c l : UInt8} (h : letter c = some l) : unletter l = c := by
  unfold letter at h
  split at h <;> cases h <;> rfl

theorem unescape_piece (c : UInt8) (v : List UInt8) :
    unescape (piece c ++ v) = c :: unescape v := by
  rw [piece]
  cases h : letter c with
  | some l =>
      change unescape (92 :: l :: v) = _
      rw [unescape, if_pos rfl, letter_cases h]
  | none =>
      have hc : c ≠ 92 := by
        rintro rfl
        cases h
      cases v with
      | nil => rfl
      | cons d v =>
          change unescape (c :: d :: v) = _
          rw [unescape, if_neg hc]

theorem unescape_escaped (v : List UInt8) : unescape (escaped v) = v := by
  induction v with
  | nil => rfl
  | cons c v ih =>
      rw [escaped, List.flatMap_cons, unescape_piece]
      exact congrArg (c :: ·) ih

theorem escaped_cons (c : UInt8) (v : List UInt8) : escaped (c :: v) = piece c ++ escaped v :=
  List.flatMap_cons

theorem length_piece (c : UInt8) :
    (piece c).length = if (letter c).isSome then 2 else 1 := by
  rw [piece]
  cases letter c <;> rfl

/-- The first pass counts what the second one appends. -/
theorem size_eq (v : List UInt8) : size v = (escaped v).length := by
  have hpass : ∀ n, v.foldl (fun size c => size + if (letter c).isSome then 2 else 1) n =
      n + (escaped v).length := by
    induction v with
    | nil => exact fun n => rfl
    | cons c v ih =>
        intro n
        rw [List.foldl_cons, ih, escaped_cons, List.length_append, length_piece]
        omega
  rw [size, hpass, Nat.zero_add]

theorem escaped_of_needless {v : List UInt8} (h : NeedEscape v = false) : escaped v = v := by
  induction v with
  | nil => rfl
  | cons c v ih =>
      rw [NeedEscape] at h
      split at h
      · cases h
      · rename_i hc
        rw [Option.not_isSome_iff_eq_none] at hc
        rw [escaped_cons, ih h, piece, hc]
        rfl

theorem length_lt_of_needed {v : List UInt8} (h : NeedEscape v = true) :
    v.length < (escaped v).length := by
  have hle : ∀ w : List UInt8, w.length ≤ (escaped w).length := by
    intro w
    induction w with
    | nil => exact Nat.le_refl 0
    | cons c w ih =>
        rw [escaped_cons, List.length_append, List.length_cons, length_piece]
        split <;> omega
  induction v with
  | nil => cases h
  | cons c v ih =>
      rw [escaped_cons, List.length_append, List.length_cons, length_piece]
      rw [NeedEscape] at h
      split at h
      · have hv := hle v
        rw [if_pos ‹_›]
        omega
      · have hv := ih h
        rw [if_neg ‹_›]
        omega

/-- Where something is escaped, as many null bytes come before the text. -/
theorem escape_eq (v : List UInt8) : Escape v =
    if NeedEscape v then List.replicate (escaped v).length 0 ++ escaped v else v := by
  have hpass : ∀ rt, v.foldl (fun rt c => rt ++ piece c) rt = rt ++ escaped v := by
    induction v with
    | nil => exact fun rt => (List.append_nil rt).symm
    | cons c v ih =>
        intro rt
        rw [List.foldl_cons, ih, escaped_cons, List.append_assoc]
  rw [Escape, size_eq, hpass]
  cases h : NeedEscape v with
  | false => rw [if_pos (by rw [escaped_of_needless h]), if_neg Bool.false_ne_true]
  | true => rw [if_neg (Nat.ne_of_gt (length_lt_of_needed h)), if_pos rfl]

theorem needed_iff (v : List UInt8) : NeedEscape v = true ↔ Escape v ≠ v := by
  rw [escape_eq]
  cases h : NeedEscape v with
  | false => simp
  | true =>
      refine iff_of_true rfl fun heq => ?_
      have hlt := length_lt_of_needed h
      have hlen := congrArg List.length heq
      rw [if_pos rfl, List.length_append, List.length_replicate] at hlen
      omega

/-- A byte that is escaped leaves a backslash, which is escaped itself. -/
theorem needed_of_suffix {v w : List UInt8} (h : NeedEscape v = true) :
    NeedEscape (w ++ escaped v) = true := by
  have hmem : ∀ u : List UInt8, 92 ∈ u → NeedEscape u = true := by
    intro u hu
    induction u with
    | nil => cases hu
    | cons c u ih =>
        rw [NeedEscape]
        rcases List.mem_cons.mp hu with rfl | hu
        · rfl
        · rw [ih hu, ite_self]
  refine hmem _ (List.mem_append_right _ ?_)
  induction v with
  | nil => cases h
  | cons c v ih =>
      rw [escaped_cons]
      rw [NeedEscape] at h
      split at h
      · rename_i hc
        obtain ⟨l, hl⟩ := Option.isSome_iff_exists.mp hc
        rw [piece, hl]
        exact List.mem_append_left _ List.mem_cons_self
      · exact List.mem_append_right _ (ih h)

theorem needed_escape (v : List UInt8) : NeedEscape (Escape v) = NeedEscape v := by
  rw [escape_eq]
  cases h : NeedEscape v with
  | false => rw [if_neg Bool.false_ne_true, h]
  | true => rw [if_pos rfl, needed_of_suffix h]

theorem escape_injective {v w : List UInt8} (h : Escape w = Escape v) : w = v := by
  have hneed : NeedEscape w = NeedEscape v := by rw [← needed_escape w, h, needed_escape]
  rw [escape_eq, escape_eq, hneed] at h
  cases hv : NeedEscape v with
  | false => rwa [hv, if_neg Bool.false_ne_true, if_neg Bool.false_ne_true] at h
  | true =>
      rw [hv, if_pos rfl, if_pos rfl] at h
      have hlen := congrArg List.length h
      simp only [List.length_append, List.length_replicate] at hlen
      have heq : (escaped w).length = (escaped v).length := by omega
      rw [heq] at h
      rw [← unescape_escaped w, List.append_cancel_left h, unescape_escaped]

/-- `Escape` is right on what it does not change. -/
theorem escapes_iff (v : List UInt8) : Escapes v ↔ NeedEscape v = false := by
  constructor
  · intro h
    by_contra hneed
    rw [Bool.not_eq_false] at hneed
    have hlen := congrArg List.length h.replaced
    have hlt := length_lt_of_needed hneed
    rw [escape_eq, if_pos hneed, List.length_append, List.length_replicate] at hlen
    omega
  · intro h
    have hsame : Escape v = v := by rw [escape_eq, h, if_neg Bool.false_ne_true]
    have hplain : escaped v = v := escaped_of_needless h
    refine ⟨hsame.trans hplain.symm, ?_, fun w => escape_injective, needed_iff v⟩
    rw [hsame, ← congrArg unescape hplain, unescape_escaped]

/-- A quotation mark comes out behind two null bytes. -/
theorem escape_quote : Escape [34] = [0, 0, 92, 34] ∧ ¬ Escapes [34] :=
  ⟨rfl, fun h => absurd h.replaced (by decide)⟩

end CIM.JsonUtil
