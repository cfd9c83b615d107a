import Mathlib.Data.List.Basic
import Mathlib.Tactic.Common
import CIM.Lib.Place

/-!
# Replacing and splitting

`replace` and `split` of strings. Both go on from a place in the text; `replace` writes to the text
it searches.
-/
namespace CIM.HashUtil

/-- The first place at which `sub` begins. -/
def search (sub : List UInt8) : List UInt8 → Option Nat
  | [] => if sub.isEmpty then some 0 else none
  | c :: s => if sub.isPrefixOf (c :: s) then some 0 else (search sub s).map (· + 1)

/-- `str.find(sub, pos)`; none is `npos`. -/
def find (str sub : List UInt8) (pos : Nat) : Option Nat :=
  if pos ≤ str.length then (search sub (str.drop pos)).map (pos + ·) else none

/-- The loop of `replace`; none where the turns did not suffice. -/
def replaceLoop (sub replaceWith : List UInt8) :
    Nat → List UInt8 → Option Nat → Option (List UInt8)
  | _, str, none => some str
  | 0, _, some _ => none
  | turns + 1, str, some index =>
      let str := str.take index ++ replaceWith ++ str.drop (index + sub.length)
      replaceLoop sub replaceWith turns str (find str sub (index + replaceWith.length))

def replace (turns : Nat) (str sub replaceWith : List UInt8) : Option (List UInt8) :=
  replaceLoop sub replaceWith turns str (find str sub 0)

/-- Every occurrence from left to right, none that overlaps the one before; the text itself where
nothing is searched for. -/
def replaceAll (sub replaceWith : List UInt8) : List UInt8 → List UInt8
  | [] => []
  | c :: s =>
      if sub ≠ [] ∧ sub.isPrefixOf (c :: s) then
        replaceWith ++ replaceAll sub replaceWith ((c :: s).drop sub.length)
      else c :: replaceAll sub replaceWith s
  termination_by s => s.length
  decreasing_by
    · rename_i h
      have := List.length_pos_of_ne_nil h.1
      simp only [List.length_drop, List.length_cons]
      omega
    · simp

/-- `replace` returns, and what it should. -/
def Replaces (str sub replaceWith : List UInt8) : Prop :=
  ∃ turns, replace turns str sub replaceWith = some (replaceAll sub replaceWith str)

variable {sub rep : List UInt8}

theorem replaceAll_nil : replaceAll sub rep [] = [] := by
  rw [replaceAll]

theorem replaceAll_here {c : UInt8} {s post : List UInt8} (hsub : sub ≠ [])
    (h : sub ++ post = c :: s) :
    replaceAll sub rep (c :: s) = rep ++ replaceAll sub rep post := by
  rw [replaceAll, if_pos ⟨hsub, List.isPrefixOf_iff_prefix.mpr ⟨post, h⟩⟩, ← h, List.drop_left]

theorem replaceAll_behind {c : UInt8} {s : List UInt8} (h : ¬ sub.isPrefixOf (c :: s) = true) :
    replaceAll sub rep (c :: s) = c :: replaceAll sub rep s := by
  rw [replaceAll, if_neg (fun hb => h hb.2)]

theorem search_none {s : List UInt8} (h : search sub s = none) : replaceAll sub rep s = s := by
  induction s with
  | nil => exact replaceAll_nil
  | cons c s ih =>
      rw [search] at h
      split at h
      · cases h
      · rename_i hp
        rw [replaceAll_behind hp, ih (Option.map_eq_none_iff.mp h)]

/-- What is found is the first occurrence. -/
theorem search_some {s : List UInt8} {j : Nat} (hsub : sub ≠ []) (h : search sub s = some j) :
    ∃ pre post, s = pre ++ sub ++ post ∧ pre.length = j ∧
      ∀ rep, replaceAll sub rep s = pre ++ rep ++ replaceAll sub rep post := by
  induction s generalizing j with
  | nil =>
      rw [search, if_neg (by simpa using hsub)] at h
      cases h
  | cons c s ih =>
      rw [search] at h
      split at h
      · rename_i hp
        obtain ⟨post, hpost⟩ := List.isPrefixOf_iff_prefix.mp hp
        exact ⟨[], post, hpost.symm, Option.some.inj h, fun rep => replaceAll_here hsub hpost⟩
      · rename_i hp
        obtain ⟨i, hi, rfl⟩ := Option.map_eq_some_iff.mp h
        obtain ⟨pre, post, rfl, rfl, hrest⟩ := ih hi
        refine ⟨c :: pre, post, rfl, rfl, fun rep => ?_⟩
        rw [replaceAll_behind hp, hrest]
        rfl

theorem find_append (done rest sub : List UInt8) :
    find (done ++ rest) sub done.length = (search sub rest).map (done.length + ·) := by
  rw [find, if_pos (by simp), List.drop_left]

/-- What is done is not searched again, so each turn leaves less. -/
theorem replaceLoop_eq (hsub : sub ≠ []) (turns : Nat) : ∀ done rest : List UInt8,
    rest.length ≤ turns →
    replaceLoop sub rep turns (done ++ rest) (find (done ++ rest) sub done.length) =
      some (done ++ replaceAll sub rep rest) := by
  induction turns with
  | zero =>
      intro done rest hlen
      obtain rfl := List.eq_nil_of_length_eq_zero (Nat.le_zero.mp hlen)
      rw [find_append, search, if_neg (by simpa using hsub), replaceAll_nil]
      rfl
  | succ turns ih =>
      intro done rest hlen
      rw [find_append]
      cases hs : search sub rest with
      | none => rw [search_none hs]; rfl
      | some j =>
          obtain ⟨pre, post, rfl, rfl, hrep⟩ := search_some hsub hs
          have hpos := List.length_pos_of_ne_nil hsub
          have htake : (done ++ (pre ++ sub ++ post)).take (done.length + pre.length) =
              done ++ pre := by
            rw [List.append_assoc pre, ← List.append_assoc, ← List.length_append, List.take_left]
          have hdrop : (done ++ (pre ++ sub ++ post)).drop
              (done.length + pre.length + sub.length) = post := by
            rw [← List.append_assoc, ← List.append_assoc, ← List.length_append,
              ← List.length_append, List.drop_left]
          have hnext := ih (done ++ pre ++ rep) post (by
            simp only [List.length_append] at hlen
            omega)
          rw [List.length_append, List.length_append] at hnext
          rw [Option.map_some, replaceLoop, htake, hdrop, hnext, hrep]
          simp only [List.append_assoc]

/-- The empty text is found at every place, so the loop always has a next turn. -/
theorem replaceLoop_empty (rep : List UInt8) (turns : Nat) : ∀ (str : List UInt8) (index : Nat),
    index ≤ str.length → replaceLoop [] rep turns str (some index) = none := by
  induction turns with
  | zero => exact fun _ _ _ => rfl
  | succ turns ih =>
      intro str index hle
      have hfound : ∀ s : List UInt8, search [] s = some 0 := by
        intro s
        cases s <;> rfl
      have hin : index + rep.length ≤ (str.take index ++ rep ++ str.drop index).length := by
        simp only [List.length_append, List.length_take]
        omega
      simp only [replaceLoop, List.length_nil, Nat.add_zero, find, if_pos hin, hfound,
        Option.map_some]
      exact ih _ _ hin

/-- `replace` does its work for every text and every replacement, except that it never returns
where the empty text is replaced. -/
theorem replaces_iff (str sub replaceWith : List UInt8) :
    Replaces str sub replaceWith ↔ sub ≠ [] := by
  constructor
  · rintro ⟨turns, hr⟩ rfl
    have hfound : find str [] 0 = some 0 := by cases str <;> rfl
    rw [replace, hfound, replaceLoop_empty replaceWith turns str 0 (Nat.zero_le _)] at hr
    cases hr
  · intro hsub
    refine ⟨str.length, ?_⟩
    exact replaceLoop_eq hsub str.length [] str (Nat.le_refl _)

/-- Nothing in `a` is replaced by `b`: no number of turns suffices. -/
theorem replace_empty_never_ends :
    (∀ turns, replace turns [97] [] [98] = none) ∧ ¬ Replaces [97] [] [98] := by
  have hnone : ∀ turns, replace turns [97] [] [98] = none := fun turns =>
    replaceLoop_empty [98] turns [97] 0 (Nat.zero_le _)
  refine ⟨hnone, ?_⟩
  rintro ⟨turns, hr⟩
  rw [hnone] at hr
  cases hr

/-- A replacement that contains what it replaces. -/
example : replace 3 [97, 98, 97] [97] [97, 97] = some [97, 97, 98, 97, 97] := by decide

/-! ## Splitting -/

/-- The loop of both overloads, on the text from `last` on. -/
def splitLoop (found : UInt8 → Bool) (max : UInt64) (rest : List UInt8) : List (List UInt8) :=
  match h : rest.findIdx? found with
  | none => [rest]
  | some pos =>
      rest.take pos ::
        (if max - 1 = 1 then [rest.drop (pos + 1)]
        else splitLoop found (max - 1) (rest.drop (pos + 1)))
  termination_by rest.length
  decreasing_by
    have := (List.findIdx?_eq_some_iff_getElem.mp h).1
    simp only [List.length_drop]
    omega

def split (str : List UInt8) (delim : UInt8) (max : UInt64) : List (List UInt8) :=
  if str.isEmpty then [] else splitLoop (· == delim) max str

/-- The overload with a set: `find_first_of` takes the characters up to the null. -/
def splitAny (str delims : List UInt8) (max : UInt64) : List (List UInt8) :=
  if str.isEmpty then []
  else splitLoop (delims.takeWhile (· != 0)).contains max str

/-- The pieces restore the text, only the last one may contain the delimiter, their number is as
it should be, and the overload with a set agrees. -/
structure Splits (str : List UInt8) (delim : UInt8) (max : UInt64) : Prop where
  joined : [delim].intercalate (split str delim max) = str
  free : ∀ piece ∈ (split str delim max).dropLast, delim ∉ piece
  number : 1 ≤ max → (split str delim max).length = min max.toNat (str.count delim + 1)
  agrees : ∀ delims : List UInt8, delims.takeWhile (· != 0) = [delim] →
    splitAny str delims max = split str delim max

variable {delim : UInt8} {max : UInt64} {rest : List UInt8}

/-- The text up to the first delimiter, and what is behind it. -/
theorem findIdx?_delim {pos : Nat} (h : rest.findIdx? (· == delim) = some pos) :
    ∃ piece behind, rest = piece ++ delim :: behind ∧ delim ∉ piece ∧ rest.take pos = piece ∧
      rest.drop (pos + 1) = behind := by
  rcases Place.exists_first (· == delim) rest with hnone | ⟨piece, c, behind, rfl, hpiece, hc⟩
  · rw [Place.first_none hnone] at h
    cases h
  · rw [Place.first_append hpiece hc] at h
    obtain rfl : piece.length = pos := Option.some.inj h
    obtain rfl : c = delim := eq_of_beq hc
    refine ⟨piece, behind, rfl, fun hm => hpiece c hm (beq_self_eq_true c), List.take_left, ?_⟩
    rw [List.append_cons]
    exact List.drop_left' (by simp)

theorem splitLoop_ne_nil (delim : UInt8) (max : UInt64) (rest : List UInt8) :
    splitLoop (· == delim) max rest ≠ [] := by
  rw [splitLoop]
  split <;> simp

/-- The number of pieces at which the loop ends. The counter wraps around below one. -/
def limit (max : UInt64) : Nat :=
  if max.toNat ≤ 1 then max.toNat + 18446744073709551616 else max.toNat

theorem limit_pred (max : UInt64) :
    if max - 1 = 1 then limit max = 2 else 2 ≤ limit max ∧ limit (max - 1) + 1 = limit max := by
  have hlt := max.toNat_lt
  have hpred : (max - 1).toNat = if max.toNat = 0 then 18446744073709551615 else max.toNat - 1 := by
    rw [UInt64.toNat_sub]
    split <;> simp <;> omega
  have hone : max - 1 = 1 ↔ max.toNat = 2 := by
    rw [← UInt64.toNat_inj, hpred, UInt64.toNat_one]
    split <;> omega
  by_cases h : max - 1 = 1
  · rw [if_pos h, limit, hone.mp h]
    rfl
  · have h2 := mt hone.mpr h
    rw [if_neg h, limit, limit, hpred]
    split_ifs <;> omega

theorem splitLoop_spec (delim : UInt8) (max : UInt64) (rest : List UInt8) :
    [delim].intercalate (splitLoop (· == delim) max rest) = rest ∧
      (∀ piece ∈ (splitLoop (· == delim) max rest).dropLast, delim ∉ piece) ∧
      (splitLoop (· == delim) max rest).length = min (limit max) (rest.count delim + 1) := by
  induction max, rest using splitLoop.induct (· == delim) with
  | case1 max rest h =>
      have hnot : delim ∉ rest := by
        intro hm
        have hne := List.findIdx?_eq_none_iff.mp h delim hm
        simp at hne
      have hlim := limit_pred max
      rw [splitLoop, h]
      refine ⟨List.intercalate_singleton, by simp, ?_⟩
      rw [List.count_eq_zero_of_not_mem hnot]
      split at hlim
      · simp [hlim]
      · simp only [List.length_singleton]
        omega
  | case2 max rest pos h ih =>
      obtain ⟨piece, behind, rfl, hpiece, htake, hdrop⟩ := findIdx?_delim h
      have hlim := limit_pred max
      have hcount : (piece ++ delim :: behind).count delim = behind.count delim + 1 := by
        rw [List.count_append, List.count_eq_zero_of_not_mem hpiece, List.count_cons_self,
          Nat.zero_add]
      rw [splitLoop, h]
      simp only [htake, hdrop] at ih ⊢
      by_cases hone : max - 1 = 1
      · rw [if_pos hone] at hlim ⊢
        refine ⟨?_, ?_, ?_⟩
        · rw [List.intercalate_cons_cons, List.intercalate_singleton]
          simp
        · simpa using hpiece
        · rw [hcount, hlim]
          simp only [List.length_cons, List.length_nil]
          omega
      · rw [if_neg hone] at hlim ⊢
        obtain ⟨hjoin, hfree, hlen⟩ := ih
        have hne := splitLoop_ne_nil delim (max - 1) behind
        refine ⟨?_, ?_, ?_⟩
        · rw [List.intercalate_cons_of_ne_nil hne, hjoin]
          simp
        · rw [List.dropLast_cons_of_ne_nil hne]
          intro p hp
          rcases List.mem_cons.mp hp with rfl | hp
          · exact hpiece
          · exact hfree p hp
        · rw [List.length_cons, hlen, hcount]
          omega

/-- With a limit of one the text is split as without a limit; everything else is right. -/
theorem splits_iff {str : List UInt8} (hstr : str ≠ []) (delim : UInt8) (max : UInt64) :
    Splits str delim max ↔ (max = 1 → delim ∉ str) := by
  have hsplit : split str delim max = splitLoop (· == delim) max str := by
    rw [split, if_neg (by simpa using hstr)]
  obtain ⟨hjoin, hfree, hlen⟩ := splitLoop_spec delim max str
  rw [← hsplit] at hjoin hfree hlen
  constructor
  · rintro h rfl
    have hnum := h.number (by decide)
    rw [hlen] at hnum
    have hcount : str.count delim = 0 := by
      have hlimit : limit 1 = 18446744073709551617 := rfl
      rw [hlimit, UInt64.toNat_one] at hnum
      omega
    exact List.count_eq_zero.mp hcount
  · intro hmax
    refine ⟨hjoin, hfree, ?_, ?_⟩
    · intro hle
      rw [hlen, limit]
      split
      · rename_i hsmall
        have h1 : max = 1 := by
          rw [← UInt64.toNat_inj]
          rw [UInt64.le_iff_toNat_le, UInt64.toNat_one] at hle
          rw [UInt64.toNat_one]
          omega
        rw [List.count_eq_zero_of_not_mem (hmax h1), h1, UInt64.toNat_one]
        rfl
      · rfl
    · intro delims hdelims
      have hset : (delims.takeWhile (· != 0)).contains = (· == delim) := by
        rw [hdelims]
        funext c
        rw [Bool.eq_iff_iff]
        simp
      rw [hsplit, splitAny, if_neg (by simpa using hstr), hset]

/-- `a,b` is split at most once, and with a limit of one as well. -/
theorem splits_iff_once : Splits [97, 44, 98] 44 2 ∧ ¬ Splits [97, 44, 98] 44 1 :=
  ⟨(splits_iff (by decide) 44 2).mpr (by decide), mt (splits_iff (by decide) 44 1).mp (by decide)⟩

/-- One piece is asked for, and there are two. -/
theorem split_one_ignored : (split [97, 44, 98] 44 1).length = 2 ∧ ¬ Splits [97, 44, 98] 44 1 := by
  have hlen : (split [97, 44, 98] 44 1).length = 2 := by
    rw [split, if_neg (by decide), (splitLoop_spec 44 1 [97, 44, 98]).2.2]
    rfl
  refine ⟨hlen, ?_⟩
  intro h
  have hnum := h.number (by decide)
  rw [hlen] at hnum
  exact absurd hnum (by decide)

end CIM.HashUtil
