import CIM.Lib.Place

/-!
# Trimming

`Trim` and its halves cut at the first and the last character that is no delimiter. The last one
itself is cut off by `TrimRight`.
-/
namespace CIM.StringUtil

def other (delimit : List UInt8) (c : UInt8) : Bool := !delimit.contains c

/-- `find_first_not_of`. -/
def findFirstNotOf (delimit str : List UInt8) : Option Nat := str.findIdx? (other delimit)

/-- `find_last_not_of`. -/
def findLastNotOf (delimit str : List UInt8) : Option Nat := Place.last (other delimit) str

def trim (str delimit : List UInt8) : List UInt8 :=
  match findFirstNotOf delimit str with
  | none => []
  | some first =>
      match findLastNotOf delimit str with
      -- a count from `npos`
      | none => str.drop first
      | some last => (str.drop first).take (last - first + 1)

def trimLeft (str delimit : List UInt8) : List UInt8 :=
  match findFirstNotOf delimit str with
  | none => []
  | some first => str.drop first

def trimRight (str delimit : List UInt8) : List UInt8 :=
  match findLastNotOf delimit str with
  | none => []
  | some last => str.take last

/-! ## What is wanted -/

/-- The longest run of delimiters in front is gone. -/
def LeftTrimmed (delimit str out : List UInt8) : Prop :=
  ∃ front, str = front ++ out ∧ (∀ c ∈ front, c ∈ delimit) ∧ ∀ c ∈ out.head?, c ∉ delimit

def RightTrimmed (delimit str out : List UInt8) : Prop :=
  ∃ back, str = out ++ back ∧ (∀ c ∈ back, c ∈ delimit) ∧ ∀ c ∈ out.getLast?, c ∉ delimit

def Trimmed (delimit str out : List UInt8) : Prop :=
  ∃ front back, str = front ++ out ++ back ∧ (∀ c ∈ front, c ∈ delimit) ∧
    (∀ c ∈ back, c ∈ delimit) ∧ (∀ c ∈ out.head?, c ∉ delimit) ∧ ∀ c ∈ out.getLast?, c ∉ delimit

/-- What is to hold of the three functions, at a string and its delimiters. -/
structure Trims (str delimit : List UInt8) : Prop where
  left : LeftTrimmed delimit str (trimLeft str delimit)
  right : RightTrimmed delimit str (trimRight str delimit)
  both : Trimmed delimit str (trim str delimit)
  again : trim (trim str delimit) delimit = trim str delimit
  left_right : trim str delimit = trimLeft (trimRight str delimit) delimit
  right_left : trim str delimit = trimRight (trimLeft str delimit) delimit
  keeps : (trim str delimit).filter (· ∉ delimit) = str.filter (· ∉ delimit)

variable {delimit str front core back : List UInt8}

/-! ## Nothing but delimiters -/

theorem other_iff {c : UInt8} : other delimit c ↔ c ∉ delimit := by simp [other]

theorem not_other_iff {c : UInt8} : ¬other delimit c ↔ c ∈ delimit := by simp [other]

theorem findFirst_none (h : ∀ c ∈ str, c ∈ delimit) : findFirstNotOf delimit str = none :=
  Place.first_none fun c hc => not_other_iff.mpr (h c hc)

theorem findLast_none (h : ∀ c ∈ str, c ∈ delimit) : findLastNotOf delimit str = none :=
  Place.last_none fun c hc => not_other_iff.mpr (h c hc)

theorem trim_none (h : ∀ c ∈ str, c ∈ delimit) : trim str delimit = [] := by
  rw [trim, findFirst_none h]

theorem trimLeft_none (h : ∀ c ∈ str, c ∈ delimit) : trimLeft str delimit = [] := by
  rw [trimLeft, findFirst_none h]

theorem trimRight_none (h : ∀ c ∈ str, c ∈ delimit) : trimRight str delimit = [] := by
  rw [trimRight, findLast_none h]

/-! ## The characters that stay -/

/-- Delimiters, then what stays, with another character at both of its ends, then delimiters. -/
structure Splits (delimit front core back : List UInt8) : Prop where
  front_mem : ∀ c ∈ front, c ∈ delimit
  back_mem : ∀ c ∈ back, c ∈ delimit
  ne_nil : core ≠ []
  head : ∀ c ∈ core.head?, c ∉ delimit
  last : ∀ c ∈ core.getLast?, c ∉ delimit

theorem findFirst_append (hfront : ∀ c ∈ front, c ∈ delimit) (hne : core ≠ [])
    (hhead : ∀ c ∈ core.head?, c ∉ delimit) :
    findFirstNotOf delimit (front ++ core) = some front.length := by
  obtain ⟨c, core, rfl⟩ := List.exists_cons_of_ne_nil hne
  exact Place.first_append (fun c hc => not_other_iff.mpr (hfront c hc))
    (other_iff.mpr (hhead c rfl))

theorem findLast_append (hback : ∀ c ∈ back, c ∈ delimit) (hne : core ≠ [])
    (hlast : ∀ c ∈ core.getLast?, c ∉ delimit) :
    findLastNotOf delimit (core ++ back) = some (core.length - 1) := by
  have hother := other_iff.mpr (hlast _ (List.getLast?_eq_some_getLast hne))
  have hsplit : core.dropLast ++ core.getLast hne :: back = core ++ back := by
    rw [List.append_cons, List.dropLast_append_getLast]
  rw [← hsplit, findLastNotOf,
    Place.last_append hother fun c hc => not_other_iff.mpr (hback c hc), List.length_dropLast]

namespace Splits

theorem first_eq (h : Splits delimit front core back) :
    findFirstNotOf delimit (front ++ core ++ back) = some front.length := by
  rw [List.append_assoc]
  refine findFirst_append h.front_mem (List.append_ne_nil_of_left_ne_nil h.ne_nil back) ?_
  rw [List.head?_append_of_ne_nil core h.ne_nil]
  exact h.head

theorem last_eq (h : Splits delimit front core back) :
    findLastNotOf delimit (front ++ core ++ back) = some (front.length + core.length - 1) := by
  rw [← List.length_append]
  refine findLast_append h.back_mem (List.append_ne_nil_of_right_ne_nil front h.ne_nil) ?_
  rw [List.getLast?_append_of_ne_nil front h.ne_nil]
  exact h.last

theorem trim_eq (h : Splits delimit front core back) :
    trim (front ++ core ++ back) delimit = core := by
  have hpos := List.length_pos_of_ne_nil h.ne_nil
  have hcount : front.length + core.length - 1 - front.length + 1 = core.length := by omega
  rw [trim, h.first_eq, h.last_eq]
  simp only [hcount, List.append_assoc, List.drop_left, List.take_left]

theorem trimLeft_eq (h : Splits delimit front core back) :
    trimLeft (front ++ core ++ back) delimit = core ++ back := by
  rw [trimLeft, h.first_eq, List.append_assoc]
  exact List.drop_left ..

/-- The position of the last character that stays is taken for a length. -/
theorem trimRight_eq (h : Splits delimit front core back) :
    trimRight (front ++ core ++ back) delimit = (front ++ core).dropLast := by
  have hle : front.length + core.length - 1 ≤ (front ++ core).length := by
    rw [List.length_append]
    omega
  rw [trimRight, h.last_eq, List.dropLast_eq_take, List.length_append]
  exact List.take_append_of_le_length hle

end Splits

/-- A string with another character is split by its first and its last one. -/
theorem exists_splits (h : ¬∀ c ∈ str, c ∈ delimit) :
    ∃ front core back, str = front ++ core ++ back ∧ Splits delimit front core back := by
  rcases Place.exists_first (other delimit) str with hnone | ⟨front, c, rest, rfl, hfront, hc⟩
  · exact absurd (fun c hc => not_other_iff.mp (hnone c hc)) h
  rcases Place.exists_last (other delimit) (c :: rest) with hnone | ⟨init, d, back, heq, hd, hback⟩
  · exact absurd hc (hnone c (List.mem_cons_self ..))
  have hne : init ++ [d] ≠ [] := List.append_ne_nil_of_right_ne_nil init (List.cons_ne_nil d [])
  have hcore : c :: rest = init ++ [d] ++ back := by rw [heq, List.append_cons]
  have hhead : (init ++ [d]).head? = some c := by
    have hall : (init ++ [d] ++ back).head? = some c := by rw [← hcore, List.head?_cons]
    rwa [List.head?_append_of_ne_nil _ hne] at hall
  refine ⟨front, init ++ [d], back, by rw [hcore, ← List.append_assoc], ?_, ?_, hne, ?_, ?_⟩
  · exact fun c hc => not_other_iff.mp (hfront c hc)
  · exact fun c hc => not_other_iff.mp (hback c hc)
  · rw [hhead]
    rintro c ⟨⟩
    exact other_iff.mp hc
  · rw [List.getLast?_concat]
    rintro c ⟨⟩
    exact other_iff.mp hd

/-! ## The two functions that are right -/

theorem trimLeft_trims (str delimit : List UInt8) :
    LeftTrimmed delimit str (trimLeft str delimit) := by
  by_cases h : ∀ c ∈ str, c ∈ delimit
  · rw [trimLeft_none h]
    exact ⟨str, (List.append_nil _).symm, h, nofun⟩
  · obtain ⟨front, core, back, rfl, hsplits⟩ := exists_splits h
    rw [hsplits.trimLeft_eq]
    refine ⟨front, List.append_assoc .., hsplits.front_mem, ?_⟩
    rw [List.head?_append_of_ne_nil core hsplits.ne_nil]
    exact hsplits.head

theorem trim_trims (str delimit : List UInt8) : Trimmed delimit str (trim str delimit) := by
  by_cases h : ∀ c ∈ str, c ∈ delimit
  · rw [trim_none h]
    exact ⟨str, [], by simp, h, nofun, nofun, nofun⟩
  · obtain ⟨front, core, back, rfl, hsplits⟩ := exists_splits h
    rw [hsplits.trim_eq]
    exact ⟨front, back, rfl, hsplits.front_mem, hsplits.back_mem, hsplits.head, hsplits.last⟩

theorem trim_trim (str delimit : List UInt8) :
    trim (trim str delimit) delimit = trim str delimit := by
  by_cases h : ∀ c ∈ str, c ∈ delimit
  · rw [trim_none h]
    exact trim_none nofun
  · obtain ⟨front, core, back, rfl, hsplits⟩ := exists_splits h
    have hcore : Splits delimit [] core [] :=
      ⟨nofun, nofun, hsplits.ne_nil, hsplits.head, hsplits.last⟩
    rw [hsplits.trim_eq]
    simpa using hcore.trim_eq

theorem filter_trim (str delimit : List UInt8) :
    (trim str delimit).filter (· ∉ delimit) = str.filter (· ∉ delimit) := by
  have hnone : ∀ l : List UInt8, (∀ c ∈ l, c ∈ delimit) → l.filter (· ∉ delimit) = [] := by
    intro l hl
    simpa using hl
  obtain ⟨front, back, hstr, hfront, hback, -, -⟩ := trim_trims str delimit
  generalize trim str delimit = core at hstr ⊢
  rw [hstr, List.filter_append, List.filter_append, hnone front hfront, hnone back hback,
    List.nil_append, List.append_nil]

/-! ## The one that is not -/

theorem Splits.not_trims (h : Splits delimit front core back) :
    ¬RightTrimmed delimit (front ++ core ++ back) (trimRight (front ++ core ++ back) delimit) := by
  rw [h.trimRight_eq]
  rintro ⟨removed, heq, hremoved, -⟩
  have hne := List.append_ne_nil_of_right_ne_nil front h.ne_nil
  have hlast : (front ++ core).getLast? = some ((front ++ core).getLast hne) :=
    List.getLast?_eq_some_getLast hne
  -- what is removed begins with the last character that should stay
  have hsplit : (front ++ core).getLast hne :: back = removed := by
    rw [← List.dropLast_append_getLast hne, List.append_assoc] at heq
    simpa using heq
  refine h.last _ ?_ (hremoved _ (hsplit ▸ List.mem_cons_self ..))
  rw [← List.getLast?_append_of_ne_nil front h.ne_nil]
  exact hlast

/-- `TrimRight` leaves the last character that is no delimiter out, so the three of them do what is
wanted where there is none. -/
theorem trims_iff (str delimit : List UInt8) : Trims str delimit ↔ ∀ c ∈ str, c ∈ delimit := by
  constructor
  · intro h
    by_contra hother
    obtain ⟨front, core, back, rfl, hsplits⟩ := exists_splits hother
    exact hsplits.not_trims h.right
  · intro h
    refine ⟨trimLeft_trims str delimit, ?_, trim_trims str delimit, trim_trim str delimit, ?_, ?_,
      filter_trim str delimit⟩
    · rw [trimRight_none h]
      exact ⟨str, rfl, h, nofun⟩
    · rw [trim_none h, trimRight_none h]
      rfl
    · rw [trim_none h, trimLeft_none h]
      rfl

/-- A letter and a space behind it. -/
theorem trimRight_letter :
    trimRight [97, 32] [32, 9, 13, 10] = [] ∧ ¬Trims [97, 32] [32, 9, 13, 10] := by
  refine ⟨by decide, fun h => ?_⟩
  obtain ⟨back, heq, hback, -⟩ := h.right
  have hnil : trimRight [97, 32] [32, 9, 13, 10] = [] := by decide
  rw [hnil, List.nil_append] at heq
  exact absurd (hback 97 (heq ▸ by decide)) (by decide)

end CIM.StringUtil
