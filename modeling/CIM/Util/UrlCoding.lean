import Mathlib.Data.FinEnum
import Mathlib.Tactic.IntervalCases

/-!
# URL coding

`UrlEncode` and `UrlDecode` of `StringUtil`. Both make a copy only at the first byte that changes.
A `char` is taken as the byte it is stored as; `isxdigit` is false for a byte above 127, which is
negative as a `char`.
-/
namespace CIM.StringUtil

def byte (c : Char) : UInt8 := UInt8.ofNat c.toNat

def uri_chars : List Nat :=
  [0, 0, 0, 0, 0, 0, 0, 0, 0, 0, 0, 0, 0, 0, 0, 0,
    0, 0, 0, 0, 0, 0, 0, 0, 0, 0, 0, 0, 0, 0, 0, 0,
    0, 0, 0, 0, 0, 0, 0, 0, 0, 0, 0, 0, 0, 1, 1, 0,
    1, 1, 1, 1, 1, 1, 1, 1, 1, 1, 0, 0, 0, 1, 0, 0,
    0, 1, 1, 1, 1, 1, 1, 1, 1, 1, 1, 1, 1, 1, 1, 1,
    1, 1, 1, 1, 1, 1, 1, 1, 1, 1, 1, 0, 0, 0, 0, 1,
    0, 1, 1, 1, 1, 1, 1, 1, 1, 1, 1, 1, 1, 1, 1, 1,
    1, 1, 1, 1, 1, 1, 1, 1, 1, 1, 1, 0, 0, 0, 1, 0] ++ List.replicate 128 0

def xdigit_chars : List Nat :=
  [0, 0, 0, 0, 0, 0, 0, 0, 0, 0, 0, 0, 0, 0, 0, 0,
    0, 0, 0, 0, 0, 0, 0, 0, 0, 0, 0, 0, 0, 0, 0, 0,
    0, 0, 0, 0, 0, 0, 0, 0, 0, 0, 0, 0, 0, 0, 0, 0,
    0, 1, 2, 3, 4, 5, 6, 7, 8, 9, 0, 0, 0, 0, 0, 0,
    0, 10, 11, 12, 13, 14, 15, 0, 0, 0, 0, 0, 0, 0, 0, 0,
    0, 0, 0, 0, 0, 0, 0, 0, 0, 0, 0, 0, 0, 0, 0, 0,
    0, 10, 11, 12, 13, 14, 15, 0, 0, 0, 0, 0, 0, 0, 0, 0,
    0, 0, 0, 0, 0, 0, 0, 0, 0, 0, 0, 0, 0, 0, 0, 0] ++ List.replicate 128 0

def CHAR_IS_UNRESERVED (c : UInt8) : Bool := uri_chars.getD c.toNat 0 != 0

def hexdigits : List UInt8 := "0123456789ABCDEF".toList.map byte

def isxdigit (c : UInt8) : Bool :=
  (byte '0' ≤ c && c ≤ byte '9') || (byte 'A' ≤ c && c ≤ byte 'F') || (byte 'a' ≤ c && c ≤ byte 'f')

/-- What one byte is appended as, where it does not stay as it is. -/
def escape (space_as_plus : Bool) (c : UInt8) : List UInt8 :=
  if c == byte ' ' && space_as_plus then [byte '+']
  else [byte '%', hexdigits.getD (c.toNat >>> 4) 0, hexdigits.getD (c.toNat &&& 15) 0]

/-- The loop, with the place it has reached and the copy once there is one. -/
def encodeLoop (space_as_plus : Bool) (str : List UInt8) :
    Nat → Option (List UInt8) → List UInt8 → Option (List UInt8)
  | _, ss, [] => ss
  | i, ss, c :: rest =>
      if !CHAR_IS_UNRESERVED c then
        encodeLoop space_as_plus str (i + 1)
          (some (ss.getD (str.take i) ++ escape space_as_plus c)) rest
      else encodeLoop space_as_plus str (i + 1) (ss.map (· ++ [c])) rest

def UrlEncode (str : List UInt8) (space_as_plus : Bool) : List UInt8 :=
  (encodeLoop space_as_plus str 0 none str).getD str

/-- The bytes behind a percent sign are two hexadecimal digits. -/
def escaped : List UInt8 → Bool
  | hi :: lo :: _ => isxdigit hi && isxdigit lo
  | _ => false

/-- The byte that two digits stand for. -/
def unescape : List UInt8 → UInt8
  | hi :: lo :: _ =>
      UInt8.ofNat (xdigit_chars.getD hi.toNat 0 <<< 4 ||| xdigit_chars.getD lo.toNat 0)
  | _ => 0

def decodeLoop (space_as_plus : Bool) (str : List UInt8) :
    Nat → Option (List UInt8) → List UInt8 → Option (List UInt8)
  | _, ss, [] => ss
  | i, ss, c :: rest =>
      if c == byte '+' && space_as_plus then
        decodeLoop space_as_plus str (i + 1) (some (ss.getD (str.take i) ++ [byte ' '])) rest
      else if c == byte '%' && escaped rest then
        decodeLoop space_as_plus str (i + 3) (some (ss.getD (str.take i) ++ [unescape rest]))
          (rest.drop 2)
      else decodeLoop space_as_plus str (i + 1) (ss.map (· ++ [c])) rest
  termination_by _ _ rest => rest.length
  decreasing_by all_goals simp only [List.length_cons, List.length_drop]; omega

def UrlDecode (str : List UInt8) (space_as_plus : Bool) : List UInt8 :=
  (decodeLoop space_as_plus str 0 none str).getD str

/-- The plain transformation, byte by byte. -/
def encodePlain (space_as_plus : Bool) (str : List UInt8) : List UInt8 :=
  str.flatMap fun c => if CHAR_IS_UNRESERVED c then [c] else escape space_as_plus c

def decodePlain (space_as_plus : Bool) : List UInt8 → List UInt8
  | [] => []
  | c :: rest =>
      if c == byte '+' && space_as_plus then byte ' ' :: decodePlain space_as_plus rest
      else if c == byte '%' && escaped rest then
        unescape rest :: decodePlain space_as_plus (rest.drop 2)
      else c :: decodePlain space_as_plus rest
  termination_by rest => rest.length
  decreasing_by all_goals simp only [List.length_cons, List.length_drop]; omega

/-- The text starts with something that is decoded. -/
def Coded (space_as_plus : Bool) : List UInt8 → Bool
  | [] => false
  | c :: rest => (c == byte '+' && space_as_plus) || (c == byte '%' && escaped rest)

variable {p : Bool} {str : List UInt8}

/-- Once there is a copy the loop appends the plain transformation to it. -/
theorem encodeLoop_copy (i : Nat) (out rest : List UInt8) :
    encodeLoop p str i (some out) rest = some (out ++ encodePlain p rest) := by
  induction rest generalizing i out with
  | nil => simp [encodeLoop, encodePlain]
  | cons c rest ih => by_cases hc : CHAR_IS_UNRESERVED c <;> simp [encodeLoop, encodePlain, hc, ih]

/-- Before the first byte that changes there is no copy, and what lies behind is the text. -/
theorem encodeLoop_none (done rest : List UInt8) (hstr : str = done ++ rest) :
    encodeLoop p str done.length none rest =
      if ∀ c ∈ rest, CHAR_IS_UNRESERVED c then none else some (done ++ encodePlain p rest) := by
  induction rest generalizing done with
  | nil => simp [encodeLoop]
  | cons c rest ih =>
      by_cases hc : CHAR_IS_UNRESERVED c
      · have htail := ih (done ++ [c]) (by simp [hstr])
        rw [List.length_append, List.length_singleton] at htail
        simp [encodeLoop, hc, htail, encodePlain]
      · have htake : str.take done.length = done := by rw [hstr, List.take_left]
        simp [encodeLoop, hc, encodeLoop_copy, htake, encodePlain]

theorem encodePlain_unreserved {rest : List UInt8} (h : ∀ c ∈ rest, CHAR_IS_UNRESERVED c) :
    encodePlain p rest = rest := by
  induction rest with
  | nil => rfl
  | cons c rest ih =>
      have htail := ih fun d hd => h d (List.mem_cons_of_mem c hd)
      rw [encodePlain, List.flatMap_cons, if_pos (h c List.mem_cons_self), ← encodePlain, htail]
      rfl

theorem UrlEncode_eq (str : List UInt8) (p : Bool) : UrlEncode str p = encodePlain p str := by
  have hrun := encodeLoop_none (p := p) [] str (List.nil_append str).symm
  rw [List.length_nil, List.nil_append] at hrun
  rw [UrlEncode, hrun]
  split_ifs with h
  · rw [encodePlain_unreserved h]
    rfl
  · rfl

theorem decodeLoop_copy (i : Nat) (out rest : List UInt8) :
    decodeLoop p str i (some out) rest = some (out ++ decodePlain p rest) := by
  induction rest using decodePlain.induct p generalizing i out with
  | case1 => simp [decodeLoop, decodePlain]
  | case2 c rest hplus ih => rw [decodeLoop, if_pos hplus, ih, decodePlain, if_pos hplus]; simp
  | case3 c rest hplus hcoded ih =>
      rw [decodeLoop, if_neg hplus, if_pos hcoded, ih, decodePlain, if_neg hplus, if_pos hcoded]
      simp
  | case4 c rest hplus hcoded ih =>
      rw [decodeLoop, if_neg hplus, if_neg hcoded, Option.map_some, ih, decodePlain, if_neg hplus,
        if_neg hcoded]
      simp

/-- There is a copy exactly where something is decoded, and it is the plain transformation. -/
theorem decodeLoop_none (done rest : List UInt8) (hstr : str = done ++ rest) :
    (decodeLoop p str done.length none rest = none ∧ decodePlain p rest = rest ∧
        ∀ t, t <:+ rest → Coded p t = false) ∨
      (decodeLoop p str done.length none rest = some (done ++ decodePlain p rest) ∧
        ∃ t, t <:+ rest ∧ Coded p t = true) := by
  have htake : str.take done.length = done := by rw [hstr, List.take_left]
  induction rest generalizing done with
  | nil => simp [decodeLoop, decodePlain, Coded]
  | cons c rest ih =>
      rw [decodeLoop, decodePlain]
      split_ifs with hplus hcoded
      · refine .inr ⟨?_, c :: rest, List.suffix_refl _, by simp only [Coded, hplus, Bool.true_or]⟩
        rw [decodeLoop_copy, Option.getD_none, htake]
        simp
      · refine .inr ⟨?_, c :: rest, List.suffix_refl _, by simp only [Coded, hcoded, Bool.or_true]⟩
        rw [decodeLoop_copy, Option.getD_none, htake]
        simp
      · have hstr' : str = (done ++ [c]) ++ rest := by simp [hstr]
        have hlen : (done ++ [c]).length = done.length + 1 := by simp
        have hhead : Coded p (c :: rest) = false := by
          simp only [Bool.not_eq_true] at hplus hcoded
          rw [Coded, hplus, hcoded, Bool.or_false]
        have htail := ih (done ++ [c]) hstr' (by rw [hstr', List.take_left])
        rw [hlen] at htail
        rcases htail with ⟨hrun, hplain, hnone⟩ | ⟨hrun, t, ht, hcode⟩
        · refine .inl ⟨hrun, by rw [hplain], fun t ht => ?_⟩
          rcases List.suffix_cons_iff.mp ht with rfl | ht
          · exact hhead
          · exact hnone t ht
        · exact .inr ⟨by rw [Option.map_none, hrun]; simp, t,
            ht.trans (List.suffix_cons c rest), hcode⟩

theorem UrlDecode_eq (str : List UInt8) (p : Bool) : UrlDecode str p = decodePlain p str := by
  rw [UrlDecode]
  rcases decodeLoop_none (p := p) [] str (List.nil_append str).symm with
    ⟨hrun, hplain, -⟩ | ⟨hrun, -⟩
  · rw [List.length_nil] at hrun
    rw [hrun, hplain]
    rfl
  · rw [List.length_nil, List.nil_append] at hrun
    rw [hrun]
    rfl

theorem length_decodePlain_le (rest : List UInt8) : (decodePlain p rest).length ≤ rest.length := by
  induction rest using decodePlain.induct p with
  | case1 => simp [decodePlain]
  | case2 c rest hplus ih => rw [decodePlain, if_pos hplus]; simpa using ih
  | case3 c rest hplus hcoded ih =>
      rw [decodePlain, if_neg hplus, if_pos hcoded, List.length_cons, List.length_cons]
      rw [List.length_drop] at ih
      omega
  | case4 c rest hplus hcoded ih =>
      rw [decodePlain, if_neg hplus, if_neg hcoded]
      simpa using ih

/-- What is decoded is not what was there: the byte differs or the text is shorter. -/
theorem decodePlain_ne {rest : List UInt8} (h : ∃ t, t <:+ rest ∧ Coded p t = true) :
    decodePlain p rest ≠ rest := by
  induction rest with
  | nil =>
      obtain ⟨t, ht, hcode⟩ := h
      rw [List.suffix_nil.mp ht] at hcode
      cases hcode
  | cons c rest ih =>
      rw [decodePlain]
      split_ifs with hplus hcoded
      · intro heq
        have hc : c = byte '+' := by simpa using (Bool.and_eq_true_iff.mp hplus).1
        rw [hc] at heq
        exact absurd (List.cons.inj heq).1 (by decide)
      · intro heq
        have hlen := congrArg List.length heq
        have hle := length_decodePlain_le (p := p) (rest.drop 2)
        have htwo : 2 ≤ rest.length := by
          have hesc := (Bool.and_eq_true_iff.mp hcoded).2
          rcases rest with _ | ⟨hi, _ | ⟨lo, rest⟩⟩
          · cases hesc
          · cases hesc
          · simp
        rw [List.length_cons, List.length_cons] at hlen
        rw [List.length_drop] at hle
        omega
      · intro heq
        refine ih ?_ (List.cons.inj heq).2
        obtain ⟨t, ht, hcode⟩ := h
        rcases List.suffix_cons_iff.mp ht with rfl | ht
        · simp only [Bool.not_eq_true] at hplus hcoded
          rw [Coded, hplus, hcoded] at hcode
          cases hcode
        · exact ⟨t, ht, hcode⟩

theorem UrlDecode_eq_self_iff (str : List UInt8) (p : Bool) :
    UrlDecode str p = str ↔ ∀ t, t <:+ str → Coded p t = false := by
  constructor
  · intro h t ht
    by_contra hcode
    rw [UrlDecode_eq] at h
    exact decodePlain_ne ⟨t, ht, by simpa using hcode⟩ h
  · intro h
    rw [UrlDecode_eq]
    rcases decodeLoop_none (p := p) [] str (List.nil_append str).symm with
      ⟨-, hplain, -⟩ | ⟨-, t, ht, hcode⟩
    · exact hplain
    · rw [h t ht] at hcode
      cases hcode

theorem length_escape_pos (c : UInt8) : 0 < (escape p c).length := by
  rw [escape]
  split_ifs <;> simp

theorem length_encodePlain_ge (str : List UInt8) : str.length ≤ (encodePlain p str).length := by
  induction str with
  | nil => simp
  | cons c rest ih =>
      rw [encodePlain, List.flatMap_cons, ← encodePlain, List.length_append, List.length_cons]
      split_ifs
      · rw [List.length_singleton]
        omega
      · have hpos := length_escape_pos (p := p) c
        omega

theorem encodePlain_eq_self_iff (str : List UInt8) :
    encodePlain p str = str ↔ ∀ c ∈ str, CHAR_IS_UNRESERVED c = true := by
  refine ⟨?_, encodePlain_unreserved⟩
  induction str with
  | nil => simp
  | cons c rest ih =>
      rw [encodePlain, List.flatMap_cons, ← encodePlain]
      split_ifs with hc
      · intro heq
        simpa [hc] using ih (List.cons.inj heq).2
      · intro heq
        have hle := length_encodePlain_ge (p := p) rest
        rw [escape] at heq
        split_ifs at heq with hspace
        · have hsp : c = byte ' ' := by simpa using (Bool.and_eq_true_iff.mp hspace).1
          rw [hsp] at heq
          exact absurd (List.cons.inj heq).1 (by decide)
        · have hlen := congrArg List.length heq
          simp only [List.length_append, List.length_cons, List.length_nil] at hlen
          omega

/-- An unreserved byte starts nothing that is decoded. -/
theorem not_coded_of_unreserved {c : UInt8} (hc : CHAR_IS_UNRESERVED c = true) :
    (c == byte '+') = false ∧ (c == byte '%') = false := by
  have hplus : CHAR_IS_UNRESERVED (byte '+') = false := rfl
  have hpercent : CHAR_IS_UNRESERVED (byte '%') = false := rfl
  constructor
  · rw [beq_eq_false_iff_ne]
    rintro rfl
    rw [hplus] at hc
    cases hc
  · rw [beq_eq_false_iff_ne]
    rintro rfl
    rw [hpercent] at hc
    cases hc

/-- The digits that are written are read as their values. -/
theorem xdigit_hexdigits {d : Nat} (hd : d < 16) : isxdigit (hexdigits.getD d 0) = true ∧
    xdigit_chars.getD (hexdigits.getD d 0).toNat 0 = d := by
  interval_cases d <;> exact ⟨rfl, rfl⟩

theorem halves (c : UInt8) : c.toNat >>> 4 < 16 ∧ c.toNat &&& 15 < 16 ∧
    (c.toNat >>> 4) <<< 4 ||| (c.toNat &&& 15) = c.toNat := by
  have hlow : c.toNat &&& 15 = c.toNat % 16 := Nat.and_two_pow_sub_one_eq_mod c.toNat 4
  have hhigh : c.toNat >>> 4 = c.toNat / 16 := Nat.shiftRight_eq_div_pow c.toNat 4
  have hlt := c.toNat_lt
  have hmod : c.toNat % 16 < 2 ^ 4 := Nat.mod_lt _ (by decide)
  rw [hlow, hhigh]
  refine ⟨by omega, by omega, ?_⟩
  rw [← Nat.shiftLeft_add_eq_or_of_lt hmod, Nat.shiftLeft_eq]
  omega

/-- A byte comes back from what it was written as. -/
theorem decodePlain_byte (c : UInt8) (rest : List UInt8) :
    decodePlain p ((if CHAR_IS_UNRESERVED c then [c] else escape p c) ++ rest) =
      c :: decodePlain p rest := by
  split_ifs with hc
  · obtain ⟨hplus, hpercent⟩ := not_coded_of_unreserved hc
    rw [List.singleton_append, decodePlain]
    simp [hplus, hpercent]
  · rw [escape]
    split_ifs with hspace
    · obtain ⟨hsp, hp⟩ := Bool.and_eq_true_iff.mp hspace
      rw [List.singleton_append, decodePlain, if_pos (by simp [hp]), eq_of_beq hsp]
    · obtain ⟨hhi, hlo, hsum⟩ := halves c
      have hplus : (byte '%' == byte '+' && p) = false := rfl
      have hesc : escaped (hexdigits.getD (c.toNat >>> 4) 0 ::
          hexdigits.getD (c.toNat &&& 15) 0 :: rest) = true := by
        rw [escaped, (xdigit_hexdigits hhi).1, (xdigit_hexdigits hlo).1, Bool.and_self]
      have hback : unescape (hexdigits.getD (c.toNat >>> 4) 0 ::
          hexdigits.getD (c.toNat &&& 15) 0 :: rest) = c := by
        rw [unescape, (xdigit_hexdigits hhi).2, (xdigit_hexdigits hlo).2, hsum,
          UInt8.ofNat_toNat]
      rw [List.cons_append, List.cons_append, List.cons_append, List.nil_append, decodePlain,
        hplus, hesc, hback]
      rfl

theorem decodePlain_encodePlain (str : List UInt8) : decodePlain p (encodePlain p str) = str := by
  induction str with
  | nil => simp [encodePlain, decodePlain]
  | cons c rest ih => rw [encodePlain, List.flatMap_cons, ← encodePlain, decodePlain_byte, ih]

/-- What was encoded is decoded to the text it came from. Both functions are the plain
transformation, and leave alone exactly the texts in which no byte changes. -/
theorem url_coding (s : List UInt8) (p : Bool) :
    UrlDecode (UrlEncode s p) p = s ∧
      UrlEncode s p = encodePlain p s ∧ UrlDecode s p = decodePlain p s ∧
      (UrlEncode s p = s ↔ ∀ c ∈ s, CHAR_IS_UNRESERVED c = true) ∧
      (UrlDecode s p = s ↔ ∀ t, t <:+ s → Coded p t = false) := by
  refine ⟨?_, UrlEncode_eq s p, UrlDecode_eq s p, ?_, UrlDecode_eq_self_iff s p⟩
  · rw [UrlDecode_eq, UrlEncode_eq, decodePlain_encodePlain]
  · rw [UrlEncode_eq]
    exact encodePlain_eq_self_iff s

/-- An escape that is cut off stays as it is. -/
example : UrlDecode [byte 'a', byte '%', byte '4'] true = [byte 'a', byte '%', byte '4'] := by
  decide +kernel

end CIM.StringUtil
