import Mathlib.Data.List.TakeWhile
import CIM.Log.LogConfig

/-!
# Patterns

`init` makes items of a pattern. Tokens are what a pattern is written in.
-/
namespace CIM.LogFormatter

/-- A text, or the item of a letter. -/
inductive FormatItem
  | StringFormatItem (m_string : List Char)
  | named (name : List Char)
  deriving DecidableEq

/-- The text is stored where there is one. -/
def flush (nstr : List Char) : List (List Char × Nat) := if nstr ≠ [] then [(nstr, 0)] else []

/-- The loop over the pattern with the text that was not stored yet: `vec`, and `m_isError`. -/
def scan (m_pattern nstr : List Char) : List (List Char × Nat) × Bool :=
  match m_pattern with
  | [] => (flush nstr, false)
  | c :: rest =>
      if c ≠ '%' then scan rest (nstr ++ [c])
      else if rest.head? = some '%' then scan rest (nstr ++ ['%'])
      else
        let str := rest.takeWhile Char.isAlpha
        if str = [] then
          let r := scan rest nstr
          (("<<pattern_error>>".toList, 0) :: r.1, true)
        else
          let r := scan (rest.drop str.length) []
          (flush nstr ++ (str, 1) :: r.1, r.2)
  termination_by m_pattern.length
  decreasing_by all_goals simp only [List.length_cons, List.length_drop]; omega

/-- The item of an element of `vec`, and whether its name is not known. -/
def item (i : List Char × Nat) : FormatItem × Bool :=
  if i.2 = 0 then (.StringFormatItem i.1, false)
  else if s_format_items.contains i.1 then (.named i.1, false)
  else (.StringFormatItem ("<<error_format %".toList ++ i.1 ++ ">>".toList), true)

/-- `m_items` and `m_isError`. -/
def init (m_pattern : List Char) : List FormatItem × Bool :=
  let (vec, m_isError) := scan m_pattern []
  (vec.map fun i => (item i).1, m_isError || vec.any fun i => (item i).2)

/-! ## Tokens -/

inductive Token
  | literal (s : List Char) (h : '%' ∉ s)
  | escape
  | item (name : List Char) (h : name ∈ s_format_items) (format : Option (List Char))

/-- What is put out: a character, or what an item makes of an event. -/
inductive Atom
  | chr (c : Char)
  | item (name : List Char) (format : Option (List Char))
  deriving DecidableEq

def FormatItem.atoms : FormatItem → List Atom
  | .StringFormatItem s => s.map .chr
  | .named name => [.item name none]

def Token.atoms : Token → List Atom
  | .literal s _ => s.map .chr
  | .escape => [.chr '%']
  | .item name _ format => [.item name format]

def Token.text : Token → List Char
  | .literal s _ => s
  | .escape => ['%', '%']
  | .item name _ none => '%' :: name
  | .item name _ (some format) => '%' :: (name ++ '{' :: (format ++ ['}']))

/-- The pattern of the tokens is taken without an error for what they stand for. -/
def Parses (ts : List Token) : Prop :=
  (init (ts.flatMap Token.text)).2 = false ∧
    (init (ts.flatMap Token.text)).1.flatMap FormatItem.atoms = ts.flatMap Token.atoms

/-- No escape, no format, and no letter right behind an item; `named` says that an item is in
front. -/
def Plain : Bool → List Token → Prop
  | _, [] => True
  | named, .literal s _ :: ts =>
      (named = true → ∀ c ∈ s.head?, c.isAlpha = false) ∧ Plain (named && s.isEmpty) ts
  | _, .escape :: _ => False
  | _, .item _ _ none :: ts => Plain true ts
  | _, .item _ _ (some _) :: _ => False

/-- What `vec` puts out, and whether it or the scanner has an error. -/
def atoms (r : List (List Char × Nat) × Bool) : List Atom :=
  r.1.flatMap fun i => (item i).1.atoms

def failed (r : List (List Char × Nat) × Bool) : Bool := r.2 || r.1.any fun i => (item i).2

theorem parses_iff (ts : List Token) : Parses ts ↔
    failed (scan (ts.flatMap Token.text) []) = false ∧
      atoms (scan (ts.flatMap Token.text) []) = ts.flatMap Token.atoms := by
  simp only [Parses, init, atoms, failed, List.flatMap_map]

/-! ## The scanner -/

variable {rest nstr : List Char}

theorem flush_append (nstr : List Char) (r : List (List Char × Nat) × Bool) :
    failed (flush nstr ++ r.1, r.2) = failed r ∧
      atoms (flush nstr ++ r.1, r.2) = nstr.map .chr ++ atoms r := by
  rw [flush]
  split
  · exact ⟨rfl, rfl⟩
  · rename_i h
    rw [not_not.mp h]
    exact ⟨rfl, rfl⟩

theorem scan_nil (nstr : List Char) :
    failed (scan [] nstr) = false ∧ atoms (scan [] nstr) = nstr.map .chr := by
  obtain ⟨hfail, hatoms⟩ := flush_append nstr ([], false)
  rw [List.append_nil] at hfail hatoms
  rw [scan, hfail, hatoms]
  exact ⟨rfl, List.append_nil _⟩

theorem scan_char {c : Char} (hc : c ≠ '%') : scan (c :: rest) nstr = scan rest (nstr ++ [c]) := by
  rw [scan, if_pos hc]

theorem scan_percent (h : rest.head? = some '%') :
    scan ('%' :: rest) nstr = scan rest (nstr ++ ['%']) := by
  rw [scan, if_neg (by simp), if_pos h]

/-- A text without a `%` goes to the stored text. -/
theorem scan_append {s : List Char} (hs : '%' ∉ s) :
    scan (s ++ rest) nstr = scan rest (nstr ++ s) := by
  induction s generalizing nstr with
  | nil => simp
  | cons c s ih =>
      rw [List.mem_cons, not_or] at hs
      rw [List.cons_append, scan_char (Ne.symm hs.1), ih hs.2, List.append_assoc]
      rfl

theorem head_ne_percent {str : List Char} (h : rest.takeWhile Char.isAlpha = str) (hne : str ≠ []) :
    rest.head? ≠ some '%' := by
  rintro hhead
  obtain ⟨tail, rfl⟩ := List.head?_eq_some_iff.mp hhead
  exact hne (h ▸ rfl)

theorem item_known {str : List Char} (h : s_format_items.contains str = true) :
    (item (str, 1)).1.atoms = [.item str none] := by
  rw [item, if_neg (by decide : ¬ (1 = 0)), if_pos h]
  rfl

/-- A name. -/
theorem scan_name (nstr : List Char) {str : List Char} (h : rest.takeWhile Char.isAlpha = str)
    (hne : str ≠ []) :
    failed (scan ('%' :: rest) nstr) =
        (!s_format_items.contains str || failed (scan (rest.drop str.length) [])) ∧
      atoms (scan ('%' :: rest) nstr) =
        nstr.map .chr ++ (item (str, 1)).1.atoms ++ atoms (scan (rest.drop str.length) []) := by
  have hscan : scan ('%' :: rest) nstr =
      (flush nstr ++ (str, 1) :: (scan (rest.drop str.length) []).1,
        (scan (rest.drop str.length) []).2) := by
    rw [scan, if_neg (by simp), if_neg (head_ne_percent h hne)]
    simp only [h, if_neg hne]
  obtain ⟨hfail, hatoms⟩ := flush_append nstr
    ((str, 1) :: (scan (rest.drop str.length) []).1, (scan (rest.drop str.length) []).2)
  rw [hscan, hfail, hatoms, List.append_assoc]
  refine ⟨?_, rfl⟩
  have hitem : (item (str, 1)).2 = !s_format_items.contains str := by
    simp only [item, if_neg (by decide : ¬ 1 = 0)]
    cases s_format_items.contains str <;> rfl
  simp only [failed, List.any_cons, hitem]
  cases (scan (rest.drop str.length) []).2 <;> simp

/-- A `%` without a name. -/
theorem scan_nameless (hhead : rest.head? ≠ some '%') (h : rest.takeWhile Char.isAlpha = []) :
    failed (scan ('%' :: rest) nstr) = true := by
  rw [scan, if_neg (by simp), if_neg hhead]
  simp [h, failed]

theorem isError_append {s : List Char} (hs : '%' ∉ s) (rest : List Char) :
    isError (s ++ rest) = isError rest := by
  induction s with
  | nil => rfl
  | cons c s ih =>
      rw [List.mem_cons, not_or] at hs
      rw [List.cons_append, isError, if_pos (Ne.symm hs.1), ih hs.2]

/-- The letters of a name, and what is behind them. -/
theorem split_name (rest : List Char) :
    rest = rest.takeWhile Char.isAlpha ++ rest.drop (rest.takeWhile Char.isAlpha).length ∧
      '%' ∉ rest.takeWhile Char.isAlpha :=
  ⟨(List.prefix_iff_eq_append.mp (List.takeWhile_prefix _)).symm, fun hm =>
    absurd (List.mem_takeWhile_imp hm) (by decide)⟩

/-- A `%` is passed over or named: what it puts out is one of these for each. -/
def percents (l : List Atom) : Nat :=
  l.countP fun a => match a with
    | .chr c => c == '%'
    | .item _ _ => true

theorem percents_chr (s : List Char) : percents (s.map .chr) = s.count '%' := by
  rw [percents, List.countP_map]
  rfl

theorem percents_append (l l' : List Atom) : percents (l ++ l') = percents l + percents l' :=
  List.countP_append

/-- Without an error every `%` of the pattern puts out one of these, and no item has a format. -/
theorem scan_percents (m_pattern nstr : List Char) (h : failed (scan m_pattern nstr) = false) :
    percents (atoms (scan m_pattern nstr)) = nstr.count '%' + m_pattern.count '%' ∧
      ∀ name format, Atom.item name (some format) ∉ atoms (scan m_pattern nstr) := by
  induction m_pattern, nstr using scan.induct with
  | case1 nstr =>
      rw [(scan_nil nstr).2, percents_chr]
      exact ⟨by simp, by simp⟩
  | case2 nstr c rest hc ih =>
      rw [scan_char hc] at h ⊢
      obtain ⟨hcount, hitems⟩ := ih h
      refine ⟨?_, hitems⟩
      rw [hcount, List.count_append, List.count_cons_of_ne hc, List.count_cons_of_ne hc]
      rfl
  | case3 nstr c rest hc hhead ih =>
      obtain rfl := not_not.mp hc
      rw [scan_percent hhead] at h ⊢
      obtain ⟨hcount, hitems⟩ := ih h
      refine ⟨?_, hitems⟩
      rw [hcount, List.count_append, List.count_cons_self, List.count_cons_self, List.count_nil]
      omega
  | case4 nstr c rest hc hhead str hstr ih =>
      obtain rfl := not_not.mp hc
      rw [scan_nameless hhead hstr] at h
      cases h
  | case5 nstr c rest hc hhead str hstr ih =>
      obtain rfl := not_not.mp hc
      obtain ⟨hfail, hatoms⟩ := scan_name nstr (rfl : rest.takeWhile Char.isAlpha = str) hstr
      rw [hfail, Bool.or_eq_false_iff] at h
      obtain ⟨hcount, hitems⟩ := ih h.2
      have hknown : (item (str, 1)).1.atoms = [.item str none] :=
        item_known (by simpa only [Bool.not_eq_false'] using h.1)
      obtain ⟨hsplit, hletters⟩ := split_name rest
      have hsum : rest.count '%' = (rest.drop str.length).count '%' := by
        conv => lhs; rw [hsplit, List.count_append, List.count_eq_zero_of_not_mem hletters]
        exact Nat.zero_add _
      rw [hatoms, hknown]
      refine ⟨?_, ?_⟩
      · have hone : percents [.item str none] = 1 := rfl
        rw [percents_append, percents_append, percents_chr, hcount, List.count_cons_self,
          List.count_nil, hone, hsum]
        omega
      · intro name format hm
        simp only [List.mem_append, List.mem_map, List.mem_singleton] at hm
        rcases hm with (⟨c, -, hc⟩ | hm) | hm
        · cases hc
        · cases hm
        · exact hitems name format hm

theorem failed_scan (m_pattern nstr : List Char) :
    failed (scan m_pattern nstr) = isError m_pattern := by
  induction m_pattern, nstr using scan.induct with
  | case1 nstr => exact (scan_nil nstr).1
  | case2 nstr c rest hc ih => rw [scan_char hc, ih, isError, if_pos hc]
  | case3 nstr c rest hc hhead ih =>
      obtain rfl := not_not.mp hc
      rw [scan_percent hhead, ih, isError, if_neg hc, if_pos hhead]
  | case4 nstr c rest hc hhead str hstr ih =>
      obtain rfl := not_not.mp hc
      rw [scan_nameless hhead hstr, isError, if_neg hc, if_neg hhead]
      simp [show rest.takeWhile Char.isAlpha = [] from hstr]
  | case5 nstr c rest hc hhead str hstr ih =>
      obtain rfl := not_not.mp hc
      obtain ⟨hsplit, hletters⟩ := split_name rest
      have hrest : isError rest = isError (rest.drop str.length) := by
        conv => lhs; rw [hsplit, isError_append hletters]
      have hempty : (rest.takeWhile Char.isAlpha).isEmpty = false :=
        List.isEmpty_eq_false_iff.mpr hstr
      rw [(scan_name nstr (rfl : rest.takeWhile Char.isAlpha = str) hstr).1, ih, isError,
        if_neg hc, if_neg hhead, hrest]
      simp only [hempty, Bool.false_or, str]

/-- `m_isError` is what the check of a configuration looks at. -/
theorem init_isError (m_pattern : List Char) : (init m_pattern).2 = isError m_pattern := by
  rw [← failed_scan m_pattern []]
  simp only [init, failed]

/-! ## Patterns of tokens -/

variable {ts : List Token}

theorem known_name {name : List Char} (h : name ∈ s_format_items) :
    name.length = 1 ∧ name.all Char.isAlpha = true := by
  have hall : ∀ name ∈ s_format_items, name.length = 1 ∧ name.all Char.isAlpha = true := by
    decide
  exact hall name h

/-- The tokens put out as many as their text has `%` only where there is no escape. -/
theorem percents_tokens (ts : List Token) :
    percents (ts.flatMap Token.atoms) ≤ (ts.flatMap Token.text).count '%' ∧
      (Token.escape ∈ ts →
        percents (ts.flatMap Token.atoms) < (ts.flatMap Token.text).count '%') := by
  induction ts with
  | nil => exact ⟨Nat.le_refl _, nofun⟩
  | cons t ts ih =>
      obtain ⟨hle, hlt⟩ := ih
      rw [List.flatMap_cons, List.flatMap_cons, percents_append, List.count_append]
      cases t with
      | literal s hs =>
          have hzero : percents (Token.literal s hs).atoms = s.count '%' := percents_chr s
          have htext : (Token.literal s hs).text.count '%' = s.count '%' := rfl
          refine ⟨by omega, fun hmem => ?_⟩
          have hrest := hlt (by simpa using hmem)
          omega
      | escape =>
          have hone : percents Token.escape.atoms = 1 := rfl
          have htwo : Token.escape.text.count '%' = 2 := rfl
          exact ⟨by omega, fun _ => by omega⟩
      | item name hname format =>
          have hone : percents (Token.item name hname format).atoms = 1 := rfl
          have hsome : 1 ≤ (Token.item name hname format).text.count '%' := by
            cases format <;> simp [Token.text]
          refine ⟨by omega, fun hmem => ?_⟩
          have hrest := hlt (by simpa using hmem)
          omega

/-- No letter comes first. -/
def Unlettered (s : List Char) : Prop := ∀ c ∈ s.head?, c.isAlpha = false

theorem unlettered_iff {s : List Char} : Unlettered s ↔ s.takeWhile Char.isAlpha = [] := by
  cases s with
  | nil => simp [Unlettered]
  | cons c s =>
      cases hc : c.isAlpha <;> simp [Unlettered, hc]

theorem plain_true_iff : Plain true ts ↔ Plain false ts ∧ Unlettered (ts.flatMap Token.text) := by
  induction ts with
  | nil => simp [Plain, Unlettered]
  | cons t ts ih =>
      cases t with
      | literal s hs =>
          rw [List.flatMap_cons]
          cases s with
          | nil => simpa [Plain, Token.text] using ih
          | cons c s => simp [Plain, Unlettered, Token.text, and_comm]
      | escape => simp [Plain]
      | item name hname format =>
          cases format with
          | none => simp [Plain, Unlettered, Token.text]
          | some format => simp [Plain]

/-- The name of an item token, with what is behind it. -/
theorem takeWhile_name {name : List Char} (h : name ∈ s_format_items) (rest : List Char) :
    (name ++ rest).takeWhile Char.isAlpha = name ++ rest.takeWhile Char.isAlpha :=
  List.takeWhile_append_of_pos (List.all_eq_true.mp (known_name h).2)

/-- Items that are read as they are written. -/
theorem scan_plain (h : Plain false ts) (nstr : List Char) :
    failed (scan (ts.flatMap Token.text) nstr) = false ∧
      atoms (scan (ts.flatMap Token.text) nstr) = nstr.map .chr ++ ts.flatMap Token.atoms := by
  induction ts generalizing nstr with
  | nil =>
      obtain ⟨hfail, hatoms⟩ := scan_nil nstr
      exact ⟨hfail, hatoms.trans (List.append_nil _).symm⟩
  | cons t ts ih =>
      rw [List.flatMap_cons, List.flatMap_cons]
      cases t with
      | literal s hs =>
          obtain ⟨hfail, hatoms⟩ := ih h.2 (nstr ++ s)
          rw [Token.text, scan_append hs]
          refine ⟨hfail, ?_⟩
          rw [hatoms, List.map_append, List.append_assoc]
          rfl
      | escape => exact h.elim
      | item name hname format =>
          cases format with
          | some format => exact h.elim
          | none =>
              obtain ⟨hplain, hhead⟩ := plain_true_iff.mp h
              obtain ⟨hfail, hatoms⟩ := ih hplain []
              have hname' : (name ++ ts.flatMap Token.text).takeWhile Char.isAlpha = name := by
                rw [takeWhile_name hname, unlettered_iff.mp hhead, List.append_nil]
              have hne : name ≠ [] := List.ne_nil_of_length_pos (by
                rw [(known_name hname).1]
                exact Nat.one_pos)
              have hcontains : s_format_items.contains name = true := by simpa using hname
              obtain ⟨hfail', hatoms'⟩ := scan_name nstr hname' hne
              rw [List.drop_left, hfail, hcontains] at hfail'
              rw [List.drop_left, hatoms, item_known hcontains] at hatoms'
              refine ⟨hfail', hatoms'.trans ?_⟩
              rw [List.append_assoc]
              rfl

/-- Tokens without escapes and formats have an error where a letter is behind an item. -/
theorem plain_of_scan (hescape : Token.escape ∉ ts)
    (hformat : ∀ name format, Atom.item name (some format) ∉ ts.flatMap Token.atoms)
    (h : failed (scan (ts.flatMap Token.text) nstr) = false) : Plain false ts := by
  induction ts generalizing nstr with
  | nil => trivial
  | cons t ts ih =>
      rw [List.mem_cons, not_or] at hescape
      rw [List.flatMap_cons] at hformat h
      have hformat' : ∀ name format, Atom.item name (some format) ∉ ts.flatMap Token.atoms :=
        fun name format hm => hformat name format (List.mem_append_right _ hm)
      cases t with
      | literal s hs =>
          rw [Token.text, scan_append hs] at h
          exact ⟨nofun, ih hescape.2 hformat' h⟩
      | escape => exact absurd rfl hescape.1
      | item name hname format =>
          cases format with
          | some format =>
              exact (hformat name format (List.mem_append_left _ (List.mem_singleton.mpr rfl))).elim
          | none =>
              have hlen := (known_name hname).1
              have hne : name ++ (ts.flatMap Token.text).takeWhile Char.isAlpha ≠ [] := by
                intro hnil
                have := congrArg List.length hnil
                simp only [List.length_append, List.length_nil] at this
                omega
              have hfail := (scan_name nstr (takeWhile_name hname _) hne).1
              rw [Token.text, List.cons_append] at h
              rw [h, eq_comm, Bool.or_eq_false_iff, Bool.not_eq_false'] at hfail
              have hlong := (known_name (List.contains_iff_mem.mp hfail.1)).1
              have hnil : (ts.flatMap Token.text).takeWhile Char.isAlpha = [] := by
                rw [List.length_append] at hlong
                exact List.length_eq_zero_iff.mp (by omega)
              have hrest := hfail.2
              rw [hnil, List.append_nil, List.drop_left] at hrest
              exact plain_true_iff.mpr ⟨ih hescape.2 hformat' hrest, unlettered_iff.mpr hnil⟩

/-- Of an escape the second `%` is read again, a format is not read at all, and the letters behind
an item are taken for its name. -/
theorem init_parses_iff (ts : List Token) : Parses ts ↔ Plain false ts := by
  rw [parses_iff]
  constructor
  · rintro ⟨hfail, hatoms⟩
    obtain ⟨hcount, hitems⟩ := scan_percents _ _ hfail
    rw [hatoms, List.count_nil, Nat.zero_add] at hcount
    rw [hatoms] at hitems
    refine plain_of_scan ?_ hitems hfail
    intro hescape
    exact absurd hcount (Nat.ne_of_lt ((percents_tokens ts).2 hescape))
  · intro h
    exact scan_plain h []

/-- An escape alone is an error. -/
theorem escape_fails : (init "%%".toList).2 = true ∧ ¬ Parses [.escape] := by
  have hfail : (init "%%".toList).2 = true := by
    rw [init_isError]
    decide
  refine ⟨hfail, ?_⟩
  intro h
  have hno : (init "%%".toList).2 = false := h.1
  rw [hfail] at hno
  cases hno

end CIM.LogFormatter
