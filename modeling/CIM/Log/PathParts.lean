import CIM.Lib.Place
import CIM.Log.LogRotation

/-!
# The parts of a path

The name that a log file is renamed to is put together from the directory, the name and the
extension of its path. `FileName` cuts at the last dot of the name, whatever stands behind it;
`Extension` does not return a dot at the end of the path.
-/
namespace CIM.LogRotation

/-- What stands behind the last separator. -/
def lastComponent (path : Text) : Text := (path.reverse.takeWhile fun c => !separator c).reverse

/-- The parts make up the path, or the path in the current directory. -/
def Decomposes (path : Text) : Prop :=
  filePath path ++ fileName path ++ extension path =
    if path.any separator then path else ['.', '/'] ++ path

instance (path : Text) : Decidable (Decomposes path) :=
  inferInstanceAs (Decidable (filePath path ++ fileName path ++ extension path = _))

variable {path dir name : Text}

/-- A search from the back. -/
theorem findLastOf_eq (p : Char → Bool) (s : Text) : findLastOf p s = Place.last p s := rfl

/-! ## The directory -/

/-- A path is a directory, which is empty or ends with a separator, and a name behind it. -/
structure InDir (dir name path : Text) : Prop where
  eq : path = dir ++ name
  name_no : ∀ c ∈ name, ¬separator c
  dir_last : ∀ c ∈ dir.getLast?, separator c
  name_ne : name ≠ []

theorem exists_inDir (hlast : lastComponent path ≠ []) : ∃ dir name, InDir dir name path := by
  rcases Place.exists_last separator path with hnone | ⟨front, c, back, rfl, hc, hback⟩
  · refine ⟨[], path, rfl, hnone, nofun, ?_⟩
    rintro rfl
    exact hlast rfl
  · refine ⟨front ++ [c], back, by simp, hback, by simpa using hc, ?_⟩
    rintro rfl
    refine hlast ?_
    simp [lastComponent, hc]

namespace InDir

theorem any_separator (h : InDir dir name path) : path.any separator ↔ dir ≠ [] := by
  rw [h.eq, List.any_append, Bool.or_eq_true, List.any_eq_true, List.any_eq_true]
  constructor
  · rintro (⟨c, hc, -⟩ | ⟨c, hc, hsep⟩)
    · exact List.ne_nil_of_mem hc
    · exact absurd hsep (h.name_no c hc)
  · intro hne
    exact .inl ⟨dir.getLast hne, List.getLast_mem hne,
      h.dir_last _ (List.getLast?_eq_some_getLast hne)⟩

theorem find_eq (h : InDir dir name path) : findLastOf separator path =
    if dir = [] then none else some (dir.length - 1) := by
  split_ifs with hdir
  · rw [h.eq, hdir]
    exact Place.last_none h.name_no
  · have hsep := h.dir_last _ (List.getLast?_eq_some_getLast hdir)
    have hdrop : dir.dropLast ++ dir.getLast hdir :: name = path := by
      rw [h.eq, List.append_cons, List.dropLast_append_getLast]
    rw [← hdrop, findLastOf_eq, Place.last_append hsep h.name_no, List.length_dropLast]

theorem filePath_eq (h : InDir dir name path) :
    filePath path = if dir = [] then ['.', '/'] else dir := by
  rw [filePath, h.find_eq]
  split_ifs with hdir
  · rfl
  · have hpos := List.length_pos_of_ne_nil hdir
    have hlen : dir.length - 1 + 1 = dir.length := by omega
    rw [h.eq]
    simp only [hlen, List.take_left]

theorem fileNameExt_eq (h : InDir dir name path) : fileNameExt path = name := by
  rw [fileNameExt, h.find_eq]
  split_ifs with hdir
  · rw [h.eq, hdir, List.nil_append]
  · have hpos := List.length_pos_of_ne_nil hdir
    have hname := List.length_pos_of_ne_nil h.name_ne
    have hlen : dir.length - 1 + 1 = dir.length := by omega
    have hlt : dir.length < (dir ++ name).length := by
      rw [List.length_append]
      omega
    rw [h.eq]
    simp only [hlen, if_pos hlt, List.drop_left]

/-! ## The name -/

theorem parts_no_dot (h : InDir dir name path) (hdot : ∀ c ∈ name, c ≠ '.') :
    fileName path = name ∧ extension path = [] := by
  have hfind : findLastOf (· = '.') name = none :=
    Place.last_none fun c hc => by simpa using hdot c hc
  unfold fileName extension
  rw [h.fileNameExt_eq, hfind]
  exact ⟨rfl, rfl⟩

/-- With a dot in front as well, when it is the only one. -/
theorem parts_dot {stem rest : Text} (h : InDir dir (stem ++ '.' :: rest) path)
    (hrest : ∀ c ∈ rest, c ≠ '.') :
    (fileName path = if stem = [] then '.' :: rest else stem) ∧
    extension path = if stem = [] ∨ dir = [] ∧ rest = [] then [] else '.' :: rest := by
  have hfind : findLastOf (· = '.') (stem ++ '.' :: rest) = some stem.length :=
    Place.last_append (by decide) fun c hc => by simpa using hrest c hc
  have hlength : path.length = dir.length + (stem.length + (rest.length + 1)) := by
    rw [h.eq]
    simp only [List.length_append, List.length_cons]
  unfold fileName extension
  rw [h.fileNameExt_eq, hfind]
  simp only [ne_eq, List.length_eq_zero_iff, List.take_left, List.drop_left]
  constructor
  · by_cases hstem : stem = []
    · simp [hstem]
    · rw [if_pos hstem, if_neg hstem]
  · have hcond : (¬stem = [] ∧ stem.length + 1 < path.length) ↔
        ¬(stem = [] ∨ dir = [] ∧ rest = []) := by
      rw [hlength, ← List.length_eq_zero_iff (l := dir), ← List.length_eq_zero_iff (l := rest),
        not_or]
      refine and_congr_right fun _ => ?_
      omega
    simp only [hcond, ite_not]

theorem getLast?_dot {stem rest : Text} (hrest : ∀ c ∈ rest, c ≠ '.') :
    (stem ++ '.' :: rest).getLast? = some '.' ↔ rest = [] := by
  rcases List.eq_nil_or_concat rest with rfl | ⟨rest, d, rfl⟩
  · simp
  · have hd : d ≠ '.' := hrest d (by simp)
    rw [List.concat_eq_append, ← List.cons_append, ← List.append_assoc, List.getLast?_concat]
    simp [hd]

/-- Only a dot at the end of the name is ever lost, and only without a directory. -/
theorem parts_iff (h : InDir dir name path) : fileName path ++ extension path = name ↔
    dir ≠ [] ∨ name.getLast? ≠ some '.' ∨ name = ['.'] := by
  rcases Place.exists_last (· = '.') name with hnone | ⟨stem, c, rest, rfl, hc, hrest⟩
  · have hdot : ∀ c ∈ name, c ≠ '.' := fun c hc => by simpa using hnone c hc
    obtain ⟨hname, hext⟩ := h.parts_no_dot hdot
    rw [hname, hext, List.append_nil]
    exact iff_of_true rfl (.inr (.inl fun hl => hdot '.' (List.mem_of_getLast? hl) rfl))
  · obtain rfl : c = '.' := by simpa using hc
    have hdot : ∀ c ∈ rest, c ≠ '.' := fun c hc => by simpa using hrest c hc
    obtain ⟨hname, hext⟩ := h.parts_dot hdot
    have hlast : (stem ++ '.' :: rest).getLast? = some '.' ↔ rest = [] := getLast?_dot hdot
    rw [hname, hext]
    by_cases hstem : stem = []
    · subst hstem
      simp only [List.nil_append, true_or, if_true, List.append_nil, true_iff]
      by_cases hr : rest = []
      · exact .inr (.inr (by rw [hr]))
      · exact .inr (.inl fun hl => hr (hlast.mp hl))
    · have hne : stem ++ '.' :: rest ≠ ['.'] := by
        intro heq
        have hlen := congrArg List.length heq
        have hpos := List.length_pos_of_ne_nil hstem
        simp only [List.length_append, List.length_cons, List.length_nil] at hlen
        omega
      simp only [hstem, false_or, if_false, hne, or_false, ne_eq, hlast]
      by_cases hlost : dir = [] ∧ rest = []
      · simp [hlost]
      · rw [if_neg hlost]
        exact iff_of_true rfl (not_and_or.mp hlost)

theorem decomposes_iff (h : InDir dir name path) :
    Decomposes path ↔ fileName path ++ extension path = name := by
  unfold Decomposes
  rw [h.filePath_eq, List.append_assoc]
  by_cases hdir : dir = []
  · have hany : ¬path.any separator := fun ha => h.any_separator.mp ha hdir
    have hpath : path = name := by rw [h.eq, hdir, List.nil_append]
    rw [if_pos hdir, if_neg hany, ← hpath, List.append_right_inj]
  · rw [if_neg hdir, if_pos (h.any_separator.mpr hdir)]
    constructor
    · intro hparts
      exact List.append_cancel_left (hparts.trans h.eq)
    · intro hname
      rw [hname]
      exact h.eq.symm

end InDir

/-- The parts of a path with a name make it up where it has a directory, or does not end with a
dot, or is the dot alone. -/
theorem path_parts_iff (path : Text) (hlast : lastComponent path ≠ []) :
    Decomposes path ↔ path.any separator ∨ path.getLast? ≠ some '.' ∨ path = ['.'] := by
  obtain ⟨dir, name, h⟩ := exists_inDir hlast
  rw [h.decomposes_iff, h.parts_iff, h.any_separator]
  by_cases hdir : dir = []
  · have hpath : path = name := by rw [h.eq, hdir, List.nil_append]
    rw [hpath]
  · simp [hdir]

theorem path_parts_iff_app : Decomposes "log/app.log".toList :=
  (path_parts_iff "log/app.log".toList (by decide)).mpr (.inl (by decide))

/-- Without a directory the dot at the end is lost, with one it is not. -/
theorem last_dot_lost : lastComponent ['a', '.'] ≠ [] ∧ ¬Decomposes ['a', '.'] ∧
    filePath ['a', '.'] ++ fileName ['a', '.'] ++ extension ['a', '.'] = ['.', '/', 'a'] ∧
    Decomposes ['/', 'a', '.'] := by decide

end CIM.LogRotation
