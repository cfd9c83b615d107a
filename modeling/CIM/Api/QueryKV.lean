import CIM.Lib.Entries
import Mathlib.Data.List.Basic

/-!
# Keys and values of a query string

The pieces between the separators are taken in one after the other, each split at its first equals
sign.
-/
namespace CIM.api

abbrev Text : Type := List Char

abbrev KV : Type := AList fun _ : Text => Text

def insertAt (kv : KV) (rest : Text) (amp eq : Nat) : KV :=
  if eq < amp then kv.insert (rest.take eq) ((rest.drop (eq + 1)).take (amp - (eq + 1)))
  else if (rest.take amp).isEmpty then kv
  else kv.insert (rest.take amp) []

/-- One turn of the loop of `ParseQueryKV` on what is left of the string. -/
def insertPiece (kv : KV) (rest : Text) : KV :=
  insertAt kv rest (rest.idxOf '&') (rest.idxOf '=')

def parseLoop (kv : KV) (rest : Text) : KV :=
  if rest.isEmpty then kv
  else parseLoop (insertPiece kv rest) (rest.drop (rest.idxOf '&' + 1))
termination_by rest.length
decreasing_by
  rename_i h
  have hpos : 0 < rest.length := by
    cases rest with
    | nil => exact absurd rfl h
    | cons c rest => exact Nat.zero_lt_succ _
  rw [List.length_drop]
  omega

def ParseQueryKV (q : Text) : KV := parseLoop ∅ q

/-- What one piece between two separators says. -/
def pieceEntry (piece : Text) : Option (Text × Text) :=
  if '=' ∈ piece then some (piece.take (piece.idxOf '='), piece.drop (piece.idxOf '=' + 1))
  else if piece.isEmpty then none
  else some (piece, [])

def entries (q : Text) : List (Text × Text) := (q.splitOn '&').filterMap pieceEntry

def addPiece (kv : KV) (piece : Text) : KV :=
  match pieceEntry piece with
  | some x => kv.insert x.1 x.2
  | none => kv

variable {kv : KV} {rest piece : Text}

theorem addPiece_of_mem (h : '=' ∈ piece) : addPiece kv piece =
    kv.insert (piece.take (piece.idxOf '=')) (piece.drop (piece.idxOf '=' + 1)) := by
  rw [addPiece, pieceEntry, if_pos h]

theorem addPiece_of_notMem (h : '=' ∉ piece) :
    addPiece kv piece = if piece.isEmpty then kv else kv.insert piece [] := by
  rw [addPiece, pieceEntry, if_neg h]
  cases piece.isEmpty <;> rfl

/-- What stands behind the piece is not read. -/
theorem insertAt_append (kv : KV) (piece rest : Text) {i : Nat}
    (heq : '=' ∈ piece → i = piece.idxOf '=') (hno : '=' ∉ piece → piece.length ≤ i) :
    insertAt kv (piece ++ rest) piece.length i = addPiece kv piece := by
  unfold insertAt
  by_cases h : '=' ∈ piece
  · have hlt := List.idxOf_lt_length_iff.mpr h
    have hlen : (piece.drop (piece.idxOf '=' + 1)).length =
        piece.length - (piece.idxOf '=' + 1) := List.length_drop
    rw [heq h, if_pos hlt, addPiece_of_mem h, List.take_append_of_le_length (Nat.le_of_lt hlt),
      List.drop_append_of_le_length hlt, ← hlen, List.take_left]
  · rw [if_neg (Nat.not_lt.mpr (hno h)), addPiece_of_notMem h, List.take_left]

theorem insertPiece_last (h : '&' ∉ piece) : insertPiece kv piece = addPiece kv piece := by
  have happ := insertAt_append kv piece [] (i := piece.idxOf '=') (fun _ => rfl)
    fun hno => Nat.le_of_eq (List.idxOf_eq_length hno).symm
  rw [List.append_nil] at happ
  rw [insertPiece, List.idxOf_eq_length h, happ]

theorem idxOf_amp (h : '&' ∉ piece) (rest : Text) :
    (piece ++ '&' :: rest).idxOf '&' = piece.length := by
  rw [List.idxOf_append, if_neg h, List.idxOf_cons_self, Nat.zero_add]

theorem insertPiece_piece (h : '&' ∉ piece) (rest : Text) :
    insertPiece kv (piece ++ '&' :: rest) = addPiece kv piece := by
  rw [insertPiece, idxOf_amp h]
  refine insertAt_append kv piece _ List.idxOf_append_of_mem fun hno => ?_
  rw [List.idxOf_append, if_neg hno]
  exact Nat.le_add_left _ _

theorem parseLoop_nil : parseLoop kv [] = kv := by
  rw [parseLoop]
  rfl

theorem parseLoop_of_ne (h : rest ≠ []) :
    parseLoop kv rest = parseLoop (insertPiece kv rest) (rest.drop (rest.idxOf '&' + 1)) := by
  rw [parseLoop, if_neg (by rwa [List.isEmpty_iff])]

/-- The loop takes the pieces between the separators one after the other. -/
theorem parseLoop_eq (kv : KV) (q : Text) :
    parseLoop kv q = (q.splitOn '&').foldl addPiece kv := by
  induction hn : q.length using Nat.strong_induction_on generalizing kv q with
  | _ n ih =>
      subst hn
      by_cases hamp : '&' ∈ q
      · obtain ⟨piece, rest, rfl, hpiece⟩ := List.eq_append_cons_of_mem hamp
        have hdrop : (piece ++ '&' :: rest).drop (piece.length + 1) = rest := by simp
        rw [parseLoop_of_ne (by simp), insertPiece_piece hpiece, idxOf_amp hpiece, hdrop,
          ih rest.length (by simp; omega) _ rest rfl,
          List.splitOn_append_cons_self_of_not_mem hpiece]
        rfl
      · have hone : q.splitOn '&' = [q] := by
          have hparts : ∀ l ∈ [q], '&' ∉ l := by simpa using hamp
          have h := List.splitOn_intercalate '&' hparts (by simp)
          rwa [List.intercalate_singleton] at h
        rw [hone, List.foldl_cons, List.foldl_nil]
        by_cases hq : q = []
        · subst hq
          exact parseLoop_nil
        · rw [parseLoop_of_ne hq, insertPiece_last hamp, List.idxOf_eq_length hamp,
            List.drop_of_length_le (by omega), parseLoop_nil]

theorem foldl_addPiece (kv : KV) (pieces : List Text) :
    pieces.foldl addPiece kv = Entries.insertAll kv (pieces.filterMap pieceEntry) := by
  induction pieces generalizing kv with
  | nil => rfl
  | cons p pieces ih =>
      rw [List.foldl_cons, ih, List.filterMap_cons, addPiece]
      cases pieceEntry p <;> rfl

theorem lookup_parseQueryKV (q k : Text) : (ParseQueryKV q).lookup k =
    ((entries q).filter fun x => decide (x.1 = k)).getLast?.map Prod.snd := by
  have hfold : ParseQueryKV q = Entries.insertAll ∅ (entries q) := by
    rw [ParseQueryKV, parseLoop_eq, entries, foldl_addPiece]
  rw [hfold, Entries.lookup_insertAll, AList.lookup_empty, Option.or_none]

/-- A key has the value of the last piece with it, and a query that was put together of keys and
values is taken apart into them again. -/
theorem parseQueryKV_pieces :
    (∀ q k, (ParseQueryKV q).lookup k =
      ((entries q).filter fun x => decide (x.1 = k)).getLast?.map Prod.snd) ∧
    ∀ l : List (Text × Text), (∀ x ∈ l, '&' ∉ x.1 ∧ '=' ∉ x.1 ∧ '&' ∉ x.2) →
      entries (['&'].intercalate (l.map fun x => x.1 ++ '=' :: x.2)) = l := by
  refine ⟨lookup_parseQueryKV, fun l hl => ?_⟩
  have hentry : ∀ x ∈ l, pieceEntry (x.1 ++ '=' :: x.2) = some x := by
    intro x hx
    have hidx : (x.1 ++ '=' :: x.2).idxOf '=' = x.1.length := by
      rw [List.idxOf_append, if_neg (hl x hx).2.1, List.idxOf_cons_self, Nat.zero_add]
    rw [pieceEntry, if_pos (by simp), hidx, List.take_left]
    simp
  by_cases hne : l = []
  · subst hne
    rfl
  · have hpieces : ∀ piece ∈ l.map fun x => x.1 ++ '=' :: x.2, '&' ∉ piece := by
      intro piece hp
      obtain ⟨x, hx, rfl⟩ := List.mem_map.mp hp
      simp [(hl x hx).1, (hl x hx).2.2]
    rw [entries, List.splitOn_intercalate '&' hpieces (by simpa using hne), List.filterMap_map]
    exact (List.filterMap_congr hentry).trans List.filterMap_some

end CIM.api
