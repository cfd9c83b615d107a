import Mathlib.Data.List.Basic

/-!
# Loops over entries that a callback may stop

A callback with a state is called for the entries in turn. It may write to the entry it is given,
and it stops the loop by returning false. Two loops are nested over an array of arrays: either
`return` leaves both of them, or `break` leaves the inner one only.
-/
namespace Traversal

/-- The entry, what the callback made of it, and what it returned. -/
structure Visit (α : Type) where
  entry : α
  written : α
  more : Bool

/-- Whether the loop ran to its end, what it leaves of the entries, and the calls it made. -/
structure Result (γ α σ : Type) where
  more : Bool
  left : γ
  calls : List (Visit α)
  state : σ

abbrev Visitor (α σ : Type) : Type := σ → α → Bool × α × σ

variable {α σ : Type} (visit : Visitor α σ)

def each : σ → List α → Result (List α) α σ
  | s, [] => ⟨true, [], [], s⟩
  | s, a :: l =>
      let r := visit s a
      if r.1 then
        let q := each r.2.2 l
        ⟨q.more, r.2.1 :: q.left, ⟨a, r.2.1, true⟩ :: q.calls, q.state⟩
      else ⟨false, r.2.1 :: l, [⟨a, r.2.1, false⟩], r.2.2⟩

/-- A call that returns false leaves both loops. -/
def eachReturn : σ → List (List α) → Result (List (List α)) α σ
  | s, [] => ⟨true, [], [], s⟩
  | s, b :: bs =>
      let r := each visit s b
      if r.more then
        let q := eachReturn r.state bs
        ⟨q.more, r.left :: q.left, r.calls ++ q.calls, q.state⟩
      else ⟨false, r.left :: bs, r.calls, r.state⟩

/-- A call that returns false leaves the inner loop. -/
def eachBreak : σ → List (List α) → Result (List (List α)) α σ
  | s, [] => ⟨true, [], [], s⟩
  | s, b :: bs =>
      let r := each visit s b
      let q := eachBreak r.state bs
      ⟨q.more, r.left :: q.left, r.calls ++ q.calls, q.state⟩

/-- The callback returns true for each of the entries in turn. -/
def Accepts : σ → List α → Prop
  | _, [] => True
  | s, a :: l => (visit s a).1 = true ∧ Accepts (visit s a).2.2 l

/-- The state of the callback after it was called for all of the entries. -/
def after (s : σ) (l : List α) : σ := l.foldl (fun s a => (visit s a).2.2) s

/-- In turn, until the callback returns false, it leaves each entry as it was. -/
def Unchanging : σ → List α → Prop
  | _, [] => True
  | s, a :: l => (visit s a).2.1 = a ∧ ((visit s a).1 = true → Unchanging (visit s a).2.2 l)

/-- Behind the first array in which the callback returns false there is no entry. -/
def StopsLate : σ → List (List α) → Prop
  | _, [] => True
  | s, b :: bs => (Accepts visit s b ∧ StopsLate (after visit s b) bs) ∨
      (¬ Accepts visit s b ∧ ∀ b' ∈ bs, b' = [])

variable {visit} {s : σ} {a : α} {l : List α} {bs : List (List α)}

/-- What the calls of a loop over the entries are: those of a prefix, and only the last one may
have returned false. -/
structure Calls (s : σ) (l : List α) (r : Result (List α) α σ) : Prop where
  entries : r.calls.map Visit.entry ++ l.drop r.calls.length = l
  left : r.left = r.calls.map Visit.written ++ l.drop r.calls.length
  before : ∀ c ∈ r.calls.dropLast, c.more = true
  more : r.more = true → (∀ c ∈ r.calls, c.more = true) ∧ r.calls.map Visit.entry = l
  stop : r.more = false → ∃ c ∈ r.calls, c.more = false

variable (visit)

variable {visit}

theorem Calls.sublist {r : Result (List α) α σ} (h : Calls s l r) :
    (r.calls.map Visit.entry).Sublist l := by
  have hsub := List.sublist_append_left (r.calls.map Visit.entry) (l.drop r.calls.length)
  rwa [h.entries] at hsub

end Traversal
