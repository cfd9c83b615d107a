import CIM.Ds.ReadFrom
import CIM.Lib.Patch

/-!
# Arrays in the pool and arrays of their own

A container that was loaded has its arrays in one vector, `m_values`; an array that is made later
is allocated by itself. A node has only a pointer, and `inValues` has to tell which of the two it
is before an array is freed.
-/
namespace CIM.ds

/-- The elements of `m_values` and the arrays of `new V[n]` are apart in memory. -/
inductive Ptr
  | null
  | pool (offset : Nat)
  | own (id : Nat)
  deriving DecidableEq, Repr

/-- `int size; V *val;` with the pointer itself. -/
structure Slot where
  size : Int
  val : Ptr
  deriving DecidableEq, Repr

/-- Arrays are numbered as they are made, and `next` is the number of the next one. -/
structure Memory (V : Type) where
  m_values : List V
  heap : Nat → Option (List V)
  next : Nat

namespace Memory

variable {V : Type}

/-- The null pointer counts as one into the vector. -/
def inValues (w : Memory V) : Ptr → Bool
  | .null => true
  | .pool offset => decide (offset < w.m_values.length)
  | .own _ => false

/-- `new V[n]`, filled. -/
def alloc (w : Memory V) (l : List V) : Ptr × Memory V :=
  (.own w.next,
    { w with
      heap := Function.update w.heap w.next (some l)
      next := w.next + 1 })

/-- `if (!inValues(val)) delete[] val;`, undefined where it is no array of its own. -/
def release (w : Memory V) (p : Ptr) : Option (Memory V) :=
  if w.inValues p then some w
  else
    match p with
    | .own id =>
        if (w.heap id).isSome then some { w with heap := Function.update w.heap id none } else none
    | _ => none

/-- `memcpy(val, v, ...)` over an array of the same length. -/
def overwrite (w : Memory V) (p : Ptr) (l : List V) : Option (Memory V) :=
  match p with
  | .null => none
  | .pool offset =>
      if offset + l.length ≤ w.m_values.length then
        some { w with m_values := Patch.patch w.m_values offset l }
      else none
  | .own id =>
      if (w.heap id).map List.length = some l.length then
        some { w with heap := Function.update w.heap id (some l) }
      else none

/-- What the pointer of a node points to. -/
def array (w : Memory V) (a : Slot) : List V :=
  match a.val with
  | .null => []
  | .pool offset => Patch.slice w.m_values offset a.size.toNat
  | .own id => (w.heap id).getD []

/-- The pointer points to as many values as the node says; a size is an `int`, and that of an
array in the vector is not negative. -/
def Valid (w : Memory V) (a : Slot) : Prop :=
  match a.val with
  | .null => False
  | .pool offset =>
      0 < a.size ∧ a.size < 2147483648 ∧ offset + a.size.toNat ≤ w.m_values.length
  | .own id =>
      id < w.next ∧ ∃ l, w.heap id = some l ∧ l.length < 4294967296 ∧ toInt32 l.length = a.size

end Memory

/-- Two arrays have no place in common. -/
def Slot.Apart (a b : Slot) : Prop :=
  match a.val, b.val with
  | .pool i, .pool j => i + a.size.toNat ≤ j ∨ j + b.size.toNat ≤ i
  | .own i, .own j => i ≠ j
  | _, _ => True

theorem Slot.Apart.symm {a b : Slot} (h : a.Apart b) : b.Apart a := by
  unfold Slot.Apart at h ⊢
  split at h
  · rename_i hb ha
    rw [hb, ha]
    exact h.symm
  · rename_i hb ha
    rw [hb, ha]
    exact h.symm
  · rename_i hpool hown
    split
    · rename_i hb ha
      exact absurd hb (hpool _ _ ha)
    · rename_i hb ha
      exact absurd hb (hown _ _ ha)
    · trivial

namespace Memory

variable {V : Type} {w w' : Memory V} {a b : Slot} {l : List V}

/-- The array of the node is as it was. -/
structure Frames (w w' : Memory V) (a : Slot) : Prop where
  valid : w.Valid a → w'.Valid a
  array : w.Valid a → w'.array a = w.array a

theorem frames_alloc (w : Memory V) (l : List V) (a : Slot) : Frames w (w.alloc l).2 a := by
  obtain ⟨size, p⟩ := a
  cases p with
  | null => exact ⟨id, fun _ => rfl⟩
  | pool offset => exact ⟨id, fun _ => rfl⟩
  | own i =>
      have hsame : w.Valid ⟨size, .own i⟩ → (w.alloc l).2.heap i = w.heap i := by
        rintro ⟨hi, -⟩
        exact Function.update_of_ne (Nat.ne_of_lt hi) _ _
      constructor
      · intro h
        obtain ⟨hi, l', hl', hlen⟩ := id h
        exact ⟨Nat.lt_succ_of_lt hi, l', (hsame h).trans hl', hlen⟩
      · intro h
        change ((w.alloc l).2.heap i).getD [] = (w.heap i).getD []
        rw [hsame h]

theorem valid_alloc (w : Memory V) (hl : l.length < 4294967296) :
    (w.alloc l).2.Valid ⟨toInt32 l.length, (w.alloc l).1⟩ :=
  ⟨Nat.lt_succ_self _, l, Function.update_self _ _ _, hl, rfl⟩

theorem array_alloc (w : Memory V) (l : List V) (size : Int) :
    (w.alloc l).2.array ⟨size, (w.alloc l).1⟩ = l := by
  change (Function.update w.heap w.next (some l) w.next).getD [] = l
  rw [Function.update_self]
  rfl

theorem apart_alloc (h : w.Valid a) (size : Int) : Slot.Apart ⟨size, (w.alloc l).1⟩ a := by
  obtain ⟨size', p⟩ := a
  cases p with
  | null => exact h.elim
  | pool offset => trivial
  | own i => exact fun he => absurd he.symm (Nat.ne_of_lt h.1)

/-- An array that a node points to can be released, and no other one is touched. -/
theorem release_spec (hb : w.Valid b) : ∃ w', w.release b.val = some w' ∧
    ∀ a, b.Apart a → Frames w w' a := by
  obtain ⟨size, p⟩ := b
  cases p with
  | null => exact hb.elim
  | pool offset =>
      have hin : w.inValues (.pool offset) = true := by
        obtain ⟨hpos, -, hle⟩ := hb
        refine decide_eq_true ?_
        change 0 < size at hpos
        change offset + size.toNat ≤ _ at hle
        omega
      exact ⟨w, if_pos hin, fun a _ => ⟨id, fun _ => rfl⟩⟩
  | own i =>
      obtain ⟨hi, l, hl, -⟩ := hb
      have hsome : (w.heap i).isSome = true := by
        rw [hl]
        rfl
      refine ⟨{ w with heap := Function.update w.heap i none }, if_pos hsome, ?_⟩
      rintro ⟨size', p'⟩ hapart
      cases p' with
      | null => exact ⟨id, fun _ => rfl⟩
      | pool offset => exact ⟨id, fun _ => rfl⟩
      | own j =>
          have hsame : Function.update w.heap i none j = w.heap j :=
            Function.update_of_ne (Ne.symm hapart) _ _
          constructor
          · rintro ⟨hj, l', hl', hlen⟩
            exact ⟨hj, l', hsame.trans hl', hlen⟩
          · intro _
            change (Function.update w.heap i none j).getD [] = (w.heap j).getD []
            rw [hsame]

/-- An array is overwritten in place, and no other one is touched. -/
theorem overwrite_spec (hb : w.Valid b) (hl : l.length = (w.array b).length) :
    ∃ w', w.overwrite b.val l = some w' ∧ w'.Valid b ∧ w'.array b = l ∧
      ∀ a, b.Apart a → Frames w w' a := by
  obtain ⟨size, p⟩ := b
  cases p with
  | null => exact hb.elim
  | pool offset =>
      obtain ⟨hpos, hint, hle⟩ := hb
      have hlen : l.length = size.toNat := by
        rw [hl]
        change (Patch.slice w.m_values offset size.toNat).length = _
        rw [Patch.length_slice]
        change offset + size.toNat ≤ _ at hle
        omega
      have hfits : offset + l.length ≤ w.m_values.length := by
        rw [hlen]
        exact hle
      refine ⟨{ w with m_values := Patch.patch w.m_values offset l }, if_pos hfits,
        ⟨hpos, hint, ?_⟩, ?_, ?_⟩
      · change _ ≤ (Patch.patch w.m_values offset l).length
        rw [Patch.length_patch]
        exact hle
      · change Patch.slice (Patch.patch w.m_values offset l) offset size.toNat = l
        rw [← hlen]
        exact Patch.slice_patch_self hfits
      · rintro ⟨size', p'⟩ hapart
        cases p' with
        | null => exact ⟨id, fun _ => rfl⟩
        | own i => exact ⟨id, fun _ => rfl⟩
        | pool j =>
            constructor
            · rintro ⟨hpos', hint', hle'⟩
              refine ⟨hpos', hint', ?_⟩
              change _ ≤ (Patch.patch w.m_values offset l).length
              rw [Patch.length_patch]
              exact hle'
            · intro _
              change offset + size.toNat ≤ j ∨ j + size'.toNat ≤ offset at hapart
              refine Patch.slice_patch_beside ?_
              rw [hlen]
              exact hapart.symm
  | own i =>
      obtain ⟨hi, l₀, hl₀, hlt, hsize⟩ := hb
      have harray : w.array ⟨size, .own i⟩ = l₀ := by
        change (w.heap i).getD [] = l₀
        rw [hl₀]
        rfl
      rw [harray] at hl
      have hsame : (w.heap i).map List.length = some l.length := by
        rw [hl₀, hl]
        rfl
      refine ⟨{ w with heap := Function.update w.heap i (some l) }, if_pos hsame,
        ⟨hi, l, Function.update_self _ _ _, ?_, ?_⟩, ?_, ?_⟩
      · rw [hl]
        exact hlt
      · rw [hl]
        exact hsize
      · change (Function.update w.heap i (some l) i).getD [] = l
        rw [Function.update_self]
        rfl
      · rintro ⟨size', p'⟩ hapart
        cases p' with
        | null => exact ⟨id, fun _ => rfl⟩
        | pool offset => exact ⟨id, fun _ => rfl⟩
        | own j =>
            have hother : Function.update w.heap i (some l) j = w.heap j :=
              Function.update_of_ne (Ne.symm hapart) _ _
            constructor
            · rintro ⟨hj, l', hl', hlen⟩
              exact ⟨hj, l', hother.trans hl', hlen⟩
            · intro _
              change (Function.update w.heap i (some l) j).getD [] = (w.heap j).getD []
              rw [hother]

end Memory

/-! ## The arrays of a container -/

section Owned

variable {K V X : Type} [DecidableEq K] {w w' : Memory V} {f : K → Option Slot} {k : K}
  {o : Option Slot}

/-- Each node has an array, and no two nodes have the same place. -/
structure Owned (w : Memory V) (f : K → Option Slot) : Prop where
  valid : ∀ k a, f k = some a → w.Valid a
  apart : ∀ k k' a a', f k = some a → f k' = some a' → k ≠ k' → a.Apart a'

/-- What a reader finds under the keys; `view` is made of the size and the array of a node. -/
def contents (view : Int → List V → X) (w : Memory V) (f : K → Option Slot) (k : K) : Option X :=
  (f k).map fun a => view a.size (w.array a)

omit [DecidableEq K] in
theorem contents_some (view : Int → List V → X) {a : Slot} (h : f k = some a) :
    contents view w f k = some (view a.size (w.array a)) := by
  rw [contents, h]
  rfl

/-- The node of one key is replaced or taken away, and the arrays of the others are left. -/
theorem Owned.update (h : Owned w f)
    (hothers : ∀ k' a, k' ≠ k → f k' = some a → w.Frames w' a)
    (hnew : ∀ a, o = some a → w'.Valid a ∧ ∀ k' b, k' ≠ k → f k' = some b → a.Apart b) :
    Owned w' (Function.update f k o) := by
  have hcases : ∀ {k' a}, Function.update f k o k' = some a →
      k' = k ∧ o = some a ∨ k' ≠ k ∧ f k' = some a := by
    intro k' a ha
    by_cases hk : k' = k
    · rw [hk, Function.update_self] at ha
      exact .inl ⟨hk, ha⟩
    · rw [Function.update_of_ne hk] at ha
      exact .inr ⟨hk, ha⟩
  constructor
  · intro k' a ha
    rcases hcases ha with ⟨-, ho⟩ | ⟨hk, ha⟩
    · exact (hnew a ho).1
    · exact (hothers k' a hk ha).valid (h.valid k' a ha)
  · intro k₁ k₂ a b ha hb hne
    rcases hcases ha with ⟨hk₁, ho⟩ | ⟨hk₁, ha⟩
    · rcases hcases hb with ⟨hk₂, -⟩ | ⟨hk₂, hb⟩
      · exact absurd (hk₁.trans hk₂.symm) hne
      · exact (hnew a ho).2 k₂ b hk₂ hb
    · rcases hcases hb with ⟨-, ho⟩ | ⟨-, hb⟩
      · exact ((hnew b ho).2 k₁ a hk₁ ha).symm
      · exact h.apart k₁ k₂ a b ha hb hne

theorem contents_update (view : Int → List V → X) (h : Owned w f)
    (hothers : ∀ k' a, k' ≠ k → f k' = some a → w.Frames w' a) :
    contents view w' (Function.update f k o) =
      Function.update (contents view w f) k (o.map fun a => view a.size (w'.array a)) := by
  funext k'
  by_cases hk : k' = k
  · rw [hk, Function.update_self, contents, Function.update_self]
  · rw [Function.update_of_ne hk, contents, Function.update_of_ne hk, contents]
    cases ha : f k' with
    | none => rfl
    | some a =>
        change some (view a.size (w'.array a)) = some (view a.size (w.array a))
        rw [(hothers k' a hk ha).array (h.valid k' a ha)]

end Owned

end CIM.ds
