import Mathlib.Data.List.Basic
import Mathlib.Order.Basic

/-!
# Sorted array

The two binary searches of `Array` and the insertions that use them. Elements are compared by
`operator<` or by a comparator; both are a strict weak order. In the search with a comparator
`end == m - 1;` stands where `end` should be assigned.
-/
namespace CIM.ds.Array

variable {T : Type}

/-- A strict weak order, as `std::sort` and the searches demand. -/
structure StrictWeak (lt : T → T → Bool) : Prop where
  asymm : ∀ {a b}, lt a b = true → lt b a = false
  split : ∀ {a c} (b), lt a c = true → lt a b = true ∨ lt b c = true

variable (lt : T → T → Bool)

/-- `insert(idx, v)`, whose `idx` is the encoded place. -/
def insertAt (m_data : List T) (idx : Int) (v : T) : List T :=
  m_data.take (-idx - 1).toNat ++ v :: m_data.drop (-idx - 1).toNat

/-- What both `insert(v)` and `insert(v, cmp)` do with the result of their search. -/
def place (m_data : List T) (idx : Int) (v : T) : List T :=
  if idx ≥ 0 then m_data.set idx.toNat v else insertAt m_data idx v

def Sorted (m_data : List T) : Prop := m_data.Pairwise fun a b => lt b a = false

/-- Sorted, and no two elements are equal. -/
def StrictSorted (m_data : List T) : Prop := m_data.Pairwise fun a b => lt a b = true

def Same (a b : T) : Prop := lt a b = false ∧ lt b a = false

/-- The result a search owes: the place of an equal element, or where there is none the encoded
place that has the smaller elements before it and the greater ones behind. -/
def Found (m_data : List T) (v : T) (r : Int) : Prop :=
  (∃ (i : Nat) (x : T), r = i ∧ m_data[i]? = some x ∧ Same lt x v) ∨
    ((∀ x ∈ m_data, ¬ Same lt x v) ∧ ∃ i : Nat, i ≤ m_data.length ∧ r = -i - 1 ∧
      (∀ x ∈ m_data.take i, lt x v = true) ∧ ∀ x ∈ m_data.drop i, lt v x = true)

/-- The places that halving comes to when the end stays where it is. -/
def rungs (n b : Nat) : List Nat :=
  if b < n then (b + (n - 1)) / 2 :: rungs n ((b + (n - 1)) / 2 + 1) else []
  termination_by n - b
  decreasing_by omega

/-- The value is above all elements, or equal to the one at a place that halving comes to. -/
def Reached (m_data : List T) (v : T) : Prop :=
  (∀ x ∈ m_data, lt x v = true) ∨
    ∃ m ∈ rungs m_data.length 0, ∃ x, m_data[m]? = some x ∧ Same lt x v

variable {lt} {m_data : List T} {v : T}

theorem StrictWeak.irrefl (h : StrictWeak lt) (a : T) : lt a a = false := by
  by_contra haa
  have haa' : lt a a = true := by simpa using haa
  rw [h.asymm haa'] at haa'
  cases haa'

theorem StrictWeak.trans (h : StrictWeak lt) {a b c : T} (hab : lt a b = true)
    (hbc : lt b c = true) : lt a c = true := by
  rcases h.split c hab with hac | hcb
  · exact hac
  · rw [h.asymm hbc] at hcb
    cases hcb

theorem StrictSorted.sorted (h : StrictWeak lt) (hs : StrictSorted lt m_data) : Sorted lt m_data :=
  List.Pairwise.imp (fun hab => h.asymm hab) hs

theorem Sorted.get (hs : Sorted lt m_data) (h : StrictWeak lt) {i j : Nat} {x y : T} (hij : i ≤ j)
    (hi : m_data[i]? = some x) (hj : m_data[j]? = some y) : lt y x = false := by
  obtain ⟨hi', rfl⟩ := List.getElem?_eq_some_iff.mp hi
  obtain ⟨hj', rfl⟩ := List.getElem?_eq_some_iff.mp hj
  rcases Nat.lt_or_eq_of_le hij with hlt | rfl
  · exact List.pairwise_iff_getElem.mp hs i j hi' hj' hlt
  · exact h.irrefl _

/-- What is below the value stays below it to the left, what is above it to the right. -/
theorem Sorted.below (hs : Sorted lt m_data) (h : StrictWeak lt) {i j : Nat} {x y : T}
    (hij : i ≤ j) (hi : m_data[i]? = some x) (hj : m_data[j]? = some y) (hy : lt y v = true) :
    lt x v = true := by
  rcases h.split x hy with hyx | hxv
  · rw [hs.get h hij hi hj] at hyx
    cases hyx
  · exact hxv

theorem Sorted.above (hs : Sorted lt m_data) (h : StrictWeak lt) {i j : Nat} {x y : T}
    (hij : i ≤ j) (hi : m_data[i]? = some x) (hj : m_data[j]? = some y) (hx : lt v x = true) :
    lt v y = true := by
  rcases h.split y hx with hvy | hyx
  · exact hvy
  · rw [hs.get h hij hi hj] at hyx
    cases hyx

/-- The elements before `b` are below the value, those behind `e` above it. -/
structure Narrowed (lt : T → T → Bool) (m_data : List T) (v : T) (b e : Int) : Prop where
  nonneg : 0 ≤ b
  le : b ≤ e + 1
  lt_length : e < m_data.length
  below : ∀ (i : Nat) (x : T), (i : Int) < b → m_data[i]? = some x → lt x v = true
  above : ∀ (i : Nat) (x : T), e < (i : Int) → m_data[i]? = some x → lt v x = true

/-- With nothing left in the middle the value is not there and belongs to the begin. -/
theorem Narrowed.found {b e : Int} (hn : Narrowed lt m_data v b e) (he : ¬ b ≤ e) :
    Found lt m_data v (-b - 1) := by
  have hb : b = e + 1 := by
    have := hn.le
    omega
  have hbn : ((b.toNat : Nat) : Int) = b := Int.toNat_of_nonneg hn.nonneg
  have hside : ∀ (i : Nat) (x : T), m_data[i]? = some x → lt x v = true ∨ lt v x = true := by
    intro i x hx
    by_cases hi : (i : Int) < b
    · exact .inl (hn.below i x hi hx)
    · exact .inr (hn.above i x (by omega) hx)
  refine .inr ⟨?_, b.toNat, ?_, by omega, ?_, ?_⟩
  · intro x hx hsame
    obtain ⟨i, hi⟩ := List.mem_iff_getElem?.mp hx
    rcases hside i x hi with hlt | hlt
    · rw [hsame.1] at hlt
      cases hlt
    · rw [hsame.2] at hlt
      cases hlt
  · have := hn.lt_length
    omega
  · intro x hx
    obtain ⟨i, hi⟩ := List.mem_iff_getElem?.mp hx
    have hlt : i < b.toNat := by
      by_contra hge
      rw [List.getElem?_take_eq_none (by omega)] at hi
      cases hi
    rw [List.getElem?_take_of_lt hlt] at hi
    exact hn.below i x (by omega) hi
  · intro x hx
    obtain ⟨i, hi⟩ := List.mem_iff_getElem?.mp hx
    rw [List.getElem?_drop] at hi
    exact hn.above _ x (by omega) hi

theorem Narrowed.left {b e : Int} (hn : Narrowed lt m_data v b e) (h : StrictWeak lt)
    (hs : Sorted lt m_data) {m : Nat} {x : T} (he : (m : Int) ≤ e)
    (hm : m_data[m]? = some x) (hx : lt v x = true) (hb : b ≤ m) :
    Narrowed lt m_data v b (m - 1) where
  nonneg := hn.nonneg
  le := by omega
  lt_length := by
    have := hn.lt_length
    omega
  below := hn.below
  above := fun _ _ hi hy => hs.above h (by omega) hm hy hx

theorem Narrowed.right {b e : Int} (hn : Narrowed lt m_data v b e) (h : StrictWeak lt)
    (hs : Sorted lt m_data) {m : Nat} {x : T} (he : (m : Int) ≤ e)
    (hm : m_data[m]? = some x) (hx : lt x v = true) : Narrowed lt m_data v (m + 1) e where
  nonneg := by omega
  le := by omega
  lt_length := hn.lt_length
  below := fun _ _ hi hy => hs.below h (by omega) hy hm hx
  above := hn.above

theorem StrictSorted.get (hs : StrictSorted lt m_data) {i j : Nat} {x y : T} (hij : i < j)
    (hi : m_data[i]? = some x) (hj : m_data[j]? = some y) : lt x y = true := by
  obtain ⟨hi', rfl⟩ := List.getElem?_eq_some_iff.mp hi
  obtain ⟨hj', rfl⟩ := List.getElem?_eq_some_iff.mp hj
  exact List.pairwise_iff_getElem.mp hs i j hi' hj' hij

end CIM.ds.Array
