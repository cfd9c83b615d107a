import CIM.Ds.HashMap
import CIM.Lib.SortedArray

/-!
# Buckets of the hash map

The search, the insertion and the deletion on one sorted bucket, and the entries of all buckets
as a list that represents a finite map.
-/
namespace CIM.ds

theorem toInt32_of_lt {n : Nat} (h : n < 2147483648) : toInt32 n = n := by
  have hmod : n % 4294967296 = n := Nat.mod_eq_of_lt (by omega)
  rw [toInt32, hmod, if_pos h]

/-- The number of buckets is defined but for the arguments zero and the least `int`. -/
theorem basket_isSome {n : Int} : (basket n).isSome ↔ n ≠ 0 ∧ n ≠ -2147483648 := by
  unfold basket
  by_cases h : n = 0 ∨ n = -2147483648
  · rw [if_pos h]
    simp only [Option.isSome_none, Bool.false_eq_true, false_iff]
    exact fun hn => h.elim hn.1 hn.2
  · rw [if_neg h]
    simp only [Option.isSome_some, true_iff]
    exact not_or.mp h

theorem basket_pos {n : Int} {size : Nat} (h : basket n = some size) : 0 < size := by
  unfold basket at h
  split at h
  · cases h
  · rw [← Option.some.inj h]
    exact Nat.two_pow_pos _

namespace HashMap

variable {K V : Type} [LinearOrder K] {k : K} {v : V} {l : List (Node K V)}

/-- Strictly sorted by key. -/
def Sorted (l : List (Node K V)) : Prop := l.Pairwise fun a b => a.key < b.key

theorem binarySearch_eq (l : List (Node K V)) (k : K) :
    binarySearch l k = SortedArray.search Node.key l k := by
  unfold binarySearch SortedArray.search
  cases l.dropWhile fun n => decide (n.key < k) <;> rfl

theorem binarySearch_none (hs : Sorted l) (h : binarySearch l k = none) :
    ∀ n ∈ l, n.key ≠ k :=
  SortedArray.search_none hs (binarySearch_eq l k ▸ h)

theorem binarySearch_some {i : Nat} (h : binarySearch l k = some i) :
    ∃ l₁ w l₂, l = l₁ ++ ⟨k, w⟩ :: l₂ ∧ l₁.length = i := by
  obtain ⟨l₁, ⟨_, w⟩, l₂, hsplit, hi, rfl⟩ := SortedArray.search_some (binarySearch_eq l k ▸ h)
  exact ⟨l₁, w, l₂, hsplit, hi⟩

theorem bubble_eq (n : Node K V) (l : List (Node K V)) :
    bubble n l = SortedArray.bubble Node.key n l := by
  induction l with
  | nil => rfl
  | cons m l ih => rw [bubble, SortedArray.bubble, ih]

theorem sortLast_append (l : List (Node K V)) (n : Node K V) :
    sortLast (l ++ [n]) = (SortedArray.bubble Node.key n l.reverse).reverse := by
  rw [sortLast, List.reverse_append, List.reverse_singleton, ← bubble_eq]
  rfl

theorem sortLast_perm (l : List (Node K V)) (n : Node K V) :
    (sortLast (l ++ [n])).Perm (n :: l) := by
  rw [sortLast_append]
  exact SortedArray.push_perm n l

theorem sortLast_sorted {n : Node K V} (hs : Sorted l) (hn : ∀ m ∈ l, m.key ≠ n.key) :
    Sorted (sortLast (l ++ [n])) := by
  rw [sortLast_append]
  exact SortedArray.push_sorted hs hn

theorem sort_perm (l : List (Node K V)) : (sort l).Perm l := SortedArray.sort_perm Node.key l

/-- Sorting entries of distinct keys sorts them strictly. -/
theorem sort_sorted (h : (l.map Node.key).Nodup) : Sorted (sort l) :=
  (SortedArray.sort_sorted_iff l).mpr h

omit [LinearOrder K] in
/-- The entry is swapped with the last one, which the `resize` then cuts off. -/
theorem swapBack_perm {l₁ l₂ : List (Node K V)} (n : Node K V) :
    (swapBack (l₁ ++ n :: l₂) l₁.length).dropLast.Perm (l₁ ++ l₂) := by
  have hget : (l₁ ++ n :: l₂)[l₁.length]? = some n := by
    rw [List.getElem?_append_right (Nat.le_refl _), Nat.sub_self]
    rfl
  induction l₂ using List.reverseRecOn with
  | nil =>
      have hlast : (l₁ ++ [n]).getLast? = some n := List.getLast?_concat
      unfold swapBack
      rw [hget, hlast]
      change (((l₁ ++ [n]).set l₁.length n).set ((l₁ ++ [n]).length - 1) n).dropLast.Perm _
      rw [List.length_append, List.length_singleton, Nat.add_sub_cancel,
        List.set_append_right _ _ (Nat.le_refl _), Nat.sub_self, List.set_cons_zero,
        List.set_append_right _ _ (Nat.le_refl _), Nat.sub_self, List.set_cons_zero,
        List.dropLast_concat, List.append_nil]
  | append_singleton l₃ b _ =>
      have hlast : (l₁ ++ n :: (l₃ ++ [b])).getLast? = some b := by
        rw [← List.cons_append, ← List.append_assoc]
        exact List.getLast?_concat
      have hset : (l₁ ++ n :: (l₃ ++ [b])).set l₁.length b = (l₁ ++ b :: l₃) ++ [b] := by
        rw [List.set_append_right _ _ (Nat.le_refl _), Nat.sub_self, List.set_cons_zero,
          List.append_assoc, List.cons_append]
      have hlen : (l₁ ++ n :: (l₃ ++ [b])).length - 1 = (l₁ ++ b :: l₃).length := by
        simp only [List.length_append, List.length_cons, List.length_nil]
        omega
      unfold swapBack
      rw [hget, hlast]
      change (((l₁ ++ n :: (l₃ ++ [b])).set l₁.length b).set
        ((l₁ ++ n :: (l₃ ++ [b])).length - 1) n).dropLast.Perm _
      rw [hset, hlen, List.set_append_right _ _ (Nat.le_refl _), Nat.sub_self,
        List.set_cons_zero, List.dropLast_concat]
      exact (List.perm_append_singleton b l₃).symm.append_left l₁

theorem Sorted.keys_nodup (hs : Sorted l) : (l.map Node.key).Nodup :=
  List.pairwise_map.mpr (hs.imp fun h => h.ne)

omit [LinearOrder K] in
theorem modify_at {l₁ l₂ : List (Node K V)} (n : Node K V) (f : Node K V → Node K V) :
    (l₁ ++ n :: l₂).modify l₁.length f = l₁ ++ f n :: l₂ := by
  induction l₁ with
  | nil => rfl
  | cons m l₁ ih =>
      rw [List.cons_append, List.length_cons, List.modify_succ_cons, ih]
      rfl

/-- `set` adds an entry for a new key. -/
theorem setBucket_new (hs : Sorted l) (v : V) (h : binarySearch l k = none) :
    ∃ l', setBucket l k v = (true, l') ∧ l'.Perm (⟨k, v⟩ :: l) ∧ Sorted l' := by
  refine ⟨sortLast (l ++ [⟨k, v⟩]), ?_, sortLast_perm l _, ?_⟩
  · rw [setBucket, h]
  · exact sortLast_sorted hs (binarySearch_none hs h)

/-- `set` overwrites the value of a key that is there. -/
theorem setBucket_old {i : Nat} (v : V) (h : binarySearch l k = some i) :
    ∃ l₁ w l₂, l = l₁ ++ ⟨k, w⟩ :: l₂ ∧ setBucket l k v = (false, l₁ ++ ⟨k, v⟩ :: l₂) := by
  obtain ⟨l₁, w, l₂, rfl, hi⟩ := binarySearch_some h
  refine ⟨l₁, w, l₂, rfl, ?_⟩
  rw [setBucket, h, ← hi]
  change (false, (l₁ ++ ⟨k, w⟩ :: l₂).modify l₁.length fun n => { n with val := v }) = _
  rw [modify_at]

theorem Sorted.overwrite {l₁ l₂ : List (Node K V)} {w : V}
    (hs : Sorted (l₁ ++ ⟨k, w⟩ :: l₂)) (v : V) : Sorted (l₁ ++ ⟨k, v⟩ :: l₂) := by
  have hmap : (l₁ ++ ⟨k, v⟩ :: l₂).map Node.key = (l₁ ++ ⟨k, w⟩ :: l₂).map Node.key := by
    rw [List.map_append, List.map_append, List.map_cons, List.map_cons]
  have hk : ((l₁ ++ ⟨k, w⟩ :: l₂).map Node.key).Pairwise (· < ·) := List.pairwise_map.mpr hs
  rw [← hmap] at hk
  exact List.pairwise_map.mp hk

/-- `del` takes the entry of the key out of the bucket. -/
theorem delBucket_some {l' : List (Node K V)} (hs : Sorted l) (h : delBucket l k = some l') :
    ∃ w, l.Perm (⟨k, w⟩ :: l') ∧ Sorted l' := by
  obtain ⟨i, hi, rfl⟩ := Option.map_eq_some_iff.mp h
  obtain ⟨l₁, w, l₂, rfl, rfl⟩ := binarySearch_some hi
  have hcut : (if 1 < (l₁ ++ ⟨k, w⟩ :: l₂).length then swapBack (l₁ ++ ⟨k, w⟩ :: l₂) l₁.length
      else l₁ ++ ⟨k, w⟩ :: l₂).dropLast.Perm (l₁ ++ l₂) := by
    split
    · exact swapBack_perm _
    · rename_i hlen
      rw [List.length_append, List.length_cons] at hlen
      have h₁ : l₁ = [] := List.length_eq_zero_iff.mp (by omega)
      have h₂ : l₂ = [] := List.length_eq_zero_iff.mp (by omega)
      rw [h₁, h₂]
      exact List.Perm.refl _
  refine ⟨w, ?_, ?_⟩
  · exact List.perm_middle.trans (((sort_perm _).trans hcut).symm.cons _)
  · refine sort_sorted ((hcut.map Node.key).nodup_iff.mpr ?_)
    have hsub : (l₁ ++ l₂).Sublist (l₁ ++ ⟨k, w⟩ :: l₂) :=
      (List.sublist_cons_self _ _).append_left l₁
    exact (hsub.map Node.key).nodup hs.keys_nodup

/-- The entries have distinct keys and are those of the finite map. -/
structure Represents (l : List (Node K V)) (f : K → Option V) : Prop where
  once : (l.map Node.key).Nodup
  assoc : ∀ k v, f k = some v ↔ ⟨k, v⟩ ∈ l

namespace Represents

variable {f : K → Option V}

omit [LinearOrder K] in
theorem perm {l' : List (Node K V)} (h : Represents l f) (hp : l'.Perm l) : Represents l' f where
  once := (hp.map Node.key).nodup_iff.mpr h.once
  assoc k v := (h.assoc k v).trans hp.mem_iff.symm

omit [LinearOrder K] in
theorem none_iff (h : Represents l f) : f k = none ↔ ∀ n ∈ l, n.key ≠ k := by
  constructor
  · rintro hk n hn rfl
    rw [(h.assoc n.key n.val).mpr hn] at hk
    cases hk
  · intro hn
    cases hk : f k with
    | none => rfl
    | some v => exact absurd rfl (hn ⟨k, v⟩ ((h.assoc k v).mp hk))

theorem cons (h : Represents l f) (hk : f k = none) (v : V) :
    Represents (⟨k, v⟩ :: l) (Function.update f k (some v)) where
  once := by
    rw [List.map_cons, List.nodup_cons]
    refine ⟨?_, h.once⟩
    intro hm
    obtain ⟨n, hn, he⟩ := List.mem_map.mp hm
    exact h.none_iff.mp hk n hn he
  assoc := by
    intro k' v'
    rw [List.mem_cons]
    by_cases hkk : k' = k
    · rw [hkk, Function.update_self]
      constructor
      · intro he
        exact .inl (by rw [Option.some.inj he])
      · rintro (he | hm)
        · rw [(Node.mk.inj he).2]
        · exact absurd rfl (h.none_iff.mp hk _ hm)
    · rw [Function.update_of_ne hkk, h.assoc]
      constructor
      · exact Or.inr
      · rintro (he | hm)
        · exact absurd (Node.mk.inj he).1 hkk
        · exact hm

theorem tail {w : V} (h : Represents (⟨k, w⟩ :: l) f) :
    f k = some w ∧ Represents l (Function.update f k none) := by
  have honce := h.once
  rw [List.map_cons, List.nodup_cons] at honce
  refine ⟨(h.assoc k w).mpr List.mem_cons_self, honce.2, ?_⟩
  intro k' v'
  by_cases hkk : k' = k
  · rw [hkk, Function.update_self]
    constructor
    · intro he
      cases he
    · intro hm
      exact absurd (List.mem_map_of_mem (f := Node.key) hm) honce.1
  · rw [Function.update_of_ne hkk, h.assoc, List.mem_cons]
    constructor
    · rintro (he | hm)
      · exact absurd (Node.mk.inj he).1 hkk
      · exact hm
    · exact Or.inr

theorem overwrite {l₁ l₂ : List (Node K V)} {w : V} (h : Represents (l₁ ++ ⟨k, w⟩ :: l₂) f)
    (v : V) : Represents (l₁ ++ ⟨k, v⟩ :: l₂) (Function.update f k (some v)) := by
  have hrest := (h.perm List.perm_middle.symm).tail.2
  have hcons := hrest.cons (Function.update_self ..) v
  rw [Function.update_idem] at hcons
  exact hcons.perm List.perm_middle

end Represents

/-- One index of a `flatMap` is changed. -/
theorem flatMap_focus {β : Type} {is : List Nat} (hn : is.Nodup) {p : Nat} (hp : p ∈ is)
    (d : Nat → List β) :
    ∃ l₁ l₂, is.flatMap d = l₁ ++ d p ++ l₂ ∧
      ∀ b, is.flatMap (Function.update d p b) = l₁ ++ b ++ l₂ := by
  obtain ⟨is₁, is₂, rfl⟩ := List.append_of_mem hp
  rw [List.nodup_append] at hn
  obtain ⟨-, hn₂, hdisj⟩ := hn
  have h₁ : ∀ i ∈ is₁, i ≠ p := fun i hi => hdisj i hi p List.mem_cons_self
  have h₂ : ∀ i ∈ is₂, i ≠ p := by
    rintro i hi rfl
    exact (List.nodup_cons.mp hn₂).1 hi
  have hsame : ∀ (is : List Nat) b, (∀ i ∈ is, i ≠ p) →
      is.flatMap (Function.update d p b) = is.flatMap d := by
    intro is b his
    refine List.flatMap_congr ?_
    intro i hi
    exact Function.update_of_ne (his i hi) b d
  refine ⟨is₁.flatMap d, is₂.flatMap d, ?_, ?_⟩
  · rw [List.flatMap_append, List.flatMap_cons, List.append_assoc]
  · intro b
    rw [List.flatMap_append, List.flatMap_cons, hsame is₁ b h₁, hsame is₂ b h₂,
      Function.update_self, List.append_assoc]

omit [LinearOrder K] in
theorem redistribute_perm {pos : K → Nat} {size : Nat} {datas : Nat → List (Node K V)}
    (hpos : ∀ k, pos k < size) :
    ((List.range size).flatMap (redistribute pos l datas)).Perm
      ((List.range size).flatMap datas ++ l) := by
  induction l generalizing datas with
  | nil => rw [List.append_nil]; exact List.Perm.refl _
  | cons n l ih =>
      change ((List.range size).flatMap (redistribute pos l
        (Function.update datas (pos n.key) (datas (pos n.key) ++ [n])))).Perm _
      refine ih.trans ?_
      obtain ⟨l₁, l₂, hold, hnew⟩ := flatMap_focus (List.nodup_range)
        (List.mem_range.mpr (hpos n.key)) datas
      rw [hold, hnew, ← List.append_assoc l₁, List.append_assoc _ [n], List.append_assoc _ _ l,
        List.append_assoc _ l₂ (n :: l)]
      refine List.Perm.append_left _ ?_
      exact List.perm_middle.symm

omit [LinearOrder K] in
theorem mem_redistribute {pos : K → Nat} {datas : Nat → List (Node K V)} {i : Nat}
    {n : Node K V} (h : n ∈ redistribute pos l datas i) : n ∈ datas i ∨ n ∈ l ∧ pos n.key = i := by
  induction l generalizing datas with
  | nil => exact .inl h
  | cons m l ih =>
      change n ∈ redistribute pos l
        (Function.update datas (pos m.key) (datas (pos m.key) ++ [m])) i at h
      obtain hd | ⟨hm, hi⟩ := ih h
      · by_cases hi : i = pos m.key
        · rw [hi, Function.update_self, List.mem_append, List.mem_singleton] at hd
          obtain hd | rfl := hd
          · exact .inl (hi ▸ hd)
          · exact .inr ⟨List.mem_cons_self, hi.symm⟩
        · rw [Function.update_of_ne hi] at hd
          exact .inl hd
      · exact .inr ⟨List.mem_cons_of_mem m hm, hi⟩

end HashMap

end CIM.ds
