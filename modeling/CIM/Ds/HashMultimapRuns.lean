import Mathlib.Data.List.Dedup
import CIM.Ds.HashMultimap

/-!
# The counters of the multimap

Every call changes the array of one key; how the number of values changes with it is stated once,
for any two lists of entries that stand for the maps before and after.
-/
namespace CIM.ds

open Transition

namespace HashMultimap

open HashMap

variable {K V : Type} [LinearOrder K] {hash : K → UInt32} {f : K → Option (List V)}
  {l l' : List (Node K (List V))} {k : K}

omit [LinearOrder K] in
theorem elements_perm (h : l.Perm l') : elements l = elements l' := by
  unfold elements
  exact (h.map fun n => n.val.length).sum_nat

omit [LinearOrder K] in
/-- Two lists of the entries of one map. -/
theorem represents_perm (h : Represents l f) (h' : Represents l' f) : l.Perm l' := by
  refine (List.perm_ext_iff_of_nodup h.once.of_map h'.once.of_map).mpr ?_
  rintro ⟨k, v⟩
  exact (h.assoc k v).symm.trans (h'.assoc k v)

/-- The values of a key make room for those it gets. -/
theorem elements_update {v : List V} (h : Represents l f)
    (h' : Represents l' (Function.update f k (some v))) :
    elements l' + ((f k).getD []).length = elements l + v.length := by
  cases hk : f k with
  | none =>
      rw [elements_perm (represents_perm h' (h.cons hk v))]
      change v.length + elements l + 0 = _
      omega
  | some w =>
      obtain ⟨l₁, l₂, rfl⟩ := List.append_of_mem ((h.assoc k w).mp hk)
      rw [elements_perm (represents_perm h' (h.overwrite v)), elements_perm List.perm_middle,
        elements_perm List.perm_middle]
      change v.length + elements (l₁ ++ l₂) + w.length = w.length + elements (l₁ ++ l₂) + v.length
      omega

theorem elements_erase (h : Represents l f) (h' : Represents l' (Function.update f k none)) :
    elements l' + ((f k).getD []).length = elements l := by
  cases hk : f k with
  | none =>
      rw [Function.update_eq_self_iff.mpr hk.symm] at h'
      rw [elements_perm (represents_perm h' h)]
      rfl
  | some w =>
      obtain ⟨l₁, l₂, rfl⟩ := List.append_of_mem ((h.assoc k w).mp hk)
      have htail := (h.perm List.perm_middle.symm).tail.2
      rw [elements_perm (represents_perm h' htail), elements_perm List.perm_middle]
      change elements (l₁ ++ l₂) + w.length = w.length + elements (l₁ ++ l₂)
      omega

/-- The multimap holds the arrays, and the values are counted. -/
structure Holds (hash : K → UInt32) (m : HashMultimap K V) (f : K → Option (List V)) : Prop where
  map : HashMap.Holds hash m.map f
  count : m.m_elements = elements m.map.nodes

theorem Holds.counted {m : HashMultimap K V} (h : Holds hash m f) : Counted m :=
  ⟨h.map.nodes.once, h.map.total, h.count⟩

section Values

variable [LinearOrder V]

theorem length_bubbleValue (v : V) (l : List V) : (bubbleValue v l).length = l.length + 1 := by
  induction l with
  | nil => rfl
  | cons w l ih =>
      rw [bubbleValue]
      split
      · rw [List.length_cons, ih, List.length_cons]
      · rfl

@[simp] theorem length_pushValue (l : List V) (v : V) :
    (pushValue l v).length = l.length + 1 := by
  rw [pushValue, List.length_reverse, length_bubbleValue, List.length_reverse]

@[simp] theorem length_sortValues (l : List V) : (sortValues l).length = l.length :=
  List.length_mergeSort l

theorem searchValue_lt {l : List V} {v : V} {i : Nat} (h : searchValue l v = some i) :
    i < l.length := by
  unfold searchValue at h
  split at h
  · cases h
  · rename_i w rest hd
    split at h
    · cases h
    · rw [← Option.some.inj h]
      have hsum := congrArg List.length (List.takeWhile_append_dropWhile (p := (· < v)) (l := l))
      rw [List.length_append, hd, List.length_cons] at hsum
      omega

omit [LinearOrder V] in
theorem length_cutValue [Inhabited V] {l : List V} {i : Nat} (raw : Nat → V) (h : i < l.length) :
    (cutValue l i raw).length + 1 = l.length := by
  unfold cutValue
  simp only [List.length_append, List.length_map, List.length_range, List.length_drop,
    List.length_take, List.length_replicate]
  omega

end Values

namespace Holds

variable {m m' : HashMultimap K V}

/-- A new array, and the number of values that are counted for it. -/
theorem put_iff {vs : List V} {added : Nat} (h : Holds hash m f)
    (hr : m.put hash k vs added = some m') :
    HashMap.Holds hash m'.map (Function.update f k (some vs)) ∧
      (m'.m_elements = elements m'.map.nodes ↔ ((f k).getD []).length + added = vs.length) := by
  unfold put at hr
  split at hr
  · rw [← Option.some.inj hr]
    have hmap := (h.map.setNoRehash k vs).2.1
    have hsum := elements_update h.map.nodes hmap.nodes
    refine ⟨hmap, ?_⟩
    change m.m_elements + added = elements (m.map.setNoRehash hash k vs).2.nodes ↔ _
    rw [h.count]
    omega
  · cases hr

theorem grow (h : Holds hash m f) (hr : m.grow hash = some m') : Holds hash m' f := by
  obtain ⟨map, hmap, rfl⟩ := Option.map_eq_some_iff.mp hr
  split at hmap
  · have hholds := (h.map.rehash hmap).1
    exact ⟨hholds, h.count.trans (elements_perm (represents_perm h.map.nodes hholds.nodes))⟩
  · rw [← Option.some.inj hmap]
    exact h

theorem rehash (h : Holds hash m f) (hr : m.rehash hash = some m') : Holds hash m' f := by
  obtain ⟨map, hmap, rfl⟩ := Option.map_eq_some_iff.mp hr
  have hholds := (h.map.rehash hmap).1
  exact ⟨hholds, h.count.trans (elements_perm (represents_perm h.map.nodes hholds.nodes))⟩

theorem del (h : Holds hash m f) (k : K) :
    Holds hash (m.del hash k).2 (Function.update f k none) := by
  unfold HashMultimap.del
  rw [h.map.get_eq]
  cases hk : f k with
  | none =>
      rw [Function.update_eq_self_iff.mpr hk.symm]
      exact h
  | some w =>
      have hmap := (h.map.del_eq k).2
      have hsum := elements_erase h.map.nodes hmap.nodes
      rw [hk] at hsum
      refine ⟨hmap, ?_⟩
      change m.m_elements - w.length = elements (m.map.del hash k).2.nodes
      rw [h.count, ← hsum]
      exact Nat.add_sub_cancel _ _

section Calls

variable [LinearOrder V] [Inhabited V]

omit [Inhabited V] in
theorem insert {v : V} (h : Holds hash m f) (hr : m.insert hash k v = some m') :
    ∃ g, Holds hash m' g := by
  obtain ⟨m₁, hgrow, hr⟩ := Option.bind_eq_some_iff.mp hr
  have h₁ := h.grow hgrow
  unfold insertNoRehash at hr
  rw [h₁.map.get_eq] at hr
  cases hk : f k with
  | none =>
      rw [hk] at hr
      obtain ⟨hmap, hcount⟩ := h₁.put_iff hr
      rw [hk] at hcount
      exact ⟨_, hmap, hcount.mpr rfl⟩
  | some l =>
      rw [hk] at hr
      cases hs : searchValue l v with
      | none =>
          simp only [hs] at hr
          obtain ⟨hmap, hcount⟩ := h₁.put_iff hr
          rw [hk, length_pushValue] at hcount
          exact ⟨_, hmap, hcount.mpr rfl⟩
      | some i =>
          simp only [hs] at hr
          obtain ⟨hmap, hcount⟩ := h₁.put_iff hr
          rw [hk, List.length_set] at hcount
          exact ⟨_, hmap, hcount.mpr rfl⟩

omit [Inhabited V] in
theorem insertAll {vs : List V} (h : Holds hash m f) (hr : m.insertAll hash k vs = some m') :
    ∃ g, Holds hash m' g := by
  obtain ⟨m₁, hgrow, hr⟩ := Option.bind_eq_some_iff.mp hr
  have h₁ := h.grow hgrow
  unfold insertAllNoRehash at hr
  rw [h₁.map.get_eq] at hr
  cases hk : f k with
  | none =>
      rw [hk] at hr
      obtain ⟨hmap, hcount⟩ := h₁.put_iff hr
      rw [hk, length_sortValues] at hcount
      exact ⟨_, hmap, hcount.mpr (Nat.zero_add _)⟩
  | some l =>
      rw [hk] at hr
      obtain ⟨hmap, hcount⟩ := h₁.put_iff hr
      rw [hk, length_sortValues, List.length_append] at hcount
      exact ⟨_, hmap, hcount.mpr rfl⟩

end Calls

end Holds

variable [LinearOrder V] [Inhabited V] {m m' : HashMultimap K V} {op : Op K V} {b : Bool}

omit [LinearOrder V] [Inhabited V] in
theorem Holds.created {size : UInt32} (hc : create size = some m) :
    Holds hash m fun _ => none := by
  obtain ⟨map, hmap, rfl⟩ := Option.map_eq_some_iff.mp hc
  have hholds : HashMap.Holds hash map fun _ => none := .created hmap
  refine ⟨hholds, ?_⟩
  have hnil : map.nodes = [] := List.length_eq_zero_iff.mp (by
    rw [← hholds.total]
    obtain ⟨s, -, rfl⟩ := Option.map_eq_some_iff.mp hmap
    rfl)
  rw [hnil]
  rfl

theorem exec_insert {k : K} {v : V} (h : m.insert hash k v = some m') :
    exec hash m (.insert k v) = some (true, m') :=
  Option.map_eq_some_iff.mpr ⟨m', h, rfl⟩

end HashMultimap

end CIM.ds
