import CIM.Ds.DictRuns
import CIM.Ds.HashMultimapRuns
import CIM.Ds.Pool

/-!
# Dictionaries and multimaps with their memory

The calls of a dictionary and of a multimap with every array where it is. Each of them does to
the values under the keys what the call without memory does, and frees what it replaces.
-/
namespace CIM.ds

/-- `map` is `m_size`, `m_total` and `m_datas`; a dictionary has no `m_elements`. -/
structure Pooled (K V : Type) where
  map : HashMap K Slot
  m_elements : Nat
  mem : Memory V

namespace Pooled

section Calls

variable {K V : Type} [LinearOrder K] (hash : K → UInt32)

/-- A new node with a new array. -/
def push (s : Pooled K V) (k : K) (l : List V) : Pooled K V :=
  { s with
    map := (s.map.setNoRehash hash k ⟨toInt32 l.length, (s.mem.alloc l).1⟩).2
    mem := (s.mem.alloc l).2 }

/-- A new array for the node, whose old one is freed. -/
def replace (s : Pooled K V) (k : K) (a : Slot) (l : List V) : Option (Pooled K V) :=
  ((s.mem.alloc l).2.release a.val).map fun mem =>
    { s with
      map := (s.map.setNoRehash hash k ⟨toInt32 l.length, (s.mem.alloc l).1⟩).2
      mem := mem }

/-- The array of the node is written over. -/
def store (s : Pooled K V) (a : Slot) (l : List V) : Option (Pooled K V) :=
  (s.mem.overwrite a.val l).map fun mem => { s with mem := mem }

/-- The array of the node is freed, and the node is taken out. -/
def erase (s : Pooled K V) (k : K) (a : Slot) : Option (Pooled K V) :=
  (s.mem.release a.val).map fun mem => { s with map := (s.map.del hash k).2, mem := mem }

def rehash (s : Pooled K V) : Option (Pooled K V) :=
  (s.map.rehash hash).map fun map => { s with map := map }

/-- `if (needRehash()) rehash();`. -/
def grow (s : Pooled K V) : Option (Pooled K V) :=
  if s.map.needRehash then s.rehash hash else some s

end Calls

/-! ## What is under the keys -/

section Shows

variable {K V X : Type} [LinearOrder K] {hash : K → UInt32} {view : Int → List V → X}
  {s s' : Pooled K V} {g : K → Option X} {k : K} {a : Slot} {l : List V}

/-- The buckets hold nodes whose arrays are there, and `view` shows the values `g` in them. -/
def Shows (hash : K → UInt32) (view : Int → List V → X) (s : Pooled K V) (g : K → Option X) :
    Prop :=
  ∃ f, HashMap.Holds hash s.map f ∧ Owned s.mem f ∧ contents view s.mem f = g

theorem Shows.get (h : Shows hash view s g) (k : K) :
    g k = (s.map.get hash k).map fun a => view a.size (s.mem.array a) := by
  obtain ⟨f, hmap, -, rfl⟩ := h
  rw [hmap.get_eq]
  rfl

theorem Shows.push (h : Shows hash view s g) (k : K) (hl : l.length < 4294967296) :
    Shows hash view (s.push hash k l) (Function.update g k (some (view (toInt32 l.length) l))) := by
  obtain ⟨f, hmap, howned, rfl⟩ := h
  have hframes : ∀ k' a, k' ≠ k → f k' = some a → s.mem.Frames (s.mem.alloc l).2 a :=
    fun _ a _ _ => Memory.frames_alloc s.mem l a
  refine ⟨_, (hmap.setNoRehash k _).2.1, howned.update hframes ?_, ?_⟩
  · intro a ha
    cases ha
    exact ⟨Memory.valid_alloc s.mem hl,
      fun k' b _ hb => Memory.apart_alloc (howned.valid k' b hb) _⟩
  · refine (contents_update view howned hframes).trans ?_
    exact congrArg (fun l' => Function.update (contents view s.mem f) k
      (some (view (toInt32 l.length) l'))) (Memory.array_alloc s.mem l _)

theorem Shows.replace (h : Shows hash view s g) (hk : s.map.get hash k = some a)
    (hl : l.length < 4294967296) : ∃ s', s.replace hash k a l = some s' ∧
      s'.m_elements = s.m_elements ∧
      Shows hash view s' (Function.update g k (some (view (toInt32 l.length) l))) := by
  obtain ⟨f, hmap, howned, rfl⟩ := h
  rw [hmap.get_eq] at hk
  have hvalid := howned.valid k a hk
  obtain ⟨w', hw', hrelease⟩ :=
    Memory.release_spec ((Memory.frames_alloc s.mem l a).valid hvalid)
  have hnew := hrelease ⟨toInt32 l.length, (s.mem.alloc l).1⟩
    (Memory.apart_alloc hvalid _).symm
  have hframes : ∀ k' b, k' ≠ k → f k' = some b → s.mem.Frames w' b := by
    intro k' b hne hb
    have halloc := Memory.frames_alloc s.mem l b
    have hreleased := hrelease b (howned.apart k k' a b hk hb (Ne.symm hne))
    refine ⟨fun hv => hreleased.valid (halloc.valid hv), fun hv => ?_⟩
    rw [hreleased.array (halloc.valid hv), halloc.array hv]
  refine ⟨{ s with
    map := (s.map.setNoRehash hash k ⟨toInt32 l.length, (s.mem.alloc l).1⟩).2
    mem := w' }, ?_, rfl, _, (hmap.setNoRehash k _).2.1, howned.update hframes ?_, ?_⟩
  · rw [Pooled.replace, hw']
    rfl
  · intro b hb
    cases hb
    exact ⟨hnew.valid (Memory.valid_alloc s.mem hl),
      fun k' b _ hb => Memory.apart_alloc (howned.valid k' b hb) _⟩
  · refine (contents_update view howned hframes).trans ?_
    exact congrArg (fun l' => Function.update (contents view s.mem f) k
      (some (view (toInt32 l.length) l')))
      ((hnew.array (Memory.valid_alloc s.mem hl)).trans (Memory.array_alloc s.mem l _))

theorem Shows.store (h : Shows hash view s g) (hk : s.map.get hash k = some a)
    (hl : l.length = (s.mem.array a).length) : ∃ s', s.store a l = some s' ∧
      s'.m_elements = s.m_elements ∧
      Shows hash view s' (Function.update g k (some (view a.size l))) := by
  obtain ⟨f, hmap, howned, rfl⟩ := h
  rw [hmap.get_eq] at hk
  obtain ⟨w', hw', hvalid, harray, hstore⟩ := Memory.overwrite_spec (howned.valid k a hk) hl
  have hframes : ∀ k' b, k' ≠ k → f k' = some b → s.mem.Frames w' b :=
    fun k' b hne hb => hstore b (howned.apart k k' a b hk hb (Ne.symm hne))
  have hsame : Function.update f k (some a) = f := Function.update_eq_self_iff.mpr hk.symm
  have howned' : Owned w' (Function.update f k (some a)) := howned.update hframes fun b hb => by
    cases hb
    exact ⟨hvalid, fun k' b hne hb => howned.apart k k' a b hk hb (Ne.symm hne)⟩
  have hcontents := contents_update (o := some a) view howned hframes
  rw [hsame] at howned' hcontents
  refine ⟨{ s with mem := w' }, ?_, rfl, f, hmap, howned', hcontents.trans ?_⟩
  · rw [Pooled.store, hw']
    rfl
  · exact congrArg (fun l' => Function.update (contents view s.mem f) k
      (some (view a.size l'))) harray

theorem Shows.erase (h : Shows hash view s g) (hk : s.map.get hash k = some a) :
    ∃ s', s.erase hash k a = some s' ∧ s'.m_elements = s.m_elements ∧
      Shows hash view s' (Function.update g k none) := by
  obtain ⟨f, hmap, howned, rfl⟩ := h
  rw [hmap.get_eq] at hk
  obtain ⟨w', hw', hrelease⟩ := Memory.release_spec (howned.valid k a hk)
  have hframes : ∀ k' b, k' ≠ k → f k' = some b → s.mem.Frames w' b :=
    fun k' b hne hb => hrelease b (howned.apart k k' a b hk hb (Ne.symm hne))
  refine ⟨{ s with map := (s.map.del hash k).2, mem := w' }, ?_, rfl, _, (hmap.del_eq k).2,
    howned.update hframes ?_, contents_update view howned hframes⟩
  · rw [Pooled.erase, hw']
    rfl
  · intro b hb
    cases hb

theorem Shows.rehash (h : Shows hash view s g) (hr : s.rehash hash = some s') :
    Shows hash view s' g ∧ s'.m_elements = s.m_elements := by
  obtain ⟨f, hmap, howned, hg⟩ := h
  obtain ⟨map, hm, rfl⟩ := Option.map_eq_some_iff.mp hr
  exact ⟨⟨f, (hmap.rehash hm).1, howned, hg⟩, rfl⟩

/-- With fewer than `2 ^ 31` keys there is a number of buckets to go to. -/
theorem Shows.rehash_defined (h : Shows hash view s g) (ht : s.map.m_total < 2147483648) :
    ∃ s', s.rehash hash = some s' ∧ s'.m_elements = s.m_elements ∧ Shows hash view s' g := by
  obtain ⟨map, hm⟩ := Option.isSome_iff_exists.mp (HashMap.rehash_isSome hash ht)
  have hr : s.rehash hash = some { s with map := map } := by
    rw [Pooled.rehash, hm]
    rfl
  exact ⟨_, hr, rfl, (h.rehash hr).1⟩

theorem Shows.grow (h : Shows hash view s g) (ht : s.map.m_total < 2147483648) :
    ∃ s', s.grow hash = some s' ∧ s'.m_elements = s.m_elements ∧ Shows hash view s' g := by
  unfold Pooled.grow
  split
  · exact h.rehash_defined ht
  · exact ⟨s, rfl, rfl, h⟩

/-- Maps with the same keys count the same. -/
theorem total_eq {Y : Type} {m : HashMap K X} {m' : HashMap K Y} {f : K → Option X}
    {f' : K → Option Y} (h : HashMap.Holds hash m f) (h' : HashMap.Holds hash m' f')
    (hkeys : ∀ k, (f k).isSome = (f' k).isSome) : m.m_total = m'.m_total := by
  have hmem : ∀ {Z : Type} {l : List (HashMap.Node K Z)} {f : K → Option Z},
      HashMap.Represents l f → ∀ k, k ∈ l.map HashMap.Node.key ↔ (f k).isSome = true := by
    intro Z l f hl k
    rw [List.mem_map, Option.isSome_iff_exists]
    constructor
    · rintro ⟨n, hn, rfl⟩
      exact ⟨n.val, (hl.assoc n.key n.val).mpr hn⟩
    · rintro ⟨v, hv⟩
      exact ⟨⟨k, v⟩, (hl.assoc k v).mp hv, rfl⟩
  have hperm : (m.nodes.map HashMap.Node.key).Perm (m'.nodes.map HashMap.Node.key) := by
    refine (List.perm_ext_iff_of_nodup h.nodes.once h'.nodes.once).mpr fun k => ?_
    rw [hmem h.nodes, hmem h'.nodes, hkeys k]
  have hlen := hperm.length_eq
  rw [List.length_map, List.length_map] at hlen
  rw [h.total, h'.total, hlen]

theorem Shows.total_eq {m : HashMap K X} (h : Shows hash view s g) (hm : HashMap.Holds hash m g) :
    s.map.m_total = m.m_total := by
  obtain ⟨f, hmap, -, rfl⟩ := h
  exact Pooled.total_eq hmap hm fun k => (Option.isSome_map ..).symm

end Shows

end Pooled

end CIM.ds
