import CIM.Ds.PooledCalls

/-!
# The calls of a multimap with memory
-/
namespace CIM.ds

namespace HashMultimap

section Calls

variable {K V : Type} [LinearOrder K] [LinearOrder V] [Inhabited V] (hash : K → UInt32)

namespace Pooled

def add (s : Pooled K V) (n : Nat) : Pooled K V := { s with m_elements := s.m_elements + n }

def insertNoRehash (s : Pooled K V) (k : K) (v : V) : Option (Pooled K V) :=
  match s.map.get hash k with
  | none => some (add (s.push hash k [v]) 1)
  | some a =>
      let l := s.mem.array a
      match searchValue l v with
      | some i => s.store a (l.set i v)
      | none =>
          if fits (pushValue l v).length then
            (s.replace hash k a (pushValue l v)).map fun s => add s 1
          else none

/-- `insert(const K &k, const V &v)`. -/
def insert (s : Pooled K V) (k : K) (v : V) : Option (Pooled K V) :=
  (s.grow hash).bind fun s => insertNoRehash hash s k v

/-- The array of a key that is there, or of a new one, and the values that are counted. -/
def put (s : Pooled K V) (k : K) (l : List V) (added : Nat) : Option (Pooled K V) :=
  if fits l.length then
    match s.map.get hash k with
    | none => some (add (s.push hash k l) added)
    | some a => (s.replace hash k a l).map fun s => add s added
  else none

/-- `insert(const K &k, const V *v, const uint32_t &size)`; a value that is there is written over
by itself. -/
def insertAll (s : Pooled K V) (k : K) (vs : List V) : Option (Pooled K V) :=
  (s.grow hash).bind fun s =>
    match s.map.get hash k with
    | none => put hash s k (sortValues vs) vs.length
    | some a =>
        let l := s.mem.array a
        put hash s k (sortValues (l ++ news l vs)) (news l vs).length

def set (s : Pooled K V) (k : K) (vs : List V) : Option (Pooled K V) :=
  (s.grow hash).bind fun s => put hash s k (sortValues vs) vs.length

/-- `it->size` is the length of the array, which an `int` counts. -/
def del (s : Pooled K V) (k : K) : Option (Bool × Pooled K V) :=
  match s.map.get hash k with
  | none => some (false, s)
  | some a => (s.erase hash k a).map fun s' =>
      (true, { s' with m_elements := s'.m_elements - (s.mem.array a).length })

def delValue (s : Pooled K V) (k : K) (v : V) (raw : Nat → V) : Option (Bool × Pooled K V) :=
  match s.map.get hash k with
  | none => some (false, s)
  | some a =>
      let l := s.mem.array a
      match searchValue l v with
      | none => some (false, s)
      | some i =>
          if l.length = 1 then
            (s.erase hash k a).map fun s' => (true, { s' with m_elements := s'.m_elements - 1 })
          else (s.replace hash k a (cutValue l i raw)).map fun s => (true, s)

def exec (s : Pooled K V) : Op K V → Option (Bool × Pooled K V)
  | .insert k v => (insert hash s k v).map fun s => (true, s)
  | .insertAll k vs => (insertAll hash s k vs).map fun s => (true, s)
  | .set k vs => (set hash s k vs).map fun s => (true, s)
  | .del k => del hash s k
  | .delValue k v raw => delValue hash s k v raw
  | .rehash => (s.rehash hash).map fun s => (true, s)

end Pooled

end Calls

variable {K V : Type} [LinearOrder K] [LinearOrder V] [Inhabited V] {hash : K → UInt32}
  {s s' : Pooled K V} {m m' : HashMultimap K V} {g : K → Option (List V)} {k : K}

/-- The values of a node are its array. -/
def values (_ : Int) (l : List V) : List V := l

/-- The two have the same values under every key, and count the same. -/
structure Alike (hash : K → UInt32) (s : Pooled K V) (m : HashMultimap K V)
    (g : K → Option (List V)) : Prop where
  shows : s.Shows hash values g
  holds : HashMap.Holds hash m.map g
  elements : s.m_elements = m.m_elements

theorem fits_lt {n : Nat} (h : fits n = true) : n < 4294967296 :=
  Nat.lt_trans (of_decide_eq_true h) (by decide)

omit [LinearOrder V] [Inhabited V] in
theorem Alike.grow (h : Alike hash s m g) (ht : m.map.m_total < 2147483648)
    (hr : m.grow hash = some m') : ∃ s', s.grow hash = some s' ∧ Alike hash s' m' g := by
  obtain ⟨map, hm, rfl⟩ := Option.map_eq_some_iff.mp hr
  have hmap : HashMap.Holds hash map g := by
    split at hm
    · exact (h.holds.rehash hm).1
    · rw [← Option.some.inj hm]
      exact h.holds
  obtain ⟨s', hs', helements, hshows⟩ := h.shows.grow (by rw [h.shows.total_eq h.holds]; exact ht)
  exact ⟨s', hs', hshows, hmap, helements.trans h.elements⟩

omit [LinearOrder V] [Inhabited V] in
/-- What the key has without memory it has with it. -/
theorem Alike.get (h : Alike hash s m g) (k : K) :
    m.map.get hash k = (s.map.get hash k).map s.mem.array :=
  (h.holds.get_eq k).trans (h.shows.get k)

omit [LinearOrder V] [Inhabited V] in
theorem put_eq {l : List V} {added : Nat} (hr : m.put hash k l added = some m') :
    fits l.length = true ∧ m' = ⟨(m.map.setNoRehash hash k l).2, m.m_elements + added⟩ := by
  unfold HashMultimap.put at hr
  split at hr
  · rename_i hf
    exact ⟨hf, (Option.some.inj hr).symm⟩
  · cases hr

omit [LinearOrder V] [Inhabited V] in
theorem Alike.push {l : List V} {added : Nat} (h : Alike hash s m g)
    (hr : m.put hash k l added = some m') :
    Alike hash (Pooled.add (s.push hash k l) added) m' (Function.update g k (some l)) := by
  obtain ⟨hf, rfl⟩ := put_eq hr
  exact ⟨h.shows.push k (fits_lt hf), (h.holds.setNoRehash k l).2.1,
    congrArg (· + added) h.elements⟩

omit [LinearOrder V] [Inhabited V] in
theorem Alike.replace {l : List V} {a : Slot} {added : Nat} (h : Alike hash s m g)
    (hk : s.map.get hash k = some a) (hr : m.put hash k l added = some m') :
    ∃ s', (s.replace hash k a l).map (fun s => Pooled.add s added) = some s' ∧
      Alike hash s' m' (Function.update g k (some l)) := by
  obtain ⟨hf, rfl⟩ := put_eq hr
  obtain ⟨s', hs', helements, hshows⟩ := h.shows.replace hk (fits_lt hf)
  refine ⟨Pooled.add s' added, ?_, hshows, (h.holds.setNoRehash k l).2.1, ?_⟩
  · rw [hs']
    rfl
  · exact congrArg (· + added) (helements.trans h.elements)

omit [LinearOrder V] [Inhabited V] in
theorem Alike.put {l : List V} {added : Nat} (h : Alike hash s m g)
    (hr : m.put hash k l added = some m') :
    ∃ s', Pooled.put hash s k l added = some s' ∧
      Alike hash s' m' (Function.update g k (some l)) := by
  rw [Pooled.put, if_pos (put_eq hr).1]
  cases hk : s.map.get hash k with
  | none => exact ⟨_, rfl, h.push hr⟩
  | some a => exact h.replace hk hr

omit [Inhabited V] in
theorem Alike.insert {v : V} (h : Alike hash s m g) (ht : m.map.m_total < 2147483648)
    (hr : m.insert hash k v = some m') :
    ∃ s' g', Pooled.insert hash s k v = some s' ∧ Alike hash s' m' g' := by
  obtain ⟨m₁, hm₁, hr⟩ := Option.bind_eq_some_iff.mp hr
  obtain ⟨s₁, hs₁, h₁⟩ := h.grow ht hm₁
  rw [Pooled.insert, hs₁, Option.bind_some, Pooled.insertNoRehash]
  rw [insertNoRehash, h₁.get k] at hr
  cases hk : s₁.map.get hash k with
  | none =>
      rw [hk] at hr
      exact ⟨_, _, rfl, h₁.push hr⟩
  | some a =>
      rw [hk] at hr
      change (match searchValue (s₁.mem.array a) v with
        | some i => m₁.put hash k ((s₁.mem.array a).set i v) 0
        | none => m₁.put hash k (pushValue (s₁.mem.array a) v) 1) = some m' at hr
      dsimp only
      cases hsearch : searchValue (s₁.mem.array a) v with
      | some i =>
          rw [hsearch] at hr
          obtain ⟨-, rfl⟩ := put_eq hr
          obtain ⟨s', hs', helements, hshows⟩ := h₁.shows.store hk List.length_set
          exact ⟨s', _, hs', hshows, (h₁.holds.setNoRehash k _).2.1, helements.trans h₁.elements⟩
      | none =>
          rw [hsearch] at hr
          dsimp only
          rw [if_pos (put_eq hr).1]
          obtain ⟨s', hs', h'⟩ := h₁.replace hk hr
          exact ⟨s', _, hs', h'⟩

omit [Inhabited V] in
theorem Alike.insertAll {vs : List V} (h : Alike hash s m g) (ht : m.map.m_total < 2147483648)
    (hr : m.insertAll hash k vs = some m') :
    ∃ s' g', Pooled.insertAll hash s k vs = some s' ∧ Alike hash s' m' g' := by
  obtain ⟨m₁, hm₁, hr⟩ := Option.bind_eq_some_iff.mp hr
  obtain ⟨s₁, hs₁, h₁⟩ := h.grow ht hm₁
  rw [Pooled.insertAll, hs₁, Option.bind_some]
  rw [insertAllNoRehash, h₁.get k] at hr
  cases hk : s₁.map.get hash k with
  | none =>
      rw [hk] at hr
      obtain ⟨s', hs', h'⟩ := h₁.put hr
      exact ⟨s', _, hs', h'⟩
  | some a =>
      rw [hk] at hr
      obtain ⟨s', hs', h'⟩ := h₁.put hr
      exact ⟨s', _, hs', h'⟩

omit [Inhabited V] in
theorem Alike.set {vs : List V} (h : Alike hash s m g) (ht : m.map.m_total < 2147483648)
    (hr : m.set hash k vs = some m') :
    ∃ s' g', Pooled.set hash s k vs = some s' ∧ Alike hash s' m' g' := by
  obtain ⟨m₁, hm₁, hr⟩ := Option.bind_eq_some_iff.mp hr
  obtain ⟨s₁, hs₁, h₁⟩ := h.grow ht hm₁
  obtain ⟨s', hs', h'⟩ := h₁.put hr
  refine ⟨s', _, ?_, h'⟩
  rw [Pooled.set, hs₁]
  exact hs'

omit [LinearOrder V] [Inhabited V] in
theorem Alike.del (h : Alike hash s m g) (k : K) :
    ∃ s' g', Pooled.del hash s k = some ((m.del hash k).1, s') ∧
      Alike hash s' (m.del hash k).2 g' := by
  rw [HashMultimap.del, h.get k, Pooled.del]
  cases hk : s.map.get hash k with
  | none => exact ⟨s, g, rfl, h⟩
  | some a =>
      obtain ⟨s', hs', helements, hshows⟩ := h.shows.erase hk
      refine ⟨{ s' with m_elements := s'.m_elements - (s.mem.array a).length }, _, ?_, hshows,
        (h.holds.del_eq k).2, ?_⟩
      · dsimp only
        rw [hs']
        rfl
      · exact congrArg (· - (s.mem.array a).length) (helements.trans h.elements)

theorem Alike.delValue (h : Alike hash s m g) (k : K) (v : V) (raw : Nat → V) :
    ∃ s' g', Pooled.delValue hash s k v raw = some ((m.delValue hash k v raw).1, s') ∧
      Alike hash s' (m.delValue hash k v raw).2 g' := by
  rw [HashMultimap.delValue, h.get k, Pooled.delValue]
  cases hk : s.map.get hash k with
  | none => exact ⟨s, g, rfl, h⟩
  | some a =>
      dsimp only [Option.map_some]
      cases hsearch : searchValue (s.mem.array a) v with
      | none => exact ⟨s, g, rfl, h⟩
      | some i =>
          dsimp only
          by_cases hone : (s.mem.array a).length = 1
          · rw [if_pos hone, if_pos hone]
            obtain ⟨s', hs', helements, hshows⟩ := h.shows.erase hk
            refine ⟨{ s' with m_elements := s'.m_elements - 1 }, _, ?_, hshows,
              (h.holds.del_eq k).2, congrArg (· - 1) (helements.trans h.elements)⟩
            rw [hs']
            rfl
          · rw [if_neg hone, if_neg hone]
            have hlen : (cutValue (s.mem.array a) i raw).length < 4294967296 := by
              have hcut := length_cutValue raw (searchValue_lt hsearch)
              have hlt := (h.shows.length hk).1
              omega
            obtain ⟨s', hs', helements, hshows⟩ := h.shows.replace hk hlen
            refine ⟨s', _, ?_, hshows, (h.holds.setNoRehash k _).2.1, helements.trans h.elements⟩
            rw [hs']
            rfl

end HashMultimap

end CIM.ds
