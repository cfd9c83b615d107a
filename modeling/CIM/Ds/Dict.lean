import CIM.Ds.HashMapRuns

/-!
# Dictionary of arrays

A hash map whose entries hold an array and its size as an `int`. A size from `2 ^ 31` on turns
negative, and `new V[n]` throws for a negative `n`; such a call has no result here.
-/
namespace CIM.ds

open Transition

/-- `int size; V *val;` -/
structure Values (V : Type) where
  size : Int
  val : List V
  deriving DecidableEq

abbrev Dict (K V : Type) : Type := HashMap K (Values V)

namespace Dict

open HashMap

variable {K V : Type} [LinearOrder K]

def create (size : UInt32) : Option (Dict K V) := HashMap.create size

/-- `insert` on the bucket of the key; the array has `uint32_t size` entries. -/
def insertBucket (l : List (Node K (Values V))) (k : K) (v : List V) :
    Option (Bool × List (Node K (Values V))) :=
  match binarySearch l k with
  | none =>
      if toInt32 v.length < 0 then none
      else some (true, sortLast (l ++ [⟨k, ⟨toInt32 v.length, v⟩⟩]))
  | some i =>
      some (false, l.modify i fun n =>
        if n.val.size = toInt32 v.length then { n with val := { n.val with val := v } }
        else { n with val := ⟨toInt32 v.length, v⟩ })

section Hashed

variable (hash : K → UInt32)

def insertNoRehash (d : Dict K V) (k : K) (v : List V) : Option (Dict K V) :=
  (insertBucket (d.m_datas (d.pos hash k)) k v).map fun r =>
    { d with
      m_datas := Function.update d.m_datas (d.pos hash k) r.2
      m_total := if r.1 then d.m_total + 1 else d.m_total }

/-- `insert` returns true wherever it returns. -/
def insert (d : Dict K V) (k : K) (v : List V) : Option (Dict K V) :=
  if v.length = 0 then some d
  else
    (if d.needRehash then HashMap.rehash hash d else some d).bind fun d =>
      insertNoRehash hash d k v

/-- The copy of the array, empty where the key is not there. -/
def get (d : Dict K V) (k : K) : Option (List V) :=
  match HashMap.get hash d k with
  | none => some []
  | some n => if n.size < 0 then none else some (n.val.take n.size.toNat)

def exists_ (d : Dict K V) (k : K) : Bool := HashMap.exists_ hash d k

def del (d : Dict K V) (k : K) : Bool × Dict K V := HashMap.del hash d k

def rehash (d : Dict K V) : Option (Dict K V) := HashMap.rehash hash d

inductive Op (K V : Type)
  | create (size : UInt32)
  | insert (k : K) (v : List V)
  | get (k : K)
  | exists_ (k : K)
  | del (k : K)
  | rehash

inductive Outcome (V : Type)
  | done
  | flag (b : Bool)
  | values (v : List V)

/-- A call on the dictionary, which is none before it is constructed. -/
def exec (s : Option (Dict K V)) : Op K V → Option (Outcome V × Option (Dict K V))
  | .create size =>
      match s with
      | some _ => none
      | none => (create size).map fun d => (.done, some d)
  | .insert k v => do
      let d ← s
      let d' ← insert hash d k v
      return (.flag true, some d')
  | .get k => do
      let d ← s
      let v ← get hash d k
      return (.values v, s)
  | .exists_ k => do
      let d ← s
      return (.flag (exists_ hash d k), s)
  | .del k => do
      let d ← s
      return (.flag (del hash d k).1, some (del hash d k).2)
  | .rehash => do
      let d ← s
      let d' ← rehash hash d
      return (.done, some d')

end Hashed

/-- What each call does to a finite map from keys to arrays. -/
def mapExec (s : Option (K → Option (List V))) :
    Op K V → Option (Outcome V × Option (K → Option (List V)))
  | .create _ =>
      match s with
      | some _ => none
      | none => some (.done, some fun _ => none)
  | .insert k v => do
      let f ← s
      return (.flag true, some (if v = [] then f else Function.update f k (some v)))
  | .get k => do
      let f ← s
      return (.values ((f k).getD []), s)
  | .exists_ k => do
      let f ← s
      return (.flag (f k).isSome, s)
  | .del k => do
      let f ← s
      return (.flag (f k).isSome, some (Function.update f k none))
  | .rehash => do
      let f ← s
      return (.done, some f)

/-- An array as `insert` stores it. -/
def store (v : List V) : Values V := ⟨v.length, v⟩

variable {hash : K → UInt32} {d d' : Dict K V} {f : K → Option (List V)} {k : K} {v : List V}

/-- The dictionary holds the finite map, whose arrays are not empty. -/
structure Holds (hash : K → UInt32) (d : Dict K V) (f : K → Option (List V)) : Prop where
  map : HashMap.Holds hash d fun k => (f k).map store
  array : ∀ k v, f k = some v → v ≠ []

omit [LinearOrder K] in
theorem map_store_update (f : K → Option (List V)) [DecidableEq K] (k : K) (o : Option (List V)) :
    (fun j => (Function.update f k o j).map store) =
      Function.update (fun j => (f j).map store) k (o.map store) := by
  funext j
  by_cases hj : j = k
  · rw [hj, Function.update_self, Function.update_self]
  · rw [Function.update_of_ne hj, Function.update_of_ne hj]

/-- The array is stored with its size as an `int`; none is added with a negative size. -/
theorem insertBucket_eq (l : List (Node K (Values V))) (k : K) (v : List V) :
    insertBucket l k v =
      if binarySearch l k = none ∧ toInt32 v.length < 0 then none
      else some (setBucket l k ⟨toInt32 v.length, v⟩) := by
  unfold insertBucket setBucket
  cases binarySearch l k with
  | none =>
      by_cases hv : toInt32 v.length < 0
      · exact (if_pos hv).trans (if_pos ⟨rfl, hv⟩).symm
      · exact (if_neg hv).trans (if_neg fun h => hv h.2).symm
  | some i =>
      refine Eq.trans ?_ (if_neg fun h => Option.some_ne_none i h.1).symm
      have hput : (fun n : Node K (Values V) =>
          if n.val.size = toInt32 v.length then { n with val := { n.val with val := v } }
          else { n with val := ⟨toInt32 v.length, v⟩ }) =
          fun n => { n with val := ⟨toInt32 v.length, v⟩ } := by
        funext n
        split
        · rename_i hn
          rw [← hn]
        · rfl
      exact congrArg (fun g => some (false, l.modify i g)) hput

theorem insert_isSome (hash : K → UInt32) (ht : d.m_total < 2147483648) (k : K)
    (hv : v.length < 2147483648) : (insert hash d k v).isSome := by
  unfold insert
  split
  · rfl
  · have hd : (if d.needRehash then HashMap.rehash hash d else some d).isSome := by
      split
      · exact HashMap.rehash_isSome hash ht
      · rfl
    obtain ⟨d₁, hd₁⟩ := Option.isSome_iff_exists.mp hd
    have hnot : ¬ toInt32 v.length < 0 := by
      rw [toInt32_of_lt hv]
      exact not_lt.mpr (Int.natCast_nonneg _)
    rw [hd₁, Option.bind_some, insertNoRehash, insertBucket_eq, if_neg fun h => hnot h.2]
    rfl

namespace Holds

theorem get_eq (h : Holds hash d f) (k : K) : get hash d k = some ((f k).getD []) := by
  unfold Dict.get
  rw [h.map.get_eq]
  cases hf : f k with
  | none => rfl
  | some v =>
      change (if (v.length : Int) < 0 then none else some (v.take (v.length : Int).toNat)) = some v
      rw [if_neg (not_lt.mpr (Int.natCast_nonneg _)), Int.toNat_natCast, List.take_length]

theorem exists_eq (h : Holds hash d f) (k : K) : exists_ hash d k = (f k).isSome := by
  rw [exists_, h.map.exists_eq, Option.isSome_map]

theorem del_eq (h : Holds hash d f) (k : K) :
    (del hash d k).1 = (f k).isSome ∧ Holds hash (del hash d k).2 (Function.update f k none) := by
  obtain ⟨hflag, hmap⟩ := h.map.del_eq k
  refine ⟨hflag.trans (Option.isSome_map ..), ?_, ?_⟩
  · rw [map_store_update]
    exact hmap
  · intro j v hj
    by_cases hjk : j = k
    · rw [hjk, Function.update_self] at hj
      cases hj
    · rw [Function.update_of_ne hjk] at hj
      exact h.array j v hj

theorem rehash (h : Holds hash d f) (hr : rehash hash d = some d') : Holds hash d' f :=
  ⟨(h.map.rehash hr).1, h.array⟩

end Holds

end Dict

end CIM.ds
