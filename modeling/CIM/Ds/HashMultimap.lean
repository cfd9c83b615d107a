import Mathlib.Data.List.Dedup
import CIM.Ds.HashMapRuns

/-!
# Hash map with several values for a key

Each entry holds an array of values, sorted, whose length is an `int`. A call that would make it
longer than an `int` counts throws or is undefined, and has no result here. The number of keys and
the number of values are counted by hand.
-/
namespace CIM.ds

open Transition

/-- `map` is `m_size`, `m_total` and `m_datas`. -/
structure HashMultimap (K V : Type) where
  map : HashMap K (List V)
  m_elements : Nat

namespace HashMultimap

open HashMap

variable {K V : Type} [LinearOrder K] [LinearOrder V] [Inhabited V]

/-- `BinarySearch` on the values of a key. -/
def searchValue (l : List V) (v : V) : Option Nat :=
  match l.dropWhile (· < v) with
  | [] => none
  | w :: _ => if v < w then none else some (l.takeWhile (· < v)).length

/-- The swaps of `SortLast`, on the values before the last one in reverse. -/
def bubbleValue (v : V) : List V → List V
  | [] => [v]
  | w :: l => if v < w then w :: bubbleValue v l else v :: w :: l

/-- `datas[size] = v; SortLast(datas, size + 1)`. -/
def pushValue (l : List V) (v : V) : List V := (bubbleValue v l.reverse).reverse

def sortValues (l : List V) : List V := l.mergeSort fun a b => decide (a ≤ b)

/-- The values that are not there yet, each once. -/
def news (l vs : List V) : List V := (vs.filter fun v => (searchValue l v).isNone).dedup

/-- The array that `del` builds for the values but the `i`-th one. The second `memcpy` writes to
its begin and reads from `it + 1`, the entry of the next key; `raw` is what stands there. -/
def cutValue (l : List V) (i : Nat) (raw : Nat → V) : List V :=
  let left := l.length - i - 1
  (List.range left).map raw ++ (l.take i ++ List.replicate left default).drop left

/-- Whether an `int` counts so many values. -/
def fits (n : Nat) : Bool := decide (n < 2147483648)

def create (size : UInt32) : Option (HashMultimap K V) :=
  (HashMap.create size).map fun m => ⟨m, 0⟩

section Hashed

variable (hash : K → UInt32)

/-- The array of the key is replaced or a new entry is pushed, and `added` values are counted. -/
def put (m : HashMultimap K V) (k : K) (l : List V) (added : Nat) : Option (HashMultimap K V) :=
  if fits l.length then some ⟨(m.map.setNoRehash hash k l).2, m.m_elements + added⟩ else none

/-- `if (needRehash()) rehash();`. -/
def grow (m : HashMultimap K V) : Option (HashMultimap K V) :=
  (if m.map.needRehash then m.map.rehash hash else some m.map).map fun map => { m with map := map }

def insertNoRehash (m : HashMultimap K V) (k : K) (v : V) : Option (HashMultimap K V) :=
  match m.map.get hash k with
  | none => m.put hash k [v] 1
  | some l =>
      match searchValue l v with
      | some i => m.put hash k (l.set i v) 0
      | none => m.put hash k (pushValue l v) 1

/-- `insert(const K &k, const V &v)`; it returns true. -/
def insert (m : HashMultimap K V) (k : K) (v : V) : Option (HashMultimap K V) :=
  (m.grow hash).bind fun m => m.insertNoRehash hash k v

def insertAllNoRehash (m : HashMultimap K V) (k : K) (vs : List V) : Option (HashMultimap K V) :=
  match m.map.get hash k with
  | none => m.put hash k (sortValues vs) vs.length
  | some l => m.put hash k (sortValues (l ++ news l vs)) (news l vs).length

/-- `insert(const K &k, const V *v, const uint32_t &size)`; it returns true. -/
def insertAll (m : HashMultimap K V) (k : K) (vs : List V) : Option (HashMultimap K V) :=
  (m.grow hash).bind fun m => m.insertAllNoRehash hash k vs

/-- `set`; it returns true. A key that is there gets a new array, and its values are added to the
count in either case. -/
def set (m : HashMultimap K V) (k : K) (vs : List V) : Option (HashMultimap K V) :=
  (m.grow hash).bind fun m => m.put hash k (sortValues vs) vs.length

def del (m : HashMultimap K V) (k : K) : Bool × HashMultimap K V :=
  match m.map.get hash k with
  | none => (false, m)
  | some l => (true, ⟨(m.map.del hash k).2, m.m_elements - l.length⟩)

/-- `del(const K &k, const V &v)`. -/
def delValue (m : HashMultimap K V) (k : K) (v : V) (raw : Nat → V) : Bool × HashMultimap K V :=
  match m.map.get hash k with
  | none => (false, m)
  | some l =>
      match searchValue l v with
      | none => (false, m)
      | some i =>
          if l.length = 1 then (true, ⟨(m.map.del hash k).2, m.m_elements - 1⟩)
          else (true, { m with map := (m.map.setNoRehash hash k (cutValue l i raw)).2 })

def rehash (m : HashMultimap K V) : Option (HashMultimap K V) :=
  (m.map.rehash hash).map fun map => { m with map := map }

inductive Op (K V : Type)
  | insert (k : K) (v : V)
  | insertAll (k : K) (vs : List V)
  | set (k : K) (vs : List V)
  | del (k : K)
  | delValue (k : K) (v : V) (raw : Nat → V)
  | rehash

/-- A call; none where it throws or is undefined. -/
def exec (m : HashMultimap K V) : Op K V → Option (Bool × HashMultimap K V)
  | .insert k v => (m.insert hash k v).map fun m => (true, m)
  | .insertAll k vs => (m.insertAll hash k vs).map fun m => (true, m)
  | .set k vs => (m.set hash k vs).map fun m => (true, m)
  | .del k => some (m.del hash k)
  | .delValue k v raw => some (m.delValue hash k v raw)
  | .rehash => (m.rehash hash).map fun m => (true, m)

/-- The calls with the flags they return, on a multimap of any size argument. -/
def system : System (HashMultimap K V) (Op K V × Bool) where
  init m := ∃ size, create size = some m
  step m e m' := exec hash m e.1 = some (e.2, m')

/-- `set` names a key without values, and a value that is deleted is not there or the last one of
its key. -/
def Guard (m : HashMultimap K V) : Op K V → Prop
  | .set k _ => m.map.get hash k = none ∨ m.map.get hash k = some []
  | .delValue k v _ => ∀ l, m.map.get hash k = some l → searchValue l v ≠ none → l.length = 1
  | _ => True

end Hashed

/-- The values stored for all keys. -/
def elements (l : List (Node K (List V))) : Nat := (l.map fun n => n.val.length).sum

/-- Every key is stored once and counted, and so is every value. -/
structure Counted (m : HashMultimap K V) : Prop where
  keys : (m.map.nodes.map Node.key).Nodup
  total : m.map.m_total = m.map.nodes.length
  elements : m.m_elements = elements m.map.nodes

end HashMultimap

end CIM.ds
