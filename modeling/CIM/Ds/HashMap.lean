import Mathlib.Data.List.Perm.Basic
import Mathlib.Data.UInt
import Mathlib.Logic.Function.Basic
import Mathlib.Order.Defs.LinearOrder
import CIM.Lib.System

/-!
# Hash map

The buckets are sorted arrays, indexed by the hash modulo `m_size`. What the standard leaves
undefined (`abs` of the least `int`, `log2` of zero turned into an `int`) has no result.
-/
namespace CIM.ds

/-- A conversion to a 32-bit `int`. -/
def toInt32 (n : Nat) : Int :=
  if n % 4294967296 < 2147483648 then (n % 4294967296 : Nat)
  else (n % 4294967296 : Nat) - 4294967296

/-- `abs` of the least `int` and the conversion of `log2(0)` are undefined. -/
def basket (n : Int) : Option Nat :=
  if n = 0 ∨ n = -2147483648 then none else some (2 ^ min (Nat.log2 n.natAbs + 1) 30)

namespace HashMap

structure Node (K V : Type) where
  key : K
  val : V

end HashMap

/-- The buckets from `m_size` on are not read. -/
structure HashMap (K V : Type) where
  m_size : Nat
  m_total : Nat
  m_datas : Nat → List (HashMap.Node K V)

namespace HashMap

variable {K V : Type} [LinearOrder K]

/-- `std::lower_bound` on a sorted bucket, then the test for equality. -/
def binarySearch (l : List (Node K V)) (k : K) : Option Nat :=
  match l.dropWhile fun n => n.key < k with
  | [] => none
  | n :: _ => if k < n.key then none else some (l.takeWhile fun n => n.key < k).length

/-- The swaps of `SortLast`, on the entries before the last one in reverse. -/
def bubble (n : Node K V) : List (Node K V) → List (Node K V)
  | [] => [n]
  | m :: l => if n.key < m.key then m :: bubble n l else n :: m :: l

def sortLast (l : List (Node K V)) : List (Node K V) :=
  match l.reverse with
  | [] => []
  | n :: rest => (bubble n rest).reverse

/-- `std::sort` by key. -/
def sort (l : List (Node K V)) : List (Node K V) :=
  l.mergeSort fun a b => decide (a.key ≤ b.key)

omit [LinearOrder K] in
/-- `std::swap(*it, back())`. -/
def swapBack (l : List (Node K V)) (i : Nat) : List (Node K V) :=
  match l[i]?, l.getLast? with
  | some a, some b => (l.set i b).set (l.length - 1) a
  | _, _ => l

/-- A new map; none where the number of buckets is undefined. -/
def create (size : UInt32) : Option (HashMap K V) :=
  (basket (toInt32 size.toNat)).map fun s => ⟨s, 0, fun _ => []⟩

/-- The buckets in order, as `rforeach` reads them. -/
def nodes (m : HashMap K V) : List (Node K V) := (List.range m.m_size).flatMap m.m_datas

/-- `getRate() > 16`, where the rate is rounded to a `float`: the step of `float`s above sixteen
is `2 ^ -19`, and a rate up to half a step above rounds down. -/
def needRehash (m : HashMap K V) : Bool :=
  decide (m.m_size * 16777217 < m.m_total * 1048576)

/-- The `push_back` of every entry into its new bucket. -/
def redistribute (pos : K → Nat) (l : List (Node K V)) (datas : Nat → List (Node K V)) :
    Nat → List (Node K V) :=
  l.foldl (fun d n => Function.update d (pos n.key) (d (pos n.key) ++ [n])) datas

section Hashed

variable (hash : K → UInt32)

def rehashUnlock (m : HashMap K V) : Option (HashMap K V) :=
  (basket (toInt32 m.m_total)).map fun size =>
    if size = m.m_size then m
    else
      ⟨size, m.m_total, fun i =>
        sort (redistribute (fun k => (hash k).toNat % size) m.nodes (fun _ => []) i)⟩

def rehash (m : HashMap K V) : Option (HashMap K V) :=
  if m.needRehash then m.rehashUnlock hash else some m

def pos (m : HashMap K V) (k : K) : Nat := (hash k).toNat % m.m_size

def get (m : HashMap K V) (k : K) : Option V :=
  match binarySearch (m.m_datas (m.pos hash k)) k with
  | some i => (m.m_datas (m.pos hash k))[i]?.map Node.val
  | none => none

def exists_ (m : HashMap K V) (k : K) : Bool :=
  (binarySearch (m.m_datas (m.pos hash k)) k).isSome

/-- `set` on the bucket of the key. -/
def setBucket (l : List (Node K V)) (k : K) (v : V) : Bool × List (Node K V) :=
  match binarySearch l k with
  | none => (true, sortLast (l ++ [⟨k, v⟩]))
  | some i => (false, l.modify i fun n => { n with val := v })

def setNoRehash (m : HashMap K V) (k : K) (v : V) : Bool × HashMap K V :=
  let r := setBucket (m.m_datas (m.pos hash k)) k v
  (r.1,
    { m with
      m_datas := Function.update m.m_datas (m.pos hash k) r.2
      m_total := if r.1 then m.m_total + 1 else m.m_total })

def set (m : HashMap K V) (k : K) (v : V) : Option (Bool × HashMap K V) :=
  (if m.needRehash then m.rehash hash else some m).map fun m => m.setNoRehash hash k v

/-- `del` on the bucket of the key; none where the key is not there. -/
def delBucket (l : List (Node K V)) (k : K) : Option (List (Node K V)) :=
  (binarySearch l k).map fun i =>
    sort (if 1 < l.length then swapBack l i else l).dropLast

def del (m : HashMap K V) (k : K) : Bool × HashMap K V :=
  match delBucket (m.m_datas (m.pos hash k)) k with
  | none => (false, m)
  | some l =>
      (true,
        { m with
          m_datas := Function.update m.m_datas (m.pos hash k) l
          m_total := m.m_total - 1 })

/-- Every pair of `tmp` is set in turn. -/
def setAll (m : HashMap K V) (tmp : List (Node K V)) : Option (HashMap K V) :=
  tmp.foldlM (fun m n => (m.set hash n.key n.val).map Prod.snd) m

def merge (m oth : HashMap K V) : Option (HashMap K V) := m.setAll hash oth.nodes

inductive Op (K V : Type)
  | create (i : Nat) (size : UInt32)
  | set (i : Nat) (k : K) (v : V)
  | get (i : Nat) (k : K)
  | exists_ (i : Nat) (k : K)
  | del (i : Nat) (k : K)
  | rehash (i : Nat)
  | swap (i j : Nat)
  | merge (i j : Nat)

inductive Outcome (V : Type)
  | done
  | flag (b : Bool)
  | value (v : Option V)

/-- The maps by number; none before it is created. -/
abbrev Maps (K V : Type) : Type := Nat → Option (HashMap K V)

/-- A call; none where it is undefined, waits for itself or names a map that is not there. -/
def exec (s : Maps K V) : Op K V → Option (Outcome V × Maps K V)
  | .create i size =>
      match s i with
      | some _ => none
      | none => (create size).map fun m => (.done, Function.update s i (some m))
  | .set i k v => do
      let m ← s i
      let r ← m.set hash k v
      return (.flag r.1, Function.update s i (some r.2))
  | .get i k => do
      let m ← s i
      return (.value (m.get hash k), s)
  | .exists_ i k => do
      let m ← s i
      return (.flag (m.exists_ hash k), s)
  | .del i k => do
      let m ← s i
      return (.flag (m.del hash k).1, Function.update s i (some (m.del hash k).2))
  | .rehash i => do
      let m ← s i
      let m' ← m.rehash hash
      return (.done, Function.update s i (some m'))
  | .swap i j =>
      if i = j then none
      else do
        let m ← s i
        let m' ← s j
        return (.done, Function.update (Function.update s i (some m')) j (some m))
  | .merge i j => do
      let m ← s i
      let oth ← s j
      let m' ← m.merge hash oth
      return (.done, Function.update s i (some m'))

end Hashed

end HashMap

end CIM.ds
