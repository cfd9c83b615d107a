import CIM.Ds.LruCache
import CIM.Lib.SortedSet
import Mathlib.Data.Prod.Lex

/-!
# `TimedLruCache`

As `LruCache`, with a deadline in each item and the set `m_timed` of the list's iterators, ordered
by the deadline and the key that the items have at the time of the comparison.
-/
namespace CIM.ds

open Transition

structure TimedLruCache.Item (K V : Type) where
  key : K
  val : V
  ts : UInt64
  deriving DecidableEq, Repr

variable {K V : Type} [LinearOrder K]

structure TimedLruCache (K V : Type) [DecidableEq K] where
  m_cache : Table K
  m_keys : List (Node (TimedLruCache.Item K V))
  m_timed : List Nat
  m_maxSize : UInt64
  m_elasticity : UInt64
  m_status : CacheStatus
  next : Nat

namespace TimedLruCache

def create (max_size elasticity : UInt64) : TimedLruCache K V :=
  ⟨∅, [], [], max_size, elasticity, {}, 0⟩

/-- `ItemTimeOp` on two iterators of the list. -/
def itemTimeOp (l : List (Node (Item K V))) (a b : Nat) : Bool :=
  match Node.deref a l, Node.deref b l with
  | some x, some y =>
      if a = b then false else if x.ts ≠ y.ts then decide (x.ts < y.ts) else decide (x.key < y.key)
  | _, _ => false

def size (c : TimedLruCache K V) : Nat := c.m_cache.keys.length

def getMaxAllowedSize (c : TimedLruCache K V) : UInt64 := c.m_maxSize + c.m_elasticity

/-- `while (m_cache.size() > m_maxSize)`, with the calls of `m_cb`. Each turn takes a node off the
list. -/
def pruneLoop : Nat → TimedLruCache K V → TimedLruCache K V × List (K × V)
  | 0, c => (c, [])
  | turns+1, c =>
      if c.size > c.m_maxSize.toNat then
        match c.m_keys.getLast? with
        | none => (c, [])
        | some back =>
            let (c', cbs) := pruneLoop turns
              { c with
                m_cache := c.m_cache.erase back.item.key
                m_timed := SortedSet.erase (itemTimeOp c.m_keys) back.id c.m_timed
                m_keys := c.m_keys.dropLast }
            (c', (back.item.key, back.item.val) :: cbs)
      else (c, [])

def prune (c : TimedLruCache K V) : TimedLruCache K V × List (K × V) :=
  if c.m_maxSize = 0 ∨ c.size < c.getMaxAllowedSize.toNat then (c, [])
  else
    let (c', cbs) := pruneLoop c.m_keys.length c
    ({ c' with m_status := c'.m_status.incPrune cbs.length }, cbs)

/-- `emplace_front` and the insertion of its iterator in both indexes. -/
def emplace (k : K) (v : V) (ts : UInt64) (c : TimedLruCache K V) : TimedLruCache K V :=
  let m_keys := ⟨c.next, k, v, ts⟩ :: c.m_keys
  { c with
    m_keys := m_keys
    m_cache := c.m_cache.insert k c.next
    m_timed := SortedSet.insert (itemTimeOp m_keys) c.next c.m_timed
    next := c.next + 1 }

/-- `now` is `GetCurrentMS()`. The pairs are those `m_cb` was called with. -/
def set (k : K) (v : V) (expired now : UInt64) (c : TimedLruCache K V) :
    TimedLruCache K V × List (K × V) :=
  let c := { c with m_status := c.m_status.incSet }
  match c.m_cache.lookup k with
  | some it =>
      let m_keys := Node.splice it c.m_keys
      let m_timed := SortedSet.erase (itemTimeOp m_keys) it c.m_timed
      let m_keys := Node.modify it (fun x => { x with val := v, ts := expired + now }) m_keys
      ({ c with
        m_keys := m_keys
        m_timed := SortedSet.insert (itemTimeOp m_keys) it m_timed }, [])
  | none => prune (emplace k v (expired + now) c)

/-- Both overloads; the second one turns `none` into `V()`. -/
def get (k : K) (c : TimedLruCache K V) : TimedLruCache K V × Option V :=
  let c := { c with m_status := c.m_status.incGet }
  match c.m_cache.lookup k with
  | none => (c, none)
  | some it =>
      let m_keys := Node.splice it c.m_keys
      ({ c with m_keys := m_keys, m_status := c.m_status.incHit },
        (Node.deref it m_keys).map (·.val))

def del (k : K) (c : TimedLruCache K V) : TimedLruCache K V × Bool :=
  let c := { c with m_status := c.m_status.incDel }
  match c.m_cache.lookup k with
  | none => (c, false)
  | some it =>
      ({ c with
        m_timed := SortedSet.erase (itemTimeOp c.m_keys) it c.m_timed
        m_keys := Node.remove it c.m_keys
        m_cache := c.m_cache.erase k }, true)

def clear (c : TimedLruCache K V) : TimedLruCache K V :=
  { c with m_cache := ∅, m_keys := [], m_timed := [] }

/-- The loop of `checkTimeout` from the iterators that are left of `m_timed`. -/
def timeoutLoop (ts : UInt64) :
    List Nat → TimedLruCache K V → TimedLruCache K V × List (K × V)
  | [], c => (c, [])
  | it :: m_timed, c =>
      match Node.deref it c.m_keys with
      | none => (c, [])
      | some x =>
          if x.ts ≤ ts then
            let (c', cbs) := timeoutLoop ts m_timed
              { c with
                m_cache := c.m_cache.erase x.key
                m_keys := Node.remove it c.m_keys
                m_timed := m_timed }
            (c', (x.key, x.val) :: cbs)
          else (c, [])

/-- Its result is the number of the pairs. -/
def checkTimeout (ts : UInt64) (c : TimedLruCache K V) : TimedLruCache K V × List (K × V) :=
  timeoutLoop ts c.m_timed c

inductive Op (K V : Type) where
  | set (k : K) (v : V) (expired now : UInt64)
  | get (k : K)
  | del (k : K)
  | clear
  | checkTimeout (ts : UInt64)

inductive Outcome (K V : Type) where
  | called (cbs : List (K × V))
  | value (v : Option V)
  | flag (b : Bool)

def call (c : TimedLruCache K V) : Op K V → Outcome K V × TimedLruCache K V
  | .set k v expired now => (.called (c.set k v expired now).2, (c.set k v expired now).1)
  | .get k => (.value (c.get k).2, (c.get k).1)
  | .del k => (.flag (c.del k).2, (c.del k).1)
  | .clear => (.flag true, c.clear)
  | .checkTimeout ts => (.called (c.checkTimeout ts).2, (c.checkTimeout ts).1)

def machine (max_size elasticity : UInt64) :
    System (TimedLruCache K V) (Op K V × Outcome K V) where
  init c := c = create max_size elasticity
  step c e c' := c.call e.1 = (e.2, c')

/-- The key an operation makes the most recent one. -/
def uses : Op K V × Outcome K V → Option K
  | (.set k _ _ _, _) => some k
  | (.get k, _) => some k
  | _ => none

end TimedLruCache

end CIM.ds
