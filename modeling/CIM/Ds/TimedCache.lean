import CIM.Ds.LruCache
import CIM.Lib.SortedSet
import Mathlib.Data.Prod.Lex

/-!
# `TimedCache`

The set `m_timed` holds the items in the order of their deadlines, and `m_cache` the set's
iterators by key. `set` drops the iterator of a key that is there, and leaves its item behind.
-/
namespace CIM.ds

open Transition

structure TimedCache.Item (K V : Type) where
  key : K
  val : V
  ts : UInt64
  deriving DecidableEq, Repr

variable {K V : Type} [LinearOrder K]

structure TimedCache (K V : Type) [DecidableEq K] where
  m_cache : Table K
  m_timed : List (Node (TimedCache.Item K V))
  m_maxSize : UInt64
  m_elasticity : UInt64
  m_status : CacheStatus
  next : Nat

namespace TimedCache

def create (max_size elasticity : UInt64) : TimedCache K V :=
  ⟨∅, [], max_size, elasticity, {}, 0⟩

/-- `Item::operator<` on the nodes of the set. -/
def itemLt (a b : Node (Item K V)) : Bool :=
  if a.item.ts ≠ b.item.ts then decide (a.item.ts < b.item.ts)
  else decide (a.item.key < b.item.key)

def size (c : TimedCache K V) : Nat := c.m_cache.keys.length

def getMaxAllowedSize (c : TimedCache K V) : UInt64 := c.m_maxSize + c.m_elasticity

/-- `while (m_cache.size() > m_maxSize)` over the items left, with the calls of `m_cb`. -/
def pruneLoop : List (Node (Item K V)) → TimedCache K V → TimedCache K V × List (K × V)
  | [], c => (c, [])
  | it :: m_timed, c =>
      if c.size > c.m_maxSize.toNat then
        let (c', cbs) := pruneLoop m_timed
          { c with m_cache := c.m_cache.erase it.item.key, m_timed := m_timed }
        (c', (it.item.key, it.item.val) :: cbs)
      else (c, [])

def prune (c : TimedCache K V) : TimedCache K V × List (K × V) :=
  if c.m_maxSize = 0 ∨ c.size < c.getMaxAllowedSize.toNat then (c, [])
  else
    let (c', cbs) := pruneLoop c.m_timed c
    ({ c' with m_status := c'.m_status.incPrune cbs.length }, cbs)

/-- `m_timed.insert`, and the iterator it returns: of the new item or of an equivalent one. -/
def emplace (k : K) (v : V) (ts : UInt64) (c : TimedCache K V) : TimedCache K V :=
  let node := ⟨c.next, k, v, ts⟩
  let it := match SortedSet.find itemLt node c.m_timed with
    | some old => old.id
    | none => c.next
  { c with
    m_timed := SortedSet.insert itemLt node c.m_timed
    m_cache := c.m_cache.insert k it
    next := c.next + 1 }

/-- `now` is `GetCurrentMS()`. The pairs are those `m_cb` was called with. -/
def set (k : K) (v : V) (expired now : UInt64) (c : TimedCache K V) :
    TimedCache K V × List (K × V) :=
  let c := { c with m_status := c.m_status.incSet }
  match c.m_cache.lookup k with
  | some _ => prune (emplace k v (expired + now) { c with m_cache := c.m_cache.erase k })
  | none => prune (emplace k v (expired + now) c)

/-- Both overloads; the second one turns `none` into `V()`. -/
def get (k : K) (c : TimedCache K V) : TimedCache K V × Option V :=
  let c := { c with m_status := c.m_status.incGet }
  match c.m_cache.lookup k with
  | none => (c, none)
  | some it =>
      ({ c with m_status := c.m_status.incHit }, (Node.deref it c.m_timed).map (·.val))

/-- After a hit the function ends without a result. -/
def del (k : K) (c : TimedCache K V) : TimedCache K V × Option Bool :=
  let c := { c with m_status := c.m_status.incDel }
  match c.m_cache.lookup k with
  | none => (c, some false)
  | some it =>
      ({ c with
        m_timed := Node.remove it c.m_timed
        m_cache := c.m_cache.erase k
        m_status := c.m_status.incHit }, none)

/-- `now` is `GetCurrentMS()`; there is no result where the entry's iterator is not valid. -/
def expired (k : K) (ts now : UInt64) (c : TimedCache K V) : TimedCache K V × Option Bool :=
  match c.m_cache.lookup k with
  | none => (c, some false)
  | some it =>
      let tts := ts + now
      match Node.deref it c.m_timed with
      | none => (c, none)
      | some item =>
          if item.ts = tts then (c, some true)
          else
            let node := ⟨c.next, item⟩
            let m_timed := Node.remove it c.m_timed
            let iit := match SortedSet.find itemLt node m_timed with
              | some old => old.id
              | none => c.next
            ({ c with
              m_timed := SortedSet.insert itemLt node m_timed
              m_cache := c.m_cache.insert k iit
              next := c.next + 1 }, some true)

def clear (c : TimedCache K V) : TimedCache K V := { c with m_timed := [], m_cache := ∅ }

def setMaxSize (v : UInt64) (c : TimedCache K V) : TimedCache K V := { c with m_maxSize := v }

def setElasticity (v : UInt64) (c : TimedCache K V) : TimedCache K V := { c with m_elasticity := v }

/-- The loop of `checkTimeout` over the items that are left. -/
def timeoutLoop (ts : UInt64) :
    List (Node (Item K V)) → TimedCache K V → TimedCache K V × List (K × V)
  | [], c => (c, [])
  | it :: m_timed, c =>
      if it.item.ts ≤ ts then
        let (c', cbs) := timeoutLoop ts m_timed
          { c with m_cache := c.m_cache.erase it.item.key, m_timed := m_timed }
        (c', (it.item.key, it.item.val) :: cbs)
      else (c, [])

/-- Its result is the number of the pairs. -/
def checkTimeout (ts : UInt64) (c : TimedCache K V) : TimedCache K V × List (K × V) :=
  timeoutLoop ts c.m_timed c

inductive Op (K V : Type) where
  | set (k : K) (v : V) (expired now : UInt64)
  | get (k : K)
  | del (k : K)
  | checkTimeout (ts : UInt64)
  | prune

inductive Outcome (K V : Type) where
  | called (cbs : List (K × V))
  | value (v : Option V)
  | flag (b : Option Bool)

def call (c : TimedCache K V) : Op K V → Outcome K V × TimedCache K V
  | .set k v expired now => (.called (c.set k v expired now).2, (c.set k v expired now).1)
  | .get k => (.value (c.get k).2, (c.get k).1)
  | .del k => (.flag (c.del k).2, (c.del k).1)
  | .checkTimeout ts => (.called (c.checkTimeout ts).2, (c.checkTimeout ts).1)
  | .prune => (.called c.prune.2, c.prune.1)

def machine (max_size elasticity : UInt64) : System (TimedCache K V) (Op K V × Outcome K V) where
  init c := c = create max_size elasticity
  step c e c' := c.call e.1 = (e.2, c')

/-! ## The map the cache stands for -/

/-- Drop the keys that were evicted. -/
def evict (f : K → Option (V × UInt64)) (cbs : List (K × V)) : K → Option (V × UInt64) :=
  fun k => if k ∈ cbs.map Prod.fst then none else f k

/-- Each key has the value and the deadline of its last `set`, until it is deleted, evicted by
`prune`, or found late by a check. -/
def latest (f : K → Option (V × UInt64)) : Op K V × Outcome K V → K → Option (V × UInt64)
  | (.set k v expired now, .called cbs), k' =>
      evict (fun k' => if k' = k then some (v, expired + now) else f k') cbs k'
  | (.del k, _), k' => if k' = k then none else f k'
  | (.checkTimeout ts, _), k' => (f k').filter fun p => decide (ts < p.2)
  | (.prune, .called cbs), k' => evict f cbs k'
  | _, k' => f k'

def history (es : List (Op K V × Outcome K V)) : K → Option (V × UInt64) :=
  es.foldl latest fun _ => none

/-- The operation does not set a key that is there to something else. -/
def NoOverwrite (c : TimedCache K V) : Op K V → Prop
  | .set k v expired now => ∀ it, c.m_cache.lookup k = some it →
      Node.deref it c.m_timed = some ⟨k, v, expired + now⟩
  | _ => True

end TimedCache

end CIM.ds
