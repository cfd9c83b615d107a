import CIM.Lib.NodeIndex
import CIM.Lib.System

/-!
# `LruCache`

The list `m_keys` holds the pairs, the most recent one first, and `m_cache` the list's iterators,
which are the addresses of its nodes.
-/
namespace CIM.ds

open Transition

/-- The counters of a cache. -/
structure CacheStatus where
  m_get : Nat := 0
  m_set : Nat := 0
  m_del : Nat := 0
  m_prune : Nat := 0
  m_hit : Nat := 0
  deriving DecidableEq, Repr

namespace CacheStatus

def incGet (s : CacheStatus) : CacheStatus := { s with m_get := s.m_get + 1 }
def incSet (s : CacheStatus) : CacheStatus := { s with m_set := s.m_set + 1 }
def incDel (s : CacheStatus) : CacheStatus := { s with m_del := s.m_del + 1 }
def incHit (s : CacheStatus) : CacheStatus := { s with m_hit := s.m_hit + 1 }
def incPrune (s : CacheStatus) (v : Nat) : CacheStatus := { s with m_prune := s.m_prune + v }

end CacheStatus

variable {K V : Type} [DecidableEq K]

/-- `next` is the address the next node will have. -/
structure LruCache (K V : Type) where
  m_cache : Table K
  m_keys : List (Node (K × V))
  m_maxSize : UInt64
  m_elasticity : UInt64
  m_status : CacheStatus
  next : Nat

namespace LruCache

def create (max_size elasticity : UInt64) : LruCache K V :=
  ⟨∅, [], max_size, elasticity, {}, 0⟩

def size (c : LruCache K V) : Nat := c.m_cache.keys.length

def getMaxAllowedSize (c : LruCache K V) : UInt64 := c.m_maxSize + c.m_elasticity

/-- `while (m_cache.size() > m_maxSize)`, with the calls of `m_cb`. Each turn takes a node off the
list. -/
def pruneLoop : Nat → LruCache K V → LruCache K V × List (K × V)
  | 0, c => (c, [])
  | turns+1, c =>
      if c.size > c.m_maxSize.toNat then
        match c.m_keys.getLast? with
        | none => (c, [])
        | some back =>
            let (c', cbs) := pruneLoop turns
              { c with m_cache := c.m_cache.erase back.item.1, m_keys := c.m_keys.dropLast }
            (c', back.item :: cbs)
      else (c, [])

def prune (c : LruCache K V) : LruCache K V × List (K × V) :=
  if c.m_maxSize = 0 ∨ c.size < c.getMaxAllowedSize.toNat then (c, [])
  else
    let (c', cbs) := pruneLoop c.m_keys.length c
    ({ c' with m_status := c'.m_status.incPrune cbs.length }, cbs)

/-- `emplace_front` and the insertion of its iterator. -/
def emplace (k : K) (v : V) (c : LruCache K V) : LruCache K V :=
  { c with
    m_keys := ⟨c.next, k, v⟩ :: c.m_keys
    m_cache := c.m_cache.insert k c.next
    next := c.next + 1 }

/-- The pairs are those `m_cb` was called with. -/
def set (k : K) (v : V) (c : LruCache K V) : LruCache K V × List (K × V) :=
  let c := { c with m_status := c.m_status.incSet }
  match c.m_cache.lookup k with
  | some it =>
      ({ c with m_keys := Node.splice it (Node.modify it (fun p => (p.1, v)) c.m_keys) }, [])
  | none => prune (emplace k v c)

/-- Both overloads; the second one turns `none` into `V()`. -/
def get (k : K) (c : LruCache K V) : LruCache K V × Option V :=
  let c := { c with m_status := c.m_status.incGet }
  match c.m_cache.lookup k with
  | none => (c, none)
  | some it =>
      let m_keys := Node.splice it c.m_keys
      ({ c with m_keys := m_keys, m_status := c.m_status.incHit }, (Node.deref it m_keys).map (·.2))

def del (k : K) (c : LruCache K V) : LruCache K V × Bool :=
  let c := { c with m_status := c.m_status.incDel }
  match c.m_cache.lookup k with
  | none => (c, false)
  | some it => ({ c with m_keys := Node.remove it c.m_keys, m_cache := c.m_cache.erase k }, true)

def «exists» (k : K) (c : LruCache K V) : Bool := (c.m_cache.lookup k).isSome

def clear (c : LruCache K V) : LruCache K V := { c with m_cache := ∅, m_keys := [] }

inductive Op (K V : Type) where
  | set (k : K) (v : V)
  | get (k : K)
  | exists (k : K)
  | del (k : K)
  | clear

inductive Outcome (K V : Type) where
  | pruned (cbs : List (K × V))
  | value (v : Option V)
  | flag (b : Bool)

def call (c : LruCache K V) : Op K V → Outcome K V × LruCache K V
  | .set k v => (.pruned (c.set k v).2, (c.set k v).1)
  | .get k => (.value (c.get k).2, (c.get k).1)
  | .exists k => (.flag (c.exists k), c)
  | .del k => (.flag (c.del k).2, (c.del k).1)
  | .clear => (.flag true, c.clear)

def machine (max_size elasticity : UInt64) : System (LruCache K V) (Op K V × Outcome K V) where
  init c := c = create max_size elasticity
  step c e c' := c.call e.1 = (e.2, c')

/-! ## What a history says -/

/-- The key an operation makes the most recent one. -/
def uses : Op K V × Outcome K V → Option K
  | (.set k _, _) => some k
  | (.get k, _) => some k
  | _ => none

/-- The last value set for each key, unless it was deleted or evicted since. -/
def latest : (K → Option V) → Op K V × Outcome K V → K → Option V
  | f, (.set k v, .pruned cbs), k' =>
      if k' ∈ cbs.map Prod.fst then none else if k' = k then some v else f k'
  | f, (.del k, _), k' => if k' = k then none else f k'
  | _, (.clear, _), _ => none
  | f, _, k' => f k'

def history (es : List (Op K V × Outcome K V)) : K → Option V := es.foldl latest fun _ => none

end LruCache

end CIM.ds
