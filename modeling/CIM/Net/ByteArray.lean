import Mathlib.Algebra.GroupWithZero.Nat
import CIM.Lib.Patch

/-!
# `ByteArray`: a byte buffer over a chain of blocks

The chain that starts at `m_root_node` is the list `nodes`; a node pointer is a position in it,
and the position one past the end is the null pointer. A buffer argument is the list of the
bytes it holds, so a call with a null buffer, at which `write` and `read` return at once, has
no counterpart here.
-/
namespace CIM

/-- What ends a call early: the exception the code throws, or a use of a null node pointer,
which no handler of the program sees. -/
inductive Fault where
  | outOfRange (what : String)
  | nullNode
  deriving DecidableEq, Repr

inductive Endian where
  | little
  | big
  deriving DecidableEq, Repr

/-- `Node::size` is the length that `new char[size]` was called with. -/
structure Node where
  ptr : List UInt8
  size : Nat
  size_eq : ptr.length = size

/-- `memcpy(node->ptr + npos, src, …)` -/
def Node.store (node : Node) (npos : Nat) (src : List UInt8) : Node :=
  ⟨Patch.patch node.ptr npos src, node.size, by rw [Patch.length_patch, node.size_eq]⟩

@[simp] theorem Node.store_size (node : Node) (npos : Nat) (src : List UInt8) :
    (node.store npos src).size = node.size := rfl

@[simp] theorem Node.store_ptr (node : Node) (npos : Nat) (src : List UInt8) :
    (node.store npos src).ptr = Patch.patch node.ptr npos src := rfl

/-- `arena k` is the content of the memory that the `k`-th allocation hands out. -/
def newNode (size : Nat) (content : Nat → UInt8) : Node :=
  ⟨(List.range size).map content, size, by simp⟩

structure ByteArray where
  baseSize : Nat
  position : Nat
  capacity : Nat
  dataSize : Nat
  endian : Endian
  nodes : List Node
  curNode : Nat
  arena : Nat → Nat → UInt8
  allocated : Nat

abbrev ByteArrayM := EStateM Fault ByteArray

namespace ByteArray

/-- The constructor. -/
def new (base_size : Nat) (arena : Nat → Nat → UInt8) : ByteArray where
  baseSize := base_size
  position := 0
  capacity := base_size
  dataSize := 0
  endian := .big
  nodes := [newNode base_size (arena 0)]
  curNode := 0
  arena := arena
  allocated := 1

/-- `m_cur_node`, as a pointer that may be null. -/
def curNode? (ba : ByteArray) : Option Nat :=
  if ba.curNode < ba.nodes.length then some ba.curNode else none

def getRemainingCapacity (ba : ByteArray) : Nat := ba.capacity - ba.position

def getReadSize (ba : ByteArray) : Nat := ba.dataSize - ba.position

def addCapacity (size : Nat) : ByteArrayM Unit := do
  if size = 0 then return
  let ba ← get
  let old_size := ba.getRemainingCapacity
  if old_size ≥ size then return
  let size := size - old_size
  let count := size / ba.baseSize + (if size % ba.baseSize > 0 then 1 else 0)
  let fresh := (List.range count).map fun i => newNode ba.baseSize (ba.arena (ba.allocated + i))
  set { ba with
    nodes := ba.nodes ++ fresh
    capacity := ba.capacity + count * ba.baseSize
    allocated := ba.allocated + count
    -- `first` is the first of the nodes just linked in behind the old last one
    curNode := if old_size = 0 then ba.nodes.length else ba.curNode }

/-- `m_cur_node->size`, where `chain` starts at `m_cur_node`. -/
def nodeSize : List Node → Except Fault Nat
  | [] => .error .nullNode
  | node :: _ => .ok node.size

/-- The loop of `write` over the chain that starts at `m_cur_node`: the chain with the bytes
stored and by how many nodes the pointer moves. The loop ends only through its first branch. -/
def writeLoop : List Node → (npos ncap : Nat) → (buf : List UInt8) →
    Except Fault (List Node × Nat)
  | [], _, _, _ => .error .nullNode
  | node :: chain, npos, ncap, buf =>
      if ncap ≥ buf.length then
        .ok (node.store npos buf :: chain, if node.size = npos + buf.length then 1 else 0)
      else do
        let ncap' ← nodeSize chain
        let (chain', moved) ← writeLoop chain 0 ncap' (buf.drop ncap)
        return (node.store npos (buf.take ncap) :: chain', moved + 1)

/-- The loop of `read`: the bytes copied and by how many nodes the pointer moves. -/
def readLoop : List Node → (npos ncap size : Nat) → Except Fault (List UInt8 × Nat)
  | [], _, _, _ => .error .nullNode
  | node :: chain, npos, ncap, size =>
      if ncap ≥ size then
        .ok (Patch.slice node.ptr npos size, if node.size = npos + size then 1 else 0)
      else do
        let ncap' ← nodeSize chain
        let (bytes, moved) ← readLoop chain 0 ncap' (size - ncap)
        return (Patch.slice node.ptr npos ncap ++ bytes, moved + 1)

def ofExcept {α : Type} : Except Fault α → ByteArrayM α
  | .ok a => pure a
  | .error e => throw e

def write (buf : List UInt8) : ByteArrayM Unit := do
  if buf.length = 0 then return
  addCapacity buf.length
  let ba ← get
  let npos := ba.position % ba.baseSize
  let chain := ba.nodes.drop ba.curNode
  let ncap := (← ofExcept (nodeSize chain)) - npos
  let (chain', moved) ← ofExcept (writeLoop chain npos ncap buf)
  let position := ba.position + buf.length
  set { ba with
    nodes := ba.nodes.take ba.curNode ++ chain'
    curNode := ba.curNode + moved
    position := position
    dataSize := if position > ba.dataSize then position else ba.dataSize }

def read (size : Nat) : ByteArrayM (List UInt8) := do
  if size = 0 then return []
  let ba ← get
  if size > ba.getReadSize then throw (.outOfRange "not enough len")
  let npos := ba.position % ba.baseSize
  let chain := ba.nodes.drop ba.curNode
  let ncap := (← ofExcept (nodeSize chain)) - npos
  let (bytes, moved) ← ofExcept (readLoop chain npos ncap size)
  set { ba with curNode := ba.curNode + moved, position := ba.position + size }
  return bytes

/-- The loop of `setPosition`: how many nodes it passes and what is left of `v`. -/
def seekLoop : List Node → Nat → Except Fault (Nat × Nat)
  | [], _ => .error .nullNode
  | node :: chain, v =>
      if v ≥ node.size then do
        let (passed, v') ← seekLoop chain (v - node.size)
        return (passed + 1, v')
      else .ok (0, v)

def setPosition (v : Nat) : ByteArrayM Unit := do
  let ba ← get
  if v > ba.capacity then throw (.outOfRange "ByteArray::setPosition out of range")
  modify fun ba => { ba with position := v }
  modify fun ba => { ba with dataSize := if v > ba.dataSize then v else ba.dataSize }
  let (passed, v') ← ofExcept (seekLoop ba.nodes v)
  let size ← ofExcept (nodeSize (ba.nodes.drop passed))
  let next := passed + 1
  modify fun ba => { ba with
    curNode := if v' = size ∧ next < ba.nodes.length then next else passed }

def clear : ByteArrayM Unit := modify fun ba =>
  { ba with
    position := 0
    dataSize := 0
    capacity := ba.baseSize
    nodes := ba.nodes.take 1
    curNode := 0 }

/-- An `iovec` into the memory of a node. -/
structure Iovec where
  node : Nat
  offset : Nat
  len : Nat
  deriving DecidableEq, Repr

/-- The loop shared by `getReadBuffers` and `getWriteBuffers`; `cur` is the position of the
node the chain starts at. -/
def buffersLoop : List Node → (cur npos ncap len : Nat) → Except Fault (List Iovec)
  | [], _, _, _, _ => .error .nullNode
  | _ :: chain, cur, npos, ncap, len =>
      if ncap ≥ len then .ok [⟨cur, npos, len⟩]
      else do
        let ncap' ← nodeSize chain
        let iovs ← buffersLoop chain (cur + 1) 0 ncap' (len - ncap)
        return ⟨cur, npos, ncap⟩ :: iovs

def getReadBuffers (len : Nat) : ByteArrayM (List Iovec) := do
  let ba ← get
  let len := if len > ba.getReadSize then ba.getReadSize else len
  if len = 0 then return []
  let npos := ba.position % ba.baseSize
  let chain := ba.nodes.drop ba.curNode
  let ncap := (← ofExcept (nodeSize chain)) - npos
  ofExcept (buffersLoop chain ba.curNode npos ncap len)

def getWriteBuffers (len : Nat) : ByteArrayM (List Iovec) := do
  if len = 0 then return []
  addCapacity len
  let ba ← get
  let npos := ba.position % ba.baseSize
  let chain := ba.nodes.drop ba.curNode
  let ncap := (← ofExcept (nodeSize chain)) - npos
  ofExcept (buffersLoop chain ba.curNode npos ncap len)

/-- How many bytes the vectors hold. -/
def room (iovs : List Iovec) : Nat := (iovs.map Iovec.len).sum

/-- What the kernel does with the memory behind the vectors when it receives `bytes`. -/
def scatter : List Iovec → List UInt8 → List Node → List Node
  | [], _, nodes => nodes
  | iov :: iovs, bytes, nodes =>
      scatter iovs (bytes.drop iov.len)
        (nodes.modify iov.node fun node => node.store iov.offset (bytes.take iov.len))

/-- The bytes behind the vectors, in order, as the kernel sends them. -/
def gather (nodes : List Node) (iovs : List Iovec) : List UInt8 :=
  iovs.flatMap fun iov =>
    match nodes[iov.node]? with
    | some node => Patch.slice node.ptr iov.offset iov.len
    | none => []

end ByteArray

end CIM
