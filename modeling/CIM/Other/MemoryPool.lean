import Mathlib.Data.List.Basic
import CIM.Lib.System

/-!
# Memory pool

A pointer is the number of the `malloc` call that gave the object and an offset in it; every object
begins at a multiple of the alignment. Differences of pointers are taken modulo `2 ^ 64`, as the
code converts them to `size_t`.
-/
namespace CIM

/-- `ngx_align`, for a power of two. -/
def ngx_align (d a : Nat) : Nat := (d + (a - 1)) / a * a

def NGX_ALIGNMENT : Nat := 8

def NGX_MAX_ALLOC_FROM_POOL : Nat := 4095

def sizeofNgxPoolData : Nat := 32

def sizeofNgxPool : Nat := 64

def sizeofNgxPoolLarge : Nat := 16

def NGX_MIN_POOL_SIZE : Nat := ngx_align (sizeofNgxPool + 2 * sizeofNgxPoolLarge) 16

/-- A block of the pool: its object, the bytes `malloc` gave, and `last` and `end` in them. -/
structure Region where
  chunk : Nat
  room : Nat
  last : Nat
  end_ : Nat

structure NgxPoolData extends Region where
  failed : Nat

/-- Memory that was handed out. -/
structure Piece where
  chunk : Nat
  off : Nat
  size : Nat
  deriving DecidableEq

def Piece.Disjoint (p q : Piece) : Prop :=
  p.chunk ≠ q.chunk ∨ p.off + p.size ≤ q.off ∨ q.off + q.size ≤ p.off

/-- An object and an offset. -/
abbrev Ptr : Type := Nat × Nat

/-- `blocks` is the chain of `d.next` from `_pool` on, and `current` the place of the current block
in it. The code does not store `mallocs`, the calls of `malloc` so far, nor what it handed out and
did not get back: `small` from the blocks (nodes of the large list among it), `taken` of its own. -/
structure NgxPool where
  blocks : List NgxPoolData
  max : Nat
  current : Nat
  large : List (Option Ptr)
  mallocs : Nat
  small : List Piece
  taken : List Piece

namespace NgxPool

/-- The constructor, where `malloc` gives memory. -/
def create (size : UInt64) : NgxPool where
  blocks := [⟨⟨0, Nat.max size.toNat NGX_MIN_POOL_SIZE, sizeofNgxPool, size.toNat⟩, 0⟩]
  max := min (size - UInt64.ofNat sizeofNgxPool).toNat NGX_MAX_ALLOC_FROM_POOL
  current := 0
  large := []
  mallocs := 1
  small := []
  taken := []

/-- `(size_t)(p->d.end - m)`. -/
def space (b : Region) (m : Nat) : Int := ((b.end_ : Int) - m) % 18446744073709551616

/-- `p->d.last`, aligned on demand. -/
def place (align : Bool) (b : Region) : Nat :=
  if align then ngx_align b.last NGX_ALIGNMENT else b.last

/-- The first block with enough space serves the request. -/
def serve (size : Nat) (align : Bool) : List NgxPoolData → Option (Piece × List NgxPoolData)
  | [] => none
  | b :: bs =>
      let m := place align b.toRegion
      if (size : Int) ≤ space b.toRegion m then
        some (⟨b.chunk, m, size⟩, { b with last := m + size } :: bs)
      else (serve size align bs).map fun r => (r.1, b :: r.2)

/-- The loop of `pallocBlock` over the blocks that have a next one, from the `i`-th on; the first
value is `current`. -/
def fail (i current : Nat) : List NgxPoolData → Nat × List NgxPoolData
  | b :: c :: bs =>
      let r := fail (i + 1) (if b.failed > 4 then i + 1 else current) (c :: bs)
      (r.1, { b with failed := (b.failed + 1) % 4294967296 } :: r.2)
  | bs => (current, bs)

/-- `end - _pool`. -/
def psize (s : NgxPool) : Nat :=
  match s.blocks with
  | [] => 0
  | b :: _ => b.end_

/-- `mem` says which calls of `malloc` give memory. -/
def pallocBlock (mem : Nat → Bool) (s : NgxPool) (size : Nat) : Option Ptr × NgxPool :=
  let s' := { s with mallocs := s.mallocs + 1 }
  if mem s.mallocs then
    let m := ngx_align sizeofNgxPoolData NGX_ALIGNMENT
    let new : NgxPoolData := ⟨⟨s.mallocs, s.psize, m + size, s.psize⟩, 0⟩
    let r := fail s.current s.current (s.blocks.drop s.current)
    (some (s.mallocs, m),
      { s' with
        blocks := s.blocks.take s.current ++ r.2 ++ [new]
        current := r.1
        small := ⟨s.mallocs, m, size⟩ :: s.small })
  else (none, s')

def pallocSmall (mem : Nat → Bool) (s : NgxPool) (size : Nat) (align : Bool) :
    Option Ptr × NgxPool :=
  match serve size align (s.blocks.drop s.current) with
  | some (p, bs) =>
      (some (p.chunk, p.off),
        { s with blocks := s.blocks.take s.current ++ bs, small := p :: s.small })
  | none => s.pallocBlock mem size

/-- The search for a free node, which gives up after the fifth one. -/
def reuse (p : Ptr) (n : Nat) : List (Option Ptr) → Option (List (Option Ptr))
  | [] => none
  | none :: l => some (some p :: l)
  | some q :: l => if n > 3 then none else (reuse p (n + 1) l).map (some q :: ·)

def pallocLarge (mem : Nat → Bool) (s : NgxPool) (size : Nat) : Option Ptr × NgxPool :=
  let p : Ptr := (s.mallocs, 0)
  let s' := { s with mallocs := s.mallocs + 1 }
  if mem s.mallocs then
    let taken := ⟨s.mallocs, 0, size⟩ :: s.taken
    match reuse p 0 s.large with
    | some large => (some p, { s' with large := large, taken := taken })
    | none =>
        match s'.pallocSmall mem sizeofNgxPoolLarge true with
        | (none, s') => (none, s')
        | (some _, s') => (some p, { s' with large := some p :: s.large, taken := taken })
  else (none, s')

/-- `palloc` and `pnalloc`, which does not align. -/
def request (align : Bool) (mem : Nat → Bool) (s : NgxPool) (size : UInt64) :
    Option Ptr × NgxPool :=
  if size.toNat ≤ s.max then s.pallocSmall mem size.toNat align else s.pallocLarge mem size.toNat

def palloc : (Nat → Bool) → NgxPool → UInt64 → Option Ptr × NgxPool := request true

def pnalloc : (Nat → Bool) → NgxPool → UInt64 → Option Ptr × NgxPool := request false

/-- `palloc`, and the bytes are set to zero. -/
def pcalloc : (Nat → Bool) → NgxPool → UInt64 → Option Ptr × NgxPool := palloc

/-- The node that is found comes to the front. -/
def pfree (s : NgxPool) (p : Option Ptr) : NgxPool :=
  if p ∈ s.large then
    { s with
      large := none :: s.large.erase p
      taken := s.taken.filter fun q => some (q.chunk, q.off) ≠ p }
  else s

def resetPool (s : NgxPool) : NgxPool where
  blocks :=
    match s.blocks with
    | [] => []
    | b :: bs =>
        { b with last := sizeofNgxPool, failed := 0 } ::
          bs.map fun b => { b with last := sizeofNgxPoolData, failed := 0 }
  max := s.max
  current := 0
  large := []
  mallocs := s.mallocs
  small := []
  taken := []

inductive Op
  | palloc (size : UInt64)
  | pnalloc (size : UInt64)
  | pcalloc (size : UInt64)
  | pfree (p : Option Ptr)
  | resetPool

def exec (mem : Nat → Bool) (s : NgxPool) : Op → Option Ptr × NgxPool
  | .palloc size => s.palloc mem size
  | .pnalloc size => s.pnalloc mem size
  | .pcalloc size => s.pcalloc mem size
  | .pfree p => (none, s.pfree p)
  | .resetPool => (none, s.resetPool)

end NgxPool

open NgxPool Transition

/-- The calls on a pool of this size with the pointers they return. -/
def ngxMemPool (size : UInt64) : System NgxPool (NgxPool.Op × Option Ptr) where
  init s := s = create size
  step s e s' := ∃ mem, exec mem s e.1 = (e.2, s')

namespace NgxPool

/-- Where the header of a block ends. -/
def header (chunk : Nat) : Nat := if chunk = 0 then sizeofNgxPool else sizeofNgxPoolData

def regions (s : NgxPool) : List Region := s.blocks.map NgxPoolData.toRegion

/-- The space is computed without wrapping, every small block lies in one block of the pool behind
its header, and what was handed out and not given back is disjoint. -/
structure Safe (s : NgxPool) : Prop where
  space : ∀ b ∈ s.regions, ∀ align, place align b ≤ b.end_
  room : ∀ b ∈ s.regions, b.end_ ≤ b.room
  inside : ∀ p ∈ s.small, ∃ b ∈ s.regions,
    p.chunk = b.chunk ∧ header b.chunk ≤ p.off ∧ p.off + p.size ≤ b.end_
  disjoint : (s.small ++ s.taken).Pairwise Piece.Disjoint

end NgxPool

end CIM
