import CIM.Ds.DictRuns
import CIM.Ds.MultimapValues
import CIM.Ds.Persistence
import CIM.Lib.Traversal

/-!
# Traversals of the hash containers

The callbacks that `rforeach`, `wforeach` and `foreach` take, with a state of their own. The loops
iterate over copies of the entries: the copy of a `HashMap` entry has its own value, the copy of a
`HashMultimap` or `Dict` entry points to the values that are stored.
-/
namespace CIM.ds

open Transition Traversal

namespace HashMap

variable {K V X σ : Type}

/-- The buckets in order. -/
def buckets (m : HashMap K X) : List (List (Node K X)) := (List.range m.m_size).map m.m_datas

abbrev RCallback (K V σ : Type) : Type := σ → K → V → Bool × σ

/-- With the value that the callback leaves in its reference. -/
abbrev WCallback (K V σ : Type) : Type := σ → K → V → Bool × V × σ

def reading (cb : RCallback K V σ) : Visitor (Node K V) σ := fun s n =>
  ((cb s n.key n.val).1, n, (cb s n.key n.val).2)

def writing (cb : WCallback K V σ) : Visitor (Node K V) σ := fun s n =>
  ((cb s n.key n.val).1, { n with val := (cb s n.key n.val).2.1 }, (cb s n.key n.val).2.2)

def rforeach (m : HashMap K V) (cb : RCallback K V σ) (s : σ) : List (Visit (Node K V)) × σ :=
  ((eachReturn (reading cb) s m.buckets).calls, (eachReturn (reading cb) s m.buckets).state)

/-- What the callback writes to the copies is dropped. -/
def wforeach (m : HashMap K V) (cb : WCallback K V σ) (s : σ) :
    HashMap K V × List (Visit (Node K V)) × σ :=
  (m, (eachReturn (writing cb) s m.buckets).calls, (eachReturn (writing cb) s m.buckets).state)

end HashMap

namespace HashMultimap

open HashMap

variable {K V σ : Type}

abbrev RCallback (K V σ : Type) : Type := σ → K → List V → Bool × σ

/-- With the values that the callback leaves in the array, which keeps its length. -/
abbrev WCallback (K V σ : Type) : Type :=
  σ → K → (l : List V) → Bool × { l' : List V // l'.length = l.length } × σ

def writing (cb : WCallback K V σ) : Visitor (Node K (List V)) σ := fun s n =>
  ((cb s n.key n.val).1, { n with val := (cb s n.key n.val).2.1 }, (cb s n.key n.val).2.2)

def rforeach (m : HashMultimap K V) (cb : RCallback K V σ) (s : σ) :
    List (Visit (Node K (List V))) × σ :=
  m.map.rforeach cb s

/-- What the callback writes is written to the arrays of the entries. -/
def wforeach (m : HashMultimap K V) (cb : WCallback K V σ) (s : σ) :
    HashMultimap K V × List (Visit (Node K (List V))) × σ :=
  let r := eachReturn (writing cb) s m.map.buckets
  ({ m with map := { m.map with m_datas := fun i => (r.left[i]?).getD (m.map.m_datas i) } },
    r.calls, r.state)

/-- What calls and traversals make of a multimap of any size argument. -/
inductive Reached [LinearOrder K] [LinearOrder V] [Inhabited V] (hash : K → UInt32) :
    HashMultimap K V → Prop
  | create {size m} : create size = some m → Reached hash m
  | exec {m op b m'} : Reached hash m → exec hash m op = some (b, m') → Reached hash m'
  | wforeach {m} {τ : Type} (cb : WCallback K V τ) (s : τ) :
      Reached hash m → Reached hash (m.wforeach cb s).1

end HashMultimap

namespace Dict

open HashMap

variable {K V σ : Type}

/-- The array with its size as a `size_t`. -/
abbrev Callback (K V σ : Type) : Type := σ → K → List V → Nat → Bool × σ

def reading (cb : Callback K V σ) : RCallback K (Values V) σ := fun s k a =>
  cb s k a.val (a.size % 18446744073709551616).toNat

/-- `break` leaves a bucket only. -/
def foreach (d : Dict K V) (cb : Callback K V σ) (s : σ) : List (Visit (Node K (Values V))) × σ :=
  let r := eachBreak (HashMap.reading (reading cb)) s d.buckets
  (r.calls, r.state)

end Dict

/-! ## The contract -/

/-- The calls are for different keys with their values, for all of them if each returns true, and
none follows one that returns false; what is written is read afterwards. -/
structure Contract {K X : Type} (get get' : K → Option X)
    (calls : List (Visit (HashMap.Node K X))) : Prop where
  different : (calls.map fun c => c.entry.key).Nodup
  current : ∀ c ∈ calls, get c.entry.key = some c.entry.val
  every : (∀ c ∈ calls, c.more = true) → ∀ k, get k ≠ none → ∃ c ∈ calls, c.entry.key = k
  stops : ∀ c ∈ calls.dropLast, c.more = true
  visible : ∀ c ∈ calls, get' c.entry.key = some c.written.val

/-- A traversal with its container and its callback. -/
inductive Walk (K V σ : Type)
  | rforeach (m : HashMap K V) (cb : HashMap.RCallback K V σ)
  | wforeach (m : HashMap K V) (cb : HashMap.WCallback K V σ)
  | multimapRforeach (m : HashMultimap K V) (cb : HashMultimap.RCallback K V σ)
  | multimapWforeach (m : HashMultimap K V) (cb : HashMultimap.WCallback K V σ)
  | foreach (d : Dict K V) (cb : Dict.Callback K V σ)

namespace Walk

variable {K V σ : Type} [LinearOrder K] [LinearOrder V] [Inhabited V] (hash : K → UInt32)

def Reachable : Walk K V σ → Prop
  | .rforeach m _ | .wforeach m _ => ∃ es s i, (HashMap.system hash).Run es s ∧ s i = some m
  | .multimapRforeach m _ | .multimapWforeach m _ => HashMultimap.Reached hash m
  | .foreach d _ => ∃ es, (Dict.system hash).Run es (some d)

def Meets (s : σ) : Walk K V σ → Prop
  | .rforeach m cb => Contract (m.get hash) (m.get hash) (m.rforeach cb s).1
  | .wforeach m cb =>
      Contract (m.get hash) ((m.wforeach cb s).1.get hash) (m.wforeach cb s).2.1
  | .multimapRforeach m cb => Contract (m.map.get hash) (m.map.get hash) (m.rforeach cb s).1
  | .multimapWforeach m cb =>
      Contract (m.map.get hash) ((m.wforeach cb s).1.map.get hash) (m.wforeach cb s).2.1
  | .foreach d cb => Contract (HashMap.get hash d) (HashMap.get hash d) (Dict.foreach d cb s).1

/-- A `HashMap` is not written to, and the callback of a `Dict` returns false in its last bucket
that is not empty, if at all. -/
def Safe (s : σ) : Walk K V σ → Prop
  | .wforeach m cb => Unchanging (HashMap.writing cb) s m.nodes
  | .foreach d cb => StopsLate (HashMap.reading (Dict.reading cb)) s (HashMap.buckets d)
  | _ => True

end Walk

/-! ## Reachable containers -/

namespace HashMap

variable {K V X : Type} [LinearOrder K] {hash : K → UInt32} {m : HashMap K X} {f : K → Option X}

end HashMap

namespace HashMultimap

variable {K V : Type} [LinearOrder K] [LinearOrder V] [Inhabited V] {hash : K → UInt32}
  {m m' : HashMultimap K V} {f : K → Option (List V)}

end HashMultimap

namespace Dict

variable {K V : Type} [LinearOrder K] {hash : K → UInt32}

end Dict

/-! ## The five traversals -/

section Contracts

variable {K X σ : Type} [LinearOrder K] {hash : K → UInt32} {m : HashMap K X} {f : K → Option X}
  {get' : K → Option X}

end Contracts

namespace Walk

variable {K V σ : Type} [LinearOrder K] [LinearOrder V] [Inhabited V] {hash : K → UInt32}

/-- One entry in two buckets. -/
def oneEntry : HashMap Nat Nat := ⟨2, 1, Function.update (fun _ => []) 1 [⟨3, 30⟩]⟩

end Walk

end CIM.ds
