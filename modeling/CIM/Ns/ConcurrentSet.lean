import CIM.Ns.NameServerRuns

/-!
# Registrations in parallel

`NameServerModule::set` as the sections that run under one lock each. Between two of them the calls
of other sessions run. A domain or a node set is an object that outlives its place in the map while
a call still has a pointer to it; it is named by its place and the number of its creation.
-/
namespace CIM.ns

open Transition

structure Registry where
  m_domains : String → Option Nat
  cmds : String → Nat → UInt32 → Option Nat
  nodes : String → Nat → UInt32 → Nat → NSNodeSet
  made : Nat

namespace Registry

def empty : Registry := ⟨fun _ => none, fun _ _ _ => none, fun _ _ _ _ => ∅, 0⟩

/-- `m_domains->add` of a new domain. -/
def addDomain (r : Registry) (domain : String) : Registry where
  m_domains := Function.update r.m_domains domain (some r.made)
  cmds x e y := if x = domain ∧ e = r.made then none else r.cmds x e y
  nodes := r.nodes
  made := r.made + 1

def setCmd (r : Registry) (domain : String) (d : Nat) (cmd : UInt32) (ns : Option Nat) : Registry :=
  { r with cmds := fun x e y => if x = domain ∧ e = d ∧ y = cmd then ns else r.cmds x e y }

def setNodes (r : Registry) (domain : String) (d : Nat) (cmd : UInt32) (ns : Nat)
    (v : NSNodeSet) : Registry :=
  { r with nodes := fun x e y n =>
      if x = domain ∧ e = d ∧ y = cmd ∧ n = ns then v else r.nodes x e y n }

/-- `NSDomain::add` of a new node set. -/
def addSet (r : Registry) (domain : String) (d : Nat) (cmd : UInt32) : Registry :=
  { (r.setNodes domain d cmd r.made ∅).setCmd domain d cmd (some r.made) with made := r.made + 1 }

/-- A node with the id is in the registry under the domain and the command. -/
def Present (r : Registry) (domain : String) (cmd : UInt32) (id : UInt64) : Prop :=
  ∃ d ns, r.m_domains domain = some d ∧ r.cmds domain d cmd = some ns ∧
    id ∈ r.nodes domain d cmd ns

end Registry

/-- A domain that was looked up, and the commands of it that are still to be done. -/
structure At where
  d : Nat
  domain : String
  cmds : List UInt32

/-- Where a call of `set` is: the section it runs next, with the domains that are still to be
looked up. `adds` are the entries of `news` and, where the weight has changed, of `comms`. -/
inductive Pc
  /-- `m_domains->get` for the next domain, or the lock of `m_sessions` after the last one. -/
  | jobs (dels adds : DomainCmds)
  /-- `get` in `NSDomain::del`. -/
  | delCmds (a : At) (dels adds : DomainCmds)
  | delNode (a : At) (c : UInt32) (ns : Nat) (dels adds : DomainCmds)
  | size (a : At) (c : UInt32) (ns : Nat) (dels adds : DomainCmds)
  | delCmd (a : At) (c : UInt32) (dels adds : DomainCmds)
  | addDomain (domain : String) (cmds : List UInt32) (adds : DomainCmds)
  /-- `get` in `NSDomain::add`. -/
  | addCmds (a : At) (adds : DomainCmds)
  | addSet (a : At) (c : UInt32) (adds : DomainCmds)
  | addNode (a : At) (c : UInt32) (ns : Nat) (adds : DomainCmds)

structure Call where
  old_value : Option NSClientInfo
  new_value : Option NSClientInfo
  pc : Pc

/-- One section; none where it reads through a null pointer, and for the last one of the call. -/
def Call.turn (call : Call) (r : Registry) : Option (Registry × Pc) :=
  match call.pc with
  | .jobs [] [] => none
  | .jobs (i :: dels) adds =>
      match r.m_domains i.1 with
      | none => some (r, .jobs dels adds)
      | some d => some (r, .delCmds ⟨d, i.1, i.2⟩ dels adds)
  | .jobs [] (i :: adds) =>
      match r.m_domains i.1 with
      | none => some (r, .addDomain i.1 i.2 adds)
      | some d => some (r, .addCmds ⟨d, i.1, i.2⟩ adds)
  | .delCmds ⟨_, _, []⟩ dels adds => some (r, .jobs dels adds)
  | .delCmds ⟨d, domain, c :: cs⟩ dels adds =>
      match r.cmds domain d c with
      | none => some (r, .delCmds ⟨d, domain, cs⟩ dels adds)
      | some ns => some (r, .delNode ⟨d, domain, cs⟩ c ns dels adds)
  | .delNode a c ns dels adds =>
      call.old_value.map fun old =>
        (r.setNodes a.domain a.d c ns ((r.nodes a.domain a.d c ns).erase old.m_node.m_id),
          .size a c ns dels adds)
  | .size a c ns dels adds =>
      some (r, if (r.nodes a.domain a.d c ns).entries.isEmpty then .delCmd a c dels adds
        else .delCmds a dels adds)
  | .delCmd a c dels adds => some (r.setCmd a.domain a.d c none, .delCmds a dels adds)
  | .addDomain domain cs adds => some (r.addDomain domain, .addCmds ⟨r.made, domain, cs⟩ adds)
  | .addCmds ⟨_, _, []⟩ adds => some (r, .jobs [] adds)
  | .addCmds ⟨d, domain, c :: cs⟩ adds =>
      match r.cmds domain d c with
      | none => some (r, .addSet ⟨d, domain, cs⟩ c adds)
      | some ns => some (r, .addNode ⟨d, domain, cs⟩ c ns adds)
  | .addSet a c adds => some (r.addSet a.domain a.d c, .addNode a c r.made adds)
  | .addNode a c ns adds =>
      call.new_value.map fun new =>
        (r.setNodes a.domain a.d c ns (NSNodeSet.add (r.nodes a.domain a.d c ns) new.m_node),
          .addCmds a adds)

/-- The start of a call: `isConnected`, the old value and `diff`. -/
def Call.start (isConnected : Bool) (old_value new_value : Option NSClientInfo) : Call :=
  let new_value := if isConnected then new_value else none
  let old_v := NameServerModule.domain2cmds old_value
  let new_v := NameServerModule.domain2cmds new_value
  let comms :=
    match old_value, new_value with
    | some old, some new =>
        if old.m_node.m_weight != new.m_node.m_weight then common old_v new_v else []
    | _, _ => []
  ⟨old_value, new_value, .jobs (minus old_v new_v) (minus new_v old_v ++ comms)⟩

/-- The module and the calls that have not returned; `R` are the sessions. -/
structure Server (R : Type) where
  registry : Registry
  m_sessions : R → Option NSClientInfo
  calls : R → Option Call

inductive SetEvent (R : Type)
  | call (rs : R) (isConnected : Bool) (new_value : Option NSClientInfo)
  | turn (rs : R)

variable {R : Type} [DecidableEq R]

namespace Server

def exec (s : Server R) : SetEvent R → Option (Server R)
  | .call rs isConnected new_value =>
      match s.calls rs with
      | some _ => none
      | none => some { s with
          calls := Function.update s.calls rs
            (some (Call.start isConnected (s.m_sessions rs) new_value)) }
  | .turn rs => do
      let call ← s.calls rs
      match call.pc with
      | .jobs [] [] => return { s with
          m_sessions := Function.update s.m_sessions rs call.new_value
          calls := Function.update s.calls rs none }
      | _ =>
          let t ← call.turn s.registry
          return { s with
            registry := t.1
            calls := Function.update s.calls rs (some { call with pc := t.2 }) }

end Server

/-- A session registers the node with its own id. -/
def OwnNode (nodeId : R → UInt64) (rs : R) (value : Option NSClientInfo) : Prop :=
  ∀ info, value = some info → info.m_node.m_id = nodeId rs

/-- Any interleaving of the calls, each session with its own node. -/
def concurrentSet (nodeId : R → UInt64) : System (Server R) (SetEvent R) where
  init s := s = ⟨.empty, fun _ => none, fun _ => none⟩
  step s e s' :=
    (∀ rs isConnected new_value, e = .call rs isConnected new_value →
      OwnNode nodeId rs new_value) ∧ s.exec e = some s'

/-! ## What a call still has to do -/

namespace Pc

/-- The registrations the call is still to delete. -/
def dels : Pc → DomainCmds
  | jobs dels _ => dels
  | delCmds a dels _ => ⟨a.domain, a.cmds⟩ :: dels
  | delNode a c _ dels _ => ⟨a.domain, c :: a.cmds⟩ :: dels
  | size a _ _ dels _ => ⟨a.domain, a.cmds⟩ :: dels
  | delCmd a _ dels _ => ⟨a.domain, a.cmds⟩ :: dels
  | _ => []

/-- The registrations it is still to add. -/
def adds : Pc → DomainCmds
  | jobs _ adds => adds
  | delCmds _ _ adds => adds
  | delNode _ _ _ _ adds => adds
  | size _ _ _ _ adds => adds
  | delCmd _ _ _ adds => adds
  | addDomain domain cs adds => ⟨domain, cs⟩ :: adds
  | addCmds a adds => ⟨a.domain, a.cmds⟩ :: adds
  | addSet a c adds => ⟨a.domain, c :: a.cmds⟩ :: adds
  | addNode a c _ adds => ⟨a.domain, c :: a.cmds⟩ :: adds

/-- The call has looked the domain up to add to it. -/
def AddsIn (pc : Pc) (domain : String) : Prop :=
  match pc with
  | addCmds a _ => a.domain = domain
  | addSet a _ _ => a.domain = domain
  | addNode a _ _ _ => a.domain = domain
  | _ => False

/-- The call has looked the node set up to add to it. -/
def AddsTo (pc : Pc) (domain : String) (cmd : UInt32) : Prop :=
  match pc with
  | addNode a c _ _ => a.domain = domain ∧ c = cmd
  | _ => False

/-- The section the call runs next drops no node of a session that is needed: the session's
call, at `other`, is still to delete or to add it, and is not about to add to what is
dropped. -/
def Spares (pc : Pc) (r : Registry) (id : UInt64) (other : Pc) : Prop :=
  let unneeded := fun domain c => r.Present domain c id →
    Lists other.dels domain c ∨ Lists other.adds domain c
  match pc with
  | addDomain domain _ _ => (∀ c, unneeded domain c) ∧ ¬other.AddsIn domain
  | addSet a c _ => unneeded a.domain c ∧ ¬other.AddsTo a.domain c
  | delCmd a c _ _ => r.m_domains a.domain = some a.d →
      unneeded a.domain c ∧ ¬other.AddsTo a.domain c
  | _ => True

end Pc

/-- Where the session's call is; a session without a call has nothing to do. -/
def Call.pcOf : Option Call → Pc
  | none => .jobs [] []
  | some call => call.pc

/-- What the session will be registered for once its call has returned. -/
def Call.target (session : Option NSClientInfo) : Option Call → Option NSClientInfo
  | none => session
  | some call => call.new_value

namespace Server

def pc (s : Server R) (rs : R) : Pc := Call.pcOf (s.calls rs)

/-- A section that replaces or drops a domain or a node set spares every session. -/
def Guard (nodeId : R → UInt64) (s : Server R) : SetEvent R → Prop
  | .call _ _ _ => True
  | .turn rs => ∀ rs', (s.pc rs).Spares s.registry (nodeId rs') (s.pc rs')

/-- All calls have returned. -/
def Returned (s : Server R) : Prop := ∀ rs, s.calls rs = none

end Server

end CIM.ns
