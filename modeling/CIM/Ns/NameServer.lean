import Mathlib.Logic.Function.Basic
import CIM.Lib.System
import CIM.Ns.NsProtocol

/-!
# Name server

Each session registers one node, under commands of several domains. What a registration changes
against the one before it is taken over into the registry.
-/
namespace CIM.ns

open Transition

/-! ## Messages -/

/-- An absent field of a message has no value. -/
structure Node where
  ip : Option String
  port : Option UInt32
  weight : Option UInt32

structure RegisterInfo where
  domain : Option String
  cmds : List UInt32
  node : Option Node

/-- `std::map<std::string, std::set<uint32_t>>`; the order of its entries is not observed. -/
abbrev DomainSets := AList fun _ : String => List UInt32

structure NSClientInfo where
  m_node : NSNode
  m_domain2cmds : DomainSets

/-- `m_domain2cmds[domain].insert(cmd)`. -/
def insertCmd (domain : String) (m : DomainSets) (cmd : UInt32) : DomainSets :=
  m.insert domain (((m.lookup domain).getD []).insert cmd)

/-- One turn of the loop of `handleRegister`; a request it does not accept has no value. -/
def registerInfo (inet_addr : String → UInt32) (old_value new_value : Option NSClientInfo)
    (info : RegisterInfo) : Option NSClientInfo := do
  let node ← info.node
  let domain ← info.domain
  if info.cmds.isEmpty then none
  else
    let ip ← node.ip
    let port ← node.port
    let weight ← node.weight
    let ns_node := NSNode.create inet_addr ip port.toUInt16 weight
    if ns_node.m_id >>> 32 == 0 then none
    else if old_value.any fun old => old.m_node.m_id != ns_node.m_id then none
    else if new_value.any fun new => new.m_node.m_id != ns_node.m_id then none
    else
      let new := new_value.getD ⟨ns_node, ∅⟩
      some { new with m_domain2cmds := info.cmds.foldl (insertCmd domain) new.m_domain2cmds }

def registerInfos (inet_addr : String → UInt32) (old_value : Option NSClientInfo)
    (infos : List RegisterInfo) : Option (Option NSClientInfo) :=
  infos.foldlM (fun new_value info => (registerInfo inet_addr old_value new_value info).map some)
    none

/-! ## Differences -/

/-- What `diff` collects in `dels`, and with the maps exchanged in `news`. -/
def minus (old_value new_value : DomainSets) : DomainCmds :=
  old_value.entries.filterMap fun i =>
    match new_value.lookup i.1 with
    | none => some i
    | some cs =>
        let ns := i.2.filter fun n => !cs.contains n
        if ns.isEmpty then none else some ⟨i.1, ns⟩

/-- What `diff` collects in `comms`. -/
def common (old_value new_value : DomainSets) : DomainCmds :=
  old_value.entries.filterMap fun i =>
    match new_value.lookup i.1 with
    | none => none
    | some cs =>
        let ns := i.2.filter fun n => cs.contains n
        if ns.isEmpty then none else some ⟨i.1, ns⟩

/-! ## The module -/

/-- A session, as a `RockStream::ptr`. -/
abbrev RockStream := Nat

structure NameServerModule where
  m_domains : NSDomainSet
  m_sessions : RockStream → Option NSClientInfo

namespace NameServerModule

def domain2cmds (value : Option NSClientInfo) : DomainSets :=
  match value with
  | some info => info.m_domain2cmds
  | none => ∅

/-- `set` once a session that is not connected has lost its new value. -/
def store (m : NameServerModule) (rs : RockStream) (new_value : Option NSClientInfo) :
    NameServerModule :=
  let old_value := m.m_sessions rs
  let old_v := domain2cmds old_value
  let new_v := domain2cmds new_value
  let deleted :=
    match old_value with
    | some old => m.m_domains.delAll old.m_node.m_id (minus old_v new_v)
    | none => m.m_domains
  let added :=
    match new_value with
    | some new => deleted.addAll new.m_node (minus new_v old_v)
    | none => deleted
  let updated :=
    match old_value, new_value with
    | some old, some new =>
        if old.m_node.m_weight != new.m_node.m_weight then
          added.addAll new.m_node (common old_v new_v)
        else added
    | _, _ => added
  ⟨updated, Function.update m.m_sessions rs new_value⟩

def set (m : NameServerModule) (rs : RockStream) (isConnected : Bool)
    (new_value : Option NSClientInfo) : NameServerModule :=
  m.store rs (if isConnected then new_value else none)

/-- With the result and its text in the response; none where the request is not accepted. -/
def handleRegister (inet_addr : String → UInt32) (m : NameServerModule) (rs : RockStream)
    (isConnected : Bool) (request : Option (List RegisterInfo)) :
    Option (UInt32 × String) × NameServerModule :=
  match request.bind (registerInfos inet_addr (m.m_sessions rs)) with
  | some new_value => (some (0, "ok"), m.set rs isConnected new_value)
  | none => (none, m)

/-- `handleTick` answers and does nothing else. -/
def handleTick (m : NameServerModule) : Bool × NameServerModule := (true, m)

def onConnect (m : NameServerModule) : Bool × NameServerModule := (true, m)

def onDisconnect (m : NameServerModule) (rs : RockStream) (isConnected : Bool) :
    Bool × NameServerModule :=
  (true, m.set rs isConnected none)

end NameServerModule

/-- The events, with what `isConnected` returns while they are handled. A request that is no
`RegisterRequest` has no infos. -/
inductive Event
  | connect (rs : RockStream)
  | register (rs : RockStream) (isConnected : Bool) (request : Option (List RegisterInfo))
  | tick (rs : RockStream)
  | disconnect (rs : RockStream) (isConnected : Bool)

namespace NameServerModule

def handle (inet_addr : String → UInt32) (m : NameServerModule) : Event → NameServerModule
  | .connect _ => m.onConnect.2
  | .register rs isConnected request => (m.handleRegister inet_addr rs isConnected request).2
  | .tick _ => m.handleTick.2
  | .disconnect rs isConnected => (m.onDisconnect rs isConnected).2

end NameServerModule

/-- Each event is handled to its end before the next one. -/
def nameServer (inet_addr : String → UInt32) : System NameServerModule Event where
  init m := m = ⟨∅, fun _ => none⟩
  step m e m' := m' = m.handle inet_addr e

end CIM.ns
