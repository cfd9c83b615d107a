import CIM.Ns.RegistrationDiff
import Mathlib.Data.List.Dedup

/-!
# The client of the name server

A client asks for the nodes of some domains and takes the answer over as a whole. Queries are on
their way while the registry and the domains of the client change.
-/
namespace CIM.ns

open Transition

structure NodeInfo where
  domain : Option String
  cmd : Option UInt32
  nodes : List Node

def NSNode.message (x : NSNode) : Node := ⟨some x.m_ip, some x.m_port.toUInt32, some x.m_weight⟩

/-- The infos of one domain, one for each command. -/
def NSDomain.infos (domain : String) (d : NSDomain) : List NodeInfo :=
  d.entries.map fun n => ⟨some domain, some n.1, n.2.entries.map fun x => x.2.message⟩

/-- The infos of the domains that are there. -/
def NameServerModule.handleQuery (m : NameServerModule) (domains : List String) : List NodeInfo :=
  domains.dedup.flatMap fun i => ((m.m_domains.lookup i).map (NSDomain.infos i)).getD []

structure NSClient where
  m_queryDomains : List String
  m_domains : NSDomainSet

section Receive

variable (inet_addr : String → UInt32)

/-- A node without an address is left out. -/
def receiveNode (cmd : UInt32) (domain : NSDomain) (n : Node) : NSDomain :=
  let node := NSNode.create inet_addr (n.ip.getD "") (n.port.getD 0).toUInt16 (n.weight.getD 0)
  if node.m_id >>> 32 == 0 then domain else domain.add cmd node

def receiveInfo (m_queryDomains : List String) (domains : NSDomainSet) (i : NodeInfo) :
    NSDomainSet :=
  let domain := i.domain.getD ""
  if domain ∈ m_queryDomains then
    domains.insert domain
      (i.nodes.foldl (receiveNode inet_addr (i.cmd.getD 0)) ((domains.lookup domain).getD ∅))
  else domains

/-- `query` from the response on. -/
def NSClient.receive (c : NSClient) (infos : List NodeInfo) : NSClient :=
  { c with m_domains := infos.foldl (receiveInfo inet_addr c.m_queryDomains) ∅ }

end Receive

/-! ## The parties -/

/-- A query on its way, with its answer once the server has given one. -/
structure Query where
  asked : List String
  answer : Option (List NodeInfo)

structure Discovery where
  server : NameServerModule
  client : NSClient
  queries : Nat → Option Query

inductive DiscoveryEvent
  | server (e : Event)
  | setQueryDomains (v : List String)
  | addQueryDomain (domain : String)
  | delQueryDomain (domain : String)
  | query (k : Nat)
  | answer (k : Nat) (infos : List NodeInfo)
  | receive (k : Nat)
  | lost (k : Nat)

namespace Discovery

def setQueryDomains (s : Discovery) (v : List String) : Discovery :=
  { s with client := { s.client with m_queryDomains := v } }

def setQuery (s : Discovery) (k : Nat) (q : Option Query) : Discovery :=
  { s with queries := Function.update s.queries k q }

/-- Without domains to ask for nothing is sent. The server lists the domains by their addresses,
that is, in any order. -/
inductive Step (inet_addr : String → UInt32) : Discovery → DiscoveryEvent → Discovery → Prop
  | server {s e} : Step inet_addr s (.server e) { s with server := s.server.handle inet_addr e }
  | setQueryDomains {s v} : Step inet_addr s (.setQueryDomains v) (s.setQueryDomains v)
  | addQueryDomain {s domain} :
      Step inet_addr s (.addQueryDomain domain)
        (s.setQueryDomains (s.client.m_queryDomains.insert domain))
  | delQueryDomain {s domain} :
      Step inet_addr s (.delQueryDomain domain)
        (s.setQueryDomains (s.client.m_queryDomains.filter (· ≠ domain)))
  | query {s k} (hk : s.queries k = none) (hq : s.client.m_queryDomains ≠ []) :
      Step inet_addr s (.query k) (s.setQuery k (some ⟨s.client.m_queryDomains, none⟩))
  | answer {s k asked infos} (hk : s.queries k = some ⟨asked, none⟩)
      (hinfos : infos.Perm (s.server.handleQuery asked)) :
      Step inet_addr s (.answer k infos) (s.setQuery k (some ⟨asked, some infos⟩))
  | receive {s k asked infos} (hk : s.queries k = some ⟨asked, some infos⟩) :
      Step inet_addr s (.receive k)
        { s.setQuery k none with client := s.client.receive inet_addr infos }
  | lost {s k} : Step inet_addr s (.lost k) (s.setQuery k none)

end Discovery

/-- The server does not send a notification, see `set`. -/
def discovery (inet_addr : String → UInt32) : System Discovery DiscoveryEvent where
  init s := s = ⟨⟨∅, fun _ => none⟩, ⟨[], ∅⟩, fun _ => none⟩
  step := Discovery.Step inet_addr

variable {inet_addr : String → UInt32} {d : String} {c cmd : UInt32} {id : UInt64}

/-! ## The nodes of the registry -/

/-- The client makes the same node out of its message, and does not leave it out. -/
structure Stands (inet_addr : String → UInt32) (x : NSNode) : Prop where
  create : x = NSNode.create inet_addr x.m_ip x.m_port x.m_weight
  address : (x.m_id >>> 32 == 0) = false

def Standing (inet_addr : String → UInt32) (ds : NSDomainSet) : Prop :=
  ∀ d c id x, ds.findNode d c id = some x → x.m_id = id ∧ Stands inet_addr x

structure NodesKept (inet_addr : String → UInt32) (m : NameServerModule) : Prop where
  domains : Standing inet_addr m.m_domains
  sessions : ∀ rs info, m.m_sessions rs = some info → Stands inet_addr info.m_node

theorem Standing.delAll {ds : NSDomainSet} (h : Standing inet_addr ds) (id : UInt64)
    (cs : DomainCmds) :
    Standing inet_addr (ds.delAll id cs) := by
  intro d c k x hx
  rw [NSDomainSet.findNode_delAll] at hx
  split at hx
  · cases hx
  · exact h d c k x hx

theorem Standing.addAll {ds : NSDomainSet} (h : Standing inet_addr ds) {info : NSNode}
    (hinfo : Stands inet_addr info) (cs : DomainCmds) : Standing inet_addr (ds.addAll info cs) := by
  intro d c k x hx
  rw [NSDomainSet.findNode_addAll] at hx
  split at hx
  · rename_i hk
    cases hx
    exact ⟨hk.2.symm, hinfo⟩
  · exact h d c k x hx

theorem NodesKept.store {m : NameServerModule} (h : NodesKept inet_addr m) (rs : RockStream)
    {new_value : Option NSClientInfo}
    (hnew : ∀ new, new_value = some new → Stands inet_addr new.m_node) :
    NodesKept inet_addr (m.store rs new_value) where
  domains := by
    unfold NameServerModule.store
    cases m.m_sessions rs with
    | none =>
        cases new_value with
        | none => exact h.domains
        | some new => exact h.domains.addAll (hnew new rfl) _
    | some old =>
        cases new_value with
        | none => exact h.domains.delAll _ _
        | some new =>
            have hadded := (h.domains.delAll old.m_node.m_id
              (minus old.m_domain2cmds new.m_domain2cmds)).addAll (hnew new rfl)
              (minus new.m_domain2cmds old.m_domain2cmds)
            dsimp only
            split
            · exact hadded.addAll (hnew new rfl) _
            · exact hadded
  sessions rs' info hinfo := by
    change Function.update m.m_sessions rs new_value rs' = some info at hinfo
    by_cases hrs : rs' = rs
    · rw [hrs, Function.update_self] at hinfo
      exact hnew info hinfo
    · rw [Function.update_of_ne hrs] at hinfo
      exact h.sessions rs' info hinfo

theorem registerInfo_stands {old_value new_value : Option NSClientInfo} {info : RegisterInfo}
    {r : NSClientInfo} (hn : ∀ new, new_value = some new → Stands inet_addr new.m_node)
    (h : registerInfo inet_addr old_value new_value info = some r) :
    Stands inet_addr r.m_node := by
  unfold registerInfo at h
  obtain ⟨node, -, h⟩ := Option.bind_eq_some_iff.mp h
  obtain ⟨domain, -, h⟩ := Option.bind_eq_some_iff.mp h
  split at h
  · cases h
  · obtain ⟨ip, -, h⟩ := Option.bind_eq_some_iff.mp h
    obtain ⟨port, -, h⟩ := Option.bind_eq_some_iff.mp h
    obtain ⟨weight, -, h⟩ := Option.bind_eq_some_iff.mp h
    dsimp only at h
    split at h
    · cases h
    · rename_i haddress
      split at h
      · cases h
      · split at h
        · cases h
        · cases h
          cases new_value with
          | some new => exact hn new rfl
          | none => exact ⟨rfl, Bool.eq_false_iff.mpr haddress⟩

theorem registerInfos_stands {old_value new_value : Option NSClientInfo}
    {infos : List RegisterInfo} (h : registerInfos inet_addr old_value infos = some new_value) :
    ∀ new, new_value = some new → Stands inet_addr new.m_node := by
  have hfold : ∀ (infos : List RegisterInfo) (start : Option NSClientInfo),
      (∀ new, start = some new → Stands inet_addr new.m_node) →
      infos.foldlM (fun new_value info =>
        (registerInfo inet_addr old_value new_value info).map some) start = some new_value →
      ∀ new, new_value = some new → Stands inet_addr new.m_node := by
    intro infos
    induction infos with
    | nil =>
        intro start hstart hf
        cases hf
        exact hstart
    | cons info infos ih =>
        intro start hstart hf
        rw [List.foldlM_cons] at hf
        obtain ⟨next, hone, hf⟩ := Option.bind_eq_some_iff.mp hf
        obtain ⟨r, hr, rfl⟩ := Option.map_eq_some_iff.mp hone
        refine ih (some r) ?_ hf
        rintro new ⟨⟩
        exact registerInfo_stands hstart hr
  exact hfold infos none (by rintro _ ⟨⟩) h

theorem newValue_stands {m : NameServerModule} {e : Event} {rs : RockStream}
    {new_value : Option NSClientInfo}
    (h : NameServerModule.newValue inet_addr m e = some (rs, new_value)) :
    ∀ new, new_value = some new → Stands inet_addr new.m_node := by
  cases e with
  | connect rs => cases h
  | tick rs => cases h
  | disconnect rs isConnected =>
      cases h
      rintro _ ⟨⟩
  | register rs isConnected request =>
      obtain ⟨accepted, hr, heq⟩ := Option.map_eq_some_iff.mp h
      obtain ⟨infos, -, hinfos⟩ := Option.bind_eq_some_iff.mp hr
      cases isConnected with
      | false =>
          cases heq
          rintro _ ⟨⟩
      | true =>
          cases heq
          exact registerInfos_stands hinfos

theorem NodesKept.handle {m : NameServerModule} (h : NodesKept inet_addr m) (e : Event) :
    NodesKept inet_addr (m.handle inet_addr e) := by
  rw [NameServerModule.handle_eq]
  cases hv : NameServerModule.newValue inet_addr m e with
  | none => exact h
  | some r => exact h.store r.1 (newValue_stands hv)

theorem nodesKept_empty : NodesKept inet_addr ⟨∅, fun _ => none⟩ where
  domains := by rintro d c id x ⟨⟩
  sessions := by rintro rs info ⟨⟩

/-! ## What the client makes of an answer -/

variable {ds m : NSDomainSet} {k : UInt64} {i : NodeInfo} {infos : List NodeInfo}
  {qs asked : List String}

/-- The info of a command of a domain of the registry. -/
def Describes (m : NSDomainSet) (domain : String) (cmd : UInt32) (i : NodeInfo) : Prop :=
  ∃ dom ns, m.lookup domain = some dom ∧ dom.lookup cmd = some ns ∧
    i = ⟨some domain, some cmd, ns.entries.map fun x => x.2.message⟩

theorem Describes.key {a : String} (h : Describes m d c i) (h' : Describes m a cmd i) :
    d = a ∧ c = cmd := by
  obtain ⟨dom, ns, -, -, rfl⟩ := h
  obtain ⟨dom', ns', -, -, heq⟩ := h'
  simp only [NodeInfo.mk.injEq, Option.some.injEq] at heq
  exact ⟨heq.1, heq.2.1⟩

variable {es : List DiscoveryEvent} {e : DiscoveryEvent} {s : Discovery} {n : Nat}
  {server : NameServerModule}

/-- The last query `n` was sent when the client wanted these domains. -/
def AskedIn (inet_addr : String → UInt32) (es : List DiscoveryEvent) (n : Nat)
    (asked : List String) : Prop :=
  ∃ es₁ es₂ s, es = es₁ ++ .query n :: es₂ ∧ (discovery inet_addr).Run es₁ s ∧
    asked = s.client.m_queryDomains ∧ .query n ∉ es₂

/-- It was then answered by the server as it was at that moment. -/
def AnsweredIn (inet_addr : String → UInt32) (es : List DiscoveryEvent) (n : Nat)
    (asked : List String) (server : NameServerModule) (infos : List NodeInfo) : Prop :=
  ∃ es₁ es₂ s, es = es₁ ++ .answer n infos :: es₂ ∧ (discovery inet_addr).Run es₁ s ∧
    server = s.server ∧ infos.Perm (server.handleQuery asked) ∧ AskedIn inet_addr es₁ n asked ∧
    .query n ∉ es₂

theorem AskedIn.snoc (h : AskedIn inet_addr es n asked) (he : e ≠ .query n) :
    AskedIn inet_addr (es ++ [e]) n asked := by
  obtain ⟨es₁, es₂, s, rfl, hrun, hasked, hlast⟩ := h
  refine ⟨es₁, es₂ ++ [e], s, by simp, hrun, hasked, ?_⟩
  simp [hlast, he.symm]

theorem AnsweredIn.snoc (h : AnsweredIn inet_addr es n asked server infos) (he : e ≠ .query n) :
    AnsweredIn inet_addr (es ++ [e]) n asked server infos := by
  obtain ⟨es₁, es₂, s, rfl, hrun, hserver, hinfos, hasked, hlast⟩ := h
  refine ⟨es₁, es₂ ++ [e], s, by simp, hrun, hserver, hinfos, hasked, ?_⟩
  simp [hlast, he.symm]

/-- What the client has is from the answer received last. -/
def Viewed (inet_addr : String → UInt32) (es : List DiscoveryEvent) (view : NSDomainSet) : Prop :=
  (view = ∅ ∧ ∀ n, .receive n ∉ es) ∨
    ∃ es₁ es₂ n s asked server infos, es = es₁ ++ .receive n :: es₂ ∧
      (discovery inet_addr).Run es₁ s ∧ AnsweredIn inet_addr es₁ n asked server infos ∧
      view = (s.client.receive inet_addr infos).m_domains ∧ ∀ n', .receive n' ∉ es₂

theorem Viewed.snoc {view : NSDomainSet} (h : Viewed inet_addr es view)
    (he : ∀ n, e ≠ .receive n) : Viewed inet_addr (es ++ [e]) view := by
  rcases h with ⟨rfl, hno⟩ | ⟨es₁, es₂, n, s, asked, server, infos, rfl, hrun, hans, hview, hlast⟩
  · refine .inl ⟨rfl, fun n => ?_⟩
    simp [hno n, (he n).symm]
  · refine .inr ⟨es₁, es₂ ++ [e], n, s, asked, server, infos, by simp, hrun, hans, hview,
      fun n' => ?_⟩
    simp [hlast n', (he n').symm]

/-- What is known of a state from the run to it. -/
structure Known (inet_addr : String → UInt32) (es : List DiscoveryEvent) (s : Discovery) :
    Prop where
  run : (discovery inet_addr).Run es s
  registry : NodesKept inet_addr s.server
  asked : ∀ n asked, s.queries n = some ⟨asked, none⟩ → AskedIn inet_addr es n asked
  answered : ∀ n asked infos, s.queries n = some ⟨asked, some infos⟩ →
    ∃ server, AnsweredIn inet_addr es n asked server infos
  viewed : Viewed inet_addr es s.client.m_domains

/-- A step that leaves the queries and the view alone. -/
theorem Known.other {s' : Discovery} (h : Known inet_addr es s)
    (hstep : Discovery.Step inet_addr s e s') (hserver : NodesKept inet_addr s'.server)
    (hqueries : s'.queries = s.queries) (hview : s'.client.m_domains = s.client.m_domains)
    (hq : ∀ n, e ≠ .query n) (hr : ∀ n, e ≠ .receive n) : Known inet_addr (es ++ [e]) s' where
  run := h.run.snoc hstep
  registry := hserver
  asked n asked hn := by
    rw [hqueries] at hn
    exact (h.asked n asked hn).snoc (hq n)
  answered n asked infos hn := by
    rw [hqueries] at hn
    obtain ⟨server, hans⟩ := h.answered n asked infos hn
    exact ⟨server, hans.snoc (hq n)⟩
  viewed := by
    rw [hview]
    exact h.viewed.snoc hr

/-- A step of one query. -/
theorem Known.setQuery {s' : Discovery} {q : Option Query} (h : Known inet_addr es s)
    (hstep : Discovery.Step inet_addr s e s') (hserver : s'.server = s.server)
    (hqueries : s'.queries = Function.update s.queries n q) (hq : ∀ n', n' ≠ n → e ≠ .query n')
    (hasked : ∀ asked, q = some ⟨asked, none⟩ → AskedIn inet_addr (es ++ [e]) n asked)
    (hanswered : ∀ asked infos, q = some ⟨asked, some infos⟩ →
      ∃ server, AnsweredIn inet_addr (es ++ [e]) n asked server infos)
    (hview : Viewed inet_addr (es ++ [e]) s'.client.m_domains) :
    Known inet_addr (es ++ [e]) s' where
  run := h.run.snoc hstep
  registry := hserver ▸ h.registry
  asked n' asked hn := by
    rw [hqueries] at hn
    by_cases hne : n' = n
    · subst hne
      rw [Function.update_self] at hn
      exact hasked asked hn
    · rw [Function.update_of_ne hne] at hn
      exact (h.asked n' asked hn).snoc (hq n' hne)
  answered n' asked infos hn := by
    rw [hqueries] at hn
    by_cases hne : n' = n
    · subst hne
      rw [Function.update_self] at hn
      exact hanswered asked infos hn
    · rw [Function.update_of_ne hne] at hn
      obtain ⟨server, hans⟩ := h.answered n' asked infos hn
      exact ⟨server, hans.snoc (hq n' hne)⟩
  viewed := hview

theorem Known.step {s' : Discovery} (h : Known inet_addr es s)
    (hstep : Discovery.Step inet_addr s e s') : Known inet_addr (es ++ [e]) s' := by
  have hstep' := hstep
  cases hstep with
  | @server e =>
      exact h.other hstep' (h.registry.handle e) rfl rfl (by rintro _ ⟨⟩) (by rintro _ ⟨⟩)
  | setQueryDomains =>
      exact h.other hstep' h.registry rfl rfl (by rintro _ ⟨⟩) (by rintro _ ⟨⟩)
  | addQueryDomain =>
      exact h.other hstep' h.registry rfl rfl (by rintro _ ⟨⟩) (by rintro _ ⟨⟩)
  | delQueryDomain =>
      exact h.other hstep' h.registry rfl rfl (by rintro _ ⟨⟩) (by rintro _ ⟨⟩)
  | @query n hk hne =>
      refine h.setQuery hstep' rfl rfl ?_ ?_ ?_ (h.viewed.snoc (by rintro _ ⟨⟩))
      · rintro n' hn' heq
        cases heq
        exact hn' rfl
      · rintro asked ⟨⟩
        exact ⟨es, [], s, rfl, h.run, rfl, List.not_mem_nil⟩
      · rintro asked infos ⟨⟩
  | @answer n asked infos hk hinfos =>
      refine h.setQuery hstep' rfl rfl (by rintro _ _ ⟨⟩) ?_ ?_ (h.viewed.snoc (by rintro _ ⟨⟩))
      · rintro asked' ⟨⟩
      · rintro asked' infos' ⟨⟩
        exact ⟨s.server, es, [], s, rfl, h.run, rfl, hinfos, h.asked n asked hk,
          List.not_mem_nil⟩
  | @receive n asked infos hk =>
      obtain ⟨server, hans⟩ := h.answered n asked infos hk
      refine h.setQuery hstep' rfl rfl (by rintro _ _ ⟨⟩) (by rintro _ ⟨⟩) (by rintro _ _ ⟨⟩) ?_
      exact .inr ⟨es, [], n, s, asked, server, infos, rfl, h.run, hans, rfl,
        fun _ => List.not_mem_nil⟩
  | lost =>
      exact h.setQuery hstep' rfl rfl (by rintro _ _ ⟨⟩) (by rintro _ ⟨⟩) (by rintro _ _ ⟨⟩)
        (h.viewed.snoc (by rintro _ ⟨⟩))

theorem Known.of_run (h : (discovery inet_addr).Run es s) : Known inet_addr es s := by
  refine h.history ?_ fun _ _ _ _ hknown hstep => hknown.step hstep
  rintro s rfl
  refine ⟨.start rfl, nodesKept_empty, ?_, ?_, .inl ⟨rfl, fun _ => List.not_mem_nil⟩⟩
  · rintro n asked ⟨⟩
  · rintro n asked infos ⟨⟩

end CIM.ns
