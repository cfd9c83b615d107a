import CIM.Ns.NameServer

/-!
# The registry and the registrations

The registry has one entry for a node, whichever sessions registered it. It agrees with the
registrations as long as no session gives up an entry that another one still needs.
-/
namespace CIM.ns

open Transition

variable {inet_addr : String → UInt32} {domain : String} {c : UInt32} {n : UInt64}
  {old_v new_v : DomainSets}

/-! ## Differences -/

def Has (m : DomainSets) (domain : String) (cmd : UInt32) : Prop :=
  ∃ cs, m.lookup domain = some cs ∧ cmd ∈ cs

theorem not_has_empty : ¬Has ∅ domain c := by
  rintro ⟨cs, hcs, -⟩
  rw [AList.lookup_empty] at hcs
  cases hcs

theorem lists_minus :
    Lists (minus old_v new_v) domain c ↔ Has old_v domain c ∧ ¬Has new_v domain c := by
  constructor
  · rintro ⟨j, hj, rfl, hc⟩
    obtain ⟨i, hi, hf⟩ := List.mem_filterMap.mp hj
    have hold : old_v.lookup i.1 = some i.2 := AList.mem_lookup_iff.mpr hi
    cases hl : new_v.lookup i.1 with
    | none =>
        rw [hl] at hf
        cases hf
        refine ⟨⟨_, hold, hc⟩, ?_⟩
        rintro ⟨cs, hcs, -⟩
        rw [hl] at hcs
        cases hcs
    | some cs =>
        rw [hl] at hf
        change (if (i.2.filter fun n => !cs.contains n).isEmpty then none
          else some (⟨i.1, i.2.filter fun n => !cs.contains n⟩ : Sigma fun _ => List UInt32)) =
            some j at hf
        split at hf
        · cases hf
        · cases hf
          obtain ⟨hc, hno⟩ := List.mem_filter.mp hc
          refine ⟨⟨_, hold, hc⟩, ?_⟩
          rintro ⟨cs', hcs', hc'⟩
          rw [hl] at hcs'
          cases hcs'
          rw [List.contains_iff_mem.mpr hc'] at hno
          cases hno
  · rintro ⟨⟨l, hold, hc⟩, hno⟩
    have hi : (⟨domain, l⟩ : Sigma fun _ => List UInt32) ∈ old_v.entries :=
      AList.mem_lookup_iff.mp hold
    cases hl : new_v.lookup domain with
    | none =>
        refine ⟨⟨domain, l⟩, List.mem_filterMap.mpr ⟨_, hi, ?_⟩, rfl, hc⟩
        simp only [hl]
    | some cs =>
        have hmem : c ∈ l.filter fun n => !cs.contains n := by
          refine List.mem_filter.mpr ⟨hc, ?_⟩
          have hnot : cs.contains c = false := by
            apply Bool.eq_false_iff.mpr
            intro h
            exact hno ⟨cs, hl, List.contains_iff_mem.mp h⟩
          rw [hnot]
          rfl
        refine ⟨⟨domain, l.filter fun n => !cs.contains n⟩,
          List.mem_filterMap.mpr ⟨_, hi, ?_⟩, rfl, hmem⟩
        simp only [hl]
        refine if_neg fun h => ?_
        rw [List.isEmpty_iff.mp h] at hmem
        cases hmem

theorem lists_common (h : Lists (common old_v new_v) domain c) : Has new_v domain c := by
  obtain ⟨j, hj, rfl, hc⟩ := h
  obtain ⟨i, hi, hf⟩ := List.mem_filterMap.mp hj
  cases hl : new_v.lookup i.1 with
  | none =>
      rw [hl] at hf
      cases hf
  | some cs =>
      rw [hl] at hf
      change (if (i.2.filter fun n => cs.contains n).isEmpty then none
        else some (⟨i.1, i.2.filter fun n => cs.contains n⟩ : Sigma fun _ => List UInt32)) =
          some j at hf
      split at hf
      · cases hf
      · cases hf
        exact ⟨cs, hl, List.contains_iff_mem.mp (List.mem_filter.mp hc).2⟩

/-! ## One event -/

/-- The registration contains the node for the domain and the command. -/
def Registers (value : Option NSClientInfo) (domain : String) (cmd : UInt32) (id : UInt64) : Prop :=
  ∃ info, value = some info ∧ Has info.m_domain2cmds domain cmd ∧ id = info.m_node.m_id

theorem not_registers_none : ¬Registers none domain c n := by
  rintro ⟨info, h, -⟩
  cases h

theorem registers_some {info : NSClientInfo} :
    Registers (some info) domain c n ↔
      Has info.m_domain2cmds domain c ∧ n = info.m_node.m_id := by
  constructor
  · rintro ⟨info', h, hr⟩
    cases h
    exact hr
  · intro h
    exact ⟨info, rfl, h⟩

namespace NameServerModule

variable {m : NameServerModule} {rs : RockStream} {new_value : Option NSClientInfo}

/-- The registry has a node exactly where a connected session registered it. -/
def Consistent (m : NameServerModule) : Prop :=
  ∀ domain cmd id, m.m_domains.Present domain cmd id ↔
    ∃ rs, Registers (m.m_sessions rs) domain cmd id

/-- What the session gives up, no other session is registered for. -/
def Unshared (m : NameServerModule) (rs : RockStream) (new_value : Option NSClientInfo) : Prop :=
  ∀ domain cmd id, Registers (m.m_sessions rs) domain cmd id →
    ¬Registers new_value domain cmd id →
      ∀ rs', rs' ≠ rs → ¬Registers (m.m_sessions rs') domain cmd id

/-- A session keeps the id of its node. -/
def SameNode (old_value new_value : Option NSClientInfo) : Prop :=
  ∀ old new, old_value = some old → new_value = some new → new.m_node.m_id = old.m_node.m_id

/-- What the session gives up is deleted, what it registers is there. -/
theorem Consistent.present_store (h : Consistent m) (hid : SameNode (m.m_sessions rs) new_value) :
    (m.store rs new_value).m_domains.Present domain c n ↔
      m.m_domains.Present domain c n ∧
          (Registers (m.m_sessions rs) domain c n → Registers new_value domain c n) ∨
        Registers new_value domain c n := by
  have hthere : Registers (m.m_sessions rs) domain c n → m.m_domains.Present domain c n :=
    fun hr => (h domain c n).mpr ⟨rs, hr⟩
  unfold store
  cases hold : m.m_sessions rs with
  | none =>
      cases new_value with
      | none =>
          constructor
          · intro hp
            exact .inl ⟨hp, fun hr => absurd hr not_registers_none⟩
          · rintro (⟨hp, -⟩ | hr)
            · exact hp
            · exact absurd hr not_registers_none
      | some new =>
          change (m.m_domains.addAll new.m_node (minus new.m_domain2cmds ∅)).Present _ _ _ ↔ _
          rw [NSDomainSet.present_addAll, lists_minus, registers_some]
          constructor
          · rintro (hp | ⟨⟨hnew, -⟩, hn⟩)
            · exact .inl ⟨hp, fun hr => absurd hr not_registers_none⟩
            · exact .inr ⟨hnew, hn⟩
          · rintro (⟨hp, -⟩ | ⟨hnew, hn⟩)
            · exact .inl hp
            · exact .inr ⟨⟨hnew, not_has_empty⟩, hn⟩
  | some old =>
      rw [hold] at hthere
      cases new_value with
      | none =>
          change (m.m_domains.delAll old.m_node.m_id (minus old.m_domain2cmds ∅)).Present _ _ _ ↔ _
          rw [NSDomainSet.present_delAll, lists_minus, registers_some]
          constructor
          · rintro ⟨hp, hno⟩
            exact .inl ⟨hp, fun hr => absurd ⟨⟨hr.1, not_has_empty⟩, hr.2⟩ hno⟩
          · rintro (⟨hp, hno⟩ | hr)
            · exact ⟨hp, fun hr => not_registers_none (hno ⟨hr.1.1, hr.2⟩)⟩
            · exact absurd hr not_registers_none
      | some new =>
          have hsame : new.m_node.m_id = old.m_node.m_id := hid old new hold rfl
          rw [registers_some] at hthere
          rw [registers_some, registers_some, hsame]
          -- nodes that are put in again are there already
          have hupdated : ∀ ds : NSDomainSet,
              (ds.Present domain c n ↔ m.m_domains.Present domain c n ∧
                (Has old.m_domain2cmds domain c ∧ n = old.m_node.m_id →
                  Has new.m_domain2cmds domain c ∧ n = old.m_node.m_id) ∨
                Has new.m_domain2cmds domain c ∧ n = old.m_node.m_id) →
              ((ds.addAll new.m_node (common old.m_domain2cmds new.m_domain2cmds)).Present
                domain c n ↔ m.m_domains.Present domain c n ∧
                (Has old.m_domain2cmds domain c ∧ n = old.m_node.m_id →
                  Has new.m_domain2cmds domain c ∧ n = old.m_node.m_id) ∨
                Has new.m_domain2cmds domain c ∧ n = old.m_node.m_id) := by
            intro ds hds
            rw [NSDomainSet.present_addAll, hds, hsame]
            constructor
            · rintro (hp | ⟨hc, hn⟩)
              · exact hp
              · exact .inr ⟨lists_common hc, hn⟩
            · exact .inl
          have hadded : ((m.m_domains.delAll old.m_node.m_id
              (minus old.m_domain2cmds new.m_domain2cmds)).addAll new.m_node
                (minus new.m_domain2cmds old.m_domain2cmds)).Present domain c n ↔
              m.m_domains.Present domain c n ∧
                (Has old.m_domain2cmds domain c ∧ n = old.m_node.m_id →
                  Has new.m_domain2cmds domain c ∧ n = old.m_node.m_id) ∨
                Has new.m_domain2cmds domain c ∧ n = old.m_node.m_id := by
            rw [NSDomainSet.present_addAll, NSDomainSet.present_delAll, lists_minus, lists_minus,
              hsame]
            constructor
            · rintro (⟨hp, hno⟩ | ⟨⟨hnew, -⟩, hn⟩)
              · refine .inl ⟨hp, fun hr => ⟨?_, hr.2⟩⟩
                by_contra hnew
                exact hno ⟨⟨hr.1, hnew⟩, hr.2⟩
              · exact .inr ⟨hnew, hn⟩
            · rintro (⟨hp, hkeep⟩ | ⟨hnew, hn⟩)
              · exact .inl ⟨hp, fun hr => hr.1.2 (hkeep ⟨hr.1.1, hr.2⟩).1⟩
              · by_cases hh : Has old.m_domain2cmds domain c
                · exact .inl ⟨hthere ⟨hh, hn⟩, fun hr => hr.1.2 hnew⟩
                · exact .inr ⟨⟨hnew, hh⟩, hn⟩
          change NSDomainSet.Present (if old.m_node.m_weight != new.m_node.m_weight then
            NSDomainSet.addAll (NSDomainSet.addAll (NSDomainSet.delAll m.m_domains old.m_node.m_id
              (minus old.m_domain2cmds new.m_domain2cmds)) new.m_node
              (minus new.m_domain2cmds old.m_domain2cmds)) new.m_node
              (common old.m_domain2cmds new.m_domain2cmds)
            else NSDomainSet.addAll (NSDomainSet.delAll m.m_domains old.m_node.m_id
              (minus old.m_domain2cmds new.m_domain2cmds)) new.m_node
              (minus new.m_domain2cmds old.m_domain2cmds)) domain c n ↔ _
          split
          · exact hupdated _ hadded
          · exact hadded

/-- The registry stays consistent exactly where nothing that is given up is shared. -/
theorem Consistent.store_iff (h : Consistent m) (hid : SameNode (m.m_sessions rs) new_value) :
    Consistent (m.store rs new_value) ↔ Unshared m rs new_value := by
  have hsessions : ∀ domain c n,
      (∃ rs', Registers ((m.store rs new_value).m_sessions rs') domain c n) ↔
        Registers new_value domain c n ∨
          ∃ rs', rs' ≠ rs ∧ Registers (m.m_sessions rs') domain c n := by
    intro domain c n
    change (∃ rs', Registers (Function.update m.m_sessions rs new_value rs') domain c n) ↔ _
    constructor
    · rintro ⟨rs', hr⟩
      by_cases hrs : rs' = rs
      · rw [hrs, Function.update_self] at hr
        exact .inl hr
      · rw [Function.update_of_ne hrs] at hr
        exact .inr ⟨rs', hrs, hr⟩
    · rintro (hr | ⟨rs', hrs, hr⟩)
      · exact ⟨rs, by rw [Function.update_self]; exact hr⟩
      · exact ⟨rs', by rw [Function.update_of_ne hrs]; exact hr⟩
  constructor
  · intro h' domain c n hold hnew rs' hrs hr
    have hp := (h' domain c n).mpr ((hsessions domain c n).mpr (.inr ⟨rs', hrs, hr⟩))
    rcases (h.present_store hid).mp hp with ⟨-, hkeep⟩ | hn
    · exact hnew (hkeep hold)
    · exact hnew hn
  · intro hshare domain c n
    rw [h.present_store hid, hsessions]
    constructor
    · rintro (⟨hp, hkeep⟩ | hn)
      · obtain ⟨rs', hr⟩ := (h domain c n).mp hp
        by_cases hrs : rs' = rs
        · rw [hrs] at hr
          exact .inl (hkeep hr)
        · exact .inr ⟨rs', hrs, hr⟩
      · exact .inl hn
    · rintro (hn | ⟨rs', hrs, hr⟩)
      · exact .inr hn
      · by_cases hn : Registers new_value domain c n
        · exact .inr hn
        · refine .inl ⟨(h domain c n).mpr ⟨rs', hr⟩, fun hold => ?_⟩
          exact absurd hr (hshare domain c n hold hn rs' hrs)

/-! ## Requests -/

theorem registerInfo_id {old r : NSClientInfo} {info : RegisterInfo}
    (hn : SameNode (some old) new_value)
    (h : registerInfo inet_addr (some old) new_value info = some r) :
    r.m_node.m_id = old.m_node.m_id := by
  unfold registerInfo at h
  obtain ⟨node, -, h⟩ := Option.bind_eq_some_iff.mp h
  obtain ⟨domain, -, h⟩ := Option.bind_eq_some_iff.mp h
  split at h
  · cases h
  · obtain ⟨ip, -, h⟩ := Option.bind_eq_some_iff.mp h
    obtain ⟨port, -, h⟩ := Option.bind_eq_some_iff.mp h
    obtain ⟨weight, -, h⟩ := Option.bind_eq_some_iff.mp h
    dsimp only at h
    split at h
    · cases h
    · split at h
      · cases h
      · rename_i hold
        split at h
        · cases h
        · cases h
          cases new_value with
          | some new => exact hn old new rfl rfl
          | none =>
              have hsame : (old.m_node.m_id !=
                  (NSNode.create inet_addr ip port.toUInt16 weight).m_id) = false :=
                Bool.eq_false_iff.mpr hold
              exact (bne_eq_false_iff_eq.mp hsame).symm

theorem registerInfos_id {old_value : Option NSClientInfo} {infos : List RegisterInfo}
    (h : registerInfos inet_addr old_value infos = some new_value) :
    SameNode old_value new_value := by
  have hfold : ∀ (infos : List RegisterInfo) (start : Option NSClientInfo),
      SameNode old_value start →
      infos.foldlM (fun new_value info =>
        (registerInfo inet_addr old_value new_value info).map some) start = some new_value →
      SameNode old_value new_value := by
    intro infos
    induction infos with
    | nil =>
        intro start hstart hf
        cases hf
        exact hstart
    | cons info infos ih =>
        intro start hstart hf
        rw [List.foldlM_cons] at hf
        obtain ⟨next, hone, hf⟩ := Option.bind_eq_some_iff.mp hf
        obtain ⟨r, hr, rfl⟩ := Option.map_eq_some_iff.mp hone
        refine ih (some r) ?_ hf
        rintro old new rfl hnew
        cases hnew
        exact registerInfo_id hstart hr
  exact hfold infos none (fun _ _ _ h => by cases h) h

/-- The session of an event and what is stored for it, where something is. -/
def newValue (inet_addr : String → UInt32) (m : NameServerModule) :
    Event → Option (RockStream × Option NSClientInfo)
  | .register rs isConnected request =>
      (request.bind (registerInfos inet_addr (m.m_sessions rs))).map fun new_value =>
        (rs, if isConnected then new_value else none)
  | .disconnect rs _ => some (rs, none)
  | .connect _ => none
  | .tick _ => none

theorem handle_eq (e : Event) :
    m.handle inet_addr e =
      match newValue inet_addr m e with
      | some (rs, new_value) => m.store rs new_value
      | none => m := by
  cases e with
  | connect rs => rfl
  | tick rs => rfl
  | disconnect rs isConnected =>
      change m.store rs (if isConnected then none else none) = m.store rs none
      rw [ite_self]
  | register rs isConnected request =>
      cases hb : request.bind (registerInfos inet_addr (m.m_sessions rs)) with
      | none =>
          have hv : newValue inet_addr m (.register rs isConnected request) = none :=
            Option.map_eq_none_iff.mpr hb
          change (m.handleRegister inet_addr rs isConnected request).2 = _
          rw [hv, handleRegister, hb]
      | some new_value =>
          have hv : newValue inet_addr m (.register rs isConnected request) =
              some (rs, if isConnected then new_value else none) :=
            Option.map_eq_some_iff.mpr ⟨new_value, hb, rfl⟩
          change (m.handleRegister inet_addr rs isConnected request).2 = _
          rw [hv, handleRegister, hb]
          rfl

theorem newValue_sameNode {e : Event} (h : newValue inet_addr m e = some (rs, new_value)) :
    SameNode (m.m_sessions rs) new_value := by
  have hnone : SameNode (m.m_sessions rs) none := fun _ _ _ h => by cases h
  cases e with
  | connect rs => cases h
  | tick rs => cases h
  | disconnect rs isConnected =>
      cases h
      exact hnone
  | register rs isConnected request =>
      obtain ⟨accepted, hr, heq⟩ := Option.map_eq_some_iff.mp h
      obtain ⟨infos, -, hinfos⟩ := Option.bind_eq_some_iff.mp hr
      cases isConnected with
      | false =>
          cases heq
          exact hnone
      | true =>
          cases heq
          exact registerInfos_id hinfos

/-! ## Runs -/

/-- The event gives up nothing that another session is registered for. -/
def Alone (inet_addr : String → UInt32) (m : NameServerModule) (e : Event) : Prop :=
  ∀ rs new_value, newValue inet_addr m e = some (rs, new_value) → Unshared m rs new_value

theorem Consistent.handle_iff (h : Consistent m) (e : Event) :
    Consistent (m.handle inet_addr e) ↔ Alone inet_addr m e := by
  rw [handle_eq]
  unfold Alone
  cases hv : newValue inet_addr m e with
  | none =>
      constructor
      · intro _ rs new_value hnew
        cases hnew
      · intro _
        exact h
  | some r =>
      obtain ⟨rs, new_value⟩ := r
      change Consistent (m.store rs new_value) ↔ _
      rw [h.store_iff (newValue_sameNode hv)]
      constructor
      · intro hshare rs' new_value' hnew
        cases hnew
        exact hshare
      · intro halone
        exact halone rs new_value rfl

theorem consistent_empty : Consistent ⟨∅, fun _ => none⟩ := by
  intro domain c n
  constructor
  · intro h
    exact absurd h NSDomainSet.not_present_empty
  · rintro ⟨rs, hr⟩
    exact absurd hr not_registers_none

theorem run_invariant {es : List Event}
    (h : ((nameServer inet_addr).restrict (Alone inet_addr)).Run es m) : Consistent m := by
  refine h.invariant (I := Consistent) ?_ ?_
  · rintro m rfl
    exact consistent_empty
  · rintro m e m' hm ⟨halone, rfl⟩
    exact (hm.handle_iff e).mpr halone

/-- In every run whose events give up nothing that is shared the registry is consistent, and the
next event keeps it so exactly where it does not either. -/
theorem run_registry {es : List Event}
    (h : ((nameServer inet_addr).restrict (Alone inet_addr)).Run es m) :
    Consistent m ∧ ∀ e, Consistent (m.handle inet_addr e) ↔ Alone inet_addr m e := by
  have hm := run_invariant h
  exact ⟨hm, hm.handle_iff⟩

/-- A session without a registration has nothing to give up. -/
theorem alone_first (h : m.m_sessions rs = none) (isConnected : Bool)
    (request : Option (List RegisterInfo)) :
    Alone inet_addr m (.register rs isConnected request) := by
  intro rs' new_value hnew domain cmd id hr
  obtain ⟨accepted, -, heq⟩ := Option.map_eq_some_iff.mp hnew
  cases heq
  rw [h] at hr
  exact absurd hr not_registers_none

section Shared

/-- A request for one command of one domain at 10.0.0.1. -/
def request : Option (List RegisterInfo) :=
  some [⟨some "im", [257], some ⟨some "10.0.0.1", some 8061, some 1⟩⟩]

def address (_ : String) : UInt32 := 0x0100000a

def registered : NSClientInfo :=
  ⟨NSNode.create address "10.0.0.1" 8061 1, insertCmd "im" ∅ 257⟩

theorem registers_registered : Registers (some registered) "im" 257 registered.m_node.m_id :=
  registers_some.mpr ⟨⟨_, AList.lookup_insert _, List.mem_insert_self⟩, rfl⟩

/-- Two sessions that registered the same node. -/
def twoSessions : NameServerModule :=
  (NameServerModule.handle address ⟨∅, fun _ => none⟩ (.register 1 true request)).handle address
    (.register 2 true request)

theorem twoSessions_run :
    ((nameServer address).restrict (Alone address)).Run
      [.register 1 true request, .register 2 true request] twoSessions := by
  have h₀ : ((nameServer address).restrict (Alone address)).Run [] ⟨∅, fun _ => none⟩ := .start rfl
  have halone : Alone address ⟨∅, fun _ => none⟩ (.register 1 true request) :=
    alone_first rfl true request
  have h₁ := h₀.snoc ⟨halone, rfl⟩
  exact h₁.snoc ⟨alone_first rfl true request, rfl⟩

theorem run_registry_two_sessions :
    Consistent twoSessions ∧
      ∀ e, Consistent (twoSessions.handle address e) ↔ Alone address twoSessions e :=
  run_registry twoSessions_run

/-- When the first of the two sessions disconnects, the node the second one registered is gone. -/
theorem disconnect_drops_shared_node :
    ∃ m, (nameServer address).Run
        [.register 1 true request, .register 2 true request, .disconnect 1 true] m ∧
      Registers (m.m_sessions 2) "im" 257 registered.m_node.m_id ∧
        ¬m.m_domains.Present "im" 257 registered.m_node.m_id := by
  have h₀ : (nameServer address).Run [] ⟨∅, fun _ => none⟩ := .start rfl
  have h₁ := h₀.snoc (e := .register 1 true request) rfl
  have h₂ := h₁.snoc (e := .register 2 true request) rfl
  have h₃ := h₂.snoc (e := .disconnect 1 true) rfl
  have hfirst : twoSessions.m_sessions 1 = some registered := rfl
  have hsecond : (twoSessions.store 1 none).m_sessions 2 = some registered := rfl
  refine ⟨_, h₃, ?_, ?_⟩
  · change Registers ((twoSessions.store 1 none).m_sessions 2) "im" 257 registered.m_node.m_id
    rw [hsecond]
    exact registers_registered
  · intro hp
    have hsame : SameNode (twoSessions.m_sessions 1) none := fun _ _ _ h => by cases h
    rcases ((run_invariant twoSessions_run).present_store hsame).mp hp with ⟨-, hkeep⟩ | hr
    · rw [hfirst] at hkeep
      exact not_registers_none (hkeep registers_registered)
    · exact not_registers_none hr

end Shared

end NameServerModule

end CIM.ns
