import Mathlib.Tactic.Tauto
import CIM.Ns.ConcurrentSet

/-!
# What parallel registrations leave in the registry

What a call still has to delete and to add, applied to the registry, gives the registration it will
store. A section of another call keeps that as long as it drops nothing that is needed.
-/
namespace CIM.ns

open Transition

variable {r r' : Registry} {domain x : String} {c y : UInt32} {d ns : Nat} {id n : UInt64}

namespace Registry

theorem present_addDomain :
    (r.addDomain domain).Present x y n ↔ r.Present x y n ∧ x ≠ domain := by
  unfold Present addDomain
  by_cases hx : x = domain
  · subst hx
    constructor
    · rintro ⟨e, ns, he, hns, -⟩
      change Function.update r.m_domains x (some r.made) x = some e at he
      rw [Function.update_self] at he
      cases he
      change (if x = x ∧ r.made = r.made then none else r.cmds x r.made y) = some ns at hns
      rw [if_pos ⟨rfl, rfl⟩] at hns
      cases hns
    · rintro ⟨-, hne⟩
      exact absurd rfl hne
  · simp only [Function.update_of_ne hx, hx, false_and, if_false, ne_eq, not_false_eq_true,
      and_true]

/-- The set of a command is dropped, where the domain is the one that is looked up. -/
theorem present_delCmd :
    (r.setCmd domain d c none).Present x y n ↔
      r.Present x y n ∧ ¬(x = domain ∧ y = c ∧ r.m_domains domain = some d) := by
  unfold Present setCmd
  constructor
  · rintro ⟨e, ns, he, hns, hn⟩
    change (if x = domain ∧ e = d ∧ y = c then none else r.cmds x e y) = some ns at hns
    split at hns
    · cases hns
    · rename_i hne
      refine ⟨⟨e, ns, he, hns, hn⟩, ?_⟩
      rintro ⟨rfl, rfl, hd⟩
      rw [hd] at he
      exact hne ⟨rfl, (Option.some.inj he).symm, rfl⟩
  · rintro ⟨⟨e, ns, he, hns, hn⟩, hne⟩
    refine ⟨e, ns, he, (if_neg ?_).trans hns, hn⟩
    rintro ⟨rfl, rfl, rfl⟩
    exact hne ⟨rfl, rfl, he⟩

theorem present_addSet :
    (r.addSet domain d c).Present x y n ↔
      r.Present x y n ∧ ¬(x = domain ∧ y = c ∧ r.m_domains domain = some d) := by
  unfold Present addSet setCmd setNodes
  constructor
  · rintro ⟨e, ns, he, hns, hn⟩
    change (if x = domain ∧ e = d ∧ y = c then some r.made else r.cmds x e y) = some ns at hns
    change n ∈ (if x = domain ∧ e = d ∧ y = c ∧ ns = r.made then ∅ else r.nodes x e y ns) at hn
    split at hns
    · rename_i heq
      rw [if_pos ⟨heq.1, heq.2.1, heq.2.2, (Option.some.inj hns).symm⟩] at hn
      exact absurd hn (AList.notMem_empty n)
    · rename_i hne
      rw [if_neg fun h => hne ⟨h.1, h.2.1, h.2.2.1⟩] at hn
      refine ⟨⟨e, ns, he, hns, hn⟩, ?_⟩
      rintro ⟨rfl, rfl, hd⟩
      rw [hd] at he
      exact hne ⟨rfl, (Option.some.inj he).symm, rfl⟩
  · rintro ⟨⟨e, ns, he, hns, hn⟩, hne⟩
    have hother : ¬(x = domain ∧ e = d ∧ y = c) := by
      rintro ⟨rfl, rfl, rfl⟩
      exact hne ⟨rfl, rfl, he⟩
    refine ⟨e, ns, he, ?_, ?_⟩
    · exact (if_neg hother).trans hns
    · change n ∈ (if x = domain ∧ e = d ∧ y = c ∧ ns = r.made then ∅ else r.nodes x e y ns)
      rw [if_neg fun h => hother ⟨h.1, h.2.1, h.2.2.1⟩]
      exact hn

/-- A node is deleted from a set, which may not be the one that is looked up any more. -/
theorem present_delNode :
    (r.setNodes domain d c ns ((r.nodes domain d c ns).erase id)).Present x y n ↔
      r.Present x y n ∧ ¬(n = id ∧ x = domain ∧ y = c ∧ r.m_domains domain = some d ∧
        r.cmds domain d c = some ns) := by
  unfold Present setNodes
  constructor
  · rintro ⟨e, ms, he, hms, hn⟩
    change n ∈ (if x = domain ∧ e = d ∧ y = c ∧ ms = ns then (r.nodes domain d c ns).erase id
      else r.nodes x e y ms) at hn
    split at hn
    · rename_i heq
      obtain ⟨rfl, rfl, rfl, rfl⟩ := heq
      obtain ⟨hne, hn⟩ := AList.mem_erase.mp hn
      exact ⟨⟨e, ms, he, hms, hn⟩, fun h => hne h.1⟩
    · rename_i hother
      refine ⟨⟨e, ms, he, hms, hn⟩, ?_⟩
      rintro ⟨rfl, rfl, rfl, hd, hc⟩
      rw [hd] at he
      obtain rfl := Option.some.inj he
      rw [hc] at hms
      exact hother ⟨rfl, rfl, rfl, (Option.some.inj hms).symm⟩
  · rintro ⟨⟨e, ms, he, hms, hn⟩, hne⟩
    refine ⟨e, ms, he, hms, ?_⟩
    change n ∈ (if x = domain ∧ e = d ∧ y = c ∧ ms = ns then (r.nodes domain d c ns).erase id
      else r.nodes x e y ms)
    split
    · rename_i heq
      obtain ⟨rfl, rfl, rfl, rfl⟩ := heq
      exact AList.mem_erase.mpr ⟨fun h => hne ⟨h, rfl, rfl, he, hms⟩, hn⟩
    · exact hn

/-- A node is added to the set that is looked up. -/
theorem present_addNode {info : NSNode} (hd : r.m_domains domain = some d)
    (hns : r.cmds domain d c = some ns) :
    (r.setNodes domain d c ns (NSNodeSet.add (r.nodes domain d c ns) info)).Present x y n ↔
      r.Present x y n ∨ (n = info.m_id ∧ x = domain ∧ y = c) := by
  unfold Present setNodes
  constructor
  · rintro ⟨e, ms, he, hms, hn⟩
    change n ∈ (if x = domain ∧ e = d ∧ y = c ∧ ms = ns then
      NSNodeSet.add (r.nodes domain d c ns) info else r.nodes x e y ms) at hn
    split at hn
    · rename_i heq
      obtain ⟨rfl, rfl, rfl, rfl⟩ := heq
      rcases (AList.mem_insert _).mp hn with hn | hn
      · exact .inr ⟨hn, rfl, rfl⟩
      · exact .inl ⟨e, ms, he, hms, hn⟩
    · exact .inl ⟨e, ms, he, hms, hn⟩
  · rintro (⟨e, ms, he, hms, hn⟩ | ⟨rfl, rfl, rfl⟩)
    · refine ⟨e, ms, he, hms, ?_⟩
      change n ∈ (if x = domain ∧ e = d ∧ y = c ∧ ms = ns then
        NSNodeSet.add (r.nodes domain d c ns) info else r.nodes x e y ms)
      split
      · rename_i heq
        obtain ⟨rfl, rfl, rfl, rfl⟩ := heq
        exact (AList.mem_insert _).mpr (.inr hn)
      · exact hn
    · refine ⟨d, ns, hd, hns, ?_⟩
      change info.m_id ∈ (if x = x ∧ d = d ∧ y = y ∧ ns = ns then
        NSNodeSet.add (r.nodes x d y ns) info else r.nodes x d y ns)
      rw [if_pos ⟨rfl, rfl, rfl, rfl⟩]
      exact (AList.mem_insert _).mpr (.inl rfl)

end Registry

open Registry

/-- What a call points to: the domain and the set it adds to are looked up there still, and so are
those it deletes from, as long as its node is there. -/
def Held (r : Registry) (id : UInt64) : Pc → Prop
  | .jobs _ _ => True
  | .delCmds a _ _ => ∀ y, r.Present a.domain y id → r.m_domains a.domain = some a.d
  | .delNode a c ns _ _ => (∀ y, r.Present a.domain y id → r.m_domains a.domain = some a.d) ∧
      (r.Present a.domain c id → r.cmds a.domain a.d c = some ns)
  | .size a _ _ _ _ => ∀ y, r.Present a.domain y id → r.m_domains a.domain = some a.d
  | .delCmd a _ _ _ => ∀ y, r.Present a.domain y id → r.m_domains a.domain = some a.d
  | .addDomain _ _ _ => True
  | .addCmds a _ => r.m_domains a.domain = some a.d
  | .addSet a _ _ => r.m_domains a.domain = some a.d
  | .addNode a c ns _ => r.m_domains a.domain = some a.d ∧ r.cmds a.domain a.d c = some ns

/-- What is left to do turns the registry into the registration. -/
def Owes (r : Registry) (id : UInt64) (pc : Pc) (value : DomainSets) : Prop :=
  ∀ x y, Has value x y ↔
    (r.Present x y id ∧ ¬Lists pc.dels x y) ∨ Lists pc.adds x y

/-- A section of another call, as the session of this node and call sees it. -/
structure Calm (r r' : Registry) (id : UInt64) (pc : Pc) : Prop where
  present : ∀ x y, r'.Present x y id → r.Present x y id
  kept : ∀ x y, r.Present x y id → r'.Present x y id ∨ Lists pc.dels x y ∨ Lists pc.adds x y
  domains : ∀ x, (∃ y, r'.Present x y id) ∨ pc.AddsIn x → r'.m_domains x = r.m_domains x
  cmds : ∀ x y d, r.m_domains x = some d → r'.Present x y id ∨ pc.AddsTo x y →
    r'.cmds x d y = r.cmds x d y

namespace Calm

variable {pc : Pc} {value : DomainSets}

theorem owes (h : Calm r r' id pc) (ho : Owes r id pc value) : Owes r' id pc value := by
  intro x y
  have hpresent := h.present x y
  have hkept := h.kept x y
  rw [ho x y]
  tauto

theorem held (h : Calm r r' id pc) (hh : Held r id pc) : Held r' id pc := by
  have hdel : ∀ a : At, (∀ y, r.Present a.domain y id → r.m_domains a.domain = some a.d) →
      ∀ y, r'.Present a.domain y id → r'.m_domains a.domain = some a.d := by
    intro a ha y hy
    rw [h.domains a.domain (.inl ⟨y, hy⟩)]
    exact ha y (h.present _ y hy)
  cases pc with
  | jobs dels adds => trivial
  | delCmds a dels adds => exact hdel a hh
  | delNode a c ns dels adds =>
      refine ⟨hdel a hh.1, fun hp => ?_⟩
      have hold := h.present _ c hp
      rw [h.cmds _ c _ (hh.1 c hold) (.inl hp)]
      exact hh.2 hold
  | size a c ns dels adds => exact hdel a hh
  | delCmd a c dels adds => exact hdel a hh
  | addDomain domain cs adds => trivial
  | addCmds a adds => exact (h.domains _ (.inr rfl)).trans hh
  | addSet a c adds => exact (h.domains _ (.inr rfl)).trans hh
  | addNode a c ns adds =>
      exact ⟨(h.domains _ (.inr rfl)).trans hh.1,
        (h.cmds _ c _ hh.1 (.inr ⟨rfl, rfl⟩)).trans hh.2⟩

theorem refl : Calm r r id pc where
  present _ _ h := h
  kept _ _ h := .inl h
  domains _ _ := rfl
  cmds _ _ _ _ _ := rfl

/-- A new domain, where nobody needs the old one. -/
theorem addDomain (hneed : ∀ y, r.Present domain y id →
      Lists pc.dels domain y ∨ Lists pc.adds domain y) (hadds : ¬pc.AddsIn domain) :
    Calm r (r.addDomain domain) id pc := by
  have hne : ∀ x, (∃ y, (r.addDomain domain).Present x y id) ∨ pc.AddsIn x → x ≠ domain := by
    rintro x (⟨y, hy⟩ | hx) rfl
    · exact (present_addDomain.mp hy).2 rfl
    · exact hadds hx
  refine ⟨fun x y h => (present_addDomain.mp h).1, fun x y h => ?_, fun x h => ?_,
    fun x y e he h => ?_⟩
  · by_cases hx : x = domain
    · exact .inr (hx ▸ hneed y (hx ▸ h))
    · exact .inl (present_addDomain.mpr ⟨h, hx⟩)
  · exact Function.update_of_ne (hne x h) _ _
  · refine if_neg fun heq => ?_
    rcases h with hp | ha
    · exact hne x (.inl ⟨y, hp⟩) heq.1
    · refine hne x (.inr ?_) heq.1
      cases pc with
      | addNode a c ns adds => exact ha.1
      | _ => cases ha

/-- The set of a command is replaced or dropped where nobody needs it. -/
theorem drop (hdomains : r'.m_domains = r.m_domains)
    (hcmds : ∀ x e y, ¬(x = domain ∧ e = d ∧ y = c) → r'.cmds x e y = r.cmds x e y)
    (hpresent : ∀ x y, r'.Present x y id ↔
      r.Present x y id ∧ ¬(x = domain ∧ y = c ∧ r.m_domains domain = some d))
    (hneed : r.m_domains domain = some d →
      (r.Present domain c id → Lists pc.dels domain c ∨ Lists pc.adds domain c) ∧
        ¬pc.AddsTo domain c) : Calm r r' id pc := by
  refine ⟨fun x y h => ((hpresent x y).mp h).1, fun x y h => ?_, fun x _ => by rw [hdomains],
    fun x y e he h => hcmds x e y ?_⟩
  · by_cases heq : x = domain ∧ y = c ∧ r.m_domains domain = some d
    · obtain ⟨rfl, rfl, hd⟩ := heq
      exact .inr ((hneed hd).1 h)
    · exact .inl ((hpresent x y).mpr ⟨h, heq⟩)
  · rintro ⟨rfl, rfl, rfl⟩
    rcases h with hp | ha
    · exact ((hpresent _ _).mp hp).2 ⟨rfl, rfl, he⟩
    · exact (hneed he).2 ha

/-- The nodes of a set change, but not this one. -/
theorem setNodes {v : NSNodeSet}
    (hpresent : ∀ x y, (r.setNodes domain d c ns v).Present x y id ↔ r.Present x y id) :
    Calm r (r.setNodes domain d c ns v) id pc where
  present x y h := (hpresent x y).mp h
  kept x y h := .inl ((hpresent x y).mpr h)
  domains _ _ := rfl
  cmds _ _ _ _ _ := rfl

end Calm

section Turn

variable {call : Call} {pc' other : Pc} {value : DomainSets}

/-- What a section of the call does to the registry. -/
inductive Change (call : Call) (r : Registry) : Registry → Prop
  | same : Change call r r
  | delNode {a c ns dels adds old} (h : call.pc = .delNode a c ns dels adds)
      (hold : call.old_value = some old) : Change call r
        (r.setNodes a.domain a.d c ns ((r.nodes a.domain a.d c ns).erase old.m_node.m_id))
  | delCmd {a c dels adds} (h : call.pc = .delCmd a c dels adds) :
      Change call r (r.setCmd a.domain a.d c none)
  | addDomain {domain cs adds} (h : call.pc = .addDomain domain cs adds) :
      Change call r (r.addDomain domain)
  | addSet {a c adds} (h : call.pc = .addSet a c adds) :
      Change call r (r.addSet a.domain a.d c)
  | addNode {a c ns adds new} (h : call.pc = .addNode a c ns adds)
      (hnew : call.new_value = some new) : Change call r
        (r.setNodes a.domain a.d c ns (NSNodeSet.add (r.nodes a.domain a.d c ns) new.m_node))

theorem turn_change (ht : call.turn r = some (r', pc')) : Change call r r' := by
  obtain ⟨old_value, new_value, pc⟩ := call
  have hsame : ∀ {t : Pc}, some (r, t) = some (r', pc') → Change ⟨old_value, new_value, pc⟩ r r' := by
    intro t h
    obtain ⟨rfl, -⟩ := Prod.mk.inj (Option.some.inj h)
    exact .same
  cases pc with
  | jobs dels adds =>
      rcases dels with _ | ⟨i, dels⟩
      · rcases adds with _ | ⟨i, adds⟩
        · cases ht
        · simp only [Call.turn] at ht
          split at ht <;> exact hsame ht
      · simp only [Call.turn] at ht
        split at ht <;> exact hsame ht
  | delCmds a dels adds =>
      obtain ⟨d, domain, _ | ⟨c, cs⟩⟩ := a
      · exact hsame ht
      · simp only [Call.turn] at ht
        split at ht <;> exact hsame ht
  | delNode a c ns dels adds =>
      obtain ⟨old, hinfo, he⟩ := Option.map_eq_some_iff.mp ht
      obtain ⟨rfl, -⟩ := Prod.mk.inj he
      exact .delNode rfl hinfo
  | size a c ns dels adds => exact hsame ht
  | delCmd a c dels adds =>
      obtain ⟨rfl, -⟩ := Prod.mk.inj (Option.some.inj ht)
      exact .delCmd rfl
  | addDomain domain cs adds =>
      obtain ⟨rfl, -⟩ := Prod.mk.inj (Option.some.inj ht)
      exact .addDomain rfl
  | addCmds a adds =>
      obtain ⟨d, domain, _ | ⟨c, cs⟩⟩ := a
      · exact hsame ht
      · simp only [Call.turn] at ht
        split at ht <;> exact hsame ht
  | addSet a c adds =>
      obtain ⟨rfl, -⟩ := Prod.mk.inj (Option.some.inj ht)
      exact .addSet rfl
  | addNode a c ns adds =>
      obtain ⟨new, hinfo, he⟩ := Option.map_eq_some_iff.mp ht
      obtain ⟨rfl, -⟩ := Prod.mk.inj he
      exact .addNode rfl hinfo

/-- A section of a call leaves the other sessions what they have, if it spares them. -/
theorem Change.calm (h : Change call r r')
    (hold : ∀ info, call.old_value = some info → info.m_node.m_id ≠ id)
    (hnew : ∀ info, call.new_value = some info → info.m_node.m_id ≠ id)
    (hheld : Held r n call.pc) (hs : call.pc.Spares r id other) : Calm r r' id other := by
  cases h with
  | same => exact .refl
  | delNode h hinfo =>
      refine .setNodes fun x y => present_delNode.trans (and_iff_left ?_)
      exact fun h => hold _ hinfo h.1.symm
  | delCmd h =>
      rw [h] at hs
      exact .drop rfl (fun x e y h => if_neg h) (fun x y => present_delCmd) hs
  | addDomain h =>
      rw [h] at hs
      exact .addDomain hs.1 hs.2
  | addSet h =>
      rw [h] at hs
      exact .drop rfl (fun x e y h => if_neg h) (fun x y => present_addSet) fun _ => hs
  | addNode h hinfo =>
      rw [h] at hheld
      refine .setNodes fun x y => (present_addNode hheld.1 hheld.2).trans (or_iff_left ?_)
      exact fun h => hnew _ hinfo h.1.symm

/-- A section of a call brings no node but its own. -/
theorem Change.known (h : Change call r r')
    (hnew : ∀ info, call.new_value = some info → info.m_node.m_id = id)
    (hheld : Held r id call.pc) (hp : r'.Present x y n) : r.Present x y n ∨ n = id := by
  cases h with
  | same => exact .inl hp
  | delNode => exact .inl (present_delNode.mp hp).1
  | delCmd => exact .inl (present_delCmd.mp hp).1
  | addDomain => exact .inl (present_addDomain.mp hp).1
  | addSet => exact .inl (present_addSet.mp hp).1
  | addNode h hinfo =>
      rw [h] at hheld
      rcases (present_addNode hheld.1 hheld.2).mp hp with hp | ⟨hn, -, -⟩
      · exact .inl hp
      · exact .inr (hn.trans (hnew _ hinfo))

theorem lists_nil_cmds {cs : DomainCmds} : Lists (⟨domain, []⟩ :: cs) x y ↔ Lists cs x y := by
  rw [NSDomainSet.lists_cons]
  refine or_iff_right ?_
  rintro ⟨-, h⟩
  cases h

theorem lists_cons_cmds {cmds : List UInt32} {cs : DomainCmds} :
    Lists (⟨domain, c :: cmds⟩ :: cs) x y ↔
      (domain = x ∧ y = c) ∨ Lists (⟨domain, cmds⟩ :: cs) x y := by
  simp only [NSDomainSet.lists_cons, List.mem_cons]
  tauto

/-- Nothing is there to delete under a domain that is not found. -/
theorem owes_no_domain {i : (_ : String) × List UInt32} {dels adds : DomainCmds}
    (hnone : r.m_domains i.1 = none) (howes : Owes r id (.jobs (i :: dels) adds) value) :
    Owes r id (.jobs dels adds) value := by
  intro x y
  refine (howes x y).trans (or_congr_left (and_congr_right fun hp => not_congr ?_))
  refine NSDomainSet.lists_cons.trans (or_iff_right ?_)
  rintro ⟨rfl, -⟩
  obtain ⟨e, ns, he, -⟩ := hp
  rw [hnone] at he
  cases he

/-- Nothing is there to delete under a command that is not found. -/
theorem owes_no_cmd {cs : List UInt32} {dels adds : DomainCmds} (hnone : r.cmds domain d c = none)
    (hheld : Held r id (.delCmds ⟨d, domain, c :: cs⟩ dels adds))
    (howes : Owes r id (.delCmds ⟨d, domain, c :: cs⟩ dels adds) value) :
    Owes r id (.delCmds ⟨d, domain, cs⟩ dels adds) value := by
  intro x y
  refine (howes x y).trans (or_congr_left (and_congr_right fun hp => not_congr ?_))
  refine lists_cons_cmds.trans (or_iff_right ?_)
  rintro ⟨rfl, rfl⟩
  have hd := hheld y hp
  obtain ⟨e, ns, he, hns, -⟩ := hp
  rw [show r.m_domains domain = some d from hd] at he
  cases he
  rw [hnone] at hns
  cases hns

/-- The node is deleted where it was still to be. -/
theorem owes_delNode {a : At} {dels adds : DomainCmds}
    (hheld : Held r id (.delNode a c ns dels adds))
    (howes : Owes r id (.delNode a c ns dels adds) value) :
    Held (r.setNodes a.domain a.d c ns ((r.nodes a.domain a.d c ns).erase id)) id
        (.size a c ns dels adds) ∧
      Owes (r.setNodes a.domain a.d c ns ((r.nodes a.domain a.d c ns).erase id)) id
        (.size a c ns dels adds) value := by
  have hp : ∀ x y, (r.setNodes a.domain a.d c ns
      ((r.nodes a.domain a.d c ns).erase id)).Present x y id ↔
        r.Present x y id ∧ ¬(a.domain = x ∧ y = c) := by
    intro x y
    refine present_delNode.trans (and_congr_right fun hp => not_congr ?_)
    constructor
    · rintro ⟨-, rfl, rfl, -⟩
      exact ⟨rfl, rfl⟩
    · rintro ⟨rfl, rfl⟩
      exact ⟨rfl, rfl, rfl, hheld.1 y hp, hheld.2 hp⟩
  refine ⟨fun y hy => hheld.1 y ((hp _ y).mp hy).1, fun x y => (howes x y).trans ?_⟩
  refine or_congr_left ?_
  rw [hp x y]
  change r.Present x y id ∧ ¬Lists (⟨a.domain, c :: a.cmds⟩ :: dels) x y ↔
    (r.Present x y id ∧ ¬(a.domain = x ∧ y = c)) ∧ ¬Lists (⟨a.domain, a.cmds⟩ :: dels) x y
  rw [lists_cons_cmds, not_or, and_assoc]

/-- The node is added where it was still to be. -/
theorem owes_addNode {a : At} {adds : DomainCmds} {node : NSNode} (hid : node.m_id = id)
    (hheld : Held r id (.addNode a c ns adds)) (howes : Owes r id (.addNode a c ns adds) value) :
    Owes (r.setNodes a.domain a.d c ns (NSNodeSet.add (r.nodes a.domain a.d c ns) node)) id
      (.addCmds a adds) value := by
  intro x y
  refine (howes x y).trans ?_
  rw [present_addNode hheld.1 hheld.2, hid]
  change _ ∨ Lists (⟨a.domain, c :: a.cmds⟩ :: adds) x y ↔
    _ ∨ Lists (⟨a.domain, a.cmds⟩ :: adds) x y
  rw [lists_cons_cmds]
  have hdels : ∀ pc : Pc, pc.dels = [] → ¬Lists pc.dels x y := by
    rintro pc hpc ⟨i, hi, -⟩
    rw [hpc] at hi
    cases hi
  have h₁ := hdels (.addNode a c ns adds) rfl
  have h₂ := hdels (.addCmds a adds) rfl
  have hcomm : a.domain = x ↔ x = a.domain := eq_comm
  tauto

/-- A section of the session's own call leaves less to do, and the sum of both stays. -/
theorem turn_owes (ht : call.turn r = some (r', pc'))
    (hold : ∀ info, call.old_value = some info → info.m_node.m_id = id)
    (hnew : ∀ info, call.new_value = some info → info.m_node.m_id = id)
    (hheld : Held r id call.pc) (howes : Owes r id call.pc value)
    (hs : call.pc.Spares r id call.pc) : Held r' id pc' ∧ Owes r' id pc' value := by
  obtain ⟨old_value, new_value, pc⟩ := call
  cases pc with
  | jobs dels adds =>
      rcases dels with _ | ⟨i, dels⟩
      · rcases adds with _ | ⟨i, adds⟩
        · cases ht
        · simp only [Call.turn] at ht
          split at ht
          · obtain ⟨rfl, rfl⟩ := Prod.mk.inj (Option.some.inj ht)
            exact ⟨trivial, howes⟩
          · rename_i hd
            obtain ⟨rfl, rfl⟩ := Prod.mk.inj (Option.some.inj ht)
            exact ⟨hd, howes⟩
      · simp only [Call.turn] at ht
        split at ht
        · rename_i hnone
          obtain ⟨rfl, rfl⟩ := Prod.mk.inj (Option.some.inj ht)
          exact ⟨trivial, owes_no_domain hnone howes⟩
        · rename_i hd
          obtain ⟨rfl, rfl⟩ := Prod.mk.inj (Option.some.inj ht)
          exact ⟨fun y _ => hd, howes⟩
  | delCmds a dels adds =>
      obtain ⟨d, domain, _ | ⟨c, cs⟩⟩ := a
      · obtain ⟨rfl, rfl⟩ := Prod.mk.inj (Option.some.inj ht)
        refine ⟨trivial, fun x y => (howes x y).trans ?_⟩
        exact or_congr_left (and_congr_right fun _ => not_congr lists_nil_cmds)
      · simp only [Call.turn] at ht
        split at ht
        · rename_i hnone
          obtain ⟨rfl, rfl⟩ := Prod.mk.inj (Option.some.inj ht)
          exact ⟨hheld, owes_no_cmd hnone hheld howes⟩
        · rename_i hns
          obtain ⟨rfl, rfl⟩ := Prod.mk.inj (Option.some.inj ht)
          exact ⟨⟨hheld, fun _ => hns⟩, howes⟩
  | delNode a c ns dels adds =>
      obtain ⟨old, hinfo, he⟩ := Option.map_eq_some_iff.mp ht
      obtain ⟨rfl, rfl⟩ := Prod.mk.inj he
      rw [hold old hinfo]
      exact owes_delNode hheld howes
  | size a c ns dels adds =>
      obtain ⟨rfl, rfl⟩ := Prod.mk.inj (Option.some.inj ht)
      split
      · exact ⟨hheld, howes⟩
      · exact ⟨hheld, howes⟩
  | delCmd a c dels adds =>
      obtain ⟨rfl, rfl⟩ := Prod.mk.inj (Option.some.inj ht)
      have hcalm : Calm r (r.setCmd a.domain a.d c none) id (.delCmd a c dels adds) :=
        .drop rfl (fun x e y h => if_neg h) (fun x y => present_delCmd) hs
      exact ⟨hcalm.held hheld, hcalm.owes howes⟩
  | addDomain domain cs adds =>
      obtain ⟨rfl, rfl⟩ := Prod.mk.inj (Option.some.inj ht)
      have hcalm : Calm r (r.addDomain domain) id (.addDomain domain cs adds) :=
        .addDomain hs.1 hs.2
      exact ⟨Function.update_self _ _ _, hcalm.owes howes⟩
  | addCmds a adds =>
      obtain ⟨d, domain, _ | ⟨c, cs⟩⟩ := a
      · obtain ⟨rfl, rfl⟩ := Prod.mk.inj (Option.some.inj ht)
        refine ⟨trivial, fun x y => (howes x y).trans ?_⟩
        exact or_congr_right lists_nil_cmds
      · simp only [Call.turn] at ht
        split at ht
        · obtain ⟨rfl, rfl⟩ := Prod.mk.inj (Option.some.inj ht)
          exact ⟨hheld, howes⟩
        · rename_i hns
          obtain ⟨rfl, rfl⟩ := Prod.mk.inj (Option.some.inj ht)
          exact ⟨⟨hheld, hns⟩, howes⟩
  | addSet a c adds =>
      obtain ⟨rfl, rfl⟩ := Prod.mk.inj (Option.some.inj ht)
      have hcalm : Calm r (r.addSet a.domain a.d c) id (.addSet a c adds) :=
        .drop rfl (fun x e y h => if_neg h) (fun x y => present_addSet) fun _ => hs
      exact ⟨⟨hheld, if_pos ⟨rfl, rfl, rfl⟩⟩, hcalm.owes howes⟩
  | addNode a c ns adds =>
      obtain ⟨new, hinfo, he⟩ := Option.map_eq_some_iff.mp ht
      obtain ⟨rfl, rfl⟩ := Prod.mk.inj he
      exact ⟨hheld.1, owes_addNode (hnew new hinfo) hheld howes⟩

end Turn

theorem not_lists_nil : ¬Lists [] x y := by
  rintro ⟨i, hi, -⟩
  cases hi

/-- Nothing is owed where the registry has the registration. -/
theorem owes_idle {value : DomainSets} :
    Owes r id (.jobs [] []) value ↔ ∀ x y, Has value x y ↔ r.Present x y id := by
  refine forall_congr' fun x => forall_congr' fun y => iff_congr Iff.rfl ?_
  change (r.Present x y id ∧ ¬Lists [] x y) ∨ Lists [] x y ↔ _
  rw [or_iff_left not_lists_nil, and_iff_left not_lists_nil]

/-- A new call owes the difference of the two registrations. -/
theorem owes_start {isConnected : Bool} {old_value new_value : Option NSClientInfo}
    (h : Owes r id (.jobs [] []) (NameServerModule.domain2cmds old_value)) :
    Owes r id (Call.start isConnected old_value new_value).pc
      (NameServerModule.domain2cmds (Call.start isConnected old_value new_value).new_value) := by
  unfold Call.start
  generalize (if isConnected then new_value else none) = new
  intro x y
  simp only [Pc.dels, Pc.adds]
  rw [← owes_idle.mp h x y, lists_minus]
  have happ : ∀ cs cs' : DomainCmds, Lists (cs ++ cs') x y ↔ Lists cs x y ∨ Lists cs' x y := by
    intro cs cs'
    simp only [Lists, List.mem_append, or_and_right, exists_or]
  rw [happ, lists_minus]
  have hcomms : ∀ cs : DomainCmds, (∀ i ∈ cs, i ∈ common (NameServerModule.domain2cmds old_value)
      (NameServerModule.domain2cmds new)) → Lists cs x y →
        Has (NameServerModule.domain2cmds new) x y := by
    rintro cs hcs ⟨i, hi, hl⟩
    exact lists_common ⟨i, hcs i hi, hl⟩
  split
  · rename_i old new'
    split
    · have hc := hcomms _ fun i hi => hi
      tauto
    · have hc := hcomms [] nofun
      tauto
  · have hc := hcomms [] nofun
    tauto

/-- The session's call keeps what it points to and owes the rest of the registration. -/
structure Settled (r : Registry) (id : UInt64) (session : Option NSClientInfo)
    (call : Option Call) : Prop where
  own : ∀ info, session = some info → info.m_node.m_id = id
  values : ∀ c, call = some c → (∀ info, c.old_value = some info → info.m_node.m_id = id) ∧
    ∀ info, c.new_value = some info → info.m_node.m_id = id
  held : Held r id (Call.pcOf call)
  owes : Owes r id (Call.pcOf call) (NameServerModule.domain2cmds (Call.target session call))

namespace Settled

variable {session : Option NSClientInfo} {call : Call}

theorem calm {call : Option Call} (h : Settled r id session call)
    (hc : Calm r r' id (Call.pcOf call)) : Settled r' id session call :=
  ⟨h.own, h.values, hc.held h.held, hc.owes h.owes⟩

theorem start {isConnected : Bool} {new_value : Option NSClientInfo}
    (h : Settled r id session none)
    (hnew : ∀ info, new_value = some info → info.m_node.m_id = id) :
    Settled r id session (some (Call.start isConnected session new_value)) where
  own := h.own
  values := by
    intro c hc
    obtain rfl := Option.some.inj hc
    refine ⟨h.own, fun info hinfo => ?_⟩
    cases isConnected
    · cases hinfo
    · exact hnew info hinfo
  held := trivial
  owes := owes_start h.owes

theorem stored (h : Settled r id session (some call)) (hpc : call.pc = .jobs [] []) :
    Settled r id call.new_value none where
  own := (h.values call rfl).2
  values := nofun
  held := trivial
  owes := by
    have howes := h.owes
    rw [show Call.pcOf (some call) = .jobs [] [] from hpc] at howes
    exact howes

theorem turn {pc' : Pc} (h : Settled r id session (some call))
    (ht : call.turn r = some (r', pc')) (hs : call.pc.Spares r id call.pc) :
    Settled r' id session (some { call with pc := pc' }) := by
  obtain ⟨hold, hnew⟩ := h.values call rfl
  obtain ⟨hheld, howes⟩ := turn_owes ht hold hnew h.held h.owes hs
  refine ⟨h.own, fun c hc => ?_, hheld, howes⟩
  obtain rfl := Option.some.inj hc
  exact ⟨hold, hnew⟩

end Settled

namespace Server

variable {R : Type} [DecidableEq R] {nodeId : R → UInt64} {s s' : Server R}

structure Inv (nodeId : R → UInt64) (s : Server R) : Prop where
  settled : ∀ rs, Settled s.registry (nodeId rs) (s.m_sessions rs) (s.calls rs)
  known : ∀ x y n, s.registry.Present x y n → ∃ rs, n = nodeId rs

theorem Inv.step (h : Inv nodeId s) (hinj : Function.Injective nodeId) {e : SetEvent R}
    (hg : Guard nodeId s e) (hs : (concurrentSet nodeId).step s e s') : Inv nodeId s' := by
  obtain ⟨hown, hex⟩ := hs
  cases e with
  | call rs isConnected new_value =>
      rw [Server.exec] at hex
      split at hex
      · cases hex
      · rename_i hnone
        rw [← Option.some.inj hex]
        refine ⟨fun rs' => ?_, h.known⟩
        have hrs' := h.settled rs'
        by_cases heq : rs' = rs
        · subst heq
          simp only [Function.update_self]
          rw [hnone] at hrs'
          exact hrs'.start (hown rs' isConnected new_value rfl)
        · simp only [Function.update_of_ne heq]
          exact hrs'
  | turn rs =>
      obtain ⟨call, hcall, hex⟩ := Option.bind_eq_some_iff.mp hex
      have hrs := h.settled rs
      rw [hcall] at hrs
      split at hex
      · rename_i hpc
        rw [← Option.some.inj hex]
        refine ⟨fun rs' => ?_, h.known⟩
        by_cases heq : rs' = rs
        · subst heq
          simp only [Function.update_self]
          exact hrs.stored hpc
        · simp only [Function.update_of_ne heq]
          exact h.settled rs'
      · obtain ⟨⟨r', pc'⟩, ht, hex⟩ := Option.bind_eq_some_iff.mp hex
        rw [← Option.some.inj hex]
        obtain ⟨hold, hnew⟩ := hrs.values call rfl
        have hpc : s.pc rs = call.pc := congrArg Call.pcOf hcall
        rw [Guard, hpc] at hg
        refine ⟨fun rs' => ?_, fun x y n hn => ?_⟩
        · by_cases heq : rs' = rs
          · subst heq
            simp only [Function.update_self]
            have hself := hg rs'
            rw [hpc] at hself
            exact hrs.turn ht hself
          · simp only [Function.update_of_ne heq]
            have hid : nodeId rs ≠ nodeId rs' := fun h => heq (hinj h).symm
            refine (h.settled rs').calm ((turn_change ht).calm ?_ ?_ hrs.held (hg rs'))
            · exact fun info hinfo => (hold info hinfo).trans_ne hid
            · exact fun info hinfo => (hnew info hinfo).trans_ne hid
        · rcases (turn_change ht).known hnew hrs.held hn with hn | hn
          · exact h.known x y n hn
          · exact ⟨rs, hn⟩

omit [DecidableEq R] in
theorem Inv.empty : Inv nodeId ⟨.empty, fun _ => none, fun _ => none⟩ := by
  have hno : ∀ x y n, ¬Registry.empty.Present x y n := by
    rintro x y n ⟨e, ns, he, -⟩
    cases he
  refine ⟨fun rs => ⟨nofun, nofun, trivial, owes_idle.mpr fun x y => ?_⟩, fun x y n h => ?_⟩
  · exact iff_of_false not_has_empty (hno x y _)
  · exact absurd h (hno x y n)

end Server

open Server

/-- Where no section drops a node that is needed, the registry holds exactly the latest
registrations as soon as all calls have returned. -/
theorem run_registrations {R : Type} [DecidableEq R] {nodeId : R → UInt64}
    (hinj : Function.Injective nodeId)
    {es : List (SetEvent R)} {s : Server R}
    (h : ((concurrentSet nodeId).restrict (Guard nodeId)).Run es s) (hs : s.Returned) :
    ∀ domain cmd id, s.registry.Present domain cmd id ↔
      ∃ rs, Registers (s.m_sessions rs) domain cmd id := by
  have hinv : Inv nodeId s := by
    refine h.invariant (I := Inv nodeId) ?_ ?_
    · rintro s₀ rfl
      exact .empty
    · rintro s₁ e s₂ hi ⟨hg, hstep⟩
      exact hi.step hinj hg hstep
  have hhas : ∀ rs domain cmd,
      Has (NameServerModule.domain2cmds (s.m_sessions rs)) domain cmd ↔
        s.registry.Present domain cmd (nodeId rs) := by
    intro rs
    have howes := (hinv.settled rs).owes
    rw [hs rs] at howes
    exact owes_idle.mp howes
  intro domain cmd id
  constructor
  · intro hp
    obtain ⟨rs, rfl⟩ := hinv.known domain cmd id hp
    have hrs := (hhas rs domain cmd).mpr hp
    cases hsession : s.m_sessions rs with
    | none =>
        rw [hsession] at hrs
        exact absurd hrs not_has_empty
    | some info =>
        rw [hsession] at hrs
        refine ⟨rs, info, hsession, hrs, ?_⟩
        exact ((hinv.settled rs).own info hsession).symm
  · rintro ⟨rs, info, hinfo, hlists, rfl⟩
    rw [(hinv.settled rs).own info hinfo]
    refine (hhas rs domain cmd).mp ?_
    rw [hinfo]
    exact hlists

section TwoSessions

/-- The node set that is looked up. -/
def Registry.look (r : Registry) (domain : String) (cmd : UInt32) : NSNodeSet :=
  match r.m_domains domain with
  | none => ∅
  | some d =>
      match r.cmds domain d cmd with
      | none => ∅
      | some ns => r.nodes domain d cmd ns

theorem Registry.present_iff {cmd : UInt32} :
    r.Present domain cmd id ↔ id ∈ r.look domain cmd := by
  unfold Present look
  cases hd : r.m_domains domain with
  | none =>
      refine iff_of_false ?_ (AList.notMem_empty id)
      rintro ⟨d, ns, hd', -⟩
      cases hd'
  | some d =>
      cases hc : r.cmds domain d cmd with
      | none =>
          simp only [hc]
          refine iff_of_false ?_ (AList.notMem_empty id)
          rintro ⟨d', ns, hd', hns, -⟩
          cases hd'
          rw [hc] at hns
          cases hns
      | some ns =>
          simp only [hc]
          constructor
          · rintro ⟨d', ns', hd', hns, hid⟩
            cases hd'
            rw [hc] at hns
            cases hns
            exact hid
          · intro hid
            exact ⟨d, ns, rfl, hc, hid⟩

/-- A list of events that can be performed is a run. -/
theorem run_foldlM {R : Type} [DecidableEq R] {nodeId : R → UInt64} {es es₀ : List (SetEvent R)}
    {s s' : Server R}
    (hown : ∀ e ∈ es, ∀ rs isConnected new_value, e = .call rs isConnected new_value →
      OwnNode nodeId rs new_value)
    (h : (concurrentSet nodeId).Run es₀ s) (hs : es.foldlM exec s = some s') :
    (concurrentSet nodeId).Run (es₀ ++ es) s' := by
  induction es generalizing es₀ s with
  | nil =>
      rw [← Option.some.inj hs, List.append_nil]
      exact h
  | cons e es ih =>
      obtain ⟨s₁, hs₁, hs⟩ := Option.bind_eq_some_iff.mp hs
      rw [List.append_cons]
      refine ih (fun e' he' => hown e' (List.mem_cons_of_mem _ he')) ?_ hs
      exact h.snoc ⟨hown e List.mem_cons_self, hs₁⟩

def ownId (rs : Bool) : UInt64 := if rs then 2 else 1

/-- Both sessions register under the same command. -/
def ownInfo (rs : Bool) : NSClientInfo :=
  ⟨⟨ownId rs, "10.0.0.1", 8061, 1⟩, insertCmd "im" ∅ 257⟩

theorem ownId_injective : Function.Injective ownId := by
  unfold Function.Injective
  decide

/-- The first session alone. -/
def alone (r : Registry) (session : Option NSClientInfo) (pc : Option Pc) : Server Bool where
  registry := r
  m_sessions rs := if rs then none else session
  calls rs := if rs then none else pc.map fun pc => ⟨none, some (ownInfo false), pc⟩

theorem exec_turn {R : Type} [DecidableEq R] {s : Server R} {rs : R} {call : Call} {pc' : Pc}
    (hcall : s.calls rs = some call) (ht : call.turn s.registry = some (r', pc')) :
    s.exec (.turn rs) = some { s with
      registry := r'
      calls := Function.update s.calls rs (some { call with pc := pc' }) } := by
  refine Option.bind_eq_some_iff.mpr ⟨call, hcall, ?_⟩
  split
  · rename_i hpc
    unfold Call.turn at ht
    rw [hpc] at ht
    cases ht
  · exact Option.bind_eq_some_iff.mpr ⟨(r', pc'), ht, rfl⟩

theorem alone_turn {pc pc' : Pc}
    (h : Call.turn ⟨none, some (ownInfo false), pc⟩ r = some (r', pc')) :
    (alone r none (some pc)).exec (.turn false) = some (alone r' none (some pc')) := by
  rw [exec_turn (s := alone r none (some pc)) rfl h]
  have hcalls : Function.update (alone r none (some pc)).calls false
      (some (Call.mk none (some (ownInfo false)) pc')) = (alone r' none (some pc')).calls := by
    funext rs
    cases rs <;> rfl
  exact congrArg (fun calls => some (Server.mk r' (alone r none (some pc)).m_sessions calls)) hcalls

/-- The runs whose sections spare every session. -/
def Spared : List (SetEvent Bool) → Server Bool → Prop :=
  ((concurrentSet ownId).restrict (Guard ownId)).Run

theorem alone_snoc {es : List (SetEvent Bool)} {pc pc' : Pc}
    (h : Spared es (alone r none (some pc)))
    (hg : Guard ownId (alone r none (some pc)) (.turn false))
    (ht : Call.turn ⟨none, some (ownInfo false), pc⟩ r = some (r', pc')) :
    Spared (es ++ [.turn false]) (alone r' none (some pc')) :=
  System.Run.snoc h ⟨hg, nofun, alone_turn ht⟩

theorem run_registrations_alone :
    ∃ s, Spared (.call false true (some (ownInfo false)) :: List.replicate 7 (.turn false)) s ∧
      s.Returned ∧ ∀ domain cmd id, s.registry.Present domain cmd id ↔
        ∃ rs, Registers (s.m_sessions rs) domain cmd id := by
  let r₁ := Registry.empty.addDomain "im"
  let r₂ := r₁.addSet "im" 0 257
  let r₃ := r₂.setNodes "im" 0 257 1
    (NSNodeSet.add (r₂.nodes "im" 0 257 1) (ownInfo false).m_node)
  have hstart : (concurrentSet ownId).init (alone .empty none none) := by
    change alone .empty none none = _
    unfold alone
    congr 1 <;> funext rs <;> cases rs <;> rfl
  have h₀ : Spared [] (alone .empty none none) := .start hstart
  have hcall : (alone .empty none none).exec (.call false true (some (ownInfo false))) =
      some (alone .empty none (some (.jobs [] [⟨"im", [257]⟩]))) := by
    refine congrArg some (congrArg (Server.mk _ _) ?_)
    funext rs
    cases rs <;> rfl
  have hown : ∀ rs isConnected new_value,
      SetEvent.call false true (some (ownInfo false)) = .call rs isConnected new_value →
        OwnNode ownId rs new_value := by
    rintro _ _ _ he info hinfo
    cases he
    cases hinfo
    rfl
  have hnew : Guard ownId (alone .empty none (some (.addDomain "im" [257] []))) (.turn false) := by
    refine fun rs => ⟨fun c hp => ?_, by cases rs <;> exact id⟩
    obtain ⟨d, ns, hd, -⟩ := hp
    cases hd
  have hset : Guard ownId (alone r₁ none (some (.addSet ⟨0, "im", []⟩ 257 []))) (.turn false) := by
    refine fun rs => ⟨fun hp => ?_, by cases rs <;> exact id⟩
    obtain ⟨d, ns, hd, hns, -⟩ := hp
    cases hd
    cases hns
  have h₁ := h₀.snoc (e := SetEvent.call false true (some (ownInfo false))) ⟨trivial, hown, hcall⟩
  have h₂ : Spared _ (alone .empty none _) := alone_snoc h₁ (fun _ => trivial) rfl
  have h₃ : Spared _ (alone r₁ none _) := alone_snoc h₂ hnew rfl
  have h₄ : Spared _ (alone r₁ none _) := alone_snoc h₃ (fun _ => trivial) rfl
  have h₅ : Spared _ (alone r₂ none _) := alone_snoc h₄ hset rfl
  have h₆ : Spared _ (alone r₃ none _) := alone_snoc h₅ (fun _ => trivial) rfl
  have h₇ : Spared _ (alone r₃ none _) := alone_snoc h₆ (fun _ => trivial) rfl
  have hstore : (alone r₃ none (some (.jobs [] []))).exec (.turn false) =
      some (alone r₃ (some (ownInfo false)) none) := by
    refine congrArg some (congr (congrArg (Server.mk _) ?_) ?_) <;> funext rs <;> cases rs <;> rfl
  have h₈ := h₇.snoc (e := SetEvent.turn false) ⟨fun _ => trivial, nofun, hstore⟩
  have hreturned : (alone r₃ (some (ownInfo false)) none).Returned := by
    intro rs
    cases rs <;> rfl
  exact ⟨_, h₈, hreturned, run_registrations ownId_injective h₈ hreturned⟩

def registeredCmds (info : NSClientInfo) (domain : String) : Option (List UInt32) :=
  info.m_domain2cmds.lookup domain

/-- Both sessions find no domain, and the second one stores its own over that of the first one:
both calls return, and the first registration is lost. -/
theorem registration_lost :
    ∃ es s, (concurrentSet ownId).Run es s ∧ s.Returned ∧
      Registers (s.m_sessions false) "im" 257 (ownId false) ∧
        ¬s.registry.Present "im" 257 (ownId false) := by
  let start : Server Bool := ⟨.empty, fun _ => none, fun _ => none⟩
  let es : List (SetEvent Bool) :=
    [.call false true (some (ownInfo false)), .call true true (some (ownInfo true)),
      .turn false, .turn true, .turn false, .turn false, .turn false, .turn false, .turn false,
      .turn false, .turn true, .turn true, .turn true, .turn true, .turn true, .turn true]
  have hown : ∀ e ∈ es, ∀ rs isConnected new_value, e = .call rs isConnected new_value →
      OwnNode ownId rs new_value := by
    rintro e he rs isConnected new_value rfl info rfl
    simp only [es, List.mem_cons, SetEvent.call.injEq, reduceCtorEq, List.not_mem_nil, or_false,
      Option.some.injEq] at he
    rcases he with ⟨rfl, -, rfl⟩ | ⟨rfl, -, rfl⟩ <;> rfl
  have hend : (es.foldlM exec start).map (fun s => ((s.calls false).isNone && (s.calls true).isNone,
      (s.registry.look "im" 257).keys)) = some (true, [2]) := by
    decide +kernel
  have hfirst : ((es.foldlM exec start).bind fun s => s.m_sessions false).map (fun info =>
      (registeredCmds info "im", info.m_node.m_id)) = some (some [257], 1) := by
    decide +kernel
  obtain ⟨s, hs, hend⟩ := Option.map_eq_some_iff.mp hend
  rw [hs] at hfirst
  obtain ⟨info, hinfo, hvalue⟩ := Option.map_eq_some_iff.mp hfirst
  obtain ⟨hcalls, hkeys⟩ := Prod.mk.inj hend
  obtain ⟨hcmds, hid⟩ := Prod.mk.inj hvalue
  obtain ⟨hfalse, htrue⟩ := (Bool.and_eq_true _ _).mp hcalls
  refine ⟨es, s, run_foldlM hown (.start rfl) hs, fun rs => ?_, ?_, ?_⟩
  · cases rs
    · exact Option.isNone_iff_eq_none.mp hfalse
    · exact Option.isNone_iff_eq_none.mp htrue
  · exact ⟨info, hinfo, ⟨[257], hcmds, List.mem_singleton_self _⟩, hid.symm⟩
  · rw [Registry.present_iff, AList.mem_keys, hkeys]
    decide

end TwoSessions

end CIM.ns
