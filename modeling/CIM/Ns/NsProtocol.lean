import Mathlib.Data.List.AList
import Mathlib.Data.UInt

/-!
# Name server protocol

The registry holds the domains by name, in each the commands, and under each command the nodes
by their ids.
-/
namespace CIM.ns

structure NSNode where
  m_id : UInt64
  m_ip : String
  m_port : UInt16
  m_weight : UInt32

/-- `inet_addr` is the function of the C library. -/
def NSNode.getID (inet_addr : String → UInt32) (ip : String) (port : UInt16) : UInt64 :=
  (inet_addr ip).toUInt64 <<< 32 ||| port.toUInt64

def NSNode.create (inet_addr : String → UInt32) (ip : String) (port : UInt16)
    (weight : UInt32) : NSNode :=
  ⟨getID inet_addr ip port, ip, port, weight⟩

abbrev NSNodeSet := AList fun _ : UInt64 => NSNode
abbrev NSDomain := AList fun _ : UInt32 => NSNodeSet
abbrev NSDomainSet := AList fun _ : String => NSDomain

def NSNodeSet.add (ns : NSNodeSet) (info : NSNode) : NSNodeSet := ns.insert info.m_id info

def NSDomain.add (d : NSDomain) (cmd : UInt32) (info : NSNode) : NSDomain :=
  d.insert cmd (NSNodeSet.add ((d.lookup cmd).getD ∅) info)

/-- A command without nodes is deleted as well. -/
def NSDomain.del (d : NSDomain) (cmd : UInt32) (id : UInt64) : NSDomain :=
  match d.lookup cmd with
  | none => d
  | some ns => if (ns.erase id).entries.isEmpty then d.erase cmd else d.insert cmd (ns.erase id)

/-- The commands of several domains, as the maps of `diff` list them. -/
abbrev DomainCmds := List (Sigma fun _ : String => List UInt32)

namespace NSDomainSet

/-- The loop over `dels`. -/
def delAll (ds : NSDomainSet) (id : UInt64) (cs : DomainCmds) : NSDomainSet :=
  cs.foldl (fun ds i =>
    match ds.lookup i.1 with
    | none => ds
    | some d => ds.insert i.1 (i.2.foldl (fun d c => NSDomain.del d c id) d)) ds

/-- The loops over `news` and `comms`; a domain that is missing is made. -/
def addAll (ds : NSDomainSet) (info : NSNode) (cs : DomainCmds) : NSDomainSet :=
  cs.foldl (fun ds i =>
    ds.insert i.1 (i.2.foldl (fun d c => NSDomain.add d c info) ((ds.lookup i.1).getD ∅))) ds

end NSDomainSet

/-! ## What is present -/

def NSDomain.Present (d : NSDomain) (cmd : UInt32) (id : UInt64) : Prop :=
  ∃ ns, d.lookup cmd = some ns ∧ id ∈ ns

/-- A node with the id is in the registry under the domain and the command. -/
def NSDomainSet.Present (ds : NSDomainSet) (domain : String) (cmd : UInt32) (id : UInt64) : Prop :=
  ∃ d, ds.lookup domain = some d ∧ NSDomain.Present d cmd id

def Lists (cs : DomainCmds) (domain : String) (cmd : UInt32) : Prop :=
  ∃ i ∈ cs, i.1 = domain ∧ cmd ∈ i.2

variable {cmd c : UInt32} {id n : UInt64} {domain : String} {info : NSNode} {cs : DomainCmds}

namespace NSDomain

theorem not_present_empty : ¬Present ∅ c n := by
  rintro ⟨ns, hns, -⟩
  rw [AList.lookup_empty] at hns
  cases hns

theorem present_add (d : NSDomain) :
    Present (add d cmd info) c n ↔ Present d c n ∨ c = cmd ∧ n = info.m_id := by
  unfold Present add
  by_cases hc : c = cmd
  · subst hc
    rw [AList.lookup_insert]
    constructor
    · rintro ⟨ns, hns, hn⟩
      cases hns
      rcases (AList.mem_insert _).mp hn with rfl | hn
      · exact .inr ⟨rfl, rfl⟩
      · cases hl : d.lookup c with
        | none =>
            rw [hl] at hn
            exact absurd hn (AList.notMem_empty n)
        | some ns =>
            rw [hl] at hn
            exact .inl ⟨ns, rfl, hn⟩
    · rintro (⟨ns, hns, hn⟩ | ⟨-, rfl⟩)
      · refine ⟨_, rfl, (AList.mem_insert _).mpr (.inr ?_)⟩
        rw [hns]
        exact hn
      · exact ⟨_, rfl, (AList.mem_insert _).mpr (.inl rfl)⟩
  · rw [AList.lookup_insert_ne hc]
    constructor
    · intro h
      exact .inl h
    · rintro (h | ⟨h, -⟩)
      · exact h
      · exact absurd h hc

theorem present_del (d : NSDomain) :
    Present (del d cmd id) c n ↔ Present d c n ∧ ¬(c = cmd ∧ n = id) := by
  unfold del
  cases hl : d.lookup cmd with
  | none =>
      constructor
      · intro h
        refine ⟨h, ?_⟩
        rintro ⟨rfl, -⟩
        obtain ⟨ns, hns, -⟩ := h
        rw [hl] at hns
        cases hns
      · rintro ⟨h, -⟩
        exact h
  | some ns =>
      -- the node set that is left, kept or not
      have hleft : ∀ d', (d'.lookup cmd = some (ns.erase id) ∨
            (ns.erase id).entries = [] ∧ d'.lookup cmd = none) →
          (∀ c, c ≠ cmd → d'.lookup c = d.lookup c) →
          (Present d' c n ↔ Present d c n ∧ ¬(c = cmd ∧ n = id)) := by
        intro d' hcmd hother
        unfold Present
        by_cases hc : c = cmd
        · subst hc
          rw [hl]
          rcases hcmd with hcmd | ⟨hempty, hcmd⟩
          · rw [hcmd]
            constructor
            · rintro ⟨ns', hns', hn⟩
              cases hns'
              obtain ⟨hne, hn⟩ := AList.mem_erase.mp hn
              exact ⟨⟨ns, rfl, hn⟩, fun h => hne h.2⟩
            · rintro ⟨⟨ns', hns', hn⟩, hne⟩
              cases hns'
              exact ⟨_, rfl, AList.mem_erase.mpr ⟨fun h => hne ⟨rfl, h⟩, hn⟩⟩
          · rw [hcmd]
            constructor
            · rintro ⟨ns', hns', -⟩
              cases hns'
            · rintro ⟨⟨ns', hns', hn⟩, hne⟩
              cases hns'
              have hmem : n ∈ ns.erase id := AList.mem_erase.mpr ⟨fun h => hne ⟨rfl, h⟩, hn⟩
              rw [AList.mem_keys, AList.keys, hempty] at hmem
              cases hmem
        · rw [hother c hc]
          constructor
          · intro h
            exact ⟨h, fun h' => hc h'.1⟩
          · rintro ⟨h, -⟩
            exact h
      change Present (if (ns.erase id).entries.isEmpty then d.erase cmd
        else d.insert cmd (ns.erase id)) c n ↔ _
      split
      · rename_i hempty
        exact hleft _ (.inr ⟨List.isEmpty_iff.mp hempty, AList.lookup_erase cmd d⟩)
          fun c hc => AList.lookup_erase_ne hc
      · exact hleft _ (.inl (AList.lookup_insert d)) fun c hc => AList.lookup_insert_ne hc

theorem present_addAll (d : NSDomain) (l : List UInt32) :
    Present (l.foldl (fun d c => add d c info) d) c n ↔
      Present d c n ∨ c ∈ l ∧ n = info.m_id := by
  induction l generalizing d with
  | nil =>
      constructor
      · exact .inl
      · rintro (h | ⟨h, -⟩)
        · exact h
        · cases h
  | cons x l ih =>
      rw [List.foldl_cons, ih, present_add, List.mem_cons, or_and_right, or_assoc]

theorem present_delAll (d : NSDomain) (l : List UInt32) :
    Present (l.foldl (fun d c => del d c id) d) c n ↔ Present d c n ∧ ¬(c ∈ l ∧ n = id) := by
  induction l generalizing d with
  | nil =>
      constructor
      · intro h
        refine ⟨h, ?_⟩
        rintro ⟨hc, -⟩
        cases hc
      · rintro ⟨h, -⟩
        exact h
  | cons x l ih =>
      rw [List.foldl_cons, ih, present_del, List.mem_cons, or_and_right, not_or, and_assoc]

end NSDomain

namespace NSDomainSet

theorem not_present_empty : ¬Present ∅ domain c n := by
  rintro ⟨d, hd, -⟩
  rw [AList.lookup_empty] at hd
  cases hd

theorem lists_cons {i : Sigma fun _ : String => List UInt32} :
    Lists (i :: cs) domain c ↔ (i.1 = domain ∧ c ∈ i.2) ∨ Lists cs domain c :=
  List.exists_mem_cons_iff ..

theorem present_addAll (ds : NSDomainSet) :
    Present (addAll ds info cs) domain c n ↔
      Present ds domain c n ∨ Lists cs domain c ∧ n = info.m_id := by
  induction cs generalizing ds with
  | nil =>
      constructor
      · exact .inl
      · rintro (h | ⟨⟨i, hi, -⟩, -⟩)
        · exact h
        · cases hi
  | cons i cs ih =>
      have hone : Present (ds.insert i.1
          (i.2.foldl (fun d c => NSDomain.add d c info) ((ds.lookup i.1).getD ∅))) domain c n ↔
          Present ds domain c n ∨ (i.1 = domain ∧ c ∈ i.2) ∧ n = info.m_id := by
        unfold Present
        by_cases hd : domain = i.1
        · subst hd
          rw [AList.lookup_insert]
          constructor
          · rintro ⟨d, hd, hp⟩
            cases hd
            rcases (NSDomain.present_addAll _ _).mp hp with hp | ⟨hc, hn⟩
            · cases hl : ds.lookup i.1 with
              | none =>
                  rw [hl] at hp
                  exact absurd hp NSDomain.not_present_empty
              | some d =>
                  rw [hl] at hp
                  exact .inl ⟨d, rfl, hp⟩
            · exact .inr ⟨⟨rfl, hc⟩, hn⟩
          · rintro (⟨d, hd, hp⟩ | ⟨⟨-, hc⟩, hn⟩)
            · refine ⟨_, rfl, (NSDomain.present_addAll _ _).mpr (.inl ?_)⟩
              rw [hd]
              exact hp
            · exact ⟨_, rfl, (NSDomain.present_addAll _ _).mpr (.inr ⟨hc, hn⟩)⟩
        · rw [AList.lookup_insert_ne hd]
          constructor
          · exact .inl
          · rintro (h | ⟨⟨h, -⟩, -⟩)
            · exact h
            · exact absurd h.symm hd
      change Present (addAll _ info cs) domain c n ↔ _
      rw [ih, hone, lists_cons, or_and_right, or_assoc]

theorem present_delAll (ds : NSDomainSet) :
    Present (delAll ds id cs) domain c n ↔
      Present ds domain c n ∧ ¬(Lists cs domain c ∧ n = id) := by
  induction cs generalizing ds with
  | nil =>
      constructor
      · intro h
        refine ⟨h, ?_⟩
        rintro ⟨⟨i, hi, -⟩, -⟩
        cases hi
      · rintro ⟨h, -⟩
        exact h
  | cons i cs ih =>
      have hone : Present (match ds.lookup i.1 with
          | none => ds
          | some d => ds.insert i.1 (i.2.foldl (fun d c => NSDomain.del d c id) d)) domain c n ↔
          Present ds domain c n ∧ ¬((i.1 = domain ∧ c ∈ i.2) ∧ n = id) := by
        cases hl : ds.lookup i.1 with
        | none =>
            constructor
            · intro h
              refine ⟨h, ?_⟩
              rintro ⟨⟨rfl, -⟩, -⟩
              obtain ⟨d, hd, -⟩ := h
              rw [hl] at hd
              cases hd
            · rintro ⟨h, -⟩
              exact h
        | some d =>
            change Present (ds.insert i.1 _) domain c n ↔ _
            unfold Present
            by_cases hd : domain = i.1
            · subst hd
              rw [AList.lookup_insert, hl]
              constructor
              · rintro ⟨d', hd', hp⟩
                cases hd'
                obtain ⟨hp, hno⟩ := (NSDomain.present_delAll _ _).mp hp
                exact ⟨⟨d, rfl, hp⟩, fun h => hno ⟨h.1.2, h.2⟩⟩
              · rintro ⟨⟨d', hd', hp⟩, hno⟩
                cases hd'
                exact ⟨_, rfl, (NSDomain.present_delAll _ _).mpr
                  ⟨hp, fun h => hno ⟨⟨rfl, h.1⟩, h.2⟩⟩⟩
            · rw [AList.lookup_insert_ne hd]
              constructor
              · intro h
                exact ⟨h, fun h' => hd h'.1.1.symm⟩
              · rintro ⟨h, -⟩
                exact h
      change Present (delAll _ id cs) domain c n ↔ _
      rw [ih, hone, lists_cons, or_and_right, not_or, and_assoc]

end NSDomainSet

end CIM.ns
