import CIM.Lib.System
import Mathlib.Data.List.Nodup
import Mathlib.Logic.Function.Basic

/-!
# `MySQLManager`

The connections that nobody uses are kept by the name of their database. A caller takes one out
under the lock, and looks at it, or makes a new one, without the lock.
-/
namespace CIM.db

open Transition

structure MySQL where
  m_lastUsedTime : UInt64
  m_hasError : Bool
  m_mysql : Bool
  m_poolSize : Int32

namespace MySQL

def isNeedCheck (m : MySQL) (now : UInt64) : Bool :=
  !(now - m.m_lastUsedTime < 5 && !m.m_hasError)

/-- `ok` is the answer of the server, if it is asked. -/
def ping (m : MySQL) (ok : Bool) : Bool × MySQL :=
  if !m.m_mysql then (false, m)
  else if ok then (true, { m with m_hasError := false })
  else (false, { m with m_hasError := true })

/-- `init` is what `mysql_init` comes to, with the size of the pool from the settings. -/
def connect (m : MySQL) (init : Option Int32) : Bool × MySQL :=
  if m.m_mysql && !m.m_hasError then (true, m)
  else
    match init with
    | none => (false, { m with m_hasError := true })
    | some size => (true, { m with m_hasError := false, m_mysql := true, m_poolSize := size })

def new : MySQL := ⟨0, false, false, 10⟩

end MySQL

/-- A caller is one call of `get` with the pointer that it returns. -/
inductive Caller
  | out
  | checking (name : String) (c : Nat)
  | connecting (name : String)
  | holding (name : String) (c : Nat)

def Caller.conn : Caller → Option Nat
  | .checking _ c => some c
  | .holding _ c => some c
  | _ => none

/-- Connections are numbered as they are made; `heap` has those that exist. -/
structure MySQLManager where
  m_conns : String → List Nat
  heap : Nat → Option MySQL
  made : Nat
  callers : Nat → Caller
  now : UInt64

/-- `use` is what a caller does with its connection. -/
inductive PoolEvent
  | get (k : Nat) (name : String) (isDefined : Bool)
  | check (k c : Nat) (pinged : Bool) (init : Option Int32)
  | connect (k : Nat) (init : Option Int32)
  | use (k : Nat) (m : MySQL)
  | free (k c : Nat)
  | checkConnection (name : String) (sec : Int)
  | advance (now : UInt64)

namespace MySQLManager

/-- `(int)(now - m_lastUsedTime) >= sec` -/
def expired (s : MySQLManager) (sec : Int) (c : Nat) : Bool :=
  match s.heap c with
  | none => false
  | some m => sec ≤ Int.bmod (s.now - m.m_lastUsedTime).toNat 4294967296

def setCaller (s : MySQLManager) (k : Nat) (v : Caller) : MySQLManager :=
  { s with callers := Function.update s.callers k v }

def setHeap (s : MySQLManager) (c : Nat) (m : Option MySQL) : MySQLManager :=
  { s with heap := Function.update s.heap c m }

def setConns (s : MySQLManager) (name : String) (l : List Nat) : MySQLManager :=
  { s with m_conns := Function.update s.m_conns name l }

/-- The connection is given to the caller. -/
def hand (s : MySQLManager) (k : Nat) (name : String) (c : Nat) (m : MySQL) : MySQLManager :=
  (s.setHeap c (some { m with m_lastUsedTime := s.now })).setCaller k (.holding name c)

/-- A connection that was taken out is handed over, or lost where it cannot be made again: it is
neither deleted nor put back. -/
def look (s : MySQLManager) (k : Nat) (name : String) (c : Nat) (m : MySQL) (pinged : Bool)
    (init : Option Int32) : Bool × MySQLManager :=
  if !m.isNeedCheck s.now then (true, s.hand k name c m)
  else if (m.ping pinged).1 then (true, s.hand k name c (m.ping pinged).2)
  else if ((m.ping pinged).2.connect init).1 then
    (true, s.hand k name c ((m.ping pinged).2.connect init).2)
  else (false, (s.setHeap c (some ((m.ping pinged).2.connect init).2)).setCaller k .out)

/-- `freeMySQL` -/
def freeMySQL (s : MySQLManager) (name : String) (c : Nat) (m : MySQL) : MySQLManager :=
  if m.m_mysql && (s.m_conns name).length < m.m_poolSize.toInt64.toUInt64.toNat then
    s.setConns name (s.m_conns name ++ [c])
  else s.setHeap c none

/-- The answer of a call, where it has one. `checkConnection` goes through the names one after the
other, and this is its turn for one of them. -/
def exec (s : MySQLManager) : PoolEvent → Option (Bool × MySQLManager)
  | .get k name isDefined =>
      match s.callers k, s.m_conns name with
      | .out, c :: l => some (true, (s.setConns name l).setCaller k (.checking name c))
      | .out, [] =>
          if isDefined then some (true, s.setCaller k (.connecting name)) else some (false, s)
      | _, _ => none
  | .check k c pinged init =>
      match s.callers k, s.heap c with
      | .checking name c', some m => if c' = c then some (s.look k name c m pinged init) else none
      | _, _ => none
  | .connect k init =>
      match s.callers k with
      | .connecting name =>
          let s' := { s with made := s.made + 1 }
          if (MySQL.new.connect init).1 then
            some (true, s'.hand k name s.made (MySQL.new.connect init).2)
          else some (false, s'.setCaller k .out)
      | _ => none
  | .use k m =>
      match s.callers k with
      | .holding _ c => some (true, s.setHeap c (some m))
      | _ => none
  | .free k c =>
      match s.callers k, s.heap c with
      | .holding name c', some m =>
          if c' = c then some (true, (s.freeMySQL name c m).setCaller k .out) else none
      | _, _ => none
  | .checkConnection name sec =>
      let s' := s.setConns name ((s.m_conns name).filter fun c => !s.expired sec c)
      some (true, { s' with heap := fun c =>
        if (s.m_conns name).contains c && s.expired sec c then none else s.heap c })
  | .advance now => some (true, { s with now := now })

end MySQLManager

def mysqlManager : System MySQLManager (PoolEvent × Bool) where
  init s := ∃ now, s = ⟨fun _ => [], fun _ => none, 0, fun _ => .out, now⟩
  step s e s' := s.exec e.1 = some (e.2, s')

namespace MySQLManager

/-- The connection that a failed reconnection leaves behind. -/
def lostBy : PoolEvent × Bool → Option Nat
  | (.check _ c _ _, false) => some c
  | _ => none

def Lost (es : List (PoolEvent × Bool)) (c : Nat) : Prop := ∃ e ∈ es, lostBy e = some c

inductive Place
  | idle (name : String)
  | had (k : Nat)
  | lost

def At (es : List (PoolEvent × Bool)) (s : MySQLManager) (c : Nat) : Place → Prop
  | .idle name => c ∈ s.m_conns name
  | .had k => (s.callers k).conn = some c
  | .lost => Lost es c

variable {es : List (PoolEvent × Bool)} {e : PoolEvent × Bool} {s s' : MySQLManager}
  {k c : Nat} {name : String} {v : Caller} {m : MySQL}

theorem lost_snoc : Lost (es ++ [e]) c ↔ Lost es c ∨ lostBy e = some c := by
  simp [Lost, or_and_right, exists_or]

/-- Every connection that exists is at one place, and only those are. -/
structure Inv (es : List (PoolEvent × Bool)) (s : MySQLManager) : Prop where
  nodup : ∀ name, (s.m_conns name).Nodup
  unique : ∀ c p q, At es s c p → At es s c q → p = q
  exists_iff : ∀ c, (s.heap c).isSome = true ↔ ∃ p, At es s c p
  fresh : ∀ c, s.made ≤ c → s.heap c = none

/-- A connection stays where it is, or moves to a place or none. -/
def Moved (es : List (PoolEvent × Bool)) (s : MySQLManager) (e : PoolEvent × Bool)
    (s' : MySQLManager) (c : Nat) : Prop :=
  ((∀ p, At (es ++ [e]) s' c p ↔ At es s c p) ∧ (s'.heap c).isSome = (s.heap c).isSome) ∨
    ∃ r : Option Place, (∀ p, At (es ++ [e]) s' c p ↔ r = some p) ∧
      ((s'.heap c).isSome = true ↔ r.isSome = true)

theorem Inv.moved (h : Inv es s) (hnodup : ∀ name, (s'.m_conns name).Nodup)
    (hmade : ∀ c, s'.made ≤ c → s'.heap c = none) (hmoved : ∀ c, Moved es s e s' c) :
    Inv (es ++ [e]) s' where
  nodup := hnodup
  unique c p q hp hq := by
    rcases hmoved c with ⟨hat, -⟩ | ⟨r, hat, -⟩
    · exact h.unique c p q ((hat p).mp hp) ((hat q).mp hq)
    · exact Option.some_inj.mp (((hat p).mp hp).symm.trans ((hat q).mp hq))
  exists_iff c := by
    rcases hmoved c with ⟨hat, hheap⟩ | ⟨r, hat, hheap⟩
    · rw [hheap, h.exists_iff c]
      exact exists_congr fun p => (hat p).symm
    · rw [hheap, Option.isSome_iff_exists]
      exact exists_congr fun p => (hat p).symm
  fresh := hmade

/-- A step that moves nothing. -/
theorem Inv.same (h : Inv es s) (hconns : s'.m_conns = s.m_conns)
    (hcallers : ∀ k, (s'.callers k).conn = (s.callers k).conn) (hlost : lostBy e = none)
    (hheap : ∀ c, (s'.heap c).isSome = (s.heap c).isSome) (hmade : s.made ≤ s'.made) :
    Inv (es ++ [e]) s' := by
  refine h.moved (by rw [hconns]; exact h.nodup) ?_ fun c => Or.inl ⟨?_, hheap c⟩
  · intro c hc
    rw [← Option.not_isSome_iff_eq_none, hheap c, h.fresh c (Nat.le_trans hmade hc)]
    exact Bool.false_ne_true
  · intro p
    cases p with
    | idle name => exact iff_of_eq (congrArg (c ∈ · name) hconns)
    | had k => exact iff_of_eq (congrArg (· = some c) (hcallers k))
    | lost => exact lost_snoc.trans (or_iff_left (by rw [hlost]; exact nofun))

/-- A step that moves one connection. -/
theorem Inv.move (h : Inv es s) {r : Option Place}
    (hcallers : s'.callers = Function.update s.callers k v)
    (hk : ∀ d, (s.callers k).conn = some d → d = c) (hv : ∀ d, v.conn = some d → d = c)
    (hidle : ∀ name d, d ≠ c → (d ∈ s'.m_conns name ↔ d ∈ s.m_conns name))
    (hlost : ∀ d, lostBy e = some d → d = c) (hheap : ∀ d, d ≠ c → s'.heap d = s.heap d)
    (hnodup : ∀ name, (s'.m_conns name).Nodup) (hmade : s.made ≤ s'.made) (hc : c < s'.made)
    (hat : ∀ p, At (es ++ [e]) s' c p ↔ r = some p)
    (hto : (s'.heap c).isSome = true ↔ r.isSome = true) : Inv (es ++ [e]) s' := by
  refine h.moved hnodup ?_ fun d => ?_
  · intro d hd
    rw [hheap d (by omega), h.fresh d (Nat.le_trans hmade hd)]
  · by_cases hd : d = c
    · subst hd
      exact Or.inr ⟨r, hat, hto⟩
    · refine Or.inl ⟨?_, by rw [hheap d hd]⟩
      intro p
      cases p with
      | idle name => exact hidle name d hd
      | had k' =>
          change (s'.callers k').conn = some d ↔ (s.callers k').conn = some d
          rw [hcallers]
          by_cases hk' : k' = k
          · subst hk'
            rw [Function.update_self]
            exact iff_of_false (fun hm => hd (hv d hm)) fun hm => hd (hk d hm)
          · rw [Function.update_of_ne hk']
      | lost => exact lost_snoc.trans (or_iff_left fun hl => hd (hlost d hl))

theorem Inv.elsewhere (h : Inv es s) {p q : Place} (hp : At es s c p) (hne : q ≠ p) :
    ¬At es s c q :=
  fun hq => hne (h.unique c q p hq hp)

theorem Inv.lt_made (h : Inv es s) {p : Place} (hp : At es s c p) : c < s.made := by
  by_contra hge
  have hsome := (h.exists_iff c).mpr ⟨p, hp⟩
  rw [h.fresh c (Nat.le_of_not_lt hge)] at hsome
  cases hsome

/-- What a caller has after a step of its own. -/
theorem had_update (hother : ∀ k', k' ≠ k → (s.callers k').conn ≠ some c) (k' : Nat) :
    (Function.update s.callers k v k').conn = some c ↔ k' = k ∧ v.conn = some c := by
  by_cases hk' : k' = k
  · subst hk'
    rw [Function.update_self]
    exact (and_iff_right rfl).symm
  · rw [Function.update_of_ne hk']
    exact iff_of_false (hother k' hk') fun hm => hk' hm.1

/-- A step of a caller that has the same as before. -/
theorem conn_update (h : v.conn = (s.callers k).conn) (k' : Nat) :
    (Function.update s.callers k v k').conn = (s.callers k').conn := by
  by_cases hk' : k' = k
  · subst hk'
    rw [Function.update_self, h]
  · rw [Function.update_of_ne hk']

theorem isSome_update (h : (s.heap c).isSome = true) (d : Nat) :
    (Function.update s.heap c (some m) d).isSome = (s.heap d).isSome := by
  by_cases hd : d = c
  · subst hd
    rw [Function.update_self, h]
    rfl
  · rw [Function.update_of_ne hd]

theorem nodup_update {f : String → List Nat} {l : List Nat} (h : ∀ name, (f name).Nodup)
    (hl : l.Nodup) (name' : String) : (Function.update f name l name').Nodup := by
  by_cases hn : name' = name
  · subst hn
    rw [Function.update_self]
    exact hl
  · rw [Function.update_of_ne hn]
    exact h name'

/-! ## Steps -/

/-- The caller gets a connection that no caller has and that is not lost. -/
theorem Inv.give (h : Inv es s) (hcallers : s'.callers = Function.update s.callers k v)
    (hk : (s.callers k).conn = none) (hv : v.conn = some c)
    (hfree : ∀ k', ¬At es s c (.had k')) (hthere : ¬At es s c .lost) (hlost : lostBy e = none)
    (hidle : ∀ name d, d ≠ c → (d ∈ s'.m_conns name ↔ d ∈ s.m_conns name))
    (hidle' : ∀ name, c ∉ s'.m_conns name) (hheap : ∀ d, d ≠ c → s'.heap d = s.heap d)
    (hnodup : ∀ name, (s'.m_conns name).Nodup) (hmade : s.made ≤ s'.made) (hc : c < s'.made)
    (hsome : (s'.heap c).isSome = true) : Inv (es ++ [e]) s' := by
  refine h.move (r := some (.had k)) hcallers (by rw [hk]; exact nofun) ?_ hidle
    (by rw [hlost]; exact nofun) hheap hnodup hmade hc ?_ (iff_of_true hsome rfl)
  · intro d hd
    exact Option.some_inj.mp (hd.symm.trans hv)
  · intro p
    cases p with
    | idle name => exact iff_of_false (hidle' name) nofun
    | had k' =>
        rw [At, hcallers, had_update fun k'' _ => hfree k'']
        refine ⟨fun hm => by rw [hm.1], fun heq => ?_⟩
        cases heq
        exact ⟨rfl, hv⟩
    | lost =>
        refine iff_of_false (fun hl => ?_) nofun
        rcases lost_snoc.mp hl with hl | hl
        · exact hthere hl
        · rw [hlost] at hl
          cases hl

theorem Inv.take {l : List Nat} (h : Inv es s) (hout : (s.callers k).conn = none)
    (hconns : s.m_conns name = c :: l) (hlost : lostBy e = none) :
    Inv (es ++ [e]) ((s.setConns name l).setCaller k (.checking name c)) := by
  have hp : At es s c (.idle name) := by
    rw [At, hconns]
    exact List.mem_cons_self
  have hnd := h.nodup name
  rw [hconns, List.nodup_cons] at hnd
  refine h.give (c := c) rfl hout rfl (fun k' => h.elsewhere (q := .had k') hp nofun)
    (h.elsewhere (q := .lost) hp nofun) hlost ?_ ?_ (fun _ _ => rfl)
    (nodup_update h.nodup hnd.2) (Nat.le_refl _) (h.lt_made hp) ((h.exists_iff c).mpr ⟨_, hp⟩)
  · intro name' d hd
    change d ∈ Function.update s.m_conns name l name' ↔ _
    by_cases hn : name' = name
    · subst hn
      rw [Function.update_self, hconns, List.mem_cons, or_iff_right hd]
    · rw [Function.update_of_ne hn]
  · intro name'
    change c ∉ Function.update s.m_conns name l name'
    by_cases hn : name' = name
    · subst hn
      rw [Function.update_self]
      exact hnd.1
    · rw [Function.update_of_ne hn]
      exact h.elsewhere hp fun heq => hn (Place.idle.inj heq)

/-- The caller drops its connection, which is lost, put back, or deleted. -/
theorem Inv.drop (h : Inv es s) {r : Option Place} (hp : At es s c (.had k))
    (hcallers : s'.callers = Function.update s.callers k .out) (hto : ∀ k', r ≠ some (.had k'))
    (hidle : ∀ name d, d ≠ c → (d ∈ s'.m_conns name ↔ d ∈ s.m_conns name))
    (hidle' : ∀ name, c ∈ s'.m_conns name ↔ r = some (.idle name))
    (hlost : ∀ d, lostBy e = some d ↔ d = c ∧ r = some .lost)
    (hheap : ∀ d, d ≠ c → s'.heap d = s.heap d) (hnodup : ∀ name, (s'.m_conns name).Nodup)
    (hmade : s'.made = s.made) (hsome : (s'.heap c).isSome = true ↔ r.isSome = true) :
    Inv (es ++ [e]) s' := by
  have hmine : (s.callers k).conn = some c := hp
  refine h.move (v := .out) hcallers (fun d hd => Option.some_inj.mp (hd.symm.trans hmine)) nofun
    hidle (fun d hd => ((hlost d).mp hd).1) hheap hnodup (Nat.le_of_eq hmade.symm)
    (hmade ▸ h.lt_made hp) ?_ hsome
  intro p
  cases p with
  | idle name => exact hidle' name
  | had k' =>
      refine iff_of_false (fun hm => ?_) (hto k')
      have hhad : (s'.callers k').conn = some c := hm
      rw [hcallers, had_update fun k'' hne => h.elsewhere (q := .had k'') hp
        fun heq => hne (Place.had.inj heq)] at hhad
      cases hhad.2
  | lost =>
      have hno : ¬Lost es c := h.elsewhere (q := .lost) hp nofun
      rw [At, lost_snoc, or_iff_right hno, hlost]
      exact and_iff_right rfl

theorem Inv.hand (h : Inv es s) (hk : (s.callers k).conn = some c) (hlost : lostBy e = none) :
    Inv (es ++ [e]) (s.hand k name c m) :=
  h.same rfl (conn_update hk.symm) hlost (isSome_update ((h.exists_iff c).mpr ⟨.had k, hk⟩))
    (Nat.le_refl _)

theorem Inv.lose (h : Inv es s) (hk : (s.callers k).conn = some c)
    (hlost : lostBy e = some c) :
    Inv (es ++ [e]) ((s.setHeap c (some m)).setCaller k .out) := by
  have hp : At es s c (.had k) := hk
  refine h.drop (r := some .lost) hp rfl (fun _ => nofun) (fun _ _ _ => Iff.rfl)
    (fun name => iff_of_false (h.elsewhere (q := .idle name) hp nofun) nofun) ?_
    (fun d hd => Function.update_of_ne hd ..) h.nodup rfl ?_
  · intro d
    rw [hlost, Option.some_inj]
    exact ⟨fun heq => ⟨heq.symm, rfl⟩, fun hd => hd.1.symm⟩
  · change (Function.update s.heap c _ c).isSome = true ↔ _
    rw [Function.update_self]
    exact Iff.rfl

theorem Inv.look {pinged r : Bool} {init : Option Int32} (h : Inv es s)
    (hk : (s.callers k).conn = some c) (hlook : s.look k name c m pinged init = (r, s')) :
    Inv (es ++ [(.check k c pinged init, r)]) s' := by
  rw [MySQLManager.look] at hlook
  split at hlook
  · cases hlook
    exact h.hand hk rfl
  · split at hlook
    · cases hlook
      exact h.hand hk rfl
    · split at hlook
      · cases hlook
        exact h.hand hk rfl
      · cases hlook
        exact h.lose hk rfl

theorem Inv.connected (h : Inv es s) (hk : (s.callers k).conn = none) (hlost : lostBy e = none) :
    Inv (es ++ [e]) ({ s with made := s.made + 1 }.hand k name s.made m) := by
  have hnone : ∀ p, ¬At es s s.made p := fun p hp => Nat.lt_irrefl _ (h.lt_made hp)
  refine h.give (c := s.made) rfl hk rfl (fun k' => hnone (.had k')) (hnone .lost) hlost
    (fun _ _ _ => Iff.rfl) (fun name' => hnone (.idle name'))
    (fun d hd => Function.update_of_ne hd ..) h.nodup (Nat.le_succ _) (Nat.lt_succ_self _) ?_
  change (Function.update s.heap s.made _ s.made).isSome = true
  rw [Function.update_self]
  rfl

theorem Inv.free (h : Inv es s) (hk : (s.callers k).conn = some c) (hlost : lostBy e = none) :
    Inv (es ++ [e]) ((s.freeMySQL name c m).setCaller k .out) := by
  have hp : At es s c (.had k) := hk
  have hnot : ∀ name, c ∉ s.m_conns name := fun name => h.elsewhere (q := .idle name) hp nofun
  have hnone : ∀ d, ¬lostBy e = some d := by
    rw [hlost]
    exact fun _ => nofun
  rw [freeMySQL]
  split
  · -- it is put back
    refine h.drop (r := some (.idle name)) hp rfl (fun _ => nofun) ?_ ?_
      (fun d => iff_of_false (hnone d) fun hd => nomatch hd.2) (fun _ _ => rfl) ?_ rfl
      (iff_of_true ((h.exists_iff c).mpr ⟨_, hp⟩) rfl)
    · intro name' d hd
      change d ∈ Function.update s.m_conns name _ name' ↔ _
      by_cases hn : name' = name
      · subst hn
        rw [Function.update_self, List.mem_append, List.mem_singleton, or_iff_left hd]
      · rw [Function.update_of_ne hn]
    · intro name'
      change c ∈ Function.update s.m_conns name _ name' ↔ _
      by_cases hn : name' = name
      · subst hn
        rw [Function.update_self]
        exact iff_of_true (List.mem_append_right _ (List.mem_singleton_self c)) rfl
      · rw [Function.update_of_ne hn]
        exact iff_of_false (hnot name') fun heq => hn (by cases heq; rfl)
    · exact nodup_update h.nodup (List.nodup_append_comm.mp
        (List.nodup_cons.mpr ⟨hnot name, h.nodup name⟩ : ([c] ++ s.m_conns name).Nodup))
  · -- it is deleted
    refine h.drop (r := none) hp rfl (fun _ => nofun) (fun _ _ _ => Iff.rfl)
      (fun name => iff_of_false (hnot name) nofun)
      (fun d => iff_of_false (hnone d) fun hd => nomatch hd.2)
      (fun d hd => Function.update_of_ne hd ..) h.nodup rfl ?_
    change (Function.update s.heap c none c).isSome = true ↔ _
    rw [Function.update_self]
    exact Iff.rfl

theorem Inv.checkConnection {sec : Int} (h : Inv es s) (hlost : lostBy e = none) :
    Inv (es ++ [e]) { s.setConns name ((s.m_conns name).filter fun c => !s.expired sec c) with
      heap := fun c =>
        if (s.m_conns name).contains c && s.expired sec c then none else s.heap c } := by
  refine h.moved (nodup_update h.nodup ((h.nodup name).filter _)) ?_ fun c => ?_
  · intro c hc
    dsimp only
    split
    · rfl
    · exact h.fresh c hc
  · have hl : Lost (es ++ [e]) c ↔ Lost es c :=
      lost_snoc.trans (or_iff_left (by rw [hlost]; exact nofun))
    by_cases hdead : c ∈ s.m_conns name ∧ s.expired sec c = true
    · have hp : At es s c (.idle name) := hdead.1
      refine Or.inr ⟨none, fun p => iff_of_false ?_ nofun, ?_⟩
      · cases p with
        | idle name' =>
            change c ∉ Function.update s.m_conns name _ name'
            by_cases hn : name' = name
            · subst hn
              rw [Function.update_self, List.mem_filter, hdead.2]
              exact fun hm => nomatch hm.2
            · rw [Function.update_of_ne hn]
              exact h.elsewhere hp fun heq => hn (Place.idle.inj heq)
        | had k => exact h.elsewhere (q := .had k) hp nofun
        | lost => exact fun hm => h.elsewhere (q := .lost) hp nofun (hl.mp hm)
      · dsimp only
        rw [if_pos (by simp [hdead])]
        exact Iff.rfl
    · refine Or.inl ⟨fun p => ?_, ?_⟩
      · cases p with
        | idle name' =>
            change c ∈ Function.update s.m_conns name _ name' ↔ c ∈ s.m_conns name'
            by_cases hn : name' = name
            · subst hn
              rw [Function.update_self, List.mem_filter]
              exact and_iff_left_of_imp fun hm => by simpa [hm] using hdead
            · rw [Function.update_of_ne hn]
        | had k => exact Iff.rfl
        | lost => exact hl
      · dsimp only
        rw [if_neg (by simpa using hdead)]

theorem Inv.exec {op : PoolEvent} {r : Bool} (h : Inv es s) (hexec : s.exec op = some (r, s')) :
    Inv (es ++ [(op, r)]) s' := by
  cases op with
  | get k name isDefined =>
      simp only [MySQLManager.exec] at hexec
      split at hexec
      · rename_i hk hconns
        cases hexec
        exact h.take (by rw [hk]; rfl) hconns rfl
      · rename_i hk _
        split at hexec
        · cases hexec
          exact h.same rfl (conn_update (by rw [hk]; rfl)) rfl (fun _ => rfl) (Nat.le_refl _)
        · cases hexec
          exact h.same rfl (fun _ => rfl) rfl (fun _ => rfl) (Nat.le_refl _)
      · cases hexec
  | check k c pinged init =>
      simp only [MySQLManager.exec] at hexec
      split at hexec
      · rename_i hk _
        split at hexec
        · rename_i hc
          subst hc
          exact h.look (by rw [hk]; rfl) (Option.some_inj.mp hexec)
        · cases hexec
      · cases hexec
  | connect k init =>
      simp only [MySQLManager.exec] at hexec
      split at hexec
      · rename_i name hk
        split at hexec
        · cases hexec
          exact h.connected (by rw [hk]; rfl) rfl
        · cases hexec
          exact h.same rfl (conn_update (by rw [hk]; rfl)) rfl (fun _ => rfl) (Nat.le_succ _)
      · cases hexec
  | use k m =>
      simp only [MySQLManager.exec] at hexec
      split at hexec
      · rename_i name c hk
        cases hexec
        have hp : At es s c (.had k) := by
          rw [At, hk]
          rfl
        exact h.same rfl (fun _ => rfl) rfl (isSome_update ((h.exists_iff c).mpr ⟨_, hp⟩))
          (Nat.le_refl _)
      · cases hexec
  | free k c =>
      simp only [MySQLManager.exec] at hexec
      split at hexec
      · rename_i hk _
        split at hexec
        · rename_i hc
          subst hc
          cases hexec
          exact h.free (by rw [hk]; rfl) rfl
        · cases hexec
      · cases hexec
  | checkConnection name sec =>
      cases hexec
      exact h.checkConnection rfl
  | advance now =>
      cases hexec
      exact h.same rfl (fun _ => rfl) rfl (fun _ => rfl) (Nat.le_refl _)

theorem Inv.of_run (h : mysqlManager.Run es s) : Inv es s := by
  refine h.history (I := Inv) ?_ ?_
  · rintro s ⟨now, rfl⟩
    have hnone : ∀ c p, ¬At [] ⟨fun _ => [], fun _ => none, 0, fun _ => .out, now⟩ c p := by
      rintro c (_ | _ | _)
      · exact List.not_mem_nil
      · exact nofun
      · rintro ⟨e, he, -⟩
        cases he
    exact ⟨fun _ => List.nodup_nil, fun c p q hp => absurd hp (hnone c p),
      fun c => iff_of_false nofun fun ⟨p, hp⟩ => hnone c p hp, fun _ _ => rfl⟩
  · rintro es s ⟨op, r⟩ s' hinv hexec
    exact hinv.exec hexec

/-- No two callers have the same connection. One that is kept is kept once, under one name, and no
caller has it. The connections that exist are those that are kept or had, and those that a failed
reconnection has left behind, which nobody gets any more. -/
theorem run_pool (h : mysqlManager.Run es s) :
    (∀ k k' c, (s.callers k).conn = some c → (s.callers k').conn = some c → k = k') ∧
    (∀ name c, c ∈ s.m_conns name → (s.m_conns name).count c = 1 ∧
      (∀ name', c ∈ s.m_conns name' → name' = name) ∧ ∀ k, (s.callers k).conn ≠ some c) ∧
    (∀ c, (s.heap c).isSome = true ↔ (∃ name, c ∈ s.m_conns name) ∨
      (∃ k, (s.callers k).conn = some c) ∨ Lost es c) ∧
    ∀ c, Lost es c → (∀ name, c ∉ s.m_conns name) ∧ ∀ k, (s.callers k).conn ≠ some c := by
  have hinv := Inv.of_run h
  refine ⟨?_, ?_, ?_, ?_⟩
  · intro k k' c hk hk'
    exact Place.had.inj (hinv.unique c (.had k) (.had k') hk hk')
  · intro name c hc
    refine ⟨List.count_eq_one_of_mem (hinv.nodup name) hc, ?_, ?_⟩
    · intro name' hc'
      exact Place.idle.inj (hinv.unique c (.idle name') (.idle name) hc' hc)
    · exact fun k => hinv.elsewhere (p := .idle name) (q := .had k) hc nofun
  · intro c
    refine (hinv.exists_iff c).trans ⟨?_, ?_⟩
    · rintro ⟨_ | _ | _, hp⟩
      · exact .inl ⟨_, hp⟩
      · exact .inr (.inl ⟨_, hp⟩)
      · exact .inr (.inr hp)
    · rintro (⟨name, hp⟩ | ⟨k, hp⟩ | hp)
      · exact ⟨.idle name, hp⟩
      · exact ⟨.had k, hp⟩
      · exact ⟨.lost, hp⟩
  · intro c hc
    exact ⟨fun name => hinv.elsewhere (p := .lost) (q := .idle name) hc nofun,
      fun k => hinv.elsewhere (p := .lost) (q := .had k) hc nofun⟩

theorem run_pool_connected : ∃ s, mysqlManager.Run
      [(.get 0 "im" true, true), (.connect 0 (some 5), true)] s ∧
    ((s.heap 0).isSome = true ↔ (∃ name, 0 ∈ s.m_conns name) ∨
      (∃ k, (s.callers k).conn = some 0) ∨
      Lost [(.get 0 "im" true, true), (.connect 0 (some 5), true)] 0) := by
  have h0 : mysqlManager.Run [] _ := .start ⟨0, rfl⟩
  have h1 : mysqlManager.Run [(.get 0 "im" true, true)] _ := h0.snoc rfl
  have h2 : mysqlManager.Run [(.get 0 "im" true, true), (.connect 0 (some 5), true)] _ :=
    h1.snoc rfl
  exact ⟨_, h2, (run_pool h2).2.2.1 0⟩

end MySQLManager

end CIM.db
