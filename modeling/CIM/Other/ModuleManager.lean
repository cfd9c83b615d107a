import CIM.Lib.System
import Mathlib.Data.List.AList
import Mathlib.Data.UInt

/-!
# `ModuleManager`

The modules by their ids, and once more under their types. `add` deletes the module that has the id
and inserts the new one in a second critical section, so that other calls come in between.
-/
namespace CIM

open Transition

/-- A module is known by its address. -/
structure Module where
  address : Nat
  m_name : String
  m_version : String
  m_type : UInt32
  deriving DecidableEq

namespace Module

def getId (m : Module) : String := m.m_name ++ "/" ++ m.m_version

end Module

abbrev Modules : Type := AList fun _ : String => Module

structure ModuleManager where
  m_modules : Modules
  m_type2Modules : AList fun _ : UInt32 => Modules

namespace ModuleManager

/-- `m_type2Modules[type]`, which is made where it is missing. -/
def ofType (s : ModuleManager) (type : UInt32) : Modules := (s.m_type2Modules.lookup type).getD ∅

/-- The second half of `add`. -/
def insert (s : ModuleManager) (m : Module) : ModuleManager where
  m_modules := s.m_modules.insert m.getId m
  m_type2Modules := s.m_type2Modules.insert m.m_type ((s.ofType m.m_type).insert m.getId m)

/-- What is left of a type; a type without modules is erased as well. -/
def setType (s : ModuleManager) (type : UInt32) (ms : Modules) : AList fun _ : UInt32 => Modules :=
  if ms.entries.isEmpty then s.m_type2Modules.erase type else s.m_type2Modules.insert type ms

/-- With the module `onUnload` is called for, if any. -/
def del (s : ModuleManager) (name : String) : Option Module × ModuleManager :=
  match s.m_modules.lookup name with
  | none => (none, s)
  | some module =>
      (some module, ⟨s.m_modules.erase name,
        s.setType module.m_type ((s.ofType module.m_type).erase module.getId)⟩)

def listByType (s : ModuleManager) (type : UInt32) : List Module :=
  (s.ofType type).entries.map Sigma.snd

def listAll (s : ModuleManager) : List Module := s.m_modules.entries.map Sigma.snd

end ModuleManager

/-- The critical sections of `add`, `del` and `delAll`. -/
inductive ModuleOp
  | insert (m : Module)
  | del (name : String)
  deriving DecidableEq

namespace ModuleManager

def exec (s : ModuleManager) : ModuleOp → Option Module × ModuleManager
  | .insert m => (none, s.insert m)
  | .del name => s.del name

/-- The id of the module is not taken, as `del` left it. -/
def Free (s : ModuleManager) : ModuleOp → Prop
  | .insert m => s.m_modules.lookup m.getId = none
  | .del _ => True

end ModuleManager

/-- Any order of the critical sections, with what was unloaded. -/
def modules : System ModuleManager (ModuleOp × Option Module) where
  init s := s = ⟨∅, ∅⟩
  step s e s' := s.exec e.1 = (e.2, s')

namespace ModuleManager

variable {s s' : ModuleManager} {m m' : Module} {es : List (ModuleOp × Option Module)}
  {type : UInt32} {id name : String} {e : ModuleOp × Option Module}

/-- The module that is listed under a type and an id. -/
def find (s : ModuleManager) (type : UInt32) (id : String) : Option Module :=
  (s.ofType type).lookup id

def added (es : List (ModuleOp × Option Module)) (m : Module) : Nat :=
  es.countP fun e => e.1 = .insert m

def unloaded (es : List (ModuleOp × Option Module)) (m : Module) : Nat :=
  es.countP fun e => e.2 = some m

structure Consistent (es : List (ModuleOp × Option Module)) (s : ModuleManager) : Prop where
  ids : ∀ id m, s.m_modules.lookup id = some m → m.getId = id
  types : ∀ type id m, s.find type id = some m ↔ s.m_modules.lookup id = some m ∧ m.m_type = type
  listed : ∀ type ms, s.m_type2Modules.lookup type = some ms → ms.entries ≠ []
  balance : ∀ m, added es m =
    unloaded es m + if s.m_modules.lookup m.getId = some m then 1 else 0

theorem find_insert : (s.insert m).find type id =
    if type = m.m_type ∧ id = m.getId then some m else s.find type id := by
  unfold find insert ofType
  by_cases ht : type = m.m_type
  · subst ht
    rw [AList.lookup_insert, Option.getD_some]
    by_cases hid : id = m.getId
    · rw [hid, AList.lookup_insert, if_pos ⟨rfl, rfl⟩]
    · rw [AList.lookup_insert_ne hid, if_neg fun h => hid h.2]
  · rw [AList.lookup_insert_ne ht, if_neg fun h => ht h.1]

theorem lookup_insert : (s.insert m).m_modules.lookup id =
    if id = m.getId then some m else s.m_modules.lookup id := by
  by_cases hid : id = m.getId
  · rw [hid, if_pos rfl]
    exact AList.lookup_insert _
  · rw [if_neg hid]
    exact AList.lookup_insert_ne hid

theorem lookup_setType_self (s : ModuleManager) (type : UInt32) (ms : Modules) :
    ((s.setType type ms).lookup type).getD ∅ = ms := by
  unfold setType
  split
  · rename_i hempty
    rw [AList.lookup_erase]
    exact AList.ext (List.isEmpty_iff.mp hempty).symm
  · rw [AList.lookup_insert]
    rfl

theorem lookup_setType_ne {t : UInt32} (h : t ≠ type) (ms : Modules) :
    (s.setType type ms).lookup t = s.m_type2Modules.lookup t := by
  unfold setType
  split
  · exact AList.lookup_erase_ne h
  · exact AList.lookup_insert_ne h

theorem del_some (h : s.m_modules.lookup name = some m) : s.del name =
    (some m, ⟨s.m_modules.erase name,
      s.setType m.m_type ((s.ofType m.m_type).erase m.getId)⟩) := by
  simp only [del, h]

theorem find_del (h : s.m_modules.lookup name = some m) : (s.del name).2.find type id =
    if type = m.m_type ∧ id = m.getId then none else s.find type id := by
  rw [del_some h]
  by_cases ht : type = m.m_type
  · subst ht
    change (((s.setType m.m_type ((s.ofType m.m_type).erase m.getId)).lookup m.m_type).getD
      ∅).lookup id = _
    rw [lookup_setType_self]
    by_cases hid : id = m.getId
    · rw [hid, AList.lookup_erase, if_pos ⟨rfl, rfl⟩]
    · rw [AList.lookup_erase_ne hid, if_neg fun hc => hid hc.2]
      rfl
  · rw [if_neg fun hc => ht hc.1]
    change (((s.setType m.m_type _).lookup type).getD ∅).lookup id = _
    rw [lookup_setType_ne ht]
    rfl

theorem lookup_del (h : s.m_modules.lookup name = some m) : (s.del name).2.m_modules.lookup id =
    if id = name then none else s.m_modules.lookup id := by
  rw [del_some h]
  by_cases hid : id = name
  · rw [hid, if_pos rfl]
    exact AList.lookup_erase _ _
  · rw [if_neg hid]
    exact AList.lookup_erase_ne hid

/-! ## Steps -/

theorem added_snoc (es : List (ModuleOp × Option Module)) (op : ModuleOp) (out : Option Module)
    (m : Module) : added (es ++ [(op, out)]) m = added es m + if op = .insert m then 1 else 0 := by
  simp [added, List.countP_append, List.countP_singleton]

theorem unloaded_snoc (es : List (ModuleOp × Option Module)) (op : ModuleOp)
    (out : Option Module) (m : Module) :
    unloaded (es ++ [(op, out)]) m = unloaded es m + if out = some m then 1 else 0 := by
  simp [unloaded, List.countP_append, List.countP_singleton]

theorem Consistent.insert (h : Consistent es s) (hfree : s.m_modules.lookup m.getId = none) :
    Consistent (es ++ [(.insert m, none)]) (s.insert m) where
  ids id m' hm' := by
    rw [lookup_insert] at hm'
    split at hm'
    · rename_i hid
      cases hm'
      exact hid.symm
    · exact h.ids id m' hm'
  types type id m' := by
    rw [find_insert, lookup_insert]
    by_cases hid : id = m.getId
    · subst hid
      rw [if_pos rfl]
      by_cases ht : type = m.m_type
      · rw [if_pos ⟨ht, rfl⟩, Option.some.injEq]
        constructor
        · rintro rfl
          exact ⟨rfl, ht.symm⟩
        · exact And.left
      · rw [if_neg fun hc => ht hc.1, h.types, hfree]
        constructor
        · rintro ⟨⟨⟩, -⟩
        · rintro ⟨hm, rfl⟩
          cases hm
          exact absurd rfl ht
    · rw [if_neg hid, if_neg fun hc => hid hc.2]
      exact h.types type id m'
  listed type ms hms := by
    change (s.m_type2Modules.insert m.m_type _).lookup type = some ms at hms
    by_cases ht : type = m.m_type
    · subst ht
      rw [AList.lookup_insert] at hms
      cases hms
      intro hnil
      have hmem : m.getId ∈ (s.ofType m.m_type).insert m.getId m :=
        (AList.mem_insert _).mpr (.inl rfl)
      rw [AList.mem_keys, AList.keys, hnil] at hmem
      cases hmem
    · rw [AList.lookup_insert_ne ht] at hms
      exact h.listed type ms hms
  balance m' := by
    have hb := h.balance m'
    rw [added_snoc, unloaded_snoc, lookup_insert]
    by_cases hm : m' = m
    · subst hm
      rw [hfree] at hb
      simpa using hb
    · by_cases hid : m'.getId = m.getId
      · rw [hid, hfree] at hb
        simpa [hid, hm, Ne.symm hm] using hb
      · simpa [hid, hm, Ne.symm hm] using hb

theorem Consistent.del (h : Consistent es s) (name : String) :
    Consistent (es ++ [(.del name, (s.del name).1)]) (s.del name).2 := by
  cases hm : s.m_modules.lookup name with
  | none =>
      have hdel : s.del name = (none, s) := by simp only [ModuleManager.del, hm]
      rw [hdel]
      refine ⟨h.ids, h.types, h.listed, fun m' => ?_⟩
      rw [added_snoc, unloaded_snoc]
      simpa using h.balance m'
  | some m =>
      have hid : m.getId = name := h.ids name m hm
      refine ⟨fun id m' hm' => ?_, fun type id m' => ?_, fun type ms hms => ?_, fun m' => ?_⟩
      · rw [lookup_del hm] at hm'
        split at hm'
        · cases hm'
        · exact h.ids id m' hm'
      · rw [find_del hm, lookup_del hm]
        by_cases hi : id = name
        · subst hi
          rw [if_pos rfl]
          refine iff_of_false ?_ (by rintro ⟨⟨⟩, -⟩)
          split
          · rintro ⟨⟩
          · rename_i hno
            rw [h.types, hm]
            rintro ⟨hm', rfl⟩
            cases hm'
            exact hno ⟨rfl, hid.symm⟩
        · rw [if_neg hi, if_neg fun hc => hi (hc.2.trans hid)]
          exact h.types type id m'
      · rw [del_some hm] at hms
        change (s.setType m.m_type _).lookup type = some ms at hms
        by_cases ht : type = m.m_type
        · subst ht
          unfold setType at hms
          split at hms
          · rw [AList.lookup_erase] at hms
            cases hms
          · rename_i hne
            rw [AList.lookup_insert] at hms
            cases hms
            exact fun hnil => hne (List.isEmpty_iff.mpr hnil)
        · rw [lookup_setType_ne ht] at hms
          exact h.listed type ms hms
      · have hb := h.balance m'
        rw [added_snoc, unloaded_snoc, lookup_del hm, del_some hm]
        by_cases hmm : m' = m
        · subst hmm
          rw [hid, hm] at hb
          simpa [hid] using hb
        · by_cases hi : m'.getId = name
          · rw [hi, hm] at hb
            simpa [hi, Ne.symm hmm] using hb
          · simpa [hi, Ne.symm hmm] using hb

/-- A module that is put over another one leaves that one without its `onUnload`. -/
theorem Consistent.exec_iff (h : Consistent es s) (op : ModuleOp) :
    Consistent (es ++ [(op, (s.exec op).1)]) (s.exec op).2 ↔ s.Free op := by
  cases op with
  | del name => exact iff_of_true (h.del name) trivial
  | insert m =>
      refine ⟨fun h' => ?_, h.insert⟩
      by_contra htaken
      obtain ⟨m', hm'⟩ := Option.ne_none_iff_exists'.mp htaken
      have hid : m'.getId = m.getId := h.ids _ m' hm'
      have hb := h.balance m'
      have hb' := h'.balance m'
      change added _ m' = unloaded _ m' + if (s.insert m).m_modules.lookup m'.getId = some m'
        then 1 else 0 at hb'
      rw [added_snoc, unloaded_snoc, lookup_insert, if_pos hid] at hb'
      rw [hid, hm', if_pos rfl] at hb
      by_cases hmm : m = m'
      · rw [hmm, if_pos rfl, if_neg (by rintro ⟨⟩), if_pos rfl] at hb'
        omega
      · rw [if_neg fun hc => hmm (ModuleOp.insert.inj hc), if_neg (by rintro ⟨⟩),
          if_neg fun hc => hmm (Option.some.inj hc)] at hb'
        omega

/-- In every order of the critical sections in which no id is taken when a module is inserted, the
two indices agree and every module was unloaded once for each time it was taken out; an insertion
over another module always breaks this. -/
theorem run_modules (h : (modules.restrict fun s e => s.Free e.1).Run es s) :
    Consistent es s ∧ ∀ op, Consistent (es ++ [(op, (s.exec op).1)]) (s.exec op).2 ↔ s.Free op := by
  have hs : Consistent es s := by
    refine h.history ?_ ?_
    · rintro s rfl
      refine ⟨?_, ?_, ?_, fun m => rfl⟩
      · rintro id m ⟨⟩
      · intro type id m
        exact iff_of_false (by rintro ⟨⟩) (by rintro ⟨⟨⟩, -⟩)
      · rintro type ms ⟨⟩
    · rintro es s ⟨op, out⟩ s' hs ⟨hfree, hexec⟩
      have hexec' : s.exec op = (out, s') := hexec
      have hnext := (hs.exec_iff op).mpr hfree
      rw [hexec'] at hnext
      exact hnext
  exact ⟨hs, hs.exec_iff⟩

theorem run_exec (h : (modules.restrict fun s e => s.Free e.1).Run es s) (op : ModuleOp)
    (hfree : s.Free op) : (modules.restrict fun s e => s.Free e.1).Run
      (es ++ [(op, (s.exec op).1)]) (s.exec op).2 :=
  h.snoc ⟨hfree, rfl⟩

def chat : Module := ⟨1, "chat", "1.0.0", 0⟩

def names : Module := ⟨2, "names", "1.0.0", 1⟩

theorem run_modules_chat : ∃ s, (modules.restrict fun s e => s.Free e.1).Run
    [(.insert chat, none), (.insert names, none), (.del "chat/1.0.0", some chat)] s ∧
      s.listAll = [names] ∧ ∀ op, s.Free op → ∃ es, Consistent es (s.exec op).2 := by
  have h₀ : (modules.restrict fun s e => s.Free e.1).Run [] ⟨∅, ∅⟩ := .start rfl
  have h₁ := run_exec h₀ (.insert chat) rfl
  have h₂ := run_exec h₁ (.insert names) (by with_unfolding_all rfl)
  have h₃ := run_exec h₂ (.del "chat/1.0.0") trivial
  refine ⟨_, h₃, by with_unfolding_all rfl, fun op hfree => ⟨_, ((run_modules h₃).2 op).mpr hfree⟩⟩

end ModuleManager

end CIM
