import Mathlib.Data.List.AList
import Mathlib.Data.List.Induction
import CIM.Lib.Entries
import CIM.Lib.System

/-!
# The command line

`Env::init` reads options, each with a value or without one. The texts of the help are kept in the
order they were added in.
-/
namespace CIM

open Transition

abbrev CString : Type := List UInt8

abbrev ProgramArgs : Type := AList fun _ : CString => CString

structure Env where
  m_args : ProgramArgs
  m_helps : List (CString × CString)
  m_program : CString
  m_exe : CString
  m_cwd : CString

namespace Env

def dash : UInt8 := 45

def slash : UInt8 := 47

def add (args : ProgramArgs) (key val : CString) : ProgramArgs := args.insert key val

/-- `add(now_key, "")` where there is a key. -/
def addNow (args : ProgramArgs) (now_key : Option CString) : ProgramArgs :=
  match now_key with
  | some key => add args key []
  | none => args

/-- The loop over the arguments. The text of an argument has no terminating zero. -/
def initLoop (args : ProgramArgs) (now_key : Option CString) :
    List CString → Bool × ProgramArgs
  | [] => (true, addNow args now_key)
  | arg :: argv =>
      if arg.head? = some dash then
        if arg.length > 1 then initLoop (addNow args now_key) (some arg.tail) argv
        else (false, args)
      else
        match now_key with
        | some key => initLoop (add args key arg) none argv
        | none => (false, args)

/-- `m_exe.substr(0, m_exe.find_last_of("/")) + "/"`. -/
def directory (exe : CString) : CString :=
  match exe.reverse.findIdx? (· == slash) with
  | some i => exe.take (exe.length - 1 - i) ++ [slash]
  | none => exe ++ [slash]

/-- `exe` is what the link of the process gives. -/
def init (e : Env) (exe program : CString) (argv : List CString) : Bool × Env :=
  let r := initLoop e.m_args none argv
  (r.1, { e with m_exe := exe, m_cwd := directory exe, m_program := program, m_args := r.2 })

def has (e : Env) (key : CString) : Bool := (e.m_args.lookup key).isSome

def get (e : Env) (key default_value : CString) : CString :=
  (e.m_args.lookup key).getD default_value

def getAbsolutePath (e : Env) (path : CString) : CString :=
  if path.isEmpty then [slash]
  else if path.head? = some slash then path
  else e.m_cwd ++ path

def getConfigPath (e : Env) : CString := e.getAbsolutePath (e.get [99] "config".toUTF8.toList)

def removeHelp (e : Env) (key : CString) : Env :=
  { e with m_helps := e.m_helps.filter fun i => decide (i.1 ≠ key) }

def addHelp (e : Env) (key desc : CString) : Env :=
  { e.removeHelp key with m_helps := (e.removeHelp key).m_helps ++ [(key, desc)] }

end Env

/-! ## The arguments of an option -/

/-- An option with its value, if it has one. -/
structure CommandOption where
  key : CString
  val : Option CString

namespace CommandOption

/-- The arguments that give the option. -/
def arguments (o : CommandOption) : List CString := (Env.dash :: o.key) :: o.val.toList

/-- A value does not look like a key. -/
def WellFormed (o : CommandOption) : Prop :=
  o.key ≠ [] ∧ ∀ v, o.val = some v → v.head? ≠ some Env.dash

/-- What the option stands for. -/
def value (o : CommandOption) : CString := o.val.getD []

def entry (o : CommandOption) : CString × CString := (o.key, o.value)

end CommandOption

namespace Env

variable {args : ProgramArgs} {os : List CommandOption} {argv : List CString}

/-- The options, each after the ones before it. -/
def addAll (args : ProgramArgs) (os : List CommandOption) : ProgramArgs :=
  Entries.insertAll args (os.map CommandOption.entry)

theorem addAll_cons (args : ProgramArgs) (o : CommandOption) (os : List CommandOption) :
    addAll args (o :: os) = addAll (add args o.key o.value) os := rfl

theorem initLoop_cons (args : ProgramArgs) (now_key : Option CString) (arg : CString)
    (argv : List CString) : initLoop args now_key (arg :: argv) =
      if arg.head? = some dash then
        if arg.length > 1 then initLoop (addNow args now_key) (some arg.tail) argv
        else (false, args)
      else
        match now_key with
        | some key => initLoop (add args key arg) none argv
        | none => (false, args) := rfl

theorem initLoop_value {v : CString} (hv : v.head? ≠ some dash) (args : ProgramArgs)
    (key : CString) (argv : List CString) :
    initLoop args (some key) (v :: argv) = initLoop (add args key v) none argv := by
  rw [initLoop_cons, if_neg hv]

theorem initLoop_key {key : CString} (hkey : key ≠ []) (args : ProgramArgs)
    (now_key : Option CString) (argv : List CString) :
    initLoop args now_key ((dash :: key) :: argv) =
      initLoop (addNow args now_key) (some key) argv := by
  have hlen : (dash :: key).length > 1 := by
    have := List.length_pos_of_ne_nil hkey
    simp only [List.length_cons]
    omega
  rw [initLoop_cons, if_pos List.head?_cons, if_pos hlen, List.tail_cons]

/-- Well-formed options are accepted. -/
theorem initLoop_arguments (hos : ∀ o ∈ os, o.WellFormed) (args : ProgramArgs)
    (now_key : Option CString) :
    initLoop args now_key (os.flatMap CommandOption.arguments) =
      (true, addAll (addNow args now_key) os) := by
  induction os generalizing args now_key with
  | nil => rfl
  | cons o os ih =>
      obtain ⟨⟨key, val⟩, hos⟩ : _ ∧ _ := List.forall_mem_cons.mp hos
      cases hval : o.val with
      | none =>
          rw [List.flatMap_cons, CommandOption.arguments, hval, Option.toList_none,
            List.singleton_append, initLoop_key key, ih hos, addAll_cons, CommandOption.value, hval]
          rfl
      | some v =>
          rw [List.flatMap_cons, CommandOption.arguments, hval, Option.toList_some,
            List.cons_append, List.singleton_append, initLoop_key key,
            initLoop_value (val v hval), ih hos, addAll_cons, CommandOption.value, hval]
          rfl

/-- Only well-formed options are accepted; behind a key its value may come first. -/
theorem exists_options (h : (initLoop args now_key argv).1 = true) :
    ∃ os : List CommandOption, (∀ o ∈ os, o.WellFormed) ∧
      (argv = os.flatMap CommandOption.arguments ∨
        ∃ v, v.head? ≠ some dash ∧ now_key.isSome = true ∧
          argv = v :: os.flatMap CommandOption.arguments) := by
  induction argv generalizing args now_key with
  | nil => exact ⟨[], nofun, .inl rfl⟩
  | cons arg argv ih =>
      rw [initLoop_cons] at h
      split at h
      · rename_i hdash
        split at h
        · rename_i hlen
          obtain ⟨key, rfl⟩ : ∃ key, arg = dash :: key := by
            cases arg with
            | nil => cases hdash
            | cons c key => exact ⟨key, congrArg (· :: key) (Option.some.inj hdash)⟩
          have hkey : key ≠ [] := by
            rintro rfl
            exact absurd hlen (by decide)
          obtain ⟨os, hos, rfl | ⟨v, hv, -, rfl⟩⟩ := ih h
          · refine ⟨⟨key, none⟩ :: os, List.forall_mem_cons.mpr ⟨⟨hkey, ?_⟩, hos⟩, .inl rfl⟩
            rintro v ⟨⟩
          · refine ⟨⟨key, some v⟩ :: os, List.forall_mem_cons.mpr ⟨⟨hkey, ?_⟩, hos⟩, .inl rfl⟩
            rintro v' hv'
            cases hv'
            exact hv
        · cases h
      · rename_i hdash
        cases now_key with
        | none => cases h
        | some key =>
            obtain ⟨os, hos, rfl | ⟨v, -, hnone, -⟩⟩ := ih h
            · exact ⟨os, hos, .inr ⟨arg, hdash, rfl, rfl⟩⟩
            · cases hnone

/-- The value of a key is that of its last option, or the one it had before. -/
theorem lookup_addAll (args : ProgramArgs) (os : List CommandOption) (key : CString) :
    (addAll args os).lookup key =
      ((os.filter (·.key = key)).getLast?.map CommandOption.value).or (args.lookup key) := by
  rw [addAll, Entries.lookup_insertAll, List.filter_map, List.getLast?_map, Option.map_map]
  rfl

/-- The command lines that are accepted are the sequences of options, and each key then has the
value of its last option. -/
theorem init_options (e : Env) (exe program : CString) (argv : List CString) :
    ((e.init exe program argv).1 = true ↔
      ∃ os : List CommandOption, (∀ o ∈ os, o.WellFormed) ∧
        argv = os.flatMap CommandOption.arguments) ∧
    ∀ os : List CommandOption, (∀ o ∈ os, o.WellFormed) →
      argv = os.flatMap CommandOption.arguments → ∀ key default_value,
        (e.init exe program argv).2.get key default_value =
          ((os.filter (·.key = key)).getLast?.map CommandOption.value).getD
            (e.get key default_value) := by
  refine ⟨⟨fun h => ?_, ?_⟩, ?_⟩
  · have hloop : (initLoop e.m_args none argv).1 = true := h
    obtain ⟨os, hos, rfl | ⟨v, -, hnone, -⟩⟩ := exists_options hloop
    · exact ⟨os, hos, rfl⟩
    · cases hnone
  · rintro ⟨os, hos, rfl⟩
    exact congrArg Prod.fst (initLoop_arguments hos e.m_args none)
  · rintro os hos rfl key default_value
    change ((initLoop e.m_args none _).2.lookup key).getD default_value = _
    rw [initLoop_arguments hos e.m_args none]
    change ((addAll e.m_args os).lookup key).getD default_value = _
    rw [lookup_addAll]
    cases (os.filter (·.key = key)).getLast? <;> rfl

theorem init_options_config : ∃ e : Env,
    (e.init [47, 101] [101] [[45, 99], [47], [45, 100]]).1 = true ∧
      (e.init [47, 101] [101] [[45, 99], [47], [45, 100]]).2.get [99] [] = [47] := by
  have hos : ∀ o ∈ [CommandOption.mk [99] (some [47]), ⟨[100], none⟩], o.WellFormed := by
    intro o ho
    simp only [List.mem_cons, List.not_mem_nil, or_false] at ho
    rcases ho with rfl | rfl
    · refine ⟨by decide, ?_⟩
      rintro v ⟨⟩
      decide
    · refine ⟨by decide, ?_⟩
      rintro v ⟨⟩
  have h := init_options ⟨∅, [], [], [], []⟩ [47, 101] [101] [[45, 99], [47], [45, 100]]
  exact ⟨_, h.1.mpr ⟨_, hos, rfl⟩, (h.2 _ hos rfl [99] []).trans (by decide)⟩

/-! ## The texts of the help -/

def changeHelp (e : Env) : Entries.Op CString CString → Env
  | .add key desc => e.addHelp key desc
  | .del key => e.removeHelp key

/-- The help lists the texts that no later operation took back, in the order they were added. -/
theorem changeHelp_lasting (e : Env) (he : e.m_helps = [])
    (ops : List (Entries.Op CString CString)) :
    (ops.foldl changeHelp e).m_helps = Entries.lasting ops := by
  induction ops using List.reverseRecOn with
  | nil => exact he
  | append_singleton ops op ih =>
      rw [List.foldl_append, Entries.lasting_snoc, ← ih]
      cases op with
      | add key desc => rfl
      | del key => rfl

end Env

end CIM
