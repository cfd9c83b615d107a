import Mathlib.Data.List.Basic
import Mathlib.Data.List.Lex
import CIM.Util.Yaml

/-!
# From JSON to YAML and back

Both conversions fill a node that is null at first. The members of a JSON object are sorted by
key.
-/
namespace CIM.JsonYaml

open Yaml (Text)

/-- A number or a boolean is known by the text that `asString` gives. -/
inductive Json
  | null
  | string (text : Text)
  | other (text : Text)
  | array (items : List Json)
  | object (members : List (Text × Json))

namespace Json

/-- `append`, which makes an array of a null; none where it throws. -/
def append : Json → Json → Option Json
  | .null, v => some (.array [v])
  | .array items, v => some (.array (items ++ [v]))
  | _, _ => none

/-- `jnode[key] = v` on the sorted members of an object. -/
def setMember (key : Text) (v : Json) : List (Text × Json) → List (Text × Json)
  | [] => [(key, v)]
  | m :: members =>
      if key < m.1 then (key, v) :: m :: members
      else if m.1 = key then (key, v) :: members
      else m :: setMember key v members

/-- `jnode[key] = v`, which makes an object of a null; none where it throws. -/
def set (jnode : Json) (key : Text) (v : Json) : Option Json :=
  match jnode with
  | .null => some (.object [(key, v)])
  | .object members => some (.object (setMember key v members))
  | _ => none

end Json

/-- How often `for (int i = 0; i < (int)jnode.size(); ++i)` turns. -/
def turns (size : Nat) : Nat :=
  if size % 4294967296 < 2147483648 then size % 4294967296 else 0

mutual

/-- Into a node that is null; none where it returns false. -/
def jsonToYaml : Json → Option Yaml.Node
  | .array items => pushItems (turns items.length) items .null
  | .object members => setMembers members .null
  | .null => some (.scalar [])
  | .string text => some (.scalar text)
  | .other text => some (.scalar text)

def pushItems : Nat → List Json → Yaml.Node → Option Yaml.Node
  | k + 1, j :: items, ynode => do
      let n ← jsonToYaml j
      let ynode ← ynode.pushBack n
      pushItems k items ynode
  | _, _, ynode => some ynode

def setMembers : List (Text × Json) → Yaml.Node → Option Yaml.Node
  | (key, j) :: members, ynode => do
      let n ← jsonToYaml j
      let ynode ← ynode.set key n
      setMembers members ynode
  | [], ynode => some ynode

end

mutual

/-- Into a node that is null; none where it returns false. A null node is none of the kinds that it
tests. -/
def yamlToJson : Yaml.Node → Option Json
  | .scalar text => some (.string text)
  | .sequence items => appendItems items .null
  | .map members => assignMembers members .null
  | .null => some .null

def appendItems : List Yaml.Node → Json → Option Json
  | n :: items, jnode => do
      let v ← yamlToJson n
      let jnode ← jnode.append v
      appendItems items jnode
  | [], jnode => some jnode

def assignMembers : List (Text × Yaml.Node) → Json → Option Json
  | (key, n) :: members, jnode => do
      let v ← yamlToJson n
      let jnode ← jnode.set key v
      assignMembers members jnode
  | [], jnode => some jnode

end

/-- A node that is not valid, none, throws at the first test. -/
def yamlToJsonOf (ynode : Option Yaml.Node) : Option Json := ynode.bind yamlToJson

/-! ## What is wanted -/

/-- Smaller in the order of `std::string`, on the characters. -/
def Sorted {α : Type} (members : List (Text × α)) : Prop := members.Pairwise fun a b => a.1 < b.1

mutual

/-- Built from strings, arrays and objects. -/
def Tree : Json → Prop
  | .null | .other _ => False
  | .string _ => True
  | .array items => TreeItems items
  | .object members => Sorted members ∧ TreeMembers members

def TreeItems : List Json → Prop
  | [] => True
  | j :: items => Tree j ∧ TreeItems items

def TreeMembers : List (Text × Json) → Prop
  | [] => True
  | (_, j) :: members => Tree j ∧ TreeMembers members

end

mutual

/-- No array and no object is empty, and an `int` counts the items of each array. -/
def Full : Json → Prop
  | .array items => items ≠ [] ∧ items.length < 2147483648 ∧ FullItems items
  | .object members => members ≠ [] ∧ FullMembers members
  | _ => True

def FullItems : List Json → Prop
  | [] => True
  | j :: items => Full j ∧ FullItems items

def FullMembers : List (Text × Json) → Prop
  | [] => True
  | (_, j) :: members => Full j ∧ FullMembers members

end

/-- Both conversions succeed and lead back to the tree. -/
def RoundTrips (j : Json) : Prop := (jsonToYaml j).bind yamlToJson = some j

/-! ## What comes back -/

def arrayOf : List Json → Json
  | [] => .null
  | v :: items => .array (v :: items)

def objectOf : List (Text × Json) → Json
  | [] => .null
  | m :: members => .object (m :: members)

def sequenceOf : List Yaml.Node → Yaml.Node
  | [] => .null
  | n :: items => .sequence (n :: items)

def mapOf : List (Text × Yaml.Node) → Yaml.Node
  | [] => .null
  | m :: members => .map (m :: members)

mutual

def back : Json → Json
  | .array items => arrayOf (backItems (turns items.length) items)
  | .object members => objectOf (backMembers members)
  | .null => .string []
  | .string text => .string text
  | .other text => .string text

def backItems : Nat → List Json → List Json
  | k + 1, j :: items => back j :: backItems k items
  | _, _ => []

def backMembers : List (Text × Json) → List (Text × Json)
  | [] => []
  | (key, j) :: members => (key, back j) :: backMembers members

end

theorem pushBack_sequenceOf (acc : List Yaml.Node) (n : Yaml.Node) :
    (sequenceOf acc).pushBack n = some (sequenceOf (acc ++ [n])) := by
  cases acc <;> rfl

theorem append_arrayOf (acc : List Json) (v : Json) :
    (arrayOf acc).append v = some (arrayOf (acc ++ [v])) := by
  cases acc <;> rfl

theorem key_ne {a b : Text} (h : a < b) : a ≠ b := by
  rintro rfl
  exact List.lt_irrefl a h

theorem set_mapOf {acc : List (Text × Yaml.Node)} {key : Text} (h : ∀ m ∈ acc, m.1 < key)
    (n : Yaml.Node) : (mapOf acc).set key n = some (mapOf (acc ++ [(key, n)])) := by
  cases acc with
  | nil => rfl
  | cons m acc =>
      have hnew : Yaml.Node.setMember key n (m :: acc) = m :: acc ++ [(key, n)] :=
        Yaml.Node.setMember_new fun m hm => key_ne (h m hm)
      exact congrArg (fun ms => some (Yaml.Node.map ms)) hnew

theorem setMember_last {key : Text} {v : Json} {members : List (Text × Json)}
    (h : ∀ m ∈ members, m.1 < key) :
    Json.setMember key v members = members ++ [(key, v)] := by
  induction members with
  | nil => rfl
  | cons m members ih =>
      rw [List.forall_mem_cons] at h
      rw [Json.setMember, if_neg (List.lt_asymm h.1), if_neg (key_ne h.1), ih h.2]
      rfl

theorem set_objectOf {acc : List (Text × Json)} {key : Text} (h : ∀ m ∈ acc, m.1 < key) (v : Json) :
    (objectOf acc).set key v = some (objectOf (acc ++ [(key, v)])) := by
  cases acc with
  | nil => rfl
  | cons m acc => exact congrArg (fun ms => some (Json.object ms)) (setMember_last h)

theorem yamlToJson_sequenceOf (ns : List Yaml.Node) :
    yamlToJson (sequenceOf ns) = appendItems ns (arrayOf []) := by
  cases ns <;> rfl

theorem yamlToJson_mapOf (ms : List (Text × Yaml.Node)) :
    yamlToJson (mapOf ms) = assignMembers ms (objectOf []) := by
  cases ms <;> rfl

theorem pushItems_cons {k : Nat} {j : Json} {items : List Json} {acc : List Yaml.Node}
    {n : Yaml.Node} (hn : jsonToYaml j = some n) : pushItems (k + 1) (j :: items) (sequenceOf acc) =
      pushItems k items (sequenceOf (acc ++ [n])) := by
  rw [pushItems, hn, Option.bind_eq_bind, Option.bind_some, pushBack_sequenceOf]
  rfl

theorem appendItems_cons {n : Yaml.Node} {v : Json} {ns : List Yaml.Node} {vs : List Json}
    (hv : yamlToJson n = some v) :
    appendItems (n :: ns) (arrayOf vs) = appendItems ns (arrayOf (vs ++ [v])) := by
  rw [appendItems, hv, Option.bind_eq_bind, Option.bind_some, append_arrayOf]
  rfl

theorem setMembers_cons {key : Text} {j : Json} {members : List (Text × Json)}
    {acc : List (Text × Yaml.Node)} {n : Yaml.Node} (hacc : ∀ m ∈ acc, m.1 < key)
    (hn : jsonToYaml j = some n) : setMembers ((key, j) :: members) (mapOf acc) =
      setMembers members (mapOf (acc ++ [(key, n)])) := by
  rw [setMembers, hn, Option.bind_eq_bind, Option.bind_some, set_mapOf hacc]
  rfl

theorem assignMembers_cons {key : Text} {n : Yaml.Node} {v : Json} {ms : List (Text × Yaml.Node)}
    {vs : List (Text × Json)} (hvs : ∀ m ∈ vs, m.1 < key) (hv : yamlToJson n = some v) :
    assignMembers ((key, n) :: ms) (objectOf vs) =
      assignMembers ms (objectOf (vs ++ [(key, v)])) := by
  rw [assignMembers, hv, Option.bind_eq_bind, Option.bind_some, set_objectOf hvs]
  rfl

/-- The key of the first member is above those of `acc`, and with it `acc` stays below the rest. -/
theorem below_append {α β : Type} {m : Text × α} {members : List (Text × α)}
    {acc : List (Text × β)} (b : β) (hsorted : Sorted (m :: members))
    (hacc : ∀ a ∈ acc, ∀ m' ∈ m :: members, a.1 < m'.1) :
    (∀ a ∈ acc, a.1 < m.1) ∧ ∀ a ∈ acc ++ [(m.1, b)], ∀ m' ∈ members, a.1 < m'.1 := by
  refine ⟨fun a ha => hacc a ha m List.mem_cons_self, ?_⟩
  rw [List.forall_mem_append, List.forall_mem_singleton]
  exact ⟨fun a ha m' hm' => hacc a ha m' (List.mem_cons_of_mem _ hm'),
    (List.pairwise_cons.mp hsorted).1⟩

mutual

/-- Both conversions succeed, and a tree without empty parts comes back. -/
theorem back_spec (j : Json) (h : Tree j) :
    ∃ n, jsonToYaml j = some n ∧ yamlToJson n = some (back j) := by
  cases j with
  | null => exact h.elim
  | other text => exact h.elim
  | string text => exact ⟨_, rfl, rfl⟩
  | array items =>
      obtain ⟨ns, hpush, happend⟩ := backItems_spec (turns items.length) items h []
      exact ⟨_, hpush, (yamlToJson_sequenceOf ns).trans (happend [])⟩
  | object members =>
      obtain ⟨ms, hset, hassign⟩ := backMembers_spec members h.1 h.2 [] nofun
      exact ⟨_, hset, (yamlToJson_mapOf ms).trans (hassign [] nofun)⟩

theorem backItems_spec (k : Nat) (items : List Json) (h : TreeItems items) (acc : List Yaml.Node) :
    ∃ ns, pushItems k items (sequenceOf acc) = some (sequenceOf (acc ++ ns)) ∧
      ∀ vs, appendItems ns (arrayOf vs) = some (arrayOf (vs ++ backItems k items)) := by
  have hnone : ∀ acc vs, some (sequenceOf acc) = some (sequenceOf (acc ++ [])) ∧
      appendItems [] (arrayOf vs) = some (arrayOf (vs ++ [])) := by
    intro acc vs
    rw [List.append_nil, List.append_nil]
    exact ⟨rfl, rfl⟩
  cases items with
  | nil => cases k <;> exact ⟨[], (hnone acc []).1, fun vs => (hnone acc vs).2⟩
  | cons j items =>
      cases k with
      | zero => exact ⟨[], (hnone acc []).1, fun vs => (hnone acc vs).2⟩
      | succ k =>
          obtain ⟨n, hn, hback⟩ := back_spec j h.1
          obtain ⟨ns, hpush, happend⟩ := backItems_spec k items h.2 (acc ++ [n])
          refine ⟨n :: ns, ?_, fun vs => ?_⟩
          · rw [pushItems_cons hn, hpush, List.append_assoc]
            rfl
          · rw [appendItems_cons hback, happend, List.append_assoc]
            rfl

theorem backMembers_spec (members : List (Text × Json)) (hsorted : Sorted members)
    (h : TreeMembers members) (acc : List (Text × Yaml.Node))
    (hacc : ∀ a ∈ acc, ∀ m' ∈ members, a.1 < m'.1) :
    ∃ ms, setMembers members (mapOf acc) = some (mapOf (acc ++ ms)) ∧
      ∀ vs, (∀ v ∈ vs, ∀ m' ∈ members, v.1 < m'.1) →
        assignMembers ms (objectOf vs) = some (objectOf (vs ++ backMembers members)) := by
  cases members with
  | nil =>
      refine ⟨[], ?_, fun vs _ => ?_⟩
      · rw [List.append_nil]
        rfl
      · rw [backMembers, List.append_nil]
        rfl
  | cons m members =>
      obtain ⟨n, hn, hback⟩ := back_spec m.2 h.1
      obtain ⟨hkey, hbelow⟩ := below_append n hsorted hacc
      obtain ⟨ms, hset, hassign⟩ := backMembers_spec members (List.pairwise_cons.mp hsorted).2 h.2
        (acc ++ [(m.1, n)]) hbelow
      refine ⟨(m.1, n) :: ms, ?_, fun vs hvs => ?_⟩
      · rw [setMembers_cons hkey hn, hset, List.append_assoc]
        rfl
      · obtain ⟨hkey', hbelow'⟩ := below_append (back m.2) hsorted hvs
        rw [assignMembers_cons hkey' hback, hassign _ hbelow', List.append_assoc]
        rfl

end

/-! ## Success -/

theorem set_some (acc : List (Text × Yaml.Node)) (key : Text) (n : Yaml.Node) :
    ∃ acc', (mapOf acc).set key n = some (mapOf acc') := by
  cases acc with
  | nil => exact ⟨[(key, n)], rfl⟩
  | cons m acc =>
      by_cases h : m.1 = key
      · exact ⟨(key, n) :: acc, congrArg (fun ms => some (Yaml.Node.map ms)) (if_pos h)⟩
      · exact ⟨m :: Yaml.Node.setMember key n acc,
          congrArg (fun ms => some (Yaml.Node.map ms)) (if_neg h)⟩

theorem set_json_some (acc : List (Text × Json)) (key : Text) (v : Json) :
    ∃ acc', (objectOf acc).set key v = some (objectOf acc') := by
  cases acc with
  | nil => exact ⟨[(key, v)], rfl⟩
  | cons m acc =>
      have hset : (objectOf (m :: acc)).set key v =
          some (.object (Json.setMember key v (m :: acc))) := rfl
      rw [hset, Json.setMember]
      split
      · exact ⟨(key, v) :: m :: acc, rfl⟩
      · split
        · exact ⟨(key, v) :: acc, rfl⟩
        · exact ⟨m :: Json.setMember key v acc, rfl⟩

mutual

/-- `JsonToYaml` does not return false. -/
theorem jsonToYaml_some (j : Json) : ∃ n, jsonToYaml j = some n := by
  cases j with
  | null => exact ⟨_, rfl⟩
  | string text => exact ⟨_, rfl⟩
  | other text => exact ⟨_, rfl⟩
  | array items => exact (pushItems_some (turns items.length) items []).imp fun _ h => h
  | object members => exact (setMembers_some members []).imp fun _ h => h

theorem pushItems_some (k : Nat) (items : List Json) (acc : List Yaml.Node) :
    ∃ n, pushItems k items (sequenceOf acc) = some n := by
  cases items with
  | nil => cases k <;> exact ⟨_, rfl⟩
  | cons j items =>
      cases k with
      | zero => exact ⟨_, rfl⟩
      | succ k =>
          obtain ⟨n, hn⟩ := jsonToYaml_some j
          rw [pushItems_cons hn]
          exact pushItems_some k items _

theorem setMembers_some (members : List (Text × Json)) (acc : List (Text × Yaml.Node)) :
    ∃ n, setMembers members (mapOf acc) = some n := by
  cases members with
  | nil => exact ⟨_, rfl⟩
  | cons m members =>
      obtain ⟨n, hn⟩ := jsonToYaml_some m.2
      obtain ⟨acc', hacc'⟩ := set_some acc m.1 n
      rw [setMembers, hn, Option.bind_eq_bind, Option.bind_some, hacc']
      exact setMembers_some members acc'

end

mutual

theorem yamlToJson_some (n : Yaml.Node) : ∃ j, yamlToJson n = some j := by
  cases n with
  | null => exact ⟨_, rfl⟩
  | scalar text => exact ⟨_, rfl⟩
  | sequence items => exact (appendItems_some items []).imp fun _ h => h
  | map members => exact (assignMembers_some members []).imp fun _ h => h

theorem appendItems_some (items : List Yaml.Node) (vs : List Json) :
    ∃ j, appendItems items (arrayOf vs) = some j := by
  cases items with
  | nil => exact ⟨_, rfl⟩
  | cons n items =>
      obtain ⟨v, hv⟩ := yamlToJson_some n
      rw [appendItems_cons hv]
      exact appendItems_some items _

theorem assignMembers_some (members : List (Text × Yaml.Node)) (vs : List (Text × Json)) :
    ∃ j, assignMembers members (objectOf vs) = some j := by
  cases members with
  | nil => exact ⟨_, rfl⟩
  | cons m members =>
      obtain ⟨v, hv⟩ := yamlToJson_some m.2
      obtain ⟨vs', hvs'⟩ := set_json_some vs m.1 v
      rw [assignMembers, hv, Option.bind_eq_bind, Option.bind_some, hvs']
      exact assignMembers_some members vs'

end

/-! ## Which trees come back -/

theorem le_turns_iff (n : Nat) : n ≤ turns n ↔ n < 2147483648 := by
  unfold turns
  split
  · omega
  · omega

mutual

theorem back_eq_iff (j : Json) (h : Tree j) : back j = j ↔ Full j := by
  cases j with
  | null => exact h.elim
  | other text => exact h.elim
  | string text => exact iff_of_true rfl trivial
  | array items =>
      have hitems := backItems_eq_iff (turns items.length) items h
      rw [le_turns_iff] at hitems
      rw [Full, ← hitems, back]
      cases hback : backItems (turns items.length) items with
      | nil => exact iff_of_false nofun fun hfull => hfull.1 hfull.2.symm
      | cons v vs =>
          rw [arrayOf, Json.array.injEq]
          exact (and_iff_right_of_imp fun heq => heq ▸ List.cons_ne_nil _ _).symm
  | object members =>
      have hmembers := backMembers_eq_iff members h.2
      rw [Full, ← hmembers, back]
      cases hback : backMembers members with
      | nil => exact iff_of_false nofun fun hfull => hfull.1 hfull.2.symm
      | cons m ms =>
          rw [objectOf, Json.object.injEq]
          exact (and_iff_right_of_imp fun heq => heq ▸ List.cons_ne_nil _ _).symm

theorem backItems_eq_iff (k : Nat) (items : List Json) (h : TreeItems items) :
    backItems k items = items ↔ items.length ≤ k ∧ FullItems items := by
  cases items with
  | nil => cases k <;> exact iff_of_true rfl ⟨Nat.zero_le _, trivial⟩
  | cons j items =>
      cases k with
      | zero => exact iff_of_false nofun fun hfull => absurd hfull.1 (Nat.not_succ_le_zero _)
      | succ k =>
          rw [backItems, List.cons.injEq, back_eq_iff j h.1, backItems_eq_iff k items h.2,
            FullItems, List.length_cons, Nat.add_le_add_iff_right]
          exact and_left_comm

theorem backMembers_eq_iff (members : List (Text × Json)) (h : TreeMembers members) :
    backMembers members = members ↔ FullMembers members := by
  cases members with
  | nil => exact iff_of_true rfl trivial
  | cons m members =>
      rw [backMembers, List.cons.injEq, backMembers_eq_iff members h.2, Prod.ext_iff,
        FullMembers, ← back_eq_iff m.2 h.1]
      exact and_congr_left fun _ => and_iff_right rfl

end

/-- A tree comes back exactly if it is full; `JsonToYaml` does not return false, and `YamlToJson`
does for a node that is not valid. -/
theorem conversions {j : Json} (h : Tree j) : (RoundTrips j ↔ Full j) ∧
    (∀ j', jsonToYaml j' ≠ none) ∧ ∀ ynode, yamlToJsonOf ynode = none ↔ ynode = none := by
  refine ⟨?_, fun j' hnone => ?_, fun ynode => ?_⟩
  · obtain ⟨n, hn, hback⟩ := back_spec j h
    rw [RoundTrips, hn, Option.bind_some, hback, Option.some_inj]
    exact back_eq_iff j h
  · obtain ⟨n, hn⟩ := jsonToYaml_some j'
    rw [hnone] at hn
    cases hn
  · cases ynode with
    | none => exact iff_of_true rfl rfl
    | some n =>
        obtain ⟨j', hj'⟩ := yamlToJson_some n
        rw [yamlToJsonOf, Option.bind_some, hj']
        exact iff_of_false (Option.some_ne_none _) (Option.some_ne_none _)

/-- An array of one string. -/
theorem conversions_one : (RoundTrips (.array [.string ['a']]) ↔ Full (.array [.string ['a']])) ∧
    (∀ j', jsonToYaml j' ≠ none) ∧ ∀ ynode, yamlToJsonOf ynode = none ↔ ynode = none :=
  conversions ⟨trivial, trivial⟩

/-- An empty array comes back as a null. -/
theorem empty_lost : Tree (.array []) ∧ ¬ RoundTrips (.array []) :=
  ⟨trivial, nofun⟩

end CIM.JsonYaml
