import Mathlib.Data.List.Basic

/-!
# YAML nodes

The trees that yaml-cpp makes of a text and emits as one. A map keeps its members in the order in
which they came.
-/
namespace CIM.Yaml

abbrev Text : Type := List Char

inductive Node
  | null
  | scalar (text : Text)
  | sequence (items : List Node)
  | map (members : List (Text × Node))

namespace Node

/-- `push_back`, which makes a sequence of a null; none where it throws. -/
def pushBack : Node → Node → Option Node
  | .null, n => some (.sequence [n])
  | .sequence items, n => some (.sequence (items ++ [n]))
  | _, _ => none

/-- `node[key] = n` on the members of a map. -/
def setMember (key : Text) (n : Node) : List (Text × Node) → List (Text × Node)
  | [] => [(key, n)]
  | m :: members =>
      if m.1 = key then (key, n) :: members else m :: setMember key n members

/-- `node[key] = n`, which makes a map of a null; none where it throws. -/
def set (ynode : Node) (key : Text) (n : Node) : Option Node :=
  match ynode with
  | .null => some (.map [(key, n)])
  | .map members => some (.map (setMember key n members))
  | _ => none

/-- `node[key]`, none where it is not defined. -/
def get (ynode : Node) (key : Text) : Option Node :=
  match ynode with
  | .map members => (members.find? fun m => m.1 = key).map Prod.snd
  | _ => none

/-- `as<std::string>()`, none where it throws. -/
def asString : Node → Option Text
  | .scalar text => some text
  | _ => none

theorem setMember_new {key : Text} {n : Node} {members : List (Text × Node)}
    (h : ∀ m ∈ members, m.1 ≠ key) : setMember key n members = members ++ [(key, n)] := by
  induction members with
  | nil => rfl
  | cons m members ih =>
      rw [List.forall_mem_cons] at h
      rw [setMember, if_neg h.1, ih h.2]
      rfl

end Node

end CIM.Yaml
