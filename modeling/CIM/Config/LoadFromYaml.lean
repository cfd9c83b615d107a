import CIM.Util.Yaml

/-!
# Configuration from YAML

The nodes of a tree are listed with the names that their keys make, and a variable whose name is
one of them in lower case gets the text of the node.
-/
namespace CIM.Config

open Yaml (Text)

/-- `abcdefghijklmnopqrstuvwxyz0123456789._`. -/
def nameChar (c : Char) : Bool := c.isLower || c.isDigit || c = '.' || c = '_'

def validName (name : Text) : Bool := name.all nameChar

/-- `prefix.empty() ? key : prefix + "." + key`. -/
def join (name key : Text) : Text := if name.isEmpty then key else name ++ '.' :: key

mutual

/-- The first argument is the prefix. -/
def listAllMember (name : Text) : Yaml.Node → List (Text × Yaml.Node)
  | .null => if validName name then [(name, .null)] else []
  | .scalar text => if validName name then [(name, .scalar text)] else []
  | .sequence items => if validName name then [(name, .sequence items)] else []
  | .map members =>
      if validName name then (name, .map members) :: listMembers name members else []

/-- The loop over the members of a map. -/
def listMembers (name : Text) : List (Text × Yaml.Node) → List (Text × Yaml.Node)
  | [] => []
  | (key, node) :: members => listAllMember (join name key) node ++ listMembers name members

end

section Load

variable (emit : Yaml.Node → Text)

end Load

/-! ## What is wanted -/

mutual

/-- Every node that only maps lead to, with its dotted path. -/
def nodesOf (path : Text) : Yaml.Node → List (Text × Yaml.Node)
  | .null => [(path, .null)]
  | .scalar text => [(path, .scalar text)]
  | .sequence items => [(path, .sequence items)]
  | .map members => (path, .map members) :: membersOf path members

def membersOf (path : Text) : List (Text × Yaml.Node) → List (Text × Yaml.Node)
  | [] => []
  | (key, node) :: members => nodesOf (join path key) node ++ membersOf path members

end

def keyChar (c : Char) : Bool := c.isAlphanum || c = '.' || c = '_'

mutual

/-- The keys consist of letters, digits, underscores and dots. -/
def Keyed : Yaml.Node → Prop
  | .null => True
  | .scalar _ => True
  | .sequence _ => True
  | .map members => KeyedMembers members

def KeyedMembers : List (Text × Yaml.Node) → Prop
  | [] => True
  | (key, node) :: members => (∀ c ∈ key, keyChar c) ∧ Keyed node ∧ KeyedMembers members

end

/-- The names of the registered variables, as `Lookup` accepts them. -/
def Registered (datas : List Text) : Prop := ∀ name ∈ datas, name ≠ [] ∧ validName name

/-- The name of the node has no other characters than `ListAllMember` allows. -/
def listed (r : Text × Yaml.Node) : Bool := validName r.1

theorem mem_join {name key : Text} {c : Char} (h : c ∈ name) : c ∈ join name key := by
  unfold join
  split
  · rename_i hnil
    rw [List.isEmpty_iff.mp hnil] at h
    cases h
  · exact List.mem_append_left _ h

mutual

/-- The paths below a path begin with it. -/
theorem nodesOf_path (path : Text) (node : Yaml.Node) :
    ∀ r ∈ nodesOf path node, ∀ c ∈ path, c ∈ r.1 := by
  cases node with
  | null => exact List.forall_mem_singleton.mpr fun c hc => hc
  | scalar text => exact List.forall_mem_singleton.mpr fun c hc => hc
  | sequence items => exact List.forall_mem_singleton.mpr fun c hc => hc
  | map members =>
      exact List.forall_mem_cons.mpr ⟨fun c hc => hc, membersOf_path path members⟩

theorem membersOf_path (path : Text) (members : List (Text × Yaml.Node)) :
    ∀ r ∈ membersOf path members, ∀ c ∈ path, c ∈ r.1 := by
  cases members with
  | nil => exact nofun
  | cons m members =>
      refine List.forall_mem_append.mpr ⟨fun r hr c hc => ?_, membersOf_path path members⟩
      exact nodesOf_path (join path m.1) m.2 r hr c (mem_join hc)

end

theorem nodesOf_invalid {path : Text} (node : Yaml.Node) (h : ¬ validName path) :
    (nodesOf path node).filter listed = [] := by
  refine List.filter_eq_nil_iff.mpr fun r hr hvalid => h ?_
  rw [listed, validName, List.all_eq_true] at *
  exact fun c hc => hvalid c (nodesOf_path path node r hr c hc)

theorem filter_listed {name : Text} (h : validName name) (node : Yaml.Node)
    (l : List (Text × Yaml.Node)) :
    ((name, node) :: l).filter listed = (name, node) :: l.filter listed :=
  List.filter_cons_of_pos h

mutual

/-- The nodes that are listed are those whose whole path is a valid name. -/
theorem listAllMember_eq (name : Text) (node : Yaml.Node) :
    listAllMember name node = (nodesOf name node).filter listed := by
  by_cases h : validName name
  · cases node with
    | null => exact (if_pos h).trans (filter_listed h .null []).symm
    | scalar text => exact (if_pos h).trans (filter_listed h (.scalar text) []).symm
    | sequence items => exact (if_pos h).trans (filter_listed h (.sequence items) []).symm
    | map members =>
        rw [listAllMember, if_pos h, listMembers_eq name members]
        exact (filter_listed h _ _).symm
  · rw [nodesOf_invalid node h]
    cases node with
    | null => exact if_neg h
    | scalar text => exact if_neg h
    | sequence items => exact if_neg h
    | map members => exact if_neg h

theorem listMembers_eq (name : Text) (members : List (Text × Yaml.Node)) :
    listMembers name members = (membersOf name members).filter listed := by
  cases members with
  | nil => rfl
  | cons m members =>
      rw [listMembers, membersOf, List.filter_append, listAllMember_eq, listMembers_eq]

end

theorem join_keyed {name key : Text} (hname : ∀ c ∈ name, keyChar c) (hkey : ∀ c ∈ key, keyChar c) :
    ∀ c ∈ join name key, keyChar c := by
  unfold join
  split
  · exact hkey
  · exact List.forall_mem_append.mpr ⟨hname, List.forall_mem_cons.mpr ⟨rfl, hkey⟩⟩

mutual

theorem nodesOf_keyed {path : Text} (hpath : ∀ c ∈ path, keyChar c) (node : Yaml.Node)
    (h : Keyed node) : ∀ r ∈ nodesOf path node, ∀ c ∈ r.1, keyChar c := by
  cases node with
  | null => exact List.forall_mem_singleton.mpr hpath
  | scalar text => exact List.forall_mem_singleton.mpr hpath
  | sequence items => exact List.forall_mem_singleton.mpr hpath
  | map members => exact List.forall_mem_cons.mpr ⟨hpath, membersOf_keyed hpath members h⟩

theorem membersOf_keyed {path : Text} (hpath : ∀ c ∈ path, keyChar c)
    (members : List (Text × Yaml.Node)) (h : KeyedMembers members) :
    ∀ r ∈ membersOf path members, ∀ c ∈ r.1, keyChar c := by
  cases members with
  | nil => exact nofun
  | cons m members =>
      obtain ⟨hkey, hnode, hrest⟩ := h
      exact List.forall_mem_append.mpr ⟨nodesOf_keyed (join_keyed hpath hkey) m.2 hnode,
        membersOf_keyed hpath members hrest⟩

end

end CIM.Config
