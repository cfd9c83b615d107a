import Mathlib.Data.List.AList
import CIM.Lib.Entries
import CIM.Lib.System

/-!
# Routes of a server

A request goes to the servlet of its path, or else to the first pattern that matches the path, or
else to the default servlet.
-/
namespace CIM.http

open Transition Entries

universe u v

/-- `IServletCreator`: it holds a servlet, or makes a new one of its type at each call. -/
inductive ServletCreator (S : Type u)
  | hold (servlet : S)
  | create (servlet : S)

def ServletCreator.get {S : Type u} : ServletCreator S → S
  | .hold servlet => servlet
  | .create servlet => servlet

structure ServletDispatch (S : Type u) where
  m_datas : AList fun _ : String => ServletCreator S
  m_globs : List (String × ServletCreator S)
  m_default : S

namespace ServletDispatch

variable {S : Type u}

def addServletCreator (d : ServletDispatch S) (uri : String) (creator : ServletCreator S) :
    ServletDispatch S :=
  { d with m_datas := d.m_datas.insert uri creator }

def addServlet (d : ServletDispatch S) (uri : String) (slt : S) : ServletDispatch S :=
  d.addServletCreator uri (.hold slt)

/-- The first entry of the pattern is erased, and a new one pushed to the back. -/
def addGlobServletCreator (d : ServletDispatch S) (uri : String) (creator : ServletCreator S) :
    ServletDispatch S :=
  { d with m_globs := d.m_globs.eraseP (fun i => decide (i.1 = uri)) ++ [(uri, creator)] }

def addGlobServlet (d : ServletDispatch S) (uri : String) (slt : S) : ServletDispatch S :=
  d.addGlobServletCreator uri (.hold slt)

def delServlet (d : ServletDispatch S) (uri : String) : ServletDispatch S :=
  { d with m_datas := d.m_datas.erase uri }

def delGlobServlet (d : ServletDispatch S) (uri : String) : ServletDispatch S :=
  { d with m_globs := d.m_globs.eraseP fun i => decide (i.1 = uri) }

def setDefault (d : ServletDispatch S) (v : S) : ServletDispatch S := { d with m_default := v }

def getServlet (d : ServletDispatch S) (uri : String) : Option S :=
  (d.m_datas.lookup uri).map ServletCreator.get

def getGlobServlet (d : ServletDispatch S) (uri : String) : Option S :=
  (d.m_globs.find? fun i => decide (i.1 = uri)).map fun i => i.2.get

/-- `fnmatch` is the function of the C library; it is true where that returns 0. -/
def getMatchedServlet (fnmatch : String → String → Bool) (d : ServletDispatch S) (uri : String) :
    S :=
  match d.m_datas.lookup uri with
  | some creator => creator.get
  | none =>
      match d.m_globs.find? fun i => fnmatch i.1 uri with
      | some i => i.2.get
      | none => d.m_default

/-- `WSServletDispatch::getWSServlet`; a servlet of another kind is none. -/
def getWSServlet {W : Type v} (cast : S → Option W) (fnmatch : String → String → Bool)
    (d : ServletDispatch S) (uri : String) : Option W :=
  cast (d.getMatchedServlet fnmatch uri)

end ServletDispatch

inductive DispatchOp (S : Type u)
  | addServletCreator (uri : String) (creator : ServletCreator S)
  | addGlobServletCreator (uri : String) (creator : ServletCreator S)
  | delServlet (uri : String)
  | delGlobServlet (uri : String)
  | setDefault (v : S)

namespace ServletDispatch

variable {S : Type u}

def exec (d : ServletDispatch S) : DispatchOp S → ServletDispatch S
  | .addServletCreator uri creator => d.addServletCreator uri creator
  | .addGlobServletCreator uri creator => d.addGlobServletCreator uri creator
  | .delServlet uri => d.delServlet uri
  | .delGlobServlet uri => d.delGlobServlet uri
  | .setDefault v => d.setDefault v

end ServletDispatch

def servletDispatch {S : Type u} (notFound : S) : System (ServletDispatch S) (DispatchOp S) where
  init d := d = ⟨∅, [], notFound⟩
  step d op d' := d' = d.exec op

namespace DispatchOp

variable {S : Type u}

/-- What an operation does to the exact paths. -/
def exact : DispatchOp S → Option (Op String (ServletCreator S))
  | .addServletCreator uri creator => some (.add uri creator)
  | .delServlet uri => some (.del uri)
  | _ => none

/-- What it does to the patterns. -/
def glob : DispatchOp S → Option (Op String (ServletCreator S))
  | .addGlobServletCreator uri creator => some (.add uri creator)
  | .delGlobServlet uri => some (.del uri)
  | _ => none

def default : DispatchOp S → Option S
  | .setDefault v => some v
  | _ => none

end DispatchOp

namespace ServletDispatch

variable {S : Type u} {notFound : S} {d : ServletDispatch S} {ops : List (DispatchOp S)}

/-- The servlet of a path after the operations: that of the path itself, or the one of the pattern
that has stood longest among those that match, or the default set last. -/
def route (fnmatch : String → String → Bool) (notFound : S) (ops : List (DispatchOp S))
    (uri : String) : S :=
  match value uri (ops.filterMap DispatchOp.exact) with
  | some creator => creator.get
  | none =>
      match (lasting (ops.filterMap DispatchOp.glob)).find? fun i => fnmatch i.1 uri with
      | some i => i.2.get
      | none => (ops.filterMap DispatchOp.default).getLast?.getD notFound

structure Recorded (notFound : S) (ops : List (DispatchOp S)) (d : ServletDispatch S) : Prop where
  datas : ∀ uri, d.m_datas.lookup uri = value uri (ops.filterMap DispatchOp.exact)
  globs : d.m_globs = lasting (ops.filterMap DispatchOp.glob)
  default : d.m_default = (ops.filterMap DispatchOp.default).getLast?.getD notFound

theorem Recorded.eraseP_globs (h : Recorded notFound ops d) (uri : String) :
    d.m_globs.eraseP (fun i => decide (i.1 = uri)) =
      remove uri (lasting (ops.filterMap DispatchOp.glob)) := by
  rw [h.globs]
  exact eraseP_eq_remove (lasting_nodup _)

theorem filterMap_snoc {α : Type u} {β : Type v} (f : α → Option β) (l : List α) (a : α) :
    (l ++ [a]).filterMap f = l.filterMap f ++ (f a).toList := by
  rw [List.filterMap_append]
  cases h : f a with
  | none => rw [List.filterMap_cons_none h]; rfl
  | some b => rw [List.filterMap_cons_some h]; rfl

/-- An operation on the exact paths. -/
theorem Recorded.of_exact (h : Recorded notFound ops d) {op : DispatchOp S}
    {o : Op String (ServletCreator S)} (hexact : op.exact = some o) (hglob : op.glob = none)
    (hdefault : op.default = none) (hglobs : (d.exec op).m_globs = d.m_globs)
    (hv : (d.exec op).m_default = d.m_default)
    (hdatas : ∀ uri, (d.exec op).m_datas.lookup uri =
      value uri (ops.filterMap DispatchOp.exact ++ [o])) :
    Recorded notFound (ops ++ [op]) (d.exec op) := by
  refine ⟨fun uri => ?_, ?_, ?_⟩
  · rw [hdatas, filterMap_snoc, hexact, Option.toList_some]
  · rw [hglobs, h.globs, filterMap_snoc, hglob, Option.toList_none, List.append_nil]
  · rw [hv, h.default, filterMap_snoc, hdefault, Option.toList_none, List.append_nil]

/-- An operation on the patterns. -/
theorem Recorded.of_glob (h : Recorded notFound ops d) {op : DispatchOp S}
    {o : Op String (ServletCreator S)} (hexact : op.exact = none) (hglob : op.glob = some o)
    (hdefault : op.default = none) (hdatas : (d.exec op).m_datas = d.m_datas)
    (hv : (d.exec op).m_default = d.m_default)
    (hglobs : (d.exec op).m_globs = apply (lasting (ops.filterMap DispatchOp.glob)) o) :
    Recorded notFound (ops ++ [op]) (d.exec op) := by
  refine ⟨fun uri => ?_, ?_, ?_⟩
  · rw [hdatas, h.datas, filterMap_snoc, hexact, Option.toList_none, List.append_nil]
  · rw [hglobs, filterMap_snoc, hglob, Option.toList_some, lasting_snoc]
  · rw [hv, h.default, filterMap_snoc, hdefault, Option.toList_none, List.append_nil]

theorem Recorded.exec (h : Recorded notFound ops d) (op : DispatchOp S) :
    Recorded notFound (ops ++ [op]) (d.exec op) := by
  cases op with
  | addServletCreator uri creator =>
      refine h.of_exact rfl rfl rfl rfl rfl fun uri' => ?_
      rw [value_add, ← h.datas]
      by_cases hu : uri' = uri
      · subst hu
        rw [if_pos rfl]
        exact AList.lookup_insert _
      · rw [if_neg hu]
        exact AList.lookup_insert_ne hu
  | delServlet uri =>
      refine h.of_exact rfl rfl rfl rfl rfl fun uri' => ?_
      rw [value_del, ← h.datas]
      by_cases hu : uri' = uri
      · subst hu
        rw [if_pos rfl]
        exact AList.lookup_erase _ _
      · rw [if_neg hu]
        exact AList.lookup_erase_ne hu
  | addGlobServletCreator uri creator =>
      exact h.of_glob rfl rfl rfl rfl rfl
        (congrArg (· ++ [(uri, creator)]) (h.eraseP_globs uri))
  | delGlobServlet uri => exact h.of_glob rfl rfl rfl rfl rfl (h.eraseP_globs uri)
  | setDefault v =>
      refine ⟨fun uri => ?_, ?_, ?_⟩
      · rw [filterMap_snoc]
        exact (h.datas uri).trans (congrArg (value uri) (List.append_nil _).symm)
      · rw [filterMap_snoc]
        exact h.globs.trans (congrArg lasting (List.append_nil _).symm)
      · rw [filterMap_snoc]
        exact (congrArg (Option.getD · notFound) List.getLast?_concat).symm

theorem run_recorded_routes (h : (servletDispatch notFound).Run ops d) :
    Recorded notFound ops d := by
  refine h.history (I := Recorded notFound) ?_ ?_
  · rintro s rfl
    exact ⟨fun uri => AList.lookup_empty uri, rfl, rfl⟩
  · rintro ops s op s' hs rfl
    exact hs.exec op

/-- After any operations a request is routed as the operations say. -/
theorem run_routes (fnmatch : String → String → Bool) (h : (servletDispatch notFound).Run ops d)
    (uri : String) :
    d.getMatchedServlet fnmatch uri = route fnmatch notFound ops uri := by
  have hr := run_recorded_routes h
  rw [getMatchedServlet, route, hr.datas, hr.globs, hr.default]

/-- A pattern that is added again comes behind the others. -/
theorem run_routes_added_again : ∃ d, (servletDispatch 0).Run
      [.addGlobServletCreator "/a*" (.hold 1), .addGlobServletCreator "/*" (.hold 2),
        .addGlobServletCreator "/a*" (.hold 3)] d ∧
      d.getMatchedServlet (fun _ _ => true) "/ab" = 2 := by
  have hrun := System.Run.snoc (System.Run.snoc (System.Run.snoc (S := servletDispatch 0)
    (System.Run.start rfl) (e := .addGlobServletCreator "/a*" (.hold 1)) rfl)
    (e := .addGlobServletCreator "/*" (.hold 2)) rfl)
    (e := .addGlobServletCreator "/a*" (.hold 3)) rfl
  exact ⟨_, hrun, (run_routes (fun _ _ => true) hrun "/ab").trans (by decide)⟩

end ServletDispatch

end CIM.http
