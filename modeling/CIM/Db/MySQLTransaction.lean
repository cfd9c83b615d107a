import CIM.Lib.System
import Mathlib.Data.List.Basic

/-!
# `MySQLTransaction`

A transaction sends its commands to the database, which accepts them or fails. What the database
makes of the commands is said next to it: a failed command changes nothing, and what stands between
`BEGIN` and `COMMIT` is kept back.
-/
namespace CIM.db

open Transition

/-- A statement is none of the other commands, and none that commits by itself. -/
inductive Command
  | begin
  | statement (sql : String)
  | commit
  | rollback
  deriving DecidableEq

/-- The commands that were sent, with true for those that were accepted. -/
abbrev Sent : Type := List (Command × Bool)

structure MySQLTransaction where
  m_autoCommit : Bool
  m_isFinished : Bool
  m_hasError : Bool

/-- The result, the transaction and what was sent. -/
structure Reply where
  rt : Bool
  transaction : MySQLTransaction
  sent : Sent

namespace MySQLTransaction

/-- `ok` is the answer of the database, if it is asked. -/
def execute (t : MySQLTransaction) (cmd : Command) (ok : Bool) : Reply :=
  if t.m_isFinished then ⟨false, t, []⟩
  else ⟨ok, if ok then t else { t with m_hasError := true }, [(cmd, ok)]⟩

/-- What `commit` and `rollback` do once they have executed their command. -/
def finish (r : Reply) : Reply :=
  { r with transaction :=
      if r.rt then { r.transaction with m_isFinished := true }
      else { r.transaction with m_hasError := true } }

def commit (t : MySQLTransaction) (ok : Bool) : Reply :=
  if t.m_isFinished || t.m_hasError then ⟨!t.m_hasError, t, []⟩ else finish (t.execute .commit ok)

def rollback (t : MySQLTransaction) (ok : Bool) : Reply :=
  if t.m_isFinished then ⟨true, t, []⟩ else finish (t.execute .rollback ok)

/-- The destructor. -/
def destroy (t : MySQLTransaction) (ok : Bool) : Reply :=
  if t.m_autoCommit then t.commit ok else t.rollback ok

end MySQLTransaction

inductive TransactionOp
  | execute (sql : String)
  | commit
  | rollback
  | destroy

/-- A transaction that did not begin is destroyed by `Create`, and no caller gets it. -/
structure Session where
  transaction : MySQLTransaction
  sent : Sent
  begun : Bool
  destroyed : Bool

namespace Session

def add (s : Session) (r : Reply) : Session :=
  { s with transaction := r.transaction, sent := s.sent ++ r.sent }

/-- The result, where the operation has one. -/
def exec (s : Session) (ok : Bool) : TransactionOp → Option (Option Bool × Session)
  | .execute sql =>
      if s.begun && !s.destroyed then
        let r := s.transaction.execute (.statement sql) ok
        some (some r.rt, s.add r)
      else none
  | .commit =>
      if s.begun && !s.destroyed then
        let r := s.transaction.commit ok
        some (some r.rt, s.add r)
      else none
  | .rollback =>
      if s.begun && !s.destroyed then
        let r := s.transaction.rollback ok
        some (some r.rt, s.add r)
      else none
  | .destroy =>
      if s.destroyed then none
      else some (none, { s.add (s.transaction.destroy ok) with destroyed := true })

/-- The constructor and `begin`. -/
def create (auto_commit ok : Bool) : Session :=
  let r := MySQLTransaction.execute ⟨auto_commit, false, false⟩ .begin ok
  ⟨r.transaction, r.sent, r.rt, false⟩

end Session

def sessions (auto_commit : Bool) : System Session (TransactionOp × Bool × Option Bool) where
  init s := ∃ ok, s = Session.create auto_commit ok
  step s e s' := s.exec e.2.1 e.1 = some (e.2.2, s')

/-! ## What the database makes of it -/

structure Database where
  pending : Option (List String)
  committed : List String

namespace Database

/-- `BEGIN` commits what is pending; a statement outside of a transaction is committed at once. -/
def answer (d : Database) : Command × Bool → Database
  | (_, false) => d
  | (.begin, true) => ⟨some [], d.committed ++ d.pending.getD []⟩
  | (.statement sql, true) =>
      match d.pending with
      | some l => ⟨some (l ++ [sql]), d.committed⟩
      | none => ⟨none, d.committed ++ [sql]⟩
  | (.commit, true) => ⟨none, d.committed ++ d.pending.getD []⟩
  | (.rollback, true) => ⟨none, d.committed⟩

def replay (sent : Sent) : Database := sent.foldl answer ⟨none, []⟩

end Database

/-- The statements that were accepted. -/
def statements (sent : Sent) : List String :=
  sent.filterMap fun x =>
    match x with
    | (.statement sql, true) => some sql
    | _ => none

/-! ## Runs -/

namespace MySQLTransaction

open Database

variable {t : MySQLTransaction} {sent : Sent} {begun ok : Bool}

def AllAccepted (sent : Sent) : Prop := ∀ x ∈ sent, x.2 = true

theorem allAccepted_snoc {x : Command × Bool} :
    AllAccepted (sent ++ [x]) ↔ AllAccepted sent ∧ x.2 = true := by
  simp [AllAccepted, or_imp, forall_and]

theorem replay_snoc (sent : Sent) (x : Command × Bool) :
    replay (sent ++ [x]) = (replay sent).answer x := by
  rw [replay, List.foldl_append]
  rfl

theorem replay_failed (sent : Sent) (cmd : Command) :
    replay (sent ++ [(cmd, false)]) = replay sent := by
  rw [replay_snoc]
  cases cmd <;> rfl

theorem statements_snoc (sent : Sent) (x : Command × Bool) :
    statements (sent ++ [x]) = statements sent ++ statements [x] :=
  List.filterMap_append

theorem statements_failed (sent : Sent) (cmd : Command) :
    statements (sent ++ [(cmd, false)]) = statements sent := by
  rw [statements_snoc]
  cases cmd <;> exact List.append_nil _

/-- Where a transaction stands, for what was sent and whether it begun. -/
inductive Stands (begun : Bool) (t : MySQLTransaction) (sent : Sent) : Prop
  | pending (hf : t.m_isFinished = false) (hr : (Command.rollback, true) ∉ sent)
      (hd : replay sent = ⟨if begun then some (statements sent) else none, []⟩)
  | committed (hf : t.m_isFinished = true) (hall : AllAccepted sent)
      (hd : replay sent = ⟨none, statements sent⟩)
  | rolledBack (hf : t.m_isFinished = true) (hr : sent.getLast? = some (Command.rollback, true))
      (hd : replay sent = ⟨none, []⟩)

structure Good (begun : Bool) (t : MySQLTransaction) (sent : Sent) : Prop where
  error : t.m_hasError = false ↔ AllAccepted sent
  unbegun : begun = false → t.m_hasError = true
  stands : Stands begun t sent

theorem Good.pending (h : Good begun t sent) (hf : t.m_isFinished = false) :
    (Command.rollback, true) ∉ sent ∧
      replay sent = ⟨if begun then some (statements sent) else none, []⟩ := by
  cases h.stands with
  | pending _ hr hd => exact ⟨hr, hd⟩
  | committed hf' _ _ => cases hf.symm.trans hf'
  | rolledBack hf' _ _ => cases hf.symm.trans hf'

/-- A command that failed leaves the database where it is. -/
theorem Good.failed (h : Good begun t sent) (hf : t.m_isFinished = false) (cmd : Command) :
    Good begun { t with m_hasError := true } (sent ++ [(cmd, false)]) := by
  obtain ⟨hr, hd⟩ := h.pending hf
  refine ⟨iff_of_false nofun ?_, fun _ => rfl, .pending hf ?_ ?_⟩
  · intro hall
    cases (allAccepted_snoc.mp hall).2
  · intro hmem
    rcases List.mem_append.mp hmem with hmem | hmem
    · exact hr hmem
    · cases List.mem_singleton.mp hmem
  · rw [replay_failed, statements_failed, hd]

theorem execute_ok (hf : t.m_isFinished = false) (cmd : Command) :
    t.execute cmd true = ⟨true, t, [(cmd, true)]⟩ := by
  rw [MySQLTransaction.execute, hf]
  rfl

theorem execute_failed (hf : t.m_isFinished = false) (cmd : Command) :
    t.execute cmd false = ⟨false, { t with m_hasError := true }, [(cmd, false)]⟩ := by
  rw [MySQLTransaction.execute, hf]
  rfl

theorem allAccepted_accepted (sent : Sent) (cmd : Command) :
    AllAccepted (sent ++ [(cmd, true)]) ↔ AllAccepted sent :=
  allAccepted_snoc.trans (and_iff_left rfl)

theorem Good.execute (h : Good begun t sent) (hb : begun = true) (sql : String) (ok : Bool) :
    Good begun (t.execute (.statement sql) ok).transaction
      (sent ++ (t.execute (.statement sql) ok).sent) := by
  cases hf : t.m_isFinished with
  | true =>
      rw [MySQLTransaction.execute, hf, if_pos rfl, List.append_nil]
      exact h
  | false =>
      cases ok with
      | false =>
          rw [execute_failed hf]
          exact h.failed hf _
      | true =>
          rw [execute_ok hf]
          obtain ⟨hr, hd⟩ := h.pending hf
          refine ⟨h.error.trans (allAccepted_accepted _ _).symm, h.unbegun, .pending hf ?_ ?_⟩
          · intro hmem
            rcases List.mem_append.mp hmem with hmem | hmem
            · exact hr hmem
            · cases List.mem_singleton.mp hmem
          · subst hb
            rw [replay_snoc, statements_snoc, hd]
            rfl

theorem Good.commit (h : Good begun t sent) (ok : Bool) :
    Good begun (t.commit ok).transaction (sent ++ (t.commit ok).sent) := by
  rw [MySQLTransaction.commit]
  cases hf : t.m_isFinished with
  | true =>
      rw [Bool.true_or, if_pos rfl, List.append_nil]
      exact h
  | false =>
      cases he : t.m_hasError with
      | true =>
          rw [Bool.false_or, if_pos rfl, List.append_nil]
          exact h
      | false =>
          rw [Bool.false_or, if_neg Bool.false_ne_true]
          cases ok with
          | false =>
              rw [execute_failed hf]
              exact h.failed hf _
          | true =>
              rw [execute_ok hf]
              have hb : begun = true := by
                cases begun with
                | true => rfl
                | false => cases he.symm.trans (h.unbegun rfl)
              have hall := (allAccepted_accepted _ .commit).mpr (h.error.mp he)
              refine ⟨iff_of_true he hall, h.unbegun, .committed rfl hall ?_⟩
              subst hb
              change replay (sent ++ [(Command.commit, true)]) =
                ⟨none, statements (sent ++ [(Command.commit, true)])⟩
              rw [replay_snoc, statements_snoc, (h.pending hf).2]
              exact congrArg (Database.mk none) (List.append_nil _).symm

theorem Good.rollback (h : Good begun t sent) (ok : Bool) :
    Good begun (t.rollback ok).transaction (sent ++ (t.rollback ok).sent) := by
  rw [MySQLTransaction.rollback]
  cases hf : t.m_isFinished with
  | true =>
      rw [if_pos rfl, List.append_nil]
      exact h
  | false =>
      rw [if_neg Bool.false_ne_true]
      cases ok with
      | false =>
          rw [execute_failed hf]
          exact h.failed hf _
      | true =>
          rw [execute_ok hf]
          refine ⟨h.error.trans (allAccepted_accepted _ _).symm, h.unbegun,
            .rolledBack rfl List.getLast?_concat ?_⟩
          change replay (sent ++ [(Command.rollback, true)]) = _
          rw [replay_snoc, (h.pending hf).2]
          rfl

/-- A transaction that is not finished by `commit` has an error. -/
theorem commit_unfinished (hf : (t.commit ok).transaction.m_isFinished = false) :
    (t.commit ok).transaction.m_hasError = true := by
  cases t with
  | mk auto finished error =>
      cases finished <;> cases error <;> cases ok <;> first | rfl | cases hf

theorem rollback_unfinished (hf : (t.rollback ok).transaction.m_isFinished = false) :
    (sent ++ (t.rollback ok).sent).getLast? = some (.rollback, false) := by
  cases t with
  | mk auto finished error =>
      cases finished <;> cases error <;> cases ok <;>
        first | exact List.getLast?_concat | cases hf

/-- What an operation leaves as it is: the setting, and that there was an error or an end. -/
structure Later (t t' : MySQLTransaction) : Prop where
  auto : t'.m_autoCommit = t.m_autoCommit
  finished : t.m_isFinished = true → t'.m_isFinished = true
  error : t.m_hasError = true → t'.m_hasError = true

theorem later_execute (t : MySQLTransaction) (cmd : Command) (ok : Bool) :
    Later t (t.execute cmd ok).transaction := by
  cases t with
  | mk auto finished error =>
      cases finished <;> cases ok <;> exact ⟨rfl, id, fun h => by first | exact h | rfl⟩

theorem later_commit (t : MySQLTransaction) (ok : Bool) : Later t (t.commit ok).transaction := by
  cases t with
  | mk auto finished error =>
      cases finished <;> cases error <;> cases ok <;>
        exact ⟨rfl, fun h => by first | exact h | rfl, fun h => by first | exact h | rfl⟩

theorem later_rollback (t : MySQLTransaction) (ok : Bool) :
    Later t (t.rollback ok).transaction := by
  cases t with
  | mk auto finished error =>
      cases finished <;> cases ok <;>
        exact ⟨rfl, fun h => by first | exact h | rfl, fun h => by first | exact h | rfl⟩

/-- What `commit` says: true is for a finished transaction, false for one with an error. -/
theorem commit_rt (t : MySQLTransaction) (ok : Bool) :
    ((t.commit ok).rt = true → (t.commit ok).transaction.m_isFinished = true) ∧
      ((t.commit ok).rt = false → (t.commit ok).transaction.m_hasError = true) := by
  cases t with
  | mk auto finished error =>
      cases finished <;> cases error <;> cases ok <;>
        exact ⟨fun h => (by first | rfl | cases h), fun h => (by first | rfl | cases h)⟩

end MySQLTransaction

namespace Session

open Database MySQLTransaction

variable {s s' : Session} {auto_commit : Bool} {op : TransactionOp} {ok : Bool}
  {rt : Option Bool} {es : List (TransactionOp × Bool × Option Bool)}

structure Keeps (auto_commit : Bool) (es : List (TransactionOp × Bool × Option Bool))
    (s : Session) : Prop where
  auto : s.transaction.m_autoCommit = auto_commit
  good : Good s.begun s.transaction s.sent
  yes : ∀ ok, (TransactionOp.commit, ok, some true) ∈ es → s.transaction.m_isFinished = true
  no : ∀ ok, (TransactionOp.commit, ok, some false) ∈ es → s.transaction.m_hasError = true
  destroyed : s.destroyed = true → s.transaction.m_isFinished = false →
    if auto_commit then s.transaction.m_hasError = true
    else s.sent.getLast? = some (.rollback, false)

theorem keeps_create (auto_commit ok : Bool) : Keeps auto_commit [] (create auto_commit ok) := by
  cases ok with
  | true =>
      refine ⟨rfl, ⟨iff_of_true rfl ?_, nofun, .pending rfl ?_ rfl⟩, nofun, nofun, nofun⟩
      · intro x hx
        cases List.mem_singleton.mp hx
        rfl
      · exact fun hmem => nomatch List.mem_singleton.mp hmem
  | false =>
      refine ⟨rfl, ⟨iff_of_false nofun ?_, fun _ => rfl, .pending rfl ?_ rfl⟩, nofun, nofun, nofun⟩
      · exact fun hall => nomatch hall _ List.mem_cons_self
      · exact fun hmem => nomatch List.mem_singleton.mp hmem

/-- An operation on a session that is not destroyed. -/
theorem Keeps.add {r : Reply} {e : TransactionOp × Bool × Option Bool} (h : Keeps auto_commit es s)
    (hlater : Later s.transaction r.transaction)
    (hgood : Good s.begun r.transaction (s.sent ++ r.sent))
    (hyes : ∀ ok, e = (TransactionOp.commit, ok, some true) → r.transaction.m_isFinished = true)
    (hno : ∀ ok, e = (TransactionOp.commit, ok, some false) → r.transaction.m_hasError = true)
    {d : Bool} (hdestroyed : d = true → r.transaction.m_isFinished = false →
      if auto_commit then r.transaction.m_hasError = true
      else (s.sent ++ r.sent).getLast? = some (.rollback, false)) :
    Keeps auto_commit (es ++ [e]) { s.add r with destroyed := d } where
  auto := hlater.auto.trans h.auto
  good := hgood
  yes ok hmem := by
    rcases List.mem_append.mp hmem with hmem | hmem
    · exact hlater.finished (h.yes ok hmem)
    · exact hyes ok (List.mem_singleton.mp hmem).symm
  no ok hmem := by
    rcases List.mem_append.mp hmem with hmem | hmem
    · exact hlater.error (h.no ok hmem)
    · exact hno ok (List.mem_singleton.mp hmem).symm
  destroyed := hdestroyed

theorem Keeps.exec (h : Keeps auto_commit es s) (hexec : s.exec ok op = some (rt, s')) :
    Keeps auto_commit (es ++ [(op, ok, rt)]) s' := by
  cases op with
  | execute sql =>
      simp only [Session.exec] at hexec
      split at hexec
      · rename_i hon
        obtain ⟨hb, hd⟩ := Bool.and_eq_true_iff.mp hon
        cases hexec
        refine h.add (d := s.destroyed) (later_execute ..) (h.good.execute hb sql ok) ?_ ?_ ?_
        · exact nofun
        · exact nofun
        · exact fun hd' => by rw [hd'] at hd; cases hd
      · cases hexec
  | commit =>
      simp only [Session.exec] at hexec
      split at hexec
      · rename_i hon
        obtain ⟨-, hd⟩ := Bool.and_eq_true_iff.mp hon
        cases hexec
        refine h.add (d := s.destroyed) (later_commit ..) (h.good.commit ok) ?_ ?_ ?_
        · intro ok' heq
          exact (commit_rt _ ok).1 (Option.some_inj.mp (congrArg (·.2.2) heq))
        · intro ok' heq
          exact (commit_rt _ ok).2 (Option.some_inj.mp (congrArg (·.2.2) heq))
        · exact fun hd' => by rw [hd'] at hd; cases hd
      · cases hexec
  | rollback =>
      simp only [Session.exec] at hexec
      split at hexec
      · rename_i hon
        obtain ⟨-, hd⟩ := Bool.and_eq_true_iff.mp hon
        cases hexec
        refine h.add (d := s.destroyed) (later_rollback ..) (h.good.rollback ok) ?_ ?_ ?_
        · exact nofun
        · exact nofun
        · exact fun hd' => by rw [hd'] at hd; cases hd
      · cases hexec
  | destroy =>
      simp only [Session.exec] at hexec
      split at hexec
      · cases hexec
      · cases hexec
        rw [MySQLTransaction.destroy, h.auto]
        cases auto_commit with
        | true =>
            refine h.add (later_commit ..) (h.good.commit ok) ?_ ?_ fun _ => commit_unfinished
            · exact nofun
            · exact nofun
        | false =>
            refine h.add (later_rollback ..) (h.good.rollback ok) ?_ ?_
              fun _ => rollback_unfinished
            · exact nofun
            · exact nofun

theorem Keeps.of_run (h : (sessions auto_commit).Run es s) : Keeps auto_commit es s := by
  refine h.history (I := Keeps auto_commit) ?_ ?_
  · rintro s ⟨ok, rfl⟩
    exact keeps_create auto_commit ok
  · rintro es s ⟨op, ok, rt⟩ s' hk hexec
    exact hk.exec hexec

end Session

end CIM.db
