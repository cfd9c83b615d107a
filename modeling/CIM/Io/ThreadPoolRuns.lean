import Mathlib.Data.List.Nodup
import CIM.Io.ThreadPool

/-!
# Tasks of a fixed pool

A task is in the queue, with the one worker that took it, or executed. Nobody waits for tasks
while there are some, and a worker ends only where there are none and none will come.
-/
namespace CIM

open Transition

namespace ThreadPool

variable {s s' : ThreadPool} {e : Step} {t u n : Nat}

/-! ## The points of the workers -/

def pcs (s : ThreadPool) : Nat → Option WorkerPc := fun t => (s.worker t).map Worker.pc

theorem pcs_setWorker (s : ThreadPool) (t : Nat) (w : Worker) :
    (s.setWorker t w).pcs = Function.update s.pcs t (some w.pc) := by
  funext u
  change (Function.update s.worker t (some w) u).map Worker.pc = _
  by_cases hu : u = t
  · rw [hu, Function.update_self, Function.update_self]
    rfl
  · rw [Function.update_of_ne hu, Function.update_of_ne hu]
    rfl

theorem pcs_notifyNotEmpty (s : ThreadPool) :
    s.notifyNotEmpty.pcs = fun t => (s.pcs t).map WorkerPc.notify := by
  funext u
  change ((s.worker u).map _).map Worker.pc = ((s.worker u).map Worker.pc).map WorkerPc.notify
  rw [Option.map_map, Option.map_map]
  rfl

theorem WorkerPc.notify_eq {p q : WorkerPc} (hq : ∀ since, q ≠ .notified since)
    (hw : ∀ since, q ≠ .waiting since) : p.notify = q ↔ p = q := by
  cases p with
  | waiting since =>
      constructor
      · intro h
        exact absurd h.symm (hq since)
      · intro h
        exact absurd h.symm (hw since)
  | _ => exact Iff.rfl

theorem WorkerPc.notify_ne_waiting (p : WorkerPc) (since : Nat) : p.notify ≠ .waiting since := by
  intro h
  cases p <;> cases h

theorem map_notify_some {o : Option WorkerPc} {q : WorkerPc} (hq : ∀ since, q ≠ .notified since)
    (hw : ∀ since, q ≠ .waiting since) : o.map WorkerPc.notify = some q ↔ o = some q := by
  cases o with
  | none => exact Iff.rfl
  | some p =>
      rw [Option.map_some, Option.some.injEq, Option.some.injEq]
      exact WorkerPc.notify_eq hq hw

theorem map_notify_taken {o : Option WorkerPc} :
    o.map WorkerPc.notify = some (.taken n) ↔ o = some (.taken n) :=
  map_notify_some (fun _ h => nomatch h) (fun _ h => nomatch h)

theorem WorkerPc.notify_exited {p : WorkerPc} : p.notify = .exited ↔ p = .exited :=
  WorkerPc.notify_eq (fun _ h => nomatch h) (fun _ h => nomatch h)

/-! ## Submissions -/

/-- Every submission has a number of its own, and is accepted, rejected or waits. -/
structure Numbered (submitted : Nat) (accepted rejected : List Nat)
    (caller : Nat → Option Waiting) : Prop where
  lt : ∀ n ∈ accepted ++ rejected, n < submitted
  nodup : (accepted ++ rejected).Nodup
  waiting : ∀ k c, caller k = some c → c.task < submitted ∧ c.task ∉ accepted ++ rejected
  waiting_once : ∀ k j c d, caller k = some c → caller j = some d → c.task = d.task → k = j

namespace Numbered

variable {submitted : Nat} {accepted rejected : List Nat} {caller : Nat → Option Waiting} {k : Nat}

theorem append_mem {l l' : List Nat} {task : Nat} :
    n ∈ l ++ [task] ++ l' ↔ n = task ∨ n ∈ l ++ l' := by
  simp only [List.mem_append, List.mem_singleton]
  tauto

theorem nodup_insert {l l' : List Nat} {task : Nat} (h : (l ++ l').Nodup) (hn : task ∉ l ++ l') :
    (l ++ [task] ++ l').Nodup := by
  rw [List.append_assoc]
  exact List.perm_middle.nodup_iff.mpr (List.nodup_cons.mpr ⟨hn, h⟩)

/-- The call is over. -/
theorem leave (h : Numbered submitted accepted rejected caller) :
    Numbered submitted accepted rejected (Function.update caller k none) where
  lt := h.lt
  nodup := h.nodup
  waiting := by
    intro j c hc
    by_cases hj : j = k
    · rw [hj, Function.update_self] at hc
      cases hc
    · rw [Function.update_of_ne hj] at hc
      exact h.waiting j c hc
  waiting_once := by
    intro j j' c d hc hd htask
    by_cases hj : j = k
    · rw [hj, Function.update_self] at hc
      cases hc
    · by_cases hj' : j' = k
      · rw [hj', Function.update_self] at hd
        cases hd
      · rw [Function.update_of_ne hj] at hc
        rw [Function.update_of_ne hj'] at hd
        exact h.waiting_once j j' c d hc hd htask

/-- A task that nobody submits elsewhere is accepted. -/
theorem accept (h : Numbered submitted accepted rejected caller) {task : Nat}
    (hlt : task < submitted) (hn : task ∉ accepted ++ rejected)
    (hcaller : ∀ j c, caller j = some c → c.task ≠ task) :
    Numbered submitted (accepted ++ [task]) rejected caller where
  lt := by
    intro n hmem
    rcases append_mem.mp hmem with rfl | hmem
    · exact hlt
    · exact h.lt n hmem
  nodup := nodup_insert h.nodup hn
  waiting := by
    intro j c hc
    refine ⟨(h.waiting j c hc).1, fun hmem => ?_⟩
    rcases append_mem.mp hmem with htask | hmem
    · exact hcaller j c hc htask
    · exact (h.waiting j c hc).2 hmem
  waiting_once := h.waiting_once

theorem reject (h : Numbered submitted accepted rejected caller) {task : Nat}
    (hlt : task < submitted) (hn : task ∉ accepted ++ rejected)
    (hcaller : ∀ j c, caller j = some c → c.task ≠ task) :
    Numbered submitted accepted (rejected ++ [task]) caller where
  lt := by
    intro n hmem
    rw [← List.append_assoc, List.mem_append, List.mem_singleton] at hmem
    rcases hmem with hmem | rfl
    · exact h.lt n hmem
    · exact hlt
  nodup := by
    rw [← List.append_assoc]
    exact List.nodup_append.mpr ⟨h.nodup, List.nodup_singleton task, fun a ha b hb hab =>
      hn (List.mem_singleton.mp hb ▸ hab ▸ ha)⟩
  waiting := by
    intro j c hc
    refine ⟨(h.waiting j c hc).1, fun hmem => ?_⟩
    rw [← List.append_assoc, List.mem_append, List.mem_singleton] at hmem
    rcases hmem with hmem | htask
    · exact (h.waiting j c hc).2 hmem
    · exact hcaller j c hc htask
  waiting_once := h.waiting_once

/-- A new number. -/
theorem submit (h : Numbered submitted accepted rejected caller) :
    Numbered (submitted + 1) accepted rejected caller where
  lt := fun n hn => Nat.lt_succ_of_lt (h.lt n hn)
  nodup := h.nodup
  waiting := fun k c hc => ⟨Nat.lt_succ_of_lt (h.waiting k c hc).1, (h.waiting k c hc).2⟩
  waiting_once := h.waiting_once

theorem wait (h : Numbered submitted accepted rejected caller) {since : Nat} :
    Numbered (submitted + 1) accepted rejected
      (Function.update caller k (some ⟨submitted, since⟩)) where
  lt := h.submit.lt
  nodup := h.nodup
  waiting := by
    intro j c hc
    by_cases hj : j = k
    · rw [hj, Function.update_self] at hc
      cases hc
      exact ⟨Nat.lt_succ_self _, fun hmem => Nat.lt_irrefl _ (h.lt _ hmem)⟩
    · rw [Function.update_of_ne hj] at hc
      exact h.submit.waiting j c hc
  waiting_once := by
    intro j j' c d hc hd htask
    by_cases hj : j = k
    · by_cases hj' : j' = k
      · exact hj.trans hj'.symm
      · rw [hj, Function.update_self] at hc
        rw [Function.update_of_ne hj'] at hd
        cases hc
        exact absurd (h.waiting j' d hd).1 (htask ▸ Nat.lt_irrefl _)
    · by_cases hj' : j' = k
      · rw [hj', Function.update_self] at hd
        rw [Function.update_of_ne hj] at hc
        cases hd
        exact absurd (h.waiting j c hc).1 (htask ▸ Nat.lt_irrefl _)
      · rw [Function.update_of_ne hj] at hc
        rw [Function.update_of_ne hj'] at hd
        exact h.waiting_once j j' c d hc hd htask

/-- The call that leaves had its number alone. -/
theorem alone (h : Numbered submitted accepted rejected caller) {c : Waiting}
    (hk : caller k = some c) (j : Nat) (d : Waiting)
    (hd : Function.update caller k none j = some d) : d.task ≠ c.task := by
  intro htask
  by_cases hj : j = k
  · rw [hj, Function.update_self] at hd
    cases hd
  · rw [Function.update_of_ne hj] at hd
    exact hj (h.waiting_once j k d c hd hk htask)

end Numbered

/-! ## The queue -/

structure Queued (taskQue_ taken accepted : List Nat) (currentTaskSize_ : UInt32) (max : Nat) :
    Prop where
  fifo : taken ++ taskQue_ = accepted
  size : currentTaskSize_ = UInt32.ofNat taskQue_.length
  bound : taskQue_.length ≤ max

namespace Queued

variable {taskQue_ taken accepted : List Nat} {size : UInt32} {max task : Nat}

theorem push (h : Queued taskQue_ taken accepted size max) (hroom : taskQue_.length < max) :
    Queued (taskQue_ ++ [task]) taken (accepted ++ [task]) (size + 1) max where
  fifo := by rw [← List.append_assoc, h.fifo]
  size := by
    rw [List.length_append, List.length_singleton, h.size]
    exact (UInt32.ofNat_add _ _).symm
  bound := by
    rw [List.length_append, List.length_singleton]
    exact hroom

theorem pop (h : Queued (task :: taskQue_) taken accepted size max) :
    Queued taskQue_ (taken ++ [task]) accepted (size - 1) max where
  fifo := by
    rw [List.append_assoc]
    exact h.fifo
  size := by
    rw [h.size, List.length_cons, UInt32.ofNat_add]
    exact UInt32.add_sub_cancel _ _
  bound := Nat.le_of_succ_le h.bound

end Queued

/-! ## Execution -/

/-- A task that was taken is with one worker until it is executed. -/
structure Executing (taken executed : List Nat) (pcs : Nat → Option WorkerPc) : Prop where
  once : executed.Nodup
  executed_taken : ∀ n ∈ executed, n ∈ taken
  pending : ∀ n ∈ taken, n ∈ executed ∨ ∃ t, pcs t = some (.taken n)
  held : ∀ t n, pcs t = some (.taken n) → n ∈ taken ∧ n ∉ executed
  held_once : ∀ t u n, pcs t = some (.taken n) → pcs u = some (.taken n) → t = u

namespace Executing

variable {taken executed : List Nat} {pcs pcs' : Nat → Option WorkerPc} {task : Nat}

/-- The same workers hold the same tasks. -/
theorem congr (h : Executing taken executed pcs)
    (hpcs : ∀ t n, pcs' t = some (.taken n) ↔ pcs t = some (.taken n)) :
    Executing taken executed pcs' where
  once := h.once
  executed_taken := h.executed_taken
  pending n hn := (h.pending n hn).imp_right fun ⟨t, ht⟩ => ⟨t, (hpcs t n).mpr ht⟩
  held t n ht := h.held t n ((hpcs t n).mp ht)
  held_once t u n ht hu := h.held_once t u n ((hpcs t n).mp ht) ((hpcs u n).mp hu)

theorem notify (h : Executing taken executed pcs) :
    Executing taken executed fun t => (pcs t).map WorkerPc.notify :=
  h.congr fun _ _ => map_notify_taken

/-- A worker moves, without a task before and after. -/
theorem move (h : Executing taken executed pcs) {p : WorkerPc}
    (hold : ∀ n, pcs t ≠ some (.taken n)) (hnew : ∀ n, p ≠ .taken n) :
    Executing taken executed (Function.update pcs t (some p)) := by
  refine h.congr fun u n => ?_
  by_cases hu : u = t
  · rw [hu, Function.update_self]
    constructor
    · intro hp
      exact absurd (Option.some.inj hp) (hnew n)
    · intro hp
      exact absurd hp (hold n)
  · rw [Function.update_of_ne hu]

/-- A worker takes a task. -/
theorem take (h : Executing taken executed pcs) (hold : ∀ n, pcs t ≠ some (.taken n))
    (hn : task ∉ taken) :
    Executing (taken ++ [task]) executed (Function.update pcs t (some (.taken task))) where
  once := h.once
  executed_taken n hmem := List.mem_append_left _ (h.executed_taken n hmem)
  pending := by
    intro n hmem
    rcases List.mem_append.mp hmem with hmem | hmem
    · refine (h.pending n hmem).imp_right fun ⟨u, hu⟩ => ⟨u, ?_⟩
      have hut : u ≠ t := by
        rintro rfl
        exact hold n hu
      rw [Function.update_of_ne hut]
      exact hu
    · rw [List.mem_singleton.mp hmem]
      exact .inr ⟨t, Function.update_self _ _ _⟩
  held := by
    intro u n hu
    by_cases hut : u = t
    · rw [hut, Function.update_self] at hu
      cases hu
      exact ⟨List.mem_append_right _ (List.mem_singleton_self _),
        fun hmem => hn (h.executed_taken _ hmem)⟩
    · rw [Function.update_of_ne hut] at hu
      exact ⟨List.mem_append_left _ (h.held u n hu).1, (h.held u n hu).2⟩
  held_once := by
    intro u v n hu hv
    by_cases hut : u = t
    · by_cases hvt : v = t
      · exact hut.trans hvt.symm
      · rw [hut, Function.update_self] at hu
        rw [Function.update_of_ne hvt] at hv
        cases hu
        exact absurd (h.held v _ hv).1 hn
    · by_cases hvt : v = t
      · rw [hvt, Function.update_self] at hv
        rw [Function.update_of_ne hut] at hu
        cases hv
        exact absurd (h.held u _ hu).1 hn
      · rw [Function.update_of_ne hut] at hu
        rw [Function.update_of_ne hvt] at hv
        exact h.held_once u v n hu hv

/-- The worker that holds a task executes it. -/
theorem run (h : Executing taken executed pcs) (ht : pcs t = some (.taken task)) :
    Executing taken (executed ++ [task]) (Function.update pcs t (some (.running task))) where
  once := List.nodup_append.mpr ⟨h.once, List.nodup_singleton task, fun a ha b hb hab =>
    (h.held t task ht).2 (List.mem_singleton.mp hb ▸ hab ▸ ha)⟩
  executed_taken := by
    intro n hmem
    rcases List.mem_append.mp hmem with hmem | hmem
    · exact h.executed_taken n hmem
    · rw [List.mem_singleton.mp hmem]
      exact (h.held t task ht).1
  pending := by
    intro n hmem
    rcases h.pending n hmem with hmem | ⟨u, hu⟩
    · exact .inl (List.mem_append_left _ hmem)
    · by_cases hut : u = t
      · rw [hut, ht] at hu
        cases hu
        exact .inl (List.mem_append_right _ (List.mem_singleton_self _))
      · rw [← Function.update_of_ne hut (some (.running task)) pcs] at hu
        exact .inr ⟨u, hu⟩
  held := by
    intro u n hu
    by_cases hut : u = t
    · rw [hut, Function.update_self] at hu
      cases hu
    · rw [Function.update_of_ne hut] at hu
      refine ⟨(h.held u n hu).1, fun hmem => ?_⟩
      rcases List.mem_append.mp hmem with hmem | hmem
      · exact (h.held u n hu).2 hmem
      · rw [List.mem_singleton.mp hmem] at hu
        exact hut (h.held_once u t task hu ht)
  held_once := by
    intro u v n hu hv
    have hne : ∀ w, Function.update pcs t (some (.running task)) w = some (.taken n) →
        pcs w = some (.taken n) := by
      intro w hw
      by_cases hwt : w = t
      · rw [hwt, Function.update_self] at hw
        cases hw
      · rw [Function.update_of_ne hwt] at hw
        exact hw
    exact h.held_once u v n (hne u hu) (hne v hv)

end Executing

/-! ## The workers and the destructor -/

/-- The table holds the workers that have not ended; a worker waits or ends only where the queue is
empty. -/
structure Staffed (threads_ taskQue_ : List Nat) (poolIsRunning_ : Bool) (destructor : Destructor)
    (pcs : Nat → Option WorkerPc) : Prop where
  nodup : threads_.Nodup
  table : ∀ t, t ∈ threads_ ↔ ∃ p, pcs t = some p ∧ p ≠ .exited
  waiting : ∀ t since, pcs t = some (.waiting since) →
    taskQue_ = [] ∧ (destructor = .alive ∨ destructor = .stopping)
  exited : ∀ t, pcs t = some .exited → taskQue_ = [] ∧ destructor ≠ .alive
  stopped : destructor ≠ .alive → poolIsRunning_ = false
  started : destructor ≠ .alive → ∃ t, pcs t ≠ none
  idle : destructor = .alive → poolIsRunning_ = false → ∀ t, pcs t = none
  blocked : destructor = .blocked → threads_ ≠ []
  finished : destructor = .finished → threads_ = []

namespace Staffed

variable {threads_ taskQue_ : List Nat} {running : Bool} {destructor : Destructor}
  {pcs : Nat → Option WorkerPc} {task : Nat}

/-- Where the workers and the queue change. -/
theorem congr (h : Staffed threads_ taskQue_ running destructor pcs) {taskQue' : List Nat}
    {pcs' : Nat → Option WorkerPc}
    (htable : ∀ t, (∃ p, pcs' t = some p ∧ p ≠ .exited) ↔ ∃ p, pcs t = some p ∧ p ≠ .exited)
    (hnone : ∀ t, pcs' t = none ↔ pcs t = none)
    (hwaiting : ∀ t since, pcs' t = some (.waiting since) →
      taskQue' = [] ∧ (destructor = .alive ∨ destructor = .stopping))
    (hexited : ∀ t, pcs' t = some .exited → taskQue' = [] ∧ destructor ≠ .alive) :
    Staffed threads_ taskQue' running destructor pcs' where
  nodup := h.nodup
  table t := (h.table t).trans (htable t).symm
  waiting := hwaiting
  exited := hexited
  stopped := h.stopped
  started hd := (h.started hd).imp fun t ht => mt (hnone t).mp ht
  idle hd hr t := (hnone t).mpr (h.idle hd hr t)
  blocked := h.blocked
  finished := h.finished

theorem map_notify_table (t : Nat) :
    (∃ p, (pcs t).map WorkerPc.notify = some p ∧ p ≠ .exited) ↔
      ∃ p, pcs t = some p ∧ p ≠ .exited := by
  cases hp : pcs t with
  | none => exact Iff.rfl
  | some p =>
      simp only [Option.map_some, Option.some.injEq, exists_eq_left']
      exact not_congr WorkerPc.notify_exited

theorem map_notify_waiting {since : Nat} :
    (pcs t).map WorkerPc.notify ≠ some (.waiting since) := by
  intro h
  obtain ⟨p, -, hp⟩ := Option.map_eq_some_iff.mp h
  exact p.notify_ne_waiting since hp

theorem map_notify_exited :
    (pcs t).map WorkerPc.notify = some .exited ↔ pcs t = some .exited :=
  map_notify_some (fun _ h => nomatch h) (fun _ h => nomatch h)

/-- All are notified, with any tasks put into the queue while the pool is alive. -/
theorem push (h : Staffed threads_ taskQue_ running destructor pcs) (hd : destructor = .alive) :
    Staffed threads_ (taskQue_ ++ [task]) running destructor
      fun t => (pcs t).map WorkerPc.notify := by
  refine h.congr map_notify_table (fun _ => Option.map_eq_none_iff) ?_ ?_
  · intro t since ht
    exact absurd ht map_notify_waiting
  · intro t ht
    exact absurd hd (h.exited t (map_notify_exited.mp ht)).2

theorem notify (h : Staffed threads_ taskQue_ running destructor pcs) :
    Staffed threads_ taskQue_ running destructor fun t => (pcs t).map WorkerPc.notify := by
  refine h.congr map_notify_table (fun _ => Option.map_eq_none_iff) ?_ ?_
  · intro t since ht
    exact absurd ht map_notify_waiting
  · intro t ht
    exact h.exited t (map_notify_exited.mp ht)

/-- The first task is taken out. -/
theorem pop (h : Staffed threads_ (task :: taskQue_) running destructor pcs) :
    Staffed threads_ taskQue_ running destructor pcs := by
  refine h.congr (fun _ => Iff.rfl) (fun _ => Iff.rfl) ?_ ?_
  · intro t since ht
    cases (h.waiting t since ht).1
  · intro t ht
    cases (h.exited t ht).1

/-- A worker that has not ended moves to where it does not end. -/
theorem move (h : Staffed threads_ taskQue_ running destructor pcs) {p q : WorkerPc}
    (ht : pcs t = some q) (hq : q ≠ .exited) (hp : p ≠ .exited)
    (hwait : ∀ since, p = .waiting since →
      taskQue_ = [] ∧ (destructor = .alive ∨ destructor = .stopping)) :
    Staffed threads_ taskQue_ running destructor (Function.update pcs t (some p)) := by
  refine h.congr ?_ ?_ ?_ ?_
  · intro u
    by_cases hu : u = t
    · rw [hu, Function.update_self, ht]
      simp only [Option.some.injEq, exists_eq_left']
      exact iff_of_true hp hq
    · rw [Function.update_of_ne hu]
  · intro u
    by_cases hu : u = t
    · rw [hu, Function.update_self, ht]
      simp only [reduceCtorEq]
    · rw [Function.update_of_ne hu]
  · intro u since hu
    by_cases hut : u = t
    · rw [hut, Function.update_self] at hu
      exact hwait since (Option.some.inj hu)
    · rw [Function.update_of_ne hut] at hu
      exact h.waiting u since hu
  · intro u hu
    by_cases hut : u = t
    · rw [hut, Function.update_self] at hu
      exact absurd (Option.some.inj hu) hp
    · rw [Function.update_of_ne hut] at hu
      exact h.exited u hu

/-- A worker ends where there are no tasks and the pool does not run. -/
theorem exit (h : Staffed threads_ [] false destructor pcs) {q : WorkerPc}
    (ht : pcs t = some q) (hq : q ≠ .exited) :
    Staffed (threads_.erase t) [] false (if destructor = .blocked then .notified else destructor)
      (Function.update pcs t (some .exited)) := by
  have hd : destructor ≠ .alive := by
    intro hd
    have hnone := h.idle hd rfl t
    rw [ht] at hnone
    cases hnone
  have hd' : (if destructor = .blocked then .notified else destructor) ≠ .alive := by
    split
    · exact fun h => nomatch h
    · exact hd
  have hmem : t ∈ threads_ := (h.table t).mpr ⟨q, ht, hq⟩
  constructor
  · exact h.nodup.erase t
  · intro u
    rw [h.nodup.mem_erase_iff, h.table u]
    by_cases hu : u = t
    · rw [hu, Function.update_self]
      simp
    · rw [Function.update_of_ne hu]
      simp [hu]
  · intro u since hu
    by_cases hut : u = t
    · rw [hut, Function.update_self] at hu
      cases hu
    · rw [Function.update_of_ne hut] at hu
      rcases (h.waiting u since hu).2 with halive | hstop
      · exact absurd halive hd
      · rw [hstop]
        exact ⟨rfl, .inr rfl⟩
  · exact fun u _ => ⟨rfl, hd'⟩
  · exact fun _ => rfl
  · intro _
    refine ⟨t, ?_⟩
    rw [Function.update_self]
    exact Option.some_ne_none _
  · exact fun halive => absurd halive hd'
  · intro hb
    split at hb
    · cases hb
    · rename_i hne
      exact absurd hb hne
  · intro hf
    split at hf
    · cases hf
    · rw [h.finished hf] at hmem
      cases hmem

end Staffed

/-! ## The invariant -/

structure Inv (s : ThreadPool) : Prop where
  fixed : s.poolMode_ = .MODE_FIXED
  numbered : Numbered s.submitted s.accepted s.rejected s.caller
  queued : Queued s.taskQue_ s.taken s.accepted s.currentTaskSize_ s.taskQueMaxSize_
  executing : Executing s.taken s.executed s.pcs
  staffed : Staffed s.threads_ s.taskQue_ s.poolIsRunning_ s.destructor s.pcs
  calls : s.destructor ≠ .alive → ∀ k, s.caller k = none

/-- The destructor is called after all submissions returned, and the pool was started with a
thread. -/
def Orderly (s : ThreadPool) : Step → Prop
  | .submit _ _ _ => s.destructor = .alive
  | .destroy => (∀ k, s.caller k = none) ∧ s.poolIsRunning_ = true ∧ s.threads_ ≠ []
  | _ => True

/-- A fixed pool does not grow. -/
theorem accept_fixed (h : s.poolMode_ = .MODE_FIXED) (task id : Nat) (started : Bool) :
    s.accept task id started = notifyNotEmpty
      { s with
        taskQue_ := s.taskQue_ ++ [task]
        currentTaskSize_ := s.currentTaskSize_ + 1
        accepted := s.accepted ++ [task] } := by
  refine if_neg ?_
  rintro ⟨hmode, -⟩
  cases h.symm.trans hmode

namespace Inv

variable {w : Worker}

theorem pcs_eq (hw : s.worker t = some w) : s.pcs t = some w.pc := by
  unfold pcs
  rw [hw]
  rfl

theorem create (max threads clock : Nat) : Inv (create .MODE_FIXED max threads clock) where
  fixed := rfl
  numbered := ⟨fun n hn => (nomatch hn), List.nodup_nil, fun k c hc => (nomatch hc),
    fun k j c d hc => (nomatch hc)⟩
  queued := ⟨rfl, rfl, Nat.zero_le _⟩
  executing := ⟨List.nodup_nil, fun n hn => (nomatch hn), fun n hn => (nomatch hn),
    fun t n ht => (nomatch ht), fun t u n ht => (nomatch ht)⟩
  staffed := by
    refine ⟨List.nodup_nil, ?_, fun t since ht => (nomatch ht), fun t ht => (nomatch ht), ?_, ?_,
      fun _ _ _ => rfl, fun h => (nomatch h), fun h => (nomatch h)⟩
    · intro t
      constructor
      · intro ht
        cases ht
      · rintro ⟨p, hp, -⟩
        cases hp
    · exact fun h => absurd rfl h
    · exact fun h => absurd rfl h
  calls := fun h => absurd rfl h

theorem start (h : Inv s) (hrun : s.poolIsRunning_ = false) (hd : s.destructor = .alive)
    {ids : List Nat} (hids : ids.Nodup) : Inv (s.start ids) := by
  have hnone := h.staffed.idle hd hrun
  have hthreads : s.threads_ = [] := by
    apply List.eq_nil_iff_forall_not_mem.mpr
    intro t ht
    obtain ⟨p, hp, -⟩ := (h.staffed.table t).mp ht
    rw [hnone t] at hp
    cases hp
  have hpcs : ∀ t, (s.start ids).pcs t = if t ∈ ids then some .lock else none := by
    intro t
    change (if t ∈ ids then some _ else s.worker t).map Worker.pc = _
    split
    · rfl
    · exact hnone t
  have hlock : ∀ {t p}, (s.start ids).pcs t = some p → p = .lock := by
    intro t p hp
    rw [hpcs t] at hp
    split at hp
    · exact (Option.some.inj hp).symm
    · cases hp
  refine ⟨h.fixed, h.numbered, h.queued, ?_, ?_, h.calls⟩
  · refine h.executing.congr fun t n => ?_
    constructor
    · intro ht
      cases hlock ht
    · intro ht
      cases (hnone t).symm.trans ht
  · change Staffed (s.threads_ ++ ids) s.taskQue_ true s.destructor (s.start ids).pcs
    rw [hthreads, hd]
    refine ⟨hids, ?_, ?_, ?_, fun h => absurd rfl h, fun h => absurd rfl h, fun _ h => (nomatch h),
      fun h => (nomatch h), fun h => (nomatch h)⟩
    · intro t
      rw [hpcs t, List.nil_append]
      constructor
      · intro ht
        exact ⟨.lock, if_pos ht, fun h => nomatch h⟩
      · rintro ⟨p, hp, -⟩
        by_contra ht
        rw [if_neg ht] at hp
        cases hp
    · intro t since ht
      cases hlock ht
    · intro t ht
      cases hlock ht

theorem accept (h : Inv s) {task id : Nat} {started : Bool} (hlt : task < s.submitted)
    (hn : task ∉ s.accepted ++ s.rejected) (hcaller : ∀ j c, s.caller j = some c → c.task ≠ task)
    (hd : s.destructor = .alive) (hroom : s.hasRoom = true) : Inv (s.accept task id started) := by
  rw [accept_fixed h.fixed]
  refine ⟨h.fixed, h.numbered.accept hlt hn hcaller, h.queued.push (of_decide_eq_true hroom), ?_,
    ?_, h.calls⟩
  · rw [pcs_notifyNotEmpty]
    exact h.executing.notify
  · rw [pcs_notifyNotEmpty]
    exact h.staffed.push hd

/-- A worker without a task goes through the queue. -/
theorem loop (h : Inv s) (hw : s.worker t = some w) (hexited : w.pc ≠ .exited)
    (htaken : ∀ n, w.pc ≠ .taken n) : Inv (s.loop t w) := by
  have hpc := pcs_eq hw
  have hnot : ∀ n, s.pcs t ≠ some (.taken n) := by
    intro n hn
    exact htaken n (Option.some.inj (hpc.symm.trans hn))
  unfold ThreadPool.loop
  cases hqueue : s.taskQue_ with
  | nil =>
      cases hrun : s.poolIsRunning_ with
      | true =>
          have hd : s.destructor = .alive := by
            by_contra hd
            cases (h.staffed.stopped hd).symm.trans hrun
          refine ⟨h.fixed, h.numbered, h.queued, ?_, ?_, h.calls⟩
          · rw [if_pos rfl, pcs_setWorker]
            exact h.executing.move hnot fun _ h => nomatch h
          · rw [if_pos rfl, pcs_setWorker]
            exact h.staffed.move hpc hexited (fun h => nomatch h) fun _ _ => ⟨hqueue, .inl hd⟩
      | false =>
          refine ⟨h.fixed, h.numbered, h.queued, ?_, ?_, ?_⟩
          · rw [if_neg Bool.false_ne_true]
            change Executing s.taken s.executed (s.setWorker t _).pcs
            rw [pcs_setWorker]
            exact h.executing.move hnot fun _ h => nomatch h
          · have hstaffed := h.staffed
            rw [hqueue, hrun] at hstaffed
            rw [if_neg Bool.false_ne_true]
            change Staffed (s.threads_.erase t) s.taskQue_ s.poolIsRunning_ _ (s.setWorker t _).pcs
            rw [pcs_setWorker, hqueue, hrun]
            exact hstaffed.exit hpc hexited
          · rw [if_neg Bool.false_ne_true]
            refine fun hd => h.calls ?_
            intro halive
            change (if s.destructor = .blocked then _ else s.destructor) ≠ .alive at hd
            rw [halive] at hd
            exact hd rfl
  | cons task rest =>
      have hqueued := h.queued
      have hstaffed := h.staffed
      rw [hqueue] at hqueued hstaffed
      have hfresh : task ∉ s.taken := by
        have hnodup := h.numbered.nodup
        rw [← hqueued.fifo, List.append_assoc] at hnodup
        intro hmem
        have hdisj := (List.nodup_append.mp hnodup).2.2 task hmem task
          (List.mem_append_left _ List.mem_cons_self)
        exact hdisj rfl
      cases rest with
      | nil =>
          refine ⟨h.fixed, h.numbered, hqueued.pop, ?_, ?_, h.calls⟩
          · change Executing _ s.executed ((s.pop task []).setWorker t _).pcs
            rw [pcs_setWorker]
            exact h.executing.take hnot hfresh
          · change Staffed s.threads_ [] s.poolIsRunning_ s.destructor
              ((s.pop task []).setWorker t _).pcs
            rw [pcs_setWorker]
            exact hstaffed.pop.move hpc hexited (fun h => nomatch h) fun _ h => nomatch h
      | cons next rest =>
          have hnotified : ∀ n, (s.pcs t).map WorkerPc.notify ≠ some (.taken n) := by
            intro n hn
            exact hnot n (map_notify_taken.mp hn)
          refine ⟨h.fixed, h.numbered, hqueued.pop, ?_, ?_, h.calls⟩
          · change Executing _ s.executed ((s.pop task (next :: rest)).notifyNotEmpty.setWorker t _).pcs
            rw [pcs_setWorker, pcs_notifyNotEmpty]
            exact h.executing.notify.take hnotified hfresh
          · change Staffed s.threads_ (next :: rest) s.poolIsRunning_ s.destructor
              ((s.pop task (next :: rest)).notifyNotEmpty.setWorker t _).pcs
            rw [pcs_setWorker, pcs_notifyNotEmpty]
            refine hstaffed.pop.notify.move (q := w.pc.notify) ?_ ?_ (fun h => nomatch h)
              fun _ h => nomatch h
            · rw [hpc]
              rfl
            · exact mt WorkerPc.notify_exited.mp hexited

theorem stepWorker (h : Inv s) (hw : s.worker t = some w) {timeout : Bool}
    (hs : s.stepWorker t w timeout = some s') : Inv s' := by
  have hpc := pcs_eq hw
  -- a fixed pool waits without a timeout
  have hwake : ∀ since, s.wake t w since timeout = some s' → s' = s.loop t w := by
    intro since hs
    unfold wake at hs
    split at hs
    · split at hs
      next hmode => cases h.fixed.symm.trans hmode.1
      next => cases hs
    · exact (Option.some.inj hs).symm
  unfold ThreadPool.stepWorker at hs
  split at hs
  next hlock =>
    cases hs
    exact h.loop hw (by rw [hlock]; exact fun h => nomatch h)
      (by rw [hlock]; exact fun _ h => nomatch h)
  next since hwait =>
    rw [hwake since hs]
    exact h.loop hw (by rw [hwait]; exact fun h => nomatch h)
      (by rw [hwait]; exact fun _ h => nomatch h)
  next since hnot =>
    rw [hwake since hs]
    exact h.loop hw (by rw [hnot]; exact fun h => nomatch h)
      (by rw [hnot]; exact fun _ h => nomatch h)
  next task htaken =>
    cases hs
    rw [htaken] at hpc
    refine ⟨h.fixed, h.numbered, h.queued, ?_, ?_, h.calls⟩
    · change Executing s.taken (s.executed ++ [task]) (s.setWorker t _).pcs
      rw [pcs_setWorker]
      exact h.executing.run hpc
    · change Staffed s.threads_ s.taskQue_ s.poolIsRunning_ s.destructor (s.setWorker t _).pcs
      rw [pcs_setWorker]
      exact h.staffed.move hpc (fun h => nomatch h) (fun h => nomatch h) fun _ h => nomatch h
  next task hrun =>
    cases hs
    rw [hrun] at hpc
    refine ⟨h.fixed, h.numbered, h.queued, ?_, ?_, h.calls⟩
    · change Executing s.taken s.executed (s.setWorker t _).pcs
      rw [pcs_setWorker]
      refine h.executing.move (fun n hn => ?_) fun _ h => nomatch h
      cases hpc.symm.trans hn
    · change Staffed s.threads_ s.taskQue_ s.poolIsRunning_ s.destructor (s.setWorker t _).pcs
      rw [pcs_setWorker]
      exact h.staffed.move hpc (fun h => nomatch h) (fun h => nomatch h) fun _ h => nomatch h
  next => cases hs

/-- The destructor looks at the table when nobody waits for tasks. -/
theorem awaitExit (h : Inv s) (hd : s.destructor ≠ .alive)
    (hwait : ∀ t since, s.pcs t ≠ some (.waiting since)) : Inv s.awaitExit := by
  have hd' : s.awaitExit.destructor ≠ .alive := by
    unfold ThreadPool.awaitExit
    dsimp only
    split <;> exact fun h => nomatch h
  refine ⟨h.fixed, h.numbered, h.queued, h.executing, ?_, fun _ => h.calls hd⟩
  refine ⟨h.staffed.nodup, h.staffed.table, fun t since ht => absurd ht (hwait t since),
    fun t ht => ⟨(h.staffed.exited t ht).1, hd'⟩, fun _ => h.staffed.stopped hd,
    fun _ => h.staffed.started hd, fun ha => absurd ha hd', ?_, ?_⟩
  · intro hb
    unfold ThreadPool.awaitExit at hb
    dsimp only at hb
    split at hb
    · cases hb
    · assumption
  · intro hf
    unfold ThreadPool.awaitExit at hf
    dsimp only at hf
    split at hf
    · assumption
    · cases hf

theorem notify (h : Inv s) : Inv s.notifyNotEmpty := by
  refine ⟨h.fixed, h.numbered, h.queued, ?_, ?_, h.calls⟩
  · rw [pcs_notifyNotEmpty]
    exact h.executing.notify
  · rw [pcs_notifyNotEmpty]
    exact h.staffed.notify

theorem step (h : Inv s) (hg : s.Orderly e) (hs : s.exec e = some s') : Inv s' := by
  cases e with
  | start ids =>
      rw [exec] at hs
      split at hs
      · cases hs
        exact h
      next hrun =>
        split at hs
        next hids =>
          cases hs
          exact h.start (Bool.eq_false_iff.mpr hrun) hids.1 hids.2.1
        next => cases hs
  | submit k id started =>
      have hbelow : s.submitted ∉ s.accepted ++ s.rejected := fun hmem =>
        Nat.lt_irrefl _ (h.numbered.lt _ hmem)
      rw [exec] at hs
      split at hs
      next => cases hs
      next hk =>
        split at hs
        next => cases hs
        next =>
          dsimp only at hs
          split at hs
          next hroom =>
            cases hs
            have h' : Inv { s with submitted := s.submitted + 1 } :=
              ⟨h.fixed, h.numbered.submit, h.queued, h.executing, h.staffed, h.calls⟩
            refine h'.accept (Nat.lt_succ_self _) hbelow (fun j c hc => ?_) hg hroom
            exact Nat.ne_of_lt (h.numbered.waiting j c hc).1
          next =>
            cases hs
            exact ⟨h.fixed, h.numbered.wait, h.queued, h.executing, h.staffed,
              fun hd => absurd hg hd⟩
  | retry k id started =>
      rw [exec] at hs
      split at hs
      next => cases hs
      next c hk =>
        have hd : s.destructor = .alive := by
          by_contra hd
          cases (h.calls hd k).symm.trans hk
        have hc := h.numbered.waiting k c hk
        split at hs
        next => cases hs
        next =>
          split at hs
          next hroom =>
            cases hs
            have h' : Inv (s.setCaller k none) :=
              ⟨h.fixed, h.numbered.leave, h.queued, h.executing, h.staffed,
                fun hd' => absurd hd hd'⟩
            exact h'.accept hc.1 hc.2 (h.numbered.alone hk) hd hroom
          next =>
            split at hs
            next =>
              cases hs
              exact ⟨h.fixed, h.numbered.leave.reject hc.1 hc.2 (h.numbered.alone hk), h.queued,
                h.executing, h.staffed, fun hd' => absurd hd hd'⟩
            next =>
              cases hs
              exact h
  | worker t timeout =>
      obtain ⟨w, hw, hs⟩ := Option.bind_eq_some_iff.mp hs
      exact h.stepWorker hw hs
  | destroy =>
      rw [exec] at hs
      split at hs
      next hd =>
        cases hs
        obtain ⟨hcalls, hrun, hthreads⟩ := hg
        refine ⟨h.fixed, h.numbered, h.queued, h.executing, ?_, fun _ => hcalls⟩
        obtain ⟨t, ht⟩ := List.exists_mem_of_ne_nil _ hthreads
        obtain ⟨p, hp, -⟩ := (h.staffed.table t).mp ht
        refine ⟨h.staffed.nodup, h.staffed.table,
          fun u since hu => ⟨(h.staffed.waiting u since hu).1, .inr rfl⟩,
          fun u hu => ⟨(h.staffed.exited u hu).1, fun h => nomatch h⟩, fun _ => rfl,
          fun _ => ⟨t, ?_⟩, fun h => (nomatch h), fun h => (nomatch h), fun h => (nomatch h)⟩
        change s.pcs t ≠ none
        rw [hp]
        exact Option.some_ne_none _
      next => cases hs
  | destructor =>
      rw [exec] at hs
      split at hs
      next hd =>
        cases hs
        refine h.notify.awaitExit (fun ha => nomatch hd.symm.trans ha) fun t since ht => ?_
        rw [pcs_notifyNotEmpty] at ht
        exact Staffed.map_notify_waiting ht
      next hd =>
        cases hs
        refine h.awaitExit (fun ha => nomatch hd.symm.trans ha) fun t since ht => ?_
        rcases (h.staffed.waiting t since ht).2 with ha | ha <;> cases hd.symm.trans ha
      next hd =>
        cases hs
        refine h.awaitExit (fun ha => nomatch hd.symm.trans ha) fun t since ht => ?_
        rcases (h.staffed.waiting t since ht).2 with ha | ha <;> cases hd.symm.trans ha
      next => cases hs
  | advance now =>
      rw [exec] at hs
      split at hs
      next =>
        cases hs
        exact ⟨h.fixed, h.numbered, h.queued, h.executing, h.staffed, h.calls⟩
      next => cases hs

end Inv

/-! ## Runs of a fixed pool -/

/-- The worker goes on by itself: it neither waits for a notification nor has it ended. -/
def Awake (s : ThreadPool) (t : Nat) : Prop :=
  ∃ p, s.pcs t = some p ∧ p ≠ .exited ∧ ∀ since, p ≠ .waiting since

theorem Awake.steps (h : s.Awake t) : ∃ s', s.exec (.worker t false) = some s' := by
  obtain ⟨p, hp, hexited, hwaiting⟩ := h
  obtain ⟨w, hw, rfl⟩ := Option.map_eq_some_iff.mp hp
  rw [exec, hw]
  change ∃ s', s.stepWorker t w false = some s'
  unfold stepWorker
  split
  next => exact ⟨_, rfl⟩
  next since hwait => exact absurd hwait (hwaiting since)
  next => exact ⟨_, rfl⟩
  next => exact ⟨_, rfl⟩
  next => exact ⟨_, rfl⟩
  next hexit => exact absurd hexit hexited

/-- What is kept of the tasks: they are taken in order and executed once, as long as one is not
executed some worker goes on, and none is left when the destructor has ended. -/
structure Conserves (s : ThreadPool) : Prop where
  fifo : s.taken ++ s.taskQue_ = s.accepted
  once : ∀ n, s.executed.count n ≤ 1
  accepted : ∀ n ∈ s.executed, n ∈ s.accepted
  rejected : ∀ n ∈ s.rejected, n ∉ s.accepted ∧ n ∉ s.executed
  bound : s.taskQue_.length ≤ s.taskQueMaxSize_
  goes_on : (∃ n ∈ s.accepted, n ∉ s.executed) → (∃ t, s.worker t ≠ none) → ∃ t, s.Awake t
  ends : s.destructor = .blocked → ∃ t, s.Awake t
  finished : s.destructor = .finished → s.threads_ = [] ∧ ∀ n ∈ s.accepted, s.executed.count n = 1

theorem Inv.conserves (h : Inv s) : s.Conserves where
  fifo := h.queued.fifo
  once := List.nodup_iff_count_le_one.mp h.executing.once
  accepted n hn := by
    rw [← h.queued.fifo]
    exact List.mem_append_left _ (h.executing.executed_taken n hn)
  rejected n hn := by
    have hnot : n ∉ s.accepted := fun hmem =>
      (List.nodup_append.mp h.numbered.nodup).2.2 n hmem n hn rfl
    refine ⟨hnot, fun hmem => hnot ?_⟩
    rw [← h.queued.fifo]
    exact List.mem_append_left _ (h.executing.executed_taken n hmem)
  bound := h.queued.bound
  goes_on := by
    rintro ⟨n, hn, hnot⟩ ⟨t, ht⟩
    rw [← h.queued.fifo, List.mem_append] at hn
    rcases hn with hn | hn
    · obtain ⟨u, hu⟩ := (h.executing.pending n hn).resolve_left hnot
      exact ⟨u, _, hu, fun h => (nomatch h), fun _ h => (nomatch h)⟩
    · obtain ⟨w, hw⟩ := Option.ne_none_iff_exists'.mp ht
      have hpc := Inv.pcs_eq hw
      have hqueue : s.taskQue_ ≠ [] := List.ne_nil_of_mem hn
      refine ⟨t, w.pc, hpc, fun hexit => ?_, fun since hwait => ?_⟩
      · rw [hexit] at hpc
        exact hqueue (h.staffed.exited t hpc).1
      · rw [hwait] at hpc
        exact hqueue (h.staffed.waiting t since hpc).1
  ends := by
    intro hd
    obtain ⟨t, ht⟩ := List.exists_mem_of_ne_nil _ (h.staffed.blocked hd)
    obtain ⟨p, hp, hexited⟩ := (h.staffed.table t).mp ht
    refine ⟨t, p, hp, hexited, fun since hwait => ?_⟩
    rw [hwait] at hp
    rcases (h.staffed.waiting t since hp).2 with ha | ha <;> cases hd.symm.trans ha
  finished := by
    intro hd
    have hthreads := h.staffed.finished hd
    have hd' : s.destructor ≠ .alive := by
      rw [hd]
      exact fun h => nomatch h
    have hexited : ∀ t p, s.pcs t = some p → p = .exited := by
      intro t p hp
      by_contra hne
      have hmem := (h.staffed.table t).mpr ⟨p, hp, hne⟩
      rw [hthreads] at hmem
      cases hmem
    obtain ⟨t, ht⟩ := h.staffed.started hd'
    obtain ⟨p, hp⟩ := Option.ne_none_iff_exists'.mp ht
    have hqueue := (h.staffed.exited t (hexited t p hp ▸ hp)).1
    refine ⟨hthreads, fun n hn => ?_⟩
    rw [← h.queued.fifo, hqueue, List.append_nil] at hn
    rcases h.executing.pending n hn with hmem | ⟨u, hu⟩
    · exact List.count_eq_one_of_mem h.executing.once hmem
    · cases hexited u _ hu

theorem run_inv {es : List Step} (h : ((threadPool .MODE_FIXED).restrict Orderly).Run es s) :
    Inv s := by
  refine h.invariant (I := Inv) ?_ ?_
  · rintro s ⟨max, threads, clock, rfl⟩
    exact .create max threads clock
  · rintro s e s' hinv ⟨hg, hs⟩
    exact hinv.step hg hs

/-- The counter of the tasks is right as long as it can count them. -/
theorem run_conserves {es : List Step}
    (h : ((threadPool .MODE_FIXED).restrict Orderly).Run es s) :
    s.Conserves ∧
      (s.currentTaskSize_.toNat = s.taskQue_.length ↔ s.taskQue_.length < 4294967296) := by
  refine ⟨(run_inv h).conserves, ?_⟩
  rw [(run_inv h).queued.size, UInt32.toNat_ofNat']
  change s.taskQue_.length % 4294967296 = s.taskQue_.length ↔ _
  omega

/-- A task is accepted and executed, and the destructor waits for the worker. -/
theorem run_conserves_one : ∃ es s, ((threadPool .MODE_FIXED).restrict Orderly).Run es s ∧
    s.executed = [0] ∧ s.destructor = .finished ∧ s.Conserves ∧
      (s.currentTaskSize_.toNat = s.taskQue_.length ↔ s.taskQue_.length < 4294967296) := by
  have h₀ : ((threadPool .MODE_FIXED).restrict Orderly).Run [] (create .MODE_FIXED 1 0 0) :=
    .start ⟨1, 0, 0, rfl⟩
  have h₁ := h₀.snoc (e := Step.start [0]) ⟨trivial, rfl⟩
  have h₂ := h₁.snoc (e := Step.submit 0 1 true) ⟨rfl, rfl⟩
  have h₃ := h₂.snoc (e := Step.worker 0 false) ⟨trivial, rfl⟩
  have h₄ := h₃.snoc (e := Step.worker 0 false) ⟨trivial, rfl⟩
  have h₅ := h₄.snoc (e := Step.destroy) ⟨⟨fun k => rfl, rfl, List.cons_ne_nil _ _⟩, rfl⟩
  have h₆ := h₅.snoc (e := Step.destructor) ⟨trivial, rfl⟩
  have h₇ := h₆.snoc (e := Step.worker 0 false) ⟨trivial, rfl⟩
  have h₈ := h₇.snoc (e := Step.worker 0 false) ⟨trivial, rfl⟩
  have h₉ := h₈.snoc (e := Step.destructor) ⟨trivial, rfl⟩
  exact ⟨_, _, h₉, rfl, rfl, run_conserves h₉⟩

/-- A started pool with a long queue to which nothing was done but submissions. -/
structure Filled (s : ThreadPool) (n : Nat) : Prop where
  mode : s.poolMode_ = .MODE_FIXED
  alive : s.destructor = .alive
  threads : s.threads_ = [0]
  caller : s.caller 0 = none
  length : s.taskQue_.length = n
  max : s.taskQueMaxSize_ = 4294967296

theorem Filled.submit (h : Filled s n) (hn : n < 4294967296) :
    ∃ s', s.exec (.submit 0 1 true) = some s' ∧ Filled s' (n + 1) := by
  have hroom : s.hasRoom = true := by
    refine decide_eq_true ?_
    rw [h.length, h.max]
    exact hn
  have hid : 1 ∉ s.threads_ := by
    rw [h.threads]
    decide
  have hmode : poolMode_ { s with submitted := s.submitted + 1 } = .MODE_FIXED := h.mode
  refine ⟨accept { s with submitted := s.submitted + 1 } s.submitted 1 true, ?_, ?_⟩
  · rw [exec, h.caller]
    dsimp only
    rw [if_neg hid, if_pos hroom]
  · rw [accept_fixed hmode]
    refine ⟨h.mode, h.alive, h.threads, h.caller, ?_, h.max⟩
    exact (List.length_append).trans (congrArg (· + 1) h.length)

theorem fill (hn : n ≤ 4294967296) :
    ∃ es s, ((threadPool .MODE_FIXED).restrict Orderly).Run es s ∧ Filled s n := by
  induction n with
  | zero =>
      have h₀ : ((threadPool .MODE_FIXED).restrict Orderly).Run []
          (create .MODE_FIXED 4294967296 0 0) := .start ⟨4294967296, 0, 0, rfl⟩
      have h₁ := h₀.snoc (e := Step.start [0]) ⟨trivial, rfl⟩
      exact ⟨_, _, h₁, rfl, rfl, rfl, rfl, rfl, rfl⟩
  | succ n ih =>
      obtain ⟨es, s, hr, hs⟩ := ih (Nat.le_of_succ_le hn)
      obtain ⟨s', hstep, hs'⟩ := hs.submit hn
      exact ⟨_, s', hr.snoc (e := Step.submit 0 1 true) ⟨hs.alive, hstep⟩, hs'⟩

/-- `2 ^ 32` tasks are in the queue, and the counter has wrapped around. -/
theorem count_wraps : ∃ es s, ((threadPool .MODE_FIXED).restrict Orderly).Run es s ∧
    s.taskQue_.length = 4294967296 ∧ s.currentTaskSize_ = 0 := by
  obtain ⟨es, s, hr, hs⟩ := fill (Nat.le_refl 4294967296)
  refine ⟨es, s, hr, hs.length, ?_⟩
  rw [(run_inv hr).queued.size, hs.length]
  rfl

end ThreadPool

end CIM
