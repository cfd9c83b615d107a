import Mathlib.Algebra.BigOperators.Group.List.Basic
import Mathlib.Algebra.GroupWithZero.Nat
import Mathlib.Data.List.Nodup
import CIM.Streams.StreamLoops

/-!
# The permits of a stream

What a coroutine is at, is counted by its census. The permits of `m_waitSem`, those that calls of
`start` hold, and the loops are two in every run.
-/
namespace CIM

open Transition

namespace StreamLoops

/-- What one coroutine adds to the counts. `opened` is a reader that has not closed the socket at
its end, `called` and `uncalled` are coroutines that are to close it. -/
structure Census where
  permits : Nat
  reads : Nat
  writes : Nat
  starting : Nat
  ready : Nat
  opened : Nat
  callback : Nat
  called : Nat
  uncalled : Nat
  deriving DecidableEq, Repr

def Census.zero : Census := ⟨0, 0, 0, 0, 0, 0, 0, 0, 0⟩

def Closing.census (p : Closing) (c : Census) : Census :=
  match p with
  | .check => c
  | .callback => { c with callback := 1 }
  | .close true => { c with called := 1 }
  | .close false => { c with uncalled := 1 }
  | .notify => c

def Coroutine.census : Coroutine → Census
  | .waitFiber second => { Census.zero with permits := second.toNat }
  | .waiting second => { Census.zero with permits := second.toNat }
  | .cancelTimer => { Census.zero with permits := 2 }
  | .isConnected => { Census.zero with permits := 2 }
  | .connectCb => { Census.zero with permits := 2, ready := 1 }
  | .startRead => { Census.zero with permits := 2, ready := 1 }
  | .startWrite => { Census.zero with permits := 1, starting := 1 }
  | .release both => { Census.zero with permits := both.toNat + 1 }
  | .retry => Census.zero
  | .doRead => { Census.zero with reads := 1, opened := 1 }
  | .doRecv => { Census.zero with reads := 1, opened := 1 }
  | .readOut => { Census.zero with reads := 1 }
  | .readTimer => Census.zero
  | .doWrite => { Census.zero with writes := 1 }
  | .writeWait => { Census.zero with writes := 1 }
  | .writeWaiting => { Census.zero with writes := 1 }
  | .doSend => { Census.zero with writes := 1 }
  | .writeOut => { Census.zero with writes := 1 }
  | .closeSocket => Census.zero
  | .innerClose .doRecv p => p.census { Census.zero with reads := 1, opened := 1 }
  | .innerClose .doRead p =>
      p.census { Census.zero with reads := 1, opened := if p = .notify then 0 else 1 }
  | .innerClose .doWrite p => p.census { Census.zero with writes := 1 }
  | .innerClose .start p => p.census { Census.zero with permits := 2 }
  | .out => Census.zero

variable {s s' : StreamLoops} {i : Nat} {c c' : Coroutine}

def total (s : StreamLoops) (w : Census → Nat) : Nat :=
  (s.coroutines.map fun c => w c.census).sum

/-- The count without coroutine `i`. -/
def others (s : StreamLoops) (i : Nat) (w : Census → Nat) : Nat :=
  ((s.coroutines.set i .out).map fun c => w c.census).sum

theorem sum_eq_set {l : List Coroutine} (h : l[i]? = some c) (f : Coroutine → Nat)
    (hf : f .out = 0) : (l.map f).sum = ((l.set i .out).map f).sum + f c := by
  induction l generalizing i with
  | nil => cases h
  | cons x l ih =>
      cases i with
      | zero =>
          have hx : x = c := Option.some.inj h
          change f x + (l.map f).sum = f .out + (l.map f).sum + f c
          rw [hx, hf]
          omega
      | succ i =>
          have h' := ih (i := i) h
          change f x + (l.map f).sum = f x + ((l.set i .out).map f).sum + f c
          omega

theorem total_eq (h : s.coroutines[i]? = some c) (w : Census → Nat) (hw : w Census.zero = 0) :
    s.total w = s.others i w + w c.census :=
  sum_eq_set h (fun c => w c.census) hw

theorem total_goto (h : s.coroutines[i]? = some c) (c' : Coroutine) (w : Census → Nat)
    (hw : w Census.zero = 0) : (s.goto i c').total w = s.others i w + w c'.census := by
  have hlt := (List.getElem?_eq_some_iff.mp h).1
  have hnew : (s.coroutines.set i c')[i]? = some c' := List.getElem?_set_self hlt
  have hsum := sum_eq_set hnew (fun c => w c.census) hw
  rw [List.set_set] at hsum
  exact hsum

theorem total_spawn (s : StreamLoops) (c : Coroutine) (w : Census → Nat) :
    (s.spawn c).total w = s.total w + w c.census := by
  unfold total
  change ((s.coroutines ++ [c]).map fun c => w c.census).sum = _
  rw [List.map_append, List.sum_append]
  rfl

/-- Who closes the socket is a loop, or a call of `start` with both permits. -/
theorem census_le (c : Coroutine) :
    2 * (c.census.callback + c.census.called + c.census.uncalled) ≤
        2 * (c.census.reads + c.census.writes) + c.census.permits ∧
      c.census.opened ≤ c.census.reads ∧
      2 * c.census.ready + c.census.starting ≤ c.census.permits := by
  cases c with
  | waitFiber second => cases second <;> decide
  | waiting second => cases second <;> decide
  | release both => cases both <;> decide
  | innerClose k p =>
      cases p with
      | close called => cases k <;> cases called <;> decide
      | _ => cases k <;> decide
  | _ => decide

theorem sums_le (l : List Coroutine) :
    2 * ((l.map fun c => c.census.callback).sum + (l.map fun c => c.census.called).sum +
          (l.map fun c => c.census.uncalled).sum) ≤
        2 * ((l.map fun c => c.census.reads).sum + (l.map fun c => c.census.writes).sum) +
          (l.map fun c => c.census.permits).sum ∧
      (l.map fun c => c.census.opened).sum ≤ (l.map fun c => c.census.reads).sum ∧
      2 * (l.map fun c => c.census.ready).sum + (l.map fun c => c.census.starting).sum ≤
        (l.map fun c => c.census.permits).sum := by
  induction l with
  | nil => decide
  | cons c l ih =>
      have hc := census_le c
      simp only [List.map_cons, List.sum_cons]
      omega

theorem others_le (s : StreamLoops) (i : Nat) :
    2 * (s.others i Census.callback + s.others i Census.called + s.others i Census.uncalled) ≤
        2 * (s.others i Census.reads + s.others i Census.writes) + s.others i Census.permits ∧
      s.others i Census.opened ≤ s.others i Census.reads ∧
      2 * s.others i Census.ready + s.others i Census.starting ≤ s.others i Census.permits :=
  sums_le (s.coroutines.set i .out)

/-! ## Steps that count for nothing -/

/-- Nothing changes that the counts or the waiters depend on. -/
structure Quiet (s s' : StreamLoops) : Prop where
  connected : s'.connected = s.connected
  started : s'.started = s.started
  disconnects : s'.disconnects = s.disconnects
  m_waitSem : s'.m_waitSem = s.m_waitSem
  total : ∀ w : Census → Nat, w .zero = 0 → s'.total w = s.total w
  waiting : ∀ (j : Nat) (second : Bool), s.coroutines[j]? = some (.waiting second) →
    s'.coroutines[j]? = some (.waiting second)

theorem Quiet.refl (s : StreamLoops) : Quiet s s :=
  ⟨rfl, rfl, rfl, rfl, fun _ _ => rfl, fun _ _ h => h⟩

theorem Quiet.trans {t : StreamLoops} (h₁ : Quiet s t) (h₂ : Quiet t s') : Quiet s s' where
  connected := h₂.connected.trans h₁.connected
  started := h₂.started.trans h₁.started
  disconnects := h₂.disconnects.trans h₁.disconnects
  m_waitSem := h₂.m_waitSem.trans h₁.m_waitSem
  total w hw := (h₂.total w hw).trans (h₁.total w hw)
  waiting j second h := h₂.waiting j second (h₁.waiting j second h)

/-- A coroutine that does not wait leaves those that do where they are. -/
theorem waiting_goto (hi : s.coroutines[i]? = some c) (hc : ∀ second, c ≠ .waiting second)
    {j : Nat} {second : Bool} (hj : s.coroutines[j]? = some (.waiting second)) :
    (s.goto i c').coroutines[j]? = some (.waiting second) := by
  have hij : i ≠ j := by
    rintro rfl
    rw [hi] at hj
    exact hc second (Option.some.inj hj)
  change (s.coroutines.set i c')[j]? = _
  rw [List.getElem?_set_ne hij]
  exact hj

theorem Quiet.goto (hi : s.coroutines[i]? = some c) (hc : ∀ second, c ≠ .waiting second)
    (h : c'.census = c.census) : Quiet s (s.goto i c') where
  connected := rfl
  started := rfl
  disconnects := rfl
  m_waitSem := rfl
  total w hw := by rw [total_goto hi c' w hw, total_eq hi w hw, h]
  waiting _ _ hj := waiting_goto hi hc hj

theorem Quiet.spawn (h : c.census = .zero) : Quiet s (s.spawn c) where
  connected := rfl
  started := rfl
  disconnects := rfl
  m_waitSem := rfl
  total w hw := by rw [total_spawn, h, hw, Nat.add_zero]
  waiting j second hj := by
    change (s.coroutines ++ [c])[j]? = _
    rw [List.getElem?_append_left (List.getElem?_eq_some_iff.mp hj).1]
    exact hj

/-- The timers, `m_autoConnect` and `m_sem` are not counted. -/
theorem Quiet.of_fields (hc : s'.connected = s.connected) (hs : s'.started = s.started)
    (hd : s'.disconnects = s.disconnects) (hw : s'.m_waitSem = s.m_waitSem)
    (hco : s'.coroutines = s.coroutines) : Quiet s s' where
  connected := hc
  started := hs
  disconnects := hd
  m_waitSem := hw
  total w _ := by
    unfold StreamLoops.total
    rw [hco]
  waiting j second hj := by
    rw [hco]
    exact hj

/-- The writer that is woken was counted before. -/
theorem Quiet.notifySend (s : StreamLoops) : Quiet s s.notifySend := by
  unfold StreamLoops.notifySend
  split
  · rename_i j sem _
    split
    · rename_i hj
      have hsem : Quiet s { s with m_sem := sem } := .of_fields rfl rfl rfl rfl rfl
      exact hsem.trans (.goto (c := .writeWaiting) hj (fun _ h => nomatch h) rfl)
    · exact .of_fields rfl rfl rfl rfl rfl
  · exact .of_fields rfl rfl rfl rfl rfl

/-! ## The invariant -/

/-- With `n` permits in all; the writer of a pair counts from the start of its reader on. -/
structure Permits (n : Nat) (s : StreamLoops) : Prop where
  count : s.m_waitSem.m_concurrency + s.total Census.permits + s.total Census.reads +
    s.total Census.writes = n
  waiters : ∀ j ∈ s.m_waitSem.m_waiters, ∃ second, s.coroutines[j]? = some (.waiting second)
  nodup : s.m_waitSem.m_waiters.Nodup
  reads : s.total Census.reads ≤ 1
  writes : s.total Census.writes + s.total Census.starting ≤ 1

theorem Permits.quiet {n : Nat} (h : Permits n s) (q : Quiet s s') : Permits n s' := by
  have hp := q.total Census.permits rfl
  have hr := q.total Census.reads rfl
  have hw := q.total Census.writes rfl
  have hs := q.total Census.starting rfl
  have hcount := h.count
  have hreads := h.reads
  have hwrites := h.writes
  refine
    { count := ?_
      waiters := ?_
      nodup := ?_
      reads := by omega
      writes := by omega }
  · rw [q.m_waitSem]
    omega
  · rw [q.m_waitSem]
    intro j hj
    obtain ⟨second, hsecond⟩ := h.waiters j hj
    exact ⟨second, q.waiting j second hsecond⟩
  · rw [q.m_waitSem]
    exact h.nodup

/-- A coroutine goes from one point to another; what is left is arithmetic. -/
theorem Permits.goto {n m : Nat} (h : Permits n s) (hi : s.coroutines[i]? = some c)
    (hc : ∀ second, c ≠ .waiting second)
    (hcount : m + (c.census.permits + c.census.reads + c.census.writes) =
      n + (c'.census.permits + c'.census.reads + c'.census.writes))
    (hreads : s.others i Census.reads + c'.census.reads ≤ 1)
    (hwrites : s.others i Census.writes + c'.census.writes +
      (s.others i Census.starting + c'.census.starting) ≤ 1) :
    Permits m (s.goto i c') := by
  have hp := total_eq hi Census.permits rfl
  have hr := total_eq hi Census.reads rfl
  have hw := total_eq hi Census.writes rfl
  have hold := h.count
  refine
    { count := ?_
      waiters := ?_
      nodup := h.nodup
      reads := ?_
      writes := ?_ }
  · rw [total_goto hi c' Census.permits rfl, total_goto hi c' Census.reads rfl,
      total_goto hi c' Census.writes rfl]
    change s.m_waitSem.m_concurrency + _ + _ + _ = m
    omega
  · intro j hj
    obtain ⟨second, hsecond⟩ := h.waiters j hj
    exact ⟨second, waiting_goto hi hc hsecond⟩
  · rw [total_goto hi c' Census.reads rfl]
    exact hreads
  · rw [total_goto hi c' Census.writes rfl, total_goto hi c' Census.starting rfl]
    exact hwrites

/-- `notifyWait` puts one permit back, or hands it to the first waiter. -/
theorem notifyWait_cases (h : ∀ j ∈ s.m_waitSem.m_waiters, ∃ second,
      s.coroutines[j]? = some (.waiting second)) :
    s.m_waitSem.m_waiters = [] ∧ s.notifyWait = { s with
      m_waitSem := { s.m_waitSem with m_concurrency := s.m_waitSem.m_concurrency + 1 } } ∨
    ∃ j rest second, s.m_waitSem.m_waiters = j :: rest ∧
      s.coroutines[j]? = some (.waiting second) ∧
      s.notifyWait = { s with m_waitSem := { s.m_waitSem with m_waiters := rest } }.goto j
        (.granted second) := by
  unfold notifyWait
  cases hw : s.m_waitSem.m_waiters with
  | nil =>
      left
      rw [CoroutineSemaphore.notify_idle hw]
      exact ⟨rfl, rfl⟩
  | cons j rest =>
      right
      obtain ⟨second, hj⟩ := h j (hw ▸ List.mem_cons_self)
      refine ⟨j, rest, second, rfl, hj, ?_⟩
      rw [CoroutineSemaphore.notify_waiter hw]
      dsimp only
      rw [hj]

/-- What a waiter that is granted a permit adds to the counts. -/
theorem granted_census (second : Bool) :
    (Coroutine.granted second).census =
      { (Coroutine.waiting second).census with permits := second.toNat + 1 } := by
  cases second <;> rfl

theorem notifyWait_total (h : ∀ j ∈ s.m_waitSem.m_waiters, ∃ second,
      s.coroutines[j]? = some (.waiting second)) :
    s.notifyWait.m_waitSem.m_concurrency + s.notifyWait.total Census.permits =
        s.m_waitSem.m_concurrency + s.total Census.permits + 1 ∧
      s.notifyWait.total Census.reads = s.total Census.reads ∧
      s.notifyWait.total Census.writes = s.total Census.writes ∧
      s.notifyWait.total Census.starting = s.total Census.starting ∧
      s.notifyWait.total Census.ready = s.total Census.ready ∧
      s.notifyWait.total Census.opened = s.total Census.opened ∧
      s.notifyWait.total Census.callback = s.total Census.callback ∧
      s.notifyWait.total Census.called = s.total Census.called ∧
      s.notifyWait.total Census.uncalled = s.total Census.uncalled ∧
      s.notifyWait.connected = s.connected ∧ s.notifyWait.started = s.started ∧
      s.notifyWait.disconnects = s.disconnects := by
  rcases notifyWait_cases h with ⟨-, heq⟩ | ⟨j, rest, second, -, hj, heq⟩
  · rw [heq]
    refine ⟨?_, rfl, rfl, rfl, rfl, rfl, rfl, rfl, rfl, rfl, rfl, rfl⟩
    change s.m_waitSem.m_concurrency + 1 + s.total Census.permits = _
    omega
  · rw [heq]
    have hmove : ∀ w : Census → Nat, w .zero = 0 →
        (({ s with m_waitSem := { s.m_waitSem with m_waiters := rest } } : StreamLoops).goto j
          (.granted second)).total w + w (Coroutine.waiting second).census =
        s.total w + w (Coroutine.granted second).census := by
      intro w hw
      have hnew := total_goto (s := { s with m_waitSem := { s.m_waitSem with m_waiters := rest } })
        hj (.granted second) w hw
      have hold := total_eq hj w hw
      change _ = s.others j w + _ at hnew
      omega
    have hzero : ∀ w : Census → Nat, w .zero = 0 →
        w (Coroutine.waiting second).census = w (Coroutine.granted second).census →
        (({ s with m_waitSem := { s.m_waitSem with m_waiters := rest } } : StreamLoops).goto j
          (.granted second)).total w = s.total w := by
      intro w hw heq
      have h' := hmove w hw
      omega
    refine ⟨?_, hzero _ rfl ?_, hzero _ rfl ?_, hzero _ rfl ?_, hzero _ rfl ?_, hzero _ rfl ?_,
      hzero _ rfl ?_, hzero _ rfl ?_, hzero _ rfl ?_, rfl, rfl, rfl⟩
    · have hp := hmove Census.permits rfl
      rw [granted_census] at hp
      change _ + second.toNat = _ + (second.toNat + 1) at hp
      change s.m_waitSem.m_concurrency + _ = _
      omega
    all_goals
      rw [granted_census]

theorem Permits.notifyWait {n : Nat} (h : Permits n s) : Permits (n + 1) s.notifyWait := by
  obtain ⟨hp, hr, hw, hs, -⟩ := notifyWait_total h.waiters
  have hcount := h.count
  refine
    { count := by omega
      waiters := ?_
      nodup := ?_
      reads := hr ▸ h.reads
      writes := by
        have hwrites := h.writes
        omega }
  · rcases notifyWait_cases h.waiters with ⟨hnil, heq⟩ | ⟨j, rest, second, hcons, hj, heq⟩
    · rw [heq]
      exact h.waiters
    · rw [heq]
      intro k hk
      have hnd := h.nodup
      rw [hcons] at hnd
      have hkj : j ≠ k := by
        rintro rfl
        exact (List.nodup_cons.mp hnd).1 hk
      obtain ⟨b, hb⟩ := h.waiters k (hcons ▸ List.mem_cons_of_mem j hk)
      refine ⟨b, ?_⟩
      change (s.coroutines.set j _)[k]? = _
      rw [List.getElem?_set_ne hkj]
      exact hb
  · rcases notifyWait_cases h.waiters with ⟨hnil, heq⟩ | ⟨j, rest, second, hcons, hj, heq⟩
    · rw [heq]
      exact h.nodup
    · rw [heq]
      have hnd := h.nodup
      rw [hcons] at hnd
      exact (List.nodup_cons.mp hnd).2

/-- Nobody but the call of `start` with both permits has one. -/
theorem Permits.alone (h : Permits 2 s) (hi : s.coroutines[i]? = some c)
    (hc : c.census.permits = 2) (hstart : c.census.starting = 0) :
    s.m_waitSem.m_concurrency = 0 ∧ s.others i Census.permits = 0 ∧ s.total Census.reads = 0 ∧
      s.total Census.writes = 0 ∧ s.total Census.starting = 0 ∧ s.others i Census.ready = 0 ∧
      s.others i Census.callback = 0 ∧ s.others i Census.called = 0 ∧
      s.others i Census.uncalled = 0 := by
  have hp := total_eq hi Census.permits rfl
  have hr := total_eq hi Census.reads rfl
  have hw := total_eq hi Census.writes rfl
  have hs := total_eq hi Census.starting rfl
  have hself := census_le c
  have hle := others_le s i
  have hcount := h.count
  omega

/-! ## What one step does -/

/-- The moves of a coroutine that gives a permit back. -/
inductive Gives : Coroutine → Coroutine → Prop
  | first : Gives (.release true) (.release false)
  | second : Gives (.release false) .retry
  | read : Gives .readOut .readTimer
  | write : Gives .writeOut .out

/-- The steps by what they do to the counts. -/
inductive Change (s : StreamLoops) (e : Step) (s' : StreamLoops) : Prop
  | quiet (q : Quiet s s')
  | take (i : Nat) (second : Bool) (hi : s.coroutines[i]? = some (.waitFiber second))
      (h : s' = { s with m_waitSem := (s.m_waitSem.wait i).2 }.goto i
        (if (s.m_waitSem.wait i).1 then .granted second else .waiting second))
  | ready (i : Nat) (hi : s.coroutines[i]? = some .isConnected)
      (h : s' = { s with connected := true }.goto i .connectCb)
  | giveUp (i : Nat) (hi : s.coroutines[i]? = some .connectCb)
      (h : s' = s.goto i (.innerClose .start .check))
  | startRead (i : Nat) (hi : s.coroutines[i]? = some .startRead)
      (h : s' = { (s.goto i .startWrite).spawn .doRead with started := true, disconnects := 0 })
  | startWrite (i : Nat) (hi : s.coroutines[i]? = some .startWrite)
      (h : s' = (s.goto i .out).spawn .doWrite)
  | give (i : Nat) (c c' : Coroutine) (hi : s.coroutines[i]? = some c) (hc : Gives c c')
      (h : s' = (s.goto i c').notifyWait)
  | check (i : Nat) (c : Caller) (o : Outcome) (he : e = .next i o)
      (hi : s.coroutines[i]? = some (.innerClose c .check)) (hcon : s.connected = true)
      (h : s' = s.goto i (.innerClose c .callback))
  | skip (i : Nat) (c : Caller) (hi : s.coroutines[i]? = some (.innerClose c .check))
      (hcon : s.connected = false) (h : s' = s.goto i (.innerClose c (.close false)))
  | callback (i : Nat) (c : Caller) (hi : s.coroutines[i]? = some (.innerClose c .callback))
      (h : s' = { s.goto i (.innerClose c (.close true)) with
        disconnects := s.disconnects + if c = .start then 0 else 1 })
  | close (i : Nat) (c : Caller) (called : Bool)
      (hi : s.coroutines[i]? = some (.innerClose c (.close called)))
      (h : s' = { s.goto i (.innerClose c .notify) with connected := false })
  | closeSocket (i : Nat) (o : Outcome) (he : e = .next i o)
      (hi : s.coroutines[i]? = some .closeSocket)
      (h : s' = { s.disarm.goto i .out with connected := false })

theorem Permits.take (h : Permits 2 s) {second : Bool}
    (hi : s.coroutines[i]? = some (.waitFiber second)) :
    Permits 2 ({ s with m_waitSem := (s.m_waitSem.wait i).2 }.goto i
      (if (s.m_waitSem.wait i).1 then .granted second else .waiting second)) := by
  have hp := total_eq hi Census.permits rfl
  have hr := total_eq hi Census.reads rfl
  have hw := total_eq hi Census.writes rfl
  have hs := total_eq hi Census.starting rfl
  have hcount := h.count
  have hreads := h.reads
  have hwrites := h.writes
  change _ = _ + second.toNat at hp
  change _ = _ + 0 at hr
  change _ = _ + 0 at hw
  change _ = _ + 0 at hs
  by_cases hfree : 0 < s.m_waitSem.m_concurrency
  · rw [CoroutineSemaphore.wait_permit i hfree, if_pos rfl]
    have hless : Permits 1 { s with
        m_waitSem := { s.m_waitSem with m_concurrency := s.m_waitSem.m_concurrency - 1 } } :=
      { count := by
          change s.m_waitSem.m_concurrency - 1 + s.total Census.permits + s.total Census.reads +
            s.total Census.writes = 1
          omega
        waiters := h.waiters
        nodup := h.nodup
        reads := hreads
        writes := hwrites }
    refine hless.goto (c := .waitFiber second) hi (fun _ hw => nomatch hw) ?_ ?_ ?_
    · cases second <;> rfl
    · change s.others i Census.reads + _ ≤ 1
      rw [granted_census]
      change _ + 0 ≤ 1
      omega
    · change s.others i Census.writes + _ + (s.others i Census.starting + _) ≤ 1
      rw [granted_census]
      change _ + 0 + (_ + 0) ≤ 1
      omega
  · rw [CoroutineSemaphore.wait_queued i hfree, if_neg Bool.false_ne_true]
    have hmoved : Permits 2 (s.goto i (.waiting second)) :=
      h.goto (c := .waitFiber second) hi (fun _ hw => nomatch hw) rfl
        (by change _ + 0 ≤ 1; omega) (by change _ + 0 + (_ + 0) ≤ 1; omega)
    have hlt := (List.getElem?_eq_some_iff.mp hi).1
    have hself : (s.goto i (.waiting second)).coroutines[i]? = some (.waiting second) :=
      List.getElem?_set_self hlt
    refine
      { count := hmoved.count
        waiters := ?_
        nodup := ?_
        reads := hmoved.reads
        writes := hmoved.writes }
    · intro j hj
      rcases List.mem_append.mp hj with hold | hnew
      · exact hmoved.waiters j hold
      · rw [List.mem_singleton.mp hnew]
        exact ⟨second, hself⟩
    · refine List.nodup_append.mpr ⟨h.nodup, List.nodup_singleton i, ?_⟩
      rintro j hj k hk rfl
      obtain ⟨b, hb⟩ := h.waiters j hj
      rw [List.mem_singleton.mp hk, hi] at hb
      cases hb

theorem Permits.spawn {n : Nat} (h : Permits n s) (c : Coroutine)
    (hreads : s.total Census.reads + c.census.reads ≤ 1)
    (hwrites : s.total Census.writes + c.census.writes +
      (s.total Census.starting + c.census.starting) ≤ 1) :
    Permits (n + (c.census.permits + c.census.reads + c.census.writes)) (s.spawn c) := by
  have hcount := h.count
  refine
    { count := ?_
      waiters := ?_
      nodup := h.nodup
      reads := ?_
      writes := ?_ }
  · rw [total_spawn, total_spawn, total_spawn]
    change s.m_waitSem.m_concurrency + _ + _ + _ = _
    omega
  · intro j hj
    obtain ⟨second, hsecond⟩ := h.waiters j hj
    refine ⟨second, ?_⟩
    change (s.coroutines ++ [c])[j]? = _
    rw [List.getElem?_append_left (List.getElem?_eq_some_iff.mp hsecond).1]
    exact hsecond
  · rw [total_spawn]
    exact hreads
  · rw [total_spawn, total_spawn]
    exact hwrites

/-- Both permits are there, so that no loop is. -/
theorem Permits.startRead (h : Permits 2 s) (hi : s.coroutines[i]? = some .startRead) :
    Permits 2 ((s.goto i .startWrite).spawn .doRead) := by
  obtain ⟨-, -, hr, hw, hs, -⟩ := h.alone hi rfl rfl
  have hr' := total_eq hi Census.reads rfl
  have hw' := total_eq hi Census.writes rfl
  have hs' := total_eq hi Census.starting rfl
  have hone : Permits 1 (s.goto i .startWrite) :=
    h.goto hi (fun _ hn => nomatch hn) rfl (by change _ + 0 ≤ 1; omega)
      (by change _ + 0 + (_ + 1) ≤ 1; omega)
  refine hone.spawn .doRead ?_ ?_
  · rw [total_goto hi .startWrite Census.reads rfl]
    change _ + 0 + 1 ≤ 1
    omega
  · rw [total_goto hi .startWrite Census.writes rfl, total_goto hi .startWrite Census.starting rfl]
    change _ + 0 + 0 + (_ + 1 + 0) ≤ 1
    omega

theorem Permits.startWrite (h : Permits 2 s) (hi : s.coroutines[i]? = some .startWrite) :
    Permits 2 ((s.goto i .out).spawn .doWrite) := by
  have hr := total_eq hi Census.reads rfl
  have hw := total_eq hi Census.writes rfl
  have hs := total_eq hi Census.starting rfl
  have hreads := h.reads
  have hwrites := h.writes
  change _ = _ + 0 at hr
  change _ = _ + 0 at hw
  change _ = _ + 1 at hs
  have hone : Permits 1 (s.goto i .out) :=
    h.goto hi (fun _ hn => nomatch hn) rfl (by change _ + 0 ≤ 1; omega)
      (by change _ + 0 + (_ + 0) ≤ 1; omega)
  refine hone.spawn .doWrite ?_ ?_
  · rw [total_goto hi .out Census.reads rfl]
    change _ + 0 + 0 ≤ 1
    omega
  · rw [total_goto hi .out Census.writes rfl, total_goto hi .out Census.starting rfl]
    change _ + 0 + 1 + (_ + 0 + 0) ≤ 1
    omega

/-- A coroutine gives one permit back. -/
theorem Permits.give (h : Permits 2 s) (hi : s.coroutines[i]? = some c)
    (hc : ∀ second, c ≠ .waiting second)
    (hone : c.census.permits + c.census.reads + c.census.writes =
      c'.census.permits + c'.census.reads + c'.census.writes + 1)
    (hreads : c'.census.reads ≤ c.census.reads)
    (hwrites : c'.census.writes ≤ c.census.writes) (hs : c'.census.starting = 0) :
    Permits 2 (s.goto i c').notifyWait := by
  have hr := total_eq hi Census.reads rfl
  have hw := total_eq hi Census.writes rfl
  have hst := total_eq hi Census.starting rfl
  have hreads' := h.reads
  have hwrites' := h.writes
  exact (h.goto (m := 1) hi hc (by omega) (by omega) (by omega)).notifyWait

/-- Only `connected`, `started` and `disconnects` are different. -/
theorem Permits.of_fields {n : Nat} (h : Permits n s) (hco : s'.coroutines = s.coroutines)
    (hsem : s'.m_waitSem = s.m_waitSem) : Permits n s' := by
  have htotal : ∀ w, s'.total w = s.total w := fun w => by
    unfold total
    rw [hco]
  refine
    { count := ?_
      waiters := ?_
      nodup := ?_
      reads := ?_
      writes := ?_ }
  · rw [htotal, htotal, htotal, hsem]
    exact h.count
  · rw [hsem, hco]
    exact h.waiters
  · rw [hsem]
    exact h.nodup
  · rw [htotal]
    exact h.reads
  · rw [htotal, htotal]
    exact h.writes

/-- A coroutine that keeps its permit or its loop. -/
theorem Permits.keep (h : Permits 2 s) (c' : Coroutine) (hi : s.coroutines[i]? = some c)
    (hc : ∀ second, c ≠ .waiting second) (hp : c'.census.permits = c.census.permits)
    (hr : c'.census.reads = c.census.reads) (hw : c'.census.writes = c.census.writes)
    (hs : c'.census.starting = c.census.starting) : Permits 2 (s.goto i c') := by
  have hr' := total_eq hi Census.reads rfl
  have hw' := total_eq hi Census.writes rfl
  have hs' := total_eq hi Census.starting rfl
  have hreads := h.reads
  have hwrites := h.writes
  exact h.goto hi hc (by omega) (by omega) (by omega)

theorem Permits.change {e : Step} (h : Permits 2 s) (hc : Change s e s') : Permits 2 s' := by
  cases hc with
  | quiet q => exact h.quiet q
  | take i second hi heq =>
      rw [heq]
      exact h.take hi
  | ready i hi heq =>
      rw [heq]
      exact (h.keep .connectCb hi (fun _ hn => nomatch hn) rfl rfl rfl rfl).of_fields rfl rfl
  | giveUp i hi heq =>
      rw [heq]
      exact h.keep _ hi (fun _ hn => nomatch hn) rfl rfl rfl rfl
  | startRead i hi heq =>
      rw [heq]
      exact (h.startRead hi).of_fields rfl rfl
  | startWrite i hi heq =>
      rw [heq]
      exact h.startWrite hi
  | give i c c' hi hg heq =>
      rw [heq]
      cases hg <;>
        exact h.give hi (fun _ hn => nomatch hn) rfl (by decide) (by decide) rfl
  | check i k o he hi hcon heq =>
      rw [heq]
      cases k <;> exact h.keep _ hi (fun _ hn => nomatch hn) rfl rfl rfl rfl
  | skip i k hi hcon heq =>
      rw [heq]
      cases k <;> exact h.keep _ hi (fun _ hn => nomatch hn) rfl rfl rfl rfl
  | callback i k hi heq =>
      rw [heq]
      refine Permits.of_fields (s := s.goto i (.innerClose k (.close true))) ?_ rfl rfl
      cases k <;> exact h.keep _ hi (fun _ hn => nomatch hn) rfl rfl rfl rfl
  | close i k called hi heq =>
      rw [heq]
      refine Permits.of_fields (s := s.goto i (.innerClose k .notify)) ?_ rfl rfl
      cases k <;> cases called <;> exact h.keep _ hi (fun _ hn => nomatch hn) rfl rfl rfl rfl
  | closeSocket i o he hi heq =>
      rw [heq]
      exact (h.keep .out hi (fun _ hn => nomatch hn) rfl rfl rfl rfl).of_fields rfl rfl

/-! ## Runs -/

end StreamLoops

end CIM
