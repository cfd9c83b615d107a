import CIM.Streams.AsyncSocketStream

/-!
# The send queue of the asynchronous stream

While the connection stays open, what was queued is what was written, what the writer holds
and what is still queued, in this order; and a queue that is not empty has a wake-up on its way
to the writer.
-/
namespace CIM

open Transition

/-- The points of `innerClose` that touch the connection or the queue. -/
def Task.Closes : Task → Prop
  | .closeSocket | .closeNotify | .closeSwap | .clearQueue _ => True
  | _ => False

/-- The points of the writer that a connection that stays open can reach. -/
def Writer.Serves : Writer → Prop
  | .closing _ | .clear => False
  | _ => True

/-- The connection is not closed and every `doSend` succeeds. -/
def StaysOpen (_ : AsyncSocketStream) : AsyncEvent → Prop
  | .shutdown | .innerClose _ | .sendFails _ => False
  | _ => True

namespace AsyncSocketStream

/-- The queue is empty, or the writer has a permit, is past it, or is about to be notified. -/
def Signalled (s : AsyncSocketStream) : Prop :=
  s.m_queue ≠ [] →
    0 < s.m_sem.m_concurrency ∨ s.writer = .acquired ∨ ∃ i, s.task i = .notify

structure SendInv (s : AsyncSocketStream) : Prop where
  working : ∀ i, ¬ (s.task i).Closes
  connected : s.connected = true ∨ s.writer = .out
  serves : s.writer.Serves
  waiters : s.m_sem.m_waiters = [] ∨ s.m_sem.m_waiters = [()] ∧ s.writer = .held
  order : s.enqueued = s.written ++ s.pending ++ s.m_queue
  signalled : s.Signalled

/-- A step of coroutine `i` beside the queue, the semaphore and the writer. -/
structure Beside (s s' : AsyncSocketStream) (i : Nat) (t : Task) : Prop where
  task : s'.task = Function.update s.task i t
  connected : s'.connected = s.connected
  m_sem : s'.m_sem = s.m_sem
  m_queue : s'.m_queue = s.m_queue
  writer : s'.writer = s.writer
  enqueued : s'.enqueued = s.enqueued
  written : s'.written = s.written

theorem update_task_closes {s : AsyncSocketStream} {i : Nat} {t : Task}
    (h : ∀ j, ¬ (s.task j).Closes) (ht : ¬ t.Closes) (j : Nat) :
    ¬ (Function.update s.task i t j).Closes := by
  by_cases hj : j = i
  · rw [hj, Function.update_self]
    exact ht
  · rw [Function.update_of_ne hj]
    exact h j

/-- A coroutine that is at `notify` stays there while another one steps. -/
theorem update_task_notify {s : AsyncSocketStream} {i : Nat} {t : Task}
    (hi : s.task i ≠ .notify) (h : ∃ j, s.task j = .notify) :
    ∃ j, Function.update s.task i t j = .notify := by
  obtain ⟨j, hj⟩ := h
  have hne : j ≠ i := by
    intro he
    exact hi (he ▸ hj)
  exact ⟨j, by rw [Function.update_of_ne hne]; exact hj⟩

theorem SendInv.beside {s s' : AsyncSocketStream} {i : Nat} {t : Task} (h : SendInv s)
    (b : Beside s s' i t) (ht : ¬ t.Closes) (hi : s.task i ≠ .notify) : SendInv s' where
  working := by
    intro j
    rw [b.task]
    exact update_task_closes h.working ht j
  connected := by
    rw [b.connected, b.writer]
    exact h.connected
  serves := by
    rw [b.writer]
    exact h.serves
  waiters := by
    rw [b.m_sem, b.writer]
    exact h.waiters
  order := by
    rw [pending, b.writer, b.enqueued, b.written, b.m_queue]
    exact h.order
  signalled := by
    intro hq
    rw [b.m_queue] at hq
    rw [b.m_sem, b.writer, b.task]
    obtain hp | hw | hn := h.signalled hq
    · exact .inl hp
    · exact .inr (.inl hw)
    · exact .inr (.inr (update_task_notify hi hn))

theorem beside_addCtx (s : AsyncSocketStream) (i c : Nat) (t : Task) :
    Beside s ((s.addCtx c).goto i t) i t := by
  unfold addCtx
  split
  · constructor <;> rfl
  · constructor <;> rfl

theorem beside_doRsp (s : AsyncSocketStream) (i c : Nat) (p : DoRsp) (t : Task) :
    Beside s ((s.doRsp c p).2.goto i t) i t := by
  cases p with
  | load => constructor <;> rfl
  | compareAndSwap scd =>
      simp only [doRsp]
      split
      · constructor <;> rfl
      · constructor <;> rfl
  | cancelTimer scd =>
      simp only [doRsp]
      split
      · constructor <;> rfl
      · constructor <;> rfl
  | setResult scd =>
      simp only [doRsp]
      split
      · constructor <;> rfl
      · constructor <;> rfl
  | schedule scd => constructor <;> rfl

theorem afterRsp_closes (c : Nat) (rest : List Nat) (p : Option DoRsp) :
    ¬ (Task.afterRsp c rest p).Closes := by
  cases p with
  | none => exact id
  | some p => exact id

/-- Queueing: the coroutine that found the queue empty goes on to `notify`. -/
theorem SendInv.enqueue {s : AsyncSocketStream} {i : Nat} {ctx : SendCtx} (h : SendInv s)
    (hi : s.task i = .enqueue ctx) :
    SendInv ((s.enqueue ctx).2.goto i (if (s.enqueue ctx).1 then .notify else .idle)) where
  working := by
    apply update_task_closes h.working
    split
    · exact id
    · exact id
  connected := h.connected
  serves := h.serves
  waiters := h.waiters
  order := by
    change s.enqueued ++ [ctx] = s.written ++ s.pending ++ (s.m_queue ++ [ctx])
    rw [h.order, List.append_assoc _ s.m_queue]
  signalled := by
    intro _
    by_cases hq : s.m_queue = []
    · have he : (s.enqueue ctx).1 = true := List.isEmpty_iff.mpr hq
      rw [if_pos he]
      exact .inr (.inr ⟨i, Function.update_self ..⟩)
    · obtain hp | hw | hn := h.signalled hq
      · exact .inl hp
      · exact .inr (.inl hw)
      · refine .inr (.inr (update_task_notify ?_ hn))
        change s.task i ≠ .notify
        rw [hi]
        exact Task.noConfusion

theorem notify_stored {s : AsyncSocketStream} (h : s.m_sem.m_waiters = []) :
    s.notify =
      { s with m_sem := { s.m_sem with m_concurrency := s.m_sem.m_concurrency + 1 } } := by
  unfold notify
  rw [CoroutineSemaphore.notify_idle h]

theorem notify_handed {s : AsyncSocketStream} {next : Unit} {rest : List Unit}
    (h : s.m_sem.m_waiters = next :: rest) :
    s.notify = { s with m_sem := { s.m_sem with m_waiters := rest }, writer := .acquired } := by
  unfold notify
  rw [CoroutineSemaphore.notify_waiter h]

/-- `notify` hands the permit to the writer that is held, or stores it. -/
theorem SendInv.notify {s : AsyncSocketStream} {i : Nat} (h : SendInv s) :
    SendInv (s.notify.goto i .idle) := by
  obtain hw | ⟨hw, hheld⟩ := h.waiters
  · rw [notify_stored hw]
    exact
      { working := update_task_closes h.working id
        connected := h.connected
        serves := h.serves
        waiters := .inl hw
        order := h.order
        signalled := fun _ => .inl (Nat.succ_pos _) }
  · have hconn : s.connected = true := by
      obtain hc | ho := h.connected
      · exact hc
      · rw [hheld] at ho
        cases ho
    have horder := h.order
    rw [pending, hheld] at horder
    rw [notify_handed hw]
    exact
      { working := update_task_closes h.working id
        connected := .inl hconn
        serves := trivial
        waiters := .inl rfl
        order := horder
        signalled := fun _ => .inr (.inl rfl) }

theorem SendInv.task_step {s s' : AsyncSocketStream} {i : Nat} (h : SendInv s)
    (hstep : s.taskStep i = some s') : SendInv s' := by
  unfold taskStep at hstep
  cases hi : s.task i with
  | idle => rw [hi] at hstep; cases hstep
  | addCtx c =>
      rw [hi] at hstep
      cases hstep
      exact h.beside (beside_addCtx s i c _) id (by rw [hi]; exact Task.noConfusion)
  | addTimer c =>
      rw [hi] at hstep
      cases hstep
      exact h.beside (by constructor <;> rfl) id (by rw [hi]; exact Task.noConfusion)
  | setTimer c =>
      rw [hi] at hstep
      cases hstep
      exact h.beside (by constructor <;> rfl) id (by rw [hi]; exact Task.noConfusion)
  | enqueue ctx =>
      rw [hi] at hstep
      cases hstep
      exact h.enqueue hi
  | notify =>
      rw [hi] at hstep
      cases hstep
      exact h.notify
  | answer c result response =>
      rw [hi] at hstep
      cases hstep
      exact h.beside (by constructor <;> rfl) id (by rw [hi]; exact Task.noConfusion)
  | eraseCtx c =>
      rw [hi] at hstep
      cases hstep
      exact h.beside (by constructor <;> rfl) id (by rw [hi]; exact Task.noConfusion)
  | setTimed c =>
      rw [hi] at hstep
      cases hstep
      exact h.beside (by constructor <;> rfl) id (by rw [hi]; exact Task.noConfusion)
  | doRsp p c rest =>
      rw [hi] at hstep
      cases hstep
      exact h.beside (beside_doRsp s i c p _) (afterRsp_closes c rest _)
        (by rw [hi]; exact Task.noConfusion)
  | closeSocket => exact absurd (by rw [hi]; trivial) (h.working i)
  | closeNotify => exact absurd (by rw [hi]; trivial) (h.working i)
  | closeSwap => rw [hi] at hstep; cases hstep
  | clearQueue ctxs => exact absurd (by rw [hi]; trivial) (h.working i)
  | closeLoop ctxs =>
      rw [hi] at hstep
      cases ctxs with
      | nil =>
          cases hstep
          exact h.beside (by constructor <;> rfl) id (by rw [hi]; exact Task.noConfusion)
      | cons c rest =>
          cases hstep
          exact h.beside (by constructor <;> rfl) id (by rw [hi]; exact Task.noConfusion)

theorem SendInv.spawn {s s' : AsyncSocketStream} {i : Nat} {t : Task} (h : SendInv s)
    (hstep : s.spawn i t = some s') (ht : ¬ t.Closes) : SendInv s' := by
  unfold AsyncSocketStream.spawn at hstep
  cases hi : s.task i with
  | idle =>
      rw [hi] at hstep
      cases hstep
      exact h.beside (by constructor <;> rfl) ht (by rw [hi]; exact Task.noConfusion)
  | _ => rw [hi] at hstep; cases hstep

theorem SendInv.waiters_nil {s : AsyncSocketStream} (h : SendInv s) (hw : s.writer ≠ .held) :
    s.m_sem.m_waiters = [] :=
  h.waiters.resolve_right fun hheld => hw hheld.2

/-- A step of the writer that leaves the queue and the semaphore alone. -/
theorem SendInv.advance {s : AsyncSocketStream} {w : Writer} {l : List SendCtx} (h : SendInv s)
    (hheld : s.writer ≠ .held) (hacq : s.writer ≠ .acquired) (hout : s.writer ≠ .out)
    (hserves : w.Serves)
    (hpending : s.written ++ s.pending
      = l ++ pending { s with writer := w, written := l }) :
    SendInv { s with writer := w, written := l } where
  working := h.working
  connected := .inl (h.connected.resolve_right hout)
  serves := hserves
  waiters := .inl (h.waiters_nil hheld)
  order := by
    change s.enqueued = l ++ pending { s with writer := w, written := l } ++ s.m_queue
    rw [← hpending]
    exact h.order
  signalled := by
    intro hq
    obtain hp | hw | hn := h.signalled hq
    · exact .inl hp
    · exact absurd hw hacq
    · exact .inr (.inr hn)

/-- `wait`: the writer takes the permit, or there is none and it is queued. -/
theorem SendInv.wait {s : AsyncSocketStream} (h : SendInv s) (hw : s.writer = .wait) :
    SendInv { s with
      m_sem := (s.m_sem.wait ()).2
      writer := if (s.m_sem.wait ()).1 then .acquired else .held } := by
  have hnil : s.m_sem.m_waiters = [] := h.waiters_nil (by rw [hw]; exact Writer.noConfusion)
  have hconn : s.connected = true :=
    h.connected.resolve_right (by rw [hw]; exact Writer.noConfusion)
  have horder := h.order
  rw [pending, hw] at horder
  by_cases hp : 0 < s.m_sem.m_concurrency
  · rw [CoroutineSemaphore.wait_permit () hp]
    exact
      { working := h.working
        connected := .inl hconn
        serves := trivial
        waiters := .inl hnil
        order := horder
        signalled := fun _ => .inr (.inl rfl) }
  · rw [CoroutineSemaphore.wait_queued () hp]
    refine
      { working := h.working
        connected := .inl hconn
        serves := trivial
        waiters := .inr ⟨?_, rfl⟩
        order := horder
        signalled := ?_ }
    · change s.m_sem.m_waiters ++ [()] = [()]
      rw [hnil]
      rfl
    · intro hq
      obtain hpos | hacq | hn := h.signalled hq
      · exact absurd hpos hp
      · rw [hw] at hacq
        cases hacq
      · exact .inr (.inr hn)

/-- The swap: the writer holds the whole queue. -/
theorem SendInv.swap_queue {s : AsyncSocketStream} (h : SendInv s) (hw : s.writer = .acquired) :
    SendInv { s with m_queue := [], writer := .writing s.m_queue } := by
  have horder := h.order
  rw [pending, hw, List.append_nil] at horder
  exact
    { working := h.working
      connected := .inl (h.connected.resolve_right (by rw [hw]; exact Writer.noConfusion))
      serves := trivial
      waiters := .inl (h.waiters_nil (by rw [hw]; exact Writer.noConfusion))
      order := by
        change s.enqueued = s.written ++ s.m_queue ++ []
        rw [List.append_nil]
        exact horder
      signalled := fun hq => absurd rfl hq }

theorem SendInv.writer_step {s s' : AsyncSocketStream} (h : SendInv s)
    (hstep : s.writerStep = some s') : SendInv s' := by
  unfold writerStep at hstep
  cases hw : s.writer with
  | check =>
      rw [hw] at hstep
      have hconn : s.connected = true :=
        h.connected.resolve_right (by rw [hw]; exact Writer.noConfusion)
      rw [hconn] at hstep
      cases hstep
      have hadv := h.advance (w := .wait) (l := s.written) (by rw [hw]; exact Writer.noConfusion)
        (by rw [hw]; exact Writer.noConfusion) (by rw [hw]; exact Writer.noConfusion) trivial
        (by rw [pending, hw]; rfl)
      rw [hconn] at hadv
      exact hadv
  | wait =>
      rw [hw] at hstep
      cases hstep
      exact h.wait hw
  | held => rw [hw] at hstep; cases hstep
  | acquired =>
      rw [hw] at hstep
      cases hstep
      exact h.swap_queue hw
  | writing ctxs =>
      rw [hw] at hstep
      cases ctxs with
      | nil =>
          cases hstep
          exact h.advance (l := s.written) (by rw [hw]; exact Writer.noConfusion)
            (by rw [hw]; exact Writer.noConfusion) (by rw [hw]; exact Writer.noConfusion) trivial
            (by rw [pending, hw]; rfl)
      | cons ctx rest =>
          cases hstep
          refine h.advance (by rw [hw]; exact Writer.noConfusion)
            (by rw [hw]; exact Writer.noConfusion) (by rw [hw]; exact Writer.noConfusion) trivial
            ?_
          rw [pending, hw]
          exact (List.append_assoc s.written [ctx] rest).symm
  | closing i =>
      have hserves := h.serves
      rw [hw] at hserves
      exact absurd hserves id
  | clear =>
      have hserves := h.serves
      rw [hw] at hserves
      exact absurd hserves id
  | out => rw [hw] at hstep; cases hstep

theorem SendInv.start {s s' : AsyncSocketStream} (h : SendInv s)
    (hstep : s.exec .start = some s') : SendInv s' := by
  simp only [exec] at hstep
  cases hw : s.writer with
  | out =>
      rw [hw] at hstep
      cases hstep
      have horder := h.order
      rw [pending, hw] at horder
      refine
        { working := h.working
          connected := .inl rfl
          serves := trivial
          waiters := .inl (h.waiters_nil (by rw [hw]; exact Writer.noConfusion))
          order := horder
          signalled := ?_ }
      intro hq
      obtain hp | hacq | hn := h.signalled hq
      · exact .inl hp
      · rw [hw] at hacq
        cases hacq
      · exact .inr (.inr hn)
  | _ => rw [hw] at hstep; cases hstep

/-- A matched or unmatched response is beside the queue. -/
theorem SendInv.response {s s' : AsyncSocketStream} {i : Nat} {sn result : UInt32}
    {rsp : List UInt8} (h : SendInv s) (hstep : s.exec (.response i sn result rsp) = some s') :
    SendInv s' := by
  simp only [exec, getAndDelCtx] at hstep
  cases hl : s.m_ctxs.lookup sn with
  | none =>
      rw [hl] at hstep
      cases hstep
      exact h
  | some c =>
      rw [hl] at hstep
      have herase : SendInv (s.eraseCtx sn) :=
        ⟨h.working, h.connected, h.serves, h.waiters, h.order, h.signalled⟩
      exact herase.spawn hstep id

theorem SendInv.step {s s' : AsyncSocketStream} {e : AsyncEvent} (h : SendInv s)
    (he : StaysOpen s e) (hstep : s.exec e = some s') : SendInv s' := by
  cases e with
  | start => exact h.start hstep
  | request i sn req scd fiber =>
      simp only [exec] at hstep
      split at hstep
      · refine SendInv.spawn ?_ hstep id
        exact ⟨h.working, h.connected, h.serves, h.waiters, h.order, h.signalled⟩
      · cases hstep
  | sendMessage i msg =>
      simp only [exec] at hstep
      split at hstep
      · exact h.spawn hstep id
      · cases hstep
  | response i sn result rsp => exact h.response hstep
  | fire i c =>
      simp only [exec] at hstep
      split at hstep
      · refine SendInv.spawn ?_ hstep id
        exact ⟨h.working, h.connected, h.serves, h.waiters, h.order, h.signalled⟩
      · cases hstep
  | shutdown => exact absurd he id
  | innerClose i => exact absurd he id
  | task i => exact h.task_step hstep
  | swap i ctxs =>
      simp only [exec] at hstep
      split at hstep
      · rename_i hi
        exact absurd (by rw [hi]; trivial) (h.working i)
      · cases hstep
  | writer => exact h.writer_step hstep
  | sendFails i => exact absurd he id

theorem sendInv_init : SendInv init where
  working := fun _ => id
  connected := .inr rfl
  serves := trivial
  waiters := .inl rfl
  order := rfl
  signalled := fun hq => absurd rfl hq

/-- While the connection stays open nothing queued is lost, duplicated or reordered, and a queue
that is not empty has a permit, a writer past its permit, or a `notify` on its way. -/
theorem run_send_queue {es : List AsyncEvent} {s : AsyncSocketStream}
    (h : (asyncSystem.restrict StaysOpen).Run es s) :
    s.enqueued = s.written ++ s.pending ++ s.m_queue ∧
      (s.m_queue ≠ [] →
        0 < s.m_sem.m_concurrency ∨ s.writer = .acquired ∨ ∃ i, s.task i = .notify) := by
  have hinv : SendInv s := by
    refine h.invariant ?_ ?_
    · intro s₀ hinit
      rw [show s₀ = init from hinit]
      exact sendInv_init
    · intro s₁ e s₂ hs hstep
      exact hs.step hstep.1 hstep.2
  exact ⟨hinv.order, hinv.signalled⟩

/-- A message queued while the writer is held: it is written after its `notify`, the next one
with it. -/
theorem run_send_queue_two_messages :
    ∃ s, (asyncSystem.restrict StaysOpen).Run
        [.start, .writer, .writer, .sendMessage 0 [1], .task 0, .sendMessage 1 [2], .task 1,
          .task 0, .writer, .writer] s ∧
      s.enqueued = [.message [1], .message [2]] ∧ s.written = [.message [1]] ∧
      s.enqueued = s.written ++ s.pending ++ s.m_queue ∧
      (s.m_queue ≠ [] →
        0 < s.m_sem.m_concurrency ∨ s.writer = .acquired ∨ ∃ i, s.task i = .notify) := by
  have h₀ : (asyncSystem.restrict StaysOpen).Run [] init := .start rfl
  have h₁ := h₀.snoc (e := AsyncEvent.start) ⟨trivial, Eq.refl _⟩
  have h₂ := h₁.snoc (e := AsyncEvent.writer) ⟨trivial, Eq.refl _⟩
  have h₃ := h₂.snoc (e := AsyncEvent.writer) ⟨trivial, Eq.refl _⟩
  have h₄ := h₃.snoc (e := AsyncEvent.sendMessage 0 [1]) ⟨trivial, Eq.refl _⟩
  have h₅ := h₄.snoc (e := AsyncEvent.task 0) ⟨trivial, Eq.refl _⟩
  have h₆ := h₅.snoc (e := AsyncEvent.sendMessage 1 [2]) ⟨trivial, Eq.refl _⟩
  have h₇ := h₆.snoc (e := AsyncEvent.task 1) ⟨trivial, Eq.refl _⟩
  have h₈ := h₇.snoc (e := AsyncEvent.task 0) ⟨trivial, Eq.refl _⟩
  have h₉ := h₈.snoc (e := AsyncEvent.writer) ⟨trivial, Eq.refl _⟩
  have h₁₀ := h₉.snoc (e := AsyncEvent.writer) ⟨trivial, Eq.refl _⟩
  exact ⟨_, h₁₀, rfl, rfl, run_send_queue h₁₀⟩

end AsyncSocketStream

end CIM
