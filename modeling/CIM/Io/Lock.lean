import Mathlib.Tactic.Common

/-!
# Coroutine semaphore

`wait` takes a permit or queues the calling coroutine; `notify` hands the permit to the first
waiter, or stores it where nobody waits. Both run under the semaphore's own mutex.
-/
namespace CIM

structure CoroutineSemaphore (κ : Type) where
  m_concurrency : Nat
  m_waiters : List κ

namespace CoroutineSemaphore

variable {κ : Type}

def tryWait (sem : CoroutineSemaphore κ) : Bool × CoroutineSemaphore κ :=
  if 0 < sem.m_concurrency then
    (true, { sem with m_concurrency := sem.m_concurrency - 1 })
  else (false, sem)

/-- Whether the caller got the permit; where it did not it is queued and yields. -/
def wait (sem : CoroutineSemaphore κ) (self : κ) : Bool × CoroutineSemaphore κ :=
  if 0 < sem.m_concurrency then
    (true, { sem with m_concurrency := sem.m_concurrency - 1 })
  else
    (false, { sem with m_waiters := sem.m_waiters ++ [self] })

/-- The waiter that is scheduled, if there is one. -/
def notify (sem : CoroutineSemaphore κ) : Option κ × CoroutineSemaphore κ :=
  match sem.m_waiters with
  | next :: rest => (some next, { sem with m_waiters := rest })
  | [] => (none, { sem with m_concurrency := sem.m_concurrency + 1 })

theorem wait_permit {sem : CoroutineSemaphore κ} (self : κ) (h : 0 < sem.m_concurrency) :
    sem.wait self = (true, { sem with m_concurrency := sem.m_concurrency - 1 }) :=
  if_pos h

theorem wait_queued {sem : CoroutineSemaphore κ} (self : κ) (h : ¬ 0 < sem.m_concurrency) :
    sem.wait self = (false, { sem with m_waiters := sem.m_waiters ++ [self] }) :=
  if_neg h

theorem notify_idle {sem : CoroutineSemaphore κ} (h : sem.m_waiters = []) :
    sem.notify = (none, { sem with m_concurrency := sem.m_concurrency + 1 }) := by
  unfold notify
  rw [h]

theorem notify_waiter {sem : CoroutineSemaphore κ} {next : κ} {rest : List κ}
    (h : sem.m_waiters = next :: rest) :
    sem.notify = (some next, { sem with m_waiters := rest }) := by
  unfold notify
  rw [h]

end CoroutineSemaphore

end CIM
