import CIM.Io.TimerRuns
import CIM.Io.WakeUp

/-!
# The timeout of `IOManager::idle`

What `getNextTimer` finds is clamped before it is given to `epoll_wait`, as often as a signal
interrupts the wait. The comparison is made after the conversion to `int`, the value is kept as
it was before.
-/
namespace CIM.TimerManager

variable {β : Type} {m : TimerManager β}

/-- `(int)next_timeout` -/
def asInt (next_timeout : UInt64) : Int := (next_timeout.toNat : Int).bmod (2 ^ 32)

/-- The assignments to `next_timeout` before a call of `epoll_wait`. -/
def clampTimeout (next_timeout : UInt64) : UInt64 :=
  if next_timeout ≠ 0xffffffffffffffff then
    if asInt next_timeout > 3000 then 3000 else next_timeout
  else 3000

/-- What `epoll_wait` is given after `signals` interrupted calls. -/
def epollWaitTimeout (next_timeout : UInt64) : Nat → Int
  | 0 => asInt (clampTimeout next_timeout)
  | signals+1 => epollWaitTimeout (clampTimeout next_timeout) signals

/-- From the clock to the deadline; nothing for one that has passed. -/
def delay (now : UInt64) (x : Timer β) : Nat := x.m_next.toNat - now.toNat

/-- The delay of the timer at the front of the set. -/
def frontDelay (now : UInt64) (m : TimerManager β) : Option Nat :=
  (m.m_timers.head?.bind m.heap).map (delay now)

/-- Each wait is at most three seconds, and ends by the deadline of every timer. -/
def WaitBounded (now : UInt64) (m : TimerManager β) : Prop :=
  ∀ signals, 0 ≤ epollWaitTimeout (m.getNextTimer now).2 signals ∧
    epollWaitTimeout (m.getNextTimer now).2 signals ≤ 3000 ∧
    ∀ t ∈ m.m_timers, ∀ x, m.heap t = some x →
      epollWaitTimeout (m.getNextTimer now).2 signals ≤ delay now x

theorem bmod_eq (n : Nat) : (n : Int).bmod (2 ^ 32) =
    if n % 4294967296 < 2147483648 then ((n % 4294967296 : Nat) : Int)
    else ((n % 4294967296 : Nat) : Int) - 4294967296 := by
  rw [Int.bmod_def]
  split <;> split <;> omega

theorem asInt_eq (n : UInt64) : asInt n =
    if n.toNat % 4294967296 < 2147483648 then ((n.toNat % 4294967296 : Nat) : Int)
    else ((n.toNat % 4294967296 : Nat) : Int) - 4294967296 :=
  bmod_eq n.toNat

theorem clampTimeout_clamped (n : UInt64) : clampTimeout (clampTimeout n) = clampTimeout n := by
  have h3000 : clampTimeout 3000 = 3000 := by decide
  by_cases hmax : n = 0xffffffffffffffff
  · subst hmax
    decide
  · by_cases hbig : asInt n > 3000
    · have hc : clampTimeout n = 3000 := by rw [clampTimeout, if_pos hmax, if_pos hbig]
      rw [hc, h3000]
    · have hc : clampTimeout n = n := by rw [clampTimeout, if_pos hmax, if_neg hbig]
      rw [hc, hc]

/-- A repeated call gets the timeout of the first one. -/
theorem epollWaitTimeout_eq (n : UInt64) (signals : Nat) :
    epollWaitTimeout n signals = asInt (clampTimeout n) := by
  induction signals generalizing n with
  | zero => rfl
  | succ signals ih => rw [epollWaitTimeout, ih, clampTimeout_clamped]

/-- The wait of the model of the wake-ups. -/
theorem epollTimeout_eq (n : UInt64) (signals : Nat) :
    WakeUp.epollTimeout n = epollWaitTimeout n signals := by
  have h3000 : asInt 3000 = 3000 := by decide
  rw [epollWaitTimeout_eq, clampTimeout, WakeUp.epollTimeout]
  change (if n ≠ 0xffffffffffffffff then (if 3000 < asInt n then 3000 else asInt n) else 3000) = _
  split
  · by_cases hbig : asInt n > 3000
    · rw [if_pos hbig, if_pos hbig, h3000]
    · rw [if_neg hbig, if_neg hbig]
  · exact h3000.symm

/-- The timeout is negative for the values whose low 32 bits are; otherwise it is in its bounds. -/
theorem asInt_clampTimeout (n : UInt64) :
    (0 ≤ asInt (clampTimeout n) ↔
      n.toNat = 18446744073709551615 ∨ n.toNat % 4294967296 < 2147483648) ∧
    asInt (clampTimeout n) ≤ 3000 ∧ asInt (clampTimeout n) ≤ n.toNat := by
  have h3000 : asInt 3000 = 3000 := by decide
  by_cases hmax : n = 0xffffffffffffffff
  · subst hmax
    decide
  · have hne : n.toNat ≠ 18446744073709551615 := fun he => hmax (UInt64.toNat_inj.mp he)
    have hint := asInt_eq n
    by_cases hbig : asInt n > 3000
    · rw [clampTimeout, if_pos hmax, if_pos hbig, h3000]
      split at hint <;> omega
    · rw [clampTimeout, if_pos hmax, if_neg hbig]
      split at hint <;> omega

theorem getNextTimer_none (now : UInt64) (h : m.m_timers.head?.bind m.heap = none) :
    (m.getNextTimer now).2 = 0xffffffffffffffff := by
  rw [getNextTimer, h]

theorem getNextTimer_some {now : UInt64} {x : Timer β}
    (h : m.m_timers.head?.bind m.heap = some x) :
    (m.getNextTimer now).2.toNat = delay now x := by
  rw [getNextTimer, h]
  dsimp only
  by_cases hdue : now ≥ x.m_next
  · rw [if_pos hdue]
    have hle := UInt64.le_iff_toNat_le.mp hdue
    exact (Nat.sub_eq_zero_of_le hle).symm
  · rw [if_neg hdue]
    have hle : now ≤ x.m_next := by
      rw [ge_iff_le, UInt64.le_iff_toNat_le] at hdue
      rw [UInt64.le_iff_toNat_le]
      omega
    exact UInt64.toNat_sub_of_le _ _ hle

/-- No timer of the set is due before the one at the front. -/
theorem Good.front_le (h : Good m) {now : UInt64} {x y : Timer β} {t : Nat}
    (hx : m.m_timers.head?.bind m.heap = some x) (ht : t ∈ m.m_timers) (hy : m.heap t = some y) :
    delay now x ≤ delay now y := by
  have hle : x.m_next.toNat ≤ y.m_next.toNat := by
    cases htimers : m.m_timers with
    | nil => simp [htimers] at ht
    | cons first rest =>
        rw [htimers, List.head?_cons, Option.bind_some] at hx
        exact h.first_le htimers hx ht hy
  unfold delay
  omega

/-- The timeout is bounded when there is no timer or the delay of the earliest one is no negative
number as an `int`. -/
theorem waitBounded_iff {es : List (Op β × Outcome β)} (hr : (machine β).Run es m)
    (now : UInt64) : WaitBounded now m ↔ ∀ d ∈ frontDelay now m,
      d = 18446744073709551615 ∨ d % 4294967296 < 2147483648 := by
  have hgood := run_good hr
  unfold WaitBounded frontDelay
  simp only [epollWaitTimeout_eq]
  cases hfront : m.m_timers.head?.bind m.heap with
  | none =>
      rw [getNextTimer_none now hfront]
      refine iff_of_true (fun _ => ⟨by decide, by decide, ?_⟩) (by simp)
      intro t ht x hx
      -- the timers of the set are objects, so there is none
      cases htimers : m.m_timers with
      | nil => simp [htimers] at ht
      | cons first rest =>
          obtain ⟨y, hy, -⟩ := hgood.linked.mem_live (t := first)
            (by rw [htimers]; exact List.mem_cons_self)
          rw [htimers, List.head?_cons, Option.bind_some, hy] at hfront
          cases hfront
  | some x =>
      have hd : (m.getNextTimer now).2.toNat = delay now x := getNextTimer_some hfront
      obtain ⟨hneg, hmax, hle⟩ := asInt_clampTimeout (m.getNextTimer now).2
      rw [hd] at hneg hle
      simp only [Option.map_some, Option.mem_some_iff, forall_eq']
      refine ⟨fun h => hneg.mp (h 0).1, fun h _ => ⟨hneg.mpr h, hmax, ?_⟩⟩
      intro t ht y hy
      have hearliest : delay now x ≤ delay now y := hgood.front_le hfront ht hy
      omega

theorem waitBounded_one_second : ∃ m,
    (machine Nat).Run [(.addTimer 1000 7 false 4 0, .flag true)] m ∧
      (WaitBounded 0 m ↔ ∀ d ∈ frontDelay 0 m,
        d = 18446744073709551615 ∨ d % 4294967296 < 2147483648) := by
  have h₀ : (machine Nat).Run [] (create 0) := .start ⟨0, rfl⟩
  have h₁ := h₀.snoc (e := (Op.addTimer 1000 7 false 4 0, Outcome.flag true))
    ⟨fun t ht => absurd ht List.not_mem_nil, Eq.refl _⟩
  exact ⟨_, h₁, waitBounded_iff h₁ 0⟩

/-- A timer in `2 ^ 31` milliseconds: the timeout is `-2 ^ 31`, and the wait has no end. -/
theorem far_timer_waits_forever : ∃ m,
    (machine Nat).Run [(.addTimer 2147483648 7 false 4 0, .flag true)] m ∧
      epollWaitTimeout (m.getNextTimer 0).2 0 = -2147483648 ∧ ¬ WaitBounded 0 m := by
  have h₀ : (machine Nat).Run [] (create 0) := .start ⟨0, rfl⟩
  have h₁ := h₀.snoc (e := (Op.addTimer 2147483648 7 false 4 0, Outcome.flag true))
    ⟨fun t ht => absurd ht List.not_mem_nil, Eq.refl _⟩
  refine ⟨_, h₁, by decide, fun h => ?_⟩
  exact absurd (h 0).1 (by decide)

end CIM.TimerManager
