import Mathlib.Algebra.Order.BigOperators.Group.Finset
import CIM.Io.TimerRuns
import CIM.Io.WakeUp

/-!
# Wake-ups that come

Most steps leave a thread that will look at the queue and the timers, or somebody who writes a byte
to the pipe. The others are the steps at which a task or a timer may be left to the threads that
sleep.
-/
namespace CIM

open Transition

namespace WakeUp

variable {n : Nat} {s s' : WakeUp} {e : Step} {t : Nat}

/-! ## Threads and their points -/

theorem goto_self (s : WakeUp) (t : Nat) (pc : Pc) : (s.goto t pc).pc t = pc := by
  change Function.update s.pc t pc t = pc
  exact Function.update_self _ _ _

theorem goto_other (s : WakeUp) {t u : Nat} (pc : Pc) (h : u ≠ t) :
    (s.goto t pc).pc u = s.pc u := by
  change Function.update s.pc t pc u = s.pc u
  exact Function.update_of_ne h _ _

/-- The count of the idle threads is right. -/
def Counted (n : Nat) (s : WakeUp) : Prop :=
  s.m_idleThreadCount = ∑ t ∈ Finset.range n, (s.pc t).idle.toNat

theorem sum_update (pc : Nat → Pc) (ht : t < n) (p : Pc) :
    (∑ u ∈ Finset.range n, (Function.update pc t p u).idle.toNat) + (pc t).idle.toNat =
      (∑ u ∈ Finset.range n, (pc u).idle.toNat) + p.idle.toNat := by
  have hmem := Finset.mem_range.mpr ht
  rw [← Finset.add_sum_erase _ _ hmem, ← Finset.add_sum_erase _ (fun u => (pc u).idle.toNat) hmem,
    Function.update_self]
  have hrest : ∑ u ∈ (Finset.range n).erase t, (Function.update pc t p u).idle.toNat =
      ∑ u ∈ (Finset.range n).erase t, (pc u).idle.toNat := by
    apply Finset.sum_congr rfl
    intro u hu
    rw [Function.update_of_ne (Finset.ne_of_mem_erase hu)]
  omega

/-- A thread that is counted makes the count positive. -/
theorem Counted.pos (h : Counted n s) (ht : t < n) (hidle : (s.pc t).idle = true) :
    0 < s.m_idleThreadCount := by
  have hle : (s.pc t).idle.toNat ≤ ∑ u ∈ Finset.range n, (s.pc u).idle.toNat :=
    Finset.single_le_sum (f := fun u => (s.pc u).idle.toNat) (fun _ _ => Nat.zero_le _)
      (Finset.mem_range.mpr ht)
  rw [hidle] at hle
  unfold Counted at h
  change 1 ≤ _ at hle
  omega

theorem Counted.goto (h : Counted n s) (ht : t < n) {p : Pc}
    (hpc : s'.pc = Function.update s.pc t p)
    (hcount : s'.m_idleThreadCount + (s.pc t).idle.toNat = s.m_idleThreadCount + p.idle.toNat) :
    Counted n s' := by
  have hsum := sum_update s.pc ht p
  unfold Counted at *
  rw [hpc]
  omega

/-- Where nobody is counted nobody waits. -/
theorem Counted.none_blocked (h : Counted n s) (hzero : s.m_idleThreadCount = 0) (b : Nat) :
    ¬s.Blocked n b := by
  rintro ⟨hb, last, hpc, -⟩
  have hpos := h.pos hb (by rw [hpc]; rfl)
  omega

/-- A thread that goes to where it does not wait leaves the others as they are. -/
theorem Blocked.goto {b : Nat} (hb : s'.Blocked n b) {p : Pc} (hp : ∀ last, p ≠ .wait last)
    (hpc : s'.pc = Function.update s.pc t p) (hclock : s'.clock = s.clock) :
    b ≠ t ∧ s.Blocked n b := by
  obtain ⟨hlt, last, hlast, htime⟩ := hb
  have hne : b ≠ t := by
    rintro rfl
    rw [hpc, Function.update_self] at hlast
    exact hp last hlast
  rw [hpc, Function.update_of_ne hne] at hlast
  exact ⟨hne, hlt, last, hlast, hclock ▸ htime⟩

/-- A thread that waits is not disturbed by another one. -/
theorem Blocked.keep {b : Nat} (hb : s.Blocked n b) (hpc : s'.pc b = s.pc b)
    (hclock : s'.clock = s.clock) : s'.Blocked n b := by
  obtain ⟨hlt, last, hlast, htime⟩ := hb
  exact ⟨hlt, last, hpc.trans hlast, hclock.symm ▸ htime⟩

theorem Blocked.ne {b : Nat} (hb : s.Blocked n b) (ht : ∀ last, s.pc t ≠ .wait last) :
    b ≠ t := by
  rintro rfl
  obtain ⟨-, last, hlast, -⟩ := hb
  exact ht last hlast

theorem le_waitUntil (clock next_timeout : UInt64) (m : Nat)
    (h : waitUntil clock next_timeout = some m) : clock.toNat ≤ m := by
  unfold waitUntil at h
  split at h
  · cases h
  · injection h with h
    omega

/-- A thread that falls asleep with a time that is not over yet. -/
theorem block_blocked {next_timeout : UInt64} (ht : t < n)
    (hnow : waitUntil s.clock next_timeout ≠ some s.clock.toNat) :
    (s.goto t (.wait (waitUntil s.clock next_timeout))).Blocked n t := by
  refine ⟨ht, _, goto_self s t _, fun m hm => ?_⟩
  have hle := le_waitUntil _ _ m hm
  have hne : m ≠ s.clock.toNat := by
    rintro rfl
    exact hnow hm
  change s.clock.toNat < m
  omega

/-! ## Sources of a wake-up -/

/-- What brings somebody to look, or leaves nobody who sleeps. -/
inductive Wakes (n : Nat) (s : WakeUp) : Prop
  | byte (h : 0 < s.bytes)
  | inserts (k : Nat) (h : s.caller (.addTimer k) ≠ none)
  | way (t : Nat) (h : s.OnItsWay n t)
  | nobody (h : ∀ b, ¬s.Blocked n b)

/-- A thread at a point that neither waits nor has a task. -/
theorem way_of_pc (ht : t < n) {p : Pc} (hpc : s.pc t = p) (hwait : ∀ last, p ≠ .wait last)
    (hexec : p.executing = false) : s.OnItsWay n t := by
  refine ⟨ht, ?_, hpc ▸ hexec⟩
  rintro ⟨-, last, hlast, -⟩
  exact hwait last (hpc.symm.trans hlast)

theorem looks_of_tickle (ht : t < n) {p : Tickle} {next : Pc} (hpc : s.pc t = .tickle p next) :
    s.Looks n :=
  .inl (.inr (.inr ⟨t, p, next, ht, hpc⟩))

theorem looks_of_caller {call : Call} (h : s.caller call ≠ none) : s.Looks n :=
  .inl (.inr (.inl ⟨call, h⟩))

theorem Wakes.looks (h : Wakes n s) {b : Nat} (hb : s.Blocked n b) : s.Looks n := by
  cases h with
  | byte h => exact .inl (.inl h)
  | inserts k h => exact looks_of_caller h
  | way t h => exact .inr ⟨t, h⟩
  | nobody h => exact absurd hb (h b)

/-- Somebody but thread `t` will look. -/
def OthersLook (n : Nat) (s : WakeUp) (t : Nat) : Prop :=
  s.Tickled n ∨ ∃ u, u ≠ t ∧ s.OnItsWay n u

/-- A thread that does not move goes on being on its way. -/
theorem OnItsWay.keep {u : Nat} (h : s.OnItsWay n u) (hclock : s.clock ≤ s'.clock)
    (hpc : s'.pc u = s.pc u) : s'.OnItsWay n u := by
  obtain ⟨hu, hblocked, hexec⟩ := h
  refine ⟨hu, ?_, hpc.symm ▸ hexec⟩
  rintro ⟨-, last, hlast, hlt⟩
  rw [hpc] at hlast
  exact hblocked ⟨hu, last, hlast, fun m hm =>
    Nat.lt_of_le_of_lt (UInt64.le_iff_toNat_le.mp hclock) (hlt m hm)⟩

theorem OnItsWay.ne {u : Nat} (h : s.OnItsWay n u) (hexec : (s.pc t).executing = true) : u ≠ t := by
  rintro rfl
  rw [h.2.2] at hexec
  cases hexec

/-- What the other threads and the callers see when only thread `t` moves. -/
theorem OthersLook.goto (h : s.OthersLook n t) (hbytes : s.bytes ≤ s'.bytes)
    (hcaller : s'.caller = s.caller) (hclock : s'.clock = s.clock)
    (hpc : ∀ u, u ≠ t → s'.pc u = s.pc u) (ht : ∀ p next, s.pc t ≠ .tickle p next) :
    s'.Looks n := by
  rcases h with (hb | ⟨k, hk⟩ | ⟨u, p, next, hu, hp⟩) | ⟨u, hut, hway⟩
  · exact .inl (.inl (Nat.lt_of_lt_of_le hb hbytes))
  · exact .inl (.inr (.inl ⟨k, hcaller ▸ hk⟩))
  · have hut : u ≠ t := by
      rintro rfl
      exact ht p next hp
    exact looks_of_tickle hu ((hpc u hut).trans hp)
  · exact .inr ⟨u, hway.keep (hclock ▸ UInt64.le_rfl) (hpc u hut)⟩

/-- Where thread `t` does not look, the others do. -/
theorem Looks.elsewhere (h : s'.Looks n) (hbytes : s'.bytes = s.bytes)
    (hcaller : s'.caller = s.caller) (hclock : s'.clock = s.clock)
    (hpc : ∀ u, u ≠ t → s'.pc u = s.pc u) (ht : ∀ p next, s'.pc t ≠ .tickle p next)
    (hway : ¬s'.OnItsWay n t) : s.OthersLook n t := by
  rcases h with (hb | ⟨k, hk⟩ | ⟨u, p, next, hu, hp⟩) | ⟨u, hlook⟩
  · exact .inl (.inl (hbytes ▸ hb))
  · exact .inl (.inr (.inl ⟨k, hcaller ▸ hk⟩))
  · have hut : u ≠ t := by
      rintro rfl
      exact ht p next hp
    exact .inl (.inr (.inr ⟨u, p, next, hu, (hpc u hut).symm.trans hp⟩))
  · have hut : u ≠ t := by
      rintro rfl
      exact hway hlook
    exact .inr ⟨u, hut, hlook.keep (hclock ▸ UInt64.le_rfl) (hpc u hut).symm⟩

/-- A thread that has a task is not the one that looks. -/
theorem Looks.others (h : s.Looks n) (hexec : (s.pc t).executing = true) : s.OthersLook n t := by
  rcases h with h | ⟨u, hway⟩
  · exact .inl h
  · exact .inr ⟨u, hway.ne hexec, hway⟩

/-- The threads and the pipe as they were. -/
theorem Looks.same (h : s.Looks n) (hbytes : s'.bytes = s.bytes) (hcaller : s'.caller = s.caller)
    (hclock : s.clock ≤ s'.clock) (hpc : s'.pc = s.pc) : s'.Looks n := by
  rcases h with (hb | ⟨k, hk⟩ | ⟨u, p, next, hu, hp⟩) | ⟨u, hway⟩
  · exact .inl (.inl (hbytes ▸ hb))
  · exact .inl (.inr (.inl ⟨k, hcaller ▸ hk⟩))
  · exact looks_of_tickle hu (hpc ▸ hp)
  · exact .inr ⟨u, hway.keep hclock (by rw [hpc])⟩

/-! ## What one step does -/

/-- The steps after which the threads that sleep may be all there is, and those of a tickle that
was not called for a timer. -/
inductive Silent (n : Nat) (s : WakeUp) (e : Step) (s' : WakeUp) : Prop
  | enter (t c : Nat) (hpc : s.pc t = .has c)
      (h : s' = { s.goto t (.exec c) with m_state := Function.update s.m_state c .EXEC })
  | schedule (k : Nat) (tasks : List (Option Scheduler.Task)) (he : e = .schedule k tasks)
      (hr : (scheduleAll tasks s.m_taskQueue).1 = false)
      (h : s' = { s with m_taskQueue := (scheduleAll tasks s.m_taskQueue).2 })
  | tickles (k : Nat) (queue : List Scheduler.Task)
      (h : s' = { s.setCaller (.schedule k) (some .check) with m_taskQueue := queue })
  | writes (call : Call) (hp : s.caller call = some .check)
      (h : s' = s.setCaller call (some .write))
  | addTimer (k : Nat) (ms : UInt64) (cb : Nat) (recurring : Bool) (addr : Nat)
      (he : e = .addTimer k ms cb recurring addr)
      (hr : (s.m_timers.addTimer ms cb recurring addr s.clock).2 = false)
      (h : s' = { s with m_timers := (s.m_timers.addTimer ms cb recurring addr s.clock).1 })
  | pick (t c : Nat) (o : Choice) (ht : t < n) (he : e = .next t o) (hpc : s.pc t = .scan)
      (hfind : s.m_taskQueue.find? (s.eligible t) ≠ none) (p : Pc)
      (hp : p = if s.tickleMe t then .tickle .check (.has c) else .has c)
      (states : Nat → Scheduler.State) (hstates : ∀ d, states d = .EXEC ↔ s.m_state d = .EXEC)
      (h : s' = { s.goto t p with
        m_state := states, m_taskQueue := s.m_taskQueue.eraseP (s.eligible t) })
  | write (t : Nat) (ht : t < n) (next : Pc) (hexec : next.executing = true)
      (hpc : s.pc t = .tickle .check next) (h : s' = s.goto t (.tickle .write next))
  | block (t : Nat) (next_timeout : UInt64) (ht : t < n) (he : e = .next t .go)
      (hpc : s.pc t = .epoll next_timeout)
      (h : s' = s.goto t (.wait (waitUntil s.clock next_timeout)))
  | advance (now : UInt64) (hnow : s.clock ≤ now) (h : s' = { s with clock := now })

theorem scheduleFrom_way (ht : t < n) (tasks : List (Option Scheduler.Task)) {next : Pc}
    (hwait : ∀ last, next ≠ .wait last) (hexec : next.executing = false) :
    (s.scheduleFrom t tasks next).OnItsWay n t := by
  have hpc : (s.scheduleFrom t tasks next).pc t =
      if (scheduleAll tasks s.m_taskQueue).1 then .tickle .check next else next :=
    goto_self s t _
  split at hpc
  · exact way_of_pc ht hpc (fun _ h => nomatch h) hexec
  · exact way_of_pc ht hpc hwait hexec

theorem setCaller_none {call : Call} (h : s.caller call = none) : s.setCaller call none = s := by
  unfold setCaller
  rw [← h, Function.update_eq_self]

theorem tickle_idle (b : Prop) [Decidable b] (next : Pc) :
    (if b then Pc.tickle .check next else next).idle = next.idle := by
  split <;> rfl

/-- No coroutine begins or ends to run with a reset. -/
theorem resetCb_exec {c : Nat} (hc : Scheduler.canReset (s.m_state c) = true)
    (task : Option Scheduler.Task) (d : Nat) :
    s.resetCb c task d = .EXEC ↔ s.m_state d = .EXEC := by
  rcases task with - | ⟨- | -, -⟩
  · exact Iff.rfl
  · exact Iff.rfl
  · change Function.update s.m_state c .INIT d = .EXEC ↔ _
    by_cases hd : d = c
    · subst hd
      rw [Function.update_self]
      constructor
      · intro h
        cases h
      · intro h
        rw [h] at hc
        cases hc
    · rw [Function.update_of_ne hd]

theorem scan_cases (hcount : Counted n s) (ht : t < n) {c : Nat} (hpc : s.pc t = .scan)
    (hc : Scheduler.canReset (s.m_state c) = true) :
    Counted n (s.scan t c) ∧
      (Wakes n (s.scan t c) ∨ Silent n s (.next t (.coroutine c)) (s.scan t c)) := by
  constructor
  · unfold scan
    cases s.m_taskQueue.find? (s.eligible t) <;>
      exact hcount.goto ht rfl (by rw [tickle_idle, hpc]; rfl)
  · cases hfind : s.m_taskQueue.find? (s.eligible t) with
    | none =>
        have hpc' : (s.scan t c).pc t =
            if s.tickleMe t then .tickle .check .found else .found := by
          rw [scan, hfind]
          exact goto_self s t _
        refine .inl (.way t ?_)
        split at hpc'
        · exact way_of_pc ht hpc' (fun _ h => nomatch h) rfl
        · exact way_of_pc ht hpc' (fun _ h => nomatch h) rfl
    | some task =>
        refine .inr (.pick t (coroutineOf task c) _ ht rfl hpc ?_ _ rfl _
          (resetCb_exec hc (some task)) ?_)
        · rw [hfind]
          exact Option.some_ne_none _
        · rw [scan, hfind]

/-- A thread that neither waits afterwards nor runs a coroutine is on its way. -/
theorem Counted.moves_on (h : Counted n s) (ht : t < n) {p : Pc}
    (hpc : s'.pc = Function.update s.pc t p)
    (hcount : s'.m_idleThreadCount + (s.pc t).idle.toNat = s.m_idleThreadCount + p.idle.toNat)
    (hwait : ∀ last, p ≠ .wait last) (hexec : p.executing = false) :
    Counted n s' ∧ (Wakes n s' ∨ Silent n s e s') := by
  have hself : s'.pc t = p := by rw [hpc, Function.update_self]
  exact ⟨h.goto ht hpc hcount, .inl (.way t (way_of_pc ht hself hwait hexec))⟩

theorem run_cases (hcount : Counted n s) (ht : t < n) {o : Choice} (h : s.run t o = some s') :
    Counted n s' ∧ (Wakes n s' ∨ Silent n s (.next t o) s') := by
  unfold run at h
  split at h
  next c hpc =>
    split at h
    next hc =>
      injection h with h
      subst h
      exact scan_cases hcount ht hpc hc
    next => cases h
  next c hpc =>
    split at h
    · injection h with h
      subst h
      exact hcount.moves_on ht rfl (by rw [hpc]; rfl) (by rintro _ ⟨⟩) rfl
    · injection h with h
      subst h
      exact ⟨hcount.goto ht rfl (by rw [hpc]; rfl), .inr (.enter t c hpc rfl)⟩
  next c st hpc =>
    split at h
    · cases h
    · injection h with h
      subst h
      have hcount' : Counted n { s with m_state := Function.update s.m_state c st } := hcount
      split
      · refine ⟨hcount'.goto ht rfl ?_,
          .inl (.way t (scheduleFrom_way ht _ (by rintro _ ⟨⟩) rfl))⟩
        change _ + (s.pc t).idle.toNat = _
        rw [tickle_idle, hpc]
        rfl
      · refine ⟨hcount'.goto ht rfl ?_,
          .inl (.way t (way_of_pc ht (goto_self _ t _) (by rintro _ ⟨⟩) rfl))⟩
        change _ + (s.pc t).idle.toNat = _
        rw [hpc]
        rfl
  next hpc =>
    injection h with h
    subst h
    exact hcount.moves_on ht rfl (by rw [hpc]; rfl) (by rintro _ ⟨⟩) rfl
  next hpc =>
    injection h with h
    subst h
    exact hcount.moves_on ht rfl (by rw [hpc]; rfl) (by rintro _ ⟨⟩) rfl
  next next_timeout hpc =>
    injection h with h
    subst h
    exact ⟨hcount.goto ht rfl (by rw [hpc]; rfl),
      .inr (.block t next_timeout ht rfl hpc rfl)⟩
  next tickled hpc =>
    injection h with h
    subst h
    exact hcount.moves_on ht rfl (by rw [hpc]; rfl) (by rintro _ ⟨⟩) rfl
  next tickled addr hpc =>
    injection h with h
    subst h
    exact hcount.moves_on ht rfl (by rw [hpc]; rfl) (by rintro _ ⟨⟩) rfl
  next cbs tickled hpc =>
    injection h with h
    subst h
    exact ⟨hcount.goto ht rfl (by rw [tickle_idle, hpc]; rfl),
      .inl (.way t (scheduleFrom_way ht _ (by rintro _ ⟨⟩) rfl))⟩
  next hpc =>
    injection h with h
    subst h
    exact hcount.moves_on ht rfl (by rw [hpc]; rfl) (by rintro _ ⟨⟩) rfl
  next tickled task hpc =>
    injection h with h
    subst h
    exact ⟨hcount.goto ht rfl (by rw [tickle_idle, hpc]; rfl),
      .inl (.way t (scheduleFrom_way ht _ (by rintro _ ⟨⟩) rfl))⟩
  next hpc =>
    injection h with h
    subst h
    exact hcount.moves_on ht rfl (by rw [hpc]; rfl) (by rintro _ ⟨⟩) rfl
  next hpc =>
    injection h with h
    subst h
    have hpos := hcount.pos ht (by rw [hpc]; rfl)
    refine hcount.moves_on ht rfl ?_ (by rintro _ ⟨⟩) rfl
    rw [hpc]
    change s.m_idleThreadCount - 1 + 1 = s.m_idleThreadCount + 0
    omega
  next next hpc =>
    injection h with h
    subst h
    split
    · refine ⟨hcount.goto ht rfl (by rw [hpc]; rfl), ?_⟩
      cases hexec : next.executing with
      | true => exact .inr (.write t ht next hexec hpc rfl)
      | false => exact .inl (.way t (way_of_pc ht (goto_self s t _) (by rintro _ ⟨⟩) hexec))
    · rename_i hzero
      have hcount' : Counted n (s.goto t next) := hcount.goto ht rfl (by rw [hpc]; rfl)
      exact ⟨hcount', .inl (.nobody (hcount'.none_blocked (Nat.eq_zero_of_not_pos hzero)))⟩
  next next hpc =>
    injection h with h
    subst h
    exact ⟨hcount.goto ht rfl (by rw [hpc]; rfl), .inl (.byte (Nat.succ_pos _))⟩
  next => cases h

theorem exec_cases (hcount : Counted n s) (h : s.exec n e = some s') :
    Counted n s' ∧ (Wakes n s' ∨ Silent n s e s') := by
  cases e with
  | schedule k tasks =>
      rw [exec] at h
      split at h
      next hk =>
        injection h with h
        subst h
        refine ⟨hcount, ?_⟩
        by_cases hr : (scheduleAll tasks s.m_taskQueue).1 = true
        · rw [if_pos hr]
          exact .inr (.tickles k _ rfl)
        · refine .inr (.schedule k tasks rfl (Bool.eq_false_iff.mpr hr) ?_)
          rw [if_neg hr, setCaller_none hk]
      next => cases h
  | addTimer k ms cb recurring addr =>
      rw [exec] at h
      split at h
      next hk =>
        split at h
        next haddr =>
          injection h with h
          subst h
          refine ⟨hcount, ?_⟩
          by_cases hr : (s.m_timers.addTimer ms cb recurring addr s.clock).2 = true
          · refine .inl (.inserts k ?_)
            change Function.update s.caller (.addTimer k) _ (.addTimer k) ≠ none
            rw [Function.update_self, if_pos hr]
            exact Option.some_ne_none _
          · refine .inr (.addTimer k ms cb recurring addr rfl (Bool.eq_false_iff.mpr hr) ?_)
            rw [if_neg hr, setCaller_none hk]
        next => cases h
      next => cases h
  | tickle call =>
      rw [exec] at h
      split at h
      next => cases h
      next hp =>
        injection h with h
        subst h
        refine ⟨hcount, ?_⟩
        split
        · exact .inr (.writes call hp rfl)
        · rename_i hzero
          exact .inl (.nobody (Counted.none_blocked (s := s.setCaller call none) hcount
            (Nat.eq_zero_of_not_pos hzero)))
      next hp =>
        injection h with h
        subst h
        exact ⟨hcount, .inl (.byte (Nat.succ_pos _))⟩
  | advance now =>
      rw [exec] at h
      split at h
      next hnow =>
        injection h with h
        subst h
        exact ⟨hcount, .inr (.advance now hnow rfl)⟩
      next => cases h
  | next t o =>
      rw [exec] at h
      split at h
      next ht => exact run_cases hcount ht h
      next => cases h

theorem exec_scan {o : Choice} (hpc : s.pc t = .scan) (h : s.exec n (.next t o) = some s') :
    ∃ c, Scheduler.canReset (s.m_state c) = true ∧ s' = s.scan t c := by
  rw [exec] at h
  split at h
  next =>
    unfold run at h
    rw [hpc] at h
    cases o with
    | coroutine c =>
        dsimp only at h
        split at h
        next hc =>
          injection h with h
          exact ⟨c, hc, h.symm⟩
        next => cases h
    | _ => cases h
  next => cases h

theorem exec_epoll {o : Choice} {next_timeout : UInt64} (hpc : s.pc t = .epoll next_timeout)
    (h : s.exec n (.next t o) = some s') :
    t < n ∧ s' = s.goto t (.wait (waitUntil s.clock next_timeout)) := by
  rw [exec] at h
  split at h
  next ht =>
    unfold run at h
    rw [hpc] at h
    cases o with
    | go =>
        injection h with h
        exact ⟨ht, h.symm⟩
    | _ => cases h
  next => cases h

theorem create_counted (clock : UInt64) : Counted n (create clock) :=
  (Finset.sum_eq_zero fun _ _ => rfl).symm

end WakeUp

end CIM
