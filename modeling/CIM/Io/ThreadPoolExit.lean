import CIM.Io.ThreadPool

/-!
# The end of a cached pool

A worker that ends because the pool does not run tells the destructor; one that was idle for too
long does not.
-/
namespace CIM

open Transition

namespace ThreadPool

variable {mode : PoolMode} {s s' : ThreadPool} {e : Step} {t : Nat} {w : Worker}

/-- Where the destructor waits for an empty table that is empty, it has been told. -/
def ExitAnnounced (s : ThreadPool) : Prop :=
  s.destructor = .blocked → s.threads_ = [] → s.exitNotified = true

/-- While the destructor waits, a worker that was idle for too long is not the last one of the
table. -/
def LeavesOthers (s : ThreadPool) : Step → Prop
  | .worker t true => ∀ w since, s.worker t = some w →
      w.pc = .waiting since ∨ w.pc = .notified since → s.Expired w → s.destructor = .blocked →
        s.threads_.erase t ≠ []
  | _ => True

/-- The destructor waits for somebody. -/
def Awaits (s : ThreadPool) : Prop := s.destructor = .blocked → s.threads_ ≠ []

theorem Awaits.grow (h : s.Awaits) (id : Nat) (started : Bool) : (s.grow id started).Awaits := by
  unfold ThreadPool.grow
  split
  · split
    · exact fun _ => List.append_ne_nil_of_right_ne_nil _ (List.cons_ne_nil _ _)
    · exact fun _ => List.append_ne_nil_of_right_ne_nil _ (List.cons_ne_nil _ _)
  · exact h

theorem Awaits.accept (h : s.Awaits) (task id : Nat) (started : Bool) :
    (s.accept task id started).Awaits := by
  have h' : Awaits (notifyNotEmpty { s with
      taskQue_ := s.taskQue_ ++ [task]
      currentTaskSize_ := s.currentTaskSize_ + 1
      accepted := s.accepted ++ [task] }) := h
  exact h'.grow id started

theorem Awaits.loop (h : s.Awaits) (t : Nat) (w : Worker) : (s.loop t w).Awaits := by
  unfold ThreadPool.loop
  split
  · split
    · exact h
    · intro hd
      change (if s.destructor = .blocked then Destructor.notified else s.destructor) = _ at hd
      split at hd
      · cases hd
      · rename_i hne
        exact absurd hd hne
  · split <;> exact h

theorem awaits_awaitExit (s : ThreadPool) : s.awaitExit.Awaits := by
  intro hd
  change (if s.threads_ = [] then Destructor.finished else .blocked) = _ at hd
  split at hd
  · cases hd
  · assumption

theorem wake_true {since : Nat} (h : s.wake t w since true = some s') :
    s' = if s.Expired w then s.reclaim t w else s.loop t w := by
  unfold wake at h
  rw [if_pos rfl] at h
  split at h
  · exact (Option.some.inj h).symm
  · cases h

theorem Awaits.wake (h : s.Awaits) {since : Nat} {timeout : Bool}
    (hg : timeout = true → s.Expired w → s.destructor = .blocked → s.threads_.erase t ≠ [])
    (hs : s.wake t w since timeout = some s') : s'.Awaits := by
  cases timeout with
  | false =>
      cases hs
      exact h.loop t w
  | true =>
      rw [wake_true hs]
      split
      next hexpired => exact hg rfl hexpired
      next => exact h.loop t w

theorem Awaits.step (h : s.Awaits) (hg : s.LeavesOthers e) (hs : s.exec e = some s') :
    s'.Awaits := by
  cases e with
  | start ids =>
      rw [exec] at hs
      split at hs
      · cases hs
        exact h
      · split at hs
        next hids =>
          cases hs
          exact fun hd => nomatch hids.1.symm.trans hd
        next => cases hs
  | submit k id started =>
      rw [exec] at hs
      split at hs
      next => cases hs
      next =>
        split at hs
        next => cases hs
        next =>
          dsimp only at hs
          split at hs
          · cases hs
            have h' : Awaits { s with submitted := s.submitted + 1 } := h
            exact h'.accept s.submitted id started
          · cases hs
            exact h
  | retry k id started =>
      rw [exec] at hs
      split at hs
      next => cases hs
      next c _ =>
        split at hs
        next => cases hs
        next =>
          split at hs
          · cases hs
            have h' : (s.setCaller k none).Awaits := h
            exact h'.accept c.task id started
          · split at hs <;> cases hs <;> exact h
  | worker t timeout =>
      obtain ⟨w, hw, hs⟩ := Option.bind_eq_some_iff.mp hs
      have hwake : ∀ since, w.pc = .waiting since ∨ w.pc = .notified since → timeout = true →
          s.Expired w → s.destructor = .blocked → s.threads_.erase t ≠ [] := by
        rintro since hpc rfl
        exact hg w since hw hpc
      unfold stepWorker at hs
      split at hs
      next =>
        cases hs
        exact h.loop t w
      next since hpc => exact h.wake (hwake since (.inl hpc)) hs
      next since hpc => exact h.wake (hwake since (.inr hpc)) hs
      next =>
        cases hs
        exact h
      next =>
        cases hs
        exact h
      next => cases hs
  | destroy =>
      rw [exec] at hs
      split at hs
      · cases hs
        exact fun hd => nomatch hd
      · cases hs
  | destructor =>
      rw [exec] at hs
      split at hs
      · cases hs
        exact awaits_awaitExit _
      · cases hs
        exact awaits_awaitExit _
      · cases hs
        exact awaits_awaitExit _
      · cases hs
  | advance now =>
      rw [exec] at hs
      split at hs
      · cases hs
        exact h
      · cases hs

/-- A step that does not meet the condition leaves the destructor waiting for nobody. -/
theorem not_exitAnnounced (hg : ¬s.LeavesOthers e) (hs : s.exec e = some s') :
    ¬s'.ExitAnnounced := by
  unfold LeavesOthers at hg
  split at hg
  next t =>
    simp only [not_forall, not_not] at hg
    obtain ⟨w, since, hw, hpc, hexpired, hd, hlast⟩ := hg
    have hwake : s.wake t w since true = some s' := by
      rw [exec, hw] at hs
      change s.stepWorker t w true = some s' at hs
      unfold stepWorker at hs
      rcases hpc with hpc | hpc
      · rw [hpc] at hs
        exact hs
      · rw [hpc] at hs
        exact hs
    have hs' := wake_true hwake
    rw [if_pos hexpired] at hs'
    rw [hs']
    intro h
    cases h hd hlast
  next => exact absurd trivial hg

/-- The first step that does not meet the condition leaves the destructor waiting for nobody. -/
theorem run_exitAnnounced {es : List Step}
    (h : ((threadPool mode).restrict LeavesOthers).Run es s) :
    s.ExitAnnounced ∧
      ∀ e s', (threadPool mode).step s e s' → ¬s.LeavesOthers e → ¬s'.ExitAnnounced := by
  have hawaits : s.Awaits := by
    refine h.invariant (I := Awaits) ?_ ?_
    · rintro s ⟨max, threads, clock, rfl⟩ hd
      cases hd
    · rintro s e s' hi ⟨hg, hs⟩
      exact hi.step hg hs
  exact ⟨fun hd hnil => absurd hnil (hawaits hd), fun e s' hs hg => not_exitAnnounced hg hs⟩

/-- The destructor waits for the one worker of a cached pool. -/
theorem run_exitAnnounced_one : ∃ es s,
    ((threadPool .MODE_CACHED).restrict LeavesOthers).Run es s ∧ s.destructor = .blocked ∧
      s.ExitAnnounced ∧
      ∀ e s', (threadPool .MODE_CACHED).step s e s' → ¬s.LeavesOthers e → ¬s'.ExitAnnounced := by
  have h₀ : ((threadPool .MODE_CACHED).restrict LeavesOthers).Run []
      (create .MODE_CACHED 1 1 0) := .start ⟨1, 1, 0, rfl⟩
  have h₁ := h₀.snoc (e := Step.start [0]) ⟨trivial, rfl⟩
  have h₂ := h₁.snoc (e := Step.destroy) ⟨trivial, rfl⟩
  have h₃ := h₂.snoc (e := Step.destructor) ⟨trivial, rfl⟩
  exact ⟨_, _, h₃, rfl, run_exitAnnounced h₃⟩

/-- Of two workers the first ends because the pool does not run, and the second because it was idle
for a minute. -/
theorem exit_unannounced : ∃ es s, (threadPool .MODE_CACHED).Run es s ∧
    s.destructor = .blocked ∧ s.threads_ = [] ∧ s.exitNotified = false := by
  have h₀ : (threadPool .MODE_CACHED).Run [] (create .MODE_CACHED 2 2 0) := .start ⟨2, 2, 0, rfl⟩
  have h₁ := h₀.snoc (e := Step.start [0]) rfl
  have h₂ := h₁.snoc (e := Step.submit 0 1 true) rfl
  have h₃ := h₂.snoc (e := Step.submit 0 1 true) rfl
  have h₄ := h₃.snoc (e := Step.worker 0 false) rfl
  have h₅ := h₄.snoc (e := Step.worker 1 false) rfl
  have h₆ := h₅.snoc (e := Step.worker 0 false) rfl
  have h₇ := h₆.snoc (e := Step.worker 1 false) rfl
  have h₈ := h₇.snoc (e := Step.worker 0 false) rfl
  have h₉ := h₈.snoc (e := Step.worker 1 false) rfl
  have h₁₀ := h₉.snoc (e := Step.worker 0 false) rfl
  have h₁₁ := h₁₀.snoc (e := Step.worker 1 false) rfl
  have h₁₂ := h₁₁.snoc (e := Step.advance 60000) rfl
  have h₁₃ := h₁₂.snoc (e := Step.destroy) rfl
  have h₁₄ := h₁₃.snoc (e := Step.destructor) rfl
  have h₁₅ := h₁₄.snoc (e := Step.worker 0 false) rfl
  have h₁₆ := h₁₅.snoc (e := Step.destructor) rfl
  have h₁₇ := h₁₆.snoc (e := Step.worker 1 true) rfl
  exact ⟨_, _, h₁₇, rfl, rfl, rfl⟩

end ThreadPool

end CIM
