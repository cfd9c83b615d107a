import CIM.Io.Scheduler

/-!
# One thread for a coroutine

A coroutine that is being executed is in state `EXEC`, and is not taken from the queue. Before
its first store and behind its last one nothing but the order of the threads keeps it from being
taken; where it is not taken there, no two threads ever have it.
-/
namespace CIM

open Transition

namespace Scheduler

variable {n : Nat} {s s' : Scheduler} {t t' c c' : Nat} {p : Point} {k : Kind} {e : Step}

/-! ## Who has a coroutine -/

/-- The thread is at the coroutine, or keeps it for callbacks. -/
def Owns (s : Scheduler) (t c : Nat) : Prop :=
  (∃ p k, s.pc t = .has p k c) ∨ s.cb_coroutine t = some c

/-- The coroutine waits in the queue or for a semaphore. -/
def Pending (s : Scheduler) (c : Nat) : Prop :=
  (∃ task ∈ s.m_taskQueue, task.work = .coroutine c) ∨ ∃ i, c ∈ (s.sems i).m_waiters

structure Inv (n : Nat) (s : Scheduler) : Prop where
  threads : n ≤ s.next
  unique : ∀ t t' c, s.Owns t c → s.Owns t' c → t = t'
  exec : ∀ t p k c, s.pc t = .has p k c → p.executing = true → s.m_state c = .EXEC
  made : ∀ t c, s.Owns t c → c < s.next
  idle : ∀ t p c, s.pc t = .has p .idle c → c = t ∧ t < n
  other : ∀ t p k c, s.pc t = .has p k c → k ≠ .idle → n ≤ c
  cb : ∀ t c, s.cb_coroutine t = some c → n ≤ c
  pending : ∀ c, s.Pending c → n ≤ c ∧ c < s.next

/-- One thread `t` goes on with one coroutine `c`, which no other thread has. -/
theorem Inv.turn (h : Inv n s) (c : Nat) (hfree : ∀ t', t' ≠ t → ¬s.Owns t' c)
    (hpc : ∀ p k c', s'.pc t = .has p k c' → c' = c ∧ c < s'.next ∧
      (p.executing = true → s'.m_state c = .EXEC) ∧
      (k = .idle → c = t ∧ t < n) ∧ (k ≠ .idle → n ≤ c))
    (hcb : ∀ c', s'.cb_coroutine t = some c' →
      s.cb_coroutine t = some c' ∨ c' = c ∧ c < s'.next ∧ n ≤ c)
    (hothers : ∀ t', t' ≠ t → s'.pc t' = s.pc t' ∧ s'.cb_coroutine t' = s.cb_coroutine t')
    (hstate : ∀ c', c' ≠ c → s'.m_state c' = s.m_state c')
    (hnext : s.next ≤ s'.next)
    (hpending : ∀ c', s'.Pending c' → s.Pending c' ∨ c' = c ∧ n ≤ c ∧ c < s'.next) :
    Inv n s' := by
  have howns : ∀ t', t' ≠ t → ∀ c', s'.Owns t' c' ↔ s.Owns t' c' := by
    intro t' ht c'
    unfold Owns
    rw [(hothers t' ht).1, (hothers t' ht).2]
  have hself : ∀ c', s'.Owns t c' → s.Owns t c' ∨ c' = c := by
    rintro c' (⟨p, k, hp⟩ | hp)
    · exact .inr (hpc p k c' hp).1
    · rcases hcb c' hp with hold | ⟨hc, -⟩
      · exact .inl (.inr hold)
      · exact .inr hc
  have hone : ∀ t' c', t' ≠ t → s'.Owns t c' → ¬s'.Owns t' c' := by
    intro t' c' ht hown hown'
    rw [howns t' ht] at hown'
    rcases hself c' hown with hold | rfl
    · exact ht (h.unique t' t c' hown' hold)
    · exact hfree t' ht hown'
  refine
    { threads := Nat.le_trans h.threads hnext
      unique := ?_
      exec := ?_
      made := ?_
      idle := ?_
      other := ?_
      cb := ?_
      pending := ?_ }
  · intro t₁ t₂ c' h₁ h₂
    by_cases ht₁ : t₁ = t
    · by_cases ht₂ : t₂ = t
      · rw [ht₁, ht₂]
      · rw [ht₁] at h₁
        exact absurd h₂ (hone t₂ c' ht₂ h₁)
    · by_cases ht₂ : t₂ = t
      · rw [ht₂] at h₂
        exact absurd h₁ (hone t₁ c' ht₁ h₂)
      · exact h.unique t₁ t₂ c' ((howns t₁ ht₁ c').mp h₁) ((howns t₂ ht₂ c').mp h₂)
  · intro t₁ p k c' hp hexec
    by_cases ht₁ : t₁ = t
    · rw [ht₁] at hp
      obtain ⟨rfl, -, hstored, -⟩ := hpc p k c' hp
      exact hstored hexec
    · rw [(hothers t₁ ht₁).1] at hp
      have hne : c' ≠ c := by
        rintro rfl
        exact hfree t₁ ht₁ (.inl ⟨p, k, hp⟩)
      rw [hstate c' hne]
      exact h.exec t₁ p k c' hp hexec
  · intro t₁ c' hown
    by_cases ht₁ : t₁ = t
    · rw [ht₁] at hown
      rcases hown with ⟨p, k, hp⟩ | hp
      · obtain ⟨rfl, hlt, -⟩ := hpc p k c' hp
        exact hlt
      · rcases hcb c' hp with hold | ⟨rfl, hlt, -⟩
        · exact Nat.lt_of_lt_of_le (h.made t c' (.inr hold)) hnext
        · exact hlt
    · exact Nat.lt_of_lt_of_le (h.made t₁ c' ((howns t₁ ht₁ c').mp hown)) hnext
  · intro t₁ p c' hp
    by_cases ht₁ : t₁ = t
    · rw [ht₁] at hp ⊢
      obtain ⟨rfl, -, -, hidle, -⟩ := hpc p .idle c' hp
      exact hidle rfl
    · rw [(hothers t₁ ht₁).1] at hp
      exact h.idle t₁ p c' hp
  · intro t₁ p k c' hp hk
    by_cases ht₁ : t₁ = t
    · rw [ht₁] at hp
      obtain ⟨rfl, -, -, -, hother⟩ := hpc p k c' hp
      exact hother hk
    · rw [(hothers t₁ ht₁).1] at hp
      exact h.other t₁ p k c' hp hk
  · intro t₁ c' hp
    by_cases ht₁ : t₁ = t
    · rw [ht₁] at hp
      rcases hcb c' hp with hold | ⟨rfl, -, hn⟩
      · exact h.cb t c' hold
      · exact hn
    · rw [(hothers t₁ ht₁).2] at hp
      exact h.cb t₁ c' hp
  · intro c' hp
    rcases hpending c' hp with hold | ⟨rfl, hn, hlt⟩
    · obtain ⟨hn, hlt⟩ := h.pending c' hold
      exact ⟨hn, Nat.lt_of_lt_of_le hlt hnext⟩
    · exact ⟨hn, hlt⟩

/-- What is done outside the threads: coroutines are made, and scheduled. -/
theorem Inv.outside (h : Inv n s) (hpc : s'.pc = s.pc) (hcb : s'.cb_coroutine = s.cb_coroutine)
    (hstate : ∀ c, c < s.next → s'.m_state c = s.m_state c) (hnext : s.next ≤ s'.next)
    (hpending : ∀ c, s'.Pending c → s.Pending c ∨ n ≤ c ∧ c < s.next) : Inv n s' := by
  have howns : ∀ t c, s'.Owns t c ↔ s.Owns t c := by
    intro t c
    unfold Owns
    rw [hpc, hcb]
  refine
    { threads := Nat.le_trans h.threads hnext
      unique := fun t t' c h₁ h₂ => h.unique t t' c ((howns t c).mp h₁) ((howns t' c).mp h₂)
      exec := ?_
      made := fun t c hown => Nat.lt_of_lt_of_le (h.made t c ((howns t c).mp hown)) hnext
      idle := ?_
      other := ?_
      cb := ?_
      pending := ?_ }
  · intro t p k c hp hexec
    rw [hpc] at hp
    rw [hstate c (h.made t c (.inl ⟨p, k, hp⟩))]
    exact h.exec t p k c hp hexec
  · intro t p c hp
    rw [hpc] at hp
    exact h.idle t p c hp
  · intro t p k c hp
    rw [hpc] at hp
    exact h.other t p k c hp
  · intro t c hp
    rw [hcb] at hp
    exact h.cb t c hp
  · intro c hp
    rcases hpending c hp with hold | ⟨hn, hlt⟩
    · obtain ⟨hn, hlt⟩ := h.pending c hold
      exact ⟨hn, Nat.lt_of_lt_of_le hlt hnext⟩
    · exact ⟨hn, Nat.lt_of_lt_of_le hlt hnext⟩

/-! ## Steps -/

theorem Inv.free (h : Inv n s) (hat : s.pc t = .has p k c) : ∀ t', t' ≠ t → ¬s.Owns t' c :=
  fun t' ht hown => ht (h.unique t' t c hown (.inl ⟨p, k, hat⟩))

/-- A thread goes on with the coroutine it is at, after what it did to the rest in `s'`. -/
theorem Inv.go (h : Inv n s) (hat : s.pc t = .has p k c) {pc : Pc}
    (hgo : pc = .loop ∨ ∃ p', pc = .has p' k c ∧ (p'.executing = true → s'.m_state c = .EXEC))
    (hpc : s'.pc = s.pc) (hcb : ∀ t', t' ≠ t → s'.cb_coroutine t' = s.cb_coroutine t')
    (hcbt : ∀ c', s'.cb_coroutine t = some c' → s.cb_coroutine t = some c')
    (hstate : ∀ c', c' ≠ c → s'.m_state c' = s.m_state c') (hnext : s'.next = s.next)
    (hpending : ∀ c', s'.Pending c' → s.Pending c' ∨ c' = c ∧ k ≠ .idle) :
    Inv n (s'.setPc t pc) := by
  have hlt : c < s'.next := by
    rw [hnext]
    exact h.made t c (.inl ⟨p, k, hat⟩)
  refine h.turn (t := t) c (h.free hat) ?_ ?_ ?_ hstate (Nat.le_of_eq hnext.symm) ?_
  · intro p₁ k₁ c₁ hp
    change Function.update s'.pc t pc t = _ at hp
    rw [Function.update_self] at hp
    rcases hgo with rfl | ⟨p', rfl, hexec⟩
    · cases hp
    · cases hp
      refine ⟨rfl, hlt, hexec, ?_, h.other t p k c hat⟩
      rintro rfl
      exact h.idle t p c hat
  · intro c' hc'
    exact .inl (hcbt c' hc')
  · intro t' ht
    refine ⟨?_, hcb t' ht⟩
    change Function.update s'.pc t pc t' = _
    rw [Function.update_of_ne ht, hpc]
  · intro c' hp
    rcases hpending c' hp with hold | ⟨rfl, hk⟩
    · exact .inl hold
    · exact .inr ⟨rfl, h.other t p k c' hat hk, hlt⟩

theorem pending_schedule {work : Work} {threadId : Option Nat}
    (h : (s.schedule work threadId).Pending c) : s.Pending c ∨ work = .coroutine c := by
  rcases h with ⟨task, hmem, hwork⟩ | hsem
  · rcases List.mem_append.mp hmem with hmem | hmem
    · exact .inl (.inl ⟨task, hmem, hwork⟩)
    · rw [List.mem_singleton.mp hmem] at hwork
      exact .inr hwork
  · exact .inl (.inr hsem)

theorem setState_other (s : Scheduler) (state : Scheduler.State) {c c' : Nat} (h : c' ≠ c) :
    (s.setState c state).m_state c' = s.m_state c' := by
  change Function.update s.m_state c state c' = _
  exact Function.update_of_ne h _ _

theorem setState_self (s : Scheduler) (state : Scheduler.State) (c : Nat) :
    (s.setState c state).m_state c = state := by
  change Function.update s.m_state c state c = _
  exact Function.update_self _ _ _

theorem Inv.check (h : Inv n s) (he : s.exec n (.check t) = some s') : Inv n s' := by
  simp only [Scheduler.exec] at he
  split at he
  · rename_i k c hat
    split at he
    · cases he
      exact h.go hat (.inl rfl) rfl (fun _ _ => rfl) (fun _ h => h) (fun _ _ => rfl) rfl
        (fun _ h => .inl h)
    · cases he
      exact h.go hat (.inr ⟨.entering, rfl, fun h => nomatch h⟩) rfl (fun _ _ => rfl)
        (fun _ h => h) (fun _ _ => rfl) rfl (fun _ h => .inl h)
  · cases he

theorem Inv.swapIn (h : Inv n s) (he : s.exec n (.swapIn t) = some s') : Inv n s' := by
  simp only [Scheduler.exec] at he
  split at he
  · rename_i k c hat
    split at he
    · cases he
    · cases he
      exact h.go hat (.inr ⟨.running, rfl, fun _ => setState_self s .EXEC c⟩) rfl (fun _ _ => rfl)
        (fun _ h => h) (fun c' hc => setState_other s .EXEC hc) rfl (fun _ h => .inl h)
  · cases he

/-- The waiters are those there were, and perhaps the caller. -/
theorem mem_wait {sem : CoroutineSemaphore Nat} (h : c' ∈ (sem.wait c).2.m_waiters) :
    c' ∈ sem.m_waiters ∨ c' = c := by
  by_cases hp : 0 < sem.m_concurrency
  · rw [CoroutineSemaphore.wait_permit c hp] at h
    exact .inl h
  · rw [CoroutineSemaphore.wait_queued c hp] at h
    rcases List.mem_append.mp h with h | h
    · exact .inl h
    · exact .inr (List.mem_singleton.mp h)

theorem pending_sems {i : Nat} {sem : CoroutineSemaphore Nat}
    (h : Pending { s with sems := Function.update s.sems i sem } c) :
    s.Pending c ∨ c ∈ sem.m_waiters := by
  rcases h with ⟨task, hmem, hwork⟩ | ⟨j, hj⟩
  · exact .inl (.inl ⟨task, hmem, hwork⟩)
  · change c ∈ (Function.update s.sems i sem j).m_waiters at hj
    by_cases hji : j = i
    · rw [hji, Function.update_self] at hj
      exact .inr hj
    · rw [Function.update_of_ne hji] at hj
      exact .inl (.inr ⟨j, hj⟩)

theorem Inv.wait (h : Inv n s) {sem : Nat} (he : s.exec n (.wait t sem) = some s') : Inv n s' := by
  simp only [Scheduler.exec] at he
  split at he
  · rename_i k c hat
    split at he
    · cases he
    · rename_i hk
      have hpending : ∀ c', Pending { s with
          sems := Function.update s.sems sem ((s.sems sem).wait c).2 } c' →
          s.Pending c' ∨ c' = c ∧ k ≠ .idle := by
        intro c' hp
        rcases pending_sems hp with hold | hmem
        · exact .inl hold
        · rcases mem_wait hmem with hold | hc
          · exact .inl (.inr ⟨sem, hold⟩)
          · exact .inr ⟨hc, hk⟩
      split at he
      · cases he
        have hlt := h.made t c (.inl ⟨_, k, hat⟩)
        refine h.outside rfl rfl (fun _ _ => rfl) (Nat.le_refl _) ?_
        intro c' hp
        rcases hpending c' hp with hold | ⟨rfl, -⟩
        · exact .inl hold
        · exact .inr ⟨h.other t _ k c' hat hk, hlt⟩
      · cases he
        exact h.go hat (.inr ⟨.waiting, rfl, fun _ => h.exec t _ k c hat rfl⟩) rfl (fun _ _ => rfl)
          (fun _ h => h) (fun _ _ => rfl) rfl hpending
  · cases he

/-- Leaving changes the state of the coroutine only. -/
theorem store_eq {l : Leave} (h : s.store c l = some s') :
    s' = s ∨ ∃ state, s' = s.setState c state := by
  cases l with
  | yieldToHold =>
      simp only [store] at h
      split at h
      · cases h
        exact .inr ⟨_, rfl⟩
      · cases h
  | yieldToReady =>
      simp only [store] at h
      split at h
      · cases h
        exact .inr ⟨_, rfl⟩
      · cases h
  | swapOut =>
      cases h
      exact .inl rfl
  | term =>
      cases h
      exact .inr ⟨_, rfl⟩
  | except =>
      cases h
      exact .inr ⟨_, rfl⟩

theorem Inv.stored (h : Inv n s) (hat : s.pc t = .has p k c) {l : Leave}
    (he : (s.store c l).map (fun s => s.setPc t (.has .stored k c)) = some s') : Inv n s' := by
  obtain ⟨s₁, hs₁, rfl⟩ := Option.map_eq_some_iff.mp he
  rcases store_eq hs₁ with rfl | ⟨state, rfl⟩
  · exact h.go hat (.inr ⟨.stored, rfl, fun h => nomatch h⟩) rfl (fun _ _ => rfl) (fun _ h => h)
      (fun _ _ => rfl) rfl (fun _ h => .inl h)
  · exact h.go hat (.inr ⟨.stored, rfl, fun h => nomatch h⟩) rfl (fun _ _ => rfl) (fun _ h => h)
      (fun c' hc => setState_other s state hc) rfl (fun _ h => .inl h)

theorem Inv.leave (h : Inv n s) {l : Leave} (he : s.exec n (.leave t l) = some s') : Inv n s' := by
  simp only [Scheduler.exec] at he
  split at he
  · rename_i k c hat
    exact h.stored hat he
  · rename_i k c hat
    split at he
    · exact h.stored hat he
    · cases he
  · cases he

theorem Inv.swapOut (h : Inv n s) (he : s.exec n (.swapOut t) = some s') : Inv n s' := by
  simp only [Scheduler.exec] at he
  split at he
  · rename_i k c hat
    cases he
    exact h.go hat (.inr ⟨.left, rfl, fun h => nomatch h⟩) rfl (fun _ _ => rfl) (fun _ h => h)
      (fun _ _ => rfl) rfl (fun _ h => .inl h)
  · cases he

/-- What `run` does behind `swapIn` is about its coroutine only. -/
theorem after_eq (s : Scheduler) (t : Nat) (k : Kind) (c : Nat) :
    (s.after t k c).pc = s.pc ∧ (s.after t k c).next = s.next ∧
      (∀ t', t' ≠ t → (s.after t k c).cb_coroutine t' = s.cb_coroutine t') ∧
      (∀ c', (s.after t k c).cb_coroutine t = some c' → s.cb_coroutine t = some c') ∧
      (∀ c', c' ≠ c → (s.after t k c).m_state c' = s.m_state c') ∧
      ∀ c', (s.after t k c).Pending c' → s.Pending c' ∨ c' = c ∧ k ≠ .idle := by
  have hcb : ∀ (s : Scheduler) t', t' ≠ t →
      (s.setCb t none).cb_coroutine t' = s.cb_coroutine t' := by
    intro s t' ht
    change Function.update s.cb_coroutine t none t' = _
    exact Function.update_of_ne ht _ _
  have hnone : ∀ (s : Scheduler) c', (s.setCb t none).cb_coroutine t = some c' →
      s.cb_coroutine t = some c' := by
    intro s c' hc
    change Function.update s.cb_coroutine t none t = some c' at hc
    rw [Function.update_self] at hc
    cases hc
  have hq : ∀ c', (s.schedule (.coroutine c) none).Pending c' → s.Pending c' ∨ c' = c := by
    intro c' hp
    rcases pending_schedule hp with hold | hwork
    · exact .inl hold
    · cases hwork
      exact .inr rfl
  unfold after
  cases k with
  | task =>
      dsimp only
      split
      · exact ⟨rfl, rfl, fun _ _ => rfl, fun _ h => h, fun _ _ => rfl,
          fun c' hp => (hq c' hp).imp_right fun h => ⟨h, by decide⟩⟩
      · split
        · exact ⟨rfl, rfl, fun _ _ => rfl, fun _ h => h, fun _ _ => rfl, fun _ h => .inl h⟩
        · exact ⟨rfl, rfl, fun _ _ => rfl, fun _ h => h, fun c' hc => setState_other s .HOLD hc,
            fun _ h => .inl h⟩
  | cb =>
      dsimp only
      split
      · exact ⟨rfl, rfl, hcb _, hnone _, fun _ _ => rfl,
          fun c' hp => (hq c' hp).imp_right fun h => ⟨h, by decide⟩⟩
      · split
        · exact ⟨rfl, rfl, fun _ _ => rfl, fun _ h => h, fun c' hc => setState_other s .INIT hc,
            fun _ h => .inl h⟩
        · exact ⟨rfl, rfl, hcb _, hnone _, fun c' hc => setState_other s .HOLD hc,
            fun _ h => .inl h⟩
  | idle =>
      dsimp only
      split
      · exact ⟨rfl, rfl, fun _ _ => rfl, fun _ h => h, fun _ _ => rfl, fun _ h => .inl h⟩
      · exact ⟨rfl, rfl, fun _ _ => rfl, fun _ h => h, fun c' hc => setState_other s .HOLD hc,
          fun _ h => .inl h⟩

theorem Inv.after (h : Inv n s) (he : s.exec n (.after t) = some s') : Inv n s' := by
  simp only [Scheduler.exec] at he
  split at he
  · rename_i k c hat
    cases he
    obtain ⟨hpc, hnext, hcb, hcbt, hstate, hpending⟩ := after_eq s t k c
    exact h.go hat (.inl rfl) hpc hcb hcbt hstate hnext hpending
  · cases he

/-! ## Taking a task -/

/-- The thread executes the coroutine, in state `EXEC`. -/
def Executes (s : Scheduler) (t c : Nat) : Prop :=
  ∃ p k, s.pc t = .has p k c ∧ p.executing = true

/-- The thread has taken the coroutine and not stored `EXEC` yet, or the coroutine has stored the
state it leaves with and `run` has not come to the end of its turn. -/
def Between (s : Scheduler) (t c : Nat) : Prop := s.Owns t c ∧ ¬s.Executes t c

/-- A coroutine is not taken from the queue while another thread is between. -/
def Settled (s : Scheduler) : Step → Prop
  | .pick t => ∀ c threadId, s.picks t = some ⟨.coroutine c, threadId⟩ →
      ∀ t', t' ≠ t → ¬s.Between t' c
  | _ => True

theorem picks_mem {task : Task} (h : s.picks t = some task) :
    task ∈ s.m_taskQueue ∧ s.eligible t task = true :=
  ⟨List.mem_of_find?_eq_some h, List.find?_some h⟩

/-- What is being executed is not taken. -/
theorem picks_not_exec {threadId : Option Nat} (h : s.picks t = some ⟨.coroutine c, threadId⟩) :
    s.m_state c ≠ .EXEC := by
  obtain ⟨-, he⟩ := picks_mem h
  unfold eligible at he
  rw [Bool.and_eq_true] at he
  exact bne_iff_ne.mp he.2

theorem pending_erase {q : Task → Bool}
    (h : Pending { s with m_taskQueue := s.m_taskQueue.eraseP q } c) : s.Pending c := by
  rcases h with ⟨task, hmem, hwork⟩ | hsem
  · exact .inl ⟨task, List.mem_of_mem_eraseP hmem, hwork⟩
  · exact .inr hsem

theorem setPc_self (s : Scheduler) (t : Nat) (pc : Pc) : (s.setPc t pc).pc t = pc := by
  change Function.update s.pc t pc t = _
  exact Function.update_self _ _ _

theorem setPc_other (s : Scheduler) (pc : Pc) (h : t' ≠ t) : (s.setPc t pc).pc t' = s.pc t' := by
  change Function.update s.pc t pc t' = _
  exact Function.update_of_ne h _ _

theorem Inv.pick_task (h : Inv n s) {threadId : Option Nat}
    (hp : s.picks t = some ⟨.coroutine c, threadId⟩) (hg : s.Settled (.pick t)) :
    Inv n ({ s with m_taskQueue := s.m_taskQueue.eraseP (s.eligible t) }.setPc t
      (.has .picked .task c)) := by
  have hrange := h.pending c (.inl ⟨_, (picks_mem hp).1, rfl⟩)
  have hfree : ∀ t', t' ≠ t → ¬s.Owns t' c := by
    intro t' ht hown
    refine hg c threadId hp t' ht ⟨hown, ?_⟩
    rintro ⟨p, k, hat, hexec⟩
    exact picks_not_exec hp (h.exec t' p k c hat hexec)
  refine h.turn (t := t) c hfree ?_ (fun _ hc => .inl hc) ?_ (fun _ _ => rfl) (Nat.le_refl _)
    (fun _ hc => .inl (pending_erase hc))
  · intro p k c' hat
    rw [setPc_self] at hat
    cases hat
    exact ⟨rfl, hrange.2, (fun h => nomatch h), (fun h => nomatch h), fun _ => hrange.1⟩
  · intro t' ht
    exact ⟨setPc_other _ _ ht, rfl⟩

theorem Inv.pick_cb (h : Inv n s) (hc : s.cb_coroutine t = some c) :
    Inv n (({ s with m_taskQueue := s.m_taskQueue.eraseP (s.eligible t) }.setState c .INIT).setPc t
      (.has .entering .cb c)) := by
  have hfree : ∀ t', t' ≠ t → ¬s.Owns t' c := fun t' ht hown =>
    ht (h.unique t' t c hown (.inr hc))
  refine h.turn (t := t) c hfree ?_ (fun _ hc => .inl hc) ?_
    (fun c' hc' => setState_other _ .INIT hc') (Nat.le_refl _)
    (fun _ hc => .inl (pending_erase hc))
  · intro p k c' hat
    rw [setPc_self] at hat
    cases hat
    exact ⟨rfl, h.made t c (.inr hc), (fun h => nomatch h), (fun h => nomatch h),
      fun _ => h.cb t c hc⟩
  · intro t' ht
    exact ⟨setPc_other _ _ ht, rfl⟩

theorem Inv.pick_new (h : Inv n s) :
    Inv n ((({ s with
      m_taskQueue := s.m_taskQueue.eraseP (s.eligible t)
      next := s.next + 1 }.setState s.next .INIT).setCb t (some s.next)).setPc t
        (.has .entering .cb s.next)) := by
  have hfree : ∀ t', t' ≠ t → ¬s.Owns t' s.next := fun t' _ hown =>
    Nat.lt_irrefl _ (h.made t' s.next hown)
  refine h.turn (t := t) s.next hfree ?_ ?_ ?_ (fun c' hc' => setState_other _ .INIT hc')
    (Nat.le_succ _) (fun _ hc => .inl (pending_erase hc))
  · intro p k c' hat
    rw [setPc_self] at hat
    cases hat
    exact ⟨rfl, Nat.lt_succ_self _, (fun h => nomatch h), (fun h => nomatch h),
      fun _ => h.threads⟩
  · intro c' hc'
    change Function.update s.cb_coroutine t (some s.next) t = some c' at hc'
    rw [Function.update_self] at hc'
    cases hc'
    exact .inr ⟨rfl, Nat.lt_succ_self _, h.threads⟩
  · intro t' ht
    refine ⟨setPc_other _ _ ht, ?_⟩
    change Function.update s.cb_coroutine t (some s.next) t' = _
    exact Function.update_of_ne ht _ _

/-- The coroutine of an idle loop is with its own thread only. -/
theorem Inv.pick_idle (h : Inv n s) (ht : t < n) {pc : Pc}
    (hpc : pc = .exited ∨ pc = .has .entering .idle t) : Inv n (s.setPc t pc) := by
  have hfree : ∀ t', t' ≠ t → ¬s.Owns t' t := by
    rintro t' ht' (⟨p, k, hat⟩ | hcb)
    · by_cases hk : k = .idle
      · rw [hk] at hat
        exact ht' (h.idle t' p t hat).1.symm
      · exact absurd ht (Nat.not_lt.mpr (h.other t' p k t hat hk))
    · exact absurd ht (Nat.not_lt.mpr (h.cb t' t hcb))
  refine h.turn (t := t) t hfree ?_ (fun _ hc => .inl hc) ?_ (fun _ _ => rfl) (Nat.le_refl _)
    (fun _ hc => .inl hc)
  · intro p k c' hat
    rw [setPc_self] at hat
    rcases hpc with rfl | rfl
    · cases hat
    · cases hat
      exact ⟨rfl, Nat.lt_of_lt_of_le ht h.threads, (fun h => nomatch h), fun _ => ⟨rfl, ht⟩,
        fun hk => absurd rfl hk⟩
  · intro t' ht'
    exact ⟨setPc_other _ _ ht', rfl⟩

theorem Inv.pick (h : Inv n s) (he : s.exec n (.pick t) = some s') (hg : s.Settled (.pick t)) :
    Inv n s' := by
  simp only [Scheduler.exec] at he
  split at he
  · rename_i ht
    unfold Scheduler.pick at he
    split at he
    · rename_i c threadId hp
      cases he
      exact h.pick_task hp hg
    · dsimp only at he
      split at he
      · rename_i c hc
        split at he
        · cases he
          exact h.pick_cb hc
        · cases he
      · cases he
        exact h.pick_new
    · split at he
      · cases he
        exact h.pick_idle ht.1 (.inl rfl)
      · cases he
        exact h.pick_idle ht.1 (.inr rfl)
  · cases he

/-! ## Making and scheduling -/

theorem Inv.create (h : Inv n s) (he : s.exec n .create = some s') : Inv n s' := by
  cases he
  exact h.outside rfl rfl (fun c hc => setState_other _ .INIT (Nat.ne_of_lt hc)) (Nat.le_succ _)
    (fun _ hc => .inl hc)

theorem Inv.schedule (h : Inv n s) {work : Work} {threadId : Option Nat}
    (he : s.exec n (.schedule work threadId) = some s') : Inv n s' := by
  cases work with
  | coroutine c =>
      simp only [Scheduler.exec] at he
      split at he
      · rename_i hc
        cases he
        refine h.outside rfl rfl (fun _ _ => rfl) (Nat.le_refl _) ?_
        intro c' hp
        rcases pending_schedule hp with hold | hwork
        · exact .inl hold
        · cases hwork
          exact .inr hc
      · cases he
  | cb =>
      cases he
      refine h.outside rfl rfl (fun _ _ => rfl) (Nat.le_refl _) ?_
      intro c' hp
      rcases pending_schedule hp with hold | hwork
      · exact .inl hold
      · cases hwork

/-- Who is scheduled was a waiter, and the others remain. -/
theorem mem_notify {sem : CoroutineSemaphore Nat} :
    (∀ c, sem.notify.1 = some c → c ∈ sem.m_waiters) ∧
      ∀ c ∈ sem.notify.2.m_waiters, c ∈ sem.m_waiters := by
  cases hw : sem.m_waiters with
  | nil =>
      rw [CoroutineSemaphore.notify_idle hw]
      refine ⟨(fun c hc => nomatch hc), fun c hc => ?_⟩
      change c ∈ sem.m_waiters at hc
      rw [hw] at hc
      exact hc
  | cons next rest =>
      rw [CoroutineSemaphore.notify_waiter hw]
      refine ⟨fun c hc => ?_, fun c hc => List.mem_cons_of_mem _ hc⟩
      cases hc
      exact List.mem_cons_self

theorem Inv.notify (h : Inv n s) {sem : Nat} (he : s.exec n (.notify sem) = some s') :
    Inv n s' := by
  have hpending : ∀ c, Pending { s with
      sems := Function.update s.sems sem (s.sems sem).notify.2 } c → s.Pending c := by
    intro c hp
    rcases pending_sems hp with hold | hmem
    · exact hold
    · exact .inr ⟨sem, mem_notify.2 c hmem⟩
  simp only [Scheduler.exec] at he
  split at he
  · rename_i c hc
    cases he
    refine h.outside rfl rfl (fun _ _ => rfl) (Nat.le_refl _) ?_
    intro c' hp
    rcases pending_schedule hp with hold | hwork
    · exact .inl (hpending c' hold)
    · cases hwork
      exact .inl (.inr ⟨sem, mem_notify.1 c hc⟩)
  · cases he
    exact h.outside rfl rfl (fun _ _ => rfl) (Nat.le_refl _) fun c hp => .inl (hpending c hp)

/-! ## Runs -/

theorem Inv.step (h : Inv n s) (hg : s.Settled e) (he : s.exec n e = some s') : Inv n s' := by
  cases e with
  | create => exact h.create he
  | schedule work threadId => exact h.schedule he
  | notify sem => exact h.notify he
  | pick t => exact h.pick he hg
  | check t => exact h.check he
  | swapIn t => exact h.swapIn he
  | wait t sem => exact h.wait he
  | leave t l => exact h.leave he
  | swapOut t => exact h.swapOut he
  | after t => exact h.after he

theorem run_inv {es : List Step} (h : ((scheduler n).restrict Settled).Run es s) : Inv n s := by
  refine h.invariant (I := Inv n) ?_ ?_
  · rintro s ⟨hnext, hqueue, -, hpc, hcb, hsems⟩
    have hhas : ∀ t p k c, s.pc t ≠ .has p k c := by
      intro t p k c hat
      rw [hpc t] at hat
      cases hat
    have hkeeps : ∀ t c, s.cb_coroutine t ≠ some c := by
      intro t c hc
      rw [hcb t] at hc
      cases hc
    have howns : ∀ t c, ¬s.Owns t c := by
      rintro t c (⟨p, k, hat⟩ | hc)
      · exact hhas t p k c hat
      · exact hkeeps t c hc
    exact
      { threads := Nat.le_of_eq hnext.symm
        unique := fun t t' c h _ => absurd h (howns t c)
        exec := fun t p k c hat => absurd hat (hhas t p k c)
        made := fun t c h => absurd h (howns t c)
        idle := fun t p c hat => absurd hat (hhas t p .idle c)
        other := fun t p k c hat => absurd hat (hhas t p k c)
        cb := fun t c hc => absurd hc (hkeeps t c)
        pending := by
          rintro c (⟨task, hmem, -⟩ | ⟨i, hmem⟩)
          · rw [hqueue] at hmem
            cases hmem
          · rw [hsems i] at hmem
            cases hmem }
  · rintro s e s' hs ⟨hg, he⟩
    exact hs.step hg he

/-- In every run in which no coroutine is taken while another thread is between, no two threads
have one coroutine; what is executed is in state `EXEC`, and no thread takes it. -/
theorem run_exclusive {es : List Step} (h : ((scheduler n).restrict Settled).Run es s) :
    (∀ t t' p p' k k' c, s.pc t = .has p k c → s.pc t' = .has p' k' c → t = t') ∧
      (∀ t c, s.Executes t c → s.m_state c = .EXEC) ∧
      ∀ t c, s.Executes t c → ∀ t' threadId, s.picks t' ≠ some ⟨.coroutine c, threadId⟩ := by
  have hinv := run_inv h
  have hexec : ∀ t c, s.Executes t c → s.m_state c = .EXEC := by
    rintro t c ⟨p, k, hat, hp⟩
    exact hinv.exec t p k c hat hp
  refine ⟨?_, hexec, ?_⟩
  · intro t t' p p' k k' c hat hat'
    exact hinv.unique t t' c (.inl ⟨p, k, hat⟩) (.inl ⟨p', k', hat'⟩)
  · intro t c hx t' threadId hp
    exact picks_not_exec hp (hexec t c hx)

/-- Two threads before their first turn, and a semaphore without a permit. -/
def twoThreads : Scheduler :=
  ⟨2, fun _ => .INIT, [], fun _ => .loop, fun _ => none, fun _ => ⟨0, []⟩⟩

theorem twoThreads_init : (scheduler 2).init twoThreads :=
  ⟨rfl, rfl, fun _ => rfl, fun _ => rfl, fun _ => rfl, fun _ => rfl⟩

theorem run_exclusive_one_task :
    ∃ s, ((scheduler 2).restrict Settled).Run
        [.create, .schedule (.coroutine 2) none, .pick 0, .check 0, .swapIn 0] s ∧
      s.Executes 0 2 ∧ s.m_state 2 = .EXEC ∧
        ∀ t' threadId, s.picks t' ≠ some ⟨.coroutine 2, threadId⟩ := by
  have h₀ : ((scheduler 2).restrict Settled).Run [] twoThreads := .start twoThreads_init
  have h₁ := h₀.snoc (e := Step.create) ⟨trivial, rfl⟩
  have h₂ := h₁.snoc (e := Step.schedule (.coroutine 2) none) ⟨trivial, rfl⟩
  have h₃ := h₂.snoc (e := Step.pick 0) ⟨by
    rintro c threadId - t' - ⟨⟨p, k, hat⟩ | hc, -⟩
    · exact (nomatch hat)
    · exact (nomatch hc), rfl⟩
  have h₄ := h₃.snoc (e := Step.check 0) ⟨trivial, rfl⟩
  have h₅ := h₄.snoc (e := Step.swapIn 0) ⟨trivial, rfl⟩
  obtain ⟨-, hexec, hpicks⟩ := run_exclusive h₅
  exact ⟨_, h₅, ⟨.running, .task, rfl, rfl⟩, hexec 0 2 ⟨.running, .task, rfl, rfl⟩,
    hpicks 0 2 ⟨.running, .task, rfl, rfl⟩⟩

/-- A coroutine that waits for a semaphore stores `HOLD` and is notified before it has left: the
other thread resumes it while its stack is still in use. -/
theorem notified_before_swapOut :
    ∃ s, (scheduler 2).Run
        [.create, .schedule (.coroutine 2) none, .pick 0, .check 0, .swapIn 0, .wait 0 0,
          .leave 0 .yieldToHold, .notify 0, .pick 1, .check 1, .swapIn 1] s ∧
      s.pc 0 = .has .stored .task 2 ∧ s.pc 1 = .has .running .task 2 := by
  have h₀ : (scheduler 2).Run [] twoThreads := .start twoThreads_init
  have h₁ := h₀.snoc (e := Step.create) rfl
  have h₂ := h₁.snoc (e := Step.schedule (.coroutine 2) none) rfl
  have h₃ := h₂.snoc (e := Step.pick 0) rfl
  have h₄ := h₃.snoc (e := Step.check 0) rfl
  have h₅ := h₄.snoc (e := Step.swapIn 0) rfl
  have h₆ := h₅.snoc (e := Step.wait 0 0) rfl
  have h₇ := h₆.snoc (e := Step.leave 0 .yieldToHold) rfl
  have h₈ := h₇.snoc (e := Step.notify 0) rfl
  have h₉ := h₈.snoc (e := Step.pick 1) rfl
  have h₁₀ := h₉.snoc (e := Step.check 1) rfl
  have h₁₁ := h₁₀.snoc (e := Step.swapIn 1) rfl
  exact ⟨_, h₁₁, rfl, rfl⟩

end Scheduler

end CIM
