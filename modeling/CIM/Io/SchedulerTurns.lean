import CIM.Io.SchedulerRuns

/-!
# What a thread does in a step

Every step of a scheduler is one of the turns below, and what holds of all of them is read off
one by one: where a thread is afterwards, what is in the queue, and where a coroutine is that
yielded to be resumed.
-/
namespace CIM

namespace Scheduler

/-- The steps of `exec` with their guards, as far as this module needs them. -/
inductive Turn (n : Nat) (s : Scheduler) : Step → Scheduler → Prop
  | create : Turn n s .create ({ s with next := s.next + 1 }.setState s.next .INIT)
  | schedule {work threadId} (hc : ∀ c, work = .coroutine c → n ≤ c) :
      Turn n s (.schedule work threadId) (s.schedule work threadId)
  | notified {sem c} (hc : c ∈ (s.sems sem).m_waiters) :
      Turn n s (.notify sem) (schedule
        { s with sems := Function.update s.sems sem (s.sems sem).notify.2 } (.coroutine c) none)
  | permit {sem} : Turn n s (.notify sem)
      { s with sems := Function.update s.sems sem (s.sems sem).notify.2 }
  | pickTask {t c threadId} (hpc : s.pc t = .loop)
      (hp : s.picks t = some ⟨.coroutine c, threadId⟩) :
      Turn n s (.pick t) ({ s with m_taskQueue := s.m_taskQueue.eraseP (s.eligible t) }.setPc t
        (.has .picked .task c))
  | pickCb {t c threadId} (hpc : s.pc t = .loop) (hp : s.picks t = some ⟨.cb, threadId⟩)
      (hc : s.cb_coroutine t = some c) :
      Turn n s (.pick t) (({ s with
        m_taskQueue := s.m_taskQueue.eraseP (s.eligible t) }.setState c .INIT).setPc t
          (.has .entering .cb c))
  | pickNew {t threadId} (hpc : s.pc t = .loop) (hp : s.picks t = some ⟨.cb, threadId⟩) :
      Turn n s (.pick t) ((({ s with
        m_taskQueue := s.m_taskQueue.eraseP (s.eligible t)
        next := s.next + 1 }.setState s.next .INIT).setCb t (some s.next)).setPc t
          (.has .entering .cb s.next))
  | exit {t} (hpc : s.pc t = .loop) : Turn n s (.pick t) (s.setPc t .exited)
  | pickIdle {t} (hpc : s.pc t = .loop) (ht : t < n) :
      Turn n s (.pick t) (s.setPc t (.has .entering .idle t))
  | skip {t k c} (hat : s.pc t = .has .picked k c) (ho : isOver (s.m_state c) = true) :
      Turn n s (.check t) (s.setPc t .loop)
  | check {t k c} (hat : s.pc t = .has .picked k c) :
      Turn n s (.check t) (s.setPc t (.has .entering k c))
  | swapIn {t k c} (hat : s.pc t = .has .entering k c) :
      Turn n s (.swapIn t) ((s.setState c .EXEC).setPc t (.has .running k c))
  | permitted {t sem k c} (hat : s.pc t = .has .running k c) (hk : k ≠ .idle) :
      Turn n s (.wait t sem)
        { s with sems := Function.update s.sems sem ((s.sems sem).wait c).2 }
  | wait {t sem k c} (hat : s.pc t = .has .running k c) (hk : k ≠ .idle) :
      Turn n s (.wait t sem) (setPc
        { s with sems := Function.update s.sems sem ((s.sems sem).wait c).2 } t
          (.has .waiting k c))
  | leave {t l p k c s₁} (hat : s.pc t = .has p k c) (hp : p.executing = true)
      (hs : s₁ = s ∨ ∃ state, s₁ = s.setState c state) :
      Turn n s (.leave t l) (s₁.setPc t (.has .stored k c))
  | swapOut {t k c} (hat : s.pc t = .has .stored k c) :
      Turn n s (.swapOut t) (s.setPc t (.has .left k c))
  | after {t k c} (hat : s.pc t = .has .left k c) :
      Turn n s (.after t) ((s.after t k c).setPc t .loop)

variable {n : Nat} {s s' : Scheduler} {t t' c c' : Nat} {p : Point} {k : Kind} {e : Step}

theorem turn_pick (he : s.exec n (.pick t) = some s') : Turn n s (.pick t) s' := by
  simp only [exec] at he
  split at he
  · rename_i ht
    unfold Scheduler.pick at he
    split at he
    · rename_i c threadId hp
      cases he
      exact .pickTask ht.2 hp
    · rename_i threadId hp
      dsimp only at he
      split at he
      · rename_i c hc
        split at he
        · cases he
          exact .pickCb ht.2 hp hc
        · cases he
      · cases he
        exact .pickNew ht.2 hp
    · split at he
      · cases he
        exact .exit ht.2
      · cases he
        exact .pickIdle ht.2 ht.1
  · cases he

theorem turn_wait {sem : Nat} (he : s.exec n (.wait t sem) = some s') :
    Turn n s (.wait t sem) s' := by
  simp only [exec] at he
  split at he
  · rename_i k c hat
    split at he
    · cases he
    · rename_i hk
      split at he
      · cases he
        exact .permitted hat hk
      · cases he
        exact .wait hat hk
  · cases he

theorem turn_leave {l : Leave} (he : s.exec n (.leave t l) = some s') :
    Turn n s (.leave t l) s' := by
  simp only [exec] at he
  split at he
  · rename_i k c hat
    obtain ⟨s₁, hs₁, rfl⟩ := Option.map_eq_some_iff.mp he
    exact .leave hat rfl (store_eq hs₁)
  · rename_i k c hat
    split at he
    · obtain ⟨s₁, hs₁, rfl⟩ := Option.map_eq_some_iff.mp he
      exact .leave hat rfl (store_eq hs₁)
    · cases he
  · cases he

theorem exec_turn (he : s.exec n e = some s') : Turn n s e s' := by
  cases e with
  | create =>
      cases he
      exact .create
  | schedule work threadId =>
      cases work with
      | coroutine c =>
          simp only [exec] at he
          split at he
          · rename_i hc
            cases he
            refine .schedule fun c' hc' => ?_
            cases hc'
            exact hc.1
          · cases he
      | cb =>
          cases he
          exact .schedule (by rintro _ ⟨⟩)
  | notify sem =>
      simp only [exec] at he
      split at he
      · rename_i c hc
        cases he
        exact .notified (mem_notify.1 c hc)
      · cases he
        exact .permit
  | pick t => exact turn_pick he
  | check t =>
      simp only [exec] at he
      split at he
      · rename_i k c hat
        split at he
        · rename_i ho
          cases he
          exact .skip hat ho
        · cases he
          exact .check hat
      · cases he
  | swapIn t =>
      simp only [exec] at he
      split at he
      · rename_i k c hat
        split at he
        · cases he
        · cases he
          exact .swapIn hat
      · cases he
  | wait t sem => exact turn_wait he
  | leave t l => exact turn_leave he
  | swapOut t =>
      simp only [exec] at he
      split at he
      · rename_i k c hat
        cases he
        exact .swapOut hat
      · cases he
  | after t =>
      simp only [exec] at he
      split at he
      · rename_i k c hat
        cases he
        exact .after hat
      · cases he

/-! ## Which coroutines are whose -/

/-- Only the thread itself is elsewhere. -/
theorem setPc_has {pc : Pc} (h : (s.setPc t pc).pc t' = .has p k c) :
    t' = t ∧ pc = .has p k c ∨ t' ≠ t ∧ s.pc t' = .has p k c := by
  by_cases ht : t' = t
  · rw [ht, setPc_self] at h
    exact .inl ⟨ht, h⟩
  · rw [setPc_other s pc ht] at h
    exact .inr ⟨ht, h⟩

/-- A thread is at a coroutine it was at before, or has picked it. -/
theorem Turn.has (h : Turn n s e s') (hat : s'.pc t = .has p k c) :
    (∃ p', s.pc t = .has p' k c ∧ (p' = .left → p = .left)) ∨
      e = .pick t ∧ (k = .idle ∧ c < n ∨ k ≠ .idle ∧ (s.picks t).isSome = true ∧
        (s.Pending c ∨ s.cb_coroutine t = some c ∨ c = s.next)) := by
  cases h with
  | create => exact .inl ⟨p, hat, id⟩
  | schedule => exact .inl ⟨p, hat, id⟩
  | notified => exact .inl ⟨p, hat, id⟩
  | permit => exact .inl ⟨p, hat, id⟩
  | permitted => exact .inl ⟨p, hat, id⟩
  | pickTask hpc hp =>
      rcases setPc_has hat with ⟨rfl, hpc'⟩ | ⟨-, hold⟩
      · cases hpc'
        refine .inr ⟨rfl, .inr ⟨by decide, ?_, .inl (.inl ⟨_, (picks_mem hp).1, rfl⟩)⟩⟩
        rw [hp]
        rfl
      · exact .inl ⟨p, hold, id⟩
  | pickCb hpc hp hc =>
      rcases setPc_has hat with ⟨rfl, hpc'⟩ | ⟨-, hold⟩
      · cases hpc'
        refine .inr ⟨rfl, .inr ⟨by decide, ?_, .inr (.inl hc)⟩⟩
        rw [hp]
        rfl
      · exact .inl ⟨p, hold, id⟩
  | pickNew hpc hp =>
      rcases setPc_has hat with ⟨rfl, hpc'⟩ | ⟨-, hold⟩
      · cases hpc'
        refine .inr ⟨rfl, .inr ⟨by decide, ?_, .inr (.inr rfl)⟩⟩
        rw [hp]
        rfl
      · exact .inl ⟨p, hold, id⟩
  | exit hpc =>
      rcases setPc_has hat with ⟨-, hpc'⟩ | ⟨-, hold⟩
      · cases hpc'
      · exact .inl ⟨p, hold, id⟩
  | pickIdle hpc ht =>
      rcases setPc_has hat with ⟨rfl, hpc'⟩ | ⟨-, hold⟩
      · cases hpc'
        exact .inr ⟨rfl, .inl ⟨rfl, ht⟩⟩
      · exact .inl ⟨p, hold, id⟩
  | skip hat' =>
      rcases setPc_has hat with ⟨-, hpc'⟩ | ⟨-, hold⟩
      · cases hpc'
      · exact .inl ⟨p, hold, id⟩
  | check hat' =>
      rcases setPc_has hat with ⟨rfl, hpc'⟩ | ⟨-, hold⟩
      · cases hpc'
        exact .inl ⟨_, hat', fun h => nomatch h⟩
      · exact .inl ⟨p, hold, id⟩
  | swapIn hat' =>
      rcases setPc_has hat with ⟨rfl, hpc'⟩ | ⟨-, hold⟩
      · cases hpc'
        exact .inl ⟨_, hat', fun h => nomatch h⟩
      · exact .inl ⟨p, hold, id⟩
  | wait hat' =>
      rcases setPc_has hat with ⟨rfl, hpc'⟩ | ⟨-, hold⟩
      · cases hpc'
        exact .inl ⟨_, hat', fun h => nomatch h⟩
      · exact .inl ⟨p, hold, id⟩
  | leave hat' hexec hs =>
      rcases setPc_has hat with ⟨rfl, hpc'⟩ | ⟨-, hold⟩
      · cases hpc'
        refine .inl ⟨_, hat', ?_⟩
        rintro rfl
        cases hexec
      · rcases hs with rfl | ⟨state, rfl⟩
        · exact .inl ⟨p, hold, id⟩
        · exact .inl ⟨p, hold, id⟩
  | swapOut hat' =>
      rcases setPc_has hat with ⟨rfl, hpc'⟩ | ⟨-, hold⟩
      · cases hpc'
        exact .inl ⟨_, hat', fun _ => rfl⟩
      · exact .inl ⟨p, hold, id⟩
  | after hat' =>
      rcases setPc_has hat with ⟨-, hpc'⟩ | ⟨-, hold⟩
      · cases hpc'
      · rw [(after_eq _ _ _ _).1] at hold
        exact .inl ⟨p, hold, id⟩

theorem Turn.next (h : Turn n s e s') : s.next ≤ s'.next := by
  cases h with
  | create => exact Nat.le_succ _
  | pickNew => exact Nat.le_succ _
  | leave hat hexec hs =>
      rcases hs with rfl | ⟨state, rfl⟩
      · exact Nat.le_refl _
      · exact Nat.le_refl _
  | after => exact Nat.le_of_eq (after_eq _ _ _ _).2.1.symm
  | _ => exact Nat.le_refl _

theorem Turn.cb (h : Turn n s e s') (hc : s'.cb_coroutine t = some c) :
    s.cb_coroutine t = some c ∨ c = s.next := by
  cases h with
  | @pickNew u =>
      change Function.update s.cb_coroutine u (some s.next) t = some c at hc
      by_cases ht : t = u
      · rw [ht, Function.update_self] at hc
        exact .inr (Option.some.inj hc).symm
      · rw [Function.update_of_ne ht] at hc
        exact .inl hc
  | leave hat hexec hs =>
      rcases hs with rfl | ⟨state, rfl⟩
      · exact .inl hc
      · exact .inl hc
  | @after u k' c' =>
      obtain ⟨-, -, hothers, hself, -⟩ := after_eq s u k' c'
      by_cases ht : t = u
      · rw [ht] at hc ⊢
        exact .inl (hself c hc)
      · exact .inl ((hothers t ht).symm.trans hc)
  | _ => exact .inl hc

theorem Turn.pending (h : Turn n s e s') (hp : s'.Pending c) :
    s.Pending c ∨ n ≤ c ∨ ∃ t p k, s.pc t = .has p k c ∧ k ≠ .idle := by
  cases h with
  | schedule hn =>
      rcases pending_schedule hp with hold | hwork
      · exact .inl hold
      · exact .inr (.inl (hn c hwork))
  | notified hc =>
      rcases pending_schedule hp with hold | hwork
      · rcases pending_sems hold with hold | hmem
        · exact .inl hold
        · exact .inl (.inr ⟨_, mem_notify.2 c hmem⟩)
      · cases hwork
        exact .inl (.inr ⟨_, hc⟩)
  | permit =>
      rcases pending_sems hp with hold | hmem
      · exact .inl hold
      · exact .inl (.inr ⟨_, mem_notify.2 c hmem⟩)
  | pickTask => exact .inl (pending_erase hp)
  | pickCb => exact .inl (pending_erase hp)
  | pickNew => exact .inl (pending_erase hp)
  | permitted hat hk =>
      rcases pending_sems hp with hold | hmem
      · exact .inl hold
      · rcases mem_wait hmem with hold | rfl
        · exact .inl (.inr ⟨_, hold⟩)
        · exact .inr (.inr ⟨_, _, _, hat, hk⟩)
  | wait hat hk =>
      change Pending { s with sems := _ } c at hp
      rcases pending_sems hp with hold | hmem
      · exact .inl hold
      · rcases mem_wait hmem with hold | rfl
        · exact .inl (.inr ⟨_, hold⟩)
        · exact .inr (.inr ⟨_, _, _, hat, hk⟩)
  | leave hat hexec hs =>
      rcases hs with rfl | ⟨state, rfl⟩
      · exact .inl hp
      · exact .inl hp
  | after hat =>
      rcases (after_eq _ _ _ _).2.2.2.2.2 c hp with hold | ⟨rfl, hk⟩
      · exact .inl hold
      · exact .inr (.inr ⟨_, _, _, hat, hk⟩)
  | _ => exact .inl hp

/-- The coroutines of the idle loops have the first numbers, and nothing else runs them. -/
structure Ranged (n : Nat) (s : Scheduler) : Prop where
  threads : n ≤ s.next
  idle : ∀ t p c, s.pc t = .has p .idle c → c < n
  other : ∀ t p k c, s.pc t = .has p k c → k ≠ .idle → n ≤ c
  cb : ∀ t c, s.cb_coroutine t = some c → n ≤ c
  pending : ∀ c, s.Pending c → n ≤ c

theorem Ranged.turn (h : Ranged n s) (ht : Turn n s e s') : Ranged n s' where
  threads := Nat.le_trans h.threads ht.next
  idle := by
    intro t p c hat
    rcases ht.has hat with ⟨p', hold, -⟩ | ⟨-, ⟨-, hc⟩ | ⟨hk, -⟩⟩
    · exact h.idle t p' c hold
    · exact hc
    · exact absurd rfl hk
  other := by
    intro t p k c hat hk
    rcases ht.has hat with ⟨p', hold, -⟩ | ⟨-, ⟨hidle, -⟩ | ⟨-, -, hp | hc | rfl⟩⟩
    · exact h.other t p' k c hold hk
    · exact absurd hidle hk
    · exact h.pending c hp
    · exact h.cb t c hc
    · exact h.threads
  cb := by
    intro t c hc
    rcases ht.cb hc with hold | rfl
    · exact h.cb t c hold
    · exact h.threads
  pending := by
    intro c hp
    rcases ht.pending hp with hold | hn | ⟨t, p, k, hat, hk⟩
    · exact h.pending c hold
    · exact hn
    · exact h.other t p k c hat hk

/-! ## Where a coroutine that yielded is -/

/-- It is in the queue, or with a thread that does not execute it. -/
def Held (s : Scheduler) (c : Nat) : Prop :=
  (∃ task ∈ s.m_taskQueue, task.work = .coroutine c) ∨
    ∃ t p k, s.pc t = .has p k c ∧ p.executing = false

/-- The queue keeps the coroutine, and the thread that moves did not have it. -/
theorem Held.mono (h : s.Held c)
    (hqueue : ∀ task ∈ s.m_taskQueue, task.work = .coroutine c → task ∈ s'.m_taskQueue)
    (hpc : ∀ t p k, s.pc t = .has p k c → p.executing = false → s'.pc t = .has p k c) :
    s'.Held c := by
  rcases h with ⟨task, hmem, hwork⟩ | ⟨t, p, k, hat, hexec⟩
  · exact .inl ⟨task, hqueue task hmem hwork, hwork⟩
  · exact .inr ⟨t, p, k, hpc t p k hat hexec, hexec⟩

/-- What is taken out of the queue is what was picked. -/
theorem mem_eraseP_of_find? {α : Type*} {q : α → Bool} {l : List α} {a b : α}
    (hb : l.find? q = some b) (ha : a ∈ l) : a = b ∨ a ∈ l.eraseP q := by
  induction l with
  | nil => cases ha
  | cons x l ih =>
      by_cases hx : q x = true
      · rw [List.find?_cons_of_pos hx] at hb
        cases hb
        rw [List.eraseP_cons_of_pos hx]
        exact List.mem_cons.mp ha
      · rw [List.find?_cons_of_neg hx] at hb
        rw [List.eraseP_cons_of_neg hx]
        rcases List.mem_cons.mp ha with rfl | ha
        · exact .inr List.mem_cons_self
        · exact (ih hb ha).imp_right (List.mem_cons_of_mem _)

theorem after_queue {task : Task} (h : task ∈ s.m_taskQueue) :
    task ∈ (s.after t k c).m_taskQueue := by
  have hmem : task ∈ (s.schedule (.coroutine c) none).m_taskQueue := List.mem_append_left _ h
  unfold Scheduler.after
  cases k with
  | task =>
      dsimp only
      split
      · exact hmem
      · split <;> exact h
  | cb =>
      dsimp only
      split
      · exact hmem
      · split <;> exact h
  | idle =>
      dsimp only
      split <;> exact h

/-- A coroutine that is still `READY` behind its turn was put back into the queue. -/
theorem after_ready (h : (s.after t k c).m_state c = .READY) :
    s.m_state c = .READY ∧
      ∃ task ∈ (s.after t k c).m_taskQueue, task.work = .coroutine c := by
  have hlast : ∃ task ∈ (s.schedule (.coroutine c) none).m_taskQueue, task.work = .coroutine c :=
    ⟨⟨.coroutine c, none⟩, List.mem_append_right _ (List.mem_singleton.mpr rfl), rfl⟩
  have hhold : ∀ state, state ≠ .READY → (s.setState c state).m_state c ≠ .READY := by
    intro state hne
    rw [setState_self]
    exact hne
  unfold Scheduler.after at h ⊢
  cases k with
  | task =>
      dsimp only at h ⊢
      split
      · rename_i hready
        exact ⟨hready, hlast⟩
      · rename_i hne
        rw [if_neg hne] at h
        split at h
        · exact absurd h hne
        · exact absurd h (hhold .HOLD (by decide))
  | cb =>
      dsimp only at h ⊢
      split
      · rename_i hready
        exact ⟨hready, hlast⟩
      · rename_i hne
        rw [if_neg hne] at h
        split at h
        · exact absurd h (hhold .INIT (by decide))
        · exact absurd h (hhold .HOLD (by decide))
  | idle =>
      dsimp only at h
      split at h
      · rename_i ho
        rw [h] at ho
        cases ho
      · exact absurd h (hhold .HOLD (by decide))

theorem ready_setState {state : Scheduler.State} (h : (s.setState c' state).m_state c = .READY)
    (hne : state ≠ .READY) : c ≠ c' ∧ s.m_state c = .READY := by
  by_cases hc : c = c'
  · rw [hc, setState_self] at h
    exact absurd h hne
  · rw [setState_other s state hc] at h
    exact ⟨hc, h⟩

/-- A thread that did not have the coroutine, unless it executed it, has moved. -/
theorem Held.setPc (h : s.Held c) {pc : Pc}
    (hat : ∀ p k, s.pc t = .has p k c → p.executing = true) (hpc : s'.pc = s.pc)
    (hqueue : ∀ task ∈ s.m_taskQueue, task.work = .coroutine c → task ∈ s'.m_taskQueue) :
    (s'.setPc t pc).Held c := by
  refine h.mono hqueue ?_
  intro t' p k hold hexec
  have ht : t' ≠ t := by
    rintro rfl
    rw [hat p k hold] at hexec
    cases hexec
  rw [setPc_other s' pc ht, hpc]
  exact hold

/-- The thread comes to a point at which it does not execute the coroutine. -/
theorem held_setPc (hp : p.executing = false) : (s.setPc t (.has p k c)).Held c :=
  .inr ⟨t, p, k, setPc_self s t _, hp⟩

theorem Turn.ready (h : Turn n s e s') (hheld : ∀ c, s.m_state c = .READY → s.Held c)
    (hs : s'.m_state c = .READY) : s'.Held c := by
  have hloop : ∀ {t}, s.pc t = .loop → ∀ p k, s.pc t = .has p k c → p.executing = true := by
    intro t hpc p k hat
    rw [hpc] at hat
    cases hat
  have hother : ∀ {t p₀ k₀ c₀}, s.pc t = .has p₀ k₀ c₀ → c ≠ c₀ →
      ∀ p k, s.pc t = .has p k c → p.executing = true := by
    intro t p₀ k₀ c₀ hat hc p k hat'
    rw [hat] at hat'
    cases hat'
    exact absurd rfl hc
  have herase : ∀ {t task}, s.picks t = some task → task.work ≠ .coroutine c →
      ∀ task' ∈ s.m_taskQueue, task'.work = .coroutine c →
        task' ∈ s.m_taskQueue.eraseP (s.eligible t) := by
    intro t task hp hne task' hmem hwork
    rcases mem_eraseP_of_find? hp hmem with rfl | hrest
    · exact absurd hwork hne
    · exact hrest
  cases h with
  | create =>
      obtain ⟨-, hold⟩ := ready_setState hs (by decide)
      exact hheld c hold
  | schedule =>
      exact (hheld c hs).mono (fun _ h _ => List.mem_append_left _ h) fun _ _ _ h _ => h
  | notified =>
      exact (hheld c hs).mono (fun _ h _ => List.mem_append_left _ h) fun _ _ _ h _ => h
  | permit => exact hheld c hs
  | permitted => exact hheld c hs
  | @pickTask t c₀ threadId hpc hp =>
      by_cases hc : c = c₀
      · rw [hc]
        exact held_setPc rfl
      · refine (hheld c hs).setPc (hloop hpc) rfl (herase hp ?_)
        rintro hwork
        cases hwork
        exact hc rfl
  | pickCb hpc hp hc =>
      obtain ⟨-, hold⟩ := ready_setState hs (by decide)
      exact (hheld c hold).setPc (hloop hpc) rfl (herase hp fun hwork => nomatch hwork)
  | pickNew hpc hp =>
      obtain ⟨-, hold⟩ := ready_setState hs (by decide)
      exact (hheld c hold).setPc (hloop hpc) rfl (herase hp fun hwork => nomatch hwork)
  | exit hpc => exact (hheld c hs).setPc (hloop hpc) rfl fun _ h _ => h
  | pickIdle hpc => exact (hheld c hs).setPc (hloop hpc) rfl fun _ h _ => h
  | skip hat ho =>
      refine (hheld c hs).setPc (hother hat ?_) rfl fun _ h _ => h
      rintro rfl
      have hready : s.m_state c = .READY := hs
      rw [hready] at ho
      cases ho
  | @check t k₀ c₀ hat =>
      by_cases hc : c = c₀
      · rw [hc]
        exact held_setPc rfl
      · exact (hheld c hs).setPc (hother hat hc) rfl fun _ h _ => h
  | swapIn hat =>
      obtain ⟨hc, hold⟩ := ready_setState hs (by decide)
      exact (hheld c hold).setPc (hother hat hc) rfl fun _ h _ => h
  | wait hat =>
      refine (hheld c hs).setPc ?_ rfl fun _ h _ => h
      intro p k hat'
      rw [hat] at hat'
      cases hat'
      rfl
  | @leave t l p₀ k₀ c₀ s₁ hat hexec hstore =>
      by_cases hc : c = c₀
      · rw [hc]
        exact held_setPc rfl
      · rcases hstore with rfl | ⟨state, rfl⟩
        · exact (hheld c hs).setPc (hother hat hc) rfl fun _ h _ => h
        · have hold : s.m_state c = .READY := (setState_other s state hc).symm.trans hs
          exact (hheld c hold).setPc (hother hat hc) rfl fun _ h _ => h
  | @swapOut t k₀ c₀ hat =>
      by_cases hc : c = c₀
      · rw [hc]
        exact held_setPc rfl
      · exact (hheld c hs).setPc (hother hat hc) rfl fun _ h _ => h
  | @after t k₀ c₀ hat =>
      by_cases hc : c = c₀
      · rw [hc] at hs ⊢
        obtain ⟨-, task, hmem, hwork⟩ := after_ready hs
        exact .inl ⟨task, hmem, hwork⟩
      · have hold : s.m_state c = .READY :=
          ((after_eq s t k₀ c₀).2.2.2.2.1 c hc).symm.trans hs
        exact (hheld c hold).setPc (hother hat hc) (after_eq s t k₀ c₀).1 fun _ h _ => after_queue h

/-- Only a coroutine that is executed yields. -/
theorem Turn.yielded (h : Turn n s e s') (hs : s'.m_state c = .READY) :
    s.m_state c = .READY ∨ ∃ t p k, s.pc t = .has p k c ∧ p.executing = true := by
  cases h with
  | create => exact .inl (ready_setState hs (by decide)).2
  | pickCb => exact .inl (ready_setState hs (by decide)).2
  | pickNew => exact .inl (ready_setState hs (by decide)).2
  | swapIn => exact .inl (ready_setState hs (by decide)).2
  | @leave t l p₀ k₀ c₀ s₁ hat hexec hstore =>
      rcases hstore with rfl | ⟨state, rfl⟩
      · exact .inl hs
      · by_cases hc : c = c₀
        · rw [hc]
          exact .inr ⟨t, p₀, k₀, hat, hexec⟩
        · exact .inl ((setState_other s state hc).symm.trans hs)
  | @after t k₀ c₀ hat =>
      by_cases hc : c = c₀
      · rw [hc] at hs ⊢
        exact .inl (after_ready hs).1
      · exact .inl (((after_eq s t k₀ c₀).2.2.2.2.1 c hc).symm.trans hs)
  | _ => exact .inl hs

/-- Not done by a thread of the scheduler in its loop. -/
def Step.Outside : Step → Prop
  | .schedule _ _ => True
  | .notify _ => True
  | _ => False

theorem after_empty (hq : s.m_taskQueue = []) (hready : k ≠ .idle → s.m_state c ≠ .READY) :
    (s.after t k c).m_taskQueue = [] := by
  unfold Scheduler.after
  cases k with
  | task =>
      dsimp only
      rw [if_neg (hready (by decide))]
      split <;> exact hq
  | cb =>
      dsimp only
      rw [if_neg (hready (by decide))]
      split <;> exact hq
  | idle =>
      dsimp only
      split <;> exact hq

/-- A queue that is empty stays so where nobody has yielded. -/
theorem Turn.empty (h : Turn n s e s') (hq : s.m_taskQueue = []) (he : ¬e.Outside)
    (hready : ∀ t k c, s.pc t = .has .left k c → k ≠ .idle → s.m_state c ≠ .READY) :
    s'.m_taskQueue = [] := by
  have hpicks : ∀ {t task}, s.picks t ≠ some task := by
    intro t task hp
    have hmem := (picks_mem hp).1
    rw [hq] at hmem
    cases hmem
  cases h with
  | schedule => exact absurd trivial he
  | notified => exact absurd trivial he
  | pickTask _ hp => exact absurd hp hpicks
  | pickCb _ hp => exact absurd hp hpicks
  | pickNew _ hp => exact absurd hp hpicks
  | leave hat hexec hstore =>
      rcases hstore with rfl | ⟨state, rfl⟩
      · exact hq
      · exact hq
  | after hat => exact after_empty hq (hready _ _ _ hat)
  | _ => exact hq

end Scheduler

end CIM
