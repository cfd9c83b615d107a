import CIM.Streams.PermitRuns

/-!
# The disconnect callback

While the loops of a stream run, either the callback is still to come and the socket is connected,
or one coroutine is about to call it, or it was called.
-/
namespace CIM

open Transition

namespace StreamLoops

variable {s s' : StreamLoops} {i : Nat} {c c' : Coroutine} {e : Step}

/-- The loops, and the one that is about to be started. -/
def loops (s : StreamLoops) : Nat :=
  s.total Census.reads + s.total Census.writes + s.total Census.starting

/-- The coroutines between the check of `innerClose` and its close of the socket. -/
def pending (s : StreamLoops) : Nat := s.total Census.callback + s.total Census.called

/-- No coroutine checks a connected socket while another one is to close it, and `close` finds the
socket closed, or such a coroutine, or no loop. -/
def ClosesOnce (s : StreamLoops) : Step → Prop
  | .next i _ =>
      (∀ c, s.coroutines[i]? = some (.innerClose c .check) → s.connected = true → s.pending = 0) ∧
        (s.coroutines[i]? = some .closeSocket → s.connected = true →
          0 < s.pending ∨ s.loops + s.total Census.ready = 0)
  | _ => True

structure Once (s : StreamLoops) : Prop where
  single : s.pending ≤ 1
  before : 0 < s.loops → 0 < s.total Census.callback → s.disconnects = 0
  after : 0 < s.loops → 0 < s.total Census.called → s.disconnects = 1
  idle : 0 < s.loops → s.pending = 0 → s.disconnects + s.connected.toNat = 1
  ready : 0 < s.total Census.ready → s.connected.toNat = 1 ∧ s.pending = 0
  opened : 0 < s.loops → s.connected.toNat = 1 → 0 < s.total Census.opened
  uncalled : 0 < s.total Census.uncalled → s.connected.toNat = 0
  ended : s.loops = 0 → s.started.toNat = 1 → s.disconnects = 1

/-- The counts of a state, in which the invariant is arithmetic. -/
def Counts (k q l r o u b d t : Nat) : Prop :=
  k + q ≤ 1 ∧ (0 < l → 0 < k → d = 0) ∧ (0 < l → 0 < q → d = 1) ∧
    (0 < l → k + q = 0 → d + b = 1) ∧ (0 < r → b = 1 ∧ k + q = 0) ∧
    (0 < l → b = 1 → 0 < o) ∧ (0 < u → b = 0) ∧ (l = 0 → t = 1 → d = 1)

theorem once_iff : Once s ↔ Counts (s.total Census.callback) (s.total Census.called) s.loops
    (s.total Census.ready) (s.total Census.opened) (s.total Census.uncalled) s.connected.toNat
    s.disconnects s.started.toNat :=
  ⟨fun h => ⟨h.single, h.before, h.after, h.idle, h.ready, h.opened, h.uncalled, h.ended⟩,
    fun ⟨h₁, h₂, h₃, h₄, h₅, h₆, h₇, h₈⟩ => ⟨h₁, h₂, h₃, h₄, h₅, h₆, h₇, h₈⟩⟩

theorem Once.of_counts (h : Once s) (hk : s'.total Census.callback = s.total Census.callback)
    (hq : s'.total Census.called = s.total Census.called) (hl : s'.loops = s.loops)
    (hr : s'.total Census.ready ≤ s.total Census.ready)
    (ho : s'.total Census.opened = s.total Census.opened)
    (hu : s'.total Census.uncalled = s.total Census.uncalled) (hc : s'.connected = s.connected)
    (hs : s'.started = s.started) (hd : s'.disconnects = s.disconnects) : Once s' := by
  have hp : s'.pending = s.pending := by
    unfold pending
    rw [hk, hq]
  refine
    { single := hp ▸ h.single
      before := ?_
      after := ?_
      idle := ?_
      ready := ?_
      opened := ?_
      uncalled := ?_
      ended := ?_ }
  · rw [hl, hk, hd]
    exact h.before
  · rw [hl, hq, hd]
    exact h.after
  · rw [hl, hp, hd, hc]
    exact h.idle
  · rw [hp, hc]
    exact fun hpos => h.ready (Nat.lt_of_lt_of_le hpos hr)
  · rw [hl, hc, ho]
    exact h.opened
  · rw [hu, hc]
    exact h.uncalled
  · rw [hl, hs, hd]
    exact h.ended

theorem Once.quiet (h : Once s) (q : Quiet s s') : Once s' := by
  have hl : s'.loops = s.loops := by
    unfold loops
    rw [q.total _ rfl, q.total _ rfl, q.total _ rfl]
  exact h.of_counts (q.total _ rfl) (q.total _ rfl) hl (Nat.le_of_eq (q.total _ rfl))
    (q.total _ rfl) (q.total _ rfl) q.connected q.started q.disconnects

/-- The counts after the move of one coroutine. -/
structure Moved (s s' : StreamLoops) (c c' : Census) : Prop where
  reads : s'.total Census.reads + c.reads = s.total Census.reads + c'.reads
  writes : s'.total Census.writes + c.writes = s.total Census.writes + c'.writes
  starting : s'.total Census.starting + c.starting = s.total Census.starting + c'.starting
  ready : s'.total Census.ready + c.ready = s.total Census.ready + c'.ready
  opened : s'.total Census.opened + c.opened = s.total Census.opened + c'.opened
  callback : s'.total Census.callback + c.callback = s.total Census.callback + c'.callback
  called : s'.total Census.called + c.called = s.total Census.called + c'.called
  uncalled : s'.total Census.uncalled + c.uncalled = s.total Census.uncalled + c'.uncalled

theorem moved (hi : s.coroutines[i]? = some c) (c' : Coroutine)
    (hs : s'.coroutines = (s.goto i c').coroutines) :
    Moved s s' c.census c'.census := by
  have hw : ∀ w : Census → Nat, w .zero = 0 →
      s'.total w + w c.census = s.total w + w c'.census := by
    intro w hw
    have hold := total_eq hi w hw
    have hnew := total_goto hi c' w hw
    have hsame : s'.total w = (s.goto i c').total w := by
      unfold total
      rw [hs]
    omega
  exact ⟨hw _ rfl, hw _ rfl, hw _ rfl, hw _ rfl, hw _ rfl, hw _ rfl, hw _ rfl, hw _ rfl⟩

/-- A new coroutine comes from nowhere. -/
theorem spawned (s : StreamLoops) (c : Coroutine) : Moved s (s.spawn c) .zero c.census := by
  have hw := total_spawn s c
  exact ⟨hw _, hw _, hw _, hw _, hw _, hw _, hw _, hw _⟩

/-- A move after which less or the same is counted as ready, and everything else as before. -/
theorem Once.move (h : Once s) (c' : Coroutine) (hm : Moved s s' c.census c'.census)
    (hl : c'.census.reads + c'.census.writes + c'.census.starting =
      c.census.reads + c.census.writes + c.census.starting)
    (hr : c'.census.ready ≤ c.census.ready) (ho : c'.census.opened = c.census.opened)
    (hk : c'.census.callback = c.census.callback) (hq : c'.census.called = c.census.called)
    (hu : c'.census.uncalled = c.census.uncalled) (hc : s'.connected = s.connected)
    (hs : s'.started = s.started) (hd : s'.disconnects = s.disconnects) : Once s' := by
  obtain ⟨h₁, h₂, h₃, h₄, h₅, h₆, h₇, h₈⟩ := hm
  refine h.of_counts ?_ ?_ ?_ ?_ ?_ ?_ hc hs hd
  · omega
  · omega
  · unfold loops
    omega
  · omega
  · omega
  · omega

/-! ## Steps -/

theorem Once.take (h : Once s) {second : Bool} (hi : s.coroutines[i]? = some (.waitFiber second)) :
    Once ({ s with m_waitSem := (s.m_waitSem.wait i).2 }.goto i
      (if (s.m_waitSem.wait i).1 then .granted second else .waiting second)) := by
  split
  · have hm := moved hi (.granted second) rfl
    rw [granted_census] at hm
    exact h.move (.waiting second) ⟨hm.1, hm.2, hm.3, hm.4, hm.5, hm.6, hm.7, hm.8⟩
      rfl (Nat.le_refl _) rfl rfl rfl rfl rfl rfl rfl
  · exact h.move _ (moved hi (.waiting second) rfl) rfl (Nat.le_refl _) rfl rfl rfl rfl rfl rfl rfl

theorem Once.connected (h : Once s) (hp : Permits 2 s) (hi : s.coroutines[i]? = some .isConnected) :
    Once ({ s with connected := true }.goto i .connectCb) := by
  obtain ⟨-, -, hr, hw, hs, -, hk, hq, hu⟩ := hp.alone hi rfl rfl
  have hk' := total_eq hi Census.callback rfl
  have hq' := total_eq hi Census.called rfl
  have hu' := total_eq hi Census.uncalled rfl
  obtain ⟨h₁, h₂, h₃, h₄, h₅, h₆, h₇, h₈⟩ :
      Moved s ({ s with connected := true }.goto i .connectCb) _ _ := moved hi .connectCb rfl
  simp only [Coroutine.census, Census.zero] at h₁ h₂ h₃ h₄ h₅ h₆ h₇ h₈ hk' hq' hu'
  rw [once_iff]
  change Counts _ _ _ _ _ _ 1 s.disconnects s.started.toNat
  have hloops := loops.eq_1 s
  unfold loops
  refine ⟨?_, fun hl => ?_, fun hl => ?_, fun hl => ?_, fun _ => ⟨rfl, ?_⟩, fun hl => ?_,
    fun hu => ?_, fun _ ht => ?_⟩
  · omega
  · omega
  · omega
  · omega
  · omega
  · omega
  · omega
  · exact h.ended (by omega) ht

theorem Once.startRead (h : Once s) (hi : s.coroutines[i]? = some .startRead) :
    Once { (s.goto i .startWrite).spawn .doRead with started := true, disconnects := 0 } := by
  obtain ⟨h₁, h₂, h₃, h₄, h₅, h₆, h₇, h₈⟩ := moved hi .startWrite rfl
  have hone : 0 < s.total Census.ready := by
    have hr := total_eq hi Census.ready rfl
    change _ = _ + 1 at hr
    omega
  obtain ⟨s₁, s₂, s₃, s₄, s₅, s₆, s₇, s₈⟩ := spawned (s.goto i .startWrite) .doRead
  simp only [Coroutine.census, Census.zero] at h₁ h₂ h₃ h₄ h₅ h₆ h₇ h₈ s₁ s₂ s₃ s₄ s₅ s₆ s₇ s₈
  obtain ⟨hcon, hpending⟩ := h.ready hone
  rw [pending] at hpending
  rw [once_iff]
  change Counts (((s.goto i .startWrite).spawn .doRead).total _)
    (((s.goto i .startWrite).spawn .doRead).total _) ((s.goto i .startWrite).spawn .doRead).loops
    (((s.goto i .startWrite).spawn .doRead).total _)
    (((s.goto i .startWrite).spawn .doRead).total _)
    (((s.goto i .startWrite).spawn .doRead).total _) s.connected.toNat 0 1
  unfold loops
  refine ⟨?_, fun _ hk => ?_, fun _ hq => ?_, fun _ _ => ?_, fun _ => ⟨hcon, ?_⟩, fun _ _ => ?_,
    fun hu => ?_, fun hl => ?_⟩
  · omega
  · omega
  · omega
  · omega
  · omega
  · omega
  · exact h.uncalled (by omega)
  · omega

theorem Once.startWrite (h : Once s) (hi : s.coroutines[i]? = some .startWrite) :
    Once ((s.goto i .out).spawn .doWrite) := by
  obtain ⟨h₁, h₂, h₃, h₄, h₅, h₆, h₇, h₈⟩ := moved hi .out rfl
  obtain ⟨s₁, s₂, s₃, s₄, s₅, s₆, s₇, s₈⟩ := spawned (s.goto i .out) .doWrite
  simp only [Coroutine.census, Census.zero] at h₁ h₂ h₃ h₄ h₅ h₆ h₇ h₈ s₁ s₂ s₃ s₄ s₅ s₆ s₇ s₈
  refine h.of_counts ?_ ?_ ?_ ?_ ?_ ?_ rfl rfl rfl
  · omega
  · omega
  · unfold loops
    omega
  · omega
  · omega
  · omega

/-- When the last loop ends, its reader has closed the socket and nobody is to close it. -/
theorem Once.give (h : Once s) (hp : Permits 2 s) (hi : s.coroutines[i]? = some c)
    (hg : Gives c c') : Once (s.goto i c').notifyWait := by
  have hwait : ∀ j ∈ (s.goto i c').m_waitSem.m_waiters, ∃ second,
      (s.goto i c').coroutines[j]? = some (.waiting second) := by
    intro j hj
    obtain ⟨second, hsecond⟩ := hp.waiters j hj
    refine ⟨second, waiting_goto hi ?_ hsecond⟩
    cases hg <;> exact fun _ hn => nomatch hn
  obtain ⟨-, n₁, n₂, n₃, n₄, n₅, n₆, n₇, n₈, hc, hs, hd⟩ := notifyWait_total hwait
  have hm : Moved s (s.goto i c') _ _ := moved hi c' rfl
  have hle := others_le s i
  have hcount := hp.count
  have hp' := total_eq hi Census.permits rfl
  have hr' := total_eq hi Census.reads rfl
  have hw' := total_eq hi Census.writes rfl
  have ho' := total_eq hi Census.opened rfl
  have hk' := total_eq hi Census.callback rfl
  have hq' := total_eq hi Census.called rfl
  cases hg with
  | first | second =>
      refine h.of_counts (n₆.trans ?_) (n₇.trans ?_) ?_ ?_ (n₅.trans ?_) (n₈.trans ?_) hc hs hd
      · exact hm.callback
      · exact hm.called
      · unfold loops
        rw [n₁, n₂, n₃]
        exact congrArg₂ _ (congrArg₂ _ hm.reads hm.writes) hm.starting
      · exact Nat.le_of_eq (n₄.trans hm.ready)
      · exact hm.opened
      · exact hm.uncalled
  | read | write =>
      obtain ⟨h₁, h₂, h₃, h₄, h₅, h₆, h₇, h₈⟩ := hm
      simp only [Coroutine.census, Census.zero] at h₁ h₂ h₃ h₄ h₅ h₆ h₇ h₈ hp' hr' hw' ho' hk' hq'
      rw [once_iff, n₄, n₅, n₆, n₇, n₈, hc, hs, hd]
      change Counts _ _ _ _ _ _ s.connected.toNat s.disconnects s.started.toNat
      have hb := Bool.toNat_le s.connected
      have hloops := loops.eq_1 s
      have hpending := pending.eq_1 s
      have hsingle := h.single
      unfold loops
      rw [n₁, n₂, n₃]
      refine ⟨?_, fun hl hk => ?_, fun hl hq => ?_, fun hl hkq => ?_, fun hr => ?_, fun hl hb => ?_,
        fun hu => ?_, fun hl ht => ?_⟩
      · omega
      · exact h.before (by omega) (by omega)
      · exact h.after (by omega) (by omega)
      · exact h.idle (by omega) (by omega)
      · have hready := h.ready (by omega)
        omega
      · have hopened := h.opened (by omega) hb
        omega
      · exact h.uncalled (by omega)
      · have hidle := h.idle (by omega)
        have hopened := h.opened (by omega)
        omega

/-- What the permits say of a coroutine in `innerClose`: it is a loop, or no loop is there. -/
theorem Permits.closer (h : Permits 2 s) {k : Caller} {p : Closing}
    (hi : s.coroutines[i]? = some (.innerClose k p)) :
    s.total Census.ready = 0 ∧ (k = .start → s.loops = 0) ∧ (k ≠ .start → 0 < s.loops) := by
  have hcount := h.count
  have hp := total_eq hi Census.permits rfl
  have hr := total_eq hi Census.reads rfl
  have hw := total_eq hi Census.writes rfl
  have hs := total_eq hi Census.starting rfl
  have hy := total_eq hi Census.ready rfl
  have hle := others_le s i
  have hself : (Coroutine.innerClose k p).census.starting = 0 ∧
      (Coroutine.innerClose k p).census.ready = 0 ∧
      (k = .start → (Coroutine.innerClose k p).census.permits = 2) ∧
      (k ≠ .start → (Coroutine.innerClose k p).census.reads +
        (Coroutine.innerClose k p).census.writes = 1) := by
    cases p with
    | close called => cases k <;> cases called <;> decide
    | _ => cases k <;> decide
  obtain ⟨e₁, e₂, e₃, e₄⟩ := hself
  unfold loops
  refine ⟨?_, fun hk => ?_, fun hk => ?_⟩
  · by_cases hk : k = .start
    · have h3 := e₃ hk
      omega
    · have h4 := e₄ hk
      omega
  · have h3 := e₃ hk
    omega
  · have h4 := e₄ hk
    omega

/-- A step within `innerClose` counts its coroutine as before, but for its part in the closing. -/
theorem closing_census (k : Caller) (p : Closing) :
    (Coroutine.innerClose k p).census.reads = (Coroutine.innerClose k .check).census.reads ∧
      (Coroutine.innerClose k p).census.writes = (Coroutine.innerClose k .check).census.writes ∧
      (Coroutine.innerClose k p).census.starting = 0 ∧
      (Coroutine.innerClose k p).census.ready = 0 ∧
      (Coroutine.innerClose k p).census.callback = (p.census .zero).callback ∧
      (Coroutine.innerClose k p).census.called = (p.census .zero).called ∧
      (Coroutine.innerClose k p).census.uncalled = (p.census .zero).uncalled := by
  cases p with
  | close called => cases k <;> cases called <;> decide
  | _ => cases k <;> decide

theorem closing_opened (k : Caller) {p : Closing} (hp : p ≠ .notify) :
    (Coroutine.innerClose k p).census.opened =
      (Coroutine.innerClose k .check).census.opened := by
  cases p with
  | notify => exact absurd rfl hp
  | close called => cases k <;> cases called <;> decide
  | _ => cases k <;> decide

theorem Moved.closing {k : Caller} {p p' : Closing}
    (hm : Moved s s' (Coroutine.innerClose k p).census (Coroutine.innerClose k p').census) :
    s'.loops = s.loops ∧ s'.total Census.ready = s.total Census.ready ∧
      s'.total Census.callback + (p.census .zero).callback =
        s.total Census.callback + (p'.census .zero).callback ∧
      s'.total Census.called + (p.census .zero).called =
        s.total Census.called + (p'.census .zero).called ∧
      s'.total Census.uncalled + (p.census .zero).uncalled =
        s.total Census.uncalled + (p'.census .zero).uncalled := by
  obtain ⟨e₁, e₂, e₃, e₄, e₅, e₆, e₇⟩ := closing_census k p
  obtain ⟨f₁, f₂, f₃, f₄, f₅, f₆, f₇⟩ := closing_census k p'
  obtain ⟨h₁, h₂, h₃, h₄, -, h₆, h₇, h₈⟩ := hm
  unfold loops
  refine ⟨?_, ?_, ?_, ?_, ?_⟩ <;> omega

theorem Moved.still_opened {k : Caller} {p p' : Closing} (hp : p ≠ .notify) (hp' : p' ≠ .notify)
    (hm : Moved s s' (Coroutine.innerClose k p).census (Coroutine.innerClose k p').census) :
    s'.total Census.opened = s.total Census.opened := by
  have hopened := hm.opened
  rw [closing_opened k hp, closing_opened k hp'] at hopened
  exact Nat.add_right_cancel hopened

/-- The counts after the check of `innerClose`, by what it goes on to. -/
theorem Moved.checked {k : Caller}
    (hm : Moved s s' (Coroutine.innerClose k .check).census
      (Coroutine.innerClose k .callback).census) :
    s'.loops = s.loops ∧ s'.total Census.ready = s.total Census.ready ∧
      s'.total Census.opened = s.total Census.opened ∧
      s'.total Census.callback = s.total Census.callback + 1 ∧
      s'.total Census.called = s.total Census.called ∧
      s'.total Census.uncalled = s.total Census.uncalled := by
  obtain ⟨hl, hr, hk, hq, hu⟩ := hm.closing
  exact ⟨hl, hr, hm.still_opened (by decide) (by decide), hk, hq, hu⟩

theorem Moved.skipped {k : Caller}
    (hm : Moved s s' (Coroutine.innerClose k .check).census
      (Coroutine.innerClose k (.close false)).census) :
    s'.loops = s.loops ∧ s'.total Census.ready = s.total Census.ready ∧
      s'.total Census.opened = s.total Census.opened ∧
      s'.total Census.callback = s.total Census.callback ∧
      s'.total Census.called = s.total Census.called ∧
      s'.total Census.uncalled = s.total Census.uncalled + 1 := by
  obtain ⟨hl, hr, hk, hq, hu⟩ := hm.closing
  exact ⟨hl, hr, hm.still_opened (by decide) (by decide), hk, hq, hu⟩

theorem Moved.calledBack {k : Caller}
    (hm : Moved s s' (Coroutine.innerClose k .callback).census
      (Coroutine.innerClose k (.close true)).census) :
    s'.loops = s.loops ∧ s'.total Census.ready = s.total Census.ready ∧
      s'.total Census.opened = s.total Census.opened ∧
      s'.total Census.callback + 1 = s.total Census.callback ∧
      s'.total Census.called = s.total Census.called + 1 ∧
      s'.total Census.uncalled = s.total Census.uncalled := by
  obtain ⟨hl, hr, hk, hq, hu⟩ := hm.closing
  exact ⟨hl, hr, hm.still_opened (by decide) (by decide), hk, hq, hu⟩

theorem Moved.closed {k : Caller} {called : Bool}
    (hm : Moved s s' (Coroutine.innerClose k (.close called)).census
      (Coroutine.innerClose k .notify).census) :
    s'.loops = s.loops ∧ s'.total Census.ready = s.total Census.ready ∧
      s'.total Census.callback = s.total Census.callback ∧
      s'.total Census.called + called.toNat = s.total Census.called ∧
      s'.total Census.uncalled + (!called).toNat = s.total Census.uncalled := by
  cases called <;> exact hm.closing

theorem Once.check (h : Once s) (hp : Permits 2 s) {k : Caller}
    (hi : s.coroutines[i]? = some (.innerClose k .check)) (hcon : s.connected = true)
    (hone : s.pending = 0) : Once (s.goto i (.innerClose k .callback)) := by
  obtain ⟨hready, -, -⟩ := hp.closer hi
  obtain ⟨hl, hr, ho, hk, hq, hu⟩ := (moved hi (.innerClose k .callback) rfl).checked
  have hb : s.connected.toNat = 1 := by
    rw [hcon]
    rfl
  rw [once_iff, hl, hr, ho, hk, hq, hu]
  change Counts _ _ _ _ _ _ s.connected.toNat s.disconnects s.started.toNat
  have hpending := pending.eq_1 s
  refine ⟨?_, fun hl _ => ?_, fun _ hq => ?_, fun _ hkq => ?_, fun hr => ?_, h.opened, h.uncalled,
    h.ended⟩
  · omega
  · have hidle := h.idle hl hone
    omega
  · omega
  · omega
  · omega

theorem Once.skip (h : Once s) {k : Caller}
    (hi : s.coroutines[i]? = some (.innerClose k .check)) (hcon : s.connected = false) :
    Once (s.goto i (.innerClose k (.close false))) := by
  obtain ⟨hl, hr, ho, hk, hq, hu⟩ := (moved hi (.innerClose k (.close false)) rfl).skipped
  rw [once_iff, hl, hr, ho, hk, hq, hu]
  refine ⟨h.single, h.before, h.after, h.idle, h.ready, h.opened, fun _ => ?_, h.ended⟩
  change s.connected.toNat = 0
  rw [hcon]
  rfl

theorem Once.callback (h : Once s) (hp : Permits 2 s) {k : Caller}
    (hi : s.coroutines[i]? = some (.innerClose k .callback)) :
    Once { s.goto i (.innerClose k (.close true)) with
      disconnects := s.disconnects + if k = .start then 0 else 1 } := by
  obtain ⟨hready, hstart, hloop⟩ := hp.closer hi
  have hm : Moved s { s.goto i (.innerClose k (.close true)) with
    disconnects := s.disconnects + if k = .start then 0 else 1 } _ _ :=
    moved hi (.innerClose k (.close true)) rfl
  obtain ⟨hl, hr, ho, hk, hq, hu⟩ := hm.calledBack
  have hpos : 0 < s.total Census.callback := Nat.lt_of_lt_of_eq (Nat.succ_pos _) hk
  rw [once_iff, hl, hr, ho, Nat.eq_sub_of_add_eq hk, hq, hu]
  change Counts _ _ _ _ _ _ s.connected.toNat
    (s.disconnects + if k = .start then 0 else 1) s.started.toNat
  have hsingle := h.single
  rw [pending] at hsingle
  by_cases hkind : k = .start
  · have hnone := hstart hkind
    rw [if_pos hkind]
    refine ⟨?_, fun hl => ?_, fun hl => ?_, fun hl => ?_, fun hr => ?_, h.opened, h.uncalled,
      h.ended⟩
    · omega
    · omega
    · omega
    · omega
    · omega
  · have hsome := hloop hkind
    rw [if_neg hkind]
    -- a loop calls the callback, which was not called before
    have hbefore := h.before hsome (by omega)
    refine ⟨?_, fun _ hk => ?_, fun _ _ => ?_, fun _ hkq => ?_, fun hr => ?_, h.opened, h.uncalled,
      fun hl => ?_⟩
    · omega
    · omega
    · omega
    · omega
    · omega
    · omega

theorem Once.close (h : Once s) (hp : Permits 2 s) {k : Caller} {called : Bool}
    (hi : s.coroutines[i]? = some (.innerClose k (.close called))) :
    Once { s.goto i (.innerClose k .notify) with connected := false } := by
  obtain ⟨hready, -, -⟩ := hp.closer hi
  have hm : Moved s { s.goto i (.innerClose k .notify) with connected := false } _ _ :=
    moved hi (.innerClose k .notify) rfl
  obtain ⟨hl, hr, hk, hq, hu⟩ := hm.closed
  rw [once_iff, hl, hr, hk]
  change Counts _ _ _ _ _ _ 0 s.disconnects s.started.toNat
  have hpending := pending.eq_1 s
  have hsingle := h.single
  refine ⟨?_, h.before, fun hl hq => h.after hl (by omega), fun hl hkq => ?_, fun hr => ?_,
    fun _ hb => absurd hb Nat.zero_ne_one, fun _ => rfl, h.ended⟩
  · omega
  · -- either this coroutine called the callback, or it found the socket closed
    cases called with
    | true =>
        have hafter := h.after hl (by change _ + 1 = _ at hq; omega)
        omega
    | false =>
        change _ + 0 = _ at hq
        change _ + 1 = _ at hu
        have hclosed := h.uncalled (by omega)
        have hidle := h.idle hl (by omega)
        omega
  · omega

theorem Once.closeSocket (h : Once s) (hi : s.coroutines[i]? = some .closeSocket)
    (hg : s.connected = true → 0 < s.pending ∨ s.loops + s.total Census.ready = 0) :
    Once { s.disarm.goto i .out with connected := false } := by
  have hm : Moved s { s.disarm.goto i .out with connected := false } _ _ := moved hi .out rfl
  obtain ⟨h₁, h₂, h₃, h₄, h₅, h₆, h₇, h₈⟩ := hm
  simp only [Coroutine.census, Census.zero, Nat.add_zero] at h₁ h₂ h₃ h₄ h₅ h₆ h₇ h₈
  have hl : ({ s.disarm.goto i .out with connected := false } : StreamLoops).loops = s.loops := by
    unfold loops
    rw [h₁, h₂, h₃]
  rw [once_iff, hl, h₄, h₅, h₆, h₇, h₈]
  change Counts _ _ _ _ _ _ 0 s.disconnects s.started.toNat
  refine ⟨h.single, h.before, h.after, fun hl hkq => ?_, fun hr => ?_,
    fun _ hb => absurd hb Nat.zero_ne_one, fun _ => rfl, h.ended⟩
  · have hidle := h.idle hl hkq
    cases hcon : s.connected with
    | true =>
        have hg := hg hcon
        rw [pending] at hg
        omega
    | false =>
        rw [hcon] at hidle
        exact hidle
  · obtain ⟨hcon, hnone⟩ := h.ready hr
    have hg := hg (Bool.toNat_eq_one.mp hcon)
    omega

theorem Once.change (h : Once s) (hp : Permits 2 s) (hg : s.ClosesOnce e) (hc : Change s e s') :
    Once s' := by
  cases hc with
  | quiet q => exact h.quiet q
  | take i second hi heq =>
      rw [heq]
      exact h.take hi
  | ready i hi heq =>
      rw [heq]
      exact h.connected hp hi
  | giveUp i hi heq =>
      rw [heq]
      exact h.move _ (moved hi _ rfl) rfl (by decide) rfl rfl rfl rfl rfl rfl rfl
  | startRead i hi heq =>
      rw [heq]
      exact h.startRead hi
  | startWrite i hi heq =>
      rw [heq]
      exact h.startWrite hi
  | give i c c' hi hgive heq =>
      rw [heq]
      exact h.give hp hi hgive
  | check i k o he hi hcon heq =>
      subst he
      rw [heq]
      exact h.check hp hi hcon (hg.1 k hi hcon)
  | skip i k hi hcon heq =>
      rw [heq]
      exact h.skip hi hcon
  | callback i k hi heq =>
      rw [heq]
      exact h.callback hp hi
  | close i k called hi heq =>
      rw [heq]
      exact h.close hp hi
  | closeSocket i o he hi heq =>
      subst he
      rw [heq]
      exact h.closeSocket hi (hg.2 hi)

/-! ## Runs -/

end StreamLoops

end CIM
