import CIM.Rock.RequestContext

/-!
# One event for one result

Every step keeps what is known of each context, so a request reads the result and the response
that the removal of its context gives.
-/
namespace CIM

open Transition

namespace RockStream

variable {s s' : RockStream} {i c : Nat} {t : Task}

/-! ## Steps of the coroutines -/

theorem Passes.free {u : Task} (hu : ¬u.Schedules c) (ht : t.handed = [])
    (hadd : ∀ d, t ≠ .addCtx d) : Passes c u t where
  schedules := hu
  adds := hadd c
  answers := by
    rintro r rsp rfl
    cases ht
  rsp := by
    rintro p rest rfl
    cases ht
  left := by
    intro hc
    have hc := Task.left_handed hc
    rw [ht] at hc
    cases hc

theorem addCtx_task (s : AsyncSocketStream) (d : Nat) : (s.addCtx d).task = s.task := by
  unfold AsyncSocketStream.addCtx
  split <;> rfl

theorem addCtx_ctx (s : AsyncSocketStream) (d : Nat) : (s.addCtx d).ctx = s.ctx := by
  unfold AsyncSocketStream.addCtx
  split <;> rfl

theorem addCtx_count (s : AsyncSocketStream) (d : Nat) : (s.addCtx d).count = s.count := by
  unfold AsyncSocketStream.addCtx
  split <;> rfl

theorem addCtx_lookup (s : AsyncSocketStream) (d : Nat) (sn : UInt32)
    (h : (s.addCtx d).m_ctxs.lookup sn = some c) :
    s.m_ctxs.lookup sn = some c ∨ c = d ∧ (s.ctx d).sn = sn := by
  unfold AsyncSocketStream.addCtx at h
  split at h
  · exact .inl h
  · by_cases hsn : sn = (s.ctx d).sn
    · rw [hsn, AList.lookup_insert, Option.some.injEq] at h
      exact .inr ⟨h.symm, hsn.symm⟩
    · rw [AList.lookup_insert_ne hsn] at h
      exact .inl h

theorem Fits.addCtx (h : Fits s c) {d : Nat} (hi : s.stream.task i = .addCtx d) :
    Fits { s with stream := (s.stream.addCtx d).goto i (.addTimer d) } c := by
  have htask : ((s.stream.addCtx d).goto i (.addTimer d)).task =
      Function.update s.stream.task i (.addTimer d) := by
    change Function.update (s.stream.addCtx d).task i (.addTimer d) = _
    rw [addCtx_task]
  have hctx : ((s.stream.addCtx d).goto i (.addTimer d)).ctx = s.stream.ctx := addCtx_ctx _ _
  have hcount : ((s.stream.addCtx d).goto i (.addTimer d)).count = s.stream.count :=
    addCtx_count _ _
  have hscheduled : ((s.stream.addCtx d).goto i (.addTimer d)).scheduled = s.stream.scheduled :=
    AsyncSocketStream.addCtx_scheduled _ _
  by_cases hcd : c = d
  · subst hcd
    obtain ⟨hnone, hlt, hentry, huniq⟩ := h.adding i hi
    obtain ⟨hhanded, hwoken, hresponse, htimed⟩ := h.fresh hnone
    have hadds : ∀ j, Function.update s.stream.task i (.addTimer c) j ≠ .addCtx c := by
      intro j hj
      obtain ⟨hne, hj⟩ := at_update (t := .addTimer c) (P := (· = .addCtx c))
        (by rintro ⟨⟩) hj
      exact hne (huniq j hj)
    refine Fits.of_fresh hnone ?_ ?_ ?_ ?_ ?_ ?_
    · intro j hj
      dsimp only at hj
      rw [htask] at hj
      exact hhanded j (at_update (t := .addTimer c) (P := fun u => c ∈ u.handed)
        (by rintro ⟨⟩) hj).2
    · dsimp only
      rw [AsyncSocketStream.woken, hscheduled]
      exact hwoken
    · dsimp only
      rw [hctx]
      exact hresponse
    · dsimp only
      rw [hctx]
      exact htimed
    · intro sn hl
      dsimp only
      rw [htask, hctx, hcount]
      rcases addCtx_lookup s.stream c sn hl with hl | ⟨-, hsn⟩
      · exact absurd hl (hentry sn)
      · exact ⟨hlt, hadds, hsn⟩
    · intro j hj
      dsimp only at hj
      rw [htask] at hj
      exact absurd hj (hadds j)
  · refine h.stream htask hcount hscheduled ?_ ?_
      (.free (by rw [hi]; exact id) rfl (by rintro _ ⟨⟩))
    · intro sn hl
      exact (addCtx_lookup s.stream d sn hl).resolve_right fun h => hcd h.1
    · rw [hctx]
      exact .rfl

theorem notify_same (s : AsyncSocketStream) : s.notify.task = s.task ∧ s.notify.ctx = s.ctx ∧
    s.notify.m_ctxs = s.m_ctxs ∧ s.notify.count = s.count ∧ s.notify.scheduled = s.scheduled := by
  unfold AsyncSocketStream.notify
  split <;> exact ⟨rfl, rfl, rfl, rfl, rfl⟩

theorem Fits.notify (h : Fits s c) (hi : ¬(s.stream.task i).Schedules c) (ht : t.handed = [])
    (hadd : ∀ d, t ≠ .addCtx d) : Fits { s with stream := s.stream.notify.goto i t } c := by
  obtain ⟨htask, hctx, hm, hcount, hscheduled⟩ := notify_same s.stream
  refine (h.same htask hctx hm hcount hscheduled).stream rfl rfl rfl (fun _ => id) .rfl
    (.free ?_ ht hadd)
  dsimp only
  rw [htask]
  exact hi

theorem spawn_idle {a b : AsyncSocketStream} (h : a.spawn i t = some b) :
    a.task i = .idle ∧ b = a.goto i t := by
  refine ⟨?_, AsyncSocketStream.spawn_some h⟩
  unfold AsyncSocketStream.spawn at h
  split at h
  · assumption
  · cases h

theorem notify_armed (s : AsyncSocketStream) : s.notify.armed = s.armed := by
  unfold AsyncSocketStream.notify
  split <;> rfl

/-- A timer is set for a context that was added. -/
def Timing (a : AsyncSocketStream) (c : Nat) : Prop :=
  (a.armed c = true → a.Registered c) ∧ ∀ i, c ∈ (a.task i).timing → a.Registered c

theorem Timing.moves {a b : AsyncSocketStream} (h : Timing a c)
    (htask : b.task = Function.update a.task i t) (hcount : b.count = a.count)
    (harmed : b.armed c = true → a.armed c = true ∨ c ∈ (a.task i).timing)
    (ht : c ∈ t.timing → a.armed c = true ∨ c ∈ (a.task i).timing) (hadd : t ≠ .addCtx c) :
    Timing b c := by
  have hold : a.armed c = true ∨ c ∈ (a.task i).timing → a.Registered c := fun h' =>
    h'.elim h.1 (h.2 i)
  have hreg : a.Registered c → b.Registered c := by
    rintro ⟨hlt, hadding⟩
    refine ⟨hcount ▸ hlt, fun j hj => ?_⟩
    rw [htask] at hj
    exact hadding j (at_update (P := (· = .addCtx c)) hadd hj).2
  refine ⟨fun hc => hreg (hold (harmed hc)), fun j hj => hreg ?_⟩
  rw [htask] at hj
  by_cases hji : j = i
  · rw [hji, Function.update_self] at hj
    exact hold (ht hj)
  · rw [Function.update_of_ne hji] at hj
    exact h.2 j hj

theorem Timing.same {a b : AsyncSocketStream} (h : Timing a c) (htask : b.task = a.task)
    (hcount : b.count = a.count) (harmed : b.armed = a.armed) : Timing b c := by
  unfold Timing AsyncSocketStream.Registered at *
  rw [htask, hcount, harmed]
  exact h

theorem Timing.spawn {a b : AsyncSocketStream} (h : Timing a c) (hb : a.spawn i t = some b)
    (ht : t.timing = []) (hadd : ∀ d, t ≠ .addCtx d) : Timing b c := by
  obtain ⟨-, rfl⟩ := spawn_idle hb
  refine h.moves rfl rfl .inl ?_ (hadd c)
  rw [ht]
  exact fun h => nomatch h

theorem disarmed {armed : Nat → Bool} {d : Nat} (h : Function.update armed d false c = true) :
    armed c = true := by
  by_cases hcd : c = d
  · rw [hcd, Function.update_self] at h
    cases h
  · rw [Function.update_of_ne hcd] at h
    exact h

theorem Timing.addCtx {a : AsyncSocketStream} (h : Timing a c) {d : Nat} (hlt : d < a.count)
    (huniq : ∀ j, a.task j = .addCtx d → j = i) :
    Timing ((a.addCtx d).goto i (.addTimer d)) c := by
  have htask : ((a.addCtx d).goto i (.addTimer d)).task =
      Function.update a.task i (.addTimer d) := by
    change Function.update (a.addCtx d).task i (.addTimer d) = _
    rw [addCtx_task]
  have hcount : ((a.addCtx d).goto i (.addTimer d)).count = a.count := addCtx_count _ _
  have harmed : ((a.addCtx d).goto i (.addTimer d)).armed = a.armed := by
    change (a.addCtx d).armed = _
    unfold AsyncSocketStream.addCtx
    split <;> rfl
  by_cases hcd : c = d
  · subst hcd
    have hreg : ((a.addCtx c).goto i (.addTimer c)).Registered c := by
      refine ⟨hcount.symm ▸ hlt, fun j hj => ?_⟩
      rw [htask] at hj
      obtain ⟨hne, hj⟩ := at_update (t := .addTimer c) (P := (· = .addCtx c))
        (fun h => nomatch h) hj
      exact hne (huniq j hj)
    exact ⟨fun _ => hreg, fun _ _ => hreg⟩
  · refine h.moves htask hcount ?_ ?_ fun h => nomatch h
    · rw [harmed]
      exact .inl
    · exact fun hc => absurd (List.mem_singleton.mp hc) hcd

theorem doRsp_timing (a : AsyncSocketStream) (d : Nat) (p : DoRsp) :
    (a.doRsp d p).2.task = a.task ∧ (a.doRsp d p).2.count = a.count ∧
      ((a.doRsp d p).2.armed c = true → a.armed c = true) := by
  cases p with
  | load => exact ⟨rfl, rfl, id⟩
  | compareAndSwap scd =>
      simp only [AsyncSocketStream.doRsp]
      split <;> exact ⟨rfl, rfl, id⟩
  | cancelTimer scd =>
      simp only [AsyncSocketStream.doRsp]
      split
      · exact ⟨rfl, rfl, disarmed⟩
      · exact ⟨rfl, rfl, id⟩
  | setResult scd =>
      simp only [AsyncSocketStream.doRsp]
      split <;> exact ⟨rfl, rfl, id⟩
  | schedule scd => exact ⟨rfl, rfl, id⟩

theorem timing_task (h : ∀ c, Fits s c) (htiming : Timing s.stream c) {b : AsyncSocketStream}
    (hstep : s.stream.taskStep i = some b) : Timing b c := by
  unfold AsyncSocketStream.taskStep at hstep
  split at hstep
  next => cases hstep
  next d hi =>
    injection hstep with hstep
    subst hstep
    obtain ⟨-, hlt, -, huniq⟩ := (h d).adding i hi
    exact htiming.addCtx hlt huniq
  next d hi =>
    injection hstep with hstep
    subst hstep
    refine htiming.moves rfl rfl ?_ (fun h => nomatch h) fun h => nomatch h
    intro hc
    change Function.update s.stream.armed d true c = true at hc
    by_cases hcd : c = d
    · rw [hi, hcd]
      exact .inr (List.mem_singleton_self d)
    · rw [Function.update_of_ne hcd] at hc
      exact .inl hc
  next d hi =>
    injection hstep with hstep
    subst hstep
    exact htiming.moves rfl rfl .inl (fun h => nomatch h) fun h => nomatch h
  next ctx hi =>
    injection hstep with hstep
    subst hstep
    refine htiming.moves rfl rfl .inl ?_ ?_ <;> split <;> exact fun h => nomatch h
  next hi =>
    injection hstep with hstep
    subst hstep
    obtain ⟨htask, -, -, hcount, -⟩ := notify_same s.stream
    have hnotify := htiming.same htask hcount (notify_armed _)
    exact hnotify.moves rfl rfl .inl (fun h => nomatch h) fun h => nomatch h
  next d r rsp hi =>
    injection hstep with hstep
    subst hstep
    exact htiming.moves rfl rfl .inl (fun h => nomatch h) fun h => nomatch h
  next d hi =>
    injection hstep with hstep
    subst hstep
    exact htiming.moves rfl rfl .inl (fun h => nomatch h) fun h => nomatch h
  next d hi =>
    injection hstep with hstep
    subst hstep
    exact htiming.moves rfl rfl .inl (fun h => nomatch h) fun h => nomatch h
  next p d rest hi =>
    injection hstep with hstep
    subst hstep
    obtain ⟨htask, hcount, harmed⟩ := doRsp_timing (c := c) s.stream d p
    refine htiming.moves (i := i)
      (t := AsyncSocketStream.Task.afterRsp d rest (s.stream.doRsp d p).1) ?_ hcount
      (fun hc => .inl (harmed hc)) ?_ ?_
    · change Function.update (s.stream.doRsp d p).2.task i _ = _
      rw [htask]
    · cases (s.stream.doRsp d p).1 <;> exact fun h => nomatch h
    · cases (s.stream.doRsp d p).1 <;> exact fun h => nomatch h
  next hi =>
    injection hstep with hstep
    subst hstep
    exact htiming.moves rfl rfl .inl (fun h => nomatch h) fun h => nomatch h
  next hi =>
    injection hstep with hstep
    subst hstep
    obtain ⟨htask, -, -, hcount, -⟩ := notify_same s.stream
    have hnotify := htiming.same htask hcount (notify_armed _)
    exact hnotify.moves rfl rfl .inl (fun h => nomatch h) fun h => nomatch h
  next => cases hstep
  next ctxs hi =>
    injection hstep with hstep
    subst hstep
    exact htiming.moves rfl rfl .inl (fun h => nomatch h) fun h => nomatch h
  next hi =>
    injection hstep with hstep
    subst hstep
    exact htiming.moves rfl rfl .inl (fun h => nomatch h) fun h => nomatch h
  next d rest hi =>
    injection hstep with hstep
    subst hstep
    exact htiming.moves rfl rfl .inl (fun h => nomatch h) fun h => nomatch h

theorem remove_other (s : RockStream) {sn : UInt32} (rm : Removal)
    (hl : s.stream.m_ctxs.lookup sn ≠ some c) : s.remove sn rm c = s.removed c := by
  rw [remove]
  cases he : s.stream.m_ctxs.lookup sn with
  | none => rfl
  | some e =>
      refine Function.update_of_ne ?_ _ _
      rintro rfl
      exact hl he

theorem timeout_found (s : RockStream) {d : Nat}
    (hl : s.stream.m_ctxs.lookup (s.stream.ctx d).sn = some c) :
    s.timeout d c = some .timeout := by
  have hremove : s.remove (s.stream.ctx d).sn .timeout c = some .timeout := by
    rw [remove, hl]
    exact Function.update_self _ _ _
  rw [timeout]
  by_cases hcd : c = d
  · rw [← hcd] at hremove ⊢
    rw [Function.update_self, hremove]
    rfl
  · rw [Function.update_of_ne hcd, hremove]

/-- The context of the timeout is removed by it, unless it was removed before. -/
theorem timeout_own (s : RockStream) (hl : s.stream.m_ctxs.lookup (s.stream.ctx c).sn ≠ some c) :
    s.timeout c c = some ((s.removed c).getD .timeout) := by
  rw [timeout, Function.update_self, remove_other s _ hl]

theorem timeout_other (s : RockStream) {d : Nat} (hcd : c ≠ d)
    (hl : s.stream.m_ctxs.lookup (s.stream.ctx d).sn ≠ some c) :
    s.timeout d c = s.removed c := by
  rw [timeout, Function.update_of_ne hcd, remove_other s _ hl]

/-- A timeout takes out of `m_ctxs` what it finds at its serial number. -/
theorem Fits.eraseCtx (h : Fits s c) {d : Nat} (hi : s.stream.task i = .eraseCtx d)
    (hmade : d < s.stream.count ∧ ∀ j, s.stream.task j ≠ .addCtx d) :
    Fits { s with
      stream := (s.stream.eraseCtx (s.stream.ctx d).sn).goto i (.setTimed d)
      removed := s.timeout d } c := by
  have hm : ∀ sn, (s.stream.m_ctxs.erase (s.stream.ctx d).sn).lookup sn = some c →
      sn ≠ (s.stream.ctx d).sn ∧ s.stream.m_ctxs.lookup sn = some c := by
    intro sn hl
    by_cases hsn : sn = (s.stream.ctx d).sn
    · rw [hsn, AList.lookup_erase] at hl
      cases hl
    · rw [AList.lookup_erase_ne hsn] at hl
      exact ⟨hsn, hl⟩
  by_cases hl : s.stream.m_ctxs.lookup (s.stream.ctx d).sn = some c
  · obtain ⟨hnone, hlt, hadding, hsn⟩ := h.entry _ hl
    refine h.leave .timeout (t := .setTimed d) hnone hlt hadding rfl (timeout_found s hl) ?_ .rfl
      rfl rfl (fun _ _ h => nomatch h) (fun h => nomatch h) (fun _ _ h => nomatch h)
      (fun h => nomatch h) (fun _ _ h => nomatch h) ?_
    · intro sn hl'
      obtain ⟨hne, hl'⟩ := hm sn hl'
      exact hne ((h.entry sn hl').2.2.2.symm.trans hsn)
    · intro r rsp hr
      cases hr
  · by_cases hown : c = d ∧ s.removed c = none
    · obtain ⟨rfl, hnone⟩ := hown
      refine h.leave .timeout (t := .setTimed c) hnone hmade.1 hmade.2 rfl ?_ ?_ .rfl rfl rfl
        (fun _ _ h => nomatch h) (fun h => nomatch h) (fun _ _ h => nomatch h)
        (fun h => nomatch h) (fun _ _ h => nomatch h) ?_
      · refine (timeout_own s hl).trans ?_
        rw [hnone]
        rfl
      · intro sn hl'
        obtain ⟨hne, hl'⟩ := hm sn hl'
        exact hne (h.entry sn hl').2.2.2.symm
      · intro r rsp hr
        cases hr
    · refine h.beside (t := .setTimed d)
        { task := rfl
          assigned := fun _ _ => rfl
          removed := ?_
          woken := Iff.rfl
          count := Nat.le_refl _
          m_ctxs := fun sn hl' => (hm sn hl').2
          ctx := .rfl
          passes := .free (by rw [hi]; exact id) rfl fun _ h => nomatch h }
      by_cases hcd : c = d
      · subst hcd
        obtain ⟨r, hr⟩ := Option.ne_none_iff_exists'.mp fun hnone => hown ⟨rfl, hnone⟩
        refine (timeout_own s hl).trans ?_
        rw [hr]
        rfl
      · exact timeout_other s hcd hl

/-- The two assignments of `doRecv`. -/
theorem Fits.doRecv (h : Fits s c) {d : Nat} {r : UInt32} {rsp : List UInt8}
    (hi : s.stream.task i = .answer d r rsp) : Fits (s.doRecv i d r rsp) c := by
  unfold RockStream.doRecv
  split
  next hassigned =>
    by_cases hcd : c = d
    · subst hcd
      exact h.assignResponse hi hassigned ⟨rfl, rfl, rfl, rfl, rfl⟩ (Function.update_self _ _ _)
    · refine h.beside (i := i) (t := .doRsp .load d [])
        { task := rfl
          assigned := fun _ _ => rfl
          removed := rfl
          woken := Iff.rfl
          count := Nat.le_refl _
          m_ctxs := fun _ => id
          ctx := ?_
          passes := ⟨by rw [hi]; exact id, (fun h => nomatch h), (fun _ _ h => nomatch h), ?_,
            fun h => nomatch h⟩ }
      · exact .update_of_ne hcd
      · rintro p rest ⟨⟩
        exact hcd rfl
  next =>
    by_cases hcd : c = d
    · subst hcd
      exact h.assignResult hi
    · refine h.beside (i := i) (t := .answer d r rsp)
        { task := by rw [← hi]; exact (Function.update_eq_self i s.stream.task).symm
          assigned := fun _ hj => Function.update_of_ne hj _ _
          removed := rfl
          woken := Iff.rfl
          count := Nat.le_refl _
          m_ctxs := fun _ => id
          ctx := ?_
          passes := ⟨by rw [hi]; exact id, (fun h => nomatch h), ?_, (fun _ _ h => nomatch h),
            fun h => nomatch h⟩ }
      · exact .update_of_ne hcd
      · rintro r' rsp' ⟨⟩
        exact hcd rfl

theorem afterRsp_left (d : Nat) (rest : List Nat) (p : Option DoRsp) :
    (AsyncSocketStream.Task.afterRsp d rest p).left = rest := by
  cases p <;> rfl

/-- A step of `doRsp` for another context. -/
theorem Fits.doRsp_beside (h : Fits s c) {d : Nat} (hcd : c ≠ d) {p : DoRsp} {rest : List Nat}
    (hi : s.stream.task i = .doRsp p d rest) :
    Fits { s with
      stream := (s.stream.doRsp d p).2.goto i
        (AsyncSocketStream.Task.afterRsp d rest (s.stream.doRsp d p).1) }
      c := by
  have hpasses : ∀ q, Passes c (s.stream.task i) (AsyncSocketStream.Task.afterRsp d rest q) := by
    intro q
    rw [hi]
    refine ⟨?_, ?_, ?_, ?_, ?_⟩
    · cases p with
      | schedule scd => exact fun h => hcd h.symm
      | _ => exact id
    · cases q <;> exact fun h => nomatch h
    · cases q <;> exact fun _ _ h => nomatch h
    · cases q with
      | none => exact fun _ _ h => nomatch h
      | some q =>
          rintro p' rest' ⟨⟩
          exact hcd rfl
    · rw [afterRsp_left]
      exact id
  have hctx : ∀ v, SameFields (Function.update s.stream.ctx d v c) (s.stream.ctx c) := by
    intro v
    rw [Function.update_of_ne hcd]
    exact .rfl
  cases p with
  | load => exact h.stream rfl rfl rfl (fun _ => id) .rfl (hpasses _)
  | compareAndSwap scd =>
      simp only [AsyncSocketStream.doRsp]
      split
      · exact h.stream rfl rfl rfl (fun _ => id) (hctx _) (hpasses _)
      · exact h.stream rfl rfl rfl (fun _ => id) .rfl (hpasses _)
  | cancelTimer scd =>
      simp only [AsyncSocketStream.doRsp]
      split
      · exact h.stream rfl rfl rfl (fun _ => id) (hctx _) (hpasses _)
      · exact h.stream rfl rfl rfl (fun _ => id) .rfl (hpasses _)
  | setResult scd =>
      simp only [AsyncSocketStream.doRsp]
      split
      · exact h.stream rfl rfl rfl (fun _ => id) (hctx _) (hpasses _)
      · exact h.stream rfl rfl rfl (fun _ => id) .rfl (hpasses _)
  | schedule scd =>
      refine h.beside (t := .closeLoop rest)
        { task := rfl
          assigned := fun _ _ => rfl
          removed := rfl
          woken := ?_
          count := Nat.le_refl _
          m_ctxs := fun _ => id
          ctx := hctx _
          passes := hpasses none }
      change c ∈ (s.stream.scheduled ++ [(d, scd)]).map Prod.fst ↔ _
      rw [List.map_append, List.mem_append]
      exact or_iff_left fun hc => hcd (List.mem_singleton.mp hc)

/-- A step of `doRsp` for the context. -/
theorem Fits.doRsp_self (h : Fits s c) {p : DoRsp} {rest : List Nat}
    (hi : s.stream.task i = .doRsp p c rest) :
    Fits { s with
      stream := (s.stream.doRsp c p).2.goto i
        (AsyncSocketStream.Task.afterRsp c rest (s.stream.doRsp c p).1) }
      c := by
  cases p with
  | load => exact h.load hi ⟨rfl, rfl, rfl, rfl, rfl⟩ rfl
  | compareAndSwap scd =>
      simp only [AsyncSocketStream.doRsp]
      split
      · have hctx : Function.update s.stream.ctx c { s.stream.ctx c with scheduler := none } c =
            { s.stream.ctx c with scheduler := none } := Function.update_self _ _ _
        rename_i hscd
        split
        · rename_i scd' fiber hfiber
          refine h.exchange hi ⟨rfl, rfl, rfl, rfl, rfl⟩ ?_ hctx
          rw [hscd]
          exact Option.some_ne_none _
        · exact h.giveUp hi (by rw [hi]; exact id) ⟨rfl, rfl, rfl, rfl, rfl⟩ hctx fun _ => rfl
      · exact h.giveUp hi (by rw [hi]; exact id) ⟨rfl, rfl, rfl, rfl, rfl⟩ rfl id
  | cancelTimer scd =>
      simp only [AsyncSocketStream.doRsp]
      split
      · refine h.cancelTimer hi ⟨rfl, rfl, rfl, rfl, rfl⟩ ?_
        exact .update_self ⟨rfl, rfl, rfl, rfl, rfl⟩
      · exact h.cancelTimer hi ⟨rfl, rfl, rfl, rfl, rfl⟩ .rfl
  | setResult scd =>
      simp only [AsyncSocketStream.doRsp]
      split
      · rename_i htimed
        refine h.setResult hi ⟨rfl, rfl, rfl, rfl, rfl⟩ ?_
        rw [if_pos htimed]
        exact Function.update_self _ _ _
      · rename_i htimed
        refine h.setResult hi ⟨rfl, rfl, rfl, rfl, rfl⟩ ?_
        rw [if_neg htimed]
        rfl
  | schedule scd =>
      refine h.schedule hi rfl rfl rfl rfl rfl ?_
      exact .update_self ⟨rfl, rfl, rfl, rfl, rfl⟩

theorem fits_task (h : ∀ c, Fits s c) (htiming : ∀ c, Timing s.stream c)
    (hexclusive : Exclusive s (.stream (.task i))) (hstep : s.taskStep i = some s') (c : Nat) :
    Fits s' c := by
  have hc := h c
  cases hi : s.stream.task i with
  | idle =>
      simp only [taskStep, AsyncSocketStream.taskStep, hi, Option.map_none] at hstep
      cases hstep
  | addCtx d =>
      simp only [taskStep, AsyncSocketStream.taskStep, hi, Option.map_some] at hstep
      injection hstep with hstep
      subst hstep
      exact hc.addCtx hi
  | addTimer d =>
      simp only [taskStep, AsyncSocketStream.taskStep, hi, Option.map_some] at hstep
      injection hstep with hstep
      subst hstep
      exact hc.stream rfl rfl rfl (fun _ => id) .rfl
        (.free (by rw [hi]; exact id) rfl fun _ h => nomatch h)
  | setTimer d =>
      simp only [taskStep, AsyncSocketStream.taskStep, hi, Option.map_some] at hstep
      injection hstep with hstep
      subst hstep
      refine hc.stream rfl rfl rfl (fun _ => id) ?_
        (.free (by rw [hi]; exact id) rfl fun _ h => nomatch h)
      by_cases hcd : c = d
      · subst hcd
        exact .update_self ⟨rfl, rfl, rfl, rfl, rfl⟩
      · exact .update_of_ne hcd
  | enqueue ctx =>
      simp only [taskStep, AsyncSocketStream.taskStep, hi, Option.map_some] at hstep
      injection hstep with hstep
      subst hstep
      refine hc.stream rfl rfl rfl (fun _ => id) .rfl (.free (by rw [hi]; exact id) ?_ ?_)
      · split <;> rfl
      · split <;> exact fun _ h => nomatch h
  | notify =>
      simp only [taskStep, AsyncSocketStream.taskStep, hi, Option.map_some] at hstep
      injection hstep with hstep
      subst hstep
      exact hc.notify (by rw [hi]; exact id) rfl fun _ h => nomatch h
  | answer d r rsp =>
      simp only [taskStep, hi] at hstep
      injection hstep with hstep
      subst hstep
      exact hc.doRecv hi
  | eraseCtx d =>
      simp only [taskStep, AsyncSocketStream.taskStep, hi, Option.map_some] at hstep
      injection hstep with hstep
      subst hstep
      exact hc.eraseCtx hi ((htiming d).2 i (hi ▸ List.mem_singleton_self d))
  | setTimed d =>
      simp only [taskStep, AsyncSocketStream.taskStep, hi, Option.map_some] at hstep
      injection hstep with hstep
      subst hstep
      by_cases hcd : c = d
      · subst hcd
        exact hc.setTimed hi (hexclusive c hi) ⟨rfl, rfl, rfl, rfl, rfl⟩
          (Function.update_self _ _ _)
      · refine hc.stream rfl rfl rfl (fun _ => id) ?_ ⟨by rw [hi]; exact id, (fun h => nomatch h),
          (fun _ _ h => nomatch h), ?_, fun h => nomatch h⟩
        · exact .update_of_ne hcd
        · rintro p rest ⟨⟩
          exact hcd rfl
  | doRsp p d rest =>
      simp only [taskStep, AsyncSocketStream.taskStep, hi, Option.map_some] at hstep
      injection hstep with hstep
      subst hstep
      by_cases hcd : c = d
      · subst hcd
        exact hc.doRsp_self hi
      · exact hc.doRsp_beside hcd hi
  | closeSocket =>
      simp only [taskStep, AsyncSocketStream.taskStep, hi, Option.map_some] at hstep
      injection hstep with hstep
      subst hstep
      exact hc.stream rfl rfl rfl (fun _ => id) .rfl
        (.free (by rw [hi]; exact id) rfl fun _ h => nomatch h)
  | closeNotify =>
      simp only [taskStep, AsyncSocketStream.taskStep, hi, Option.map_some] at hstep
      injection hstep with hstep
      subst hstep
      exact hc.notify (by rw [hi]; exact id) rfl fun _ h => nomatch h
  | closeSwap =>
      simp only [taskStep, AsyncSocketStream.taskStep, hi, Option.map_none] at hstep
      cases hstep
  | clearQueue ctxs =>
      simp only [taskStep, AsyncSocketStream.taskStep, hi, Option.map_some] at hstep
      injection hstep with hstep
      subst hstep
      exact hc.stream rfl rfl rfl (fun _ => id) .rfl ⟨by rw [hi]; exact id, (fun h => nomatch h),
        (fun _ _ h => nomatch h), (fun _ _ h => nomatch h), by rw [hi]; exact id⟩
  | closeLoop ctxs =>
      cases ctxs with
      | nil =>
          simp only [taskStep, AsyncSocketStream.taskStep, hi, Option.map_some] at hstep
          injection hstep with hstep
          subst hstep
          exact hc.stream rfl rfl rfl (fun _ => id) .rfl
            (.free (by rw [hi]; exact id) rfl fun _ h => nomatch h)
      | cons d rest =>
          simp only [taskStep, AsyncSocketStream.taskStep, hi, Option.map_some] at hstep
          injection hstep with hstep
          subst hstep
          by_cases hcd : c = d
          · subst hcd
            exact hc.closeLoop hi ⟨rfl, rfl, rfl, rfl, rfl⟩ (Function.update_self _ _ _)
          · refine hc.stream rfl rfl rfl (fun _ => id) ?_ ⟨by rw [hi]; exact id,
              (fun h => nomatch h), (fun _ _ h => nomatch h), ?_, ?_⟩
            · exact .update_of_ne hcd
            · rintro p rest' ⟨⟩
              exact hcd rfl
            · rw [hi]
              exact List.mem_cons_of_mem d

/-! ## Steps of the stream -/

theorem writer_same {a b : AsyncSocketStream} (h : a.writerStep = some b) :
    b.task = a.task ∧ b.ctx = a.ctx ∧ b.m_ctxs = a.m_ctxs ∧ b.count = a.count ∧
      b.scheduled = a.scheduled ∧ b.armed = a.armed := by
  unfold AsyncSocketStream.writerStep at h
  split at h
  case h_7 =>
    split at h
    · injection h with h
      subst h
      exact ⟨rfl, rfl, rfl, rfl, rfl, rfl⟩
    · cases h
  case h_3 => cases h
  case h_9 => cases h
  all_goals
    injection h with h
    subst h
    exact ⟨rfl, rfl, rfl, rfl, rfl, rfl⟩

/-- A new coroutine that is handed no context. -/
theorem Fits.spawn (h : Fits s c) {a b : AsyncSocketStream} (hb : a.spawn i t = some b)
    (htask : a.task = s.stream.task) (hctx : a.ctx = s.stream.ctx)
    (hm : a.m_ctxs = s.stream.m_ctxs) (hcount : a.count = s.stream.count)
    (hscheduled : a.scheduled = s.stream.scheduled) (ht : t.handed = [])
    (hadd : ∀ d, t ≠ .addCtx d) : Fits { s with stream := b } c := by
  obtain ⟨hidle, rfl⟩ := spawn_idle hb
  refine (h.same htask hctx hm hcount hscheduled).stream rfl rfl rfl (fun _ => id) .rfl
    (.free ?_ ht hadd)
  dsimp only
  rw [hidle]
  exact id

/-- `request` makes a context that nobody has. -/
theorem Fits.request (h : Fits s c) (hidle : s.stream.task i = .idle) {v : Ctx}
    (hresponse : v.response = none) (htimed : v.timed = false) :
    Fits { s with
      stream := { s.stream with
        ctx := Function.update s.stream.ctx s.stream.count v
        count := s.stream.count + 1
        task := Function.update s.stream.task i (.addCtx s.stream.count) } } c := by
  by_cases hc : c = s.stream.count
  · subst hc
    have hnone := h.beyond (Nat.le_refl _)
    obtain ⟨hhanded, hwoken, -⟩ := h.fresh hnone
    have hentry : ∀ sn, s.stream.m_ctxs.lookup sn ≠ some s.stream.count := fun sn hl =>
      Nat.lt_irrefl _ (h.entry sn hl).2.1
    have hself : Function.update s.stream.ctx s.stream.count v s.stream.count = v :=
      Function.update_self _ _ _
    refine Fits.of_fresh hnone ?_ hwoken ?_ ?_ (fun sn hl => absurd hl (hentry sn)) ?_
    · exact fun j hj => hhanded j (at_update (t := .addCtx s.stream.count)
        (P := fun u => s.stream.count ∈ u.handed) (fun h => nomatch h) hj).2
    · exact (congrArg Ctx.response hself).trans hresponse
    · exact (congrArg Ctx.timed hself).trans htimed
    · have hown : ∀ k, Function.update s.stream.task i (.addCtx s.stream.count) k =
          .addCtx s.stream.count → k = i := by
        intro k hk
        by_contra hki
        rw [Function.update_of_ne hki] at hk
        exact Nat.lt_irrefl _ (h.adding k hk).2.1
      intro j hj
      exact ⟨Nat.lt_succ_self _, hentry, fun k hk => (hown k hk).trans (hown j hj).symm⟩
  · refine h.beside (t := .addCtx s.stream.count)
      { task := rfl
        assigned := fun _ _ => rfl
        removed := rfl
        woken := Iff.rfl
        count := Nat.le_succ _
        m_ctxs := fun _ => id
        ctx := ?_
        passes := ⟨by rw [hidle]; exact id, ?_, (fun _ _ h => nomatch h),
          (fun _ _ h => nomatch h), fun h => nomatch h⟩ }
    · exact .update_of_ne hc
    · rintro ⟨⟩
      exact hc rfl

theorem Fits.takeResponse (h : Fits s c)
    (hidle : s.stream.task i = .idle) {sn r : UInt32} {rsp : List UInt8} {d : Nat}
    (hd : s.stream.m_ctxs.lookup sn = some d) (hcode : r ≠ asyncTimeout ∧ r ≠ asyncIoError) :
    Fits { s with
      stream := (s.stream.eraseCtx sn).goto i (.answer d r rsp)
      assigned := Function.update s.assigned i false
      removed := s.remove sn (.response r rsp) } c := by
  have hm : ∀ sn', (s.stream.m_ctxs.erase sn).lookup sn' = some c →
      sn' ≠ sn ∧ s.stream.m_ctxs.lookup sn' = some c := by
    intro sn' hl
    by_cases hsn : sn' = sn
    · rw [hsn, AList.lookup_erase] at hl
      cases hl
    · rw [AList.lookup_erase_ne hsn] at hl
      exact ⟨hsn, hl⟩
  by_cases hcd : c = d
  · subst hcd
    obtain ⟨hnone, hlt, hadding, hsn⟩ := h.entry sn hd
    refine h.leave (.response r rsp) (t := .answer c r rsp) hnone hlt hadding rfl ?_ ?_ .rfl rfl rfl
      (fun _ _ _ => Function.update_self _ _ _) (fun h => nomatch h) (fun _ _ h => nomatch h)
      (fun h => nomatch h) ?_ ?_
    · rw [remove, hd]
      exact Function.update_self _ _ _
    · intro sn' hl
      obtain ⟨hne, hl⟩ := hm sn' hl
      exact hne ((h.entry sn' hl).2.2.2.symm.trans hsn)
    · rintro r' rsp' ⟨⟩
      rfl
    · rintro r' rsp' ⟨⟩
      exact hcode
  · refine h.beside (t := .answer d r rsp)
      { task := rfl
        assigned := fun _ hj => Function.update_of_ne hj _ _
        removed := ?_
        woken := Iff.rfl
        count := Nat.le_refl _
        m_ctxs := fun sn' hl => (hm sn' hl).2
        ctx := .rfl
        passes := ⟨by rw [hidle]; exact id, (fun h => nomatch h), ?_, (fun _ _ h => nomatch h),
          fun h => nomatch h⟩ }
    · rw [remove, hd]
      exact Function.update_of_ne hcd _ _
    · rintro r' rsp' ⟨⟩
      exact hcd rfl

/-- The close takes all contexts that are in `m_ctxs`. -/
theorem Fits.swap (h : Fits s c) (hi : s.stream.task i = .closeSwap) {ctxs : List Nat}
    (hperm : ctxs.Perm (s.stream.m_ctxs.entries.map Sigma.snd)) :
    Fits { s with
      stream := { s.stream with
        m_ctxs := ∅
        task := Function.update s.stream.task i (.clearQueue ctxs) }
      removed := fun d => if d ∈ ctxs then some .close else s.removed d } c := by
  have hempty : ∀ sn, AList.lookup sn (∅ : AList fun _ : UInt32 => Nat) ≠ some c := by
    intro sn hl
    rw [AList.lookup_empty] at hl
    cases hl
  by_cases hmem : c ∈ ctxs
  · obtain ⟨⟨sn, d⟩, hentry, rfl⟩ := List.mem_map.mp (hperm.subset hmem)
    have hl : s.stream.m_ctxs.lookup sn = some d := AList.mem_lookup_iff.mpr hentry
    obtain ⟨hnone, hlt, hadding, -⟩ := h.entry sn hl
    refine h.leave .close (t := .clearQueue ctxs) hnone hlt hadding rfl (if_pos hmem) hempty .rfl
      rfl rfl (fun _ _ h => nomatch h) (fun h => nomatch h) (fun _ _ h => nomatch h) (fun _ => rfl)
      (fun _ _ h => nomatch h) ?_
    intro r rsp hr
    cases hr
  · exact h.beside (t := .clearQueue ctxs)
      { task := rfl
        assigned := fun _ _ => rfl
        removed := if_neg hmem
        woken := Iff.rfl
        count := Nat.le_refl _
        m_ctxs := fun sn hl => absurd hl (hempty sn)
        ctx := .rfl
        passes := ⟨by rw [hi]; exact id, (fun h => nomatch h), (fun _ _ h => nomatch h),
          (fun _ _ h => nomatch h), fun hc => absurd hc hmem⟩ }

theorem fits_response (h : ∀ c, Fits s c) {sn r : UInt32} {rsp : List UInt8}
    (hexclusive : Exclusive s (.stream (.response i sn r rsp)))
    (hstep : s.exec (.stream (.response i sn r rsp)) = some s') (c : Nat) : Fits s' c := by
  obtain ⟨b, hb, rfl⟩ := Option.map_eq_some_iff.mp hstep
  rw [AsyncSocketStream.exec, AsyncSocketStream.getAndDelCtx] at hb
  cases hd : s.stream.m_ctxs.lookup sn with
  | none =>
      rw [hd] at hb
      injection hb with hb
      subst hb
      rw [remove, hd, Option.isSome_none, if_neg Bool.false_ne_true]
      exact h c
  | some d =>
      rw [hd] at hb
      obtain ⟨hidle, rfl⟩ := spawn_idle hb
      rw [Option.isSome_some, if_pos rfl]
      exact (h c).takeResponse hidle hd (hexclusive (by rw [hd]; exact Option.some_ne_none d))

/-- The context that `request` makes has no timer yet. -/
theorem Timing.request {a : AsyncSocketStream} (h : Timing a c) (v : Ctx) :
    Timing { a with
      ctx := Function.update a.ctx a.count v
      count := a.count + 1
      task := Function.update a.task i (.addCtx a.count) } c := by
  have hreg : a.Registered c → AsyncSocketStream.Registered { a with
      ctx := Function.update a.ctx a.count v
      count := a.count + 1
      task := Function.update a.task i (.addCtx a.count) } c := by
    rintro ⟨hlt, hadding⟩
    refine ⟨Nat.lt_succ_of_lt hlt, fun j hj => ?_⟩
    refine hadding j (at_update (t := .addCtx a.count) (P := (· = .addCtx c)) ?_ hj).2
    rintro ⟨⟩
    exact Nat.lt_irrefl _ hlt
  refine ⟨fun hc => hreg (h.1 hc), fun j hj => hreg (h.2 j ?_)⟩
  exact (at_update (t := .addCtx a.count) (P := fun u => c ∈ u.timing) (fun h => nomatch h) hj).2

theorem timing_stream (h : ∀ c, Fits s c) (htiming : ∀ c, Timing s.stream c) {e : AsyncEvent}
    {b : AsyncSocketStream} (hstep : s.stream.exec e = some b) (c : Nat) : Timing b c := by
  have hc := htiming c
  cases e with
  | task i => exact timing_task h hc hstep
  | start =>
      rw [AsyncSocketStream.exec] at hstep
      split at hstep
      · injection hstep with hstep
        subst hstep
        exact hc.same rfl rfl rfl
      · cases hstep
  | request i sn req scd fiber =>
      rw [AsyncSocketStream.exec] at hstep
      split at hstep
      · obtain ⟨hidle, rfl⟩ := spawn_idle hstep
        exact hc.request _
      · cases hstep
  | sendMessage i msg =>
      rw [AsyncSocketStream.exec] at hstep
      split at hstep
      · exact hc.spawn hstep rfl (by rintro _ ⟨⟩)
      · cases hstep
  | response i sn r rsp =>
      rw [AsyncSocketStream.exec, AsyncSocketStream.getAndDelCtx] at hstep
      cases hd : s.stream.m_ctxs.lookup sn with
      | none =>
          rw [hd] at hstep
          injection hstep with hstep
          subst hstep
          exact hc
      | some d =>
          rw [hd] at hstep
          have herased : Timing (s.stream.eraseCtx sn) c := hc
          exact herased.spawn hstep rfl (by rintro _ ⟨⟩)
  | fire i d =>
      rw [AsyncSocketStream.exec] at hstep
      split at hstep
      next harmed =>
        obtain ⟨hidle, rfl⟩ := spawn_idle hstep
        refine hc.moves rfl rfl (fun h => .inl (disarmed h)) ?_ (by rintro ⟨⟩)
        intro hmem
        rw [List.mem_singleton.mp hmem]
        exact .inl harmed
      next => cases hstep
  | shutdown =>
      obtain rfl := Option.some.inj hstep
      exact hc.same rfl rfl rfl
  | innerClose i => exact hc.spawn hstep rfl (by rintro _ ⟨⟩)
  | swap i ctxs =>
      rw [AsyncSocketStream.exec] at hstep
      split at hstep
      next hi =>
        split at hstep
        next hperm =>
          injection hstep with hstep
          subst hstep
          exact hc.moves rfl rfl .inl (by rintro ⟨⟩) (by rintro ⟨⟩)
        next => cases hstep
      next => cases hstep
  | writer =>
      obtain ⟨htask, -, -, hcount, -, harmed⟩ := writer_same hstep
      exact hc.same htask hcount harmed
  | sendFails i =>
      rw [AsyncSocketStream.exec] at hstep
      split at hstep
      · have hclosing : Timing { s.stream with writer := .closing i } c := hc
        exact hclosing.spawn hstep rfl (by rintro _ ⟨⟩)
      · cases hstep

theorem timing_exec (h : ∀ c, Fits s c) (htiming : ∀ c, Timing s.stream c) {e : RockEvent}
    (hstep : s.exec e = some s') (c : Nat) : Timing s'.stream c := by
  unfold RockStream.exec at hstep
  split at hstep
  · unfold RockStream.taskStep at hstep
    split at hstep
    · injection hstep with hstep
      subst hstep
      unfold RockStream.doRecv
      split
      · exact (htiming c).moves rfl rfl .inl (fun h => nomatch h) fun h => nomatch h
      · exact (htiming c).same rfl rfl rfl
    · obtain ⟨b, hb, rfl⟩ := Option.map_eq_some_iff.mp hstep
      exact timing_task h (htiming c) hb
    · obtain ⟨b, hb, rfl⟩ := Option.map_eq_some_iff.mp hstep
      exact timing_task h (htiming c) hb
  · obtain ⟨b, hb, rfl⟩ := Option.map_eq_some_iff.mp hstep
    exact timing_stream h htiming hb c
  · obtain ⟨b, hb, rfl⟩ := Option.map_eq_some_iff.mp hstep
    exact timing_stream h htiming hb c
  · obtain ⟨b, hb, rfl⟩ := Option.map_eq_some_iff.mp hstep
    exact timing_stream h htiming hb c
  all_goals
    split at hstep
    · injection hstep with hstep
      subst hstep
      exact htiming c
    · cases hstep

theorem fits_exec (h : ∀ c, Fits s c) (htiming : ∀ c, Timing s.stream c) {e : RockEvent}
    (hexclusive : Exclusive s e)
    (hstep : s.exec e = some s') (c : Nat) : Fits s' c := by
  have hc := h c
  cases e with
  | readResult d =>
      rw [exec] at hstep
      split at hstep
      · injection hstep with hstep
        subst hstep
        exact ⟨hc.fresh, hc.entry, hc.adding, hc.beyond, hc.claimed, hc.woken, hc.response,
          hc.timeout, hc.close⟩
      · cases hstep
  | readResponse d =>
      rw [exec] at hstep
      split at hstep
      · injection hstep with hstep
        subst hstep
        exact ⟨hc.fresh, hc.entry, hc.adding, hc.beyond, hc.claimed, hc.woken, hc.response,
          hc.timeout, hc.close⟩
      · cases hstep
  | stream e =>
      cases e with
      | task i => exact fits_task h htiming hexclusive hstep c
      | response i sn r rsp => exact fits_response h hexclusive hstep c
      | start =>
          obtain ⟨b, hb, rfl⟩ := Option.map_eq_some_iff.mp hstep
          rw [AsyncSocketStream.exec] at hb
          split at hb
          · injection hb with hb
            subst hb
            exact hc.same rfl rfl rfl rfl rfl
          · cases hb
      | request i sn req scd fiber =>
          obtain ⟨b, hb, rfl⟩ := Option.map_eq_some_iff.mp hstep
          rw [AsyncSocketStream.exec] at hb
          split at hb
          · obtain ⟨hidle, rfl⟩ := spawn_idle hb
            exact hc.request hidle rfl rfl
          · cases hb
      | sendMessage i msg =>
          obtain ⟨b, hb, rfl⟩ := Option.map_eq_some_iff.mp hstep
          rw [AsyncSocketStream.exec] at hb
          split at hb
          · exact hc.spawn hb rfl rfl rfl rfl rfl rfl (by rintro _ ⟨⟩)
          · cases hb
      | fire i d =>
          obtain ⟨b, hb, rfl⟩ := Option.map_eq_some_iff.mp hstep
          rw [AsyncSocketStream.exec] at hb
          split at hb
          · exact hc.spawn hb rfl rfl rfl rfl rfl rfl (by rintro _ ⟨⟩)
          · cases hb
      | shutdown =>
          obtain rfl := Option.some.inj hstep
          exact hc.same rfl rfl rfl rfl rfl
      | innerClose i =>
          obtain ⟨b, hb, rfl⟩ := Option.map_eq_some_iff.mp hstep
          exact hc.spawn hb rfl rfl rfl rfl rfl rfl (by rintro _ ⟨⟩)
      | swap i ctxs =>
          obtain ⟨b, hb, rfl⟩ := Option.map_eq_some_iff.mp hstep
          rw [AsyncSocketStream.exec] at hb
          split at hb
          next hi =>
            split at hb
            next hperm =>
              injection hb with hb
              subst hb
              exact hc.swap hi hperm
            next => cases hb
          next => cases hb
      | writer =>
          obtain ⟨b, hb, rfl⟩ := Option.map_eq_some_iff.mp hstep
          obtain ⟨htask, hctx, hm, hcount, hscheduled, -⟩ := writer_same hb
          exact hc.same htask hctx hm hcount hscheduled
      | sendFails i =>
          obtain ⟨b, hb, rfl⟩ := Option.map_eq_some_iff.mp hstep
          rw [AsyncSocketStream.exec] at hb
          split at hb
          · exact hc.spawn hb rfl rfl rfl rfl rfl rfl (by rintro _ ⟨⟩)
          · cases hb

/-! ## What the requests read -/

theorem remove_kept (h : ∀ c, Fits s c) (sn : UInt32) (rm : Removal) {r : Removal}
    (hr : s.removed c = some r) : s.remove sn rm c = some r := by
  rw [remove]
  cases hd : s.stream.m_ctxs.lookup sn with
  | none => exact hr
  | some d =>
      have hne : c ≠ d := by
        rintro rfl
        rw [((h c).entry sn hd).1] at hr
        cases hr
      exact (Function.update_of_ne hne _ _).trans hr

theorem timeout_kept (h : ∀ c, Fits s c) (d : Nat) {r : Removal} (hr : s.removed c = some r) :
    s.timeout d c = some r := by
  have hremove := remove_kept h (s.stream.ctx d).sn .timeout hr
  rw [timeout]
  by_cases hcd : c = d
  · rw [← hcd] at hremove ⊢
    rw [Function.update_self, hremove]
    rfl
  · rw [Function.update_of_ne hcd, hremove]

theorem update_read {α : Type} {f : Nat → Option α} {d : Nat} {v r : α}
    (h : Function.update f d (some v) c = some r) : f c = some r ∨ c = d ∧ v = r := by
  by_cases hcd : c = d
  · rw [hcd, Function.update_self, Option.some.injEq] at h
    exact .inr ⟨hcd, h⟩
  · rw [Function.update_of_ne hcd] at h
    exact .inl h

/-- What removed a context stays on record, and a request reads from its context only. -/
structure Records (s s' : RockStream) : Prop where
  removed : ∀ c r, s.removed c = some r → s'.removed c = some r
  result : ∀ c r, s'.result c = some r →
    s.result c = some r ∨ c ∈ s.stream.woken ∧ (s.stream.ctx c).result = r
  response : ∀ c p, s'.response c = some p →
    s.response c = some p ∨ c ∈ s.stream.woken ∧ (s.stream.ctx c).response = p

theorem task_records (h : ∀ c, Fits s c) (hstep : s.taskStep i = some s') : Records s s' := by
  unfold taskStep at hstep
  split at hstep
  · injection hstep with hstep
    subst hstep
    unfold RockStream.doRecv
    split <;> exact ⟨fun _ _ => id, fun _ _ => .inl, fun _ _ => .inl⟩
  · obtain ⟨b, -, rfl⟩ := Option.map_eq_some_iff.mp hstep
    exact ⟨fun _ _ => timeout_kept h _, fun _ _ => .inl, fun _ _ => .inl⟩
  · obtain ⟨b, -, rfl⟩ := Option.map_eq_some_iff.mp hstep
    exact ⟨fun _ _ => id, fun _ _ => .inl, fun _ _ => .inl⟩

theorem exec_records (h : ∀ c, Fits s c) {e : RockEvent} (hstep : s.exec e = some s') :
    Records s s' := by
  unfold RockStream.exec at hstep
  split at hstep
  · exact task_records h hstep
  · obtain ⟨b, -, rfl⟩ := Option.map_eq_some_iff.mp hstep
    exact ⟨fun _ _ => remove_kept h _ _, fun _ _ => .inl, fun _ _ => .inl⟩
  next i ctxs =>
    obtain ⟨b, hb, rfl⟩ := Option.map_eq_some_iff.mp hstep
    refine ⟨?_, fun _ _ => .inl, fun _ _ => .inl⟩
    intro c r hr
    rw [AsyncSocketStream.exec] at hb
    split at hb
    next hi =>
      split at hb
      next hperm =>
        refine (if_neg fun hmem => ?_).trans hr
        obtain ⟨⟨sn, d⟩, hentry, rfl⟩ := List.mem_map.mp (hperm.subset hmem)
        rw [((h d).entry sn (AList.mem_lookup_iff.mpr hentry)).1] at hr
        cases hr
      next => cases hb
    next => cases hb
  · obtain ⟨b, -, rfl⟩ := Option.map_eq_some_iff.mp hstep
    exact ⟨fun _ _ => id, fun _ _ => .inl, fun _ _ => .inl⟩
  next d =>
    split at hstep
    next hd =>
      injection hstep with hstep
      subst hstep
      refine ⟨fun _ _ => id, ?_, fun _ _ => .inl⟩
      intro c r hr
      refine (update_read hr).imp_right ?_
      rintro ⟨rfl, hr⟩
      exact ⟨hd.1, hr⟩
    next => cases hstep
  next d =>
    split at hstep
    next hd =>
      injection hstep with hstep
      subst hstep
      refine ⟨fun _ _ => id, fun _ _ => .inl, ?_⟩
      intro c r hr
      refine (update_read hr).imp_right ?_
      rintro ⟨rfl, hr⟩
      exact ⟨hd.1, hr⟩
    next => cases hstep

theorem Fits.gives (h : Fits s c) (hw : c ∈ s.stream.woken) : ∃ removal,
    s.removed c = some removal ∧
      ((s.stream.ctx c).result, (s.stream.ctx c).response) = removal.gives := by
  obtain ⟨hresponse, htimeout, hclose, hremoved, -⟩ := h.decided (.inl hw)
  obtain ⟨removal, hr⟩ := Option.ne_none_iff_exists'.mp hremoved
  refine ⟨removal, hr, ?_⟩
  cases removal with
  | response r rsp =>
      obtain ⟨hres, hrsp⟩ := hresponse r rsp hr
      rw [hres, hrsp]
      rfl
  | timeout =>
      obtain ⟨hres, hrsp⟩ := htimeout hr
      rw [hres, hrsp]
      rfl
  | close =>
      obtain ⟨hres, hrsp⟩ := hclose hr
      rw [hres, hrsp]
      rfl

/-- What was read is what the removal of the context gives. -/
structure Read (s : RockStream) : Prop where
  fits : ∀ c, Fits s c
  timing : ∀ c, Timing s.stream c
  result : ∀ c r, s.result c = some r →
    ∃ removal, s.removed c = some removal ∧ r = removal.gives.1
  response : ∀ c p, s.response c = some p →
    ∃ removal, s.removed c = some removal ∧ p = removal.gives.2

theorem Read.exec (h : Read s) {e : RockEvent} (hexclusive : Exclusive s e)
    (hstep : s.exec e = some s') : Read s' := by
  have hrecords := exec_records h.fits hstep
  refine ⟨fits_exec h.fits h.timing hexclusive hstep, timing_exec h.fits h.timing hstep, ?_, ?_⟩
  · intro c r hr
    rcases hrecords.result c r hr with hr | ⟨hw, rfl⟩
    · obtain ⟨removal, hrm, hgives⟩ := h.result c r hr
      exact ⟨removal, hrecords.removed c removal hrm, hgives⟩
    · obtain ⟨removal, hrm, hgives⟩ := (h.fits c).gives hw
      exact ⟨removal, hrecords.removed c removal hrm, congrArg Prod.fst hgives⟩
  · intro c p hp
    rcases hrecords.response c p hp with hp | ⟨hw, rfl⟩
    · obtain ⟨removal, hrm, hgives⟩ := h.response c p hp
      exact ⟨removal, hrecords.removed c removal hrm, hgives⟩
    · obtain ⟨removal, hrm, hgives⟩ := (h.fits c).gives hw
      exact ⟨removal, hrecords.removed c removal hrm, congrArg Prod.snd hgives⟩

theorem init_read : Read init where
  fits := fun _ => Fits.of_fresh rfl (fun _ h => nomatch h) (fun h => nomatch h) rfl rfl
    (fun _ h => nomatch h) fun _ h => nomatch h
  timing := fun _ => ⟨(fun h => nomatch h), fun _ h => nomatch h⟩
  result := fun _ _ h => nomatch h
  response := fun _ _ h => nomatch h

theorem run_belongs {es : List RockEvent} (hr : (rockStream.restrict Exclusive).Run es s)
    {r : UInt32} {p : Option (List UInt8)} (hresult : s.result c = some r)
    (hresponse : s.response c = some p) : s.Belongs c r p := by
  have hread : Read s := by
    apply hr.invariant
    · rintro s rfl
      exact init_read
    · rintro s e s' h ⟨hexclusive, hstep⟩
      exact h.exec hexclusive hstep
  obtain ⟨removal, hrm, rfl⟩ := hread.result c r hresult
  obtain ⟨removal', hrm', rfl⟩ := hread.response c p hresponse
  cases hrm.symm.trans hrm'
  refine ⟨⟨removal, hrm, rfl⟩, ?_⟩
  cases removal with
  | response r rsp =>
      obtain ⟨⟨htimeout, hclose⟩, -⟩ := (hread.fits c).response r rsp hrm
      rintro (h | h)
      · exact absurd h htimeout
      · exact absurd h hclose
  | timeout => exact fun _ => rfl
  | close => exact fun _ => rfl

/-- A request that times out. -/
theorem run_belongs_timeout : ∃ es s, (rockStream.restrict Exclusive).Run es s ∧
    s.result 0 = some asyncTimeout ∧ s.response 0 = some none ∧ s.Belongs 0 asyncTimeout none := by
  have h₀ : (rockStream.restrict Exclusive).Run [] init := .start rfl
  have h₁ := h₀.snoc (e := RockEvent.stream .start) ⟨trivial, rfl⟩
  have h₂ := h₁.snoc (e := RockEvent.stream (.request 1 7 [] 0 0)) ⟨trivial, rfl⟩
  have h₃ := h₂.snoc (e := RockEvent.stream (.task 1)) ⟨(fun _ h => nomatch h), rfl⟩
  have h₄ := h₃.snoc (e := RockEvent.stream (.task 1)) ⟨(fun _ h => nomatch h), rfl⟩
  have h₅ := h₄.snoc (e := RockEvent.stream (.fire 2 0)) ⟨trivial, rfl⟩
  have h₆ := h₅.snoc (e := RockEvent.stream (.task 2)) ⟨(fun _ h => nomatch h), rfl⟩
  have h₇ := h₆.snoc (e := RockEvent.stream (.task 2))
    ⟨(fun _ h => by cases h; exact .inl rfl), rfl⟩
  have h₈ := h₇.snoc (e := RockEvent.stream (.task 2)) ⟨(fun _ h => nomatch h), rfl⟩
  have h₉ := h₈.snoc (e := RockEvent.stream (.task 2)) ⟨(fun _ h => nomatch h), rfl⟩
  have h₁₀ := h₉.snoc (e := RockEvent.stream (.task 2)) ⟨(fun _ h => nomatch h), rfl⟩
  have h₁₁ := h₁₀.snoc (e := RockEvent.stream (.task 2)) ⟨(fun _ h => nomatch h), rfl⟩
  have h₁₂ := h₁₁.snoc (e := RockEvent.stream (.task 2)) ⟨(fun _ h => nomatch h), rfl⟩
  have h₁₃ := h₁₂.snoc (e := RockEvent.readResult 0) ⟨trivial, rfl⟩
  have h₁₄ := h₁₃.snoc (e := RockEvent.readResponse 0) ⟨trivial, rfl⟩
  exact ⟨_, _, h₁₄, rfl, rfl, run_belongs h₁₄ rfl rfl⟩

/-- The reader took the context and assigned both fields before the timer fires; the timeout finds
nothing to erase and goes on. -/
theorem timeout_with_response : ∃ es s r p, rockStream.Run es s ∧ s.result 0 = some r ∧
    s.response 0 = some p ∧ ¬s.Belongs 0 r p := by
  have h₀ : rockStream.Run [] init := .start rfl
  have h₁ := h₀.snoc (e := RockEvent.stream .start) rfl
  have h₂ := h₁.snoc (e := RockEvent.stream (.request 1 7 [] 0 0)) rfl
  have h₃ := h₂.snoc (e := RockEvent.stream (.task 1)) rfl
  have h₄ := h₃.snoc (e := RockEvent.stream (.task 1)) rfl
  have h₅ := h₄.snoc (e := RockEvent.stream (.task 1)) rfl
  have h₆ := h₅.snoc (e := RockEvent.stream (.response 2 7 0 [1])) rfl
  have h₇ := h₆.snoc (e := RockEvent.stream (.task 2)) rfl
  have h₈ := h₇.snoc (e := RockEvent.stream (.task 2)) rfl
  have h₉ := h₈.snoc (e := RockEvent.stream (.fire 3 0)) rfl
  have h₁₀ := h₉.snoc (e := RockEvent.stream (.task 3)) rfl
  have h₁₁ := h₁₀.snoc (e := RockEvent.stream (.task 3)) rfl
  have h₁₂ := h₁₁.snoc (e := RockEvent.stream (.task 2)) rfl
  have h₁₃ := h₁₂.snoc (e := RockEvent.stream (.task 2)) rfl
  have h₁₄ := h₁₃.snoc (e := RockEvent.stream (.task 2)) rfl
  have h₁₅ := h₁₄.snoc (e := RockEvent.stream (.task 2)) rfl
  have h₁₆ := h₁₅.snoc (e := RockEvent.stream (.task 2)) rfl
  have h₁₇ := h₁₆.snoc (e := RockEvent.readResult 0) rfl
  have h₁₈ := h₁₇.snoc (e := RockEvent.readResponse 0) rfl
  refine ⟨_, _, asyncTimeout, some [1], h₁₈, rfl, rfl, ?_⟩
  rintro ⟨-, hnone⟩
  cases hnone (.inl rfl)

end RockStream

end CIM
