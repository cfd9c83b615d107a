import CIM.Streams.AsyncSocketStream

/-!
# Exactly-once completion of requests

A context leaves `m_ctxs` before anything answers it, it is never added again, and the exchange
of its scheduler lets one coroutine through to `schedule`.
-/
namespace CIM

open Transition

/-- The contexts that a coroutine uses on the strength of their having been added. -/
def Task.timing : Task → List Nat
  | .addTimer c | .eraseCtx c => [c]
  | _ => []

/-- The contexts that a coroutine holds after they left `m_ctxs`. -/
def Task.held : Task → List Nat
  | .answer c _ _ | .setTimed c => [c]
  | .doRsp _ c rest => c :: rest
  | .clearQueue ctxs | .closeLoop ctxs => ctxs
  | _ => []

def DoRsp.Claims : DoRsp → Prop
  | .load | .compareAndSwap _ => False
  | .cancelTimer _ | .setResult _ | .schedule _ => True

/-- The coroutine exchanged the context's scheduler and has not yet scheduled it. -/
def Task.Claims (c : Nat) : Task → Prop
  | .doRsp p d _ => d = c ∧ p.Claims
  | _ => False

theorem Task.Claims.held {u : Task} {c : Nat} (h : u.Claims c) : c ∈ u.held := by
  cases u with
  | doRsp p d rest =>
      rw [← h.1]
      exact List.mem_cons_self
  | _ => exact absurd h id

namespace AsyncSocketStream

/-- Requests have pairwise distinct serial numbers. -/
def DistinctSn (s : AsyncSocketStream) : AsyncEvent → Prop
  | .request _ sn _ _ _ => ∀ c < s.count, (s.ctx c).sn ≠ sn
  | _ => True

/-- The context was made and `addCtx` is behind it. -/
def Registered (s : AsyncSocketStream) (c : Nat) : Prop :=
  c < s.count ∧ ∀ i, s.task i ≠ .addCtx c

/-- The context was added and has left `m_ctxs`. -/
def Gone (s : AsyncSocketStream) (c : Nat) : Prop :=
  s.Registered c ∧ ∀ sn, s.m_ctxs.lookup sn ≠ some c

structure OnceInv (s : AsyncSocketStream) : Prop where
  entry : ∀ sn c, s.m_ctxs.lookup sn = some c → s.Registered c ∧ (s.ctx c).sn = sn
  distinct : ∀ c < s.count, ∀ d < s.count, (s.ctx c).sn = (s.ctx d).sn → c = d
  adding : ∀ i c, s.task i = .addCtx c → c < s.count ∧ ∀ j, s.task j = .addCtx c → j = i
  armed : ∀ c, s.armed c = true → s.Registered c
  timing : ∀ i, ∀ c ∈ (s.task i).timing, s.Registered c
  held : ∀ i, ∀ c ∈ (s.task i).held, s.Gone c
  claimed : ∀ i c, (s.task i).Claims c →
    (s.ctx c).scheduler = none ∧ c ∉ s.woken ∧ ∀ j, (s.task j).Claims c → j = i
  woken : ∀ c ∈ s.woken, s.Gone c ∧ (s.ctx c).scheduler = none
  once : s.woken.Nodup

/-- A step of coroutine `i` that neither makes, adds nor wakes a context. -/
structure Moves (s s' : AsyncSocketStream) (i : Nat) (t : Task) : Prop where
  task : s'.task = Function.update s.task i t
  count : s'.count = s.count
  sn : ∀ c, (s'.ctx c).sn = (s.ctx c).sn
  scheduler : ∀ c, (s.ctx c).scheduler = none → (s'.ctx c).scheduler = none
  m_ctxs : ∀ sn c, s'.m_ctxs.lookup sn = some c → s.m_ctxs.lookup sn = some c
  scheduled : s'.scheduled = s.scheduled

variable {s s' : AsyncSocketStream} {i c : Nat} {t : Task}

/-- What held of every coroutine and holds of the new point holds of every coroutine. -/
theorem forall_update_task {P : Nat → Task → Prop} (h : ∀ j, P j (s.task j)) (ht : P i t)
    (j : Nat) : P j (Function.update s.task i t j) := by
  by_cases hj : j = i
  · rw [hj, Function.update_self]
    exact ht
  · rw [Function.update_of_ne hj]
    exact h j

theorem Moves.registered (m : Moves s s' i t) (ht : t = .addCtx c → s.task i = .addCtx c)
    (h : s.Registered c) : s'.Registered c := by
  refine ⟨m.count ▸ h.1, ?_⟩
  rw [m.task]
  exact forall_update_task (P := fun _ u => u ≠ .addCtx c) h.2 fun he => h.2 i (ht he)

theorem Moves.gone (m : Moves s s' i t) (ht : t = .addCtx c → s.task i = .addCtx c)
    (h : s.Gone c) : s'.Gone c :=
  ⟨m.registered ht h.1, fun sn hl => h.2 sn (m.m_ctxs sn c hl)⟩

theorem OnceInv.moves (h : OnceInv s) (m : Moves s s' i t)
    (hadd : ∀ c, t = .addCtx c → s.task i = .addCtx c)
    (harmed : ∀ c, s'.armed c = true → s.Registered c)
    (htiming : ∀ c ∈ t.timing, s'.Registered c) (hheld : ∀ c ∈ t.held, s'.Gone c)
    (hclaims : ∀ c, t.Claims c → (s.task i).Claims c ∨
      ((s'.ctx c).scheduler = none ∧ c ∉ s.woken ∧ ∀ j, ¬ (s.task j).Claims c)) :
    OnceInv s' where
  entry := by
    intro sn c hl
    obtain ⟨hreg, hsn⟩ := h.entry sn c (m.m_ctxs sn c hl)
    exact ⟨m.registered (hadd c) hreg, (m.sn c).trans hsn⟩
  distinct := by
    intro c hc d hd heq
    rw [m.count] at hc hd
    rw [m.sn c, m.sn d] at heq
    exact h.distinct c hc d hd heq
  adding := by
    have hback : ∀ j c, s'.task j = .addCtx c → s.task j = .addCtx c := by
      intro j c
      rw [m.task]
      exact forall_update_task (P := fun j u => u = .addCtx c → s.task j = .addCtx c)
        (fun _ => id) (hadd c) j
    intro j c hj
    obtain ⟨hlt, huniq⟩ := h.adding j c (hback j c hj)
    rw [m.count]
    exact ⟨hlt, fun k hk => huniq k (hback k c hk)⟩
  armed := fun c hc => m.registered (hadd c) (harmed c hc)
  timing := by
    rw [m.task]
    refine forall_update_task (P := fun _ u => ∀ c ∈ u.timing, s'.Registered c) ?_ ?_
    · exact fun j c hc => m.registered (hadd c) (h.timing j c hc)
    · exact htiming
  held := by
    rw [m.task]
    refine forall_update_task (P := fun _ u => ∀ c ∈ u.held, s'.Gone c) ?_ hheld
    exact fun j c hc => m.gone (hadd c) (h.held j c hc)
  claimed := by
    intro j c hj
    rw [AsyncSocketStream.woken, m.scheduled, m.task]
    rw [m.task] at hj
    -- either the claim is new, and then it is the only one, or it was there before
    by_cases hnew : (s'.ctx c).scheduler = none ∧ c ∉ s.woken ∧ ∀ j, ¬ (s.task j).Claims c
    · obtain ⟨hscd, hwoken, hnone⟩ := hnew
      have honly : ∀ k, (Function.update s.task i t k).Claims c → k = i := by
        intro k hk
        by_cases hki : k = i
        · exact hki
        · rw [Function.update_of_ne hki] at hk
          exact absurd hk (hnone k)
      exact ⟨hscd, hwoken, fun k hk => (honly k hk).trans (honly j hj).symm⟩
    · have hback : ∀ k, (Function.update s.task i t k).Claims c → (s.task k).Claims c :=
        forall_update_task (P := fun k u => u.Claims c → (s.task k).Claims c) (fun _ => id)
          fun ht => (hclaims c ht).resolve_right hnew
      obtain ⟨hscd, hwoken, huniq⟩ := h.claimed j c (hback j hj)
      exact ⟨m.scheduler c hscd, hwoken, fun k hk => huniq k (hback k hk)⟩
  woken := by
    intro c hc
    rw [AsyncSocketStream.woken, m.scheduled] at hc
    obtain ⟨hgone, hscd⟩ := h.woken c hc
    exact ⟨m.gone (hadd c) hgone, m.scheduler c hscd⟩
  once := by
    rw [AsyncSocketStream.woken, m.scheduled]
    exact h.once

/-- A step that touches no coroutine. -/
theorem OnceInv.data (h : OnceInv s) (m : Moves s s' 0 (s.task 0))
    (harmed : ∀ c, s'.armed c = true → s.Registered c) : OnceInv s' :=
  h.moves m (fun _ => id) harmed (fun d hd => m.registered id (h.timing 0 d hd))
    (fun d hd => m.gone id (h.held 0 d hd))
    fun _ => .inl

theorem OnceInv.beside (h : OnceInv s) (htask : s'.task = s.task) (hcount : s'.count = s.count)
    (hctx : s'.ctx = s.ctx) (hm : s'.m_ctxs = s.m_ctxs) (harmed : s'.armed = s.armed)
    (hscheduled : s'.scheduled = s.scheduled) : OnceInv s' := by
  have m : Moves s s' 0 (s.task 0) :=
    { task := by rw [htask, Function.update_eq_self]
      count := hcount
      sn := fun c => by rw [hctx]
      scheduler := fun c hc => by rw [hctx]; exact hc
      m_ctxs := fun sn c hl => hm ▸ hl
      scheduled := hscheduled }
  apply h.data m
  intro c hc
  rw [harmed] at hc
  exact h.armed c hc

theorem OnceInv.notify (h : OnceInv s) : OnceInv s.notify := by
  unfold AsyncSocketStream.notify
  split
  · exact h.beside rfl rfl rfl rfl rfl rfl
  · exact h.beside rfl rfl rfl rfl rfl rfl

/-- A coroutine goes on to a point that names no context it did not hold. -/
theorem OnceInv.goto (h : OnceInv s) (hadd : ∀ c, t ≠ .addCtx c)
    (htiming : ∀ c ∈ t.timing, s.Registered c) (hheld : ∀ c ∈ t.held, s.Gone c)
    (hclaims : ∀ c, t.Claims c → (s.task i).Claims c) : OnceInv (s.goto i t) := by
  have m : Moves s (s.goto i t) i t := ⟨rfl, rfl, fun _ => rfl, fun _ => id, fun _ _ => id, rfl⟩
  refine h.moves m (fun c hc => absurd hc (hadd c)) h.armed ?_ ?_ fun c hc =>
    .inl (hclaims c hc)
  · intro c hc
    exact m.registered (fun he => absurd he (hadd c)) (htiming c hc)
  · intro c hc
    exact m.gone (fun he => absurd he (hadd c)) (hheld c hc)

/-- A write to a field of a context that is neither its number nor its scheduler. -/
theorem OnceInv.setCtx {v : Ctx} (h : OnceInv s) (hsn : v.sn = (s.ctx c).sn)
    (hscd : v.scheduler = (s.ctx c).scheduler) : OnceInv (s.setCtx c v) := by
  have m : Moves s (s.setCtx c v) 0 (s.task 0) :=
    { task := (Function.update_eq_self 0 s.task).symm
      count := rfl
      sn := by
        intro d
        change (Function.update s.ctx c v d).sn = (s.ctx d).sn
        by_cases hd : d = c
        · rw [hd, Function.update_self, hsn]
        · rw [Function.update_of_ne hd]
      scheduler := by
        intro d hnone
        change (Function.update s.ctx c v d).scheduler = none
        by_cases hd : d = c
        · rw [hd, Function.update_self, hscd, ← hd]
          exact hnone
        · rw [Function.update_of_ne hd]
          exact hnone
      m_ctxs := fun _ _ => id
      scheduled := rfl }
  exact h.data m h.armed

theorem OnceInv.disarm (h : OnceInv s) :
    OnceInv { s with armed := Function.update s.armed c false } := by
  have m : Moves s { s with armed := Function.update s.armed c false } 0 (s.task 0) :=
    ⟨(Function.update_eq_self 0 s.task).symm, rfl, fun _ => rfl, fun _ => id, fun _ _ => id, rfl⟩
  apply h.data m
  intro d hd
  change Function.update s.armed c false d = true at hd
  by_cases hdc : d = c
  · rw [hdc, Function.update_self] at hd
    cases hd
  · rw [Function.update_of_ne hdc] at hd
    exact h.armed d hd

theorem OnceInv.arm (h : OnceInv s) (hreg : s.Registered c) :
    OnceInv { s with armed := Function.update s.armed c true } := by
  have m : Moves s { s with armed := Function.update s.armed c true } 0 (s.task 0) :=
    ⟨(Function.update_eq_self 0 s.task).symm, rfl, fun _ => rfl, fun _ => id, fun _ _ => id, rfl⟩
  apply h.data m
  intro d hd
  change Function.update s.armed c true d = true at hd
  by_cases hdc : d = c
  · rw [hdc]
    exact hreg
  · rw [Function.update_of_ne hdc] at hd
    exact h.armed d hd

theorem OnceInv.eraseCtx (h : OnceInv s) (sn : UInt32) : OnceInv (s.eraseCtx sn) := by
  have m : Moves s (s.eraseCtx sn) 0 (s.task 0) :=
    { task := (Function.update_eq_self 0 s.task).symm
      count := rfl
      sn := fun _ => rfl
      scheduler := fun _ => id
      m_ctxs := by
        intro sn' d hl
        change (s.m_ctxs.erase sn).lookup sn' = some d at hl
        by_cases hsn : sn' = sn
        · rw [hsn, AList.lookup_erase] at hl
          cases hl
        · rw [AList.lookup_erase_ne hsn] at hl
          exact hl
      scheduled := rfl }
  exact h.data m h.armed

/-- What leaves `m_ctxs` was added and is not there any more. -/
theorem OnceInv.erased (h : OnceInv s) (hreg : s.Registered c) :
    (s.eraseCtx (s.ctx c).sn).Gone c := by
  refine ⟨hreg, ?_⟩
  intro sn hl
  change (s.m_ctxs.erase (s.ctx c).sn).lookup sn = some c at hl
  by_cases hsn : sn = (s.ctx c).sn
  · rw [hsn, AList.lookup_erase] at hl
    cases hl
  · rw [AList.lookup_erase_ne hsn] at hl
    exact hsn (h.entry sn c hl).2.symm

theorem OnceInv.insert (h : OnceInv s) (hreg : s.Registered c)
    (hheld : ∀ j, c ∉ (s.task j).held) (hwoken : c ∉ s.woken) :
    OnceInv { s with m_ctxs := s.m_ctxs.insert (s.ctx c).sn c } := by
  have hstill : ∀ d, d ≠ c → s.Gone d →
      Gone { s with m_ctxs := s.m_ctxs.insert (s.ctx c).sn c } d := by
    intro d hd hgone
    refine ⟨hgone.1, ?_⟩
    intro sn hl
    change (s.m_ctxs.insert (s.ctx c).sn c).lookup sn = some d at hl
    by_cases hsn : sn = (s.ctx c).sn
    · rw [hsn, AList.lookup_insert] at hl
      exact hd (Option.some.inj hl).symm
    · rw [AList.lookup_insert_ne hsn] at hl
      exact hgone.2 sn hl
  exact
    { entry := by
        intro sn d hl
        change (s.m_ctxs.insert (s.ctx c).sn c).lookup sn = some d at hl
        by_cases hsn : sn = (s.ctx c).sn
        · rw [hsn, AList.lookup_insert] at hl
          have hd : c = d := Option.some.inj hl
          exact ⟨hd ▸ hreg, by rw [hsn, hd]⟩
        · rw [AList.lookup_insert_ne hsn] at hl
          exact h.entry sn d hl
      distinct := h.distinct
      adding := h.adding
      armed := h.armed
      timing := h.timing
      held := by
        intro j d hd
        refine hstill d ?_ (h.held j d hd)
        intro he
        exact hheld j (he ▸ hd)
      claimed := h.claimed
      woken := by
        intro d hd
        obtain ⟨hgone, hscd⟩ := h.woken d hd
        refine ⟨hstill d ?_ hgone, hscd⟩
        intro he
        exact hwoken (he ▸ hd)
      once := h.once }

/-- `addCtx`: the coroutine that adds the context was the only one to do so. -/
theorem OnceInv.addCtx (h : OnceInv s) (hi : s.task i = .addCtx c) :
    OnceInv ((s.addCtx c).goto i (.addTimer c)) := by
  obtain ⟨hlt, huniq⟩ := h.adding i c hi
  have hnot : ¬ s.Registered c := fun hreg => hreg.2 i hi
  have hfree : s.m_ctxs.lookup (s.ctx c).sn = none := by
    cases hl : s.m_ctxs.lookup (s.ctx c).sn with
    | none => rfl
    | some d =>
        obtain ⟨hreg, hsn⟩ := h.entry _ d hl
        have hdc : d = c := h.distinct d hreg.1 c hlt hsn
        exact absurd (hdc ▸ hreg) hnot
  have hreg : (s.goto i (.addTimer c)).Registered c := by
    refine ⟨hlt, ?_⟩
    intro j hj
    change Function.update s.task i (.addTimer c) j = .addCtx c at hj
    by_cases hji : j = i
    · rw [hji, Function.update_self] at hj
      cases hj
    · rw [Function.update_of_ne hji] at hj
      exact hji (huniq j hj)
  have hgo : OnceInv (s.goto i (.addTimer c)) := by
    have m : Moves s (s.goto i (.addTimer c)) i (.addTimer c) :=
      ⟨rfl, rfl, fun _ => rfl, fun _ => id, fun _ _ => id, rfl⟩
    refine h.moves m (fun d hd => Task.noConfusion hd) h.armed ?_ ?_ fun d hd => absurd hd id
    · intro d hd
      rw [List.mem_singleton.mp hd]
      exact hreg
    · intro d hd
      cases hd
  have heq : (s.addCtx c).goto i (.addTimer c) =
      { s.goto i (.addTimer c) with m_ctxs := s.m_ctxs.insert (s.ctx c).sn c } := by
    unfold AsyncSocketStream.addCtx
    rw [hfree]
    rfl
  rw [heq]
  refine hgo.insert hreg ?_ ?_
  · refine forall_update_task (P := fun _ u => c ∉ u.held) ?_ List.not_mem_nil
    exact fun j hj => hnot (h.held j c hj).1
  · exact fun hc => hnot (h.woken c hc).1.1

theorem afterRsp_timing (c : Nat) (rest : List Nat) (p : Option DoRsp) :
    (Task.afterRsp c rest p).timing = [] := by
  cases p <;> rfl

theorem afterRsp_held {c : Nat} {rest : List Nat} {p : Option DoRsp} {d : Nat}
    (h : d ∈ (Task.afterRsp c rest p).held) : d ∈ c :: rest := by
  cases p with
  | none => exact List.mem_cons_of_mem c h
  | some p => exact h

theorem afterRsp_ne_addCtx (c : Nat) (rest : List Nat) (p : Option DoRsp) (d : Nat) :
    Task.afterRsp c rest p ≠ .addCtx d := by
  cases p <;> exact Task.noConfusion

theorem afterRsp_claims {c : Nat} {rest : List Nat} {p : Option DoRsp} {d : Nat}
    (h : (Task.afterRsp c rest p).Claims d) : d = c ∧ ∃ q, p = some q ∧ q.Claims := by
  cases p with
  | none => exact absurd h id
  | some q => exact ⟨h.1.symm, q, rfl, h.2⟩

/-- A coroutine goes on within `doRsp`, or past it. -/
theorem OnceInv.goto_afterRsp {rest : List Nat} {p : Option DoRsp} (h : OnceInv s)
    (hheld : ∀ d ∈ c :: rest, s.Gone d) (hclaims : ∀ q, p = some q → q.Claims →
      (s.task i).Claims c) : OnceInv (s.goto i (Task.afterRsp c rest p)) := by
  refine h.goto (afterRsp_ne_addCtx c rest p) ?_ (fun d hd => hheld d (afterRsp_held hd)) ?_
  · intro d hd
    rw [afterRsp_timing] at hd
    cases hd
  · intro d hd
    obtain ⟨hdc, q, hp, hq⟩ := afterRsp_claims hd
    rw [hdc]
    exact hclaims q hp hq

/-- The exchange of the scheduler: the coroutine that found it set is the only one to claim the
context. -/
theorem OnceInv.exchange {rest : List Nat} {p : Option DoRsp} (h : OnceInv s)
    (hheld : ∀ d ∈ c :: rest, s.Gone d)
    (hp : ∀ q, p = some q → (s.ctx c).scheduler ≠ none) :
    OnceInv ((s.setCtx c { s.ctx c with scheduler := none }).goto i
      (Task.afterRsp c rest p)) := by
  have m : Moves s ((s.setCtx c { s.ctx c with scheduler := none }).goto i
      (Task.afterRsp c rest p)) i (Task.afterRsp c rest p) :=
    { task := rfl
      count := rfl
      sn := by
        intro d
        change (Function.update s.ctx c _ d).sn = (s.ctx d).sn
        by_cases hd : d = c
        · rw [hd, Function.update_self]
        · rw [Function.update_of_ne hd]
      scheduler := by
        intro d hnone
        change (Function.update s.ctx c _ d).scheduler = none
        by_cases hd : d = c
        · rw [hd, Function.update_self]
        · rw [Function.update_of_ne hd]
          exact hnone
      m_ctxs := fun _ _ => id
      scheduled := rfl }
  refine h.moves m (fun d hd => absurd hd (afterRsp_ne_addCtx c rest p d)) h.armed ?_ ?_ ?_
  · intro d hd
    rw [afterRsp_timing] at hd
    cases hd
  · intro d hd
    exact m.gone (fun he => absurd he (afterRsp_ne_addCtx c rest p d))
      (hheld d (afterRsp_held hd))
  · intro d hd
    obtain ⟨hdc, q, hq, -⟩ := afterRsp_claims hd
    have hset := hp q hq
    rw [hdc]
    refine .inr ⟨?_, ?_, ?_⟩
    · change (Function.update s.ctx c _ c).scheduler = none
      rw [Function.update_self]
    · exact fun hw => hset (h.woken c hw).2
    · exact fun j hj => hset (h.claimed j c hj).1

/-- A context that nobody claims any more is woken. -/
theorem OnceInv.wake (h : OnceInv s) (scd : Nat) (hgone : s.Gone c)
    (hscd : (s.ctx c).scheduler = none) (hwoken : c ∉ s.woken)
    (hnone : ∀ j, ¬ (s.task j).Claims c) :
    OnceInv { s with scheduled := s.scheduled ++ [(c, scd)] } := by
  have hlog : AsyncSocketStream.woken { s with scheduled := s.scheduled ++ [(c, scd)] } =
      s.woken ++ [c] := by
    change (s.scheduled ++ [(c, scd)]).map Prod.fst = s.woken ++ [c]
    rw [List.map_append]
    rfl
  exact
    { entry := h.entry
      distinct := h.distinct
      adding := h.adding
      armed := h.armed
      timing := h.timing
      held := h.held
      claimed := by
        intro j d hj
        obtain ⟨hd, hnot, huniq⟩ := h.claimed j d hj
        refine ⟨hd, ?_, huniq⟩
        rw [hlog, List.mem_append, List.mem_singleton]
        rintro (hmem | rfl)
        · exact hnot hmem
        · exact hnone j hj
      woken := by
        intro d hd
        rw [hlog, List.mem_append, List.mem_singleton] at hd
        obtain hmem | rfl := hd
        · exact h.woken d hmem
        · exact ⟨hgone, hscd⟩
      once := by
        rw [hlog, List.nodup_append]
        refine ⟨h.once, List.nodup_singleton c, ?_⟩
        intro d hd e he heq
        rw [List.mem_singleton] at he
        exact hwoken (he ▸ heq ▸ hd) }

/-- `schedule`: the context is woken by the one coroutine that claims it. -/
theorem OnceInv.schedule {scd : Nat} {rest : List Nat} (h : OnceInv s)
    (hi : s.task i = .doRsp (.schedule scd) c rest) :
    OnceInv ((s.doRsp c (.schedule scd)).2.goto i (.closeLoop rest)) := by
  have hheld : ∀ d ∈ c :: rest, s.Gone d := by
    have hheld := h.held i
    rw [hi] at hheld
    exact hheld
  obtain ⟨hscd, hwoken, huniq⟩ := h.claimed i c (by rw [hi]; exact ⟨rfl, trivial⟩)
  have hctx : OnceInv (s.setCtx c { s.ctx c with fiber := none }) := h.setCtx rfl rfl
  have hgo : OnceInv ((s.setCtx c { s.ctx c with fiber := none }).goto i (.closeLoop rest)) := by
    refine hctx.goto (fun d => Task.noConfusion) ?_ ?_ fun d hd => False.elim hd
    · exact fun d hd => absurd hd List.not_mem_nil
    · exact fun d hd => hheld d (List.mem_cons_of_mem c hd)
  refine hgo.wake scd ?_ ?_ hwoken ?_
  · refine ⟨⟨(hheld c List.mem_cons_self).1.1, ?_⟩, (hheld c List.mem_cons_self).2⟩
    exact forall_update_task (P := fun _ u => u ≠ .addCtx c) (hheld c List.mem_cons_self).1.2
      Task.noConfusion
  · change (Function.update s.ctx c _ c).scheduler = none
    rw [Function.update_self]
    exact hscd
  · intro j hj
    change (Function.update s.task i (.closeLoop rest) j).Claims c at hj
    by_cases hji : j = i
    · rw [hji, Function.update_self] at hj
      exact hj
    · rw [Function.update_of_ne hji] at hj
      exact hji (huniq j hj)

theorem OnceInv.doRsp {p : DoRsp} {rest : List Nat} (h : OnceInv s)
    (hi : s.task i = .doRsp p c rest) :
    OnceInv ((s.doRsp c p).2.goto i (Task.afterRsp c rest (s.doRsp c p).1)) := by
  have hheld : ∀ d ∈ c :: rest, s.Gone d := by
    have hheld := h.held i
    rw [hi] at hheld
    exact hheld
  cases p with
  | load =>
      refine h.goto_afterRsp hheld ?_
      intro q hq hclaims
      cases hq
      exact absurd hclaims id
  | compareAndSwap scd =>
      by_cases hscd : (s.ctx c).scheduler = scd
      · simp only [AsyncSocketStream.doRsp, if_pos hscd]
        refine h.exchange hheld ?_
        intro q hq
        rw [hscd]
        cases scd with
        | none => cases hq
        | some d => exact Option.some_ne_none d
      · simp only [AsyncSocketStream.doRsp, if_neg hscd]
        refine h.goto_afterRsp hheld ?_
        intro q hq
        cases hq
  | cancelTimer scd =>
      simp only [AsyncSocketStream.doRsp]
      split
      · have hctx : OnceInv { s with
            armed := Function.update s.armed c false
            ctx := Function.update s.ctx c { s.ctx c with timer := false } } :=
          (h.disarm (c := c)).setCtx rfl rfl
        exact hctx.goto_afterRsp hheld fun _ _ _ => by
          change (s.task i).Claims c
          rw [hi]
          exact ⟨rfl, trivial⟩
      · exact h.goto_afterRsp hheld fun _ _ _ => by rw [hi]; exact ⟨rfl, trivial⟩
  | setResult scd =>
      simp only [AsyncSocketStream.doRsp]
      split
      · have hctx : OnceInv (s.setCtx c { s.ctx c with result := asyncTimeout }) :=
          h.setCtx rfl rfl
        exact hctx.goto_afterRsp hheld fun _ _ _ => by
          change (s.task i).Claims c
          rw [hi]
          exact ⟨rfl, trivial⟩
      · exact h.goto_afterRsp hheld fun _ _ _ => by rw [hi]; exact ⟨rfl, trivial⟩
  | schedule scd => exact h.schedule hi

/-- The points at which a coroutine neither uses a context nor holds one. -/
theorem OnceInv.goto_free (h : OnceInv s) (hadd : ∀ c, t ≠ .addCtx c) (htiming : t.timing = [])
    (hheld : t.held = []) (hclaims : ∀ c, ¬ t.Claims c) : OnceInv (s.goto i t) := by
  refine h.goto hadd ?_ ?_ fun d hd => absurd hd (hclaims d)
  · intro d hd
    rw [htiming] at hd
    cases hd
  · intro d hd
    rw [hheld] at hd
    cases hd

/-- A coroutine goes on with contexts that it holds, and claims none of them. -/
theorem OnceInv.goto_held (h : OnceInv s) (hadd : ∀ c, t ≠ .addCtx c) (htiming : t.timing = [])
    (hheld : ∀ d ∈ t.held, s.Gone d) (hclaims : ∀ c, ¬ t.Claims c) : OnceInv (s.goto i t) := by
  refine h.goto hadd ?_ hheld fun d hd => absurd hd (hclaims d)
  intro d hd
  rw [htiming] at hd
  cases hd

theorem OnceInv.task_step (h : OnceInv s) (hstep : s.taskStep i = some s') : OnceInv s' := by
  have htiming := h.timing i
  have hheld := h.held i
  unfold taskStep at hstep
  cases hi : s.task i with
  | idle => rw [hi] at hstep; cases hstep
  | addCtx c =>
      rw [hi] at hstep
      cases hstep
      exact h.addCtx hi
  | addTimer c =>
      rw [hi] at hstep htiming
      cases hstep
      exact (h.arm (htiming c List.mem_cons_self)).goto_free (fun _ => Task.noConfusion) rfl rfl
        fun _ => id
  | setTimer c =>
      rw [hi] at hstep
      cases hstep
      have hctx : OnceInv (s.setCtx c { s.ctx c with timer := true }) := h.setCtx rfl rfl
      exact hctx.goto_free (fun _ => Task.noConfusion) rfl rfl fun _ => id
  | enqueue ctx =>
      rw [hi] at hstep
      cases hstep
      have hq : OnceInv (s.enqueue ctx).2 := h.beside rfl rfl rfl rfl rfl rfl
      split
      · exact hq.goto_free (fun _ => Task.noConfusion) rfl rfl fun _ => id
      · exact hq.goto_free (fun _ => Task.noConfusion) rfl rfl fun _ => id
  | notify =>
      rw [hi] at hstep
      cases hstep
      exact h.notify.goto_free (fun _ => Task.noConfusion) rfl rfl fun _ => id
  | answer c result response =>
      rw [hi] at hstep hheld
      cases hstep
      have hctx : OnceInv (s.setCtx c
          { s.ctx c with result := result, response := some response }) := h.setCtx rfl rfl
      exact hctx.goto_held (fun _ => Task.noConfusion) rfl hheld fun _ hd => hd.2
  | eraseCtx c =>
      rw [hi] at hstep htiming
      cases hstep
      refine (h.eraseCtx _).goto_held (fun _ => Task.noConfusion) rfl ?_ fun _ => id
      intro d hd
      rw [List.mem_singleton.mp hd]
      exact h.erased (htiming c List.mem_cons_self)
  | setTimed c =>
      rw [hi] at hstep hheld
      cases hstep
      have hctx : OnceInv (s.setCtx c { s.ctx c with timed := true }) := h.setCtx rfl rfl
      exact hctx.goto_held (fun _ => Task.noConfusion) rfl hheld fun _ hd => hd.2
  | doRsp p c rest =>
      rw [hi] at hstep
      cases hstep
      exact h.doRsp hi
  | closeSocket =>
      rw [hi] at hstep
      cases hstep
      have hclosed : OnceInv { s with connected := false } := h.beside rfl rfl rfl rfl rfl rfl
      exact hclosed.goto_free (fun _ => Task.noConfusion) rfl rfl fun _ => id
  | closeNotify =>
      rw [hi] at hstep
      cases hstep
      exact h.notify.goto_free (fun _ => Task.noConfusion) rfl rfl fun _ => id
  | closeSwap => rw [hi] at hstep; cases hstep
  | clearQueue ctxs =>
      rw [hi] at hstep hheld
      cases hstep
      have hq : OnceInv { s with m_queue := [] } := h.beside rfl rfl rfl rfl rfl rfl
      exact hq.goto_held (fun _ => Task.noConfusion) rfl hheld fun _ => id
  | closeLoop ctxs =>
      rw [hi] at hstep hheld
      cases ctxs with
      | nil =>
          cases hstep
          exact h.goto_free (fun _ => Task.noConfusion) rfl rfl fun _ => id
      | cons c rest =>
          cases hstep
          have hctx : OnceInv (s.setCtx c { s.ctx c with result := asyncIoError }) :=
            h.setCtx rfl rfl
          exact hctx.goto_held (fun _ => Task.noConfusion) rfl hheld fun _ hd => hd.2

/-- `request` makes a context whose number no other has. -/
theorem OnceInv.request {v : Ctx} (h : OnceInv s)
    (hsn : ∀ c < s.count, (s.ctx c).sn ≠ v.sn) :
    OnceInv ({ s with
      ctx := Function.update s.ctx s.count v
      count := s.count + 1 }.goto i (.addCtx s.count)) := by
  generalize hs' : AsyncSocketStream.goto { s with
    ctx := Function.update s.ctx s.count v
    count := s.count + 1 } i (.addCtx s.count) = s'
  have hcount : s'.count = s.count + 1 := by rw [← hs']; rfl
  have htask : s'.task = Function.update s.task i (.addCtx s.count) := by rw [← hs']; rfl
  have hctxs : s'.m_ctxs = s.m_ctxs := by rw [← hs']; rfl
  have hwoken : s'.woken = s.woken := by rw [← hs']; rfl
  have harmed : s'.armed = s.armed := by rw [← hs']; rfl
  have hold : ∀ c < s.count, s'.ctx c = s.ctx c := by
    intro c hc
    rw [← hs']
    exact Function.update_of_ne (Nat.ne_of_lt hc) v s.ctx
  have hnew : s'.ctx s.count = v := by
    rw [← hs']
    exact Function.update_self s.count v s.ctx
  have hreg : ∀ c, s.Registered c → s'.Registered c := by
    intro c hc
    refine ⟨hcount ▸ Nat.lt_succ_of_lt hc.1, ?_⟩
    rw [htask]
    refine forall_update_task (P := fun _ u => u ≠ .addCtx c) hc.2 ?_
    intro he
    exact Nat.ne_of_lt hc.1 (Task.addCtx.inj he).symm
  have hgone : ∀ c, s.Gone c → s'.Gone c := by
    intro c hc
    refine ⟨hreg c hc.1, ?_⟩
    rw [hctxs]
    exact hc.2
  have hlt : ∀ j c, (s.task j).Claims c → c < s.count :=
    fun j c hj => (h.held j c (Task.Claims.held hj)).1.1
  have hclaims : ∀ j c, (s'.task j).Claims c → (s.task j).Claims c := by
    intro j c
    rw [htask]
    exact forall_update_task (P := fun j u => u.Claims c → (s.task j).Claims c)
      (fun _ => id) (fun hc => absurd hc id) j
  exact
    { entry := by
        intro sn c hl
        rw [hctxs] at hl
        obtain ⟨hc, heq⟩ := h.entry sn c hl
        rw [hold c hc.1]
        exact ⟨hreg c hc, heq⟩
      distinct := by
        intro c hc d hd heq
        rw [hcount, Nat.lt_succ_iff_lt_or_eq] at hc hd
        obtain hc | rfl := hc
        · obtain hd | rfl := hd
          · rw [hold c hc, hold d hd] at heq
            exact h.distinct c hc d hd heq
          · rw [hold c hc, hnew] at heq
            exact absurd heq (hsn c hc)
        · obtain hd | rfl := hd
          · rw [hold d hd, hnew] at heq
            exact absurd heq.symm (hsn d hd)
          · rfl
      adding := by
        intro j c hj
        rw [htask] at hj
        rw [hcount, htask]
        by_cases hji : j = i
        · rw [hji, Function.update_self] at hj
          have hc : s.count = c := Task.addCtx.inj hj
          refine ⟨hc ▸ Nat.lt_succ_self _, ?_⟩
          intro k hk
          by_cases hki : k = i
          · rw [hki, hji]
          · rw [Function.update_of_ne hki] at hk
            exact absurd (h.adding k c hk).1 (hc ▸ Nat.lt_irrefl _)
        · rw [Function.update_of_ne hji] at hj
          obtain ⟨hc, huniq⟩ := h.adding j c hj
          refine ⟨Nat.lt_succ_of_lt hc, ?_⟩
          intro k hk
          by_cases hki : k = i
          · rw [hki, Function.update_self] at hk
            exact absurd hc (Task.addCtx.inj hk ▸ Nat.lt_irrefl _)
          · rw [Function.update_of_ne hki] at hk
            exact huniq k hk
      armed := by
        intro c hc
        rw [harmed] at hc
        exact hreg c (h.armed c hc)
      timing := by
        rw [htask]
        refine forall_update_task (P := fun _ u => ∀ c ∈ u.timing, s'.Registered c) ?_ ?_
        · exact fun j c hc => hreg c (h.timing j c hc)
        · exact fun c hc => absurd hc List.not_mem_nil
      held := by
        rw [htask]
        refine forall_update_task (P := fun _ u => ∀ c ∈ u.held, s'.Gone c) ?_ ?_
        · exact fun j c hc => hgone c (h.held j c hc)
        · exact fun c hc => absurd hc List.not_mem_nil
      claimed := by
        intro j c hj
        obtain ⟨hscd, hnot, huniq⟩ := h.claimed j c (hclaims j c hj)
        rw [hold c (hlt j c (hclaims j c hj)), hwoken]
        exact ⟨hscd, hnot, fun k hk => huniq k (hclaims k c hk)⟩
      woken := by
        intro c hc
        rw [hwoken] at hc
        obtain ⟨hg, hscd⟩ := h.woken c hc
        rw [hold c hg.1.1]
        exact ⟨hgone c hg, hscd⟩
      once := hwoken ▸ h.once }

theorem spawn_some (h : s.spawn i t = some s') : s' = s.goto i t := by
  unfold spawn at h
  cases hi : s.task i with
  | idle =>
      rw [hi] at h
      exact (Option.some.inj h).symm
  | _ => rw [hi] at h; cases h

theorem OnceInv.swap {ctxs : List Nat} (h : OnceInv s)
    (hperm : ctxs.Perm (s.m_ctxs.entries.map Sigma.snd)) :
    OnceInv ({ s with m_ctxs := ∅ }.goto i (.clearQueue ctxs)) := by
  have m : Moves s { s with m_ctxs := ∅ } 0 (s.task 0) :=
    { task := (Function.update_eq_self 0 s.task).symm
      count := rfl
      sn := fun _ => rfl
      scheduler := fun _ => id
      m_ctxs := by
        intro sn c hl
        change AList.lookup sn (∅ : AList fun _ : UInt32 => Nat) = some c at hl
        rw [AList.lookup_empty] at hl
        cases hl
      scheduled := rfl }
  refine (h.data m h.armed).goto_held (fun _ => Task.noConfusion) rfl ?_ fun _ => id
  intro c hc
  obtain ⟨⟨sn, d⟩, hmem, hd⟩ := List.mem_map.mp (hperm.subset hc)
  have hd : d = c := hd
  have hl : s.m_ctxs.lookup sn = some c := by
    rw [← hd]
    exact AList.mem_lookup_iff.mpr hmem
  refine ⟨(h.entry sn c hl).1, ?_⟩
  intro sn' hl'
  change AList.lookup sn' (∅ : AList fun _ : UInt32 => Nat) = some c at hl'
  rw [AList.lookup_empty] at hl'
  cases hl'

theorem OnceInv.response {sn result : UInt32} {rsp : List UInt8} (h : OnceInv s)
    (hstep : s.exec (.response i sn result rsp) = some s') : OnceInv s' := by
  simp only [exec, getAndDelCtx] at hstep
  cases hl : s.m_ctxs.lookup sn with
  | none =>
      rw [hl] at hstep
      cases hstep
      exact h
  | some c =>
      rw [hl] at hstep
      obtain ⟨hreg, hsn⟩ := h.entry sn c hl
      rw [spawn_some hstep]
      refine (h.eraseCtx sn).goto_held (fun _ => Task.noConfusion) rfl ?_ fun _ => id
      intro d hd
      rw [List.mem_singleton.mp hd, ← hsn]
      exact h.erased hreg

/-- The writer touches neither the contexts nor the coroutines that answer them. -/
theorem OnceInv.writer_step (h : OnceInv s) (hstep : s.writerStep = some s') : OnceInv s' := by
  unfold writerStep at hstep
  cases hw : s.writer with
  | check =>
      rw [hw] at hstep
      cases hstep
      exact h.beside rfl rfl rfl rfl rfl rfl
  | wait =>
      rw [hw] at hstep
      cases hstep
      exact h.beside rfl rfl rfl rfl rfl rfl
  | held => rw [hw] at hstep; cases hstep
  | acquired =>
      rw [hw] at hstep
      cases hstep
      exact h.beside rfl rfl rfl rfl rfl rfl
  | writing ctxs =>
      rw [hw] at hstep
      cases ctxs with
      | nil =>
          cases hstep
          exact h.beside rfl rfl rfl rfl rfl rfl
      | cons ctx rest =>
          cases hstep
          exact h.beside rfl rfl rfl rfl rfl rfl
  | closing j =>
      simp only [hw] at hstep
      split at hstep
      · cases hstep
        exact h.beside rfl rfl rfl rfl rfl rfl
      · cases hstep
  | clear =>
      rw [hw] at hstep
      cases hstep
      exact h.beside rfl rfl rfl rfl rfl rfl
  | out => rw [hw] at hstep; cases hstep

theorem OnceInv.step {e : AsyncEvent} (h : OnceInv s) (he : DistinctSn s e)
    (hstep : s.exec e = some s') : OnceInv s' := by
  cases e with
  | start =>
      simp only [exec] at hstep
      split at hstep
      · cases hstep
        exact h.beside rfl rfl rfl rfl rfl rfl
      · cases hstep
  | request i sn req scd fiber =>
      simp only [exec] at hstep
      split at hstep
      · rw [spawn_some hstep]
        exact h.request he
      · cases hstep
  | sendMessage i msg =>
      simp only [exec] at hstep
      split at hstep
      · rw [spawn_some hstep]
        exact h.goto_free (fun _ => Task.noConfusion) rfl rfl fun _ => id
      · cases hstep
  | response i sn result rsp => exact h.response hstep
  | fire i c =>
      simp only [exec] at hstep
      split at hstep
      · rename_i harmed
        rw [spawn_some hstep]
        refine h.disarm.goto (fun _ => Task.noConfusion) ?_
          (fun d hd => absurd hd List.not_mem_nil) fun d hd => False.elim hd
        intro d hd
        rw [List.mem_singleton.mp hd]
        exact h.armed c harmed
      · cases hstep
  | shutdown =>
      cases hstep
      exact h.beside rfl rfl rfl rfl rfl rfl
  | innerClose i =>
      rw [spawn_some hstep]
      exact h.goto_free (fun _ => Task.noConfusion) rfl rfl fun _ => id
  | task i => exact h.task_step hstep
  | swap i ctxs =>
      simp only [exec] at hstep
      split at hstep
      · split at hstep
        · rename_i hperm
          cases hstep
          exact h.swap hperm
        · cases hstep
      · cases hstep
  | writer => exact h.writer_step hstep
  | sendFails i =>
      simp only [exec] at hstep
      split at hstep
      · rw [spawn_some hstep]
        have hw : OnceInv { s with writer := .closing i } := h.beside rfl rfl rfl rfl rfl rfl
        exact hw.goto_free (fun _ => Task.noConfusion) rfl rfl fun _ => id
      · cases hstep

theorem onceInv_init : OnceInv init where
  entry := by
    intro sn c hl
    change AList.lookup sn (∅ : AList fun _ : UInt32 => Nat) = some c at hl
    rw [AList.lookup_empty] at hl
    cases hl
  distinct := fun c hc => absurd hc (Nat.not_lt_zero c)
  adding := fun _ _ hi => Task.noConfusion hi
  armed := fun _ hc => Bool.noConfusion hc
  timing := fun _ c hc => absurd hc List.not_mem_nil
  held := fun _ c hc => absurd hc List.not_mem_nil
  claimed := fun _ _ hc => False.elim hc
  woken := fun c hc => absurd hc List.not_mem_nil
  once := List.nodup_nil

theorem run_once_inv {es : List AsyncEvent} {s : AsyncSocketStream}
    (h : (asyncSystem.restrict DistinctSn).Run es s) : OnceInv s := by
  refine h.invariant ?_ ?_
  · intro s₀ hinit
    rw [show s₀ = init from hinit]
    exact onceInv_init
  · intro s₁ e s₂ hs hstep
    exact hs.step hstep.1 hstep.2

/-- Only `schedule` of `doRsp` wakes a context, and it wakes the one it answers. -/
def WakesBy (s s' : AsyncSocketStream) : Prop :=
  s'.scheduled = s.scheduled ∨
    ∃ i scd c rest, s.task i = .doRsp (.schedule scd) c rest ∧
      s'.scheduled = s.scheduled ++ [(c, scd)]

theorem notify_scheduled (s : AsyncSocketStream) : s.notify.scheduled = s.scheduled := by
  unfold notify
  split <;> rfl

theorem addCtx_scheduled (s : AsyncSocketStream) (c : Nat) :
    (s.addCtx c).scheduled = s.scheduled := by
  unfold addCtx
  split <;> rfl

/-- A coroutine is spawned in a state that has woken what `s` has woken. -/
theorem spawn_wakes {s₁ : AsyncSocketStream} (h : s₁.spawn i t = some s')
    (hs : s₁.scheduled = s.scheduled) : WakesBy s s' := by
  left
  rw [spawn_some h]
  exact hs

theorem task_step_wakes (hstep : s.taskStep i = some s') : WakesBy s s' := by
  unfold taskStep at hstep
  split at hstep
  case h_2 c hi => cases hstep; exact .inl (addCtx_scheduled s c)
  case h_6 hi => cases hstep; exact .inl (notify_scheduled s)
  case h_10 p c rest hi =>
    cases hstep
    cases p with
    | schedule scd => exact .inr ⟨i, scd, c, rest, hi, rfl⟩
    | load => exact .inl rfl
    | compareAndSwap scd =>
        left
        simp only [doRsp]
        split <;> rfl
    | cancelTimer scd =>
        left
        simp only [doRsp]
        split <;> rfl
    | setResult scd =>
        left
        simp only [doRsp]
        split <;> rfl
  case h_12 hi => cases hstep; exact .inl (notify_scheduled s)
  all_goals first
    | cases hstep; exact .inl rfl
    | cases hstep

theorem writer_step_wakes (hstep : s.writerStep = some s') : WakesBy s s' := by
  unfold writerStep at hstep
  split at hstep
  case h_7 j hw =>
    split at hstep
    · cases hstep
      exact .inl rfl
    · cases hstep
  all_goals first
    | cases hstep; exact .inl rfl
    | cases hstep

theorem step_wakes {e : AsyncEvent} (hstep : s.exec e = some s') : WakesBy s s' := by
  cases e with
  | start =>
      simp only [exec] at hstep
      split at hstep
      · cases hstep
        exact .inl rfl
      · cases hstep
  | request i sn req scd fiber =>
      simp only [exec] at hstep
      split at hstep
      · exact spawn_wakes hstep rfl
      · cases hstep
  | sendMessage i msg =>
      simp only [exec] at hstep
      split at hstep
      · exact spawn_wakes hstep rfl
      · cases hstep
  | response i sn result rsp =>
      simp only [exec, getAndDelCtx] at hstep
      cases hl : s.m_ctxs.lookup sn with
      | none =>
          rw [hl] at hstep
          cases hstep
          exact .inl rfl
      | some c =>
          simp only [hl] at hstep
          exact spawn_wakes hstep rfl
  | fire i c =>
      simp only [exec] at hstep
      split at hstep
      · exact spawn_wakes hstep rfl
      · cases hstep
  | shutdown => cases hstep; exact .inl rfl
  | innerClose i => exact spawn_wakes hstep rfl
  | task i => exact task_step_wakes hstep
  | swap i ctxs =>
      simp only [exec] at hstep
      split at hstep
      · split at hstep
        · cases hstep
          exact .inl rfl
        · cases hstep
      · cases hstep
  | writer => exact writer_step_wakes hstep
  | sendFails i =>
      simp only [exec] at hstep
      split at hstep
      · exact spawn_wakes hstep rfl
      · cases hstep

/-- Each context is scheduled at most once, by a step before which it has left `m_ctxs`; it never
comes back, and a response that matches nothing in `m_ctxs`, or whose request was woken, changes
nothing. -/
theorem run_exactly_once {es : List AsyncEvent} {s : AsyncSocketStream}
    (h : (asyncSystem.restrict DistinctSn).Run es s) :
    s.woken.Nodup ∧
      (∀ c ∈ s.woken, ∀ sn, s.m_ctxs.lookup sn ≠ some c) ∧
      (∀ e s', s.exec e = some s' → ∀ c ∈ s'.woken, c ∉ s.woken →
        ∀ sn, s.m_ctxs.lookup sn ≠ some c) ∧
      (∀ i sn result rsp s', s.exec (.response i sn result rsp) = some s' →
        (s.m_ctxs.lookup sn = none ∨ ∃ c ∈ s.woken, (s.ctx c).sn = sn) → s' = s) := by
  have hinv := run_once_inv h
  refine ⟨hinv.once, fun c hc => (hinv.woken c hc).1.2, ?_, ?_⟩
  · intro e s' hstep c hc hnot
    obtain hsame | ⟨i, scd, d, rest, hi, hlog⟩ := step_wakes hstep
    · rw [woken, hsame] at hc
      exact absurd hc hnot
    · rw [woken, hlog, List.map_append, List.mem_append, List.map_singleton,
        List.mem_singleton] at hc
      have hcd : c = d := hc.resolve_left hnot
      have hheld := hinv.held i d (by rw [hi]; exact List.mem_cons_self)
      rw [hcd]
      exact hheld.2
  · intro i sn result rsp s' hstep hsn
    have hnone : s.m_ctxs.lookup sn = none := by
      obtain hnone | ⟨c, hc, hcsn⟩ := hsn
      · exact hnone
      · cases hl : s.m_ctxs.lookup sn with
        | none => rfl
        | some d =>
            obtain ⟨hreg, hdsn⟩ := hinv.entry sn d hl
            have hgone := (hinv.woken c hc).1
            have hdc : d = c := hinv.distinct d hreg.1 c hgone.1.1 (hdsn.trans hcsn.symm)
            exact absurd hl (hdc ▸ hgone.2 sn)
    simp only [exec, getAndDelCtx, hnone] at hstep
    exact (Option.some.inj hstep).symm

/-- A response and the time-out of one request race; the time-out loses the exchange, and a
second response finds nothing. -/
theorem run_exactly_once_race :
    ∃ s, (asyncSystem.restrict DistinctSn).Run
        [.start, .request 0 7 [1] 4 5, .task 0, .task 0, .fire 1 0, .response 2 7 0 [9],
          .task 1, .task 1, .task 2, .task 2, .task 1, .task 2, .task 1, .task 2, .task 2,
          .task 2] s ∧
      s.woken = [0] ∧ s.woken.Nodup ∧ (∀ c ∈ s.woken, ∀ sn, s.m_ctxs.lookup sn ≠ some c) ∧
      s.exec (.response 3 7 0 [9]) = some s := by
  have h₀ : (asyncSystem.restrict DistinctSn).Run [] init := .start rfl
  have h₁ := h₀.snoc (e := AsyncEvent.start) ⟨trivial, Eq.refl _⟩
  have h₂ := h₁.snoc (e := AsyncEvent.request 0 7 [1] 4 5)
    ⟨fun c hc => absurd hc (Nat.not_lt_zero c), Eq.refl _⟩
  have h₃ := h₂.snoc (e := AsyncEvent.task 0) ⟨trivial, Eq.refl _⟩
  have h₄ := h₃.snoc (e := AsyncEvent.task 0) ⟨trivial, Eq.refl _⟩
  have h₅ := h₄.snoc (e := AsyncEvent.fire 1 0) ⟨trivial, Eq.refl _⟩
  have h₆ := h₅.snoc (e := AsyncEvent.response 2 7 0 [9]) ⟨trivial, Eq.refl _⟩
  have h₇ := h₆.snoc (e := AsyncEvent.task 1) ⟨trivial, Eq.refl _⟩
  have h₈ := h₇.snoc (e := AsyncEvent.task 1) ⟨trivial, Eq.refl _⟩
  have h₉ := h₈.snoc (e := AsyncEvent.task 2) ⟨trivial, Eq.refl _⟩
  have h₁₀ := h₉.snoc (e := AsyncEvent.task 2) ⟨trivial, Eq.refl _⟩
  have h₁₁ := h₁₀.snoc (e := AsyncEvent.task 1) ⟨trivial, Eq.refl _⟩
  have h₁₂ := h₁₁.snoc (e := AsyncEvent.task 2) ⟨trivial, Eq.refl _⟩
  have h₁₃ := h₁₂.snoc (e := AsyncEvent.task 1) ⟨trivial, Eq.refl _⟩
  have h₁₄ := h₁₃.snoc (e := AsyncEvent.task 2) ⟨trivial, Eq.refl _⟩
  have h₁₅ := h₁₄.snoc (e := AsyncEvent.task 2) ⟨trivial, Eq.refl _⟩
  have h₁₆ := h₁₅.snoc (e := AsyncEvent.task 2) ⟨trivial, Eq.refl _⟩
  have hrun := run_exactly_once h₁₆
  exact ⟨_, h₁₆, rfl, hrun.1, hrun.2.1, rfl⟩

end AsyncSocketStream

end CIM
