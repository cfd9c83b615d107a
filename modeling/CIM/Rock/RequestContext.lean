import CIM.Rock.RockStream
import CIM.Streams.AsyncExactlyOnce

/-!
# The context of a request

A context has left `m_ctxs` before anybody writes to it, and who removed it alone writes to it
until its result is decided, as long as no timeout goes on with a context that it did not remove.
-/
namespace CIM

open Transition

/-- The contexts that a coroutine answers after the one it is at. -/
def Task.left : Task → List Nat
  | .doRsp _ _ rest => rest
  | .clearQueue ctxs | .closeLoop ctxs => ctxs
  | _ => []

/-- The contexts that a coroutine answers. -/
def Task.handed : Task → List Nat
  | .answer c _ _ => [c]
  | .doRsp _ c rest => c :: rest
  | .clearQueue ctxs | .closeLoop ctxs => ctxs
  | _ => []

/-- The coroutine is about to schedule the context. -/
def Task.Schedules (c : Nat) : Task → Prop
  | .doRsp (.schedule _) d _ => d = c
  | _ => False

theorem Task.left_handed {u : Task} {c : Nat} (h : c ∈ u.left) : c ∈ u.handed := by
  cases u with
  | doRsp p d rest => exact List.mem_cons_of_mem d h
  | clearQueue ctxs => exact h
  | closeLoop ctxs => exact h
  | _ => cases h

theorem Task.Schedules.claims {u : Task} {c : Nat} (h : u.Schedules c) : u.Claims c := by
  cases u with
  | doRsp p d rest =>
      cases p with
      | schedule scd => exact ⟨h, trivial⟩
      | _ => cases h
  | _ => cases h

theorem Task.Claims.rsp {u : Task} {c : Nat} (h : u.Claims c) : ∃ p rest, u = .doRsp p c rest := by
  cases u with
  | doRsp p d rest =>
      cases h.1
      exact ⟨p, rest, rfl⟩
  | _ => cases h

theorem Task.Claims.handed {u : Task} {c : Nat} (h : u.Claims c) : c ∈ u.handed := by
  obtain ⟨p, rest, rfl⟩ := h.rsp
  exact List.mem_cons_self

namespace RockStream

variable {s s' : RockStream} {i c : Nat} {t : Task}

/-- The result of a context can not change any more. -/
def Decided (s : RockStream) (c : Nat) : Prop :=
  c ∈ s.stream.woken ∨ ∃ i, (s.stream.task i).Schedules c

/-- A timeout callback goes on only with a context that a timeout removed or whose result is
decided, and no response that finds a context has the code of a timeout or of a close. -/
def Exclusive (s : RockStream) : RockEvent → Prop
  | .stream (.task i) =>
      ∀ c, s.stream.task i = .setTimed c → s.removed c = some .timeout ∨ s.Decided c
  | .stream (.response _ sn result _) =>
      s.stream.m_ctxs.lookup sn ≠ none → result ≠ asyncTimeout ∧ result ≠ asyncIoError
  | _ => True

/-- What a response, a timeout or a close may have done with the context so far. -/
structure Fits (s : RockStream) (c : Nat) : Prop where
  fresh : s.removed c = none → (∀ i, c ∉ (s.stream.task i).handed) ∧ c ∉ s.stream.woken ∧
    (s.stream.ctx c).response = none ∧ (s.stream.ctx c).timed = false
  entry : ∀ sn, s.stream.m_ctxs.lookup sn = some c → s.removed c = none ∧
    c < s.stream.count ∧ (∀ i, s.stream.task i ≠ .addCtx c) ∧ (s.stream.ctx c).sn = sn
  adding : ∀ i, s.stream.task i = .addCtx c → s.removed c = none ∧ c < s.stream.count ∧
    (∀ sn, s.stream.m_ctxs.lookup sn ≠ some c) ∧ ∀ j, s.stream.task j = .addCtx c → j = i
  beyond : s.stream.count ≤ c → s.removed c = none
  claimed : ∀ i, (s.stream.task i).Claims c → (s.stream.ctx c).scheduler = none ∧
    c ∉ s.stream.woken ∧ ∀ j, (s.stream.task j).Claims c → j = i
  woken : c ∈ s.stream.woken → (s.stream.ctx c).scheduler = none
  response : ∀ r rsp, s.removed c = some (.response r rsp) →
    (r ≠ asyncTimeout ∧ r ≠ asyncIoError) ∧
    (∀ i, c ∉ (s.stream.task i).left) ∧
    ((s.stream.ctx c).timed = true → s.Decided c) ∧
    (∀ i r' rsp', s.stream.task i = .answer c r' rsp' → (r' = r ∧ rsp' = rsp) ∧
      (s.assigned i = true → (s.stream.ctx c).result = r) ∧ c ∉ s.stream.woken ∧
      ∀ j, j ≠ i → c ∉ (s.stream.task j).handed) ∧
    (∀ i p rest, s.stream.task i = .doRsp p c rest →
      (s.stream.ctx c).result = r ∧ (s.stream.ctx c).response = some rsp) ∧
    (c ∈ s.stream.woken →
      (s.stream.ctx c).result = r ∧ (s.stream.ctx c).response = some rsp)
  timeout : s.removed c = some .timeout →
    (∀ i, c ∉ (s.stream.task i).left) ∧ (∀ i r rsp, s.stream.task i ≠ .answer c r rsp) ∧
    (s.stream.ctx c).response = none ∧
    (∀ i p rest, s.stream.task i = .doRsp p c rest → (s.stream.ctx c).timed = true) ∧
    (s.Decided c → (s.stream.ctx c).result = asyncTimeout)
  close : s.removed c = some .close →
    (∀ i r rsp, s.stream.task i ≠ .answer c r rsp) ∧ (s.stream.ctx c).response = none ∧
    ((s.stream.ctx c).timed = true → s.Decided c) ∧
    (∀ i p rest, s.stream.task i = .doRsp p c rest →
      (s.stream.ctx c).result = asyncIoError) ∧
    (c ∈ s.stream.woken → (s.stream.ctx c).result = asyncIoError)

/-! ## Steps beside a context -/

/-- The contexts differ in their fiber and their timer only. -/
structure SameFields (v w : Ctx) : Prop where
  sn : v.sn = w.sn
  result : v.result = w.result
  response : v.response = w.response
  timed : v.timed = w.timed
  scheduler : v.scheduler = w.scheduler

theorem SameFields.rfl {v : Ctx} : SameFields v v := ⟨.refl _, .refl _, .refl _, .refl _, .refl _⟩

/-- An update of another context. -/
theorem SameFields.update_of_ne {ctx : Nat → Ctx} {c d : Nat} {v : Ctx} (h : c ≠ d) :
    SameFields (Function.update ctx d v c) (ctx c) := by
  rw [Function.update_of_ne h]
  exact .rfl

/-- An update of the context itself, in other fields. -/
theorem SameFields.update_self {ctx : Nat → Ctx} {c : Nat} {v : Ctx} (h : SameFields v (ctx c)) :
    SameFields (Function.update ctx c v c) (ctx c) := by
  rwa [Function.update_self]

/-- A coroutine goes from `u` to `t` and does nothing for the context. -/
structure Passes (c : Nat) (u t : Task) : Prop where
  schedules : ¬u.Schedules c
  adds : t ≠ .addCtx c
  answers : ∀ r rsp, t ≠ .answer c r rsp
  rsp : ∀ p rest, t ≠ .doRsp p c rest
  left : c ∈ t.left → c ∈ u.left

/-- What a step of coroutine `i` leaves of a context that it does not answer. -/
structure Beside (s s' : RockStream) (i c : Nat) (t : Task) : Prop where
  task : s'.stream.task = Function.update s.stream.task i t
  assigned : ∀ j, j ≠ i → s'.assigned j = s.assigned j
  removed : s'.removed c = s.removed c
  woken : c ∈ s'.stream.woken ↔ c ∈ s.stream.woken
  count : s.stream.count ≤ s'.stream.count
  m_ctxs : ∀ sn, s'.stream.m_ctxs.lookup sn = some c → s.stream.m_ctxs.lookup sn = some c
  ctx : SameFields (s'.stream.ctx c) (s.stream.ctx c)
  passes : Passes c (s.stream.task i) t

/-- A coroutine at a later point of the context was there before. -/
theorem Beside.back (m : Beside s s' i c t) {P : Task → Prop} (ht : ¬P t) {j : Nat}
    (h : P (s'.stream.task j)) : j ≠ i ∧ P (s.stream.task j) := by
  have hne : j ≠ i := by
    rintro rfl
    rw [m.task, Function.update_self] at h
    exact ht h
  rw [m.task, Function.update_of_ne hne] at h
  exact ⟨hne, h⟩

theorem Beside.claims (m : Beside s s' i c t) {j : Nat} (h : (s'.stream.task j).Claims c) :
    (s.stream.task j).Claims c := by
  refine (m.back (P := Task.Claims c) ?_ h).2
  intro hw
  obtain ⟨p, rest, hp⟩ := hw.rsp
  exact m.passes.rsp p rest hp

theorem Beside.leaves (m : Beside s s' i c t) (h : ∀ j, c ∉ (s.stream.task j).left) (j : Nat) :
    c ∉ (s'.stream.task j).left := by
  rw [m.task]
  by_cases hj : j = i
  · rw [hj, Function.update_self]
    exact fun hc => h i (m.passes.left hc)
  · rw [Function.update_of_ne hj]
    exact h j

theorem Beside.hands (m : Beside s s' i c t) {j : Nat} (h : c ∉ (s.stream.task j).handed) :
    c ∉ (s'.stream.task j).handed := by
  rw [m.task]
  by_cases hj : j = i
  · subst hj
    rw [Function.update_self]
    intro hc
    cases t with
    | answer d r rsp =>
        cases List.mem_singleton.mp hc
        exact m.passes.answers r rsp rfl
    | doRsp p d rest =>
        rcases List.mem_cons.mp hc with rfl | hc
        · exact m.passes.rsp p rest rfl
        · exact h (Task.left_handed (m.passes.left hc))
    | clearQueue ctxs => exact h (Task.left_handed (m.passes.left hc))
    | closeLoop ctxs => exact h (Task.left_handed (m.passes.left hc))
    | _ => cases hc
  · rw [Function.update_of_ne hj]
    exact h

theorem Beside.decided (m : Beside s s' i c t) (h : s.Decided c) : s'.Decided c := by
  rcases h with h | ⟨j, hj⟩
  · exact .inl (m.woken.mpr h)
  · refine .inr ⟨j, ?_⟩
    have hne : j ≠ i := by
      rintro rfl
      exact m.passes.schedules hj
    rw [m.task, Function.update_of_ne hne]
    exact hj

theorem Beside.undecided (m : Beside s s' i c t) (h : s'.Decided c) : s.Decided c := by
  rcases h with h | ⟨j, hj⟩
  · exact .inl (m.woken.mp h)
  · refine .inr ⟨j, (m.back (P := Task.Schedules c) ?_ hj).2⟩
    intro hs
    obtain ⟨p, rest, hp⟩ := hs.claims.rsp
    exact m.passes.rsp p rest hp

theorem Fits.beside (h : Fits s c) (m : Beside s s' i c t) : Fits s' c where
  fresh := by
    rw [m.removed, m.ctx.response, m.ctx.timed]
    intro hnone
    obtain ⟨hhanded, hwoken, hrsp, htimed⟩ := h.fresh hnone
    exact ⟨fun j => m.hands (hhanded j), fun hw => hwoken (m.woken.mp hw), hrsp, htimed⟩
  entry := by
    intro sn hl
    obtain ⟨hnone, hlt, hadd, hsn⟩ := h.entry sn (m.m_ctxs sn hl)
    refine ⟨m.removed.trans hnone, Nat.lt_of_lt_of_le hlt m.count, ?_, m.ctx.sn.trans hsn⟩
    intro j hj
    exact hadd j (m.back (P := (· = .addCtx c)) m.passes.adds hj).2
  adding := by
    intro j hj
    obtain ⟨hnone, hlt, hentry, huniq⟩ :=
      h.adding j (m.back (P := (· = .addCtx c)) m.passes.adds hj).2
    refine ⟨m.removed.trans hnone, Nat.lt_of_lt_of_le hlt m.count,
      fun sn hl => hentry sn (m.m_ctxs sn hl), ?_⟩
    exact fun k hk => huniq k (m.back (P := (· = .addCtx c)) m.passes.adds hk).2
  beyond := fun hle => m.removed.trans (h.beyond (Nat.le_trans m.count hle))
  claimed := by
    intro j hj
    obtain ⟨hscd, hwoken, huniq⟩ := h.claimed j (m.claims hj)
    exact ⟨m.ctx.scheduler.trans hscd, fun hw => hwoken (m.woken.mp hw),
      fun k hk => huniq k (m.claims hk)⟩
  woken := fun hw => m.ctx.scheduler.trans (h.woken (m.woken.mp hw))
  response := by
    rw [m.removed, m.ctx.result, m.ctx.response, m.ctx.timed]
    intro r rsp hr
    obtain ⟨hcode, hleft, htimed, hanswer, hrsp, hwoken⟩ := h.response r rsp hr
    refine ⟨hcode, m.leaves hleft, fun ht => m.decided (htimed ht), ?_, ?_, ?_⟩
    · intro j r' rsp' hj
      obtain ⟨hne, hj⟩ := m.back (P := (· = .answer c r' rsp')) (m.passes.answers r' rsp') hj
      obtain ⟨heq, hassigned, hw, honly⟩ := hanswer j r' rsp' hj
      rw [m.assigned j hne]
      exact ⟨heq, hassigned, fun hw' => hw (m.woken.mp hw'), fun k hk => m.hands (honly k hk)⟩
    · intro j p rest hj
      exact hrsp j p rest (m.back (P := (· = .doRsp p c rest)) (m.passes.rsp p rest) hj).2
    · exact fun hw => hwoken (m.woken.mp hw)
  timeout := by
    rw [m.removed, m.ctx.result, m.ctx.response, m.ctx.timed]
    intro hr
    obtain ⟨hleft, hanswer, hresponse, hrsp, hdecided⟩ := h.timeout hr
    refine ⟨m.leaves hleft, ?_, hresponse, ?_, fun hd => hdecided (m.undecided hd)⟩
    · intro j r rsp hj
      exact hanswer j r rsp (m.back (P := (· = .answer c r rsp)) (m.passes.answers r rsp) hj).2
    · intro j p rest hj
      exact hrsp j p rest (m.back (P := (· = .doRsp p c rest)) (m.passes.rsp p rest) hj).2
  close := by
    rw [m.removed, m.ctx.result, m.ctx.response, m.ctx.timed]
    intro hr
    obtain ⟨hanswer, hresponse, htimed, hrsp, hwoken⟩ := h.close hr
    refine ⟨?_, hresponse, fun ht => m.decided (htimed ht), ?_, fun hw => hwoken (m.woken.mp hw)⟩
    · intro j r rsp hj
      exact hanswer j r rsp (m.back (P := (· = .answer c r rsp)) (m.passes.answers r rsp) hj).2
    · intro j p rest hj
      exact hrsp j p rest (m.back (P := (· = .doRsp p c rest)) (m.passes.rsp p rest) hj).2

/-- A step of the stream at a coroutine that passes the context. -/
theorem Fits.stream (h : Fits s c) {stream : AsyncSocketStream}
    (htask : stream.task = Function.update s.stream.task i t)
    (hcount : stream.count = s.stream.count) (hscheduled : stream.scheduled = s.stream.scheduled)
    (hm : ∀ sn, stream.m_ctxs.lookup sn = some c → s.stream.m_ctxs.lookup sn = some c)
    (hctx : SameFields (stream.ctx c) (s.stream.ctx c)) (hpasses : Passes c (s.stream.task i) t) :
    Fits { s with stream := stream } c :=
  h.beside
    { task := htask
      assigned := fun _ _ => rfl
      removed := rfl
      woken := by rw [AsyncSocketStream.woken, AsyncSocketStream.woken, hscheduled]
      count := Nat.le_of_eq hcount.symm
      m_ctxs := hm
      ctx := hctx
      passes := hpasses }

/-- What the invariant speaks of is the same. -/
theorem Fits.same (h : Fits s c) {stream : AsyncSocketStream}
    (htask : stream.task = s.stream.task) (hctx : stream.ctx = s.stream.ctx)
    (hm : stream.m_ctxs = s.stream.m_ctxs) (hcount : stream.count = s.stream.count)
    (hscheduled : stream.scheduled = s.stream.scheduled) : Fits { s with stream := stream } c := by
  obtain ⟨⟨⟩, assigned, result, response, removed⟩ := s
  cases stream
  subst htask hctx hm hcount hscheduled
  exact ⟨h.fresh, h.entry, h.adding, h.beyond, h.claimed, h.woken, h.response, h.timeout, h.close⟩

/-! ## The contexts of a step -/

theorem Fits.of_fresh (hnone : s.removed c = none) (hhanded : ∀ i, c ∉ (s.stream.task i).handed)
    (hwoken : c ∉ s.stream.woken) (hresponse : (s.stream.ctx c).response = none)
    (htimed : (s.stream.ctx c).timed = false)
    (hentry : ∀ sn, s.stream.m_ctxs.lookup sn = some c → c < s.stream.count ∧
      (∀ i, s.stream.task i ≠ .addCtx c) ∧ (s.stream.ctx c).sn = sn)
    (hadding : ∀ i, s.stream.task i = .addCtx c → c < s.stream.count ∧
      (∀ sn, s.stream.m_ctxs.lookup sn ≠ some c) ∧ ∀ j, s.stream.task j = .addCtx c → j = i) :
    Fits s c where
  fresh := fun _ => ⟨hhanded, hwoken, hresponse, htimed⟩
  entry := fun sn hl => ⟨hnone, hentry sn hl⟩
  adding := fun i hi => ⟨hnone, hadding i hi⟩
  beyond := fun _ => hnone
  claimed := fun i hi => absurd hi.handed (hhanded i)
  woken := fun hw => absurd hw hwoken
  response := by
    intro r rsp hr
    rw [hnone] at hr
    cases hr
  timeout := by
    intro hr
    rw [hnone] at hr
    cases hr
  close := by
    intro hr
    rw [hnone] at hr
    cases hr

/-- A point before which and after which a coroutine is not at. -/
theorem at_update {f : Nat → Task} {P : Task → Prop} (ht : ¬P t) {j : Nat}
    (h : P (Function.update f i t j)) : j ≠ i ∧ P (f j) := by
  have hne : j ≠ i := by
    rintro rfl
    rw [Function.update_self] at h
    exact ht h
  rw [Function.update_of_ne hne] at h
  exact ⟨hne, h⟩

/-- A context that nobody was handed is removed. -/
theorem Fits.leave (h : Fits s c) (rm : Removal) (hnone : s.removed c = none)
    (hlt : c < s.stream.count) (hadding : ∀ j, s.stream.task j ≠ .addCtx c)
    (htask : s'.stream.task = Function.update s.stream.task i t)
    (hremoved : s'.removed c = some rm) (hm : ∀ sn, s'.stream.m_ctxs.lookup sn ≠ some c)
    (hctx : SameFields (s'.stream.ctx c) (s.stream.ctx c))
    (hscheduled : s'.stream.scheduled = s.stream.scheduled)
    (hcount : s'.stream.count = s.stream.count)
    (hassigned : ∀ r rsp, t = .answer c r rsp → s'.assigned i = false)
    (hadd : t ≠ .addCtx c) (hrsp : ∀ p rest, t ≠ .doRsp p c rest)
    (hleft : c ∈ t.left → rm = .close)
    (hanswer : ∀ r rsp, t = .answer c r rsp → rm = .response r rsp)
    (hcode : ∀ r rsp, rm = .response r rsp → r ≠ asyncTimeout ∧ r ≠ asyncIoError) :
    Fits s' c := by
  obtain ⟨hhanded, hwoken, hresponse, htimed⟩ := h.fresh hnone
  have hwoken' : c ∉ s'.stream.woken := by
    rw [AsyncSocketStream.woken, hscheduled]
    exact hwoken
  have hnorsp : ∀ j p rest, s'.stream.task j ≠ .doRsp p c rest := by
    intro j p rest hj
    rw [htask] at hj
    obtain ⟨-, hj⟩ := at_update (P := (· = .doRsp p c rest)) (hrsp p rest) hj
    exact hhanded j (hj ▸ List.mem_cons_self)
  have hans : ∀ j r rsp, s'.stream.task j = .answer c r rsp → j = i ∧ t = .answer c r rsp := by
    intro j r rsp hj
    rw [htask] at hj
    by_cases hji : j = i
    · rw [hji, Function.update_self] at hj
      exact ⟨hji, hj⟩
    · rw [Function.update_of_ne hji] at hj
      exact absurd (hj ▸ List.mem_singleton_self c) (hhanded j)
  have hleaves : rm ≠ .close → ∀ j, c ∉ (s'.stream.task j).left := by
    intro hne j hj
    rw [htask] at hj
    obtain ⟨-, hj⟩ := at_update (P := fun u => c ∈ u.left) (fun hc => hne (hleft hc)) hj
    exact hhanded j (Task.left_handed hj)
  have hundecided : ¬s'.Decided c := by
    rintro (hw | ⟨j, hj⟩)
    · exact hwoken' hw
    · obtain ⟨p, rest, hp⟩ := hj.claims.rsp
      exact hnorsp j p rest hp
  refine ⟨?_, fun sn hl => absurd hl (hm sn), ?_, ?_, ?_, fun hw => absurd hw hwoken', ?_, ?_, ?_⟩
  · intro hr
    rw [hremoved] at hr
    cases hr
  · intro j hj
    rw [htask] at hj
    exact absurd (at_update (P := (· = .addCtx c)) hadd hj).2 (hadding j)
  · intro hle
    rw [hcount] at hle
    exact absurd hlt (Nat.not_lt_of_le hle)
  · intro j hj
    obtain ⟨p, rest, hp⟩ := hj.rsp
    exact absurd hp (hnorsp j p rest)
  · intro r rsp hr
    rw [hremoved, Option.some.injEq] at hr
    have hopen : rm ≠ .close := by
      rw [hr]
      rintro ⟨⟩
    refine ⟨hcode r rsp hr, hleaves hopen, ?_, ?_, ?_, fun hw => absurd hw hwoken'⟩
    · rw [hctx.timed, htimed]
      rintro ⟨⟩
    · intro j r' rsp' hj
      obtain ⟨rfl, ht⟩ := hans j r' rsp' hj
      have heq := (hanswer r' rsp' ht).symm.trans hr
      rw [Removal.response.injEq] at heq
      refine ⟨heq, ?_, hwoken', ?_⟩
      · rw [hassigned r' rsp' ht]
        rintro ⟨⟩
      · intro k hk
        rw [htask, Function.update_of_ne hk]
        exact hhanded k
    · exact fun j p rest hj => absurd hj (hnorsp j p rest)
  · intro hr
    rw [hremoved, Option.some.injEq] at hr
    refine ⟨hleaves ?_, ?_, hctx.response.trans hresponse, ?_, fun hd => absurd hd hundecided⟩
    · rw [hr]
      rintro ⟨⟩
    · intro j r rsp hj
      have heq := hanswer r rsp (hans j r rsp hj).2
      rw [hr] at heq
      cases heq
    · exact fun j p rest hj => absurd hj (hnorsp j p rest)
  · intro hr
    rw [hremoved, Option.some.injEq] at hr
    refine ⟨?_, hctx.response.trans hresponse, ?_, ?_, fun hw => absurd hw hwoken'⟩
    · intro j r rsp hj
      have heq := hanswer r rsp (hans j r rsp hj).2
      rw [hr] at heq
      cases heq
    · rw [hctx.timed, htimed]
      rintro ⟨⟩
    · exact fun j p rest hj => absurd hj (hnorsp j p rest)

/-! ## Answering a context -/

/-- What holds of a context while a coroutine is in its `doRsp`. -/
structure Answered (s : RockStream) (c : Nat) : Prop where
  removed : s.removed c ≠ none
  assigned : ∀ j r rsp, s.stream.task j ≠ .answer c r rsp
  response : ∀ r rsp, s.removed c = some (.response r rsp) →
    ((s.stream.ctx c).timed = true → s.Decided c) ∧
    (s.stream.ctx c).result = r ∧ (s.stream.ctx c).response = some rsp
  timeout : s.removed c = some .timeout → (s.stream.ctx c).timed = true ∧
    (s.Decided c → (s.stream.ctx c).result = asyncTimeout) ∧ (s.stream.ctx c).response = none
  close : s.removed c = some .close →
    ((s.stream.ctx c).timed = true → s.Decided c) ∧
    (s.stream.ctx c).result = asyncIoError ∧ (s.stream.ctx c).response = none

theorem Fits.answered (h : Fits s c) {p : DoRsp} {rest : List Nat}
    (hi : s.stream.task i = .doRsp p c rest) : Answered s c where
  removed := fun hnone => (h.fresh hnone).1 i (hi ▸ List.mem_cons_self)
  assigned := by
    intro j r rsp hj
    cases hr : s.removed c with
    | none => exact (h.fresh hr).1 i (hi ▸ List.mem_cons_self)
    | some rm =>
        cases rm with
        | response r' rsp' =>
            obtain ⟨-, -, -, hanswer, -⟩ := h.response r' rsp' hr
            have hne : i ≠ j := by
              rintro rfl
              rw [hi] at hj
              cases hj
            exact (hanswer j r rsp hj).2.2.2 i hne (hi ▸ List.mem_cons_self)
        | timeout => exact (h.timeout hr).2.1 j r rsp hj
        | close => exact (h.close hr).1 j r rsp hj
  response := by
    intro r rsp hr
    obtain ⟨-, -, htimed, -, hrsp, -⟩ := h.response r rsp hr
    exact ⟨htimed, hrsp i p rest hi⟩
  timeout := by
    intro hr
    obtain ⟨-, -, hresponse, hrsp, hdecided⟩ := h.timeout hr
    exact ⟨hrsp i p rest hi, hdecided, hresponse⟩
  close := by
    intro hr
    obtain ⟨-, hresponse, htimed, hrsp, -⟩ := h.close hr
    exact ⟨htimed, hrsp i p rest hi, hresponse⟩

/-- A step of coroutine `i` for a context, after which the context is as in `doRsp`. -/
theorem Answered.fits (ha : Answered s' c) (h : Fits s c)
    (htask : s'.stream.task = Function.update s.stream.task i t)
    (hremoved : s'.removed = s.removed) (hm : s'.stream.m_ctxs = s.stream.m_ctxs)
    (hcount : s'.stream.count = s.stream.count) (hadd : t ≠ .addCtx c)
    (hleft : c ∈ t.left → c ∈ (s.stream.task i).left)
    (hclaims : ∀ j, (s'.stream.task j).Claims c → (s'.stream.ctx c).scheduler = none ∧
      c ∉ s'.stream.woken ∧ ∀ k, (s'.stream.task k).Claims c → k = j)
    (hwoken : c ∈ s'.stream.woken → (s'.stream.ctx c).scheduler = none) : Fits s' c := by
  have hrm : s.removed c ≠ none := hremoved ▸ ha.removed
  have hleaves : (∀ j, c ∉ (s.stream.task j).left) → ∀ j, c ∉ (s'.stream.task j).left := by
    intro hold j hj
    rw [htask] at hj
    exact hold j (at_update (P := fun u => c ∈ u.left) (fun hc => hold i (hleft hc)) hj).2
  refine ⟨fun hnone => absurd hnone ha.removed, ?_, ?_, ?_, hclaims, hwoken, ?_, ?_, ?_⟩
  · intro sn hl
    rw [hm] at hl
    exact absurd (h.entry sn hl).1 hrm
  · intro j hj
    rw [htask] at hj
    exact absurd (h.adding j (at_update (P := (· = .addCtx c)) hadd hj).2).1 hrm
  · intro hle
    rw [hcount] at hle
    exact absurd (h.beyond hle) hrm
  · intro r rsp hr
    obtain ⟨htimed, hvalues⟩ := ha.response r rsp hr
    rw [hremoved] at hr
    obtain ⟨hcode, hold, -⟩ := h.response r rsp hr
    exact ⟨hcode, hleaves hold, htimed, fun j r' rsp' hj => absurd hj (ha.assigned j r' rsp'),
      fun _ _ _ _ => hvalues, fun _ => hvalues⟩
  · intro hr
    obtain ⟨htimed, hdecided, hresponse⟩ := ha.timeout hr
    rw [hremoved] at hr
    obtain ⟨hold, -⟩ := h.timeout hr
    exact ⟨hleaves hold, ha.assigned, hresponse, fun _ _ _ _ => htimed, hdecided⟩
  · intro hr
    obtain ⟨htimed, hresult, hresponse⟩ := ha.close hr
    exact ⟨ha.assigned, hresponse, htimed, fun _ _ _ _ => hresult, fun _ => hresult⟩

/-- The values that a decided context has. -/
theorem Fits.decided (h : Fits s c) (hd : s.Decided c) :
    (∀ r rsp, s.removed c = some (.response r rsp) →
      (s.stream.ctx c).result = r ∧ (s.stream.ctx c).response = some rsp) ∧
    (s.removed c = some .timeout →
      (s.stream.ctx c).result = asyncTimeout ∧ (s.stream.ctx c).response = none) ∧
    (s.removed c = some .close →
      (s.stream.ctx c).result = asyncIoError ∧ (s.stream.ctx c).response = none) ∧
    s.removed c ≠ none ∧ ∀ j r rsp, s.stream.task j ≠ .answer c r rsp := by
  rcases hd with hw | ⟨j, hj⟩
  · refine ⟨fun r rsp hr => (h.response r rsp hr).2.2.2.2.2 hw,
      fun hr => ⟨(h.timeout hr).2.2.2.2 (.inl hw), (h.timeout hr).2.2.1⟩,
      fun hr => ⟨(h.close hr).2.2.2.2 hw, (h.close hr).2.1⟩, fun hr => (h.fresh hr).2.1 hw, ?_⟩
    intro j r rsp hj
    cases hr : s.removed c with
    | none => exact (h.fresh hr).2.1 hw
    | some rm =>
        cases rm with
        | response r' rsp' => exact ((h.response r' rsp' hr).2.2.2.1 j r rsp hj).2.2.1 hw
        | timeout => exact (h.timeout hr).2.1 j r rsp hj
        | close => exact (h.close hr).1 j r rsp hj
  · obtain ⟨p, rest, hp⟩ := hj.claims.rsp
    have ha := h.answered hp
    exact ⟨fun r rsp hr => (ha.response r rsp hr).2,
      fun hr => ⟨(ha.timeout hr).2.1 (.inr ⟨j, hj⟩), (ha.timeout hr).2.2⟩,
      fun hr => (ha.close hr).2, ha.removed, ha.assigned⟩

/-- A step of coroutine `i` that makes, removes and wakes no context. -/
structure Moves (s s' : RockStream) (i : Nat) (t : Task) : Prop where
  task : s'.stream.task = Function.update s.stream.task i t
  scheduled : s'.stream.scheduled = s.stream.scheduled
  removed : s'.removed = s.removed
  m_ctxs : s'.stream.m_ctxs = s.stream.m_ctxs
  count : s'.stream.count = s.stream.count

theorem Moves.decided (m : Moves s s' i t) (hi : ¬(s.stream.task i).Schedules c)
    (ht : ¬t.Schedules c) : s'.Decided c ↔ s.Decided c := by
  unfold Decided AsyncSocketStream.woken
  rw [m.scheduled, m.task]
  refine or_congr_right ⟨?_, ?_⟩
  · rintro ⟨j, hj⟩
    exact ⟨j, (at_update ht hj).2⟩
  · rintro ⟨j, hj⟩
    refine ⟨j, ?_⟩
    have hne : j ≠ i := by
      rintro rfl
      exact hi hj
    rw [Function.update_of_ne hne]
    exact hj

/-- A step of a coroutine that does not come to claim a context. -/
theorem Fits.claims_moves (h : Fits s c) (m : Moves s s' i t)
    (hscheduler : (s.stream.ctx c).scheduler = none → (s'.stream.ctx c).scheduler = none)
    (ht : t.Claims c → (s.stream.task i).Claims c) (j : Nat) (hj : (s'.stream.task j).Claims c) :
    (s'.stream.ctx c).scheduler = none ∧ c ∉ s'.stream.woken ∧
      ∀ k, (s'.stream.task k).Claims c → k = j := by
  have hback : ∀ k, (s'.stream.task k).Claims c → (s.stream.task k).Claims c := by
    intro k hk
    rw [m.task] at hk
    by_cases hki : k = i
    · rw [hki, Function.update_self] at hk
      exact hki ▸ ht hk
    · rw [Function.update_of_ne hki] at hk
      exact hk
  obtain ⟨hscd, hwoken, huniq⟩ := h.claimed j (hback j hj)
  rw [AsyncSocketStream.woken, m.scheduled]
  exact ⟨hscheduler hscd, hwoken, fun k hk => huniq k (hback k hk)⟩

/-- A step of a coroutine that goes on to answer the context, and does not come to claim it. -/
theorem Answered.moves (ha : Answered s' c) (h : Fits s c) (m : Moves s s' i t)
    (hadd : t ≠ .addCtx c) (hleft : c ∈ t.left → c ∈ (s.stream.task i).left)
    (hscheduler : (s.stream.ctx c).scheduler = none → (s'.stream.ctx c).scheduler = none)
    (ht : t.Claims c → (s.stream.task i).Claims c) : Fits s' c := by
  refine ha.fits h m.task m.removed m.m_ctxs m.count hadd hleft (h.claims_moves m hscheduler ht) ?_
  rw [AsyncSocketStream.woken, m.scheduled]
  exact fun hw => hscheduler (h.woken hw)

theorem Moves.answers (m : Moves s s' i t) (ht : ∀ r rsp, t ≠ .answer c r rsp)
    (h : ∀ j r rsp, s.stream.task j ≠ .answer c r rsp) (j : Nat) (r : UInt32) (rsp : List UInt8) :
    s'.stream.task j ≠ .answer c r rsp := by
  intro hj
  rw [m.task] at hj
  exact h j r rsp (at_update (P := (· = .answer c r rsp)) (ht r rsp) hj).2

theorem Fits.setTimed (h : Fits s c) (hi : s.stream.task i = .setTimed c)
    (hexclusive : s.removed c = some .timeout ∨ s.Decided c)
    (m : Moves s s' i (.doRsp .load c []))
    (hctx : s'.stream.ctx c = { s.stream.ctx c with timed := true }) : Fits s' c := by
  have hdecided : s'.Decided c ↔ s.Decided c := m.decided (by rw [hi]; exact id) id
  have hother : s.removed c ≠ some .timeout → s.Decided c := hexclusive.resolve_left
  have ha : Answered s' c := by
    refine ⟨?_, m.answers (fun _ _ h => nomatch h) ?_, ?_, ?_, ?_⟩
    · rw [m.removed]
      rcases hexclusive with hr | hd
      · rw [hr]
        exact Option.some_ne_none _
      · exact (h.decided hd).2.2.2.1
    · rcases hexclusive with hr | hd
      · exact (h.timeout hr).2.1
      · exact (h.decided hd).2.2.2.2
    · intro r rsp hr
      rw [m.removed] at hr
      have hd := hother (by rw [hr]; exact fun h => nomatch h)
      rw [hctx]
      exact ⟨fun _ => hdecided.mpr hd, (h.decided hd).1 r rsp hr⟩
    · intro hr
      rw [m.removed] at hr
      rw [hctx]
      exact ⟨rfl, fun hd => (h.timeout hr).2.2.2.2 (hdecided.mp hd), (h.timeout hr).2.2.1⟩
    · intro hr
      rw [m.removed] at hr
      have hd := hother (by rw [hr]; exact fun h => nomatch h)
      rw [hctx]
      exact ⟨fun _ => hdecided.mpr hd, (h.decided hd).2.2.1 hr⟩
  refine ha.moves h m (fun h => nomatch h) (fun h => nomatch h) ?_ fun h => nomatch h
  rw [hctx]
  exact id

/-- Nobody but the reader's coroutine has a context that it is to answer. -/
theorem Fits.answer (h : Fits s c) {r : UInt32} {rsp : List UInt8}
    (hi : s.stream.task i = .answer c r rsp) : s.removed c = some (.response r rsp) ∧
      c ∉ s.stream.woken ∧ (s.assigned i = true → (s.stream.ctx c).result = r) ∧
      ∀ j, j ≠ i → c ∉ (s.stream.task j).handed := by
  cases hr : s.removed c with
  | none =>
      have hmem : c ∈ (s.stream.task i).handed := hi ▸ List.mem_singleton_self c
      exact absurd hmem ((h.fresh hr).1 i)
  | some rm =>
      cases rm with
      | response r' rsp' =>
          obtain ⟨⟨rfl, rfl⟩, hassigned, hwoken, honly⟩ :=
            (h.response r' rsp' hr).2.2.2.1 i r rsp hi
          exact ⟨rfl, hwoken, hassigned, honly⟩
      | timeout => exact absurd hi ((h.timeout hr).2.1 i r rsp)
      | close => exact absurd hi ((h.close hr).1 i r rsp)

theorem Fits.assignResult (h : Fits s c) {r : UInt32} {rsp : List UInt8}
    (hi : s.stream.task i = .answer c r rsp) :
    Fits { s with
      stream := s.stream.setCtx c { s.stream.ctx c with result := r }
      assigned := Function.update s.assigned i true } c := by
  obtain ⟨hr, hwoken, -, honly⟩ := h.answer hi
  have hself : Function.update s.stream.ctx c { s.stream.ctx c with result := r } c =
      { s.stream.ctx c with result := r } := Function.update_self _ _ _
  have hscheduler : (Function.update s.stream.ctx c { s.stream.ctx c with result := r } c).scheduler
      = (s.stream.ctx c).scheduler := by rw [hself]
  refine ⟨fun hnone => ?_, ?_, h.adding, h.beyond, ?_, fun hw => absurd hw hwoken, ?_, ?_, ?_⟩
  · rw [hr] at hnone
    cases hnone
  · intro sn hl
    have hnone := (h.entry sn hl).1
    rw [hr] at hnone
    cases hnone
  · intro j hj
    obtain ⟨hscd, hrest⟩ := h.claimed j hj
    exact ⟨hscheduler.trans hscd, hrest⟩
  · intro r' rsp' hr'
    have heq := hr.symm.trans hr'
    rw [Option.some.injEq, Removal.response.injEq] at heq
    obtain ⟨rfl, rfl⟩ := heq
    obtain ⟨hcode, hleft, htimed, hanswer, -⟩ := h.response r rsp hr
    refine ⟨hcode, hleft, ?_, ?_, ?_, fun hw => absurd hw hwoken⟩
    · change (Function.update s.stream.ctx c { s.stream.ctx c with result := r } c).timed = true → _
      rw [hself]
      exact htimed
    · intro j r' rsp' hj
      refine ⟨(hanswer j r' rsp' hj).1, fun _ => ?_, (hanswer j r' rsp' hj).2.2⟩
      change (Function.update s.stream.ctx c { s.stream.ctx c with result := r } c).result = r
      rw [hself]
    · intro j p rest hj
      have hj' : s.stream.task j = .doRsp p c rest := hj
      have hne : j ≠ i := by
        rintro rfl
        rw [hi] at hj'
        cases hj'
      exact absurd (hj' ▸ List.mem_cons_self) (honly j hne)
  · intro hr'
    cases hr.symm.trans hr'
  · intro hr'
    cases hr.symm.trans hr'

theorem Fits.assignResponse (h : Fits s c) {r : UInt32} {rsp : List UInt8}
    (hi : s.stream.task i = .answer c r rsp) (hassigned : s.assigned i = true)
    (m : Moves s s' i (.doRsp .load c []))
    (hctx : s'.stream.ctx c = { s.stream.ctx c with response := some rsp }) : Fits s' c := by
  obtain ⟨hr, hwoken, hresult, honly⟩ := h.answer hi
  have hundecided : ¬s.Decided c := by
    rintro (hw | ⟨j, hj⟩)
    · exact hwoken hw
    · have hne : j ≠ i := by
        rintro rfl
        rw [hi] at hj
        exact hj
      exact honly j hne hj.claims.handed
  have ha : Answered s' c := by
    refine ⟨?_, ?_, ?_, ?_, ?_⟩
    · rw [m.removed, hr]
      exact Option.some_ne_none _
    · intro j r' rsp' hj
      rw [m.task] at hj
      obtain ⟨hne, hj⟩ := at_update (t := .doRsp .load c []) (P := (· = .answer c r' rsp'))
        (fun h => nomatch h) hj
      exact honly j hne (hj ▸ List.mem_singleton_self c)
    · intro r' rsp' hr'
      rw [m.removed, hr, Option.some.injEq, Removal.response.injEq] at hr'
      obtain ⟨rfl, rfl⟩ := hr'
      rw [hctx]
      exact ⟨fun ht => absurd ((h.response r rsp hr).2.2.1 ht) hundecided, hresult hassigned, rfl⟩
    · intro hr'
      rw [m.removed, hr] at hr'
      cases hr'
    · intro hr'
      rw [m.removed, hr] at hr'
      cases hr'
  refine ha.moves h m (fun h => nomatch h) (fun h => nomatch h) ?_ fun h => nomatch h
  rw [hctx]
  exact id

/-- A context that a coroutine is still to answer was removed by a close. -/
theorem Fits.closed (h : Fits s c) (hi : c ∈ (s.stream.task i).left) :
    s.removed c = some .close := by
  cases hr : s.removed c with
  | none => exact absurd (Task.left_handed hi) ((h.fresh hr).1 i)
  | some rm =>
      cases rm with
      | response r rsp => exact absurd hi ((h.response r rsp hr).2.1 i)
      | timeout => exact absurd hi ((h.timeout hr).1 i)
      | close => rfl

theorem Fits.closeLoop (h : Fits s c) {rest : List Nat}
    (hi : s.stream.task i = .closeLoop (c :: rest)) (m : Moves s s' i (.doRsp .load c rest))
    (hctx : s'.stream.ctx c = { s.stream.ctx c with result := asyncIoError }) : Fits s' c := by
  have hr := h.closed (i := i) (hi ▸ List.mem_cons_self)
  obtain ⟨hanswer, hresponse, htimed, -, -⟩ := h.close hr
  have hdecided : s'.Decided c ↔ s.Decided c := m.decided (by rw [hi]; exact id) id
  have ha : Answered s' c := by
    refine ⟨?_, m.answers (fun _ _ h => nomatch h) hanswer, ?_, ?_, ?_⟩
    · rw [m.removed, hr]
      exact Option.some_ne_none _
    · intro r rsp hr'
      rw [m.removed, hr] at hr'
      cases hr'
    · intro hr'
      rw [m.removed, hr] at hr'
      cases hr'
    · intro _
      rw [hctx]
      exact ⟨fun ht => hdecided.mpr (htimed ht), rfl, hresponse⟩
  refine ha.moves h m (fun h => nomatch h) ?_ ?_ fun h => nomatch h
  · rw [hi]
    exact List.mem_cons_of_mem c
  · rw [hctx]
    exact id

/-! ## The steps of `doRsp` -/

theorem Answered.keep (ha : Answered s c) (m : Moves s s' i t)
    (hi : ¬(s.stream.task i).Schedules c) (ht : ¬t.Schedules c)
    (hanswer : ∀ r rsp, t ≠ .answer c r rsp)
    (hresult : (s'.stream.ctx c).result = (s.stream.ctx c).result)
    (hresponse : (s'.stream.ctx c).response = (s.stream.ctx c).response)
    (htimed : (s'.stream.ctx c).timed = (s.stream.ctx c).timed) : Answered s' c where
  removed := m.removed ▸ ha.removed
  assigned := m.answers hanswer ha.assigned
  response := by
    rw [m.removed, hresult, hresponse, htimed, m.decided hi ht]
    exact ha.response
  timeout := by
    rw [m.removed, hresult, hresponse, htimed, m.decided hi ht]
    exact ha.timeout
  close := by
    rw [m.removed, hresult, hresponse, htimed, m.decided hi ht]
    exact ha.close

theorem Fits.load (h : Fits s c) {rest : List Nat} (hi : s.stream.task i = .doRsp .load c rest)
    {scd : Option Nat} (m : Moves s s' i (.doRsp (.compareAndSwap scd) c rest))
    (hctx : s'.stream.ctx c = s.stream.ctx c) : Fits s' c := by
  have ha := (h.answered hi).keep m (by rw [hi]; exact id) id (fun _ _ h => nomatch h)
    (by rw [hctx]) (by rw [hctx]) (by rw [hctx])
  refine ha.moves h m (fun h => nomatch h) ?_ ?_ fun h => nomatch h
  · rw [hi]
    exact id
  · rw [hctx]
    exact id

/-- The exchange of the scheduler: who finds it set is the only one to claim the context. -/
theorem Fits.exchange (h : Fits s c) {scd : Option Nat} {n : Nat} {rest : List Nat}
    (hi : s.stream.task i = .doRsp (.compareAndSwap scd) c rest)
    (m : Moves s s' i (.doRsp (.cancelTimer n) c rest))
    (hscd : (s.stream.ctx c).scheduler ≠ none)
    (hctx : s'.stream.ctx c = { s.stream.ctx c with scheduler := none }) : Fits s' c := by
  have ha := (h.answered hi).keep m (by rw [hi]; exact id) id (fun _ _ h => nomatch h)
    (by rw [hctx]) (by rw [hctx]) (by rw [hctx])
  refine ha.fits h m.task m.removed m.m_ctxs m.count (fun h => nomatch h) (by rw [hi]; exact id) ?_
    fun _ => by rw [hctx]
  have hown : ∀ k, (s'.stream.task k).Claims c → k = i := by
    intro k hk
    by_contra hki
    rw [m.task, Function.update_of_ne hki] at hk
    exact hscd (h.claimed k hk).1
  intro j hj
  refine ⟨by rw [hctx], ?_, fun k hk => (hown k hk).trans (hown j hj).symm⟩
  rw [AsyncSocketStream.woken, m.scheduled]
  exact fun hw => hscd (h.woken hw)

/-- `doRsp` returns. -/
theorem Fits.giveUp (h : Fits s c) {p : DoRsp} {rest : List Nat}
    (hi : s.stream.task i = .doRsp p c rest) (hp : ¬(s.stream.task i).Schedules c)
    (m : Moves s s' i (.closeLoop rest)) {scd : Option Nat}
    (hctx : s'.stream.ctx c = { s.stream.ctx c with scheduler := scd })
    (hscd : (s.stream.ctx c).scheduler = none → scd = none) : Fits s' c := by
  have ha := (h.answered hi).keep m hp id (fun _ _ h => nomatch h) (by rw [hctx]) (by rw [hctx])
    (by rw [hctx])
  refine ha.moves h m (fun h => nomatch h) ?_ ?_ fun h => nomatch h
  · rw [hi]
    exact id
  · rw [hctx]
    exact hscd

theorem Fits.cancelTimer (h : Fits s c) {scd : Nat} {rest : List Nat}
    (hi : s.stream.task i = .doRsp (.cancelTimer scd) c rest)
    (m : Moves s s' i (.doRsp (.setResult scd) c rest))
    (hctx : SameFields (s'.stream.ctx c) (s.stream.ctx c)) : Fits s' c := by
  have ha := (h.answered hi).keep m (by rw [hi]; exact id) id (fun _ _ h => nomatch h)
    hctx.result hctx.response hctx.timed
  refine ha.moves h m (fun h => nomatch h) ?_ hctx.scheduler.trans ?_
  · rw [hi]
    exact id
  · intro _
    rw [hi]
    exact ⟨rfl, trivial⟩

/-- Who claims a context decides its result: a timeout has removed it where `timed` is set. -/
theorem Fits.setResult (h : Fits s c) {scd : Nat} {rest : List Nat}
    (hi : s.stream.task i = .doRsp (.setResult scd) c rest)
    (m : Moves s s' i (.doRsp (.schedule scd) c rest))
    (hctx : s'.stream.ctx c = if (s.stream.ctx c).timed then
      { s.stream.ctx c with result := asyncTimeout } else s.stream.ctx c) : Fits s' c := by
  have hclaim : (s.stream.task i).Claims c := by
    rw [hi]
    exact ⟨rfl, trivial⟩
  obtain ⟨-, hwoken, huniq⟩ := h.claimed i hclaim
  have hundecided : ¬s.Decided c := by
    rintro (hw | ⟨j, hj⟩)
    · exact hwoken hw
    · cases huniq j hj.claims
      rw [hi] at hj
      exact hj
  have hdecided : s'.Decided c := .inr ⟨i, by rw [m.task, Function.update_self]; rfl⟩
  have hold := h.answered hi
  have ha : Answered s' c := by
    refine ⟨m.removed ▸ hold.removed, m.answers (fun _ _ h => nomatch h) hold.assigned, ?_, ?_, ?_⟩
    · intro r rsp hr
      rw [m.removed] at hr
      obtain ⟨htimed, hvalues⟩ := hold.response r rsp hr
      rw [hctx, if_neg fun ht => hundecided (htimed ht)]
      exact ⟨fun _ => hdecided, hvalues⟩
    · intro hr
      rw [m.removed] at hr
      obtain ⟨htimed, -, hresponse⟩ := hold.timeout hr
      rw [hctx, if_pos htimed]
      exact ⟨htimed, fun _ => rfl, hresponse⟩
    · intro hr
      rw [m.removed] at hr
      obtain ⟨htimed, hvalues⟩ := hold.close hr
      rw [hctx, if_neg fun ht => hundecided (htimed ht)]
      exact ⟨fun _ => hdecided, hvalues⟩
  refine ha.moves h m (fun h => nomatch h) ?_ ?_ fun _ => hclaim
  · rw [hi]
    exact id
  · rw [hctx]
    split <;> exact id

theorem Fits.schedule (h : Fits s c) {scd : Nat} {rest : List Nat}
    (hi : s.stream.task i = .doRsp (.schedule scd) c rest)
    (htask : s'.stream.task = Function.update s.stream.task i (.closeLoop rest))
    (hscheduled : s'.stream.scheduled = s.stream.scheduled ++ [(c, scd)])
    (hremoved : s'.removed = s.removed) (hm : s'.stream.m_ctxs = s.stream.m_ctxs)
    (hcount : s'.stream.count = s.stream.count)
    (hctx : SameFields (s'.stream.ctx c) (s.stream.ctx c)) : Fits s' c := by
  have hclaim : (s.stream.task i).Claims c := by
    rw [hi]
    exact ⟨rfl, trivial⟩
  obtain ⟨hscheduler, -, huniq⟩ := h.claimed i hclaim
  have hwoken : c ∈ s'.stream.woken := by
    rw [AsyncSocketStream.woken, hscheduled, List.map_append]
    exact List.mem_append_right _ (List.mem_singleton_self c)
  have hold := h.answered hi
  have hd : s.Decided c := .inr ⟨i, by rw [hi]; rfl⟩
  have ha : Answered s' c := by
    refine ⟨hremoved ▸ hold.removed, ?_, ?_, ?_, ?_⟩
    · intro j r rsp hj
      rw [htask] at hj
      exact hold.assigned j r rsp
        (at_update (t := .closeLoop rest) (P := (· = .answer c r rsp)) (by rintro ⟨⟩) hj).2
    · rw [hremoved, hctx.result, hctx.response]
      exact fun r rsp hr => ⟨fun _ => .inl hwoken, (hold.response r rsp hr).2⟩
    · rw [hremoved, hctx.result, hctx.response, hctx.timed]
      intro hr
      obtain ⟨htimed, hresult, hresponse⟩ := hold.timeout hr
      exact ⟨htimed, fun _ => hresult hd, hresponse⟩
    · rw [hremoved, hctx.result, hctx.response]
      exact fun hr => ⟨fun _ => .inl hwoken, (hold.close hr).2⟩
  refine ha.fits h htask hremoved hm hcount (by rintro ⟨⟩) (by rw [hi]; exact id) ?_
    fun _ => hctx.scheduler.trans hscheduler
  intro j hj
  rw [htask] at hj
  obtain ⟨hne, hj⟩ := at_update (t := .closeLoop rest) (P := Task.Claims c) id hj
  exact absurd (huniq j hj) hne

end RockStream

end CIM
