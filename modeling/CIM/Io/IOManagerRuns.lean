import Mathlib.Algebra.BigOperators.Group.List.Basic
import Mathlib.Algebra.Ring.Int.Defs
import Mathlib.Data.List.Count
import CIM.Io.IOManager

/-!
# Accounting of events

The sections under the lock keep the difference between the pending events and the events that
are registered. The idle loop passes its assertion as long as what it harvested is not partly
gone.
-/
namespace CIM

open Transition

namespace IOManager

/-! ## Events of one context -/

namespace Events

def count (es : Events) : Int := (if es.read then 1 else 0) + if es.write then 1 else 0

theorem count_put (es : Events) (e : Event) (v : Bool) :
    (es.put e v).count = es.count - (if es.has e then 1 else 0) + if v then 1 else 0 := by
  obtain ⟨r, w⟩ := es
  cases e <;> cases r <;> cases w <;> cases v <;> rfl

theorem has_put (es : Events) (e e' : Event) (v : Bool) :
    (es.put e v).has e' = if e' = e then v else es.has e' := by
  cases e <;> cases e' <;> rfl

end Events

theorem FdContext.setEvent_events (c : FdContext) (e : Event) (event_ctx : EventContext)
    (v : Bool) : (c.setEvent e event_ctx v).events = c.events.put e v := by
  cases e <;> rfl

/-! ## Sections -/

namespace Locked

variable {l l' l₁ l₂ : Locked} {e : Event} {ok : Bool}

/-- How often the event was registered and has not ended, against its bit. -/
def balance (l : Locked) (e : Event) : Int :=
  (l.log.count (e, .registered) : Int) - l.log.count (e, .ended) -
    if l.ctx.events.has e then 1 else 0

/-- A section changes the count as it changes the registered events. -/
structure Keeps (l l' : Locked) : Prop where
  count : l'.m_pendingEventCount - l'.ctx.events.count =
    l.m_pendingEventCount - l.ctx.events.count
  balance : ∀ e, l'.balance e = l.balance e

theorem Keeps.refl (l : Locked) : Keeps l l := ⟨rfl, fun _ => rfl⟩

theorem Keeps.trans (h₁ : Keeps l l₁) (h₂ : Keeps l₁ l₂) : Keeps l l₂ :=
  ⟨h₂.count.trans h₁.count, fun e => (h₂.balance e).trans (h₁.balance e)⟩

theorem count_other {x y : Event × Change} (h : x ≠ y) : [y].count x = 0 := by
  apply List.count_eq_zero_of_not_mem
  rw [List.mem_singleton]
  exact h

/-- A bit is set with one more pending event and a registration in the log. -/
theorem keeps_registered {c : FdContext} {jobs : List Job} (he : l.ctx.events.has e = false)
    (hc : c.events = l.ctx.events.put e true) :
    Keeps l ⟨c, l.m_pendingEventCount + 1, jobs, l.log ++ [(e, .registered)]⟩ := by
  constructor
  · change l.m_pendingEventCount + 1 - c.events.count = _
    rw [hc, Events.count_put, he, if_neg Bool.false_ne_true, if_pos rfl]
    omega
  · intro e'
    unfold balance
    change (((l.log ++ [(e, Change.registered)]).count (e', .registered) : Nat) : Int) -
      (l.log ++ [(e, Change.registered)]).count (e', .ended) - (if c.events.has e' then 1 else 0) = _
    rw [hc, Events.has_put, List.count_append, List.count_append]
    by_cases hee : e' = e
    · subst hee
      rw [if_pos rfl, if_pos rfl, he, if_neg Bool.false_ne_true, List.count_singleton_self,
        count_other (fun h => by cases h)]
      omega
    · rw [if_neg hee, count_other (fun h => hee (congrArg Prod.fst h)),
        count_other (fun h => by cases h)]
      rfl

/-- A bit is cleared with one pending event less and an end in the log. -/
theorem keeps_ended {c : FdContext} {jobs : List Job} (he : l.ctx.events.has e = true)
    (hc : c.events = l.ctx.events.put e false) :
    Keeps l ⟨c, l.m_pendingEventCount - 1, jobs, l.log ++ [(e, .ended)]⟩ := by
  constructor
  · change l.m_pendingEventCount - 1 - c.events.count = _
    rw [hc, Events.count_put, he, if_pos rfl, if_neg Bool.false_ne_true]
    omega
  · intro e'
    unfold balance
    change (((l.log ++ [(e, Change.ended)]).count (e', .registered) : Nat) : Int) -
      (l.log ++ [(e, Change.ended)]).count (e', .ended) - (if c.events.has e' then 1 else 0) = _
    rw [hc, Events.has_put, List.count_append, List.count_append]
    by_cases hee : e' = e
    · subst hee
      rw [if_pos rfl, if_neg Bool.false_ne_true, he, if_pos rfl, List.count_singleton_self,
        count_other (fun h => by cases h)]
      omega
    · rw [if_neg hee, count_other (fun h => by cases h),
        count_other (fun h => hee (congrArg Prod.fst h))]
      rfl

/-- What `fire` leaves, where the event is registered. -/
theorem fire_eq (he : l.ctx.events.has e = true) :
    ∃ l', l.fire e = some l' ∧ Keeps l l' ∧ l'.ctx.events = l.ctx.events.put e false := by
  unfold fire triggerEvent
  rw [if_pos he]
  exact ⟨_, rfl, keeps_ended he (FdContext.setEvent_events _ _ _ _),
    FdContext.setEvent_events _ _ _ _⟩

theorem fire_eq_none (he : l.ctx.events.has e = false) : l.fire e = none := by
  unfold fire triggerEvent
  rw [he, if_neg Bool.false_ne_true]
  rfl

theorem keeps_addEvent {scheduler : Option Nat} {handler : Handler} :
    Keeps l (l.addEvent e scheduler handler ok).2 := by
  unfold addEvent
  split
  · exact .refl l
  · rename_i he
    split
    · exact keeps_registered (Bool.eq_false_iff.mpr he) (FdContext.setEvent_events _ _ _ _)
    · exact .refl l

theorem keeps_delEvent : Keeps l (l.delEvent e ok).2 := by
  unfold delEvent
  split
  · exact .refl l
  · rename_i he
    split
    · exact keeps_ended (by simpa using he) (FdContext.setEvent_events _ _ _ _)
    · exact .refl l

theorem cancelEvent_keeps : ∃ r, l.cancelEvent e ok = some r ∧ Keeps l r.2 := by
  unfold cancelEvent
  cases he : l.ctx.events.has e with
  | false => exact ⟨_, rfl, .refl l⟩
  | true =>
      cases ok with
      | false => exact ⟨_, rfl, .refl l⟩
      | true =>
          obtain ⟨l', hf, hk, -⟩ := fire_eq he
          refine ⟨(true, l'), ?_, hk⟩
          change (l.fire e).map _ = _
          rw [hf]
          rfl

/-- A registered event is triggered, another one left alone. -/
theorem fireIf_keeps (b : Bool) (hb : b = true → l.ctx.events.has e = true) :
    ∃ l', l.fireIf b e = some l' ∧ Keeps l l' ∧
      l'.ctx.events = if b then l.ctx.events.put e false else l.ctx.events := by
  cases b with
  | false => exact ⟨l, rfl, .refl l, rfl⟩
  | true => exact fire_eq (hb rfl)

theorem cancelAll_keeps : ∃ r, l.cancelAll ok = some r ∧ Keeps l r.2 := by
  unfold cancelAll
  split
  · exact ⟨_, rfl, .refl l⟩
  · cases ok with
    | false => exact ⟨_, rfl, .refl l⟩
    | true =>
        obtain ⟨l₁, h₁, hk₁, he₁⟩ := fireIf_keeps (l := l) (e := .READ) l.ctx.events.read fun h => h
        have hw : l₁.ctx.events.write = l.ctx.events.write := by
          rw [he₁]
          cases l.ctx.events.read <;> rfl
        obtain ⟨l₂, h₂, hk₂, he₂⟩ := fireIf_keeps (l := l₁) (e := .WRITE) l₁.ctx.events.write fun h => h
        have hempty : l₂.ctx.events = ⟨false, false⟩ := by
          rw [he₂, he₁]
          obtain ⟨r, w⟩ := l.ctx.events
          cases r <;> cases w <;> rfl
        refine ⟨(true, l₂), ?_, hk₁.trans hk₂⟩
        rw [if_pos rfl, h₁]
        change (l₁.fireIf l₁.ctx.events.write .WRITE >>= _) = _
        rw [h₂]
        exact if_pos hempty

/-- What the epoll event stands for is all registered, or nothing of it is. -/
def Agree (event : EpollEvents) (events : Events) : Prop :=
  (∀ e, (realEvents event events).has e = true → events.has e = false) ∨
    ∀ e, (realEvents event events).has e = true → events.has e = true

theorem process_keeps {event : EpollEvents} (h : ok = false ∨ Agree event l.ctx.events) :
    ∃ l', l.process event ok = some l' ∧ Keeps l l' := by
  unfold process
  by_cases hsome : (!(l.ctx.events.read && (realEvents event l.ctx.events).read) &&
      !(l.ctx.events.write && (realEvents event l.ctx.events).write)) = true
  · rw [if_pos hsome]
    exact ⟨l, rfl, .refl l⟩
  · rw [if_neg hsome]
    cases ok with
    | false => exact ⟨l, rfl, .refl l⟩
    | true =>
        have hall : ∀ e, (realEvents event l.ctx.events).has e = true →
            l.ctx.events.has e = true := by
          rcases h.resolve_left (by decide) with hno | hall
          · refine absurd ?_ hsome
            have hread := hno .READ
            have hwrite := hno .WRITE
            change (realEvents event l.ctx.events).read = true → l.ctx.events.read = false at hread
            change (realEvents event l.ctx.events).write = true → l.ctx.events.write = false
              at hwrite
            cases hr : (realEvents event l.ctx.events).read <;>
              cases hw : (realEvents event l.ctx.events).write <;>
              simp [hr, hw] at hread hwrite ⊢ <;> simp [hread, hwrite]
          · exact hall
        obtain ⟨l₁, h₁, hk₁, he₁⟩ := fireIf_keeps (l := l) (e := .READ)
          (realEvents event l.ctx.events).read (hall .READ)
        have hw : (realEvents event l.ctx.events).write = true → l₁.ctx.events.has .WRITE = true := by
          intro hreal
          rw [he₁]
          cases (realEvents event l.ctx.events).read <;> exact hall .WRITE hreal
        obtain ⟨l₂, h₂, hk₂, -⟩ := fireIf_keeps (l := l₁) (e := .WRITE)
          (realEvents event l.ctx.events).write hw
        refine ⟨l₂, ?_, hk₁.trans hk₂⟩
        rw [if_pos rfl, h₁]
        exact h₂

/-- An event that is gone while another one is left fails the assertion. -/
theorem process_fails {event : EpollEvents} (h : ¬Agree event l.ctx.events) :
    l.process event true = none := by
  have hsome : ∃ e, (realEvents event l.ctx.events).has e = true ∧ l.ctx.events.has e = true := by
    by_contra hno
    refine h (.inl fun e he => ?_)
    apply Bool.eq_false_iff.mpr
    intro hreg
    exact hno ⟨e, he, hreg⟩
  have hgone : ∃ e, (realEvents event l.ctx.events).has e = true ∧ l.ctx.events.has e = false := by
    by_contra hno
    refine h (.inr fun e he => ?_)
    by_contra hreg
    exact hno ⟨e, he, Bool.eq_false_iff.mpr hreg⟩
  obtain ⟨e, he, hreg⟩ := hsome
  obtain ⟨e', he', hreg'⟩ := hgone
  have hpart : ¬(!(l.ctx.events.read && (realEvents event l.ctx.events).read) &&
      !(l.ctx.events.write && (realEvents event l.ctx.events).write)) = true := by
    cases e with
    | READ =>
        change (realEvents event l.ctx.events).read = true at he
        change l.ctx.events.read = true at hreg
        rw [he, hreg]
        exact Bool.false_ne_true
    | WRITE =>
        change (realEvents event l.ctx.events).write = true at he
        change l.ctx.events.write = true at hreg
        rw [he, hreg, Bool.and_true, Bool.not_true, Bool.and_false]
        exact Bool.false_ne_true
  unfold process
  rw [if_neg hpart, if_pos rfl]
  cases e' with
  | READ =>
      change (realEvents event l.ctx.events).read = true at he'
      rw [he']
      change (l.fire .READ >>= _) = none
      rw [fire_eq_none hreg']
      rfl
  | WRITE =>
      change (realEvents event l.ctx.events).write = true at he'
      cases e with
      | WRITE =>
          rw [hreg] at hreg'
          cases hreg'
      | READ =>
          change (realEvents event l.ctx.events).read = true at he
          obtain ⟨l₁, h₁, -, he₁⟩ := fire_eq hreg
          have hw : l₁.ctx.events.has .WRITE = false := by
            rw [he₁]
            exact hreg'
          rw [he, he']
          change (l.fire .READ >>= fun l => l.fireIf true .WRITE) = none
          rw [h₁]
          exact fire_eq_none hw

end Locked

/-! ## All contexts -/

variable {s s' : IOManager} {ctx : Nat} {e : Step}

/-- The registered events of all contexts. -/
def total (s : IOManager) : Int := (s.heap.map fun c => c.events.count).sum

def registered (s : IOManager) (ctx : Nat) (e : Event) : Bool :=
  (s.heap[ctx]?.map fun c => c.events.has e).getD false

structure Good (s : IOManager) : Prop where
  count : s.m_pendingEventCount = s.total
  balance : ∀ ctx e, (s.log.count (ctx, e, .registered) : Int) - s.log.count (ctx, e, .ended) =
    if s.registered ctx e then 1 else 0
  table : ∀ ctx ∈ s.m_fdContexts, ctx < s.heap.length
  room : 64 ≤ s.m_fdContexts.length
  resize : ∀ t fd op, s.calls t = some (.resize fd op) → 64 ≤ fd
  locked : ∀ t ctx op, s.calls t = some (.locked ctx op) → ctx < s.heap.length
  harvested : ∀ t ctx event, .context ctx event ∈ s.harvested t → ctx < s.heap.length

theorem sum_set {α : Type} (f : α → Int) {l : List α} {i : Nat} {c : α} (h : l[i]? = some c)
    (c' : α) : ((l.set i c').map f).sum = (l.map f).sum - f c + f c' := by
  induction l generalizing i with
  | nil => cases h
  | cons x l ih =>
      cases i with
      | zero =>
          have hx : x = c := Option.some.inj h
          change f c' + (l.map f).sum = f x + (l.map f).sum - f c + f c'
          rw [hx]
          omega
      | succ i =>
          have h' := ih (i := i) h
          change f x + ((l.set i c').map f).sum = f x + (l.map f).sum - f c + f c'
          omega

theorem count_map_other {ctx' : Nat} (hne : ctx' ≠ ctx) (l : List (Event × Change))
    (x : Event × Change) : (l.map fun y => (ctx, y)).count (ctx', x) = 0 := by
  apply List.count_eq_zero_of_not_mem
  intro hmem
  obtain ⟨y, -, hy⟩ := List.mem_map.mp hmem
  exact hne (congrArg Prod.fst hy).symm

theorem count_map_self (l : List (Event × Change)) (x : Event × Change) :
    (l.map fun y => (ctx, y)).count (ctx, x) = l.count x :=
  List.count_map_of_injective l (fun y => (ctx, y)) (fun _ _ h => congrArg Prod.snd h) x

/-- A section that keeps its context in balance keeps the whole. -/
theorem Good.lock {α : Type} {f : Locked → Option (α × Locked)} {c : FdContext} {r : α × Locked}
    (h : Good s) (hc : s.heap[ctx]? = some c)
    (hf : f ⟨c, s.m_pendingEventCount, s.jobs, []⟩ = some r)
    (hk : Locked.Keeps ⟨c, s.m_pendingEventCount, s.jobs, []⟩ r.2) :
    ∃ s', s.lock ctx f = some s' ∧ Good s' ∧ s'.calls = s.calls ∧ s'.harvested = s.harvested := by
  have hlt : ctx < s.heap.length := (List.getElem?_eq_some_iff.mp hc).1
  refine ⟨{ s with
      heap := s.heap.set ctx r.2.ctx
      m_pendingEventCount := r.2.m_pendingEventCount
      jobs := r.2.jobs
      log := s.log ++ r.2.log.map fun x => (ctx, x) }, ?_, ?_, rfl, rfl⟩
  · unfold IOManager.lock
    rw [hc]
    change (f ⟨c, s.m_pendingEventCount, s.jobs, []⟩).map _ = _
    rw [hf]
    rfl
  · refine
      { count := ?_
        balance := ?_
        table := ?_
        room := h.room
        resize := h.resize
        locked := ?_
        harvested := ?_ }
    · have hsum := sum_set (fun c : FdContext => c.events.count) hc r.2.ctx
      have hcount := hk.count
      have htotal := h.count
      change r.2.m_pendingEventCount = ((s.heap.set ctx r.2.ctx).map fun c => c.events.count).sum
      unfold total at htotal
      change r.2.m_pendingEventCount - r.2.ctx.events.count =
        s.m_pendingEventCount - c.events.count at hcount
      omega
    · intro ctx' e'
      have hold := h.balance ctx' e'
      change (((s.log ++ r.2.log.map fun x => (ctx, x)).count (ctx', e', .registered) : Nat) : Int) -
        (s.log ++ r.2.log.map fun x => (ctx, x)).count (ctx', e', .ended) =
          if (((s.heap.set ctx r.2.ctx)[ctx']?.map fun c => c.events.has e').getD false) = true
          then 1 else 0
      rw [List.count_append, List.count_append]
      by_cases hctx : ctx' = ctx
      · subst hctx
        have hbal := hk.balance e'
        unfold Locked.balance at hbal
        change (r.2.log.count (e', .registered) : Int) - r.2.log.count (e', .ended) -
          (if r.2.ctx.events.has e' = true then 1 else 0) =
            0 - 0 - (if c.events.has e' = true then 1 else 0) at hbal
        have hreg : s.registered ctx' e' = c.events.has e' := by
          unfold registered
          rw [hc]
          rfl
        rw [hreg] at hold
        rw [count_map_self, count_map_self, List.getElem?_set_self hlt]
        change _ = if r.2.ctx.events.has e' = true then 1 else 0
        omega
      · rw [count_map_other hctx, count_map_other hctx, List.getElem?_set_ne (Ne.symm hctx)]
        exact hold
    · intro ctx' hmem
      change ctx' < (s.heap.set ctx r.2.ctx).length
      rw [List.length_set]
      exact h.table ctx' hmem
    · intro t ctx' op hcall
      change ctx' < (s.heap.set ctx r.2.ctx).length
      rw [List.length_set]
      exact h.locked t ctx' op hcall
    · intro t ctx' event hmem
      change ctx' < (s.heap.set ctx r.2.ctx).length
      rw [List.length_set]
      exact h.harvested t ctx' event hmem

theorem Good.call (h : Good s) (t : Nat) {c : Option Call}
    (hr : ∀ fd op, c = some (.resize fd op) → 64 ≤ fd)
    (hl : ∀ ctx op, c = some (.locked ctx op) → ctx < s.heap.length) :
    Good { s with calls := Function.update s.calls t c } := by
  exact
    { count := h.count
      balance := h.balance
      table := h.table
      room := h.room
      resize := (Function.forall_update_iff s.calls fun _ c =>
        ∀ fd op, c = some (.resize fd op) → 64 ≤ fd).mpr ⟨hr, fun t' _ => h.resize t'⟩
      locked := (Function.forall_update_iff s.calls fun _ c =>
        ∀ ctx op, c = some (.locked ctx op) → ctx < s.heap.length).mpr ⟨hl, fun t' _ => h.locked t'⟩
      harvested := h.harvested }

theorem Good.harvest (h : Good s) (t : Nat) {events : List Harvested}
    (hev : ∀ ctx event, .context ctx event ∈ events → ctx < s.heap.length) :
    Good { s with harvested := Function.update s.harvested t events } := by
  exact
    { count := h.count
      balance := h.balance
      table := h.table
      room := h.room
      resize := h.resize
      locked := h.locked
      harvested := (Function.forall_update_iff s.harvested fun _ l =>
        ∀ ctx event, .context ctx event ∈ l → ctx < s.heap.length).mpr
          ⟨hev, fun t' _ => h.harvested t'⟩ }

/-- New contexts wait for nothing. -/
theorem total_create (fds : List Nat) :
    ((fds.map FdContext.create).map fun c => c.events.count).sum = 0 := by
  induction fds with
  | nil => rfl
  | cons fd fds ih =>
      change 0 + ((fds.map FdContext.create).map fun c => c.events.count).sum = 0
      rw [ih]
      rfl

theorem registered_append (l fds : List FdContext) (hfds : ∀ c ∈ fds, c.events = ⟨false, false⟩)
    (ctx : Nat) (e : Event) :
    ((l ++ fds)[ctx]?.map fun c => c.events.has e).getD false =
      (l[ctx]?.map fun c => c.events.has e).getD false := by
  by_cases hlt : ctx < l.length
  · rw [List.getElem?_append_left hlt]
  · have hle := Nat.not_lt.mp hlt
    rw [List.getElem?_append_right hle, List.getElem?_eq_none hle]
    cases hc : fds[ctx - l.length]? with
    | none => rfl
    | some c =>
        change c.events.has e = false
        rw [hfds c (List.mem_of_getElem? hc)]
        cases e <;> rfl

theorem Good.contextResize (h : Good s) (size : Nat) (hsize : 64 ≤ size) :
    Good (s.contextResize size) := by
  have hlen : (s.contextResize size).heap.length =
      s.heap.length + (size - (s.m_fdContexts.take size).length) := by
    change (s.heap ++ _).length = _
    rw [List.length_append, List.length_map, List.length_range']
  refine
    { count := ?_
      balance := ?_
      table := ?_
      room := ?_
      resize := h.resize
      locked := ?_
      harvested := ?_ }
  · change s.m_pendingEventCount = ((s.heap ++ (List.range' _ _).map FdContext.create).map
      fun c => c.events.count).sum
    rw [List.map_append, List.sum_append, total_create, Int.add_zero]
    exact h.count
  · intro ctx e
    have hreg : (s.contextResize size).registered ctx e = s.registered ctx e := by
      refine registered_append s.heap _ ?_ ctx e
      intro c hc
      obtain ⟨fd, -, rfl⟩ := List.mem_map.mp hc
      rfl
    rw [hreg]
    exact h.balance ctx e
  · intro ctx hmem
    rw [hlen]
    rcases List.mem_append.mp hmem with hmem | hmem
    · exact Nat.lt_add_right _ (h.table ctx (List.mem_of_mem_take hmem))
    · obtain ⟨-, hlt⟩ := List.mem_range'_1.mp hmem
      exact hlt
  · change 64 ≤ (s.m_fdContexts.take size ++ List.range' _ _).length
    rw [List.length_append, List.length_range', List.length_take]
    omega
  · intro t ctx op hcall
    rw [hlen]
    exact Nat.lt_add_right _ (h.locked t ctx op hcall)
  · intro t ctx event hmem
    rw [hlen]
    exact Nat.lt_add_right _ (h.harvested t ctx event hmem)

/-! ## Steps -/

/-- Where the idle loop goes on: `epoll_ctl` failed, or the epoll event agrees with what is
registered now. -/
def Passes (s : IOManager) : Step → Prop
  | .process t ok => ∀ ctx event rest c, s.harvested t = .context ctx event :: rest →
      s.heap[ctx]? = some c → ok = false ∨ Locked.Agree event c.events
  | _ => True

theorem run_keeps (op : Op) (ok : Bool) (l : Locked) :
    ∃ r, op.run ok l = some r ∧ Locked.Keeps l r.2 := by
  cases op with
  | addEvent e scheduler handler => exact ⟨_, rfl, Locked.keeps_addEvent⟩
  | delEvent e => exact ⟨_, rfl, Locked.keeps_delEvent⟩
  | cancelEvent e => exact Locked.cancelEvent_keeps
  | cancelAll => exact Locked.cancelAll_keeps

theorem exec_call_found {t fd : Nat} {op : Op} (h : s.m_fdContexts[fd]? = some ctx) :
    s.exec (.call t fd op) =
      some { s with calls := Function.update s.calls t (some (.locked ctx op)) } := by
  simp only [IOManager.exec, h]

/-- Without a context only `addEvent` goes on. -/
theorem exec_call_missing (t : Nat) {fd : Nat} (op : Op) (h : s.m_fdContexts[fd]? = none) :
    s.exec (.call t fd op) = some s ∨
      s.exec (.call t fd op) =
        some { s with calls := Function.update s.calls t (some (.resize fd op)) } := by
  cases op with
  | addEvent e scheduler handler =>
      right
      simp only [IOManager.exec, h]
  | delEvent e =>
      left
      simp only [IOManager.exec, h]
  | cancelEvent e =>
      left
      simp only [IOManager.exec, h]
  | cancelAll =>
      left
      simp only [IOManager.exec, h]

theorem Good.exec_call (h : Good s) (t fd : Nat) (op : Op) :
    ∃ s', s.exec (.call t fd op) = some s' ∧ Good s' := by
  cases hfd : s.m_fdContexts[fd]? with
  | some ctx =>
      refine ⟨_, exec_call_found hfd, h.call t (fun _ _ hc => nomatch hc) ?_⟩
      intro ctx' op' hc
      cases hc
      exact h.table _ (List.mem_of_getElem? hfd)
  | none =>
      have hroom : 64 ≤ fd := Nat.le_trans h.room (List.getElem?_eq_none_iff.mp hfd)
      rcases exec_call_missing t op hfd with hsame | hresize
      · exact ⟨s, hsame, h⟩
      · refine ⟨_, hresize, h.call t ?_ (fun _ _ hc => nomatch hc)⟩
        intro fd' op' hc
        cases hc
        exact hroom

theorem Good.exec_resize (h : Good s) (t : Nat) : ∃ s', s.exec (.resize t) = some s' ∧ Good s' := by
  cases hcall : s.calls t with
  | none => exact ⟨s, by simp only [IOManager.exec, hcall], h⟩
  | some call =>
      cases call with
      | locked ctx op => exact ⟨s, by simp only [IOManager.exec, hcall], h⟩
      | resize fd op =>
          have hfd := h.resize t fd op hcall
          have h' := h.contextResize (fd * 3 / 2) (by omega)
          have hlt : fd < (s.contextResize (fd * 3 / 2)).m_fdContexts.length := by
            change fd < (s.m_fdContexts.take (fd * 3 / 2) ++ List.range' _ _).length
            rw [List.length_append, List.length_range']
            omega
          have hexec : s.exec (.resize t) =
              some { s.contextResize (fd * 3 / 2) with
                calls := Function.update s.calls t
                  (some (.locked (s.contextResize (fd * 3 / 2)).m_fdContexts[fd] op)) } := by
            simp only [IOManager.exec, hcall, List.getElem?_eq_getElem hlt, Option.map_some]
          refine ⟨_, hexec, h'.call t (fun _ _ hc => nomatch hc) ?_⟩
          intro ctx' op' hc
          cases hc
          exact h'.table _ (List.getElem_mem hlt)

theorem Good.exec_locked (h : Good s) (t : Nat) (ok : Bool) :
    ∃ s', s.exec (.locked t ok) = some s' ∧ Good s' := by
  cases hcall : s.calls t with
  | none => exact ⟨s, by simp only [IOManager.exec, hcall], h⟩
  | some call =>
      cases call with
      | resize fd op => exact ⟨s, by simp only [IOManager.exec, hcall], h⟩
      | locked ctx op =>
          have hc := List.getElem?_eq_getElem (h.locked t ctx op hcall)
          obtain ⟨r, hr, hk⟩ := run_keeps op ok ⟨_, s.m_pendingEventCount, s.jobs, []⟩
          obtain ⟨s', hs', h', hcalls, -⟩ := h.lock hc hr hk
          have hexec : s.exec (.locked t ok) =
              some { s' with calls := Function.update s'.calls t none } := by
            simp only [IOManager.exec, hcall, hs', Option.map_some]
          exact ⟨_, hexec, h'.call t (fun _ _ hc => nomatch hc) (fun _ _ hc => nomatch hc)⟩

theorem Good.exec_process (h : Good s) {t : Nat} {ok : Bool} (hp : s.Passes (.process t ok)) :
    ∃ s', s.exec (.process t ok) = some s' ∧ Good s' := by
  cases hev : s.harvested t with
  | nil => exact ⟨s, by simp only [IOManager.exec, hev], h⟩
  | cons x rest =>
      cases x with
      | tickle =>
          refine ⟨_, by simp only [IOManager.exec, hev]; rfl, h.harvest t ?_⟩
          intro ctx event hmem
          refine h.harvested t ctx event ?_
          rw [hev]
          exact List.mem_cons_of_mem _ hmem
      | context ctx event =>
          have hmem : .context ctx event ∈ s.harvested t := by
            rw [hev]
            exact List.mem_cons_self
          have hc := List.getElem?_eq_getElem (h.harvested t ctx event hmem)
          obtain ⟨l', hl', hk⟩ := Locked.process_keeps
            (l := ⟨_, s.m_pendingEventCount, s.jobs, []⟩) (hp ctx event rest _ hev hc)
          obtain ⟨s', hs', h', -, hharv⟩ := h.lock (r := ((), l')) hc
            (f := fun l => (l.process event ok).map fun l => ((), l))
            (Option.map_eq_some_iff.mpr ⟨l', hl', rfl⟩) hk
          have hexec : s.exec (.process t ok) =
              some { s' with harvested := Function.update s'.harvested t rest } := by
            simp only [IOManager.exec, hev, hs', Option.map_some]
          refine ⟨_, hexec, h'.harvest t ?_⟩
          intro ctx' event' hm
          refine h'.harvested t ctx' event' ?_
          rw [hharv, hev]
          exact List.mem_cons_of_mem _ hm

theorem Good.exec (h : Good s) (hen : s.Enabled e) (hp : s.Passes e) :
    ∃ s', s.exec e = some s' ∧ Good s' := by
  cases e with
  | call t fd op => exact h.exec_call t fd op
  | resize t => exact h.exec_resize t
  | locked t ok => exact h.exec_locked t ok
  | harvest t events => exact ⟨_, rfl, h.harvest t hen.2⟩
  | process t ok => exact h.exec_process hp

theorem exec_fails (hp : ¬s.Passes e) : s.exec e = none := by
  cases e with
  | call t fd op => exact absurd trivial hp
  | resize t => exact absurd trivial hp
  | locked t ok => exact absurd trivial hp
  | harvest t events => exact absurd trivial hp
  | process t ok =>
      unfold Passes at hp
      simp only [not_forall] at hp
      obtain ⟨ctx, event, rest, c, hev, hc, hno⟩ := hp
      obtain ⟨hok, hagree⟩ := not_or.mp hno
      have hok : ok = true := by
        cases ok with
        | true => rfl
        | false => exact absurd rfl hok
      have hfail : Locked.process event true ⟨c, s.m_pendingEventCount, s.jobs, []⟩ = none :=
        Locked.process_fails hagree
      have hlock : (s.lock ctx fun l => (l.process event ok).map fun l => ((), l)) = none := by
        unfold IOManager.lock
        rw [hc, hok]
        change ((Locked.process event true ⟨c, s.m_pendingEventCount, s.jobs, []⟩).map _).map _ =
          none
        rw [hfail]
        rfl
      simp only [IOManager.exec, hev, hlock, Option.map_none]

/-! ## Runs -/

theorem good_create : Good IOManager.create := by
  have htotal : IOManager.create.total = 0 := total_create (List.range' 0 64)
  have hreg : ∀ ctx e, IOManager.create.registered ctx e = false := by
    intro ctx e
    refine (registered_append [] ((List.range' 0 64).map FdContext.create) ?_ ctx e).trans rfl
    intro c hc
    obtain ⟨fd, -, rfl⟩ := List.mem_map.mp hc
    rfl
  refine
    { count := htotal.symm
      balance := ?_
      table := ?_
      room := Nat.le_refl 64
      resize := fun t fd op hc => nomatch hc
      locked := fun t ctx op hc => nomatch hc
      harvested := fun t ctx event hmem => nomatch hmem }
  · intro ctx e
    rw [hreg]
    rfl
  · intro ctx hmem
    have hctx : ctx ∈ List.range' 0 64 := hmem
    exact (List.mem_range'_1.mp hctx).2

theorem run_good {es : List Step} (h : ioManager.Run es s) : Good s := by
  refine h.invariant (I := Good) ?_ ?_
  · rintro s rfl
    exact good_create
  · rintro s e s' hs ⟨hen, hexec⟩
    by_cases hp : s.Passes e
    · obtain ⟨s₁, h₁, hgood⟩ := hs.exec hen hp
      rw [h₁] at hexec
      cases hexec
      exact hgood
    · rw [exec_fails hp] at hexec
      cases hexec

/-- In every run the count is the number of registered events, every event that was registered
has ended once or is still registered, and the next step fails an assertion exactly where it does
not pass. -/
theorem run_accounting {es : List Step} (h : ioManager.Run es s) :
    s.m_pendingEventCount = s.total ∧
      (∀ ctx e, (s.log.count (ctx, e, .registered) : Int) - s.log.count (ctx, e, .ended) =
        if s.registered ctx e then 1 else 0) ∧
      ∀ e, s.Enabled e → (s.exec e = none ↔ ¬s.Passes e) := by
  have hs := run_good h
  refine ⟨hs.count, hs.balance, ?_⟩
  intro e hen
  constructor
  · intro hnone hp
    obtain ⟨s', hs', -⟩ := hs.exec hen hp
    rw [hs'] at hnone
    cases hnone
  · exact exec_fails

/-- A run in which the file descriptor 5 waits for both events, the idle loop harvests them, and
the one for writing is deleted before the idle loop goes on. -/
def raceSteps : List Step :=
  [.call 1 5 (.addEvent .READ (some 0) (.cb 1)), .locked 1 true,
    .call 1 5 (.addEvent .WRITE (some 0) (.cb 2)), .locked 1 true,
    .harvest 0 [.context 5 ⟨true, true, false, false⟩],
    .call 1 5 (.delEvent .WRITE), .locked 1 true]

theorem run_race : ∃ s, ioManager.Run raceSteps s ∧
    s.harvested 0 = [.context 5 ⟨true, true, false, false⟩] ∧
      (s.heap[5]?.map fun c => c.events) = some ⟨true, false⟩ := by
  have h₀ : ioManager.Run [] IOManager.create := .start rfl
  have h₁ := h₀.snoc (e := Step.call 1 5 (.addEvent .READ (some 0) (.cb 1))) ⟨rfl, rfl⟩
  have h₂ := h₁.snoc (e := Step.locked 1 true) ⟨trivial, rfl⟩
  have h₃ := h₂.snoc (e := Step.call 1 5 (.addEvent .WRITE (some 0) (.cb 2))) ⟨rfl, rfl⟩
  have h₄ := h₃.snoc (e := Step.locked 1 true) ⟨trivial, rfl⟩
  have h₅ := h₄.snoc (e := Step.harvest 0 [.context 5 ⟨true, true, false, false⟩])
    ⟨⟨rfl, by
      intro ctx event hmem
      cases List.mem_singleton.mp hmem
      decide⟩, rfl⟩
  have h₆ := h₅.snoc (e := Step.call 1 5 (.delEvent .WRITE)) ⟨rfl, rfl⟩
  have h₇ := h₆.snoc (e := Step.locked 1 true) ⟨trivial, rfl⟩
  exact ⟨_, h₇, rfl, rfl⟩

theorem run_accounting_race :
    ∃ s, ioManager.Run raceSteps s ∧ s.m_pendingEventCount = s.total ∧
      (∀ ctx e, (s.log.count (ctx, e, .registered) : Int) - s.log.count (ctx, e, .ended) =
        if s.registered ctx e then 1 else 0) ∧
      ∀ e, s.Enabled e → (s.exec e = none ↔ ¬s.Passes e) := by
  obtain ⟨s, hrun, -⟩ := run_race
  exact ⟨s, hrun, run_accounting hrun⟩

/-- The idle loop triggers the event for writing, which is not registered any more. -/
theorem idle_triggers_deleted_event :
    ∃ s, ioManager.Run raceSteps s ∧ s.registered 5 .WRITE = false ∧
      s.exec (.process 0 true) = none := by
  obtain ⟨s, hrun, hharv, hevents⟩ := run_race
  obtain ⟨c, hc, hce⟩ := Option.map_eq_some_iff.mp hevents
  refine ⟨s, hrun, ?_, exec_fails fun hp => ?_⟩
  · unfold registered
    rw [hc]
    change c.events.write = false
    rw [hce]
  · have hagree := (hp 5 _ [] c hharv hc).resolve_left (by decide)
    rw [hce] at hagree
    rcases hagree with hno | hall
    · exact absurd (hno .READ rfl) (by decide)
    · exact absurd (hall .WRITE rfl) (by decide)

end IOManager

end CIM
