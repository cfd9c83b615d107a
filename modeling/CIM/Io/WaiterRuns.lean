import Mathlib.Data.List.Count
import Mathlib.Data.List.Perm.Basic
import CIM.Io.IOManager

/-!
# Waiters

What an `addEvent` call hands over is a waiter: the callback, or the coroutine that makes the call
and then yields. `accepted` records the waiters of the calls that returned true, and `deleted` the
ones that `delEvent` removed.
-/
namespace CIM

open Transition

namespace IOManager

/-- The waiters that a context has recorded. -/
def FdContext.waiters (c : FdContext) : List Job :=
  (if c.events.read then [c.read.job] else []) ++ if c.events.write then [c.write.job] else []

def recorded (s : IOManager) : List Job := s.heap.flatMap FdContext.waiters

/-- The waiter of an `addEvent` that returns true. -/
def Op.accepts (op : Op) (ok : Bool) (l : Locked) : List Job :=
  match op with
  | .addEvent e scheduler handler =>
      if (l.addEvent e scheduler handler ok).1 then [(scheduler, some handler)] else []
  | _ => []

/-- The waiter that `delEvent` finds and removes. -/
def Op.deletes (op : Op) (ok : Bool) (l : Locked) : List Job :=
  match op with
  | .delEvent e => if (l.delEvent e ok).1 then [(l.ctx.getContext e).job] else []
  | _ => []

/-- The operation of a call that has its section before it, with what it will find. -/
def pendingSection (s : IOManager) (t : Nat) : Option (Op × Locked) :=
  match s.calls t with
  | some (.locked ctx op) =>
      s.heap[ctx]?.map fun c => (op, ⟨c, s.m_pendingEventCount, s.jobs, []⟩)
  | _ => none

/-- What the section of a step gives, none for other steps. -/
def ofSection (s : IOManager) (f : Op → Bool → Locked → List Job) : Step → List Job
  | .locked t ok =>
      match s.pendingSection t with
      | some (op, l) => f op ok l
      | none => []
  | _ => []

end IOManager

open IOManager

structure Waiters where
  io : IOManager
  accepted : List Job
  deleted : List Job

def waiters : System Waiters IOManager.Step where
  init w := ioManager.init w.io ∧ w.accepted = [] ∧ w.deleted = []
  step w e w' := ioManager.step w.io e w'.io ∧
    w'.accepted = w.accepted ++ w.io.ofSection Op.accepts e ∧
    w'.deleted = w.deleted ++ w.io.ofSection Op.deletes e

namespace Waiters

/-- Every accepted waiter was deleted, handed to a scheduler, or is recorded: one of them, and
once. -/
def Accounted (w : Waiters) : Prop :=
  w.accepted.Perm (w.deleted ++ w.io.jobs ++ w.io.recorded)

/-- An `addEvent` finds its event free. -/
def FindsFree (w : Waiters) : Step → Prop
  | .locked t _ => ∀ e scheduler handler l,
      w.io.pendingSection t = some (.addEvent e scheduler handler, l) → l.ctx.events.has e = false
  | _ => True

end Waiters

namespace IOManager

/-! ## One context -/

/-- An event that is not registered has nothing recorded. -/
def FdContext.Clean (c : FdContext) : Prop :=
  ∀ e, c.events.has e = false → c.getContext e = resetContext

theorem FdContext.count_setEvent (c : FdContext) (e : Event) (event_ctx : EventContext) (v : Bool)
    (j : Job) :
    (c.setEvent e event_ctx v).waiters.count j +
        (if c.events.has e then [(c.getContext e).job] else []).count j =
      c.waiters.count j + (if v then [event_ctx.job] else []).count j := by
  obtain ⟨fd, read, write, ⟨r, w⟩⟩ := c
  cases e
  · change ((if v then [event_ctx.job] else []) ++ if w then [write.job] else []).count j +
        (if r then [read.job] else []).count j =
      ((if r then [read.job] else []) ++ if w then [write.job] else []).count j +
        (if v then [event_ctx.job] else []).count j
    rw [List.count_append, List.count_append]
    omega
  · change ((if r then [read.job] else []) ++ if v then [event_ctx.job] else []).count j +
        (if w then [write.job] else []).count j =
      ((if r then [read.job] else []) ++ if w then [write.job] else []).count j +
        (if v then [event_ctx.job] else []).count j
    rw [List.count_append, List.count_append]
    omega

theorem FdContext.Clean.setEvent {c : FdContext} (h : c.Clean) (e : Event)
    {event_ctx : EventContext} {v : Bool} (hv : v = false → event_ctx = resetContext) :
    (c.setEvent e event_ctx v).Clean := by
  intro e' he'
  cases e <;> cases e'
  · exact hv he'
  · exact h .WRITE he'
  · exact h .READ he'
  · exact hv he'

namespace Locked

variable {l l' l₁ l₂ : Locked} {e : Event} {ok : Bool}

/-- What a section accepts is handed on, deleted, or recorded in the context. -/
structure Hands (l l' : Locked) (accepted deleted : List Job) : Prop where
  count : ∀ j, l.jobs.count j + l.ctx.waiters.count j + accepted.count j =
    l'.jobs.count j + l'.ctx.waiters.count j + deleted.count j
  clean : l'.ctx.Clean

theorem Hands.refl (h : l.ctx.Clean) : Hands l l [] [] := ⟨fun _ => rfl, h⟩

theorem Hands.trans (h₁ : Hands l l₁ [] []) (h₂ : Hands l₁ l₂ [] []) : Hands l l₂ [] [] :=
  ⟨fun j => (h₁.count j).trans (h₂.count j), h₂.clean⟩

/-- What the event's context recorded becomes a job. -/
theorem fire_hands (hc : l.ctx.Clean) (h : l.fire e = some l') : Hands l l' [] [] := by
  unfold fire triggerEvent at h
  by_cases he : l.ctx.events.has e = true
  · rw [if_pos he] at h
    cases h
    refine ⟨fun j => ?_, hc.setEvent e fun _ => rfl⟩
    have hset := l.ctx.count_setEvent e resetContext false j
    rw [if_pos he, if_neg Bool.false_ne_true] at hset
    change _ = (l.jobs ++ [(l.ctx.getContext e).job]).count j +
      (l.ctx.setEvent e resetContext false).waiters.count j + _
    rw [List.count_append]
    have hnil : ([] : List Job).count j = 0 := rfl
    omega
  · rw [if_neg he] at h
    cases h

theorem fireIf_hands {b : Bool} (hc : l.ctx.Clean) (h : l.fireIf b e = some l') :
    Hands l l' [] [] := by
  cases b with
  | false =>
      cases h
      exact .refl hc
  | true => exact fire_hands hc h

theorem process_hands {event : EpollEvents} (hc : l.ctx.Clean) (h : l.process event ok = some l') :
    Hands l l' [] [] := by
  unfold process at h
  dsimp only at h
  split at h
  · cases h
    exact .refl hc
  · split at h
    · obtain ⟨l₁, h₁, h₂⟩ := Option.bind_eq_some_iff.mp h
      have hfirst := fireIf_hands hc h₁
      exact hfirst.trans (fireIf_hands hfirst.clean h₂)
    · cases h
      exact .refl hc

theorem cancelAll_hands {r : Bool × Locked} (hc : l.ctx.Clean) (h : l.cancelAll ok = some r) :
    Hands l r.2 [] [] := by
  unfold cancelAll at h
  split at h
  · cases h
    exact .refl hc
  · split at h
    · obtain ⟨l₁, h₁, h⟩ := Option.bind_eq_some_iff.mp h
      obtain ⟨l₂, h₂, h⟩ := Option.bind_eq_some_iff.mp h
      have hfirst := fireIf_hands hc h₁
      split at h
      · cases h
        exact hfirst.trans (fireIf_hands hfirst.clean h₂)
      · cases h
    · cases h
      exact .refl hc

theorem cancelEvent_hands {r : Bool × Locked} (hc : l.ctx.Clean) (h : l.cancelEvent e ok = some r) :
    Hands l r.2 [] [] := by
  unfold cancelEvent at h
  split at h
  · cases h
    exact .refl hc
  · split at h
    · obtain ⟨l₁, h₁, h⟩ := Option.map_eq_some_iff.mp h
      cases h
      exact fire_hands hc h₁
    · cases h
      exact .refl hc

theorem delEvent_hands (hc : l.ctx.Clean) :
    Hands l (l.delEvent e ok).2 [] (Op.deletes (.delEvent e) ok l) := by
  unfold Op.deletes delEvent
  dsimp only
  split
  · exact .refl hc
  · rename_i he
    split
    · rw [if_pos rfl]
      refine ⟨fun j => ?_, hc.setEvent e fun _ => rfl⟩
      have hset := l.ctx.count_setEvent e resetContext false j
      rw [if_pos (by simpa using he), if_neg Bool.false_ne_true] at hset
      have hnil : ([] : List Job).count j = 0 := rfl
      change l.jobs.count j + l.ctx.waiters.count j + _ = l.jobs.count j +
        (l.ctx.setEvent e resetContext false).waiters.count j + _
      omega
    · exact .refl hc

/-- Where the event is free the waiter of the call is recorded. -/
theorem addEvent_hands {scheduler : Option Nat} {handler : Handler} (hc : l.ctx.Clean)
    (he : l.ctx.events.has e = false) :
    Hands l (l.addEvent e scheduler handler ok).2
      (Op.accepts (.addEvent e scheduler handler) ok l) [] := by
  have hfree : ¬l.ctx.events.has e = true := by
    rw [he]
    exact Bool.false_ne_true
  unfold Op.accepts addEvent
  dsimp only
  rw [if_neg hfree]
  split
  · rw [if_pos rfl]
    refine ⟨fun j => ?_, hc.setEvent e fun hv => nomatch hv⟩
    have hnil : ([] : List Job).count j = 0 := rfl
    cases handler with
    | cb f =>
        have hset := l.ctx.count_setEvent e
          ⟨scheduler, (l.ctx.getContext e).coroutine, some f⟩ true j
        rw [if_neg hfree, if_pos rfl] at hset
        change _ = _ + [(scheduler, some (.cb f))].count j at hset
        change l.jobs.count j + l.ctx.waiters.count j + _ =
          l.jobs.count j + (l.ctx.setEvent e _ true).waiters.count j + _
        dsimp only
        omega
    | coroutine c =>
        have hset := l.ctx.count_setEvent e
          ⟨scheduler, some c, resetContext.cb⟩ true j
        rw [if_neg hfree, if_pos rfl] at hset
        change _ = _ + [(scheduler, some (.coroutine c))].count j at hset
        rw [hc e he]
        change l.jobs.count j + l.ctx.waiters.count j + _ =
          l.jobs.count j + (l.ctx.setEvent e _ true).waiters.count j + _
        dsimp only
        omega
  · rw [if_neg Bool.false_ne_true]
    exact .refl hc

theorem run_hands {op : Op} {r : Bool × Locked} (hc : l.ctx.Clean)
    (hfree : ∀ e scheduler handler, op = .addEvent e scheduler handler →
      l.ctx.events.has e = false) (h : op.run ok l = some r) :
    Hands l r.2 (op.accepts ok l) (op.deletes ok l) := by
  cases op with
  | addEvent e scheduler handler =>
      cases h
      exact addEvent_hands hc (hfree e scheduler handler rfl)
  | delEvent e =>
      cases h
      exact delEvent_hands hc
  | cancelEvent e => exact cancelEvent_hands hc h
  | cancelAll => exact cancelAll_hands hc h

end Locked

/-! ## All contexts -/

variable {s s' : IOManager}

def AllClean (s : IOManager) : Prop := ∀ c ∈ s.heap, c.Clean

theorem count_recorded_set {l : List FdContext} {i : Nat} {c : FdContext} (h : l[i]? = some c)
    (c' : FdContext) (j : Job) :
    ((l.set i c').flatMap FdContext.waiters).count j + c.waiters.count j =
      (l.flatMap FdContext.waiters).count j + c'.waiters.count j := by
  induction l generalizing i with
  | nil => cases h
  | cons x l ih =>
      cases i with
      | zero =>
          have hx : x = c := Option.some.inj h
          rw [List.set_cons_zero, List.flatMap_cons, List.flatMap_cons, List.count_append,
            List.count_append, hx]
          omega
      | succ i =>
          have h' := ih (i := i) h
          rw [List.set_cons_succ, List.flatMap_cons, List.flatMap_cons, List.count_append,
            List.count_append]
          omega

/-- A section that hands its waiters on does so for the whole. -/
theorem lock_hands {α : Type} {ctx : Nat} {f : Locked → Option (α × Locked)} {c : FdContext}
    (accepted deleted : List Job) (hc : s.heap[ctx]? = some c)
    (hclean : s.AllClean) (h : s.lock ctx f = some s')
    (hf : ∀ r, f ⟨c, s.m_pendingEventCount, s.jobs, []⟩ = some r → c.Clean →
      Locked.Hands ⟨c, s.m_pendingEventCount, s.jobs, []⟩ r.2 accepted deleted) :
    (∀ j, s.jobs.count j + s.recorded.count j + accepted.count j =
      s'.jobs.count j + s'.recorded.count j + deleted.count j) ∧ s'.AllClean := by
  unfold IOManager.lock at h
  rw [hc, Option.bind_some] at h
  obtain ⟨r, hr, h⟩ := Option.map_eq_some_iff.mp h
  have hands := hf r hr (hclean c (List.mem_of_getElem? hc))
  cases h
  constructor
  · intro j
    have hset := count_recorded_set hc r.2.ctx j
    have hcount := hands.count j
    change s.jobs.count j + c.waiters.count j + _ = _ at hcount
    change s.jobs.count j + (s.heap.flatMap FdContext.waiters).count j + _ =
      r.2.jobs.count j + ((s.heap.set ctx r.2.ctx).flatMap FdContext.waiters).count j + _
    omega
  · intro c' hc'
    rcases List.mem_or_eq_of_mem_set hc' with hold | rfl
    · exact hclean c' hold
    · exact hands.clean

theorem clean_create (fd : Nat) : (FdContext.create fd).Clean := by
  intro e _
  cases e <;> rfl

theorem contextResize_hands (hclean : s.AllClean) (size : Nat) :
    (s.contextResize size).recorded = s.recorded ∧ (s.contextResize size).AllClean := by
  constructor
  · change (s.heap ++ (List.range' _ _).map FdContext.create).flatMap FdContext.waiters = _
    rw [List.flatMap_append]
    have hnew : ∀ fds : List Nat, (fds.map FdContext.create).flatMap FdContext.waiters = [] := by
      intro fds
      induction fds with
      | nil => rfl
      | cons fd fds ih =>
          rw [List.map_cons, List.flatMap_cons, ih]
          rfl
    rw [hnew, List.append_nil]
    rfl
  · intro c hc
    rcases List.mem_append.mp hc with hold | hnew
    · exact hclean c hold
    · obtain ⟨fd, -, rfl⟩ := List.mem_map.mp hnew
      exact clean_create fd

end IOManager

namespace Waiters

variable {w w' : Waiters} {e : Step}

structure Inv (w : Waiters) : Prop where
  accounted : w.Accounted
  clean : w.io.AllClean

/-- The accounting of one step. -/
theorem step_hands (hclean : w.io.AllClean) (hg : w.FindsFree e)
    (h : w.io.exec e = some w'.io) :
    (∀ j, w.io.jobs.count j + w.io.recorded.count j + (w.io.ofSection Op.accepts e).count j =
      w'.io.jobs.count j + w'.io.recorded.count j + (w.io.ofSection Op.deletes e).count j) ∧
      w'.io.AllClean := by
  generalize w'.io = s' at h ⊢
  cases e with
  | call t fd op =>
      unfold IOManager.exec at h
      dsimp only at h
      split at h <;> cases h <;> exact ⟨fun _ => rfl, hclean⟩
  | resize t =>
      unfold IOManager.exec at h
      dsimp only at h
      split at h
      · rename_i fd op hcall
        obtain ⟨ctx, -, h⟩ := Option.map_eq_some_iff.mp h
        obtain ⟨hrec, hclean'⟩ := contextResize_hands hclean (fd * 3 / 2)
        rw [← h]
        refine ⟨fun j => ?_, hclean'⟩
        change _ = w.io.jobs.count j + (w.io.contextResize (fd * 3 / 2)).recorded.count j + _
        rw [hrec]
        rfl
      · cases h
        exact ⟨fun _ => rfl, hclean⟩
  | locked t ok =>
      cases hcall : w.io.calls t with
      | none =>
          simp only [IOManager.exec, hcall] at h
          cases h
          simp only [ofSection, pendingSection, hcall]
          exact ⟨fun _ => trivial, hclean⟩
      | some call =>
          cases call with
          | resize fd op =>
              simp only [IOManager.exec, hcall] at h
              cases h
              simp only [ofSection, pendingSection, hcall]
              exact ⟨fun _ => trivial, hclean⟩
          | locked ctx op =>
              simp only [IOManager.exec, hcall] at h
              obtain ⟨s₁, h₁, h⟩ := Option.map_eq_some_iff.mp h
              cases hc : w.io.heap[ctx]? with
              | none =>
                  unfold IOManager.lock at h₁
                  rw [hc] at h₁
                  cases h₁
              | some c =>
                  have hsec : w.io.pendingSection t =
                      some (op, ⟨c, w.io.m_pendingEventCount, w.io.jobs, []⟩) := by
                    simp only [pendingSection, hcall, hc, Option.map_some]
                  have hands := lock_hands (op.accepts ok _) (op.deletes ok _) hc hclean h₁
                    fun r hr hcl => Locked.run_hands hcl (fun e scheduler handler hop =>
                      hg e scheduler handler _ (hop ▸ hsec)) hr
                  rw [← h]
                  simp only [ofSection, hsec]
                  exact hands
  | harvest t events =>
      cases h
      exact ⟨fun _ => rfl, hclean⟩
  | process t ok =>
      unfold IOManager.exec at h
      dsimp only at h
      split at h
      · cases h
        exact ⟨fun _ => rfl, hclean⟩
      · cases h
        exact ⟨fun _ => rfl, hclean⟩
      · rename_i ctx event rest hev
        obtain ⟨s₁, h₁, h⟩ := Option.map_eq_some_iff.mp h
        rw [← h]
        cases hc : w.io.heap[ctx]? with
        | none =>
            unfold IOManager.lock at h₁
            rw [hc] at h₁
            cases h₁
        | some c =>
            have hands := lock_hands [] [] hc hclean h₁ fun r hr hcl => by
              obtain ⟨l', hl', rfl⟩ := Option.map_eq_some_iff.mp hr
              exact Locked.process_hands hcl hl'
            exact hands

theorem accounted_iff : w.Accounted ↔
    ∀ j, w.accepted.count j = w.deleted.count j + w.io.jobs.count j + w.io.recorded.count j := by
  unfold Accounted
  rw [List.perm_iff_count]
  simp only [List.count_append]

theorem Inv.step (h : Inv w) (hg : w.FindsFree e) (hs : waiters.step w e w') : Inv w' := by
  obtain ⟨⟨-, hexec⟩, hacc, hdel⟩ := hs
  obtain ⟨hcount, hclean⟩ := step_hands h.clean hg hexec
  refine ⟨accounted_iff.mpr fun j => ?_, hclean⟩
  have hold := accounted_iff.mp h.accounted j
  have hnew := hcount j
  rw [hacc, hdel, List.count_append, List.count_append]
  omega

theorem inv_create : Inv ⟨IOManager.create, [], []⟩ := by
  have hempty : IOManager.AllClean ⟨[], [], 0, [], [], fun _ => none, fun _ => []⟩ :=
    fun c hc => nomatch hc
  obtain ⟨hrec, hclean⟩ := contextResize_hands hempty 64
  refine ⟨accounted_iff.mpr fun j => ?_, hclean⟩
  change 0 = 0 + 0 + (IOManager.contextResize _ 64).recorded.count j
  rw [hrec]
  rfl

theorem run_inv {es : List Step} (h : (waiters.restrict FindsFree).Run es w) : Inv w := by
  refine h.invariant (I := Inv) ?_ ?_
  · rintro ⟨io, accepted, deleted⟩ ⟨rfl, rfl, rfl⟩
    exact inv_create
  · rintro w e w' hw ⟨hg, hstep⟩
    exact hw.step hg hstep

end Waiters

end CIM
