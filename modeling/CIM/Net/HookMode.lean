import Mathlib.Logic.Function.Basic
import CIM.Lib.System

/-!
# The mode of a socket

A descriptor's mode is kept in the kernel, as what the hooks set and as what the user asked for. The
contexts are found by number, and outlive a descriptor that a thread without hooks closes.
-/
namespace CIM.Hook

open Transition

/-- What the kernel knows of a descriptor. -/
structure Descriptor where
  socket : Bool
  nonblock : Bool
  deriving DecidableEq

def Descriptor.setMode (nonblock : Bool) (d : Descriptor) : Descriptor := { d with nonblock }

structure FdCtx where
  m_isInit : Bool
  m_isSocket : Bool
  m_sysNonBlock : Bool
  m_userNonBlock : Bool
  m_isClosed : Bool
  deriving DecidableEq

/-- `managed` and `asked` are not in the program: the number came from a socket or accept of the
hooks since it was opened, and the last request for a mode since then. -/
structure State where
  kernel : Nat → Option Descriptor
  m_fdCtxs : List (Option FdCtx)
  managed : Nat → Bool
  asked : Nat → Bool

/-- `FdCtx::init`, and what it makes of the descriptor. -/
def FdCtx.init : Option Descriptor → FdCtx × Option Descriptor
  | none => (⟨false, false, false, false, false⟩, none)
  | some d =>
      if d.socket then (⟨true, true, true, false, false⟩, some { d with nonblock := true })
      else (⟨true, false, false, false, false⟩, some d)

namespace FdManager

/-- `get(fd)` -/
def get (m_fdCtxs : List (Option FdCtx)) (fd : Nat) : Option FdCtx := m_fdCtxs.getD fd none

def resize (m_fdCtxs : List (Option FdCtx)) (size : Nat) : List (Option FdCtx) :=
  m_fdCtxs ++ List.replicate (size - m_fdCtxs.length) none

/-- `m_fdCtxs[fd] = ctx`, behind the resize of `get(fd, true)`. -/
def put (m_fdCtxs : List (Option FdCtx)) (fd : Nat) (ctx : FdCtx) : List (Option FdCtx) :=
  (if m_fdCtxs.length ≤ fd then resize m_fdCtxs (fd * 3 / 2 + 1) else m_fdCtxs).set fd (some ctx)

def del (m_fdCtxs : List (Option FdCtx)) (fd : Nat) : List (Option FdCtx) :=
  if m_fdCtxs.length ≤ fd then m_fdCtxs else m_fdCtxs.set fd none

theorem get_resize (m_fdCtxs : List (Option FdCtx)) (size fd : Nat) :
    get (resize m_fdCtxs size) fd = get m_fdCtxs fd := by
  simp only [get, resize, List.getD_eq_getElem?_getD]
  by_cases hfd : fd < m_fdCtxs.length
  · rw [List.getElem?_append_left hfd]
  · rw [List.getElem?_append_right (by omega), List.getElem?_replicate,
      List.getElem?_eq_none (by omega)]
    split <;> rfl

theorem get_set {m_fdCtxs : List (Option FdCtx)} {fd : Nat} (h : fd < m_fdCtxs.length)
    (ctx : Option FdCtx) (fd' : Nat) :
    get (m_fdCtxs.set fd ctx) fd' = if fd' = fd then ctx else get m_fdCtxs fd' := by
  simp only [get, List.getD_eq_getElem?_getD, List.getElem?_set]
  by_cases hfd : fd' = fd
  · simp [hfd, h]
  · simp [hfd, Ne.symm hfd]

theorem get_put (m_fdCtxs : List (Option FdCtx)) (fd : Nat) (ctx : FdCtx) (fd' : Nat) :
    get (put m_fdCtxs fd ctx) fd' = if fd' = fd then some ctx else get m_fdCtxs fd' := by
  rw [put]
  split
  · rw [get_set, get_resize]
    simp only [resize, List.length_append, List.length_replicate]
    omega
  · rw [get_set (by omega)]

theorem get_del (m_fdCtxs : List (Option FdCtx)) (fd fd' : Nat) :
    get (del m_fdCtxs fd) fd' = if fd' = fd then none else get m_fdCtxs fd' := by
  rw [del]
  split
  · by_cases hfd : fd' = fd
    · rw [if_pos hfd, hfd, get, List.getD_eq_getElem?_getD, List.getElem?_eq_none ‹_›]
      rfl
    · rw [if_neg hfd]
  · rw [get_set (by omega)]

end FdManager

namespace State

def ctx (s : State) (fd : Nat) : Option FdCtx := FdManager.get s.m_fdCtxs fd

/-- The context of a socket that the hooks look after. -/
def hooked (s : State) (fd : Nat) : Option FdCtx :=
  match s.ctx fd with
  | none => none
  | some ctx => if !ctx.m_isSocket || ctx.m_isClosed then none else some ctx

/-- `FdMgr::GetInstance()->get(fd, true)` -/
def getOrCreate (s : State) (fd : Nat) : State :=
  match s.ctx fd with
  | some _ => s
  | none =>
      let (ctx, d) := FdCtx.init (s.kernel fd)
      { s with
        kernel := Function.update s.kernel fd d
        m_fdCtxs := FdManager.put s.m_fdCtxs fd ctx }

/-- The kernel opens a descriptor under the number. -/
def kernelOpen (s : State) (fd : Nat) (d : Descriptor) : State :=
  { s with
    kernel := Function.update s.kernel fd (some d)
    managed := Function.update s.managed fd false
    asked := Function.update s.asked fd false }

def kernelMode (s : State) (fd : Nat) (nonblock : Bool) : State :=
  { s with kernel := Function.update s.kernel fd ((s.kernel fd).map (.setMode nonblock)) }

/-- The number is handed to the caller. -/
def hand (s : State) (fd : Nat) : State :=
  { s.getOrCreate fd with managed := Function.update s.managed fd true }

def socket (s : State) (hook_enable : Bool) (fd : Nat) (nonblock : Bool) : State :=
  let s := s.kernelOpen fd ⟨true, nonblock⟩
  if !hook_enable then s else s.hand fd

/-- `accept` does not ask whether hooks are enabled. -/
def accept (s : State) (fd : Nat) (nonblock : Bool) : State :=
  (s.kernelOpen fd ⟨true, nonblock⟩).hand fd

def close (s : State) (hook_enable : Bool) (fd : Nat) : State :=
  let closed : State :=
    { s with
      kernel := Function.update s.kernel fd none
      managed := Function.update s.managed fd false }
  if !hook_enable then closed else { closed with m_fdCtxs := FdManager.del s.m_fdCtxs fd }

/-- `fcntl(fd, F_SETFL, arg)`, `arg` its `O_NONBLOCK`. -/
def setfl (s : State) (fd : Nat) (arg : Bool) : State :=
  let s := { s with asked := Function.update s.asked fd arg }
  match s.hooked fd with
  | none => s.kernelMode fd arg
  | some ctx =>
      { s with m_fdCtxs := FdManager.put s.m_fdCtxs fd { ctx with m_userNonBlock := arg } }.kernelMode
        fd ctx.m_sysNonBlock

/-- `O_NONBLOCK` in what `fcntl(fd, F_GETFL)` returns. -/
def getfl (s : State) (fd : Nat) : Bool :=
  match s.hooked fd with
  | none => ((s.kernel fd).map Descriptor.nonblock).getD false
  | some ctx => ctx.m_userNonBlock

/-- `ioctl(fd, FIONBIO, &arg)` -/
def fionbio (s : State) (fd : Nat) (arg : Bool) : State :=
  let s := { s with asked := Function.update s.asked fd arg }
  match s.hooked fd with
  | none => s.kernelMode fd arg
  | some ctx =>
      { s with m_fdCtxs := FdManager.put s.m_fdCtxs fd { ctx with m_sysNonBlock := arg } }.kernelMode
        fd arg

/-- How `do_io` makes the call: at once, refused, or so that it may wait for an event. -/
inductive Io
  | direct
  | refused
  | suspending
  deriving DecidableEq

def do_io (s : State) (hook_enable : Bool) (fd : Nat) : Io :=
  if !hook_enable then .direct
  else
    match s.ctx fd with
    | none => .direct
    | some ctx =>
        if ctx.m_isClosed then .refused
        else if !ctx.m_isSocket || ctx.m_userNonBlock then .direct
        else .suspending

end State

/-- The numbers that are opened are the kernel's choice; `open_` is any other call that opens. -/
inductive Event
  | socket (hook_enable : Bool) (fd : Nat) (nonblock : Bool)
  | accept (fd : Nat) (nonblock : Bool)
  | open_ (fd : Nat) (d : Descriptor)
  | close (hook_enable : Bool) (fd : Nat)
  | setfl (fd : Nat) (arg : Bool)
  | fionbio (fd : Nat) (arg : Bool)

inductive Step : State → Event → State → Prop
  | socket {s : State} {hook_enable : Bool} {fd : Nat} {nonblock : Bool} : s.kernel fd = none →
      Step s (.socket hook_enable fd nonblock) (s.socket hook_enable fd nonblock)
  | accept {s : State} {fd : Nat} {nonblock : Bool} : s.kernel fd = none →
      Step s (.accept fd nonblock) (s.accept fd nonblock)
  | open_ {s : State} {fd : Nat} {d : Descriptor} : s.kernel fd = none →
      Step s (.open_ fd d) (s.kernelOpen fd d)
  | close {s : State} {hook_enable : Bool} {fd : Nat} :
      Step s (.close hook_enable fd) (s.close hook_enable fd)
  | setfl {s : State} {fd : Nat} {arg : Bool} : Step s (.setfl fd arg) (s.setfl fd arg)
  | fionbio {s : State} {fd : Nat} {arg : Bool} : Step s (.fionbio fd arg) (s.fionbio fd arg)

/-- Descriptors may be open already; there is no context yet. -/
def system : System State Event where
  init s := s.m_fdCtxs = List.replicate 64 none ∧ ∀ fd, s.managed fd = false
  step := Step

/-- The number an event is about. -/
def Event.fd : Event → Nat
  | .socket _ fd _ | .accept fd _ | .open_ fd _ | .close _ fd | .setfl fd _ | .fionbio fd _ => fd

/-- All that is known under one number. -/
structure View where
  kernel : Option Descriptor
  ctx : Option FdCtx
  managed : Bool
  asked : Bool

def State.view (s : State) (fd : Nat) : View := ⟨s.kernel fd, s.ctx fd, s.managed fd, s.asked fd⟩

/-- A managed descriptor does not block in the kernel, has a context that keeps it so, and the mode
the context reports is the one that was asked for. -/
def View.Kept (v : View) : Prop :=
  v.managed = true → ∃ d ctx, v.kernel = some d ∧ d.nonblock = true ∧ v.ctx = some ctx ∧
    ctx.m_isSocket = true ∧ ctx.m_isClosed = false ∧ ctx.m_sysNonBlock = true ∧
    ctx.m_userNonBlock = v.asked

def Inv (s : State) : Prop := ∀ fd, (s.view fd).Kept

/-- A number is handed out without a context of its predecessor, or with one that is as a new one
and a descriptor that does not block; `FIONBIO` of a managed socket asks for non-blocking mode,
which `F_SETFL` has asked for before. -/
def Guard (s : State) : Event → Prop
  | .socket true fd nonblock | .accept fd nonblock =>
      ∀ ctx, s.ctx fd = some ctx → nonblock = true ∧ ctx.m_isSocket = true ∧
        ctx.m_isClosed = false ∧ ctx.m_sysNonBlock = true ∧ ctx.m_userNonBlock = false
  | .fionbio fd arg => s.managed fd = true → arg = true ∧ s.getfl fd = true
  | _ => True

section

variable {s s' : State} {e : Event} {fd fd' : Nat}

theorem view_kernelOpen (s : State) (fd : Nat) (d : Descriptor) (fd' : Nat) :
    (s.kernelOpen fd d).view fd' =
      if fd' = fd then ⟨some d, s.ctx fd, false, false⟩ else s.view fd' := by
  by_cases h : fd' = fd
  · simp [State.view, State.kernelOpen, State.ctx, h]
  · simp [State.view, State.kernelOpen, State.ctx, h]

/-- The context that a number has afterwards, and its descriptor. -/
def handed (s : State) (fd : Nat) : FdCtx × Option Descriptor :=
  match s.ctx fd with
  | some ctx => (ctx, s.kernel fd)
  | none => FdCtx.init (s.kernel fd)

theorem view_hand (s : State) (fd fd' : Nat) :
    (s.hand fd).view fd' =
      if fd' = fd then ⟨(handed s fd).2, some (handed s fd).1, true, s.asked fd⟩
      else s.view fd' := by
  unfold State.hand State.getOrCreate handed
  by_cases h : fd' = fd
  · subst h
    rcases hc : s.ctx fd' with _ | ctx
    · simp [State.view, State.ctx, FdManager.get_put]
    · simpa [State.view, State.ctx] using hc
  · rcases hc : s.ctx fd with _ | ctx
    · simp [State.view, State.ctx, FdManager.get_put, h]
    · simp [State.view, State.ctx, h]

theorem view_close (s : State) (hook_enable : Bool) (fd fd' : Nat) :
    (s.close hook_enable fd).view fd' =
      if fd' = fd then ⟨none, if hook_enable then none else s.ctx fd, false, s.asked fd⟩
      else s.view fd' := by
  by_cases h : fd' = fd
  · cases hook_enable <;> simp [State.view, State.close, State.ctx, FdManager.get_del, h]
  · cases hook_enable <;> simp [State.view, State.close, State.ctx, FdManager.get_del, h]

theorem view_setfl (s : State) (fd : Nat) (arg : Bool) (fd' : Nat) :
    (s.setfl fd arg).view fd' =
      if fd' = fd then
        match s.hooked fd with
        | none => ⟨(s.kernel fd).map (.setMode arg), s.ctx fd, s.managed fd, arg⟩
        | some ctx => ⟨(s.kernel fd).map (.setMode ctx.m_sysNonBlock),
            some { ctx with m_userNonBlock := arg }, s.managed fd, arg⟩
      else s.view fd' := by
  have hhooked : { s with asked := Function.update s.asked fd arg }.hooked fd = s.hooked fd := rfl
  unfold State.setfl
  simp only [hhooked]
  rcases s.hooked fd with _ | ctx
  · by_cases h : fd' = fd
    · simp [State.view, State.kernelMode, State.ctx, h]
    · simp [State.view, State.kernelMode, State.ctx, h]
  · by_cases h : fd' = fd
    · simp [State.view, State.kernelMode, State.ctx, FdManager.get_put, h]
    · simp [State.view, State.kernelMode, State.ctx, FdManager.get_put, h]

theorem view_fionbio (s : State) (fd : Nat) (arg : Bool) (fd' : Nat) :
    (s.fionbio fd arg).view fd' =
      if fd' = fd then
        ⟨(s.kernel fd).map (.setMode arg),
          match s.hooked fd with
          | none => s.ctx fd
          | some ctx => some { ctx with m_sysNonBlock := arg }, s.managed fd, arg⟩
      else s.view fd' := by
  have hhooked : { s with asked := Function.update s.asked fd arg }.hooked fd = s.hooked fd := rfl
  unfold State.fionbio
  simp only [hhooked]
  rcases s.hooked fd with _ | ctx
  · by_cases h : fd' = fd
    · simp [State.view, State.kernelMode, State.ctx, h]
    · simp [State.view, State.kernelMode, State.ctx, h]
  · by_cases h : fd' = fd
    · simp [State.view, State.kernelMode, State.ctx, FdManager.get_put, h]
    · simp [State.view, State.kernelMode, State.ctx, FdManager.get_put, h]

/-- An event changes what is known under its own number. -/
theorem Step.view_of_ne (hs : Step s e s') (h : fd' ≠ e.fd) : s'.view fd' = s.view fd' := by
  cases hs with
  | @socket hook_enable fd nonblock _ =>
      cases hook_enable with
      | false => exact (view_kernelOpen ..).trans (if_neg h)
      | true =>
          exact ((view_hand ..).trans (if_neg h)).trans ((view_kernelOpen ..).trans (if_neg h))
  | accept _ =>
      exact ((view_hand ..).trans (if_neg h)).trans ((view_kernelOpen ..).trans (if_neg h))
  | open_ _ => exact (view_kernelOpen ..).trans (if_neg h)
  | close => exact (view_close ..).trans (if_neg h)
  | setfl => exact (view_setfl ..).trans (if_neg h)
  | fionbio => exact (view_fionbio ..).trans (if_neg h)

/-- A number that was opened and is handed out. -/
theorem kept_hand_iff (s : State) (fd : Nat) (nonblock : Bool) :
    (((s.kernelOpen fd ⟨true, nonblock⟩).hand fd).view fd).Kept ↔
      ∀ ctx, s.ctx fd = some ctx → nonblock = true ∧ ctx.m_isSocket = true ∧
        ctx.m_isClosed = false ∧ ctx.m_sysNonBlock = true ∧ ctx.m_userNonBlock = false := by
  have hkernel : (s.kernelOpen fd ⟨true, nonblock⟩).kernel fd = some ⟨true, nonblock⟩ :=
    Function.update_self ..
  have hasked : (s.kernelOpen fd ⟨true, nonblock⟩).asked fd = false := Function.update_self ..
  have hctx : (s.kernelOpen fd ⟨true, nonblock⟩).ctx fd = s.ctx fd := rfl
  rw [view_hand, if_pos rfl, handed, hctx, hkernel, hasked]
  rcases s.ctx fd with _ | ctx
  · refine iff_of_true (fun _ => ?_) (fun ctx h => ?_)
    · exact ⟨_, _, rfl, rfl, rfl, rfl, rfl, rfl, rfl⟩
    · cases h
  · constructor
    · rintro h ctx' hctx'
      obtain rfl := Option.some.inj hctx'
      obtain ⟨d, ctx', hd, hmode, hsome, hrest⟩ := h rfl
      obtain rfl := Option.some.inj hd
      obtain rfl := Option.some.inj hsome
      exact ⟨hmode, hrest⟩
    · intro h _
      obtain ⟨hmode, hrest⟩ := h ctx rfl
      exact ⟨_, ctx, rfl, hmode, rfl, hrest⟩

theorem hooked_of_kept (h : (s.view fd).Kept) (hm : s.managed fd = true) :
    ∃ d ctx, s.kernel fd = some d ∧ s.hooked fd = some ctx ∧ s.ctx fd = some ctx ∧
      d.nonblock = true ∧ ctx.m_isSocket = true ∧ ctx.m_isClosed = false ∧
      ctx.m_sysNonBlock = true ∧ ctx.m_userNonBlock = s.asked fd := by
  obtain ⟨d, ctx, hd, hmode, hctx, hsocket, hclosed, hsys, huser⟩ := h hm
  have hctx' : s.ctx fd = some ctx := hctx
  refine ⟨d, ctx, hd, ?_, hctx', hmode, hsocket, hclosed, hsys, huser⟩
  simp [State.hooked, hctx', hsocket, hclosed]

theorem kept_setfl (h : (s.view fd).Kept) (arg : Bool) : ((s.setfl fd arg).view fd).Kept := by
  rw [view_setfl, if_pos rfl]
  intro hm
  have hm' : s.managed fd = true := by
    split at hm
    · exact hm
    · exact hm
  obtain ⟨d, ctx, hd, hhooked, -, -, hsocket, hclosed, hsys, -⟩ := hooked_of_kept h hm'
  rw [hhooked, hd]
  exact ⟨_, _, rfl, hsys, rfl, hsocket, hclosed, hsys, rfl⟩

theorem kept_fionbio_iff (h : (s.view fd).Kept) (arg : Bool) :
    ((s.fionbio fd arg).view fd).Kept ↔
      (s.managed fd = true → arg = true ∧ s.getfl fd = true) := by
  rw [view_fionbio, if_pos rfl]
  refine forall_congr' fun hm => ?_
  obtain ⟨d, ctx, hd, hhooked, -, -, hsocket, hclosed, hsys, -⟩ := hooked_of_kept h hm
  rw [State.getfl, hhooked, hd]
  constructor
  · rintro ⟨d', ctx', hd', hmode, hctx', -, -, -, huser⟩
    obtain rfl := Option.some.inj hd'
    obtain rfl := Option.some.inj hctx'
    have harg : arg = true := hmode
    exact ⟨harg, huser.trans harg⟩
  · rintro ⟨rfl, huser⟩
    exact ⟨_, _, rfl, rfl, rfl, hsocket, hclosed, rfl, huser⟩

/-- The guard is exact. -/
theorem Step.inv_iff (hs : Step s e s') (hi : Inv s) : Inv s' ↔ Guard s e := by
  have hown : Inv s' ↔ (s'.view e.fd).Kept := by
    refine ⟨fun h => h e.fd, fun h fd' => ?_⟩
    by_cases hfd : fd' = e.fd
    · rw [hfd]
      exact h
    · rw [hs.view_of_ne hfd]
      exact hi fd'
  rw [hown]
  cases hs with
  | @socket hook_enable fd nonblock _ =>
      cases hook_enable with
      | true => exact kept_hand_iff s fd nonblock
      | false =>
          refine iff_of_true ?_ trivial
          change ((s.kernelOpen fd ⟨true, nonblock⟩).view fd).Kept
          rw [view_kernelOpen, if_pos rfl]
          exact nofun
  | @accept fd nonblock _ => exact kept_hand_iff s fd nonblock
  | @open_ fd d _ =>
      refine iff_of_true ?_ trivial
      change ((s.kernelOpen fd d).view fd).Kept
      rw [view_kernelOpen, if_pos rfl]
      exact nofun
  | @close hook_enable fd =>
      refine iff_of_true ?_ trivial
      change ((s.close hook_enable fd).view fd).Kept
      rw [view_close, if_pos rfl]
      exact nofun
  | @setfl fd arg => exact iff_of_true (kept_setfl (hi fd) arg) trivial
  | @fionbio fd arg => exact kept_fionbio_iff (hi fd) arg

end

/-- What a managed descriptor promises: it does not block in the kernel, reports the mode that was
asked for last, and does not wait for an event where that is the non-blocking one. -/
structure Right (s : State) (fd : Nat) : Prop where
  live : ∃ d, s.kernel fd = some d ∧ d.nonblock = true
  reported : s.getfl fd = s.asked fd
  direct : s.asked fd = true → s.do_io true fd = .direct

theorem Inv.right {s : State} (h : Inv s) {fd : Nat} (hm : s.managed fd = true) : Right s fd := by
  obtain ⟨d, ctx, hd, hhooked, hctx, hmode, hsocket, hclosed, -, huser⟩ :=
    hooked_of_kept (h fd) hm
  refine ⟨⟨d, hd, hmode⟩, ?_, fun hasked => ?_⟩
  · rw [State.getfl, hhooked]
    exact huser
  · simp [State.do_io, hctx, hclosed, hsocket, huser, hasked]

/-- Along a run within the guard every managed descriptor is right, and the next event keeps what
they rest on if and only if it is within the guard too. -/
theorem run_managed_right {es : List Event} {s : State} (h : (system.restrict Guard).Run es s) :
    (∀ fd, s.managed fd = true → Right s fd) ∧
      ∀ e s', Step s e s' → (Inv s' ↔ Guard s e) := by
  have hinv : Inv s := by
    refine h.invariant (I := Inv) ?_ ?_
    · rintro s₀ ⟨-, hnone⟩ fd' hm'
      have hfalse : s₀.managed fd' = true := hm'
      rw [hnone] at hfalse
      cases hfalse
    · rintro s₁ e s₂ hi ⟨hg, hs⟩
      exact (hs.inv_iff hi).mpr hg
  exact ⟨fun fd hm => hinv.right hm, fun e s' hs => hs.inv_iff hinv⟩

/-- No descriptor is open. -/
def State.idle : State := ⟨fun _ => none, List.replicate 64 none, fun _ => false, fun _ => false⟩

/-- A number that is closed with hooks before it is handed out again, and a mode that is set
twice. -/
theorem run_managed_right_reused :
    ∃ s : State, (system.restrict Guard).Run
        [.socket true 3 false, .close true 3, .accept 3 false, .setfl 3 true, .fionbio 3 true] s ∧
      Right s 3 := by
  have h₀ : (system.restrict Guard).Run [] State.idle := .start ⟨rfl, fun _ => rfl⟩
  have h₁ := h₀.snoc (e := Event.socket true 3 false) ⟨nofun, .socket rfl⟩
  have h₂ := h₁.snoc (e := Event.close true 3) ⟨trivial, .close⟩
  have h₃ := h₂.snoc (e := Event.accept 3 false) ⟨nofun, .accept rfl⟩
  have h₄ := h₃.snoc (e := Event.setfl 3 true) ⟨trivial, .setfl⟩
  have h₅ := h₄.snoc (e := Event.fionbio 3 true) ⟨fun _ => ⟨rfl, by decide⟩, .fionbio⟩
  exact ⟨_, h₅, (run_managed_right h₅).1 3 (by decide)⟩

/-- `FIONBIO` is not reported, and undoes what keeps the kernel from blocking; and a context that
was left behind is taken for the next descriptor. -/
theorem managed_wrong :
    (∃ s : State, system.Run [.socket true 3 false, .fionbio 3 true] s ∧ s.managed 3 = true ∧
      s.asked 3 = true ∧ s.getfl 3 = false ∧ s.do_io true 3 = .suspending) ∧
    (∃ s : State, system.Run [.socket true 3 false, .fionbio 3 false] s ∧ s.managed 3 = true ∧
      s.kernel 3 = some ⟨true, false⟩) ∧
    (∃ s : State, system.Run [.socket true 3 false, .close false 3, .socket true 3 false] s ∧
      s.managed 3 = true ∧ s.kernel 3 = some ⟨true, false⟩) ∧
    ¬ ∀ es s, system.Run es s → ∀ fd, s.managed fd = true → Right s fd := by
  have h₀ : system.Run [] State.idle := .start ⟨rfl, fun _ => rfl⟩
  have h₁ := h₀.snoc (e := Event.socket true 3 false) (.socket rfl)
  have hask := h₁.snoc (e := Event.fionbio 3 true) .fionbio
  have hclear := h₁.snoc (e := Event.fionbio 3 false) .fionbio
  have hclose := h₁.snoc (e := Event.close false 3) .close
  have hreuse := hclose.snoc (e := Event.socket true 3 false) (.socket rfl)
  refine ⟨⟨_, hask, by decide⟩, ⟨_, hclear, by decide⟩,
    ⟨_, hreuse, by decide⟩, fun h => ?_⟩
  have hreported := (h _ _ hask 3 (by decide)).reported
  revert hreported
  decide

end CIM.Hook
