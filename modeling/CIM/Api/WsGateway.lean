import CIM.Api.QueryKV
import CIM.Lib.System
import CIM.Ns.NodeIdentity
import Mathlib.Logic.Function.Basic

/-!
# Connections of the gateway

A session is in the table of connections from its `on_connect` to its `on_close`. Sessions come and
go at the same time, and a session may get the address of one that is gone.
-/
namespace CIM.api

open Transition

/-! ## One connection -/

structure ConnCtx where
  uid : UInt64
  platform : Text
  conn_id : Text

/-- `std::stoull`; what it refuses is a zero here, as in `on_connect`. -/
def stoull (suid : Text) : UInt64 :=
  let r := ns.numeral suid
  if 18446744073709551616 ≤ r.2 then 0
  else if r.1 then 0 - UInt64.ofNat r.2 else UInt64.ofNat r.2

/-- `on_connect` up to the context: the user and the platform, or the message of the error event.
`VerifyJwt` is none for a token that it refuses. -/
def authorize (VerifyJwt : Text → Option Text) (query : Text) : Except String (UInt64 × Text) :=
  let kv := ParseQueryKV query
  let token := (kv.lookup "token".toList).getD []
  let platform := (kv.lookup "platform".toList).getD "web".toList
  if token.isEmpty then .error "unauthorized"
  else
    match VerifyJwt token with
    | none => .error "unauthorized"
    | some suid =>
        if suid.isEmpty then .error "unauthorized"
        else if stoull suid = 0 then .error "invalid uid"
        else .ok (stoull suid, if platform.isEmpty then "web".toList else platform)

/-- Where the handler of a session is. -/
inductive Phase
  | shaking
  | routed (query : Text)
  | numbered (query : Text) (ctx : ConnCtx)
  | receiving (query : Text)
  | closing

/-- The sessions and what is known of them are kept under their addresses. -/
structure Gateway where
  s_conn_seq : UInt64
  s_ws_conns : AList fun _ : Nat => ConnCtx
  handlers : Nat → Option Phase

inductive GatewayEvent
  | accept (session : Nat)
  | shake (session : Nat) (query : Option Text)
  | connect (session now : Nat)
  | enter (session : Nat)
  | message (session : Nat)
  | hangup (session : Nat)
  | close (session : Nat)

namespace Gateway

def moveTo (s : Gateway) (session : Nat) (p : Option Phase) : Gateway :=
  { s with handlers := Function.update s.handlers session p }

/-- One step of `WSServer::handleClient` with the callbacks of the gateway. A session that did not
shake hands, or for whose path there is no servlet, has no query. `on_message` returns 0 in any
case, so the loop ends when nothing is received any more. -/
def exec (VerifyJwt : Nat → Text → Option Text) (s : Gateway) : GatewayEvent → Option Gateway
  | .accept session =>
      match s.handlers session with
      | none => some (s.moveTo session (some .shaking))
      | some _ => none
  | .shake session query =>
      match s.handlers session with
      | some .shaking => some (s.moveTo session (some ((query.map Phase.routed).getD .closing)))
      | _ => none
  | .connect session now =>
      match s.handlers session with
      | some (.routed query) =>
          match authorize (VerifyJwt now) query with
          | .error _ => some (s.moveTo session (some .closing))
          | .ok (uid, platform) =>
              -- `s_conn_seq.fetch_add(1)` is before the lock of the table
              some { s.moveTo session (some (.numbered query
                ⟨uid, platform, Nat.toDigits 10 s.s_conn_seq.toNat⟩)) with
                s_conn_seq := s.s_conn_seq + 1 }
      | _ => none
  | .enter session =>
      match s.handlers session with
      | some (.numbered query ctx) =>
          some { s.moveTo session (some (.receiving query)) with
            s_ws_conns := s.s_ws_conns.insert session ctx }
      | _ => none
  | .message session =>
      match s.handlers session with
      | some (.receiving _) => some s
      | _ => none
  | .hangup session =>
      match s.handlers session with
      | some (.receiving _) =>
          some { s.moveTo session (some .closing) with s_ws_conns := s.s_ws_conns.erase session }
      | _ => none
  | .close session =>
      match s.handlers session with
      | some .closing => some (s.moveTo session none)
      | _ => none

end Gateway

def gateway (VerifyJwt : Nat → Text → Option Text) : System Gateway GatewayEvent where
  init s := s = ⟨1, ∅, fun _ => none⟩
  step s e s' := s.exec VerifyJwt e = some s'

namespace Gateway

/-- The user, the platform and the id of a session, while it has them. -/
inductive Holds (s : Gateway) (a : Nat) : Text → ConnCtx → Prop
  | numbered {q ctx} (h : s.handlers a = some (.numbered q ctx)) : Holds s a q ctx
  | receiving {q ctx} (h : s.handlers a = some (.receiving q))
      (hctx : s.s_ws_conns.lookup a = some ctx) : Holds s a q ctx

/-- The token of the query was accepted for the user at some time. -/
structure Allowed (V : Nat → Text → Option Text) (q : Text) (ctx : ConnCtx) : Prop where
  token : ∃ now token suid, (ParseQueryKV q).lookup "token".toList = some token ∧
    V now token = some suid ∧ ctx.uid = stoull suid
  uid : ctx.uid ≠ 0
  platform : ctx.platform ≠ []

variable {V : Nat → Text → Option Text} {s s' : Gateway} {a b session n : Nat} {q query : Text}
  {ctx : ConnCtx} {e : GatewayEvent} {es : List GatewayEvent} {p : Option Phase}

theorem authorize_ok {now : Nat} {uid : UInt64} {platform conn_id : Text}
    (h : authorize (V now) q = .ok (uid, platform)) : Allowed V q ⟨uid, platform, conn_id⟩ := by
  simp only [authorize] at h
  split at h
  · cases h
  · rename_i htoken
    split at h
    · cases h
    · rename_i suid hverify
      split at h
      · cases h
      · split at h
        · cases h
        · rename_i huid
          cases h
          refine ⟨?_, huid, ?_⟩
          · cases hlookup : (ParseQueryKV q).lookup "token".toList with
            | none =>
                rw [hlookup] at htoken
                exact absurd rfl htoken
            | some token =>
                rw [hlookup] at hverify
                exact ⟨now, token, suid, rfl, hverify, rfl⟩
          · dsimp only
            split
            · decide
            · rename_i hne
              exact fun hnil => hne (by rw [hnil]; rfl)

structure Keeps (V : Nat → Text → Option Text) (s : Gateway) : Prop where
  table : ∀ a, (∃ ctx, s.s_ws_conns.lookup a = some ctx) ↔
    ∃ q, s.handlers a = some (.receiving q)
  allowed : ∀ a q ctx, Holds s a q ctx → Allowed V q ctx

/-- No two sessions have the same id. -/
structure Counted (n : Nat) (s : Gateway) : Prop where
  seq : s.s_conn_seq.toNat ≤ n + 1
  number : ∀ a q ctx, Holds s a q ctx →
    ∃ i < s.s_conn_seq.toNat, ctx.conn_id = Nat.toDigits 10 i
  distinct : ∀ a b q q' ctx ctx', Holds s a q ctx → Holds s b q' ctx' →
    ctx.conn_id = ctx'.conn_id → a = b

theorem Counted.mono (h : Counted n s) (hseq : s'.s_conn_seq = s.s_conn_seq)
    (hholds : ∀ a q ctx, Holds s' a q ctx → Holds s a q ctx) : Counted n s' where
  seq := hseq ▸ h.seq
  number a q ctx ha := hseq ▸ h.number a q ctx (hholds a q ctx ha)
  distinct a b q q' ctx ctx' ha hb := h.distinct a b q q' ctx ctx' (hholds a q ctx ha)
    (hholds b q' ctx' hb)

/-- A phase with an id or without one. -/
def Phase.Idle (p : Option Phase) : Prop :=
  (∀ q ctx, p ≠ some (.numbered q ctx)) ∧ ∀ q, p ≠ some (.receiving q)

theorem moveTo_self : (s.moveTo session p).handlers session = p := Function.update_self ..

theorem moveTo_ne (ha : a ≠ session) : (s.moveTo session p).handlers a = s.handlers a :=
  Function.update_of_ne ha ..

/-- What a step of one session leaves to the others. -/
theorem holds_other (h : Holds s' a q ctx) (ha : a ≠ session)
    (hhandlers : s'.handlers = (s.moveTo session p).handlers)
    (hconns : s'.s_ws_conns.lookup a = s.s_ws_conns.lookup a) : Holds s a q ctx := by
  cases h with
  | numbered h =>
      rw [hhandlers, moveTo_ne ha] at h
      exact .numbered h
  | receiving h hctx =>
      rw [hhandlers, moveTo_ne ha] at h
      rw [hconns] at hctx
      exact .receiving h hctx

theorem table_other (h : Keeps V s) (ha : a ≠ session)
    (hhandlers : s'.handlers = (s.moveTo session p).handlers)
    (hconns : s'.s_ws_conns.lookup a = s.s_ws_conns.lookup a) :
    (∃ ctx, s'.s_ws_conns.lookup a = some ctx) ↔ ∃ q, s'.handlers a = some (.receiving q) := by
  rw [hhandlers, moveTo_ne ha, hconns]
  exact h.table a

theorem holds_moveTo (hp : Phase.Idle p) (h : Holds (s.moveTo session p) a q ctx) :
    Holds s a q ctx := by
  by_cases ha : a = session
  · subst ha
    cases h with
    | numbered h =>
        rw [moveTo_self] at h
        exact absurd h (hp.1 q ctx)
    | receiving h _ =>
        rw [moveTo_self] at h
        exact absurd h (hp.2 q)
  · exact holds_other h ha rfl rfl

theorem Keeps.moveTo (h : Keeps V s) (hp : Phase.Idle p)
    (hs : ∀ q, s.handlers session ≠ some (.receiving q)) : Keeps V (s.moveTo session p) where
  table a := by
    by_cases ha : a = session
    · subst ha
      rw [moveTo_self]
      refine iff_of_false (fun hin => ?_) ?_
      · obtain ⟨q, hq⟩ := (h.table a).mp hin
        exact hs q hq
      · rintro ⟨q, hq⟩
        exact hp.2 q hq
    · exact table_other h ha rfl rfl
  allowed a q ctx ha := h.allowed a q ctx (holds_moveTo hp ha)

/-! ## Steps -/

section Connect

variable (hs : s.handlers session = some (.routed query))
  (hs' : s' = { s.moveTo session (some (.numbered query ctx)) with
    s_conn_seq := s.s_conn_seq + 1 })
include hs hs'

theorem holds_connect {ctx' : ConnCtx} (h : Holds s' a q ctx') :
    (a = session ∧ q = query ∧ ctx' = ctx) ∨ a ≠ session ∧ Holds s a q ctx' := by
  by_cases ha : a = session
  · subst ha
    refine .inl ⟨rfl, ?_⟩
    have hself : s'.handlers a = some (.numbered query ctx) := by
      rw [hs']
      exact moveTo_self
    cases h with
    | numbered h =>
        rw [hself] at h
        cases h
        exact ⟨rfl, rfl⟩
    | receiving h _ =>
        rw [hself] at h
        cases h
  · subst hs'
    exact .inr ⟨ha, holds_other h ha rfl rfl⟩

theorem Keeps.connect (h : Keeps V s) (hctx : Allowed V query ctx) : Keeps V s' where
  table a := by
    subst hs'
    by_cases ha : a = session
    · subst ha
      have hself : (s.moveTo a (some (.numbered query ctx))).handlers a =
          some (.numbered query ctx) := moveTo_self
      refine iff_of_false (fun hin => ?_) ?_
      · obtain ⟨q, hq⟩ := (h.table a).mp hin
        rw [hs] at hq
        cases hq
      · rintro ⟨q, hq⟩
        cases hself.symm.trans hq
    · exact table_other h ha rfl rfl
  allowed a q ctx' ha := by
    rcases holds_connect hs hs' ha with ⟨-, rfl, rfl⟩ | ⟨-, ha⟩
    · exact hctx
    · exact h.allowed a q ctx' ha

/-- The number is larger than those that were given before, as long as it does not wrap. -/
theorem Counted.connect (h : Counted n s) (hn : n + 2 < 2 ^ 64)
    (hctx : ctx.conn_id = Nat.toDigits 10 s.s_conn_seq.toNat) : Counted (n + 1) s' := by
  have hseq : s'.s_conn_seq.toNat = s.s_conn_seq.toNat + 1 := by
    have hle := h.seq
    rw [hs']
    change (s.s_conn_seq + 1).toNat = _
    rw [UInt64.toNat_add]
    exact Nat.mod_eq_of_lt (by change s.s_conn_seq.toNat + 1 < 2 ^ 64; omega)
  have hnew : ∀ a q ctx', Holds s a q ctx' → ctx'.conn_id ≠ ctx.conn_id := by
    intro a q ctx' ha heq
    obtain ⟨i, hi, hid⟩ := h.number a q ctx' ha
    rw [hid, hctx] at heq
    have hval := congrArg (fun l => Nat.ofDigitChars 10 l 0) heq
    simp only [Nat.ofDigitChars_ten_toDigits] at hval
    omega
  refine ⟨by have := h.seq; omega, ?_, ?_⟩
  · intro a q ctx' ha
    rcases holds_connect hs hs' ha with ⟨-, -, rfl⟩ | ⟨-, ha⟩
    · exact ⟨_, by omega, hctx⟩
    · obtain ⟨i, hi, hid⟩ := h.number a q ctx' ha
      exact ⟨i, by omega, hid⟩
  · intro a b q q' c c' ha hb hid
    rcases holds_connect hs hs' ha with ⟨rfl, -, rfl⟩ | ⟨-, ha⟩
    · rcases holds_connect hs hs' hb with ⟨rfl, -, -⟩ | ⟨-, hb⟩
      · rfl
      · exact absurd hid.symm (hnew b q' c' hb)
    · rcases holds_connect hs hs' hb with ⟨-, -, rfl⟩ | ⟨-, hb⟩
      · exact absurd hid (hnew a q c ha)
      · exact h.distinct a b q q' c c' ha hb hid

end Connect

theorem holds_enter (hs : s.handlers session = some (.numbered query ctx)) {ctx' : ConnCtx}
    (h : Holds { s.moveTo session (some (.receiving query)) with
      s_ws_conns := s.s_ws_conns.insert session ctx } a q ctx') : Holds s a q ctx' := by
  by_cases ha : a = session
  · subst ha
    have hself : (s.moveTo a (some (.receiving query))).handlers a = some (.receiving query) :=
      moveTo_self
    cases h with
    | numbered h => cases hself.symm.trans h
    | receiving h hctx =>
        cases hself.symm.trans h
        cases (AList.lookup_insert _).symm.trans hctx
        exact .numbered hs
  · exact holds_other h ha rfl (AList.lookup_insert_ne ha)

theorem Keeps.enter (h : Keeps V s) (hs : s.handlers session = some (.numbered query ctx)) :
    Keeps V { s.moveTo session (some (.receiving query)) with
      s_ws_conns := s.s_ws_conns.insert session ctx } where
  table a := by
    by_cases ha : a = session
    · subst ha
      exact iff_of_true ⟨ctx, AList.lookup_insert _⟩ ⟨query, moveTo_self⟩
    · exact table_other h ha rfl (AList.lookup_insert_ne ha)
  allowed a q ctx' ha := h.allowed a q ctx' (holds_enter hs ha)

theorem holds_hangup (h : Holds { s.moveTo session (some .closing) with
    s_ws_conns := s.s_ws_conns.erase session } a q ctx) : Holds s a q ctx := by
  by_cases ha : a = session
  · subst ha
    have hself : (s.moveTo a (some .closing)).handlers a = some .closing := moveTo_self
    cases h with
    | numbered h => cases hself.symm.trans h
    | receiving h _ => cases hself.symm.trans h
  · exact holds_other h ha rfl (AList.lookup_erase_ne ha)

theorem Keeps.hangup (h : Keeps V s) : Keeps V { s.moveTo session (some .closing) with
    s_ws_conns := s.s_ws_conns.erase session } where
  table a := by
    by_cases ha : a = session
    · subst ha
      have hself : (s.moveTo a (some .closing)).handlers a = some .closing := moveTo_self
      refine iff_of_false ?_ ?_
      · rintro ⟨ctx, hctx⟩
        cases (AList.lookup_erase _ _).symm.trans hctx
      · rintro ⟨q, hq⟩
        cases hself.symm.trans hq
    · exact table_other h ha rfl (AList.lookup_erase_ne ha)
  allowed a q ctx' ha := h.allowed a q ctx' (holds_hangup ha)

def isConnect : GatewayEvent → Bool
  | .connect _ _ => true
  | _ => false

theorem Keeps.idle (h : Keeps V s) (session : Nat) (hp : Phase.Idle p)
    (hs : ∀ q, s.handlers session ≠ some (.receiving q)) :
    Keeps V (s.moveTo session p) ∧ ∀ n, Counted n s → Counted n (s.moveTo session p) :=
  ⟨h.moveTo hp hs, fun _ hc => hc.mono rfl fun _ _ _ ha => holds_moveTo hp ha⟩

theorem Phase.idle_closing : Phase.Idle (some .closing) :=
  ⟨by rintro _ _ ⟨⟩, by rintro _ ⟨⟩⟩

theorem Keeps.exec (h : Keeps V s) (hexec : s.exec V e = some s') :
    Keeps V s' ∧ ∀ n, Counted n s → (n + if isConnect e then 1 else 0) + 1 < 2 ^ 64 →
      Counted (n + if isConnect e then 1 else 0) s' := by
  cases e with
  | accept session =>
      simp only [Gateway.exec] at hexec
      split at hexec
      · rename_i hs
        cases hexec
        obtain ⟨hk, hc⟩ := h.idle session (p := some .shaking)
          ⟨by rintro _ _ ⟨⟩, by rintro _ ⟨⟩⟩ (by rw [hs]; rintro _ ⟨⟩)
        exact ⟨hk, fun n hn _ => hc n hn⟩
      · cases hexec
  | shake session query =>
      simp only [Gateway.exec] at hexec
      split at hexec
      · rename_i hs
        cases hexec
        have hp : Phase.Idle (some ((query.map Phase.routed).getD .closing)) := by
          cases query with
          | none => exact Phase.idle_closing
          | some q => exact ⟨by rintro _ _ ⟨⟩, by rintro _ ⟨⟩⟩
        obtain ⟨hk, hc⟩ := h.idle session hp (by rw [hs]; rintro _ ⟨⟩)
        exact ⟨hk, fun n hn _ => hc n hn⟩
      · cases hexec
  | connect session now =>
      simp only [Gateway.exec] at hexec
      split at hexec
      · rename_i query hs
        split at hexec
        · cases hexec
          obtain ⟨hk, hc⟩ := h.idle session Phase.idle_closing
            (by rw [hs]; rintro _ ⟨⟩)
          refine ⟨hk, fun n hn _ => ?_⟩
          have hcount := hc n hn
          exact ⟨Nat.le_succ_of_le hcount.seq, hcount.number, hcount.distinct⟩
        · rename_i uid platform hauth
          cases hexec
          refine ⟨h.connect hs rfl (authorize_ok hauth), fun n hn hlt => ?_⟩
          exact hn.connect hs rfl hlt rfl
      · cases hexec
  | enter session =>
      simp only [Gateway.exec] at hexec
      split at hexec
      · rename_i query ctx hs
        cases hexec
        exact ⟨h.enter hs, fun n hn _ => hn.mono rfl fun _ _ _ ha => holds_enter hs ha⟩
      · cases hexec
  | message session =>
      simp only [Gateway.exec] at hexec
      split at hexec
      · cases hexec
        exact ⟨h, fun n hn _ => hn⟩
      · cases hexec
  | hangup session =>
      simp only [Gateway.exec] at hexec
      split at hexec
      · cases hexec
        exact ⟨h.hangup, fun n hn _ => hn.mono rfl fun _ _ _ ha => holds_hangup ha⟩
      · cases hexec
  | close session =>
      simp only [Gateway.exec] at hexec
      split at hexec
      · rename_i hs
        cases hexec
        obtain ⟨hk, hc⟩ := h.idle session (p := none)
          ⟨by rintro _ _ ⟨⟩, by rintro _ ⟨⟩⟩ (by rw [hs]; rintro _ ⟨⟩)
        exact ⟨hk, fun n hn _ => hc n hn⟩
      · cases hexec

theorem Keeps.of_run (h : (gateway V).Run es s) :
    Keeps V s ∧ (es.countP isConnect + 1 < 2 ^ 64 → Counted (es.countP isConnect) s) := by
  refine h.history (I := fun es s => Keeps V s ∧
    (es.countP isConnect + 1 < 2 ^ 64 → Counted (es.countP isConnect) s)) ?_ ?_
  · rintro s rfl
    have hno : ∀ a q ctx, ¬Holds ⟨1, ∅, fun _ => none⟩ a q ctx := by
      rintro a q ctx (⟨⟨⟩⟩ | ⟨⟨⟩, -⟩)
    refine ⟨⟨fun a => iff_of_false ?_ ?_, fun a q ctx ha => absurd ha (hno a q ctx)⟩, fun _ =>
      ⟨le_rfl, fun a q ctx ha => absurd ha (hno a q ctx),
        fun a b q q' ctx ctx' ha => absurd ha (hno a q ctx)⟩⟩
    · rintro ⟨ctx, ⟨⟩⟩
    · rintro ⟨q, ⟨⟩⟩
  · rintro es s e s' ⟨hk, hc⟩ hexec
    obtain ⟨hk', hc'⟩ := hk.exec hexec
    refine ⟨hk', ?_⟩
    rw [List.countP_append, List.countP_singleton]
    exact fun hlt => hc' _ (hc (by omega)) hlt

end Gateway

end CIM.api
