import Mathlib.Algebra.Group.Nat.Defs
import Mathlib.Data.List.Count
import Mathlib.Data.List.Nodup
import Mathlib.Data.List.Perm.Basic
import CIM.Http.HttpConnectionPool

/-!
# Ownership in the pool

The connections that exist are the idle ones and the ones that are held, each of them once. The
counter follows them, and a connection that comes back to the idle list has requests left.
-/
namespace CIM.http

open Transition

namespace HttpConnectionPool

variable {s s' : HttpConnectionPool} {e : Event} {es : List Event}

/-- A connection that `getConnection` gives out again. -/
def Usable (s : HttpConnectionPool) (c : Nat) : Prop :=
  ∃ conn, s.heap c = some conn ∧ conn.m_isConnected = true ∧ s.expired conn = false

def Event.releases (c : Nat) : Event → Bool
  | .release _ d => d == c
  | _ => false

/-- How often the connection was released. -/
def released (es : List Event) (c : Nat) : Nat := es.countP (Event.releases c)

/-! ## Operations -/

/-- The loop stops at the first usable connection. -/
theorem findConn_spec {l : List Nat} (h : ∀ c ∈ l, (s.heap c).isSome = true) :
    ∃ invalid ptr conns, s.findConn l = some (invalid, ptr, conns) ∧
      l = invalid ++ ptr.toList ++ conns ∧ (∀ c ∈ invalid, ¬s.Usable c) ∧
      (∀ c, ptr = some c → s.Usable c) ∧ (ptr = none → conns = []) := by
  induction l with
  | nil => exact ⟨[], none, [], rfl, rfl, fun _ hc => (nomatch hc), fun _ hc => (nomatch hc),
      fun _ => rfl⟩
  | cons c l ih =>
      obtain ⟨conn, hconn⟩ := Option.isSome_iff_exists.mp (h c List.mem_cons_self)
      obtain ⟨invalid, ptr, conns, hf, hl, hbad, hgood, hend⟩ :=
        ih fun d hd => h d (List.mem_cons_of_mem c hd)
      have hskip : ¬s.Usable c → ∃ invalid' ptr' conns',
          (s.findConn l).map (fun r => (c :: r.1, r.2)) = some (invalid', ptr', conns') ∧
            c :: l = invalid' ++ ptr'.toList ++ conns' ∧ (∀ d ∈ invalid', ¬s.Usable d) ∧
            (∀ d, ptr' = some d → s.Usable d) ∧ (ptr' = none → conns' = []) := by
        intro hc
        refine ⟨c :: invalid, ptr, conns, by rw [hf]; rfl, by rw [hl]; rfl, ?_, hgood, hend⟩
        intro d hd
        rcases List.mem_cons.mp hd with rfl | hd
        · exact hc
        · exact hbad d hd
      unfold findConn
      rw [hconn, Option.bind_some]
      cases hcon : conn.m_isConnected with
      | false =>
          refine hskip ?_
          rintro ⟨conn', hconn', hcon', -⟩
          rw [hconn] at hconn'
          cases hconn'
          rw [hcon] at hcon'
          cases hcon'
      | true =>
          cases hexp : s.expired conn with
          | true =>
              refine hskip ?_
              rintro ⟨conn', hconn', -, hexp'⟩
              rw [hconn] at hconn'
              cases hconn'
              rw [hexp] at hexp'
              cases hexp'
          | false =>
              refine ⟨[], some c, l, rfl, rfl, fun _ hd => (nomatch hd), ?_, fun hn => (nomatch hn)⟩
              intro d hd
              cases hd
              exact ⟨conn, hconn, hcon, hexp⟩

/-- Deletions of different connections that exist. -/
theorem deleteAll_eq {l : List Nat} (hn : l.Nodup) (h : ∀ c ∈ l, (s.heap c).isSome = true) :
    s.deleteAll l = some { s with heap := fun c => if c ∈ l then none else s.heap c } := by
  induction l generalizing s with
  | nil => rfl
  | cons c l ih =>
      obtain ⟨hc, hn⟩ := List.nodup_cons.mp hn
      obtain ⟨conn, hconn⟩ := Option.isSome_iff_exists.mp (h c List.mem_cons_self)
      unfold deleteAll delete
      rw [hconn, Option.map_some, Option.bind_some, ih hn]
      · congr 2
        funext d
        by_cases hd : d = c
        · subst hd
          rw [if_neg hc, if_pos List.mem_cons_self]
          exact Function.update_self _ _ _
        · simp only [List.mem_cons, hd, false_or]
          rw [Function.update_of_ne hd]
      · intro d hd
        change (Function.update s.heap c none d).isSome = true
        rw [Function.update_of_ne (by rintro rfl; exact hc hd)]
        exact h d (List.mem_cons_of_mem c hd)

/-- The pool when the invalid connections are gone and `conns` are left in the idle list. -/
def clear (s : HttpConnectionPool) (invalid_conns conns : List Nat) (done : UInt64) :
    HttpConnectionPool :=
  { s with
    m_conns := conns
    heap := fun c => if c ∈ invalid_conns then none else s.heap c
    m_total := s.m_total - Int32.ofNat invalid_conns.length
    now := done }

/-- What a call does: it gives out a usable connection, or makes a new one. -/
theorem getConnection_cases (user : Nat) (dial : Dial) (done : UInt64) (hn : s.m_conns.Nodup)
    (h : ∀ c ∈ s.m_conns, (s.heap c).isSome = true) :
    (∃ invalid c conns, s.m_conns = invalid ++ c :: conns ∧ s.Usable c ∧
      s.getConnection user dial done = some (some c, (s.clear invalid conns done).give user c)) ∨
    (∀ c ∈ s.m_conns, ¬s.Usable c) ∧
      s.getConnection user dial done = some ((s.clear s.m_conns [] done).connect user dial) := by
  obtain ⟨invalid, ptr, conns, hf, hl, hbad, hgood, hend⟩ := findConn_spec h
  have hsub : ∀ c ∈ invalid, c ∈ s.m_conns := fun c hc => by
    rw [hl, List.append_assoc]
    exact List.mem_append_left _ hc
  have hinv : invalid.Nodup := by
    rw [hl, List.append_assoc] at hn
    exact (List.nodup_append.mp hn).1
  have hdel : ({ s with m_conns := conns } : HttpConnectionPool).deleteAll invalid = some
      { s with m_conns := conns, heap := fun c => if c ∈ invalid then none else s.heap c } :=
    deleteAll_eq hinv fun c hc => h c (hsub c hc)
  unfold getConnection
  rw [hf, Option.bind_some]
  dsimp only
  rw [hdel, Option.map_some]
  cases ptr with
  | some c =>
      left
      refine ⟨invalid, c, conns, ?_, hgood c rfl, rfl⟩
      rw [hl, List.append_assoc]
      rfl
  | none =>
      right
      have hconns := hend rfl
      have hall : s.m_conns = invalid := by
        rw [hl, hconns]
        simp only [Option.toList_none, List.append_nil]
      rw [hall, ← hconns]
      exact ⟨hbad, rfl⟩

/-! ## Invariant -/

/-- The connections that exist are those of the pool, and each knows its releases. -/
structure Inv (es : List Event) (s : HttpConnectionPool) : Prop where
  nodup : s.all.Nodup
  alive : ∀ c, (s.heap c).isSome = true ↔ c ∈ s.all
  total : s.m_total = Int32.ofNat s.all.length
  made : ∀ c ∈ s.all, c < s.made
  unreleased : ∀ c, s.made ≤ c → released es c = 0
  requests : ∀ c conn, s.heap c = some conn →
    conn.m_request.toNat = released es c ∧ conn.m_request.toNat ≤ s.m_maxRequest.toNat
  idle : ∀ c ∈ s.m_conns, ∀ conn, s.heap c = some conn →
    conn.m_request.toNat < s.m_maxRequest.toNat
  clock : ∀ c conn, s.heap c = some conn → conn.m_createTime ≤ s.now

theorem Inv.idle_nodup (h : Inv es s) : s.m_conns.Nodup := (List.nodup_append.mp h.nodup).1

theorem Inv.idle_alive (h : Inv es s) : ∀ c ∈ s.m_conns, (s.heap c).isSome = true :=
  fun c hc => (h.alive c).mpr (List.mem_append_left _ hc)

theorem released_append (es : List Event) (e : Event) (c : Nat) :
    released (es ++ [e]) c = released es c + if e.releases c then 1 else 0 := by
  unfold released
  rw [List.countP_append, List.countP_singleton]

/-- Some connections are deleted, and nothing happens to the others but a move. -/
theorem Inv.drop (h : Inv es s) (gone : List Nat) (hall : s.all.Perm (gone ++ s'.all))
    (hheap : ∀ c, s'.heap c = if c ∈ gone then none else s.heap c)
    (htotal : s'.m_total = s.m_total - Int32.ofNat gone.length) (hmade : s'.made = s.made)
    (hmax : s'.m_maxRequest = s.m_maxRequest) (hnow : s.now ≤ s'.now)
    (hidle : ∀ c ∈ s'.m_conns, c ∈ s.m_conns)
    (hrel : ∀ c, c ∉ gone → e.releases c = false) : Inv (es ++ [e]) s' := by
  have hnodup := hall.nodup_iff.mp h.nodup
  have hgone : ∀ c ∈ gone, c ∉ s'.all := fun c hc hc' =>
    (List.nodup_append.mp hnodup).2.2 c hc c hc' rfl
  have hmem : ∀ c, c ∈ s.all ↔ c ∈ gone ∨ c ∈ s'.all := fun c => by
    rw [hall.mem_iff, List.mem_append]
  have hkept : ∀ c conn, s'.heap c = some conn → c ∉ gone ∧ s.heap c = some conn := by
    intro c conn hc
    rw [hheap] at hc
    split at hc
    · cases hc
    · rename_i hcg
      exact ⟨hcg, hc⟩
  have hsame : ∀ c, c ∉ gone → released (es ++ [e]) c = released es c := by
    intro c hc
    rw [released_append, hrel c hc]
    rfl
  refine
    { nodup := (List.nodup_append.mp hnodup).2.1
      alive := ?_
      total := ?_
      made := ?_
      unreleased := ?_
      requests := ?_
      idle := ?_
      clock := ?_ }
  · intro c
    rw [hheap]
    split
    · rename_i hc
      exact ⟨fun hn => (nomatch hn), fun hc' => absurd hc' (hgone c hc)⟩
    · rename_i hc
      rw [h.alive c, hmem c]
      exact ⟨fun hor => hor.resolve_left hc, .inr⟩
  · have hlen := hall.length_eq
    rw [List.length_append] at hlen
    rw [htotal, h.total, hlen, ← Int32.ofNat_sub _ _ (Nat.le_add_right _ _),
      Nat.add_sub_cancel_left]
  · intro c hc
    rw [hmade]
    exact h.made c ((hmem c).mpr (.inr hc))
  · intro c hc
    rw [hmade] at hc
    have hcg : c ∉ gone := fun hg => Nat.not_lt.mpr hc (h.made c ((hmem c).mpr (.inl hg)))
    rw [hsame c hcg]
    exact h.unreleased c hc
  · intro c conn hc
    obtain ⟨hcg, hold⟩ := hkept c conn hc
    rw [hsame c hcg, hmax]
    exact h.requests c conn hold
  · intro c hc conn hconn
    rw [hmax]
    exact h.idle c (hidle c hc) conn (hkept c conn hconn).2
  · intro c conn hc
    exact UInt64.le_trans (h.clock c conn (hkept c conn hc).2) hnow

theorem clear_out (invalid conns : List Nat) (done : UInt64) :
    (s.clear invalid conns done).out = s.out := rfl

theorem give_out (s : HttpConnectionPool) (user c : Nat) : (s.give user c).out = s.out ++ [c] := by
  change (s.held ++ [(user, c)]).map Prod.snd = _
  rw [List.map_append]
  rfl

theorem Inv.reuse (h : Inv es s) {user c : Nat} {dial : Dial} {done : UInt64}
    {invalid conns : List Nat} (hl : s.m_conns = invalid ++ c :: conns) (hdone : s.now ≤ done) :
    Inv (es ++ [.getConnection user dial done]) ((s.clear invalid conns done).give user c) := by
  refine h.drop invalid ?_ (fun _ => rfl) rfl rfl rfl hdone ?_ fun _ _ => rfl
  · unfold all
    rw [give_out, clear_out, hl, List.append_assoc]
    refine List.Perm.append_left invalid ?_
    change (c :: (conns ++ s.out)).Perm (conns ++ (s.out ++ [c]))
    rw [← List.append_assoc]
    exact (List.perm_append_singleton c _).symm
  · intro d hd
    rw [hl]
    exact List.mem_append_right _ (List.mem_cons_of_mem c hd)

theorem Inv.empty (h : Inv es s) {user : Nat} {dial : Dial} {done : UInt64} (hdone : s.now ≤ done) :
    Inv (es ++ [.getConnection user dial done]) (s.clear s.m_conns [] done) :=
  h.drop s.m_conns (.refl _) (fun _ => rfl) rfl rfl rfl hdone (fun _ hc => nomatch hc)
    fun _ _ => rfl

/-- A new connection is held at once. -/
theorem Inv.new (h : Inv es s) (user : Nat) : Inv es (s.connect user .connected).2 := by
  have hfresh : s.made ∉ s.all := fun hc => Nat.lt_irrefl _ (h.made _ hc)
  have hall : (s.connect user .connected).2.all = s.all ++ [s.made] := by
    unfold all
    rw [List.append_assoc]
    change s.m_conns ++ (HttpConnectionPool.give _ user s.made).out = _
    rw [give_out]
    rfl
  have hheap : ∀ c, (s.connect user .connected).2.heap c =
      Function.update s.heap s.made (some ⟨s.now, 0, true⟩) c := fun _ => rfl
  have hold : ∀ c conn, (s.connect user .connected).2.heap c = some conn →
      c = s.made ∧ conn = ⟨s.now, 0, true⟩ ∨ s.heap c = some conn := by
    intro c conn hc
    rw [hheap] at hc
    by_cases hcm : c = s.made
    · rw [hcm, Function.update_self] at hc
      exact .inl ⟨hcm, (Option.some.inj hc).symm⟩
    · rw [Function.update_of_ne hcm] at hc
      exact .inr hc
  refine
    { nodup := ?_
      alive := ?_
      total := ?_
      made := ?_
      unreleased := fun c hc => h.unreleased c (Nat.le_of_succ_le hc)
      requests := ?_
      idle := ?_
      clock := ?_ }
  · rw [hall]
    refine List.nodup_append.mpr ⟨h.nodup, List.nodup_singleton _, ?_⟩
    rintro c hc d hd rfl
    exact hfresh (List.mem_singleton.mp hd ▸ hc)
  · intro c
    rw [hall, List.mem_append, List.mem_singleton, hheap]
    by_cases hcm : c = s.made
    · rw [hcm, Function.update_self]
      exact ⟨fun _ => .inr rfl, fun _ => rfl⟩
    · rw [Function.update_of_ne hcm, h.alive c]
      exact ⟨.inl, fun hor => hor.resolve_right hcm⟩
  · rw [hall, List.length_append, Int32.ofNat_add, ← h.total]
    rfl
  · intro c hc
    rw [hall] at hc
    rcases List.mem_append.mp hc with hc | hc
    · exact Nat.lt_succ_of_lt (h.made c hc)
    · rw [List.mem_singleton.mp hc]
      exact Nat.lt_succ_self _
  · intro c conn hc
    rcases hold c conn hc with ⟨rfl, rfl⟩ | hc
    · exact ⟨(h.unreleased _ (Nat.le_refl _)).symm, Nat.zero_le _⟩
    · exact h.requests c conn hc
  · intro c hc conn hconn
    rcases hold c conn hconn with ⟨rfl, -⟩ | hconn
    · exact absurd (List.mem_append_left _ hc) hfresh
    · exact h.idle c hc conn hconn
  · intro c conn hc
    rcases hold c conn hc with ⟨-, rfl⟩ | hc
    · exact UInt64.le_refl _
    · exact h.clock c conn hc

theorem Inv.getConnection (h : Inv es s) {user : Nat} {dial : Dial} {done : UInt64}
    (hdone : s.now ≤ done) :
    ∃ r, s.getConnection user dial done = some r ∧
      Inv (es ++ [.getConnection user dial done]) r.2 := by
  rcases getConnection_cases user dial done h.idle_nodup h.idle_alive with
    ⟨invalid, c, conns, hl, -, hget⟩ | ⟨-, hget⟩
  · exact ⟨_, hget, h.reuse hl hdone⟩
  · refine ⟨_, hget, ?_⟩
    cases dial with
    | getAddrFail => exact h.empty hdone
    | createSockFail => exact h.empty hdone
    | connectFail => exact h.empty hdone
    | connected => exact (h.empty hdone).new user

/-! ## Releases -/

theorem out_erase {user c : Nat} (h : (user, c) ∈ s.held) :
    s.out.Perm (c :: (s.held.erase (user, c)).map Prod.snd) :=
  (List.perm_cons_erase h).map Prod.snd

/-- A connection is deleted when the last shared pointer ends, or it goes back. -/
theorem releasePtr_cases {c : Nat} {conn : HttpConnection} (hc : s.heap c = some conn) :
    s.releasePtr c = some { s with
      heap := Function.update (Function.update s.heap c
        (some { conn with m_request := conn.m_request + 1 })) c none
      m_total := s.m_total - 1 } ∨
    ¬s.m_maxRequest.toUInt64 ≤ conn.m_request + 1 ∧
      s.releasePtr c = some { s with
        heap := Function.update s.heap c (some { conn with m_request := conn.m_request + 1 })
        m_conns := s.m_conns ++ [c] } := by
  unfold releasePtr
  rw [hc, Option.bind_some]
  dsimp only
  split
  · left
    unfold delete
    dsimp only
    rw [Function.update_self]
    rfl
  · rename_i hno
    right
    simp only [Bool.or_eq_true, not_or, decide_eq_true_eq] at hno
    exact ⟨hno.2, rfl⟩

/-- The counter of a connection of the pool is far from its end. -/
theorem Inv.request_succ (h : Inv es s) {c : Nat} {conn : HttpConnection}
    (hc : s.heap c = some conn) :
    (conn.m_request + 1).toNat = released es c + 1 := by
  obtain ⟨hrel, hle⟩ := h.requests c conn hc
  have hmax := s.m_maxRequest.toNat_lt
  rw [UInt64.toNat_add]
  change (conn.m_request.toNat + 1) % 2 ^ 64 = _
  omega

theorem Inv.release (h : Inv es s) {user c : Nat} (hheld : (user, c) ∈ s.held) :
    ∃ s', s.exec (.release user c) = some s' ∧ Inv (es ++ [.release user c]) s' := by
  have hout := out_erase hheld
  have hmem : c ∈ s.all :=
    List.mem_append_right _ (List.mem_map.mpr ⟨(user, c), hheld, rfl⟩)
  obtain ⟨conn, hc⟩ := Option.isSome_iff_exists.mp ((h.alive c).mpr hmem)
  have hrel : ∀ d, d ≠ c → Event.releases d (.release user c) = false := by
    intro d hd
    exact beq_eq_false_iff_ne.mpr fun hcd => hd hcd.symm
  rcases releasePtr_cases (s := { s with held := s.held.erase (user, c) }) hc with
    hdel | ⟨hmore, hback⟩
  · refine ⟨_, hdel, h.drop [c] ?_ ?_ rfl rfl rfl (UInt64.le_refl _) (fun _ hd => hd) ?_⟩
    · exact (hout.append_left s.m_conns).trans List.perm_middle
    · intro d
      change Function.update (Function.update s.heap c _) c none d = _
      by_cases hd : d = c
      · rw [hd, Function.update_self, if_pos (List.mem_singleton.mpr rfl)]
      · rw [Function.update_of_ne hd, Function.update_of_ne hd,
          if_neg fun hm => hd (List.mem_singleton.mp hm)]
    · exact fun d hd => hrel d fun hdc => hd (List.mem_singleton.mpr hdc)
  · refine ⟨_, hback, ?_⟩
    have hsucc := h.request_succ hc
    have hlt : (conn.m_request + 1).toNat < s.m_maxRequest.toNat := by
      have hlt := UInt64.lt_iff_toNat_lt.mp (UInt64.not_le.mp hmore)
      rw [UInt32.toNat_toUInt64] at hlt
      exact hlt
    have hall : s.all.Perm (s.m_conns ++ [c] ++ (s.held.erase (user, c)).map Prod.snd) := by
      rw [List.append_assoc]
      exact hout.append_left s.m_conns
    have hheap : ∀ d conn', Function.update s.heap c
        (some { conn with m_request := conn.m_request + 1 }) d = some conn' →
        d = c ∧ conn' = { conn with m_request := conn.m_request + 1 } ∨
          d ≠ c ∧ s.heap d = some conn' := by
      intro d conn' hd
      by_cases hdc : d = c
      · rw [hdc, Function.update_self] at hd
        exact .inl ⟨hdc, (Option.some.inj hd).symm⟩
      · rw [Function.update_of_ne hdc] at hd
        exact .inr ⟨hdc, hd⟩
    have hself : released (es ++ [.release user c]) c = released es c + 1 := by
      rw [released_append]
      change _ + (if (c == c) = true then 1 else 0) = _
      rw [beq_self_eq_true, if_pos rfl]
    have hother : ∀ d, d ≠ c → released (es ++ [.release user c]) d = released es d := by
      intro d hd
      rw [released_append, hrel d hd]
      rfl
    refine
      { nodup := hall.nodup_iff.mp h.nodup
        alive := ?_
        total := ?_
        made := fun d hd => h.made d (hall.mem_iff.mpr hd)
        unreleased := ?_
        requests := ?_
        idle := ?_
        clock := ?_ }
    · intro d
      refine Iff.trans ?_ ((h.alive d).trans hall.mem_iff)
      change (Function.update s.heap c _ d).isSome = true ↔ _
      by_cases hdc : d = c
      · rw [hdc, Function.update_self, hc]
        exact ⟨fun _ => rfl, fun _ => rfl⟩
      · rw [Function.update_of_ne hdc]
    · exact h.total.trans (congrArg Int32.ofNat hall.length_eq)
    · intro d hd
      rw [hother d fun hdc => Nat.not_lt.mpr hd (hdc ▸ h.made c hmem)]
      exact h.unreleased d hd
    · intro d conn' hd
      rcases hheap d conn' hd with ⟨rfl, rfl⟩ | ⟨hdc, hd⟩
      · rw [hself]
        exact ⟨hsucc, Nat.le_of_lt hlt⟩
      · rw [hother d hdc]
        exact h.requests d conn' hd
    · intro d hd conn' hconn'
      rcases hheap d conn' hconn' with ⟨-, rfl⟩ | ⟨hdc, hconn'⟩
      · exact hlt
      · refine h.idle d ?_ conn' hconn'
        exact (List.mem_append.mp hd).resolve_right fun hdc' => hdc (List.mem_singleton.mp hdc')
    · intro d conn' hd
      rcases hheap d conn' hd with ⟨rfl, rfl⟩ | ⟨-, hd⟩
      · exact h.clock d conn hc
      · exact h.clock d conn' hd

theorem Inv.disconnect (h : Inv es s) {c : Nat} (hc : (s.heap c).isSome = true) :
    ∃ s', s.exec (.disconnect c) = some s' ∧ Inv (es ++ [.disconnect c]) s' := by
  obtain ⟨conn, hconn⟩ := Option.isSome_iff_exists.mp hc
  have hheap : ∀ d conn', Function.update s.heap c
      (some { conn with m_isConnected := false }) d = some conn' →
      ∃ old, s.heap d = some old ∧ conn'.m_request = old.m_request ∧
        conn'.m_createTime = old.m_createTime := by
    intro d conn' hd
    by_cases hdc : d = c
    · subst hdc
      rw [Function.update_self] at hd
      cases hd
      exact ⟨conn, hconn, rfl, rfl⟩
    · rw [Function.update_of_ne hdc] at hd
      exact ⟨conn', hd, rfl, rfl⟩
  have hrel : ∀ d, released (es ++ [.disconnect c]) d = released es d := by
    intro d
    rw [released_append]
    rfl
  refine ⟨{ s with heap := Function.update s.heap c (some { conn with m_isConnected := false }) },
    ?_, ?_⟩
  · change (s.heap c).map _ = _
    rw [hconn]
    rfl
  · refine
      { nodup := h.nodup
        alive := ?_
        total := h.total
        made := h.made
        unreleased := fun d hd => (hrel d).trans (h.unreleased d hd)
        requests := ?_
        idle := ?_
        clock := ?_ }
    · intro d
      refine Iff.trans ?_ (h.alive d)
      change (Function.update s.heap c _ d).isSome = true ↔ _
      by_cases hdc : d = c
      · rw [hdc, Function.update_self, hconn]
        exact ⟨fun _ => rfl, fun _ => rfl⟩
      · rw [Function.update_of_ne hdc]
    · intro d conn' hd
      obtain ⟨old, hold, hreq, -⟩ := hheap d conn' hd
      rw [hrel, hreq]
      exact h.requests d old hold
    · intro d hd conn' hconn'
      obtain ⟨old, hold, hreq, -⟩ := hheap d conn' hconn'
      rw [hreq]
      exact h.idle d hd old hold
    · intro d conn' hd
      obtain ⟨old, hold, -, hcreate⟩ := hheap d conn' hd
      rw [hcreate]
      exact h.clock d old hold

theorem Inv.advance (h : Inv es s) {now : UInt64} (hnow : s.now ≤ now) :
    Inv (es ++ [.advance now]) { s with now := now } :=
  h.drop [] (.refl _) (fun _ => (if_neg (fun hc => nomatch hc)).symm)
    (Int32.sub_zero _).symm rfl rfl hnow (fun _ hc => hc) fun _ _ => rfl

/-! ## Runs -/

theorem Inv.exec (h : Inv es s) (hen : s.Enabled e) :
    ∃ s', s.exec e = some s' ∧ Inv (es ++ [e]) s' := by
  cases e with
  | getConnection user dial done =>
      obtain ⟨r, hr, hinv⟩ := h.getConnection hen
      exact ⟨r.2, Option.map_eq_some_iff.mpr ⟨r, hr, rfl⟩, hinv⟩
  | release user c => exact h.release hen
  | disconnect c => exact h.disconnect hen
  | advance now => exact ⟨_, rfl, h.advance hen⟩

variable {max_size max_alive_time max_request : UInt32}

theorem inv_create (now : UInt64) :
    Inv [] (create max_size max_alive_time max_request now) where
  nodup := List.nodup_nil
  alive _ := ⟨fun hc => (nomatch hc), fun hc => (nomatch hc)⟩
  total := rfl
  made _ hc := nomatch hc
  unreleased _ _ := rfl
  requests _ _ hc := nomatch hc
  idle _ hc := nomatch hc
  clock _ _ hc := nomatch hc

theorem run_inv (h : (httpConnectionPool max_size max_alive_time max_request).Run es s) :
    Inv es s := by
  refine h.history (I := Inv) ?_ ?_
  · rintro s ⟨now, rfl⟩
    exact inv_create now
  · rintro es s e s' hs ⟨hen, hexec⟩
    obtain ⟨s₁, h₁, hinv⟩ := hs.exec hen
    rw [h₁] at hexec
    cases hexec
    exact hinv

/-- The sum in the check may be reduced modulo 2 ^ 64, and then the connection counts as expired. -/
theorem Inv.age (h : Inv es s) {c : Nat} {conn : HttpConnection} (hc : s.heap c = some conn)
    (hexp : s.expired conn = false) :
    s.now.toNat - conn.m_createTime.toNat ≤ s.m_maxAliveTime.toNat := by
  have hclock := UInt64.le_iff_toNat_le.mp (h.clock c conn hc)
  have hle := UInt64.le_iff_toNat_le.mp (UInt64.not_lt.mp (of_decide_eq_false hexp))
  rw [UInt64.toNat_add, UInt32.toNat_toUInt64] at hle
  have halive := s.m_maxAliveTime.toNat_lt
  have hnow := s.now.toNat_lt
  omega

/-- What the pool promises after the events `es`. -/
structure Owned (es : List Event) (s : HttpConnectionPool) : Prop where
  /-- Nobody else has a connection that is held, and it is not idle. -/
  exclusive : s.all.Nodup
  /-- The counter is an `int32_t`. -/
  total : s.m_total = Int32.ofNat s.all.length
  count : s.all.length < 2 ^ 31 → s.m_total.toInt = s.all.length
  /-- No step uses a connection that was deleted. -/
  alive : ∀ e, s.Enabled e → ∃ s', s.exec e = some s'
  reused : ∀ user dial done c s', s.getConnection user dial done = some (some c, s') →
    c ∈ s.m_conns → ∃ conn, s.heap c = some conn ∧ conn.m_isConnected = true ∧
      s.now.toNat - conn.m_createTime.toNat ≤ s.m_maxAliveTime.toNat ∧
      released es c < s.m_maxRequest.toNat

theorem Inv.reused (h : Inv es s) {user c : Nat} {dial : Dial} {done : UInt64}
    (hget : s.getConnection user dial done = some (some c, s')) (hc : c ∈ s.m_conns) :
    ∃ conn, s.heap c = some conn ∧ conn.m_isConnected = true ∧
      s.now.toNat - conn.m_createTime.toNat ≤ s.m_maxAliveTime.toNat ∧
      released es c < s.m_maxRequest.toNat := by
  rcases getConnection_cases user dial done h.idle_nodup h.idle_alive with
    ⟨invalid, d, conns, -, ⟨conn, hconn, hcon, hexp⟩, hgive⟩ | ⟨-, hnew⟩
  · rw [hgive] at hget
    cases hget
    have hreq := (h.requests c conn hconn).1
    have hidle := h.idle c hc conn hconn
    exact ⟨conn, hconn, hcon, h.age hconn hexp, hreq ▸ hidle⟩
  · rw [hnew] at hget
    cases dial with
    | getAddrFail => cases hget
    | createSockFail => cases hget
    | connectFail => cases hget
    | connected =>
        cases hget
        exact absurd (h.made _ (List.mem_append_left _ hc)) (Nat.lt_irrefl _)

/-- A call that makes a new connection finds fewer than `m_maxSize` of them in use. -/
def HasRoom (s : HttpConnectionPool) : Event → Prop
  | .getConnection _ dial _ => dial = .connected → (∀ c ∈ s.m_conns, ¬s.Usable c) →
      s.held.length < s.m_maxSize.toNat
  | _ => True

def Bounded (s : HttpConnectionPool) : Prop := s.all.length ≤ s.m_maxSize.toNat

theorem length_all (s : HttpConnectionPool) : s.all.length = s.m_conns.length + s.held.length := by
  unfold all out
  rw [List.length_append, List.length_map]

/-- Of all steps only a new connection makes the pool larger. -/
theorem Inv.grows (h : Inv es s) (hstep : s.Enabled e ∧ s.exec e = some s') :
    s'.m_maxSize = s.m_maxSize ∧ (s'.all.length ≤ s.all.length ∨
      ∃ user done, e = .getConnection user .connected done ∧ (∀ c ∈ s.m_conns, ¬s.Usable c) ∧
        s'.all.length = s.held.length + 1) := by
  obtain ⟨hen, hexec⟩ := hstep
  cases e with
  | getConnection user dial done =>
      obtain ⟨r, hr, rfl⟩ := Option.map_eq_some_iff.mp hexec
      rcases getConnection_cases user dial done h.idle_nodup h.idle_alive with
        ⟨invalid, c, conns, hl, -, hget⟩ | ⟨hbad, hget⟩
      · rw [hget] at hr
        cases hr
        refine ⟨rfl, .inl ?_⟩
        rw [length_all, length_all, hl]
        change conns.length + (s.held ++ [(user, c)]).length ≤ _
        rw [List.length_append, List.length_append, List.length_singleton, List.length_cons]
        omega
      · rw [hget] at hr
        have hempty : (s.clear s.m_conns [] done).all.length ≤ s.all.length := by
          rw [length_all, length_all]
          exact Nat.add_le_add_right (Nat.zero_le _) _
        cases dial with
        | getAddrFail =>
            cases hr
            exact ⟨rfl, .inl hempty⟩
        | createSockFail =>
            cases hr
            exact ⟨rfl, .inl hempty⟩
        | connectFail =>
            cases hr
            exact ⟨rfl, .inl hempty⟩
        | connected =>
            cases hr
            refine ⟨rfl, .inr ⟨user, done, rfl, hbad, ?_⟩⟩
            rw [length_all]
            change 0 + (s.held ++ [(user, s.made)]).length = _
            rw [List.length_append, Nat.zero_add]
            rfl
  | release user c =>
      have hlen := List.length_erase_of_mem (show (user, c) ∈ s.held from hen)
      have hpos := List.length_pos_of_mem (show (user, c) ∈ s.held from hen)
      have hmem : c ∈ s.all :=
        List.mem_append_right _ (List.mem_map.mpr ⟨(user, c), hen, rfl⟩)
      obtain ⟨conn, hc⟩ := Option.isSome_iff_exists.mp ((h.alive c).mpr hmem)
      rw [length_all s]
      rcases releasePtr_cases (s := { s with held := s.held.erase (user, c) }) hc with
        hdel | ⟨-, hback⟩
      · cases hexec.symm.trans hdel
        refine ⟨rfl, .inl ?_⟩
        rw [length_all]
        change s.m_conns.length + (s.held.erase (user, c)).length ≤ _
        omega
      · cases hexec.symm.trans hback
        refine ⟨rfl, .inl ?_⟩
        rw [length_all]
        change (s.m_conns ++ [c]).length + (s.held.erase (user, c)).length ≤ _
        rw [List.length_append, List.length_singleton]
        omega
  | disconnect c =>
      obtain ⟨conn, -, rfl⟩ := Option.map_eq_some_iff.mp hexec
      exact ⟨rfl, .inl (Nat.le_refl _)⟩
  | advance now =>
      cases hexec
      exact ⟨rfl, .inl (Nat.le_refl _)⟩

/-- The pool stays within its size as long as every call that makes a connection has room for it,
and the first one without room ends that. -/
theorem run_bounded
    (h : ((httpConnectionPool max_size max_alive_time max_request).restrict HasRoom).Run es s) :
    s.Bounded ∧ ∀ e s', (httpConnectionPool max_size max_alive_time max_request).step s e s' →
      ¬s.HasRoom e → ¬s'.Bounded := by
  have hs : Inv es s ∧ s.Bounded := by
    refine h.history (I := fun es s => Inv es s ∧ s.Bounded) ?_ ?_
    · rintro s ⟨now, rfl⟩
      exact ⟨inv_create now, Nat.zero_le _⟩
    · rintro es s e s' ⟨hinv, hb⟩ ⟨hroom, hen, hexec⟩
      obtain ⟨s₁, h₁, hinv'⟩ := hinv.exec hen
      rw [h₁] at hexec
      cases hexec
      refine ⟨hinv', ?_⟩
      obtain ⟨hmax, hle | ⟨user, done, rfl, hbad, hlen⟩⟩ := hinv.grows ⟨hen, h₁⟩
      · unfold Bounded
        rw [hmax]
        exact Nat.le_trans hle hb
      · unfold Bounded
        rw [hmax, hlen]
        exact hroom rfl hbad
  refine ⟨hs.2, fun e s' hstep hroom => ?_⟩
  obtain ⟨hmax, hle | ⟨user, done, rfl, hbad, hlen⟩⟩ := hs.1.grows hstep
  · -- a call without room makes a connection, so that the pool became larger
    cases e with
    | getConnection user dial done =>
        unfold HasRoom at hroom
        simp only [not_forall] at hroom
        obtain ⟨rfl, hbad, hfull⟩ := hroom
        obtain ⟨-, hexec⟩ := hstep
        obtain ⟨r, hr, rfl⟩ := Option.map_eq_some_iff.mp hexec
        rcases getConnection_cases user .connected done hs.1.idle_nodup hs.1.idle_alive with
          ⟨invalid, c, conns, hl, huse, -⟩ | ⟨-, hget⟩
        · refine absurd huse (hbad c ?_)
          rw [hl]
          exact List.mem_append_right _ List.mem_cons_self
        · rw [hget] at hr
          cases hr
          unfold Bounded
          rw [length_all]
          change ¬0 + (s.held ++ [(user, s.made)]).length ≤ s.m_maxSize.toNat
          rw [List.length_append, List.length_singleton]
          omega
    | _ => exact absurd trivial hroom
  · unfold Bounded
    rw [hmax, hlen]
    intro hle
    exact hroom fun _ _ => hle

/-- One user, in a pool for one connection. -/
theorem run_bounded_one :
    ∃ es s, ((httpConnectionPool 1 30000 2).restrict HasRoom).Run es s ∧ s.held = [(7, 0)] ∧
      s.Bounded ∧ ∀ e s', (httpConnectionPool 1 30000 2).step s e s' →
        ¬s.HasRoom e → ¬s'.Bounded := by
  have h₀ : ((httpConnectionPool 1 30000 2).restrict HasRoom).Run [] (create 1 30000 2 5000) :=
    .start ⟨_, rfl⟩
  have h₁ := h₀.snoc (e := Event.getConnection 7 .connected 5000)
    ⟨fun _ _ => Nat.one_pos, UInt64.le_refl _, rfl⟩
  exact ⟨_, _, h₁, rfl, run_bounded h₁⟩

/-- Two users get a connection each from a pool for one connection. -/
theorem pool_exceeded :
    ∃ es s, (httpConnectionPool 1 30000 2).Run es s ∧ s.m_total = 2 ∧ s.held = [(7, 0), (8, 1)] ∧
      ¬s.Bounded := by
  have h₀ : (httpConnectionPool 1 30000 2).Run [] (create 1 30000 2 5000) := .start ⟨_, rfl⟩
  have h₁ := h₀.snoc (e := Event.getConnection 7 .connected 5000) ⟨UInt64.le_refl _, rfl⟩
  have h₂ := h₁.snoc (e := Event.getConnection 8 .connected 5000) ⟨UInt64.le_refl _, rfl⟩
  exact ⟨_, _, h₂, rfl, rfl, fun hb => absurd (show 2 ≤ 1 from hb) (by decide)⟩

end HttpConnectionPool

end CIM.http
