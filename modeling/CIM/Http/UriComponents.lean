import CIM.Http.Uri

/-!
# Components of a URI

What `Uri::Create` makes of a text that was put together from legal components.
-/
namespace CIM.Uri

open Ragel Rx http uri_machine

/-- A part behind the byte that announces it. -/
def behind (d : UInt8) : Option Bytes → Bytes
  | none => []
  | some x => d :: x

/-- Components that the rules of `uri.rl` allow, of which the optional ones may be empty. -/
structure Components where
  scheme : Bytes
  userinfo : Option Bytes
  host : Bytes
  port : Option Bytes
  path : Bytes
  query : Option Bytes
  fragment : Option Bytes
  scheme_legal : uri_machine.scheme.Accepts scheme
  userinfo_legal : ∀ u ∈ userinfo, uri_machine.userinfo.Accepts u
  host_legal : uri_machine.host.Accepts host
  port_legal : ∀ d ∈ port, uri_machine.port.Accepts d
  path_legal : path_abempty.Accepts path
  query_legal : ∀ q ∈ query, uri_machine.query.Accepts q
  fragment_legal : ∀ f ∈ fragment, uri_machine.query.Accepts f

namespace Components

/-- `[userinfo@]` -/
def user (c : Components) : Bytes :=
  match c.userinfo with
  | none => []
  | some u => u ++ [64]

def authority (c : Components) : Bytes := c.user ++ (c.host ++ behind 58 c.port)

/-- `[?query][#fragment]` -/
def tail (c : Components) : Bytes := behind 63 c.query ++ behind 35 c.fragment

/-- `scheme://[userinfo@]host[:port][path][?query][#fragment]` -/
def text (c : Components) : Bytes :=
  c.scheme ++ 58 :: (47 :: 47 :: (c.authority ++ c.path) ++ c.tail)

/-- The number of a port; 0 where there is none. -/
def portNumber (c : Components) : Nat :=
  (c.port.getD []).foldl (fun n d => 10 * n + (d.toNat - 48)) 0

/-- The components as they are. -/
def uri (c : Components) : Uri where
  m_scheme := c.scheme
  m_userinfo := c.userinfo.getD []
  m_host := c.host
  m_path := c.path
  m_query := c.query.getD []
  m_fragment := c.fragment.getD []
  m_port := c.portNumber

end Components

/-! ## Single actions -/

section

variable {uristr : Bytes} {p m n : Nat} {s : Parse}

theorem save_mark {set : Bytes → Uri → Uri} : (s.save uristr p set).mark = none := by
  rw [Parse.save]
  cases hm : s.mark with
  | none => exact hm
  | some m => rfl

/-- An action sets the mark to its place, or clears it. -/
theorem act_mark (h : m ∈ (act uristr p n s).mark) : m = p ∨ m ∈ s.mark := by
  rw [act] at h
  cases hn : embeddings[n]? with
  | none => exact .inr (by simpa [hn] using h)
  | some a =>
      rw [hn] at h
      cases a with
      | marku => exact .inl (Option.mem_some_iff.mp h).symm
      | markh => exact .inl (Option.mem_some_iff.mp h).symm
      | save_port =>
          simp only [perform, Parse.savePort] at h
          cases hm : s.mark <;> simp [hm] at h
      | _ => simp [perform, save_mark] at h

/-- Only `save_userinfo` sets the user information. -/
theorem act_userinfo (h : embeddings[n]? ≠ some .save_userinfo) :
    (act uristr p n s).uri.m_userinfo = s.uri.m_userinfo := by
  rw [act]
  cases hn : embeddings[n]? with
  | none => rfl
  | some a =>
      cases a with
      | marku => rfl
      | markh => rfl
      | save_userinfo => exact absurd hn h
      | _ =>
          simp only [perform, Parse.save, Parse.savePort]
          cases s.mark with
          | none => rfl
          | some m =>
              dsimp only
              split <;> rfl

end

/-! ## The actions of the parts -/

section

variable {uristr : Bytes} {p : Nat} {s : Parse}

theorem viable_behind {d c : UInt8} {r : Rx} (h : (opt (seq (chr d) r)).Viable [c]) : c = d :=
  viable_chr_seq ((viable_opt (by simp)).mp h)

theorem accepts_behind {d : UInt8} {i j : Nat} {r : Rx} {o : Option Bytes}
    (h : ∀ x ∈ o, r.Accepts x) : (opt (seq (chr d) (part i j r))).Accepts (behind d o) := by
  rw [accepts_opt]
  cases o with
  | none => exact .inr rfl
  | some x => exact .inl ((accepts_chr d).seq (accepts_part.mpr (h x rfl)))

/-- The two actions of an optional part. -/
def actBehind (uristr : Bytes) (p i j : Nat) (s : Parse) : Option Bytes → Parse
  | none => s
  | some x => act uristr (p + 1 + x.length) j (act uristr (p + 1) i s)

theorem sweep_behind {d : UInt8} {i j : Nat} {r : Rx} {o : Option Bytes} (hr : r.plain = true)
    (h : ∀ x ∈ o, r.Accepts x) (hij : i < j) (hj : j < 24) :
    sweep (act uristr) 24 (opt (seq (chr d) (part i j r))) [] p (behind d o) s =
      actBehind uristr p i j s o := by
  cases o with
  | none => exact sweep_opt_nil rfl
  | some x =>
      rw [behind, sweep_opt, sweep_chr_seq d (accepts_part.mpr (h x rfl)),
        sweep_part hr (h x rfl) hij hj]
      rfl

theorem tail_first {n : Nat} {c : UInt8} (h : (uri_machine.tail n).Viable [c]) :
    c = 63 ∨ c = 35 := by
  rcases h.of_seq with h | ⟨v, w, hvw, hw, -, h⟩
  · exact .inl (viable_behind h)
  · cases v with
    | nil =>
        obtain rfl : [c] = w := hvw
        exact .inr (viable_behind h)
    | cons d v =>
        obtain ⟨-, hnil⟩ := List.cons.inj hvw
        exact absurd (List.append_eq_nil_iff.mp hnil.symm).2 hw

theorem sweep_tail {q f : Option Bytes} (hq : ∀ x ∈ q, query.Accepts x)
    (hf : ∀ x ∈ f, query.Accepts x) :
    sweep (act uristr) 24 (tail 10) [] p (behind 63 q ++ behind 35 f) s =
      actBehind uristr (p + (behind 63 q).length) 12 13 (actBehind uristr p 10 11 s q) f := by
  change sweep (act uristr) 24 (seq (opt (seq (chr 63) (part 10 11 query)))
    (opt (seq (chr 35) (part 12 13 query)))) [] p (behind 63 q ++ behind 35 f) s = _
  rw [sweep_seq_of_avoids (accepts_behind hq) (accepts_behind hf), sweep_behind rfl hq
    (by decide) (by decide), sweep_behind rfl hf (by decide) (by decide)]
  · intro c hc
    obtain rfl := viable_behind hc
    rfl
  · decide

/-- A host is not followed by a colon of its own. -/
theorem host_stops {h y : Bytes} (hh : host.Accepts h) : ¬ host.Viable (h ++ 58 :: y) := by
  intro hv
  have hcolon : host.Viable (h ++ [58]) := by
    rw [List.append_cons] at hv
    exact hv.front
  rcases viable_alt.mp hcolon with hv | hv
  · -- an address in brackets
    have hinner : ∀ u, (seq (lit '[') (alt IPv6address IPvFuture)).Viable u → 93 ∉ u :=
      fun u hu => hu.not_mem rfl
    rcases viable_closed hv with hv | ⟨v, huv, -⟩
    · cases h with
      | nil => cases viable_chr_seq hv
      | cons c h =>
          obtain rfl : c = 91 := viable_chr_seq hv
          rcases accepts_alt.mp hh with hh | hh
          · obtain ⟨w, hw, -⟩ := accepts_closed hh
            exact hinner _ hv (by simp [hw])
          · exact hh.viable.not_mem (d := 91) rfl (by simp)
    · cases (List.append_singleton_inj.mp huv).2
  · exact hv.not_mem (d := 58) rfl (by simp)

/-- `host [":" port]` with its four actions. -/
def hostPort : Rx := seq (part 4 5 host) (opt (portPart 6))

theorem accepts_hostPort {h : Bytes} {o : Option Bytes} (hh : host.Accepts h)
    (ho : ∀ d ∈ o, port.Accepts d) : hostPort.Accepts (h ++ behind 58 o) :=
  (accepts_part.mpr hh).seq (accepts_behind ho)

theorem sweep_hostPort {h : Bytes} {o : Option Bytes} (hh : host.Accepts h)
    (ho : ∀ d ∈ o, port.Accepts d) :
    sweep (act uristr) 24 hostPort [] p (h ++ behind 58 o) s =
      actBehind uristr (p + h.length) 6 7
        (act uristr (p + h.length) 5 (act uristr p 4 s)) o := by
  have hover : Handover (part 4 5 host) (opt (portPart 6)) h := by
    refine ⟨accepts_part.mpr hh, ?_⟩
    rintro x c y rfl hx hc
    obtain rfl : c = 58 := viable_behind hc
    exact host_stops (accepts_part.mp hx) hh.viable
  have hport : (opt (portPart 6)).Accepts (behind 58 o) := accepts_behind ho
  rw [hostPort, sweep_seq hover hport, sweep_part rfl hh (by decide) (by decide)]
  · exact sweep_behind rfl ho (by decide) (by decide)
  · rintro c v' hc hv
    cases o with
    | none => cases hc
    | some d =>
        obtain ⟨rfl, -⟩ := List.cons.inj hc
        exact host_stops (y := []) hh (viable_part.mp hv)
  · have hlt : ∀ m ∈ (part 4 5 host).labels, ∀ n ∈ (opt (portPart 6)).labels, m < n := by
      decide
    rintro m n hm (⟨u, c, hn⟩ | ⟨u, hn⟩)
    · exact hlt m hm.mem_labels n hn.mem_labels
    · exact hlt m hm.mem_labels n hn.mem_labels

/-! ## Behind the user information -/

theorem userinfo_avoids : userinfo.avoids 64 = true := rfl

/-- `save_userinfo` is performed at the at sign only. -/
theorem userinfoPart_fires {u : Bytes} {c : UInt8} {n : Nat} (h : (userinfoPart 3).Fires u c n) :
    c = 64 := by
  rcases h.of_seq with h | ⟨-, hc⟩ | ⟨v, w, -, -, h⟩
  · exact absurd (fires_leave.mp h) (plain_fires rfl)
  · rcases viable_chr hc with hc | hc
    · cases hc
    · exact (List.cons.inj hc).1
  · exact absurd h (plain_fires rfl)

theorem userinfoPart_pending {u : Bytes} {n : Nat} : ¬ (userinfoPart 3).Pending u n := by
  intro h
  rcases h.of_seq with ⟨-, h⟩ | ⟨v, w, -, -, h⟩
  · cases accepts_nil.mp h
  · exact absurd h (plain_pending rfl)

theorem userinfoPart_accepts {ui : Bytes} (h : userinfo.Accepts ui) :
    (userinfoPart 3).Accepts (ui ++ [64]) :=
  (accepts_leave.mpr h).seq (accepts_chr 64)

theorem user_fires {u : Bytes} {c : UInt8} {n : Nat}
    (h : (seq (userinfoPart 3) hostPort).Fires u c n) : 64 ∈ u ++ [c] := by
  rcases h.of_seq with h | ⟨h, -⟩ | ⟨v, w, rfl, hv, -⟩
  · simp [userinfoPart_fires h]
  · exact absurd h userinfoPart_pending
  · obtain ⟨w, rfl, -⟩ := accepts_closed hv
    simp

theorem user_pending {u : Bytes} {n : Nat}
    (h : (seq (userinfoPart 3) hostPort).Pending u n) : 64 ∈ u := by
  rcases h.of_seq with ⟨h, -⟩ | ⟨v, w, rfl, hv, -⟩
  · exact absurd h userinfoPart_pending
  · obtain ⟨w, rfl, -⟩ := accepts_closed hv
    simp

/-- Without an at sign only the host and the port have actions. -/
theorem sweep_without_user {v : Bytes} (h : 64 ∉ v) :
    sweep (act uristr) 24 (seq (opt (userinfoPart 3)) hostPort) [] p v s =
      sweep (act uristr) 24 hostPort [] p v s := by
  refine sweep_congr ?_ ?_
  · rintro x c y rfl n
    rw [List.nil_append, fires_opt_seq rfl, or_iff_right]
    intro hf
    have hat := user_fires hf
    rw [List.mem_append, List.mem_singleton] at hat
    exact h (by simpa using hat.imp_right .inl)
  · intro n
    rw [List.nil_append, pending_opt_seq rfl, or_iff_right]
    exact fun hp => h (user_pending hp)

theorem handover_user {ui : Bytes} (h : userinfo.Accepts ui) :
    Handover (userinfoPart 3) hostPort (ui ++ [64]) := by
  refine ⟨userinfoPart_accepts h, ?_⟩
  intro x c y hx hacc
  obtain ⟨w, rfl, -⟩ := accepts_closed hacc
  have hmem : 64 ∈ (ui ++ [64]).dropLast := by
    rw [hx, List.dropLast_append_cons]
    simp
  rw [List.dropLast_concat] at hmem
  exact absurd hmem (h.viable.not_mem userinfo_avoids)

theorem user_stops {ui : Bytes} {c : UInt8} : ¬ (userinfoPart 3).Viable (ui ++ [64] ++ [c]) := by
  intro hv
  rcases viable_closed hv with hv | ⟨v, huv, hacc⟩
  · exact (viable_leave.mp hv).not_mem userinfo_avoids (by simp)
  · obtain ⟨rfl, -⟩ := List.append_singleton_inj.mp huv
    exact (accepts_leave.mp hacc).viable.not_mem userinfo_avoids (by simp)

theorem hostPort_stops {x y : Bytes} : ¬ hostPort.Viable (x ++ 64 :: y) := fun hv =>
  hv.not_mem (d := 64) rfl (by simp)

theorem userinfoPart_fires_at {ui : Bytes} {n : Nat} (h : userinfo.Accepts ui) :
    (userinfoPart 3).Fires ui 64 n ↔ n = 3 := by
  have hover : Handover (leave 3 userinfo) (chr 64) ui := by
    refine handover_of_avoids (accepts_leave.mpr h) ?_
    intro c hc
    rcases viable_chr hc with hc | hc
    · cases hc
    · obtain ⟨rfl, -⟩ := List.cons.inj hc
      exact userinfo_avoids
  have hdead : ¬ (leave 3 userinfo).Viable (ui ++ [64]) := fun hv =>
    (viable_leave.mp hv).not_mem userinfo_avoids (by simp)
  have hpending : ¬ userinfo.Pending ui n := plain_pending rfl
  have hfires : ¬ (chr 64).Fires [] 64 n := plain_fires rfl
  change (seq (leave 3 userinfo) (chr 64)).Fires ui 64 n ↔ _
  rw [hover.fires_at hdead, pending_leave]
  simp [hpending, hfires, h, (accepts_chr 64).viable]

open Classical in
/-- In front of the at sign the actions of host and port go on; behind it they start anew. -/
theorem sweep_user {I : Nat → Parse → Prop} {ui v : Bytes} (hui : userinfo.Accepts ui)
    (h : I p s)
    (hstep : ∀ x c y, ui = x ++ c :: y → ∀ s, I (p + x.length) s →
      I (p + x.length + 1)
        (Ragel.perform (act uristr) (p + x.length) (hostPort.Fires x c) 24 s)) :
    ∃ s', I (p + ui.length) s' ∧
      sweep (act uristr) 24 (seq (opt (userinfoPart 3)) hostPort) [] p (ui ++ 64 :: v) s =
        sweep (act uristr) 24 hostPort [] (p + ui.length + 1) v
          (act uristr (p + ui.length) 3 s') := by
  have hat : 64 ∉ ui := hui.viable.not_mem userinfo_avoids
  have hfront : ∃ s', sweep (act uristr) 24 (seq (opt (userinfoPart 3)) hostPort) [] p
      (ui ++ 64 :: v) s = sweep (act uristr) 24 (seq (opt (userinfoPart 3)) hostPort) ([] ++ ui)
        (p + ui.length) (64 :: v) s' ∧ I (p + ui.length) s' := by
    refine sweep_through h ?_
    rintro x c y rfl st hst
    rw [List.nil_append, perform_congr (Q := hostPort.Fires x c)]
    · exact hstep x c y rfl st hst
    · intro n
      rw [fires_opt_seq rfl, or_iff_right]
      intro hf
      have hmem := user_fires hf
      rw [List.mem_append, List.mem_singleton] at hmem
      exact hat (by simpa using hmem.imp_right .inl)
  obtain ⟨s', hsweep, hs'⟩ := hfront
  refine ⟨s', hs', ?_⟩
  have hover := handover_user hui
  have hthree : ∀ n, (seq (opt (userinfoPart 3)) hostPort).Fires ui 64 n ↔ n = 3 := by
    intro n
    rw [fires_opt_seq rfl, hover.fires_front rfl, userinfoPart_fires_at hui, or_iff_left]
    exact fun hf => hostPort_stops (y := []) hf.viable
  rw [hsweep, List.nil_append, sweep, perform_one hthree (by decide)]
  refine sweep_congr ?_ ?_
  · intro x c y _ n
    rw [List.nil_append, fires_opt_seq rfl,
      hover.fires_after (fun c => user_stops) fun n => userinfoPart_pending, or_iff_left]
    intro hf
    have hv := hf.viable
    rw [List.append_assoc, List.append_assoc] at hv
    exact hostPort_stops hv
  · intro n
    rw [List.nil_append, pending_opt_seq rfl,
      hover.pending_after (fun c => user_stops) fun n => userinfoPart_pending, or_iff_left]
    intro hp
    have hv := hp.accepts.viable
    rw [List.append_assoc] at hv
    exact hostPort_stops hv

/-- In front of a colon the host has nothing but its entering action. -/
theorem hostPort_fires {x : Bytes} {c : UInt8} {n : Nat} (h : hostPort.Fires x c n)
    (hx : 58 ∉ x) (hc : c ≠ 58) : x = [] ∧ n = 4 := by
  rcases h.of_seq with h | ⟨-, h⟩ | ⟨v, w, rfl, -, h⟩
  · rcases fires_enter.mp h with ⟨rfl, rfl, -⟩ | h
    · exact ⟨rfl, rfl⟩
    · exact absurd (fires_leave.mp h) (plain_fires rfl)
  · exact absurd (viable_behind h) hc
  · cases w with
    | nil => exact absurd (viable_behind h.viable) hc
    | cons d w =>
        obtain rfl := viable_behind (Viable.front (u := [d]) (v := w ++ [c]) h.viable)
        exact absurd (by simp) hx

theorem sweep_user_plain {ui v : Bytes} (hui : userinfo.Accepts ui) (hcolon : 58 ∉ ui)
    (hidle : act uristr p 4 s = s) :
    sweep (act uristr) 24 (seq (opt (userinfoPart 3)) hostPort) [] p (ui ++ 64 :: v) s =
      sweep (act uristr) 24 hostPort [] (p + ui.length + 1) v
        (act uristr (p + ui.length) 3 s) := by
  have hthrough : ∃ s', s' = s ∧
      sweep (act uristr) 24 (seq (opt (userinfoPart 3)) hostPort) [] p (ui ++ 64 :: v) s =
        sweep (act uristr) 24 hostPort [] (p + ui.length + 1) v
          (act uristr (p + ui.length) 3 s') := by
    refine sweep_user (I := fun _ t => t = s) hui rfl ?_
    rintro x d y rfl t rfl
    refine perform_invariant (I := fun t' => t' = t) rfl ?_
    rintro n t' hn rfl
    rw [List.mem_append, List.mem_cons, not_or, not_or] at hcolon
    obtain ⟨rfl, rfl⟩ := hostPort_fires hn hcolon.1 fun h => hcolon.2.1 h.symm
    exact hidle
  obtain ⟨s', rfl, hsweep⟩ := hthrough
  exact hsweep

/-- On the first colon `save_host` is performed, and nothing after it. -/
theorem hostPort_fires_colon {x : Bytes} (hx : host.Accepts x) (hcolon : 58 ∉ x) :
    hostPort.Fires x 58 5 ∧ ∀ n, hostPort.Fires x 58 n → n ≤ 5 := by
  have hover : Handover (part 4 5 host) (opt (portPart 6)) x := by
    refine ⟨accepts_part.mpr hx, ?_⟩
    rintro u c y rfl - hc
    obtain rfl := viable_behind hc
    exact hcolon (by simp)
  have hdead : ¬ (part 4 5 host).Viable (x ++ [58]) := fun hv =>
    host_stops (y := []) hx (viable_part.mp hv)
  have hleave : (part 4 5 host).Pending x 5 :=
    pending_enter.mpr (.inr (pending_leave.mpr (.inr ⟨rfl, hx⟩)))
  have hopt : (opt (portPart 6)).Viable [58] :=
    (viable_opt (by simp)).mpr ⟨_, _, List.mem_singleton_self _, rfl⟩
  refine ⟨(hover.fires_at hdead).mpr (.inl ⟨hleave, hopt⟩), ?_⟩
  intro n hn
  have hlabels : ∀ m ∈ (part 4 5 host).labels, m ≤ 5 := by decide
  rcases (hover.fires_at hdead).mp hn with ⟨hn, -⟩ | hn
  · exact hlabels n hn.mem_labels
  · rcases fires_alt.mp hn with hn | hn
    · rcases hn.of_seq with hn | ⟨hn, -⟩ | ⟨v, w, hv, hacc, -⟩
      · exact absurd hn (plain_fires rfl)
      · exact absurd hn (plain_pending rfl)
      · obtain ⟨rfl, -⟩ := List.append_eq_nil_iff.mp hv.symm
        cases accepts_nil.mp hacc
    · exact absurd hn (plain_fires rfl)

/-- User information up to its first colon is a host. -/
theorem host_of_userinfo {x y : Bytes} (h : userinfo.Viable (x ++ 58 :: y)) (hx : 58 ∉ x) :
    host.Accepts x := by
  rw [List.append_cons] at h
  refine accepts_alt.mpr (.inr (accepts_alt.mpr (.inr (star_front ?_ ?_ h.front hx))))
  · intro w hw hcolon
    rcases accepts_alt.mp hw with hw | hw
    · exact accepts_alt.mpr (.inl hw)
    · rcases accepts_alt.mp hw with hw | hw
      · exact accepts_alt.mpr (.inr (accepts_alt.mpr (.inl hw)))
      · rcases accepts_alt.mp hw with hw | hw
        · exact accepts_alt.mpr (.inr (accepts_alt.mpr (.inr hw)))
        · rcases viable_chr hw.viable with rfl | rfl
          · cases accepts_nil.mp hw
          · exact absurd (by simp) hcolon
  · intro w hw hcolon
    have hother : ∀ r : Rx, r.avoids 58 = true → ¬ r.Viable (w ++ [58]) := fun r hr hv =>
      hv.not_mem hr (by simp)
    rcases viable_alt.mp hw with hw | hw
    · exact absurd hw (hother _ rfl)
    · rcases viable_alt.mp hw with hw | hw
      · exact absurd hw (hother _ rfl)
      · rcases viable_alt.mp hw with hw | hw
        · exact absurd hw (hother _ rfl)
        · rcases viable_chr hw with hw | hw
          · simp at hw
          · exact (List.append_singleton_inj.mp (hw.trans (List.nil_append _).symm)).1

/-! ## The authority -/

/-- The actions of host and port. -/
def actHost (uristr : Bytes) (p : Nat) (h : Bytes) (o : Option Bytes) (s : Parse) : Parse :=
  actBehind uristr (p + h.length) 6 7 (act uristr (p + h.length) 5 (act uristr p 4 s)) o

/-- The actions up to the at sign. -/
def actUser (uristr : Bytes) (p : Nat) (s : Parse) : Option Bytes → Parse
  | none => act uristr p 2 s
  | some u => act uristr (p + u.length) 3 (act uristr p 2 s)

theorem accepts_authority {c : Components} : (uri_machine.authority 2).Accepts c.authority := by
  have hrest : hostPort.Accepts (c.host ++ behind 58 c.port) :=
    accepts_hostPort c.host_legal c.port_legal
  refine accepts_enter.mpr (Accepts.seq (accepts_opt.mpr ?_) hrest)
  cases hu : c.userinfo with
  | none => exact .inr (by simp [Components.user, hu])
  | some u =>
      left
      simp only [Components.user, hu]
      exact userinfoPart_accepts (c.userinfo_legal u hu)

theorem sweep_authority_enter {c : Components} :
    sweep (act uristr) 24 (uri_machine.authority 2) [] p c.authority s =
      sweep (act uristr) 24 (seq (opt (userinfoPart 3)) hostPort) [] p c.authority
        (act uristr p 2 s) :=
  sweep_enter (accepts_enter.mp accepts_authority) (by decide) (by decide)

/-- No user information is saved, and from behind its colon on no mark is left from before. -/
structure Lost (p colon q : Nat) (s : Parse) : Prop where
  empty : s.uri.m_userinfo = []
  mark : colon < q → ∀ m ∈ s.mark, p < m

open Classical in
theorem Lost.step {x y x' y' : Bytes} {d : UInt8} (hhost : host.Accepts x) (hx : 58 ∉ x)
    (hd : x ++ 58 :: y = x' ++ d :: y') (h : Lost p (p + x.length) (p + x'.length) s) :
    Lost p (p + x.length) (p + x'.length + 1)
      (Ragel.perform (act uristr) (p + x'.length) (hostPort.Fires x' d) 24 s) := by
  refine ⟨?_, ?_⟩
  · have hlabels : ∀ n ∈ hostPort.labels, embeddings[n]? ≠ some .save_userinfo := by
      decide
    refine perform_invariant (I := fun t : Parse => t.uri.m_userinfo = []) h.empty ?_
    intro n t hn ht
    rw [act_userinfo (hlabels n hn.mem_labels), ht]
  · intro hlen
    rcases Nat.lt_or_ge x.length x'.length with hlt | hge
    · -- behind the colon
      refine perform_invariant (I := fun t : Parse => ∀ m ∈ t.mark, p < m) (h.mark (by omega)) ?_
      intro n t _ ht m hm
      rcases act_mark hm with rfl | hm
      · omega
      · exact ht m hm
    · -- on the colon
      obtain ⟨rfl, hrest⟩ := List.append_inj hd (by omega)
      obtain ⟨rfl, -⟩ := List.cons.inj hrest
      obtain ⟨hfive, hlast⟩ := hostPort_fires_colon hhost hx
      rw [perform_last hfive (by decide) hlast]
      intro m hm
      have hnone : ∀ t, (act uristr (p + x.length) 5 t).mark = none := fun t => save_mark
      rw [hnone] at hm
      cases hm

theorem Lost.save {colon n : Nat} (h : Lost p colon (p + n) s) (hcolon : colon < p + n)
    (hpos : 0 < n) : (act uristr (p + n) 3 s).uri.m_userinfo.length < n := by
  change (Parse.save uristr _ setUserinfo s).uri.m_userinfo.length < _
  rw [Parse.save]
  cases hm : s.mark with
  | none => exact h.empty ▸ hpos
  | some m =>
      have hp := h.mark hcolon m hm
      dsimp only
      split
      · simp only [setUserinfo, Scanner.slice, List.length_take]
        omega
      · exact h.empty ▸ hpos

/-- With a colon in it the user information is not saved whole. -/
theorem sweep_authority_colon {c : Components} {u : Bytes} (hu : c.userinfo = some u)
    (hcolon : 58 ∈ u) (hs : s.uri.m_userinfo = []) :
    ∃ s' : Parse, s'.uri.m_userinfo.length < u.length ∧
      sweep (act uristr) 24 (uri_machine.authority 2) [] p c.authority s =
        actHost uristr (p + c.user.length) c.host c.port s' := by
  have hui := c.userinfo_legal u hu
  obtain ⟨x, y, rfl, hx⟩ := List.eq_append_cons_of_mem hcolon
  have hhost : host.Accepts x := host_of_userinfo hui.viable hx
  have hstart : Lost p (p + x.length) p (act uristr p 2 s) :=
    ⟨by rw [act_userinfo (by decide), hs], fun h => by omega⟩
  obtain ⟨s', hs', hsweep⟩ := sweep_user (v := c.host ++ behind 58 c.port) hui hstart
    fun x' d y' hd t ht => ht.step (y := y) hhost hx hd
  refine ⟨act uristr (p + (x ++ 58 :: y).length) 3 s', hs'.save (by simp) (by simp), ?_⟩
  have hlen : (x ++ 58 :: y ++ [64]).length = (x ++ 58 :: y).length + 1 := List.length_append
  rw [sweep_authority_enter, Components.authority, Components.user, hu]
  dsimp only
  rw [List.append_assoc, List.singleton_append, hsweep, sweep_hostPort c.host_legal c.port_legal,
    hlen]
  rfl

theorem sweep_authority {c : Components} (hcolon : 58 ∉ c.userinfo.getD []) :
    sweep (act uristr) 24 (uri_machine.authority 2) [] p c.authority s =
      actHost uristr (p + c.user.length) c.host c.port (actUser uristr p s c.userinfo) := by
  rw [sweep_authority_enter, Components.authority, Components.user]
  cases hu : c.userinfo with
  | none =>
      have hat : 64 ∉ c.host ++ behind 58 c.port :=
        (accepts_hostPort c.host_legal c.port_legal).viable.not_mem rfl
      simp only [List.nil_append]
      rw [sweep_without_user hat, sweep_hostPort c.host_legal c.port_legal]
      rfl
  | some u =>
      have hui := c.userinfo_legal u hu
      rw [hu] at hcolon
      simp only [List.append_assoc, List.singleton_append, List.length_append,
        List.length_singleton]
      rw [sweep_user_plain hui hcolon rfl, sweep_hostPort c.host_legal c.port_legal]
      rfl

/-! ## The whole text -/

/-- A relative reference has no action before a slash, a question mark or a hash. -/
theorem relative_ref_fires {u : Bytes} {c : UInt8} {n : Nat} (h : relative_ref.Fires u c n) :
    47 ∈ u ++ [c] ∨ 63 ∈ u ++ [c] ∨ 35 ∈ u ++ [c] := by
  rcases h.of_seq with h | ⟨-, h⟩ | ⟨v, w, rfl, -, h⟩
  · rcases fires_alt.mp h with h | h
    · exact .inl (mem_of_viable_chr_seq (by simp) h.viable)
    · exact absurd h (plain_fires rfl)
  · exact .inr (by rcases tail_first h with rfl | rfl <;> simp)
  · cases w with
    | nil => exact .inr (by rcases tail_first h.viable with rfl | rfl <;> simp)
    | cons d w =>
        have hd := tail_first (Viable.front (u := [d]) (v := w ++ [c]) h.viable)
        exact .inr (by rcases hd with rfl | rfl <;> simp)

theorem not_mem_scheme {x : Bytes} {d : UInt8} (hx : uri_machine.scheme.Accepts x)
    (hd : uri_machine.scheme.avoids d = true) (hne : d ≠ 58) : d ∉ x ++ [58] := by
  simp [hx.viable.not_mem hd, hne]

/-- Nor is it a scheme with its colon. -/
theorem relative_ref_stops {x y : Bytes} (hx : uri_machine.scheme.Accepts x) :
    ¬ relative_ref.Viable (x ++ 58 :: y) := by
  intro hv
  rw [List.append_cons] at hv
  rcases hv.front.of_seq with hv | ⟨v, w, hvw, hw, -, hv⟩
  · rcases viable_alt.mp hv with hv | hv
    · exact not_mem_scheme hx (d := 47) rfl (by decide)
        (mem_of_viable_chr_seq (by simp) hv)
    rcases viable_alt.mp hv with hv | hv
    · exact not_mem_scheme hx (d := 47) rfl (by decide)
        (mem_of_viable_chr_seq (by simp) hv)
    rcases viable_alt.mp hv with hv | hv
    · rcases hv.of_seq with hv | ⟨v, w, hvw, hw, -, hv⟩
      · exact hv.not_mem (d := 58) rfl (by simp)
      · obtain ⟨c, w, rfl⟩ := List.exists_cons_of_ne_nil hw
        obtain rfl : c = 47 := viable_chr_seq hv.first_piece
        exact not_mem_scheme hx (d := 47) rfl (by decide) (by simp [hvw])
    · have hnil := hv.not_mem (d := 58) rfl
      simp at hnil
  · obtain ⟨c, w, rfl⟩ := List.exists_cons_of_ne_nil hw
    rcases tail_first (Viable.front (u := [c]) (v := w) hv) with rfl | rfl
    · exact not_mem_scheme hx (d := 63) rfl (by decide) (by simp [hvw])
    · exact not_mem_scheme hx (d := 35) rfl (by decide) (by simp [hvw])

theorem accepts_tail {n : Nat} {q f : Option Bytes} (hq : ∀ x ∈ q, query.Accepts x)
    (hf : ∀ x ∈ f, query.Accepts x) :
    (uri_machine.tail n).Accepts (behind 63 q ++ behind 35 f) :=
  (accepts_behind hq).seq (accepts_behind hf)

theorem path_first {c : UInt8} {u : Bytes} (h : path_abempty.Viable (c :: u)) : c = 47 := by
  rcases (Viable.front (u := [c]) (v := u) h).of_seq with h | ⟨v, w, hvw, hw, -, h⟩
  · exact viable_chr_seq ((viable_opt (by simp)).mp h)
  · cases v with
    | nil =>
        obtain rfl : [c] = w := hvw
        exact viable_chr_seq h.first_piece
    | cons d v =>
        obtain ⟨-, hnil⟩ := List.cons.inj hvw
        exact absurd (List.append_eq_nil_iff.mp hnil.symm).2 hw

/-- `"//" authority path_abempty` -/
theorem accepts_hier_part {c : Components} :
    hier_part.Accepts (47 :: 47 :: (c.authority ++ c.path)) :=
  accepts_alt.mpr (.inl ((accepts_chr 47).seq ((accepts_chr 47).seq
    (accepts_authority.seq (accepts_part.mpr c.path_legal)))))

theorem accepts_URI {c : Components} : URI.Accepts c.text :=
  (accepts_part.mpr c.scheme_legal).seq ((accepts_chr 58).seq
    (accepts_hier_part.seq (accepts_tail c.query_legal c.fragment_legal)))

/-- The relative reference that is tried beside the URI does nothing. -/
theorem sweep_main {c : Components} :
    sweep (act uristr) 24 main [] p c.text s = sweep (act uristr) 24 URI [] p c.text s := by
  refine sweep_alt_left ?_ ?_
  · intro x b y hx n hf
    have htext : c.scheme ++ [58] ++ (47 :: 47 :: (c.authority ++ c.path) ++ c.tail) =
        x ++ [b] ++ y := by
      rw [← List.append_cons, ← List.append_cons]
      exact hx
    rcases List.append_eq_append_iff.mp htext with ⟨z, hz, -⟩ | ⟨z, hz, -⟩
    · have hv := hf.viable
      rw [hz, ← List.append_cons] at hv
      exact relative_ref_stops c.scheme_legal hv
    · rcases relative_ref_fires hf with h | h | h
      · exact not_mem_scheme c.scheme_legal (d := 47) rfl (by decide)
          (hz ▸ List.mem_append_left z h)
      · exact not_mem_scheme c.scheme_legal (d := 63) rfl (by decide)
          (hz ▸ List.mem_append_left z h)
      · exact not_mem_scheme c.scheme_legal (d := 35) rfl (by decide)
          (hz ▸ List.mem_append_left z h)
  · intro n hp
    exact relative_ref_stops c.scheme_legal hp.accepts.viable

theorem sweep_hier_part {c : Components} :
    sweep (act uristr) 24 hier_part [] p (47 :: 47 :: (c.authority ++ c.path)) s =
      act uristr (p + 2 + c.authority.length + c.path.length) 9
        (act uristr (p + 2 + c.authority.length) 8
          (sweep (act uristr) 24 (uri_machine.authority 2) [] (p + 2) c.authority s)) := by
  have hpath : (part 8 9 path_abempty).Accepts c.path := accepts_part.mpr c.path_legal
  have hboth : (seq (uri_machine.authority 2) (part 8 9 path_abempty)).Accepts
    (c.authority ++ c.path) := accepts_authority.seq hpath
  have hslash : (seq (chr 47) (seq (uri_machine.authority 2) (part 8 9 path_abempty))).Accepts
    (47 :: (c.authority ++ c.path)) := (accepts_chr 47).seq hboth
  change sweep (act uristr) 24 (alt (seq (chr 47) (seq (chr 47) (seq (uri_machine.authority 2)
    (part 8 9 path_abempty)))) (alt path_absolute (alt path_rootless path_empty))) [] p _ s = _
  rw [sweep_alt_left (fun _ _ _ _ _ => plain_fires rfl) fun _ => plain_pending rfl,
    sweep_chr_seq 47 hslash, sweep_chr_seq 47 hboth, sweep_seq_of_avoids accepts_authority hpath,
    sweep_part rfl c.path_legal (by decide) (by decide)]
  · intro d hd
    obtain rfl := path_first (viable_part.mp hd)
    rfl
  · decide

theorem sweep_URI {c : Components} :
    sweep (act uristr) 24 URI [] 0 c.text s =
      let p := c.scheme.length + 3
      let q := p + c.authority.length
      let e := q + c.path.length
      actBehind uristr (e + (behind 63 c.query).length) 12 13
        (actBehind uristr e 10 11
          (act uristr e 9 (act uristr q 8
            (sweep (act uristr) 24 (uri_machine.authority 2) [] p c.authority
              (act uristr c.scheme.length 1 (act uristr 0 0 s))))) c.query) c.fragment := by
  have htail : (uri_machine.tail 10).Accepts c.tail := accepts_tail c.query_legal c.fragment_legal
  have hrest : (seq hier_part (uri_machine.tail 10)).Accepts
    (47 :: 47 :: (c.authority ++ c.path) ++ c.tail) := accepts_hier_part.seq htail
  have hcolon : (seq (chr 58) (seq hier_part (uri_machine.tail 10))).Accepts
    (58 :: (47 :: 47 :: (c.authority ++ c.path) ++ c.tail)) := (accepts_chr 58).seq hrest
  have hscheme : (part 0 1 uri_machine.scheme).Accepts c.scheme := accepts_part.mpr c.scheme_legal
  have hplace : c.scheme.length + 1 + (47 :: 47 :: (c.authority ++ c.path)).length =
      c.scheme.length + 3 + c.authority.length + c.path.length := by
    simp only [List.length_cons, List.length_append]
    omega
  change sweep (act uristr) 24 (seq (part 0 1 uri_machine.scheme)
    (seq (chr 58) (seq hier_part (uri_machine.tail 10)))) [] 0
    (c.scheme ++ 58 :: (47 :: 47 :: (c.authority ++ c.path) ++ c.tail)) s = _
  rw [sweep_seq_of_avoids hscheme hcolon, sweep_part rfl c.scheme_legal (by decide) (by decide),
    sweep_chr_seq 58 hrest, sweep_seq_of_avoids accepts_hier_part htail, sweep_hier_part,
    Components.tail, sweep_tail c.query_legal c.fragment_legal, Nat.zero_add, hplace]
  · intro d hd
    rcases tail_first hd with rfl | rfl <;> rfl
  · decide
  · intro d hd
    obtain rfl : d = 58 := viable_chr_seq hd
    rfl
  · decide

/-! ## What is saved -/

theorem slice_at (front back : Bytes) {x : Bytes} (h : uristr = front ++ (x ++ back))
    (hp : p = front.length) : Scanner.slice uristr p x.length = x := by
  subst h hp
  simp [Scanner.slice]

/-- An empty part is not saved. -/
def fill (set : Bytes → Uri → Uri) (x : Bytes) (uri : Uri) : Uri :=
  if x = [] then uri else set x uri

theorem fill_eq {set : Bytes → Uri → Uri} {x : Bytes} {u : Uri} (h : set [] u = u) :
    fill set x u = set x u := by
  rw [fill]
  split
  · rename_i hx
    rw [hx, h]
  · rfl

theorem save_marked {x : Bytes} {u : Uri} {set : Bytes → Uri → Uri}
    (h : Scanner.slice uristr p x.length = x) :
    (Parse.mk (some p) u).save uristr (p + x.length) set = ⟨none, fill set x u⟩ := by
  cases x with
  | nil => simp [Parse.save, fill]
  | cons c x =>
      have hlen : p + (c :: x).length - p = (c :: x).length := Nat.add_sub_cancel_left ..
      simp only [Parse.save, hlen, h]
      simp [fill]

theorem actBehind_uri (d : UInt8) (set : Bytes → Uri → Uri) (front back : Bytes) {i j : Nat}
    {o : Option Bytes} (hi : ∀ q s, act uristr q i s = ⟨some q, s.uri⟩)
    (hj : ∀ q s, act uristr q j s = s.save uristr q set)
    (h : uristr = front ++ (behind d o ++ back)) (hp : p = front.length) :
    (actBehind uristr p i j s o).uri = fill set (o.getD []) s.uri := by
  cases o with
  | none => rfl
  | some x =>
      have hslice : Scanner.slice uristr (p + 1) x.length = x := by
        refine slice_at (front ++ [d]) back ?_ ?_
        · simp [h, behind]
        · simp [hp]
      rw [actBehind, hi, hj, save_marked hslice]
      rfl

theorem port_digit {d : Bytes} (h : port.Accepts d) {b : UInt8} (hb : b ∈ d) :
    48 ≤ b ∧ b ≤ 57 := by
  by_contra hn
  refine h.viable.not_mem (d := b) ?_ hb
  change (!(uri_machine.digit b)) = true
  rw [uri_machine.digit, between]
  rw [UInt8.le_iff_toNat_le, UInt8.le_iff_toNat_le] at hn
  simp only [UInt8.reduceToNat, Char.reduceToNat, Bool.not_eq_true', Bool.and_eq_false_iff,
    decide_eq_false_iff_not] at hn ⊢
  omega

/-- `atoi` stops behind the port. -/
theorem atoi_port {d rest : Bytes} (h : port.Accepts d)
    (hrest : ∀ b ∈ rest.head?, b = 47 ∨ b = 63 ∨ b = 35) :
    atoi (d ++ rest) =
      int32 (min (d.foldl (fun n b => 10 * n + (b.toNat - 48)) 0 : Nat) 9223372036854775807) := by
  have hdigit : ∀ b ∈ d, http.digit b = b.toNat - 48 ∧ http.digit b < 10 := by
    intro b hb
    have hrange := port_digit h hb
    rw [http.digit, if_pos hrange]
    rw [UInt8.le_iff_toNat_le, UInt8.le_iff_toNat_le] at hrange
    have hupper : (57 : UInt8).toNat = 57 := rfl
    omega
  have hwhile : (d ++ rest).takeWhile (fun c => http.digit c < 10) = d := by
    rw [List.takeWhile_append_of_pos fun b hb => decide_eq_true (hdigit b hb).2]
    cases rest with
    | nil => simp
    | cons b rest =>
        rw [List.takeWhile_cons_of_neg, List.append_nil]
        rcases hrest b rfl with rfl | rfl | rfl <;> decide
  rw [atoi, strtol, hwhile, List.foldl_ext _ _ _ fun n b hb => by rw [(hdigit b hb).1]]

theorem int32_min_iff {n : Nat} :
    int32 (min n 9223372036854775807) = n ↔ n < 2147483648 := by
  constructor
  · intro h
    have hlt : int32 (min n 9223372036854775807) < 2147483648 := by
      simp only [int32, uint32]
      omega
    omega
  · intro h
    rw [min_eq_left (by omega)]
    exact int32_of_lt h

end

namespace Components

variable (c : Components)

/-- What `Create` makes of the components when no colon stands in the user information. -/
def parsed : Uri where
  m_scheme := c.scheme
  m_userinfo := c.userinfo.getD []
  m_host := c.host
  m_path := c.path
  m_query := if c.fragment.getD [] = [] then c.query.getD [] else c.fragment.getD []
  m_fragment := []
  m_port := int32 (min c.portNumber 9223372036854775807)

theorem act_scheme :
    act c.text c.scheme.length 1 (act c.text 0 0 ⟨none, new⟩) = ⟨none, setScheme c.scheme new⟩ := by
  have hslice : Scanner.slice c.text 0 c.scheme.length = c.scheme :=
    slice_at [] _ rfl rfl
  have hsave : (Parse.mk (some 0) new).save c.text (0 + c.scheme.length) setScheme =
      ⟨none, fill setScheme c.scheme new⟩ := save_marked hslice
  rw [Nat.zero_add, fill_eq rfl] at hsave
  exact hsave

theorem actUser_uri {s : Parse} (h : s.uri.m_userinfo = []) :
    (actUser c.text (c.scheme.length + 3) s c.userinfo).uri =
      setUserinfo (c.userinfo.getD []) s.uri := by
  have hset : setUserinfo [] s.uri = s.uri := by rw [setUserinfo, ← h]
  cases hu : c.userinfo with
  | none => exact hset.symm
  | some u =>
      have hslice : Scanner.slice c.text (c.scheme.length + 3) u.length = u := by
        refine slice_at (c.scheme ++ [58, 47, 47])
          (64 :: (c.host ++ behind 58 c.port) ++ c.path ++ c.tail) ?_ (by simp)
        simp [text, authority, user, hu]
      change (Parse.save c.text _ setUserinfo ⟨some _, s.uri⟩).uri = _
      rw [save_marked hslice, fill_eq hset]
      rfl

/-- The place of the host. -/
def hostPlace : Nat := c.scheme.length + 3 + c.user.length

theorem act_host {s : Parse} (h : s.uri.m_host = []) :
    act c.text (c.hostPlace + c.host.length) 5 (act c.text c.hostPlace 4 s) =
      ⟨none, setHost c.host s.uri⟩ := by
  have hset : setHost [] s.uri = s.uri := by rw [setHost, ← h]
  have hslice : Scanner.slice c.text c.hostPlace c.host.length = c.host := by
    refine slice_at (c.scheme ++ [58, 47, 47] ++ c.user)
      (behind 58 c.port ++ c.path ++ c.tail) ?_ ?_
    · simp [text, authority]
    · simp only [hostPlace, List.length_append, List.length_cons, List.length_nil]
  change Parse.save c.text _ setHost ⟨some _, s.uri⟩ = _
  rw [save_marked hslice, fill_eq hset]

/-- What `atoi` reads; it begins with the port. -/
theorem drop_port {d : Bytes} (hd : c.port = some d) :
    c.text.drop (c.hostPlace + c.host.length + 1) = d ++ (c.path ++ c.tail) := by
  have htext : c.text = (c.scheme ++ [58, 47, 47] ++ c.user ++ c.host ++ [58]) ++
      (d ++ (c.path ++ c.tail)) := by
    simp [text, authority, behind, hd]
  have hlen : c.hostPlace + c.host.length + 1 =
      (c.scheme ++ [58, 47, 47] ++ c.user ++ c.host ++ [58]).length := by
    simp only [hostPlace, List.length_append, List.length_cons, List.length_nil]
  rw [htext, hlen, List.drop_left]

theorem head_behind_port {b : UInt8} (hb : b ∈ (c.path ++ c.tail).head?) :
    b = 47 ∨ b = 63 ∨ b = 35 := by
  rw [tail] at hb
  cases hp : c.path with
  | cons e p =>
      rw [hp] at hb
      obtain rfl : e = b := by simpa using hb
      exact .inl (path_first (hp ▸ c.path_legal.viable))
  | nil =>
      rw [hp] at hb
      cases hq : c.query <;> cases hf : c.fragment <;>
        simp [behind, hq, hf] at hb <;> simp [← hb]

theorem act_port {s : Parse} (h : s.uri.m_port = 0) :
    (actBehind c.text (c.hostPlace + c.host.length) 6 7 s c.port).uri =
      setPort (int32 (min c.portNumber 9223372036854775807)) s.uri := by
  have hset : setPort 0 s.uri = s.uri := by rw [setPort, ← h]
  cases hd : c.port with
  | none =>
      simp only [portNumber, hd]
      exact hset.symm
  | some d =>
      have hatoi := atoi_port (c.port_legal d hd) fun b => c.head_behind_port
      change (Parse.savePort c.text _ ⟨some _, s.uri⟩).uri = _
      simp only [Parse.savePort, c.drop_port hd, hatoi, portNumber, hd, Option.getD_some]
      split
      · rfl
      · rename_i hempty
        obtain rfl : d = [] := List.length_eq_zero_iff.mp (by omega)
        exact hset.symm

theorem act_path {s : Parse} (h : s.uri.m_path = []) :
    act c.text (c.hostPlace + (c.host ++ behind 58 c.port).length + c.path.length) 9
        (act c.text (c.hostPlace + (c.host ++ behind 58 c.port).length) 8 s) =
      ⟨none, setPath c.path s.uri⟩ := by
  have hset : setPath [] s.uri = s.uri := by rw [setPath, ← h]
  have hslice : Scanner.slice c.text (c.hostPlace + (c.host ++ behind 58 c.port).length)
      c.path.length = c.path := by
    refine slice_at (c.scheme ++ [58, 47, 47] ++ c.authority) c.tail ?_ ?_
    · simp [text]
    · simp only [authority, hostPlace, List.length_append, List.length_cons, List.length_nil]
      omega
  change Parse.save c.text _ setPath ⟨some _, s.uri⟩ = _
  rw [save_marked hslice, fill_eq hset]

/-- The whole run from the state behind the host on. -/
def actRest (s : Parse) : Parse :=
  let q := c.hostPlace + (c.host ++ behind 58 c.port).length
  let e := q + c.path.length
  actBehind c.text (e + (behind 63 c.query).length) 12 13
    (actBehind c.text e 10 11 (act c.text e 9 (act c.text q 8 s)) c.query) c.fragment

theorem actRest_uri {s : Parse} (hpath : s.uri.m_path = []) (hquery : s.uri.m_query = []) :
    (c.actRest s).uri = fill setQuery (c.fragment.getD [])
      (setQuery (c.query.getD []) (setPath c.path s.uri)) := by
  have hset : setQuery [] (setPath c.path s.uri) = setPath c.path s.uri := by
    rw [setQuery, setPath, ← hquery]
  have hfront : c.hostPlace + (c.host ++ behind 58 c.port).length + c.path.length =
      (c.scheme ++ [58, 47, 47] ++ c.authority ++ c.path).length := by
    simp only [authority, hostPlace, List.length_append, List.length_cons, List.length_nil]
    omega
  rw [actRest,
    actBehind_uri 35 setQuery (c.scheme ++ [58, 47, 47] ++ c.authority ++ c.path ++
      behind 63 c.query) [] (fun _ _ => rfl) (fun _ _ => rfl) (by simp [text, tail])
      (by rw [hfront, ← List.length_append]),
    actBehind_uri 63 setQuery (c.scheme ++ [58, 47, 47] ++ c.authority ++ c.path)
      (behind 35 c.fragment) (fun _ _ => rfl) (fun _ _ => rfl) (by simp [text, tail]) hfront,
    c.act_path hpath, fill_eq hset]

theorem create_sweep : Create c.text =
    some (c.actRest (sweep (act c.text) 24 (uri_machine.authority 2) [] (c.scheme.length + 3)
      c.authority ⟨none, setScheme c.scheme new⟩)).uri := by
  have hmain : main.Accepts ([] ++ c.text) := accepts_alt.mpr (.inl accepts_URI)
  have hlen : c.scheme.length + 3 + c.authority.length =
      c.hostPlace + (c.host ++ behind 58 c.port).length := by
    simp only [authority, hostPlace, List.length_append]
    omega
  rw [Create, show embeddings.length = 24 from rfl, exec_eq hmain fun x => by simp [Reach],
    sweep_main, sweep_URI, act_scheme]
  dsimp only
  rw [hlen]
  rfl

theorem actHost_uri {s : Parse} (hhost : s.uri.m_host = []) (hport : s.uri.m_port = 0) :
    (actHost c.text c.hostPlace c.host c.port s).uri =
      setPort (int32 (min c.portNumber 9223372036854775807)) (setHost c.host s.uri) := by
  rw [actHost, c.act_host hhost]
  exact c.act_port hport

/-- What `Create` makes of the components when no colon stands in the user information. -/
theorem create_parsed (h : 58 ∉ c.userinfo.getD []) : Create c.text = some c.parsed := by
  have huser : (actUser c.text (c.scheme.length + 3) ⟨none, setScheme c.scheme new⟩
      c.userinfo).uri = setUserinfo (c.userinfo.getD []) (setScheme c.scheme new) :=
    c.actUser_uri rfl
  have hhost := c.actHost_uri (s := actUser c.text (c.scheme.length + 3)
    ⟨none, setScheme c.scheme new⟩ c.userinfo) (by rw [huser]; rfl) (by rw [huser]; rfl)
  rw [huser] at hhost
  rw [create_sweep, sweep_authority h]
  change some (c.actRest (actHost c.text c.hostPlace c.host c.port _)).uri = _
  rw [actRest_uri, hhost, fill, parsed]
  · split <;> rfl
  · rw [hhost]
    rfl
  · rw [hhost]
    rfl

theorem actBehind_userinfo {uristr : Bytes} {p i j : Nat} {s : Parse} {o : Option Bytes}
    (hi : embeddings[i]? ≠ some .save_userinfo) (hj : embeddings[j]? ≠ some .save_userinfo) :
    (actBehind uristr p i j s o).uri.m_userinfo = s.uri.m_userinfo := by
  cases o with
  | none => rfl
  | some x => rw [actBehind, act_userinfo hj, act_userinfo hi]

/-- The user information up to its colon is lost. -/
theorem create_colon (h : 58 ∈ c.userinfo.getD []) :
    ∃ uri, Create c.text = some uri ∧
      uri.m_userinfo.length < (c.userinfo.getD []).length := by
  cases hu : c.userinfo with
  | none =>
      rw [hu] at h
      cases h
  | some u =>
      rw [hu] at h
      obtain ⟨s', hlen, hsweep⟩ : ∃ s' : Parse, s'.uri.m_userinfo.length < u.length ∧
          sweep (act c.text) 24 (uri_machine.authority 2) [] (c.scheme.length + 3) c.authority
            ⟨none, setScheme c.scheme new⟩ = actHost c.text c.hostPlace c.host c.port s' :=
        sweep_authority_colon hu h rfl
      refine ⟨_, c.create_sweep, ?_⟩
      rw [hsweep, actRest, actHost, actBehind_userinfo (by decide) (by decide),
        actBehind_userinfo (by decide) (by decide), act_userinfo (by decide),
        act_userinfo (by decide), actBehind_userinfo (by decide) (by decide),
        act_userinfo (by decide), act_userinfo (by decide)]
      exact hlen

/-- The components come back unless a fragment is there, the user information has a colon, or the
port does not fit into 32 bits. -/
theorem create_iff : Create c.text = some c.uri ↔
    c.fragment.getD [] = [] ∧ 58 ∉ c.userinfo.getD [] ∧ c.portNumber < 2147483648 := by
  by_cases hcolon : 58 ∈ c.userinfo.getD []
  · obtain ⟨uri, hcreate, hlen⟩ := c.create_colon hcolon
    refine iff_of_false ?_ fun h => h.2.1 hcolon
    rw [hcreate, Option.some_inj]
    rintro rfl
    exact Nat.lt_irrefl _ hlen
  · rw [c.create_parsed hcolon, Option.some_inj, parsed, uri, Uri.mk.injEq]
    constructor
    · rintro ⟨-, -, -, -, -, hfragment, hport⟩
      exact ⟨hfragment.symm, hcolon, int32_min_iff.mp hport⟩
    · rintro ⟨hfragment, -, hport⟩
      rw [hfragment, if_pos rfl]
      exact ⟨rfl, rfl, rfl, rfl, rfl, rfl, int32_min_iff.mpr hport⟩

example : Create (chars "http://me@h:8080/a/b?x=1") =
    some ⟨chars "http", chars "me", chars "h", chars "/a/b", chars "x=1", [], 8080⟩ := by
  rfl

/-- `http://h/?a=1#top` -/
def withFragment : Components where
  scheme := chars "http"
  userinfo := none
  host := chars "h"
  port := none
  path := chars "/"
  query := some (chars "a=1")
  fragment := some (chars "top")
  scheme_legal := by decide
  userinfo_legal := by decide
  host_legal := by decide
  port_legal := by decide
  path_legal := by decide
  query_legal := by decide
  fragment_legal := by decide

/-- `save_fragment` calls `setQuery`. -/
theorem withFragment_lost : withFragment.text = chars "http://h/?a=1#top" ∧
    Create withFragment.text = some { withFragment.uri with
      m_query := chars "top"
      m_fragment := [] } ∧
    Create withFragment.text ≠ some withFragment.uri := by
  decide

end Components

end CIM.Uri
