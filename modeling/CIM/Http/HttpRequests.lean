import CIM.Http.HttpParser

/-!
# Requests in a row

The offsets a callback uses are those of the read that delivers the byte at which it is called. A
request is read as from one buffer where every token was begun in the read that ends it. The buffer
of a call is gone when the call returns, and with it every byte that a read took beyond the request.
-/
namespace CIM.http

open Scanner HttpRequestParser

namespace Known

/-- What is known after an action; nothing where it reports a token that a read boundary cuts. -/
def act (k : Known) : Action → Option Known
  | .mark => some { k with mark := true }
  | .start_value => some { k with mark := true }
  | .start_field => some { k with field_start := true, field_len := false }
  | .write_field => if k.field_start then some { k with field_len := true } else Option.none
  | .write_value => if k.field_start && k.field_len && k.mark then some k else Option.none
  | .request_method => if k.mark then some k else Option.none
  | .fragment => if k.mark then some k else Option.none
  | .start_query => some { k with query_start := true }
  | .query_string => if k.query_start then some k else Option.none
  | .http_version => if k.mark then some k else Option.none
  | .request_path => if k.mark then some k else Option.none
  | _ => some k

theorem act_mono : Monotone act Le := by
  intro k k₁ k' a hle h
  obtain ⟨hm, hf, hl, hq⟩ := hle
  cases a <;> grind [Known.act, Known.Le]

end Known

/-- Two parsers, the first one in a buffer in which that of the second one begins at `off`. -/
structure Agree (off p : Nat) (k : Known) (s t : HttpRequestParser) : Prop where
  m_error : s.m_error = t.m_error
  m_data : s.m_data = t.m_data
  mark : k.mark = true → s.mark = off + t.mark ∧ t.mark ≤ p
  field_start : k.field_start = true → s.field_start = off + t.field_start ∧ t.field_start ≤ p
  field_len : k.field_start = true → k.field_len = true →
    s.field_len = t.field_len ∧ t.field_start + t.field_len ≤ p
  query_start : k.query_start = true → s.query_start = off + t.query_start ∧ t.query_start ≤ p

variable {off p n : Nat} {k k' : Known} {s t s' t' : HttpRequestParser}
  {pre buf post bs rest : Bytes}

namespace Agree

/-- The token from the mark on is the same. -/
theorem token (h : Agree off p k s t) (hk : k.mark = true) (hoff : pre.length = off)
    (hp : p ≤ buf.length) :
    slice (pre ++ buf ++ post) s.mark (off + p - s.mark) = slice buf t.mark (p - t.mark) := by
  obtain ⟨hmark, hle⟩ := h.mark hk
  exact slice_since hoff hmark hle hp

theorem data (h : Agree off p k s t) (f : HttpRequest → HttpRequest) :
    Agree off p k { s with m_data := f s.m_data } { t with m_data := f t.m_data } :=
  { h with m_data := congrArg f h.m_data }

/-- An action that reports no cut token does the same in both buffers. -/
theorem act {a : Action} (h : Agree off p k s t) (hk : k.act a = some k')
    (hoff : pre.length = off) (hp : p < buf.length) :
    ∃ s' t', HttpRequestParser.act (pre ++ buf ++ post) (off + p) s a = some s' ∧
      HttpRequestParser.act buf p t a = some t' ∧ Agree off p k' s' t' := by
  have htoken : k.mark = true →
      slice (pre ++ buf ++ post) s.mark (off + p - s.mark) = slice buf t.mark (p - t.mark) :=
    fun hm => h.token hm hoff (Nat.le_of_lt hp)
  cases a with
  | mark =>
      obtain rfl := Option.some.inj hk
      exact ⟨_, _, rfl, rfl, { h with mark := fun _ => ⟨rfl, Nat.le_refl p⟩ }⟩
  | start_value =>
      obtain rfl := Option.some.inj hk
      exact ⟨_, _, rfl, rfl, { h with mark := fun _ => ⟨rfl, Nat.le_refl p⟩ }⟩
  | start_field =>
      obtain rfl := Option.some.inj hk
      exact ⟨_, _, rfl, rfl, { h with
        field_start := fun _ => ⟨rfl, Nat.le_refl p⟩
        field_len := nofun }⟩
  | write_field =>
      obtain ⟨hf, hk⟩ := Option.ite_none_right_eq_some.mp hk
      obtain rfl := Option.some.inj hk
      obtain ⟨hs, hle⟩ := h.field_start hf
      exact ⟨_, _, rfl, rfl, { h with field_len := fun _ _ => length_since hs hle }⟩
  | write_value =>
      obtain ⟨hf, hk⟩ := Option.ite_none_right_eq_some.mp hk
      obtain rfl := Option.some.inj hk
      simp only [Bool.and_eq_true] at hf
      obtain ⟨⟨hf, hl⟩, hm⟩ := hf
      obtain ⟨hs, -⟩ := h.field_start hf
      obtain ⟨hsl, hle⟩ := h.field_len hf hl
      have hfield : slice (pre ++ buf ++ post) s.field_start s.field_len =
          slice buf t.field_start t.field_len := by
        rw [hs, hsl]
        exact slice_middle hoff (by omega)
      refine ⟨_, _, rfl, rfl, ?_⟩
      rw [hfield, htoken hm]
      unfold on_request_http_field
      split
      · exact h
      · exact h.data fun d => d.setHeader (slice buf t.field_start t.field_len)
          (slice buf t.mark (p - t.mark))
  | request_method =>
      obtain ⟨hm, hk⟩ := Option.ite_none_right_eq_some.mp hk
      obtain rfl := Option.some.inj hk
      obtain ⟨hmark, hmle⟩ := h.mark hm
      have hmethod : slice (pre ++ buf ++ post) s.mark (off + p + 1 - s.mark) =
          slice buf t.mark (p + 1 - t.mark) :=
        slice_since hoff hmark (Nat.le_succ_of_le hmle) hp
      refine ⟨_, _, rfl, rfl, ?_⟩
      rw [hmethod]
      unfold on_request_method
      split
      · exact { h with m_error := rfl }
      · rename_i method _
        exact h.data fun d => { d with m_method := method }
  | fragment =>
      obtain ⟨hm, hk⟩ := Option.ite_none_right_eq_some.mp hk
      obtain rfl := Option.some.inj hk
      refine ⟨_, _, rfl, rfl, ?_⟩
      rw [htoken hm]
      exact h.data fun d => { d with m_fragment := slice buf t.mark (p - t.mark) }
  | start_query =>
      obtain rfl := Option.some.inj hk
      exact ⟨_, _, rfl, rfl, { h with query_start := fun _ => ⟨rfl, Nat.le_refl p⟩ }⟩
  | query_string =>
      obtain ⟨hq, hk⟩ := Option.ite_none_right_eq_some.mp hk
      obtain rfl := Option.some.inj hk
      obtain ⟨hs, hle⟩ := h.query_start hq
      have hquery : slice (pre ++ buf ++ post) s.query_start (off + p - s.query_start) =
          slice buf t.query_start (p - t.query_start) :=
        slice_since hoff hs hle (Nat.le_of_lt hp)
      refine ⟨_, _, if_neg (by omega), if_neg (by omega), ?_⟩
      rw [hquery]
      exact h.data fun d => { d with m_query := slice buf t.query_start (p - t.query_start) }
  | http_version =>
      obtain ⟨hm, hk⟩ := Option.ite_none_right_eq_some.mp hk
      obtain rfl := Option.some.inj hk
      refine ⟨_, _, rfl, rfl, ?_⟩
      rw [htoken hm]
      unfold on_request_version
      split
      · exact { h with m_error := rfl }
      · rename_i v _
        exact h.data fun d => { d with m_version := v }
  | request_path =>
      obtain ⟨hm, hk⟩ := Option.ite_none_right_eq_some.mp hk
      obtain rfl := Option.some.inj hk
      refine ⟨_, _, rfl, rfl, ?_⟩
      rw [htoken hm]
      exact h.data fun d => { d with m_path := slice buf t.mark (p - t.mark) }
  | request_uri | done | xml | json =>
      obtain rfl := Option.some.inj hk
      exact ⟨_, _, rfl, rfl, h⟩

theorem le {q : Nat} (h : Agree off p k s t) (hq : p ≤ q) : Agree off q k s t where
  m_error := h.m_error
  m_data := h.m_data
  mark hk := ⟨(h.mark hk).1, Nat.le_trans (h.mark hk).2 hq⟩
  field_start hk := ⟨(h.field_start hk).1, Nat.le_trans (h.field_start hk).2 hq⟩
  field_len hf hl := ⟨(h.field_len hf hl).1, Nat.le_trans (h.field_len hf hl).2 hq⟩
  query_start hk := ⟨(h.query_start hk).1, Nat.le_trans (h.query_start hk).2 hq⟩

theorem simulation : Simulation HttpRequestParser.act Known.act Agree := ⟨act, le⟩

end Agree

/-- What every action leaves: the body that is not there yet, and an error that is. -/
structure Keeps (s s' : HttpRequestParser) : Prop where
  m_body : s'.m_data.m_body = s.m_data.m_body
  m_error : s.m_error ≠ 0 → s'.m_error ≠ 0

theorem Keeps.refl (s : HttpRequestParser) : Keeps s s := ⟨rfl, id⟩

theorem Keeps.trans {u : HttpRequestParser} (h : Keeps s t) (h' : Keeps t u) : Keeps s u :=
  ⟨h'.m_body.trans h.m_body, h'.m_error ∘ h.m_error⟩

theorem act_keeps {a : Action} (h : HttpRequestParser.act buf p s a = some s') : Keeps s s' := by
  cases a with
  | query_string =>
      simp only [HttpRequestParser.act] at h
      split at h
      · cases h
      · rw [← Option.some.inj h]
        exact ⟨rfl, id⟩
  | write_value =>
      rw [← Option.some.inj h]
      unfold on_request_http_field
      split
      · exact .refl s
      · exact ⟨rfl, id⟩
  | request_method =>
      rw [← Option.some.inj h]
      unfold on_request_method
      split
      · exact ⟨rfl, fun _ => Nat.succ_ne_zero _⟩
      · exact ⟨rfl, id⟩
  | http_version =>
      rw [← Option.some.inj h]
      unfold on_request_version
      split
      · exact ⟨rfl, fun _ => Nat.succ_ne_zero _⟩
      · exact ⟨rfl, id⟩
  | _ =>
      rw [← Option.some.inj h]
      exact ⟨rfl, id⟩

/-- What a parser has stored. -/
def stored (s : HttpRequestParser) : Nat × HttpRequest := (s.m_error, s.m_data)

theorem Agree.start (h : stored s = stored t) (m : Machine Action .done) :
    Agree off 0 .none s ((requestParser m).reset t) where
  m_error := congrArg Prod.fst h
  m_data := congrArg Prod.snd h
  mark := nofun
  field_start := nofun
  field_len := nofun
  query_start := nofun

theorem request_tokens (m : Machine Action .done) :
    Tokens (requestParser m) Known.act .none stored Agree where
  simulation := Agree.simulation
  start h := .start h m
  same h := Prod.ext h.m_error h.m_data
  reset := rfl
  failed h := congrArg (fun r : Nat × HttpRequest => decide (r.1 ≠ 0)) h
  keeps h hs := decide_eq_true ((act_keeps h).m_error (of_decide_eq_true hs))

structure Request where
  head : Bytes
  body : Bytes
  value : HttpRequest

/-- The parser takes the head from one buffer and finds the length of the body in it; `value` is
what it then is. -/
def Request.WellFormed (m : Bool → Machine Action .done) (lexical_cast : Bytes → Option UInt64)
    (r : Request) : Prop :=
  ∀ memory : Memory, ∃ cs s,
    (requestParser (m memory.uri_relaxed)).execute (m memory.uri_relaxed).start
        (.create memory.query_start) r.head = some (cs, s, r.head.length, true) ∧
      (requestParser (m memory.uri_relaxed)).hasError cs s = false ∧
      (requestParser (m memory.uri_relaxed)).isFinished cs = true ∧
      (s.getContentLength lexical_cast).toNat = r.body.length ∧
      r.value = { s.m_data with m_body := r.body }

def wire (rs : List Request) : Bytes := rs.flatMap fun r => r.head ++ r.body

/-- The reads of the head of `r` when `conn` has yet to deliver it. -/
def Separate (m : Bool → Machine Action .done) (buff_size : Nat) (r : Request) (memory : Memory)
    (conn : Stream) : Prop :=
  r.body.length < 2 ^ 31 ∧ ReadsHead (m memory.uri_relaxed) Known.act .none buff_size
    (fun data _ => data.length ≤ r.body.length) (conn.input.length + 1)
    (m memory.uri_relaxed).start conn

instance decidableSeparate (m : Bool → Machine Action .done) (buff_size : Nat) (r : Request)
    (memory : Memory) (conn : Stream) : Decidable (Separate m buff_size r memory conn) :=
  inferInstanceAs (Decidable (_ ∧ ReadsHead _ _ _ _ (fun data _ => data.length ≤ r.body.length)
    _ _ _))

variable {mr : Bool → Machine Action .done} {lexical_cast : Bytes → Option UInt64}
  {buff_size : Nat}

/-- One call takes the request from the connection and nothing behind it. -/
theorem recvRequest_reads {r : Request} {memory : Memory} {conn : Stream} {tail : Bytes}
    (hbuff : 0 < buff_size) (hint : buff_size < 2 ^ 31) (hr : r.WellFormed mr lexical_cast)
    (hfeeds : Stream.Feeds conn (r.head ++ r.body ++ tail))
    (hreads : Separate mr buff_size r memory conn) :
    ∃ conn', recvRequest mr lexical_cast buff_size memory conn = (.value (some r.value), conn') ∧
      Stream.Feeds conn' tail := by
  obtain ⟨cs, sf, hexec, hok, hfinished, hlength, hvalue⟩ := hr memory
  obtain ⟨hbody, hreads⟩ := hreads
  have hhead : r.head ≠ [] := by
    intro hnil
    rw [hnil] at hexec
    cases hexec
  have hempty : sf.m_data.m_body = [] :=
    (exec_keeps Keeps.refl Keeps.trans act_keeps hexec).m_body
  rw [List.append_assoc] at hfeeds
  have hturns : r.head.length ≤ conn.input.length + 1 := by
    rw [hfeeds.input, List.length_append]
    omega
  obtain ⟨tf, data, tail', conn₁, hrecv, hview, hle, -, happ, hfeeds₁⟩ :=
    (request_tokens (mr memory.uri_relaxed)).recvHead (s := create memory.query_start)
      (t := create memory.query_start) [] hbuff hint hfeeds hturns hhead hreads rfl hexec hok
      hfinished
  have hdata : tf.m_data = sf.m_data := congrArg Prod.snd hview
  obtain ⟨body', hbody'⟩ : data <+: r.body :=
    List.prefix_of_prefix_length_le ⟨_, happ.symm⟩ ⟨tail, rfl⟩ hle
  rw [← hbody', List.append_assoc] at happ
  rw [← List.append_cancel_left happ] at hfeeds₁
  have hlong : int64 (getContentLength lexical_cast tf).toNat = r.body.length := by
    rw [getContentLength, hdata, ← getContentLength, hlength]
    unfold int64 uint64
    omega
  rw [hvalue, recvRequest]
  dsimp only
  rw [hrecv]
  dsimp only
  rw [hlong]
  by_cases hpos : 0 < r.body.length
  · obtain ⟨conn', hbodies, hfeeds'⟩ :=
      recvBody_feeds (by rw [hbody']; exact hbody : (data ++ body').length < 2 ^ 31) hfeeds₁
    rw [hbody'] at hbodies
    refine ⟨conn', ?_, hfeeds'⟩
    rw [if_pos (by omega), hbodies, hdata]
  · have hnil : r.body = [] := List.eq_nil_of_length_eq_zero (Nat.eq_zero_of_not_pos hpos)
    obtain ⟨rfl, rfl⟩ := List.append_eq_nil_iff.mp (hbody'.trans hnil)
    refine ⟨conn₁, ?_, hfeeds₁⟩
    rw [if_neg (by omega), hdata, hnil, ← hempty]

/-- A request is the same over any reads that cut no token. -/
theorem recvRequest_segmentation {r : Request} {memory : Memory} {conn : Stream}
    (hhead : r.head.length < buff_size) (hint : buff_size ≤ Stream.maxTransfer)
    (hr : r.WellFormed mr lexical_cast) (hfeeds : Stream.Feeds conn (r.head ++ r.body))
    (hreads : Separate mr buff_size r memory conn) :
    (recvRequest mr lexical_cast buff_size memory conn).1 =
      (recvRequest mr lexical_cast buff_size memory (Stream.fresh (r.head ++ r.body))).1 := by
  have hbuff : 0 < buff_size := Nat.zero_lt_of_lt hhead
  have hint' : buff_size < 2 ^ 31 := Nat.lt_of_le_of_lt hint (by decide)
  obtain ⟨cs, sf, hexec, -⟩ := hr memory
  obtain ⟨-, hall, hstop⟩ := exec_after hexec
  have hfresh : Separate mr buff_size r memory (Stream.fresh (r.head ++ r.body)) := by
    obtain ⟨hbody, hreads⟩ := hreads
    rw [hfeeds.input] at hreads
    refine ⟨hbody, fresh_readsHead Known.act_mono Known.none_le hbuff (Nat.le_of_lt hhead) hint
      hfeeds ?_ hreads ((Nat.zero_add _).symm.trans hall.symm) hstop.symm⟩
    change r.head.length ≤ (r.head ++ r.body).length + 1
    rw [List.length_append]
    omega
  have hwhole : Stream.Feeds (Stream.fresh (r.head ++ r.body)) (r.head ++ r.body ++ []) := by
    rw [List.append_nil]
    exact Stream.fresh_feeds _
  rw [← List.append_nil (r.head ++ r.body)] at hfeeds
  obtain ⟨conn₁, h₁, -⟩ := recvRequest_reads hbuff hint' hr hfeeds hreads
  obtain ⟨conn₂, h₂, -⟩ := recvRequest_reads hbuff hint' hr hwhole hfresh
  rw [h₁, h₂]

/-- Successive calls on a connection. -/
def recvRequests (m : Bool → Machine Action .done) (lexical_cast : Bytes → Option UInt64)
    (buff_size : Nat) : List Memory → Stream → List (Outcome HttpRequest) × Stream
  | [], conn => ([], conn)
  | memory :: memories, conn =>
      let (r, conn) := recvRequest m lexical_cast buff_size memory conn
      let (rs, conn) := recvRequests m lexical_cast buff_size memories conn
      (r :: rs, conn)

/-- The reads of every call are those of its own request. -/
def AllSeparate (m : Bool → Machine Action .done) (lexical_cast : Bytes → Option UInt64)
    (buff_size : Nat) : List Request → List Memory → Stream → Prop
  | r :: rs, memory :: memories, conn =>
      Separate m buff_size r memory conn ∧ AllSeparate m lexical_cast buff_size rs memories
        (recvRequest m lexical_cast buff_size memory conn).2
  | _, _, _ => True

instance decidableAllSeparate (m : Bool → Machine Action .done)
    (lexical_cast : Bytes → Option UInt64) (buff_size : Nat) : ∀ rs memories conn,
      Decidable (AllSeparate m lexical_cast buff_size rs memories conn)
  | r :: rs, memory :: memories, conn =>
      have := decidableAllSeparate m lexical_cast buff_size rs memories
        (recvRequest m lexical_cast buff_size memory conn).2
      inferInstanceAs (Decidable (Separate m buff_size r memory conn ∧
        AllSeparate m lexical_cast buff_size rs memories
          (recvRequest m lexical_cast buff_size memory conn).2))
  | [], _, _ => .isTrue trivial
  | _ :: _, [], _ => .isTrue trivial

/-- Calls on a connection return the requests on it in order and leave those behind them. -/
theorem recvRequests_in_order {rs : List Request} {memories : List Memory} {conn : Stream}
    (hbuff : 0 < buff_size) (hint : buff_size < 2 ^ 31)
    (hrs : ∀ r ∈ rs, r.WellFormed mr lexical_cast) (hfeeds : Stream.Feeds conn (wire rs))
    (hcalls : memories.length ≤ rs.length)
    (hreads : AllSeparate mr lexical_cast buff_size rs memories conn) :
    ∃ conn', recvRequests mr lexical_cast buff_size memories conn =
        ((rs.take memories.length).map fun r => .value (some r.value), conn') ∧
      Stream.Feeds conn' (wire (rs.drop memories.length)) := by
  induction memories generalizing rs conn with
  | nil => exact ⟨conn, rfl, hfeeds⟩
  | cons memory memories ih =>
      cases rs with
      | nil => cases hcalls
      | cons r rs =>
          obtain ⟨hseparate, hreads⟩ := hreads
          obtain ⟨conn₁, hrecv, hfeeds₁⟩ :=
            recvRequest_reads hbuff hint (hrs r List.mem_cons_self) hfeeds hseparate
          rw [hrecv] at hreads
          obtain ⟨conn', hrec, hfeeds'⟩ :=
            ih (fun r hr => hrs r (List.mem_cons_of_mem _ hr)) hfeeds₁
              (Nat.le_of_succ_le_succ hcalls) hreads
          refine ⟨conn', ?_, hfeeds'⟩
          rw [recvRequests, hrecv]
          dsimp only
          rw [hrec, List.length_cons, List.take_succ_cons, List.map_cons]

/-! ### Two requests -/

/-- Some transitions of the generated machine: the state, the bytes, the actions and the next
state. -/
def sampleTransitions : List (Nat × String × List Action × Nat) :=
  [(1, "GP", [.mark], 2), (2, "EO", [], 175), (175, "TS", [], 176), (176, "T", [], 177),
    (176, " ", [.request_method], 3), (177, " ", [.request_method], 3), (3, "/", [.mark], 33),
    (33, "a", [], 26), (33, " ", [.request_path, .request_uri], 4),
    (26, " ", [.request_path, .request_uri], 4), (4, "H", [.mark], 5), (5, "T", [], 6),
    (6, "T", [], 7), (7, "P", [], 8), (8, "/", [], 9), (9, "1", [], 10), (10, ".", [], 11),
    (11, "1", [], 12), (12, "\r", [.http_version], 17), (17, "\n", [], 13),
    (13, "c", [.start_field], 14), (14, "content-length", [], 14), (14, ":", [.write_field], 15),
    (15, " ", [.start_value], 15), (15, "2", [.start_value], 16), (16, "\r", [.write_value], 17),
    (13, "\r", [.start_field], 18), (18, "\n", [.done], 348)]

def sampleMachine : Machine Action .done where
  start := 1
  error := 0
  first_final := 348
  step cs b :=
    ((sampleTransitions.find? fun e => e.1 == cs && (chars e.2.1).contains b).map
      fun e => e.2.2).getD ([], 0)
  final cs b h := by
    revert h
    cases hfind : sampleTransitions.find? fun e => e.1 == cs && (chars e.2.1).contains b with
    | none => exact fun _ => .inr rfl
    | some e =>
        have hall : ∀ e ∈ sampleTransitions, 348 ≤ e.2.2.2 → .done ∈ e.2.2.1 := by decide
        exact fun h => .inl (hall e (List.mem_of_find?_eq_some hfind) h)

def decimal (value : Bytes) : Option UInt64 :=
  if value ≠ [] ∧ value.all (fun c => 48 ≤ c && c ≤ 57) then
    some (value.foldl (fun n c => 10 * n + (c - 48).toUInt64) 0)
  else none

def sampleGet : Request where
  head := chars "GET / HTTP/1.1\r\n\r\n"
  body := []
  value := { HttpRequest.new with m_method := .GET }

def samplePost : Request where
  head := chars "POST /a HTTP/1.1\r\ncontent-length: 2\r\n\r\n"
  body := chars "hi"
  value := { HttpRequest.new with
    m_method := .POST, m_path := chars "/a", m_headers := [(chars "content-length", chars "2")],
    m_body := chars "hi" }

/-- It is enough to parse the head with one content of the memory. -/
theorem wellFormed_of_uncut {m : Machine Action .done} {r : Request} (cs : Nat)
    (s : HttpRequestParser) (hu : Uncut m Known.act m.start .none r.head)
    (hexec : (requestParser m).execute m.start (.create 0) r.head =
      some (cs, s, r.head.length, true))
    (hok : (requestParser m).hasError cs s = false)
    (hfinished : (requestParser m).isFinished cs = true)
    (hlength : (s.getContentLength lexical_cast).toNat = r.body.length)
    (hvalue : r.value = { s.m_data with m_body := r.body }) :
    r.WellFormed (fun _ => m) lexical_cast := by
  intro memory
  have hagree : Agree 0 0 .none (.create memory.query_start) (.create 0) :=
    .start (s := .create memory.query_start) (t := .create 0) rfl m
  obtain ⟨s', t', k', hs, ht, h'⟩ :=
    Agree.simulation.exec [] [] hagree hu rfl (Nat.zero_add r.head.length)
  obtain ⟨hcs, hend⟩ := Prod.mk.inj (Option.some.inj (ht.symm.trans hexec))
  obtain ⟨rfl, hlast⟩ := Prod.mk.inj hend
  rw [List.append_nil] at hs
  simp only [Nat.zero_add] at hs hlast
  rw [hcs, hlast] at hs
  refine ⟨cs, s', hs, ?_, hfinished, ?_, ?_⟩
  · rw [Parser.hasError, (request_tokens m).failed (Prod.ext h'.m_error h'.m_data)]
    exact hok
  · rw [getContentLength, h'.m_data]
    exact hlength
  · rw [h'.m_data]
    exact hvalue

theorem sampleGet_wellFormed : sampleGet.WellFormed (fun _ => sampleMachine) decimal :=
  wellFormed_of_uncut 348 ⟨6, 16, 0, 0, 0, sampleGet.value⟩ (by decide)
    (by decide) (by decide) (by decide) (by decide) rfl

theorem samplePost_wellFormed : samplePost.WellFormed (fun _ => sampleMachine) decimal :=
  wellFormed_of_uncut 348 ⟨34, 37, 14, 0, 0, { samplePost.value with m_body := [] }⟩
    (by decide +kernel) (by decide) (by decide) (by decide)
    (by decide) rfl

/-- Both requests, over reads that end with a line and within the body. -/
theorem recvRequests_in_order_two_requests :
    let conn : Stream :=
      { Stream.fresh (wire [samplePost, sampleGet]) with recvs := [some 17, some 21] }
    let memories : List Memory := [⟨7, true⟩, ⟨0, false⟩]
    AllSeparate (fun _ => sampleMachine) decimal 4096 [samplePost, sampleGet] memories conn ∧
      ∃ conn', recvRequests (fun _ => sampleMachine) decimal 4096 memories conn =
          ([.value (some samplePost.value), .value (some sampleGet.value)], conn') ∧
        Stream.Feeds conn' [] := by
  intro conn memories
  have hreads : AllSeparate (fun _ => sampleMachine) decimal 4096 [samplePost, sampleGet] memories
      conn := by
    decide
  have hrs : ∀ r ∈ [samplePost, sampleGet], r.WellFormed (fun _ => sampleMachine) decimal := by
    intro r hr
    rw [List.mem_pair] at hr
    rcases hr with rfl | rfl
    · exact samplePost_wellFormed
    · exact sampleGet_wellFormed
  exact ⟨hreads, recvRequests_in_order (by decide) (by decide) hrs
    ⟨⟨rfl, by decide, by decide⟩, rfl⟩ (Nat.le_refl 2) hreads⟩

/-- One read brings both requests: the second one is lost, and its call waits for bytes until the
connection is closed. -/
theorem pipelined_request_lost :
    samplePost.WellFormed (fun _ => sampleMachine) decimal ∧
      sampleGet.WellFormed (fun _ => sampleMachine) decimal ∧
      recvRequests (fun _ => sampleMachine) decimal 4096 [⟨0, false⟩, ⟨0, false⟩]
          (Stream.fresh (wire [samplePost, sampleGet])) =
        ([.value (some samplePost.value), .value none], (Stream.fresh []).close) :=
  ⟨samplePost_wellFormed, sampleGet_wellFormed, by decide⟩

/-- Three reads, each of the first two behind a line, and one for all. -/
theorem recvRequest_segmentation_three_reads :
    let conn : Stream :=
      { Stream.fresh (samplePost.head ++ samplePost.body) with recvs := [some 17, some 18] }
    ¬ conn.read 4096 = (Stream.fresh (samplePost.head ++ samplePost.body)).read 4096 ∧
      (recvRequest (fun _ => sampleMachine) decimal 4096 ⟨0, false⟩ conn).1 =
        (recvRequest (fun _ => sampleMachine) decimal 4096 ⟨0, false⟩
          (Stream.fresh (samplePost.head ++ samplePost.body))).1 :=
  ⟨by decide, recvRequest_segmentation (by decide) (by decide)
    samplePost_wellFormed ⟨⟨rfl, by decide, by decide⟩, rfl⟩ (by decide)⟩

/-- A read that ends behind the first byte of the method: the method is looked up from the start
of the next read on. -/
theorem method_cut_by_read :
    let conn : Stream := { Stream.fresh (sampleGet.head ++ sampleGet.body) with recvs := [some 0] }
    sampleGet.WellFormed (fun _ => sampleMachine) decimal ∧
      Stream.Feeds conn (sampleGet.head ++ sampleGet.body) ∧
      (recvRequest (fun _ => sampleMachine) decimal 4096 ⟨0, false⟩ conn).1 = .value none ∧
      (recvRequest (fun _ => sampleMachine) decimal 4096 ⟨0, false⟩
        (Stream.fresh (sampleGet.head ++ sampleGet.body))).1 = .value (some sampleGet.value) :=
  ⟨sampleGet_wellFormed, ⟨⟨rfl, by decide, by decide⟩, rfl⟩, by decide, by decide⟩

end CIM.http
