import CIM.Http.HttpConnection

/-!
# Chunked responses

The bytes of a size line that a call of `execute` has taken are lost when the next call starts the
parser anew: a size line has to come in one buffer.
-/
namespace CIM.http

open Scanner

namespace client

/-- What is known after an action; nothing where it reports a token that a read boundary cuts. -/
def know (k : Known) : Action → Option Known
  | .mark => some { k with mark := true }
  | .start_value => some { k with mark := true }
  | .start_field => some { k with field_start := true, field_len := false }
  | .write_field => if k.field_start then some { k with field_len := true } else none
  | .write_value => if k.field_start && k.field_len && k.mark then some k else none
  | .write_content_len => if k.mark then some k else none
  | .reason_phrase => if k.mark then some k else none
  | .status_code => if k.mark then some k else none
  | .http_version => if k.mark then some k else none
  | .chunk_size => if k.mark then some k else none
  | _ => some k

/-- Two parsers, the first one in a buffer in which that of the second one begins at `off`. -/
structure Agree (off p : Nat) (k : Known) (s t : HttpResponseParser) : Prop where
  m_error : s.m_error = t.m_error
  m_data : s.m_data = t.m_data
  content_len : s.content_len = t.content_len
  chunked : s.chunked = t.chunked
  chunks_done : s.chunks_done = t.chunks_done
  mark : k.mark = true → s.mark = off + t.mark ∧ t.mark ≤ p
  field_start : k.field_start = true → s.field_start = off + t.field_start ∧ t.field_start ≤ p
  field_len : k.field_start = true → k.field_len = true →
    s.field_len = t.field_len ∧ t.field_start + t.field_len ≤ p

variable {off p n : Nat} {k k' : Known} {s t s' t' : HttpResponseParser}
  {pre buf post bs rest : Bytes}

namespace Agree

/-- The token from the mark on is the same. -/
theorem token (h : Agree off p k s t) (hk : k.mark = true) (hoff : pre.length = off)
    (hp : p ≤ buf.length) :
    slice (pre ++ buf ++ post) s.mark (off + p - s.mark) = slice buf t.mark (p - t.mark) := by
  obtain ⟨hmark, hle⟩ := h.mark hk
  exact slice_since hoff hmark hle hp

theorem data (h : Agree off p k s t) (f : HttpResponse → HttpResponse) :
    Agree off p k { s with m_data := f s.m_data } { t with m_data := f t.m_data } :=
  { h with m_data := congrArg f h.m_data }

/-- An action that reports no cut token does the same in both buffers. -/
theorem act {a : Action} (h : Agree off p k s t) (hk : know k a = some k')
    (hoff : pre.length = off) (hp : p < buf.length) :
    ∃ s' t', HttpResponseParser.act (pre ++ buf ++ post) (off + p) s a = some s' ∧
      HttpResponseParser.act buf p t a = some t' ∧ Agree off p k' s' t' := by
  have htoken : k.mark = true →
      slice (pre ++ buf ++ post) s.mark (off + p - s.mark) = slice buf t.mark (p - t.mark) :=
    fun hm => h.token hm hoff (Nat.le_of_lt hp)
  cases a with
  | mark =>
      obtain rfl := Option.some.inj hk
      exact ⟨_, _, rfl, rfl, { h with mark := fun _ => ⟨rfl, Nat.le_refl p⟩ }⟩
  | start_value =>
      obtain rfl := Option.some.inj hk
      exact ⟨_, _, rfl, rfl, { h with mark := fun _ => ⟨rfl, Nat.le_refl p⟩ }⟩
  | start_field =>
      obtain rfl := Option.some.inj hk
      exact ⟨_, _, rfl, rfl, { h with
        field_start := fun _ => ⟨rfl, Nat.le_refl p⟩
        field_len := nofun }⟩
  | write_field =>
      obtain ⟨hf, hk⟩ := Option.ite_none_right_eq_some.mp hk
      obtain rfl := Option.some.inj hk
      obtain ⟨hs, hle⟩ := h.field_start hf
      exact ⟨_, _, rfl, rfl, { h with field_len := fun _ _ => length_since hs hle }⟩
  | write_value =>
      obtain ⟨hf, hk⟩ := Option.ite_none_right_eq_some.mp hk
      obtain rfl := Option.some.inj hk
      simp only [Bool.and_eq_true] at hf
      obtain ⟨⟨hf, hl⟩, hm⟩ := hf
      obtain ⟨hs, -⟩ := h.field_start hf
      obtain ⟨hsl, hle⟩ := h.field_len hf hl
      have hfield : slice (pre ++ buf ++ post) s.field_start s.field_len =
          slice buf t.field_start t.field_len := by
        rw [hs, hsl]
        exact slice_middle hoff (by omega)
      refine ⟨_, _, rfl, rfl, ?_⟩
      rw [hfield, htoken hm]
      unfold HttpResponseParser.on_response_http_field
      split
      · exact h
      · exact h.data fun d =>
          { d with
            m_headers := d.m_headers.set (slice buf t.field_start t.field_len)
              (slice buf t.mark (p - t.mark)) }
  | write_content_len =>
      obtain ⟨hm, hk⟩ := Option.ite_none_right_eq_some.mp hk
      obtain rfl := Option.some.inj hk
      refine ⟨_, _, rfl, rfl, ?_⟩
      rw [htoken hm]
      exact { h with content_len := rfl }
  | reason_phrase =>
      obtain ⟨hm, hk⟩ := Option.ite_none_right_eq_some.mp hk
      obtain rfl := Option.some.inj hk
      refine ⟨_, _, rfl, rfl, ?_⟩
      rw [htoken hm]
      exact h.data fun d => { d with m_reason := slice buf t.mark (p - t.mark) }
  | status_code =>
      obtain ⟨hm, hk⟩ := Option.ite_none_right_eq_some.mp hk
      obtain rfl := Option.some.inj hk
      refine ⟨_, _, rfl, rfl, ?_⟩
      rw [htoken hm]
      exact h.data fun d => { d with
        m_status := int32 (strtol 10 (slice buf t.mark (p - t.mark))) }
  | http_version =>
      obtain ⟨hm, hk⟩ := Option.ite_none_right_eq_some.mp hk
      obtain rfl := Option.some.inj hk
      refine ⟨_, _, rfl, rfl, ?_⟩
      rw [htoken hm]
      unfold HttpResponseParser.on_response_version
      split
      · exact { h with m_error := rfl }
      · rename_i v _
        exact h.data fun d => { d with m_version := v }
  | chunk_size =>
      obtain ⟨hm, hk⟩ := Option.ite_none_right_eq_some.mp hk
      obtain rfl := Option.some.inj hk
      refine ⟨_, _, rfl, rfl, ?_⟩
      rw [htoken hm]
      exact { h with content_len := rfl, chunked := rfl, chunks_done := rfl }
  | trans_chunked =>
      obtain rfl := Option.some.inj hk
      exact ⟨_, _, rfl, rfl, { h with chunked := rfl }⟩
  | write_connection_close =>
      obtain rfl := Option.some.inj hk
      exact ⟨_, _, rfl, rfl, h⟩
  | done =>
      obtain rfl := Option.some.inj hk
      exact ⟨_, _, rfl, rfl, h⟩

theorem le {q : Nat} (h : Agree off p k s t) (hq : p ≤ q) : Agree off q k s t :=
  { h with
    mark := fun hk => ⟨(h.mark hk).1, Nat.le_trans (h.mark hk).2 hq⟩
    field_start := fun hk => ⟨(h.field_start hk).1, Nat.le_trans (h.field_start hk).2 hq⟩
    field_len := fun hf hl => ⟨(h.field_len hf hl).1, Nat.le_trans (h.field_len hf hl).2 hq⟩ }

theorem simulation : Simulation HttpResponseParser.act know Agree := ⟨act, le⟩

end Agree

/-- What every action leaves: the body that is not there yet, and an error that is. -/
structure Keeps (s s' : HttpResponseParser) : Prop where
  m_body : s'.m_data.m_body = s.m_data.m_body
  m_error : s.m_error ≠ 0 → s'.m_error ≠ 0

theorem Keeps.refl (s : HttpResponseParser) : Keeps s s := ⟨rfl, id⟩

theorem Keeps.trans {u : HttpResponseParser} (h : Keeps s t) (h' : Keeps t u) : Keeps s u :=
  ⟨h'.m_body.trans h.m_body, h'.m_error ∘ h.m_error⟩

theorem act_keeps {a : Action} (h : HttpResponseParser.act buf p s a = some s') : Keeps s s' := by
  cases a with
  | write_value =>
      rw [← Option.some.inj h]
      unfold HttpResponseParser.on_response_http_field
      split
      · exact .refl s
      · exact ⟨rfl, id⟩
  | http_version =>
      rw [← Option.some.inj h]
      unfold HttpResponseParser.on_response_version
      split
      · exact ⟨rfl, fun _ => Nat.succ_ne_zero _⟩
      · exact ⟨rfl, id⟩
  | _ =>
      rw [← Option.some.inj h]
      exact ⟨rfl, id⟩

/-- What a parser has stored. -/
def stored (s : HttpResponseParser) : (Nat × HttpResponse) × Int × Bool × Bool :=
  ((s.m_error, s.m_data), s.content_len, s.chunked, s.chunks_done)

theorem Agree.stored (h : Agree off p k s t) : stored s = stored t := by
  unfold client.stored
  rw [h.m_error, h.m_data, h.content_len, h.chunked, h.chunks_done]

theorem Agree.start (h : client.stored s = client.stored t) (m : Machine Action .done) :
    Agree off 0 .none s ((responseParser m).reset t) where
  m_error := congrArg (·.1.1) h
  m_data := congrArg (·.1.2) h
  content_len := congrArg (·.2.1) h
  chunked := congrArg (·.2.2.1) h
  chunks_done := congrArg (·.2.2.2) h
  mark := nofun
  field_start := nofun
  field_len := nofun

end client

/-! ## Chunks -/

/-- A chunk as it is sent: its size line with the line end, and its bytes. -/
structure Chunk where
  line : Bytes
  payload : Bytes

namespace Chunk

/-- The parser takes the size line from one buffer and finds the size in it and no header. The size
with the line end behind the bytes is an `int`. -/
structure WellFormed (m : Machine client.Action .done) (c : Chunk) : Prop where
  small : c.payload.length + 2 < 2 ^ 31
  uncut : Uncut m client.know m.start .none c.line
  parsed : ∀ s : HttpResponseParser, s.m_error = 0 → ∃ cs s',
    (responseParser m).execute m.start s.init c.line = some (cs, s', c.line.length, true) ∧
      cs ≠ m.error ∧ (responseParser m).isFinished cs = true ∧ s'.m_error = 0 ∧
      s'.content_len = c.payload.length ∧ s'.chunks_done = c.payload.isEmpty ∧
      s'.m_data = s.m_data

def wire (c : Chunk) : Bytes := c.line ++ (c.payload ++ [13, 10])

end Chunk

/-- The buffer from which the size line of the next chunk is taken. -/
def lineBuffer (buff_size : Nat) (data : Bytes) (conn : Stream) : Bytes × Stream :=
  if data.isEmpty then ((conn.read buff_size).2.1, (conn.read buff_size).2.2) else (data, conn)

/-- No read ends within a size line. -/
def ReadsChunks (buff_size : Nat) : List Chunk → Bytes → Stream → Prop
  | [], _, _ => True
  | c :: cs, data, conn =>
      let r := lineBuffer buff_size data conn
      let data := r.1.drop c.line.length
      c.line.length ≤ r.1.length ∧
        if c.payload.length + 2 ≤ data.length then
          ReadsChunks buff_size cs (data.drop (c.payload.length + 2)) r.2
        else
          ReadsChunks buff_size cs [] (readRest buff_size (r.2.input.length + 1)
            (c.payload.length - data.length + 2) [] r.2).2

instance decidableReadsChunks (buff_size : Nat) :
    ∀ cs data conn, Decidable (ReadsChunks buff_size cs data conn)
  | [], _, _ => .isTrue trivial
  | c :: cs, data, conn =>
      have := decidableReadsChunks buff_size cs
        (((lineBuffer buff_size data conn).1.drop c.line.length).drop (c.payload.length + 2))
        (lineBuffer buff_size data conn).2
      have := decidableReadsChunks buff_size cs [] (readRest buff_size
        ((lineBuffer buff_size data conn).2.input.length + 1)
        (c.payload.length - ((lineBuffer buff_size data conn).1.drop c.line.length).length + 2) []
        (lineBuffer buff_size data conn).2).2
      inferInstanceAs (Decidable (c.line.length ≤ (lineBuffer buff_size data conn).1.length ∧
        if c.payload.length + 2 ≤ ((lineBuffer buff_size data conn).1.drop c.line.length).length then
          ReadsChunks buff_size cs
            (((lineBuffer buff_size data conn).1.drop c.line.length).drop (c.payload.length + 2))
            (lineBuffer buff_size data conn).2
        else ReadsChunks buff_size cs [] (readRest buff_size
          ((lineBuffer buff_size data conn).2.input.length + 1)
          (c.payload.length - ((lineBuffer buff_size data conn).1.drop c.line.length).length + 2) []
          (lineBuffer buff_size data conn).2).2))

section Chunks

variable {m : Machine client.Action .done} {buff_size turns : Nat} {s : HttpResponseParser}
  {data body input rest tail : Bytes} {conn : Stream} {c : Chunk}

end Chunks

/-! ## Whole responses -/

/-- A response as it is sent: the head, the chunks, and the empty one that ends them. -/
structure ChunkedResponse where
  head : Bytes
  chunks : List Chunk
  last : Chunk

namespace ChunkedResponse

/-- The parser takes the head from one buffer, ends in its first final state, and finds that the body
is chunked and not compressed. -/
structure WellFormed (m : Machine client.Action .done) (r : ChunkedResponse) : Prop where
  head : ∃ cs s, (responseParser m).execute m.start .create r.head =
      some (cs, s, r.head.length, true) ∧
    (responseParser m).hasError cs s = false ∧ (responseParser m).isFinished cs = true ∧
    s.chunked = true ∧
    (let content_encoding := (s.m_data.m_headers.get (chars "content-encoding")).getD []
    sameKey content_encoding (chars "gzip") = false ∧
      sameKey content_encoding (chars "deflate") = false)
  chunks : ∀ c ∈ r.chunks, c.WellFormed m ∧ c.payload ≠ []
  last : r.last.WellFormed m ∧ r.last.payload = []

/-- No read ends within a token of the head or within a size line. -/
def Separate (m : Machine client.Action .done) (buff_size : Nat) (r : ChunkedResponse)
    (conn : Stream) : Prop :=
  ReadsHead m client.know .none buff_size (ReadsChunks buff_size (r.chunks ++ [r.last]))
    (conn.input.length + 1) m.start conn

end ChunkedResponse

instance decidableSeparateChunks (m : Machine client.Action .done) (buff_size : Nat)
    (r : ChunkedResponse) (conn : Stream) : Decidable (r.Separate m buff_size conn) :=
  inferInstanceAs (Decidable (ReadsHead m client.know .none buff_size
    (ReadsChunks buff_size (r.chunks ++ [r.last])) (conn.input.length + 1) m.start conn))

end CIM.http
