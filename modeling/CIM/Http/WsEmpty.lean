import CIM.Http.WsRoundTrip

/-!
# Messages without payload

A transfer of no bytes has the result of a stream that has ended. The sender closes the stream
behind a whole frame, the receiver behind the head of an empty fragment.
-/
namespace CIM.Http

open WSFrameHead Exec Transition CIM.Stream CIM.Http.Frame

variable {client : Bool} {max_size : UInt32} {s : Stream} {rest : List UInt8} {f : Frame}
  {fs : List Frame} {α β : Type}

/-! ## Sending -/

/-- On any stream the operation comes to its end or to a `break`. -/
def EndsOrBreaks (m : WSM α) : Prop :=
  ∀ s, (∃ a s', m s = .ok a s') ∨ ∃ s', m s = .error .brk s'

def Breaks (m : WSM α) : Prop := ∀ s, ∃ s', m s = .error .brk s'

theorem EndsOrBreaks.bind {m : WSM α} {k : α → WSM β} (h : EndsOrBreaks m)
    (hk : ∀ a, Breaks (k a)) : Breaks (m >>= k) := by
  intro s
  rcases h s with ⟨a, s₁, hm⟩ | ⟨s₁, hm⟩
  · obtain ⟨s₂, hb⟩ := hk a s₁
    exact ⟨s₂, (bind_ok hm).trans hb⟩
  · exact ⟨s₁, by simp only [bind_apply, hm]⟩

theorem Breaks.bind {m : WSM α} (h : Breaks m) (k : α → WSM β) : Breaks (m >>= k) := by
  intro s
  obtain ⟨s₁, hm⟩ := h s
  exact ⟨s₁, by simp only [bind_apply, hm]⟩

theorem writeFix_endsOrBreaks (buffer : List UInt8) : EndsOrBreaks (writeFix buffer) := by
  intro s
  obtain ⟨rt, s', hw⟩ : ∃ rt s', writeFixSize (ε := Halt) buffer s = .ok rt s' := ⟨_, _, rfl⟩
  by_cases hrt : rt ≤ 0
  · exact .inr ⟨s', by simp only [writeFix, bind_apply, hw, if_pos hrt, throw_apply]⟩
  · exact .inl ⟨⟨⟩, s', by simp only [writeFix, bind_apply, hw, if_neg hrt, pure_apply]⟩

theorem writeFix_nil (s : Stream) : writeFix [] s = .error .brk s := rfl

theorem applyMask_nil (mask : List UInt8) : applyMask mask [] = [] := rfl

theorem orClose_breaks {body : WSM α} (h : Breaks body) (failed : α) (s : Stream) :
    ∃ s', orClose body failed s = .ok failed s' ∧ s'.connected = false := by
  obtain ⟨s₁, hbreak⟩ := h s
  exact ⟨s₁.close, by simp only [orClose, hbreak], rfl⟩

theorem WSSendMessage_empty {msg : WSFrameMessage} (hempty : msg.data = []) (client fin : Bool)
    (mask : List UInt8) (s : Stream) :
    ∃ s', WSSendMessage msg client fin mask s = .ok (-1) s' ∧ s'.connected = false := by
  obtain ⟨opcode, data⟩ := msg
  obtain rfl : data = [] := hempty
  have hnil : Breaks (writeFix []) := fun s => ⟨s, writeFix_nil s⟩
  have hlength : EndsOrBreaks (writeLength 0) := fun s => .inl ⟨⟨⟩, s, rfl⟩
  refine orClose_breaks ?_ (-1) s
  apply (writeFix_endsOrBreaks _).bind
  intro _
  apply (writeFix_endsOrBreaks _).bind
  intro _
  apply hlength.bind
  intro _
  cases client with
  | true => exact (writeFix_endsOrBreaks mask).bind fun _ => hnil.bind _
  | false => exact hnil.bind _

/-- What is on the wire when the sender gives up is the whole frame. -/
theorem WSSendMessage_empty_put {msg : WSFrameMessage} (hempty : msg.data = [])
    (client fin : Bool) {mask : List UInt8} (hmask : mask.length = 4) (h : Healthy s) :
    ∃ s', WSSendMessage msg client fin mask s = .ok (-1) s' ∧
      s'.output = s.output ++ (sentFrame client fin mask msg).encode := by
  obtain ⟨opcode, data⟩ := msg
  obtain rfl : data = [] := hempty
  obtain ⟨s₁, hw₁, hput₁, h₁⟩ :=
    writeFix_put h (List.cons_ne_nil (finOpcode fin opcode) []) (by simp)
  obtain ⟨s₂, hw₂, hput₂, h₂⟩ :=
    writeFix_put h₁ (List.cons_ne_nil (maskLength client 0) []) (by simp)
  have hlength : writeLength 0 s₂ = .ok ⟨⟩ s₂ := rfl
  cases client with
  | true =>
      have hkey : mask ≠ [] := List.ne_nil_of_length_pos (by omega)
      obtain ⟨s₃, hw₃, hput₃, -⟩ := writeFix_put h₂ hkey (by omega)
      refine ⟨s₃.close, ?_, ?_⟩
      · simp only [WSSendMessage, orClose, bind_apply, List.length_nil, hw₁, hw₂, hlength, hw₃,
          applyMask_nil, writeFix_nil, if_true]
      · change s₃.output = _
        rw [hput₃.output, hput₂.output, hput₁.output]
        simp [sentFrame, encode, head, tail, body, lenBytes, lenIndicator, applyMask_nil]
  | false =>
      refine ⟨s₂.close, ?_, ?_⟩
      · simp only [WSSendMessage, orClose, bind_apply, List.length_nil, hw₁, hw₂, hlength,
          writeFix_nil, Bool.false_eq_true, if_false]
      · change s₂.output = _
        rw [hput₂.output, hput₁.output]
        simp [sentFrame, encode, head, tail, body, lenBytes, lenIndicator]

/-! ## Receiving -/

theorem recvPayload_empty (st : RecvState) {head : DataHead} (h : head.length = 0) (s : Stream) :
    recvPayload st head s = .error .brk s := by
  obtain ⟨fin, opcode, mask, length, mask_key⟩ := head
  obtain rfl : length = 0 := h
  cases mask <;> rfl

/-- In whatever state the loop is, an empty data frame breaks it. -/
theorem recvPass_empty (max_size : UInt32) (hf : f.WellFormed client) (hd : f.isData = true)
    (hempty : f.payload = []) (st : RecvState) (h : Feeds s (f.encode ++ rest)) :
    ∃ s', recvPass client max_size st s = .error .brk s' := by
  obtain ⟨hread, hbreak⟩ := recvHead_data max_size hf hd st h
  rcases Nat.lt_or_ge (uint64 (st.cur_len + f.payload.length)) max_size.toNat with hlt | hge
  · obtain ⟨s₁, hhead, -⟩ := hread hlt
    have hlen : f.dataHead.length = 0 := congrArg List.length hempty
    exact ⟨s₁, (bind_ok hhead).trans (recvPayload_empty st hlen s₁)⟩
  · obtain ⟨s₁, hhead⟩ := hbreak hge
    exact ⟨s₁, by simp only [recvPass, bind_apply, hhead]⟩

/-- One message in which a data frame is empty. -/
structure EmptyFragment (client : Bool) (fs : List Frame) : Prop where
  message : OneMessage client fs
  empty : ∃ f ∈ fs, f.isData = true ∧ f.payload = []

/-- The control frames among the frames are those that the loop leaves behind. -/
def Bare (fs : List Frame) : Prop :=
  ∀ f ∈ fs, f.isData = false → f.key = none ∧ f.payload = []

theorem EmptyFragment.not_readable (h : EmptyFragment client fs) (max_size : UInt32) :
    ¬AllReadable max_size fs := by
  intro hall
  obtain ⟨f, hf, hd, hempty⟩ := h.empty
  obtain ⟨pre, post, hfs⟩ := List.append_of_mem hf
  exact (hall pre f post hfs).nonempty hd hempty

theorem EmptyFragment.not_synchronised (h : EmptyFragment client fs)
    (hs : Feeds s (encodeAll fs ++ rest)) : ¬Synchronised client max_size s fs rest :=
  fun hsync => h.not_readable max_size ((synchronised_iff h.message hs).mp hsync)

theorem EmptyFragment.no_message (h : EmptyFragment client fs) (hbare : Bare fs)
    (hs : Feeds s (encodeAll fs ++ rest)) (msg : WSFrameMessage) (s' : Stream) :
    WSRecvMessage client max_size s ≠ .ok (some msg) s' := by
  intro hmsg
  have hpasses : fs.length ≤ s.input.length + 1 := by
    have h := length_le_encodeAll fs
    rw [hs.input, List.length_append]
    omega
  exact h.not_readable max_size (readable_of_message h.message.wellFormed h.message.chained hs
    hpasses ((WSRecvMessage_eq _ _).mp hmsg) fun pre f post es p hfs hd _ _ _ =>
      hbare f (hfs ▸ List.mem_append_right pre List.mem_cons_self) hd)

theorem payloads_append (pre post : List Frame) :
    payloads (pre ++ post) = payloads pre ++ payloads post := by
  rw [payloads, List.filter_append, List.flatMap_append]
  rfl

theorem length_payloads_split {pre post : List Frame} (hfs : fs = pre ++ f :: post)
    (hd : f.isData = true) : (payloads pre).length + f.payload.length ≤ (payloads fs).length := by
  have hsplit : fs = (pre ++ [f]) ++ post := by rw [hfs, List.append_assoc]; rfl
  rw [hsplit, payloads_append, payloads_snoc, if_pos hd, List.length_append, List.length_append]
  exact Nat.le_add_right _ _

/-- In a message below the limits every frame can be read but the empty ones. -/
theorem readable_of_limits (hbare : Bare fs) (hlimit : (payloads fs).length < max_size.toNat)
    (hlen : (payloads fs).length < 2147483648) {pre post : List Frame}
    (hfs : fs = pre ++ f :: post) (hne : f.isData = true → f.payload ≠ []) :
    f.Readable max_size (payloads pre).length := by
  have hle := fun hd : f.isData = true => length_payloads_split hfs hd
  refine ⟨hbare f (hfs ▸ List.mem_append_right pre List.mem_cons_self), hne, fun hd => ?_,
    fun hd => ?_, fun hd => ?_⟩
  · have hsum := hle hd
    omega
  · have hsum := hle hd
    omega
  · exact Nat.lt_of_le_of_lt (hle hd) hlimit

theorem EmptyFragment.first (h : EmptyFragment client fs) : ∃ pre f post,
    fs = pre ++ f :: post ∧ f.isData = true ∧ f.payload = [] ∧
      ∀ g ∈ pre, g.isData = true → g.payload ≠ [] := by
  obtain ⟨f₀, hf₀, hd₀, hempty₀⟩ := h.empty
  obtain ⟨f, hfind⟩ : ∃ f, fs.find? (fun f => f.isData && f.payload.isEmpty) = some f := by
    rw [← Option.isSome_iff_exists, List.find?_isSome]
    exact ⟨f₀, hf₀, by rw [hd₀, hempty₀]; rfl⟩
  obtain ⟨hf, pre, post, hfs, hfirst⟩ := List.find?_eq_some_iff_append.mp hfind
  obtain ⟨hd, hempty⟩ := Bool.and_eq_true_iff.mp hf
  refine ⟨pre, f, post, hfs, hd, List.isEmpty_iff.mp hempty, fun g hg hdata hnil => ?_⟩
  have hnot := hfirst g hg
  rw [hdata, hnil] at hnot
  cases hnot

/-- A pass that breaks closes the stream, and there is no message. -/
theorem WSRecvMessage_breaks {es : List Unit} {p : RecvState × Stream} {s' : Stream}
    (hr : (recvRuns client max_size s).Run es p) (hcount : es.length ≤ s.input.length)
    (hbreak : recvPass client max_size p.1 p.2 = .error .brk s') :
    WSRecvMessage client max_size s = .ok none s'.close := by
  have hle : es.length + 1 ≤ s.input.length + 1 := Nat.succ_le_succ hcount
  obtain ⟨k, hk⟩ := Nat.exists_eq_add_of_le hle
  simp only [WSRecvMessage, orClose, bind_apply, get_apply]
  rw [hk, Nat.add_assoc, recvLoop_run hr, Nat.add_comm 1]
  simp only [recvLoop, bind_apply, hbreak]

/-- The loop gets to the first empty fragment, and the stream is closed there. -/
theorem EmptyFragment.closed (h : EmptyFragment client fs) (hbare : Bare fs)
    (hs : Feeds s (encodeAll fs ++ rest)) (hlimit : (payloads fs).length < max_size.toNat)
    (hlen : (payloads fs).length < 2147483648) :
    ∃ s', WSRecvMessage client max_size s = .ok none s' ∧ s'.connected = false := by
  obtain ⟨pre, f, post, hfs, hd, hempty, hfirst⟩ := h.first
  obtain ⟨es, p, hr, hcount, hat⟩ := reach h.message.wellFormed h.message.chained hs pre
    (f :: post) hfs (List.cons_ne_nil f post) fun pre' g post' hpre => by
      have hsplit : fs = pre' ++ g :: (post' ++ f :: post) := by
        rw [hfs, hpre, List.append_assoc]
        rfl
      have hg : g ∈ pre := hpre ▸ List.mem_append_right pre' List.mem_cons_self
      exact readable_of_limits hbare hlimit hlen hsplit (hfirst g hg)
  have hwf := h.message.wellFormed f (hfs ▸ List.mem_append_right pre List.mem_cons_self)
  have hfeeds := hat.feeds
  rw [encodeAll_cons, List.append_assoc] at hfeeds
  obtain ⟨s', hbreak⟩ := recvPass_empty max_size hwf hd hempty p.1 hfeeds
  have hle : es.length ≤ s.input.length := by
    have hframes := length_le_encodeAll fs
    have hlength := congrArg List.length hfs
    rw [List.length_append] at hlength
    rw [hs.input, List.length_append]
    omega
  exact ⟨s'.close, WSRecvMessage_breaks hr hle hbreak, rfl⟩

/-- An empty message is never sent with success, on any stream and in any place among others, and
a message with an empty fragment is never received. The stream is closed. -/
theorem empty_never_passes {msg : WSFrameMessage} (hmsg : msg.data = []) (fin : Bool)
    (mask : List UInt8) (s : Stream) {t : Stream} (hfs : EmptyFragment client fs)
    (ht : Feeds t (encodeAll fs ++ rest)) :
    (∀ mine, ∃ s', WSSendMessage msg mine fin mask s = .ok (-1) s' ∧ s'.connected = false ∧
      (Healthy s → mask.length = 4 →
        s'.output = s.output ++ (sentFrame mine fin mask msg).encode)) ∧
    ¬Synchronised client max_size t fs rest ∧
    (Bare fs → ∀ m t', WSRecvMessage client max_size t ≠ .ok (some m) t') ∧
    (Bare fs → (payloads fs).length < max_size.toNat → (payloads fs).length < 2147483648 →
      ∃ t', WSRecvMessage client max_size t = .ok none t' ∧ t'.connected = false) := by
  refine ⟨fun mine => ?_, hfs.not_synchronised ht, fun hbare => hfs.no_message hbare ht,
    fun hbare => hfs.closed hbare ht⟩
  obtain ⟨s', hsend, hclosed⟩ := WSSendMessage_empty hmsg mine fin mask s
  refine ⟨s', hsend, hclosed, fun h hmask => ?_⟩
  obtain ⟨s'', hsend', hout⟩ := WSSendMessage_empty_put hmsg mine fin hmask h
  obtain rfl : s'' = s' := by simpa using hsend'.symm.trans hsend
  exact hout

def emptyText : Frame := ⟨true, TEXT_FRAME, none, []⟩

theorem emptyText_fragment : EmptyFragment true [emptyText] where
  message := .single ⟨by decide, by decide, by decide, by decide, by decide⟩ rfl rfl
  empty := ⟨emptyText, List.mem_singleton_self _, rfl, rfl⟩

/-- A server sends an empty text, and the client gets one. -/
theorem empty_never_passes_text :
    (∃ s', WSSendMessage ⟨TEXT_FRAME, []⟩ false true [0, 0, 0, 0] (fresh []) = .ok (-1) s' ∧
      s'.connected = false) ∧
    ∃ t', WSRecvMessage true 33554432 (fresh [0x81, 0]) = .ok none t' ∧ t'.connected = false := by
  have ht : Feeds (fresh [0x81, 0]) (encodeAll [emptyText] ++ []) := fresh_feeds _
  have hbare : Bare [emptyText] := by
    intro f hf hd
    rw [List.mem_singleton.mp hf] at hd
    cases hd
  have hmsg : (⟨TEXT_FRAME, []⟩ : WSFrameMessage).data = [] := rfl
  obtain ⟨hsend, -, -, hrecv⟩ :=
    empty_never_passes hmsg true [0, 0, 0, 0] (fresh []) emptyText_fragment ht
  obtain ⟨s', hok, hclosed, -⟩ := hsend false
  exact ⟨⟨s', hok, hclosed⟩, hrecv hbare (by decide) (by decide)⟩

/-- The frame is whole on the wire; both ends call it a failure. -/
theorem empty_text_fails :
    WSSendMessage ⟨TEXT_FRAME, []⟩ false true [0, 0, 0, 0] (fresh []) =
      .ok (-1) ⟨[], [], [0x81, 0], [], false⟩ ∧
    WSRecvMessage true 33554432 (fresh [0x81, 0]) = .ok none ⟨[], [], [], [], false⟩ :=
  ⟨by rfl, by rfl⟩

end CIM.Http
