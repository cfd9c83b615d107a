import CIM.Http.WsMessage

/-!
# What one side sends, the other side receives

`WSSendMessage` puts the encoding of one frame on the wire. A message sent in fragments is then
the frames of `fragments`, and the receiving loop is run on what the sender delivered of them.
-/
namespace CIM.Http

open WSFrameHead Exec Transition CIM.Stream CIM.Http.Frame

/-- Sends `op` with the first fragment, then continuation frames; each has its own mask. -/
def sendFragments (client : Bool) : Nat → List (List UInt8 × List UInt8) → WSM Unit
  | _, [] => return ⟨⟩
  | op, (mask, c) :: cs => do
      let _ ← WSSendMessage ⟨op, c⟩ client cs.isEmpty mask
      sendFragments client CONTINUE cs

def fragments (client : Bool) : Nat → List (List UInt8 × List UInt8) → List Frame
  | _, [] => []
  | op, (mask, c) :: cs =>
      ⟨cs.isEmpty, op, if client then some mask else none, c⟩ :: fragments client CONTINUE cs

/-- The frames that get on the wire: the sender gives up behind one whose payload length is not
positive as an `int`. -/
def delivered : List Frame → List Frame
  | [] => []
  | f :: fs => if f.payload.length < 2147483648 then f :: delivered fs else [f]

theorem writeFix_closed {s : Stream} (h : s.connected = false) {buffer : List UInt8}
    (hne : buffer ≠ []) (hlen : buffer.length < 4294967296) :
    writeFix buffer s = .error .brk s := by
  have hpos := List.length_pos_of_ne_nil hne
  have hleft : int64 buffer.length > 0 := by simp only [int64, uint64]; omega
  simp [writeFix, writeFixSize, writeLoop, write, h, hleft]

/-- The last write of a frame: from `2^31` bytes on all is written, but the result says that it
failed. -/
theorem writeFix_payload {s : Stream} (h : Healthy s) {buffer : List UInt8} (hne : buffer ≠ [])
    (hlen : buffer.length < 4294967296) :
    ∃ s', Put s buffer s' ∧
      (buffer.length < 2147483648 ∧ writeFix buffer s = .ok ⟨⟩ s' ∧ Healthy s' ∨
        2147483648 ≤ buffer.length ∧ writeFix buffer s = .error .brk s') := by
  by_cases hlt : buffer.length < 2147483648
  · obtain ⟨s', hw, hput, h'⟩ := writeFix_put h hne hlt
    exact ⟨s', hput, .inl ⟨hlt, hw, h'⟩⟩
  · obtain ⟨s', hw, hput, -⟩ := writeFixSize_healthy (ε := Halt) h buffer (by omega)
    have hneg : int32 buffer.length ≤ 0 := by simp only [int32, uint32]; omega
    refine ⟨s', hput, .inr ⟨by omega, ?_⟩⟩
    simp only [writeFix, bind_apply, hw, if_pos hneg, throw_apply]

theorem writeLength_put {s : Stream} (h : Healthy s) (size : Nat) :
    ∃ s', writeLength size s = .ok ⟨⟩ s' ∧ Put s (lenBytes size) s' ∧ Healthy s' := by
  unfold writeLength lenBytes
  split
  · exact writeFix_put h (List.cons_ne_nil _ _) (by simp)
  · split
    · exact writeFix_put h (List.cons_ne_nil _ _) (by simp)
    · exact ⟨s, rfl, .refl s, h⟩

/-- The frame that a call of `WSSendMessage` sends. -/
def sentFrame (client fin : Bool) (mask : List UInt8) (msg : WSFrameMessage) : Frame :=
  ⟨fin, msg.opcode, if client then some mask else none, msg.data⟩

theorem WSSendMessage_put (msg : WSFrameMessage) (client fin : Bool) {mask : List UInt8}
    {s : Stream} (h : Healthy s) (hmask : mask.length = 4) (hne : msg.data ≠ [])
    (hlen : msg.data.length < 4294967296) :
    ∃ rt s', WSSendMessage msg client fin mask s = .ok rt s' ∧
      s'.output = s.output ++ (sentFrame client fin mask msg).encode ∧
      (msg.data.length < 2147483648 ∧ Healthy s' ∨
        2147483648 ≤ msg.data.length ∧ s'.connected = false) := by
  obtain ⟨s₁, hw₁, hput₁, h₁⟩ :=
    writeFix_put h (List.cons_ne_nil (finOpcode fin msg.opcode) []) (by simp)
  obtain ⟨s₂, hw₂, hput₂, h₂⟩ :=
    writeFix_put h₁ (List.cons_ne_nil (maskLength client msg.data.length) []) (by simp)
  obtain ⟨s₃, hw₃, hput₃, h₃⟩ := writeLength_put h₂ msg.data.length
  cases client with
  | true =>
      have hkey : mask ≠ [] := List.ne_nil_of_length_pos (by omega)
      have hne' : applyMask mask msg.data ≠ [] := List.ne_nil_of_length_pos (by
        rw [length_applyMask]; exact List.length_pos_of_ne_nil hne)
      obtain ⟨s₄, hw₄, hput₄, h₄⟩ := writeFix_put h₃ hkey (by omega)
      obtain ⟨s₅, hput₅, hw₅⟩ := writeFix_payload h₄ hne' (by rwa [length_applyMask])
      rw [length_applyMask] at hw₅
      have hout : s₅.output = s.output ++ (sentFrame true fin mask msg).encode := by
        rw [hput₅.output, hput₄.output, hput₃.output, hput₂.output, hput₁.output]
        simp [sentFrame, encode, head, tail, body]
      rcases hw₅ with ⟨hlt, hw₅, h₅⟩ | ⟨hge, hw₅⟩
      · refine ⟨int32 (2 + (lenBytes msg.data.length).length + 4 + msg.data.length), s₅, ?_, hout,
          .inl ⟨hlt, h₅⟩⟩
        simp only [WSSendMessage, orClose, bind_apply, hw₁, hw₂, hw₃, hw₄, hw₅, if_true, pure_apply]
      · refine ⟨-1, s₅.close, ?_, hout, .inr ⟨hge, rfl⟩⟩
        simp only [WSSendMessage, orClose, bind_apply, hw₁, hw₂, hw₃, hw₄, hw₅, if_true]
  | false =>
      obtain ⟨s₄, hput₄, hw₄⟩ := writeFix_payload h₃ hne hlen
      have hout : s₄.output = s.output ++ (sentFrame false fin mask msg).encode := by
        rw [hput₄.output, hput₃.output, hput₂.output, hput₁.output]
        simp [sentFrame, encode, head, tail, body]
      rcases hw₄ with ⟨hlt, hw₄, h₄⟩ | ⟨hge, hw₄⟩
      · refine ⟨int32 (2 + (lenBytes msg.data.length).length + msg.data.length), s₄, ?_, hout,
          .inl ⟨hlt, h₄⟩⟩
        simp only [WSSendMessage, orClose, bind_apply, hw₁, hw₂, hw₃, hw₄, Bool.false_eq_true,
          if_false, pure_apply]
      · refine ⟨-1, s₄.close, ?_, hout, .inr ⟨hge, rfl⟩⟩
        simp only [WSSendMessage, orClose, bind_apply, hw₁, hw₂, hw₃, hw₄, Bool.false_eq_true,
          if_false]

theorem WSSendMessage_closed (msg : WSFrameMessage) (client fin : Bool) (mask : List UInt8)
    {s : Stream} (h : s.connected = false) :
    ∃ s', WSSendMessage msg client fin mask s = .ok (-1) s' ∧ s'.output = s.output ∧
      s'.connected = false := by
  have hw := writeFix_closed h (List.cons_ne_nil (finOpcode fin msg.opcode) []) (by simp)
  refine ⟨s.close, ?_, rfl, rfl⟩
  simp only [WSSendMessage, orClose, bind_apply, hw]

theorem sendFragments_closed (client : Bool) (op : Nat) (cs : List (List UInt8 × List UInt8))
    {s : Stream} (h : s.connected = false) :
    ∃ s', sendFragments client op cs s = .ok ⟨⟩ s' ∧ s'.output = s.output := by
  induction cs generalizing op s with
  | nil => exact ⟨s, rfl, rfl⟩
  | cons c cs ih =>
      obtain ⟨s₁, hw, hout, h₁⟩ :=
        WSSendMessage_closed ⟨op, c.2⟩ client cs.isEmpty c.1 h
      obtain ⟨s₂, hs, hout'⟩ := ih CONTINUE h₁
      exact ⟨s₂, by simp only [sendFragments, bind_apply, hw, hs], hout'.trans hout⟩

/-- What the sender puts on the wire for a message in fragments. -/
theorem sendFragments_put (client : Bool) (op : Nat) {cs : List (List UInt8 × List UInt8)}
    {s : Stream} (h : Healthy s)
    (hcs : ∀ c ∈ cs, c.1.length = 4 ∧ c.2 ≠ [] ∧ c.2.length < 4294967296) :
    ∃ s', sendFragments client op cs s = .ok ⟨⟩ s' ∧
      s'.output = s.output ++ encodeAll (delivered (fragments client op cs)) := by
  induction cs generalizing op s with
  | nil => exact ⟨s, rfl, (List.append_nil _).symm⟩
  | cons c cs ih =>
      obtain ⟨hkey, hne, hlen⟩ := hcs c List.mem_cons_self
      obtain ⟨rt, s₁, hw, hout, hend⟩ :=
        WSSendMessage_put ⟨op, c.2⟩ client cs.isEmpty h hkey hne hlen
      rcases hend with ⟨hlt, h₁⟩ | ⟨hge, h₁⟩
      · obtain ⟨s₂, hs, hout'⟩ :=
          ih CONTINUE h₁ fun c hc => hcs c (List.mem_cons_of_mem _ hc)
        refine ⟨s₂, by simp only [sendFragments, bind_apply, hw, hs], ?_⟩
        have hlt' : c.2.length < 2147483648 := hlt
        rw [hout', hout, fragments, delivered, if_pos hlt', encodeAll_cons, List.append_assoc]
        rfl
      · obtain ⟨s₂, hs, hout'⟩ := sendFragments_closed client CONTINUE cs h₁
        refine ⟨s₂, by simp only [sendFragments, bind_apply, hw, hs], ?_⟩
        have hge' : ¬ c.2.length < 2147483648 := Nat.not_lt.mpr hge
        rw [hout', hout, fragments, delivered, if_neg hge', encodeAll_cons]
        simp [encodeAll, sentFrame]

theorem delivered_initial (fs : List Frame) : delivered fs <+: fs := by
  induction fs with
  | nil => exact List.prefix_rfl
  | cons f fs ih =>
      unfold delivered
      split
      · exact (List.prefix_cons_inj f).mpr ih
      · exact ⟨fs, rfl⟩

theorem delivered_eq {fs : List Frame} (h : ∀ f ∈ delivered fs, f.payload.length < 2147483648) :
    delivered fs = fs := by
  induction fs with
  | nil => rfl
  | cons f fs ih =>
      unfold delivered at h ⊢
      split at h
      · rename_i hlt
        rw [if_pos hlt, ih fun g hg => h g (List.mem_cons_of_mem f hg)]
      · rename_i hge
        exact absurd (h f List.mem_cons_self) hge

theorem Chained.of_initial {fs gs : List Frame} (h : Chained gs) (hp : fs <+: gs) : Chained fs := by
  obtain ⟨tail, rfl⟩ := hp
  intro pre f post hfs hd
  obtain ⟨hlast, hcont⟩ := h pre f (post ++ tail) (by rw [hfs, List.append_assoc]; rfl) hd
  exact ⟨fun hfin => (List.append_eq_nil_iff.mp (hlast hfin)).1, hcont⟩

section Fragments

variable (client : Bool) (max_size : UInt32) {cs : List (List UInt8 × List UInt8)} (op : Nat)

theorem fragments_payload (cs : List (List UInt8 × List UInt8)) :
    (fragments client op cs).map Frame.payload = cs.map Prod.snd := by
  induction cs generalizing op with
  | nil => rfl
  | cons c cs ih => simp only [fragments, List.map_cons, ih]

variable {op} in
theorem fragments_wellFormed (hop : op = CONTINUE ∨ op = TEXT_FRAME ∨ op = BIN_FRAME)
    (hcs : ∀ c ∈ cs, c.1.length = 4 ∧ c.2.length < 9223372036854775808) :
    ∀ f ∈ fragments client op cs, f.WellFormed (!client) ∧ f.isData = true := by
  induction cs generalizing op with
  | nil => intro f hf; cases hf
  | cons c cs ih =>
      obtain ⟨hkey, hlen⟩ := hcs c List.mem_cons_self
      intro f hf
      rcases List.mem_cons.mp hf with rfl | hf
      · have hd := isData_iff (f := ⟨cs.isEmpty, op, if client then some c.1 else none, c.2⟩).mpr hop
        refine ⟨⟨?_, ?_, hlen, fun h => absurd hd (by rw [h]; decide), fun _ hc => ?_⟩, hd⟩
        · rcases hop with rfl | rfl | rfl <;> simp
        · intro k hk
          cases client with
          | true => cases hk; exact hkey
          | false => cases hk
        · cases client with
          | true => rfl
          | false => cases hc
      · exact ih (.inl rfl) (fun c hc => hcs c (List.mem_cons_of_mem _ hc)) f hf

variable {client op} in
theorem fragments_split {pre post : List Frame} {f : Frame}
    (h : fragments client op cs = pre ++ f :: post) :
    (f.fin = true → post = []) ∧ (pre ≠ [] → f.opcode = CONTINUE) ∧ (pre = [] → f.opcode = op) := by
  induction pre generalizing op cs with
  | nil =>
      cases cs with
      | nil => cases h
      | cons c cs =>
          simp only [fragments, List.nil_append, List.cons.injEq] at h
          obtain ⟨rfl, rfl⟩ := h
          refine ⟨fun hfin => ?_, fun h => absurd rfl h, fun _ => rfl⟩
          rw [List.isEmpty_iff.mp hfin]
          rfl
  | cons g pre ih =>
      cases cs with
      | nil => cases h
      | cons c cs =>
          simp only [fragments, List.cons_append, List.cons.injEq] at h
          obtain ⟨hlast, hcont, hfirst⟩ := ih h.2
          refine ⟨hlast, fun _ => ?_, fun h => absurd h (List.cons_ne_nil g pre)⟩
          by_cases hpre : pre = []
          · exact hfirst hpre
          · exact hcont hpre

theorem fragments_ends (hne : cs ≠ []) :
    ∃ pre f, fragments client op cs = pre ++ [f] ∧ f.fin = true := by
  induction cs generalizing op with
  | nil => exact absurd rfl hne
  | cons c cs ih =>
      cases cs with
      | nil => exact ⟨[], _, rfl, rfl⟩
      | cons d cs =>
          obtain ⟨pre, f, hpre, hfin⟩ := ih CONTINUE (List.cons_ne_nil d cs)
          exact ⟨_ :: pre, f, by rw [fragments, hpre]; rfl, hfin⟩

variable {op} in
theorem fragments_oneMessage (hop : op = CONTINUE ∨ op = TEXT_FRAME ∨ op = BIN_FRAME)
    (hne : cs ≠ []) (hcs : ∀ c ∈ cs, c.1.length = 4 ∧ c.2.length < 9223372036854775808) :
    OneMessage (!client) (fragments client op cs) := by
  have hwf := fragments_wellFormed client hop hcs
  obtain ⟨pre, f, hfs, hfin⟩ := fragments_ends client op hne
  refine ⟨fun f hf => (hwf f hf).1, fun pre f post h _ => ?_, pre, f, hfs, ?_, hfin⟩
  · obtain ⟨hlast, hcont, -⟩ := fragments_split h
    refine ⟨hlast, fun hany => hcont ?_⟩
    rintro rfl
    exact absurd hany (by decide)
  · exact (hwf f (hfs ▸ List.mem_append_right pre List.mem_cons_self)).2

theorem payloads_data {fs : List Frame} (h : ∀ f ∈ fs, f.isData = true) :
    payloads fs = (fs.map Frame.payload).flatten := by
  rw [payloads, List.filter_eq_self.mpr h, List.flatMap_def]

/-- The fragments that can be sent and counted: each one, and what goes before it, has a length
that is an `int`. -/
def Counted (cs : List (List UInt8 × List UInt8)) : Prop :=
  ∀ pre c post, cs = pre ++ c :: post →
    (pre.flatMap Prod.snd).length < 2147483648 ∧ c.2.length < 2147483648

variable {client op} in
theorem allReadable_iff (hdata : ∀ f ∈ fragments client op cs, f.isData = true)
    (hcs : ∀ c ∈ cs, c.2 ≠ []) (hlimit : (cs.flatMap Prod.snd).length < max_size.toNat) :
    AllReadable max_size (fragments client op cs) ↔ Counted cs := by
  have hmap := fragments_payload client op cs
  constructor
  · rintro h pre c post rfl
    rw [List.map_append, List.map_cons, List.map_eq_append_iff] at hmap
    obtain ⟨fpre, l, hfs, hpre, hl⟩ := hmap
    obtain ⟨f, fpost, rfl, hf, -⟩ := List.map_eq_cons_iff.mp hl
    have hok := h fpre f fpost hfs
    have hd := hdata f (hfs ▸ List.mem_append_right fpre List.mem_cons_self)
    have hpay := payloads_data fun g hg => hdata g (hfs ▸ List.mem_append_left _ hg)
    rw [hpre, ← List.flatMap_def] at hpay
    exact ⟨hpay ▸ hok.total_lt hd, hf ▸ hok.length_lt hd⟩
  · intro h fpre f fpost hfs
    have hd := hdata f (hfs ▸ List.mem_append_right fpre List.mem_cons_self)
    have hpay := payloads_data fun g hg => hdata g (hfs ▸ List.mem_append_left _ hg)
    rw [hfs, List.map_append, List.map_cons] at hmap
    obtain ⟨pre, l, rfl, hpre, hl⟩ := List.map_eq_append_iff.mp hmap.symm
    obtain ⟨c, post, rfl, hc, -⟩ := List.map_eq_cons_iff.mp hl
    rw [← hpre, ← List.flatMap_def] at hpay
    obtain ⟨htotal, hlen⟩ := h pre c post rfl
    have hne := hcs c (List.mem_append_right pre List.mem_cons_self)
    simp only [List.flatMap_append, List.flatMap_cons, List.length_append] at hlimit
    exact ⟨fun h => absurd hd (by rw [h]; decide), fun _ => hc ▸ hne, fun _ => hpay ▸ htotal,
      fun _ => hc ▸ hlen, fun _ => by rw [hpay, ← hc]; omega⟩

end Fragments

/-- A message to send: its opcode, and fragments with a mask of four bytes each. -/
structure Sendable (max_size : UInt32) (op : Nat) (cs : List (List UInt8 × List UInt8)) : Prop where
  opcode : op = CONTINUE ∨ op = TEXT_FRAME ∨ op = BIN_FRAME
  nonempty : cs ≠ []
  fragment : ∀ c ∈ cs, c.1.length = 4 ∧ c.2 ≠ []
  limit : (cs.flatMap Prod.snd).length < max_size.toNat

section Sendable

variable {client : Bool} {max_size : UInt32} {op : Nat} {cs : List (List UInt8 × List UInt8)}
  {s t : Stream} {rest : List UInt8}

theorem Sendable.fragment_lt (h : Sendable max_size op cs) :
    ∀ c ∈ cs, c.2.length < 4294967296 := by
  have hmax : max_size.toNat < 4294967296 := max_size.toNat_lt
  have hlimit := h.limit
  intro c hc
  obtain ⟨pre, post, rfl⟩ := List.append_of_mem hc
  simp only [List.flatMap_append, List.flatMap_cons, List.length_append] at hlimit
  omega

theorem Sendable.frames (h : Sendable max_size op cs) (client : Bool) :
    OneMessage (!client) (fragments client op cs) ∧
      (∀ f ∈ fragments client op cs, f.isData = true) ∧
      (AllReadable max_size (fragments client op cs) ↔ Counted cs) := by
  have hcs : ∀ c ∈ cs, c.1.length = 4 ∧ c.2.length < 9223372036854775808 := fun c hc =>
    ⟨(h.fragment c hc).1, Nat.lt_trans (h.fragment_lt c hc) (by decide)⟩
  have hdata := fun f hf => (fragments_wellFormed client h.opcode hcs f hf).2
  exact ⟨fragments_oneMessage client h.opcode h.nonempty hcs, hdata,
    allReadable_iff max_size hdata (fun c hc => (h.fragment c hc).2) h.limit⟩

theorem Sendable.sent (h : Sendable max_size op cs) (client : Bool) (ht : Healthy t) :
    ∃ t', sendFragments client op cs t = .ok ⟨⟩ t' ∧
      t'.output = t.output ++ encodeAll (delivered (fragments client op cs)) :=
  sendFragments_put client op ht fun c hc =>
    ⟨(h.fragment c hc).1, (h.fragment c hc).2, h.fragment_lt c hc⟩

/-- A receiver that returns a message has counted the fragments. -/
theorem Sendable.counted_of_received (h : Sendable max_size op cs)
    (hs : Feeds s (encodeAll (delivered (fragments client op cs)) ++ rest)) {msg : WSFrameMessage}
    {s' : Stream} (hmsg : WSRecvMessage (!client) max_size s = .ok (some msg) s') :
    Counted cs := by
  obtain ⟨hm, hdata, hiff⟩ := h.frames client
  have hpart := delivered_initial (fragments client op cs)
  have hpasses : (delivered (fragments client op cs)).length ≤ s.input.length + 1 := by
    have h := length_le_encodeAll (delivered (fragments client op cs))
    rw [hs.input, List.length_append]
    omega
  have hall := readable_of_message (fun f hf => hm.wellFormed f (hpart.subset hf))
    (hm.chained.of_initial hpart) hs hpasses ((WSRecvMessage_eq _ _).mp hmsg)
    fun pre f post es p hfs hd _ _ _ => by
      have hf : f ∈ delivered (fragments client op cs) :=
        hfs ▸ List.mem_append_right pre List.mem_cons_self
      exact absurd (hdata f (hpart.subset hf)) (by rw [hd]; decide)
  -- a frame behind which the sender gave up would not have been readable
  have heq := delivered_eq fun f hf => by
    obtain ⟨pre, post, hfs⟩ := List.append_of_mem hf
    exact (hall pre f post hfs).length_lt (hdata f (hpart.subset hf))
  exact hiff.mp (heq ▸ hall)

theorem Sendable.received_of_counted (h : Sendable max_size op cs)
    (hs : Feeds s (encodeAll (delivered (fragments client op cs)) ++ rest)) (hcount : Counted cs) :
    ∃ s', WSRecvMessage (!client) max_size s = .ok (some ⟨op, cs.flatMap Prod.snd⟩) s' ∧
      Feeds s' rest := by
  obtain ⟨hm, hdata, hiff⟩ := h.frames client
  have hall := hiff.mpr hcount
  have heq := delivered_eq fun f hf => by
    have hf := (delivered_initial (fragments client op cs)).subset hf
    obtain ⟨pre, post, hfs⟩ := List.append_of_mem hf
    exact (hall pre f post hfs).length_lt (hdata f hf)
  rw [heq] at hs
  obtain ⟨s', hmsg, h'⟩ := message_of_readable hm hs hall
  refine ⟨s', ?_, h'⟩
  have hpay : payloads (fragments client op cs) = cs.flatMap Prod.snd := by
    rw [payloads_data hdata, fragments_payload, List.flatMap_def]
  have hopc : messageOpcode (fragments client op cs) = op := by
    obtain ⟨c, cs, rfl⟩ := List.exists_cons_of_ne_nil h.nonempty
    rw [messageOpcode, List.filter_eq_self.mpr hdata]
    rfl
  rw [hmsg, hpay, hopc]

end Sendable

/-- What one side sends in fragments the other side reads back, and nothing more, exactly when
the lengths are such that `int` can count them. -/
theorem round_trip_iff {client : Bool} {max_size : UInt32} {op : Nat}
    {cs : List (List UInt8 × List UInt8)} {t t' s : Stream} {rest : List UInt8}
    (hmsg : Sendable max_size op cs) (ht : Healthy t) (hout : t.output = [])
    (hsend : sendFragments client op cs t = .ok ⟨⟩ t') (hs : Feeds s (t'.output ++ rest)) :
    (∃ s', WSRecvMessage (!client) max_size s = .ok (some ⟨op, cs.flatMap Prod.snd⟩) s' ∧
      s'.input = rest) ↔ Counted cs := by
  obtain ⟨t'', hsent, hout'⟩ := hmsg.sent client ht
  obtain rfl : t'' = t' := by simpa using hsent.symm.trans hsend
  rw [hout', hout, List.nil_append] at hs
  constructor
  · rintro ⟨s', hrecv, -⟩
    exact hmsg.counted_of_received hs hrecv
  · intro hcount
    obtain ⟨s', hrecv, h'⟩ := hmsg.received_of_counted hs hcount
    exact ⟨s', hrecv, h'.input⟩

/-- A server's text in two fragments. -/
theorem round_trip_two_fragments :
    (∃ s', WSRecvMessage (!false) 33554432 (fresh [0x01, 1, 104, 0x80, 1, 105]) =
        .ok (some ⟨TEXT_FRAME, [104, 105]⟩) s' ∧ s'.input = []) ↔
      Counted [([0, 0, 0, 0], [104]), ([0, 0, 0, 0], [105])] := by
  have hmsg : Sendable 33554432 TEXT_FRAME [([0, 0, 0, 0], [104]), ([0, 0, 0, 0], [105])] :=
    ⟨by decide, by decide, by decide, by decide⟩
  have hsend : sendFragments false TEXT_FRAME [([0, 0, 0, 0], [104]), ([0, 0, 0, 0], [105])]
      (fresh []) = .ok ⟨⟩ ⟨[], [], [0x01, 1, 104, 0x80, 1, 105], [], true⟩ := by rfl
  have hs : Feeds (fresh [0x01, 1, 104, 0x80, 1, 105]) ([0x01, 1, 104, 0x80, 1, 105] ++ []) :=
    fresh_feeds _
  exact round_trip_iff hmsg (fresh_feeds []).healthy rfl hsend hs

/-- With the limit at its largest, a server sends a text of `2^31` bytes: all of them are on the
wire, and the client returns no message. -/
theorem lost_of_long {c : List UInt8} (hlen : c.length = 2147483648) : ∃ t',
    Sendable 4294967295 TEXT_FRAME [([0, 0, 0, 0], c)] ∧
    sendFragments false TEXT_FRAME [([0, 0, 0, 0], c)] (fresh []) = .ok ⟨⟩ t' ∧
    ∀ msg s', WSRecvMessage true 4294967295 (fresh t'.output) ≠ .ok (some msg) s' := by
  have hmsg : Sendable 4294967295 TEXT_FRAME [([0, 0, 0, 0], c)] := by
    refine ⟨.inr (.inl rfl), List.cons_ne_nil _ _, fun d hd => ?_, ?_⟩
    · obtain rfl := List.mem_singleton.mp hd
      have hne : c ≠ [] := List.ne_nil_of_length_pos (by omega)
      exact ⟨rfl, hne⟩
    · simp only [List.flatMap_cons, List.flatMap_nil, List.append_nil, hlen]
      decide
  obtain ⟨t', hsent, hout⟩ := hmsg.sent false (fresh_feeds []).healthy
  refine ⟨t', hmsg, hsent, fun msg s' hrecv => ?_⟩
  have hs := fresh_feeds t'.output
  have hempty : (fresh []).output = [] := rfl
  rw [hout, hempty, List.nil_append, ← List.append_nil (encodeAll _)] at hs
  rw [hout, hempty, List.nil_append, ← List.append_nil (encodeAll _)] at hrecv
  have hlt : c.length < 2147483648 := (hmsg.counted_of_received hs hrecv [] _ [] rfl).2
  omega

theorem long_fragment_lost : ∃ t',
    Sendable 4294967295 TEXT_FRAME [([0, 0, 0, 0], List.replicate 2147483648 0)] ∧
    sendFragments false TEXT_FRAME [([0, 0, 0, 0], List.replicate 2147483648 0)] (fresh []) =
      .ok ⟨⟩ t' ∧
    ∀ msg s', WSRecvMessage true 4294967295 (fresh t'.output) ≠ .ok (some msg) s' :=
  lost_of_long List.length_replicate

end CIM.Http
