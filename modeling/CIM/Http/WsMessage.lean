import CIM.Http.WsPasses
import Mathlib.Data.List.Induction

/-!
# Messages with interleaved control frames

A call of `WSRecvMessage` on the frames of one message, control frames anywhere among them. `At`
says where the loop stands when the frames of `pre` are behind it; `At.pass` moves it over one
frame, and it holds at every top of the loop as long as the frames are `Readable`.
-/
namespace CIM.Http

open WSFrameHead Exec Transition CIM.Stream CIM.Http.Frame

variable {client : Bool} {max_size : UInt32} {s : Stream} {rest : List UInt8}

def encodeAll (fs : List Frame) : List UInt8 := fs.flatMap Frame.encode

def payloads (fs : List Frame) : List UInt8 := (fs.filter Frame.isData).flatMap Frame.payload

/-- The opcode of the first data frame. -/
def messageOpcode (fs : List Frame) : Nat := ((fs.filter Frame.isData).map Frame.opcode).headD 0

/-- The data frames before the last frame are not final, and those after the first are
continuations. -/
def Chained (fs : List Frame) : Prop :=
  ∀ pre f post, fs = pre ++ f :: post → f.isData = true →
    (f.fin = true → post = []) ∧ (pre.any Frame.isData = true → f.opcode = CONTINUE)

/-- One whole message: the last frame is its final data frame. -/
structure OneMessage (client : Bool) (fs : List Frame) : Prop where
  wellFormed : ∀ f ∈ fs, f.WellFormed client
  chained : Chained fs
  ends : ∃ pre f, fs = pre ++ [f] ∧ f.isData = true ∧ f.fin = true

/-- Each frame finds the loop in a state in which it is readable. -/
def AllReadable (max_size : UInt32) (fs : List Frame) : Prop :=
  ∀ pre f post, fs = pre ++ f :: post → f.Readable max_size (payloads pre).length

theorem encodeAll_cons (f : Frame) (fs : List Frame) :
    encodeAll (f :: fs) = f.encode ++ encodeAll fs := rfl

theorem length_le_encodeAll (fs : List Frame) : fs.length ≤ (encodeAll fs).length := by
  induction fs with
  | nil => exact Nat.le_refl 0
  | cons f fs ih =>
      have hf : f.head.length = 2 := rfl
      simp only [encodeAll_cons, encode, List.length_append, List.length_cons]
      omega

theorem payloads_snoc (pre : List Frame) (f : Frame) :
    payloads (pre ++ [f]) = payloads pre ++ if f.isData then f.payload else [] := by
  cases hd : f.isData <;> simp [payloads, hd]

theorem messageOpcode_snoc {pre : List Frame} {f : Frame}
    (hc : f.isData = true → pre.any Frame.isData = true → f.opcode = CONTINUE) :
    messageOpcode (pre ++ [f]) =
      if f.isData then nextOpcode (messageOpcode pre) f.opcode else messageOpcode pre := by
  cases hd : f.isData with
  | false => simp [messageOpcode, hd]
  | true =>
      cases hp : pre.filter Frame.isData with
      | nil => simp [messageOpcode, hp, hd, nextOpcode, CONTINUE]
      | cons g gs =>
          have hany : pre.any Frame.isData = true := by
            have hg : g ∈ pre.filter Frame.isData := hp ▸ List.mem_cons_self
            rw [List.mem_filter] at hg
            exact List.any_eq_true.mpr ⟨g, hg.1, hg.2⟩
          have h0 : f.opcode = 0 := hc hd hany
          simp [messageOpcode, hp, nextOpcode, CONTINUE, h0]

/-- The loop with the frames of `pre` behind it and those of `post` to come. -/
structure At (rest : List UInt8) (pre post : List Frame) (p : RecvState × Stream) : Prop where
  data : p.1.data = payloads pre
  opcode : p.1.opcode = messageOpcode pre
  counts : p.1.Counts
  feeds : Feeds p.2 (encodeAll post ++ rest)

/-- The next frame is left behind, or it was the final one and there is the message. -/
theorem At.pass {pre post : List Frame} {f : Frame} {p : RecvState × Stream}
    (h : At rest pre (f :: post) p) (hf : f.WellFormed client)
    (hc : f.isData = true →
      (f.fin = true → post = []) ∧ (pre.any Frame.isData = true → f.opcode = CONTINUE))
    (hok : f.Readable max_size (payloads pre).length) :
    (∃ p' : RecvState × Stream, recvPass client max_size p.1 p.2 = .ok (.inl p'.1) p'.2 ∧
      (f.isData = true → f.fin = false) ∧ At rest (pre ++ [f]) post p') ∨
    post = [] ∧ ∃ s', recvPass client max_size p.1 p.2 =
      .ok (.inr ⟨messageOpcode (pre ++ [f]), payloads (pre ++ [f])⟩) s' ∧ Feeds s' rest := by
  obtain ⟨⟨opcode, data, cur_len⟩, s⟩ := p
  obtain ⟨rfl, rfl, hcounts, hfeeds⟩ := h
  rw [encodeAll_cons, List.append_assoc] at hfeeds
  have hopc := messageOpcode_snoc fun hd => (hc hd).2
  have hpay := payloads_snoc pre f
  cases hd : f.isData with
  | false =>
      obtain ⟨hkey, hempty⟩ := hok.control hd
      obtain ⟨s', hp, h'⟩ := recvPass_control max_size hf hd
        ⟨messageOpcode pre, payloads pre, cur_len⟩ hfeeds
      have htail : f.tail = [] := by
        simp [tail, body, hkey, hempty, lenBytes, lenIndicator]
      rw [htail, List.nil_append] at h'
      refine .inl ⟨(_, s'), hp, fun h => absurd h (by decide), ?_, ?_, hcounts, h'⟩
      · simp [hpay, hd]
      · simp [hopc, hd]
  | true =>
      obtain ⟨s', hp, h'⟩ := recvPass_taken hf hd hcounts hok hfeeds
      simp only [hd, if_true] at hopc hpay
      simp only [← hopc, ← hpay] at hp
      cases hfin : f.fin with
      | true =>
          obtain rfl := (hc hd).1 hfin
          simp only [hfin, if_true] at hp
          exact .inr ⟨rfl, s', hp, h'⟩
      | false =>
          simp only [hfin, Bool.false_eq_true, if_false] at hp
          have hcounts' := recvPass_counts hcounts hp
          exact .inl ⟨(_, s'), hp, fun _ => rfl, rfl, rfl, hcounts', h'⟩

/-- Up to any frame before which all frames are readable the loop gets, to the start of it. -/
theorem reach {fs : List Frame} (hwf : ∀ f ∈ fs, f.WellFormed client) (hch : Chained fs)
    (hs : Feeds s (encodeAll fs ++ rest)) (pre : List Frame) :
    ∀ post, fs = pre ++ post → post ≠ [] →
      (∀ pre' f post', pre = pre' ++ f :: post' → f.Readable max_size (payloads pre').length) →
      ∃ es p, (recvRuns client max_size s).Run es p ∧ es.length = pre.length ∧
        At rest pre post p := by
  induction pre using List.reverseRecOn with
  | nil =>
      rintro post rfl - -
      exact ⟨[], (.start, s), .start rfl, rfl, rfl, rfl, counts_start, hs⟩
  | append_singleton pre f ih =>
      intro post hfs hne hok
      have hfs' : fs = pre ++ f :: post := by rw [hfs, List.append_assoc]; rfl
      obtain ⟨es, p, hr, hlen, hat⟩ := ih (f :: post) hfs' (List.cons_ne_nil f post)
        fun pre' g post' h => hok pre' g (post' ++ [f]) (by rw [h, List.append_assoc]; rfl)
      have hf : f ∈ fs := hfs' ▸ List.mem_append_right pre List.mem_cons_self
      rcases hat.pass (hwf f hf) (hch pre f post hfs') (hok pre f [] rfl) with
        ⟨p', hp, -, hat'⟩ | ⟨hpost, -⟩
      · exact ⟨es ++ [⟨⟩], p', .snoc hr hp, by simp [hlen], hat'⟩
      · exact absurd hpost hne

/-- The loop goes on from wherever a run of passes has brought it. -/
theorem recvLoop_run {es : List Unit} {p : RecvState × Stream}
    (hr : (recvRuns client max_size s).Run es p) (passes : Nat) :
    recvLoop client max_size (es.length + passes) .start s =
      recvLoop client max_size passes p.1 p.2 := by
  induction hr generalizing passes with
  | start h =>
      cases h
      simp
  | snoc hr hstep ih =>
      have hstep' : recvPass client max_size _ _ = _ := hstep
      rw [List.length_append, List.length_singleton, Nat.add_assoc, ih, Nat.add_comm 1]
      simp only [recvLoop, bind_apply, hstep']

/-- A loop that returns has come through the first pass. -/
theorem recvLoop_ok {passes : Nat} {p : RecvState × Stream} {msg : WSFrameMessage} {t : Stream}
    (h : recvLoop client max_size passes p.1 p.2 = .ok msg t) :
    ∃ r s', recvPass client max_size p.1 p.2 = .ok r s' := by
  cases passes with
  | zero => cases h
  | succ passes =>
      obtain ⟨r, s', hr, -⟩ := of_bind_ok h
      exact ⟨r, s', hr⟩

theorem WSRecvMessage_eq (msg : WSFrameMessage) (t : Stream) :
    WSRecvMessage client max_size s = .ok (some msg) t ↔
      recvLoop client max_size (s.input.length + 1) .start s = .ok msg t := by
  simp only [WSRecvMessage, orClose, bind_apply, get_apply, pure_apply]
  cases recvLoop client max_size (s.input.length + 1) .start s with
  | ok m s' => simp
  | error e s' => cases e <;> simp

/-- A message that is returned makes every data frame readable; the control frames have to be
looked at one by one. -/
theorem readable_of_message {fs : List Frame} (hwf : ∀ f ∈ fs, f.WellFormed client)
    (hch : Chained fs) (hs : Feeds s (encodeAll fs ++ rest)) {passes : Nat}
    (hpasses : fs.length ≤ passes) {msg : WSFrameMessage} {t : Stream}
    (hmsg : recvLoop client max_size passes .start s = .ok msg t)
    (hcontrol : ∀ pre f post es p, fs = pre ++ f :: post → f.isData = false →
      (recvRuns client max_size s).Run es p → es.length = pre.length →
      At rest pre (f :: post) p → f.key = none ∧ f.payload = []) :
    AllReadable max_size fs := by
  intro pre
  -- the frames before `f` are readable by induction, so the loop has got to `f`
  induction hn : pre.length using Nat.strongRecOn generalizing pre with
  | ind n ih =>
      intro f post hfs
      obtain ⟨es, p, hr, hlen, hat⟩ := reach hwf hch hs pre (f :: post) hfs
        (List.cons_ne_nil f post) fun pre' g post' h =>
          ih pre'.length (by rw [← hn, h, List.length_append, List.length_cons]; omega) pre' rfl g
            (post' ++ f :: post) (by rw [hfs, h, List.append_assoc]; rfl)
      have hf : f.WellFormed client := hwf f (hfs ▸ List.mem_append_right pre List.mem_cons_self)
      cases hd : f.isData with
      | false =>
          have hbare := hcontrol pre f post es p hfs hd hr hlen hat
          exact ⟨fun _ => hbare, by simp [hd], by simp [hd], by simp [hd], by simp [hd]⟩
      | true =>
          have hle : pre.length < passes := by
            have h := congrArg List.length hfs
            rw [List.length_append, List.length_cons] at h
            omega
          have hsplit : passes = es.length + (passes - es.length) := by omega
          rw [hsplit, recvLoop_run hr] at hmsg
          obtain ⟨r, s', hpass⟩ := recvLoop_ok hmsg
          have hfeeds := hat.feeds
          rw [encodeAll_cons, List.append_assoc] at hfeeds
          rw [← hat.data]
          exact recvPass_ok hf hd hat.counts hfeeds hpass

/-- Readable frames are read to the end, and the message is theirs. -/
theorem message_of_readable {fs : List Frame} (hm : OneMessage client fs)
    (hs : Feeds s (encodeAll fs ++ rest)) (hok : AllReadable max_size fs) :
    ∃ s', WSRecvMessage client max_size s = .ok (some ⟨messageOpcode fs, payloads fs⟩) s' ∧
      Feeds s' rest := by
  obtain ⟨pre, f, rfl, hd, hfin⟩ := hm.ends
  obtain ⟨es, p, hr, hlen, hat⟩ := reach hm.wellFormed hm.chained hs pre [f] rfl
    (List.cons_ne_nil f []) fun pre' g post' h =>
      hok pre' g (post' ++ [f]) (by rw [h, List.append_assoc]; rfl)
  have hf := hm.wellFormed f (List.mem_append_right pre List.mem_cons_self)
  have hok' := hok pre f [] rfl
  have hfeeds := hat.feeds
  rw [encodeAll_cons, List.append_assoc] at hfeeds
  obtain ⟨s', hp, h'⟩ := recvPass_taken hf hd hat.counts (hat.data ▸ hok') hfeeds
  refine ⟨s', (WSRecvMessage_eq _ _).mpr ?_, h'⟩
  have hle : es.length + 1 ≤ s.input.length + 1 := by
    have h := length_le_encodeAll (pre ++ [f])
    rw [hs.input]
    simp only [List.length_append, List.length_singleton] at h ⊢
    omega
  obtain ⟨k, hk⟩ := Nat.exists_eq_add_of_le hle
  have hopc := messageOpcode_snoc fun hd => (hm.chained pre f [] rfl hd).2
  rw [hk, Nat.add_assoc, recvLoop_run hr, Nat.add_comm 1]
  simp only [recvLoop, bind_apply, hp, hfin, if_true, pure_apply, hopc, payloads_snoc, hd,
    hat.data, hat.opcode]

/-- Every pass starts at the start of a frame, and the message is that of the data frames. -/
structure Synchronised (client : Bool) (max_size : UInt32) (s : Stream) (fs : List Frame)
    (rest : List UInt8) : Prop where
  heads : ∀ es p, (recvRuns client max_size s).Run es p →
    p.2.input = encodeAll (fs.drop es.length) ++ rest
  message : ∃ s', WSRecvMessage client max_size s =
    .ok (some ⟨messageOpcode fs, payloads fs⟩) s' ∧ s'.input = rest

theorem heads_of_readable {fs : List Frame} (hm : OneMessage client fs)
    (hs : Feeds s (encodeAll fs ++ rest)) (hok : AllReadable max_size fs) {es : List Unit}
    {p : RecvState × Stream} (hr : (recvRuns client max_size s).Run es p) :
    ∃ pre post, fs = pre ++ post ∧ post ≠ [] ∧ pre.length = es.length ∧ At rest pre post p := by
  obtain ⟨pre₀, last, hfs, hd, hfin⟩ := hm.ends
  induction hr with
  | start h =>
      cases h
      exact ⟨[], fs, rfl, by simp [hfs], rfl, rfl, rfl, counts_start, hs⟩
  | snoc hr hstep ih =>
      rename_i es p e p'
      obtain ⟨pre, post, hsplit, hne, hlen, hat⟩ := ih
      obtain ⟨f, post, rfl⟩ := List.exists_cons_of_ne_nil hne
      have hf := hm.wellFormed f (hsplit ▸ List.mem_append_right pre List.mem_cons_self)
      rcases hat.pass hf (hm.chained pre f post hsplit) (hok pre f post hsplit) with
        ⟨p'', hp, hopen, hat'⟩ | ⟨-, s', hp, -⟩
      · obtain ⟨hst, hstream⟩ : p''.1 = p'.1 ∧ p''.2 = p'.2 := by
          simpa using hp.symm.trans hstep
        obtain rfl : p'' = p' := Prod.ext hst hstream
        refine ⟨pre ++ [f], post, by rw [hsplit, List.append_assoc]; rfl, ?_, by simp [hlen],
          hat'⟩
        rintro rfl
        -- the last frame is final, so no pass continues after it
        obtain ⟨-, hlast⟩ := List.append_inj' (hsplit.symm.trans hfs) rfl
        obtain rfl : f = last := by simpa using hlast
        exact absurd (hopen hd) (by rw [hfin]; decide)
      · exact absurd (hp.symm.trans hstep) (by simp)

/-- A call keeps to the frames of a message exactly when each of them is readable where it
stands: its control frames are bare and its data frames are neither empty nor too long. -/
theorem synchronised_iff {fs : List Frame} (hm : OneMessage client fs)
    (hs : Feeds s (encodeAll fs ++ rest)) :
    Synchronised client max_size s fs rest ↔ AllReadable max_size fs := by
  constructor
  · rintro ⟨hheads, s', hmsg, -⟩
    have hpasses : fs.length ≤ s.input.length + 1 := by
      have h := length_le_encodeAll fs
      rw [hs.input, List.length_append]
      omega
    refine readable_of_message hm.wellFormed hm.chained hs hpasses
      ((WSRecvMessage_eq _ _).mp hmsg) fun pre f post es p hfs hd hr hlen hat => ?_
    -- the pass over a control frame ends behind its two bytes, which must be all of it
    have hf := hm.wellFormed f (hfs ▸ List.mem_append_right pre List.mem_cons_self)
    have hfeeds := hat.feeds
    rw [encodeAll_cons, List.append_assoc] at hfeeds
    obtain ⟨s₁, hp, h₁⟩ := recvPass_control max_size hf hd p.1 hfeeds
    have hnext := hheads (es ++ [⟨⟩]) (p.1, s₁) (.snoc hr hp)
    have hdrop : fs.drop (es ++ [()]).length = post := by
      rw [hfs, List.length_append, hlen, List.drop_append]
      simp
    rw [hdrop, h₁.input] at hnext
    have htail : f.tail = [] := by
      have h := congrArg List.length hnext
      rw [List.length_append] at h
      exact List.eq_nil_of_length_eq_zero (by omega)
    simp only [tail, List.append_eq_nil_iff] at htail
    constructor
    · cases hk : f.key with
      | none => rfl
      | some key =>
          have h4 := hf.key key hk
          have h0 : key = [] := by simpa [hk] using htail.1.2
          simp [h0] at h4
    · have h := congrArg List.length htail.2
      rw [length_body] at h
      exact List.eq_nil_of_length_eq_zero h
  · intro hok
    constructor
    · intro es p hr
      obtain ⟨pre, post, rfl, -, hlen, hat⟩ := heads_of_readable hm hs hok hr
      rw [← hlen, List.drop_left, hat.feeds.input]
    · obtain ⟨s', hmsg, h'⟩ := message_of_readable hm hs hok
      exact ⟨s', hmsg, h'.input⟩

theorem OneMessage.single {f : Frame} (hf : f.WellFormed client) (hd : f.isData = true)
    (hfin : f.fin = true) : OneMessage client [f] where
  wellFormed g hg := by rwa [List.mem_singleton.mp hg]
  chained pre g post h _ := by
    obtain ⟨rfl, rfl, rfl⟩ : pre = [] ∧ f = g ∧ post = [] := by
      cases pre with
      | nil => simpa using h
      | cons x pre => simp at h
    exact ⟨fun _ => rfl, fun h => absurd h (by decide)⟩
  ends := ⟨[], f, rfl, hd, hfin⟩

theorem OneMessage.control_cons {f : Frame} {fs : List Frame} (hf : f.WellFormed client)
    (hd : f.isData = false) (h : OneMessage client fs) : OneMessage client (f :: fs) where
  wellFormed g hg := by
    rcases List.mem_cons.mp hg with rfl | hg
    · exact hf
    · exact h.wellFormed g hg
  chained pre g post hfs hg := by
    cases pre with
    | nil =>
        obtain ⟨rfl, -⟩ := List.cons.inj hfs
        exact absurd hg (by rw [hd]; decide)
    | cons x pre =>
        obtain ⟨rfl, rfl⟩ := List.cons.inj hfs
        have hg' := h.chained pre g post rfl hg
        exact ⟨hg'.1, fun hany => hg'.2 (by simpa [hd] using hany)⟩
  ends := by
    obtain ⟨pre, g, rfl, hg⟩ := h.ends
    exact ⟨f :: pre, g, rfl, hg⟩

def textFrame : Frame := ⟨true, TEXT_FRAME, some [1, 2, 3, 4], [104]⟩

theorem textFrame_oneMessage : OneMessage false [textFrame] :=
  .single ⟨by decide, by decide, by decide, by decide, by decide⟩ rfl rfl

/-- A bare PONG before a text frame. -/
theorem synchronised_after_pong :
    Synchronised false 33554432 ⟨[0x8A, 0, 0x81, 0x81, 1, 2, 3, 4, 105], [], [], [], true⟩
        [⟨true, PONG, none, []⟩, textFrame] [] ↔
      AllReadable 33554432 [⟨true, PONG, none, []⟩, textFrame] :=
  synchronised_iff (.control_cons ⟨by decide, by decide, by decide, by decide, by decide⟩ rfl
    textFrame_oneMessage) ⟨⟨rfl, by decide, by decide⟩, by decide⟩

/-- A PING as a client must send it, masked: its key is left behind and read as frames. -/
theorem masked_ping_desynchronises :
    OneMessage false [⟨true, PING, some [1, 2, 3, 4], []⟩, textFrame] ∧
      ¬ Synchronised false 33554432
        ⟨encodeAll [⟨true, PING, some [1, 2, 3, 4], []⟩, textFrame], [], [], [], true⟩
        [⟨true, PING, some [1, 2, 3, 4], []⟩, textFrame] [] := by
  refine ⟨.control_cons ⟨by decide, by decide, by decide, by decide, by decide⟩ rfl
    textFrame_oneMessage, fun h => ?_⟩
  have hrun : (recvRuns false 33554432
      ⟨encodeAll [⟨true, PING, some [1, 2, 3, 4], []⟩, textFrame], [], [], [], true⟩).Run [()]
      (.start, ⟨[1, 2, 3, 4, 0x81, 0x81, 1, 2, 3, 4, 105], [], [0x8A, 0], [], true⟩) :=
    .snoc (.start rfl) (by rfl)
  exact absurd (h.heads _ _ hrun) (by decide)

end CIM.Http
