import CIM.Http.WsFrame
import CIM.Lib.System

/-!
# The passes of `WSRecvMessage`

`recvRuns` is the loop of one call as a transition system: its states are the tops of the loop.
Whatever arrives, the length counter stands to the data as `Counts` says, which settles when a
payload read stays inside the data buffer.
-/
namespace CIM.Http

open WSFrameHead Exec Transition CIM.Stream

/-- One call of `WSRecvMessage` on `s`, from the top of the loop to the top of the loop. -/
def recvRuns (client : Bool) (max_size : UInt32) (s : Stream) :
    System (RecvState × Stream) Unit where
  init p := p = (.start, s)
  step p _ p' := recvPass client max_size p.1 p.2 = .ok (.inl p'.1) p'.2

variable {client : Bool} {max_size : UInt32} {s : Stream}

/-- The size check is passed by every head that goes on to a payload read. -/
theorem recvHead_some {st : RecvState} {head : DataHead} {s s' : Stream}
    (h : recvHead client max_size st s = .ok (some head) s') :
    uint64 (st.cur_len + head.length) < max_size.toNat := by
  obtain ⟨b1, s₁, -, h⟩ := of_bind_ok h
  obtain ⟨b2, s₂, -, h⟩ := of_bind_ok h
  dsimp only at h
  split at h
  · obtain ⟨rt, s₃, -, h⟩ := of_bind_ok h
    split at h <;> cases h
  · split at h
    · cases h
    · split at h
      · split at h
        · cases h
        · obtain ⟨length, s₃, -, h⟩ := of_bind_ok h
          split at h
          · cases h
          · rename_i hlt
            obtain ⟨key, s₄, -, h⟩ := of_bind_ok h
            cases h
            exact Nat.lt_of_not_le hlt
      · cases h

theorem recvPass_counts {st st' : RecvState} {s s' : Stream} (hst : st.Counts)
    (h : recvPass client max_size st s = .ok (.inl st') s') : st'.Counts := by
  have hmax : max_size.toNat < 4294967296 := max_size.toNat_lt
  obtain ⟨head, s₁, hhead, h⟩ := of_bind_ok h
  cases head with
  | none =>
      cases h
      exact hst
  | some head =>
      have hlt := recvHead_some hhead
      obtain ⟨-, -, hnext⟩ := recvPayload_ok h
      obtain ⟨hdata, hcur⟩ := hnext st' rfl
      constructor
      · rw [hcur, hdata]
        simp only [int32, uint32, uint64]
        omega
      · omega

theorem counts_start : RecvState.start.Counts := ⟨by decide, by decide⟩

theorem run_counts {es : List Unit} {p : RecvState × Stream}
    (hr : (recvRuns client max_size s).Run es p) : p.1.Counts := by
  refine hr.invariant (I := fun p => p.1.Counts) ?_ ?_
  · rintro p rfl
    exact counts_start
  · intro p _ p' hp hstep
    exact recvPass_counts hp hstep

/-- The payload read stays in the data buffer, with no addition taken modulo a power of two. -/
structure InBuffer (max_size : UInt32) (st : RecvState) (head : DataHead) : Prop where
  offset : 0 ≤ st.cur_len
  limit : st.cur_len + head.length < max_size.toNat
  room : st.cur_len + head.length ≤
    (resize st.data (uint64 (st.cur_len + head.length))).length

/-- Of the payload reads that any sequence of frames leads to, exactly those are in the buffer
whose counter is still a length and whose length field does not wrap the sum. -/
theorem payload_in_buffer_iff {es : List Unit} {st : RecvState} {s₁ s₂ : Stream}
    {head : DataHead} (hr : (recvRuns client max_size s).Run es (st, s₁))
    (hh : recvHead client max_size st s₁ = .ok (some head) s₂) :
    InBuffer max_size st head ↔
      st.data.length < 2147483648 ∧ st.data.length + head.length < 18446744073709551616 := by
  have hmax : max_size.toNat < 4294967296 := max_size.toNat_lt
  have hguard := recvHead_some hh
  obtain ⟨hcur, hdata⟩ := run_counts hr
  simp only at hcur hdata
  constructor
  · rintro ⟨hoff, hlimit, -⟩
    have hlt : st.data.length < 2147483648 := by
      rw [hcur] at hoff
      simp only [int32, uint32] at hoff
      omega
    rw [hcur, int32_of_lt hlt] at hlimit
    omega
  · rintro ⟨hlt, hsum⟩
    rw [int32_of_lt hlt] at hcur
    have h64 : uint64 (st.cur_len + head.length) = st.data.length + head.length := by
      rw [hcur]
      simp only [uint64]
      omega
    refine ⟨by omega, by omega, ?_⟩
    rw [length_resize, h64]
    omega

/-- A text frame with one byte of payload, read by the server. -/
theorem payload_in_buffer_text :
    InBuffer 33554432 .start ⟨true, 1, true, 1, [1, 2, 3, 4]⟩ ↔
      RecvState.start.data.length < 2147483648 ∧
        RecvState.start.data.length + 1 < 18446744073709551616 := by
  have hr : (recvRuns false 33554432 ⟨[0x81, 0x81, 1, 2, 3, 4, 104], [], [], [], true⟩).Run []
      (.start, ⟨[0x81, 0x81, 1, 2, 3, 4, 104], [], [], [], true⟩) := .start rfl
  have hh : recvHead false 33554432 .start ⟨[0x81, 0x81, 1, 2, 3, 4, 104], [], [], [], true⟩ =
      .ok (some ⟨true, 1, true, 1, [1, 2, 3, 4]⟩) ⟨[104], [], [], [], true⟩ := by rfl
  exact payload_in_buffer_iff hr hh

/-- A second fragment whose length field is `2^64 - 1` wraps the sum to `0`: it passes the size
check, and the read is to start behind the end of the emptied buffer. -/
theorem payload_length_wraps : ∃ st s₁ head s₂,
    (recvRuns false 33554432 ⟨[0x01, 0x81, 0, 0, 0, 0, 104, 0x80, 0xFF, 0xFF, 0xFF, 0xFF, 0xFF,
      0xFF, 0xFF, 0xFF, 0xFF, 0, 0, 0, 0], [], [], [], true⟩).Reachable (st, s₁) ∧
    recvHead false 33554432 st s₁ = .ok (some head) s₂ ∧ ¬ InBuffer 33554432 st head := by
  refine ⟨⟨1, [104], 1⟩, ⟨[0x80, 0xFF, 0xFF, 0xFF, 0xFF, 0xFF, 0xFF, 0xFF, 0xFF, 0xFF, 0, 0, 0, 0],
    [], [], [], true⟩, ⟨true, 0, true, 18446744073709551615, [0, 0, 0, 0]⟩,
    ⟨[], [], [], [], true⟩, ⟨[⟨⟩], ?_⟩, by rfl, ?_⟩
  · exact .snoc (.start rfl) (by rfl)
  · rintro ⟨-, hlimit, -⟩
    exact absurd hlimit (by decide)

end CIM.Http
