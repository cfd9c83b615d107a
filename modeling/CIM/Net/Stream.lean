import CIM.Net.Endian
import Mathlib.Data.List.Basic
import Mathlib.Tactic.Common

/-!
# `Stream::readFixSize` and `Stream::writeFixSize` over a socket

The transport decides how much each `recv` and `send` moves, or that it fails; the plans
`recvs` and `sends` are these decisions, and a call beyond its plan moves all it can.
-/
namespace CIM

structure Stream where
  input : List UInt8
  recvs : List (Option Nat)
  output : List UInt8
  sends : List (Option Nat)
  connected : Bool
  deriving DecidableEq, Repr

namespace Stream

/-- What the kernel moves in one call at most. -/
def maxTransfer : Nat := 0x7ffff000

/-- How many of `n` bytes the next call may move: `none` is an error, `some k` stands for `k+1`. -/
def transfer : List (Option Nat) → Nat → Option Nat
  | [], n => some (min n maxTransfer)
  | none :: _, _ => none
  | some k :: _, n => some (min (k + 1) (min n maxTransfer))

def read (n : Nat) (s : Stream) : Int × List UInt8 × Stream :=
  if s.connected then
    match transfer s.recvs n with
    | none => (-1, [], { s with recvs := s.recvs.tail })
    | some k =>
        ((s.input.take k).length, s.input.take k,
          { s with input := s.input.drop k, recvs := s.recvs.tail })
  else (-1, [], s)

def write (buf : List UInt8) (s : Stream) : Int × Stream :=
  if s.connected then
    match transfer s.sends buf.length with
    | none => (-1, { s with sends := s.sends.tail })
    | some k =>
        ((buf.take k).length,
          { s with output := s.output ++ buf.take k, sends := s.sends.tail })
  else (-1, s)

def close (s : Stream) : Stream := { s with connected := false }

/-- `while (left > 0)`: the early return, the bytes stored in the buffer, and the stream. A turn
that goes on has taken a byte, so the input's length bounds the turns. -/
def readLoop : Nat → Int → List UInt8 → Stream → Option Int × List UInt8 × Stream
  | turns+1, left, buffer, s =>
      if left > 0 then
        let (len, bs, s') := s.read left.toNat
        if len ≤ 0 then (some len, buffer, s')
        else readLoop turns (left - len) (buffer ++ bs) s'
      else (none, buffer, s)
  | 0, _, buffer, s => (none, buffer, s)

def writeLoop : Nat → Int → List UInt8 → Stream → Option Int × Stream
  | turns+1, left, buffer, s =>
      if left > 0 then
        let (len, s') := s.write (buffer.take left.toNat)
        if len ≤ 0 then (some len, s')
        else writeLoop turns (left - len) (buffer.drop len.toNat) s'
      else (none, s)
  | 0, _, _, s => (none, s)

variable {ε : Type}

/-- `int readFixSize(void* buffer, size_t length)`, with the bytes it stored. -/
def readFixSize (length : Nat) : EStateM ε Stream (Int × List UInt8) := fun s =>
  let (early, buffer, s') := readLoop (s.input.length + 1) (int64 length) [] s
  .ok (early.getD (int32 length), buffer) s'

def writeFixSize (buffer : List UInt8) : EStateM ε Stream Int := fun s =>
  let (early, s') := writeLoop (buffer.length + 1) (int64 buffer.length) buffer s
  .ok (early.getD (int32 buffer.length)) s'

/-- A transport that moves bytes in any amounts and does not fail. -/
structure Healthy (s : Stream) : Prop where
  connected : s.connected = true
  recvs : none ∉ s.recvs
  sends : none ∉ s.sends

/-- A healthy transport that will deliver exactly `bs`. -/
structure Feeds (s : Stream) (bs : List UInt8) : Prop where
  healthy : Healthy s
  input : s.input = bs

/-- A new connection over which `bs` will come, in transfers as large as they can be. -/
def fresh (bs : List UInt8) : Stream := ⟨bs, [], [], [], true⟩

theorem fresh_feeds (bs : List UInt8) : Feeds (fresh bs) bs :=
  ⟨⟨rfl, List.not_mem_nil, List.not_mem_nil⟩, rfl⟩

/-- From `s` to `s'` exactly the bytes `bs` have been put on the wire. -/
structure Put (s : Stream) (bs : List UInt8) (s' : Stream) : Prop where
  output : s'.output = s.output ++ bs
  input : s'.input = s.input

theorem Put.refl (s : Stream) : Put s [] s := ⟨(List.append_nil _).symm, rfl⟩

theorem Put.trans {s t u : Stream} {bs cs : List UInt8} (h : Put s bs t) (h' : Put t cs u) :
    Put s (bs ++ cs) u where
  output := by rw [h'.output, h.output, List.append_assoc]
  input := h'.input.trans h.input

theorem transfer_le {plan : List (Option Nat)} {n k : Nat} (h : transfer plan n = some k) :
    k ≤ n := by
  cases plan with
  | nil => simp only [transfer, Option.some.injEq] at h; omega
  | cons p plan =>
      cases p with
      | none => cases h
      | some j => simp only [transfer, Option.some.injEq] at h; omega

theorem transfer_healthy {plan : List (Option Nat)} (h : none ∉ plan) {n : Nat} (hn : 0 < n) :
    ∃ k, transfer plan n = some k ∧ 0 < k ∧ k ≤ n := by
  cases plan with
  | nil => exact ⟨_, rfl, by unfold maxTransfer; omega, by omega⟩
  | cons p plan =>
      cases p with
      | none => exact absurd List.mem_cons_self h
      | some j => exact ⟨_, rfl, by unfold maxTransfer; omega, by omega⟩

/-- One `recv`: some of the bytes that are there, or no byte and a result that is no length. -/
theorem read_took {s s' : Stream} {n : Nat} {len : Int} {bs : List UInt8}
    (h : s.read n = (len, bs, s')) :
    s.input = bs ++ s'.input ∧ bs.length ≤ n ∧ (len = bs.length ∨ len ≤ 0 ∧ bs = []) := by
  unfold read at h
  split at h
  · split at h
    · cases h
      exact ⟨rfl, Nat.zero_le _, .inr ⟨by decide, rfl⟩⟩
    · rename_i k hk
      cases h
      have hle := transfer_le hk
      refine ⟨(List.take_append_drop k _).symm, ?_, .inl rfl⟩
      rw [List.length_take]
      omega
  · cases h
    exact ⟨rfl, Nat.zero_le _, .inr ⟨by decide, rfl⟩⟩

theorem read_healthy {s : Stream} (h : Healthy s) {n : Nat} (hn : 0 < n) (hin : s.input ≠ []) :
    ∃ bs s', s.read n = ((bs.length : Int), bs, s') ∧ 0 < bs.length ∧ bs.length ≤ n ∧
      s.input = bs ++ s'.input ∧ Healthy s' := by
  obtain ⟨k, hk, hpos, hle⟩ := transfer_healthy h.recvs hn
  have hin := List.length_pos_of_ne_nil hin
  have hlen : (s.input.take k).length = min k s.input.length := List.length_take
  refine ⟨s.input.take k, { s with input := s.input.drop k, recvs := s.recvs.tail }, ?_,
    by omega, by omega, (List.take_append_drop k _).symm,
    h.connected, fun hm => h.recvs (List.mem_of_mem_tail hm), h.sends⟩
  simp only [read, h.connected, if_true, hk]

/-- A read where bytes are still to come. -/
theorem Feeds.read_some {s : Stream} {input : List UInt8} (h : Feeds s input) {n : Nat}
    (hin : input ≠ []) (hn : 0 < n) :
    ∃ bs tail s', s.read n = ((bs.length : Int), bs, s') ∧ bs ≠ [] ∧ bs.length ≤ n ∧
      input = bs ++ tail ∧ Feeds s' tail := by
  obtain ⟨bs, s', hr, hpos, hle, htook, hs'⟩ :=
    read_healthy h.healthy hn (by rw [h.input]; exact hin)
  exact ⟨bs, s'.input, s', hr, List.ne_nil_of_length_pos hpos, hle, h.input.symm.trans htook,
    hs', rfl⟩

theorem write_healthy {s : Stream} (h : Healthy s) {buf : List UInt8} (hn : buf ≠ []) :
    ∃ (k : Nat) (s' : Stream), s.write buf = ((k : Int), s') ∧ 0 < k ∧ k ≤ buf.length ∧
      Put s (buf.take k) s' ∧ Healthy s' := by
  obtain ⟨k, hk, hpos, hle⟩ := transfer_healthy h.sends (List.length_pos_of_ne_nil hn)
  refine ⟨k, { s with output := s.output ++ buf.take k, sends := s.sends.tail }, ?_,
    hpos, hle, ⟨rfl, rfl⟩, h.connected, h.recvs, fun hm => h.sends (List.mem_of_mem_tail hm)⟩
  simp only [write, h.connected, if_true, hk, List.length_take]
  rw [Nat.min_eq_left hle]

/-- Whatever the transport does, the loop stores the bytes it takes, and all of them unless it
returns early with a result that is no length. -/
theorem readLoop_took {turns : Nat} {left : Int} {buffer out : List UInt8} {s s' : Stream}
    {early : Option Int} (h : readLoop turns left buffer s = (early, out, s'))
    (hturns : s.input.length < turns) :
    ∃ bs, out = buffer ++ bs ∧ s.input = bs ++ s'.input ∧ bs.length ≤ left.toNat ∧
      (early = none ∧ bs.length = left.toNat ∨ ∃ len, early = some len ∧ len ≤ 0) := by
  induction turns generalizing left buffer s with
  | zero => omega
  | succ turns ih =>
      by_cases hleft : left > 0
      · obtain ⟨⟨len, bs, s₁⟩, hr⟩ : ∃ r, s.read left.toNat = r := ⟨_, rfl⟩
        obtain ⟨htook, hle, hlen⟩ := read_took hr
        simp only [readLoop, hleft, if_true, hr] at h
        split at h
        · rename_i hneg
          cases h
          obtain rfl : bs = [] := by
            rcases hlen with rfl | hlen
            · exact List.eq_nil_of_length_eq_zero (by omega)
            · exact hlen.2
          exact ⟨[], (List.append_nil _).symm, htook, Nat.zero_le _, .inr ⟨_, rfl, hneg⟩⟩
        · rename_i hpos
          obtain rfl : len = bs.length := by
            rcases hlen with hlen | hlen
            · exact hlen
            · exact absurd hlen.1 hpos
          have hin := congrArg List.length htook
          rw [List.length_append] at hin
          obtain ⟨bs', rfl, htook', hle', hend⟩ := ih h (by omega)
          refine ⟨bs ++ bs', List.append_assoc _ _ _, by rw [htook, htook', List.append_assoc], ?_, ?_⟩
          · rw [List.length_append]; omega
          · rcases hend with ⟨rfl, hlen'⟩ | hend
            · refine .inl ⟨rfl, ?_⟩
              rw [List.length_append]; omega
            · exact .inr hend
      · simp only [readLoop, hleft, if_false] at h
        cases h
        exact ⟨[], (List.append_nil _).symm, rfl, Nat.zero_le _,
          .inl ⟨rfl, by simp only [List.length_nil]; omega⟩⟩

theorem Feeds.readLoop {turns : Nat} {bs rest : List UInt8} (buffer : List UInt8) {s : Stream}
    (h : Feeds s (bs ++ rest)) (hturns : bs.length < turns) :
    ∃ s', readLoop turns bs.length buffer s = (none, buffer ++ bs, s') ∧ Feeds s' rest := by
  induction turns generalizing bs buffer s with
  | zero => omega
  | succ turns ih =>
      by_cases hbs : bs = []
      · subst hbs
        exact ⟨s, by simp [Stream.readLoop], h⟩
      · have hpos := List.length_pos_of_ne_nil hbs
        obtain ⟨cs, s₁, hr, hcs, hle, htook, h₁⟩ :=
          read_healthy h.healthy hpos
            (by rw [h.input]; exact List.append_ne_nil_of_left_ne_nil hbs rest)
        have happ : cs ++ s₁.input = bs ++ rest := htook.symm.trans h.input
        obtain ⟨ds, rfl⟩ : cs <+: bs :=
          List.prefix_of_prefix_length_le ⟨_, rfl⟩ ⟨rest, happ.symm⟩ hle
        rw [List.append_assoc] at happ
        rw [List.length_append] at hturns hr ⊢
        obtain ⟨s', hl, h'⟩ :=
          ih (buffer ++ cs) ⟨h₁, List.append_cancel_left happ⟩ (by omega)
        refine ⟨s', ?_, h'⟩
        have hleft : ((cs.length + ds.length : Nat) : Int) - cs.length = ds.length := by omega
        simp only [Stream.readLoop, Int.toNat_natCast, hr, hleft, hl, List.append_assoc]
        rw [if_pos (by omega), if_neg (by omega)]

theorem writeLoop_healthy {turns : Nat} {buffer : List UInt8} {s : Stream} (h : Healthy s)
    (hturns : buffer.length < turns) :
    ∃ s', writeLoop turns buffer.length buffer s = (none, s') ∧ Put s buffer s' ∧ Healthy s' := by
  induction turns generalizing buffer s with
  | zero => omega
  | succ turns ih =>
      by_cases hb : buffer = []
      · subst hb
        exact ⟨s, by simp [writeLoop], .refl s, h⟩
      · obtain ⟨k, s₁, hw, hpos, hle, hput, h₁⟩ := write_healthy h hb
        have hlen : (buffer.drop k).length = buffer.length - k := List.length_drop
        have hturns' : (buffer.drop k).length < turns := by omega
        obtain ⟨s', hl, hput', h'⟩ := ih h₁ hturns'
        refine ⟨s', ?_, List.take_append_drop k buffer ▸ hput.trans hput', h'⟩
        have hleft : (buffer.length : Int) - k = (buffer.drop k).length := by omega
        simp only [writeLoop, Int.toNat_natCast, List.take_length, hw, hleft, hl]
        rw [if_pos (by omega), if_neg (by omega)]

theorem Feeds.readFixSize {bs rest : List UInt8} {s : Stream} (h : Feeds s (bs ++ rest))
    (hlen : bs.length < 9223372036854775808) :
    ∃ s', readFixSize (ε := ε) bs.length s = .ok (int32 bs.length, bs) s' ∧ Feeds s' rest := by
  have hleft : int64 bs.length = bs.length := by simp only [int64, uint64]; omega
  have hturns : bs.length < s.input.length + 1 := by rw [h.input, List.length_append]; omega
  obtain ⟨s', hl, hs'⟩ := h.readLoop [] hturns
  refine ⟨s', ?_, hs'⟩
  simp only [Stream.readFixSize, hleft, hl, List.nil_append, Option.getD_none]

theorem writeFixSize_healthy {s : Stream} (h : Healthy s) (buffer : List UInt8)
    (hlen : buffer.length < 9223372036854775808) :
    ∃ s', writeFixSize (ε := ε) buffer s = .ok (int32 buffer.length) s' ∧
      Put s buffer s' ∧ Healthy s' := by
  have hleft : int64 buffer.length = buffer.length := by simp only [int64, uint64]; omega
  obtain ⟨s', hl, hs'⟩ := writeLoop_healthy h (Nat.lt_succ_self buffer.length)
  refine ⟨s', ?_, hs'⟩
  simp only [writeFixSize, hleft, hl, Option.getD_none]

/-- `readFixSize` on any transport: the bytes it stored, never more than asked for, and its
result, which is the length as an `int` or no length at all. -/
theorem readFixSize_took (length : Nat) (s : Stream) :
    ∃ rt bs s', readFixSize (ε := ε) length s = .ok (rt, bs) s' ∧ s.input = bs ++ s'.input ∧
      bs.length ≤ (int64 length).toNat ∧
      (rt = int32 length ∧ bs.length = (int64 length).toNat ∨ rt ≤ 0) := by
  obtain ⟨⟨early, out, s'⟩, hl⟩ :
      ∃ r, readLoop (s.input.length + 1) (int64 length) [] s = r := ⟨_, rfl⟩
  obtain ⟨_, rfl, htook, hle, hend⟩ := readLoop_took hl (Nat.lt_succ_self _)
  refine ⟨early.getD (int32 length), _, s', ?_, htook, hle, ?_⟩
  · simp only [readFixSize, hl]
  · rcases hend with ⟨rfl, hlen⟩ | ⟨len, rfl, hneg⟩
    · exact .inl ⟨rfl, hlen⟩
    · exact .inr hneg

end Stream

end CIM
