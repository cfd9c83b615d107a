import CIM.Net.SocketStream
import Mathlib.Algebra.Order.BigOperators.Group.List
import Mathlib.Data.List.Infix

/-!
# `ZlibStream`

zlib itself is a parameter: a `Codec` is one of its streams, and `Codec.Contract` what its manual
says of `deflate` and `inflate`. Both process as much as they can and stop when the input is empty
or the output buffer is full, which is all that the buffer loop of `encode` and `decode` needs.
-/
namespace CIM

open CIM.ByteArray Exec

def Z_OK : Int := 0
def Z_STREAM_ERROR : Int := -2

/-- What one call leaves: its result, the bytes it stored, the input it did not take. -/
structure Reply (σ : Type) where
  ret : Int
  out : List UInt8
  next_in : List UInt8
  state : σ

/-- A `z_stream` with its function, called with `Z_FINISH` or `Z_NO_FLUSH`, the input and
`avail_out`. -/
structure Codec where
  State : Type
  init : State
  call : State → Bool → List UInt8 → Nat → Reply State

/-- `Rep` relates a state to all it has taken and all it has stored. While what comes in is
accepted, a call is no error, and one that leaves room in its buffer has settled what it owes. -/
structure Codec.Contract (C : Codec) (Accepts : List UInt8 → Prop)
    (Settled : Bool → List UInt8 → List UInt8 → Prop) where
  Rep : C.State → List UInt8 → List UInt8 → Prop
  bound : List UInt8 → Nat
  init : Rep C.init [] []
  ret : ∀ {σ x y} finish i n, Rep σ x y → Accepts (x ++ i) → 0 < n →
    (C.call σ finish i n).ret ≠ Z_STREAM_ERROR
  out_le : ∀ {σ x y} finish i n, Rep σ x y → Accepts (x ++ i) → 0 < n →
    (C.call σ finish i n).out.length ≤ n
  bounded : ∀ {σ x y} finish i n, Rep σ x y → Accepts (x ++ i) → 0 < n →
    (y ++ (C.call σ finish i n).out).length ≤ bound (x ++ i)
  next : ∀ {σ x y} finish i n, Rep σ x y → Accepts (x ++ i) → 0 < n →
    ∃ taken, i = taken ++ (C.call σ finish i n).next_in ∧
      Rep (C.call σ finish i n).state (x ++ taken) (y ++ (C.call σ finish i n).out)
  settled : ∀ {σ x y} finish i n, Rep σ x y → Accepts (x ++ i) → 0 < n →
    (C.call σ finish i n).out.length < n →
    (C.call σ finish i n).next_in = [] ∧
      Settled finish (x ++ i) (y ++ (C.call σ finish i n).out)

/-- `m_buffs` with the newest buffer first. -/
structure ZlibStream (C : Codec) where
  state : C.State
  buffs : List (List UInt8)

namespace ZlibStream

inductive Halt where
  | streamError
  | turns

abbrev ZlibM (C : Codec) := EStateM Halt (ZlibStream C)

variable {C : Codec}

/-- `m_buffSize`, whose default no caller changes. -/
def buffSize : Nat := 4096

def create (C : Codec) : ZlibStream C := ⟨C.init, []⟩

/-- The buffer to store to, with those before it. -/
def back : List (List UInt8) → List UInt8 × List (List UInt8)
  | ivc :: buffs => if ivc.length ≠ buffSize then (ivc, buffs) else ([], ivc :: buffs)
  | [] => ([], [])

/-- `do … while (m_zstream.avail_out == 0)`, in at most the given number of turns. -/
def fillLoop (finish : Bool) : Nat → List UInt8 → ZlibM C Unit
  | 0, _ => throw .turns
  | turns+1, next_in => do
      let zs ← get
      let (ivc, buffs) := back zs.buffs
      let reply := C.call zs.state finish next_in (buffSize - ivc.length)
      if reply.ret = Z_STREAM_ERROR then throw .streamError
      else
        set (⟨reply.state, (ivc ++ reply.out) :: buffs⟩ : ZlibStream C)
        if buffSize - ivc.length - reply.out.length = 0 then
          fillLoop finish turns reply.next_in
        else return ⟨⟩

/-- `encode` and `decode`, which differ only in the function of zlib they call. -/
def code (turns : Nat) (finish : Bool) : List (List UInt8) → ZlibM C Unit
  | [] => return ⟨⟩
  | v :: vs => do
      fillLoop (finish && vs.isEmpty) turns v
      code turns finish vs

/-- `flush()`: an empty vector with `finish`. -/
def flush (turns : Nat) : ZlibM C Unit := code turns true [[]]

def contents (zs : ZlibStream C) : List UInt8 := zs.buffs.reverse.flatten

def writeAll : List (List UInt8) → ByteArrayM Unit
  | [] => return ⟨⟩
  | buff :: buffs => do
      write buff
      writeAll buffs

/-- The memory behind each of the vectors. -/
def pieces (nodes : List Node) (iovs : List Iovec) : List (List UInt8) :=
  iovs.map fun iov => gather nodes [iov]

variable {Accepts : List UInt8 → Prop} {Settled : Bool → List UInt8 → List UInt8 → Prop}

/-- The stream has taken `x`, and its buffers hold all it has stored, `y`. -/
structure Coded (K : C.Contract Accepts Settled) (zs : ZlibStream C) (x y : List UInt8) : Prop where
  rep : K.Rep zs.state x y
  contents : zs.contents = y
  buffs_le : ∀ b ∈ zs.buffs, b.length ≤ buffSize

theorem back_spec {buffs : List (List UInt8)} (h : ∀ b ∈ buffs, b.length ≤ buffSize) :
    (back buffs).1.length < buffSize ∧
      (back buffs).2.reverse.flatten ++ (back buffs).1 = buffs.reverse.flatten ∧
      ∀ b ∈ (back buffs).2, b.length ≤ buffSize := by
  cases buffs with
  | nil => exact ⟨by decide, rfl, h⟩
  | cons ivc buffs =>
      by_cases hfull : ivc.length = buffSize
      · simp only [back, hfull, ne_eq, not_true, if_false]
        exact ⟨by decide, by simp, h⟩
      · simp only [back, ne_eq, hfull, not_false_iff, if_true]
        exact ⟨Nat.lt_of_le_of_ne (h ivc List.mem_cons_self) hfull, by simp,
          fun b hb => h b (List.mem_cons_of_mem ivc hb)⟩

/-- The stream behind one turn. -/
def turned (zs : ZlibStream C) (reply : Reply C.State) : ZlibStream C :=
  ⟨reply.state, ((back zs.buffs).1 ++ reply.out) :: (back zs.buffs).2⟩

theorem contents_turned {zs : ZlibStream C} (h : ∀ b ∈ zs.buffs, b.length ≤ buffSize)
    (reply : Reply C.State) : (turned zs reply).contents = zs.contents ++ reply.out := by
  obtain ⟨-, hback, -⟩ := back_spec h
  simp only [turned, ZlibStream.contents]
  rw [← hback]
  simp

theorem buffs_turned {zs : ZlibStream C} (h : ∀ b ∈ zs.buffs, b.length ≤ buffSize)
    {reply : Reply C.State} (hout : reply.out.length ≤ buffSize - (back zs.buffs).1.length) :
    ∀ b ∈ (turned zs reply).buffs, b.length ≤ buffSize := by
  obtain ⟨hroom, -, hbuffs⟩ := back_spec h
  intro b hb
  rcases List.mem_cons.mp hb with rfl | hb
  · rw [List.length_append]
    omega
  · exact hbuffs b hb

theorem fillLoop_succ {zs : ZlibStream C} {finish : Bool} {i : List UInt8}
    {reply : Reply C.State} (turns : Nat)
    (hreply : C.call zs.state finish i (buffSize - (back zs.buffs).1.length) = reply)
    (hret : reply.ret ≠ Z_STREAM_ERROR) :
    fillLoop finish (turns + 1) i zs =
      if buffSize - (back zs.buffs).1.length - reply.out.length = 0 then
        fillLoop finish turns reply.next_in (turned zs reply)
      else .ok ⟨⟩ (turned zs reply) := by
  simp only [fillLoop, bind_apply, get_apply, hreply, if_neg hret, set_apply, turned]
  split <;> rfl

/-- A byte array to be read from its start, holding `bs`. -/
structure Ready (ba : ByteArray) (bs : List UInt8) : Prop where
  unread : Unread 4096 ba bs
  position : ba.position = 0

theorem Ready.dataSize {ba : ByteArray} {bs : List UInt8} (h : Ready ba bs) :
    ba.dataSize = bs.length := by
  rw [h.unread.dataSize, h.position, Nat.zero_add]

theorem exists_bound (f : List UInt8 → Nat) (bs : List UInt8) :
    ∃ n, ∀ c, c <+: bs → f c < n := by
  refine ⟨(bs.inits.map f).sum + 1, fun c hc => Nat.lt_succ_of_le ?_⟩
  exact List.single_le_sum (fun _ _ => Nat.zero_le _) _
    (List.mem_map_of_mem ((List.mem_inits c bs).mpr hc))

end ZlibStream

end CIM
