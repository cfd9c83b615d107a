import CIM.Net.ByteArrayFlat
import CIM.Lib.System

/-!
# Runs of operations on a `ByteArray`

An operation settles with a result or with an exception; using a null node is neither, and then
no step is taken. `machine` runs the operations on the chain of blocks, `flatMachine` on the
flat array, and every run of the first one is a run of the second one with the same results.
-/
namespace CIM

open Transition Exec

inductive Op where
  | write (buf : List UInt8)
  | read (n : Nat)
  | clear
  | setPosition (v : Nat)
  /-- `getWriteBuffers(iovs, n)`, and the kernel receives `bytes` into the vectors. -/
  | receive (n : Nat) (bytes : List UInt8)

inductive Outcome where
  | done
  | bytes (bs : List UInt8)
  | thrown (what : String)
  deriving DecidableEq

namespace ByteArray

def call : Op → ByteArrayM Outcome
  | .write buf => do
      write buf
      return .done
  | .read n => do
      return .bytes (← read n)
  | .clear => do
      clear
      return .done
  | .setPosition v => do
      setPosition v
      return .done
  | .receive n bytes => do
      let iovs ← getWriteBuffers n
      modify (fill iovs bytes)
      return .done

def settle : EStateM.Result Fault ByteArray Outcome → Option (Outcome × ByteArray)
  | .ok out ba => some (out, ba)
  | .error (.outOfRange what) ba => some (.thrown what, ba)
  | .error .nullNode _ => none

/-- The kernel never stores more than the vectors hold. -/
def Fits : Op → Prop
  | .receive n bytes => bytes.length ≤ n
  | _ => True

/-- The operations that a caller keeping every `setPosition` below the capacity makes. -/
def Admissible (ba : ByteArray) : Op → Prop
  | .setPosition v => v < ba.capacity
  | op => Fits op

def machine (base : Nat) (arena : Nat → Nat → UInt8) : System ByteArray (Op × Outcome) where
  init ba := ba = new base arena
  step ba e ba' := Fits e.1 ∧ settle (call e.1 ba) = some (e.2, ba')

def Reachable (base : Nat) (arena : Nat → Nat → UInt8) (ba : ByteArray) : Prop :=
  (machine base arena).Reachable ba

end ByteArray

namespace Flat

/-- The operations on the flat array; `fresh` are the bytes of new nodes, which may be any. -/
inductive Step (base : Nat) : Flat → Op × Outcome → Flat → Prop
  | write {f : Flat} (fresh buf) :
      fresh.length = growth base (f.storage.length - f.cursor) buf.length →
      Step base f (.write buf, .done) (f.write fresh buf)
  | read {f : Flat} {n} : n ≤ f.size - f.cursor →
      Step base f (.read n, .bytes (Patch.slice f.storage f.cursor n)) (f.advance n)
  | short {f : Flat} {n} : f.size - f.cursor < n →
      Step base f (.read n, .thrown "not enough len") f
  | clear {f : Flat} : Step base f (.clear, .done) (f.clear base)
  | setPosition {f : Flat} {v} : v < f.storage.length →
      Step base f (.setPosition v, .done) (f.seek v)
  | receive {f : Flat} (fresh) {n bytes} :
      fresh.length = growth base (f.storage.length - f.cursor) n → bytes.length ≤ n →
      Step base f (.receive n bytes, .done)
        { f with storage := Patch.patch (f.storage ++ fresh) f.cursor bytes }

end Flat

def flatMachine (base : Nat) : System Flat (Op × Outcome) where
  init f := f.storage.length = base ∧ f.size = 0 ∧ f.cursor = 0
  step := Flat.Step base

namespace ByteArray

/-- What holds between the fields after every operation. -/
structure InBounds (base : Nat) (ba : ByteArray) : Prop where
  position_le : ba.position ≤ ba.dataSize
  dataSize_le : ba.dataSize ≤ ba.capacity
  capacity : ba.capacity = base * ba.nodes.length
  cur : ba.curNode? = if ba.position = ba.capacity then none else some (ba.position / base)

theorem Linked.inBounds {ba : ByteArray} (h : Linked ba) : InBounds ba.baseSize ba where
  position_le := h.position_le
  dataSize_le := h.dataSize_le
  capacity := h.capacity
  cur := by
    unfold curNode?
    by_cases he : ba.position = ba.capacity
    · have hcur : ba.curNode = ba.nodes.length := by
        rw [h.cur, he, h.capacity, Nat.mul_div_cancel_left _ h.base_pos]
      simp [he, hcur]
    · have hle := Nat.le_trans h.position_le h.dataSize_le
      have hlt := h.cur_lt (by omega)
      simp [he, hlt, ← h.cur]

/-- A `ByteArray` and the flat array it stands for. -/
structure Represents (base : Nat) (ba : ByteArray) (f : Flat) : Prop where
  linked : Linked ba
  base_eq : ba.baseSize = base
  flat_eq : flat ba = f

theorem Keeps.represents {base : Nat} {ba ba' : ByteArray} {f : Flat} (k : Keeps ba ba')
    (hb : ba.baseSize = base) (h : Linked ba') (hf : flat ba' = f) : Represents base ba' f :=
  ⟨h, k.base.trans hb, hf⟩

theorem Linked.remaining {ba : ByteArray} (h : Linked ba) :
    (flat ba).storage.length - (flat ba).cursor = ba.getRemainingCapacity := by
  simp only [flat, h.length_storage, getRemainingCapacity]

/-- Every admissible operation settles, and as the flat array says. -/
theorem call_spec {base : Nat} {ba : ByteArray} (h : Linked ba) (hb : ba.baseSize = base) (op : Op)
    (ha : Admissible ba op) :
    ∃ out ba' f, settle (call op ba) = some (out, ba') ∧ Flat.Step base (flat ba) (op, out) f ∧
      Represents base ba' f := by
  cases op with
  | write buf =>
      obtain ⟨fresh, ba', hw, hl, hk, hfresh, hflat⟩ := write_spec h buf
      refine ⟨.done, ba', _, ?_, .write fresh buf ?_, hk.represents hb hl hflat⟩
      · simp only [call, bind_apply, hw, pure_apply, settle]
      · rw [h.remaining, hfresh, hb]
  | read n =>
      by_cases hn : n ≤ ba.getReadSize
      · obtain ⟨ba', hr, hl, hk, hflat⟩ := read_spec h hn
        refine ⟨_, ba', _, ?_, .read hn, hk.represents hb hl hflat⟩
        simp only [call, bind_apply, hr, pure_apply, settle]
        rfl
      · refine ⟨_, ba, _, ?_, .short (Nat.lt_of_not_le hn), h, hb, rfl⟩
        simp only [call, bind_apply, read_short (Nat.lt_of_not_le hn), settle]
  | clear =>
      obtain ⟨ba', hc, hl, hk, hflat⟩ := clear_spec h
      refine ⟨.done, ba', _, ?_, .clear, hk.represents hb hl (hb ▸ hflat)⟩
      simp only [call, bind_apply, hc, pure_apply, settle]
  | setPosition v =>
      obtain ⟨ba', hs, hl, hk, -, hflat⟩ := setPosition_spec h ha
      refine ⟨.done, ba', _, ?_, .setPosition ?_, hk.represents hb hl hflat⟩
      · simp only [call, bind_apply, hs, pure_apply, settle]
      · simp only [flat, h.length_storage]
        exact ha
  | receive n bytes =>
      obtain ⟨fresh, iovs, ba', hg, -, hfresh, -, hfill⟩ := getWriteBuffers_spec h n
      obtain ⟨hl, hk, hflat⟩ := hfill bytes ha
      refine ⟨.done, fill iovs bytes ba', _, ?_, .receive fresh ?_ ha,
        hk.represents hb hl hflat⟩
      · simp only [call, bind_apply, hg, modify_apply, pure_apply, settle]
      · rw [h.remaining, hfresh, hb]

/-- Runs in which every `setPosition` stays below the capacity. -/
def admissibleRuns (base : Nat) (arena : Nat → Nat → UInt8) : System ByteArray (Op × Outcome) :=
  (machine base arena).restrict fun ba e => Admissible ba e.1

theorem snoc_call {base : Nat} {arena : Nat → Nat → UInt8} {es : List (Op × Outcome)}
    {ba ba' : ByteArray} {out : Outcome} (hr : (admissibleRuns base arena).Run es ba) (op : Op)
    (ha : Admissible ba op) (hs : settle (call op ba) = some (out, ba')) :
    (admissibleRuns base arena).Run (es ++ [(op, out)]) ba' := by
  have hfits : Fits op := by
    cases op with
    | receive n bytes => exact ha
    | _ => trivial
  exact .snoc hr ⟨ha, hfits, hs⟩

/-- After any sequence of operations the chain stands for the flat array after the same
operations with the same results, its fields agree, and the next operation settles too. -/
theorem run_refines_flat {base : Nat} (hb : 1 ≤ base) {arena : Nat → Nat → UInt8}
    {es : List (Op × Outcome)} {ba : ByteArray} (hr : (admissibleRuns base arena).Run es ba) :
    (flatMachine base).Run es (flat ba) ∧ InBounds base ba ∧
      ∀ op, Admissible ba op → ∃ out ba', (admissibleRuns base arena).Run (es ++ [(op, out)]) ba' := by
  have hinit : ∀ ba, (admissibleRuns base arena).init ba →
      ∃ f, (flatMachine base).init f ∧ Represents base ba f := by
    rintro ba rfl
    exact ⟨_, ⟨by simp [flat, new, newNode, storage], rfl, rfl⟩, new_linked hb arena, rfl, rfl⟩
  have hstep : ∀ ba e ba' f, Represents base ba f → (admissibleRuns base arena).step ba e ba' →
      ∃ f', (flatMachine base).step f e f' ∧ Represents base ba' f' := by
    rintro ba ⟨op, out⟩ ba' f ⟨hl, hbase, rfl⟩ ⟨ha, -, hs⟩
    obtain ⟨out', b, f', hs', hflat, hrep⟩ := call_spec hl hbase op ha
    obtain ⟨rfl, rfl⟩ : out' = out ∧ b = ba' := by
      simpa only [Option.some.injEq, Prod.mk.injEq] using hs'.symm.trans hs
    exact ⟨f', hflat, hrep⟩
  obtain ⟨f, hf, hl, hbase, rfl⟩ := hr.simulation hinit hstep
  refine ⟨hf, hbase ▸ hl.inBounds, fun op ha => ?_⟩
  obtain ⟨out, ba', -, hs, -⟩ := call_spec hl hbase op ha
  exact ⟨out, ba', snoc_call hr op ha hs⟩

/-- Three bytes over two nodes of two bytes, and two of them read back across the boundary. -/
theorem run_refines_flat_across_nodes : ∃ ba,
    (flatMachine 2).Run [(.write [1, 2, 3], .done), (.setPosition 1, .done),
      (.read 2, .bytes [2, 3])] (flat ba) ∧ InBounds 2 ba := by
  have h0 : (admissibleRuns 2 fun _ _ => 0).Run [] (new 2 fun _ _ => 0) := .start rfl
  have h1 := snoc_call h0 (.write [1, 2, 3]) (by trivial) rfl
  have h2 := snoc_call h1 (.setPosition 1) (Nat.le_of_ble_eq_true rfl) rfl
  have h3 := snoc_call h2 (.read 2) (by trivial) rfl
  have h := run_refines_flat (by decide) h3
  exact ⟨_, h.1, h.2.1⟩

/-- Whatever the bounds its calls used, a reachable `ByteArray` is linked: a `setPosition` that
leaves the chain has no next state, and one that throws changes nothing. -/
theorem reachable_linked {base : Nat} (hb : 1 ≤ base) {arena : Nat → Nat → UInt8} {ba : ByteArray}
    (hr : Reachable base arena ba) : Linked ba ∧ ba.baseSize = base := by
  obtain ⟨es, hrun⟩ := hr
  refine hrun.invariant (I := fun ba => Linked ba ∧ ba.baseSize = base) ?_ ?_
  · rintro ba rfl
    exact ⟨new_linked hb arena, rfl⟩
  · rintro ba ⟨op, out⟩ ba' ⟨hl, hbase⟩ ⟨hfits, hs⟩
    by_cases ha : Admissible ba op
    · obtain ⟨out', b, f, hs', -, hrep⟩ := call_spec hl hbase op ha
      obtain ⟨rfl, rfl⟩ : out' = out ∧ b = ba' := by
        simpa only [Option.some.injEq, Prod.mk.injEq] using hs'.symm.trans hs
      exact ⟨hrep.linked, hrep.base_eq⟩
    · -- only a position at or beyond the capacity is not admissible
      cases op with
      | setPosition v =>
          rcases Nat.eq_or_lt_of_le (Nat.le_of_not_lt ha) with rfl | hlt
          · obtain ⟨b, hc⟩ := setPosition_capacity hl
            simp [call, hc, settle] at hs
          · simp only [call, bind_apply, setPosition_beyond hlt, settle, Option.some.injEq,
              Prod.mk.injEq] at hs
            exact hs.2 ▸ ⟨hl, hbase⟩
      | _ => exact absurd hfits ha

/-- `setPosition(v)` completes and leaves the position, the size and the current node right. -/
def Lands (base : Nat) (ba : ByteArray) (v : Nat) : Prop :=
  ∃ ba', setPosition v ba = .ok ⟨⟩ ba' ∧ ba'.position = v ∧ ba'.dataSize = max ba.dataSize v ∧
    ba'.curNode? = if v = ba'.capacity then none else some (v / base)

/-- Of the positions that pass the bound check, exactly those below the capacity are reached. -/
theorem setPosition_lands_iff {base : Nat} (hb : 1 ≤ base) {arena : Nat → Nat → UInt8}
    {ba : ByteArray} (hr : Reachable base arena ba) {v : Nat} (hv : v ≤ ba.capacity) :
    Lands base ba v ↔ v < ba.capacity := by
  obtain ⟨hl, rfl⟩ := reachable_linked hb hr
  constructor
  · rintro ⟨ba', hs, -⟩
    refine Nat.lt_of_le_of_ne hv ?_
    rintro rfl
    obtain ⟨b, hc⟩ := setPosition_capacity hl
    rw [hc] at hs
    cases hs
  · intro hlt
    obtain ⟨ba', hs, hl', hk, -, hflat⟩ := setPosition_spec hl hlt
    obtain rfl : ba'.position = v := congrArg Flat.cursor hflat
    exact ⟨ba', hs, rfl, congrArg Flat.size hflat, hk.base ▸ hl'.inBounds.cur⟩

theorem setPosition_lands_inside :
    Lands 2 (new 2 fun _ _ => 0) 1 ↔ 1 < (new 2 fun _ _ => 0).capacity :=
  setPosition_lands_iff (by decide) ⟨[], .start rfl⟩ (by decide)

/-- One block, as a transfer of exactly its 4096 bytes leaves it. -/
theorem setPosition_leaves_chain :
    Reachable 4096 (fun _ _ => 0) (new 4096 fun _ _ => 0) ∧
      4096 ≤ (new 4096 fun _ _ => 0).capacity ∧
      ¬ Lands 4096 (new 4096 fun _ _ => 0) 4096 := by
  refine ⟨⟨[], .start rfl⟩, Nat.le_refl 4096, ?_⟩
  rintro ⟨ba', hs, -⟩
  obtain ⟨b, hc⟩ := setPosition_capacity (new_linked (by decide : 1 ≤ 4096) fun _ _ => 0)
  have he : setPosition 4096 (new 4096 fun _ _ => 0) = .error .nullNode b := hc
  rw [he] at hs
  cases hs

end ByteArray

end CIM
