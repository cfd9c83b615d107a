import CIM.Net.Endian

/-!
# Durations of the hooks

How long the hooked `sleep`, `usleep` and `nanosleep` wait, and the timeouts that `setsockopt` sets
for `do_io`. Timers count milliseconds. A signed result that overflows is undefined.
-/
namespace CIM.Hook

/-- A signed 64-bit result. -/
def signed64 (n : Int) : Option Int :=
  if -9223372036854775808 ≤ n ∧ n < 9223372036854775808 then some n else none

/-- `sec * 1000 + rest`, as the `uint64_t` it is converted to. -/
def toMs (sec rest : Int) : Option Nat := do
  let ms ← signed64 (sec * 1000)
  let ms ← signed64 (ms + rest)
  return uint64 ms

/-- The original call, or the delay that is passed to `addTimer`. -/
inductive Wait
  | original
  | timer (ms : Nat)
  deriving DecidableEq

/-- Without hooks or an `IOManager` the original is called. -/
def hooked (hook_enable io_manager : Bool) (ms : Nat) : Wait :=
  if !hook_enable then .original
  else if !io_manager then .original
  else .timer ms

/-- The product is an `unsigned int`. -/
def sleep (hook_enable io_manager : Bool) (seconds : UInt32) : Wait :=
  hooked hook_enable io_manager (seconds * 1000).toNat

def usleep (hook_enable io_manager : Bool) (usec : UInt32) : Wait :=
  hooked hook_enable io_manager (usec / 1000).toNat

structure Timespec where
  tv_sec : Int64
  tv_nsec : Int64

structure Timeval where
  tv_sec : Int64
  tv_usec : Int64

def nanosleep (hook_enable io_manager : Bool) (req : Timespec) : Option Wait :=
  (toMs req.tv_sec.toInt ((req.tv_nsec.toInt.tdiv 1000).tdiv 1000)).map
    (hooked hook_enable io_manager)

inductive SockOpt
  | SO_RCVTIMEO
  | SO_SNDTIMEO
  | other
  deriving DecidableEq

/-- What the context of a descriptor knows of timeouts. -/
structure Timeouts where
  m_recvTimeout : Nat
  m_sendTimeout : Nat

/-- `(uint64_t)-1` -/
def infinite : Nat := 18446744073709551615

def Timeouts.init : Timeouts := ⟨infinite, infinite⟩

def Timeouts.setTimeout (type : SockOpt) (v : Nat) (ctx : Timeouts) : Timeouts :=
  match type with
  | .SO_RCVTIMEO => { ctx with m_recvTimeout := v }
  | .SO_SNDTIMEO => { ctx with m_sendTimeout := v }
  | .other => ctx

def Timeouts.getTimeout (type : SockOpt) (ctx : Timeouts) : Nat :=
  match type with
  | .SO_RCVTIMEO => ctx.m_recvTimeout
  | .SO_SNDTIMEO => ctx.m_sendTimeout
  | .other => infinite

/-- `setsockopt` at `SOL_SOCKET` or another level, and what it leaves of the context. -/
def setsockopt (hook_enable SOL_SOCKET : Bool) (optname : SockOpt) (tv : Timeval)
    (ctx : Option Timeouts) : Option (Option Timeouts) :=
  if !hook_enable then some ctx
  else if SOL_SOCKET then
    match optname, ctx with
    | .other, ctx => some ctx
    | _, none => some none
    | optname, some ctx =>
        (toMs tv.tv_sec.toInt (tv.tv_usec.toInt.tdiv 1000)).map
          fun v => some (ctx.setTimeout optname v)
  else some ctx

/-- The delay of the timer that `do_io` sets; none where it waits without one. -/
def timeoutOf (ctx : Timeouts) (timeout_so : SockOpt) : Option Nat :=
  if ctx.getTimeout timeout_so ≠ infinite then some (ctx.getTimeout timeout_so) else none

/-! ## What is asked for -/

inductive Request
  | sleep (seconds : UInt32)
  | usleep (usec : UInt32)
  | nanosleep (req : Timespec)
  /-- The option is the one for sending, or the one for receiving. -/
  | timeout (ctx : Timeouts) (sending : Bool) (tv : Timeval)

def option (sending : Bool) : SockOpt := if sending then .SO_SNDTIMEO else .SO_RCVTIMEO

def Timespec.ns (req : Timespec) : Int := req.tv_sec.toInt * 1000000000 + req.tv_nsec.toInt

def Timeval.us (tv : Timeval) : Int := tv.tv_sec.toInt * 1000000 + tv.tv_usec.toInt

def Timeval.IsZero (tv : Timeval) : Prop := tv.tv_sec.toInt = 0 ∧ tv.tv_usec.toInt = 0

/-- The duration is not shortened. -/
def Kept : Request → Prop
  | .sleep seconds => ∃ ms, sleep true true seconds = .timer ms ∧ seconds.toNat * 1000 ≤ ms
  | .usleep usec => ∃ ms, usleep true true usec = .timer ms ∧ usec.toNat ≤ ms * 1000
  | .nanosleep req => ∃ ms : Nat, nanosleep true true req = some (.timer ms) ∧
      req.ns ≤ ms * 1000000
  | .timeout ctx sending tv => ∃ ctx',
      setsockopt true true (option sending) tv (some ctx) = some (some ctx') ∧
        (tv.IsZero → timeoutOf ctx' (option sending) = none) ∧
        ∀ ms : Nat, timeoutOf ctx' (option sending) = some ms → tv.us ≤ ms * 1000

/-- The milliseconds do not overflow. -/
def Fits (sec rest : Int) : Prop :=
  (-9223372036854775808 ≤ sec * 1000 ∧ sec * 1000 < 9223372036854775808) ∧
    -9223372036854775808 ≤ sec * 1000 + rest ∧ sec * 1000 + rest < 9223372036854775808

/-- A whole number of milliseconds that does not overflow, and no timeout of zero. -/
def Exact : Request → Prop
  | .sleep seconds => seconds.toNat * 1000 < 4294967296
  | .usleep usec => 1000 ∣ usec.toNat
  | .nanosleep req => Fits req.tv_sec.toInt (req.tv_nsec.toInt.tdiv 1000000) ∧
      (req.ns < 0 ∨ req.tv_nsec.toInt ≤ 0 ∨ 1000000 ∣ req.tv_nsec.toInt)
  | .timeout _ _ tv => Fits tv.tv_sec.toInt (tv.tv_usec.toInt.tdiv 1000) ∧ ¬ tv.IsZero ∧
      (tv.us < 0 ∨ tv.tv_usec.toInt ≤ 0 ∨ 1000 ∣ tv.tv_usec.toInt)

theorem signed64_bind {α : Type} {n : Int} {f : Int → Option α} {a : α} :
    (signed64 n).bind f = some a ↔
      (-9223372036854775808 ≤ n ∧ n < 9223372036854775808) ∧ f n = some a := by
  rw [signed64]
  split
  · rename_i h
    simp only [Option.bind_some, h, and_self, true_and]
  · rename_i h
    simp only [Option.bind_none, h, reduceCtorEq, false_and]

theorem toMs_iff {sec rest : Int} {ms : Nat} :
    toMs sec rest = some ms ↔ Fits sec rest ∧ ms = uint64 (sec * 1000 + rest) := by
  change ((signed64 (sec * 1000)).bind fun ms => (signed64 (ms + rest)).bind fun ms =>
    some (uint64 ms)) = some ms ↔ _
  rw [signed64_bind, signed64_bind, Option.some_inj, ← and_assoc, eq_comm]
  rfl

/-- A duration in units of which `unit` make a millisecond. -/
theorem converted_iff {sec rest : Int} (unit : Int) (hunit : 1 ≤ unit)
    (hfits : Fits sec (rest.tdiv unit)) :
    sec * (1000 * unit) + rest ≤ uint64 (sec * 1000 + rest.tdiv unit) * unit ↔
      sec * (1000 * unit) + rest < 0 ∨ rest ≤ 0 ∨ unit ∣ rest := by
  have hsplit := Int.tdiv_mul_add_tmod rest unit
  have hlt : rest.tmod unit < unit := Int.tmod_lt_of_pos rest (by omega)
  have hsum : sec * (1000 * unit) + rest =
      (sec * 1000 + rest.tdiv unit) * unit + rest.tmod unit := by
    rw [Int.add_mul, Int.mul_assoc]
    omega
  rw [hsum]
  generalize hms : sec * 1000 + rest.tdiv unit = ms at *
  have hupper : ms < 9223372036854775808 := hms ▸ hfits.2.2
  rcases lt_or_ge ms 0 with hneg | hpos
  · have hmul : ms * unit ≤ -1 * unit := Int.mul_le_mul_of_nonneg_right (by omega) (by omega)
    have hdelay : 0 ≤ (uint64 ms : Int) * unit := Int.mul_nonneg (by omega) (by omega)
    exact iff_of_true (by omega) (.inl (by omega))
  · have hsame : (uint64 ms : Int) = ms := by
      rw [uint64]
      omega
    have hmul : 0 ≤ ms * unit := Int.mul_nonneg hpos (by omega)
    rw [hsame]
    constructor
    · intro h
      rcases lt_or_ge 0 rest with hrest | hrest
      · have hrem := Int.tmod_nonneg unit (Int.le_of_lt hrest)
        exact .inr (.inr (Int.dvd_of_tmod_eq_zero (by omega)))
      · exact .inr (.inl hrest)
    · rintro (h | h | h)
      · omega
      · have hrem := Int.tmod_nonneg unit (Int.neg_nonneg_of_nonpos h)
        rw [Int.neg_tmod] at hrem
        omega
      · rw [Int.tmod_eq_zero_of_dvd h]
        omega

theorem sleep_kept_iff (seconds : UInt32) : Kept (.sleep seconds) ↔ Exact (.sleep seconds) := by
  have hproduct : (seconds * 1000).toNat = seconds.toNat * 1000 % 4294967296 :=
    UInt32.toNat_mul seconds 1000
  constructor
  · rintro ⟨ms, hms, hle⟩
    obtain rfl := Wait.timer.inj hms
    rw [hproduct] at hle
    change seconds.toNat * 1000 < 4294967296
    omega
  · intro h
    refine ⟨_, rfl, ?_⟩
    rw [hproduct, Nat.mod_eq_of_lt h]

theorem usleep_kept_iff (usec : UInt32) : Kept (.usleep usec) ↔ Exact (.usleep usec) := by
  have hquotient : (usec / 1000).toNat = usec.toNat / 1000 := UInt32.toNat_div usec 1000
  constructor
  · rintro ⟨ms, hms, hle⟩
    obtain rfl := Wait.timer.inj hms
    rw [hquotient] at hle
    exact Nat.dvd_of_mod_eq_zero (by omega)
  · intro h
    refine ⟨_, rfl, ?_⟩
    rw [hquotient, Nat.div_mul_cancel h]

theorem tdiv_thousands (n : Int) : (n.tdiv 1000).tdiv 1000 = n.tdiv 1000000 := by
  have hpos : ∀ m : Int, 0 ≤ m → (m.tdiv 1000).tdiv 1000 = m.tdiv 1000000 := by
    intro m hm
    rw [Int.tdiv_eq_ediv_of_nonneg hm, Int.tdiv_eq_ediv_of_nonneg hm,
      Int.tdiv_eq_ediv_of_nonneg (by omega)]
    omega
  rcases Int.le_total 0 n with hn | hn
  · exact hpos n hn
  · have hneg := hpos (-n) (by omega)
    rwa [Int.neg_tdiv, Int.neg_tdiv, Int.neg_tdiv, Int.neg_inj] at hneg

theorem nanosleep_kept_iff (req : Timespec) : Kept (.nanosleep req) ↔ Exact (.nanosleep req) := by
  have hkept : Kept (.nanosleep req) ↔ ∃ ms : Nat,
      toMs req.tv_sec.toInt (req.tv_nsec.toInt.tdiv 1000000) = some ms ∧
        req.ns ≤ ms * 1000000 := by
    refine exists_congr fun ms => and_congr_left fun _ => ?_
    rw [nanosleep, tdiv_thousands, Option.map_eq_some_iff]
    constructor
    · rintro ⟨ms', h, hms⟩
      rw [h, Wait.timer.inj hms]
    · exact fun h => ⟨ms, h, rfl⟩
  rw [hkept]
  simp only [toMs_iff]
  constructor
  · rintro ⟨ms, ⟨hfits, rfl⟩, hle⟩
    exact ⟨hfits, (converted_iff 1000000 (by decide) hfits).mp hle⟩
  · rintro ⟨hfits, h⟩
    exact ⟨_, ⟨hfits, rfl⟩, (converted_iff 1000000 (by decide) hfits).mpr h⟩

@[simp] theorem getTimeout_setTimeout (ctx : Timeouts) (sending : Bool) (v : Nat) :
    (ctx.setTimeout (option sending) v).getTimeout (option sending) = v := by
  cases sending <;> rfl

/-- The same for both options. -/
theorem setsockopt_eq (sending : Bool) (tv : Timeval) (ctx : Timeouts) :
    setsockopt true true (option sending) tv (some ctx) =
      (toMs tv.tv_sec.toInt (tv.tv_usec.toInt.tdiv 1000)).map
        fun v => some (ctx.setTimeout (option sending) v) := by
  cases sending <;> rfl

theorem timeoutOf_setTimeout (ctx : Timeouts) (sending : Bool) (v : Nat) :
    timeoutOf (ctx.setTimeout (option sending) v) (option sending) =
      if v ≠ infinite then some v else none := by
  rw [timeoutOf, getTimeout_setTimeout]

/-- Only a negative duration is taken for an infinite one. -/
theorem negative_of_infinite {tv : Timeval}
    (hfits : Fits tv.tv_sec.toInt (tv.tv_usec.toInt.tdiv 1000))
    (h : uint64 (tv.tv_sec.toInt * 1000 + tv.tv_usec.toInt.tdiv 1000) = infinite) : tv.us < 0 := by
  have hsplit := Int.tdiv_mul_add_tmod tv.tv_usec.toInt 1000
  have hlt := Int.tmod_lt_of_pos tv.tv_usec.toInt (by decide : (0 : Int) < 1000)
  have hupper := hfits.2.2
  rw [uint64, infinite] at h
  rw [Timeval.us]
  omega

theorem timeout_kept_iff (ctx : Timeouts) (sending : Bool) (tv : Timeval) :
    Kept (.timeout ctx sending tv) ↔ Exact (.timeout ctx sending tv) := by
  have hkept : Kept (.timeout ctx sending tv) ↔ ∃ v : Nat,
      toMs tv.tv_sec.toInt (tv.tv_usec.toInt.tdiv 1000) = some v ∧
        (tv.IsZero → v = infinite) ∧ (v ≠ infinite → tv.us ≤ v * 1000) := by
    rw [Kept, setsockopt_eq]
    constructor
    · rintro ⟨ctx', h, hzero, hle⟩
      obtain ⟨v, hv, hctx⟩ := Option.map_eq_some_iff.mp h
      obtain rfl := Option.some_inj.mp hctx
      rw [timeoutOf_setTimeout] at hzero hle
      exact ⟨v, hv, fun hz => by simpa using hzero hz, fun hne => hle v (if_pos hne)⟩
    · rintro ⟨v, hv, hzero, hle⟩
      refine ⟨_, by rw [hv]; rfl, ?_, ?_⟩ <;> rw [timeoutOf_setTimeout]
      · intro hz
        rw [if_neg (not_not_intro (hzero hz))]
      · intro ms hms
        obtain ⟨hne, hv⟩ := Option.ite_none_right_eq_some.mp hms
        obtain rfl := Option.some_inj.mp hv
        exact hle hne
  rw [hkept]
  simp only [toMs_iff]
  constructor
  · rintro ⟨v, ⟨hfits, rfl⟩, hzero, hle⟩
    refine ⟨hfits, ?_, ?_⟩
    · intro hz
      have h := hzero hz
      rw [hz.1, hz.2] at h
      exact absurd h (by decide)
    · by_cases hinf : uint64 (tv.tv_sec.toInt * 1000 + tv.tv_usec.toInt.tdiv 1000) = infinite
      · exact .inl (negative_of_infinite hfits hinf)
      · exact (converted_iff 1000 (by decide) hfits).mp (hle hinf)
  · rintro ⟨hfits, hzero, h⟩
    exact ⟨_, ⟨hfits, rfl⟩, fun hz => absurd hz hzero,
      fun _ => (converted_iff 1000 (by decide) hfits).mpr h⟩

/-- Each of the four conversions keeps the durations that are exact, and no others. -/
theorem kept_exact_iff (r : Request) : Kept r ↔ Exact r := by
  cases r with
  | sleep seconds => exact sleep_kept_iff seconds
  | usleep usec => exact usleep_kept_iff usec
  | nanosleep req => exact nanosleep_kept_iff req
  | timeout ctx sending tv => exact timeout_kept_iff ctx sending tv

/-- `4294968` seconds become `704` milliseconds. -/
theorem sleep_shortened : ¬ Kept (.sleep 4294968) := by
  rintro ⟨ms, hms, hle⟩
  obtain rfl := Wait.timer.inj hms
  exact absurd hle (by decide)

end CIM.Hook
