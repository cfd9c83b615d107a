import CIM.Lib.Scanner
import CIM.Net.Stream

/-!
# Heads of messages

`HttpSession` and `HttpConnection` read the head of a message in the same loop, each with its own
generated parser.
-/
namespace CIM.http

open Scanner

/-- A `std::string` of bytes. -/
abbrev Bytes : Type := List UInt8

def chars (s : String) : Bytes := s.toList.map fun c => c.toNat.toUInt8

def toLower (c : UInt8) : UInt8 := if 65 ≤ c ∧ c ≤ 90 then c + 32 else c

/-- `strcasecmp` finds no difference; it compares up to the first null byte. -/
def sameKey (a b : Bytes) : Bool :=
  (a.takeWhile (· ≠ 0)).map toLower == (b.takeWhile (· ≠ 0)).map toLower

/-- A map whose keys are compared by `CaseInsensitiveLess`; the order is not observed. -/
abbrev MapType : Type := List (Bytes × Bytes)

/-- `m[key] = val` -/
def MapType.set (m : MapType) (key val : Bytes) : MapType :=
  if m.any fun e => sameKey e.1 key then
    m.map fun e => if sameKey e.1 key then (e.1, val) else e
  else m ++ [(key, val)]

def MapType.get (m : MapType) (key : Bytes) : Option Bytes :=
  (m.find? fun e => sameKey e.1 key).map Prod.snd

/-- `lexical_cast<uint64_t>` is not part of the repository; none where it throws. -/
def MapType.contentLength (lexical_cast : Bytes → Option UInt64) (m : MapType) : UInt64 :=
  ((m.get (chars "content-length")).bind lexical_cast).getD 0

/-- The version of a token; `strncmp` compares as many bytes as the token has. -/
def httpVersion (token : Bytes) : Option UInt8 :=
  if token = (chars "HTTP/1.1").take token.length then some 0x11
  else if token = (chars "HTTP/1.0").take token.length then some 0x10
  else none

/-- A generated parser with its callbacks: what the actions do, what `execute` resets, whether a
callback has set `m_error`, and the test for a final state. The state of the machine is apart. -/
structure Parser (α : Type) (done : α) (σ : Type) extends Machine α done where
  act : Bytes → Nat → σ → α → Option σ
  reset : σ → σ
  failed : σ → Bool
  is_finished : Nat → Bool
  final_of_finished : ∀ cs, is_finished cs = true → first_final ≤ cs

variable {α κ σ β : Type} {done : α} [DecidableEq α]

/-- `execute` on a buffer that is not empty; none where a callback throws. -/
def Parser.execute (P : Parser α done σ) (cs : Nat) (s : σ) (buf : Bytes) :
    Option (Nat × σ × Nat × Bool) :=
  exec P.toMachine P.act buf 0 buf cs (P.reset s)

def Parser.hasError (P : Parser α done σ) (cs : Nat) (s : σ) : Bool := P.failed s || cs == P.error

/-- `isFinished` is -1 after an error, and 1 in a final state. -/
def Parser.isFinished (P : Parser α done σ) (cs : Nat) : Bool := cs == P.error || P.is_finished cs

/-- The offsets that were set in the current read. -/
structure Known where
  mark : Bool
  field_start : Bool
  field_len : Bool
  query_start : Bool

namespace Known

def none : Known := ⟨false, false, false, false⟩

/-- More may be known than is needed. -/
structure Le (k k' : Known) : Prop where
  mark : k.mark = true → k'.mark = true
  field_start : k.field_start = true → k'.field_start = true
  field_len : k.field_len = true → k'.field_len = true
  query_start : k.query_start = true → k'.query_start = true

theorem none_le (k : Known) : Le none k := ⟨nofun, nofun, nofun, nofun⟩

end Known

/-- What a call returns: `value none` is the null pointer. -/
inductive Outcome (α : Type)
  | value (v : Option α)
  | thrown
  deriving DecidableEq

/-- The loop over the reads: the parser and the bytes of the buffer that are left. A turn that goes
on has taken a byte, so the input's length bounds the turns. -/
def recvHead (P : Parser α done σ) (buff_size : Nat) :
    Nat → Nat → σ → Bytes → Stream → Outcome (Nat × σ × Bytes) × Stream
  | 0, _, _, _, conn => (.value none, conn)
  | turns+1, cs, s, data, conn =>
      let (len, bs, conn) := conn.read (buff_size - data.length)
      if len ≤ 0 then (.value none, conn.close)
      else
        let data := data ++ bs
        match P.execute cs s data with
        | none => (.thrown, conn)
        | some (cs, s, nparse, _) =>
            if P.hasError cs s then (.value none, conn.close)
            else
              let data := data.drop nparse
              if (data.length : Int) = int32 buff_size then (.value none, conn.close)
              else if P.isFinished cs then (.value (some (cs, s, data)), conn)
              else recvHead P buff_size turns cs s data conn

/-- The reads of a head: none of them cuts a token, and `Q` holds of the bytes that the last one
brings behind the head, and of the connection. -/
def ReadsHead (m : Machine α done) (know : κ → α → Option κ) (k₀ : κ) (buff_size : Nat)
    (Q : Bytes → Stream → Prop) : Nat → Nat → Stream → Prop
  | 0, _, _ => True
  | turns+1, cs, conn =>
      let bs := (conn.read buff_size).2.1
      let r := m.after cs bs
      Uncut m know cs k₀ bs ∧
        if r.2.2 then Q (bs.drop r.2.1) (conn.read buff_size).2.2
        else ReadsHead m know k₀ buff_size Q turns r.1 (conn.read buff_size).2.2

instance decidableReadsHead (m : Machine α done) (know : κ → α → Option κ) (k₀ : κ)
    (buff_size : Nat) (Q : Bytes → Stream → Prop) [∀ data conn, Decidable (Q data conn)] :
    ∀ turns cs conn, Decidable (ReadsHead m know k₀ buff_size Q turns cs conn)
  | 0, _, _ => .isTrue trivial
  | turns+1, cs, conn =>
      have := decidableReadsHead m know k₀ buff_size Q turns
        (m.after cs (conn.read buff_size).2.1).1 (conn.read buff_size).2.2
      inferInstanceAs (Decidable (Uncut m know cs k₀ (conn.read buff_size).2.1 ∧
        if (m.after cs (conn.read buff_size).2.1).2.2 then
          Q ((conn.read buff_size).2.1.drop (m.after cs (conn.read buff_size).2.1).2.1)
            (conn.read buff_size).2.2
        else ReadsHead m know k₀ buff_size Q turns (m.after cs (conn.read buff_size).2.1).1
          (conn.read buff_size).2.2))

/-- The part `view` of the parser does not depend on the buffers in which the tokens stood. -/
structure Tokens (P : Parser α done σ) (know : κ → α → Option κ) (k₀ : κ) (view : σ → β)
    (R : Nat → Nat → κ → σ → σ → Prop) : Prop where
  simulation : Simulation P.act know R
  start : ∀ {off s t}, view s = view t → R off 0 k₀ s (P.reset t)
  same : ∀ {off p k s t}, R off p k s t → view s = view t
  reset : ∀ {s}, view (P.reset s) = view s
  failed : ∀ {s t}, view s = view t → P.failed s = P.failed t
  keeps : ∀ {buf p s a s'}, P.act buf p s a = some s' → P.failed s = true → P.failed s' = true

variable {P : Parser α done σ} {know : κ → α → Option κ} {k₀ : κ} {view : σ → β}
  {R : Nat → Nat → κ → σ → σ → Prop} {Q : Bytes → Stream → Prop} {buff_size turns cs : Nat}
  {s t : σ} {conn : Stream} {rest tail : Bytes}

/-- A read that ends within the head leaves the parser where it is in one buffer. -/
theorem Tokens.execute_part {csf : Nat} {sf : σ} {bs : Bytes} (hT : Tokens P know k₀ view R)
    (pre : Bytes) (hview : view s = view t) (huncut : Uncut P.toMachine know cs k₀ bs)
    (hbs : bs ≠ []) (hrest : rest ≠ [])
    (hexec : exec P.toMachine P.act (pre ++ bs ++ rest) pre.length (bs ++ rest) cs s =
      some (csf, sf, (pre ++ bs ++ rest).length, true))
    (hok : P.hasError csf sf = false) :
    ∃ s₁ t₁, (P.after cs bs).2.2 = false ∧
      P.execute cs t bs = some ((P.after cs bs).1, t₁, bs.length, false) ∧
      P.hasError (P.after cs bs).1 t₁ = false ∧ P.isFinished (P.after cs bs).1 = false ∧
      view s₁ = view t₁ ∧
      exec P.toMachine P.act (pre ++ bs ++ rest) (pre ++ bs).length rest (P.after cs bs).1 s₁ =
        some (csf, sf, (pre ++ bs ++ rest).length, true) := by
  have hstart : R pre.length 0 k₀ s (P.reset t) := hT.start hview
  obtain ⟨s₁, t₁, k₁, hs₁, ht₁, h₁⟩ :=
    hT.simulation.exec pre rest hstart huncut rfl (Nat.zero_add bs.length)
  rw [exec_append] at hexec
  rw [Nat.add_zero] at hs₁
  rw [hs₁, Option.bind_some] at hexec
  have hstop : (P.after cs bs).2.2 = false := by
    by_contra hstop
    rw [Bool.not_eq_false] at hstop
    rw [if_pos hstop] at hexec
    have hlen := (Prod.mk.inj (Prod.mk.inj (Prod.mk.inj (Option.some.inj hexec)).2).2).1
    have hafter := after_le (m := P.toMachine) cs bs
    rw [List.length_append, List.length_append] at hlen
    have hpos := List.length_pos_of_ne_nil hrest
    omega
  obtain ⟨hall, hlive, hnotfinal⟩ := after_live hstop hbs
  dsimp only at hexec
  rw [if_neg (by rw [hstop]; exact Bool.false_ne_true), hall, ← List.length_append] at hexec
  have hsame₁ : view s₁ = view t₁ := hT.same h₁
  have hfailed₁ : P.failed t₁ = false := by
    rw [← hT.failed hsame₁]
    by_contra hfailed
    rw [Bool.not_eq_false] at hfailed
    have hsf := exec_keeps (K := fun s s' => P.failed s = true → P.failed s' = true)
      (fun _ => id) (fun h h' => h' ∘ h) hT.keeps hexec hfailed
    rw [Parser.hasError, hsf] at hok
    cases hok
  refine ⟨s₁, t₁, hstop, ?_, ?_, ?_, hsame₁, hexec⟩
  · rw [Parser.execute, ht₁, hstop, hall, Nat.zero_add]
  · rw [Parser.hasError, hfailed₁, Bool.false_or]
    exact beq_eq_false_iff_ne.mpr hlive
  · rw [Parser.isFinished, Bool.or_eq_false_iff]
    refine ⟨beq_eq_false_iff_ne.mpr hlive, ?_⟩
    by_contra hfinal
    rw [Bool.not_eq_false] at hfinal
    exact absurd (P.final_of_finished _ hfinal) (Nat.not_le.mpr hnotfinal)

/-- A read that brings the rest of the head completes it as in one buffer. -/
theorem Tokens.execute_last {csf : Nat} {sf : σ} (hT : Tokens P know k₀ view R) (pre extra : Bytes)
    (hview : view s = view t) (huncut : Uncut P.toMachine know cs k₀ rest)
    (hexec : exec P.toMachine P.act (pre ++ rest) pre.length rest cs s =
      some (csf, sf, (pre ++ rest).length, true)) :
    ∃ t₁, P.execute cs t (rest ++ extra) = some (csf, t₁, rest.length, true) ∧
      view t₁ = view sf ∧ (P.after cs rest).2.1 = rest.length ∧
      (P.after cs rest).2.2 = true := by
  have hstart : R pre.length 0 k₀ s (P.reset t) := hT.start hview
  obtain ⟨s₁, t₁, k₁, hs₁, ht₁, h₁⟩ :=
    hT.simulation.exec pre [] hstart huncut rfl (Nat.zero_add rest.length)
  rw [List.append_nil, Nat.add_zero, hexec] at hs₁
  obtain ⟨hcsf, hend⟩ := Prod.mk.inj (Option.some.inj hs₁)
  obtain ⟨rfl, hlast⟩ := Prod.mk.inj hend
  obtain ⟨hall, hstop⟩ := Prod.mk.inj hlast
  rw [List.length_append] at hall
  have hall : (P.after cs rest).2.1 = rest.length := (Nat.add_left_cancel hall).symm
  have hself : R 0 0 k₀ (P.reset t) (P.reset t) := hT.start hT.reset
  obtain ⟨t₂, t₁', k₂, ht₂, ht₁', h₂⟩ :=
    hT.simulation.exec [] extra hself huncut rfl (Nat.zero_add rest.length)
  obtain ⟨-, hend'⟩ := Prod.mk.inj (Option.some.inj (ht₁.symm.trans ht₁'))
  obtain ⟨rfl, -⟩ := Prod.mk.inj hend'
  refine ⟨t₂, ?_, (hT.same h₂).trans (hT.same h₁).symm, hall, hstop.symm⟩
  rw [Parser.execute, exec_append]
  refine (congrArg (Option.bind · _) ht₂).trans ?_
  rw [Option.bind_some]
  dsimp only
  rw [← hstop, if_pos rfl, hall, hcsf, Nat.add_zero, Nat.zero_add]

/-- The head is read as from one buffer. -/
theorem Tokens.recvHead {csf : Nat} {sf : σ} (hT : Tokens P know k₀ view R) (pre : Bytes)
    (hbuff : 0 < buff_size) (hint : buff_size < 2 ^ 31) (hfeeds : Stream.Feeds conn (rest ++ tail))
    (hturns : rest.length ≤ turns) (hrest : rest ≠ [])
    (hreads : ReadsHead P.toMachine know k₀ buff_size Q turns cs conn) (hview : view s = view t)
    (hexec : exec P.toMachine P.act (pre ++ rest) pre.length rest cs s =
      some (csf, sf, (pre ++ rest).length, true))
    (hok : P.hasError csf sf = false) (hfinished : P.isFinished csf = true) :
    ∃ tf data tail' conn', recvHead P buff_size turns cs t [] conn =
        (.value (some (csf, tf, data)), conn') ∧ view tf = view sf ∧ Q data conn' ∧
      data.length ≤ buff_size ∧ tail = data ++ tail' ∧ Stream.Feeds conn' tail' := by
  have hsize : int32 buff_size = buff_size := int32_of_lt hint
  induction turns generalizing conn pre rest cs s t with
  | zero => exact absurd (List.eq_nil_of_length_eq_zero (Nat.le_zero.mp hturns)) hrest
  | succ turns ih =>
      obtain ⟨bs, tail₁, conn₁, hread, hbs, hle, happ, hfeeds₁⟩ :=
        hfeeds.read_some (List.append_ne_nil_of_left_ne_nil hrest tail) hbuff
      have hpos : 0 < bs.length := List.length_pos_of_ne_nil hbs
      rw [ReadsHead, hread] at hreads
      obtain ⟨huncut, hreads⟩ := hreads
      dsimp only at huncut hreads
      by_cases hcover : bs.length < rest.length
      · -- The read ends within the head.
        obtain ⟨rest', rfl⟩ : bs <+: rest :=
          List.prefix_of_prefix_length_le ⟨_, rfl⟩ ⟨tail, happ⟩ (Nat.le_of_lt hcover)
        rw [List.append_assoc] at happ
        have hrest' : rest' ≠ [] := by
          rintro rfl
          rw [List.append_nil] at hcover
          exact absurd hcover (Nat.lt_irrefl _)
        rw [← List.append_assoc] at hexec
        obtain ⟨s₁, t₁, hstop, hexecute, hok₁, hfinished₁, hview₁, hexec₁⟩ :=
          hT.execute_part pre hview huncut hbs hrest' hexec hok
        rw [if_neg (by rw [hstop]; exact Bool.false_ne_true)] at hreads
        rw [List.length_append] at hturns
        obtain ⟨tf, data, tail', conn', hrec, hlast⟩ :=
          ih (pre ++ bs) (List.append_cancel_left happ ▸ hfeeds₁) (by omega) hrest' hreads hview₁
            hexec₁
        refine ⟨tf, data, tail', conn', ?_, hlast⟩
        rw [http.recvHead, List.length_nil, Nat.sub_zero, hread]
        dsimp only
        rw [if_neg (by omega), List.nil_append, hexecute]
        dsimp only
        rw [if_neg (by rw [hok₁]; exact Bool.false_ne_true), List.drop_length, List.length_nil,
          hsize, if_neg (by omega), if_neg (by rw [hfinished₁]; exact Bool.false_ne_true), hrec]
      · -- The read covers the rest of the head.
        obtain ⟨extra, rfl⟩ : rest <+: bs :=
          List.prefix_of_prefix_length_le ⟨tail, happ⟩ ⟨_, rfl⟩ (Nat.le_of_not_lt hcover)
        rw [List.append_assoc] at happ
        obtain ⟨t₁, hexecute, hview₁, hall, hstop⟩ :=
          hT.execute_last pre extra hview (uncut_append huncut) hexec
        have hok₁ : P.hasError csf t₁ = false := by
          rw [Parser.hasError, hT.failed hview₁]
          exact hok
        have hrpos : 0 < rest.length := List.length_pos_of_ne_nil hrest
        rw [List.length_append] at hle
        rw [after_append hstop, if_pos hstop, hall, List.drop_left] at hreads
        refine ⟨t₁, extra, tail₁, conn₁, ?_, hview₁, hreads, by omega,
          List.append_cancel_left happ, hfeeds₁⟩
        rw [http.recvHead, List.length_nil, Nat.sub_zero, hread]
        dsimp only
        rw [if_neg (by omega), List.nil_append, hexecute]
        dsimp only
        rw [if_neg (by rw [hok₁]; exact Bool.false_ne_true), List.drop_left, hsize,
          if_neg (by omega), if_pos hfinished]

/-- A head whose reads cut no token has none that is cut in one buffer. -/
theorem readsHead_uncut {le : κ → κ → Prop} {m : Machine α done} (hmono : Monotone know le)
    (hleast : ∀ k, le k₀ k) (hbuff : 0 < buff_size) (hfeeds : Stream.Feeds conn (rest ++ tail))
    (hturns : rest.length ≤ turns) (hreads : ReadsHead m know k₀ buff_size Q turns cs conn)
    (hall : (m.after cs rest).2.1 = rest.length) : Uncut m know cs k₀ rest := by
  induction turns generalizing cs conn rest with
  | zero =>
      obtain rfl := List.eq_nil_of_length_eq_zero (Nat.le_zero.mp hturns)
      trivial
  | succ turns ih =>
      by_cases hrest : rest = []
      · subst hrest
        trivial
      obtain ⟨bs, tail₁, conn₁, hread, hbs, hle, happ, hfeeds₁⟩ :=
        hfeeds.read_some (List.append_ne_nil_of_left_ne_nil hrest tail) hbuff
      have hpos : 0 < bs.length := List.length_pos_of_ne_nil hbs
      rw [ReadsHead, hread] at hreads
      obtain ⟨huncut, hreads⟩ := hreads
      dsimp only at huncut hreads
      by_cases hcover : bs.length < rest.length
      · obtain ⟨rest', rfl⟩ : bs <+: rest :=
          List.prefix_of_prefix_length_le ⟨_, rfl⟩ ⟨tail, happ⟩ (Nat.le_of_lt hcover)
        rw [List.append_assoc] at happ
        have hlive : (m.after cs bs).2.2 = false := by
          by_contra hstop
          rw [Bool.not_eq_false] at hstop
          rw [after_append hstop] at hall
          have hafter := after_le (m := m) cs bs
          omega
        rw [if_neg (by rw [hlive]; exact Bool.false_ne_true)] at hreads
        rw [(after_continue hlive).1, List.length_append] at hall
        rw [List.length_append] at hturns
        exact hmono.append hleast huncut hlive
          (ih (List.append_cancel_left happ ▸ hfeeds₁) (by omega) hreads (by omega))
      · obtain ⟨extra, rfl⟩ : rest <+: bs :=
          List.prefix_of_prefix_length_le ⟨tail, happ⟩ ⟨_, rfl⟩ (Nat.le_of_not_lt hcover)
        exact uncut_append huncut

/-- Where the largest reads deliver the head at once, they cut no token that smaller ones do
not. -/
theorem fresh_readsHead {le : κ → κ → Prop} {m : Machine α done} {head body : Bytes}
    (hmono : Monotone know le) (hleast : ∀ k, le k₀ k) (hbuff : 0 < buff_size)
    (hhead : head.length ≤ buff_size) (hint : buff_size ≤ Stream.maxTransfer)
    (hfeeds : Stream.Feeds conn (head ++ body)) (hturns : head.length ≤ turns)
    (hreads : ReadsHead m know k₀ buff_size Q turns cs conn)
    (hall : (m.after cs head).2.1 = head.length) (hstop : (m.after cs head).2.2 = true) :
    ReadsHead m know k₀ buff_size (fun data _ => data.length ≤ body.length) turns cs
      (Stream.fresh (head ++ body)) := by
  have huncut : Uncut m know cs k₀ head :=
    readsHead_uncut hmono hleast hbuff hfeeds hturns hreads hall
  cases turns with
  | zero => trivial
  | succ turns =>
      have hread : ((Stream.fresh (head ++ body)).read buff_size).2.1 =
          head ++ body.take (buff_size - head.length) := by
        change (head ++ body).take (min buff_size Stream.maxTransfer) = _
        rw [Nat.min_eq_left hint, List.take_append, List.take_of_length_le hhead]
      rw [ReadsHead, hread]
      refine ⟨uncut_stopped huncut hstop, ?_⟩
      rw [after_append hstop, if_pos hstop, hall, List.drop_left, List.length_take]
      exact Nat.min_le_right _ _

/-! ## A body of a known length -/

/-- The body after the head, where `length` is positive: first the bytes of the buffer. The bytes
behind it are dropped with the buffer. -/
def recvBody (length : Int) (data : Bytes) (conn : Stream) : Option Bytes × Stream :=
  let body := data.take length.toNat
  let left := length - data.length
  if 0 < left then
    match (Stream.readFixSize left.toNat : EStateM Unit Stream (Int × Bytes)) conn with
    | .ok (rt, bs) conn => if rt ≤ 0 then (none, conn.close) else (some (body ++ bs), conn)
    | .error _ conn => (none, conn)
  else (some body, conn)

/-- The body is completed from the connection. -/
theorem recvBody_feeds {data body' : Bytes} (hint : (data ++ body').length < 2 ^ 31)
    (hfeeds : Stream.Feeds conn (body' ++ tail)) :
    ∃ conn', recvBody (data ++ body').length data conn = (some (data ++ body'), conn') ∧
      Stream.Feeds conn' tail := by
  have happ := @List.length_append _ data body'
  have hdata : data.take ((data ++ body').length : Int).toNat = data :=
    List.take_of_length_le (by omega)
  rw [recvBody, hdata]
  by_cases hleft : 0 < body'.length
  · obtain ⟨conn', hr, hfeeds'⟩ := hfeeds.readFixSize (ε := Unit) (by omega : body'.length < _)
    refine ⟨conn', ?_, hfeeds'⟩
    have hcount : (((data ++ body').length : Int) - data.length).toNat = body'.length := by omega
    have hrt : int32 body'.length = body'.length := int32_of_lt (by omega)
    rw [if_pos (by omega), hcount, hr]
    dsimp only
    rw [hrt, if_neg (by omega)]
  · obtain rfl : body' = [] := List.eq_nil_of_length_eq_zero (Nat.eq_zero_of_not_pos hleft)
    refine ⟨conn, ?_, hfeeds⟩
    rw [List.append_nil, if_neg (by omega)]

end CIM.http
