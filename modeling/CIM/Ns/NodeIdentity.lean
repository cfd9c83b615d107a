import CIM.Ns.NameServer
import CIM.Streams.LoadBalance

/-!
# Identity of nodes

A node of the name server and a server that service discovery lists are known by an id, made of
the address in the upper and the port in the lower half. `inet_addr` and `strtoull` are the
functions of the C library; the first one returns all ones for a text that it cannot parse.
-/
namespace CIM.ns

/-- `parse` is what `inet_addr` reads of the text. -/
def inetAddr (parse : String → Option UInt32) (ip : String) : UInt32 :=
  (parse ip).getD 0xFFFFFFFF

def isSpace (c : Char) : Bool := c = ' ' || 9 ≤ c.toNat && c.toNat ≤ 13

def digits (s : List Char) : Nat :=
  (s.takeWhile Char.isDigit).foldl (fun n c => n * 10 + (c.toNat - 48)) 0

/-- The sign and the digits that `strtoull` reads behind the spaces; no digits are a zero. -/
def numeral (s : List Char) : Bool × Nat :=
  match s.dropWhile isSpace with
  | '-' :: s => (true, digits s)
  | '+' :: s => (false, digits s)
  | s => (false, digits s)

/-- In base ten. What is too large is the largest value, with either sign. -/
def strtoull (s : List Char) : UInt64 :=
  let r := numeral s
  if 18446744073709551616 ≤ r.2 then 18446744073709551615
  else if r.1 then 0 - UInt64.ofNat r.2 else UInt64.ofNat r.2

/-- `TypeUtil::Atoi`. -/
def atoi (s : List Char) : Int64 := if s.isEmpty then 0 else (strtoull s).toInt64

/-- The texts before and behind the first colon. -/
def splitColon (s : String) : Option (String × List Char) :=
  match s.toList.dropWhile (· != ':') with
  | [] => none
  | _ :: port => some (String.ofList (s.toList.takeWhile (· != ':')), port)

/-- `ServiceItemInfo::Create`. -/
def serviceItemInfo (inet_addr : String → UInt32) (ip_and_port data : String) :
    Option ServiceItemInfo := do
  let (ip, text) ← splitColon ip_and_port
  let port := atoi text
  let ip_addr := inet_addr ip
  if ip_addr == 0 then none
  else some ⟨ip_addr.toUInt64 <<< 32 ||| port.toUInt64, ip, port.toUInt64.toUInt16, data⟩

/-! ## What is given and what is stored -/

inductive Entry
  | node (ip : String) (port weight : UInt32)
  | service (ip_and_port data : String)

namespace Entry

/-- The number that stands before its conversions. -/
def signed (r : Bool × Nat) : Int := if r.1 then -r.2 else r.2

def ip : Entry → String
  | .node ip _ _ => ip
  | .service ip_and_port _ => ((splitColon ip_and_port).map Prod.fst).getD ""

def port : Entry → Int
  | .node _ port _ => port.toNat
  | .service ip_and_port _ => ((splitColon ip_and_port).map fun r => signed (numeral r.2)).getD 0

end Entry

structure Stored where
  m_id : UInt64
  m_port : UInt16

/-- The entry is accepted, whatever came before it, and stored so. -/
inductive Accepts (inet_addr : String → UInt32) : Entry → Stored → Prop
  | node {ip port weight domain cmds old_value new_value client} :
      registerInfo inet_addr old_value new_value
          ⟨some domain, cmds, some ⟨some ip, some port, some weight⟩⟩ = some client →
        Accepts inet_addr (.node ip port weight)
          ⟨(NSNode.create inet_addr ip port.toUInt16 weight).m_id,
            (NSNode.create inet_addr ip port.toUInt16 weight).m_port⟩
  | service {ip_and_port data info} :
      serviceItemInfo inet_addr ip_and_port data = some info →
        Accepts inet_addr (.service ip_and_port data) ⟨info.m_id, info.m_port⟩

/-- The text is an address, and the port is stored as it was given. -/
def Sound (parse : String → Option UInt32) (e : Entry) (s : Stored) : Prop :=
  (parse e.ip).isSome ∧ (s.m_port.toNat : Int) = e.port

/-- Both are sound, and equal ids are those of one address and one port. -/
def Identified (parse : String → Option UInt32) (e₁ e₂ : Entry) (s₁ s₂ : Stored) : Prop :=
  Sound parse e₁ s₁ ∧ Sound parse e₂ s₂ ∧
    (s₁.m_id = s₂.m_id → parse e₁.ip = parse e₂.ip ∧ e₁.port = e₂.port)

/-- The text is an address, and the port is one of 16 bits. -/
def Proper (parse : String → Option UInt32) (e : Entry) : Prop :=
  (parse e.ip).isSome ∧ 0 ≤ e.port ∧ e.port < 65536

theorem toNat_id (addr : UInt32) {port : UInt64} (h : port.toNat < 4294967296) :
    (addr.toUInt64 <<< 32 ||| port).toNat = addr.toNat * 4294967296 + port.toNat := by
  have haddr := addr.toNat_lt
  have hshift : (addr.toUInt64 <<< 32).toNat = addr.toNat <<< 32 := by
    rw [UInt64.toNat_shiftLeft]
    change addr.toNat <<< 32 % 2 ^ 64 = _
    rw [Nat.shiftLeft_eq]
    omega
  rw [UInt64.toNat_or, hshift, ← Nat.shiftLeft_add_eq_or_of_lt h, Nat.shiftLeft_eq]

theorem strtoull_of_small {s : List Char} (h0 : 0 ≤ Entry.signed (numeral s))
    (h : Entry.signed (numeral s) < 65536) :
    ((strtoull s).toNat : Int) = Entry.signed (numeral s) := by
  unfold strtoull Entry.signed at *
  cases hneg : (numeral s).1 with
  | true =>
      rw [hneg, if_pos rfl] at h0 h
      have hzero : (numeral s).2 = 0 := by omega
      simp only [hneg, hzero]
      decide
  | false =>
      rw [hneg, if_neg Bool.false_ne_true] at h0 h
      simp only [hneg, if_neg Bool.false_ne_true]
      rw [if_neg (by omega), UInt64.toNat_ofNat_of_lt' (by
        change _ < 18446744073709551616
        omega)]

theorem atoi_toUInt64 (s : List Char) : (atoi s).toUInt64 = strtoull s := by
  cases s with
  | nil => rfl
  | cons c s => rfl

/-- What is stored of an entry whose port has 16 bits. -/
structure Plain (parse : String → Option UInt32) (e : Entry) (s : Stored) : Prop where
  id : s.m_id.toNat = (inetAddr parse e.ip).toNat * 4294967296 + s.m_port.toNat
  port : (s.m_port.toNat : Int) = e.port

theorem plain {parse : String → Option UInt32} {e : Entry} {s : Stored}
    (h : Accepts (inetAddr parse) e s) (h0 : 0 ≤ e.port) (hlt : e.port < 65536) :
    Plain parse e s := by
  cases h with
  | @node ip port weight domain cmds old_value new_value client h =>
      have hport : port.toUInt16.toNat = port.toNat := by
        rw [UInt32.toNat_toUInt16]
        exact Nat.mod_eq_of_lt (Int.ofNat_lt.mp hlt)
      refine ⟨toNat_id _ ?_, congrArg Nat.cast hport⟩
      rw [UInt16.toNat_toUInt64]
      have hsmall := port.toUInt16.toNat_lt
      omega
  | @service ip_and_port data info h =>
      obtain ⟨⟨ip, text⟩, hsplit, h⟩ := Option.bind_eq_some_iff.mp h
      obtain ⟨-, h⟩ := Option.ite_none_left_eq_some.mp h
      rw [atoi_toUInt64] at h
      obtain rfl := Option.some_inj.mp h
      rw [Entry.port, hsplit] at h0 hlt
      have hvalue := strtoull_of_small h0 hlt
      change ((strtoull text).toNat : Int) = Entry.signed (numeral text) at hvalue
      change Entry.signed (numeral text) < 65536 at hlt
      have hsmall : (strtoull text).toNat < 65536 := by omega
      have hport : (strtoull text).toUInt16.toNat = (strtoull text).toNat := by
        rw [UInt64.toNat_toUInt16]
        exact Nat.mod_eq_of_lt hsmall
      refine ⟨?_, ?_⟩
      · rw [Entry.ip, hsplit, hport]
        exact toNat_id _ (by omega)
      · rw [Entry.port, hsplit, hport]
        exact hvalue

theorem Sound.proper {parse : String → Option UInt32} {e : Entry} {s : Stored}
    (h : Sound parse e s) : Proper parse e := by
  refine ⟨h.1, ?_⟩
  rw [← h.2]
  have hlt := s.m_port.toNat_lt
  omega

/-- Of two accepted entries the ids determine the nodes exactly if both are proper. -/
theorem identified_iff (parse : String → Option UInt32) {e₁ e₂ : Entry} {s₁ s₂ : Stored}
    (h₁ : Accepts (inetAddr parse) e₁ s₁) (h₂ : Accepts (inetAddr parse) e₂ s₂) :
    Identified parse e₁ e₂ s₁ s₂ ↔ Proper parse e₁ ∧ Proper parse e₂ := by
  constructor
  · rintro ⟨hs₁, hs₂, -⟩
    exact ⟨hs₁.proper, hs₂.proper⟩
  · rintro ⟨⟨hip₁, h0₁, hlt₁⟩, hip₂, h0₂, hlt₂⟩
    have hp₁ := plain h₁ h0₁ hlt₁
    have hp₂ := plain h₂ h0₂ hlt₂
    refine ⟨⟨hip₁, hp₁.port⟩, ⟨hip₂, hp₂.port⟩, fun hid => ?_⟩
    obtain ⟨a₁, ha₁⟩ := Option.isSome_iff_exists.mp hip₁
    obtain ⟨a₂, ha₂⟩ := Option.isSome_iff_exists.mp hip₂
    have hlow₁ := s₁.m_port.toNat_lt
    have hlow₂ := s₂.m_port.toNat_lt
    have hid₁ := hp₁.id
    have hid₂ := hp₂.id
    rw [inetAddr, ha₁, Option.getD_some] at hid₁
    rw [inetAddr, ha₂, Option.getD_some] at hid₂
    rw [hid, hid₂] at hid₁
    have haddr : a₁ = a₂ := UInt32.toNat_inj.mp (by omega)
    refine ⟨by rw [ha₁, ha₂, haddr], ?_⟩
    rw [← hp₁.port, ← hp₂.port]
    omega

def parseOne (ip : String) : Option UInt32 := if ip = "1.2.3.4" then some 0x04030201 else none

def portEntry (port : UInt32) : Entry := .node "1.2.3.4" port 1

theorem portEntry_accepted (port : UInt32) (h : port.toUInt16 = 80) :
    Accepts (inetAddr parseOne) (portEntry port) ⟨0x0403020100000050, 80⟩ := by
  have hcreate : NSNode.create (inetAddr parseOne) "1.2.3.4" port.toUInt16 1 =
      ⟨0x0403020100000050, "1.2.3.4", 80, 1⟩ := by
    rw [h]
    rfl
  have hinfo : registerInfo (inetAddr parseOne) none none
      ⟨some "d", [1], some ⟨some "1.2.3.4", some port, some 1⟩⟩ =
        some ⟨⟨0x0403020100000050, "1.2.3.4", 80, 1⟩, insertCmd "d" ∅ 1⟩ := by
    rw [← hcreate]
    refine if_neg ?_
    rw [hcreate]
    decide
  have haccept := Accepts.node hinfo
  rwa [hcreate] at haccept

/-- The port 80, by a registration and by a text. -/
theorem identified_iff_port :
    Identified parseOne (portEntry 80) (.service "1.2.3.4:80" "") ⟨0x0403020100000050, 80⟩
        ⟨0x0403020100000050, 80⟩ ↔
      Proper parseOne (portEntry 80) ∧ Proper parseOne (.service "1.2.3.4:80" "") :=
  identified_iff parseOne (portEntry_accepted 80 (by decide))
    (.service (show serviceItemInfo (inetAddr parseOne) "1.2.3.4:80" "" =
      some ⟨0x0403020100000050, "1.2.3.4", 80, ""⟩ from rfl))

/-- The ports 80 and `65616` are one node. -/
theorem ports_collide : ∃ s₁ s₂, Accepts (inetAddr parseOne) (portEntry 80) s₁ ∧
    Accepts (inetAddr parseOne) (portEntry 65616) s₂ ∧
    ¬ Identified parseOne (portEntry 80) (portEntry 65616) s₁ s₂ := by
  refine ⟨_, _, portEntry_accepted 80 (by decide), portEntry_accepted 65616 (by decide), ?_⟩
  rintro ⟨-, -, h⟩
  exact absurd (h rfl).2 (by decide)

end CIM.ns
