import CIM.Http.HttpText
import CIM.Http.UriComponents

/-!
# `Uri::toString`

What `Uri::Create` makes of the text of a URI, and what is the same about it.
-/
namespace CIM.Uri

open Ragel Rx http uri_machine

/-- The `if`s on the scheme that `isDefaultPort` and `getPort` have. -/
def schemePort (uri : Uri) : Int :=
  if uri.m_scheme = chars "http" ∨ uri.m_scheme = chars "ws" then 80
  else if uri.m_scheme = chars "https" ∨ uri.m_scheme = chars "wss" then 443
  else 0

def isDefaultPort (uri : Uri) : Bool :=
  if uri.m_port = 0 then true else uri.m_port = uri.schemePort

def getPath (uri : Uri) : Bytes := if uri.m_path = [] then chars "/" else uri.m_path

def getPort (uri : Uri) : Int := if uri.m_port ≠ 0 then uri.m_port else uri.schemePort

/-- `std::to_string` of a port. -/
def portText (n : Int) : Bytes :=
  if n < 0 then chars "-" ++ printed n.natAbs else printed n.natAbs

def toString (uri : Uri) : Bytes :=
  uri.m_scheme ++ chars "://" ++ uri.m_userinfo ++
    (if uri.m_userinfo = [] then [] else chars "@") ++ uri.m_host ++
    (if uri.isDefaultPort then [] else chars ":" ++ portText uri.m_port) ++ uri.getPath ++
    (if uri.m_query = [] then [] else chars "?") ++ uri.m_query ++
    (if uri.m_fragment = [] then [] else chars "#") ++ uri.m_fragment

/-! ## Reading the text back -/

/-- The fields are such as `Create` makes them. -/
structure Legal (uri : Uri) : Prop where
  scheme : uri_machine.scheme.Accepts uri.m_scheme
  userinfo : uri_machine.userinfo.Accepts uri.m_userinfo
  colon : 58 ∉ uri.m_userinfo
  host : uri_machine.host.Accepts uri.m_host
  path : path_abempty.Accepts uri.m_path
  query : uri_machine.query.Accepts uri.m_query
  fragment : uri.m_fragment = []
  nonneg : 0 ≤ uri.m_port
  bounded : uri.m_port < 2147483648

/-- The fields that the getters show in place of those that are empty or the default. -/
def normal (uri : Uri) : Uri :=
  { uri with
    m_path := uri.getPath
    m_port := if uri.isDefaultPort then 0 else uri.m_port }

/-- The same for every getter. -/
structure Alike (u v : Uri) : Prop where
  scheme : v.m_scheme = u.m_scheme
  userinfo : v.m_userinfo = u.m_userinfo
  host : v.m_host = u.m_host
  port : v.getPort = u.getPort
  path : v.getPath = u.getPath
  query : v.m_query = u.m_query
  fragment : v.m_fragment = u.m_fragment

variable {uri : Uri}

theorem getPath_ne (uri : Uri) : uri.getPath ≠ [] := by
  rw [getPath]
  split
  · decide
  · assumption

theorem getPath_normal (uri : Uri) : uri.normal.getPath = uri.getPath := by
  change (if uri.getPath = [] then chars "/" else uri.getPath) = _
  rw [if_neg (getPath_ne uri)]

theorem normal_port (uri : Uri) :
    uri.normal.m_port = if uri.isDefaultPort then 0 else uri.m_port := rfl

theorem getPort_normal (uri : Uri) : uri.normal.getPort = uri.getPort := by
  rw [getPort, getPort, normal_port]
  cases hd : uri.isDefaultPort with
  | false => rfl
  | true =>
      rw [if_pos rfl, if_neg (not_not_intro rfl)]
      change uri.schemePort = _
      split
      · rename_i hne
        rw [isDefaultPort, if_neg hne] at hd
        exact (of_decide_eq_true hd).symm
      · rfl

theorem isDefaultPort_normal (uri : Uri) : uri.normal.isDefaultPort = uri.isDefaultPort := by
  cases hd : uri.isDefaultPort with
  | false =>
      rw [isDefaultPort, normal_port, hd, if_neg Bool.false_ne_true]
      rw [isDefaultPort] at hd
      exact hd
  | true => rw [isDefaultPort, normal_port, hd, if_pos rfl, if_pos rfl]

theorem alike_normal (uri : Uri) : Alike uri uri.normal :=
  ⟨rfl, rfl, rfl, getPort_normal uri, getPath_normal uri, rfl, rfl⟩

theorem toString_normal (uri : Uri) : uri.normal.toString = uri.toString := by
  rw [toString, toString, getPath_normal, isDefaultPort_normal, normal_port]
  cases hd : uri.isDefaultPort <;> rfl

/-! ## The number of a port -/

theorem byte_of_digit {n : Nat} {c : Char} (hc : c ∈ Nat.toDigits 10 n) :
    c.toNat.toUInt8.toNat = c.toNat ∧ 48 ≤ c.toNat ∧ c.toNat ≤ 57 := by
  have hdigit := Nat.isDigit_of_mem_toDigits (by decide) (by decide) hc
  simp only [Char.isDigit_iff_toNat, Char.reduceToNat] at hdigit
  refine ⟨?_, hdigit⟩
  rw [UInt8.toNat_ofNat']
  omega

theorem star_sym {p : UInt8 → Bool} {u : Bytes} (h : ∀ b ∈ u, p b = true) :
    (star (sym p)).Accepts u := by
  induction u with
  | nil => exact accepts_nil.mpr rfl
  | cons b u ih =>
      have hb : (sym p).Accepts [b] :=
        ⟨eps, ⟨([], eps), by simp [next, h b List.mem_cons_self], rfl⟩, rfl⟩
      exact hb.star (ih fun d hd => h d (List.mem_cons_of_mem b hd))

theorem port_printed (n : Nat) : port.Accepts (printed n) := by
  refine star_sym fun b hb => ?_
  obtain ⟨c, hc, rfl⟩ := List.mem_map.mp hb
  obtain ⟨hbyte, hlow, hhigh⟩ := byte_of_digit hc
  rw [uri_machine.digit, between, hbyte]
  simp only [Char.reduceToNat, Bool.and_eq_true, decide_eq_true_eq]
  exact ⟨hlow, hhigh⟩

theorem number_printed (n : Nat) :
    (printed n).foldl (fun n d => 10 * n + (d.toNat - 48)) 0 = n := by
  rw [printed, List.foldl_map]
  have hdigits : (Nat.toDigits 10 n).foldl (fun n c => 10 * n + (c.toNat.toUInt8.toNat - 48)) 0 =
      (Nat.toDigits 10 n).foldl (fun n c => 10 * n + (c.toNat - 48)) 0 :=
    List.foldl_ext _ _ _ fun m c hc => by rw [(byte_of_digit hc).1]
  rw [hdigits]
  exact Nat.ofDigitChars_ten_toDigits

/-! ## Round trips -/

theorem Components.text_eq (c : Components) : c.text =
    c.scheme ++ chars "://" ++ c.user ++ c.host ++ behind 58 c.port ++ c.path ++
      behind 63 c.query ++ behind 35 c.fragment := by
  have hslashes : chars "://" = [58, 47, 47] := rfl
  simp [hslashes, text, authority, tail]

namespace Legal

/-- The text of a legal URI is put together from components. -/
def components (h : Legal uri) : Components where
  scheme := uri.m_scheme
  userinfo := if uri.m_userinfo = [] then none else some uri.m_userinfo
  host := uri.m_host
  port := if uri.isDefaultPort then none else some (portText uri.m_port)
  path := uri.getPath
  query := if uri.m_query = [] then none else some uri.m_query
  fragment := none
  scheme_legal := h.scheme
  userinfo_legal := by
    intro u hu
    split at hu
    · cases hu
    · cases hu
      exact h.userinfo
  host_legal := h.host
  port_legal := by
    intro d hd
    split at hd
    · cases hd
    · cases hd
      rw [portText, if_neg (Int.not_lt.mpr h.nonneg)]
      exact port_printed _
  path_legal := by
    rw [getPath]
    split
    · decide
    · exact h.path
  query_legal := by
    intro q hq
    split at hq
    · cases hq
    · cases hq
      exact h.query
  fragment_legal := nofun

theorem getD_ite (x : Bytes) : (if x = [] then none else some x).getD [] = x := by
  split
  · rename_i hx
    rw [hx]
    rfl
  · rfl

theorem text_components (h : Legal uri) : h.components.text = uri.toString := by
  have huser : h.components.user =
      uri.m_userinfo ++ if uri.m_userinfo = [] then [] else chars "@" := by
    simp only [Components.user, components]
    by_cases hu : uri.m_userinfo = []
    · simp [hu]
    · simp only [if_neg hu]
      rfl
  have hport : behind 58 h.components.port =
      if uri.isDefaultPort then [] else chars ":" ++ portText uri.m_port := by
    simp only [components]
    cases uri.isDefaultPort <;> rfl
  have hquery : behind 63 h.components.query =
      (if uri.m_query = [] then [] else chars "?") ++ uri.m_query := by
    simp only [components]
    by_cases hq : uri.m_query = []
    · simp [hq, behind]
    · simp only [if_neg hq]
      rfl
  have hfragment : behind 35 h.components.fragment = [] := rfl
  rw [h.components.text_eq, huser, hport, hquery, hfragment, toString, h.fragment, if_pos rfl]
  simp only [List.append_assoc, List.append_nil]
  rfl

theorem parsed_components (h : Legal uri) : h.components.parsed = uri.normal := by
  have hport : int32 (min (h.components.portNumber : Nat) 9223372036854775807 : Int) =
      if uri.isDefaultPort then 0 else uri.m_port := by
    rw [Components.portNumber]
    simp only [components]
    have hlt := h.bounded
    have hnonneg := h.nonneg
    cases uri.isDefaultPort with
    | true => rfl
    | false =>
        simp only [Bool.false_eq_true, if_false, Option.getD_some, portText,
          if_neg (Int.not_lt.mpr hnonneg), number_printed]
        rw [int32_min_iff.mpr (by omega)]
        omega
  rw [Components.parsed, hport, normal, Uri.mk.injEq]
  exact ⟨rfl, getD_ite _, rfl, rfl, getD_ite _, h.fragment.symm, rfl⟩

/-- `Create` reads the text of a legal URI. -/
theorem create_toString (h : Legal uri) : Create uri.toString = some uri.normal := by
  have hcolon : 58 ∉ h.components.userinfo.getD [] := by
    change 58 ∉ (if uri.m_userinfo = [] then none else some uri.m_userinfo).getD []
    rw [getD_ite]
    exact h.colon
  rw [← h.text_components, h.components.create_parsed hcolon, h.parsed_components]

end Legal

theorem Components.parsed_legal (c : Components) (hcolon : 58 ∉ c.userinfo.getD [])
    (hport : 0 ≤ c.parsed.m_port) : Legal c.parsed where
  scheme := c.scheme_legal
  userinfo := by
    change uri_machine.userinfo.Accepts (c.userinfo.getD [])
    cases hu : c.userinfo with
    | none => exact accepts_nil.mpr rfl
    | some u => exact c.userinfo_legal u hu
  colon := hcolon
  host := c.host_legal
  path := c.path_legal
  query := by
    have hpart : ∀ {o : Option Bytes}, (∀ x ∈ o, uri_machine.query.Accepts x) →
        uri_machine.query.Accepts (o.getD []) := by
      intro o ho
      cases o with
      | none => exact accepts_nil.mpr rfl
      | some x => exact ho x rfl
    change uri_machine.query.Accepts (if _ then _ else _)
    split
    · exact hpart c.query_legal
    · exact hpart c.fragment_legal
  fragment := rfl
  nonneg := hport
  bounded := by
    change int32 _ < _
    simp only [int32, uint32]
    omega

/-- The text that `toString` makes of a URI that was created is read back as a URI with the same
getters, and has the same text again. A port beyond 32 bits may have become negative. -/
theorem create_round_trip (c : Components) (hcolon : 58 ∉ c.userinfo.getD [])
    (hport : 0 ≤ c.parsed.m_port) : ∃ u v, Create c.text = some u ∧
      Create u.toString = some v ∧ Alike u v ∧ v.toString = u.toString :=
  ⟨c.parsed, c.parsed.normal, c.create_parsed hcolon,
    (c.parsed_legal hcolon hport).create_toString, alike_normal _, toString_normal _⟩

/-- `http://h:80` -/
def portEighty : Components :=
  { Components.withFragment with
    port := some (chars "80")
    path := []
    query := none
    fragment := none
    port_legal := by
      rintro d ⟨⟩
      decide
    path_legal := by decide
    query_legal := nofun
    fragment_legal := nofun }

example : portEighty.parsed.toString = chars "http://h/" := by
  decide

theorem create_round_trip_default_port : ∃ u v, Create portEighty.text = some u ∧
    Create u.toString = some v ∧ Alike u v ∧ v.toString = u.toString :=
  create_round_trip portEighty (by decide) (by decide)

end CIM.Uri
