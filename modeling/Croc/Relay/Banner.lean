import Croc.Relay.Negotiate
import Croc.Relay.Client

/-! The info message from one end to the other: what the relay writes into it, the text of the
peer's socket address with it, and what the client reads out of it. -/
namespace Croc.Server
open Lib

abbrev Ipv4Addr := List.Vector UInt8 4

abbrev Ipv6Addr := List.Vector UInt16 8

/-- What `to_string` shows of a `std::net::SocketAddr`. -/
inductive SocketAddr where
  | v4 (ip : Ipv4Addr) (port : UInt16)
  | v6 (ip : Ipv6Addr) (scopeId : UInt32) (port : UInt16)

/-- `{:x}` of a number -/
def hex (n : ℕ) : String := String.ofList (Nat.toDigits 16 n)

def dotted (octets : List UInt8) : String :=
  ".".intercalate (octets.map fun octet => toString octet.toNat)

def colons (segments : List UInt16) : String :=
  ":".intercalate (segments.map fun segment => hex segment.toNat)

/-- Consecutive segments of an address. -/
structure Span where
  start : ℕ
  len : ℕ

/-- The first of the longest spans of zeros among `segments`, which start at position `i`. -/
def zeroes : List UInt16 → ℕ → Span → Span → Span
  | [], _, _, longest => longest
  | segment :: segments, i, current, longest =>
    if segment = 0 then
      let current := ⟨if current.len = 0 then i else current.start, current.len + 1⟩
      zeroes segments (i + 1) current (if longest.len < current.len then current else longest)
    else zeroes segments (i + 1) ⟨0, 0⟩ longest

def Ipv4Addr.text (ip : Ipv4Addr) : String := dotted ip.toList

/-- An address that is mapped from IPv4 ends in a dotted one; otherwise `::` stands for the longest
span of at least two zeros. -/
def Ipv6Addr.text (ip : Ipv6Addr) : String :=
  match ip.toList with
  | [0, 0, 0, 0, 0, 0xFFFF, ab, cd] =>
    "::ffff:" ++ dotted [(ab >>> 8).toUInt8, ab.toUInt8, (cd >>> 8).toUInt8, cd.toUInt8]
  | segments =>
    let span := zeroes segments 0 ⟨0, 0⟩ ⟨0, 0⟩
    if 1 < span.len then
      colons (segments.take span.start) ++ "::" ++ colons (segments.drop (span.start + span.len))
    else colons segments

def SocketAddr.text : SocketAddr → String
  | .v4 ip port => ip.text ++ ":" ++ toString port.toNat
  | .v6 ip scopeId port =>
    "[" ++ ip.text ++ (if scopeId = 0 then "" else "%" ++ toString scopeId.toNat) ++ "]:" ++
      toString port.toNat

/-- The client keeps the ports in decimal and in order, and the text of its address, as the relay
has them. -/
def RoundTrips (R : Relay) (addr : SocketAddr) : Prop :=
  Caller.hearInfo (.ok (asBytes (infoMessage R addr.text))) =
    .ok (R.multiplexPorts.map fun port => toString port.toNat, addr.text)

section Split
variable {x : Char} {xs front back : List Char}

theorem splitOnce_append (h : x ∉ front) :
    splitOnce (x :: xs) (front ++ (x :: xs ++ back)) = some (front, back) := by
  induction front with
  | nil => simp [splitOnce]
  | cons c front ih =>
    rw [List.mem_cons, not_or] at h
    have hc : (x :: xs).isPrefixOf (c :: (front ++ (x :: xs ++ back))) = false := by
      simp [List.isPrefixOf, h.1]
    rw [List.cons_append, splitOnce, hc, ih h.2]
    rfl

theorem splitOnce_eq_none {cs : List Char} (h : x ∉ cs) : splitOnce (x :: xs) cs = none := by
  induction cs with
  | nil => rfl
  | cons c cs ih =>
    rw [List.mem_cons, not_or] at h
    have hc : (x :: xs).isPrefixOf (c :: cs) = false := by
      simp [List.isPrefixOf, h.1]
    rw [splitOnce, hc, ih h.2]
    rfl

end Split

/-- A text without the character that the separator of the message is made of. -/
def Plain (s : String) : Prop := '|' ∉ s.toList

instance (s : String) : Decidable (Plain s) := inferInstanceAs (Decidable ('|' ∉ s.toList))

theorem Plain.append {s t : String} (hs : Plain s) (ht : Plain t) : Plain (s ++ t) := by
  rw [Plain, String.toList_append, List.mem_append]
  exact not_or.mpr ⟨hs, ht⟩

theorem Plain.intercalate {sep : String} {ts : List String} (hsep : Plain sep)
    (hts : ∀ t ∈ ts, Plain t) : Plain (sep.intercalate ts) := by
  induction ts with
  | nil => simp [Plain]
  | cons t ts ih =>
    have ht := hts t List.mem_cons_self
    have hrest := ih fun u hu => hts u (List.mem_cons_of_mem t hu)
    cases ts with
    | nil => simpa using ht
    | cons u us =>
      rw [String.intercalate_cons_of_ne_nil (List.cons_ne_nil u us)]
      exact (ht.append hsep).append hrest

theorem bar_notMem_toDigits {b : ℕ} (hb : 1 < b) (hb' : b ≤ 16) (n : ℕ) :
    '|' ∉ Nat.toDigits b n := by
  have hdigit : ∀ d < 16, '|' ≠ Nat.digitChar d := by decide
  induction n using Nat.strongRecOn with
  | _ n ih =>
    rw [Nat.toDigits_eq_if hb]
    split
    next hlt => exact List.mem_singleton.not.mpr (hdigit n (by omega))
    next hlt =>
      have hmod : n % b < b := Nat.mod_lt n (by omega)
      rw [List.mem_append, not_or]
      exact ⟨ih _ (Nat.div_lt_self (by omega) hb),
        List.mem_singleton.not.mpr (hdigit _ (by omega))⟩

theorem plain_toString (n : ℕ) : Plain (toString n) := by
  rw [Plain, Nat.toString_eq_repr, Nat.toList_repr]
  exact bar_notMem_toDigits (by norm_num) (by norm_num) n

theorem plain_hex (n : ℕ) : Plain (hex n) := by
  rw [Plain, hex, String.toList_ofList]
  exact bar_notMem_toDigits (by norm_num) le_rfl n

/-- Numbers in a row, with a separator that is free of bars. -/
theorem plain_numbers {α : Type} {sep : String} (hsep : Plain sep) {number : α → String}
    (h : ∀ a, Plain (number a)) (as : List α) : Plain (sep.intercalate (as.map number)) :=
  .intercalate hsep fun t ht => by
    obtain ⟨a, -, rfl⟩ := List.mem_map.mp ht
    exact h a

theorem plain_dotted (octets : List UInt8) : Plain (dotted octets) := by
  have hdot : Plain "." := by decide +kernel
  unfold dotted
  have hoctets := plain_numbers hdot (fun octet : UInt8 => plain_toString octet.toNat) octets
  exact hoctets

theorem plain_colons (segments : List UInt16) : Plain (colons segments) := by
  have hcolon : Plain ":" := by decide +kernel
  unfold colons
  have hsegments := plain_numbers hcolon (fun segment : UInt16 => plain_hex segment.toNat) segments
  exact hsegments

theorem Ipv6Addr.plain_text (ip : Ipv6Addr) : Plain ip.text := by
  unfold Ipv6Addr.text
  split
  · exact .append (by decide +kernel) (plain_dotted _)
  · dsimp only
    split
    · exact ((plain_colons _).append (by decide +kernel)).append (plain_colons _)
    · exact plain_colons _

theorem SocketAddr.plain_text (addr : SocketAddr) : Plain addr.text := by
  cases addr with
  | v4 ip port => exact ((plain_dotted _).append (by decide +kernel)).append (plain_toString _)
  | v6 ip scopeId port =>
    have hscope : Plain (if scopeId = 0 then "" else "%" ++ toString scopeId.toNat) := by
      split
      · decide +kernel
      · exact .append (by decide +kernel) (plain_toString _)
    have hip : Plain ("[" ++ ip.text) := .append (by decide +kernel) ip.plain_text
    exact ((hip.append hscope).append (by decide +kernel)).append (plain_toString _)

/-- Of a message whose parts are free of bars, the client takes these parts. -/
theorem parseInfo_append {banner addr : String} (hbanner : Plain banner) (haddr : Plain addr) :
    parseInfo (banner ++ "|||" ++ addr) =
      some ((banner.toList.splitOn ',').map String.ofList, addr) := by
  have hbars : "|||".toList = bars := rfl
  rw [parseInfo, String.toList_append, String.toList_append, hbars, List.append_assoc, bars,
    splitOnce_append hbanner]
  simp [splitOnce_eq_none haddr]

/-- The ports of a banner come back one by one. -/
theorem splitOn_ports {ports : List UInt16} (h : ports ≠ []) :
    ((",".intercalate (ports.map fun port => toString port.toNat)).toList.splitOn ',').map
      String.ofList = ports.map fun port => toString port.toNat := by
  have hcomma : ∀ n : ℕ, ',' ∉ (toString n).toList := fun n hn => by
    rw [Nat.toString_eq_repr, Nat.toList_repr] at hn
    simpa using Nat.isDigit_of_mem_toDigits (by norm_num) (by norm_num) hn
  rw [String.toList_intercalate, show ",".toList = [','] from rfl, List.splitOn_intercalate]
  · simp only [List.map_map, Function.comp_def, String.ofList_toList]
  · intro l hl
    rw [List.map_map] at hl
    obtain ⟨port, -, rfl⟩ := List.mem_map.mp hl
    exact hcomma port.toNat
  · simpa using h

theorem hearInfo_eq {R : Relay} {addr : SocketAddr} {ports : List String}
    (h : parseInfo (infoMessage R addr.text) = some (ports, addr.text)) :
    Caller.hearInfo (.ok (asBytes (infoMessage R addr.text))) = .ok (ports, addr.text) := by
  simp [Caller.hearInfo, bind, Except.bind, h]

/-- Without a multiplex port the client takes the word in the place of the ports for a port. -/
theorem hearInfo_no_ports {R : Relay} (h : R.multiplexPorts = []) (addr : SocketAddr) :
    Caller.hearInfo (.ok (asBytes (infoMessage R addr.text))) = .ok (["ok"], addr.text) := by
  refine hearInfo_eq ?_
  have hok : Plain "ok" := by decide +kernel
  rw [infoMessage, h, List.length_nil, if_pos rfl, parseInfo_append hok addr.plain_text]
  rfl

theorem hearInfo_ports {R : Relay} (h : R.multiplexPorts ≠ []) (addr : SocketAddr) :
    Caller.hearInfo (.ok (asBytes (infoMessage R addr.text))) =
      .ok (R.multiplexPorts.map fun port => toString port.toNat, addr.text) := by
  refine hearInfo_eq ?_
  have hcomma : Plain "," := by decide +kernel
  have hplain := plain_numbers hcomma (fun port : UInt16 => plain_toString port.toNat)
    R.multiplexPorts
  have hlength : R.multiplexPorts.length ≠ 0 := by simpa using h
  rw [infoMessage, if_neg hlength, parseInfo_append hplain addr.plain_text, splitOn_ports h]

/-- The banner comes through if and only if the relay has a multiplex port. -/
theorem roundTrips_iff (R : Relay) (addr : SocketAddr) :
    RoundTrips R addr ↔ R.multiplexPorts ≠ [] := by
  constructor
  · intro h hnil
    rw [RoundTrips, hearInfo_no_ports hnil addr, hnil] at h
    simp at h
  · exact fun h => hearInfo_ports h addr

/-- A relay without multiplex ports tells its client of a port "ok". -/
theorem portless_not_roundTrips :
    ¬ RoundTrips ⟨"pass123", []⟩ (.v4 ⟨[127, 0, 0, 1], rfl⟩ 50000) := by
  intro h
  rw [RoundTrips, hearInfo_no_ports rfl] at h
  simp at h

end Croc.Server
