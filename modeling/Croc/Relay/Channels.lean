import Croc.Relay.Keepalive
import Croc.Relay.Client

/-! The rooms of control and data connections. All listeners share one map, and a connection names
its room by three bytes, so nothing but these bytes keeps connections apart. -/
namespace Croc.Server
open Lib

/-- The clients of the relay run `RelayClient::connect`: the room that the relay can read from one
is the room of the connection that it opens. -/
def Opens (cfg : Config) (sha256 : Bytes → Block 32) (conn : ClientId → Connection) : Prop :=
  ∀ t name, sentRoom cfg t = some name → (conn t).room sha256 = .ok name

/-- Every bridge joins connections of one channel. -/
def ChannelsApart (sha256 : Bytes → Block 32) (conn : ClientId → Connection) (s : State) : Prop :=
  ∀ r receiver sender, .bridged r receiver sender ∈ s.log →
    (conn receiver).SameChannel sha256 (conn sender)

/-- What a bridge joins has asked for one room. -/
theorem spoke_of_bridged {cfg : Config} (hX : cfg.ext.WritesShort) {s : State}
    (h : (machine cfg).Reachable s) {r : RoomId} {receiver sender : ClientId}
    (hb : .bridged r receiver sender ∈ s.log) : receiver ≠ sender ∧ Spoke cfg receiver ∧
      Spoke cfg sender ∧ sentRoom cfg receiver = sentRoom cfg sender := by
  obtain ⟨h1, h2, -⟩ := (reachable_logInv h).bridged r receiver sender hb
  have hspoken := reachable_spokenInv hX h
  have hlive := reachable_liveInv hX h
  exact ⟨(hlive.fed receiver sender ⟨r, Or.inl hb⟩).1, hspoken.joined receiver ⟨r, Or.inr h2⟩,
    hspoken.joined sender ⟨r, Or.inl h1⟩, (hlive.names r sender receiver h1 h2).symm⟩

/-- Two clients that ask for one room can be bridged. -/
theorem exists_bridged {cfg : Config} (hX : cfg.ext.WritesShort) {receiver sender : ClientId}
    {name : String} {data data' : Bytes} (hne : receiver ≠ sender)
    (hs : Speaks cfg sender name data) (hr : Speaks cfg receiver name data') :
    ∃ s, (machine cfg).Reachable s ∧ .bridged 0 receiver sender ∈ s.log := by
  obtain ⟨s, h⟩ := exists_bridging hX (lenient_any cfg) hne hs hr
  exact ⟨s, h.reachable, by simp [h.log]⟩

/-- Channels are kept apart exactly when no two clients of different channels have secrets with one
room name. -/
theorem channelsApart_iff {cfg : Config} {sha256 : Bytes → Block 32}
    {conn : ClientId → Connection} (hX : cfg.ext.WritesShort) (hopen : Opens cfg sha256 conn) :
    (∀ s, (machine cfg).Reachable s → ChannelsApart sha256 conn s) ↔
      ∀ a b, a ≠ b → Spoke cfg a → Spoke cfg b → (conn a).room sha256 = (conn b).room sha256 →
        (conn a).SameChannel sha256 (conn b) := by
  have hroom : ∀ {t name data}, Speaks cfg t name data → (conn t).room sha256 = .ok name :=
    fun h => hopen _ _ h.sentRoom
  constructor
  · rintro h a b hne ⟨name, data, ha⟩ ⟨name', data', hb⟩ he
    rw [hroom ha, hroom hb] at he
    obtain rfl := Except.ok.inj he
    obtain ⟨s, hs, hbridged⟩ := exists_bridged hX hne hb ha
    exact h s hs 0 a b hbridged
  · intro h s hs r receiver sender hb
    obtain ⟨hne, hspoke, hspoke', hsent⟩ := spoke_of_bridged hX hs hb
    obtain ⟨name, data, hspeaks⟩ := hspoke
    obtain ⟨name', data', hspeaks'⟩ := hspoke'
    rw [hspeaks.sentRoom, hspeaks'.sentRoom] at hsent
    obtain rfl := Option.some.inj hsent
    exact h receiver sender hne ⟨name, data, hspeaks⟩ ⟨name, data', hspeaks'⟩
      (by rw [hroom hspeaks, hroom hspeaks'])

/-- A digest that starts with `abcdef`. -/
def abcDigest : Bytes → Block 32 := fun _ => External.padBlock 32 [0xab, 0xcd, 0xef]

theorem opens_visited {client : ClientId → Client} {sha256 : Bytes → Block 32}
    {conn : ClientId → Connection} {room : ClientId → String}
    (hv : ∀ t, ∃ listener, client t = visitor listener "pass123" (room t) [])
    (hlen : ∀ t, (asBytes (room t)).length + 28 < 2 ^ 32)
    (hr : ∀ t, (conn t).room sha256 = .ok (room t)) :
    Opens (visited "pass123" client) sha256 conn := by
  intro t name ht
  obtain ⟨listener, hl⟩ := hv t
  obtain ⟨enc, rest₁, rest₂, hs, hp, hn⟩ :=
    sent_visitor "pass123" client hl (by decide +kernel) (hlen t)
  rw [sentRoom_eq hs hp hn] at ht
  rw [hr t, Option.some.inj ht]

/-- The control connections of two users, and data connections under their secret. -/
def usersConn (t : ClientId) : Connection :=
  if t < 2 then .control "xyz12abc" else .data "xyz12abc"

def usersClient (t : ClientId) : Client :=
  if t < 2 then visitor .main "pass123" "xyz" []
  else visitor (.multiplex 9010) "pass123" "abc" []

theorem usersConn_room (t : ClientId) :
    (usersConn t).room abcDigest = .ok (if t < 2 then "xyz" else "abc") := by
  unfold usersConn
  split
  · decide +kernel
  · decide +kernel

/-- Their control connections name one room, and their data connections another. -/
theorem users_channelsApart : Opens (visited "pass123" usersClient) abcDigest usersConn ∧
    ∀ s, (machine (visited "pass123" usersClient)).Reachable s →
      ChannelsApart abcDigest usersConn s := by
  have ho : Opens (visited "pass123" usersClient) abcDigest usersConn := by
    refine opens_visited (fun t => ?_) (fun t => ?_) usersConn_room
    · unfold usersClient
      split
      · exact ⟨.main, rfl⟩
      · exact ⟨.multiplex 9010, rfl⟩
    · split
      · decide +kernel
      · decide +kernel
  refine ⟨ho, (channelsApart_iff External.transparent_writesShort ho).mpr fun a b _ _ _ h => ?_⟩
  rw [usersConn_room, usersConn_room] at h
  unfold usersConn
  by_cases ha : a < 2
  · by_cases hb : b < 2
    · rw [if_pos ha, if_pos hb]
      trivial
    · rw [if_pos ha, if_neg hb] at h
      exact absurd h (by decide)
  · by_cases hb : b < 2
    · rw [if_neg ha, if_pos hb] at h
      exact absurd h (by decide)
    · rw [if_neg ha, if_neg hb]
      rfl

/-- The control connection of a user, and data connections of strangers. -/
def strangeConn : ClientId → Connection
  | 0 => .control "abcde"
  | _ => .data "12345xyz"

def strangeClient : ClientId → Client
  | 0 => visitor .main "pass123" "abc" []
  | _ => visitor (.multiplex 9010) "pass123" "abc" []

/-- They ask for one room and are bridged. -/
theorem control_meets_data :
    Opens (visited "pass123" strangeClient) abcDigest strangeConn ∧
    ¬ ∀ s, (machine (visited "pass123" strangeClient)).Reachable s →
      ChannelsApart abcDigest strangeConn s := by
  have hv : ∀ t, ∃ listener, strangeClient t = visitor listener "pass123" "abc" [] := by
    rintro (_ | t)
    · exact ⟨.main, rfl⟩
    · exact ⟨.multiplex 9010, rfl⟩
  refine ⟨opens_visited hv (fun _ => by decide +kernel) fun t => ?_, fun h => ?_⟩
  · match t with
    | 0 => decide +kernel
    | t + 1 =>
      show (Connection.data "12345xyz").room abcDigest = .ok "abc"
      decide +kernel
  · have hX : External.transparent.WritesShort := External.transparent_writesShort
    have hs : ∀ t, Speaks (visited "pass123" strangeClient) t "abc" [] := by
      intro t
      obtain ⟨listener, hl⟩ := hv t
      exact visitor_speaks hl (by decide +kernel) (by decide +kernel)
    obtain ⟨s, hreach, hb⟩ := exists_bridged hX Nat.one_ne_zero (hs 0) (hs 1)
    exact h s hreach 0 1 0 hb

end Croc.Server
