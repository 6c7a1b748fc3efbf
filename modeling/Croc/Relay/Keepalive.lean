import Croc.Relay.Live

/-! Keepalives and the ends of a session. The relay writes them to whichever session waits in the
first slot of a room; only the sender's end of the control connection expects them. -/
namespace Croc.Server
open Lib

/-- What `handle_keepalive` looks at: the ports that the relay announced, and the machine's own
addresses. -/
structure RelayClient where
  relayPorts : List String
  disableLocal : Bool
  localIps : List String

/-- The answer to `ips?`. -/
def RelayClient.ips (client : RelayClient) : Except Halt (List String) :=
  if client.disableLocal then .ok []
  else match client.relayPorts with
    | [] => .error (.panic .portIndex)
    | port :: _ => .ok (port :: client.localIps)

/-- `RelayClient::handle_keepalive`: the messages that it writes, and the stream that it leaves to
the session. -/
def handleKeepalive (X : External) (client : RelayClient) (input : Bytes) :
    Except Halt (List Bytes × Bytes) :=
  match _h : CrocProto.read input with
  | (.error e, _) => .error e
  | (.ok data, rest) =>
    if data = asBytes "ips?" then do
      let ips ← client.ips
      let outbips := asBytes (X.listToJson ips)
      let _ ← CrocProto.write outbips
      let (replies, rest) ← handleKeepalive X client rest
      return (outbips :: replies, rest)
    else if data = asBytes "handshake" then .ok ([], rest)
    else if data = [1] then handleKeepalive X client rest
    else .error (.err (.unknownKeepaliveMessage data))
termination_by input.length
decreasing_by all_goals exact CrocProto.read_ok_length ‹_›

section HandleKeepalive
variable {X : External} {client : RelayClient}

theorem asBytes_handshake :
    asBytes "handshake" = [0x68, 0x61, 0x6e, 0x64, 0x73, 0x68, 0x61, 0x6b, 0x65] := by
  decide +kernel

theorem handshake_length : (asBytes "handshake").length < 2 ^ 32 := by
  rw [asBytes_handshake]
  decide

/-- A message that is not a question for addresses ends the loop or is passed over. -/
theorem handleKeepalive_read {input msg rest : Bytes}
    (hread : CrocProto.read input = (.ok msg, rest)) (hips : msg ≠ asBytes "ips?") :
    handleKeepalive X client input =
      if msg = asBytes "handshake" then .ok ([], rest)
      else if msg = [1] then handleKeepalive X client rest
      else .error (.err (.unknownKeepaliveMessage msg)) := by
  rw [handleKeepalive]
  split
  next heq => simp [hread] at heq
  next data rest heq =>
    obtain ⟨hd, rfl⟩ := Prod.mk.inj (hread.symm.trans heq)
    obtain rfl := Except.ok.inj hd
    rw [if_neg hips]

theorem handleKeepalive_handshake (r : Bytes) :
    handleKeepalive X client (frame (asBytes "handshake") ++ r) = .ok ([], r) := by
  have hips : asBytes "handshake" ≠ asBytes "ips?" := by decide +kernel
  have hread := CrocProto.read_frame handshake_length r
  rw [handleKeepalive_read hread hips, if_pos rfl]

theorem handleKeepalive_ping (r : Bytes) :
    handleKeepalive X client (frame [1] ++ r) = handleKeepalive X client r := by
  have hips : [1] ≠ asBytes "ips?" := by decide +kernel
  have hshake : [1] ≠ asBytes "handshake" := by decide +kernel
  have hread : CrocProto.read (frame [1] ++ r) = (.ok [1], r) := CrocProto.read_frame (by decide) r
  rw [handleKeepalive_read hread hips, if_neg hshake, if_pos rfl]

theorem handleKeepalive_pings (n : ℕ) (r : Bytes) :
    handleKeepalive X client (CrocProto.frames (List.replicate n [1]) ++ r) =
      handleKeepalive X client r := by
  induction n with
  | zero => rfl
  | succ n ih =>
    rw [List.replicate_succ, CrocProto.frames_cons, List.append_assoc, handleKeepalive_ping, ih]

/-- Of a stream that starts with a handshake, `handle_keepalive` takes the handshake. -/
theorem handleKeepalive_prefix {a w rest : Bytes} {replies : List Bytes}
    (ha : a <+: frame (asBytes "handshake") ++ w)
    (h : handleKeepalive X client a = .ok (replies, rest)) :
    replies = [] ∧ a = frame (asBytes "handshake") ++ rest := by
  obtain ⟨more, hmore⟩ := ha
  cases hr : CrocProto.read a with
  | mk res r' =>
    cases res with
    | error e =>
      rw [handleKeepalive] at h
      split at h
      · simp at h
      next heq => simp [hr] at heq
    | ok msg =>
      have hread := CrocProto.read_frame handshake_length w
      rw [← hmore, CrocProto.read_append hr] at hread
      obtain rfl := Except.ok.inj (Prod.mk.inj hread).1
      obtain ⟨rfl, -⟩ := CrocProto.read_ok hr
      rw [handleKeepalive_handshake] at h
      obtain ⟨hreplies, rfl⟩ := Prod.mk.inj (Except.ok.inj h)
      exact ⟨hreplies.symm, rfl⟩

theorem handleKeepalive_rest {a r rest : Bytes} {replies : List Bytes}
    (ha : a <+: frame (asBytes "handshake") ++ r)
    (h : handleKeepalive X client a = .ok (replies, rest)) : rest <+: r := by
  obtain ⟨-, rfl⟩ := handleKeepalive_prefix ha h
  exact (List.prefix_append_right_inj _).mp ha

end HandleKeepalive

/-- The two ends of a session with their four connections, and the messages that their session
code writes: on the control connection in both directions, and the chunks of the sender. -/
structure Ends where
  sender : ClientId
  receiver : ClientId
  senderData : ClientId
  receiverData : ClientId
  controlRoom : String
  dataRoom : String
  toReceiver : List Bytes
  toSender : List Bytes
  chunks : List Bytes

namespace Ends
variable (E : Ends)

/-- The clients of the relay that ask for the two rooms are the ends of the session, and they run
the code of the session. The receiver starts with a handshake. -/
structure Connected (cfg : Config) : Prop where
  sender_speaks : Speaks cfg E.sender E.controlRoom (CrocProto.frames E.toReceiver)
  receiver_speaks : Speaks cfg E.receiver E.controlRoom
    (CrocProto.frames (asBytes "handshake" :: E.toSender))
  senderData_speaks : Speaks cfg E.senderData E.dataRoom (CrocProto.frames E.chunks)
  receiverData_speaks : Speaks cfg E.receiverData E.dataRoom []
  control_only : ∀ c, sentRoom cfg c = some E.controlRoom → c = E.sender ∨ c = E.receiver
  data_only : ∀ c, sentRoom cfg c = some E.dataRoom → c = E.senderData ∨ c = E.receiverData
  short : ∀ m ∈ E.toReceiver ++ E.toSender ++ E.chunks, m.length < 2 ^ 32

/-- The frames that reach the session code are the first ones that the other end's session code
wrote: in `Message::recv` of either end, and in the chunk loop of the receiver. -/
structure Hears (X : External) (s : State) : Prop where
  receiver : CrocProto.readAll (s.conn E.receiver).stream <+: E.toReceiver
  sender : ∀ client replies rest,
    handleKeepalive X client (s.conn E.sender).stream = .ok (replies, rest) →
      CrocProto.readAll rest <+: E.toSender
  receiverData : CrocProto.readAll (s.conn E.receiverData).stream <+: E.chunks

/-- `do_keepalive` does not write to a connection of the receiver. -/
def Undisturbed (s : State) : Event → Prop
  | .resume t io => io.ok = true → ∀ r c, s.pc t = .keepPing r c →
      c ≠ E.receiver ∧ c ≠ E.receiverData
  | .pump .. => True

end Ends

theorem stream_pings (n : ℕ) (pieces : List Bytes) :
    ((List.replicate n Live.ping ++ pieces.map Live.relayed).map Live.bytes).flatten =
      CrocProto.frames (List.replicate n [1]) ++ pieces.flatten := by
  have hpieces : (pieces.map Live.relayed).map Live.bytes = pieces := by
    rw [List.map_map]
    exact List.map_id _
  rw [List.map_append, List.flatten_append, hpieces, List.map_replicate]
  rw [CrocProto.frames, List.map_replicate]
  rfl

/-- What a client has heard: keepalives, then bytes that a client who asked for the same room has
said, in order. -/
theorem LiveInv.stream {cfg : Config} {s : State} (h : LiveInv cfg s) (c : ClientId) :
    ∃ n said, (s.conn c).stream = CrocProto.frames (List.replicate n [1]) ++ said ∧
      (0 < n ↔ .ping ∈ (s.conn c).live) ∧
      (said = [] ∨ ∃ p name data, p ≠ c ∧ Speaks cfg p name data ∧
        sentRoom cfg c = some name ∧ said <+: data) := by
  rcases h.heard c with ⟨n, hn⟩ | ⟨p, hp⟩
  · refine ⟨n, [], ?_, ?_, Or.inl rfl⟩
    · rw [Conn.stream, hn]
      simpa using stream_pings n []
    · simp [hn, Nat.pos_iff_ne_zero]
  · obtain ⟨hne, n, pieces, name, data, hl, hs, hr, hd⟩ := h.fed c p hp
    refine ⟨n, pieces.flatten, ?_, ?_, Or.inr ⟨p, name, data, hne.symm, hs, hr, _, hd⟩⟩
    · rw [Conn.stream, hl, stream_pings]
    · simp [hl, Nat.pos_iff_ne_zero]

namespace Ends
variable {E : Ends}

theorem Undisturbed.no_ping {cfg : Config} {s : State}
    (h : (machine cfg).ReachableBy E.Undisturbed s) {c : ClientId}
    (hc : c = E.receiver ∨ c = E.receiverData) : .ping ∉ (s.conn c).live := by
  refine h.invariant (P := fun s => .ping ∉ (s.conn c).live) (by simp [machine, start, freshConn])
    fun s e s' _ hp hok he => ?_
  cases e with
  | resume t io =>
    rcases resume_live he c with hl | ⟨hio, r, hpc⟩
    · rwa [hl]
    · obtain ⟨h1, h2⟩ := hok hio r c hpc
      exact absurd hc (by simp [h1, h2])
  | pump t b n =>
    rcases (pump_pumped he).live c with hl | ⟨bytes, hl⟩
    · rwa [hl]
    · rw [hl]
      simpa using hp

/-- What one end of a pair of clients hears comes from the other. -/
theorem said_of_pair {cfg : Config} {s : State} (h : LiveInv cfg s) {a b : ClientId}
    {room : String} {said : Bytes} (hb : Speaks cfg b room said)
    (ha : sentRoom cfg a = some room)
    (honly : ∀ c, sentRoom cfg c = some room → c = a ∨ c = b) :
    ∃ n heard, (s.conn a).stream = CrocProto.frames (List.replicate n [1]) ++ heard ∧
      (0 < n ↔ .ping ∈ (s.conn a).live) ∧ heard <+: said := by
  obtain ⟨n, heard, hs, hn, hsaid⟩ := h.stream a
  refine ⟨n, heard, hs, hn, ?_⟩
  rcases hsaid with rfl | ⟨p, name, data, hne, hp, hr, hpre⟩
  · exact List.nil_prefix
  · obtain rfl : room = name := Option.some.inj (ha.symm.trans hr)
    obtain rfl : p = b := (honly p hp.sentRoom).resolve_left hne
    obtain ⟨-, rfl⟩ := hb.unique hp
    exact hpre

/-- In runs in which no keepalive is written to a connection of the receiver, the session code of
both ends reads only what the other end's session code wrote. -/
theorem hears_of_undisturbed {cfg : Config} (hX : cfg.ext.WritesShort) (hE : E.Connected cfg)
    {s : State} (h : (machine cfg).ReachableBy E.Undisturbed s) : E.Hears cfg.ext s := by
  have hlive := reachable_liveInv hX h.reachable
  have hshort := hE.short
  simp only [List.mem_append, or_imp, forall_and] at hshort
  refine ⟨?_, fun client replies rest hk => ?_, ?_⟩
  · obtain ⟨n, heard, hs, hn, hpre⟩ := said_of_pair hlive hE.sender_speaks
      hE.receiver_speaks.sentRoom fun c hc => (hE.control_only c hc).symm
    have hn0 : n = 0 := by
      by_contra h0
      exact Undisturbed.no_ping h (Or.inl rfl) (hn.mp (Nat.pos_of_ne_zero h0))
    rw [hs, hn0]
    have := CrocProto.readAll_mono hpre
    rwa [CrocProto.readAll_frames hshort.1.1] at this
  · obtain ⟨n, heard, hs, -, hpre⟩ := said_of_pair hlive hE.receiver_speaks
      hE.sender_speaks.sentRoom hE.control_only
    rw [hs, handleKeepalive_pings] at hk
    have := CrocProto.readAll_mono (handleKeepalive_rest (r := CrocProto.frames E.toSender) hpre hk)
    rwa [CrocProto.readAll_frames hshort.1.2] at this
  · obtain ⟨n, heard, hs, hn, hpre⟩ := said_of_pair hlive hE.senderData_speaks
      hE.receiverData_speaks.sentRoom fun c hc => (hE.data_only c hc).symm
    have hn0 : n = 0 := by
      by_contra h0
      exact Undisturbed.no_ping h (Or.inr rfl) (hn.mp (Nat.pos_of_ne_zero h0))
    rw [hs, hn0]
    have := CrocProto.readAll_mono hpre
    rwa [CrocProto.readAll_frames hshort.2] at this

/-- A keepalive that was written to the receiver comes first in what it reads. -/
theorem keepalive_heard {cfg : Config} (hX : cfg.ext.WritesShort) {s : State}
    (h : (machine cfg).Reachable s) {c : ClientId} (hc : .ping ∈ (s.conn c).live) :
    ∃ msgs, CrocProto.readAll (s.conn c).stream = [1] :: msgs := by
  obtain ⟨n, said, hs, hn, -⟩ := (reachable_liveInv hX h).stream c
  obtain ⟨m, rfl⟩ := Nat.exists_eq_succ_of_ne_zero (hn.mpr hc).ne'
  rw [hs, List.replicate_succ, CrocProto.frames_cons, List.append_assoc,
    CrocProto.readAll_frame (by decide)]
  exact ⟨_, rfl⟩

end Ends

/-- A client that hangs up at once. -/
def silent : Client := { visitor .main "" "" [] with input := [] }

theorem silent_sentRoom {cfg : Config} {t : ClientId} (h : cfg.client t = silent) :
    sentRoom cfg t = none := by
  have hread : CrocProto.read silent.input = (.error (.err .magicEof), []) := rfl
  simp [sentRoom, sentSession, h, hread]

/-- Four connections of one session: the receiver is there first. -/
def earlyReceiver : Config := visited "pass123" fun
  | 0 => visitor .main "pass123" "123" (CrocProto.frames [asBytes "handshake"])
  | 1 => visitor .main "pass123" "123" (CrocProto.frames [asBytes "pake"])
  | 2 => visitor (.multiplex 9010) "pass123" "5f2" (CrocProto.frames [asBytes "chunk"])
  | 3 => visitor (.multiplex 9010) "pass123" "5f2" (CrocProto.frames [])
  | _ => silent

def earlyReceiverEnds : Ends where
  sender := 1
  receiver := 0
  senderData := 2
  receiverData := 3
  controlRoom := "123"
  dataRoom := "5f2"
  toReceiver := [asBytes "pake"]
  toSender := []
  chunks := [asBytes "chunk"]

theorem earlyReceiver_silent (n : ℕ) : earlyReceiver.client (n + 4) = silent := rfl

theorem earlyReceiver_connected : earlyReceiverEnds.Connected earlyReceiver := by
  have s0 : Speaks earlyReceiver 0 "123" (CrocProto.frames [asBytes "handshake"]) :=
    visitor_speaks rfl (by decide +kernel) (by decide +kernel)
  have s1 : Speaks earlyReceiver 1 "123" (CrocProto.frames [asBytes "pake"]) :=
    visitor_speaks rfl (by decide +kernel) (by decide +kernel)
  have s2 : Speaks earlyReceiver 2 "5f2" (CrocProto.frames [asBytes "chunk"]) :=
    visitor_speaks rfl (by decide +kernel) (by decide +kernel)
  have s3 : Speaks earlyReceiver 3 "5f2" (CrocProto.frames []) :=
    visitor_speaks rfl (by decide +kernel) (by decide +kernel)
  have hne : "123" ≠ "5f2" := by decide
  refine ⟨s1, s0, s2, s3, fun c hc => ?_, fun c hc => ?_, by decide +kernel⟩
  · rcases c with _ | _ | _ | _ | n
    · exact Or.inr rfl
    · exact Or.inl rfl
    · exact absurd (Option.some.inj (hc.symm.trans s2.sentRoom)) hne
    · exact absurd (Option.some.inj (hc.symm.trans s3.sentRoom)) hne
    · exact absurd ((silent_sentRoom (earlyReceiver_silent n)).symm.trans hc)
        (Option.some_ne_none _).symm
  · rcases c with _ | _ | _ | _ | n
    · exact absurd (Option.some.inj (s0.sentRoom.symm.trans hc)) hne
    · exact absurd (Option.some.inj (s1.sentRoom.symm.trans hc)) hne
    · exact Or.inl rfl
    · exact Or.inr rfl
    · exact absurd ((silent_sentRoom (earlyReceiver_silent n)).symm.trans hc)
        (Option.some_ne_none _).symm

/-- A receiver that waits for more than a second reads a keepalive as its first message. -/
theorem earlyReceiver_hears_keepalive :
    ∃ s, (machine earlyReceiver).Reachable s ∧ ¬ earlyReceiverEnds.Hears .transparent s := by
  have hspeaks := earlyReceiver_connected.receiver_speaks
  obtain ⟨_, h0⟩ := (ready_start earlyReceiver _ 0).wait External.transparent_writesShort
    (lenient_any _) hspeaks rfl rfl
  have h1 := reach_ping (t := 0) (r := 0) (u := 0) (lenient_any _) h0 rfl rfl rfl
    fun _ _ => trivial
  refine ⟨_, h1, fun h => ?_⟩
  have hread : CrocProto.readAll (CrocProto.frames [[1]]) <+: [asBytes "pake"] := h.receiver
  rw [CrocProto.readAll_frames (by decide)] at hread
  have := (List.cons_prefix_cons.mp hread).1
  exact absurd this (by decide +kernel)

theorem Ends.lenient_undisturbed (E : Ends) (cfg : Config) : Lenient cfg E.Undisturbed where
  free s t io _ hping _ r c hpc := absurd hpc (hping r c)
  lookup s t io name enc _ hpc _ _ r c hpc' := by simp [hpc] at hpc'

theorem Ends.undisturbed_pump (E : Ends) (s : State) (t : ClientId) (b : Bool) (n : ℕ) :
    E.Undisturbed s (.pump t b n) := True.intro

/-- If the sender is first in both rooms, it is the one that hears a keepalive. The receiver joins
it there, and hears its message and its chunk. -/
theorem earlySender_hears : ∃ s,
    (machine earlyReceiver).ReachableBy earlyReceiverEnds.Undisturbed s ∧
    .ping ∈ (s.conn 1).live ∧ CrocProto.readAll (s.conn 0).stream = [asBytes "pake"] ∧
    CrocProto.readAll (s.conn 3).stream = [asBytes "chunk"] ∧
    earlyReceiverEnds.Hears .transparent s := by
  have hX : earlyReceiver.ext.WritesShort := External.transparent_writesShort
  have hok := earlyReceiverEnds.lenient_undisturbed earlyReceiver
  have hE := earlyReceiver_connected
  obtain ⟨_, h0⟩ := (ready_start earlyReceiver _ 1).wait hX hok hE.sender_speaks rfl rfl
  have h1 := reach_ping (t := 1) (r := 0) (u := 1) hok h0 rfl rfl rfl
    fun s' hpc _ r c hpc' => by
      obtain ⟨-, rfl⟩ : 0 = r ∧ 1 = c := by simpa [hpc] using hpc'
      decide
  obtain ⟨_, h2⟩ := Ready.bridge (t := 0) (r := 0) (u := 1) hX hok ⟨h1, rfl, rfl, rfl⟩
    hE.receiver_speaks rfl rfl rfl
  have h3 := h2.step (earlyReceiverEnds.undisturbed_pump _ 0 false 12) rfl
  obtain ⟨_, h4⟩ := Ready.wait (t := 2) hX hok ⟨h3, rfl, rfl, rfl⟩ hE.senderData_speaks rfl rfl
  obtain ⟨_, h5⟩ := Ready.bridge (t := 3) (r := 1) (u := 2) hX hok ⟨h4, rfl, rfl, rfl⟩
    hE.receiverData_speaks rfl rfl rfl
  have h6 := h5.step (earlyReceiverEnds.undisturbed_pump _ 3 false 13) rfl
  refine ⟨_, h6, ?_, ?_, ?_, Ends.hears_of_undisturbed hX hE h6⟩
  · simp [start, freshConn]
  · show CrocProto.readAll ((CrocProto.frames [asBytes "pake"]).take 12 ++ []) = _
    rw [List.append_nil, List.take_of_length_le (by decide +kernel),
      CrocProto.readAll_frames (by decide +kernel)]
  · show CrocProto.readAll ((CrocProto.frames [asBytes "chunk"]).take 13 ++ []) = _
    rw [List.append_nil, List.take_of_length_le (by decide +kernel),
      CrocProto.readAll_frames (by decide +kernel)]

end Croc.Server
