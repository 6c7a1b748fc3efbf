import Croc.Relay.Steps

/-! What a client says to the relay before it is let into a room, read off the bytes that it
sends, and the run that takes it there. -/
namespace Croc.Server
open Lib External

/-- The encrypted session that the key exchange and the salt of a client lead to, and what the
client sends after them. -/
def sentSession (cfg : Config) (t : ClientId) : Option (EncryptedSession × Bytes) :=
  match CrocProto.read (cfg.client t).input with
  | (.ok msg, rest) =>
    match answerKey cfg t msg with
    | .ok (_, some k) =>
      match EncryptedSession.newReciever cfg.ext k (cfg.client t).rnd rest with
      | (.ok enc, rest) => some (enc, rest)
      | (.error _, _) => none
    | _ => none
  | (.error _, _) => none

/-- The next encrypted text of a stream, and what is left of it. -/
def readText (X : External) (enc : EncryptedSession) (input : Bytes) : Option (String × Bytes) :=
  match enc.read X input with
  | (.ok data, rest) => (fromUtf8 data).map fun text => (text, rest)
  | (.error _, _) => none

/-- The password that a client sends, decrypted, if the relay can read it. -/
def sentPassword (cfg : Config) (t : ClientId) : Option String := do
  let (enc, rest) ← sentSession cfg t
  let (password, _) ← readText cfg.ext enc rest
  return password

/-- The room that a client names after its password, if the relay can read it. -/
def sentRoom (cfg : Config) (t : ClientId) : Option String := do
  let (enc, rest) ← sentSession cfg t
  let (_, rest) ← readText cfg.ext enc rest
  let (name, _) ← readText cfg.ext enc rest
  return name

/-- The relay can tell the client its address, in a message that fits a frame. -/
def Answerable (cfg : Config) (t : ClientId) : Prop :=
  ∃ addr, (cfg.client t).peerAddr = some addr ∧
    (asBytes (infoMessage cfg.relay addr)).length + 28 < 2 ^ 32

theorem readText_eq_some {X : External} {enc : EncryptedSession} {input rest : Bytes}
    {text : String} : readText X enc input = some (text, rest) ↔
      ∃ data, enc.read X input = (.ok data, rest) ∧ fromUtf8 data = some text := by
  unfold readText
  constructor
  · intro h
    split at h
    next data rest' hr =>
      obtain ⟨text', hu, he⟩ := Option.map_eq_some_iff.mp h
      obtain ⟨rfl, rfl⟩ := Prod.mk.inj he
      exact ⟨data, hr, hu⟩
    next => simp at h
  · rintro ⟨data, hr, hu⟩
    simp [hr, hu]

theorem sentSession_eq_some {cfg : Config} {t : ClientId} {enc : EncryptedSession} {rest : Bytes} :
    sentSession cfg t = some (enc, rest) ↔
      ∃ msg rest₁ reply k, CrocProto.read (cfg.client t).input = (.ok msg, rest₁) ∧
        answerKey cfg t msg = .ok (reply, some k) ∧
        EncryptedSession.newReciever cfg.ext k (cfg.client t).rnd rest₁ = (.ok enc, rest) := by
  unfold sentSession
  constructor
  · intro h
    split at h
    next msg rest₁ hr =>
      split at h
      next reply k hk =>
        split at h
        next enc' rest' hn =>
          obtain ⟨rfl, rfl⟩ := Prod.mk.inj (Option.some.inj h)
          exact ⟨msg, rest₁, reply, k, hr, hk, hn⟩
        next => simp at h
      next => simp at h
    next => simp at h
  · rintro ⟨msg, rest₁, reply, k, hr, hk, hn⟩
    simp [hr, hk, hn]

theorem sentPassword_eq {cfg : Config} {t : ClientId} {enc : EncryptedSession}
    {rest rest' : Bytes} {password : String} (hs : sentSession cfg t = some (enc, rest))
    (hp : readText cfg.ext enc rest = some (password, rest')) :
    sentPassword cfg t = some password := by
  simp [sentPassword, hs, hp]

theorem sentRoom_eq {cfg : Config} {t : ClientId} {enc : EncryptedSession}
    {rest rest' rest'' : Bytes} {password name : String}
    (hs : sentSession cfg t = some (enc, rest))
    (hp : readText cfg.ext enc rest = some (password, rest'))
    (hn : readText cfg.ext enc rest' = some (name, rest'')) : sentRoom cfg t = some name := by
  simp [sentRoom, hs, hp, hn]

/-- A client that names a room has sent a password before. -/
theorem sentRoom_eq_some {cfg : Config} {t : ClientId} {name : String}
    (h : sentRoom cfg t = some name) :
    ∃ enc rest password rest' rest'', sentSession cfg t = some (enc, rest) ∧
      readText cfg.ext enc rest = some (password, rest') ∧
      readText cfg.ext enc rest' = some (name, rest'') := by
  obtain ⟨⟨enc, rest⟩, hs, h⟩ := Option.bind_eq_some_iff.mp h
  obtain ⟨⟨password, rest'⟩, hp, h⟩ := Option.bind_eq_some_iff.mp h
  obtain ⟨⟨name', rest''⟩, hn, h⟩ := Option.bind_eq_some_iff.mp h
  obtain rfl := Option.some.inj h
  exact ⟨enc, rest, password, rest', rest'', hs, hp, hn⟩

/-- A condition that every step of a negotiation meets, and every lookup that finds no room, or
finds one that has a single session and that no task has locked. -/
structure Lenient (cfg : Config) (ok : State → Event → Prop) : Prop where
  free : ∀ s t io, (∀ name enc, s.pc t ≠ .awaitRooms name enc) → (∀ r u, s.pc t ≠ .keepPing r u) →
    ok s (.resume t io)
  lookup : ∀ s t io name enc, (machine cfg).Reachable s → s.pc t = .awaitRooms name enc →
    (∀ r, s.rooms name = some r → s.lock (.room r) = Mutex.free ∧ (s.room r).second = none) →
    ok s (.resume t io)

theorem lenient_any (cfg : Config) : Lenient cfg fun _ _ => True where
  free _ _ _ _ _ := trivial
  lookup _ _ _ _ _ _ _ _ := trivial

section Run
variable {cfg : Config} {ok : State → Event → Prop} {s : State} {t : ClientId}

/-- The socket works and the peek has seen four bytes. -/
def Io.fine : Io := ⟨true, 4⟩

theorem Conn.write_ok {msg : Bytes} (hm : msg.length < 2 ^ 32) (c : Conn) :
    c.write msg Io.fine = .ok { c with replies := c.replies ++ [msg] } := by
  simp only [Conn.write, CrocProto.write, if_pos hm]
  rfl

theorem Conn.send_ok (hX : cfg.ext.WritesShort) (t : ClientId) (msg : Bytes)
    (hm : msg.length + 28 < 2 ^ 32) (enc : EncryptedSession) (c : Conn) :
    ∃ data, c.send cfg t enc msg Io.fine = .ok { c with replies := c.replies ++ [data] } := by
  obtain ⟨data, hw, hl⟩ := enc.exists_write hX ((cfg.client t).nonce c.replies.length)
    (show msg.length < 2 ^ 32 by omega)
  refine ⟨data, ?_⟩
  rw [Conn.send, hw]
  exact Conn.write_ok (by omega) c

/-- The state in which task `t` has got to `n` with connection `c`, and nobody else has moved. -/
def negoAt (s : State) (t : ClientId) (n : Nego) (c : Conn) : State :=
  (s.setConn t c).setPc t (.nego n)

theorem reach_nego (hok : Lenient cfg ok) {n : Nego} {c : Conn}
    (h : (machine cfg).ReachableBy ok (negoAt s t n c)) (n' : Nego) (c' : Conn)
    (hn : negotiate cfg t Io.fine c n = some (.next n', c')) :
    (machine cfg).ReachableBy ok (negoAt s t n' c') := by
  refine h.step (e := .resume t Io.fine) (hok.free _ _ _ (by simp [negoAt]) (by simp [negoAt])) ?_
  simp [machine, step, resume, negoAt, hn]

/-- The relay answers the public key of a client. -/
theorem reach_salt (hX : cfg.ext.WritesShort) (hok : Lenient cfg ok)
    (h : (machine cfg).ReachableBy ok s)
    (hpc : s.pc t = .nego .peek) (hin : (s.conn t).unread = (cfg.client t).input)
    {msg rest reply : Bytes} {k : Block 32}
    (hread : CrocProto.read (cfg.client t).input = (.ok msg, rest))
    (hkey : answerKey cfg t msg = .ok (reply, some k)) :
    (machine cfg).ReachableBy ok
      (negoAt s t (.saltRead k) ⟨rest, (s.conn t).replies ++ [reply], (s.conn t).live⟩) := by
  rcases hc : s.conn t with ⟨unread, replies, live⟩
  have hin : unread = (cfg.client t).input := by rw [← hin, hc]
  have hstart : (machine cfg).ReachableBy ok (negoAt s t .peek ⟨unread, replies, live⟩) := by
    have : negoAt s t .peek ⟨unread, replies, live⟩ = s := by
      simp [negoAt, ← hc, ← hpc]
    rwa [this]
  -- the first frame starts with the magic, so the peek does not see a ping
  have hmagic : peeked unread 4 ≠ asBytes "ping" := by
    obtain ⟨hframe, -⟩ := CrocProto.read_ok hread
    have : peeked unread 4 = crocMagic := by
      rw [hin, hframe]
      simp [peeked, frame, crocMagic]
    rw [this]
    decide +kernel
  have hpake := reach_nego hok hstart .pakeRead ⟨unread, replies, live⟩
    (by simp [negotiate, Io.fine, hmagic])
  have hwrite := reach_nego hok hpake (.pakeWrite reply (some k)) ⟨rest, replies, live⟩
    (by simp [negotiate, recv, Io.fine, hin, hread, hkey])
  have hreply : reply.length < 2 ^ 32 := by
    obtain ⟨q, rfl⟩ := answerKey_reply hkey
    exact hX.keyJson q
  exact reach_nego hok hwrite (.saltRead k) ⟨rest, replies ++ [reply], live⟩
    (by simp [negotiate, Conn.write_ok hreply])

/-- A client whose messages the relay can read gets to the point where it waits for the map. -/
theorem reach_ask (hX : cfg.ext.WritesShort) (hok : Lenient cfg ok)
    (h : (machine cfg).ReachableBy ok s)
    (hpc : s.pc t = .nego .peek) (hin : (s.conn t).unread = (cfg.client t).input)
    (ha : Answerable cfg t) {enc : EncryptedSession} {rest rest' rest'' : Bytes}
    {password name : String} (hs : sentSession cfg t = some (enc, rest))
    (hp : readText cfg.ext enc rest = some (password, rest'))
    (hr : readText cfg.ext enc rest' = some (name, rest'')) :
    ∃ replies, (machine cfg).ReachableBy ok
      (((s.setConn t ⟨rest'', replies, (s.conn t).live⟩).acquire .rooms t).setPc t
        (.awaitRooms name enc)) := by
  obtain ⟨msg, rest₁, reply, k, hread, hkey, hsalt⟩ := sentSession_eq_some.mp hs
  obtain ⟨data, hdata, hpw⟩ := readText_eq_some.mp hp
  obtain ⟨data', hdata', hname⟩ := readText_eq_some.mp hr
  obtain ⟨addr, haddr, hinfo⟩ := ha
  have hread' := reach_salt hX hok h hpc hin hread hkey
  rcases hc : s.conn t with ⟨unread, replies, live⟩
  rw [hc] at hread'
  have hpass := reach_nego hok hread' (.passwordRead enc) ⟨rest, replies ++ [reply], live⟩
    (by simp [negotiate, recv, Io.fine, hsalt])
  -- the right password goes to the banner at once, a wrong one by way of the refusal
  have hbanner : ∃ replies', (machine cfg).ReachableBy ok
      (negoAt s t (.bannerWrite enc addr) ⟨rest', replies', live⟩) := by
    by_cases hw : password = trim (cfg.password t)
    · exact ⟨replies ++ [reply], reach_nego hok hpass _ _ (by
        simp [negotiate, recv, Io.fine, hdata, hpw, hw, afterPassword, haddr])⟩
    · have hbad := reach_nego hok hpass (.badPasswordWrite enc)
        ⟨rest', replies ++ [reply], live⟩ (by simp [negotiate, recv, Io.fine, hdata, hpw, hw])
      obtain ⟨d, hd⟩ := Conn.send_ok hX t (asBytes "bad password") (by decide +kernel) enc
        ⟨rest', replies ++ [reply], live⟩
      exact ⟨replies ++ [reply] ++ [d], reach_nego hok hbad _ _
        (by simp [negotiate, hd, afterPassword, haddr])⟩
  obtain ⟨replies', hbanner⟩ := hbanner
  obtain ⟨d, hd⟩ := Conn.send_ok hX t _ hinfo enc ⟨rest', replies', live⟩
  have hroom := reach_nego hok hbanner (.roomRead enc) ⟨rest', replies' ++ [d], live⟩
    (by simp [negotiate, hd])
  refine ⟨replies' ++ [d], hroom.step (e := .resume t Io.fine)
    (hok.free _ _ _ (by simp [negoAt]) (by simp [negoAt])) ?_⟩
  simp [machine, step, resume, negoAt, negotiate, recv, Io.fine, hdata', hname]

end Run

/-- Everything that `RelayClient::connect` sends to a relay with which it shares the session key
`k`: its public key, a salt, its password and a room. -/
def hello (X : External) (seed : ℕ) (k : Block 32) (rnd : Block 8) (nonce nonce' : Block 12)
    (password room : String) : Except Halt Bytes := do
  let enc := AesEncryptor.new X k none rnd
  let sealedPassword ← enc.encrypt X nonce (asBytes password)
  let sealedRoom ← enc.encrypt X nonce' (asBytes room)
  return frame (asBytes (X.keyToJson (X.pubPake (X.newPake .sender none seed)))) ++
    frame rnd.toList ++ frame sealedPassword ++ frame sealedRoom

/-- The relay reads what an honest client meant to say. -/
theorem sent_hello {cfg : Config} {t : ClientId} {seed : ℕ} {k : Block 32} {rnd : Block 8}
    {nonce nonce' : Block 12} {password room : String} {reply out rest : Bytes}
    (hX : cfg.ext.WritesShort) (hdec : cfg.ext.DecryptInverts)
    (hp : (asBytes password).length + 28 < 2 ^ 32) (hr : (asBytes room).length + 28 < 2 ^ 32)
    (hk : answerKey cfg t (asBytes (cfg.ext.keyToJson
      (cfg.ext.pubPake (cfg.ext.newPake .sender none seed)))) = .ok (reply, some k))
    (ho : hello cfg.ext seed k rnd nonce nonce' password room = .ok out)
    (hin : (cfg.client t).input = out ++ rest) :
    ∃ enc rest₁ rest₂, sentSession cfg t = some (enc, rest₁) ∧
      readText cfg.ext enc rest₁ = some (password, rest₂) ∧
      readText cfg.ext enc rest₂ = some (room, rest) := by
  simp only [hello, bind_eq_ok, pure, Except.pure, Except.ok.injEq] at ho
  obtain ⟨sealedPassword, hsp, sealedRoom, hsr, rfl⟩ := ho
  have hlen : ∀ {n : Block 12} {text : String} {sealed : Bytes},
      (asBytes text).length + 28 < 2 ^ 32 →
      (AesEncryptor.new cfg.ext k none rnd).encrypt cfg.ext n (asBytes text) = .ok sealed →
      sealed.length < 2 ^ 32 := by
    intro n text sealed ht he
    obtain ⟨c, hc, rfl⟩ := AesEncryptor.encrypt_ok.mp he
    have hl := hX.sealed_length _ _ _ _ hc
    rw [List.length_append, n.toList_length]
    omega
  let enc : EncryptedSession := ⟨AesEncryptor.new cfg.ext k none rnd⟩
  have hread : ∀ {n : Block 12} {text : String} {sealed : Bytes} (r : Bytes),
      (asBytes text).length + 28 < 2 ^ 32 →
      (AesEncryptor.new cfg.ext k none rnd).encrypt cfg.ext n (asBytes text) = .ok sealed →
      readText cfg.ext enc (frame sealed ++ r) = some (text, r) := fun r ht he =>
    readText_eq_some.mpr ⟨_, EncryptedSession.read_write hdec he (hlen ht he) r,
      fromUtf8_asBytes _⟩
  refine ⟨enc, frame sealedPassword ++ (frame sealedRoom ++ rest), frame sealedRoom ++ rest,
    ?_, hread _ hp hsp, hread _ hr hsr⟩
  refine sentSession_eq_some.mpr ⟨_, frame rnd.toList ++ (frame sealedPassword ++
    (frame sealedRoom ++ rest)), reply, k, ?_, hk, ?_⟩
  · rw [hin]
    simp only [List.append_assoc]
    exact CrocProto.read_frame (hX.keyJson _) _
  · rw [EncryptedSession.newReciever, CrocProto.read_frame (by rw [rnd.toList_length]; norm_num)]
    simp [AesEncryptor.new, enc, Except.map]

/-- A client of a relay whose primitives are the transparent ones. -/
def visitor (listener : Listener) (password room : String) (data : Bytes) : Client where
  listener := listener
  input := (hello .transparent 0 (padBlock 32 []) (padBlock 8 []) (padBlock 12 []) (padBlock 12 [])
    password room).toOption.getD [] ++ data
  peerAddr := some "127.0.0.1:50000"
  seed := 0
  rnd := padBlock 8 []
  nonce _ := padBlock 12 []

/-- A relay with one multiplex port that serves the given clients. -/
def visited (password : String) (client : ClientId → Client) : Config :=
  ⟨.transparent, ⟨password, [9010]⟩, client⟩

theorem visited_answerable {password : String} {client : ClientId → Client} {t : ClientId}
    (h : (client t).peerAddr = some "127.0.0.1:50000") :
    Answerable (visited password client) t := by
  have hm : infoMessage ⟨password, [9010]⟩ "127.0.0.1:50000" = "9010|||127.0.0.1:50000" := rfl
  refine ⟨_, h, ?_⟩
  simp only [visited, hm]
  decide +kernel

theorem sent_visitor (relayPassword : String) (client : ClientId → Client) {t : ClientId}
    {listener : Listener} {password room : String} {data : Bytes}
    (h : client t = visitor listener password room data)
    (hp : (asBytes password).length + 28 < 2 ^ 32) (hr : (asBytes room).length + 28 < 2 ^ 32) :
    ∃ enc rest₁ rest₂, sentSession (visited relayPassword client) t = some (enc, rest₁) ∧
      readText .transparent enc rest₁ = some (password, rest₂) ∧
      readText .transparent enc rest₂ = some (room, data) := by
  have hk : answerKey (visited relayPassword client) t (asBytes "{}") =
      .ok (asBytes "{}", some (padBlock 32 [])) := by
    simp [answerKey, visited, External.transparent, bind, Except.bind, pure, Except.pure]
  have ho : hello .transparent 0 (padBlock 32 []) (padBlock 8 []) (padBlock 12 []) (padBlock 12 [])
      password room = .ok _ := rfl
  refine sent_hello External.transparent_writesShort External.transparent_decryptInverts
    hp hr hk ho ?_
  simp only [visited, h, visitor]
  rfl

end Croc.Server
