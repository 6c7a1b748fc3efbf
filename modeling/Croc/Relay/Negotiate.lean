import Mathlib.Data.Nat.Notation
import Croc.Proto.CrocEnc

/-! The relay's side of a connection up to the point where the client names a room: the peek, the
key exchange, the salt, the password and the banner. Every constructor of `Nego` is a point where
the task awaits its socket. -/
namespace Croc.Server
open Lib

abbrev ClientId := ℕ

/-- The listener that accepted a connection. -/
inductive Listener where
  | main
  | multiplex (port : UInt16)
  deriving DecidableEq

structure Relay where
  password : String
  multiplexPorts : List UInt16

/-- `Relay::start` gives the multiplex listeners a password of their own. -/
def Relay.listenerPassword (R : Relay) : Listener → String
  | .main => R.password
  | .multiplex _ => "pass123"

/-- One connection: every byte that the client sends, its address if the socket still knows it,
and the random choices that the relay makes while it serves it. -/
structure Client where
  listener : Listener
  input : Bytes
  peerAddr : Option String
  seed : ℕ
  rnd : Block 8
  nonce : ℕ → Block 12

structure Config where
  ext : External
  relay : Relay
  client : ClientId → Client

/-- The password that `run_instance` passes to `handle`. -/
def Config.password (cfg : Config) (t : ClientId) : String :=
  cfg.relay.listenerPassword (cfg.client t).listener

/-- What the relay writes to a socket once its session sits in a room. -/
inductive Live where
  | ping
  | relayed (bytes : Bytes)
  deriving DecidableEq

/-- A socket: the bytes not yet read from it, the payloads written while it was negotiated, and
what was written to it afterwards. -/
structure Conn where
  unread : Bytes
  replies : List Bytes
  live : List Live
  deriving DecidableEq

/-- The outcome of the socket operation that a task awaits: whether it succeeds, and how many
bytes a `peek` sees. -/
structure Io where
  ok : Bool
  seen : ℕ
  deriving DecidableEq

namespace Conn

def write (msg : Bytes) (io : Io) (c : Conn) : Except Halt Conn := do
  let _ ← CrocProto.write msg
  if io.ok then .ok { c with replies := c.replies ++ [msg] } else .error (.err .sendFailed)

/-- `enc.write(&mut session, msg)` with the next nonce of the connection. -/
def send (cfg : Config) (t : ClientId) (enc : EncryptedSession) (msg : Bytes) (io : Io)
    (c : Conn) : Except Halt Conn := do
  let data ← enc.write cfg.ext ((cfg.client t).nonce c.replies.length) msg
  c.write data io

end Conn

inductive Nego where
  | peek
  | pong
  | pakeRead
  | pakeWrite (reply : Bytes) (k : Option (Block 32))
  | saltRead (k : Block 32)
  | passwordRead (enc : EncryptedSession)
  | badPasswordWrite (enc : EncryptedSession)
  | bannerWrite (enc : EncryptedSession) (addr : String)
  | roomRead (enc : EncryptedSession)
  deriving DecidableEq

/-- Where one step of the negotiation leads. -/
inductive Progress where
  | next (n : Nego)
  | ask (name : String) (enc : EncryptedSession)
  | stop (r : Except Halt Unit)

/-- The info message: the ports, or `ok` when there are none, and the client's address. -/
def infoMessage (R : Relay) (addr : String) : String :=
  (if R.multiplexPorts.length = 0 then "ok"
    else ",".intercalate (R.multiplexPorts.map fun port => toString port.toNat)) ++ "|||" ++ addr

/-- `peek` fills the front of a zeroed four-byte buffer. -/
def peeked (input : Bytes) (seen : ℕ) : Bytes :=
  input.take (min seen 4) ++ List.replicate (4 - (input.take (min seen 4)).length) 0

/-- The relay's end of the key exchange: its public key after the update, and the session key. -/
def answerKey (cfg : Config) (t : ClientId) (msg : Bytes) :
    Except Halt (Bytes × Option (Block 32)) := do
  let text ← orErr .utf8 (fromUtf8 msg)
  let aKey ← orErr .json (cfg.ext.keyFromJson text)
  let bKey ← orPake
    (cfg.ext.update (cfg.ext.newPake .reciever none (cfg.client t).seed) aKey)
  return (asBytes (cfg.ext.keyToJson (cfg.ext.pubPake bKey)), cfg.ext.pakeKey bKey)

/-- `session.connection.peer_addr()?` on the way to the info message. -/
def afterPassword (cfg : Config) (t : ClientId) (enc : EncryptedSession) : Progress :=
  match (cfg.client t).peerAddr with
  | some addr => .next (.bannerWrite enc addr)
  | none => .stop (.error (.err .io))

/-- A read of the awaited message, and what is left on the stream. -/
def recv {α : Type} (io : Io) (c : Conn) (read : Bytes → Except Halt α × Bytes) :
    Except Halt α × Conn :=
  if io.ok then ((read c.unread).1, { c with unread := (read c.unread).2 })
  else (.error (.err .io), c)

/-- One step from an await point of the negotiation to the next; `none` while it has to wait. -/
def negotiate (cfg : Config) (t : ClientId) (io : Io) (c : Conn) : Nego → Option (Progress × Conn)
  | .peek =>
    if io.ok = false then some (.stop (.error (.err .io)), c)
    else if io.seen = 0 ∧ c.unread ≠ [] then none
    else if peeked c.unread io.seen = asBytes "ping" then some (.next .pong, c)
    else some (.next .pakeRead, c)
  | .pong =>
    match c.write (asBytes "pong") io with
    | .ok c' => some (.stop (.ok ()), c')
    | .error e => some (.stop (.error e), c)
  | .pakeRead =>
    match recv io c CrocProto.read with
    | (.error e, c') => some (.stop (.error e), c')
    | (.ok msg, c') =>
      match answerKey cfg t msg with
      | .ok (reply, k) => some (.next (.pakeWrite reply k), c')
      | .error e => some (.stop (.error e), c')
  | .pakeWrite reply k =>
    match c.write reply io with
    | .error e => some (.stop (.error e), c)
    | .ok c' =>
      match k with
      | some k => some (.next (.saltRead k), c')
      | none => some (.stop (.error (.err .keyNegotiationFailiure)), c')
  | .saltRead k =>
    match recv io c (EncryptedSession.newReciever cfg.ext k (cfg.client t).rnd) with
    | (.ok enc, c') => some (.next (.passwordRead enc), c')
    | (.error e, c') => some (.stop (.error e), c')
  | .passwordRead enc =>
    match recv io c (enc.read cfg.ext) with
    | (.error e, c') => some (.stop (.error e), c')
    | (.ok data, c') =>
      match fromUtf8 data with
      | none => some (.stop (.error (.err .utf8)), c')
      | some password =>
        if password ≠ trim (cfg.password t) then some (.next (.badPasswordWrite enc), c')
        else some (afterPassword cfg t enc, c')
  | .badPasswordWrite enc =>
    -- the refusal is written and the negotiation goes on
    match c.send cfg t enc (asBytes "bad password") io with
    | .ok c' => some (afterPassword cfg t enc, c')
    | .error e => some (.stop (.error e), c)
  | .bannerWrite enc addr =>
    match c.send cfg t enc (asBytes (infoMessage cfg.relay addr)) io with
    | .ok c' => some (.next (.roomRead enc), c')
    | .error e => some (.stop (.error e), c)
  | .roomRead enc =>
    match recv io c (enc.read cfg.ext) with
    | (.error e, c') => some (.stop (.error e), c')
    | (.ok data, c') =>
      match fromUtf8 data with
      | some name => some (.ask name enc, c')
      | none => some (.stop (.error (.err .utf8)), c')

/-- Writing to a client fails with an error, it never panics. -/
theorem Conn.write_error {msg : Bytes} {io : Io} {c : Conn} {h : Halt}
    (he : c.write msg io = .error h) : ∃ e, h = .err e := by
  unfold Conn.write CrocProto.write at he
  split at he
  · simp only [bind, Except.bind] at he
    split at he
    · simp at he
    · exact ⟨.sendFailed, by simpa [eq_comm] using he⟩
  · exact ⟨.tooLong, by simpa [bind, Except.bind, eq_comm] using he⟩

theorem Conn.send_error {cfg : Config} {t : ClientId} {enc : EncryptedSession} {msg : Bytes}
    {io : Io} {c : Conn} {h : Halt} (he : c.send cfg t enc msg io = .error h) :
    ∃ e, h = .err e := by
  unfold Conn.send EncryptedSession.write AesEncryptor.encrypt at he
  cases hs : cfg.ext.aeadEncrypt enc.encryptor.cipher ((cfg.client t).nonce c.replies.length)
    msg with
  | none => exact ⟨.aead, by simpa [hs, bind, Except.bind, eq_comm] using he⟩
  | some data =>
    rw [hs] at he
    exact Conn.write_error he

theorem recv_error {α : Type} {io : Io} {c c' : Conn} {read : Bytes → Except Halt α × Bytes}
    {h : Halt} (hr : recv io c read = (.error h, c')) :
    h = .err .io ∨ ∃ rest, read c.unread = (.error h, rest) := by
  unfold recv at hr
  split at hr
  · exact Or.inr ⟨(read c.unread).2, Prod.ext (Prod.mk.inj hr).1 rfl⟩
  · exact Or.inl (by simpa [eq_comm] using (Prod.mk.inj hr).1)

theorem recv_ok {α : Type} {io : Io} {c c' : Conn} {read : Bytes → Except Halt α × Bytes} {a : α}
    (hr : recv io c read = (.ok a, c')) :
    ∃ rest, read c.unread = (.ok a, rest) ∧ c' = { c with unread := rest } := by
  unfold recv at hr
  split at hr
  · obtain ⟨ha, hc⟩ := Prod.mk.inj hr
    exact ⟨(read c.unread).2, Prod.ext ha rfl, hc.symm⟩
  · simp at hr

/-- The errors of a negotiation: a failed operation, the panic on a frame that is too short to
hold a nonce, or that of a key exchange. -/
def Halt.negotiation (h : Halt) : Prop :=
  (∃ e, h = .err e) ∨ h = .panic .nonceSlice ∨ h = .panic .pakeUpdate

/-- What one step of the negotiation can do to a connection. -/
inductive NegoMove (cfg : Config) (t : ClientId) (c : Conn) : Nego → Progress → Conn → Prop
  | fail {n h c'} (hh : Halt.negotiation h) : NegoMove cfg t c n (.stop (.error h)) c'
  | peekPing : NegoMove cfg t c .peek (.next .pong) c
  | peekOther : NegoMove cfg t c .peek (.next .pakeRead) c
  | pong {c'} : NegoMove cfg t c .pong (.stop (.ok ())) c'
  | pakeRead {msg rest reply k} (hr : CrocProto.read c.unread = (.ok msg, rest))
      (hk : answerKey cfg t msg = .ok (reply, k)) :
      NegoMove cfg t c .pakeRead (.next (.pakeWrite reply k)) { c with unread := rest }
  | pakeWrite {reply k io c'} (hw : c.write reply io = .ok c') :
      NegoMove cfg t c (.pakeWrite reply (some k)) (.next (.saltRead k)) c'
  | saltRead {k enc rest}
      (hr : EncryptedSession.newReciever cfg.ext k (cfg.client t).rnd c.unread = (.ok enc, rest)) :
      NegoMove cfg t c (.saltRead k) (.next (.passwordRead enc)) { c with unread := rest }
  | wrongPassword {enc data password rest} (hr : enc.read cfg.ext c.unread = (.ok data, rest))
      (hu : fromUtf8 data = some password) (hne : password ≠ trim (cfg.password t)) :
      NegoMove cfg t c (.passwordRead enc) (.next (.badPasswordWrite enc)) { c with unread := rest }
  | rightPassword {enc data password rest addr} (hr : enc.read cfg.ext c.unread = (.ok data, rest))
      (hu : fromUtf8 data = some password) (he : password = trim (cfg.password t))
      (ha : (cfg.client t).peerAddr = some addr) :
      NegoMove cfg t c (.passwordRead enc) (.next (.bannerWrite enc addr)) { c with unread := rest }
  | badPasswordWrite {enc io c' addr} (hw : c.send cfg t enc (asBytes "bad password") io = .ok c')
      (ha : (cfg.client t).peerAddr = some addr) :
      NegoMove cfg t c (.badPasswordWrite enc) (.next (.bannerWrite enc addr)) c'
  | bannerWrite {enc addr io c'}
      (hw : c.send cfg t enc (asBytes (infoMessage cfg.relay addr)) io = .ok c') :
      NegoMove cfg t c (.bannerWrite enc addr) (.next (.roomRead enc)) c'
  | roomRead {enc data name rest} (hr : enc.read cfg.ext c.unread = (.ok data, rest))
      (hu : fromUtf8 data = some name) :
      NegoMove cfg t c (.roomRead enc) (.ask name enc) { c with unread := rest }

theorem recv_read_error {io : Io} {c c' : Conn} {h : Halt}
    (hr : recv io c CrocProto.read = (.error h, c')) : Halt.negotiation h := by
  rcases recv_error hr with rfl | ⟨rest, hr⟩
  · exact Or.inl ⟨.io, rfl⟩
  · exact Or.inl (CrocProto.read_error hr)

theorem recv_enc_error {X : External} {enc : EncryptedSession} {io : Io} {c c' : Conn} {h : Halt}
    (hr : recv io c (enc.read X) = (.error h, c')) : Halt.negotiation h := by
  rcases recv_error hr with rfl | ⟨rest, hr⟩
  · exact Or.inl ⟨.io, rfl⟩
  · exact (EncryptedSession.read_error hr).imp_right Or.inl

theorem answerKey_error {cfg : Config} {t : ClientId} {msg : Bytes} {h : Halt}
    (hk : answerKey cfg t msg = .error h) : Halt.negotiation h := by
  unfold answerKey at hk
  cases hu : fromUtf8 msg with
  | none => exact Or.inl ⟨.utf8, by simpa [hu, bind, Except.bind, eq_comm] using hk⟩
  | some text =>
    simp only [hu, orErr_some, bind, Except.bind] at hk
    cases hj : cfg.ext.keyFromJson text with
    | none => exact Or.inl ⟨.json, by simpa [hj, eq_comm] using hk⟩
    | some aKey =>
      simp only [hj, orErr_some] at hk
      cases hp : cfg.ext.update (cfg.ext.newPake .reciever none (cfg.client t).seed) aKey with
      | error f =>
        obtain rfl : f.halt = h := by simpa [hp] using hk
        exact f.halt_cases.imp_right fun hf => Or.inr hf.2
      | ok bKey => simp [hp, pure, Except.pure] at hk

/-- The reply of the relay is a public key. -/
theorem answerKey_reply {cfg : Config} {t : ClientId} {msg reply : Bytes} {k : Option (Block 32)}
    (h : answerKey cfg t msg = .ok (reply, k)) : ∃ q, reply = asBytes (cfg.ext.keyToJson q) := by
  simp only [answerKey, bind_eq_ok, pure, Except.pure, Except.ok.injEq, Prod.mk.injEq] at h
  obtain ⟨_, -, _, -, bKey, -, rfl, -⟩ := h
  exact ⟨cfg.ext.pubPake bKey, rfl⟩

theorem afterPassword_cases (cfg : Config) (t : ClientId) (enc : EncryptedSession) :
    afterPassword cfg t enc = .stop (.error (.err .io)) ∨
      ∃ addr, (cfg.client t).peerAddr = some addr ∧
        afterPassword cfg t enc = .next (.bannerWrite enc addr) := by
  unfold afterPassword
  cases ha : (cfg.client t).peerAddr with
  | none => exact Or.inl rfl
  | some addr => exact Or.inr ⟨addr, rfl, rfl⟩

theorem negotiate_move {cfg : Config} {t : ClientId} {io : Io} {c c' : Conn} {n : Nego}
    {p : Progress} (h : negotiate cfg t io c n = some (p, c')) : NegoMove cfg t c n p c' := by
  have err : ∀ e, Halt.negotiation (.err e) := fun e => Or.inl ⟨e, rfl⟩
  -- what `negotiate` returns is the move that it makes
  have out : ∀ {r : Progress × Conn}, some r = some (p, c') → NegoMove cfg t c n r.1 r.2 →
      NegoMove cfg t c n p c' := by
    rintro r hr hm
    obtain rfl := Option.some.inj hr
    exact hm
  unfold negotiate at h
  cases n with
  | peek =>
    dsimp only at h
    split at h
    · exact out h (.fail (err _))
    split at h
    · simp at h
    split at h
    · exact out h .peekPing
    · exact out h .peekOther
  | pong =>
    dsimp only at h
    split at h
    · exact out h .pong
    next he => exact out h (.fail (Or.inl (Conn.write_error he)))
  | pakeRead =>
    dsimp only at h
    split at h
    next hr => exact out h (.fail (recv_read_error hr))
    next msg c1 hr =>
      obtain ⟨rest, hread, rfl⟩ := recv_ok hr
      split at h
      next reply k hk => exact out h (.pakeRead hread hk)
      next hk => exact out h (.fail (answerKey_error hk))
  | pakeWrite reply k =>
    dsimp only at h
    split at h
    next hw => exact out h (.fail (Or.inl (Conn.write_error hw)))
    next c1 hw =>
      cases k with
      | some k => exact out h (.pakeWrite hw)
      | none => exact out h (.fail (err _))
  | saltRead k =>
    dsimp only at h
    split at h
    next enc c1 hr =>
      obtain ⟨rest, hread, rfl⟩ := recv_ok hr
      exact out h (.saltRead hread)
    next hr =>
      rcases recv_error hr with rfl | ⟨rest, hr⟩
      · exact out h (.fail (err _))
      · exact out h (.fail (Or.inl (EncryptedSession.newReciever_error hr)))
  | passwordRead enc =>
    dsimp only at h
    split at h
    next hr => exact out h (.fail (recv_enc_error hr))
    next data c1 hr =>
      obtain ⟨rest, hread, rfl⟩ := recv_ok hr
      split at h
      · exact out h (.fail (err _))
      next password hu =>
        split at h
        next hne => exact out h (.wrongPassword hread hu hne)
        next he =>
          push Not at he
          rcases afterPassword_cases cfg t enc with ha | ⟨addr, haddr, ha⟩ <;> rw [ha] at h
          · exact out h (.fail (err _))
          · exact out h (.rightPassword hread hu he haddr)
  | badPasswordWrite enc =>
    dsimp only at h
    split at h
    next c1 hw =>
      rcases afterPassword_cases cfg t enc with ha | ⟨addr, haddr, ha⟩ <;> rw [ha] at h
      · exact out h (.fail (err _))
      · exact out h (.badPasswordWrite hw haddr)
    next hw => exact out h (.fail (Or.inl (Conn.send_error hw)))
  | bannerWrite enc addr =>
    dsimp only at h
    split at h
    next c1 hw => exact out h (.bannerWrite hw)
    next hw => exact out h (.fail (Or.inl (Conn.send_error hw)))
  | roomRead enc =>
    dsimp only at h
    split at h
    next hr => exact out h (.fail (recv_enc_error hr))
    next data c1 hr =>
      obtain ⟨rest, hread, rfl⟩ := recv_ok hr
      split at h
      next name hu => exact out h (.roomRead hread hu)
      · exact out h (.fail (err _))

end Croc.Server
