import Croc.Lib.Proc
import Croc.Proto.CrocEnc
import Croc.Proto.MessageJson
import Croc.Proto.Stream

/-! An end of a connection: what it writes and reads, `negotiate_symmetric_key`, encrypted sessions
and messages on it. -/
namespace Croc
open Lib

/-- One end of a connection: what arrives at it, as the network has cut it, and what it has
written. -/
structure Socket where
  incoming : List Bytes
  written : Bytes
  deriving DecidableEq

abbrev Wire := EStateM Halt Socket

namespace Wire

/-- `CrocProto::read` -/
def read : Wire Bytes := fun s =>
  match CrocProto.readSocket s.incoming with
  | (.ok msg, left) => .ok msg { s with incoming := left }
  | (.error e, left) => .error e { s with incoming := left }

/-- A write by one of the three writers. -/
def write (w : Writer) (msg : Bytes) : Wire Unit := fun s =>
  match w.write msg s.written with
  | (.ok (), stream) => .ok () { s with written := stream }
  | (.error e, stream) => .error e { s with written := stream }

/-- The end when it has returned, with whatever result. -/
def final {α : Type} (x : Wire α) (incoming : List Bytes) : Socket :=
  match x ⟨incoming, []⟩ with
  | .ok _ s => s
  | .error _ s => s

/-- What arrives at each of two ends begins with all that the other one has written; `moreX` and
`moreY` come after it. -/
structure Joined {α β : Type} (x : Wire α) (y : Wire β) (toX toY : List Bytes)
    (moreX moreY : Bytes) : Prop where
  arrivesX : toX.flatten = (final y toY).written ++ moreX
  arrivesY : toY.flatten = (final x toX).written ++ moreY

section Keys
variable (X : External)

/-- `CrocProto::negotiate_symmetric_key` -/
def negotiateSymmetricKey (role : Role) (seed : ℕ) : Wire (Block 32) :=
  let key := X.newPake role none seed
  match role with
  | .sender => do
    write .crocProto (asBytes (X.keyToJson (X.pubPake key)))
    let reply ← read
    let text ← lift (orErr .utf8 (fromUtf8 reply))
    let bKey ← lift (orErr .json (X.keyFromJson text))
    let aKey ← lift (orPake (X.update key bKey))
    lift (orErr .keyNegotiationFailiure (X.pakeKey aKey))
  | .reciever => do
    let msg ← read
    let text ← lift (orErr .utf8 (fromUtf8 msg))
    let aKey ← lift (orErr .json (X.keyFromJson text))
    let bKey ← lift (orPake (X.update key aKey))
    write .crocProto (asBytes (X.keyToJson (X.pubPake bKey)))
    lift (orErr .keyNegotiationFailiure (X.pakeKey bKey))

/-- `EncryptedSession::new`: the sender draws the salt and lets the other end know. -/
def newSession (sessionKey : Block 32) (role : Role) (rnd : Block 8) : Wire EncryptedSession :=
  match role with
  | .sender => do
    let encryptor := AesEncryptor.new X sessionKey none rnd
    write .crocProto encryptor.salt.toList
    return ⟨encryptor⟩
  | .reciever => do
    let salt ← read
    let salt ← lift (orErr .sliceLength (tryInto 8 salt))
    return ⟨AesEncryptor.new X sessionKey (some salt) rnd⟩

/-- An end from its connection to its encrypted session. -/
def establish (role : Role) (seed : ℕ) (rnd : Block 8) : Wire EncryptedSession := do
  let sessionKey ← negotiateSymmetricKey X role seed
  newSession X sessionKey role rnd

end Keys

section Sequences
variable {α β : Type}

/-- One item after the other, each written as its encoding. -/
def sendAll (encode : α → Except Halt (Writer × Bytes)) : List α → Wire Unit :=
  forEach fun a => do
    let (w, data) ← lift (encode a)
    write w data

/-- `k` successive reads, each of them decoded. -/
def receiveAll (decode : Bytes → Except Halt β) : ℕ → Wire (List β)
  | 0 => pure []
  | k + 1 => do
    let data ← read
    let b ← lift (decode data)
    let bs ← receiveAll decode k
    return b :: bs

/-- What one end sends is received unchanged and in order at the other, and what is `short` can be
sent. -/
structure Delivers (send : List α → Wire Unit) (receive : ℕ → Wire (List β)) (content : α → β)
    (short : α → Prop) : Prop where
  sends : ∀ (as : List α) (s : Socket), (∀ a ∈ as, short a) → ∃ s', send as s = .ok () s'
  receives : ∀ (as : List α) (s s' : Socket), send as s = .ok () s' →
    ∃ sent, s'.written = s.written ++ sent ∧ ∀ (t : Socket) (rest : Bytes),
      t.incoming.flatten = sent ++ rest → ∃ left : List Bytes, left.flatten = rest ∧
        receive as.length t = .ok (as.map content) { t with incoming := left }

end Sequences

/-- A message to encrypt, with its nonce and the writer that takes it. -/
structure Outgoing where
  writer : Writer
  nonce : Block 12
  msg : Bytes

section Sessions
variable (X : External)

/-- `EncryptedSession::write` of one message after the other. -/
def sendEach (enc : EncryptedSession) : List Outgoing → Wire Unit :=
  sendAll fun m => do
    let data ← enc.write X m.nonce m.msg
    return (m.writer, data)

/-- `k` successive `EncryptedSession::read`s. -/
def receiveEach (enc : EncryptedSession) : ℕ → Wire (List Bytes) :=
  receiveAll (enc.encryptor.decrypt X)

/-- What one end writes with its session the other end reads with its own. -/
def Carries (enc enc' : EncryptedSession) : Prop :=
  Delivers (sendEach X enc) (receiveEach X enc') Outgoing.msg fun m => m.msg.length + 28 < 2 ^ 32

/-- Two sessions with one key and one salt, each of which reads what the other has written. -/
structure Linked (enc enc' : EncryptedSession) : Prop where
  key : enc.encryptor.cipher = enc'.encryptor.cipher
  salt : enc.encryptor.salt = enc'.encryptor.salt
  there : Carries X enc enc'
  back : Carries X enc' enc

end Sessions

/-- `Message::send` of one message after the other. -/
def sendMessages : List Message → Wire Unit :=
  sendAll fun m => pure (.crocProto, m.payload)

/-- `k` successive `Message::recv`s. `parse` is `serde_json::from_str`. -/
def recvMessages (parse : String → Option Message) : ℕ → Wire (List Message) :=
  receiveAll fun data => do
    let text ← orErr .utf8 (fromUtf8 data)
    orErr (.unparsable data) (parse text)

/-- `Message::recv` gives the messages that were sent. -/
def CarriesMessages (parse : String → Option Message) : Prop :=
  Delivers sendMessages (recvMessages parse) id fun m => m.payload.length < 2 ^ 32

section Rules
variable {α : Type} {s : Socket} {msg rest : Bytes} {E : Halt → Socket → Prop}

theorem exists_of_post {x : Wire α} {Q : α → Socket → Prop} (h : Post x s Q fun _ _ => False) :
    ∃ a t, x s = .ok a t ∧ Q a t := by
  unfold Post at h
  cases hx : x s with
  | ok a t => rw [hx] at h; exact ⟨a, t, rfl, h⟩
  | error e t => rw [hx] at h; exact h.elim

theorem final_of_ok {x : Wire α} {incoming : List Bytes} {a : α} (h : x ⟨incoming, []⟩ = .ok a s) :
    final x incoming = s := by
  simp only [final, h]

theorem final_of_post {x : Wire α} {incoming : List Bytes} {I : Socket → Prop}
    (h : Post x ⟨incoming, []⟩ (fun _ => I) fun _ => I) : I (final x incoming) := by
  unfold final
  unfold Post at h
  cases hx : x ⟨incoming, []⟩ with
  | ok a t => rw [hx] at h; exact h
  | error e t => rw [hx] at h; exact h

/-- `read` takes from the bytes that have arrived what `CrocProto.read` takes. -/
theorem post_read_eq (s : Socket) :
    Post read s (fun msg t => CrocProto.read s.incoming.flatten = (.ok msg, t.incoming.flatten))
      fun e t => CrocProto.read s.incoming.flatten = (.error e, t.incoming.flatten) := by
  obtain ⟨hres, hleft⟩ := CrocProto.readSocket_eq s.incoming
  unfold Post read
  cases hread : CrocProto.readSocket s.incoming with
  | mk res left =>
    rw [hread] at hres hleft
    cases res <;> exact Prod.ext hres.symm hleft.symm

/-- A frame that arrives is read, wherever it has been cut. -/
theorem post_read {Q : Bytes → Socket → Prop} (hlen : msg.length < 2 ^ 32)
    (h : s.incoming.flatten = frame msg ++ rest)
    (hQ : ∀ left : List Bytes, left.flatten = rest → Q msg { s with incoming := left }) :
    Post read s Q E := by
  obtain ⟨left, hread, hleft⟩ := CrocProto.readSocket_of_read (h ▸ CrocProto.read_frame hlen rest)
  simp only [Post, read, hread]
  exact hQ left hleft

/-- A read takes back nothing that has been written. -/
theorem post_read_kept {sent : Bytes} (h : sent <+: s.written) :
    Post read s (fun _ t => sent <+: t.written) fun _ t => sent <+: t.written := by
  unfold Post read
  cases CrocProto.readSocket s.incoming with
  | mk res left => cases res <;> exact h

theorem write_ok (w : Writer) (hlen : msg.length < 2 ^ 32) :
    write w msg s = .ok () { s with written := s.written ++ frame msg } := by
  simp only [write, w.write_ok hlen]

theorem post_write {Q : Unit → Socket → Prop} {w : Writer} (hlen : msg.length < 2 ^ 32) :
    Post (write w msg) s Q E ↔ Q () { s with written := s.written ++ frame msg } := by
  unfold Post
  rw [write_ok w hlen]

/-- Nor does another write. -/
theorem post_write_kept {w : Writer} {sent : Bytes} (h : sent <+: s.written) :
    Post (write w msg) s (fun _ t => sent <+: t.written) fun _ t => sent <+: t.written := by
  unfold Post
  rcases Nat.lt_or_ge msg.length (2 ^ 32) with hlen | hlen
  · rw [write_ok w hlen]
    exact h.trans (List.prefix_append _ _)
  · simp only [write, w.write_tooLong hlen]
    exact h

/-- What is written to a connection fits in a frame. -/
theorem of_write_ok {w : Writer} {t : Socket} (h : write w msg s = .ok () t) :
    msg.length < 2 ^ 32 ∧ t = { s with written := s.written ++ frame msg } := by
  have hlen : msg.length < 2 ^ 32 := by
    by_contra hlong
    simp only [write, w.write_tooLong (Nat.not_lt.mp hlong)] at h
    cases h
  rw [write_ok w hlen] at h
  cases h
  exact ⟨hlen, rfl⟩

end Rules

section Channel
variable {α β : Type} {encode : α → Except Halt (Writer × Bytes)} {decode : Bytes → Except Halt β}
  {a : α} {as : List α} {s s' : Socket} {w : Writer} {data : Bytes}

theorem sendAll_cons (ha : encode a = .ok (w, data)) :
    sendAll encode (a :: as) s = (write w data >>= fun _ => sendAll encode as) s := by
  simp only [sendAll, forEach, ha, lift, pure_bind]

theorem sendAll_ok (h : sendAll encode (a :: as) s = .ok () s') : ∃ w data,
    encode a = .ok (w, data) ∧ data.length < 2 ^ 32 ∧
      sendAll encode as { s with written := s.written ++ frame data } = .ok () s' := by
  cases ha : encode a with
  | error e =>
    simp only [sendAll, forEach, ha, lift] at h
    cases h
  | ok out =>
    obtain ⟨w, data⟩ := out
    rw [sendAll_cons ha] at h
    cases hwrite : write w data s with
    | error e t =>
      simp only [bind, EStateM.bind, hwrite] at h
      cases h
    | ok _ t =>
      obtain ⟨hlen, rfl⟩ := of_write_ok hwrite
      simp only [bind, EStateM.bind, hwrite] at h
      exact ⟨w, data, rfl, hlen, h⟩

/-- Encodings that are decoded at the other end, and that fit in a frame, are delivered. -/
theorem delivers {content : α → β} {short : α → Prop}
    (hdecode : ∀ a w data, encode a = .ok (w, data) → decode data = .ok (content a))
    (hshort : ∀ a, short a → ∃ w data, encode a = .ok (w, data) ∧ data.length < 2 ^ 32) :
    Delivers (sendAll encode) (receiveAll decode) content short where
  sends as := by
    induction as with
    | nil => exact fun s _ => ⟨s, rfl⟩
    | cons a as ih =>
      intro s has
      obtain ⟨ha, has⟩ := List.forall_mem_cons.mp has
      obtain ⟨w, data, hdata, hlen⟩ := hshort a ha
      obtain ⟨s', hs'⟩ := ih { s with written := s.written ++ frame data } has
      have hwrite : write w data s = _ := write_ok w hlen
      refine ⟨s', ?_⟩
      rw [sendAll_cons hdata]
      simp only [bind, EStateM.bind, hwrite]
      exact hs'
  receives as := by
    induction as with
    | nil =>
      rintro s s' h
      obtain rfl : s = s' := by simpa [sendAll, forEach, pure, EStateM.pure] using h
      exact ⟨[], (List.append_nil _).symm, fun t rest ht => ⟨t.incoming, ht, rfl⟩⟩
    | cons a as ih =>
      intro s s' h
      obtain ⟨w, data, hdata, hlen, hrest⟩ := sendAll_ok h
      obtain ⟨sent, hsent, hreceives⟩ := ih _ _ hrest
      refine ⟨frame data ++ sent, by rw [hsent, List.append_assoc], fun t rest ht => ?_⟩
      have hpost : Post (receiveAll decode (a :: as).length) t (fun got t' =>
          got = (a :: as).map content ∧ ∃ left : List Bytes, left.flatten = rest ∧
            t' = { t with incoming := left }) fun _ _ => False := by
        rw [List.length_cons, receiveAll, post_bind]
        refine post_read hlen (by rw [ht, List.append_assoc]) fun left hleft => ?_
        obtain ⟨left', hleft', hgot⟩ := hreceives { t with incoming := left } rest hleft
        rw [post_bind, post_lift_ok (hdecode a w data hdata), post_bind]
        simp only [Post, hgot]
        exact ⟨rfl, left', hleft', rfl⟩
      obtain ⟨got, t', hgot, rfl, left, hleft, rfl⟩ := exists_of_post hpost
      exact ⟨left, hleft, hgot⟩

end Channel

/-- A session carries what is written with it. -/
theorem carries {X : External} (hX : X.DecryptInverts) (hW : X.WritesShort)
    (enc : EncryptedSession) : Carries X enc enc := by
  refine delivers (fun m w data h => ?_) fun m hm => ?_
  · obtain ⟨data', hdata, hout⟩ := bind_eq_ok.mp h
    obtain ⟨rfl, rfl⟩ : m.writer = w ∧ data' = data := by simpa [pure, Except.pure] using hout
    exact AesEncryptor.decrypt_encrypt hX hdata
  · obtain ⟨data, hdata, hlen⟩ : ∃ data, enc.write X m.nonce m.msg = .ok data ∧
        data.length = m.msg.length + 28 := EncryptedSession.exists_write hW enc m.nonce (by omega)
    exact ⟨m.writer, data, by rw [hdata]; rfl, by omega⟩

theorem linked {X : External} (hX : X.DecryptInverts) (hW : X.WritesShort)
    (enc : EncryptedSession) : Linked X enc enc :=
  ⟨rfl, rfl, carries hX hW enc, carries hX hW enc⟩

/-- Messages arrive if their texts are parsed back. -/
theorem carriesMessages {parse : String → Option Message} (hp : ∀ m, parse m.text = some m) :
    CarriesMessages parse := by
  refine delivers (fun m w data h => ?_) fun m hm => ⟨_, _, rfl, hm⟩
  obtain rfl : m.payload = data := (Prod.mk.inj (Except.ok.inj h)).2
  refine bind_eq_ok.mpr ⟨m.text, ?_, ?_⟩
  · rw [Message.payload, fromUtf8_asBytes, orErr_some]
  · rw [hp, orErr_some, id]

end Wire
end Croc
