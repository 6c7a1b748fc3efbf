import Croc.Proto.Wire
import Croc.Relay.Client
import Croc.Relay.Negotiate

/-! The key exchange of a client with its relay, from both ends of the connection, and the encrypted
sessions that it leaves them. -/
namespace Croc
open Lib

/-- The key exchange of a client and a relay, with what each end takes from it. -/
structure PlainExchange (X : External) (seed seed' : ℕ) where
  clientKey : X.Pake
  relayKey : X.Pake
  key : Block 32
  answers : X.update (X.newPake .reciever none seed') (X.pubPake (X.newPake .sender none seed)) =
    .ok relayKey
  takes : X.update (X.newPake .sender none seed) (X.pubPake relayKey) = .ok clientKey
  relayAgrees : X.pakeKey relayKey = some key
  clientAgrees : X.pakeKey clientKey = some key

theorem exists_plainExchange {X : External} (hX : X.PlainKeysAgree) (seed seed' : ℕ) :
    Nonempty (PlainExchange X seed seed') := by
  obtain ⟨p, q, k, hp, hq, hk, hk'⟩ := hX seed' seed
  exact ⟨⟨q, p, k, hp, hq, hk, hk'⟩⟩

namespace Wire
variable {X : External}

/-- The relay's end of the exchange, with `Server.answerKey` between its read and its write. -/
theorem negotiateSymmetricKey_reciever (cfg : Server.Config) (t : Server.ClientId) :
    negotiateSymmetricKey cfg.ext .reciever (cfg.client t).seed =
      read >>= fun msg => lift (Server.answerKey cfg t msg) >>= fun (reply, k) =>
        write .crocProto reply >>= fun _ => lift (orErr .keyNegotiationFailiure k) := by
  simp only [negotiateSymmetricKey, Server.answerKey, lift_bind, lift_pure, bind_assoc, pure_bind]

/-- The client's end of the session. -/
theorem newSession_sender (a : Server.Caller) : newSession X a.symKey .sender a.salt =
    write .crocProto a.salt.toList >>= fun _ => pure (a.session X) := rfl

/-- The relay's end of the session, from the bytes that have arrived. -/
theorem newSession_reciever (sessionKey : Block 32) (rnd : Block 8) (s : Socket) :
    Post (newSession X sessionKey .reciever rnd) s
      (fun enc t => EncryptedSession.newReciever X sessionKey rnd s.incoming.flatten =
        (.ok enc, t.incoming.flatten))
      fun e t => EncryptedSession.newReciever X sessionKey rnd s.incoming.flatten =
        (.error e, t.incoming.flatten) := by
  rw [newSession, post_bind]
  refine (post_read_eq s).mono (fun salt t ht => ?_) fun e t ht => ?_
  · rw [post_bind, post_lift, EncryptedSession.newReciever, ht]
    cases hsalt : tryInto 8 salt with
    | none => simp [hsalt, Except.map]
    | some salt => simp [hsalt, Except.map]
  · rw [EncryptedSession.newReciever, ht]

end Wire

/-- Both ends of a connection to a relay come to linked sessions. -/
structure OpensAlike (X : External) (seed seed' : ℕ) (salt rnd : Block 8) : Prop where
  /-- Whatever follows the handshake, the connection can carry it. -/
  opens : ∀ more more' : Bytes, ∃ toClient toRelay : List Bytes,
    Wire.Joined (Wire.establish X .sender seed salt) (Wire.establish X .reciever seed' rnd)
      toClient toRelay more more'
  alike : ∀ (toClient toRelay : List Bytes) (more more' : Bytes),
    Wire.Joined (Wire.establish X .sender seed salt) (Wire.establish X .reciever seed' rnd)
      toClient toRelay more more' →
    ∃ enc enc' client relay,
      Wire.establish X .sender seed salt ⟨toClient, []⟩ = .ok enc client ∧
      Wire.establish X .reciever seed' rnd ⟨toRelay, []⟩ = .ok enc' relay ∧
      client.incoming.flatten = more ∧ relay.incoming.flatten = more' ∧ Wire.Linked X enc enc'

namespace PlainExchange
open Wire
variable {X : External} {seed seed' : ℕ} (x : PlainExchange X seed seed') {salt rnd : Block 8}
  {incoming : List Bytes} {rest : Bytes}

/-- The session of both ends, with the salt of the client. -/
def enc (salt : Block 8) : EncryptedSession := ⟨AesEncryptor.new X x.key none salt⟩

/-- The frame of the client's public key. -/
def clientFrame (_ : PlainExchange X seed seed') : Bytes :=
  frame (asBytes (X.keyToJson (X.pubPake (X.newPake .sender none seed))))

/-- The frame of the relay's public key. -/
def relayFrame : Bytes := frame (asBytes (X.keyToJson (X.pubPake x.relayKey)))

variable (hJ : X.KeyJsonRoundTrip) (hW : X.WritesShort)
include hW

/-- The client writes its key before it reads. -/
theorem client_speaks (salt : Block 8) (incoming : List Bytes) :
    x.clientFrame <+: (final (establish X .sender seed salt) incoming).written := by
  apply final_of_post (I := fun t => x.clientFrame <+: t.written)
  have hlen := hW.keyJson (X.pubPake (X.newPake .sender none seed))
  rw [establish, post_bind, negotiateSymmetricKey, post_bind, post_write hlen, post_bind]
  refine (post_read_kept List.prefix_rfl).mono (fun reply t ht => ?_) fun e t ht => ht
  simp only [post_bind, post_lift]
  refine ⟨fun text _ => ⟨fun bKey _ => ⟨fun aKey _ => ⟨fun k _ => ?_, fun e _ => ht⟩,
    fun e _ => ht⟩, fun e _ => ht⟩, fun e _ => ht⟩
  rw [newSession, post_bind]
  exact (post_write_kept ht).mono (fun _ u hu => hu) fun e u hu => hu

include hJ

/-- A client that hears the relay's key has a session, and has written its key and its salt. -/
theorem client_opens (salt : Block 8) (h : incoming.flatten = x.relayFrame ++ rest) :
    ∃ left : List Bytes, left.flatten = rest ∧ establish X .sender seed salt ⟨incoming, []⟩ =
      .ok (x.enc salt) ⟨left, x.clientFrame ++ frame salt.toList⟩ := by
  have hlen := hW.keyJson (X.pubPake (X.newPake .sender none seed))
  have hpost : Post (establish X .sender seed salt) ⟨incoming, []⟩
      (fun enc t => enc = x.enc salt ∧ t.incoming.flatten = rest ∧
        t.written = x.clientFrame ++ frame salt.toList) fun _ _ => False := by
    rw [establish, post_bind, negotiateSymmetricKey, post_bind, post_write hlen, post_bind]
    refine post_read (hW.keyJson _) h fun left hleft => ?_
    rw [post_bind, post_lift_ok (by rw [fromUtf8_asBytes, orErr_some]),
      post_bind, post_lift_ok (by rw [(hJ _).1, orErr_some]),
      post_bind, post_lift_ok (by rw [x.takes, orPake_ok]),
      post_lift_ok (by rw [x.clientAgrees, orErr_some]),
      newSession, post_bind, post_write (by simp [AesEncryptor.new])]
    exact ⟨rfl, hleft, rfl⟩
  obtain ⟨enc, ⟨left, written⟩, hrun, rfl, rfl, rfl⟩ := exists_of_post hpost
  exact ⟨left, rfl, hrun⟩

/-- A relay that hears the client's key has the session key, and has written its own key. -/
theorem relay_negotiates {Q : Block 32 → Socket → Prop} {E : Halt → Socket → Prop}
    (h : incoming.flatten = x.clientFrame ++ rest)
    (hQ : ∀ left : List Bytes, left.flatten = rest → Q x.key ⟨left, x.relayFrame⟩) :
    Post (negotiateSymmetricKey X .reciever seed') ⟨incoming, []⟩ Q E := by
  rw [negotiateSymmetricKey, post_bind]
  refine post_read (hW.keyJson _) h fun left hleft => ?_
  rw [post_bind, post_lift_ok (by rw [fromUtf8_asBytes, orErr_some]),
    post_bind, post_lift_ok (by rw [(hJ _).1, orErr_some]),
    post_bind, post_lift_ok (by rw [x.answers, orPake_ok]),
    post_bind, post_write (hW.keyJson _), post_lift_ok (by rw [x.relayAgrees, orErr_some])]
  exact hQ left hleft

/-- A relay that hears the client's key writes its own. -/
theorem relay_speaks (rnd : Block 8) (h : incoming.flatten = x.clientFrame ++ rest) :
    x.relayFrame <+: (final (establish X .reciever seed' rnd) incoming).written := by
  apply final_of_post (I := fun t => x.relayFrame <+: t.written)
  rw [establish, post_bind]
  refine x.relay_negotiates hJ hW h fun left _ => ?_
  rw [newSession, post_bind]
  refine (post_read_kept List.prefix_rfl).mono (fun salt t ht => ?_) fun e t ht => ht
  rw [post_bind, post_lift]
  exact ⟨fun _ _ => ht, fun _ _ => ht⟩

/-- A relay that hears the client's key and its salt has the client's session. -/
theorem relay_opens (rnd : Block 8)
    (h : incoming.flatten = x.clientFrame ++ frame salt.toList ++ rest) :
    ∃ left : List Bytes, left.flatten = rest ∧ establish X .reciever seed' rnd ⟨incoming, []⟩ =
      .ok (x.enc salt) ⟨left, x.relayFrame⟩ := by
  have hpost : Post (establish X .reciever seed' rnd) ⟨incoming, []⟩
      (fun enc t => enc = x.enc salt ∧ t.incoming.flatten = rest ∧ t.written = x.relayFrame)
      fun _ _ => False := by
    rw [establish, post_bind]
    refine x.relay_negotiates hJ hW (h.trans (List.append_assoc ..)) fun left hleft => ?_
    rw [newSession, post_bind]
    refine post_read (by simp) hleft fun left' hleft' => ?_
    rw [post_bind, post_lift_ok (by rw [tryInto_toList, orErr_some])]
    exact ⟨rfl, hleft', rfl⟩
  obtain ⟨enc, ⟨left, written⟩, hrun, rfl, rfl, rfl⟩ := exists_of_post hpost
  exact ⟨left, rfl, hrun⟩

end PlainExchange

/-- Whatever the two ends draw. -/
theorem opensAlike {X : External} (hK : X.PlainKeysAgree) (hJ : X.KeyJsonRoundTrip)
    (hX : X.DecryptInverts) (hW : X.WritesShort) (seed seed' : ℕ) (salt rnd : Block 8) :
    OpensAlike X seed seed' salt rnd := by
  obtain ⟨x⟩ := exists_plainExchange hK seed seed'
  constructor
  · intro more more'
    have htoClient : [x.relayFrame ++ more].flatten = x.relayFrame ++ more :=
      List.flatten_singleton
    have htoRelay : [x.clientFrame ++ frame salt.toList ++ more'].flatten =
        x.clientFrame ++ frame salt.toList ++ more' := List.flatten_singleton
    obtain ⟨left, -, hclient⟩ := x.client_opens hJ hW salt htoClient
    obtain ⟨left', -, hrelay⟩ := x.relay_opens hJ hW rnd htoRelay
    refine ⟨[x.relayFrame ++ more], [x.clientFrame ++ frame salt.toList ++ more'], ?_, ?_⟩
    · rw [Wire.final_of_ok hrelay, htoClient]
    · rw [Wire.final_of_ok hclient, htoRelay]
  · rintro toClient toRelay more more' ⟨htoClient, htoRelay⟩
    -- the client speaks first, so the relay hears it, and then the client hears the relay
    obtain ⟨tail, htail⟩ := x.client_speaks hW salt toClient
    have hhello : toRelay.flatten = x.clientFrame ++ (tail ++ more') := by
      rw [htoRelay, ← htail, List.append_assoc]
    obtain ⟨tail', htail'⟩ := x.relay_speaks hJ hW rnd hhello
    have hanswer : toClient.flatten = x.relayFrame ++ (tail' ++ more) := by
      rw [htoClient, ← htail', List.append_assoc]
    obtain ⟨_, -, hhears⟩ := x.client_opens hJ hW salt hanswer
    rw [Wire.final_of_ok hhears] at htoRelay
    obtain ⟨left', hleft', hrelay⟩ := x.relay_opens hJ hW rnd htoRelay
    rw [Wire.final_of_ok hrelay] at htoClient
    obtain ⟨left, hleft, hclient⟩ := x.client_opens hJ hW salt htoClient
    exact ⟨_, _, _, _, hclient, hrelay, hleft, hleft', Wire.linked hX hW _⟩

end Croc
