import Croc.Relay.Dialogue

/-! The negotiation of a client and the relay, stage by stage: where the relay's task is, what is on
its way in each direction, and where the client is. -/
namespace Croc.Server
open Lib

section Stages
variable (cfg : Config) (a : Caller) (t : ClientId)

/-- The relay has read the salt, or it is the next that it reads; `rest` comes after it. -/
def AtPassword (s : State) (rest : Bytes) : Prop :=
  s.pc t = .nego (.saltRead a.symKey) ∧ (s.conn t).unread = frame a.salt.toList ++ rest ∨
    s.pc t = .nego (.passwordRead (a.session cfg.ext)) ∧ (s.conn t).unread = rest

/-- The relay waits for the name of the room; `rest` has arrived. -/
def AtRoom (s : State) (rest : Bytes) : Prop :=
  s.pc t = .nego (.roomRead (a.session cfg.ext)) ∧ (s.conn t).unread = rest

/-- The task waits for a mutex, or to answer, on behalf of a client that asks for `name`. -/
def Pc.asks (name : String) (enc : EncryptedSession) : Pc → Prop
  | .awaitRooms n e | .awaitRoom n _ e | .writeFull n _ e | .writeJoin n _ e
  | .writeCreate n e => n = name ∧ e = enc
  | _ => False

/-- A payload that the client opens as `msg`. -/
def Tells (data msg : Bytes) : Prop :=
  ((a.session cfg.ext).read cfg.ext (frame data)).1 = .ok msg

/-- The failures of the client that are not of its partner's making, and the end of the stream. -/
def GaveUp (h : Halt) : Prop := h = .err .aead ∨ h = .err .tooLong ∨ h = .err .magicEof

/-- How far the two have got together: the relay's state, the payloads on their way to the client,
and the client's await point. -/
inductive Stage (s : State) : List Bytes → Call → Prop
  | salt (hpc : s.pc t = .nego (.saltRead a.symKey)) (hu : (s.conn t).unread = []) :
      Stage s [] .writeSalt
  | salted (h : AtPassword cfg a t s []) : Stage s [] .writePassword
  | password {bytes} (h : AtPassword cfg a t s bytes)
      (hw : a.sealed cfg.ext 0 a.password = .ok bytes) : Stage s [] .readInfo
  | banner {addr} (hpc : s.pc t = .nego (.bannerWrite (a.session cfg.ext) addr))
      (hu : (s.conn t).unread = []) : Stage s [] .readInfo
  | info {data addr} (h : AtRoom cfg a t s [])
      (hd : Tells cfg a data (asBytes (infoMessage cfg.relay addr))) : Stage s [data] .readInfo
  | greeted (h : AtRoom cfg a t s []) : Stage s [] .writeRoom
  | room {bytes} (h : AtRoom cfg a t s bytes) (hw : a.sealed cfg.ext 1 a.room = .ok bytes) :
      Stage s [] .readResponse
  | asking (h : (s.pc t).asks a.room (a.session cfg.ext)) : Stage s [] .readResponse
  | hungUp {h} (hpc : AtPassword cfg a t s [] ∨ AtRoom cfg a t s []) (hh : GaveUp h) :
      Stage s [] (.done (.error h))
  | failed {call e} (hpc : s.pc t = .done (.error e)) (hj : ¬ Joined s t)
      (hr : .refused t ∉ s.log)
      (hc : call = .readInfo ∨ ∃ h, GaveUp h ∧ call = .done (.error h)) : Stage s [] call
  | joined {data} (hj : Joined s t) (hun : ¬ (s.pc t).unanswered)
      (hn : ∀ name, s.pc t = .findRooms name → name = a.room)
      (hd : Tells cfg a data (asBytes "ok")) : Stage s [data] .readResponse
  | welcomed (hj : Joined s t) (hun : ¬ (s.pc t).unanswered)
      (hn : ∀ name, s.pc t = .findRooms name → name = a.room) : Stage s [] (.done (.ok ()))
  | refused {data} (hr : .refused t ∈ s.log) (hpc : s.pc t = .done (.ok ()))
      (hd : Tells cfg a data (asBytes "room full")) : Stage s [data] .readResponse
  | turnedAway (hr : .refused t ∈ s.log) (hpc : s.pc t = .done (.ok ())) :
      Stage s [] (.done (.error (.err (.roomFull a.room))))

end Stages

section Frame
variable {cfg : Config} {a : Caller} {t : ClientId} {s s' : State} {l : List Bytes} {call : Call}

theorem AtPassword.unanswered {rest : Bytes} (h : AtPassword cfg a t s rest) :
    (s.pc t).unanswered := by
  rcases h with ⟨hpc, -⟩ | ⟨hpc, -⟩ <;> simp [hpc, Pc.unanswered]

theorem AtRoom.unanswered {rest : Bytes} (h : AtRoom cfg a t s rest) : (s.pc t).unanswered := by
  simp [h.1, Pc.unanswered]

theorem Pc.unanswered_of_asks {p : Pc} {name : String} {enc : EncryptedSession}
    (h : p.asks name enc) : p.unanswered := by
  cases p <;> trivial

/-- The stage depends on the task of the client, its connection and its answer. -/
theorem Stage.unmoved (h : Stage cfg a t s l call) (hm : Unmoved s s' t) :
    Stage cfg a t s' l call := by
  have hpc : (s.pc t).unanswered → s'.pc t = s.pc t := fun hun =>
    hm.pc.resolve_right fun hn => hn.1 hun
  have hpass : ∀ rest, AtPassword cfg a t s rest → AtPassword cfg a t s' rest := fun rest hp => by
    unfold AtPassword
    rw [hpc hp.unanswered, hm.unread hp.unanswered]
    exact hp
  have hroom : ∀ rest, AtRoom cfg a t s rest → AtRoom cfg a t s' rest := fun rest hp => by
    unfold AtRoom
    rw [hpc hp.unanswered, hm.unread hp.unanswered]
    exact hp
  have hdone : ∀ r, s.pc t = .done r → s'.pc t = .done r := fun r hr =>
    (hm.pc.resolve_right fun hn => hn.2.2.2 r hr).trans hr
  have hans : ¬ (s.pc t).unanswered → (∀ name, s.pc t = .findRooms name → name = a.room) →
      ¬ (s'.pc t).unanswered ∧ ∀ name, s'.pc t = .findRooms name → name = a.room := by
    intro hun hn
    rcases hm.pc with he | ⟨-, hun', hn', -⟩
    · rw [he]
      exact ⟨hun, hn⟩
    · exact ⟨hun', fun name he => absurd he (hn' name)⟩
  cases h with
  | salt h hu =>
    have hun : (s.pc t).unanswered := by simp [h, Pc.unanswered]
    exact .salt ((hpc hun).trans h) ((hm.unread hun).trans hu)
  | salted h => exact .salted (hpass _ h)
  | password h hw => exact .password (hpass _ h) hw
  | banner h hu =>
    have hun : (s.pc t).unanswered := by simp [h, Pc.unanswered]
    exact .banner ((hpc hun).trans h) ((hm.unread hun).trans hu)
  | info h hd => exact .info (hroom _ h) hd
  | greeted h => exact .greeted (hroom _ h)
  | room h hw => exact .room (hroom _ h) hw
  | asking h => exact .asking (by rwa [hpc (Pc.unanswered_of_asks h)])
  | hungUp h hh => exact .hungUp (h.imp (hpass _) (hroom _)) hh
  | failed h hj hr hc =>
    exact .failed (hdone _ h) (fun hj' => hj (hm.joined.mp hj'))
      (fun hr' => hr (hm.refused.mp hr')) hc
  | joined hj hun hn hd =>
    obtain ⟨hun', hn'⟩ := hans hun hn
    exact .joined (hm.joined.mpr hj) hun' hn' hd
  | welcomed hj hun hn =>
    obtain ⟨hun', hn'⟩ := hans hun hn
    exact .welcomed (hm.joined.mpr hj) hun' hn'
  | refused hr h hd => exact .refused (hm.refused.mpr hr) (hdone _ h) hd
  | turnedAway hr h => exact .turnedAway (hm.refused.mpr hr) (hdone _ h)

end Frame

section Texts
variable {cfg : Config} {a : Caller} {i : ℕ} {text : String} {bytes : Bytes}

/-- A text that goes out has room in a frame, and the other end reads it. -/
theorem Caller.sealed_ok (hX : cfg.ext.WritesShort) (hdec : cfg.ext.DecryptInverts)
    (h : a.sealed cfg.ext i text = .ok bytes) : (asBytes text).length + 28 < 2 ^ 32 ∧
      (∃ msg rest, CrocProto.read bytes = (.ok msg, rest)) ∧
      (a.session cfg.ext).read cfg.ext bytes = (.ok (asBytes text), []) := by
  obtain ⟨data, hdata, hw⟩ := bind_eq_ok.mp h
  obtain ⟨hlen, rfl⟩ := CrocProto.write_eq_ok.mp hw
  obtain ⟨c, hc, rfl⟩ := AesEncryptor.encrypt_ok.mp hdata
  have hsealed := hX.sealed_length _ _ _ _ hc
  have hn := (a.nonce i).toList_length
  refine ⟨?_, ⟨_, _, by simpa using CrocProto.read_frame hlen []⟩, ?_⟩
  · rw [List.length_append] at hlen
    omega
  · simpa using EncryptedSession.read_write hdec hdata hlen []

theorem Caller.sealed_error {h : Halt} (he : a.sealed cfg.ext i text = .error h) : GaveUp h := by
  unfold Caller.sealed EncryptedSession.write AesEncryptor.encrypt CrocProto.write at he
  cases hs : cfg.ext.aeadEncrypt (a.session cfg.ext).encryptor.cipher (a.nonce i)
    (asBytes text) with
  | none => exact Or.inl (by simpa [hs, bind, Except.bind, eq_comm] using he)
  | some c =>
    simp only [hs, orErr_some, bind, Except.bind, pure, Except.pure] at he
    split at he
    · simp at he
    · exact Or.inr (Or.inl (by simpa [eq_comm] using he))

/-- A text that fits a frame goes out. -/
theorem Caller.exists_sealed (hX : cfg.ext.WritesShort)
    (h : (asBytes text).length + 28 < 2 ^ 32) : ∃ bytes, a.sealed cfg.ext i text = .ok bytes := by
  obtain ⟨data, hw, hl⟩ := (a.session cfg.ext).exists_write hX (a.nonce i)
    (show (asBytes text).length < 2 ^ 32 by omega)
  refine ⟨frame data, bind_eq_ok.mpr ⟨data, hw, ?_⟩⟩
  exact CrocProto.write_eq_ok.mpr ⟨by omega, rfl⟩

/-- What the relay writes is a payload that the client opens. -/
theorem Conn.send_tells {t : ClientId} {msg : Bytes} {io : Io} {c c' : Conn}
    (hdec : cfg.ext.DecryptInverts)
    (h : c.send cfg t (a.session cfg.ext) msg io = .ok c') :
    ∃ data, c' = { c with replies := c.replies ++ [data] } ∧ Tells cfg a data msg := by
  obtain ⟨data, hdata, hw⟩ := bind_eq_ok.mp h
  obtain ⟨_, hlen, hw⟩ := bind_eq_ok.mp hw
  obtain ⟨hlen, -⟩ := CrocProto.write_eq_ok.mp hlen
  have hread : (a.session cfg.ext).read cfg.ext (frame data) = (.ok msg, []) := by
    simpa using EncryptedSession.read_write hdec hdata hlen []
  split at hw
  · obtain rfl := Except.ok.inj hw
    exact ⟨data, rfl, by rw [Tells, hread]⟩
  · simp at hw

theorem Conn.send_io {t : ClientId} {enc : EncryptedSession} {msg : Bytes} {io : Io} {c : Conn}
    (h : io.ok = true) : c.send cfg t enc msg io = c.send cfg t enc msg Io.fine := by
  simp [Conn.send, Conn.write, h, Io.fine]

/-- The client makes sense of the info message. -/
theorem hearInfo_infoMessage (R : Relay) (addr : String) :
    ∃ info, Caller.hearInfo (.ok (asBytes (infoMessage R addr))) = .ok info := by
  have hsome : (parseInfo (infoMessage R addr)).isSome := by
    rw [parseInfo, Option.isSome_map, infoMessage, String.toList_append, String.toList_append,
      List.append_assoc]
    exact isSome_splitOnce (by decide) _ _
  obtain ⟨info, hinfo⟩ := Option.isSome_iff_exists.mp hsome
  exact ⟨info, by simp [Caller.hearInfo, bind, Except.bind, fromUtf8_asBytes, hinfo]⟩

theorem hearResponse_ok : a.hearResponse (.ok (asBytes "ok")) = .ok () := by
  simp [Caller.hearResponse, bind, Except.bind]

theorem hearResponse_full :
    a.hearResponse (.ok (asBytes "room full")) = .error (.err (.roomFull a.room)) := by
  have hne : asBytes "room full" ≠ asBytes "ok" := by decide +kernel
  simp [Caller.hearResponse, bind, Except.bind, hne]

end Texts

section Turns
variable {cfg : Config} {a : Caller} {t : ClientId} {d d' : Dialogue}

namespace Dialogue

theorem hear_of_tells {data msg : Bytes} (hl : d.unheard t = [data]) (hd : Tells cfg a data msg) :
    d.hear cfg a t = some (.ok msg) := by
  rw [hear, hl]
  exact congrArg some hd

/-- The client hears nothing while the relay is silent and keeps the session. -/
theorem hear_of_unanswered (hl : d.unheard t = []) (hun : (d.relay.pc t).unanswered) :
    d.hear cfg a t = none := by
  rw [hear, hl]
  cases hpc : d.relay.pc t <;> simp_all [Pc.unanswered]

theorem hear_of_done {r : Except Halt Unit} (hl : d.unheard t = []) (hpc : d.relay.pc t = .done r) :
    d.hear cfg a t = some (.error (.err .magicEof)) := by
  rw [hear, hl]
  simp only [hpc]
  rfl

theorem unheard_succ {data : Bytes} (hl : d.unheard t = [data]) :
    (d.relay.conn t).replies.drop (d.heard + 1) = [] ∧
      d.heard + 1 ≤ (d.relay.conn t).replies.length := by
  have hlen := congrArg List.length hl
  rw [unheard, List.length_drop, List.length_singleton] at hlen
  exact ⟨List.drop_eq_nil_of_le (by omega), by omega⟩

theorem replies_say (out : Except Halt Bytes) (next : Call) :
    ((d.say t out next).relay.conn t).replies = (d.relay.conn t).replies ∧
      (d.say t out next).heard = d.heard := by
  cases out <;> simp [say]

theorem unread_say (bytes : Bytes) (next : Call) :
    ((d.say t (.ok bytes) next).relay.conn t).unread = (d.relay.conn t).unread ++ bytes := by
  simp [say]

end Dialogue

theorem AtPassword.say {rest : Bytes} (h : AtPassword cfg a t d.relay rest) (bytes : Bytes)
    (next : Call) : AtPassword cfg a t (d.say t (.ok bytes) next).relay (rest ++ bytes) := by
  unfold AtPassword
  rw [Dialogue.unread_say, ← List.append_assoc]
  exact h.imp (fun ⟨hpc, hu⟩ => ⟨hpc, by rw [hu]⟩) fun ⟨hpc, hu⟩ => ⟨hpc, by rw [hu]⟩

theorem AtRoom.say {rest : Bytes} (h : AtRoom cfg a t d.relay rest) (bytes : Bytes)
    (next : Call) : AtRoom cfg a t (d.say t (.ok bytes) next).relay (rest ++ bytes) :=
  ⟨h.1, by rw [Dialogue.unread_say, h.2]⟩

/-- The two are at a stage of the negotiation. -/
structure InStep (cfg : Config) (a : Caller) (t : ClientId) (d : Dialogue) : Prop where
  stage : Stage cfg a t d.relay (d.unheard t) d.call
  heard : (∀ r, d.call ≠ .done r) → d.heard ≤ (d.relay.conn t).replies.length

/-- The client says something at a stage where it has heard all that the relay has said. -/
theorem InStep.say {out : Except Halt Bytes} {next : Call}
    (hh : d.heard ≤ (d.relay.conn t).replies.length) (hl : d.unheard t = [])
    (h : Stage cfg a t (d.say t out next).relay [] (d.say t out next).call) :
    InStep cfg a t (d.say t out next) := by
  obtain ⟨hreplies, hheard⟩ := d.replies_say (t := t) out next
  refine ⟨?_, fun _ => by rwa [hreplies, hheard]⟩
  rw [Dialogue.unheard, hreplies, hheard, ← Dialogue.unheard, hl]
  exact h

/-- The client's turn. -/
theorem InStep.turn (h : InStep cfg a t d) (hd : d.turn cfg a t = some d') :
    InStep cfg a t d' := by
  obtain ⟨h, hh⟩ := h
  generalize hl : d.unheard t = l at h
  generalize hc : d.call = c at h hh
  rw [Dialogue.turn, hc] at hd
  cases h with
  | salt hpc hu =>
    have hw : CrocProto.write a.salt.toList = .ok (frame a.salt.toList) :=
      CrocProto.write_eq_ok.mpr ⟨by rw [a.salt.toList_length]; norm_num, rfl⟩
    obtain rfl := Option.some.inj hd
    refine .say (hh (by simp)) hl ?_
    rw [hw]
    exact .salted (Or.inl ⟨hpc, by rw [Dialogue.unread_say, hu, List.nil_append, List.append_nil]⟩)
  | salted h =>
    obtain rfl := Option.some.inj hd
    refine .say (hh (by simp)) hl ?_
    cases hw : a.sealed cfg.ext 0 a.password with
    | ok bytes => exact .password (h.say bytes _) hw
    | error e => exact .hungUp (Or.inl h) (Caller.sealed_error hw)
  | greeted h =>
    obtain rfl := Option.some.inj hd
    refine .say (hh (by simp)) hl ?_
    cases hw : a.sealed cfg.ext 1 a.room with
    | ok bytes => exact .room (h.say bytes _) hw
    | error e => exact .hungUp (Or.inr h) (Caller.sealed_error hw)
  | password h hw => simp [Dialogue.hear_of_unanswered hl h.unanswered] at hd
  | banner hpc hu =>
    have hun : (d.relay.pc t).unanswered := by simp [hpc, Pc.unanswered]
    simp [Dialogue.hear_of_unanswered hl hun] at hd
  | room h hw => simp [Dialogue.hear_of_unanswered hl h.unanswered] at hd
  | asking h => simp [Dialogue.hear_of_unanswered hl (Pc.unanswered_of_asks h)] at hd
  | @info data addr h ht =>
    obtain ⟨info, hinfo⟩ := hearInfo_infoMessage cfg.relay addr
    simp only [Dialogue.hear_of_tells hl ht, Option.map_some, hinfo] at hd
    obtain rfl := Option.some.inj hd
    obtain ⟨hnil, hle⟩ := Dialogue.unheard_succ hl
    exact ⟨by rw [Dialogue.unheard, hnil]; exact .greeted h, fun _ => hle⟩
  | joined hj hun hn ht =>
    simp only [Dialogue.hear_of_tells hl ht, Option.map_some, hearResponse_ok] at hd
    obtain rfl := Option.some.inj hd
    obtain ⟨hnil, hle⟩ := Dialogue.unheard_succ hl
    exact ⟨by rw [Dialogue.unheard, hnil]; exact .welcomed hj hun hn, fun _ => hle⟩
  | refused hr hpc ht =>
    simp only [Dialogue.hear_of_tells hl ht, Option.map_some, hearResponse_full] at hd
    obtain rfl := Option.some.inj hd
    obtain ⟨hnil, hle⟩ := Dialogue.unheard_succ hl
    exact ⟨by rw [Dialogue.unheard, hnil]; exact .turnedAway hr hpc, fun _ => hle⟩
  | failed hpc hj hr hcall =>
    rcases hcall with rfl | ⟨h, -, rfl⟩
    · have hinfo : Caller.hearInfo (.error (.err .magicEof)) = .error (.err .magicEof) := rfl
      simp only [Dialogue.hear_of_done hl hpc, Option.map_some, hinfo] at hd
      obtain rfl := Option.some.inj hd
      have hnil : (d.relay.conn t).replies.drop (d.heard + 1) = [] :=
        List.drop_eq_nil_of_le (le_trans (List.drop_eq_nil_iff.mp hl) (Nat.le_succ _))
      refine ⟨?_, fun hne => absurd rfl (hne _)⟩
      rw [Dialogue.unheard, hnil]
      exact .failed hpc hj hr (Or.inr ⟨.err .magicEof, Or.inr (Or.inr rfl), rfl⟩)
    · simp at hd
  | hungUp | welcomed | turnedAway => simp at hd

end Turns

section Relay
variable {cfg : Config} {a : Caller} {t : ClientId} {s s' : State} {io : Io} {call : Call} {n : ℕ}

/-- Where a step of the negotiation leads. -/
def State.follow (t : ClientId) (c : Conn) (s : State) : Progress → State
  | .next n => (s.setConn t c).setPc t (.nego n)
  | .ask name enc => ((s.setConn t c).acquire .rooms t).setPc t (.awaitRooms name enc)
  | .stop r => (s.setConn t c).setPc t (.done r)

theorem resume_nego {n : Nego} {p : Progress} {c : Conn} (hpc : s.pc t = .nego n)
    (hn : negotiate cfg t io (s.conn t) n = some (p, c)) (hs : resume cfg s t io = some s') :
    s' = s.follow t c p := by
  rw [resume, hpc] at hs
  simp only [hn, Option.map_some, Option.some.injEq] at hs
  rw [← hs]
  cases p <;> rfl

/-- The salt makes the session of the client on the relay's side. -/
theorem newReciever_salt (rnd : Block 8) (rest : Bytes) :
    EncryptedSession.newReciever cfg.ext a.symKey rnd (frame a.salt.toList ++ rest) =
      (.ok (a.session cfg.ext), rest) := by
  rw [EncryptedSession.newReciever, CrocProto.read_frame (by rw [a.salt.toList_length]; norm_num)]
  simp [AesEncryptor.new, Caller.session, Except.map]

/-- A read that fails, or that finds the stream at its end, ends the task. -/
theorem negotiate_cut {n : Nego} {c : Conn} (hn : n.reads) (h : io.ok = false ∨ c.unread = []) :
    ∃ e c', negotiate cfg t io c n = some (.stop (.error e), c') ∧ c'.replies = c.replies := by
  have hraw : CrocProto.read [] = (.error (.err .magicEof), []) := rfl
  rcases h with h | h
  · cases n <;> simp_all [Nego.reads, negotiate, recv]
  · cases hio : io.ok <;> cases n <;>
      simp_all [Nego.reads, negotiate, recv, EncryptedSession.read, EncryptedSession.newReciever]

/-- The relay gives up a client that it has not answered. -/
theorem Stage.of_stop {e : Halt} {c : Conn} (hi : SessionInv s) (hun : (s.pc t).unanswered)
    (hcall : call = .readInfo ∨ ∃ h, GaveUp h ∧ call = .done (.error h)) :
    Stage cfg a t ((s.setConn t c).setPc t (.done (.error e))) [] call := by
  obtain ⟨hj, hr⟩ := hi.unanswered t hun
  exact .failed (e := e) (by simp) hj hr hcall

theorem drop_snoc {l : List Bytes} {data : Bytes} (h : l.drop n = []) (hle : n ≤ l.length) :
    (l ++ [data]).drop n = [data] ∧ n ≤ (l ++ [data]).length := by
  rw [List.drop_append_of_le_length hle, h]
  exact ⟨rfl, by rw [List.length_append]; omega⟩

/-- The task of a client that asks for a room, up to its answer. -/
theorem Stage.answer (hX : cfg.ext.WritesShort) (hdec : cfg.ext.DecryptInverts)
    (h : (s.pc t).asks a.room (a.session cfg.ext)) (hio : io.ok = true)
    (hl : (s.conn t).replies.drop n = []) (hle : n ≤ (s.conn t).replies.length)
    (hs : resume cfg s t io = some s') :
    Stage cfg a t s' ((s'.conn t).replies.drop n) .readResponse ∧
      n ≤ (s'.conn t).replies.length := by
  have hsend : ∀ msg : Bytes, msg.length + 28 < 2 ^ 32 → ∃ data,
      (s.conn t).send cfg t (a.session cfg.ext) msg io =
        .ok { s.conn t with replies := (s.conn t).replies ++ [data] } ∧ Tells cfg a data msg := by
    intro msg hmsg
    obtain ⟨_, hd⟩ := Conn.send_ok hX t msg hmsg (a.session cfg.ext) (s.conn t)
    obtain ⟨data, hc, ht⟩ := Conn.send_tells hdec hd
    exact ⟨data, by rw [Conn.send_io hio, hd, hc], ht⟩
  have hdrop : ∀ data : Bytes, ((s.conn t).replies ++ [data]).drop n = [data] ∧
      n ≤ ((s.conn t).replies ++ [data]).length := fun _ => drop_snoc hl hle
  unfold resume at hs
  cases hpc : s.pc t with
  | awaitRooms name enc | awaitRoom name r enc =>
    obtain ⟨rfl, rfl⟩ : name = a.room ∧ enc = _ := by simpa [hpc, Pc.asks] using h
    simp only [hpc] at hs
    split at hs
    · split at hs <;>
      · obtain rfl := Option.some.inj hs
        exact ⟨by simpa [hl] using Stage.asking (by simp [Pc.asks]), by simpa using hle⟩
    · simp at hs
  | writeFull name r enc =>
    obtain ⟨rfl, rfl⟩ : name = a.room ∧ enc = _ := by simpa [hpc, Pc.asks] using h
    obtain ⟨data, hc, ht⟩ := hsend (asBytes "room full") (by decide +kernel)
    simp only [hpc, hc, Option.some.injEq] at hs
    obtain rfl := hs
    simp only [State.setPc, State.release, State.note, State.setConn, Function.update_self]
    rw [(hdrop data).1]
    exact ⟨.refused (by simp) (by simp) ht, (hdrop data).2⟩
  | writeJoin name r enc =>
    obtain ⟨rfl, rfl⟩ : name = a.room ∧ enc = _ := by simpa [hpc, Pc.asks] using h
    obtain ⟨data, hc, ht⟩ := hsend (asBytes "ok") (by decide +kernel)
    simp only [hpc, hc, Option.some.injEq] at hs
    obtain rfl := hs
    simp only [State.setPc, State.release, State.note, State.setConn, State.setRoom, State.acquire,
      Function.update_self]
    rw [(hdrop data).1]
    exact ⟨.joined ⟨r, by simp⟩ (by simp [Pc.unanswered]) (by simp) ht, (hdrop data).2⟩
  | writeCreate name enc =>
    obtain ⟨rfl, rfl⟩ : name = a.room ∧ enc = _ := by simpa [hpc, Pc.asks] using h
    obtain ⟨data, hc, ht⟩ := hsend (asBytes "ok") (by decide +kernel)
    simp only [hpc, hc, Option.some.injEq] at hs
    obtain rfl := hs
    simp only [State.setPc, State.release, State.note, State.setConn, State.createRoom,
      State.acquire, Function.update_self]
    rw [(hdrop data).1]
    exact ⟨.joined ⟨s.fresh, by simp⟩ (by simp [Pc.unanswered]) (by simp) ht, (hdrop data).2⟩
  | _ => simp [hpc, Pc.asks] at h
/-- The relay's task ends if the next message of the client does not come. -/
theorem Stage.cut {m : Nego} (hi : SessionInv s) (hpc : s.pc t = .nego m) (hm : m.reads)
    (hio : io.ok = false ∨ (s.conn t).unread = [])
    (hcall : call = .readInfo ∨ ∃ h, GaveUp h ∧ call = .done (.error h))
    (hs : resume cfg s t io = some s') :
    Stage cfg a t s' [] call ∧ (s'.conn t).replies = (s.conn t).replies := by
  obtain ⟨e, c, hn, hreplies⟩ := @negotiate_cut cfg t io m (s.conn t) hm hio
  obtain rfl := resume_nego hpc hn hs
  exact ⟨.of_stop hi (by simp [hpc, Pc.unanswered]) hcall, by simpa [State.follow] using hreplies⟩

/-- The relay reads the salt. -/
theorem AtPassword.readSalt {rest : Bytes} (hpc : s.pc t = .nego (.saltRead a.symKey))
    (hu : (s.conn t).unread = frame a.salt.toList ++ rest) (hio : io.ok = true)
    (hs : resume cfg s t io = some s') :
    AtPassword cfg a t s' rest ∧ (s'.conn t).replies = (s.conn t).replies := by
  have hn : negotiate cfg t io (s.conn t) (.saltRead a.symKey) =
      some (.next (.passwordRead (a.session cfg.ext)), { s.conn t with unread := rest }) := by
    simp [negotiate, recv, hio, hu, newReciever_salt]
  obtain rfl := resume_nego hpc hn hs
  exact ⟨Or.inr ⟨by simp [State.follow], by simp [State.follow]⟩, by simp [State.follow]⟩

/-- The relay reads a password that is its own. -/
theorem Stage.readPassword (hi : SessionInv s) (hio : io.ok = true)
    (hpc : s.pc t = .nego (.passwordRead (a.session cfg.ext)))
    (hread : (a.session cfg.ext).read cfg.ext (s.conn t).unread = (.ok (asBytes a.password), []))
    (hp : a.password = trim (cfg.password t)) (hs : resume cfg s t io = some s') :
    Stage cfg a t s' [] .readInfo ∧ (s'.conn t).replies = (s.conn t).replies := by
  have hn : negotiate cfg t io (s.conn t) (.passwordRead (a.session cfg.ext)) =
      some (afterPassword cfg t (a.session cfg.ext), { s.conn t with unread := [] }) := by
    simp [negotiate, recv, hio, hread, fromUtf8_asBytes, hp]
  obtain rfl := resume_nego hpc hn hs
  rcases afterPassword_cases cfg t (a.session cfg.ext) with he | ⟨addr, -, he⟩ <;> rw [he]
  · exact ⟨.of_stop hi (by simp [hpc, Pc.unanswered]) (Or.inl rfl), by simp [State.follow]⟩
  · have hbanner : (s.follow t { s.conn t with unread := [] }
        (.next (.bannerWrite (a.session cfg.ext) addr))).pc t =
          .nego (.bannerWrite (a.session cfg.ext) addr) := by simp [State.follow]
    exact ⟨.banner hbanner (by simp [State.follow]), by simp [State.follow]⟩

/-- The relay tells the client its address. -/
theorem Stage.writeBanner (hdec : cfg.ext.DecryptInverts) (hi : SessionInv s) {addr : String}
    (hpc : s.pc t = .nego (.bannerWrite (a.session cfg.ext) addr)) (hu : (s.conn t).unread = [])
    (hl : (s.conn t).replies.drop n = []) (hle : n ≤ (s.conn t).replies.length)
    (hs : resume cfg s t io = some s') :
    Stage cfg a t s' ((s'.conn t).replies.drop n) .readInfo ∧ n ≤ (s'.conn t).replies.length := by
  cases hc : (s.conn t).send cfg t (a.session cfg.ext) (asBytes (infoMessage cfg.relay addr))
    io with
  | error e =>
    have hn : negotiate cfg t io (s.conn t) (.bannerWrite (a.session cfg.ext) addr) =
        some (.stop (.error e), s.conn t) := by simp [negotiate, hc]
    obtain rfl := resume_nego hpc hn hs
    have hreplies : (((s.follow t (s.conn t) (.stop (.error e))).conn t).replies) =
      (s.conn t).replies := by simp [State.follow]
    rw [hreplies, hl]
    exact ⟨.of_stop hi (by simp [hpc, Pc.unanswered]) (Or.inl rfl), hle⟩
  | ok c =>
    obtain ⟨data, rfl, ht⟩ := Conn.send_tells hdec hc
    have hn : negotiate cfg t io (s.conn t) (.bannerWrite (a.session cfg.ext) addr) =
        some (.next (.roomRead (a.session cfg.ext)),
          { s.conn t with replies := (s.conn t).replies ++ [data] }) := by simp [negotiate, hc]
    obtain rfl := resume_nego hpc hn hs
    obtain ⟨hdrop, hlen⟩ : ((s.conn t).replies ++ [data]).drop n = [data] ∧
        n ≤ ((s.conn t).replies ++ [data]).length := drop_snoc hl hle
    simp only [State.follow, State.setPc, State.setConn, Function.update_self]
    rw [hdrop]
    exact ⟨.info ⟨by simp, by simpa using hu⟩ ht, hlen⟩

/-- The relay reads the name of the room. -/
theorem Stage.readRoom (hio : io.ok = true) (hpc : s.pc t = .nego (.roomRead (a.session cfg.ext)))
    (hread : (a.session cfg.ext).read cfg.ext (s.conn t).unread = (.ok (asBytes a.room), []))
    (hs : resume cfg s t io = some s') :
    Stage cfg a t s' [] .readResponse ∧ (s'.conn t).replies = (s.conn t).replies := by
  have hn : negotiate cfg t io (s.conn t) (.roomRead (a.session cfg.ext)) =
      some (.ask a.room (a.session cfg.ext), { s.conn t with unread := [] }) := by
    simp [negotiate, recv, hio, hread, fromUtf8_asBytes]
  obtain rfl := resume_nego hpc hn hs
  exact ⟨.asking (by simp [State.follow, Pc.asks]), by simp [State.follow]⟩

/-- The relay's turn, in the task of a client that it has not answered. -/
theorem InStep.resume {d : Dialogue} (hX : cfg.ext.WritesShort) (hdec : cfg.ext.DecryptInverts)
    (hi : SessionInv d.relay) (hp : (asBytes a.password).length + 28 < 2 ^ 32 →
      a.password = trim (cfg.password t)) (h : InStep cfg a t d)
    (hok : Reliable t d (.relay (.resume t io))) (hun : (d.relay.pc t).unanswered)
    (hs : resume cfg d.relay t io = some s') : InStep cfg a t { d with relay := s' } := by
  obtain ⟨h, hle⟩ := h
  generalize hl : d.unheard t = l at h
  generalize hc : d.call = c at h hle
  have hok := hok rfl hun
  rw [hc] at hok
  -- a step in which the relay writes nothing
  have quiet : d.unheard t = [] →
      Stage cfg a t s' [] c ∧ (s'.conn t).replies = (d.relay.conn t).replies →
      InStep cfg a t ⟨s', c, d.heard, d.info⟩ := by
    rintro hl ⟨hst, hreplies⟩
    have hl' : (s'.conn t).replies.drop d.heard = [] := hreplies ▸ hl
    exact ⟨by rwa [Dialogue.unheard, hl'], fun hne => by rw [hreplies]; exact hle hne⟩
  -- nothing has arrived that the relay could read
  have silent : ∀ n, d.relay.pc t = .nego n → n.reads → (d.relay.conn t).unread = [] →
      (∀ r, c ≠ .done r) → False := by
    intro n hpc hn hu hne
    obtain ⟨msg, rest, hread⟩ := (hok hne).2 n hpc hn
    simp [hu, CrocProto.read] at hread
  cases h with
  | salt hpc hu => exact (silent _ hpc trivial hu (by simp)).elim
  | salted h =>
    rcases h with ⟨hpc, hu⟩ | ⟨hpc, hu⟩
    · obtain ⟨hst, hreplies⟩ := AtPassword.readSalt hpc hu (hok (by simp)).1 hs
      exact quiet hl ⟨.salted hst, hreplies⟩
    · exact (silent _ hpc trivial hu (by simp)).elim
  | password h hw =>
    have hio := (hok (by simp)).1
    rcases h with ⟨hpc, hu⟩ | ⟨hpc, hu⟩
    · obtain ⟨hst, hreplies⟩ := AtPassword.readSalt hpc hu hio hs
      exact quiet hl ⟨.password hst hw, hreplies⟩
    · obtain ⟨hlen, -, hread⟩ := Caller.sealed_ok hX hdec hw
      exact quiet hl (Stage.readPassword hi hio hpc (by rw [hu]; exact hread) (hp hlen) hs)
  | banner hpc hu =>
    obtain ⟨hst, hlen⟩ := Stage.writeBanner hdec hi hpc hu hl (hle (by simp)) hs
    exact ⟨hst, fun _ => hlen⟩
  | info h => exact (silent _ h.1 trivial h.2 (by simp)).elim
  | greeted h => exact (silent _ h.1 trivial h.2 (by simp)).elim
  | room h hw =>
    obtain ⟨-, -, hread⟩ := Caller.sealed_ok hX hdec hw
    exact quiet hl (Stage.readRoom (hok (by simp)).1 h.1 (by rw [h.2]; exact hread) hs)
  | asking h =>
    obtain ⟨hst, hlen⟩ := Stage.answer hX hdec h (hok (by simp)).1 hl (hle (by simp)) hs
    exact ⟨hst, fun _ => hlen⟩
  | @hungUp e hpc hh =>
    have hcall : Call.done (.error e) = .readInfo ∨ ∃ h, GaveUp h ∧ Call.done (.error e) =
        .done (.error h) := Or.inr ⟨e, hh, rfl⟩
    rcases hpc with (⟨hpc, hu⟩ | ⟨hpc, hu⟩) | ⟨hpc, hu⟩
    · cases hio : io.ok with
      | false => exact quiet hl (Stage.cut hi hpc trivial (Or.inl hio) hcall hs)
      | true =>
        obtain ⟨hst, hreplies⟩ := AtPassword.readSalt hpc hu hio hs
        exact quiet hl ⟨.hungUp (Or.inl hst) hh, hreplies⟩
    · exact quiet hl (Stage.cut hi hpc trivial (Or.inr hu) hcall hs)
    · exact quiet hl (Stage.cut hi hpc trivial (Or.inr hu) hcall hs)
  | failed hpc => simp [hpc, Pc.unanswered] at hun
  | joined hj hun' => exact absurd hun hun'
  | welcomed hj hun' => exact absurd hun hun'
  | refused hr hpc => simp [hpc, Pc.unanswered] at hun
  | turnedAway hr hpc => simp [hpc, Pc.unanswered] at hun

end Relay

end Croc.Server
