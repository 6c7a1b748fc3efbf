import Croc.Session.Keyed
import Croc.Session.Opening

/-! The keys of two ends that share a secret. Whatever fails around them, an end that comes to a key
comes to that of the exchange. -/
namespace Croc
open Lib

namespace Session
variable {X : External} {W : World} {c : Setup} {s : Session X}

/-- A receiver begins with a key of its own, and sends it. -/
theorem start_asks {pw : Bytes} (hs : c.isSender = false) (hpw : c.secretTail = .ok pw) :
    Post (start W c) (new W : Session X)
      (fun _ t => t.key = some (X.newPake .sender (some pw) (W.seed 0)) ∧
        t.sent = [pakeMessage (X.newPake .sender (some pw) (W.seed 0)) (asBytes "siec")])
      (fun _ t => (∀ key, t.key = some key → key = X.newPake .sender (some pw) (W.seed 0)) ∧
        t.sent = []) := by
  have hnew : (∀ key, (new W : Session X).key = some key →
      key = X.newPake .sender (some pw) (W.seed 0)) ∧ (new W : Session X).sent = [] :=
    ⟨fun key hkey => by simp [new] at hkey, rfl⟩
  simp only [start, post_bind, post_lift, post_ite, orErr_eq_ok, orErr_eq_error]
  refine ⟨fun port _ => ⟨fun _ => hnew, fun _ => ?_⟩, fun _ _ => hnew⟩
  cases W.connectError with
  | some e => exact hnew
  | none => simp [hs, hpw, new]

/-- At first no task uses a key. -/
theorem init_uses {P : EncryptedSession → Prop} : Uses (fun _ => True) P (init X W c) := by
  apply run_of_post (I := Uses (fun _ => True) P)
  apply start_spec.mono
  · rintro p t ⟨-, ⟨-, rfl⟩ | ⟨-, key, msg, rfl⟩⟩
    · exact .of_none (fun _ _ => trivial) rfl rfl rfl rfl
    · exact .of_none (fun _ _ => trivial) rfl rfl rfl rfl
  · rintro h t ⟨-, k, rfl⟩
    exact .of_none (fun _ _ => trivial) rfl rfl rfl rfl

/-- A sender that comes to a key has answered the one that it was given. -/
theorem onPake_answers {pw : Bytes} {q : X.PubKey} {p : X.Pake} {k : Block 32}
    (hJ : X.KeyJsonRoundTrip) (hs : c.isSender = true) (hpw : c.secretTail = .ok pw)
    (hp : X.update (X.newPake .reciever (some pw) (W.seed s.sent.length)) q = .ok p)
    (hk : X.pakeKey p = some k) :
    Post (onMessage W c (.pake ⟨asBytes (X.keyToJson q), asBytes "siec"⟩)) s
      (fun _ t => t.encryptedSession =
          some ⟨AesEncryptor.new X k (some (W.salt s.sent.length)) (W.salt s.sent.length)⟩ ∧
        t.sent = s.sent ++ [pakeMessage p (W.salt s.sent.length).toList])
      (fun _ t => t.sent = s.sent) := by
  obtain ⟨hq, -⟩ := hJ q
  unfold onMessage processKeyExchange agreeKey answerKey enterSession startFsTask afterMessage
  simp [hs, hpw, hq, hp, hk, sessionKey]

/-- A receiver that comes to a key takes it from the answer to its own. -/
theorem onPake_takes {q : X.PubKey} {key p : X.Pake} {k : Block 32} (hJ : X.KeyJsonRoundTrip)
    (hs : c.isSender = false) (hkey : ∀ key', s.key = some key' → key' = key)
    (hp : X.update key q = .ok p) (hk : X.pakeKey p = some k) (salt : Block 8) :
    Post (onMessage W c (.pake ⟨asBytes (X.keyToJson q), salt.toList⟩)) s
      (fun _ t => t.encryptedSession = some ⟨AesEncryptor.new X k (some salt) salt⟩)
      (fun _ _ => True) := by
  obtain ⟨-, hq⟩ := hJ q
  unfold onMessage processKeyExchange agreeKey takeKey enterSession startFsTask afterMessage
  cases hold : s.key with
  | none => simp [hs, hold]
  | some old =>
    obtain rfl := hkey old hold
    simp [hs, hold, hq, hp, hk, sessionKey]

end Session

namespace Exchange
open Session
variable {X : External} {M : Meeting} (x : Exchange X M)

/-- The key that the receiver begins with. -/
def firstKey : X.Pake := X.newPake .sender (some x.pw) (M.receiverWorld.seed 0)

/-- The key message of the receiver. -/
def question : Message := pakeMessage x.firstKey (asBytes "siec")

/-- The key message of the sender. -/
def answer : Message := pakeMessage x.senderKey (M.senderWorld.salt 0).toList

end Exchange

namespace Pair
open Session
variable {X : External} {M : Meeting} {x : Exchange X M} {p p' : Pair X}

/-- The invariant: the ends know of no key but those of the exchange. -/
structure SameKey (x : Exchange X M) (p : Pair X) : Prop where
  sender : Uses (fun _ => True) (· = x.enc) p.sender
  receiver : Uses (fun _ => True) (· = x.enc) p.receiver
  answer : ∀ msg, .pake msg ∈ p.sender.sent → .pake msg = x.answer
  question : ∀ msg, .pake msg ∈ p.receiver.sent → .pake msg = x.question
  waits : p.toReceiver = 0 → ∀ key, p.receiver.key = some key → key = x.firstKey

/-- A key message comes first. -/
theorem Coupled.toSender_eq_zero (h : Coupled M p) {msg : PakeMessage}
    (hm : p.receiver.sent[p.toSender]? = some (.pake msg)) : p.toSender = 0 := by
  by_contra h0
  exact h.receiverKey _ (mem_tail_of_getElem? hm h0) msg rfl

theorem Coupled.toReceiver_eq_zero (h : Coupled M p) {msg : PakeMessage}
    (hm : p.sender.sent[p.toReceiver]? = some (.pake msg)) : p.toReceiver = 0 := by
  by_contra h0
  exact h.senderKey _ (mem_tail_of_getElem? hm h0) msg rfl

/-- The sender takes the receiver's key. -/
theorem SameKey.sender_pake (hJ : X.KeyJsonRoundTrip) (h : SameKey x p) (hc : Coupled M p)
    {msg : PakeMessage} (hm : p.receiver.sent[p.toSender]? = some (.pake msg)) {s : Session X}
    (he : p.stepSender M (.message (.pake msg)) = some s) :
    Uses (fun _ => True) (· = x.enc) s ∧ ∀ msg', .pake msg' ∈ s.sent → .pake msg' = x.answer := by
  obtain ⟨-, hsent, -⟩ := hc.freshSender (hc.toSender_eq_zero hm)
  obtain ⟨-, rfl⟩ := message_of_step he
  obtain rfl := Message.pake.inj (h.question msg (List.mem_of_getElem? hm))
  have hpost := onPake_answers (W := M.senderWorld) (s := p.sender) hJ M.isSender x.senderSecret
    (by rw [hsent]; exact x.answers) x.senderAgrees
  rw [hsent] at hpost
  refine ⟨h.sender.pake (hpost.mono ?_ fun _ _ _ _ _ => trivial), ?_⟩
  · rintro _ t ⟨henc, -⟩
    exact ⟨fun _ _ => trivial, _, henc, rfl⟩
  · apply run_of_post (I := fun t => ∀ msg', .pake msg' ∈ t.sent → .pake msg' = x.answer)
    apply hpost.mono
    · rintro _ t ⟨-, ht⟩ msg' hmsg
      rw [show t.sent = [x.answer] from ht] at hmsg
      exact List.mem_singleton.mp hmsg
    · rintro _ t ht msg' hmsg
      simp only [ht, List.not_mem_nil] at hmsg

theorem SameKey.sender_step (hJ : X.KeyJsonRoundTrip) (h : SameKey x p) (hc : Coupled M p)
    {e : Session.Event} {s : Session X} (he : p.stepSender M e = some s)
    (hm : ∀ m, e = .message m → p.receiver.sent[p.toSender]? = some m) (hs : p'.sender = s)
    (hr : p'.receiver = p.receiver) (htr : p'.toReceiver = p.toReceiver) : SameKey x p' := by
  subst hs
  suffices hsender : Uses (fun _ => True) (· = x.enc) p'.sender ∧
      ∀ msg, .pake msg ∈ p'.sender.sent → .pake msg = x.answer by
    refine ⟨hsender.1, hr ▸ h.receiver, hsender.2, hr ▸ h.question, ?_⟩
    rw [htr, hr]
    exact h.waits
  by_cases hpake : ∃ msg, e = .message (.pake msg)
  · obtain ⟨msg, rfl⟩ := hpake
    exact h.sender_pake hJ hc (hm _ rfl) he
  · refine ⟨h.sender.step he fun msg heq => absurd ⟨msg, heq⟩ hpake, fun msg hmsg => ?_⟩
    obtain ⟨l, hl, hmay⟩ := (step_logged he).sent
    rw [hl] at hmsg
    rcases List.mem_append.mp hmsg with hmsg | hmsg
    · exact h.answer msg hmsg
    · exact absurd (hmay _ hmsg).2 hpake

/-- Only a key message gives a session another key. -/
theorem key_of_step {W : World} {c : Setup} {s t : Session X} {e : Session.Event}
    (he : Session.step W c s e = some t) (hm : ∀ m, e ≠ .message m) {key : X.Pake}
    (hk : t.key = some key) : s.key = some key := by
  have hs : Uses (fun key => s.key = some key) (fun _ => True) s :=
    ⟨fun _ h => h, fun _ _ => trivial, fun _ _ => trivial, fun _ _ => trivial, fun _ _ => trivial⟩
  exact (hs.step he fun msg heq => absurd heq (hm _)).own key hk

theorem SameKey.receiver_step (hJ : X.KeyJsonRoundTrip) (h : SameKey x p) (hc : Coupled M p)
    {e : Session.Event} {r : Session X} (he : p.stepReceiver M e = some r)
    (htr : (∀ m, e ≠ .message m) ∧ p'.toReceiver = p.toReceiver ∨
      ∃ m, e = .message m ∧ p.sender.sent[p.toReceiver]? = some m ∧
        p'.toReceiver = p.toReceiver + 1) (hr : p'.receiver = r)
    (hs : p'.sender = p.sender) : SameKey x p' := by
  subst hr
  refine ⟨hs ▸ h.sender, h.receiver.step he ?_, hs ▸ h.answer, fun msg hmsg => ?_, fun h0 key => ?_⟩
  · rintro msg rfl
    rcases htr with ⟨hm, -⟩ | ⟨m, hm, hget, -⟩
    · exact absurd rfl (hm _)
    · obtain rfl := Session.Event.message.inj hm
      have hpost := onPake_takes (W := M.receiverWorld) (s := p.receiver) hJ M.isReceiver
        (h.waits (hc.toReceiver_eq_zero hget)) x.takes x.receiverAgrees (M.senderWorld.salt 0)
      obtain rfl := Message.pake.inj (h.answer msg (List.mem_of_getElem? hget))
      obtain ⟨-, hrun⟩ := message_of_step he
      rw [hrun]
      exact h.receiver.pake (hpost.mono (fun _ _ henc => ⟨fun _ _ => trivial, _, henc, rfl⟩)
        fun _ _ _ _ _ => trivial)
  · obtain ⟨l, hl, hmay⟩ := (step_logged he).sent
    rw [hl] at hmsg
    rcases List.mem_append.mp hmsg with hmsg | hmsg
    · exact h.question msg hmsg
    · have hsender := (hmay _ hmsg).1
      simp [M.isReceiver] at hsender
  · rcases htr with ⟨hm, htr⟩ | ⟨m, -, -, htr⟩
    · exact fun hk => h.waits (htr ▸ h0) key (key_of_step he hm hk)
    · omega

theorem SameKey.step (hJ : X.KeyJsonRoundTrip) (h : SameKey x p) (hc : Coupled M p) {e : Event}
    (he : Pair.step M p e = some p') : SameKey x p' := by
  rcases step_ends he with ⟨e', s, hs, hps, hpr, htr, hts⟩ | ⟨e', r, hr, hpr, hps, -, htr⟩ |
    ⟨hps, hpr, -, htr⟩
  · refine h.sender_step hJ hc hs (fun m hm => ?_) hps hpr htr
    rcases hts with ⟨hno, -⟩ | ⟨m', hm', hget, -⟩
    · exact absurd hm (hno m)
    · rw [hm] at hm'
      exact Session.Event.message.inj hm' ▸ hget
  · exact h.receiver_step hJ hc hr htr hpr hps
  · refine ⟨hps ▸ h.sender, hpr ▸ h.receiver, hps ▸ h.answer, hpr ▸ h.question, ?_⟩
    rw [htr, hpr]
    exact h.waits

theorem sameKey_init : SameKey x (init X M) := by
  have hstart := start_asks (X := X) (W := M.receiverWorld) M.isReceiver x.receiverSecret
  refine ⟨init_uses, init_uses, fun msg hmsg => ?_, ?_, fun _ => ?_⟩
  · obtain ⟨-, hsent, -⟩ := sender_init (X := X) (W := M.senderWorld) M.isSender
    simp [init, hsent] at hmsg
  · apply run_of_post (I := fun t : Session X => ∀ msg, .pake msg ∈ t.sent → .pake msg = x.question)
    apply hstart.mono
    · rintro _ t ⟨-, hsent⟩ msg hmsg
      exact List.mem_singleton.mp (hsent ▸ hmsg)
    · rintro _ t ⟨-, hsent⟩ msg hmsg
      simp [hsent] at hmsg
  · apply run_of_post (I := fun t : Session X => ∀ key, t.key = some key → key = x.firstKey)
    apply hstart.mono
    · rintro _ t ⟨hkey, -⟩ key hk
      exact (Option.some.inj (hkey.symm.trans hk)).symm
    · rintro _ t ⟨hkey, -⟩ key hk
      exact hkey key hk

/-- Two ends that share a secret use one key, whatever happens between them. -/
theorem reachable_sameKey (hJ : X.KeyJsonRoundTrip) {ok : Pair X → Event → Prop}
    (hreach : (machine X M).ReachableBy ok p) : SameKey x p :=
  hreach.invariant (P := SameKey x) sameKey_init fun _ _ _ hp h _ he =>
    h.step hJ (reachable_coupled hp) he

end Pair
end Croc
