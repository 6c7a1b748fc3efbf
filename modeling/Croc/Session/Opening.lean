import Croc.Session.Course

/-! The opening of an honest session: five messages, each of which is
the only thing that can happen. -/
namespace Croc
open Lib

/-- A task that does what it was started for. -/
def Session.Task.Succeeds : Session.Task → Prop
  | .readFailed _ | .encryptFailed _ => False
  | .tick | .read .. | .encrypt .. | .write .. => True

namespace Session
variable {X : External} {W : World} {c : Setup} {s t : Session X}

/-- A session that waits for a message and has given its tasks nothing to do. -/
structure Quiet (s : Session X) : Prop where
  phase : s.phase = .recv
  readers : ∀ r ∈ s.readers, r.queue = []
  encrypting : s.encrypting = []
  writers : s.writers = []

theorem new_quiet (W : World) : (new W : Session X).Quiet := ⟨rfl, by simp [new], rfl, rfl⟩

/-- Reader tasks without a chunk do not move. -/
theorem stepTask_read_none (h : ∀ r ∈ s.readers, r.queue = []) (id : ℕ) (data : Bytes) :
    stepTask W c s (.read id data) = none := by
  cases hr : s.readers[id]? with
  | none => simp [stepTask, hr]
  | some r =>
    obtain ⟨enc, queue, ended⟩ := r
    obtain rfl : queue = [] := h _ (List.mem_of_getElem? hr)
    simp [stepTask, hr]

theorem Quiet.stepTask (h : Quiet s) {e : Task} (he : e.Succeeds) :
    Session.stepTask W c s e = none := by
  cases e with
  | tick => simp [Session.stepTask, proceed, h.phase]
  | read id data => exact stepTask_read_none h.readers id data
  | readFailed => exact he.elim
  | encrypt => simp [Session.stepTask, h.encrypting]
  | encryptFailed => exact he.elim
  | write => simp [Session.stepTask, h.writers]

/-- What a part of `process_client` leaves behind when only one thing can. -/
theorem run_eq_of_post {x : Proc X Phase} {ph : Phase}
    (h : Post x s (fun p u => p = ph ∧ u = t) fun _ _ => False) :
    run x s = { t with phase := ph } := by
  obtain ⟨p, u, hu, rfl, rfl⟩ | ⟨-, -, -, hf⟩ := run_cases h
  · exact hu
  · exact hf.elim

end Session

namespace Pair
open Session
variable {X : External} {M : Meeting} {p p' : Pair X}

/-- The events of a session in which nothing fails and nothing is lost. -/
def Smooth (_ : Pair X) : Event → Prop
  | .sender t | .receiver t => t.Succeeds
  | .toSender | .toReceiver | .deliver _ => True
  | .senderRecvFailed _ | .receiverRecvFailed _ | .lose _ | .keepalive | .dataClosed => False

theorem step_toSender {m : Message} (hm : p.receiver.sent[p.toSender]? = some m)
    (hp : p.sender.phase = .recv) : step M p .toSender = some { p with
      sender := run (onMessage M.senderWorld M.sender m) p.sender
      toSender := p.toSender + 1 } := by
  simp [step, stepSender, Session.step, hm, hp]

theorem step_toReceiver {m : Message} (hm : p.sender.sent[p.toReceiver]? = some m)
    (hp : p.receiver.phase = .recv) : step M p .toReceiver = some { p with
      receiver := run (onMessage M.receiverWorld M.receiver m) p.receiver
      toReceiver := p.toReceiver + 1 } := by
  simp [step, stepReceiver, Session.step, hm, hp]

/-- Quiet ends move only by a message. -/
theorem quiet_step (hs : p.sender.Quiet) (hr : p.receiver.Quiet) (hf : p.inFlight = []) {e : Event}
    (hok : Smooth p e) (he : step M p e = some p') :
    (e = .toSender ∧ p.toSender < p.receiver.sent.length) ∨
      e = .toReceiver ∧ p.toReceiver < p.sender.sent.length := by
  cases e with
  | sender t => simp [step, stepSender, Session.step, hs.stepTask hok] at he
  | receiver t => simp [step, stepReceiver, Session.step, hr.stepTask hok] at he
  | toSender =>
    obtain ⟨m, hm, -⟩ := Option.bind_eq_some_iff.mp he
    exact Or.inl ⟨rfl, (List.getElem?_eq_some_iff.mp hm).1⟩
  | toReceiver =>
    obtain ⟨m, hm, -⟩ := Option.bind_eq_some_iff.mp he
    exact Or.inr ⟨rfl, (List.getElem?_eq_some_iff.mp hm).1⟩
  | deliver k => simp [step, hf] at he
  | _ => exact hok.elim

end Pair

/-- Two ends with one secret, and connections that hold. -/
structure Meeting.Connected (M : Meeting) : Prop where
  secret : M.sender.sharedSecret = M.receiver.sharedSecret
  ports : M.sender.relayPorts ≠ [] ∧ M.receiver.relayPorts ≠ []
  connects : M.senderWorld.connectError = none ∧ M.receiverWorld.connectError = none
  sends : (∀ n, M.senderWorld.sendError n = none) ∧ ∀ n, M.receiverWorld.sendError n = none

theorem Meeting.Honest.connected {M : Meeting} {files : FilesInformation} {list : List FileInfo}
    (h : M.Honest files list) : M.Connected := ⟨h.secret, h.ports, h.connects, h.sends⟩

/-- The key exchange of two connected ends, with what each end takes from it. -/
structure Exchange (X : External) (M : Meeting) where
  pw : Bytes
  senderKey : X.Pake
  receiverKey : X.Pake
  key : Block 32
  senderSecret : M.sender.secretTail = .ok pw
  receiverSecret : M.receiver.secretTail = .ok pw
  answers : X.update (X.newPake .reciever (some pw) (M.senderWorld.seed 0))
    (X.pubPake (X.newPake .sender (some pw) (M.receiverWorld.seed 0))) = .ok senderKey
  takes : X.update (X.newPake .sender (some pw) (M.receiverWorld.seed 0)) (X.pubPake senderKey) =
    .ok receiverKey
  senderAgrees : X.pakeKey senderKey = some key
  receiverAgrees : X.pakeKey receiverKey = some key

theorem exists_exchange {X : External} {M : Meeting} (hX : X.KeysAgree)
    (hsecret : M.sender.sharedSecret = M.receiver.sharedSecret) {pw : Bytes}
    (hpw : M.sender.secretTail = .ok pw) : Nonempty (Exchange X M) := by
  obtain ⟨p, q, k, hp, hq, hk, hk'⟩ := hX pw (M.senderWorld.seed 0) (M.receiverWorld.seed 0)
  have hpw' : M.receiver.secretTail = .ok pw := by
    rw [← hpw, Setup.secretTail, Setup.secretTail, hsecret]
  exact ⟨⟨pw, p, q, k, hpw, hpw', hp, hq, hk, hk'⟩⟩

namespace Exchange
open Session
variable {X : External} {M : Meeting} (x : Exchange X M)

/-- The session key of both ends, with the salt of the sender. -/
def enc : EncryptedSession :=
  ⟨AesEncryptor.new X x.key (some (M.senderWorld.salt 0)) (M.senderWorld.salt 0)⟩

/-- The sender once it has answered the key. -/
def keyedSender : Session X :=
  withKey x.senderKey x.enc (pakeMessage x.senderKey (M.senderWorld.salt 0).toList)
    (Session.new M.senderWorld)

/-- The sender once it has offered its files. -/
def offeringSender (files : FilesInformation) : Session X :=
  { x.keyedSender with
    peerExternalIp := some M.receiver.externalIp
    state := .fileTransfare
    sent := x.keyedSender.sent ++ [.externalIP ⟨M.sender.externalIp⟩, .filesInfo files] }

/-- The receiver when it has sent its key. -/
def startingReceiver : Session X :=
  { (Session.new M.receiverWorld : Session X) with
    key := some (X.newPake .sender (some x.pw) (M.receiverWorld.seed 0))
    sent :=
      [pakeMessage (X.newPake .sender (some x.pw) (M.receiverWorld.seed 0)) (asBytes "siec")] }

/-- The receiver once it has taken the answer. -/
def keyedReceiver : Session X :=
  withKey x.receiverKey x.enc (.externalIP ⟨M.receiver.externalIp⟩) x.startingReceiver

/-- The receiver once it waits for the offer. -/
def waitingReceiver : Session X :=
  { x.keyedReceiver with
    peerExternalIp := some M.sender.externalIp
    state := .fileInfoTransfare }

theorem keyedSender_quiet : x.keyedSender.Quiet :=
  ⟨rfl, by simp [keyedSender, withKey, Session.new], rfl, rfl⟩

theorem offeringSender_quiet (files : FilesInformation) : (x.offeringSender files).Quiet :=
  ⟨rfl, by simp [offeringSender, keyedSender, withKey, Session.new], rfl, rfl⟩

theorem startingReceiver_quiet : x.startingReceiver.Quiet :=
  ⟨rfl, by simp [startingReceiver, Session.new], rfl, rfl⟩

theorem keyedReceiver_quiet : x.keyedReceiver.Quiet :=
  ⟨rfl, by simp [keyedReceiver, startingReceiver, withKey, Session.new], rfl, rfl⟩

theorem waitingReceiver_quiet : x.waitingReceiver.Quiet :=
  ⟨rfl, by simp [waitingReceiver, keyedReceiver, startingReceiver, withKey, Session.new], rfl, rfl⟩

/-- The five states of a pair before the files are offered. -/
inductive Opening (files : FilesInformation) : Pair X → Prop
  | started : Opening files ⟨Session.new M.senderWorld, x.startingReceiver, 0, 0, []⟩
  | answered : Opening files ⟨x.keyedSender, x.startingReceiver, 1, 0, []⟩
  | agreed : Opening files ⟨x.keyedSender, x.keyedReceiver, 1, 1, []⟩
  | offered : Opening files ⟨x.offeringSender files, x.keyedReceiver, 2, 1, []⟩
  | introduced : Opening files ⟨x.offeringSender files, x.waitingReceiver, 2, 2, []⟩

/-- The pair when the receiver has been given the offer. -/
def afterOffer (files : FilesInformation) : Pair X where
  sender := x.offeringSender files
  receiver := run (onMessage M.receiverWorld M.receiver (.filesInfo files)) x.waitingReceiver
  toSender := 2
  toReceiver := 3
  inFlight := []

section Connected
variable {files : FilesInformation} (hJ : X.KeyJsonRoundTrip) (hC : M.Connected)
include hC

theorem init_eq : Pair.init X M = ⟨Session.new M.senderWorld, x.startingReceiver, 0, 0, []⟩ := by
  have hs : (Pair.init X M).sender = Session.new M.senderWorld :=
    start_sender_ok M.isSender hC.ports.1 x.senderSecret hC.connects.1
  have hr : (Pair.init X M).receiver = x.startingReceiver :=
    start_receiver_ok hC.sends.2 M.isReceiver hC.ports.2 x.receiverSecret hC.connects.2
  rw [← hs, ← hr]
  rfl

include hJ

/-- The next state of the opening. -/
theorem step_started : Pair.step M
    (⟨Session.new M.senderWorld, x.startingReceiver, 0, 0, []⟩ : Pair X) .toSender =
      some ⟨x.keyedSender, x.startingReceiver, 1, 0, []⟩ := by
  rw [Pair.step_toSender (m := pakeMessage
    (X.newPake .sender (some x.pw) (M.receiverWorld.seed 0)) (asBytes "siec")) rfl rfl]
  have hrun := run_eq_of_post (onPake_sender_ok (s := Session.new M.senderWorld) hC.sends.1 hJ
    M.isSender x.senderSecret x.answers x.senderAgrees)
  rw [pakeMessage, hrun]
  rfl

theorem step_answered : Pair.step M
    (⟨x.keyedSender, x.startingReceiver, 1, 0, []⟩ : Pair X) .toReceiver =
      some ⟨x.keyedSender, x.keyedReceiver, 1, 1, []⟩ := by
  rw [Pair.step_toReceiver (m := pakeMessage x.senderKey (M.senderWorld.salt 0).toList) rfl rfl]
  have hrun := run_eq_of_post (onPake_receiver_ok (s := x.startingReceiver) hC.sends.2 hJ
    M.isReceiver rfl x.takes x.receiverAgrees (M.senderWorld.salt 0))
  rw [pakeMessage, hrun]
  rfl

omit hJ

theorem step_agreed (hoffer : M.sender.files = some files) : Pair.step M
    (⟨x.keyedSender, x.keyedReceiver, 1, 1, []⟩ : Pair X) .toSender =
      some ⟨x.offeringSender files, x.keyedReceiver, 2, 1, []⟩ := by
  rw [Pair.step_toSender (m := .externalIP ⟨M.receiver.externalIp⟩) rfl rfl]
  have hrun := run_eq_of_post (onExternalIP_sender_ok (s := x.keyedSender) hC.sends.1 M.isSender
    rfl hoffer ⟨M.receiver.externalIp⟩)
  rw [hrun]
  rfl

end Connected

section Stages
variable {files : FilesInformation} {list : List FileInfo} (hJ : X.KeyJsonRoundTrip)
  (hM : M.Honest files list)

theorem step_offered : Pair.step M
    (⟨x.offeringSender files, x.keyedReceiver, 2, 1, []⟩ : Pair X) .toReceiver =
      some ⟨x.offeringSender files, x.waitingReceiver, 2, 2, []⟩ := by
  rw [Pair.step_toReceiver (m := .externalIP ⟨M.sender.externalIp⟩) rfl rfl]
  have hrun := run_eq_of_post (onExternalIP_receiver_ok (W := M.receiverWorld)
    (s := x.keyedReceiver) M.isReceiver rfl ⟨M.sender.externalIp⟩)
  rw [hrun]
  rfl

theorem step_introduced : Pair.step M
    (⟨x.offeringSender files, x.waitingReceiver, 2, 2, []⟩ : Pair X) .toReceiver =
      some (x.afterOffer files) :=
  Pair.step_toReceiver rfl rfl

include hM

theorem opening_init : x.Opening files (Pair.init X M) := by
  rw [x.init_eq hM.connected]
  exact .started

include hJ

/-- Every honest session can come to the offer. -/
theorem reachable_afterOffer :
    (Pair.machine X M).ReachableBy Pair.Smooth (x.afterOffer files) := by
  have h₀ : (Pair.machine X M).ReachableBy Pair.Smooth (Pair.init X M) := .init
  rw [x.init_eq hM.connected] at h₀
  have h₁ := h₀.step (e := Pair.Event.toSender) trivial (x.step_started hJ hM.connected)
  have h₂ := h₁.step (e := Pair.Event.toReceiver) trivial (x.step_answered hJ hM.connected)
  have h₃ := h₂.step (e := Pair.Event.toSender) trivial (x.step_agreed hM.connected hM.offer)
  have h₄ := h₃.step (e := Pair.Event.toReceiver) trivial x.step_offered
  exact h₄.step (e := Pair.Event.toReceiver) trivial x.step_introduced

variable {x}

/-- Each message of the opening is the only thing that can happen; the last one is the offer. -/
theorem Opening.step {p p' : Pair X} (h : x.Opening files p) {e : Pair.Event}
    (hok : Pair.Smooth p e) (he : Pair.step M p e = some p') :
    x.Opening files p' ∨ p' = x.afterOffer files := by
  cases h with
  | started =>
    obtain ⟨rfl, -⟩ | ⟨-, hlt⟩ :=
      Pair.quiet_step (new_quiet M.senderWorld) x.startingReceiver_quiet rfl hok he
    · obtain rfl := Option.some.inj ((x.step_started hJ hM.connected).symm.trans he)
      exact Or.inl .answered
    · exact absurd hlt (Nat.lt_irrefl 0)
  | answered =>
    obtain ⟨-, hlt⟩ | ⟨rfl, -⟩ :=
      Pair.quiet_step x.keyedSender_quiet x.startingReceiver_quiet rfl hok he
    · exact absurd hlt (Nat.lt_irrefl 1)
    · obtain rfl := Option.some.inj ((x.step_answered hJ hM.connected).symm.trans he)
      exact Or.inl .agreed
  | agreed =>
    obtain ⟨rfl, -⟩ | ⟨-, hlt⟩ :=
      Pair.quiet_step x.keyedSender_quiet x.keyedReceiver_quiet rfl hok he
    · obtain rfl := Option.some.inj ((x.step_agreed hM.connected hM.offer).symm.trans he)
      exact Or.inl .offered
    · exact absurd hlt (Nat.lt_irrefl 1)
  | offered =>
    obtain ⟨-, hlt⟩ | ⟨rfl, -⟩ :=
      Pair.quiet_step (x.offeringSender_quiet files) x.keyedReceiver_quiet rfl hok he
    · exact absurd hlt (Nat.lt_irrefl 2)
    · obtain rfl := Option.some.inj (x.step_offered.symm.trans he)
      exact Or.inl .introduced
  | introduced =>
    obtain ⟨-, hlt⟩ | ⟨rfl, -⟩ :=
      Pair.quiet_step (x.offeringSender_quiet files) x.waitingReceiver_quiet rfl hok he
    · exact absurd hlt (Nat.lt_irrefl 2)
    · exact Or.inr (Option.some.inj (x.step_introduced.symm.trans he)).symm

/-- The opening does not get stuck. -/
theorem Opening.progress {p : Pair X} (h : x.Opening files p) :
    ∃ e p', Pair.Smooth p e ∧ Pair.step M p e = some p' := by
  cases h with
  | started => exact ⟨.toSender, _, trivial, x.step_started hJ hM.connected⟩
  | answered => exact ⟨.toReceiver, _, trivial, x.step_answered hJ hM.connected⟩
  | agreed => exact ⟨.toSender, _, trivial, x.step_agreed hM.connected hM.offer⟩
  | offered => exact ⟨.toReceiver, _, trivial, x.step_offered⟩
  | introduced => exact ⟨.toReceiver, _, trivial, x.step_introduced⟩

end Stages
end Exchange
end Croc
