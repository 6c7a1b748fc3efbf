import Croc.Session.Runs
import Croc.Session.Sent

/-! A sender and a receiver on one control connection and one data connection. -/
namespace Croc
open Lib

/-- The two ends. `toSender` and `toReceiver` count the messages that have been delivered, and
`inFlight` holds the frames on the data connection. -/
structure Pair (X : External) where
  sender : Session X
  receiver : Session X
  toSender : ℕ
  toReceiver : ℕ
  inFlight : List DataFrame

/-- What both ends are given, and what surrounds them. The list of files is no longer than a `Vec`
can be. -/
structure Meeting where
  sender : Setup
  receiver : Setup
  senderWorld : World
  receiverWorld : World
  isSender : sender.isSender = true
  isReceiver : receiver.isSender = false
  fits : ∀ files ∈ sender.files, ∀ list ∈ files.filesToTransfare, list.length < 2 ^ 63

/-- Two ends in calm surroundings, on one file system. -/
def Meeting.calm (os : Os) (sender receiver : Setup) (hs : sender.isSender = true)
    (hr : receiver.isSender = false)
    (hf : ∀ files ∈ sender.files, ∀ list ∈ files.filesToTransfare, list.length < 2 ^ 63) :
    Meeting where
  sender := sender
  receiver := receiver
  senderWorld := .calm os
  receiverWorld := .calm os
  isSender := hs
  isReceiver := hr
  fits := hf

namespace Pair
open Session
variable {X : External}

/-- Events of a pair: steps of the tasks of an end, the next message for an end, a failing
connection, and what the data connection does. -/
inductive Event where
  | sender (t : Task)
  | receiver (t : Task)
  | toSender
  | toReceiver
  | senderRecvFailed (e : Error)
  | receiverRecvFailed (e : Error)
  /-- Any of the frames arrives next. -/
  | deliver (k : ℕ)
  | lose (k : ℕ)
  /-- The relay writes a keepalive frame to the receiver's data connection. -/
  | keepalive
  | dataClosed
  deriving DecidableEq

def keepaliveFrame : DataFrame := ⟨[1], none⟩

def init (X : External) (M : Meeting) : Pair X where
  sender := Session.init X M.senderWorld M.sender
  receiver := Session.init X M.receiverWorld M.receiver
  toSender := 0
  toReceiver := 0
  inFlight := []

def stepSender (M : Meeting) (p : Pair X) (e : Session.Event) : Option (Session X) :=
  Session.step M.senderWorld M.sender p.sender e

def stepReceiver (M : Meeting) (p : Pair X) (e : Session.Event) : Option (Session X) :=
  Session.step M.receiverWorld M.receiver p.receiver e

def step (M : Meeting) (p : Pair X) : Event → Option (Pair X)
  | .sender t => (p.stepSender M (.task t)).map fun s =>
      { p with sender := s, inFlight := p.inFlight ++ s.dataSent.drop p.sender.dataSent.length }
  | .receiver t => (p.stepReceiver M (.task t)).map fun r => { p with receiver := r }
  | .toSender => (p.receiver.sent[p.toSender]?).bind fun m =>
      (p.stepSender M (.message m)).map fun s =>
        { p with sender := s, toSender := p.toSender + 1 }
  | .toReceiver => (p.sender.sent[p.toReceiver]?).bind fun m =>
      (p.stepReceiver M (.message m)).map fun r =>
        { p with receiver := r, toReceiver := p.toReceiver + 1 }
  | .senderRecvFailed e => (p.stepSender M (.recvFailed e)).map fun s => { p with sender := s }
  | .receiverRecvFailed e =>
      (p.stepReceiver M (.recvFailed e)).map fun r => { p with receiver := r }
  | .deliver k => (p.inFlight[k]?).bind fun frame =>
      (p.stepReceiver M (.chunk frame)).map fun r =>
        { p with receiver := r, inFlight := p.inFlight.eraseIdx k }
  | .lose k => (p.inFlight[k]?).map fun _ => { p with inFlight := p.inFlight.eraseIdx k }
  | .keepalive =>
      (p.stepReceiver M (.chunk keepaliveFrame)).map fun r => { p with receiver := r }
  | .dataClosed => (p.stepReceiver M .dataClosed).map fun r => { p with receiver := r }

def machine (X : External) (M : Meeting) : Machine (Pair X) Event where
  init := init X M
  step := step M

/-- Waiting for a message, or over. -/
def Idle (p : Phase) : Prop := p = .recv ∨ ∃ r, p = .ended r

/-- What holds between two ends however their messages and frames travel. -/
structure Coupled (M : Meeting) (p : Pair X) : Prop where
  freshSender : p.toSender = 0 →
    p.sender.state = .keyExchange ∧ p.sender.sent = [] ∧ Idle p.sender.phase
  freshReceiver : p.toReceiver = 0 → p.receiver.state = .keyExchange ∧ Idle p.receiver.phase
  senderKey : ∀ m ∈ p.sender.sent.tail, ∀ msg, m ≠ .pake msg
  receiverKey : ∀ m ∈ p.receiver.sent.tail, ∀ msg, m ≠ .pake msg
  offers : ∀ files, .filesInfo files ∈ p.sender.sent → M.sender.files = some files
  noOffers : ∀ files, .filesInfo files ∉ p.receiver.sent
  offered : ∀ files, p.receiver.filesToReceive = some files → M.sender.files = some files
  asks : Asks p.receiver
  delivered : p.toSender ≤ p.receiver.sent.length

variable {M : Meeting} {p p' : Pair X}

theorem mem_tail_of_getElem? {l : List Message} {k : ℕ} {m : Message} (h : l[k]? = some m)
    (hk : k ≠ 0) : m ∈ l.tail := by
  obtain ⟨k, rfl⟩ := Nat.exists_eq_succ_of_ne_zero hk
  exact List.mem_of_getElem? (List.getElem?_tail.trans h)

theorem mem_tail_append {l l' : List Message} {m : Message} (h : m ∈ (l ++ l').tail) :
    m ∈ l.tail ∨ m ∈ l' := by
  cases l with
  | nil => exact Or.inr (List.mem_of_mem_tail h)
  | cons a l => exact List.mem_append.mp h

/-- The next message for the sender is in order. -/
theorem Coupled.toSender_inOrder (h : Coupled M p) {m : Message}
    (hm : p.receiver.sent[p.toSender]? = some m) : InOrder M.sender p.sender (.message m) := by
  cases m with
  | pake msg =>
    by_cases h0 : p.toSender = 0
    · exact (h.freshSender h0).1
    · exact (h.receiverKey _ (mem_tail_of_getElem? hm h0) msg rfl).elim
  | filesInfo files => exact (h.noOffers files (List.mem_of_getElem? hm)).elim
  | _ => trivial

/-- The next message for the receiver is in order. -/
theorem Coupled.toReceiver_inOrder (h : Coupled M p) {m : Message}
    (hm : p.sender.sent[p.toReceiver]? = some m) :
    InOrder M.receiver p.receiver (.message m) := by
  cases m with
  | pake msg =>
    by_cases h0 : p.toReceiver = 0
    · exact (h.freshReceiver h0).1
    · exact (h.senderKey _ (mem_tail_of_getElem? hm h0) msg rfl).elim
  | filesInfo files => exact M.isReceiver
  | _ => trivial

/-- Before a first message, the tasks of an end do not change what it waits for. -/
theorem idle_step {W : World} {c : Setup} {s t : Session X} (hst : s.state = .keyExchange)
    (hidle : Idle s.phase) {e : Session.Event} (he : Session.step W c s e = some t)
    (hmsg : ∀ m, e ≠ .message m) : t.state = .keyExchange ∧ t.sent = s.sent ∧ Idle t.phase := by
  rcases step_cases he with ⟨m, rfl, -⟩ | ⟨err, rfl, -, rfl⟩ |
    ⟨frame, index, loc, total, got, rfl, hp, -⟩ | ⟨rfl, rfl⟩ | ⟨x, rfl, hx, -⟩ |
    ⟨t', rfl, ht, he⟩
  · exact absurd rfl (hmsg m)
  · exact ⟨hst, rfl, Or.inr ⟨_, rfl⟩⟩
  · rcases hidle with h | ⟨r, h⟩ <;> simp [hp] at h
  · exact ⟨hst, rfl, hidle⟩
  · rcases hidle with h | ⟨r, h⟩ <;> simp [proceed, h] at hx
  · obtain ⟨readers, encrypting, dataSent, writers, written, disk, rfl⟩ := stepTask_background ht he
    exact ⟨hst, rfl, hidle⟩

/-- A key message is answered by one message. -/
theorem onPake_sent {W : World} {c : Setup} {s t : Session X} {msg : PakeMessage}
    (he : Session.step W c s (.message (.pake msg)) = some t) :
    t.sent.length ≤ s.sent.length + 1 := by
  obtain ⟨-, rfl⟩ := message_of_step he
  apply run_of_post (I := fun t : Session X => t.sent.length ≤ s.sent.length + 1)
  apply (onPake_spec msg).mono
  · rintro p t ⟨-, key, enc, m, -, -, rfl⟩
    simp
  · rintro h t ⟨-, k, enc, l, rfl | ⟨msg, rfl, -⟩, rfl⟩ <;> simp

/-- A step of the sender keeps the ends coupled. -/
theorem Coupled.sender_step (h : Coupled M p) {e : Session.Event} {s : Session X}
    (he : p.stepSender M e = some s) (hr : p'.receiver = p.receiver)
    (hs : p'.sender = s) (htr : p'.toReceiver = p.toReceiver)
    (hts : (∀ m, e ≠ .message m) ∧ p'.toSender = p.toSender ∨
      ∃ m, e = .message m ∧ p.receiver.sent[p.toSender]? = some m ∧
        p'.toSender = p.toSender + 1) : Coupled M p' := by
  subst hs
  obtain ⟨l, hl, hmay⟩ := (step_logged he).sent
  refine ⟨?_, by rw [htr, hr]; exact h.freshReceiver, ?_, by rw [hr]; exact h.receiverKey, ?_,
    by rw [hr]; exact h.noOffers, by rw [hr]; exact h.offered, by rw [hr]; exact h.asks, ?_⟩
  · intro h0
    rcases hts with ⟨hmsg, hts⟩ | ⟨m, -, -, hts⟩
    · obtain ⟨hst, hsent, hidle⟩ := h.freshSender (hts ▸ h0)
      obtain ⟨hst', hsent', hidle'⟩ := idle_step hst hidle he hmsg
      exact ⟨hst', hsent'.trans hsent, hidle'⟩
    · omega
  · rintro m hm msg rfl
    have hm' := hm
    rw [hl] at hm'
    rcases mem_tail_append hm' with hold | hnew
    · exact h.senderKey _ hold msg rfl
    · obtain ⟨-, msg', rfl⟩ := hmay _ hnew
      obtain ⟨hno, -⟩ | ⟨m, hm, hget, -⟩ := hts
      · exact hno _ rfl
      · obtain rfl := Session.Event.message.inj hm
        have h0 : p.toSender = 0 := by
          by_contra h0
          exact h.receiverKey _ (mem_tail_of_getElem? hget h0) msg' rfl
        have hlen := onPake_sent he
        have htail := List.length_pos_of_mem ‹Message.pake msg ∈ p'.sender.sent.tail›
        rw [(h.freshSender h0).2.1] at hlen
        rw [List.length_tail] at htail
        simp only [List.length_nil] at hlen
        omega
  · intro files hf
    rw [hl] at hf
    rcases List.mem_append.mp hf with hf | hf
    · exact h.offers files hf
    · exact (hmay _ hf).2
  · rw [hr]
    rcases hts with ⟨-, hts⟩ | ⟨m, -, hm, hts⟩
    · rw [hts]
      exact h.delivered
    · obtain ⟨hlt, -⟩ := List.getElem?_eq_some_iff.mp hm
      omega

/-- A step of the receiver keeps the ends coupled. -/
theorem Coupled.receiver_step (h : Coupled M p) {e : Session.Event} {r : Session X}
    (he : p.stepReceiver M e = some r) (hs : p'.sender = p.sender)
    (hr : p'.receiver = r) (hts : p'.toSender = p.toSender)
    (htr : (∀ m, e ≠ .message m) ∧ p'.toReceiver = p.toReceiver ∨
      ∃ m, e = .message m ∧ p.sender.sent[p.toReceiver]? = some m ∧
        p'.toReceiver = p.toReceiver + 1) : Coupled M p' := by
  subst hr
  have hlog := step_logged he
  obtain ⟨l, hl, hmay⟩ := hlog.sent
  have hrecv : M.receiver.isSender = false := M.isReceiver
  refine ⟨by rw [hts, hs]; exact h.freshSender, ?_, by rw [hs]; exact h.senderKey, ?_,
    by rw [hs]; exact h.offers, ?_, ?_, ?_, ?_⟩
  · intro h0
    rcases htr with ⟨hmsg, htr⟩ | ⟨m, -, -, htr⟩
    · obtain ⟨hst, hidle⟩ := h.freshReceiver (htr ▸ h0)
      obtain ⟨hst', -, hidle'⟩ := idle_step hst hidle he hmsg
      exact ⟨hst', hidle'⟩
    · omega
  · rintro m hm msg rfl
    rw [hl] at hm
    rcases mem_tail_append hm with hold | hnew
    · exact h.receiverKey _ hold msg rfl
    · have := (hmay _ hnew).1
      simp [hrecv] at this
  · intro files hf
    rw [hl] at hf
    rcases List.mem_append.mp hf with hf | hf
    · exact h.noOffers files hf
    · have := (hmay _ hf).1
      simp [hrecv] at this
  · intro files hf
    rcases hlog.files with hsame | ⟨files', hmsg, hnew⟩
    · exact h.offered files (hsame ▸ hf)
    · rcases htr with ⟨hno, -⟩ | ⟨m, hm, hget, -⟩
      · exact absurd hmsg (hno _)
      · obtain rfl : files' = files := Option.some.inj (hnew.symm.trans hf)
        rw [hmsg] at hm
        obtain rfl := Session.Event.message.inj hm
        exact h.offers _ (List.mem_of_getElem? hget)
  · refine step_asks hrecv h.asks ?_ he
    rcases htr with ⟨hno, -⟩ | ⟨m, rfl, hget, -⟩
    · cases e with
      | message m => exact absurd rfl (hno m)
      | _ => trivial
    · exact h.toReceiver_inOrder hget
  · rw [hts, hl, List.length_append]
    have := h.delivered
    omega

/-- Everything that happens to a pair, as a step of one of its ends or a lost frame. -/
theorem step_ends {e : Event} (he : step M p e = some p') :
    (∃ e' s, p.stepSender M e' = some s ∧ p'.sender = s ∧ p'.receiver = p.receiver ∧
      p'.toReceiver = p.toReceiver ∧ ((∀ m, e' ≠ .message m) ∧ p'.toSender = p.toSender ∨
        ∃ m, e' = .message m ∧ p.receiver.sent[p.toSender]? = some m ∧
          p'.toSender = p.toSender + 1)) ∨
    (∃ e' r, p.stepReceiver M e' = some r ∧ p'.receiver = r ∧ p'.sender = p.sender ∧
      p'.toSender = p.toSender ∧ ((∀ m, e' ≠ .message m) ∧ p'.toReceiver = p.toReceiver ∨
        ∃ m, e' = .message m ∧ p.sender.sent[p.toReceiver]? = some m ∧
          p'.toReceiver = p.toReceiver + 1)) ∨
    (p'.sender = p.sender ∧ p'.receiver = p.receiver ∧ p'.toSender = p.toSender ∧
      p'.toReceiver = p.toReceiver) := by
  cases e with
  | sender t =>
    obtain ⟨s, hs, rfl⟩ := Option.map_eq_some_iff.mp he
    exact Or.inl ⟨_, s, hs, rfl, rfl, rfl, Or.inl ⟨by simp, rfl⟩⟩
  | receiver t =>
    obtain ⟨r, hr, rfl⟩ := Option.map_eq_some_iff.mp he
    exact Or.inr (Or.inl ⟨_, r, hr, rfl, rfl, rfl, Or.inl ⟨by simp, rfl⟩⟩)
  | toSender =>
    obtain ⟨m, hm, he⟩ := Option.bind_eq_some_iff.mp he
    obtain ⟨s, hs, rfl⟩ := Option.map_eq_some_iff.mp he
    exact Or.inl ⟨_, s, hs, rfl, rfl, rfl, Or.inr ⟨m, rfl, hm, rfl⟩⟩
  | toReceiver =>
    obtain ⟨m, hm, he⟩ := Option.bind_eq_some_iff.mp he
    obtain ⟨r, hr, rfl⟩ := Option.map_eq_some_iff.mp he
    exact Or.inr (Or.inl ⟨_, r, hr, rfl, rfl, rfl, Or.inr ⟨m, rfl, hm, rfl⟩⟩)
  | senderRecvFailed err =>
    obtain ⟨s, hs, rfl⟩ := Option.map_eq_some_iff.mp he
    exact Or.inl ⟨_, s, hs, rfl, rfl, rfl, Or.inl ⟨by simp, rfl⟩⟩
  | receiverRecvFailed err =>
    obtain ⟨r, hr, rfl⟩ := Option.map_eq_some_iff.mp he
    exact Or.inr (Or.inl ⟨_, r, hr, rfl, rfl, rfl, Or.inl ⟨by simp, rfl⟩⟩)
  | deliver k =>
    obtain ⟨frame, -, he⟩ := Option.bind_eq_some_iff.mp he
    obtain ⟨r, hr, rfl⟩ := Option.map_eq_some_iff.mp he
    exact Or.inr (Or.inl ⟨_, r, hr, rfl, rfl, rfl, Or.inl ⟨by simp, rfl⟩⟩)
  | lose k =>
    obtain ⟨frame, -, rfl⟩ := Option.map_eq_some_iff.mp he
    exact Or.inr (Or.inr ⟨rfl, rfl, rfl, rfl⟩)
  | keepalive =>
    obtain ⟨r, hr, rfl⟩ := Option.map_eq_some_iff.mp he
    exact Or.inr (Or.inl ⟨_, r, hr, rfl, rfl, rfl, Or.inl ⟨by simp, rfl⟩⟩)
  | dataClosed =>
    obtain rfl := Option.some.inj he
    exact Or.inr (Or.inl ⟨.dataClosed, _, rfl, rfl, rfl, rfl, Or.inl ⟨by simp, rfl⟩⟩)

theorem Coupled.step (h : Coupled M p) {e : Event} (he : Pair.step M p e = some p') :
    Coupled M p' := by
  rcases step_ends he with ⟨e', s, hs, hps, hpr, htr, hts⟩ | ⟨e', r, hr, hpr, hps, hts, htr⟩ |
    ⟨hps, hpr, hts, htr⟩
  · exact h.sender_step hs hpr hps htr hts
  · exact h.receiver_step hr hps hpr hts htr
  · obtain ⟨h₁, h₂, h₃, h₄, h₅, h₆, h₇, h₈, h₉⟩ := h
    rw [← hps, ← hts] at h₁
    rw [← hpr, ← htr] at h₂
    rw [← hps] at h₃ h₅
    rw [← hpr] at h₄ h₆ h₇ h₈ h₉
    rw [← hts] at h₉
    exact ⟨h₁, h₂, h₃, h₄, h₅, h₆, h₇, h₈, h₉⟩

theorem sender_init {W : World} {c : Setup} (hs : c.isSender = true) :
    (Session.init X W c).state = .keyExchange ∧ (Session.init X W c).sent = [] ∧
      Idle (Session.init X W c).phase := by
  apply run_of_post (I := fun t : Session X =>
    t.state = .keyExchange ∧ t.sent = [] ∧ Idle t.phase)
  apply start_spec.mono
  · rintro p t ⟨rfl, ⟨-, rfl⟩ | ⟨hr, -⟩⟩
    · exact ⟨rfl, rfl, Or.inl rfl⟩
    · simp [hs] at hr
  · rintro h t ⟨-, k, rfl⟩
    exact ⟨rfl, rfl, Or.inr ⟨_, rfl⟩⟩

theorem receiver_init {W : World} {c : Setup} (hs : c.isSender = false) :
    (Session.init X W c).state = .keyExchange ∧ Idle (Session.init X W c).phase ∧
      (Session.init X W c).filesToReceive = none ∧
      ((Session.init X W c).sent = [] ∨ ∃ msg, (Session.init X W c).sent = [.pake msg]) := by
  apply run_of_post (I := fun t : Session X => t.state = .keyExchange ∧ Idle t.phase ∧
    t.filesToReceive = none ∧ (t.sent = [] ∨ ∃ msg, t.sent = [.pake msg]))
  apply start_spec.mono
  · rintro p t ⟨rfl, ⟨hr, -⟩ | ⟨-, key, msg, rfl⟩⟩
    · simp [hs] at hr
    · exact ⟨rfl, Or.inl rfl, rfl, Or.inr ⟨msg, rfl⟩⟩
  · rintro h t ⟨-, k, rfl⟩
    exact ⟨rfl, Or.inr ⟨_, rfl⟩, rfl, Or.inl rfl⟩

/-- At first nothing has been requested. -/
theorem requests_receiver_init {W : World} {c : Setup} (hs : c.isSender = false) :
    requests (Session.init X W c).sent = [] := by
  obtain ⟨-, -, -, hsent | ⟨msg, hsent⟩⟩ := receiver_init (X := X) (W := W) hs
  · rw [hsent]
    rfl
  · rw [hsent]
    rfl

theorem coupled_init : Coupled M (init X M) := by
  have hs := sender_init (X := X) (W := M.senderWorld) M.isSender
  obtain ⟨hst, hidle, hfiles, hsent⟩ :=
    receiver_init (X := X) (W := M.receiverWorld) M.isReceiver
  have htail : ∀ m, m ∉ (Session.init X M.receiverWorld M.receiver).sent.tail := by
    rcases hsent with hsent | ⟨msg, hsent⟩ <;> simp [hsent]
  have hpake : ∀ m ∈ (Session.init X M.receiverWorld M.receiver).sent, ∃ msg, m = .pake msg := by
    rcases hsent with hsent | ⟨msg, hsent⟩ <;> simp [hsent]
  refine ⟨fun _ => hs, fun _ => ⟨hst, hidle⟩, ?_, ?_, ?_, ?_, ?_, ?_, Nat.zero_le _⟩
  · intro m hm
    simp [init, hs.2.1] at hm
  · exact fun m hm => (htail m hm).elim
  · intro files hf
    simp [init, hs.2.1] at hf
  · intro files hf
    obtain ⟨msg, hmsg⟩ := hpake _ hf
    cases hmsg
  · intro files hf
    simp [init, hfiles] at hf
  · refine ⟨0, ⟨requests_receiver_init M.isReceiver, Or.inl rfl⟩, ?_⟩
    rcases hidle with hp | ⟨r, hp⟩
    · simp [init, hp, AskedIn]
    · simp [init, hp, AskedIn]

theorem reachable_coupled {ok : Pair X → Event → Prop} (h : (machine X M).ReachableBy ok p) :
    Coupled M p :=
  h.invariant (P := Coupled M) coupled_init fun _ _ _ _ h _ he => h.step he

end Pair
end Croc
