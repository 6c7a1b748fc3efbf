import Croc.Session.Process

/-! What each part of `process_client` leaves behind. -/
namespace Croc
open Lib
namespace Session
variable {X : External} {W : World} {c : Setup} {s : Session X}

section Primitives
variable {E : Halt → Session X → Prop}

@[simp] theorem post_send {m : Message} {Q : Unit → Session X → Prop} :
    Post (send W m) s Q E ↔
      (W.sendError s.sent.length = none → Q () { s with sent := s.sent ++ [m] }) ∧
        ∀ e, W.sendError s.sent.length = some e → E (.err e) s := by
  simp only [send, post_bind, post_get]
  cases W.sendError s.sent.length <;> simp

@[simp] theorem post_osCall {Q : ℕ → Session X → Prop} :
    Post (osCall : Proc X ℕ) s Q E ↔ Q s.calls { s with calls := s.calls + 1 } := by
  simp [osCall]

@[simp] theorem post_osTry {ok : ℕ → Bool} {Q : Unit → Session X → Prop} :
    Post (osTry ok : Proc X Unit) s Q E ↔
      (ok s.calls = true → Q () { s with calls := s.calls + 1 }) ∧
        (ok s.calls = false → E (.err .io) { s with calls := s.calls + 1 }) := by
  simp only [osTry, post_bind, post_osCall]
  cases ok s.calls <;> simp

@[simp] theorem post_ask {e : Error} {question : Prompt} {Q : Bool → Session X → Prop} :
    Post (ask W e question : Proc X Bool) s Q E ↔
      (∀ yes, W.confirm s.prompts.length = some yes →
        Q yes { s with prompts := s.prompts ++ [question] }) ∧
      (W.confirm s.prompts.length = none →
        E (.err e) { s with prompts := s.prompts ++ [question] }) := by
  simp only [ask, post_bind, post_get, post_modify, post_lift, orErr_eq_ok, orErr_eq_error]
  cases W.confirm s.prompts.length <;> simp

end Primitives

theorem secretTail_error {h : Halt} (hc : c.secretTail = .error h) : h = .panic .secretSlice := by
  simp only [Setup.secretTail] at hc
  split at hc
  · simp at hc
  · exact (Except.error.inj hc).symm

section KeyExchange

/-- A key that came out of an update. -/
def Updated (key : X.Pake) : Prop := ∃ p q, X.update p q = .ok key

/-- The key in the message makes the update of a sender panic. -/
def AnswerPanics (W : World) (c : Setup) (s : Session X) (msg : PakeMessage) : Prop :=
  msg.bytes2 = asBytes "siec" ∧ ∃ pw text q, c.secretTail = .ok pw ∧
    fromUtf8 msg.bytes = some text ∧ X.keyFromJson text = some q ∧
    X.update (X.newPake .reciever (some pw) (W.seed s.sent.length)) q = .error .panic

/-- The key in the message makes the update of a receiver panic. -/
def TakePanics (s : Session X) (msg : PakeMessage) : Prop :=
  ∃ key q, s.key = some key ∧ X.keyFromSlice msg.bytes = some q ∧ X.update key q = .error .panic

def UpdatePanics (W : World) (c : Setup) (s : Session X) (msg : PakeMessage) : Prop :=
  if c.isSender then AnswerPanics W c s msg else TakePanics s msg

/-- The ways in which the key exchange ends a session; `panics` is when the update does. -/
def KeyFailure (X : External) (c : Setup) (panics : Prop) (h : Halt) : Prop :=
  (∃ e, h = .err e) ∨ (h = .panic .secretSlice ∧ c.secretTail = .error h) ∨
    (h = .panic .keyUnwrap ∧ ∃ key, Updated (X := X) key ∧ X.pakeKey key = none) ∨
    (h = .panic .pakeUpdate ∧ panics)

theorem answerKey_spec (msg : PakeMessage) :
    Post (answerKey W c msg) s
      (fun salt t => ∃ key, Updated key ∧
        t = { s with key := some key, sent := s.sent ++ [pakeMessage key salt.toList] })
      (fun h t => KeyFailure X c (AnswerPanics W c s msg) h ∧ ∃ k, t = { s with key := k }) := by
  simp only [answerKey, post_bind, post_get, post_lift, post_modify, post_send, post_ite,
    post_pure, post_throw, orErr_eq_ok, orErr_eq_error, orPake_eq_ok, orPake_eq_error]
  refine ⟨fun _ => ⟨Or.inl ⟨_, rfl⟩, s.key, rfl⟩, fun hcurve => ⟨fun pw hpw => ⟨fun text htext =>
    ⟨fun q hq => ⟨fun key hkey => ⟨fun _ => ⟨key, ⟨_, _, hkey⟩, rfl⟩,
      fun e _ => ?_⟩, ?_⟩, ?_⟩, ?_⟩, ?_⟩⟩
  · exact ⟨Or.inl ⟨e, rfl⟩, some key, rfl⟩
  · rintro _ ⟨f, hf, rfl⟩
    rcases f.halt_cases with he | ⟨rfl, hhalt⟩
    · exact ⟨Or.inl he, s.key, rfl⟩
    · have hpanics : AnswerPanics W c s msg :=
        ⟨not_not.mp hcurve, pw, text, q, hpw, htext, hq, hf⟩
      exact ⟨Or.inr (Or.inr (Or.inr ⟨hhalt, hpanics⟩)), s.key, rfl⟩
  · exact fun e he => ⟨Or.inl ⟨_, he.2⟩, s.key, rfl⟩
  · exact fun e he => ⟨Or.inl ⟨_, he.2⟩, s.key, rfl⟩
  · exact fun e he => ⟨Or.inr (Or.inl ⟨secretTail_error he, he⟩), s.key, rfl⟩

theorem takeKey_spec (msg : PakeMessage) :
    Post (takeKey (X := X) msg) s
      (fun _ t => ∃ key, Updated key ∧ t = { s with key := some key })
      (fun h t => ((∃ e, h = .err e) ∨ (h = .panic .pakeUpdate ∧ TakePanics s msg)) ∧
        ∃ k, t = { s with key := k }) := by
  simp only [takeKey, post_bind, post_get]
  cases hk : s.key with
  | none => exact ⟨Or.inl ⟨_, rfl⟩, s.key, rfl⟩
  | some old =>
    simp only [post_bind, post_lift, post_modify, orErr_eq_ok, orErr_eq_error, orPake_eq_ok,
      orPake_eq_error]
    refine ⟨fun q hq => ⟨fun key hkey => ⟨fun _ _ => ⟨key, ⟨_, _, hkey⟩, rfl⟩, ?_⟩, ?_⟩, ?_⟩
    · exact fun e he => ⟨Or.inl ⟨_, he.2⟩, some key, rfl⟩
    · rintro _ ⟨f, hf, rfl⟩
      rcases f.halt_cases with he | ⟨rfl, hhalt⟩
      · exact ⟨Or.inl he, s.key, rfl⟩
      · exact ⟨Or.inr ⟨hhalt, old, q, hk, hq, hf⟩, s.key, rfl⟩
    · exact fun e he => ⟨Or.inl ⟨_, he.2⟩, s.key, rfl⟩

/-- The message that an end sends when it completes the key exchange. -/
def KeyReply (c : Setup) (m : Message) : Prop :=
  (c.isSender = true ∧ ∃ msg, m = .pake msg) ∨
    (c.isSender = false ∧ m = .externalIP ⟨c.externalIp⟩)

theorem sessionKey_cases (X : External) (s : Session X) :
    (∃ k, sessionKey s = .ok k) ∨
      (sessionKey s = .error (.panic .keyUnwrap) ∧ s.key.bind X.pakeKey = none) := by
  unfold sessionKey
  cases h : s.key.bind X.pakeKey with
  | some k => exact Or.inl ⟨k, rfl⟩
  | none => exact Or.inr ⟨rfl, rfl⟩

theorem agreeKey_spec (msg : PakeMessage) :
    Post (agreeKey W c msg) s
      (fun _ t => ∃ key l, Updated key ∧ t = { s with key := some key, sent := s.sent ++ l } ∧
        ((c.isSender = true ∧ ∃ msg, l = [.pake msg]) ∨ (c.isSender = false ∧ l = [])))
      (fun h t => KeyFailure X c (UpdatePanics W c s msg) h ∧ ∃ k, t = { s with key := k }) := by
  rw [agreeKey, post_ite]
  constructor
  · intro hs
    rw [UpdatePanics, if_pos hs]
    apply (answerKey_spec msg).mono _ fun _ _ h => h
    rintro salt t ⟨key, hkey, rfl⟩
    exact ⟨key, _, hkey, rfl, Or.inl ⟨hs, _, rfl⟩⟩
  · intro hs
    rw [UpdatePanics, if_neg hs]
    apply (takeKey_spec msg).mono
    · rintro salt t ⟨key, hkey, rfl⟩
      exact ⟨key, [], hkey, by rw [List.append_nil], Or.inr ⟨by simpa using hs, rfl⟩⟩
    · exact fun h t ⟨he, hk⟩ => ⟨he.imp_right fun hp => Or.inr (Or.inr hp), hk⟩

theorem enterSession_spec (salt : Block 8) :
    Post (enterSession W c salt) s
      (fun _ t => ∃ enc l, (c.isSender = true ∧ l = [] ∨
          c.isSender = false ∧ l = [.externalIP ⟨c.externalIp⟩]) ∧
        t = { s with encryptedSession := some enc, state := .ipExchange, sent := s.sent ++ l })
      (fun h t => ((∃ e, h = .err e) ∨ (h = .panic .keyUnwrap ∧ s.key.bind X.pakeKey = none)) ∧
        ∃ enc, t = { s with encryptedSession := enc }) := by
  simp only [enterSession, post_bind, post_get, post_lift, post_modify, post_ite, post_send]
  constructor
  · intro k _
    constructor
    · intro hs
      exact ⟨_, [], Or.inl ⟨hs, rfl⟩, by rw [List.append_nil]⟩
    · intro hs
      refine ⟨fun _ => ⟨_, _, Or.inr ⟨by simpa using hs, rfl⟩, rfl⟩, fun e _ => ?_⟩
      exact ⟨Or.inl ⟨e, rfl⟩, _, rfl⟩
  · intro h hh
    rcases sessionKey_cases X s with ⟨k, hk⟩ | ⟨hk, hn⟩
    · simp [hk] at hh
    · obtain rfl : Halt.panic .keyUnwrap = h := by simpa [hk] using hh
      exact ⟨Or.inr ⟨rfl, hn⟩, s.encryptedSession, rfl⟩

theorem processKeyExchange_spec (msg : PakeMessage) :
    Post (processKeyExchange W c msg) s
      (fun _ t => ∃ key enc m, Updated key ∧ KeyReply c m ∧
        t = { s with key := some key, encryptedSession := some enc, state := .ipExchange
                     sent := s.sent ++ [m] })
      (fun h t => KeyFailure X c (UpdatePanics W c s msg) h ∧ ∃ k enc l,
        (l = [] ∨ ∃ msg, l = [.pake msg] ∧ c.isSender = true) ∧
        t = { s with key := k, encryptedSession := enc, sent := s.sent ++ l }) := by
  unfold processKeyExchange
  rw [post_bind]
  apply (agreeKey_spec msg).mono
  · rintro salt t ⟨key, l, hkey, rfl, hl⟩
    apply (enterSession_spec salt).mono
    · rintro _ t ⟨enc, l', hl', rfl⟩
      rcases hl with ⟨hs, msg, rfl⟩ | ⟨hs, rfl⟩ <;> rcases hl' with ⟨hs', rfl⟩ | ⟨hs', rfl⟩
      · exact ⟨key, enc, _, hkey, Or.inl ⟨hs, msg, rfl⟩, by simp only [List.append_nil]⟩
      · simp [hs] at hs'
      · simp [hs] at hs'
      · exact ⟨key, enc, _, hkey, Or.inr ⟨hs, rfl⟩, by simp only [List.append_nil]⟩
    · rintro h t ⟨hh, enc, rfl⟩
      constructor
      · rcases hh with he | ⟨rfl, hn⟩
        · exact Or.inl he
        · exact Or.inr (Or.inr (Or.inl ⟨rfl, key, hkey, hn⟩))
      · rcases hl with ⟨hs, msg, rfl⟩ | ⟨-, rfl⟩
        · exact ⟨some key, enc, _, Or.inr ⟨msg, rfl, hs⟩, rfl⟩
        · exact ⟨some key, enc, _, Or.inl rfl, rfl⟩
  · rintro h t ⟨hh, k, rfl⟩
    exact ⟨hh, k, s.encryptedSession, [], Or.inl rfl, by simp only [List.append_nil]⟩

end KeyExchange

section Rounds

theorem afterMessage_spec :
    Post (afterMessage W c) s
      (fun p t =>
        (p = .recv ∧ t = s ∧ (c.isSender = true → s.state ≠ .fileInfoTransfare) ∧
          (c.isSender = false → s.state ≠ .fileTransfare)) ∨
        (p = .recv ∧ c.isSender = true ∧ s.state = .fileInfoTransfare ∧ ∃ files,
          c.files = some files ∧
          t = { s with state := .fileTransfare, sent := s.sent ++ [.filesInfo files] }) ∨
        (p = .nextFile 0 ∧ c.isSender = false ∧ s.state = .fileTransfare ∧
          (∃ list, s.toReceive = some list) ∧ t = { s with dests := [] }))
      (fun h t => t = s ∧
        ((c.isSender = true ∧ s.state = .fileInfoTransfare ∧
            ((∃ e, h = .err e) ∨ (h = .panic .filesUnwrap ∧ c.files = none))) ∨
          (c.isSender = false ∧ s.state = .fileTransfare ∧ h = .panic .receiveUnwrap ∧
            s.toReceive = none))) := by
  unfold afterMessage
  simp only [post_bind, post_get, post_ite]
  constructor
  · intro hs
    constructor
    · intro hst
      cases hf : c.files with
      | none => exact ⟨rfl, Or.inl ⟨hs, hst, Or.inr ⟨rfl, rfl⟩⟩⟩
      | some files =>
        rw [post_bind, post_send]
        refine ⟨fun _ => Or.inr (Or.inl ⟨rfl, hs, hst, files, rfl, rfl⟩), fun e _ => ?_⟩
        exact ⟨rfl, Or.inl ⟨hs, hst, Or.inl ⟨e, rfl⟩⟩⟩
    · intro hst
      exact Or.inl ⟨rfl, rfl, fun _ => hst, fun h => by simp [hs] at h⟩
  · intro hs
    have hs : c.isSender = false := by simpa using hs
    constructor
    · intro hst
      cases hf : s.toReceive with
      | none => exact ⟨rfl, Or.inr ⟨hs, hst, rfl, rfl⟩⟩
      | some list => exact Or.inr (Or.inr ⟨rfl, hs, hst, ⟨list, rfl⟩, rfl⟩)
    · intro hst
      exact Or.inl ⟨rfl, rfl, fun h => by simp [hs] at h, fun _ => hst⟩

/-- Away from the two states it acts in, the end of a round does nothing. -/
theorem afterMessage_quiet (hS : c.isSender = true → s.state ≠ .fileInfoTransfare)
    (hR : c.isSender = false → s.state ≠ .fileTransfare) :
    Post (afterMessage W c) s (fun p t => p = .recv ∧ t = s) (fun _ _ => False) := by
  apply afterMessage_spec.mono
  · rintro p t (⟨rfl, rfl, -⟩ | ⟨-, hs, hst, -⟩ | ⟨-, hs, hst, -⟩)
    · exact ⟨rfl, rfl⟩
    · exact absurd hst (hS hs)
    · exact absurd hst (hR hs)
  · rintro h t ⟨-, ⟨hs, hst, -⟩ | ⟨hs, hst, -⟩⟩
    · exact hS hs hst
    · exact hR hs hst

theorem onPake_spec (msg : PakeMessage) :
    Post (onMessage W c (.pake msg)) s
      (fun p t => p = .recv ∧ ∃ key enc m, Updated key ∧ KeyReply c m ∧
        t = { s with key := some key, encryptedSession := some enc, state := .ipExchange
                     sent := s.sent ++ [m], rw := some ⟨s.readers.length, enc⟩
                     readers := s.readers ++ [⟨enc, [], false⟩] })
      (fun h t => KeyFailure X c (UpdatePanics W c s msg) h ∧ ∃ k enc l,
        (l = [] ∨ ∃ msg, l = [.pake msg] ∧ c.isSender = true) ∧
        t = { s with key := k, encryptedSession := enc, sent := s.sent ++ l }) := by
  unfold onMessage
  rw [post_bind]
  apply (processKeyExchange_spec msg).mono _ fun _ _ h => h
  rintro _ t ⟨key, enc, m, hkey, hm, rfl⟩
  rw [post_bind]
  apply (afterMessage_quiet (by simp) (by simp)).mono _ fun _ _ h => h.elim
  rintro p u ⟨rfl, rfl⟩
  exact ⟨rfl, key, enc, m, hkey, hm, rfl⟩

theorem processIpExchange_spec (msg : ExternalIPMessage) :
    Post (processIpExchange W c msg) s
      (fun _ t => s.state = .ipExchange ∧
        t = { s with peerExternalIp := some msg.externalIp, state := .fileInfoTransfare
                     sent := s.sent ++ (if c.isSender then [.externalIP ⟨c.externalIp⟩] else []) })
      (fun h t => t = s ∧ (∃ e, h = .err e)) := by
  unfold processIpExchange
  simp only [post_bind, post_get, post_ite, post_throw, post_modify, post_send]
  constructor
  · intro hst
    exact ⟨trivial, _, rfl⟩
  · intro hst
    have hst : s.state = .ipExchange := by simpa using hst
    constructor
    · intro hs
      simp [hs, hst]
    · intro hs
      simp [hs, hst]

/-- The address message is accepted in `IpExchange` only, and the sender goes on to offer its
files. -/
theorem onExternalIP_spec (msg : ExternalIPMessage) :
    Post (onMessage W c (.externalIP msg)) s
      (fun p t => p = .recv ∧ s.state = .ipExchange ∧
        ((c.isSender = false ∧
            t = { s with peerExternalIp := some msg.externalIp, state := .fileInfoTransfare }) ∨
          (c.isSender = true ∧ ∃ files, c.files = some files ∧
            t = { s with peerExternalIp := some msg.externalIp, state := .fileTransfare
                         sent := s.sent ++ [.externalIP ⟨c.externalIp⟩, .filesInfo files] })))
      (fun h t => ((∃ e, h = .err e) ∨
          (h = .panic .filesUnwrap ∧ c.isSender = true ∧ c.files = none)) ∧
        ((t = s ∧ ∃ e, h = .err e) ∨ (s.state = .ipExchange ∧ c.isSender = true ∧
          t = { s with peerExternalIp := some msg.externalIp, state := .fileInfoTransfare
                       sent := s.sent ++ [.externalIP ⟨c.externalIp⟩] }))) := by
  unfold onMessage
  rw [post_bind]
  apply (processIpExchange_spec msg).mono
  · rintro _ t ⟨hst, rfl⟩
    apply afterMessage_spec.mono
    · rintro p u (⟨rfl, rfl, hS, -⟩ | ⟨rfl, hs, -, files, hf, rfl⟩ | ⟨-, -, hst', -⟩)
      · have hs : c.isSender = false := by simpa using fun h => hS h rfl
        exact ⟨rfl, hst, Or.inl ⟨hs, by simp [hs]⟩⟩
      · exact ⟨rfl, hst, Or.inr ⟨hs, files, hf, by simp [hs]⟩⟩
      · cases hst'
    · rintro h u ⟨rfl, ⟨hs, -, he⟩ | ⟨-, hst', -⟩⟩
      · constructor
        · exact he.imp_right fun ⟨he, hf⟩ => ⟨he, hs, hf⟩
        · exact Or.inr ⟨hst, hs, by simp [hs]⟩
      · cases hst'
  · rintro h t ⟨rfl, he⟩
    exact ⟨Or.inl he, Or.inl ⟨rfl, he⟩⟩

/-- A call that makes the directory of an entry inside the current one. -/
def MakesFolder (W : World) (files : List FileInfo) (op : FsOp) : Prop :=
  ∃ file ∈ files, ∃ n path, op = .createDir file path ∧
    W.os.canonicalize n file.remoteFolder = some path ∧ W.os.cwd <+: path

/-- What making the empty folders does: it asks, and creates directories inside the current one. -/
def FoldersMade (W : World) (files : List FileInfo) (s t : Session X) : Prop :=
  ∃ n q l, (∀ op ∈ l, MakesFolder W files op) ∧
    t = { s with calls := n, prompts := q, ops := s.ops ++ l }

/-- The ways in which the empty folders end a session. -/
def FolderFailure (W : World) (files : List FileInfo) (h : Halt) : Prop :=
  (∃ e, h = .err e) ∨ (h = .panic .pathUnwrap ∧ ∃ file ∈ files, ∃ n path,
    W.os.canonicalize n file.remoteFolder = some path ∧ ¬ W.os.cwd <+: path ∧ path.text = none)

theorem FoldersMade.refl (files : List FileInfo) (s : Session X) : FoldersMade W files s s :=
  ⟨s.calls, s.prompts, [], by simp, by simp⟩

theorem FoldersMade.trans {files : List FileInfo} {s t u : Session X}
    (h : FoldersMade W files s t) (h' : FoldersMade W files t u) : FoldersMade W files s u := by
  obtain ⟨n, q, l, hl, rfl⟩ := h
  obtain ⟨n', q', l', hl', rfl⟩ := h'
  refine ⟨n', q', l ++ l', fun op hop => ?_, by simp⟩
  rcases List.mem_append.mp hop with hop | hop
  · exact hl op hop
  · exact hl' op hop

theorem createFolder_spec {files : List FileInfo} {file : FileInfo} (hfile : file ∈ files) :
    Post (createFolder W file) s (fun _ t => FoldersMade W files s t)
      (fun h t => FolderFailure W files h ∧ FoldersMade W files s t) := by
  have hquiet : ∀ n q, FoldersMade W files s { s with calls := n, prompts := q } :=
    fun n q => ⟨n, q, [], by simp, by simp⟩
  simp only [createFolder, post_bind, post_osCall, post_lift, post_osTry, post_ite, post_ask,
    post_throw, post_modify, orErr_eq_ok, orErr_eq_error]
  refine ⟨fun path hpath => ⟨fun _ => ⟨fun hout => ?_, fun hin => ?_⟩, fun _ => ?_⟩, ?_⟩
  · cases ht : path.text with
    | some text => exact ⟨Or.inl ⟨_, rfl⟩, hquiet _ _⟩
    | none => exact ⟨Or.inr ⟨rfl, file, hfile, _, path, hpath, hout, ht⟩, hquiet _ _⟩
  · have hin : W.os.cwd <+: path := not_not.mp hin
    have hmade : ∀ n q, FoldersMade W files s
        { s with calls := n, prompts := q, ops := s.ops ++ [.createDir file path] } := by
      refine fun n q => ⟨n, q, [.createDir file path], ?_, rfl⟩
      simp only [List.mem_singleton, forall_eq]
      exact ⟨file, hfile, _, path, rfl, hpath, hin⟩
    refine ⟨fun _ => ⟨fun yes _ => ⟨fun _ => ⟨fun _ => ?_, fun _ => ?_⟩, fun _ => ?_⟩, fun _ => ?_⟩,
      fun _ => ⟨fun _ => ?_, fun _ => ?_⟩⟩
    · exact hmade _ _
    · exact ⟨Or.inl ⟨_, rfl⟩, hmade _ _⟩
    · exact ⟨Or.inl ⟨_, rfl⟩, hquiet _ _⟩
    · exact ⟨Or.inl ⟨_, rfl⟩, hquiet _ _⟩
    · exact hmade _ _
    · exact ⟨Or.inl ⟨_, rfl⟩, hmade _ _⟩
  · exact ⟨Or.inl ⟨_, rfl⟩, hquiet _ _⟩
  · rintro h ⟨-, rfl⟩
    exact ⟨Or.inl ⟨_, rfl⟩, hquiet _ _⟩

theorem createEmptyFolders_spec (files : FilesInformation) :
    Post (createEmptyFolders W files) s
      (fun _ t => FoldersMade W (files.emptyFoldersToTransfare.getD []) s t)
      (fun h t => FolderFailure W (files.emptyFoldersToTransfare.getD []) h ∧
        FoldersMade W (files.emptyFoldersToTransfare.getD []) s t) := by
  apply post_forEach _ (FoldersMade.refl _ s)
  intro file hfile t ht
  apply (createFolder_spec hfile).mono
  · exact fun _ u hu => ht.trans hu
  · exact fun h u ⟨hh, hu⟩ => ⟨hh, ht.trans hu⟩

theorem processFilesInfo_spec (hs : c.isSender = false) (hst : s.state = .fileInfoTransfare)
    (files : FilesInformation) :
    Post (processFilesInfo W c files) s
      (fun _ t => ∃ u, FoldersMade W (files.emptyFoldersToTransfare.getD []) s u ∧
        ((files.filesToTransfare = none ∧ t = { u with
            filesToReceive := some files, state := .fileTransfared,
            sent := s.sent ++ [.finished] }) ∨
          (files.filesToTransfare ≠ none ∧ t = { u with
            filesToReceive := some files, state := .fileTransfare })))
      (fun h t => FolderFailure W (files.emptyFoldersToTransfare.getD []) h ∧
        ∃ u l, FoldersMade W (files.emptyFoldersToTransfare.getD []) s u ∧
          (l = [] ∨ ∃ msg, l = [.typeError msg]) ∧
          t = { u with filesToReceive := some files, sent := s.sent ++ l }) := by
  have hask : ∀ total, FoldersMade W (files.emptyFoldersToTransfare.getD []) s
      { s with prompts := s.prompts ++ [.receive files.totalItems total] } :=
    fun total => ⟨s.calls, _, [], by simp, by simp only [List.append_nil]; rfl⟩
  simp only [processFilesInfo, post_bind, post_get, post_ite, post_lift, post_modify, post_ask,
    post_send, post_throw, orErr_eq_ok, orErr_eq_error]
  refine ⟨fun h => by simp [hs] at h, fun _ => ⟨fun h => absurd hst h, fun _ => ⟨fun total _ =>
    ⟨fun yes _ => ⟨fun _ => ⟨fun _ => ?_, fun e _ => ?_⟩, fun _ => ?_⟩, fun _ => ?_⟩, ?_⟩⟩⟩
  · exact ⟨Or.inl ⟨_, rfl⟩, _, _, hask total, Or.inr ⟨_, rfl⟩, rfl⟩
  · exact ⟨Or.inl ⟨_, rfl⟩, _, [], hask total, Or.inl rfl, by simp only [List.append_nil]⟩
  · apply (createEmptyFolders_spec files).mono
    · rintro _ t ⟨n, q, l, hl, rfl⟩
      refine ⟨fun hnone => ⟨fun _ => ?_, fun e _ => ?_⟩, fun hsome => ?_⟩
      · exact ⟨_, ⟨n, q, l, hl, rfl⟩, Or.inl ⟨by simpa using hnone, rfl⟩⟩
      · refine ⟨Or.inl ⟨_, rfl⟩, _, [], ⟨n, q, l, hl, rfl⟩, Or.inl rfl, ?_⟩
        simp only [List.append_nil]
      · exact ⟨_, ⟨n, q, l, hl, rfl⟩, Or.inr ⟨by simpa using hsome, rfl⟩⟩
    · rintro h t ⟨hh, n, q, l, hl, rfl⟩
      exact ⟨hh, _, [], ⟨n, q, l, hl, rfl⟩, Or.inl rfl, by simp only [List.append_nil]⟩
  · exact ⟨Or.inl ⟨_, rfl⟩, _, [], hask total, Or.inl rfl, by simp only [List.append_nil]⟩
  · rintro h ⟨-, rfl⟩
    refine ⟨Or.inl ⟨_, rfl⟩, s, [], FoldersMade.refl _ s, Or.inl rfl, ?_⟩
    simp only [List.append_nil]

/-- A receiver that is offered files in `FileInfoTransfare` makes the folders and enters its file
loop, or has nothing to wait for. -/
theorem onFilesInfo_spec (hs : c.isSender = false) (hst : s.state = .fileInfoTransfare)
    (files : FilesInformation) :
    Post (onMessage W c (.filesInfo files)) s
      (fun p t => ∃ u, FoldersMade W (files.emptyFoldersToTransfare.getD []) s u ∧
        ((p = .recv ∧ files.filesToTransfare = none ∧ t = { u with
            filesToReceive := some files, state := .fileTransfared,
            sent := s.sent ++ [.finished] }) ∨
          (p = .nextFile 0 ∧ files.filesToTransfare ≠ none ∧ t = { u with
            filesToReceive := some files, state := .fileTransfare, dests := [] })))
      (fun h t => FolderFailure W (files.emptyFoldersToTransfare.getD []) h ∧
        ∃ u l, FoldersMade W (files.emptyFoldersToTransfare.getD []) s u ∧
          (l = [] ∨ ∃ msg, l = [.typeError msg]) ∧
          t = { u with filesToReceive := some files, sent := s.sent ++ l }) := by
  unfold onMessage
  rw [post_bind]
  apply (processFilesInfo_spec hs hst files).mono _ fun _ _ h => h
  rintro _ t ⟨u, hu, ⟨hnone, rfl⟩ | ⟨hsome, rfl⟩⟩
  · apply (afterMessage_quiet (by simp [hs]) (by simp)).mono _ fun _ _ h => h.elim
    rintro p v ⟨rfl, rfl⟩
    exact ⟨u, hu, Or.inl ⟨rfl, hnone, rfl⟩⟩
  · apply afterMessage_spec.mono
    · rintro p v (⟨-, -, -, hR⟩ | ⟨-, hs', -⟩ | ⟨rfl, -, -, -, rfl⟩)
      · exact absurd rfl (hR hs)
      · simp [hs] at hs'
      · exact ⟨u, hu, Or.inr ⟨rfl, hsome, rfl⟩⟩
    · rintro h v ⟨-, ⟨hs', -⟩ | ⟨-, -, -, hnone⟩⟩
      · simp [hs] at hs'
      · exact absurd hnone hsome

/-- The jobs for the file that a request names, planned by its length on the disk. -/
def Requested (W : World) (msg : RemoteFileRequest) (files : FilesInformation) (s : Session X)
    (jobs : List FileChunkInfo) (t : Session X) : Prop :=
  (files.filesToTransfare = none ∧ jobs = [] ∧ t = s) ∨
    ∃ list file size, files.filesToTransfare = some list ∧
      list[msg.filesToTransferCurrentNum.toUInt64.toNat]? = some file ∧
      W.os.openLen s.calls (Path.join file.sourceFolder file.name) = some size ∧
      jobs = chunkPlan msg.filesToTransferCurrentNum.toUInt64.toNat size ∧
      t = { s with calls := s.calls + 1 }

theorem sendFile_spec (msg : RemoteFileRequest) (files : FilesInformation) :
    Post (sendFile W c msg files) s
      (fun jobs t => c.isSender = true ∧ s.state = .fileTransfare ∧
        Requested W msg files s jobs t)
      (fun h t => ((∃ e, h = .err e) ∨ (h = .panic .assertSender ∧ c.isSender = false) ∨
          (h = .panic .assertFileTransfare ∧ s.state ≠ .fileTransfare) ∨
          (h = .panic .fileIndex ∧ ∃ list, files.filesToTransfare = some list ∧
            list.length ≤ msg.filesToTransferCurrentNum.toUInt64.toNat)) ∧
        ∃ n, t = { s with calls := n }) := by
  unfold sendFile
  simp only [post_bind, post_get, post_ite]
  refine ⟨fun hs => ⟨Or.inr (Or.inl ⟨rfl, by simpa using hs⟩), s.calls, rfl⟩, fun hs =>
    ⟨fun hst => ⟨Or.inr (Or.inr (Or.inl ⟨rfl, hst⟩)), s.calls, rfl⟩, fun hst => ?_⟩⟩
  have hs : c.isSender = true := by simpa using hs
  have hst : s.state = .fileTransfare := not_not.mp hst
  split
  next hfiles => exact ⟨hs, hst, Or.inl ⟨hfiles, rfl, rfl⟩⟩
  next list hfiles =>
    split
    next hfile =>
      have hle := List.getElem?_eq_none_iff.mp hfile
      exact ⟨Or.inr (Or.inr (Or.inr ⟨rfl, list, hfiles, hle⟩)), s.calls, rfl⟩
    next file hfile =>
      simp only [post_bind, post_osCall, post_lift, orErr_eq_ok, orErr_eq_error]
      refine ⟨fun size hsize => ⟨hs, hst, Or.inr ⟨list, file, size, hfiles, hfile,
        hsize, rfl, rfl⟩⟩,
        fun h he => ⟨Or.inl ⟨_, he.2⟩, _, rfl⟩⟩

theorem onRequest_spec (msg : RemoteFileRequest) :
    Post (onMessage W c (.typeRecipientReady msg)) s
      (fun p t => ∃ rw files jobs, s.rw = some rw ∧ c.files = some files ∧ p = .sending rw jobs ∧
        c.isSender = true ∧ s.state = .fileTransfare ∧
        Requested W msg files s jobs t)
      (fun h t => ((∃ e, h = .err e) ∨ (h = .panic .todoSendWithoutKey ∧ s.rw = none) ∨
          (h = .panic .filesUnwrap ∧ c.files = none) ∨
          (h = .panic .assertSender ∧ c.isSender = false) ∨
          (h = .panic .assertFileTransfare ∧ s.state ≠ .fileTransfare) ∨
          (h = .panic .fileIndex ∧ ∃ files list, c.files = some files ∧
            files.filesToTransfare = some list ∧
            list.length ≤ msg.filesToTransferCurrentNum.toUInt64.toNat)) ∧
        ∃ n, t = { s with calls := n }) := by
  unfold onMessage
  rw [post_bind, post_get]
  split
  next hrw => exact ⟨Or.inr (Or.inl ⟨rfl, hrw⟩), s.calls, rfl⟩
  next rw hrw =>
    split
    next hfiles => exact ⟨Or.inr (Or.inr (Or.inl ⟨rfl, hfiles⟩)), s.calls, rfl⟩
    next files hfiles =>
      rw [post_bind]
      apply (sendFile_spec msg files).mono
      · rintro jobs t ⟨hs, hst, h⟩
        exact ⟨rw, files, jobs, hrw, hfiles, rfl, hs, hst, h⟩
      · rintro h t ⟨hh, n, rfl⟩
        refine ⟨?_, n, rfl⟩
        rcases hh with he | hh | hh | ⟨rfl, list, hl, hle⟩
        · exact Or.inl he
        · exact Or.inr (Or.inr (Or.inr (Or.inl hh)))
        · exact Or.inr (Or.inr (Or.inr (Or.inr (Or.inl hh))))
        · exact Or.inr (Or.inr (Or.inr (Or.inr (Or.inr ⟨rfl, files, list, hfiles, hl, hle⟩))))

end Rounds

section Loops

theorem handChunk_spec (rw : FsInterface) (job : FileChunkInfo) :
    Post (handChunk (X := X) rw job) s
      (fun _ t => t = { s with
        readers := s.readers.modify rw.id fun r => { r with queue := r.queue ++ [job] } })
      (fun h t => t = s ∧ ∃ e, h = .err e) := by
  simp only [handChunk, post_bind, post_get, post_ite, post_throw, post_modify]
  exact ⟨fun _ => ⟨trivial, _, rfl⟩, fun _ => trivial⟩

/-- Creating a file truncates it, and then gives it the announced size. -/
theorem createFile_spec (file : FileInfo) (loc : Location) :
    Post (createFile W file loc) s
      (fun _ t => t = { s with
        ops := s.ops ++ [.createFile file loc], calls := s.calls + 2, dests := s.dests ++ [loc]
        disk := Function.update s.disk loc (List.replicate file.size.toUInt64.toNat 0) })
      (fun h t => (∃ e, h = .err e) ∧ ∃ n disk dests, t = { s with
        ops := s.ops ++ [.createFile file loc], calls := n, dests := dests, disk := disk }) := by
  simp only [createFile, post_bind, post_modify, post_osTry, Function.update_idem]
  refine ⟨fun _ => ⟨fun _ => trivial, fun _ => ?_⟩, fun _ => ?_⟩
  · exact ⟨⟨_, rfl⟩, _, _, _, rfl⟩
  · exact ⟨⟨_, rfl⟩, _, _, _, rfl⟩

/-- The next file is created where its joined path leads, and is then requested. -/
theorem requestFile_spec (index : ℕ) :
    Post (requestFile W index) s
      (fun p t =>
        (s.toReceive.bind (·[index]?) = none ∧ p = .recv ∧
          t = { s with sent := s.sent ++ [.finished] }) ∨
        ∃ file loc, s.toReceive.bind (·[index]?) = some file ∧
          loc = W.os.locate s.calls (Path.join file.remoteFolder file.name) ∧
          p = .chunks index loc (totalChunks file) [] ∧
          t = { s with
            sent := s.sent ++ [fileRequest index], ops := s.ops ++ [.createFile file loc]
            calls := s.calls + 3, dests := s.dests ++ [loc]
            disk := Function.update s.disk loc (List.replicate file.size.toUInt64.toNat 0) })
      (fun h t => (∃ e, h = .err e) ∧ (t = s ∨ ∃ file, s.toReceive.bind (·[index]?) = some file ∧
        ∃ n disk dests, t = { s with
          ops := s.ops ++ [.createFile file
            (W.os.locate s.calls (Path.join file.remoteFolder file.name))]
          calls := n, dests := dests, disk := disk })) := by
  unfold requestFile
  rw [post_bind, post_get]
  cases hf : s.toReceive.bind (·[index]?) with
  | none =>
    rw [post_bind, post_send]
    exact ⟨fun _ => Or.inl ⟨rfl, rfl, rfl⟩, fun e _ => ⟨⟨e, rfl⟩, Or.inl rfl⟩⟩
  | some file =>
    simp only [post_bind, post_osCall]
    apply (createFile_spec file _).mono
    · rintro _ t rfl
      rw [post_send]
      refine ⟨fun _ => Or.inr ⟨file, _, rfl, rfl, rfl, rfl⟩, fun e _ => ⟨⟨e, rfl⟩, ?_⟩⟩
      exact Or.inr ⟨file, rfl, _, _, _, rfl⟩
    · rintro h t ⟨he, n, disk, dests, rfl⟩
      exact ⟨he, Or.inr ⟨file, rfl, n, disk, dests, rfl⟩⟩

theorem takeChunk_spec (index : ℕ) (loc : Location) (total : ℤ) (got : List DataFrame)
    (frame : DataFrame) :
    Post (takeChunk index loc total got frame) s
      (fun p t => p = .chunks index loc total (got ++ [frame]) ∧ ∃ rw, s.rw = some rw ∧
        t = { s with writers := s.writers ++ [⟨rw.enc, index, loc, frame⟩] })
      (fun h t => h = .panic .receiveWithoutKey ∧ s.rw = none ∧ t = s) := by
  unfold takeChunk
  rw [post_bind, post_get]
  split
  next hrw => exact ⟨rfl, hrw, rfl⟩
  next rw hrw => exact ⟨rfl, rw, hrw, rfl⟩

end Loops

section Start

/-- The ways in which a session ends before it waits for a message. -/
def StartFailure (c : Setup) (h : Halt) : Prop :=
  (∃ e, h = .err e) ∨ (h = .panic .secretSlice ∧ ∀ tail, c.secretTail ≠ .ok tail)

theorem length_of_secretTail {tail : Bytes} (h : c.secretTail = .ok tail) :
    5 ≤ (asBytes c.sharedSecret).length := by
  simp only [Setup.secretTail] at h
  split at h
  next hc => exact hc.1
  · simp at h

theorem start_spec :
    Post (start W c) s
      (fun p t => p = .recv ∧ ((c.isSender = true ∧ t = s) ∨ (c.isSender = false ∧ ∃ key msg,
        t = { s with key := some key, sent := s.sent ++ [.pake msg] })))
      (fun h t => StartFailure c h ∧ ∃ k, t = { s with key := k }) := by
  simp only [start, post_bind, post_lift, post_ite, orErr_eq_ok, orErr_eq_error]
  refine ⟨fun port _ => ⟨fun hlen => ?_, fun _ => ?_⟩, fun h he => ⟨Or.inl ⟨_, he.2⟩, s.key, rfl⟩⟩
  · refine ⟨Or.inr ⟨rfl, fun tail ht => ?_⟩, s.key, rfl⟩
    have := length_of_secretTail ht
    omega
  · split
    next e _ => exact ⟨Or.inl ⟨e, rfl⟩, s.key, rfl⟩
    · simp only [post_bind, post_pure, post_ite, post_lift, post_modify, pakeMessage, post_send]
      refine ⟨fun hs => ⟨trivial, Or.inl ⟨hs, trivial⟩⟩, fun hs => ⟨fun tail _ => ⟨fun _ => ?_,
        fun e _ => ⟨Or.inl ⟨e, rfl⟩, _, rfl⟩⟩, fun h he => ?_⟩⟩
      · exact ⟨trivial, Or.inr ⟨by simpa using hs, _, _, rfl⟩⟩
      · exact ⟨Or.inr ⟨secretTail_error he, by simp [he]⟩, s.key, rfl⟩

end Start

section Steps
variable {s' : Session X}

theorem run_of_post {I : Session X → Prop} {x : Proc X Phase}
    (h : Post x s (fun p t => I { t with phase := p })
      (fun h t => I { t with phase := .ended (.error h) })) : I (run x s) := by
  unfold Post at h
  unfold run
  cases hx : x s with
  | ok p t => rw [hx] at h; exact h
  | error e t => rw [hx] at h; exact h

theorem run_cases {x : Proc X Phase} {Q : Phase → Session X → Prop} {E : Halt → Session X → Prop}
    (h : Post x s Q E) :
    (∃ p t, run x s = { t with phase := p } ∧ Q p t) ∨
      ∃ h t, run x s = { t with phase := .ended (.error h) } ∧ E h t := by
  unfold Post at h
  unfold run
  cases hx : x s with
  | ok p t => rw [hx] at h; exact Or.inl ⟨p, t, rfl, h⟩
  | error e t => rw [hx] at h; exact Or.inr ⟨e, t, rfl, h⟩

/-- The rule for a chunk of a file that is sent: it is queued for the reader task. -/
theorem run_handChunk {I : Session X → Prop} {rw : FsInterface} {job : FileChunkInfo}
    {jobs : List FileChunkInfo}
    (hqueued : I { s with
      readers := s.readers.modify rw.id fun r => { r with queue := r.queue ++ [job] }
      phase := .sending rw jobs })
    (hfail : ∀ e, I { s with phase := .ended (.error (.err e)) }) :
    I (run (do handChunk rw job; return .sending rw jobs) s) := by
  apply run_of_post
  rw [post_bind]
  apply (handChunk_spec rw job).mono
  · rintro _ t rfl
    exact hqueued
  · rintro h t ⟨rfl, e, rfl⟩
    exact hfail e

/-- The next step of `process_client` itself, by where it is. -/
theorem proceed_cases {x : Proc X Phase} (h : proceed W c s = some x) :
    (∃ rw, s.phase = .sending rw [] ∧ x = afterMessage W c) ∨
    (∃ rw job jobs, s.phase = .sending rw (job :: jobs) ∧
      x = (do handChunk rw job; return .sending rw jobs)) ∨
    (∃ index, s.phase = .nextFile index ∧ x = requestFile W index) ∨
    (∃ index loc total got, s.phase = .chunks index loc total got ∧
      (total ≤ got.length ∨ s.dataClosed = true) ∧ x = pure (.nextFile (index + 1))) := by
  unfold proceed at h
  cases hp : s.phase with
  | recv => simp [hp] at h
  | ended r => simp [hp] at h
  | sending rw jobs =>
    cases jobs with
    | nil => exact Or.inl ⟨rw, rfl, by simpa [hp, eq_comm] using h⟩
    | cons job jobs => exact Or.inr (Or.inl ⟨rw, job, jobs, rfl, by simpa [hp, eq_comm] using h⟩)
  | nextFile index => exact Or.inr (Or.inr (Or.inl ⟨index, rfl, by simpa [hp, eq_comm] using h⟩))
  | chunks index loc total got =>
    simp only [hp] at h
    split at h
    next hc =>
      exact Or.inr (Or.inr (Or.inr ⟨index, loc, total, got, rfl, hc, (Option.some.inj h).symm⟩))
    · simp at h

/-- The steps of the tasks other than `process_client`. -/
inductive Background (s : Session X) : Task → Session X → Prop where
  | read {id : ℕ} {data : Bytes} {enc : EncryptedSession} {job : FileChunkInfo}
      {queue : List FileChunkInfo} (hr : s.readers[id]? = some ⟨enc, job :: queue, false⟩)
      (hd : data.length = job.chunkSize) :
    Background s (.read id data) { s with
      readers := s.readers.set id ⟨enc, queue, false⟩
      encrypting := s.encrypting ++ [⟨enc, job.file, chunkBuffer job.chunkOffset data⟩] }
  | readFailed {id : ℕ} {enc : EncryptedSession} {job : FileChunkInfo}
      {queue : List FileChunkInfo} (hr : s.readers[id]? = some ⟨enc, job :: queue, false⟩) :
    Background s (.readFailed id) { s with readers := s.readers.set id ⟨enc, [], true⟩ }
  | encrypt {k : ℕ} {nonce : Block 12} {job : EncryptJob} {payload : Bytes}
      (hjob : s.encrypting[k]? = some job) (hp : job.enc.write X nonce job.buffer = .ok payload) :
    Background s (.encrypt k nonce) { s with
      encrypting := s.encrypting.eraseIdx k
      dataSent := s.dataSent ++ [⟨payload, some job.file⟩] }
  | unsent {t : Task} {k : ℕ} {job : EncryptJob} (hjob : s.encrypting[k]? = some job) :
    Background s t { s with encrypting := s.encrypting.eraseIdx k }
  | write {k done : ℕ} {job : WriteJob} {offset : ℕ} {data : Bytes}
      (hjob : s.writers[k]? = some job)
      (ho : openChunk X job.enc job.frame.payload = .ok (offset, data)) :
    Background s (.write k done)
      (Session.putChunk { s with writers := s.writers.eraseIdx k } job offset (data.take done))
  | unopened {k done : ℕ} {job : WriteJob} (hjob : s.writers[k]? = some job) :
    Background s (.write k done) { s with writers := s.writers.eraseIdx k }

theorem background_of_stepTask {t : Task} (ht : t ≠ .tick) (h : stepTask W c s t = some s') :
    Background s t s' := by
  cases t with
  | tick => exact absurd rfl ht
  | read id data =>
    simp only [stepTask] at h
    split at h
    next hr =>
      split at h
      next hd =>
        obtain rfl := Option.some.inj h
        exact .read hr hd
      · simp at h
    · simp at h
  | readFailed id =>
    simp only [stepTask] at h
    split at h
    next hr =>
      obtain rfl := Option.some.inj h
      exact .readFailed hr
    · simp at h
  | encrypt k nonce =>
    obtain ⟨job, hjob, rfl⟩ := Option.map_eq_some_iff.mp h
    simp only
    split
    next hp => exact .encrypt hjob hp
    · exact .unsent hjob
  | encryptFailed k =>
    obtain ⟨job, hjob, rfl⟩ := Option.map_eq_some_iff.mp h
    exact .unsent hjob
  | write k done =>
    obtain ⟨job, hjob, rfl⟩ := Option.map_eq_some_iff.mp h
    simp only
    split
    next ho => exact .write hjob ho
    · exact .unopened hjob

/-- They leave `process_client` where it is. -/
theorem stepTask_background {t : Task} (ht : t ≠ .tick) (h : stepTask W c s t = some s') :
    ∃ readers encrypting dataSent writers written disk, s' = { s with
      readers := readers, encrypting := encrypting, dataSent := dataSent, writers := writers
      written := written, disk := disk } := by
  cases background_of_stepTask ht h with
  | read => exact ⟨_, _, _, _, _, _, rfl⟩
  | readFailed => exact ⟨_, _, _, _, _, _, rfl⟩
  | encrypt => exact ⟨_, _, _, _, _, _, rfl⟩
  | unsent => exact ⟨_, _, _, _, _, _, rfl⟩
  | write => exact ⟨_, _, _, _, _, _, rfl⟩
  | unopened => exact ⟨_, _, _, _, _, _, rfl⟩

/-- A message is handled where the session waits for one. -/
theorem message_of_step {m : Message} (h : step W c s (.message m) = some s') :
    s.phase = .recv ∧ s' = run (onMessage W c m) s := by
  simp only [step] at h
  split at h
  next hp => exact ⟨hp, (Option.some.inj h).symm⟩
  · simp at h

/-- A frame is taken where the session waits for the chunks of a file. -/
theorem chunk_of_step {frame : DataFrame} (h : step W c s (.chunk frame) = some s') :
    ∃ index loc total got, s.phase = .chunks index loc total got ∧ (got.length : ℤ) < total ∧
      s.dataClosed = false ∧ s' = run (takeChunk index loc total got frame) s := by
  simp only [step] at h
  split at h
  next index loc total got hp =>
    split at h
    next hc =>
      exact ⟨index, loc, total, got, hp, hc.1, by simpa using hc.2, (Option.some.inj h).symm⟩
    · simp at h
  · simp at h

/-- Everything that a step can do. -/
theorem step_cases {e : Event} (h : step W c s e = some s') :
    (∃ m, e = .message m ∧ s.phase = .recv ∧ s' = run (onMessage W c m) s) ∨
    (∃ err, e = .recvFailed err ∧ s.phase = .recv ∧
      s' = { s with phase := .ended (.error (.err err)) }) ∨
    (∃ frame index loc total got, e = .chunk frame ∧ s.phase = .chunks index loc total got ∧
      (got.length : ℤ) < total ∧ s.dataClosed = false ∧
      s' = run (takeChunk index loc total got frame) s) ∨
    (e = .dataClosed ∧ s' = { s with dataClosed := true }) ∨
    (∃ x, e = .task .tick ∧ proceed W c s = some x ∧ s' = run x s) ∨
    (∃ t, e = .task t ∧ t ≠ .tick ∧ stepTask W c s t = some s') := by
  cases e with
  | message m =>
    obtain ⟨hp, hs⟩ := message_of_step h
    exact Or.inl ⟨m, rfl, hp, hs⟩
  | recvFailed err =>
    simp only [step] at h
    split at h
    next hp => exact Or.inr (Or.inl ⟨err, rfl, hp, (Option.some.inj h).symm⟩)
    · simp at h
  | chunk frame =>
    obtain ⟨index, loc, total, got, hp, hlt, hd, hs⟩ := chunk_of_step h
    exact Or.inr (Or.inr (Or.inl ⟨frame, index, loc, total, got, rfl, hp, hlt, hd, hs⟩))
  | dataClosed => exact Or.inr (Or.inr (Or.inr (Or.inl ⟨rfl, (Option.some.inj h).symm⟩)))
  | task t =>
    by_cases ht : t = .tick
    · subst ht
      obtain ⟨x, hx, rfl⟩ := Option.map_eq_some_iff.mp h
      exact Or.inr (Or.inr (Or.inr (Or.inr (Or.inl ⟨x, rfl, hx, rfl⟩))))
    · exact Or.inr (Or.inr (Or.inr (Or.inr (Or.inr ⟨t, rfl, ht, h⟩))))

/-- Files that are offered to a receiver in another state are refused. -/
theorem onFilesInfo_invalid (hs : c.isSender = false) (hst : s.state ≠ .fileInfoTransfare)
    (files : FilesInformation) :
    run (onMessage W c (.filesInfo files)) s =
      { s with phase := .ended (.error (.err .invalidState)) } := by
  apply run_of_post (I := fun t => t = { s with phase := .ended (.error (.err .invalidState)) })
  unfold onMessage processFilesInfo
  simp [post_ite, hs, hst]

/-- Files that are offered to a sender fail an assertion. -/
theorem onFilesInfo_sender (hs : c.isSender = true) (files : FilesInformation) :
    run (onMessage W c (.filesInfo files)) s =
      { s with phase := .ended (.error (.panic .assertReceiver)) } := by
  apply run_of_post
    (I := fun t => t = { s with phase := .ended (.error (.panic .assertReceiver)) })
  unfold onMessage processFilesInfo
  simp [post_ite, hs]

/-- The rule for an offer: at a receiver that waits for it the handler runs, and everywhere else
the session ends. -/
theorem run_onFilesInfo {I : Session X → Prop} {files : FilesInformation}
    (hsender : c.isSender = true → I { s with phase := .ended (.error (.panic .assertReceiver)) })
    (hinvalid : c.isSender = false → s.state ≠ .fileInfoTransfare →
      I { s with phase := .ended (.error (.err .invalidState)) })
    (hoffer : c.isSender = false → s.state = .fileInfoTransfare →
      Post (onMessage W c (.filesInfo files)) s (fun p t => I { t with phase := p })
        (fun h t => I { t with phase := .ended (.error h) })) :
    I (run (onMessage W c (.filesInfo files)) s) := by
  cases hs : c.isSender with
  | true =>
    rw [onFilesInfo_sender hs]
    exact hsender hs
  | false =>
    by_cases hst : s.state = .fileInfoTransfare
    · exact run_of_post (hoffer hs hst)
    · rw [onFilesInfo_invalid hs hst]
      exact hinvalid hs hst

/-- The rule for the last message: it is answered, and the session has ended well. -/
theorem run_finished {I : Session X → Prop}
    (hsent : I { s with sent := s.sent ++ [.finished], phase := .ended (.ok ()) })
    (hfail : ∀ e, I { s with phase := .ended (.error (.err e)) }) :
    I (run (onMessage W c .finished) s) := by
  apply run_of_post
  unfold onMessage
  rw [post_bind, post_send]
  exact ⟨fun _ => hsent, fun e _ => hfail e⟩

end Steps

section Footprint
variable {t : Session X}

/-- What `process_client` leaves to its tasks. -/
structure Aside (s t : Session X) : Prop where
  encrypting : t.encrypting = s.encrypting
  dataSent : t.dataSent = s.dataSent
  dataClosed : t.dataClosed = s.dataClosed
  writers : t.writers = s.writers
  written : t.written = s.written

/-- Where a message leaves `process_client`. -/
inductive Landing (m : Message) (t : Session X) : Prop where
  | recv (h : t.phase = .recv)
  | sending (msg : RemoteFileRequest) (hm : m = .typeRecipientReady msg) (rw : FsInterface)
      (jobs : List FileChunkInfo) (h : t.phase = .sending rw jobs)
  | loop (h : t.phase = .nextFile 0) (hd : t.dests = [])
  | ended (r : Except Halt Unit) (h : t.phase = .ended r)

/-- What a message does not touch, and where it leads. -/
structure Settles (m : Message) (s t : Session X) : Prop extends Aside s t where
  readers : t.readers = s.readers ∨ ∃ enc, t.readers = s.readers ++ [⟨enc, [], false⟩]
  ops : t.ops = s.ops ∨ ∃ files, m = .filesInfo files
  landing : Landing m t

/-- A message that starts no reader task and makes no folder. -/
theorem Settles.plain {m : Message} (h : Aside s t) (hr : t.readers = s.readers)
    (ho : t.ops = s.ops) (hl : Landing m t) : Settles m s t :=
  ⟨h, Or.inl hr, Or.inl ho, hl⟩

theorem onFilesInfo_settles (files : FilesInformation) :
    Settles (.filesInfo files) s (run (onMessage W c (.filesInfo files)) s) := by
  apply run_onFilesInfo
  · exact fun _ => .plain ⟨rfl, rfl, rfl, rfl, rfl⟩ rfl rfl (.ended _ rfl)
  · exact fun _ _ => .plain ⟨rfl, rfl, rfl, rfl, rfl⟩ rfl rfl (.ended _ rfl)
  · intro hs hst
    apply (onFilesInfo_spec hs hst files).mono
    · rintro p t ⟨u, ⟨n, q, l, -, rfl⟩, ⟨rfl, -, rfl⟩ | ⟨rfl, -, rfl⟩⟩
      · exact ⟨⟨rfl, rfl, rfl, rfl, rfl⟩, Or.inl rfl, Or.inr ⟨files, rfl⟩, .recv rfl⟩
      · exact ⟨⟨rfl, rfl, rfl, rfl, rfl⟩, Or.inl rfl, Or.inr ⟨files, rfl⟩, .loop rfl rfl⟩
    · rintro h t ⟨-, u, l', ⟨n, q, l, -, rfl⟩, -, rfl⟩
      exact ⟨⟨rfl, rfl, rfl, rfl, rfl⟩, Or.inl rfl, Or.inr ⟨files, rfl⟩, .ended _ rfl⟩

theorem onMessage_settles (m : Message) : Settles m s (run (onMessage W c m) s) := by
  cases m with
  | pake msg =>
    apply run_of_post
    apply (onPake_spec msg).mono
    · rintro p t ⟨rfl, key, enc, m, -, -, rfl⟩
      exact ⟨⟨rfl, rfl, rfl, rfl, rfl⟩, Or.inr ⟨enc, rfl⟩, Or.inl rfl, .recv rfl⟩
    · rintro h t ⟨-, k, enc, l, -, rfl⟩
      exact .plain ⟨rfl, rfl, rfl, rfl, rfl⟩ rfl rfl (.ended _ rfl)
  | externalIP msg =>
    apply run_of_post
    apply (onExternalIP_spec msg).mono
    · rintro p t ⟨rfl, -, ⟨-, rfl⟩ | ⟨-, files, -, rfl⟩⟩
      · exact .plain ⟨rfl, rfl, rfl, rfl, rfl⟩ rfl rfl (.recv rfl)
      · exact .plain ⟨rfl, rfl, rfl, rfl, rfl⟩ rfl rfl (.recv rfl)
    · rintro h t ⟨-, ⟨rfl, -⟩ | ⟨-, -, rfl⟩⟩
      · exact .plain ⟨rfl, rfl, rfl, rfl, rfl⟩ rfl rfl (.ended _ rfl)
      · exact .plain ⟨rfl, rfl, rfl, rfl, rfl⟩ rfl rfl (.ended _ rfl)
  | filesInfo files => exact onFilesInfo_settles files
  | typeRecipientReady msg =>
    apply run_of_post
    apply (onRequest_spec msg).mono
    · rintro p t ⟨rw, files, jobs, -, -, rfl, -, -, ⟨-, -, rfl⟩ | ⟨-, -, -, -, -, -, -, rfl⟩⟩
      · exact .plain ⟨rfl, rfl, rfl, rfl, rfl⟩ rfl rfl (.sending msg rfl rw jobs rfl)
      · exact .plain ⟨rfl, rfl, rfl, rfl, rfl⟩ rfl rfl (.sending msg rfl rw jobs rfl)
    · rintro h t ⟨-, n, rfl⟩
      exact .plain ⟨rfl, rfl, rfl, rfl, rfl⟩ rfl rfl (.ended _ rfl)
  | typeError msg => exact .plain ⟨rfl, rfl, rfl, rfl, rfl⟩ rfl rfl (.ended _ rfl)
  | finished =>
    apply run_finished
    · exact .plain ⟨rfl, rfl, rfl, rfl, rfl⟩ rfl rfl (.ended _ rfl)
    · exact fun e => .plain ⟨rfl, rfl, rfl, rfl, rfl⟩ rfl rfl (.ended _ rfl)

end Footprint
end Session
end Croc
