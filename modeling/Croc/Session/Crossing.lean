import Croc.Session.Held
import Croc.Session.Pair

/-! Chunks of one file in another: the two ends count the chunks of a file on their own, and that
the counts agree is all that keeps the files apart. -/
namespace Croc
open Lib

/-- The list of files that is offered. -/
def Meeting.list (M : Meeting) : List FileInfo :=
  (M.sender.files.bind FilesInformation.filesToTransfare).getD []

theorem Meeting.list_eq {M : Meeting} {files : FilesInformation} {list : List FileInfo}
    (hf : M.sender.files = some files) (hl : files.filesToTransfare = some list) :
    M.list = list := by
  unfold Meeting.list
  rw [hf, Option.bind_some, hl]
  rfl

theorem Meeting.list_fits (M : Meeting) : M.list.length < 2 ^ 63 := by
  unfold Meeting.list
  cases hl : M.sender.files.bind FilesInformation.filesToTransfare with
  | none => simp
  | some list =>
    obtain ⟨files, hf, hl⟩ := Option.bind_eq_some_iff.mp hl
    exact M.fits files hf list hl

namespace Pair
open Session
variable {X : External} {M : Meeting} {p p' : Pair X}

/-- What the reader tasks took from a source file went to the destination file of that number. -/
def Separate (p : Pair X) : Prop :=
  ∀ w ∈ p.receiver.written, ∀ i, w.origin = some i → w.dest = i

/-- In every run of steps that meet `ok`, no chunk crosses files. -/
def NeverCrosses (X : External) (M : Meeting) (ok : Pair X → Event → Prop) : Prop :=
  ∀ p, (machine X M).ReachableBy ok p → Separate p

/-- A file that is requested has, when the sender opens it, no more chunks than were announced,
unless it is the last one. -/
def OpensAsAnnounced (M : Meeting) (p : Pair X) : Message → Prop
  | .typeRecipientReady msg =>
    let i := msg.filesToTransferCurrentNum.toUInt64.toNat
    i + 1 = M.list.length ∨ ∀ file ∈ M.list[i]?,
      ∀ size ∈ M.senderWorld.os.openLen p.sender.calls (Path.join file.sourceFolder file.name),
        pieceCount tcpBufferSize size = 0 ∨ (pieceCount tcpBufferSize size : ℤ) ≤ totalChunks file
  | _ => True

/-- The receiver is not waiting for the chunks of a file before the last one. -/
def AtLast (M : Meeting) : Phase → Prop
  | .chunks i .. => i + 1 = M.list.length
  | _ => True

/-- No file but the last is longer than announced when the sender opens it, and no keepalive frame
arrives among the chunks of a file but the last. -/
def Matching (M : Meeting) (p : Pair X) : Event → Prop
  | .toSender => ∀ m ∈ p.receiver.sent[p.toSender]?, OpensAsAnnounced M p m
  | .keepalive => AtLast M p.receiver.phase
  | _ => True

section Counting
variable {list : List FileInfo} {q r : ℕ} {phase phase' : Phase} {out out' : Multiset (Option ℕ)}

/-- What is outstanding, when the sender has taken up `q` of `r` requests: chunks of the last of
these files, no more than the receiver still waits for unless no file follows. -/
structure OnTime (list : List FileInfo) (q r : ℕ) (phase : Phase) (out : Multiset (Option ℕ)) :
    Prop where
  current : out = 0 ∨ ∃ i, q = i + 1 ∧ (∀ o ∈ out, o = some i) ∧
    (q = list.length ∨ ∃ loc total got, phase = .chunks i loc total got ∧
      (out.card + got.length : ℤ) ≤ total)
  /-- Nothing is counted for a file before its request is taken up. -/
  fresh : ∀ j loc total got, phase = .chunks j loc total got → q ≤ j → j + 1 < list.length →
    got = []
  /-- A file that has chunks is not left before its request is taken up. -/
  waits : ∀ j file, q ≤ j → j < r → j + 1 < list.length → list[j]? = some file →
    0 < totalChunks file → ∃ loc total got, phase = .chunks j loc total got

/-- What the receiver waits for belongs to its last request. -/
def Counts (list : List FileInfo) (r : ℕ) : Phase → Prop
  | .chunks j _ total _ => r = j + 1 ∧ ∃ file, list[j]? = some file ∧ total = totalChunks file
  | .nextFile j => r = j
  | _ => True

theorem OnTime.shrink (h : OnTime list q r phase out) (hle : out' ≤ out) :
    OnTime list q r phase out' := by
  refine ⟨?_, h.fresh, h.waits⟩
  rcases h.current with h0 | ⟨i, hq, hall, hroom⟩
  · rw [h0] at hle
    exact Or.inl (Multiset.le_zero.mp hle)
  · refine Or.inr ⟨i, hq, fun o ho => hall o (Multiset.mem_of_le hle ho), ?_⟩
    refine hroom.imp_right fun ⟨loc, total, got, hp, hcard⟩ => ⟨loc, total, got, hp, ?_⟩
    have := Multiset.card_le_card hle
    omega

/-- A request is taken up when nothing is outstanding, and leaves chunks of its file. -/
theorem OnTime.request (h : OnTime list q r phase out) (hc : Counts list r phase) (hq : q < r)
    (hr : r ≤ list.length) {n : ℕ} (hn : out' = out + Multiset.replicate n (some q))
    (hok : q + 1 = list.length ∨ n = 0 ∨
      ∃ file, list[q]? = some file ∧ (n : ℤ) ≤ totalChunks file) :
    OnTime list (q + 1) r phase out' := by
  have h0 : out = 0 := by
    rcases h.current with h0 | ⟨i, rfl, -, hlen | ⟨loc, total, got, rfl, -⟩⟩
    · exact h0
    · omega
    · have := hc.1
      omega
  rw [h0, zero_add] at hn
  refine ⟨?_, fun j loc total got hp hj => h.fresh j loc total got hp (by omega),
    fun j file hj => h.waits j file (by omega)⟩
  by_cases hn0 : n = 0
  · rw [hn0, Multiset.replicate_zero] at hn
    exact Or.inl hn
  · refine Or.inr ⟨q, rfl, fun o ho => ?_, ?_⟩
    · rw [hn] at ho
      exact Multiset.eq_of_mem_replicate ho
    · rcases hok with hlast | hz | ⟨file, hfile, hle⟩
      · exact Or.inl hlast
      · exact absurd hz hn0
      · by_cases hlast : q + 1 = list.length
        · exact Or.inl hlast
        · have hlt : q + 1 < list.length := by omega
          obtain ⟨loc, total, got, rfl⟩ := h.waits q file le_rfl hq hlt hfile (by omega)
          obtain rfl := h.fresh q loc total got rfl le_rfl hlt
          obtain ⟨-, file', hfile', rfl⟩ := hc
          obtain rfl : file = file' := Option.some.inj (hfile.symm.trans hfile')
          refine Or.inr ⟨loc, _, [], rfl, ?_⟩
          rw [hn, Multiset.card_replicate]
          simpa using hle

/-- A frame that arrives is a chunk of the file that the receiver waits for. -/
theorem OnTime.take {j : ℕ} {loc : Location} {total : ℤ} {got : List DataFrame}
    (h : OnTime list q r (.chunks j loc total got) out)
    (hc : Counts list r (.chunks j loc total got))
    (hqr : q ≤ r) (hr : r ≤ list.length) {frame : DataFrame} (ho : out = frame.origin ::ₘ out') :
    frame.origin = some j ∧
      OnTime list q r (.chunks j loc total (got ++ [frame])) out' := by
  have hmem : frame.origin ∈ out := ho ▸ Multiset.mem_cons_self _ _
  obtain ⟨hrj, -⟩ := hc
  rcases h.current with h0 | ⟨i, hq, hall, hroom⟩
  · rw [h0] at hmem
    exact absurd hmem (Multiset.notMem_zero _)
  · have hij : i = j := by
      rcases hroom with hlast | ⟨loc', total', got', hp, -⟩
      · omega
      · obtain ⟨rfl, -, -, -⟩ := Phase.chunks.inj hp
        rfl
    subst hij
    refine ⟨hall _ hmem, Or.inr ⟨i, hq, fun o ho' => ?_, ?_⟩, ?_, ?_⟩
    · exact hall o (ho ▸ Multiset.mem_cons_of_mem ho')
    · refine hroom.imp_right fun ⟨loc', total', got', hp, hcard⟩ => ?_
      obtain ⟨-, rfl, rfl, rfl⟩ := Phase.chunks.inj hp
      refine ⟨loc, total, _, rfl, ?_⟩
      rw [ho, Multiset.card_cons] at hcard
      rw [List.length_append, List.length_singleton]
      push_cast at hcard ⊢
      omega
    · intro j' loc' total' got' hp hj'
      obtain ⟨rfl, -, -, -⟩ := Phase.chunks.inj hp
      omega
    · intro j' file hj' hlt
      omega

/-- A keepalive frame that is counted for the last file does no harm. -/
theorem OnTime.keepalive {j : ℕ} {loc : Location} {total : ℤ} {got : List DataFrame}
    (h : OnTime list q r (.chunks j loc total got) out) (hlast : j + 1 = list.length)
    (frame : DataFrame) : OnTime list q r (.chunks j loc total (got ++ [frame])) out := by
  refine ⟨?_, fun i loc' total' got' hp hi hlt => ?_, fun i file hi hlt hnext hfile hpos => ?_⟩
  · rcases h.current with h0 | ⟨i, hq, hmem, hlen | ⟨loc', total', got', hp, -⟩⟩
    · exact Or.inl h0
    · exact Or.inr ⟨i, hq, hmem, Or.inl hlen⟩
    · obtain ⟨rfl, -, -, -⟩ := Phase.chunks.inj hp
      exact Or.inr ⟨j, hq, hmem, Or.inl (hq.trans hlast)⟩
  · obtain ⟨rfl, -, -, -⟩ := Phase.chunks.inj hp
    omega
  · obtain ⟨loc', total', got', hp⟩ := h.waits i file hi hlt hnext hfile hpos
    obtain ⟨rfl, -, -, -⟩ := Phase.chunks.inj hp
    omega

/-- A file is left when nothing of it is outstanding. -/
theorem OnTime.leave {j : ℕ} {loc : Location} {total : ℤ} {got : List DataFrame}
    (h : OnTime list q r (.chunks j loc total got) out)
    (hc : Counts list r (.chunks j loc total got)) (hall : total ≤ got.length) :
    OnTime list q r (.nextFile (j + 1)) out := by
  refine ⟨?_, fun _ _ _ _ hp => (by cases hp), fun i file hi hlt hnext hfile hpos => ?_⟩
  · rcases h.current with h0 | ⟨i, hq, hmem, hlen | ⟨loc', total', got', hp, hcard⟩⟩
    · exact Or.inl h0
    · exact Or.inr ⟨i, hq, hmem, Or.inl hlen⟩
    · obtain ⟨-, rfl, rfl, rfl⟩ := Phase.chunks.inj hp
      exact Or.inl (Multiset.card_eq_zero.mp (by omega))
  · obtain ⟨loc', total', got', hp⟩ := h.waits i file hi hlt hnext hfile hpos
    obtain ⟨rfl, rfl, rfl, rfl⟩ := Phase.chunks.inj hp
    obtain rfl := h.fresh j loc total got rfl hi hnext
    obtain ⟨-, file', hfile', rfl⟩ := hc
    obtain rfl : file = file' := Option.some.inj (hfile.symm.trans hfile')
    simp at hall
    omega

/-- The next file is requested with nothing counted for it. -/
theorem OnTime.ask {j : ℕ} (h : OnTime list q r (.nextFile j) out) (hr : r = j) (loc : Location)
    (total : ℤ) : OnTime list q (r + 1) (.chunks j loc total []) out := by
  refine ⟨?_, fun _ _ _ _ hp _ _ => (Phase.chunks.inj hp).2.2.2.symm,
    fun i file hi hlt hnext hfile hpos => ?_⟩
  · rcases h.current with h0 | ⟨i, hq, hmem, hlen | ⟨loc', total', got', hp, -⟩⟩
    · exact Or.inl h0
    · exact Or.inr ⟨i, hq, hmem, Or.inl hlen⟩
    · cases hp
  · by_cases hij : i = j
    · subst hij
      exact ⟨loc, total, [], rfl⟩
    · obtain ⟨loc', total', got', hp⟩ := h.waits i file hi (by omega) hnext hfile hpos
      cases hp

/-- Away from its files, the receiver may be anywhere. -/
theorem OnTime.move (h : OnTime list q r phase out)
    (hp : ∀ j loc total got, phase ≠ .chunks j loc total got)
    (hp' : ∀ j loc total got, phase' ≠ .chunks j loc total got) : OnTime list q r phase' out := by
  refine ⟨?_, fun j loc total got he => absurd he (hp' j loc total got),
    fun j file hj hlt hnext hfile hpos => ?_⟩
  · rcases h.current with h0 | ⟨i, hq, hmem, hlen | ⟨loc, total, got, he, -⟩⟩
    · exact Or.inl h0
    · exact Or.inr ⟨i, hq, hmem, Or.inl hlen⟩
    · exact absurd he (hp i loc total got)
  · obtain ⟨loc, total, got, he⟩ := h.waits j file hj hlt hnext hfile hpos
    exact absurd he (hp j loc total got)

end Counting

section Receiver
variable {W : World} {c : Setup} {s t : Session X}

/-- Every frame is on its way to, or has been written to, the file that it was read from. -/
structure Filed (s : Session X) : Prop where
  jobs : ∀ job ∈ s.writers, ∀ i, job.frame.origin = some i → job.dest = i
  written : ∀ w ∈ s.written, ∀ i, w.origin = some i → w.dest = i

theorem Filed.of_eq (h : Filed s) (hj : t.writers = s.writers) (hw : t.written = s.written) :
    Filed t :=
  ⟨by rw [hj]; exact h.jobs, by rw [hw]; exact h.written⟩

theorem stepTask_filed (h : Filed s) {e : Task} (hne : e ≠ .tick)
    (he : stepTask W c s e = some t) : Filed t := by
  have hjobs : ∀ k, ∀ job ∈ s.writers.eraseIdx k, ∀ i, job.frame.origin = some i → job.dest = i :=
    fun k job hmem => h.jobs job (List.mem_of_mem_eraseIdx hmem)
  cases background_of_stepTask hne he with
  | read => exact h.of_eq rfl rfl
  | readFailed => exact h.of_eq rfl rfl
  | encrypt => exact h.of_eq rfl rfl
  | unsent => exact h.of_eq rfl rfl
  | write hjob =>
    refine ⟨hjobs _, fun w hw => ?_⟩
    rcases List.mem_append.mp hw with hw | hw
    · exact h.written w hw
    · rw [List.mem_singleton.mp hw]
      exact h.jobs _ (List.mem_of_getElem? hjob)
  | unopened => exact ⟨hjobs _, h.written⟩

/-- A step keeps frames with their files when the frame that it takes belongs to the file that is
waited for. -/
theorem Filed.step (h : Filed s) {e : Session.Event} (he : Session.step W c s e = some t)
    (hown : ∀ frame j loc total got, e = .chunk frame → s.phase = .chunks j loc total got →
      ∀ i, frame.origin = some i → j = i) : Filed t := by
  rcases step_cases he with ⟨m, rfl, -, rfl⟩ | ⟨err, rfl, -, rfl⟩ |
    ⟨frame, index, loc, total, got, rfl, hp, -, -, rfl⟩ | ⟨rfl, rfl⟩ | ⟨x, rfl, hx, rfl⟩ |
    ⟨t', rfl, ht, he⟩
  · have hun := onMessage_settles (W := W) (c := c) (s := s) m
    exact h.of_eq hun.writers hun.written
  · exact h.of_eq rfl rfl
  · apply run_of_post
    apply (takeChunk_spec index loc total got frame).mono
    · rintro p t ⟨-, rw, -, rfl⟩
      refine ⟨fun job hjob => ?_, h.written⟩
      rcases List.mem_append.mp hjob with hjob | hjob
      · exact h.jobs job hjob
      · rw [List.mem_singleton.mp hjob]
        exact hown frame index loc total got rfl hp
    · rintro h' t ⟨-, -, rfl⟩
      exact h.of_eq rfl rfl
  · exact h.of_eq rfl rfl
  · obtain ⟨hun, -⟩ := proceed_held hx
    exact h.of_eq hun.writers hun.written
  · exact stepTask_filed h ht he

/-- No frame can arrive any more. -/
def Deaf (s : Session X) : Prop := s.dataClosed = true ∨ ∃ r, s.phase = .ended r

theorem Deaf.step (h : Deaf s) {e : Session.Event} (he : Session.step W c s e = some t) :
    Deaf t := by
  rcases step_cases he with ⟨m, rfl, hp, rfl⟩ | ⟨err, rfl, hp, rfl⟩ |
    ⟨frame, index, loc, total, got, rfl, hp, -, hd, rfl⟩ | ⟨rfl, rfl⟩ | ⟨x, rfl, hx, rfl⟩ |
    ⟨t', rfl, ht, he⟩
  · have hun := onMessage_settles (W := W) (c := c) (s := s) m
    rcases h with h | ⟨r, h⟩
    · exact Or.inl (hun.dataClosed.trans h)
    · simp [hp] at h
  · exact Or.inr ⟨_, rfl⟩
  · rcases h with h | ⟨r, h⟩
    · simp [hd] at h
    · simp [hp] at h
  · exact Or.inl rfl
  · obtain ⟨hun, -⟩ := proceed_held hx
    rcases h with h | ⟨r, h⟩
    · exact Or.inl (hun.dataClosed.trans h)
    · simp [proceed, h] at hx
  · obtain ⟨readers, encrypting, dataSent, writers, written, disk, rfl⟩ := stepTask_background ht he
    exact h

/-- A step of the receiver other than a frame keeps the counts. -/
theorem OnTime.receiver_step {list : List FileInfo} {q : ℕ} {out : Multiset (Option ℕ)}
    (hs : c.isSender = false) (hasks : Asks s)
    (hc : Counts list (requests s.sent).length s.phase)
    (h : OnTime list q (requests s.sent).length s.phase out) {e : Session.Event}
    (hok : InOrder c s e) (he : Session.step W c s e = some t) (hne : ∀ frame, e ≠ .chunk frame) :
    Deaf t ∨ OnTime list q (requests t.sent).length t.phase out := by
  rcases step_cases he with ⟨m, rfl, hp, rfl⟩ | ⟨err, rfl, hp, rfl⟩ |
    ⟨frame, index, loc, total, got, rfl, -⟩ | ⟨rfl, rfl⟩ | ⟨x, rfl, hx, rfl⟩ | ⟨t', rfl, ht, he⟩
  · have hreq := requests_of_logged (onMessage_logged (W := W) (c := c) (s := s) m) (by simp)
    have hp' : ∀ j loc total got, s.phase ≠ .chunks j loc total got := by simp [hp]
    rw [hreq]
    rcases receiver_message_cases (W := W) hs hok with
      ⟨p, t, ht, -, ⟨rfl, -⟩ | ⟨rfl, -⟩⟩ | ⟨r, t, ht⟩
    · rw [ht]
      exact Or.inr (h.move hp' (by simp))
    · rw [ht]
      exact Or.inr (h.move hp' (by simp))
    · rw [ht]
      exact Or.inl (Or.inr ⟨r, rfl⟩)
  · exact Or.inl (Or.inr ⟨_, rfl⟩)
  · exact absurd rfl (hne frame)
  · exact Or.inl (Or.inl rfl)
  · rcases proceed_cases hx with ⟨rw, hp, rfl⟩ | ⟨rw, job, jobs, hp, rfl⟩ | ⟨index, hp, rfl⟩ |
      ⟨index, loc, total, got, hp, hleave, rfl⟩
    · obtain ⟨r, -, hin⟩ := hasks
      rw [hp] at hin
      exact hin.elim
    · obtain ⟨r, -, hin⟩ := hasks
      rw [hp] at hin
      exact hin.elim
    · rw [hp] at h hc
      have hr : (requests s.sent).length = index := hc
      apply run_of_post
        (I := fun t : Session X => Deaf t ∨ OnTime list q (requests t.sent).length t.phase out)
      apply (requestFile_spec index).mono
      · rintro p t (⟨-, rfl, rfl⟩ | ⟨file, loc, -, -, rfl, rfl⟩)
        · refine Or.inr ?_
          have hsame : requests (s.sent ++ [.finished]) = requests s.sent := by
            simp [requests, isRequest]
          rw [hsame]
          exact h.move (by simp) (by simp)
        · refine Or.inr ?_
          have hmore : (requests (s.sent ++ [fileRequest index])).length =
              (requests s.sent).length + 1 := by
            rw [requests_append, List.length_append]
            rfl
          rw [hmore]
          exact h.ask hr loc _
      · exact fun h t _ => Or.inl (Or.inr ⟨_, rfl⟩)
    · rcases hleave with hall | hd
      · rw [hp] at h hc
        exact Or.inr (h.leave hc hall)
      · exact Or.inl (Or.inl hd)
  · obtain ⟨readers, encrypting, dataSent, writers, written, disk, rfl⟩ := stepTask_background ht he
    exact Or.inr h

end Receiver

section Requests

/-- The number of requests that the sender has been given. -/
def takenUp (p : Pair X) : ℕ := (requests (p.receiver.sent.take p.toSender)).length

/-- The source files of the chunks that may still arrive. -/
def outstanding (p : Pair X) : Multiset (Option ℕ) := p.sender.held + origins p.inFlight

theorem takenUp_le (p : Pair X) : p.takenUp ≤ (requests p.receiver.sent).length :=
  ((List.take_sublist _ _).filter _).length_le

theorem requests_take_succ {sent : List Message} {k : ℕ} {m : Message} (h : sent[k]? = some m) :
    requests (sent.take (k + 1)) = requests (sent.take k) ++ requests [m] := by
  rw [List.take_add_one, h, requests_append]
  rfl

/-- The next message for the sender, if it is a request, is for the next file. -/
theorem request_of_getElem? {sent : List Message} {r k : ℕ} {msg : RemoteFileRequest}
    (hr : requests sent = (List.range r).map fileRequest)
    (h : sent[k]? = some (.typeRecipientReady msg)) :
    (requests (sent.take k)).length < r ∧
      .typeRecipientReady msg = fileRequest (requests (sent.take k)).length := by
  have hsplit : requests sent =
      requests (sent.take k) ++ .typeRecipientReady msg :: requests (sent.drop (k + 1)) := by
    obtain ⟨hlt, hget⟩ := List.getElem?_eq_some_iff.mp h
    conv_lhs => rw [← List.take_append_drop k sent, requests_append,
      List.drop_eq_getElem_cons hlt, hget]
    rfl
  have hget : ((List.range r).map fileRequest)[(requests (sent.take k)).length]? =
      some (.typeRecipientReady msg) := by
    rw [← hr, hsplit, List.getElem?_append_right le_rfl, Nat.sub_self]
    rfl
  rw [List.getElem?_map, Option.map_eq_some_iff] at hget
  obtain ⟨i, hi, hm⟩ := hget
  obtain ⟨hlt, hi⟩ := List.getElem?_eq_some_iff.mp hi
  rw [List.getElem_range] at hi
  rw [List.length_range] at hlt
  exact ⟨hlt, by rw [hi, hm]⟩

theorem index_of_fileRequest {i : ℕ} (h : i < 2 ^ 63) : (Int64.ofNat i).toUInt64.toNat = i := by
  rw [Int64.toUInt64_ofNat', UInt64.toNat_ofNat_of_lt']
  exact h.trans (by decide)

/-- What the ends agree on lets the receiver count by the sender's list. -/
theorem Coupled.counts (h : Coupled M p) :
    requests p.receiver.sent =
        (List.range (requests p.receiver.sent).length).map fileRequest ∧
      (requests p.receiver.sent).length ≤ M.list.length ∧
      Counts M.list (requests p.receiver.sent).length p.receiver.phase := by
  have hlist : ∀ list, p.receiver.toReceive = some list → M.list = list := by
    intro list hl
    obtain ⟨files, hfiles, hl⟩ := Option.bind_eq_some_iff.mp hl
    exact Meeting.list_eq (h.offered files hfiles) hl
  obtain ⟨r, ⟨hr, hle⟩, hin⟩ := h.asks
  have hlen : (requests p.receiver.sent).length = r := by
    rw [hr, List.length_map, List.length_range]
  rw [hlen]
  refine ⟨hr, ?_, ?_⟩
  · rcases hle with rfl | ⟨list, hl, hle⟩
    · exact Nat.zero_le _
    · rw [hlist list hl]
      exact hle
  · cases hp : p.receiver.phase with
    | chunks j loc total got =>
      rw [hp] at hin
      obtain ⟨-, hj, file, hfile, htotal⟩ := hin
      obtain ⟨list, hl, hget⟩ := Option.bind_eq_some_iff.mp hfile
      exact ⟨hj, file, by rw [hlist list hl]; exact hget, htotal⟩
    | nextFile j =>
      rw [hp] at hin
      exact hin.2
    | _ => trivial

end Requests

section Runs

/-- The invariant: frames are filed with their files, and as long as frames can arrive, the two ends
count alike. -/
structure Apart (M : Meeting) (p : Pair X) : Prop where
  filed : Filed p.receiver
  onTime : Deaf p.receiver ∨ OnTime M.list p.takenUp (requests p.receiver.sent).length
    p.receiver.phase p.outstanding

/-- The sender's side may pass chunks on and lose them. -/
theorem Apart.shrink (h : Apart M p) (hr : p'.receiver = p.receiver) (hq : p'.takenUp = p.takenUp)
    (hle : p'.outstanding ≤ p.outstanding) : Apart M p' := by
  obtain ⟨hfiled, htime⟩ := h
  constructor
  · rw [hr]
    exact hfiled
  · rw [hr, hq]
    exact htime.imp_right fun h => h.shrink hle

/-- A step of the sender other than a request. -/
theorem Apart.sender_step (h : Apart M p) {e : Session.Event} {s : Session X}
    (he : p.stepSender M e = some s) (hreq : ∀ msg, e ≠ .message (.typeRecipientReady msg))
    (hs : p'.sender = s) (hr : p'.receiver = p.receiver) (hq : p'.takenUp = p.takenUp)
    (hf : p'.inFlight = p.inFlight ∨
      p'.inFlight = p.inFlight ++ s.dataSent.drop p.sender.dataSent.length) : Apart M p' := by
  obtain ⟨l, hl, hheld⟩ := step_held hreq he
  refine h.shrink hr hq ?_
  unfold outstanding
  rw [hs]
  rcases hf with hf | hf
  · rw [hf]
    exact add_le_add_left ((Multiset.le_add_right _ _).trans hheld) _
  · rw [hf, hl, List.drop_left, origins_append, add_comm (origins _), ← add_assoc]
    exact add_le_add_left hheld _

/-- The sender is given its next request. -/
theorem Apart.request_step (h : Apart M p) (hc : Coupled M p) {msg : RemoteFileRequest}
    {s : Session X} (hm : p.receiver.sent[p.toSender]? = some (.typeRecipientReady msg))
    (hok : OpensAsAnnounced M p (.typeRecipientReady msg))
    (he : p.stepSender M (.message (.typeRecipientReady msg)) = some s) :
    Apart M { p with sender := s, toSender := p.toSender + 1 } := by
  obtain ⟨hfiled, htime⟩ := h
  refine ⟨hfiled, htime.imp_right fun htime => ?_⟩
  obtain ⟨hreq, hle, hcount⟩ := hc.counts
  obtain ⟨hlt, hmsg⟩ := request_of_getElem? hreq hm
  have hlt : p.takenUp < (requests p.receiver.sent).length := hlt
  have hindex : msg.filesToTransferCurrentNum.toUInt64.toNat = p.takenUp := by
    have hfits := M.list_fits
    obtain rfl := Message.typeRecipientReady.inj hmsg
    exact index_of_fileRequest (by omega)
  have hnext : takenUp { p with sender := s, toSender := p.toSender + 1 } = p.takenUp + 1 := by
    unfold takenUp
    rw [requests_take_succ hm, List.length_append]
    rfl
  obtain ⟨hp, rfl⟩ := message_of_step he
  rw [hnext]
  rcases onRequest_held (W := M.senderWorld) (c := M.sender) hp msg with
    hsame | ⟨files, list, file, size, hfiles, hlist, hfile, hsize, hmore⟩
  · refine htime.request hcount hlt hle (n := 0) ?_ (Or.inr (Or.inl rfl))
    simp [outstanding, hsame]
  · refine htime.request hcount hlt hle (n := pieceCount tcpBufferSize size) ?_ ?_
    · unfold outstanding
      simp only [hmore, hindex]
      abel
    · rw [← Meeting.list_eq hfiles hlist, hindex] at hfile
      unfold OpensAsAnnounced at hok
      simp only [hindex] at hok
      rcases hok with hlast | hok
      · exact Or.inl hlast
      · exact (hok file hfile size hsize).elim (fun h => Or.inr (Or.inl h)) fun h =>
          Or.inr (Or.inr ⟨file, hfile, h⟩)

theorem Apart.receiver_step (h : Apart M p) (hc : Coupled M p) {e : Session.Event} {r : Session X}
    (he : p.stepReceiver M e = some r) (hok : InOrder M.receiver p.receiver e)
    (hne : ∀ frame, e ≠ .chunk frame) (hr : p'.receiver = r) (hs : p'.sender = p.sender)
    (hts : p'.toSender = p.toSender) (hf : p'.inFlight = p.inFlight) : Apart M p' := by
  obtain ⟨hfiled, htime⟩ := h
  obtain ⟨-, -, hcount⟩ := hc.counts
  have hq : p'.takenUp = p.takenUp := by
    obtain ⟨l, hl, -⟩ := (step_logged he).sent
    unfold takenUp
    rw [hr, hts, hl, List.take_append_of_le_length hc.delivered]
  have hout : p'.outstanding = p.outstanding := by
    unfold outstanding
    rw [hs, hf]
  subst hr
  refine ⟨hfiled.step he fun frame _ _ _ _ he _ => absurd he (hne frame), ?_⟩
  rw [hq, hout]
  rcases htime with hdeaf | htime
  · exact Or.inl (hdeaf.step he)
  · exact htime.receiver_step M.isReceiver hc.asks hcount hok he hne

/-- A frame arrives: one that is outstanding, or a keepalive frame while the receiver waits for no
file but the last. -/
theorem Apart.frame_step (h : Apart M p) (hc : Coupled M p) {frame : DataFrame} {r : Session X}
    (he : p.stepReceiver M (.chunk frame) = some r) (hr : p'.receiver = r)
    (hts : p'.toSender = p.toSender)
    (hframe : p.outstanding = frame.origin ::ₘ p'.outstanding ∨
      frame = keepaliveFrame ∧ p'.outstanding = p.outstanding ∧ AtLast M p.receiver.phase) :
    Apart M p' := by
  subst hr
  obtain ⟨hfiled, htime⟩ := h
  obtain ⟨-, hle, hcount⟩ := hc.counts
  obtain ⟨l, hl, -⟩ := (step_logged he).sent
  have hq : p'.takenUp = p.takenUp := by
    unfold takenUp
    rw [hts, hl, List.take_append_of_le_length hc.delivered]
  obtain ⟨index, loc, total, got, hp, -, hd, hrun⟩ := chunk_of_step he
  have hnot : ¬ Deaf p.receiver := by
    rintro (h | ⟨r, h⟩)
    · simp [hd] at h
    · simp [hp] at h
  have htime := htime.resolve_left hnot
  rw [hp] at htime hcount
  have hkey : (∀ i, frame.origin = some i → index = i) ∧ OnTime M.list p.takenUp
      (requests p.receiver.sent).length (.chunks index loc total (got ++ [frame]))
        p'.outstanding := by
    rcases hframe with hout | ⟨rfl, hout, hlast⟩
    · obtain ⟨ho, ht⟩ := htime.take hcount p.takenUp_le hle hout
      refine ⟨fun i hi => ?_, ht⟩
      rw [ho] at hi
      exact Option.some.inj hi
    · rw [hp] at hlast
      rw [hout]
      exact ⟨fun i hi => (by cases hi), htime.keepalive hlast keepaliveFrame⟩
  have hreq := requests_of_logged (step_logged he) (by simp)
  refine ⟨hfiled.step he fun frame' j loc' total' got' he' hp' i hi => ?_, ?_⟩
  · obtain rfl := Session.Event.chunk.inj he'
    rw [hp] at hp'
    obtain ⟨rfl, -, -, -⟩ := Phase.chunks.inj hp'
    exact hkey.1 i hi
  · rw [hq, hreq]
    rw [hrun]
    apply run_of_post (I := fun t : Session X => Deaf t ∨ OnTime M.list p.takenUp
      (requests p.receiver.sent).length t.phase p'.outstanding)
    apply (takeChunk_spec index loc total got frame).mono
    · rintro ph t ⟨rfl, -⟩
      exact Or.inr hkey.2
    · exact fun h t _ => Or.inl (Or.inr ⟨_, rfl⟩)

theorem Apart.step (h : Apart M p) (hc : Coupled M p) {e : Event} (hok : Matching M p e)
    (he : Pair.step M p e = some p') : Apart M p' := by
  cases e with
  | sender t =>
    obtain ⟨s, hs, rfl⟩ := Option.map_eq_some_iff.mp he
    exact h.sender_step hs (by simp) rfl rfl rfl (Or.inr rfl)
  | receiver t =>
    obtain ⟨r, hr, rfl⟩ := Option.map_eq_some_iff.mp he
    exact h.receiver_step hc hr trivial (by simp) rfl rfl rfl rfl
  | toSender =>
    obtain ⟨m, hm, he⟩ := Option.bind_eq_some_iff.mp he
    obtain ⟨s, hs, rfl⟩ := Option.map_eq_some_iff.mp he
    have hother : requests [m] = [] → (∀ msg, m ≠ .typeRecipientReady msg) →
        Apart M { p with sender := s, toSender := p.toSender + 1 } := by
      intro hnil hne
      refine h.sender_step hs (by simpa using hne) rfl rfl ?_ (Or.inl rfl)
      unfold takenUp
      simp only [requests_take_succ hm, hnil, List.append_nil]
    cases m with
    | typeRecipientReady msg => exact h.request_step hc hm (hok _ hm) hs
    | _ => exact hother rfl (by simp)
  | toReceiver =>
    obtain ⟨m, hm, he⟩ := Option.bind_eq_some_iff.mp he
    obtain ⟨r, hr, rfl⟩ := Option.map_eq_some_iff.mp he
    exact h.receiver_step hc hr (hc.toReceiver_inOrder hm) (by simp) rfl rfl rfl rfl
  | senderRecvFailed err =>
    obtain ⟨s, hs, rfl⟩ := Option.map_eq_some_iff.mp he
    exact h.sender_step hs (by simp) rfl rfl rfl (Or.inl rfl)
  | receiverRecvFailed err =>
    obtain ⟨r, hr, rfl⟩ := Option.map_eq_some_iff.mp he
    exact h.receiver_step hc hr trivial (by simp) rfl rfl rfl rfl
  | deliver k =>
    obtain ⟨frame, hf, he⟩ := Option.bind_eq_some_iff.mp he
    obtain ⟨r, hr, rfl⟩ := Option.map_eq_some_iff.mp he
    refine h.frame_step hc hr rfl rfl (Or.inl ?_)
    unfold outstanding origins
    rw [coe_map_eraseIdx DataFrame.origin hf, Multiset.add_cons]
  | lose k =>
    obtain ⟨frame, hf, rfl⟩ := Option.map_eq_some_iff.mp he
    refine h.shrink rfl rfl ?_
    unfold outstanding origins
    rw [coe_map_eraseIdx DataFrame.origin hf, Multiset.add_cons]
    exact Multiset.le_cons_self _ _
  | keepalive =>
    obtain ⟨r, hr, rfl⟩ := Option.map_eq_some_iff.mp he
    exact h.frame_step hc hr rfl rfl (Or.inr ⟨rfl, rfl, hok⟩)
  | dataClosed =>
    obtain rfl := Option.some.inj he
    exact h.receiver_step hc (e := .dataClosed) rfl trivial (by simp) rfl rfl rfl rfl

theorem apart_init : Apart M (init X M) := by
  have hsender : (Session.init X M.senderWorld M.sender).held = 0 := by
    apply run_of_post (I := fun t : Session X => t.held = 0)
    apply start_spec.mono
    · rintro p t ⟨rfl, ⟨-, rfl⟩ | ⟨-, key, msg, rfl⟩⟩ <;> rfl
    · rintro h t ⟨-, k, rfl⟩
      rfl
  have hreceiver : (Session.init X M.receiverWorld M.receiver).writers = [] ∧
      (Session.init X M.receiverWorld M.receiver).written = [] := by
    apply run_of_post (I := fun t : Session X => t.writers = [] ∧ t.written = [])
    apply start_spec.mono
    · rintro p t ⟨rfl, ⟨-, rfl⟩ | ⟨-, key, msg, rfl⟩⟩ <;> exact ⟨rfl, rfl⟩
    · rintro h t ⟨-, k, rfl⟩
      exact ⟨rfl, rfl⟩
  have hnone := requests_receiver_init (X := X) (W := M.receiverWorld) M.isReceiver
  obtain ⟨-, hidle, -⟩ := receiver_init (X := X) (W := M.receiverWorld) M.isReceiver
  refine ⟨⟨?_, ?_⟩, Or.inr ⟨Or.inl ?_, ?_, ?_⟩⟩
  · simp [init, hreceiver.1]
  · simp [init, hreceiver.2]
  · exact congrArg (· + origins []) hsender
  · intro j loc total got hp
    rcases hidle with h | ⟨r, h⟩
    · exact absurd (h.symm.trans hp) (by simp)
    · exact absurd (h.symm.trans hp) (by simp)
  · intro j file hj hlt
    simp only [init, hnone] at hlt
    exact absurd hlt (Nat.not_lt_zero j)

/-- In every run in which the files are no longer than announced, each chunk goes to the file
that it was read from. -/
theorem matching_neverCrosses (X : External) (M : Meeting) :
    NeverCrosses X M (Matching M) := by
  intro p hreach
  have h : Apart M p := hreach.invariant (P := Apart M) apart_init
    fun p e p' hp h hok he => h.step (reachable_coupled hp) hok he
  exact h.filed.written

/-- Two files, of which the first is announced as empty and has five bytes when it is opened. -/
def grownFile : Meeting :=
  .calm (.plain [[104]] 5)
    (.sender "12345abc" [.plain "a.txt" "./" 0, .plain "b.txt" "./" 5]) (.receiver "12345abc")
    (Setup.sender_isSender _ _) (Setup.receiver_isSender _) (by rintro _ ⟨⟩ _ ⟨⟩; decide)

/-- The bytes of the first file are written to the second one. -/
theorem grown_file_crosses : ¬ NeverCrosses .transparent grownFile fun _ _ => True := by
  intro h
  obtain ⟨p, hp, hw⟩ := Machine.ReachableBy.exists_of_exec (M := machine .transparent grownFile)
    (fun _ _ => True) (fun p => p.receiver.written.any fun w => w.origin == some 0 && w.dest == 1)
    [.toSender, .toReceiver, .toSender, .toReceiver, .toReceiver, .receiver .tick, .receiver .tick,
      .receiver .tick, .toSender, .sender .tick, .sender (.read 0 (asBytes "hello")),
      .sender (.encrypt 0 ⟨List.replicate 12 0, rfl⟩), .deliver 0, .receiver (.write 0 5)]
    (by decide +kernel)
  obtain ⟨w, hmem, hw⟩ := List.any_eq_true.mp hw
  simp only [Bool.and_eq_true, beq_iff_eq] at hw
  have := h p hp w hmem 0 hw.1
  omega

end Runs

end Pair
end Croc
