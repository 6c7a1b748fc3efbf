import Croc.Session.Runs
import Croc.Session.Spec

/-! Where a receiver creates files and directories. Only the paths of the empty folders are
checked. -/
namespace Croc
open Lib
namespace Session
variable {X : External} {W : World} {c : Setup} {s t : Session X}

/-- Every call that creates something leads inside the current directory. -/
def Inside (W : World) (s : Session X) : Prop := ∀ op ∈ s.ops, W.os.cwd <+: op.location

/-- The place of the file that the receive loop creates next. -/
def nextLocation (W : World) (s : Session X) (file : FileInfo) : Location :=
  W.os.locate s.calls (Path.join file.remoteFolder file.name)

/-- The session ends with an error, and nothing is created for the entry. -/
def Refuses (file : FileInfo) (s t : Session X) : Prop :=
  (∃ e, t.phase = .ended (.error (.err e))) ∧ ∀ op ∈ t.ops, op ∈ s.ops ∨ op.entry ≠ file

/-- The folder of an entry never leads inside the current directory. -/
def OutsideFolder (W : World) (file : FileInfo) : Prop :=
  ∀ n path, W.os.canonicalize n file.remoteFolder = some path → ¬ W.os.cwd <+: path

/-- In every run of steps that meet `ok`, a receiver creates things inside the current directory
only, and refuses the entries that lead outside. -/
def StaysInside (X : External) (W : World) (c : Setup) (ok : Session X → Event → Prop) : Prop :=
  ∀ s, (machine X W c).ReachableBy ok s → Inside W s ∧
    (∀ files file t, file ∈ files.emptyFoldersToTransfare.getD [] → OutsideFolder W file →
      ok s (.message (.filesInfo files)) → step W c s (.message (.filesInfo files)) = some t →
      Refuses file s t) ∧
    ∀ index file t, s.phase = .nextFile index → s.toReceive.bind (·[index]?) = some file →
      ¬ W.os.cwd <+: nextLocation W s file → ok s (.task .tick) →
      step W c s (.task .tick) = some t → Refuses file s t

/-- The next file leads inside the current directory, and the folders that lead outside have paths
that are text. -/
def LeadsInside (W : World) (s : Session X) : Event → Prop
  | .task .tick => ∀ index file, s.phase = .nextFile index →
    s.toReceive.bind (·[index]?) = some file → W.os.cwd <+: nextLocation W s file
  | .message (.filesInfo files) => ∀ file ∈ files.emptyFoldersToTransfare.getD [], ∀ n path,
    W.os.canonicalize n file.remoteFolder = some path → W.os.cwd <+: path ∨ path.text ≠ none
  | _ => True

/-- In a file system without links, a relative name that never climbs leads inside. -/
theorem inside_of_relative {cwd : Location} {len : ℕ} {file : FileInfo}
    (hrel : (Path.join file.remoteFolder file.name).toList.head? ≠ some '/')
    (hdots : ['.', '.'] ∉ Path.split (Path.join file.remoteFolder file.name).toList)
    (s : Session X) : cwd <+: nextLocation (.calm (.plain cwd len)) s file :=
  Path.isPrefix_resolve hrel hdots cwd

theorem Inside.of_ops (h : Inside W s) (ht : t.ops = s.ops) : Inside W t := by
  unfold Inside
  rw [ht]
  exact h

theorem Inside.append (h : Inside W s) {l : List FsOp} (hl : ∀ op ∈ l, W.os.cwd <+: op.location)
    (ht : t.ops = s.ops ++ l) : Inside W t := by
  intro op hop
  rw [ht] at hop
  rcases List.mem_append.mp hop with hop | hop
  · exact h op hop
  · exact hl op hop

theorem MakesFolder.inside {files : List FileInfo} {op : FsOp} (h : MakesFolder W files op) :
    W.os.cwd <+: op.location := by
  obtain ⟨file, -, n, path, rfl, -, hin⟩ := h
  exact hin

theorem MakesFolder.entry_ne {files : List FileInfo} {op : FsOp} (h : MakesFolder W files op)
    {file : FileInfo} (hout : OutsideFolder W file) : op.entry ≠ file := by
  obtain ⟨file', -, n, path, rfl, hc, hin⟩ := h
  rintro rfl
  exact hout n path hc hin

theorem onFilesInfo_inside (h : Inside W s) (files : FilesInformation) :
    Inside W (run (onMessage W c (.filesInfo files)) s) := by
  apply run_onFilesInfo
  · exact fun _ => h.of_ops rfl
  · exact fun _ _ => h.of_ops rfl
  · intro hs hst
    apply (onFilesInfo_spec hs hst files).mono
    · rintro p t ⟨u, ⟨n, q, l, hl, rfl⟩, ⟨-, -, rfl⟩ | ⟨-, -, rfl⟩⟩
      · exact h.append (fun op hop => (hl op hop).inside) rfl
      · exact h.append (fun op hop => (hl op hop).inside) rfl
    · rintro h' t ⟨-, u, l', ⟨n, q, l, hl, rfl⟩, -, rfl⟩
      exact h.append (fun op hop => (hl op hop).inside) rfl

theorem afterMessage_inside (h : Inside W s) : Inside W (run (afterMessage W c) s) := by
  apply run_of_post
  apply afterMessage_spec.mono
  · rintro p t (⟨-, rfl, -⟩ | ⟨-, -, -, files, -, rfl⟩ | ⟨-, -, -, -, rfl⟩) <;> exact h.of_ops rfl
  · rintro h' t ⟨rfl, -⟩
    exact h.of_ops rfl

theorem onMessage_inside (h : Inside W s) (m : Message) :
    Inside W (run (onMessage W c m) s) := by
  rcases (onMessage_settles (W := W) (c := c) (s := s) m).ops with ho | ⟨files, rfl⟩
  · exact h.of_ops ho
  · exact onFilesInfo_inside h files

theorem proceed_inside (h : Inside W s) (hok : LeadsInside W s (.task .tick)) {x : Proc X Phase}
    (hx : proceed W c s = some x) : Inside W (run x s) := by
  rcases proceed_cases hx with ⟨rw, -, rfl⟩ | ⟨rw, job, jobs, -, rfl⟩ | ⟨index, hp, rfl⟩ |
    ⟨index, loc, total, got, hp, -, rfl⟩
  · exact afterMessage_inside h
  · apply run_handChunk
    · exact h.of_ops rfl
    · exact fun e => h.of_ops rfl
  · have hin : ∀ file, s.toReceive.bind (·[index]?) = some file →
        ∀ op ∈ [FsOp.createFile file (nextLocation W s file)], W.os.cwd <+: op.location := by
      intro file hf op hop
      rw [List.mem_singleton.mp hop]
      exact hok index file hp hf
    apply run_of_post
    apply (requestFile_spec index).mono
    · rintro p t (⟨-, -, rfl⟩ | ⟨file, loc, hf, rfl, -, rfl⟩)
      · exact h.of_ops rfl
      · exact h.append (hin file hf) rfl
    · rintro h' t ⟨-, rfl | ⟨file, hf, n, disk, dests, rfl⟩⟩
      · exact h.of_ops rfl
      · exact h.append (hin file hf) rfl
  · exact h.of_ops rfl

theorem step_inside (h : Inside W s) {e : Event} (hok : LeadsInside W s e)
    (he : step W c s e = some t) : Inside W t := by
  rcases step_cases he with ⟨m, rfl, -, rfl⟩ | ⟨err, rfl, -, rfl⟩ |
    ⟨frame, index, loc, total, got, rfl, -, -, -, rfl⟩ | ⟨rfl, rfl⟩ | ⟨x, rfl, hx, rfl⟩ |
    ⟨t', rfl, ht, he⟩
  · exact onMessage_inside h m
  · exact h.of_ops rfl
  · apply run_of_post
    apply (takeChunk_spec index loc total got frame).mono
    · rintro p t ⟨-, rw, -, rfl⟩
      exact h.of_ops rfl
    · rintro h' t ⟨-, -, rfl⟩
      exact h.of_ops rfl
  · exact h.of_ops rfl
  · exact proceed_inside h hok hx
  · obtain ⟨readers, encrypting, dataSent, writers, written, disk, rfl⟩ := stepTask_background ht he
    exact h.of_ops rfl

theorem init_inside : Inside W (init X W c) := by
  apply run_of_post
  apply start_spec.mono
  · rintro p t ⟨-, ⟨-, rfl⟩ | ⟨-, key, msg, rfl⟩⟩ <;> simp [Inside, new]
  · rintro h t ⟨-, k, rfl⟩
    simp [Inside, new]

/-- A folder that leads outside is never made. -/
theorem createFolder_outside {file : FileInfo} (hout : OutsideFolder W file)
    (htext : ∀ n path, W.os.canonicalize n file.remoteFolder = some path → path.text ≠ none)
    (s : Session X) :
    Post (createFolder W file) s (fun _ _ => False) (fun h _ => ∃ e, h = .err e) := by
  simp only [createFolder, post_bind, post_osCall, post_lift, post_osTry, post_ite, orErr_eq_ok,
    orErr_eq_error]
  refine ⟨fun path hpath => ⟨fun _ => ⟨fun _ => ?_, fun hin => absurd (hout _ _ hpath) hin⟩,
    fun _ => ⟨_, rfl⟩⟩, fun h he => ⟨_, he.2⟩⟩
  split
  · exact ⟨_, rfl⟩
  next hn => exact absurd hn (htext _ _ hpath)

theorem onFilesInfo_outside (hs : c.isSender = false) {files : FilesInformation}
    {file : FileInfo} (hfile : file ∈ files.emptyFoldersToTransfare.getD [])
    (hout : OutsideFolder W file) (hok : LeadsInside W s (.message (.filesInfo files))) :
    Post (onMessage W c (.filesInfo files)) s (fun _ _ => False)
      (fun h _ => ∃ e, h = .err e) := by
  have htext : ∀ n path, W.os.canonicalize n file.remoteFolder = some path → path.text ≠ none :=
    fun n path hc => (hok file hfile n path hc).resolve_left (hout n path hc)
  have hfolder : ∀ file ∈ files.emptyFoldersToTransfare.getD [], ∀ s : Session X,
      Post (createFolder W file) s (fun _ _ => True) (fun h _ => ∃ e, h = .err e) := by
    intro file hfile s
    apply (createFolder_spec hfile).mono fun _ _ _ => trivial
    rintro h t ⟨he | ⟨-, file', hfile', n, path, hc, hout', hn⟩, -⟩
    · exact he
    · exact ((hok file' hfile' n path hc).elim hout' fun hne => hne hn).elim
  have hloop := post_forEach_of_mem hfolder hfile (createFolder_outside (X := X) hout htext)
  simp only [onMessage, processFilesInfo, post_bind, post_get, post_ite, post_lift, post_modify,
    post_ask, post_send, post_throw, orErr_eq_ok, orErr_eq_error]
  refine ⟨fun h => by simp [hs] at h, fun _ => ⟨fun _ => ⟨_, rfl⟩, fun _ => ⟨fun total _ =>
    ⟨fun yes _ => ⟨fun _ => ⟨fun _ => ⟨_, rfl⟩, fun e _ => ⟨e, rfl⟩⟩, fun _ => ?_⟩,
      fun _ => ⟨_, rfl⟩⟩, fun h he => ⟨_, he.2⟩⟩⟩⟩
  exact (hloop _).mono (fun _ _ h => h.elim) fun _ _ h => h

theorem onFilesInfo_refuses (hs : c.isSender = false) {files : FilesInformation}
    {file : FileInfo} (hfile : file ∈ files.emptyFoldersToTransfare.getD [])
    (hout : OutsideFolder W file) (hok : LeadsInside W s (.message (.filesInfo files))) :
    Refuses file s (run (onMessage W c (.filesInfo files)) s) := by
  by_cases hst : s.state = .fileInfoTransfare
  · apply run_of_post (I := Refuses file s)
    apply ((onFilesInfo_spec hs hst files).and (onFilesInfo_outside hs hfile hout hok)).mono
    · exact fun _ _ h => h.2.elim
    · rintro h t ⟨⟨-, u, l', ⟨n, q, l, hl, rfl⟩, -, rfl⟩, e, rfl⟩
      refine ⟨⟨e, rfl⟩, fun op hop => ?_⟩
      exact (List.mem_append.mp hop).imp_right fun hop => (hl op hop).entry_ne hout
  · rw [onFilesInfo_invalid hs hst]
    exact ⟨⟨_, rfl⟩, fun op hop => Or.inl hop⟩

/-- While the files lead inside the current directory, a receiver stays inside it. -/
theorem leadsInside_staysInside (hs : c.isSender = false) :
    StaysInside X W c (LeadsInside W) := by
  intro s hreach
  refine ⟨?_, ?_, ?_⟩
  · exact hreach.invariant (P := Inside W) init_inside
      fun s e s' _ h hok he => step_inside h hok he
  · intro files file t hfile hout hok he
    obtain ⟨-, rfl⟩ := message_of_step he
    exact onFilesInfo_refuses hs hfile hout hok
  · intro index file t hp hf hout hok _
    exact absurd (hok index file hp hf) hout

theorem leadsInside_staysInside_plain :
    StaysInside .transparent (.calm (.plain [[104]] 5)) (.receiver "12345abc")
      (LeadsInside (.calm (.plain [[104]] 5))) :=
  leadsInside_staysInside rfl

/-- A file with an absolute name is created where the name says. -/
theorem absolute_name_escapes :
    ¬ StaysInside .transparent (.calm (.plain [[104]] 5)) (.receiver "12345abc")
      fun _ _ => True := by
  intro h
  obtain ⟨s, hs, hp⟩ := Machine.ReachableBy.exists_of_exec
    (M := machine .transparent (.calm (.plain [[104]] 5)) (.receiver "12345abc"))
    (fun _ _ => True) (fun s => decide (∃ op ∈ s.ops, ¬ [[104]] <+: op.location))
    (senderHello [.plain "/etc/passwd" "" 5] ++ [.task .tick]) (by decide +kernel)
  obtain ⟨op, hop, hout⟩ := of_decide_eq_true hp
  exact hout ((h s hs).1 op hop)

end Session
end Croc
