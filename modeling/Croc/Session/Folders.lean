import Croc.Session.Runs
import Croc.Session.Spec

/-! The empty folders of an offer on a disk: `create_folder` asks for the canonical form of a path
before it makes the directory. -/
namespace Croc
open Lib

/-- A file system: its states, what is at a place in a state, and the calls that `create_folder`
makes. `locate` is the place that a path leads to, if there is something or not. -/
structure FileSystem (σ ν : Type) where
  node : σ → Location → Option ν
  locate : σ → String → Location
  currentDir : σ → Option Location
  canonicalize : σ → String → Option Location
  pathExists : σ → Location → Bool
  createDir : σ → Location → Option σ

namespace FileSystem
variable {σ ν : Type} (fs : FileSystem σ ν)

/-- What is assumed of the file system. -/
structure Lawful : Prop where
  canonicalize_absent : ∀ d path, fs.node d (fs.locate d path) = none →
    fs.canonicalize d path = none
  createDir_present : ∀ d loc, (fs.node d loc).isSome → fs.createDir d loc = none

/-- The answers of the operating system as long as the disk is in state `d`. -/
def answers (os : Os) (d : σ) : Os :=
  { os with
    cwd := (fs.currentDir d).getD []
    currentDir := fun _ => (fs.currentDir d).isSome
    canonicalize := fun _ => fs.canonicalize d
    pathExists := fun _ => fs.pathExists d
    createDir := fun _ loc => (fs.createDir d loc).isSome
    locate := fun _ => fs.locate d }

/-- The disk after the last of the calls that create something. -/
def after (d : σ) (ops : List FsOp) : σ :=
  match ops.getLast? with
  | some (.createDir _ loc) => (fs.createDir d loc).getD d
  | _ => d

/-- The entries are for new folders inside the current directory, each in a folder that is there or
is to be made before it. -/
structure NewFolders (d : σ) (list : List FileInfo) : Prop where
  distinct : (list.map fun file => fs.locate d file.remoteFolder).Nodup
  inside : ∀ file ∈ list, ∃ cwd ∈ fs.currentDir d, cwd <+: fs.locate d file.remoteFolder
  absent : ∀ file ∈ list, fs.node d (fs.locate d file.remoteFolder) = none
  parents : ∀ front file back, list = front ++ file :: back →
    (fs.node d (fs.locate d file.remoteFolder).dropLast).isSome ∨
      ∃ earlier ∈ front, fs.locate d earlier.remoteFolder =
        (fs.locate d file.remoteFolder).dropLast

/-- On the disk `d'` every folder of the list exists, and the rest is as on `d`. -/
structure FoldersCreated (d d' : σ) (list : List FileInfo) : Prop where
  present : ∀ file ∈ list, (fs.node d' (fs.locate d file.remoteFolder)).isSome
  others : ∀ loc, (∀ file ∈ list, loc ≠ fs.locate d file.remoteFolder) →
    fs.node d' loc = fs.node d loc

end FileSystem

namespace Session
variable {X : External} {σ ν : Type} {fs : FileSystem σ ν} {W : World} {s : Session X} {d : σ}

/-- `create_folder` while nobody else uses the disk. Its last call is the one that changes it. -/
def createFolderOn (fs : FileSystem σ ν) (W : World) (file : FileInfo) :
    EStateM Halt (Session X × σ) Unit := fun (s, d) =>
  match createFolder { W with os := fs.answers W.os d } file s with
  | .ok _ t => .ok () (t, fs.after d t.ops)
  | .error h t => .error h (t, d)

/-- `create_empty_folders` on a disk. -/
def createEmptyFoldersOn (fs : FileSystem σ ν) (W : World) (files : FilesInformation) :
    EStateM Halt (Session X × σ) Unit :=
  forEach (createFolderOn fs W) (files.emptyFoldersToTransfare.getD [])

/-- `create_empty_folders` returns `Ok`, and what is new on the disk is the folders of the offer. -/
def CreatesFolders (fs : FileSystem σ ν) (W : World) (s : Session X) (d : σ)
    (files : FilesInformation) : Prop :=
  Post (createEmptyFoldersOn fs W files) (s, d)
    (fun _ p => fs.FoldersCreated d p.2 (files.emptyFoldersToTransfare.getD []))
    (fun _ _ => False)

/-- A directory is made where the canonical form of the path leads, so there has to be one. -/
theorem createFolder_made (W : World) (file : FileInfo) :
    Post (createFolder W file) s
      (fun _ t => ∃ n loc, W.os.canonicalize s.calls file.remoteFolder = some loc ∧
        W.os.createDir n loc = true ∧ t.ops = s.ops ++ [.createDir file loc])
      (fun _ _ => True) := by
  simp only [createFolder, post_bind, post_osCall, post_lift, post_osTry, post_ite, post_ask,
    post_throw, post_modify, orErr_eq_ok, orErr_eq_error]
  refine ⟨fun loc hloc => ⟨fun _ => ⟨fun _ => ?_, fun _ => ?_⟩, fun _ => trivial⟩,
    fun _ _ => trivial⟩
  · cases loc.text <;> trivial
  · exact ⟨fun _ => ⟨fun yes _ => ⟨fun _ => ⟨fun h => ⟨_, loc, hloc, h, rfl⟩, fun _ => trivial⟩,
      fun _ => trivial⟩, fun _ => trivial⟩,
      fun _ => ⟨fun h => ⟨_, loc, hloc, h, rfl⟩, fun _ => trivial⟩⟩

theorem createFolderOn_spec (file : FileInfo) :
    Post (createFolderOn fs W file) (s, d)
      (fun _ p => ∃ loc, fs.canonicalize d file.remoteFolder = some loc ∧
        fs.createDir d loc = some p.2)
      (fun _ p => p.2 = d) := by
  have hmade := createFolder_made (s := s) { W with os := fs.answers W.os d } file
  unfold Post at hmade ⊢
  unfold createFolderOn
  dsimp only
  cases hrun : createFolder { W with os := fs.answers W.os d } file s with
  | ok u t =>
    rw [hrun] at hmade
    obtain ⟨n, loc, hloc, hdir, hops⟩ := hmade
    obtain ⟨d', hd⟩ := Option.isSome_iff_exists.mp hdir
    exact ⟨loc, hloc, by simp [FileSystem.after, hops, hd]⟩
  | error h t => rfl

/-- For a folder that is not there yet, `create_folder` returns an error, and nothing is made. -/
theorem createFolderOn_absent (hfs : fs.Lawful) {file : FileInfo}
    (habsent : fs.node d (fs.locate d file.remoteFolder) = none) :
    Post (createFolderOn fs W file) (s, d) (fun _ _ => False) (fun _ p => p.2 = d) := by
  apply (createFolderOn_spec file).mono _ fun _ _ h => h
  rintro _ p ⟨loc, hloc, -⟩
  simp [hfs.canonicalize_absent d _ habsent] at hloc

/-- The first new folder ends `create_empty_folders` with an error, before anything is made. -/
theorem createEmptyFoldersOn_new (hfs : fs.Lawful) {files : FilesInformation} {file : FileInfo}
    {list : List FileInfo} (hlist : files.emptyFoldersToTransfare.getD [] = file :: list)
    (hnew : fs.NewFolders d (files.emptyFoldersToTransfare.getD [])) :
    Post (createEmptyFoldersOn fs W files) (s, d) (fun _ _ => False) (fun _ p => p.2 = d) := by
  have habsent := hnew.absent file (by simp [hlist])
  rw [createEmptyFoldersOn, hlist, forEach, post_bind]
  exact (createFolderOn_absent hfs habsent).mono (fun _ _ h => h.elim) fun _ _ h => h

theorem not_createsFolders (hfs : fs.Lawful) {files : FilesInformation} {file : FileInfo}
    {list : List FileInfo} (hlist : files.emptyFoldersToTransfare.getD [] = file :: list)
    (hnew : fs.NewFolders d (files.emptyFoldersToTransfare.getD [])) :
    ¬ CreatesFolders fs W s d files := by
  intro h
  apply Post.absurd
  exact (h.and (createEmptyFoldersOn_new hfs hlist hnew)).mono (fun _ _ h => h.2) fun _ _ h => h.1

/-- New empty folders are created if and only if there are none in the offer. -/
theorem createsFolders_iff (hfs : fs.Lawful) {files : FilesInformation}
    (hnew : fs.NewFolders d (files.emptyFoldersToTransfare.getD [])) :
    CreatesFolders fs W s d files ↔ files.emptyFoldersToTransfare.getD [] = [] := by
  cases hlist : files.emptyFoldersToTransfare.getD [] with
  | nil =>
    refine iff_of_true ?_ rfl
    rw [CreatesFolders, createEmptyFoldersOn, hlist, forEach, post_pure]
    exact ⟨by simp, fun _ _ => rfl⟩
  | cons file list =>
    exact iff_of_false (not_createsFolders hfs hlist hnew) (List.cons_ne_nil file list)

section Example

/-- A disk of folders without links, as the list of the folders that are there. -/
def folderDisk : FileSystem (List Location) Unit where
  node d loc := if loc ∈ d then some () else none
  locate _ path := Path.resolve [asBytes "home"] path
  currentDir _ := some [asBytes "home"]
  canonicalize d path :=
    let loc := Path.resolve [asBytes "home"] path
    if loc ∈ d then some loc else none
  pathExists d loc := decide (loc ∈ d)
  createDir d loc := if loc ∉ d ∧ loc.dropLast ∈ d then some (loc :: d) else none

theorem folderDisk_lawful : folderDisk.Lawful where
  canonicalize_absent d path h := by
    simpa [folderDisk] using h
  createDir_present d loc h := by
    have hmem : loc ∈ d := by simpa [folderDisk] using h
    simp [folderDisk, hmem]

/-- An offer of one empty folder. -/
def oneFolder : FilesInformation :=
  { FilesInformation.plain [] with emptyFoldersToTransfare := some [.plain "" "new" 0] }

theorem oneFolder_new :
    folderDisk.NewFolders [[], [asBytes "home"]] (oneFolder.emptyFoldersToTransfare.getD []) := by
  have hlist : oneFolder.emptyFoldersToTransfare.getD [] = [.plain "" "new" 0] := rfl
  have hloc : folderDisk.locate [[], [asBytes "home"]] "new" =
      [asBytes "home", asBytes "new"] := by decide +kernel
  have habsent : folderDisk.node [[], [asBytes "home"]] [asBytes "home", asBytes "new"] = none := by
    decide +kernel
  rw [hlist]
  refine ⟨List.nodup_singleton _, ?_, ?_, ?_⟩
  · rintro file hfile
    obtain rfl := List.mem_singleton.mp hfile
    exact ⟨[asBytes "home"], rfl, hloc ▸ List.prefix_append [asBytes "home"] [asBytes "new"]⟩
  · rintro file hfile
    obtain rfl := List.mem_singleton.mp hfile
    exact hloc ▸ habsent
  · intro front file back h
    obtain ⟨rfl, h⟩ := (List.append_eq_singleton_iff.mp h.symm).resolve_right (by simp)
    obtain ⟨rfl, -⟩ := List.cons.inj h
    exact Or.inl (hloc ▸ by decide +kernel)

theorem oneFolder_createsFolders_iff :
    CreatesFolders folderDisk (.calm (.plain [asBytes "home"] 5))
      (new (X := .transparent) (.calm (.plain [asBytes "home"] 5))) [[], [asBytes "home"]]
        oneFolder ↔ oneFolder.emptyFoldersToTransfare.getD [] = [] :=
  createsFolders_iff folderDisk_lawful oneFolder_new

/-- An offer of one new folder in the current directory ends in an error. -/
theorem oneFolder_not_created :
    folderDisk.NewFolders [[], [asBytes "home"]] (oneFolder.emptyFoldersToTransfare.getD []) ∧
      ¬ CreatesFolders folderDisk (.calm (.plain [asBytes "home"] 5))
        (new (X := .transparent) (.calm (.plain [asBytes "home"] 5))) [[], [asBytes "home"]]
          oneFolder :=
  ⟨oneFolder_new, not_createsFolders folderDisk_lawful rfl oneFolder_new⟩

end Example

end Session
end Croc
