import Croc.Session.Process

/-! Surroundings and roles in which runs of a session can be evaluated. -/
namespace Croc
open Lib

/-- A file system without links, in which every name is taken and every file has one length. -/
def Os.plain (cwd : Location) (len : ℕ) : Os where
  cwd := cwd
  currentDir _ := true
  canonicalize _ path := some (Path.resolve cwd path)
  pathExists _ _ := true
  createDir _ _ := false
  locate _ path := Path.resolve cwd path
  create _ _ := true
  setLen _ _ _ := true
  openLen _ _ := some len

/-- Surroundings in which connections hold and the user agrees to everything. -/
def World.calm (os : Os) : World where
  connectError := none
  seed _ := 0
  salt _ := ⟨List.replicate 8 0, rfl⟩
  sendError _ := none
  confirm _ := some true
  overflowChecks := false
  os := os
  disk _ := []

section Calm
variable {os : Os} (n : ℕ)

@[simp] theorem World.calm_sendError : (World.calm os).sendError n = none := rfl
@[simp] theorem World.calm_connectError : (World.calm os).connectError = none := rfl
@[simp] theorem World.calm_confirm : (World.calm os).confirm n = some true := rfl
@[simp] theorem World.calm_seed : (World.calm os).seed n = 0 := rfl
@[simp] theorem World.calm_os : (World.calm os).os = os := rfl
@[simp] theorem World.calm_overflowChecks : (World.calm os).overflowChecks = false := rfl

end Calm

/-- An entry for a file of `size` bytes. -/
def FileInfo.plain (name folder : String) (size : Int64) : FileInfo where
  name := name
  remoteFolder := folder
  sourceFolder := "../"
  hash := [1, 2, 3]
  size := size
  modificationTime := "2021-01-01"
  isCompressed := false
  isEncrypted := false
  symlink := ""
  mode := 3
  tempFile := false

/-- An offer of files without empty folders. -/
def FilesInformation.plain (list : List FileInfo) : FilesInformation where
  filesToTransfare := some list
  emptyFoldersToTransfare := some []
  totalFoldersNumber := 0
  machineId := "123"
  ask := false
  sendingText := false
  noCompress := true
  hashAlgorithm := "sha256"

def Setup.sender (secret : String) (list : List FileInfo) : Setup :=
  ⟨["9010"], secret, true, "10.0.0.1", some (.plain list)⟩

def Setup.receiver (secret : String) : Setup := ⟨["9010"], secret, false, "10.0.0.2", none⟩

theorem Setup.sender_isSender (secret : String) (list : List FileInfo) :
    (Setup.sender secret list).isSender = true := rfl

theorem Setup.receiver_isSender (secret : String) : (Setup.receiver secret).isSender = false := rfl

namespace Session

/-- The first message of a receiver. -/
def receiverKey : Event := .message (.pake ⟨asBytes "{}", asBytes "siec"⟩)

/-- The messages of a receiver up to the point where the sender has offered its files. -/
def receiverHello : List Event := [receiverKey, .message (.externalIP ⟨"10.0.0.2"⟩)]

/-- The messages of a sender up to its offer. -/
def senderHello (list : List FileInfo) : List Event :=
  [.message (.pake ⟨asBytes "{}", List.replicate 8 0⟩), .message (.externalIP ⟨"10.0.0.1"⟩),
    .message (.filesInfo (.plain list))]

end Session
end Croc
