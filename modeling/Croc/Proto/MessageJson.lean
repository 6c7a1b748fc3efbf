import Croc.Lib.Json
import Croc.Proto.CrocMsg

/-! The JSON texts of messages. -/
namespace Croc
open Lib

def bytesJson (bs : Bytes) : Json := .arr (bs.map fun b => .num b.toNat)

def PakeMessage.fields (msg : PakeMessage) : List (String × Json) :=
  [("b", bytesJson msg.bytes), ("b2", bytesJson msg.bytes2)]

def ExternalIPMessage.fields (msg : ExternalIPMessage) : List (String × Json) :=
  [("m", .str msg.externalIp)]

def RemoteFileRequest.fields (msg : RemoteFileRequest) : List (String × Json) :=
  [("CurrentFileChunkRanges", .arr (msg.currentFileChunkRanges.map fun n => .num n.toInt)),
    ("FilesToTransferCurrentNum", .num msg.filesToTransferCurrentNum.toInt),
    ("MachineID", .str msg.machineId)]

def FileInfo.toJson (file : FileInfo) : Json :=
  .obj [("n", .str file.name), ("fr", .str file.remoteFolder), ("fs", .str file.sourceFolder),
    ("h", bytesJson file.hash), ("s", .num file.size.toInt), ("m", .str file.modificationTime),
    ("c", .bool file.isCompressed), ("e", .bool file.isEncrypted), ("sy", .str file.symlink),
    ("md", .num file.mode.toNat), ("tf", .bool file.tempFile)]

/-- `Option<Vec<FileInfo>>` -/
def filesJson : Option (List FileInfo) → Json
  | none => .null
  | some list => .arr (list.map FileInfo.toJson)

def FilesInformation.fields (files : FilesInformation) : List (String × Json) :=
  [("FilesToTransfer", filesJson files.filesToTransfare),
    ("EmptyFoldersToTransfer", filesJson files.emptyFoldersToTransfare),
    ("TotalNumberFolders", .num files.totalFoldersNumber.toNat),
    ("MachineID", .str files.machineId), ("Ask", .bool files.ask),
    ("SendingText", .bool files.sendingText), ("NoCompress", .bool files.noCompress),
    ("HashAlgorithm", .str files.hashAlgorithm)]

def TypeErrorMessage.fields (msg : TypeErrorMessage) : List (String × Json) :=
  [("m", .str msg.message)]

namespace Message

def tag : Message → String
  | .pake _ => "pake"
  | .externalIP _ => "externalip"
  | .filesInfo _ => "fileinfo"
  | .typeRecipientReady _ => "recipientready"
  | .typeError _ => "error"
  | .finished => "finished"

def fields : Message → List (String × Json)
  | .pake msg => msg.fields
  | .externalIP msg => msg.fields
  | .filesInfo msg => msg.fields
  | .typeRecipientReady msg => msg.fields
  | .typeError msg => msg.fields
  | .finished => []

/-- The tag stands in front of the fields. -/
def toJson (m : Message) : Json := .obj (("t", .str m.tag) :: m.fields)

def text (m : Message) : String := m.toJson.text

example : (Message.externalIP ⟨"10.0.0.1"⟩).text =
    "\x7b\"t\":\"externalip\",\"m\":\"10.0.0.1\"\x7d" := by decide +kernel

example : (Message.pake ⟨asBytes "\x7b\x7d", [7]⟩).text =
    "\x7b\"t\":\"pake\",\"b\":[123,125],\"b2\":[7]\x7d" := by decide +kernel

/-- What `Message::send` writes to the connection. -/
def payload (m : Message) : Bytes := asBytes m.text

theorem payload_length (m : Message) :
    m.payload.length = (m.toJson.chars.map Char.utf8Size).sum := by
  rw [payload, text, Json.text, asBytes_ofList, List.length_flatMap]
  simp only [String.length_utf8EncodeChar]

end Message

theorem bytesJson_injective : Function.Injective bytesJson := by
  intro a b h
  refine List.map_injective_iff.mpr (fun x y hxy => ?_) (Json.arr.inj h)
  exact UInt8.toNat_inj.mp (by simpa using hxy)

theorem FileInfo.toJson_injective : Function.Injective FileInfo.toJson := by
  intro a b h
  cases a
  cases b
  simpa [toJson, bytesJson_injective.eq_iff, Int64.toInt_inj, UInt32.toNat_inj] using h

theorem filesJson_injective : Function.Injective filesJson := by
  rintro (_ | a) (_ | b) h
  · rfl
  · nomatch h
  · nomatch h
  · exact congrArg some (FileInfo.toJson_injective.list_map (Json.arr.inj h))

theorem FilesInformation.fields_injective : Function.Injective FilesInformation.fields := by
  intro a b h
  cases a
  cases b
  simpa [fields, filesJson_injective.eq_iff, UInt64.toNat_inj] using h

theorem PakeMessage.fields_injective : Function.Injective PakeMessage.fields := by
  intro a b h
  cases a
  cases b
  simpa [fields, bytesJson_injective.eq_iff] using h

theorem ExternalIPMessage.fields_injective : Function.Injective ExternalIPMessage.fields := by
  intro a b h
  cases a
  cases b
  simpa [fields] using h

theorem TypeErrorMessage.fields_injective : Function.Injective TypeErrorMessage.fields := by
  intro a b h
  cases a
  cases b
  simpa [fields] using h

theorem RemoteFileRequest.fields_injective : Function.Injective RemoteFileRequest.fields := by
  intro a b h
  cases a
  cases b
  simp only [fields, List.cons.injEq, Prod.mk.injEq, Json.arr.injEq, Json.num.injEq, Json.str.injEq,
    true_and, and_true, Int64.toInt_inj] at h
  obtain ⟨hranges, rfl, rfl⟩ := h
  obtain rfl := List.map_injective_iff.mpr (fun x y hxy => Int64.toInt_inj.mp (by simpa using hxy))
    hranges
  rfl

namespace Message

/-- A message can be told from its text. -/
theorem text_injective : Function.Injective text := by
  intro a b h
  have hfields := Json.obj.inj (Json.text_injective h)
  obtain ⟨htag, hfields⟩ := List.cons.inj hfields
  have htag : a.tag = b.tag := by simpa using htag
  cases a <;> cases b <;> simp [tag] at htag
  · exact congrArg _ (PakeMessage.fields_injective hfields)
  · exact congrArg _ (ExternalIPMessage.fields_injective hfields)
  · exact congrArg _ (FilesInformation.fields_injective hfields)
  · exact congrArg _ (RemoteFileRequest.fields_injective hfields)
  · exact congrArg _ (TypeErrorMessage.fields_injective hfields)
  · rfl

theorem payload_injective : Function.Injective payload := by
  intro a b h
  apply text_injective
  have htext := congrArg fromUtf8 h
  rw [payload, payload, fromUtf8_asBytes, fromUtf8_asBytes] at htext
  exact Option.some.inj htext

end Message
end Croc
