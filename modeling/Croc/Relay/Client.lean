import Croc.Proto.CrocEnc

/-! The client of a relay: what it says and hears in `negotiate_info`, and what it asks for. Every
connection names its room by the first three bytes of a secret: a control connection by those of
the users' secret, a data connection by those of a text made from a digest of it. -/
namespace Croc.Server
open Lib

/-- The room of `RelayClient::connect`: `&shared_secret[..3]`, which panics inside a character. -/
def connectRoom (sharedSecret : String) : Except Halt String :=
  if (asBytes sharedSecret).length < 4 then .error (.err (.badSharedSecret sharedSecret))
  else match fromUtf8 ((asBytes sharedSecret).take 3) with
    | some room => .ok room
    | none => .error (.panic .secretSlice)

/-- `format!("{:x}", bytes)` -/
def lowerHex (bs : Bytes) : String :=
  String.ofList (bs.flatMap fun b => [Nat.digitChar (b.toNat / 16), Nat.digitChar (b.toNat % 16)])

/-- The secret that `start_net_task` connects with: six digits of the digest of the users' secret
from its fifth byte on, which has to be there. -/
def dataSecret (sha256 : Bytes → Block 32) (sharedSecret : String) : Except Halt String :=
  let bs := asBytes sharedSecret
  if bs.length < 5 then .error (.panic .secretSlice)
  else .ok (String.ofList ((lowerHex (sha256 (bs.drop 5)).toList).toList.take 6) ++ "-1")

/-- The connections that the program opens: the control connection of a session, and the data
connection of `start_net_task`, each with the secret that the users share. -/
inductive Connection where
  | control (sharedSecret : String)
  | data (sharedSecret : String)
  deriving DecidableEq

namespace Connection
variable (sha256 : Bytes → Block 32)

/-- The secret that is given to `RelayClient::connect`. -/
def secret : Connection → Except Halt String
  | .control sharedSecret => .ok sharedSecret
  | .data sharedSecret => dataSecret sha256 sharedSecret

/-- The room that the relay is asked for. -/
def room (c : Connection) : Except Halt String := do
  let sharedSecret ← c.secret sha256
  connectRoom sharedSecret

/-- Both are control connections, or both are data connections with one room string. -/
def SameChannel : Connection → Connection → Prop
  | .control _, .control _ => True
  | .data s, .data s' => dataSecret sha256 s = dataSecret sha256 s'
  | _, _ => False

end Connection

/-- The text before the first `sep` and the text after it; `sep` is not empty. -/
def splitOnce (sep : List Char) : List Char → Option (List Char × List Char)
  | [] => none
  | c :: cs =>
      if sep.isPrefixOf (c :: cs) then some ([], (c :: cs).drop sep.length)
      else (splitOnce sep cs).map fun p => (c :: p.1, p.2)

/-- `"|||"` -/
def bars : List Char := ['|', '|', '|']

/-- The ports in the banner and the address after it, if the message `contains("|||")`. -/
def parseInfo (message : String) : Option (List String × String) :=
  (splitOnce bars message.toList).map fun (banner, rest) =>
    ((banner.splitOn ',').map String.ofList,
      String.ofList (((splitOnce bars rest).map Prod.fst).getD rest))

/-- The arguments of `RelayClient::negotiate_info`, and the random choices that it makes. -/
structure Caller where
  symKey : Block 32
  password : String
  room : String
  salt : Block 8
  nonce : ℕ → Block 12

/-- The await points of `RelayClient::negotiate_info`. -/
inductive Call where
  | writeSalt
  | writePassword
  | readInfo
  | writeRoom
  | readResponse
  | done (result : Except Halt Unit)

namespace Caller

/-- `EncryptedSession::new` for `Role::Sender` draws the salt. -/
def session (X : External) (a : Caller) : EncryptedSession :=
  ⟨AesEncryptor.new X a.symKey none a.salt⟩

/-- The frame of the `i`-th text that the client seals. -/
def sealed (X : External) (a : Caller) (i : ℕ) (text : String) : Except Halt Bytes := do
  let data ← (a.session X).write X (a.nonce i) (asBytes text)
  CrocProto.write data

/-- What becomes of the info message: the ports and the address that the client keeps. -/
def hearInfo (data : Except Halt Bytes) : Except Halt (List String × String) := do
  let data ← data
  let message ← orErr .utf8 (fromUtf8 data)
  orErr (.badResponse message) (parseInfo message)

def hearResponse (a : Caller) (data : Except Halt Bytes) : Except Halt Unit := do
  let response ← data
  if response = asBytes "ok" then .ok ()
  else if response = asBytes "room full" then .error (.err (.roomFull a.room))
  else .error (.err .roomNegotiationFailed)

end Caller

theorem isSome_splitOnce {sep : List Char} (hsep : sep ≠ []) (front back : List Char) :
    (splitOnce sep (front ++ (sep ++ back))).isSome := by
  induction front with
  | nil =>
    obtain ⟨c, cs, rfl⟩ := List.exists_cons_of_ne_nil hsep
    simp [splitOnce]
  | cons c front ih =>
    rw [List.cons_append, splitOnce]
    split
    · rfl
    · simpa using ih

end Croc.Server
