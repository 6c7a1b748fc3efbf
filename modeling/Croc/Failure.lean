import Croc.Lib.Bytes

/-! The ways a task of the program stops early: the errors it returns and the places where it
panics. -/
namespace Croc
open Lib

/-- The errors of the modelled functions. Errors of the operating system are all `io`. -/
inductive Error where
  | io
  | magicEof
  | badMagic (magic : Bytes)
  | sizeEof
  | sendFailed
  | tooLong
  | utf8
  | json
  | unparsable (data : Bytes)
  | sliceLength
  | aead
  | pake
  | join
  | prompt
  | channelClosed
  | keyNegotiationFailiure
  | curveNotSupported
  | curveNotInitialized
  | noRelayPort
  | noExternalIp
  | invalidState
  | transfareDenied
  | traversalError (path : String)
  | overwriteDenide
  | badResponse (message : String)
  | roomFull (room : String)
  | roomNegotiationFailed
  | unknownKeepaliveMessage (data : Bytes)
  | badSharedSecret (secret : String)
  deriving DecidableEq

/-- Rust's `{:?}` of a byte slice. -/
def debugBytes (bs : Bytes) : String := toString (bs.map UInt8.toNat)

/-- The message of an error that the program words itself. -/
def Error.text : Error → Option String
  | .magicEof => some "Could not read magic"
  | .badMagic magic => some ("Bad magic " ++ debugBytes magic)
  | .sizeEof => some "Could not read message size"
  | .sendFailed => some "Could not send message"
  | .unparsable data => some ("Could not parse received data: " ++ debugBytes data)
  | .channelClosed => some "Channel closed"
  | .keyNegotiationFailiure => some "Symmetric Key negotiation failed"
  | .curveNotSupported => some "Curve received is not supported"
  | .curveNotInitialized => some "Curve was not initialized"
  | .noRelayPort => some "Error, no relay port given"
  | .noExternalIp => some "Did not receive external IP"
  | .invalidState => some "Invalid State"
  | .transfareDenied => some "Transfare Denied"
  | .traversalError path => some ("Something went wrong with received response " ++ path)
  | .overwriteDenide => some "User denide file overwrite"
  | .badResponse message => some ("Something went wrong with received response " ++ message)
  | .roomFull room => some ("The room requested (" ++ room ++ ") is full")
  | .roomNegotiationFailed => some "Room negotiation failed for unknown reason"
  | .unknownKeepaliveMessage data =>
      some ("Got unknown bytes from relay while keepaliving " ++ debugBytes data)
  | .badSharedSecret secret => some ("Shared secret used in client is invalid " ++ secret)
  | .io | .tooLong | .utf8 | .json | .sliceLength | .aead | .pake | .join | .prompt => none

/-- The panicking expressions of the modelled functions. -/
inductive Panic where
  | nonceSlice
  | offsetSlice
  | seekUnwrap
  | writeUnwrap
  | roomTake
  | secretSlice
  | portIndex
  | todoSendWithoutKey
  | todoTypeError
  | filesUnwrap
  | receiveUnwrap
  | receiveWithoutKey
  | keyUnwrap
  | assertReceiver
  | assertSender
  | assertFileTransfare
  | fileIndex
  | pathUnwrap
  /-- Inside `rust_pake`, which takes the inverse of what it is sent for granted. -/
  | pakeUpdate
  deriving DecidableEq

/-- Why a computation did not return a value. -/
inductive Halt where
  | err (e : Error)
  | panic (p : Panic)
  deriving DecidableEq

/-- `Option` to `Result`, as `ok_or` and `map_err` do. -/
def orErr {α : Type*} (e : Error) : Option α → Except Halt α
  | some a => .ok a
  | none => .error (.err e)

@[simp] theorem orErr_some {α : Type*} (e : Error) (a : α) : orErr e (some a) = .ok a := rfl

@[simp] theorem orErr_none {α : Type*} (e : Error) :
    orErr e (none : Option α) = .error (.err e) := rfl

theorem orErr_eq_ok {α : Type*} {e : Error} {o : Option α} {a : α} :
    orErr e o = .ok a ↔ o = some a := by cases o <;> simp

theorem orErr_eq_error {α : Type*} {e : Error} {o : Option α} {h : Halt} :
    orErr e o = .error h ↔ o = none ∧ h = .err e := by cases o <;> simp [eq_comm]

/-- How `Pake::update` does not go through: it returns an `Err`, or panics. -/
inductive PakeFailure where
  | err | panic
  deriving DecidableEq

def PakeFailure.halt : PakeFailure → Halt
  | .err => .err .pake
  | .panic => .panic .pakeUpdate

/-- The result of `Pake::update` at the place that calls it. -/
def orPake {α : Type*} : Except PakeFailure α → Except Halt α
  | .ok a => .ok a
  | .error f => .error f.halt

@[simp] theorem orPake_ok {α : Type*} (a : α) : orPake (.ok a) = .ok a := rfl

@[simp] theorem orPake_error {α : Type*} (f : PakeFailure) :
    orPake (.error f : Except PakeFailure α) = .error f.halt := rfl

theorem orPake_eq_ok {α : Type*} {r : Except PakeFailure α} {a : α} :
    orPake r = .ok a ↔ r = .ok a := by cases r <;> simp

theorem orPake_eq_error {α : Type*} {r : Except PakeFailure α} {h : Halt} :
    orPake r = .error h ↔ ∃ f, r = .error f ∧ h = f.halt := by cases r <;> simp [eq_comm]

theorem PakeFailure.halt_cases (f : PakeFailure) :
    (∃ e, f.halt = .err e) ∨ f = .panic ∧ f.halt = .panic .pakeUpdate := by
  cases f
  · exact Or.inl ⟨.pake, rfl⟩
  · exact Or.inr ⟨rfl, rfl⟩

/-- A chain of fallible steps succeeds when each of them does. -/
theorem bind_eq_ok {α β : Type} {x : Except Halt α} {f : α → Except Halt β} {b : β} :
    x >>= f = .ok b ↔ ∃ a, x = .ok a ∧ f a = .ok b := by
  cases x <;> simp [bind, Except.bind]

end Croc
