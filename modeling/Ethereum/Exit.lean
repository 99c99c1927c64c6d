/-
# Why code stops

Running code ends in success, in an error of the code, in a deliberate revert,
or fatally, when the state that it runs on cannot be read.  Errors consume the
gas of their frame and are settled by its parent; a fatal reason aborts the
whole transaction.
-/

import Ethereum.Word.Hex

namespace Ethereum

/-- How code ends well. -/
inductive ExitSucceed where
  /-- An explicit stop, or the end of the code. -/
  | stopped
  /-- An explicit return. -/
  | returned
  /-- The account deleted itself. -/
  | selfDestructed
deriving DecidableEq, Repr

/-- Errors of the code.  Each halts its frame and consumes the frame's gas. -/
inductive ExitError where
  | stackUnderflow
  | stackOverflow
  | invalidJump
  | invalidRange
  | designatedInvalid
  | invalidCode (opcode : UInt8)
  | callTooDeep
  | createCollision
  | createContractLimit
  | outOfOffset
  | outOfGas
  | outOfFund
  | staticModeViolation
  | precompileFailure
  | other (text : String)
deriving DecidableEq, Repr

/-- Reasons that abort the whole tree of frames. -/
inductive ExitFatal where
  | notSupported
  | unhandledInterrupt
  | storageCorrupted (text : String)
  | other (text : String)
deriving DecidableEq, Repr

namespace ExitSucceed

/-- The name of a way to end well. -/
def name : ExitSucceed → String
  | stopped => "Stopped"
  | returned => "Returned"
  | selfDestructed => "SelfDestructed"

end ExitSucceed

namespace ExitError

/-- The name of an error. -/
def name : ExitError → String
  | stackUnderflow => "StackUnderflow"
  | stackOverflow => "StackOverflow"
  | invalidJump => "InvalidJump"
  | invalidRange => "InvalidRange"
  | designatedInvalid => "DesignatedInvalid"
  | invalidCode _ => "InvalidCode"
  | callTooDeep => "CallTooDeep"
  | createCollision => "CreateCollision"
  | createContractLimit => "CreateContractLimit"
  | outOfOffset => "OutOfOffset"
  | outOfGas => "OutOfGas"
  | outOfFund => "OutOfFund"
  | staticModeViolation => "StaticModeViolation"
  | precompileFailure => "PrecompileFailure"
  | other _ => "Other"

/-- What an error says beyond its name. -/
def detail? : ExitError → Option String
  | invalidCode opcode => some ("0x" ++ Hex.bytes [opcode])
  | other text => some text
  | _ => none

end ExitError

namespace ExitFatal

/-- The name of a fatal reason. -/
def name : ExitFatal → String
  | notSupported => "NotSupported"
  | unhandledInterrupt => "UnhandledInterrupt"
  | storageCorrupted _ => "StorageCorrupted"
  | other _ => "Other"

/-- The text of a fatal reason. -/
def message : ExitFatal → String
  | notSupported => "operation not supported"
  | unhandledInterrupt => "unhandled interrupt"
  | storageCorrupted text => "storage corrupted: " ++ text
  | other text => text

end ExitFatal

/-- Why a frame or a transaction ended. -/
inductive ExitReason where
  | succeed (how : ExitSucceed)
  | error (error : ExitError)
  | revert
  | fatal (fatal : ExitFatal)
deriving DecidableEq, Repr

namespace ExitReason

/-- The text of a reason: its kind, its name, and in parentheses what it says
beyond that. -/
def text : ExitReason → String
  | succeed how => "Succeed:" ++ how.name
  | error e => "Error:" ++ e.name ++ (e.detail?.map fun d => "(" ++ d ++ ")").getD ""
  | revert => "Revert:Reverted"
  | fatal f => "Fatal:" ++ f.name ++ "(" ++ f.message ++ ")"

/-- Whether the code ended well. -/
def isSucceed : ExitReason → Bool
  | succeed _ => true
  | _ => false

/-- Whether the code ended in an error of its own. -/
def isError : ExitReason → Bool
  | error _ => true
  | _ => false

/-- Whether the code reverted. -/
def isRevert : ExitReason → Bool
  | revert => true
  | _ => false

/-- Whether the whole tree of frames was aborted. -/
def isFatal : ExitReason → Bool
  | fatal _ => true
  | _ => false

end ExitReason
end Ethereum
