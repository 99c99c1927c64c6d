/-
# Protocol rules

The rules in effect for one execution: a gas schedule, limits, and which
operations and state rules are active.  There is a configuration for each of
six upgrades, each an amendment of the one before.
-/

import Ethereum.Gas.Schedule

namespace Ethereum

/-- The rules in effect for one execution. -/
structure Config where
  schedule : Gas.Schedule
  /-- The largest number of items on the operand stack. -/
  stackLimit : Nat
  /-- Where writing to memory has to end. -/
  memoryLimit : Nat
  /-- The depth at which a frame can open no child. -/
  callStackLimit : Nat
  /-- The largest size of deployed code. -/
  createContractLimit : Option Nat
  /-- Whether a creation that cannot pay for its code fails, rather than leave
  an account without code. -/
  exceptionalFailureOnCodeDeposit : Bool
  /-- Whether the nonce of a new contract starts at one. -/
  createIncreaseNonce : Bool
  /-- Whether touched empty accounts are removed at the end of a transaction. -/
  clearEmptyAccounts : Bool
  hasDelegateCall : Bool
  hasStaticCall : Bool
  hasRevert : Bool
  hasReturnData : Bool
  hasBitwiseShifting : Bool
  hasCreate2 : Bool
  hasExtCodeHash : Bool
deriving DecidableEq, Repr

namespace Config

/-- The rules of Frontier. -/
def frontier : Config where
  schedule := .frontier
  stackLimit := 1024
  memoryLimit := Quantity.max
  callStackLimit := 1024
  createContractLimit := none
  exceptionalFailureOnCodeDeposit := false
  createIncreaseNonce := false
  clearEmptyAccounts := false
  hasDelegateCall := false
  hasStaticCall := false
  hasRevert := false
  hasReturnData := false
  hasBitwiseShifting := false
  hasCreate2 := false
  hasExtCodeHash := false

/-- The rules of Homestead. -/
def homestead : Config :=
  { frontier with
    schedule := .homestead
    exceptionalFailureOnCodeDeposit := true
    hasDelegateCall := true }

/-- The rules of Tangerine Whistle. -/
def tangerineWhistle : Config :=
  { homestead with schedule := .tangerineWhistle }

/-- The rules of Spurious Dragon. -/
def spuriousDragon : Config :=
  { tangerineWhistle with
    schedule := .spuriousDragon
    createContractLimit := some 0x6000
    createIncreaseNonce := true
    clearEmptyAccounts := true }

/-- The rules of Byzantium. -/
def byzantium : Config :=
  { spuriousDragon with
    hasStaticCall := true
    hasRevert := true
    hasReturnData := true }

/-- The rules of Petersburg. -/
def petersburg : Config :=
  { byzantium with
    hasBitwiseShifting := true
    hasCreate2 := true
    hasExtCodeHash := true }

end Config
end Ethereum
