/-
# Instructions

The instructions of the machine.  Each has an opcode byte, a name, the number of
stack items that it takes and that it leaves, and a size in the code, which is
one byte and for pushes also their data.  A configuration enables some of them
only (`Instruction.enabledBy`), and an instruction set is a table of those that
are enabled, by opcode.
-/

import Ethereum.Config
import Ethereum.Opcode

namespace Ethereum

/-- Operations on one word. -/
inductive UnaryOp where
  | iszero | not
deriving DecidableEq, Repr

/-- Operations on two words. -/
inductive BinaryOp where
  | add | mul | sub | div | sdiv | mod | smod | exp | signextend
  | lt | gt | slt | sgt | eq | and | or | xor | byte | shl | shr | sar
deriving DecidableEq, Repr

/-- Operations on three words. -/
inductive TernaryOp where
  | addmod | mulmod
deriving DecidableEq, Repr

/-- Words that a frame knows without any operand. -/
inductive FrameField where
  | address | origin | caller | callvalue | calldatasize | codesize | gasprice | returndatasize
  | coinbase | timestamp | number | difficulty | gaslimit | pc | msize | gas
deriving DecidableEq, Repr

/-- Words that are read off an account. -/
inductive AccountField where
  | balance | extcodesize | extcodehash
deriving DecidableEq, Repr

/-- Data of a frame that can be copied into memory. -/
inductive DataSource where
  | calldata | code | returndata
deriving DecidableEq, Repr

/-- How a call treats its target. -/
inductive CallScheme where
  /-- Runs the target on its own account. -/
  | call
  /-- Runs the code of the target on the account of the caller. -/
  | callCode
  /-- As `callCode`, with the sender and value of the caller's own frame. -/
  | delegateCall
  /-- As `call`, without value and without any change of the state. -/
  | staticCall
deriving DecidableEq, Repr

/-- Whether the operands of a call include a value. -/
def CallScheme.takesValue : CallScheme → Bool
  | call | callCode => true
  | delegateCall | staticCall => false

/-- An instruction. -/
inductive Instruction where
  | stop
  | unary (op : UnaryOp)
  | binary (op : BinaryOp)
  | ternary (op : TernaryOp)
  | sha3
  | field (field : FrameField)
  | account (field : AccountField)
  | calldataload
  | copy (source : DataSource)
  | extcodecopy
  | blockhash
  | pop
  | mload
  | mstore
  | mstore8
  | sload
  | sstore
  | jump
  | jumpi
  | jumpdest
  /-- Pushes the next `n + 1` bytes of the code. -/
  | push (n : Fin 32)
  /-- Copies the item at position `n`. -/
  | dup (n : Fin 16)
  /-- Exchanges the top with the item at position `n + 1`. -/
  | swap (n : Fin 16)
  | log (topics : Fin 5)
  | create
  | create2
  | call (scheme : CallScheme)
  | ret
  | revert
  | invalid
  | selfdestruct
deriving DecidableEq, Repr

/-- What is said about an instruction: its opcode, its name or that of its family,
the number of stack items that it takes and that it leaves. -/
structure Signature where
  opcode : UInt8
  family : String
  consumed : Nat
  produced : Nat
deriving DecidableEq, Repr

namespace Instruction

/-- The signature of an instruction. -/
def signature : Instruction → Signature
  | stop => ⟨0x00, "STOP", 0, 0⟩
  | binary .add => ⟨0x01, "ADD", 2, 1⟩
  | binary .mul => ⟨0x02, "MUL", 2, 1⟩
  | binary .sub => ⟨0x03, "SUB", 2, 1⟩
  | binary .div => ⟨0x04, "DIV", 2, 1⟩
  | binary .sdiv => ⟨0x05, "SDIV", 2, 1⟩
  | binary .mod => ⟨0x06, "MOD", 2, 1⟩
  | binary .smod => ⟨0x07, "SMOD", 2, 1⟩
  | ternary .addmod => ⟨0x08, "ADDMOD", 3, 1⟩
  | ternary .mulmod => ⟨0x09, "MULMOD", 3, 1⟩
  | binary .exp => ⟨0x0a, "EXP", 2, 1⟩
  | binary .signextend => ⟨0x0b, "SIGNEXTEND", 2, 1⟩
  | binary .lt => ⟨0x10, "LT", 2, 1⟩
  | binary .gt => ⟨0x11, "GT", 2, 1⟩
  | binary .slt => ⟨0x12, "SLT", 2, 1⟩
  | binary .sgt => ⟨0x13, "SGT", 2, 1⟩
  | binary .eq => ⟨0x14, "EQ", 2, 1⟩
  | unary .iszero => ⟨0x15, "ISZERO", 1, 1⟩
  | binary .and => ⟨0x16, "AND", 2, 1⟩
  | binary .or => ⟨0x17, "OR", 2, 1⟩
  | binary .xor => ⟨0x18, "XOR", 2, 1⟩
  | unary .not => ⟨0x19, "NOT", 1, 1⟩
  | binary .byte => ⟨0x1a, "BYTE", 2, 1⟩
  | binary .shl => ⟨0x1b, "SHL", 2, 1⟩
  | binary .shr => ⟨0x1c, "SHR", 2, 1⟩
  | binary .sar => ⟨0x1d, "SAR", 2, 1⟩
  | sha3 => ⟨0x20, "SHA3", 2, 1⟩
  | field .address => ⟨0x30, "ADDRESS", 0, 1⟩
  | account .balance => ⟨0x31, "BALANCE", 1, 1⟩
  | field .origin => ⟨0x32, "ORIGIN", 0, 1⟩
  | field .caller => ⟨0x33, "CALLER", 0, 1⟩
  | field .callvalue => ⟨0x34, "CALLVALUE", 0, 1⟩
  | calldataload => ⟨0x35, "CALLDATALOAD", 1, 1⟩
  | field .calldatasize => ⟨0x36, "CALLDATASIZE", 0, 1⟩
  | copy .calldata => ⟨0x37, "CALLDATACOPY", 3, 0⟩
  | field .codesize => ⟨0x38, "CODESIZE", 0, 1⟩
  | copy .code => ⟨0x39, "CODECOPY", 3, 0⟩
  | field .gasprice => ⟨0x3a, "GASPRICE", 0, 1⟩
  | account .extcodesize => ⟨0x3b, "EXTCODESIZE", 1, 1⟩
  | extcodecopy => ⟨0x3c, "EXTCODECOPY", 4, 0⟩
  | field .returndatasize => ⟨0x3d, "RETURNDATASIZE", 0, 1⟩
  | copy .returndata => ⟨0x3e, "RETURNDATACOPY", 3, 0⟩
  | account .extcodehash => ⟨0x3f, "EXTCODEHASH", 1, 1⟩
  | blockhash => ⟨0x40, "BLOCKHASH", 1, 1⟩
  | field .coinbase => ⟨0x41, "COINBASE", 0, 1⟩
  | field .timestamp => ⟨0x42, "TIMESTAMP", 0, 1⟩
  | field .number => ⟨0x43, "NUMBER", 0, 1⟩
  | field .difficulty => ⟨0x44, "DIFFICULTY", 0, 1⟩
  | field .gaslimit => ⟨0x45, "GASLIMIT", 0, 1⟩
  | pop => ⟨0x50, "POP", 1, 0⟩
  | mload => ⟨0x51, "MLOAD", 1, 1⟩
  | mstore => ⟨0x52, "MSTORE", 2, 0⟩
  | mstore8 => ⟨0x53, "MSTORE8", 2, 0⟩
  | sload => ⟨0x54, "SLOAD", 1, 1⟩
  | sstore => ⟨0x55, "SSTORE", 2, 0⟩
  | jump => ⟨0x56, "JUMP", 1, 0⟩
  | jumpi => ⟨0x57, "JUMPI", 2, 0⟩
  | field .pc => ⟨0x58, "PC", 0, 1⟩
  | field .msize => ⟨0x59, "MSIZE", 0, 1⟩
  | field .gas => ⟨0x5a, "GAS", 0, 1⟩
  | jumpdest => ⟨Opcode.jumpdest, "JUMPDEST", 0, 0⟩
  | push n => ⟨UInt8.ofNat (0x60 + n), "PUSH", 0, 1⟩
  | dup n => ⟨UInt8.ofNat (0x80 + n), "DUP", n + 1, n + 2⟩
  | swap n => ⟨UInt8.ofNat (0x90 + n), "SWAP", n + 2, n + 2⟩
  | log n => ⟨UInt8.ofNat (0xa0 + n), "LOG", n + 2, 0⟩
  | create => ⟨0xf0, "CREATE", 3, 1⟩
  | call .call => ⟨0xf1, "CALL", 7, 1⟩
  | call .callCode => ⟨0xf2, "CALLCODE", 7, 1⟩
  | ret => ⟨0xf3, "RETURN", 2, 0⟩
  | call .delegateCall => ⟨0xf4, "DELEGATECALL", 6, 1⟩
  | create2 => ⟨0xf5, "CREATE2", 4, 1⟩
  | call .staticCall => ⟨0xfa, "STATICCALL", 6, 1⟩
  | revert => ⟨0xfd, "REVERT", 2, 0⟩
  | invalid => ⟨0xfe, "INVALID", 0, 0⟩
  | selfdestruct => ⟨0xff, "SELFDESTRUCT", 1, 0⟩

/-- The number of an instruction in its family, if it has one. -/
def number? : Instruction → Option Nat
  | push n => some (n + 1)
  | dup n => some (n + 1)
  | swap n => some (n + 1)
  | log n => some n
  | _ => none

/-- The name. -/
def name (i : Instruction) : String :=
  i.signature.family ++ (i.number?.map toString).getD ""

/-- The opcode byte. -/
def opcode (i : Instruction) : UInt8 := i.signature.opcode

/-- The number of stack items that the instruction takes. -/
def consumed (i : Instruction) : Nat := i.signature.consumed

/-- The number of stack items that the instruction leaves. -/
def produced (i : Instruction) : Nat := i.signature.produced

/-- Whether the instruction itself may say where the code goes on. -/
def altersControlFlow : Instruction → Bool
  | jump | jumpi => true
  | _ => false

/-- The number of bytes of code that the instruction takes up. -/
def size : Instruction → Nat
  | push n => n + 2
  | _ => 1

/-- The instructions, apart from pushes, dups, swaps and logs. -/
def unnumbered : List Instruction :=
  [stop, sha3, calldataload, extcodecopy, blockhash, pop, mload, mstore, mstore8, sload, sstore,
    jump, jumpi, jumpdest, create, create2, ret, revert, invalid, selfdestruct] ++
  [UnaryOp.iszero, .not].map unary ++
  [BinaryOp.add, .mul, .sub, .div, .sdiv, .mod, .smod, .exp, .signextend, .lt, .gt, .slt, .sgt,
    .eq, .and, .or, .xor, .byte, .shl, .shr, .sar].map binary ++
  [TernaryOp.addmod, .mulmod].map ternary ++
  [FrameField.address, .origin, .caller, .callvalue, .calldatasize, .codesize, .gasprice,
    .returndatasize, .coinbase, .timestamp, .number, .difficulty, .gaslimit, .pc, .msize,
    .gas].map field ++
  [AccountField.balance, .extcodesize, .extcodehash].map account ++
  [DataSource.calldata, .code, .returndata].map copy ++
  [CallScheme.call, .callCode, .delegateCall, .staticCall].map call

/-- All instructions. -/
def all : List Instruction :=
  unnumbered ++ (List.finRange 32).map push ++ (List.finRange 16).map dup ++
    (List.finRange 16).map swap ++ (List.finRange 5).map log

/-- The instruction with an opcode. -/
def ofOpcode? (b : UInt8) : Option Instruction :=
  all.find? fun i => i.opcode == b

/-- Whether a configuration has the instruction. -/
def enabledBy (c : Config) : Instruction → Bool
  | binary .shl | binary .shr | binary .sar => c.hasBitwiseShifting
  | field .returndatasize | copy .returndata => c.hasReturnData
  | account .extcodehash => c.hasExtCodeHash
  | call .delegateCall => c.hasDelegateCall
  | call .staticCall => c.hasStaticCall
  | create2 => c.hasCreate2
  | revert => c.hasRevert
  | _ => true

end Instruction

/-- The instructions that code may use, by opcode. -/
structure InstructionSet where
  table : Array (Option Instruction)

namespace InstructionSet

/-- The set without instructions. -/
def empty : InstructionSet := ⟨Array.replicate 256 none⟩

/-- The instructions that a configuration has. -/
def ofConfig (c : Config) : InstructionSet :=
  ⟨Array.ofFn fun i : Fin 256 => (Instruction.ofOpcode? (UInt8.ofNat i)).filter (·.enabledBy c)⟩

/-- The instruction with an opcode. -/
def get? (s : InstructionSet) (opcode : UInt8) : Option Instruction :=
  s.table[opcode.toNat]?.join

/-- The set without the instruction with an opcode. -/
def erase (s : InstructionSet) (opcode : UInt8) : InstructionSet :=
  ⟨s.table.setIfInBounds opcode.toNat none⟩

/-- The instructions, by opcode. -/
def toList (s : InstructionSet) : List Instruction :=
  s.table.toList.filterMap id

/-- The number of instructions. -/
def size (s : InstructionSet) : Nat := s.toList.length

/-- Whether there is no instruction. -/
def isEmpty (s : InstructionSet) : Bool := s.size = 0

end InstructionSet
end Ethereum
