import Ethereum.Block
import Ethereum.Bytes
import Ethereum.Config
import Ethereum.ContractAddress
import Ethereum.Crypto.Block
import Ethereum.Crypto.Keccak
import Ethereum.Crypto.Ripemd160
import Ethereum.Crypto.Secp256k1
import Ethereum.Crypto.Sha256
import Ethereum.Exit
import Ethereum.Frame
import Ethereum.Gas.Formula
import Ethereum.Gas.Schedule
import Ethereum.Instruction
import Ethereum.Interpreter.Cost
import Ethereum.Interpreter.Execute
import Ethereum.Interpreter.Machine
import Ethereum.Interpreter.Resume
import Ethereum.Interpreter.Spawn
import Ethereum.Interpreter.Step
import Ethereum.JumpTable
import Ethereum.Memory
import Ethereum.Opcode
import Ethereum.Precompile
import Ethereum.Program
import Ethereum.Proofs.ContractAddress
import Ethereum.Proofs.Gas.Exact
import Ethereum.Proofs.Interpreter.Addressing
import Ethereum.Proofs.Interpreter.Bequeathing
import Ethereum.Proofs.Interpreter.Charging
import Ethereum.Proofs.Interpreter.Effects
import Ethereum.Proofs.Interpreter.Expanding
import Ethereum.Proofs.Interpreter.Growing
import Ethereum.Proofs.Interpreter.Landing
import Ethereum.Proofs.Interpreter.Outcome
import Ethereum.Proofs.Interpreter.Paying
import Ethereum.Proofs.Interpreter.Quiet
import Ethereum.Proofs.Interpreter.Refusing
import Ethereum.Proofs.Interpreter.Resuming
import Ethereum.Proofs.Interpreter.Safety
import Ethereum.Proofs.Interpreter.Sound
import Ethereum.Proofs.Interpreter.Sparing
import Ethereum.Proofs.Interpreter.Spawning
import Ethereum.Proofs.Interpreter.Splitting
import Ethereum.Proofs.Interpreter.Stepping
import Ethereum.Proofs.Interpreter.Touching
import Ethereum.Proofs.Interpreter.Trading
import Ethereum.Proofs.Interpreter.Visiting
import Ethereum.Proofs.Memory
import Ethereum.Proofs.Programs
import Ethereum.Proofs.Recovery
import Ethereum.Proofs.Rlp.RoundTrip
import Ethereum.Proofs.State.Applying
import Ethereum.Proofs.State.Backing
import Ethereum.Proofs.State.Balances
import Ethereum.Proofs.State.Building
import Ethereum.Proofs.State.Caching
import Ethereum.Proofs.State.Changing
import Ethereum.Proofs.State.Entries
import Ethereum.Proofs.State.Flattening
import Ethereum.Proofs.State.Histories
import Ethereum.Proofs.State.Holding
import Ethereum.Proofs.State.Ranging
import Ethereum.Proofs.State.Reading
import Ethereum.Proofs.State.Refinement
import Ethereum.Proofs.State.Renewing
import Ethereum.Proofs.State.Replying
import Ethereum.Proofs.State.Retrying
import Ethereum.Proofs.State.Roots
import Ethereum.Proofs.State.Seen
import Ethereum.Proofs.State.Snapshots
import Ethereum.Proofs.State.Sound
import Ethereum.Proofs.State.Steady
import Ethereum.Proofs.State.Tracking
import Ethereum.Proofs.State.View
import Ethereum.Proofs.State.Writing
import Ethereum.Proofs.Transaction.Aborting
import Ethereum.Proofs.Transaction.Claiming
import Ethereum.Proofs.Transaction.Clearing
import Ethereum.Proofs.Transaction.Closing
import Ethereum.Proofs.Transaction.Conservation
import Ethereum.Proofs.Transaction.Deploying
import Ethereum.Proofs.Transaction.Ending
import Ethereum.Proofs.Transaction.Enduring
import Ethereum.Proofs.Transaction.Failing
import Ethereum.Proofs.Transaction.Forcing
import Ethereum.Proofs.Transaction.Isolation
import Ethereum.Proofs.Transaction.Living
import Ethereum.Proofs.Transaction.Metering
import Ethereum.Proofs.Transaction.Ordering
import Ethereum.Proofs.Transaction.Outlasting
import Ethereum.Proofs.Transaction.Regularity
import Ethereum.Proofs.Transaction.Safety
import Ethereum.Proofs.Transaction.Scopes
import Ethereum.Proofs.Transaction.Serving
import Ethereum.Proofs.Transaction.Starting
import Ethereum.Proofs.Transaction.Supply
import Ethereum.Proofs.Transaction.Surviving
import Ethereum.Proofs.Transaction.Terminating
import Ethereum.Proofs.Transaction.Trees
import Ethereum.Proofs.Transaction.Waiting
import Ethereum.Proofs.Trie.Answers
import Ethereum.Proofs.Trie.Binding
import Ethereum.Proofs.Trie.Canonical
import Ethereum.Proofs.Trie.Change
import Ethereum.Proofs.Trie.Coding
import Ethereum.Proofs.Trie.Committing
import Ethereum.Proofs.Trie.Contents
import Ethereum.Proofs.Trie.Covering
import Ethereum.Proofs.Trie.Descending
import Ethereum.Proofs.Trie.Grounding
import Ethereum.Proofs.Trie.Hashed
import Ethereum.Proofs.Trie.HexPrefix
import Ethereum.Proofs.Trie.Listed
import Ethereum.Proofs.Trie.Listing
import Ethereum.Proofs.Trie.Loading
import Ethereum.Proofs.Trie.Modes
import Ethereum.Proofs.Trie.Ordering
import Ethereum.Proofs.Trie.Path
import Ethereum.Proofs.Trie.Ranging
import Ethereum.Proofs.Trie.Reloading
import Ethereum.Proofs.Trie.Settling
import Ethereum.Proofs.Trie.Unfolding
import Ethereum.Proofs.Word.Modular
import Ethereum.Proofs.Word.Signed
import Ethereum.Quantity
import Ethereum.Rlp.Decode
import Ethereum.Rlp.Encode
import Ethereum.Stack
import Ethereum.State.Account
import Ethereum.State.Error
import Ethereum.State.Journal
import Ethereum.State.Overlay
import Ethereum.State.Scope
import Ethereum.State.Store
import Ethereum.State.World
import Ethereum.Trace
import Ethereum.Transaction.Lifecycle
import Ethereum.Transaction.Session
import Ethereum.Transaction.Tree
import Ethereum.Trie.Basic
import Ethereum.Trie.Commit
import Ethereum.Trie.Decode
import Ethereum.Trie.HexPrefix
import Ethereum.Trie.Listing
import Ethereum.Trie.Lookup
import Ethereum.Trie.Node
import Ethereum.Trie.Path
import Ethereum.Trie.Source
import Ethereum.Trie.Update
import Ethereum.Word.Arithmetic
import Ethereum.Word.Basic
import Ethereum.Word.Hex
import Ethereum.Word.Signed
