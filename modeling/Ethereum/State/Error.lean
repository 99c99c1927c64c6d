/-
# Failures of the state

Reading or writing the state fails when the store behind it fails, or when what
it holds is missing or does not decode.  Code that runs on the state ends fatally
then.
-/

import Ethereum.Exit
import Ethereum.Trie.Basic
import Ethereum.Word.Hex

namespace Ethereum

namespace TrieError

/-- The name of a failure to read a trie. -/
def name : TrieError → String
  | missingNode _ => "MissingNode"
  | malformedNode _ _ => "MalformedNode"

/-- The text of a failure to read a trie. -/
def message : TrieError → String
  | missingNode h => "trie node " ++ h.text ++ " is missing from storage"
  | malformedNode h cause => "trie node " ++ h.text ++ " is malformed: " ++ cause.message

end TrieError

/-- Failures of a key-value store. -/
inductive StoreError where
  | readRefused
  | diskFull
deriving DecidableEq, Repr

namespace StoreError

/-- The text of a failure of the store. -/
def message : StoreError → String
  | readRefused => "key-value storage failure: read refused"
  | diskFull => "key-value storage failure: disk full"

end StoreError

/-- Failures of the state. -/
inductive StateError where
  | trie (error : TrieError)
  | decoder (cause : DecodeError)
  | store (error : StoreError)
  | missingCode (h : Hash)
  | accountEnumeration
deriving DecidableEq, Repr

namespace StateError

/-- The name of a failure of the state. -/
def name : StateError → String
  | trie _ => "Trie"
  | decoder _ => "Decoder"
  | store _ => "Storage"
  | missingCode _ => "MissingCode"
  | accountEnumeration => "Unsupported"

/-- The text of a failure of the state. -/
def message : StateError → String
  | trie error => error.message
  | decoder cause => "malformed state entry: " ++ cause.message
  | store error => error.message
  | missingCode h => "code " ++ h.text ++ " is missing from storage"
  | accountEnumeration => "account enumeration is not supported"

/-- The fatal reason that a failure of the state is for running code. -/
def toFatal : StateError → ExitFatal
  | accountEnumeration => .notSupported
  | error => .storageCorrupted error.message

end StateError
end Ethereum
