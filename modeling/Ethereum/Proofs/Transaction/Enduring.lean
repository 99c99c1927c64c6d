/-
# Code and nonces across transactions

What a transaction writes was found by the journal that its tree leaves, and that is built over the
world from before (`Transact.tree_builds`).  So nonces are not lowered, and code is set only where
there was none (`Overlay.Follows`).  What is found is not missing where the world has an account, and
what is empty is over an account without code and nonce, so clearing empty accounts deletes no
other, and an account with code or a nonce is gone only because a surviving frame deleted it
(`Session.code_and_nonces_stable`).

Code is kept under its hash, apart from accounts.  So which code an account has afterwards is told
where hashes tell apart the addresses that are involved, and new code from other code
(`Session.Recoded`).  Then the new code of different accounts is found at different addresses, and
all of it was paid for by the tree (`Session.new_code_is_paid`).
-/

import Mathlib
import Ethereum.Proofs.State.Backing
import Ethereum.Proofs.Transaction.Claiming
import Ethereum.Proofs.Transaction.Clearing
import Ethereum.Proofs.Transaction.Deploying
import Ethereum.Proofs.Transaction.Serving
import Ethereum.Proofs.Transaction.Surviving

namespace Ethereum

namespace World

variable {store : Store} {w w' : World} {a a' : Account} {code : Bytes} {new : Set Bytes}

theorem accountCode_of_codes (hne : a.codeHash ≠ Store.emptyCodeHash)
    (h : w.codes[a.codeHash]? = some code) : w.accountCode store a = .ok code := by
  rw [accountCode, if_neg hne, h]
  rfl

/-- The second world has the code of the first, but for new code under its hash. -/
def AddsCode (new : Set Bytes) (w w' : World) : Prop :=
  ∀ h : Hash, w'.codes[h]? = w.codes[h]? ∨ ∃ code ∈ new, keccak code = h ∧ w'.codes[h]? = some code

/-- A record has the same code in both worlds, if new code of that hash is the same. -/
theorem AddsCode.accountCode_eq (h : AddsCode new w w')
    (hsame : a.codeHash ≠ Store.emptyCodeHash → ∀ c ∈ new, keccak c = a.codeHash →
      w.accountCode store a = .ok c) : w'.accountCode store a = w.accountCode store a := by
  by_cases hempty : a.codeHash = Store.emptyCodeHash
  · rw [accountCode_of_empty w hempty, accountCode_of_empty w' hempty]
  · rcases h a.codeHash with hcodes | ⟨c, hc, hkeccak, hcode⟩
    · rw [accountCode, accountCode, hcodes]
    · rw [accountCode_of_codes hempty hcode, hsame hempty c hc hkeccak]

end World

namespace Session

open Transact

variable {setting : SessionSetting} {t : Transaction} {s s' s₁ : Session} {w w' : World}
  {receipt : Receipt} {f : Frame} {scope : Scope} {address x : Address} {n : Nat}

/-- The new code in the journal at the end of the tree of a transaction. -/
def deployed (setting : SessionSetting) (t : Transaction) (s : Session) : Set Bytes :=
  { code | ∃ address o, (s.treeEnd setting t).1.scope.lookup address = some (some o) ∧
    o.newCode = some code }

/-- A transaction that ran its tree over a world has written a scope.  Its new code is no longer than
`n`, and paid for with the gas of the tree. -/
structure Wrote (setting : SessionSetting) (t : Transaction) (s : Session) (w w' : World) (f : Frame)
    (scope : Scope) (n : Nat) : Prop where
  tree_eq : ∃ s₁, tree t setting (s.opened t) = .ok f s₁
  deletions_eq : (s.treeEnd setting t).2 = f.deletions
  built : (s.treeEnd setting t).1.Built setting.store setting.config.createContractLimit w n
  paid : t.gasLimit - setting.intrinsic t < Quantity.max →
    f.gas + 200 * n ≤ t.gasLimit - setting.intrinsic t
  lookup_eq : ∀ address,
    scope.lookup address = written setting f (s.treeEnd setting t).1.scope address
  writes : World.applyScope setting.store scope w = .ok () w'

/-- A transaction that did not end fatally was rejected, or wrote a scope. -/
theorem transact_writes (hfresh : s.journal = .ofWorld w)
    (hrun : s.transact setting t = (receipt, s')) (hfatal : ∀ e, receipt.reason ≠ .fatal e) :
    ∃ w', s'.journal = .ofWorld w' ∧
      ((∃ reason s₁, tree t setting (s.opened t) = .error reason s₁ ∧ w' = w) ∨
        ∃ f scope n, s.Wrote setting t w w' f scope n) := by
  obtain ⟨w', hw', hconcluded⟩ := transact_concludes hfresh hrun hfatal
  refine ⟨w', hw', ?_⟩
  cases hconcluded with
  | rejected htree hworld => exact .inl ⟨_, _, htree, hworld⟩
  | @wrote f s₁ scope htree hregular hover hlookup hwrites =>
    obtain ⟨n, hbuilt, hpaid⟩ := tree_builds ((journal_opened t s).trans hfresh) htree
    have hend : s.treeEnd setting t = (s₁.journal, f.deletions) := by
      rw [treeEnd, htree]
    refine .inr ⟨f, scope, n, ⟨s₁, htree⟩, congrArg Prod.snd hend, ?_, hpaid, ?_, hwrites⟩
    · exact hend ▸ hbuilt
    · exact hend ▸ hlookup

namespace Wrote

/-- What is written was held by the journal that the tree left, and follows what the world had at all
addresses of its hash. -/
theorem of_lookup (h : s.Wrote setting t w w' f scope n) {o : Overlay}
    (ho : scope.lookup address = some (some o)) (hhash : address.hash = x.hash) :
    (s.treeEnd setting t).1.scope.lookup address = some (some o) ∧
      ∃ before, w.account? setting.store x = .ok before ∧
        o.Follows setting.config.createContractLimit before := by
  have hheld := (held_of_written ((h.lookup_eq address).symm.trans ho)).1
  obtain ⟨before, hbefore, -, hfollows⟩ := h.built.of_lookup hheld hhash
  exact ⟨hheld, before, hbefore, hfollows o rfl⟩

theorem liesAt (h : s.Wrote setting t w w' f scope n) (a : Address) (o : Overlay)
    (ho : scope.lookup a = some (some o)) : o.LiesAt a :=
  (h.built.regular _ List.mem_cons_self).liesAt a o (h.of_lookup ho rfl).1

/-- The code under a hash afterwards: new code, or what was there. -/
theorem codes_cases (h : s.Wrote setting t w w' f scope n) (hash : Hash) :
    (∃ code ∈ s.deployed setting t, keccak code = hash ∧ w'.codes[hash]? = some code) ∨
      (∀ code, ¬ scope.HasCode hash code) ∧ w'.codes[hash]? = w.codes[hash]? := by
  rcases World.codes_applyScope h.liesAt h.writes hash with ⟨code, hcode, hread⟩ | hold
  · obtain ⟨-, a, o, ho, hnew, rfl⟩ := hcode
    obtain ⟨hheld, before, -, hfollows⟩ := h.of_lookup ho rfl
    exact .inl ⟨code, ⟨a, o, hheld, hnew⟩, (hfollows.deployed code hnew).1.symm, hread⟩
  · exact .inr hold

/-- **The code that a transaction adds** is its new code. -/
theorem addsCode (h : s.Wrote setting t w w' f scope n) :
    World.AddsCode (s.deployed setting t) w w' := fun hash =>
  (h.codes_cases hash).symm.imp_left And.right

end Wrote

/-- New code is within the limit. -/
theorem Wrote.length_le (h : s.Wrote setting t w w' f scope n) {code : Bytes}
    (hcode : code ∈ s.deployed setting t) :
    ∀ most ∈ setting.config.createContractLimit, code.length ≤ most := by
  obtain ⟨address, o, hlookup, hnew⟩ := hcode
  obtain ⟨before, -, -, hfollows⟩ := h.built.of_lookup hlookup rfl
  exact ((hfollows o rfl).deployed code hnew).2.2

namespace Wrote

variable {before : Bytes}

/-- **New code is found** where the transaction left it, where hashes tell apart the addresses that
are written, and new code. -/
theorem code_eq (h : s.Wrote setting t w w' f scope n) {o : Overlay} {code : Bytes}
    (ho : scope.lookup address = some (some o)) (hnew : o.newCode = some code)
    (hne : keccak code ≠ Store.emptyCodeHash)
    (haddresses : ∀ a, scope.lookup a ≠ none → a.hash = address.hash → a = address)
    (hcodes : ∀ c ∈ s.deployed setting t, keccak c = keccak code → c = code) :
    w'.code setting.store address = .ok code := by
  obtain ⟨-, before, hbefore, hfollows⟩ := h.of_lookup ho rfl
  have hkeccak := (hfollows.deployed code hnew).1
  cases World.written_applyScope h.liesAt h.writes address with
  | kept hnone => cases (hnone address rfl).symm.trans ho
  | gone hhash hgone =>
    obtain rfl := haddresses _ (by simp [hgone]) hhash
    cases hgone.symm.trans ho
  | renewed hhash hlookup haccount =>
    obtain rfl := haddresses _ (by simp [hlookup]) hhash
    obtain rfl := Option.some.inj (Option.some.inj (hlookup.symm.trans ho))
    rcases h.codes_cases _ with ⟨c, hc, hsame, hread⟩ | ⟨hnone, -⟩
    · obtain rfl := hcodes c hc (hsame.trans hkeccak)
      rw [World.code, haccount]
      exact World.accountCode_of_codes (fun h => hne (hkeccak.symm.trans h)) hread
    · exact absurd ⟨fun hnil => hne (hnil ▸ keccak_nil), _, _, hlookup, hnew, rfl⟩ (hnone code)

end Wrote

/-- The session over the empty world. -/
def emptySession : Session := .ofJournal (.ofWorld .empty) .off

/-- The session over the empty world when a creation has begun. -/
def creationBegun (t : Transaction) : Session :=
  { emptySession with
    journal := (Journal.ofWorld .empty).put (.fresh t.sender 1 0)
    trace := Trace.off.emit
      (.transactCreate t.sender t.value t.data t.gasLimit (createdAddress t 0)) }

/-- What a creation over the empty world asks for. -/
def creationMessage (setting : SessionSetting) (t : Transaction) : Message :=
  message setting t .creation (createdAddress t 0) t.data (t.gasLimit - setting.intrinsic t)

/-- The machine that the tree of a creation over the empty world starts from. -/
def creationRoot (setting : SessionSetting) (t : Transaction) : Machine :=
  setting.root (creationMessage setting t) (creationBegun t)

/-- **A creation of no value** asks for its message, and raises the nonce of its sender. -/
theorem order_creation (htarget : t.target = none) (hvalue : t.value = 0)
    (hgas : setting.intrinsic t ≤ t.gasLimit) : order t setting (emptySession.opened t) =
      .ok (creationMessage setting t) (creationBegun t) := by
  have hfind := Journal.find?_empty setting.store t.sender
  have hbalance : (Journal.ofWorld .empty).balance setting.store t.sender = .ok 0 := by
    rw [Journal.balance, hfind]
    rfl
  have hnonce : Journal.incrementNonce setting.store t.sender (.ofWorld .empty) =
      .ok 0 ((Journal.ofWorld .empty).put (.fresh t.sender 1 0)) :=
    Journal.incrementNonce_eq (Journal.findOrFresh_of_absent hfind)
  have hbegin : begin t setting emptySession = .ok (t.gasLimit - setting.intrinsic t, 0)
      { emptySession with journal := (Journal.ofWorld .empty).put (.fresh t.sender 1 0) } :=
    begin_eq_ok hgas hbalance (by rw [hvalue]; decide) hnonce
  rw [opened, htarget]
  exact order_eq_of_creation htarget hbegin

/-- There is no account yet at the address of the contract. -/
theorem claims_creation (hne : createdAddress t 0 ≠ t.sender) :
    Lifecycle.Claims setting.toSetting { creationRoot setting t with
      journal := (creationRoot setting t).journal.enter } where
  state := rfl
  kind := rfl
  absent := by
    have hput : (creationBegun t).journal.find? setting.store (createdAddress t 0) = .ok none := by
      rw [creationBegun, Journal.find?_put]
      exact (if_neg hne).trans (Journal.find?_empty _ _)
    exact (Journal.find?_enter _ _).trans hput

/-- A creation over the empty world does not end fatally, where the bytes that it hashes are told
apart. -/
theorem reason_creation {known : List Bytes}
    (hlimit : setting.config.memoryLimit = Quantity.max) (hstore : setting.store = .empty)
    (hcol : Collisionless ([] :: Node.null.encode :: known))
    (hhashed : Transact.hashed setting t (emptySession.opened t) ⊆ known) (e : ExitFatal) :
    (emptySession.transact setting t).1.reason ≠ .fatal e := by
  have hsound : emptySession.journal.Sound ([] :: Node.null.encode :: known) setting.store :=
    hstore ▸ ⟨_, Ledger.refines_start
      ⟨hcol, List.mem_cons_self, List.mem_cons_of_mem _ List.mem_cons_self⟩ ∅⟩
  have hknown := List.Subset.trans hhashed
    (List.subset_cons_of_subset [] (List.subset_cons_self Node.null.encode _))
  intro he
  have hreason := (transact_safe hsound hlimit hknown).2
  rw [he] at hreason
  cases hreason

end Session
end Ethereum
