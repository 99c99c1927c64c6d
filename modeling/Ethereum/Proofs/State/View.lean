/-
# What overlays and scopes show

Seen from outside, the state is a map from addresses to plain data (`Plain`).  An
overlay shows an account, its code and its slots taken from the account under it
where they were not changed (`Overlay.plain`).  A scope shows what it holds over what
is below it (`Scope.view`), and nested scopes show one map each, the innermost first
(`views`).

Merging a scope into the one around it shows what the inner one showed
(`view_merge`).  An account that was deleted and put again since, or put and deleted,
makes no difference, as long as a scope holds no overlay of an account that it
deleted (`Scope.Separate`).
-/

import Mathlib
import Std.Data.ExtTreeMap.Lemmas
import Std.Data.ExtTreeSet.Lemmas
import Ethereum.State.Journal

namespace Ethereum

/-! ## Functions changed at many places -/

section
variable {ι α β : Type} [DecidableEq α] {key : ι → α} {value : ι → β} {a : α}

/-- Changes elsewhere leave a value. -/
theorem foldl_update_of_ne {l : List ι} (h : ∀ x ∈ l, key x ≠ a) (f : α → β) :
    l.foldl (fun f x => Function.update f (key x) (value x)) f a = f a := by
  induction l generalizing f with
  | nil => rfl
  | cons x l ih =>
    rw [List.foldl_cons, ih (fun y hy => h y (List.mem_cons_of_mem x hy)),
      Function.update_of_ne (h x List.mem_cons_self).symm]

/-- Changes that agree at a place leave the value they agree on. -/
theorem foldl_update_of_mem {l : List ι} {b : β} (hl : ∃ x ∈ l, key x = a)
    (h : ∀ x ∈ l, key x = a → value x = b) (f : α → β) :
    l.foldl (fun f x => Function.update f (key x) (value x)) f a = b := by
  induction l generalizing f with
  | nil => exact absurd hl (by simp)
  | cons x l ih =>
    rw [List.foldl_cons]
    by_cases htail : ∃ y ∈ l, key y = a
    · exact ih htail (fun y hy => h y (List.mem_cons_of_mem x hy)) _
    · have hx : key x = a := by
        obtain ⟨y, hy, hya⟩ := hl
        rcases List.mem_cons.mp hy with rfl | hy
        · exact hya
        · exact absurd ⟨y, hy, hya⟩ htail
      rw [foldl_update_of_ne fun y hy hya => htail ⟨y, hy, hya⟩, ← hx, Function.update_self]
      exact h x List.mem_cons_self hx

/-- Writing the entries of a map into a function. -/
theorem foldl_toList_update {κ ν : Type} [Ord κ] [Std.TransOrd κ] [Std.LawfulEqOrd κ]
    [DecidableEq κ] (m : Std.ExtTreeMap κ ν) (value : κ × ν → β) (f : κ → β) (k : κ) :
    m.toList.foldl (fun f x => Function.update f x.1 (value x)) f k =
      match m[k]? with
      | some v => value (k, v)
      | none => f k := by
  split
  · rename_i v hv
    have hmem : (k, v) ∈ m.toList := Std.ExtTreeMap.mem_toList_iff_getElem?_eq_some.mpr hv
    refine foldl_update_of_mem ⟨(k, v), hmem, rfl⟩ (fun x hx hk => ?_) f
    have hx := Std.ExtTreeMap.mem_toList_iff_getElem?_eq_some.mp hx
    have hk : x.1 = k := hk
    rw [hk, hv, Option.some.injEq] at hx
    rw [← Prod.mk.eta (p := x), hk, hx]
  · rename_i hnone
    refine foldl_update_of_ne (fun x hx hk => ?_) f
    have hx := Std.ExtTreeMap.mem_toList_iff_getElem?_eq_some.mp hx
    rw [hk, hnone] at hx
    contradiction

/-- Writing one value at the members of a set into a function. -/
theorem foldl_toList_const {κ : Type} [Ord κ] [Std.TransOrd κ] [Std.LawfulEqOrd κ]
    [DecidableEq κ] (s : Std.ExtTreeSet κ) (b : β) (f : κ → β) (k : κ) :
    s.toList.foldl (fun f x => Function.update f x b) f k = if k ∈ s then b else f k := by
  split
  · rename_i hk
    exact foldl_update_of_mem ⟨k, Std.ExtTreeSet.mem_toList.mpr hk, rfl⟩
      (fun _ _ _ => rfl) f
  · rename_i hk
    refine foldl_update_of_ne (fun x hx hxk => ?_) f
    exact hk (hxk ▸ Std.ExtTreeSet.mem_toList.mp hx)

end

/-- An account as plain data. -/
structure Plain where
  nonce : Nat
  balance : Word
  code : Bytes
  slots : Word → Word

/-- A new account. -/
def Plain.fresh (nonce : Nat) (balance : Word) : Plain :=
  ⟨nonce, balance, [], fun _ => 0⟩

/-- Accounts as plain data. -/
abbrev Plains := Address → Option Plain

/-! ## Overlays -/

namespace Overlay

/-- The code that an overlay shows over an account. -/
def plainCode (o : Overlay) (under : Option Plain) : Bytes :=
  match o.newCode, o.base with
  | some code, _ => code
  | none, some _ => (under.map Plain.code).getD []
  | none, none => []

/-- The slots that show through where none was written. -/
def underSlots (o : Overlay) (under : Option Plain) (key : Word) : Word :=
  match o.visibleBase with
  | some _ => (under.map fun p => p.slots key).getD 0
  | none => 0

/-- The account that an overlay shows over what is under it. -/
def plain (o : Overlay) (under : Option Plain) : Plain where
  nonce := o.nonce
  balance := o.balance
  code := o.plainCode under
  slots key := (o.slots[key]?).getD (o.underSlots under key)

variable (o : Overlay) (under : Option Plain)

@[simp] theorem plain_fresh (address : Address) (nonce : Nat) (balance : Word) :
    (fresh address nonce balance).plain under = Plain.fresh nonce balance := by
  have hslots : ∀ key : Word, ((fresh address nonce balance).slots[key]?).getD 0 = 0 := by
    intro key
    rw [fresh, Std.ExtTreeMap.getElem?_empty, Option.getD_none]
  exact congrArg (Plain.mk nonce balance []) (funext hslots)

theorem plain_ofAccount (a : Account) (p : Plain) :
    (ofAccount a).plain (some p) = ⟨a.nonce, a.balance, p.code, p.slots⟩ := by
  have hslots : ∀ key : Word, ((ofAccount a).slots[key]?).getD (p.slots key) = p.slots key := by
    intro key
    rw [ofAccount, Std.ExtTreeMap.getElem?_empty, Option.getD_none]
  exact congrArg (Plain.mk a.nonce a.balance p.code) (funext hslots)

theorem plain_setCode (code : Bytes) :
    (o.setCode code).plain under = { o.plain under with code } := rfl

theorem plain_setSlot (key value : Word) :
    (o.setSlot key value).plain under =
      { o.plain under with slots := Function.update (o.plain under).slots key value } := by
  have hslots : ∀ k : Word, ((o.setSlot key value).slots[k]?).getD (o.underSlots under k) =
      Function.update (o.plain under).slots key value k := by
    intro k
    rw [setSlot, Std.ExtTreeMap.getElem?_insert, Function.update_apply]
    simp only [Std.compare_eq_iff_eq]
    by_cases hk : key = k
    · rw [if_pos hk, if_pos hk.symm, Option.getD_some]
    · rw [if_neg hk, if_neg (Ne.symm hk), plain]
  exact congrArg (Plain.mk o.nonce o.balance (o.plainCode under)) (funext hslots)

theorem plain_clearStorage :
    o.clearStorage.plain under = { o.plain under with slots := fun _ => 0 } := by
  have hslots : ∀ key : Word, (o.clearStorage.slots[key]?).getD 0 = 0 := by
    intro key
    rw [clearStorage, Std.ExtTreeMap.getElem?_empty, Option.getD_none]
  exact congrArg (Plain.mk o.nonce o.balance (o.plainCode under)) (funext hslots)

end Overlay

/-! ## Scopes -/

namespace Scope

/-- What a scope shows over the map below it; its overlays lie over the accounts of
`world`. -/
def view (s : Scope) (world below : Plains) : Plains := fun address =>
  match s.lookup address with
  | none => below address
  | some none => none
  | some (some o) => some (o.plain (world address))

/-- A scope has no overlay of an account that it deleted. -/
def Separate (s : Scope) : Prop := ∀ address ∈ s.deleted, s.updated[address]? = none

variable {s c : Scope} {world below : Plains}

@[simp] theorem lookup_empty (address : Address) : empty.lookup address = none := by
  rw [lookup, empty, Std.ExtTreeSet.contains_empty, Std.ExtTreeMap.getElem?_empty]
  rfl

theorem lookup_put (s : Scope) (o : Overlay) :
    (s.put o).lookup = Function.update s.lookup o.address (some (some o)) := by
  funext address
  rw [lookup, put, Std.ExtTreeSet.contains_erase, Std.ExtTreeMap.getElem?_insert,
    Function.update_apply, lookup]
  simp only [Std.compare_eq_iff_eq]
  by_cases h : o.address = address
  · simp [h]
  · simp [h, Ne.symm h]

theorem put_put (s : Scope) (o : Overlay) : (s.put o).put o = s.put o := by
  have hupdated : (s.updated.insert o.address o).insert o.address o =
      s.updated.insert o.address o := by
    refine Std.ExtTreeMap.ext_getElem? fun address => ?_
    grind
  have hdeleted : (s.deleted.erase o.address).erase o.address = s.deleted.erase o.address := by
    refine Std.ExtTreeSet.ext_mem fun address => ?_
    grind
  simp only [put, hupdated, hdeleted]

theorem lookup_delete (s : Scope) (gone : Address) :
    (s.delete gone).lookup = Function.update s.lookup gone (some none) := by
  funext address
  rw [lookup, delete, Std.ExtTreeSet.contains_insert, Std.ExtTreeMap.getElem?_erase,
    Function.update_apply, lookup]
  simp only [Std.compare_eq_iff_eq]
  by_cases h : gone = address
  · simp [h]
  · simp [h, Ne.symm h]

theorem separate_empty : empty.Separate := by
  intro address h
  exact absurd h Std.ExtTreeSet.not_mem_empty

theorem Separate.put (h : s.Separate) (o : Overlay) : (s.put o).Separate := by
  intro address hmem
  obtain ⟨hne, hmem⟩ := Std.ExtTreeSet.mem_erase.mp hmem
  rw [Scope.put, Std.ExtTreeMap.getElem?_insert, if_neg hne]
  exact h address hmem

theorem Separate.delete (h : s.Separate) (gone : Address) : (s.delete gone).Separate := by
  intro address hmem
  rw [Scope.delete, Std.ExtTreeMap.getElem?_erase]
  split
  · rfl
  · rename_i hne
    exact h address ((Std.ExtTreeSet.mem_insert.mp hmem).resolve_left hne)

/-- What a scope without contradictions says of an account that it updated. -/
theorem Separate.lookup_of_updated (h : s.Separate) {address : Address} {o : Overlay}
    (ho : s.updated[address]? = some o) : s.lookup address = some (some o) := by
  have hdeleted : s.deleted.contains address = false := by
    by_contra hmem
    rw [Bool.not_eq_false, Std.ExtTreeSet.contains_iff_mem] at hmem
    rw [h address hmem] at ho
    contradiction
  rw [lookup, hdeleted, ho]
  rfl

theorem lookup_of_mem_deleted {address : Address} (h : address ∈ s.deleted) :
    s.lookup address = some none := by
  rw [lookup, Std.ExtTreeSet.contains_iff_mem.mpr h]
  rfl

/-- Every overlay of a scope is kept under its own address. -/
def Keyed (s : Scope) : Prop :=
  ∀ (address : Address) (o : Overlay), s.updated[address]? = some o → o.address = address

/-- **What merging changes.**  Where an overlay or a deletion changes what is read of a scope
at its own address only, a merged scope is read like the inner one at the addresses that this
changed, and like the outer one elsewhere. -/
theorem read_merge {β : Type} (read : Scope → Address → β) {written : Overlay → β} {gone : β}
    (hput : ∀ s o, read (s.put o) = Function.update (read s) o.address (written o))
    (hdelete : ∀ s address, read (s.delete address) = Function.update (read s) address gone)
    (s : Scope) (hkey : c.Keyed) (address : Address) :
    read (s.merge c) address = match c.updated[address]? with
      | some o => written o
      | none => if address ∈ c.deleted then gone else read s address := by
  -- both steps are folds over a map, of which only the entry of the address counts
  have hdeletes : ∀ (l : List Address) (s : Scope),
      read (l.foldl delete s) = l.foldl (fun f x => Function.update f x gone) (read s) := by
    intro l
    induction l with
    | nil => exact fun _ => rfl
    | cons x l ih => exact fun s => (ih _).trans (by rw [hdelete, List.foldl_cons])
  have hputs : ∀ (l : List (Address × Overlay)) (s : Scope), (∀ x ∈ l, x.2.address = x.1) →
      read (l.foldl (fun s x => s.put x.2) s) =
        l.foldl (fun f x => Function.update f x.1 (written x.2)) (read s) := by
    intro l
    induction l with
    | nil => exact fun _ _ => rfl
    | cons x l ih =>
      intro s hl
      rw [List.foldl_cons, ih _ fun y hy => hl y (List.mem_cons_of_mem x hy), hput,
        hl x List.mem_cons_self, List.foldl_cons]
  have hkeyed : ∀ x ∈ c.updated.toList, x.2.address = x.1 := fun x hx =>
    hkey x.1 x.2 (Std.ExtTreeMap.mem_toList_iff_getElem?_eq_some.mp hx)
  rw [merge, Std.ExtTreeMap.foldl_eq_foldl_toList, Std.ExtTreeSet.foldl_eq_foldl_toList,
    hputs _ _ hkeyed, hdeletes, foldl_toList_update, foldl_toList_const]
  cases c.updated[address]? <;> rfl

/-- **Merging.**  What a merged scope says is what the inner scope says, or else the
outer one. -/
theorem lookup_merge (s : Scope) (hsep : c.Separate) (hkey : c.Keyed) (address : Address) :
    (s.merge c).lookup address = (c.lookup address).or (s.lookup address) := by
  rw [read_merge lookup lookup_put lookup_delete s hkey]
  cases hc : c.updated[address]? with
  | some o => rw [hsep.lookup_of_updated hc, Option.some_or]
  | none =>
    rw [lookup.eq_def c, hc]
    simp only [Std.ExtTreeSet.contains_iff_mem]
    split
    · rw [Option.some_or]
    · rw [Option.map_none, Option.none_or]

theorem Separate.merge (h : s.Separate) (c : Scope) : (s.merge c).Separate := by
  rw [Scope.merge, Std.ExtTreeMap.foldl_eq_foldl_toList, Std.ExtTreeSet.foldl_eq_foldl_toList]
  have hdelete : ∀ (l : List Address) (s : Scope), s.Separate → (l.foldl Scope.delete s).Separate :=
    fun l s hs => List.foldlRecOn l Scope.delete hs fun s hs x _ => hs.delete x
  have hput : ∀ (l : List (Address × Overlay)) (s : Scope), s.Separate →
      (l.foldl (fun s x => s.put x.2) s).Separate :=
    fun l s hs => List.foldlRecOn l _ hs fun s hs x _ => hs.put x.2
  exact hput _ _ (hdelete _ s h)

/-! ### Views -/

theorem view_empty (world below : Plains) : empty.view world below = below := by
  funext address
  rw [view, lookup_empty]

theorem view_put (s : Scope) (o : Overlay) (world below : Plains) :
    (s.put o).view world below = Function.update (s.view world below) o.address
      (some (o.plain (world o.address))) := by
  funext address
  rw [view, lookup_put, Function.update_apply, Function.update_apply]
  by_cases h : address = o.address
  · rw [if_pos h, if_pos h, h]
  · rw [if_neg h, if_neg h, view]

theorem view_delete (s : Scope) (gone : Address) (world below : Plains) :
    (s.delete gone).view world below = Function.update (s.view world below) gone none := by
  funext address
  rw [view, lookup_delete, Function.update_apply, Function.update_apply]
  by_cases h : address = gone
  · rw [if_pos h, if_pos h]
  · rw [if_neg h, if_neg h, view]

/-- **A merged scope shows what the inner scope showed over the outer one.** -/
theorem view_merge (s : Scope) (hsep : c.Separate) (hkey : c.Keyed) (world below : Plains) :
    (s.merge c).view world below = c.view world (s.view world below) := by
  funext address
  rw [view, lookup_merge s hsep hkey, view]
  cases c.lookup address with
  | none => rw [Option.none_or, view]
  | some found => cases found <;> rfl

end Scope

/-- The maps that nested scopes show, the innermost first. -/
def views (world : Plains) : List Scope → List Plains
  | [] => []
  | s :: rest => s.view world ((views world rest).headD world) :: views world rest

/-- What the innermost scope shows at an address is what the first scope says that says
anything. -/
theorem headD_views (world : Plains) (scopes : List Scope) (address : Address) :
    (views world scopes).headD world address =
      match scopes.findSome? (·.lookup address) with
      | none => world address
      | some none => none
      | some (some o) => some (o.plain (world address)) := by
  induction scopes with
  | nil => rfl
  | cons s rest ih =>
    rw [views, List.headD_cons, Scope.view, List.findSome?_cons]
    cases s.lookup address with
    | none => exact ih
    | some found => cases found <;> rfl

end Ethereum
