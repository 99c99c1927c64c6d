/-
# What tries keep of accounts and slots

An account is read back from its encoding (`Account.decode_encode`), and a slot from
what the trie of slots keeps of its value, which is nothing for a zero (`slotEntry`).
Writing slots into a trie (`writeSlots`) changes what it has just there
(`HasSlots.writeSlots`).
-/

import Mathlib
import Ethereum.Proofs.Rlp.RoundTrip
import Ethereum.Proofs.Trie.Hashed
import Ethereum.State.Scope

namespace Ethereum

/-- **Doing something for the members of a list.**  Each step leads from what holds
after the members before to what holds after one more. -/
theorem EStateM.exists_forM {ε σ α : Type} {f : α → EStateM ε σ PUnit} {l : List α}
    (holds : List α → σ → Prop)
    (hstep : ∀ done x rest, l = done ++ x :: rest → ∀ s, holds done s →
      ∃ s', f x s = .ok () s' ∧ holds (done ++ [x]) s')
    {s : σ} (hs : holds [] s) : ∃ s', l.forM f s = .ok () s' ∧ holds l s' := by
  suffices h : ∀ rest done s, l = done ++ rest → holds done s →
      ∃ s', rest.forM f s = .ok () s' ∧ holds l s' from h l [] s rfl hs
  intro rest
  induction rest with
  | nil =>
    intro done s hl h
    rw [List.append_nil] at hl
    exact ⟨s, rfl, hl ▸ h⟩
  | cons x rest ih =>
    intro done s hl h
    obtain ⟨s₁, hf, h₁⟩ := hstep done x rest hl s h
    obtain ⟨s₂, hrest, h₂⟩ := ih (done ++ [x]) s₁ (by rw [hl, List.append_assoc]; rfl) h₁
    refine ⟨s₂, ?_, h₂⟩
    change EStateM.bind (f x) (fun _ => rest.forM f) s = _
    rw [EStateM.bind, hf]
    exact hrest

/-! ## Accounts -/

namespace Account

variable {a : Account}

/-- The items of an account. -/
theorem isItem_of_mem (h : a.nonce ≤ Quantity.max) {x : Bytes}
    (hx : x ∈ [Rlp.number a.nonce, Rlp.number a.balance.toNat,
      Rlp.string (Hash.toBytes a.storageRoot), Rlp.string (Hash.toBytes a.codeHash)]) :
    Rlp.IsItem x ∧ x.length ≤ 41 := by
  have hstring : ∀ b : Bytes, b.length ≤ 32 →
      Rlp.IsItem (Rlp.string b) ∧ (Rlp.string b).length ≤ 41 := by
    intro b hb
    have hlen := Rlp.length_string_le (b := b) (by omega)
    exact ⟨Rlp.isItem_string (by omega), by omega⟩
  have hnonce : (Bytes.ofNat a.nonce).length ≤ 8 :=
    Bytes.length_ofNat_le (lt_of_le_of_lt h (by decide))
  have hbalance : (Bytes.ofNat a.balance.toNat).length ≤ 32 :=
    Bytes.length_ofNat_le (lt_of_lt_of_le a.balance.isLt (by decide))
  simp only [List.mem_cons, List.not_mem_nil, or_false] at hx
  rcases hx with rfl | rfl | rfl | rfl
  · exact hstring _ (by omega)
  · exact hstring _ hbalance
  · exact hstring _ (Hash.length_toBytes _).le
  · exact hstring _ (Hash.length_toBytes _).le

theorem length_items_le (h : a.nonce ≤ Quantity.max) :
    [Rlp.number a.nonce, Rlp.number a.balance.toNat, Rlp.string (Hash.toBytes a.storageRoot),
      Rlp.string (Hash.toBytes a.codeHash)].flatten.length ≤ 164 := by
  have hlen := fun x hx => (isItem_of_mem h (x := x) hx).2
  simp only [List.mem_cons, List.not_mem_nil, or_false, forall_eq_or_imp, forall_eq] at hlen
  simp only [List.flatten_cons, List.flatten_nil, List.length_append, List.length_nil]
  omega

/-- **An account is read back from its encoding.** -/
theorem decode_encode (h : a.nonce ≤ Quantity.max) : decode a.address a.encode = .ok a := by
  have hitems := Rlp.items_list (fun x hx => (isItem_of_mem h hx).1)
    (lt_of_le_of_lt (length_items_le h) (by omega))
  rw [decode, encode, hitems]
  simp only [bind, Except.bind, pure, Except.pure, Rlp.quantity_number h, Rlp.word_number,
    Rlp.hash_string]

theorem length_encode_lt (h : a.nonce ≤ Quantity.max) : a.encode.length < 2 ^ 63 := by
  have hitems := length_items_le h
  have hheader := Rlp.length_header_le 0xc0 (lt_of_le_of_lt hitems (by omega : 164 < 2 ^ 64))
  rw [encode, Rlp.length_list]
  omega

theorem encode_ne_nil (a : Account) : a.encode ≠ [] := by
  have hne : Rlp.string (Hash.toBytes a.codeHash) ≠ [] := by
    rw [← List.length_pos_iff, Rlp.length_string_hash]
    omega
  intro hnil
  have hlen := Rlp.length_flatten_le [Rlp.number a.nonce, Rlp.number a.balance.toNat,
    Rlp.string (Hash.toBytes a.storageRoot), Rlp.string (Hash.toBytes a.codeHash)]
  rw [← encode, hnil, List.length_nil, Nat.le_zero, List.length_eq_zero_iff,
    List.flatten_eq_nil_iff] at hlen
  exact hne (hlen _ (by simp))

end Account

/-! ## Slots -/

/-- What a trie of slots keeps of a value: nothing of a zero. -/
def slotEntry (value : Word) : Option Bytes :=
  if value = 0 then none else some (Rlp.number value.toNat)

theorem length_of_slotEntry {value : Word} {b : Bytes} (h : slotEntry value = some b) :
    b.length < 2 ^ 63 := by
  have hlen : (Bytes.ofNat value.toNat).length ≤ 32 :=
    Bytes.length_ofNat_le (lt_of_lt_of_le value.isLt (by decide))
  have hstring := Rlp.length_string_le (b := Bytes.ofNat value.toNat) (by omega)
  rw [slotEntry] at h
  split at h
  · cases h
  · obtain rfl := Option.some.inj h
    rw [Rlp.number]
    omega

/-- The change of a trie of slots that writes a slot. -/
def slotChange (key value : Word) : Trie.Change :=
  if value = 0 then .remove (Hash.toBytes (slotHash key))
  else .put (Hash.toBytes (slotHash key)) (Rlp.number value.toNat)

theorem key_slotChange (key value : Word) :
    (slotChange key value).key = Hash.toBytes (keccak (Word.toBytes key)) := by
  rw [slotChange]
  split <;> rfl

theorem entry_slotChange (key value : Word) : (slotChange key value).entry = slotEntry value := by
  rw [slotChange, slotEntry]
  split
  · rfl
  · rw [Trie.Change.entry, if_neg (Rlp.number_ne_nil value)]

theorem World.writeSlots_eq (store : Store) (l : List (Word × Word)) :
    writeSlots store l = l.forM fun x => Trie.update (·.change store.nodes (slotChange x.1 x.2)) := by
  have hstep : ∀ x : Word × Word, Trie.update (fun t =>
      if x.2 = 0 then t.erase store.nodes (Hash.toBytes (slotHash x.1))
      else t.insert store.nodes (Hash.toBytes (slotHash x.1)) (Rlp.number x.2.toNat)) =
      Trie.update (·.change store.nodes (slotChange x.1 x.2)) := by
    intro x
    rw [slotChange]
    split <;> rfl
  exact congrArg l.forM (funext hstep)

namespace Trie

/-- `t` has the slots with the keys among the data. -/
def HasSlots (data : List Bytes) (source : NodeSource) (log : List (Hash × Bytes)) (t : Trie)
    (slots : Word → Word) : Prop :=
  t.HasHashed data source log Word.toBytes fun key => slotEntry (slots key)

variable {data : List Bytes} {store : Store} {log : List (Hash × Bytes)} {t : Trie}
  {slots : Word → Word}

theorem hasSlots_empty {source : NodeSource} : HasSlots data source log empty fun _ => 0 :=
  hasHashed_empty

/-- **Writing slots** changes just those. -/
theorem HasSlots.writeSlots (h : t.HasSlots data store.nodes log slots) (hcol : Collisionless data)
    {l : List (Word × Word)} (hl : ∀ x ∈ l, Word.toBytes x.1 ∈ data) :
    ∃ u, World.writeSlots store l t = .ok () u ∧ u.HasSlots data store.nodes log
      (l.foldl (fun f x => Function.update f x.1 x.2) slots) := by
  rw [World.writeSlots_eq]
  refine EStateM.exists_forM (fun (done : List (Word × Word)) (t : Trie) =>
    t.HasSlots data store.nodes log (done.foldl (fun f x => Function.update f x.1 x.2) slots)) ?_ h
  intro done x rest heq t ht
  have hx : Word.toBytes x.1 ∈ data := hl x (heq ▸ by simp)
  have hentry := entry_slotChange x.1 x.2
  obtain ⟨u, hu, hhas⟩ := HasHashed.change ht hcol Word.toBytes_injective hx
    (key_slotChange x.1 x.2) fun v hv => length_of_slotEntry (hentry.symm.trans hv)
  refine ⟨u, ?_, ?_⟩
  · simp only [update, hu]
  · rw [List.foldl_append, List.foldl_cons, List.foldl_nil, HasSlots]
    rw [hentry] at hhas
    convert hhas using 2 with key
    rw [Function.update_apply, Function.update_apply]
    split <;> rfl

/-- The value of a slot is read from what the trie keeps of it. -/
theorem HasSlots.get_eq (h : t.HasSlots data store.nodes log slots) {key : Word}
    (hkey : Word.toBytes key ∈ data) :
    t.get store.nodes (Hash.toBytes (slotHash key)) = .ok (slotEntry (slots key)) :=
  HasHashed.get_eq h hkey

end Trie
end Ethereum
