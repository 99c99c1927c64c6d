/-
# How programs end

A program on a state returns or throws, and leaves a state in either case.  `Ends` says
what holds of both, and sequences are followed step by step (`Ends.bind`).  A program that
leads along a transitive relation, however it ends, is made of parts that do
(`Leads.bind`).
-/

import Mathlib

namespace Ethereum

variable {ε σ α β : Type}

/-- What holds of how a program ends, and of the state that it leaves. -/
def Ends (p : EStateM ε σ α) (s : σ) (Q : Except ε α → σ → Prop) : Prop :=
  match p s with
  | .ok a s' => Q (.ok a) s'
  | .error e s' => Q (.error e) s'

namespace Ends

variable {p : EStateM ε σ α} {s s' : σ} {Q Q' : Except ε α → σ → Prop}

theorem mono (h : Ends p s Q) (hQ : ∀ r s', Q r s' → Q' r s') : Ends p s Q' := by
  rw [Ends] at h ⊢
  cases hp : p s with
  | ok a s' =>
    rw [hp] at h
    exact hQ _ _ h
  | error e s' =>
    rw [hp] at h
    exact hQ _ _ h

theorem of_ok {a : α} (h : Ends p s Q) (hp : p s = .ok a s') : Q (.ok a) s' := by
  rwa [Ends, hp] at h

theorem of_error {e : ε} (h : Ends p s Q) (hp : p s = .error e s') : Q (.error e) s' := by
  rwa [Ends, hp] at h

theorem ok {a : α} (hp : p s = .ok a s') (h : Q (.ok a) s') : Ends p s Q := by
  rw [Ends, hp]
  exact h

theorem and (h : Ends p s Q) (h' : Ends p s Q') : Ends p s fun r s' => Q r s' ∧ Q' r s' := by
  rw [Ends]
  cases hp : p s with
  | ok a s' => exact ⟨h.of_ok hp, h'.of_ok hp⟩
  | error e s' => exact ⟨h.of_error hp, h'.of_error hp⟩

/-- **A sequence ends** where its first part throws, or where the rest ends after it. -/
theorem bind {f : α → EStateM ε σ β} {Q : Except ε β → σ → Prop}
    (h : Ends p s fun r s₁ => match r with
      | .ok a => Ends (f a) s₁ Q
      | .error e => Q (.error e) s₁) : Ends (p >>= f) s Q := by
  change match EStateM.bind p f s with
    | .ok b s' => Q (.ok b) s'
    | .error e s' => Q (.error e) s'
  rw [EStateM.bind]
  cases hp : p s with
  | ok a s₁ => exact h.of_ok hp
  | error e s₁ => exact h.of_error hp

/-- **A sequence ends** as what its first part comes to decides. -/
theorem bind_of_run {f : α → EStateM ε σ β} {Q : Except ε β → σ → Prop}
    (hok : ∀ a s₁, p s = .ok a s₁ → Ends (f a) s₁ Q)
    (herror : ∀ e s₁, p s = .error e s₁ → Q (.error e) s₁) : Ends (p >>= f) s Q := by
  refine bind ?_
  rw [Ends]
  cases hp : p s with
  | ok a s₁ => exact hok a s₁ hp
  | error e s₁ => exact herror e s₁ hp

/-- Going on after a program that returned. -/
theorem bind_of_ok {f : α → EStateM ε σ β} {a : α} {Q : Except ε β → σ → Prop}
    (hp : p s = .ok a s') (h : Ends (f a) s' Q) : Ends (p >>= f) s Q :=
  bind (ok hp h)

end Ends

theorem bind_ends_of_ok {ρ : Type} {p : ReaderT ρ (EStateM ε σ) α}
    {f : α → ReaderT ρ (EStateM ε σ) β} {c : ρ} {s s₁ : σ} {a : α} {Q : Except ε β → σ → Prop}
    (hp : p c s = .ok a s₁) (h : Ends (f a c) s₁ Q) : Ends ((p >>= f) c) s Q :=
  Ends.bind_of_ok hp h

theorem bind_eq_of_ok {p : EStateM ε σ α} {f : α → EStateM ε σ β} {s s₁ : σ} {a : α}
    (h : p s = .ok a s₁) : (p >>= f) s = f a s₁ := by
  change EStateM.bind p f s = f a s₁
  rw [EStateM.bind, h]

/-- What begins alike from two states goes on alike. -/
theorem bind_eq_of_eq {p : EStateM ε σ α} {f : α → EStateM ε σ β} {s s' : σ} (h : p s = p s') :
    (p >>= f) s = (p >>= f) s' := by
  change EStateM.bind p f s = EStateM.bind p f s'
  rw [EStateM.bind, EStateM.bind, h]

theorem bind_eq_of_error {p : EStateM ε σ α} {f : α → EStateM ε σ β} {s s₁ : σ} {e : ε}
    (h : p s = .error e s₁) : (p >>= f) s = .error e s₁ := by
  change EStateM.bind p f s = .error e s₁
  rw [EStateM.bind, h]

theorem reader_bind_eq_of_ok {ρ : Type} {p : ReaderT ρ (EStateM ε σ) α}
    {f : α → ReaderT ρ (EStateM ε σ) β} {c : ρ} {s s₁ : σ} {a : α} (h : p c s = .ok a s₁) :
    (p >>= f) c s = f a c s₁ := bind_eq_of_ok h

/-- **A sequence that returns** has returned from both parts. -/
theorem bind_eq_ok {p : EStateM ε σ α} {f : α → EStateM ε σ β} {s s' : σ} {b : β}
    (h : (p >>= f) s = .ok b s') : ∃ a s₁, p s = .ok a s₁ ∧ f a s₁ = .ok b s' := by
  change EStateM.bind p f s = .ok b s' at h
  rw [EStateM.bind] at h
  cases hp : p s with
  | ok a s₁ =>
    rw [hp] at h
    exact ⟨a, s₁, rfl, h⟩
  | error e s₁ =>
    rw [hp] at h
    cases h

/-- **A sequence that throws** has thrown from its first part, or from the rest. -/
theorem bind_eq_error {p : EStateM ε σ α} {f : α → EStateM ε σ β} {s s' : σ} {e : ε}
    (h : (p >>= f) s = .error e s') :
    p s = .error e s' ∨ ∃ a s₁, p s = .ok a s₁ ∧ f a s₁ = .error e s' := by
  change EStateM.bind p f s = .error e s' at h
  rw [EStateM.bind] at h
  cases hp : p s with
  | ok a s₁ =>
    rw [hp] at h
    exact .inr ⟨a, s₁, rfl, h⟩
  | error e₁ s₁ =>
    rw [hp] at h
    cases h
    exact .inl rfl

theorem reader_bind_eq_ok {ρ : Type} {p : ReaderT ρ (EStateM ε σ) α}
    {f : α → ReaderT ρ (EStateM ε σ) β} {c : ρ} {s s' : σ} {b : β}
    (h : (p >>= f) c s = .ok b s') : ∃ a s₁, p c s = .ok a s₁ ∧ f a c s₁ = .ok b s' :=
  bind_eq_ok h

theorem reader_bind_eq_error {ρ : Type} {p : ReaderT ρ (EStateM ε σ) α}
    {f : α → ReaderT ρ (EStateM ε σ) β} {c : ρ} {s s' : σ} {e : ε}
    (h : (p >>= f) c s = .error e s') :
    p c s = .error e s' ∨ ∃ a s₁, p c s = .ok a s₁ ∧ f a c s₁ = .error e s' :=
  bind_eq_error h

/-- **What is read after a list of programs** is what the last of them left that touches it, or what
was read before if none does. -/
theorem read_of_forM {ι ρ : Type} {f : ι → EStateM ε σ PUnit} (read : σ → ρ) (touches : ι → Prop)
    (P : ι → ρ → Prop) {l : List ι} {s s' : σ}
    (hf : ∀ x ∈ l, ∀ s s', f x s = .ok () s' →
      (touches x ∧ P x (read s')) ∨ ¬ touches x ∧ read s' = read s)
    (hrun : l.forM f s = .ok () s') : (∃ x ∈ l, touches x ∧ P x (read s')) ∨
      (∀ x ∈ l, ¬ touches x) ∧ read s' = read s := by
  induction l generalizing s with
  | nil =>
    cases hrun
    exact .inr ⟨fun x hx => absurd hx List.not_mem_nil, rfl⟩
  | cons x l ih =>
    obtain ⟨_, s₁, hx, hrest⟩ := bind_eq_ok hrun
    rcases ih (fun y hy => hf y (List.mem_cons_of_mem x hy)) hrest with
      ⟨y, hy, hread⟩ | ⟨hnone, hread⟩
    · exact .inl ⟨y, List.mem_cons_of_mem x hy, hread⟩
    · rw [hread]
      rcases hf x List.mem_cons_self s s₁ hx with htouched | ⟨hne, hkept⟩
      · exact .inl ⟨x, List.mem_cons_self, htouched⟩
      · exact .inr ⟨List.forall_mem_cons.mpr ⟨hne, hnone⟩, hkept⟩

theorem exists_of_bind_eq_ok {x : Except ε α} {f : α → Except ε β} {b : β}
    (h : x >>= f = .ok b) : ∃ a, x = .ok a ∧ f a = .ok b := by
  cases x with
  | ok a => exact ⟨a, rfl, h⟩
  | error e => cases h

theorem exists_of_map_eq_ok {x : Except ε α} {f : α → β} {b : β} (h : x.map f = .ok b) :
    ∃ a, x = .ok a ∧ f a = b := by
  cases x with
  | ok a => exact ⟨a, rfl, Except.ok.inj h⟩
  | error e => cases h

/-- What a loop over a list gives comes from its members. -/
theorem exists_of_mem_mapM {f : α → Except ε β} {xs : List α} {ys : List β} {y : β}
    (h : xs.mapM f = .ok ys) (hy : y ∈ ys) : ∃ x ∈ xs, f x = .ok y := by
  induction xs generalizing ys with
  | nil =>
    rw [List.mapM_nil] at h
    cases h
    contradiction
  | cons x xs ih =>
    rw [List.mapM_cons] at h
    obtain ⟨z, hz, h⟩ := exists_of_bind_eq_ok h
    obtain ⟨zs, hzs, h⟩ := exists_of_bind_eq_ok h
    cases h
    rcases List.mem_cons.mp hy with rfl | hy
    · exact ⟨x, List.mem_cons_self, hz⟩
    · obtain ⟨x', hx', hf⟩ := ih hzs hy
      exact ⟨x', List.mem_cons_of_mem x hx', hf⟩

theorem mapError_eq_ok {ε' : Type} {f : ε → ε'} {x : Except ε α} {a : α}
    (h : x.mapError f = .ok a) : x = .ok a := by
  cases x with
  | ok b => exact congrArg Except.ok (Except.ok.inj h)
  | error e => contradiction

/-- The program leads from each state to a related one, whether it returns or throws. -/
def Leads (R : σ → σ → Prop) (p : EStateM ε σ α) : Prop := ∀ s, Ends p s fun _ s' => R s s'

section
variable {R : σ → σ → Prop} {p : EStateM ε σ α}

theorem Leads.bind [IsTrans σ R] {f : α → EStateM ε σ β} (hp : Leads R p)
    (hf : ∀ a, Leads R (f a)) : Leads R (p >>= f) := by
  intro s
  refine Ends.bind ((hp s).mono fun r s₁ h₁ => ?_)
  cases r with
  | ok a => exact (hf a s₁).mono fun _ _ h₂ => IsTrans.trans _ _ _ h₁ h₂
  | error e => exact h₁

theorem leads_pure [Std.Refl R] (a : α) : Leads R (pure a : EStateM ε σ α) := fun s => refl s

end
end Ethereum
