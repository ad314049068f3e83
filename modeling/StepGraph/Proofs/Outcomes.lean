namespace EStateM

variable {ε σ α β : Type} {x : EStateM ε σ α} {f : α → EStateM ε σ β} {s s' : σ}

-- What a computation does to a given state. Later proofs compute with these and leave the monad
-- closed.

theorem bind_apply (x : EStateM ε σ α) (f : α → EStateM ε σ β) (s : σ) :
    (x >>= f) s = match x s with
      | .ok a s => f a s
      | .error e s => .error e s := by
  change EStateM.bind x f s = _
  unfold EStateM.bind
  cases x s <;> rfl

theorem bind_of_ok {a : α} (h : x s = .ok a s') : (x >>= f) s = f a s' := by rw [bind_apply, h]

theorem bind_of_error {e : ε} (h : x s = .error e s') : (x >>= f) s = .error e s' := by
  rw [bind_apply, h]

theorem bind_eq_ok {b : β} :
    (x >>= f) s = .ok b s' ↔ ∃ a s₁, x s = .ok a s₁ ∧ f a s₁ = .ok b s' := by
  rw [bind_apply]
  cases h : x s with
  | ok a s₁ =>
      refine ⟨fun he => ⟨a, s₁, rfl, he⟩, ?_⟩
      rintro ⟨_, _, he, hf⟩
      cases he
      exact hf
  | error e s₁ => simp

theorem bind_eq_error {e : ε} :
    (x >>= f) s = .error e s' ↔
      x s = .error e s' ∨ ∃ a s₁, x s = .ok a s₁ ∧ f a s₁ = .error e s' := by
  rw [bind_apply]
  cases h : x s with
  | ok a s₁ =>
      refine ⟨fun he => .inr ⟨a, s₁, rfl, he⟩, ?_⟩
      rintro (he | ⟨_, _, he, hf⟩)
      · cases he
      · cases he
        exact hf
  | error e s₁ => simp

@[simp] theorem map_apply (f : α → β) (x : EStateM ε σ α) (s : σ) :
    (f <$> x) s = match x s with
      | .ok a s => .ok (f a) s
      | .error e s => .error e s := by
  change EStateM.map f x s = _
  unfold EStateM.map
  cases x s <;> rfl

theorem discard_eq_ok {u : Unit} : discard x s = .ok u s' ↔ ∃ a, x s = .ok a s' := by
  change (Function.const α PUnit.unit <$> x) s = _ ↔ _
  rw [map_apply]
  cases x s <;> simp

end EStateM

namespace StepGraph

-- A property of the operations of a monad that goes from the parts to the whole.
structure Compositional {M : Type → Type} [Monad M] (P : ∀ {α : Type}, M α → Prop) : Prop where
  pure : ∀ {α : Type} (a : α), P (pure a : M α)
  bind : ∀ {α β : Type} {x : M α} {f : α → M β}, P x → (∀ a, P (f a)) → P (x >>= f)

namespace Compositional

variable {M : Type → Type} [Monad M] {P : ∀ {α : Type}, M α → Prop} {α β : Type} {l : List α}

theorem forM_mem (h : Compositional (M := M) P) {f : α → M PUnit} (hf : ∀ a ∈ l, P (f a)) :
    P (l.forM f) := by
  induction l with
  | nil => exact h.pure _
  | cons a l ih =>
      exact h.bind (hf a List.mem_cons_self) fun _ => ih fun a ha => hf a (List.mem_cons_of_mem _ ha)

theorem forM (h : Compositional (M := M) P) {f : α → M PUnit} (hf : ∀ a, P (f a)) : P (l.forM f) :=
  h.forM_mem fun a _ => hf a

variable [LawfulMonad M]

theorem map (h : Compositional (M := M) P) (f : α → β) {x : M α} (hx : P x) : P (f <$> x) := by
  rw [map_eq_pure_bind]
  exact h.bind hx fun a => h.pure (f a)

theorem discard (h : Compositional (M := M) P) {x : M α} (hx : P x) : P (discard x) := by
  change P (Functor.mapConst PUnit.unit x)
  rw [map_const]
  exact h.map _ hx

theorem mapM (h : Compositional (M := M) P) {f : α → M β} (hf : ∀ a, P (f a)) : P (l.mapM f) := by
  induction l with
  | nil => exact h.pure _
  | cons a l ih =>
      rw [List.mapM_cons]
      exact h.bind (hf a) fun _ => h.bind ih fun _ => h.pure _

end Compositional

end StepGraph
