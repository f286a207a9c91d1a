import TourSearch.Fault
import Mathlib

/-!
Steps that succeed and steps that fail. `Action.Gives` says that a step ends with a result and in
which state it leaves the world, `Action.Fails` for which cause it fails; the lemmas below take a
composed step apart into the steps it consists of, and put it together again. A step that does not
fail is `Action.Safe`, and a part of the state that a step leaves alone however it ends is described
by `Action.Leaves`.
-/

namespace TourSearch

theorem except_bind_eq_ok {ε α β : Type} {x : Except ε α} {f : α → Except ε β} {b : β} :
    x >>= f = .ok b ↔ ∃ a, x = .ok a ∧ f a = .ok b := by
  cases x with
  | error e => simp [bind, Except.bind]
  | ok a => simp [bind, Except.bind]

theorem except_map_eq_ok {ε α β : Type} {x : Except ε α} {f : α → β} {b : β} :
    x.map f = .ok b ↔ ∃ a, x = .ok a ∧ f a = b := by
  cases x with
  | error e => simp [Except.map]
  | ok a => simp [Except.map]

namespace Action

variable {σ τ β γ : Type}

/-- The step ends with the result `b`, and leaves the state `s'`. -/
def Gives (x : Action σ β) (s : σ) (b : β) (s' : σ) : Prop := x.runOn s = (.ok b, s')

theorem Gives.unique {x : Action σ β} {s s₁ s₂ : σ} {b₁ b₂ : β} (h₁ : x.Gives s b₁ s₁)
    (h₂ : x.Gives s b₂ s₂) : b₁ = b₂ ∧ s₁ = s₂ := by
  unfold Gives at h₁ h₂
  rw [h₁] at h₂
  simpa using h₂

@[simp] theorem gives_pure {a b : β} {s s' : σ} :
    (pure a : Action σ β).Gives s b s' ↔ a = b ∧ s = s' := by
  show ((Except.ok a, s) : Except Fault β × σ) = (.ok b, s') ↔ _
  simp

theorem runOn_bind (x : Action σ β) (f : β → Action σ γ) (s : σ) :
    (x >>= f).runOn s = match x.runOn s with
      | (.ok b, s₁) => (f b).runOn s₁
      | (.error fault, s₁) => (.error fault, s₁) := by
  show ExceptT.bindCont f (x.runOn s).1 (x.runOn s).2 = _
  cases x.runOn s with
  | mk result s₁ => cases result <;> rfl

@[simp] theorem gives_bind {x : Action σ β} {f : β → Action σ γ} {c : γ} {s s' : σ} :
    (x >>= f).Gives s c s' ↔ ∃ b s₁, x.Gives s b s₁ ∧ (f b).Gives s₁ c s' := by
  unfold Gives
  rw [runOn_bind]
  cases x.runOn s with
  | mk result s₁ =>
      cases result with
      | error fault => simp
      | ok b =>
          constructor
          · intro h
            exact ⟨b, s₁, rfl, h⟩
          · rintro ⟨b', s₁', heq, h⟩
            obtain ⟨hb, rfl⟩ := Prod.mk.inj heq
            obtain rfl := Except.ok.inj hb
            exact h

@[simp] theorem gives_get {s s₁ s' : σ} :
    (get : Action σ σ).Gives s s₁ s' ↔ s = s₁ ∧ s = s' := by
  show ((Except.ok s, s) : Except Fault σ × σ) = (.ok s₁, s') ↔ _
  simp

@[simp] theorem gives_modify {f : σ → σ} {u : PUnit} {s s' : σ} :
    (modify f : Action σ PUnit).Gives s u s' ↔ f s = s' := by
  show ((Except.ok PUnit.unit, f s) : Except Fault PUnit × σ) = (.ok u, s') ↔ _
  simp

@[simp] theorem gives_throw {fault : Fault} {b : β} {s s' : σ} :
    (throw fault : Action σ β).Gives s b s' ↔ False := by
  show ((Except.error fault, s) : Except Fault β × σ) = (.ok b, s') ↔ _
  simp

@[simp] theorem gives_ofExcept {x : Except Fault β} {b : β} {s s' : σ} :
    (MonadExcept.ofExcept x : Action σ β).Gives s b s' ↔ x = .ok b ∧ s = s' := by
  cases x with
  | error fault => exact gives_throw.trans (by simp)
  | ok a => exact gives_pure.trans (by simp)

theorem gives_zoom {get : τ → σ} {set : σ → τ → τ} {x : Action σ β} {b : β} {s s' : τ} :
    (x.zoom get set).Gives s b s' ↔ ∃ part, x.Gives (get s) b part ∧ set part s = s' := by
  have hzoom : (x.zoom get set).runOn s =
      ((x.runOn (get s)).1, set (x.runOn (get s)).2 s) := rfl
  unfold Gives
  rw [hzoom]
  cases x.runOn (get s) with
  | mk result part => simp

/-! ### Failures -/

def Fails (x : Action σ β) (s : σ) (fault : Fault) (s' : σ) : Prop :=
  x.runOn s = (.error fault, s')

theorem gives_or_fails (x : Action σ β) (s : σ) :
    (∃ b s', x.Gives s b s') ∨ ∃ fault s', x.Fails s fault s' := by
  rcases h : x.runOn s with ⟨_ | b, s'⟩
  · exact Or.inr ⟨_, s', h⟩
  · exact Or.inl ⟨b, s', h⟩

@[simp] theorem fails_pure {a : β} {fault : Fault} {s s' : σ} :
    (pure a : Action σ β).Fails s fault s' ↔ False := by
  show ((Except.ok a, s) : Except Fault β × σ) = (.error fault, s') ↔ _
  simp

@[simp] theorem fails_bind {x : Action σ β} {f : β → Action σ γ} {fault : Fault} {s s' : σ} :
    (x >>= f).Fails s fault s' ↔
      x.Fails s fault s' ∨ ∃ b s₁, x.Gives s b s₁ ∧ (f b).Fails s₁ fault s' := by
  unfold Fails Gives
  rw [runOn_bind]
  cases x.runOn s with
  | mk result s₁ =>
      cases result with
      | error fault' => simp
      | ok b =>
          simp only [Prod.mk.injEq, reduceCtorEq, false_and, false_or, Except.ok.injEq]
          constructor
          · intro h
            exact ⟨b, s₁, ⟨rfl, rfl⟩, h⟩
          · rintro ⟨b', s₁', ⟨rfl, rfl⟩, h⟩
            exact h

@[simp] theorem fails_get {fault : Fault} {s s' : σ} :
    (get : Action σ σ).Fails s fault s' ↔ False := by
  show ((Except.ok s, s) : Except Fault σ × σ) = (.error fault, s') ↔ _
  simp

@[simp] theorem fails_modify {f : σ → σ} {fault : Fault} {s s' : σ} :
    (modify f : Action σ PUnit).Fails s fault s' ↔ False := by
  show ((Except.ok PUnit.unit, f s) : Except Fault PUnit × σ) = (.error fault, s') ↔ _
  simp

@[simp] theorem fails_throw {cause fault : Fault} {s s' : σ} :
    (throw cause : Action σ β).Fails s fault s' ↔ cause = fault ∧ s = s' := by
  show ((Except.error cause, s) : Except Fault β × σ) = (.error fault, s') ↔ _
  simp

@[simp] theorem fails_ofExcept {x : Except Fault β} {fault : Fault} {s s' : σ} :
    (MonadExcept.ofExcept x : Action σ β).Fails s fault s' ↔ x = .error fault ∧ s = s' := by
  cases x with
  | error cause => exact fails_throw.trans (by simp)
  | ok a => exact fails_pure.trans (by simp)

theorem fails_zoom {get : τ → σ} {set : σ → τ → τ} {x : Action σ β} {fault : Fault} {s s' : τ} :
    (x.zoom get set).Fails s fault s' ↔ ∃ part, x.Fails (get s) fault part ∧ set part s = s' := by
  have hzoom : (x.zoom get set).runOn s =
      ((x.runOn (get s)).1, set (x.runOn (get s)).2 s) := rfl
  unfold Fails
  rw [hzoom]
  cases x.runOn (get s) with
  | mk result part => simp

/-! ### Steps that do not fail -/

def Safe (x : Action σ β) (s : σ) : Prop := ∀ fault s', ¬x.Fails s fault s'

theorem Safe.gives {x : Action σ β} {s : σ} (h : x.Safe s) : ∃ b s', x.Gives s b s' :=
  (x.gives_or_fails s).resolve_right fun ⟨fault, s', hfails⟩ => h fault s' hfails

theorem Gives.safe {x : Action σ β} {s s' : σ} {b : β} (h : x.Gives s b s') : x.Safe s := by
  intro fault s₁ hfails
  exact absurd (h.symm.trans hfails) (by simp)

theorem Safe.bind {x : Action σ β} {f : β → Action σ γ} {s : σ} (hx : x.Safe s)
    (hf : ∀ b s₁, x.Gives s b s₁ → (f b).Safe s₁) : (x >>= f).Safe s := by
  intro fault s' hfails
  rcases fails_bind.mp hfails with hfirst | ⟨b, s₁, hfirst, hrest⟩
  · exact hx fault s' hfirst
  · exact hf b s₁ hfirst fault s' hrest

theorem safe_pure (a : β) (s : σ) : (pure a : Action σ β).Safe s := fun _ _ h => fails_pure.mp h

theorem safe_get (s : σ) : (get : Action σ σ).Safe s := fun _ _ h => fails_get.mp h

theorem safe_modify (f : σ → σ) (s : σ) : (modify f : Action σ PUnit).Safe s :=
  fun _ _ h => fails_modify.mp h

theorem safe_ofExcept {x : Except Fault β} {a : β} (h : x = .ok a) (s : σ) :
    (MonadExcept.ofExcept x : Action σ β).Safe s := by
  rw [h]
  exact safe_pure a s

theorem Safe.zoom {get : τ → σ} {set : σ → τ → τ} {x : Action σ β} {s : τ}
    (h : x.Safe (get s)) : (x.zoom get set).Safe s := by
  intro fault s' hfails
  obtain ⟨part, hpart, -⟩ := fails_zoom.mp hfails
  exact h fault part hpart

/-! ### What a step leaves alone -/

def Leaves (x : Action σ β) (part : σ → τ) : Prop := ∀ s, part (x.runOn s).2 = part s

variable {part : σ → τ}

theorem Leaves.of_gives {x : Action σ β} (h : x.Leaves part) {s s' : σ} {b : β}
    (hgives : x.Gives s b s') : part s' = part s := by
  rw [← h s, hgives]

theorem Leaves.of_fails {x : Action σ β} (h : x.Leaves part) {s s' : σ} {fault : Fault}
    (hfails : x.Fails s fault s') : part s' = part s := by
  rw [← h s, hfails]

theorem leaves_iff {x : Action σ β} : x.Leaves part ↔
    (∀ s b s', x.Gives s b s' → part s' = part s) ∧
      ∀ s fault s', x.Fails s fault s' → part s' = part s := by
  refine ⟨fun h => ⟨fun _ _ _ => h.of_gives, fun _ _ _ => h.of_fails⟩, fun ⟨hok, hfault⟩ s => ?_⟩
  rcases h : x.runOn s with ⟨fault | b, s'⟩
  · exact hfault s fault s' h
  · exact hok s b s' h

theorem Leaves.bind {x : Action σ β} {f : β → Action σ γ} (hx : x.Leaves part)
    (hf : ∀ b, (f b).Leaves part) : (x >>= f).Leaves part := by
  rw [leaves_iff]
  constructor
  · intro s c s' h
    obtain ⟨b, s₁, hfirst, hrest⟩ := gives_bind.mp h
    exact ((hf b).of_gives hrest).trans (hx.of_gives hfirst)
  · intro s fault s' h
    rcases fails_bind.mp h with hfirst | ⟨b, s₁, hfirst, hrest⟩
    · exact hx.of_fails hfirst
    · exact ((hf b).of_fails hrest).trans (hx.of_gives hfirst)

theorem leaves_pure (a : β) : (pure a : Action σ β).Leaves part := fun _ => rfl

theorem leaves_get : (get : Action σ σ).Leaves part := fun _ => rfl

theorem leaves_throw (fault : Fault) : (throw fault : Action σ β).Leaves part := fun _ => rfl

theorem leaves_modify {f : σ → σ} (h : ∀ s, part (f s) = part s) :
    (modify f : Action σ PUnit).Leaves part := h

theorem leaves_ofExcept (x : Except Fault β) :
    (MonadExcept.ofExcept x : Action σ β).Leaves part := by
  cases x with
  | error fault => exact leaves_throw fault
  | ok a => exact leaves_pure a

end Action

end TourSearch
