namespace PCode

variable {ε α : Type} {x : Except ε α}

theorem bind_eq_ok_iff {β : Type} {f : α → Except ε β} {b : β} :
    (x >>= f) = .ok b ↔ ∃ a, x = .ok a ∧ f a = .ok b := by
  cases x <;> simp [bind, Except.bind]

theorem bind_eq_error_iff {β : Type} {f : α → Except ε β} {e : ε} :
    (x >>= f) = .error e ↔ x = .error e ∨ ∃ a, x = .ok a ∧ f a = .error e := by
  cases x <;> simp [bind, Except.bind]

theorem mapError_eq_ok_iff {ε' : Type} {f : ε → ε'} {a : α} : x.mapError f = .ok a ↔ x = .ok a := by
  cases x with
  | error e => exact ⟨nofun, nofun⟩
  | ok v =>
    constructor
    · intro h
      cases h
      rfl
    · intro h
      cases h
      rfl

theorem mapError_eq_error_iff {ε' : Type} {f : ε → ε'} {e' : ε'} :
    x.mapError f = .error e' ↔ ∃ e, x = .error e ∧ f e = e' := by
  constructor
  · intro h
    cases x with
    | error e =>
      cases h
      exact ⟨e, rfl, rfl⟩
    | ok v => cases h
  · rintro ⟨e, rfl, rfl⟩
    rfl

theorem map_eq_ok_iff {β : Type} {f : α → β} {b : β} :
    x.map f = .ok b ↔ ∃ a, x = .ok a ∧ f a = b := by
  cases x <;> simp [Except.map]

/-- Where the first computation succeeds, so does the second, with a related result. -/
def Tracks {ε ε' α β : Type} (R : α → β → Prop) (x : Except ε α) (y : Except ε' β) : Prop :=
  ∀ a, x = .ok a → ∃ b, y = .ok b ∧ R a b

namespace Tracks

variable {ε ε' α β α' β' : Type} {R : α → β → Prop} {S : α' → β' → Prop} {x : Except ε α}
  {y : Except ε' β}

theorem ok {a : α} {b : β} (h : R a b) : Tracks R (.ok a : Except ε α) (.ok b : Except ε' β) := by
  intro a' ha
  cases ha
  exact ⟨b, rfl, h⟩

theorem error {e : ε} : Tracks R (.error e : Except ε α) y := by
  intro a ha
  cases ha

theorem bind {f : α → Except ε α'} {g : β → Except ε' β'} (h : Tracks R x y)
    (hf : ∀ a b, R a b → Tracks S (f a) (g b)) : Tracks S (x >>= f) (y >>= g) := by
  intro a' ha'
  obtain ⟨a, ha, hfa⟩ := bind_eq_ok_iff.mp ha'
  obtain ⟨b, hb, hab⟩ := h a ha
  obtain ⟨b', hgb, hrelated⟩ := hf a b hab a' hfa
  exact ⟨b', bind_eq_ok_iff.mpr ⟨b, hb, hgb⟩, hrelated⟩

theorem map {f : α → α'} {g : β → β'} (h : Tracks R x y) (hf : ∀ a b, R a b → S (f a) (g b)) :
    Tracks S (f <$> x) (g <$> y) := by
  apply h.bind
  intro a b hab
  exact ok (hf a b hab)

end Tracks

section State

variable {σ ε α β : Type} {s s' : σ}

theorem bind_apply (x : StateT σ (Except ε) α) (f : α → StateT σ (Except ε) β) :
    (x >>= f) s =
      match x s with
      | .ok (a, mid) => f a mid
      | .error e => .error e := by
  show StateT.bind x f s = _
  simp only [StateT.bind, bind, Except.bind]
  cases x s with
  | error e => rfl
  | ok answer => rfl

theorem pure_apply (a : α) : (pure a : StateT σ (Except ε) α) s = .ok (a, s) := rfl

theorem bind_apply_eq_ok_iff {x : StateT σ (Except ε) α} {f : α → StateT σ (Except ε) β} {b : β} :
    (x >>= f) s = .ok (b, s') ↔ ∃ a mid, x s = .ok (a, mid) ∧ f a mid = .ok (b, s') := by
  show StateT.bind x f s = _ ↔ _
  simp only [StateT.bind, bind_eq_ok_iff, Prod.exists]

theorem bind_apply_eq_error_iff {x : StateT σ (Except ε) α} {f : α → StateT σ (Except ε) β}
    {e : ε} :
    (x >>= f) s = .error e ↔
      x s = .error e ∨ ∃ a mid, x s = .ok (a, mid) ∧ f a mid = .error e := by
  show StateT.bind x f s = _ ↔ _
  simp only [StateT.bind, bind_eq_error_iff, Prod.exists]

theorem pure_apply_eq_ok_iff {a b : α} :
    (pure a : StateT σ (Except ε) α) s = .ok (b, s') ↔ b = a ∧ s' = s := by
  rw [pure_apply]
  simp only [Except.ok.injEq, Prod.mk.injEq]
  exact and_congr eq_comm eq_comm

end State

end PCode
