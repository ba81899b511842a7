import RelQuery.Failure

/-!
# Answers of composed calls
-/

set_option autoImplicit false

namespace RelQuery

def Failure.IsRefusal (f : Failure) : Prop :=
  ∃ cause, f = .refused cause

theorem Failure.isRefusal_refused (cause : Refusal) : (Failure.refused cause).IsRefusal :=
  ⟨cause, rfl⟩

namespace Outcome

variable {α β : Type}

theorem bind_eq_ok {r : Outcome α} {k : α → Outcome β} {b : β} :
    (r >>= k) = .ok b ↔ ∃ a, r = .ok a ∧ k a = .ok b := by
  constructor
  · intro h
    cases r with
    | error f => cases h
    | ok a => exact ⟨a, rfl, h⟩
  · rintro ⟨a, rfl, h⟩
    exact h

theorem map_eq_ok {r : Outcome α} {g : α → β} {b : β} :
    r.map g = .ok b ↔ ∃ a, r = .ok a ∧ g a = b := by
  cases r <;> simp [Except.map]

theorem element_eq_ok {xs : List α} {i : Nat} {a : α} : element xs i = .ok a ↔ xs[i]? = some a := by
  rw [element]
  cases xs[i]? <;> simp

theorem ofRefusable_eq_ok {r : Except Refusal α} {a : α} : ofRefusable r = .ok a ↔ r = .ok a := by
  cases r <;> simp [ofRefusable]

def FailsOnly (P : Failure → Prop) (r : Outcome α) : Prop :=
  ∀ f, r = .error f → P f

section FailsOnly

variable {P Q : Failure → Prop}

theorem failsOnly_ok (a : α) : FailsOnly P (.ok a) := nofun

theorem failsOnly_error {f : Failure} (hf : P f) : FailsOnly P (.error f : Outcome α) := by
  intro g hg
  cases hg
  exact hf

theorem failsOnly_of_exists {r : Outcome α} (h : ∃ a, r = .ok a) : FailsOnly P r := by
  obtain ⟨a, rfl⟩ := h
  exact failsOnly_ok a

theorem FailsOnly.bind {r : Outcome α} {k : α → Outcome β} (hr : FailsOnly P r)
    (hk : ∀ a, r = .ok a → FailsOnly P (k a)) : FailsOnly P (r >>= k) := by
  rcases r with f | a
  · intro g hg
    cases hg
    exact hr f rfl
  · exact hk a rfl

theorem FailsOnly.map {r : Outcome α} (hr : FailsOnly P r) (g : α → β) :
    FailsOnly P (r.map g) := by
  rcases r with f | a
  · exact failsOnly_error (hr f rfl)
  · exact failsOnly_ok (g a)

theorem FailsOnly.mono {r : Outcome α} (hr : FailsOnly P r) (hPQ : ∀ f, P f → Q f) :
    FailsOnly Q r := fun f hf => hPQ f (hr f hf)

theorem failsOnly_ofRefusable {r : Except Refusal α} (h : ∀ cause, P (.refused cause)) :
    FailsOnly P (ofRefusable r) := by
  cases r with
  | ok a => exact failsOnly_ok a
  | error cause => exact failsOnly_error (h cause)

end FailsOnly

end Outcome

end RelQuery
