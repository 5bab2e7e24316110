import Mathlib

/-!
# Computations that may stop

A computation either stops with a reason or returns a result. `Ensures` says
that every reason it stops with is admitted and every result meets a
postcondition. The rules follow the construction of a program: sequencing in
`Except` and in a state monad over it, branching and weakening.
-/

namespace Xv6Rust.Results

variable {ε α β σ : Type}

/-- A result is passed on. -/
theorem ok_bind (a : α) (f : α → Except ε β) : (Except.ok a >>= f)=f a := rfl

/-- A reason to stop is final. -/
theorem error_bind (e : ε) (f : α → Except ε β) : (Except.error e >>= f)=Except.error e := rfl

/-- A sequence that returns a result went through a result of its first part. -/
theorem bind_eq_ok {r : Except ε α} {f : α → Except ε β} {b : β} (h : (r >>= f)=.ok b) :
    ∃ a,r=.ok a ∧ f a=.ok b := by
  cases r with
  | ok a => exact ⟨a,rfl,h⟩
  | error e => cases h

/-- Admitted reasons to stop and a postcondition for the result. -/
def Ensures (E : ε → Prop) (r : Except ε α) (Q : α → Prop) : Prop :=
  match r with
  | .ok a => Q a
  | .error e => E e

variable {E : ε → Prop} {Q Q' : α → Prop} {R : β → Prop}

@[simp] theorem ensures_ok {a : α} : Ensures E (.ok a) Q ↔ Q a := Iff.rfl

@[simp] theorem ensures_error {e : ε} : Ensures E (.error e : Except ε α) Q ↔ E e := Iff.rfl

/-- A weaker postcondition is met too. -/
theorem Ensures.imp {r : Except ε α} (h : Ensures E r Q) (hQ : ∀ a,Q a → Q' a) :
    Ensures E r Q' := by
  cases r with
  | ok a => exact hQ a h
  | error e => exact h

/-- The postcondition may speak of the computation itself. -/
theorem Ensures.eq_ok {r : Except ε α} (h : Ensures E r Q) :
    Ensures E r fun a => r=.ok a ∧ Q a := by
  cases r with
  | ok a => exact ⟨rfl,h⟩
  | error e => exact h

/-- The reason to stop is translated. -/
theorem ensures_mapError {ε' : Type} {F : ε' → Prop} {f : ε → ε'} (hf : ∀ e,F (f e))
    (r : Except ε α) : Ensures F (r.mapError f) fun a => r=.ok a := by
  cases r with
  | ok a => exact rfl
  | error e => exact hf e

/-- Sequencing in `Except`. -/
theorem Ensures.bind {r : Except ε α} {f : α → Except ε β} (h : Ensures E r Q)
    (hf : ∀ a,Q a → Ensures E (f a) R) : Ensures E (r >>= f) R := by
  cases r with
  | ok a => exact hf a h
  | error e => exact h

/-- Branching. -/
theorem ensures_ite {c : Prop} [Decidable c] {r r' : Except ε α} (h : c → Ensures E r Q)
    (h' : ¬c → Ensures E r' Q) : Ensures E (if c then r else r') Q := by
  split
  · rename_i hc
    exact h hc
  · rename_i hc
    exact h' hc

end Xv6Rust.Results
