import Mathlib

/-!
# Pre- and postconditions of programs with state and errors

A program takes a state and gives a result with a new state, or an error. A triple says what a
program that starts in a state of its precondition gives, and which errors it may stop with.
There is one rule for each way in which programs are put together.
-/

namespace Xv6Rust.Triples

universe u

variable {σ α β : Type u} {ε : Type*}

/-- From a state of `P` the program gives a result and a state of `Q`, or an error of `E`. -/
def Triple (P : σ → Prop) (m : StateT σ (Except ε) α) (Q : α → σ → Prop) (E : ε → Prop) : Prop :=
  ∀ s,P s → (∀ a t,m s=.ok (a,t) → Q a t) ∧ ∀ e,m s=.error e → E e

variable {P P' : σ → Prop} {Q Q' : α → σ → Prop} {R : β → σ → Prop} {E : ε → Prop}
  {m : StateT σ (Except ε) α} {f : α → StateT σ (Except ε) β}

/-- Preconditions are strengthened, postconditions are weakened. -/
theorem Triple.mono (h : Triple P m Q E) (hP : ∀ s,P' s → P s) (hQ : ∀ a s,Q a s → Q' a s) :
    Triple P' m Q' E :=
  fun s hs => ⟨fun a t ht => hQ a t ((h s (hP s hs)).1 a t ht),(h s (hP s hs)).2⟩

theorem Triple.pre (h : Triple P m Q E) (hP : ∀ s,P' s → P s) : Triple P' m Q E :=
  h.mono hP fun _ _ hq => hq

theorem Triple.post (h : Triple P m Q E) (hQ : ∀ a s,Q a s → Q' a s) : Triple P m Q' E :=
  h.mono (fun _ hp => hp) hQ

/-- Two triples of a program hold together. -/
theorem Triple.and {E' : ε → Prop} (h : Triple P m Q E) (h' : Triple P' m Q' E') :
    Triple (fun s => P s ∧ P' s) m (fun a s => Q a s ∧ Q' a s) E :=
  fun s hs => ⟨fun a t ht => ⟨(h s hs.1).1 a t ht,(h' s hs.2).1 a t ht⟩,(h s hs.1).2⟩

/-- A result. -/
theorem Triple.pure {a : α} (h : ∀ s,P s → Q a s) :
    Triple P (Pure.pure a : StateT σ (Except ε) α) Q E := by
  refine fun s hs => ⟨fun b t ht => ?_,fun e he => ?_⟩
  · cases ht
    exact h s hs
  · cases he

/-- An error. -/
theorem Triple.throw {e : ε} (h : E e) : Triple P (throw e : StateT σ (Except ε) α) Q E := by
  refine fun s _ => ⟨fun b t ht => ?_,fun e' he => ?_⟩
  · cases ht
  · cases he
    exact h

/-- One program after another. -/
theorem Triple.bind (hm : Triple P m Q E) (hf : ∀ a,Triple (Q a) (f a) R E) :
    Triple P (m >>= f) R E := by
  intro s hs
  have hfirst := hm s hs
  have hbind : (m >>= f) s=(m s >>= fun x => f x.1 x.2) := rfl
  rw [hbind]
  cases h : m s with
  | error e =>
    refine ⟨fun b t ht => ?_,fun e' he => ?_⟩
    · cases ht
    · cases he
      exact hfirst.2 e h
  | ok x => exact hf x.1 x.2 (hfirst.1 x.1 x.2 h)

/-- A choice. -/
theorem Triple.ite {c : Prop} [Decidable c] {m' : StateT σ (Except ε) α}
    (h : c → Triple P m Q E) (h' : ¬c → Triple P m' Q E) : Triple P (if c then m else m') Q E := by
  split
  · exact h (by assumption)
  · exact h' (by assumption)

section Erasure

variable {τ : Type u}

/-- The program with part of its state left out, as `f` leaves it out, is another program. -/
def Erases (f : σ → τ) (m : StateT σ (Except ε) α) (m' : StateT τ (Except ε) α) : Prop :=
  ∀ s,(m s).map (fun x => (x.1,f x.2))=m' (f s)

variable {f : σ → τ} {n : StateT σ (Except ε) α} {n' : StateT τ (Except ε) α}
  {k : α → StateT σ (Except ε) β} {k' : α → StateT τ (Except ε) β}

theorem Erases.pure (a : α) : Erases (ε:=ε) f (Pure.pure a) (Pure.pure a) := fun _ => rfl

theorem Erases.throw (e : ε) : Erases (α:=α) f (throw e) (throw e) := fun _ => rfl

theorem Erases.bind (h : Erases f n n') (hk : ∀ a,Erases f (k a) (k' a)) :
    Erases f (n >>= k) (n' >>= k') := by
  intro s
  have hfirst : (n' >>= k') (f s)=(n' (f s) >>= fun x => k' x.1 x.2) := rfl
  have hsecond : (n >>= k) s=(n s >>= fun x => k x.1 x.2) := rfl
  rw [hfirst,hsecond,← h s]
  cases n s with
  | error e => rfl
  | ok x => exact hk x.1 x.2

theorem Erases.ite {c : Prop} [Decidable c] {m : StateT σ (Except ε) α}
    {m' : StateT τ (Except ε) α} (h : c → Erases f n n') (h' : ¬c → Erases f m m') :
    Erases f (if c then n else m) (if c then n' else m') := by
  split
  · exact h (by assumption)
  · exact h' (by assumption)

/-- What the other program gives is what the program gives, with the rest of its state. -/
theorem Erases.triple {P : τ → Prop} {Q : α → τ → Prop} {E : ε → Prop} (h : Erases f n n')
    (ht : Triple P n' Q E) : Triple (fun s => P (f s)) n (fun a s => Q a (f s)) E := by
  intro s hs
  have heq := h s
  refine ⟨fun a t hok => ?_,fun e herr => ?_⟩
  · rw [hok] at heq
    exact (ht (f s) hs).1 a (f t) heq.symm
  · rw [herr] at heq
    exact (ht (f s) hs).2 e heq.symm

end Erasure

end Xv6Rust.Triples
