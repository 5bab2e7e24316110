import Mathlib

/-!
# Labelled runs of partial machines

A machine takes labelled steps. A label that is not enabled blocks, a label
that reaches a failed assertion stops with a fault, and every other label gives
the next state. The scheduler of a concurrent system is the list of labels, so
a statement over every list of labels is a statement over every interleaving.
The rules below lift what one step preserves to what a whole run preserves.
-/

namespace Xv6Rust.Runs

/-- What one labelled step of a machine does. -/
inductive Outcome (φ σ : Type*) where
  /-- The label is not enabled in this state. -/
  | blocked
  /-- A failed assertion, with its reason. -/
  | fault (reason : φ)
  /-- The step is taken. -/
  | next (state : σ)
  deriving DecidableEq

variable {σ α φ : Type*}

/-- A test of the state a step or a run gives. -/
def Outcome.test (p : σ → Bool) : Outcome φ σ → Bool
  | .next s => p s
  | _ => false

/-- A test that succeeds has found a state. -/
theorem Outcome.exists_of_test {p : σ → Bool} {o : Outcome φ σ} (h : o.test p=true) :
    ∃ s,o=.next s ∧ p s=true := by
  cases o with
  | blocked => cases h
  | fault e => cases h
  | next s => exact ⟨s,rfl,h⟩

/-- The reason a step or a run fails for. -/
def Outcome.failure : Outcome φ σ → Option φ
  | .fault e => some e
  | _ => none

theorem Outcome.eq_fault {o : Outcome φ σ} {e : φ} (h : o.failure=some e) : o=.fault e := by
  cases o with
  | blocked => cases h
  | fault e' =>
    cases h
    rfl
  | next s => cases h

/-- A label that is not enabled does no harm. -/
theorem Outcome.blocked_safe {e : φ} {P : σ → Prop} :
    (.blocked : Outcome φ σ)≠.fault e ∧ ∀ t,(.blocked : Outcome φ σ)=.next t → P t :=
  ⟨(fun h => by cases h),fun t h => by cases h⟩

/-- A step that is taken does no harm if the new state is as it should be. -/
theorem Outcome.next_safe {e : φ} {P : σ → Prop} {s : σ} (h : P s) :
    (.next s : Outcome φ σ)≠.fault e ∧ ∀ t,(.next s : Outcome φ σ)=.next t → P t := by
  refine ⟨(fun h => by cases h),fun t ht => ?_⟩
  cases ht
  exact h

/-- Go on with the state a step gives. -/
def Outcome.bind {τ : Type*} : Outcome φ σ → (σ → Outcome φ τ) → Outcome φ τ
  | .blocked,_ => .blocked
  | .fault e,_ => .fault e
  | .next s,f => f s

/-- Two steps that are taken. -/
theorem Outcome.bind_eq_next {τ : Type*} {o : Outcome φ σ} {f : σ → Outcome φ τ} {t : τ}
    (h : o.bind f=.next t) : ∃ s,o=.next s ∧ f s=.next t := by
  cases o with
  | blocked => cases h
  | fault e => cases h
  | next s => exact ⟨s,rfl,h⟩

/-- The first of two steps stops, or the second does. -/
theorem Outcome.bind_eq_fault {τ : Type*} {o : Outcome φ σ} {f : σ → Outcome φ τ} {e : φ}
    (h : o.bind f=.fault e) : o=.fault e ∨ ∃ s,o=.next s ∧ f s=.fault e := by
  cases o with
  | blocked => cases h
  | fault e' =>
    cases h
    exact .inl rfl
  | next s => exact .inr ⟨s,rfl,h⟩

/-- Execute a list of labels from a state, stopping at the first label that
blocks or faults. -/
def run (step : σ → α → Outcome φ σ) : σ → List α → Outcome φ σ
  | s,[] => .next s
  | s,a::as =>
    match step s a with
    | .blocked => .blocked
    | .fault e => .fault e
    | .next t => run step t as

/-- Every label that is executed meets the condition in the state it is taken
from. -/
def Guarded (step : σ → α → Outcome φ σ) (cond : σ → α → Prop) : σ → List α → Prop
  | _,[] => True
  | s,a::as => cond s a ∧
    match step s a with
    | .next t => Guarded step cond t as
    | _ => True

instance decidableGuarded (step : σ → α → Outcome φ σ) (cond : σ → α → Prop)
    [∀ s a, Decidable (cond s a)] : ∀ s as, Decidable (Guarded step cond s as)
  | _,[] => inferInstanceAs (Decidable True)
  | s,a::as =>
    match h : step s a with
    | .blocked => decidable_of_iff (cond s a) (by rw [Guarded,h,and_true])
    | .fault _ => decidable_of_iff (cond s a) (by rw [Guarded,h,and_true])
    | .next t =>
      have := decidableGuarded step cond t as
      decidable_of_iff (cond s a ∧ Guarded step cond t as) (by rw [Guarded,h])

@[simp] theorem run_nil (step : σ → α → Outcome φ σ) (s : σ) : run step s []=.next s := rfl

/-- A run continues exactly from the state its first step gives. -/
theorem run_cons_next {step : σ → α → Outcome φ σ} {s t : σ} {a : α} (as : List α)
    (h : step s a=.next t) : run step s (a::as)=run step t as := by
  rw [run,h]

/-- A run that reaches a state has taken its first step. -/
theorem run_cons_eq_next {step : σ → α → Outcome φ σ} {s t : σ} {a : α} {as : List α}
    (h : run step s (a::as)=.next t) :
    ∃ u, step s a=.next u ∧ run step u as=.next t := by
  rw [run] at h
  cases hs : step s a with
  | blocked => rw [hs] at h; cases h
  | fault e => rw [hs] at h; cases h
  | next u => rw [hs] at h; exact ⟨u,rfl,h⟩

/-- Runs compose: the labels of a second list continue from the state the
first list reaches. -/
theorem run_append {step : σ → α → Outcome φ σ} {s t : σ} {as : List α} (bs : List α)
    (h : run step s as=.next t) : run step s (as++bs)=run step t bs := by
  induction as generalizing s with
  | nil => cases h; rfl
  | cons a as ih =>
    obtain ⟨u,hu,hr⟩ := run_cons_eq_next h
    rw [List.cons_append,run_cons_next _ hu]
    exact ih hr

/-- A guarded run is guarded from the state its first step gives. -/
theorem guarded_next {step : σ → α → Outcome φ σ} {cond : σ → α → Prop} {s t : σ} {a : α}
    {as : List α} (hg : Guarded step cond s (a::as)) (h : step s a=.next t) :
    Guarded step cond t as := by
  rw [Guarded,h] at hg
  exact hg.2

/-- Guarded runs compose. -/
theorem guarded_append {step : σ → α → Outcome φ σ} {cond : σ → α → Prop} {s t : σ}
    {as bs : List α} (hg : Guarded step cond s as) (hr : run step s as=.next t)
    (hb : Guarded step cond t bs) : Guarded step cond s (as++bs) := by
  induction as generalizing s with
  | nil =>
    cases hr
    exact hb
  | cons a as ih =>
    obtain ⟨u,hu,hr⟩ := run_cons_eq_next hr
    rw [List.cons_append,Guarded,hu]
    exact ⟨hg.1,ih (guarded_next hg hu) hr⟩

/-- A condition that holds of every label of a run guards it. -/
theorem guarded_of_mem {step : σ → α → Outcome φ σ} {cond : σ → α → Prop} {as : List α}
    (h : ∀ a∈as,∀ s,cond s a) (s : σ) : Guarded step cond s as := by
  induction as generalizing s with
  | nil => trivial
  | cons a as ih =>
    have hrest := ih fun b hb => h b (List.mem_cons_of_mem a hb)
    refine ⟨h a List.mem_cons_self s,?_⟩
    split
    · exact hrest _
    · trivial

/-- A condition that always holds guards every run. -/
theorem guarded_of_forall {step : σ → α → Outcome φ σ} {cond : σ → α → Prop}
    (h : ∀ s a, cond s a) (s : σ) (as : List α) : Guarded step cond s as :=
  guarded_of_mem (fun a _ s => h s a) s

/-- Conditions that agree on every step that is taken guard the same completed runs. -/
theorem guarded_congr {step : σ → α → Outcome φ σ} {cond cond' : σ → α → Prop}
    (h : ∀ s a t,step s a=.next t → (cond s a ↔ cond' s a)) {s t : σ} {as : List α}
    (hr : run step s as=.next t) : Guarded step cond s as ↔ Guarded step cond' s as := by
  induction as generalizing s with
  | nil => exact Iff.rfl
  | cons a as ih =>
    obtain ⟨u,hu,hr⟩ := run_cons_eq_next hr
    simp only [Guarded,hu]
    rw [h s a u hu,ih hr]

/-- Where each step is a step of another system, each run is a run of it. -/
theorem run_simulation {ρ ψ : Type*} {step : σ → α → Outcome φ σ} {step' : ρ → α → Outcome ψ ρ}
    {R : σ → ρ → Prop}
    (hstep : ∀ s e a t,R s e → step s a=.next t → ∃ f,step' e a=.next f ∧ R t f)
    {s t : σ} {e : ρ} {as : List α} (h0 : R s e) (hr : run step s as=.next t) :
    ∃ f,run step' e as=.next f ∧ R t f := by
  induction as generalizing s e with
  | nil =>
    cases hr
    exact ⟨e,rfl,h0⟩
  | cons a as ih =>
    obtain ⟨u,hu,hr⟩ := run_cons_eq_next hr
    obtain ⟨f,hf,hR⟩ := hstep s e a u h0 hu
    rw [run_cons_next as hf]
    exact ih hR hr

section Invariant

variable {step : σ → α → Outcome φ σ} {cond : σ → α → Prop} {Inv : σ → Prop}

/-- What every guarded step preserves holds at the end of every guarded run. -/
theorem run_invariant
    (hstep : ∀ s a t, Inv s → cond s a → step s a=.next t → Inv t)
    {s t : σ} {as : List α} (h0 : Inv s) (hg : Guarded step cond s as)
    (hr : run step s as=.next t) : Inv t := by
  induction as generalizing s with
  | nil => cases hr; exact h0
  | cons a as ih =>
    obtain ⟨u,hu,hr⟩ := run_cons_eq_next hr
    exact ih (hstep s a u h0 hg.1 hu) (guarded_next hg hu) hr

/-- A fault that no guarded step from an invariant state can raise is raised by
no guarded run. -/
theorem run_no_fault
    (hstep : ∀ s a t, Inv s → cond s a → step s a=.next t → Inv t) {e : φ}
    (hsafe : ∀ s a, Inv s → cond s a → step s a≠.fault e)
    {s : σ} {as : List α} (h0 : Inv s) (hg : Guarded step cond s as) :
    run step s as≠.fault e := by
  induction as generalizing s with
  | nil => intro h; cases h
  | cons a as ih =>
    intro h
    rw [run] at h
    cases hs : step s a with
    | blocked => rw [hs] at h; cases h
    | fault e' =>
      rw [hs] at h
      cases h
      exact hsafe s a h0 hg.1 hs
    | next t =>
      rw [hs] at h
      exact ih (hstep s a t h0 hg.1 hs) (guarded_next hg hs) h

/-- Conditions that agree in every state of an invariant guard the same runs. -/
theorem guarded_iff {cond' : σ → α → Prop}
    (hstep : ∀ s a t, Inv s → cond s a → step s a=.next t → Inv t)
    (hiff : ∀ s a, Inv s → (cond s a ↔ cond' s a)) {s : σ} (h0 : Inv s) (as : List α) :
    Guarded step cond s as ↔ Guarded step cond' s as := by
  induction as generalizing s with
  | nil => exact Iff.rfl
  | cons a as ih =>
    rw [Guarded,Guarded,← hiff s a h0]
    refine and_congr_right fun hc => ?_
    cases hs : step s a with
    | blocked => exact Iff.rfl
    | fault e => exact Iff.rfl
    | next t => exact ih (hstep s a t h0 hc hs)

end Invariant

section Prefixes

variable {step : σ → α → Outcome φ σ} {cond : σ → α → Prop} {s t : σ} {as : List α}

/-- A run that fails reaches a state whose next step fails. -/
theorem exists_of_fault {e : φ} (h : run step s as=.fault e) :
    ∃ bs a cs u,as=bs++a::cs ∧ run step s bs=.next u ∧ step u a=.fault e := by
  induction as generalizing s with
  | nil => cases h
  | cons a as ih =>
    rw [run] at h
    cases hs : step s a with
    | blocked => rw [hs] at h; cases h
    | fault e' =>
      rw [hs] at h
      cases h
      exact ⟨[],a,as,s,rfl,rfl,hs⟩
    | next v =>
      rw [hs] at h
      obtain ⟨bs,b,cs,u,rfl,hr,hu⟩ := ih h
      exact ⟨a::bs,b,cs,u,rfl,(run_cons_next bs hs).trans hr,hu⟩

/-- A run up to some of its labels is guarded if it is. -/
theorem guarded_front {bs : List α} (h : Guarded step cond s (as++bs)) :
    Guarded step cond s as := by
  induction as generalizing s with
  | nil => trivial
  | cons a as ih =>
    rw [List.cons_append,Guarded] at h
    refine ⟨h.1,?_⟩
    cases hs : step s a with
    | blocked => trivial
    | fault e => trivial
    | next v =>
      have h2 := h.2
      rw [hs] at h2
      exact ih h2

/-- A run passes through a state after some of its labels. -/
theorem exists_of_append {bs : List α} (h : run step s (as++bs)=.next t) :
    ∃ u,run step s as=.next u ∧ run step u bs=.next t := by
  induction as generalizing s with
  | nil => exact ⟨s,rfl,h⟩
  | cons a as ih =>
    obtain ⟨v,hv,hr⟩ := run_cons_eq_next h
    obtain ⟨u,hu,hb⟩ := ih hr
    exact ⟨u,(run_cons_next as hv).trans hu,hb⟩

/-- What holds of the start, and of a run that is a step longer, holds of every run. -/
theorem run_history {P : List α → σ → Prop} (h0 : P [] s)
    (hstep : ∀ as u a v,run step s as=.next u → P as u → step u a=.next v → P (as++[a]) v)
    (hr : run step s as=.next t) : P as t := by
  induction as using List.reverseRecOn generalizing t with
  | nil =>
    cases hr
    exact h0
  | append_singleton as a ih =>
    obtain ⟨u,hu,ha⟩ := exists_of_append hr
    obtain ⟨v,hv,hnil⟩ := run_cons_eq_next ha
    cases hnil
    exact hstep as u a _ hu (ih hu) hv

end Prefixes

end Xv6Rust.Runs
