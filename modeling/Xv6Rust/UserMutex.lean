import Xv6Rust.Runs

/-!
# The mutex of the user library

`thread/mutex.rs`: a flag that `get` waits for, and that `drop` takes back. The tasks take turns,
so that everything a task does from one yield to the next is one step; a run is a list of such
steps, by any number of tasks in any order. What the mutex protects is not seen here.
-/

namespace Xv6Rust.UserMutex

open Runs

/-- `Mutex`, with what its tasks are about to do. -/
structure Mutex where
  /-- `locked`. -/
  locked : Bool
  /-- The task has yielded in the loop of `get`. -/
  waiting : ℕ → Bool
  /-- `get` has returned to the task, which has not released the mutex since. -/
  holding : ℕ → Bool

/-- `Mutex::new`. -/
def Mutex.new : Mutex := ⟨false,fun _ => false,fun _ => false⟩

/-- The test of the loop of `get`, and what follows it: a task that finds the flag set yields. A
task that does not compares the flag with `true`, and leaves it as it is. -/
def Mutex.get (s : Mutex) (i : ℕ) : Mutex :=
  if s.locked=true then {s with waiting := Function.update s.waiting i true}
  else
    {s with
      waiting := Function.update s.waiting i false
      holding := Function.update s.holding i true}

/-- `drop`. -/
def Mutex.drop (s : Mutex) (i : ℕ) : Mutex :=
  {s with locked := false, holding := Function.update s.holding i false}

/-- What a task does from one yield to the next. -/
inductive Act where
  /-- It calls `get`. -/
  | get (i : ℕ)
  /-- It goes on with the loop of `get`. -/
  | resume (i : ℕ)
  /-- It releases the mutex. -/
  | drop (i : ℕ)
  deriving DecidableEq

/-- One step of a task; no step fails. -/
def step (s : Mutex) : Act → Outcome Empty Mutex
  | .get i => if s.waiting i=true then .blocked else .next (s.get i)
  | .resume i => if s.waiting i=true then .next (s.get i) else .blocked
  | .drop i => if s.holding i=true ∧ s.waiting i=false then .next (s.drop i) else .blocked

/-- At most one task holds the mutex. -/
def Exclusive (s : Mutex) : Prop := ∀ i j,s.holding i=true → s.holding j=true → i=j

/-- The mutex is not called for while another task holds it. -/
def Alone (s : Mutex) : Act → Prop
  | .get i => ∀ j,s.holding j=true → j=i
  | _ => True

/-- The flag is never set, so that nobody waits. -/
structure Open (s : Mutex) : Prop where
  /-- The flag is not set. -/
  unlocked : s.locked=false
  /-- Nobody is in the loop of `get`. -/
  nobody : ∀ i,s.waiting i=false

section Steps

variable {s t : Mutex} {a : Act} {i : ℕ}

/-- `get` returns at once. -/
theorem Open.get (h : Open s) (i : ℕ) :
    s.get i={s with
      waiting := Function.update s.waiting i false
      holding := Function.update s.holding i true} := by
  rw [Mutex.get,if_neg]
  rw [h.unlocked]
  exact Bool.false_ne_true

/-- A step of an open mutex is a `get` that returns, or a release. -/
theorem Open.step_cases (h : Open s) (ht : step s a=.next t) :
    (∃ i,a=.get i ∧ t=s.get i) ∨ ∃ i,a=.drop i ∧ t=s.drop i := by
  cases a with
  | get i =>
    rw [step,h.nobody i,if_neg Bool.false_ne_true] at ht
    cases ht
    exact .inl ⟨i,rfl,rfl⟩
  | resume i =>
    rw [step,h.nobody i,if_neg Bool.false_ne_true] at ht
    cases ht
  | drop i =>
    rw [step] at ht
    split at ht
    · cases ht
      exact .inr ⟨i,rfl,rfl⟩
    · cases ht

theorem Open.step (h : Open s) (ht : step s a=.next t) : Open t := by
  obtain ⟨i,-,rfl⟩ | ⟨i,-,rfl⟩ := h.step_cases ht
  · rw [h.get]
    refine ⟨h.unlocked,fun j => ?_⟩
    show Function.update s.waiting i false j=false
    by_cases e : j=i
    · rw [e,Function.update_self]
    · rw [Function.update_of_ne e]
      exact h.nobody j
  · exact ⟨rfl,h.nobody⟩

/-- After `get` has returned to a task, it holds the mutex beside those that held it. -/
theorem Open.holding_get (h : Open s) (i j : ℕ) :
    (s.get i).holding j=true ↔ j=i ∨ s.holding j=true := by
  rw [h.get]
  show Function.update s.holding i true j=true ↔ _
  by_cases e : j=i
  · rw [e,Function.update_self]
    exact iff_of_true rfl (.inl rfl)
  · rw [Function.update_of_ne e]
    exact ⟨.inr,fun hj => hj.resolve_left e⟩

/-- A step leaves at most one task with the mutex exactly if it is not called for while another
task holds it. -/
theorem Open.exclusive_step (h : Open s) (hs : Exclusive s) :
    (∀ t,UserMutex.step s a=.next t → Exclusive t) ↔ Alone s a := by
  refine ⟨fun hall => ?_,fun halone t ht => ?_⟩
  · cases a with
    | get i =>
      have hnext : UserMutex.step s (.get i)=.next (s.get i) := by
        rw [UserMutex.step,h.nobody i,if_neg Bool.false_ne_true]
      intro j hj
      exact hall _ hnext j i ((h.holding_get i j).mpr (.inr hj)) ((h.holding_get i i).mpr (.inl rfl))
    | resume i => trivial
    | drop i => trivial
  · obtain ⟨i,rfl,rfl⟩ | ⟨i,-,rfl⟩ := h.step_cases ht
    · intro j k hj hk
      have hji : j=i := ((h.holding_get i j).mp hj).elim id (halone j)
      have hki : k=i := ((h.holding_get i k).mp hk).elim id (halone k)
      rw [hji,hki]
    · have hback : ∀ j,(s.drop i).holding j=true → s.holding j=true := by
        intro j hj
        change Function.update s.holding i false j=true at hj
        by_cases e : j=i
        · rw [e,Function.update_self] at hj
          cases hj
        · rwa [Function.update_of_ne e] at hj
      exact fun j k hj hk => hs j k (hback j hj) (hback k hk)

end Steps

theorem new_open : Open .new := ⟨rfl,fun _ => rfl⟩

theorem new_exclusive : Exclusive .new := fun _ _ h => by cases h

/-- In a run of any number of tasks, at most one of them holds the mutex after every step, exactly
if nobody calls `get` while another task holds it. -/
theorem mutex_excludes (as : List Act) :
    Guarded step (fun s a => ∀ t,step s a=.next t → Exclusive t) .new as ↔
      Guarded step Alone .new as := by
  have hstep : ∀ s a t,Open s ∧ Exclusive s → (∀ t,step s a=.next t → Exclusive t) →
      step s a=.next t → Open t ∧ Exclusive t := fun s a t hs hc ht => ⟨hs.1.step ht,hc t ht⟩
  exact guarded_iff hstep (fun s a hs => hs.1.exclusive_step hs.2) ⟨new_open,new_exclusive⟩ as

/-- A second task gets the mutex while the first one holds it. -/
theorem get_does_not_lock :
    ∃ s,run step .new [.get 1,.get 2]=.next s ∧ s.holding 1=true ∧ s.holding 2=true := by
  obtain ⟨s,hs,htest⟩ := Outcome.exists_of_test (o:=run step .new [.get 1,.get 2])
    (p:=fun s => s.holding 1 && s.holding 2) (by decide +kernel)
  rw [Bool.and_eq_true] at htest
  exact ⟨s,hs,htest⟩

end Xv6Rust.UserMutex
