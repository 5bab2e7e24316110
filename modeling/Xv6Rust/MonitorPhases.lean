import Xv6Rust.Monitors

/-!
# Sections that sleep, one step at a time

Only the thread that has the lock of a section changes its data, so the data and the point that
this thread has reached go through the section's code as those of one sequential program, whoever
the threads are. The rule says which steps that program makes.
-/

namespace Xv6Rust.Monitors

open Runs

variable {κ σ τ ι : Type*}

/-- Where a thread that has the lock is in its code; nowhere once it is about to sleep. -/
def Place.point : Place κ τ → Option τ
  | .inside t => some t
  | .waking _ _ t => some t
  | _ => none

/-- Where the thread that has the lock is in its code. -/
def System.point (s : System κ σ τ) : Option τ := s.lock.bind fun p => (s.places p).point

/-- Who waits for the lock, or will, is to enter at such a point. -/
def Place.EntersAt (entry : τ → Prop) : Place κ τ → Prop
  | .entering t => entry t
  | .parking _ t => entry t
  | .parked _ t => entry t
  | .falling _ t => entry t
  | .asleep _ t => entry t
  | .woken t => entry t
  | _ => True

/-- The data and the point after an act. -/
def Act.Leads (data data' : σ) (point' : Option τ) : Act κ σ τ → Prop
  | .update d t => data'=d ∧ point'=some t
  | .wake _ t => data'=data ∧ point'=some t
  | .sleep _ _ => data'=data ∧ point'=none
  | .leave _ => data'=data ∧ point'=none

/-- What a step does to the data and to the point. -/
inductive Moves (prog : Program κ σ τ ι) (entry : τ → Prop) (s t : System κ σ τ) : Prop where
  /-- Nothing. -/
  | same (data : t.data=s.data) (point : t.point=s.point)
  /-- A thread enters. -/
  | take (u : τ) (data : t.data=s.data) (before : s.point=none) (enters : entry u)
      (after : t.point=some u)
  /-- The thread that has the lock acts. -/
  | act (killed : Bool) (x : ι) (u : τ) (before : s.point=some u)
      (after : (prog.next killed x u s.data).Leads s.data t.data t.point)

section Point

variable {reason : κ → σ → Prop} {owes : τ → κ → Prop} {n : ℕ} {s t : System κ σ τ} {p q : ℕ}
  {v : Place κ τ} {entry : τ → Prop}

/-- The point is that of the thread that has the lock. -/
theorem Inv.point_eq (h : Inv reason owes n s) (hold : (s.places p).Holds) :
    s.point=(s.places p).point := by
  rw [System.point,(h.lock p).mpr hold]
  rfl

/-- A thread without the lock moves. -/
theorem Inv.point_move (h : Inv reason owes n s) (hold : ¬(s.places p).Holds)
    (hlock : t.lock=s.lock) (hplaces : t.places=Function.update s.places p v) :
    t.point=s.point := by
  rw [System.point,System.point,hlock]
  cases hl : s.lock with
  | none => rfl
  | some q =>
    have hne : q≠p := by
      rintro rfl
      exact hold ((h.lock q).mp hl)
    simp only [Option.bind_some,hplaces,Function.update_of_ne hne]

/-- The thread that has the lock moves and keeps it. -/
theorem point_self {f : ℕ → Place κ τ} (hlock : t.lock=some p)
    (hplaces : t.places=Function.update f p v) : t.point=v.point := by
  rw [System.point,hlock,Option.bind_some,hplaces,Function.update_self]

theorem move_self : (s.move p v).places p=v := Function.update_self ..

/-- Every step is one of these. -/
theorem step_moves [DecidableEq κ] {prog : Program κ σ τ ι} {a : Label τ ι}
    (h : Inv reason owes n s) (hentry : ∀ q,(s.places q).EntersAt entry)
    (ht : step prog n s a=.next t) : Moves prog entry s t := by
  have hlock : ∀ {p v},s.places p=v → v.Holds → s.lock=some p := fun hp hv =>
    (h.lock _).mpr (by rwa [hp])
  have hpoint : ∀ {p v},s.places p=v → v.Holds → s.point=v.point := fun {p v} hp hv => by
    rw [h.point_eq (by rwa [hp]),hp]
  cases step_change ht with
  | call hp hn he => exact .same rfl (h.point_move (by rw [hp]; exact id) rfl rfl)
  | @take p u hp hfree =>
    have hat := hentry p
    rw [hp] at hat
    refine .take u rfl ?_ hat (point_self (v:=.inside u) rfl rfl)
    rw [System.point,hfree]
    rfl
  | @update p x data u u' hp hact =>
    refine .act (s.killed p) x u (hpoint hp trivial) ?_
    rw [hact]
    exact ⟨rfl,point_self (v:=.inside u') (hlock hp trivial) rfl⟩
  | @notify p x c u u' hp hact =>
    refine .act (s.killed p) x u (hpoint hp trivial) ?_
    rw [hact]
    exact ⟨rfl,point_self (v:=.waking c 0 u') (hlock hp trivial) rfl⟩
  | @sleep p x c u u' hp hact =>
    refine .act (s.killed p) x u (hpoint hp trivial) ?_
    rw [hact]
    exact ⟨rfl,point_self (v:=.parking c u') (hlock hp trivial) rfl⟩
  | @leave p x u u' hp hact =>
    refine .act (s.killed p) x u (hpoint hp trivial) ?_
    rw [hact]
    exact ⟨rfl,rfl⟩
  | @rouse p c k u hp hlt hlocked =>
    refine .same rfl ?_
    rw [hpoint hp trivial]
    exact point_self (v:=.waking c (k+1) u) (hlock hp trivial) rfl
  | @woke p c k u hp hend =>
    refine .same rfl ?_
    rw [hpoint hp trivial]
    exact point_self (v:=.inside u) (hlock hp trivial) rfl
  | @park p c u hp =>
    refine .same rfl ?_
    rw [hpoint hp trivial]
    exact point_self (v:=.parked c u) (hlock hp trivial) rfl
  | @drop p c u hp =>
    refine .same rfl ?_
    rw [hpoint hp trivial]
    rfl
  | fall hp => exact .same rfl (h.point_move (by rw [hp]; exact id) rfl rfl)
  | resume hp => exact .same rfl (h.point_move (by rw [hp]; exact id) rfl rfl)
  | killAsleep hp => exact .same rfl (h.point_move (by rw [hp]; exact id) rfl rfl)
  | kill => exact .same rfl rfl

/-- Who waits for the lock waits on, or gets it. -/
theorem step_entering [DecidableEq κ] {prog : Program κ σ τ ι} {a : Label τ ι} {w : τ}
    (hq : s.places q=.entering w) (ht : step prog n s a=.next t) :
    t.places q=.entering w ∨ t.point=some w := by
  have hstay : ∀ {p v},s.places p≠.entering w → Function.update s.places p v q=.entering w := by
    intro p v hp
    rwa [Function.update_of_ne]
    rintro rfl
    exact hp hq
  cases step_change ht with
  | call hp hn he => exact .inl (hstay (by simp [hp]))
  | @take p u hp hfree =>
    by_cases e : q=p
    · subst e
      rw [hp] at hq
      cases hq
      exact .inr (point_self (v:=.inside w) rfl rfl)
    · refine .inl ?_
      show Function.update s.places p (.inside u) q=.entering w
      rwa [Function.update_of_ne e]
  | @rouse p c k u hp hlt hlocked =>
    refine .inl ?_
    have hqp : q≠p := by
      rintro rfl
      rw [hp] at hq
      cases hq
    show Function.update (Function.update s.places k ((s.places k).rouse c)) p _ q=.entering w
    rw [Function.update_of_ne hqp]
    by_cases e : q=k
    · subst e
      rw [Function.update_self,hq]
      rfl
    · rwa [Function.update_of_ne e]
  | update hp hact => exact .inl (hstay (by simp [hp]))
  | notify hp hact => exact .inl (hstay (by simp [hp]))
  | sleep hp hact => exact .inl (hstay (by simp [hp]))
  | leave hp hact => exact .inl (hstay (by simp [hp]))
  | woke hp hend => exact .inl (hstay (by simp [hp]))
  | park hp => exact .inl (hstay (by simp [hp]))
  | drop hp => exact .inl (hstay (by simp [hp]))
  | fall hp => exact .inl (hstay (by simp [hp]))
  | resume hp => exact .inl (hstay (by simp [hp]))
  | killAsleep hp => exact .inl (hstay (by simp [hp]))
  | kill => exact .inl hq

theorem entersAt_move (hs : ∀ q,(s.places q).EntersAt entry) (hv : v.EntersAt entry) (q : ℕ) :
    ((s.move p v).places q).EntersAt entry := by
  by_cases e : q=p
  · rw [e,move_self]
    exact hv
  · show (Function.update s.places p v q).EntersAt entry
    rw [Function.update_of_ne e]
    exact hs q

theorem Place.EntersAt.rouse [DecidableEq κ] (h : v.EntersAt entry) (c : κ) :
    (v.rouse c).EntersAt entry := by
  cases v with
  | asleep c₁ t₁ =>
    rw [Place.rouse]
    split
    · exact h
    · exact h
  | _ => exact h

/-- Threads enter where calls begin and where sleepers go on. -/
theorem step_entersAt [DecidableEq κ] {prog : Program κ σ τ ι} {a : Label τ ι}
    (hs : ∀ q,(s.places q).EntersAt entry) (henters : ∀ u t,prog.enters u t=true → entry t)
    (hsleeps : ∀ killed x u data c t,prog.next killed x u data=.sleep c t → entry t)
    (ht : step prog n s a=.next t) : ∀ q,(t.places q).EntersAt entry := by
  have hat : ∀ {p v},s.places p=v → v.EntersAt entry := fun hp => by
    rw [← hp]
    exact hs _
  cases step_change ht with
  | call hp hn he => exact entersAt_move hs (henters _ _ he)
  | take hp hfree => exact entersAt_move hs trivial
  | update hp hact => exact entersAt_move hs trivial
  | notify hp hact => exact entersAt_move hs trivial
  | sleep hp hact => exact entersAt_move hs (hsleeps _ _ _ _ _ _ hact)
  | leave hp hact => exact entersAt_move hs trivial
  | rouse hp hlt hlocked => exact entersAt_move (entersAt_move hs ((hs _).rouse _)) trivial
  | woke hp hend => exact entersAt_move hs trivial
  | park hp =>
    have hu := hat hp
    exact entersAt_move hs hu
  | drop hp =>
    have hu := hat hp
    exact entersAt_move hs hu
  | fall hp =>
    have hu := hat hp
    exact entersAt_move hs hu
  | resume hp =>
    have hu := hat hp
    exact entersAt_move hs hu
  | killAsleep hp =>
    have hu := hat hp
    exact entersAt_move hs hu
  | kill => exact hs

end Point

end Xv6Rust.Monitors
