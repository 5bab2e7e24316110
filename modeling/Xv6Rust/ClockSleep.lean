import Xv6Rust.MonitorReasons

/-!
# Sleeping for a number of ticks

`clock_sleep` and `clock_intr` of `trap.rs`. A process reads the clock, and sleeps until as many
ticks have passed as it asked for, or it is killed; all sleep on the same address, each until a
time of its own. A clock interrupt counts a tick and wakes all of them. The clock is a `usize` that
wraps around.

The interrupt handler is a thread of the section as well, as in the UART.
-/

namespace Xv6Rust.ClockSleep

open Runs Monitors

/-- `TICKS`, and how many clock interrupts there have been. -/
structure Clock where
  ticks : UInt64
  interrupts : ℕ

/-- Where a thread is. -/
inductive Pc where
  /-- Not in the clock. -/
  | idle
  /-- `clock_intr`, before the tick. -/
  | intr
  /-- `clock_intr`, before `wakeup`. -/
  | notify
  /-- `clock_intr`, after `wakeup`. -/
  | finish
  /-- `clock_sleep`, before it reads the clock. -/
  | read (count : UInt64)
  /-- `clock_sleep`, at the test of its loop, with `old_ticks` and the interrupts up to then. -/
  | test (count old : UInt64) (since : ℕ)
  /-- `clock_sleep` has returned `Ok`. -/
  | slept (count : UInt64) (since : ℕ)
  /-- `clock_sleep` has returned `Err`. -/
  | killed
  deriving DecidableEq

deriving instance DecidableEq for Place

/-- `clock_sleep` and `clock_intr`. -/
def clock : Program Unit Clock Pc Unit where
  enters _ t :=
    match t with
    | .intr => true
    | .read _ => true
    | _ => false
  next killed _ t d :=
    match t with
    | .intr => .update ⟨d.ticks+1,d.interrupts+1⟩ .notify
    | .notify => .wake () .finish
    | .finish => .leave .idle
    | .read count => .update d (.test count d.ticks d.interrupts)
    | .test count old since =>
      if d.ticks-old < count then
        if killed=true then .leave .killed else .sleep () (.test count old since)
      else .leave (.slept count since)
    | t => .leave t

/-- The clock is started, and nobody sleeps. -/
def start : System Unit Clock Pc := ⟨⟨0,0⟩,none,fun _ => .out .idle,fun _ => false⟩

/-- A process that sleeps has time left. -/
def Reason (_ : Unit) (t : Pc) (d : Clock) : Prop :=
  match t with
  | .test count old _ => d.ticks-old < count
  | _ => True

/-- Who has counted a tick owes a wake-up. -/
def Owes (t : Pc) (_ : Unit) : Prop := t=.notify

/-- What the points of the code tell. -/
def Tell (killed : Bool) (t : Pc) (d : Clock) : Prop :=
  d.ticks=UInt64.ofNat d.interrupts ∧
    match t with
    | .test _ old since => old=UInt64.ofNat since ∧ since ≤ d.interrupts
    | .slept count since => since+count.toNat≤d.interrupts
    | .killed => killed=true
    | _ => True

section Clock

variable {s t : System Unit Clock Pc} {n : ℕ}

/-- Acts are right. -/
theorem pays (killed : Bool) (x : Unit) (t : Pc) (d : Clock) :
    PaysEach Reason Owes d t (clock.next killed x t d) := by
  cases t with
  | intr => exact fun _ => ⟨fun _ _ => .inr rfl,fun _ => rfl⟩
  | notify => exact fun _ _ => .inl rfl
  | finish => exact fun _ h => by cases h
  | read count => exact fun _ => ⟨fun _ h => .inl h,fun h => by cases h⟩
  | test count old since =>
    show PaysEach Reason Owes d _ (if d.ticks-old < count then
      if killed=true then .leave .killed else .sleep () (.test count old since)
      else .leave (.slept count since))
    split
    · rename_i hlt
      split
      · exact fun _ h => by cases h
      · exact ⟨hlt,fun _ h => by cases h⟩
    · exact fun _ h => by cases h
  | idle => exact fun _ h => by cases h
  | slept count since => exact fun _ h => by cases h
  | killed => exact fun _ h => by cases h

/-- The ticks between two times of the clock. -/
theorem elapsed {since now : ℕ} (h : since≤now) :
    (UInt64.ofNat now-UInt64.ofNat since).toNat=(now-since)%2^64 := by
  rw [UInt64.toNat_sub,UInt64.toNat_ofNat',UInt64.toNat_ofNat']
  omega

theorem keeps (killed : Bool) (x : Unit) (t : Pc) (d : Clock) (h : Tell killed t d) :
    Keeps Tell killed d (clock.next killed x t d) := by
  obtain ⟨hticks,hpoint⟩ := h
  cases t with
  | intr =>
    have hnow : d.ticks+1=UInt64.ofNat (d.interrupts+1) := by
      rw [hticks,UInt64.ofNat_add]
      rfl
    refine ⟨⟨hnow,trivial⟩,fun b u hu => ⟨hnow,?_⟩⟩
    obtain ⟨-,hu⟩ := hu
    cases u with
    | test count old since => exact ⟨hu.1,Nat.le_succ_of_le hu.2⟩
    | slept count since => exact Nat.le_succ_of_le hu
    | killed => exact hu
    | _ => trivial
  | notify => exact ⟨hticks,trivial⟩
  | finish => exact ⟨hticks,trivial⟩
  | read count => exact ⟨⟨hticks,hticks,Nat.le_refl _⟩,fun _ _ hu => hu⟩
  | test count old since =>
    show Keeps Tell killed d (if d.ticks-old < count then
      if killed=true then .leave .killed else .sleep () (.test count old since)
      else .leave (.slept count since))
    split
    · split
      · rename_i hk
        exact ⟨hticks,hk⟩
      · exact ⟨hticks,hpoint⟩
    · rename_i hge
      obtain ⟨hold,hsince⟩ := hpoint
      have hle : count.toNat≤(d.ticks-old).toNat := UInt64.le_iff_toNat_le.mp (UInt64.not_lt.mp hge)
      rw [hticks,hold,elapsed hsince] at hle
      have hmod := Nat.mod_le (d.interrupts-since) (2^64)
      refine ⟨hticks,?_⟩
      show since+count.toNat≤d.interrupts
      omega
  | idle => exact ⟨hticks,trivial⟩
  | slept count since => exact ⟨hticks,hpoint⟩
  | killed => exact ⟨hticks,hpoint⟩

/-- Threads are where they can be, and sleep for a reason. -/
structure InTime (n : ℕ) (s : System Unit Clock Pc) : Prop where
  locked : Locked n s
  each : Each Reason Owes s
  tells : Tells Tell s

theorem start_inTime : InTime n start := by
  refine ⟨⟨fun p => ⟨fun h => (by cases h),fun h => absurd h id⟩,fun p => .inl trivial,
    fun p c h => absurd h id,fun p c h => absurd h id⟩,
    ⟨fun p c u h => absurd h id,fun p c u h => absurd h id⟩,fun p => ⟨rfl,trivial⟩⟩

/-- A step keeps threads in time. -/
theorem InTime.step {a : Label Pc Unit} (h : InTime n s) (ht : step clock n s a=.next t) :
    InTime n t := by
  refine ⟨h.locked.step ht,h.each.step h.locked (fun p x u _ _ => pays _ _ _ _) ht,
    h.tells.step (fun b u d hu => ?_) (fun b u u' d hu he => ?_) (fun b x u d hu => keeps _ _ _ _ hu)
      ht⟩
  · obtain ⟨hticks,hu⟩ := hu
    refine ⟨hticks,?_⟩
    cases u with
    | killed => rfl
    | _ => exact hu
  · refine ⟨hu.1,?_⟩
    cases u' with
    | intr => trivial
    | read count => trivial
    | _ => cases he

end Clock

/-- In every run of calls of `clock_sleep`, clock interrupts and kills by any threads: `Ok` is
returned only after as many interrupts as were asked for, `Err` only to a process that is killed,
and a process sleeps only while it has time left, or while the handler that has counted the last
tick is about to wake it. -/
theorem sleepers_in_time {acts : List (Label Pc Unit)} {n : ℕ} {s : System Unit Clock Pc}
    (h : run (step clock n) start acts=.next s) (p : ℕ) :
    (∀ count since,s.places p=.out (.slept count since) →
      since+count.toNat ≤ s.data.interrupts) ∧
    (s.places p=.out .killed → s.killed p=true) ∧
    (∀ count old since,(s.places p).SleepsAt () (.test count old since) →
      (s.data.interrupts-since)%2^64 < count.toNat ∨
        ∃ q,s.lock=some q ∧ (s.places q).Owes Owes () p) := by
  have hstep : ∀ s a t,InTime n s → True → step clock n s a=.next t → InTime n t :=
    fun _ _ _ hi _ ht => hi.step ht
  have hall : InTime n s := run_invariant hstep start_inTime (guarded_of_forall (fun _ _ => trivial) _ _) h
  have htell := hall.tells p
  refine ⟨fun count since hp => ?_,fun hp => ?_,fun count old since hp => ?_⟩
  · rw [hp] at htell
    exact htell.2
  · rw [hp] at htell
    exact htell.2
  · have htoken : (s.places p).token=.test count old since := by
      cases hplace : s.places p with
      | falling c u =>
        rw [hplace] at hp
        exact hp.2
      | asleep c u =>
        rw [hplace] at hp
        exact hp.2
      | _ =>
        rw [hplace] at hp
        exact absurd hp id
    rw [htoken] at htell
    obtain ⟨hticks,hold,hsince⟩ := htell
    refine (hall.each.sleeps p () _ hp).imp (fun hr => ?_) fun ⟨q,hq⟩ =>
      ⟨q,(hall.locked.lock q).mpr hq.holds,hq⟩
    have hlt : (s.data.ticks-old).toNat < count.toNat := UInt64.lt_iff_toNat_lt.mp hr
    rwa [hticks,hold,elapsed hsince] at hlt

/-- A process asks for a tick and sleeps; the interrupt comes, and wakes it. -/
def oneTick : List (Label Pc Unit) :=
  [.call 0 (.read 1),.take 0,.act 0 (),.act 0 (),.park 0,.drop 0,.fall 0,.call 1 .intr,.take 1,
    .act 1 (),.act 1 (),.wake 1,.wake 1,.wake 1,.act 1 (),.resume 0,.take 0,.act 0 ()]

theorem sleepers_in_time_oneTick : ∃ s,run (step clock 2) start oneTick=.next s ∧
    s.places 0=.out (.slept 1 0) ∧ 0+(1 : UInt64).toNat ≤ s.data.interrupts := by
  have htest : (run (step clock 2) start oneTick).test
      (fun s => s.places 0=.out (.slept 1 0))=true := by decide +kernel
  obtain ⟨s,hrun,hplace⟩ := Outcome.exists_of_test htest
  have hslept := of_decide_eq_true hplace
  exact ⟨s,hrun,hslept,(sleepers_in_time hrun 0).1 1 0 hslept⟩

end Xv6Rust.ClockSleep
