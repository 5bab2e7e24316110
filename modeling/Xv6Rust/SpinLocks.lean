import Xv6Rust.Runs

/-!
# Spin locks

`acquire` and `release` of `spinlock.rs` with `push_off` and `pop_off` of `process/cpu.rs`, one
load or store at a time, by any number of CPUs. Interrupts stop a CPU between two steps when they
are on; the handler runs on top of what it stopped, and takes locks itself. Processes go through
`sched` in the middle of what was stopped and come back on any CPU. The theorem says that a lock
has one owner, that no code which was stopped or switched out owns a lock, and that the checks
of `acquire`, `release`, `pop_off` and `sched` fail only where the code has made a mistake.
-/

namespace Xv6Rust.SpinLocks

open Runs

/-- The locks: the one of each process that `sched` hands over, and the others. -/
inductive Lock where
  /-- `excl` of a process. -/
  | excl (proc : ℕ)
  /-- Another lock. -/
  | other (n : ℕ)
  deriving DecidableEq

/-- `SpinLock` without its data and name. -/
structure LockState where
  /-- `lock` -/
  word : Bool
  /-- `cpuid`; -1 is `none`. -/
  cpuid : Option ℕ
  deriving DecidableEq

/-- Where a CPU is in `acquire`, `release`, `push_off` and `pop_off`. A `push_off` that is not part
of `acquire` has no lock. -/
inductive Phase where
  /-- Other code. -/
  | idle
  /-- `push_off`, before `intr_get`. -/
  | read (l : Option Lock)
  /-- `push_off`, before `intr_off`. -/
  | turnOff (old : Bool) (l : Option Lock)
  /-- `push_off`, before `intena` and `noff` are set. -/
  | count (old : Bool) (l : Option Lock)
  /-- `holding` in `acquire`, before `lock` is read. -/
  | test (l : Lock)
  /-- `holding` in `acquire`, before `cpuid` is read. -/
  | compare (l : Lock)
  /-- The loop of `acquire`. -/
  | spin (l : Lock)
  /-- `acquire`, before `cpuid` is set. -/
  | record (l : Lock)
  /-- `holding` in `release`, before `lock` is read. -/
  | check (l : Lock)
  /-- `holding` in `release`, before `cpuid` is read. -/
  | checkOwn (l : Lock)
  /-- `release`, before `cpuid` is cleared. -/
  | clear (l : Lock)
  /-- `release`, before `lock` is cleared. -/
  | store (l : Lock)
  /-- `pop_off`, before `intr_get`. -/
  | popTest
  /-- `pop_off`, before `noff` is decremented. -/
  | popCount
  deriving DecidableEq

/-- A CPU. -/
structure Cpu where
  /-- `sstatus.SIE` -/
  sie : Bool
  /-- `noff`, a `u8`. -/
  noff : ℕ
  /-- `intena` -/
  intena : Bool
  /-- The code that runs. -/
  phase : Phase
  /-- The code under the interrupt handlers, the innermost first. -/
  stack : List Phase
  /-- The guards that the code has. -/
  guards : List Lock
  /-- The `push_off` of the code without a lock. -/
  bare : ℕ
  /-- The process that runs, if it is not the scheduler. -/
  process : Option ℕ
  deriving DecidableEq

/-- A process that does not run. -/
structure Saved where
  /-- The code under its interrupt handlers. -/
  stack : List Phase
  /-- The CPU on which it called `sched` and the `intena` that it read there; `none` before it
  runs first. -/
  home : Option (ℕ × Bool)
  deriving DecidableEq

/-- All CPUs, processes and locks. -/
structure System where
  cpus : ℕ → Cpu
  locks : Lock → LockState
  saved : ℕ → Option Saved
  /-- Processes whose `state` is `RUNNING`. -/
  running : ℕ → Bool

/-- The panics of these functions. -/
inductive Panic where
  /-- `spinlock {} acquire` -/
  | acquire (l : Lock)
  /-- `spinlock {} release` -/
  | release (l : Lock)
  /-- `noff` overflows. -/
  | noffOverflow
  /-- `pop_off(): interruptable` -/
  | popInterruptible
  /-- `pop_off(): count not match` -/
  | countNotMatch
  /-- `sched(): not holding proc's lock` -/
  | schedNotHolding
  /-- `sched(): cpu hold multi locks` -/
  | multiLocks
  /-- `sched(): proc is running` -/
  | procRunning
  /-- `sched(): interruptible` -/
  | schedInterruptible
  deriving DecidableEq

/-- The steps of the CPUs. -/
inductive Action where
  /-- The next step of `acquire`, `release`, `push_off` or `pop_off`. -/
  | tick (cpu : ℕ)
  /-- `SpinLock::lock` is called. -/
  | lock (cpu : ℕ) (l : Lock)
  /-- A guard is dropped, or `unlock` is called. -/
  | drop (cpu : ℕ) (l : Lock)
  /-- `push_off` is called without a lock. -/
  | push (cpu : ℕ)
  /-- The `pop_off` of such a `push_off` is called. -/
  | pop (cpu : ℕ)
  /-- Code without locks turns interrupts on or off. -/
  | setSie (cpu : ℕ) (on : Bool)
  /-- An interrupt arrives. -/
  | trap (cpu : ℕ)
  /-- The handler returns. -/
  | trapReturn (cpu : ℕ)
  /-- Code with the guard of a process assigns to its `state`. -/
  | setState (cpu proc : ℕ) (running : Bool)
  /-- The process calls `sched`, and the scheduler continues. -/
  | sched (cpu : ℕ)
  /-- The scheduler switches to a process. -/
  | resume (cpu proc : ℕ)
  /-- A process is freed and its place is taken by a new one. -/
  | renew (proc : ℕ)
  deriving DecidableEq

/-- Replace a CPU. -/
def System.setCpu (s : System) (c : ℕ) (cpu : Cpu) : System :=
  {s with cpus := Function.update s.cpus c cpu}

/-- Replace a lock. -/
def System.setLock (s : System) (l : Lock) (st : LockState) : System :=
  {s with locks := Function.update s.locks l st}

/-- Assign to the `state` of a process. -/
def System.setRunning (s : System) (p : ℕ) (running : Bool) : System :=
  {s with running := Function.update s.running p running}

/-- The code has no guard and no `push_off` left. -/
def Cpu.Free (c : Cpu) : Prop := c.phase=.idle ∧ c.guards=[] ∧ c.bare=0

instance (c : Cpu) : Decidable c.Free := inferInstanceAs (Decidable (_ ∧ _ ∧ _))

/-- The next step of a CPU in `acquire`, `release`, `push_off` or `pop_off`. -/
def tick (s : System) (c : ℕ) : Outcome Panic System :=
  let cpu := s.cpus c
  match cpu.phase with
  | .idle => .blocked
  | .read l => .next (s.setCpu c {cpu with phase := .turnOff cpu.sie l})
  | .turnOff old l => .next (s.setCpu c {cpu with sie := false, phase := .count old l})
  | .count old l =>
    if cpu.noff=255 then .fault .noffOverflow
    else
      let cpu := {cpu with
        intena := if cpu.noff=0 then old else cpu.intena
        noff := cpu.noff+1}
      match l with
      | none => .next (s.setCpu c {cpu with bare := cpu.bare+1, phase := .idle})
      | some l => .next (s.setCpu c {cpu with phase := .test l})
  | .test l =>
    -- `&&` reads `cpuid` only if the lock is taken.
    if (s.locks l).word=true then .next (s.setCpu c {cpu with phase := .compare l})
    else .next (s.setCpu c {cpu with phase := .spin l})
  | .compare l =>
    if (s.locks l).cpuid=some c then .fault (.acquire l)
    else .next (s.setCpu c {cpu with phase := .spin l})
  | .spin l =>
    if (s.locks l).word=true then .next s
    else .next ((s.setLock l {s.locks l with word := true}).setCpu c {cpu with phase := .record l})
  | .record l =>
    .next ((s.setLock l {s.locks l with cpuid := some c}).setCpu c
      {cpu with phase := .idle, guards := l::cpu.guards})
  | .check l =>
    if (s.locks l).word=true then .next (s.setCpu c {cpu with phase := .checkOwn l})
    else .fault (.release l)
  | .checkOwn l =>
    if (s.locks l).cpuid=some c then .next (s.setCpu c {cpu with phase := .clear l})
    else .fault (.release l)
  | .clear l =>
    .next ((s.setLock l {s.locks l with cpuid := none}).setCpu c {cpu with phase := .store l})
  | .store l =>
    .next ((s.setLock l {s.locks l with word := false}).setCpu c {cpu with phase := .popTest})
  | .popTest =>
    if cpu.sie=true then .fault .popInterruptible
    else .next (s.setCpu c {cpu with phase := .popCount})
  | .popCount =>
    if cpu.noff=0 then .fault .countNotMatch
    else .next (s.setCpu c {cpu with
      noff := cpu.noff-1
      sie := cpu.sie || cpu.noff=1 && cpu.intena
      phase := .idle})

/-- `holding` with interrupts off. -/
def System.holding (s : System) (c : ℕ) (l : Lock) : Bool :=
  (s.locks l).word && (s.locks l).cpuid=some c

/-- `sched` up to the switch to the scheduler. -/
def sched (s : System) (c p : ℕ) : Outcome Panic System :=
  let cpu := s.cpus c
  if s.holding c (.excl p)=false then .fault .schedNotHolding
  else if cpu.noff≠1 then .fault .multiLocks
  else if s.running p=true then .fault .procRunning
  else if cpu.sie=true then .fault .schedInterruptible
  else .next {s.setCpu c {cpu with stack := [], process := none} with
    saved := Function.update s.saved p (some ⟨cpu.stack,some (c,cpu.intena)⟩)}

/-- The end of `sched`: `intena` goes to the CPU of the call. -/
def System.writeBack (s : System) : Option (ℕ × Bool) → System
  | none => s
  | some (d,intena) => s.setCpu d {s.cpus d with intena := intena}

/-- One step. -/
def step (s : System) : Action → Outcome Panic System
  | .tick c => tick s c
  | .lock c l =>
    if (s.cpus c).phase=.idle then
      .next (s.setCpu c {s.cpus c with phase := .read (some l)})
    else .blocked
  | .drop c l =>
    if (s.cpus c).phase=.idle ∧ l∈(s.cpus c).guards then
      .next (s.setCpu c {s.cpus c with
        phase := .check l
        guards := (s.cpus c).guards.erase l})
    else .blocked
  | .push c =>
    if (s.cpus c).phase=.idle then
      .next (s.setCpu c {s.cpus c with phase := .read none})
    else .blocked
  | .pop c =>
    if (s.cpus c).phase=.idle ∧ 0 < (s.cpus c).bare then
      .next (s.setCpu c {s.cpus c with phase := .popTest, bare := (s.cpus c).bare-1})
    else .blocked
  | .setSie c on =>
    if (s.cpus c).Free then .next (s.setCpu c {s.cpus c with sie := on}) else .blocked
  | .trap c =>
    -- The hardware turns interrupts off.
    if (s.cpus c).sie=true then
      .next (s.setCpu c {s.cpus c with
        sie := false
        phase := .idle
        stack := (s.cpus c).phase::(s.cpus c).stack})
    else .blocked
  | .trapReturn c =>
    match (s.cpus c).stack with
    | [] => .blocked
    | phase::stack =>
      if (s.cpus c).Free then
        .next (s.setCpu c {s.cpus c with sie := true, phase := phase, stack := stack})
      else .blocked
  | .setState c p running =>
    if (s.cpus c).phase=.idle ∧ .excl p∈(s.cpus c).guards then .next (s.setRunning p running)
    else .blocked
  | .sched c =>
    match (s.cpus c).process with
    | none => .blocked
    | some p =>
      if (s.cpus c).phase=.idle ∧ .excl p∈(s.cpus c).guards then sched s c p else .blocked
  | .resume c p =>
    match s.saved p with
    | none => .blocked
    | some f =>
      if (s.cpus c).phase=.idle ∧ (s.cpus c).process=none ∧ (s.cpus c).stack=[] ∧
          (s.cpus c).guards=[.excl p] ∧ (s.cpus c).bare=0 then
        -- The scheduler has made the process `RUNNING`.
        let t := (s.setRunning p true).setCpu c {s.cpus c with stack := f.stack, process := some p}
        .next ({t with saved := Function.update s.saved p none}.writeBack f.home)
      else .blocked
  | .renew p =>
    match s.saved p with
    | none => .blocked
    | some _ => .next {s with saved := Function.update s.saved p (some ⟨[],none⟩)}

/-- Every CPU is about to enter its scheduler; no lock is taken. -/
def boot : System :=
  ⟨fun _ => ⟨false,0,false,.idle,[],[],0,none⟩,fun _ => ⟨false,none⟩,fun _ => some ⟨[],none⟩,
    fun _ => false⟩

/-- The lock that `acquire` has taken, or `release` is about to give back. -/
def Phase.owned : Phase → Option Lock
  | .record l => some l
  | .check l => some l
  | .checkOwn l => some l
  | .clear l => some l
  | .store l => some l
  | _ => none

/-- The lock whose `cpuid` `release` is about to clear. -/
def Phase.stamped : Phase → Option Lock
  | .check l => some l
  | .checkOwn l => some l
  | .clear l => some l
  | _ => none

/-- What the function that runs adds to `noff`. -/
def Phase.depth : Phase → ℕ
  | .idle => 0
  | .read _ => 0
  | .turnOff _ _ => 0
  | .count _ _ => 0
  | _ => 1

/-- Code that can be stopped by an interrupt. `push_off` has read that interrupts are on. -/
def Phase.Interruptible : Phase → Prop
  | .idle => True
  | .read _ => True
  | .turnOff old _ => old=true
  | _ => False

/-- The lock is taken by this CPU. -/
def Cpu.Owns (c : Cpu) (l : Lock) : Prop := l∈c.guards ∨ c.phase.owned=some l

/-- The `cpuid` of the lock is this CPU. -/
def Cpu.Stamped (c : Cpu) (l : Lock) : Prop := l∈c.guards ∨ c.phase.stamped=some l

/-- What holds of a CPU by itself. -/
structure Cpu.Sound (c : Cpu) : Prop where
  /-- `noff` is the number of locks and of other `push_off`. -/
  counted : c.noff=c.guards.length+c.bare+c.phase.depth
  /-- `noff` is a `u8`. -/
  bound : c.noff≤255
  /-- Interrupts are off while there is a lock, and while one is awaited. -/
  masked : c.sie=true → c.noff=0 ∧ c.phase.Interruptible
  /-- What `push_off` has read is so until it turns interrupts off. -/
  kept : ∀ old l,c.phase=.turnOff old l → c.sie=old
  /-- There is one guard for a lock. -/
  nodup : c.guards.Nodup
  /-- A lock in `acquire` or `release` has no guard. -/
  apart : ∀ l,c.phase.owned=some l → l∉c.guards
  /-- A CPU does not wait for its own lock. -/
  waits : ∀ l,c.phase=.spin l → l∉c.guards
  /-- Code under a handler has no lock. -/
  under : ∀ f∈c.stack,f.Interruptible

/-- What holds of the CPUs and the locks together. -/
structure Shared (s : System) : Prop where
  /-- A lock is taken if a CPU owns it. -/
  word : ∀ l,(s.locks l).word=true ↔ ∃ c,(s.cpus c).Owns l
  /-- A lock has one owner. -/
  exclusive : ∀ l c d,(s.cpus c).Owns l → (s.cpus d).Owns l → c=d
  /-- `cpuid` names the owner from the end of `acquire` until `release` clears it. -/
  stamp : ∀ l c,(s.locks l).cpuid=some c ↔ (s.cpus c).Stamped l

/-- What holds in every state. -/
structure Safe (s : System) : Prop where
  cpu : ∀ c,(s.cpus c).Sound
  shared : Shared s
  /-- Code that is switched out under a handler has no lock. -/
  saved : ∀ p f,s.saved p=some f → ∀ x∈f.stack,x.Interruptible

/-- When the checks fail: a CPU locks what it has locked, `noff` is at its largest value, or a
process calls `sched` with another lock or `push_off`, or while its state is `RUNNING`. -/
def Blamed (s : System) : Action → Panic → Prop
  | .tick c,.acquire l => l∈(s.cpus c).guards
  | .tick c,.noffOverflow => (s.cpus c).noff=255
  | .sched c,.multiLocks => 1 < (s.cpus c).guards.length+(s.cpus c).bare
  | .sched c,.procRunning => ∃ p,(s.cpus c).process=some p ∧ s.running p=true
  | _,_ => False

section Cpus

variable {c : Cpu} {l : Lock} {p : Phase}

theorem Cpu.Stamped.owns (h : c.Stamped l) : c.Owns l := by
  refine h.imp_right fun hp => ?_
  cases hph : c.phase <;> rw [hph] at hp <;> first | exact hp | cases hp

theorem Cpu.Sound.sie_eq_false (h : c.Sound) (hn : c.noff≠0) : c.sie=false := by
  rw [← Bool.not_eq_true]
  exact fun hs => hn (h.masked hs).1

/-- Inside `acquire` and `release` interrupts are off. -/
theorem Cpu.Sound.off (h : c.Sound) (hd : c.phase.depth=1) : c.sie=false := by
  refine h.sie_eq_false ?_
  rw [h.counted,hd]
  exact Nat.succ_ne_zero _

theorem depth_turnOff {old : Bool} {m : Option Lock} (h : p=.turnOff old m) : p.depth=0 := by
  rw [h]
  rfl

/-- The next step inside `acquire` or `release`. -/
theorem Cpu.Sound.move (h : c.Sound) (hd : c.phase.depth=1) (hp : p.depth=1)
    (ho : ∀ l,p.owned=some l → l∉c.guards) (hw : ∀ l,p=.spin l → l∉c.guards) :
    Cpu.Sound {c with phase := p} where
  counted := by
    dsimp only
    rw [h.counted,hd,hp]
  bound := h.bound
  masked hs := by
    rw [h.off hd] at hs
    cases hs
  kept old m hm := by
    rw [depth_turnOff hm] at hp
    cases hp
  nodup := h.nodup
  apart := ho
  waits := hw
  under := h.under

/-- The same where the lock is owned before and after. -/
theorem Cpu.Sound.keep (h : c.Sound) (hd : c.phase.depth=1) (hp : p.depth=1)
    (ho : p.owned=c.phase.owned) (hw : ∀ l,p≠.spin l) : Cpu.Sound {c with phase := p} :=
  h.move hd hp (fun l hl => h.apart l (ho.symm.trans hl)) fun l hl => absurd hl (hw l)

/-- Another stack of the same kind. -/
theorem Cpu.Sound.switch (h : c.Sound) {stack : List Phase} (hst : ∀ f∈stack,f.Interruptible)
    (process : Option ℕ) : Cpu.Sound {c with stack := stack, process := process} where
  counted := h.counted
  bound := h.bound
  masked := h.masked
  kept := h.kept
  nodup := h.nodup
  apart := h.apart
  waits := h.waits
  under := hst

/-- A call from code without interrupts off. -/
theorem Cpu.Sound.enter (h : c.Sound) (hi : c.phase=.idle) (m : Option Lock) :
    Cpu.Sound {c with phase := .read m} where
  counted := by
    have hc := h.counted
    rw [hi] at hc
    exact hc
  bound := h.bound
  masked hs := ⟨(h.masked hs).1,trivial⟩
  kept old m hm := by cases hm
  nodup := h.nodup
  apart l hl := by cases hl
  waits l hl := by cases hl
  under := h.under

end Cpus

section Locks

variable {s t : System} {c : ℕ} {l : Lock} {cpu : Cpu}

/-- The locks are as they were, and owned as they were. -/
theorem Shared.frame (h : Shared s) (hl : t.locks=s.locks)
    (ho : ∀ d l,(t.cpus d).Owns l ↔ (s.cpus d).Owns l)
    (hs : ∀ d l,(t.cpus d).Stamped l ↔ (s.cpus d).Stamped l) : Shared t where
  word l := by simp only [hl,ho,h.word]
  exclusive l c d hc hd := h.exclusive l c d ((ho c l).mp hc) ((ho d l).mp hd)
  stamp l c := by rw [hl,hs,h.stamp]

theorem cpus_setCpu (d : ℕ) :
    (s.setCpu c cpu).cpus d=if d=c then cpu else s.cpus d := by
  simp only [System.setCpu,Function.update_apply]

@[simp] theorem cpus_setCpu_self : (s.setCpu c cpu).cpus c=cpu := by
  simp [System.setCpu]

@[simp] theorem cpus_setLock (st : LockState) : (s.setLock l st).cpus=s.cpus := rfl

@[simp] theorem locks_setCpu : (s.setCpu c cpu).locks=s.locks := rfl

@[simp] theorem saved_setCpu : (s.setCpu c cpu).saved=s.saved := rfl

@[simp] theorem saved_setLock (st : LockState) : (s.setLock l st).saved=s.saved := rfl

/-- A step of one CPU that leaves the locks alone. -/
theorem Safe.setCpu (h : Safe s) (hc : cpu.Sound) (ho : ∀ l,cpu.Owns l ↔ (s.cpus c).Owns l)
    (hs : ∀ l,cpu.Stamped l ↔ (s.cpus c).Stamped l) : Safe (s.setCpu c cpu) where
  cpu d := by
    rw [cpus_setCpu]
    split
    · exact hc
    · exact h.cpu d
  shared := by
    refine h.shared.frame rfl (fun d l => ?_) fun d l => ?_
    · rw [cpus_setCpu]
      split
      · rename_i hd
        rw [hd,ho]
      · rfl
    · rw [cpus_setCpu]
      split
      · rename_i hd
        rw [hd,hs]
      · rfl
  saved := h.saved

/-- A step between two phases that own and stamp the same lock. -/
theorem Safe.setPhase (h : Safe s) {p : Phase} (hc : Cpu.Sound {s.cpus c with phase := p})
    (ho : p.owned=(s.cpus c).phase.owned) (hs : p.stamped=(s.cpus c).phase.stamped) :
    Safe (s.setCpu c {s.cpus c with phase := p}) := by
  refine h.setCpu hc (fun l => ?_) fun l => ?_
  · rw [Cpu.Owns,Cpu.Owns,ho]
  · rw [Cpu.Stamped,Cpu.Stamped,hs]

/-- A step of one CPU on a lock that no other CPU owns. -/
theorem Safe.setLock (h : Safe s) {st : LockState} (hc : cpu.Sound)
    (ho : ∀ m,m≠l → (cpu.Owns m ↔ (s.cpus c).Owns m))
    (hs : ∀ m,m≠l → (cpu.Stamped m ↔ (s.cpus c).Stamped m))
    (halone : ∀ d,d≠c → ¬(s.cpus d).Owns l) (hword : st.word=true ↔ cpu.Owns l)
    (hid : ∀ d,st.cpuid=some d ↔ d=c ∧ cpu.Stamped l) :
    Safe ((s.setLock l st).setCpu c cpu) where
  cpu d := by
    rw [cpus_setCpu]
    split
    · exact hc
    · exact h.cpu d
  shared := by
    have howns : ∀ d m,m≠l →
        ((((s.setLock l st).setCpu c cpu).cpus d).Owns m ↔ (s.cpus d).Owns m) := by
      intro d m hm
      rw [cpus_setCpu]
      split
      · rename_i hd
        rw [hd,ho m hm]
      · rfl
    have hself : ∀ d,(((s.setLock l st).setCpu c cpu).cpus d).Owns l ↔ d=c ∧ cpu.Owns l := by
      intro d
      rw [cpus_setCpu]
      split
      · rename_i hd
        simp [hd]
      · rename_i hd
        simp [hd,halone d hd]
    refine ⟨fun m => ?_,fun m d e hd he => ?_,fun m d => ?_⟩
    · obtain rfl | hm := eq_or_ne m l
      · simp only [hself]
        simp [System.setLock,hword]
      · simp only [howns _ m hm]
        simp [System.setLock,hm,h.shared.word]
    · obtain rfl | hm := eq_or_ne m l
      · exact ((hself d).mp hd).1.trans ((hself e).mp he).1.symm
      · exact h.shared.exclusive m d e ((howns d m hm).mp hd) ((howns e m hm).mp he)
    · rw [cpus_setCpu]
      obtain rfl | hm := eq_or_ne m l
      · simp only [locks_setCpu,System.setLock,Function.update_self,hid]
        split
        · rename_i hd
          simp [hd]
        · rename_i hd
          simp only [hd,false_and,false_iff]
          exact fun hst => halone d hd hst.owns
      · simp only [locks_setCpu,System.setLock,Function.update_of_ne hm,h.shared.stamp]
        split
        · rename_i hd
          rw [hd,hs m hm]
        · rfl
  saved := h.saved

/-- No other CPU owns a lock that this one owns. -/
theorem Safe.alone (h : Safe s) (hc : (s.cpus c).Owns l) (d : ℕ) (hd : d≠c) :
    ¬(s.cpus d).Owns l :=
  fun ho => hd (h.shared.exclusive l d c ho hc)

/-- Nobody owns a free lock. -/
theorem Safe.free (h : Safe s) (hw : (s.locks l).word≠true) (d : ℕ) : ¬(s.cpus d).Owns l :=
  fun ho => hw ((h.shared.word l).mpr ⟨d,ho⟩)

end Locks

section Steps

variable {s t : System} {c : ℕ} {l : Lock}

/-- The loop of `acquire` ends. -/
theorem spin_safe (h : Safe s) (hp : (s.cpus c).phase=.spin l) (hw : (s.locks l).word≠true) :
    Safe ((s.setLock l {s.locks l with word := true}).setCpu c
      {s.cpus c with phase := .record l}) := by
  have hfree := h.free hw
  refine h.setLock ?_ (fun m hm => ?_) (fun m hm => ?_) (fun d _ => hfree d) ?_ fun d => ?_
  · refine (h.cpu c).move (by rw [hp]; rfl) rfl (fun m hm => ?_) fun m hm => by cases hm
    cases hm
    exact (h.cpu c).waits l hp
  · simp [Cpu.Owns,Phase.owned,hp,hm.symm]
  · simp [Cpu.Stamped,Phase.stamped,hp]
  · simp [Cpu.Owns,Phase.owned]
  · have hnone : ¬(s.cpus c).Stamped l := fun hs => hfree c hs.owns
    constructor
    · intro hd
      exact absurd ((h.shared.stamp l d).mp hd).owns (hfree d)
    · rintro ⟨rfl,hs⟩
      exact absurd (.inl (hs.resolve_right fun hs => by cases hs)) hnone

/-- The end of `acquire`. -/
theorem record_safe (h : Safe s) (hp : (s.cpus c).phase=.record l) :
    Safe ((s.setLock l {s.locks l with cpuid := some c}).setCpu c
      {s.cpus c with phase := .idle, guards := l::(s.cpus c).guards}) := by
  have howns : (s.cpus c).Owns l := .inr (by rw [hp]; rfl)
  have hcpu := h.cpu c
  refine h.setLock ?_ (fun m hm => ?_) (fun m hm => ?_) (h.alone howns) ?_ fun d => ?_
  · exact {
      counted := by
        have hc := hcpu.counted
        rw [hp] at hc
        rw [hc,List.length_cons]
        simp only [Phase.depth]
        omega
      bound := hcpu.bound
      masked := fun hs => absurd hs (by rw [hcpu.off (by rw [hp]; rfl)]; decide)
      kept := fun old m hm => by cases hm
      nodup := hcpu.nodup.cons (hcpu.apart l (by rw [hp]; rfl))
      apart := fun m hm => by cases hm
      waits := fun m hm => by cases hm
      under := hcpu.under }
  · simp [Cpu.Owns,Phase.owned,hp,hm,hm.symm]
  · simp [Cpu.Stamped,Phase.stamped,hp,hm]
  · simp [Cpu.Owns,(h.shared.word l).mpr ⟨c,howns⟩]
  · simp [Cpu.Stamped,eq_comm]

/-- `release` clears `cpuid`. -/
theorem clear_safe (h : Safe s) (hp : (s.cpus c).phase=.clear l) :
    Safe ((s.setLock l {s.locks l with cpuid := none}).setCpu c
      {s.cpus c with phase := .store l}) := by
  have howns : (s.cpus c).Owns l := .inr (by rw [hp]; rfl)
  have hguards := (h.cpu c).apart l (by rw [hp]; rfl)
  refine h.setLock ?_ (fun m hm => ?_) (fun m hm => ?_) (h.alone howns) ?_ fun d => ?_
  · exact (h.cpu c).keep (by rw [hp]; rfl) rfl (by rw [hp]; rfl) (fun m hm => by cases hm)
  · simp [Cpu.Owns,Phase.owned,hp]
  · simp [Cpu.Stamped,Phase.stamped,hp,hm.symm]
  · simp [Cpu.Owns,Phase.owned,(h.shared.word l).mpr ⟨c,howns⟩]
  · simp [Cpu.Stamped,Phase.stamped,hguards]

/-- `release` gives the lock back. -/
theorem store_safe (h : Safe s) (hp : (s.cpus c).phase=.store l) :
    Safe ((s.setLock l {s.locks l with word := false}).setCpu c
      {s.cpus c with phase := .popTest}) := by
  have howns : (s.cpus c).Owns l := .inr (by rw [hp]; rfl)
  have hguards := (h.cpu c).apart l (by rw [hp]; rfl)
  have hnone : ¬(s.cpus c).Stamped l := by simp [Cpu.Stamped,Phase.stamped,hp,hguards]
  refine h.setLock ?_ (fun m hm => ?_) (fun m hm => ?_) (h.alone howns) ?_ fun d => ?_
  · exact (h.cpu c).move (by rw [hp]; rfl) rfl (fun m hm => by cases hm) fun m hm => by cases hm
  · simp [Cpu.Owns,Phase.owned,hp,hm.symm]
  · simp [Cpu.Stamped,Phase.stamped,hp]
  · simp [Cpu.Owns,Phase.owned,hguards]
  · constructor
    · intro hd
      have hs := (h.shared.stamp l d).mp hd
      obtain rfl := h.shared.exclusive l d c hs.owns howns
      exact absurd hs hnone
    · rintro ⟨-,hs⟩
      simp [Cpu.Stamped,Phase.stamped,hguards] at hs

/-- `push_off` turns interrupts off. -/
theorem turnOff_safe (h : Safe s) {old : Bool} {m : Option Lock}
    (hp : (s.cpus c).phase=.turnOff old m) :
    Safe (s.setCpu c {s.cpus c with sie := false, phase := .count old m}) := by
  have hcpu := h.cpu c
  refine h.setCpu ?_ (fun l => ?_) fun l => ?_
  · exact {
      counted := by
        have hc := hcpu.counted
        rw [hp] at hc
        exact hc
      bound := hcpu.bound
      masked := fun hs => by cases hs
      kept := fun old m hm => by cases hm
      nodup := hcpu.nodup
      apart := fun m hm => by cases hm
      waits := fun m hm => by cases hm
      under := hcpu.under }
  · simp [Cpu.Owns,Phase.owned,hp]
  · simp [Cpu.Stamped,Phase.stamped,hp]

/-- `push_off` reads whether interrupts are on. -/
theorem read_safe (h : Safe s) {m : Option Lock} (hp : (s.cpus c).phase=.read m) :
    Safe (s.setCpu c {s.cpus c with phase := .turnOff (s.cpus c).sie m}) := by
  have hcpu := h.cpu c
  refine h.setPhase ?_ (by rw [hp]; rfl) (by rw [hp]; rfl)
  exact {
    counted := by
      have hc := hcpu.counted
      rw [hp] at hc
      exact hc
    bound := hcpu.bound
    masked := fun hs => ⟨(hcpu.masked hs).1,hs⟩
    kept := fun old m hm => by cases hm; rfl
    nodup := hcpu.nodup
    apart := fun m hm => by cases hm
    waits := fun m hm => by cases hm
    under := hcpu.under }

/-- A CPU in `count`, or in a function that has counted, has interrupts off. -/
theorem count_off (h : Safe s) {old : Bool} {m : Option Lock}
    (hp : (s.cpus c).phase=.count old m) : (s.cpus c).sie=false := by
  rw [← Bool.not_eq_true]
  intro hs
  have hi := ((h.cpu c).masked hs).2
  rw [hp] at hi
  exact hi

/-- The end of a `push_off`. -/
theorem count_safe (h : Safe s) {old : Bool} {m : Option Lock}
    (hp : (s.cpus c).phase=.count old m) (ht : tick s c=.next t) : Safe t := by
  have hcpu := h.cpu c
  have hoff := count_off h hp
  have hc := hcpu.counted
  rw [hp] at hc
  simp only [Phase.depth,Nat.add_zero] at hc
  simp only [tick,hp] at ht
  split at ht
  · cases ht
  rename_i hn
  have hbound := hcpu.bound
  cases m with
  | none =>
    cases ht
    refine h.setCpu ?_ (fun l => ?_) fun l => ?_
    · exact {
        counted := by
          simp only [Phase.depth]
          omega
        bound := by
          dsimp only
          omega
        masked := fun hs => absurd hs (by simp [hoff])
        kept := fun old m hm => by cases hm
        nodup := hcpu.nodup
        apart := fun m hm => by cases hm
        waits := fun m hm => by cases hm
        under := hcpu.under }
    · simp [Cpu.Owns,Phase.owned,hp]
    · simp [Cpu.Stamped,Phase.stamped,hp]
  | some l =>
    cases ht
    refine h.setCpu ?_ (fun l => ?_) fun l => ?_
    · exact {
        counted := by
          simp only [Phase.depth]
          omega
        bound := by
          dsimp only
          omega
        masked := fun hs => absurd hs (by simp [hoff])
        kept := fun old m hm => by cases hm
        nodup := hcpu.nodup
        apart := fun m hm => by cases hm
        waits := fun m hm => by cases hm
        under := hcpu.under }
    · simp [Cpu.Owns,Phase.owned,hp]
    · simp [Cpu.Stamped,Phase.stamped,hp]

/-- The end of `pop_off`. -/
theorem popCount_safe (h : Safe s) (hp : (s.cpus c).phase=.popCount) :
    Safe (s.setCpu c {s.cpus c with
      noff := (s.cpus c).noff-1
      sie := (s.cpus c).sie || (s.cpus c).noff=1 && (s.cpus c).intena
      phase := .idle}) := by
  have hcpu := h.cpu c
  have hc := hcpu.counted
  rw [hp] at hc
  simp only [Phase.depth] at hc
  have hoff := hcpu.off (by rw [hp]; rfl)
  refine h.setCpu ?_ (fun l => ?_) fun l => ?_
  · exact {
      counted := by
        simp only [Phase.depth]
        omega
      bound := (Nat.sub_le _ _).trans hcpu.bound
      masked := fun hs => by
        simp only [hoff,Bool.false_or,Bool.and_eq_true,decide_eq_true_eq] at hs
        exact ⟨by simp only [hs.1],trivial⟩
      kept := fun old m hm => by cases hm
      nodup := hcpu.nodup
      apart := fun m hm => by cases hm
      waits := fun m hm => by cases hm
      under := hcpu.under }
  · simp [Cpu.Owns,Phase.owned,hp]
  · simp [Cpu.Stamped,Phase.stamped,hp]

/-- A step inside `acquire`, `release`, `push_off` or `pop_off`. -/
theorem tick_safe (h : Safe s) (ht : tick s c=.next t) : Safe t := by
  have hcpu := h.cpu c
  rw [tick] at ht
  cases hp : (s.cpus c).phase with
  | idle =>
    rw [hp] at ht
    cases ht
  | read m =>
    rw [hp] at ht
    cases ht
    exact read_safe h hp
  | turnOff old m =>
    rw [hp] at ht
    cases ht
    exact turnOff_safe h hp
  | count old m => exact count_safe h hp (by rw [tick]; exact ht)
  | test l =>
    simp only [hp] at ht
    split at ht
    · cases ht
      refine h.setPhase (hcpu.move (by rw [hp]; rfl) rfl ?_ ?_) (by rw [hp]; rfl) (by rw [hp]; rfl)
      · exact fun m hm => by cases hm
      · exact fun m hm => by cases hm
    · rename_i hw
      cases ht
      refine h.setPhase (hcpu.move (by rw [hp]; rfl) rfl ?_ ?_) (by rw [hp]; rfl) (by rw [hp]; rfl)
      · exact fun m hm => by cases hm
      · rintro m ⟨⟩ hm
        exact h.free hw c (.inl hm)
  | compare l =>
    simp only [hp] at ht
    split at ht
    · cases ht
    · rename_i hid
      cases ht
      refine h.setPhase (hcpu.move (by rw [hp]; rfl) rfl ?_ ?_) (by rw [hp]; rfl) (by rw [hp]; rfl)
      · exact fun m hm => by cases hm
      · rintro m ⟨⟩ hm
        exact hid ((h.shared.stamp l c).mpr (.inl hm))
  | spin l =>
    simp only [hp] at ht
    split at ht
    · cases ht
      exact h
    · rename_i hw
      cases ht
      exact spin_safe h hp hw
  | record l =>
    rw [hp] at ht
    cases ht
    exact record_safe h hp
  | check l =>
    simp only [hp] at ht
    split at ht
    · cases ht
      exact h.setPhase (hcpu.keep (by rw [hp]; rfl) rfl (by rw [hp]; rfl) fun m hm => by cases hm)
        (by rw [hp]; rfl) (by rw [hp]; rfl)
    · cases ht
  | checkOwn l =>
    simp only [hp] at ht
    split at ht
    · cases ht
      exact h.setPhase (hcpu.keep (by rw [hp]; rfl) rfl (by rw [hp]; rfl) fun m hm => by cases hm)
        (by rw [hp]; rfl) (by rw [hp]; rfl)
    · cases ht
  | clear l =>
    rw [hp] at ht
    cases ht
    exact clear_safe h hp
  | store l =>
    rw [hp] at ht
    cases ht
    exact store_safe h hp
  | popTest =>
    simp only [hp] at ht
    split at ht
    · cases ht
    · cases ht
      exact h.setPhase (hcpu.keep (by rw [hp]; rfl) rfl (by rw [hp]; rfl) fun m hm => by cases hm)
        (by rw [hp]; rfl) (by rw [hp]; rfl)
  | popCount =>
    simp only [hp] at ht
    split at ht
    · cases ht
    · cases ht
      exact popCount_safe h hp

/-- The checks inside these functions fail where the code has made a mistake. -/
theorem tick_fault (h : Safe s) {e : Panic} (hf : tick s c=.fault e) : Blamed s (.tick c) e := by
  have hcpu := h.cpu c
  rw [tick] at hf
  cases hp : (s.cpus c).phase with
  | count old m =>
    simp only [hp] at hf
    split at hf
    · rename_i hn
      cases hf
      exact hn
    · cases m <;> cases hf
  | test l =>
    simp only [hp] at hf
    split at hf <;> cases hf
  | compare l =>
    simp only [hp] at hf
    split at hf
    · rename_i hid
      cases hf
      have hs := (h.shared.stamp l c).mp hid
      rw [Cpu.Stamped,hp] at hs
      exact hs.resolve_right fun hs => by cases hs
    · cases hf
  | spin l =>
    simp only [hp] at hf
    split at hf <;> cases hf
  | check l =>
    simp only [hp] at hf
    split at hf
    · cases hf
    · rename_i hw
      exact absurd ((h.shared.word l).mpr ⟨c,.inr (by rw [hp]; rfl)⟩) hw
  | checkOwn l =>
    simp only [hp] at hf
    split at hf
    · cases hf
    · rename_i hid
      exact absurd ((h.shared.stamp l c).mpr (.inr (by rw [hp]; rfl))) hid
  | popTest =>
    simp only [hp] at hf
    split at hf
    · rename_i hs
      rw [hcpu.off (by rw [hp]; rfl)] at hs
      cases hs
    · cases hf
  | popCount =>
    simp only [hp] at hf
    split at hf
    · rename_i hn
      have hc := hcpu.counted
      rw [hp] at hc
      simp only [Phase.depth] at hc
      omega
    · cases hf
  | _ =>
    rw [hp] at hf
    cases hf

end Steps

section System

variable {s t : System} {c p : ℕ} {l : Lock}

/-- A call. -/
theorem call_safe (h : Safe s) (hi : (s.cpus c).phase=.idle) (m : Option Lock) :
    Safe (s.setCpu c {s.cpus c with phase := .read m}) :=
  h.setPhase ((h.cpu c).enter hi m) (by rw [hi]; rfl) (by rw [hi]; rfl)

/-- A guard is dropped. -/
theorem drop_safe (h : Safe s) (hi : (s.cpus c).phase=.idle) (hl : l∈(s.cpus c).guards) :
    Safe (s.setCpu c {s.cpus c with phase := .check l, guards := (s.cpus c).guards.erase l}) := by
  have hcpu := h.cpu c
  have hmem : ∀ m,m∈(s.cpus c).guards ↔ m∈(s.cpus c).guards.erase l ∨ l=m := by
    intro m
    rw [hcpu.nodup.mem_erase_iff]
    by_cases e : m=l
    · simp [e,hl]
    · simp [e,Ne.symm e]
  have hc := hcpu.counted
  rw [hi] at hc
  simp only [Phase.depth,Nat.add_zero] at hc
  have hpos := List.length_pos_of_mem hl
  refine h.setCpu ?_ (fun m => ?_) fun m => ?_
  · exact {
      counted := by
        simp only [List.length_erase_of_mem hl,Phase.depth]
        omega
      bound := hcpu.bound
      masked := fun hs => by
        have hn := (hcpu.masked hs).1
        omega
      kept := fun old m hm => by cases hm
      nodup := hcpu.nodup.erase l
      apart := fun m hm => by
        cases hm
        exact hcpu.nodup.not_mem_erase
      waits := fun m hm => by cases hm
      under := hcpu.under }
  · simp [Cpu.Owns,Phase.owned,hi,hmem m]
  · simp [Cpu.Stamped,Phase.stamped,hi,hmem m]

/-- `pop_off` is called. -/
theorem pop_safe (h : Safe s) (hi : (s.cpus c).phase=.idle) (hb : 0 < (s.cpus c).bare) :
    Safe (s.setCpu c {s.cpus c with phase := .popTest, bare := (s.cpus c).bare-1}) := by
  have hcpu := h.cpu c
  have hc := hcpu.counted
  rw [hi] at hc
  simp only [Phase.depth,Nat.add_zero] at hc
  refine h.setCpu ?_ (fun m => ?_) fun m => ?_
  · exact {
      counted := by
        simp only [Phase.depth]
        omega
      bound := hcpu.bound
      masked := fun hs => by
        have hn := (hcpu.masked hs).1
        omega
      kept := fun old m hm => by cases hm
      nodup := hcpu.nodup
      apart := fun m hm => by cases hm
      waits := fun m hm => by cases hm
      under := hcpu.under }
  · simp [Cpu.Owns,Phase.owned,hi]
  · simp [Cpu.Stamped,Phase.stamped,hi]

theorem Cpu.Sound.noff_eq_zero {cpu : Cpu} (h : cpu.Sound) (hf : cpu.Free) : cpu.noff=0 := by
  rw [h.counted,hf.1,hf.2.1,hf.2.2]
  rfl

/-- Code without locks turns interrupts on or off. -/
theorem setSie_safe (h : Safe s) (hf : (s.cpus c).Free) (on : Bool) :
    Safe (s.setCpu c {s.cpus c with sie := on}) := by
  have hcpu := h.cpu c
  refine h.setCpu ?_ (fun m => .rfl) fun m => .rfl
  exact {
    counted := hcpu.counted
    bound := hcpu.bound
    masked := fun _ => ⟨hcpu.noff_eq_zero hf,by simp [hf.1,Phase.Interruptible]⟩
    kept := fun old m hm => by
      simp only [hf.1] at hm
      cases hm
    nodup := hcpu.nodup
    apart := hcpu.apart
    waits := hcpu.waits
    under := hcpu.under }

@[simp] theorem owned_idle : Phase.idle.owned=none := rfl

@[simp] theorem stamped_idle : Phase.idle.stamped=none := rfl

theorem Phase.Interruptible.owned {p : Phase} (h : p.Interruptible) : p.owned=none := by
  cases p <;> first | rfl | exact absurd h id

theorem Phase.Interruptible.stamped {p : Phase} (h : p.Interruptible) : p.stamped=none := by
  cases p <;> first | rfl | exact absurd h id

theorem Phase.Interruptible.depth {p : Phase} (h : p.Interruptible) : p.depth=0 := by
  cases p <;> first | rfl | exact absurd h id

/-- An interrupt arrives. -/
theorem trap_safe (h : Safe s) (hs : (s.cpus c).sie=true) :
    Safe (s.setCpu c {s.cpus c with
      sie := false
      phase := .idle
      stack := (s.cpus c).phase::(s.cpus c).stack}) := by
  have hcpu := h.cpu c
  obtain ⟨-,hi⟩ := hcpu.masked hs
  refine h.setCpu ?_ (fun m => ?_) fun m => ?_
  · exact {
      counted := by
        rw [hcpu.counted,hi.depth]
        rfl
      bound := hcpu.bound
      masked := fun hs => by cases hs
      kept := fun old m hm => by cases hm
      nodup := hcpu.nodup
      apart := fun m hm => by cases hm
      waits := fun m hm => by cases hm
      under := fun f hf => by
        obtain rfl | hf := List.mem_cons.mp hf
        · exact hi
        · exact hcpu.under f hf }
  · simp [Cpu.Owns,hi.owned]
  · simp [Cpu.Stamped,hi.stamped]

/-- A handler returns. -/
theorem trapReturn_safe (h : Safe s) (hf : (s.cpus c).Free) {f : Phase} {rest : List Phase}
    (hst : (s.cpus c).stack=f::rest) :
    Safe (s.setCpu c {s.cpus c with sie := true, phase := f, stack := rest}) := by
  have hcpu := h.cpu c
  have hi : f.Interruptible := hcpu.under f (by rw [hst]; exact List.mem_cons_self ..)
  have hnone := hi.owned
  refine h.setCpu ?_ (fun m => ?_) fun m => ?_
  · exact {
      counted := by
        rw [hcpu.counted,hf.1,hi.depth]
        rfl
      bound := hcpu.bound
      masked := fun _ => ⟨hcpu.noff_eq_zero hf,hi⟩
      kept := fun old m hm => by
        dsimp only at hm
        rw [hm] at hi
        exact hi.symm
      nodup := hcpu.nodup
      apart := fun m hm => by
        rw [hnone] at hm
        cases hm
      waits := fun m hm => by
        dsimp only at hm
        rw [hm] at hi
        exact absurd hi id
      under := fun x hx => hcpu.under x (by rw [hst]; exact List.mem_cons_of_mem _ hx) }
  · simp [Cpu.Owns,hnone,hf.1]
  · simp [Cpu.Stamped,hi.stamped,hf.1]

/-- `sched` leaves a process behind. -/
theorem sched_safe (h : Safe s) (ht : sched s c p=.next t) : Safe t := by
  have hcpu := h.cpu c
  rw [sched] at ht
  simp only at ht
  split at ht
  · cases ht
  split at ht
  · cases ht
  split at ht
  · cases ht
  split at ht
  · cases ht
  cases ht
  have hset : Safe (s.setCpu c {s.cpus c with stack := [], process := none}) :=
    h.setCpu (hcpu.switch (fun x hx => by cases hx) none) (fun m => .rfl) fun m => .rfl
  refine ⟨hset.cpu,hset.shared.frame rfl (fun _ _ => .rfl) fun _ _ => .rfl,fun q f hf x hx => ?_⟩
  dsimp only at hf
  rw [Function.update_apply] at hf
  split at hf
  · cases hf
    exact hcpu.under x hx
  · exact h.saved q f hf x hx

/-- The states of processes may be any. -/
theorem setRunning_safe (h : Safe s) (q : ℕ) (running : Bool) : Safe (s.setRunning q running) :=
  ⟨h.cpu,h.shared.frame rfl (fun _ _ => .rfl) fun _ _ => .rfl,h.saved⟩

/-- `intena` may be any. -/
theorem writeBack_safe (h : Safe s) (home : Option (ℕ × Bool)) : Safe (s.writeBack home) := by
  cases home with
  | none => exact h
  | some home =>
    have hcpu := h.cpu home.1
    refine h.setCpu ?_ (fun m => .rfl) fun m => .rfl
    exact {
      counted := hcpu.counted
      bound := hcpu.bound
      masked := hcpu.masked
      kept := hcpu.kept
      nodup := hcpu.nodup
      apart := hcpu.apart
      waits := hcpu.waits
      under := hcpu.under }

/-- The scheduler switches to a process. -/
theorem resume_safe (h : Safe s) {f : Saved} (hf : s.saved p=some f) :
    Safe ({s.setCpu c {s.cpus c with stack := f.stack, process := some p} with
      saved := Function.update s.saved p none}.writeBack f.home) := by
  have hcpu := h.cpu c
  have hset : Safe (s.setCpu c {s.cpus c with stack := f.stack, process := some p}) :=
    h.setCpu (hcpu.switch (h.saved p f hf) (some p)) (fun m => .rfl) fun m => .rfl
  have hgone : Safe {s.setCpu c {s.cpus c with stack := f.stack, process := some p} with
      saved := Function.update s.saved p none} := by
    refine ⟨hset.cpu,hset.shared.frame rfl (fun _ _ => .rfl) fun _ _ => .rfl,fun q g hg x hx => ?_⟩
    dsimp only at hg
    rw [Function.update_apply] at hg
    split at hg
    · cases hg
    · exact h.saved q g hg x hx
  exact writeBack_safe hgone f.home

/-- Every step is safe. -/
theorem step_safe (s : System) (a : Action) (t : System) (h : Safe s) (ht : step s a=.next t) :
    Safe t := by
  cases a with
  | tick c => exact tick_safe h ht
  | lock c l =>
    rw [step] at ht
    split at ht
    · rename_i hi
      cases ht
      exact call_safe h hi (some l)
    · cases ht
  | drop c l =>
    rw [step] at ht
    split at ht
    · rename_i hi
      cases ht
      exact drop_safe h hi.1 hi.2
    · cases ht
  | push c =>
    rw [step] at ht
    split at ht
    · rename_i hi
      cases ht
      exact call_safe h hi none
    · cases ht
  | pop c =>
    rw [step] at ht
    split at ht
    · rename_i hi
      cases ht
      exact pop_safe h hi.1 hi.2
    · cases ht
  | setSie c on =>
    rw [step] at ht
    split at ht
    · rename_i hf
      cases ht
      exact setSie_safe h hf on
    · cases ht
  | trap c =>
    rw [step] at ht
    split at ht
    · rename_i hs
      cases ht
      exact trap_safe h hs
    · cases ht
  | trapReturn c =>
    rw [step] at ht
    split at ht
    · cases ht
    · rename_i f rest hst
      split at ht
      · rename_i hf
        cases ht
        exact trapReturn_safe h hf hst
      · cases ht
  | setState c p running =>
    rw [step] at ht
    split at ht
    · cases ht
      exact setRunning_safe h p running
    · cases ht
  | sched c =>
    rw [step] at ht
    split at ht
    · cases ht
    · split at ht
      · exact sched_safe h ht
      · cases ht
  | resume c p =>
    rw [step] at ht
    split at ht
    · cases ht
    · rename_i f hf
      split at ht
      · cases ht
        exact resume_safe (setRunning_safe h p true) hf
      · cases ht
  | renew p =>
    rw [step] at ht
    split at ht
    · cases ht
    · cases ht
      refine ⟨h.cpu,h.shared.frame rfl (fun _ _ => .rfl) fun _ _ => .rfl,fun q f hf x hx => ?_⟩
      dsimp only at hf
      rw [Function.update_apply] at hf
      split at hf
      · cases hf
        cases hx
      · exact h.saved q f hf x hx

/-- What `sched` checks holds, but for another lock or `push_off` or the state `RUNNING`. -/
theorem sched_fault (h : Safe s) (hp : (s.cpus c).process=some p)
    (hi : (s.cpus c).phase=.idle) (hl : .excl p∈(s.cpus c).guards) {e : Panic}
    (hf : sched s c p=.fault e) : Blamed s (.sched c) e := by
  have hcpu := h.cpu c
  have hc := hcpu.counted
  rw [hi] at hc
  simp only [Phase.depth,Nat.add_zero] at hc
  have hpos := List.length_pos_of_mem hl
  have hw := (h.shared.word (.excl p)).mpr ⟨c,.inl hl⟩
  have hid := (h.shared.stamp (.excl p) c).mpr (.inl hl)
  rw [sched] at hf
  simp only at hf
  split at hf
  · rename_i hn
    simp [System.holding,hw,hid] at hn
  split at hf
  · rename_i hn
    cases hf
    rw [Blamed]
    omega
  split at hf
  · rename_i hrunning
    cases hf
    exact ⟨p,hp,hrunning⟩
  split at hf
  · rename_i hs
    have hn := (hcpu.masked hs).1
    omega
  cases hf

/-- Every panic has its reason. -/
theorem step_fault (h : Safe s) {a : Action} {e : Panic} (hf : step s a=.fault e) :
    Blamed s a e := by
  cases a with
  | tick c => exact tick_fault h hf
  | sched c =>
    rw [step] at hf
    split at hf
    · cases hf
    · rename_i hp
      split at hf
      · rename_i hi
        exact sched_fault h hp hi.1 hi.2 hf
      · cases hf
  | trapReturn c =>
    rw [step] at hf
    split at hf
    · cases hf
    · split at hf <;> cases hf
  | resume c p =>
    rw [step] at hf
    split at hf
    · cases hf
    · split at hf <;> cases hf
  | renew p =>
    rw [step] at hf
    split at hf <;> cases hf
  | _ =>
    rw [step] at hf
    split at hf <;> cases hf

theorem boot_safe : Safe boot := by
  refine ⟨fun c => ?_,⟨fun l => ?_,fun l c d hc => ?_,fun l c => ?_⟩,fun p f hf x hx => ?_⟩
  · exact {
      counted := rfl
      bound := Nat.zero_le _
      masked := fun hs => by cases hs
      kept := fun _ _ hm => by cases hm
      nodup := List.nodup_nil
      apart := fun _ hm => by cases hm
      waits := fun _ hm => by cases hm
      under := fun _ hf => by cases hf }
  · simp [boot,Cpu.Owns,Phase.owned]
  · simp [boot,Cpu.Owns,Phase.owned] at hc
  · simp [boot,Cpu.Stamped,Phase.stamped]
  · cases hf
    cases hx

end System

/-- In every state of every run: a lock is taken exactly if one CPU owns it, `cpuid` names that CPU
between the end of `acquire` and `release`, interrupts are off on a CPU that owns a lock or waits
for one, code under a handler or switched out owns none, and no CPU waits for its own lock. No
check of `release` or `pop_off` fails; `acquire` panics only on a lock that the CPU owns,
`push_off` only at its 256th level, and `sched` only with another lock or `push_off` or in the state
`RUNNING`. -/
theorem locks_exclude {as : List Action} {s : System} (hr : run step boot as=.next s) :
    Safe s ∧ ∀ a e,step s a=.fault e → Blamed s a e := by
  have hstep : ∀ s a t,Safe s → True → step s a=.next t → Safe t :=
    fun s a t h _ ht => step_safe s a t h ht
  have hsafe := run_invariant hstep boot_safe (guarded_of_forall (fun _ _ => trivial) _ _) hr
  exact ⟨hsafe,fun _ _ hf => step_fault hsafe hf⟩

/-- `n` steps of a CPU. -/
def ticks (c n : ℕ) : List Action := List.replicate n (.tick c)

/-- A process is interrupted on CPU 0 between `intr_get` and `intr_off`, goes through `sched` in the
handler, and takes the lock on CPU 1; CPU 0 then waits for it. -/
def migration : List Action :=
  .lock 0 (.excl 0)::ticks 0 6++.resume 0 0::.drop 0 (.excl 0)::ticks 0 6++
    .setSie 0 true::.lock 0 (.other 0)::.tick 0::.trap 0::
    .lock 0 (.excl 0)::ticks 0 6++.setState 0 0 false::.sched 0::.drop 0 (.excl 0)::ticks 0 6++
    .lock 1 (.excl 0)::ticks 1 6++.resume 1 0::.drop 1 (.excl 0)::ticks 1 6++
    .trapReturn 1::ticks 1 5++.lock 0 (.other 0)::ticks 0 6

theorem locks_exclude_migration :
    ∃ s,run step boot migration=.next s ∧ Safe s ∧ (s.cpus 1).guards=[.other 0] ∧
      (s.cpus 1).sie=false ∧ (s.cpus 0).phase=.spin (.other 0) :=
  ⟨_,rfl,(@locks_exclude migration _ rfl).1,rfl,rfl,rfl⟩

end Xv6Rust.SpinLocks
