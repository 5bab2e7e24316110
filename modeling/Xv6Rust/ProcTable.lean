import Xv6Rust.Runs

/-!
# The process table, the ready queue and the CPUs

The shared state of `process/mod.rs`, `process/cpu.rs`, `process/proc/mod.rs`,
`process/proc/pid.rs` and `process/proc/manager.rs`. A step is one section that
runs under the exclusive lock of a process-table entry, or one operation on the
ready queue or the pid allocator outside such a section. `fork` and the
scheduler change the state and the queue in two separate sections, and appear
here as two steps. A step names the CPU that takes it and the entry it acts on.
Priorities, user memory and open files are not part of this state.
-/

namespace Xv6Rust.ProcTable

open Runs

/-- `NPROC`. -/
def nproc : ℕ := 512

/-- `ProcState`. -/
inductive ProcState where
  | unused
  | sleeping
  | runnable
  | running
  | allocated
  | zombie
  deriving DecidableEq

/-- `ProcExcl`, the part of an entry under its exclusive lock. -/
structure ProcExcl where
  /-- Scheduling state. -/
  state : ProcState
  /-- Status passed to `exiting`. -/
  exitStatus : ℤ
  /-- Channel slept on, or zero. -/
  channel : ℕ
  /-- Process id. -/
  pid : ℕ
  deriving DecidableEq

/-- `ProcExcl::new` and the result of `ProcExcl::cleanup`. -/
def ProcExcl.clean : ProcExcl := ⟨.unused,0,0,0⟩

/-- `RecycleAllocator` of pids; the vector's end is the list's head. -/
structure RecycleAllocator where
  /-- The next pid never handed out. -/
  current : ℕ
  /-- Pids given back, last one first. -/
  recycled : List ℕ
  deriving DecidableEq

/-- `pid_alloc`: the last recycled pid, or a fresh one. -/
def RecycleAllocator.pidAlloc (pids : RecycleAllocator) : ℕ×RecycleAllocator :=
  match pids.recycled with
  | pid::rest => (pid,{pids with recycled := rest})
  | [] => (pids.current,{pids with current := pids.current+1})

/-- `pid_dealloc` past its assertions. -/
def RecycleAllocator.pidDealloc (pids : RecycleAllocator) (pid : ℕ) : RecycleAllocator :=
  {pids with recycled := pid::pids.recycled}

/-- What a CPU is doing with its current process. -/
inductive Phase where
  /-- In the scheduler loop, without a process. -/
  | idle
  /-- The scheduler fetched the process and waits for its lock. -/
  | fetched (slot : ℕ)
  /-- The process runs. -/
  | running (slot : ℕ)
  /-- The process called `sched` holding its lock; the scheduler will drop it. -/
  | switching (slot : ℕ)
  deriving DecidableEq

/-- `cpu.process`. -/
def Phase.process : Phase → Option ℕ
  | .idle => none
  | .fetched slot => some slot
  | .running slot => some slot
  | .switching slot => some slot

/-- How far the `fork` that created an entry has come. -/
inductive ForkStage where
  /-- No `fork` is working on the entry. -/
  | done
  /-- Allocated by the given parent; memory is being copied. -/
  | copying (parent : ℕ)
  /-- The parent is recorded. -/
  | parented (parent : ℕ)
  /-- The entry is `RUNNABLE` but not yet queued. -/
  | adding (parent : ℕ)
  deriving DecidableEq

/-- The process subsystem. -/
structure System where
  /-- The process table. -/
  table : ℕ → ProcExcl
  /-- CPU holding the exclusive lock of an entry between two steps. -/
  lock : ℕ → Option ℕ
  /-- The killed flags. -/
  killed : ℕ → Bool
  /-- The parents map. -/
  parents : ℕ → Option ℕ
  /-- Progress of the `fork` calls, by child. -/
  forks : ℕ → ForkStage
  /-- `PROCFIFO.ready_queue`. -/
  queue : List ℕ
  /-- Every CPU. -/
  cpus : ℕ → Phase
  /-- `PID_ALLOCATOR`. -/
  pids : RecycleAllocator

/-- The sections of the process subsystem. -/
inductive Action where
  /-- `user_init` at boot, on the first entry. -/
  | userInit
  /-- The scheduler takes the head of the queue. -/
  | fetch (cpu slot : ℕ)
  /-- The scheduler locks the fetched process and switches to it. -/
  | dispatch (cpu slot : ℕ)
  /-- `yielding` up to the switch. -/
  | yielding (cpu slot : ℕ)
  /-- `sleep` up to the switch. -/
  | sleep (cpu slot channel : ℕ)
  /-- `exiting` up to the switch. -/
  | exiting (cpu slot : ℕ) (status : ℤ)
  /-- Back in the scheduler: forget the process and drop its lock. -/
  | switched (cpu slot : ℕ)
  /-- `alloc_proc` called by `fork`. -/
  | forkAlloc (cpu parent slot : ℕ)
  /-- `alloc_proc` that takes a pid and then fails for lack of memory. -/
  | forkNoMemory (cpu parent : ℕ)
  /-- `fork` undone after a failing memory copy. -/
  | forkUndo (cpu parent slot : ℕ)
  /-- `set_parent`. -/
  | setParent (cpu parent slot : ℕ)
  /-- `fork` makes the child `RUNNABLE`. -/
  | forkReady (cpu parent slot : ℕ)
  /-- `fork` queues the child. -/
  | forkAdd (cpu parent slot : ℕ)
  /-- The part of `wakeup` that looks at one entry. -/
  | wakeup (slot channel : ℕ)
  /-- `kill` at the entry with the given pid. -/
  | kill (cpu slot pid : ℕ)
  /-- `waiting` reaping a zombie child. -/
  | waiting (cpu parent slot : ℕ)

/-- Failed assertions and panics of these sections. -/
inductive Panic where
  /-- `yielding` of a process that is not running. -/
  | yieldNotRunning
  /-- `init process exiting`. -/
  | initExiting
  /-- `exiting` without a recorded parent. -/
  | noParent
  /-- `pid_dealloc` of a pid that was never allocated. -/
  | pidNotAllocated
  /-- `pid_dealloc` of a recycled pid. -/
  | pidDeallocatedTwice
  /-- `set_parent` of an entry that has a parent. -/
  | parentSet
  deriving DecidableEq

/-- The actor is in place and no lock it needs is held. -/
def enabled (s : System) : Action → Prop
  | .userInit => s.pids.current=0 ∧ (s.table 0).state=.unused ∧ s.lock 0=none
  | .fetch cpu slot => s.cpus cpu=.idle ∧ s.queue.head?=some slot
  | .dispatch cpu slot => s.cpus cpu=.fetched slot ∧ s.lock slot=none
  | .yielding cpu slot => s.cpus cpu=.running slot ∧ s.lock slot=none
  | .sleep cpu slot _ => s.cpus cpu=.running slot ∧ s.lock slot=none
  | .exiting cpu slot _ => s.cpus cpu=.running slot ∧ s.lock slot=none
  | .switched cpu slot => s.cpus cpu=.switching slot
  | .forkAlloc cpu parent slot => s.cpus cpu=.running parent ∧ slot<nproc ∧
      (s.table slot).state=.unused ∧ s.lock slot=none
  | .forkNoMemory cpu parent => s.cpus cpu=.running parent
  | .forkUndo cpu parent slot => s.cpus cpu=.running parent ∧ s.forks slot=.copying parent ∧
      s.lock slot=none
  | .setParent cpu parent slot => s.cpus cpu=.running parent ∧ s.forks slot=.copying parent
  | .forkReady cpu parent slot => s.cpus cpu=.running parent ∧ s.forks slot=.parented parent ∧
      s.lock slot=none
  | .forkAdd cpu parent slot => s.cpus cpu=.running parent ∧ s.forks slot=.adding parent
  | .wakeup slot channel => s.lock slot=none ∧ (s.table slot).state=.sleeping ∧
      (s.table slot).channel=channel
  | .kill cpu slot pid => (∃ p,s.cpus cpu=.running p) ∧ slot<nproc ∧ s.lock slot=none ∧
      (s.table slot).pid=pid
  | .waiting cpu parent slot => s.cpus cpu=.running parent ∧ s.parents slot=some parent ∧
      s.lock slot=none ∧ (s.table slot).state=.zombie

instance (phase : Phase) : Decidable (∃ p,phase=.running p) :=
  match phase with
  | .running p => .isTrue ⟨p,rfl⟩
  | .idle => .isFalse nofun
  | .fetched _ => .isFalse nofun
  | .switching _ => .isFalse nofun

instance (s : System) (a : Action) : Decidable (enabled s a) := by
  cases a <;> unfold enabled <;> infer_instance

/-- The assertion an enabled step fails, if any. -/
def panics (s : System) : Action → Option Panic
  | .yielding _ slot => if (s.table slot).state=.running then none else some .yieldNotRunning
  | .exiting _ slot _ =>
    if slot=0 then some .initExiting
    else if s.parents slot=none then some .noParent
    else if ¬(s.table slot).pid < s.pids.current then some .pidNotAllocated
    else if (s.table slot).pid∈s.pids.recycled then some .pidDeallocatedTwice
    else none
  | .setParent _ _ slot => if s.parents slot=none then none else some .parentSet
  | _ => none

/-- Change one entry of the table. -/
def System.setEntry (s : System) (slot : ℕ) (entry : ProcExcl) : System :=
  {s with table := Function.update s.table slot entry}

/-- `alloc_proc` on a free entry. -/
def System.allocProc (s : System) (slot : ℕ) : System :=
  {s.setEntry slot {s.table slot with state := .allocated,pid := s.pids.pidAlloc.1} with
    pids := s.pids.pidAlloc.2}

/-- Call `sched` with the entry's lock held and its state changed. -/
def System.sched (s : System) (cpu slot : ℕ) (entry : ProcExcl) : System :=
  {s.setEntry slot entry with
    lock := Function.update s.lock slot (some cpu)
    cpus := Function.update s.cpus cpu (.switching slot)}

/-- What an enabled step that does not panic does. -/
def effect (s : System) : Action → System
  | .userInit =>
    let t := s.allocProc 0
    {t.setEntry 0 {t.table 0 with state := .runnable} with queue := s.queue++[0]}
  | .fetch cpu slot =>
    {s with queue := s.queue.tail,cpus := Function.update s.cpus cpu (.fetched slot)}
  | .dispatch cpu slot =>
    {s.setEntry slot {s.table slot with state := .running,channel := 0} with
      cpus := Function.update s.cpus cpu (.running slot)}
  | .yielding cpu slot =>
    {s.sched cpu slot {s.table slot with state := .runnable} with queue := s.queue++[slot]}
  | .sleep cpu slot channel =>
    s.sched cpu slot {s.table slot with state := .sleeping,channel := channel}
  | .exiting cpu slot status =>
    -- Children are handed to init before the entry becomes a zombie.
    {s.sched cpu slot {s.table slot with state := .zombie,exitStatus := status} with
      parents := fun child => if s.parents child=some slot then some 0 else s.parents child
      pids := s.pids.pidDealloc (s.table slot).pid}
  | .switched cpu slot =>
    {s with
      lock := Function.update s.lock slot none
      cpus := Function.update s.cpus cpu .idle}
  | .forkAlloc _ parent slot =>
    {s.allocProc slot with forks := Function.update s.forks slot (.copying parent)}
  | .forkNoMemory _ _ => {s with pids := s.pids.pidAlloc.2}
  | .forkUndo _ _ slot =>
    {s.setEntry slot .clean with
      killed := Function.update s.killed slot false
      forks := Function.update s.forks slot .done}
  | .setParent _ parent slot =>
    {s with
      parents := Function.update s.parents slot (some parent)
      forks := Function.update s.forks slot (.parented parent)}
  | .forkReady _ parent slot =>
    {s.setEntry slot {s.table slot with state := .runnable} with
      forks := Function.update s.forks slot (.adding parent)}
  | .forkAdd _ _ slot =>
    {s with queue := s.queue++[slot],forks := Function.update s.forks slot .done}
  | .wakeup slot _ =>
    {s.setEntry slot {s.table slot with state := .runnable} with queue := s.queue++[slot]}
  | .kill _ slot _ =>
    -- The state changes without a queue operation.
    {(if (s.table slot).state=.sleeping then
        s.setEntry slot {s.table slot with state := .runnable} else s) with
      killed := Function.update s.killed slot true}
  | .waiting _ _ slot =>
    {s.setEntry slot .clean with
      parents := Function.update s.parents slot none
      killed := Function.update s.killed slot false}

/-- One section of the process subsystem. -/
def step (s : System) (a : Action) : Outcome Panic System :=
  if enabled s a then
    match panics s a with
    | some e => .fault e
    | none => .next (effect s a)
  else .blocked

/-- The subsystem before `user_init`. -/
def boot : System :=
  ⟨fun _ => .clean,fun _ => none,fun _ => false,fun _ => none,fun _ => .done,[],fun _ => .idle,
    ⟨0,[]⟩⟩

/-- A step that is taken was enabled, passed its assertions and had its effect. -/
theorem step_eq_next {s t : System} {a : Action} (h : step s a=.next t) :
    enabled s a ∧ panics s a=none ∧ t=effect s a := by
  unfold step at h
  split at h
  · rename_i he
    split at h
    · cases h
    · rename_i hp
      cases h
      exact ⟨he,hp,rfl⟩
  · cases h

end Xv6Rust.ProcTable
