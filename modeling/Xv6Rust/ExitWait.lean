import Xv6Rust.ProcTable

/-!
# Exit and wait

`fork`, `exiting`, `waiting`, `sleep` and `wakeup` of `process/mod.rs` and
`process/proc/mod.rs`, cut where one lock is taken or given back. A process has a
place in the function it executes; a section under the lock of one entry is one
step, and the lock on the parents map is held over several. `sched` holds the lock
of the entry until the scheduler has switched away. The ready queue hands its
entries out in any order, and the scheduler makes `RUNNING` what it gets. Beside the
state stands a record of the exits and of what `waiting` has returned.
-/

namespace Xv6Rust.ExitWait

open Runs ProcTable

/-- The address of a process, which is what it sleeps on in `waiting`. -/
def channelOf (i : ℕ) : ℕ := i+1

/-- The place of a process in the functions. -/
inductive Pc where
  /-- In none of them. -/
  | user
  /-- `fork` has allocated the child and copies memory. -/
  | forkCopy (child : ℕ)
  /-- `fork` has recorded the parent. -/
  | forkReady (child : ℕ)
  /-- `fork` has made the child `RUNNABLE`. -/
  | forkAdd (child : ℕ)
  /-- `exiting` before it locks the parents map. -/
  | exitLock (pid : ℕ) (status : ℤ)
  /-- `exiting` wakes init up, and is at an entry of the table. -/
  | wakeInit (pid : ℕ) (status : ℤ) (k : ℕ)
  /-- `exiting` wakes its parent up, and is at an entry of the table. -/
  | wakeParent (pid : ℕ) (status : ℤ) (parent k : ℕ)
  /-- `exiting` is a zombie and has not given the parents map back. -/
  | exitUnlock
  /-- `exiting` never goes on. -/
  | exited
  /-- `waiting` before it locks the parents map. -/
  | waitLock
  /-- `waiting` looks at an entry. -/
  | scan (k : ℕ) (haveChild : Bool)
  /-- `waiting` sleeps, or was woken up. -/
  | waitAgain
  deriving DecidableEq

/-- What a call of `waiting` has returned. -/
structure Return where
  /-- The caller. -/
  waiter : ℕ
  /-- The process that forked the child. -/
  author : ℕ
  /-- The author has exited before the child was returned. -/
  orphan : Bool
  /-- The pid. -/
  pid : ℕ
  /-- The exit status. -/
  status : ℤ
  deriving DecidableEq

/-- The pid and the status. -/
def Return.exit (r : Return) : ℕ×ℤ := (r.pid,r.status)

/-- The processes. -/
structure System where
  /-- The process table. -/
  table : ℕ → ProcExcl
  /-- The lock of an entry is held until the scheduler has switched away. -/
  held : ℕ → Bool
  /-- The parents map. -/
  parents : ℕ → Option ℕ
  /-- Who has locked it. -/
  parentsLock : Option ℕ
  /-- `PROCFIFO.ready_queue`. -/
  queue : List ℕ
  /-- Places. -/
  pc : ℕ → Pc
  /-- Number of forks so far. -/
  clock : ℕ
  /-- When an entry was allocated. -/
  birth : ℕ → ℕ
  /-- Who forked an entry. -/
  author : ℕ → ℕ
  /-- The author has handed the entry to init. -/
  orphan : ℕ → Bool
  /-- Pids and statuses of the exits of an entry. -/
  exits : ℕ → List (ℕ×ℤ)
  /-- What `waiting` has returned of an entry. -/
  returns : ℕ → List Return

/-- What happens. -/
inductive Label where
  /-- `alloc_proc` in `fork`. -/
  | fork (p j pid : ℕ)
  /-- `exiting`, with its files closed. -/
  | exit (p : ℕ) (status : ℤ)
  /-- `waiting`. -/
  | wait (p : ℕ)
  /-- The next section of a process; copies succeed or not, and it finds itself killed or not. -/
  | go (p : ℕ) (copied killed : Bool)
  /-- A process sleeps on a channel that is no process. -/
  | sleepOn (p channel : ℕ)
  /-- It is woken up. -/
  | wakeOn (p channel : ℕ)
  /-- `yielding`. -/
  | yielding (p : ℕ)
  /-- The scheduler has switched away from a process. -/
  | switched (p : ℕ)
  /-- The scheduler switches to a process of the queue. -/
  | dispatch (p : ℕ)
  deriving DecidableEq

namespace System

variable (s : System)

/-- The state of an entry. -/
def state (i : ℕ) : ProcState := (s.table i).state

/-- Change an entry. -/
def setEntry (i : ℕ) (entry : ProcExcl) : System :=
  {s with table := Function.update s.table i entry}

/-- Change the state of an entry. -/
def setState (i : ℕ) (state : ProcState) : System := s.setEntry i {s.table i with state := state}

/-- Change a place. -/
def setPc (i : ℕ) (pc : Pc) : System := {s with pc := Function.update s.pc i pc}

/-- Add to the ready queue. -/
def enqueue (i : ℕ) : System := {s with queue := s.queue++[i]}

/-- `wakeup` at one entry. -/
def wakeup (k channel : ℕ) : System :=
  if s.state k=.sleeping ∧ (s.table k).channel=channel then (s.setState k .runnable).enqueue k
  else s

/-- Some child is in the parents map. -/
def hasChild (p : ℕ) : Bool := (List.range nproc).any fun child => s.parents child==some p

/-- The children are handed to init. -/
def reparent (p : ℕ) : System :=
  {s with
    parents := fun child => if s.parents child=some p then some 0 else s.parents child
    orphan := fun child => if s.parents child=some p then true else s.orphan child}

/-- Lock the parents map. -/
def lockParents (p : ℕ) : System := {s with parentsLock := some p}

/-- Give it back. -/
def unlockParents : System := {s with parentsLock := none}

/-- Give up the CPU: the lock of the entry is held until the scheduler runs. -/
def yielding (p : ℕ) : System :=
  {(s.setState p .runnable).enqueue p with held := Function.update s.held p true}

/-- Sleep, with the lock held as well. -/
def sleep (p channel : ℕ) : System :=
  {s.setEntry p {s.table p with state := .sleeping,channel := channel} with
    held := Function.update s.held p true}

/-- Become a zombie. -/
def die (p pid : ℕ) (status : ℤ) : System :=
  {s.setEntry p {s.table p with state := .zombie,exitStatus := status} with
    held := Function.update s.held p true
    exits := Function.update s.exits p (s.exits p++[(pid,status)])}

/-- `waiting` cleans a zombie up and returns its pid. -/
def reap (p k : ℕ) : System :=
  {s.setEntry k .clean with
    parents := Function.update s.parents k none
    pc := Function.update s.pc k .user
    returns := Function.update s.returns k (s.returns k++
      [⟨p,s.author k,s.orphan k,(s.table k).pid,(s.table k).exitStatus⟩])}

/-- `alloc_proc` on a free entry. -/
def alloc (p j pid : ℕ) : System :=
  {s.setEntry j {s.table j with state := .allocated,pid := pid} with
    clock := s.clock+1
    birth := Function.update s.birth j (s.clock+1)
    author := Function.update s.author j p
    orphan := Function.update s.orphan j false}

/-- `set_parent`. -/
def setParent (child parent : ℕ) : System :=
  {s with parents := Function.update s.parents child (some parent)}

end System

/-- The next section of a process. -/
def go (s : System) (p : ℕ) (copied killed : Bool) : Outcome Panic System :=
  match s.pc p with
  | .user => .blocked
  | .forkCopy j =>
    if copied=true then
      if s.parentsLock≠none then .blocked
      else if s.parents j≠none then .fault .parentSet
      else .next ((s.setParent j p).setPc p (.forkReady j))
    else if s.held j=true then .blocked
    else .next ((s.setEntry j .clean).setPc p .user)
  | .forkReady j =>
    if s.held j=true then .blocked else .next ((s.setState j .runnable).setPc p (.forkAdd j))
  | .forkAdd j => .next ((s.enqueue j).setPc p .user)
  | .exitLock pid status =>
    if s.parentsLock≠none then .blocked
    else .next (((s.reparent p).lockParents p).setPc p
      (.wakeInit pid status (if s.hasChild p=true then 0 else nproc)))
  | .wakeInit pid status k =>
    if k<nproc then
      if s.held k=true then .blocked
      else .next ((s.wakeup k (channelOf 0)).setPc p (.wakeInit pid status (k+1)))
    else
      match s.parents p with
      | none => .fault .noParent
      | some parent => .next (s.setPc p (.wakeParent pid status parent 0))
  | .wakeParent pid status parent k =>
    if k<nproc then
      if s.held k=true then .blocked
      else .next ((s.wakeup k (channelOf parent)).setPc p (.wakeParent pid status parent (k+1)))
    else if s.held p=true then .blocked
    else .next ((s.die p pid status).setPc p .exitUnlock)
  | .exitUnlock => .next (s.unlockParents.setPc p .exited)
  | .exited => .blocked
  | .waitLock =>
    if s.parentsLock≠none then .blocked else .next ((s.lockParents p).setPc p (.scan 0 false))
  | .waitAgain =>
    if s.parentsLock≠none then .blocked else .next ((s.lockParents p).setPc p (.scan 0 false))
  | .scan k haveChild =>
    if k<nproc then
      if s.parents k≠some p then .next (s.setPc p (.scan (k+1) haveChild))
      else if s.held k=true then .blocked
      else if s.state k≠.zombie then .next (s.setPc p (.scan (k+1) true))
      else if copied=false then .next (s.unlockParents.setPc p .user)
      else .next ((s.reap p k).unlockParents.setPc p .user)
    else if haveChild=false ∨ killed=true then .next (s.unlockParents.setPc p .user)
    else if s.held p=true then .blocked
    else .next ((s.sleep p (channelOf p)).unlockParents.setPc p .waitAgain)

/-- One step. -/
def step (s : System) : Label → Outcome Panic System
  | .fork p j pid =>
    if s.state p=.running ∧ s.pc p=.user ∧ j<nproc ∧ s.state j=.unused ∧ s.held j=false then
      .next ((s.alloc p j pid).setPc p (.forkCopy j))
    else .blocked
  | .exit p status =>
    if s.state p=.running ∧ s.pc p=.user then
      if p=0 then .fault .initExiting
      else .next (s.setPc p (.exitLock (s.table p).pid status))
    else .blocked
  | .wait p =>
    if s.state p=.running ∧ s.pc p=.user then .next (s.setPc p .waitLock) else .blocked
  | .go p copied killed =>
    if s.state p=.running ∨ s.pc p=.exitUnlock then go s p copied killed else .blocked
  | .sleepOn p channel =>
    if s.state p=.running ∧ s.pc p=.user ∧ nproc < channel then .next (s.sleep p channel)
    else .blocked
  | .wakeOn p channel =>
    if nproc < channel ∧ s.held p=false then .next (s.wakeup p channel) else .blocked
  | .yielding p =>
    if s.state p=.running ∧ s.parentsLock≠some p then
      .next (s.yielding p)
    else .blocked
  | .switched p =>
    if s.held p=true ∧ s.pc p≠.exitUnlock then
      .next {s with held := Function.update s.held p false}
    else .blocked
  | .dispatch p =>
    if p∈s.queue ∧ s.held p=false then
      .next {s.setEntry p {s.table p with state := .running,channel := 0} with
        queue := s.queue.erase p}
    else .blocked

/-- The processes after `user_init`: init is in the ready queue. -/
def start (pid : ℕ) : System :=
  ⟨fun i => if i=0 then ⟨.runnable,0,0,pid⟩ else .clean,fun _ => false,fun _ => none,none,[0],
    fun _ => .user,0,fun _ => 0,fun _ => 0,fun _ => false,fun _ => [],fun _ => []⟩

end Xv6Rust.ExitWait
