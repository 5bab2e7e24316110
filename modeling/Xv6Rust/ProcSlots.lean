import Xv6Rust.CopyUser
import Xv6Rust.KernelStacks
import Xv6Rust.ProcTable
import Xv6Rust.ProcessTasks

/-!
# Slots of the process table

A `Process` of the table with the part under its lock, its private data and its alarm, as
`process/mod.rs` and `process/proc/mod.rs` keep them. A null pointer is `none`. The pages of a slot
come from the kernel heap.
-/

namespace Xv6Rust.ProcSlots

open Paging UserMemory

/-- `NFILE`. -/
def nfile : ℕ := 16

/-- `ProcExcl` with its priority. -/
structure Excl extends ProcTable.ProcExcl where
  /-- Priority. -/
  priority : ℕ

/-- `ProcExcl::cleanup`. -/
def Excl.clean : Excl := ⟨ProcTable.ProcExcl.clean,0⟩

/-- `ProcData`. -/
structure ProcData where
  /-- Where the stacks of the tasks begin. -/
  ustackBase : ℕ
  /-- Size in bytes. -/
  size : ℕ
  /-- Name. -/
  name : Fin 16 → UInt8
  /-- Open files, by the names of their `Arc`. -/
  openFiles : Fin nfile → Option ℕ
  /-- Page of the trap frame. -/
  trapframe : Option ℕ
  /-- Page behind `USYSCALL`. -/
  up : Option ℕ
  /-- Page table. -/
  pagetable : Option PageTable
  /-- Inode of the current directory. -/
  cwd : Option ℕ
  /-- System calls that are traced. -/
  tracemask : ℕ
  /-- Tasks. -/
  tasks : List Task

/-- `ProcData::new`. -/
def ProcData.new : ProcData := ⟨0,0,fun _ => 0,fun _ => none,none,none,none,none,0,[]⟩

/-- `ProcAlarm`. -/
structure ProcAlarm where
  /-- Ticks between two calls of the handler. -/
  interval : ℕ
  /-- Ticks since the last call. -/
  pastTick : ℕ
  /-- Address of the handler, or -1. -/
  handlerAddr : ℤ
  /-- Page of the frame that is saved for the handler. -/
  alarmFrame : Option ℕ
  /-- The handler runs. -/
  handlerCalled : Bool
  deriving DecidableEq

/-- `ProcAlarm::new`. -/
def ProcAlarm.new : ProcAlarm := ⟨0,0,-1,none,false⟩

/-- `Process`. -/
structure Process where
  /-- Under the lock. -/
  excl : Excl
  /-- Killed. -/
  killed : Bool
  /-- Private data. -/
  data : ProcData
  /-- Alarm. -/
  alarm : ProcAlarm

/-- `Process::new`. -/
def Process.new : Process := ⟨.clean,false,.new,.new⟩

/-- `PID_ALLOCATOR`, whose vector keeps what the assertions of `pid_dealloc` check. -/
structure PidPool extends ProcTable.RecycleAllocator where
  /-- No pid is given back twice. -/
  nodup : recycled.Nodup
  /-- Only pids that were handed out are given back. -/
  below : ∀ pid∈recycled,pid < current

namespace PidPool

/-- The allocator may hand the pid out. -/
def Available (pids : PidPool) (pid : ℕ) : Prop := pid∈pids.recycled ∨ pids.current≤pid

theorem pidAlloc_nodup (pids : PidPool) : pids.pidAlloc.2.recycled.Nodup := by
  have h := pids.nodup
  unfold ProcTable.RecycleAllocator.pidAlloc
  split
  · rename_i pid rest he
    rw [he] at h
    exact (List.nodup_cons.mp h).2
  · exact h

theorem pidAlloc_below (pids : PidPool) :
    ∀ pid∈pids.pidAlloc.2.recycled,pid<pids.pidAlloc.2.current := by
  have h := pids.below
  unfold ProcTable.RecycleAllocator.pidAlloc
  split
  · rename_i pid rest he
    intro p hp
    exact h p (he ▸ List.mem_cons_of_mem _ hp)
  · intro p hp
    exact (h p hp).trans (Nat.lt_succ_self _)

/-- `pid_alloc`. -/
def alloc (pids : PidPool) : ℕ×PidPool :=
  (pids.pidAlloc.1,⟨pids.pidAlloc.2,pids.pidAlloc_nodup,pids.pidAlloc_below⟩)

/-- A pid that is handed out was available, and no longer is. -/
theorem alloc_taken (pids : PidPool) :
    pids.Available pids.alloc.1 ∧ ¬pids.alloc.2.Available pids.alloc.1 := by
  obtain ⟨⟨current,recycled⟩,hn,hb⟩ := pids
  cases recycled with
  | nil =>
    refine ⟨.inr (le_refl _),fun h => ?_⟩
    obtain h | h := h
    · cases h
    · exact absurd h (Nat.not_succ_le_self _)
  | cons pid rest =>
    refine ⟨.inl List.mem_cons_self,fun h => ?_⟩
    obtain h | h := h
    · exact (List.nodup_cons.mp hn).1 h
    · exact absurd (hb pid List.mem_cons_self) (not_lt.mpr h)

end PidPool

/-- Processes and what they share. -/
structure System where
  /-- Physical memory. -/
  mem : Mem
  /-- The block that the heap gives for a kernel stack, if it is free then. -/
  block : ℕ
  /-- `KERNEL_PAGE_TABLE`. -/
  kernel : TaskStacks.KernelTable
  /-- The process table. -/
  table : ℕ → Process
  /-- The parents map. -/
  parents : ℕ → Option ℕ
  /-- `PID_ALLOCATOR`. -/
  pids : PidPool
  /-- `TID_ALLOCATOR`. -/
  tids : KernelStacks.RecycleAllocator
  /-- `PROCFIFO.ready_queue`. -/
  queue : List ℕ
  /-- Page of the trampoline code. -/
  trampolinePage : ℕ

/-- Ways to stop the kernel. -/
inductive Stop where
  /-- A panic of the memory functions. -/
  | panic (e : Panic)
  /-- A panic of `copy_out`. -/
  | copy (why : CopyUser.CopyPanic)
  /-- A panic with the tasks. -/
  | task (e : ProcessTasks.Stop)
  /-- An `unwrap`, or an index out of bounds. -/
  | unwrap
  /-- An assertion. -/
  | assertion
  deriving DecidableEq

/-- Change a slot. -/
def System.setSlot (s : System) (j : ℕ) (p : Process) : System :=
  {s with table := Function.update s.table j p}

/-- Change the memory. -/
def System.setMem (s : System) (m : Mem) : System := {s with mem := m}

@[simp] theorem System.setSlot_mem (s : System) (j : ℕ) (p : Process) : (s.setSlot j p).mem=s.mem := rfl

@[simp] theorem System.setSlot_pids (s : System) (j : ℕ) (p : Process) :
    (s.setSlot j p).pids=s.pids := rfl

@[simp] theorem System.setSlot_parents (s : System) (j : ℕ) (p : Process) :
    (s.setSlot j p).parents=s.parents := rfl

/-- `RawSinglePage::from_raw_and_drop` of a pointer that may be null. -/
def freeFrame (m : Mem) : Option ℕ → Mem
  | none => m
  | some ppn => m.free ppn

/-- `ProcData::cleanup`. -/
def ProcData.cleanup (d : ProcData) (m : Mem) (pid : ℕ) : Except Panic (ProcData×Mem) :=
  let cleaned : ProcData :=
    {d with
      name := Function.update d.name 0 0
      trapframe := none
      up := none
      pagetable := none
      size := 0}
  match d.pagetable with
  | none => .ok (cleaned,freeFrame (freeFrame m d.trapframe) d.up)
  | some pgt =>
    match discard pgt (freeFrame (freeFrame m d.trapframe) d.up) d.size pid with
    | .error e => .error e
    | .ok m => .ok (cleaned,m)

/-- `ProcAlarm::cleanup`. -/
def ProcAlarm.cleanup (a : ProcAlarm) (m : Mem) : ProcAlarm×Mem :=
  (.new,freeFrame m a.alarmFrame)

end Xv6Rust.ProcSlots
