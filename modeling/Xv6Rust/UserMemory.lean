import Xv6Rust.Runs
import Xv6Rust.Paging

/-!
# Processes and the memory they use

The pages of all processes: `alloc_proc`, `fork`, `exec`, `sbrk`, the page fault
branch of `user_trap`, `exiting` and `waiting`, over one kernel heap. An operation
takes all the pages it needs before it gives any back, and between its first page
and its last the rest of the kernel may take and give any others; so a run of whole
operations, between which the kernel takes, gives and reorders free pages, shows
every interleaving. Kernel stacks are pages of the kernel.
-/

namespace Xv6Rust.UserMemory

open Runs Paging PageTable

/-- `NPROC`. -/
def nproc : ℕ := 512

/-- `MAX_TASKS_PER_PROC`. -/
def maxTasksPerProc : ℕ := 64

/-- `USER_STACK_SIZE`. -/
def userStackSize : ℕ := pageSize*4

/-- `trapframe_from_tid`. -/
def trapframeFromTid (tid : ℕ) : ℕ :=
  trapframe-((nproc+1)*(pageSize+pageSize)+tid*(pageSize+pageSize))

/-- The subtraction of `trapframe_from_tid` does not underflow. -/
def TidFits (tid : ℕ) : Prop := (nproc+1)*(pageSize+pageSize)+tid*(pageSize+pageSize)≤trapframe

instance (tid : ℕ) : Decidable (TidFits tid) :=
  inferInstanceAs (Decidable ((nproc+1)*(pageSize+pageSize)+tid*(pageSize+pageSize)≤trapframe))

/-- `Task`: what a process keeps of it. -/
structure Task where
  /-- Task number. -/
  tid : ℕ
  /-- Page of its trap frame. -/
  page : ℕ
  deriving DecidableEq

/-- `Process` in use. -/
structure Proc where
  /-- Page table. -/
  pgt : PageTable
  /-- Size in bytes. -/
  size : ℕ
  /-- Process number. -/
  pid : ℕ
  /-- Page of the trap frame. -/
  trapframe : ℕ
  /-- Page behind `USYSCALL`. -/
  up : ℕ
  /-- Page of the alarm frame. -/
  alarm : ℕ
  /-- The first task; `user_init` makes none. -/
  task : Option Task
  /-- Killed. -/
  killed : Bool
  /-- `ZOMBIE`. -/
  zombie : Bool

/-- A page of a block of four. -/
def InBlock (base ppn : ℕ) : Prop := base ≤ ppn ∧ ppn < base+4

instance (base ppn : ℕ) : Decidable (InBlock base ppn) := inferInstanceAs (Decidable (_ ∧ _))

/-- The four pages are free. -/
def FreeBlock (m : Mem) (base : ℕ) : Prop :=
  base∈m.heap ∧ base+1∈m.heap ∧ base+2∈m.heap ∧ base+3∈m.heap

instance (m : Mem) (base : ℕ) : Decidable (FreeBlock m base) := inferInstanceAs (Decidable (_ ∧ _))

/-- `RawQuadPage::new_zeroed`, where it gets this block. -/
def takeBlock (m : Mem) (base : ℕ) : Mem :=
  ⟨m.heap.filter fun ppn => ¬InBlock base ppn,
    fun ppn => if InBlock base ppn then fun _ => 0 else m.data ppn⟩

/-- `Task::new` and `Task::from` behind `kstack_alloc`: a page for the trap frame, mapped into the
page table. -/
def newTask (pgt : PageTable) (m : Mem) (tid : ℕ) : Except Panic (PageTable×Mem×Task) :=
  match m.heap with
  | [] => .error .outOfMemory
  | ppn::heap =>
    if ¬TidFits tid then .error .overflow
    else do
      let r ← pgt.mapPages (m.zeroed heap ppn) (trapframeFromTid tid) pageSize ppn (flagR|||flagW)
      match r with
      | (pgt,m,.ok ()) => .ok (pgt,m,⟨tid,ppn⟩)
      | (_,_,.error _) => .error .mapFailed

/-- `Drop for Task`: the trap frame is unmapped. -/
def dropTask (pgt : PageTable) (m : Mem) : Option Task → Except Panic (PageTable×Mem)
  | none => .ok (pgt,m)
  | some task => pgt.uvmUnmap m (trapframeFromTid task.tid) 1 false

/-- `alloc_proc`. Pages that are taken before a later one is missing are lost; when the page
table cannot be made the trap frame goes back and the other two pages are lost. -/
def allocProc (m : Mem) (trampolinePage pid : ℕ) : Except Panic (Mem×Option Proc) :=
  match m.heap with
  | tf::up::alarm::heap => do
    let r ← allocProcPagetable (((m.zeroed heap tf).zeroed heap up).zeroed heap alarm)
      trampolinePage tf up pid
    match r with
    | (m,none) => .ok (m.free tf,none)
    | (m,some pgt) => .ok (m,some ⟨pgt,0,pid,tf,up,alarm,none,false,false⟩)
  | _ => .ok ({m with heap := []},none)

/-- `dealloc_proc_pagetable` of a page table that is then dropped. -/
def discard (pgt : PageTable) (m : Mem) (size pid : ℕ) : Except Panic Mem := do
  let r ← pgt.deallocProcPagetable m size pid
  .ok (r.1.drop r.2)

/-- `ProcData::cleanup`. -/
def cleanup (p : Proc) (m : Mem) : Except Panic Mem :=
  discard p.pgt ((m.free p.trapframe).free p.up) p.size p.pid

/-- `user_init` after `alloc_proc`, with `uvm_init`. -/
def userInit (p : Proc) (m : Mem) : Except Panic (Mem×Proc) :=
  match m.heap with
  | [] => .error .outOfMemory
  | ppn::heap => do
    let r ← p.pgt.mapPages (m.zeroed heap ppn) 0 pageSize ppn (flagR|||flagW|||flagX|||flagU)
    match r with
    | (pgt,m,.ok ()) => .ok (m,{p with pgt := pgt,size := pageSize})
    | (_,_,.error _) => .error .mapFailed

/-- `fork`: the memory left and the child, if there is one. -/
def fork (m : Mem) (trampolinePage : ℕ) (parent : Proc) (pid tid : ℕ) :
    Except Panic (Mem×Option Proc) := do
  let r ← allocProc m trampolinePage pid
  match r with
  | (m,none) => .ok (m,none)
  | (m,some child) => do
    let r ← uvmCopy parent.pgt child.pgt m parent.size
    match r with
    | (pgt,m,false) => do
      let m ← cleanup {child with pgt := pgt} m
      .ok (m.free child.alarm,none)
    | (pgt,m,true) => do
      let r ← newTask pgt m tid
      .ok (r.2.1,some {child with pgt := r.1,size := parent.size,task := some r.2.2})

/-- What `load` reads of a program. -/
structure Image where
  /-- Address and size in memory of each segment that is loaded, as far as the headers are
  read. -/
  segments : List (ℕ×ℕ)
  /-- All headers and segments are read and pass their checks. -/
  complete : Bool
  /-- The arguments fit on the stack. -/
  argsFit : Bool

/-- The loop of `load` over the segments: the size reached, and whether all are allocated. -/
def loadSegments (pgt : PageTable) (m : Mem) (size : ℕ) :
    List (ℕ×ℕ) → Except Panic (PageTable×Mem×ℕ×Bool)
  | [] => .ok (pgt,m,size,true)
  | (vaddr,memsz)::rest =>
    if vaddr+memsz≥2^64 then .error .overflow
    else if vaddr%pageSize≠0 then .ok (pgt,m,size,false)
    else do
      let r ← pgt.uvmAlloc m size (vaddr+memsz)
      match r with
      | (pgt,m,some size) => loadSegments pgt m size rest
      | (pgt,m,none) => .ok (pgt,m,size,false)

/-- `uvm_clear` of the first guard pages below the size. -/
def clearGuards (pgt : PageTable) (size : ℕ) : ℕ → Except Panic PageTable
  | 0 => .ok pgt
  | i+1 => do
    let pgt ← clearGuards pgt size i
    pgt.uvmClear (size-(i+1)*(userStackSize+pageSize))

/-- `load` after its page table is made: the new page table and its size. The page table is
gone when there is an error. -/
def loadImage (pgt : PageTable) (m : Mem) (img : Image) (pid : ℕ) :
    Except Panic (Mem×Option (PageTable×ℕ)) := do
  let r ← loadSegments pgt m 0 img.segments
  if (r.2.2.2 && img.complete)=false then do
    let m ← discard r.1 r.2.1 r.2.2.1 pid
    .ok (m,none)
  else do
    let base := pgRoundUp r.2.2.1
    let r ← r.1.uvmAlloc r.2.1 base (base+maxTasksPerProc*(userStackSize+pageSize))
    match r with
    | (pgt,m,none) => do
      let m ← discard pgt m base pid
      .ok (m,none)
    | (pgt,m,some size) => do
      let pgt ← clearGuards pgt size maxTasksPerProc
      if img.argsFit=false then do
        let m ← discard pgt m size pid
        .ok (m,none)
      else .ok (m,some (pgt,size))

/-- `exec`. On an error the process keeps its memory. -/
def exec (p : Proc) (m : Mem) (trampolinePage : ℕ) (img : Image) (tid : ℕ) :
    Except Panic (Mem×Proc) := do
  let r ← allocProcPagetable m trampolinePage p.trapframe p.up p.pid
  match r with
  | (m,none) => .ok (m,p)
  | (m,some pgt) => do
    let r ← loadImage pgt m img p.pid
    match r with
    | (m,none) => .ok (m,p)
    | (m,some (pgt,size)) => do
      let old ← dropTask p.pgt m p.task
      let r ← newTask pgt old.2 tid
      let m ← discard old.1 r.2.1 p.size p.pid
      .ok (m,{p with pgt := r.1,size := size,task := some r.2.2})

/-- `sbrk`. Growing changes the size only. -/
def sbrk (p : Proc) (m : Mem) (increment : ℤ) : Except Panic (Mem×Proc) :=
  if increment>0 then
    if p.size+increment.toNat≥2^64 then .error .overflow
    else .ok (m,{p with size := p.size+increment.toNat})
  else if increment<0 then
    if -increment≥2^31 ∨ p.size<(-increment).toNat then .error .overflow
    else do
      let r ← p.pgt.uvmDealloc m p.size (p.size-(-increment).toNat)
      .ok (r.2.1,{p with pgt := r.1,size := p.size-(-increment).toNat})
  else .ok (m,p)

/-- The page fault branch of `user_trap`. The address is not compared with the size, a null
pointer is mapped like a page, and the result of `map_pages` is not looked at. -/
def pageFault (p : Proc) (m : Mem) (va : ℕ) : Except Panic (Mem×Proc) :=
  match m.heap with
  | [] => do
    let r ← p.pgt.mapPages m (pgRoundDown va) pageSize 0 (flagR|||flagW|||flagU)
    .ok (r.2.1,{p with pgt := r.1,killed := true})
  | ppn::heap => do
    let r ← p.pgt.mapPages {m with heap := heap} (pgRoundDown va) pageSize ppn
      (flagR|||flagW|||flagU)
    .ok (r.2.1,{p with pgt := r.1})

/-- `exiting`: the tasks are dropped. -/
def exiting (p : Proc) (m : Mem) : Except Panic (Mem×Proc) := do
  let r ← dropTask p.pgt m p.task
  .ok (r.2,{p with pgt := r.1,task := none,zombie := true})

/-- Physical memory, the process table and the pages that the rest of the kernel has taken from
the heap. -/
structure System where
  /-- Physical memory. -/
  mem : Mem
  /-- The process table. -/
  procs : ℕ → Option Proc
  /-- Pages of the rest of the kernel. -/
  kernel : List ℕ
  /-- The page of the trampoline code, which is no page of the heap. -/
  trampolinePage : ℕ

/-- Ways to stop. -/
inductive Stop where
  /-- A panic of the memory functions. -/
  | panic (e : Panic)
  /-- `fork` finds no first task. -/
  | noTask
  /-- `alloc_proc` fails for the first process. -/
  | noProc
  deriving DecidableEq

/-- The operations on processes, each with the slot it is made for. -/
inductive Label where
  /-- `user_init` in a free slot. -/
  | init (i pid : ℕ)
  /-- `fork` into a free slot. -/
  | fork (i j pid tid : ℕ)
  /-- `exec`. -/
  | exec (i : ℕ) (img : Image) (tid : ℕ)
  /-- `sbrk`. -/
  | sbrk (i : ℕ) (increment : ℤ)
  /-- A page fault. -/
  | fault (i va : ℕ)
  /-- `exit`. -/
  | exit (i : ℕ)
  /-- `wait` reaps a zombie; `waiting_pid` does not clean the alarm up. -/
  | wait (i : ℕ) (alarm : Bool)
  /-- The allocator hands its free pages out in another order. -/
  | reorder (heap : List ℕ)
  /-- The rest of the kernel takes a page. -/
  | take
  /-- The rest of the kernel gives a page back. -/
  | give (ppn : ℕ)

namespace System

variable (s : System)

/-- Change a slot and memory. -/
def put (i : ℕ) (m : Mem) (p : Option Proc) : System :=
  {s with mem := m,procs := Function.update s.procs i p}

/-- An operation of a process that is no zombie. -/
def act (i : ℕ) (f : Proc → Mem → Except Panic (Mem×Proc)) : Outcome Stop System :=
  match s.procs i with
  | none => .blocked
  | some p =>
    if p.zombie=true then .blocked
    else
      match f p s.mem with
      | .error e => .fault (.panic e)
      | .ok (m,p) => .next (s.put i m (some p))

/-- A slot that can be allocated. -/
def Vacant (j : ℕ) : Prop := j<nproc ∧ (s.procs j).isNone=true

instance (j : ℕ) : Decidable (s.Vacant j) := inferInstanceAs (Decidable (_ ∧ _))

end System

/-- One operation. -/
def step (s : System) : Label → Outcome Stop System
  | .init i pid =>
    if s.Vacant i then
      match allocProc s.mem s.trampolinePage pid with
      | .error e => .fault (.panic e)
      | .ok (_,none) => .fault .noProc
      | .ok (m,some p) =>
        match userInit p m with
        | .error e => .fault (.panic e)
        | .ok (m,p) => .next (s.put i m (some p))
    else .blocked
  | .fork i j pid tid =>
    match s.procs i with
    | none => .blocked
    | some parent =>
      if parent.zombie=false ∧ s.Vacant j then
        match fork s.mem s.trampolinePage parent pid tid with
        | .error e => .fault (.panic e)
        | .ok (m,none) => .next {s with mem := m}
        | .ok (m,some child) =>
          if parent.task=none then .fault .noTask else .next (s.put j m (some child))
      else .blocked
  | .exec i img tid => s.act i fun p m => exec p m s.trampolinePage img tid
  | .sbrk i increment => s.act i fun p m => sbrk p m increment
  | .fault i va => s.act i fun p m => pageFault p m va
  | .exit i => s.act i exiting
  | .wait i alarm =>
    match s.procs i with
    | none => .blocked
    | some p =>
      if p.zombie=true then
        match cleanup p s.mem with
        | .error e => .fault (.panic e)
        | .ok m => .next (s.put i (if alarm=true then m.free p.alarm else m) none)
      else .blocked
  | .reorder heap =>
    if heap.Perm s.mem.heap then .next {s with mem := {s.mem with heap := heap}} else .blocked
  | .take =>
    match s.mem.heap with
    | [] => .blocked
    | ppn::heap => .next {s with mem := {s.mem with heap := heap},kernel := ppn::s.kernel}
  | .give ppn =>
    if ppn∈s.kernel then .next {s with mem := s.mem.free ppn,kernel := s.kernel.erase ppn}
    else .blocked

/-- What each operation does when it is taken. -/
inductive Change (s : System) : Label → System → Prop
  /-- `user_init`. -/
  | init {i pid : ℕ} {m m' : Mem} {p p' : Proc} (vacant : s.Vacant i)
      (alloc : allocProc s.mem s.trampolinePage pid=.ok (m,some p))
      (filled : userInit p m=.ok (m',p')) : Change s (.init i pid) (s.put i m' (some p'))
  /-- `fork` fails. -/
  | forkFailed {i j pid tid : ℕ} {m : Mem} {parent : Proc} (place : s.procs i=some parent)
      (alive : parent.zombie=false) (vacant : s.Vacant j)
      (done : fork s.mem s.trampolinePage parent pid tid=.ok (m,none)) :
      Change s (.fork i j pid tid) {s with mem := m}
  /-- `fork`. -/
  | fork {i j pid tid : ℕ} {m : Mem} {parent child : Proc} (place : s.procs i=some parent)
      (alive : parent.zombie=false) (vacant : s.Vacant j)
      (done : UserMemory.fork s.mem s.trampolinePage parent pid tid=.ok (m,some child)) :
      Change s (.fork i j pid tid) (s.put j m (some child))
  /-- `exec`. -/
  | exec {i tid : ℕ} {img : Image} {m : Mem} {p p' : Proc} (place : s.procs i=some p)
      (alive : p.zombie=false) (done : exec p s.mem s.trampolinePage img tid=.ok (m,p')) :
      Change s (.exec i img tid) (s.put i m (some p'))
  /-- `sbrk`. -/
  | sbrk {i : ℕ} {increment : ℤ} {m : Mem} {p p' : Proc} (place : s.procs i=some p)
      (alive : p.zombie=false) (done : sbrk p s.mem increment=.ok (m,p')) :
      Change s (.sbrk i increment) (s.put i m (some p'))
  /-- A page fault. -/
  | fault {i va : ℕ} {m : Mem} {p p' : Proc} (place : s.procs i=some p)
      (alive : p.zombie=false) (done : pageFault p s.mem va=.ok (m,p')) :
      Change s (.fault i va) (s.put i m (some p'))
  /-- `exit`. -/
  | exit {i : ℕ} {m : Mem} {p p' : Proc} (place : s.procs i=some p)
      (alive : p.zombie=false) (done : exiting p s.mem=.ok (m,p')) : Change s (.exit i) (s.put i m (some p'))
  /-- `wait`. -/
  | wait {i : ℕ} {alarm : Bool} {m : Mem} {p : Proc} (place : s.procs i=some p)
      (zombie : p.zombie=true) (clean : cleanup p s.mem=.ok m) :
      Change s (.wait i alarm) (s.put i (if alarm=true then m.free p.alarm else m) none)
  /-- The allocator changes its order. -/
  | reorder {heap : List ℕ} (perm : heap.Perm s.mem.heap) :
      Change s (.reorder heap) {s with mem := {s.mem with heap := heap}}
  /-- The rest of the kernel takes a page. -/
  | take {ppn : ℕ} {heap : List ℕ} (free : s.mem.heap=ppn::heap) :
      Change s .take {s with mem := {s.mem with heap := heap},kernel := ppn::s.kernel}
  /-- The rest of the kernel gives a page back. -/
  | give {ppn : ℕ} (taken : ppn∈s.kernel) :
      Change s (.give ppn) {s with mem := s.mem.free ppn,kernel := s.kernel.erase ppn}

/-- An operation of a process that is taken. -/
theorem act_eq_next {s t : System} {i : ℕ} {f : Proc → Mem → Except Panic (Mem×Proc)}
    (h : s.act i f=.next t) :
    ∃ p m p',s.procs i=some p ∧ p.zombie=false ∧ f p s.mem=.ok (m,p') ∧ t=s.put i m (some p') := by
  rw [System.act] at h
  split at h
  · cases h
  · rename_i p hp
    split at h
    · cases h
    · rename_i hz
      split at h
      · cases h
      · rename_i m p' hf
        cases h
        exact ⟨p,m,p',hp,Bool.eq_false_iff.mpr hz,hf,rfl⟩

/-- Every operation that is taken is one of these. -/
theorem step_change {s t : System} {a : Label} (h : step s a=.next t) : Change s a t := by
  cases a with
  | init i pid =>
    rw [step] at h
    split at h
    · rename_i hv
      split at h
      · cases h
      · cases h
      · rename_i m p hp
        split at h
        · cases h
        · rename_i m' p' hu
          cases h
          exact .init hv hp hu
    · cases h
  | fork i j pid tid =>
    rw [step] at h
    split at h
    · cases h
    · rename_i parent hp
      split at h
      · rename_i hv
        split at h
        · cases h
        · rename_i m hf
          cases h
          exact .forkFailed hp hv.1 hv.2 hf
        · rename_i m child hf
          split at h
          · cases h
          · cases h
            exact .fork hp hv.1 hv.2 hf
      · cases h
  | exec i img tid =>
    rw [step] at h
    obtain ⟨p,m,p',hp,hz,hf,rfl⟩ := act_eq_next h
    exact .exec hp hz hf
  | sbrk i increment =>
    rw [step] at h
    obtain ⟨p,m,p',hp,hz,hf,rfl⟩ := act_eq_next h
    exact .sbrk hp hz hf
  | fault i va =>
    rw [step] at h
    obtain ⟨p,m,p',hp,hz,hf,rfl⟩ := act_eq_next h
    exact .fault hp hz hf
  | exit i =>
    rw [step] at h
    obtain ⟨p,m,p',hp,hz,hf,rfl⟩ := act_eq_next h
    exact .exit hp hz hf
  | wait i alarm =>
    rw [step] at h
    split at h
    · cases h
    · rename_i p hp
      split at h
      · rename_i hz
        split at h
        · cases h
        · rename_i m hc
          cases h
          exact .wait hp hz hc
      · cases h
  | reorder heap =>
    rw [step] at h
    split at h
    · rename_i hperm
      cases h
      exact .reorder hperm
    · cases h
  | take =>
    rw [step] at h
    split at h
    · cases h
    · rename_i ppn heap hm
      cases h
      exact .take hm
  | give ppn =>
    rw [step] at h
    split at h
    · rename_i hin
      cases h
      exact .give hin
    · cases h

/-- A page with a valid entry. -/
def ValidAt (pgt : PageTable) (page : ℕ) : Prop := (pgt.entryAt page).isValid=true

instance (pgt : PageTable) (page : ℕ) : Decidable (ValidAt pgt page) :=
  inferInstanceAs (Decidable (_=true))

/-- A valid leaf that is accessible to the user. -/
def UserLeaf (pgt : PageTable) (page : ℕ) : Prop :=
  pgt.Mapped page ∧ (pgt.entryAt page).isUser=true

instance (pgt : PageTable) (page : ℕ) : Decidable (UserLeaf pgt page) :=
  inferInstanceAs (Decidable (_ ∧ _))

/-- The page number of `USYSCALL`. -/
def usyscallPage : ℕ := usyscall/pageSize

end Xv6Rust.UserMemory
