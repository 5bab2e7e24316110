import Xv6Rust.UserIsolation
import Xv6Rust.TaskStacks
import Xv6Rust.FirstTable

/-!
# Tasks of processes

`ProcData.tasks` in `user_init`, `fork`, `load`, `exiting` and `waiting`. A process that was forked
or has executed a program has one task, whose trap frame is mapped in its page table.
`user_ret_prepare_task` asserts this and `syscall` relies on it. The process that `user_init` makes
has no task before it executes a program.
-/

namespace Xv6Rust.ProcessTasks

open Runs Results Paging PageTable UserMemory PageEffects UserIsolation
open KernelStacks (RecycleAllocator)
open TaskStacks (KernelTable StackPanic kstackAlloc noStacks)
open FirstTable (uvmAlloc_eq_first)

/-- Ways to stop. -/
inductive Stop where
  /-- A panic of the memory functions. -/
  | panic (e : Panic)
  /-- `alloc_proc` fails for the first process. -/
  | noProc
  /-- `tasks[0]` of the parent in `fork`. -/
  | noTask
  /-- A panic of `kstack_alloc`. -/
  | stack (e : StackPanic)
  /-- An assertion of `tid_dealloc`. -/
  | tidDealloc
  /-- `user_ret_prepare_task`, or `tasks[0]` where a system call reads its arguments. -/
  | visit
  deriving DecidableEq

/-- What the processes share: memory, the kernel page table and the `tid`. -/
structure Shared where
  /-- Physical memory. -/
  mem : Mem
  /-- `KERNEL_PAGE_TABLE`. -/
  kernel : KernelTable
  /-- `TID_ALLOCATOR`. -/
  tids : RecycleAllocator

/-- Processes, and the vector of tasks of each slot. -/
structure System extends Shared where
  /-- The process table. -/
  procs : ℕ → Option Proc
  /-- `ProcData.tasks`. -/
  tasks : ℕ → List Task
  /-- The process was forked, or has executed a program. -/
  ran : ℕ → Bool
  /-- The page of the trampoline code. -/
  trampolinePage : ℕ

/-- Tasks are dropped, the first of the list first. -/
def dropTasks (pgt : PageTable) (m : Mem) (tids : RecycleAllocator) :
    List Task → Except Stop (PageTable×Mem×RecycleAllocator)
  | [] => .ok (pgt,m,tids)
  | task::tasks => do
    let r ← (pgt.uvmUnmap m (trapframeFromTid task.tid) 1 false).mapError .panic
    match tids.tidDealloc task.tid with
    | none => .error .tidDealloc
    | some tids => dropTasks r.1 r.2 tids tasks

/-- What `Task::new` and `Task::from` leave. -/
structure Created where
  /-- The page table of the process. -/
  pgt : PageTable
  /-- Memory. -/
  mem : Mem
  /-- `TID_ALLOCATOR`. -/
  tids : RecycleAllocator
  /-- `KERNEL_PAGE_TABLE`. -/
  kernel : KernelTable
  /-- The task. -/
  task : Task

/-- `Task::new` and `Task::from`, with the block that the heap gives for the kernel stack. -/
def createTask (pgt : PageTable) (m : Mem) (tids : RecycleAllocator) (kernel : KernelTable)
    (base : ℕ) : Except Stop Created := do
  let stack ← (kstackAlloc kernel m tids.tidAlloc.1 base).mapError .stack
  let r ← (newTask pgt stack.2 tids.tidAlloc.1).mapError .panic
  .ok ⟨r.1,r.2.1,tids.tidAlloc.2,stack.1,r.2.2⟩

/-- `fork`: the child and its task, if there is one; the vector of its slot may hold others. -/
def fork (s : System) (parent : Proc) (tasks slot : List Task) (pid base : ℕ) :
    Except Stop (Shared×Option (Proc×List Task)) := do
  let r ← (allocProc s.mem s.trampolinePage pid).mapError .panic
  match r with
  | (m,none) => .ok (⟨m,s.kernel,s.tids⟩,none)
  | (m,some child) => do
    let r ← (uvmCopy parent.pgt child.pgt m parent.size).mapError .panic
    match r with
    | (pgt,m,false) => do
      let m ← (cleanup {child with pgt := pgt} m).mapError .panic
      .ok (⟨m.free child.alarm,s.kernel,s.tids⟩,none)
    | (pgt,m,true) =>
      if tasks=[] then .error .noTask
      else do
        let r ← createTask pgt m s.tids s.kernel base
        .ok (⟨r.mem,r.kernel,r.tids⟩,
          some ({child with pgt := r.pgt,size := parent.size},slot++[r.task]))

/-- `exec`: the process with its new task, unless there is an error. -/
def exec (s : System) (p : Proc) (tasks : List Task) (img : Image) (base : ℕ) :
    Except Stop (Shared×Option (Proc×List Task)) := do
  let r ← (allocProcPagetable s.mem s.trampolinePage p.trapframe p.up p.pid).mapError .panic
  match r with
  | (m,none) => .ok (⟨m,s.kernel,s.tids⟩,none)
  | (m,some pgt) => do
    let r ← (loadImage pgt m img p.pid).mapError .panic
    match r with
    | (m,none) => .ok (⟨m,s.kernel,s.tids⟩,none)
    | (m,some (pgt,size)) => do
      -- the last task is popped first
      let old ← dropTasks p.pgt m s.tids tasks.reverse
      let r ← createTask pgt old.2.1 old.2.2 s.kernel base
      let m ← (discard old.1 r.mem p.size p.pid).mapError .panic
      .ok (⟨m,r.kernel,r.tids⟩,some ({p with pgt := r.pgt,size := size},[r.task]))

/-- Steps of the processes. `fork` and `exec` name the block that the heap gives for the kernel
stack. -/
inductive Label where
  /-- `user_init` in a free slot. -/
  | init (i pid : ℕ)
  /-- `fork` into a free slot. -/
  | fork (i j pid base : ℕ)
  /-- `exec`. -/
  | exec (i : ℕ) (img : Image) (base : ℕ)
  /-- `exit`. -/
  | exit (i : ℕ)
  /-- `wait` reaps a zombie; `waiting_pid` does not clean the alarm up. -/
  | wait (i : ℕ) (alarm : Bool)
  /-- The process reaches `user_trap_ret`, or reads the arguments of a system call. -/
  | visit (i : ℕ)
  /-- The rest of the kernel changes memory that is not of page tables. -/
  | kernel (m : Mem)

/-- The process has one task, and its trap frame is mapped. -/
def Ready (p : Proc) (tasks : List Task) : Prop :=
  ∃ task,tasks=[task] ∧
    p.pgt.findPte (trapframeFromTid task.tid)=some (Pte.writePerm task.page (flagR|||flagW))

instance (p : Proc) : ∀ tasks,Decidable (Ready p tasks)
  | [] => isFalse (by rintro ⟨task,h,-⟩; cases h)
  | [task] =>
    decidable_of_iff
      (p.pgt.findPte (trapframeFromTid task.tid)=some (Pte.writePerm task.page (flagR|||flagW)))
      ⟨fun h => ⟨task,rfl,h⟩,by rintro ⟨_,e,h⟩; rwa [(List.cons.inj e).1]⟩
  | _::_::_ => isFalse (by rintro ⟨task,h,-⟩; cases h)

/-- Change a slot. -/
def System.put (s : System) (i : ℕ) (common : Shared) (p : Option Proc) (tasks : List Task)
    (ran : Bool) : System :=
  {s with
    toShared := common
    procs := Function.update s.procs i p
    tasks := Function.update s.tasks i tasks
    ran := Function.update s.ran i ran}

/-- A step. -/
def step (s : System) : Label → Outcome Stop System
  | .init i pid =>
    if i < nproc ∧ (s.procs i).isNone=true then
      match allocProc s.mem s.trampolinePage pid with
      | .error e => .fault (.panic e)
      | .ok (_,none) => .fault .noProc
      | .ok (m,some p) =>
        match userInit p m with
        | .error e => .fault (.panic e)
        | .ok (m,p) => .next (s.put i ⟨m,s.kernel,s.tids⟩ (some p) (s.tasks i) false)
    else .blocked
  | .fork i j pid base =>
    match s.procs i with
    | none => .blocked
    | some parent =>
      if parent.zombie=false ∧ j < nproc ∧ (s.procs j).isNone=true then
        match fork s parent (s.tasks i) (s.tasks j) pid base with
        | .error e => .fault e
        | .ok (common,none) => .next {s with toShared := common}
        | .ok (common,some (child,tasks)) => .next (s.put j common (some child) tasks true)
      else .blocked
  | .exec i img base =>
    match s.procs i with
    | none => .blocked
    | some p =>
      if p.zombie=true then .blocked
      else
        match exec s p (s.tasks i) img base with
        | .error e => .fault e
        | .ok (common,none) => .next {s with toShared := common}
        | .ok (common,some (p,tasks)) => .next (s.put i common (some p) tasks true)
  | .exit i =>
    match s.procs i with
    | none => .blocked
    | some p =>
      if p.zombie=true then .blocked
      else
        match dropTasks p.pgt s.mem s.tids (s.tasks i).reverse with
        | .error e => .fault e
        | .ok (pgt,m,tids) =>
          .next (s.put i ⟨m,s.kernel,tids⟩ (some {p with pgt := pgt,zombie := true}) [] (s.ran i))
  | .wait i alarm =>
    match s.procs i with
    | none => .blocked
    | some p =>
      if p.zombie=true then
        match cleanup p s.mem with
        | .error e => .fault (.panic e)
        | .ok m =>
          .next (s.put i ⟨if alarm=true then m.free p.alarm else m,s.kernel,s.tids⟩ none (s.tasks i)
            false)
      else .blocked
  | .visit i =>
    match s.procs i with
    | none => .blocked
    | some p =>
      if p.zombie=true then .blocked
      else if Ready p (s.tasks i) then .next s
      else .fault .visit
  | .kernel m => .next {s with mem := m}

/-- A kernel without processes. -/
def boot (m : Mem) (kernel : PageTable) (trampolinePage : ℕ) : System :=
  ⟨⟨m,⟨kernel,0⟩,⟨0,[]⟩⟩,fun _ => none,fun _ => [],fun _ => false,trampolinePage⟩

/-- Processes reach `user_trap_ret` and read arguments only after they were forked or have executed
a program. -/
def Started (s : System) : Label → Prop
  | .visit i => s.ran i=true
  | _ => True

instance (s : System) : DecidablePred (Started s)
  | .visit i => inferInstanceAs (Decidable (s.ran i=true))
  | .init _ _ => inferInstanceAs (Decidable True)
  | .fork _ _ _ _ => inferInstanceAs (Decidable True)
  | .exec _ _ _ => inferInstanceAs (Decidable True)
  | .exit _ => inferInstanceAs (Decidable True)
  | .wait _ _ => inferInstanceAs (Decidable True)
  | .kernel _ => inferInstanceAs (Decidable True)

/-- No `tid` is in use twice, or free. -/
structure Unique (tasks : ℕ → List Task) (tids : RecycleAllocator) : Prop where
  /-- Every `tid` in use was given out. -/
  used : ∀ i task,task∈tasks i → task.tid < tids.current ∧ task.tid∉tids.recycled
  /-- No `tid` is in use twice. -/
  apart : ∀ i j task task',task∈tasks i → task'∈tasks j → task.tid=task'.tid → i=j
  /-- What was given back is there once. -/
  nodup : tids.recycled.Nodup
  /-- It was given out before. -/
  recycled : ∀ tid∈tids.recycled,tid < tids.current

section Tids

variable {tasks : ℕ → List Task} {tids : RecycleAllocator} {i : ℕ}

/-- A slot gets one task, with a new `tid`. -/
theorem Unique.alloc (h : Unique tasks tids) (i page : ℕ) :
    Unique (Function.update tasks i [⟨tids.tidAlloc.1,page⟩]) tids.tidAlloc.2 := by
  have hnew : tids.tidAlloc.1 < tids.tidAlloc.2.current ∧ tids.tidAlloc.1∉tids.tidAlloc.2.recycled ∧
      tids.current ≤ tids.tidAlloc.2.current ∧ tids.tidAlloc.2.recycled.Sublist tids.recycled ∧
      ∀ j task,task∈tasks j → task.tid≠tids.tidAlloc.1 := by
    rw [RecycleAllocator.tidAlloc]
    split
    · rename_i tid rest hr
      have hnd := h.nodup
      rw [hr] at hnd
      refine ⟨h.recycled tid (hr ▸ List.mem_cons_self ..),(List.nodup_cons.mp hnd).1,Nat.le_refl _,
        hr ▸ List.sublist_cons_self _ _,fun j task hj e => ?_⟩
      refine (h.used j task hj).2 ?_
      rw [e,hr]
      exact List.mem_cons_self ..
    · rename_i hr
      refine ⟨Nat.lt_succ_self _,hr ▸ List.not_mem_nil,Nat.le_succ _,List.Sublist.refl _,
        fun j task hj e => ?_⟩
      have hlt := (h.used j task hj).1
      rw [e] at hlt
      exact Nat.lt_irrefl _ hlt
  obtain ⟨hlt,hnot,hle,hsub,hne⟩ := hnew
  -- a task of the new vectors is the new one, in its slot, or an old one
  have hcases : ∀ j task,task∈Function.update tasks i [⟨tids.tidAlloc.1,page⟩] j →
      (j=i ∧ task.tid=tids.tidAlloc.1) ∨ task∈tasks j := by
    intro j task hj
    by_cases e : j=i
    · rw [e,Function.update_self] at hj
      rw [List.mem_singleton.mp hj]
      exact .inl ⟨e,rfl⟩
    · rw [Function.update_of_ne e] at hj
      exact .inr hj
  refine ⟨fun j task hj => ?_,fun j k task task' hj hk e => ?_,h.nodup.sublist hsub,
    fun tid ht => Nat.lt_of_lt_of_le (h.recycled tid (hsub.subset ht)) hle⟩
  · obtain ⟨-,e⟩ | hold := hcases j task hj
    · rw [e]
      exact ⟨hlt,hnot⟩
    · obtain ⟨h1,h2⟩ := h.used j task hold
      exact ⟨Nat.lt_of_lt_of_le h1 hle,fun hm => h2 (hsub.subset hm)⟩
  · obtain ⟨e1,e2⟩ | hold := hcases j task hj
    · obtain ⟨e3,-⟩ | hold' := hcases k task' hk
      · exact e1.trans e3.symm
      · exact absurd (e.symm.trans e2) (hne k task' hold')
    · obtain ⟨-,e4⟩ | hold' := hcases k task' hk
      · exact absurd (e.trans e4) (hne j task hold)
      · exact h.apart j k task task' hold hold' e

/-- The task of a slot is dropped, if it has one. -/
theorem Unique.drop {pgt pgt' : PageTable} {m m' : Mem} {tids' : RecycleAllocator}
    (h : Unique tasks tids) (hi : tasks i=[] ∨ ∃ task,tasks i=[task])
    (hd : dropTasks pgt m tids (tasks i).reverse=.ok (pgt',m',tids')) :
    Unique (Function.update tasks i []) tids' := by
  have hsub : ∀ j task,task∈Function.update tasks i [] j → task∈tasks j ∧ j≠i := by
    intro j task hj
    by_cases e : j=i
    · rw [e,Function.update_self] at hj
      cases hj
    · rw [Function.update_of_ne e] at hj
      exact ⟨hj,e⟩
  obtain hnone | ⟨task,hone⟩ := hi
  · rw [hnone] at hd
    cases hd
    exact ⟨fun j task hj => h.used j task (hsub j task hj).1,
      fun j k task task' hj hk => h.apart j k task task' (hsub j task hj).1 (hsub k task' hk).1,
      h.nodup,h.recycled⟩
  · have hmem : task∈tasks i := hone ▸ List.mem_singleton_self task
    obtain ⟨hlt,hnot⟩ := h.used i task hmem
    rw [hone,List.reverse_singleton,dropTasks] at hd
    obtain ⟨r,-,hd⟩ := bind_eq_ok hd
    rw [RecycleAllocator.tidDealloc,if_pos ⟨hlt,hnot⟩] at hd
    cases hd
    refine ⟨fun j task' hj => ?_,
      fun j k task task' hj hk => h.apart j k task task' (hsub j task hj).1 (hsub k task' hk).1,
      List.nodup_cons.mpr ⟨hnot,h.nodup⟩,fun tid ht => ?_⟩
    · obtain ⟨hold,hne⟩ := hsub j task' hj
      obtain ⟨h1,h2⟩ := h.used j task' hold
      refine ⟨h1,fun hm => ?_⟩
      obtain e | hm := List.mem_cons.mp hm
      · exact hne (h.apart j i task' task hold hmem e)
      · exact h2 hm
    · obtain rfl | ht := List.mem_cons.mp ht
      · exact hlt
      · exact h.recycled tid ht

end Tids

/-- An entry that is written is found. -/
theorem findPte_of_entryAt {pgt : PageTable} {page ppn : ℕ} {perm : PteFlag}
    (h : pgt.entryAt page=Pte.writePerm ppn perm) :
    pgt.findPte (page*pageSize)=some (Pte.writePerm ppn perm) := by
  have hvalid : (pgt.entryAt page).isValid=true := by
    rw [h]
    exact Pte.writePerm_valid _ _
  rw [findPte_eq,find_of_valid hvalid,h]

/-- The only way for a visit to stop is its own. -/
def Quiet (e : Stop) : Prop := e≠.visit

theorem quiet_panic {α : Type} (r : Except Panic α) :
    Ensures Quiet (r.mapError .panic) fun a => r=.ok a :=
  ensures_mapError (fun _ => Stop.noConfusion) r

theorem dropTasks_quiet (tasks : List Task) (pgt : PageTable) (m : Mem)
    (tids : RecycleAllocator) : Ensures Quiet (dropTasks pgt m tids tasks) fun _ => True := by
  induction tasks generalizing pgt m tids with
  | nil => trivial
  | cons task tasks ih =>
    refine (quiet_panic _).bind fun r _ => ?_
    split
    · exact Stop.noConfusion
    · exact ih _ _ _

/-- A new task has a new `tid`, and its trap frame is mapped. -/
theorem createTask_spec {pgt : PageTable} {m : Mem} {tids : RecycleAllocator}
    {kernel : KernelTable} {base : ℕ} :
    Ensures Quiet (createTask pgt m tids kernel base) fun r =>
      r.task=⟨tids.tidAlloc.1,r.task.page⟩ ∧ r.tids=tids.tidAlloc.2 ∧
        r.pgt.findPte (trapframeFromTid r.task.tid)=
          some (Pte.writePerm r.task.page (flagR|||flagW)) := by
  refine (ensures_mapError (fun _ => Stop.noConfusion) _).bind fun stack _ => ?_
  refine (quiet_panic _).bind fun r hr => ?_
  obtain ⟨htid,hfits,-,-,-,hentry,-⟩ := newTask_effect (K:=∅) hr
  refine ⟨?_,rfl,?_⟩
  · rw [← htid]
  · rw [htid,← trapframeFromTid_aligned hfits]
    exact findPte_of_entryAt hentry

/-- Live processes have one task each, with its trap frame mapped, once they were forked or have
executed a program; other slots have none; and no `tid` is in use twice. -/
structure Inv (s : System) : Prop where
  /-- Free slots have no tasks. -/
  free : ∀ i,s.procs i=none → s.tasks i=[]
  /-- Zombies have no tasks. -/
  zombie : ∀ i p,s.procs i=some p → p.zombie=true → s.tasks i=[]
  /-- Live processes. -/
  ready : ∀ i p,s.procs i=some p → p.zombie=false →
    Ready p (s.tasks i) ∨ s.tasks i=[] ∧ s.ran i=false
  /-- No `tid` is in use twice. -/
  unique : Unique s.tasks s.tids

section Steps

variable {s t : System} {i : ℕ} {common : Shared} {tids : RecycleAllocator}

/-- Slots have one task at most. -/
theorem Inv.single (h : Inv s) (i : ℕ) : s.tasks i=[] ∨ ∃ task,s.tasks i=[task] := by
  cases hp : s.procs i with
  | none => exact .inl (h.free i hp)
  | some p =>
    cases hz : p.zombie with
    | true => exact .inl (h.zombie i p hp hz)
    | false =>
      obtain ⟨task,ht,-⟩ | ⟨ht,-⟩ := h.ready i p hp hz
      · exact .inr ⟨task,ht⟩
      · exact .inl ht

/-- A slot changes. -/
theorem Inv.put (h : Inv s) {r : Option Proc} {tasks : List Task} {ran : Bool}
    (hu : Unique (Function.update s.tasks i tasks) common.tids) (hfree : r=none → tasks=[])
    (hz : ∀ p,r=some p → p.zombie=true → tasks=[])
    (hr : ∀ p,r=some p → p.zombie=false → Ready p tasks ∨ tasks=[] ∧ ran=false) :
    Inv (s.put i common r tasks ran) := by
  have hself : (s.put i common r tasks ran).procs i=r ∧ (s.put i common r tasks ran).tasks i=tasks ∧
      (s.put i common r tasks ran).ran i=ran :=
    ⟨Function.update_self ..,Function.update_self ..,Function.update_self ..⟩
  have hother : ∀ j,j≠i → (s.put i common r tasks ran).procs j=s.procs j ∧
      (s.put i common r tasks ran).tasks j=s.tasks j ∧
      (s.put i common r tasks ran).ran j=s.ran j :=
    fun j hj => ⟨Function.update_of_ne hj ..,Function.update_of_ne hj ..,Function.update_of_ne hj ..⟩
  obtain ⟨h1,h2,h3⟩ := hself
  refine ⟨fun j hj => ?_,fun j p hj hzj => ?_,fun j p hj hzj => ?_,hu⟩
  · by_cases e : j=i
    · rw [e,h1] at hj
      rw [e,h2]
      exact hfree hj
    · obtain ⟨o1,o2,-⟩ := hother j e
      rw [o1] at hj
      rw [o2]
      exact h.free j hj
  · by_cases e : j=i
    · rw [e,h1] at hj
      rw [e,h2]
      exact hz p hj hzj
    · obtain ⟨o1,o2,-⟩ := hother j e
      rw [o1] at hj
      rw [o2]
      exact h.zombie j p hj hzj
  · by_cases e : j=i
    · rw [e,h1] at hj
      rw [e,h2,h3]
      exact hr p hj hzj
    · obtain ⟨o1,o2,o3⟩ := hother j e
      rw [o1] at hj
      rw [o2,o3]
      exact h.ready j p hj hzj

/-- A child has one task, with its trap frame mapped. -/
theorem fork_spec (s : System) (parent : Proc) (tasks slot : List Task) (pid base : ℕ) :
    Ensures Quiet (fork s parent tasks slot pid base) fun r =>
      (r.2=none → r.1.tids=s.tids) ∧ ∀ child tasks',r.2=some (child,tasks') →
        ∃ page,tasks'=slot++[⟨s.tids.tidAlloc.1,page⟩] ∧ r.1.tids=s.tids.tidAlloc.2 ∧
          child.zombie=false ∧ (slot=[] → Ready child tasks') := by
  refine (quiet_panic _).bind fun r hnew => ?_
  obtain ⟨m₁,new⟩ := r
  cases new with
  | none => exact ⟨fun _ => rfl,fun _ _ e => by cases e⟩
  | some new =>
    have hzombie : new.zombie=false := by
      obtain ⟨hn,-⟩ | ⟨p,hp,-,-,hz,-⟩ := allocProc_holdings hnew
      · cases hn
      · cases hp
        exact hz
    refine (quiet_panic _).bind fun r _ => ?_
    obtain ⟨pgt,m₂,done⟩ := r
    cases done with
    | false =>
      refine (quiet_panic _).bind fun m₃ _ => ?_
      exact ⟨fun _ => rfl,fun _ _ e => by cases e⟩
    | true =>
      refine ensures_ite (fun _ => Stop.noConfusion) fun _ => ?_
      refine createTask_spec.bind fun r hr => ?_
      obtain ⟨htask,htids,hfind⟩ := hr
      refine ⟨(fun e => by cases e),fun child tasks' e => ?_⟩
      cases e
      exact ⟨r.task.page,by rw [← htask],htids,hzombie,fun hs => ⟨r.task,by rw [hs]; rfl,hfind⟩⟩

/-- A process that executes a program has one task, with its trap frame mapped. -/
theorem exec_spec (s : System) (p : Proc) (tasks : List Task) (img : Image) (base : ℕ) :
    Ensures Quiet (exec s p tasks img base) fun r =>
      (r.2=none → r.1.tids=s.tids) ∧ ∀ p' tasks',r.2=some (p',tasks') →
        ∃ m₁ pgt m₂ tids' page,dropTasks p.pgt m₁ s.tids tasks.reverse=.ok (pgt,m₂,tids') ∧
          tasks'=[⟨tids'.tidAlloc.1,page⟩] ∧ r.1.tids=tids'.tidAlloc.2 ∧ p'.zombie=p.zombie ∧
          Ready p' tasks' := by
  refine (quiet_panic _).bind fun r _ => ?_
  obtain ⟨m₁,new⟩ := r
  cases new with
  | none => exact ⟨fun _ => rfl,fun _ _ e => by cases e⟩
  | some new =>
    refine (quiet_panic _).bind fun r _ => ?_
    obtain ⟨m₂,loaded⟩ := r
    cases loaded with
    | none => exact ⟨fun _ => rfl,fun _ _ e => by cases e⟩
    | some loaded =>
      refine (dropTasks_quiet _ _ _ _).eq_ok.bind fun old hd => ?_
      refine createTask_spec.bind fun r hr => ?_
      refine (quiet_panic _).bind fun m₅ _ => ?_
      obtain ⟨htask,htids,hfind⟩ := hr
      refine ⟨(fun e => by cases e),fun p' tasks' e => ?_⟩
      cases e
      exact ⟨m₂,old.1,old.2.1,old.2.2,r.task.page,hd.1,by rw [← htask],htids,rfl,
        r.task,rfl,hfind⟩

/-- The processes and their tasks stay. -/
theorem Inv.keep (h : Inv s) (ht : common.tids=s.tids) : Inv {s with toShared := common} :=
  ⟨h.free,h.zombie,h.ready,ht ▸ h.unique⟩

/-- The step is no failed visit, and leads to a state with the invariant. -/
def Good (o : Outcome Stop System) : Prop := o≠.fault .visit ∧ ∀ t,o=.next t → Inv t

theorem good_blocked : Good .blocked := ⟨(fun e => by cases e),fun _ e => by cases e⟩

theorem good_fault {e : Stop} (he : Quiet e) : Good (.fault e) :=
  ⟨fun h => he (Outcome.fault.inj h),fun _ e => by cases e⟩

theorem good_next (h : Inv t) : Good (.next t) := by
  refine ⟨(fun e => by cases e),fun u hu => ?_⟩
  cases hu
  exact h

/-- The tasks of a process are dropped. -/
theorem Inv.dropped (h : Inv s) {pgt pgt' : PageTable} {m m' : Mem}
    (hd : dropTasks pgt m s.tids (s.tasks i).reverse=.ok (pgt',m',tids)) :
    Unique (Function.update s.tasks i []) tids :=
  h.unique.drop (h.single i) hd

/-- A step in which no process is visited before it was forked or has executed a program. -/
theorem Inv.step {a : Label} (h : Inv s) (hc : Started s a) : Good (ProcessTasks.step s a) := by
  cases a with
  | init i pid =>
    rw [ProcessTasks.step]
    split
    · rename_i hv
      have hfree := h.free i (Option.isNone_iff_eq_none.mp hv.2)
      split
      · exact good_fault Stop.noConfusion
      · exact good_fault Stop.noConfusion
      · split
        · exact good_fault Stop.noConfusion
        · refine good_next (h.put ?_ (fun _ => hfree) (fun _ _ _ => hfree)
            fun _ _ _ => .inr ⟨hfree,rfl⟩)
          rw [Function.update_eq_self]
          exact h.unique
    · exact good_blocked
  | fork i j pid base =>
    rw [ProcessTasks.step]
    split
    · exact good_blocked
    · rename_i parent hp
      split
      · rename_i hv
        have hfree := h.free j (Option.isNone_iff_eq_none.mp hv.2.2)
        have hf := fork_spec s parent (s.tasks i) (s.tasks j) pid base
        split
        · rename_i e he
          rw [he] at hf
          exact good_fault hf
        · rename_i common he
          rw [he] at hf
          exact good_next (h.keep (hf.1 rfl))
        · rename_i common child tasks he
          rw [he] at hf
          obtain ⟨page,htasks,htids,hz,hr⟩ := hf.2 child tasks rfl
          rw [hfree,List.nil_append] at htasks
          dsimp only at htids
          refine good_next (h.put ?_ (fun e => by cases e) (fun p e hz' => ?_)
            fun p e _ => ?_)
          · rw [htasks,htids]
            exact h.unique.alloc j page
          · cases e
            rw [hz] at hz'
            cases hz'
          · cases e
            exact .inl (hr hfree)
      · exact good_blocked
  | exec i img base =>
    rw [ProcessTasks.step]
    split
    · exact good_blocked
    · rename_i p hp
      split
      · exact good_blocked
      · rename_i hz
        have hf := exec_spec s p (s.tasks i) img base
        split
        · rename_i e he
          rw [he] at hf
          exact good_fault hf
        · rename_i common he
          rw [he] at hf
          exact good_next (h.keep (hf.1 rfl))
        · rename_i common p' tasks he
          rw [he] at hf
          obtain ⟨m₁,pgt,m₂,tids',page,hd,htasks,htids,hz',hr⟩ := hf.2 p' tasks rfl
          dsimp only at htids
          refine good_next (h.put ?_ (fun e => by cases e) (fun q e hq => ?_)
            fun q e _ => ?_)
          · rw [htasks,htids]
            have ha := (h.dropped hd).alloc i page
            rwa [Function.update_idem] at ha
          · cases e
            exact absurd (hz' ▸ hq) hz
          · cases e
            exact .inl hr
  | exit i =>
    rw [ProcessTasks.step]
    split
    · exact good_blocked
    · rename_i p hp
      split
      · exact good_blocked
      · have hq := dropTasks_quiet (s.tasks i).reverse p.pgt s.mem s.tids
        split
        · rename_i e he
          rw [he] at hq
          exact good_fault hq
        · rename_i pgt m tids hd
          exact good_next (h.put (h.dropped hd) (fun _ => rfl) (fun _ _ _ => rfl) fun q e hz => by
            cases e
            cases hz)
  | wait i alarm =>
    rw [ProcessTasks.step]
    split
    · exact good_blocked
    · rename_i p hp
      split
      · rename_i hz
        have hnil := h.zombie i p hp hz
        split
        · exact good_fault Stop.noConfusion
        · refine good_next (h.put ?_ (fun _ => hnil) (fun _ _ _ => hnil)
            fun _ _ _ => .inr ⟨hnil,rfl⟩)
          rw [Function.update_eq_self]
          exact h.unique
      · exact good_blocked
  | visit i =>
    rw [ProcessTasks.step]
    split
    · exact good_blocked
    · rename_i p hp
      split
      · exact good_blocked
      · rename_i hz
        split
        · exact good_next h
        · rename_i hr
          obtain hready | ⟨-,hran⟩ := h.ready i p hp (Bool.eq_false_iff.mpr hz)
          · exact absurd hready hr
          · rw [Started,hran] at hc
            cases hc
  | kernel m => exact good_next (h.keep rfl)

end Steps

end Xv6Rust.ProcessTasks
