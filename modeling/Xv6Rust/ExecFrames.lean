import Xv6Rust.ExecArgs
import Xv6Rust.UserStacks

/-!
# The registers of a program

The trap frames around `sys_exec`. A process returns to its program through the trap frame of its
task, which `Task::new` has filled. `load` sets the registers of the program in the trap frame of
the process, and `syscall` writes the result to that of the task from before.
-/

namespace Xv6Rust.ExecFrames

open Results Paging PageTable UserMemory UserBytes CopyUser ElfLoad ExecArgs
open ProcessTasks (createTask createTask_spec)
open TaskStacks (KernelTable noStacks)
open UserStacks (taskStack taskStack_place)
open FirstTable (uvmAlloc_eq_first)

/-- `TrapFrame` of a task: the registers that a program starts with. -/
structure Frame where
  /-- First argument of the program, and the result of a system call. -/
  a0 : ℕ
  /-- Second argument of the program. -/
  a1 : ℕ
  /-- Program counter. -/
  epc : ℕ
  /-- Stack pointer. -/
  sp : ℕ
  deriving DecidableEq

/-- A process, and the trap frames by their pages. -/
structure System where
  /-- The process. -/
  state : State
  /-- The trap frames of tasks. -/
  frames : ℕ → Frame

/-- `Task::new`: what it writes to the zeroed page of a trap frame. -/
def newFrame (ustackBase pos entry : ℕ) : Except Panic Frame := do
  let stack ← taskStack ustackBase pos
  .ok ⟨0,0,entry,stack.2⟩

/-- `sys_exec` with the path and the arguments it has fetched. -/
def sysExec (namei : List UInt8 → Option File) (s : System) (path : List UInt8)
    (argv : List (Option Arg)) : Except LoadPanic (System×Except LoadError ℕ) :=
  match load namei s.state path argv with
  | .error why => .error why
  | .ok (t,.error e) => .ok ({s with state := t},.error e)
  | .ok (t,.ok argc) =>
    match t.data.tasks with
    | [] => .error .unwrap
    | task::_ =>
      match newFrame t.data.ustackBase 1 t.data.regs.epc with
      | .error why => .error (.paging why)
      | .ok frame => .ok (⟨t,Function.update s.frames task.page frame⟩,.ok argc)

/-- What `syscall` writes to `a0`. -/
def resultWord : Except LoadError ℕ → ℕ
  | .ok ret => ret
  | .error _ => 2^64-1

/-- `syscall` for `exec`. -/
def syscall (namei : List UInt8 → Option File) (s : System) (path : List UInt8)
    (argv : List (Option Arg)) : Except LoadPanic (System×Except LoadError ℕ) :=
  match s.state.data.tasks with
  | [] => .error (.task .visit)
  | task::_ =>
    -- `admit_ecall`
    if (s.frames task.page).epc+4 ≥ 2^64 then .error .overflow
    else
      let frame := {s.frames task.page with epc := (s.frames task.page).epc+4}
      match sysExec namei {s with frames := Function.update s.frames task.page frame} path argv with
      | .error why => .error why
      | .ok (t,r) =>
        -- the trap frame from before, also where the task has been replaced
        let frame := {t.frames task.page with a0 := resultWord r}
        .ok ({t with frames := Function.update t.frames task.page frame},r)

/-- The trap frame that the process returns through: `user_ret_prepare_task` takes the `tid` of the
first task, and the page is looked up at `trapframe_from_tid`. -/
def returnFrame (s : System) : Option Frame :=
  match s.state.data.tasks with
  | [] => none
  | task::_ =>
    (s.state.data.pagetable.findPte (trapframeFromTid task.tid)).map fun pte => s.frames pte.ppn

/-- The page of an address is the user's, to write to. -/
def UserWritable (pgt : PageTable) (va : ℕ) : Prop :=
  UserPage pgt (va/pageSize) ∧ (pgt.entryAt (va/pageSize)).flags&&&flagW≠0

/-- The program gets its arguments: it starts at its entry, below the block of the arguments that
`load` has built, with their number and the address of the array. -/
structure Handed (s : System) (entry argc : ℕ) (frame : Frame) : Prop where
  /-- The first instruction. -/
  epc : frame.epc=entry
  /-- The stack pointer below the arguments. -/
  sp : frame.sp=s.state.data.regs.sp
  /-- The number of arguments. -/
  a0 : frame.a0=argc
  /-- The address of the array. -/
  a1 : frame.a1=s.state.data.regs.a1
  /-- The stack can be written to. -/
  writable : UserWritable s.state.data.pagetable frame.sp

section Load

variable {m m' : Mem} {pgt pgt' : PageTable} {size pid stackBase sp sp' argc base : ℕ}

theorem alignSp_le (sp : ℕ) : alignSp sp ≤ sp := Nat.sub_le ..

/-- A page table that is given up is no result. -/
theorem abandon_ne_ok {α : Type} {e : LoadError} {a : α} :
    abandon pgt m size pid e≠.ok (m',.ok a) := by
  intro h
  rw [abandon] at h
  split at h
  · cases h
  · cases h

/-- Arguments only move the stack pointer down. -/
theorem pushArgs_le {argv : List (Option Arg)} {ustack ustack' : List ℕ}
    (h : pushArgs pgt size pid stackBase argv m sp ustack=.ok (m',.ok (sp',ustack'))) :
    sp' ≤ sp := by
  induction argv generalizing m sp ustack with
  | nil =>
    cases h
    exact le_refl _
  | cons arg argv ih =>
    cases arg with
    | none => cases h
    | some arg =>
      rw [pushArgs] at h
      split at h
      · cases h
      · rename_i maxPos hpos
        split at h
        · cases h
        split at h
        · exact absurd h abandon_ne_ok
        split at h
        · cases h
        · exact absurd h abandon_ne_ok
        · exact (ih h).trans ((alignSp_le _).trans (Nat.sub_le ..))

/-- The array of addresses is below the stack pointer. -/
theorem pushUstack_lt {ustack : List ℕ}
    (h : pushUstack pgt m size pid stackBase sp argc ustack=.ok (m',.ok sp')) : sp' < sp := by
  rw [pushUstack] at h
  split at h
  · cases h
  split at h
  · cases h
  · rename_i hroom
    split at h
    · exact absurd h abandon_ne_ok
    split at h
    · cases h
    · exact absurd h abandon_ne_ok
    · cases h
      have hle := alignSp_le (sp-(argc+1)*wordSize)
      simp only [wordSize] at hroom hle ⊢
      omega

/-- The stack pointer of a program is below the end of the first stack. -/
theorem loadStack_lt {argv : List (Option Arg)}
    (h : loadStack pgt m base pid argv=.ok (m',.ok (pgt',size,sp))) :
    sp < ustackBottomByPos base 1+userStackSize := by
  rw [loadStack] at h
  split at h
  · cases h
  split at h
  · cases h
  · exact absurd h abandon_ne_ok
  · obtain ⟨u,-,h⟩ := bind_eq_ok h
    split at h
    · cases h
    split at h
    · cases h
    · cases h
    · rename_i hpush
      split at h
      · cases h
      · cases h
      · rename_i hlast
        cases h
        exact (pushUstack_lt hlast).trans_le (pushArgs_le hpush)

/-- A process that has loaded a program. -/
structure Loaded (t : State) (elf : ElfHeader) : Prop where
  /-- Its task, the page of its trap frame mapped. -/
  task : ∃ task,t.data.tasks=[task] ∧ t.data.pagetable.findPte (trapframeFromTid task.tid)=
    some (Pte.writePerm task.page (flagR|||flagW))
  /-- The stack pointer is on the first stack. -/
  low : t.data.regs.sp < ustackBottomByPos t.data.ustackBase 1+userStackSize
  /-- It is the address of the array. -/
  same : t.data.regs.a1=t.data.regs.sp
  /-- The first instruction. -/
  epc : t.data.regs.epc=elf.entry

theorem createTask_maps {tids : KernelStacks.RecycleAllocator} {kernel : KernelTable} {block : ℕ}
    {r : ProcessTasks.Created} (h : createTask pgt m tids kernel block=.ok r) :
    r.pgt.findPte (trapframeFromTid r.task.tid)=
      some (Pte.writePerm r.task.page (flagR|||flagW)) := by
  have hspec := @createTask_spec pgt m tids kernel block
  rw [h] at hspec
  exact hspec.2.2

theorem commit_loaded {s t : State} {path : List UInt8} {elf : ElfHeader}
    (hbase : s.data.ustackBase=base) (hsp : sp < ustackBottomByPos base 1+userStackSize)
    (h : commit s path elf.entry pgt size sp=.ok t) : Loaded t elf := by
  rw [← hbase] at hsp
  rw [commit] at h
  split at h
  · cases h
  split at h
  · cases h
  split at h
  · cases h
  · rename_i hcreate
    split at h
    · cases h
    split at h
    · cases h
    · cases h
      exact ⟨⟨_,rfl,createTask_maps hcreate⟩,hsp,rfl,rfl⟩

/-- What a successful `load` leaves. -/
theorem load_loaded {namei : List UInt8 → Option File} {s t : State} {path : List UInt8}
    {argv : List (Option Arg)} (h : load namei s path argv=.ok (t,.ok argc)) :
    ∃ f elf,namei path=some f ∧ f.elfHeader=some elf ∧ Loaded t elf := by
  obtain ⟨⟨u,r⟩,himage,h⟩ := bind_eq_ok h
  obtain ⟨f,elf,pgt,size,m,hr,hfile,helf,-⟩ | ⟨hno,-⟩ := loadImage_spec (s.logged .beginOp)
    (namei path)
  · rw [hr] at himage
    cases himage
    obtain ⟨⟨m₂,r⟩,hstack,h⟩ := bind_eq_ok h
    cases r with
    | error e => cases h
    | ok x =>
      obtain ⟨pgt',size',sp'⟩ := x
      obtain ⟨v,hcommit,h⟩ := bind_eq_ok h
      cases h
      have hlow := loadStack_lt hstack
      have hloaded := @commit_loaded pgt' size' sp' (pgRoundUp size) _ t path elf rfl hlow hcommit
      exact ⟨f,elf,hfile,helf,hloaded⟩
  · obtain ⟨⟨e,rfl⟩,-⟩ := hno u r himage
    cases h

end Load

section Return

variable {namei : List UInt8 → Option File} {s t : System} {path : List UInt8}
  {argv : List (Option Arg)} {argc : ℕ}

theorem returnFrame_eq {task : UserMemory.Task} (htasks : s.state.data.tasks=[task])
    (hpte : s.state.data.pagetable.findPte (trapframeFromTid task.tid)=
      some (Pte.writePerm task.page (flagR|||flagW))) :
    returnFrame s=some (s.frames task.page) := by
  rw [returnFrame,htasks]
  dsimp only
  rw [hpte]
  rfl

/-- The stack pointer of a new task. -/
theorem newFrame_eq {ustackBase pos entry : ℕ} {frame : Frame}
    (h : newFrame ustackBase pos entry=.ok frame) :
    frame=⟨0,0,entry,ustackBase+pos*(pageSize+userStackSize)+userStackSize⟩ := by
  obtain ⟨stack,hstack,h⟩ := bind_eq_ok h
  cases h
  rw [taskStack_place hstack]

/-- After a successful `exec` the process returns through the new trap frame, in which at most `a0`
has changed. -/
theorem syscall_frame (h : syscall namei s path argv=.ok (t,.ok argc)) :
    ∃ f elf a0 frame,namei path=some f ∧ f.elfHeader=some elf ∧ Loaded t.state elf ∧
      newFrame t.state.data.ustackBase 1 elf.entry=.ok frame ∧
        returnFrame t=some {frame with a0 := a0} := by
  rw [syscall] at h
  split at h
  · cases h
  · rename_i old rest _
    split at h
    · cases h
    dsimp only at h
    split at h
    · cases h
    · rename_i u r hexec
      cases h
      rw [sysExec] at hexec
      split at hexec
      · cases hexec
      · cases hexec
      · rename_i v argc' hload
        split at hexec
        · cases hexec
        · rename_i task rest' htasks
          split at hexec
          · cases hexec
          · rename_i frame hframe
            cases hexec
            obtain ⟨f,elf,hfile,helf,hloaded⟩ := load_loaded hload
            obtain ⟨task',htask,hpte⟩ := hloaded.task
            rw [htasks] at htask
            cases htask
            rw [hloaded.epc] at hframe
            refine ⟨f,elf,if task.page=old.page then argc else frame.a0,frame,hfile,helf,hloaded,
              hframe,?_⟩
            rw [returnFrame_eq htasks hpte]
            dsimp only
            by_cases hsame : task.page=old.page
            · rw [if_pos hsame,hsame,Function.update_self,Function.update_self]
              rfl
            · rw [if_neg hsame,Function.update_of_ne hsame,Function.update_self]

end Return

/-- No program gets its arguments: wherever `exec` succeeds, the process returns to it with the
stack pointer above the end of the first stack, and with no address of the array. -/
theorem program_not_handed {namei : List UInt8 → Option File} {s t : System} {path : List UInt8}
    {argv : List (Option Arg)} {argc : ℕ} (h : syscall namei s path argv=.ok (t,.ok argc))
    (entry : ℕ) : ¬∃ frame,returnFrame t=some frame ∧ Handed t entry argc frame := by
  intro hgood
  obtain ⟨frame,hr,hframe⟩ := hgood
  obtain ⟨f,elf,a0,new,-,-,hloaded,hnew,hr'⟩ := syscall_frame h
  rw [hr] at hr'
  have hsp := hframe.sp
  rw [Option.some.inj hr',newFrame_eq hnew] at hsp
  have hlow := hloaded.low
  rw [← hsp] at hlow
  simp only [ustackBottomByPos,pageSize] at hlow
  omega

/-- The first process with a task. -/
def running : Option System :=
  match allocProcPagetable freePages 9 10 11 1 with
  | .ok (m,some pgt) =>
    match createTask pgt m ⟨0,[]⟩ ⟨noStacks,0⟩ 492 with
    | .ok r =>
      let s := firstProcess r.mem r.pgt
      some ⟨{s with
        kernel := r.kernel
        tids := r.tids
        data := {s.data with tasks := [r.task]}},fun _ => ⟨0,0,0,0⟩⟩
    | .error _ => none
  | _ => none

/-- The result of a system call, the trap frame that the process returns through, and the stack
pointer below the arguments. -/
def returned (r : Except LoadPanic (System×Except LoadError ℕ)) :
    Option (Except LoadError ℕ×Option Frame×ℕ) :=
  match r with
  | .ok (t,r) => some (r,returnFrame t,t.state.data.regs.sp)
  | .error _ => none

/-- What the first process does with a program of one argument. -/
def tinyExec (s : System) : Except LoadPanic (System×Except LoadError ℕ) :=
  syscall (fun _ => some tinyProgram) s [47,97,0] [some (letters 1)]

theorem running_returned :
    running.map (fun s => returned (tinyExec s))=some (some (.ok 1,some ⟨0,0,0,40960⟩,24544)) := by
  -- the pages of the stacks are mapped at once
  simp only [tinyExec,syscall,sysExec,load,loadRest,loadStack,uvmAlloc_eq_first]
  decide +kernel

theorem running_succeeds : ∃ s t,tinyExec s=.ok (t,.ok 1) ∧ returnFrame t=some ⟨0,0,0,40960⟩ ∧
    t.state.data.regs.sp=24544 := by
  have h := running_returned
  obtain ⟨s,-,h⟩ := Option.map_eq_some_iff.mp h
  cases hr : tinyExec s with
  | error why =>
    rw [hr] at h
    cases h
  | ok r =>
    obtain ⟨t,r⟩ := r
    rw [hr,returned] at h
    obtain ⟨hres,hrest⟩ := Prod.mk.inj (Option.some.inj h)
    obtain ⟨hframe,hsp⟩ := Prod.mk.inj hrest
    rw [hres] at hr
    exact ⟨s,t,hr,hframe,hsp⟩

theorem program_not_handed_running : ∃ s t,tinyExec s=.ok (t,.ok 1) ∧
    ¬∃ frame,returnFrame t=some frame ∧ Handed t 0 1 frame := by
  obtain ⟨s,t,h,-⟩ := running_succeeds
  exact ⟨s,t,h,program_not_handed h 0⟩

/-- A program with one argument starts without it. -/
theorem oneArgument_lost : ∃ s t,tinyExec s=.ok (t,.ok 1) ∧
    ∀ frame,returnFrame t=some frame → frame.sp≠t.state.data.regs.sp ∧ frame.a0≠1 ∧
      frame.a1=0 := by
  obtain ⟨s,t,h,hframe,hsp⟩ := running_succeeds
  refine ⟨s,t,h,fun frame hf => ?_⟩
  rw [hframe] at hf
  cases hf
  rw [hsp]
  decide

end Xv6Rust.ExecFrames
