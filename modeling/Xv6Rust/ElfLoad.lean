import Xv6Rust.CopyUser
import Xv6Rust.ProcessTasks
import Xv6Rust.TableBudget

/-!
# Loading a program

`load` of `process/proc/elf.rs` builds a page table beside the one of the process, fills it from a
file and puts the arguments on its stack; after that it takes the place of the old one. The inode
is locked while its file is read, so a file is its size and its bytes. Where an error is returned
the page table is taken apart by hand.
-/

namespace Xv6Rust.ElfLoad

open Bytes RadixTable Results Paging PageTable UserMemory UserBytes CopyUser TableBudget
open KernelStacks (RecycleAllocator)
open TaskStacks (KernelTable noStacks)
open ProcessTasks (dropTasks createTask)
open UserCopy (pageCount)

/-- `MAXARG`. -/
def maxArg : ℕ := 16

/-- `MAXARGLEN`. -/
def maxArgLen : ℕ := 64

/-- `ELF_MAGIC`. -/
def elfMagic : ℕ := 0x464C457F

/-- `ELF_PROG_LOAD`. -/
def elfProgLoad : ℕ := 1

/-- The error texts of `load`. -/
inductive LoadError where
  /-- `cannot name inode`. -/
  | nameInode
  /-- `cannot read elf inode`. -/
  | readInode
  /-- `bad elf magic number`. -/
  | badMagic
  /-- `mem not enough`. -/
  | noMemory
  /-- `cannot read elf program header`. -/
  | readHeader
  /-- `one program header meta not correct`. -/
  | badMeta
  /-- `not enough uvm for program header`. -/
  | noSegment
  /-- `load program section error`. -/
  | readSection
  /-- `not enough uvm for user stack`. -/
  | noStack
  /-- `cmd args too much for stack`. -/
  | argsTooMuch
  /-- `copy cmd args to pagetable go wrong`. -/
  | copyArgs
  deriving DecidableEq

/-- Ways to stop the kernel. -/
inductive LoadPanic where
  /-- A panic of the memory functions. -/
  | paging (e : Panic)
  /-- A panic with the tasks. -/
  | task (e : ProcessTasks.Stop)
  /-- A panic of `copy_out`. -/
  | copy (why : CopyPanic)
  /-- `va is not page aligned`. -/
  | notAligned
  /-- `va should already be mapped`. -/
  | notMapped
  /-- An `unwrap`. -/
  | unwrap
  /-- Arithmetic overflow. -/
  | overflow
  /-- An assertion. -/
  | assertion
  /-- `Arc::new` of the task, or its place in the vector, finds no memory. -/
  | noMemory
  deriving DecidableEq

/-- A file, read through its locked inode. -/
structure File where
  /-- Its size. -/
  size : ℕ
  /-- Its bytes. -/
  byte : Buffer

/-- `iread` into memory of the kernel. -/
def File.iread (f : File) (off count : ℕ) : Option Buffer :=
  if off+count ≥ 2^32 then none
  else if off+count > f.size then none
  else some fun i => f.byte (off+i)

/-- `ElfHeader`: what is used of it. -/
structure ElfHeader where
  /-- Magic number. -/
  magic : ℕ
  /-- Address of the first instruction. -/
  entry : ℕ
  /-- Where the program headers are in the file. -/
  phoff : ℕ
  /-- Their number. -/
  phnum : ℕ

/-- `ProgHeader`: what is used of it. -/
structure ProgHeader where
  /-- Type. -/
  pgType : ℕ
  /-- Where the segment is in the file. -/
  off : ℕ
  /-- Its address. -/
  vaddr : ℕ
  /-- Its size in the file. -/
  filesz : ℕ
  /-- Its size in memory. -/
  memsz : ℕ

/-- `size_of::<ElfHeader>()`. -/
def elfSize : ℕ := 64

/-- `size_of::<ProgHeader>()`. -/
def phSize : ℕ := 56

/-- The header of a file. -/
def File.elfHeader (f : File) : Option ElfHeader :=
  (f.iread 0 elfSize).map fun b => ⟨getLE b 0 4,getLE b 24 8,getLE b 32 8,getLE b 56 2⟩

/-- A program header. -/
def File.progHeader (f : File) (off : ℕ) : Option ProgHeader :=
  (f.iread off phSize).map fun b =>
    ⟨getLE b 0 4,getLE b 8 8,getLE b 16 8,getLE b 32 8,getLE b 40 8⟩

/-- Calls of the log. -/
inductive LogCall where
  /-- `begin_op`. -/
  | beginOp
  /-- `end_op`. -/
  | endOp
  deriving DecidableEq

/-- `TrapFrame`: the registers that `load` sets. -/
structure TrapFrame where
  /-- Second argument of the program. -/
  a1 : ℕ
  /-- Program counter. -/
  epc : ℕ
  /-- Stack pointer. -/
  sp : ℕ
  deriving DecidableEq

/-- `ProcData`: what `load` reads and writes. -/
structure ProcData where
  /-- Page table. -/
  pagetable : PageTable
  /-- Size in bytes. -/
  size : ℕ
  /-- Where the stacks of the tasks begin. -/
  ustackBase : ℕ
  /-- Name. -/
  name : Fin 16 → UInt8
  /-- Page of the trap frame. -/
  trapframe : ℕ
  /-- Its registers. -/
  regs : TrapFrame
  /-- Page behind `USYSCALL`. -/
  up : ℕ
  /-- Tasks. -/
  tasks : List Task

/-- The process, memory, and what else `load` changes. The heap has its free pages in the order in
which they are handed out, and two answers besides. -/
structure State where
  /-- Physical memory. -/
  mem : Mem
  /-- The block that the heap gives for a kernel stack, if it is free then. -/
  block : ℕ
  /-- The heap serves the requests below a page, from pages that are split. -/
  small : Bool
  /-- `KERNEL_PAGE_TABLE`. -/
  kernel : KernelTable
  /-- `TID_ALLOCATOR`. -/
  tids : RecycleAllocator
  /-- Calls of the log so far. -/
  log : List LogCall
  /-- Page of the trampoline code. -/
  trampolinePage : ℕ
  /-- Number of the process. -/
  pid : ℕ
  /-- Its data. -/
  data : ProcData

/-- `align_sp`. -/
def alignSp (sp : ℕ) : ℕ := sp-sp%16

/-- `ustack_bottom_by_pos`. -/
def ustackBottomByPos (ustackBase pos : ℕ) : ℕ :=
  ustackBase+(pos-1)*(pageSize+userStackSize)+pageSize

/-- The page table is taken apart, and an error returned. -/
def abandon {α : Type} (pgt : PageTable) (m : Mem) (size pid : ℕ) (e : LoadError) :
    Except LoadPanic (Mem×Except LoadError α) :=
  match discard pgt m size pid with
  | .error why => .error (.paging why)
  | .ok m => .ok (m,.error e)

/-- The loop of `load_seg` from a byte of the segment on, with its number of rounds. -/
def segLoop (pgt : PageTable) (f : File) (off size : ℕ) :
    ℕ → Mem → ℕ → ℕ → Except LoadPanic (Mem×Bool)
  | 0,m,_,_ => .ok (m,true)
  | n+1,m,va,i =>
    match findPaMut pgt va with
    | .error _ => .error .notMapped
    | .ok ppn =>
      let count := if size-i < pageSize then size-i else pageSize
      if off+i ≥ 2^32 then .error .overflow
      else
        match f.iread (off+i) count with
        | none => .ok (m,false)
        | some b => segLoop pgt f off size n (write m ppn 0 b count) (va+pageSize) (i+pageSize)

/-- `load_seg`; the flag is `true` for `Ok(())`. -/
def loadSeg (pgt : PageTable) (m : Mem) (va : ℕ) (f : File) (off size : ℕ) :
    Except LoadPanic (Mem×Bool) :=
  if va%pageSize≠0 then .error .notAligned
  else if va > maxva then .error .unwrap
  else segLoop pgt f off size ((size+pageSize-1)/pageSize) m va 0

/-- The loop of `load` over the program headers, with its number of rounds. -/
def loadSegments (f : File) (pid : ℕ) : ℕ → PageTable → Mem → ℕ → ℕ →
    Except LoadPanic (Mem×Except LoadError (PageTable×ℕ))
  | 0,pgt,m,size,_ => .ok (m,.ok (pgt,size))
  | n+1,pgt,m,size,off =>
    match f.progHeader off with
    | none => abandon pgt m size pid .readHeader
    | some ph =>
      if ph.pgType≠elfProgLoad then
        if off+phSize ≥ 2^32 then .error .overflow
        else loadSegments f pid n pgt m size (off+phSize)
      else if ph.memsz < ph.filesz then abandon pgt m size pid .badMeta
      else if ph.vaddr+ph.memsz ≥ 2^64 then .error .overflow
      else if ph.vaddr%pageSize≠0 then abandon pgt m size pid .badMeta
      else
        match pgt.uvmAlloc m size (ph.vaddr+ph.memsz) with
        | .error why => .error (.paging why)
        | .ok (pgt,m,none) => abandon pgt m size pid .noSegment
        | .ok (pgt,m,some size) =>
          match loadSeg pgt m ph.vaddr f (ph.off%2^32) (ph.filesz%2^32) with
          | .error why => .error why
          | .ok (m,false) => abandon pgt m size pid .readSection
          | .ok (m,true) =>
            if off+phSize ≥ 2^32 then .error .overflow
            else loadSegments f pid n pgt m size (off+phSize)

/-- A call of the log. -/
def State.logged (s : State) (call : LogCall) : State := {s with log := s.log++[call]}

/-- `load` from the answer of `namei` to the end of the transaction: the page table with the
segments. -/
def loadImage (s : State) (file : Option File) :
    Except LoadPanic (State×Except LoadError (ElfHeader×PageTable×ℕ)) :=
  match file with
  | none => .ok (s.logged .endOp,.error .nameInode)
  | some f =>
    match f.elfHeader with
    | none => .ok (s.logged .endOp,.error .readInode)
    | some elf =>
      if elf.magic≠elfMagic then .ok (s.logged .endOp,.error .badMagic)
      else
        match allocProcPagetable s.mem s.trampolinePage s.data.trapframe s.data.up s.pid with
        | .error why => .error (.paging why)
        | .ok (m,none) => .ok ({s with mem := m}.logged .endOp,.error .noMemory)
        | .ok (m,some pgt) =>
          match loadSegments f s.pid elf.phnum pgt m 0 (elf.phoff%2^32) with
          | .error why => .error why
          | .ok (m,.error e) => .ok ({s with mem := m}.logged .endOp,.error e)
          | .ok (m,.ok (pgt,size)) =>
            .ok ({s with mem := m}.logged .endOp,.ok (elf,pgt,size))

/-- An argument, in a slice of fixed length. -/
abbrev Arg := Vector UInt8 maxArgLen

/-- The bytes of an argument. -/
def Arg.bytes (arg : Arg) : Buffer := fun i => arg.toList.getD i 0

/-- The loop of `load` over the arguments: the stack pointer, and the addresses of the arguments. -/
def pushArgs (pgt : PageTable) (size pid stackBase : ℕ) :
    List (Option Arg) → Mem → ℕ → List ℕ → Except LoadPanic (Mem×Except LoadError (ℕ×List ℕ))
  | [],m,sp,ustack => .ok (m,.ok (sp,ustack))
  | none::_,_,_,_ => .error .unwrap
  | some arg::argv,m,sp,ustack =>
    match arg.toList.findIdx? (· = 0) with
    | none => .error .unwrap
    | some maxPos =>
      if sp < maxPos+1 then .error .overflow
      else if alignSp (sp-(maxPos+1)) < stackBase then abandon pgt m size pid .argsTooMuch
      else
        match copyOut pgt m arg.bytes (alignSp (sp-(maxPos+1))) (maxPos+1) with
        | (_,.panic why) => .error (.copy why)
        | ((pgt,m),.err) => abandon pgt m size pid .copyArgs
        | ((_,m),.ok) =>
          pushArgs pgt size pid stackBase argv m (alignSp (sp-(maxPos+1)))
            (ustack++[alignSp (sp-(maxPos+1))])

/-- The bytes of the array of addresses. -/
def ustackBytes (ustack : List ℕ) : Buffer := fun i => UInt8.ofNat (ustack.getD (i/8) 0/256^(i%8))

/-- The array of addresses is copied below the arguments. -/
def pushUstack (pgt : PageTable) (m : Mem) (size pid stackBase sp argc : ℕ) (ustack : List ℕ) :
    Except LoadPanic (Mem×Except LoadError ℕ) :=
  if ustack.getLast?=some 0 then .error .assertion
  else if sp < (argc+1)*wordSize then .error .overflow
  else if alignSp (sp-(argc+1)*wordSize) < stackBase then abandon pgt m size pid .argsTooMuch
  else
    match copyOut pgt m (ustackBytes ustack) (alignSp (sp-(argc+1)*wordSize)) ((argc+1)*wordSize) with
    | (_,.panic why) => .error (.copy why)
    | ((pgt,m),.err) => abandon pgt m size pid .copyArgs
    | ((_,m),.ok) => .ok (m,.ok (alignSp (sp-(argc+1)*wordSize)))

/-- Pages of the stacks of all tasks, with their guards. -/
def stackPages : ℕ := maxTasksPerProc*((userStackSize+pageSize)/pageSize)

/-- The guards between the stacks, and the arguments on the first one: the new page table, its size
and the stack pointer. -/
def fillStack (pgt : PageTable) (m : Mem) (base size pid : ℕ) (argv : List (Option Arg)) :
    Except LoadPanic (Mem×Except LoadError (PageTable×ℕ×ℕ)) := do
  let pgt ← (clearGuards pgt size maxTasksPerProc).mapError .paging
  if argv.length ≥ maxArg then .error .assertion
  else
    match pushArgs pgt size pid (ustackBottomByPos base 1) argv m
        (ustackBottomByPos base 1+userStackSize) [] with
    | .error why => .error why
    | .ok (m,.error e) => .ok (m,.error e)
    | .ok (m,.ok (sp,ustack)) =>
      match pushUstack pgt m size pid (ustackBottomByPos base 1) sp argv.length ustack with
      | .error why => .error why
      | .ok (m,.error e) => .ok (m,.error e)
      | .ok (m,.ok sp) => .ok (m,.ok (pgt,size,sp))

/-- The stacks of all tasks. -/
def loadStack (pgt : PageTable) (m : Mem) (base pid : ℕ) (argv : List (Option Arg)) :
    Except LoadPanic (Mem×Except LoadError (PageTable×ℕ×ℕ)) :=
  if base+maxTasksPerProc*(userStackSize+pageSize) ≥ 2^64 then .error .overflow
  else
    match pgt.uvmAlloc m base (base+maxTasksPerProc*(userStackSize+pageSize)) with
    | .error why => .error (.paging why)
    | .ok (pgt,m,none) => abandon pgt m base pid .noStack
    | .ok (pgt,m,some size) => fillStack pgt m base size pid argv

/-- The new page table takes the place of the old one. -/
def commit (s : State) (path : List UInt8) (entry : ℕ) (pgt : PageTable) (size sp : ℕ) :
    Except LoadPanic State :=
  -- the first byte of the path that is no `/`
  match path.findIdx? (· ≠ 47) with
  | none => .error .unwrap
  | some off =>
    match dropTasks s.data.pagetable s.mem s.tids s.data.tasks.reverse with
    | .error why => .error (.task why)
    | .ok (old,m,tids) =>
      match createTask pgt m tids s.kernel s.block with
      | .error why => .error (.task why)
      | .ok r =>
        if s.small=false then .error .noMemory
        else
          match discard old r.mem s.data.size s.pid with
          | .error why => .error (.paging why)
          | .ok m =>
            .ok {s with
              mem := m
              kernel := r.kernel
              tids := r.tids
              data := {s.data with
                pagetable := r.pgt
                size := size
                name := fun i =>
                  if i.val < path.length-off then path.getD (i.val+off) 0 else s.data.name i
                regs := ⟨sp,entry,sp⟩
                tasks := [r.task]}}

/-- `set_ustack_base`. -/
def State.setUstackBase (s : State) (base : ℕ) : State :=
  {s with data := {s.data with ustackBase := base}}

/-- `load` after its transaction. -/
def loadRest (s : State) (elf : ElfHeader) (pgt : PageTable) (size : ℕ) (path : List UInt8)
    (argv : List (Option Arg)) : Except LoadPanic (State×Except LoadError ℕ) := do
  let r ← loadStack pgt s.mem (pgRoundUp size) s.pid argv
  match r with
  | (m,.error e) => .ok ({s.setUstackBase (pgRoundUp size) with mem := m},.error e)
  | (m,.ok (pgt,size',sp)) => do
    let s ← commit {s.setUstackBase (pgRoundUp size) with mem := m} path elf.entry pgt size' sp
    .ok (s,.ok argv.length)

/-- `load`. -/
def load (namei : List UInt8 → Option File) (s : State) (path : List UInt8)
    (argv : List (Option Arg)) : Except LoadPanic (State×Except LoadError ℕ) := do
  let r ← loadImage (s.logged .beginOp) (namei path)
  match r with
  | (s,.error e) => .ok (s,.error e)
  | (s,.ok (elf,pgt,size)) => loadRest s elf pgt size path argv

/-- The bytes of a section are in the file, and their offsets fit. -/
def SectionIn (f : File) (off count : ℕ) : Prop := off+count < 2^32 ∧ off+count ≤ f.size

instance (f : File) (off count : ℕ) : Decidable (SectionIn f off count) :=
  inferInstanceAs (Decidable (_ ∧ _))

/-- A segment as it should be. -/
def ProgHeader.Fits (ph : ProgHeader) (f : File) : Prop :=
  ph.filesz ≤ ph.memsz ∧ ph.vaddr+ph.memsz < 2^64 ∧ ph.vaddr%pageSize=0 ∧
    (ph.filesz%2^32≠0 → SectionIn f (ph.off%2^32) (ph.filesz%2^32))

instance (ph : ProgHeader) (f : File) : Decidable (ph.Fits f) :=
  inferInstanceAs (Decidable (_ ∧ _))

/-- Where the segments end, if they all are as they should be. -/
def imageSize (f : File) : ℕ → ℕ → ℕ → Option ℕ
  | 0,size,_ => some size
  | n+1,size,off =>
    match f.progHeader off with
    | none => none
    | some ph =>
      if ph.pgType≠elfProgLoad then imageSize f n size (off+phSize)
      else if ph.Fits f then imageSize f n (max size (ph.vaddr+ph.memsz)) (off+phSize)
      else none

/-- The file is a program whose segments find room, but not the stacks behind them. -/
def StackMissing (s : State) (file : Option File) (size : ℕ) : Prop :=
  ∃ f elf,file=some f ∧ f.elfHeader=some elf ∧ elf.magic=elfMagic ∧
    imageSize f elf.phnum 0 (elf.phoff%2^32)=some size ∧
    Room s.pid (pageCount size) s.mem.heap.length ∧
    ¬Room s.pid (pageCount size+stackPages) s.mem.heap.length

/-- Nothing of the process has changed, the pages of the new page table are free again, and the
transaction was ended once. -/
structure Restored (s t : State) : Prop where
  /-- The process: its page table, size, stacks, name, trap frame and tasks. -/
  data : t.data=s.data
  /-- The numbers of tasks. -/
  tids : t.tids=s.tids
  /-- The free pages. -/
  heap : t.mem.heap.Perm s.mem.heap
  /-- The memory of the process, and all that was not free. -/
  memory : ∀ p,p∉s.mem.heap → t.mem.data p=s.mem.data p
  /-- The calls of the log. -/
  log : t.log=s.log++[.beginOp,.endOp]

section Segments

variable {m0 m : Mem} {pid k n : ℕ} {pgt : PageTable} {f : File} {off size i page : ℕ}

theorem iread_cases (f : File) (off count : ℕ) :
    (f.iread off count=none ∧ ¬SectionIn f off count) ∨
      ∃ b,f.iread off count=some b ∧ SectionIn f off count := by
  rw [File.iread]
  split
  · exact .inl ⟨rfl,fun h => by have := h.1; omega⟩
  split
  · exact .inl ⟨rfl,fun h => by have := h.2; omega⟩
  · exact .inr ⟨_,rfl,by omega,by omega⟩

/-- A page table that is given up leaves nothing behind. -/
theorem abandon_held {α : Type} (h : Held m0 pid n pgt m) (hfits : PidFits pid)
    (hn : pageCount size=n) (e : LoadError) :
    ∃ m',abandon (α:=α) pgt m size pid e=.ok (m',.error e) ∧ Returned m0 m' := by
  obtain ⟨m',hr,hback⟩ := h.discard hfits hn
  rw [abandon,hr]
  exact ⟨m',rfl,hback⟩

/-- What is left of a segment after a page of it. -/
theorem next_round (hle : size ≤ i+(n+1)*pageSize)
    (hlast : n+1≠0 → i+(n+1-1)*pageSize < size) :
    i < size ∧ size ≤ i+pageSize+n*pageSize ∧ (n≠0 → i+pageSize+(n-1)*pageSize < size) := by
  have hlt := hlast (Nat.succ_ne_zero n)
  rw [Nat.add_sub_cancel] at hlt
  rw [Nat.succ_mul] at hle
  refine ⟨by omega,by omega,fun hn => ?_⟩
  obtain ⟨j,rfl⟩ := Nat.exists_eq_succ_of_ne_zero hn
  rw [Nat.succ_mul] at hlt
  rw [Nat.succ_sub_one]
  omega

/-- `load_seg` fills pages of the user as far as the file goes. -/
theorem segLoop_spec (f : File) (off : ℕ) (h : Built m0 pid k pgt m) (hle : size ≤ i+n*pageSize)
    (hlast : n≠0 → i+(n-1)*pageSize < size) (hp : page+n ≤ k) :
    (∃ m',segLoop pgt f off size n m (page*pageSize) i=.ok (m',true) ∧ Built m0 pid k pgt m' ∧
      (n≠0 → SectionIn f off size)) ∨
    (n≠0 ∧ ¬SectionIn f off size ∧
      ((∃ m',segLoop pgt f off size n m (page*pageSize) i=.ok (m',false) ∧ Built m0 pid k pgt m') ∨
        segLoop pgt f off size n m (page*pageSize) i=.error .overflow)) := by
  induction n generalizing m page i with
  | zero => exact .inl ⟨m,rfl,h,fun hn => absurd rfl hn⟩
  | succ n ih =>
    obtain ⟨hi,hle',hlast'⟩ := next_round hle hlast
    have huser := h.user page (by omega)
    have howned : (pgt.entryAt page).ppn∈m0.heap := h.held.owned (by omega)
    rw [segLoop,findPaMut,findPa_user huser]
    dsimp only
    by_cases hover : off+i ≥ 2^32
    · rw [if_pos hover]
      refine .inr ⟨Nat.succ_ne_zero n,fun hin => ?_,.inr rfl⟩
      have := hin.1
      omega
    rw [if_neg hover]
    generalize hc : (if size-i < pageSize then size-i else pageSize)=count
    have hcount : count=min (size-i) pageSize := by
      rw [← hc]
      split
      · omega
      · omega
    obtain ⟨hread,hout⟩ | ⟨b,hread,hin⟩ := iread_cases f (off+i) count
    · rw [hread]
      refine .inr ⟨Nat.succ_ne_zero n,fun hin => hout ⟨?_,?_⟩,.inl ⟨m,rfl,h⟩⟩
      · have := hin.1
        omega
      · have := hin.2
        omega
    · rw [hread]
      dsimp only
      have hwrite : Built m0 pid k pgt (write m (pgt.entryAt page).ppn 0 b count) :=
        h.write rfl fun p hp => Function.update_of_ne (fun e => hp (by rw [e]; exact howned)) ..
      have hp' : page+1+n ≤ k := by omega
      have hrest := ih hwrite hle' hlast' hp'
      rw [Nat.succ_mul] at hrest
      obtain ⟨m',hr,hb,hfit⟩ | ⟨hn,hno,hr⟩ := hrest
      · refine .inl ⟨m',hr,hb,fun _ => ?_⟩
        by_cases hn : n=0
        · have hwhole : i+count=size := by
            rw [hn] at hle
            omega
          rw [SectionIn,Nat.add_assoc,hwhole] at hin
          exact hin
        · exact hfit hn
      · exact .inr ⟨Nat.succ_ne_zero n,hno,hr⟩

/-- The rounds of `load_seg` for a segment that starts with a page. -/
theorem loadSeg_eq (m : Mem) (f : File) (off : ℕ) {va : ℕ} (hva : va%pageSize=0)
    (hbound : k*pageSize+pageSize ≤ maxva) (hend : pageCount (va+size) ≤ k) :
    ∃ n,loadSeg pgt m va f off size=segLoop pgt f off size n m (va/pageSize*pageSize) 0 ∧
      va/pageSize*pageSize=va ∧ (n≠0 ↔ size≠0) ∧ size ≤ 0+n*pageSize ∧
      (n≠0 → 0+(n-1)*pageSize < size) ∧ va/pageSize+n ≤ k := by
  have hpage : va/pageSize*pageSize=va := by
    have := Nat.div_add_mod va pageSize
    rw [Nat.mul_comm] at this
    omega
  have hrounds : va/pageSize+(size+pageSize-1)/pageSize ≤ k := by
    rw [pageCount] at hend
    simp only [pageSize] at hva hend ⊢
    omega
  have hmax : ¬va > maxva := by
    simp only [pageSize,maxva] at hbound hpage hrounds ⊢
    omega
  refine ⟨(size+pageSize-1)/pageSize,?_,hpage,?_,?_,fun hn => ?_,hrounds⟩
  · rw [loadSeg,if_neg (not_not.mpr hva),if_neg hmax,hpage]
  · simp only [pageSize]
    omega
  · simp only [pageSize]
    omega
  · simp only [pageSize] at hn ⊢
    omega

/-- `load_seg` of a segment below the pages that are built. -/
theorem loadSeg_spec (f : File) (off : ℕ) (h : Built m0 pid k pgt m) {va : ℕ} (hva : va%pageSize=0)
    (hend : pageCount (va+size) ≤ k) :
    (∃ m',loadSeg pgt m va f off size=.ok (m',true) ∧ Built m0 pid k pgt m' ∧
      (size≠0 → SectionIn f off size)) ∨
    (size≠0 ∧ ¬SectionIn f off size ∧
      ((∃ m',loadSeg pgt m va f off size=.ok (m',false) ∧ Built m0 pid k pgt m') ∨
        loadSeg pgt m va f off size=.error .overflow)) := by
  obtain ⟨n,heq,-,hzero,hle,hlast,hrounds⟩ := loadSeg_eq m f off hva h.room.bound hend
  rw [heq,← hzero]
  exact segLoop_spec f off h hle hlast hrounds

/-- Segments only add to the size. -/
theorem imageSize_ge {size' : ℕ} (h : imageSize f n size off=some size') : size ≤ size' := by
  induction n generalizing size off with
  | zero =>
    cases h
    exact le_refl _
  | succ n ih =>
    rw [imageSize] at h
    split at h
    · cases h
    split at h
    · exact ih h
    split at h
    · exact (le_max_left ..).trans (ih h)
    · cases h

theorem pageCount_mono {a b : ℕ} (h : a ≤ b) : pageCount a ≤ pageCount b :=
  Nat.div_le_div_right (by omega)

/-- The loop over the program headers builds the page table as far as the segments go, or gives
everything back; it goes through all of them where they are as they should be and find room. -/
theorem loadSegments_spec (h : Built m0 pid (pageCount size) pgt m) :
    (∃ m' pgt' size',loadSegments f pid n pgt m size off=.ok (m',.ok (pgt',size')) ∧
      imageSize f n size off=some size' ∧ Built m0 pid (pageCount size') pgt' m') ∨
    ((∀ m' r,loadSegments f pid n pgt m size off=.ok (m',r) →
        (∃ e,r=.error e) ∧ Returned m0 m') ∧
      ∀ size',imageSize f n size off=some size' → ¬Room pid (pageCount size') m0.heap.length) := by
  induction n generalizing pgt m size off with
  | zero => exact .inl ⟨m,pgt,size,rfl,rfl,h⟩
  | succ n ih =>
    have habandon : ∀ {k : ℕ} {u : PageTable} {v : Mem} {size : ℕ} (e : LoadError),
        Held m0 pid k u v → pageCount size=k → ∀ m' r,
        abandon u v size pid e=.ok (m',(r : Except LoadError (PageTable×ℕ))) →
        (∃ e,r=.error e) ∧ Returned m0 m' := by
      intro k u v size e hheld hk m' r hr
      obtain ⟨w,hw,hback⟩ := abandon_held hheld h.room.fits hk e
      rw [hw] at hr
      cases hr
      exact ⟨⟨e,rfl⟩,hback⟩
    have hover : f.progHeader off≠none → ¬off+phSize ≥ 2^32 := by
      intro hne
      rw [File.progHeader] at hne
      obtain ⟨hread,-⟩ | ⟨b,-,hin⟩ := iread_cases f off phSize
      · rw [hread] at hne
        exact absurd rfl hne
      · have := hin.1
        omega
    rw [loadSegments,imageSize]
    cases hph : f.progHeader off with
    | none => exact .inr ⟨habandon _ h.held rfl,fun size' hs => by cases hs⟩
    | some ph =>
      have hfar := hover (by rw [hph]; exact Option.some_ne_none ph)
      dsimp only
      by_cases htype : ph.pgType≠elfProgLoad
      · rw [if_pos htype,if_pos htype,if_neg hfar]
        exact ih h
      rw [if_neg htype,if_neg htype]
      by_cases hmem : ph.memsz < ph.filesz
      · rw [if_pos hmem]
        refine .inr ⟨habandon _ h.held rfl,fun size' hs => ?_⟩
        rw [if_neg fun hfit => by have := hfit.1; omega] at hs
        cases hs
      rw [if_neg hmem]
      by_cases hwide : ph.vaddr+ph.memsz ≥ 2^64
      · rw [if_pos hwide]
        refine .inr ⟨(fun m' r hr => by cases hr),fun size' hs => ?_⟩
        rw [if_neg fun hfit => by have := hfit.2.1; omega] at hs
        cases hs
      rw [if_neg hwide]
      by_cases hal : ph.vaddr%pageSize≠0
      · rw [if_pos hal]
        refine .inr ⟨habandon _ h.held rfl,fun size' hs => ?_⟩
        rw [if_neg fun hfit => hal hfit.2.2.1] at hs
        cases hs
      rw [if_neg hal]
      obtain ⟨u,v,r,hr,⟨rfl,hb⟩ | ⟨rfl,hheld,hno⟩⟩ := h.alloc rfl (ph.vaddr+ph.memsz)
      · rw [hr]
        dsimp only
        have hend : pageCount (ph.vaddr+ph.filesz%2^32) ≤ pageCount (max size (ph.vaddr+ph.memsz)) := by
          have hmod := Nat.mod_le ph.filesz (2^32)
          have hmax := le_max_right size (ph.vaddr+ph.memsz)
          exact pageCount_mono (by omega)
        obtain ⟨w,hw,hbw,hfit⟩ | ⟨hne,hout,hw⟩ :=
          loadSeg_spec f (ph.off%2^32) hb (not_not.mp hal) hend
        · have hfits : ph.Fits f := ⟨by omega,by omega,not_not.mp hal,hfit⟩
          rw [hw,if_pos hfits]
          dsimp only
          rw [if_neg hfar]
          exact ih hbw
        · have hfits : ¬ph.Fits f := fun hf => hout (hf.2.2.2 hne)
          rw [if_neg hfits]
          refine .inr ⟨?_,fun size' hs => by cases hs⟩
          obtain ⟨w,hw,hbw⟩ | hw := hw
          · rw [hw]
            exact habandon _ hbw.held rfl
          · rw [hw]
            intro m' r hr
            cases hr
      · rw [hr]
        dsimp only
        refine .inr ⟨habandon _ hheld rfl,fun size' hs hroom => ?_⟩
        split at hs
        · exact hno (hroom.mono (pageCount_mono (imageSize_ge hs)))
        · cases hs

end Segments

section Image

variable {s : State} {m : Mem}

/-- The transaction has ended with memory changed. -/
def State.after (s : State) (m : Mem) : State := {s with mem := m}.logged .endOp

/-- What an error in the transaction leaves. -/
theorem restored_after (h : Returned s.mem m) : Restored s ((s.logged .beginOp).after m) := by
  refine ⟨rfl,rfl,h.heap,h.data,?_⟩
  show s.log++[_]++[_]=_
  rw [List.append_assoc]
  rfl

/-- The first half of `load` builds the page table with the segments where they find room, or
gives all memory back. -/
theorem loadImage_spec (s : State) (file : Option File) :
    (∃ f elf pgt size m,loadImage s file=.ok (s.after m,.ok (elf,pgt,size)) ∧
      file=some f ∧ f.elfHeader=some elf ∧ elf.magic=elfMagic ∧
      imageSize f elf.phnum 0 (elf.phoff%2^32)=some size ∧
      Built s.mem s.pid (pageCount size) pgt m) ∨
    ((∀ t r,loadImage s file=.ok (t,r) →
        (∃ e,r=.error e) ∧ ∃ m,t=s.after m ∧ Returned s.mem m) ∧
      ∀ size,¬StackMissing s file size) := by
  have hsame : ∀ e : LoadError,∀ t r,
      Except.ok (ε:=LoadPanic) (s.logged .endOp,
        (.error e : Except LoadError (ElfHeader×PageTable×ℕ)))=.ok (t,r) →
      (∃ e,r=.error e) ∧ ∃ m,t=s.after m ∧ Returned s.mem m := by
    intro e t r hr
    cases hr
    exact ⟨⟨e,rfl⟩,s.mem,rfl,⟨List.Perm.refl _,fun _ _ => rfl⟩⟩
  cases file with
  | none =>
    refine .inr ⟨hsame _,fun size hs => ?_⟩
    obtain ⟨f,elf,hf,-⟩ := hs
    cases hf
  | some f =>
    rw [loadImage]
    cases helf : f.elfHeader with
    | none =>
      refine .inr ⟨hsame _,fun size hs => ?_⟩
      obtain ⟨f',elf,hf,he,-⟩ := hs
      cases hf
      rw [helf] at he
      cases he
    | some elf =>
      dsimp only
      by_cases hmagic : elf.magic≠elfMagic
      · rw [if_pos hmagic]
        refine .inr ⟨hsame _,fun size hs => ?_⟩
        obtain ⟨f',elf',hf,he,hm,-⟩ := hs
        cases hf
        rw [helf] at he
        cases he
        exact hmagic hm
      rw [if_neg hmagic]
      have hmissing : (∀ size,imageSize f elf.phnum 0 (elf.phoff%2^32)=some size →
          ¬Room s.pid (pageCount size) s.mem.heap.length) → ∀ size,¬StackMissing s (some f) size := by
        intro hno size hs
        obtain ⟨f',elf',hf,he,-,hsize,hroom,-⟩ := hs
        cases hf
        rw [helf] at he
        cases he
        exact hno size hsize hroom
      cases halloc : allocProcPagetable s.mem s.trampolinePage s.data.trapframe s.data.up s.pid with
      | error why =>
        refine .inr ⟨(fun t r hr => by cases hr),hmissing fun size _ hroom => ?_⟩
        obtain ⟨m',r,hr,-⟩ | ⟨hno,-⟩ := allocProcPagetable_laid s.mem s.trampolinePage
          s.data.trapframe s.data.up s.pid
        · rw [halloc] at hr
          cases hr
        · exact hno hroom.fits
      | ok r =>
        obtain ⟨m,r⟩ := r
        obtain ⟨pgt,rfl,hb⟩ | ⟨rfl,hback,hno⟩ := allocProcPagetable_built halloc
        · have hzero : pageCount 0=0 := by decide
          rw [← hzero] at hb
          dsimp only
          obtain ⟨w,u,size,hr,hsize,hbw⟩ | ⟨hr,hno⟩ :=
            @loadSegments_spec s.mem m s.pid elf.phnum pgt f (elf.phoff%2^32) 0 hb
          · rw [hr]
            exact .inl ⟨f,elf,u,size,w,rfl,rfl,helf,not_not.mp hmagic,hsize,hbw⟩
          · refine .inr ⟨fun t r' ht => ?_,hmissing hno⟩
            cases hl : loadSegments f s.pid elf.phnum pgt m 0 (elf.phoff%2^32) with
            | error why =>
              rw [hl] at ht
              cases ht
            | ok r =>
              obtain ⟨w,r⟩ := r
              obtain ⟨⟨e,rfl⟩,hback⟩ := hr w r hl
              rw [hl] at ht
              cases ht
              exact ⟨⟨e,rfl⟩,w,rfl,hback⟩
        · refine .inr ⟨fun t r ht => ?_,hmissing fun size _ hroom => hno (hroom.mono (Nat.zero_le _))⟩
          cases ht
          exact ⟨⟨_,rfl⟩,m,rfl,hback⟩

end Image

section Stack

variable {m0 m m' : Mem} {pgt : PageTable} {pid n base sp size stackBase argc : ℕ}

/-- `copy_out` returns no error. -/
theorem copyOut_ne_err (pgt : PageTable) (m : Mem) (src : Buffer) (dst count : ℕ) :
    (copyOut pgt m src dst count).2≠.err := by
  intro h
  by_cases hc : count=0
  · rw [copyOut,if_pos hc] at h
    cases h
  by_cases hd : dst ≤ maxva
  · obtain ⟨k,r,hr,hreach⟩ := copyOut_spec pgt m src hc hd
    rw [hr] at h
    obtain ⟨rfl,-⟩ | ⟨rfl,-⟩ | ⟨rfl,-⟩ := hreach.stop
    · cases h
    · cases h
    · cases h
  · rw [copyOut,if_neg hc,if_pos (not_le.mp hd)] at h
    cases h

/-- The stack pointer moves down by the bytes of an argument, and to the next multiple of 16. -/
theorem alignSp_bound (h : sp%16=0) {count : ℕ} (hle : count ≤ sp) :
    alignSp (sp-count)%16=0 ∧ sp ≤ alignSp (sp-count)+(count+15)/16*16 := by
  rw [alignSp]
  omega

/-- The arguments fit on the stack. -/
theorem pushArgs_fit {argv : List (Option Arg)} {ustack : List ℕ} {rest : ℕ}
    {r : Except LoadError (ℕ×List ℕ)} (hsp : sp%16=0)
    (hroom : stackBase+argv.length*maxArgLen+rest ≤ sp)
    (hr : pushArgs pgt size pid stackBase argv m sp ustack=.ok (m',r)) :
    ∃ sp' ustack',r=.ok (sp',ustack') ∧ sp'%16=0 ∧ stackBase+rest ≤ sp' := by
  induction argv generalizing m sp ustack with
  | nil =>
    cases hr
    refine ⟨sp,ustack,rfl,hsp,?_⟩
    rw [List.length_nil] at hroom
    omega
  | cons arg argv ih =>
    rw [List.length_cons,Nat.succ_mul] at hroom
    cases arg with
    | none => cases hr
    | some arg =>
      rw [pushArgs] at hr
      cases hpos : arg.toList.findIdx? (· = 0) with
      | none =>
        rw [hpos] at hr
        cases hr
      | some maxPos =>
        have hlt : maxPos < maxArgLen := by
          have hfind := (List.findIdx?_eq_some_iff_findIdx_eq.mp hpos).1
          rwa [Vector.length_toList] at hfind
        have hcount : maxPos+1 ≤ sp := by
          simp only [maxArgLen] at hlt hroom
          omega
        obtain ⟨hal,hlow⟩ := alignSp_bound hsp hcount
        have hnext : stackBase+argv.length*maxArgLen+rest ≤ alignSp (sp-(maxPos+1)) := by
          simp only [maxArgLen] at hlt hroom ⊢
          omega
        rw [hpos] at hr
        dsimp only at hr
        rw [if_neg (not_lt.mpr hcount),if_neg (by omega)] at hr
        have hne := copyOut_ne_err pgt m arg.bytes (alignSp (sp-(maxPos+1))) (maxPos+1)
        generalize copyOut pgt m arg.bytes (alignSp (sp-(maxPos+1))) (maxPos+1)=c at hr hne
        obtain ⟨⟨u,v⟩,ret⟩ := c
        cases ret with
        | ok => exact ih hal hnext hr
        | err => exact absurd rfl hne
        | panic why => cases hr

/-- The array of addresses fits below them. -/
theorem pushUstack_fit {ustack : List ℕ} {r : Except LoadError ℕ} (hsp : sp%16=0)
    (hroom : stackBase+(argc+2)*wordSize ≤ sp)
    (hr : pushUstack pgt m size pid stackBase sp argc ustack=.ok (m',r)) : ∃ sp',r=.ok sp' := by
  have hcount : (argc+1)*wordSize ≤ sp := by
    simp only [wordSize] at hroom ⊢
    omega
  obtain ⟨-,hlow⟩ := alignSp_bound hsp hcount
  rw [pushUstack] at hr
  split at hr
  · cases hr
  rw [if_neg (not_lt.mpr hcount),if_neg (by simp only [wordSize] at hroom hlow ⊢; omega)] at hr
  have hne := copyOut_ne_err pgt m (ustackBytes ustack) (alignSp (sp-(argc+1)*wordSize))
    ((argc+1)*wordSize)
  generalize copyOut pgt m (ustackBytes ustack) (alignSp (sp-(argc+1)*wordSize))
    ((argc+1)*wordSize)=c at hr hne
  obtain ⟨⟨u,v⟩,ret⟩ := c
  cases ret with
  | ok =>
    cases hr
    exact ⟨_,rfl⟩
  | err => exact absurd rfl hne
  | panic why => cases hr

/-- The stacks take a number of pages. -/
theorem stackPages_eq : maxTasksPerProc*(userStackSize+pageSize)=stackPages*pageSize := by decide

theorem pageCount_pages (n : ℕ) : pageCount (n*pageSize)=n := by
  rw [pageCount]
  simp only [pageSize]
  omega

/-- The stack of the first task ends at a multiple of 16. -/
theorem stackTop_aligned (n : ℕ) : (ustackBottomByPos (n*pageSize) 1+userStackSize)%16=0 := by
  rw [ustackBottomByPos,userStackSize]
  simp only [pageSize]
  omega

/-- A stack has room for all arguments and their addresses. -/
theorem stack_room (h : argc < maxArg) : argc*maxArgLen+(argc+2)*wordSize ≤ userStackSize := by
  simp only [maxArg,maxArgLen,wordSize,userStackSize,pageSize] at h ⊢
  omega

/-- With the stacks there is no error any more. -/
theorem fillStack_fit {argv : List (Option Arg)} {r : Except LoadError (PageTable×ℕ×ℕ)}
    (hr : fillStack pgt m (n*pageSize) size pid argv=.ok (m',r)) : ∃ x,r=.ok x := by
  obtain ⟨w,-,hr⟩ := bind_eq_ok hr
  split at hr
  · cases hr
  · rename_i hargc
    have hfit := stack_room (not_le.mp hargc)
    have hroom : ustackBottomByPos (n*pageSize) 1+argv.length*maxArgLen+(argv.length+2)*wordSize ≤
        ustackBottomByPos (n*pageSize) 1+userStackSize := by
      rw [Nat.add_assoc]
      exact Nat.add_le_add_left hfit _
    split at hr
    · cases hr
    · rename_i m1 e hpush
      obtain ⟨sp',ustack',he,-⟩ := pushArgs_fit (stackTop_aligned n) hroom hpush
      cases he
    · rename_i m1 sp1 ustack hpush
      obtain ⟨sp',ustack',he,hsp',hroom'⟩ := pushArgs_fit (stackTop_aligned n) hroom hpush
      cases he
      split at hr
      · cases hr
      · rename_i m2 e hlast
        obtain ⟨sp2,he⟩ := pushUstack_fit hsp' hroom' hlast
        cases he
      · cases hr
        exact ⟨_,rfl⟩

/-- The second half of `load` fails where there is no room for the stacks, and nowhere else. -/
theorem loadStack_spec (h : Built m0 pid n pgt m) (argv : List (Option Arg)) :
    (Room pid (n+stackPages) m0.heap.length ∧
      ∀ m' r,loadStack pgt m (n*pageSize) pid argv=.ok (m',r) → ∃ x,r=.ok x) ∨
    (¬Room pid (n+stackPages) m0.heap.length ∧
      ∃ m',loadStack pgt m (n*pageSize) pid argv=.ok (m',.error .noStack) ∧ Returned m0 m') := by
  have hbound := h.room.bound
  have hover : ¬(n+stackPages)*pageSize ≥ 2^64 := by
    have hstack : stackPages*pageSize < 2^32 := by decide
    have hmaxva : maxva < 2^39 := by decide
    rw [Nat.add_mul]
    omega
  have hbase := pageCount_pages n
  have hmax : max (n*pageSize) ((n+stackPages)*pageSize)=(n+stackPages)*pageSize :=
    max_eq_right (Nat.mul_le_mul_right _ (Nat.le_add_right ..))
  obtain ⟨u,v,r,hr,hres⟩ := h.alloc hbase ((n+stackPages)*pageSize)
  rw [hmax,pageCount_pages] at hres
  rw [loadStack,stackPages_eq,← Nat.add_mul,if_neg hover,hr]
  obtain ⟨rfl,hb⟩ | ⟨rfl,hheld,hno⟩ := hres
  · exact .inl ⟨hb.room,fun m' r ht => fillStack_fit ht⟩
  · obtain ⟨w,hw,hback⟩ := abandon_held hheld h.room.fits hbase .noStack
    exact .inr ⟨hno,w,hw,hback⟩

end Stack

section Whole

variable {s : State} {elf : ElfHeader} {m0 m : Mem} {pgt : PageTable} {size : ℕ}

/-- After its transaction `load` returns an error where there is no room for the stacks, and nowhere
else. -/
theorem loadRest_spec (hb : Built m0 s.pid (pageCount size) pgt s.mem) (path : List UInt8)
    (argv : List (Option Arg)) :
    (Room s.pid (pageCount size+stackPages) m0.heap.length ∧
      ∀ t r,loadRest s elf pgt size path argv=.ok (t,r) → ∃ x,r=.ok x) ∨
    (¬Room s.pid (pageCount size+stackPages) m0.heap.length ∧
      ∃ m,loadRest s elf pgt size path argv=
          .ok ({s.setUstackBase (pgRoundUp size) with mem := m},.error .noStack) ∧
        Returned m0 m) := by
  have hstack := loadStack_spec hb argv
  rw [← pgRoundUp_pageCount] at hstack
  obtain ⟨hroom,hok⟩ | ⟨hno,m,hr,hback⟩ := hstack
  · refine .inl ⟨hroom,fun t r ht => ?_⟩
    obtain ⟨⟨m,x⟩,hr,ht⟩ := bind_eq_ok ht
    obtain ⟨y,rfl⟩ := hok m x hr
    obtain ⟨u,-,ht⟩ := bind_eq_ok ht
    cases ht
    exact ⟨_,rfl⟩
  · refine .inr ⟨hno,m,?_,hback⟩
    rw [loadRest,hr]
    rfl

end Whole

/-- A failed `load` leaves the process as it was, gives all pages of the new page table back and
ends its transaction once, unless there is room for the segments of the program but not for the
stacks behind them: then the process has another place for its stacks than before. -/
theorem failed_load_restores_iff (namei : List UInt8 → Option File) (s : State) (path : List UInt8)
    (argv : List (Option Arg)) :
    (∀ t e,load namei s path argv=.ok (t,.error e) → Restored s t) ↔
      ∀ size,StackMissing s (namei path) size → pgRoundUp size=s.data.ustackBase := by
  obtain ⟨f,elf,pgt,size,m,himage,hfile,helf,hmagic,hsize,hb⟩ | ⟨herr,hno⟩ :=
    loadImage_spec (s.logged .beginOp) (namei path)
  · have hload : load namei s path argv=loadRest ((s.logged .beginOp).after m) elf pgt size path
        argv := by
      rw [load,himage,ok_bind]
    have hroom : Room s.pid (pageCount size) s.mem.heap.length := hb.room
    have hrest : ∀ size',StackMissing s (namei path) size' → size'=size ∧
        ¬Room s.pid (pageCount size+stackPages) s.mem.heap.length := by
      intro size' hs
      obtain ⟨f',elf',hf,he,-,hsize',-,hfull⟩ := hs
      rw [hfile] at hf
      cases hf
      rw [helf] at he
      cases he
      rw [hsize] at hsize'
      cases hsize'
      exact ⟨rfl,hfull⟩
    rw [hload]
    obtain ⟨hall,hok⟩ | ⟨hfull,m',hr,hback⟩ :=
      @loadRest_spec ((s.logged .beginOp).after m) elf s.mem pgt size hb path argv
    · refine iff_of_true (fun t e ht => ?_) fun size' hs => absurd hall (hrest size' hs).2
      obtain ⟨x,hx⟩ := hok t _ ht
      cases hx
    · constructor
      · intro h size' hs
        rw [(hrest size' hs).1]
        exact congrArg ProcData.ustackBase (h _ _ hr).data
      · intro h t e ht
        have hsame := h size ⟨f,elf,hfile,helf,hmagic,hsize,hroom,hfull⟩
        rw [hr] at ht
        cases ht
        have hrest := restored_after hback
        refine ⟨?_,rfl,hback.heap,hback.data,hrest.log⟩
        show {s.data with ustackBase := pgRoundUp size}=s.data
        rw [hsame]
  · refine iff_of_true (fun t e ht => ?_) fun size hs => absurd hs (hno size)
    obtain ⟨⟨u,r⟩,hr,ht⟩ := bind_eq_ok ht
    obtain ⟨⟨e',rfl⟩,m,rfl,hback⟩ := herr u r hr
    cases ht
    exact restored_after hback

/-- A program with one segment of one byte, which is not in the file. -/
def tinyProgram : File where
  size := elfSize+phSize
  byte :=
    let header := putLE (putLE (putLE (fun _ => 0) 0 4 elfMagic) 32 8 elfSize) 56 2 1
    putLE (putLE header elfSize 4 elfProgLoad) (elfSize+40) 8 1

/-- The first process, as `user_init` makes it, and free pages for the tables and the segment of a
program only. -/
def crowded : Option State :=
  match allocProc ⟨[10,11,12,13,14,15,16,17,18],fun _ _ => 0⟩ 9 1 with
  | .ok (m,some p) =>
    match userInit p m with
    | .ok (m,p) => some ⟨⟨[1,2,3,4,5,6],m.data⟩,0,true,⟨noStacks,0⟩,⟨0,[]⟩,[],9,1,
        ⟨p.pgt,p.size,0,fun _ => 0,p.trapframe,⟨0,0,0⟩,p.up,[]⟩⟩
    | _ => none
  | _ => none

/-- Where the stacks begin before and after an error. -/
def basesAround (namei : List UInt8 → Option File) (s : Option State) : Option (ℕ×ℕ) :=
  match s with
  | some s =>
    match load namei s [47,97] [] with
    | .ok (t,.error .noStack) => some (s.data.ustackBase,t.data.ustackBase)
    | _ => none
  | none => none

theorem exists_of_bases {namei : List UInt8 → Option File} {s : Option State} {a b : ℕ}
    (h : basesAround namei s=some (a,b)) (hne : a≠b) :
    ∃ s t e,load namei s [47,97] []=.ok (t,.error e) ∧ ¬Restored s t := by
  rw [basesAround.eq_def] at h
  split at h
  · rename_i s
    split at h
    · rename_i t hload
      cases h
      refine ⟨s,t,_,hload,fun hr => hne ?_⟩
      rw [hr.data]
    · cases h
  · cases h

/-- There is no page for the stacks, and they begin elsewhere after the error. -/
theorem stack_base_lost : ∃ namei s t e,load namei s [47,97] []=.ok (t,.error e) ∧ ¬Restored s t :=
  ⟨fun _ => some tinyProgram,exists_of_bases (s:=crowded) (a:=0) (b:=4096) (by decide +kernel)
    (by decide)⟩

end Xv6Rust.ElfLoad
