import Xv6Rust.Runs

/-!
# The life of pipes

`Pipe::create`, `Pipe::close`, `Drop for Pipe` and `Drop for File` of `fs/file`, under `sys_pipe`,
`sys_dup`, `sys_close`, `fork` and `exit`. An `Arc` is a name with a strong count. What a process
still has to drop stands in a list, since a drop runs through nested `Drop`s and other processes may
act between two of them. Files that are no pipes play no part.
-/

namespace Xv6Rust.PipeLife

open Runs

/-- `NPROC`. -/
def nproc : ℕ := 512

/-- `NFILE`. -/
def nfile : ℕ := 16

/-- `Pipe` in its `Arc`: the flags of its ends. -/
structure Pipe where
  /-- The read end is open. -/
  readOpen : Bool
  /-- The write end is open. -/
  writeOpen : Bool
  /-- Strong count. -/
  refs : ℕ
  deriving DecidableEq

/-- An end is open. -/
def Pipe.isOpen (pipe : Pipe) (isWrite : Bool) : Bool :=
  if isWrite=true then pipe.writeOpen else pipe.readOpen

/-- `File` with a pipe, in its `Arc`. -/
structure File where
  /-- Its pipe. -/
  pipe : ℕ
  /-- `readable`. -/
  readable : Bool
  /-- `writable`. -/
  writable : Bool
  /-- Strong count. -/
  refs : ℕ
  deriving DecidableEq

/-- What is still to be done of a drop. -/
inductive Drop where
  /-- Drop an `Arc<File>`. -/
  | file (f : ℕ)
  /-- `pipe.close(is_write)` in `Drop for File`. -/
  | close (q : ℕ) (isWrite : Bool)
  /-- Drop an `Arc<Pipe>`. -/
  | pipe (q : ℕ)
  deriving DecidableEq

/-- What a process holds. -/
structure Process where
  /-- `open_files`. -/
  openFiles : List (Option ℕ)
  /-- What it drops. -/
  drops : List Drop

/-- Pipes, their files, and the processes. -/
structure System where
  /-- Pipes in memory. -/
  pipes : ℕ → Option Pipe
  /-- Files in memory. -/
  files : ℕ → Option File
  /-- Processes. -/
  procs : ℕ → Process
  /-- The next name of a pipe. -/
  nextPipe : ℕ
  /-- The next name of a file. -/
  nextFile : ℕ
  /-- How often an end was marked closed. -/
  closes : ℕ → Bool → ℕ

/-- The allocations of `create` that succeed. -/
inductive Allocs where
  /-- None. -/
  | noPipe
  /-- The pipe. -/
  | noReadFile
  /-- The pipe and the file to read from. -/
  | noWriteFile
  /-- All three. -/
  | all
  deriving DecidableEq

/-- `create`: what it leaves to be dropped, and the two files it returns. -/
def create (s : System) : Allocs → System×List Drop×Option (ℕ×ℕ)
  | .noPipe => (s,[],none)
  | .noReadFile =>
    -- the file that is not allocated is dropped, and after it the local reference
    ({s with
        pipes := Function.update s.pipes s.nextPipe (some ⟨true,true,2⟩)
        nextPipe := s.nextPipe+1},
      [.close s.nextPipe false,.pipe s.nextPipe,.pipe s.nextPipe],none)
  | .noWriteFile =>
    ({s with
        pipes := Function.update s.pipes s.nextPipe (some ⟨true,true,3⟩)
        nextPipe := s.nextPipe+1
        files := Function.update s.files s.nextFile (some ⟨s.nextPipe,true,false,1⟩)
        nextFile := s.nextFile+1},
      [.close s.nextPipe true,.pipe s.nextPipe,.file s.nextFile,.pipe s.nextPipe],none)
  | .all =>
    ({s with
        pipes := Function.update s.pipes s.nextPipe (some ⟨true,true,3⟩)
        nextPipe := s.nextPipe+1
        files := Function.update
          (Function.update s.files s.nextFile (some ⟨s.nextPipe,true,false,1⟩))
          (s.nextFile+1) (some ⟨s.nextPipe,false,true,1⟩)
        nextFile := s.nextFile+2},
      [.pipe s.nextPipe],some (s.nextFile,s.nextFile+1))

/-- Change a process. -/
def System.setProc (s : System) (p : ℕ) (proc : Process) : System :=
  {s with procs := Function.update s.procs p proc}

/-- `sys_pipe` after `alloc_fd2`: the descriptors are copied to the user or not. -/
def sysPipe (s : System) (p fdRead fdWrite : ℕ) (allocs : Allocs) (copied : Bool) : System :=
  let r := create s allocs
  let proc := s.procs p
  match r.2.2 with
  | none => r.1.setProc p {proc with drops := r.2.1}
  | some (readFile,writeFile) =>
    if copied=true then
      r.1.setProc p ⟨(proc.openFiles.set fdRead (some readFile)).set fdWrite (some writeFile),r.2.1⟩
    else r.1.setProc p {proc with drops := r.2.1++[.file writeFile,.file readFile]}

/-- Ways to stop the kernel. -/
inductive Panic where
  /-- The assertion of `Drop for Pipe`. -/
  | assertion
  /-- What is used is not in memory. -/
  | dangling
  deriving DecidableEq

/-- The next part of a drop. -/
def dropHead (s : System) (p : ℕ) : Outcome Panic System :=
  let proc := s.procs p
  match proc.drops with
  | [] => .blocked
  | .file f::rest =>
    match s.files f with
    | none => .fault .dangling
    | some file =>
      if file.refs=1 then
        .next ({s with files := Function.update s.files f none}.setProc p
          {proc with drops := .close file.pipe file.writable::.pipe file.pipe::rest})
      else
        .next ({s with
            files := Function.update s.files f (some {file with refs := file.refs-1})}.setProc p
          {proc with drops := rest})
  | .close q isWrite::rest =>
    match s.pipes q with
    | none => .fault .dangling
    | some pipe =>
      let pipe :=
        if isWrite=true then {pipe with writeOpen := false} else {pipe with readOpen := false}
      .next ({s with
        pipes := Function.update s.pipes q (some pipe)
        closes := Function.update s.closes q
          (Function.update (s.closes q) isWrite (s.closes q isWrite+1))}.setProc p
        {proc with drops := rest})
  | .pipe q::rest =>
    match s.pipes q with
    | none => .fault .dangling
    | some pipe =>
      if pipe.refs=1 then
        if pipe.readOpen≠pipe.writeOpen then .fault .assertion
        else
          .next ({s with pipes := Function.update s.pipes q none}.setProc p
            {proc with drops := rest})
      else
        .next ({s with
            pipes := Function.update s.pipes q (some {pipe with refs := pipe.refs-1})}.setProc p
          {proc with drops := rest})

/-- What processes do. -/
inductive Action where
  /-- `sys_pipe`. -/
  | sysPipe (p fdRead fdWrite : ℕ) (allocs : Allocs) (copied : Bool)
  /-- `sys_dup`. -/
  | dup (p old new : ℕ)
  /-- `fork` clones one of the open files for its child. -/
  | forkFile (p child fd : ℕ)
  /-- `sys_close`, or one round of `close_files`. -/
  | close (p fd : ℕ)
  /-- The process goes on with its drops. -/
  | drop (p : ℕ)

/-- A descriptor is free. -/
def Free (proc : Process) (fd : ℕ) : Prop := proc.openFiles[fd]?=some none

instance (proc : Process) (fd : ℕ) : Decidable (Free proc fd) := inferInstanceAs (Decidable (_=_))

/-- `Arc::clone` of an open file into a free descriptor. -/
def share (s : System) (p fd child new : ℕ) : Outcome Panic System :=
  match (s.procs p).openFiles[fd]? with
  | some (some f) =>
    match s.files f with
    | none => .fault .dangling
    | some file =>
      .next ({s with
          files := Function.update s.files f (some {file with refs := file.refs+1})}.setProc child
        {s.procs child with openFiles := (s.procs child).openFiles.set new (some f)})
  | _ => .blocked

/-- A step. A process takes no step before what it drops is dropped. -/
def step (s : System) : Action → Outcome Panic System
  | .sysPipe p fdRead fdWrite allocs copied =>
    if p<nproc ∧ (s.procs p).drops=[] ∧ Free (s.procs p) fdRead ∧ Free (s.procs p) fdWrite ∧
        fdRead<fdWrite then .next (sysPipe s p fdRead fdWrite allocs copied)
    else .blocked
  | .dup p old new =>
    if p<nproc ∧ (s.procs p).drops=[] ∧ Free (s.procs p) new then share s p old p new else .blocked
  | .forkFile p child fd =>
    if p<nproc ∧ (s.procs p).drops=[] ∧ child<nproc ∧ Free (s.procs child) fd then
      share s p fd child fd
    else .blocked
  | .close p fd =>
    if p<nproc ∧ (s.procs p).drops=[] then
      match (s.procs p).openFiles[fd]? with
      | some (some f) => .next (s.setProc p ⟨(s.procs p).openFiles.set fd none,[.file f]⟩)
      | _ => .blocked
    else .blocked
  | .drop p => if p<nproc then dropHead s p else .blocked

/-- No pipes, and processes without open files. -/
def start : System :=
  ⟨fun _ => none,fun _ => none,fun _ => ⟨List.replicate nfile none,[]⟩,0,0,fun _ _ => 0⟩

/-- The file to read from is allocated when the pipe is. -/
def ReadFileAllocated (_ : System) : Action → Prop
  | .sysPipe _ _ _ allocs _ => allocs≠.noReadFile
  | _ => True

instance (s : System) : DecidablePred (ReadFileAllocated s)
  | .sysPipe _ _ _ allocs _ => inferInstanceAs (Decidable (allocs≠.noReadFile))
  | .dup _ _ _ => inferInstanceAs (Decidable True)
  | .forkFile _ _ _ => inferInstanceAs (Decidable True)
  | .close _ _ => inferInstanceAs (Decidable True)
  | .drop _ => inferInstanceAs (Decidable True)

/-- A process holds or drops a file of an end, or is about to mark the end closed. -/
def Held (s : System) (q : ℕ) (isWrite : Bool) : Prop :=
  ∃ p<nproc,.close q isWrite∈(s.procs p).drops ∨
    ∃ f file,s.files f=some file ∧ file.pipe=q ∧ file.writable=isWrite ∧
      (some f∈(s.procs p).openFiles ∨ .file f∈(s.procs p).drops)

/-- The ends of the pipes are marked closed when they should be. -/
structure EndsRight (s : System) : Prop where
  /-- An end of a pipe in memory is open as long as it is held. -/
  isOpen : ∀ q pipe isWrite,s.pipes q=some pipe → (pipe.isOpen isWrite=true ↔ Held s q isWrite)
  /-- It is marked closed once, when it no longer is. -/
  once : ∀ q isWrite,q < s.nextPipe →
    (Held s q isWrite ∧ s.closes q isWrite=0) ∨ (¬Held s q isWrite ∧ s.closes q isWrite=1)

section Counting

variable {s t : System} {p q f fd : ℕ} {isWrite : Bool}

/-- A number for each process, over all processes. -/
def total (g : Process → ℕ) (s : System) : ℕ := ∑ p∈Finset.range nproc,g (s.procs p)

/-- References of a process to a file. -/
def Process.fileCount (proc : Process) (f : ℕ) : ℕ :=
  proc.openFiles.count (some f)+proc.drops.count (.file f)

/-- References to a file. -/
def fileHandles (s : System) (f : ℕ) : ℕ := total (fun proc => proc.fileCount f) s

/-- How often something is still to be done. -/
def pending (s : System) (d : Drop) : ℕ := total (fun proc => proc.drops.count d) s

/-- The file is that of an end. -/
def endOf (q : ℕ) (isWrite : Bool) : Option File → ℕ
  | none => 0
  | some file => if file.pipe=q ∧ file.writable=isWrite then 1 else 0

/-- Files of an end. -/
def ends (s : System) (q : ℕ) (isWrite : Bool) : ℕ :=
  ∑ f∈Finset.range s.nextFile,endOf q isWrite (s.files f)

/-- A sum after one of its terms has changed. -/
theorem sum_change (g g' : ℕ → ℕ) {n p : ℕ} (hp : p<n) (h : ∀ i,i≠p → g' i=g i) :
    ∑ i∈Finset.range n,g' i+g p=∑ i∈Finset.range n,g i+g' p := by
  have hmem := Finset.mem_range.mpr hp
  have hrest : ∑ i∈(Finset.range n).erase p,g' i=∑ i∈(Finset.range n).erase p,g i :=
    Finset.sum_congr rfl fun i hi => h i (Finset.ne_of_mem_erase hi)
  rw [← Finset.add_sum_erase _ g' hmem,← Finset.add_sum_erase _ g hmem,hrest]
  omega

/-- Only the process has changed what it holds. -/
structure Moves (s t : System) (p : ℕ) : Prop where
  /-- It is one of the processes. -/
  slot : p<nproc
  /-- The other processes. -/
  others : ∀ i,i≠p → t.procs i=s.procs i

/-- A process changes what it holds. -/
theorem Moves.total (m : Moves s t p) (g : Process → ℕ) :
    total g t+g (s.procs p)=total g s+g (t.procs p) :=
  sum_change (fun i => g (s.procs i)) (fun i => g (t.procs i)) m.slot
    fun i hi => congrArg g (m.others i hi)

theorem Moves.fileHandles (m : Moves s t p) (f : ℕ) :
    fileHandles t f+(s.procs p).fileCount f=fileHandles s f+(t.procs p).fileCount f :=
  m.total fun proc => proc.fileCount f

theorem Moves.pending (m : Moves s t p) (d : Drop) :
    pending t d+(s.procs p).drops.count d=pending s d+(t.procs p).drops.count d :=
  m.total fun proc => proc.drops.count d

theorem le_total (g : Process → ℕ) (hp : p<nproc) : g (s.procs p) ≤ total g s :=
  Finset.single_le_sum (f:=fun p => g (s.procs p)) (fun _ _ => Nat.zero_le _)
    (Finset.mem_range.mpr hp)

/-- A file changes. -/
theorem ends_change (q : ℕ) (isWrite : Bool) (hf : f < s.nextFile) (hnext : t.nextFile=s.nextFile)
    (hother : ∀ i,i≠f → t.files i=s.files i) :
    ends t q isWrite+endOf q isWrite (s.files f)=ends s q isWrite+endOf q isWrite (t.files f) := by
  unfold ends
  rw [hnext]
  exact sum_change (fun i => endOf q isWrite (s.files i)) (fun i => endOf q isWrite (t.files i)) hf
    fun i hi => congrArg (endOf q isWrite) (hother i hi)

theorem ends_same (hnext : t.nextFile=s.nextFile) (hfiles : t.files=s.files) :
    ends t q isWrite=ends s q isWrite := by
  unfold ends
  rw [hnext,hfiles]

/-- A new file. -/
theorem ends_create {file : File} (hnext : t.nextFile=s.nextFile+1)
    (hfiles : t.files=Function.update s.files s.nextFile (some file)) (q : ℕ) (isWrite : Bool) :
    ends t q isWrite=ends s q isWrite+endOf q isWrite (some file) := by
  unfold ends
  rw [hnext,Finset.sum_range_succ,hfiles,Function.update_self]
  congr 1
  refine Finset.sum_congr rfl fun i hi => ?_
  rw [Function.update_of_ne (Finset.mem_range.mp hi).ne]

-- the sums are compared through the lemmas above only
attribute [irreducible] total ends

/-- A free descriptor is used. -/
theorem count_set_free {l : List (Option ℕ)} {g : ℕ} (h : l[fd]?=some none) :
    (l.set fd (some g)).count (some f)=l.count (some f)+if f=g then 1 else 0 := by
  obtain ⟨hlt,hget⟩ := List.getElem?_eq_some_iff.mp h
  rw [List.count_set hlt,hget]
  by_cases hfg : f=g
  · rw [hfg]
    simp
  · rw [if_neg hfg,if_neg (by simp),if_neg (by simpa using Ne.symm hfg)]
    rfl

/-- A descriptor is given up. -/
theorem count_set_none {l : List (Option ℕ)} {g : ℕ} (h : l[fd]?=some (some g)) :
    (l.set fd none).count (some f)+(if f=g then 1 else 0)=l.count (some f) := by
  obtain ⟨hlt,hget⟩ := List.getElem?_eq_some_iff.mp h
  have hmem : some g∈l := List.mem_of_getElem? h
  rw [List.count_set hlt,hget]
  by_cases hfg : f=g
  · have hpos := List.count_pos_iff.mpr hmem
    rw [hfg]
    simp
    omega
  · rw [if_neg hfg,if_neg (by simpa using Ne.symm hfg),if_neg (by simp)]
    rfl

end Counting

/-- An end is marked closed just before its reference to the pipe is dropped. -/
def Paired : List Drop → Prop
  | [] => True
  | .close q _::.pipe q'::rest => q'=q ∧ Paired rest
  | .close _ _::_ => False
  | .file _::rest => Paired rest
  | .pipe _::rest => Paired rest

theorem Paired.count_le {l : List Drop} (h : Paired l) (q : ℕ) (isWrite : Bool) :
    l.count (.close q isWrite) ≤ l.count (.pipe q) := by
  fun_induction Paired l with
  | case1 => exact le_refl _
  | case2 q' w q'' rest ih =>
    obtain ⟨rfl,hrest⟩ := h
    have hle := ih hrest
    simp only [List.count_cons,beq_iff_eq,Drop.close.injEq,Drop.pipe.injEq,reduceCtorEq,if_false,
      Nat.add_zero]
    split
    · rename_i hq
      rw [if_pos hq.1]
      omega
    · omega
  | case3 => exact absurd h id
  | case4 f rest ih =>
    have hle := ih h
    simpa using hle
  | case5 q' rest ih =>
    have hle := ih h
    simp only [List.count_cons,beq_iff_eq,Drop.pipe.injEq,reduceCtorEq,if_false,Nat.add_zero]
    omega

/-- The counts of files are right. -/
structure FilesSound (s : System) : Prop where
  /-- The count of a file is that of its references. -/
  refs : ∀ f,fileHandles s f=(s.files f).elim 0 File.refs
  /-- A file in memory has some. -/
  held : ∀ f file,s.files f=some file → 0<file.refs
  /-- Names that are not used yet. -/
  fresh : ∀ f,s.nextFile≤f → s.files f=none

/-- References to a pipe. -/
def pipeHandles (s : System) (q : ℕ) : ℕ := ends s q false+ends s q true+pending s (.pipe q)

/-- Files of an end, and files of it that are about to mark it closed. -/
def endHandles (s : System) (q : ℕ) (w : Bool) : ℕ := ends s q w+pending s (.close q w)

/-- The counts and the flags of pipes are right. -/
structure PipesSound (s : System) : Prop where
  /-- The count of a pipe is that of its references. -/
  refs : ∀ q,pipeHandles s q=(s.pipes q).elim 0 Pipe.refs
  /-- A pipe in memory has some. -/
  held : ∀ q pipe,s.pipes q=some pipe → 0<pipe.refs
  /-- Names that are not used yet. -/
  fresh : ∀ q,s.nextPipe≤q → s.pipes q=none ∧ ∀ w,s.closes q w=0
  /-- An end has one file, or is being closed, or was. -/
  once : ∀ q w,q < s.nextPipe → s.closes q w+endHandles s q w=1
  /-- What the flags say. -/
  flags : ∀ q pipe w,s.pipes q=some pipe → (pipe.isOpen w=true ↔ s.closes q w=0)

/-- Files, pipes and what is still to be dropped fit together. -/
structure Sound (s : System) : Prop where
  /-- Files. -/
  files : FilesSound s
  /-- Pipes. -/
  pipes : PipesSound s
  /-- The order of what is dropped. -/
  paired : ∀ p,Paired (s.procs p).drops

section Invariant

variable {s t : System} {p q f fd : ℕ} {w : Bool} {rest : List Drop}

theorem start_sound : Sound start := by
  have htotal : ∀ g : Process → ℕ,g ⟨List.replicate nfile none,[]⟩=0 → total g start=0 :=
    fun g hg => by
      unfold total
      exact Finset.sum_eq_zero fun _ _ => hg
  refine ⟨⟨fun f => htotal _ ?_,(fun f file h => by cases h),fun _ _ => rfl⟩,
    ⟨fun q => ?_,(fun q pipe h => by cases h),fun _ _ => ⟨rfl,fun _ => rfl⟩,
      (fun q w h => absurd h (Nat.not_lt_zero q)),(fun q pipe w h => by cases h)⟩,fun _ => trivial⟩
  · show List.count (some f) (List.replicate nfile none)+0=0
    rw [List.count_replicate,if_neg (by simp)]
  · have hpending : pending start (.pipe q)=0 := by
      unfold pending
      exact htotal _ rfl
    rw [pipeHandles,hpending]
    unfold ends
    rfl

/-- Ends are being closed only where pipes are still to be dropped. -/
theorem Sound.pending_le (h : Sound s) (q : ℕ) (w : Bool) :
    pending s (.close q w) ≤ pending s (.pipe q) := by
  unfold pending total
  exact Finset.sum_le_sum fun p _ => (h.paired p).count_le q w

/-- A reference to a file is one to a file in memory. -/
theorem FilesSound.some_of_count (h : FilesSound s) (hp : p<nproc)
    (hc : 0<(s.procs p).fileCount f) : ∃ file,s.files f=some file := by
  have hle : (s.procs p).fileCount f ≤ fileHandles s f := le_total (fun proc => proc.fileCount f) hp
  have hrefs := h.refs f
  cases hf : s.files f with
  | none =>
    rw [hf] at hrefs
    change fileHandles s f=0 at hrefs
    omega
  | some file => exact ⟨file,rfl⟩

/-- A reference to a pipe is one to a pipe in memory. -/
theorem PipesSound.some_of_count (h : PipesSound s) (hp : p<nproc)
    (hc : 0<(s.procs p).drops.count (.pipe q)) :
    ∃ pipe,s.pipes q=some pipe ∧ 0<pending s (.pipe q) := by
  have hle : (s.procs p).drops.count (.pipe q) ≤ pending s (.pipe q) :=
    le_total (fun proc => proc.drops.count (.pipe q)) hp
  have hrefs := h.refs q
  rw [pipeHandles] at hrefs
  cases hq : s.pipes q with
  | none =>
    rw [hq] at hrefs
    change _=0 at hrefs
    omega
  | some pipe => exact ⟨pipe,rfl,by omega⟩

theorem FilesSound.lt (h : FilesSound s) {file : File} (hf : s.files f=some file) :
    f < s.nextFile := by
  by_contra hge
  rw [h.fresh f (not_lt.mp hge)] at hf
  cases hf

theorem PipesSound.lt (h : PipesSound s) {pipe : Pipe} (hq : s.pipes q=some pipe) :
    q < s.nextPipe := by
  by_contra hge
  rw [(h.fresh q (not_lt.mp hge)).1] at hq
  cases hq

/-- A process that takes up what it held leaves the lists of the others alone. -/
theorem Sound.paired_moves (h : Sound s) (m : Moves s t p) (hproc : Paired (t.procs p).drops)
    (i : ℕ) : Paired (t.procs i).drops := by
  by_cases hi : i=p
  · rwa [hi]
  · rw [m.others i hi]
    exact h.paired i

/-- No file changes. -/
theorem FilesSound.same (h : FilesSound s) (hfiles : t.files=s.files)
    (hnext : t.nextFile=s.nextFile) (hrefs : ∀ f,fileHandles t f=fileHandles s f) :
    FilesSound t := by
  refine ⟨fun f => ?_,?_,?_⟩
  · rw [hfiles,hrefs f]
    exact h.refs f
  · rw [hfiles]
    exact h.held
  · rw [hfiles,hnext]
    exact h.fresh

/-- One file changes. -/
theorem FilesSound.update (h : FilesSound s) {c : Option File} (hf : f < s.nextFile)
    (hfiles : t.files=Function.update s.files f c) (hnext : t.nextFile=s.nextFile)
    (hself : fileHandles t f=c.elim 0 File.refs) (hpos : ∀ file,c=some file → 0<file.refs)
    (hrefs : ∀ f',f'≠f → fileHandles t f'=fileHandles s f') : FilesSound t := by
  constructor
  · intro f'
    rw [hfiles]
    by_cases hff : f'=f
    · rwa [hff,Function.update_self]
    · rw [Function.update_of_ne hff,hrefs f' hff]
      exact h.refs f'
  · intro f' file hf'
    rw [hfiles] at hf'
    by_cases hff : f'=f
    · rw [hff,Function.update_self] at hf'
      exact hpos file hf'
    · rw [Function.update_of_ne hff] at hf'
      exact h.held f' file hf'
  · intro f' hf'
    rw [hnext] at hf'
    rw [hfiles,Function.update_of_ne (by omega)]
    exact h.fresh f' hf'

/-- No pipe changes. -/
theorem PipesSound.same (h : PipesSound s) (hpipes : t.pipes=s.pipes)
    (hnext : t.nextPipe=s.nextPipe) (hcloses : t.closes=s.closes)
    (hrefs : ∀ q,pipeHandles t q=pipeHandles s q)
    (hends : ∀ q w,endHandles t q w=endHandles s q w) : PipesSound t := by
  refine ⟨fun q => ?_,?_,?_,fun q w hq => ?_,?_⟩
  · rw [hpipes,hrefs q]
    exact h.refs q
  · rw [hpipes]
    exact h.held
  · rw [hpipes,hnext,hcloses]
    exact h.fresh
  · rw [hnext] at hq
    rw [hcloses,hends q w]
    exact h.once q w hq
  · rw [hpipes,hcloses]
    exact h.flags

/-- One pipe changes. -/
theorem PipesSound.update (h : PipesSound s) {c : Option Pipe} (hq : q < s.nextPipe)
    (hpipes : t.pipes=Function.update s.pipes q c) (hnext : t.nextPipe=s.nextPipe)
    (hcloses : ∀ q',q'≠q → t.closes q'=s.closes q') (hself : pipeHandles t q=c.elim 0 Pipe.refs)
    (hpos : ∀ pipe,c=some pipe → 0<pipe.refs)
    (hflags : ∀ pipe w,c=some pipe → (pipe.isOpen w=true ↔ t.closes q w=0))
    (hrefs : ∀ q',q'≠q → pipeHandles t q'=pipeHandles s q')
    (hends : ∀ q' w,t.closes q' w+endHandles t q' w=s.closes q' w+endHandles s q' w) :
    PipesSound t := by
  constructor
  · intro q'
    rw [hpipes]
    by_cases hqq : q'=q
    · rwa [hqq,Function.update_self]
    · rw [Function.update_of_ne hqq,hrefs q' hqq]
      exact h.refs q'
  · intro q' pipe hq'
    rw [hpipes] at hq'
    by_cases hqq : q'=q
    · rw [hqq,Function.update_self] at hq'
      exact hpos pipe hq'
    · rw [Function.update_of_ne hqq] at hq'
      exact h.held q' pipe hq'
  · intro q' hq'
    rw [hnext] at hq'
    have hqq : q'≠q := by omega
    rw [hpipes,Function.update_of_ne hqq,hcloses q' hqq]
    exact h.fresh q' hq'
  · intro q' w hq'
    rw [hnext] at hq'
    rw [hends q' w]
    exact h.once q' w hq'
  · intro q' pipe w hq'
    rw [hpipes] at hq'
    by_cases hqq : q'=q
    · rw [hqq,Function.update_self] at hq'
      rw [hqq]
      exact hflags pipe w hq'
    · rw [Function.update_of_ne hqq] at hq'
      rw [hcloses q' hqq]
      exact h.flags q' pipe w hq'

end Invariant

end Xv6Rust.PipeLife
