import Xv6Rust.LinkSteps
import Xv6Rust.LogWrites

/-!
# Calls that change the tree of directories

`sys_link`, `sys_unlink`, `sys_mkdir`, `sys_mknod`, `sys_chdir` and `File::open` with `create`,
`namex`, `dir_link`, `dir_unlink`, `get` and `put` of `fs/inode.rs`, the drop of a file, and what
`fork` and `exit` do with the current directory. One call of one process runs at a time, and what it
drops is dropped in a step of its own. Directories have no holes; their blocks are not modelled, and
so `bm_alloc` finds a block for an entry that begins one, or finds none. What each inode is created
in is kept beside it.
-/

namespace Xv6Rust.TreeSteps

open Runs DiskLayout SlotTable
open LinkSteps (Node lookup inumAt isEmpty freeSlot)
open InodeLayer (Name DirEntry isDots dot dotDot skipPath pathAt rootInum deSize ninode)
open LogWrites (OpenFlags ndev)

/-- The inodes with what the cache has of them. -/
structure Fs where
  /-- `inode_size`. -/
  ninodes : ℕ
  /-- Contents. -/
  node : ℕ → Node
  /-- Device numbers. -/
  major : ℕ → ℕ
  /-- The contents are read. -/
  valid : ℕ → Bool
  /-- Reference counts. -/
  refs : ℕ → ℕ
  /-- The directories that the inodes were created in. -/
  origin : ℕ → ℕ

namespace Fs

variable (s : Fs) (i : ℕ)

/-- Change the contents of an inode. -/
def setNode (n : Node) : Fs := {s with node := Function.update s.node i n}

/-- Change whether the contents are read. -/
def setValid (v : Bool) : Fs := {s with valid := Function.update s.valid i v}

/-- Change a reference count. -/
def setRefs (r : ℕ) : Fs := {s with refs := Function.update s.refs i r}

/-- `InodeCache::dup`, and `InodeCache::get` where it does not panic. -/
def retain : Fs := s.setRefs i (s.refs i+1)

/-- Entries of the cache that are in use. -/
def taken : ℕ := (List.range s.ninodes).countP fun j => decide (0 < s.refs j)

/-- `InodeCache::get` finds neither the inode in the cache nor a free entry. -/
def Crowded : Prop := s.refs i=0 ∧ ninode ≤ s.taken

instance : Decidable (s.Crowded i) := inferInstanceAs (Decidable (_ ∧ _))

end Fs

/-- The ways to stop. -/
inductive Panic where
  /-- `inode: lock an empty inode`. -/
  | emptyInode
  /-- `empty inode`. -/
  | openEmpty
  /-- `inode type not dir`. -/
  | notDir
  /-- `inum too large`. -/
  | inumTooLarge
  /-- `inode write error`. -/
  | writeEntry
  /-- `entry inode's link is zero`. -/
  | zeroLink
  /-- `not enough inode to alloc`. -/
  | noInode
  /-- `inode: not enough`. -/
  | noEntry
  /-- `cannot alloc any free block`. -/
  | noBlock
  /-- `unwrap` of a current directory that is `None`. -/
  | noCwd
  /-- Arithmetic overflow. -/
  | overflow
  deriving DecidableEq

/-- What `create` is called for. -/
inductive Maker where
  /-- `sys_mkdir`. -/
  | mkdir
  /-- `sys_mknod`. -/
  | mknod (major : ℕ)
  /-- `File::open` with `O_CREATE`. -/
  | file (flags : OpenFlags)

/-- `itype` of `create`. -/
def Maker.itype : Maker → InodeType
  | .mkdir => .directory
  | .mknod _ => .device
  | .file _ => .file

/-- `major` of `create`. -/
def Maker.major : Maker → ℕ
  | .mknod major => major
  | _ => 0

/-- `reuse` of `create`. -/
def Maker.reuse : Maker → Bool
  | .mkdir => false
  | _ => true

/-- What a path is resolved for. -/
inductive Goal where
  /-- `old_path` of `sys_link`, with its `new_path`. -/
  | target (path : List UInt8)
  /-- `new_path` of `sys_link`, with the inode of `old_path`. -/
  | parent (x : ℕ)
  /-- The path of `sys_unlink`. -/
  | victim
  /-- The path of `create`. -/
  | child (m : Maker)
  /-- The path of `File::open` without `O_CREATE`. -/
  | opening (flags : OpenFlags)
  /-- The path of `sys_chdir`. -/
  | chdir

/-- Where a call is. -/
inductive Stage where
  /-- `namex`, before the first inode. -/
  | start (g : Goal) (path : List UInt8)
  /-- The loop of `namex`: inode, position in the path and name. -/
  | walk (g : Goal) (path : List UInt8) (i cur : ℕ) (name : Name)
  /-- `sys_link` with `old_inode`. -/
  | raise (x : ℕ) (path : List UInt8)
  /-- `sys_link` with `old_inode` and `new_inode`. -/
  | enter (x d : ℕ) (name : Name)
  /-- `revert_link`, and what is dropped after it. -/
  | revert (x : ℕ) (rest : List ℕ)
  /-- `sys_unlink` with `dir_inode`. -/
  | remove (d : ℕ) (name : Name)
  /-- `dir_unlink` with the entry's offset and inode. -/
  | clear (d k y : ℕ)
  /-- `create` with `dir_inode`. -/
  | make (m : Maker) (d : ℕ) (name : Name)
  /-- `File::open` with its inode. -/
  | opened (flags : OpenFlags) (i : ℕ)
  /-- `sys_chdir` with its inode. -/
  | change (i : ℕ)
  /-- The call has returned, and whether it succeeded. -/
  | returned (ok : Bool)

/-- `is_parent`. -/
def Goal.isParent : Goal → Bool
  | .parent _ => true
  | .victim => true
  | .child _ => true
  | _ => false

/-- `namex` returns `None`. -/
def Goal.failed : Goal → Stage
  | .parent x => .revert x []
  | _ => .returned false

/-- `namex` returns an inode. -/
def Goal.found (i : ℕ) (name : Name) : Goal → Stage
  | .target path => .raise i path
  | .parent x => .enter x i name
  | .victim => .remove i name
  | .child m => .make m i name
  | .opening flags => .opened flags i
  | .chdir => .change i

/-- The file system, with the call that runs. -/
structure System where
  /-- The file system. -/
  fs : Fs
  /-- Current directories of the processes. -/
  cwds : List ℕ
  /-- Inodes of the open files. -/
  files : List ℕ
  /-- The process that called. -/
  caller : ℕ
  /-- What is dropped before the call goes on. -/
  drops : List ℕ
  /-- Where the call goes on. -/
  stage : Stage

/-- Where the call is after a step. -/
def System.go (s : System) (fs : Fs) (drops : List ℕ) (stage : Stage) : System :=
  {s with
    fs := fs
    drops := drops
    stage := stage}

/-- `Inode::lock`, before what is done with the lock. -/
def locking (s : Fs) (i : ℕ) (f : Fs → Outcome Panic System) : Outcome Panic System :=
  if s.valid i=false ∧ (s.node i).itype=.empty then .fault .emptyInode else f (s.setValid i true)

/-- `InodeCache::get`, before what is done with the inode. -/
def getting (s : Fs) (i : ℕ) (f : Fs → Outcome Panic System) : Outcome Panic System :=
  if s.Crowded i then .fault .noEntry else f (s.retain i)

/-- The write of an entry in `dir_link`. -/
def dirLink (l : List DirEntry) (name : Name) (inum : ℕ) : List DirEntry :=
  place l (freeSlot l) ⟨inum,name⟩

/-- `inode_alloc`, before it writes. -/
def inodeAlloc (s : Fs) : Option ℕ :=
  (List.range' 1 (s.ninodes-1)).find? fun inum => (s.node inum).itype=.empty

/-- `create` makes an inode and enters it into a directory. -/
def Fs.create (s : Fs) (m : Maker) (i d : ℕ) (name : Name) : Fs :=
  let n := s.node d
  let isDir := m.itype=.directory
  let slots := if isDir then dirLink (dirLink [] dot i) dotDot d else []
  let s := ((s.retain i).setValid i true).setNode i ⟨m.itype,1,slots⟩
  let s := s.setNode d ⟨n.itype,if isDir then n.nlink+1 else n.nlink,dirLink n.slots name i⟩
  {s with
    major := Function.update s.major i m.major
    origin := Function.update s.origin i d}

/-- `create` returns an inode, after it has dropped its directory. -/
def System.made (s : System) (fs : Fs) (d i : ℕ) : Maker → System
  | .file flags => s.go fs [d] (.opened flags i)
  | _ => s.go fs [d,i] (.returned true)

/-- The file of an inode is opened. -/
def System.opens (s : System) (fs : Fs) (i : ℕ) : System :=
  {s.go fs [] (.returned true) with files := s.files++[i]}

/-- `namex` takes its first inode. -/
def startStep (s : System) (g : Goal) (path : List UInt8) : Outcome Panic System :=
  if pathAt path 0=0x2f then
    getting s.fs rootInum fun fs => .next (s.go fs [] (.walk g path rootInum 0 fun _ => 0))
  else
    match s.cwds[s.caller]? with
    | none => .fault .noCwd
    | some i => .next (s.go (s.fs.retain i) [] (.walk g path i 0 fun _ => 0))

/-- The loop of `namex`, once. -/
def walkStep (s : System) (g : Goal) (path : List UInt8) (i cur : ℕ) (name : Name) :
    Outcome Panic System :=
  let next := (skipPath path cur name).1
  let elem := (skipPath path cur name).2
  if next=0 then
    .next (if g.isParent=true then s.go s.fs [i] g.failed else s.go s.fs [] (g.found i elem))
  else
    locking s.fs i fun fs =>
      if (fs.node i).itype≠.directory then .next (s.go fs [i] g.failed)
      else if g.isParent=true ∧ pathAt path next=0 then .next (s.go fs [] (g.found i elem))
      else
        match lookup (fs.node i).slots elem with
        | none => .next (s.go fs [i] g.failed)
        | some k =>
          let y := inumAt (fs.node i).slots k
          getting fs y fun fs => .next (s.go fs [i] (.walk g path y next elem))

/-- `sys_link` locks `old_inode` and counts the new link. -/
def raiseStep (s : System) (x : ℕ) (path : List UInt8) : Outcome Panic System :=
  locking s.fs x fun fs =>
    let n := fs.node x
    if n.itype=.directory then .next (s.go fs [x] (.returned false))
    else if n.nlink+1≥2^16 then .fault .overflow
    else .next (s.go (fs.setNode x ⟨n.itype,n.nlink+1,n.slots⟩) [] (.start (.parent x) path))

/-- `sys_link` locks `new_inode` and calls `dir_link`. -/
def enterStep (s : System) (x d : ℕ) (name : Name) : Outcome Panic System :=
  locking s.fs d fun fs =>
    let n := fs.node d
    if x≥2^16 then .fault .inumTooLarge
    else if n.itype≠.directory then .fault .notDir
    else
      match lookup n.slots name with
      | some k =>
        let y := inumAt n.slots k
        getting fs y fun fs => .next (s.go fs [y] (.revert x [d]))
      | none =>
        if deSize*(freeSlot n.slots+1)>maxFileSize then .fault .writeEntry
        else
          .next (s.go (fs.setNode d ⟨n.itype,n.nlink,dirLink n.slots name x⟩) [d,x]
            (.returned true))

/-- `revert_link`. -/
def revertStep (s : System) (x : ℕ) (rest : List ℕ) : Outcome Panic System :=
  locking s.fs x fun fs =>
    let n := fs.node x
    if n.nlink=0 then .fault .overflow
    else .next (s.go (fs.setNode x ⟨n.itype,n.nlink-1,n.slots⟩) (x::rest) (.returned false))

/-- `sys_unlink` locks `dir_inode` and `dir_unlink` searches the entry. -/
def removeStep (s : System) (d : ℕ) (name : Name) : Outcome Panic System :=
  locking s.fs d fun fs =>
    let n := fs.node d
    if isDots name=true then .next (s.go fs [d] (.returned false))
    else if n.itype≠.directory then .fault .notDir
    else
      match lookup n.slots name with
      | none => .next (s.go fs [d] (.returned false))
      | some k =>
        let y := inumAt n.slots k
        getting fs y fun fs => .next (s.go fs [] (.clear d k y))

/-- `dir_unlink` locks the inode of the entry. -/
def clearStep (s : System) (d k y : ℕ) : Outcome Panic System :=
  locking s.fs y fun fs =>
    let n := fs.node y
    let m := fs.node d
    if n.nlink<1 then .fault .zeroLink
    else if n.itype=.directory ∧ isEmpty n.slots=false then
      .next (s.go fs [y,d] (.returned false))
    else if n.itype=.directory ∧ m.nlink=0 then .fault .overflow
    else
      let links := if n.itype=.directory then m.nlink-1 else m.nlink
      let fs := fs.setNode d ⟨m.itype,links,place m.slots k .empty⟩
      .next (s.go (fs.setNode y ⟨n.itype,n.nlink-1,n.slots⟩) [y,d] (.returned true))

/-- `create` with its directory. -/
def makeStep (s : System) (m : Maker) (d : ℕ) (name : Name) : Outcome Panic System :=
  locking s.fs d fun fs =>
    let n := fs.node d
    if n.itype≠.directory then .fault .notDir
    else
      match lookup n.slots name with
      | some k =>
        let y := inumAt n.slots k
        getting fs y fun fs =>
          if m.reuse=true then .next (s.made fs d y m) else .next (s.go fs [y,d] (.returned false))
      | none =>
        match inodeAlloc fs with
        | none => .fault .noInode
        | some i =>
          if fs.Crowded i then .fault .noEntry
          else if m.itype=.directory ∧ n.nlink+1≥2^16 then .fault .overflow
          else if i≥2^16 ∨ m.itype=.directory ∧ d≥2^16 then .fault .inumTooLarge
          else if deSize*(freeSlot n.slots+1)>maxFileSize then .fault .writeEntry
          else .next (s.made (fs.create m i d name) d i m)

/-- `File::open` with its inode. -/
def openStep (s : System) (flags : OpenFlags) (i : ℕ) : Outcome Panic System :=
  locking s.fs i fun fs =>
    let n := fs.node i
    match n.itype with
    | .empty => .fault .openEmpty
    | .directory =>
      if flags.rdonly=false then .next (s.go fs [i] (.returned false)) else .next (s.opens fs i)
    | .file =>
      .next (s.opens (if flags.trunc=true then fs.setNode i ⟨n.itype,n.nlink,[]⟩ else fs) i)
    | .device =>
      if fs.major i≥ndev then .next (s.go fs [i] (.returned false)) else .next (s.opens fs i)

/-- `sys_chdir` with its inode. -/
def changeStep (s : System) (i : ℕ) : Outcome Panic System :=
  locking s.fs i fun fs =>
    if (fs.node i).itype≠.directory then .next (s.go fs [i] (.returned false))
    else
      match s.cwds[s.caller]? with
      | none => .fault .noCwd
      | some old => .next {s.go fs [old] (.returned true) with cwds := s.cwds.set s.caller i}

/-- A call that has dropped everything goes on. -/
def act (s : System) : Outcome Panic System :=
  match s.stage with
  | .start g path => startStep s g path
  | .walk g path i cur name => walkStep s g path i cur name
  | .raise x path => raiseStep s x path
  | .enter x d name => enterStep s x d name
  | .revert x rest => revertStep s x rest
  | .remove d name => removeStep s d name
  | .clear d k y => clearStep s d k y
  | .make m d name => makeStep s m d name
  | .opened flags i => openStep s flags i
  | .change i => changeStep s i
  | .returned _ => .blocked

/-- `put` frees the inode. -/
def frees (s : Fs) (i : ℕ) : Prop := s.refs i=1 ∧ s.valid i=true ∧ (s.node i).nlink=0

instance (s : Fs) (i : ℕ) : Decidable (frees s i) := inferInstanceAs (Decidable (_ ∧ _))

/-- `put`. -/
def put (s : Fs) (i : ℕ) : Outcome Panic Fs :=
  if s.refs i=1 then
    if s.valid i=false ∨ 0<(s.node i).nlink then .next ((s.setValid i false).setRefs i 0)
    else .next (((s.setNode i ⟨.empty,(s.node i).nlink,[]⟩).setValid i false).setRefs i 0)
  else if s.refs i=0 then .fault .overflow
  else .next (s.setRefs i (s.refs i-1))

/-- The call goes on. -/
def advance (s : System) : Outcome Panic System :=
  match s.drops with
  | [] => act s
  | i::drops => (put s.fs i).bind fun fs => .next (s.go fs drops s.stage)

/-- The next entry that is added to a directory begins a block. -/
def Begins (l : List DirEntry) : Prop := freeSlot l=l.length ∧ l.length%(bsize/deSize)=0

instance (l : List DirEntry) : Decidable (Begins l) := inferInstanceAs (Decidable (_ ∧ _))

/-- The call is about to add an entry that begins a block: `map_blockno` calls `bm_alloc`. -/
def Allocates (s : System) : Prop :=
  match s.drops,s.stage with
  | [],.enter _ d name => lookup (s.fs.node d).slots name=none ∧ Begins (s.fs.node d).slots
  | [],.make m d name => lookup (s.fs.node d).slots name=none ∧
    (m.itype=.directory ∨ Begins (s.fs.node d).slots)
  | _,_ => False

instance (s : System) : Decidable (Allocates s) := by
  unfold Allocates
  split <;> infer_instance

/-- A process calls, or goes on. -/
inductive Label where
  /-- `sys_link`. -/
  | link (p : ℕ) (old new : List UInt8)
  /-- `sys_unlink`. -/
  | unlink (p : ℕ) (path : List UInt8)
  /-- `sys_mkdir`. -/
  | mkdir (p : ℕ) (path : List UInt8)
  /-- `sys_mknod`. -/
  | mknod (p : ℕ) (path : List UInt8) (major : ℕ)
  /-- `File::open`. -/
  | open (p : ℕ) (path : List UInt8) (flags : OpenFlags)
  /-- `sys_chdir`. -/
  | chdir (p : ℕ) (path : List UInt8)
  /-- The drop of an open file. -/
  | close (k : ℕ)
  /-- The child gets its current directory. -/
  | fork (p : ℕ)
  /-- The current directory is dropped; later processes take the number of the one before. -/
  | exit (p : ℕ)
  /-- The call goes on. -/
  | run
  /-- The call would go on, but no block is free. -/
  | noBlock

/-- No call runs. -/
def System.rests (s : System) : Bool :=
  match s.drops,s.stage with
  | [],.returned _ => true
  | _,_ => false

/-- A process calls. -/
def System.call (s : System) (p : ℕ) (stage : Stage) : Outcome Panic System :=
  if s.rests=true ∧ p < s.cwds.length then
    .next {s with
      caller := p
      stage := stage}
  else .blocked

/-- `File::open` begins. -/
def openGoal (flags : OpenFlags) : Goal :=
  if flags.create=true then .child (.file flags) else .opening flags

/-- One step. -/
def step (s : System) : Label → Outcome Panic System
  | .link p old new => s.call p (.start (.target new) old)
  | .unlink p path => s.call p (.start .victim path)
  | .mkdir p path => s.call p (.start (.child .mkdir) path)
  | .mknod p path major => s.call p (.start (.child (.mknod major)) path)
  | .open p path flags => s.call p (.start (openGoal flags) path)
  | .chdir p path => s.call p (.start .chdir path)
  | .close k =>
    match s.files[k]? with
    | none => .blocked
    | some i =>
      if s.rests=true then .next {s.go s.fs [i] (.returned true) with files := s.files.eraseIdx k}
      else .blocked
  | .fork p =>
    match s.cwds[p]? with
    | none => .blocked
    | some i =>
      if s.rests=true then .next {s with
        fs := s.fs.retain i
        cwds := s.cwds++[i]}
      else .blocked
  | .exit p =>
    match s.cwds[p]? with
    | none => .blocked
    | some i =>
      if s.rests=true then .next {s.go s.fs [i] (.returned true) with cwds := s.cwds.eraseIdx p}
      else .blocked
  | .run => advance s
  | .noBlock =>
    match advance s with
    | .next _ => if Allocates s then .fault .noBlock else .blocked
    | _ => .blocked

end Xv6Rust.TreeSteps
