import Xv6Rust.Commands
import Xv6Rust.InodeCache
import Xv6Rust.LogMemory

/-!
# System calls and the transactions of the log

The system calls of `process/proc/syscall.rs` that touch the file system, as
commands over the inode cache and the log: where each takes and drops handles
and guards, where it calls `begin_op` and `end_op`, and where a block goes to
`LOG.write`. What is read from directories and files decides branches through
labels; types and link counts of locked inodes are those of the cache. A list of
labels is an interleaving of any number of processes.
-/

namespace Xv6Rust.FsTransactions

open Runs Commands DiskLayout

/-- The variables that hold handles. -/
inductive Var where
  /-- `cwd` of the process. -/
  | cwd
  /-- `inode` in `namex`. -/
  | path
  /-- `last_inode` in `namex`. -/
  | last
  /-- `dir_inode`. -/
  | dir
  /-- `inode` in `create`, `open`, `chdir` and `load`. -/
  | inode
  /-- The inode that `dir_link` and `dir_unlink` look up. -/
  | entry
  /-- `old_inode` in `sys_link`. -/
  | old
  /-- `new_inode` in `sys_link`. -/
  | new
  /-- `inode` of a file. -/
  | file
  deriving DecidableEq

/-- Where `InodeCache::get` is called from. -/
inductive Source where
  /-- The root directory in `namex`. -/
  | root
  /-- An entry that `dir_lookup` finds in a directory. -/
  | entry (v : Var)
  /-- The inode that `create` has just allocated. -/
  | fresh
  deriving DecidableEq

/-- The changes of a locked inode in memory. -/
inductive Edit where
  /-- `link`. -/
  | link
  /-- `unlink`. -/
  | unlink
  /-- `create` sets the device numbers and the link count. -/
  | init (major minor : UInt16)
  /-- A block number is set in `map_blockno`. -/
  | addrs
  /-- `try_iwrite` sets the size. -/
  | size
  /-- `truncate` clears block numbers and size. -/
  | clear
  deriving DecidableEq

/-- The actions of the system calls. -/
inductive Act where
  /-- `LOG.begin_op()`. -/
  | beginOp
  /-- `LOG.end_op()`. -/
  | endOp
  /-- `end_op` of the last operation commits. -/
  | commit
  /-- `end_op` after the commit. -/
  | endCommit
  /-- `LOG.write` of a bitmap block, a data block or an indirect block. -/
  | write
  /-- `inode_alloc`. -/
  | alloc (itype : InodeType)
  /-- `InodeCache::get`. -/
  | get (v : Var) (source : Source)
  /-- `InodeCache::dup` of the first into the second. -/
  | dup (v w : Var)
  /-- `Inode::lock` takes the sleep lock. -/
  | lock (v : Var)
  /-- `Inode::lock` reads the inode unless it is valid. -/
  | load (v : Var)
  /-- A change of the locked inode. -/
  | edit (v : Var) (e : Edit)
  /-- `InodeData::update`. -/
  | update (v : Var)
  /-- The guard is dropped. -/
  | unlock (v : Var)
  /-- The handle is dropped: `InodeCache::put`. -/
  | put (v : Var)
  /-- A deleting `put` sets the type and updates the inode. -/
  | truncate (v : Var)
  /-- A deleting `put` drops the guard. -/
  | clear (v : Var)
  /-- A deleting `put` under the `meta` lock again. -/
  | finish (v : Var)
  /-- `iread` of one block of the locked inode. -/
  | read (v : Var)
  /-- A test of the type of the locked inode. -/
  | itype (v : Var) (t : InodeType) (is : Bool)
  /-- A result is set. -/
  | ret (b : Bool)
  /-- A result is tested. -/
  | check (b : Bool)
  /-- The first handle moves into the second variable. -/
  | move (v w : Var)
  /-- A new file takes the handle. -/
  | openFile (v : Var)
  /-- The inode of an open file. -/
  | borrow (v : Var)
  /-- The last `Arc` of an open file is dropped. -/
  | take (v : Var)
  /-- `panic!`. -/
  | panic
  deriving DecidableEq

/-- The actions that call `LOG.write`. -/
def Act.writes : Act → Bool
  | .write => true
  | .alloc _ => true
  | .update _ => true
  | .truncate _ => true
  | _ => false

/-- The variable whose handle an action drops. -/
def Act.drops : Act → Option Var
  | .put v => some v
  | _ => none

/-- The variable of whose inode an action reads a block. -/
def Act.reads : Act → Option Var
  | .read v => some v
  | _ => none

/-- `O_CREATE`. -/
def oCreate : ℕ := 0x200

/-- `O_TRUNC`. -/
def oTrunc : ℕ := 0x400

/-- The system calls. -/
inductive Syscall where
  /-- `sys_open`. -/
  | open (flags : ℕ)
  /-- `sys_read`. -/
  | read
  /-- `sys_write`. -/
  | write
  /-- `sys_link`. -/
  | link
  /-- `sys_unlink`. -/
  | unlink
  /-- `sys_mkdir`. -/
  | mkdir
  /-- `sys_mknod`. -/
  | mknod (major minor : UInt16)
  /-- `sys_chdir`. -/
  | chdir
  /-- `sys_exec`. -/
  | exec
  /-- `sys_close`. -/
  | close
  /-- `exit`. -/
  | exit
  deriving DecidableEq

section Programs

open Cmd

/-- A list of actions. -/
def acts (as : List Act) : Cmd Act := block (as.map act)

/-- `match` on the last result. -/
def ifRet (c d : Cmd Act) : Cmd Act :=
  alt (seq (act (.check true)) c) (seq (act (.check false)) d)

/-- `if` on the type of a locked inode. -/
def ifType (v : Var) (t : InodeType) (c d : Cmd Act) : Cmd Act :=
  alt (seq (act (.itype v t true)) c) (seq (act (.itype v t false)) d)

/-- `Inode::lock`. -/
def lock (v : Var) : Cmd Act := acts [.lock v,.load v]

/-- `bm_alloc`: the bitmap block and the cleared block are written. -/
def bmAlloc : Cmd Act := alt (acts [.write,.write]) (act .panic)

/-- `bm_free`. -/
def bmFree : Cmd Act := alt (act .write) (act .panic)

/-- `map_blockno`: the block is there, or a direct block is allocated, or the indirect block, one
of its entries or both. -/
def mapBlockno (v : Var) : Cmd Act :=
  alt skip (alt (seq bmAlloc (act (.edit v .addrs)))
    (seq (alt skip (seq bmAlloc (act (.edit v .addrs))))
      (alt skip (seq bmAlloc (act .write)))))

/-- `try_iwrite`. -/
def tryIwrite (v : Var) : Cmd Act :=
  alt (act (.ret false))
    (block [loop (seq (mapBlockno v) (alt (act .write) skip)),alt (act (.edit v .size)) skip,
      act (.update v),alt (act (.ret true)) (act (.ret false))])

/-- The frees and the update of `truncate`, for an inode that keeps its type. -/
def truncateFile (v : Var) : Cmd Act :=
  block [loop bmFree,act (.edit v .clear),act (.update v)]

/-- What a deleting `put` does after it has released the `meta` lock. -/
def delete (v : Var) : Cmd Act :=
  block [loop bmFree,act (.truncate v),act (.clear v),act (.finish v)]

/-- `dir_lookup` into a variable. -/
def dirLookup (v w : Var) : Cmd Act :=
  seq (loop (act (.read v)))
    (alt (acts [.get w (.entry v),.ret true]) (act (.ret false)))

/-- `dir_link`. -/
def dirLink (v : Var) : Cmd Act :=
  seq (dirLookup v .entry)
    (ifRet (acts [.put .entry,.ret false])
      (block [loop (act (.read v)),tryIwrite v,ifRet skip (act .panic)]))

/-- `dir_unlink`. -/
def dirUnlink (v : Var) : Cmd Act :=
  alt (act (.ret false))
    (seq (dirLookup v .entry)
      (ifRet
        (block [lock .entry,alt skip (act .panic),
          alt
            -- a directory that is not empty
            (block [act (.itype .entry .directory true),loop (act (.read .entry)),
              acts [.unlock .entry,.put .entry,.ret false]])
            (block [ifType .entry .directory (loop (act (.read .entry))) skip,tryIwrite v,
              ifRet skip (act .panic),
              ifType .entry .directory (acts [.edit v .unlink,.update v]) skip,
              acts [.edit .entry .unlink,.update .entry,.unlock .entry,.put .entry,.ret true]])])
        (act (.ret false))))

/-- `namex` returns for a name that is not in the directory. -/
def notFound : Cmd Act :=
  seq (dirLookup .path .last) (acts [.check false,.unlock .path,.put .path,.ret false])

/-- `namex`, into the variable `path`. Each way to leave the loop stands after it. -/
def namex (isParent : Bool) : Cmd Act :=
  block [alt (act (.get .path .root)) (act (.dup .cwd .path)),
    loop (block [lock .path,act (.itype .path .directory true),dirLookup .path .last,
      acts [.check true,.unlock .path,.put .path,.move .last .path]]),
    alt
      -- the end of the path
      (if isParent=true then acts [.put .path,.ret false] else act (.ret true))
      (seq (lock .path)
        (ifType .path .directory
          (if isParent=true then alt (acts [.unlock .path,.ret true]) notFound else notFound)
          (acts [.unlock .path,.put .path,.ret false])))]

/-- `create`, into the variable `inode`. -/
def create (itype : InodeType) (major minor : UInt16) (reuse : Bool) : Cmd Act :=
  seq (namex true)
    (ifRet
      (block [act (.move .path .dir),lock .dir,dirLookup .dir .inode,
        ifRet
          (if reuse=true then acts [.unlock .dir,.put .dir,.ret true]
            else acts [.put .inode,.unlock .dir,.put .dir,.ret false])
          (block [acts [.alloc itype,.get .inode .fresh],lock .inode,
            acts [.edit .inode (.init major minor),.update .inode],
            ifType .inode itype skip (act .panic),
            if itype=.directory then
              block [acts [.edit .dir .link,.update .dir],dirLink .inode,ifRet skip (act .panic),
                dirLink .inode,ifRet skip (act .panic)]
            else skip,
            dirLink .dir,ifRet skip (act .panic),
            acts [.unlock .dir,.put .dir,.unlock .inode,.ret true]])])
      (act (.ret false)))

/-- `File::open`. -/
def fileOpen (flags : ℕ) : Cmd Act :=
  block [act .beginOp,
    if 0<flags &&& oCreate then create .file 0 0 true
      else seq (namex false)
        (ifRet (acts [.move .path .inode,.ret true]) (act (.ret false))),
    ifRet
      (block [lock .inode,ifType .inode .empty (act .panic) skip,
        alt
          (seq (act (.itype .inode .directory true))
            (if flags≠0 then acts [.unlock .inode,.put .inode,.endOp]
              else acts [.unlock .inode,.endOp,.openFile .inode]))
          (alt
            (block [act (.itype .inode .file true),
              if 0<flags &&& oTrunc then truncateFile .inode else skip,
              acts [.unlock .inode,.endOp,.openFile .inode]])
            (seq (act (.itype .inode .device true))
              -- a major number that no driver has, or one that may have a driver
              (alt (acts [.unlock .inode,.put .inode,.endOp])
                (acts [.unlock .inode,.endOp,.openFile .inode]))))])
      (act .endOp)]

/-- `File::fread`; a pipe and a device touch no inode. -/
def fread : Cmd Act :=
  alt skip (block [acts [.borrow .file],lock .file,loop (act (.read .file)),act (.unlock .file)])

/-- `File::fwrite`; a pipe and a device touch no inode. -/
def fwrite : Cmd Act :=
  alt skip (seq (act (.borrow .file))
    (loop (block [act .beginOp,lock .file,tryIwrite .file,acts [.unlock .file,.endOp]])))

/-- The drop of a reference to a file: nothing unless it is the last one to an inode. -/
def fileDrop : Cmd Act := alt skip (acts [.take .file,.beginOp,.put .file,.endOp])

/-- `sys_chdir`. -/
def sysChdir : Cmd Act :=
  block [act .beginOp,namex false,
    ifRet
      (block [act (.move .path .inode),lock .inode,
        ifType .inode .directory
          (acts [.unlock .inode,.move .cwd .old,.move .inode .cwd,.put .old,.endOp])
          (acts [.unlock .inode,.put .inode,.endOp])])
      (act .endOp)]

/-- `load` in `elf.rs`. Every error return drops guard and handle and ends the operation, as the
path that goes on does. -/
def elfLoad : Cmd Act :=
  block [act .beginOp,namex false,
    ifRet
      (block [act (.move .path .inode),lock .inode,loop (act (.read .inode)),
        acts [.unlock .inode,.put .inode,.endOp]])
      (act .endOp)]

/-- `sys_mkdir` and `sys_mknod` after their arguments. -/
def sysCreate (itype : InodeType) (major minor : UInt16) (reuse : Bool) : Cmd Act :=
  block [act .beginOp,create itype major minor reuse,ifRet (act (.put .inode)) skip,act .endOp]

/-- `sys_unlink`. -/
def sysUnlink : Cmd Act :=
  block [act .beginOp,namex true,
    ifRet
      (block [act (.move .path .dir),lock .dir,dirUnlink .dir,
        acts [.unlock .dir,.put .dir,.endOp]])
      (act .endOp)]

/-- `revert_link`, which drops the handle and ends the operation. -/
def revertLink : Cmd Act :=
  seq (lock .old) (acts [.edit .old .unlink,.update .old,.unlock .old,.put .old,.endOp])

/-- `sys_link`. A directory, and a name that cannot be linked, end the operation before the guard
and the handle that are left are dropped at the return. -/
def sysLink : Cmd Act :=
  block [act .beginOp,namex false,
    ifRet
      (block [act (.move .path .old),lock .old,
        ifType .old .directory
          (acts [.endOp,.unlock .old,.put .old])
          (block [acts [.edit .old .link,.update .old,.unlock .old],namex true,
            ifRet
              (block [act (.move .path .new),lock .new,
                alt (act (.ret false)) (dirLink .new),
                ifRet
                  (acts [.unlock .new,.put .new,.put .old,.endOp])
                  (seq revertLink (acts [.unlock .new,.put .new]))])
              revertLink])])
      (act .endOp)]

/-- `close_files` of a process that exits. -/
def closeFiles : Cmd Act := seq (loop fileDrop) (acts [.beginOp,.put .cwd,.endOp])

/-- What each system call does. -/
def program : Syscall → Cmd Act
  | .open flags => fileOpen flags
  | .read => fread
  | .write => fwrite
  | .link => sysLink
  | .unlink => sysUnlink
  | .mkdir => sysCreate .directory 0 0 false
  | .mknod major minor => sysCreate .device major minor true
  | .chdir => sysChdir
  | .exec => elfLoad
  | .close => fileDrop
  | .exit => closeFiles

end Programs

/-- A process. -/
structure Proc where
  /-- The system call it makes. -/
  call : Syscall
  /-- What is left of the call. -/
  rest : List (Cmd Act)
  /-- The handles in its variables. -/
  env : Var → ℕ
  /-- The inode number that `inode_alloc` has returned. -/
  inum : ℕ
  /-- The last result. -/
  ret : Bool

/-- The file system and the processes that use it. -/
structure System where
  /-- The inode cache and the inodes on disk. -/
  cache : InodeCache.System
  /-- The log. -/
  log : LogMemory.Log
  /-- The block numbers in each block, as an indirect block holds them. -/
  words : ℕ → ℕ → ℕ
  /-- The handles of the open files. -/
  files : Finset ℕ
  /-- The processes. -/
  procs : ℕ → Proc
  /-- The processes between their `begin_op` and their `end_op`. -/
  inside : Finset ℕ

/-- The ways to stop. -/
inductive Panic where
  /-- A panic of the inode cache. -/
  | cache (e : InodeCache.Panic)
  /-- A panic of the log. -/
  | log (e : LogMemory.LogPanic)
  /-- A link count overflows. -/
  | overflow
  /-- A panic of the caller. -/
  | caller
  deriving DecidableEq

/-- What an action takes from outside the model. -/
structure Input where
  /-- The name of a new handle, or a handle of an open file. -/
  handle : ℕ := 0
  /-- The inode number in a directory entry, or one that is free on disk. -/
  inum : ℕ := 0
  /-- The block that is written. -/
  blockno : UInt32 := 0
  /-- What is written to the block. -/
  words : ℕ → ℕ := fun _ => 0
  /-- The block of a file that is read. -/
  block : ℕ := 0
  /-- A size. -/
  size : UInt32 := 0
  /-- Block numbers. -/
  addrs : Fin 13 → UInt32 := fun _ => 0

/-- The steps of all processes. -/
inductive Label where
  /-- A process makes a system call. -/
  | call (p : ℕ) (c : Syscall)
  /-- Data decides a branch or a loop. -/
  | branch (p : ℕ) (b : Bool)
  /-- A process takes its next action. -/
  | act (p : ℕ) (x : Input)

/-- Apply a change to an inode. -/
def Edit.apply (x : Input) (d : DiskInode) : Edit → Option DiskInode
  | .link => if d.nlink=65535 then none else some {d with nlink := d.nlink+1}
  | .unlink => if d.nlink=0 then none else some {d with nlink := d.nlink-1}
  | .init major minor => some {d with major := major,minor := minor,nlink := 1}
  | .addrs => some {d with addrs := x.addrs}
  | .size => some {d with size := x.size}
  | .clear => some {d with size := 0,addrs := fun _ => 0}

/-- The block of a file is there, so that `map_blockno` allocates nothing. -/
def mapped (words : ℕ → ℕ → ℕ) (d : DiskInode) (n : ℕ) : Prop :=
  if n<ndirect then d.addr n≠0
  else d.addr ndirect≠0 ∧ words (d.addr ndirect) (n-ndirect)≠0

instance (words : ℕ → ℕ → ℕ) (d : DiskInode) (n : ℕ) : Decidable (mapped words d n) :=
  inferInstanceAs (Decidable (if n<ndirect then d.addr n≠0
    else d.addr ndirect≠0 ∧ words (d.addr ndirect) (n-ndirect)≠0))

/-- `put` of a handle takes its deleting branch: it drops the last reference to an inode that is
loaded and has no links. -/
def deletes (c : InodeCache.System) (h : ℕ) : Prop :=
  (c.imeta (c.inode h).index).refs=1 ∧ (c.idata (c.inode h).index).valid≠none ∧
    (c.idata (c.inode h).index).dinode.nlink=0

instance (c : InodeCache.System) (h : ℕ) : Decidable (deletes c h) :=
  inferInstanceAs (Decidable (_ ∧ _ ∧ _))

namespace System

variable (s : System)

/-- Change a process. -/
def setProc (p : ℕ) (q : Proc) : System := {s with procs := Function.update s.procs p q}

/-- Change what is left of a call. -/
def setRest (p : ℕ) (rest : List (Cmd Act)) : System := s.setProc p {s.procs p with rest := rest}

/-- Put a command before what is left of a call. -/
def push (p : ℕ) (c : Cmd Act) : System := s.setRest p (flat c (s.procs p).rest)

/-- Store a handle in a variable. -/
def bind (p : ℕ) (v : Var) (h : ℕ) : System :=
  s.setProc p {s.procs p with env := Function.update (s.procs p).env v h}

/-- The handle in a variable. -/
def handle (p : ℕ) (v : Var) : ℕ := (s.procs p).env v

/-- The contents of the inode behind a variable. -/
def contents (p : ℕ) (v : Var) : InodeCache.InodeData :=
  s.cache.idata (s.cache.inode (s.handle p v)).index

/-- A section of the inode cache. -/
def onCache (a : InodeCache.Label) : Outcome Panic System :=
  match InodeCache.step s.cache a with
  | .blocked => .blocked
  | .fault e => .fault (.cache e)
  | .next c => .next {s with cache := c}

/-- `LOG.write` of a block. -/
def logWrite (x : Input) : Outcome Panic System :=
  match LogMemory.write s.log x.blockno with
  | .error e => .fault (.log e)
  | .ok (log,_) =>
    .next {s with log := log,words := Function.update s.words x.blockno.toNat x.words}

/-- The device and the number of the inode that `get` is called for. -/
def sourceKey (p : ℕ) (x : Input) : Source → Option (ℕ×ℕ)
  | .root => some (1,1)
  | .entry v => (s.contents p v).valid.map fun k => (k.1,x.inum)
  | .fresh => (s.contents p .dir).valid.map fun k => (k.1,(s.procs p).inum)

end System

/-- One action of a process. -/
def perform (s : System) (p : ℕ) (x : Input) : Act → Outcome Panic System
  | .beginOp =>
    match LogMemory.beginOp s.log with
    | none => .blocked
    | some log => .next {s with log := log,inside := insert p s.inside}
  | .endOp =>
    match LogMemory.endOp s.log with
    | .error e => .fault (.log e)
    | .ok (log,commits) =>
      let t : System := {s with log := log,inside := s.inside.erase p}
      .next (if commits=true then t.push p (acts [.commit,.endCommit]) else t)
  | .commit =>
    match LogMemory.commit s.log with
    | .error e => .fault (.log e)
    | .ok log => .next {s with log := log}
  | .endCommit => .next {s with log := LogMemory.endCommit s.log}
  | .write => s.logWrite x
  | .alloc itype =>
    match (s.contents p .dir).valid with
    | none => .fault .caller
    | some k =>
      (s.onCache (.alloc k.1 x.inum itype)).bind fun t =>
        (t.setProc p {t.procs p with inum := x.inum}).logWrite x
  | .get v source =>
    match s.sourceKey p x source with
    | none => .fault .caller
    | some k => (s.onCache (.get x.handle k.1 k.2)).bind fun t => .next (t.bind p v x.handle)
  | .dup v w =>
    (s.onCache (.dup (s.handle p v) x.handle)).bind fun t => .next (t.bind p w x.handle)
  | .lock v => s.onCache (.lock (s.handle p v))
  | .load v =>
    if s.cache.stage (s.handle p v)=.guarded then .next s else s.onCache (.load (s.handle p v))
  | .edit v e =>
    match e.apply x (s.contents p v).dinode with
    | none => .fault .overflow
    | some d => s.onCache (.modify (s.handle p v) d)
  | .update v => (s.onCache (.update (s.handle p v))).bind fun t => t.logWrite x
  | .unlock v => s.onCache (.unlock (s.handle p v))
  | .put v =>
    (s.onCache (.put (s.handle p v))).bind fun t =>
      .next (if deletes s.cache (s.handle p v) then t.push p (delete v) else t)
  | .truncate v => (s.onCache (.truncate (s.handle p v))).bind fun t => t.logWrite x
  | .clear v => s.onCache (.clear (s.handle p v))
  | .finish v => s.onCache (.finish (s.handle p v))
  | .read v =>
    if (s.contents p v).dinode.size.toNat≤x.block*bsize then .blocked
    else .next (if mapped s.words (s.contents p v).dinode x.block then s
      else s.push p (mapBlockno v))
  | .itype v t is => if decide ((s.contents p v).dinode.itype=t)=is then .next s else .blocked
  | .ret b => .next (s.setProc p {s.procs p with ret := b})
  | .check b => if (s.procs p).ret=b then .next s else .blocked
  | .move v w => .next (s.bind p w (s.handle p v))
  | .openFile v => .next {s with files := insert (s.handle p v) s.files}
  | .borrow v => if x.handle∈s.files then .next (s.bind p v x.handle) else .blocked
  | .take v =>
    if x.handle∈s.files then .next ({s with files := s.files.erase x.handle}.bind p v x.handle)
    else .blocked
  | .panic => .fault .caller

/-- One step of a process. -/
def step (s : System) : Label → Outcome Panic System
  | .call p c =>
    if (s.procs p).rest=[] then
      .next (s.setProc p {s.procs p with call := c,rest := flat (program c) []})
    else .blocked
  | .branch p b =>
    match unfold (s.procs p).rest b with
    | none => .blocked
    | some rest => .next (s.setRest p rest)
  | .act p x =>
    match (s.procs p).rest with
    | .act a::rest => perform (s.setRest p rest) p x a
    | _ => .blocked

/-- Which actions are allowed inside and outside an operation, and what they make of it. Blocks are
written inside. A handle is dropped inside, but for `sys_link`; a block of a file is read inside,
but for `sys_read`. -/
def effect (c : Syscall) : Act → Bool → Option Bool
  | .beginOp,b => if b=true then none else some true
  | .endOp,b => if b=true then some false else none
  | .put _,b => if b=true ∨ c=.link then some b else none
  | .read _,b => if b=true ∨ c=.read then some b else none
  | a,b => if a.writes=true ∧ b=false then none else some b

/-- Every call starts and ends outside an operation and keeps to what is allowed. -/
theorem flow_program (c : Syscall) : flow (effect c) (program c) false=some false := by
  cases c with
  | «open» flags =>
    rw [program,fileOpen]
    split <;> split <;> split <;> rfl
  | read => rfl
  | write => rfl
  | link => rfl
  | unlink => rfl
  | mkdir => rfl
  | mknod major minor => rfl
  | chdir => rfl
  | exec => rfl
  | close => rfl
  | exit => rfl

/-- A deleting `put` may go on inside an operation. -/
theorem flow_delete (c : Syscall) (v : Var) : flow (effect c) (delete v) true=some true := rfl

/-- `map_blockno` may allocate inside an operation. -/
theorem flow_mapBlockno (c : Syscall) (v : Var) :
    flow (effect c) (mapBlockno v) true=some true := rfl

/-- `end_op` may commit after the operation. -/
theorem flow_commit (c : Syscall) :
    flow (effect c) (acts [.commit,.endCommit]) false=some false := rfl

/-- What is left of each call, who is inside an operation and how many operations are counted stay
the same. -/
structure Keeps (s t : System) : Prop where
  /-- The calls. -/
  call : ∀ q,(t.procs q).call=(s.procs q).call
  /-- What is left of them. -/
  rest : ∀ q,(t.procs q).rest=(s.procs q).rest
  /-- The processes inside. -/
  inside : t.inside=s.inside
  /-- The count of the log. -/
  outstanding : t.log.outstanding=s.log.outstanding

/-- Two changes that keep the operations. -/
theorem Keeps.trans {s t u : System} (h : Keeps s t) (h' : Keeps t u) : Keeps s u where
  call q := (h'.call q).trans (h.call q)
  rest q := (h'.rest q).trans (h.rest q)
  inside := h'.inside.trans h.inside
  outstanding := h'.outstanding.trans h.outstanding

/-- Changing other fields of a process keeps the operations. -/
theorem keeps_setProc {s : System} {p : ℕ} {q : Proc} (hc : q.call=(s.procs p).call)
    (hr : q.rest=(s.procs p).rest) : Keeps s (s.setProc p q) := by
  refine ⟨fun r => ?_,fun r => ?_,rfl,rfl⟩
  all_goals
    by_cases h : r=p
    · subst h
      simp only [System.setProc,Function.update_self,hc,hr]
    · simp only [System.setProc,Function.update_of_ne h]

/-- A section of the cache keeps the operations. -/
theorem keeps_onCache {s t : System} {a : InodeCache.Label} (h : s.onCache a=.next t) :
    Keeps s t := by
  rw [System.onCache] at h
  split at h
  · cases h
  · cases h
  · cases h
    exact ⟨fun _ => rfl,fun _ => rfl,rfl,rfl⟩

/-- A write to the log keeps the operations. -/
theorem keeps_logWrite {s t : System} {x : Input} (h : s.logWrite x=.next t) : Keeps s t := by
  rw [System.logWrite] at h
  split at h
  · cases h
  · rename_i log pinned hw
    cases h
    refine ⟨fun _ => rfl,fun _ => rfl,rfl,?_⟩
    obtain ⟨_,rfl,_⟩ | ⟨_,_,_,rfl,_⟩ := LogMemory.write_eq_ok hw <;> rfl

/-- One process goes on with a command before what is left of its call, and these processes are
inside an operation. -/
structure Moves (s t : System) (p : ℕ) (c : Cmd Act) (inside : Finset ℕ) : Prop where
  /-- The calls stay. -/
  call : ∀ q,(t.procs q).call=(s.procs q).call
  /-- The other processes do not move. -/
  other : ∀ q,q≠p → (t.procs q).rest=(s.procs q).rest
  /-- What is left of the call. -/
  rest : (t.procs p).rest=flat c (s.procs p).rest
  /-- The processes inside. -/
  inside : t.inside=inside

/-- What an action does to the operations and to what is left of the calls. -/
inductive Change (s : System) (p : ℕ) (x : Input) (t : System) : Act → Prop
  /-- An operation begins. -/
  | begins (moves : Moves s t p .skip (insert p s.inside))
      (out : t.log.outstanding=s.log.outstanding+1) : Change s p x t .beginOp
  /-- An operation ends, and the last one commits. -/
  | ends {c : Cmd Act} (moves : Moves s t p c (s.inside.erase p))
      (commit : c=.skip ∨ c=acts [.commit,.endCommit])
      (out : t.log.outstanding+1=s.log.outstanding) : Change s p x t .endOp
  /-- A handle is dropped, and the inode with it. -/
  | deletes {v : Var} (last : deletes s.cache (s.handle p v))
      (moves : Moves s t p (delete v) s.inside) (out : t.log.outstanding=s.log.outstanding) :
      Change s p x t (.put v)
  /-- A block that is read is not there. -/
  | hole {v : Var} (absent : ¬mapped s.words (s.contents p v).dinode x.block)
      (moves : Moves s t p (mapBlockno v) s.inside) (out : t.log.outstanding=s.log.outstanding) :
      Change s p x t (.read v)
  /-- Anything else. -/
  | other {a : Act} (begin : a≠.beginOp) (fin : a≠.endOp) (keeps : Keeps s t) : Change s p x t a

/-- A process that goes on without more to do. -/
theorem Keeps.moves {s t : System} (h : Keeps s t) (p : ℕ) : Moves s t p .skip s.inside :=
  ⟨h.call,fun q _ => h.rest q,h.rest p,h.inside⟩

section Fields

variable (s : System) (p : ℕ)

@[simp] theorem setProc_self (q : Proc) : (s.setProc p q).procs p=q := Function.update_self ..

theorem setProc_other {q : Proc} {r : ℕ} (h : r≠p) : (s.setProc p q).procs r=s.procs r :=
  Function.update_of_ne h ..

@[simp] theorem setRest_rest (rest : List (Cmd Act)) : ((s.setRest p rest).procs p).rest=rest := by
  rw [System.setRest,setProc_self]

@[simp] theorem setRest_call (rest : List (Cmd Act)) (q : ℕ) :
    ((s.setRest p rest).procs q).call=(s.procs q).call := by
  by_cases h : q=p
  · subst h
    rw [System.setRest,setProc_self]
  · rw [System.setRest,setProc_other s p h]

theorem setRest_other {rest : List (Cmd Act)} {q : ℕ} (h : q≠p) :
    ((s.setRest p rest).procs q).rest=(s.procs q).rest := by
  rw [System.setRest,setProc_other s p h]

theorem setRest_handle (rest : List (Cmd Act)) (v : Var) :
    (s.setRest p rest).handle p v=s.handle p v := by
  rw [System.handle,System.setRest,setProc_self]
  rfl

theorem setRest_contents (rest : List (Cmd Act)) (v : Var) :
    (s.setRest p rest).contents p v=s.contents p v := by
  rw [System.contents,setRest_handle]
  rfl

end Fields

/-- A process that goes on with a command. -/
theorem moves_push {s u : System} {p : ℕ} {c : Cmd Act} (hc : ∀ q,(u.procs q).call=(s.procs q).call)
    (hr : ∀ q,(u.procs q).rest=(s.procs q).rest) : Moves s (u.push p c) p c u.inside := by
  refine ⟨fun q => ?_,fun q hq => ?_,?_,rfl⟩
  · rw [System.push,setRest_call,hc]
  · rw [System.push,setRest_other u p hq,hr]
  · rw [System.push,setRest_rest,hr]

/-- Two steps of which the second is `LOG.write` keep the operations. -/
theorem keeps_bind_logWrite {s t : System} {a : InodeCache.Label} {x : Input}
    (h : (s.onCache a).bind (fun u => u.logWrite x)=.next t) : Keeps s t := by
  obtain ⟨u,hu,ht⟩ := Outcome.bind_eq_next h
  exact (keeps_onCache hu).trans (keeps_logWrite ht)

/-- A new handle in a variable keeps the operations. -/
theorem keeps_bind_handle {s t : System} {a : InodeCache.Label} {p n : ℕ} {v : Var}
    (h : (s.onCache a).bind (fun u => .next (u.bind p v n))=.next t) : Keeps s t := by
  obtain ⟨u,hu,ht⟩ := Outcome.bind_eq_next h
  cases ht
  exact (keeps_onCache hu).trans (keeps_setProc rfl rfl)

/-- Nothing else is done to the operations. -/
theorem perform_change {s t : System} {p : ℕ} {x : Input} {a : Act}
    (h : perform s p x a=.next t) : Change s p x t a := by
  have refl : Keeps s s := ⟨fun _ => rfl,fun _ => rfl,rfl,rfl⟩
  cases a with
  | beginOp =>
    rw [perform] at h
    split at h
    · cases h
    · rename_i log hb
      cases h
      obtain ⟨_,_,rfl⟩ := LogMemory.beginOp_eq_some hb
      exact .begins ⟨fun _ => rfl,fun _ _ => rfl,rfl,rfl⟩ rfl
  | endOp =>
    rw [perform] at h
    split at h
    · cases h
    · rename_i log commits he
      have ho := LogMemory.endOp_outstanding he
      dsimp only at h
      split at h
      · cases h
        exact .ends (moves_push (fun _ => rfl) fun _ => rfl) (.inr rfl) ho
      · cases h
        exact .ends ⟨fun _ => rfl,fun _ _ => rfl,rfl,rfl⟩ (.inl rfl) ho
  | commit =>
    rw [perform] at h
    split at h
    · cases h
    · rename_i log hc
      cases h
      refine .other Act.noConfusion Act.noConfusion ⟨fun _ => rfl,fun _ => rfl,rfl,?_⟩
      rw [LogMemory.commit] at hc
      split at hc
      · cases hc
      · split at hc <;> cases hc <;> rfl
  | endCommit =>
    cases h
    exact .other Act.noConfusion Act.noConfusion ⟨fun _ => rfl,fun _ => rfl,rfl,rfl⟩
  | write => exact .other Act.noConfusion Act.noConfusion (keeps_logWrite h)
  | alloc itype =>
    rw [perform] at h
    split at h
    · cases h
    · obtain ⟨u,hu,ht⟩ := Outcome.bind_eq_next h
      have hp : Keeps u (u.setProc p {u.procs p with inum := x.inum}) := keeps_setProc rfl rfl
      exact .other Act.noConfusion Act.noConfusion
        (((keeps_onCache hu).trans hp).trans (keeps_logWrite ht))
  | get v source =>
    rw [perform] at h
    split at h
    · cases h
    · exact .other Act.noConfusion Act.noConfusion (keeps_bind_handle h)
  | dup v w => exact .other Act.noConfusion Act.noConfusion (keeps_bind_handle h)
  | lock v => exact .other Act.noConfusion Act.noConfusion (keeps_onCache h)
  | load v =>
    rw [perform] at h
    split at h
    · cases h
      exact .other Act.noConfusion Act.noConfusion refl
    · exact .other Act.noConfusion Act.noConfusion (keeps_onCache h)
  | edit v e =>
    rw [perform] at h
    split at h
    · cases h
    · exact .other Act.noConfusion Act.noConfusion (keeps_onCache h)
  | update v => exact .other Act.noConfusion Act.noConfusion (keeps_bind_logWrite h)
  | unlock v => exact .other Act.noConfusion Act.noConfusion (keeps_onCache h)
  | put v =>
    obtain ⟨u,hu,ht⟩ := Outcome.bind_eq_next h
    split at ht
    · rename_i hd
      cases ht
      have hk := keeps_onCache hu
      refine .deletes hd ?_ hk.outstanding
      rw [← hk.inside]
      exact moves_push hk.call hk.rest
    · cases ht
      exact .other Act.noConfusion Act.noConfusion (keeps_onCache hu)
  | truncate v => exact .other Act.noConfusion Act.noConfusion (keeps_bind_logWrite h)
  | clear v => exact .other Act.noConfusion Act.noConfusion (keeps_onCache h)
  | finish v => exact .other Act.noConfusion Act.noConfusion (keeps_onCache h)
  | read v =>
    rw [perform] at h
    split at h
    · cases h
    · split at h
      · cases h
        exact .other Act.noConfusion Act.noConfusion refl
      · rename_i hm
        cases h
        exact .hole hm (moves_push (fun _ => rfl) fun _ => rfl) rfl
  | itype v ty is =>
    rw [perform] at h
    split at h
    · cases h
      exact .other Act.noConfusion Act.noConfusion refl
    · cases h
  | ret b =>
    cases h
    exact .other Act.noConfusion Act.noConfusion (keeps_setProc rfl rfl)
  | check b =>
    rw [perform] at h
    split at h
    · cases h
      exact .other Act.noConfusion Act.noConfusion refl
    · cases h
  | move v w =>
    cases h
    exact .other Act.noConfusion Act.noConfusion (keeps_setProc rfl rfl)
  | openFile v =>
    cases h
    exact .other Act.noConfusion Act.noConfusion ⟨fun _ => rfl,fun _ => rfl,rfl,rfl⟩
  | borrow v =>
    rw [perform] at h
    split at h
    · cases h
      exact .other Act.noConfusion Act.noConfusion (keeps_setProc rfl rfl)
    · cases h
  | take v =>
    rw [perform] at h
    split at h
    · cases h
      have hf : Keeps s {s with files := s.files.erase x.handle} :=
        ⟨fun _ => rfl,fun _ => rfl,rfl,rfl⟩
      exact .other Act.noConfusion Act.noConfusion (hf.trans (keeps_setProc rfl rfl))
    · cases h
  | panic => cases h

/-- A write to the log that is out of recording finds no operation open. -/
theorem logWrite_outOfRecording {s : System} {x : Input}
    (h : s.logWrite x=.fault (.log .outOfRecording)) : s.log.outstanding=0 := by
  rw [System.logWrite] at h
  split at h
  · rename_i e hw
    cases h
    exact LogMemory.write_outOfRecording hw
  · cases h

/-- A section of the cache does not touch the log. -/
theorem onCache_ne_log {s : System} {a : InodeCache.Label} {e : LogMemory.LogPanic} :
    s.onCache a≠.fault (.log e) := by
  intro h
  rw [System.onCache] at h
  split at h
  · cases h
  · cases h
  · cases h

/-- A write after a section of the cache is out of recording only when no operation is open. -/
theorem bind_logWrite_outOfRecording {s : System} {a : InodeCache.Label} {x : Input}
    {f : System → System} (hf : ∀ u,Keeps u (f u))
    (h : (s.onCache a).bind (fun u => (f u).logWrite x)=.fault (.log .outOfRecording)) :
    s.log.outstanding=0 := by
  obtain h | ⟨u,hu,h⟩ := Outcome.bind_eq_fault h
  · exact absurd h onCache_ne_log
  · rw [← ((keeps_onCache hu).trans (hf u)).outstanding]
    exact logWrite_outOfRecording h

/-- Only an action that writes a block can be out of recording, when no operation is open. -/
theorem perform_outOfRecording {s : System} {p : ℕ} {x : Input} {a : Act}
    (h : perform s p x a=.fault (.log .outOfRecording)) :
    a.writes=true ∧ s.log.outstanding=0 := by
  have refl : ∀ u,Keeps u u := fun _ => ⟨fun _ => rfl,fun _ => rfl,rfl,rfl⟩
  cases a with
  | write => exact ⟨rfl,logWrite_outOfRecording h⟩
  | update v => exact ⟨rfl,bind_logWrite_outOfRecording refl h⟩
  | truncate v => exact ⟨rfl,bind_logWrite_outOfRecording refl h⟩
  | alloc itype =>
    rw [perform] at h
    split at h
    · cases h
    · have hf : ∀ u : System,Keeps u (u.setProc p {u.procs p with inum := x.inum}) :=
        fun u => keeps_setProc rfl rfl
      exact ⟨rfl,bind_logWrite_outOfRecording hf h⟩
  | beginOp =>
    rw [perform] at h
    split at h <;> cases h
  | endOp =>
    rw [perform,LogMemory.endOp] at h
    split at h
    · rename_i e he
      cases h
      split at he
      · cases he
      split at he
      · cases he
      split at he <;> cases he
    · cases h
  | commit =>
    rw [perform,LogMemory.commit] at h
    split at h
    · rename_i e he
      cases h
      split at he
      · cases he
      split at he <;> cases he
    · cases h
  | endCommit => cases h
  | get v source =>
    rw [perform] at h
    split at h
    · cases h
    · obtain h | ⟨u,_,h⟩ := Outcome.bind_eq_fault h
      · exact absurd h onCache_ne_log
      · cases h
  | dup v w =>
    obtain h | ⟨u,_,h⟩ := Outcome.bind_eq_fault h
    · exact absurd h onCache_ne_log
    · cases h
  | lock v => exact absurd h onCache_ne_log
  | load v =>
    rw [perform] at h
    split at h
    · cases h
    · exact absurd h onCache_ne_log
  | edit v e =>
    rw [perform] at h
    split at h
    · cases h
    · exact absurd h onCache_ne_log
  | unlock v => exact absurd h onCache_ne_log
  | put v =>
    obtain h | ⟨u,_,h⟩ := Outcome.bind_eq_fault h
    · exact absurd h onCache_ne_log
    · cases h
  | clear v => exact absurd h onCache_ne_log
  | finish v => exact absurd h onCache_ne_log
  | read v =>
    rw [perform] at h
    split at h <;> cases h
  | itype v ty is =>
    rw [perform] at h
    split at h <;> cases h
  | ret b => cases h
  | check b =>
    rw [perform] at h
    split at h <;> cases h
  | move v w => cases h
  | openFile v => cases h
  | borrow v =>
    rw [perform] at h
    split at h <;> cases h
  | take v =>
    rw [perform] at h
    split at h <;> cases h
  | panic => cases h

/-- Blocks are written inside an operation only. -/
theorem effect_writes {c : Syscall} {a : Act} {b b' : Bool} (ha : a.writes=true)
    (h : effect c a b=some b') : b=true := by
  cases b with
  | true => rfl
  | false => cases a <;> cases ha <;> cases h

/-- Only `begin_op` and `end_op` change whether a process is inside an operation. -/
theorem effect_keeps {c : Syscall} {a : Act} {b b' : Bool} (hb : a≠.beginOp) (he : a≠.endOp)
    (h : effect c a b=some b') : b'=b := by
  unfold effect at h
  split at h
  · exact absurd rfl hb
  · exact absurd rfl he
  all_goals
    split at h
    all_goals
      cases h
    all_goals
      rfl

/-- The first action that is left. -/
def nextAct : List (Cmd Act) → Option Act
  | .act a::_ => some a
  | _ => none

/-- What is left of each call keeps to what is allowed, and the log counts the processes inside an
operation. -/
structure Orderly (s : System) : Prop where
  /-- The calls. -/
  flows : ∀ p,flowAll (effect (s.procs p).call) (s.procs p).rest (decide (p∈s.inside))=some false
  /-- The count of the log. -/
  counted : s.log.outstanding=s.inside.card

/-- What a process may do outside an operation: `sys_link` does not drop the last reference to an
inode without links, and `sys_read` finds the blocks of the file. -/
def Permitted (s : System) (p : ℕ) (x : Input) (a : Option Act) : Prop :=
  ((s.procs p).call=.link → ∀ v∈a.bind Act.drops,¬deletes s.cache (s.handle p v)) ∧
    ((s.procs p).call=.read → ∀ v∈a.bind Act.reads,mapped s.words (s.contents p v).dinode x.block)

instance (s : System) (p : ℕ) (x : Input) (a : Option Act) : Decidable (Permitted s p x a) :=
  inferInstanceAs (Decidable (_ ∧ _))

/-- The steps that keep log writes inside operations. -/
def Covered (s : System) : Label → Prop
  | .act p x => p∉s.inside → Permitted s p x (nextAct (s.procs p).rest)
  | _ => True

instance (s : System) : ∀ a,Decidable (Covered s a)
  | .call _ _ => inferInstanceAs (Decidable True)
  | .branch _ _ => inferInstanceAs (Decidable True)
  | .act p x =>
    inferInstanceAs (Decidable (p∉s.inside → Permitted s p x (nextAct (s.procs p).rest)))

/-- A process that goes on as its call allows keeps the calls in order. -/
theorem Moves.orderly {s t : System} {p : ℕ} {c : Cmd Act} {inside : Finset ℕ}
    {rest : List (Cmd Act)} {b : Bool} (h : Orderly s) (hm : Moves (s.setRest p rest) t p c inside)
    (hf : flowAll (effect (s.procs p).call) rest b=some false)
    (hc : flow (effect (s.procs p).call) c b=some b) (hb : decide (p∈inside)=b)
    (hi : ∀ q,q≠p → (q∈inside ↔ q∈s.inside)) (ho : t.log.outstanding=inside.card) :
    Orderly t := by
  have hin := hm.inside
  subst hin
  refine ⟨fun q => ?_,ho⟩
  rw [hm.call,setRest_call]
  by_cases hq : q=p
  · subst hq
    rw [hm.rest,setRest_rest,flowAll_flat,hb,hc]
    exact hf
  · rw [hm.other q hq,setRest_other s p hq,decide_eq_decide.mpr (hi q hq)]
    exact h.flows q

/-- An action that is permitted keeps the calls in order. -/
theorem perform_orderly {s t : System} {p : ℕ} {x : Input} {a : Act} {rest : List (Cmd Act)}
    (h : Orderly s) (hr : (s.procs p).rest=.act a::rest)
    (hp : p∉s.inside → Permitted s p x (some a))
    (hs : perform (s.setRest p rest) p x a=.next t) : Orderly t := by
  have hflow := h.flows p
  rw [hr] at hflow
  obtain ⟨b,he,hf⟩ := flowAll_act hflow
  have hsame : ∀ q,q≠p → (q∈s.inside ↔ q∈s.inside) := fun _ _ => Iff.rfl
  cases perform_change hs with
  | begins moves out =>
    have hout : p∉s.inside := by
      intro hin
      rw [decide_eq_true hin] at he
      cases he
    rw [decide_eq_false hout] at he
    cases he
    refine moves.orderly h hf rfl (decide_eq_true (Finset.mem_insert_self p s.inside))
      (fun q hq => Finset.mem_insert.trans (or_iff_right hq)) ?_
    change _=(insert p s.inside).card
    rw [out,Finset.card_insert_of_notMem hout,← h.counted]
    rfl
  | @ends c moves commit out =>
    have hin : p∈s.inside := by
      by_contra hout
      rw [decide_eq_false hout] at he
      cases he
    rw [decide_eq_true hin] at he
    cases he
    refine moves.orderly h hf ?_ (decide_eq_false (Finset.notMem_erase p s.inside))
      (fun q hq => Finset.mem_erase.trans (and_iff_right hq)) ?_
    · obtain rfl | rfl := commit
      · rfl
      · exact flow_commit _
    · change _=(s.inside.erase p).card
      have ho : t.log.outstanding+1=s.log.outstanding := out
      rw [Finset.card_erase_of_mem hin,← h.counted]
      omega
  | @deletes v last moves out =>
    rw [setRest_handle] at last
    have hin : p∈s.inside := by
      by_contra hout
      rw [decide_eq_false hout,effect] at he
      split at he
      · rename_i hl
        exact (hp hout).1 (hl.resolve_left Bool.false_ne_true) v rfl last
      · cases he
    rw [decide_eq_true hin] at he
    cases he
    exact moves.orderly h hf (flow_delete _ v) (decide_eq_true hin) hsame (out.trans h.counted)
  | @hole v absent moves out =>
    rw [setRest_contents] at absent
    have hin : p∈s.inside := by
      by_contra hout
      rw [decide_eq_false hout,effect] at he
      split at he
      · rename_i hl
        exact absent ((hp hout).2 (hl.resolve_left Bool.false_ne_true) v rfl)
      · cases he
    rw [decide_eq_true hin] at he
    cases he
    exact moves.orderly h hf (flow_mapBlockno _ v) (decide_eq_true hin) hsame (out.trans h.counted)
  | other begin fin keeps =>
    cases effect_keeps begin fin he
    exact (keeps.moves p).orderly h hf rfl rfl hsame (keeps.outstanding.trans h.counted)

/-- A step that is covered keeps the calls in order. -/
theorem step_orderly {s t : System} {a : Label} (h : Orderly s) (hc : Covered s a)
    (hs : step s a=.next t) : Orderly t := by
  cases a with
  | call p c =>
    rw [step] at hs
    split at hs
    · rename_i hr
      cases hs
      have hout : p∉s.inside := by
        intro hin
        have hf := h.flows p
        rw [hr,decide_eq_true hin] at hf
        cases hf
      refine ⟨fun q => ?_,h.counted⟩
      by_cases hq : q=p
      · subst hq
        rw [setProc_self]
        change flowAll _ _ (decide (q∈s.inside))=_
        rw [decide_eq_false hout]
        change flowAll (effect c) (flat (program c) []) false=some false
        rw [flowAll_flat,flow_program]
        rfl
      · rw [setProc_other s p hq]
        exact h.flows q
    · cases hs
  | branch p b =>
    rw [step] at hs
    split at hs
    · cases hs
    · rename_i rest hu
      cases hs
      refine ⟨fun q => ?_,h.counted⟩
      rw [setRest_call]
      by_cases hq : q=p
      · subst hq
        rw [setRest_rest]
        exact flowAll_unfold (h.flows q) hu
      · rw [setRest_other s p hq]
        exact h.flows q
  | act p x =>
    rw [step] at hs
    split at hs
    · rename_i a rest hr
      rw [Covered,hr] at hc
      exact perform_orderly h hr hc hs
    · cases hs

/-- No covered step is out of recording. -/
theorem step_inRecording {s : System} {a : Label} (h : Orderly s) :
    step s a≠.fault (.log .outOfRecording) := by
  intro hs
  cases a with
  | call p c =>
    rw [step] at hs
    split at hs <;> cases hs
  | branch p b =>
    rw [step] at hs
    split at hs <;> cases hs
  | act p x =>
    rw [step] at hs
    split at hs
    · rename_i a rest hr
      obtain ⟨hw,ho⟩ := perform_outOfRecording hs
      have hf := h.flows p
      rw [hr] at hf
      obtain ⟨b,he,_⟩ := flowAll_act hf
      have hin : p∈s.inside := of_decide_eq_true (effect_writes hw he)
      have hpos : 0 < s.inside.card := Finset.card_pos.mpr ⟨p,hin⟩
      rw [← h.counted] at hpos
      exact absurd ho (Nat.ne_of_gt hpos)
    · cases hs

/-- No process makes a call, and no operation is open. -/
structure Boot (s : System) : Prop where
  /-- No call. -/
  idle : ∀ p,(s.procs p).rest=[]
  /-- No process is inside an operation. -/
  inside : s.inside=∅
  /-- The log counts none. -/
  counted : s.log.outstanding=0

/-- The calls are in order when there are none. -/
theorem Boot.orderly {s : System} (h : Boot s) : Orderly s := by
  refine ⟨fun p => ?_,?_⟩
  · rw [h.idle,h.inside]
    rfl
  · rw [h.counted,h.inside]
    rfl

/-- In every interleaving of the system calls in which `sys_link` drops no last reference to an
inode without links after its `end_op`, and `sys_read` finds the blocks of the files, a process
that is about to write a block to the log is between its own `begin_op` and its `end_op`, and no
write is out of recording. -/
theorem log_writes_inside {s : System} {as : List Label} (hs : Boot s)
    (hg : Guarded step Covered s as) :
    run step s as≠.fault (.log .outOfRecording) ∧
      ∀ t,run step s as=.next t → ∀ p a,nextAct (t.procs p).rest=some a → a.writes=true →
        p∈t.inside := by
  have hstep : ∀ s a t,Orderly s → Covered s a → step s a=.next t → Orderly t :=
    fun s a t h hc => step_orderly h hc
  refine ⟨run_no_fault hstep (fun s a h _ => step_inRecording h) hs.orderly hg,?_⟩
  intro t ht p a ha hw
  have h : Orderly t := run_invariant hstep hs.orderly hg ht
  have hf := h.flows p
  unfold nextAct at ha
  split at ha
  · rename_i a' rest hr
    cases ha
    rw [hr] at hf
    obtain ⟨b,he,_⟩ := flowAll_act hf
    exact of_decide_eq_true (effect_writes hw he)
  · cases ha

/-- A file system with an empty directory in its root. -/
def twoDirectories : ℕ×ℕ → DiskInode := fun k =>
  if k=(1,1) then ⟨.directory,0,0,2,48,fun i => if i=0 then 50 else 0⟩
  else if k=(1,2) then ⟨.directory,0,0,1,32,fun i => if i=0 then 51 else 0⟩
  else DiskInode.new

/-- The file system before any call. -/
def booted : System :=
  { cache := InodeCache.boot twoDirectories
    log := ⟨2,30,1,0,false,⟨0,Vector.replicate _ 0⟩⟩
    words := fun _ _ => 0
    files := ∅
    procs := fun _ => ⟨.exit,[],fun _ => 0,0,false⟩
    inside := ∅ }

/-- No call, and no operation. -/
theorem boot_booted : Boot booted := ⟨fun _ => rfl,rfl,rfl⟩

/-- Branches of a process. -/
def branches (p : ℕ) (bs : List Bool) : List Label := bs.map (.branch p)

/-- Actions of a process that take nothing from outside. -/
def go (p n : ℕ) : List Label := List.replicate n (.act p {})

/-- `link` of the directory, up to the drop of its guard after `end_op`. -/
def linkDirectory : List Label :=
  [.call 1 .link]++go 1 1++branches 1 [true]++[.act 1 {handle := 1}]++branches 1 [true]++go 1 3++
    branches 1 [true]++go 1 1++branches 1 [false,true]++[.act 1 {handle := 2,inum := 2}]++go 1 5++
    branches 1 [false,true]++go 1 1++branches 1 [true]++go 1 4++branches 1 [true]++go 1 5

/-- `unlink` of the directory, up to the drop of its handle. -/
def unlinkDirectory : List Label :=
  [.call 2 .unlink]++go 2 1++branches 2 [true]++[.act 2 {handle := 3}]++branches 2 [false,false]++
    go 2 2++branches 2 [true]++go 2 1++branches 2 [true]++go 2 2++branches 2 [true]++go 2 4++
    branches 2 [false,true]++go 2 1++branches 2 [false,true]++[.act 2 {handle := 4,inum := 2}]++
    go 2 1++branches 2 [true]++go 2 3++branches 2 [true,false,true]++go 2 1++
    branches 2 [false,false,true,true,true]++[.act 2 {blockno := 50}]++branches 2 [false,false]++
    [.act 2 {blockno := 32}]++branches 2 [true]++go 2 1++branches 2 [true]++go 2 1++
    branches 2 [true]++go 2 2++[.act 2 {blockno := 32}]++go 2 1++[.act 2 {blockno := 32}]++go 2 2

/-- The handle of the link is dropped in time, and the unlink deletes the directory. -/
def orderlySchedule : List Label :=
  linkDirectory++go 1 1++unlinkDirectory++branches 2 [true,true]++[.act 2 {blockno := 40}]++
    branches 2 [false]

/-- Process 2 deletes the directory inside its operation. -/
theorem log_writes_inside_unlink : Guarded step Covered booted orderlySchedule ∧
    ∃ t,run step booted orderlySchedule=.next t ∧
      nextAct (t.procs 2).rest=some (.truncate .entry) ∧ 2∈t.inside := by
  have hg : Guarded step Covered booted orderlySchedule := by decide +kernel
  have hr : (run step booted orderlySchedule).test
      (fun t => nextAct (t.procs 2).rest=some (.truncate .entry))=true := by decide +kernel
  obtain ⟨t,ht,hn⟩ := Outcome.exists_of_test hr
  have hnext := of_decide_eq_true hn
  exact ⟨hg,t,ht,hnext,(log_writes_inside boot_booted hg).2 t ht 2 _ hnext rfl⟩

/-- The handle of the link is dropped after the unlink has ended its operation. -/
def lateDropSchedule : List Label :=
  linkDirectory++unlinkDirectory++go 2 6++go 1 1++branches 1 [true,true]++go 1 1

/-- Process 1 has ended its operation when it drops the last reference to the directory that
process 2 has unlinked: freeing its block is out of recording. -/
theorem link_drop_out_of_recording : Boot booted ∧
    run step booted lateDropSchedule=.fault (.log .outOfRecording) := by
  exact ⟨boot_booted,Outcome.eq_fault (by decide +kernel)⟩

end Xv6Rust.FsTransactions
