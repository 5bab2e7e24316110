import Xv6Rust.InodeSound

/-!
# Blocks passed to the log

The operations of `InodeLayer` once more, with the numbers of the blocks that they pass to
`LOG.write`, and the spans from `begin_op` to `end_op`: a batch of `fwrite`, `open`, the system
calls on paths, and the drop of a file or of the current directory.
-/

namespace Xv6Rust.LogWrites

open Bytes DiskLayout InodeLayer

/-- `MAXOPBLOCKS`. -/
def maxOpBlocks : ℕ := 10

/-- The disk, and the blocks passed to `LOG.write`, the last one first. -/
structure Logged where
  /-- Contents of the blocks. -/
  disk : Disk
  /-- Blocks passed. -/
  passed : List ℕ

/-- `LOG.write` of a buffer that was changed. -/
def Logged.write (l : Logged) (b : ℕ) (buf : Buffer) : Logged :=
  ⟨Function.update l.disk b buf,b::l.passed⟩

section Contents

variable (sb : SuperBlock) (l : Logged)

/-- `bm_alloc`. -/
def bmAlloc : Except Stop (ℕ×Logged) :=
  match bmFind sb l.disk with
  | none => .error .noFreeBlock
  | some (base,offset) =>
    let bm := sb.bitmapBlockno base
    let l := l.write bm (setBit (l.disk bm) offset true)
    .ok (base+offset,l.write (base+offset) fun _ => 0)

/-- `bm_free`. -/
def bmFree (blockno : ℕ) : Except Stop Logged :=
  let bm := sb.bitmapBlockno blockno
  let offset := blockno%bpb
  if getBit (l.disk bm) offset=true then .ok (l.write bm (setBit (l.disk bm) offset false))
  else .error .doubleFree

/-- `LOG.write` of the block of an inode. -/
def putInodeAt (inum : ℕ) (di : DiskInode) : Logged :=
  ⟨DiskLayout.putInodeAt sb l.disk inum di,sb.locateInode inum::l.passed⟩

/-- `inode_alloc`. -/
def inodeAlloc (itype : InodeType) : Except Stop (ℕ×Logged) :=
  match (List.range' 1 (sb.ninodes-1)).find? fun inum =>
    (inodeAt sb l.disk inum).itype=.empty with
  | none => .error .noFreeInode
  | some inum => .ok (inum,putInodeAt sb l inum {DiskInode.new with itype := itype})

/-- `map_blockno`. -/
def mapBlockno (di : DiskInode) (bn : ℕ) : Except Stop (ℕ×Logged×DiskInode) :=
  if bn<ndirect then
    if di.addr bn=0 then do
      let (free,l) ← bmAlloc sb l
      return (free,l,di.setAddr bn free)
    else return (di.addr bn,l,di)
  else if bn<ndirect+nindirect then do
    let (indirect,l,di) ←
      if di.addr ndirect=0 then do
        let (free,l) ← bmAlloc sb l
        pure (free,l,di.setAddr ndirect free)
      else pure (di.addr ndirect,l,di)
    let count := bn-ndirect
    let b := word (l.disk indirect) count
    if b=0 then do
      let (free,l) ← bmAlloc sb l
      return (free,l.write indirect (putWord (l.disk indirect) count free),di)
    else return (b,l,di)
  else throw .blockRange

/-- `update`. -/
def updateInode (inum : ℕ) (di : DiskInode) : Except Stop Logged :=
  if inum ≥ sb.ninodes then .error .inumRange else .ok (putInodeAt sb l inum di)

end Contents

section Loops

variable (sb : SuperBlock)

/-- The loop of `iread` into kernel memory. -/
def ireadLoop : ℕ → Logged → DiskInode → ℕ → ℕ → ℕ → ℕ → Buffer →
    Except Stop (Buffer×Logged×DiskInode)
  | 0,l,di,_,_,_,_,dst => .ok (dst,l,di)
  | fuel+1,l,di,blockBase,blockOffset,count,pos,dst =>
    if count=0 then .ok (dst,l,di)
    else do
      let (bn,l,di) ← mapBlockno sb l di blockBase
      let readCount := min (bsize-blockOffset) count
      ireadLoop fuel l di (blockBase+1) 0 (count-readCount) (pos+readCount)
        (splice dst pos (fun j => l.disk bn (blockOffset+j)) readCount)

/-- `iread` into kernel memory. -/
def iread (l : Logged) (di : DiskInode) (offset count : ℕ) :
    Except Stop (Option Buffer×Logged×DiskInode) :=
  if offset+count≥2^32 ∨ offset+count>di.size.toNat then .ok (none,l,di)
  else do
    let (dst,l,di) ← ireadLoop sb count l di (offset/bsize) (offset%bsize) count 0 fun _ => 0
    return (some dst,l,di)

/-- The loop of `try_iwrite`. A block that could not be copied to the end is not passed. -/
def writeLoop (src : Source) : ℕ → Logged → DiskInode → ℕ → ℕ → ℕ → ℕ →
    Except Stop (ℕ×Logged×DiskInode)
  | 0,l,di,_,_,count,_ => .ok (count,l,di)
  | fuel+1,l,di,blockBase,blockOffset,count,pos =>
    if count=0 then .ok (count,l,di)
    else do
      let (bn,l,di) ← mapBlockno sb l di blockBase
      let writeCount := min (bsize-blockOffset) count
      let (bytes,copied) := src pos writeCount
      let buf := splice (l.disk bn) blockOffset bytes (min copied writeCount)
      let failed : Logged := ⟨Function.update l.disk bn buf,l.passed⟩
      if copied<writeCount then .ok (count,failed,di)
      else
        writeLoop src fuel (l.write bn buf) di (blockBase+1) 0 (count-writeCount) (pos+writeCount)

/-- `try_iwrite`. -/
def tryIwrite (inum : ℕ) (src : Source) (offset count : ℕ) (l : Logged) (di : DiskInode) :
    Except Stop (Option ℕ×Logged×DiskInode) :=
  if offset>di.size.toNat ∨ offset+count≥2^32 ∨ offset+count>maxFileSize then .ok (none,l,di)
  else do
    let (left,l,di) ← writeLoop sb src count l di (offset/bsize) (offset%bsize) count 0
    let size := offset+count-left
    let di := if size>di.size.toNat then {di with size := UInt32.ofNat size} else di
    let l ← updateInode sb l inum di
    return (some (size-offset),l,di)

/-- The direct blocks in `truncate`. -/
def freeDirect : List ℕ → Logged → DiskInode → Except Stop (Logged×DiskInode)
  | [],l,di => .ok (l,di)
  | p::ps,l,di =>
    if di.addr p>0 then do
      let l ← bmFree sb l (di.addr p)
      freeDirect ps l (di.setAddr p 0)
    else freeDirect ps l di

/-- The blocks of the indirect block in `truncate`. -/
def freeEntries (buf : Buffer) : List ℕ → Logged → Except Stop Logged
  | [],l => .ok l
  | k::ks,l =>
    if word buf k>0 then do
      let l ← bmFree sb l (word buf k)
      freeEntries buf ks l
    else freeEntries buf ks l

/-- `truncate`. -/
def truncate (inum : ℕ) (l : Logged) (di : DiskInode) : Except Stop (Logged×DiskInode) := do
  let (l,di) ← freeDirect sb (List.range ndirect) l di
  let (l,di) ←
    if di.addr ndirect>0 then do
      let l ← freeEntries sb (l.disk (di.addr ndirect)) (List.range nindirect) l
      let l ← bmFree sb l (di.addr ndirect)
      pure (l,di.setAddr ndirect 0)
    else pure (l,di)
  let di := {di with size := 0}
  let l ← updateInode sb l inum di
  return (l,di)

end Loops

/-- A span between `begin_op` and `end_op`: the file system, and the blocks passed so far. -/
structure Span where
  /-- The file system. -/
  fs : Fs
  /-- Blocks passed to `LOG.write`. -/
  passed : List ℕ

/-- What is done in a span. -/
abbrev SpanM := StateT Span (Except Stop)

/-- The disk of the file system, as the span sees it. -/
def Span.logged (s : Span) : Logged := ⟨s.fs.disk,s.passed⟩

/-- The disk is changed through the log. -/
def Span.setLogged (s : Span) (l : Logged) : Span := ⟨{s.fs with disk := l.disk},l.passed⟩

/-- An operation that passes nothing to the log. -/
def silent {α : Type} (m : Op α) : SpanM α := fun s =>
  match m s.fs with
  | .error e => .error e
  | .ok (a,fs) => .ok (a,{s with fs := fs})

/-- `ICACHE.put`. -/
def put (h : Inode) : SpanM Unit := fun s =>
  let i := h.index
  if (s.fs.imeta i).refs=1 then
    if s.fs.locked i=true then .error .asleep
    else
      match (s.fs.idata i).valid with
      | none => .ok ((),{s with fs := s.fs.release i})
      | some inum =>
        let di := (s.fs.idata i).dinode
        if di.nlink>0 then .ok ((),{s with fs := (s.fs.setData i ⟨none,di⟩).release i})
        else
          match truncate s.fs.sb inum s.logged {di with itype := .empty} with
          | .error e => .error e
          | .ok (l,di) =>
            let s := s.setLogged l
            .ok ((),{s with fs := (s.fs.setData i ⟨none,di⟩).release i})
  else .ok ((),{s with fs := s.fs.release i})

/-- Run an operation on the contents of an inode, given its number. -/
def onInode {α : Type} (i : ℕ)
    (f : SuperBlock → ℕ → Logged → DiskInode → Except Stop (α×Logged×DiskInode)) : SpanM α :=
  fun s =>
    match (s.fs.idata i).valid with
    | none => .error .invalid
    | some inum =>
      match f s.fs.sb inum s.logged (s.fs.idata i).dinode with
      | .error e => .error e
      | .ok (a,l,di) =>
        let s := s.setLogged l
        .ok (a,{s with fs := s.fs.setData i ⟨some inum,di⟩})

/-- `InodeData::update`. -/
def update (i : ℕ) : SpanM Unit :=
  onInode i fun sb inum l di => do
    let l ← updateInode sb l inum di
    return ((),l,di)

/-- `InodeData::truncate`. -/
def truncateInode (i : ℕ) : SpanM Unit :=
  onInode i fun sb inum l di => do
    let (l,di) ← truncate sb inum l di
    return ((),l,di)

/-- `InodeData::iread` of a directory entry. -/
def readEntry (i off : ℕ) : SpanM (Option DirEntry) := do
  let buf ← onInode i fun sb _ l di => iread sb l di off deSize
  return buf.map fun b => getEntry b 0

/-- `InodeData::iwrite` of a directory entry; whether it succeeds. -/
def writeEntry (i off : ℕ) (e : DirEntry) : SpanM Bool := do
  let written ← onInode i fun sb inum l di =>
    tryIwrite sb inum (kernelSource (entryBytes e)) off deSize l di
  return written=some deSize

/-- The loop of `dir_lookup`. -/
def dirLookupLoop (i : ℕ) (name : Name) : List ℕ → SpanM (Option (Inode×ℕ))
  | [] => pure none
  | off::offs => do
    match ← readEntry i off with
    | none => throw .readEntry
    | some e =>
      if e.inum=0 then dirLookupLoop i name offs
      else if e.named name=true then do
        let h ← silent (Icache.get e.inum)
        return some (h,off)
      else dirLookupLoop i name offs

/-- `dir_lookup`. -/
def dirLookup (i : ℕ) (name : Name) : SpanM (Option (Inode×ℕ)) := do
  let di ← silent (dinodeOf i)
  if di.itype≠.directory then throw .notDir
  else dirLookupLoop i name (offsets di.size.toNat)

/-- The search of `dir_link` for a free entry. -/
def freeOffset (i : ℕ) (size : ℕ) : List ℕ → SpanM ℕ
  | [] => pure size
  | off::offs => do
    match ← readEntry i off with
    | none => throw .readEntry
    | some e => if e.inum=0 then return off else freeOffset i size offs

/-- `dir_link`; whether it succeeds. -/
def dirLink (i : ℕ) (name : Name) (inum : ℕ) : SpanM Bool := do
  if inum≥2^16 then throw .inumTooLarge
  else
    match ← dirLookup i name with
    | some (h,_) => do
      put h
      return false
    | none => do
      let di ← silent (dinodeOf i)
      let off ← freeOffset i di.size.toNat (offsets di.size.toNat)
      if off%deSize≠0 then throw .unaligned
      else if ← writeEntry i off ⟨inum,name⟩ then return true
      else throw .writeEntry

/-- The loop of `dir_is_empty`. -/
def dirIsEmptyLoop (i : ℕ) : List ℕ → SpanM Bool
  | [] => pure true
  | off::offs => do
    match ← readEntry i off with
    | none => throw .readEntry
    | some e => if e.inum≠0 then return false else dirIsEmptyLoop i offs

/-- `dir_is_empty`. -/
def dirIsEmpty (i : ℕ) : SpanM Bool := do
  let di ← silent (dinodeOf i)
  dirIsEmptyLoop i ((offsets di.size.toNat).drop 2)

/-- `dir_unlink`; whether it succeeds. -/
def dirUnlink (i : ℕ) (name : Name) : SpanM Bool := do
  if isDots name=true then return false
  else
    match ← dirLookup i name with
    | none => return false
    | some (h,off) => do
      silent h.lock
      let di ← silent (dinodeOf h.index)
      if di.nlink<1 then throw .zeroLink
      else
        let full ← if di.itype=.directory then do
            let empty ← dirIsEmpty h.index
            pure !empty
          else pure false
        if full=true then do
          silent h.unlock
          put h
          return false
        else if ← writeEntry i off .empty then do
          if di.itype=.directory then do
            silent (dropLink i)
            update i
          silent (dropLink h.index)
          update h.index
          silent h.unlock
          put h
          return true
        else throw .rewriteEntry

/-- The loop of `namex`, with at most the given number of passes. -/
def namexLoop (path : List UInt8) (isParent : Bool) : ℕ → Inode → ℕ → Name →
    SpanM (Option Inode×Name)
  | 0,inode,_,name => pure (some inode,name)
  | fuel+1,inode,cur,name => do
    let (cur,name) := skipPath path cur name
    if cur=0 then
      if isParent=true then do
        put inode
        return (none,name)
      else return (some inode,name)
    else do
      silent inode.lock
      let di ← silent (dinodeOf inode.index)
      if di.itype≠.directory then do
        silent inode.unlock
        put inode
        return (none,name)
      else if isParent=true ∧ pathAt path cur=0 then do
        silent inode.unlock
        return (some inode,name)
      else
        match ← dirLookup inode.index name with
        | none => do
          silent inode.unlock
          put inode
          return (none,name)
        | some (last,_) => do
          silent inode.unlock
          put inode
          namexLoop path isParent fuel last cur name

/-- `namex` for a process with the given current directory. -/
def namex (cwd : Inode) (path : List UInt8) (isParent : Bool) : SpanM (Option Inode×Name) := do
  let inode ← if pathAt path 0=0x2f then silent (Icache.get rootInum) else silent (Icache.dup cwd)
  namexLoop path isParent (path.length+1) inode 0 fun _ => 0

/-- `namei`. -/
def namei (cwd : Inode) (path : List UInt8) : SpanM (Option Inode) := do
  let (inode,_) ← namex cwd path false
  return inode

/-- `namei_parent`, with the last element of the path. -/
def nameiParent (cwd : Inode) (path : List UInt8) : SpanM (Option (Inode×Name)) := do
  let (inode,name) ← namex cwd path true
  return inode.map fun h => (h,name)

/-- `inode_alloc` in the file system. -/
def allocInode (itype : InodeType) : SpanM ℕ := fun s =>
  match inodeAlloc s.fs.sb s.logged itype with
  | .error e => .error e
  | .ok (inum,l) => .ok (inum,s.setLogged l)

/-- The entries `.` and `..` of a new directory, whose parent counts `..`. -/
def linkDots (dir inode : Inode) : SpanM Unit := do
  silent (addLink dir.index)
  update dir.index
  if !(← dirLink inode.index dot inode.inum) then throw .linkSelf
  else if !(← dirLink inode.index dotDot dir.inum) then throw .linkParent
  else return ()

/-- `create`. -/
def create (cwd : Inode) (path : List UInt8) (itype : InodeType) (major minor : UInt16)
    (reuse : Bool) : SpanM (Option Inode) := do
  match ← nameiParent cwd path with
  | none => return none
  | some (dir,name) => do
    silent dir.lock
    match ← dirLookup dir.index name with
    | some (inode,_) =>
      if reuse=true then do
        silent dir.unlock
        put dir
        return some inode
      else do
        put inode
        silent dir.unlock
        put dir
        return none
    | none => do
      let inum ← allocInode itype
      let inode ← silent (Icache.get inum)
      silent inode.lock
      silent (setDinode inode.index fun di => {di with major := major,minor := minor,nlink := 1})
      update inode.index
      if itype=.directory then linkDots dir inode
      if !(← dirLink dir.index name inum) then throw .linkEntry
      else
        silent dir.unlock
        put dir
        silent inode.unlock
        return some inode

/-- `batch` in `fwrite`: bytes that are written in a span. -/
def batch : ℕ := (maxOpBlocks-4)/2*bsize

/-- One batch of `fwrite`, with so many bytes left to write. -/
def fwriteBatch (inode : Inode) (src : Source) (offset left : ℕ) : SpanM (Option ℕ) := do
  silent inode.lock
  let ret ← onInode inode.index fun sb inum l di =>
    tryIwrite sb inum src offset (min batch left) l di
  silent inode.unlock
  return ret

/-- The flags of `open`. -/
structure OpenFlags where
  /-- `flags & O_CREATE > 0`. -/
  create : Bool
  /-- `flags & O_TRUNC > 0`. -/
  trunc : Bool
  /-- `flags == O_RDONLY`. -/
  rdonly : Bool

/-- `NDEV`. -/
def ndev : ℕ := 10

/-- `File::open`; the inode that the file has. -/
def openFile (cwd : Inode) (path : List UInt8) (flags : OpenFlags) : SpanM (Option Inode) := do
  match ← (if flags.create=true then create cwd path .file 0 0 true else namei cwd path) with
  | none => return none
  | some inode => do
    silent inode.lock
    let di ← silent (dinodeOf inode.index)
    match di.itype with
    | .empty => throw .lockEmpty
    | .directory => do
      silent inode.unlock
      if flags.rdonly=false then do
        put inode
        return none
      else return some inode
    | .file => do
      if flags.trunc=true then truncateInode inode.index
      silent inode.unlock
      return some inode
    | .device => do
      silent inode.unlock
      if di.major.toNat ≥ ndev then do
        put inode
        return none
      else return some inode

/-- `sys_mkdir` and `sys_mknod`: the new inode is dropped. -/
def makeInode (cwd : Inode) (path : List UInt8) (itype : InodeType) (major minor : UInt16)
    (reuse : Bool) : SpanM Bool := do
  match ← create cwd path itype major minor reuse with
  | none => return false
  | some inode => do
    put inode
    return true

/-- `revert_link` in `sys_link`, up to `end_op`. -/
def revertLink (inode : Inode) : SpanM Bool := do
  silent inode.lock
  silent (dropLink inode.index)
  update inode.index
  silent inode.unlock
  put inode
  return false

/-- `sys_link` up to `end_op`; what is dropped after it when there is an error is not. -/
def sysLink (cwd : Inode) (oldPath newPath : List UInt8) : SpanM Bool := do
  match ← namei cwd oldPath with
  | none => return false
  | some old => do
    silent old.lock
    let di ← silent (dinodeOf old.index)
    if di.itype=.directory then return false
    else do
      silent (addLink old.index)
      update old.index
      silent old.unlock
      match ← nameiParent cwd newPath with
      | none => revertLink old
      | some (dir,name) => do
        silent dir.lock
        if ← dirLink dir.index name old.inum then do
          silent dir.unlock
          put dir
          put old
          return true
        else revertLink old

/-- `sys_unlink`. -/
def sysUnlink (cwd : Inode) (path : List UInt8) : SpanM Bool := do
  match ← nameiParent cwd path with
  | none => return false
  | some (dir,name) => do
    silent dir.lock
    let ret ← dirUnlink dir.index name
    silent dir.unlock
    put dir
    return ret

/-- `sys_chdir`; the new current directory. -/
def sysChdir (cwd : Inode) (path : List UInt8) : SpanM (Option Inode) := do
  match ← namei cwd path with
  | none => return none
  | some inode => do
    silent inode.lock
    let di ← silent (dinodeOf inode.index)
    silent inode.unlock
    if di.itype≠.directory then do
      put inode
      return none
    else do
      put cwd
      return some inode

/-- The spans. -/
inductive Call where
  /-- One batch of `fwrite`. -/
  | fwrite (inode : Inode) (src : Source) (offset left : ℕ)
  /-- `File::open`. -/
  | openFile (cwd : Inode) (path : List UInt8) (flags : OpenFlags)
  /-- `sys_mkdir`. -/
  | mkdir (cwd : Inode) (path : List UInt8)
  /-- `sys_mknod`. -/
  | mknod (cwd : Inode) (path : List UInt8) (major minor : UInt16)
  /-- `sys_link`. -/
  | link (cwd : Inode) (oldPath newPath : List UInt8)
  /-- `sys_unlink`. -/
  | unlink (cwd : Inode) (path : List UInt8)
  /-- `sys_chdir`. -/
  | chdir (cwd : Inode) (path : List UInt8)
  /-- A file is dropped. -/
  | close (inode : Inode)
  /-- The current directory is dropped in `close_files`. -/
  | dropCwd (cwd : Inode)

/-- The reference that a call takes from the process: its current directory, or that of a file. -/
def Call.reference : Call → Inode
  | .fwrite inode _ _ _ => inode
  | .openFile cwd _ _ => cwd
  | .mkdir cwd _ => cwd
  | .mknod cwd _ _ _ => cwd
  | .link cwd _ _ => cwd
  | .unlink cwd _ => cwd
  | .chdir cwd _ => cwd
  | .close inode => inode
  | .dropCwd cwd => cwd

/-- What a call does in its span. -/
def Call.span : Call → SpanM Unit
  | .fwrite inode src offset left => do let _ ← fwriteBatch inode src offset left
  | .openFile cwd path flags => do let _ ← LogWrites.openFile cwd path flags
  | .mkdir cwd path => do let _ ← makeInode cwd path .directory 0 0 false
  | .mknod cwd path major minor => do let _ ← makeInode cwd path .device major minor true
  | .link cwd oldPath newPath => do let _ ← sysLink cwd oldPath newPath
  | .unlink cwd path => do let _ ← sysUnlink cwd path
  | .chdir cwd path => do let _ ← sysChdir cwd path
  | .close inode => put inode
  | .dropCwd cwd => put cwd

end Xv6Rust.LogWrites
