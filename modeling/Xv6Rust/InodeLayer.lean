import Xv6Rust.DiskLayout

/-!
# The inode layer

`fs/block.rs` and `fs/inode.rs`: allocation of blocks and inodes, the contents
of an inode, the inode cache with its reference counts and locks, directories
and path lookup. Operations run one after the other, so a lock that is taken
twice is never released; everything else that the source can panic with is a
reason to stop. The only device is `ROOTDEV`.
-/

namespace Xv6Rust.InodeLayer

open Bytes DiskLayout

/-- `NINODE`. -/
def ninode : ℕ := 50

/-- `MAX_DIR_SIZE`. -/
abbrev maxDirSize : ℕ := 14

/-- `ROOTINUM`. -/
def rootInum : ℕ := 1

/-- `size_of::<DirEntry>()`. -/
def deSize : ℕ := 16

/-- Why an operation does not return. -/
inductive Stop where
  /-- `bitmap: cannot alloc any free block`. -/
  | noFreeBlock
  /-- `bitmap: double freeing a block`. -/
  | doubleFree
  /-- `not enough inode to alloc`. -/
  | noFreeInode
  /-- `query inum larger than maximum inode nums`. -/
  | inumRange
  /-- `queried offset_bn out of range`. -/
  | blockRange
  /-- `inode: not enough`. -/
  | notEnough
  /-- `inode: lock an empty inode`. -/
  | lockEmpty
  /-- `unwrap` of an invalid inode. -/
  | invalid
  /-- A lock that the operation itself holds. -/
  | asleep
  /-- `inode type not dir`. -/
  | notDir
  /-- `read dir entry`. -/
  | readEntry
  /-- `inum too large`. -/
  | inumTooLarge
  /-- The assertion on the offset of a new entry. -/
  | unaligned
  /-- `inode write error`. -/
  | writeEntry
  /-- `entry inode's link is zero`. -/
  | zeroLink
  /-- `cannot write entry previously read`. -/
  | rewriteEntry
  /-- `dir link .`. -/
  | linkSelf
  /-- `dir link ..`. -/
  | linkParent
  /-- `parent dir link`. -/
  | linkEntry
  /-- Arithmetic overflow. -/
  | overflow
  deriving DecidableEq

section Blocks

variable (sb : SuperBlock) (d : Disk)

/-- The search of `bm_alloc`: a bitmap block, by its first block, and an offset in it. -/
def bmFind : Option (ℕ×ℕ) :=
  (List.range ((sb.size+bpb-1)/bpb)).findSome? fun k =>
    (List.range bpb).findSome? fun offset =>
      if k*bpb+offset ≥ sb.size then none
      else if getBit (d (sb.bitmapBlockno (k*bpb))) offset=true then none
      else some (k*bpb,offset)

/-- `bm_alloc`. -/
def bmAlloc : Except Stop (ℕ×Disk) :=
  match bmFind sb d with
  | none => .error .noFreeBlock
  | some (base,offset) =>
    let bm := sb.bitmapBlockno base
    let d := Function.update d bm (setBit (d bm) offset true)
    .ok (base+offset,Function.update d (base+offset) fun _ => 0)

/-- `bm_free`. -/
def bmFree (blockno : ℕ) : Except Stop Disk :=
  let bm := sb.bitmapBlockno blockno
  let offset := blockno%bpb
  if getBit (d bm) offset=true then .ok (Function.update d bm (setBit (d bm) offset false))
  else .error .doubleFree

/-- `inode_alloc` with `try_alloc`. -/
def inodeAlloc (itype : InodeType) : Except Stop (ℕ×Disk) :=
  match (List.range' 1 (sb.ninodes-1)).find? fun inum => (inodeAt sb d inum).itype=.empty with
  | none => .error .noFreeInode
  | some inum => .ok (inum,putInodeAt sb d inum {DiskInode.new with itype := itype})

end Blocks

/-- Replace `n` bytes from an offset on. -/
def splice (b : Buffer) (off : ℕ) (src : Buffer) (n : ℕ) : Buffer :=
  fun j => if off≤j ∧ j<off+n then src (j-off) else b j

section Contents

variable (sb : SuperBlock)

/-- `map_blockno`. -/
def mapBlockno (d : Disk) (di : DiskInode) (bn : ℕ) : Except Stop (ℕ×Disk×DiskInode) :=
  if bn<ndirect then
    if di.addr bn=0 then do
      let (free,d) ← bmAlloc sb d
      return (free,d,di.setAddr bn free)
    else return (di.addr bn,d,di)
  else if bn<ndirect+nindirect then do
    let (indirect,d,di) ←
      if di.addr ndirect=0 then do
        let (free,d) ← bmAlloc sb d
        pure (free,d,di.setAddr ndirect free)
      else pure (di.addr ndirect,d,di)
    let count := bn-ndirect
    let b := word (d indirect) count
    if b=0 then do
      let (free,d) ← bmAlloc sb d
      return (free,Function.update d indirect (putWord (d indirect) count free),di)
    else return (b,d,di)
  else throw .blockRange

/-- `update`. -/
def updateInode (inum : ℕ) (d : Disk) (di : DiskInode) : Except Stop Disk :=
  if inum ≥ sb.ninodes then .error .inumRange else .ok (putInodeAt sb d inum di)

/-- The loop of `iread` into kernel memory, with at most the given number of passes. -/
def ireadLoop : ℕ → Disk → DiskInode → ℕ → ℕ → ℕ → ℕ → Buffer →
    Except Stop (Buffer×Disk×DiskInode)
  | 0,d,di,_,_,_,_,dst => .ok (dst,d,di)
  | fuel+1,d,di,blockBase,blockOffset,count,pos,dst =>
    if count=0 then .ok (dst,d,di)
    else do
      let (bn,d,di) ← mapBlockno sb d di blockBase
      let readCount := min (bsize-blockOffset) count
      ireadLoop fuel d di (blockBase+1) 0 (count-readCount) (pos+readCount)
        (splice dst pos (fun j => d bn (blockOffset+j)) readCount)

/-- `iread` into kernel memory. -/
def iread (d : Disk) (di : DiskInode) (offset count : ℕ) :
    Except Stop (Option Buffer×Disk×DiskInode) :=
  if offset+count≥2^32 ∨ offset+count>di.size.toNat then .ok (none,d,di)
  else do
    let (dst,d,di) ← ireadLoop sb count d di (offset/bsize) (offset%bsize) count 0 fun _ => 0
    return (some dst,d,di)

/-- The source of a write: for a position and a number of bytes, the bytes there and how many of
them can be copied. -/
abbrev Source := ℕ → ℕ → Buffer×ℕ

/-- `Address::Kernel`. -/
def kernelSource (b : Buffer) : Source := fun pos n => (fun j => b (pos+j),n)

/-- The loop of `try_iwrite`, with at most the given number of passes; it returns the number of
bytes that are not written. -/
def writeLoop (src : Source) : ℕ → Disk → DiskInode → ℕ → ℕ → ℕ → ℕ →
    Except Stop (ℕ×Disk×DiskInode)
  | 0,d,di,_,_,count,_ => .ok (count,d,di)
  | fuel+1,d,di,blockBase,blockOffset,count,pos =>
    if count=0 then .ok (count,d,di)
    else do
      let (bn,d,di) ← mapBlockno sb d di blockBase
      let writeCount := min (bsize-blockOffset) count
      let (bytes,copied) := src pos writeCount
      let d := Function.update d bn (splice (d bn) blockOffset bytes (min copied writeCount))
      if copied<writeCount then .ok (count,d,di)
      else writeLoop src fuel d di (blockBase+1) 0 (count-writeCount) (pos+writeCount)

/-- `try_iwrite`. -/
def tryIwrite (inum : ℕ) (src : Source) (offset count : ℕ) (d : Disk) (di : DiskInode) :
    Except Stop (Option ℕ×Disk×DiskInode) :=
  if offset>di.size.toNat ∨ offset+count≥2^32 ∨ offset+count>maxFileSize then .ok (none,d,di)
  else do
    let (left,d,di) ← writeLoop sb src count d di (offset/bsize) (offset%bsize) count 0
    let size := offset+count-left
    let di := if size>di.size.toNat then {di with size := UInt32.ofNat size} else di
    let d ← updateInode sb inum d di
    return (some (size-offset),d,di)

/-- The direct blocks in `truncate`. -/
def freeDirect : List ℕ → Disk → DiskInode → Except Stop (Disk×DiskInode)
  | [],d,di => .ok (d,di)
  | p::ps,d,di =>
    if di.addr p>0 then do
      let d ← bmFree sb d (di.addr p)
      freeDirect ps d (di.setAddr p 0)
    else freeDirect ps d di

/-- The blocks of the indirect block in `truncate`. -/
def freeEntries (buf : Buffer) : List ℕ → Disk → Except Stop Disk
  | [],d => .ok d
  | k::ks,d =>
    if word buf k>0 then do
      let d ← bmFree sb d (word buf k)
      freeEntries buf ks d
    else freeEntries buf ks d

/-- `truncate`. -/
def truncate (inum : ℕ) (d : Disk) (di : DiskInode) : Except Stop (Disk×DiskInode) := do
  let (d,di) ← freeDirect sb (List.range ndirect) d di
  let (d,di) ←
    if di.addr ndirect>0 then do
      let d ← freeEntries sb (d (di.addr ndirect)) (List.range nindirect) d
      let d ← bmFree sb d (di.addr ndirect)
      pure (d,di.setAddr ndirect 0)
    else pure (d,di)
  let di := {di with size := 0}
  let d ← updateInode sb inum d di
  return (d,di)

end Contents

/-- A name of a directory entry. -/
abbrev Name := Fin maxDirSize → UInt8

/-- `DirEntry`. -/
structure DirEntry where
  /-- Inode number; zero for a free entry. -/
  inum : ℕ
  /-- Name. -/
  name : Name
  deriving DecidableEq

/-- `DirEntry::empty`. -/
def DirEntry.empty : DirEntry := ⟨0,fun _ => 0⟩

/-- The entry in a buffer. -/
def getEntry (b : Buffer) (off : ℕ) : DirEntry := ⟨getLE b off 2,fun i => b (off+2+i)⟩

/-- The bytes of an entry. -/
def entryBytes (e : DirEntry) : Buffer := fun j =>
  if h : 2≤j ∧ j<2+maxDirSize then e.name ⟨j-2,by omega⟩ else putLE (fun _ => 0) 0 2 e.inum j

/-- The comparison of an entry's name with a name, up to a zero. -/
def sameName (a b : Name) : List (Fin maxDirSize) → Bool
  | [] => false
  | i::is => if a i≠b i then false else if a i=0 then true else sameName a b is

/-- The zero-terminated strings of two names are the same. -/
def DirEntry.named (e : DirEntry) (name : Name) : Bool :=
  sameName e.name name (List.finRange maxDirSize)

/-- `InodeMeta`. -/
structure InodeMeta where
  /-- Inode number. -/
  inum : ℕ
  /-- Number of references. -/
  refs : ℕ

/-- `InodeData`. -/
structure InodeData where
  /-- The number of the inode that is read, if any. -/
  valid : Option ℕ
  /-- Its contents. -/
  dinode : DiskInode

/-- `Inode`: a counted reference to an entry of the cache. -/
structure Inode where
  /-- Inode number. -/
  inum : ℕ
  /-- Entry of the cache. -/
  index : ℕ
  deriving DecidableEq

/-- The file system: super block, disk and inode cache. -/
structure Fs where
  /-- Super block. -/
  sb : SuperBlock
  /-- Contents of the blocks. -/
  disk : Disk
  /-- `meta` of the cache. -/
  imeta : ℕ → InodeMeta
  /-- `data` of the cache. -/
  idata : ℕ → InodeData
  /-- Locks of `data`. -/
  locked : ℕ → Bool

/-- Operations on the file system. -/
abbrev Op := StateT Fs (Except Stop)

namespace Fs

variable (s : Fs) (i : ℕ)

/-- Change an entry of `meta`. -/
def setMeta (m : InodeMeta) : Fs := {s with imeta := Function.update s.imeta i m}

/-- Change an entry of `data`. -/
def setData (x : InodeData) : Fs := {s with idata := Function.update s.idata i x}

/-- Take or release a lock. -/
def setLock (held : Bool) : Fs := {s with locked := Function.update s.locked i held}

/-- One reference more. -/
def retain : Fs := s.setMeta i ⟨(s.imeta i).inum,(s.imeta i).refs+1⟩

/-- One reference less. -/
def release : Fs := s.setMeta i ⟨(s.imeta i).inum,(s.imeta i).refs-1⟩

end Fs

/-- `ICACHE.get`. -/
def Icache.get (inum : ℕ) : Op Inode := fun s =>
  match (List.range ninode).find? fun i => (s.imeta i).inum=inum ∧ (s.imeta i).refs>0 with
  | some i => .ok (⟨inum,i⟩,s.retain i)
  | none =>
    match (List.range ninode).find? fun i => (s.imeta i).refs=0 with
    | some i => .ok (⟨inum,i⟩,s.setMeta i ⟨inum,1⟩)
    | none => .error .notEnough

/-- `ICACHE.dup`. -/
def Icache.dup (h : Inode) : Op Inode := fun s => .ok (h,s.retain h.index)

/-- `ICACHE.put`. -/
def Icache.put (h : Inode) : Op Unit := fun s =>
  let i := h.index
  if (s.imeta i).refs=1 then
    if s.locked i=true then .error .asleep
    else
      match (s.idata i).valid with
      | none => .ok ((),s.release i)
      | some inum =>
        let di := (s.idata i).dinode
        if di.nlink>0 then .ok ((),(s.setData i ⟨none,di⟩).release i)
        else
          match truncate s.sb inum s.disk {di with itype := .empty} with
          | .error e => .error e
          | .ok (d,di) => .ok ((),(Fs.setData {s with disk := d} i ⟨none,di⟩).release i)
  else .ok ((),s.release i)

/-- `Inode::lock`. -/
def Inode.lock (h : Inode) : Op Unit := fun s =>
  if s.locked h.index=true then .error .asleep
  else
    let s := s.setLock h.index true
    match (s.idata h.index).valid with
    | some _ => .ok ((),s)
    | none =>
      if h.inum ≥ s.sb.ninodes then .error .inumRange
      else
        let di := inodeAt s.sb s.disk h.inum
        if di.itype=.empty then .error .lockEmpty
        else .ok ((),s.setData h.index ⟨some h.inum,di⟩)

/-- The guard of a lock is dropped. -/
def Inode.unlock (h : Inode) : Op Unit := fun s => .ok ((),s.setLock h.index false)

/-- The inode in an entry of the cache. -/
def dinodeOf (i : ℕ) : Op DiskInode := fun s => .ok ((s.idata i).dinode,s)

/-- Change the inode in an entry of the cache. -/
def setDinode (i : ℕ) (f : DiskInode → DiskInode) : Op Unit := fun s =>
  .ok ((),s.setData i ⟨(s.idata i).valid,f (s.idata i).dinode⟩)

/-- `nlink += 1`; it panics when it overflows. -/
def addLink (i : ℕ) : Op Unit := do
  let di ← dinodeOf i
  if di.nlink.toNat+1≥2^16 then throw .overflow
  else setDinode i fun di => {di with nlink := di.nlink+1}

/-- `nlink -= 1`; it panics when it overflows. -/
def dropLink (i : ℕ) : Op Unit := do
  let di ← dinodeOf i
  if di.nlink=0 then throw .overflow else setDinode i fun di => {di with nlink := di.nlink-1}

/-- Run an operation on the contents of an inode, given its number. -/
def onInode {α : Type} (i : ℕ)
    (f : SuperBlock → ℕ → Disk → DiskInode → Except Stop (α×Disk×DiskInode)) : Op α := fun s =>
  match (s.idata i).valid with
  | none => .error .invalid
  | some inum =>
    match f s.sb inum s.disk (s.idata i).dinode with
    | .error e => .error e
    | .ok (a,d,di) => .ok (a,Fs.setData {s with disk := d} i ⟨some inum,di⟩)

/-- `InodeData::update`. -/
def update (i : ℕ) : Op Unit :=
  onInode i fun sb inum d di => do
    let d ← updateInode sb inum d di
    return ((),d,di)

/-- `InodeData::iread` of a directory entry. -/
def readEntry (i off : ℕ) : Op (Option DirEntry) := do
  let buf ← onInode i fun sb _ d di => iread sb d di off deSize
  return buf.map fun b => getEntry b 0

/-- `InodeData::iwrite` of a directory entry; whether it succeeds. -/
def writeEntry (i off : ℕ) (e : DirEntry) : Op Bool := do
  let written ← onInode i fun sb inum d di =>
    tryIwrite sb inum (kernelSource (entryBytes e)) off deSize d di
  return written=some deSize

/-- The offsets of the entries of a directory. -/
def offsets (size : ℕ) : List ℕ := (List.range ((size+deSize-1)/deSize)).map fun n => deSize*n

/-- The loop of `dir_lookup`. -/
def dirLookupLoop (i : ℕ) (name : Name) : List ℕ → Op (Option (Inode×ℕ))
  | [] => pure none
  | off::offs => do
    match ← readEntry i off with
    | none => throw .readEntry
    | some e =>
      if e.inum=0 then dirLookupLoop i name offs
      else if e.named name=true then do
        let h ← Icache.get e.inum
        return some (h,off)
      else dirLookupLoop i name offs

/-- `dir_lookup`. -/
def dirLookup (i : ℕ) (name : Name) : Op (Option (Inode×ℕ)) := do
  let di ← dinodeOf i
  if di.itype≠.directory then throw .notDir
  else dirLookupLoop i name (offsets di.size.toNat)

/-- The search of `dir_link` for a free entry. -/
def freeOffset (i : ℕ) (size : ℕ) : List ℕ → Op ℕ
  | [] => pure size
  | off::offs => do
    match ← readEntry i off with
    | none => throw .readEntry
    | some e => if e.inum=0 then return off else freeOffset i size offs

/-- `dir_link`; whether it succeeds. -/
def dirLink (i : ℕ) (name : Name) (inum : ℕ) : Op Bool := do
  if inum≥2^16 then throw .inumTooLarge
  else
    match ← dirLookup i name with
    | some (h,_) => do
      Icache.put h
      return false
    | none => do
      let di ← dinodeOf i
      let off ← freeOffset i di.size.toNat (offsets di.size.toNat)
      if off%deSize≠0 then throw .unaligned
      else if ← writeEntry i off ⟨inum,name⟩ then return true
      else throw .writeEntry

/-- The loop of `dir_is_empty`. -/
def dirIsEmptyLoop (i : ℕ) : List ℕ → Op Bool
  | [] => pure true
  | off::offs => do
    match ← readEntry i off with
    | none => throw .readEntry
    | some e => if e.inum≠0 then return false else dirIsEmptyLoop i offs

/-- `dir_is_empty`. -/
def dirIsEmpty (i : ℕ) : Op Bool := do
  let di ← dinodeOf i
  dirIsEmptyLoop i ((offsets di.size.toNat).drop 2)

/-- The name is `.` or `..`. -/
def isDots (name : Name) : Bool :=
  name 0=0x2e && (name 1=0 || (name 1=0x2e && name 2=0))

/-- `dir_unlink`; whether it succeeds. -/
def dirUnlink (i : ℕ) (name : Name) : Op Bool := do
  if isDots name=true then return false
  else
    match ← dirLookup i name with
    | none => return false
    | some (h,off) => do
      h.lock
      let di ← dinodeOf h.index
      if di.nlink<1 then throw .zeroLink
      else
        let full ← if di.itype=.directory then do
            let empty ← dirIsEmpty h.index
            pure !empty
          else pure false
        if full=true then do
          h.unlock
          Icache.put h
          return false
        else if ← writeEntry i off .empty then do
          if di.itype=.directory then do
            dropLink i
            update i
          dropLink h.index
          update h.index
          h.unlock
          Icache.put h
          return true
        else throw .rewriteEntry

/-- A byte of a path; the path ends with a zero. -/
def pathAt (path : List UInt8) (cur : ℕ) : UInt8 := path.getD cur 0

/-- Skip bytes of a path, at most the given number. -/
def skipWhile (p : UInt8 → Bool) (path : List UInt8) : ℕ → ℕ → ℕ
  | 0,cur => cur
  | fuel+1,cur => if p (pathAt path cur)=true then skipWhile p path fuel (cur+1) else cur

/-- `skip_path`: the position behind the next element, zero if there is none, and the element. -/
def skipPath (path : List UInt8) (cur : ℕ) (name : Name) : ℕ×Name :=
  let slash : UInt8 → Bool := fun c => c=0x2f
  let start := skipWhile slash path path.length cur
  if pathAt path start=0 then (0,name)
  else
    let stop := skipWhile (fun c => c≠0x2f && c≠0) path path.length start
    let count := min (stop-start) (maxDirSize-1)
    let name : Name := fun i =>
      if i.val < count then pathAt path (start+i) else if i.val=count then 0 else name i
    (skipWhile slash path path.length stop,name)

/-- The loop of `namex`, with at most the given number of passes. -/
def namexLoop (path : List UInt8) (isParent : Bool) : ℕ → Inode → ℕ → Name →
    Op (Option Inode×Name)
  | 0,inode,_,name => pure (some inode,name)
  | fuel+1,inode,cur,name => do
    let (cur,name) := skipPath path cur name
    if cur=0 then
      if isParent=true then do
        Icache.put inode
        return (none,name)
      else return (some inode,name)
    else do
      inode.lock
      let di ← dinodeOf inode.index
      if di.itype≠.directory then do
        inode.unlock
        Icache.put inode
        return (none,name)
      else if isParent=true ∧ pathAt path cur=0 then do
        inode.unlock
        return (some inode,name)
      else
        match ← dirLookup inode.index name with
        | none => do
          inode.unlock
          Icache.put inode
          return (none,name)
        | some (last,_) => do
          inode.unlock
          Icache.put inode
          namexLoop path isParent fuel last cur name

/-- `namex` for a process with the given current directory. -/
def namex (cwd : Inode) (path : List UInt8) (isParent : Bool) : Op (Option Inode×Name) := do
  let inode ← if pathAt path 0=0x2f then Icache.get rootInum else Icache.dup cwd
  namexLoop path isParent (path.length+1) inode 0 fun _ => 0

/-- `namei`. -/
def namei (cwd : Inode) (path : List UInt8) : Op (Option Inode) := do
  let (inode,_) ← namex cwd path false
  return inode

/-- `namei_parent`, with the last element of the path. -/
def nameiParent (cwd : Inode) (path : List UInt8) : Op (Option (Inode×Name)) := do
  let (inode,name) ← namex cwd path true
  return inode.map fun h => (h,name)

/-- `inode_alloc` in the file system. -/
def allocInode (itype : InodeType) : Op ℕ := fun s =>
  match inodeAlloc s.sb s.disk itype with
  | .error e => .error e
  | .ok (inum,d) => .ok (inum,{s with disk := d})

/-- The name `.`. -/
def dot : Name := fun i => if i.val=0 then 0x2e else 0

/-- The name `..`. -/
def dotDot : Name := fun i => if i.val≤1 then 0x2e else 0

/-- The entries `.` and `..` of a new directory, whose parent counts `..`. -/
def linkDots (dir inode : Inode) : Op Unit := do
  addLink dir.index
  update dir.index
  if !(← dirLink inode.index dot inode.inum) then throw .linkSelf
  else if !(← dirLink inode.index dotDot dir.inum) then throw .linkParent
  else return ()

/-- `create`. -/
def create (cwd : Inode) (path : List UInt8) (itype : InodeType) (major minor : UInt16)
    (reuse : Bool) : Op (Option Inode) := do
  match ← nameiParent cwd path with
  | none => return none
  | some (dir,name) => do
    dir.lock
    match ← dirLookup dir.index name with
    | some (inode,_) =>
      if reuse=true then do
        dir.unlock
        Icache.put dir
        return some inode
      else do
        Icache.put inode
        dir.unlock
        Icache.put dir
        return none
    | none => do
      let inum ← allocInode itype
      let inode ← Icache.get inum
      inode.lock
      setDinode inode.index fun di => {di with major := major,minor := minor,nlink := 1}
      update inode.index
      if itype=.directory then linkDots dir inode
      if !(← dirLink dir.index name inum) then throw .linkEntry
      else
        dir.unlock
        Icache.put dir
        inode.unlock
        return some inode

end Xv6Rust.InodeLayer
