import Xv6Rust.InodeLayer

/-!
# mkfs

`mkfs/mkfs.c` with the headers it shares with the kernel. It builds an image in
a file of `FSSIZE` zeroed blocks: the super block, an inode for the root and for
every input file, the entries of the root, the contents, and at the end the
bitmap. Inodes and blocks are handed out by two counters and never given back,
and the bitmap is written from the second. Structures are the bytes that are
written. An assertion that fails and a read beyond the end of the image stop
the program; the input files are there and can be read.
-/

namespace Xv6Rust.Mkfs

open Bytes DiskLayout InodeLayer

/-- `FSMAGIC`. -/
def fsmagic : ℕ := 0x10203040

/-- `FSSIZE`. -/
def fssize : ℕ := 2048

/-- `NINODES`. -/
def ninodes : ℕ := 512

/-- `ROOTINO`. -/
def rootino : ℕ := 1

/-- `T_DIR`. -/
def typeDir : ℕ := 1

/-- `T_FILE`. -/
def typeFile : ℕ := 2

/-- `DIRSIZ`. -/
def dirsiz : ℕ := 14

/-- `MAXFILE`. -/
def maxfile : ℕ := ndirect+nindirect

/-- `nlog`. -/
def nlog : ℕ := 30

/-- `nbitmap`. -/
def nbitmap : ℕ := fssize/(bsize*8)+1

/-- `ninodeblocks`. -/
def ninodeblocks : ℕ := ninodes/ipb+1

/-- `nmeta`. -/
def nmeta : ℕ := 2+nlog+ninodeblocks+nbitmap

/-- `nblocks`. -/
def nblocks : ℕ := fssize-nmeta

/-- `sb.inodestart`. -/
def inodestart : ℕ := 2+nlog

/-- `sb.bmapstart`. -/
def bmapstart : ℕ := 2+nlog+ninodeblocks

/-- The bytes of `sb`. -/
def sbBytes : Buffer :=
  putU32s (fun _ => 0) 0 ([fsmagic,fssize,nblocks,ninodes,nlog,2,inodestart,bmapstart].map .ofNat)

/-- `SuperBlock::init` of the kernel: what it reads of the image, if the magic number is right. -/
def superBlock (d : Disk) : Option SuperBlock :=
  if getLE (d 1) 0 4=fsmagic then
    some ⟨getLE (d 1) 4 4,getLE (d 1) 8 4,getLE (d 1) 12 4,getLE (d 1) 24 4,getLE (d 1) 28 4⟩
  else none

/-- Why `mkfs` stops. -/
inductive Fail where
  /-- The assertion that a short name has no slash. -/
  | slash
  /-- The assertion that a file is not too large. -/
  | tooLarge
  /-- The assertion that the bitmap is one block. -/
  | bitmap
  /-- `read` at the end of the image. -/
  | read
  deriving DecidableEq

/-- The image and the counters. -/
structure State where
  /-- The blocks of the image. -/
  disk : Disk
  /-- `freeinode`. -/
  freeinode : ℕ
  /-- `freeblock`. -/
  freeblock : ℕ

/-- The block at the offset of a sector, which is computed with 32 bits. -/
def sector (sec : ℕ) : ℕ := sec*bsize%2^32/bsize

/-- `rsect`. -/
def rsect (st : State) (sec : ℕ) : Except Fail Buffer :=
  if sector sec < fssize then .ok (st.disk (sector sec)) else .error .read

/-- `wsect`. -/
def wsect (st : State) (sec : ℕ) (buf : Buffer) : State :=
  {st with disk := Function.update st.disk (sector sec) buf}

/-- `IBLOCK`. -/
def iblock (inum : ℕ) : ℕ := inum/ipb+inodestart

/-- `rinode`. -/
def rinode (st : State) (inum : ℕ) : Except Fail Buffer := do
  let buf ← rsect st (iblock inum)
  return fun j => buf (inum%ipb*inodeSize+j)

/-- `winode`. -/
def winode (st : State) (inum : ℕ) (din : Buffer) : Except Fail State := do
  let buf ← rsect st (iblock inum)
  return wsect st (iblock inum) (splice buf (inum%ipb*inodeSize) din inodeSize)

/-- `ialloc`. -/
def ialloc (st : State) (type : ℕ) : Except Fail (ℕ×State) := do
  let din := putLE (fun _ => 0) 0 2 type
  let din := putLE din 6 2 1
  let din := putLE din 8 4 0
  let next ← winode {st with freeinode := st.freeinode+1} st.freeinode din
  return (st.freeinode,next)

/-- `din.size`. -/
def dinSize (din : Buffer) : ℕ := getLE din 8 4

/-- `din.addrs[p]`. -/
def dinAddr (din : Buffer) (p : ℕ) : ℕ := getLE din (12+4*p) 4

/-- Set `din.addrs[p]`. -/
def setDinAddr (din : Buffer) (p b : ℕ) : Buffer := putLE din (12+4*p) 4 b

/-- The block number at a place of an inode; a zero there is replaced by `freeblock++`. -/
def takeAddr (st : State) (din : Buffer) (p : ℕ) : State×Buffer :=
  if dinAddr din p=0 then
    ({st with freeblock := st.freeblock+1},setDinAddr din p st.freeblock)
  else (st,din)

/-- The part of `iappend` that finds the block `x` of a block of the file. -/
def findBlock (st : State) (din : Buffer) (fbn : ℕ) : Except Fail (State×Buffer×ℕ) :=
  if fbn ≥ maxfile then .error .tooLarge
  else if fbn<ndirect then
    let r := takeAddr st din fbn
    .ok (r.1,r.2,dinAddr r.2 fbn)
  else do
    let r := takeAddr st din ndirect
    let indirect ← rsect r.1 (dinAddr r.2 ndirect)
    if word indirect (fbn-ndirect)=0 then
      let indirect := putWord indirect (fbn-ndirect) r.1.freeblock
      return (wsect {r.1 with freeblock := r.1.freeblock+1} (dinAddr r.2 ndirect) indirect,r.2,
        word indirect (fbn-ndirect))
    else return (r.1,r.2,word indirect (fbn-ndirect))

/-- The loop of `iappend`, with at most the given number of passes: the state, `din` and `off`
after it. -/
def iappendLoop (p : Buffer) : ℕ → State → Buffer → ℕ → ℕ → ℕ → Except Fail (State×Buffer×ℕ)
  | 0,st,din,off,_,_ => .ok (st,din,off)
  | fuel+1,st,din,off,pos,n =>
    if n=0 then .ok (st,din,off)
    else do
      let fbn := off/bsize
      let (st,din,x) ← findBlock st din fbn
      let n1 := min n ((fbn+1)*bsize-off)
      let buf ← rsect st x
      let st := wsect st x (splice buf (off-fbn*bsize) (fun j => p (pos+j)) n1)
      iappendLoop p fuel st din (off+n1) (pos+n1) (n-n1)

/-- `iappend`. -/
def iappend (st : State) (inum : ℕ) (p : Buffer) (n : ℕ) : Except Fail State := do
  let din ← rinode st inum
  let (st,din,off) ← iappendLoop p n st din (dinSize din) 0 n
  winode st inum (putLE din 8 4 off)

/-- `strncpy` to a field of a structure: a shorter string is filled up with zeros. -/
def strncpy (b : Buffer) (off : ℕ) (s : List UInt8) (n : ℕ) : Buffer :=
  fun j => if off≤j ∧ j<off+n then s.getD (j-off) 0 else b j

/-- The bytes of `de`. -/
def dirent (inum : ℕ) (name : List UInt8) : Buffer :=
  strncpy (putLE (fun _ => 0) 0 2 inum) 2 name dirsiz

/-- An input file. -/
structure Input where
  /-- The argument. -/
  arg : List UInt8
  /-- It is a string. -/
  string : 0∉arg
  /-- The bytes of the file. -/
  contents : List UInt8

/-- The argument without `user/`. -/
def Input.stem (f : Input) : List UInt8 :=
  if f.arg.take 5=[0x75,0x73,0x65,0x72,0x2f] then f.arg.drop 5 else f.arg

/-- `shortname`, without a leading underscore. -/
def Input.shortname (f : Input) : List UInt8 :=
  if f.stem.head?=some 0x5f then f.stem.drop 1 else f.stem

/-- The loop over the bytes of an input file, a block at a time. -/
def appendLoop (inum : ℕ) : ℕ → State → List UInt8 → Except Fail State
  | 0,st,_ => .ok st
  | fuel+1,st,bytes =>
    let buf := bytes.take bsize
    if buf.length=0 then .ok st
    else do
      let st ← iappend st inum (fun j => buf.getD j 0) buf.length
      appendLoop inum fuel st (bytes.drop bsize)

/-- One pass of the loop over the input files. -/
def install (st : State) (f : Input) : Except Fail State :=
  if 0x2f∈f.stem then .error .slash
  else do
    let (inum,st) ← ialloc st typeFile
    let st ← iappend st rootino (dirent inum f.shortname) deSize
    appendLoop inum (f.contents.length+1) st f.contents

/-- The state after the super block is written. -/
def start : State := ⟨fun sec => if sec=1 then sbBytes else fun _ => 0,1,nmeta⟩

/-- The root with its first two entries. -/
def makeRoot : Except Fail State := do
  let (_,st) ← ialloc start typeDir
  let st ← iappend st rootino (dirent rootino [0x2e]) deSize
  iappend st rootino (dirent rootino [0x2e,0x2e]) deSize

/-- The size of the root is rounded up to whole blocks. -/
def fixRoot (st : State) : Except Fail State := do
  let din ← rinode st rootino
  let off := (dinSize din/bsize+1)*bsize
  winode st rootino (putLE din 8 4 off)

/-- The bitmap block with the first bits set. -/
def bitmapBytes (used : ℕ) : Buffer :=
  (List.range used).foldl (fun buf i => setBit buf i true) fun _ => 0

/-- `balloc`. -/
def balloc (st : State) (used : ℕ) : Except Fail State :=
  if used ≥ bsize*8 then .error .bitmap else .ok (wsect st bmapstart (bitmapBytes used))

/-- `main`, given the input files: the image. -/
def mkfs (files : List Input) : Except Fail Disk := do
  let st ← makeRoot
  let st ← files.foldlM install st
  let st ← fixRoot st
  let st ← balloc st st.freeblock
  return st.disk

end Xv6Rust.Mkfs
