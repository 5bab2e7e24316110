import Xv6Rust.Bytes

/-!
# The layout of the file system on disk

Super block, bitmap, inode table and data blocks, as `fs/superblock.rs`,
`fs/block.rs` and `fs/inode.rs` address them, over blocks of bytes. The log and
the buffer cache below are seen through what a read returns, the latest
contents of a block. Bitmap, inode table and data blocks lie apart, so each is
changed without the others.
-/

namespace Xv6Rust.DiskLayout

open Bytes

/-- `BSIZE`. -/
def bsize : ℕ := 1024

/-- `BPB`. -/
def bpb : ℕ := bsize*8

/-- `NDIRECT`. -/
def ndirect : ℕ := 12

/-- `NINDIRECT`. -/
def nindirect : ℕ := bsize/4

/-- `MAX_FILE_SIZE`. -/
def maxFileSize : ℕ := (ndirect+nindirect)*bsize

/-- `size_of::<DiskInode>()`. -/
def inodeSize : ℕ := 64

/-- `IPB`. -/
def ipb : ℕ := bsize/inodeSize

/-- The contents of the disk, by block number and offset. -/
abbrev Disk := ℕ → Buffer

/-- The fields of `RawSuperBlock` that the file system reads. -/
structure SuperBlock where
  /-- Number of blocks. -/
  size : ℕ
  /-- Number of data blocks. -/
  nblocks : ℕ
  /-- Number of inodes. -/
  ninodes : ℕ
  /-- First inode block. -/
  inodestart : ℕ
  /-- First bitmap block. -/
  bmapstart : ℕ
  deriving DecidableEq

namespace SuperBlock

variable (sb : SuperBlock)

/-- Number of blocks before the data blocks. -/
def nmeta : ℕ := sb.size-sb.nblocks

/-- `locate_inode`, for an inode number that is not too large. -/
def locateInode (inum : ℕ) : ℕ := inum/ipb+sb.inodestart

/-- `bitmap_blockno`. -/
def bitmapBlockno (blockno : ℕ) : ℕ := blockno/bpb+sb.bmapstart

/-- Inode table and bitmap lie apart before the data blocks, and block numbers fit in 32 bits. -/
structure Geometry : Prop where
  /-- The inode table lies before the data blocks. -/
  inodes : ∀ inum,inum < sb.ninodes → sb.locateInode inum < sb.nmeta
  /-- The bitmap lies before the data blocks. -/
  bitmap : ∀ b,b < sb.size → sb.bitmapBlockno b < sb.nmeta
  /-- Inode table and bitmap share no block. -/
  apart : ∀ inum b,inum < sb.ninodes → b < sb.size → sb.locateInode inum≠sb.bitmapBlockno b
  /-- The boot block is no data block. -/
  boot : 0 < sb.nmeta
  /-- Block numbers are `u32`. -/
  width : sb.size<256^4

end SuperBlock

/-- `InodeType`. -/
inductive InodeType where
  /-- `Empty`. -/
  | empty
  /-- `Directory`. -/
  | directory
  /-- `File`. -/
  | file
  /-- `Device`. -/
  | device
  deriving DecidableEq

/-- The discriminant of a type. -/
def InodeType.code : InodeType → ℕ
  | .empty => 0
  | .directory => 1
  | .file => 2
  | .device => 3

/-- The type of a discriminant; there are no others than the four. -/
def InodeType.ofCode : ℕ → InodeType
  | 0 => .empty
  | 1 => .directory
  | 2 => .file
  | _ => .device

@[simp] theorem InodeType.ofCode_code (t : InodeType) : ofCode t.code=t := by
  cases t <;> rfl

/-- `DiskInode`. -/
@[ext] structure DiskInode where
  /-- Type. -/
  itype : InodeType
  /-- Major device number. -/
  major : UInt16
  /-- Minor device number. -/
  minor : UInt16
  /-- Number of directory entries that count for the inode. -/
  nlink : UInt16
  /-- Size in bytes. -/
  size : UInt32
  /-- Direct blocks and the indirect block. -/
  addrs : Fin 13 → UInt32
  deriving DecidableEq

/-- `DiskInode::new`. -/
def DiskInode.new : DiskInode := ⟨.empty,0,0,0,0,fun _ => 0⟩

/-- A block number of an inode. -/
def DiskInode.addr (di : DiskInode) (p : ℕ) : ℕ := if h : p<13 then (di.addrs ⟨p,h⟩).toNat else 0

/-- Change a block number of an inode. -/
def DiskInode.setAddr (di : DiskInode) (p b : ℕ) : DiskInode :=
  {di with addrs := fun j => if j.val=p then UInt32.ofNat b else di.addrs j}

theorem DiskInode.addr_setAddr (di : DiskInode) {p q b : ℕ} (hb : b<256^4) (hp : p<13) :
    (di.setAddr p b).addr q=if q=p then b else di.addr q := by
  unfold DiskInode.addr DiskInode.setAddr
  by_cases hq : q=p
  · have hq' : q<13 := by omega
    rw [dif_pos hq',if_pos hq]
    dsimp only
    rw [if_pos hq]
    exact UInt32.toNat_ofNat_of_lt' hb
  · simp only [hq,if_false]

/-- Read an inode of an inode block. -/
def getInode (b : Buffer) (off : ℕ) : DiskInode where
  itype := .ofCode (getLE b off 2)
  major := UInt16.ofNat (getLE b (off+2) 2)
  minor := UInt16.ofNat (getLE b (off+4) 2)
  nlink := UInt16.ofNat (getLE b (off+6) 2)
  size := getU32 b (off+8)
  addrs i := getU32 b (off+12+4*i)

/-- Write an inode of an inode block. -/
def putInode (b : Buffer) (off : ℕ) (di : DiskInode) : Buffer :=
  let b := putLE b off 2 di.itype.code
  let b := putLE b (off+2) 2 di.major.toNat
  let b := putLE b (off+4) 2 di.minor.toNat
  let b := putLE b (off+6) 2 di.nlink.toNat
  let b := putU32 b (off+8) di.size
  putU32s b (off+12) (List.ofFn di.addrs)

theorem putInode_apply_of_outside {b : Buffer} {off i : ℕ} {di : DiskInode}
    (h : i<off ∨ off+inodeSize ≤ i) : putInode b off di i=b i := by
  rw [inodeSize] at h
  dsimp only [putInode]
  rw [putU32s_apply_of_outside (by rw [List.length_ofFn]; omega),putU32,
    putLE_apply_of_outside (by omega),putLE_apply_of_outside (by omega),
    putLE_apply_of_outside (by omega),putLE_apply_of_outside (by omega),
    putLE_apply_of_outside (by omega)]

/-- An inode depends on the bytes of its window. -/
theorem getInode_congr {b c : Buffer} {off : ℕ}
    (h : ∀ i,off ≤ i → i<off+inodeSize → b i=c i) : getInode b off=getInode c off := by
  have hfield : ∀ k n,k+n≤64 → getLE b (off+k) n=getLE c (off+k) n := fun k n hk =>
    getLE_congr fun i hi hi' => h i (by omega) (by rw [inodeSize]; omega)
  have h0 : getLE b off 2=getLE c off 2 := hfield 0 2 (by omega)
  unfold getInode
  rw [h0,hfield 2 2 (by omega),hfield 4 2 (by omega),hfield 6 2 (by omega),getU32,getU32,
    hfield 8 4 (by omega)]
  congr 1
  funext i
  have hi := i.isLt
  rw [getU32,getU32,Nat.add_assoc,hfield (12+4*i) 4 (by omega)]

theorem code_lt (t : InodeType) : t.code<256^2 := by
  cases t <;> decide

/-- An inode that is written is read back. -/
theorem getInode_putInode (b : Buffer) (off : ℕ) (di : DiskInode) :
    getInode (putInode b off di) off=di := by
  have h16 : ∀ v : UInt16,v.toNat<256^2 := fun v => v.toNat_lt
  have hlen : (List.ofFn di.addrs).length=13 := List.length_ofFn
  have hbefore : ∀ (c : Buffer) o n,o+n≤off+12 →
      getLE (putU32s c (off+12) (List.ofFn di.addrs)) o n=getLE c o n :=
    fun c o n ho => getLE_congr fun i hi hi' => putU32s_apply_of_outside (by omega)
  refine DiskInode.ext ?_ ?_ ?_ ?_ ?_ ?_
  · dsimp only [getInode,putInode,putU32]
    rw [hbefore _ _ _ (by omega),getLE_putLE_of_apart (by omega),getLE_putLE_of_apart (by omega),
      getLE_putLE_of_apart (by omega),getLE_putLE_of_apart (by omega),
      getLE_putLE_self (code_lt _),InodeType.ofCode_code]
  · dsimp only [getInode,putInode,putU32]
    rw [hbefore _ _ _ (by omega),getLE_putLE_of_apart (by omega),getLE_putLE_of_apart (by omega),
      getLE_putLE_of_apart (by omega),getLE_putLE_self (h16 _),UInt16.ofNat_toNat]
  · dsimp only [getInode,putInode,putU32]
    rw [hbefore _ _ _ (by omega),getLE_putLE_of_apart (by omega),getLE_putLE_of_apart (by omega),
      getLE_putLE_self (h16 _),UInt16.ofNat_toNat]
  · dsimp only [getInode,putInode,putU32]
    rw [hbefore _ _ _ (by omega),getLE_putLE_of_apart (by omega),getLE_putLE_self (h16 _),
      UInt16.ofNat_toNat]
  · dsimp only [getInode,putInode]
    rw [getU32_putU32s_of_before (by omega),getU32_putU32_self]
  · funext i
    dsimp only [getInode,putInode]
    rw [getU32_putU32s (by rw [hlen]; exact i.isLt),List.getElem_ofFn]

/-- Read a bit of a byte array. -/
def getBit (b : Buffer) (i : ℕ) : Bool := (b (i/8)).toBitVec.getLsbD (i%8)

/-- Set or clear a bit of a byte array. -/
def setBit (b : Buffer) (i : ℕ) (set : Bool) : Buffer :=
  Function.update b (i/8) (UInt8.ofBitVec
    (if set=true then (b (i/8)).toBitVec ||| (1#8 <<< (i%8))
    else (b (i/8)).toBitVec &&& ~~~(1#8 <<< (i%8))))

theorem getBit_setBit (b : Buffer) (i j : ℕ) (set : Bool) :
    getBit (setBit b i set) j=if j=i then set else getBit b j := by
  unfold getBit setBit
  have hi : i%8<8 := Nat.mod_lt _ (by decide)
  have hj : j%8<8 := Nat.mod_lt _ (by decide)
  by_cases hbyte : j/8=i/8
  · rw [hbyte,Function.update_self]
    by_cases hji : j=i
    · rw [if_pos hji,hji]
      cases set <;> simp [hi]
    · have hne : j%8≠i%8 := by omega
      rw [if_neg hji]
      cases set
      · by_cases hlt : j%8 < i%8
        · simp [hj,hlt]
        · have hsub : j%8-i%8≠0 := by omega
          simp [hj,hlt,hsub]
      · by_cases hlt : j%8 < i%8
        · simp [hj,hlt]
        · have hsub : j%8-i%8≠0 := by omega
          simp [hj,hlt,hsub]
  · have hji : j≠i := by
      rintro rfl
      exact hbyte rfl
    rw [Function.update_of_ne hbyte,if_neg hji]

/-- Read a block number of an indirect block. -/
def word (b : Buffer) (k : ℕ) : ℕ := getLE b (4*k) 4

/-- Write a block number of an indirect block. -/
def putWord (b : Buffer) (k v : ℕ) : Buffer := putLE b (4*k) 4 v

theorem word_putWord (b : Buffer) {k j v : ℕ} (hv : v<256^4) :
    word (putWord b k v) j=if j=k then v else word b j := by
  unfold word putWord
  by_cases hjk : j=k
  · rw [if_pos hjk,hjk,getLE_putLE_self hv]
  · rw [if_neg hjk,getLE_putLE_of_apart (by omega)]

theorem word_zero (k : ℕ) : word (fun _ => 0) k=0 := rfl

section Regions

variable (sb : SuperBlock) (d : Disk)

/-- The bit of a block in the bitmap. -/
def bit (b : ℕ) : Bool := getBit (d (sb.bitmapBlockno b)) (b%bpb)

/-- Set or clear the bit of a block in the bitmap. -/
def setBitAt (b : ℕ) (set : Bool) : Disk :=
  Function.update d (sb.bitmapBlockno b) (setBit (d (sb.bitmapBlockno b)) (b%bpb) set)

/-- An inode of the inode table. -/
def inodeAt (inum : ℕ) : DiskInode := getInode (d (sb.locateInode inum)) (inum%ipb*inodeSize)

/-- Write an inode of the inode table. -/
def putInodeAt (inum : ℕ) (di : DiskInode) : Disk :=
  Function.update d (sb.locateInode inum)
    (putInode (d (sb.locateInode inum)) (inum%ipb*inodeSize) di)

theorem bit_setBitAt (b c : ℕ) (set : Bool) :
    bit sb (setBitAt sb d b set) c=if c=b then set else bit sb d c := by
  unfold bit setBitAt
  by_cases hblock : sb.bitmapBlockno c=sb.bitmapBlockno b
  · rw [hblock,Function.update_self,getBit_setBit]
    have hiff : c%bpb=b%bpb ↔ c=b := by
      refine ⟨fun hmod => ?_,fun heq => by rw [heq]⟩
      have hdiv : c/bpb=b/bpb := Nat.add_right_cancel hblock
      rw [← Nat.div_add_mod c bpb,← Nat.div_add_mod b bpb,hdiv,hmod]
    simp only [hiff]
  · have hne : c≠b := fun heq => hblock (by rw [heq])
    rw [Function.update_of_ne hblock,if_neg hne]

theorem inodeAt_putInodeAt (i j : ℕ) (di : DiskInode) :
    inodeAt sb (putInodeAt sb d i di) j=if j=i then di else inodeAt sb d j := by
  unfold inodeAt putInodeAt
  by_cases hblock : sb.locateInode j=sb.locateInode i
  · rw [hblock,Function.update_self]
    by_cases hij : j=i
    · rw [if_pos hij,hij,getInode_putInode]
    · have hdiv : j/ipb=i/ipb := Nat.add_right_cancel hblock
      have hmod : j%ipb≠i%ipb := by
        intro heq
        refine hij ?_
        rw [← Nat.div_add_mod j ipb,← Nat.div_add_mod i ipb,hdiv,heq]
      rw [if_neg hij]
      refine getInode_congr fun k hk hk' => putInode_apply_of_outside ?_
      rw [inodeSize] at *
      omega
  · have hne : j≠i := fun heq => hblock (by rw [heq])
    rw [Function.update_of_ne hblock,if_neg hne]

variable {sb} (g : sb.Geometry)

include g

theorem setBitAt_apply {b c : ℕ} (hb : b < sb.size) (hc : sb.nmeta ≤ c) (set : Bool) :
    setBitAt sb d b set c=d c := by
  have hblock := g.bitmap b hb
  exact Function.update_of_ne (by omega) _ _

theorem putInodeAt_apply {i c : ℕ} (hi : i < sb.ninodes) (hc : sb.nmeta ≤ c) (di : DiskInode) :
    putInodeAt sb d i di c=d c := by
  have hblock := g.inodes i hi
  exact Function.update_of_ne (by omega) _ _

theorem inodeAt_setBitAt {b i : ℕ} (hb : b < sb.size) (hi : i < sb.ninodes) (set : Bool) :
    inodeAt sb (setBitAt sb d b set) i=inodeAt sb d i := by
  rw [inodeAt,setBitAt,Function.update_of_ne (g.apart i b hi hb),← inodeAt]

theorem bit_putInodeAt {b i : ℕ} (hb : b < sb.size) (hi : i < sb.ninodes) (di : DiskInode) :
    bit sb (putInodeAt sb d i di) b=bit sb d b := by
  rw [bit,putInodeAt,Function.update_of_ne (g.apart i b hi hb).symm,← bit]

theorem inodeAt_update {i c : ℕ} (hi : i < sb.ninodes) (hc : sb.nmeta ≤ c) (buf : Buffer) :
    inodeAt sb (Function.update d c buf) i=inodeAt sb d i := by
  have hblock := g.inodes i hi
  rw [inodeAt,Function.update_of_ne (by omega),← inodeAt]

theorem bit_update {b c : ℕ} (hb : b < sb.size) (hc : sb.nmeta ≤ c) (buf : Buffer) :
    bit sb (Function.update d c buf) b=bit sb d b := by
  have hblock := g.bitmap b hb
  rw [bit,Function.update_of_ne (by omega),← bit]

end Regions

/-- Number of block numbers that an inode can hold: direct blocks, the indirect block and its
entries. -/
def npos : ℕ := ndirect+1+nindirect

/-- A block number that an inode holds; beyond the indirect block, those in it. -/
def addrAt (d : Disk) (di : DiskInode) (p : ℕ) : ℕ :=
  if p≤ndirect then di.addr p
  else if di.addr ndirect=0 then 0
  else word (d (di.addr ndirect)) (p-ndirect-1)

/-- Where an inode holds the number of a block of its contents. -/
def posOf (bn : ℕ) : ℕ := if bn<ndirect then bn else bn+1

end Xv6Rust.DiskLayout
