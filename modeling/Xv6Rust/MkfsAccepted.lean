import Xv6Rust.MkfsImage
import Xv6Rust.DirEntries

/-!
# What the kernel finds on an image

The kernel reads the super block that `mkfs` has written, and with it the
inodes, the bitmap, the contents of the files and the entries of the root. All
of it is as the kernel keeps it itself, unless there are more files than inode
numbers, the entries fill the last block of the root, so that the block that is
added to its size has no number, or two names are the same.
-/

namespace Xv6Rust.MkfsAccepted

open Bytes DiskLayout InodeLayer BlockOwnership FileContents Mkfs MkfsWrites MkfsImage

/-- The super block that the kernel reads. -/
def sb : SuperBlock := ⟨fssize,nblocks,ninodes,inodestart,bmapstart⟩

/-- A name as it is stored. -/
def storedName (name : List UInt8) : Name := fun i => name.getD i 0

/-- An entry on the disk, of an inode. -/
def diskEntry (d : Disk) (di : DiskInode) (off : ℕ) : DirEntry :=
  getEntry (fun k => byteAt d di (off+k)) 0

/-- The image is one that the kernel accepts. -/
structure Accepted (files : List Input) (d : Disk) : Prop where
  /-- The super block can be read. -/
  super : superBlock d=some sb
  /-- The numbers of the files are inode numbers, and their inodes are in the inode table. -/
  inums : ∀ k,k < files.length → k+2 < sb.ninodes ∧ sb.inodestart ≤ sb.locateInode (k+2) ∧
    sb.locateInode (k+2) < sb.bmapstart
  /-- Every block of the contents of an inode has a number. -/
  mapped : ∀ j,j < sb.ninodes → (inodeAt sb d j).itype≠.empty → Whole d (inodeAt sb d j)
  /-- The numbers are distinct and those of data blocks, and the bits of the bitmap are those of
  the blocks before the data blocks and of the numbers. -/
  owned : Owned sb d (inodeAt sb d)
  /-- The files read as the input files. -/
  contents : ∀ (k : ℕ) f,files[k]?=some f → (inodeAt sb d (k+2)).itype=.file ∧
    (inodeAt sb d (k+2)).size.toNat=f.contents.length ∧
    ∀ offset count,offset+count ≤ f.contents.length →
      ∃ dst,iread sb d (inodeAt sb d (k+2)) offset count=.ok (some dst,d,inodeAt sb d (k+2)) ∧
        ∀ j,j < count → dst j=f.contents.getD (offset+j) 0
  /-- No two entries of the root that are in use have the same name. -/
  names : ∀ m m',deSize*m < (inodeAt sb d rootino).size.toNat →
    deSize*m' < (inodeAt sb d rootino).size.toNat →
    (diskEntry d (inodeAt sb d rootino) (deSize*m)).inum≠0 →
    (diskEntry d (inodeAt sb d rootino) (deSize*m')).inum≠0 →
    (diskEntry d (inodeAt sb d rootino) (deSize*m)).name=
      (diskEntry d (inodeAt sb d rootino) (deSize*m')).name → m=m'

/-- There are as many inode numbers as files, the entries do not fill a block, and the names are
distinct. -/
structure Fits (files : List Input) : Prop where
  /-- Files. -/
  count : files.length ≤ 510
  /-- Entries. -/
  partly : (files.length+2)%64≠0
  /-- Names. -/
  names : ((entries files).map fun e => storedName e.2).Nodup

section Reading

theorem superBlock_eq {d : Disk} (h : d 1=sbBytes) : superBlock d=some sb := by
  rw [superBlock,h]
  decide

theorem sb_view : View sb := by
  have hn : sb.nmeta=66 := by decide
  refine ⟨rfl,rfl,rfl,by decide,⟨fun j hj => ?_,fun b hb => ?_,fun j b hj hb => ?_,by decide,
    by decide⟩⟩
  · change j < 512 at hj
    rw [hn]
    show j/16+32 < 66
    omega
  · change b < 2048 at hb
    rw [hn]
    show b/8192+65 < 66
    omega
  · change j < 512 at hj
    change b < 2048 at hb
    show j/16+32≠b/8192+65
    omega

/-- The bytes of an entry. -/
theorem getD_entryList {es : List (ℕ×List UInt8)} {m j : ℕ} {e : ℕ×List UInt8}
    (h : es[m]?=some e) (hj : j < deSize) :
    (entryList es).getD (deSize*m+j) 0=dirent e.1 e.2 j := by
  induction es generalizing m with
  | nil => cases h
  | cons x es ih =>
    have hcons : entryList (x::es)=entry x.1 x.2++entryList es := rfl
    have hlen := length_entry x.1 x.2
    rw [hcons]
    cases m with
    | zero =>
      cases h
      rw [Nat.mul_zero,Nat.zero_add,List.getD_append _ _ _ _ (by omega)]
      exact (dirent_eq _ _ (by omega)).symm
    | succ m =>
      have hoff : deSize*(m+1)+j-(entry x.1 x.2).length=deSize*m+j := by
        rw [hlen,Nat.mul_succ]
        omega
      rw [List.getD_append_right _ _ _ _ (by rw [hlen,Nat.mul_succ]; omega),hoff]
      exact ih h

/-- The entry in the bytes that are written for it. -/
theorem getEntry_dirent {inum : ℕ} (name : List UInt8) (h : inum < 2^16) :
    getEntry (dirent inum name) 0=⟨inum,storedName name⟩ := by
  have hinum : getLE (dirent inum name) 0 2=inum := by
    have hput : getLE (putLE (fun _ => 0) 0 2 inum) 0 2=inum :=
      getLE_putLE_self (h.trans_eq (by norm_num))
    rw [← hput]
    refine getLE_congr fun j _ hj => ?_
    rw [dirent,strncpy,if_neg (by omega),hput]
  rw [getEntry,hinum]
  congr 1
  funext j
  have hj : j.val < dirsiz := j.isLt
  rw [dirent,strncpy,if_pos (by omega),storedName]
  congr 1
  omega

variable {d : Disk} {di : DiskInode} {es : List (ℕ×List UInt8)} {m : ℕ} {e : ℕ×List UInt8}

/-- An entry of a directory. -/
theorem diskEntry_eq (hd : ∀ o,o < maxFileSize → byteAt d di o=(entryList es).getD o 0)
    (hmax : deSize*es.length ≤ maxFileSize) (h : es[m]?=some e) (he : e.1 < 2^16) :
    diskEntry d di (deSize*m)=⟨e.1,storedName e.2⟩ := by
  have hm := (List.getElem?_eq_some_iff.mp h).1
  rw [← getEntry_dirent e.2 he,diskEntry]
  refine DirEntries.getEntry_congr fun j hj => ?_
  rw [Nat.zero_add]
  have hend : deSize*m+deSize ≤ deSize*es.length := by
    rw [← Nat.mul_succ]
    exact Nat.mul_le_mul_left _ hm
  rw [hd _ (by omega),getD_entryList h hj]

/-- Behind the last one the entries are free. -/
theorem diskEntry_behind (hd : ∀ o,o < maxFileSize → byteAt d di o=(entryList es).getD o 0)
    (hm : es.length ≤ m) (hmax : deSize*m+deSize ≤ maxFileSize) :
    (diskEntry d di (deSize*m)).inum=0 := by
  have hge := Nat.mul_le_mul_left deSize hm
  have hzero : ∀ j,j < deSize → byteAt d di (deSize*m+j)=0 := by
    intro j hj
    rw [hd _ (by omega),List.getD_eq_default _ _ (by rw [length_entryList]; omega)]
  rw [diskEntry,getEntry]
  refine (getLE_congr fun j _ hj => ?_).trans (getLE_zero 0 2)
  exact hzero j (by rw [deSize]; omega)

end Reading

section Results

variable {files : List Input} {d : Disk}

/-- The image with the super block that is written on it. -/
theorem mkfs_accepted_image (hcount : files.length ≤ 510) (h : mkfs files=.ok d) :
    superBlock d=some sb ∧ Image sb d files := by
  have hroom : files.length+2 ≤ sb.ninodes := by
    show files.length+2 ≤ 512
    omega
  obtain ⟨e,himage,-,hsame,hfront⟩ := mkfs_image sb_view hroom h
  obtain rfl := hsame rfl
  refine ⟨superBlock_eq ?_,himage⟩
  rw [hfront 1 (by decide)]
  rfl

/-- The numbers of the entries. -/
theorem entries_inum {m : ℕ} {e : ℕ×List UInt8} (hcount : files.length+2 < 2^16)
    (h : (entries files)[m]?=some e) : e.1≠0 ∧ e.1 < 2^16 := by
  rw [entries] at h
  cases m with
  | zero =>
    cases h
    decide
  | succ m =>
    cases m with
    | zero =>
      cases h
      decide
    | succ m =>
      rw [List.getElem?_cons_succ,List.getElem?_cons_succ,List.getElem?_mapIdx] at h
      obtain ⟨f,hf,rfl⟩ := Option.map_eq_some_iff.mp h
      have hlt := (List.getElem?_eq_some_iff.mp hf).1
      omega

/-- The entries of the root, and those behind them. -/
theorem root_entries (hcount : files.length ≤ 510) (himage : Image sb d files) :
    (inodeAt sb d rootino).itype=.directory ∧
      (inodeAt sb d rootino).size.toNat=rootSize files ∧
      (∀ {m : ℕ} {e},(entries files)[m]?=some e →
        diskEntry d (inodeAt sb d rootino) (deSize*m)=⟨e.1,storedName e.2⟩ ∧ e.1≠0) ∧
      (∀ m,files.length+2 ≤ m → deSize*m < rootSize files →
        (diskEntry d (inodeAt sb d rootino) (deSize*m)).inum=0) ∧
      (∀ bn,bn*bsize < deSize*(files.length+2) →
        bn < ndirect+nindirect ∧ addrAt d (inodeAt sb d rootino) (posOf bn)≠0) ∧
      ∀ bn,bn < ndirect → deSize*(files.length+2) ≤ bn*bsize →
        addrAt d (inodeAt sb d rootino) (posOf bn)=0 := by
  obtain ⟨di,hold,hroot⟩ := himage.root
  have hroot : inodeAt sb d rootino={di with size := UInt32.ofNat (rootSize files)} := hroot
  have hlen : (entryList (entries files)).length=deSize*(files.length+2) := by
    rw [length_entryList,length_entries]
  have hsize : rootSize files ≤ maxFileSize := by
    rw [rootSize,deSize,bsize,maxFileSize,ndirect,nindirect,bsize]
    omega
  have hmax : deSize*(entries files).length ≤ maxFileSize := by
    rw [← length_entryList]
    exact hold.length_le
  have hbytes : ∀ o,o < maxFileSize → byteAt d {di with size := UInt32.ofNat (rootSize files)} o=
      (entryList (entries files)).getD o 0 := by
    intro o ho
    rw [← hold.bytes o ho]
    exact byteAt_addrs rfl o
  have haddr : ∀ p,addrAt d {di with size := UInt32.ofNat (rootSize files)} p=addrAt d di p :=
    fun p => addrAt_addrs rfl p
  rw [hroot]
  refine ⟨hold.itype,?_,fun {m e} hm => ?_,fun m hm hlt => ?_,fun bn hbn => ?_,
    fun bn hbn hout => ?_⟩
  · have hmaxsize : maxFileSize<2^32 := by decide
    exact UInt32.toNat_ofNat_of_lt' (show rootSize files<2^32 by omega)
  · have hrange := entries_inum (by omega) hm
    exact ⟨diskEntry_eq hbytes hmax hm hrange.2,hrange.1⟩
  · refine diskEntry_behind hbytes (by rwa [length_entries]) ?_
    rw [rootSize,deSize,bsize] at hlt
    rw [deSize,maxFileSize,ndirect,nindirect,bsize]
    omega
  · rw [haddr]
    exact hold.whole bn (by rwa [hold.size,hlen])
  · rw [haddr,posOf,if_pos hbn,addrAt_direct hbn.le]
    exact hold.tail bn hbn (by rwa [hlen])

/-- An image that is accepted is of files that fit. -/
theorem Accepted.fits (h : mkfs files=.ok d) (ha : Accepted files d) : Fits files := by
  have hcount : files.length ≤ 510 := by
    by_contra hn
    have hlast := (ha.inums 510 (by omega)).1
    exact absurd hlast (by decide)
  obtain ⟨-,himage⟩ := mkfs_accepted_image hcount h
  obtain ⟨hdir,hsize,hentry,-,-,htail⟩ := root_entries hcount himage
  refine ⟨hcount,fun hfull => ?_,?_⟩
  · -- the block that is added to the size has no number
    have hmapped := ha.mapped rootino (by decide) (by rw [hdir]; nofun) ((files.length+2)/64) (by
      rw [hsize,rootSize,deSize,bsize]
      omega)
    refine hmapped.2 (htail _ ?_ ?_)
    · rw [ndirect]
      omega
    · rw [deSize,bsize]
      omega
  · rw [List.nodup_iff_getElem?_ne_getElem?]
    intro m m' hlt hm' heq
    rw [List.length_map,length_entries] at hm'
    have hget : ∀ m,m < files.length+2 → ∃ e,(entries files)[m]?=some e := fun m hm =>
      ⟨_,List.getElem?_eq_getElem (by rwa [length_entries])⟩
    obtain ⟨e,he⟩ := hget m (by omega)
    obtain ⟨e',he'⟩ := hget m' hm'
    rw [List.getElem?_map,List.getElem?_map,he,he'] at heq
    obtain ⟨hd,hne⟩ := hentry he
    obtain ⟨hd',hne'⟩ := hentry he'
    have hwithin : ∀ m,m < files.length+2 → deSize*m < (inodeAt sb d rootino).size.toNat := by
      intro m hm
      rw [hsize,rootSize,deSize,bsize]
      omega
    have hsame := ha.names m m' (hwithin m (by omega)) (hwithin m' hm') (by rwa [hd]) (by rwa [hd'])
      (by rw [hd,hd']; exact Option.some.inj heq)
    omega

/-- The image of files that fit is accepted. -/
theorem Fits.accepted (hf : Fits files) (h : mkfs files=.ok d) : Accepted files d := by
  have hcount := hf.count
  obtain ⟨hsuper,himage⟩ := mkfs_accepted_image hcount h
  obtain ⟨hdir,hsize,hentry,hfree,hwhole,-⟩ := root_entries hcount himage
  have hfile : ∀ {k : ℕ} {f},files[k]?=some f → k+2 < sb.ninodes := by
    intro k f hk
    have hlt := (List.getElem?_eq_some_iff.mp hk).1
    show k+2 < 512
    omega
  refine ⟨hsuper,fun k hk => ?_,fun j hj hused => ?_,himage.owned,fun k f hk => ?_,
    fun m m' hm hm' hne hne' heq => ?_⟩
  · show k+2 < 512 ∧ 32 ≤ (k+2)/16+32 ∧ (k+2)/16+32 < 65
    omega
  · by_cases hout : j=0 ∨ files.length+1 < j
    · exact absurd (himage.others j hj hout) hused
    · by_cases hroot : j=rootino
      · rw [hroot]
        intro bn hbn
        -- the last block of the root is one with entries
        refine hwhole bn ?_
        have hpartly := hf.partly
        rw [hsize,rootSize,deSize,bsize] at hbn
        rw [deSize,bsize]
        omega
      · obtain ⟨k,rfl⟩ : ∃ k,j=k+2 := ⟨j-2,by rw [rootino] at hroot; omega⟩
        have hk : files[k]?=some files[k] := List.getElem?_eq_getElem (by omega)
        exact (himage.file hk).whole
  · have hold := himage.file hk
    have hi := hfile hk
    have hused : (inodeAt sb d (k+2)).itype≠.empty := by
      rw [hold.itype]
      exact InodeType.noConfusion
    refine ⟨hold.itype,hold.size,fun offset count hle => ?_⟩
    obtain ⟨dst,hok,hsome⟩ := iread_whole sb hold.whole offset count
    have hlen : (inodeAt sb d (k+2)).size.toNat=f.contents.length := hold.size
    have hlt := (inodeAt sb d (k+2)).size.toNat_lt
    rw [hlen] at hsome hlt
    obtain ⟨dst,rfl⟩ := Option.ne_none_iff_exists'.mp (hsome (by omega) hle)
    refine ⟨dst,hok,fun j hj => ?_⟩
    obtain ⟨-,-,⟨-,hrange⟩,hdst⟩ := iread_spec (v:=inodeAt sb d) sb_view.geometry
      (by rw [withInode_inodeAt]; exact himage.owned) hi hused hok
    have hmax := hrange (by omega)
    rw [hdst j,if_pos hj,hold.bytes _ (by omega)]
  · rw [hsize] at hm hm'
    have hget : ∀ m,deSize*m < rootSize files →
        (diskEntry d (inodeAt sb d rootino) (deSize*m)).inum≠0 →
          ∃ e,(entries files)[m]?=some e := by
      intro m hm hne
      refine ⟨_,List.getElem?_eq_getElem ?_⟩
      rw [length_entries]
      by_contra hge
      exact hne (hfree m (not_lt.mp hge) hm)
    obtain ⟨e,he⟩ := hget m hm hne
    obtain ⟨e',he'⟩ := hget m' hm' hne'
    rw [(hentry he).1,(hentry he').1] at heq
    have hnames := hf.names
    rw [List.nodup_iff_getElem?_ne_getElem?] at hnames
    have hlen := (List.getElem?_eq_some_iff.mp he).1
    have hlen' := (List.getElem?_eq_some_iff.mp he').1
    have hboth : ((entries files).map fun e => storedName e.2)[m]?=
        ((entries files).map fun e => storedName e.2)[m']? := by
      rw [List.getElem?_map,List.getElem?_map,he,he']
      exact congrArg some heq
    by_contra hmm
    obtain hlt | hlt := Nat.lt_or_gt_of_ne hmm
    · exact hnames m m' hlt (by rwa [List.length_map]) hboth
    · exact hnames m' m hlt (by rwa [List.length_map]) hboth.symm

end Results

instance (files : List Input) : Decidable (Fits files) :=
  decidable_of_iff (files.length ≤ 510 ∧ (files.length+2)%64≠0 ∧
    ((entries files).map fun e => storedName e.2).Nodup)
    ⟨fun h => ⟨h.1,h.2.1,h.2.2⟩,fun h => ⟨h.count,h.partly,h.names⟩⟩

/-- If `mkfs` terminates normally, the kernel accepts its image if and only if there are at most
510 files, two more than their number is no multiple of 64, and the stored names, with `.` and
`..`, are distinct. -/
theorem mkfs_accepted_iff (files : List Input) (d : Disk) (h : mkfs files=.ok d) :
    Accepted files d ↔ Fits files := ⟨Accepted.fits h,fun hf => hf.accepted h⟩

/-- An image is built if no assertion fails. -/
theorem exists_image {files : List Input} (h : (mkfs files).isOk=true) : ∃ d,mkfs files=.ok d := by
  cases hd : mkfs files with
  | ok d => exact ⟨d,rfl⟩
  | error e =>
    rw [hd] at h
    cases h

/-- The file `user/_a` of three bytes. -/
def oneFile : List Input := [⟨[0x75,0x73,0x65,0x72,0x2f,0x5f,0x61],by decide,[1,2,3]⟩]

theorem oneFile_isOk : (mkfs oneFile).isOk=true := by decide +kernel

theorem mkfs_accepted_iff_oneFile : ∃ d,mkfs oneFile=.ok d ∧ Accepted oneFile d := by
  obtain ⟨d,hd⟩ := exists_image oneFile_isOk
  exact ⟨d,hd,(mkfs_accepted_iff oneFile d hd).mpr (by decide)⟩

/-- The file `a` twice. -/
def sameFileTwice : List Input := [⟨[0x61],by decide,[]⟩,⟨[0x61],by decide,[]⟩]

theorem sameFileTwice_isOk : (mkfs sameFileTwice).isOk=true := by decide +kernel

theorem same_name_twice : ¬∀ files d,mkfs files=.ok d → Accepted files d := by
  intro hall
  obtain ⟨d,hd⟩ := exists_image sameFileTwice_isOk
  exact absurd ((hall sameFileTwice d hd).fits hd) (by decide)

end Xv6Rust.MkfsAccepted
