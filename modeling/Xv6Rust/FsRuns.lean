import Xv6Rust.InodeSound
import Xv6Rust.Runs

/-!
# Runs of the file system

Operations on inodes one after the other, in any order, by whoever has the references. From a
disk whose blocks are owned and whose directories have no holes, blocks stay owned and none is
freed twice; and where no inode has a hole, none gets one, so that nothing that is read
is allocated.
-/

namespace Xv6Rust.FsRuns

open Bytes DiskLayout InodeLayer BlockOwnership FileContents InodeSound Triples Runs

/-- The file system, and the references that the processes have. -/
structure State where
  /-- The file system. -/
  fs : Fs
  /-- References. -/
  held : List Inode

/-- An operation. -/
inductive Call where
  /-- `namei`. -/
  | lookup (cwd : Inode) (path : List UInt8)
  /-- `create`. -/
  | create (cwd : Inode) (path : List UInt8) (itype : InodeType) (major minor : UInt16)
    (reuse : Bool)
  /-- `lock`. -/
  | lock (h : Inode)
  /-- The guard is dropped. -/
  | unlock (h : Inode)
  /-- `try_iwrite`. -/
  | write (h : Inode) (src : Source) (offset count : ℕ)
  /-- `truncate`. -/
  | truncate (h : Inode)
  /-- `dir_link`. -/
  | dirLink (h : Inode) (name : Name) (inum : ℕ)
  /-- `dir_unlink`. -/
  | dirUnlink (h : Inode) (name : Name)
  /-- `put`. -/
  | put (h : Inode)

/-- The end of an operation, with the references that are there after it. -/
def finish {α : Type} (held : α → List Inode) : Except Stop (α×Fs) → Outcome Stop State
  | .error e => .fault e
  | .ok (a,fs) => .next ⟨fs,held a⟩

/-- One operation, by somebody who has the references that it takes. -/
def step (s : State) : Call → Outcome Stop State
  | .lookup cwd path =>
    if pathAt path 0=0x2f ∨ cwd∈s.held then
      finish (fun r => optionalInode r s.held) (namei cwd path s.fs)
    else .blocked
  | .create cwd path itype major minor reuse =>
    if pathAt path 0=0x2f ∨ cwd∈s.held then
      finish (fun r => optionalInode r s.held) (create cwd path itype major minor reuse s.fs)
    else .blocked
  | .lock h => if h∈s.held then finish (fun _ => s.held) (h.lock s.fs) else .blocked
  | .unlock h => if h∈s.held then finish (fun _ => s.held) (h.unlock s.fs) else .blocked
  | .write h src offset count =>
    if h∈s.held then
      finish (fun _ => s.held)
        (onInode h.index (fun sb n d di => tryIwrite sb n src offset count d di) s.fs)
    else .blocked
  | .truncate h =>
    if h∈s.held then
      finish (fun _ => s.held) (onInode h.index (fun sb n d di => do
        let (d,di) ← truncate sb n d di
        return ((),d,di)) s.fs)
    else .blocked
  | .dirLink h name inum =>
    if h∈s.held then finish (fun _ => s.held) (dirLink h.index name inum s.fs) else .blocked
  | .dirUnlink h name =>
    if h∈s.held then finish (fun _ => s.held) (dirUnlink h.index name s.fs) else .blocked
  | .put h => if h∈s.held then finish (fun _ => s.held.erase h) (Icache.put h s.fs) else .blocked

/-- The file system after boot: nothing is in the cache. -/
def boot (sb : SuperBlock) (d : Disk) : State :=
  ⟨⟨sb,d,fun _ => ⟨0,0⟩,fun _ => ⟨none,DiskInode.new⟩,fun _ => false⟩,[]⟩

section Soundness

variable {K : InodeType → Prop} {s t : State} {c : Call}

/-- A rule for an operation tells about its end. -/
theorem finish_rule {α : Type} {m : Op α} {hs : List Inode} {post held : α → List Inode}
    (h : Triple (Good K hs) m (fun a t => Good K (post a) t) NotTwice) {fs : Fs}
    (hg : Good K hs fs) (hheld : ∀ a,post a=held a) :
    finish held (m fs)≠.fault .doubleFree ∧
      ∀ t,finish held (m fs)=.next t → Good K t.held t.fs := by
  have hm := h fs hg
  cases hr : m fs with
  | error e =>
    refine ⟨fun he => ?_,nofun⟩
    cases he
    exact hm.2 .doubleFree hr rfl
  | ok x =>
    refine ⟨nofun,fun t ht => ?_⟩
    cases ht
    rw [← hheld]
    exact hm.1 x.1 x.2 hr

/-- An operation keeps the file system sound, and frees no block twice. -/
theorem step_good (hK : K .directory) (hg : Good K s.held s.fs) :
    step s c≠.fault .doubleFree ∧ ∀ t,step s c=.next t → Good K t.held t.fs := by
  have hblocked : (Outcome.blocked : Outcome Stop State)≠.fault .doubleFree ∧
      ∀ t,(Outcome.blocked : Outcome Stop State)=.next t → Good K t.held t.fs := ⟨nofun,nofun⟩
  cases c with
  | lookup cwd path =>
    rw [step]
    split
    · rename_i hc
      exact finish_rule (namei_rule hK path fun hne => hc.resolve_left hne) hg fun _ => rfl
    · exact hblocked
  | create cwd path itype major minor reuse =>
    rw [step]
    split
    · rename_i hc
      exact finish_rule (create_rule hK path itype major minor reuse
        fun hne => hc.resolve_left hne) hg fun _ => rfl
    · exact hblocked
  | lock h =>
    rw [step]
    split
    · rename_i hm
      exact finish_rule ((lock_rule hm).post fun _ _ hp => hp.1) hg fun _ => rfl
    · exact hblocked
  | unlock h =>
    rw [step]
    split
    · exact finish_rule unlock_rule hg fun _ => rfl
    · exact hblocked
  | write h src offset count =>
    rw [step]
    split
    · exact finish_rule (onInode_rule (tryIwrite_keeps src offset count)) hg fun _ => rfl
    · exact hblocked
  | truncate h =>
    rw [step]
    split
    · exact finish_rule (onInode_rule truncate_keeps) hg fun _ => rfl
    · exact hblocked
  | dirLink h name inum =>
    rw [step]
    split
    · exact finish_rule (dirLink_rule hK name inum) hg fun _ => rfl
    · exact hblocked
  | dirUnlink h name =>
    rw [step]
    split
    · exact finish_rule (dirUnlink_rule hK name) hg fun _ => rfl
    · exact hblocked
  | put h =>
    rw [step]
    split
    · rename_i hm
      exact finish_rule put_rule ⟨hg.1,hg.2.perm (List.perm_cons_erase hm).symm⟩ fun _ => rfl
    · exact hblocked

/-- After boot, the file system is sound if the disk is. -/
theorem boot_good {sb : SuperBlock} {d : Disk} (g : sb.Geometry) (h : Owned sb d (inodeAt sb d))
    (hw : ∀ j,j < sb.ninodes → (inodeAt sb d j).itype≠.empty → K (inodeAt sb d j).itype →
      Whole d (inodeAt sb d j)) : Good K (boot sb d).held (boot sb d).fs :=
  ⟨⟨g,h,hw,nofun,fun _ _ hi => absurd hi (lt_irrefl 0),fun _ hi => absurd hi (lt_irrefl 0)⟩,
    fun _ => le_rfl,nofun⟩

/-- Every state that is reached is sound. -/
theorem run_good (hK : K .directory) (hg : Good K s.held s.fs) {as : List Call}
    (h : run step s as=.next t) : Good K t.held t.fs :=
  have hstep : ∀ (s : State) (c : Call) (t : State),Good K s.held s.fs → True → step s c=.next t →
      Good K t.held t.fs := fun _ _ t hg _ ht => (step_good hK hg).2 t ht
  run_invariant hstep hg (guarded_of_forall (fun _ _ => trivial) _ _) h

/-- No run frees a block twice. -/
theorem run_no_doubleFree (hK : K .directory) (hg : Good K s.held s.fs) (as : List Call) :
    run step s as≠.fault .doubleFree := by
  have hstep : ∀ (s : State) (c : Call) (t : State),Good K s.held s.fs → True → step s c=.next t →
      Good K t.held t.fs := fun _ _ t hg _ ht => (step_good hK hg).2 t ht
  have hfault : ∀ (s : State) (c : Call),Good K s.held s.fs → True → step s c≠.fault .doubleFree :=
    fun _ _ hg _ => (step_good hK hg).1
  exact run_no_fault hstep hfault hg (guarded_of_forall (fun _ _ => trivial) _ _)

end Soundness

/-- From a disk whose blocks are owned and whose directories have no holes, after every run the
bits below the size of the device are those of the blocks before the data blocks and of the
numbers that allocated inodes hold, each of them once, the inodes in the cache hold the same
numbers, and no block is freed twice. -/
theorem blocks_stay_owned (sb : SuperBlock) (d : Disk) (g : sb.Geometry)
    (h : Owned sb d (inodeAt sb d))
    (hdirs : ∀ j,j < sb.ninodes → (inodeAt sb d j).itype=.directory → Whole d (inodeAt sb d j))
    (as : List Call) :
    run step (boot sb d) as≠.fault .doubleFree ∧ ∀ t,run step (boot sb d) as=.next t →
      Owned t.fs.sb t.fs.disk (inodeAt t.fs.sb t.fs.disk) ∧
      ∀ i n,(t.fs.idata i).valid=some n → n < t.fs.sb.ninodes ∧
        Agrees (t.fs.idata i).dinode (inodeAt t.fs.sb t.fs.disk n) := by
  have hboot : Good (fun itype => itype=.directory) (boot sb d).held (boot sb d).fs :=
    boot_good g h fun j hj _ hK => hdirs j hj hK
  refine ⟨?_,fun t ht => ?_⟩
  · exact @run_no_doubleFree (fun itype => itype=.directory) _ rfl hboot as
  · have hgood := @run_good (fun itype => itype=.directory) _ _ rfl hboot _ ht
    exact ⟨hgood.1.owned,fun i n hi => ⟨(hgood.1.cached i n hi).inum,(hgood.1.cached i n hi).same⟩⟩

/-- A disk with an empty root directory. -/
def emptyRoot : Disk := oneInode {DiskInode.new with itype := .directory,nlink := 1}

theorem emptyRoot_owned : Owned smallDevice emptyRoot (inodeAt smallDevice emptyRoot) :=
  oneInode_owned (new_addr .directory 1 0)

theorem emptyRoot_size : ∀ j,j < smallDevice.ninodes → (inodeAt smallDevice emptyRoot j).size=0 := by
  decide +kernel

theorem emptyRoot_whole {j : ℕ} (hj : j < smallDevice.ninodes) :
    Whole emptyRoot (inodeAt smallDevice emptyRoot j) := by
  intro bn hbn
  rw [emptyRoot_size j hj] at hbn
  exact absurd hbn (Nat.not_lt_zero _)

/-- The name `f`. -/
def nameF : Name := fun i => if i.val=0 then 0x66 else 0

/-- The file `/f` is made and written to, and the root directory is locked. -/
def writesFile : List Call :=
  [.create ⟨0,0⟩ [0x2f,0x66] .file 0 0 false,.lock ⟨2,1⟩,
    .write ⟨2,1⟩ (kernelSource fun _ => 0x61) 0 3,.unlock ⟨2,1⟩,.lookup ⟨0,0⟩ [0x2f],
    .lock ⟨1,0⟩]

/-- Then `/f` is removed, and with the last reference to it its block. -/
def removesFile : List Call :=
  [.dirUnlink ⟨1,0⟩ nameF,.unlock ⟨1,0⟩,.put ⟨1,0⟩,.put ⟨2,1⟩]

/-- The directory and the file have a block each, until the file is removed. -/
theorem blocks_stay_owned_removesFile :
    ∃ t u,run step (boot smallDevice emptyRoot) writesFile=.next t ∧
      (bit t.fs.sb t.fs.disk 4=true ∧ bit t.fs.sb t.fs.disk 5=true) ∧
      Owned t.fs.sb t.fs.disk (inodeAt t.fs.sb t.fs.disk) ∧
      run step t removesFile=.next u ∧
      (bit u.fs.sb u.fs.disk 4=true ∧ bit u.fs.sb u.fs.disk 5=false) ∧
      Owned u.fs.sb u.fs.disk (inodeAt u.fs.sb u.fs.disk) := by
  have hruns : (run step (boot smallDevice emptyRoot) writesFile).test (fun t =>
      decide (bit t.fs.sb t.fs.disk 4=true ∧ bit t.fs.sb t.fs.disk 5=true) &&
        (run step t removesFile).test fun u =>
          decide (bit u.fs.sb u.fs.disk 4=true ∧ bit u.fs.sb u.fs.disk 5=false))=true := by
    decide +kernel
  obtain ⟨t,ht,htest⟩ := Outcome.exists_of_test hruns
  rw [Bool.and_eq_true] at htest
  obtain ⟨u,hu,hfreed⟩ := Outcome.exists_of_test htest.2
  have hkeep := fun as => blocks_stay_owned smallDevice emptyRoot smallDevice_geometry
    emptyRoot_owned (fun j hj _ => emptyRoot_whole hj) as
  refine ⟨t,u,ht,of_decide_eq_true htest.1,((hkeep _).2 t ht).1,hu,of_decide_eq_true hfreed,?_⟩
  refine ((hkeep (writesFile++removesFile)).2 u ?_).1
  rw [run_append _ ht]
  exact hu

/-- A root directory of one entry that has no block. -/
def holeInRoot : Disk := oneInode {DiskInode.new with itype := .directory,nlink := 1,size := 16}

/-- A name is looked for in the root directory, and the root directory is let go. -/
def lookInRoot : List Call :=
  [.lookup ⟨0,0⟩ [0x2f],.lock ⟨1,0⟩,.dirUnlink ⟨1,0⟩ fun _ => 0x78,.unlock ⟨1,0⟩,.put ⟨1,0⟩]

/-- A directory that has a hole gets a block when it is read, which then nobody holds. -/
theorem hole_in_root_leaks :
    ¬∀ sb d,sb.Geometry → Owned sb d (inodeAt sb d) → ∀ as t,run step (boot sb d) as=.next t →
      Owned t.fs.sb t.fs.disk (inodeAt t.fs.sb t.fs.disk) := by
  intro hall
  obtain ⟨t,ht,htest⟩ := Outcome.exists_of_test (o:=run step (boot smallDevice holeInRoot) lookInRoot)
    (p:=fun t => t.fs.sb==smallDevice && bit t.fs.sb t.fs.disk 4 && (List.range 16).all fun j =>
      (List.range 13).all fun q => (inodeAt t.fs.sb t.fs.disk j).addr q==0) (by decide +kernel)
  simp only [Bool.and_eq_true,beq_iff_eq,List.all_eq_true,List.mem_range] at htest
  obtain ⟨⟨hsb,hbit⟩,hzero⟩ := htest
  have hown := hall smallDevice holeInRoot smallDevice_geometry 
    (oneInode_owned (new_addr .directory 1 16)) _ t ht
  have hsize : 4 < t.fs.sb.size := by
    rw [hsb]
    decide
  obtain hlow | ⟨j,p,hj⟩ := (hown.bits 4 hsize).mp hbit
  · rw [hsb] at hlow
    exact absurd hlow (by decide)
  · have hlt : j < 16 := by
      have hinum := hj.inum
      rw [hsb] at hinum
      exact hinum
    have haddr := hj.addr
    rw [addrAt] at haddr
    split at haddr
    · rename_i hp
      rw [hzero j hlt p (by rw [ndirect] at hp; omega)] at haddr
      cases haddr
    · rw [if_pos (hzero j hlt ndirect (by decide))] at haddr
      cases haddr

section Reading

variable {s : Fs} {i n : ℕ}

/-- Two file systems have the same disk and the same inodes in the cache. -/
structure SameContents (s t : Fs) : Prop where
  /-- Super block. -/
  sb : t.sb=s.sb
  /-- Disk. -/
  disk : t.disk=s.disk
  /-- Inodes in the cache. -/
  idata : t.idata=s.idata

/-- An operation looks for no free block, and leaves the disk and the inodes as they are. -/
abbrev OnlyReads {α : Type} (s : Fs) (m : Op α) : Prop :=
  Triple (SameContents s) m (fun _ t => SameContents s t) (· ≠ .noFreeBlock)

theorem readEntry_onlyReads (hvalid : (s.idata i).valid=some n)
    (hw : Whole s.disk (s.idata i).dinode) (off : ℕ) : OnlyReads s (readEntry i off) := by
  intro t ht
  have hvalid' : (t.idata i).valid=some n := by rw [ht.idata,hvalid]
  have hw' : Whole t.disk (t.idata i).dinode := by rwa [ht.disk,ht.idata]
  obtain ⟨b,-,hok⟩ := readEntry_whole hvalid' hw' off
  rw [hok]
  exact ⟨fun a u hu => by cases hu; exact ht,nofun⟩

theorem get_onlyReads (inum : ℕ) : OnlyReads s (Icache.get inum) := by
  intro t ht
  rw [Icache.get]
  split
  · refine ⟨fun a u hu => ?_,fun e he => by cases he⟩
    cases hu
    exact ⟨ht.sb,ht.disk,ht.idata⟩
  · split
    · refine ⟨fun a u hu => ?_,fun e he => by cases he⟩
      cases hu
      exact ⟨ht.sb,ht.disk,ht.idata⟩
    · refine ⟨(fun a u hu => by cases hu),fun e he => ?_⟩
      cases he
      exact fun e => by cases e

theorem dirLookup_onlyReads (hvalid : (s.idata i).valid=some n)
    (hw : Whole s.disk (s.idata i).dinode) (name : Name) : OnlyReads s (dirLookup i name) := by
  have hloop : ∀ offs,OnlyReads s (dirLookupLoop i name offs) := by
    intro offs
    induction offs with
    | nil => exact .pure fun _ h => h
    | cons off offs ih =>
      refine (readEntry_onlyReads hvalid hw off).bind fun r => ?_
      cases r with
      | none => exact .throw nofun
      | some e =>
        refine .ite (fun _ => ih) fun _ => .ite (fun _ => ?_) fun _ => ih
        exact (get_onlyReads e.inum).bind fun _ => .pure fun _ h => h
  have hdinode : OnlyReads s (dinodeOf i) := fun t ht => ⟨fun a u hu => by cases hu; exact ht,nofun⟩
  exact hdinode.bind fun di => .ite (fun _ => .throw nofun) fun _ => hloop _

theorem dirIsEmpty_onlyReads (hvalid : (s.idata i).valid=some n)
    (hw : Whole s.disk (s.idata i).dinode) : OnlyReads s (dirIsEmpty i) := by
  have hloop : ∀ offs,OnlyReads s (dirIsEmptyLoop i offs) := by
    intro offs
    induction offs with
    | nil => exact .pure fun _ h => h
    | cons off offs ih =>
      refine (readEntry_onlyReads hvalid hw off).bind fun r => ?_
      cases r with
      | none => exact .throw nofun
      | some e => exact .ite (fun _ => .pure fun _ h => h) fun _ => ih
  have hdinode : OnlyReads s (dinodeOf i) := fun t ht => ⟨fun a u hu => by cases hu; exact ht,nofun⟩
  exact hdinode.bind fun di => hloop _

end Reading

/-- From a disk whose blocks are owned and whose inodes have no holes, after every run the inodes
have none, every block of an inode in the cache up to its size is found without `bm_alloc`, and
what reads changes neither the disk nor an inode. -/
theorem reads_allocate_nothing (sb : SuperBlock) (d : Disk) (g : sb.Geometry)
    (h : Owned sb d (inodeAt sb d))
    (hw : ∀ j,j < sb.ninodes → (inodeAt sb d j).itype≠.empty → Whole d (inodeAt sb d j))
    (as : List Call) (t : State) (ht : run step (boot sb d) as=.next t) :
    (∀ j,j < t.fs.sb.ninodes → (inodeAt t.fs.sb t.fs.disk j).itype≠.empty →
      Whole t.fs.disk (inodeAt t.fs.sb t.fs.disk j)) ∧
    ∀ i n,(t.fs.idata i).valid=some n →
      (∀ bn,bn*bsize < (t.fs.idata i).dinode.size.toNat →
        mapBlockno t.fs.sb t.fs.disk (t.fs.idata i).dinode bn=
          .ok (addrAt t.fs.disk (t.fs.idata i).dinode (posOf bn),t.fs.disk,(t.fs.idata i).dinode)) ∧
      Readable t.fs.sb t.fs.disk (t.fs.idata i).dinode ∧
      (∀ name,OnlyReads t.fs (dirLookup i name)) ∧ OnlyReads t.fs (dirIsEmpty i) := by
  have hboot : Good (fun _ => True) (boot sb d).held (boot sb d).fs :=
    boot_good g h fun j hj hu _ => hw j hj hu
  have hgood := run_good trivial hboot ht
  refine ⟨fun j hj hu => hgood.1.whole j hj hu trivial,fun i n hvalid => ?_⟩
  have hwhole := (hgood.1.cached i n hvalid).whole hgood.1 trivial
  refine ⟨fun bn hbn => ?_,readable_of_whole hwhole,dirLookup_onlyReads hvalid hwhole,
    dirIsEmpty_onlyReads hvalid hwhole⟩
  obtain ⟨hlt,hne⟩ := hwhole bn hbn
  exact mapBlockno_mapped hlt hne

/-- The block of the directory is found, and a name is looked for in it, without a new block. -/
theorem reads_allocate_nothing_writesFile :
    ∃ t,run step (boot smallDevice emptyRoot) writesFile=.next t ∧
      (t.fs.idata 0).dinode.size=16 ∧
      mapBlockno t.fs.sb t.fs.disk (t.fs.idata 0).dinode 0=
        .ok (4,t.fs.disk,(t.fs.idata 0).dinode) ∧
      OnlyReads t.fs (dirLookup 0 nameF) ∧
      (t.fs.idata 1).dinode.size=3 ∧ Readable t.fs.sb t.fs.disk (t.fs.idata 1).dinode := by
  have hrun : (run step (boot smallDevice emptyRoot) writesFile).test (fun t =>
      decide ((t.fs.idata 0).valid=some 1 ∧ (t.fs.idata 0).dinode.size=16 ∧
        addrAt t.fs.disk (t.fs.idata 0).dinode (posOf 0)=4 ∧
        (t.fs.idata 1).valid=some 2 ∧ (t.fs.idata 1).dinode.size=3))=true := by
    decide +kernel
  obtain ⟨t,ht,htest⟩ := Outcome.exists_of_test hrun
  obtain ⟨hdir,hdirsize,hblock,hfile,hfilesize⟩ := of_decide_eq_true htest
  have hreads := (reads_allocate_nothing smallDevice emptyRoot smallDevice_geometry emptyRoot_owned
    (fun j hj _ => emptyRoot_whole hj) writesFile t ht).2
  obtain ⟨hmapped,-,hlookup,-⟩ := hreads 0 1 hdir
  have hmap := hmapped 0 (by rw [hdirsize]; decide)
  rw [hblock] at hmap
  exact ⟨t,ht,hdirsize,hmap,hlookup nameF,hfilesize,(hreads 1 2 hfile).2.1⟩

/-- An empty root directory, and a file of 14 blocks whose indirect block the bitmap has as
free. -/
def freeIndirect : Disk :=
  let entries := putWord (putWord (fun _ => 0) 0 5) 1 5
  let d := putInodeAt smallDevice (Function.update blankDisk 4 entries) 1
    {DiskInode.new with itype := .directory,nlink := 1}
  putInodeAt smallDevice d 2 {DiskInode.new with
    itype := .file
    nlink := 1
    size := 14*1024
    addrs := fun p => if p.val=ndirect then 4 else 5}

/-- If the bitmap has a block as free that is in use, a file that is created gives another a
hole. -/
theorem free_block_in_use_makes_hole :
    ¬∀ sb d,sb.Geometry →
      (∀ j,j < sb.ninodes → (inodeAt sb d j).itype≠.empty → Whole d (inodeAt sb d j)) →
      ∀ as t,run step (boot sb d) as=.next t → ∀ j,j < t.fs.sb.ninodes →
        (inodeAt t.fs.sb t.fs.disk j).itype≠.empty →
        Whole t.fs.disk (inodeAt t.fs.sb t.fs.disk j) := by
  intro hall
  have hwhole : ∀ j,j < smallDevice.ninodes → (inodeAt smallDevice freeIndirect j).itype≠.empty →
      Whole freeIndirect (inodeAt smallDevice freeIndirect j) := by
    have hsize : ∀ j,j < 16 → (inodeAt smallDevice freeIndirect j).size.toNat ≤ 14*bsize := by
      decide +kernel
    have hmapped : ∀ j,j < 16 → ∀ bn,bn < 14 →
        bn*bsize < (inodeAt smallDevice freeIndirect j).size.toNat →
        addrAt freeIndirect (inodeAt smallDevice freeIndirect j) (posOf bn)≠0 := by
      decide +kernel
    intro j hj _ bn hbn
    have hlt : bn < 14 := Nat.lt_of_mul_lt_mul_right (hbn.trans_le (hsize j hj))
    exact ⟨hlt.trans (by decide),hmapped j hj bn hlt hbn⟩
  obtain ⟨t,ht,htest⟩ := Outcome.exists_of_test
    (o:=run step (boot smallDevice freeIndirect) [.create ⟨0,0⟩ [0x2f,0x66] .file 0 0 false])
    (p:=fun t => t.fs.sb==smallDevice && (inodeAt t.fs.sb t.fs.disk 2).itype==.file &&
      (inodeAt t.fs.sb t.fs.disk 2).size==14*1024 &&
      addrAt t.fs.disk (inodeAt t.fs.sb t.fs.disk 2) (posOf 13)==0) (by decide +kernel)
  simp only [Bool.and_eq_true,beq_iff_eq] at htest
  obtain ⟨⟨⟨hsb,htype⟩,hsize⟩,haddr⟩ := htest
  have hlt : 2 < t.fs.sb.ninodes := by
    rw [hsb]
    decide
  have hnew := hall smallDevice freeIndirect smallDevice_geometry hwhole _ t ht 2 hlt
    (by rw [htype]; nofun)
  refine (hnew 13 ?_).2 haddr
  rw [hsize]
  decide

end Xv6Rust.FsRuns
