import Xv6Rust.Runs
import Xv6Rust.Handles
import Xv6Rust.DiskLayout

/-!
# The inode cache

`InodeCache` in `fs/inode.rs`: slots with a key and a reference count under
the `meta` spin lock, their contents under one sleep lock each, and the handles
that point to slots. Every label is one section under a lock, so a list of
labels is an interleaving of any number of processes. The last `put` of an
unlinked inode leaves the `meta` lock, empties the inode on disk, releases the
contents and takes the `meta` lock again. The blocks that `truncate` frees
belong to no slot and are left out.
-/

namespace Xv6Rust.InodeCache

open Runs Handles DiskLayout

/-- `NINODE`. -/
def ninode : ℕ := 50

/-- `InodeMeta`. -/
structure InodeMeta where
  /-- Device. -/
  dev : ℕ
  /-- Inode number. -/
  inum : ℕ
  /-- Reference count. -/
  refs : ℕ
  deriving DecidableEq

/-- The device and the inode number of a slot. -/
def InodeMeta.key (m : InodeMeta) : ℕ×ℕ := (m.dev,m.inum)

/-- `InodeData`. -/
structure InodeData where
  /-- The inode whose contents are loaded. -/
  valid : Option (ℕ×ℕ)
  /-- The contents. -/
  dinode : DiskInode
  deriving DecidableEq

/-- `Inode`. -/
structure Inode where
  /-- Device. -/
  dev : ℕ
  /-- Inode number. -/
  inum : ℕ
  /-- Slot. -/
  index : ℕ
  deriving DecidableEq

/-- What is being done through a handle. -/
inductive Stage where
  /-- No guard, and no call that has begun. -/
  | idle
  /-- In `lock`: the sleep lock is taken, the contents are not loaded. -/
  | loading
  /-- A guard of the contents lives. -/
  | guarded
  /-- In `put`: the sleep lock is taken, the `meta` lock released. -/
  | deleting
  /-- In `put`: the inode is empty on disk. -/
  | emptied
  /-- In `put`: the contents are released, the reference is still counted. -/
  | unlocked
  deriving DecidableEq

/-- The stages in which the sleep lock of the slot is held. -/
def Stage.holds : Stage → Bool
  | .loading => true
  | .guarded => true
  | .deleting => true
  | .emptied => true
  | _ => false

/-- The stages between the two critical sections of a deleting `put`. -/
def Stage.leaving : Stage → Bool
  | .deleting => true
  | .emptied => true
  | .unlocked => true
  | _ => false

/-- The cache, the inodes on disk and the handles of all processes. -/
structure System where
  /-- The array under the `meta` lock. -/
  imeta : ℕ → InodeMeta
  /-- The contents of the slots. -/
  idata : ℕ → InodeData
  /-- The sleep locks of the contents. -/
  locked : ℕ → Bool
  /-- The inodes as a block read returns them. -/
  disk : ℕ×ℕ → DiskInode
  /-- The handles that live. -/
  live : Finset ℕ
  /-- The handles. -/
  inode : ℕ → Inode
  /-- What is being done through each handle. -/
  stage : ℕ → Stage

namespace System

variable (s : System)

/-- Change the `meta` entry of a slot. -/
def setMeta (i : ℕ) (m : InodeMeta) : System := {s with imeta := Function.update s.imeta i m}

/-- Change a reference count. -/
def setRefs (i n : ℕ) : System := s.setMeta i ⟨(s.imeta i).dev,(s.imeta i).inum,n⟩

/-- Change the contents of a slot. -/
def setData (i : ℕ) (x : InodeData) : System := {s with idata := Function.update s.idata i x}

/-- Change the sleep lock of a slot. -/
def setLocked (i : ℕ) (b : Bool) : System := {s with locked := Function.update s.locked i b}

/-- Change an inode on disk. -/
def setDisk (k : ℕ×ℕ) (d : DiskInode) : System := {s with disk := Function.update s.disk k d}

/-- Change what is being done through a handle. -/
def setStage (h : ℕ) (st : Stage) : System := {s with stage := Function.update s.stage h st}

/-- A new handle. -/
def addHandle (h : ℕ) (ino : Inode) : System :=
  {s with
    live := insert h s.live
    inode := Function.update s.inode h ino
    stage := Function.update s.stage h .idle}

/-- The end of a handle. -/
def dropHandle (h : ℕ) : System := {s with live := s.live.erase h}

/-- The slot in use with a key, as the loop of `get` finds it. -/
def cached (dev inum : ℕ) : Option ℕ :=
  (List.range ninode).find? fun i =>
    (s.imeta i).inum=inum ∧ 0<(s.imeta i).refs ∧ (s.imeta i).dev=dev

/-- The first slot that is not in use. -/
def vacant : Option ℕ := (List.range ninode).find? fun i => (s.imeta i).refs=0

/-- The slot of a handle. -/
def slot (h : ℕ) : ℕ := (s.inode h).index

/-- The live handles of a slot. -/
def handlesAt (i : ℕ) : Finset ℕ := fiber s.live s.slot i

end System

/-- The ways to stop. -/
inductive Panic where
  /-- `"inode: not enough"`. -/
  | notEnough
  /-- `"inode: lock an empty inode"`. -/
  | emptyInode
  /-- `valid` is unwrapped without contents. -/
  | unwrap
  /-- Arithmetic overflow. -/
  | overflow
  /-- `put` finds the sleep lock held while it has the `meta` lock. -/
  | sleepWithMeta
  /-- `debug_assert_eq!(guard[i].refs, 0)` fails. -/
  | lastReference
  deriving DecidableEq

/-- The sections of the calls, each with the handle it is made through. -/
inductive Label where
  /-- `InodeCache::get`, into a new handle. -/
  | get (h dev inum : ℕ)
  /-- `InodeCache::dup` of the first handle into the second. -/
  | dup (h h' : ℕ)
  /-- `Inode::lock` takes the sleep lock. -/
  | lock (h : ℕ)
  /-- `Inode::lock` reads the inode from disk. -/
  | load (h : ℕ)
  /-- The holder of the guard changes the contents. -/
  | modify (h : ℕ) (d : DiskInode)
  /-- `InodeData::update`. -/
  | update (h : ℕ)
  /-- The guard is dropped. -/
  | unlock (h : ℕ)
  /-- `InodeCache::put` under the `meta` lock. -/
  | put (h : ℕ)
  /-- A deleting `put` sets the type and calls `truncate`. -/
  | truncate (h : ℕ)
  /-- A deleting `put` takes `valid` and drops the guard. -/
  | clear (h : ℕ)
  /-- A deleting `put` under the `meta` lock again. -/
  | finish (h : ℕ)
  /-- `inode_alloc` takes this inode. -/
  | alloc (dev inum : ℕ) (itype : InodeType)

/-- `InodeCache::get`. -/
def get (s : System) (h dev inum : ℕ) : Outcome Panic System :=
  match s.cached dev inum with
  | some i => .next ((s.setRefs i ((s.imeta i).refs+1)).addHandle h ⟨dev,inum,i⟩)
  | none =>
    match s.vacant with
    | some i => .next ((s.setMeta i ⟨dev,inum,1⟩).addHandle h ⟨dev,inum,i⟩)
    | none => .fault .notEnough

/-- `InodeCache::put`, up to the place where the deleting branch drops the guard of
`meta`. -/
def put (s : System) (h : ℕ) : Outcome Panic System :=
  let i := (s.inode h).index
  if (s.imeta i).refs=1 then
    if s.locked i=true then .fault .sleepWithMeta
    else if (s.idata i).valid=none ∨ 0<(s.idata i).dinode.nlink then
      .next (((s.setData i ⟨none,(s.idata i).dinode⟩).setRefs i 0).dropHandle h)
    else .next ((s.setLocked i true).setStage h .deleting)
  else if (s.imeta i).refs=0 then .fault .overflow
  else .next ((s.setRefs i ((s.imeta i).refs-1)).dropHandle h)

/-- The contents after the type is set to `Empty` and `truncate` has cleared them. -/
def emptied (d : DiskInode) : DiskInode := {d with itype := .empty,size := 0,addrs := fun _ => 0}

/-- One section of a call. -/
def step (s : System) : Label → Outcome Panic System
  | .get h dev inum => if h∈s.live then .blocked else get s h dev inum
  | .dup h h' =>
    if h∈s.live ∧ (s.stage h).leaving=false ∧ h'∉s.live then
      .next ((s.setRefs (s.inode h).index ((s.imeta (s.inode h).index).refs+1)).addHandle h'
        (s.inode h))
    else .blocked
  | .lock h =>
    if h∈s.live ∧ s.stage h=.idle ∧ s.locked (s.inode h).index=false then
      .next ((s.setLocked (s.inode h).index true).setStage h
        (if (s.idata (s.inode h).index).valid=none then .loading else .guarded))
    else .blocked
  | .load h =>
    if h∈s.live ∧ s.stage h=.loading then
      let k := ((s.inode h).dev,(s.inode h).inum)
      if (s.disk k).itype=.empty then .fault .emptyInode
      else .next ((s.setData (s.inode h).index ⟨some k,s.disk k⟩).setStage h .guarded)
    else .blocked
  | .modify h d =>
    if h∈s.live ∧ s.stage h=.guarded then
      .next (s.setData (s.inode h).index ⟨(s.idata (s.inode h).index).valid,d⟩)
    else .blocked
  | .update h =>
    if h∈s.live ∧ s.stage h=.guarded then
      match (s.idata (s.inode h).index).valid with
      | none => .fault .unwrap
      | some k => .next (s.setDisk k (s.idata (s.inode h).index).dinode)
    else .blocked
  | .unlock h =>
    if h∈s.live ∧ s.stage h=.guarded then
      .next ((s.setLocked (s.inode h).index false).setStage h .idle)
    else .blocked
  | .put h => if h∈s.live ∧ s.stage h=.idle then put s h else .blocked
  | .truncate h =>
    if h∈s.live ∧ s.stage h=.deleting then
      match (s.idata (s.inode h).index).valid with
      | none => .fault .unwrap
      | some k =>
        let d := emptied (s.idata (s.inode h).index).dinode
        .next (((s.setData (s.inode h).index ⟨some k,d⟩).setDisk k d).setStage h .emptied)
    else .blocked
  | .clear h =>
    if h∈s.live ∧ s.stage h=.emptied then
      .next (((s.setData (s.inode h).index ⟨none,(s.idata (s.inode h).index).dinode⟩).setLocked
        (s.inode h).index false).setStage h .unlocked)
    else .blocked
  | .finish h =>
    if h∈s.live ∧ s.stage h=.unlocked then
      if (s.imeta (s.inode h).index).refs=0 then .fault .overflow
      else if (s.imeta (s.inode h).index).refs-1≠0 then .fault .lastReference
      else .next ((s.setRefs (s.inode h).index ((s.imeta (s.inode h).index).refs-1)).dropHandle h)
    else .blocked
  | .alloc dev inum itype =>
    if 0 < inum ∧ (s.disk (dev,inum)).itype=.empty then
      .next (s.setDisk (dev,inum) {DiskInode.new with itype := itype})
    else .blocked

/-- The cache after boot, over the inodes of a disk. -/
def boot (disk : ℕ×ℕ → DiskInode) : System :=
  { imeta := fun _ => ⟨0,0,0⟩
    idata := fun _ => ⟨none,DiskInode.new⟩
    locked := fun _ => false
    disk := disk
    live := ∅
    inode := fun _ => ⟨0,0,0⟩
    stage := fun _ => .idle }

/-- What each section does when it is taken. -/
inductive Change (s : System) : Label → System → Prop
  /-- `get` finds the inode in a slot. -/
  | hit {h dev inum i : ℕ} (new : h∉s.live) (bound : i<ninode) (key : (s.imeta i).key=(dev,inum))
      (used : 0<(s.imeta i).refs) :
      Change s (.get h dev inum) ((s.setRefs i ((s.imeta i).refs+1)).addHandle h ⟨dev,inum,i⟩)
  /-- `get` takes a slot that is not in use. -/
  | miss {h dev inum i : ℕ} (new : h∉s.live) (bound : i<ninode) (unused : (s.imeta i).refs=0)
      (absent : ∀ j,j<ninode → 0<(s.imeta j).refs → (s.imeta j).key≠(dev,inum)) :
      Change s (.get h dev inum) ((s.setMeta i ⟨dev,inum,1⟩).addHandle h ⟨dev,inum,i⟩)
  /-- `dup`. -/
  | dup {h h' : ℕ} (live : h∈s.live) (stays : (s.stage h).leaving=false) (new : h'∉s.live) :
      Change s (.dup h h') ((s.setRefs (s.inode h).index
        ((s.imeta (s.inode h).index).refs+1)).addHandle h' (s.inode h))
  /-- The sleep lock is taken. -/
  | lock {h : ℕ} (live : h∈s.live) (idle : s.stage h=.idle)
      (free : s.locked (s.inode h).index=false) :
      Change s (.lock h) ((s.setLocked (s.inode h).index true).setStage h
        (if (s.idata (s.inode h).index).valid=none then .loading else .guarded))
  /-- The contents are read. -/
  | load {h : ℕ} (live : h∈s.live) (loading : s.stage h=.loading) :
      Change s (.load h) ((s.setData (s.inode h).index
        ⟨some ((s.inode h).dev,(s.inode h).inum),s.disk ((s.inode h).dev,(s.inode h).inum)⟩).setStage
          h .guarded)
  /-- The contents are changed. -/
  | modify {h : ℕ} {d : DiskInode} (live : h∈s.live) (guarded : s.stage h=.guarded) :
      Change s (.modify h d)
        (s.setData (s.inode h).index ⟨(s.idata (s.inode h).index).valid,d⟩)
  /-- The contents are written back. -/
  | update {h : ℕ} {k : ℕ×ℕ} (live : h∈s.live) (guarded : s.stage h=.guarded) :
      Change s (.update h) (s.setDisk k (s.idata (s.inode h).index).dinode)
  /-- The sleep lock is released. -/
  | unlock {h : ℕ} (live : h∈s.live) (guarded : s.stage h=.guarded) :
      Change s (.unlock h) ((s.setLocked (s.inode h).index false).setStage h .idle)
  /-- `put` of a last reference that keeps the inode on disk. -/
  | last {h : ℕ} (live : h∈s.live) (idle : s.stage h=.idle)
      (refs : (s.imeta (s.inode h).index).refs=1) :
      Change s (.put h) (((s.setData (s.inode h).index
        ⟨none,(s.idata (s.inode h).index).dinode⟩).setRefs (s.inode h).index 0).dropHandle h)
  /-- `put` of a last reference that deletes the inode. -/
  | delete {h : ℕ} (live : h∈s.live) (idle : s.stage h=.idle)
      (refs : (s.imeta (s.inode h).index).refs=1)
      (free : s.locked (s.inode h).index=false) :
      Change s (.put h) ((s.setLocked (s.inode h).index true).setStage h .deleting)
  /-- `put` of another reference. -/
  | less {h : ℕ} (live : h∈s.live) (idle : s.stage h=.idle)
      (many : (s.imeta (s.inode h).index).refs≠1) (some : (s.imeta (s.inode h).index).refs≠0) :
      Change s (.put h) ((s.setRefs (s.inode h).index
        ((s.imeta (s.inode h).index).refs-1)).dropHandle h)
  /-- The inode is emptied. -/
  | truncate {h : ℕ} {k : ℕ×ℕ} (live : h∈s.live) (deleting : s.stage h=.deleting)
      (valid : (s.idata (s.inode h).index).valid=Option.some k) :
      Change s (.truncate h) (((s.setData (s.inode h).index
        ⟨Option.some k,emptied (s.idata (s.inode h).index).dinode⟩).setDisk k
          (emptied (s.idata (s.inode h).index).dinode)).setStage h .emptied)
  /-- The contents are released. -/
  | clear {h : ℕ} (live : h∈s.live) (emptied : s.stage h=.emptied) :
      Change s (.clear h) (((s.setData (s.inode h).index
        ⟨none,(s.idata (s.inode h).index).dinode⟩).setLocked (s.inode h).index false).setStage
          h .unlocked)
  /-- The last reference is taken away. -/
  | finish {h : ℕ} (live : h∈s.live) (unlocked : s.stage h=.unlocked)
      (refs : (s.imeta (s.inode h).index).refs=1) :
      Change s (.finish h) ((s.setRefs (s.inode h).index 0).dropHandle h)
  /-- An empty inode is allocated. -/
  | alloc {dev inum : ℕ} {itype : InodeType} :
      Change s (.alloc dev inum itype) (s.setDisk (dev,inum) {DiskInode.new with itype := itype})

/-- A slot that `get` finds. -/
theorem cached_eq_some {s : System} {dev inum i : ℕ} (h : s.cached dev inum=some i) :
    i<ninode ∧ (s.imeta i).key=(dev,inum) ∧ 0<(s.imeta i).refs := by
  have hm := List.mem_range.mp (List.mem_of_find?_eq_some h)
  have hp := List.find?_some h
  rw [decide_eq_true_iff] at hp
  refine ⟨hm,?_,hp.2.1⟩
  rw [InodeMeta.key,hp.1,hp.2.2]

/-- What it means that `get` finds no slot. -/
theorem cached_eq_none {s : System} {dev inum : ℕ} (h : s.cached dev inum=none) :
    ∀ j,j<ninode → 0<(s.imeta j).refs → (s.imeta j).key≠(dev,inum) := by
  intro j hj hr hk
  have hp := List.find?_eq_none.mp h j (List.mem_range.mpr hj)
  rw [decide_eq_true_iff] at hp
  cases hk
  exact hp ⟨rfl,hr,rfl⟩

/-- A slot that is not in use. -/
theorem vacant_eq_some {s : System} {i : ℕ} (h : s.vacant=some i) :
    i<ninode ∧ (s.imeta i).refs=0 := by
  have hp := List.find?_some h
  rw [decide_eq_true_iff] at hp
  exact ⟨List.mem_range.mp (List.mem_of_find?_eq_some h),hp⟩

/-- Every section that is taken makes one of the changes. -/
theorem step_change {s t : System} {a : Label} (h : step s a=.next t) : Change s a t := by
  cases a with
  | get x dev inum =>
    rw [step] at h
    split at h
    · cases h
    · rename_i hn
      rw [get] at h
      split at h
      · rename_i i hc
        cases h
        obtain ⟨h1,h2,h3⟩ := cached_eq_some hc
        exact .hit hn h1 h2 h3
      · rename_i hc
        split at h
        · rename_i i hv
          cases h
          obtain ⟨h1,h2⟩ := vacant_eq_some hv
          exact .miss hn h1 h2 (cached_eq_none hc)
        · cases h
  | dup x x' =>
    rw [step] at h
    split at h
    · rename_i hc
      cases h
      exact .dup hc.1 hc.2.1 hc.2.2
    · cases h
  | lock x =>
    rw [step] at h
    split at h
    · rename_i hc
      cases h
      exact .lock hc.1 hc.2.1 hc.2.2
    · cases h
  | load x =>
    rw [step] at h
    split at h
    · rename_i hc
      dsimp only at h
      split at h
      · cases h
      · cases h
        exact .load hc.1 hc.2
    · cases h
  | modify x d =>
    rw [step] at h
    split at h
    · rename_i hc
      cases h
      exact .modify hc.1 hc.2
    · cases h
  | update x =>
    rw [step] at h
    split at h
    · rename_i hc
      split at h
      · cases h
      · cases h
        exact .update hc.1 hc.2
    · cases h
  | unlock x =>
    rw [step] at h
    split at h
    · rename_i hc
      cases h
      exact .unlock hc.1 hc.2
    · cases h
  | put x =>
    rw [step] at h
    split at h
    · rename_i hc
      rw [put] at h
      split at h
      · rename_i hr
        split at h
        · cases h
        · rename_i hl
          rw [Bool.not_eq_true] at hl
          split at h
          · cases h
            exact .last hc.1 hc.2 hr
          · cases h
            exact .delete hc.1 hc.2 hr hl
      · rename_i hr
        split at h
        · cases h
        · rename_i h0
          cases h
          exact .less hc.1 hc.2 hr h0
    · cases h
  | truncate x =>
    rw [step] at h
    split at h
    · rename_i hc
      split at h
      · cases h
      · rename_i k hk
        cases h
        exact .truncate hc.1 hc.2 hk
    · cases h
  | clear x =>
    rw [step] at h
    split at h
    · rename_i hc
      cases h
      exact .clear hc.1 hc.2
    · cases h
  | finish x =>
    rw [step] at h
    split at h
    · rename_i hc
      split at h
      · cases h
      · rename_i h0
        split at h
        · cases h
        · rename_i h1
          have hr : (s.imeta (s.inode x).index).refs=1 := by omega
          rw [hr] at h
          cases h
          exact .finish hc.1 hc.2 hr
    · cases h
  | alloc dev inum itype =>
    rw [step] at h
    split at h
    · cases h
      exact .alloc
    · cases h

/-- Where the two assertions about the last reference can fail. -/
theorem step_fault {s : System} {a : Label} {e : Panic} (h : step s a=.fault e) :
    (e=.sleepWithMeta → ∃ x∈s.live,s.stage x=.idle ∧ (s.imeta (s.inode x).index).refs=1 ∧
      s.locked (s.inode x).index=true) ∧
    (e=.lastReference → ∃ x∈s.live,s.stage x=.unlocked ∧ a=.finish x) := by
  have hother : e≠.sleepWithMeta → e≠.lastReference → (e=.sleepWithMeta → ∃ x∈s.live,
      s.stage x=.idle ∧ (s.imeta (s.inode x).index).refs=1 ∧ s.locked (s.inode x).index=true) ∧
      (e=.lastReference → ∃ x∈s.live,s.stage x=.unlocked ∧ a=.finish x) :=
    fun h1 h2 => ⟨fun h => absurd h h1,fun h => absurd h h2⟩
  cases a with
  | get x dev inum =>
    rw [step] at h
    split at h
    · cases h
    · rw [get] at h
      split at h
      · cases h
      · split at h <;> cases h
        exact hother (by decide) (by decide)
  | put x =>
    rw [step] at h
    split at h
    · rename_i hl
      rw [put] at h
      split at h
      · rename_i hr
        split at h
        · rename_i hk
          cases h
          exact ⟨fun _ => ⟨x,hl.1,hl.2,hr,hk⟩,fun h => by cases h⟩
        · split at h <;> cases h
      · split at h <;> cases h
        exact hother (by decide) (by decide)
    · cases h
  | finish x =>
    rw [step] at h
    split at h
    · rename_i hl
      split at h
      · cases h
        exact hother (by decide) (by decide)
      · split at h <;> cases h
        exact ⟨fun h => (by cases h),fun _ => ⟨x,hl.1,hl.2,rfl⟩⟩
    · cases h
  | load x =>
    rw [step] at h
    split at h
    · dsimp only at h
      split at h <;> cases h
      exact hother (by decide) (by decide)
    · cases h
  | update x =>
    rw [step] at h
    split at h
    · split at h <;> cases h
      exact hother (by decide) (by decide)
    · cases h
  | truncate x =>
    rw [step] at h
    split at h
    · split at h <;> cases h
      exact hother (by decide) (by decide)
    · cases h
  | dup x x' => rw [step] at h; split at h <;> cases h
  | lock x => rw [step] at h; split at h <;> cases h
  | modify x d => rw [step] at h; split at h <;> cases h
  | unlock x => rw [step] at h; split at h <;> cases h
  | clear x => rw [step] at h; split at h <;> cases h
  | alloc dev inum itype => rw [step] at h; split at h <;> cases h

section References

variable {s t : System}

/-- Slots, keys and reference counts fit the live handles. -/
structure Counted (s : System) : Prop where
  /-- Handles point into the array. -/
  bound : ∀ h∈s.live,(s.inode h).index<ninode
  /-- A handle has the key of its slot. -/
  key : ∀ h∈s.live,(s.imeta (s.inode h).index).key=((s.inode h).dev,(s.inode h).inum)
  /-- Reference counts count the handles. -/
  count : ∀ i,(s.imeta i).refs=(s.handlesAt i).card
  /-- Two slots in use have different keys. -/
  unique : ∀ i j,i<ninode → j<ninode → 0<(s.imeta i).refs → 0<(s.imeta j).refs →
    (s.imeta i).key=(s.imeta j).key → i=j

/-- The slot of a live handle is in use. -/
theorem Counted.used (hc : Counted s) {h : ℕ} (hl : h∈s.live) :
    0<(s.imeta (s.inode h).index).refs := by
  rw [hc.count]
  exact card_fiber_pos hl

/-- A slot with one reference has one handle. -/
theorem Counted.sole (hc : Counted s) {h h' : ℕ} (hl : h∈s.live)
    (hr : (s.imeta (s.inode h).index).refs=1) (hl' : h'∈s.live)
    (he : (s.inode h').index=(s.inode h).index) : h'=h := by
  rw [hc.count] at hr
  exact eq_of_card_fiber_le_one (le_of_eq hr) hl rfl hl' he

/-- Counting depends only on the keys, the counts and the handles. -/
theorem Counted.frame (hc : Counted s) (hm : t.imeta=s.imeta) (hl : t.live=s.live)
    (hi : t.inode=s.inode) : Counted t := by
  have hat : ∀ i,t.handlesAt i=s.handlesAt i := by
    intro i
    unfold System.handlesAt System.slot
    rw [hl,hi]
  constructor
  · rw [hl,hi]
    exact hc.bound
  · rw [hl,hi,hm]
    exact hc.key
  · intro i
    rw [hat,hm]
    exact hc.count i
  · rw [hm]
    exact hc.unique

/-- A new handle to a slot whose count goes up by one. -/
theorem Counted.add (hc : Counted s) {h i : ℕ} {m : InodeMeta} (hn : h∉s.live)
    (hi : i<ninode) (hr : m.refs=(s.imeta i).refs+1)
    (hk : 0<(s.imeta i).refs → m.key=(s.imeta i).key)
    (habs : (s.imeta i).refs=0 → ∀ j,j<ninode → 0<(s.imeta j).refs → (s.imeta j).key≠m.key) :
    Counted ((s.setMeta i m).addHandle h ⟨m.dev,m.inum,i⟩) := by
  have hold : ∀ x∈s.live,Function.update s.inode h ⟨m.dev,m.inum,i⟩ x=s.inode x := by
    intro x hx
    exact Function.update_of_ne (ne_of_mem_of_not_mem hx hn) _ _
  constructor
  · intro x hx
    dsimp only [System.addHandle,System.setMeta] at hx ⊢
    rcases Finset.mem_insert.mp hx with h1|h1
    · rw [h1,Function.update_self]
      exact hi
    · rw [hold x h1]
      exact hc.bound x h1
  · intro x hx
    dsimp only [System.addHandle,System.setMeta] at hx ⊢
    rcases Finset.mem_insert.mp hx with h1|h1
    · rw [h1,Function.update_self,Function.update_self]
      rfl
    · rw [hold x h1,Function.update_apply]
      split
      · rename_i e
        have hu := hc.used h1
        rw [e] at hu
        rw [hk hu,←e]
        exact hc.key x h1
      · exact hc.key x h1
  · intro j
    have hslot : ((s.setMeta i m).addHandle h ⟨m.dev,m.inum,i⟩).slot h=i := by
      dsimp only [System.slot,System.addHandle]
      rw [Function.update_self]
    have hcard := card_fiber_insert s.slot ((s.setMeta i m).addHandle h ⟨m.dev,m.inum,i⟩).slot hn
      (fun x hx => congrArg Inode.index (hold x hx)) j
    rw [hslot] at hcard
    refine Eq.trans ?_ hcard.symm
    dsimp only [System.addHandle,System.setMeta]
    rw [Function.update_apply]
    split
    · rename_i e
      rw [hr,e,hc.count]
      rfl
    · exact hc.count j
  · intro a b ha hb hra hrb hab
    dsimp only [System.addHandle,System.setMeta] at hra hrb hab
    rw [Function.update_apply] at hra hrb hab
    rw [Function.update_apply] at hab
    by_cases ea : a=i
    · by_cases eb : b=i
      · rw [ea,eb]
      · rw [if_pos ea,if_neg eb] at hab
        rw [if_neg eb] at hrb
        by_cases h0 : (s.imeta i).refs=0
        · exact absurd hab.symm (habs h0 b hb hrb)
        · have hp := Nat.pos_of_ne_zero h0
          rw [hk hp] at hab
          rw [ea]
          exact hc.unique i b hi hb hp hrb hab
    · rw [if_neg ea] at hra hab
      by_cases eb : b=i
      · rw [if_pos eb] at hab
        by_cases h0 : (s.imeta i).refs=0
        · exact absurd hab (habs h0 a ha hra)
        · have hp := Nat.pos_of_ne_zero h0
          rw [hk hp] at hab
          rw [eb]
          exact hc.unique a i ha hi hra hp hab
      · rw [if_neg eb] at hrb hab
        exact hc.unique a b ha hb hra hrb hab

/-- A handle is dropped and the count of its slot goes down by one. -/
theorem Counted.drop (hc : Counted s) {h n : ℕ} (hl : h∈s.live)
    (hr : (s.imeta (s.inode h).index).refs=n+1) :
    Counted ((s.setRefs (s.inode h).index n).dropHandle h) := by
  have hkey : ∀ j,((s.setRefs (s.inode h).index n).imeta j).key=(s.imeta j).key := by
    intro j
    dsimp only [System.setRefs,System.setMeta]
    rw [Function.update_apply]
    split
    · rename_i e
      rw [e]
      rfl
    · rfl
  have hless : ∀ j,0<((s.setRefs (s.inode h).index n).imeta j).refs → 0<(s.imeta j).refs := by
    intro j hj
    dsimp only [System.setRefs,System.setMeta] at hj
    rw [Function.update_apply] at hj
    split at hj
    · rename_i e
      rw [e]
      omega
    · exact hj
  constructor
  · intro x hx
    exact hc.bound x (Finset.mem_of_mem_erase hx)
  · intro x hx
    exact (hkey _).trans (hc.key x (Finset.mem_of_mem_erase hx))
  · intro j
    refine Eq.trans ?_ (card_fiber_erase s.slot hl j).symm
    dsimp only [System.dropHandle,System.setRefs,System.setMeta]
    rw [Function.update_apply]
    by_cases e : j=(s.inode h).index
    · have hj := hc.count j
      rw [e,hr,System.handlesAt] at hj
      rw [if_pos e,if_pos (show j=s.slot h from e),e,←hj]
      rfl
    · rw [if_neg e,if_neg (show ¬j=s.slot h from e)]
      exact hc.count j
  · intro a b ha hb hra hrb hab
    exact hc.unique a b ha hb (hless a hra) (hless b hrb)
      ((hkey a).symm.trans (hab.trans (hkey b)))

/-- Every section keeps the counts right. -/
theorem Counted.change (hc : Counted s) {a : Label} (h : Change s a t) : Counted t := by
  cases h with
  | @hit x dev inum i new bound key used =>
    have hm : (⟨(s.imeta i).dev,(s.imeta i).inum,i⟩ : Inode)=⟨dev,inum,i⟩ := by
      cases key
      rfl
    rw [←hm]
    exact hc.add new bound rfl (fun _ => rfl) (fun h0 => absurd h0 (Nat.ne_of_gt used))
  | miss new bound unused absent =>
    exact hc.add new bound (by rw [unused]) (fun h0 => absurd unused (Nat.ne_of_gt h0))
      (fun _ => absent)
  | @dup x x' live stays new =>
    have hk := hc.key x live
    have hm : (⟨(s.imeta (s.inode x).index).dev,(s.imeta (s.inode x).index).inum,
        (s.inode x).index⟩ : Inode)=s.inode x := by
      rw [InodeMeta.key,Prod.mk.injEq] at hk
      rw [hk.1,hk.2]
    have ha := hc.add new (hc.bound x live) (m:=⟨(s.imeta (s.inode x).index).dev,
      (s.imeta (s.inode x).index).inum,(s.imeta (s.inode x).index).refs+1⟩) rfl (fun _ => rfl)
      (fun h0 => absurd h0 (Nat.ne_of_gt (hc.used live)))
    dsimp only at ha
    rw [hm] at ha
    exact ha
  | lock => exact hc.frame rfl rfl rfl
  | load => exact hc.frame rfl rfl rfl
  | modify => exact hc.frame rfl rfl rfl
  | update => exact hc.frame rfl rfl rfl
  | unlock => exact hc.frame rfl rfl rfl
  | @last x live idle refs =>
    have hf : Counted (s.setData (s.inode x).index ⟨none,(s.idata (s.inode x).index).dinode⟩) :=
      hc.frame rfl rfl rfl
    exact hf.drop live refs
  | delete => exact hc.frame rfl rfl rfl
  | less live idle many some => exact hc.drop live (by omega)
  | truncate => exact hc.frame rfl rfl rfl
  | clear => exact hc.frame rfl rfl rfl
  | finish live unlocked refs => exact hc.drop live refs
  | alloc => exact hc.frame rfl rfl rfl

end References

section Locking

variable {s t : System}

/-- Sleep locks fit the stages of the handles. -/
def Locks (s : System) : Prop :=
  Locking s.live s.slot (fun h => (s.stage h).holds) s.locked

/-- Changing the stage of a handle leaves the others. -/
theorem holds_setStage (s : System) {h : ℕ} {st : Stage} :
    ∀ x,x≠h → ((s.setStage h st).stage x).holds=(s.stage x).holds := by
  intro x hx
  dsimp only [System.setStage]
  rw [Function.update_of_ne hx]

/-- The stage of a handle that is changed. -/
theorem holds_setStage_self (s : System) (h : ℕ) (st : Stage) :
    ((s.setStage h st).stage h).holds=st.holds := by
  dsimp only [System.setStage]
  rw [Function.update_self]

/-- A new handle holds no lock. -/
theorem Locks.add (hk : Locks s) {h : ℕ} (hn : h∉s.live) (ino : Inode) :
    Locks (s.addHandle h ino) := by
  have hne : ∀ x∈s.live,x≠h := fun x hx => ne_of_mem_of_not_mem hx hn
  refine Locking.insert hk ?_ ?_ ?_
  · intro x hx
    exact congrArg Inode.index (Function.update_of_ne (hne x hx) _ _)
  · intro x hx
    exact congrArg Stage.holds (Function.update_of_ne (hne x hx) _ _)
  · exact congrArg Stage.holds (Function.update_self h Stage.idle s.stage)

/-- The holder of a lock goes on to a stage that holds it. -/
theorem Locks.restage (hk : Locks s) {h : ℕ} {st : Stage} (hh : (s.stage h).holds=true)
    (hst : st.holds=true) : Locks (s.setStage h st) := by
  refine Locking.congr hk (fun x _ => rfl) ?_
  intro x _
  by_cases e : x=h
  · rw [e,holds_setStage_self,hst,hh]
  · exact holds_setStage s x e

/-- A free lock is taken. -/
theorem Locks.acquire (hk : Locks s) {h : ℕ} {st : Stage} (hl : h∈s.live)
    (hf : s.locked (s.inode h).index=false) (hst : st.holds=true) :
    Locks ((s.setLocked (s.inode h).index true).setStage h st) :=
  Locking.acquire hk hl hf ((holds_setStage_self s h st).trans hst) (holds_setStage s)

/-- The holder of a lock releases it. -/
theorem Locks.release (hk : Locks s) {h : ℕ} {st : Stage} (hl : h∈s.live)
    (hh : (s.stage h).holds=true) (hst : st.holds=false) :
    Locks ((s.setLocked (s.inode h).index false).setStage h st) :=
  Locking.release hk hl hh ((holds_setStage_self s h st).trans hst) (holds_setStage s)

/-- Every section keeps the locks right. -/
theorem Locks.change (hk : Locks s) {a : Label} (h : Change s a t) : Locks t := by
  cases h with
  | @hit x dev inum i new => exact Locks.add (s:=s.setMeta i _) hk new _
  | @miss x dev inum i new => exact Locks.add (s:=s.setMeta i _) hk new _
  | dup live stays new => exact Locks.add (s:=s.setMeta _ _) hk new _
  | lock live idle free =>
    refine hk.acquire live free ?_
    split <;> rfl
  | @load x live loading =>
    have hh : (s.stage x).holds=true := by rw [loading]; rfl
    exact Locks.restage (s:=s.setData _ _) hk hh rfl
  | modify => exact hk
  | update => exact hk
  | unlock live guarded => exact hk.release live (by rw [guarded]; rfl) rfl
  | @last x live idle refs =>
    have hh : (s.stage x).holds=false := by rw [idle]; rfl
    exact Locking.erase hk hh
  | delete live idle refs free => exact hk.acquire live free rfl
  | @less x live idle many some =>
    have hh : (s.stage x).holds=false := by rw [idle]; rfl
    exact Locking.erase hk hh
  | @truncate x k live deleting valid =>
    have hh : (s.stage x).holds=true := by rw [deleting]; rfl
    exact Locks.restage (s:=(s.setData _ _).setDisk _ _) hk hh rfl
  | @clear x live emptied =>
    have hh : (s.stage x).holds=true := by rw [emptied]; rfl
    exact hk.release live hh rfl
  | @finish x live unlocked refs =>
    have hh : (s.stage x).holds=false := by rw [unlocked]; rfl
    exact Locking.erase hk hh
  | alloc => exact hk

/-- `put` of a last reference finds the sleep lock free. -/
theorem Locks.free_of_last (hk : Locks s) (hc : Counted s) {h : ℕ} (hl : h∈s.live)
    (hh : (s.stage h).holds=false) (hr : (s.imeta (s.inode h).index).refs=1) :
    s.locked (s.inode h).index=false := by
  have ha : ∀ x∈s.live,s.slot x=s.slot h → x=h := fun x hx he => hc.sole hl hr hx he
  have hf : s.locked (s.slot h)=false := Locking.free_of_alone hk hh ha
  exact hf

end Locking

end Xv6Rust.InodeCache
