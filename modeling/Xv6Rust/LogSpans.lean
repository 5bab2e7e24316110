import Xv6Rust.BlocksPassed
import Xv6Rust.FsRuns

/-!
# A span passes no more blocks than are reserved for it

The bounds of the operations add up over each span from `begin_op` to `end_op`. A write and a new
directory come closest to `MAXOPBLOCKS`.
-/

namespace Xv6Rust.LogWrites

open Bytes DiskLayout InodeLayer BlockOwnership FileContents InodeSound Triples Footprints
open FsRuns (emptyRoot)

section Spans

variable {sb : SuperBlock} {S : Finset ℕ} {n : ℕ} {hs : List Inode} {h cwd : Inode}

theorem allocInode_within (itype : InodeType) :
    Triple (Within sb S n (Good Directories hs)) (allocInode itype)
      (fun inum => Within sb (insert (sb.locateInode inum) S) n (Good Directories hs)) Any := by
  intro s hw
  refine ⟨fun a t ht => ?_,fun _ _ => trivial⟩
  have hgood := (((allocInode_erases itype).triple (allocInode_rule itype)) s hw.fs).1 a t ht
  rw [allocInode] at ht
  split at ht
  · cases ht
  · rename_i inum l hok
    cases ht
    rw [inodeAlloc] at hok
    split at hok
    · cases hok
    · cases hok
      refine ⟨hgood,hw.super,?_⟩
      have hadds := hw.adds.mono (Finset.subset_insert (sb.locateInode a) S) le_rfl
      refine hadds.known ?_
      rw [hw.super]
      exact Finset.mem_insert_self ..

/-- The two entries of a new directory take two blocks each. -/
theorem linkDots_within {dir inode : Inode} (hsize : sb.size ≤ bpb) (hbm : sb.bitmapBlockno 0∈S)
    (hdir : dir∈hs) (hdirloc : sb.locateInode dir.inum∈S) (hinode : inode∈hs)
    (hloc : sb.locateInode inode.inum∈S) :
    Triple (Within sb S n (Good Directories hs)) (linkDots dir inode)
      (fun _ => Within sb S (n+4) (Good Directories hs)) Any := by
  exact addLink_within.bind fun _ => (update_within hdir hdirloc).bind fun _ =>
      (dirLink_within dot inode.inum hsize hbm hinode hloc).bind fun _ =>
        .ite (fun _ => .throw trivial) fun _ =>
          (dirLink_within dotDot dir.inum hsize hbm hinode hloc).bind fun _ =>
            .ite (fun _ => .throw trivial) fun _ => .pure fun _ hw => hw

/-- The block of an inode that is returned is known. -/
def known (sb : SuperBlock) (r : Option Inode) (S : Finset ℕ) : Finset ℕ :=
  match r with
  | some h => insert (sb.locateInode h.inum) S
  | none => S

theorem subset_known (r : Option Inode) : S ⊆ known sb r S := by
  cases r with
  | none => exact subset_rfl
  | some h => exact Finset.subset_insert ..

/-- A new inode takes the block of its directory, and two blocks for each of three entries. -/
theorem create_within (path : List UInt8) (itype : InodeType) (major minor : UInt16)
    (reuse : Bool) (hsize : sb.size ≤ bpb) (hbm : sb.bitmapBlockno 0∈S) (hcwd : cwd∈hs) :
    Triple (Within sb S n fun s => Good Directories hs s ∧ Anchored hs s)
      (create cwd path itype major minor reuse)
      (fun r => Within sb (known sb r S) (n+7) (Good Directories (optionalInode r hs))) Any := by
  refine (nameiParent_within path hcwd).bind fun r => ?_
  cases r with
  | none => exact .pure fun _ hw => hw.mono (subset_known none) (by omega)
  | some x =>
    obtain ⟨dir,name⟩ := x
    have hbm' : sb.bitmapBlockno 0∈insert (sb.locateInode dir.inum) S :=
      Finset.mem_insert_of_mem hbm
    have hdir : sb.locateInode dir.inum∈insert (sb.locateInode dir.inum) S :=
      Finset.mem_insert_self ..
    refine Triple.pre (P:=Within sb (insert (sb.locateInode dir.inum) S) n
      (Good Directories (dir::hs))) ?_ fun _ hw => hw.mono (Finset.subset_insert ..) le_rfl
    refine (lock_within (List.mem_cons_self ..)).bind fun _ =>
      ((dirLookup_within name).pre fun _ hw => hw.imp fun _ hp => hp.1).bind fun r => ?_
    cases r with
    | some y =>
      obtain ⟨inode,off⟩ := y
      refine .ite (fun _ => ?_) fun _ => ?_
      · refine (unlock_within.pre fun _ hw => hw.imp fun _ hp => hp.1).bind fun _ =>
          ((put_within hsize hbm' hdir).pre fun _ hw => hw.imp fun _ hp =>
            ⟨hp.1,hp.2.perm (List.Perm.swap ..)⟩).bind fun _ => .pure fun _ hw => ?_
        exact hw.count.mono (subset_known _) (by omega)
      · have hput : Triple (Within sb (insert (sb.locateInode inode.inum)
            (insert (sb.locateInode dir.inum) S)) n (Good Directories (inode::dir::hs))) (put inode)
            (fun _ => Within sb (insert (sb.locateInode inode.inum)
              (insert (sb.locateInode dir.inum) S)) n (Good Directories (dir::hs))) Any :=
          put_within hsize (Finset.mem_insert_of_mem hbm') (Finset.mem_insert_self ..)
        refine (hput.pre fun _ hw => (hw.imp fun _ hp => hp.1).mono (Finset.subset_insert ..)
          le_rfl).bind fun _ => Triple.pre ?_ fun _ hw => hw.count
        refine unlock_within.bind fun _ => (put_within hsize hbm' hdir).bind fun _ =>
          .pure fun _ hw => ?_
        exact hw.count.mono (subset_known none) (by omega)
    | none =>
      refine ((allocInode_within itype).pre fun _ hw => hw.imp fun _ hp => hp.1).bind fun inum =>
        (get_within inum).bind fun inode => ?_
      -- now the blocks of both inodes are known
      have hbmT : sb.bitmapBlockno 0∈insert (sb.locateInode dir.inum) (known sb (some inode) S) :=
        Finset.mem_insert_of_mem (subset_known _ hbm)
      have hdirT : sb.locateInode dir.inum∈
          insert (sb.locateInode dir.inum) (known sb (some inode) S) := Finset.mem_insert_self ..
      have hinodeT : sb.locateInode inode.inum∈
          insert (sb.locateInode dir.inum) (known sb (some inode) S) :=
        Finset.mem_insert_of_mem (Finset.mem_insert_self ..)
      have hset : Triple (Within sb (insert (sb.locateInode dir.inum) (known sb (some inode) S)) n
          (Good Directories (inode::dir::hs))) (silent (setDinode inode.index fun di =>
          {di with major := major,minor := minor,nlink := 1}))
          (fun _ => Within sb (insert (sb.locateInode dir.inum) (known sb (some inode) S)) n
            (Good Directories (inode::dir::hs))) Any := setDinode_within fun di => ⟨rfl,rfl,rfl⟩
      have hlink : Triple (Within sb (insert (sb.locateInode dir.inum) (known sb (some inode) S))
          (n+4) (Good Directories (inode::dir::hs))) (do
          if !(← dirLink dir.index name inum) then throw .linkEntry
          else
            silent dir.unlock
            put dir
            silent inode.unlock
            return some inode : SpanM (Option Inode))
          (fun r => Within sb (known sb r S) (n+7) (Good Directories (optionalInode r hs))) Any := by
        refine (dirLink_within name inum hsize hbmT (List.mem_cons_of_mem _ (List.mem_cons_self ..))
          hdirT).bind fun _ => .ite (fun _ => .throw trivial) fun _ => ?_
        refine unlock_within.bind fun _ => ((put_within hsize hbmT hdirT).pre fun _ hw =>
          hw.imp fun _ hp => ⟨hp.1,hp.2.perm (List.Perm.swap ..)⟩).bind fun _ =>
            unlock_within.bind fun _ => .pure fun _ hw => hw.count
      refine Triple.pre (P:=Within sb (insert (sb.locateInode dir.inum) (known sb (some inode) S)) n
        (Good Directories (inode::dir::hs))) ?_ fun s hw => ?_
      · refine (lock_within (List.mem_cons_self ..)).bind fun _ => (hset.pre fun _ hw =>
          hw.imp fun _ hp => hp.1).bind fun _ => (update_within (List.mem_cons_self ..)
            hinodeT).bind fun _ => .ite (fun _ => ?_) fun _ => hlink.pre fun _ hw =>
              hw.mono (le_refl _) (by omega)
        exact (linkDots_within hsize hbmT (List.mem_cons_of_mem _ (List.mem_cons_self ..)) hdirT
          (List.mem_cons_self ..) hinodeT).bind fun _ => hlink
      · have hinum := hw.fs.1
        refine (hw.imp fun _ hp => hp.2).mono ?_ le_rfl
        rw [known,hinum,Finset.insert_comm]

/-- One batch of `fwrite` touches four blocks of the inode at most. -/
theorem fwriteBatch_within (src : Source) (offset left : ℕ) (hsize : sb.size ≤ bpb)
    (hbm : sb.bitmapBlockno 0∈S) (hm : h∈hs) (hloc : sb.locateInode h.inum∈S) :
    Triple (Within sb S n (Good Directories hs)) (fwriteBatch h src offset left)
      (fun _ => Within sb S (n+8) (Good Directories hs)) Any := by
  have hbatch : offset%bsize+min batch left ≤ 4*bsize := by
    have hmod := Nat.mod_lt offset (show 0 < bsize by decide)
    have hmin : min batch left ≤ batch := Nat.min_le_left ..
    have hbatch : batch=3*bsize := rfl
    omega
  refine (lock_within hm).bind fun _ => ((tryIwrite_within src 4 hsize hbm hm hloc hbatch).pre
    fun _ hw => hw.imp fun _ hp => hp.1).bind fun _ => unlock_within.bind fun _ => .pure fun _ hw => hw

/-- `open` passes what `create` does; what it truncates is known. -/
theorem openFile_within (path : List UInt8) (flags : OpenFlags) (hsize : sb.size ≤ bpb)
    (hbm : sb.bitmapBlockno 0∈S) (hcwd : cwd∈hs) :
    Triple (Within sb S n fun s => Good Directories hs s ∧ Anchored hs s) (openFile cwd path flags)
      (fun _ => Within sb S (n+8) fun _ => True) Any := by
  have hfind : Triple (Within sb S n fun s => Good Directories hs s ∧ Anchored hs s)
      (if flags.create=true then create cwd path .file 0 0 true else namei cwd path)
      (fun r => Within sb (known sb r S) (n+7) (Good Directories (optionalInode r hs))) Any := by
    refine .ite (fun _ => create_within path .file 0 0 true hsize hbm hcwd) fun _ => ?_
    exact (namei_within path hcwd).post fun r _ hw =>
      (hw.imp fun _ hp => hp.1).mono (subset_known r) (by omega)
  refine hfind.bind fun r => ?_
  cases r with
  | none => exact .pure fun _ hw => (hw.imp fun _ _ => trivial).mono (le_refl _) (by omega)
  | some inode =>
    have hbm' : sb.bitmapBlockno 0∈known sb (some inode) S := subset_known _ hbm
    have hloc : sb.locateInode inode.inum∈known sb (some inode) S := Finset.mem_insert_self ..
    have hpass : ∀ r : Option Inode,Triple (Within sb (known sb (some inode) S) (n+7)
        (Good Directories (inode::hs))) (pure r) (fun _ => Within sb S (n+8) fun _ => True) Any :=
      fun _ => .pure fun _ hw => (hw.imp fun _ _ => trivial).count
    have hdrop : Triple (Within sb (known sb (some inode) S) (n+7)
        (Good Directories (inode::hs))) (do
        put inode
        return none : SpanM (Option Inode)) (fun _ => Within sb S (n+8) fun _ => True) Any :=
      (put_within hsize hbm' hloc).bind fun _ => .pure fun _ hw => (hw.imp fun _ _ => trivial).count
    refine (lock_within (List.mem_cons_self ..)).bind fun _ => dinodeOf_within.bind fun di => ?_
    refine Triple.pre (P:=Within sb (known sb (some inode) S) (n+7)
      (Good Directories (inode::hs))) ?_ fun _ hw => hw.imp fun _ hp => hp.1.1
    cases di.itype with
    | empty => exact .throw trivial
    | directory =>
      exact unlock_within.bind fun _ => .ite (fun _ => hdrop) fun _ => hpass _
    | file =>
      refine .ite (fun _ => ?_) fun _ => unlock_within.bind fun _ => hpass _
      exact (truncateInode_within hsize hbm' (List.mem_cons_self ..) hloc).bind fun _ =>
        unlock_within.bind fun _ => hpass _
    | device =>
      exact unlock_within.bind fun _ => .ite (fun _ => hdrop) fun _ => hpass _

theorem makeInode_within (path : List UInt8) (itype : InodeType) (major minor : UInt16)
    (reuse : Bool) (hsize : sb.size ≤ bpb) (hbm : sb.bitmapBlockno 0∈S) (hcwd : cwd∈hs) :
    Triple (Within sb S n fun s => Good Directories hs s ∧ Anchored hs s)
      (makeInode cwd path itype major minor reuse) (fun _ => Within sb S (n+8) fun _ => True) Any := by
  refine (create_within path itype major minor reuse hsize hbm hcwd).bind fun r => ?_
  cases r with
  | none => exact .pure fun _ hw => (hw.imp fun _ _ => trivial).mono (le_refl _) (by omega)
  | some inode =>
    have hbm' : sb.bitmapBlockno 0∈known sb (some inode) S := subset_known _ hbm
    exact (put_within hsize hbm' (Finset.mem_insert_self ..)).bind fun _ =>
      .pure fun _ hw => (hw.imp fun _ _ => trivial).count

theorem sysUnlink_within (path : List UInt8) (hsize : sb.size ≤ bpb)
    (hbm : sb.bitmapBlockno 0∈S) (hcwd : cwd∈hs) :
    Triple (Within sb S n fun s => Good Directories hs s ∧ Anchored hs s) (sysUnlink cwd path)
      (fun _ => Within sb S (n+6) fun _ => True) Any := by
  refine (nameiParent_within path hcwd).bind fun r => ?_
  cases r with
  | none => exact .pure fun _ hw => (hw.imp fun _ _ => trivial).mono (le_refl _) (by omega)
  | some x =>
    obtain ⟨dir,name⟩ := x
    have hbm' : sb.bitmapBlockno 0∈insert (sb.locateInode dir.inum) S :=
      Finset.mem_insert_of_mem hbm
    have hdir : sb.locateInode dir.inum∈insert (sb.locateInode dir.inum) S :=
      Finset.mem_insert_self ..
    refine Triple.pre (P:=Within sb (insert (sb.locateInode dir.inum) S) n
      (Good Directories (dir::hs))) ?_ fun _ hw => hw.mono (Finset.subset_insert ..) le_rfl
    exact (lock_within (List.mem_cons_self ..)).bind fun _ =>
      ((dirUnlink_within name hsize hbm' (List.mem_cons_self ..) hdir).pre fun _ hw =>
        hw.imp fun _ hp => hp.1).bind fun _ => unlock_within.bind fun _ =>
          (put_within hsize hbm' hdir).bind fun _ => .pure fun _ hw => (hw.imp fun _ _ => trivial).count

theorem sysChdir_within (path : List UInt8) (hsize : sb.size ≤ bpb)
    (hbm : sb.bitmapBlockno 0∈S) (hloc : sb.locateInode cwd.inum∈S) :
    Triple (Within sb S n fun s => Good Directories (cwd::hs) s ∧ Anchored (cwd::hs) s)
      (sysChdir cwd path) (fun _ => Within sb S (n+1) fun _ => True) Any := by
  refine (namei_within path (List.mem_cons_self ..)).bind fun r => ?_
  cases r with
  | none => exact .pure fun _ hw => (hw.imp fun _ _ => trivial).mono (le_refl _) (by omega)
  | some inode =>
    have hput : Triple (Within sb (insert (sb.locateInode inode.inum) S) n
        (Good Directories (inode::cwd::hs))) (put inode)
        (fun _ => Within sb (insert (sb.locateInode inode.inum) S) n
          (Good Directories (cwd::hs))) Any :=
      put_within hsize (Finset.mem_insert_of_mem hbm) (Finset.mem_insert_self ..)
    refine ((lock_within (List.mem_cons_self ..)).pre fun _ hw => hw.imp fun _ hp => hp.1).bind
      fun _ => dinodeOf_within.bind fun di => (unlock_within.pre fun _ hw =>
        hw.imp fun _ hp => hp.1.1).bind fun _ => .ite (fun _ => ?_) fun _ => ?_
    · exact (hput.pre fun _ hw => hw.mono (Finset.subset_insert ..) le_rfl).bind fun _ =>
        .pure fun _ hw => (hw.imp fun _ _ => trivial).count
    · exact ((put_within hsize hbm hloc).pre fun _ hw => hw.imp fun _ hp =>
        ⟨hp.1,hp.2.perm (List.Perm.swap ..)⟩).bind fun _ =>
          .pure fun _ hw => (hw.imp fun _ _ => trivial).mono (le_refl _) (by omega)

theorem revertLink_within (hsize : sb.size ≤ bpb) (hbm : sb.bitmapBlockno 0∈S)
    (hloc : sb.locateInode h.inum∈S) :
    Triple (Within sb S n (Good Directories (h::hs))) (revertLink h)
      (fun _ => Within sb S n fun _ => True) Any := by
  refine (lock_within (List.mem_cons_self ..)).bind fun _ => (dropLink_within.pre
    fun _ hw => hw.imp fun _ hp => hp.1).bind fun _ => (update_within (List.mem_cons_self ..)
      hloc).bind fun _ => unlock_within.bind fun _ => (put_within hsize hbm hloc).bind fun _ =>
        .pure fun _ hw => hw.imp fun _ _ => trivial

/-- A reference to a locked inode that is no directory, in a file system whose names are anchored. -/
structure Linking (h : Inode) (hs : List Inode) (s : Fs) : Prop where
  /-- Names. -/
  anchored : Anchored (h::hs) s
  /-- The inode is read. -/
  valid : (s.idata h.index).valid=some h.inum
  /-- It is no directory. -/
  file : ¬IsDir h.index s

/-- A count of links is changed in the cache. -/
theorem setDinode_linking {f : DiskInode → DiskInode} (hf : ∀ di,Agrees (f di) di) :
    Triple (Linking h hs) (setDinode h.index f) (fun _ s => Linking h hs s) NotTwice := by
  intro s ⟨ha,hvalid,hfile⟩
  refine ⟨fun a t ht => ?_,fun e he => by cases he⟩
  cases ht
  have hlinked : ∀ n,Linked (h::hs) s n → Linked (h::hs)
      (s.setData h.index ⟨(s.idata h.index).valid,f (s.idata h.index).dinode⟩) n := by
    rintro n (hx | ⟨hdisk,hdata⟩)
    · exact .inl hx
    · by_cases e : n=h.inum
      · exact .inl ⟨h,List.mem_cons_self ..,e.symm⟩
      · refine .inr ⟨hdisk,fun j hj => ?_⟩
        by_cases ej : j=h.index
        · rw [ej,setData_self,hvalid] at hj
          cases hj
          exact absurd rfl e
        · have hsame : (s.setData h.index ⟨(s.idata h.index).valid,
              f (s.idata h.index).dinode⟩).idata j=s.idata j := Function.update_of_ne ej ..
          rw [hsame] at hj ⊢
          exact hdata j hj
  refine ⟨⟨hlinked _ ha.root,fun n hn hnamed => hlinked n (ha.named n hn hnamed)⟩,?_,?_⟩
  · rw [setData_self]
    exact hvalid
  · rw [IsDir,setData_self,(hf _).itype]
    exact hfile

theorem addLink_linking :
    Triple (Linking h hs) (addLink h.index) (fun _ s => Linking h hs s) NotTwice :=
  dinodeOf_rule.bind fun _ => .ite (fun _ => .throw nofun) fun _ =>
    (setDinode_linking incNlink_agrees).pre fun _ hl => hl.1

/-- An inode that is no directory is written to the inode table, and names stay as they are. -/
theorem update_linking :
    Triple (fun s => Good Directories (h::hs) s ∧ Linking h hs s) (InodeLayer.update h.index)
      (fun _ s => Anchored (h::hs) s) Any := by
  rintro s ⟨⟨hsound,-⟩,ha,hvalid,hfile⟩
  refine ⟨fun a t ht => ?_,fun _ _ => trivial⟩
  have hc := hsound.cached _ _ hvalid
  have hupd : InodeLayer.updateInode s.sb h.inum s.disk (s.idata h.index).dinode=
      .ok (DiskLayout.putInodeAt s.sb s.disk h.inum (s.idata h.index).dinode) :=
    if_neg (not_le.mpr hc.inum)
  rw [InodeLayer.update,InodeLayer.onInode] at ht
  simp only [hvalid,hupd] at ht
  cases ht
  have hat : ∀ j,inodeAt s.sb (DiskLayout.putInodeAt s.sb s.disk h.inum
      (s.idata h.index).dinode) j=
      if j=h.inum then (s.idata h.index).dinode else inodeAt s.sb s.disk j := fun j =>
    inodeAt_putInodeAt ..
  have hbytes : ∀ j,j < s.sb.ninodes → (inodeAt s.sb s.disk j).itype≠.empty → ∀ o,
      o < maxFileSize → byteAt (DiskLayout.putInodeAt s.sb s.disk h.inum
        (s.idata h.index).dinode) (inodeAt s.sb s.disk j) o=
        byteAt s.disk (inodeAt s.sb s.disk j) o := fun _ hj hju _ ho =>
    putInodeAt_byteAt hsound.geometry hsound.owned hc.inum hj hju ho
  generalize DiskLayout.putInodeAt s.sb s.disk h.inum (s.idata h.index).dinode=d' at hat hbytes ⊢
  have hlinked : ∀ n,Linked (h::hs) s n → Linked (h::hs)
      (Fs.setData {s with disk := d'} h.index ⟨some h.inum,(s.idata h.index).dinode⟩) n := by
    rintro n (hx | ⟨hdisk,hdata⟩)
    · exact .inl hx
    · by_cases e : n=h.inum
      · exact .inl ⟨h,List.mem_cons_self ..,e.symm⟩
      · refine .inr ⟨?_,fun j hj => ?_⟩
        · show 0 < (inodeAt s.sb d' n).nlink
          rw [hat,if_neg e]
          exact hdisk
        · by_cases ej : j=h.index
          · rw [ej,setData_self] at hj
            cases hj
            exact absurd rfl e
          · have hsame : (Fs.setData {s with disk := d'} h.index
                ⟨some h.inum,(s.idata h.index).dinode⟩).idata j=s.idata j :=
              Function.update_of_ne ej ..
            rw [hsame] at hj ⊢
            exact hdata j hj
  refine ⟨hlinked _ ha.root,fun n hn hnamed => hlinked n (ha.named n hn ?_)⟩
  obtain ⟨d,off,hd,hdir,hoff,hentry⟩ := hnamed
  change (inodeAt s.sb d' d).itype=.directory at hdir
  change off+deSize ≤ (inodeAt s.sb d' d).size.toNat at hoff
  change (getEntry (fun k => byteAt d' (inodeAt s.sb d' d) (off+k)) 0).inum=n at hentry
  rw [hat] at hdir hoff hentry
  split at hdir
  · exact absurd hdir hfile
  · rename_i e
    rw [if_neg e] at hoff hentry
    have hused : (inodeAt s.sb s.disk d).itype≠.empty := by
      rw [hdir]
      exact fun he => by cases he
    -- a directory without holes is no larger than a file can be
    have hmax : (inodeAt s.sb s.disk d).size.toNat ≤ maxFileSize := by
      by_contra hlt
      exact absurd (hsound.whole d hd hused hdir (ndirect+nindirect) (not_le.mp hlt)).1 (lt_irrefl _)
    have hsame : (entryAt s d off).inum=
        (getEntry (fun k => byteAt d' (inodeAt s.sb s.disk d) (off+k)) 0).inum := by
      simp only [entryAt,getEntry]
      refine getLE_congr fun k _ hk => ?_
      exact (hbytes d hd hused _ (by rw [deSize] at hoff; omega)).symm
    exact ⟨d,off,hd,hdir,hoff,hsame.trans hentry⟩

/-- `link` takes the blocks of two inodes, and two blocks for the entry. -/
theorem sysLink_within (oldPath newPath : List UInt8) (hsize : sb.size ≤ bpb)
    (hbm : sb.bitmapBlockno 0∈S) (hcwd : cwd∈hs) :
    Triple (Within sb S n fun s => Good Directories hs s ∧ Anchored hs s)
      (sysLink cwd oldPath newPath) (fun _ => Within sb S (n+4) fun _ => True) Any := by
  refine (namei_within oldPath hcwd).bind fun r => ?_
  cases r with
  | none => exact .pure fun _ hw => (hw.imp fun _ _ => trivial).mono (le_refl _) (by omega)
  | some old =>
    have hbm' : sb.bitmapBlockno 0∈insert (sb.locateInode old.inum) S :=
      Finset.mem_insert_of_mem hbm
    have hold : sb.locateInode old.inum∈insert (sb.locateInode old.inum) S :=
      Finset.mem_insert_self ..
    have hanchored : ∀ s t,Settled s t → Anchored hs s → Anchored hs t := fun _ _ hst ha =>
      ha.settled hst
    have hanchored' : ∀ s t,Settled s t → Anchored (old::hs) s → Anchored (old::hs) t :=
      fun _ _ hst ha => ha.settled hst
    refine (settle_within (lock_rule (List.mem_cons_self ..)) (lock_settled old) hanchored).bind
      fun _ => dinodeOf_within.bind fun di => .ite (fun _ => ?_) fun hfile => ?_
    · exact .pure fun _ hw => (hw.imp fun _ _ => trivial).mono (le_refl _) (by omega)
    · have hset : Triple (Within sb S n fun s => Good Directories (old::hs) s ∧ Linking old hs s)
          (silent (addLink old.index))
          (fun _ => Within sb S n fun s => Good Directories (old::hs) s ∧ Linking old hs s) Any := by
        refine silent_within (addLink_rule.and addLink_linking) fun s a t ht => ?_
        rw [addLink_eq] at ht
        split at ht
        · cases ht
        · cases ht
          rfl
      have hupd : Triple (Within sb (insert (sb.locateInode old.inum) S) n fun s =>
            Good Directories (old::hs) s ∧ Linking old hs s) (update old.index)
          (fun _ => Within sb (insert (sb.locateInode old.inum) S) n fun s =>
            Good Directories (old::hs) s ∧ Anchored (old::hs) s) Any :=
        (((update_within (List.mem_cons_self ..) hold).and
          ((update_erases old.index).triple update_linking)).pre fun _ hw =>
            ⟨hw.imp fun _ hp => hp.1,hw.fs⟩).post fun _ _ hw =>
              ⟨⟨hw.1.fs,hw.2⟩,hw.1.super,hw.1.adds⟩
      have hlinking : ∀ s,((Good Directories (old::hs) s ∧
          (s.idata old.index).valid=some old.inum) ∧ Anchored hs s) ∧ (s.idata old.index).dinode=di →
          Good Directories (old::hs) s ∧ Linking old hs s := by
        rintro s ⟨⟨⟨hgood,hvalid⟩,ha⟩,hdi⟩
        refine ⟨hgood,ha.mono (List.subset_cons_self ..),hvalid,?_⟩
        rw [IsDir,hdi]
        exact hfile
      refine (hset.pre fun _ hw => hw.imp hlinking).bind fun _ =>
        (hupd.pre fun _ hw => hw.mono (Finset.subset_insert ..) le_rfl).bind fun _ =>
          (settle_within unlock_rule (unlock_settled old) hanchored').bind fun _ =>
            (nameiParent_within newPath (List.mem_cons_of_mem _ hcwd)).bind fun r => ?_
      cases r with
      | none =>
        exact (revertLink_within hsize hbm' hold).post fun _ _ hw =>
          hw.count.mono (le_refl _) (by omega)
      | some x =>
        obtain ⟨dir,name⟩ := x
        have hbm'' := Finset.mem_insert_of_mem (b:=sb.locateInode dir.inum) hbm'
        have hold' := Finset.mem_insert_of_mem (b:=sb.locateInode dir.inum) hold
        have hdir : sb.locateInode dir.inum∈
            insert (sb.locateInode dir.inum) (insert (sb.locateInode old.inum) S) :=
          Finset.mem_insert_self ..
        refine Triple.pre (P:=Within sb (insert (sb.locateInode dir.inum)
          (insert (sb.locateInode old.inum) S)) n (Good Directories (dir::old::hs))) ?_
            fun _ hw => hw.mono (Finset.subset_insert ..) le_rfl
        refine (lock_within (List.mem_cons_self ..)).bind fun _ =>
          ((dirLink_within name old.inum hsize hbm'' (List.mem_cons_self ..) hdir).pre
            fun _ hw => hw.imp fun _ hp => hp.1).bind fun b => .ite (fun _ => ?_) fun _ => ?_
        · exact unlock_within.bind fun _ => (put_within hsize hbm'' hdir).bind fun _ =>
            (put_within hsize hbm'' hold').bind fun _ =>
              .pure fun _ hw => (hw.imp fun _ _ => trivial).count.count
        · exact ((revertLink_within hsize hbm'' hold').pre fun _ hw => hw.imp fun _ hp =>
            ⟨hp.1,hp.2.perm (List.Perm.swap ..)⟩).post fun _ _ hw => hw.count.count

/-- What a call takes is in the bound of the reservation, whatever it starts from. -/
theorem span_within (c : Call) (hsize : sb.size ≤ bpb) (hm : c.reference∈hs) :
    Triple (Within sb {sb.bitmapBlockno 0} 0 fun s => Good Directories hs s ∧ Anchored hs s) c.span
      (fun _ => Within sb {sb.bitmapBlockno 0} 9 fun _ => True) Any := by
  have hbm : sb.bitmapBlockno 0∈({sb.bitmapBlockno 0} : Finset ℕ) := Finset.mem_singleton_self _
  have hend : ∀ {S : Finset ℕ} {k : ℕ} {P : Fs → Prop} {s : Span},Within sb S k P s → k ≤ 9 →
      Within sb S 9 (fun _ => True) s := fun hw hk =>
    (hw.imp fun _ _ => trivial).mono (le_refl _) hk
  -- the reference comes first, and the block of its inode is known
  have hfirst : ∀ (h : Inode) (s : Span),h∈hs → Within sb {sb.bitmapBlockno 0} 0
      (fun s => Good Directories hs s ∧ Anchored hs s) s →
      Within sb (insert (sb.locateInode h.inum) {sb.bitmapBlockno 0}) 0 (fun s =>
        Good Directories (h::hs.erase h) s ∧ Anchored (h::hs.erase h) s) s := by
    intro h s hm hw
    have hp := List.perm_cons_erase hm
    have hsub : hs ⊆ h::hs.erase h := hp.subset
    exact (hw.imp fun s ha => ⟨⟨ha.1.1,ha.1.2.perm hp.symm⟩,ha.2.mono hsub⟩).mono
      (Finset.subset_insert ..) le_rfl
  cases c with
  | fwrite inode src offset left =>
    refine ((fwriteBatch_within src offset left hsize (Finset.mem_insert_of_mem hbm)
      (List.mem_cons_self ..) (Finset.mem_insert_self ..)).pre fun s hw =>
        (hfirst inode s hm hw).imp fun _ hp => hp.1).bind fun _ => .pure fun _ hw => ?_
    exact hend hw.count le_rfl
  | openFile cwd path flags =>
    exact (openFile_within path flags hsize hbm hm).bind fun _ => .pure fun _ hw => hend hw (by omega)
  | mkdir cwd path =>
    exact (makeInode_within path _ _ _ _ hsize hbm hm).bind fun _ =>
      .pure fun _ hw => hend hw (by omega)
  | mknod cwd path major minor =>
    exact (makeInode_within path _ _ _ _ hsize hbm hm).bind fun _ =>
      .pure fun _ hw => hend hw (by omega)
  | link cwd oldPath newPath =>
    exact (sysLink_within oldPath newPath hsize hbm hm).bind fun _ =>
      .pure fun _ hw => hend hw (by omega)
  | unlink cwd path =>
    exact (sysUnlink_within path hsize hbm hm).bind fun _ => .pure fun _ hw => hend hw (by omega)
  | chdir cwd path =>
    refine ((sysChdir_within path hsize (Finset.mem_insert_of_mem hbm)
      (Finset.mem_insert_self ..)).pre fun s hw => hfirst cwd s hm hw).bind fun _ =>
        .pure fun _ hw => ?_
    exact hend hw.count (by omega)
  | close inode =>
    refine ((put_within hsize (Finset.mem_insert_of_mem hbm) (Finset.mem_insert_self ..)).pre
      fun s hw => (hfirst inode s hm hw).imp fun _ hp => hp.1).post fun _ _ hw => ?_
    exact hend hw.count (by omega)
  | dropCwd cwd =>
    refine ((put_within hsize (Finset.mem_insert_of_mem hbm) (Finset.mem_insert_self ..)).pre
      fun s hw => (hfirst cwd s hm hw).imp fun _ hp => hp.1).post fun _ _ hw => ?_
    exact hend hw.count (by omega)

/-- Every span in a well-formed file system passes at most `MAXOPBLOCKS` blocks to the log. -/
theorem span_fits_reservation (c : Call) (hs : List Inode) (s : Fs) (hw : WellFormed hs s)
    (hm : c.reference∈hs) (t : Span) (ht : c.span ⟨s,[]⟩=.ok ((),t)) :
    t.passed.toFinset.card ≤ maxOpBlocks := by
  have hstart : Within s.sb {s.sb.bitmapBlockno 0} 0
      (fun s => Good Directories hs s ∧ Anchored hs s) ⟨s,[]⟩ :=
    ⟨⟨hw.good,hw.anchored⟩,rfl,Adds.refl _ _⟩
  have hend := (span_within c hw.bitmap hm _ hstart).1 () t ht
  have hcard := hend.adds.card_le
  rw [Finset.card_singleton] at hcard
  exact hcard

/-- Its file system, whose root is the current directory of a process. -/
def rootInUse : Fs := (FsRuns.boot smallDevice emptyRoot).fs.setMeta 0 ⟨rootInum,1⟩

theorem rootInUse_wellFormed : WellFormed [⟨rootInum,0⟩] rootInUse := by
  have hboot : Good Directories (FsRuns.boot smallDevice emptyRoot).held
      (FsRuns.boot smallDevice emptyRoot).fs :=
    FsRuns.boot_good smallDevice_geometry FsRuns.emptyRoot_owned fun _ hj _ _ =>
      FsRuns.emptyRoot_whole hj
  have hget := (@get_rule Directories _ rootInum _ hboot).1
    ⟨rootInum,0⟩ rootInUse rfl
  refine ⟨hget.2,by decide,⟨.inl ⟨_,List.mem_cons_self ..,rfl⟩,fun n _ hnamed => ?_⟩⟩
  obtain ⟨d,off,hd,-,hoff,-⟩ := hnamed
  change off+deSize ≤ (inodeAt smallDevice emptyRoot d).size.toNat at hoff
  rw [FsRuns.emptyRoot_size d hd] at hoff
  exact absurd hoff (Nat.not_succ_le_zero _)

theorem span_fits_reservation_mkdir :
    ∃ t : Span,(Call.mkdir ⟨rootInum,0⟩ [0x2f,0x61]).span ⟨rootInUse,[]⟩=.ok ((),t) ∧
      t.passed.toFinset.card ≤ maxOpBlocks := by
  have htest : ((Call.mkdir ⟨rootInum,0⟩ [0x2f,0x61]).span ⟨rootInUse,[]⟩).toBool=true := by
    decide +kernel
  cases hrun : (Call.mkdir ⟨rootInum,0⟩ [0x2f,0x61]).span ⟨rootInUse,[]⟩ with
  | error e =>
    rw [hrun] at htest
    cases htest
  | ok x =>
    exact ⟨x.2,rfl,span_fits_reservation _ [⟨rootInum,0⟩] rootInUse rootInUse_wellFormed
      (List.mem_cons_self ..) x.2 hrun⟩

end Spans

end Xv6Rust.LogWrites
