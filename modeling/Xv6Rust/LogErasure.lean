import Xv6Rust.LogWrites

/-!
# The recording operations are the operations of the inode layer

With the numbers of the blocks left out, each of the operations that record them is the operation
of `InodeLayer` of the same name.
-/

namespace Xv6Rust.LogWrites

open Bytes DiskLayout InodeLayer Triples

section Contents

variable {sb : SuperBlock}

theorem bmAlloc_erases (l : Logged) :
    (bmAlloc sb l).map (fun x => (x.1,x.2.disk))=InodeLayer.bmAlloc sb l.disk := by
  rw [bmAlloc,InodeLayer.bmAlloc]
  cases bmFind sb l.disk with
  | none => rfl
  | some x => rfl

theorem bmFree_erases (l : Logged) (b : ℕ) :
    (bmFree sb l b).map Logged.disk=InodeLayer.bmFree sb l.disk b := by
  rw [bmFree,InodeLayer.bmFree]
  split <;> rfl

theorem inodeAlloc_erases (l : Logged) (itype : InodeType) :
    (inodeAlloc sb l itype).map (fun x => (x.1,x.2.disk))=
      InodeLayer.inodeAlloc sb l.disk itype := by
  rw [inodeAlloc,InodeLayer.inodeAlloc]
  cases (List.range' 1 (sb.ninodes-1)).find? fun inum =>
    (inodeAt sb l.disk inum).itype=.empty with
  | none => rfl
  | some inum => rfl

/-- The result of an operation on an inode, with the numbers left out. -/
def erase {α : Type} (x : α×Logged×DiskInode) : α×Disk×DiskInode := (x.1,x.2.1.disk,x.2.2)

theorem mapBlockno_erases (l : Logged) (di : DiskInode) (bn : ℕ) :
    (mapBlockno sb l di bn).map erase=InodeLayer.mapBlockno sb l.disk di bn := by
  have halloc := @bmAlloc_erases sb l
  rw [mapBlockno,InodeLayer.mapBlockno]
  split
  · split
    · rw [← halloc]
      cases bmAlloc sb l with
      | error e => rfl
      | ok x => rfl
    · rfl
  · split
    · -- the entry of the indirect block, wherever that is
      have hentry : ∀ (indirect : ℕ) (l : Logged) (di : DiskInode),
          Except.map erase (if word (l.disk indirect) (bn-ndirect)=0 then
            bmAlloc sb l >>= fun x => pure
              (x.1,x.2.write indirect (putWord (x.2.disk indirect) (bn-ndirect) x.1),di)
          else return (word (l.disk indirect) (bn-ndirect),l,di))=
          (if word (l.disk indirect) (bn-ndirect)=0 then
            InodeLayer.bmAlloc sb l.disk >>= fun x => pure
              (x.1,Function.update x.2 indirect (putWord (x.2 indirect) (bn-ndirect) x.1),di)
          else return (word (l.disk indirect) (bn-ndirect),l.disk,di)) := by
        intro indirect l di
        split
        · rw [← bmAlloc_erases]
          cases bmAlloc sb l with
          | error e => rfl
          | ok x => rfl
        · rfl
      split
      · rw [← halloc]
        cases bmAlloc sb l with
        | error e => rfl
        | ok x => exact hentry x.1 x.2 _
      · exact hentry _ l di
    · rfl

theorem updateInode_erases (l : Logged) (inum : ℕ) (di : DiskInode) :
    (updateInode sb l inum di).map Logged.disk=InodeLayer.updateInode sb inum l.disk di := by
  rw [updateInode,InodeLayer.updateInode]
  split <;> rfl

theorem ireadLoop_erases (fuel : ℕ) (l : Logged) (di : DiskInode)
    (blockBase blockOffset count pos : ℕ) (dst : Buffer) :
    (ireadLoop sb fuel l di blockBase blockOffset count pos dst).map erase=
      InodeLayer.ireadLoop sb fuel l.disk di blockBase blockOffset count pos dst := by
  induction fuel generalizing l di blockBase blockOffset count pos dst with
  | zero => rfl
  | succ fuel ih =>
    rw [ireadLoop,InodeLayer.ireadLoop]
    split
    · rfl
    · rw [← mapBlockno_erases]
      cases mapBlockno sb l di blockBase with
      | error e => rfl
      | ok x => exact ih ..

theorem iread_erases (l : Logged) (di : DiskInode) (offset count : ℕ) :
    (iread sb l di offset count).map erase=InodeLayer.iread sb l.disk di offset count := by
  rw [iread,InodeLayer.iread]
  split
  · rfl
  · rw [← ireadLoop_erases]
    cases ireadLoop sb count l di (offset/bsize) (offset%bsize) count 0 fun _ => 0 with
    | error e => rfl
    | ok x => rfl

theorem writeLoop_erases (src : Source) (fuel : ℕ) (l : Logged) (di : DiskInode)
    (blockBase blockOffset count pos : ℕ) :
    (writeLoop sb src fuel l di blockBase blockOffset count pos).map erase=
      InodeLayer.writeLoop sb src fuel l.disk di blockBase blockOffset count pos := by
  induction fuel generalizing l di blockBase blockOffset count pos with
  | zero => rfl
  | succ fuel ih =>
    rw [writeLoop,InodeLayer.writeLoop]
    split
    · rfl
    · rw [← mapBlockno_erases]
      cases mapBlockno sb l di blockBase with
      | error e => rfl
      | ok x =>
        show Except.map erase (if (src pos (min (bsize-blockOffset) count)).2 <
          min (bsize-blockOffset) count then _ else _)=if (src pos (min (bsize-blockOffset) count)).2 <
          min (bsize-blockOffset) count then _ else _
        split
        · rfl
        · exact ih ..

theorem tryIwrite_erases (inum : ℕ) (src : Source) (offset count : ℕ) (l : Logged)
    (di : DiskInode) :
    (tryIwrite sb inum src offset count l di).map erase=
      InodeLayer.tryIwrite sb inum src offset count l.disk di := by
  rw [tryIwrite,InodeLayer.tryIwrite]
  split
  · rfl
  · rw [← writeLoop_erases]
    cases writeLoop sb src count l di (offset/bsize) (offset%bsize) count 0 with
    | error e => rfl
    | ok x =>
      have hlast : ∀ (r : ℕ) (l : Logged) (di : DiskInode),
          Except.map erase (do
            let l ← updateInode sb l inum di
            return (some r,l,di))=do
            let d ← InodeLayer.updateInode sb inum l.disk di
            return (some r,d,di) := by
        intro r l di
        rw [← updateInode_erases]
        cases updateInode sb l inum di with
        | error e => rfl
        | ok l => rfl
      exact hlast ..

theorem freeDirect_erases (ps : List ℕ) (l : Logged) (di : DiskInode) :
    (freeDirect sb ps l di).map (fun x => (x.1.disk,x.2))=
      InodeLayer.freeDirect sb ps l.disk di := by
  induction ps generalizing l di with
  | nil => rfl
  | cons p ps ih =>
    rw [freeDirect,InodeLayer.freeDirect]
    split
    · rw [← bmFree_erases]
      cases bmFree sb l (di.addr p) with
      | error e => rfl
      | ok l => exact ih ..
    · exact ih ..

theorem freeEntries_erases (buf : Buffer) (ks : List ℕ) (l : Logged) :
    (freeEntries sb buf ks l).map Logged.disk=InodeLayer.freeEntries sb buf ks l.disk := by
  induction ks generalizing l with
  | nil => rfl
  | cons k ks ih =>
    rw [freeEntries,InodeLayer.freeEntries]
    split
    · rw [← bmFree_erases]
      cases bmFree sb l (word buf k) with
      | error e => rfl
      | ok l => exact ih l
    · exact ih l

theorem truncate_erases (inum : ℕ) (l : Logged) (di : DiskInode) :
    (truncate sb inum l di).map (fun x => (x.1.disk,x.2))=
      InodeLayer.truncate sb inum l.disk di := by
  have hlast : ∀ (l : Logged) (di : DiskInode),
      Except.map (fun x : Logged×DiskInode => (x.1.disk,x.2)) (do
        let l ← updateInode sb l inum di
        return (l,di))=do
        let d ← InodeLayer.updateInode sb inum l.disk di
        return (d,di) := by
    intro l di
    rw [← updateInode_erases]
    cases updateInode sb l inum di with
    | error e => rfl
    | ok l => rfl
  rw [truncate,InodeLayer.truncate,← freeDirect_erases]
  cases freeDirect sb (List.range ndirect) l di with
  | error e => rfl
  | ok x =>
    obtain ⟨l,di⟩ := x
    show Except.map _ (if di.addr ndirect > 0 then _ else _)=
      if di.addr ndirect > 0 then _ else _
    split
    · rw [← freeEntries_erases]
      cases freeEntries sb (l.disk (di.addr ndirect)) (List.range nindirect) l with
      | error e => rfl
      | ok l =>
        show Except.map _ (bmFree sb l (di.addr ndirect) >>= _)=
          (InodeLayer.bmFree sb l.disk (di.addr ndirect) >>= _)
        rw [← bmFree_erases]
        cases bmFree sb l (di.addr ndirect) with
        | error e => rfl
        | ok l => exact hlast ..
    · exact hlast ..

end Contents

section Operations

theorem silent_erases {α : Type} (m : Op α) : Erases Span.fs (silent m) m := by
  intro s
  rw [silent]
  cases m s.fs with
  | error e => rfl
  | ok x => rfl

theorem put_erases (h : Inode) : Erases Span.fs (put h) (Icache.put h) := by
  intro s
  rw [put,Icache.put]
  dsimp only
  split
  · split
    · rfl
    · cases hvalid : (s.fs.idata h.index).valid with
      | none => rfl
      | some n =>
        dsimp only
        split
        · rfl
        · have htrunc := @truncate_erases s.fs.sb n s.logged
            {(s.fs.idata h.index).dinode with itype := .empty}
          change _=InodeLayer.truncate s.fs.sb n s.fs.disk _ at htrunc
          rw [← htrunc]
          cases truncate s.fs.sb n s.logged
            {(s.fs.idata h.index).dinode with itype := .empty} with
          | error e => rfl
          | ok x => rfl
  · rfl

theorem onInode_erases {α : Type} (i : ℕ)
    {f : SuperBlock → ℕ → Logged → DiskInode → Except Stop (α×Logged×DiskInode)}
    {g : SuperBlock → ℕ → Disk → DiskInode → Except Stop (α×Disk×DiskInode)}
    (hfg : ∀ sb n l di,(f sb n l di).map erase=g sb n l.disk di) :
    Erases Span.fs (onInode i f) (InodeLayer.onInode i g) := by
  intro s
  rw [onInode,InodeLayer.onInode]
  cases hvalid : (s.fs.idata i).valid with
  | none => rfl
  | some n =>
    dsimp only
    have hsame := hfg s.fs.sb n s.logged (s.fs.idata i).dinode
    change _=g s.fs.sb n s.fs.disk _ at hsame
    rw [← hsame]
    cases f s.fs.sb n s.logged (s.fs.idata i).dinode with
    | error e => rfl
    | ok x => rfl

theorem update_erases (i : ℕ) : Erases Span.fs (update i) (InodeLayer.update i) := by
  refine onInode_erases i fun sb n l di => ?_
  rw [← updateInode_erases]
  cases updateInode sb l n di with
  | error e => rfl
  | ok l => rfl

theorem readEntry_erases (i off : ℕ) :
    Erases Span.fs (readEntry i off) (InodeLayer.readEntry i off) :=
  (onInode_erases i fun _ _ l di => iread_erases l di off deSize).bind fun _ => .pure _

theorem writeEntry_erases (i off : ℕ) (e : DirEntry) :
    Erases Span.fs (writeEntry i off e) (InodeLayer.writeEntry i off e) := by
  unfold writeEntry InodeLayer.writeEntry
  refine Erases.bind (onInode_erases i fun sb n l di => ?_) fun _ => .pure _
  exact tryIwrite_erases ..

theorem dirLookupLoop_erases (i : ℕ) (name : Name) (offs : List ℕ) :
    Erases Span.fs (dirLookupLoop i name offs) (InodeLayer.dirLookupLoop i name offs) := by
  induction offs with
  | nil => exact .pure _
  | cons off offs ih =>
    refine (readEntry_erases i off).bind fun r => ?_
    cases r with
    | none => exact .throw _
    | some e =>
      refine .ite (fun _ => ih) fun _ => .ite (fun _ => ?_) fun _ => ih
      exact (silent_erases _).bind fun _ => .pure _

theorem dirLookup_erases (i : ℕ) (name : Name) :
    Erases Span.fs (dirLookup i name) (InodeLayer.dirLookup i name) :=
  (silent_erases _).bind fun _ => .ite (fun _ => .throw _) fun _ => dirLookupLoop_erases _ _ _

theorem freeOffset_erases (i size : ℕ) (offs : List ℕ) :
    Erases Span.fs (freeOffset i size offs) (InodeLayer.freeOffset i size offs) := by
  induction offs with
  | nil => exact .pure _
  | cons off offs ih =>
    refine (readEntry_erases i off).bind fun r => ?_
    cases r with
    | none => exact .throw _
    | some e => exact .ite (fun _ => .pure _) fun _ => ih

theorem dirLink_erases (i : ℕ) (name : Name) (inum : ℕ) :
    Erases Span.fs (dirLink i name inum) (InodeLayer.dirLink i name inum) := by
  refine .ite (fun _ => .throw _) fun _ => (dirLookup_erases i name).bind fun r => ?_
  cases r with
  | some x => exact (put_erases x.1).bind fun _ => .pure _
  | none =>
    refine (silent_erases _).bind fun di => (freeOffset_erases _ _ _).bind fun off =>
      .ite (fun _ => .throw _) fun _ => (writeEntry_erases _ _ _).bind fun b => ?_
    exact .ite (fun _ => .pure _) fun _ => .throw _

theorem dirIsEmptyLoop_erases (i : ℕ) (offs : List ℕ) :
    Erases Span.fs (dirIsEmptyLoop i offs) (InodeLayer.dirIsEmptyLoop i offs) := by
  induction offs with
  | nil => exact .pure _
  | cons off offs ih =>
    refine (readEntry_erases i off).bind fun r => ?_
    cases r with
    | none => exact .throw _
    | some e => exact .ite (fun _ => .pure _) fun _ => ih

theorem dirIsEmpty_erases (i : ℕ) : Erases Span.fs (dirIsEmpty i) (InodeLayer.dirIsEmpty i) :=
  (silent_erases _).bind fun _ => dirIsEmptyLoop_erases _ _

theorem dirUnlink_erases (i : ℕ) (name : Name) :
    Erases Span.fs (dirUnlink i name) (InodeLayer.dirUnlink i name) := by
  refine .ite (fun _ => .pure _) fun _ => (dirLookup_erases i name).bind fun r => ?_
  cases r with
  | none => exact .pure _
  | some x =>
    refine (silent_erases _).bind fun _ => (silent_erases _).bind fun di =>
      .ite (fun _ => .throw _) fun _ => ?_
    have hlast := ((silent_erases (dropLink x.1.index)).bind
      fun _ => (update_erases x.1.index).bind fun _ => (silent_erases x.1.unlock).bind fun _ =>
        (put_erases x.1).bind fun _ => Erases.pure (ε:=Stop) true)
    have hclear : ∀ full : Bool,Erases Span.fs (do
        if full=true then do
          silent x.1.unlock
          put x.1
          return false
        else if ← writeEntry i x.2 .empty then do
          if di.itype=.directory then do
            silent (dropLink i)
            update i
          silent (dropLink x.1.index)
          update x.1.index
          silent x.1.unlock
          put x.1
          return true
        else throw .rewriteEntry) (do
        if full=true then do
          x.1.unlock
          Icache.put x.1
          return false
        else if ← InodeLayer.writeEntry i x.2 .empty then do
          if di.itype=.directory then do
            dropLink i
            InodeLayer.update i
          dropLink x.1.index
          InodeLayer.update x.1.index
          x.1.unlock
          Icache.put x.1
          return true
        else throw .rewriteEntry) := by
      intro full
      refine .ite (fun _ => ?_) fun _ => (writeEntry_erases _ _ _).bind fun b =>
        .ite (fun _ => .ite (fun _ => ?_) fun _ => hlast) fun _ => .throw _
      · exact (silent_erases _).bind fun _ => (put_erases x.1).bind fun _ => .pure _
      · exact (silent_erases _).bind fun _ => (update_erases i).bind fun _ => hlast
    refine .ite (fun _ => ?_) fun _ => hclear false
    exact (dirIsEmpty_erases x.1.index).bind fun empty => hclear !empty

theorem namexLoop_erases (path : List UInt8) (isParent : Bool) (fuel : ℕ) (inode : Inode)
    (cur : ℕ) (name : Name) :
    Erases Span.fs (namexLoop path isParent fuel inode cur name)
      (InodeLayer.namexLoop path isParent fuel inode cur name) := by
  induction fuel generalizing inode cur name with
  | zero => exact .pure _
  | succ fuel ih =>
    refine .ite (fun _ => .ite (fun _ => ?_) fun _ => .pure _) fun _ => ?_
    · exact (put_erases inode).bind fun _ => .pure _
    · have hfail := ((silent_erases inode.unlock).bind fun _ => (put_erases inode).bind fun _ =>
        Erases.pure (ε:=Stop) ((none,(skipPath path cur name).2) : Option Inode×Name))
      refine (silent_erases _).bind fun _ => (silent_erases _).bind fun di =>
        .ite (fun _ => hfail) fun _ => .ite (fun _ => ?_) fun _ => ?_
      · exact (silent_erases _).bind fun _ => .pure _
      · refine (dirLookup_erases _ _).bind fun r => ?_
        cases r with
        | none => exact hfail
        | some x =>
          exact (silent_erases _).bind fun _ => (put_erases inode).bind fun _ => ih x.1 _ _

theorem namex_erases (cwd : Inode) (path : List UInt8) (isParent : Bool) :
    Erases Span.fs (namex cwd path isParent) (InodeLayer.namex cwd path isParent) :=
  .ite (fun _ => (silent_erases _).bind fun _ => namexLoop_erases _ _ _ _ _ _) fun _ =>
    (silent_erases _).bind fun _ => namexLoop_erases _ _ _ _ _ _

theorem namei_erases (cwd : Inode) (path : List UInt8) :
    Erases Span.fs (namei cwd path) (InodeLayer.namei cwd path) :=
  (namex_erases cwd path false).bind fun _ => .pure _

theorem nameiParent_erases (cwd : Inode) (path : List UInt8) :
    Erases Span.fs (nameiParent cwd path) (InodeLayer.nameiParent cwd path) :=
  (namex_erases cwd path true).bind fun _ => .pure _

theorem allocInode_erases (itype : InodeType) :
    Erases Span.fs (allocInode itype) (InodeLayer.allocInode itype) := by
  intro s
  have halloc := @inodeAlloc_erases s.fs.sb s.logged itype
  change _=InodeLayer.inodeAlloc s.fs.sb s.fs.disk itype at halloc
  rw [allocInode,InodeLayer.allocInode,← halloc]
  cases inodeAlloc s.fs.sb s.logged itype with
  | error e => rfl
  | ok x => rfl

theorem linkDots_erases (dir inode : Inode) :
    Erases Span.fs (linkDots dir inode) (InodeLayer.linkDots dir inode) := by
  refine (silent_erases _).bind fun _ => (update_erases _).bind fun _ =>
    (dirLink_erases _ _ _).bind fun _ => .ite (fun _ => .throw _) fun _ =>
      (dirLink_erases _ _ _).bind fun _ => .ite (fun _ => .throw _) fun _ => .pure _

/-- A new file, with the numbers of its blocks left out, is made as in `InodeLayer`. -/
theorem create_erases (cwd : Inode) (path : List UInt8) (itype : InodeType)
    (major minor : UInt16) (reuse : Bool) :
    Erases Span.fs (create cwd path itype major minor reuse)
      (InodeLayer.create cwd path itype major minor reuse) := by
  refine (nameiParent_erases cwd path).bind fun r => ?_
  cases r with
  | none => exact .pure _
  | some x =>
    obtain ⟨dir,name⟩ := x
    refine (silent_erases _).bind fun _ => (dirLookup_erases _ _).bind fun r => ?_
    cases r with
    | some y =>
      refine .ite (fun _ => ?_) fun _ => ?_
      · exact (silent_erases _).bind fun _ => (put_erases _).bind fun _ => .pure _
      · exact (put_erases _).bind fun _ => (silent_erases _).bind fun _ =>
          (put_erases _).bind fun _ => .pure _
    | none =>
      refine (allocInode_erases itype).bind fun inum => (silent_erases _).bind fun inode =>
        (silent_erases _).bind fun _ => (silent_erases _).bind fun _ =>
          (update_erases _).bind fun _ => ?_
      have hlink : Erases Span.fs (do
          if !(← dirLink dir.index name inum) then throw .linkEntry
          else
            silent dir.unlock
            put dir
            silent inode.unlock
            return some inode) (do
          if !(← InodeLayer.dirLink dir.index name inum) then throw .linkEntry
          else
            dir.unlock
            Icache.put dir
            inode.unlock
            return some inode) :=
        (dirLink_erases _ _ _).bind fun _ => .ite (fun _ => .throw _) fun _ =>
          (silent_erases _).bind fun _ => (put_erases _).bind fun _ =>
            (silent_erases _).bind fun _ => .pure _
      exact .ite (fun _ => (linkDots_erases dir inode).bind fun _ => hlink) fun _ => hlink

end Operations

end Xv6Rust.LogWrites
