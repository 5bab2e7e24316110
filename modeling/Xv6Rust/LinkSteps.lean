import Xv6Rust.Runs
import Xv6Rust.DirEntries

/-!
# Links and unlinks of many processes

`sys_link` and `sys_unlink` of `process/proc/syscall.rs` with `namex`, `dir_link`, `dir_unlink` and
`put` of `fs/inode.rs`. What a call does between taking the lock of an inode and releasing it is one
step, unless it takes a second lock or drops an inode meanwhile; then the lock is kept between
steps. An inode stands for its entry of the cache, which has room, and of its contents there are
the type, the number of links and the entries. Only the two calls run.
-/

namespace Xv6Rust.LinkSteps

open Runs DiskLayout SlotTable
open InodeLayer (Name DirEntry isDots dot dotDot skipPath pathAt rootInum deSize)
open DirEntries (text)

/-- `DiskInode`, with the entries of a directory. -/
structure Node where
  /-- Type. -/
  itype : InodeType
  /-- Number of links. -/
  nlink : ℕ
  /-- The entries, as they follow one another. -/
  slots : List DirEntry
  deriving DecidableEq

/-- The inodes with what the cache has of them. -/
structure Fs where
  /-- Contents. -/
  node : ℕ → Node
  /-- The contents are read. -/
  valid : ℕ → Bool
  /-- Reference counts. -/
  refs : ℕ → ℕ
  /-- The processes that hold the locks of the contents. -/
  lock : ℕ → Option ℕ

namespace Fs

variable (s : Fs) (i : ℕ)

/-- Change the contents of an inode. -/
def setNode (n : Node) : Fs := {s with node := Function.update s.node i n}

/-- Change whether the contents are read. -/
def setValid (v : Bool) : Fs := {s with valid := Function.update s.valid i v}

/-- Change a reference count. -/
def setRefs (r : ℕ) : Fs := {s with refs := Function.update s.refs i r}

/-- Change the holder of a lock. -/
def setLock (p : Option ℕ) : Fs := {s with lock := Function.update s.lock i p}

/-- `InodeCache::get` and `InodeCache::dup`. -/
def retain : Fs := s.setRefs i (s.refs i+1)

end Fs

/-- The ways to stop. -/
inductive Panic where
  /-- `inode: lock an empty inode`. -/
  | emptyInode
  /-- `inode type not dir`. -/
  | notDir
  /-- `inum too large`. -/
  | inumTooLarge
  /-- `inode write error`. -/
  | writeEntry
  /-- `entry inode's link is zero`. -/
  | zeroLink
  /-- Arithmetic overflow. -/
  | overflow
  /-- `put` finds the lock of the contents taken. -/
  | sleepWithMeta
  /-- `debug_assert_eq!(guard[i].refs, 0)` fails. -/
  | lastReference
  deriving DecidableEq

/-- What a path is resolved for. -/
inductive Goal where
  /-- `old_path` of `sys_link`, with its `new_path`. -/
  | target (path : List UInt8)
  /-- `new_path` of `sys_link`, with the inode of `old_path`. -/
  | parent (x : ℕ)
  /-- The path of `sys_unlink`. -/
  | victim
  deriving DecidableEq

/-- What a call returns. -/
inductive Answer where
  /-- `sys_link` returns `Err(())`. -/
  | linkErr
  /-- `sys_link` returns `Ok(0)`: an inode, a directory and a name. -/
  | linkOk (x d : ℕ) (name : Name)
  /-- `sys_unlink` returns, and whether it succeeds. -/
  | unlink (ok : Bool)
  deriving DecidableEq

/-- Where a process is. -/
inductive Stage where
  /-- It has not called yet. -/
  | idle
  /-- `namex`, before the first inode. -/
  | start (g : Goal) (path : List UInt8)
  /-- The loop of `namex`: inode, position in the path and name. -/
  | walk (g : Goal) (path : List UInt8) (i cur : ℕ) (name : Name)
  /-- `sys_link` with `old_inode`. -/
  | raise (x : ℕ) (path : List UInt8)
  /-- `sys_link` with `old_inode` and `new_inode`. -/
  | enter (x d : ℕ) (name : Name)
  /-- `revert_link`; the new directory may be locked. -/
  | revert (x : ℕ) (held : Option ℕ)
  /-- `sys_unlink` with `dir_inode`. -/
  | remove (d : ℕ) (name : Name)
  /-- `dir_unlink` with the entry's offset and inode; the directory is locked. -/
  | clear (d k y : ℕ)
  /-- The call returns, once what it has is dropped. -/
  | returned (a : Answer)
  deriving DecidableEq

/-- What is still to be dropped. -/
inductive Drop where
  /-- `put`. -/
  | put (i : ℕ)
  /-- `put` of a last reference, with the lock of the contents. -/
  | free (i : ℕ)
  /-- `put` of a last reference, with the lock released. -/
  | freed (i : ℕ)
  /-- A lock is released. -/
  | unlock (i : ℕ)
  deriving DecidableEq

/-- A process: what it drops before it goes on. -/
structure Proc where
  /-- What it drops. -/
  drops : List Drop
  /-- Where it goes on. -/
  stage : Stage
  deriving DecidableEq

/-- `is_parent`. -/
def Goal.isParent : Goal → Bool
  | .target _ => false
  | _ => true

/-- `namex` returns `None`. -/
def Goal.failed : Goal → Stage
  | .target _ => .returned .linkErr
  | .parent x => .revert x none
  | .victim => .returned (.unlink false)

/-- `namex` returns an inode. -/
def Goal.found (i : ℕ) (name : Name) : Goal → Stage
  | .target path => .raise i path
  | .parent x => .enter x i name
  | .victim => .remove i name

/-- The search of `dir_lookup`. -/
def lookup (l : List DirEntry) (name : Name) : Option ℕ :=
  l.findIdx? fun e => e.inum≠0 && e.named name

/-- The inode of an entry. -/
def inumAt (l : List DirEntry) (k : ℕ) : ℕ := (l.getD k .empty).inum

/-- `dir_is_empty`. -/
def isEmpty (l : List DirEntry) : Bool := (l.drop 2).all fun e => e.inum=0

/-- The search of `dir_link` for a free entry. -/
def freeSlot (l : List DirEntry) : ℕ := l.findIdx fun e => e.inum=0

/-- `Inode::lock`, before what is done with the lock. -/
def locking (s : Fs) (i : ℕ) (f : Fs → Outcome Panic (Fs×Proc)) : Outcome Panic (Fs×Proc) :=
  if s.lock i≠none then .blocked
  else if s.valid i=false ∧ (s.node i).itype=.empty then .fault .emptyInode
  else f (s.setValid i true)

/-- The loop of `namex`, once. -/
def walkStep (s : Fs) (g : Goal) (path : List UInt8) (i cur : ℕ) (name : Name) :
    Outcome Panic (Fs×Proc) :=
  let next := (skipPath path cur name).1
  let elem := (skipPath path cur name).2
  if next=0 then .next (s,if g.isParent=true then ⟨[.put i],g.failed⟩ else ⟨[],g.found i elem⟩)
  else
    locking s i fun s =>
      if (s.node i).itype≠.directory then .next (s,⟨[.put i],g.failed⟩)
      else if g.isParent=true ∧ pathAt path next=0 then .next (s,⟨[],g.found i elem⟩)
      else
        match lookup (s.node i).slots elem with
        | none => .next (s,⟨[.put i],g.failed⟩)
        | some k =>
          .next (s.retain (inumAt (s.node i).slots k),
            ⟨[.put i],.walk g path (inumAt (s.node i).slots k) next elem⟩)

/-- `sys_link` locks `old_inode` and counts the new link. -/
def raiseStep (s : Fs) (x : ℕ) (path : List UInt8) : Outcome Panic (Fs×Proc) :=
  locking s x fun s =>
    let n := s.node x
    if n.itype=.directory then .next (s,⟨[.put x],.returned .linkErr⟩)
    else if n.nlink+1≥2^16 then .fault .overflow
    else .next (s.setNode x ⟨n.itype,n.nlink+1,n.slots⟩,⟨[],.start (.parent x) path⟩)

/-- `sys_link` locks `new_inode` and calls `dir_link`. -/
def enterStep (s : Fs) (p x d : ℕ) (name : Name) : Outcome Panic (Fs×Proc) :=
  locking s d fun s =>
    let n := s.node d
    if x≥2^16 then .fault .inumTooLarge
    else if n.itype≠.directory then .fault .notDir
    else
      match lookup n.slots name with
      | some k =>
        .next ((s.retain (inumAt n.slots k)).setLock d (some p),
          ⟨[.put (inumAt n.slots k)],.revert x (some d)⟩)
      | none =>
        if deSize*(freeSlot n.slots+1) > maxFileSize then .fault .writeEntry
        else
          .next (s.setNode d ⟨n.itype,n.nlink,place n.slots (freeSlot n.slots) ⟨x,name⟩⟩,
            ⟨[.put d,.put x],.returned (.linkOk x d name)⟩)

/-- `revert_link`. -/
def revertStep (s : Fs) (x : ℕ) (held : Option ℕ) : Outcome Panic (Fs×Proc) :=
  locking s x fun s =>
    let n := s.node x
    if n.nlink=0 then .fault .overflow
    else
      .next (s.setNode x ⟨n.itype,n.nlink-1,n.slots⟩,
        ⟨.put x::(match held with
          | none => []
          | some d => [.unlock d,.put d]),.returned .linkErr⟩)

/-- `sys_unlink` locks `dir_inode` and `dir_unlink` searches the entry. -/
def removeStep (s : Fs) (p d : ℕ) (name : Name) : Outcome Panic (Fs×Proc) :=
  locking s d fun s =>
    let n := s.node d
    if isDots name=true then .next (s,⟨[.put d],.returned (.unlink false)⟩)
    else if n.itype≠.directory then .fault .notDir
    else
      match lookup n.slots name with
      | none => .next (s,⟨[.put d],.returned (.unlink false)⟩)
      | some k =>
        .next ((s.retain (inumAt n.slots k)).setLock d (some p),
          ⟨[],.clear d k (inumAt n.slots k)⟩)

/-- `dir_unlink` locks the inode of the entry. -/
def clearStep (s : Fs) (d k y : ℕ) : Outcome Panic (Fs×Proc) :=
  locking s y fun s =>
    let n := s.node y
    let m := s.node d
    if n.nlink<1 then .fault .zeroLink
    else if n.itype=.directory ∧ isEmpty n.slots=false then
      .next (s,⟨[.put y,.unlock d,.put d],.returned (.unlink false)⟩)
    else if n.itype=.directory ∧ m.nlink=0 then .fault .overflow
    else
      let links := if n.itype=.directory then m.nlink-1 else m.nlink
      .next ((s.setNode d ⟨m.itype,links,place m.slots k .empty⟩).setNode y
        ⟨n.itype,n.nlink-1,n.slots⟩,⟨[.put y,.unlock d,.put d],.returned (.unlink true)⟩)

/-- A process that has dropped everything goes on. -/
def act (s : Fs) (cwd p : ℕ) : Stage → Outcome Panic (Fs×Proc)
  | .idle => .blocked
  | .returned _ => .blocked
  | .start g path =>
    let i := if pathAt path 0=0x2f then rootInum else cwd
    .next (s.retain i,⟨[],.walk g path i 0 fun _ => 0⟩)
  | .walk g path i cur name => walkStep s g path i cur name
  | .raise x path => raiseStep s x path
  | .enter x d name => enterStep s p x d name
  | .revert x held => revertStep s x held
  | .remove d name => removeStep s p d name
  | .clear d k y => clearStep s d k y

/-- A process drops something, and may have to go on with it. -/
def drop (s : Fs) (p : ℕ) : Drop → Outcome Panic (Fs×List Drop)
  | .put i =>
    if s.refs i=1 then
      if s.lock i≠none then .fault .sleepWithMeta
      else if s.valid i=false ∨ 0<(s.node i).nlink then .next ((s.setValid i false).setRefs i 0,[])
      else .next (s.setLock i (some p),[.free i])
    else if s.refs i=0 then .fault .overflow
    else .next (s.setRefs i (s.refs i-1),[])
  | .free i =>
    .next (((s.setNode i ⟨.empty,(s.node i).nlink,[]⟩).setValid i false).setLock i none,[.freed i])
  | .freed i =>
    if s.refs i=0 then .fault .overflow
    else if s.refs i-1≠0 then .fault .lastReference
    else .next (s.setRefs i (s.refs i-1),[])
  | .unlock i => .next (s.setLock i none,[])

/-- A process goes on. -/
def advance (s : Fs) (cwd p : ℕ) (c : Proc) : Outcome Panic (Fs×Proc) :=
  match c.drops with
  | [] => act s cwd p c.stage
  | d::ds => (drop s p d).bind fun r => .next (r.1,⟨r.2++ds,c.stage⟩)

/-- The entry is neither free nor `.` or `..`. -/
def isOther (e : DirEntry) : Bool := e.inum≠0 && !isDots e.name

/-- The entries of a directory other than `.` and `..`. -/
def Node.entries (n : Node) : List DirEntry :=
  if n.itype=.directory then n.slots.filter isOther else []

/-- How often an entry is in a directory. -/
def Node.count (n : Node) (e : DirEntry) : ℕ :=
  n.entries.countP fun a => a.inum=e.inum ∧ a.name=e.name

/-- What a call has done to the numbers of links and to the directories. -/
@[ext] structure Effect where
  /-- Links counted. -/
  links : ℕ → ℤ
  /-- Entries added. -/
  entries : ℕ → DirEntry → ℤ

/-- Nothing is done. -/
def Effect.none : Effect := ⟨fun _ => 0,fun _ _ => 0⟩

/-- A link is counted. -/
def Effect.counted (x : ℕ) : Effect := ⟨fun i => if i=x then 1 else 0,fun _ _ => 0⟩

/-- A link is counted, and an entry is added. -/
def Effect.linked (x d : ℕ) (name : Name) : Effect :=
  ⟨fun i => if i=x then 1 else 0,fun i e => if i=d ∧ e=⟨x,name⟩ then 1 else 0⟩

/-- Add what a step does. -/
def Effect.add (l : Effect) (s t : Fs) : Effect :=
  ⟨fun i => l.links i+((t.node i).nlink-(s.node i).nlink),
    fun i e => l.entries i e+((t.node i).count e-(s.node i).count e)⟩

/-- The file system with the processes. -/
structure System where
  /-- The file system. -/
  fs : Fs
  /-- The processes. -/
  proc : ℕ → Proc
  /-- Their current directories. -/
  cwd : ℕ → ℕ
  /-- What their last calls have done. -/
  effect : ℕ → Effect

/-- A process calls, or goes on. -/
inductive Label where
  /-- `sys_link`. -/
  | link (p : ℕ) (old new : List UInt8)
  /-- `sys_unlink`. -/
  | unlink (p : ℕ) (path : List UInt8)
  /-- It goes on. -/
  | run (p : ℕ)

/-- The process is in no call. -/
def Proc.rests (c : Proc) : Bool :=
  match c.drops,c.stage with
  | [],.idle => true
  | [],.returned _ => true
  | _,_ => false

/-- A process begins a call. -/
def System.call (s : System) (p : ℕ) (st : Stage) : Outcome Panic System :=
  if (s.proc p).rests=true then
    .next {s with
      proc := Function.update s.proc p ⟨[],st⟩
      effect := Function.update s.effect p .none}
  else .blocked

/-- One step of one process. -/
def step (s : System) : Label → Outcome Panic System
  | .link p old new => s.call p (.start (.target new) old)
  | .unlink p path => s.call p (.start .victim path)
  | .run p => (advance s.fs (s.cwd p) p (s.proc p)).bind fun r =>
    .next {s with
      fs := r.1
      proc := Function.update s.proc p r.2
      effect := Function.update s.effect p ((s.effect p).add s.fs r.1)}

/-- The slot is that of an entry with a name. -/
def Holds (l : List DirEntry) (k : ℕ) (name : Name) : Prop :=
  ∃ e,l[k]?=some e ∧ e.inum≠0 ∧ e.named name=true

section Slots

variable {l : List DirEntry} {e : DirEntry} {name name' : Name} {j k x : ℕ}

/-- Whether a name is `.` or `..` depends on the bytes before its first zero. -/
theorem isDots_iff : isDots name=true ↔ text name=text dot ∨ text name=text dotDot := by
  have hdot : text dot=[0x2e] := by decide
  have hdotDot : text dotDot=[0x2e,0x2e] := by decide
  rw [hdot,hdotDot,text,isDots,List.ofFn_succ,List.ofFn_succ,List.ofFn_succ]
  simp only [Fin.succ_zero_eq_one,Fin.succ_one_eq_two]
  by_cases h0 : name 0=0x2e
  · by_cases h1 : name 1=0
    · simp [h0,h1]
    · by_cases h1' : name 1=0x2e
      · by_cases h2 : name 2=0
        · simp [h0,h1',h2]
        · simp [h0,h1',h2]
      · simp [h0,h1,h1']
  · by_cases h0' : name 0=0
    · simp [h0']
    · simp [h0,h0']

theorem isDots_named (h : e.named name=true) : isDots e.name=isDots name := by
  have ht := (DirEntries.named_iff.mp h).2
  rw [Bool.eq_iff_iff,isDots_iff,isDots_iff,ht]

/-- What `dir_lookup` finds. -/
theorem lookup_eq_some (h : lookup l name=some k) :
    ∃ e,l[k]?=some e ∧ e.inum≠0 ∧ e.named name=true ∧ inumAt l k=e.inum := by
  obtain ⟨hk,hp,-⟩ := List.findIdx?_eq_some_iff_getElem.mp h
  simp only [Bool.and_eq_true,decide_eq_true_eq] at hp
  have hget := List.getElem?_eq_getElem hk
  refine ⟨l[k],hget,hp.1,hp.2,?_⟩
  rw [inumAt,List.getD_eq_getElem?_getD,hget,Option.getD_some]

/-- A name that `dir_lookup` does not find is in no entry. -/
theorem not_holds_of_lookup (h : lookup l name=none) (k : ℕ) : ¬Holds l k name := by
  rintro ⟨e,hk,hinum,hname⟩
  have hno := List.findIdx?_eq_none_iff.mp h e (List.mem_of_getElem? hk)
  rw [hname,Bool.and_true,decide_eq_false_iff_not] at hno
  exact hno hinum

/-- A name is found where another has the same bytes. -/
theorem Holds.congr (h : Holds l k name) (ht : text name=text name') : Holds l k name' := by
  obtain ⟨e,hk,hinum,hname⟩ := h
  rw [DirEntries.named_iff,ht] at hname
  exact ⟨e,hk,hinum,DirEntries.named_iff.mpr hname⟩

/-- A new entry goes to a free slot or to the end. -/
theorem freeSlot_cases (l : List DirEntry) :
    (∃ e,l[freeSlot l]?=some e ∧ e.inum=0) ∨ freeSlot l=l.length := by
  by_cases h : freeSlot l<l.length
  · refine .inl ⟨l[freeSlot l],List.getElem?_eq_getElem h,?_⟩
    exact of_decide_eq_true (List.findIdx_getElem (w:=h))
  · exact .inr (le_antisymm List.findIdx_le_length (not_lt.mp h))

theorem freeSlot_le (l : List DirEntry) : freeSlot l≤l.length := List.findIdx_le_length

/-- A new entry is counted. -/
theorem countP_enter (q : DirEntry → Bool) (l : List DirEntry) (e : DirEntry) :
    ((place l (freeSlot l) e).filter isOther).countP q=
      (l.filter isOther).countP q+if (q e && isOther e)=true then 1 else 0 := by
  rw [List.countP_filter,List.countP_filter]
  obtain ⟨e',hk,hfree⟩ | hend := freeSlot_cases l
  · have hcount := countP_place (x:=e) (p:=fun a => q a && isOther a) hk
    have hno : isOther e'=false := by
      rw [isOther,hfree]
      rfl
    simp only [hno,Bool.and_false,Bool.false_eq_true,if_false,add_zero] at hcount
    exact hcount
  · rw [hend,countP_place_length]

/-- An entry that is cleared is no longer counted. -/
theorem countP_clear (q : DirEntry → Bool) (hk : l[k]?=some e) (he : isOther e=true) :
    ((place l k .empty).filter isOther).countP q+(if q e=true then 1 else 0)=
      (l.filter isOther).countP q := by
  rw [List.countP_filter,List.countP_filter]
  have hcount := countP_place (x:=DirEntry.empty) (p:=fun a => q a && isOther a) hk
  have hno : isOther .empty=false := rfl
  simp only [hno,he,Bool.and_false,Bool.and_true,Bool.false_eq_true,if_false,add_zero] at hcount
  exact hcount

/-- A new entry replaces no other. -/
theorem Holds.enter (h : Holds l j name) (e : DirEntry) :
    Holds (place l (freeSlot l) e) j name := by
  obtain ⟨e',hj,hinum,hname⟩ := h
  refine ⟨e',?_,hinum,hname⟩
  rw [getElem?_place (freeSlot_le l),if_neg,hj]
  rintro rfl
  obtain ⟨e'',hk,hfree⟩ | hend := freeSlot_cases l
  · rw [hj] at hk
    cases hk
    exact hinum hfree
  · exact absurd (List.getElem?_eq_some_iff.mp hj).1 (by omega)

/-- `.` and `..` stay when another entry is cleared. -/
theorem Holds.clear (h : Holds l j name) (hdots : isDots name=true) (hk : l[k]?=some e)
    (he : isDots e.name=false) : Holds (place l k .empty) j name := by
  obtain ⟨e',hj,hinum,hname⟩ := h
  refine ⟨e',?_,hinum,hname⟩
  rw [getElem?_place (List.getElem?_eq_some_iff.mp hk).1.le,if_neg,hj]
  rintro rfl
  rw [hj] at hk
  cases hk
  rw [isDots_named hname,hdots] at he
  cases he

/-- An empty directory has no other entries. -/
theorem filter_eq_nil (hdot : Holds l 0 dot) (hdotDot : Holds l 1 dotDot) (he : isEmpty l=true) :
    l.filter isOther=[] := by
  rw [List.filter_eq_nil_iff]
  intro e hmem hother
  obtain ⟨k,hk⟩ := List.mem_iff_getElem?.mp hmem
  rw [isOther,Bool.and_eq_true,decide_eq_true_eq,Bool.not_eq_true'] at hother
  have hdots : ∀ {j : ℕ} {name : Name},Holds l j name → isDots name=true → k≠j := by
    rintro j name ⟨e',hj,-,hname⟩ hd rfl
    rw [hk] at hj
    cases hj
    rw [isDots_named hname,hd] at hother
    cases hother.2
  have h0 := hdots hdot (by decide)
  have h1 := hdots hdotDot (by decide)
  have hdrop : (l.drop 2)[k-2]?=some e := by
    rw [List.getElem?_drop]
    have hkk : 2+(k-2)=k := by omega
    rw [hkk,hk]
  have hall := List.all_eq_true.mp he e (List.mem_of_getElem? hdrop)
  exact hother.1 (of_decide_eq_true hall)

end Slots

end Xv6Rust.LinkSteps
