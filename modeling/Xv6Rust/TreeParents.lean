import Xv6Rust.TreeChanges

/-!
# Entries that name what is freed

`put` frees an inode without links when its last reference is dropped. If that is a directory, and
a directory that was removed from it is still open or the current directory of a process, the
removed directory's `..` names an inode that is free, or another one later. As long as that does not
happen, every entry names an inode in use and `..` the directory that its directory was created in,
and what then stops the kernel is that something runs out: inodes, blocks, entries of the cache, or
numbers.
-/

namespace Xv6Rust.TreeParents

open Runs DiskLayout SlotTable TreeSteps TreeCounts TreeChanges
open InodeLayer (Name DirEntry dot dotDot rootInum deSize ninode)
open LinkSteps (Node lookup isDots_named)

/-- The directories in use name inodes in use, and `..` the one they were created in. -/
structure Sound (s : System) : Prop where
  /-- All entries. -/
  entries : ∀ d,(s.fs.node d).itype=.directory → ∀ e∈(s.fs.node d).slots,e.inum≠0 →
    (s.fs.node e.inum).itype≠.empty
  /-- `..`. -/
  parents : ∀ d,(s.fs.node d).itype=.directory → ∀ e∈(s.fs.node d).slots,e.inum≠0 →
    e.named dotDot=true → e.inum=s.fs.origin d ∧ (s.fs.node e.inum).itype=.directory
  /-- Current directories. -/
  cwds : ∀ i∈s.cwds,(s.fs.node i).itype=.directory

/-- An entry of a directory in use names an inode that is free. -/
def Dangling (s : System) : Prop :=
  ∃ d,(s.fs.node d).itype=.directory ∧ ∃ e∈(s.fs.node d).slots,e.inum≠0 ∧
    (s.fs.node e.inum).itype=.empty

/-- The first process has started, on a tree with all of its links. -/
structure Boot (s : System) : Prop where
  /-- The directories. -/
  tree : Tree s.fs.ninodes s.fs.node s.fs.origin
  /-- The links. -/
  links : ∀ i,(s.fs.node i).itype≠.empty →
    (s.fs.node i).nlink=due s.fs.ninodes s.fs.node i ∧ 0 < (s.fs.node i).nlink
  /-- The root is referenced. -/
  refs : ∀ i,s.fs.refs i=if i=rootInum then 1 else 0
  /-- The current directory. -/
  cwds : s.cwds=[rootInum]
  /-- No files. -/
  files : s.files=[]
  /-- Nothing to drop. -/
  drops : s.drops=[]
  /-- No call. -/
  stage : ∃ ok,s.stage=.returned ok

/-- What is freed is not named by `..` of another directory. -/
def SparesParents (s : System) : Label → Prop
  | .run => ∀ i∈s.drops.head?,frees s.fs i → Childless s.fs i
  | _ => True

instance (s : System) : (a : Label) → Decidable (SparesParents s a)
  | .run => inferInstanceAs (Decidable (∀ i∈s.drops.head?,_ → _))
  | .link _ _ _ => inferInstanceAs (Decidable True)
  | .unlink _ _ => inferInstanceAs (Decidable True)
  | .mkdir _ _ => inferInstanceAs (Decidable True)
  | .mknod _ _ _ => inferInstanceAs (Decidable True)
  | .open _ _ _ => inferInstanceAs (Decidable True)
  | .chdir _ _ => inferInstanceAs (Decidable True)
  | .close _ => inferInstanceAs (Decidable True)
  | .fork _ => inferInstanceAs (Decidable True)
  | .exit _ => inferInstanceAs (Decidable True)
  | .noBlock => inferInstanceAs (Decidable True)

/-- The directory that a call has found and is about to lock. -/
def dirAt : Stage → Option ℕ
  | .enter _ d _ => some d
  | .remove d _ => some d
  | .make _ d _ => some d
  | _ => none

/-- The process that called is there, and what it has found is a directory. -/
structure Ready (s : System) : Prop where
  /-- The process. -/
  caller : (∀ ok,s.stage≠.returned ok) → s.caller < s.cwds.length
  /-- The directory. -/
  dir : ∀ d,dirAt s.stage=some d → (s.fs.node d).itype=.directory

/-- The ways to stop when something runs out. -/
inductive Full (s : System) : Panic → Prop where
  /-- There are more inodes than an entry has numbers. -/
  | inums (h : 2^16 < s.fs.ninodes) : Full s .inumTooLarge
  /-- All inodes are in use. -/
  | inodes (h : ∀ i,0 < i → i < s.fs.ninodes → (s.fs.node i).itype≠.empty) : Full s .noInode
  /-- The cache is full of inodes that are held. -/
  | cache (h : ninode ≤ s.fs.taken) : Full s .noEntry
  /-- An entry begins a block, and no block is free. -/
  | blocks (h : Allocates s) : Full s .noBlock
  /-- A directory is as large as a file can be. -/
  | entries (d : ℕ) (hd : (s.fs.node d).itype=.directory)
    (h : maxFileSize < deSize*((s.fs.node d).slots.length+1)) : Full s .writeEntry
  /-- An inode has as many links as can be counted. -/
  | links (i : ℕ) (hi : (s.fs.node i).itype≠.empty) (h : 2^16≤(s.fs.node i).nlink+1) :
    Full s .overflow

section Safety

variable {s t : System} {a : Label} {i : ℕ} {f : Fs → Outcome Panic System} {e : Panic}

theorem boot_inv (h : Boot s) : Inv s := by
  obtain ⟨ok,hst⟩ := h.stage
  have hhandles : handles s=[rootInum] := by
    rw [handles,h.cwds,h.files,h.drops,hst]
    rfl
  have hpend : pending s.stage=none := by
    rw [hst]
    rfl
  have hroot : ∀ i∈[rootInum],(s.fs.node i).itype=.directory := fun i hi => by
    rw [List.mem_singleton.mp hi]
    exact h.tree.root
  refine ⟨h.tree,fun i => ?_,fun i => ?_,fun i hi => ?_,fun i hi => ?_,fun x hx => ?_,
    fun d k y hc => ?_,fun i hi hz => ?_⟩
  · rw [pend_none hpend,add_zero]
    by_cases hi : (s.fs.node i).itype=.empty
    · have hzero : due s.fs.ninodes s.fs.node i=0 := due_empty h.tree hi
      rw [hzero]
      exact Nat.zero_le _
    · exact (h.links i hi).1.ge
  · rw [h.refs,hhandles,List.count_singleton]
    exact if_congr (by rw [beq_iff_eq,eq_comm]) rfl rfl
  · rw [hhandles] at hi
    exact used_of_dir (hroot i hi)
  · rw [h.cwds] at hi
    exact hroot i hi
  · rw [hpend] at hx
    cases hx
  · rw [hst] at hc
    cases hc
  · exact absurd hz (h.links i hi).2.ne'

/-- What holds between the steps is what directories should be like. -/
theorem Inv.sound (h : Inv s) : Sound s := by
  refine ⟨fun d hd => (h.tree.dirs d hd).names,fun d hd e he hinum hname => ?_,h.cwds⟩
  have heq := (h.tree.dirs d hd).inum_eq he hinum hname
  refine ⟨heq,?_⟩
  rw [heq]
  exact h.tree.parents d hd

/-- A process calls when no call runs. -/
theorem rests_of_call (ha : a≠.run) (ht : TreeSteps.step s a=.next t) : s.rests=true := by
  cases a with
  | run => exact absurd rfl ha
  | _ =>
    simp only [TreeSteps.step,System.call] at ht
    repeat' split at ht
    all_goals first
      | (cases ht; done)
      | (rename_i hr; exact hr.1)
      | (rename_i hr; exact hr)

/-- A step that frees no parent keeps what holds between the steps. -/
theorem Inv.step (h : Inv s) (hc : SparesParents s a) (ht : TreeSteps.step s a=.next t) :
    Inv t := by
  have hchange := h.step_change ht
  cases a with
  | run =>
    refine h.next hchange fun i drops hdrops hfree => hc i ?_ hfree
    rw [hdrops]
    rfl
  | _ =>
    refine h.next hchange fun i drops hdrops hfree => ?_
    rw [(rests_eq (rests_of_call (by exact Label.noConfusion) ht)).1] at hdrops
    cases hdrops

/-- A step that frees a parent leaves a `..` that names what is free. -/
theorem Inv.dangling (h : Inv s) (hc : ¬SparesParents s a) (ht : TreeSteps.step s a=.next t) :
    Dangling t := by
  cases a with
  | run =>
    simp only [SparesParents,not_forall] at hc
    obtain ⟨i,hi,hfree,hc⟩ := hc
    obtain ⟨drops,hdrops⟩ : ∃ drops,s.drops=i::drops := by
      cases hd : s.drops with
      | nil =>
        rw [hd] at hi
        cases hi
      | cons j drops =>
        rw [hd] at hi
        cases hi
        exact ⟨drops,rfl⟩
    simp only [Childless,not_forall,not_not] at hc
    obtain ⟨d,hlt,hdi,hdir,hpar⟩ := hc
    simp only [TreeSteps.step,advance,hdrops,TreeSteps.put,if_pos hfree.1] at ht
    rw [if_neg (by rw [not_or,Bool.not_eq_false,hfree.2.1,hfree.2.2]; exact ⟨rfl,lt_irrefl 0⟩)] at ht
    cases ht
    obtain ⟨⟨e,hk,hinum,hname⟩,-⟩ := (h.tree.dirs d hdir).second
    have hat := Function.update_of_ne hdi (⟨.empty,(s.fs.node i).nlink,[]⟩ : Node) s.fs.node
    have hei : e.inum=i := by
      rw [← inumAt_eq hk]
      exact hpar
    simp only [Dangling,System.go,Fs.setNode,Fs.setValid,Fs.setRefs]
    refine ⟨d,?_,e,?_,hinum,?_⟩
    · rw [hat]
      exact hdir
    · rw [hat]
      exact List.mem_of_getElem? hk
    · rw [hei,Function.update_self]
  | _ => exact absurd trivial hc

/-- What is held can be locked. -/
theorem locking_fault (hi : (s.fs.node i).itype≠.empty) (h : locking s.fs i f=.fault e) :
    f (s.fs.setValid i true)=.fault e := by
  rw [locking,if_neg fun hc => hi hc.2] at h
  exact h

theorem Inv.maxFileSize_lt {d : ℕ}
    (h : deSize*(LinkSteps.freeSlot (s.fs.node d).slots+1)>maxFileSize) :
    maxFileSize < deSize*((s.fs.node d).slots.length+1) := by
  have hle := LinkSteps.freeSlot_le (s.fs.node d).slots
  exact lt_of_lt_of_le h (Nat.mul_le_mul_left _ (Nat.succ_le_succ hle))

/-- What an entry names has a link, and so has its directory if that is one. -/
theorem Inv.links_of_entry (h : Inv s) {d k : ℕ} {e : DirEntry}
    (hd : (s.fs.node d).itype=.directory) (hk : (s.fs.node d).slots[k]?=some e) (hinum : e.inum≠0)
    (hdots : InodeLayer.isDots e.name=false) : 0 < (s.fs.node e.inum).nlink ∧
      ((s.fs.node e.inum).itype=.directory → 0 < (s.fs.node d).nlink) := by
  have hmem : e∈(s.fs.node d).entries := by
    rw [Node.entries,if_pos hd,List.mem_filter,LinkSteps.isOther,decide_eq_true hinum,hdots]
    exact ⟨List.mem_of_getElem? hk,rfl⟩
  have hlt := (h.tree.range d (used_of_dir hd)).2
  constructor
  · have hle := h.links e.inum
    have hpos : 0 < due s.fs.ninodes s.fs.node e.inum := by
      rw [Nat.pos_iff_ne_zero]
      exact fun hzero => (due_eq_zero hzero).2.2 d hlt e hmem rfl
    omega
  · intro hdir
    have hle := h.links d
    have hpos : 0 < subdirs s.fs.node d :=
      List.countP_pos_iff.mpr ⟨e,hmem,decide_eq_true hdir⟩
    rw [due] at hle
    omega

/-- `get` finds an entry, or the cache is full of inodes that are held. -/
theorem getting_fault {fs : Fs} (h : getting fs i f=.fault e) :
    (ninode ≤ fs.taken ∧ e=.noEntry) ∨ f (fs.retain i)=.fault e := by
  rw [getting] at h
  split at h
  · rename_i hc
    cases h
    exact .inl ⟨hc.2,rfl⟩
  · exact .inr h

section Stages

variable {g : Goal} {path : List UInt8} {name : Name} {cur d k x y : ℕ}

theorem startStep_fault (hcwd : s.cwds[s.caller]?≠none) (hf : startStep s g path=.fault e) :
    Full s e := by
  rw [startStep] at hf
  split at hf
  · obtain ⟨hfull,rfl⟩ | hf := getting_fault hf
    · exact .cache hfull
    · cases hf
  · split at hf
    · rename_i hn
      exact absurd hn hcwd
    · cases hf

theorem walkStep_fault (hi : (s.fs.node i).itype≠.empty)
    (hf : walkStep s g path i cur name=.fault e) : Full s e := by
  rw [walkStep] at hf
  dsimp only at hf
  split at hf
  · cases hf
  · have hf := locking_fault hi hf
    split at hf
    · cases hf
    · split at hf
      · cases hf
      · split at hf
        · cases hf
        · obtain ⟨hfull,rfl⟩ | hf := getting_fault hf
          · exact .cache hfull
          · cases hf

/-- The inode has no room for a link. -/
theorem raiseStep_fault (hx : (s.fs.node x).itype≠.empty) (hf : raiseStep s x path=.fault e) :
    Full s e := by
  have hf := locking_fault hx hf
  dsimp only at hf
  split at hf
  · cases hf
  · split at hf
    · rename_i hfull
      cases hf
      exact .links x hx hfull
    · cases hf

theorem Inv.enterStep_fault (h : Inv s) (hx : (s.fs.node x).itype≠.empty)
    (hdir : (s.fs.node d).itype=.directory) (hf : enterStep s x d name=.fault e) : Full s e := by
  have hf := locking_fault (used_of_dir hdir) hf
  dsimp only at hf
  split at hf
  · rename_i hlarge
    cases hf
    exact .inums (lt_of_le_of_lt hlarge (h.tree.range x hx).2)
  · split at hf
    · rename_i hnd
      exact absurd hdir hnd
    · split at hf
      · obtain ⟨hfull,rfl⟩ | hf := getting_fault hf
        · exact .cache hfull
        · cases hf
      · split at hf
        · rename_i hfull
          cases hf
          exact .entries d hdir (Inv.maxFileSize_lt hfull)
        · cases hf

/-- What is counted can be taken back. -/
theorem revertStep_fault {rest : List ℕ} (hx : (s.fs.node x).itype≠.empty)
    (hlink : 0 < (s.fs.node x).nlink) : revertStep s x rest≠.fault e := by
  intro hf
  have hf := locking_fault hx hf
  dsimp only at hf
  split at hf
  · rename_i hzero
    change (s.fs.node x).nlink=0 at hzero
    omega
  · cases hf

theorem removeStep_fault (hdir : (s.fs.node d).itype=.directory)
    (hf : removeStep s d name=.fault e) : Full s e := by
  have hf := locking_fault (used_of_dir hdir) hf
  dsimp only at hf
  split at hf
  · cases hf
  · split at hf
    · rename_i hnd
      exact absurd hdir hnd
    · split at hf
      · cases hf
      · obtain ⟨hfull,rfl⟩ | hf := getting_fault hf
        · exact .cache hfull
        · cases hf

/-- The links of an entry that is in its directory can be taken back. -/
theorem clearStep_fault (hy : (s.fs.node y).itype≠.empty) (hlink : 0 < (s.fs.node y).nlink)
    (hlinks : (s.fs.node y).itype=.directory → 0 < (s.fs.node d).nlink) :
    clearStep s d k y≠.fault e := by
  intro hf
  have hf := locking_fault hy hf
  dsimp only at hf
  split at hf
  · rename_i hzero
    change (s.fs.node y).nlink<1 at hzero
    omega
  · split at hf
    · cases hf
    · split at hf
      · rename_i hzero
        exact absurd (hlinks hzero.1) (by rw [Nat.pos_iff_ne_zero]; exact not_not.mpr hzero.2)
      · cases hf

theorem Inv.makeStep_fault (h : Inv s) {m : Maker} (hdir : (s.fs.node d).itype=.directory)
    (hf : makeStep s m d name=.fault e) : Full s e := by
  have hf := locking_fault (used_of_dir hdir) hf
  dsimp only at hf
  split at hf
  · rename_i hnd
    exact absurd hdir hnd
  · split at hf
    · obtain ⟨hfull,rfl⟩ | hf := getting_fault hf
      · exact .cache hfull
      · split at hf
        · cases hf
        · cases hf
    · split at hf
      · rename_i hnone
        cases hf
        refine .inodes fun i hpos hi => ?_
        have hmem : i∈List.range' 1 (s.fs.ninodes-1) := List.mem_range'_1.mpr ⟨hpos,by omega⟩
        have hno := List.find?_eq_none.mp hnone i hmem
        rw [decide_eq_true_eq] at hno
        exact hno
      · rename_i i hi
        split at hf
        · rename_i hfull
          cases hf
          exact .cache hfull.2
        · split at hf
          · rename_i hfull
            cases hf
            exact .links d (used_of_dir hdir) hfull.2
          · split at hf
            · rename_i hlarge
              cases hf
              refine .inums ?_
              obtain hlarge | ⟨-,hlarge⟩ := hlarge
              · exact lt_of_le_of_lt hlarge (inodeAlloc_some hi).2.2
              · exact lt_of_le_of_lt hlarge (h.tree.range d (used_of_dir hdir)).2
            · split at hf
              · rename_i hfull
                cases hf
                exact .entries d hdir (Inv.maxFileSize_lt hfull)
              · cases hf

theorem openStep_fault {flags : LogWrites.OpenFlags} (hi : (s.fs.node i).itype≠.empty) :
    openStep s flags i≠.fault e := by
  intro hf
  have hf := locking_fault hi hf
  dsimp only at hf
  split at hf
  · rename_i hempty
    exact absurd hempty hi
  · split at hf
    · cases hf
    · cases hf
  · cases hf
  · split at hf
    · cases hf
    · cases hf

theorem changeStep_fault (hi : (s.fs.node i).itype≠.empty) (hcwd : s.cwds[s.caller]?≠none) :
    changeStep s i≠.fault e := by
  intro hf
  have hf := locking_fault hi hf
  dsimp only at hf
  split at hf
  · cases hf
  · split at hf
    · rename_i hn
      exact absurd hn hcwd
    · cases hf

end Stages

/-- A call that goes on stops only when something runs out. -/
theorem Inv.act_fault (h : Inv s) (hr : Ready s) (hf : act s=.fault e) : Full s e := by
  have hat : ∀ {i},i∈stageRefs s.stage → (s.fs.node i).itype≠.empty := fun hi =>
    h.used _ (mem_handles_of_stage hi)
  have hcwd : (∀ ok,s.stage≠.returned ok) → s.cwds[s.caller]?≠none := fun hst hn => by
    have hlt := hr.caller hst
    rw [List.getElem?_eq_none_iff] at hn
    omega
  have hdir : ∀ {d},dirAt s.stage=some d → (s.fs.node d).itype=.directory := fun hd => hr.dir _ hd
  rw [act] at hf
  cases hst : s.stage with
  | start g path =>
    rw [hst] at hf hcwd
    exact startStep_fault (hcwd fun _ => Stage.noConfusion) hf
  | walk g path i cur name =>
    rw [hst] at hf hat
    exact walkStep_fault (hat (List.mem_cons_self ..)) hf
  | raise x path =>
    rw [hst] at hf hat
    exact raiseStep_fault (hat (List.mem_cons_self ..)) hf
  | enter x d name =>
    rw [hst] at hf hat hdir
    exact Inv.enterStep_fault h (hat (List.mem_cons_self ..)) (hdir rfl) hf
  | revert x rest =>
    have hl := h.links x
    have hp := @pend_some x x s.stage (by rw [hst]; rfl)
    rw [if_pos rfl] at hp
    rw [hst] at hf hat
    exact absurd hf (revertStep_fault (hat (List.mem_cons_self ..)) (by omega))
  | remove d name =>
    rw [hst] at hf hdir
    exact removeStep_fault (hdir rfl) hf
  | clear d k y =>
    obtain ⟨-,-,hd,e',hk,rfl,hpos,hdots⟩ := h.found d k y hst
    obtain ⟨hlink,hlinks⟩ := Inv.links_of_entry h hd hk hpos hdots
    rw [hst] at hf hat
    exact absurd hf (clearStep_fault (hat (List.mem_cons_of_mem _ (List.mem_cons_self ..))) hlink
      hlinks)
  | make m d name =>
    rw [hst] at hf hdir
    exact Inv.makeStep_fault h (hdir rfl) hf
  | opened flags i =>
    rw [hst] at hf hat
    exact absurd hf (openStep_fault (hat (List.mem_cons_self ..)))
  | change i =>
    rw [hst] at hf hat hcwd
    exact absurd hf (changeStep_fault (hat (List.mem_cons_self ..))
      (hcwd fun _ => Stage.noConfusion))
  | returned ok =>
    rw [hst] at hf
    cases hf

/-- A step stops only when something runs out. -/
theorem Inv.step_fault (h : Inv s) (hr : Ready s) (hf : TreeSteps.step s a=.fault e) :
    Full s e := by
  cases a with
  | run =>
    simp only [TreeSteps.step,advance] at hf
    split at hf
    · exact Inv.act_fault h hr hf
    · rename_i i drops hdrops
      obtain hf | ⟨fs,-,hf⟩ := Outcome.bind_eq_fault hf
      · have hpos := List.count_pos_iff.mpr
          (mem_handles_of_drop (s:=s) (by rw [hdrops]; exact List.mem_cons_self (a:=i) ..))
        rw [← h.refs] at hpos
        rw [TreeSteps.put] at hf
        split at hf
        · split at hf
          · cases hf
          · cases hf
        · rw [if_neg hpos.ne'] at hf
          cases hf
      · cases hf
  | noBlock =>
    simp only [TreeSteps.step] at hf
    split at hf
    · split at hf
      · rename_i ha
        cases hf
        exact .blocks ha
      · cases hf
    · cases hf
  | _ =>
    simp only [TreeSteps.step,System.call] at hf
    repeat' split at hf
    all_goals cases hf

theorem made_caller {fs : Fs} {d : ℕ} (m : Maker) : (s.made fs d i m).caller=s.caller := by
  cases m <;> rfl

theorem dirAt_made {fs : Fs} {d : ℕ} (m : Maker) : dirAt (s.made fs d i m).stage=none := by
  cases m <;> rfl

/-- A call that goes on keeps its process. -/
theorem act_caller (ht : act s=.next t) :
    t.caller=s.caller ∧ t.cwds.length=s.cwds.length ∧ ∀ ok,s.stage≠.returned ok := by
  rw [act] at ht
  split at ht
  all_goals first
    | cases ht
    | (rename_i hst; refine ⟨?_,?_,fun ok hc => by rw [hst] at hc; cases hc⟩)
  all_goals
    simp only [startStep,walkStep,raiseStep,enterStep,revertStep,removeStep,clearStep,makeStep,
      openStep,changeStep,locking,getting] at ht
    repeat' split at ht
  all_goals first
    | (cases ht; done)
    | (cases ht; rfl)
    | (cases ht; exact List.length_set ..)
    | (cases ht; exact made_caller _)
    | (cases ht; rw [made_cwds])

/-- `namex` finds a directory where it should find one. -/
theorem dirAt_found {g : Goal} {elem : Name} {d : ℕ} (h : dirAt (g.found i elem)=some d) :
    g.isParent=true ∧ d=i := by
  cases g <;> cases h <;> exact ⟨rfl,rfl⟩

theorem dirAt_failed (g : Goal) : dirAt g.failed=none := by
  cases g <;> rfl

/-- What a call has found to lock next is a directory. -/
theorem act_dir {d : ℕ} (ht : act s=.next t) (hd : dirAt t.stage=some d) :
    (t.fs.node d).itype=.directory := by
  rw [act] at ht
  split at ht
  · simp only [startStep,getting] at ht
    repeat' split at ht
    all_goals cases ht
    all_goals cases hd
  · rename_i g path i cur name hst
    rw [walkStep] at ht
    dsimp only at ht
    split at ht
    · cases ht
      split at hd
      · change dirAt g.failed=some d at hd
        rw [dirAt_failed] at hd
        cases hd
      · rename_i hp
        exact absurd (dirAt_found hd).1 hp
    · have ht := locking_eq ht
      split at ht
      · cases ht
        change dirAt g.failed=some d at hd
        rw [dirAt_failed] at hd
        cases hd
      · rename_i hdir
        split at ht
        · cases ht
          obtain ⟨-,rfl⟩ := dirAt_found hd
          exact not_not.mp hdir
        · split at ht
          · cases ht
            change dirAt g.failed=some d at hd
            rw [dirAt_failed] at hd
            cases hd
          · cases getting_eq ht
            cases hd
  all_goals first
    | cases ht
    | simp only [raiseStep,enterStep,revertStep,removeStep,clearStep,makeStep,openStep,changeStep,
        locking,getting] at ht
  all_goals repeat' split at ht
  all_goals first
    | (cases ht; done)
    | (cases ht; cases hd)
    | (cases ht; rw [dirAt_made] at hd; cases hd)

/-- A step keeps what a call has found. -/
theorem Inv.ready_step (h : Inv s) (hr : Ready s) (ht : TreeSteps.step s a=.next t) :
    Ready t := by
  have hchange := h.step_change ht
  cases a with
  | run =>
    simp only [TreeSteps.step,advance] at ht
    split at ht
    · obtain ⟨hcaller,hlength,hst⟩ := act_caller ht
      refine ⟨fun _ => ?_,fun d hd => act_dir ht hd⟩
      rw [hcaller,hlength]
      exact hr.caller hst
    · rename_i i drops hdrops
      obtain ⟨fs,hput,ht⟩ := Outcome.bind_eq_next ht
      cases ht
      refine ⟨hr.caller,fun d hd => ?_⟩
      have hdir := hr.dir d hd
      have hmem : d∈stageRefs s.stage := by
        unfold dirAt at hd
        split at hd <;> first
          | (cases hd; done)
          | (rename_i hst; cases hd; change s.stage=_ at hst; rw [hst]; simp [stageRefs])
      have hu := hchange.used d (mem_handles_of_stage hmem)
      rw [itype_next hchange.write (used_of_dir hdir) hu]
      exact hdir
  | close k =>
    simp only [TreeSteps.step] at ht
    repeat' split at ht
    all_goals first
      | (cases ht; done)
      | (cases ht; exact ⟨fun hst => absurd rfl (hst true),fun d hd => by cases hd⟩)
  | fork p =>
    simp only [TreeSteps.step] at ht
    split at ht
    · cases ht
    · split at ht
      · rename_i hrests
        obtain ⟨-,ok,hst⟩ := rests_eq hrests
        cases ht
        exact ⟨fun hne => absurd hst (hne ok),fun d hd => by rw [hst] at hd; cases hd⟩
      · cases ht
  | exit p =>
    simp only [TreeSteps.step] at ht
    repeat' split at ht
    all_goals first
      | (cases ht; done)
      | (cases ht; exact ⟨fun hst => absurd rfl (hst true),fun d hd => by cases hd⟩)
  | noBlock => exact absurd ht noBlock_ne_next
  | _ =>
    simp only [TreeSteps.step,System.call] at ht
    split at ht
    · rename_i hp
      cases ht
      exact ⟨fun _ => hp.2,fun d hd => by cases hd⟩
    · cases ht

theorem boot_ready (h : Boot s) : Ready s := by
  obtain ⟨ok,hst⟩ := h.stage
  exact ⟨fun hne => absurd hst (hne ok),fun d hd => by rw [hst] at hd; cases hd⟩

/-- What holds in every state that a run without a freed parent reaches. -/
theorem run_keeps {as : List Label} (hb : Boot s) (hg : Guarded TreeSteps.step SparesParents s as)
    (hr : run TreeSteps.step s as=.next t) : Inv t ∧ Ready t :=
  have hstep : ∀ s a t,(Inv s ∧ Ready s) → SparesParents s a → TreeSteps.step s a=.next t →
      Inv t ∧ Ready t :=
    fun _ _ _ h hc ht => ⟨Inv.step h.1 hc ht,Inv.ready_step h.1 h.2 ht⟩
  run_invariant hstep ⟨boot_inv hb,boot_ready hb⟩ hg hr

end Safety

section Results

variable {s : System}

/-- As long as nothing is freed that `..` of another directory names, entries name inodes in use
and no free inode is locked. When that happens first, an entry names what is free. -/
theorem no_dangling_iff (hb : Boot s) (as : List Label) (hg : Guarded step SparesParents s as) :
    run step s as≠.fault .emptyInode ∧ ∀ t,run step s as=.next t →
      Sound t ∧ ∀ a u,step t a=.next u → ¬SparesParents t a → Dangling u := by
  refine ⟨fun hf => ?_,fun t ht => ?_⟩
  · obtain ⟨bs,a,cs,u,rfl,hr,hu⟩ := exists_of_fault hf
    obtain ⟨hi,hready⟩ := run_keeps hb (guarded_front hg) hr
    cases Inv.step_fault hi hready hu
  · have hi := (run_keeps hb hg ht).1
    exact ⟨Inv.sound hi,fun a u hu hc => Inv.dangling hi hc hu⟩

/-- A tree of the root alone. -/
def bareNode : ℕ → Node :=
  fun i => if i=rootInum then ⟨.directory,1,[⟨rootInum,dot⟩,⟨rootInum,dotDot⟩]⟩ else ⟨.empty,0,[]⟩

/-- The first process on a tree of the root alone. -/
def bare (ninodes : ℕ) : System :=
  ⟨⟨ninodes,bareNode,fun _ => 0,fun _ => false,fun i => if i=rootInum then 1 else 0,
    fun _ => rootInum⟩,[rootInum],[],0,[],.returned true⟩

theorem bareNode_of_ne {i : ℕ} (h : (bareNode i).itype≠.empty) : i=rootInum := by
  by_contra hne
  rw [bareNode,if_neg hne] at h
  exact h rfl

theorem bareNode_entries (i : ℕ) : (bareNode i).entries=[] := by
  by_cases h : i=rootInum
  · rw [h]
    rfl
  · rw [bareNode,if_neg h]
    rfl

theorem bare_boot {n : ℕ} (hn : rootInum < n) : Boot (bare n) := by
  have hroot : (bareNode rootInum).itype=.directory := rfl
  have hlist := @Listing.new (fun j => (bareNode j).itype≠.empty) rootInum rootInum
    (by decide) (by decide) InodeType.noConfusion InodeType.noConfusion
  rw [new_eq (by decide)] at hlist
  have hdue : due n bareNode rootInum=1 := by
    rw [due,named,subdirs]
    simp only [bareNode_entries,List.countP_nil,Finset.sum_const_zero,if_true,add_zero]
  refine ⟨⟨fun i hi => ?_,hroot,fun i hi => ?_,fun i hi => hroot⟩,fun i hi => ?_,fun i => rfl,rfl,
    rfl,rfl,⟨true,rfl⟩⟩
  · rw [bareNode_of_ne hi]
    exact ⟨by decide,hn⟩
  · rw [bareNode_of_ne (used_of_dir hi)]
    exact hlist
  · rw [bareNode_of_ne hi]
    exact ⟨hdue.symm,Nat.one_pos⟩

/-- The call of a process goes on. -/
def goesOn (n : ℕ) : List Label := List.replicate n .run

/-- A process removes its current directory `/a/b`, and then the name `/a`. -/
def removesParent : List Label :=
  .mkdir 0 [0x61,0]::goesOn 5++(.mkdir 0 [0x61,0x2f,0x62,0]::goesOn 7++
    (.chdir 0 [0x61,0x2f,0x62,0]::goesOn 8++(.unlink 0 [0x2f,0x61,0x2f,0x62,0]::goesOn 8++
      .unlink 0 [0x2f,0x61,0]::goesOn 4)))

/-- When `/a` is freed, `..` of the directory that was `/a/b` names it. -/
theorem no_dangling_iff_removesParent :
    ∃ t u,run step (bare 10) removesParent=.next t ∧ Sound t ∧ step t .run=.next u ∧
      ¬SparesParents t .run ∧ Dangling u := by
  have ht : (run step (bare 10) removesParent).test (fun t =>
      decide (¬SparesParents t .run) && (step t .run).test fun _ => true)=true := by decide
  obtain ⟨t,ht,htest⟩ := Outcome.exists_of_test ht
  rw [Bool.and_eq_true,decide_eq_true_eq] at htest
  obtain ⟨u,hu,-⟩ := Outcome.exists_of_test htest.2
  obtain ⟨hsound,hnext⟩ :=
    (no_dangling_iff (bare_boot (by decide)) removesParent (by decide)).2 t ht
  exact ⟨t,u,ht,hsound,hu,htest.1,hnext .run u hu htest.1⟩

end Results

end Xv6Rust.TreeParents
