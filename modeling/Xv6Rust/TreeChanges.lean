import Xv6Rust.TreeCounts

/-!
# Steps that change the tree of directories

Between the steps of the calls references are counted, what is held is in use, and an inode has at
least the links that are due. A step does one thing to the contents of the inodes: it counts a link
or takes it back, adds or clears an entry, makes an inode, cuts a file or frees an inode. All of
these keep the tree as it should be, as long as no `..` of another directory names what is freed.
-/

namespace Xv6Rust.TreeChanges

open Runs DiskLayout SlotTable TreeSteps TreeCounts
open LinkSteps (Node Holds lookup inumAt isEmpty freeSlot isOther lookup_eq_some filter_eq_nil)
open InodeLayer (Name DirEntry isDots dot dotDot skipPath pathAt rootInum)

/-- The inodes that a goal holds. -/
def goalRefs : Goal → List ℕ
  | .parent x => [x]
  | _ => []

/-- The inodes that a call holds where it goes on. -/
def stageRefs : Stage → List ℕ
  | .start g _ => goalRefs g
  | .walk g _ i _ _ => i::goalRefs g
  | .raise x _ => [x]
  | .enter x d _ => [x,d]
  | .revert x rest => x::rest
  | .remove d _ => [d]
  | .clear d _ y => [d,y]
  | .make _ d _ => [d]
  | .opened _ i => [i]
  | .change i => [i]
  | .returned _ => []

/-- The inodes that are held. -/
def handles (s : System) : List ℕ := s.cwds++(s.files++(s.drops++stageRefs s.stage))

/-- The inode whose new link is counted and has no entry yet. -/
def pending : Stage → Option ℕ
  | .start (.parent x) _ => some x
  | .walk (.parent x) _ _ _ _ => some x
  | .enter x _ _ => some x
  | .revert x _ => some x
  | _ => none

/-- The links that are counted and have no entry yet. -/
def pend (st : Stage) (i : ℕ) : ℕ := if pending st=some i then 1 else 0

/-- The entry that `dir_unlink` has found. -/
structure Found (s : Fs) (d k y : ℕ) : Prop where
  /-- The directory is read. -/
  read : s.valid d=true
  /-- It is in a directory. -/
  isDir : (s.node d).itype=.directory
  /-- The entry. -/
  entry : ∃ e,(s.node d).slots[k]?=some e ∧ e.inum=y ∧ y≠0 ∧ isDots e.name=false

/-- What holds between the steps. -/
structure Inv (s : System) : Prop where
  /-- The directories. -/
  tree : Tree s.fs.ninodes s.fs.node s.fs.origin
  /-- The links. -/
  links : ∀ i,due s.fs.ninodes s.fs.node i+pend s.stage i≤(s.fs.node i).nlink
  /-- References are counted. -/
  refs : ∀ i,s.fs.refs i=(handles s).count i
  /-- What is held is in use. -/
  used : ∀ i∈handles s,(s.fs.node i).itype≠.empty
  /-- Current directories. -/
  cwds : ∀ i∈s.cwds,(s.fs.node i).itype=.directory
  /-- What gets a new link is no directory. -/
  pending : ∀ x,TreeChanges.pending s.stage=some x → (s.fs.node x).itype≠.directory
  /-- An entry that is found is there, and nothing is dropped meanwhile. -/
  found : ∀ d k y,s.stage=.clear d k y → s.drops=[] ∧ Found s.fs d k y
  /-- What has no links is held, and is read. -/
  unlinked : ∀ i,(s.fs.node i).itype≠.empty → (s.fs.node i).nlink=0 →
    s.fs.valid i=true ∧ i∈handles s

/-- What a step does to the contents of the inodes. -/
inductive Write (s t : System) : Prop where
  /-- Nothing. -/
  | same (hnode : t.fs.node=s.fs.node) (horigin : t.fs.origin=s.fs.origin)
    (hpend : TreeChanges.pending t.stage=TreeChanges.pending s.stage)
  /-- A link is counted. -/
  | raise (x : ℕ) (hx : (s.fs.node x).itype≠.directory) (hused : (s.fs.node x).itype≠.empty)
    (hnode : t.fs.node=Function.update s.fs.node x
      ⟨(s.fs.node x).itype,(s.fs.node x).nlink+1,(s.fs.node x).slots⟩)
    (horigin : t.fs.origin=s.fs.origin) (hold : TreeChanges.pending s.stage=none)
    (hpend : TreeChanges.pending t.stage=some x)
  /-- An entry is added. -/
  | enter (x d : ℕ) (name : Name) (hst : s.drops=[] ∧ s.stage=.enter x d name)
    (hd : (s.fs.node d).itype=.directory)
    (hno : lookup (s.fs.node d).slots name=none) (hused : (s.fs.node x).itype≠.empty)
    (hnode : t.fs.node=Function.update s.fs.node d
      ⟨(s.fs.node d).itype,(s.fs.node d).nlink,dirLink (s.fs.node d).slots name x⟩)
    (horigin : t.fs.origin=s.fs.origin) (hold : TreeChanges.pending s.stage=some x)
    (hpend : TreeChanges.pending t.stage=none)
  /-- A link is taken back. -/
  | revert (x : ℕ) (hx : (s.fs.node x).nlink≠0)
    (hnode : t.fs.node=Function.update s.fs.node x
      ⟨(s.fs.node x).itype,(s.fs.node x).nlink-1,(s.fs.node x).slots⟩)
    (horigin : t.fs.origin=s.fs.origin) (hused : (s.fs.node x).itype≠.empty)
    (hold : TreeChanges.pending s.stage=some x) (hpend : TreeChanges.pending t.stage=none)
  /-- An entry is cleared. -/
  | clear (d k : ℕ) (e : DirEntry) (hd : (s.fs.node d).itype=.directory)
    (hk : (s.fs.node d).slots[k]?=some e) (hinum : e.inum≠0) (hdots : isDots e.name=false)
    (hlink : 1≤(s.fs.node e.inum).nlink)
    (hdir : (s.fs.node e.inum).itype=.directory →
      isEmpty (s.fs.node e.inum).slots=true ∧ (s.fs.node d).nlink≠0)
    (hnode : t.fs.node=Function.update (Function.update s.fs.node d ⟨(s.fs.node d).itype,
      if (s.fs.node e.inum).itype=.directory then (s.fs.node d).nlink-1 else (s.fs.node d).nlink,
      place (s.fs.node d).slots k .empty⟩) e.inum ⟨(s.fs.node e.inum).itype,
      (s.fs.node e.inum).nlink-1,(s.fs.node e.inum).slots⟩)
    (horigin : t.fs.origin=s.fs.origin) (hold : TreeChanges.pending s.stage=none)
    (hpend : TreeChanges.pending t.stage=none)
  /-- An inode is made. -/
  | make (m : Maker) (i d : ℕ) (name : Name) (hst : s.drops=[] ∧ s.stage=.make m d name)
    (hd : (s.fs.node d).itype=.directory)
    (hno : lookup (s.fs.node d).slots name=none) (hi : (s.fs.node i).itype=.empty)
    (hpos : 0 < i) (hlt : i < s.fs.ninodes)
    (hnode : t.fs.node=Function.update (Function.update s.fs.node i ⟨m.itype,1,
      if m.itype=.directory then dirLink (dirLink [] dot i) dotDot d else []⟩) d
      ⟨(s.fs.node d).itype,
        if m.itype=.directory then (s.fs.node d).nlink+1 else (s.fs.node d).nlink,
        dirLink (s.fs.node d).slots name i⟩)
    (horigin : t.fs.origin=Function.update s.fs.origin i d)
    (hold : TreeChanges.pending s.stage=none) (hpend : TreeChanges.pending t.stage=none)
  /-- A file is cut. -/
  | cut (i : ℕ) (hi : (s.fs.node i).itype=.file)
    (hnode : t.fs.node=Function.update s.fs.node i
      ⟨(s.fs.node i).itype,(s.fs.node i).nlink,[]⟩) (horigin : t.fs.origin=s.fs.origin)
    (hpend : TreeChanges.pending t.stage=TreeChanges.pending s.stage)
  /-- An inode is freed. -/
  | free (i : ℕ) (drops : List ℕ) (hdrops : s.drops=i::drops) (hfree : frees s.fs i)
    (hnode : t.fs.node=Function.update s.fs.node i ⟨.empty,(s.fs.node i).nlink,[]⟩)
    (horigin : t.fs.origin=s.fs.origin)
    (hpend : TreeChanges.pending t.stage=TreeChanges.pending s.stage)

/-- What a step does. -/
structure Change (s t : System) : Prop where
  /-- The number of inodes. -/
  ninodes : t.fs.ninodes=s.fs.ninodes
  /-- References. -/
  refs : ∀ i,t.fs.refs i=(handles t).count i
  /-- What is held then. -/
  used : ∀ i∈handles t,(t.fs.node i).itype≠.empty
  /-- Current directories. -/
  cwds : ∀ i∈t.cwds,(t.fs.node i).itype=.directory
  /-- An entry that is found. -/
  found : ∀ d k y,t.stage=.clear d k y → t.drops=[] ∧ Found t.fs d k y
  /-- What has no links. -/
  unlinked : ∀ i,(t.fs.node i).itype≠.empty → (t.fs.node i).nlink=0 →
    t.fs.valid i=true ∧ i∈handles t
  /-- The contents of the inodes. -/
  write : Write s t

section Acting

variable {s t : System} {fs : Fs} {i j x d y k : ℕ} {new : List ℕ}

/-- The inodes are as they were, more may be read, and there are new references. -/
structure Quiet (s fs : Fs) (new : List ℕ) : Prop where
  /-- The number of inodes. -/
  ninodes : fs.ninodes=s.ninodes
  /-- Contents. -/
  node : fs.node=s.node
  /-- What the inodes were created in. -/
  origin : fs.origin=s.origin
  /-- What is read. -/
  valid : ∀ i,s.valid i=true → fs.valid i=true
  /-- References. -/
  refs : ∀ i,fs.refs i=s.refs i+new.count i

theorem Quiet.refl (s : Fs) : Quiet s s [] :=
  ⟨rfl,rfl,rfl,fun _ h => h,fun _ => rfl⟩

/-- A lock is taken. -/
theorem Quiet.lock (s : Fs) (i : ℕ) : Quiet s (s.setValid i true) [] := by
  refine ⟨rfl,rfl,rfl,fun j hj => ?_,fun _ => rfl⟩
  show Function.update s.valid i true j=true
  by_cases e : j=i
  · rw [e,Function.update_self]
  · rw [Function.update_of_ne e,hj]

/-- A reference is taken. -/
theorem Quiet.retain {s : Fs} (h : Quiet s fs []) (i : ℕ) : Quiet s (fs.retain i) [i] := by
  refine ⟨h.ninodes,h.node,h.origin,h.valid,fun j => ?_⟩
  show Function.update fs.refs i (fs.refs i+1) j=s.refs j+[i].count j
  have hj := h.refs j
  rw [List.count_nil,add_zero] at hj
  rw [List.count_singleton]
  by_cases e : j=i
  · rw [e] at hj
    rw [e,Function.update_self,if_pos (beq_self_eq_true i),hj]
  · rw [Function.update_of_ne e,if_neg (by simpa using Ne.symm e),hj,add_zero]

/-- What is held after a step was held before or is new. -/
theorem mem_handles (hcount : ∀ j,(handles t).count j=(handles s).count j+new.count j)
    (hi : i∈handles t) : i∈handles s ∨ i∈new := by
  have hpos := List.count_pos_iff.mpr hi
  rw [hcount] at hpos
  by_cases hs : i∈handles s
  · exact .inl hs
  · rw [List.count_eq_zero_of_not_mem hs,zero_add] at hpos
    exact .inr (List.count_pos_iff.mp hpos)

theorem mem_handles_of_mem (hcount : ∀ j,(handles t).count j=(handles s).count j+new.count j)
    (hi : i∈handles s) : i∈handles t := by
  rw [← List.count_pos_iff] at hi ⊢
  rw [hcount]
  omega

/-- A step that does not change the contents of the inodes. -/
theorem Inv.quiet (h : Inv s) (hq : Quiet s.fs t.fs new)
    (hcount : ∀ j,(handles t).count j=(handles s).count j+new.count j)
    (hnew : ∀ i∈new,(s.fs.node i).itype≠.empty)
    (hcwds : ∀ i∈t.cwds,i∈s.cwds ∨ (s.fs.node i).itype=.directory)
    (hfound : ∀ d k y,t.stage=.clear d k y → t.drops=[] ∧ Found t.fs d k y)
    (hpend : TreeChanges.pending t.stage=TreeChanges.pending s.stage) : Change s t := by
  refine ⟨hq.ninodes,fun i => ?_,fun i hi => ?_,fun i hi => ?_,fun d k y hst => ?_,
    fun i hi hz => ?_,.same hq.node hq.origin hpend⟩
  · rw [hq.refs,hcount,h.refs]
  · rw [hq.node]
    exact (mem_handles hcount hi).elim (h.used i) (hnew i)
  · rw [hq.node]
    exact (hcwds i hi).elim (h.cwds i) id
  · exact hfound d k y hst
  · rw [hq.node] at hi hz
    obtain ⟨hv,hm⟩ := h.unlinked i hi hz
    exact ⟨hq.valid i hv,mem_handles_of_mem hcount hm⟩

/-- A step that changes the contents of the inodes, and keeps the types of what is held. -/
theorem Inv.loud (h : Inv s) (hn : t.fs.ninodes=s.fs.ninodes)
    (hrefs : ∀ j,t.fs.refs j=s.fs.refs j+new.count j)
    (hcount : ∀ j,(handles t).count j=(handles s).count j+new.count j)
    (htype : ∀ i∈handles s,(t.fs.node i).itype=(s.fs.node i).itype)
    (hnew : ∀ i∈new,(t.fs.node i).itype≠.empty) (hcwds : ∀ i∈t.cwds,i∈s.cwds)
    (hfound : ∀ d k y,t.stage≠.clear d k y)
    (hvalid : ∀ i,s.fs.valid i=true → t.fs.valid i=true)
    (hunl : ∀ i,(t.fs.node i).itype≠.empty → (t.fs.node i).nlink=0 →
      (s.fs.node i).itype≠.empty ∧ (s.fs.node i).nlink=0 ∨ t.fs.valid i=true ∧ i∈handles t)
    (hw : Write s t) : Change s t := by
  refine ⟨hn,fun i => ?_,fun i hi => ?_,fun i hi => ?_,fun d k y hst => absurd hst (hfound d k y),
    fun i hi hz => ?_,hw⟩
  · rw [hrefs,hcount,h.refs]
  · obtain hs | hs := mem_handles hcount hi
    · rw [htype i hs]
      exact h.used i hs
    · exact hnew i hs
  · have hs := hcwds i hi
    rw [htype i (List.mem_append_left _ hs)]
    exact h.cwds i hs
  · obtain ⟨hu,hl⟩ | hr := hunl i hi hz
    · obtain ⟨hv,hm⟩ := h.unlinked i hu hl
      exact ⟨hvalid i hv,mem_handles_of_mem hcount hm⟩
    · exact hr

/-- What a call that has dropped everything holds when it goes on. -/
theorem count_go (hd : s.drops=[]) {drops : List ℕ} {stage : Stage}
    (hc : ∀ j,drops.count j+(stageRefs stage).count j=(stageRefs s.stage).count j+new.count j)
    (j : ℕ) : (handles (s.go fs drops stage)).count j=(handles s).count j+new.count j := by
  have hj := hc j
  simp only [handles,System.go,hd,List.count_append,List.count_nil] at hj ⊢
  omega

/-- A call that has dropped everything goes on, and the contents of the inodes stay. -/
theorem Inv.quiet_go (h : Inv s) (hd : s.drops=[]) (hq : Quiet s.fs fs new) {drops : List ℕ}
    {stage : Stage}
    (hc : ∀ j,drops.count j+(stageRefs stage).count j=(stageRefs s.stage).count j+new.count j)
    (hnew : ∀ i∈new,(s.fs.node i).itype≠.empty) (hfound : ∀ d k y,stage≠.clear d k y)
    (hpend : TreeChanges.pending stage=TreeChanges.pending s.stage) :
    Change s (s.go fs drops stage) :=
  h.quiet hq (count_go hd hc) hnew (fun _ hi => .inl hi)
    (fun d k y hst => absurd hst (hfound d k y)) hpend

/-- What a directory names is in use. -/
theorem Inv.used_inumAt (h : Inv s) (hd : (s.fs.node d).itype=.directory) {name : Name}
    (hk : lookup (s.fs.node d).slots name=some k) :
    (s.fs.node (inumAt (s.fs.node d).slots k)).itype≠.empty := by
  obtain ⟨e,hget,hinum,-,heq⟩ := lookup_eq_some hk
  rw [heq]
  exact (h.tree.dirs d hd).names e (List.mem_of_getElem? hget) hinum

/-- What is done with a lock is done with the inode read. -/
theorem locking_eq {f : Fs → Outcome Panic System} (h : locking s.fs i f=.next t) :
    f (s.fs.setValid i true)=.next t := by
  rw [locking] at h
  split at h
  · cases h
  · exact h

/-- `get` takes a reference. -/
theorem getting_eq {f : Fs → Outcome Panic System} (h : getting fs i f=.next t) :
    f (fs.retain i)=.next t := by
  rw [getting] at h
  split at h
  · cases h
  · exact h

/-- Without a block nothing goes on. -/
theorem noBlock_ne_next : TreeSteps.step s .noBlock≠.next t := by
  intro h
  simp only [TreeSteps.step] at h
  split at h
  · split at h
    · cases h
    · cases h
  · cases h

theorem stageRefs_failed (g : Goal) : stageRefs g.failed=goalRefs g := by
  cases g <;> rfl

theorem pending_failed (g : Goal) (path : List UInt8) (i cur : ℕ) (name : Name) :
    pending g.failed=pending (.walk g path i cur name) := by
  cases g <;> rfl

theorem count_found (g : Goal) (i : ℕ) (name : Name) (j : ℕ) :
    (stageRefs (g.found i name)).count j=(goalRefs g).count j+[i].count j := by
  cases g <;> simp only [stageRefs,Goal.found,goalRefs,List.count_cons,List.count_nil] <;> omega

theorem pending_found (g : Goal) (path : List UInt8) (i cur : ℕ) (name elem : Name) :
    pending (g.found i elem)=pending (.walk g path i cur name) := by
  cases g <;> rfl

theorem found_ne_clear (g : Goal) (name : Name) : g.found i name≠.clear d k y := by
  cases g <;> exact Stage.noConfusion

theorem failed_ne_clear (g : Goal) : g.failed≠.clear d k y := by
  cases g <;> exact Stage.noConfusion

/-- `namex` takes its first inode. -/
theorem Inv.start (h : Inv s) (hd : s.drops=[]) {g : Goal} {path : List UInt8}
    (hst : s.stage=.start g path) (ht : startStep s g path=.next t) : Change s t := by
  have hgo : ∀ i,(s.fs.node i).itype≠.empty →
      Change s (s.go (s.fs.retain i) [] (.walk g path i 0 fun _ => 0)) := by
    intro i hi
    refine h.quiet_go hd ((Quiet.refl s.fs).retain i) (fun j => ?_) (fun j hj => ?_)
      (fun _ _ _ => Stage.noConfusion) ?_
    · rw [hst]
      simp only [stageRefs,List.count_cons,List.count_nil]
      omega
    · rw [List.mem_singleton.mp hj]
      exact hi
    · rw [hst]
      cases g <;> rfl
  rw [startStep] at ht
  split at ht
  · cases getting_eq ht
    exact hgo rootInum (used_of_dir h.tree.root)
  · split at ht
    · cases ht
    · rename_i i hcwd
      cases ht
      exact hgo i (h.used i (List.mem_append_left _ (List.mem_of_getElem? hcwd)))

/-- The loop of `namex`. -/
theorem Inv.walk (h : Inv s) (hd : s.drops=[]) {g : Goal} {path : List UInt8} {cur : ℕ}
    {name : Name} (hst : s.stage=.walk g path i cur name)
    (ht : walkStep s g path i cur name=.next t) : Change s t := by
  have hfailed : ∀ {fs},Quiet s.fs fs [] → Change s (s.go fs [i] g.failed) := by
    intro fs hq
    refine h.quiet_go hd hq (fun j => ?_) (fun j hj => by cases hj)
      (fun _ _ _ => failed_ne_clear g) ?_
    · rw [hst,stageRefs_failed]
      simp only [stageRefs,List.count_cons,List.count_nil]
      omega
    · rw [hst]
      exact pending_failed g path i cur name
  have hfound : ∀ {fs} elem,Quiet s.fs fs [] → Change s (s.go fs [] (g.found i elem)) := by
    intro fs elem hq
    refine h.quiet_go hd hq (fun j => ?_) (fun j hj => by cases hj)
      (fun _ _ _ => found_ne_clear g elem) ?_
    · rw [hst,count_found]
      simp only [stageRefs,List.count_cons,List.count_nil]
      omega
    · rw [hst]
      exact pending_found g path i cur name elem
  rw [walkStep] at ht
  dsimp only at ht
  split at ht
  · cases ht
    split
    · exact hfailed (Quiet.refl s.fs)
    · exact hfound _ (Quiet.refl s.fs)
  · have ht := locking_eq ht
    have hq := Quiet.lock s.fs i
    split at ht
    · cases ht
      exact hfailed hq
    · rename_i hdir
      have hdir := not_not.mp hdir
      split at ht
      · cases ht
        exact hfound _ hq
      · split at ht
        · cases ht
          exact hfailed hq
        · rename_i k hk
          cases getting_eq ht
          refine h.quiet_go hd (hq.retain _) (fun j => ?_) (fun j hj => ?_)
            (fun _ _ _ => Stage.noConfusion) ?_
          · rw [hst]
            simp only [stageRefs,List.count_cons,List.count_nil]
            omega
          · rw [List.mem_singleton.mp hj]
            exact h.used_inumAt hdir hk
          · rw [hst]
            cases g <;> rfl

/-- What a call holds where it goes on is held. -/
theorem mem_handles_of_stage (hst : i∈stageRefs s.stage) : i∈handles s :=
  List.mem_append_right _ (List.mem_append_right _ (List.mem_append_right _ hst))

theorem mem_handles_of_drop (hi : i∈s.drops) : i∈handles s :=
  List.mem_append_right _ (List.mem_append_right _ (List.mem_append_left _ hi))

/-- `sys_link` counts the new link. -/
theorem Inv.raise (h : Inv s) (hd : s.drops=[]) {path : List UInt8}
    (hst : s.stage=.raise x path) (ht : raiseStep s x path=.next t) : Change s t := by
  have ht := locking_eq ht
  have hq := Quiet.lock s.fs x
  have hx := h.used x (mem_handles_of_stage (by rw [hst]; exact List.mem_singleton_self x))
  have hold : TreeChanges.pending s.stage=none := by
    rw [hst]
    rfl
  dsimp only at ht
  split at ht
  · cases ht
    refine h.quiet_go hd hq (fun j => ?_) (fun j hj => by cases hj)
      (fun _ _ _ => Stage.noConfusion) hold.symm
    rw [hst]
    simp only [stageRefs,List.count_cons,List.count_nil]
  · rename_i hdir
    split at ht
    · cases ht
    · cases ht
      have htype := @itype_write x s.fs.node ((s.fs.node x).nlink+1)
        (s.fs.node x).slots
      refine h.loud rfl hq.refs (count_go hd fun j => ?_) (fun i _ => htype i)
        (fun i hi => by cases hi) (fun _ hi => hi) (fun _ _ _ => Stage.noConfusion) hq.valid
        (fun i hi hz => .inl ⟨?_,?_⟩) (.raise x hdir hx rfl rfl hold rfl)
      · rw [hst]
        simp only [stageRefs,goalRefs,List.count_nil]
        omega
      · rw [← htype]
        exact hi
      · change (Function.update s.fs.node x _ i).nlink=0 at hz
        obtain rfl | hix := eq_or_ne i x
        · rw [Function.update_self] at hz
          cases hz
        · rw [Function.update_of_ne hix] at hz
          exact hz

/-- `sys_link` calls `dir_link`. -/
theorem Inv.enter (h : Inv s) (hd : s.drops=[]) {name : Name} (hst : s.stage=.enter x d name)
    (ht : enterStep s x d name=.next t) : Change s t := by
  have ht := locking_eq ht
  have hq := Quiet.lock s.fs d
  have hx := h.used x (mem_handles_of_stage (by rw [hst]; exact List.mem_cons_self ..))
  have hold : TreeChanges.pending s.stage=some x := by
    rw [hst]
    rfl
  dsimp only at ht
  split at ht
  · cases ht
  · split at ht
    · cases ht
    · rename_i hdir
      have hdir := not_not.mp hdir
      split at ht
      · rename_i k hk
        cases getting_eq ht
        refine h.quiet_go hd (hq.retain _) (fun j => ?_) (fun j hj => ?_)
          (fun _ _ _ => Stage.noConfusion) hold.symm
        · rw [hst]
          simp only [stageRefs,List.count_cons,List.count_nil]
          omega
        · rw [List.mem_singleton.mp hj]
          exact h.used_inumAt hdir hk
      · rename_i hno
        split at ht
        · cases ht
        · cases ht
          have htype := @itype_write d s.fs.node (s.fs.node d).nlink
            (dirLink (s.fs.node d).slots name x)
          refine h.loud rfl hq.refs (count_go hd fun j => ?_) (fun i _ => htype i)
            (fun i hi => by cases hi) (fun _ hi => hi) (fun _ _ _ => Stage.noConfusion) hq.valid
            (fun i hi hz => .inl ⟨?_,?_⟩) (.enter x d name ⟨hd,hst⟩ hdir hno hx rfl rfl hold rfl)
          · rw [hst]
            simp only [stageRefs,List.count_cons,List.count_nil]
            omega
          · rw [← htype]
            exact hi
          · change (Function.update s.fs.node d _ i).nlink=0 at hz
            obtain rfl | hid := eq_or_ne i d
            · rw [Function.update_self] at hz
              exact hz
            · rw [Function.update_of_ne hid] at hz
              exact hz

/-- `revert_link`. -/
theorem Inv.revert (h : Inv s) (hd : s.drops=[]) {rest : List ℕ} (hst : s.stage=.revert x rest)
    (ht : revertStep s x rest=.next t) : Change s t := by
  have ht := locking_eq ht
  have hq := Quiet.lock s.fs x
  have hx := h.used x (mem_handles_of_stage (by rw [hst]; exact List.mem_cons_self ..))
  dsimp only at ht
  split at ht
  · cases ht
  · rename_i hpos
    cases ht
    have htype := @itype_write x s.fs.node ((s.fs.node x).nlink-1)
        (s.fs.node x).slots
    refine h.loud rfl hq.refs (count_go hd fun j => ?_) (fun i _ => htype i)
      (fun i hi => by cases hi) (fun _ hi => hi) (fun _ _ _ => Stage.noConfusion) hq.valid
      (fun i hi hz => ?_) (.revert x hpos rfl rfl hx (by rw [hst]; rfl) rfl)
    · rw [hst]
      simp only [stageRefs,List.count_cons,List.count_nil]
    · obtain rfl | hix := eq_or_ne i x
      · exact .inr ⟨Function.update_self ..,mem_handles_of_drop (List.mem_cons_self ..)⟩
      · change (Function.update s.fs.node x _ i).nlink=0 at hz
        rw [Function.update_of_ne hix] at hz
        refine .inl ⟨?_,hz⟩
        rw [← htype]
        exact hi

/-- `dir_unlink` searches the entry. -/
theorem Inv.remove (h : Inv s) (hd : s.drops=[]) {name : Name} (hst : s.stage=.remove d name)
    (ht : removeStep s d name=.next t) : Change s t := by
  have ht := locking_eq ht
  have hq := Quiet.lock s.fs d
  have hold : TreeChanges.pending s.stage=none := by
    rw [hst]
    rfl
  have hfailed : Change s (s.go (s.fs.setValid d true) [d] (.returned false)) := by
    refine h.quiet_go hd hq (fun j => ?_) (fun j hj => by cases hj)
      (fun _ _ _ => Stage.noConfusion) hold.symm
    rw [hst]
    simp only [stageRefs,List.count_cons,List.count_nil]
  dsimp only at ht
  split at ht
  · cases ht
    exact hfailed
  · rename_i hdots
    split at ht
    · cases ht
    · rename_i hdir
      have hdir := not_not.mp hdir
      split at ht
      · cases ht
        exact hfailed
      · rename_i k hk
        cases getting_eq ht
        refine h.quiet (hq.retain _) (count_go hd fun j => ?_) (fun j hj => ?_)
          (fun _ hi => .inl hi) (fun d' k' y' hc => ?_) hold.symm
        · rw [hst]
          simp only [stageRefs,List.count_cons,List.count_nil]
          omega
        · rw [List.mem_singleton.mp hj]
          exact h.used_inumAt hdir hk
        · cases hc
          obtain ⟨e,hget,hinum,hname,heq⟩ := lookup_eq_some hk
          refine ⟨rfl,Function.update_self ..,hdir,e,hget,heq.symm,?_,?_⟩
          · exact heq.symm ▸ hinum
          · rw [LinkSteps.isDots_named hname]
            exact Bool.eq_false_of_not_eq_true hdots

/-- `dir_unlink` clears the entry. -/
theorem Inv.clear (h : Inv s) (hst : s.stage=.clear d k y) (ht : clearStep s d k y=.next t) :
    Change s t := by
  obtain ⟨hd,hread,hdir,e,hk,hinum,hpos,hdots⟩ := h.found d k y hst
  have ht := locking_eq ht
  have hq := Quiet.lock s.fs y
  have hold : TreeChanges.pending s.stage=none := by
    rw [hst]
    rfl
  have hc : ∀ j,[y,d].count j+(stageRefs (.returned true)).count j=
      (stageRefs s.stage).count j+[].count j := by
    intro j
    rw [hst]
    simp only [stageRefs,List.count_cons,List.count_nil]
    omega
  dsimp only at ht
  split at ht
  · cases ht
  · rename_i hlink
    split at ht
    · cases ht
      exact h.quiet_go hd hq hc (fun j hj => by cases hj) (fun _ _ _ => Stage.noConfusion) hold.symm
    · rename_i hempty
      split at ht
      · cases ht
      · rename_i hlinks
        cases ht
        cases hinum
        set links := if (s.fs.node e.inum).itype=.directory then (s.fs.node d).nlink-1
          else (s.fs.node d).nlink with hl
        set md : Node := ⟨(s.fs.node d).itype,links,place (s.fs.node d).slots k .empty⟩ with hmd
        have htype : ∀ i,(Function.update (Function.update s.fs.node d md) e.inum
            ⟨(s.fs.node e.inum).itype,(s.fs.node e.inum).nlink-1,(s.fs.node e.inum).slots⟩
            i).itype=(s.fs.node i).itype := by
          intro i
          have hself : (Function.update s.fs.node d md e.inum).itype=(s.fs.node e.inum).itype :=
            itype_update (m:=md) rfl _
          have hlast := itype_update (m:=⟨(s.fs.node e.inum).itype,(s.fs.node e.inum).nlink-1,
            (s.fs.node e.inum).slots⟩) hself.symm i
          exact hlast.trans (itype_update (m:=md) rfl i)
        refine h.loud rfl hq.refs (count_go hd hc) (fun i _ => htype i)
          (fun i hi => by cases hi) (fun _ hi => hi) (fun _ _ _ => Stage.noConfusion) hq.valid
          (fun i hi hz => ?_) (.clear d k e hdir hk hpos hdots (by exact Nat.not_lt.mp hlink)
            (fun hyd => ⟨?_,fun hz => hlinks ⟨hyd,hz⟩⟩) rfl rfl hold rfl)
        · obtain rfl | hiy := eq_or_ne i e.inum
          · exact .inr ⟨Function.update_self ..,mem_handles_of_drop (List.mem_cons_self ..)⟩
          · obtain rfl | hid := eq_or_ne i d
            · refine .inr ⟨hq.valid i hread,mem_handles_of_drop ?_⟩
              exact List.mem_cons_of_mem _ (List.mem_singleton_self i)
            · change (Function.update (Function.update s.fs.node d md) e.inum _ i).nlink=0 at hz
              rw [Function.update_of_ne hiy,Function.update_of_ne hid] at hz
              refine .inl ⟨?_,hz⟩
              rw [← htype]
              exact hi
        · by_contra hne
          exact hempty ⟨hyd,Bool.eq_false_of_not_eq_true hne⟩

/-- `inode_alloc` takes a free inode. -/
theorem inodeAlloc_some {s : Fs} (h : inodeAlloc s=some i) :
    (s.node i).itype=.empty ∧ 0 < i ∧ i < s.ninodes := by
  have hfree := List.find?_some h
  have hmem := List.mem_of_find?_eq_some h
  rw [List.mem_range'_1] at hmem
  exact ⟨of_decide_eq_true hfree,by omega,by omega⟩

theorem made_fs (m : Maker) : (s.made fs d i m).fs=fs := by
  cases m <;> rfl

theorem made_cwds (m : Maker) : (s.made fs d i m).cwds=s.cwds := by
  cases m <;> rfl

theorem made_ne_clear (m : Maker) {d' k' y' : ℕ} : (s.made fs d i m).stage≠.clear d' k' y' := by
  cases m <;> exact Stage.noConfusion

theorem pending_made (m : Maker) : pending (s.made fs d i m).stage=none := by
  cases m <;> rfl

theorem count_made (hd : s.drops=[]) {m : Maker} {name : Name} (hst : s.stage=.make m d name)
    (j : ℕ) : (handles (s.made fs d i m)).count j=(handles s).count j+[i].count j := by
  cases m with
  | file flags =>
    refine count_go hd (fun j => ?_) j
    rw [hst]
    rfl
  | mkdir =>
    refine count_go hd (fun j => ?_) j
    rw [hst]
    simp only [stageRefs,List.count_cons,List.count_nil]
    omega
  | mknod major =>
    refine count_go hd (fun j => ?_) j
    rw [hst]
    simp only [stageRefs,List.count_cons,List.count_nil]
    omega

/-- `create` returns an inode that is there. -/
theorem Inv.made (h : Inv s) (hd : s.drops=[]) {m : Maker} {name : Name}
    (hst : s.stage=.make m d name) (hq : Quiet s.fs fs [i]) (hi : (s.fs.node i).itype≠.empty) :
    Change s (s.made fs d i m) := by
  refine @Inv.quiet _ _ [i] h ?_ (count_made hd hst) (fun j hj => ?_) (fun j hj => .inl ?_)
    (fun d' k' y' hc => absurd hc (made_ne_clear m)) ?_
  · rw [made_fs]
    exact hq
  · rw [List.mem_singleton.mp hj]
    exact hi
  · rw [made_cwds] at hj
    exact hj
  · rw [pending_made,hst]
    rfl

/-- `create` makes an inode. -/
theorem Inv.created (h : Inv s) (hd : s.drops=[]) {m : Maker} {name : Name}
    (hst : s.stage=.make m d name) (hdir : (s.fs.node d).itype=.directory)
    (hno : lookup (s.fs.node d).slots name=none) (hi : (s.fs.node i).itype=.empty) (hpos : 0 < i)
    (hlt : i < s.fs.ninodes) : Change s (s.made ((s.fs.setValid d true).create m i d name) d i m) := by
  have hdi : d≠i := by
    rintro rfl
    exact used_of_dir hdir hi
  set fs := (s.fs.setValid d true).create m i d name with hfs
  have hq := (Quiet.lock s.fs d).retain i
  have hm : m.itype≠.empty := by cases m <;> exact InodeType.noConfusion
  have hself : (fs.node i).itype=m.itype := by
    show (Function.update (Function.update s.fs.node i _) d _ i).itype=m.itype
    rw [Function.update_of_ne hdi.symm,Function.update_self]
  have hother : ∀ j,j≠i → (fs.node j).itype=(s.fs.node j).itype := by
    intro j hj
    show (Function.update (Function.update s.fs.node i _) d _ j).itype=_
    obtain rfl | hjd := eq_or_ne j d
    · rw [Function.update_self]
      rfl
    · rw [Function.update_of_ne hjd,Function.update_of_ne hj]
  have hvalid : ∀ j,s.fs.valid j=true → fs.valid j=true := by
    intro j hj
    show Function.update (s.fs.setValid d true).valid i true j=true
    by_cases e : j=i
    · rw [e,Function.update_self]
    · rw [Function.update_of_ne e]
      exact (Quiet.lock s.fs d).valid j hj
  refine @Inv.loud _ _ [i] h ?_ (fun j => ?_) (count_made hd hst) (fun j hj => ?_) (fun j hj => ?_)
    (fun j hj => ?_) (fun d' k' y' => made_ne_clear m) (fun j hj => ?_) (fun j hj hz => ?_)
    (.make m i d name ⟨hd,hst⟩ hdir hno hi hpos hlt ?_ ?_ ?_ (pending_made m))
  · rw [made_fs]
    rfl
  · rw [made_fs]
    exact hq.refs j
  · rw [made_fs]
    refine hother j ?_
    rintro rfl
    exact h.used j hj hi
  · rw [made_fs,List.mem_singleton.mp hj,hself]
    exact hm
  · rw [made_cwds] at hj
    exact hj
  · rw [made_fs]
    exact hvalid j hj
  · rw [made_fs] at hj hz
    change (Function.update (Function.update s.fs.node i _) d _ j).nlink=0 at hz
    have hji : j≠i := by
      rintro rfl
      rw [Function.update_of_ne hdi.symm,Function.update_self] at hz
      cases hz
    rw [hother j hji] at hj
    refine .inl ⟨hj,?_⟩
    obtain rfl | hjd := eq_or_ne j d
    · rw [Function.update_self] at hz
      change (if _ then (s.fs.node j).nlink+1 else (s.fs.node j).nlink)=0 at hz
      split at hz
      · cases hz
      · exact hz
    · rw [Function.update_of_ne hjd,Function.update_of_ne hji] at hz
      exact hz
  · rw [made_fs]
    rfl
  · rw [made_fs]
    rfl
  · rw [hst]
    rfl

/-- `create` with its directory. -/
theorem Inv.make (h : Inv s) (hd : s.drops=[]) {m : Maker} {name : Name}
    (hst : s.stage=.make m d name) (ht : makeStep s m d name=.next t) : Change s t := by
  have ht := locking_eq ht
  have hq := Quiet.lock s.fs d
  have hold : TreeChanges.pending s.stage=none := by
    rw [hst]
    rfl
  dsimp only at ht
  split at ht
  · cases ht
  · rename_i hdir
    have hdir := not_not.mp hdir
    split at ht
    · rename_i k hk
      have hused := h.used_inumAt hdir hk
      have ht := getting_eq ht
      split at ht
      · cases ht
        exact h.made hd hst (hq.retain _) hused
      · cases ht
        refine h.quiet_go hd (hq.retain _) (fun j => ?_) (fun j hj => ?_)
          (fun _ _ _ => Stage.noConfusion) hold.symm
        · rw [hst]
          simp only [stageRefs,List.count_cons,List.count_nil]
          omega
        · rw [List.mem_singleton.mp hj]
          exact hused
    · rename_i hno
      split at ht
      · cases ht
      · rename_i i hi
        obtain ⟨hempty,hpos,hlt⟩ := inodeAlloc_some hi
        split at ht
        · cases ht
        · split at ht
          · cases ht
          · split at ht
            · cases ht
            · split at ht
              · cases ht
              · cases ht
                exact h.created hd hst hdir hno hempty hpos hlt

/-- `File::open` with its inode. -/
theorem Inv.opened (h : Inv s) (hd : s.drops=[]) {flags : LogWrites.OpenFlags}
    (hst : s.stage=.opened flags i) (ht : openStep s flags i=.next t) : Change s t := by
  have ht := locking_eq ht
  have hq := Quiet.lock s.fs i
  have hold : TreeChanges.pending s.stage=none := by
    rw [hst]
    rfl
  have hdropped : Change s (s.go (s.fs.setValid i true) [i] (.returned false)) := by
    refine h.quiet_go hd hq (fun j => ?_) (fun j hj => by cases hj)
      (fun _ _ _ => Stage.noConfusion) hold.symm
    rw [hst]
    rfl
  have hcount : ∀ fs j,(handles (s.opens fs i)).count j=(handles s).count j+[].count j := by
    intro fs j
    simp only [handles,System.opens,System.go,hd,hst,stageRefs,List.count_append,List.count_nil]
    omega
  have hopened : Change s (s.opens (s.fs.setValid i true) i) :=
    h.quiet hq (hcount _) (fun j hj => by cases hj) (fun _ hj => .inl hj)
      (fun _ _ _ hc => by cases hc) hold.symm
  dsimp only at ht
  split at ht
  · cases ht
  · split at ht
    · cases ht
      exact hdropped
    · cases ht
      exact hopened
  · rename_i hfile
    cases ht
    split
    · have htype := @itype_write i s.fs.node (s.fs.node i).nlink []
      refine h.loud rfl hq.refs (hcount _) (fun j _ => htype j) (fun j hj => by cases hj)
        (fun _ hj => hj) (fun _ _ _ => Stage.noConfusion) hq.valid (fun j hj hz => .inl ⟨?_,?_⟩)
        (.cut i hfile rfl rfl hold.symm)
      · rw [← htype]
        exact hj
      · change (Function.update s.fs.node i _ j).nlink=0 at hz
        obtain rfl | hji := eq_or_ne j i
        · rw [Function.update_self] at hz
          exact hz
        · rw [Function.update_of_ne hji] at hz
          exact hz
    · exact hopened
  · split at ht
    · cases ht
      exact hdropped
    · cases ht
      exact hopened

/-- `sys_chdir` with its inode. -/
theorem Inv.change (h : Inv s) (hd : s.drops=[]) (hst : s.stage=.change i)
    (ht : changeStep s i=.next t) : Change s t := by
  have ht := locking_eq ht
  have hq := Quiet.lock s.fs i
  have hold : TreeChanges.pending s.stage=none := by
    rw [hst]
    rfl
  dsimp only at ht
  split at ht
  · cases ht
    refine h.quiet_go hd hq (fun j => ?_) (fun j hj => by cases hj)
      (fun _ _ _ => Stage.noConfusion) hold.symm
    rw [hst]
    rfl
  · rename_i hdir
    have hdir := not_not.mp hdir
    split at ht
    · cases ht
    · rename_i old hcwd
      cases ht
      obtain ⟨hlt,hget⟩ := List.getElem?_eq_some_iff.mp hcwd
      refine h.quiet hq (fun j => ?_) (fun j hj => by cases hj) (fun j hj => ?_)
        (fun _ _ _ hc => by cases hc) hold.symm
      · have hset := List.count_set (a:=i) (b:=j) hlt
        have hle : (if (old==j)=true then 1 else 0) ≤ s.cwds.count j := by
          split
          · rename_i he
            rw [← beq_iff_eq.mp he,← hget]
            exact List.count_pos_iff.mpr (List.getElem_mem hlt)
          · exact Nat.zero_le _
        rw [hget] at hset
        simp only [handles,System.go,hd,hst,stageRefs,List.count_append,List.count_cons,
          List.count_nil,hset]
        omega
      · obtain hj | rfl := List.mem_or_eq_of_mem_set hj
        · exact .inl hj
        · exact .inr hdir

/-- A call that has dropped everything goes on. -/
theorem Inv.act (h : Inv s) (hd : s.drops=[]) (ht : act s=.next t) : Change s t := by
  rw [TreeSteps.act] at ht
  split at ht
  · rename_i hst
    exact h.start hd hst ht
  · rename_i hst
    exact h.walk hd hst ht
  · rename_i hst
    exact h.raise hd hst ht
  · rename_i hst
    exact h.enter hd hst ht
  · rename_i hst
    exact h.revert hd hst ht
  · rename_i hst
    exact h.remove hd hst ht
  · rename_i hst
    exact h.clear hst ht
  · rename_i hst
    exact h.make hd hst ht
  · rename_i hst
    exact h.opened hd hst ht
  · rename_i hst
    exact h.change hd hst ht
  · cases ht

theorem count_drops (hdrops : s.drops=i::new) (j : ℕ) :
    (handles (s.go fs new s.stage)).count j+(if j=i then 1 else 0)=(handles s).count j := by
  have hcons : (i::new).count j=new.count j+if j=i then 1 else 0 := by
    rw [List.count_cons]
    congr 1
    exact if_congr (by rw [beq_iff_eq,eq_comm]) rfl rfl
  simp only [handles,System.go,hdrops,List.count_append,hcons]
  omega

/-- `put`. -/
theorem Inv.put (h : Inv s) (hdrops : s.drops=i::new) (ht : put s.fs i=.next fs) :
    Change s (s.go fs new s.stage) := by
  have hcount := @count_drops _ fs _ _ hdrops
  have hmem : ∀ j∈handles (s.go fs new s.stage),j∈handles s := fun j hj => by
    have hj := List.count_pos_iff.mpr hj
    have hc := hcount j
    exact List.count_pos_iff.mp (by omega)
  have hstay : ∀ j,j≠i → j∈handles s → j∈handles (s.go fs new s.stage) := fun j hji hj => by
    have hj := List.count_pos_iff.mpr hj
    have hc := hcount j
    rw [if_neg hji,add_zero] at hc
    exact List.count_pos_iff.mp (by omega)
  have hi := h.refs i
  have hci := hcount i
  rw [if_pos rfl] at hci
  have hclear : ∀ d k y,s.stage=.clear d k y → new=[] ∧ Found fs d k y := fun d k y hst => by
    have hnil := (h.found d k y hst).1
    rw [hdrops] at hnil
    cases hnil
  have hrefs : ∀ r,fs.refs=Function.update s.fs.refs i r → s.fs.refs i=r+1 →
      ∀ j,fs.refs j=(handles (s.go fs new s.stage)).count j := by
    intro r hr hone j
    have hj := h.refs j
    have hc := hcount j
    rw [hr]
    obtain rfl | hji := eq_or_ne j i
    · rw [Function.update_self]
      omega
    · rw [Function.update_of_ne hji]
      rw [if_neg hji] at hc
      omega
  rw [TreeSteps.put] at ht
  split at ht
  · rename_i hone
    split at ht
    · rename_i hkeep
      cases ht
      refine ⟨rfl,hrefs 0 rfl hone,fun j hj => h.used j (hmem j hj),h.cwds,hclear,
        fun j hj hz => ?_,.same rfl rfl rfl⟩
      obtain ⟨hv,hm⟩ := h.unlinked j hj hz
      have hji : j≠i := by
        rintro rfl
        obtain hf | hl := hkeep
        · rw [hv] at hf
          cases hf
        · exact absurd hz hl.ne'
      refine ⟨?_,hstay j hji hm⟩
      show Function.update s.fs.valid i false j=true
      rw [Function.update_of_ne hji,hv]
    · rename_i hfree
      rw [not_or,Bool.not_eq_false,not_lt,Nat.le_zero] at hfree
      cases ht
      have hne : ∀ j∈handles (s.go (((s.fs.setNode i ⟨.empty,(s.fs.node i).nlink,[]⟩).setValid i
          false).setRefs i 0) new s.stage),j≠i := by
        rintro j hj rfl
        have hj := List.count_pos_iff.mpr hj
        omega
      have hat : ∀ j,j≠i → Function.update s.fs.node i ⟨.empty,(s.fs.node i).nlink,[]⟩ j=
          s.fs.node j := fun j hj => Function.update_of_ne hj ..
      refine ⟨rfl,hrefs 0 rfl hone,fun j hj => ?_,fun j hj => ?_,hclear,fun j hj hz => ?_,
        .free i new hdrops ⟨hone,hfree.1,hfree.2⟩ rfl rfl rfl⟩
      · show (Function.update s.fs.node i _ j).itype≠.empty
        rw [hat j (hne j hj)]
        exact h.used j (hmem j hj)
      · show (Function.update s.fs.node i _ j).itype=.directory
        rw [hat j (hne j (List.mem_append_left _ hj))]
        exact h.cwds j hj
      · change (Function.update s.fs.node i _ j).itype≠.empty at hj
        change (Function.update s.fs.node i _ j).nlink=0 at hz
        have hji : j≠i := by
          rintro rfl
          rw [Function.update_self] at hj
          exact hj rfl
        rw [hat j hji] at hj hz
        obtain ⟨hv,hm⟩ := h.unlinked j hj hz
        refine ⟨?_,hstay j hji hm⟩
        show Function.update s.fs.valid i false j=true
        rw [Function.update_of_ne hji,hv]
  · rename_i hone
    split at ht
    · cases ht
    · rename_i hzero
      cases ht
      refine ⟨rfl,hrefs (s.fs.refs i-1) rfl (by omega),fun j hj => h.used j (hmem j hj),h.cwds,
        hclear,fun j hj hz => ?_,.same rfl rfl rfl⟩
      obtain ⟨hv,hm⟩ := h.unlinked j hj hz
      refine ⟨hv,?_⟩
      obtain rfl | hji := eq_or_ne j i
      · exact List.count_pos_iff.mp (by omega)
      · exact hstay j hji hm

/-- No call runs. -/
theorem rests_eq (h : s.rests=true) : s.drops=[] ∧ ∃ ok,s.stage=.returned ok := by
  rw [System.rests] at h
  split at h
  · rename_i ok hd hst
    exact ⟨hd,ok,hst⟩
  · cases h

/-- A process calls. -/
theorem Inv.call (h : Inv s) {p : ℕ} {g : Goal} {path : List UInt8} (hg : goalRefs g=[])
    (ht : s.call p (.start g path)=.next t) : Change s t := by
  rw [System.call] at ht
  split at ht
  · rename_i hr
    obtain ⟨hd,ok,hst⟩ := rests_eq hr.1
    cases ht
    refine h.quiet (Quiet.refl s.fs) (fun j => ?_) (fun j hj => by cases hj) (fun _ hj => .inl hj)
      (fun _ _ _ hc => by cases hc) ?_
    · simp only [handles,hd,hst,stageRefs,hg,List.count_append,List.count_nil,add_zero]
    · rw [hst]
      cases g with
      | parent x => cases hg
      | _ => rfl
  · cases ht

theorem count_eraseIdx {l : List ℕ} (hi : l[k]?=some i) (j : ℕ) :
    (l.eraseIdx k).count j+[i].count j=l.count j := by
  obtain ⟨hlt,hget⟩ := List.getElem?_eq_some_iff.mp hi
  have hperm := (List.getElem_cons_eraseIdx_perm hlt).count_eq j
  rw [hget,List.count_cons] at hperm
  rw [List.count_singleton]
  exact hperm

/-- A step does one thing to the contents of the inodes, and keeps the rest. -/
theorem Inv.step_change (h : Inv s) {a : Label} (ht : step s a=.next t) : Change s t := by
  cases a with
  | link p old path => exact h.call rfl ht
  | unlink p path => exact h.call rfl ht
  | mkdir p path => exact h.call rfl ht
  | mknod p path major => exact h.call rfl ht
  | «open» p path flags =>
    refine h.call ?_ ht
    rw [openGoal]
    split
    · rfl
    · rfl
  | chdir p path => exact h.call rfl ht
  | noBlock => exact absurd ht noBlock_ne_next
  | close k =>
    simp only [TreeSteps.step] at ht
    split at ht
    · cases ht
    · rename_i i hi
      split at ht
      · rename_i hr
        obtain ⟨hd,ok,hst⟩ := rests_eq hr
        cases ht
        refine h.quiet (Quiet.refl s.fs) (fun j => ?_) (fun j hj => by cases hj)
          (fun _ hj => .inl hj) (fun _ _ _ hc => by cases hc) (by rw [hst]; rfl)
        have hj := count_eraseIdx hi j
        simp only [handles,System.go,hd,hst,stageRefs,List.count_append,List.count_nil]
        omega
      · cases ht
  | fork p =>
    simp only [TreeSteps.step] at ht
    split at ht
    · cases ht
    · rename_i i hi
      have hmem := List.mem_of_getElem? hi
      split at ht
      · rename_i hr
        cases ht
        refine h.quiet ((Quiet.refl s.fs).retain i) (fun j => ?_) (fun j hj => ?_)
          (fun j hj => ?_) (fun d k y hst => ?_) rfl
        · simp only [handles,List.count_append]
          omega
        · rw [List.mem_singleton.mp hj]
          exact h.used i (List.mem_append_left _ hmem)
        · obtain hj | hj := List.mem_append.mp hj
          · exact .inl hj
          · rw [List.mem_singleton.mp hj]
            exact .inl hmem
        · obtain ⟨-,ok,hok⟩ := rests_eq hr
          rw [hok] at hst
          cases hst
      · cases ht
  | exit p =>
    simp only [TreeSteps.step] at ht
    split at ht
    · cases ht
    · rename_i i hi
      split at ht
      · rename_i hr
        obtain ⟨hd,ok,hst⟩ := rests_eq hr
        cases ht
        refine h.quiet (Quiet.refl s.fs) (fun j => ?_) (fun j hj => by cases hj)
          (fun j hj => .inl (List.mem_of_mem_eraseIdx hj)) (fun _ _ _ hc => by cases hc)
          (by rw [hst]; rfl)
        have hj := count_eraseIdx hi j
        simp only [handles,System.go,hd,hst,stageRefs,List.count_append,List.count_nil]
        omega
      · cases ht
  | run =>
    simp only [TreeSteps.step,advance] at ht
    split at ht
    · rename_i hd
      exact h.act hd ht
    · rename_i i drops hd
      obtain ⟨fs,hput,ht⟩ := Outcome.bind_eq_next ht
      cases ht
      exact h.put hd hput

end Acting

section Balance

variable {s t : System} {i j : ℕ}

theorem pend_none {st : Stage} (h : pending st=none) : pend st j=0 := by
  rw [pend,h]
  rfl

theorem pend_some {st : Stage} (h : pending st=some i) : pend st j=if i=j then 1 else 0 := by
  rw [pend,h]
  exact if_congr (by rw [Option.some.injEq]) rfl rfl

/-- An entry that is cleared does not name its directory. -/
theorem Inv.ne_of_empty (h : Inv s) {d k : ℕ} {e : DirEntry}
    (hd : (s.fs.node d).itype=.directory) (hk : (s.fs.node d).slots[k]?=some e) (hinum : e.inum≠0)
    (hdots : isDots e.name=false) (hempty : (s.fs.node e.inum).itype=.directory →
      isEmpty (s.fs.node e.inum).slots=true) : e.inum≠d := by
  intro he
  rw [he] at hempty
  have hl := h.tree.dirs d hd
  have hnil := filter_eq_nil hl.first.1 hl.second.1 (hempty hd)
  have hmem : e∈(s.fs.node d).slots.filter isOther := by
    rw [List.mem_filter,isOther,decide_eq_true hinum,hdots]
    exact ⟨List.mem_of_getElem? hk,rfl⟩
  rw [hnil] at hmem
  cases hmem

theorem typed_of_eq {a b : InodeType} (h : a=b) : a=.empty ∨ b≠.empty := by
  rw [h]
  exact em (b=.empty)

/-- A step changes the links of an inode by as much as the links that are due, unless it makes the
inode or frees a directory with entries. -/
theorem Inv.balance (h : Inv s) (hn : t.fs.ninodes=s.fs.ninodes) (hw : Write s t) (j : ℕ) :
    (s.fs.node j).itype=.empty ∧
        (t.fs.node j).nlink=due t.fs.ninodes t.fs.node j+pend t.stage j ∨
      ((t.fs.node j).itype=.empty ∨ (s.fs.node j).itype≠.empty) ∧
        (t.fs.node j).nlink+(due s.fs.ninodes s.fs.node j+pend s.stage j)=
          (s.fs.node j).nlink+(due t.fs.ninodes t.fs.node j+pend t.stage j) ∨
      ∃ i drops,s.drops=i::drops ∧ frees s.fs i ∧
        ((t.fs.node j).itype=.empty ∨ (s.fs.node j).itype≠.empty) ∧
        (t.fs.node j).nlink+(due s.fs.ninodes s.fs.node j+pend s.stage j)=
          (s.fs.node j).nlink+(due t.fs.ninodes t.fs.node j+pend t.stage j)+
            (s.fs.node i).entries.countP fun e => e.inum=j := by
  rw [hn]
  cases hw with
  | same hnode _ hpend =>
    refine .inr (.inl ⟨typed_of_eq (by rw [hnode]),?_⟩)
    rw [hnode,pend,pend,hpend]
  | raise x hx hused hnode _ hold hpend =>
    refine .inr (.inl ⟨typed_of_eq (by rw [hnode,itype_write]),?_⟩)
    rw [hnode,due_links (h.tree.range x hused).2,
      pend_none hold,pend_some hpend]
    obtain rfl | hj := eq_or_ne j x
    · rw [Function.update_self,if_pos rfl]
      dsimp only
      omega
    · rw [Function.update_of_ne hj,if_neg hj.symm]
  | enter x d name _ hd hno hused hnode _ hold hpend =>
    refine .inr (.inl ⟨typed_of_eq (by rw [hnode,itype_write]),?_⟩)
    have hx := h.pending x hold
    have hno' : ¬(j=d ∧ (s.fs.node x).itype=.directory) := fun hc => hx hc.2
    rw [hnode,due_enter (h.tree.range d (used_of_dir hd)).2 hd (h.tree.isOther hd hno hused),
      pend_some hold,pend_none hpend,if_neg hno']
    obtain rfl | hj := eq_or_ne j d
    · rw [Function.update_self]
      dsimp only
      omega
    · rw [Function.update_of_ne hj]
      omega
  | revert x hx hnode _ hused hold hpend =>
    refine .inr (.inl ⟨typed_of_eq (by rw [hnode,itype_write]),?_⟩)
    rw [hnode,due_links (h.tree.range x hused).2,
      pend_some hold,pend_none hpend]
    obtain rfl | hj := eq_or_ne j x
    · rw [Function.update_self,if_pos rfl]
      dsimp only
      omega
    · rw [Function.update_of_ne hj,if_neg hj.symm]
  | clear d k e hd hk hinum hdots hlink hdir hnode _ hold hpend =>
    have hne := h.ne_of_empty hd hk hinum hdots fun hed => (hdir hed).1
    have hd' := (h.tree.range d (used_of_dir hd)).2
    have hused := (h.tree.dirs d hd).names e (List.mem_of_getElem? hk) hinum
    have hother : isOther e=true := by
      rw [isOther,decide_eq_true hinum,hdots]
      rfl
    obtain ⟨links,hlinks⟩ : ∃ links,links=if (s.fs.node e.inum).itype=.directory then
        (s.fs.node d).nlink-1 else (s.fs.node d).nlink := ⟨_,rfl⟩
    rw [← hlinks] at hnode
    have hclear := due_clear hd' hd hk hother links j
    obtain ⟨node,hnode'⟩ : ∃ node,node=Function.update s.fs.node d ⟨(s.fs.node d).itype,links,
        place (s.fs.node d).slots k .empty⟩ := ⟨_,rfl⟩
    rw [← hnode'] at hclear hnode
    have hat : ∀ i,i≠d → node i=s.fs.node i := fun i hi => by rw [hnode',Function.update_of_ne hi]
    have hatd : (node d).nlink=links := by rw [hnode',Function.update_self]
    have hself := hat _ hne
    have hlinks' := @due_links _ _ node (h.tree.range _ hused).2
      ((s.fs.node e.inum).nlink-1) j
    rw [hself] at hlinks'
    refine .inr (.inl ⟨typed_of_eq ?_,?_⟩)
    · rw [hnode]
      obtain rfl | hj := eq_or_ne j e.inum
      · rw [Function.update_self]
      · rw [Function.update_of_ne hj,hnode',itype_write]
    rw [hnode,hlinks',pend_none hold,pend_none hpend]
    obtain rfl | hj := eq_or_ne j e.inum
    · rw [if_pos rfl,if_neg fun hc => hne hc.1] at hclear
      rw [Function.update_self]
      dsimp only
      omega
    · rw [if_neg hj.symm] at hclear
      rw [Function.update_of_ne hj]
      obtain rfl | hjd := eq_or_ne j d
      · rw [hatd]
        by_cases hed : (s.fs.node e.inum).itype=.directory
        · rw [if_pos ⟨rfl,hed⟩] at hclear
          rw [if_pos hed] at hlinks
          have hpos := (hdir hed).2
          omega
        · rw [if_neg fun hc => hed hc.2] at hclear
          rw [if_neg hed] at hlinks
          omega
      · rw [if_neg fun hc => hjd hc.1] at hclear
        rw [hat j hjd]
        omega
  | make m i d name _ hd hno hi hpos hlt hnode _ hold hpend =>
    obtain ⟨slots,hs⟩ : ∃ slots,slots=if m.itype=.directory then
        dirLink (dirLink [] dot i) dotDot d else [] := ⟨_,rfl⟩
    rw [← hs] at hnode
    obtain ⟨node,hnode'⟩ : ∃ node,node=Function.update s.fs.node i ⟨m.itype,1,slots⟩ := ⟨_,rfl⟩
    rw [← hnode'] at hnode
    have hdi : d≠i := by
      rintro rfl
      exact used_of_dir hd hi
    have hat : ∀ j,j≠i → node j=s.fs.node j := fun j hj => by rw [hnode',Function.update_of_ne hj]
    have hself := hat d hdi
    have hentries : (⟨m.itype,1,slots⟩ : Node).entries=[] := by
      rw [Node.entries]
      split
      · rename_i hm
        rw [hs,if_pos hm,filter_new hpos.ne']
      · rfl
    have hmake : due s.fs.ninodes node j=due s.fs.ninodes s.fs.node j := by
      rw [hnode']
      exact due_make hlt (entries_of_empty hi) hentries (h.tree.unnamed hi) j
    have hother : isOther ⟨i,name⟩=true := by
      rw [isOther,(h.tree.dirs d hd).isDots_eq_false hno,decide_eq_true hpos.ne']
      rfl
    have hati : node i=⟨m.itype,1,slots⟩ := by rw [hnode',Function.update_self]
    have hm : (node i).itype=m.itype := by rw [hati]
    have henter := fun links => @due_enter _ _ i node name
      (h.tree.range d (used_of_dir hd)).2 (by rw [hself]; exact hd) hother links j
    rw [hself] at henter
    rw [hnode,henter,hmake,hm,pend_none hold,pend_none hpend]
    obtain rfl | hj := eq_or_ne j i
    · refine .inl ⟨hi,?_⟩
      have hno' : ¬(j=d ∧ m.itype=.directory) := fun hc => hdi hc.1.symm
      rw [due_empty h.tree hi,if_pos rfl,if_neg hno',Function.update_of_ne hdi.symm,hati]
    · refine .inr (.inl ⟨typed_of_eq ?_,?_⟩)
      · obtain rfl | hjd := eq_or_ne j d
        · rw [Function.update_self]
        · rw [Function.update_of_ne hjd,hat j hj]
      rw [if_neg hj.symm]
      obtain rfl | hjd := eq_or_ne j d
      · rw [Function.update_self]
        by_cases hmd : m.itype=.directory
        · rw [if_pos hmd,if_pos ⟨rfl,hmd⟩]
          dsimp only
          omega
        · have hno' : ¬(j=j ∧ m.itype=.directory) := fun hc => hmd hc.2
          rw [if_neg hmd,if_neg hno']
      · have hno' : ¬(j=d ∧ m.itype=.directory) := fun hc => hjd hc.1
        rw [if_neg hno',Function.update_of_ne hjd,hat j hj]
  | cut i hi hnode _ hpend =>
    refine .inr (.inl ⟨typed_of_eq (by rw [hnode,itype_write]),?_⟩)
    have hused : (s.fs.node i).itype≠.empty := by
      rw [hi]
      exact InodeType.noConfusion
    have hkeep := due_keep (m:=⟨(s.fs.node i).itype,(s.fs.node i).nlink,[]⟩)
      (h.tree.range i hused).2 rfl (entries_keep rfl fun hdir => by rw [hi] at hdir; cases hdir) j
    rw [hnode,hkeep,pend,pend,hpend]
    obtain rfl | hj := eq_or_ne j i
    · rw [Function.update_self]
    · rw [Function.update_of_ne hj]
  | free i drops hdrops hfree hnode _ hpend =>
    refine .inr (.inr ⟨i,drops,hdrops,hfree,?_,?_⟩)
    · rw [hnode]
      obtain rfl | hj := eq_or_ne j i
      · rw [Function.update_self]
        exact .inl rfl
      · exact typed_of_eq (by rw [Function.update_of_ne hj])
    have hused := h.used i (mem_handles_of_drop (by rw [hdrops]; exact List.mem_cons_self ..))
    have hzero : due s.fs.ninodes s.fs.node i=0 := by
      have hl := h.links i
      rw [hfree.2.2] at hl
      omega
    obtain ⟨-,hsub,hno⟩ := due_eq_zero hzero
    have hall : ∀ d,∀ e∈(s.fs.node d).entries,e.inum≠i := by
      intro d e he
      by_cases hd : (s.fs.node d).itype=.empty
      · rw [entries_of_empty hd] at he
        cases he
      · exact hno d (h.tree.range d hd).2 e he
    have hf := due_free (m:=⟨.empty,(s.fs.node i).nlink,[]⟩) (h.tree.range i hused).2 rfl hall j
    rw [hsub,ite_self,add_zero] at hf
    rw [hnode,pend,pend,hpend]
    obtain rfl | hj := eq_or_ne j i
    · rw [Function.update_self]
      dsimp only
      omega
    · rw [Function.update_of_ne hj]
      omega

end Balance

/-- The directory that `..` of a directory names. -/
def parentOf (s : Fs) (d : ℕ) : ℕ := inumAt (s.node d).slots 1

/-- What is freed is not named by `..` of another directory. -/
def Childless (s : Fs) (i : ℕ) : Prop :=
  ∀ d < s.ninodes,d≠i → (s.node d).itype=.directory → parentOf s d≠i

instance (s : Fs) (i : ℕ) : Decidable (Childless s i) := Nat.decidableBallLT _ _

section Keeping

variable {s t : System} {i : ℕ}

/-- What is freed has no links due, and is named by no other entry. -/
theorem Inv.freed (h : Inv s) {drops : List ℕ} (hdrops : s.drops=i::drops) (hfree : frees s.fs i) :
    (s.fs.node i).itype≠.empty ∧ i≠rootInum ∧ subdirs s.fs.node i=0 ∧
      ∀ d < s.fs.ninodes,∀ e∈(s.fs.node d).entries,e.inum≠i := by
  have hl := h.links i
  rw [hfree.2.2] at hl
  exact ⟨h.used i (mem_handles_of_drop (by rw [hdrops]; exact List.mem_cons_self ..)),
    due_eq_zero (by omega)⟩

/-- The tree stays as it should be. -/
theorem Inv.tree_next (h : Inv s) (hn : t.fs.ninodes=s.fs.ninodes) (hw : Write s t)
    (hcond : ∀ i drops,s.drops=i::drops → frees s.fs i → Childless s.fs i) :
    Tree t.fs.ninodes t.fs.node t.fs.origin := by
  rw [hn]
  cases hw with
  | same hnode horigin _ =>
    rw [hnode,horigin]
    exact h.tree
  | raise x hx hused hnode horigin _ _ =>
    rw [hnode,horigin]
    exact h.tree.keep rfl fun _ => rfl
  | enter x d name _ hd hno hused hnode horigin _ _ =>
    rw [hnode,horigin]
    exact h.tree.enter hd hno hused _
  | revert x hx hnode horigin _ _ _ =>
    rw [hnode,horigin]
    exact h.tree.keep rfl fun _ => rfl
  | clear d k e hd hk hinum hdots hlink hdir hnode horigin _ _ =>
    have hne := h.ne_of_empty hd hk hinum hdots fun hed => (hdir hed).1
    have hself := Function.update_of_ne hne (⟨(s.fs.node d).itype,
      if (s.fs.node e.inum).itype=.directory then (s.fs.node d).nlink-1 else (s.fs.node d).nlink,
      place (s.fs.node d).slots k .empty⟩ : Node) s.fs.node
    rw [hnode,horigin]
    refine (h.tree.clear hd hk hdots _).keep ?_ fun _ => ?_
    · rw [hself]
    · rw [hself]
  | make m i d name _ hd hno hi hpos hlt hnode horigin _ _ =>
    have hdi : d≠i := by
      rintro rfl
      exact used_of_dir hd hi
    have hm : m.itype≠.empty := by cases m <;> exact InodeType.noConfusion
    have hmake := h.tree.make (m:=⟨m.itype,1,
      if m.itype=.directory then dirLink (dirLink [] dot i) dotDot d else []⟩) hi hpos hlt hd hm
      fun hmd => if_pos hmd
    have hself := Function.update_of_ne hdi (⟨m.itype,1,
      if m.itype=.directory then dirLink (dirLink [] dot i) dotDot d else []⟩ : Node) s.fs.node
    have henter := @Tree.enter _ d i _ _ name hmake (by rw [hself]; exact hd)
      (by rw [hself]; exact hno) (by rw [Function.update_self]; exact hm)
      (if m.itype=.directory then (s.fs.node d).nlink+1 else (s.fs.node d).nlink)
    rw [hself] at henter
    rw [hnode,horigin]
    exact henter
  | cut i hi hnode horigin _ =>
    rw [hnode,horigin]
    exact h.tree.keep rfl fun hdir => by rw [hi] at hdir; cases hdir
  | free i drops hdrops hfree hnode horigin _ =>
    obtain ⟨hused,hroot,-,hno⟩ := h.freed hdrops hfree
    have hpar : ∀ j,j≠i → (s.fs.node j).itype=.directory → s.fs.origin j≠i := by
      intro j hj hdir
      rw [← (h.tree.dirs j hdir).second.2]
      exact hcond i drops hdrops hfree j (h.tree.range j (used_of_dir hdir)).2 hj hdir
    rw [hnode,horigin]
    exact h.tree.free hroot (h.tree.not_named hused hno hpar) hpar _

/-- The types of what stays in use stay. -/
theorem itype_next (hw : Write s t) (hi : (s.fs.node i).itype≠.empty)
    (hu : (t.fs.node i).itype≠.empty) : (t.fs.node i).itype=(s.fs.node i).itype := by
  cases hw with
  | same hnode _ _ => rw [hnode]
  | raise x _ _ hnode _ _ _ =>
    rw [hnode]
    exact itype_write _ _ i
  | enter x d name _ _ _ _ hnode _ _ _ =>
    rw [hnode]
    exact itype_write _ _ i
  | revert x _ hnode _ _ _ _ =>
    rw [hnode]
    exact itype_write _ _ i
  | clear d k e _ _ _ _ _ _ hnode _ _ _ =>
    rw [hnode]
    obtain rfl | hie := eq_or_ne i e.inum
    · rw [Function.update_self]
    · rw [Function.update_of_ne hie]
      exact itype_write _ _ i
  | make m j d name _ hd _ hj _ _ hnode _ _ _ =>
    rw [hnode]
    obtain rfl | hid := eq_or_ne i d
    · rw [Function.update_self]
    · have hij : i≠j := by
        rintro rfl
        exact hi hj
      rw [Function.update_of_ne hid,Function.update_of_ne hij]
  | cut j _ hnode _ _ =>
    rw [hnode]
    exact itype_write _ _ i
  | free j drops _ _ hnode _ _ =>
    have hij : i≠j := by
      rintro rfl
      rw [hnode,Function.update_self] at hu
      exact hu rfl
    rw [hnode,Function.update_of_ne hij]

/-- What gets a new link was about to get it, or is about to be raised. -/
theorem pending_next (hw : Write s t) {x : ℕ} (hx : pending t.stage=some x) :
    pending s.stage=some x ∨ (s.fs.node x).itype≠.directory ∧ (s.fs.node x).itype≠.empty := by
  cases hw with
  | same _ _ hpend => exact .inl (hpend ▸ hx)
  | raise y hy hused _ _ _ hpend =>
    rw [hpend] at hx
    cases hx
    exact .inr ⟨hy,hused⟩
  | enter _ _ _ _ _ _ _ _ _ _ hpend => rw [hpend] at hx; cases hx
  | revert _ _ _ _ _ _ hpend => rw [hpend] at hx; cases hx
  | clear _ _ _ _ _ _ _ _ _ _ _ _ hpend => rw [hpend] at hx; cases hx
  | make _ _ _ _ _ _ _ _ _ _ _ _ _ hpend => rw [hpend] at hx; cases hx
  | cut _ _ _ _ hpend => exact .inl (hpend ▸ hx)
  | free _ _ _ _ _ _ hpend => exact .inl (hpend ▸ hx)

/-- What gets a new link is held. -/
theorem mem_stageRefs_of_pending {st : Stage} (h : pending st=some i) : i∈stageRefs st := by
  unfold pending at h
  split at h <;> first
    | (cases h; done)
    | (cases h; simp [stageRefs,goalRefs])

/-- A step keeps what holds between the steps, if nothing else's `..` names what it frees. -/
theorem Inv.next (h : Inv s) (hc : Change s t)
    (hcond : ∀ i drops,s.drops=i::drops → frees s.fs i → Childless s.fs i) : Inv t := by
  refine ⟨h.tree_next hc.ninodes hc.write hcond,fun j => ?_,hc.refs,hc.used,hc.cwds,
    fun x hx => ?_,hc.found,hc.unlinked⟩
  · have hl := h.links j
    obtain ⟨-,hb⟩ | ⟨-,hb⟩ | ⟨i,drops,-,-,-,hb⟩ := h.balance hc.ninodes hc.write j
    · omega
    · omega
    · omega
  · have hu := hc.used x (mem_handles_of_stage (mem_stageRefs_of_pending hx))
    obtain hold | ⟨hnd,hused⟩ := pending_next hc.write hx
    · have hused := h.used x (mem_handles_of_stage (mem_stageRefs_of_pending hold))
      rw [itype_next hc.write hused hu]
      exact h.pending x hold
    · rw [itype_next hc.write hused hu]
      exact hnd

end Keeping

end Xv6Rust.TreeChanges
