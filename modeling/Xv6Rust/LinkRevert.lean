import Xv6Rust.LinkSteps

/-!
# Links that are undone

`sys_link` counts the link before it resolves the new path. If it returns `Err`, it has taken the
link back and has added no entry; if it returns `Ok`, it has counted one link and added one entry,
provided that the new directory still had a link when the entry was written. `sys_link` does not
look at that: a directory that was removed after `namei_parent` found it takes the entry, and is
freed with it.
-/

namespace Xv6Rust.LinkRevert

open Runs DiskLayout SlotTable LinkSteps
open InodeLayer (Name DirEntry isDots dot dotDot)

/-- The inodes that a goal holds. -/
def goalRefs : Goal → List ℕ
  | .parent x => [x]
  | _ => []

/-- The inodes that a process holds where it goes on. -/
def stageRefs : Stage → List ℕ
  | .start g _ => goalRefs g
  | .walk g _ i _ _ => i::goalRefs g
  | .raise x _ => [x]
  | .enter x d _ => [x,d]
  | .revert x held => x::held.toList
  | .remove d _ => [d]
  | .clear d _ y => [d,y]
  | _ => []

/-- The inode that is still to be dropped. -/
def dropRefs : Drop → List ℕ
  | .put i => [i]
  | .free i => [i]
  | .freed i => [i]
  | .unlock _ => []

/-- The inodes that a process holds. -/
def refsOf (c : Proc) : List ℕ := c.drops.flatMap dropRefs++stageRefs c.stage

/-- The locks that a process holds where it goes on. -/
def stageLocks : Stage → List ℕ
  | .revert _ held => held.toList
  | .clear d _ _ => [d]
  | _ => []

/-- The lock that is still to be released. -/
def dropLocks : Drop → List ℕ
  | .free i => [i]
  | .unlock i => [i]
  | _ => []

/-- The locks that a process holds. -/
def locksOf (c : Proc) : List ℕ := c.drops.flatMap dropLocks++stageLocks c.stage

/-- The inode whose new link is counted and has no entry yet. -/
def pending : Stage → Option ℕ
  | .start (.parent x) _ => some x
  | .walk (.parent x) _ _ _ _ => some x
  | .enter x _ _ => some x
  | .revert x _ => some x
  | _ => none

/-- What `sys_link` has done when it is at a stage. -/
def expected : Stage → Option Effect
  | .start (.target _) _ => some .none
  | .walk (.target _) _ _ _ _ => some .none
  | .raise _ _ => some .none
  | .start (.parent x) _ => some (.counted x)
  | .walk (.parent x) _ _ _ _ => some (.counted x)
  | .enter x _ _ => some (.counted x)
  | .revert x _ => some (.counted x)
  | .returned .linkErr => some .none
  | .returned (.linkOk x d name) => some (.linked x d name)
  | _ => none

/-- The number of directories in a directory. -/
def subdirs (s : Fs) (i : ℕ) : ℕ :=
  (s.node i).entries.countP fun e => (s.node e.inum).itype=.directory

/-- A directory begins with `.` and `..`, and if it has other entries, it has a link of its own and
one for every directory in it. -/
structure Tidy (s : Fs) (i : ℕ) : Prop where
  /-- The first entry. -/
  dot : Holds (s.node i).slots 0 dot
  /-- The second entry. -/
  dotDot : Holds (s.node i).slots 1 dotDot
  /-- The links. -/
  links : (s.node i).entries≠[] → 1+subdirs s i≤(s.node i).nlink

/-- The entry that `dir_unlink` has found. -/
structure Found (s : Fs) (d k y : ℕ) : Prop where
  /-- It is in a directory. -/
  isDir : (s.node d).itype=.directory
  /-- The entry. -/
  entry : ∃ e,(s.node d).slots[k]?=some e ∧ e.inum=y ∧ y≠0 ∧ isDots e.name=false

/-- No process is in a call, and the directories are in order. -/
structure Start (s : System) : Prop where
  /-- No calls. -/
  idle : ∀ p,s.proc p=⟨[],.idle⟩
  /-- No locks. -/
  unlocked : ∀ i,s.fs.lock i=none
  /-- What the cache has read is in use. -/
  loaded : ∀ i,s.fs.valid i=true → (s.fs.node i).itype≠.empty
  /-- The first inode is not used. -/
  zero : (s.fs.node 0).itype=.empty
  /-- The directories. -/
  dirs : ∀ i,(s.fs.node i).itype=.directory → Tidy s.fs i

/-- What `sys_link` does when it returns, and what becomes of its inode meanwhile. -/
structure Reverts (s : System) (p : ℕ) : Prop where
  /-- After an error nothing is done. -/
  failed : s.proc p=⟨[],.returned .linkErr⟩ → s.effect p=.none
  /-- After a success one link is counted and one entry added. -/
  succeeded : ∀ x d name,s.proc p=⟨[],.returned (.linkOk x d name)⟩ → s.effect p=.linked x d name
  /-- The inode is not freed before. -/
  kept : ∀ x,pending (s.proc p).stage=some x → (s.fs.node x).itype≠.empty

/-- The directory and the name that `sys_link` is about to lock and to write. -/
def newEntry (c : Proc) : Option (ℕ×Name) :=
  match c.drops,c.stage with
  | [],.enter _ d name => some (d,name)
  | _,_ => none

/-- A directory that `sys_link` writes an entry into has a link. -/
def Attached (s : System) : Label → Prop
  | .run p => ∀ q∈newEntry (s.proc p),lookup (s.fs.node q.1).slots q.2=none → 0<(s.fs.node q.1).nlink
  | _ => True

instance (s : System) : (a : Label) → Decidable (Attached s a)
  | .link _ _ _ => inferInstanceAs (Decidable True)
  | .unlink _ _ => inferInstanceAs (Decidable True)
  | .run p => inferInstanceAs (Decidable (∀ q∈newEntry (s.proc p),_ → _))

/-- What holds between the steps of all processes. -/
structure Inv (s : System) : Prop where
  /-- References are counted. -/
  refs : ∀ i (S : Finset ℕ),∑ p∈S,(refsOf (s.proc p)).count i ≤ s.fs.refs i
  /-- Locks have their holders. -/
  locks : ∀ p,∀ i∈locksOf (s.proc p),s.fs.lock i=some p
  /-- No lock is held twice. -/
  nodup : ∀ p,(locksOf (s.proc p)).Nodup
  /-- What is freed has no links. -/
  freeing : ∀ p i,.free i∈(s.proc p).drops → (s.fs.node i).nlink=0
  /-- Entries that are found stay. -/
  found : ∀ p d k y,(s.proc p).stage=.clear d k y → Found s.fs d k y
  /-- What the cache has read is in use. -/
  loaded : ∀ i,s.fs.valid i=true → (s.fs.node i).itype≠.empty
  /-- The first inode is not used. -/
  zero : (s.fs.node 0).itype=.empty
  /-- What gets a new link stays, and is no directory. -/
  pending : ∀ p x,pending (s.proc p).stage=some x → (s.fs.node x).itype≠.empty ∧
    (s.fs.node x).itype≠.directory ∧ ∀ q,.free x∉(s.proc q).drops
  /-- The directories. -/
  dirs : ∀ i,(s.fs.node i).itype=.directory → Tidy s.fs i
  /-- What is done is what the stage tells. -/
  effect : ∀ p l,expected (s.proc p).stage=some l → s.effect p=l

/-- A process may go on like this, with this effect. -/
structure Moves (s : System) (p : ℕ) (t : Fs) (c : Proc) (e : Effect) : Prop where
  /-- References are counted. -/
  refs : ∀ i,(refsOf c).count i+s.fs.refs i≤(refsOf (s.proc p)).count i+t.refs i
  /-- What others have locked stays. -/
  others : ∀ i q,q≠p → s.fs.lock i=some q → t.lock i=some q ∧ t.node i=s.fs.node i
  /-- The process holds the locks it should. -/
  locks : ∀ i∈locksOf c,t.lock i=some p
  /-- Each once. -/
  nodup : (locksOf c).Nodup
  /-- What is freed has no links. -/
  freeing : ∀ i,.free i∈c.drops → (t.node i).nlink=0
  /-- What is freed was dropped by its last holder. -/
  last : ∀ i,.free i∈c.drops →
    .free i∈(s.proc p).drops ∨ s.fs.refs i=1 ∧ .put i∈(s.proc p).drops
  /-- An entry that is found is there. -/
  found : ∀ d k y,c.stage=.clear d k y → Found t d k y
  /-- What the cache has read is in use. -/
  loaded : ∀ i,t.valid i=true → (t.node i).itype≠.empty
  /-- Only what is freed becomes empty. -/
  types : ∀ i,(t.node i).itype=(s.fs.node i).itype ∨
    (t.node i).itype=.empty ∧ .free i∈(s.proc p).drops
  /-- What gets a new link is in use and nobody has it locked. -/
  pending : ∀ x,pending c.stage=some x → pending (s.proc p).stage=some x ∨
    (s.fs.node x).itype≠.empty ∧ (s.fs.node x).itype≠.directory ∧ s.fs.lock x=none ∧
      (s.proc p).drops=[]
  /-- The directories. -/
  dirs : ∀ i,(t.node i).itype=.directory → Tidy t i
  /-- What is done is what the stage tells. -/
  effect : ∀ l,expected c.stage=some l → e=l

/-- One step of a process may do this. -/
abbrev Fair (s : System) (p : ℕ) (t : Fs) (c : Proc) : Prop :=
  Moves s p t c ((s.effect p).add s.fs t)

/-- A lock that is free is none of those that are held. -/
theorem ne_of_lock {t : Fs} {i j p : ℕ} (hfree : t.lock i=none) (hl : t.lock j=some p) : j≠i := by
  rintro rfl
  rw [hfree] at hl
  cases hl

section Keeping

variable {s : System} {t : Fs} {c : Proc} {e : Effect} {p q i x : ℕ}

/-- The inode that gets a link is held. -/
theorem mem_refsOf_of_pending (h : pending c.stage=some x) : x∈stageRefs c.stage := by
  unfold pending at h
  split at h <;> first
    | (cases h; done)
    | (rename_i he; cases h; rw [he]; simp [stageRefs,goalRefs])

/-- Two processes that hold an inode count twice. -/
theorem Inv.two_le (h : Inv s) (hne : p≠q) (hp : i∈refsOf (s.proc p)) (hq : i∈refsOf (s.proc q)) :
    2 ≤ s.fs.refs i := by
  have hsum := h.refs i {p,q}
  rw [Finset.sum_pair hne] at hsum
  have h1 := List.count_pos_iff.mpr hp
  have h2 := List.count_pos_iff.mpr hq
  omega

/-- A process that drops an inode and holds it still counts twice. -/
theorem Inv.two_le_of_put (h : Inv s) (hd : .put i∈(s.proc p).drops)
    (hs : i∈stageRefs (s.proc p).stage) : 2 ≤ s.fs.refs i := by
  have hsum := h.refs i {p}
  rw [Finset.sum_singleton,refsOf,List.count_append] at hsum
  have h1 : 0<((s.proc p).drops.flatMap dropRefs).count i :=
    List.count_pos_iff.mpr (List.mem_flatMap.mpr ⟨_,hd,List.mem_singleton_self i⟩)
  have h2 := List.count_pos_iff.mpr hs
  omega

theorem mem_refsOf_of_put (hd : .put i∈c.drops) : i∈refsOf c :=
  List.mem_append_left _ (List.mem_flatMap.mpr ⟨_,hd,List.mem_singleton_self i⟩)

theorem mem_locksOf_of_free (hd : .free i∈c.drops) : i∈locksOf c :=
  List.mem_append_left _ (List.mem_flatMap.mpr ⟨_,hd,List.mem_singleton_self i⟩)

/-- What gets a link has not become empty. -/
theorem Inv.pending_stays (h : Inv s) (hf : Moves s p t c e)
    (hx : LinkRevert.pending (s.proc q).stage=some x) : (t.node x).itype=(s.fs.node x).itype := by
  obtain ht | ⟨-,hfree⟩ := hf.types x
  · exact ht
  · exact absurd hfree ((h.pending q x hx).2.2 p)

/-- References stay counted. -/
theorem Inv.refs_step (h : Inv s) (hf : Moves s p t c e) (i : ℕ) (S : Finset ℕ) :
    ∑ q∈S,(refsOf (Function.update s.proc p c q)).count i≤t.refs i := by
  have hsum := h.refs i (insert p (S.erase p))
  rw [Finset.sum_insert (Finset.notMem_erase p S)] at hsum
  have hold : ∑ q∈S.erase p,(refsOf (Function.update s.proc p c q)).count i=
      ∑ q∈S.erase p,(refsOf (s.proc q)).count i := by
    refine Finset.sum_congr rfl fun q hq => ?_
    rw [Function.update_of_ne (Finset.ne_of_mem_erase hq)]
  have hp := hf.refs i
  by_cases hmem : p∈S
  · rw [← Finset.add_sum_erase S _ hmem,hold,Function.update_self]
    omega
  · rw [Finset.erase_eq_of_notMem hmem] at hold hsum
    rw [hold]
    omega

/-- A process that goes on keeps what holds between steps. -/
theorem Inv.moves (h : Inv s) (hf : Moves s p t c e) :
    Inv {s with
      fs := t
      proc := Function.update s.proc p c
      effect := Function.update s.effect p e} := by
  have hat : ∀ q,q≠p → Function.update s.proc p c q=s.proc q := fun q hq =>
    Function.update_of_ne hq ..
  have hself : Function.update s.proc p c p=c := Function.update_self ..
  constructor
  · exact h.refs_step hf
  · intro q i hi
    by_cases hq : q=p
    · cases hq
      exact hf.locks i (hself ▸ hi)
    · exact (hf.others i q hq (h.locks q i (hat q hq ▸ hi))).1
  · intro q
    show (locksOf (Function.update s.proc p c q)).Nodup
    by_cases hq : q=p
    · rw [hq,hself]
      exact hf.nodup
    · rw [hat q hq]
      exact h.nodup q
  · intro q i hi
    by_cases hq : q=p
    · cases hq
      exact hf.freeing i (hself ▸ hi)
    · have hi : .free i∈(s.proc q).drops := hat q hq ▸ hi
      have hl := h.locks q i (mem_locksOf_of_free hi)
      show (t.node i).nlink=0
      rw [(hf.others i q hq hl).2]
      exact h.freeing q i hi
  · intro q d k y hs
    by_cases hq : q=p
    · cases hq
      exact hf.found d k y (hself ▸ hs)
    · have hs : (s.proc q).stage=.clear d k y := hat q hq ▸ hs
      have hl := h.locks q d (List.mem_append_right _ (by rw [hs]; exact List.mem_singleton_self d))
      obtain ⟨hdir,hentry⟩ := h.found q d k y hs
      have hn := (hf.others d q hq hl).2
      exact ⟨hn ▸ hdir,hn ▸ hentry⟩
  · exact hf.loaded
  · obtain ht | ht := hf.types 0
    · exact ht.trans h.zero
    · exact ht.1
  · intro q x hx
    by_cases hq : q=p
    · cases hq
      have hx : LinkRevert.pending c.stage=some x := hself ▸ hx
      obtain hold | ⟨hne,hnd,hl,hdrops⟩ := hf.pending x hx
      · obtain ⟨hne,hnd,hfree⟩ := h.pending p x hold
        have ht := h.pending_stays hf hold
        refine ⟨ht ▸ hne,ht ▸ hnd,fun r hr => ?_⟩
        by_cases hrp : r=p
        · cases hrp
          obtain hmem | ⟨hone,hput⟩ := hf.last x (hself ▸ hr)
          · exact hfree p hmem
          · have htwo := h.two_le_of_put hput (mem_refsOf_of_pending hold)
            omega
        · exact hfree r (hat r hrp ▸ hr)
      · have hno : ∀ r,.free x∉(s.proc r).drops := fun r hr => by
          rw [h.locks r x (mem_locksOf_of_free hr)] at hl
          cases hl
        have ht : (t.node x).itype=(s.fs.node x).itype := by
          obtain ht | ⟨-,hfree⟩ := hf.types x
          · exact ht
          · exact absurd hfree (hno p)
        refine ⟨ht ▸ hne,ht ▸ hnd,fun r hr => ?_⟩
        by_cases hrp : r=p
        · cases hrp
          obtain hmem | ⟨-,hput⟩ := hf.last x (hself ▸ hr)
          · exact hno p hmem
          · rw [hdrops] at hput
            cases hput
        · exact hno r (hat r hrp ▸ hr)
    · have hx : LinkRevert.pending (s.proc q).stage=some x := hat q hq ▸ hx
      obtain ⟨hne,hnd,hfree⟩ := h.pending q x hx
      have ht := h.pending_stays hf hx
      refine ⟨ht ▸ hne,ht ▸ hnd,fun r hr => ?_⟩
      by_cases hrp : r=p
      · cases hrp
        obtain hmem | ⟨hone,hput⟩ := hf.last x (hself ▸ hr)
        · exact hfree p hmem
        · have htwo := h.two_le hq (List.mem_append_right _ (mem_refsOf_of_pending hx))
            (mem_refsOf_of_put hput)
          omega
      · exact hfree r (hat r hrp ▸ hr)
  · exact hf.dirs
  · intro q l hl
    by_cases hq : q=p
    · cases hq
      show Function.update s.effect p _ p=l
      rw [Function.update_self]
      exact hf.effect l (hself ▸ hl)
    · show Function.update s.effect p _ q=l
      rw [Function.update_of_ne hq]
      exact h.effect q l (hat q hq ▸ hl)

end Keeping

section Same

variable {s : System} {t : Fs} {c : Proc} {p : ℕ} {st st' : Stage} {d : Drop} {ds : List Drop}

/-- Directories are in order as long as the inodes are. -/
theorem Tidy.same {u v : Fs} {i : ℕ} (h : Tidy u i) (hnode : v.node=u.node) : Tidy v i := by
  refine ⟨?_,?_,?_⟩
  · rw [hnode]
    exact h.dot
  · rw [hnode]
    exact h.dotDot
  · rw [subdirs,hnode]
    exact h.links

theorem Found.same {u v : Fs} {d k y : ℕ} (h : Found u d k y) (hnode : v.node=u.node) :
    Found v d k y := by
  refine ⟨?_,?_⟩
  · rw [hnode]
    exact h.isDir
  · rw [hnode]
    exact h.entry

/-- A step that changes no inode has no effect. -/
theorem add_same {l : Effect} {u v : Fs} (hnode : v.node=u.node) : l.add u v=l := by
  refine Effect.ext ?_ ?_
  · funext i
    simp only [Effect.add,hnode,sub_self,add_zero]
  · funext i e
    simp only [Effect.add,hnode,sub_self,add_zero]

/-- A step that changes no inode. -/
theorem Inv.fair_same (h : Inv s) (hnode : t.node=s.fs.node)
    (hrefs : ∀ i,(refsOf c).count i+s.fs.refs i≤(refsOf (s.proc p)).count i+t.refs i)
    (hothers : ∀ i q,q≠p → s.fs.lock i=some q → t.lock i=some q)
    (hlocks : ∀ i∈locksOf c,t.lock i=some p) (hnodup : (locksOf c).Nodup)
    (hfree : ∀ i,.free i∈c.drops → .free i∈(s.proc p).drops ∨
      (s.fs.refs i=1 ∧ .put i∈(s.proc p).drops) ∧ (s.fs.node i).nlink=0)
    (hfound : ∀ d k y,c.stage=.clear d k y → Found s.fs d k y)
    (hloaded : ∀ i,t.valid i=true → s.fs.valid i=true ∨ (s.fs.node i).itype≠.empty)
    (hpending : ∀ x,LinkRevert.pending c.stage=some x → LinkRevert.pending (s.proc p).stage=some x)
    (hexpected : ∀ l,expected c.stage=some l → expected (s.proc p).stage=some l) :
    Fair s p t c where
  refs := hrefs
  others i q hq hl := ⟨hothers i q hq hl,by rw [hnode]⟩
  locks := hlocks
  nodup := hnodup
  freeing i hi := by
    rw [hnode]
    obtain hold | ⟨-,hzero⟩ := hfree i hi
    · exact h.freeing p i hold
    · exact hzero
  last i hi := (hfree i hi).imp_right And.left
  found d k y hs := (hfound d k y hs).same hnode
  loaded i hi := by
    rw [hnode]
    exact (hloaded i hi).elim (h.loaded i) id
  types i := .inl (by rw [hnode])
  pending x hx := .inl (hpending x hx)
  dirs i hi := (h.dirs i (by rw [← hnode]; exact hi)).same hnode
  effect l hl := by
    rw [add_same hnode]
    exact h.effect p l (hexpected l hl)

/-- A step that changes no inode and no lock. -/
theorem Inv.fair_still (h : Inv s) (hnode : t.node=s.fs.node) (hlock : t.lock=s.fs.lock)
    (hrefs : ∀ i,(refsOf c).count i+s.fs.refs i≤(refsOf (s.proc p)).count i+t.refs i)
    (hlocks : (locksOf c).Sublist (locksOf (s.proc p)))
    (hfree : ∀ i,.free i∈c.drops → .free i∈(s.proc p).drops)
    (hfound : ∀ d k y,c.stage=.clear d k y → (s.proc p).stage=.clear d k y)
    (hloaded : ∀ i,t.valid i=true → s.fs.valid i=true ∨ (s.fs.node i).itype≠.empty)
    (hpending : ∀ x,LinkRevert.pending c.stage=some x → LinkRevert.pending (s.proc p).stage=some x)
    (hexpected : ∀ l,expected c.stage=some l → expected (s.proc p).stage=some l) :
    Fair s p t c := by
  refine h.fair_same hnode hrefs (fun i q _ hl => by rw [hlock]; exact hl) (fun i hi => ?_)
    ((h.nodup p).sublist hlocks) (fun i hi => .inl (hfree i hi))
    (fun d k y hs => h.found p d k y (hfound d k y hs)) hloaded hpending hexpected
  rw [hlock]
  exact h.locks p i (hlocks.subset hi)

end Same

section Dropping

variable {s : System} {t : Fs} {p i : ℕ} {st : Stage} {d : Drop} {ds ds' : List Drop}

theorem refsOf_cons : refsOf ⟨d::ds,st⟩=dropRefs d++refsOf ⟨ds,st⟩ := by
  rw [refsOf,List.flatMap_cons,List.append_assoc,refsOf]

theorem locksOf_cons : locksOf ⟨d::ds,st⟩=dropLocks d++locksOf ⟨ds,st⟩ := by
  rw [locksOf,List.flatMap_cons,List.append_assoc,locksOf]

/-- The count of a reference goes with it. -/
theorem count_drop {n j : ℕ} (hd : dropRefs d=[i]) (hr : s.fs.refs i=n+1) :
    (refsOf ⟨ds,st⟩).count j+s.fs.refs j≤
      (refsOf ⟨d::ds,st⟩).count j+(Function.update s.fs.refs i n) j := by
  rw [refsOf_cons,hd,List.count_append,List.count_singleton]
  by_cases hj : j=i
  · rw [hj,Function.update_self,if_pos (beq_self_eq_true i),hr]
    omega
  · rw [Function.update_of_ne hj]
    omega

/-- Directories stay in order when inodes become empty. -/
theorem Tidy.shrink {u v : Fs} {i : ℕ} (h : Tidy u i) (hi : v.node i=u.node i)
    (hdir : ∀ j,(v.node j).itype=.directory → (u.node j).itype=.directory) : Tidy v i := by
  refine ⟨?_,?_,fun he => ?_⟩
  · rw [hi]
    exact h.dot
  · rw [hi]
    exact h.dotDot
  · rw [hi] at he ⊢
    refine le_trans (Nat.add_le_add_left ?_ 1) (h.links he)
    rw [subdirs,subdirs,hi]
    refine List.countP_mono_left fun e _ hd => ?_
    rw [decide_eq_true_iff] at hd ⊢
    exact hdir e.inum hd

/-- An inode without links has no entries. -/
theorem Inv.entries_eq_nil (h : Inv s) (hzero : (s.fs.node i).nlink=0) : (s.fs.node i).entries=[] := by
  by_cases hdir : (s.fs.node i).itype=.directory
  · by_contra hne
    have hlinks := (h.dirs i hdir).links hne
    omega
  · rw [Node.entries,if_neg hdir]

/-- The last holder empties an inode. -/
theorem Inv.free_fair (h : Inv s) (hc : s.proc p=⟨.free i::ds,st⟩) :
    Fair s p (((s.fs.setNode i ⟨.empty,(s.fs.node i).nlink,[]⟩).setValid i false).setLock i none)
      ⟨.freed i::ds,st⟩ := by
  have hlocks : locksOf (s.proc p)=i::locksOf ⟨.freed i::ds,st⟩ := by
    rw [hc,locksOf_cons,locksOf_cons]
    rfl
  have hnodup := h.nodup p
  rw [hlocks,List.nodup_cons] at hnodup
  have hmem : .free i∈(s.proc p).drops := by
    rw [hc]
    exact List.mem_cons_self ..
  have hlock := h.locks p i (by rw [hlocks]; exact List.mem_cons_self ..)
  have hother : ∀ j,j≠i → (((s.fs.setNode i ⟨.empty,(s.fs.node i).nlink,[]⟩).setValid i
      false).setLock i none).node j=s.fs.node j := fun j hj => Function.update_of_ne hj ..
  have hhere : (((s.fs.setNode i ⟨.empty,(s.fs.node i).nlink,[]⟩).setValid i false).setLock i
      none).node i=⟨.empty,(s.fs.node i).nlink,[]⟩ := Function.update_self ..
  have hne : ∀ j,j∈locksOf ⟨.freed i::ds,st⟩ → j≠i := by
    rintro j hj rfl
    exact hnodup.1 hj
  have hzero := h.freeing p i hmem
  constructor
  · intro j
    rw [hc,refsOf_cons,refsOf_cons]
    exact le_refl _
  · intro j q hq hl
    have hj : j≠i := by
      rintro rfl
      rw [hlock] at hl
      cases hl
      exact hq rfl
    exact ⟨(Function.update_of_ne hj ..).trans hl,hother j hj⟩
  · intro j hj
    refine (Function.update_of_ne (hne j hj) ..).trans (h.locks p j ?_)
    rw [hlocks]
    exact List.mem_cons_of_mem _ hj
  · exact hnodup.2
  · intro j hj
    have hold : .free j∈(s.proc p).drops := by
      rw [hc]
      exact List.mem_cons_of_mem _ ((List.mem_cons.mp hj).resolve_left Drop.noConfusion)
    by_cases e : j=i
    · rw [e,hhere]
      exact hzero
    · rw [hother j e]
      exact h.freeing p j hold
  · intro j hj
    refine .inl ?_
    rw [hc]
    exact List.mem_cons_of_mem _ ((List.mem_cons.mp hj).resolve_left Drop.noConfusion)
  · intro d k y hs
    have hd : d≠i := hne d (List.mem_append_right _ (by rw [hs]; exact List.mem_singleton_self d))
    obtain ⟨hdir,hentry⟩ := h.found p d k y (by rw [hc]; exact hs)
    exact ⟨by rw [hother d hd]; exact hdir,by rw [hother d hd]; exact hentry⟩
  · intro j hj
    by_cases e : j=i
    · rw [e] at hj
      exact absurd ((Function.update_self ..).symm.trans hj) Bool.false_ne_true
    · rw [hother j e]
      exact h.loaded j ((Function.update_of_ne e ..).symm.trans hj)
  · intro j
    by_cases e : j=i
    · rw [e,hhere]
      exact .inr ⟨rfl,hmem⟩
    · exact .inl (by rw [hother j e])
  · intro x hx
    refine .inl ?_
    rw [hc]
    exact hx
  · intro j hj
    have e : j≠i := by
      rintro rfl
      rw [hhere] at hj
      cases hj
    rw [hother j e] at hj
    refine (h.dirs j hj).shrink (hother j e) fun k hk => ?_
    by_cases ek : k=i
    · rw [ek,hhere] at hk
      cases hk
    · rw [← hother k ek]
      exact hk
  · intro l hl
    rw [← h.effect p l (by rw [hc]; exact hl)]
    refine Effect.ext (funext fun j => ?_) (funext fun j => funext fun e => ?_)
    · by_cases ej : j=i
      · simp only [Effect.add,ej,hhere,sub_self,add_zero]
      · simp only [Effect.add,hother j ej,sub_self,add_zero]
    · by_cases ej : j=i
      · have hnil : (⟨.empty,(s.fs.node i).nlink,[]⟩ : Node).entries=[] := rfl
        simp only [Effect.add,Node.count,ej,hhere,hnil,h.entries_eq_nil hzero,sub_self,add_zero]
      · simp only [Effect.add,hother j ej,sub_self,add_zero]

/-- What is dropped is dropped fairly. -/
theorem Inv.drop_fair (h : Inv s) (hc : s.proc p=⟨d::ds,st⟩) (hd : drop s.fs p d=.next (t,ds')) :
    Fair s p t ⟨ds'++ds,st⟩ := by
  have hstage : (s.proc p).stage=st := by rw [hc]
  have hmem : ∀ i,.free i∈ds → .free i∈(s.proc p).drops := fun i hi => by
    rw [hc]
    exact List.mem_cons_of_mem _ hi
  have hsub : (locksOf ⟨ds,st⟩).Sublist (locksOf (s.proc p)) := by
    rw [hc,locksOf_cons]
    exact List.sublist_append_right ..
  cases d with
  | put i =>
    rw [drop] at hd
    split at hd
    · rename_i hone
      split at hd
      · cases hd
      · rename_i hfree
        have hfree := not_not.mp hfree
        split at hd
        · cases hd
          refine h.fair_still rfl rfl (fun j => ?_) hsub hmem (fun d k y hs => hstage.trans hs)
            (fun j hj => .inl ?_) (fun x hx => hstage ▸ hx) fun l hl => hstage ▸ hl
          · rw [hc]
            exact count_drop rfl hone
          · by_cases e : j=i
            · rw [e] at hj
              exact absurd ((Function.update_self ..).symm.trans hj) Bool.false_ne_true
            · exact (Function.update_of_ne e ..).symm.trans hj
        · rename_i hlast
          cases hd
          refine h.fair_same rfl (fun j => ?_) (fun j q hq hl => ?_) (fun j hj => ?_) ?_
            (fun j hj => ?_) (fun d k y hs => h.found p d k y (hstage.trans hs))
            (fun j hj => .inl hj) (fun x hx => hstage ▸ hx) fun l hl => hstage ▸ hl
          · rw [hc,refsOf_cons]
            exact le_refl _
          · exact (Function.update_of_ne (ne_of_lock hfree hl) ..).trans hl
          · obtain rfl | hj := List.mem_cons.mp hj
            · exact Function.update_self ..
            · have hl := h.locks p j (hsub.subset hj)
              exact (Function.update_of_ne (ne_of_lock hfree hl) ..).trans hl
          · refine List.nodup_cons.mpr ⟨fun hj => ?_,(h.nodup p).sublist hsub⟩
            have hl := h.locks p i (hsub.subset hj)
            rw [hfree] at hl
            cases hl
          · obtain e | hj := List.mem_cons.mp hj
            · cases e
              refine .inr ⟨⟨hone,?_⟩,by omega⟩
              rw [hc]
              exact List.mem_cons_self ..
            · exact .inl (hmem j hj)
    · split at hd
      · cases hd
      · rename_i hpos
        cases hd
        refine h.fair_still rfl rfl (fun j => ?_) hsub hmem (fun d k y hs => hstage.trans hs)
          (fun j hj => .inl hj) (fun x hx => hstage ▸ hx) fun l hl => hstage ▸ hl
        rw [hc]
        exact count_drop rfl (Nat.succ_pred_eq_of_ne_zero hpos).symm
  | free i =>
    cases hd
    exact h.free_fair hc
  | freed i =>
    rw [drop] at hd
    split at hd
    · cases hd
    · rename_i hpos
      split at hd
      · cases hd
      · cases hd
        refine h.fair_still rfl rfl (fun j => ?_) hsub hmem (fun d k y hs => hstage.trans hs)
          (fun j hj => .inl hj) (fun x hx => hstage ▸ hx) fun l hl => hstage ▸ hl
        rw [hc]
        exact count_drop rfl (Nat.succ_pred_eq_of_ne_zero hpos).symm
  | unlock i =>
    cases hd
    have hnodup := h.nodup p
    have hlock := h.locks p i
    have hlocks : locksOf (s.proc p)=i::locksOf ⟨ds,st⟩ := by
      rw [hc,locksOf_cons]
      rfl
    rw [hlocks,List.nodup_cons] at hnodup
    rw [hlocks] at hlock
    refine h.fair_same rfl (fun j => ?_) (fun j q hq hl => ?_) (fun j hj => ?_) hnodup.2
      (fun j hj => .inl (hmem j hj)) (fun d k y hs => h.found p d k y (hstage.trans hs))
      (fun j hj => .inl hj) (fun x hx => hstage ▸ hx) fun l hl => hstage ▸ hl
    · rw [hc,refsOf_cons]
      exact le_refl _
    · refine (Function.update_of_ne ?_ ..).trans hl
      rintro rfl
      rw [hlock (List.mem_cons_self ..)] at hl
      cases hl
      exact hq rfl
    · refine (Function.update_of_ne ?_ ..).trans (h.locks p j (hsub.subset hj))
      rintro rfl
      exact hnodup.1 hj

end Dropping

section Acting

variable {s : System} {t : Fs} {c : Proc} {p i x d y k : ℕ} {st : Stage} {g : Goal}
  {path : List UInt8} {name : Name}

/-- What is done with a lock is done when nobody has it and the inode is in use. -/
theorem Inv.locking_eq (h : Inv s) {f : Fs → Outcome Panic (Fs×Proc)} {r : Fs×Proc}
    (hr : locking s.fs i f=.next r) :
    s.fs.lock i=none ∧ (s.fs.node i).itype≠.empty ∧ f (s.fs.setValid i true)=.next r := by
  rw [locking] at hr
  split at hr
  · cases hr
  · rename_i hfree
    split at hr
    · cases hr
    · rename_i hused
      refine ⟨not_not.mp hfree,fun he => ?_,hr⟩
      cases hv : s.fs.valid i with
      | false => exact hused ⟨hv,he⟩
      | true => exact h.loaded i hv he

/-- An inode that is locked is in use. -/
theorem loaded_setValid {u : Fs} (hused : (u.node i).itype≠.empty) {v : ℕ → Bool}
    (hv : v=Function.update u.valid i true) (j : ℕ) (hj : v j=true) :
    u.valid j=true ∨ (u.node j).itype≠.empty := by
  rw [hv] at hj
  by_cases e : j=i
  · rw [e]
    exact .inr hused
  · rw [Function.update_of_ne e] at hj
    exact .inl hj

/-- The count of a new reference. -/
theorem update_add_one (r : ℕ → ℕ) (i j : ℕ) :
    Function.update r i (r i+1) j=r j+if (i==j)=true then 1 else 0 := by
  by_cases e : i=j
  · rw [e,Function.update_self,if_pos (beq_self_eq_true j)]
  · rw [Function.update_of_ne (Ne.symm e),if_neg (by rwa [beq_iff_eq]),add_zero]

/-- A process that has dropped everything goes on without a lock and without a change. -/
theorem Inv.fair_act (h : Inv s) (hc : s.proc p=⟨[],st⟩) (hnode : t.node=s.fs.node)
    (hlock : t.lock=s.fs.lock)
    (hrefs : ∀ j,(refsOf c).count j+s.fs.refs j≤(stageRefs st).count j+t.refs j)
    (hlocks : (locksOf c).Sublist (stageLocks st)) (hfree : ∀ j,.free j∉c.drops)
    (hfound : ∀ d k y,c.stage≠.clear d k y)
    (hloaded : ∀ j,t.valid j=true → s.fs.valid j=true ∨ (s.fs.node j).itype≠.empty)
    (hpending : ∀ x,LinkRevert.pending c.stage=some x → LinkRevert.pending st=some x)
    (hexpected : ∀ l,expected c.stage=some l → expected st=some l) : Fair s p t c := by
  refine h.fair_still hnode hlock (fun j => ?_) ?_ (fun j hj => absurd hj (hfree j))
    (fun d k y hs => absurd hs (hfound d k y)) hloaded ?_ ?_
  · rw [hc]
    exact hrefs j
  · rw [hc]
    exact hlocks
  · rw [hc]
    exact hpending
  · rw [hc]
    exact hexpected

/-- `namex` takes its first inode. -/
theorem Inv.start_fair (h : Inv s) (hc : s.proc p=⟨[],.start g path⟩) (i : ℕ) :
    Fair s p (s.fs.retain i) ⟨[],.walk g path i 0 fun _ => 0⟩ := by
  refine h.fair_act hc rfl rfl (fun j => ?_) (List.Sublist.refl _) (fun j hj => by cases hj)
    (fun d k y hs => by cases hs) (fun j hj => .inl hj) (fun x hx => ?_) fun l hl => ?_
  · show (i::goalRefs g).count j+s.fs.refs j≤(goalRefs g).count j+
      Function.update s.fs.refs i (s.fs.refs i+1) j
    rw [update_add_one,List.count_cons]
    omega
  · cases g <;> exact hx
  · cases g <;> exact hl

/-- `namex` gives up. -/
theorem Inv.failed_fair (h : Inv s) {cur : ℕ} (hc : s.proc p=⟨[],.walk g path i cur name⟩)
    (hnode : t.node=s.fs.node) (hlock : t.lock=s.fs.lock) (hrefs : t.refs=s.fs.refs)
    (hloaded : ∀ j,t.valid j=true → s.fs.valid j=true ∨ (s.fs.node j).itype≠.empty) :
    Fair s p t ⟨[.put i],g.failed⟩ := by
  refine h.fair_act hc hnode hlock (fun j => ?_) ?_ (fun j hj => ?_) (fun d k y hs => ?_) hloaded
    (fun x hx => ?_) fun l hl => ?_
  · have he : refsOf ⟨[.put i],g.failed⟩=i::goalRefs g := by cases g <;> rfl
    rw [he,hrefs]
    exact le_refl _
  · have he : locksOf ⟨[.put i],g.failed⟩=[] := by cases g <;> rfl
    rw [he]
    exact List.nil_sublist _
  · cases List.mem_singleton.mp hj
  · cases g <;> cases hs
  · cases g with
    | parent y => exact hx
    | target path => cases hx
    | victim => cases hx
  · cases g with
    | parent y => exact hl
    | target path => exact hl
    | victim => cases hl

/-- `namex` has found what it should. -/
theorem Inv.found_fair (h : Inv s) {cur : ℕ} {elem : Name}
    (hc : s.proc p=⟨[],.walk g path i cur name⟩) (hnode : t.node=s.fs.node) (hlock : t.lock=s.fs.lock) (hrefs : t.refs=s.fs.refs)
    (hloaded : ∀ j,t.valid j=true → s.fs.valid j=true ∨ (s.fs.node j).itype≠.empty) :
    Fair s p t ⟨[],g.found i elem⟩ := by
  refine h.fair_act hc hnode hlock (fun j => ?_) ?_ (fun j hj => by cases hj) (fun d k y hs => ?_)
    hloaded (fun x hx => ?_) fun l hl => ?_
  · have he : (refsOf ⟨[],g.found i elem⟩).Perm (i::goalRefs g) := by
      cases g with
      | parent y => exact List.Perm.swap ..
      | target path => exact List.Perm.refl _
      | victim => exact List.Perm.refl _
    rw [he.count_eq,hrefs]
    exact le_refl _
  · have he : locksOf ⟨[],g.found i elem⟩=[] := by cases g <;> rfl
    rw [he]
    exact List.nil_sublist _
  · cases g <;> cases hs
  · cases g with
    | parent y => exact hx
    | target path => cases hx
    | victim => cases hx
  · cases g with
    | parent y => exact hl
    | target path => exact hl
    | victim => cases hl

/-- One pass of `namex` is fair. -/
theorem Inv.walk_fair (h : Inv s) {cur : ℕ} (hc : s.proc p=⟨[],.walk g path i cur name⟩)
    (ht : walkStep s.fs g path i cur name=.next (t,c)) : Fair s p t c := by
  rw [walkStep] at ht
  split at ht
  · split at ht
    · cases ht
      exact h.failed_fair hc rfl rfl rfl fun j hj => .inl hj
    · cases ht
      exact h.found_fair hc rfl rfl rfl fun j hj => .inl hj
  · obtain ⟨-,hused,ht⟩ := h.locking_eq ht
    have hloaded := loaded_setValid hused rfl
    split at ht
    · cases ht
      exact h.failed_fair hc rfl rfl rfl hloaded
    · split at ht
      · cases ht
        exact h.found_fair hc rfl rfl rfl hloaded
      · split at ht
        · cases ht
          exact h.failed_fair hc rfl rfl rfl hloaded
        · cases ht
          refine h.fair_act hc rfl rfl (fun j => ?_) (List.Sublist.refl _) (fun j hj => ?_)
            (fun d k y hs => by cases hs) hloaded (fun x hx => ?_) fun l hl => ?_
          · show (i::_::goalRefs g).count j+s.fs.refs j≤(i::goalRefs g).count j+
              Function.update s.fs.refs _ (s.fs.refs _+1) j
            rw [update_add_one,List.count_cons,List.count_cons,List.count_cons]
            omega
          · cases List.mem_singleton.mp hj
          · cases g <;> exact hx
          · cases g <;> exact hl

end Acting

section Changing

variable {s : System} {t : Fs} {c : Proc} {p i x d y k n : ℕ} {st : Stage} {held : Option ℕ}
  {path : List UInt8} {name : Name}

/-- What a change of a number of links does. -/
theorem add_links {l : Effect} {u v : Fs}
    (hnode : v.node=Function.update u.node x ⟨(u.node x).itype,n,(u.node x).slots⟩) :
    l.add u v=⟨fun i => l.links i+if i=x then (n : ℤ)-(u.node x).nlink else 0,l.entries⟩ := by
  refine Effect.ext (funext fun i => ?_) (funext fun i => funext fun e => ?_)
  · by_cases hi : i=x
    · simp only [Effect.add,hnode,hi,Function.update_self,if_true]
    · simp only [Effect.add,hnode,Function.update_of_ne hi,if_neg hi,sub_self]
  · by_cases hi : i=x
    · simp only [Effect.add,hnode,hi,Function.update_self,Node.count,Node.entries,sub_self,add_zero]
    · simp only [Effect.add,hnode,Function.update_of_ne hi,sub_self,add_zero]

/-- The links of an inode that is no directory are counted anew. -/
theorem Inv.fair_links (h : Inv s) (hc : s.proc p=⟨[],st⟩) (hfree : s.fs.lock x=none)
    (hused : (s.fs.node x).itype≠.empty) (hfile : (s.fs.node x).itype≠.directory)
    (hnode : t.node=Function.update s.fs.node x ⟨(s.fs.node x).itype,n,(s.fs.node x).slots⟩)
    (hvalid : t.valid=Function.update s.fs.valid x true) (hlock : t.lock=s.fs.lock)
    (hrefs : ∀ j,(refsOf c).count j+s.fs.refs j≤(stageRefs st).count j+t.refs j)
    (hlocks : (locksOf c).Sublist (stageLocks st)) (hdrops : ∀ j,.free j∉c.drops)
    (hfound : ∀ d k y,c.stage≠.clear d k y)
    (hpending : ∀ y,LinkRevert.pending c.stage=some y → y=x)
    (hexpected : ∀ l,expected c.stage=some l → ∃ l₀,expected st=some l₀ ∧
      (⟨fun i => l₀.links i+if i=x then (n : ℤ)-(s.fs.node x).nlink else 0,l₀.entries⟩ : Effect)=l) :
    Fair s p t c := by
  have hother : ∀ j,j≠x → t.node j=s.fs.node j := fun j hj => by
    rw [hnode,Function.update_of_ne hj]
  have htype : ∀ j,(t.node j).itype=(s.fs.node j).itype := fun j => by
    by_cases hj : j=x
    · rw [hnode,hj,Function.update_self]
    · rw [hother j hj]
  constructor
  · intro j
    rw [hc]
    exact hrefs j
  · intro j q _ hl
    exact ⟨by rw [hlock]; exact hl,hother j (ne_of_lock hfree hl)⟩
  · intro j hj
    rw [hlock]
    refine h.locks p j ?_
    rw [hc]
    exact hlocks.subset hj
  · refine (h.nodup p).sublist ?_
    rw [hc]
    exact hlocks
  · exact fun j hj => absurd hj (hdrops j)
  · exact fun j hj => absurd hj (hdrops j)
  · exact fun d k y hs => absurd hs (hfound d k y)
  · intro j hj
    rw [htype]
    exact (loaded_setValid hused hvalid j hj).elim (h.loaded j) id
  · exact fun j => .inl (htype j)
  · intro y hy
    refine .inr ?_
    rw [hpending y hy,hc]
    exact ⟨hused,hfile,hfree,rfl⟩
  · intro j hj
    have hne : j≠x := by
      rintro rfl
      exact hfile ((htype j).symm.trans hj)
    rw [htype] at hj
    exact (h.dirs j hj).shrink (hother j hne) fun k hk => (htype k).symm.trans hk
  · intro l hl
    obtain ⟨l₀,h0,he⟩ := hexpected l hl
    rw [add_links hnode,h.effect p l₀ (by rw [hc]; exact h0)]
    exact he

/-- `sys_link` counts the new link. -/
theorem Inv.raise_fair (h : Inv s) (hc : s.proc p=⟨[],.raise x path⟩)
    (ht : raiseStep s.fs x path=.next (t,c)) : Fair s p t c := by
  rw [raiseStep] at ht
  obtain ⟨hfree,hused,ht⟩ := h.locking_eq ht
  dsimp only at ht
  split at ht
  · cases ht
    refine h.fair_act hc rfl rfl (fun j => le_refl _) (List.Sublist.refl _) (fun j hj => ?_)
      (fun d k y hs => by cases hs) (loaded_setValid hused rfl) (fun x hx => by cases hx)
      fun l hl => hl
    cases List.mem_singleton.mp hj
  · rename_i hfile
    split at ht
    · cases ht
    · cases ht
      refine h.fair_links hc hfree hused hfile rfl rfl rfl (fun j => le_refl _)
        (List.Sublist.refl _) (fun j hj => by cases hj) (fun d k y hs => by cases hs)
        (fun y hy => by cases hy; rfl) fun l hl => ⟨_,rfl,?_⟩
      cases hl
      refine Effect.ext (funext fun i => ?_) rfl
      simp only [Effect.none,Effect.counted,Fs.setValid]
      split
      · push_cast
        omega
      · rfl

/-- `sys_link` takes the new link back. -/
theorem Inv.revert_fair (h : Inv s) (hc : s.proc p=⟨[],.revert x held⟩)
    (ht : revertStep s.fs x held=.next (t,c)) : Fair s p t c := by
  unfold revertStep at ht
  obtain ⟨hfree,hused,ht⟩ := h.locking_eq ht
  have hfile := (h.pending p x (by rw [hc]; rfl)).2.1
  dsimp only at ht
  split at ht
  · cases ht
  · rename_i hpos
    cases ht
    have hexpected : ∀ l,expected (.returned .linkErr)=some l →
        ∃ l₀,expected (.revert x held)=some l₀ ∧ (⟨fun i => l₀.links i+if i=x then
          (((s.fs.node x).nlink-1 : ℕ) : ℤ)-(s.fs.node x).nlink else 0,l₀.entries⟩ : Effect)=l := by
      intro l hl
      cases hl
      refine ⟨_,rfl,Effect.ext (funext fun i => ?_) rfl⟩
      have hn : (s.fs.node x).nlink≠0 := hpos
      simp only [Effect.none,Effect.counted]
      split
      · omega
      · rfl
    cases held with
    | none =>
      refine h.fair_links hc hfree hused hfile rfl rfl rfl (fun j => le_refl _)
        (List.Sublist.refl _) (fun j hj => ?_) (fun d k y hs => by cases hs)
        (fun y hy => by cases hy) hexpected
      cases List.mem_singleton.mp hj
    | some d =>
      refine h.fair_links hc hfree hused hfile rfl rfl rfl (fun j => le_refl _)
        (List.Sublist.refl _) (fun j hj => ?_) (fun d k y hs => by cases hs)
        (fun y hy => by cases hy) hexpected
      simp at hj

/-- The directories in a directory are counted among its slots. -/
theorem subdirs_eq {u v : Fs} (hdir : (v.node i).itype=.directory)
    (htype : ∀ j,(v.node j).itype=(u.node j).itype) : subdirs v i=
      ((v.node i).slots.filter isOther).countP fun e => (u.node e.inum).itype=.directory := by
  rw [subdirs,Node.entries,if_pos hdir]
  simp only [htype]

/-- `sys_link` finds the name in the new directory. -/
theorem Inv.refuse_fair (h : Inv s) (hc : s.proc p=⟨[],.enter x d name⟩) (hfree : s.fs.lock d=none)
    (hused : (s.fs.node d).itype≠.empty) :
    Fair s p (((s.fs.setValid d true).retain y).setLock d (some p)) ⟨[.put y],.revert x (some d)⟩ := by
  refine h.fair_same rfl (fun j => ?_) (fun j q _ hl => ?_) (fun j hj => ?_)
    (List.nodup_singleton d) (fun j hj => ?_) (fun d k y hs => by cases hs)
    (loaded_setValid hused rfl) (fun z hz => ?_) fun l hl => ?_
  · rw [hc]
    show ([y,x,d]).count j+s.fs.refs j≤([x,d]).count j+
      Function.update s.fs.refs y (s.fs.refs y+1) j
    rw [update_add_one,List.count_cons]
    omega
  · exact (Function.update_of_ne (ne_of_lock hfree hl) ..).trans hl
  · rw [List.mem_singleton.mp hj]
    exact Function.update_self ..
  · cases List.mem_singleton.mp hj
  · rw [hc]
    exact hz
  · rw [hc]
    exact hl

/-- `sys_link` writes its entry into a directory that has a link. -/
theorem Inv.write_fair (h : Inv s) (hc : s.proc p=⟨[],.enter x d name⟩) (hfree : s.fs.lock d=none)
    (hdir : (s.fs.node d).itype=.directory) (hno : lookup (s.fs.node d).slots name=none)
    (hlink : 0<(s.fs.node d).nlink) :
    Fair s p ((s.fs.setValid d true).setNode d ⟨(s.fs.node d).itype,(s.fs.node d).nlink,
      place (s.fs.node d).slots (freeSlot (s.fs.node d).slots) ⟨x,name⟩⟩)
      ⟨[.put d,.put x],.returned (.linkOk x d name)⟩ := by
  obtain ⟨hx,hfile,-⟩ := h.pending p x (by rw [hc]; rfl)
  have htidy := h.dirs d hdir
  have hdots : isDots name=false := by
    refine Bool.eq_false_iff.mpr fun hd => ?_
    obtain ht | ht := isDots_iff.mp hd
    · exact not_holds_of_lookup hno 0 (htidy.dot.congr ht.symm)
    · exact not_holds_of_lookup hno 1 (htidy.dotDot.congr ht.symm)
  have hzero : x≠0 := by
    rintro rfl
    exact hx h.zero
  have hentry : isOther ⟨x,name⟩=true := by
    rw [isOther,hdots,decide_eq_true hzero]
    rfl
  have hcount := fun q => countP_enter q (s.fs.node d).slots ⟨x,name⟩
  generalize hl' : place (s.fs.node d).slots (freeSlot (s.fs.node d).slots) ⟨x,name⟩=l' at hcount ⊢
  have hhere : ((s.fs.setValid d true).setNode d ⟨(s.fs.node d).itype,(s.fs.node d).nlink,
      l'⟩).node d=⟨(s.fs.node d).itype,(s.fs.node d).nlink,l'⟩ := Function.update_self ..
  have hother : ∀ j,j≠d → ((s.fs.setValid d true).setNode d ⟨(s.fs.node d).itype,
      (s.fs.node d).nlink,l'⟩).node j=s.fs.node j := fun j hj => Function.update_of_ne hj ..
  generalize htn : (s.fs.setValid d true).setNode d ⟨(s.fs.node d).itype,(s.fs.node d).nlink,l'⟩=t
    at hhere hother ⊢
  have htype : ∀ j,(t.node j).itype=(s.fs.node j).itype := fun j => by
    by_cases hj : j=d
    · rw [hj,hhere]
    · rw [hother j hj]
  have hrefs : t.refs=s.fs.refs := by rw [← htn]; rfl
  have hlock : t.lock=s.fs.lock := by rw [← htn]; rfl
  have hvalid : t.valid=Function.update s.fs.valid d true := by rw [← htn]; rfl
  constructor
  · intro j
    rw [hc,hrefs]
    show ([d,x]).count j+_≤([x,d]).count j+_
    rw [(List.Perm.swap x d []).count_eq]
  · intro j q _ hl
    exact ⟨by rw [hlock]; exact hl,hother j (ne_of_lock hfree hl)⟩
  · exact fun j hj => by cases hj
  · exact List.nodup_nil
  · exact fun j hj => by simp at hj
  · exact fun j hj => by simp at hj
  · exact fun d k y hs => by cases hs
  · intro j hj
    rw [htype]
    exact (loaded_setValid (by rw [hdir]; decide) hvalid j hj).elim (h.loaded j) id
  · exact fun j => .inl (htype j)
  · exact fun y hy => by cases hy
  · intro j hj
    by_cases hjd : j=d
    · rw [hjd]
      refine ⟨?_,?_,fun _ => ?_⟩
      · rw [hhere,← hl']
        exact htidy.dot.enter _
      · rw [hhere,← hl']
        exact htidy.dotDot.enter _
      · have hsub := hcount fun e => (s.fs.node e.inum).itype=.directory
        rw [if_neg (by simp [hfile]),add_zero,← subdirs_eq hdir fun _ => rfl] at hsub
        have hnew := subdirs_eq (hjd ▸ hj) htype
        rw [hhere,hsub] at hnew
        rw [hnew,hhere]
        by_cases hnil : (s.fs.node d).entries=[]
        · rw [subdirs,hnil]
          exact hlink
        · exact htidy.links hnil
    · rw [htype] at hj
      exact (h.dirs j hj).shrink (hother j hjd) fun k hk => (htype k).symm.trans hk
  · intro l hl
    cases hl
    rw [h.effect p (.counted x) (by rw [hc]; rfl)]
    refine Effect.ext (funext fun i => ?_) (funext fun i => funext fun e => ?_)
    · by_cases hi : i=d
      · simp only [Effect.add,Effect.linked,Effect.counted,hi,hhere,sub_self,add_zero]
      · simp only [Effect.add,Effect.linked,Effect.counted,hother i hi,sub_self,add_zero]
    · by_cases hi : i=d
      · have hnew : (t.node d).count e=(s.fs.node d).count e+if e=⟨x,name⟩ then 1 else 0 := by
          rw [Node.count,Node.count,Node.entries,Node.entries,hhere,if_pos hdir,if_pos hdir,hcount,
            hentry,Bool.and_true]
          refine congrArg _ (if_congr ?_ rfl rfl)
          rw [decide_eq_true_eq,eq_comm,@eq_comm _ name,← DirEntry.mk.injEq]
        simp only [Effect.add,Effect.linked,Effect.counted,hi,hnew,true_and,zero_add]
        split
        · push_cast
          omega
        · push_cast
          omega
      · simp only [Effect.add,Effect.linked,Effect.counted,hother i hi,hi,false_and,if_false,
          sub_self,add_zero]

/-- `sys_link` enters the new directory. -/
theorem Inv.enter_fair (h : Inv s) (hc : s.proc p=⟨[],.enter x d name⟩)
    (hatt : lookup (s.fs.node d).slots name=none → 0<(s.fs.node d).nlink)
    (ht : enterStep s.fs p x d name=.next (t,c)) : Fair s p t c := by
  rw [enterStep] at ht
  obtain ⟨hfree,hused,ht⟩ := h.locking_eq ht
  dsimp only at ht
  split at ht
  · cases ht
  · split at ht
    · cases ht
    · rename_i hdir
      split at ht
      · cases ht
        exact h.refuse_fair hc hfree hused
      · rename_i hno
        split at ht
        · cases ht
        · cases ht
          exact h.write_fair hc hfree (not_not.mp hdir) hno (hatt hno)

/-- `sys_unlink` enters the directory. -/
theorem Inv.remove_fair (h : Inv s) (hc : s.proc p=⟨[],.remove d name⟩)
    (ht : removeStep s.fs p d name=.next (t,c)) : Fair s p t c := by
  rw [removeStep] at ht
  obtain ⟨hfree,hused,ht⟩ := h.locking_eq ht
  have hstop : Fair s p (s.fs.setValid d true) ⟨[.put d],.returned (.unlink false)⟩ := by
    refine h.fair_act hc rfl rfl (fun j => le_refl _) (List.Sublist.refl _) (fun j hj => ?_)
      (fun d k y hs => by cases hs) (loaded_setValid hused rfl) (fun x hx => by cases hx)
      fun l hl => by cases hl
    cases List.mem_singleton.mp hj
  dsimp only at ht
  split at ht
  · cases ht
    exact hstop
  · rename_i hdots
    split at ht
    · cases ht
    · rename_i hdir
      split at ht
      · cases ht
        exact hstop
      · rename_i k hk
        cases ht
        obtain ⟨e,hget,hinum,hname,hat⟩ := lookup_eq_some hk
        refine h.fair_same rfl (fun j => ?_) (fun j q _ hl => ?_) (fun j hj => ?_)
          (List.nodup_singleton d) (fun j hj => by cases hj) (fun d' k' y hs => ?_)
          (loaded_setValid hused rfl) (fun z hz => by cases hz) fun l hl => by cases hl
        · rw [hc]
          show ([d,inumAt (s.fs.node d).slots k]).count j+s.fs.refs j≤([d]).count j+
            Function.update s.fs.refs (inumAt (s.fs.node d).slots k)
              (s.fs.refs (inumAt (s.fs.node d).slots k)+1) j
          rw [update_add_one,(List.Perm.swap ..).count_eq,List.count_cons]
          omega
        · exact (Function.update_of_ne (ne_of_lock hfree hl) ..).trans hl
        · rw [List.mem_singleton.mp hj]
          exact Function.update_self ..
        · cases hs
          refine ⟨not_not.mp hdir,e,hget,hat.symm,?_,?_⟩
          · exact hat ▸ hinum
          · rw [isDots_named hname]
            exact Bool.eq_false_iff.mpr hdots

/-- `dir_unlink` clears an entry and takes its links away. -/
theorem Inv.unlink_fair (h : Inv s) (hc : s.proc p=⟨[],.clear d k y⟩) (hfree : s.fs.lock y=none)
    (hused : (s.fs.node y).itype≠.empty)
    (hfull : ¬((s.fs.node y).itype=.directory ∧ isEmpty (s.fs.node y).slots=false)) :
    Fair s p (((s.fs.setValid y true).setNode d ⟨(s.fs.node d).itype,
        if (s.fs.node y).itype=.directory then (s.fs.node d).nlink-1 else (s.fs.node d).nlink,
        place (s.fs.node d).slots k .empty⟩).setNode y
      ⟨(s.fs.node y).itype,(s.fs.node y).nlink-1,(s.fs.node y).slots⟩)
      ⟨[.put y,.unlock d,.put d],.returned (.unlink true)⟩ := by
  obtain ⟨hdir,e,hk,he,hzero,hdots⟩ := h.found p d k y (by rw [hc])
  have hlockd := h.locks p d (by rw [hc]; exact List.mem_singleton_self d)
  have hyd : y≠d := (ne_of_lock hfree hlockd).symm
  have htidy := h.dirs d hdir
  have hentry : isOther e=true := by
    rw [isOther,hdots,decide_eq_true (he ▸ hzero)]
    rfl
  have hcount := fun q => countP_clear q hk hentry
  generalize hl' : place (s.fs.node d).slots k .empty=l' at hcount ⊢
  generalize hn' : (if (s.fs.node y).itype=.directory then (s.fs.node d).nlink-1
    else (s.fs.node d).nlink)=n'
  generalize htn : ((s.fs.setValid y true).setNode d ⟨(s.fs.node d).itype,n',l'⟩).setNode y
    ⟨(s.fs.node y).itype,(s.fs.node y).nlink-1,(s.fs.node y).slots⟩=t
  have hy : t.node y=⟨(s.fs.node y).itype,(s.fs.node y).nlink-1,(s.fs.node y).slots⟩ := by
    rw [← htn]
    exact Function.update_self ..
  have hd : t.node d=⟨(s.fs.node d).itype,n',l'⟩ := by
    rw [← htn]
    exact (Function.update_of_ne hyd.symm ..).trans (Function.update_self ..)
  have hother : ∀ j,j≠y → j≠d → t.node j=s.fs.node j := fun j hjy hjd => by
    rw [← htn]
    exact (Function.update_of_ne hjy ..).trans (Function.update_of_ne hjd ..)
  have hrefs : t.refs=s.fs.refs := by rw [← htn]; rfl
  have hlock : t.lock=s.fs.lock := by rw [← htn]; rfl
  have hvalid : t.valid=Function.update s.fs.valid y true := by rw [← htn]; rfl
  have htype : ∀ j,(t.node j).itype=(s.fs.node j).itype := fun j => by
    by_cases hjy : j=y
    · rw [hjy,hy]
    · by_cases hjd : j=d
      · rw [hjd,hd]
      · rw [hother j hjy hjd]
  constructor
  · intro j
    rw [hc,hrefs]
    show ([y,d]).count j+_≤([d,y]).count j+_
    rw [(List.Perm.swap d y []).count_eq]
  · intro j q hq hl
    refine ⟨by rw [hlock]; exact hl,hother j ?_ ?_⟩
    · exact ne_of_lock hfree hl
    · rintro rfl
      rw [hlockd] at hl
      cases hl
      exact hq rfl
  · intro j hj
    rw [hlock,List.mem_singleton.mp hj]
    exact hlockd
  · exact List.nodup_singleton d
  · exact fun j hj => by simp at hj
  · exact fun j hj => by simp at hj
  · exact fun d k y hs => by cases hs
  · intro j hj
    rw [htype]
    exact (loaded_setValid hused hvalid j hj).elim (h.loaded j) id
  · exact fun j => .inl (htype j)
  · exact fun x hx => by cases hx
  · intro j hj
    by_cases hjy : j=y
    · rw [hjy] at hj ⊢
      have hydir := (htype y).symm.trans hj
      have hempty := Bool.of_not_eq_false fun hne => hfull ⟨hydir,hne⟩
      have hold := h.dirs y hydir
      refine ⟨?_,?_,fun hne => absurd ?_ hne⟩
      · rw [hy]
        exact hold.dot
      · rw [hy]
        exact hold.dotDot
      · rw [Node.entries,if_pos hj,hy]
        exact filter_eq_nil hold.dot hold.dotDot hempty
    · by_cases hjd : j=d
      · rw [hjd]
        refine ⟨?_,?_,fun _ => ?_⟩
        · rw [hd,← hl']
          exact htidy.dot.clear (by decide) hk hdots
        · rw [hd,← hl']
          exact htidy.dotDot.clear (by decide) hk hdots
        · have hsub := hcount fun e => (s.fs.node e.inum).itype=.directory
          rw [← subdirs_eq hdir fun _ => rfl] at hsub
          have hnew := subdirs_eq (hjd ▸ hj) htype
          rw [hd] at hnew
          have hne : (s.fs.node d).entries≠[] := by
            rw [Node.entries,if_pos hdir]
            exact List.ne_nil_of_mem (List.mem_filter.mpr ⟨List.mem_of_getElem? hk,hentry⟩)
          have hlinks := htidy.links hne
          rw [hnew,hd]
          simp only [decide_eq_true_eq,he] at hsub
          show 1+(l'.filter isOther).countP (fun e => (s.fs.node e.inum).itype=.directory)≤n'
          rw [← hn']
          split
          · rename_i hydir
            rw [if_pos hydir] at hsub
            omega
          · rename_i hyfile
            rw [if_neg hyfile] at hsub
            omega
      · rw [htype] at hj
        exact (h.dirs j hj).shrink (hother j hjy hjd) fun k hk => (htype k).symm.trans hk
  · exact fun l hl => by cases hl

/-- `dir_unlink` locks the inode of the entry. -/
theorem Inv.clear_fair (h : Inv s) (hc : s.proc p=⟨[],.clear d k y⟩)
    (ht : clearStep s.fs d k y=.next (t,c)) : Fair s p t c := by
  rw [clearStep] at ht
  obtain ⟨hfree,hused,ht⟩ := h.locking_eq ht
  dsimp only at ht
  split at ht
  · cases ht
  · split at ht
    · cases ht
      refine h.fair_act hc rfl rfl (fun j => ?_) (List.Sublist.refl _) (fun j hj => by simp at hj)
        (fun d k y hs => by cases hs) (loaded_setValid hused rfl) (fun x hx => by cases hx)
        fun l hl => by cases hl
      show ([y,d]).count j+_≤([d,y]).count j+_
      rw [(List.Perm.swap d y []).count_eq]
      exact le_refl _
    · rename_i hfull
      split at ht
      · cases ht
      · cases ht
        exact h.unlink_fair hc hfree hused hfull

/-- What a process does next is fair. -/
theorem Inv.advance_fair (h : Inv s) (hatt : Attached s (.run p))
    (ht : advance s.fs (s.cwd p) p (s.proc p)=.next (t,c)) : Fair s p t c := by
  rw [advance] at ht
  split at ht
  · rename_i hdrops
    have hc : s.proc p=⟨[],(s.proc p).stage⟩ := by rw [← hdrops]
    unfold act at ht
    split at ht
    · cases ht
    · cases ht
    · rename_i hs
      rw [hs] at hc
      cases ht
      exact h.start_fair hc _
    · rename_i hs
      rw [hs] at hc
      exact h.walk_fair hc ht
    · rename_i hs
      rw [hs] at hc
      exact h.raise_fair hc ht
    · rename_i hs
      rw [hs] at hc
      refine h.enter_fair hc (fun hno => ?_) ht
      exact hatt (_,_) (by rw [hc]; rfl) hno
    · rename_i hs
      rw [hs] at hc
      exact h.revert_fair hc ht
    · rename_i hs
      rw [hs] at hc
      exact h.remove_fair hc ht
    · rename_i hs
      rw [hs] at hc
      exact h.clear_fair hc ht
  · rename_i d ds hdrops
    have hc : s.proc p=⟨d::ds,(s.proc p).stage⟩ := by rw [← hdrops]
    obtain ⟨r,hr,ht⟩ := Outcome.bind_eq_next ht
    cases ht
    exact h.drop_fair hc hr

end Changing

section Running

variable {s t : System} {p : ℕ} {st : Stage} {a : Label}

/-- A process begins a call. -/
theorem Inv.call (h : Inv s) {g : Goal} {path : List UInt8} (hg : goalRefs g=[])
    (hp : LinkRevert.pending (.start g path)=none)
    (he : ∀ l,expected (.start g path)=some l → .none=l) (ht : s.call p (.start g path)=.next t) : Inv t := by
  have hmoves : Moves s p s.fs ⟨[],.start g path⟩ .none := by
    constructor
    · intro j
      rw [refsOf,stageRefs,hg]
      exact Nat.add_le_add_right (Nat.zero_le _) _
    · exact fun j q _ hl => ⟨hl,rfl⟩
    · exact fun j hj => by cases hj
    · exact List.nodup_nil
    · exact fun j hj => by cases hj
    · exact fun j hj => by cases hj
    · exact fun d k y hs => by cases hs
    · exact h.loaded
    · exact fun j => .inl rfl
    · intro x hx
      rw [hp] at hx
      cases hx
    · exact h.dirs
    · exact he
  rw [System.call] at ht
  split at ht
  · cases ht
    exact h.moves hmoves
  · cases ht

/-- A step that writes entries into directories that have links. -/
theorem Inv.step (h : Inv s) (hatt : Attached s a) (ht : step s a=.next t) : Inv t := by
  cases a with
  | link p old new => exact h.call rfl rfl (fun l hl => by cases hl; rfl) ht
  | unlink p path => exact h.call rfl rfl (fun l hl => by cases hl) ht
  | run p =>
    obtain ⟨r,hr,ht⟩ := Outcome.bind_eq_next ht
    cases ht
    exact h.moves (h.advance_fair hatt hr)

theorem Start.inv (h : Start s) : Inv s := by
  refine ⟨fun i S => ?_,fun p i hi => ?_,fun p => ?_,fun p i hi => ?_,fun p d k y hs => ?_,h.loaded,
    h.zero,fun p x hx => ?_,h.dirs,fun p l hl => ?_⟩
  · refine le_trans (le_of_eq (Finset.sum_eq_zero fun p _ => ?_)) (Nat.zero_le _)
    rw [h.idle p]
    rfl
  · rw [h.idle p] at hi
    cases hi
  · rw [h.idle p]
    exact List.nodup_nil
  · rw [h.idle p] at hi
    cases hi
  · rw [h.idle p] at hs
    cases hs
  · rw [h.idle p] at hx
    cases hx
  · rw [h.idle p] at hl
    cases hl

end Running

/-- In a run in which `sys_link` writes its entries into directories that have links, a call that
returns `Err` has done nothing, a call that returns `Ok` has counted one link and added one entry,
and an inode that gets a new link is not freed. -/
theorem link_reverts {s t : System} {as : List Label} (hs : Start s)
    (hg : Guarded step Attached s as) (hr : run step s as=.next t) (p : ℕ) : Reverts t p := by
  have h : Inv t := run_invariant (fun _ _ _ hi ha ht => hi.step ha ht) hs.inv hg hr
  refine ⟨fun hp => ?_,fun x d name hp => ?_,fun x hx => (h.pending p x hx).1⟩
  · exact h.effect p _ (by rw [hp]; rfl)
  · exact h.effect p _ (by rw [hp]; rfl)

/-- A name of one byte. -/
def letter (c : UInt8) : Name := fun i => if i.val=0 then c else 0

/-- A root with a file `f` and an empty directory `D`. -/
def nodes : ℕ → Node
  | 1 => ⟨.directory,2,[⟨1,dot⟩,⟨1,dotDot⟩,⟨2,letter 0x66⟩,⟨3,letter 0x44⟩]⟩
  | 2 => ⟨.file,1,[]⟩
  | 3 => ⟨.directory,1,[⟨3,dot⟩,⟨1,dotDot⟩]⟩
  | _ => ⟨.empty,0,[]⟩

/-- Two processes have the root as current directory. -/
def twoProcesses : System :=
  ⟨⟨nodes,fun _ => false,fun i => if i=1 then 2 else 0,fun _ => none⟩,fun _ => ⟨[],.idle⟩,fun _ => 1,
    fun _ => .none⟩

theorem twoProcesses_start : Start twoProcesses where
  idle _ := rfl
  unlocked _ := rfl
  loaded _ h := absurd h Bool.false_ne_true
  zero := rfl
  dirs i h := by
    have hcases : i=1 ∨ i=2 ∨ i=3 ∨ nodes i=⟨.empty,0,[]⟩ := by
      unfold nodes
      split <;> simp
    obtain rfl | rfl | rfl | he := hcases
    · exact ⟨⟨_,rfl,by decide,by decide⟩,⟨_,rfl,by decide,by decide⟩,fun _ => by decide⟩
    · cases h
    · exact ⟨⟨_,rfl,by decide,by decide⟩,⟨_,rfl,by decide,by decide⟩,fun _ => by decide⟩
    · change (nodes i).itype=.directory at h
      rw [he] at h
      cases h

/-- The first process calls `link("/f","/D/g")` and finds `D`. -/
def linkBegins : List Label :=
  .link 0 [0x2f,0x66] [0x2f,0x44,0x2f,0x67]::List.replicate 9 (.run 0)

/-- The second process removes `f` meanwhile, then the first goes on. -/
def oldNameRemoved : List Label :=
  linkBegins++.unlink 1 [0x2f,0x66]::(List.replicate 7 (.run 1)++List.replicate 3 (.run 0))

/-- The second process removes `D` meanwhile, then the first goes on. -/
def newParentRemoved : List Label :=
  linkBegins++.unlink 1 [0x2f,0x44]::(List.replicate 7 (.run 1)++List.replicate 5 (.run 0))

/-- `sys_link` has returned `Ok` for this inode, directory and name. -/
def returnedOk (x d : ℕ) (name : Name) (c : Proc) : Bool :=
  match c.drops,c.stage with
  | [],.returned (.linkOk x' d' name') => x'=x ∧ d'=d ∧ name'=name
  | _,_ => false

theorem eq_of_returnedOk {x d : ℕ} {name : Name} {c : Proc} (h : returnedOk x d name c=true) :
    c=⟨[],.returned (.linkOk x d name)⟩ := by
  unfold returnedOk at h
  split at h
  · rename_i hdrops hstage
    obtain ⟨rfl,rfl,rfl⟩ := of_decide_eq_true h
    rw [← hdrops,← hstage]
  · cases h

theorem link_reverts_oldNameRemoved : ∃ t,run step twoProcesses oldNameRemoved=.next t ∧
    t.proc 0=⟨[],.returned (.linkOk 2 3 (letter 0x67))⟩ ∧ Reverts t 0 := by
  obtain ⟨t,hr,ht⟩ : ∃ t,run step twoProcesses oldNameRemoved=.next t ∧
      returnedOk 2 3 (letter 0x67) (t.proc 0)=true := Outcome.exists_of_test (by decide +kernel)
  exact ⟨t,hr,eq_of_returnedOk ht,link_reverts twoProcesses_start (by decide +kernel) hr 0⟩

/-- The entry that `link` returned `Ok` for is gone with the directory. -/
theorem new_entry_lost : ∃ s as t p,Start s ∧ run step s as=.next t ∧ ¬Reverts t p := by
  obtain ⟨t,hr,ht⟩ : ∃ t,run step twoProcesses newParentRemoved=.next t ∧
      (returnedOk 2 3 (letter 0x67) (t.proc 0) &&
        decide ((t.effect 0).entries 3 ⟨2,letter 0x67⟩=0))=true :=
    Outcome.exists_of_test (by decide +kernel)
  obtain ⟨hp,he⟩ := (Bool.and_eq_true ..).mp ht
  have he := of_decide_eq_true he
  refine ⟨twoProcesses,newParentRemoved,t,0,twoProcesses_start,hr,fun h => ?_⟩
  rw [h.succeeded 2 3 (letter 0x67) (eq_of_returnedOk hp)] at he
  exact absurd he (by decide)

end Xv6Rust.LinkRevert
