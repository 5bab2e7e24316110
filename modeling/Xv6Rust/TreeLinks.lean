import Xv6Rust.TreeParents

/-!
# Links are counted exactly

The number of links of an inode is the number of entries that name it, with one more for the root,
one for each directory in it, and one while `sys_link` is about to add its entry. An inode with
links is reached from the root, and one without is held by somebody. This is so as long as no entry
is made in a directory that was removed: with that directory the entry would be freed, and the link
would stay.
-/

namespace Xv6Rust.TreeLinks

open Runs DiskLayout SlotTable TreeSteps TreeCounts TreeChanges TreeParents
open InodeLayer (Name DirEntry isDots dot dotDot rootInum)
open LinkSteps (Node lookup isOther freeSlot_le freeSlot_cases)

/-- The directory and the name of an entry that is about to be made. -/
def newEntry : Stage → Option (ℕ×Name)
  | .enter _ d name => some (d,name)
  | .make _ d name => some (d,name)
  | _ => none

/-- No entry is made in a directory that was removed. -/
def Attached (s : System) : Label → Prop
  | .run => s.drops=[] → ∀ q∈newEntry s.stage,lookup (s.fs.node q.1).slots q.2=none →
    0 < (s.fs.node q.1).nlink
  | _ => True

instance (s : System) : (a : Label) → Decidable (Attached s a)
  | .run => inferInstanceAs (Decidable (s.drops=[] → ∀ q∈newEntry s.stage,_ → _))
  | .link _ _ _ => inferInstanceAs (Decidable True)
  | .unlink _ _ => inferInstanceAs (Decidable True)
  | .mkdir _ _ => inferInstanceAs (Decidable True)
  | .mknod _ _ _ => inferInstanceAs (Decidable True)
  | .open _ _ _ => inferInstanceAs (Decidable True)
  | .chdir _ _ => inferInstanceAs (Decidable True)
  | .close _ => inferInstanceAs (Decidable True)
  | .fork _ => inferInstanceAs (Decidable True)
  | .exit _ => inferInstanceAs (Decidable True)
  | .noBlock => inferInstanceAs (Decidable True)

/-- No parent is freed, and no entry is made in a directory that was removed. -/
def Orderly (s : System) (a : Label) : Prop := SparesParents s a ∧ Attached s a

instance (s : System) (a : Label) : Decidable (Orderly s a) :=
  inferInstanceAs (Decidable (_ ∧ _))

/-- An entry names the inode. -/
def Named (node : ℕ → Node) (i : ℕ) : Prop := ∃ d,∃ e∈(node d).entries,e.inum=i

/-- The inodes that are reached from the root. -/
inductive Reached (node : ℕ → Node) : ℕ → Prop where
  /-- The root. -/
  | root : Reached node rootInum
  /-- What an entry of a directory that is reached names. -/
  | entry (d : ℕ) (e : DirEntry) (h : Reached node d) (he : e∈(node d).entries) :
    Reached node e.inum

/-- Links are exact, and directories with entries are where they should be. -/
structure Exact (s : System) : Prop where
  /-- What holds between the steps. -/
  inv : Inv s
  /-- The links. -/
  links : ∀ i,(s.fs.node i).itype≠.empty →
    (s.fs.node i).nlink=due s.fs.ninodes s.fs.node i+pend s.stage i
  /-- A directory with entries is the root or is named. -/
  attached : ∀ i,(s.fs.node i).entries≠[] → i=rootInum ∨ Named s.fs.node i
  /-- Directories in directories have a greater rank. -/
  ranked : ∃ rank : ℕ → ℕ,∀ d,∀ e∈(s.fs.node d).entries,(s.fs.node e.inum).itype=.directory →
    rank d < rank e.inum

section Entries

variable {node : ℕ → Node} {d i j k x links : ℕ} {e e' : DirEntry} {name : Name} {m : Node}

/-- A new entry is the only new one. -/
theorem mem_entries_dirLink (hd : (node d).itype=.directory)
    (he : e∈(⟨(node d).itype,links,dirLink (node d).slots name x⟩ : Node).entries) :
    e∈(node d).entries ∨ e=⟨x,name⟩ := by
  rw [Node.entries,if_pos hd,List.mem_filter] at he
  obtain hmem | heq := mem_dirLink he.1
  · refine .inl ?_
    rw [Node.entries,if_pos hd,List.mem_filter]
    exact ⟨hmem,he.2⟩
  · exact .inr heq

/-- The old entries stay. -/
theorem mem_dirLink_entries (hd : (node d).itype=.directory) (he : e∈(node d).entries) :
    e∈(⟨(node d).itype,links,dirLink (node d).slots name x⟩ : Node).entries := by
  rw [Node.entries,if_pos hd,List.mem_filter] at he ⊢
  refine ⟨?_,he.2⟩
  obtain ⟨j,hj⟩ := List.mem_iff_getElem?.mp he.1
  have hne : j≠LinkSteps.freeSlot (node d).slots := by
    rintro rfl
    obtain ⟨e',hk,hfree⟩ | hend := freeSlot_cases (node d).slots
    · rw [hj] at hk
      cases hk
      have hother := he.2
      rw [isOther,hfree] at hother
      cases hother
    · exact absurd (List.getElem?_eq_some_iff.mp hj).1 (by omega)
  refine List.mem_of_getElem? (i:=j) ?_
  rw [dirLink,getElem?_place (freeSlot_le _),if_neg hne,hj]

/-- No entry is new when one is cleared. -/
theorem mem_entries_clear (hd : (node d).itype=.directory)
    (he : e∈(⟨(node d).itype,links,place (node d).slots k .empty⟩ : Node).entries) :
    e∈(node d).entries := by
  rw [Node.entries,if_pos hd,List.mem_filter] at he
  rw [Node.entries,if_pos hd,List.mem_filter]
  obtain hmem | rfl := mem_clear he.1
  · exact ⟨hmem,he.2⟩
  · cases he.2

/-- The other entries stay. -/
theorem mem_clear_entries (hd : (node d).itype=.directory) (hk : (node d).slots[k]?=some e')
    (he : e∈(node d).entries) (hne : e≠e') :
    e∈(⟨(node d).itype,links,place (node d).slots k .empty⟩ : Node).entries := by
  rw [Node.entries,if_pos hd,List.mem_filter] at he ⊢
  refine ⟨?_,he.2⟩
  obtain ⟨j,hj⟩ := List.mem_iff_getElem?.mp he.1
  have hjk : j≠k := by
    rintro rfl
    rw [hk] at hj
    cases hj
    exact hne rfl
  refine List.mem_of_getElem? (i:=j) ?_
  rw [getElem?_place (List.getElem?_eq_some_iff.mp hk).1.le,if_neg hjk,hj]

end Entries

section Keeping

variable {s t : System} {d i j x : ℕ} {e : DirEntry}

/-- A directory that may get an entry is the root or is named. -/
theorem Exact.placed (h : Exact s) (hd : (s.fs.node d).itype=.directory)
    (hlink : 0 < (s.fs.node d).nlink) : d=rootInum ∨ Named s.fs.node d := by
  by_cases hroot : d=rootInum
  · exact .inl hroot
  by_cases hnil : (s.fs.node d).entries=[]
  · have hpend : pend s.stage d=0 := by
      refine if_neg fun hp => ?_
      exact h.inv.pending d hp hd
    have hlinks := h.links d (used_of_dir hd)
    have hsub : subdirs s.fs.node d=0 := by
      rw [subdirs,hnil,List.countP_nil]
    rw [hpend,due,if_neg hroot,hsub] at hlinks
    have hnamed : named s.fs.ninodes s.fs.node d≠0 := by omega
    obtain ⟨d',-,hcount⟩ := Finset.exists_ne_zero_of_sum_ne_zero hnamed
    obtain ⟨e,he,heq⟩ := List.countP_pos_iff.mp (Nat.pos_of_ne_zero hcount)
    exact .inr ⟨d',e,he,of_decide_eq_true heq⟩
  · exact h.attached d hnil

/-- The links stay exact when no entries are lost. -/
theorem Exact.links_next (h : Exact s) (hc : Change s t)
    (hlost : ∀ i drops,s.drops=i::drops → frees s.fs i → (s.fs.node i).entries=[])
    (hi : (t.fs.node i).itype≠.empty) :
    (t.fs.node i).nlink=due t.fs.ninodes t.fs.node i+pend t.stage i := by
  obtain ⟨-,hb⟩ | ⟨hu,hb⟩ | ⟨j,drops,hdrops,hfree,hu,hb⟩ := h.inv.balance hc.ninodes hc.write i
  · exact hb
  · have hl := h.links i (hu.resolve_left hi)
    omega
  · have hl := h.links i (hu.resolve_left hi)
    rw [hlost j drops hdrops hfree,List.countP_nil] at hb
    omega

/-- What is freed had no entries. -/
theorem Exact.lost (h : Exact s) {drops : List ℕ} (hdrops : s.drops=i::drops)
    (hfree : frees s.fs i) : (s.fs.node i).entries=[] := by
  obtain ⟨-,hroot,-,hno⟩ := h.inv.freed hdrops hfree
  by_contra hne
  obtain hr | ⟨d,e,he,hei⟩ := h.attached i hne
  · exact hroot hr
  · by_cases hd : (s.fs.node d).itype=.empty
    · rw [entries_of_empty hd] at he
      cases he
    · exact hno d (h.inv.tree.range d hd).2 e he hei

/-- A step that changes no entry and no type. -/
theorem Exact.frame (h : Exact s) (he : ∀ i,(t.fs.node i).entries=(s.fs.node i).entries)
    (ht : ∀ i,(t.fs.node i).itype=(s.fs.node i).itype) :
    (∀ i,(t.fs.node i).entries≠[] → i=rootInum ∨ Named t.fs.node i) ∧
      ∃ rank : ℕ → ℕ,∀ d,∀ e∈(t.fs.node d).entries,(t.fs.node e.inum).itype=.directory →
        rank d < rank e.inum := by
  simp only [Named,he,ht]
  exact ⟨h.attached,h.ranked⟩

/-- The write of an inode with its type and its entries. -/
theorem entries_write {node : ℕ → Node} {slots : List DirEntry}
    (hs : (node d).itype=.directory → slots=(node d).slots) (links i : ℕ) :
    (Function.update node d ⟨(node d).itype,links,slots⟩ i).entries=(node i).entries := by
  obtain rfl | hi := eq_or_ne i d
  · rw [Function.update_self]
    exact entries_keep (by rfl) hs
  · rw [Function.update_of_ne hi]

/-- Directories with entries stay where they should be. -/
theorem Exact.attached_next (h : Exact s) (hw : Write s t)
    (hnew : ∀ d name,newEntry s.stage=some (d,name) → s.drops=[] →
      lookup (s.fs.node d).slots name=none → 0 < (s.fs.node d).nlink) :
    (∀ i,(t.fs.node i).entries≠[] → i=rootInum ∨ Named t.fs.node i) ∧
      ∃ rank : ℕ → ℕ,∀ d,∀ e∈(t.fs.node d).entries,(t.fs.node e.inum).itype=.directory →
        rank d < rank e.inum := by
  cases hw with
  | same hnode _ _ => exact h.frame (fun i => by rw [hnode]) fun i => by rw [hnode]
  | raise x _ _ hnode _ _ _ =>
    refine h.frame (fun i => ?_) fun i => ?_
    · rw [hnode,entries_write fun _ => rfl]
    · rw [hnode,itype_write]
  | enter x d name hst hd hno hused hnode _ hold _ =>
    have hplaced := h.placed hd (hnew d name (by rw [hst.2]; rfl) hst.1 hno)
    have htype : ∀ i,(t.fs.node i).itype=(s.fs.node i).itype := fun i => by
      rw [hnode,itype_write]
    have hold' : ∀ i,∀ e∈(s.fs.node i).entries,e∈(t.fs.node i).entries := by
      intro i e he
      rw [hnode]
      obtain rfl | hi := eq_or_ne i d
      · rw [Function.update_self]
        exact mem_dirLink_entries hd he
      · rw [Function.update_of_ne hi]
        exact he
    have hnew' : ∀ i,∀ e∈(t.fs.node i).entries,e∈(s.fs.node i).entries ∨ e=⟨x,name⟩ := by
      intro i e he
      rw [hnode] at he
      obtain rfl | hi := eq_or_ne i d
      · rw [Function.update_self] at he
        exact mem_entries_dirLink hd he
      · rw [Function.update_of_ne hi] at he
        exact .inl he
    have hnamed : ∀ i,Named s.fs.node i → Named t.fs.node i := fun i hi => by
      obtain ⟨d',e,he,hei⟩ := hi
      exact ⟨d',e,hold' d' e he,hei⟩
    obtain ⟨rank,hrank⟩ := h.ranked
    refine ⟨fun i hi => ?_,rank,fun d' e he hdir => ?_⟩
    · obtain rfl | hid := eq_or_ne i d
      · exact hplaced.imp_right (hnamed i)
      · rw [hnode,Function.update_of_ne hid] at hi
        exact (h.attached i hi).imp_right (hnamed i)
    · rw [htype] at hdir
      obtain he | rfl := hnew' d' e he
      · exact hrank d' e he hdir
      · exact absurd hdir (h.inv.pending x hold)
  | revert x _ hnode _ _ _ _ =>
    refine h.frame (fun i => ?_) fun i => ?_
    · rw [hnode,entries_write fun _ => rfl]
    · rw [hnode,itype_write]
  | clear d k e hd hk hinum hdots hlink hdir hnode _ _ _ =>
    have hne := h.inv.ne_of_empty hd hk hinum hdots fun hed => (hdir hed).1
    obtain ⟨links,hlinks⟩ : ∃ links,links=if (s.fs.node e.inum).itype=.directory then
        (s.fs.node d).nlink-1 else (s.fs.node d).nlink := ⟨_,rfl⟩
    rw [← hlinks] at hnode
    have hself := Function.update_of_ne hne (⟨(s.fs.node d).itype,links,
      place (s.fs.node d).slots k .empty⟩ : Node) s.fs.node
    have hentries : ∀ i,(t.fs.node i).entries=(Function.update s.fs.node d ⟨(s.fs.node d).itype,
        links,place (s.fs.node d).slots k .empty⟩ i).entries := fun i => by
      rw [hnode,← hself]
      exact entries_write (fun _ => rfl) _ i
    have htype : ∀ i,(t.fs.node i).itype=(s.fs.node i).itype := fun i => by
      rw [hnode,← hself,itype_write,itype_write]
    have hsub : ∀ i,∀ e'∈(t.fs.node i).entries,e'∈(s.fs.node i).entries := by
      intro i e' he
      rw [hentries] at he
      obtain rfl | hi := eq_or_ne i d
      · rw [Function.update_self] at he
        exact mem_entries_clear hd he
      · rw [Function.update_of_ne hi] at he
        exact he
    have hempty : (s.fs.node e.inum).entries=[] := by
      by_cases hed : (s.fs.node e.inum).itype=.directory
      · have hl := h.inv.tree.dirs e.inum hed
        rw [Node.entries,if_pos hed]
        exact LinkSteps.filter_eq_nil hl.first.1 hl.second.1 (hdir hed).1
      · rw [Node.entries,if_neg hed]
    have hkeep : ∀ i,∀ e'∈(s.fs.node i).entries,e'≠e → e'∈(t.fs.node i).entries := by
      intro i e' he hne'
      rw [hentries]
      obtain rfl | hi := eq_or_ne i d
      · rw [Function.update_self]
        exact mem_clear_entries hd hk he hne'
      · rw [Function.update_of_ne hi]
        exact he
    obtain ⟨rank,hrank⟩ := h.ranked
    refine ⟨fun i hi => ?_,rank,fun d' e' he hed => hrank d' e' (hsub d' e' he) (htype _ ▸ hed)⟩
    obtain ⟨e₀,he₀⟩ := List.exists_mem_of_ne_nil _ hi
    have hs := hsub i e₀ he₀
    obtain hroot | ⟨d',e',he',hei⟩ := h.attached i (List.ne_nil_of_mem hs)
    · exact .inl hroot
    · refine .inr ⟨d',e',hkeep d' e' he' ?_,hei⟩
      rintro rfl
      rw [← hei,hempty] at hs
      cases hs
  | make m i d name hst hd hno hi hpos hlt hnode _ _ _ =>
    have hplaced := h.placed hd (hnew d name (by rw [hst.2]; rfl) hst.1 hno)
    have hdi : d≠i := by
      rintro rfl
      exact used_of_dir hd hi
    have hiempty : (t.fs.node i).entries=[] := by
      rw [hnode,Function.update_of_ne hdi.symm,Function.update_self,Node.entries]
      split
      · exact filter_new hpos.ne'
      · rfl
    have hat : ∀ j,j≠i → j≠d → t.fs.node j=s.fs.node j := fun j hji hjd => by
      rw [hnode,Function.update_of_ne hjd,Function.update_of_ne hji]
    have htype : ∀ j,j≠i → (t.fs.node j).itype=(s.fs.node j).itype := by
      intro j hj
      obtain rfl | hjd := eq_or_ne j d
      · rw [hnode,Function.update_self]
      · rw [hat j hj hjd]
    have hold' : ∀ j,∀ e∈(s.fs.node j).entries,e∈(t.fs.node j).entries := by
      intro j e he
      have hji : j≠i := by
        rintro rfl
        rw [entries_of_empty hi] at he
        cases he
      obtain rfl | hjd := eq_or_ne j d
      · rw [hnode,Function.update_self]
        exact mem_dirLink_entries hd he
      · rw [hat j hji hjd]
        exact he
    have hnew' : ∀ j,∀ e∈(t.fs.node j).entries,
        e∈(s.fs.node j).entries ∨ j=d ∧ e=⟨i,name⟩ := by
      intro j e he
      obtain rfl | hjd := eq_or_ne j d
      · rw [hnode,Function.update_self] at he
        exact (mem_entries_dirLink hd he).imp_right fun heq => ⟨rfl,heq⟩
      · have hji : j≠i := by
          rintro rfl
          rw [hiempty] at he
          cases he
        rw [hat j hji hjd] at he
        exact .inl he
    have hnamed : ∀ j,Named s.fs.node j → Named t.fs.node j := fun j hj => by
      obtain ⟨d',e,he,hej⟩ := hj
      exact ⟨d',e,hold' d' e he,hej⟩
    obtain ⟨rank,hrank⟩ := h.ranked
    refine ⟨fun j hj => ?_,Function.update rank i (rank d+1),fun d' e he hdir => ?_⟩
    · obtain rfl | hjd := eq_or_ne j d
      · exact hplaced.imp_right (hnamed j)
      · have hji : j≠i := by
          rintro rfl
          exact hj hiempty
        rw [hat j hji hjd] at hj
        exact (h.attached j hj).imp_right (hnamed j)
    · have hd' : d'≠i := by
        rintro rfl
        rw [hiempty] at he
        cases he
      rw [Function.update_of_ne hd']
      obtain he | ⟨rfl,rfl⟩ := hnew' d' e he
      · have hei := h.inv.tree.unnamed hi d' e he
        rw [htype _ hei] at hdir
        rw [Function.update_of_ne hei]
        exact hrank d' e he hdir
      · rw [Function.update_self]
        exact Nat.lt_succ_self _
  | cut i hi hnode _ _ =>
    refine h.frame (fun j => ?_) fun j => ?_
    · rw [hnode,entries_write fun hdir => by rw [hi] at hdir; cases hdir]
    · rw [hnode,itype_write]
  | free i drops hdrops hfree hnode _ _ =>
    have hnil := h.lost hdrops hfree
    have hat : ∀ j,j≠i → t.fs.node j=s.fs.node j := fun j hj => by
      rw [hnode,Function.update_of_ne hj]
    have hself : t.fs.node i=⟨.empty,(s.fs.node i).nlink,[]⟩ := by
      rw [hnode,Function.update_self]
    have hentries : ∀ j,(t.fs.node j).entries=(s.fs.node j).entries := by
      intro j
      obtain rfl | hj := eq_or_ne j i
      · rw [hself,hnil]
        rfl
      · rw [hat j hj]
    obtain ⟨rank,hrank⟩ := h.ranked
    simp only [Named,hentries]
    refine ⟨h.attached,rank,fun d e he hdir => hrank d e he ?_⟩
    have hne : e.inum≠i := by
      intro heq
      rw [heq,hself] at hdir
      cases hdir
    rw [← hat _ hne]
    exact hdir

/-- A step keeps the links exact. -/
theorem Exact.step {a : Label} (h : Exact s) (hc : Orderly s a)
    (ht : TreeSteps.step s a=.next t) : Exact t := by
  have hchange := h.inv.step_change ht
  have hnext : ∀ d name,newEntry s.stage=some (d,name) → s.drops=[] →
      lookup (s.fs.node d).slots name=none → 0 < (s.fs.node d).nlink := by
    intro d name hn hd hno
    by_cases hrun : a=.run
    · rw [hrun] at hc
      exact hc.2 hd (d,name) hn hno
    · have hrests := rests_of_call hrun ht
      obtain ⟨-,ok,hst⟩ := rests_eq hrests
      rw [hst] at hn
      cases hn
  obtain ⟨hattached,hranked⟩ := h.attached_next hchange.write hnext
  exact ⟨Inv.step h.inv hc.1 ht,fun i hi => h.links_next hchange (fun _ _ => h.lost) hi,
    hattached,hranked⟩

/-- What is a directory where it should be is reached from the root. -/
theorem Exact.reached_dir (h : Exact s) {rank : ℕ → ℕ}
    (hrank : ∀ d,∀ e∈(s.fs.node d).entries,(s.fs.node e.inum).itype=.directory →
      rank d < rank e.inum) {i : ℕ} (hdir : (s.fs.node i).itype=.directory)
    (hi : i=rootInum ∨ Named s.fs.node i) : Reached s.fs.node i := by
  induction hn : rank i using Nat.strong_induction_on generalizing i with
  | h n ih =>
    obtain rfl | ⟨d,e,he,rfl⟩ := hi
    · exact .root
    · have hd : (s.fs.node d).itype=.directory := by
        rw [Node.entries] at he
        split at he
        · assumption
        · cases he
      have hlt := hrank d e he hdir
      refine .entry d e (ih (rank d) (by omega) hd (h.attached d (List.ne_nil_of_mem he)) rfl) he

/-- What has a link is reached from the root. -/
theorem Exact.reached (h : Exact s) {i : ℕ} (hi : (s.fs.node i).itype≠.empty)
    (hpend : pend s.stage i=0) (hlink : 0 < (s.fs.node i).nlink) : Reached s.fs.node i := by
  obtain ⟨rank,hrank⟩ := h.ranked
  have hlinks := h.links i hi
  rw [hpend,due] at hlinks
  by_cases hroot : i=rootInum
  · rw [hroot]
    exact .root
  rw [if_neg hroot] at hlinks
  by_cases hnamed : named s.fs.ninodes s.fs.node i=0
  · have hsub : 0 < subdirs s.fs.node i := by omega
    obtain ⟨e,he,-⟩ := List.countP_pos_iff.mp hsub
    have hdir : (s.fs.node i).itype=.directory := by
      rw [Node.entries] at he
      split at he
      · assumption
      · cases he
    exact h.reached_dir hrank hdir (h.attached i (List.ne_nil_of_mem he))
  · obtain ⟨d,-,hcount⟩ := Finset.exists_ne_zero_of_sum_ne_zero hnamed
    obtain ⟨e,he,heq⟩ := List.countP_pos_iff.mp (Nat.pos_of_ne_zero hcount)
    have hd : (s.fs.node d).itype=.directory := by
      rw [Node.entries] at he
      split at he
      · assumption
      · cases he
    rw [← of_decide_eq_true heq]
    exact .entry d e (h.reached_dir hrank hd (h.attached d (List.ne_nil_of_mem he))) he

end Keeping

section Results

variable {s t : System}

/-- The first process has started, and every directory is where it should be. -/
structure BootOrderly (s : System) : Prop where
  /-- The first process has started. -/
  boot : Boot s
  /-- A directory with entries is the root or is named. -/
  attached : ∀ i,(s.fs.node i).entries≠[] → i=rootInum ∨ Named s.fs.node i
  /-- Directories in directories have a greater rank. -/
  ranked : ∃ rank : ℕ → ℕ,∀ d,∀ e∈(s.fs.node d).entries,(s.fs.node e.inum).itype=.directory →
    rank d < rank e.inum

theorem boot_exact (h : BootOrderly s) : Exact s := by
  have hi := boot_inv h.boot
  obtain ⟨ok,hst⟩ := h.boot.stage
  refine ⟨hi,fun i hu => ?_,h.attached,h.ranked⟩
  rw [pend_none (by rw [hst]; rfl),add_zero]
  exact (h.boot.links i hu).1

/-- Between the calls an inode has as many links as there are entries that name it, with one more
for the root and one for each directory in it. If it has any, the root leads to it. If it has none,
it is held, so that it is freed when it no longer is. -/
theorem links_exact (hb : BootOrderly s) {as : List Label} (hg : Guarded step Orderly s as)
    (hr : run step s as=.next t) {i : ℕ} (hi : (t.fs.node i).itype≠.empty) :
    (t.fs.node i).nlink=due t.fs.ninodes t.fs.node i+pend t.stage i ∧
      (pend t.stage i=0 → 0 < (t.fs.node i).nlink → Reached t.fs.node i) ∧
      ((t.fs.node i).nlink=0 → i∈handles t ∧ (t.fs.refs i=1 → frees t.fs i)) := by
  have h : Exact t := run_invariant (fun _ _ _ h hc ht => h.step hc ht) (boot_exact hb) hg hr
  refine ⟨h.links i hi,h.reached hi,fun hz => ?_⟩
  obtain ⟨hv,hm⟩ := h.inv.unlinked i hi hz
  exact ⟨hm,fun hone => ⟨hone,hv,hz⟩⟩

theorem bare_orderly {n : ℕ} (hn : rootInum < n) : BootOrderly (bare n) :=
  ⟨bare_boot hn,fun i hi => absurd (bareNode_entries i) hi,fun _ => 0,fun d e he => by
    change e∈(bareNode d).entries at he
    rw [bareNode_entries] at he
    cases he⟩

/-- A process makes `a` and `a/b`, goes there and removes it. -/
def removesOwn : List Label :=
  .mkdir 0 [0x61,0]::goesOn 5++(.mkdir 0 [0x61,0x2f,0x62,0]::goesOn 7++
    (.chdir 0 [0x61,0x2f,0x62,0]::goesOn 8++.unlink 0 [0x2f,0x61,0x2f,0x62,0]::goesOn 8))

theorem links_exact_removesOwn :
    ∃ t,run step (bare 10) removesOwn=.next t ∧ 3∈handles t ∧ Reached t.fs.node 2 := by
  obtain ⟨t,ht,hp⟩ := Outcome.exists_of_test
    (p:=fun t : System => (t.fs.node 3).itype=.directory ∧ (t.fs.node 3).nlink=0 ∧
      (t.fs.node 2).itype=.directory ∧ (t.fs.node 2).nlink=1 ∧ pend t.stage 2=0)
    (o:=run step (bare 10) removesOwn) (by decide)
  obtain ⟨h3,hz,h2,hone,hpend⟩ := of_decide_eq_true hp
  have hg : Guarded step Orderly (bare 10) removesOwn := by decide
  exact ⟨t,ht,((links_exact (bare_orderly (by decide)) hg ht (used_of_dir h3)).2.2 hz).1,
    (links_exact (bare_orderly (by decide)) hg ht (used_of_dir h2)).2.1 hpend (by omega)⟩

end Results

end Xv6Rust.TreeLinks
