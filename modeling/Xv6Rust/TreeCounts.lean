import Xv6Rust.TreeSteps

/-!
# Links and entries in a tree of directories

The entries of the directories other than `.` and `..` tell how many links an inode should have.
What one write of an inode does to that number and to the tree is said here once for each kind of
write: an entry is added or cleared, an inode is made or freed, or nothing but the number of links
changes.
-/

namespace Xv6Rust.TreeCounts

open DiskLayout SlotTable TreeSteps
open LinkSteps (Node Holds lookup inumAt isEmpty freeSlot isOther isDots_iff isDots_named freeSlot_cases
  freeSlot_le not_holds_of_lookup countP_enter countP_clear)
open InodeLayer (Name DirEntry isDots dot dotDot rootInum)
open DirEntries (text)

/-- The entries that name an inode. -/
def named (n : ℕ) (node : ℕ → Node) (i : ℕ) : ℕ :=
  ∑ d∈Finset.range n,(node d).entries.countP fun e => e.inum=i

/-- The number of directories in a directory. -/
def subdirs (node : ℕ → Node) (i : ℕ) : ℕ :=
  (node i).entries.countP fun e => (node e.inum).itype=.directory

/-- The links that an inode should have. -/
def due (n : ℕ) (node : ℕ → Node) (i : ℕ) : ℕ :=
  (if i=rootInum then 1 else 0)+named n node i+subdirs node i

/-- The entries of a directory. -/
structure Listing (used : ℕ → Prop) (i parent : ℕ) (l : List DirEntry) : Prop where
  /-- The first entry names the directory. -/
  first : Holds l 0 dot ∧ inumAt l 0=i
  /-- The second one names the directory it was created in. -/
  second : Holds l 1 dotDot ∧ inumAt l 1=parent
  /-- No other entry is `.` or `..`. -/
  dots : ∀ k e,l[k]?=some e → e.inum≠0 → isDots e.name=true → k<2
  /-- Entries name what is in use. -/
  names : ∀ e∈l,e.inum≠0 → used e.inum

/-- The inodes in use are directories with entries of inodes in use, and others. -/
structure Tree (n : ℕ) (node : ℕ → Node) (origin : ℕ → ℕ) : Prop where
  /-- Numbers of inodes. -/
  range : ∀ i,(node i).itype≠.empty → 0 < i ∧ i<n
  /-- The root. -/
  root : (node rootInum).itype=.directory
  /-- The directories. -/
  dirs : ∀ i,(node i).itype=.directory →
    Listing (fun j => (node j).itype≠.empty) i (origin i) (node i).slots
  /-- What they were created in. -/
  parents : ∀ i,(node i).itype=.directory → (node (origin i)).itype=.directory

section Listings

variable {used used' : ℕ → Prop} {i j k p x : ℕ} {l : List DirEntry} {e : DirEntry} {name : Name}

theorem inumAt_eq (hk : l[k]?=some e) : inumAt l k=e.inum := by
  rw [inumAt,List.getD_eq_getElem?_getD,hk,Option.getD_some]

theorem mem_dirLink (h : e∈dirLink l name x) : e∈l ∨ e=⟨x,name⟩ := by
  rw [dirLink,place,List.mem_append,List.mem_cons] at h
  obtain h | h | h := h
  · exact .inl (List.mem_of_mem_take h)
  · exact .inr h
  · exact .inl (List.mem_of_mem_drop h)

theorem mem_clear (h : e∈place l k .empty) : e∈l ∨ e=.empty := by
  rw [place,List.mem_append,List.mem_cons] at h
  obtain h | h | h := h
  · exact .inl (List.mem_of_mem_take h)
  · exact .inr h
  · exact .inl (List.mem_of_mem_drop h)

/-- An entry that is in use keeps its place when another is written. -/
theorem inumAt_place {e' : DirEntry} (hk : k≤l.length) (hj : j≠k) :
    inumAt (place l k e') j=inumAt l j := by
  rw [inumAt,inumAt,List.getD_eq_getElem?_getD,List.getD_eq_getElem?_getD,getElem?_place hk,
    if_neg hj]

/-- A slot with a name is not the one that `dir_link` takes. -/
theorem ne_freeSlot (h : Holds l j name) : j≠freeSlot l := by
  rintro rfl
  obtain ⟨e,hj,hinum,-⟩ := h
  obtain ⟨e',hk,hfree⟩ | hend := freeSlot_cases l
  · rw [hj] at hk
    cases hk
    exact hinum hfree
  · exact absurd (List.getElem?_eq_some_iff.mp hj).1 (by omega)

/-- A directory has its `.` and its `..`, so what it has not is neither. -/
theorem Listing.isDots_eq_false (h : Listing used i p l) (hno : lookup l name=none) :
    isDots name=false := by
  rw [← Bool.not_eq_true]
  intro hdots
  obtain ht | ht := isDots_iff.mp hdots
  · exact not_holds_of_lookup hno 0 (h.first.1.congr ht.symm)
  · exact not_holds_of_lookup hno 1 (h.second.1.congr ht.symm)

/-- An entry named `..` is the second one. -/
theorem Listing.inum_eq (h : Listing used i p l) (he : e∈l) (hinum : e.inum≠0)
    (hname : e.named dotDot=true) : e.inum=p := by
  obtain ⟨k,hk⟩ := List.mem_iff_getElem?.mp he
  have hdots : isDots e.name=true := by
    rw [isDots_named hname]
    decide
  have hlt := h.dots k e hk hinum hdots
  obtain rfl | rfl : k=0 ∨ k=1 := by omega
  · obtain ⟨e',hk',-,hname'⟩ := h.first.1
    rw [hk] at hk'
    cases hk'
    have ht := (DirEntries.named_iff.mp hname).2.symm.trans (DirEntries.named_iff.mp hname').2
    exact absurd ht (by decide)
  · rw [← inumAt_eq hk]
    exact h.second.2

/-- What is used may become more. -/
theorem Listing.imp (h : Listing used i p l) (himp : ∀ e∈l,used e.inum → used' e.inum) :
    Listing used' i p l :=
  ⟨h.first,h.second,h.dots,fun e he hinum => himp e he (h.names e he hinum)⟩

/-- `dir_link` adds an entry. -/
theorem Listing.enter (h : Listing used i p l) (hno : lookup l name=none) (hx : used x) :
    Listing used i p (dirLink l name x) := by
  refine ⟨⟨h.first.1.enter _,?_⟩,⟨h.second.1.enter _,?_⟩,?_,?_⟩
  · rw [dirLink,inumAt_place (freeSlot_le l) (ne_freeSlot h.first.1),h.first.2]
  · rw [dirLink,inumAt_place (freeSlot_le l) (ne_freeSlot h.second.1),h.second.2]
  · intro k e hk hinum hdots
    rw [dirLink,getElem?_place (freeSlot_le l)] at hk
    split at hk
    · cases hk
      rw [h.isDots_eq_false hno] at hdots
      cases hdots
    · exact h.dots k e hk hinum hdots
  · intro e he hinum
    obtain he | rfl := mem_dirLink he
    · exact h.names e he hinum
    · exact hx

/-- `dir_unlink` clears an entry. -/
theorem Listing.clear (h : Listing used i p l) (hk : l[k]?=some e) (hdots : isDots e.name=false) :
    Listing used i p (place l k .empty) := by
  have hle := (List.getElem?_eq_some_iff.mp hk).1.le
  have hne : ∀ {j : ℕ} {name : Name},Holds l j name → isDots name=true → j≠k := by
    rintro j name ⟨e',hj,-,hname⟩ hd rfl
    rw [hk] at hj
    cases hj
    rw [isDots_named hname,hd] at hdots
    cases hdots
  have hdot : isDots dot=true := by decide
  have hdotDot : isDots dotDot=true := by decide
  refine ⟨⟨h.first.1.clear hdot hk hdots,?_⟩,⟨h.second.1.clear hdotDot hk hdots,?_⟩,?_,?_⟩
  · rw [inumAt_place hle (hne h.first.1 hdot),h.first.2]
  · rw [inumAt_place hle (hne h.second.1 hdotDot),h.second.2]
  · intro j e' hj hinum hd
    rw [getElem?_place hle] at hj
    split at hj
    · cases hj
      exact absurd rfl hinum
    · exact h.dots j e' hj hinum hd
  · intro e' he' hinum
    obtain he' | rfl := mem_clear he'
    · exact h.names e' he' hinum
    · exact absurd rfl hinum

/-- The entries of a new directory. -/
theorem new_eq (hi : i≠0) : dirLink (dirLink [] dot i) dotDot p=[DirEntry.mk i dot,⟨p,dotDot⟩] := by
  have hfree : freeSlot [DirEntry.mk i dot]=1 := by
    rw [freeSlot,List.findIdx_cons,decide_eq_false hi]
    rfl
  show place [DirEntry.mk i dot] (freeSlot [DirEntry.mk i dot]) ⟨p,dotDot⟩=_
  rw [hfree]
  rfl

/-- A new directory. -/
theorem Listing.new (hi : i≠0) (hp : p≠0) (hui : used i) (hup : used p) :
    Listing used i p (dirLink (dirLink [] dot i) dotDot p) := by
  have hdot : DirEntry.named ⟨i,dot⟩ dot=true :=
    DirEntries.named_iff.mpr ⟨⟨1,rfl⟩,rfl⟩
  have hdotDot : DirEntry.named ⟨p,dotDot⟩ dotDot=true :=
    DirEntries.named_iff.mpr ⟨⟨2,rfl⟩,rfl⟩
  rw [new_eq hi]
  refine ⟨⟨⟨⟨i,dot⟩,rfl,hi,hdot⟩,rfl⟩,⟨⟨⟨p,dotDot⟩,rfl,hp,hdotDot⟩,rfl⟩,?_,?_⟩
  · intro k e hk _ _
    exact (List.getElem?_eq_some_iff.mp hk).1
  · intro e he _
    obtain rfl | he := List.mem_cons.mp he
    · exact hui
    · cases List.mem_singleton.mp he
      exact hup

/-- A new directory is empty. -/
theorem filter_new (hi : i≠0) : (dirLink (dirLink [] dot i) dotDot p).filter isOther=[] := by
  have hdot : isDots dot=true := by decide
  have hdotDot : isDots dotDot=true := by decide
  rw [new_eq hi]
  simp only [isOther,hdot,hdotDot,List.filter_cons,Bool.not_true,Bool.and_false,Bool.false_eq_true,
    if_false,List.filter_nil]

end Listings

section Counting

variable {n d i j x : ℕ} {node : ℕ → Node} {m : Node} {l : List DirEntry} {name : Name}

/-- One inode is written. -/
theorem named_update (hd : d<n) (i : ℕ) :
    named n (Function.update node d m) i+(node d).entries.countP (fun e => e.inum=i)=
      named n node i+m.entries.countP fun e => e.inum=i := by
  have hmem := Finset.mem_range.mpr hd
  have hrest : ∑ j∈(Finset.range n).erase d,
      (Function.update node d m j).entries.countP (fun e => e.inum=i)=
      ∑ j∈(Finset.range n).erase d,(node j).entries.countP (fun e => e.inum=i) := by
    refine Finset.sum_congr rfl fun j hj => ?_
    rw [Function.update_of_ne (Finset.ne_of_mem_erase hj)]
  rw [named,named,← Finset.add_sum_erase _ _ hmem,← Finset.add_sum_erase _ _ hmem,hrest,
    Function.update_self]
  omega

/-- The write of an inode that no other directory names. -/
theorem subdirs_update (h : ∀ e∈(node j).entries,e.inum≠d) (hj : j≠d) :
    subdirs (Function.update node d m) j=subdirs node j := by
  rw [subdirs,subdirs,Function.update_of_ne hj]
  refine List.countP_congr fun e he => ?_
  rw [Function.update_of_ne (h e he)]

/-- The types stay when an inode is written with its type. -/
theorem itype_update (hm : m.itype=(node d).itype) (i : ℕ) :
    (Function.update node d m i).itype=(node i).itype := by
  by_cases hi : i=d
  · rw [hi,Function.update_self,hm]
  · rw [Function.update_of_ne hi]

theorem itype_write (links : ℕ) (slots : List DirEntry) (i : ℕ) :
    (Function.update node d ⟨(node d).itype,links,slots⟩ i).itype=(node i).itype := by
  refine itype_update ?_ i
  rfl

/-- The write of an inode with its type. -/
theorem subdirs_update_typed (hm : m.itype=(node d).itype) :
    (∀ j,j≠d → subdirs (Function.update node d m) j=subdirs node j) ∧
      subdirs (Function.update node d m) d=
        m.entries.countP fun e => (node e.inum).itype=.directory := by
  simp only [subdirs,itype_update hm]
  exact ⟨fun j hj => by rw [Function.update_of_ne hj],by rw [Function.update_self]⟩

/-- One inode is written, which changes no other's number of directories. -/
theorem due_update (hd : d<n)
    (hrest : ∀ j,j≠d → subdirs (Function.update node d m) j=subdirs node j) (i : ℕ) :
    due n (Function.update node d m) i+((node d).entries.countP (fun e => e.inum=i)+
      if i=d then subdirs node d else 0)=
    due n node i+(m.entries.countP (fun e => e.inum=i)+
      if i=d then subdirs (Function.update node d m) d else 0) := by
  have hnamed := @named_update n d node m hd i
  rw [due,due]
  obtain rfl | hi := eq_or_ne i d
  · rw [if_pos rfl,if_pos rfl]
    omega
  · rw [if_neg hi,if_neg hi,hrest i hi]
    omega

/-- Only the number of links changes, or what is no entry. -/
theorem due_keep (hd : d<n) (hm : m.itype=(node d).itype) (he : m.entries=(node d).entries)
    (i : ℕ) : due n (Function.update node d m) i=due n node i := by
  obtain ⟨hrest,hself⟩ := subdirs_update_typed hm
  have h := due_update hd hrest i
  rw [hself,he] at h
  exact Nat.add_right_cancel h

/-- Only the number of links changes. -/
theorem due_links (hd : d<n) (links i : ℕ) :
    due n (Function.update node d ⟨(node d).itype,links,(node d).slots⟩) i=due n node i := by
  have he : (⟨(node d).itype,links,(node d).slots⟩ : Node).entries=(node d).entries := by
    rw [Node.entries,Node.entries]
  exact due_keep hd (by rfl) he i

/-- An entry is added. -/
theorem due_enter (hd : d<n) (hdir : (node d).itype=.directory) (hx : isOther ⟨x,name⟩=true)
    (links i : ℕ) :
    due n (Function.update node d ⟨(node d).itype,links,dirLink (node d).slots name x⟩) i=
      due n node i+((if x=i then 1 else 0)+
        if i=d ∧ (node x).itype=.directory then 1 else 0) := by
  set m : Node := ⟨(node d).itype,links,dirLink (node d).slots name x⟩ with hm
  have hcount : ∀ q : DirEntry → Bool,m.entries.countP q=
      (node d).entries.countP q+if q ⟨x,name⟩=true then 1 else 0 := by
    intro q
    have he := countP_enter q (node d).slots ⟨x,name⟩
    rw [hx,Bool.and_true] at he
    rw [hm,Node.entries,Node.entries,if_pos hdir,if_pos hdir]
    exact he
  obtain ⟨hrest,hself⟩ := @subdirs_update_typed d node m rfl
  have h := due_update hd hrest i
  rw [hself,hcount,hcount] at h
  simp only [decide_eq_true_eq] at h
  obtain rfl | hi := eq_or_ne i d
  · simp only [if_true,true_and,subdirs] at h ⊢
    omega
  · simp only [hi,if_false,false_and] at h ⊢
    omega

/-- An entry is cleared. -/
theorem due_clear (hd : d<n) (hdir : (node d).itype=.directory) {k : ℕ} {e : DirEntry}
    (hk : (node d).slots[k]?=some e) (he : isOther e=true) (links i : ℕ) :
    due n (Function.update node d ⟨(node d).itype,links,place (node d).slots k .empty⟩) i+
      ((if e.inum=i then 1 else 0)+
        if i=d ∧ (node e.inum).itype=.directory then 1 else 0)=due n node i := by
  set m : Node := ⟨(node d).itype,links,place (node d).slots k .empty⟩ with hm
  have hcount : ∀ q : DirEntry → Bool,m.entries.countP q+(if q e=true then 1 else 0)=
      (node d).entries.countP q := by
    intro q
    rw [hm,Node.entries,Node.entries,if_pos hdir,if_pos hdir]
    exact countP_clear q hk he
  obtain ⟨hrest,hself⟩ := @subdirs_update_typed d node m rfl
  have h := due_update hd hrest i
  have hdirs := hcount fun e => (node e.inum).itype=.directory
  rw [hself,← hcount] at h
  simp only [decide_eq_true_eq] at h hdirs
  obtain rfl | hi := eq_or_ne i d
  · simp only [if_true,true_and,subdirs] at h ⊢
    omega
  · simp only [hi,if_false,false_and] at h ⊢
    omega

/-- An inode without entries is made. -/
theorem due_make (hd : d<n) (hold : (node d).entries=[]) (hnew : m.entries=[])
    (hno : ∀ j,∀ e∈(node j).entries,e.inum≠d) (i : ℕ) :
    due n (Function.update node d m) i=due n node i := by
  have h := due_update (m:=m) hd (fun j hj => subdirs_update (hno j) hj) i
  rw [subdirs,subdirs,Function.update_self,hold,hnew] at h
  exact Nat.add_right_cancel h

/-- An inode that nothing names is freed, and its entries are lost. -/
theorem due_free (hd : d<n) (hnew : m.entries=[]) (hno : ∀ j,∀ e∈(node j).entries,e.inum≠d)
    (i : ℕ) : due n (Function.update node d m) i+((node d).entries.countP (fun e => e.inum=i)+
      if i=d then subdirs node d else 0)=due n node i := by
  have h := due_update (m:=m) hd (fun j hj => subdirs_update (hno j) hj) i
  have hzero : subdirs (Function.update node d m) d=0 := by
    rw [subdirs,Function.update_self,hnew,List.countP_nil]
  rw [hzero,hnew,ite_self] at h
  exact h

/-- What has no links due is not named, is not the root and has no directories in it. -/
theorem due_eq_zero (h : due n node i=0) : i≠rootInum ∧ subdirs node i=0 ∧
    ∀ d<n,∀ e∈(node d).entries,e.inum≠i := by
  rw [due] at h
  have hroot : i≠rootInum := by
    rintro rfl
    rw [if_pos rfl] at h
    omega
  have hnamed : named n node i=0 := by omega
  refine ⟨hroot,by omega,fun d hd e he hei => ?_⟩
  have hzero := Finset.sum_eq_zero_iff.mp hnamed d (Finset.mem_range.mpr hd)
  have hno := List.countP_eq_zero.mp hzero e he
  exact hno (decide_eq_true hei)

end Counting

section Writing

variable {n d i j k x p : ℕ} {node : ℕ → Node} {origin : ℕ → ℕ} {m : Node} {e : DirEntry}
  {name : Name}

/-- A directory is in use. -/
theorem used_of_dir (hi : (node i).itype=.directory) : (node i).itype≠.empty := by
  rw [hi]
  exact InodeType.noConfusion

/-- An inode is written, and what is in use stays so. -/
theorem Tree.write (h : Tree n node origin) (hm : m.itype=(node d).itype)
    (hl : (node d).itype=.directory →
      Listing (fun j => (node j).itype≠.empty) d (origin d) m.slots) :
    Tree n (Function.update node d m) origin := by
  have ht := itype_update (m:=m) hm
  refine ⟨fun i hi => h.range i (ht i ▸ hi),(ht _).trans h.root,fun i hi => ?_,fun i hi => ?_⟩
  · simp only [ht]
    rw [ht] at hi
    obtain rfl | hid := eq_or_ne i d
    · rw [Function.update_self]
      exact hl hi
    · rw [Function.update_of_ne hid]
      exact h.dirs i hi
  · rw [ht] at hi ⊢
    exact h.parents i hi

/-- The number of links changes, or what is no entry. -/
theorem Tree.keep (h : Tree n node origin) (hm : m.itype=(node d).itype)
    (hs : (node d).itype=.directory → m.slots=(node d).slots) :
    Tree n (Function.update node d m) origin := by
  refine h.write hm fun hdir => ?_
  rw [hs hdir]
  exact h.dirs d hdir

/-- The entries are those of before. -/
theorem entries_keep (hm : m.itype=(node d).itype)
    (hs : (node d).itype=.directory → m.slots=(node d).slots) : m.entries=(node d).entries := by
  rw [Node.entries,Node.entries,hm]
  split
  · rename_i hdir
    rw [hs hdir]
  · rfl

/-- An entry is added. -/
theorem Tree.enter (h : Tree n node origin) (hd : (node d).itype=.directory)
    (hno : lookup (node d).slots name=none) (hx : (node x).itype≠.empty) (links : ℕ) :
    Tree n (Function.update node d ⟨(node d).itype,links,dirLink (node d).slots name x⟩) origin :=
  h.write rfl fun _ => (h.dirs d hd).enter hno hx

/-- The new entry is counted. -/
theorem Tree.isOther (h : Tree n node origin) (hd : (node d).itype=.directory)
    (hno : lookup (node d).slots name=none) (hx : (node x).itype≠.empty) :
    LinkSteps.isOther ⟨x,name⟩=true := by
  have hpos := (h.range x hx).1
  rw [LinkSteps.isOther,(h.dirs d hd).isDots_eq_false hno,decide_eq_true hpos.ne']
  rfl

/-- An entry is cleared. -/
theorem Tree.clear (h : Tree n node origin) (hd : (node d).itype=.directory)
    (hk : (node d).slots[k]?=some e) (he : isDots e.name=false) (links : ℕ) :
    Tree n (Function.update node d ⟨(node d).itype,links,place (node d).slots k .empty⟩) origin :=
  h.write rfl fun _ => (h.dirs d hd).clear hk he

/-- What is not in use is not named. -/
theorem Tree.unnamed (h : Tree n node origin) (hi : (node i).itype=.empty) (j : ℕ) :
    ∀ e∈(node j).entries,e.inum≠i := by
  rintro e he rfl
  rw [Node.entries] at he
  split at he
  · rename_i hj
    rw [List.mem_filter,LinkSteps.isOther,Bool.and_eq_true,decide_eq_true_eq] at he
    exact (h.dirs j hj).names e he.1 he.2.1 hi
  · cases he

theorem entries_of_empty (hi : (node i).itype=.empty) : (node i).entries=[] := by
  rw [Node.entries,hi]
  rfl

/-- What is not in use has no links due. -/
theorem due_empty (h : Tree n node origin) (hi : (node i).itype=.empty) : due n node i=0 := by
  have hroot : i≠rootInum := by
    rintro rfl
    exact used_of_dir h.root hi
  have hnamed : named n node i=0 := by
    refine Finset.sum_eq_zero fun d _ => List.countP_eq_zero.mpr fun e he hei => ?_
    exact h.unnamed hi d e he (of_decide_eq_true hei)
  rw [due,if_neg hroot,hnamed,subdirs,entries_of_empty hi]
  rfl

/-- An inode is made in a directory. -/
theorem Tree.make (h : Tree n node origin) (hi : (node i).itype=.empty) (hpos : 0 < i) (hlt : i<n)
    (hp : (node p).itype=.directory) (hm : m.itype≠.empty)
    (hs : m.itype=.directory → m.slots=dirLink (dirLink [] dot i) dotDot p) :
    Tree n (Function.update node i m) (Function.update origin i p) := by
  have hne : ∀ {j},(node j).itype≠.empty → j≠i := by
    rintro j hj rfl
    exact hj hi
  have hused : ∀ {j},(node j).itype≠.empty → (Function.update node i m j).itype≠.empty :=
    fun hj => by rwa [Function.update_of_ne (hne hj)]
  have hdir : ∀ {j},(node j).itype=.directory → j≠i ∧ (node j).itype≠.empty := fun hj =>
    ⟨hne (used_of_dir hj),used_of_dir hj⟩
  refine ⟨fun j hj => ?_,?_,fun j hj => ?_,fun j hj => ?_⟩
  · by_cases e : j=i
    · rw [e]
      exact ⟨hpos,hlt⟩
    · rw [Function.update_of_ne e] at hj
      exact h.range j hj
  · rw [Function.update_of_ne (hdir h.root).1]
    exact h.root
  · by_cases e : j=i
    · rw [e,Function.update_self] at hj ⊢
      rw [Function.update_self,hs hj]
      refine Listing.new hpos.ne' (h.range p (hdir hp).2).1.ne' ?_ (hused (hdir hp).2)
      rw [Function.update_self]
      exact hm
    · rw [Function.update_of_ne e] at hj ⊢
      rw [Function.update_of_ne e]
      exact (h.dirs j hj).imp fun e he hu => hused hu
  · by_cases e : j=i
    · rw [e,Function.update_self,Function.update_of_ne (hdir hp).1]
      exact hp
    · rw [Function.update_of_ne e] at hj ⊢
      rw [Function.update_of_ne (hdir (h.parents j hj)).1]
      exact h.parents j hj

/-- What is named by no other entry and by no other `..` is not named by another directory. -/
theorem Tree.not_named (h : Tree n node origin) (hi : (node i).itype≠.empty)
    (hno : ∀ d<n,∀ e∈(node d).entries,e.inum≠i)
    (hpar : ∀ j,j≠i → (node j).itype=.directory → origin j≠i) (j : ℕ) (hj : j≠i)
    (hdir : (node j).itype=.directory) : ∀ e∈(node j).slots,e.inum≠i := by
  rintro e he rfl
  have hl := h.dirs j hdir
  have hinum := (h.range _ hi).1.ne'
  by_cases hdots : isDots e.name=true
  · obtain ⟨k,hk⟩ := List.mem_iff_getElem?.mp he
    have hlt := hl.dots k e hk hinum hdots
    obtain rfl | rfl : k=0 ∨ k=1 := by omega
    · exact hj (hl.first.2.symm.trans (inumAt_eq hk))
    · exact hpar j hj hdir (hl.second.2.symm.trans (inumAt_eq hk))
  · refine hno j (h.range j (used_of_dir hdir)).2 e ?_ rfl
    rw [Node.entries,if_pos hdir,List.mem_filter,LinkSteps.isOther,decide_eq_true hinum,
      Bool.eq_false_of_not_eq_true hdots]
    exact ⟨he,rfl⟩

/-- An inode that nothing names is freed. -/
theorem Tree.free (h : Tree n node origin) (hroot : i≠rootInum)
    (hno : ∀ j,j≠i → (node j).itype=.directory → ∀ e∈(node j).slots,e.inum≠i)
    (hpar : ∀ j,j≠i → (node j).itype=.directory → origin j≠i) (links : ℕ) :
    Tree n (Function.update node i ⟨.empty,links,[]⟩) origin := by
  have hne : ∀ {j},(Function.update node i ⟨.empty,links,[]⟩ j).itype≠.empty → j≠i := by
    rintro j hj rfl
    rw [Function.update_self] at hj
    exact hj rfl
  have hdir : ∀ {j},(Function.update node i ⟨.empty,links,[]⟩ j).itype=.directory → j≠i :=
    fun hj => hne (used_of_dir hj)
  refine ⟨fun j hj => ?_,?_,fun j hj => ?_,fun j hj => ?_⟩
  · rw [Function.update_of_ne (hne hj)] at hj
    exact h.range j hj
  · rw [Function.update_of_ne hroot.symm]
    exact h.root
  · have hji := hdir hj
    rw [Function.update_of_ne hji] at hj ⊢
    refine (h.dirs j hj).imp fun e he hu => ?_
    rw [Function.update_of_ne (hno j hji hj e he)]
    exact hu
  · have hji := hdir hj
    rw [Function.update_of_ne hji] at hj
    rw [Function.update_of_ne (hpar j hji hj)]
    exact h.parents j hj

end Writing

end Xv6Rust.TreeCounts
