import Xv6Rust.DirEntries
import Xv6Rust.LogSpans

/-!
# A directory is a finite map

The slots of a directory are free or hold a name and an inode; a name is the bytes before the
first zero. While the names of the slots are distinct, `dir_lookup`, `dir_link` and `dir_unlink`
are the operations of a finite map from names to inodes, in every state that a run of calls
reaches. `dir_unlink` leaves `.`, `..` and directories that are not empty.
-/

namespace Xv6Rust.DirMap

open Bytes DiskLayout InodeLayer BlockOwnership FileContents InodeSound DirEntries SlotTable
open LogWrites (Directories entryAt)
open FsRuns (emptyRoot emptyRoot_owned nameF)

/-- A call on a directory, or the end of a reference that a call returned. -/
inductive Call where
  /-- `dir_lookup`. -/
  | lookup (name : Name)
  /-- `dir_link`. -/
  | link (name : Name) (inum : ℕ)
  /-- `dir_unlink`. -/
  | unlink (name : Name)
  /-- A reference is dropped. -/
  | drop (h : Inode)

/-- What a call returns. -/
inductive Answer where
  /-- The inode of a name, and the offset of its slot. -/
  | found (h : Inode) (off : ℕ)
  /-- `None`. -/
  | absent
  /-- `Ok(())`. -/
  | done
  /-- `Err(())`. -/
  | refused
  deriving DecidableEq

/-- A call on the directory that a reference leads to. -/
def perform (dir : Inode) : Call → Op Answer
  | .lookup name => do
    match ← dirLookup dir.index name with
    | some (h,off) => return .found h off
    | none => return .absent
  | .link name inum => do
    if ← dirLink dir.index name inum then return .done else return .refused
  | .unlink name => do
    if ← dirUnlink dir.index name then return .done else return .refused
  | .drop h => do
    Icache.put h
    return .done

/-- The map that a directory is. -/
def binding (s : Fs) (n : ℕ) : List UInt8 → Option ℕ := value (slots s n)

/-- A directory that is referenced and locked, with distinct names that end with a zero. -/
structure Directory (dir : Inode) (s : Fs) : Prop where
  /-- The file system is sound. -/
  good : Good Directories [dir] s
  /-- The inode is in the cache. -/
  valid : (s.idata dir.index).valid=some dir.inum
  /-- It is a directory. -/
  isDir : IsDir dir.index s
  /-- It is locked. -/
  locked : s.locked dir.index=true
  /-- Who has a lock has a reference. -/
  taken : ∀ j,s.locked j=true → 0 < (s.imeta j).refs
  /-- The size is that of whole entries. -/
  aligned : deSize∣dirSize s dir.inum
  /-- Names end with a zero. -/
  terminated : ∀ (k : ℕ) a m,(slots s dir.inum)[k]?=some (some (a,m)) → a.length < maxDirSize
  /-- Names are distinct. -/
  distinct : Distinct (slots s dir.inum)

/-- An inode that an entry names and that nobody has locked. -/
structure Removable (s : Fs) (n : ℕ) : Prop where
  /-- It is an inode. -/
  inum : n < s.sb.ninodes
  /-- It is allocated. -/
  used : (inodeAt s.sb s.disk n).itype≠.empty
  /-- It is not locked. -/
  unlocked : ∀ i,0 < (s.imeta i).refs → (s.imeta i).inum=n → s.locked i=false
  /-- It has links on disk. -/
  linked : 0 < (inodeAt s.sb s.disk n).nlink
  /-- It has links in the cache. -/
  cached : ∀ i,(s.idata i).valid=some n → 0 < (s.idata i).dinode.nlink
  /-- The size of a directory is that of whole entries. -/
  aligned : (inodeAt s.sb s.disk n).itype=.directory → deSize∣dirSize s n

/-- A directory with more than its first two entries. -/
def Full (s : Fs) (n : ℕ) : Prop :=
  (inodeAt s.sb s.disk n).itype=.directory ∧
    ∃ (k : ℕ) (x : List UInt8×ℕ),2 ≤ k ∧ (slots s n)[k]?=some (some x)

/-- There is room for an inode that can be taken away; for a directory, its `..` is a link less of
the directory that it is in. -/
structure Gone (dir : Inode) (s : Fs) (m : ℕ) : Prop where
  /-- There is an entry in the cache. -/
  room : Room s m
  /-- The inode can be removed. -/
  removable : Removable s m
  /-- The directory has a link left. -/
  parent : (inodeAt s.sb s.disk m).itype=.directory → 0 < (s.idata dir.index).dinode.nlink

/-- There is room for a call, and what it takes away can be taken away. -/
def Ready (dir : Inode) (s : Fs) : Call → Prop
  | .lookup name => Terminated name ∧ ∀ m,binding s dir.inum (text name)=some m → Room s m
  | .link name inum => (Terminated name ∧ inum≠0 ∧ inum < 2^16) ∧
    (∀ m,binding s dir.inum (text name)=some m → Room s m) ∧
    (none∉slots s dir.inum → dirSize s dir.inum+deSize ≤ maxFileSize ∧
      Free s dir.inum (dirSize s dir.inum))
  | .unlink name => Terminated name ∧ (isDots name≠true →
    ∀ m,binding s dir.inum (text name)=some m → Gone dir s m)
  | .drop h => Held s [h,dir] ∧ ((s.imeta h.index).refs=1 → s.locked h.index=false)

/-- A call changes nothing on disk. -/
def Unchanged (dir : Inode) (s t : Fs) : Prop :=
  t.disk=s.disk ∧ slots t dir.inum=slots s dir.inum

/-- `dir_unlink` leaves a name: it is `.` or `..`, or no inode has it, or a directory that is not
empty. -/
def Stays (dir : Inode) (s : Fs) (name : Name) : Prop :=
  isDots name=true ∨ ∀ m,binding s dir.inum (text name)=some m → Full s m

/-- What a call does to the map. -/
def Meets (dir : Inode) (s : Fs) (c : Call) (a : Answer) (t : Fs) : Prop :=
  match c with
  | .lookup name => Unchanged dir s t ∧
    ((binding s dir.inum (text name)=none ∧ a=.absent) ∨
      ∃ h k,binding s dir.inum (text name)=some h.inum ∧ a=.found h (deSize*k) ∧
        (slots s dir.inum)[k]?=some (some (text name,h.inum)))
  | .link name inum =>
    if binding s dir.inum (text name)=none then
      a=.done ∧ binding t dir.inum=Function.update (binding s dir.inum) (text name) (some inum) ∧
        ∃ k,slots t dir.inum=place (slots s dir.inum) k (some (text name,inum)) ∧
          if none∈slots s dir.inum then (slots s dir.inum)[k]?=some none
          else k=(slots s dir.inum).length
    else a=.refused ∧ Unchanged dir s t
  | .unlink name =>
    (Stays dir s name → a=.refused ∧ Unchanged dir s t) ∧
      (¬Stays dir s name → a=.done ∧
        binding t dir.inum=Function.update (binding s dir.inum) (text name) none ∧
          ∃ k m,slots t dir.inum=place (slots s dir.inum) k none ∧
            (slots s dir.inum)[k]?=some (some (text name,m)))
  | .drop _ => a=.done ∧ slots t dir.inum=slots s dir.inum

/-- A call for which there is room. -/
def Step (dir : Inode) (s t : Fs) : Prop := ∃ c a,Ready dir s c ∧ perform dir c s=.ok (a,t)

/-- A run of calls. -/
abbrev Run (dir : Inode) : Fs → Fs → Prop := Relation.ReflTransGen (Step dir)

section Steps

variable {dir : Inode} {s t : Fs} {name : Name}

theorem terminated_iff : Terminated name ↔ (text name).length < maxDirSize := by
  have hlen : (List.ofFn name).length=maxDirSize := List.length_ofFn
  rw [text]
  constructor
  · rintro ⟨i,hi⟩
    by_contra hn
    have hle := (List.takeWhile_sublist (fun x => decide (x≠0)) (l:=List.ofFn name)).length_le
    have heq : (List.ofFn name).takeWhile (fun x => decide (x≠0))=List.ofFn name :=
      (List.takeWhile_prefix _).eq_of_length (by omega)
    have hmem : name i∈(List.ofFn name).takeWhile fun x => decide (x≠0) := by
      rw [heq]
      exact List.mem_ofFn.mpr ⟨i,rfl⟩
    have hnz := List.mem_takeWhile_imp hmem
    simp [hi] at hnz
  · intro hlt
    by_contra hn
    rw [List.takeWhile_eq_self_iff.mpr] at hlt
    · omega
    · intro x hx
      obtain ⟨i,rfl⟩ := List.mem_ofFn.mp hx
      simpa using fun e => hn ⟨i,e⟩

theorem slot_eq_some {e : DirEntry} {a : List UInt8} {m : ℕ} :
    slot e=some (a,m) ↔ e.inum≠0 ∧ text e.name=a ∧ e.inum=m := by
  rw [slot]
  split
  · rename_i hzero
    exact iff_of_false (fun hc => by cases hc) fun hc => hc.1 hzero
  · rename_i hused
    rw [Option.some_inj,Prod.mk.injEq]
    exact ⟨fun hc => ⟨hused,hc⟩,fun hc => hc.2⟩

/-- The offsets of whole entries. -/
theorem mem_offsets {size off : ℕ} (h : deSize∣size) :
    off∈offsets size ↔ ∃ k,k < size/deSize ∧ off=deSize*k := by
  obtain ⟨c,rfl⟩ := h
  have hlen : (deSize*c+deSize-1)/deSize=c := by
    rw [deSize]
    omega
  rw [offsets,hlen,Nat.mul_div_cancel_left c (by decide),List.mem_map]
  refine exists_congr fun k => ?_
  rw [List.mem_range]
  exact and_congr_right fun _ => eq_comm

theorem end_of_slot {size k : ℕ} (hk : k < size/deSize) : deSize*k+deSize ≤ size := by
  rw [deSize] at hk ⊢
  omega

/-- Another reference to the entry of the directory is not the last one. -/
theorem refs_ne_one {h : Inode} (hh : Held s [h,dir]) (he : h.index=dir.index) :
    (s.imeta h.index).refs≠1 := by
  have hc := hh.count h.index
  rw [refsIn_cons,refsIn_cons,if_pos rfl,if_pos he.symm] at hc
  omega

namespace Directory

variable (hd : Directory dir s)

include hd

theorem loaded : Loaded dir.index dir.inum s := ⟨hd.good.1,hd.valid,hd.isDir⟩

theorem offsets_end {off : ℕ} (hoff : off∈offsets (dirSize s dir.inum)) :
    off+deSize ≤ dirSize s dir.inum := by
  obtain ⟨k,hk,rfl⟩ := (mem_offsets hd.aligned).mp hoff
  exact end_of_slot hk

/-- An entry is taken for a name if its slot holds the name. -/
theorem matches_iff {k : ℕ} (hk : k < dirSize s dir.inum/deSize) :
    Matches s dir.inum name (deSize*k) ↔ (slots s dir.inum)[k]?=
      some (some (text name,(entryAt s dir.inum (deSize*k)).inum)) := by
  rw [Matches,named_iff,getElem?_slots,if_pos hk,Option.some_inj,slot_eq_some]
  refine ⟨fun h => ⟨h.1,h.2.2,rfl⟩,fun h => ⟨h.1,?_,h.2.1⟩⟩
  have hslot : (slots s dir.inum)[k]?=some (some (text (entryAt s dir.inum (deSize*k)).name,
      (entryAt s dir.inum (deSize*k)).inum)) := by
    rw [getElem?_slots,if_pos hk,Option.some_inj,slot_eq_some]
    exact ⟨h.1,rfl,rfl⟩
  exact terminated_iff.mpr (hd.terminated _ _ _ hslot)

/-- `dir_lookup` finds the slot of a name, and takes a reference to its inode. -/
theorem dirLookup_eq (name : Name) :
    (binding s dir.inum (text name)=none ∧ dirLookup dir.index name s=.ok (none,s)) ∨
      ∃ k m,(slots s dir.inum)[k]?=some (some (text name,m)) ∧ dirLookup dir.index name s=
        (Icache.get m >>= fun h => pure (some (h,deSize*k))) s := by
  have hdata : dinodeOf dir.index s=.ok ((s.idata dir.index).dinode,s) := rfl
  have hlookup : dirLookup dir.index name s=
      dirLookupLoop dir.index name (offsets (dirSize s dir.inum)) s := by
    have hisDir : ¬(s.idata dir.index).dinode.itype≠.directory := not_not.mpr hd.isDir
    rw [dirLookup,bind_ok hdata,if_neg hisDir,hd.loaded.size]
  rw [hlookup]
  obtain ⟨hok,hno⟩ | ⟨off,hoff,hmatch,hok⟩ := @dirLookupLoop_returns s _ _ name _ hd.loaded
    fun off => hd.offsets_end
  · refine .inl ⟨value_eq_none.mpr fun k m hk => ?_,hok⟩
    have hlt : k < dirSize s dir.inum/deSize := by
      rw [← length_slots]
      exact (List.getElem?_eq_some_iff.mp hk).1
    refine hno (deSize*k) ((mem_offsets hd.aligned).mpr ⟨k,hlt,rfl⟩) ((hd.matches_iff hlt).mpr ?_)
    rw [getElem?_slots,if_pos hlt,Option.some_inj,slot_eq_some] at hk ⊢
    exact ⟨hk.1,hk.2.1,rfl⟩
  · obtain ⟨k,hk,rfl⟩ := (mem_offsets hd.aligned).mp hoff
    exact .inr ⟨k,_,(hd.matches_iff hk).mp hmatch,hok⟩

/-- The lookup of a name that an inode has, with room for the inode. -/
theorem dirLookup_found {k m : ℕ} (hk : (slots s dir.inum)[k]?=some (some (text name,m)))
    (hr : Room s m) :
    ∃ i,dirLookup dir.index name s=
        .ok (some (⟨m,i⟩,deSize*k),s.setMeta i ⟨m,(s.imeta i).refs+1⟩) ∧
      Good Directories [⟨m,i⟩,dir] (s.setMeta i ⟨m,(s.imeta i).refs+1⟩) ∧
      ((s.imeta i).refs=0 ∨ (s.imeta i).inum=m) := by
  obtain ⟨hnone,-⟩ | ⟨j,m',hj,hok⟩ := hd.dirLookup_eq name
  · exact absurd hk (value_eq_none.mp hnone k m)
  · obtain rfl := hd.distinct j k _ _ _ hj hk
    rw [hj] at hk
    cases hk
    obtain ⟨i,hget,hg,hi⟩ := get_returns hd.good hr
    refine ⟨i,?_,hg,hi⟩
    rw [hok,bind_ok hget]
    rfl

/-- A directory that is as it was is still one. -/
theorem of_kept (hg : Good Directories [dir] t) (hvalid : (t.idata dir.index).valid=some dir.inum)
    (hdir : IsDir dir.index t) (hlocked : t.locked dir.index=true)
    (htaken : ∀ j,t.locked j=true → 0 < (t.imeta j).refs) (hk : Kept dir.inum s t) :
    Directory dir t ∧ slots t dir.inum=slots s dir.inum := by
  have hslots := hk.slots hd.loaded.size_le
  refine ⟨⟨hg,hvalid,hdir,hlocked,htaken,?_,?_,?_⟩,hslots⟩
  · rw [hk.size]
    exact hd.aligned
  · rw [hslots]
    exact hd.terminated
  · rw [hslots]
    exact hd.distinct

/-- A directory of which another reference is taken. -/
theorem take {i m : ℕ} (hs : List Inode)
    (hg : Good Directories (hs++[dir]) (s.setMeta i ⟨m,(s.imeta i).refs+1⟩)) :
    Directory dir (s.setMeta i ⟨m,(s.imeta i).refs+1⟩) ∧
      slots (s.setMeta i ⟨m,(s.imeta i).refs+1⟩) dir.inum=slots s dir.inum := by
  have hheld : Held (s.setMeta i ⟨m,(s.imeta i).refs+1⟩) [dir] := by
    refine ⟨fun j => ?_,fun x hx => hg.2.key x (List.mem_append_right _ hx)⟩
    have hc := hg.2.count j
    rw [refsIn,List.countP_append] at hc
    exact (Nat.le_add_left ..).trans hc
  refine hd.of_kept ⟨hg.1,hheld⟩ hd.valid hd.isDir hd.locked (fun j hj => ?_) (.of_disk rfl rfl)
  by_cases e : j=i
  · rw [e,setMeta_self]
    exact Nat.succ_pos _
  · rw [setMeta_of_ne s _ e]
    exact hd.taken j hj

/-- An entry that nobody refers to is not locked. -/
theorem unlocked {i : ℕ} (hi : (s.imeta i).refs=0) : s.locked i=false := by
  by_contra hn
  have hpos := hd.taken i (Bool.eq_true_of_not_eq_false hn)
  omega

/-- A reference to an inode is dropped. -/
theorem drop {h : Inode} (hh : Held s [h,dir])
    (hfree : (s.imeta h.index).refs=1 → s.locked h.index=false) :
    ∃ t,Icache.put h s=.ok ((),t) ∧ Dropped h s t ∧ Directory dir t ∧
      slots t dir.inum=slots s dir.inum := by
  obtain ⟨t,hok,hg,ht⟩ := put_returns (K:=Directories) ⟨hd.good.1,hh⟩ hfree
  have hkeep : t.idata dir.index=s.idata dir.index ∧ Kept dir.inum s t := by
    by_cases he : h.index=dir.index
    · obtain ⟨hdata,hdisk⟩ := ht.stays (.inl (refs_ne_one hh he))
      exact ⟨congrFun hdata _,.of_disk ht.super hdisk⟩
    · refine ⟨ht.data _ (Ne.symm he),?_⟩
      obtain hdisk | ⟨di,hst⟩ := ht.disk
      · exact .of_disk ht.super hdisk
      · have hc := hd.loaded.cached
        refine kept_of_stored hc.inum (hc.same.itype ▸ hc.used) (fun e => he ?_) ht.super hst
        -- one inode has one entry
        refine hd.good.1.distinct _ _ hh.live hc.refs ?_
        rw [hh.key h (List.mem_cons_self ..),hc.key,e]
  obtain ⟨hdata,hkept⟩ := hkeep
  refine ⟨t,hok,ht,hd.of_kept hg (hdata ▸ hd.valid) ?_ (ht.locked ▸ hd.locked) (fun j hj => ?_) hkept⟩
  · rw [IsDir,hdata]
    exact hd.isDir
  · rw [ht.locked] at hj
    have hpos := hd.taken j hj
    rw [ht.refs]
    split
    · rename_i e
      have hmore : (s.imeta h.index).refs≠1 := by
        intro hone
        rw [← e,hfree hone] at hj
        cases hj
      rw [← e] at hpos ⊢
      omega
    · omega

/-- An entry of the directory is written. -/
theorem write {hs : List Inode} (hg : Good Directories hs s) {k : ℕ} {e : DirEntry}
    (he : e.inum < 2^16) (hoff : deSize*k ≤ dirSize s dir.inum)
    (hmax : deSize*k+deSize ≤ maxFileSize) (hfree : Free s dir.inum (deSize*k))
    (hnames : ∀ (j : ℕ) a m,(place (slots s dir.inum) k (slot e))[j]?=some (some (a,m)) →
      a.length < maxDirSize)
    (hdistinct : Distinct (place (slots s dir.inum) k (slot e))) :
    ∃ t,writeEntry dir.index (deSize*k) e s=.ok (true,t) ∧ Good Directories hs t ∧
      Directory dir t ∧ slots t dir.inum=place (slots s dir.inum) k (slot e) ∧
      (∀ j,j≠dir.index → t.idata j=s.idata j) ∧
      (t.idata dir.index).dinode.nlink=(s.idata dir.index).dinode.nlink := by
  obtain ⟨d,di,t,rfl,hok,hg',hw,hst,hdir,hlinks⟩ := writeEntry_returns hd.loaded hg e hoff hmax hfree
  have hslots := hw.slots he hd.aligned hoff hmax hd.loaded.size_le
  have hdata := setData_self (i:=dir.index) {s with disk := d} ⟨some dir.inum,di⟩
  refine ⟨_,hok,hg',⟨(writeEntry_rule _ e s hd.good).1 _ _ hok,?_,?_,hd.locked,hd.taken,?_,?_,?_⟩,
    hslots,fun j hj => Function.update_of_ne hj ..,by rw [hdata]; exact hlinks⟩
  · rw [hdata]
  · rw [IsDir,hdata]
    exact hdir
  · rw [hw.size,← Nat.mul_succ]
    obtain e' | e' := max_choice (dirSize s dir.inum) (deSize*k.succ)
    · rw [e']
      exact hd.aligned
    · rw [e']
      exact Nat.dvd_mul_right ..
  · rw [hslots]
    exact hnames
  · rw [hslots]
    exact hdistinct

/-- `dir_lookup` meets its map. -/
theorem lookup_meets (hr : Ready dir s (.lookup name)) :
    ∃ a t,perform dir (.lookup name) s=.ok (a,t) ∧ Directory dir t ∧
      Meets dir s (.lookup name) a t := by
  rw [perform]
  obtain ⟨hnone,hok⟩ | ⟨k,m,hk,-⟩ := hd.dirLookup_eq name
  · rw [bind_ok hok]
    exact ⟨_,_,rfl,hd,⟨rfl,rfl⟩,.inl ⟨hnone,rfl⟩⟩
  · have hbound : binding s dir.inum (text name)=some m := hd.distinct.value hk
    obtain ⟨i,hok,hg,-⟩ := hd.dirLookup_found hk (hr.2 m hbound)
    obtain ⟨ht,hslots⟩ := hd.take [⟨m,i⟩] hg
    rw [bind_ok hok]
    exact ⟨_,_,rfl,ht,⟨rfl,hslots⟩,.inr ⟨⟨m,i⟩,k,hbound,rfl,hk⟩⟩

/-- `dir_link` of a name that an inode has. -/
theorem dirLink_refused {k m inum : ℕ} (hinum : inum < 2^16)
    (hk : (slots s dir.inum)[k]?=some (some (text name,m))) (hr : Room s m) :
    ∃ t,dirLink dir.index name inum s=.ok (false,t) ∧ Directory dir t ∧ Unchanged dir s t := by
  obtain ⟨i,hok,hg,hi⟩ := hd.dirLookup_found hk hr
  obtain ⟨ht,hslots⟩ := hd.take [⟨m,i⟩] hg
  have hself := setMeta_self (i:=i) s ⟨m,(s.imeta i).refs+1⟩
  have hfree : ((s.setMeta i ⟨m,(s.imeta i).refs+1⟩).imeta i).refs=1 →
      (s.imeta i).refs=0 := by
    rw [hself]
    intro hone
    exact Nat.succ.inj hone
  obtain ⟨t,hput,hdrop,ht',hslots'⟩ := ht.drop (h:=⟨m,i⟩) hg.2 fun hone => hd.unlocked (hfree hone)
  -- the reference was taken here, so what is dropped last holds no inode
  have hstays : ((s.setMeta i ⟨m,(s.imeta i).refs+1⟩).imeta i).refs≠1 ∨
      ((s.setMeta i ⟨m,(s.imeta i).refs+1⟩).idata i).valid=none := by
    by_cases hone : ((s.setMeta i ⟨m,(s.imeta i).refs+1⟩).imeta i).refs=1
    · right
      by_contra hvalid
      obtain ⟨j,hj⟩ := Option.ne_none_iff_exists'.mp hvalid
      have hpos := (hd.good.1.cached i j hj).refs
      have hzero := hfree hone
      omega
    · exact .inl hone
  have hlink : dirLink dir.index name inum s=.ok (false,t) := by
    rw [dirLink,if_neg (not_le.mpr hinum),bind_ok hok]
    dsimp only
    rw [bind_ok hput]
    rfl
  exact ⟨t,hlink,ht',(hdrop.stays hstays).2,hslots'.trans hslots⟩

/-- `dir_link` of a new name. -/
theorem dirLink_done {inum : ℕ} (hname : Terminated name) (hinum : inum≠0 ∧ inum < 2^16)
    (hnone : binding s dir.inum (text name)=none)
    (hroom : none∉slots s dir.inum → dirSize s dir.inum+deSize ≤ maxFileSize ∧
      Free s dir.inum (dirSize s dir.inum)) :
    ∃ t k,dirLink dir.index name inum s=.ok (true,t) ∧ Directory dir t ∧
      slots t dir.inum=place (slots s dir.inum) k (some (text name,inum)) ∧
      k ≤ (slots s dir.inum).length ∧ (∀ x,(slots s dir.inum)[k]?≠some (some x)) ∧
      if none∈slots s dir.inum then (slots s dir.inum)[k]?=some none
      else k=(slots s dir.inum).length := by
  have hlookup : dirLookup dir.index name s=.ok (none,s) := by
    obtain ⟨-,hok⟩ | ⟨k,m,hk,-⟩ := hd.dirLookup_eq name
    · exact hok
    · exact absurd hk (value_eq_none.mp hnone k m)
  have hslot : slot ⟨inum,name⟩=some (text name,inum) := slot_eq_some.mpr ⟨hinum.1,rfl,rfl⟩
  obtain ⟨c,hc⟩ := hd.aligned
  have hlen : (slots s dir.inum).length=c := by
    rw [length_slots,hc,Nat.mul_div_cancel_left c (by decide)]
  -- the place where the entry goes
  have hplace : ∃ k,freeOffset dir.index (dirSize s dir.inum) (offsets (dirSize s dir.inum)) s=
        .ok (deSize*k,s) ∧ k ≤ c ∧ (∀ x,(slots s dir.inum)[k]?≠some (some x)) ∧
      deSize*k+deSize ≤ maxFileSize ∧ Free s dir.inum (deSize*k) ∧
      if none∈slots s dir.inum then (slots s dir.inum)[k]?=some none
      else k=(slots s dir.inum).length := by
    obtain ⟨hok,hall⟩ | ⟨off,hoff,hzero,hok⟩ := freeOffset_returns (dirSize s dir.inum)
      hd.loaded fun off => hd.offsets_end
    · have hfull : none∉slots s dir.inum := by
        intro hmem
        obtain ⟨k,hk⟩ := List.mem_iff_getElem?.mp hmem
        have hlt : k < dirSize s dir.inum/deSize := by
          rw [← length_slots]
          exact (List.getElem?_eq_some_iff.mp hk).1
        rw [getElem?_slots,if_pos hlt,Option.some_inj,slot] at hk
        split at hk
        · rename_i hzero
          exact hall _ ((mem_offsets hd.aligned).mpr ⟨k,hlt,rfl⟩) hzero
        · cases hk
      obtain ⟨hmax,hfree⟩ := hroom hfull
      rw [hc] at hok hmax hfree ⊢
      refine ⟨c,hok,le_rfl,fun x hx => ?_,hmax,hfree,?_⟩
      · have hlt := (List.getElem?_eq_some_iff.mp hx).1
        omega
      · rw [if_neg hfull,hlen]
    · obtain ⟨k,hk,rfl⟩ := (mem_offsets hd.aligned).mp hoff
      have hsome : (slots s dir.inum)[k]?=some none := by
        rw [getElem?_slots,if_pos hk,slot,if_pos hzero]
      have hend := end_of_slot hk
      refine ⟨k,hok,?_,fun x hx => ?_,hend.trans hd.loaded.size_le,hd.loaded.free hend,?_⟩
      · rw [hc,Nat.mul_div_cancel_left c (by decide)] at hk
        exact hk.le
      · rw [hsome] at hx
        cases hx
      · rw [if_pos (List.mem_of_getElem? hsome)]
        exact hsome
  obtain ⟨k,hoff,hk,hnot,hmax,hfree,hreuse⟩ := hplace
  have hk' : k ≤ (slots s dir.inum).length := hk.trans_eq hlen.symm
  obtain ⟨t,hwrite,-,ht,hslots,-⟩ := hd.write hd.good (e:=⟨inum,name⟩) hinum.2
    (by rw [hc]; exact Nat.mul_le_mul_left _ hk) hmax hfree
    (by
      intro j a m hj
      rw [hslot,getElem?_place hk'] at hj
      split at hj
      · cases hj
        exact terminated_iff.mp hname
      · exact hd.terminated j a m hj)
    (by
      rw [hslot]
      exact hd.distinct.fill hk' hnone)
  have hlink : dirLink dir.index name inum s=.ok (true,t) := by
    have hdata : dinodeOf dir.index s=.ok ((s.idata dir.index).dinode,s) := rfl
    have hmod : ¬deSize*k%deSize≠0 := not_not.mpr (Nat.mul_mod_right ..)
    rw [dirLink,if_neg (not_le.mpr hinum.2),bind_ok hlookup]
    dsimp only
    rw [bind_ok hdata,hd.loaded.size,bind_ok hoff,if_neg hmod,bind_ok hwrite,if_pos rfl]
    rfl
  rw [hslot] at hslots
  exact ⟨t,k,hlink,ht,hslots,hk',hnot,hreuse⟩

/-- `dir_link` meets its map. -/
theorem link_meets {inum : ℕ} (hr : Ready dir s (.link name inum)) :
    ∃ a t,perform dir (.link name inum) s=.ok (a,t) ∧ Directory dir t ∧
      Meets dir s (.link name inum) a t := by
  obtain ⟨⟨hname,hinum⟩,hroom,hspace⟩ := hr
  rw [perform]
  cases hbound : binding s dir.inum (text name) with
  | none =>
    obtain ⟨t,k,hok,ht,hslots,hk,hnot,hreuse⟩ := hd.dirLink_done hname hinum hbound hspace
    rw [bind_ok hok]
    refine ⟨.done,t,rfl,ht,(if_pos hbound).mpr ⟨rfl,?_,k,hslots,hreuse⟩⟩
    rw [binding,hslots]
    exact hd.distinct.value_fill hk hnot hbound
  | some m =>
    obtain ⟨k,hk⟩ := exists_of_value hbound
    obtain ⟨t,hok,ht,hsame⟩ := hd.dirLink_refused hinum.2 hk (hroom m hbound)
    rw [bind_ok hok]
    have hne : binding s dir.inum (text name)≠none := by
      rw [hbound]
      exact Option.some_ne_none m
    exact ⟨.refused,t,rfl,ht,(if_neg hne).mpr ⟨rfl,hsame⟩⟩

/-- The inode of a name is taken and locked. -/
theorem target {k m : ℕ} (hk : (slots s dir.inum)[k]?=some (some (text name,m)))
    (hr : Room s m) (hm : Removable s m) :
    ∃ h di t u,h.inum=m ∧ dirLookup dir.index name s=.ok (some (h,deSize*k),t) ∧
      h.lock t=.ok ((),u) ∧ Directory dir u ∧ slots u dir.inum=slots s dir.inum ∧
      Good Directories [h,dir] u ∧ u.idata h.index=⟨some m,di⟩ ∧ 0 < di.nlink ∧
      h.index≠dir.index ∧ u.sb=s.sb ∧ u.disk=s.disk ∧ u.idata dir.index=s.idata dir.index := by
  obtain ⟨i,hok,hg,hi⟩ := hd.dirLookup_found hk hr
  obtain ⟨ht,hslots⟩ := hd.take [⟨m,i⟩] hg
  have hfree : s.locked i=false := by
    by_cases hzero : (s.imeta i).refs=0
    · exact hd.unlocked hzero
    · exact hm.unlocked i (Nat.pos_of_ne_zero hzero) (hi.resolve_left hzero)
  have hne : i≠dir.index := by
    rintro rfl
    rw [hd.locked] at hfree
    cases hfree
  obtain ⟨di,hlock,hg',hdi⟩ := lock_returns (h:=⟨m,i⟩) hg (List.mem_cons_self ..) hfree hm.inum hm.used
  have hself := setData_self (i:=i) ((s.setMeta i ⟨m,(s.imeta i).refs+1⟩).setLock i true) ⟨some m,di⟩
  have hdata : (((s.setMeta i ⟨m,(s.imeta i).refs+1⟩).setLock i true).setData i
      ⟨some m,di⟩).idata dir.index=s.idata dir.index := Function.update_of_ne hne.symm ..
  have hlocked : ∀ j,(((s.setMeta i ⟨m,(s.imeta i).refs+1⟩).setLock i true).setData i
      ⟨some m,di⟩).locked j=if j=i then true else s.locked j := fun j =>
    Function.update_apply ..
  have hlink : 0 < di.nlink := by
    obtain hold | hnew := hdi
    · have hold' : s.idata i=⟨some m,di⟩ := hold
      have hpos := hm.cached i (by rw [hold'])
      rwa [hold'] at hpos
    · rw [hnew]
      exact hm.linked
  obtain ⟨hu,hslots'⟩ := ht.of_kept
    (t:=((s.setMeta i ⟨m,(s.imeta i).refs+1⟩).setLock i true).setData i ⟨some m,di⟩)
    ⟨hg'.1,ht.good.2.congr rfl⟩ (hdata ▸ hd.valid) (by rw [IsDir,hdata]; exact hd.isDir)
    (by rw [hlocked,if_neg hne.symm]; exact hd.locked)
    (fun j hj => by
      rw [hlocked] at hj
      split at hj
      · rename_i e
        rw [e]
        exact hg.2.live
      · exact ht.taken j hj) (.of_disk rfl rfl)
  exact ⟨⟨m,i⟩,di,_,_,rfl,hok,hlock,hu,hslots'.trans hslots,hg',hself,hlink,hne,rfl,rfl,
    hdata⟩

/-- An inode in the cache is changed and written back. -/
theorem adjust {hs : List Inode} (hg : Good Directories hs s) {i m : ℕ}
    {f : DiskInode → DiskInode} (hf : ∀ di,Agrees (f di) di)
    (hvalid : (s.idata i).valid=some m) :
    ∃ s₁ t,setDinode i f s=.ok ((),s₁) ∧ update i s₁=.ok ((),t) ∧ Good Directories hs t ∧
      Directory dir t ∧ slots t dir.inum=slots s dir.inum ∧
      ∀ j,j≠i → t.idata j=s.idata j := by
  obtain ⟨s₁,t,hset,hup,hg',hsb,hmeta,hlock,hdisk,hdata⟩ := adjust_returns hf hg hvalid
  have hc := hg.1.cached i m hvalid
  have hcd := hd.loaded.cached
  have hgood := (update_rule s₁ ((setDinode_rule hf s hd.good).1 _ _ hset)).1 _ _ hup
  have hother : ∀ j,j≠i → t.idata j=s.idata j := fun j hj => by
    rw [hdata]
    exact Function.update_of_ne hj ..
  have hkept : Kept dir.inum s t := by
    refine kept_of_put hd.good.1 hcd.inum (hcd.same.itype ▸ hcd.used) hc.inum hsb hdisk fun e => ?_
    have hagree := hf (s.idata i).dinode
    rw [e]
    exact ⟨hagree.itype.trans hc.same.itype,hagree.size.trans hc.same.size,
      hagree.addrs.trans hc.same.addrs⟩
  have hself : (t.idata dir.index).valid=some dir.inum ∧ IsDir dir.index t := by
    by_cases e : dir.index=i
    · have hdir := hd.isDir
      have hval := hd.valid
      rw [IsDir,e] at hdir
      rw [e,hvalid] at hval
      rw [IsDir,e,hdata,Function.update_self]
      exact ⟨hval,(hf _).itype.trans hdir⟩
    · rw [IsDir,hother _ e]
      exact ⟨hd.valid,hd.isDir⟩
  obtain ⟨ht,hslots⟩ := hd.of_kept hgood hself.1 hself.2 (hlock ▸ hd.locked)
    (fun j hj => by
      rw [hlock] at hj
      rw [hmeta]
      exact hd.taken j hj) hkept
  exact ⟨s₁,t,hset,hup,hg',ht,hslots,hother⟩

/-- A count of links that is not zero is lowered and written back. -/
theorem lower {hs : List Inode} (hg : Good Directories hs s) {i m : ℕ}
    (hvalid : (s.idata i).valid=some m) (hpos : 0 < (s.idata i).dinode.nlink) :
    ∃ s₁ t,dropLink i s=.ok ((),s₁) ∧ update i s₁=.ok ((),t) ∧ Good Directories hs t ∧
      Directory dir t ∧ slots t dir.inum=slots s dir.inum ∧
      ∀ j,j≠i → t.idata j=s.idata j := by
  obtain ⟨s₁,t,hset,hrest⟩ := hd.adjust hg decNlink_agrees hvalid
  refine ⟨s₁,t,?_,hrest⟩
  rw [dropLink_eq,if_neg fun hzero => ?_]
  · exact hset
  · rw [hzero] at hpos
    exact absurd hpos (by decide)

/-- A locked inode is unlocked and dropped. -/
theorem release {h : Inode} (hg : Good Directories [h,dir] s) (hne : h.index≠dir.index) :
    ∃ t,h.unlock s=.ok ((),s.setLock h.index false) ∧
      Icache.put h (s.setLock h.index false)=.ok ((),t) ∧ Directory dir t ∧
      slots t dir.inum=slots s dir.inum ∧
      (0 < (s.idata h.index).dinode.nlink → t.disk=s.disk) := by
  have hlocked : ∀ j,(s.setLock h.index false).locked j=if j=h.index then false else s.locked j :=
    fun j => Function.update_apply ..
  obtain ⟨hu,hslots⟩ := hd.of_kept (t:=s.setLock h.index false)
    ⟨hd.good.1.setLock false,hd.good.2.congr rfl⟩ hd.valid hd.isDir
    (by rw [hlocked,if_neg hne.symm]; exact hd.locked)
    (fun j hj => by
      rw [hlocked] at hj
      split at hj
      · cases hj
      · exact hd.taken j hj) (.of_disk rfl rfl)
  obtain ⟨t,hput,hdrop,ht,hslots'⟩ := hu.drop (h:=h) (hg.2.congr rfl)
    fun _ => by rw [hlocked,if_pos rfl]
  exact ⟨t,rfl,hput,ht,hslots'.trans hslots,hdrop.linked⟩

end Directory

/-- `dir_is_empty` tells whether there are entries beyond the first two. -/
theorem dirIsEmpty_returns {i m : ℕ} (h : Loaded i m s) (ha : deSize∣dirSize s m) :
    ∃ b,dirIsEmpty i s=.ok (b,s) ∧
      (b=false ↔ ∃ (k : ℕ) (x : List UInt8×ℕ),2 ≤ k ∧ (slots s m)[k]?=some (some x)) := by
  have hdata : dinodeOf i s=.ok ((s.idata i).dinode,s) := rfl
  have hends : ∀ off∈(offsets (dirSize s m)).drop 2,off+deSize ≤ dirSize s m := by
    intro off hoff
    obtain ⟨k,hk,rfl⟩ := (mem_offsets ha).mp (List.mem_of_mem_drop hoff)
    exact end_of_slot hk
  have hlen : (dirSize s m+deSize-1)/deSize=dirSize s m/deSize := by
    obtain ⟨c,hc⟩ := ha
    rw [hc,deSize]
    omega
  have hok : dirIsEmpty i s=.ok (decide (∀ off∈(offsets (dirSize s m)).drop 2,
      (entryAt s m off).inum=0),s) := by
    rw [dirIsEmpty,bind_ok hdata,h.size]
    exact dirIsEmptyLoop_returns h hends
  refine ⟨_,hok,?_⟩
  · rw [decide_eq_false_iff_not]
    have hmem : ∀ off,off∈(offsets (dirSize s m)).drop 2 ↔
        ∃ k,2 ≤ k ∧ k < dirSize s m/deSize ∧ off=deSize*k := by
      intro off
      rw [offsets,hlen,← List.map_drop,List.range_eq_range',List.drop_range',List.mem_map]
      refine exists_congr fun k => ?_
      rw [List.mem_range'_1]
      constructor
      · rintro ⟨hk,rfl⟩
        exact ⟨by omega,by omega,rfl⟩
      · rintro ⟨h2,hk,rfl⟩
        exact ⟨by omega,rfl⟩
    push Not
    constructor
    · rintro ⟨off,hoff,hused⟩
      obtain ⟨k,h2,hk,rfl⟩ := (hmem off).mp hoff
      refine ⟨k,(text (entryAt s m (deSize*k)).name,(entryAt s m (deSize*k)).inum),h2,?_⟩
      rw [getElem?_slots,if_pos hk,slot,if_neg hused]
    · rintro ⟨k,x,h2,hx⟩
      have hk : k < dirSize s m/deSize := by
        rw [← length_slots]
        exact (List.getElem?_eq_some_iff.mp hx).1
      refine ⟨deSize*k,(hmem _).mpr ⟨k,h2,hk,rfl⟩,?_⟩
      rw [getElem?_slots,if_pos hk,Option.some_inj] at hx
      exact (slot_eq_some.mp hx).1

section Target

variable {h : Inode} {di : DiskInode} {u : Fs}

/-- A locked inode that was not changed has the type that it has on the disk. -/
theorem target_itype (hg : Good Directories [h,dir] u) (hdata : u.idata h.index=⟨some h.inum,di⟩)
    (hsb : u.sb=s.sb) (hdisk : u.disk=s.disk) :
    di.itype=(inodeAt s.sb s.disk h.inum).itype := by
  have e := (hg.1.cached h.index h.inum (by rw [hdata])).same.itype
  rw [hdata,hsb,hdisk] at e
  exact e

/-- `dir_is_empty` tells of a locked directory that was not changed whether it is full. -/
theorem target_isEmpty (hg : Good Directories [h,dir] u) (hdata : u.idata h.index=⟨some h.inum,di⟩)
    (hsb : u.sb=s.sb) (hdisk : u.disk=s.disk) (hm : Removable s h.inum)
    (hdir : di.itype=.directory) :
    ∃ b,dirIsEmpty h.index u=.ok (b,u) ∧ (b=false ↔ Full s h.inum) := by
  have hloaded : Loaded h.index h.inum u :=
    ⟨hg.1,by rw [hdata],by rw [IsDir,hdata]; exact hdir⟩
  have hkept : Kept h.inum s u := .of_disk hsb hdisk
  have htype := (target_itype hg hdata hsb hdisk).symm.trans hdir
  obtain ⟨b,hempty,hb⟩ := dirIsEmpty_returns hloaded (by rw [hkept.size]; exact hm.aligned htype)
  have hmax : dirSize s h.inum ≤ maxFileSize := by
    rw [← hkept.size]
    exact hloaded.size_le
  rw [hkept.slots hmax] at hb
  exact ⟨b,hempty,hb.trans ⟨fun hfull => ⟨htype,hfull⟩,And.right⟩⟩

/-- The links of a locked inode are lowered, and it is let go. -/
theorem Directory.letGo (hd : Directory dir u) (hg : Good Directories [h,dir] u)
    (hdata : u.idata h.index=⟨some h.inum,di⟩) (hlink : 0 < di.nlink) (hne : h.index≠dir.index) :
    ∃ x,(do
      dropLink h.index
      update h.index
      h.unlock
      Icache.put h
      pure true : Op Bool) u=.ok (true,x) ∧ Directory dir x ∧
        slots x dir.inum=slots u dir.inum := by
  obtain ⟨w₁,w₂,hset,hup,hg₂,hw₂,hslots₂,-⟩ := hd.lower hg (by rw [hdata]) (by rw [hdata]; exact hlink)
  obtain ⟨x,hunlock,hput,hx,hslotsx,-⟩ := hw₂.release hg₂ hne
  refine ⟨x,?_,hx,hslotsx.trans hslots₂⟩
  rw [bind_ok hset,bind_ok hup,bind_ok hunlock,bind_ok hput]
  rfl

end Target

/-- `dir_unlink` of a name that stays. -/
theorem Directory.dirUnlink_refused (hd : Directory dir s) (hstays : Stays dir s name)
    (hr : isDots name≠true → ∀ m,binding s dir.inum (text name)=some m → Gone dir s m) :
    ∃ t,dirUnlink dir.index name s=.ok (false,t) ∧ Directory dir t ∧ Unchanged dir s t := by
  rw [dirUnlink]
  by_cases hdots : isDots name=true
  · rw [if_pos hdots]
    exact ⟨s,rfl,hd,rfl,rfl⟩
  · rw [if_neg hdots]
    obtain ⟨-,hok⟩ | ⟨k,m,hk,-⟩ := hd.dirLookup_eq name
    · rw [bind_ok hok]
      exact ⟨s,rfl,hd,rfl,rfl⟩
    · have hbound : binding s dir.inum (text name)=some m := hd.distinct.value hk
      obtain ⟨hroom,hm,-⟩ := hr hdots m hbound
      have hfull := hstays.resolve_left hdots m hbound
      obtain ⟨h,di,t,u,rfl,hok,hlock,hu,hslots,hg,hdata,hlink,hne,hsb,hdisk,-⟩ :=
        hd.target hk hroom hm
      have htype : di.itype=.directory := (target_itype hg hdata hsb hdisk).trans hfull.1
      obtain ⟨b,hempty,hb⟩ := target_isEmpty hg hdata hsb hdisk hm htype
      obtain rfl := hb.mpr hfull
      obtain ⟨v,hunlock,hput,hv,hslots',hsame⟩ := hu.release hg hne
      have hdinode : dinodeOf h.index u=.ok (di,u) := by
        rw [dinodeOf,hdata]
      have hnlink : ¬di.nlink < 1 := by
        rw [UInt16.lt_iff_toNat_lt] at hlink ⊢
        exact not_lt.mpr hlink
      rw [bind_ok hok]
      dsimp only
      rw [bind_ok hlock,bind_ok hdinode,if_neg hnlink,if_pos htype,bind_ok hempty]
      refine ⟨v,?_,hv,?_,hslots'.trans hslots⟩
      · show (h.unlock >>= fun _ => Icache.put h >>= fun _ => pure false) u=_
        rw [bind_ok hunlock,bind_ok hput]
        rfl
      · rw [← hdisk]
        exact hsame (by rw [hdata]; exact hlink)

/-- `dir_unlink` of a name that goes. -/
theorem Directory.dirUnlink_done (hd : Directory dir s) (hgoes : ¬Stays dir s name)
    (hr : isDots name≠true → ∀ m,binding s dir.inum (text name)=some m → Gone dir s m) :
    ∃ t k m,dirUnlink dir.index name s=.ok (true,t) ∧ Directory dir t ∧
      slots t dir.inum=place (slots s dir.inum) k none ∧
      (slots s dir.inum)[k]?=some (some (text name,m)) := by
  obtain ⟨hdots,hgoes⟩ := not_or.mp hgoes
  push Not at hgoes
  obtain ⟨m,hbound,hnotfull⟩ := hgoes
  obtain ⟨hroom,hm,hparent⟩ := hr hdots m hbound
  obtain ⟨k,hk⟩ := exists_of_value hbound
  obtain ⟨h,di,t,u,rfl,hok,hlock,hu,hslots,hg,hdata,hlink,hne,hsb,hdisk,hkeepdir⟩ :=
    hd.target hk hroom hm
  have htype := target_itype hg hdata hsb hdisk
  have hdinode : dinodeOf h.index u=.ok (di,u) := by
    rw [dinodeOf,hdata]
  have hnlink : ¬di.nlink < 1 := by
    rw [UInt16.lt_iff_toNat_lt] at hlink ⊢
    exact not_lt.mpr hlink
  -- a directory that goes is empty
  have hfull : ∀ F : Bool → Op Bool,(if di.itype=.directory then
      dirIsEmpty h.index >>= fun b => (pure (!b) : Op Bool) >>= F
      else (pure false : Op Bool) >>= F) u=F false u := by
    intro F
    split
    · rename_i hdir
      obtain ⟨b,hempty,hb⟩ := target_isEmpty hg hdata hsb hdisk hm hdir
      cases b with
      | true =>
        rw [bind_ok hempty]
        rfl
      | false => exact absurd (hb.mp rfl) hnotfull
    · rfl
  -- the slot is cleared
  have hk' : (slots u dir.inum)[k]?=some (some (text name,h.inum)) := hslots ▸ hk
  have hlt : k < dirSize u dir.inum/deSize := by
    rw [← length_slots]
    exact (List.getElem?_eq_some_iff.mp hk').1
  have hlen : k ≤ (slots u dir.inum).length := by
    rw [length_slots]
    exact hlt.le
  have hend := end_of_slot hlt
  have hslot : slot DirEntry.empty=none := rfl
  obtain ⟨v,hwrite,hgv,hv,hslotsv,hdatav,hlinksv⟩ := hu.write hg (e:=.empty) (by decide) (by omega)
    (hend.trans hu.loaded.size_le) (hu.loaded.free hend)
    (fun j a x hj => by
      rw [hslot,getElem?_place hlen] at hj
      split at hj
      · cases hj
      · exact hu.terminated j a x hj)
    (hu.distinct.clear hlen)
  have hsamev : v.idata h.index=⟨some h.inum,di⟩ := by rw [hdatav _ hne,hdata]
  -- the links of a directory that is emptied are lowered before those of the inode
  have hlast : ∃ x,(do
      if di.itype=.directory then do
        dropLink dir.index
        update dir.index
      dropLink h.index
      update h.index
      h.unlock
      Icache.put h
      pure true : Op Bool) v=.ok (true,x) ∧ Directory dir x ∧
        slots x dir.inum=slots v dir.inum := by
    dsimp only
    split
    · rename_i hdir
      have hpos : 0 < (v.idata dir.index).dinode.nlink := by
        rw [hlinksv,hkeepdir]
        exact hparent (htype ▸ hdir)
      obtain ⟨w₁,w₂,hset,hup,hg₂,hw₂,hslots₂,hother⟩ := hv.lower hgv hv.valid hpos
      obtain ⟨x,hx,hdirx,hslotsx⟩ :=
        hw₂.letGo hg₂ (by rw [hother _ hne]; exact hsamev) hlink hne
      refine ⟨x,?_,hdirx,hslotsx.trans hslots₂⟩
      rw [bind_ok hset,bind_ok hup]
      exact hx
    · exact hv.letGo hgv hsamev hlink hne
  obtain ⟨x,hx,hdirx,hslotsx⟩ := hlast
  refine ⟨x,k,h.inum,?_,hdirx,?_,hk⟩
  · rw [dirUnlink,if_neg hdots,bind_ok hok]
    dsimp only
    rw [bind_ok hlock,bind_ok hdinode,if_neg hnlink,hfull,if_neg Bool.false_ne_true,
      bind_ok hwrite,if_pos rfl]
    exact hx
  · rw [hslotsx,hslotsv,hslots,hslot]

/-- `dir_unlink` meets its map. -/
theorem Directory.unlink_meets (hd : Directory dir s) (hr : Ready dir s (.unlink name)) :
    ∃ a t,perform dir (.unlink name) s=.ok (a,t) ∧ Directory dir t ∧
      Meets dir s (.unlink name) a t := by
  rw [perform]
  by_cases hstays : Stays dir s name
  · obtain ⟨t,hok,ht,hsame⟩ := hd.dirUnlink_refused hstays hr.2
    rw [bind_ok hok]
    exact ⟨.refused,t,rfl,ht,fun _ => ⟨rfl,hsame⟩,fun hn => absurd hstays hn⟩
  · obtain ⟨t,k,m,hok,ht,hslots,hk⟩ := hd.dirUnlink_done hstays hr.2
    rw [bind_ok hok]
    refine ⟨.done,t,rfl,ht,fun hc => absurd hc hstays,fun _ => ⟨rfl,?_,k,m,hslots,hk⟩⟩
    rw [binding,hslots]
    exact hd.distinct.value_clear hk

/-- A call for which there is room returns, and meets its map. -/
theorem Directory.call_meets (hd : Directory dir s) {c : Call} (hr : Ready dir s c) :
    ∃ a t,perform dir c s=.ok (a,t) ∧ Directory dir t ∧ Meets dir s c a t := by
  cases c with
  | lookup name => exact hd.lookup_meets hr
  | link name inum => exact hd.link_meets hr
  | unlink name => exact hd.unlink_meets hr
  | drop h =>
    obtain ⟨t,hok,-,ht,hslots⟩ := hd.drop hr.1 hr.2
    refine ⟨.done,t,?_,ht,rfl,hslots⟩
    rw [perform,bind_ok hok]
    rfl

/-- A run of calls leads from a directory to a directory. -/
theorem Directory.run (hd : Directory dir s) (hrun : Run dir s t) : Directory dir t := by
  induction hrun with
  | refl => exact hd
  | tail _ hstep ih =>
    obtain ⟨c,a,hr,hok⟩ := hstep
    obtain ⟨a',t',hok',ht',-⟩ := ih.call_meets hr
    rw [hok] at hok'
    cases hok'
    exact ht'

end Steps

/-- In every state that a run of calls on a directory reaches, names are distinct and end with a
zero, and a call for which there is room returns and does to the directory what its map says. -/
theorem directory_refines_map {dir : Inode} {s t : Fs} (h : Directory dir s) (hrun : Run dir s t) :
    Directory dir t ∧ ∀ c,Ready dir t c →
      ∃ a u,perform dir c t=.ok (a,u) ∧ Meets dir t c a u := by
  have ht := h.run hrun
  refine ⟨ht,fun c hr => ?_⟩
  obtain ⟨a,u,hok,-,hmeets⟩ := ht.call_meets hr
  exact ⟨a,u,hok,hmeets⟩

/-- The reference to the root directory. -/
def root : Inode := ⟨rootInum,0⟩

/-- A disk with an empty root directory, and an inode that is a file with a link. -/
def fileBeside : Disk :=
  putInodeAt smallDevice emptyRoot 2 {DiskInode.new with itype := .file,nlink := 1}

/-- What the disk holds: the inode was free, no inode has a byte, the root is a directory, and an
entry at the start of the root would need a block. -/
theorem fileBeside_inodes : (inodeAt smallDevice emptyRoot 2).itype=.empty ∧
    (∀ j,j < smallDevice.ninodes → (inodeAt smallDevice fileBeside j).size=0) ∧
    (inodeAt smallDevice fileBeside rootInum).itype=.directory ∧
    Free (FsRuns.boot smallDevice fileBeside).fs rootInum 0 := by
  rw [Free]
  decide +kernel

theorem fileBeside_owned : Owned smallDevice fileBeside (inodeAt smallDevice fileBeside) :=
  (stored_of_put smallDevice_geometry (by decide)
    (emptyRoot_owned.allocate fileBeside_inodes.1 (new_addrAt emptyRoot .file 1)) rfl rfl
    (fun _ _ => rfl) (fun _ _ _ _ _ _ => rfl) fun _ _ _ _ _ _ => rfl).owned

/-- The root directory is the current directory of a process. -/
def rootTaken : Fs := (FsRuns.boot smallDevice fileBeside).fs.setMeta 0 ⟨rootInum,1⟩

/-- The process has locked it. -/
def lockedRoot : Fs :=
  (rootTaken.setLock 0 true).setData 0 ⟨some rootInum,inodeAt smallDevice fileBeside rootInum⟩

theorem lockedRoot_good : Good Directories [root] lockedRoot := by
  have hboot : Good Directories (FsRuns.boot smallDevice fileBeside).held
      (FsRuns.boot smallDevice fileBeside).fs := by
    refine FsRuns.boot_good smallDevice_geometry fileBeside_owned fun j hj _ _ bn hbn => ?_
    rw [fileBeside_inodes.2.1 j hj] at hbn
    exact absurd hbn (Nat.not_lt_zero _)
  have hget := ((@get_rule Directories _ rootInum _ hboot).1 root rootTaken rfl).2
  have hlock : root.lock rootTaken=.ok ((),lockedRoot) := by
    have hu : (inodeAt smallDevice fileBeside rootInum).itype≠.empty := by
      rw [fileBeside_inodes.2.2.1]
      decide
    have hfree : ¬rootTaken.locked root.index=true := Bool.false_ne_true
    rw [Inode.lock,if_neg hfree]
    exact (if_neg (by decide)).trans (if_neg hu)
  exact ((lock_rule (List.mem_cons_self ..) _ hget).1 _ _ hlock).1

theorem lockedRoot_size : dirSize lockedRoot rootInum=0 :=
  congrArg UInt32.toNat (fileBeside_inodes.2.1 rootInum (by decide))

theorem lockedRoot_slots : slots lockedRoot rootInum=[] := by
  rw [slots,lockedRoot_size]
  rfl

theorem lockedRoot_directory : Directory root lockedRoot := by
  refine ⟨lockedRoot_good,rfl,fileBeside_inodes.2.2.1,rfl,fun j hj => ?_,?_,fun k a m hk => ?_,
    fun j k a b c hj => ?_⟩
  · by_cases e : j=0
    · rw [e]
      exact Nat.one_pos
    · have hfree : lockedRoot.locked j=false := Function.update_of_ne e ..
      rw [hfree] at hj
      cases hj
  · show deSize∣dirSize lockedRoot rootInum
    rw [lockedRoot_size]
    exact Nat.dvd_zero _
  · change (slots lockedRoot rootInum)[k]?=_ at hk
    rw [lockedRoot_slots] at hk
    cases hk
  · change (slots lockedRoot rootInum)[j]?=_ at hj
    rw [lockedRoot_slots] at hj
    cases hj

/-- No inode has a name in it. -/
theorem lockedRoot_unbound (name : List UInt8) : binding lockedRoot root.inum name=none := by
  change value (slots lockedRoot rootInum) name=none
  rw [lockedRoot_slots]
  rfl

/-- There is room for an entry in it. -/
theorem lockedRoot_room : dirSize lockedRoot root.inum+deSize ≤ maxFileSize ∧
    Free lockedRoot root.inum (dirSize lockedRoot root.inum) := by
  have hsb : lockedRoot.sb=smallDevice := rfl
  have hdisk : lockedRoot.disk=fileBeside := rfl
  have hfree : Free (FsRuns.boot smallDevice fileBeside).fs rootInum 0 := fileBeside_inodes.2.2.2
  have hinum : root.inum=rootInum := rfl
  rw [hinum,lockedRoot_size,Free,hsb,hdisk]
  exact ⟨by decide,hfree⟩

theorem lockedRoot_ready {name : Name} (hname : Terminated name) {inum : ℕ}
    (h : inum≠0 ∧ inum < 2^16) : Ready root lockedRoot (.link name inum) := by
  refine ⟨⟨hname,h⟩,fun m hm => ?_,fun _ => lockedRoot_room⟩
  rw [lockedRoot_unbound] at hm
  cases hm

-- what follows is about the lemmas above, never about the bytes of the disk
attribute [irreducible] lockedRoot

/-- The file gets a name. -/
@[irreducible] def namedFile : Fs :=
  match perform root (.link nameF 2) lockedRoot with
  | .ok (_,s) => s
  | .error _ => lockedRoot

theorem nameF_terminated : Terminated nameF := ⟨1,rfl⟩

theorem namedFile_eq : perform root (.link nameF 2) lockedRoot=.ok (.done,namedFile) := by
  have htwo : 2≠0 ∧ 2 < 2^16 := by decide
  obtain ⟨a,u,hu,hmeets⟩ := (directory_refines_map lockedRoot_directory .refl).2 _
    (lockedRoot_ready nameF_terminated htwo)
  rw [Meets,if_pos (lockedRoot_unbound _)] at hmeets
  have e : namedFile=u := by
    unfold namedFile
    rw [hu]
  rw [hu,hmeets.1,e]

/-- Nobody has a reference to the file, which has its one link. -/
theorem namedFile_loose : (∀ i,i < ninode → 0 < (namedFile.imeta i).refs →
      (namedFile.imeta i).inum≠2) ∧ (namedFile.imeta 1).refs=0 ∧
    binding namedFile root.inum (text nameF)=some 2 ∧ namedFile.sb.ninodes=16 ∧
    (inodeAt namedFile.sb namedFile.disk 2).itype=.file ∧
    (inodeAt namedFile.sb namedFile.disk 2).nlink=1 := by
  decide +kernel

theorem namedFile_ready (h : Directory root namedFile) :
    Ready root namedFile (.unlink nameF) := by
  obtain ⟨hloose,hfree,hbound,hinodes,htype,hnlink⟩ := namedFile_loose
  have hfile : (inodeAt namedFile.sb namedFile.disk 2).itype≠.directory := by
    rw [htype]
    decide
  have hnone : ∀ i,0 < (namedFile.imeta i).refs → (namedFile.imeta i).inum≠2 :=
    fun i hi => hloose i (h.good.1.bound i hi) hi
  refine ⟨nameF_terminated,fun _ m hm => ?_⟩
  obtain rfl : 2=m := Option.some_injective _ (hbound.symm.trans hm)
  refine ⟨⟨1,by decide,.inl hfree⟩,⟨?_,?_,fun i hi hkey => absurd hkey (hnone i hi),?_,
    fun i hi => ?_,fun hdir => absurd hdir hfile⟩,fun hdir => absurd hdir hfile⟩
  · rw [hinodes]
    decide
  · rw [htype]
    decide
  · rw [hnlink]
    decide
  · have hc := h.good.1.cached i 2 hi
    exact absurd hc.key (hnone i hc.refs)

/-- A file gets a name in the root directory, and loses it. -/
theorem directory_refines_map_namedFile :
    ∃ t u,perform root (.link nameF 2) lockedRoot=.ok (.done,t) ∧ Run root lockedRoot t ∧
      binding t root.inum=Function.update (binding lockedRoot root.inum) (text nameF) (some 2) ∧
      perform root (.unlink nameF) t=.ok (.done,u) ∧
      binding u root.inum=Function.update (binding t root.inum) (text nameF) none := by
  have hready : Ready root lockedRoot (.link nameF 2) :=
    lockedRoot_ready nameF_terminated (by decide)
  have hrun : Run root lockedRoot namedFile := .single ⟨_,_,hready,namedFile_eq⟩
  obtain ⟨a,t,ht,hlink⟩ := (directory_refines_map lockedRoot_directory .refl).2 _ hready
  rw [namedFile_eq] at ht
  cases ht
  rw [Meets,if_pos (lockedRoot_unbound _)] at hlink
  obtain ⟨hdir,hmeets⟩ := directory_refines_map lockedRoot_directory hrun
  obtain ⟨b,u,hu,-,hunlink⟩ := hmeets _ (namedFile_ready hdir)
  have hstays : ¬Stays root namedFile nameF := by
    rintro (hdots | hfull)
    · exact absurd hdots (by decide)
    · have hdir := (hfull 2 namedFile_loose.2.2.1).1
      rw [namedFile_loose.2.2.2.2.1] at hdir
      cases hdir
  obtain ⟨rfl,hgone,-⟩ := hunlink hstays
  exact ⟨namedFile,u,namedFile_eq,hrun,hlink.2.1,hu,hgone⟩

/-- `dir_unlink` does not remove `.`. -/
theorem dot_stays : ¬∀ dir s t name a,Directory dir s → Ready dir s (.unlink name) →
    perform dir (.unlink name) s=.ok (a,t) →
    binding t dir.inum=Function.update (binding s dir.inum) (text name) none := by
  intro hall
  have hname : Terminated dot := ⟨1,rfl⟩
  have hinum : rootInum≠0 ∧ rootInum < 2^16 := by decide
  obtain ⟨u,k,-,hu,hslots,hk,hnot,-⟩ := lockedRoot_directory.dirLink_done hname hinum
    (lockedRoot_unbound _) fun _ => lockedRoot_room
  have hbound : binding u root.inum=
      Function.update (binding lockedRoot root.inum) (text dot) (some rootInum) := by
    rw [binding,hslots]
    exact lockedRoot_directory.distinct.value_fill hk hnot (lockedRoot_unbound _)
  have hunlink : perform root (.unlink dot) u=.ok (.refused,u) := rfl
  have hgone := hall root u u dot .refused hu ⟨⟨1,rfl⟩,fun hn => absurd rfl hn⟩ hunlink
  have hdot := congrFun hgone (text dot)
  rw [Function.update_self,hbound,Function.update_self] at hdot
  cases hdot

end Xv6Rust.DirMap
