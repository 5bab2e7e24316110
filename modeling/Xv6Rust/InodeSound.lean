import Xv6Rust.FileContents
import Xv6Rust.Triples

/-!
# Operations on inodes keep the file system sound

A file system is sound if its blocks are owned, an inode in the cache is the inode on disk,
and inodes of some types have no holes. The operations of `fs/inode.rs` keep it sound, whatever
the copies from user memory do; the rules below say also which references they give and take.
-/

namespace Xv6Rust.InodeSound

open Bytes DiskLayout InodeLayer BlockOwnership FileContents Triples

/-- An inode in memory has the type, the size and the block numbers of that on disk. -/
structure Agrees (di dj : DiskInode) : Prop where
  /-- Type. -/
  itype : di.itype=dj.itype
  /-- Size. -/
  size : di.size=dj.size
  /-- Block numbers. -/
  addrs : di.addrs=dj.addrs

/-- An entry of the cache holds an inode. -/
structure Cached (s : Fs) (i n : ℕ) : Prop where
  /-- It is an inode. -/
  inum : n < s.sb.ninodes
  /-- The entry is referenced. -/
  refs : 0 < (s.imeta i).refs
  /-- The reference is to the inode. -/
  key : (s.imeta i).inum=n
  /-- It is allocated. -/
  used : (s.idata i).dinode.itype≠.empty
  /-- It is as on disk. -/
  same : Agrees (s.idata i).dinode (inodeAt s.sb s.disk n)

/-- A file system whose inodes of some types have no holes. -/
structure Sound (K : InodeType → Prop) (s : Fs) : Prop where
  /-- The regions of the disk. -/
  geometry : s.sb.Geometry
  /-- Blocks are owned. -/
  owned : Owned s.sb s.disk (inodeAt s.sb s.disk)
  /-- There are no holes. -/
  whole : ∀ j,j < s.sb.ninodes → (inodeAt s.sb s.disk j).itype≠.empty →
    K (inodeAt s.sb s.disk j).itype → Whole s.disk (inodeAt s.sb s.disk j)
  /-- Inodes in the cache are those on disk. -/
  cached : ∀ i n,(s.idata i).valid=some n → Cached s i n
  /-- An inode has one entry. -/
  distinct : ∀ i j,0 < (s.imeta i).refs → 0 < (s.imeta j).refs →
    (s.imeta i).inum=(s.imeta j).inum → i=j
  /-- The cache has `NINODE` entries. -/
  bound : ∀ i,0 < (s.imeta i).refs → i < ninode

/-- The number of references to an entry. -/
def refsIn (hs : List Inode) (i : ℕ) : ℕ := hs.countP fun h => decide (h.index=i)

/-- References that somebody has. -/
structure Held (s : Fs) (hs : List Inode) : Prop where
  /-- They are counted. -/
  count : ∀ i,refsIn hs i ≤ (s.imeta i).refs
  /-- They are to the inode of the entry. -/
  key : ∀ h∈hs,(s.imeta h.index).inum=h.inum

section States

variable {K : InodeType → Prop} {s t : Fs} {i n : ℕ} {hs : List Inode} {h : Inode}

theorem refsIn_cons (h : Inode) (hs : List Inode) (i : ℕ) :
    refsIn (h::hs) i=refsIn hs i+if h.index=i then 1 else 0 := by
  rw [refsIn,List.countP_cons,← refsIn]
  simp only [decide_eq_true_eq]

theorem Held.live (hh : Held s (h::hs)) : 0 < (s.imeta h.index).refs := by
  have hc := hh.count h.index
  rw [refsIn_cons,if_pos rfl] at hc
  omega

theorem Held.tail (hh : Held s (h::hs)) : Held s hs := by
  refine ⟨fun i => ?_,fun x hx => hh.key x (List.mem_cons_of_mem _ hx)⟩
  have hc := hh.count i
  rw [refsIn_cons] at hc
  omega

theorem Held.perm {hs' : List Inode} (hh : Held s hs) (hp : hs'.Perm hs) : Held s hs' :=
  ⟨fun i => (hp.countP_eq _).trans_le (hh.count i),fun x hx => hh.key x (hp.mem_iff.mp hx)⟩

/-- An entry that somebody has is referenced. -/
theorem Held.pos (hh : Held s hs) (hm : h∈hs) : 0 < (s.imeta h.index).refs :=
  (hh.perm (List.perm_cons_erase hm).symm).live

theorem Held.congr (hh : Held s hs) (ht : t.imeta=s.imeta) : Held t hs := by
  obtain ⟨hc,hk⟩ := hh
  refine ⟨?_,?_⟩
  · rwa [ht]
  · rwa [ht]

theorem Agrees.refl (di : DiskInode) : Agrees di di := ⟨rfl,rfl,rfl⟩

theorem whole_congr {d d' : Disk} {di dj : DiskInode} (h : Whole d di) (hsize : dj.size=di.size)
    (ha : ∀ p,p < npos → addrAt d' dj p=addrAt d di p) : Whole d' dj := by
  intro bn hbn
  rw [hsize] at hbn
  obtain ⟨hlt,hne⟩ := h bn hbn
  rw [ha _ (posOf_lt hlt)]
  exact ⟨hlt,hne⟩

/-- Blocks are owned with an inode as the cache has it. -/
theorem Cached.owned (hs : Sound K s) (h : Cached s i n) :
    Owned s.sb s.disk (withInode (inodeAt s.sb s.disk) n (s.idata i).dinode) := by
  refine hs.owned.congr (fun c _ => rfl) (fun j _ => ?_) fun j _ _ p _ => ?_
  · by_cases e : j=n
    · rw [e,withInode_self,h.same.itype]
    · rw [withInode_of_ne e]
  · by_cases e : j=n
    · rw [e,withInode_self]
      exact addrAt_addrs h.same.addrs p
    · rw [withInode_of_ne e]

/-- An inode in the cache has no holes if it has none on disk. -/
theorem Cached.whole (hs : Sound K s) (h : Cached s i n) (hK : K (s.idata i).dinode.itype) :
    Whole s.disk (s.idata i).dinode := by
  have hdisk := hs.whole n h.inum (by rw [← h.same.itype]; exact h.used)
    (by rw [← h.same.itype]; exact hK)
  exact whole_congr hdisk h.same.size fun p _ => addrAt_addrs h.same.addrs p

/-- An entry holds its inode as long as neither changes. -/
theorem Cached.keep {j m : ℕ} (h : Cached s j m) (hsb : t.sb=s.sb) (hmeta : t.imeta=s.imeta)
    (hdata : t.idata j=s.idata j) (hdisk : inodeAt t.sb t.disk m=inodeAt s.sb s.disk m) :
    Cached t j m := by
  obtain ⟨hinum,hrefs,hkey,hused,hsame⟩ := h
  constructor
  · rwa [hsb]
  · rwa [hmeta]
  · rwa [hmeta]
  · rwa [hdata]
  · rwa [hdata,hdisk]

/-- Other entries hold other inodes. -/
theorem Cached.other (hs : Sound K s) {j m : ℕ} (hi : Cached s i n) (hj : Cached s j m)
    (hne : j≠i) : m≠n := by
  rintro rfl
  exact hne (hs.distinct j i hj.refs hi.refs (hj.key.trans hi.key.symm))

/-- An operation on an inode in the cache that leaves it on disk. -/
theorem Sound.store (hs : Sound K s) (hi : Cached s i n) {d' : Disk} {di' : DiskInode}
    (hst : Stored s.sb n s.disk d' di') (hu : di'.itype≠.empty) (hw : K di'.itype → Whole d' di') :
    Sound K (Fs.setData {s with disk := d'} i ⟨some n,di'⟩) := by
  have hwhole : ∀ j,j < s.sb.ninodes → (inodeAt s.sb d' j).itype≠.empty →
      K (inodeAt s.sb d' j).itype → Whole d' (inodeAt s.sb d' j) := by
    intro j hj hju hK
    by_cases e : j=n
    · rw [e,hst.self] at hK ⊢
      exact hw hK
    · rw [hst.others j e hj] at hju hK ⊢
      exact whole_congr (hs.whole j hj hju hK) rfl fun p hp => hst.addrs j e hj hju p hp
  refine ⟨hs.geometry,hst.owned,hwhole,fun j m hj => ?_,hs.distinct,hs.bound⟩
  by_cases e : j=i
  · have hdata : ((Fs.setData {s with disk := d'} i ⟨some n,di'⟩).idata j)=⟨some n,di'⟩ := by
      rw [e]
      exact Function.update_self ..
    rw [hdata] at hj
    cases hj
    have href := hi.refs
    have hkey := hi.key
    rw [← e] at href hkey
    refine ⟨hi.inum,href,hkey,?_,?_⟩
    · rw [hdata]
      exact hu
    · rw [hdata]
      show Agrees di' (inodeAt s.sb d' n)
      rw [hst.self]
      exact .refl di'
  · have hdata : ((Fs.setData {s with disk := d'} i ⟨some n,di'⟩).idata j)=s.idata j :=
      Function.update_of_ne e ..
    rw [hdata] at hj
    have hold := hs.cached j m hj
    exact hold.keep rfl rfl hdata (hst.others m (Cached.other hs hi hold e) hold.inum)

/-- The entries of `meta` change, and those that hold inodes stay as they are. -/
theorem Sound.remeta (hs : Sound K s) (hsb : t.sb=s.sb) (hdisk : t.disk=s.disk)
    (hdata : t.idata=s.idata)
    (hc : ∀ i n,(s.idata i).valid=some n → 0 < (t.imeta i).refs ∧
      (t.imeta i).inum=(s.imeta i).inum)
    (hd : ∀ i j,0 < (t.imeta i).refs → 0 < (t.imeta j).refs →
      (t.imeta i).inum=(t.imeta j).inum → i=j)
    (hb : ∀ i,0 < (t.imeta i).refs → i < ninode) : Sound K t := by
  obtain ⟨tsb,tdisk,tmeta,tdata,tlocked⟩ := t
  cases hsb
  cases hdisk
  cases hdata
  refine ⟨hs.geometry,hs.owned,hs.whole,fun i n hi => ?_,hd,hb⟩
  have hold := hs.cached i n hi
  obtain ⟨hr,hk⟩ := hc i n hi
  exact ⟨hold.inum,hr,hk.trans hold.key,hold.used,hold.same⟩

@[simp] theorem retain_inum (j : ℕ) : ((s.retain i).imeta j).inum=(s.imeta j).inum := by
  show (Function.update s.imeta i _ j).inum=_
  by_cases e : j=i
  · rw [e,Function.update_self]
  · rw [Function.update_of_ne e]

theorem retain_refs (j : ℕ) :
    ((s.retain i).imeta j).refs=(s.imeta j).refs+if i=j then 1 else 0 := by
  show (Function.update s.imeta i _ j).refs=_
  by_cases e : j=i
  · rw [e,Function.update_self,if_pos rfl]
  · rw [Function.update_of_ne e,if_neg (Ne.symm e),Nat.add_zero]

@[simp] theorem release_inum (j : ℕ) : ((s.release i).imeta j).inum=(s.imeta j).inum := by
  show (Function.update s.imeta i _ j).inum=_
  by_cases e : j=i
  · rw [e,Function.update_self]
  · rw [Function.update_of_ne e]

theorem release_refs (j : ℕ) :
    ((s.release i).imeta j).refs=(s.imeta j).refs-if i=j then 1 else 0 := by
  show (Function.update s.imeta i _ j).refs=_
  by_cases e : j=i
  · rw [e,Function.update_self,if_pos rfl]
  · rw [Function.update_of_ne e,if_neg (Ne.symm e),Nat.sub_zero]

/-- One reference more to an entry that has one. -/
theorem Sound.retain (hs : Sound K s) (hi : 0 < (s.imeta i).refs) : Sound K (s.retain i) := by
  have href : ∀ j,0 < ((s.retain i).imeta j).refs → 0 < (s.imeta j).refs := by
    intro j hj
    rw [retain_refs] at hj
    split at hj
    · rename_i e
      exact e ▸ hi
    · exact hj
  refine hs.remeta rfl rfl rfl (fun j n hj => ⟨?_,retain_inum j⟩) (fun j k hj hk e => ?_)
    fun j hj => hs.bound j (href j hj)
  · have hpos := (hs.cached j n hj).refs
    rw [retain_refs]
    omega
  · rw [retain_inum,retain_inum] at e
    exact hs.distinct j k (href j hj) (href k hk) e

theorem Held.retain (hh : Held s hs) (hk : (s.imeta h.index).inum=h.inum) :
    Held (s.retain h.index) (h::hs) := by
  refine ⟨fun j => ?_,fun x hx => ?_⟩
  · rw [refsIn_cons,retain_refs]
    exact Nat.add_le_add_right (hh.count j) _
  · rw [retain_inum]
    obtain rfl | hx := List.mem_cons.mp hx
    · exact hk
    · exact hh.key x hx

/-- One reference less, to an entry that holds no inode if it was the last. -/
theorem Sound.release (hs : Sound K s)
    (hi : (s.imeta i).refs ≤ 1 → (s.idata i).valid=none) : Sound K (s.release i) := by
  have href : ∀ j,0 < ((s.release i).imeta j).refs → 0 < (s.imeta j).refs := by
    intro j hj
    rw [release_refs] at hj
    omega
  refine hs.remeta rfl rfl rfl (fun j n hj => ⟨?_,release_inum j⟩) (fun j k hj hk e => ?_)
    fun j hj => hs.bound j (href j hj)
  · have hpos := (hs.cached j n hj).refs
    rw [release_refs]
    split
    · rename_i e
      have hmore : ¬(s.imeta i).refs ≤ 1 := by
        intro hle
        rw [← e,hi hle] at hj
        cases hj
      rw [← e]
      omega
    · omega
  · rw [release_inum,release_inum] at e
    exact hs.distinct j k (href j hj) (href k hk) e

theorem Held.release (hh : Held s (h::hs)) : Held (s.release h.index) hs := by
  refine ⟨fun j => ?_,fun x hx => ?_⟩
  · have hc := hh.count j
    rw [refsIn_cons] at hc
    rw [release_refs]
    omega
  · rw [release_inum]
    exact hh.key x (List.mem_cons_of_mem _ hx)

/-- An entry lets its inode go. -/
theorem Sound.invalidate (hs : Sound K s) (di : DiskInode) : Sound K (s.setData i ⟨none,di⟩) := by
  refine ⟨hs.geometry,hs.owned,hs.whole,fun j n hj => ?_,hs.distinct,hs.bound⟩
  by_cases e : j=i
  · rw [e] at hj
    change (Function.update s.idata i ⟨none,di⟩ i).valid=some n at hj
    rw [Function.update_self] at hj
    cases hj
  · have hdata : (s.setData i ⟨none,di⟩).idata j=s.idata j := Function.update_of_ne e ..
    rw [hdata] at hj
    exact (hs.cached j n hj).keep rfl rfl hdata rfl

/-- The inode of an entry goes off the disk, and the entry lets it go. -/
theorem Sound.discard (hs : Sound K s) (hi : Cached s i n) {d' : Disk} {di' : DiskInode}
    (hst : Stored s.sb n s.disk d' di') (hu : di'.itype=.empty) :
    Sound K (Fs.setData {s with disk := d'} i ⟨none,di'⟩) := by
  refine ⟨hs.geometry,hst.owned,fun j hj hju hK => ?_,fun j m hj => ?_,hs.distinct,hs.bound⟩
  · by_cases e : j=n
    · rw [e] at hju
      exact absurd (hst.self ▸ hu) hju
    · change (inodeAt s.sb d' j).itype≠.empty at hju
      change K (inodeAt s.sb d' j).itype at hK
      show Whole d' (inodeAt s.sb d' j)
      rw [hst.others j e hj] at hju hK ⊢
      exact whole_congr (hs.whole j hj hju hK) rfl fun p hp => hst.addrs j e hj hju p hp
  · have e : j≠i := by
      rintro rfl
      change (Function.update s.idata j ⟨none,di'⟩ j).valid=some m at hj
      rw [Function.update_self] at hj
      cases hj
    have hdata : ((Fs.setData {s with disk := d'} i ⟨none,di'⟩).idata j)=s.idata j :=
      Function.update_of_ne e ..
    rw [hdata] at hj
    have hold := hs.cached j m hj
    exact hold.keep rfl rfl hdata (hst.others m (Cached.other hs hi hold e) hold.inum)

/-- Locks do not count. -/
theorem Sound.setLock (hs : Sound K s) (held : Bool) : Sound K (s.setLock i held) :=
  hs.remeta rfl rfl rfl (fun j n hj => ⟨(hs.cached j n hj).refs,rfl⟩) hs.distinct hs.bound

/-- An entry that is referenced takes its inode from the disk. -/
theorem Sound.load (hs : Sound K s) (hpos : 0 < (s.imeta i).refs) (hkey : (s.imeta i).inum=n)
    (hn : n < s.sb.ninodes) (hu : (inodeAt s.sb s.disk n).itype≠.empty) :
    Sound K (s.setData i ⟨some n,inodeAt s.sb s.disk n⟩) := by
  refine ⟨hs.geometry,hs.owned,hs.whole,fun j m hj => ?_,hs.distinct,hs.bound⟩
  by_cases e : j=i
  · have hdata : (s.setData i ⟨some n,inodeAt s.sb s.disk n⟩).idata j=
        ⟨some n,inodeAt s.sb s.disk n⟩ := by
      rw [e]
      exact Function.update_self ..
    rw [hdata] at hj
    cases hj
    rw [← e] at hpos hkey
    refine ⟨hn,hpos,hkey,?_,?_⟩
    · rw [hdata]
      exact hu
    · rw [hdata]
      exact .refl _
  · have hdata : (s.setData i ⟨some n,inodeAt s.sb s.disk n⟩).idata j=s.idata j :=
      Function.update_of_ne e ..
    rw [hdata] at hj
    exact (hs.cached j m hj).keep rfl rfl hdata rfl

/-- What `truncate` leaves. -/
theorem truncate_stored {sb : SuperBlock} {d : Disk} {di dj : DiskInode} (g : sb.Geometry)
    (h : Owned sb d (withInode (inodeAt sb d) n di)) (hn : n < sb.ninodes) (hu : di.itype≠.empty)
    (hdj : dj.addrs=di.addrs) :
    ∃ d' di',truncate sb n d dj=.ok (d',di') ∧ Truncated dj di' ∧ Stored sb n d d' di' := by
  obtain ⟨d',di',hok,ht,hown,hblocks,hinodes⟩ := truncate_owned g h hn hu hdj
  have hat : ∀ j,j < sb.ninodes → inodeAt sb d' j=withInode (inodeAt sb d) n di' j := by
    intro j hj
    rw [hinodes j hj]
    split
    · rename_i e
      rw [e,withInode_self]
    · rename_i e
      rw [withInode_of_ne e]
  -- blocks of other inodes are not in the inode table or in the bitmap
  have hheld : ∀ j,j≠n → j < sb.ninodes → (inodeAt sb d j).itype≠.empty → ∀ p,p < npos →
      addrAt d (inodeAt sb d j) p≠0 →
        d' (addrAt d (inodeAt sb d j) p)=d (addrAt d (inodeAt sb d j) p) := by
    intro j hjn hj hju p hp hne
    have hjw : withInode (inodeAt sb d) n di j=inodeAt sb d j := withInode_of_ne hjn
    have hh := holds_of (d:=d) (v:=withInode (inodeAt sb d) n di) hj (by rwa [hjw]) hp (by rwa [hjw])
    rw [hjw] at hh
    exact hblocks _ (h.range hh).1
  have haddrs : ∀ j,j≠n → j < sb.ninodes → (inodeAt sb d j).itype≠.empty → ∀ p,
      addrAt d' (inodeAt sb d j) p=addrAt d (inodeAt sb d j) p := by
    intro j hjn hj hju p
    refine addrAt_congr (fun hne => ?_) p
    have e := hheld j hjn hj hju ndirect (by decide) (by rwa [addrAt_ndirect])
    rwa [addrAt_ndirect] at e
  refine ⟨d',di',hok,ht,?_,?_,fun j hjn hj => ?_,fun j hjn hj hju p _ => haddrs j hjn hj hju p,
    fun j hjn hj hju o ho => ?_⟩
  · refine hown.congr (fun c _ => rfl) (fun j hj => ?_) fun j hj _ p _ => ?_
    · rw [hat j hj]
    · rw [hat j hj]
  · rw [hat n hn,withInode_self]
  · rw [hat j hj,withInode_of_ne hjn]
  · exact byteAt_congr (haddrs j hjn hj hju _)
      (hheld j hjn hj hju _ (posOf_lt (div_lt_of_lt_maxFileSize ho)))

end States

section Rules

variable {K : InodeType → Prop} {hs : List Inode} {h : Inode} {i n : ℕ}

theorem setData_self (s : Fs) (x : InodeData) : (s.setData i x).idata i=x := Function.update_self ..

theorem setMeta_self (s : Fs) (m : InodeMeta) : (s.setMeta i m).imeta i=m := Function.update_self ..

theorem setMeta_of_ne (s : Fs) (m : InodeMeta) {j : ℕ} (e : j≠i) :
    (s.setMeta i m).imeta j=s.imeta j := Function.update_of_ne e ..

/-- An entry that nobody has is taken for an inode that has none. -/
theorem Sound.take {s : Fs} (hs : Sound K s) (hi : (s.imeta i).refs=0) (hlt : i < ninode)
    (hnew : ∀ j,j < ninode → 0 < (s.imeta j).refs → (s.imeta j).inum≠n) :
    Sound K (s.setMeta i ⟨n,1⟩) := by
  refine hs.remeta rfl rfl rfl (fun j m hj => ?_) (fun j k hj hk e => ?_) fun j hj => ?_
  · have hpos := (hs.cached j m hj).refs
    have e : j≠i := by
      rintro rfl
      omega
    rw [setMeta_of_ne s _ e]
    exact ⟨hpos,rfl⟩
  · by_cases ej : j=i <;> by_cases ek : k=i
    · rw [ej,ek]
    · rw [ej,setMeta_self,setMeta_of_ne s _ ek] at e
      rw [setMeta_of_ne s _ ek] at hk
      exact absurd e.symm (hnew k (hs.bound k hk) hk)
    · rw [ek,setMeta_self,setMeta_of_ne s _ ej] at e
      rw [setMeta_of_ne s _ ej] at hj
      exact absurd e (hnew j (hs.bound j hj) hj)
    · rw [setMeta_of_ne s _ ej] at hj e
      rw [setMeta_of_ne s _ ek] at hk e
      exact hs.distinct j k hj hk e
  · by_cases e : j=i
    · rw [e]
      exact hlt
    · rw [setMeta_of_ne s _ e] at hj
      exact hs.bound j hj

theorem Held.take {s : Fs} (hh : Held s hs) (hi : (s.imeta i).refs=0) :
    Held (s.setMeta i ⟨n,1⟩) (⟨n,i⟩::hs) := by
  refine ⟨fun j => ?_,fun x hx => ?_⟩
  · have hc := hh.count j
    rw [refsIn_cons]
    by_cases e : j=i
    · rw [e] at hc ⊢
      rw [setMeta_self,if_pos rfl]
      dsimp only
      omega
    · rw [setMeta_of_ne s _ e,if_neg (Ne.symm e)]
      exact hc
  · obtain rfl | hx := List.mem_cons.mp hx
    · rw [setMeta_self]
    · have hpos := hh.pos hx
      have e : x.index≠i := by
        intro e
        rw [e] at hpos
        omega
      rw [setMeta_of_ne s _ e]
      exact hh.key x hx

/-- A sound file system, and references to its inodes. -/
def Good (K : InodeType → Prop) (hs : List Inode) (s : Fs) : Prop := Sound K s ∧ Held s hs

/-- Every stop but that of freeing a block twice. -/
def NotTwice (e : Stop) : Prop := e≠.doubleFree

theorem find_entry {p : ℕ → Bool} {i : ℕ} (h : (List.range ninode).find? p=some i) :
    i < ninode ∧ p i=true :=
  ⟨List.mem_range.mp (List.mem_of_find?_eq_some h),List.find?_some h⟩

/-- `ICACHE.get` gives a reference. -/
theorem get_rule (inum : ℕ) :
    Triple (Good K hs) (Icache.get inum) (fun h s => h.inum=inum ∧ Good K (h::hs) s) NotTwice := by
  intro s ⟨hs',hh⟩
  refine ⟨fun h t ht => ?_,fun e he => ?_⟩
  · rw [Icache.get] at ht
    split at ht
    · rename_i i hfind
      obtain ⟨-,hi⟩ := find_entry hfind
      rw [decide_eq_true_eq] at hi
      cases ht
      exact ⟨rfl,hs'.retain hi.2,Held.retain (h:=⟨inum,i⟩) hh hi.1⟩
    · rename_i hnone
      split at ht
      · rename_i i hfind
        obtain ⟨hlt,hi⟩ := find_entry hfind
        rw [decide_eq_true_eq] at hi
        cases ht
        refine ⟨rfl,hs'.take hi hlt fun j hj hpos e => ?_,hh.take hi⟩
        have hno := List.find?_eq_none.mp hnone j (List.mem_range.mpr hj)
        rw [decide_eq_true_eq] at hno
        exact hno ⟨e,hpos⟩
      · cases ht
  · rw [Icache.get] at he
    split at he
    · cases he
    · split at he
      · cases he
      · cases he
        nofun

/-- `ICACHE.dup` gives another. -/
theorem dup_rule (hm : h∈hs) :
    Triple (Good K hs) (Icache.dup h) (fun h' s => h'=h ∧ Good K (h::hs) s) NotTwice := by
  intro s ⟨hs',hh⟩
  refine ⟨fun h' t ht => ?_,fun e he => ?_⟩
  · cases ht
    exact ⟨rfl,hs'.retain (hh.pos hm),hh.retain (hh.key h hm)⟩
  · cases he

/-- `ICACHE.put` takes a reference; the last one to an inode that nobody names frees it. -/
theorem put_rule :
    Triple (Good K (h::hs)) (Icache.put h) (fun _ s => Good K hs s) NotTwice := by
  intro s ⟨hs',hh⟩
  have hlive := hh.live
  refine ⟨fun a t ht => ?_,fun e he => ?_⟩
  · rw [Icache.put] at ht
    split at ht
    · rename_i hlast
      split at ht
      · cases ht
      · split at ht
        · rename_i hnone
          cases ht
          exact ⟨hs'.release fun _ => hnone,hh.release⟩
        · rename_i m hvalid
          dsimp only at ht
          split at ht
          · cases ht
            have hinv : Sound K (s.setData h.index ⟨none,(s.idata h.index).dinode⟩) :=
              hs'.invalidate _
            have hh' : Held (s.setData h.index ⟨none,(s.idata h.index).dinode⟩) (h::hs) := hh.congr rfl
            refine ⟨hinv.release fun _ => ?_,hh'.release⟩
            rw [setData_self]
          · have hcached := hs'.cached _ m hvalid
            obtain ⟨d',di',hok,htr,hst⟩ := truncate_stored hs'.geometry
              (hcached.owned hs') hcached.inum hcached.used
              (show ({(s.idata h.index).dinode with itype := .empty} : DiskInode).addrs=_ from rfl)
            simp only [hok] at ht
            cases ht
            have hempty : di'.itype=.empty := by
              have e := congrArg DiskInode.itype htr.rest
              exact e
            have hdis := hs'.discard hcached hst hempty
            refine ⟨hdis.release fun _ => ?_,?_⟩
            · rw [setData_self]
            · have hh' : Held (Fs.setData {s with disk := d'} h.index ⟨none,di'⟩) (h::hs) :=
                hh.congr rfl
              exact hh'.release
    · rename_i hmore
      cases ht
      exact ⟨hs'.release fun hle => by omega,hh.release⟩
  · rw [Icache.put] at he
    split at he
    · split at he
      · cases he
        nofun
      · split at he
        · cases he
        · rename_i m hvalid
          dsimp only at he
          split at he
          · cases he
          · have hcached := hs'.cached _ m hvalid
            obtain ⟨d',di',hok,-⟩ := truncate_stored hs'.geometry
              (hcached.owned hs') hcached.inum hcached.used
              (show ({(s.idata h.index).dinode with itype := .empty} : DiskInode).addrs=_ from rfl)
            simp only [hok] at he
            cases he
    · cases he

/-- `Inode::lock` reads the inode. -/
theorem lock_rule (hm : h∈hs) :
    Triple (Good K hs) h.lock (fun _ s => Good K hs s ∧ (s.idata h.index).valid=some h.inum)
      NotTwice := by
  intro s ⟨hs',hh⟩
  refine ⟨fun a t ht => ?_,fun e he => ?_⟩
  · rw [Inode.lock] at ht
    split at ht
    · cases ht
    · dsimp only at ht
      have hlocked : Good K hs (s.setLock h.index true) := ⟨hs'.setLock true,hh.congr rfl⟩
      split at ht
      · rename_i m hvalid
        cases ht
        have hvalid' : (s.idata h.index).valid=some m := hvalid
        have hkey := (hs'.cached _ m hvalid').key
        rw [hh.key h hm] at hkey
        refine ⟨hlocked,?_⟩
        rw [hkey]
        exact hvalid'
      · split at ht
        · cases ht
        · rename_i hn
          split at ht
          · cases ht
          · rename_i hu
            cases ht
            refine ⟨⟨hlocked.1.load (hh.pos hm) (hh.key h hm) (not_le.mp hn) hu,hh.congr rfl⟩,?_⟩
            rw [setData_self]
  · rw [Inode.lock] at he
    split at he
    · cases he
      nofun
    · dsimp only at he
      split at he
      · cases he
      · split at he
        · cases he
          nofun
        · split at he
          · cases he
            nofun
          · cases he

theorem unlock_rule : Triple (Good K hs) h.unlock (fun _ s => Good K hs s) NotTwice := by
  intro s ⟨hs',hh⟩
  refine ⟨fun a t ht => ?_,fun e he => ?_⟩
  · cases ht
    exact ⟨hs'.setLock false,hh.congr rfl⟩
  · cases he

theorem dinodeOf_rule {P : Fs → Prop} :
    Triple P (dinodeOf i) (fun di s => P s ∧ (s.idata i).dinode=di) NotTwice := by
  intro s hs
  refine ⟨fun a t ht => ?_,fun e he => ?_⟩
  · cases ht
    exact ⟨hs,rfl⟩
  · cases he

/-- Fields of an inode in the cache other than type, size and block numbers are changed. -/
theorem setDinode_rule {f : DiskInode → DiskInode} (hf : ∀ di,Agrees (f di) di) :
    Triple (Good K hs) (setDinode i f) (fun _ s => Good K hs s) NotTwice := by
  intro s ⟨hs',hh⟩
  refine ⟨fun a t ht => ?_,fun e he => ?_⟩
  · cases ht
    refine ⟨⟨hs'.geometry,hs'.owned,hs'.whole,fun j n hj => ?_,hs'.distinct,hs'.bound⟩,hh.congr rfl⟩
    by_cases e : j=i
    · rw [e] at hj ⊢
      rw [setData_self] at hj
      have hold := hs'.cached i n hj
      have hagree := hf (s.idata i).dinode
      refine ⟨hold.inum,hold.refs,hold.key,?_,?_⟩
      · rw [setData_self]
        exact hagree.itype ▸ hold.used
      · rw [setData_self]
        exact ⟨hagree.itype.trans hold.same.itype,hagree.size.trans hold.same.size,
          hagree.addrs.trans hold.same.addrs⟩
    · have hdata : (s.setData i ⟨(s.idata i).valid,f (s.idata i).dinode⟩).idata j=s.idata j :=
        Function.update_of_ne e ..
      rw [hdata] at hj
      exact (hs'.cached j n hj).keep rfl rfl hdata rfl
  · cases he

/-- A count that can be raised is. -/
theorem addLink_eq {s : Fs} {i : ℕ} : addLink i s=
    if (s.idata i).dinode.nlink.toNat+1≥2^16 then .error .overflow
    else setDinode i (fun di => {di with nlink := di.nlink+1}) s := by
  change (if (s.idata i).dinode.nlink.toNat+1≥2^16 then throw .overflow
    else setDinode i fun di => {di with nlink := di.nlink+1} : Op Unit) s=_
  split <;> rfl

/-- A count that can be lowered is. -/
theorem dropLink_eq {s : Fs} {i : ℕ} : dropLink i s=
    if (s.idata i).dinode.nlink=0 then .error .overflow
    else setDinode i (fun di => {di with nlink := di.nlink-1}) s := by
  change (if (s.idata i).dinode.nlink=0 then throw .overflow
    else setDinode i fun di => {di with nlink := di.nlink-1} : Op Unit) s=_
  split <;> rfl

theorem incNlink_agrees (di : DiskInode) : Agrees {di with nlink := di.nlink+1} di :=
  ⟨rfl,rfl,rfl⟩

theorem decNlink_agrees (di : DiskInode) : Agrees {di with nlink := di.nlink-1} di :=
  ⟨rfl,rfl,rfl⟩

theorem addLink_rule : Triple (Good K hs) (addLink i) (fun _ s => Good K hs s) NotTwice :=
  dinodeOf_rule.bind fun _ => .ite (fun _ => .throw nofun) fun _ =>
    (setDinode_rule incNlink_agrees).pre fun _ h => h.1

theorem dropLink_rule : Triple (Good K hs) (dropLink i) (fun _ s => Good K hs s) NotTwice :=
  dinodeOf_rule.bind fun _ => .ite (fun _ => .throw nofun) fun _ =>
    (setDinode_rule decNlink_agrees).pre fun _ h => h.1

/-- What an operation on an inode in the cache may do. -/
def Keeps (K : InodeType → Prop) {α : Type}
    (f : SuperBlock → ℕ → Disk → DiskInode → Except Stop (α×Disk×DiskInode)) : Prop :=
  ∀ s i n,Sound K s → Cached s i n →
    (∀ a d' di',f s.sb n s.disk (s.idata i).dinode=.ok (a,d',di') →
      (d'=s.disk ∧ di'=(s.idata i).dinode) ∨
        Stored s.sb n s.disk d' di' ∧ di'.itype≠.empty ∧ (K di'.itype → Whole d' di')) ∧
    ∀ e,f s.sb n s.disk (s.idata i).dinode=.error e → NotTwice e

theorem onInode_rule {α : Type} {f : SuperBlock → ℕ → Disk → DiskInode →
    Except Stop (α×Disk×DiskInode)} (hf : Keeps K f) :
    Triple (Good K hs) (onInode i f) (fun _ s => Good K hs s) NotTwice := by
  intro s ⟨hs',hh⟩
  refine ⟨fun a t ht => ?_,fun e he => ?_⟩
  · rw [onInode] at ht
    split at ht
    · cases ht
    · rename_i n hvalid
      have hc := hs'.cached i n hvalid
      split at ht
      · cases ht
      · rename_i x d' di' hok
        cases ht
        refine ⟨?_,hh.congr rfl⟩
        obtain ⟨rfl,rfl⟩ | ⟨hst,hu,hw⟩ := (hf s i n hs' hc).1 _ _ _ hok
        · have e : Fs.setData {s with disk := s.disk} i ⟨some n,(s.idata i).dinode⟩=s := by
            rw [Fs.setData,← hvalid,Function.update_eq_self]
          rw [e]
          exact hs'
        · exact hs'.store hc hst hu hw
  · rw [onInode] at he
    split at he
    · cases he
      nofun
    · rename_i n hvalid
      split at he
      · rename_i e' herr
        cases he
        exact (hf s i n hs' (hs'.cached i n hvalid)).2 e herr
      · cases he

/-- `update`. -/
theorem update_keeps : Keeps K fun sb n d di => do
    let d ← updateInode sb n d di
    return ((),d,di) := by
  intro s i n hs' hc
  have hok : updateInode s.sb n s.disk (s.idata i).dinode=
      .ok (putInodeAt s.sb s.disk n (s.idata i).dinode) := if_neg (not_le.mpr hc.inum)
  refine ⟨fun a d' di' h => ?_,fun e h => ?_⟩
  · simp only [hok] at h
    cases h
    have hst : Stored s.sb n s.disk (putInodeAt s.sb s.disk n (s.idata i).dinode)
        (s.idata i).dinode :=
      stored_of_put hs'.geometry hc.inum (hc.owned hs') rfl rfl (fun _ _ => rfl)
        (fun _ _ _ _ _ _ => rfl) fun _ _ _ _ _ _ => rfl
    refine .inr ⟨hst,hc.used,fun hK => ?_⟩
    refine whole_congr (hc.whole hs' hK) rfl fun p _ => addrAt_congr (fun hne => ?_) p
    have hown := hc.owned hs'
    have hind := holds_indirect (d:=s.disk) (v:=withInode (inodeAt s.sb s.disk) n (s.idata i).dinode)
      hc.inum (by rw [withInode_self]; exact hc.used) (by rwa [withInode_self])
    rw [withInode_self] at hind
    exact putInodeAt_apply _ hs'.geometry hc.inum (hown.range hind).1 _
  · simp only [hok] at h
    cases h

/-- `try_iwrite`, whatever the source does. -/
theorem tryIwrite_keeps (src : Source) (offset count : ℕ) :
    Keeps K fun sb n d di => tryIwrite sb n src offset count d di := by
  intro s i n hs' hc
  refine ⟨fun r d' di' h => ?_,fun e h => ?_⟩
  · obtain ⟨⟨-,rfl,rfl⟩,-⟩ | ⟨left,d₁,di₁,hw,-,hst,-,hnums,-,hrest,hoffset,-,hsize⟩ :=
      tryIwrite_stored hs'.geometry (hc.owned hs') hc.inum hc.used h
    · exact .inl ⟨rfl,rfl⟩
    · have htype : di'.itype=(s.idata i).dinode.itype := by
        have e := congrArg DiskInode.itype hrest
        exact e
      refine .inr ⟨hst,htype ▸ hc.used,fun hK => ?_⟩
      rw [htype] at hK
      exact whole_of_wrote hw (hc.whole hs' hK) hnums hoffset hsize
  · obtain rfl | rfl := tryIwrite_error hc.inum h <;> nofun

/-- `truncate`. -/
theorem truncate_keeps : Keeps K fun sb n d di => do
    let (d,di) ← truncate sb n d di
    return ((),d,di) := by
  intro s i n hs' hc
  obtain ⟨d',di',hok,ht,hst⟩ := truncate_stored hs'.geometry (hc.owned hs') hc.inum hc.used rfl
  have htype : di'.itype=(s.idata i).dinode.itype := by
    have e := congrArg DiskInode.itype ht.rest
    exact e
  refine ⟨fun a d'' di'' h => ?_,fun e h => ?_⟩
  · simp only [hok] at h
    cases h
    refine .inr ⟨hst,htype ▸ hc.used,fun _ bn hbn => ?_⟩
    rw [ht.size] at hbn
    exact absurd hbn (Nat.not_lt_zero _)
  · simp only [hok] at h
    cases h

/-- The inode of an entry is a directory. -/
def IsDir (i : ℕ) (s : Fs) : Prop := (s.idata i).dinode.itype=.directory

/-- An entry of an inode without holes is read without a change. -/
theorem readEntry_whole {s : Fs} (hvalid : (s.idata i).valid=some n)
    (hw : Whole s.disk (s.idata i).dinode) (off : ℕ) :
    ∃ b,iread s.sb s.disk (s.idata i).dinode off deSize=.ok (b,s.disk,(s.idata i).dinode) ∧
      readEntry i off s=.ok (b.map fun b => getEntry b 0,s) := by
  obtain ⟨b,hread,-⟩ := iread_whole s.sb hw off deSize
  refine ⟨b,hread,?_⟩
  have hon : onInode i (fun sb _ d di => iread sb d di off deSize) s=.ok (b,s) := by
    have e : Fs.setData {s with disk := s.disk} i ⟨some n,(s.idata i).dinode⟩=s := by
      rw [Fs.setData,← hvalid,Function.update_eq_self]
    simp only [onInode,hvalid,hread]
    rw [e]
  show (onInode i (fun sb _ d di => iread sb d di off deSize) s >>= fun x => _)=_
  rw [hon]
  rfl

/-- An entry of a directory is read without a change, if directories have no holes. -/
theorem readEntry_eq {s : Fs} (hK : K .directory) (hs' : Sound K s) (hd : IsDir i s) (off : ℕ)
    (hvalid : (s.idata i).valid=some n) :
    ∃ b,iread s.sb s.disk (s.idata i).dinode off deSize=.ok (b,s.disk,(s.idata i).dinode) ∧
      readEntry i off s=.ok (b.map fun b => getEntry b 0,s) :=
  readEntry_whole hvalid ((hs'.cached i n hvalid).whole hs' (by rw [hd]; exact hK)) off

theorem readEntry_rule (hK : K .directory) (off : ℕ) :
    Triple (fun s => Good K hs s ∧ IsDir i s) (readEntry i off)
      (fun _ s => Good K hs s ∧ IsDir i s) NotTwice := by
  intro s ⟨hgood,hd⟩
  cases hvalid : (s.idata i).valid with
  | none =>
    have herr : readEntry i off s=.error .invalid := by
      have hon : onInode i (fun sb _ d di => iread sb d di off deSize) s=.error .invalid := by
        simp only [onInode,hvalid]
      show (onInode i (fun sb _ d di => iread sb d di off deSize) s >>= fun x => _)=_
      rw [hon]
      rfl
    rw [herr]
    exact ⟨nofun,fun e he => by cases he; nofun⟩
  | some n =>
    obtain ⟨b,-,hok⟩ := readEntry_eq hK hgood.1 hd off hvalid
    rw [hok]
    exact ⟨fun a t ht => by cases ht; exact ⟨hgood,hd⟩,nofun⟩

theorem writeEntry_rule (off : ℕ) (e : DirEntry) :
    Triple (Good K hs) (writeEntry i off e) (fun _ s => Good K hs s) NotTwice :=
  (onInode_rule (tryIwrite_keeps _ _ _)).bind fun _ => .pure fun _ h => h

theorem update_rule : Triple (Good K hs) (update i) (fun _ s => Good K hs s) NotTwice :=
  onInode_rule update_keeps

/-- References that an operation returns, before those that somebody has. -/
def optional (r : Option (Inode×ℕ)) (hs : List Inode) : List Inode :=
  match r with
  | some (h,_) => h::hs
  | none => hs

theorem dirLookupLoop_rule (hK : K .directory) (name : Name) (offs : List ℕ) :
    Triple (fun s => Good K hs s ∧ IsDir i s) (dirLookupLoop i name offs)
      (fun r s => Good K (optional r hs) s ∧ (r=none → IsDir i s)) NotTwice := by
  induction offs with
  | nil => exact .pure fun _ h => ⟨h.1,fun _ => h.2⟩
  | cons off offs ih =>
    refine (readEntry_rule hK off).bind fun r => ?_
    cases r with
    | none => exact .throw nofun
    | some e =>
      refine .ite (fun _ => ih) fun _ => .ite (fun _ => ?_) fun _ => ih
      refine ((get_rule e.inum).pre fun s h => h.1).bind fun h => ?_
      exact .pure fun _ hp => ⟨hp.2,nofun⟩

theorem dirLookup_rule (hK : K .directory) (name : Name) :
    Triple (Good K hs) (dirLookup i name)
      (fun r s => Good K (optional r hs) s ∧ (r=none → IsDir i s)) NotTwice := by
  refine dinodeOf_rule.bind fun di => .ite (fun _ => .throw nofun) fun hdir => ?_
  refine (dirLookupLoop_rule hK name _).pre fun s h => ⟨h.1,?_⟩
  rw [IsDir,h.2]
  exact not_not.mp hdir

theorem freeOffset_rule (hK : K .directory) (size : ℕ) (offs : List ℕ) :
    Triple (fun s => Good K hs s ∧ IsDir i s) (freeOffset i size offs)
      (fun _ s => Good K hs s ∧ IsDir i s) NotTwice := by
  induction offs with
  | nil => exact .pure fun _ h => h
  | cons off offs ih =>
    refine (readEntry_rule hK off).bind fun r => ?_
    cases r with
    | none => exact .throw nofun
    | some e => exact .ite (fun _ => .pure fun _ h => h) fun _ => ih

theorem dirIsEmptyLoop_rule (hK : K .directory) (offs : List ℕ) :
    Triple (fun s => Good K hs s ∧ IsDir i s) (dirIsEmptyLoop i offs)
      (fun _ s => Good K hs s ∧ IsDir i s) NotTwice := by
  induction offs with
  | nil => exact .pure fun _ h => h
  | cons off offs ih =>
    refine (readEntry_rule hK off).bind fun r => ?_
    cases r with
    | none => exact .throw nofun
    | some e => exact .ite (fun _ => .pure fun _ h => h) fun _ => ih

theorem dirIsEmpty_rule (hK : K .directory) :
    Triple (fun s => Good K hs s ∧ IsDir i s) (dirIsEmpty i)
      (fun _ s => Good K hs s ∧ IsDir i s) NotTwice :=
  dinodeOf_rule.bind fun _ => (dirIsEmptyLoop_rule hK _).pre fun _ h => h.1

theorem dirLink_rule (hK : K .directory) (name : Name) (inum : ℕ) :
    Triple (Good K hs) (dirLink i name inum) (fun _ s => Good K hs s) NotTwice := by
  refine .ite (fun _ => .throw nofun) fun _ => (dirLookup_rule hK name).bind fun r => ?_
  cases r with
  | some x =>
    refine ((put_rule (h:=x.1)).pre fun s h => h.1).bind fun _ => .pure fun _ h => h
  | none =>
    refine dinodeOf_rule.bind fun di => ((freeOffset_rule hK _ _).pre fun s h =>
      ⟨h.1.1,h.1.2 rfl⟩).bind fun off => .ite (fun _ => .throw nofun) fun _ => ?_
    refine ((writeEntry_rule off _).pre fun s h => h.1).bind fun b => ?_
    exact .ite (fun _ => .pure fun _ h => h) fun _ => .throw nofun

theorem dirUnlink_rule (hK : K .directory) (name : Name) :
    Triple (Good K hs) (dirUnlink i name) (fun _ s => Good K hs s) NotTwice := by
  refine .ite (fun _ => .pure fun _ h => h) fun _ => (dirLookup_rule hK name).bind fun r => ?_
  cases r with
  | none => exact .pure fun _ h => h.1
  | some x =>
    obtain ⟨h,off⟩ := x
    refine ((lock_rule (List.mem_cons_self ..)).pre fun s hp => hp.1).bind fun _ => ?_
    refine dinodeOf_rule.bind fun di => .ite (fun _ => .throw nofun) fun _ => ?_
    have hdec : Triple (Good K (h::hs)) (do
        dropLink h.index
        update h.index
        h.unlock
        Icache.put h
        pure true : Op Bool) (fun _ s => Good K hs s) NotTwice :=
      dropLink_rule.bind fun _ => update_rule.bind fun _ =>
        unlock_rule.bind fun _ => put_rule.bind fun _ => .pure fun _ hp => hp
    have hclear : Triple (Good K (h::hs)) (do
        if ← writeEntry i off .empty then do
          if di.itype=.directory then do
            dropLink i
            update i
          dropLink h.index
          update h.index
          h.unlock
          Icache.put h
          pure true
        else throw .rewriteEntry : Op Bool) (fun _ s => Good K hs s) NotTwice := by
      refine (writeEntry_rule off .empty).bind fun b => .ite (fun _ => ?_) fun _ => .throw nofun
      refine .ite (fun _ => ?_) fun _ => hdec
      exact dropLink_rule.bind fun _ => update_rule.bind fun _ => hdec
    have hkeep : Triple (Good K (h::hs)) (do
        h.unlock
        Icache.put h
        pure false : Op Bool) (fun _ s => Good K hs s) NotTwice :=
      unlock_rule.bind fun _ => put_rule.bind fun _ => .pure fun _ hp => hp
    -- a directory is looked at only as one
    refine .ite (fun hdir => ?_) fun _ => ?_
    · refine ((dirIsEmpty_rule hK).pre fun s hp => ⟨hp.1.1,?_⟩).bind fun _ => ?_
      · rw [IsDir,hp.2]
        exact hdir
      · exact .ite (fun _ => hkeep.pre fun s hp => hp.1) fun _ => hclear.pre fun s hp => hp.1
    · exact hclear.pre fun s hp => hp.1.1

/-- References to the inode that a path leads to. -/
def optionalInode (r : Option Inode) (hs : List Inode) : List Inode :=
  match r with
  | some h => h::hs
  | none => hs

theorem namexLoop_rule (hK : K .directory) (path : List UInt8) (isParent : Bool) (fuel : ℕ)
    (inode : Inode) (cur : ℕ) (name : Name) :
    Triple (Good K (inode::hs)) (namexLoop path isParent fuel inode cur name)
      (fun r s => Good K (optionalInode r.1 hs) s) NotTwice := by
  induction fuel generalizing inode cur name with
  | zero => exact .pure fun _ h => h
  | succ fuel ih =>
    refine .ite (fun _ => .ite (fun _ => ?_) fun _ => .pure fun _ h => h) fun _ => ?_
    · exact put_rule.bind fun _ => .pure fun _ h => h
    · refine (lock_rule (List.mem_cons_self ..)).bind fun _ => dinodeOf_rule.bind fun di => ?_
      refine Triple.pre (P:=Good K (inode::hs)) ?_ fun s hp => hp.1.1
      have hfail : Triple (Good K (inode::hs)) (do
          inode.unlock
          Icache.put inode
          return (none,(skipPath path cur name).2) : Op (Option Inode×Name))
          (fun r s => Good K (optionalInode r.1 hs) s) NotTwice :=
        unlock_rule.bind fun _ => put_rule.bind fun _ => .pure fun _ h => h
      refine .ite (fun _ => hfail) fun _ => .ite (fun _ => ?_) fun _ => ?_
      · exact unlock_rule.bind fun _ => .pure fun _ h => h
      · refine (dirLookup_rule hK _).bind fun r => ?_
        cases r with
        | none => exact hfail.pre fun _ hp => hp.1
        | some x =>
          obtain ⟨last,off⟩ := x
          have hswap : ∀ s,Good K (last::inode::hs) s → Good K (inode::last::hs) s := fun s hp =>
            ⟨hp.1,hp.2.perm (List.Perm.swap ..)⟩
          refine (unlock_rule.pre fun s hp => hp.1).bind fun _ =>
            (put_rule.pre (hswap · ·)).bind fun _ => ih last _ _

theorem namex_rule (hK : K .directory) {cwd : Inode} (path : List UInt8) (isParent : Bool)
    (hcwd : pathAt path 0≠0x2f → cwd∈hs) :
    Triple (Good K hs) (namex cwd path isParent)
      (fun r s => Good K (optionalInode r.1 hs) s) NotTwice := by
  refine .ite (fun _ => ?_) fun hrel => ?_
  · exact (get_rule rootInum).bind fun inode =>
      (namexLoop_rule hK path isParent _ inode 0 _).pre fun s hp => hp.2
  · refine (dup_rule (hcwd hrel)).bind fun inode =>
      (namexLoop_rule hK path isParent _ inode 0 _).pre fun s hp => ?_
    rw [hp.1]
    exact hp.2

theorem namei_rule (hK : K .directory) {cwd : Inode} (path : List UInt8)
    (hcwd : pathAt path 0≠0x2f → cwd∈hs) :
    Triple (Good K hs) (namei cwd path) (fun r s => Good K (optionalInode r hs) s) NotTwice :=
  (namex_rule hK path false hcwd).bind fun _ => .pure fun _ h => h

theorem nameiParent_rule (hK : K .directory) {cwd : Inode} (path : List UInt8)
    (hcwd : pathAt path 0≠0x2f → cwd∈hs) :
    Triple (Good K hs) (nameiParent cwd path)
      (fun r s => Good K (optionalInode (r.map Prod.fst) hs) s) NotTwice := by
  refine (namex_rule hK path true hcwd).bind fun r => .pure fun s h => ?_
  obtain ⟨inode,name⟩ := r
  cases inode with
  | none => exact h
  | some inode => exact h

/-- A new inode holds no block. -/
theorem new_addrAt (d : Disk) (itype : InodeType) (nlink : UInt16) (p : ℕ) :
    addrAt d {DiskInode.new with itype := itype,nlink := nlink} p=0 := by
  rw [addrAt]
  split
  · exact new_addr itype nlink 0 p
  · exact if_pos (new_addr itype nlink 0 ndirect)

/-- A free inode is allocated. -/
theorem Sound.allocate {s : Fs} (hs' : Sound K s) (hn : n < s.sb.ninodes)
    (hfree : (inodeAt s.sb s.disk n).itype=.empty) (itype : InodeType) :
    Sound K {s with disk := putInodeAt s.sb s.disk n {DiskInode.new with itype := itype}} := by
  have hst : Stored s.sb n s.disk
      (putInodeAt s.sb s.disk n {DiskInode.new with itype := itype})
      {DiskInode.new with itype := itype} :=
    stored_of_put hs'.geometry hn (hs'.owned.allocate hfree (new_addrAt s.disk itype 0)) rfl rfl
      (fun _ _ => rfl) (fun _ _ _ _ _ _ => rfl) fun _ _ _ _ _ _ => rfl
  refine ⟨hs'.geometry,hst.owned,fun j hj hju hK => ?_,fun i m hi => ?_,hs'.distinct,hs'.bound⟩
  · dsimp only at hj hju hK ⊢
    by_cases e : j=n
    · rw [e,hst.self]
      exact fun bn hbn => absurd hbn (Nat.not_lt_zero _)
    · rw [hst.others j e hj] at hju hK ⊢
      exact whole_congr (hs'.whole j hj hju hK) rfl fun p hp => hst.addrs j e hj hju p hp
  · have hold := hs'.cached i m hi
    have e : m≠n := by
      rintro rfl
      exact hold.used (hold.same.itype.trans hfree)
    refine ⟨hold.inum,hold.refs,hold.key,hold.used,?_⟩
    dsimp only
    rw [hst.others m e hold.inum]
    exact hold.same

theorem allocInode_rule (itype : InodeType) :
    Triple (Good K hs) (allocInode itype) (fun _ s => Good K hs s) NotTwice := by
  intro s ⟨hs',hh⟩
  refine ⟨fun a t ht => ?_,fun e he => ?_⟩
  · rw [allocInode] at ht
    split at ht
    · cases ht
    · rename_i inum d hok
      cases ht
      rw [inodeAlloc] at hok
      split at hok
      · cases hok
      · rename_i n hfind
        cases hok
        have hmem := List.mem_of_find?_eq_some hfind
        have hfree := List.find?_some hfind
        rw [decide_eq_true_eq] at hfree
        rw [List.mem_range'_1] at hmem
        exact ⟨hs'.allocate (by omega) hfree itype,hh.congr rfl⟩
  · rw [allocInode] at he
    split at he
    · rename_i e' herr
      cases he
      rw [inodeAlloc] at herr
      split at herr
      · cases herr
        nofun
      · cases herr
    · cases he

theorem linkDots_rule (hK : K .directory) (dir inode : Inode) :
    Triple (Good K hs) (linkDots dir inode) (fun _ s => Good K hs s) NotTwice := by
  refine addLink_rule.bind fun _ => update_rule.bind fun _ =>
    (dirLink_rule hK dot inode.inum).bind fun _ => .ite (fun _ => .throw nofun) fun _ =>
      (dirLink_rule hK dotDot dir.inum).bind fun _ => .ite (fun _ => .throw nofun) fun _ =>
        .pure fun _ h => h

theorem create_rule (hK : K .directory) {cwd : Inode} (path : List UInt8) (itype : InodeType)
    (major minor : UInt16) (reuse : Bool) (hcwd : pathAt path 0≠0x2f → cwd∈hs) :
    Triple (Good K hs) (create cwd path itype major minor reuse)
      (fun r s => Good K (optionalInode r hs) s) NotTwice := by
  refine (nameiParent_rule hK path hcwd).bind fun r => ?_
  cases r with
  | none => exact .pure fun _ h => h
  | some x =>
    obtain ⟨dir,name⟩ := x
    refine (@lock_rule K (dir::hs) dir (List.mem_cons_self ..)).bind fun _ =>
      ((dirLookup_rule hK name).pre fun s h => h.1).bind fun r => ?_
    cases r with
    | some y =>
      obtain ⟨inode,off⟩ := y
      refine .ite (fun _ => ?_) fun _ => ?_
      · refine (unlock_rule.pre fun s hp => hp.1).bind fun _ => (put_rule.pre fun s hp => ?_).bind
          fun _ => .pure fun s hp => hp
        exact ⟨hp.1,hp.2.perm (List.Perm.swap ..)⟩
      · exact (put_rule.pre fun s hp => hp.1).bind fun _ => unlock_rule.bind fun _ =>
          put_rule.bind fun _ => .pure fun _ hp => hp
    | none =>
      refine ((allocInode_rule itype).pre fun s hp => hp.1).bind fun inum =>
        (get_rule inum).bind fun inode => ?_
      have hset : Triple (Good K (inode::dir::hs)) (setDinode inode.index fun di =>
          {di with major := major,minor := minor,nlink := 1})
          (fun _ s => Good K (inode::dir::hs) s) NotTwice := setDinode_rule fun di => ⟨rfl,rfl,rfl⟩
      refine ((lock_rule (List.mem_cons_self ..)).pre fun s hp => hp.2).bind fun _ =>
        (hset.pre fun s hp => hp.1).bind fun _ => update_rule.bind fun _ => ?_
      have hlink : Triple (Good K (inode::dir::hs)) (do
          if !(← dirLink dir.index name inum) then throw .linkEntry
          else
            dir.unlock
            Icache.put dir
            inode.unlock
            return some inode : Op (Option Inode))
          (fun r s => Good K (optionalInode r hs) s) NotTwice := by
        refine (dirLink_rule hK name inum).bind fun _ => .ite (fun _ => .throw nofun) fun _ => ?_
        refine unlock_rule.bind fun _ => (put_rule.pre fun s hp => ?_).bind fun _ =>
          unlock_rule.bind fun _ => .pure fun s hp => hp
        exact ⟨hp.1,hp.2.perm (List.Perm.swap ..)⟩
      exact .ite (fun _ => (linkDots_rule hK dir inode).bind fun _ => hlink) fun _ => hlink

end Rules

end Xv6Rust.InodeSound
