import Xv6Rust.Footprints
import Xv6Rust.InodeSound
import Xv6Rust.LogErasure

/-!
# The blocks that an operation passes to the log

Every operation passes the bitmap block, blocks of the inodes that it is given, and a few others.
What a path leads through is read only: directories have no holes, and an inode that is found by
its name is not freed when it is let go.
-/

namespace Xv6Rust.LogWrites

open Bytes DiskLayout InodeLayer BlockOwnership FileContents InodeSound Triples Footprints

section Contents

variable {sb : SuperBlock} {S : Finset ℕ} {l l' : Logged} {di di' : DiskInode} {b bn : ℕ}

/-- There is one bitmap block. -/
theorem bitmapBlockno_eq (hsize : sb.size ≤ bpb) (hb : b < sb.size) :
    sb.bitmapBlockno b=sb.bitmapBlockno 0 := by
  rw [SuperBlock.bitmapBlockno,SuperBlock.bitmapBlockno,Nat.div_eq_of_lt (hb.trans_le hsize),
    Nat.zero_div]

theorem bmAlloc_adds (hsize : sb.size ≤ bpb) (hbm : sb.bitmapBlockno 0∈S)
    (h : bmAlloc sb l=.ok (b,l')) : Adds (insert b S) 0 l.passed l'.passed := by
  rw [bmAlloc] at h
  split at h
  · cases h
  · rename_i base offset hfind
    cases h
    obtain ⟨hlt,-,hblock,-⟩ := bmFind_some hfind
    have hbm' : sb.bitmapBlockno base∈insert (base+offset) S := by
      rw [← hblock,bitmapBlockno_eq hsize hlt]
      exact Finset.mem_insert_of_mem hbm
    exact ((Adds.refl _ _).known hbm').known (Finset.mem_insert_self ..)

theorem bmFree_adds (hsize : sb.size ≤ bpb) (hbm : sb.bitmapBlockno 0∈S) (hb : b < sb.size)
    (h : bmFree sb l b=.ok l') : Adds S 0 l.passed l'.passed ∧
      ∀ c,c≠sb.bitmapBlockno 0 → l'.disk c=l.disk c := by
  rw [bmFree,bitmapBlockno_eq hsize hb] at h
  split at h
  · cases h
    exact ⟨(Adds.refl _ _).known hbm,fun c hc => Function.update_of_ne hc ..⟩
  · cases h

/-- The block that is found is passed, and the indirect block, if at all. -/
theorem mapBlockno_adds (hsize : sb.size ≤ bpb) (hbm : sb.bitmapBlockno 0∈S)
    (h : mapBlockno sb l di bn=.ok (b,l',di')) : Adds (insert b S) 1 l.passed l'.passed := by
  rw [mapBlockno] at h
  split at h
  · split at h
    · cases halloc : bmAlloc sb l with
      | error e =>
        rw [halloc] at h
        cases h
      | ok x =>
        rw [halloc] at h
        cases h
        exact (bmAlloc_adds hsize hbm halloc).mono (le_refl _) (Nat.zero_le _)
    · cases h
      exact (Adds.refl _ _).mono (le_refl _) (Nat.zero_le _)
  · split at h
    · have hentry : ∀ (indirect : ℕ) (l₁ : Logged) (di₁ : DiskInode),
          Adds (insert indirect S) 0 l.passed l₁.passed →
          (if word (l₁.disk indirect) (bn-ndirect)=0 then
            bmAlloc sb l₁ >>= fun x => pure
              (x.1,x.2.write indirect (putWord (x.2.disk indirect) (bn-ndirect) x.1),di₁)
          else return (word (l₁.disk indirect) (bn-ndirect),l₁,di₁))=.ok (b,l',di') →
          Adds (insert b S) 1 l.passed l'.passed := by
        intro indirect l₁ di₁ hadds h
        split at h
        · cases halloc : bmAlloc sb l₁ with
          | error e =>
            rw [halloc] at h
            cases h
          | ok x =>
            rw [halloc] at h
            cases h
            have hfirst : Adds (insert indirect (insert x.1 S)) 0 l.passed l₁.passed :=
              hadds.mono (Finset.insert_subset_insert _ (Finset.subset_insert ..)) le_rfl
            have hsecond : Adds (insert indirect (insert x.1 S)) 0 l₁.passed x.2.passed :=
              (bmAlloc_adds hsize hbm halloc).mono (Finset.subset_insert ..) le_rfl
            exact ((hfirst.trans hsecond).known (Finset.mem_insert_self ..)).count
        · cases h
          exact hadds.count.mono (Finset.subset_insert ..) le_rfl
      split at h
      · cases halloc : bmAlloc sb l with
        | error e =>
          rw [halloc] at h
          cases h
        | ok x =>
          rw [halloc] at h
          exact hentry x.1 x.2 _ (bmAlloc_adds hsize hbm halloc) h
      · exact hentry _ l di (Adds.refl _ _) h
    · cases h

/-- A write that touches so many blocks of an inode passes them and indirect blocks. -/
theorem writeLoop_adds {src : Source} {fuel blockBase blockOffset count pos left : ℕ} (k : ℕ)
    (hsize : sb.size ≤ bpb) (hbm : sb.bitmapBlockno 0∈S) (hk : blockOffset+count ≤ k*bsize)
    (h : writeLoop sb src fuel l di blockBase blockOffset count pos=.ok (left,l',di')) :
    Adds S (2*k) l.passed l'.passed := by
  induction fuel generalizing l di blockBase blockOffset count pos k with
  | zero =>
    cases h
    exact (Adds.refl _ _).mono (le_refl _) (Nat.zero_le _)
  | succ fuel ih =>
    rw [writeLoop] at h
    split at h
    · cases h
      exact (Adds.refl _ _).mono (le_refl _) (Nat.zero_le _)
    · rename_i hcount
      obtain ⟨k,rfl⟩ : ∃ j,k=j+1 := Nat.exists_eq_succ_of_ne_zero fun e => by
        rw [e,Nat.zero_mul] at hk
        omega
      cases hmap : mapBlockno sb l di blockBase with
      | error e =>
        rw [hmap] at h
        cases h
      | ok x =>
        rw [hmap] at h
        obtain ⟨bn,l₁,di₁⟩ := x
        have hadds := mapBlockno_adds hsize hbm hmap
        change (if (src pos (min (bsize-blockOffset) count)).2 < min (bsize-blockOffset) count
          then _ else _)=_ at h
        split at h
        · cases h
          exact hadds.count.mono (le_refl _) (by omega)
        · have hwritten : Adds S 2 l.passed (bn::l₁.passed) :=
            (hadds.known (Finset.mem_insert_self ..)).count
          rw [Nat.succ_mul] at hk
          have hrest := ih k (by omega) h
          exact (hwritten.trans hrest).mono (le_refl _) (by omega)

theorem updateInode_adds {inum : ℕ} (hloc : sb.locateInode inum∈S)
    (h : updateInode sb l inum di=.ok l') : Adds S 0 l.passed l'.passed := by
  rw [updateInode] at h
  split at h
  · cases h
  · cases h
    exact (Adds.refl _ _).known hloc

theorem tryIwrite_adds {src : Source} {inum offset count : ℕ} {r : Option ℕ} (k : ℕ)
    (hsize : sb.size ≤ bpb) (hbm : sb.bitmapBlockno 0∈S) (hloc : sb.locateInode inum∈S)
    (hk : offset%bsize+count ≤ k*bsize) (h : tryIwrite sb inum src offset count l di=.ok (r,l',di')) :
    Adds S (2*k) l.passed l'.passed := by
  rw [tryIwrite] at h
  split at h
  · cases h
    exact (Adds.refl _ _).mono (le_refl _) (Nat.zero_le _)
  · cases hloop : writeLoop sb src count l di (offset/bsize) (offset%bsize) count 0 with
    | error e =>
      rw [hloop] at h
      cases h
    | ok x =>
      rw [hloop] at h
      obtain ⟨left,l₁,di₁⟩ := x
      have hadds := writeLoop_adds k hsize hbm hk hloop
      have hlast : ∀ di₂,(do
          let l ← updateInode sb l₁ inum di₂
          return (some (offset+count-left-offset),l,di₂))=.ok (r,l',di') →
          Adds S (2*k) l.passed l'.passed := by
        intro di₂ h
        cases hupd : updateInode sb l₁ inum di₂ with
        | error e =>
          rw [hupd] at h
          cases h
        | ok l₂ =>
          rw [hupd] at h
          cases h
          exact hadds.trans (updateInode_adds hloc hupd)
      exact hlast _ h

theorem freeDirect_adds {ps : List ℕ} (hsize : sb.size ≤ bpb) (hbm : sb.bitmapBlockno 0∈S)
    (hps : ∀ p∈ps,p < 13) (hr : ∀ p∈ps,di.addr p≠0 → di.addr p < sb.size)
    (h : freeDirect sb ps l di=.ok (l',di')) : Adds S 0 l.passed l'.passed ∧
      (∀ c,c≠sb.bitmapBlockno 0 → l'.disk c=l.disk c) ∧ ∀ q,q∉ps → di'.addr q=di.addr q := by
  induction ps generalizing l di with
  | nil =>
    cases h
    exact ⟨Adds.refl _ _,fun _ _ => rfl,fun _ _ => rfl⟩
  | cons p ps ih =>
    have hps' : ∀ q∈ps,q < 13 := fun q hq => hps q (List.mem_cons_of_mem _ hq)
    rw [freeDirect] at h
    split at h
    · rename_i hpos
      cases hfree : bmFree sb l (di.addr p) with
      | error e =>
        rw [hfree] at h
        cases h
      | ok l₁ =>
        rw [hfree] at h
        obtain ⟨hadds,hdisk⟩ := bmFree_adds hsize hbm
          (hr p (List.mem_cons_self ..) (Nat.pos_iff_ne_zero.mp hpos)) hfree
        have haddr := @addr_setAddr_zero di p
        have hr' : ∀ q∈ps,(di.setAddr p 0).addr q≠0 → (di.setAddr p 0).addr q < sb.size := by
          intro q hq hne
          rw [haddr (hps p (List.mem_cons_self ..))] at hne ⊢
          split at hne
          · exact absurd rfl hne
          · rename_i e
            rw [if_neg e]
            exact hr q (List.mem_cons_of_mem _ hq) hne
        obtain ⟨hadds',hdisk',hkeep⟩ := ih hps' hr' h
        refine ⟨hadds.trans hadds',fun c hc => (hdisk' c hc).trans (hdisk c hc),fun q hq => ?_⟩
        rw [List.mem_cons,not_or] at hq
        rw [hkeep q hq.2,haddr (hps p (List.mem_cons_self ..)),if_neg hq.1]
    · obtain ⟨hadds,hdisk,hkeep⟩ := ih hps' (fun q hq => hr q (List.mem_cons_of_mem _ hq)) h
      exact ⟨hadds,hdisk,fun q hq => hkeep q fun hm => hq (List.mem_cons_of_mem _ hm)⟩

theorem freeEntries_adds {buf : Buffer} {ks : List ℕ} (hsize : sb.size ≤ bpb)
    (hbm : sb.bitmapBlockno 0∈S) (hr : ∀ k∈ks,word buf k≠0 → word buf k < sb.size)
    (h : freeEntries sb buf ks l=.ok l') : Adds S 0 l.passed l'.passed := by
  induction ks generalizing l with
  | nil =>
    cases h
    exact Adds.refl _ _
  | cons k ks ih =>
    have hr' : ∀ q∈ks,word buf q≠0 → word buf q < sb.size := fun q hq =>
      hr q (List.mem_cons_of_mem _ hq)
    rw [freeEntries] at h
    split at h
    · rename_i hpos
      cases hfree : bmFree sb l (word buf k) with
      | error e =>
        rw [hfree] at h
        cases h
      | ok l₁ =>
        rw [hfree] at h
        obtain ⟨hadds,-⟩ := bmFree_adds hsize hbm
          (hr k (List.mem_cons_self ..) (Nat.pos_iff_ne_zero.mp hpos)) hfree
        exact hadds.trans (ih hr' h)
    · exact ih hr' h

/-- `truncate` passes the bitmap block and the block of the inode, if the inode has blocks only. -/
theorem truncate_adds {inum : ℕ} (g : sb.Geometry) (hsize : sb.size ≤ bpb)
    (hbm : sb.bitmapBlockno 0∈S) (hloc : sb.locateInode inum∈S)
    (hr : ∀ p,p < npos → addrAt l.disk di p≠0 →
      sb.nmeta ≤ addrAt l.disk di p ∧ addrAt l.disk di p < sb.size)
    (h : truncate sb inum l di=.ok (l',di')) : Adds S 0 l.passed l'.passed := by
  have hlast : ∀ (l₁ : Logged) (di₁ : DiskInode),Adds S 0 l.passed l₁.passed → (do
      let l ← updateInode sb l₁ inum di₁
      return (l,di₁))=.ok (l',di') → Adds S 0 l.passed l'.passed := by
    intro l₁ di₁ hadds h
    cases hupd : updateInode sb l₁ inum di₁ with
    | error e =>
      rw [hupd] at h
      cases h
    | ok l₂ =>
      rw [hupd] at h
      cases h
      exact hadds.trans (updateInode_adds hloc hupd)
  rw [truncate] at h
  cases hdirect : freeDirect sb (List.range ndirect) l di with
  | error e =>
    rw [hdirect] at h
    cases h
  | ok x =>
    rw [hdirect] at h
    obtain ⟨l₁,di₁⟩ := x
    obtain ⟨hadds,hdisk,hkeep⟩ := freeDirect_adds hsize hbm
      (fun p hp => (List.mem_range.mp hp).trans (by decide)) (fun p hp hne => by
        rw [List.mem_range] at hp
        rw [← addrAt_direct (d:=l.disk) (le_of_lt hp)] at hne ⊢
        exact (hr p (by rw [npos]; omega) hne).2) hdirect
    have hind : di₁.addr ndirect=di.addr ndirect := hkeep ndirect (by rw [List.mem_range]; omega)
    change (if di₁.addr ndirect > 0 then _ else _)=_ at h
    split at h
    · rename_i hpos
      rw [hind] at hpos h
      have hne : di.addr ndirect≠0 := Nat.pos_iff_ne_zero.mp hpos
      have hrange := hr ndirect (by decide) (by rwa [addrAt_ndirect])
      rw [addrAt_ndirect] at hrange
      -- the indirect block is not the bitmap block
      have hbitmap : di.addr ndirect≠sb.bitmapBlockno 0 := by
        have hlt := g.bitmap (di.addr ndirect) hrange.2
        rw [bitmapBlockno_eq hsize hrange.2] at hlt
        omega
      rw [hdisk _ hbitmap] at h
      cases hentries : freeEntries sb (l.disk (di.addr ndirect)) (List.range nindirect) l₁ with
      | error e =>
        rw [hentries] at h
        cases h
      | ok l₂ =>
        rw [hentries] at h
        have hwords : ∀ k∈List.range nindirect,word (l.disk (di.addr ndirect)) k≠0 →
            word (l.disk (di.addr ndirect)) k < sb.size := by
          intro k hk hword
          rw [List.mem_range] at hk
          have hat : addrAt l.disk di (k+ndirect+1)=word (l.disk (di.addr ndirect)) k := by
            rw [addrAt_entry (by omega) hne]
            congr 1
          rw [← hat] at hword ⊢
          exact (hr _ (by rw [npos]; omega) hword).2
        have hadds' := hadds.trans (freeEntries_adds hsize hbm hwords hentries)
        change (bmFree sb l₂ (di.addr ndirect) >>= _)=_ at h
        cases hfree : bmFree sb l₂ (di.addr ndirect) with
        | error e =>
          rw [hfree] at h
          cases h
        | ok l₃ =>
          rw [hfree] at h
          exact hlast _ _ (hadds'.trans (bmFree_adds hsize hbm hrange.2 hfree).1) h
    · exact hlast _ _ hadds h

/-- A block that has a number is found without a change. -/
theorem mapBlockno_silent (hbn : bn < ndirect+nindirect) (h : addrAt l.disk di (posOf bn)≠0) :
    mapBlockno sb l di bn=.ok (addrAt l.disk di (posOf bn),l,di) := by
  rw [mapBlockno]
  split
  · rename_i hlt
    have hpos : posOf bn=bn := if_pos hlt
    rw [hpos,addrAt_direct (le_of_lt hlt)] at h ⊢
    rw [if_neg h]
    rfl
  · rename_i hge
    have hpos : posOf bn=bn+1 := if_neg hge
    have hlt : ndirect < bn+1 := by omega
    have hind := indirect_of_entry (by rw [hpos]; exact hlt) h
    have e : bn+1-ndirect-1=bn-ndirect := by omega
    rw [hpos,addrAt_entry hlt hind,e] at h ⊢
    rw [if_neg hind]
    show (if word (l.disk (di.addr ndirect)) (bn-ndirect)=0 then _ else _)=_
    rw [if_neg h]
    rfl

theorem ireadLoop_silent {fuel blockBase blockOffset count pos : ℕ} {dst : Buffer}
    (hoff : blockOffset < bsize)
    (h : ∀ bn,blockBase ≤ bn → bn*bsize < blockBase*bsize+blockOffset+count →
      bn < ndirect+nindirect ∧ addrAt l.disk di (posOf bn)≠0) :
    ∃ dst',ireadLoop sb fuel l di blockBase blockOffset count pos dst=.ok (dst',l,di) := by
  induction fuel generalizing blockBase blockOffset count pos dst with
  | zero => exact ⟨dst,rfl⟩
  | succ fuel ih =>
    rw [ireadLoop]
    split
    · exact ⟨dst,rfl⟩
    · obtain ⟨hbn,hmapped⟩ := h blockBase le_rfl (by omega)
      have hsucc : (blockBase+1)*bsize=blockBase*bsize+bsize := Nat.succ_mul ..
      obtain ⟨dst',hrest⟩ := @ih (blockBase+1) 0 (count-min (bsize-blockOffset) count)
        (pos+min (bsize-blockOffset) count)
        (splice dst pos (fun j => l.disk (addrAt l.disk di (posOf blockBase)) (blockOffset+j))
          (min (bsize-blockOffset) count)) (by decide) fun bn hle hlt => by
            have hge := Nat.mul_le_mul_right bsize hle
            exact h bn (by omega) (by omega)
      refine ⟨dst',?_⟩
      rw [mapBlockno_silent hbn hmapped]
      exact hrest

/-- An inode without holes is read without a change. -/
theorem iread_silent (h : Whole l.disk di) (offset count : ℕ) :
    ∃ dst,iread sb l di offset count=.ok (dst,l,di) := by
  rw [iread]
  split
  · exact ⟨none,rfl⟩
  · have hsum : offset/bsize*bsize+offset%bsize=offset := Nat.div_add_mod' ..
    have hloop : ∃ dst,ireadLoop sb count l di (offset/bsize) (offset%bsize) count 0 (fun _ => 0)=
        .ok (dst,l,di) :=
      ireadLoop_silent (Nat.mod_lt _ (by decide)) fun bn _ hlt => h bn (by omega)
    obtain ⟨dst,hok⟩ := hloop
    refine ⟨some dst,?_⟩
    rw [hok]
    rfl

end Contents

section Names

/-- A reference to a directory. -/
abbrev Directories : InodeType → Prop := fun t => t=.directory

/-- The entry at an offset of an inode on disk. -/
def entryAt (s : Fs) (d off : ℕ) : DirEntry :=
  getEntry (fun k => byteAt s.disk (inodeAt s.sb s.disk d) (off+k)) 0

/-- A directory on disk names an inode. -/
def Named (s : Fs) (n : ℕ) : Prop :=
  ∃ d off,d < s.sb.ninodes ∧ (inodeAt s.sb s.disk d).itype=.directory ∧
    off+deSize ≤ (inodeAt s.sb s.disk d).size.toNat ∧ (entryAt s d off).inum=n

/-- Somebody has a reference to the inode, or it has links, on disk and in the cache. -/
def Linked (hs : List Inode) (s : Fs) (n : ℕ) : Prop :=
  (∃ h∈hs,h.inum=n) ∨ 0 < (inodeAt s.sb s.disk n).nlink ∧
    ∀ i,(s.idata i).valid=some n → 0 < (s.idata i).dinode.nlink

/-- The root and the inodes that are named have links or references. -/
structure Anchored (hs : List Inode) (s : Fs) : Prop where
  /-- The root. -/
  root : Linked hs s rootInum
  /-- The inodes that are named. -/
  named : ∀ n,n≠0 → Named s n → Linked hs s n

/-- A well-formed file system with one bitmap block, and the references that somebody has: blocks
are owned, directories have no holes, the cache is as the disk, and what is named is not free. -/
structure WellFormed (hs : List Inode) (s : Fs) : Prop where
  /-- Blocks, the cache and the references. -/
  good : Good Directories hs s
  /-- The bitmap. -/
  bitmap : s.sb.size ≤ bpb
  /-- Names. -/
  anchored : Anchored hs s

/-- The disk is as it was, and so are the inodes in the cache, but for those that are read from
disk. -/
structure Settled (s t : Fs) : Prop where
  /-- Super block. -/
  super : t.sb=s.sb
  /-- Disk. -/
  disk : t.disk=s.disk
  /-- Cache. -/
  data : ∀ i n,(t.idata i).valid=some n →
    t.idata i=s.idata i ∨ (t.idata i).dinode=inodeAt s.sb s.disk n

variable {s t : Fs} {hs hs' : List Inode} {h : Inode} {i n : ℕ}

theorem Settled.of_data (hsb : t.sb=s.sb) (hdisk : t.disk=s.disk) (hdata : t.idata=s.idata) :
    Settled s t := ⟨hsb,hdisk,fun i _ _ => .inl (congrFun hdata i)⟩

theorem Settled.named (ht : Settled s t) : Named t n ↔ Named s n := by
  unfold Named entryAt
  rw [ht.super,ht.disk]

theorem Linked.settled (h : Linked hs s n) (ht : Settled s t) : Linked hs t n := by
  obtain h | ⟨hdisk,hdata⟩ := h
  · exact .inl h
  · refine .inr ⟨?_,fun i hi => ?_⟩
    · rw [ht.super,ht.disk]
      exact hdisk
    · obtain e | e := ht.data i n hi
      · rw [e] at hi ⊢
        exact hdata i hi
      · rw [e]
        exact hdisk

theorem Anchored.settled (h : Anchored hs s) (ht : Settled s t) : Anchored hs t :=
  ⟨h.root.settled ht,fun n hn hnamed => (h.named n hn (ht.named.mp hnamed)).settled ht⟩

theorem Linked.mono (h : Linked hs s n) (hsub : hs ⊆ hs') : Linked hs' s n := by
  obtain ⟨x,hx,e⟩ | h := h
  · exact .inl ⟨x,hsub hx,e⟩
  · exact .inr h

theorem Anchored.mono (h : Anchored hs s) (hsub : hs ⊆ hs') : Anchored hs' s :=
  ⟨h.root.mono hsub,fun n hn hnamed => (h.named n hn hnamed).mono hsub⟩

/-- The last reference to an inode that has links or references is not to a free inode. -/
theorem Linked.last (hl : Linked hs' s n) (hsub : hs' ⊆ hs) (hg : Good Directories (h::hs) s)
    (hn : h.inum=n) (hlast : (s.imeta h.index).refs=1) (hvalid : (s.idata h.index).valid=some n) :
    0 < (s.idata h.index).dinode.nlink := by
  obtain ⟨x,hx,e⟩ | ⟨-,hdata⟩ := hl
  · -- the other reference is to the same entry
    have hmem := List.mem_cons_of_mem h (hsub hx)
    have hkey : (s.imeta x.index).inum=(s.imeta h.index).inum := by
      rw [hg.2.key x hmem,hg.2.key h (List.mem_cons_self ..),e,hn]
    have hindex : x.index=h.index := hg.1.distinct _ _ (hg.2.pos hmem) hg.2.live hkey
    have hcount := hg.2.count h.index
    rw [refsIn_cons,if_pos rfl,hlast] at hcount
    have hone : 0 < refsIn hs h.index := List.countP_pos_iff.mpr ⟨x,hsub hx,by simpa using hindex⟩
    omega
  · exact hdata _ hvalid

/-- An inode in the cache has data blocks only. -/
theorem cached_range (hs' : Sound Directories s) (hc : Cached s i n) {p : ℕ} (hp : p < npos)
    (hne : addrAt s.disk (s.idata i).dinode p≠0) :
    s.sb.nmeta ≤ addrAt s.disk (s.idata i).dinode p ∧
      addrAt s.disk (s.idata i).dinode p < s.sb.size := by
  have hself := @withInode_self (inodeAt s.sb s.disk) (s.idata i).dinode n
  have hholds := holds_of (d:=s.disk) (v:=withInode (inodeAt s.sb s.disk) n (s.idata i).dinode)
    hc.inum (by rw [hself]; exact hc.used) hp (by rwa [hself])
  rw [hself] at hholds
  exact (hc.owned hs').range hholds

end Names

section Rules

/-- A span whose file system satisfies `P`, and that has passed blocks of `S` and so many others. -/
structure Within (sb : SuperBlock) (S : Finset ℕ) (n : ℕ) (P : Fs → Prop) (s : Span) : Prop where
  /-- The file system. -/
  fs : P s.fs
  /-- Its super block. -/
  super : s.fs.sb=sb
  /-- The blocks that are passed. -/
  adds : Adds S n [] s.passed

/-- Any reason to stop. -/
abbrev Any : Stop → Prop := fun _ => True

variable {sb : SuperBlock} {S T : Finset ℕ} {m n : ℕ} {P Q : Fs → Prop} {hs : List Inode}
  {h : Inode} {i : ℕ}

theorem Within.imp {s : Span} (hw : Within sb S n P s) (hPQ : ∀ s,P s → Q s) : Within sb S n Q s :=
  ⟨hPQ _ hw.fs,hw.super,hw.adds⟩

theorem Within.mono {s : Span} (hw : Within sb S n P s) (hS : S ⊆ T) (hn : n ≤ m) :
    Within sb T m P s := ⟨hw.fs,hw.super,hw.adds.mono hS hn⟩

/-- A block that is known may as well be counted. -/
theorem Within.count {b : ℕ} {s : Span} (hw : Within sb (insert b S) n P s) :
    Within sb S (n+1) P s := ⟨hw.fs,hw.super,hw.adds.count⟩

/-- What is silent passes nothing. -/
theorem silent_within {α : Type} {m : Op α} {R : α → Fs → Prop} (hm : Triple P m R NotTwice)
    (hsb : ∀ s a t,m s=.ok (a,t) → t.sb=s.sb) :
    Triple (Within sb S n P) (silent m) (fun a => Within sb S n (R a)) Any := by
  intro s hw
  refine ⟨fun a t ht => ?_,fun _ _ => trivial⟩
  rw [silent] at ht
  split at ht
  · cases ht
  · rename_i a' fs hok
    cases ht
    exact ⟨(hm _ hw.fs).1 _ _ hok,(hsb _ _ _ hok).trans hw.super,hw.adds⟩

/-- What settles the file system keeps what settling keeps. -/
theorem settle_within {α : Type} {m : Op α} {R : α → Fs → Prop} {A : Fs → Prop}
    (hm : Triple P m R NotTwice) (hset : ∀ s a t,m s=.ok (a,t) → Settled s t)
    (hA : ∀ s t,Settled s t → A s → A t) :
    Triple (Within sb S n fun s => P s ∧ A s) (silent m) (fun a => Within sb S n fun s => R a s ∧ A s)
      Any := by
  refine silent_within (fun s hs => ⟨fun a t ht => ?_,(hm s hs.1).2⟩)
    fun s a t ht => (hset s a t ht).super
  exact ⟨(hm s hs.1).1 a t ht,hA _ _ (hset s a t ht) hs.2⟩

theorem get_settled (inum : ℕ) (s : Fs) (h : Inode) (t : Fs) (ht : Icache.get inum s=.ok (h,t)) :
    Settled s t := by
  rw [Icache.get] at ht
  split at ht
  · cases ht
    exact .of_data rfl rfl rfl
  · split at ht
    · cases ht
      exact .of_data rfl rfl rfl
    · cases ht

theorem dup_settled (h : Inode) (s : Fs) (h' : Inode) (t : Fs) (ht : Icache.dup h s=.ok (h',t)) :
    Settled s t := by
  cases ht
  exact .of_data rfl rfl rfl

theorem lock_settled (h : Inode) (s : Fs) (a : Unit) (t : Fs) (ht : h.lock s=.ok (a,t)) :
    Settled s t := by
  rw [Inode.lock] at ht
  split at ht
  · cases ht
  · dsimp only at ht
    split at ht
    · cases ht
      exact .of_data rfl rfl rfl
    · split at ht
      · cases ht
      · split at ht
        · cases ht
        · cases ht
          refine ⟨rfl,rfl,fun j n hj => ?_⟩
          by_cases e : j=h.index
          · rw [e,setData_self] at hj
            cases hj
            rw [e,setData_self]
            exact .inr rfl
          · exact .inl (Function.update_of_ne e ..)

theorem unlock_settled (h : Inode) (s : Fs) (a : Unit) (t : Fs) (ht : h.unlock s=.ok (a,t)) :
    Settled s t := by
  cases ht
  exact .of_data rfl rfl rfl

theorem dinodeOf_settled (i : ℕ) (s : Fs) (di : DiskInode) (t : Fs)
    (ht : dinodeOf i s=.ok (di,t)) : Settled s t := by
  cases ht
  exact .of_data rfl rfl rfl

theorem get_within (inum : ℕ) :
    Triple (Within sb S n (Good Directories hs)) (silent (Icache.get inum))
      (fun h => Within sb S n fun s => h.inum=inum ∧ Good Directories (h::hs) s) Any :=
  silent_within (get_rule inum) fun s a t ht => (get_settled inum s a t ht).super

theorem lock_within (hm : h∈hs) :
    Triple (Within sb S n (Good Directories hs)) (silent h.lock)
      (fun _ => Within sb S n fun s => Good Directories hs s ∧
        (s.idata h.index).valid=some h.inum) Any :=
  silent_within (lock_rule hm) fun s a t ht => (lock_settled h s a t ht).super

theorem unlock_within :
    Triple (Within sb S n (Good Directories hs)) (silent h.unlock)
      (fun _ => Within sb S n (Good Directories hs)) Any :=
  silent_within unlock_rule fun s a t ht => (unlock_settled h s a t ht).super

theorem dinodeOf_within :
    Triple (Within sb S n P) (silent (dinodeOf i))
      (fun di => Within sb S n fun s => P s ∧ (s.idata i).dinode=di) Any :=
  silent_within dinodeOf_rule fun s a t ht => (dinodeOf_settled i s a t ht).super

theorem setDinode_within {f : DiskInode → DiskInode} (hf : ∀ di,Agrees (f di) di) :
    Triple (Within sb S n (Good Directories hs)) (silent (setDinode i f))
      (fun _ => Within sb S n (Good Directories hs)) Any := by
  refine silent_within (setDinode_rule hf) fun s a t ht => ?_
  cases ht
  rfl

theorem addLink_within :
    Triple (Within sb S n (Good Directories hs)) (silent (addLink i))
      (fun _ => Within sb S n (Good Directories hs)) Any := by
  refine silent_within addLink_rule fun s a t ht => ?_
  rw [addLink_eq] at ht
  split at ht
  · cases ht
  · cases ht
    rfl

theorem dropLink_within :
    Triple (Within sb S n (Good Directories hs)) (silent (dropLink i))
      (fun _ => Within sb S n (Good Directories hs)) Any := by
  refine silent_within dropLink_rule fun s a t ht => ?_
  rw [dropLink_eq] at ht
  split at ht
  · cases ht
  · cases ht
    rfl

/-- `put` passes at most the bitmap block and the block of the inode. -/
theorem put_within (hsize : sb.size ≤ bpb) (hbm : sb.bitmapBlockno 0∈S)
    (hloc : sb.locateInode h.inum∈S) :
    Triple (Within sb S n (Good Directories (h::hs))) (put h)
      (fun _ => Within sb S n (Good Directories hs)) Any := by
  intro s hw
  refine ⟨fun a t ht => ?_,fun _ _ => trivial⟩
  have hgood := (((put_erases h).triple put_rule) s hw.fs).1 a t ht
  obtain ⟨⟨hsound,hheld⟩,hsb,hadds⟩ := hw
  have hkey := hheld.key h (List.mem_cons_self ..)
  rw [put] at ht
  split at ht
  · split at ht
    · cases ht
    · split at ht
      · cases ht
        exact ⟨hgood,hsb,hadds⟩
      · rename_i k hvalid
        dsimp only at ht
        split at ht
        · cases ht
          exact ⟨hgood,hsb,hadds⟩
        · have hc := hsound.cached _ k hvalid
          have hk : k=h.inum := hc.key.symm.trans hkey
          split at ht
          · cases ht
          · rename_i l di htrunc
            cases ht
            refine ⟨hgood,hsb,?_⟩
            have hg := hsound.geometry
            rw [hsb] at htrunc hg
            have hmore : Adds S 0 s.passed l.passed := by
              refine truncate_adds hg hsize hbm (hk ▸ hloc) (fun p hp hne => ?_) htrunc
              have haddr : addrAt s.logged.disk
                  {(s.fs.idata h.index).dinode with itype := .empty} p=
                  addrAt s.fs.disk (s.fs.idata h.index).dinode p := addrAt_addrs rfl p
              rw [haddr] at hne ⊢
              rw [← hsb]
              exact cached_range hsound hc hp hne
            exact hadds.trans hmore
  · cases ht
    exact ⟨hgood,hsb,hadds⟩

/-- `put` of a reference to an inode that has links or other references passes nothing. -/
theorem put_linked {base : List Inode} {A : Fs → Prop} (hsub : base ⊆ hs)
    (hA : ∀ s t,Settled s t → A s → A t) :
    Triple (Within sb S n fun s => Good Directories (h::hs) s ∧ Linked base s h.inum ∧ A s) (put h)
      (fun _ => Within sb S n fun s => Good Directories hs s ∧ A s) Any := by
  intro s hw
  refine ⟨fun a t ht => ?_,fun _ _ => trivial⟩
  have hgood := (((put_erases h).triple put_rule) s hw.fs.1).1 a t ht
  obtain ⟨⟨hfs,hlinked,ha⟩,hsb,hadds⟩ := hw
  rw [put] at ht
  split at ht
  · rename_i hlast
    split at ht
    · cases ht
    · split at ht
      · cases ht
        exact ⟨⟨hgood,hA s.fs _ (.of_data rfl rfl rfl) ha⟩,hsb,hadds⟩
      · rename_i k hvalid
        have hk : k=h.inum :=
          (hfs.1.cached _ k hvalid).key.symm.trans (hfs.2.key h (List.mem_cons_self ..))
        rw [hk] at hvalid
        have hpos := hlinked.last hsub hfs rfl hlast hvalid
        dsimp only at ht
        rw [if_pos hpos] at ht
        cases ht
        refine ⟨⟨hgood,hA s.fs _ ⟨rfl,rfl,fun j m hj => ?_⟩ ha⟩,hsb,hadds⟩
        by_cases e : j=h.index
        · rw [e] at hj
          change ((s.fs.setData h.index ⟨none,(s.fs.idata h.index).dinode⟩).idata h.index).valid=_ at hj
          rw [setData_self] at hj
          cases hj
        · exact .inl (Function.update_of_ne e ..)
  · cases ht
    exact ⟨⟨hgood,hA s.fs _ (.of_data rfl rfl rfl) ha⟩,hsb,hadds⟩

/-- An operation on an inode to which somebody has a reference. -/
theorem onInode_within {α : Type} {k : ℕ}
    {f : SuperBlock → ℕ → Logged → DiskInode → Except Stop (α×Logged×DiskInode)}
    {g : SuperBlock → ℕ → Disk → DiskInode → Except Stop (α×Disk×DiskInode)} (hm : h∈hs)
    (hfg : ∀ sb n l di,(f sb n l di).map erase=g sb n l.disk di) (hg : Keeps Directories g)
    (hadds : ∀ s : Span,Sound Directories s.fs → Cached s.fs h.index h.inum → s.fs.sb=sb →
      ∀ a l di,f sb h.inum s.logged (s.fs.idata h.index).dinode=.ok (a,l,di) →
        Adds S k s.passed l.passed) :
    Triple (Within sb S n (Good Directories hs)) (onInode h.index f)
      (fun _ => Within sb S (n+k) (Good Directories hs)) Any := by
  intro s hw
  refine ⟨fun a t ht => ?_,fun _ _ => trivial⟩
  have hgood := (((onInode_erases h.index hfg).triple (onInode_rule hg)) s hw.fs).1 a t ht
  obtain ⟨⟨hsound,hheld⟩,hsb,hpassed⟩ := hw
  rw [onInode] at ht
  split at ht
  · cases ht
  · rename_i j hvalid
    have hc := hsound.cached _ j hvalid
    have hj : j=h.inum := hc.key.symm.trans (hheld.key h hm)
    rw [hj] at hc
    rw [hj,hsb] at ht
    split at ht
    · cases ht
    · rename_i a' l di hok
      cases ht
      exact ⟨hgood,hsb,hpassed.trans (hadds s hsound hc hsb _ _ _ hok)⟩

theorem update_within (hm : h∈hs) (hloc : sb.locateInode h.inum∈S) :
    Triple (Within sb S n (Good Directories hs)) (update h.index)
      (fun _ => Within sb S n (Good Directories hs)) Any := by
  refine onInode_within (k:=0) hm (fun sb n l di => ?_) update_keeps fun s _ _ _ a l di hok => ?_
  · rw [← updateInode_erases]
    cases updateInode sb l n di with
    | error e => rfl
    | ok l => rfl
  · cases hupd : updateInode sb s.logged h.inum (s.fs.idata h.index).dinode with
    | error e =>
      rw [hupd] at hok
      cases hok
    | ok l' =>
      rw [hupd] at hok
      cases hok
      exact updateInode_adds hloc hupd

/-- A write passes two blocks for each block of the inode that it touches. -/
theorem tryIwrite_within (src : Source) {offset count : ℕ} (k : ℕ) (hsize : sb.size ≤ bpb)
    (hbm : sb.bitmapBlockno 0∈S) (hm : h∈hs) (hloc : sb.locateInode h.inum∈S)
    (hk : offset%bsize+count ≤ k*bsize) :
    Triple (Within sb S n (Good Directories hs)) (onInode h.index fun sb inum l di =>
        tryIwrite sb inum src offset count l di)
      (fun _ => Within sb S (n+2*k) (Good Directories hs)) Any :=
  onInode_within hm (fun _ n l di => tryIwrite_erases n src offset count l di)
    (tryIwrite_keeps src offset count) fun _ _ _ _ _ _ _ hok =>
      tryIwrite_adds k hsize hbm hloc hk hok

theorem writeEntry_within {off : ℕ} (e : DirEntry) (k : ℕ) (hsize : sb.size ≤ bpb)
    (hbm : sb.bitmapBlockno 0∈S) (hm : h∈hs) (hloc : sb.locateInode h.inum∈S)
    (hk : off%bsize+deSize ≤ k*bsize) :
    Triple (Within sb S n (Good Directories hs)) (writeEntry h.index off e)
      (fun _ => Within sb S (n+2*k) (Good Directories hs)) Any :=
  (tryIwrite_within (kernelSource (entryBytes e)) k hsize hbm hm hloc hk).bind fun _ =>
    .pure fun _ hw => hw

theorem truncateInode_within (hsize : sb.size ≤ bpb) (hbm : sb.bitmapBlockno 0∈S) (hm : h∈hs)
    (hloc : sb.locateInode h.inum∈S) :
    Triple (Within sb S n (Good Directories hs)) (truncateInode h.index)
      (fun _ => Within sb S n (Good Directories hs)) Any := by
  refine onInode_within (k:=0) hm (fun sb n l di => ?_) truncate_keeps fun s hs' hc hsb a l di hok => ?_
  · rw [← truncate_erases]
    cases truncate sb n l di with
    | error e => rfl
    | ok x => rfl
  · cases htrunc : truncate sb h.inum s.logged (s.fs.idata h.index).dinode with
    | error e =>
      rw [htrunc] at hok
      cases hok
    | ok x =>
      rw [htrunc] at hok
      cases hok
      subst hsb
      exact truncate_adds hs'.geometry hsize hbm hloc (fun p hp hne => cached_range hs' hc hp hne) htrunc

end Rules

section Operations

variable {sb : SuperBlock} {S : Finset ℕ} {n : ℕ} {P A : Fs → Prop} {hs : List Inode}
  {h : Inode} {i : ℕ}

/-- An entry of a directory is read without a change, and an inode in it is named. -/
theorem readEntry_silent {s : Span} (hs' : Sound Directories s.fs) (hd : IsDir i s.fs) (off : ℕ) :
    readEntry i off s=.error .invalid ∨
      ∃ r,readEntry i off s=.ok (r,s) ∧ ∀ e,r=some e → Named s.fs e.inum := by
  cases hvalid : (s.fs.idata i).valid with
  | none =>
    have hon : onInode i (fun sb _ l di => iread sb l di off deSize) s=.error .invalid := by
      simp only [onInode,hvalid]
    refine .inl ?_
    show (onInode i (fun sb _ l di => iread sb l di off deSize) s >>= fun x => _)=_
    rw [hon]
    rfl
  | some k =>
    have hc := hs'.cached i k hvalid
    have hwhole := hc.whole hs' (show Directories _ from hd)
    obtain ⟨dst,hread⟩ := @iread_silent s.fs.sb s.logged _ hwhole off deSize
    have hon : onInode i (fun sb _ l di => iread sb l di off deSize) s=.ok (dst,s) := by
      have e : Fs.setData {s.fs with disk := s.fs.disk} i ⟨some k,(s.fs.idata i).dinode⟩=s.fs := by
        rw [Fs.setData,← hvalid,Function.update_eq_self]
      simp only [onInode,hvalid,hread]
      show Except.ok (dst,(⟨Fs.setData {s.fs with disk := s.fs.disk} i ⟨some k,(s.fs.idata i).dinode⟩,
        s.passed⟩ : Span))=.ok (dst,s)
      rw [e]
    refine .inr ⟨dst.map fun b => getEntry b 0,?_,fun e he => ?_⟩
    · show (onInode i (fun sb _ l di => iread sb l di off deSize) s >>= fun x => _)=_
      rw [hon]
      rfl
    · obtain ⟨b,rfl,rfl⟩ := Option.map_eq_some_iff.mp he
      have hbytes := @iread_erases s.fs.sb s.logged (s.fs.idata i).dinode off deSize
      rw [hread] at hbytes
      have hself := @withInode_self (inodeAt s.fs.sb s.fs.disk) (s.fs.idata i).dinode k
      obtain ⟨-,-,⟨hoff,-⟩,hb⟩ := iread_spec hs'.geometry (hc.owned hs') hc.inum hc.used hbytes.symm
      refine ⟨k,off,hc.inum,hc.same.itype ▸ hd,hc.same.size ▸ hoff,?_⟩
      refine getLE_congr fun j _ hj => ?_
      rw [hb j,if_pos (by rw [deSize]; omega)]
      exact byteAt_addrs hc.same.addrs.symm _

theorem readEntry_within (hP : ∀ s,P s → Sound Directories s ∧ IsDir i s) (off : ℕ) :
    Triple (Within sb S n P) (readEntry i off)
      (fun r => Within sb S n fun s => P s ∧ ∀ e,r=some e → Named s e.inum) Any := by
  intro s hw
  refine ⟨fun r t ht => ?_,fun _ _ => trivial⟩
  obtain ⟨hsound,hdir⟩ := hP _ hw.fs
  obtain herr | ⟨r',hok,hnamed⟩ := readEntry_silent hsound hdir off
  · rw [herr] at ht
    cases ht
  · rw [hok] at ht
    cases ht
    exact ⟨⟨hw.fs,hnamed⟩,hw.super,hw.adds⟩

/-- An inode that `dir_lookup` finds is named. -/
theorem dirLookupLoop_within (hA : ∀ s t,Settled s t → A s → A t) (name : Name) (offs : List ℕ) :
    Triple (Within sb S n fun s => (Good Directories hs s ∧ A s) ∧ IsDir i s)
      (dirLookupLoop i name offs)
      (fun r => Within sb S n fun s => (Good Directories (optional r hs) s ∧ A s) ∧
        (r=none → IsDir i s) ∧ ∀ x,r=some x → x.1.inum≠0 ∧ Named s x.1.inum) Any := by
  induction offs with
  | nil =>
    exact .pure fun _ hw => hw.imp fun _ hp => ⟨hp.1,fun _ => hp.2,fun x hx => by cases hx⟩
  | cons off offs ih =>
    refine (readEntry_within (fun s hp => ⟨hp.1.1.1,hp.2⟩) off).bind fun r => ?_
    cases r with
    | none => exact .throw trivial
    | some e =>
      have hnext := ih.pre fun s (hw : Within sb S n (fun s =>
        ((Good Directories hs s ∧ A s) ∧ IsDir i s) ∧ ∀ e',some e=some e' → Named s e'.inum) s) =>
          hw.imp fun s hp => hp.1
      refine .ite (fun _ => hnext) fun hzero => .ite (fun _ => ?_) fun _ => hnext
      refine Triple.bind ((settle_within (A:=fun s => A s ∧ Named s e.inum) (get_rule e.inum)
        (get_settled e.inum) fun s t ht hp => ⟨hA s t ht hp.1,ht.named.mpr hp.2⟩).pre
          fun _ hw => hw.imp fun _ hp => ⟨hp.1.1.1,hp.1.1.2,hp.2 e rfl⟩) fun h => ?_
      refine .pure fun _ hw => hw.imp fun _ hp =>
        ⟨⟨hp.1.2,hp.2.1⟩,(fun hx => by cases hx),fun x hx => ?_⟩
      cases hx
      rw [hp.1.1]
      exact ⟨hzero,hp.2.2⟩

theorem dirLookup_named (hA : ∀ s t,Settled s t → A s → A t) (name : Name) :
    Triple (Within sb S n fun s => Good Directories hs s ∧ A s) (dirLookup i name)
      (fun r => Within sb S n fun s => (Good Directories (optional r hs) s ∧ A s) ∧
        (r=none → IsDir i s) ∧ ∀ x,r=some x → x.1.inum≠0 ∧ Named s x.1.inum) Any := by
  refine dinodeOf_within.bind fun di => .ite (fun _ => .throw trivial) fun hdir => ?_
  refine (dirLookupLoop_within hA name _).pre fun _ hw => hw.imp fun _ hp => ⟨hp.1,?_⟩
  rw [IsDir,hp.2]
  exact not_not.mp hdir

theorem dirLookup_within (name : Name) :
    Triple (Within sb S n (Good Directories hs)) (dirLookup i name)
      (fun r => Within sb S n fun s => Good Directories (optional r hs) s ∧ (r=none → IsDir i s))
      Any :=
  ((dirLookup_named (A:=fun _ => True) (fun _ _ _ _ => trivial) name).pre fun _ hw =>
    hw.imp fun _ hp => ⟨hp,trivial⟩).post fun _ _ hw => hw.imp fun _ hp => ⟨hp.1.1,hp.2.1⟩

theorem freeOffset_within (size : ℕ) (offs : List ℕ) :
    Triple (Within sb S n fun s => Good Directories hs s ∧ IsDir i s) (freeOffset i size offs)
      (fun _ => Within sb S n (Good Directories hs)) Any := by
  induction offs with
  | nil => exact .pure fun _ hw => hw.imp fun _ hp => hp.1
  | cons off offs ih =>
    refine (readEntry_within (fun s hp => ⟨hp.1.1,hp.2⟩) off).bind fun r => ?_
    cases r with
    | none => exact .throw trivial
    | some e =>
      refine .ite (fun _ => .pure fun _ hw => hw.imp fun _ hp => hp.1.1) fun _ => ?_
      exact ih.pre fun _ hw => hw.imp fun _ hp => hp.1

theorem dirIsEmptyLoop_within (offs : List ℕ) :
    Triple (Within sb S n fun s => Good Directories hs s ∧ IsDir i s) (dirIsEmptyLoop i offs)
      (fun _ => Within sb S n (Good Directories hs)) Any := by
  induction offs with
  | nil => exact .pure fun _ hw => hw.imp fun _ hp => hp.1
  | cons off offs ih =>
    refine (readEntry_within (fun s hp => ⟨hp.1.1,hp.2⟩) off).bind fun r => ?_
    cases r with
    | none => exact .throw trivial
    | some e =>
      refine .ite (fun _ => .pure fun _ hw => hw.imp fun _ hp => hp.1.1) fun _ => ?_
      exact ih.pre fun _ hw => hw.imp fun _ hp => hp.1

theorem dirIsEmpty_within :
    Triple (Within sb S n fun s => Good Directories hs s ∧ IsDir i s) (dirIsEmpty i)
      (fun _ => Within sb S n (Good Directories hs)) Any :=
  dinodeOf_within.bind fun _ => (dirIsEmptyLoop_within _).pre fun _ hw => hw.imp fun _ hp => hp.1

/-- A new entry takes two blocks at most; so does an entry of that name that is let go. -/
theorem dirLink_within (name : Name) (inum : ℕ) (hsize : sb.size ≤ bpb)
    (hbm : sb.bitmapBlockno 0∈S) (hm : h∈hs) (hloc : sb.locateInode h.inum∈S) :
    Triple (Within sb S n (Good Directories hs)) (dirLink h.index name inum)
      (fun _ => Within sb S (n+2) (Good Directories hs)) Any := by
  refine .ite (fun _ => .throw trivial) fun _ => (dirLookup_within name).bind fun r => ?_
  cases r with
  | some x =>
    have hput : Triple (Within sb (insert (sb.locateInode x.1.inum) S) n
        (Good Directories (x.1::hs))) (put x.1) (fun _ => Within sb (insert (sb.locateInode x.1.inum) S)
          n (Good Directories hs)) Any :=
      put_within hsize (Finset.mem_insert_of_mem hbm) (Finset.mem_insert_self ..)
    refine (hput.pre fun _ hw => (hw.imp fun s hp => hp.1).mono (Finset.subset_insert ..) le_rfl).bind
      fun _ => .pure fun _ hw => ?_
    exact hw.count.mono (le_refl _) (by omega)
  | none =>
    refine dinodeOf_within.bind fun di => ((freeOffset_within _ _).pre fun s hw =>
      hw.imp fun _ hp => ⟨hp.1.1,hp.1.2 rfl⟩).bind fun off => .ite (fun _ => .throw trivial) fun hoff => ?_
    have hblock : off%bsize+deSize ≤ 1*bsize := by
      rw [deSize] at hoff ⊢
      rw [bsize]
      omega
    refine (writeEntry_within ⟨inum,name⟩ 1 hsize hbm hm hloc hblock).bind fun b => ?_
    exact .ite (fun _ => .pure fun _ hw => hw) fun _ => .throw trivial

/-- An entry that is cleared takes four blocks at most, and the inode that it names one. -/
theorem dirUnlink_within (name : Name) (hsize : sb.size ≤ bpb) (hbm : sb.bitmapBlockno 0∈S)
    (hm : h∈hs) (hloc : sb.locateInode h.inum∈S) :
    Triple (Within sb S n (Good Directories hs)) (dirUnlink h.index name)
      (fun _ => Within sb S (n+5) (Good Directories hs)) Any := by
  refine .ite (fun _ => .pure fun _ hw => hw.mono (le_refl _) (by omega)) fun _ =>
    (dirLookup_within name).bind fun r => ?_
  cases r with
  | none =>
    exact .pure fun _ hw => (hw.imp fun _ hp => hp.1).mono (le_refl _) (by omega)
  | some x =>
    obtain ⟨x,off⟩ := x
    -- from here on the block of the inode that is found is known
    have hbm' : sb.bitmapBlockno 0∈insert (sb.locateInode x.inum) S := Finset.mem_insert_of_mem hbm
    have hloc' : sb.locateInode h.inum∈insert (sb.locateInode x.inum) S :=
      Finset.mem_insert_of_mem hloc
    have hfound : sb.locateInode x.inum∈insert (sb.locateInode x.inum) S :=
      Finset.mem_insert_self ..
    have hmem : h∈x::hs := List.mem_cons_of_mem _ hm
    refine Triple.pre (P:=Within sb (insert (sb.locateInode x.inum) S) n
      (Good Directories (x::hs))) ?_ fun _ hw =>
        (hw.imp fun _ hp => hp.1).mono (Finset.subset_insert ..) le_rfl
    refine (lock_within (List.mem_cons_self ..)).bind fun _ => ?_
    refine dinodeOf_within.bind fun di => .ite (fun _ => .throw trivial) fun _ => ?_
    have hlast : Triple (Within sb (insert (sb.locateInode x.inum) S) (n+2*2)
        (Good Directories (x::hs))) (do
        silent (dropLink x.index)
        update x.index
        silent x.unlock
        put x
        pure true : SpanM Bool) (fun _ => Within sb S (n+5) (Good Directories hs)) Any :=
      dropLink_within.bind fun _ =>
        (update_within (List.mem_cons_self ..) hfound).bind fun _ => unlock_within.bind fun _ =>
          (put_within hsize hbm' hfound).bind fun _ => .pure fun _ hw => hw.count
    have hclear : Triple (Within sb (insert (sb.locateInode x.inum) S) n
        (Good Directories (x::hs))) (do
        if ← writeEntry h.index off .empty then do
          if di.itype=.directory then do
            silent (dropLink h.index)
            update h.index
          silent (dropLink x.index)
          update x.index
          silent x.unlock
          put x
          pure true
        else throw .rewriteEntry : SpanM Bool)
        (fun _ => Within sb S (n+5) (Good Directories hs)) Any := by
      have hblocks : off%bsize+deSize ≤ 2*bsize := by
        rw [deSize,bsize]
        omega
      refine (writeEntry_within .empty 2 hsize hbm' hmem hloc' hblocks).bind fun b =>
        .ite (fun _ => .ite (fun _ => ?_) fun _ => hlast) fun _ => .throw trivial
      exact dropLink_within.bind fun _ =>
        (update_within hmem hloc').bind fun _ => hlast
    have hkeep : Triple (Within sb (insert (sb.locateInode x.inum) S) n
        (Good Directories (x::hs))) (do
        silent x.unlock
        put x
        pure false : SpanM Bool) (fun _ => Within sb S (n+5) (Good Directories hs)) Any :=
      unlock_within.bind fun _ => (put_within hsize hbm' hfound).bind fun _ =>
        .pure fun _ hw => hw.count.mono (le_refl _) (by omega)
    refine .ite (fun hdir => ?_) fun _ => hclear.pre fun _ hw => hw.imp fun _ hp => hp.1.1
    refine (dirIsEmpty_within.pre fun _ hw => hw.imp fun _ hp => ⟨hp.1.1,?_⟩).bind fun _ =>
      .ite (fun _ => hkeep) fun _ => hclear
    rw [IsDir,hp.2]
    exact hdir

/-- A walk along a path passes nothing: what it lets go has links or other references. -/
theorem namexLoop_within (path : List UInt8) (isParent : Bool) (fuel : ℕ) (inode : Inode) (cur : ℕ)
    (name : Name) :
    Triple (Within sb S n fun s => Good Directories (inode::hs) s ∧ Linked hs s inode.inum ∧
        Anchored hs s) (namexLoop path isParent fuel inode cur name)
      (fun r => Within sb S n fun s => Good Directories (optionalInode r.1 hs) s ∧ Anchored hs s)
      Any := by
  have hanchored : ∀ s t,Settled s t → Anchored hs s → Anchored hs t := fun _ _ hst ha => ha.settled hst
  have hlinked : ∀ k s t,Settled s t → Linked hs s k ∧ Anchored hs s → Linked hs t k ∧ Anchored hs t :=
    fun _ _ _ hst ha => ⟨ha.1.settled hst,ha.2.settled hst⟩
  induction fuel generalizing inode cur name with
  | zero => exact .pure fun _ hw => hw.imp fun _ hp => ⟨hp.1,hp.2.2⟩
  | succ fuel ih =>
    have hfail : Triple (Within sb S n fun s => Good Directories (inode::hs) s ∧
        Linked hs s inode.inum ∧ Anchored hs s) (do
        silent inode.unlock
        put inode
        return (none,(skipPath path cur name).2) : SpanM (Option Inode×Name))
        (fun r => Within sb S n fun s => Good Directories (optionalInode r.1 hs) s ∧ Anchored hs s)
        Any :=
      (settle_within unlock_rule (unlock_settled inode) (hlinked _)).bind fun _ =>
        (put_linked (List.Subset.refl _) hanchored).bind fun _ => .pure fun _ hw => hw
    refine .ite (fun _ => .ite (fun _ => ?_) fun _ => .pure fun _ hw => hw.imp fun _ hp =>
      ⟨hp.1,hp.2.2⟩) fun _ => ?_
    · exact (put_linked (List.Subset.refl _) hanchored).bind fun _ => .pure fun _ hw => hw
    · refine (settle_within (lock_rule (List.mem_cons_self ..)) (lock_settled inode)
        (hlinked _)).bind fun _ => dinodeOf_within.bind fun di => ?_
      refine Triple.pre (P:=Within sb S n fun s => Good Directories (inode::hs) s ∧
        Linked hs s inode.inum ∧ Anchored hs s) ?_ fun _ hw => hw.imp fun _ hp => ⟨hp.1.1.1,hp.1.2⟩
      refine .ite (fun _ => hfail) fun _ => .ite (fun _ => ?_) fun _ => ?_
      · exact (settle_within unlock_rule (unlock_settled inode) (hlinked _)).bind fun _ =>
          .pure fun _ hw => hw.imp fun _ hp => ⟨hp.1,hp.2.2⟩
      · refine (dirLookup_named (hlinked inode.inum) _).bind fun r => ?_
        cases r with
        | none => exact hfail.pre fun _ hw => hw.imp fun _ hp => hp.1
        | some x =>
          obtain ⟨last,off⟩ := x
          have hboth : ∀ s t,Settled s t →
              Linked hs s inode.inum ∧ Linked hs s last.inum ∧ Anchored hs s →
              Linked hs t inode.inum ∧ Linked hs t last.inum ∧ Anchored hs t :=
            fun _ _ hst ha => ⟨ha.1.settled hst,hlinked _ _ _ hst ha.2⟩
          refine ((settle_within unlock_rule (unlock_settled inode) hboth).pre fun _ hw =>
            hw.imp fun _ hp => ?_).bind fun _ =>
              (put_linked (List.subset_cons_self ..) (hlinked last.inum)).bind fun _ => ih last _ _
          obtain ⟨⟨hgood,hinode,ha⟩,-,hnamed⟩ := hp
          obtain ⟨hne,hlast⟩ := hnamed _ rfl
          exact ⟨⟨hgood.1,hgood.2.perm (List.Perm.swap ..)⟩,hinode,ha.named _ hne hlast,ha⟩

theorem namex_within {cwd : Inode} (path : List UInt8) (isParent : Bool) (hcwd : cwd∈hs) :
    Triple (Within sb S n fun s => Good Directories hs s ∧ Anchored hs s) (namex cwd path isParent)
      (fun r => Within sb S n fun s => Good Directories (optionalInode r.1 hs) s ∧ Anchored hs s)
      Any := by
  have hanchored : ∀ s t,Settled s t → Anchored hs s → Anchored hs t := fun _ _ hst ha => ha.settled hst
  refine .ite (fun _ => ?_) fun _ => ?_
  · refine (settle_within (get_rule rootInum) (get_settled rootInum) hanchored).bind fun inode =>
      (namexLoop_within path isParent _ inode 0 _).pre fun _ hw => hw.imp fun _ hp =>
        ⟨hp.1.2,?_,hp.2⟩
    rw [hp.1.1]
    exact hp.2.root
  · refine (settle_within (dup_rule hcwd) (dup_settled cwd) hanchored).bind fun inode =>
      (namexLoop_within path isParent _ inode 0 _).pre fun _ hw => hw.imp fun _ hp => ?_
    rw [hp.1.1]
    exact ⟨hp.1.2,.inl ⟨cwd,hcwd,rfl⟩,hp.2⟩

theorem namei_within {cwd : Inode} (path : List UInt8) (hcwd : cwd∈hs) :
    Triple (Within sb S n fun s => Good Directories hs s ∧ Anchored hs s) (namei cwd path)
      (fun r => Within sb S n fun s => Good Directories (optionalInode r hs) s ∧ Anchored hs s) Any :=
  (namex_within path false hcwd).bind fun _ => .pure fun _ hw => hw

theorem nameiParent_within {cwd : Inode} (path : List UInt8) (hcwd : cwd∈hs) :
    Triple (Within sb S n fun s => Good Directories hs s ∧ Anchored hs s) (nameiParent cwd path)
      (fun r => Within sb S n (Good Directories (optionalInode (r.map Prod.fst) hs))) Any := by
  refine (namex_within path true hcwd).bind fun r => .pure fun _ hw => hw.imp fun _ hp => ?_
  obtain ⟨inode,name⟩ := r
  cases inode with
  | none => exact hp.1
  | some inode => exact hp.1

end Operations

end Xv6Rust.LogWrites
