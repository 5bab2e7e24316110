import Xv6Rust.LogSpans

/-!
# What a span changes

A span changes only blocks that it passes to the log, and passes only blocks of the inode table, of the
bitmap and data blocks, as long as what a process writes can be copied. The system calls are
followed to their ends here, with the references that they leave behind.
-/

namespace Xv6Rust.LogWrites

open Bytes DiskLayout InodeLayer BlockOwnership FileContents InodeSound Triples

/-- A block of the inode table, of the bitmap, or a data block. -/
def FileBlock (sb : SuperBlock) (b : ℕ) : Prop :=
  (∃ n,n < sb.ninodes ∧ b=sb.locateInode n) ∨ (∃ c,c < sb.size ∧ b=sb.bitmapBlockno c) ∨
    sb.nmeta ≤ b ∧ b < sb.size

/-- Blocks of the file system that are passed are all that has changed since the disk was `d`. -/
structure Follows (sb : SuperBlock) (d : Disk) (l : Logged) : Prop where
  /-- The blocks that are passed. -/
  passed : ∀ b∈l.passed,FileBlock sb b
  /-- The other blocks. -/
  frame : ∀ b,b∉l.passed → l.disk b=d b

section Contents

variable {sb : SuperBlock} {d : Disk} {l l' : Logged} {v : ℕ → DiskInode} {di di' : DiskInode}
  {i b bn : ℕ}

theorem Follows.refl (d : Disk) : Follows sb d ⟨d,[]⟩ :=
  ⟨fun _ hb => absurd hb List.not_mem_nil,fun _ _ => rfl⟩

theorem Follows.write (h : Follows sb d l) (hb : FileBlock sb b) (buf : Buffer) :
    Follows sb d (l.write b buf) := by
  refine ⟨fun c hc => ?_,fun c hc => ?_⟩
  · obtain rfl | hc := List.mem_cons.mp hc
    · exact hb
    · exact h.passed c hc
  · rw [Logged.write,List.mem_cons,not_or] at hc
    exact (Function.update_of_ne hc.1 ..).trans (h.frame c hc.2)

theorem Follows.bmAlloc (h : Follows sb d l) (g : sb.Geometry)
    (hmeta : ∀ c,c < sb.nmeta → bit sb l.disk c=true) (hok : bmAlloc sb l=.ok (b,l')) :
    Follows sb d l' ∧ Fresh sb l.disk b l'.disk := by
  have hfresh : Fresh sb l.disk b l'.disk := by
    refine bmAlloc_fresh g hmeta ?_
    rw [← bmAlloc_erases,hok]
    rfl
  rw [LogWrites.bmAlloc] at hok
  split at hok
  · cases hok
  · rename_i base offset hfind
    cases hok
    obtain ⟨hlt,-,hblock,-⟩ := bmFind_some hfind
    exact ⟨(h.write (.inr (.inl ⟨_,hlt,hblock.symm⟩)) _).write (.inr (.inr ⟨hfresh.low,hlt⟩)) _,hfresh⟩

theorem Follows.bmFree (h : Follows sb d l) (hb : b < sb.size) (hok : bmFree sb l b=.ok l') :
    Follows sb d l' := by
  rw [LogWrites.bmFree] at hok
  split at hok
  · cases hok
    exact h.write (.inr (.inl ⟨b,hb,rfl⟩)) _
  · cases hok

theorem Follows.updateInode (h : Follows sb d l) (hok : updateInode sb l i di=.ok l') :
    Follows sb d l' := by
  rw [LogWrites.updateInode] at hok
  split at hok
  · cases hok
  · rename_i hi
    cases hok
    exact h.write (.inl ⟨i,not_le.mp hi,rfl⟩) _

theorem Follows.inodeAlloc {itype : InodeType} (h : Follows sb d l)
    (hok : inodeAlloc sb l itype=.ok (i,l')) : Follows sb d l' := by
  rw [LogWrites.inodeAlloc] at hok
  split at hok
  · cases hok
  · rename_i inum hfind
    cases hok
    have hmem := List.mem_of_find?_eq_some hfind
    rw [List.mem_range'_1] at hmem
    exact h.write (.inl ⟨i,by omega,rfl⟩) _

/-- The bits of the blocks before the data blocks stay set. -/
theorem fresh_before {d d' : Disk} (h : Fresh sb d b d') (hmeta : ∀ c,c < sb.nmeta → bit sb d c=true)
    (c : ℕ) (hc : c < sb.nmeta) : bit sb d' c=true := by
  have hle : sb.nmeta ≤ sb.size := Nat.sub_le ..
  rw [h.bits c (by omega)]
  split
  · rfl
  · exact hmeta c hc

theorem Follows.mapBlockno (h : Follows sb d l) (g : sb.Geometry)
    (ho : Owned sb l.disk (withInode v i di)) (hi : i < sb.ninodes) (hu : di.itype≠.empty)
    (hok : mapBlockno sb l di bn=.ok (b,l',di')) :
    Follows sb d l' ∧ sb.nmeta ≤ b ∧ b < sb.size := by
  have herase : InodeLayer.mapBlockno sb l.disk di bn=.ok (b,l'.disk,di') := by
    rw [← mapBlockno_erases,hok]
    rfl
  obtain ⟨hgrow,-,hbn,hnum,hne⟩ := mapBlockno_grows g ho hi hu herase
  have hheld : Holds sb l'.disk (withInode v i di') i (posOf bn) b :=
    ⟨hi,by rw [withInode_self,hgrow.itype]; exact hu,posOf_lt hbn,by rw [withInode_self]; exact hnum,hne⟩
  refine ⟨?_,hgrow.owned.range hheld⟩
  have hmeta : ∀ c,c < sb.nmeta → bit sb l.disk c=true := fun c => ho.before
  rw [LogWrites.mapBlockno] at hok
  split at hok
  · split at hok
    · cases halloc : LogWrites.bmAlloc sb l with
      | error e =>
        rw [halloc] at hok
        cases hok
      | ok x =>
        rw [halloc] at hok
        cases hok
        exact (h.bmAlloc g hmeta halloc).1
    · cases hok
      exact h
  · -- an entry of the indirect block, which is a data block
    have hentry : ∀ (indirect : ℕ) (l₁ : Logged) (di₁ : DiskInode),Follows sb d l₁ →
        (∀ c,c < sb.nmeta → bit sb l₁.disk c=true) → sb.nmeta ≤ indirect → indirect < sb.size →
        (if word (l₁.disk indirect) (bn-ndirect)=0 then
          LogWrites.bmAlloc sb l₁ >>= fun x => pure
            (x.1,x.2.write indirect (putWord (x.2.disk indirect) (bn-ndirect) x.1),di₁)
        else return (word (l₁.disk indirect) (bn-ndirect),l₁,di₁))=.ok (b,l',di') →
        Follows sb d l' := by
      intro indirect l₁ di₁ h₁ hmeta₁ hlow hhigh hok
      split at hok
      · cases halloc : LogWrites.bmAlloc sb l₁ with
        | error e =>
          rw [halloc] at hok
          cases hok
        | ok x =>
          rw [halloc] at hok
          cases hok
          exact (h₁.bmAlloc g hmeta₁ halloc).1.write (.inr (.inr ⟨hlow,hhigh⟩)) _
      · cases hok
        exact h₁
    split at hok
    · cases halloc : LogWrites.bmAlloc sb l with
      | error e =>
        rw [halloc] at hok
        cases hok
      | ok x =>
        rw [halloc] at hok
        obtain ⟨h₁,hfresh⟩ := h.bmAlloc g hmeta halloc
        exact hentry x.1 x.2 _ h₁ (fresh_before hfresh hmeta) hfresh.low hfresh.high hok
    · rename_i hind
      have hindirect : Holds sb l.disk (withInode v i di) i ndirect (di.addr ndirect) :=
        ⟨hi,by rw [withInode_self]; exact hu,by decide,by rw [withInode_self,addrAt_ndirect],hind⟩
      obtain ⟨hlow,hhigh⟩ := ho.range hindirect
      exact hentry _ l di h hmeta hlow hhigh hok

/-- What is written is copied to the end. -/
def Copies (src : Source) : Prop := ∀ pos n,n ≤ (src pos n).2

theorem Follows.writeLoop {src : Source} {fuel blockBase blockOffset count pos left : ℕ}
    (h : Follows sb d l) (hsrc : Copies src) (g : sb.Geometry)
    (ho : Owned sb l.disk (withInode v i di)) (hi : i < sb.ninodes) (hu : di.itype≠.empty)
    (hok : writeLoop sb src fuel l di blockBase blockOffset count pos=.ok (left,l',di')) :
    Follows sb d l' := by
  induction fuel generalizing l di blockBase blockOffset count pos with
  | zero =>
    cases hok
    exact h
  | succ fuel ih =>
    rw [LogWrites.writeLoop] at hok
    split at hok
    · cases hok
      exact h
    · cases hmap : LogWrites.mapBlockno sb l di blockBase with
      | error e =>
        rw [hmap] at hok
        cases hok
      | ok x =>
        rw [hmap] at hok
        obtain ⟨bn,l₁,di₁⟩ := x
        have herase : InodeLayer.mapBlockno sb l.disk di blockBase=.ok (bn,l₁.disk,di₁) := by
          rw [← mapBlockno_erases,hmap]
          rfl
        obtain ⟨h₁,hrange⟩ := h.mapBlockno g ho hi hu hmap
        change (if (src pos (min (bsize-blockOffset) count)).2 < min (bsize-blockOffset) count
          then _ else _)=_ at hok
        rw [if_neg (not_lt.mpr (hsrc ..))] at hok
        obtain ⟨hgrow,-⟩ := mapBlockno_write g ho hi hu herase
          (splice (l₁.disk bn) blockOffset (src pos (min (bsize-blockOffset) count)).1
            (min (src pos (min (bsize-blockOffset) count)).2 (min (bsize-blockOffset) count)))
        exact ih (h₁.write (.inr (.inr hrange)) _) hgrow.owned (by rwa [hgrow.itype]) hok

theorem Follows.tryIwrite {src : Source} {offset count : ℕ} {r : Option ℕ} (h : Follows sb d l)
    (hsrc : Copies src) (g : sb.Geometry) (ho : Owned sb l.disk (withInode v i di))
    (hi : i < sb.ninodes) (hu : di.itype≠.empty)
    (hok : tryIwrite sb i src offset count l di=.ok (r,l',di')) : Follows sb d l' := by
  rw [LogWrites.tryIwrite] at hok
  split at hok
  · cases hok
    exact h
  · cases hloop : LogWrites.writeLoop sb src count l di (offset/bsize) (offset%bsize) count 0 with
    | error e =>
      rw [hloop] at hok
      cases hok
    | ok x =>
      rw [hloop] at hok
      obtain ⟨left,l₁,di₁⟩ := x
      have h₁ := h.writeLoop hsrc g ho hi hu hloop
      have hlast : ∀ di₂,(do
          let l ← LogWrites.updateInode sb l₁ i di₂
          return (some (offset+count-left-offset),l,di₂))=.ok (r,l',di') → Follows sb d l' := by
        intro di₂ hok
        cases hupd : LogWrites.updateInode sb l₁ i di₂ with
        | error e =>
          rw [hupd] at hok
          cases hok
        | ok l₂ =>
          rw [hupd] at hok
          cases hok
          exact h₁.updateInode hupd
      exact hlast _ hok

theorem Follows.freeDirect {ps : List ℕ} (h : Follows sb d l) (g : sb.Geometry)
    (hps : ∀ p∈ps,p < 13) (hr : ∀ p∈ps,di.addr p≠0 → di.addr p < sb.size)
    (hok : freeDirect sb ps l di=.ok (l',di')) : Follows sb d l' ∧
      (∀ c,sb.nmeta ≤ c → l'.disk c=l.disk c) ∧ ∀ q,q∉ps → di'.addr q=di.addr q := by
  induction ps generalizing l di with
  | nil =>
    cases hok
    exact ⟨h,fun _ _ => rfl,fun _ _ => rfl⟩
  | cons p ps ih =>
    have hps' : ∀ q∈ps,q < 13 := fun q hq => hps q (List.mem_cons_of_mem _ hq)
    rw [LogWrites.freeDirect] at hok
    split at hok
    · rename_i hpos
      cases hfree : LogWrites.bmFree sb l (di.addr p) with
      | error e =>
        rw [hfree] at hok
        cases hok
      | ok l₁ =>
        rw [hfree] at hok
        have hsize := hr p (List.mem_cons_self ..) (Nat.pos_iff_ne_zero.mp hpos)
        have hdata : ∀ c,sb.nmeta ≤ c → l₁.disk c=l.disk c := by
          intro c hc
          have hblock := g.bitmap _ hsize
          rw [LogWrites.bmFree] at hfree
          split at hfree
          · cases hfree
            exact Function.update_of_ne (by omega) ..
          · cases hfree
        have haddr := @addr_setAddr_zero di p
        have hr' : ∀ q∈ps,(di.setAddr p 0).addr q≠0 → (di.setAddr p 0).addr q < sb.size := by
          intro q hq hne
          rw [haddr (hps p (List.mem_cons_self ..))] at hne ⊢
          split at hne
          · exact absurd rfl hne
          · rename_i e
            rw [if_neg e]
            exact hr q (List.mem_cons_of_mem _ hq) hne
        obtain ⟨h',hdata',hkeep⟩ := ih (h.bmFree hsize hfree) hps' hr' hok
        refine ⟨h',fun c hc => (hdata' c hc).trans (hdata c hc),fun q hq => ?_⟩
        rw [List.mem_cons,not_or] at hq
        rw [hkeep q hq.2,haddr (hps p (List.mem_cons_self ..)),if_neg hq.1]
    · obtain ⟨h',hdata,hkeep⟩ := ih h hps' (fun q hq => hr q (List.mem_cons_of_mem _ hq)) hok
      exact ⟨h',hdata,fun q hq => hkeep q fun hm => hq (List.mem_cons_of_mem _ hm)⟩

theorem Follows.freeEntries {buf : Buffer} {ks : List ℕ} (h : Follows sb d l)
    (hr : ∀ k∈ks,word buf k≠0 → word buf k < sb.size) (hok : freeEntries sb buf ks l=.ok l') :
    Follows sb d l' := by
  induction ks generalizing l with
  | nil =>
    cases hok
    exact h
  | cons k ks ih =>
    have hr' : ∀ q∈ks,word buf q≠0 → word buf q < sb.size := fun q hq =>
      hr q (List.mem_cons_of_mem _ hq)
    rw [LogWrites.freeEntries] at hok
    split at hok
    · rename_i hpos
      cases hfree : LogWrites.bmFree sb l (word buf k) with
      | error e =>
        rw [hfree] at hok
        cases hok
      | ok l₁ =>
        rw [hfree] at hok
        have hsize := hr k (List.mem_cons_self ..) (Nat.pos_iff_ne_zero.mp hpos)
        exact ih (h.bmFree hsize hfree) hr' hok
    · exact ih h hr' hok

theorem Follows.truncate (h : Follows sb d l) (g : sb.Geometry)
    (hr : ∀ p,p < npos → addrAt l.disk di p≠0 →
      sb.nmeta ≤ addrAt l.disk di p ∧ addrAt l.disk di p < sb.size)
    (hok : truncate sb i l di=.ok (l',di')) : Follows sb d l' := by
  have hlast : ∀ (l₁ : Logged) (di₁ : DiskInode),Follows sb d l₁ → (do
      let l ← LogWrites.updateInode sb l₁ i di₁
      return (l,di₁))=.ok (l',di') → Follows sb d l' := by
    intro l₁ di₁ h₁ hok
    cases hupd : LogWrites.updateInode sb l₁ i di₁ with
    | error e =>
      rw [hupd] at hok
      cases hok
    | ok l₂ =>
      rw [hupd] at hok
      cases hok
      exact h₁.updateInode hupd
  rw [LogWrites.truncate] at hok
  cases hdirect : LogWrites.freeDirect sb (List.range ndirect) l di with
  | error e =>
    rw [hdirect] at hok
    cases hok
  | ok x =>
    rw [hdirect] at hok
    obtain ⟨l₁,di₁⟩ := x
    obtain ⟨h₁,hdata,hkeep⟩ := h.freeDirect g
      (fun p hp => (List.mem_range.mp hp).trans (by decide)) (fun p hp hne => by
        rw [List.mem_range] at hp
        rw [← addrAt_direct (d:=l.disk) (le_of_lt hp)] at hne ⊢
        exact (hr p (by rw [npos]; omega) hne).2) hdirect
    have hind : di₁.addr ndirect=di.addr ndirect := hkeep ndirect (by rw [List.mem_range]; omega)
    change (if di₁.addr ndirect > 0 then _ else _)=_ at hok
    split at hok
    · rename_i hpos
      rw [hind] at hpos hok
      have hne : di.addr ndirect≠0 := Nat.pos_iff_ne_zero.mp hpos
      have hrange := hr ndirect (by decide) (by rwa [addrAt_ndirect])
      rw [addrAt_ndirect] at hrange
      rw [hdata _ hrange.1] at hok
      cases hentries : LogWrites.freeEntries sb (l.disk (di.addr ndirect)) (List.range nindirect) l₁ with
      | error e =>
        rw [hentries] at hok
        cases hok
      | ok l₂ =>
        rw [hentries] at hok
        have hwords : ∀ k∈List.range nindirect,word (l.disk (di.addr ndirect)) k≠0 →
            word (l.disk (di.addr ndirect)) k < sb.size := by
          intro k hk hword
          rw [List.mem_range] at hk
          have hat : addrAt l.disk di (k+ndirect+1)=word (l.disk (di.addr ndirect)) k := by
            rw [addrAt_entry (by omega) hne]
            congr 1
          rw [← hat] at hword ⊢
          exact (hr _ (by rw [npos]; omega) hword).2
        have h₂ := h₁.freeEntries hwords hentries
        change (LogWrites.bmFree sb l₂ (di.addr ndirect) >>= _)=_ at hok
        cases hfree : LogWrites.bmFree sb l₂ (di.addr ndirect) with
        | error e =>
          rw [hfree] at hok
          cases hok
        | ok l₃ =>
          rw [hfree] at hok
          exact hlast _ _ (h₂.bmFree hrange.2 hfree) hok
    · exact hlast _ _ h₁ hok

end Contents

section Rules

/-- A span whose file system satisfies `P`, and that has changed what it has passed. -/
structure Tracks (sb : SuperBlock) (d : Disk) (P : Fs → Prop) (s : Span) : Prop where
  /-- The file system. -/
  fs : P s.fs
  /-- Its super block. -/
  super : s.fs.sb=sb
  /-- The blocks. -/
  follows : Follows sb d s.logged

variable {sb : SuperBlock} {d : Disk} {P Q : Fs → Prop} {hs : List Inode} {h : Inode} {i : ℕ}

theorem Tracks.imp {s : Span} (ht : Tracks sb d P s) (hPQ : ∀ s,P s → Q s) : Tracks sb d Q s :=
  ⟨hPQ _ ht.fs,ht.super,ht.follows⟩

/-- What is silent changes no block. -/
theorem silent_tracks {α : Type} {m : Op α} {R : α → Fs → Prop} (hm : Triple P m R NotTwice)
    (hdisk : ∀ s a t,m s=.ok (a,t) → t.sb=s.sb ∧ t.disk=s.disk) :
    Triple (Tracks sb d P) (silent m) (fun a => Tracks sb d (R a)) Any := by
  intro s ht
  refine ⟨fun a t hok => ?_,fun _ _ => trivial⟩
  rw [silent] at hok
  split at hok
  · cases hok
  · rename_i a' fs hm'
    cases hok
    obtain ⟨hsb,hd⟩ := hdisk _ _ _ hm'
    refine ⟨(hm _ ht.fs).1 _ _ hm',hsb.trans ht.super,ht.follows.passed,fun b hb => ?_⟩
    show fs.disk b=d b
    rw [hd]
    exact ht.follows.frame b hb

theorem settled_tracks {α : Type} {m : Op α} {R : α → Fs → Prop} (hm : Triple P m R NotTwice)
    (hset : ∀ s a t,m s=.ok (a,t) → Settled s t) :
    Triple (Tracks sb d P) (silent m) (fun a => Tracks sb d (R a)) Any :=
  silent_tracks hm fun s a t hok => ⟨(hset s a t hok).super,(hset s a t hok).disk⟩

theorem get_tracks (inum : ℕ) :
    Triple (Tracks sb d (Good Directories hs)) (silent (Icache.get inum))
      (fun h => Tracks sb d (Good Directories (h::hs))) Any :=
  (settled_tracks (get_rule inum) (get_settled inum)).post fun _ _ ht => ht.imp fun _ hp => hp.2

theorem dup_tracks (hm : h∈hs) :
    Triple (Tracks sb d (Good Directories hs)) (silent (Icache.dup h))
      (fun h' => Tracks sb d (Good Directories (h'::hs))) Any :=
  (settled_tracks (dup_rule hm) (dup_settled h)).post fun _ _ ht => ht.imp fun _ hp => by
    rw [hp.1]
    exact hp.2

theorem lock_tracks (hm : h∈hs) :
    Triple (Tracks sb d (Good Directories hs)) (silent h.lock)
      (fun _ => Tracks sb d (Good Directories hs)) Any :=
  (settled_tracks (lock_rule hm) (lock_settled h)).post fun _ _ ht => ht.imp fun _ hp => hp.1

theorem unlock_tracks :
    Triple (Tracks sb d (Good Directories hs)) (silent h.unlock)
      (fun _ => Tracks sb d (Good Directories hs)) Any :=
  settled_tracks unlock_rule (unlock_settled h)

theorem dinodeOf_tracks :
    Triple (Tracks sb d P) (silent (dinodeOf i))
      (fun di => Tracks sb d fun s => P s ∧ (s.idata i).dinode=di) Any :=
  settled_tracks dinodeOf_rule (dinodeOf_settled i)

theorem setDinode_tracks {f : DiskInode → DiskInode} (hf : ∀ di,Agrees (f di) di) :
    Triple (Tracks sb d (Good Directories hs)) (silent (setDinode i f))
      (fun _ => Tracks sb d (Good Directories hs)) Any := by
  refine silent_tracks (setDinode_rule hf) fun s a t hok => ?_
  cases hok
  exact ⟨rfl,rfl⟩

theorem addLink_tracks :
    Triple (Tracks sb d (Good Directories hs)) (silent (addLink i))
      (fun _ => Tracks sb d (Good Directories hs)) Any := by
  refine silent_tracks addLink_rule fun s a t hok => ?_
  rw [addLink_eq] at hok
  split at hok
  · cases hok
  · cases hok
    exact ⟨rfl,rfl⟩

theorem dropLink_tracks :
    Triple (Tracks sb d (Good Directories hs)) (silent (dropLink i))
      (fun _ => Tracks sb d (Good Directories hs)) Any := by
  refine silent_tracks dropLink_rule fun s a t hok => ?_
  rw [dropLink_eq] at hok
  split at hok
  · cases hok
  · cases hok
    exact ⟨rfl,rfl⟩

theorem put_tracks :
    Triple (Tracks sb d (Good Directories (h::hs))) (put h)
      (fun _ => Tracks sb d (Good Directories hs)) Any := by
  intro s ht
  refine ⟨fun a t hok => ?_,fun _ _ => trivial⟩
  have hgood := (((put_erases h).triple put_rule) s ht.fs).1 a t hok
  obtain ⟨⟨hsound,-⟩,hsb,hfollows⟩ := ht
  rw [put] at hok
  split at hok
  · split at hok
    · cases hok
    · split at hok
      · cases hok
        exact ⟨hgood,hsb,hfollows⟩
      · rename_i k hvalid
        dsimp only at hok
        split at hok
        · cases hok
          exact ⟨hgood,hsb,hfollows⟩
        · split at hok
          · cases hok
          · rename_i l di htrunc
            cases hok
            refine ⟨hgood,hsb,?_⟩
            have hg := hsound.geometry
            rw [hsb] at htrunc hg
            refine hfollows.truncate hg (fun p hp hne => ?_) htrunc
            have haddr : addrAt s.logged.disk
                {(s.fs.idata h.index).dinode with itype := .empty} p=
                addrAt s.fs.disk (s.fs.idata h.index).dinode p := addrAt_addrs rfl p
            rw [haddr] at hne ⊢
            rw [← hsb]
            exact cached_range hsound (hsound.cached _ k hvalid) hp hne
  · cases hok
    exact ⟨hgood,hsb,hfollows⟩

/-- An operation on an inode in the cache. -/
theorem onInode_tracks {α : Type}
    {f : SuperBlock → ℕ → Logged → DiskInode → Except Stop (α×Logged×DiskInode)}
    {g : SuperBlock → ℕ → Disk → DiskInode → Except Stop (α×Disk×DiskInode)}
    (hfg : ∀ sb n l di,(f sb n l di).map erase=g sb n l.disk di) (hg : Keeps Directories g)
    (hfollows : ∀ (s : Span) n,Sound Directories s.fs → Cached s.fs i n → s.fs.sb=sb →
      Follows sb d s.logged → ∀ a l di,f sb n s.logged (s.fs.idata i).dinode=.ok (a,l,di) →
        Follows sb d l) :
    Triple (Tracks sb d (Good Directories hs)) (onInode i f)
      (fun _ => Tracks sb d (Good Directories hs)) Any := by
  intro s ht
  refine ⟨fun a t hok => ?_,fun _ _ => trivial⟩
  have hgood := (((onInode_erases i hfg).triple (onInode_rule hg)) s ht.fs).1 a t hok
  obtain ⟨⟨hsound,-⟩,hsb,hfol⟩ := ht
  rw [onInode] at hok
  split at hok
  · cases hok
  · rename_i j hvalid
    rw [hsb] at hok
    split at hok
    · cases hok
    · rename_i a' l di hf
      cases hok
      exact ⟨hgood,hsb,hfollows s j hsound (hsound.cached _ j hvalid) hsb hfol _ _ _ hf⟩

theorem update_tracks :
    Triple (Tracks sb d (Good Directories hs)) (update i)
      (fun _ => Tracks sb d (Good Directories hs)) Any := by
  refine onInode_tracks (fun sb n l di => ?_) update_keeps fun s n _ _ _ hfol a l di hok => ?_
  · rw [← updateInode_erases]
    cases updateInode sb l n di with
    | error e => rfl
    | ok l => rfl
  · cases hupd : updateInode sb s.logged n (s.fs.idata i).dinode with
    | error e =>
      rw [hupd] at hok
      cases hok
    | ok l' =>
      rw [hupd] at hok
      cases hok
      exact hfol.updateInode hupd

theorem tryIwrite_tracks {src : Source} (hsrc : Copies src) (offset count : ℕ) :
    Triple (Tracks sb d (Good Directories hs)) (onInode i fun sb inum l di =>
        tryIwrite sb inum src offset count l di)
      (fun _ => Tracks sb d (Good Directories hs)) Any := by
  refine onInode_tracks (fun _ n l di => tryIwrite_erases n src offset count l di)
    (tryIwrite_keeps src offset count) fun s n hs' hc hsb hfol r l di hok => ?_
  subst hsb
  exact hfol.tryIwrite hsrc hs'.geometry (hc.owned hs') hc.inum hc.used hok

theorem writeEntry_tracks (off : ℕ) (e : DirEntry) :
    Triple (Tracks sb d (Good Directories hs)) (writeEntry i off e)
      (fun _ => Tracks sb d (Good Directories hs)) Any :=
  (tryIwrite_tracks (fun _ n => le_refl n) off deSize).bind fun _ => .pure fun _ ht => ht

theorem truncateInode_tracks :
    Triple (Tracks sb d (Good Directories hs)) (truncateInode i)
      (fun _ => Tracks sb d (Good Directories hs)) Any := by
  refine onInode_tracks (fun sb n l di => ?_) truncate_keeps fun s n hs' hc hsb hfol a l di hok => ?_
  · rw [← truncate_erases]
    cases truncate sb n l di with
    | error e => rfl
    | ok x => rfl
  · cases htrunc : truncate sb n s.logged (s.fs.idata i).dinode with
    | error e =>
      rw [htrunc] at hok
      cases hok
    | ok x =>
      rw [htrunc] at hok
      cases hok
      subst hsb
      exact hfol.truncate hs'.geometry (fun p hp hne => cached_range hs' hc hp hne) htrunc

end Rules

section Operations

variable {sb : SuperBlock} {d : Disk} {P : Fs → Prop} {hs : List Inode} {h cwd : Inode} {i : ℕ}

theorem readEntry_tracks (hP : ∀ s,P s → Sound Directories s ∧ IsDir i s) (off : ℕ) :
    Triple (Tracks sb d P) (readEntry i off) (fun _ => Tracks sb d P) Any := by
  intro s ht
  refine ⟨fun r t hok => ?_,fun _ _ => trivial⟩
  obtain ⟨hsound,hdir⟩ := hP _ ht.fs
  obtain herr | ⟨r',hr,-⟩ := readEntry_silent hsound hdir off
  · rw [herr] at hok
    cases hok
  · rw [hr] at hok
    cases hok
    exact ht

theorem dirLookupLoop_tracks (name : Name) (offs : List ℕ) :
    Triple (Tracks sb d fun s => Good Directories hs s ∧ IsDir i s) (dirLookupLoop i name offs)
      (fun r => Tracks sb d fun s => Good Directories (optional r hs) s ∧ (r=none → IsDir i s)) Any := by
  induction offs with
  | nil => exact .pure fun _ ht => ht.imp fun _ hp => ⟨hp.1,fun _ => hp.2⟩
  | cons off offs ih =>
    refine (readEntry_tracks (fun s hp => ⟨hp.1.1,hp.2⟩) off).bind fun r => ?_
    cases r with
    | none => exact .throw trivial
    | some e =>
      refine .ite (fun _ => ih) fun _ => .ite (fun _ => ?_) fun _ => ih
      exact ((get_tracks e.inum).pre fun _ ht => ht.imp fun _ hp => hp.1).bind fun h =>
        .pure fun _ ht => ht.imp fun _ hp => ⟨hp,fun hx => by cases hx⟩

theorem dirLookup_tracks (name : Name) :
    Triple (Tracks sb d (Good Directories hs)) (dirLookup i name)
      (fun r => Tracks sb d fun s => Good Directories (optional r hs) s ∧ (r=none → IsDir i s)) Any := by
  refine dinodeOf_tracks.bind fun di => .ite (fun _ => .throw trivial) fun hdir => ?_
  refine (dirLookupLoop_tracks name _).pre fun _ ht => ht.imp fun _ hp => ⟨hp.1,?_⟩
  rw [IsDir,hp.2]
  exact not_not.mp hdir

theorem freeOffset_tracks (size : ℕ) (offs : List ℕ) :
    Triple (Tracks sb d fun s => Good Directories hs s ∧ IsDir i s) (freeOffset i size offs)
      (fun _ => Tracks sb d (Good Directories hs)) Any := by
  induction offs with
  | nil => exact .pure fun _ ht => ht.imp fun _ hp => hp.1
  | cons off offs ih =>
    refine (readEntry_tracks (fun s hp => ⟨hp.1.1,hp.2⟩) off).bind fun r => ?_
    cases r with
    | none => exact .throw trivial
    | some e => exact .ite (fun _ => .pure fun _ ht => ht.imp fun _ hp => hp.1) fun _ => ih

theorem dirIsEmptyLoop_tracks (offs : List ℕ) :
    Triple (Tracks sb d fun s => Good Directories hs s ∧ IsDir i s) (dirIsEmptyLoop i offs)
      (fun _ => Tracks sb d (Good Directories hs)) Any := by
  induction offs with
  | nil => exact .pure fun _ ht => ht.imp fun _ hp => hp.1
  | cons off offs ih =>
    refine (readEntry_tracks (fun s hp => ⟨hp.1.1,hp.2⟩) off).bind fun r => ?_
    cases r with
    | none => exact .throw trivial
    | some e => exact .ite (fun _ => .pure fun _ ht => ht.imp fun _ hp => hp.1) fun _ => ih

theorem dirIsEmpty_tracks :
    Triple (Tracks sb d fun s => Good Directories hs s ∧ IsDir i s) (dirIsEmpty i)
      (fun _ => Tracks sb d (Good Directories hs)) Any :=
  dinodeOf_tracks.bind fun _ => (dirIsEmptyLoop_tracks _).pre fun _ ht => ht.imp fun _ hp => hp.1

theorem dirLink_tracks (name : Name) (inum : ℕ) :
    Triple (Tracks sb d (Good Directories hs)) (dirLink i name inum)
      (fun _ => Tracks sb d (Good Directories hs)) Any := by
  refine .ite (fun _ => .throw trivial) fun _ => (dirLookup_tracks name).bind fun r => ?_
  cases r with
  | some x =>
    exact ((put_tracks (h:=x.1)).pre fun _ ht => ht.imp fun _ hp => hp.1).bind fun _ =>
      .pure fun _ ht => ht
  | none =>
    refine dinodeOf_tracks.bind fun di => ((freeOffset_tracks _ _).pre fun _ ht =>
      ht.imp fun _ hp => ⟨hp.1.1,hp.1.2 rfl⟩).bind fun off => .ite (fun _ => .throw trivial) fun _ => ?_
    exact (writeEntry_tracks off ⟨inum,name⟩).bind fun _ =>
      .ite (fun _ => .pure fun _ ht => ht) fun _ => .throw trivial

theorem dirUnlink_tracks (name : Name) :
    Triple (Tracks sb d (Good Directories hs)) (dirUnlink i name)
      (fun _ => Tracks sb d (Good Directories hs)) Any := by
  refine .ite (fun _ => .pure fun _ ht => ht) fun _ => (dirLookup_tracks name).bind fun r => ?_
  cases r with
  | none => exact .pure fun _ ht => ht.imp fun _ hp => hp.1
  | some x =>
    obtain ⟨x,off⟩ := x
    refine ((lock_tracks (List.mem_cons_self ..)).pre fun _ ht => ht.imp fun _ hp => hp.1).bind
      fun _ => dinodeOf_tracks.bind fun di => .ite (fun _ => .throw trivial) fun _ => ?_
    have hlast : Triple (Tracks sb d (Good Directories (x::hs))) (do
        silent (dropLink x.index)
        update x.index
        silent x.unlock
        put x
        pure true : SpanM Bool) (fun _ => Tracks sb d (Good Directories hs)) Any :=
      dropLink_tracks.bind fun _ => update_tracks.bind fun _ =>
        unlock_tracks.bind fun _ => put_tracks.bind fun _ => .pure fun _ ht => ht
    have hclear : Triple (Tracks sb d (Good Directories (x::hs))) (do
        if ← writeEntry i off .empty then do
          if di.itype=.directory then do
            silent (dropLink i)
            update i
          silent (dropLink x.index)
          update x.index
          silent x.unlock
          put x
          pure true
        else throw .rewriteEntry : SpanM Bool) (fun _ => Tracks sb d (Good Directories hs)) Any := by
      refine (writeEntry_tracks off .empty).bind fun b =>
        .ite (fun _ => .ite (fun _ => ?_) fun _ => hlast) fun _ => .throw trivial
      exact dropLink_tracks.bind fun _ => update_tracks.bind fun _ => hlast
    have hkeep : Triple (Tracks sb d (Good Directories (x::hs))) (do
        silent x.unlock
        put x
        pure false : SpanM Bool) (fun _ => Tracks sb d (Good Directories hs)) Any :=
      unlock_tracks.bind fun _ => put_tracks.bind fun _ => .pure fun _ ht => ht
    refine .ite (fun hdir => ?_) fun _ => hclear.pre fun _ ht => ht.imp fun _ hp => hp.1
    refine (dirIsEmpty_tracks.pre fun _ ht => ht.imp fun _ hp => ⟨hp.1,?_⟩).bind fun _ =>
      .ite (fun _ => hkeep) fun _ => hclear
    rw [IsDir,hp.2]
    exact hdir

theorem namexLoop_tracks (path : List UInt8) (isParent : Bool) (fuel : ℕ) (inode : Inode) (cur : ℕ)
    (name : Name) :
    Triple (Tracks sb d (Good Directories (inode::hs))) (namexLoop path isParent fuel inode cur name)
      (fun r => Tracks sb d (Good Directories (optionalInode r.1 hs))) Any := by
  induction fuel generalizing inode cur name with
  | zero => exact .pure fun _ ht => ht
  | succ fuel ih =>
    have hfail : Triple (Tracks sb d (Good Directories (inode::hs))) (do
        silent inode.unlock
        put inode
        return (none,(skipPath path cur name).2) : SpanM (Option Inode×Name))
        (fun r => Tracks sb d (Good Directories (optionalInode r.1 hs))) Any :=
      unlock_tracks.bind fun _ => put_tracks.bind fun _ => .pure fun _ ht => ht
    refine .ite (fun _ => .ite (fun _ => ?_) fun _ => .pure fun _ ht => ht) fun _ => ?_
    · exact put_tracks.bind fun _ => .pure fun _ ht => ht
    · refine (lock_tracks (List.mem_cons_self ..)).bind fun _ => dinodeOf_tracks.bind fun di => ?_
      refine Triple.pre (P:=Tracks sb d (Good Directories (inode::hs))) ?_
        fun _ ht => ht.imp fun _ hp => hp.1
      refine .ite (fun _ => hfail) fun _ => .ite (fun _ => ?_) fun _ => ?_
      · exact unlock_tracks.bind fun _ => .pure fun _ ht => ht
      · refine (dirLookup_tracks _).bind fun r => ?_
        cases r with
        | none => exact hfail.pre fun _ ht => ht.imp fun _ hp => hp.1
        | some x =>
          obtain ⟨last,off⟩ := x
          refine (unlock_tracks.pre fun _ ht => ht.imp fun _ hp => ?_).bind fun _ =>
            put_tracks.bind fun _ => ih last _ _
          exact ⟨hp.1.1,hp.1.2.perm (List.Perm.swap ..)⟩

theorem namex_tracks (path : List UInt8) (isParent : Bool) (hcwd : pathAt path 0≠0x2f → cwd∈hs) :
    Triple (Tracks sb d (Good Directories hs)) (namex cwd path isParent)
      (fun r => Tracks sb d (Good Directories (optionalInode r.1 hs))) Any := by
  refine .ite (fun _ => ?_) fun hrel => ?_
  · exact (get_tracks rootInum).bind fun inode => namexLoop_tracks path isParent _ inode 0 _
  · exact (dup_tracks (hcwd hrel)).bind fun inode => namexLoop_tracks path isParent _ inode 0 _

theorem namei_tracks (path : List UInt8) (hcwd : pathAt path 0≠0x2f → cwd∈hs) :
    Triple (Tracks sb d (Good Directories hs)) (namei cwd path)
      (fun r => Tracks sb d (Good Directories (optionalInode r hs))) Any :=
  (namex_tracks path false hcwd).bind fun _ => .pure fun _ ht => ht

theorem nameiParent_tracks (path : List UInt8) (hcwd : pathAt path 0≠0x2f → cwd∈hs) :
    Triple (Tracks sb d (Good Directories hs)) (nameiParent cwd path)
      (fun r => Tracks sb d (Good Directories (optionalInode (r.map Prod.fst) hs))) Any := by
  refine (namex_tracks path true hcwd).bind fun r => .pure fun _ ht => ht.imp fun _ hp => ?_
  obtain ⟨inode,name⟩ := r
  cases inode with
  | none => exact hp
  | some inode => exact hp

theorem allocInode_tracks (itype : InodeType) :
    Triple (Tracks sb d (Good Directories hs)) (allocInode itype)
      (fun _ => Tracks sb d (Good Directories hs)) Any := by
  intro s ht
  refine ⟨fun a t hok => ?_,fun _ _ => trivial⟩
  have hgood := (((allocInode_erases itype).triple (allocInode_rule itype)) s ht.fs).1 a t hok
  rw [allocInode] at hok
  split at hok
  · cases hok
  · rename_i inum l halloc
    cases hok
    rw [ht.super] at halloc
    exact ⟨hgood,ht.super,ht.follows.inodeAlloc halloc⟩

end Operations

section Calls

variable {sb : SuperBlock} {d : Disk} {hs : List Inode} {h cwd : Inode}

theorem linkDots_tracks {dir inode : Inode} :
    Triple (Tracks sb d (Good Directories hs)) (linkDots dir inode)
      (fun _ => Tracks sb d (Good Directories hs)) Any := by
  exact addLink_tracks.bind fun _ => update_tracks.bind fun _ => (dirLink_tracks dot inode.inum).bind fun _ =>
    .ite (fun _ => .throw trivial) fun _ => (dirLink_tracks dotDot dir.inum).bind fun _ =>
      .ite (fun _ => .throw trivial) fun _ => .pure fun _ ht => ht

theorem create_tracks (path : List UInt8) (itype : InodeType) (major minor : UInt16) (reuse : Bool)
    (hcwd : pathAt path 0≠0x2f → cwd∈hs) :
    Triple (Tracks sb d (Good Directories hs)) (create cwd path itype major minor reuse)
      (fun r => Tracks sb d (Good Directories (optionalInode r hs))) Any := by
  refine (nameiParent_tracks path hcwd).bind fun r => ?_
  cases r with
  | none => exact .pure fun _ ht => ht
  | some x =>
    obtain ⟨dir,name⟩ := x
    refine (lock_tracks (List.mem_cons_self ..)).bind fun _ => (dirLookup_tracks name).bind fun r => ?_
    cases r with
    | some y =>
      obtain ⟨inode,off⟩ := y
      refine .ite (fun _ => ?_) fun _ => ?_
      · refine (unlock_tracks.pre fun _ ht => ht.imp fun _ hp => hp.1).bind fun _ =>
          (put_tracks.pre fun _ ht => ht.imp fun _ hp => ?_).bind fun _ => .pure fun _ ht => ht
        exact ⟨hp.1,hp.2.perm (List.Perm.swap ..)⟩
      · exact (put_tracks.pre fun _ ht => ht.imp fun _ hp => hp.1).bind fun _ =>
          unlock_tracks.bind fun _ => put_tracks.bind fun _ => .pure fun _ ht => ht
    | none =>
      refine ((allocInode_tracks itype).pre fun _ ht => ht.imp fun _ hp => hp.1).bind fun inum =>
        (get_tracks inum).bind fun inode => ?_
      have hset : Triple (Tracks sb d (Good Directories (inode::dir::hs)))
          (silent (setDinode inode.index fun di => {di with major := major,minor := minor,nlink := 1}))
          (fun _ => Tracks sb d (Good Directories (inode::dir::hs))) Any :=
        setDinode_tracks fun di => ⟨rfl,rfl,rfl⟩
      have hlink : Triple (Tracks sb d (Good Directories (inode::dir::hs))) (do
          if !(← dirLink dir.index name inum) then throw .linkEntry
          else
            silent dir.unlock
            put dir
            silent inode.unlock
            return some inode : SpanM (Option Inode))
          (fun r => Tracks sb d (Good Directories (optionalInode r hs))) Any := by
        refine (dirLink_tracks name inum).bind fun _ => .ite (fun _ => .throw trivial) fun _ =>
          unlock_tracks.bind fun _ => (put_tracks.pre fun _ ht => ht.imp fun _ hp => ?_).bind
            fun _ => unlock_tracks.bind fun _ => .pure fun _ ht => ht
        exact ⟨hp.1,hp.2.perm (List.Perm.swap ..)⟩
      exact (lock_tracks (List.mem_cons_self ..)).bind fun _ => hset.bind fun _ =>
        update_tracks.bind fun _ => .ite (fun _ => linkDots_tracks.bind fun _ => hlink) fun _ => hlink

theorem fwriteBatch_tracks {src : Source} (hsrc : Copies src) (offset left : ℕ) (hm : h∈hs) :
    Triple (Tracks sb d (Good Directories hs)) (fwriteBatch h src offset left)
      (fun _ => Tracks sb d (Good Directories hs)) Any :=
  (lock_tracks hm).bind fun _ => (tryIwrite_tracks hsrc _ _).bind fun _ =>
    unlock_tracks.bind fun _ => .pure fun _ ht => ht

theorem openFile_tracks (path : List UInt8) (flags : OpenFlags)
    (hcwd : pathAt path 0≠0x2f → cwd∈hs) :
    Triple (Tracks sb d (Good Directories hs)) (openFile cwd path flags)
      (fun r => Tracks sb d (Good Directories (optionalInode r hs))) Any := by
  have hfind : Triple (Tracks sb d (Good Directories hs))
      (if flags.create=true then create cwd path .file 0 0 true else namei cwd path)
      (fun r => Tracks sb d (Good Directories (optionalInode r hs))) Any :=
    .ite (fun _ => create_tracks path .file 0 0 true hcwd) fun _ => namei_tracks path hcwd
  refine hfind.bind fun r => ?_
  cases r with
  | none => exact .pure fun _ ht => ht
  | some inode =>
    have hdrop : Triple (Tracks sb d (Good Directories (inode::hs))) (do
        put inode
        return none : SpanM (Option Inode))
        (fun r => Tracks sb d (Good Directories (optionalInode r hs))) Any :=
      put_tracks.bind fun _ => .pure fun _ ht => ht
    have hpass : Triple (Tracks sb d (Good Directories (inode::hs)))
        (pure (some inode) : SpanM (Option Inode))
        (fun r => Tracks sb d (Good Directories (optionalInode r hs))) Any := .pure fun _ ht => ht
    refine (lock_tracks (List.mem_cons_self ..)).bind fun _ => dinodeOf_tracks.bind fun di => ?_
    refine Triple.pre (P:=Tracks sb d (Good Directories (inode::hs))) ?_
      fun _ ht => ht.imp fun _ hp => hp.1
    cases di.itype with
    | empty => exact .throw trivial
    | directory => exact unlock_tracks.bind fun _ => .ite (fun _ => hdrop) fun _ => hpass
    | file =>
      refine .ite (fun _ => ?_) fun _ => unlock_tracks.bind fun _ => hpass
      exact truncateInode_tracks.bind fun _ => unlock_tracks.bind fun _ => hpass
    | device => exact unlock_tracks.bind fun _ => .ite (fun _ => hdrop) fun _ => hpass

theorem makeInode_tracks (path : List UInt8) (itype : InodeType) (major minor : UInt16)
    (reuse : Bool) (hcwd : pathAt path 0≠0x2f → cwd∈hs) :
    Triple (Tracks sb d (Good Directories hs)) (makeInode cwd path itype major minor reuse)
      (fun _ => Tracks sb d (Good Directories hs)) Any := by
  refine (create_tracks path itype major minor reuse hcwd).bind fun r => ?_
  cases r with
  | none => exact .pure fun _ ht => ht
  | some inode => exact put_tracks.bind fun _ => .pure fun _ ht => ht

theorem sysUnlink_tracks (path : List UInt8) (hcwd : pathAt path 0≠0x2f → cwd∈hs) :
    Triple (Tracks sb d (Good Directories hs)) (sysUnlink cwd path)
      (fun _ => Tracks sb d (Good Directories hs)) Any := by
  refine (nameiParent_tracks path hcwd).bind fun r => ?_
  cases r with
  | none => exact .pure fun _ ht => ht
  | some x =>
    obtain ⟨dir,name⟩ := x
    exact (lock_tracks (List.mem_cons_self ..)).bind fun _ => (dirUnlink_tracks name).bind fun _ =>
      unlock_tracks.bind fun _ => put_tracks.bind fun _ => .pure fun _ ht => ht

/-- The current directory is given up for the new one. -/
theorem sysChdir_tracks (path : List UInt8) :
    Triple (Tracks sb d (Good Directories (cwd::hs))) (sysChdir cwd path)
      (fun r => Tracks sb d (Good Directories (r.getD cwd::hs))) Any := by
  refine (namei_tracks path fun _ => List.mem_cons_self ..).bind fun r => ?_
  cases r with
  | none => exact .pure fun _ ht => ht
  | some inode =>
    refine (lock_tracks (List.mem_cons_self ..)).bind fun _ => dinodeOf_tracks.bind fun di =>
      (unlock_tracks.pre fun _ ht => ht.imp fun _ hp => hp.1).bind fun _ => .ite (fun _ => ?_) fun _ => ?_
    · exact put_tracks.bind fun _ => .pure fun _ ht => ht
    · refine (put_tracks.pre fun _ ht => ht.imp fun _ hp => ?_).bind fun _ => .pure fun _ ht => ht
      exact ⟨hp.1,hp.2.perm (List.Perm.swap ..)⟩

theorem revertLink_tracks :
    Triple (Tracks sb d (Good Directories (h::hs))) (revertLink h)
      (fun _ => Tracks sb d (Good Directories hs)) Any :=
  (lock_tracks (List.mem_cons_self ..)).bind fun _ => dropLink_tracks.bind fun _ =>
    update_tracks.bind fun _ => unlock_tracks.bind fun _ => put_tracks.bind fun _ => .pure fun _ ht => ht

/-- `sys_link`, with the references that are dropped when it returns, after `end_op`. -/
def linkSpan (cwd : Inode) (oldPath newPath : List UInt8) : SpanM (List Inode) := do
  match ← namei cwd oldPath with
  | none => return []
  | some old => do
    silent old.lock
    let di ← silent (dinodeOf old.index)
    if di.itype=.directory then do
      silent old.unlock
      return [old]
    else do
      silent (addLink old.index)
      update old.index
      silent old.unlock
      match ← nameiParent cwd newPath with
      | none => do
        let _ ← revertLink old
        return []
      | some (dir,name) => do
        silent dir.lock
        if ← dirLink dir.index name old.inum then do
          silent dir.unlock
          put dir
          put old
          return []
        else do
          let _ ← revertLink old
          silent dir.unlock
          return [dir]

theorem linkSpan_tracks (oldPath newPath : List UInt8) (hcwd : cwd∈hs) :
    Triple (Tracks sb d (Good Directories hs)) (linkSpan cwd oldPath newPath)
      (fun rs => Tracks sb d (Good Directories (rs++hs))) Any := by
  refine (namei_tracks oldPath fun _ => hcwd).bind fun r => ?_
  cases r with
  | none => exact .pure fun _ ht => ht
  | some old =>
    refine (lock_tracks (List.mem_cons_self ..)).bind fun _ => dinodeOf_tracks.bind fun di => ?_
    refine Triple.pre (P:=Tracks sb d (Good Directories (old::hs))) ?_
      fun _ ht => ht.imp fun _ hp => hp.1
    refine .ite (fun _ => unlock_tracks.bind fun _ => .pure fun _ ht => ht) fun _ => ?_
    refine addLink_tracks.bind fun _ => update_tracks.bind fun _ => unlock_tracks.bind fun _ =>
      (nameiParent_tracks newPath fun _ => List.mem_cons_of_mem _ hcwd).bind fun r => ?_
    cases r with
    | none => exact revertLink_tracks.bind fun _ => .pure fun _ ht => ht
    | some x =>
      obtain ⟨dir,name⟩ := x
      refine (lock_tracks (List.mem_cons_self ..)).bind fun _ =>
        (dirLink_tracks name old.inum).bind fun b => .ite (fun _ => ?_) fun _ => ?_
      · exact unlock_tracks.bind fun _ => put_tracks.bind fun _ => put_tracks.bind fun _ =>
          .pure fun _ ht => ht
      · refine (revertLink_tracks.pre fun _ ht => ht.imp fun _ hp => ?_).bind fun _ =>
          unlock_tracks.bind fun _ => .pure fun _ ht => ht
        exact ⟨hp.1,hp.2.perm (List.Perm.swap ..)⟩

/-- What a call does in its span, with the references that there are after it. -/
def Call.work (hs : List Inode) : Call → SpanM (List Inode)
  | .fwrite inode src offset left => do
    let _ ← fwriteBatch inode src offset left
    return hs
  | .openFile cwd path flags => do
    let r ← LogWrites.openFile cwd path flags
    return optionalInode r hs
  | .mkdir cwd path => do
    let _ ← makeInode cwd path .directory 0 0 false
    return hs
  | .mknod cwd path major minor => do
    let _ ← makeInode cwd path .device major minor true
    return hs
  | .link cwd oldPath newPath => do
    let rs ← linkSpan cwd oldPath newPath
    return rs++hs
  | .unlink cwd path => do
    let _ ← sysUnlink cwd path
    return hs
  | .chdir cwd path => do
    let r ← sysChdir cwd path
    return r.getD cwd::hs.erase cwd
  | .close inode => do
    put inode
    return hs.erase inode
  | .dropCwd cwd => do
    put cwd
    return hs.erase cwd

/-- What a process writes is in its memory. -/
def Call.Copied : Call → Prop
  | .fwrite _ src _ _ => Copies src
  | _ => True

/-- A call changes what it passes, whatever it starts from. -/
theorem work_tracks (c : Call) (hm : c.reference∈hs) (hc : c.Copied) :
    Triple (Tracks sb d (Good Directories hs)) (c.work hs)
      (fun hs' => Tracks sb d (Good Directories hs')) Any := by
  -- the reference that the call takes comes first
  have hfirst : ∀ (h : Inode) (s : Span),h∈hs → Tracks sb d (Good Directories hs) s →
      Tracks sb d (Good Directories (h::hs.erase h)) s := fun h s hm ht =>
    ht.imp fun _ hp => ⟨hp.1,hp.2.perm (List.perm_cons_erase hm).symm⟩
  cases c with
  | fwrite inode src offset left =>
    exact (fwriteBatch_tracks hc offset left hm).bind fun _ => .pure fun _ ht => ht
  | openFile cwd path flags =>
    exact (openFile_tracks path flags fun _ => hm).bind fun _ => .pure fun _ ht => ht
  | mkdir cwd path => exact (makeInode_tracks path _ _ _ _ fun _ => hm).bind fun _ => .pure fun _ ht => ht
  | mknod cwd path major minor =>
    exact (makeInode_tracks path _ _ _ _ fun _ => hm).bind fun _ => .pure fun _ ht => ht
  | link cwd oldPath newPath => exact (linkSpan_tracks oldPath newPath hm).bind fun _ => .pure fun _ ht => ht
  | unlink cwd path => exact (sysUnlink_tracks path fun _ => hm).bind fun _ => .pure fun _ ht => ht
  | chdir cwd path =>
    exact ((sysChdir_tracks path).pre fun s ht => hfirst cwd s hm ht).bind fun _ => .pure fun _ ht => ht
  | close inode => exact (put_tracks.pre fun s ht => hfirst inode s hm ht).bind fun _ => .pure fun _ ht => ht
  | dropCwd cwd => exact (put_tracks.pre fun s ht => hfirst cwd s hm ht).bind fun _ => .pure fun _ ht => ht

end Calls

end Xv6Rust.LogWrites
