import Xv6Rust.CopyUser
import Xv6Rust.FileContents
import Xv6Rust.LogErasure

/-!
# Writing a file from user memory

`InodeData::try_iwrite` of `fs/inode.rs` with a user address: each block is read into a buffer,
`copy_in` puts the bytes into it, and the buffer is passed to `LOG.write`. Where `copy_in` comes to
a page that is not mapped, the loop stops with the bytes that were copied in the buffer, and the
buffer is dropped without `LOG.write`. A commit writes the buffers of the blocks that are passed as
they are then, and no others.
-/

namespace Xv6Rust.UserWrite

open Bytes DiskLayout InodeLayer BlockOwnership FileContents Paging CopyUser
open LogWrites (Logged)
open UserBytes (UserPage)

/-- Why `try_iwrite` does not return. -/
inductive Fault where
  /-- In the file system. -/
  | fs (why : Stop)
  /-- In `copy_in` or `Address::offset`. -/
  | copy (why : CopyPanic)

section Write

variable (sb : SuperBlock) (pgt : PageTable) (m : Mem)

/-- The loop of `try_iwrite`, with at most the given number of passes, on the buffers and the blocks
passed to `LOG.write` in the transaction; it returns the number of bytes that are not written. -/
def writeLoop : ℕ → Logged → DiskInode → ℕ → ℕ → ℕ → ℕ → Except Fault (ℕ×Logged×DiskInode)
  | 0,l,di,_,_,count,_ => .ok (count,l,di)
  | fuel+1,l,di,blockBase,blockOffset,count,src =>
    if count=0 then .ok (count,l,di)
    else
      match LogWrites.mapBlockno sb l di blockBase with
      | .error e => .error (.fs e)
      | .ok (bn,l,di) =>
        let writeCount := min (bsize-blockOffset) count
        let copied := copyIn pgt m (fun k => l.disk bn (blockOffset+k)) src writeCount
        let buf := splice (l.disk bn) blockOffset copied.1 writeCount
        match copied.2 with
        | .panic why => .error (.copy why)
        -- the buffer is dropped as it is
        | .err => .ok (count,⟨Function.update l.disk bn buf,l.passed⟩,di)
        | .ok =>
          if src+writeCount ≥ 2^64 then .error (.copy .overflow)
          else
            writeLoop fuel (l.write bn buf) di (blockBase+1) 0 (count-writeCount) (src+writeCount)

/-- `try_iwrite` from user memory. -/
def tryIwrite (inum src offset count : ℕ) (l : Logged) (di : DiskInode) :
    Except Fault (Option ℕ×Logged×DiskInode) :=
  if offset > di.size.toNat ∨ offset+count ≥ 2^32 ∨ offset+count > maxFileSize then
    .ok (none,l,di)
  else
    match writeLoop sb pgt m count l di (offset/bsize) (offset%bsize) count src with
    | .error e => .error e
    | .ok (left,l,di) =>
      let size := offset+count-left
      let di := if size > di.size.toNat then {di with size := UInt32.ofNat size} else di
      match LogWrites.updateInode sb l inum di with
      | .error e => .error (.fs e)
      | .ok l => .ok (some (size-offset),l,di)

end Write

/-- The first byte from an address on whose page is not mapped for the user. -/
def FirstUnmapped (pgt : PageTable) (src x : ℕ) : Prop :=
  ¬UserPage pgt ((src+x)/pageSize) ∧ ∀ y,y < x → UserPage pgt ((src+y)/pageSize)

/-- The request is refused. -/
def Refused (di : DiskInode) (offset count : ℕ) : Prop :=
  offset > di.size.toNat ∨ offset+count ≥ 2^32 ∨ offset+count > maxFileSize

/-- A commit writes a block of the file anyway: the file does not have it yet, or it is passed. -/
def Saved (l : Logged) (di : DiskInode) (bn : ℕ) : Prop :=
  addrAt l.disk di (posOf bn)=0 ∨ addrAt l.disk di (posOf bn)∈l.passed

/-- If the source ends before `count` bytes, at a page that is not mapped, the bytes before that
page that belong into the last block are those that the file has there, or they are behind its end
in a block that a commit writes anyway. -/
def Quiet (pgt : PageTable) (m : Mem) (src offset count : ℕ) (l : Logged) (di : DiskInode) : Prop :=
  ∀ x,FirstUnmapped pgt src x → 0 < x → x ≤ count → ∀ y,y < x →
    (offset+y)/bsize=(offset+x-1)/bsize →
      UserBytes.byteAt pgt m (src+y)=byteAt l.disk di (offset+y) ∨
        di.size.toNat ≤ offset+y ∧ Saved l di ((offset+y)/bsize)

/-- The contents of a file after the first `n` bytes of the source are spliced in. -/
def spliced (pgt : PageTable) (m : Mem) (src offset n : ℕ) (d : Disk) (di : DiskInode) :
    ℕ → UInt8 :=
  fun o => if offset ≤ o ∧ o < offset+n then UserBytes.byteAt pgt m (src+(o-offset))
    else byteAt d di o

/-- A write reports what it changes: with `Ok(n)` every later read finds the first `n` bytes of the
source spliced into the old contents, and every buffer that has changed is passed to `LOG.write`;
with `Err` nothing is changed. -/
def Reports (sb : SuperBlock) (i : ℕ) (pgt : PageTable) (m : Mem) (src offset count : ℕ)
    (l : Logged) (di : DiskInode) : Option ℕ → Logged → DiskInode → Prop
  | none,w,di' => w=l ∧ di'=di
  | some n,w,di' => n ≤ count ∧ ReadsAs sb w.disk di' (spliced pgt m src offset n l.disk di) ∧
      di'.size.toNat=max di.size.toNat (offset+n) ∧ inodeAt sb w.disk i=di' ∧
      ∀ b,w.disk b≠l.disk b → b∈w.passed

/-- What an operation of the inode layer passes to `LOG.write`: all that it changes, and besides
blocks that were free only those with `Q`. -/
structure Passes (sb : SuperBlock) (Q : ℕ → Prop) (l l' : Logged) : Prop where
  /-- What is passed stays so. -/
  more : ∀ c,c∈l.passed → c∈l'.passed
  /-- Other blocks do not change. -/
  frame : ∀ c,c∉l'.passed → l'.disk c=l.disk c
  /-- Blocks that are taken are passed. -/
  fresh : ∀ c,c < sb.size → bit sb l.disk c=false → bit sb l'.disk c=true → c∈l'.passed
  /-- No block is freed. -/
  bits : ∀ c,c < sb.size → bit sb l.disk c=true → bit sb l'.disk c=true
  /-- Which blocks are passed. -/
  only : ∀ c,c∈l'.passed → c∈l.passed ∨ c < sb.nmeta ∨ c < sb.size ∧ bit sb l.disk c=false ∨ Q c

/-- The indirect block of a file, and the blocks of the bytes that are written. -/
def Touched (d : Disk) (di : DiskInode) (pos n c : ℕ) : Prop :=
  c≠0 ∧ ∃ p,p < npos ∧ addrAt d di p=c ∧ (p=ndirect ∨ ∃ y,y < n ∧ p=posOf ((pos+y)/bsize))

/-- Where a write stops at a page that is not mapped, in a block of the file: the block in the
buffer has the bytes of the source up to that page. -/
structure Torn (pgt : PageTable) (m : Mem) (src pos left : ℕ) (base w : Logged) (di' : DiskInode)
    (k : ℕ) : Prop where
  /-- The bytes are in one block. -/
  bound : pos%bsize+k ≤ bsize
  /-- They are asked for. -/
  asked : k ≤ left
  /-- The block has a number. -/
  block : pos/bsize < ndirect+nindirect ∧ addrAt base.disk di' (posOf (pos/bsize))≠0
  /-- The page behind them is not mapped. -/
  unmapped : FirstUnmapped pgt src k
  /-- They are in the buffer only. -/
  buffer : w=⟨Function.update base.disk (addrAt base.disk di' (posOf (pos/bsize)))
    (splice (base.disk (addrAt base.disk di' (posOf (pos/bsize)))) (pos%bsize)
      (fun j => UserBytes.byteAt pgt m (src+j)) k),base.passed⟩

/-- What the loop of `try_iwrite` leaves of a write at a position: what is in `base` is written, and
the rest of a block may be in a buffer. -/
structure Filled (sb : SuperBlock) (v : ℕ → DiskInode) (i : ℕ) (pgt : PageTable) (m : Mem)
    (src pos count : ℕ) (l : Logged) (di : DiskInode) (left : ℕ) (base w : Logged)
    (di' : DiskInode) : Prop where
  /-- No more than that is left. -/
  bound : left ≤ count
  /-- Blocks are added. -/
  grows : Grows sb v i l.disk di base.disk di'
  /-- What is written is passed. -/
  passes : Passes sb (Touched base.disk di' pos (count-left)) l base
  /-- Other inodes keep their contents. -/
  others : ∀ j,j≠i → j < sb.ninodes → (v j).itype≠.empty → ∀ o,o < maxFileSize →
    byteAt base.disk (v j) o=byteAt l.disk (v j) o
  /-- What is written is in the file. -/
  bytes : ∀ o,o < maxFileSize →
    byteAt base.disk di' o=spliced pgt m src pos (count-left) l.disk di o
  /-- Its pages and the one right behind it are mapped for the user. -/
  user : 0 < count-left → ∀ y,y ≤ count-left → UserPage pgt ((src+y)/pageSize)
  /-- Why the loop stops: the rest of the block has to be copied. -/
  stop : (left=0 ∧ w=base) ∨
    (0 < left ∧ (left=count ∨ (pos+(count-left))%bsize=0) ∧
      ∃ k,Torn pgt m (src+(count-left)) (pos+(count-left)) left base w di' k)

section Passed

variable {sb : SuperBlock} {Q Q' : ℕ → Prop} {l l' l'' : Logged} {b : ℕ}

theorem Passes.refl : Passes sb Q l l := by
  refine ⟨fun _ hc => hc,fun _ _ => rfl,fun c _ hfree hset => ?_,fun _ _ hset => hset,
    fun _ hc => .inl hc⟩
  rw [hfree] at hset
  cases hset

theorem Passes.imp (h : Passes sb Q l l') (hq : ∀ c,Q c → Q' c) : Passes sb Q' l l' :=
  ⟨h.more,h.frame,h.fresh,h.bits,fun c hc => (h.only c hc).imp_right
    fun h => h.imp_right fun h => h.imp_right (hq c)⟩

theorem Passes.trans (h : Passes sb Q l l') (h' : Passes sb Q l' l'') : Passes sb Q l l'' := by
  refine ⟨fun c hc => h'.more c (h.more c hc),fun c hc => ?_,fun c hlt hfree hset => ?_,
    fun c hlt hset => h'.bits c hlt (h.bits c hlt hset),fun c hc => ?_⟩
  · exact (h'.frame c hc).trans (h.frame c fun hold => hc (h'.more c hold))
  · cases hbit : bit sb l'.disk c with
    | false => exact h'.fresh c hlt hbit hset
    | true => exact h'.more c (h.fresh c hlt hfree hbit)
  · obtain hold | hlow | ⟨hlt,hfree⟩ | hq := h'.only c hc
    · exact h.only c hold
    · exact .inr (.inl hlow)
    · refine .inr (.inr (.inl ⟨hlt,?_⟩))
      cases hbit : bit sb l.disk c with
      | false => rfl
      | true => rw [h.bits c hlt hbit] at hfree; cases hfree
    · exact .inr (.inr (.inr hq))

/-- A data block is written. -/
theorem write_passes (g : sb.Geometry) (hlow : sb.nmeta ≤ b) (hq : Q b) (buf : Buffer) :
    Passes sb Q l (l.write b buf) := by
  have hbit : ∀ c,c < sb.size → bit sb (l.write b buf).disk c=bit sb l.disk c := fun c hc =>
    bit_update _ g hc hlow buf
  refine ⟨fun c hc => List.mem_cons_of_mem _ hc,fun c hc => ?_,fun c hlt hfree hset => ?_,
    fun c hlt hset => (hbit c hlt).trans hset,fun c hc => ?_⟩
  · have hne : c≠b := fun e => hc (List.mem_cons.mpr (.inl e))
    exact Function.update_of_ne hne ..
  · rw [hbit c hlt,hfree] at hset
    cases hset
  · obtain rfl | hold := List.mem_cons.mp hc
    · exact .inr (.inr (.inr hq))
    · exact .inl hold

/-- `bm_alloc` passes the bitmap and the block. -/
theorem bmAlloc_passes (g : sb.Geometry) (hmeta : ∀ c,c < sb.nmeta → bit sb l.disk c=true)
    (h : LogWrites.bmAlloc sb l=.ok (b,l')) :
    Fresh sb l.disk b l'.disk ∧ Passes sb Q l l' := by
  have hf : Fresh sb l.disk b l'.disk := by
    refine bmAlloc_fresh g hmeta ?_
    rw [← LogWrites.bmAlloc_erases,h]
    rfl
  refine ⟨hf,?_⟩
  rw [LogWrites.bmAlloc] at h
  split at h
  · cases h
  · rename_i base offset hfind
    obtain ⟨hlt,-,hblock,-⟩ := bmFind_some hfind
    have hbm := g.bitmap _ hlt
    cases h
    have hmem : ∀ c,c∈(base+offset)::sb.bitmapBlockno base::l.passed ↔
        c=base+offset ∨ c=sb.bitmapBlockno base ∨ c∈l.passed := fun c => by
      rw [List.mem_cons,List.mem_cons]
    refine ⟨fun c hc => (hmem c).mpr (.inr (.inr hc)),fun c hc => ?_,fun c hlt hfree hset => ?_,
      fun c hlt hset => ?_,fun c hc => ?_⟩
    · have hne : c≠base+offset := fun e => hc ((hmem c).mpr (.inl e))
      have hne' : c≠sb.bitmapBlockno base := fun e => hc ((hmem c).mpr (.inr (.inl e)))
      exact (Function.update_of_ne hne ..).trans (Function.update_of_ne hne' ..)
    · rw [hf.bits c hlt] at hset
      split at hset
      · rename_i e
        exact (hmem c).mpr (.inl e)
      · rw [hfree] at hset
        cases hset
    · rw [hf.bits c hlt,hset]
      exact ite_self _
    · obtain rfl | rfl | hold := (hmem c).mp hc
      · exact .inr (.inr (.inl ⟨hf.high,hf.free⟩))
      · rw [hblock] at hbm
        exact .inr (.inl (by omega))
      · exact .inl hold

variable {v : ℕ → DiskInode} {i bn : ℕ} {di di' : DiskInode}

theorem mapBlockno_disk (h : LogWrites.mapBlockno sb l di bn=.ok (b,l',di')) :
    mapBlockno sb l.disk di bn=.ok (b,l'.disk,di') := by
  rw [← LogWrites.mapBlockno_erases,h]
  rfl

/-- `map_blockno` passes the block if it is new, and the indirect block if that is new or changed. -/
theorem mapBlockno_passes (g : sb.Geometry) (ho : Owned sb l.disk (withInode v i di))
    (hi : i < sb.ninodes) (hu : di.itype≠.empty)
    (h : LogWrites.mapBlockno sb l di bn=.ok (b,l',di')) :
    Passes sb (fun c => c=di'.addr ndirect ∧ c≠0) l l' := by
  have hboot := g.boot
  rw [LogWrites.mapBlockno] at h
  split at h
  · split at h
    · cases halloc : LogWrites.bmAlloc sb l with
      | error e =>
        rw [halloc] at h
        cases h
      | ok x =>
        rw [halloc] at h
        cases h
        exact (bmAlloc_passes g (fun c => ho.before) halloc).2
    · cases h
      exact .refl
  · split at h
    · -- the entry of the indirect block, wherever that is
      have hentry : ∀ (indirect : ℕ) (l₁ : Logged) (di₁ : DiskInode),
          (∀ c,c < sb.nmeta → bit sb l₁.disk c=true) → sb.nmeta ≤ indirect →
          indirect=di₁.addr ndirect →
          (if word (l₁.disk indirect) (bn-ndirect)=0 then
            LogWrites.bmAlloc sb l₁ >>= fun x => pure
              (x.1,x.2.write indirect (putWord (x.2.disk indirect) (bn-ndirect) x.1),di₁)
          else return (word (l₁.disk indirect) (bn-ndirect),l₁,di₁))=.ok (b,l',di') →
          Passes sb (fun c => c=di'.addr ndirect ∧ c≠0) l₁ l' := by
        intro indirect l₁ di₁ hmeta hlow hind h
        split at h
        · cases halloc : LogWrites.bmAlloc sb l₁ with
          | error e =>
            rw [halloc] at h
            cases h
          | ok x =>
            rw [halloc] at h
            cases h
            exact (bmAlloc_passes g hmeta halloc).2.trans (write_passes g hlow ⟨hind,by omega⟩ _)
        · cases h
          exact .refl
      split at h
      · cases halloc : LogWrites.bmAlloc sb l with
        | error e =>
          rw [halloc] at h
          cases h
        | ok x =>
          rw [halloc] at h
          obtain ⟨hf,hpass⟩ := @bmAlloc_passes _ (fun c => c=di'.addr ndirect ∧ c≠0) _ _ _ g
            (fun c => ho.before) halloc
          refine hpass.trans (hentry x.1 x.2 _ (fun c hc => ?_) hf.low ?_ h)
          · have hlow := hf.low
            have hhigh := hf.high
            exact hpass.bits c (by omega) (ho.before hc)
          · rw [DiskInode.addr_setAddr _ (hf.high.trans g.width) (by decide),if_pos rfl]
      · rename_i hind
        have hself : withInode v i di i=di := withInode_self
        have hheld := holds_indirect (d:=l.disk) (v:=withInode v i di) hi (by rwa [hself])
          (by rwa [hself])
        rw [hself] at hheld
        exact hentry _ l di (fun c => ho.before) (ho.range hheld).1 rfl h
    · cases h

end Passed

section Loop

variable {sb : SuperBlock} {v : ℕ → DiskInode} {i : ℕ} {pgt : PageTable} {m : Mem}
  {d : Disk} {l base w : Logged} {di di' : DiskInode}

/-- What `copy_in` leaves in a block. -/
theorem splice_fetched (b : Buffer) (off src : ℕ) {k n : ℕ} (hk : k ≤ n) :
    splice b off (UserBytes.fetched pgt m (fun j => b (off+j)) src k) n=
      splice b off (fun j => UserBytes.byteAt pgt m (src+j)) k := by
  funext j
  rw [splice,splice]
  by_cases hin : off ≤ j ∧ j < off+k
  · rw [if_pos hin,if_pos ⟨hin.1,by omega⟩,UserBytes.fetched,if_pos (by omega)]
  · rw [if_neg hin]
    split
    · rename_i hn
      rw [UserBytes.fetched,if_neg (by omega),Nat.add_sub_cancel' hn.1]
    · rfl

theorem spliced_zero (src pos o : ℕ) : spliced pgt m src pos 0 d di o=byteAt d di o :=
  if_neg (by omega)

/-- Bytes are spliced in behind others. -/
theorem spliced_append {d' : Disk} {src pos n r o : ℕ}
    (h : byteAt d' di' o=spliced pgt m src pos n d di o) :
    spliced pgt m (src+n) (pos+n) r d' di' o=spliced pgt m src pos (n+r) d di o := by
  rw [spliced,h,spliced,spliced]
  by_cases hlater : pos+n ≤ o ∧ o < pos+n+r
  · have e : src+n+(o-(pos+n))=src+(o-pos) := by omega
    rw [if_pos hlater,if_pos (by omega),e]
  · rw [if_neg hlater]
    by_cases hnow : pos ≤ o ∧ o < pos+n
    · rw [if_pos hnow,if_pos (by omega)]
    · rw [if_neg hnow,if_neg (by omega)]

/-- What is copied into a block is spliced into the file. -/
theorem spliced_block {bn off src n o : ℕ} (h : addrAt d di (posOf bn)≠0) (hoff : off+n ≤ bsize) :
    (if o/bsize=bn then
        splice (d (addrAt d di (posOf bn))) off (fun j => UserBytes.byteAt pgt m (src+j)) n (o%bsize)
      else byteAt d di o)=spliced pgt m src (bn*bsize+off) n d di o := by
  have hcell := @byteAt_splice d di bn off n o (fun j => UserBytes.byteAt pgt m (src+j))
    (fun j => UserBytes.byteAt pgt m (src+j)) 0 h hoff fun j _ => by rw [Nat.zero_add]
  rw [hcell,spliced]
  simp only [Nat.zero_add]

/-- What is touched stays so when blocks are added. -/
theorem Touched.grows {d' : Disk} {pos n c : ℕ} (h : Touched d di pos n c)
    (hg : Grows sb v i d di d' di') : Touched d' di' pos n c := by
  obtain ⟨hne,p,hp,rfl,hpart⟩ := h
  exact ⟨hne,p,hp,hg.kept p hp hne,hpart⟩

/-- The indirect block is touched. -/
theorem touched_indirect {pos n c : ℕ} (h : c=di.addr ndirect ∧ c≠0) : Touched d di pos n c := by
  obtain ⟨rfl,hne⟩ := h
  exact ⟨hne,ndirect,by decide,addrAt_ndirect,.inl rfl⟩

/-- A block of a file is a data block. -/
theorem block_low {bn : ℕ} (h : Owned sb d (withInode v i di)) (hi : i < sb.ninodes)
    (hu : di.itype≠.empty) (hbn : bn < ndirect+nindirect) (hne : addrAt d di (posOf bn)≠0) :
    sb.nmeta ≤ addrAt d di (posOf bn) := by
  have hself : withInode v i di i=di := withInode_self
  have hh : Holds sb d (withInode v i di) i (posOf bn) (addrAt d di (posOf bn)) :=
    ⟨hi,by rwa [hself],posOf_lt hbn,by rw [hself],hne⟩
  exact (h.range hh).1

/-- The bytes of the source that are written to a block are spliced into the file. -/
theorem mapBlockno_spliced {blockBase blockOffset src bn k : ℕ} {d' : Disk} (g : sb.Geometry)
    (h : Owned sb d (withInode v i di)) (hi : i < sb.ninodes) (hu : di.itype≠.empty)
    (hmap : mapBlockno sb d di blockBase=.ok (bn,d',di')) (hoff : blockOffset+k ≤ bsize) {o : ℕ}
    (ho : o < maxFileSize) :
    byteAt (Function.update d' bn (splice (d' bn) blockOffset
        (fun j => UserBytes.byteAt pgt m (src+j)) k)) di' o=
      spliced pgt m src (blockBase*bsize+blockOffset) k d di o := by
  obtain ⟨-,-,⟨-,rfl,hne,-⟩,hsame,hbytes⟩ := mapBlockno_write g h hi hu hmap
    (splice (d' bn) blockOffset (fun j => UserBytes.byteAt pgt m (src+j)) k)
  have hcell := @spliced_block pgt m d' di' blockBase blockOffset src k o hne hoff
  rw [hsame o ho] at hcell
  rw [hbytes o ho,hcell,spliced,spliced,hsame o ho]

/-- The whole part of a block is written, and then the rest. -/
theorem Filled.block {blockBase blockOffset count src left bn k : ℕ} {l₁ : Logged} {di₁ : DiskInode}
    (g : sb.Geometry) (h : Owned sb l.disk (withInode v i di)) (hi : i < sb.ninodes)
    (hu : di.itype≠.empty) (hoff : blockOffset < bsize)
    (hmap : LogWrites.mapBlockno sb l di blockBase=.ok (bn,l₁,di₁))
    (hk : k=min (bsize-blockOffset) count) (hpos : k≠0)
    (huser : ∀ y,y ≤ k → UserPage pgt ((src+y)/pageSize))
    (hrest : Filled sb v i pgt m (src+k) ((blockBase+1)*bsize+0) (count-k)
      (l₁.write bn (splice (l₁.disk bn) blockOffset
        (fun j => UserBytes.byteAt pgt m (src+j)) k)) di₁ left base w di') :
    Filled sb v i pgt m src (blockBase*bsize+blockOffset) count l di left base w di' := by
  obtain ⟨hgrow₀,-,-,-,-⟩ := mapBlockno_grows g h hi hu (mapBlockno_disk hmap)
  obtain ⟨hgrow,hothers,⟨hbn,hnum,hne,hnum'⟩,-,-⟩ := mapBlockno_write g h hi hu (mapBlockno_disk hmap)
    (splice (l₁.disk bn) blockOffset (fun j => UserBytes.byteAt pgt m (src+j)) k)
  have hcells : ∀ o,o < maxFileSize →
      byteAt (Function.update l₁.disk bn (splice (l₁.disk bn) blockOffset
        (fun j => UserBytes.byteAt pgt m (src+j)) k)) di₁ o=
        spliced pgt m src (blockBase*bsize+blockOffset) k l.disk di o := fun o ho =>
    mapBlockno_spliced g h hi hu (mapBlockno_disk hmap) (by omega) ho
  have hbound := hrest.bound
  have hsucc : (blockBase+1)*bsize=blockBase*bsize+bsize := Nat.succ_mul ..
  refine ⟨by omega,hgrow.trans hrest.grows,?_,fun j hji hj hju o ho => ?_,
    fun o ho => ?_,fun _ y hy => ?_,?_⟩
  · have hu₁ : di₁.itype≠.empty := by rwa [hgrow₀.itype]
    have hlow := block_low hgrow₀.owned hi hu₁ hbn (by rwa [hnum])
    rw [hnum] at hlow
    have hblock : Touched base.disk di' (blockBase*bsize+blockOffset) (count-left) bn :=
      Touched.grows ⟨hne,_,posOf_lt hbn,hnum',
        .inr ⟨0,by omega,by rw [Nat.add_zero,block_div hoff]⟩⟩ hrest.grows
    refine ((mapBlockno_passes g h hi hu hmap).imp fun c hc => ?_).trans
      ((write_passes g hlow hblock _).trans (hrest.passes.imp fun c hc => ?_))
    · exact @Touched.grows _ _ _ (Function.update l₁.disk bn _) di₁ di' _ _ _ _
        (touched_indirect hc) hrest.grows
    · obtain ⟨hc₀,p,hp,hpc,rfl | ⟨y,hy,rfl⟩⟩ := hc
      · exact touched_indirect ⟨hpc.symm.trans addrAt_ndirect,hc₀⟩
      · have e : (blockBase+1)*bsize+0+y=blockBase*bsize+blockOffset+(k+y) := by omega
        exact ⟨hc₀,_,hp,hpc,.inr ⟨k+y,by omega,by rw [e]⟩⟩
  · exact (hrest.others j hji hj hju o ho).trans (hothers j hji hj hju o ho)
  · rw [hrest.bytes o ho]
    by_cases hlast : k=count
    · have e : count-k-left=0 := by omega
      have e' : count-left=k := by omega
      rw [e,e',spliced_zero]
      exact hcells o ho
    · have e : (blockBase+1)*bsize+0=blockBase*bsize+blockOffset+k := by omega
      have e' : count-left=k+(count-k-left) := by omega
      rw [e,e']
      exact spliced_append (hcells o ho)
  · by_cases hy' : y ≤ k
    · exact huser y hy'
    · have hlater := hrest.user (by omega) (y-k) (by omega)
      have e : src+k+(y-k)=src+y := by omega
      rwa [e] at hlater
  · obtain ⟨rfl,hcache⟩ | ⟨hleft,hstart,k',htorn⟩ := hrest.stop
    · exact .inl ⟨rfl,hcache⟩
    · have e : (blockBase+1)*bsize+0+(count-k-left)=blockBase*bsize+blockOffset+(count-left) := by
        omega
      have e' : src+k+(count-k-left)=src+(count-left) := by omega
      rw [e] at hstart htorn
      rw [e'] at htorn
      refine .inr ⟨hleft,.inr ?_,k',htorn⟩
      obtain hfirst | hstart := hstart
      · have hpos : blockBase*bsize+blockOffset+(count-left)=(blockBase+1)*bsize := by omega
        rw [hpos,Nat.mul_mod_left]
      · exact hstart

/-- The copy into a block comes to a page that is not mapped. -/
theorem filled_torn {blockBase blockOffset left src bn k : ℕ} {l₁ : Logged} {di₁ : DiskInode}
    (g : sb.Geometry) (h : Owned sb l.disk (withInode v i di)) (hi : i < sb.ninodes)
    (hu : di.itype≠.empty) (hoff : blockOffset < bsize)
    (hmap : LogWrites.mapBlockno sb l di blockBase=.ok (bn,l₁,di₁)) (hleft : 0 < left)
    (hk : k ≤ min (bsize-blockOffset) left) (hstop : FirstUnmapped pgt src k) :
    Filled sb v i pgt m src (blockBase*bsize+blockOffset) left l di left l₁
      ⟨Function.update l₁.disk bn (splice (l₁.disk bn) blockOffset
        (fun j => UserBytes.byteAt pgt m (src+j)) k),l₁.passed⟩ di₁ := by
  obtain ⟨hgrow,hbytes,hbn,rfl,hne⟩ := mapBlockno_grows g h hi hu (mapBlockno_disk hmap)
  have e : left-left=0 := Nat.sub_self left
  refine ⟨le_rfl,hgrow,(mapBlockno_passes g h hi hu hmap).imp fun c hc => touched_indirect hc,
    fun j hji hj hju o ho => sameBytes_other hbytes hji hj hju ho,fun o ho => ?_,
    fun hlt => absurd hlt (by omega),.inr ⟨hleft,.inl rfl,k,?_⟩⟩
  · rw [e,spliced_zero]
    exact sameBytes_self hbytes hi hu ho
  · rw [e,Nat.add_zero,Nat.add_zero]
    have hdiv : (blockBase*bsize+blockOffset)/bsize=blockBase := block_div hoff
    have hmod : (blockBase*bsize+blockOffset)%bsize=blockOffset := Nat.mul_add_mod_of_lt hoff
    refine ⟨by omega,by omega,by rw [hdiv]; exact ⟨hbn,hne⟩,hstop,?_⟩
    rw [hdiv,hmod]

/-- The loop of `try_iwrite` from user memory. -/
theorem writeLoop_filled {fuel blockBase blockOffset count src left : ℕ}
    (g : sb.Geometry) (h : Owned sb l.disk (withInode v i di)) (hi : i < sb.ninodes)
    (hu : di.itype≠.empty) (hcount : count ≤ fuel) (hoff : blockOffset < bsize)
    (hok : writeLoop sb pgt m fuel l di blockBase blockOffset count src=.ok (left,w,di')) :
    ∃ base,Filled sb v i pgt m src (blockBase*bsize+blockOffset) count l di left base w di' := by
  have hnothing : ∀ {l : Logged} {di : DiskInode} {src pos : ℕ},
      Owned sb l.disk (withInode v i di) → Filled sb v i pgt m src pos 0 l di 0 l l di := fun h =>
    ⟨le_rfl,.refl h,.refl,fun _ _ _ _ _ _ => rfl,fun o _ => (if_neg (by omega)).symm,
      fun hlt => absurd hlt (by decide),.inl ⟨rfl,rfl⟩⟩
  induction fuel generalizing l di blockBase blockOffset count src with
  | zero =>
    obtain rfl : count=0 := Nat.le_zero.mp hcount
    cases hok
    exact ⟨_,hnothing h⟩
  | succ fuel ih =>
    rw [writeLoop] at hok
    by_cases hzero : count=0
    · subst hzero
      rw [if_pos rfl] at hok
      cases hok
      exact ⟨_,hnothing h⟩
    · rw [if_neg hzero] at hok
      cases hmap : LogWrites.mapBlockno sb l di blockBase with
      | error e =>
        rw [hmap] at hok
        cases hok
      | ok x =>
        obtain ⟨bn,l₁,di₁⟩ := x
        rw [hmap] at hok
        dsimp only at hok
        obtain ⟨n,hn⟩ : ∃ n,n=min (bsize-blockOffset) count := ⟨_,rfl⟩
        rw [← hn] at hok
        have hnpos : n≠0 := by omega
        by_cases hva : src ≤ maxva
        · obtain ⟨k,r,hcopy,hreach⟩ :=
            copyIn_spec pgt m (fun k => l₁.disk bn (blockOffset+k)) hnpos hva
          have hk := hreach.bound
          rw [hcopy] at hok
          dsimp only at hok
          rw [splice_fetched _ _ _ hk] at hok
          obtain ⟨rfl,rfl,hend⟩ | ⟨rfl,hnot⟩ | ⟨rfl,-⟩ := hreach.stop
          · -- the whole part of the block is copied
            dsimp only at hok
            split at hok
            · cases hok
            · obtain ⟨hgrow,-⟩ := mapBlockno_write g h hi hu (mapBlockno_disk hmap)
                (splice (l₁.disk bn) blockOffset (fun j => UserBytes.byteAt pgt m (src+j)) k)
              obtain ⟨base,hrest⟩ :=
                ih hgrow.owned (by rwa [hgrow.itype]) (by omega) (by decide) hok
              refine ⟨base,.block g h hi hu hoff hmap hn hnpos (fun y hy => ?_) hrest⟩
              obtain hlt | rfl := Nat.lt_or_eq_of_le hy
              · exact hreach.user y hlt
              · exact hend
          · -- the copy fails
            dsimp only at hok
            cases hok
            exact ⟨l₁,filled_torn g h hi hu hoff hmap (Nat.pos_of_ne_zero hzero) (hn ▸ hk)
              ⟨hnot,hreach.user⟩⟩
          · cases hok
        · rw [copyIn,if_pos (not_le.mp hva)] at hok
          cases hok

/-- The last byte of a block and what comes before it. -/
theorem div_same {p j : ℕ} (h : p%bsize+j < bsize) : (p+j)/bsize=p/bsize := by
  have hsum : p/bsize*bsize+p%bsize=p := Nat.div_add_mod' ..
  rw [Nat.div_eq_iff (by decide)]
  omega

/-- There is one first page that is not mapped. -/
theorem firstUnmapped_unique {src x y : ℕ} (hx : FirstUnmapped pgt src x)
    (hy : FirstUnmapped pgt src y) : x=y := by
  by_contra hne
  obtain hlt | hlt := Nat.lt_or_gt_of_ne hne
  · exact hx.1 (hy.2 x hlt)
  · exact hy.1 (hx.2 y hlt)

/-- How a write ends that is not finished: the source has `k` bytes for the block after the `n`
bytes that are written. -/
structure Ends (pgt : PageTable) (src pos count n k : ℕ) : Prop where
  /-- Some bytes are not written. -/
  part : n < count
  /-- No more bytes are read than are asked for. -/
  bound : n+k ≤ count
  /-- The source ends there. -/
  unmapped : FirstUnmapped pgt src (n+k)
  /-- What is written ends with a block. -/
  start : n=0 ∨ (pos+n)%bsize=0
  /-- The bytes are for one block. -/
  block : (pos+n)%bsize+k ≤ bsize
  /-- After a block that is written there are some. -/
  positive : 0 < n → 0 < k

/-- The bytes before them are in blocks of their own. -/
theorem Ends.apart {src pos count n k y : ℕ} (h : Ends pgt src pos count n k) (hy : y < n) :
    (pos+y)/bsize≠(pos+n)/bsize := by
  intro e
  obtain rfl | hstart := h.start
  · exact absurd hy (Nat.not_lt_zero y)
  · have hmod := Nat.div_add_mod' (pos+n) bsize
    have hle := Nat.div_mul_le_self (pos+y) bsize
    rw [e] at hle
    omega

/-- The bytes for the last block. -/
theorem Ends.same_block {src pos count n k y : ℕ} (h : Ends pgt src pos count n k) (hk : 0 < k)
    (hy : y < n+k) : (pos+y)/bsize=(pos+(n+k)-1)/bsize ↔ n ≤ y := by
  have hblock := h.block
  have hlast : pos+(n+k)-1=pos+n+(k-1) := by omega
  rw [hlast,div_same (show (pos+n)%bsize+(k-1) < bsize by omega)]
  refine ⟨fun e => not_lt.mp fun hlt => h.apart hlt e,fun hle => ?_⟩
  · have hsum : pos+y=pos+n+(y-n) := by omega
    rw [hsum,div_same (by omega)]

/-- The write is quiet exactly if the last bytes are. -/
theorem Ends.quiet_iff {src pos count n k : ℕ} (h : Ends pgt src pos count n k) :
    Quiet pgt m src pos count l di ↔
      ∀ y,n ≤ y → y < n+k → UserBytes.byteAt pgt m (src+y)=byteAt l.disk di (pos+y) ∨
        di.size.toNat ≤ pos+y ∧ Saved l di ((pos+y)/bsize) := by
  refine ⟨fun hq y hle hlt => ?_,fun hsame x hx hpos hxc y hy hblock => ?_⟩
  · exact hq (n+k) h.unmapped (by omega) h.bound y hlt ((h.same_block (by omega) hlt).mpr hle)
  · obtain rfl := firstUnmapped_unique hx h.unmapped
    have hk : 0 < k := by
      have hp := h.positive
      omega
    exact hsame y ((h.same_block hk hy).mp hblock) hy

/-- A write whose source is mapped, with the page behind it, is quiet. -/
theorem quiet_of_user {src pos count : ℕ}
    (h : 0 < count → ∀ y,y ≤ count → UserPage pgt ((src+y)/pageSize)) :
    Quiet pgt m src pos count l di := fun x hx hpos hle =>
  absurd (h (by omega) x hle) hx.1

/-- What the buffers hold of a file after a write: all bytes that were read. -/
theorem Filled.ends {src pos count left : ℕ}
    (h : Filled sb v i pgt m src pos count l di left base w di') (g : sb.Geometry)
    (hi : i < sb.ninodes) (hu : di'.itype≠.empty) :
    Grows sb v i base.disk di' w.disk di' ∧
    ((left=0 ∧ w=base ∧ (0 < count → ∀ y,y ≤ count → UserPage pgt ((src+y)/pageSize))) ∨
      ∃ k,Ends pgt src pos count (count-left) k ∧
        Torn pgt m (src+(count-left)) (pos+(count-left)) left base w di' k ∧
        ∀ o,o < maxFileSize → byteAt w.disk di' o=spliced pgt m src pos (count-left+k) l.disk di o) := by
  have hbound := h.bound
  obtain ⟨rfl,rfl⟩ | ⟨hleft,hstart,k,htorn⟩ := h.stop
  · refine ⟨.refl h.grows.owned,.inl ⟨rfl,rfl,?_⟩⟩
    exact h.user
  · obtain ⟨hbn,hne⟩ := htorn.block
    obtain ⟨hgrow,hbytes⟩ := grows_write g h.grows.owned hi hu hbn hne
      (splice (base.disk (addrAt base.disk di' (posOf ((pos+(count-left))/bsize))))
        ((pos+(count-left))%bsize) (fun j => UserBytes.byteAt pgt m (src+(count-left)+j)) k)
    have hdisk := congrArg Logged.disk htorn.buffer
    dsimp only at hdisk
    rw [← hdisk] at hgrow hbytes
    have hself : withInode v i di' i=di' := withInode_self
    have hasked := htorn.asked
    have huser : 0 < count-left → ∀ y,y ≤ count-left → UserPage pgt ((src+y)/pageSize) := h.user
    refine ⟨hgrow,.inr ⟨k,⟨by omega,by omega,⟨?_,fun y hy => ?_⟩,?_,htorn.bound,?_⟩,htorn,
      fun o ho => ?_⟩⟩
    · rw [← Nat.add_assoc]
      exact htorn.unmapped.1
    · by_cases hy' : y < count-left
      · exact huser (by omega) y hy'.le
      · have hu' := htorn.unmapped.2 (y-(count-left)) (by omega)
        have e : src+(count-left)+(y-(count-left))=src+y := by omega
        rwa [e] at hu'
    · obtain rfl | hstart := hstart
      · exact .inl (Nat.sub_self left)
      · exact .inr hstart
    · intro hn
      by_contra hk
      obtain rfl : k=0 := by omega
      exact htorn.unmapped.1 (huser hn (count-left) le_rfl)
    · have e := hbytes i hi (by rwa [hself]) o ho
      rw [hself] at e
      have hcell := @spliced_block pgt m base.disk di' ((pos+(count-left))/bsize)
        ((pos+(count-left))%bsize) (src+(count-left)) k o hne htorn.bound
      rw [Nat.div_add_mod'] at hcell
      rw [e,← spliced_append (h.bytes o ho),← hcell]
      simp only [true_and]

/-- A block of the file in which no byte is written is passed exactly if a commit writes it anyway. -/
theorem Filled.saved_iff {src pos count left bn : ℕ}
    (h : Filled sb v i pgt m src pos count l di left base w di')
    (ho : Owned sb l.disk (withInode v i di)) (hi : i < sb.ninodes) (hu : di.itype≠.empty)
    (hbn : bn < ndirect+nindirect) (hne : addrAt base.disk di' (posOf bn)≠0)
    (hnone : ∀ y,y < count-left → (pos+y)/bsize≠bn) :
    addrAt base.disk di' (posOf bn)∈base.passed ↔ Saved l di bn := by
  have hp := posOf_lt hbn
  have hself : withInode v i di i=di := withInode_self
  have hself' : withInode v i di' i=di' := withInode_self
  have hu' : di'.itype≠.empty := by rwa [h.grows.itype]
  have hheld : ∀ {p},p < npos → addrAt base.disk di' p≠0 →
      Holds sb base.disk (withInode v i di') i p (addrAt base.disk di' p) := fun hp hne =>
    ⟨hi,by rwa [hself'],hp,by rw [hself'],hne⟩
  obtain ⟨hlow,hhigh⟩ := h.grows.owned.range (hheld hp hne)
  by_cases hzero : addrAt l.disk di (posOf bn)=0
  · refine iff_of_true (h.passes.fresh _ hhigh ?_ (h.grows.owned.held (hheld hp hne))) (.inl hzero)
    -- had the block been in use, it would be the same one in the same place
    by_contra hset
    obtain hlt | ⟨j,p,hj⟩ := (ho.bits _ hhigh).mp (eq_true_of_ne_false hset)
    · omega
    · have hjp : i=j ∧ posOf bn=p := by
        refine h.grows.owned.single (hheld hp hne) ⟨hj.inum,?_,hj.pos,?_,hne⟩
        · by_cases e : j=i
          · rwa [e,hself']
          · have hju := hj.used
            rwa [withInode_of_ne e] at hju ⊢
        · have haddr := hj.addr
          by_cases e : j=i
          · rw [e,hself] at haddr
            rw [e,hself',h.grows.kept p hj.pos (haddr ▸ hne),haddr]
          · have hju := hj.used
            rw [withInode_of_ne e] at haddr hju ⊢
            rw [h.grows.others j e hj.inum hju p hj.pos,haddr]
      obtain ⟨rfl,rfl⟩ := hjp
      have haddr := hj.addr
      rw [hself,hzero] at haddr
      exact hne haddr.symm
  · have hkept := h.grows.kept _ hp hzero
    rw [Saved,or_iff_right hzero,hkept]
    refine ⟨fun hin => ?_,h.passes.more _⟩
    have hset : bit sb l.disk (addrAt l.disk di (posOf bn))=true :=
      ho.held (p:=posOf bn) (i:=i) ⟨hi,by rwa [hself],hp,by rw [hself],hzero⟩
    obtain hold | hmeta | ⟨-,hfree⟩ | ⟨-,p,hp',hsame,hpart⟩ := h.passes.only _ hin
    · exact hold
    · omega
    · rw [hset] at hfree
      cases hfree
    · rw [← hkept] at hsame
      have hpp := (h.grows.owned.single (hheld hp' (hsame ▸ hne)) (hsame ▸ hheld hp hne)).2
      obtain rfl | ⟨y,hy,rfl⟩ := hpart
      · exact absurd hpp.symm posOf_ne
      · exact absurd (posOf_inj hpp) (hnone y hy)

/-- Where the bytes of the source are those of the file, the buffer does not change. -/
theorem Filled.unchanged {src pos count left k : ℕ}
    (h : Filled sb v i pgt m src pos count l di left base w di')
    (htorn : Torn pgt m (src+(count-left)) (pos+(count-left)) left base w di' k)
    (hmax : pos+count ≤ maxFileSize)
    (hsame : ∀ y,count-left ≤ y → y < count-left+k →
      UserBytes.byteAt pgt m (src+y)=byteAt l.disk di (pos+y)) : w.disk=base.disk := by
  have hbound := h.bound
  have hasked := htorn.asked
  obtain ⟨hbn,hne⟩ := htorn.block
  rw [htorn.buffer]
  refine Function.update_eq_self_iff.mpr (funext fun j => ?_)
  rw [splice]
  split
  · rename_i hin
    have hoff := htorn.bound
    have hj : j < bsize := by omega
    have e : pos+(count-left)+(j-(pos+(count-left))%bsize)=
        (pos+(count-left))/bsize*bsize+j := by
      have hsum := Nat.div_add_mod' (pos+(count-left)) bsize
      omega
    have hold := hsame (count-left+(j-(pos+(count-left))%bsize)) (by omega) (by omega)
    rw [← Nat.add_assoc,← Nat.add_assoc,e] at hold
    rw [hold,← byteAt_block hne hj,h.bytes _ (by omega),spliced,if_neg (by omega)]
  · rfl

end Loop

section Whole

variable {sb : SuperBlock} {i : ℕ} {pgt : PageTable} {m : Mem} {l w : Logged} {di di' : DiskInode}
  {src offset count : ℕ} {r : Option ℕ}

/-- What `try_iwrite` from user memory does. -/
theorem tryIwrite_filled {v : ℕ → DiskInode} (g : sb.Geometry)
    (h : Owned sb l.disk (withInode v i di)) (hi : i < sb.ninodes) (hu : di.itype≠.empty)
    (hok : tryIwrite sb pgt m i src offset count l di=.ok (r,w,di')) :
    (Refused di offset count ∧ r=none ∧ w=l ∧ di'=di) ∨
      (¬Refused di offset count ∧ ∃ left base w₁ di₁,
        Filled sb v i pgt m src offset count l di left base w₁ di₁ ∧ r=some (count-left) ∧
        di'=(if offset+(count-left) > di.size.toNat then
          {di₁ with size := UInt32.ofNat (offset+(count-left))} else di₁) ∧
        w=LogWrites.putInodeAt sb w₁ i di') := by
  rw [tryIwrite] at hok
  split at hok
  · rename_i hout
    cases hok
    exact .inl ⟨hout,rfl,rfl,rfl⟩
  · rename_i hin
    cases hloop : writeLoop sb pgt m count l di (offset/bsize) (offset%bsize) count src with
    | error e =>
      rw [hloop] at hok
      cases hok
    | ok x =>
      obtain ⟨left,w₁,di₁⟩ := x
      rw [hloop] at hok
      obtain ⟨base,hw⟩ := writeLoop_filled g h hi hu le_rfl (Nat.mod_lt _ (by decide)) hloop
      rw [Nat.div_add_mod' offset bsize] at hw
      have hbound := hw.bound
      have hsize := hw.grows.size
      have e : offset+count-left=offset+(count-left) := by omega
      have e' : offset+(count-left)-offset=count-left := by omega
      have hupdate : ∀ di',LogWrites.updateInode sb w₁ i di'=.ok (LogWrites.putInodeAt sb w₁ i di') :=
        fun di' => if_neg (not_le.mpr hi)
      simp only [hupdate,hsize,e,e'] at hok
      cases hok
      exact .inr ⟨hin,left,base,w₁,di₁,hw,rfl,rfl,rfl⟩

/-- Writing an inode to the inode table keeps its blocks and its contents. -/
theorem put_keeps {v : ℕ → DiskInode} {d₁ : Disk} {di₁ : DiskInode} (g : sb.Geometry)
    (hi : i < sb.ninodes) (hu : di₁.itype≠.empty) (h : Owned sb d₁ (withInode v i di₁))
    (ht : di'.itype=di₁.itype) (ha : di'.addrs=di₁.addrs) :
    Owned sb (putInodeAt sb d₁ i di') (withInode v i di') ∧
      (∀ o,o < maxFileSize → byteAt (putInodeAt sb d₁ i di') di' o=byteAt d₁ di₁ o) ∧
      ∀ p,addrAt (putInodeAt sb d₁ i di') di' p=addrAt d₁ di₁ p := by
  have hself : withInode v i di₁ i=di₁ := withInode_self
  refine ⟨?_,fun o ho => ?_,fun p => ?_⟩
  · refine (@putInodeAt_owned _ _ _ _ di' g h hi).congr (fun _ _ => rfl) (fun j hj => ?_)
      fun j hj hju p hp => ?_
    · by_cases e : j=i
      · rw [e,withInode_self,withInode_self,ht]
      · rw [withInode_of_ne e,withInode_of_ne e]
    · by_cases e : j=i
      · rw [e,withInode_self,withInode_self]
        exact addrAt_addrs ha p
      · rw [withInode_of_ne e,withInode_of_ne e]
  · have e := @putInodeAt_byteAt _ _ _ _ di' g h hi i hi (by rwa [hself]) o ho
    rw [hself] at e
    rw [byteAt_addrs ha,e]
  · refine (addrAt_addrs ha p).trans (addrAt_congr (fun hne => ?_) p)
    have hheld := holds_indirect (d:=d₁) (v:=withInode v i di₁) hi (by rwa [hself]) (by rwa [hself])
    rw [hself] at hheld
    exact putInodeAt_apply _ g hi (h.range hheld).1 _

/-- The inode after a write. -/
theorem Filled.inode {v : ℕ → DiskInode} {left : ℕ} {base w₁ : Logged} {di₁ : DiskInode}
    (h : Filled sb v i pgt m src offset count l di left base w₁ di₁)
    (hin : ¬Refused di offset count)
    (hdi' : di'=if offset+(count-left) > di.size.toNat then
      {di₁ with size := UInt32.ofNat (offset+(count-left))} else di₁) :
    di'.itype=di₁.itype ∧ di'.addrs=di₁.addrs ∧
      di'.size.toNat=max di.size.toNat (offset+(count-left)) := by
  have hbound := h.bound
  have hsize := h.grows.size
  rw [Refused] at hin
  rw [hdi']
  split
  · have e : (UInt32.ofNat (offset+(count-left))).toNat=offset+(count-left) :=
      UInt32.toNat_ofNat_of_lt' (show offset+(count-left) < 2^32 by omega)
    refine ⟨rfl,rfl,?_⟩
    rw [e]
    omega
  · refine ⟨rfl,rfl,?_⟩
    rw [hsize]
    omega

/-- Whether a commit writes the last block anyway. -/
theorem Filled.torn_saved {v : ℕ → DiskInode} {left k : ℕ} {base w₁ : Logged} {di₁ : DiskInode}
    (h : Filled sb v i pgt m src offset count l di left base w₁ di₁)
    (ho : Owned sb l.disk (withInode v i di)) (hi : i < sb.ninodes) (hu : di.itype≠.empty)
    (hends : Ends pgt src offset count (count-left) k)
    (htorn : Torn pgt m (src+(count-left)) (offset+(count-left)) left base w₁ di₁ k) :
    addrAt base.disk di₁ (posOf ((offset+(count-left))/bsize))∈w₁.passed ↔
      Saved l di ((offset+(count-left))/bsize) := by
  obtain ⟨hbn,hne⟩ := htorn.block
  rw [htorn.buffer]
  exact h.saved_iff ho hi hu hbn hne fun y hy => hends.apart hy

/-- After a quiet write the bytes below the size are those that are reported, and every buffer that
has changed is passed. -/
theorem Filled.of_quiet {v : ℕ → DiskInode} {left : ℕ} {base w₁ : Logged} {di₁ : DiskInode}
    (h : Filled sb v i pgt m src offset count l di left base w₁ di₁) (g : sb.Geometry)
    (ho : Owned sb l.disk (withInode v i di)) (hi : i < sb.ninodes) (hu : di.itype≠.empty)
    (hmax : offset+count ≤ maxFileSize) (hq : Quiet pgt m src offset count l di) :
    (∀ o,o < max di.size.toNat (offset+(count-left)) → o < maxFileSize →
      byteAt w₁.disk di₁ o=spliced pgt m src offset (count-left) l.disk di o) ∧
    ∀ b,w₁.disk b≠l.disk b → b∈w₁.passed := by
  obtain ⟨-,⟨-,rfl,-⟩ | ⟨k,hends,htorn,hbytes⟩⟩ := h.ends g hi (by rwa [h.grows.itype])
  · exact ⟨fun o _ => h.bytes o,fun b hd => by_contra fun hn => hd (h.passes.frame b hn)⟩
  · rw [hends.quiet_iff] at hq
    refine ⟨fun o hsize hlt => ?_,fun b hd => by_contra fun hn => hd ?_⟩
    · rw [hbytes o hlt,spliced,spliced]
      by_cases hin : offset ≤ o ∧ o < offset+(count-left)
      · rw [if_pos hin,if_pos (by omega)]
      · rw [if_neg hin]
        split
        · have e : offset+(o-offset)=o := by omega
          obtain hold | ⟨hbehind,-⟩ := hq (o-offset) (by omega) (by omega)
          · rwa [e] at hold
          · omega
        · rfl
    · have hpassed : w₁.passed=base.passed := by rw [htorn.buffer]
      rw [← h.passes.frame b (hpassed ▸ hn)]
      by_cases hb : b=addrAt base.disk di₁ (posOf ((offset+(count-left))/bsize))
      · -- the block is not written by a commit, and so its bytes are those of the file
        refine congrFun (h.unchanged htorn hmax fun y hle hlt => (hq y hle hlt).resolve_right ?_) b
        rintro ⟨-,hsaved⟩
        have e : offset+y=offset+(count-left)+(y-(count-left)) := by omega
        have hblock := hends.block
        rw [e,div_same (by omega)] at hsaved
        exact hn (hb ▸ (h.torn_saved ho hi hu hends htorn).mpr hsaved)
      · rw [htorn.buffer]
        exact Function.update_of_ne hb ..

/-- A write after which the bytes below the size are those that are reported, as far as they have
blocks, and every data block that has changed is passed, is quiet. -/
theorem Filled.quiet {v : ℕ → DiskInode} {left : ℕ} {base w₁ : Logged} {di₁ : DiskInode}
    (h : Filled sb v i pgt m src offset count l di left base w₁ di₁) (g : sb.Geometry)
    (ho : Owned sb l.disk (withInode v i di)) (hi : i < sb.ninodes) (hu : di.itype≠.empty)
    (hmax : offset+count ≤ maxFileSize)
    (hbytes : ∀ o,o < di.size.toNat → o < maxFileSize →
      addrAt w₁.disk di₁ (posOf (o/bsize))≠0 →
      byteAt w₁.disk di₁ o=spliced pgt m src offset (count-left) l.disk di o)
    (hpass : ∀ b,sb.nmeta ≤ b → w₁.disk b≠l.disk b → b∈w₁.passed) :
    Quiet pgt m src offset count l di := by
  have hu₁ : di₁.itype≠.empty := by rwa [h.grows.itype]
  obtain ⟨hgrow,⟨-,-,huser⟩ | ⟨k,hends,htorn,hread⟩⟩ := h.ends g hi hu₁
  · exact quiet_of_user huser
  · obtain ⟨hbn,hne⟩ := htorn.block
    have hbound := hends.bound
    have hblock := hends.block
    refine hends.quiet_iff.mpr fun y hle hlt => or_iff_not_imp_left.mpr fun hdiff => ?_
    have e : offset+y=offset+(count-left)+(y-(count-left)) := by omega
    have hdiv : (offset+y)/bsize=(offset+(count-left))/bsize := by
      rw [e,div_same (by omega)]
    have hnew : byteAt w₁.disk di₁ (offset+y)=UserBytes.byteAt pgt m (src+y) := by
      rw [hread _ (by omega),spliced,if_pos (by omega),Nat.add_sub_cancel_left]
    have hold : spliced pgt m src offset (count-left) l.disk di (offset+y)=
        byteAt l.disk di (offset+y) := if_neg (by omega)
    refine ⟨not_lt.mp fun hsize => hdiff ?_,?_⟩
    · have haddr := hgrow.kept _ (posOf_lt hbn) hne
      rw [← hnew,hbytes _ hsize (by omega) (by rwa [hdiv,haddr]),hold]
    · rw [hdiv,← h.torn_saved ho hi hu hends htorn]
      have hlow := block_low h.grows.owned hi hu₁ hbn hne
      have hpassed : w₁.passed=base.passed := by rw [htorn.buffer]
      refine by_contra fun hn => hn (hpass _ hlow fun hsame => hdiff ?_)
      -- otherwise the buffer holds what it held before
      have hdisk := congrArg Logged.disk htorn.buffer
      dsimp only at hdisk
      rw [← h.passes.frame _ (hpassed ▸ hn),hdisk,Function.update_self] at hsame
      rw [hsame,Function.update_eq_self] at hdisk
      rw [← hnew,hdisk,h.bytes _ (by omega),hold]

/-- `try_iwrite` reports what it changes exactly if it refuses the request or is quiet. -/
theorem reports_iff (g : sb.Geometry) (h : Owned sb l.disk (withInode (inodeAt sb l.disk) i di))
    (hi : i < sb.ninodes) (hu : di.itype≠.empty)
    (hok : tryIwrite sb pgt m i src offset count l di=.ok (r,w,di')) :
    Reports sb i pgt m src offset count l di r w di' ↔
      Refused di offset count ∨ Quiet pgt m src offset count l di := by
  obtain ⟨hout,rfl,rfl,rfl⟩ | ⟨hin,left,base,w₁,di₁,hw,rfl,hdi',hput⟩ :=
    tryIwrite_filled g h hi hu hok
  · exact iff_of_true ⟨rfl,rfl⟩ (.inl hout)
  · have hmax : offset+count ≤ maxFileSize := by
      rw [Refused] at hin
      omega
    have hu₁ : di₁.itype≠.empty := by rwa [hw.grows.itype]
    obtain ⟨ht,ha,hsize⟩ := hw.inode hin hdi'
    obtain ⟨hown,hbytes,haddrs⟩ := put_keeps g hi hu₁ (hw.ends g hi hu₁).1.owned ht ha
    have hdisk : w.disk=putInodeAt sb w₁.disk i di' := by rw [hput]; rfl
    have hpassed : ∀ b,b∈w.passed ↔ b=sb.locateInode i ∨ b∈w₁.passed := fun b => by
      rw [hput]
      exact List.mem_cons
    have hother : ∀ b,b≠sb.locateInode i → w.disk b=w₁.disk b := fun b hb => by
      rw [hdisk,putInodeAt,Function.update_of_ne hb]
    rw [← hdisk] at hown hbytes haddrs
    rw [or_iff_right hin]
    refine ⟨fun hr => ?_,fun hq => ?_⟩
    · obtain ⟨-,hreads,-,-,hpass⟩ := hr
      refine hw.quiet g h hi hu hmax (fun o ho hlt hne => ?_) fun b hlow hd => ?_
      · rw [← hbytes o hlt]
        exact hreads.byte g hown hi (by rwa [ht]) (by omega) hlt (by rwa [haddrs])
      · have hne : b≠sb.locateInode i := by
          have hmeta := g.inodes i hi
          omega
        exact ((hpassed b).mp (hpass b (by rwa [hother b hne]))).resolve_left hne
    · obtain ⟨hread,hpass⟩ := hw.of_quiet g h hi hu hmax hq
      refine ⟨Nat.sub_le ..,?_,hsize,?_,fun b hd => (hpassed b).mpr ?_⟩
      · refine readsAs_of_byteAt g hown hi (by rwa [ht]) fun o ho hlt => ?_
        rw [hbytes o hlt,hread o (by omega) hlt]
      · rw [hdisk,inodeAt_putInodeAt,if_pos rfl]
      · by_cases hb : b=sb.locateInode i
        · exact .inl hb
        · rw [hother b hb] at hd
          exact .inr (hpass b hd)

/-- From memory that is mapped, the loop of `try_iwrite` does what it does from kernel memory. -/
theorem writeLoop_of_kernel {b : Buffer} {fuel blockBase blockOffset left pos : ℕ}
    (hoff : blockOffset < bsize) (hb : ∀ j,j < count → b (pos+j)=UserBytes.byteAt pgt m (src+j))
    (huser : ∀ y,y ≤ count → UserPage pgt ((src+y)/pageSize)) (hva : src+count ≤ maxva)
    (hok : LogWrites.writeLoop sb (kernelSource b) fuel l di blockBase blockOffset count pos=
      .ok (left,w,di')) :
    writeLoop sb pgt m fuel l di blockBase blockOffset count src=.ok (left,w,di') := by
  induction fuel generalizing l di blockBase blockOffset count pos src with
  | zero =>
    cases hok
    rfl
  | succ fuel ih =>
    rw [LogWrites.writeLoop] at hok
    rw [writeLoop]
    by_cases hzero : count=0
    · rw [if_pos hzero] at hok ⊢
      cases hok
      rfl
    · rw [if_neg hzero] at hok ⊢
      cases hmap : LogWrites.mapBlockno sb l di blockBase with
      | error e =>
        rw [hmap] at hok
        cases hok
      | ok x =>
        obtain ⟨bn,l₁,di₁⟩ := x
        rw [hmap] at hok
        dsimp only [bind,Except.bind,kernelSource] at hok ⊢
        obtain ⟨n,hn⟩ : ∃ n,n=min (bsize-blockOffset) count := ⟨_,rfl⟩
        rw [← hn] at hok ⊢
        rw [if_neg (lt_irrefl _),Nat.min_self] at hok
        obtain ⟨k,r,hcopy,hreach⟩ := copyIn_spec pgt m (fun k => l₁.disk bn (blockOffset+k))
          (show n≠0 by omega) (show src ≤ maxva by omega)
        have hmaxva : maxva=2^38 := rfl
        have hkn : k ≤ n := hreach.bound
        have hall : r=.ok ∧ k=n := by
          obtain ⟨hr,hk,-⟩ | ⟨-,hnot⟩ | ⟨-,hover⟩ := hreach.stop
          · exact ⟨hr,hk⟩
          · exact absurd (huser k (by omega)) hnot
          · omega
        obtain ⟨rfl,rfl⟩ := hall
        have hbuf : splice (l₁.disk bn) blockOffset (fun j => b (pos+j)) k=
            splice (l₁.disk bn) blockOffset (fun j => UserBytes.byteAt pgt m (src+j)) k := by
          funext j
          rw [splice,splice]
          split
          · exact hb _ (by omega)
          · rfl
        rw [hcopy]
        dsimp only
        rw [splice_fetched _ _ _ le_rfl,if_neg (by omega),← hbuf]
        refine ih (by decide) (fun j hj => ?_) (fun y hy => ?_) (by omega) hok
        · rw [Nat.add_assoc,Nat.add_assoc]
          exact hb _ (by omega)
        · rw [Nat.add_assoc]
          exact huser _ (by omega)

/-- So does `try_iwrite`. -/
theorem tryIwrite_of_kernel {b : Buffer} {d' : Disk}
    (hb : ∀ j,j < count → b j=UserBytes.byteAt pgt m (src+j))
    (huser : ∀ y,y ≤ count → UserPage pgt ((src+y)/pageSize)) (hva : src+count ≤ maxva)
    (hok : InodeLayer.tryIwrite sb i (kernelSource b) offset count l.disk di=.ok (r,d',di')) :
    ∃ w,w.disk=d' ∧ tryIwrite sb pgt m i src offset count l di=.ok (r,w,di') := by
  rw [← LogWrites.tryIwrite_erases,LogWrites.tryIwrite] at hok
  rw [tryIwrite]
  split at hok
  · rename_i hout
    cases hok
    exact ⟨l,rfl,if_pos hout⟩
  · rename_i hin
    rw [if_neg hin]
    cases hloop : LogWrites.writeLoop sb (kernelSource b) count l di (offset/bsize) (offset%bsize)
        count 0 with
    | error e =>
      rw [hloop] at hok
      cases hok
    | ok x =>
      obtain ⟨left,l₁,di₁⟩ := x
      have hb' : ∀ j,j < count → b (0+j)=UserBytes.byteAt pgt m (src+j) := fun j hj => by
        rw [Nat.zero_add]
        exact hb j hj
      rw [writeLoop_of_kernel (Nat.mod_lt _ (by decide)) hb' huser hva hloop]
      rw [hloop] at hok
      dsimp only [bind,Except.bind] at hok ⊢
      rw [LogWrites.updateInode] at hok ⊢
      by_cases hi : i ≥ sb.ninodes
      · rw [if_pos hi] at hok
        cases hok
      · rw [if_neg hi] at hok ⊢
        cases hok
        exact ⟨_,rfl,rfl⟩

end Whole

/-- For every inode of a file system whose blocks are owned, every offset, count and user buffer,
and whatever the transaction has passed to `LOG.write` before: if `try_iwrite` returns, it has
reported what it changed exactly if it refused the request, or the source ends before `count` bytes
only with bytes of the last block that the file has there, or that lie behind its end in a block
that a commit writes anyway. -/
theorem write_reports_iff (sb : SuperBlock) (g : sb.Geometry) (pgt : PageTable) (m : Mem)
    (i src offset count : ℕ) (l : Logged) (di : DiskInode) (hi : i < sb.ninodes)
    (hu : di.itype≠.empty) (h : Owned sb l.disk (withInode (inodeAt sb l.disk) i di))
    (r : Option ℕ) (w : Logged) (di' : DiskInode)
    (hok : tryIwrite sb pgt m i src offset count l di=.ok (r,w,di')) :
    Reports sb i pgt m src offset count l di r w di' ↔
      Refused di offset count ∨ Quiet pgt m src offset count l di :=
  reports_iff g h hi hu hok

/-- User pages full of sevens. -/
def sevens : Mem := ⟨[],fun _ _ => 7⟩

/-- The one inode of `emptyFile`. -/
def emptyInode : DiskInode := inodeAt smallDevice emptyFile 1

theorem emptyInode_owned :
    Owned smallDevice emptyFile (withInode (inodeAt smallDevice emptyFile) 1 emptyInode) := by
  rw [emptyInode,withInode_inodeAt]
  exact emptyFile_owned

theorem emptyInode_itype : emptyInode.itype≠.empty := by decide +kernel

/-- A call that returns a number. -/
theorem exists_of_returns {α β : Type} {e : Except Fault (Option ℕ×α×β)} {n : ℕ}
    (h : (e.toOption.map Prod.fst)=some (some n)) : ∃ a b,e=.ok (some n,a,b) := by
  cases e with
  | error e => cases h
  | ok x =>
    obtain ⟨r,a,b⟩ := x
    cases h
    exact ⟨a,b,rfl⟩

theorem write_reports_iff_oneByte :
    ∃ w di',tryIwrite smallDevice processTable sevens 1 usyscall 0 1 ⟨emptyFile,[]⟩ emptyInode=
        .ok (some 1,w,di') ∧
      Reports smallDevice 1 processTable sevens usyscall 0 1 ⟨emptyFile,[]⟩ emptyInode (some 1) w
        di' := by
  obtain ⟨w,di',hok⟩ : ∃ w di',tryIwrite smallDevice processTable sevens 1 usyscall 0 1
      ⟨emptyFile,[]⟩ emptyInode=.ok (some 1,w,di') := exists_of_returns (by decide +kernel)
  refine ⟨w,di',hok,(write_reports_iff smallDevice smallDevice_geometry processTable sevens 1 usyscall
    0 1 ⟨emptyFile,[]⟩ emptyInode (by decide) emptyInode_itype emptyInode_owned (some 1) w di'
    hok).mpr (.inr fun x hx hpos hle => absurd ?_ hx.1)⟩
  obtain rfl : x=1 := by omega
  decide

/-- A file of one byte. -/
@[irreducible] def oneByteFile : Disk :=
  match InodeLayer.tryIwrite smallDevice 1 (kernelSource fun _ => 1) 0 1 emptyFile emptyInode with
  | .ok (_,d,_) => d
  | .error _ => emptyFile

theorem oneByteFile_owned : Owned smallDevice oneByteFile (inodeAt smallDevice oneByteFile) := by
  unfold oneByteFile
  cases hok : InodeLayer.tryIwrite smallDevice 1 (kernelSource fun _ => 1) 0 1 emptyFile
      emptyInode with
  | error e => exact emptyFile_owned
  | ok x =>
    obtain ⟨⟨-,hsame,-⟩,-⟩ | ⟨-,-,-,-,-,hst,-⟩ :=
      tryIwrite_stored smallDevice_geometry emptyInode_owned (by decide) emptyInode_itype hok
    · change Owned smallDevice x.2.1 (inodeAt smallDevice x.2.1)
      rw [hsame]
      exact emptyFile_owned
    · exact hst.owned

/-- The last byte of a page is put into the buffer of the file, where every later read finds it; the
page behind it is not mapped, and the buffer is never passed to `LOG.write`. -/
theorem lastByte_unlogged :
    ∃ w di',(inodeAt smallDevice oneByteFile 1).size=1 ∧
      tryIwrite smallDevice processTable sevens 1 (usyscall+4095) 0 2 ⟨oneByteFile,[]⟩
        (inodeAt smallDevice oneByteFile 1)=.ok (some 0,w,di') ∧
      ¬Reports smallDevice 1 processTable sevens (usyscall+4095) 0 2 ⟨oneByteFile,[]⟩
        (inodeAt smallDevice oneByteFile 1) (some 0) w di' := by
  have hfile : (inodeAt smallDevice oneByteFile 1).itype=.file ∧
      (inodeAt smallDevice oneByteFile 1).size=1 ∧
      byteAt oneByteFile (inodeAt smallDevice oneByteFile 1) 0=1 ∧
      ((tryIwrite smallDevice processTable sevens 1 (usyscall+4095) 0 2 ⟨oneByteFile,[]⟩
        (inodeAt smallDevice oneByteFile 1)).toOption.map Prod.fst)=some (some 0) := by
    decide +kernel
  obtain ⟨htype,hsize,hbyte,hreturns⟩ := hfile
  obtain ⟨w,di',hok⟩ := exists_of_returns hreturns
  refine ⟨w,di',hsize,hok,fun hr => ?_⟩
  have hu : (inodeAt smallDevice oneByteFile 1).itype≠.empty := by
    rw [htype]
    decide
  have howned : Owned smallDevice oneByteFile (withInode (inodeAt smallDevice oneByteFile) 1
      (inodeAt smallDevice oneByteFile 1)) := by
    rw [withInode_inodeAt]
    exact oneByteFile_owned
  obtain hout | hquiet := (reports_iff (l:=⟨oneByteFile,[]⟩) smallDevice_geometry howned (by decide)
    hu hok).mp hr
  · rw [Refused,hsize] at hout
    revert hout
    decide
  · have hfirst : FirstUnmapped processTable (usyscall+4095) 1 := by
      refine ⟨by decide,fun y hy => ?_⟩
      obtain rfl : y=0 := by omega
      decide
    obtain hsame | ⟨hbehind,-⟩ := hquiet 1 hfirst (by decide) (by decide) 0 (by decide) (by decide)
    · have hnew : UserBytes.byteAt processTable sevens (usyscall+4095+0)=7 := by decide
      rw [hnew] at hsame
      exact absurd (hsame.trans hbyte) (by decide)
    · rw [hsize] at hbehind
      exact absurd hbehind (by decide)

end Xv6Rust.UserWrite
