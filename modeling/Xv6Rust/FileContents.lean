import Xv6Rust.BlockOwnership

/-!
# The contents of an inode

An inode is an array of bytes: what is written is read back, and nothing else changes, neither
in the inode nor in another. The block of a byte, the place of its number in the inode or in
its indirect block, and the block on disk are found the same way by `iread` and `try_iwrite`;
a block that is added is zero, as a block without a number reads.
-/

namespace Xv6Rust.FileContents

open Bytes DiskLayout InodeLayer BlockOwnership

/-- `try_iread` into kernel memory: the bytes and their number. -/
def tryIread (sb : SuperBlock) (d : Disk) (di : DiskInode) (offset count : ℕ) :
    Except Stop (Option (Buffer×ℕ)×Disk×DiskInode) :=
  if offset > di.size.toNat then .ok (some (fun _ => 0,0),d,di)
  else if offset+count ≥ 2^32 then .ok (none,d,di)
  else do
    let actual := if offset+count > di.size.toNat then di.size.toNat-offset else count
    let (dst,d,di) ← iread sb d di offset actual
    return (dst.map fun b => (b,actual),d,di)

/-- What `iread` and `try_iread` return of an inode are the bytes of an array, up to its size. -/
structure ReadsAs (sb : SuperBlock) (d : Disk) (di : DiskInode) (contents : ℕ → UInt8) : Prop where
  /-- `iread`. -/
  iread : ∀ offset count dst d' di',iread sb d di offset count=.ok (some dst,d',di') →
    offset+count ≤ di.size.toNat ∧ ∀ k,k < count → dst k=contents (offset+k)
  /-- `try_iread`. -/
  tryIread : ∀ offset count dst actual d' di',
    tryIread sb d di offset count=.ok (some (dst,actual),d',di') →
      actual=min count (di.size.toNat-offset) ∧ ∀ k,k < actual → dst k=contents (offset+k)

/-- `iread` and `try_iread` of an inode return, and change nothing. -/
structure Readable (sb : SuperBlock) (d : Disk) (di : DiskInode) : Prop where
  /-- `iread` fails only beyond the size. -/
  iread : ∀ offset count,∃ dst,iread sb d di offset count=.ok (dst,d,di) ∧
    (offset+count ≤ di.size.toNat → dst≠none)
  /-- `try_iread` fails only if the sum does not fit. -/
  tryIread : ∀ offset count,∃ dst,tryIread sb d di offset count=.ok (dst,d,di) ∧
    (offset+count < 2^32 → dst≠none)

/-- A source gives `count` bytes of an array. -/
def Supplies (src : Source) (b : Buffer) (count : ℕ) : Prop :=
  ∀ pos n,pos+n ≤ count → n ≤ (src pos n).2 ∧ ∀ j,j < n → (src pos n).1 j=b (pos+j)

section Blocks

variable {sb : SuperBlock} {d d' : Disk} {v : ℕ → DiskInode} {di di' : DiskInode} {i : ℕ}

/-- The block of a byte of a file. -/
theorem block_div {bn o : ℕ} (ho : o < bsize) : (bn*bsize+o)/bsize=bn := by
  rw [Nat.mul_comm,Nat.mul_add_div (by decide),Nat.div_eq_of_lt ho,Nat.add_zero]

/-- A byte of a block that has a number. -/
theorem byteAt_block {bn o : ℕ} (h : addrAt d di (posOf bn)≠0) (ho : o < bsize) :
    byteAt d di (bn*bsize+o)=d (addrAt d di (posOf bn)) o := by
  rw [byteAt,block_div ho,Nat.mul_add_mod_of_lt ho,if_neg h]

/-- A block of the contents of an inode is written. -/
theorem grows_write {bn : ℕ} (g : sb.Geometry) (h : Owned sb d (withInode v i di))
    (hi : i < sb.ninodes) (hu : di.itype≠.empty) (hbn : bn < ndirect+nindirect)
    (hc : addrAt d di (posOf bn)≠0) (buf : Buffer) :
    Grows sb v i d di (Function.update d (addrAt d di (posOf bn)) buf) di ∧
      ∀ j,j < sb.ninodes → (withInode v i di j).itype≠.empty → ∀ o,o < maxFileSize →
        byteAt (Function.update d (addrAt d di (posOf bn)) buf) (withInode v i di j) o=
          if j=i ∧ o/bsize=bn then buf (o%bsize) else byteAt d (withInode v i di j) o := by
  have hself : withInode v i di i=di := withInode_self
  have hheld : Holds sb d (withInode v i di) i (posOf bn) (addrAt d di (posOf bn)) :=
    ⟨hi,by rwa [hself],posOf_lt hbn,by rw [hself],hc⟩
  have hlow := (h.range hheld).1
  -- the block is nobody's indirect block
  have haddr : ∀ j,j < sb.ninodes → (withInode v i di j).itype≠.empty → ∀ p,
      addrAt (Function.update d (addrAt d di (posOf bn)) buf) (withInode v i di j) p=
        addrAt d (withInode v i di j) p := by
    intro j hj hju p
    refine addrAt_congr (fun hne => Function.update_of_ne ?_ ..) p
    intro e
    have hind := holds_indirect (d:=d) hj hju hne
    rw [e] at hind
    exact posOf_ne (h.single hheld hind).2
  refine ⟨⟨?_,rfl,fun p _ _ => ?_,fun j hj => inodeAt_update _ g hj hlow _,
    fun j hji hj hju p _ => ?_⟩,fun j hj hju o ho => ?_⟩
  · exact h.congr (fun c hc => bit_update _ g hc hlow _) (fun _ _ => rfl)
      fun j hj hju p _ => haddr j hj hju p
  · have e := haddr i hi (by rwa [hself]) p
    rwa [hself] at e
  · have e := haddr j hj (by rwa [withInode_of_ne hji]) p
    rwa [withInode_of_ne hji] at e
  · have hpos := posOf_lt (div_lt_of_lt_maxFileSize ho)
    by_cases hcell : j=i ∧ o/bsize=bn
    · obtain ⟨rfl,rfl⟩ := hcell
      rw [if_pos ⟨rfl,rfl⟩,byteAt,haddr j hj hju,hself,if_neg hc,Function.update_self]
    · rw [if_neg hcell]
      refine byteAt_congr (haddr j hj hju _) fun hne => Function.update_of_ne (fun e => hcell ?_) ..
      have hother : Holds sb d (withInode v i di) j (posOf (o/bsize)) (addrAt d di (posOf bn)) :=
        ⟨hj,hju,hpos,e,hc⟩
      obtain ⟨hji,hp⟩ := h.single hother hheld
      exact ⟨hji,posOf_inj hp⟩

end Blocks

section Reading

variable {sb : SuperBlock} {d d' : Disk} {v : ℕ → DiskInode} {di di' : DiskInode} {i : ℕ}

/-- Reading blocks that have numbers changes nothing. -/
theorem ireadLoop_whole {fuel blockBase blockOffset count pos : ℕ} {dst : Buffer}
    (hoff : blockOffset < bsize)
    (h : ∀ bn,blockBase ≤ bn → bn*bsize < blockBase*bsize+blockOffset+count →
      bn < ndirect+nindirect ∧ addrAt d di (posOf bn)≠0) :
    ∃ dst',ireadLoop sb fuel d di blockBase blockOffset count pos dst=.ok (dst',d,di) := by
  induction fuel generalizing blockBase blockOffset count pos dst with
  | zero => exact ⟨dst,rfl⟩
  | succ fuel ih =>
    rw [ireadLoop]
    split
    · exact ⟨dst,rfl⟩
    · rename_i hcount
      obtain ⟨hbn,hmapped⟩ := h blockBase le_rfl (by omega)
      have hsucc : (blockBase+1)*bsize=blockBase*bsize+bsize := Nat.succ_mul ..
      have hrest : ∃ dst',ireadLoop sb fuel d di (blockBase+1) 0
          (count-min (bsize-blockOffset) count) (pos+min (bsize-blockOffset) count)
          (splice dst pos (fun j => d (addrAt d di (posOf blockBase)) (blockOffset+j))
            (min (bsize-blockOffset) count))=.ok (dst',d,di) :=
        ih (by decide) fun bn hle hlt => by
          have hge := Nat.mul_le_mul_right bsize hle
          exact h bn (by omega) (by omega)
      obtain ⟨dst',hrest⟩ := hrest
      refine ⟨dst',?_⟩
      rw [mapBlockno_mapped hbn hmapped]
      exact hrest

/-- `iread` in a file without holes changes nothing, and returns what was asked for. -/
theorem iread_whole (sb : SuperBlock) (h : Whole d di) (offset count : ℕ) :
    ∃ dst,iread sb d di offset count=.ok (dst,d,di) ∧
      (offset+count < 2^32 → offset+count ≤ di.size.toNat → dst≠none) := by
  rw [iread]
  split
  · rename_i hout
    refine ⟨none,rfl,fun h1 h2 => ?_⟩
    omega
  · rename_i hin
    have hsum : offset/bsize*bsize+offset%bsize=offset := Nat.div_add_mod' ..
    have hloop : ∃ dst,ireadLoop sb count d di (offset/bsize) (offset%bsize) count 0 (fun _ => 0)=
        .ok (dst,d,di) :=
      ireadLoop_whole (Nat.mod_lt _ (by decide)) fun bn _ hlt => h bn (by omega)
    obtain ⟨dst,hok⟩ := hloop
    refine ⟨some dst,?_,fun _ _ => nofun⟩
    rw [hok]
    rfl

/-- What the loop of `iread` reads lies below the largest size of a file. -/
theorem ireadLoop_range {fuel blockBase blockOffset count pos : ℕ} {dst dst' : Buffer}
    (hcount : count ≤ fuel) (hpos : 0 < count) (hoff : blockOffset < bsize)
    (hok : ireadLoop sb fuel d di blockBase blockOffset count pos dst=.ok (dst',d',di')) :
    blockBase*bsize+blockOffset+count ≤ maxFileSize := by
  induction fuel generalizing d di blockBase blockOffset count pos dst with
  | zero => omega
  | succ fuel ih =>
    rw [ireadLoop,if_neg (by omega)] at hok
    cases hmap : mapBlockno sb d di blockBase with
    | error e =>
      rw [hmap] at hok
      cases hok
    | ok x =>
      obtain ⟨bn,d₁,di₁⟩ := x
      rw [hmap] at hok
      have hbn : blockBase < ndirect+nindirect := by
        by_contra hn
        rw [mapBlockno_eq,if_neg (by omega),if_neg hn] at hmap
        cases hmap
      have hmax : (blockBase+1)*bsize ≤ maxFileSize := Nat.mul_le_mul_right _ hbn
      have hsucc : (blockBase+1)*bsize=blockBase*bsize+bsize := Nat.succ_mul ..
      by_cases hlast : count ≤ bsize-blockOffset
      · omega
      · have hmin : min (bsize-blockOffset) count=bsize-blockOffset := by omega
        have hrest := ih (by omega) (by omega) (by decide) hok
        omega

/-- The loop of `iread` gives the bytes of the inode. -/
theorem ireadLoop_spec {fuel blockBase blockOffset count pos : ℕ} {dst dst' : Buffer}
    (g : sb.Geometry) (h : Owned sb d (withInode v i di)) (hi : i < sb.ninodes)
    (hu : di.itype≠.empty) (hcount : count ≤ fuel) (hoff : blockOffset < bsize)
    (hok : ireadLoop sb fuel d di blockBase blockOffset count pos dst=.ok (dst',d',di')) :
    Grows sb v i d di d' di' ∧ SameBytes sb v i d di d' di' ∧
      ∀ k,dst' k=if pos ≤ k ∧ k < pos+count then byteAt d di (blockBase*bsize+blockOffset+(k-pos))
        else dst k := by
  induction fuel generalizing d di blockBase blockOffset count pos dst with
  | zero =>
    cases hok
    exact ⟨.refl h,.refl,fun k => (if_neg (by omega)).symm⟩
  | succ fuel ih =>
    by_cases hzero : count=0
    · rw [ireadLoop,if_pos hzero] at hok
      cases hok
      exact ⟨.refl h,.refl,fun k => (if_neg (by omega)).symm⟩
    · have hmax := ireadLoop_range hcount (by omega) hoff hok
      rw [ireadLoop,if_neg hzero] at hok
      cases hmap : mapBlockno sb d di blockBase with
      | error e =>
        rw [hmap] at hok
        cases hok
      | ok x =>
        obtain ⟨bn,d₁,di₁⟩ := x
        rw [hmap] at hok
        obtain ⟨hgrow,hbytes,hbn,hnum,hne⟩ := mapBlockno_grows g h hi hu hmap
        obtain ⟨hgrow',hbytes',hdst⟩ := ih hgrow.owned (by rw [hgrow.itype]; exact hu) (by omega)
          (by decide) hok
        have hsucc : (blockBase+1)*bsize=blockBase*bsize+bsize := Nat.succ_mul ..
        -- mapping the block has changed no byte
        have hsame : ∀ o,o < maxFileSize → byteAt d₁ di₁ o=byteAt d di o := by
          intro o ho
          have e := hbytes i hi (by rwa [withInode_self]) o ho
          rwa [withInode_self,withInode_self] at e
        refine ⟨hgrow.trans hgrow',hbytes.trans hbytes' hgrow.itype,fun k => ?_⟩
        rw [hdst k]
        by_cases hk : pos ≤ k ∧ k < pos+count
        · rw [if_pos hk]
          by_cases hfirst : k < pos+min (bsize-blockOffset) count
          · rw [if_neg (by omega),splice,if_pos ⟨hk.1,hfirst⟩]
            have hnum' : addrAt d₁ di₁ (posOf blockBase)≠0 := hnum ▸ hne
            have ho : blockOffset+(k-pos) < bsize := by omega
            rw [← hsame _ (by omega),Nat.add_assoc,byteAt_block hnum' ho,hnum]
          · have e : (blockBase+1)*bsize+0+(k-(pos+min (bsize-blockOffset) count))=
                blockBase*bsize+blockOffset+(k-pos) := by omega
            rw [if_pos ⟨by omega,by omega⟩,hsame _ (by omega),e]
        · rw [if_neg hk,if_neg (by omega),splice,if_neg (by omega)]

/-- `iread` gives the bytes of the inode. -/
theorem iread_spec {offset count : ℕ} {dst : Buffer} (g : sb.Geometry)
    (h : Owned sb d (withInode v i di)) (hi : i < sb.ninodes) (hu : di.itype≠.empty)
    (hok : iread sb d di offset count=.ok (some dst,d',di')) :
    Grows sb v i d di d' di' ∧ SameBytes sb v i d di d' di' ∧
      (offset+count ≤ di.size.toNat ∧ (0 < count → offset+count ≤ maxFileSize)) ∧
      ∀ k,dst k=if k < count then byteAt d di (offset+k) else 0 := by
  rw [iread] at hok
  split at hok
  · cases hok
  · rename_i hin
    cases hloop : ireadLoop sb count d di (offset/bsize) (offset%bsize) count 0 fun _ => 0 with
    | error e =>
      rw [hloop] at hok
      cases hok
    | ok x =>
      rw [hloop] at hok
      cases hok
      obtain ⟨hgrow,hbytes,hdst⟩ := ireadLoop_spec g h hi hu le_rfl (Nat.mod_lt _ (by decide)) hloop
      have hmod := Nat.mod_lt offset (show 0 < bsize by decide)
      refine ⟨hgrow,hbytes,⟨by omega,fun hpos => ?_⟩,fun k => ?_⟩
      · have hrange := ireadLoop_range le_rfl hpos hmod hloop
        rwa [Nat.div_add_mod' offset bsize] at hrange
      · rw [hdst k,Nat.div_add_mod' offset bsize]
        simp

/-- An inode reads as its bytes. -/
theorem readsAs_of_byteAt {contents : ℕ → UInt8} (g : sb.Geometry)
    (h : Owned sb d (withInode v i di)) (hi : i < sb.ninodes) (hu : di.itype≠.empty)
    (hbytes : ∀ o,o < di.size.toNat → o < maxFileSize → byteAt d di o=contents o) :
    ReadsAs sb d di contents := by
  have hread : ∀ {offset count dst d' di'},iread sb d di offset count=.ok (some dst,d',di') →
      offset+count ≤ di.size.toNat ∧ ∀ k,k < count → dst k=contents (offset+k) := by
    intro offset count dst d' di' hok
    obtain ⟨-,-,⟨hsize,hrange⟩,hdst⟩ := iread_spec g h hi hu hok
    refine ⟨hsize,fun k hk => ?_⟩
    have hmax := hrange (by omega)
    rw [hdst k,if_pos hk,hbytes _ (by omega) (by omega)]
  refine ⟨fun offset count dst d' di' hok => hread hok,fun offset count dst actual d' di' hok => ?_⟩
  rw [tryIread] at hok
  split at hok
  · cases hok
    exact ⟨by omega,fun k hk => absurd hk (Nat.not_lt_zero k)⟩
  · split at hok
    · cases hok
    · rename_i hin hsum
      cases hok' : iread sb d di offset
          (if offset+count > di.size.toNat then di.size.toNat-offset else count) with
      | error e =>
        simp only [hok'] at hok
        cases hok
      | ok x =>
        obtain ⟨dst',d₁,di₁⟩ := x
        simp only [hok'] at hok
        cases dst' with
        | none => cases hok
        | some b =>
          cases hok
          refine ⟨?_,(hread hok').2⟩
          split <;> omega

/-- A byte below the size is read, if its block has a number. -/
theorem ReadsAs.byte {contents : ℕ → UInt8} {o : ℕ} (h : ReadsAs sb d di contents)
    (g : sb.Geometry) (ho : Owned sb d (withInode v i di)) (hi : i < sb.ninodes)
    (hu : di.itype≠.empty) (hsize : o < di.size.toNat) (hlt : o < maxFileSize)
    (hne : addrAt d di (posOf (o/bsize))≠0) : byteAt d di o=contents o := by
  have hsum : o/bsize*bsize+o%bsize=o := Nat.div_add_mod' ..
  have hwidth := di.size.toNat_lt
  obtain ⟨dst,hloop⟩ : ∃ dst,ireadLoop sb 1 d di (o/bsize) (o%bsize) 1 0 (fun _ => 0)=
      .ok (dst,d,di) := by
    refine ireadLoop_whole (Nat.mod_lt o (by decide)) fun bn hle hend => ?_
    have hbn : bn ≤ o/bsize := (Nat.le_div_iff_mul_le (by decide)).mpr (by omega)
    obtain rfl : bn=o/bsize := le_antisymm hbn hle
    exact ⟨div_lt_of_lt_maxFileSize hlt,hne⟩
  have hok : InodeLayer.iread sb d di o 1=.ok (some dst,d,di) := by
    rw [InodeLayer.iread,if_neg (by omega),hloop]
    rfl
  obtain ⟨-,-,-,hbyte⟩ := iread_spec g ho hi hu hok
  have hread := (h.iread o 1 dst d di hok).2 0 Nat.one_pos
  rw [hbyte 0,if_pos Nat.one_pos,Nat.add_zero] at hread
  exact hread

/-- A file without holes can be read. -/
theorem readable_of_whole (h : Whole d di) : Readable sb d di := by
  have hsize := di.size.toNat_lt
  refine ⟨fun offset count => ?_,fun offset count => ?_⟩
  · obtain ⟨dst,hok,hsome⟩ := iread_whole sb h offset count
    exact ⟨dst,hok,fun hle => hsome (by omega) hle⟩
  · rw [tryIread]
    split
    · exact ⟨_,rfl,fun _ => nofun⟩
    · split
      · exact ⟨_,rfl,fun hlt => by omega⟩
      · rename_i hin hsum
        obtain ⟨dst,hok,hsome⟩ := iread_whole sb h offset
          (if offset+count > di.size.toNat then di.size.toNat-offset else count)
        refine ⟨dst.map fun b =>
          (b,if offset+count > di.size.toNat then di.size.toNat-offset else count),?_,fun _ => ?_⟩
        · dsimp only
          rw [hok]
          rfl
        · have hne := hsome (by split <;> omega) (by split <;> omega)
          obtain ⟨b,rfl⟩ := Option.ne_none_iff_exists'.mp hne
          nofun

end Reading

/-- What a write of `count` bytes at `start` has done, of which `left` are not written; the source
is at `pos`. -/
structure Wrote (sb : SuperBlock) (v : ℕ → DiskInode) (i : ℕ) (src : Source) (start count pos : ℕ)
    (d : Disk) (di : DiskInode) (left : ℕ) (d' : Disk) (di' : DiskInode) : Prop where
  /-- No more than that is left. -/
  bound : left ≤ count
  /-- Blocks are added. -/
  grows : Grows sb v i d di d' di'
  /-- Other inodes keep their contents. -/
  others : ∀ j,j≠i → j < sb.ninodes → (v j).itype≠.empty → ∀ o,o < maxFileSize →
    byteAt d' (v j) o=byteAt d (v j) o
  /-- What is written has blocks. -/
  mapped : ∀ bn,start/bsize ≤ bn → bn*bsize < start+(count-left) → left < count →
    bn < ndirect+nindirect ∧ addrAt d' di' (posOf bn)≠0
  /-- The inode has the bytes of a source that gives them all. -/
  bytes : ∀ b total,Supplies src b total → pos+count ≤ total → left=0 ∧
    ∀ o,o < maxFileSize → byteAt d' di' o=
      if start ≤ o ∧ o < start+count then b (pos+(o-start)) else byteAt d di o

section Writing

variable {sb : SuperBlock} {d d' : Disk} {v : ℕ → DiskInode} {di di' : DiskInode} {i : ℕ}

theorem sameBytes_self (h : SameBytes sb v i d di d' di') (hi : i < sb.ninodes)
    (hu : di.itype≠.empty) {o : ℕ} (ho : o < maxFileSize) : byteAt d' di' o=byteAt d di o := by
  have e := h i hi (by rwa [withInode_self]) o ho
  rwa [withInode_self,withInode_self] at e

theorem sameBytes_other (h : SameBytes sb v i d di d' di') {j : ℕ} (hji : j≠i)
    (hj : j < sb.ninodes) (hu : (v j).itype≠.empty) {o : ℕ} (ho : o < maxFileSize) :
    byteAt d' (v j) o=byteAt d (v j) o := by
  have e := h j hj (by rwa [withInode_of_ne hji]) o ho
  rwa [withInode_of_ne hji,withInode_of_ne hji] at e

/-- The bytes of a block into which some are copied. -/
theorem byteAt_splice {bn off n o : ℕ} {bytes b : Buffer} {pos : ℕ} (h : addrAt d di (posOf bn)≠0)
    (hoff : off+n ≤ bsize) (hbytes : ∀ j,j < n → bytes j=b (pos+j)) :
    (if o/bsize=bn then splice (d (addrAt d di (posOf bn))) off bytes n (o%bsize)
      else byteAt d di o)=
      if bn*bsize+off ≤ o ∧ o < bn*bsize+off+n then b (pos+(o-(bn*bsize+off)))
        else byteAt d di o := by
  have hpos : 0 < bsize := by decide
  have hsum : o/bsize*bsize+o%bsize=o := Nat.div_add_mod' ..
  have hmod : o%bsize < bsize := Nat.mod_lt _ hpos
  by_cases hblock : o/bsize=bn
  · rw [hblock] at hsum
    rw [if_pos hblock,splice]
    by_cases hin : off ≤ o%bsize ∧ o%bsize < off+n
    · have e : o-(bn*bsize+off)=o%bsize-off := by omega
      rw [if_pos hin,if_pos ⟨by omega,by omega⟩,hbytes _ (by omega),e]
    · rw [if_neg hin,if_neg (by omega),← byteAt_block h hmod,hsum]
  · have hout : ¬(bn*bsize+off ≤ o ∧ o < bn*bsize+off+n) := by
      rintro ⟨h1,h2⟩
      refine hblock ?_
      rw [Nat.div_eq_iff hpos]
      omega
    rw [if_neg hblock,if_neg hout]

/-- A block is found or added, and written. -/
theorem mapBlockno_write {blockBase bn : ℕ} (g : sb.Geometry) (h : Owned sb d (withInode v i di))
    (hi : i < sb.ninodes) (hu : di.itype≠.empty)
    (hmap : mapBlockno sb d di blockBase=.ok (bn,d',di')) (buf : Buffer) :
    Grows sb v i d di (Function.update d' bn buf) di' ∧
      (∀ j,j≠i → j < sb.ninodes → (v j).itype≠.empty → ∀ o,o < maxFileSize →
        byteAt (Function.update d' bn buf) (v j) o=byteAt d (v j) o) ∧
      (blockBase < ndirect+nindirect ∧ addrAt d' di' (posOf blockBase)=bn ∧ bn≠0 ∧
        addrAt (Function.update d' bn buf) di' (posOf blockBase)=bn) ∧
      (∀ o,o < maxFileSize → byteAt d' di' o=byteAt d di o) ∧
      ∀ o,o < maxFileSize → byteAt (Function.update d' bn buf) di' o=
        if o/bsize=blockBase then buf (o%bsize) else byteAt d di o := by
  obtain ⟨hgrow,hbytes,hbn,rfl,hne⟩ := mapBlockno_grows g h hi hu hmap
  have hu' : di'.itype≠.empty := by rwa [hgrow.itype]
  obtain ⟨hwrite,hcell⟩ := grows_write g hgrow.owned hi hu' hbn hne buf
  have hself := fun o ho => sameBytes_self hbytes hi hu (o:=o) ho
  refine ⟨hgrow.trans hwrite,fun j hji hj hju o ho => ?_,
    ⟨hbn,rfl,hne,hwrite.kept _ (posOf_lt hbn) hne⟩,hself,fun o ho => ?_⟩
  · have e := hcell j hj (by rwa [withInode_of_ne hji]) o ho
    rw [withInode_of_ne hji,if_neg fun hc => hji hc.1] at e
    rw [e,sameBytes_other hbytes hji hj hju ho]
  · have e := hcell i hi (by rwa [withInode_self]) o ho
    rw [withInode_self] at e
    rw [e,hself o ho]
    simp only [true_and]

/-- The loop of `try_iwrite`. -/
theorem writeLoop_wrote {src : Source} {fuel blockBase blockOffset count pos left : ℕ}
    (g : sb.Geometry) (h : Owned sb d (withInode v i di)) (hi : i < sb.ninodes)
    (hu : di.itype≠.empty) (hcount : count ≤ fuel) (hoff : blockOffset < bsize)
    (hok : writeLoop sb src fuel d di blockBase blockOffset count pos=.ok (left,d',di')) :
    Wrote sb v i src (blockBase*bsize+blockOffset) count pos d di left d' di' := by
  induction fuel generalizing d di blockBase blockOffset count pos with
  | zero =>
    cases hok
    exact ⟨le_rfl,.refl h,fun _ _ _ _ _ _ => rfl,fun _ _ _ hlt => absurd hlt (lt_irrefl _),
      fun b total _ _ => ⟨by omega,fun o _ => (if_neg (by omega)).symm⟩⟩
  | succ fuel ih =>
    rw [writeLoop] at hok
    by_cases hzero : count=0
    · rw [if_pos hzero] at hok
      cases hok
      exact ⟨le_rfl,.refl h,fun _ _ _ _ _ _ => rfl,fun _ _ _ hlt => absurd hlt (lt_irrefl _),
        fun b total _ _ => ⟨hzero,fun o _ => (if_neg (by omega)).symm⟩⟩
    · rw [if_neg hzero] at hok
      cases hmap : mapBlockno sb d di blockBase with
      | error e =>
        rw [hmap] at hok
        cases hok
      | ok x =>
        obtain ⟨bn,d₁,di₁⟩ := x
        rw [hmap] at hok
        change (if (src pos (min (bsize-blockOffset) count)).2 < min (bsize-blockOffset) count then
            Except.ok (count,Function.update d₁ bn (splice (d₁ bn) blockOffset
              (src pos (min (bsize-blockOffset) count)).1
              (min (src pos (min (bsize-blockOffset) count)).2 (min (bsize-blockOffset) count))),di₁)
          else writeLoop sb src fuel (Function.update d₁ bn (splice (d₁ bn) blockOffset
              (src pos (min (bsize-blockOffset) count)).1
              (min (src pos (min (bsize-blockOffset) count)).2 (min (bsize-blockOffset) count))))
            di₁ (blockBase+1) 0 (count-min (bsize-blockOffset) count)
            (pos+min (bsize-blockOffset) count))=_ at hok
        obtain ⟨hgrow,hothers,⟨hbn,hnum,hne,hnum'⟩,hsame,hbytes⟩ := mapBlockno_write g h hi hu hmap
          (splice (d₁ bn) blockOffset (src pos (min (bsize-blockOffset) count)).1
            (min (src pos (min (bsize-blockOffset) count)).2 (min (bsize-blockOffset) count)))
        have hstart : (blockBase*bsize+blockOffset)/bsize=blockBase := block_div hoff
        have hsucc : (blockBase+1)*bsize=blockBase*bsize+bsize := Nat.succ_mul ..
        split at hok
        · -- the copy failed, and nothing counts as written
          rename_i hfail
          cases hok
          refine ⟨le_rfl,hgrow,hothers,fun _ _ _ hlt => absurd hlt (lt_irrefl _),
            fun b total hsrc htotal => ?_⟩
          have hfull := (hsrc pos (min (bsize-blockOffset) left) (by omega)).1
          omega
        · rename_i hcopied
          have hrest := ih hgrow.owned (by rwa [hgrow.itype]) (by omega) (by decide) hok
          have hbound := hrest.bound
          refine ⟨by omega,hgrow.trans hrest.grows,fun j hji hj hju o ho => ?_,
            fun cn hle hlt hleft => ?_,fun b total hsrc htotal => ?_⟩
          · exact (hrest.others j hji hj hju o ho).trans (hothers j hji hj hju o ho)
          · rw [hstart] at hle
            by_cases hcn : cn=blockBase
            · refine ⟨hcn ▸ hbn,?_⟩
              rw [hcn,hrest.grows.kept _ (posOf_lt hbn) (by rw [hnum']; exact hne),hnum']
              exact hne
            · have hge := Nat.mul_le_mul_right bsize (show blockBase+1 ≤ cn by omega)
              refine hrest.mapped cn ?_ (by omega) (by omega)
              rw [Nat.add_zero,Nat.mul_div_cancel _ (by decide)]
              omega
          · have hfull := hsrc pos (min (bsize-blockOffset) count) (by omega)
            have hmin : min (src pos (min (bsize-blockOffset) count)).2
                (min (bsize-blockOffset) count)=min (bsize-blockOffset) count := by omega
            obtain ⟨hleft,hcells⟩ := hrest.bytes b total hsrc (by omega)
            refine ⟨hleft,fun o ho => ?_⟩
            have hcell := @byteAt_splice _ _ _ blockOffset (min (bsize-blockOffset) count) o _ b pos
              (hnum ▸ hne) (by omega) hfull.2
            rw [hnum,hsame o ho] at hcell
            rw [hcells o ho,hbytes o ho,hmin,hcell]
            by_cases hlater : (blockBase+1)*bsize+0 ≤ o ∧
                o < (blockBase+1)*bsize+0+(count-min (bsize-blockOffset) count)
            · have e : pos+min (bsize-blockOffset) count+(o-((blockBase+1)*bsize+0))=
                  pos+(o-(blockBase*bsize+blockOffset)) := by omega
              rw [if_pos hlater,if_pos (by omega),e]
            · rw [if_neg hlater]
              by_cases hnow : blockBase*bsize+blockOffset ≤ o ∧
                  o < blockBase*bsize+blockOffset+min (bsize-blockOffset) count
              · rw [if_pos hnow,if_pos (by omega)]
              · rw [if_neg hnow,if_neg (by omega)]

/-- `try_iwrite`: what is not written was refused by the source. -/
theorem tryIwrite_wrote {src : Source} {offset count : ℕ} {r : Option ℕ} (g : sb.Geometry)
    (h : Owned sb d (withInode v i di)) (hi : i < sb.ninodes) (hu : di.itype≠.empty)
    (hok : tryIwrite sb i src offset count d di=.ok (r,d',di')) :
    ((r=none ∧ d'=d ∧ di'=di) ∧
        (offset > di.size.toNat ∨ offset+count ≥ 2^32 ∨ offset+count > maxFileSize)) ∨
      ∃ left d₁ di₁,Wrote sb v i src offset count 0 d di left d₁ di₁ ∧ r=some (count-left) ∧
        offset ≤ di.size.toNat ∧ offset+count ≤ maxFileSize ∧ d'=putInodeAt sb d₁ i di' ∧
        di'=if offset+(count-left) > di.size.toNat then
          {di₁ with size := UInt32.ofNat (offset+(count-left))} else di₁ := by
  rw [tryIwrite] at hok
  split at hok
  · rename_i hout
    cases hok
    exact .inl ⟨⟨rfl,rfl,rfl⟩,hout⟩
  · rename_i hin
    cases hloop : writeLoop sb src count d di (offset/bsize) (offset%bsize) count 0 with
    | error e =>
      rw [hloop] at hok
      cases hok
    | ok x =>
      obtain ⟨left,d₁,di₁⟩ := x
      rw [hloop] at hok
      have hw := writeLoop_wrote g h hi hu le_rfl (Nat.mod_lt _ (by decide)) hloop
      rw [Nat.div_add_mod' offset bsize] at hw
      have hbound := hw.bound
      have hsize := hw.grows.size
      have e : offset+count-left=offset+(count-left) := by omega
      have e' : offset+(count-left)-offset=count-left := by omega
      have hupdate : ∀ di',updateInode sb i d₁ di'=.ok (putInodeAt sb d₁ i di') := fun di' =>
        if_neg (not_le.mpr hi)
      simp only [bind,Except.bind,hupdate,hsize,e,e'] at hok
      cases hok
      exact .inr ⟨left,d₁,di₁,hw,rfl,by omega,by omega,rfl,rfl⟩

/-- The loop of `try_iwrite` stops for lack of a block. -/
theorem writeLoop_error {src : Source} {fuel blockBase blockOffset count pos : ℕ} {e : Stop}
    (herr : writeLoop sb src fuel d di blockBase blockOffset count pos=.error e) :
    e=.noFreeBlock ∨ e=.blockRange := by
  induction fuel generalizing d di blockBase blockOffset count pos with
  | zero => cases herr
  | succ fuel ih =>
    rw [writeLoop] at herr
    split at herr
    · cases herr
    · cases hmap : mapBlockno sb d di blockBase with
      | error e' =>
        rw [hmap] at herr
        cases herr
        by_cases hbn : blockBase < ndirect+nindirect
        · exact .inl (mapBlockno_error hbn hmap)
        · rw [mapBlockno_eq,if_neg (by omega),if_neg hbn] at hmap
          cases hmap
          exact .inr rfl
      | ok x =>
        rw [hmap] at herr
        dsimp only [bind,Except.bind] at herr
        split at herr
        · cases herr
        · exact ih herr

/-- So does `try_iwrite` of an inode. -/
theorem tryIwrite_error {src : Source} {offset count : ℕ} {e : Stop} (hi : i < sb.ninodes)
    (herr : tryIwrite sb i src offset count d di=.error e) : e=.noFreeBlock ∨ e=.blockRange := by
  rw [tryIwrite] at herr
  split at herr
  · cases herr
  · cases hloop : writeLoop sb src count d di (offset/bsize) (offset%bsize) count 0 with
    | error e' =>
      rw [hloop] at herr
      cases herr
      exact writeLoop_error hloop
    | ok x =>
      obtain ⟨left,d₁,di₁⟩ := x
      have hupdate : ∀ di',updateInode sb i d₁ di'=.ok (putInodeAt sb d₁ i di') := fun di' =>
        if_neg (not_le.mpr hi)
      rw [hloop] at herr
      simp only [bind,Except.bind,hupdate] at herr
      cases herr

end Writing

/-- The number of blocks that a write of the blocks of a range has to allocate. -/
def missing (d : Disk) (di : DiskInode) (lo hi : ℕ) : ℕ :=
  ((Finset.Ico lo hi).filter fun bn => addrAt d di (posOf bn)=0).card+
    if ndirect < hi ∧ lo < hi ∧ di.addr ndirect=0 then 1 else 0

section Room

variable {sb : SuperBlock} {d d' : Disk} {v : ℕ → DiskInode} {di di' : DiskInode} {i : ℕ}

/-- A block that is mapped is not missing any more. -/
theorem missing_succ {lo hi : ℕ} (h : Grows sb v i d di d' di') (hlo : lo < hi)
    (hhi : hi ≤ ndirect+nindirect) (hmapped : addrAt d' di' (posOf lo)≠0) :
    mapCost d di lo+missing d' di' (lo+1) hi ≤ missing d di lo hi := by
  have hrest : ((Finset.Ico (lo+1) hi).filter fun bn => addrAt d' di' (posOf bn)=0).card ≤
      ((Finset.Ico (lo+1) hi).filter fun bn => addrAt d di (posOf bn)=0).card := by
    refine Finset.card_le_card fun bn hbn => ?_
    rw [Finset.mem_filter] at hbn ⊢
    refine ⟨hbn.1,?_⟩
    by_contra hne
    have hlt := (Finset.mem_Ico.mp hbn.1).2
    rw [h.kept _ (posOf_lt (by omega)) hne] at hbn
    exact hne hbn.2
  have hsplit : ((Finset.Ico lo hi).filter fun bn => addrAt d di (posOf bn)=0).card=
      (if addrAt d di (posOf lo)=0 then 1 else 0)+
        ((Finset.Ico (lo+1) hi).filter fun bn => addrAt d di (posOf bn)=0).card := by
    rw [← Finset.insert_Ico_add_one_left_eq_Ico hlo,Finset.filter_insert]
    split
    · rw [Finset.card_insert_of_notMem (by simp),Nat.add_comm]
    · rw [Nat.zero_add]
  have hind : (if ndirect ≤ lo ∧ di.addr ndirect=0 then 1 else 0)+
      (if ndirect < hi ∧ lo+1 < hi ∧ di'.addr ndirect=0 then 1 else 0) ≤
        if ndirect < hi ∧ lo < hi ∧ di.addr ndirect=0 then 1 else 0 := by
    have hkept : di.addr ndirect≠0 → di'.addr ndirect≠0 := by
      intro hne
      have e := h.kept ndirect (by decide) (by rwa [addrAt_ndirect])
      rw [addrAt_ndirect,addrAt_ndirect] at e
      rwa [e]
    have hnew : ndirect ≤ lo → di'.addr ndirect≠0 := by
      intro hle
      refine indirect_of_entry (p:=posOf lo) ?_ hmapped
      rw [posOf,if_neg (by omega)]
      omega
    by_cases hle : ndirect ≤ lo
    · have hne := hnew hle
      simp only [hle,hne,true_and,and_false,if_false,Nat.add_zero]
      split
      · rw [if_pos ⟨by omega,hlo,by assumption⟩]
      · exact Nat.zero_le _
    · rw [if_neg (by omega),Nat.zero_add]
      split
      · rename_i hc
        rw [if_pos ⟨hc.1,hlo,by_contra fun hne => hkept hne hc.2.2⟩]
      · exact Nat.zero_le _
  rw [missing,missing,mapCost,hsplit]
  omega

/-- What the first block costs is part of what is missing. -/
theorem mapCost_le_missing {lo hi : ℕ} (hlo : lo < hi) : mapCost d di lo ≤ missing d di lo hi := by
  rw [mapCost,missing]
  refine add_le_add ?_ ?_
  · split
    · rename_i hzero
      exact Finset.card_pos.mpr ⟨lo,Finset.mem_filter.mpr ⟨Finset.left_mem_Ico.mpr hlo,hzero⟩⟩
    · exact Nat.zero_le _
  · split
    · rename_i hc
      rw [if_pos ⟨by omega,hlo,hc.2⟩]
    · exact Nat.zero_le _

/-- The loop of `try_iwrite` returns if there are enough free blocks. -/
theorem writeLoop_ok {src : Source} {fuel blockBase blockOffset count pos hi : ℕ} (g : sb.Geometry)
    (h : Owned sb d (withInode v i di)) (hin : i < sb.ninodes) (hu : di.itype≠.empty)
    (hoff : blockOffset < bsize) (hhi : hi ≤ ndirect+nindirect)
    (hend : blockBase*bsize+blockOffset+count ≤ hi*bsize)
    (hlast : hi*bsize < blockBase*bsize+blockOffset+count+bsize)
    (hfree : missing d di blockBase hi ≤ freeBlocks sb d) :
    ∃ x,writeLoop sb src fuel d di blockBase blockOffset count pos=.ok x := by
  induction fuel generalizing d di blockBase blockOffset count pos with
  | zero => exact ⟨_,rfl⟩
  | succ fuel ih =>
    rw [writeLoop]
    split
    · exact ⟨_,rfl⟩
    · rename_i hzero
      have hpos : 0 < bsize := by decide
      have hsucc : (blockBase+1)*bsize=blockBase*bsize+bsize := Nat.succ_mul ..
      have hlo : blockBase < hi := by
        by_contra hn
        have hle := Nat.mul_le_mul_right bsize (not_lt.mp hn)
        omega
      have hbn : blockBase < ndirect+nindirect := hlo.trans_le hhi
      obtain ⟨bn,d₁,di₁,hmap,hcount⟩ := mapBlockno_ok g h hin hu hbn
        ((mapCost_le_missing hlo).trans hfree)
      rw [hmap]
      change ∃ x,(if (src pos (min (bsize-blockOffset) count)).2 < min (bsize-blockOffset) count then
          Except.ok _ else _)=Except.ok x
      split
      · exact ⟨_,rfl⟩
      · obtain ⟨hgrow,-,⟨-,-,hne,hnum⟩,-⟩ := mapBlockno_write g h hin hu hmap
          (splice (d₁ bn) blockOffset (src pos (min (bsize-blockOffset) count)).1
            (min (src pos (min (bsize-blockOffset) count)).2 (min (bsize-blockOffset) count)))
        have hrest := missing_succ hgrow hlo hhi (by rw [hnum]; exact hne)
        obtain ⟨hgrow₁,-,-,hnum₁,-⟩ := mapBlockno_grows g h hin hu hmap
        have hheld : Holds sb d₁ (withInode v i di₁) i (posOf blockBase) bn :=
          ⟨hin,by rw [withInode_self,hgrow₁.itype]; exact hu,posOf_lt hbn,
            by rw [withInode_self]; exact hnum₁,hne⟩
        have hblock := @freeBlocks_congr sb d₁ (Function.update d₁ bn
          (splice (d₁ bn) blockOffset (src pos (min (bsize-blockOffset) count)).1
            (min (src pos (min (bsize-blockOffset) count)).2 (min (bsize-blockOffset) count))))
          fun c hc => bit_update _ g hc (hgrow₁.owned.range hheld).1 _
        have hge : (blockBase+1)*bsize ≤ hi*bsize := Nat.mul_le_mul_right bsize hlo
        exact ih hgrow.owned (by rw [hgrow.itype]; exact hu) hpos (by omega) (by omega) (by omega)

/-- `try_iwrite` returns if there are enough free blocks. -/
theorem tryIwrite_ok {src : Source} {offset count : ℕ} (g : sb.Geometry)
    (h : Owned sb d (withInode v i di)) (hi : i < sb.ninodes) (hu : di.itype≠.empty)
    (hfree : missing d di (offset/bsize) ((offset+count+bsize-1)/bsize) ≤ freeBlocks sb d) :
    ∃ x,tryIwrite sb i src offset count d di=.ok x := by
  rw [tryIwrite]
  split
  · exact ⟨_,rfl⟩
  · rename_i hin
    have hpos : 0 < bsize := by decide
    have hsum : offset/bsize*bsize+offset%bsize=offset := Nat.div_add_mod' ..
    have hceil := Nat.div_add_mod' (offset+count+bsize-1) bsize
    have hrest := Nat.mod_lt (offset+count+bsize-1) hpos
    have hhi : (offset+count+bsize-1)/bsize ≤ ndirect+nindirect := by
      have hmax : offset+count ≤ maxFileSize := by omega
      rw [maxFileSize] at hmax
      refine Nat.lt_succ_iff.mp ((Nat.div_lt_iff_lt_mul hpos).mpr ?_)
      rw [Nat.succ_mul]
      omega
    have hloop : ∃ x,writeLoop sb src count d di (offset/bsize) (offset%bsize) count 0=.ok x :=
      writeLoop_ok g h hi hu (Nat.mod_lt offset hpos) hhi (by omega) (by omega) hfree
    obtain ⟨⟨left,d₁,di₁⟩,hloop⟩ := hloop
    have hupdate : ∀ di',updateInode sb i d₁ di'=.ok (putInodeAt sb d₁ i di') := fun di' =>
      if_neg (not_le.mpr hi)
    rw [hloop]
    simp only [bind,Except.bind,hupdate]
    exact ⟨_,rfl⟩

end Room

section Files

variable {sb : SuperBlock} {d : Disk} {i : ℕ}

/-- The inodes on disk, one of which is read. -/
theorem withInode_inodeAt : withInode (inodeAt sb d) i (inodeAt sb d i)=inodeAt sb d :=
  Function.update_eq_self ..

/-- The inode table does not count for the blocks. -/
theorem putInodeAt_owned {v : ℕ → DiskInode} {di : DiskInode} (g : sb.Geometry)
    (h : Owned sb d v) (hi : i < sb.ninodes) : Owned sb (putInodeAt sb d i di) v := by
  refine h.congr (fun c hc => bit_putInodeAt _ g hc hi _) (fun _ _ => rfl) fun j hj hju p hp => ?_
  exact addrAt_congr (fun hne => putInodeAt_apply _ g hi (h.range (holds_indirect hj hju hne)).1 _) p

/-- Bytes of an allocated inode do not depend on the inode table. -/
theorem putInodeAt_byteAt {v : ℕ → DiskInode} {di : DiskInode} (g : sb.Geometry) (h : Owned sb d v)
    (hi : i < sb.ninodes) {j : ℕ} (hj : j < sb.ninodes) (hju : (v j).itype≠.empty) {o : ℕ}
    (ho : o < maxFileSize) : byteAt (putInodeAt sb d i di) (v j) o=byteAt d (v j) o := by
  have haddr : ∀ p,addrAt (putInodeAt sb d i di) (v j) p=addrAt d (v j) p := fun p =>
    addrAt_congr (fun hne => putInodeAt_apply _ g hi (h.range (holds_indirect hj hju hne)).1 _) p
  refine byteAt_congr (haddr _) fun hne => ?_
  have hheld := holds_of hj hju (posOf_lt (div_lt_of_lt_maxFileSize ho)) hne
  exact putInodeAt_apply _ g hi (h.range hheld).1 _

/-- What an operation on an inode leaves: the inode is on disk, and the others are as before. -/
structure Stored (sb : SuperBlock) (i : ℕ) (d d' : Disk) (di' : DiskInode) : Prop where
  /-- Blocks are owned. -/
  owned : Owned sb d' (inodeAt sb d')
  /-- The inode is on disk. -/
  self : inodeAt sb d' i=di'
  /-- Others are as before. -/
  others : ∀ j,j≠i → j < sb.ninodes → inodeAt sb d' j=inodeAt sb d j
  /-- So are their blocks. -/
  addrs : ∀ j,j≠i → j < sb.ninodes → (inodeAt sb d j).itype≠.empty → ∀ p,p < npos →
    addrAt d' (inodeAt sb d j) p=addrAt d (inodeAt sb d j) p
  /-- So are their contents. -/
  bytes : ∀ j,j≠i → j < sb.ninodes → (inodeAt sb d j).itype≠.empty → ∀ o,o < maxFileSize →
    byteAt d' (inodeAt sb d j) o=byteAt d (inodeAt sb d j) o

/-- Bytes depend on the numbers of an inode only. -/
theorem byteAt_addrs {di dj : DiskInode} (h : dj.addrs=di.addrs) (o : ℕ) :
    byteAt d dj o=byteAt d di o := by
  rw [byteAt,byteAt,addrAt_addrs h]

/-- An inode that is written to the inode table. -/
theorem stored_of_put {di₁ di' : DiskInode} {d₁ : Disk} (g : sb.Geometry) (hi : i < sb.ninodes)
    (h : Owned sb d₁ (withInode (inodeAt sb d) i di₁)) (hu : di'.itype=di₁.itype)
    (ha : di'.addrs=di₁.addrs) (hinodes : ∀ j,j < sb.ninodes → inodeAt sb d₁ j=inodeAt sb d j)
    (haddrs : ∀ j,j≠i → j < sb.ninodes → (inodeAt sb d j).itype≠.empty → ∀ p,p < npos →
      addrAt d₁ (inodeAt sb d j) p=addrAt d (inodeAt sb d j) p)
    (hbytes : ∀ j,j≠i → j < sb.ninodes → (inodeAt sb d j).itype≠.empty → ∀ o,o < maxFileSize →
      byteAt d₁ (inodeAt sb d j) o=byteAt d (inodeAt sb d j) o) :
    Stored sb i d (putInodeAt sb d₁ i di') di' := by
  have hat : ∀ j,j < sb.ninodes → inodeAt sb (putInodeAt sb d₁ i di') j=
      withInode (inodeAt sb d) i di' j := by
    intro j hj
    rw [inodeAt_putInodeAt]
    split
    · rename_i e
      rw [e,withInode_self]
    · rename_i e
      rw [withInode_of_ne e,hinodes j hj]
  have hput := @putInodeAt_owned _ _ _ _ di' g h hi
  have hnum : ∀ j,j < sb.ninodes → (withInode (inodeAt sb d) i di₁ j).itype≠.empty → ∀ p,
      addrAt (putInodeAt sb d₁ i di') (withInode (inodeAt sb d) i di₁ j) p=
        addrAt d₁ (withInode (inodeAt sb d) i di₁ j) p := fun j hj hju p =>
    addrAt_congr (fun hne => putInodeAt_apply _ g hi (h.range (holds_indirect hj hju hne)).1 _) p
  refine ⟨?_,?_,fun j hji hj => ?_,fun j hji hj hju p hp => ?_,fun j hji hj hju o ho => ?_⟩
  · refine hput.congr (fun c hc => rfl) (fun j hj => ?_) fun j hj hju p hp => ?_
    · rw [hat j hj]
      by_cases e : j=i
      · rw [e,withInode_self,withInode_self,hu]
      · rw [withInode_of_ne e,withInode_of_ne e]
    · rw [hat j hj]
      by_cases e : j=i
      · rw [e,withInode_self,withInode_self]
        exact addrAt_addrs ha p
      · rw [withInode_of_ne e,withInode_of_ne e]
  · rw [hat i hi,withInode_self]
  · rw [hat j hj,withInode_of_ne hji]
  · have e := hnum j hj (by rwa [withInode_of_ne hji]) p
    rw [withInode_of_ne hji] at e
    rw [e,haddrs j hji hj hju p hp]
  · have e := @putInodeAt_byteAt _ _ _ _ di' g h hi _ hj (by rwa [withInode_of_ne hji]) _ ho
    rw [withInode_of_ne hji] at e
    rw [e,hbytes j hji hj hju o ho]

/-- A write leaves no hole. -/
theorem whole_of_wrote {src : Source} {offset count left : ℕ} {di di₁ di' : DiskInode}
    {v : ℕ → DiskInode} {d₁ d' : Disk} (hw : Wrote sb v i src offset count 0 d di left d₁ di₁)
    (hwhole : Whole d di) (hnums : ∀ p,p < npos → addrAt d' di' p=addrAt d₁ di₁ p)
    (hoffset : offset ≤ di.size.toNat)
    (hsize : di'.size.toNat=max di.size.toNat (offset+(count-left))) : Whole d' di' := by
  intro bn hbn
  rw [hsize] at hbn
  by_cases hold : bn*bsize < di.size.toNat
  · obtain ⟨hlt,hne⟩ := hwhole bn hold
    have hpos := posOf_lt hlt
    rw [hnums _ hpos,hw.grows.kept _ hpos hne]
    exact ⟨hlt,hne⟩
  · have hbound := hw.bound
    obtain ⟨hlt,hne⟩ := hw.mapped bn (Nat.div_le_of_le_mul (by rw [Nat.mul_comm]; omega)) (by omega)
      (by omega)
    rw [hnums _ (posOf_lt hlt)]
    exact ⟨hlt,hne⟩

/-- What `try_iwrite` leaves. -/
theorem tryIwrite_stored {src : Source} {offset count : ℕ} {r : Option ℕ} {di d' di'}
    (g : sb.Geometry) (h : Owned sb d (withInode (inodeAt sb d) i di)) (hi : i < sb.ninodes)
    (hu : di.itype≠.empty) (hok : tryIwrite sb i src offset count d di=.ok (r,d',di')) :
    ((r=none ∧ d'=d ∧ di'=di) ∧
        (offset > di.size.toNat ∨ offset+count ≥ 2^32 ∨ offset+count > maxFileSize)) ∨
      ∃ left d₁ di₁,Wrote sb (inodeAt sb d) i src offset count 0 d di left d₁ di₁ ∧
        r=some (count-left) ∧ Stored sb i d d' di' ∧ di'.addrs=di₁.addrs ∧
        (∀ p,p < npos → addrAt d' di' p=addrAt d₁ di₁ p) ∧
        (∀ o,o < maxFileSize → byteAt d' di' o=byteAt d₁ di₁ o) ∧
        {di' with addrs := di.addrs,size := di.size}=di ∧ offset ≤ di.size.toNat ∧
        offset+count ≤ maxFileSize ∧ di'.size.toNat=max di.size.toNat (offset+(count-left)) := by
  obtain hnone | ⟨left,d₁,di₁,hw,rfl,hoffset,hmax,rfl,hdi'⟩ := tryIwrite_wrote g h hi hu hok
  · exact .inl hnone
  · have hgrow := hw.grows
    have haddrs : di'.addrs=di₁.addrs := by
      rw [hdi']
      split <;> rfl
    have htype : di'.itype=di₁.itype := by
      rw [hdi']
      split <;> rfl
    have hstored := stored_of_put g hi hgrow.owned htype haddrs hgrow.inodes hgrow.others hw.others
    have hu₁ : (withInode (inodeAt sb d) i di₁ i).itype≠.empty := by
      rw [withInode_self,hgrow.itype]
      exact hu
    have hmaxsize : maxFileSize<2^32 := by decide
    refine .inr ⟨left,d₁,di₁,hw,rfl,hstored,haddrs,fun p hp => ?_,fun o ho => ?_,?_,hoffset,hmax,?_⟩
    · rw [addrAt_addrs haddrs]
      refine addrAt_congr (fun hne => putInodeAt_apply _ g hi ?_ _) p
      have hind := holds_indirect (d:=d₁) hi hu₁ (by rwa [withInode_self])
      rw [withInode_self] at hind
      exact (hgrow.owned.range hind).1
    · have e := @putInodeAt_byteAt _ _ _ _ di' g hgrow.owned hi _ hi hu₁ _ ho
      rw [withInode_self] at e
      rw [byteAt_addrs haddrs,e]
    · have hrest := hgrow.rest
      rw [hdi']
      split
      · rw [← hrest]
      · rw [← hrest]
    · rw [hdi']
      split
      · have e : (UInt32.ofNat (offset+(count-left))).toNat=offset+(count-left) :=
          UInt32.toNat_ofNat_of_lt' (show offset+(count-left)<2^32 by omega)
        rw [e]
        omega
      · rw [hgrow.size]
        omega

/-- `try_iwrite` of `count` bytes at an offset in a file: they are the contents there
afterwards, the rest of the contents is as before, and so is every other inode. -/
theorem tryIwrite_splices (g : sb.Geometry) (h : Owned sb d (inodeAt sb d)) (hi : i < sb.ninodes)
    (hfile : (inodeAt sb d i).itype=.file) {src : Source} {b : Buffer} {offset count : ℕ}
    (hoffset : offset ≤ (inodeAt sb d i).size.toNat) (hmax : offset+count ≤ maxFileSize)
    (hsrc : Supplies src b count)
    (hfree : missing d (inodeAt sb d i) (offset/bsize) ((offset+count+bsize-1)/bsize) ≤
      freeBlocks sb d) :
    ∃ d' di',tryIwrite sb i src offset count d (inodeAt sb d i)=.ok (some count,d',di') ∧
      inodeAt sb d' i=di' ∧ Owned sb d' (inodeAt sb d') ∧
      di'.size.toNat=max (inodeAt sb d i).size.toNat (offset+count) ∧
      (∃ old,ReadsAs sb d (inodeAt sb d i) old ∧
        ReadsAs sb d' di' fun o => if offset ≤ o ∧ o < offset+count then b (o-offset) else old o) ∧
      (Whole d (inodeAt sb d i) → Readable sb d' di') ∧
      ∀ j,j≠i → j < sb.ninodes → inodeAt sb d' j=inodeAt sb d j ∧
        ((inodeAt sb d j).itype≠.empty →
          (∀ p,p < npos → addrAt d' (inodeAt sb d j) p=addrAt d (inodeAt sb d j) p) ∧
          ∀ o,o < maxFileSize → byteAt d' (inodeAt sb d j) o=byteAt d (inodeAt sb d j) o) := by
  have hu : (inodeAt sb d i).itype≠.empty := by
    rw [hfile]
    nofun
  have hown : Owned sb d (withInode (inodeAt sb d) i (inodeAt sb d i)) := by rwa [withInode_inodeAt]
  have hmaxsize : maxFileSize<2^32 := by decide
  obtain ⟨⟨r,d',di'⟩,hok⟩ := @tryIwrite_ok _ _ _ _ _ src _ _ g hown hi hu hfree
  obtain ⟨-,hout⟩ | ⟨left,d₁,di₁,hw,rfl,hst,haddrs,hnums,hbytes,hrest,-,-,hsize⟩ :=
    tryIwrite_stored g hown hi hu hok
  · omega
  · obtain ⟨rfl,hcells⟩ := hw.bytes b count hsrc (by omega)
    have hu' : di'.itype≠.empty := by
      have e := congrArg DiskInode.itype hrest
      dsimp only at e
      rwa [e]
    have hown' : Owned sb d' (withInode (inodeAt sb d') i di') := by
      rw [← hst.self,withInode_inodeAt]
      exact hst.owned
    rw [Nat.sub_zero] at hok hsize
    refine ⟨d',di',hok,hst.self,hst.owned,hsize,⟨byteAt d (inodeAt sb d i),
      readsAs_of_byteAt g hown hi hu fun _ _ _ => rfl,
      readsAs_of_byteAt g hown' hi hu' fun o _ ho => ?_⟩,
      fun hwhole => readable_of_whole fun bn hbn => ?_,
      fun j hji hj => ⟨hst.others j hji hj,fun hju => ⟨hst.addrs j hji hj hju,hst.bytes j hji hj hju⟩⟩⟩
    · rw [hbytes o ho,hcells o ho]
      simp only [Nat.zero_add]
    · exact whole_of_wrote hw hwhole hnums hoffset hsize bn hbn

/-- A device of eight blocks, four of them before the data blocks. -/
def smallDevice : SuperBlock := ⟨8,4,16,2,3⟩

/-- Its blocks before the inode table is written: the bitmap tells the blocks before the data
blocks. -/
def blankDisk : Disk := fun c => if c=3 then fun o => if o=0 then 15 else 0 else fun _ => 0

/-- It holds one inode. -/
def oneInode (di : DiskInode) : Disk := putInodeAt smallDevice blankDisk 1 di

/-- It holds one empty file. -/
def emptyFile : Disk := oneInode {DiskInode.new with itype := .file,nlink := 1}

theorem smallDevice_locateInode {j : ℕ} (hj : j < smallDevice.ninodes) :
    smallDevice.locateInode j=2 := by
  change j < 16 at hj
  show j/16+2=2
  omega

theorem smallDevice_bitmapBlockno {b : ℕ} (hb : b < smallDevice.size) :
    smallDevice.bitmapBlockno b=3 := by
  change b < 8 at hb
  show b/8192+3=3
  omega

theorem smallDevice_geometry : smallDevice.Geometry := by
  refine ⟨fun j hj => ?_,fun b hb => ?_,fun j b hj hb => ?_,by decide,by decide⟩
  · rw [smallDevice_locateInode hj]
    decide
  · rw [smallDevice_bitmapBlockno hb]
    decide
  · rw [smallDevice_locateInode hj,smallDevice_bitmapBlockno hb]
    decide

/-- An inode of an inode block of zeros holds no block. -/
theorem addr_getInode_zero (off q : ℕ) : (getInode (fun _ => 0) off).addr q=0 := by
  rw [DiskInode.addr]
  split
  · rfl
  · rfl

/-- If the one inode holds no block, no inode does. -/
theorem oneInode_addr {di : DiskInode} (hdi : ∀ q,di.addr q=0) {j : ℕ}
    (hj : j < smallDevice.ninodes) (q : ℕ) : (inodeAt smallDevice (oneInode di) j).addr q=0 := by
  rw [oneInode,inodeAt_putInodeAt]
  split
  · exact hdi q
  · rw [inodeAt,smallDevice_locateInode hj,blankDisk,if_neg (by decide)]
    exact addr_getInode_zero _ q

/-- Then its blocks are owned. -/
theorem oneInode_owned {di : DiskInode} (hdi : ∀ q,di.addr q=0) :
    Owned smallDevice (oneInode di) (inodeAt smallDevice (oneInode di)) := by
  have haddr : ∀ {j p},j < smallDevice.ninodes →
      addrAt (oneInode di) (inodeAt smallDevice (oneInode di) j) p=0 := by
    intro j p hj
    rw [addrAt]
    split
    · exact oneInode_addr hdi hj p
    · exact if_pos (oneInode_addr hdi hj ndirect)
  have hnone : ∀ {j p b},¬Holds smallDevice (oneInode di) (inodeAt smallDevice (oneInode di)) j p b :=
    fun hj => hj.nonzero (hj.addr.symm.trans (haddr hj.inum))
  refine ⟨fun hj => absurd hj hnone,fun hj => absurd hj hnone,fun b hb => ?_⟩
  have hbit : bit smallDevice (oneInode di) b=decide (b < 4) := by
    rw [oneInode,bit_putInodeAt _ smallDevice_geometry hb (by decide)]
    revert b
    decide +kernel
  rw [hbit,decide_eq_true_eq]
  refine ⟨.inl,fun h => h.resolve_right fun hheld => ?_⟩
  obtain ⟨j,p,hj⟩ := hheld
  exact hnone hj

/-- A new inode holds no block. -/
theorem new_addr (itype : InodeType) (nlink : UInt16) (size : UInt32) (q : ℕ) :
    DiskInode.addr {DiskInode.new with itype := itype,nlink := nlink,size := size} q=0 := by
  rw [DiskInode.addr]
  split <;> rfl

theorem emptyFile_owned : Owned smallDevice emptyFile (inodeAt smallDevice emptyFile) :=
  oneInode_owned (new_addr .file 1 0)

theorem tryIwrite_splices_emptyFile :
    ∃ d' di',tryIwrite smallDevice 1 (kernelSource fun _ => 7) 0 3 emptyFile
      (inodeAt smallDevice emptyFile 1)=.ok (some 3,d',di') ∧ di'.size.toNat=3 := by
  have hsize : (inodeAt smallDevice emptyFile 1).size.toNat=0 := by decide +kernel
  obtain ⟨d',di',hok,-,-,hsize',-⟩ := @tryIwrite_splices smallDevice emptyFile 1
    smallDevice_geometry emptyFile_owned (by decide) (by decide +kernel)
    (kernelSource fun _ => 7) (fun _ => 7) 0 3 (by omega) (by decide)
    (fun pos n _ => ⟨le_rfl,fun _ _ => rfl⟩) (by decide +kernel)
  refine ⟨d',di',hok,?_⟩
  rw [hsize',hsize]
  rfl

end Files

end Xv6Rust.FileContents
