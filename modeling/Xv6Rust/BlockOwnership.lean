import Xv6Rust.InodeLayer

/-!
# Who owns a block

A bit of the bitmap is set for the blocks before the data blocks, and for each block whose
number an allocated inode holds, as a direct block, as its indirect block or as an entry of that;
a number is held once. `map_blockno` and `truncate` keep this. The inodes are seen as
the operation that works on one of them sees them, with that one in memory.
-/

namespace Xv6Rust.BlockOwnership

open Bytes DiskLayout InodeLayer

section Definitions

variable (sb : SuperBlock) (d : Disk) (v : ℕ → DiskInode)

/-- An allocated inode holds the number of a block at a position. -/
structure Holds (i p b : ℕ) : Prop where
  /-- It is an inode. -/
  inum : i < sb.ninodes
  /-- It is allocated. -/
  used : (v i).itype≠.empty
  /-- It is a position. -/
  pos : p < npos
  /-- The number. -/
  addr : addrAt d (v i) p=b
  /-- It is the number of a block. -/
  nonzero : b≠0

/-- The bitmap tells exactly the blocks that are in use, and each is used once. -/
structure Owned : Prop where
  /-- Inodes hold data blocks. -/
  range : ∀ {i p b},Holds sb d v i p b → sb.nmeta ≤ b ∧ b < sb.size
  /-- A block is held once. -/
  single : ∀ {i p j q b},Holds sb d v i p b → Holds sb d v j q b → i=j ∧ p=q
  /-- The bits. -/
  bits : ∀ b,b < sb.size → (bit sb d b=true ↔ b < sb.nmeta ∨ ∃ i p,Holds sb d v i p b)

/-- Every block of the contents of an inode has a number. -/
def Whole (di : DiskInode) : Prop :=
  ∀ bn,bn*bsize < di.size.toNat → bn < ndirect+nindirect ∧ addrAt d di (posOf bn)≠0

end Definitions

/-- A block that `bm_alloc` gives out, and the disk after it. -/
structure Fresh (sb : SuperBlock) (d : Disk) (b : ℕ) (d' : Disk) : Prop where
  /-- It is a data block. -/
  low : sb.nmeta ≤ b
  /-- It is a block. -/
  high : b < sb.size
  /-- It was free. -/
  free : bit sb d b=false
  /-- It is not free any more. -/
  bits : ∀ c,c < sb.size → bit sb d' c=if c=b then true else bit sb d c
  /-- It is zero. -/
  blocks : ∀ c,sb.nmeta ≤ c → d' c=if c=b then fun _ => 0 else d c
  /-- Inodes stay. -/
  inodes : ∀ j,j < sb.ninodes → inodeAt sb d' j=inodeAt sb d j

/-- A byte of the contents of an inode; a block without a number is zero. -/
def byteAt (d : Disk) (di : DiskInode) (o : ℕ) : UInt8 :=
  if addrAt d di (posOf (o/bsize))=0 then 0 else d (addrAt d di (posOf (o/bsize))) (o%bsize)

/-- The inodes, with one of them in memory. -/
def withInode (v : ℕ → DiskInode) (i : ℕ) (di : DiskInode) : ℕ → DiskInode := Function.update v i di

/-- Blocks are added to an inode, and nothing else is. -/
structure Grows (sb : SuperBlock) (v : ℕ → DiskInode) (i : ℕ) (d : Disk) (di : DiskInode)
    (d' : Disk) (di' : DiskInode) : Prop where
  /-- Blocks are owned. -/
  owned : Owned sb d' (withInode v i di')
  /-- Only block numbers of the inode change. -/
  rest : {di' with addrs := di.addrs}=di
  /-- Those that it had stay. -/
  kept : ∀ p,p < npos → addrAt d di p≠0 → addrAt d' di' p=addrAt d di p
  /-- The inode table stays. -/
  inodes : ∀ j,j < sb.ninodes → inodeAt sb d' j=inodeAt sb d j
  /-- Other inodes keep their blocks. -/
  others : ∀ j,j≠i → j < sb.ninodes → (v j).itype≠.empty → ∀ p,p < npos →
    addrAt d' (v j) p=addrAt d (v j) p

/-- The contents of inodes stay the same. -/
def SameBytes (sb : SuperBlock) (v : ℕ → DiskInode) (i : ℕ) (d : Disk) (di : DiskInode)
    (d' : Disk) (di' : DiskInode) : Prop :=
  ∀ j,j < sb.ninodes → (withInode v i di j).itype≠.empty → ∀ o,o < maxFileSize →
    byteAt d' (withInode v i di' j) o=byteAt d (withInode v i di j) o

section Positions

variable {d d' : Disk} {di : DiskInode} {p q b : ℕ}

/-- A number that an inode holds depends on the inode and its indirect block. -/
theorem addrAt_congr (h : di.addr ndirect≠0 → d' (di.addr ndirect)=d (di.addr ndirect)) (p : ℕ) :
    addrAt d' di p=addrAt d di p := by
  unfold addrAt
  split
  · rfl
  · split
    · rfl
    · rename_i hne
      rw [h hne]

theorem addrAt_direct (hp : p≤ndirect) : addrAt d di p=di.addr p := if_pos hp

theorem addrAt_ndirect : addrAt d di ndirect=di.addr ndirect := if_pos le_rfl

/-- Without an indirect block there are no entries. -/
theorem addrAt_none (hp : ndirect < p) (h : di.addr ndirect=0) : addrAt d di p=0 := by
  rw [addrAt,if_neg (by omega),if_pos h]

theorem addrAt_entry (hp : ndirect < p) (h : di.addr ndirect≠0) :
    addrAt d di p=word (d (di.addr ndirect)) (p-ndirect-1) := by
  rw [addrAt,if_neg (by omega),if_neg h]

/-- Whoever holds an entry of the indirect block holds the indirect block. -/
theorem indirect_of_entry (hp : ndirect < p) (h : addrAt d di p≠0) : di.addr ndirect≠0 :=
  fun e => h (addrAt_none hp e)

theorem posOf_lt {bn : ℕ} (h : bn < ndirect+nindirect) : posOf bn < npos := by
  rw [posOf,npos]
  split <;> omega

theorem posOf_ne {bn : ℕ} : posOf bn≠ndirect := by
  rw [posOf]
  split <;> omega

theorem posOf_inj {bn cn : ℕ} (h : posOf bn=posOf cn) : bn=cn := by
  rw [posOf,posOf] at h
  split at h <;> split at h <;> omega

end Positions

section Allocation

variable {sb : SuperBlock} {d d' : Disk} {b : ℕ}

theorem bitmapBlockno_add (k : ℕ) {o : ℕ} (ho : o < bpb) :
    sb.bitmapBlockno (k*bpb+o)=sb.bitmapBlockno (k*bpb) ∧ (k*bpb+o)%bpb=o := by
  have hpos : 0 < bpb := by decide
  refine ⟨?_,?_⟩
  · rw [SuperBlock.bitmapBlockno,SuperBlock.bitmapBlockno,Nat.mul_comm,Nat.mul_add_div hpos,
      Nat.div_eq_of_lt ho,Nat.mul_div_cancel_left _ hpos,Nat.add_zero]
  · exact Nat.mul_add_mod_of_lt ho

/-- The search finds a block that is free. -/
theorem bmFind_some {base o : ℕ} (h : bmFind sb d=some (base,o)) :
    base+o < sb.size ∧ bit sb d (base+o)=false ∧ sb.bitmapBlockno (base+o)=sb.bitmapBlockno base ∧
      (base+o)%bpb=o := by
  obtain ⟨k,-,hk⟩ := List.exists_of_findSome?_eq_some h
  obtain ⟨o',ho,hk⟩ := List.exists_of_findSome?_eq_some hk
  rw [List.mem_range] at ho
  obtain ⟨hblock,hoff⟩ := @bitmapBlockno_add sb k _ ho
  split at hk
  · cases hk
  · rename_i hsize
    split at hk
    · cases hk
    · rename_i hbit
      cases hk
      refine ⟨by omega,?_,hblock,hoff⟩
      rw [bit,hblock,hoff]
      exact Bool.eq_false_iff.mpr hbit

/-- A place of the search without a result is a bit that is set. -/
theorem bit_of_cell {k o : ℕ} (ho : o < bpb) (hlt : k*bpb+o < sb.size)
    (h : (if k*bpb+o ≥ sb.size then none
      else if getBit (d (sb.bitmapBlockno (k*bpb))) o=true then none
      else some (k*bpb,o))=none) : bit sb d (k*bpb+o)=true := by
  obtain ⟨hblock,hoff⟩ := @bitmapBlockno_add sb k o ho
  rw [if_neg (not_le.mpr hlt)] at h
  split at h
  · rename_i hbit
    rw [bit,hblock,hoff]
    exact hbit
  · cases h

/-- It finds one if there is one. -/
theorem bmFind_none (h : bmFind sb d=none) : ∀ c,c < sb.size → bit sb d c=true := by
  intro c hc
  have hpos : 0 < bpb := by decide
  have hk : c/bpb∈List.range ((sb.size+bpb-1)/bpb) := by
    have hsum := Nat.div_add_mod' (sb.size+bpb-1) bpb
    have hrest := Nat.mod_lt (sb.size+bpb-1) hpos
    rw [List.mem_range,Nat.div_lt_iff_lt_mul hpos]
    omega
  have ho := Nat.mod_lt c hpos
  have hrow := List.findSome?_eq_none_iff.mp h _ hk
  have hcell := List.findSome?_eq_none_iff.mp hrow (c%bpb) (List.mem_range.mpr ho)
  have hsum : c/bpb*bpb+c%bpb=c := Nat.div_add_mod' c bpb
  rw [←hsum]
  exact bit_of_cell ho (by rwa [hsum]) hcell

/-- `bm_alloc` gives out a fresh block. -/
theorem bmAlloc_fresh (g : sb.Geometry) (hmeta : ∀ c,c < sb.nmeta → bit sb d c=true)
    (h : bmAlloc sb d=.ok (b,d')) : Fresh sb d b d' := by
  rw [bmAlloc] at h
  split at h
  · cases h
  · rename_i base o hfind
    cases h
    obtain ⟨hsize,hfree,hblock,hoff⟩ := bmFind_some hfind
    have hlow : sb.nmeta ≤ base+o := by
      by_contra hlt
      rw [hmeta _ (not_le.mp hlt)] at hfree
      cases hfree
    have hset : Function.update d (sb.bitmapBlockno base) (setBit (d (sb.bitmapBlockno base)) o true)=
        setBitAt sb d (base+o) true := by
      rw [setBitAt,hblock,hoff]
    rw [hset]
    refine ⟨hlow,hsize,hfree,fun c hc => ?_,fun c hc => ?_,fun j hj => ?_⟩
    · rw [bit_update _ g hc hlow,bit_setBitAt]
    · by_cases e : c=base+o
      · rw [if_pos e,e,Function.update_self]
      · rw [if_neg e,Function.update_of_ne e,setBitAt_apply _ g hsize hc]
    · rw [inodeAt_update _ g hj hlow,inodeAt_setBitAt _ g hsize hj]

/-- It stops only if there is no free block. -/
theorem bmAlloc_error {e : Stop} (h : bmAlloc sb d=.error e) :
    e=.noFreeBlock ∧ ∀ c,c < sb.size → bit sb d c=true := by
  rw [bmAlloc] at h
  split at h
  · rename_i hfind
    cases h
    exact ⟨rfl,bmFind_none hfind⟩
  · cases h

end Allocation

section Ownership

variable {sb : SuperBlock} {d d' : Disk} {v v' : ℕ → DiskInode} {i : ℕ}

theorem Owned.before (h : Owned sb d v) {c : ℕ} (hc : c < sb.nmeta) : bit sb d c=true := by
  have hle : sb.nmeta ≤ sb.size := Nat.sub_le ..
  exact (h.bits c (by omega)).mpr (.inl hc)

/-- A block that is held is not free. -/
theorem Owned.held (h : Owned sb d v) {p b : ℕ} (hp : Holds sb d v i p b) : bit sb d b=true :=
  (h.bits b (h.range hp).2).mpr (.inr ⟨i,p,hp⟩)

/-- The number at a position of an allocated inode. -/
theorem holds_of {p : ℕ} (hi : i < sb.ninodes) (hu : (v i).itype≠.empty) (hp : p < npos)
    (h : addrAt d (v i) p≠0) : Holds sb d v i p (addrAt d (v i) p) := ⟨hi,hu,hp,rfl,h⟩

/-- Inodes that hold the same own the same. -/
theorem Holds.congr {p b j : ℕ} (h : Holds sb d' v' j p b) (hu : (v j).itype=(v' j).itype)
    (ha : addrAt d' (v' j) p=addrAt d (v j) p) : Holds sb d v j p b :=
  ⟨h.inum,hu ▸ h.used,h.pos,ha ▸ h.addr,h.nonzero⟩

/-- The bitmap and the numbers that are held are all that counts. -/
theorem Owned.congr (h : Owned sb d v) (hbits : ∀ c,c < sb.size → bit sb d' c=bit sb d c)
    (hu : ∀ j,j < sb.ninodes → (v' j).itype=(v j).itype)
    (ha : ∀ j,j < sb.ninodes → (v j).itype≠.empty → ∀ p,p < npos →
      addrAt d' (v' j) p=addrAt d (v j) p) : Owned sb d' v' := by
  have hold : ∀ {j p b},Holds sb d' v' j p b → Holds sb d v j p b := fun {j p b} hj =>
    hj.congr (hu j hj.inum).symm (ha j hj.inum (hu j hj.inum ▸ hj.used) p hj.pos)
  have hnew : ∀ {j p b},Holds sb d v j p b → Holds sb d' v' j p b := fun {j p b} hj =>
    hj.congr (hu j hj.inum) (ha j hj.inum hj.used p hj.pos).symm
  refine ⟨fun hj => h.range (hold hj),fun hj hk => h.single (hold hj) (hold hk),fun c hc => ?_⟩
  rw [hbits c hc,h.bits c hc]
  exact or_congr Iff.rfl ⟨fun ⟨j,p,hj⟩ => ⟨j,p,hnew hj⟩,fun ⟨j,p,hj⟩ => ⟨j,p,hold hj⟩⟩

/-- An inode gets a block that was free. -/
theorem Owned.insert (h : Owned sb d v) {q b : ℕ} (hi : i < sb.ninodes)
    (hu : (v i).itype≠.empty) (hq : q < npos) (hzero : addrAt d (v i) q=0) (hlow : sb.nmeta ≤ b)
    (hb0 : b≠0) (hhigh : b < sb.size) (hfree : bit sb d b=false)
    (hbits : ∀ c,c < sb.size → bit sb d' c=if c=b then true else bit sb d c)
    (hv : ∀ j,(v' j).itype=(v j).itype)
    (hown : ∀ p,p < npos → addrAt d' (v' i) p=if p=q then b else addrAt d (v i) p)
    (hother : ∀ j,j≠i → j < sb.ninodes → (v j).itype≠.empty → ∀ p,p < npos →
      addrAt d' (v' j) p=addrAt d (v j) p) : Owned sb d' v' := by
  -- what is held afterwards is the new block or was held before
  have hold : ∀ {j p c},Holds sb d' v' j p c → (j=i ∧ p=q ∧ c=b) ∨ Holds sb d v j p c := by
    intro j p c hj
    by_cases hji : j=i
    · rw [hji] at hj ⊢
      have haddr := hown p hj.pos
      by_cases hpq : p=q
      · rw [if_pos hpq,hj.addr] at haddr
        exact .inl ⟨rfl,hpq,haddr⟩
      · rw [if_neg hpq] at haddr
        exact .inr (hj.congr (hv i).symm haddr)
    · exact .inr (hj.congr (hv j).symm (hother j hji hj.inum (hv j ▸ hj.used) p hj.pos))
  have hnew : ∀ {j p c},Holds sb d v j p c → Holds sb d' v' j p c := by
    intro j p c hj
    refine hj.congr (hv j) ?_
    by_cases hji : j=i
    · rw [hji] at hj ⊢
      have hpq : p≠q := by
        rintro rfl
        exact hj.nonzero (hj.addr.symm.trans hzero)
      rw [hown p hj.pos,if_neg hpq]
    · exact (hother j hji hj.inum hj.used p hj.pos).symm
  have hnot : ∀ {j p},¬Holds sb d v j p b := fun hj => by
    have := h.held hj
    rw [hfree] at this
    cases this
  have hself : Holds sb d' v' i q b :=
    ⟨hi,hv i ▸ hu,hq,by rw [hown q hq,if_pos rfl],hb0⟩
  refine ⟨fun hj => ?_,fun {j p k r c} hj hk => ?_,fun c hc => ?_⟩
  · obtain ⟨rfl,rfl,rfl⟩ | hj := hold hj
    · exact ⟨hlow,hhigh⟩
    · exact h.range hj
  · obtain ⟨rfl,rfl,rfl⟩ | hj := hold hj
    · obtain ⟨rfl,rfl,-⟩ | hk := hold hk
      · exact ⟨rfl,rfl⟩
      · exact absurd hk hnot
    · obtain ⟨rfl,rfl,rfl⟩ | hk := hold hk
      · exact absurd hj hnot
      · exact h.single hj hk
  · rw [hbits c hc]
    split
    · rename_i e
      rw [e]
      exact iff_of_true rfl (.inr ⟨i,q,hself⟩)
    · rename_i e
      rw [h.bits c hc]
      refine or_congr Iff.rfl ⟨fun ⟨j,p,hj⟩ => ⟨j,p,hnew hj⟩,fun ⟨j,p,hj⟩ => ⟨j,p,?_⟩⟩
      exact (hold hj).resolve_left fun h3 => e h3.2.2

/-- An inode gives all its blocks back. -/
theorem Owned.remove (h : Owned sb d v)
    (hbits : ∀ c,c < sb.size →
      (bit sb d' c=true ↔ bit sb d c=true ∧ ∀ p,¬Holds sb d v i p c))
    (hown : (v' i).itype≠.empty → ∀ p,p < npos → addrAt d' (v' i) p=0)
    (hv : ∀ j,j≠i → (v' j).itype=(v j).itype)
    (hother : ∀ j,j≠i → j < sb.ninodes → (v j).itype≠.empty → ∀ p,p < npos →
      addrAt d' (v' j) p=addrAt d (v j) p) : Owned sb d' v' := by
  have hold : ∀ {j p c},Holds sb d' v' j p c → j≠i ∧ Holds sb d v j p c := by
    intro j p c hj
    have hji : j≠i := by
      rintro rfl
      exact hj.nonzero (hj.addr.symm.trans (hown hj.used p hj.pos))
    exact ⟨hji,hj.congr (hv j hji).symm (hother j hji hj.inum (hv j hji ▸ hj.used) p hj.pos)⟩
  have hnew : ∀ {j p c},j≠i → Holds sb d v j p c → Holds sb d' v' j p c := fun {j p c} hji hj =>
    hj.congr (hv j hji) (hother j hji hj.inum hj.used p hj.pos).symm
  refine ⟨fun hj => h.range (hold hj).2,fun hj hk => h.single (hold hj).2 (hold hk).2,
    fun c hc => ?_⟩
  rw [hbits c hc,h.bits c hc]
  refine ⟨fun ⟨hc,hno⟩ => hc.imp_right fun ⟨j,p,hj⟩ => ⟨j,p,hnew ?_ hj⟩,fun hc => ⟨?_,fun p hp => ?_⟩⟩
  · rintro rfl
    exact hno p hj
  · exact hc.imp_right fun ⟨j,p,hj⟩ => ⟨j,p,(hold hj).2⟩
  · obtain hlow | ⟨j,q,hj⟩ := hc
    · have := (h.range hp).1
      omega
    · exact (hold hj).1 (h.single (hold hj).2 hp).1

end Ownership

section Growth

variable {sb : SuperBlock} {d d' d'' : Disk} {v : ℕ → DiskInode} {di di' di'' : DiskInode} {i : ℕ}

theorem withInode_self : withInode v i di i=di := Function.update_self ..

theorem withInode_of_ne {j : ℕ} (h : j≠i) : withInode v i di j=v j := Function.update_of_ne h ..

/-- An inode of no block is allocated. -/
theorem Owned.allocate (h : Owned sb d v) (hfree : (v i).itype=.empty) (hdi : ∀ p,addrAt d di p=0) :
    Owned sb d (withInode v i di) := by
  refine h.remove (i:=i) (fun c hc => ⟨fun hbit => ⟨hbit,fun p hp => hp.used hfree⟩,fun hc => hc.1⟩)
    (fun _ p _ => ?_) (fun j hj => ?_) fun j hj _ _ p _ => ?_
  · rw [withInode_self]
    exact hdi p
  · rw [withInode_of_ne hj]
  · rw [withInode_of_ne hj]

theorem Grows.refl (h : Owned sb d (withInode v i di)) : Grows sb v i d di d di :=
  ⟨h,rfl,fun _ _ _ => rfl,fun _ _ => rfl,fun _ _ _ _ _ _ => rfl⟩

theorem Grows.itype (h : Grows sb v i d di d' di') : di'.itype=di.itype := by
  have e := congrArg DiskInode.itype h.rest
  exact e

theorem Grows.size (h : Grows sb v i d di d' di') : di'.size=di.size := by
  have e := congrArg DiskInode.size h.rest
  exact e

theorem Grows.trans (h : Grows sb v i d di d' di') (h' : Grows sb v i d' di' d'' di'') :
    Grows sb v i d di d'' di'' := by
  refine ⟨h'.owned,?_,fun p hp hne => ?_,fun j hj => (h'.inodes j hj).trans (h.inodes j hj),
    fun j hne hj hu p hp => (h'.others j hne hj hu p hp).trans (h.others j hne hj hu p hp)⟩
  · rw [← h.rest,← h'.rest]
  · have e := h.kept p hp hne
    rw [← e,h'.kept p hp (e ▸ hne)]

theorem SameBytes.refl : SameBytes sb v i d di d di := fun _ _ _ _ _ => rfl

theorem SameBytes.trans (h : SameBytes sb v i d di d' di') (h' : SameBytes sb v i d' di' d'' di'')
    (hu : di'.itype=di.itype) : SameBytes sb v i d di d'' di'' := by
  intro j hj hne o ho
  refine (h' j hj ?_ o ho).trans (h j hj hne o ho)
  by_cases e : j=i
  · rw [e,withInode_self] at hne ⊢
    rw [hu]
    exact hne
  · rw [withInode_of_ne e] at hne ⊢
    exact hne

/-- A byte depends on the number of its block, and on that block. -/
theorem byteAt_congr {dj dj' : DiskInode} {o : ℕ}
    (haddr : addrAt d' dj' (posOf (o/bsize))=addrAt d dj (posOf (o/bsize)))
    (hblock : addrAt d dj (posOf (o/bsize))≠0 →
      d' (addrAt d dj (posOf (o/bsize)))=d (addrAt d dj (posOf (o/bsize)))) :
    byteAt d' dj' o=byteAt d dj o := by
  rw [byteAt,byteAt,haddr]
  split
  · rfl
  · rename_i hne
    rw [hblock hne]

theorem div_lt_of_lt_maxFileSize {o : ℕ} (h : o < maxFileSize) : o/bsize < ndirect+nindirect := by
  rw [maxFileSize] at h
  exact Nat.div_lt_of_lt_mul (by rw [Nat.mul_comm]; exact h)

/-- A block that is held is not the one that was free. -/
theorem Fresh.ne {b : ℕ} (hf : Fresh sb d b d') (h : Owned sb d v) {j p c : ℕ}
    (hj : Holds sb d v j p c) : c≠b := by
  rintro rfl
  have hbit := h.held hj
  rw [hf.free] at hbit
  cases hbit

/-- It keeps its contents. -/
theorem Fresh.apply {b : ℕ} (hf : Fresh sb d b d') (h : Owned sb d v) {j p c : ℕ}
    (hj : Holds sb d v j p c) : d' c=d c := by
  rw [hf.blocks c (h.range hj).1,if_neg (hf.ne h hj)]

/-- An inode holds its indirect block. -/
theorem holds_indirect {j : ℕ} (hj : j < sb.ninodes) (hu : (v j).itype≠.empty)
    (h : (v j).addr ndirect≠0) : Holds sb d v j ndirect ((v j).addr ndirect) :=
  ⟨hj,hu,by decide,addrAt_ndirect,h⟩

/-- A fresh block at a position of an inode. -/
theorem Grows.of_insert {q b : ℕ} (h : Owned sb d (withInode v i di)) (hi : i < sb.ninodes)
    (hu : di.itype≠.empty) (hq : q < npos) (hzero : addrAt d di q=0) {d₁ : Disk}
    (hf : Fresh sb d b d₁) (hb0 : b≠0) (hrest : {di' with addrs := di.addrs}=di)
    (hbits : ∀ c,c < sb.size → bit sb d' c=bit sb d₁ c)
    (hown : ∀ p,p < npos → addrAt d' di' p=if p=q then b else addrAt d di p)
    (hblocks : ∀ c,sb.nmeta ≤ c → c≠di.addr ndirect → d' c=d₁ c)
    (hinodes : ∀ j,j < sb.ninodes → inodeAt sb d' j=inodeAt sb d₁ j) :
    Grows sb v i d di d' di' ∧ SameBytes sb v i d di d' di' := by
  have hself : withInode v i di i=di := withInode_self
  have hu' : (withInode v i di i).itype≠.empty := by rwa [hself]
  have htype : di'.itype=di.itype := by
    have e := congrArg DiskInode.itype hrest
    exact e
  -- a block that another inode holds, or that holds contents, is as it was
  have hkeep : ∀ {j p c},Holds sb d (withInode v i di) j p c → (j≠i ∨ p≠ndirect) → d' c=d c := by
    intro j p c hj hne
    rw [hblocks c (h.range hj).1 ?_,hf.apply h hj]
    rintro rfl
    have hind := holds_indirect (d:=d) (v:=withInode v i di) hi hu' (by rw [hself]; exact hj.nonzero)
    rw [hself] at hind
    obtain ⟨hji,hp⟩ := h.single hj hind
    exact hne.elim (fun e => e hji) fun e => e hp
  have hother : ∀ j,j≠i → j < sb.ninodes → (v j).itype≠.empty → ∀ p,p < npos →
      addrAt d' (v j) p=addrAt d (v j) p := by
    intro j hji hj hju p hp
    refine addrAt_congr (fun hne => ?_) p
    have hjw : withInode v i di j=v j := withInode_of_ne hji
    have hind := holds_indirect (d:=d) (v:=withInode v i di) hj (by rwa [hjw]) (by rwa [hjw])
    rw [hjw] at hind
    exact hkeep hind (.inl hji)
  refine ⟨⟨?_,hrest,fun p hp hne => ?_,fun j hj => (hinodes j hj).trans (hf.inodes j hj),hother⟩,
    fun j hj hju o ho => ?_⟩
  · refine h.insert hi hu' hq (by rwa [hself]) hf.low hb0 hf.high hf.free
      (fun c hc => (hbits c hc).trans (hf.bits c hc)) (fun j => ?_) (fun p hp => ?_)
      fun j hji hj hju p hp => ?_
    · by_cases e : j=i
      · rw [e,withInode_self,withInode_self]
        exact htype
      · rw [withInode_of_ne e,withInode_of_ne e]
    · rw [withInode_self,withInode_self]
      exact hown p hp
    · rw [withInode_of_ne hji] at hju ⊢
      rw [withInode_of_ne hji]
      exact hother j hji hj hju p hp
  · have hpq : p≠q := by
      rintro rfl
      exact hne hzero
    rw [hown p hp,if_neg hpq]
  · have hpos := posOf_lt (div_lt_of_lt_maxFileSize ho)
    have hcell : addrAt d (withInode v i di j) (posOf (o/bsize))≠0 →
        d' (addrAt d (withInode v i di j) (posOf (o/bsize)))=
          d (addrAt d (withInode v i di j) (posOf (o/bsize))) := fun hne =>
      hkeep (holds_of hj hju hpos hne) (.inr posOf_ne)
    by_cases hji : j=i
    · rw [hji] at hcell ⊢
      rw [withInode_self] at hcell ⊢
      rw [withInode_self]
      by_cases hpq : posOf (o/bsize)=q
      · have hnew : addrAt d' di' (posOf (o/bsize))=b := by rw [hown _ hpos,if_pos hpq]
        have hnind : b≠di.addr ndirect := by
          rintro rfl
          have hind := holds_indirect (d:=d) (v:=withInode v i di) hi hu' (by rw [hself]; exact hb0)
          rw [hself] at hind
          exact hf.ne h hind rfl
        rw [byteAt,byteAt,hnew,if_neg hb0,hpq,if_pos hzero,hblocks b hf.low hnind,
          hf.blocks b hf.low,if_pos rfl]
      · refine byteAt_congr ?_ hcell
        rw [hown _ hpos,if_neg hpq]
    · rw [withInode_of_ne hji] at hju hcell ⊢
      rw [withInode_of_ne hji]
      exact byteAt_congr (hother j hji hj hju _ hpos) hcell

/-- A fresh direct or indirect block. -/
theorem grows_setAddr {q b : ℕ} (g : sb.Geometry) (h : Owned sb d (withInode v i di))
    (hi : i < sb.ninodes) (hu : di.itype≠.empty) (hq : q≤ndirect) (hzero : di.addr q=0)
    (hf : Fresh sb d b d') :
    Grows sb v i d di d' (di.setAddr q b) ∧ SameBytes sb v i d di d' (di.setAddr q b) := by
  have hq13 : q<13 := by
    rw [ndirect] at hq
    omega
  have hwidth : b<256^4 := hf.high.trans g.width
  have hlow := hf.low
  have hboot := g.boot
  have hb0 : b≠0 := by omega
  have haddr : ∀ p,(di.setAddr q b).addr p=if p=q then b else di.addr p := fun p =>
    di.addr_setAddr hwidth hq13
  have hpos : q < npos := by
    rw [npos]
    omega
  refine Grows.of_insert h hi hu hpos (by rwa [addrAt_direct hq]) hf hb0 rfl
    (fun _ _ => rfl) (fun p hp => ?_) (fun _ _ _ => rfl) fun _ _ => rfl
  by_cases hpd : p≤ndirect
  · rw [addrAt_direct hpd,addrAt_direct hpd,haddr]
  · have hlt : ndirect < p := not_le.mp hpd
    rw [if_neg (by omega)]
    by_cases hqi : q=ndirect
    · rw [hqi] at hzero haddr
      rw [addrAt_none hlt hzero,hqi,addrAt_entry hlt (by rw [haddr,if_pos rfl]; exact hb0),haddr,
        if_pos rfl,hf.blocks b hlow,if_pos rfl,word_zero]
    · have hind : (di.setAddr q b).addr ndirect=di.addr ndirect := by
        rw [haddr,if_neg (Ne.symm hqi)]
      rw [addrAt,addrAt,if_neg hpd,if_neg hpd,hind]
      split
      · rfl
      · rename_i hne
        have hself : withInode v i di i=di := withInode_self
        have hh := holds_indirect (d:=d) (v:=withInode v i di) hi (by rwa [hself]) (by rwa [hself])
        rw [hself] at hh
        rw [hf.apply h hh]

/-- A fresh block in the indirect block. -/
theorem grows_putWord {q b : ℕ} (g : sb.Geometry) (h : Owned sb d (withInode v i di))
    (hi : i < sb.ninodes) (hu : di.itype≠.empty) (hq : q < npos) (hqi : ndirect < q)
    (hzero : addrAt d di q=0) (hind : di.addr ndirect≠0) (hf : Fresh sb d b d') :
    Grows sb v i d di (Function.update d' (di.addr ndirect)
        (putWord (d' (di.addr ndirect)) (q-ndirect-1) b)) di ∧
      SameBytes sb v i d di (Function.update d' (di.addr ndirect)
        (putWord (d' (di.addr ndirect)) (q-ndirect-1) b)) di := by
  have hself : withInode v i di i=di := withInode_self
  have hh := holds_indirect (d:=d) (v:=withInode v i di) hi (by rwa [hself]) (by rwa [hself])
  rw [hself] at hh
  have hlow := (h.range hh).1
  have hboot := g.boot
  have hblow := hf.low
  refine Grows.of_insert h hi hu hq hzero hf (by omega) rfl
    (fun c hc => bit_update _ g hc hlow _) (fun p hp => ?_)
    (fun c _ hne => Function.update_of_ne hne ..) fun j hj => inodeAt_update _ g hj hlow _
  by_cases hpd : p≤ndirect
  · rw [addrAt_direct hpd,addrAt_direct hpd,if_neg (by omega)]
  · have hlt : ndirect < p := not_le.mp hpd
    rw [addrAt_entry hlt hind,addrAt_entry hlt hind,Function.update_self,
      word_putWord _ (hf.high.trans g.width),hf.apply h hh]
    have hiff : p-ndirect-1=q-ndirect-1 ↔ p=q := by omega
    simp only [hiff]

/-- The end of `map_blockno`, at an entry of the indirect block. -/
def mapEntry (sb : SuperBlock) (d : Disk) (di : DiskInode) (indirect k : ℕ) :
    Except Stop (ℕ×Disk×DiskInode) :=
  if word (d indirect) k=0 then
    match bmAlloc sb d with
    | .error e => .error e
    | .ok (free,d) => .ok (free,Function.update d indirect (putWord (d indirect) k free),di)
  else .ok (word (d indirect) k,d,di)

/-- `map_blockno`, branch by branch. -/
theorem mapBlockno_eq (sb : SuperBlock) (d : Disk) (di : DiskInode) (bn : ℕ) :
    mapBlockno sb d di bn=
      if bn < ndirect then
        if di.addr bn=0 then
          match bmAlloc sb d with
          | .error e => .error e
          | .ok x => .ok (x.1,x.2,di.setAddr bn x.1)
        else .ok (di.addr bn,d,di)
      else if bn < ndirect+nindirect then
        if di.addr ndirect=0 then
          match bmAlloc sb d with
          | .error e => .error e
          | .ok x => mapEntry sb x.2 (di.setAddr ndirect x.1) x.1 (bn-ndirect)
        else mapEntry sb d di (di.addr ndirect) (bn-ndirect)
      else .error .blockRange := by
  have hentry : ∀ (d : Disk) (di : DiskInode) (indirect : ℕ),
      (if word (d indirect) (bn-ndirect)=0 then bmAlloc sb d >>= fun x => pure
        (x.1,Function.update x.2 indirect (putWord (x.2 indirect) (bn-ndirect) x.1),di)
      else return (word (d indirect) (bn-ndirect),d,di))=mapEntry sb d di indirect (bn-ndirect) := by
    intro d di indirect
    rw [mapEntry]
    split
    · cases bmAlloc sb d <;> rfl
    · rfl
  rw [mapBlockno]
  split
  · split
    · cases bmAlloc sb d <;> rfl
    · rfl
  · split
    · split
      · cases bmAlloc sb d with
        | error e => rfl
        | ok x => exact hentry x.2 _ x.1
      · exact hentry d di _
    · rfl

/-- `map_blockno` for a block that has a number changes nothing. -/
theorem mapBlockno_mapped {bn : ℕ} (hbn : bn < ndirect+nindirect)
    (h : addrAt d di (posOf bn)≠0) : mapBlockno sb d di bn=.ok (addrAt d di (posOf bn),d,di) := by
  rw [mapBlockno_eq]
  split
  · rename_i hlt
    have hpos : posOf bn=bn := if_pos hlt
    rw [hpos,addrAt_direct (le_of_lt hlt)] at h ⊢
    rw [if_neg h]
  · rename_i hge
    have hpos : posOf bn=bn+1 := if_neg hge
    have hlt : ndirect<bn+1 := by omega
    have hind := indirect_of_entry (by rw [hpos]; exact hlt) h
    have e : bn+1-ndirect-1=bn-ndirect := by omega
    rw [hpos,addrAt_entry hlt hind,e] at h ⊢
    rw [if_neg hind,mapEntry,if_neg h]

/-- An entry of the indirect block is filled. -/
theorem mapEntry_grows {bn b : ℕ} (g : sb.Geometry) (h : Owned sb d (withInode v i di))
    (hi : i < sb.ninodes) (hu : di.itype≠.empty) (hbn : bn < ndirect+nindirect)
    (hge : ndirect ≤ bn) (hind : di.addr ndirect≠0)
    (hzero : addrAt d di (posOf bn)=0)
    (hok : mapEntry sb d di (di.addr ndirect) (bn-ndirect)=.ok (b,d',di')) :
    Grows sb v i d di d' di' ∧ SameBytes sb v i d di d' di' ∧ addrAt d' di' (posOf bn)=b ∧ b≠0 := by
  have hpos : posOf bn=bn+1 := if_neg (by omega)
  have hlt : ndirect<bn+1 := by omega
  have e : bn+1-ndirect-1=bn-ndirect := by omega
  have hzero' := hzero
  rw [hpos,addrAt_entry hlt hind,e] at hzero'
  rw [mapEntry,if_pos hzero'] at hok
  split at hok
  · cases hok
  · rename_i free d₁ hfree
    have hf := bmAlloc_fresh g (fun c => h.before) hfree
    have hq : bn+1 < npos := hpos ▸ posOf_lt hbn
    obtain ⟨hgrow,hbytes⟩ := grows_putWord g h hi hu hq hlt (hpos ▸ hzero) hind hf
    rw [e] at hgrow hbytes
    cases hok
    have hlow := hf.low
    have hboot := g.boot
    refine ⟨hgrow,hbytes,?_,by omega⟩
    rw [hpos,addrAt_entry hlt hind,e,Function.update_self,word_putWord _ (hf.high.trans g.width),
      if_pos rfl]

/-- `map_blockno` gives the block a number and adds no other to the contents. -/
theorem mapBlockno_grows {bn b : ℕ} (g : sb.Geometry) (h : Owned sb d (withInode v i di))
    (hi : i < sb.ninodes) (hu : di.itype≠.empty)
    (hok : mapBlockno sb d di bn=.ok (b,d',di')) :
    Grows sb v i d di d' di' ∧ SameBytes sb v i d di d' di' ∧ bn < ndirect+nindirect ∧
      addrAt d' di' (posOf bn)=b ∧ b≠0 := by
  have hboot := g.boot
  by_cases hbn : bn < ndirect+nindirect
  · by_cases hmapped : addrAt d di (posOf bn)≠0
    · rw [mapBlockno_mapped hbn hmapped] at hok
      cases hok
      exact ⟨.refl h,.refl,hbn,rfl,hmapped⟩
    · have hzero := not_not.mp hmapped
      rw [mapBlockno_eq] at hok
      split at hok
      · rename_i hlt
        have hpos : posOf bn=bn := if_pos hlt
        rw [hpos,addrAt_direct (le_of_lt hlt)] at hzero
        rw [if_pos hzero] at hok
        split at hok
        · cases hok
        · rename_i x hfree
          obtain ⟨free,d₁⟩ := x
          have hf := bmAlloc_fresh g (fun c => h.before) hfree
          obtain ⟨hgrow,hbytes⟩ := grows_setAddr g h hi hu (le_of_lt hlt) hzero hf
          have hlow := hf.low
          cases hok
          refine ⟨hgrow,hbytes,hbn,?_,by omega⟩
          rw [hpos,addrAt_direct (le_of_lt hlt),DiskInode.addr_setAddr _ (hf.high.trans g.width)
            (by rw [ndirect] at hlt; omega),if_pos rfl]
      · rename_i hge
        split at hok
        · rename_i hnone
          split at hok
          · cases hok
          · rename_i x hfree
            obtain ⟨free,d₁⟩ := x
            have hf := bmAlloc_fresh g (fun c => h.before) hfree
            obtain ⟨hgrow,hbytes⟩ := grows_setAddr g h hi hu le_rfl hnone hf
            have hlow := hf.low
            have hwidth := hf.high.trans g.width
            have hind : (di.setAddr ndirect free).addr ndirect=free := by
              rw [DiskInode.addr_setAddr _ hwidth (by decide),if_pos rfl]
            have hlt : ndirect<posOf bn := by
              rw [posOf,if_neg hge]
              omega
            -- the indirect block is new, and so it has no entries
            have hempty : addrAt d₁ (di.setAddr ndirect free) (posOf bn)=0 := by
              rw [addrAt_entry hlt (by rw [hind]; omega),hind,hf.blocks free hlow,if_pos rfl,
                word_zero]
            obtain ⟨hgrow',hbytes',hnum⟩ := mapEntry_grows g hgrow.owned hi
              (by rw [hgrow.itype]; exact hu) hbn (not_lt.mp hge) (by rw [hind]; omega) hempty
              (by rw [hind]; exact hok)
            exact ⟨hgrow.trans hgrow',hbytes.trans hbytes' hgrow.itype,hbn,hnum⟩
        · rename_i hind
          obtain ⟨hgrow,hbytes,hnum⟩ := mapEntry_grows g h hi hu hbn (not_lt.mp hge) hind hzero hok
          exact ⟨hgrow,hbytes,hbn,hnum⟩
  · rw [mapBlockno_eq,if_neg (by omega),if_neg hbn] at hok
    cases hok

/-- It stops for lack of a free block only. -/
theorem mapBlockno_error {bn : ℕ} {e : Stop} (hbn : bn < ndirect+nindirect)
    (herr : mapBlockno sb d di bn=.error e) : e=.noFreeBlock := by
  have hentry : ∀ {d : Disk} {di : DiskInode} {ind k : ℕ},mapEntry sb d di ind k=.error e →
      e=.noFreeBlock := by
    intro d di ind k h
    rw [mapEntry] at h
    split at h
    · split at h
      · rename_i hb
        cases h
        exact (bmAlloc_error hb).1
      · cases h
    · cases h
  rw [mapBlockno_eq] at herr
  split at herr
  · split at herr
    · split at herr
      · rename_i hb
        cases herr
        exact (bmAlloc_error hb).1
      · cases herr
    · cases herr
  · split at herr
    · split at herr
      · rename_i hb
        cases herr
        exact (bmAlloc_error hb).1
      · exact hentry herr
    · exact hentry herr

end Growth

/-- The number of free blocks. -/
def freeBlocks (sb : SuperBlock) (d : Disk) : ℕ :=
  ((Finset.range sb.size).filter fun c => bit sb d c=false).card

/-- The number of blocks that `map_blockno` has to allocate. -/
def mapCost (d : Disk) (di : DiskInode) (bn : ℕ) : ℕ :=
  (if addrAt d di (posOf bn)=0 then 1 else 0)+
    if ndirect ≤ bn ∧ di.addr ndirect=0 then 1 else 0

section Supply

variable {sb : SuperBlock} {d d' : Disk} {v : ℕ → DiskInode} {di di' : DiskInode} {i : ℕ}

/-- Only the bits count. -/
theorem freeBlocks_congr (h : ∀ c,c < sb.size → bit sb d' c=bit sb d c) :
    freeBlocks sb d'=freeBlocks sb d := by
  rw [freeBlocks,freeBlocks]
  refine congrArg Finset.card (Finset.filter_congr fun c hc => ?_)
  rw [h c (Finset.mem_range.mp hc)]

/-- A block that is given out is one less. -/
theorem Fresh.freeBlocks {b : ℕ} (h : Fresh sb d b d') :
    freeBlocks sb d'+1=freeBlocks sb d := by
  have hmem : b∈(Finset.range sb.size).filter fun c => bit sb d c=false :=
    Finset.mem_filter.mpr ⟨Finset.mem_range.mpr h.high,h.free⟩
  have herase : ((Finset.range sb.size).filter fun c => bit sb d' c=false)=
      ((Finset.range sb.size).filter fun c => bit sb d c=false).erase b := by
    ext c
    rw [Finset.mem_erase,Finset.mem_filter,Finset.mem_filter,Finset.mem_range]
    refine ⟨fun ⟨hc,hbit⟩ => ?_,fun ⟨hne,hc,hbit⟩ => ⟨hc,?_⟩⟩
    · rw [h.bits c hc] at hbit
      split at hbit
      · cases hbit
      · rename_i hne
        exact ⟨hne,hc,hbit⟩
    · rw [h.bits c hc,if_neg hne]
      exact hbit
  rw [BlockOwnership.freeBlocks,BlockOwnership.freeBlocks,herase]
  exact Finset.card_erase_add_one hmem

/-- `bm_alloc` returns if there is a free block. -/
theorem bmAlloc_ok (h : 0 < freeBlocks sb d) : ∃ b d',bmAlloc sb d=.ok (b,d') := by
  cases ha : bmAlloc sb d with
  | ok x => exact ⟨x.1,x.2,rfl⟩
  | error e =>
    obtain ⟨-,hfull⟩ := bmAlloc_error ha
    obtain ⟨c,hc⟩ := Finset.card_pos.mp h
    rw [Finset.mem_filter,Finset.mem_range] at hc
    rw [hfull c hc.1] at hc
    exact absurd hc.2 nofun

/-- `map_blockno` returns if there are enough free blocks, and takes no more than it needs. -/
theorem mapBlockno_ok {bn : ℕ} (g : sb.Geometry) (h : Owned sb d (withInode v i di))
    (hi : i < sb.ninodes) (hu : di.itype≠.empty) (hbn : bn < ndirect+nindirect)
    (hfree : mapCost d di bn ≤ freeBlocks sb d) :
    ∃ b d' di',mapBlockno sb d di bn=.ok (b,d',di') ∧
      freeBlocks sb d ≤ freeBlocks sb d'+mapCost d di bn := by
  by_cases hmapped : addrAt d di (posOf bn)≠0
  · exact ⟨_,d,di,mapBlockno_mapped hbn hmapped,by omega⟩
  · have hzero := not_not.mp hmapped
    by_cases hlt : bn < ndirect
    · have hpos : posOf bn=bn := if_pos hlt
      have hcost : mapCost d di bn=1 := by rw [mapCost,if_pos hzero,if_neg (by omega)]
      rw [hcost] at hfree ⊢
      rw [hpos,addrAt_direct (le_of_lt hlt)] at hzero
      obtain ⟨b,d',ha⟩ := @bmAlloc_ok sb d (by omega)
      have hcount := (bmAlloc_fresh g (fun c => h.before) ha).freeBlocks
      refine ⟨b,d',di.setAddr bn b,?_,by omega⟩
      rw [mapBlockno_eq,if_pos hlt,if_pos hzero,ha]
    · have hpos : posOf bn=bn+1 := if_neg hlt
      have hge : ndirect<bn+1 := by omega
      have e : bn+1-ndirect-1=bn-ndirect := by omega
      have hblock : ∀ {d₁ : Disk} {c : ℕ} (buf : Buffer),sb.nmeta ≤ c →
          freeBlocks sb (Function.update d₁ c buf)=freeBlocks sb d₁ := fun buf hc =>
        freeBlocks_congr fun c' hc' => bit_update _ g hc' hc buf
      by_cases hind : di.addr ndirect=0
      · have hcost : mapCost d di bn=2 := by
          rw [mapCost,if_pos hzero,if_pos ⟨not_lt.mp hlt,hind⟩]
        rw [hcost] at hfree ⊢
        obtain ⟨b,d₁,ha⟩ := @bmAlloc_ok sb d (by omega)
        have hf := bmAlloc_fresh g (fun c => h.before) ha
        have hcount := hf.freeBlocks
        obtain ⟨hgrow,-⟩ := grows_setAddr g h hi hu le_rfl hind hf
        obtain ⟨b',d₂,ha'⟩ := @bmAlloc_ok sb d₁ (by omega)
        have hcount' := (bmAlloc_fresh g (fun c => hgrow.owned.before) ha').freeBlocks
        have hnone : word (d₁ b) (bn-ndirect)=0 := by
          rw [hf.blocks b hf.low,if_pos rfl,word_zero]
        refine ⟨b',Function.update d₂ b (putWord (d₂ b) (bn-ndirect) b'),di.setAddr ndirect b,?_,?_⟩
        · rw [mapBlockno_eq,if_neg hlt,if_pos hbn,if_pos hind,ha]
          dsimp only
          rw [mapEntry,if_pos hnone,ha']
        · rw [hblock _ hf.low]
          omega
      · have hcost : mapCost d di bn=1 := by
          rw [mapCost,if_pos hzero,if_neg fun hc => hind hc.2]
        rw [hcost] at hfree ⊢
        rw [hpos,addrAt_entry hge hind,e] at hzero
        obtain ⟨b,d₁,ha⟩ := @bmAlloc_ok sb d (by omega)
        have hcount := (bmAlloc_fresh g (fun c => h.before) ha).freeBlocks
        have hself : withInode v i di i=di := withInode_self
        have hh := holds_indirect (d:=d) (v:=withInode v i di) hi (by rwa [hself]) (by rwa [hself])
        rw [hself] at hh
        refine ⟨b,Function.update d₁ (di.addr ndirect)
          (putWord (d₁ (di.addr ndirect)) (bn-ndirect) b),di,?_,?_⟩
        · rw [mapBlockno_eq,if_neg hlt,if_pos hbn,if_neg hind,mapEntry,if_pos hzero,ha]
        · rw [hblock _ (h.range hh).1]
          omega

end Supply

/-- Give blocks back, one after the other. -/
def freeAll (sb : SuperBlock) : List ℕ → Disk → Except Stop Disk
  | [],d => .ok d
  | b::bs,d =>
    match bmFree sb d b with
    | .error e => .error e
    | .ok d => freeAll sb bs d

/-- Blocks are free, and nothing else changes. -/
structure Freed (sb : SuperBlock) (d d' : Disk) (bs : List ℕ) : Prop where
  /-- The bits of the blocks are cleared. -/
  bits : ∀ c,c < sb.size → (bit sb d' c=true ↔ bit sb d c=true ∧ c∉bs)
  /-- Data blocks stay. -/
  blocks : ∀ c,sb.nmeta ≤ c → d' c=d c
  /-- Inodes stay. -/
  inodes : ∀ j,j < sb.ninodes → inodeAt sb d' j=inodeAt sb d j

section Truncation

variable {sb : SuperBlock} {d : Disk} {di : DiskInode} {i : ℕ}

theorem bmFree_ok {c : ℕ} (h : bit sb d c=true) : bmFree sb d c=.ok (setBitAt sb d c false) := by
  rw [bit] at h
  rw [bmFree,if_pos h]
  rfl

/-- Blocks that are in use, each taken once, can be given back. -/
theorem freeAll_ok (g : sb.Geometry) {bs : List ℕ} (hnodup : bs.Nodup)
    (hset : ∀ b∈bs,b < sb.size ∧ bit sb d b=true) :
    ∃ d',freeAll sb bs d=.ok d' ∧ Freed sb d d' bs := by
  induction bs generalizing d with
  | nil => exact ⟨d,rfl,fun c _ => by simp,fun _ _ => rfl,fun _ _ => rfl⟩
  | cons b bs ih =>
    obtain ⟨hsize,hbit⟩ := hset b (List.mem_cons_self ..)
    obtain ⟨hb,hnodup⟩ := List.nodup_cons.mp hnodup
    obtain ⟨d',hok,hf⟩ := ih (d:=setBitAt sb d b false) hnodup fun c hc => by
      obtain ⟨hcs,hcb⟩ := hset c (List.mem_cons_of_mem _ hc)
      have hne : c≠b := by
        rintro rfl
        exact hb hc
      rw [bit_setBitAt,if_neg hne]
      exact ⟨hcs,hcb⟩
    refine ⟨d',?_,fun c hc => ?_,fun c hc => ?_,fun j hj => ?_⟩
    · rw [freeAll,bmFree_ok hbit]
      exact hok
    · rw [hf.bits c hc,bit_setBitAt,List.mem_cons]
      by_cases e : c=b
      · simp [e]
      · simp [e]
    · rw [hf.blocks c hc,setBitAt_apply _ g hsize hc]
    · rw [hf.inodes j hj,inodeAt_setBitAt _ g hsize hj]

/-- Giving blocks back changes no data block. -/
theorem freeAll_blocks (g : sb.Geometry) {bs : List ℕ} {d' : Disk} (h : freeAll sb bs d=.ok d')
    (hbs : ∀ b∈bs,b < sb.size) {c : ℕ} (hc : sb.nmeta ≤ c) : d' c=d c := by
  induction bs generalizing d with
  | nil =>
    cases h
    rfl
  | cons b bs ih =>
    rw [freeAll] at h
    split at h
    · cases h
    · rename_i d₁ hfree
      rw [ih h fun b hb => hbs b (List.mem_cons_of_mem _ hb)]
      rw [bmFree] at hfree
      split at hfree
      · cases hfree
        have hblock := g.bitmap b (hbs b (List.mem_cons_self ..))
        exact Function.update_of_ne (by omega) ..
      · cases hfree

/-- What comes of a list of blocks can be had from its parts. -/
theorem freeAll_of_append {bs cs : List ℕ} {d' : Disk} (h : freeAll sb (bs++cs) d=.ok d') :
    ∃ d₁,freeAll sb bs d=.ok d₁ ∧ freeAll sb cs d₁=.ok d' := by
  induction bs generalizing d with
  | nil => exact ⟨d,rfl,h⟩
  | cons b bs ih =>
    rw [List.cons_append,freeAll] at h
    rw [freeAll]
    split at h
    · cases h
    · exact ih h

/-- The numbers other than zero in a list. -/
def numbers (bs : List ℕ) : List ℕ := bs.filter fun b => decide (b≠0)

theorem mem_numbers {bs : List ℕ} {b : ℕ} : b∈numbers bs ↔ b∈bs ∧ b≠0 := by
  rw [numbers,List.mem_filter,decide_eq_true_eq]

theorem numbers_cons_zero {bs : List ℕ} : numbers (0::bs)=numbers bs := rfl

theorem numbers_cons {bs : List ℕ} {b : ℕ} (h : b≠0) : numbers (b::bs)=b::numbers bs := by
  rw [numbers,List.filter_cons_of_pos (by simpa using h),← numbers]

/-- `truncate` gives the entries of the indirect block back. -/
theorem freeEntries_eq (buf : Buffer) (ks : List ℕ) (d : Disk) :
    freeEntries sb buf ks d=freeAll sb (numbers (ks.map (word buf))) d := by
  induction ks generalizing d with
  | nil => rfl
  | cons k ks ih =>
    rw [freeEntries,List.map_cons]
    by_cases h : word buf k=0
    · rw [if_neg (by omega),ih,h,numbers_cons_zero]
    · rw [if_pos (by omega),numbers_cons h,freeAll]
      cases bmFree sb d (word buf k) with
      | error e => rfl
      | ok d' => exact ih d'

theorem addr_setAddr_zero {p q : ℕ} (hp : p<13) : (di.setAddr p 0).addr q=if q=p then 0 else di.addr q :=
  di.addr_setAddr (by decide) hp

/-- `truncate` gives the direct blocks back and clears their numbers. -/
theorem freeDirect_ok {ps : List ℕ} {d' : Disk} (hnodup : ps.Nodup) (hps : ∀ p∈ps,p<13)
    (h : freeAll sb (numbers (ps.map di.addr)) d=.ok d') :
    ∃ di',freeDirect sb ps d di=.ok (d',di') ∧ {di' with addrs := di.addrs}=di ∧
      ∀ q,di'.addr q=if q∈ps then 0 else di.addr q := by
  induction ps generalizing d di with
  | nil =>
    cases h
    exact ⟨di,rfl,rfl,fun q => (if_neg (List.not_mem_nil)).symm⟩
  | cons p ps ih =>
    obtain ⟨hp,hnodup⟩ := List.nodup_cons.mp hnodup
    have hps' : ∀ q∈ps,q<13 := fun q hq => hps q (List.mem_cons_of_mem _ hq)
    rw [List.map_cons] at h
    rw [freeDirect]
    by_cases hzero : di.addr p=0
    · rw [hzero,numbers_cons_zero] at h
      rw [if_neg (by omega)]
      obtain ⟨di',hok,hrest,haddr⟩ := ih hnodup hps' h
      refine ⟨di',hok,hrest,fun q => ?_⟩
      rw [haddr q]
      by_cases hqp : q=p
      · rw [hqp,if_neg hp,if_pos (List.mem_cons_self ..),hzero]
      · simp [hqp]
    · rw [numbers_cons hzero,freeAll] at h
      rw [if_pos (by omega)]
      have hp13 := hps p (List.mem_cons_self ..)
      have hmap : ps.map (di.setAddr p 0).addr=ps.map di.addr := by
        refine List.map_congr_left fun q hq => ?_
        have hne : q≠p := by
          rintro rfl
          exact hp hq
        rw [addr_setAddr_zero hp13,if_neg hne]
      split at h
      · cases h
      · rename_i d₁ hfree
        rw [← hmap] at h
        obtain ⟨di',hok,hrest,haddr⟩ := ih hnodup hps' h
        refine ⟨di',?_,?_,fun q => ?_⟩
        · rw [hfree]
          exact hok
        · have e : {di' with addrs := di.addrs}={di.setAddr p 0 with addrs := di.addrs} := by
            rw [← hrest]
          exact e
        · rw [haddr q,addr_setAddr_zero hp13]
          by_cases hqp : q=p
          · simp [hqp]
          · simp [hqp]

/-- The positions in the order in which `truncate` goes through them. -/
def positions : List ℕ :=
  List.range ndirect++((List.range nindirect).map fun k => k+ndirect+1)++[ndirect]

theorem mem_positions {p : ℕ} : p∈positions ↔ p < npos := by
  rw [positions,npos,List.mem_append,List.mem_append,List.mem_range,List.mem_map,
    List.mem_singleton]
  constructor
  · rintro ((h | ⟨k,hk,rfl⟩) | rfl)
    · omega
    · rw [List.mem_range] at hk
      omega
    · omega
  · intro h
    by_cases hlt : p < ndirect
    · exact .inl (.inl hlt)
    · by_cases e : p=ndirect
      · exact .inr e
      · exact .inl (.inr ⟨p-ndirect-1,by rw [List.mem_range]; omega,by omega⟩)

theorem nodup_positions : positions.Nodup := by
  rw [positions,List.nodup_append,List.nodup_append]
  refine ⟨⟨List.nodup_range,?_,?_⟩,List.nodup_singleton _,?_⟩
  · exact List.nodup_range.map fun a b h => by omega
  · intro a ha b hb
    rw [List.mem_range] at ha
    obtain ⟨k,-,rfl⟩ := List.mem_map.mp hb
    omega
  · intro a ha b hb
    rw [List.mem_singleton] at hb
    rw [List.mem_append,List.mem_range,List.mem_map] at ha
    obtain ha | ⟨k,-,rfl⟩ := ha <;> omega

/-- Numbers that differ unless they are zero. -/
theorem nodup_numbers {f : ℕ → ℕ} {l : List ℕ} (hl : l.Nodup)
    (hf : ∀ p∈l,∀ q∈l,f p≠0 → f p=f q → p=q) : (numbers (l.map f)).Nodup := by
  induction l with
  | nil => exact List.nodup_nil
  | cons p l ih =>
    obtain ⟨hp,hl⟩ := List.nodup_cons.mp hl
    have hrest := ih hl fun q hq r hr =>
      hf q (List.mem_cons_of_mem _ hq) r (List.mem_cons_of_mem _ hr)
    rw [List.map_cons]
    by_cases h : f p=0
    · rwa [h,numbers_cons_zero]
    · rw [numbers_cons h]
      refine List.nodup_cons.mpr ⟨fun hmem => ?_,hrest⟩
      obtain ⟨q,hq,e⟩ := List.mem_map.mp (mem_numbers.mp hmem).1
      exact hp (hf p (List.mem_cons_self ..) q (List.mem_cons_of_mem _ hq) h e.symm ▸ hq)

theorem numbers_append (bs cs : List ℕ) : numbers (bs++cs)=numbers bs++numbers cs :=
  List.filter_append ..

/-- An inode that is truncated. -/
structure Truncated (di di' : DiskInode) : Prop where
  /-- It holds no block. -/
  addr : ∀ q,di'.addr q=0
  /-- It is empty. -/
  size : di'.size=0
  /-- The rest stays. -/
  rest : {di' with addrs := di.addrs,size := di.size}=di

theorem Truncated.addrAt {di' : DiskInode} (h : Truncated di di') (p : ℕ) : addrAt d di' p=0 := by
  rw [DiskLayout.addrAt]
  split
  · exact h.addr p
  · exact if_pos (h.addr ndirect)

/-- `truncate` after the direct blocks. -/
theorem truncate_eq (hi : i < sb.ninodes) {d₁ : Disk} {di₁ : DiskInode}
    (h : freeDirect sb (List.range ndirect) d di=.ok (d₁,di₁)) :
    truncate sb i d di=
      if di₁.addr ndirect=0 then
        .ok (putInodeAt sb d₁ i {di₁ with size := 0},{di₁ with size := 0})
      else
        match freeEntries sb (d₁ (di₁.addr ndirect)) (List.range nindirect) d₁ with
        | .error e => .error e
        | .ok d₂ =>
          match bmFree sb d₂ (di₁.addr ndirect) with
          | .error e => .error e
          | .ok d₃ => .ok (putInodeAt sb d₃ i {di₁.setAddr ndirect 0 with size := 0},
              {di₁.setAddr ndirect 0 with size := 0}) := by
  have hupdate : ∀ (d : Disk) (di : DiskInode),updateInode sb i d di=.ok (putInodeAt sb d i di) :=
    fun d di => if_neg (not_le.mpr hi)
  rw [truncate,h]
  simp only [bind,Except.bind,hupdate]
  by_cases hzero : di₁.addr ndirect=0
  · rw [if_pos hzero,if_neg (by omega)]
    rfl
  · rw [if_neg hzero,if_pos (by omega)]
    cases freeEntries sb (d₁ (di₁.addr ndirect)) (List.range nindirect) d₁ with
    | error e => rfl
    | ok d₂ =>
      dsimp only
      cases bmFree sb d₂ (di₁.addr ndirect) with
      | error e => rfl
      | ok d₃ => rfl

/-- `truncate` gives all blocks of an inode back. -/
theorem truncate_ok (g : sb.Geometry) (hi : i < sb.ninodes)
    (hset : ∀ p,p < npos → addrAt d di p≠0 →
      sb.nmeta ≤ addrAt d di p ∧ addrAt d di p < sb.size ∧ bit sb d (addrAt d di p)=true)
    (hinj : ∀ p q,p < npos → q < npos → addrAt d di p≠0 → addrAt d di p=addrAt d di q → p=q) :
    ∃ d' di',truncate sb i d di=.ok (putInodeAt sb d' i di',di') ∧ Truncated di di' ∧
      Freed sb d d' (numbers (positions.map (addrAt d di))) := by
  obtain ⟨d',hall,hfreed⟩ := @freeAll_ok _ _ g (numbers (positions.map (addrAt d di)))
    (nodup_numbers nodup_positions fun p hp q hq =>
      hinj p q (mem_positions.mp hp) (mem_positions.mp hq)) fun b hb => by
      obtain ⟨hb,hne⟩ := mem_numbers.mp hb
      obtain ⟨p,hp,rfl⟩ := List.mem_map.mp hb
      exact (hset p (mem_positions.mp hp) hne).2
  have hall' := hall
  rw [positions,List.map_append,List.map_append,numbers_append,numbers_append] at hall'
  obtain ⟨d₂,hall',hlast⟩ := freeAll_of_append hall'
  obtain ⟨d₁,hdirect,hentries⟩ := freeAll_of_append hall'
  have hmap : (List.range ndirect).map (addrAt d di)=(List.range ndirect).map di.addr :=
    List.map_congr_left fun p hp => addrAt_direct (le_of_lt (List.mem_range.mp hp))
  rw [hmap] at hdirect
  obtain ⟨di₁,hok,hrest,haddr⟩ := freeDirect_ok List.nodup_range
    (fun p hp => (List.mem_range.mp hp).trans (by decide)) hdirect
  have hind : di₁.addr ndirect=di.addr ndirect := by
    rw [haddr,if_neg (by rw [List.mem_range]; omega)]
  have hrange : ∀ b∈numbers ((List.range ndirect).map di.addr),b < sb.size := by
    intro b hb
    obtain ⟨hb,hne⟩ := mem_numbers.mp hb
    obtain ⟨p,hp,rfl⟩ := List.mem_map.mp hb
    rw [List.mem_range] at hp
    rw [← addrAt_direct (d:=d) (le_of_lt hp)] at hne ⊢
    exact (hset p (by rw [npos]; omega) hne).2.1
  have hcleared : ∀ q,q≠ndirect → di₁.addr q=0 := by
    intro q e
    rw [haddr]
    split
    · rfl
    · rename_i hq
      rw [List.mem_range] at hq
      rw [ndirect] at hq e
      exact dif_neg (by omega)
  by_cases hzero : di.addr ndirect=0
  · -- without an indirect block, what is left of the list is empty
    have hnone : numbers (((List.range nindirect).map fun k => k+ndirect+1).map (addrAt d di))=[] := by
      refine List.filter_eq_nil_iff.mpr fun b hb => ?_
      rw [List.map_map] at hb
      obtain ⟨k,-,rfl⟩ := List.mem_map.mp hb
      rw [Function.comp,addrAt_none (by omega) hzero]
      simp
    have hlast' : numbers ([ndirect].map (addrAt d di))=[] := by
      rw [List.map_singleton,addrAt_ndirect,hzero]
      rfl
    rw [hnone] at hentries
    rw [hlast'] at hlast
    cases hentries
    cases hlast
    refine ⟨d',{di₁ with size := 0},?_,⟨fun q => ?_,rfl,?_⟩,hfreed⟩
    · rw [truncate_eq hi hok,if_pos (hind.trans hzero)]
    · show di₁.addr q=0
      by_cases e : q=ndirect
      · rw [e,hind,hzero]
      · exact hcleared q e
    · rw [← hrest]
  · have hindsize := hset ndirect (by decide) (by rw [addrAt_ndirect]; exact hzero)
    rw [addrAt_ndirect] at hindsize
    have hmap' : ((List.range nindirect).map fun k => k+ndirect+1).map (addrAt d di)=
        (List.range nindirect).map (word (d (di.addr ndirect))) := by
      rw [List.map_map]
      refine List.map_congr_left fun k _ => ?_
      rw [Function.comp,addrAt_entry (by omega) hzero]
      have e : k+ndirect+1-ndirect-1=k := by omega
      rw [e]
    rw [hmap',← freeEntries_eq,← freeAll_blocks g hdirect hrange hindsize.1] at hentries
    have hlast' : numbers ([ndirect].map (addrAt d di))=[di.addr ndirect] := by
      rw [List.map_singleton,addrAt_ndirect,numbers_cons hzero]
      rfl
    rw [hlast',freeAll] at hlast
    split at hlast
    · cases hlast
    · rename_i d₃ hfree
      cases hlast
      refine ⟨d',{di₁.setAddr ndirect 0 with size := 0},?_,⟨fun q => ?_,rfl,?_⟩,hfreed⟩
      · rw [truncate_eq hi hok,if_neg (by rw [hind]; exact hzero),hind,hentries]
        dsimp only
        rw [hfree]
      · show (di₁.setAddr ndirect 0).addr q=0
        rw [addr_setAddr_zero (by decide)]
        split
        · rfl
        · rename_i e
          exact hcleared q e
      · rw [← hrest]
        rfl

/-- The numbers that an inode holds depend on its numbers only. -/
theorem addrAt_addrs {dj : DiskInode} (h : dj.addrs=di.addrs) (p : ℕ) :
    addrAt d dj p=addrAt d di p := by
  have e : dj.addr=di.addr := by
    funext q
    unfold DiskInode.addr
    rw [h]
  unfold addrAt
  rw [e]

/-- After `truncate`, blocks are owned as before by the other inodes. -/
theorem truncate_owned {v : ℕ → DiskInode} {dj : DiskInode} (g : sb.Geometry)
    (h : Owned sb d (withInode v i di)) (hi : i < sb.ninodes) (hu : di.itype≠.empty)
    (hdj : dj.addrs=di.addrs) :
    ∃ d' di',truncate sb i d dj=.ok (d',di') ∧ Truncated dj di' ∧
      Owned sb d' (withInode v i di') ∧ (∀ c,sb.nmeta ≤ c → d' c=d c) ∧
      ∀ j,j < sb.ninodes → inodeAt sb d' j=if j=i then di' else inodeAt sb d j := by
  have hself : withInode v i di i=di := withInode_self
  have hheld : ∀ p,p < npos → addrAt d dj p≠0 →
      Holds sb d (withInode v i di) i p (addrAt d dj p) := by
    intro p hp hne
    rw [addrAt_addrs hdj] at hne ⊢
    exact ⟨hi,by rwa [hself],hp,by rw [hself],hne⟩
  obtain ⟨d',di',hok,ht,hf⟩ := @truncate_ok _ d dj _ g hi
    (fun p hp hne => ⟨(h.range (hheld p hp hne)).1,(h.range (hheld p hp hne)).2,h.held (hheld p hp hne)⟩)
    fun p q hp hq hne e => (h.single (hheld p hp hne) (e ▸ hheld q hq (e ▸ hne))).2
  have hblocks : ∀ c,sb.nmeta ≤ c → putInodeAt sb d' i di' c=d c := fun c hc =>
    (putInodeAt_apply _ g hi hc _).trans (hf.blocks c hc)
  refine ⟨_,di',hok,ht,?_,hblocks,fun j hj => ?_⟩
  · refine h.remove (i:=i) (fun c hc => ?_) (fun _ p _ => ?_) (fun j hji => ?_)
      fun j hji hj hju p hp => ?_
    · rw [bit_putInodeAt _ g hc hi,hf.bits c hc]
      refine and_congr Iff.rfl (not_congr ?_ |>.trans not_exists)
      rw [mem_numbers,List.mem_map]
      constructor
      · rintro ⟨⟨p,hp,rfl⟩,hne⟩
        exact ⟨p,hheld p (mem_positions.mp hp) hne⟩
      · rintro ⟨p,hp⟩
        have haddr := hp.addr
        rw [hself,← addrAt_addrs hdj] at haddr
        exact ⟨⟨p,mem_positions.mpr hp.pos,haddr⟩,hp.nonzero⟩
    · rw [withInode_self]
      exact ht.addrAt p
    · rw [withInode_of_ne hji,withInode_of_ne hji]
    · rw [withInode_of_ne hji] at hju ⊢
      rw [withInode_of_ne hji]
      refine addrAt_congr (fun hne => ?_) p
      have hjw : withInode v i di j=v j := withInode_of_ne hji
      have hind := holds_indirect (d:=d) (v:=withInode v i di) hj (by rwa [hjw]) (by rwa [hjw])
      rw [hjw] at hind
      exact hblocks _ (h.range hind).1
  · rw [inodeAt_putInodeAt]
    split
    · rfl
    · exact hf.inodes j hj

end Truncation

end Xv6Rust.BlockOwnership
