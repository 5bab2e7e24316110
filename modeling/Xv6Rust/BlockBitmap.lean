import Xv6Rust.BlockOwnership

/-!
# The block bitmap

`bm_alloc` and `bm_free` of `fs/block.rs` with their loops and their 32-bit arithmetic.
`bm_alloc` reaches a bit by a running base and an offset, `bm_free` by division and
remainder. The free block is zeroed after its bit is set, so a bitmap in which one of
its own blocks is marked free loses what it holds when that block is found.
-/

namespace Xv6Rust.BlockBitmap

open Bytes DiskLayout BlockOwnership

/-- The ways to stop. -/
inductive Panic where
  /-- `bitmap: cannot alloc any free block`. -/
  | noFreeBlock
  /-- `bitmap: double freeing a block`. -/
  | doubleFree
  /-- A sum of two `u32` does not fit. -/
  | overflow
  deriving DecidableEq

/-- The result of an addition of `u32`. -/
def checked (n : ℕ) : Except Panic ℕ := if n<2^32 then .ok n else .error .overflow

section Functions

variable (sb : SuperBlock) (d : Disk)

/-- `bitmap_blockno`. -/
def bitmapBlockno (blockno : ℕ) : Except Panic ℕ := checked (blockno/bpb+sb.bmapstart)

/-- The loop of `bm_alloc` over the offsets of a bitmap block. -/
def scanBlock (buf : Buffer) (base : ℕ) : List ℕ → Except Panic (Option ℕ)
  | [] => .ok none
  | offset::offsets => do
    let b ← checked (base+offset)
    if b≥sb.size then .ok none
    else if getBit buf offset=true then scanBlock buf base offsets
    else .ok (some offset)

/-- The loop of `bm_alloc` over the first blocks of the bitmap blocks. -/
def allocLoop : List ℕ → Except Panic (ℕ×Disk)
  | [] => .error .noFreeBlock
  | base::bases => do
    let bm ← bitmapBlockno sb base
    match ← scanBlock sb (d bm) base (List.range bpb) with
    | none => allocLoop bases
    | some offset =>
      let d := Function.update d bm (setBit (d bm) offset true)
      .ok (base+offset,Function.update d (base+offset) fun _ => 0)

/-- `bm_alloc`. -/
def bmAlloc : Except Panic (ℕ×Disk) :=
  allocLoop sb d ((List.range ((sb.size+bpb-1)/bpb)).map fun k => k*bpb)

/-- `bm_free`. -/
def bmFree (blockno : ℕ) : Except Panic Disk := do
  let bm ← bitmapBlockno sb blockno
  let offset := blockno%bpb
  if getBit (d bm) offset=true then .ok (Function.update d bm (setBit (d bm) offset false))
  else .error .doubleFree

end Functions

/-- The size and the numbers of the bitmap's own blocks are 32-bit numbers. -/
structure Fits (sb : SuperBlock) : Prop where
  /-- The size. -/
  size : sb.size<2^32
  /-- The bitmap's blocks. -/
  bitmap : ∀ b < sb.size,sb.bitmapBlockno b<2^32

/-- One of the bitmap's own blocks. -/
def OwnBlock (sb : SuperBlock) (b : ℕ) : Prop := ∃ c < sb.size,sb.bitmapBlockno c=b

/-- The bit of a block and nothing else of a disk has a new value, but for the contents of
the blocks named. -/
structure OnlyBit (sb : SuperBlock) (d d' : Disk) (b : ℕ) (value : Bool) (but : Set ℕ) : Prop where
  /-- Its own bit. -/
  own : bit sb d' b=value
  /-- The other bits of its bitmap block. -/
  others : ∀ j,j≠b%bpb →
    getBit (d' (sb.bitmapBlockno b)) j=getBit (d (sb.bitmapBlockno b)) j
  /-- The other blocks. -/
  blocks : ∀ c,c≠sb.bitmapBlockno b → c∉but → d' c=d c

section Bits

/-- A byte array is given by its bits. -/
theorem eq_of_getBit {a b : Buffer} (h : ∀ j,getBit a j=getBit b j) : a=b := by
  funext i
  refine UInt8.toBitVec_inj.mp (BitVec.eq_of_getLsbD_eq fun j hj => ?_)
  have hbit := h (8*i+j)
  rw [getBit,getBit,show (8*i+j)/8=i by omega,show (8*i+j)%8=j by omega] at hbit
  exact hbit

/-- Clearing a bit that was set from clear gives the array back. -/
theorem setBit_restore {a : Buffer} {i : ℕ} (h : getBit a i=false) :
    setBit (setBit a i true) i false=a := by
  refine eq_of_getBit fun j => ?_
  rw [getBit_setBit,getBit_setBit]
  by_cases e : j=i
  · rw [if_pos e,e,h]
  · rw [if_neg e,if_neg e]

end Bits

section Alloc

variable {sb : SuperBlock} {d : Disk}

theorem bpb_eq : bpb=8192 := by decide

theorem checked_of_lt {n : ℕ} (h : n<2^32) : checked n=.ok n := if_pos h

/-- The first blocks of the bitmap blocks and the offsets are below 2^32 together. -/
theorem Fits.sum_lt (h : Fits sb) {k offset : ℕ} (hk : k*bpb < sb.size) (ho : offset<bpb) :
    k*bpb+offset<2^32 := by
  have hlt : k*bpb < 2^19*bpb := (hk.trans h.size).trans_le (by decide)
  have hle := Nat.mul_le_mul_right bpb (Nat.succ_le_of_lt (Nat.lt_of_mul_lt_mul_right hlt))
  have hall : 2^19*bpb=2^32 := by decide
  rw [Nat.succ_mul,hall] at hle
  exact (Nat.add_lt_add_left ho _).trans_le hle

/-- The scan of a bitmap block from an offset on finds the lowest clear bit. -/
theorem scanBlock_spec (h : Fits sb) {buf : Buffer} {k : ℕ} (hk : k*bpb < sb.size) (m o : ℕ)
    (hm : o+m≤bpb) :
    (scanBlock sb buf (k*bpb) (List.range' o m)=.ok none ∧
      ∀ j,o≤j → j<o+m → k*bpb+j < sb.size → getBit buf j=true) ∨
    ∃ j,scanBlock sb buf (k*bpb) (List.range' o m)=.ok (some j) ∧ j<bpb ∧ k*bpb+j < sb.size ∧
      getBit buf j=false ∧ ∀ i,o ≤ i → i<j → getBit buf i=true := by
  induction m generalizing o with
  | zero => exact .inl ⟨rfl,fun j h1 h2 => by omega⟩
  | succ m ih =>
    rw [List.range'_succ,scanBlock,checked_of_lt (h.sum_lt hk (by omega))]
    dsimp only [bind,Except.bind]
    by_cases hend : k*bpb+o≥sb.size
    · rw [if_pos hend]
      exact .inl ⟨rfl,fun j h1 h2 h3 => by omega⟩
    · rw [if_neg hend]
      by_cases hbit : getBit buf o=true
      · rw [if_pos hbit]
        have hstep : ∀ i,o+1 ≤ i ∨ i=o → (o+1 ≤ i → getBit buf i=true) → getBit buf i=true := by
          intro i hi hlater
          rcases hi with hi|hi
          · exact hlater hi
          · rw [hi]
            exact hbit
        rcases ih (o+1) (by omega) with ⟨h1,h2⟩|⟨j,h1,h2,h3,h4,h5⟩
        · refine .inl ⟨h1,fun i hi hi' hlt => hstep i (by omega) fun hi'' => ?_⟩
          exact h2 i hi'' (by omega) hlt
        · refine .inr ⟨j,h1,h2,h3,h4,fun i hi hlt => hstep i (by omega) fun hi'' => ?_⟩
          exact h5 i hi'' hlt
      · rw [if_neg hbit]
        exact .inr ⟨o,rfl,by omega,by omega,by simpa using hbit,fun i h1 h2 => by omega⟩

/-- The disk after a block is allocated. -/
def allocated (sb : SuperBlock) (d : Disk) (b : ℕ) : Disk :=
  Function.update (setBitAt sb d b true) b fun _ => 0

/-- The loop over the bitmap blocks from one on finds the lowest clear bit. -/
theorem allocLoop_spec (h : Fits sb) (m k : ℕ) (hm : k+m≤(sb.size+bpb-1)/bpb) :
    (allocLoop sb d ((List.range' k m).map fun k => k*bpb)=.error .noFreeBlock ∧
      ∀ c,k*bpb ≤ c → c<(k+m)*bpb → c < sb.size → bit sb d c=true) ∨
    ∃ b,allocLoop sb d ((List.range' k m).map fun k => k*bpb)=.ok (b,allocated sb d b) ∧
      b < sb.size ∧ bit sb d b=false ∧ ∀ c,k*bpb ≤ c → c<b → bit sb d c=true := by
  induction m generalizing k with
  | zero => exact .inl ⟨rfl,fun c h1 h2 => absurd h2 (not_lt.mpr h1)⟩
  | succ m ih =>
    have hbase : k*bpb < sb.size := by
      have hle : (k+1)*bpb ≤ sb.size+bpb-1 :=
        (Nat.le_div_iff_mul_le (by decide)).mp (by omega)
      rw [bpb_eq] at hle ⊢
      omega
    have hown := h.bitmap _ hbase
    rw [SuperBlock.bitmapBlockno] at hown
    rw [List.range'_succ,List.map_cons,allocLoop,bitmapBlockno,checked_of_lt hown]
    dsimp only [bind,Except.bind]
    have hrow : (k+1)*bpb=k*bpb+bpb := Nat.succ_mul k bpb
    have hbits : ∀ j<bpb,bit sb d (k*bpb+j)=getBit (d (k*bpb/bpb+sb.bmapstart)) j := by
      intro j hj
      obtain ⟨hblock,hoff⟩ := @bitmapBlockno_add sb k j hj
      rw [bit,hblock,hoff,SuperBlock.bitmapBlockno]
    rw [List.range_eq_range']
    rcases scanBlock_spec h hbase bpb 0 (by omega) with ⟨h1,h2⟩|⟨j,h1,hj,hlt,hfree,hlow⟩
    · rw [h1]
      dsimp only
      have hfull : ∀ c,k*bpb ≤ c → c<(k+1)*bpb → c < sb.size → bit sb d c=true := by
        intro c hc hc' hlt
        obtain ⟨j,rfl⟩ := Nat.exists_eq_add_of_le hc
        rw [hbits j (by omega)]
        exact h2 j (Nat.zero_le j) (by omega) hlt
      rcases ih (k+1) (by omega) with ⟨h3,h4⟩|⟨b,h3,h4,h5,h6⟩
      · refine .inl ⟨h3,fun c hc hc' hlt => ?_⟩
        by_cases hlow : c<(k+1)*bpb
        · exact hfull c hc hlow hlt
        · exact h4 c (not_lt.mp hlow) (by rwa [Nat.add_assoc,Nat.add_comm 1 m]) hlt
      · refine .inr ⟨b,h3,h4,h5,fun c hc hlt => ?_⟩
        by_cases hlow : c<(k+1)*bpb
        · exact hfull c hc hlow (by omega)
        · exact h6 c (not_lt.mp hlow) hlt
    · rw [h1]
      refine .inr ⟨k*bpb+j,?_,hlt,?_,?_⟩
      · obtain ⟨hblock,hoff⟩ := @bitmapBlockno_add sb k j hj
        rw [allocated,setBitAt,hblock,hoff]
        rfl
      · rw [hbits j hj]
        exact hfree
      · intro c hc hlt'
        obtain ⟨i,rfl⟩ := Nat.exists_eq_add_of_le hc
        rw [hbits i (by omega)]
        exact hlow i (Nat.zero_le i) (by omega)

/-- `bm_alloc` finds the lowest block whose bit is clear, and stops only if there is none. -/
theorem bmAlloc_spec (h : Fits sb) :
    (bmAlloc sb d=.error .noFreeBlock ∧ ∀ c < sb.size,bit sb d c=true) ∨
    ∃ b,bmAlloc sb d=.ok (b,allocated sb d b) ∧ b < sb.size ∧ bit sb d b=false ∧
      ∀ c<b,bit sb d c=true := by
  rw [bmAlloc,List.range_eq_range']
  rcases allocLoop_spec (d:=d) h ((sb.size+bpb-1)/bpb) 0 (by omega) with ⟨h1,h2⟩|⟨b,h1,h2,h3,h4⟩
  · refine .inl ⟨h1,fun c hc => h2 c (by omega) ?_ hc⟩
    have hdiv := Nat.div_add_mod (sb.size+bpb-1) bpb
    have hmod := Nat.mod_lt (sb.size+bpb-1) (show 0<bpb by decide)
    rw [Nat.zero_add,Nat.mul_comm]
    omega
  · exact .inr ⟨b,h1,h2,h3,fun c hc => h4 c (by omega) hc⟩

/-- The lowest block whose bit is clear is the one that is found. -/
theorem bmAlloc_lowest (h : Fits sb) {b : ℕ} (hlt : b < sb.size) (hfree : bit sb d b=false)
    (hlow : ∀ c<b,bit sb d c=true) : bmAlloc sb d=.ok (b,allocated sb d b) := by
  rcases bmAlloc_spec (d:=d) h with ⟨-,hfull⟩|⟨c,hc,-,hfree',hlow'⟩
  · rw [hfull b hlt] at hfree
    cases hfree
  · rcases Nat.lt_trichotomy c b with h1|h1|h1
    · rw [hlow c h1] at hfree'
      cases hfree'
    · rw [hc,h1]
    · rw [hlow' b h1] at hfree
      cases hfree

/-- Setting or clearing the bit of a block changes nothing else. -/
theorem setBitAt_onlyBit (b : ℕ) (value : Bool) :
    OnlyBit sb d (setBitAt sb d b value) b value ∅ := by
  constructor
  · rw [bit_setBitAt,if_pos rfl]
  · intro j hj
    rw [setBitAt,Function.update_self,getBit_setBit,if_neg hj]
  · intro c hc _
    rw [setBitAt,Function.update_of_ne hc]

/-- An allocation changes the bit and the block, unless the block is one of the bitmap. -/
theorem allocated_onlyBit {b : ℕ} (hown : sb.bitmapBlockno b≠b) :
    OnlyBit sb d (allocated sb d b) b true {b} := by
  have hset := @setBitAt_onlyBit sb d b true
  have hsame : ∀ c,c≠b → allocated sb d b c=setBitAt sb d b true c := fun c hc =>
    Function.update_of_ne hc _ _
  constructor
  · rw [bit,hsame _ hown]
    exact hset.own
  · intro j hj
    rw [hsame _ hown]
    exact hset.others j hj
  · intro c hc hne
    rw [hsame c hne]
    exact hset.blocks c hc (Set.notMem_empty c)

/-- `bm_free` of a block whose bit is set clears the bit. -/
theorem bmFree_eq {b : ℕ} (hlt : sb.bitmapBlockno b<2^32) (hbit : bit sb d b=true) :
    bmFree sb d b=.ok (setBitAt sb d b false) := by
  rw [SuperBlock.bitmapBlockno] at hlt
  rw [bit,SuperBlock.bitmapBlockno] at hbit
  rw [bmFree,bitmapBlockno,checked_of_lt hlt]
  dsimp only [bind,Except.bind]
  rw [if_pos hbit]
  rfl

/-- Freeing a block that was just allocated gives back every block but its own. -/
theorem bmFree_allocated {b : ℕ} (hlt : sb.bitmapBlockno b<2^32) (hown : sb.bitmapBlockno b≠b)
    (hfree : bit sb d b=false) :
    ∃ d',bmFree sb (allocated sb d b) b=.ok d' ∧ ∀ c,c≠b → d' c=d c := by
  have hset := @allocated_onlyBit sb d b hown
  refine ⟨_,bmFree_eq hlt hset.own,fun c hc => ?_⟩
  by_cases e : c=sb.bitmapBlockno b
  · rw [e,setBitAt,Function.update_self,allocated,Function.update_of_ne hown,setBitAt,
      Function.update_self]
    exact setBit_restore hfree
  · rw [setBitAt,Function.update_of_ne e]
    exact hset.blocks c e hc

end Alloc

section Layer

variable {sb : SuperBlock} {d : Disk}

/-- A search over the numbers below a bound finds the first that has a result. -/
theorem findSome?_range {α : Type} {f : ℕ → Option α} {n : ℕ} {x : α}
    (h : (List.range n).findSome? f=some x) : ∃ k<n,f k=some x ∧ ∀ j<k,f j=none := by
  induction n with
  | zero => cases h
  | succ n ih =>
    rw [List.range_succ,List.findSome?_append] at h
    cases hn : (List.range n).findSome? f with
    | some y =>
      rw [hn] at h
      cases h
      obtain ⟨k,hk,hx,hlow⟩ := ih hn
      exact ⟨k,Nat.lt_succ_of_lt hk,hx,hlow⟩
    | none =>
      rw [hn,Option.none_or,List.findSome?_singleton] at h
      refine ⟨n,Nat.lt_succ_self n,h,fun j hj => ?_⟩
      exact List.findSome?_eq_none_iff.mp hn j (List.mem_range.mpr hj)

/-- The search of the inode layer finds the lowest clear bit as well. -/
theorem bmFind_lowest {base o : ℕ} (h : InodeLayer.bmFind sb d=some (base,o)) :
    ∀ c<base+o,bit sb d c=true := by
  obtain ⟨hsize,-⟩ := bmFind_some h
  obtain ⟨k,-,hk,hrows⟩ := findSome?_range h
  obtain ⟨i,hi,hfound,hcells⟩ := findSome?_range hk
  have hplace : base=k*bpb ∧ o=i := by
    split at hfound
    · cases hfound
    · split at hfound
      · cases hfound
      · cases hfound
        exact ⟨rfl,rfl⟩
  intro c hc
  have hsum : c/bpb*bpb+c%bpb=c := Nat.div_add_mod' c bpb
  have ho := Nat.mod_lt c (show 0<bpb by decide)
  have hlt : c/bpb*bpb+c%bpb < sb.size := by omega
  rw [←hsum]
  refine bit_of_cell ho hlt ?_
  rcases Nat.lt_trichotomy (c/bpb) k with hrow|hrow|hrow
  · exact List.findSome?_eq_none_iff.mp (hrows _ hrow) _ (List.mem_range.mpr ho)
  · rw [hrow] at hsum ⊢
    exact hcells _ (by omega)
  · have hle := Nat.mul_le_mul_right bpb (Nat.succ_le_of_lt hrow)
    rw [Nat.succ_mul] at hle
    omega

theorem layer_some {base o : ℕ} (h : InodeLayer.bmFind sb d=some (base,o)) :
    InodeLayer.bmAlloc sb d=.ok (base+o,allocated sb d (base+o)) := by
  obtain ⟨-,-,hblock,hoff⟩ := bmFind_some h
  rw [InodeLayer.bmAlloc,h,allocated,setBitAt,hblock,hoff]

/-- The allocation of the inode layer is that of the loops. -/
theorem bmAlloc_layer (h : Fits sb) {b : ℕ} {d' : Disk} :
    bmAlloc sb d=.ok (b,d') ↔ InodeLayer.bmAlloc sb d=.ok (b,d') := by
  cases hfind : InodeLayer.bmFind sb d with
  | none =>
    have hfull := bmFind_none hfind
    rw [InodeLayer.bmAlloc,hfind]
    rcases bmAlloc_spec (d:=d) h with ⟨he,-⟩|⟨c,-,hlt,hfree,-⟩
    · rw [he]
      exact ⟨(fun e => by cases e),fun e => by cases e⟩
    · rw [hfull c hlt] at hfree
      cases hfree
  | some pair =>
    obtain ⟨base,o⟩ := pair
    obtain ⟨hsize,hfree,-⟩ := bmFind_some hfind
    rw [layer_some hfind,bmAlloc_lowest h hsize hfree (bmFind_lowest hfind)]
    constructor
    · intro e
      cases e
      rfl
    · intro e
      cases e
      rfl

end Layer

/-- The block bitmap. Where the numbers of the bitmap's blocks fit in 32 bits, `bm_alloc`
finds the lowest block whose bit is clear and stops exactly when there is none below the
size. A block that is none of the bitmap's own has its bit set and its contents zeroed
and nothing else is changed, and freeing it again gives the bitmap back. `bm_free` of an
allocated block clears its bit and changes nothing else. Both reach the bit of a block in
the same bitmap block and at the same place. -/
theorem bitmap_exact {sb : SuperBlock} (h : Fits sb) (d : Disk) :
    ((∀ e,bmAlloc sb d=.error e → e=.noFreeBlock) ∧
      (bmAlloc sb d=.error .noFreeBlock ↔ ∀ c < sb.size,bit sb d c=true)) ∧
    (∀ b d',bmAlloc sb d=.ok (b,d') →
      b < sb.size ∧ bit sb d b=false ∧ (∀ c<b,bit sb d c=true) ∧
      (¬OwnBlock sb b → OnlyBit sb d d' b true {b} ∧ (d' b=fun _ => 0) ∧
        ∃ d'',bmFree sb d' b=.ok d'' ∧ ∀ c,OwnBlock sb c → d'' c=d c)) ∧
    (∀ b < sb.size,bit sb d b=true →
      ∃ d',bmFree sb d b=.ok d' ∧ OnlyBit sb d d' b false ∅) ∧
    ∀ k,∀ offset<bpb,k*bpb+offset < sb.size →
      bitmapBlockno sb (k*bpb)=bitmapBlockno sb (k*bpb+offset) ∧ (k*bpb+offset)%bpb=offset := by
  refine ⟨?_,?_,?_,?_⟩
  · rcases bmAlloc_spec (d:=d) h with ⟨he,hfull⟩|⟨b,hb,hlt,hfree,-⟩
    · rw [he]
      refine ⟨fun e h' => by cases h'; rfl,fun _ => hfull,fun _ => rfl⟩
    · rw [hb]
      refine ⟨(fun e h' => by cases h'),(fun h' => by cases h'),fun hfull => ?_⟩
      rw [hfull b hlt] at hfree
      cases hfree
  · intro b d' hb
    rcases bmAlloc_spec (d:=d) h with ⟨he,-⟩|⟨c,hc,hlt,hfree,hlow⟩
    · rw [he] at hb
      cases hb
    · rw [hc] at hb
      cases hb
      refine ⟨hlt,hfree,hlow,fun hnot => ?_⟩
      have hown : sb.bitmapBlockno b≠b := fun e => hnot ⟨b,hlt,e⟩
      obtain ⟨d',hd,hsame⟩ := bmFree_allocated (d:=d) (h.bitmap b hlt) hown hfree
      refine ⟨allocated_onlyBit hown,Function.update_self _ _ _,d',hd,fun c hc => ?_⟩
      exact hsame c fun e => hnot (e ▸ hc)
  · intro b hlt hbit
    exact ⟨_,bmFree_eq (h.bitmap b hlt) hbit,setBitAt_onlyBit b false⟩
  · intro k offset ho _
    obtain ⟨hblock,hoff⟩ := @bitmapBlockno_add sb k offset ho
    rw [SuperBlock.bitmapBlockno,SuperBlock.bitmapBlockno] at hblock
    exact ⟨by rw [bitmapBlockno,bitmapBlockno,hblock],hoff⟩

/-- Ten blocks with the bitmap in block 2. -/
def tenBlocks : SuperBlock := ⟨10,4,32,3,2⟩

/-- The bits of the blocks below a bound are set. -/
def marked (n : ℕ) : Disk :=
  fun c i => if c=2 ∧ i=0 then UInt8.ofNat (2^n-1) else 0

theorem tenBlocks_fits : Fits tenBlocks := by
  refine ⟨by decide,fun b hb => ?_⟩
  have hlt : b<8192 := hb.trans (by decide)
  rw [SuperBlock.bitmapBlockno,bpb_eq,Nat.div_eq_of_lt hlt]
  decide

theorem bitmap_exact_tenBlocks :
    ∃ d',bmAlloc tenBlocks (marked 5)=.ok (5,d') ∧
      OnlyBit tenBlocks (marked 5) d' 5 true {5} := by
  have halloc : bmAlloc tenBlocks (marked 5)=.ok (5,allocated tenBlocks (marked 5) 5) :=
    bmAlloc_lowest tenBlocks_fits (by decide) (by decide) (by decide)
  have hnot : ¬OwnBlock tenBlocks 5 := by
    rintro ⟨c,hc,he⟩
    have hlt : c<8192 := hc.trans (by decide)
    rw [SuperBlock.bitmapBlockno,bpb_eq,Nat.div_eq_of_lt hlt] at he
    exact absurd he (by decide)
  obtain ⟨-,-,-,hset⟩ := (bitmap_exact tenBlocks_fits (marked 5)).2.1 _ _ halloc
  exact ⟨_,halloc,(hset hnot).1⟩

/-- When the lowest block marked free is the bitmap's own, its bit is set and then zeroed
with all the others; and where the number of a bitmap block does not fit in 32 bits,
`bm_free` stops before it has read a bit. -/
theorem own_block_lost :
    (∃ d',bmAlloc tenBlocks (marked 2)=.ok (2,d') ∧ bit tenBlocks (marked 2) 0=true ∧
      bit tenBlocks d' 0=false ∧ bit tenBlocks d' 2=false) ∧
    ∀ d,bmFree {tenBlocks with size := 8193,bmapstart := 2^32-1} d 8192=.error .overflow := by
  constructor
  · refine ⟨_,bmAlloc_lowest tenBlocks_fits ?_ ?_ ?_,?_,?_,?_⟩
    · decide
    · decide
    · decide
    · decide
    · decide
    · decide
  · intro d
    rfl

end Xv6Rust.BlockBitmap
