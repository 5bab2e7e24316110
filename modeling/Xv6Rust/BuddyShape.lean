import Xv6Rust.DyadicBlocks
import Xv6Rust.Kalloc

/-!
# The canonical shape of the buddy system

A set of pairwise disjoint blocks, the blocks of the live pointers together
with the reserved leaves, determines the whole state of the allocator: an alloc
bit says that a block is occupied by the set, a split bit that it is divided by
it, and the free lists hold the vacant blocks. Taking a free block, splitting a
block, merging a block with its free buddy and giving a block back each pass
from the shape of one set to the shape of another.
-/

namespace Xv6Rust.BuddyShape

open DyadicBlocks IntrusiveList Kalloc

/-- The block of everything. -/
def root (s : BuddySystem) : Blk := ⟨s.maxSize,0⟩

/-- Bit address of an alloc bit. -/
def allocBit (s : BuddySystem) (b : Blk) : ℕ := 8*(s.alloc b.level+b.index/8)+b.index%8

/-- Bit address of a split bit. -/
def splitBit (s : BuddySystem) (b : Blk) : ℕ := 8*(s.split b.level+b.index/8)+b.index%8

/-- What `init` fixes: the slices do not overlap, and the leaves of the list heads and those
beyond the end are reserved. -/
structure Static (R : Set Blk) (s : BuddySystem) : Prop where
  /-- There is a level. -/
  nsizes : 0 < s.nsizes
  /-- Alloc bits are different bits. -/
  allocBit : ∀ b c,b ≤ root s → c ≤ root s → allocBit s b=allocBit s c → b=c
  /-- Split bits are different bits. -/
  splitBit : ∀ b c,b ≤ root s → c ≤ root s → 0<b.level → 0 < c.level → splitBit s b=splitBit s c → b=c
  /-- Alloc bits are not split bits. -/
  allocSplit : ∀ b c,b ≤ root s → c ≤ root s → 0 < c.level →
    BuddyShape.allocBit s b≠BuddyShape.splitBit s c
  /-- The list heads are reserved. -/
  infos : ∀ l,l*leafSize < infoSize*s.nsizes → ⟨0,l⟩∈R
  /-- The leaves that do not lie before the end are reserved. -/
  tail : ∀ l,l<2^s.maxSize → s.actualEnd < s.base+(l+1)*leafSize → ⟨0,l⟩∈R

/-- The state is the one that the set of blocks determines; `free` are the indices on the free
lists. -/
structure Shape (R : Set Blk) (s : BuddySystem) (O : Set Blk) (free : ℕ → List ℕ) : Prop extends
    Static R s where
  /-- The reserved leaves are in the set. -/
  reserved : R⊆O
  /-- The blocks of the set are disjoint. -/
  antichain : IsAntichain (·≤·) O
  /-- The blocks of the set lie in the system. -/
  range : ∀ o∈O,o ≤ root s
  /-- An alloc bit says that a block is occupied. -/
  alloc : ∀ b,b ≤ root s → (s.isAllocSet b.level b.index=true ↔ Occupied O b)
  /-- A split bit says that a block is divided. -/
  split : ∀ b,b ≤ root s → 0<b.level → (s.isSplitSet b.level b.index=true ↔ Divided O b)
  /-- The free lists hold the vacant blocks. -/
  vacant : ∀ k i,k < s.nsizes → (i∈free k ↔ Vacant (root s) O ⟨k,i⟩)
  /-- No block is on a list twice. -/
  nodup : ∀ k,k < s.nsizes → (free k).Nodup
  /-- The lists in memory. -/
  rings : Rings s.links s.nsizes s.head fun k => (free k).map (s.blkAddr k)

section Bits

variable {R : Set Blk} {s : BuddySystem} (h : Static R s) {b c : Blk} (hb : b ≤ root s)
  (hc : c ≤ root s) (v : Bool)

include h hb hc

theorem isAllocSet_allocSet :
    (s.allocSet b.level b.index v).isAllocSet c.level c.index=
      if c=b then v else s.isAllocSet c.level c.index := by
  change Function.update s.bits (allocBit s b) v (allocBit s c)=_
  by_cases heq : c=b
  · rw [heq,Function.update_self,if_pos rfl]
  · rw [if_neg heq,Function.update_of_ne fun he => heq (h.allocBit c b hc hb he)]
    rfl

theorem isSplitSet_allocSet (hl : 0 < c.level) :
    (s.allocSet b.level b.index v).isSplitSet c.level c.index=
      s.isSplitSet c.level c.index := by
  change Function.update s.bits (allocBit s b) v (splitBit s c)=_
  rw [Function.update_of_ne fun he => h.allocSplit b c hb hc hl he.symm]
  rfl

theorem isAllocSet_splitSet (hl : 0<b.level) :
    (s.splitSet b.level b.index v).isAllocSet c.level c.index=
      s.isAllocSet c.level c.index := by
  change Function.update s.bits (splitBit s b) v (allocBit s c)=_
  rw [Function.update_of_ne (h.allocSplit c b hc hb hl)]
  rfl

theorem isSplitSet_splitSet (hlb : 0<b.level) (hlc : 0 < c.level) :
    (s.splitSet b.level b.index v).isSplitSet c.level c.index=
      if c=b then v else s.isSplitSet c.level c.index := by
  change Function.update s.bits (splitBit s b) v (splitBit s c)=_
  by_cases heq : c=b
  · rw [heq,Function.update_self,if_pos rfl]
  · rw [if_neg heq,Function.update_of_ne fun he => heq (h.splitBit c b hc hb hlc hlb he)]
    rfl

end Bits

/-- A block's address is its first leaf's. -/
theorem blkAddr_eq (s : BuddySystem) (b : Blk) :
    s.blkAddr b.level b.index=s.base+b.start*leafSize := by
  rw [BuddySystem.blkAddr,blkSize,Blk.start,Nat.mul_assoc]

theorem blkAddr_inj {s : BuddySystem} {b c : Blk}
    (h : s.blkAddr b.level b.index=s.blkAddr c.level c.index) : b.start=c.start := by
  rw [blkAddr_eq,blkAddr_eq,leafSize] at h
  omega

/-- Vacant blocks at one address are one block. -/
theorem eq_of_blkAddr_eq {s : BuddySystem} {r : Blk} {O : Set Blk} {b c : Blk}
    (hb : Vacant r O b) (hc : Vacant r O c)
    (h : s.blkAddr b.level b.index=s.blkAddr c.level c.index) : b=c := by
  have hstart := blkAddr_inj h
  rcases Nat.le_total b.level c.level with hl|hl
  · exact hb.eq_of_le hc (le_of_start_eq hstart hl)
  · exact (hc.eq_of_le hb (le_of_start_eq hstart.symm hl)).symm

/-- A block without reserved leaves is no list head. -/
theorem blkAddr_ne_head {R : Set Blk} {s : BuddySystem} (h : Static R s) {b : Blk}
    (hfree : ¬Occupied R b) {k : ℕ} (hk : k < s.nsizes) : s.blkAddr b.level b.index≠s.head k := by
  intro heq
  rw [blkAddr_eq,BuddySystem.head] at heq
  refine hfree ⟨_,h.infos b.start ?_,start_le b⟩
  have hmul : infoSize*k < infoSize*s.nsizes := Nat.mul_lt_mul_of_pos_left hk (by decide)
  omega

theorem occupied_of_subset {O P : Set Blk} (h : O⊆P) {b : Blk} (ho : Occupied O b) :
    Occupied P b := by
  obtain ⟨o,hmem,hle⟩ := ho
  exact ⟨o,h hmem,hle⟩

section Transition

variable {R O : Set Blk} {s : BuddySystem} {free : ℕ → List ℕ}

/-- Blocks of the system have a level. -/
theorem Static.level_lt (h : Static R s) {b : Blk} (hb : b ≤ root s) : b.level < s.nsizes := by
  have hl : b.level ≤ s.maxSize := hb.1
  have hn := h.nsizes
  rw [BuddySystem.maxSize] at hl
  omega

/-- The address of a block that is not on a free list and contains no reserved leaf is in no
list. -/
theorem Shape.fresh (h : Shape R s O free) {b : Blk} (hR : ¬Occupied R b)
    (hnew : ∀ c,Vacant (root s) O c → s.blkAddr c.level c.index≠s.blkAddr b.level b.index)
    (k : ℕ) (hk : k < s.nsizes) :
    s.blkAddr b.level b.index∉s.head k::(free k).map (s.blkAddr k) := by
  rw [List.mem_cons,not_or]
  refine ⟨blkAddr_ne_head h.toStatic hR hk,?_⟩
  rw [List.mem_map]
  rintro ⟨i,hi,heq⟩
  exact hnew ⟨k,i⟩ ((h.vacant k i hk).mp hi) heq

/-- Membership in the lists after a block is added to one. -/
theorem mem_update_cons {k l i j : ℕ} :
    j∈Function.update free k (i::free k) l ↔ (⟨l,j⟩ : Blk)=⟨k,i⟩ ∨ j∈free l := by
  rw [Blk.mk.injEq]
  by_cases hl : l=k
  · rw [hl,Function.update_self,List.mem_cons]
    simp
  · rw [Function.update_of_ne hl]
    simp [hl]

/-- The lists have no repetitions after a block is taken from one. -/
theorem nodup_remove {k l i : ℕ} {ys zs : List ℕ} (hf : free k=ys++i::zs) (hk : (free k).Nodup)
    (hl : (free l).Nodup) : (Function.update free k (ys++zs) l).Nodup := by
  by_cases e : l=k
  · rw [e,Function.update_self]
    rw [hf] at hk
    exact hk.sublist (List.Sublist.append (List.Sublist.refl _) (List.sublist_cons_self ..))
  · rw [Function.update_of_ne e]
    exact hl

/-- Membership in the lists after a block is taken from one. -/
theorem mem_update_append {k l i j : ℕ} {ys zs : List ℕ} (hf : free k=ys++i::zs)
    (hnd : (free k).Nodup) :
    j∈Function.update free k (ys++zs) l ↔ j∈free l ∧ (⟨l,j⟩ : Blk)≠⟨k,i⟩ := by
  rw [ne_eq,Blk.mk.injEq]
  by_cases hl : l=k
  · rw [hl,Function.update_self,hf]
    rw [hf,List.nodup_append,List.nodup_cons] at hnd
    obtain ⟨-,⟨hi,-⟩,hd⟩ := hnd
    simp only [List.mem_append,List.mem_cons,true_and]
    constructor
    · rintro (hj|hj)
      · exact ⟨.inl hj,fun he => hd j hj i List.mem_cons_self he⟩
      · refine ⟨.inr (.inr hj),?_⟩
        rintro rfl
        exact hi hj
    · rintro ⟨hj|hj|hj,hne⟩
      · exact .inl hj
      · exact absurd hj hne
      · exact .inr hj
  · rw [Function.update_of_ne hl]
    simp [hl]

theorem map_update (f : ℕ → ℕ → ℕ) (k : ℕ) (xs : List ℕ) :
    (fun l => (Function.update free k xs l).map (f l))=
      Function.update (fun l => (free l).map (f l)) k (xs.map (f k)) := by
  funext l
  by_cases hl : l=k
  · rw [hl,Function.update_self,Function.update_self]
  · rw [Function.update_of_ne hl,Function.update_of_ne hl]

/-- A block of a free list is taken off it and marked. -/
theorem Shape.take (h : Shape R s O free) {k i : ℕ} (hk : k < s.nsizes) {ys zs : List ℕ}
    (hf : free k=ys++i::zs) :
    Shape R ((s.remove (s.blkAddr k i)).allocSet k i true) (insert ⟨k,i⟩ O)
      (Function.update free k (ys++zs)) := by
  have hv : Vacant (root s) O ⟨k,i⟩ := (h.vacant k i hk).mp (by rw [hf]; simp)
  have hs' : Static R (s.remove (s.blkAddr k i)) := {h.toStatic with}
  refine {
    toStatic := {h.toStatic with}
    reserved := h.reserved.trans (Set.subset_insert _ _)
    antichain := (hv.apart h.antichain h.range).antichain h.antichain
    range := ?_
    alloc := fun b hb => ?_
    split := fun b hb hl => ?_
    vacant := fun l j hl => ?_
    nodup := fun l hl => ?_
    rings := ?_ }
  · rintro o (rfl|ho)
    · exact hv.le
    · exact h.range o ho
  · rw [isAllocSet_allocSet (b:=⟨k,i⟩) hs' hv.le hb,hv.occupied_insert hb,← h.alloc b hb]
    by_cases heq : b=⟨k,i⟩
    · simp [heq]
    · simp only [heq,if_false,false_or]
      rfl
  · rw [isSplitSet_allocSet (b:=⟨k,i⟩) hs' hv.le hb _ hl,hv.divided_insert hb,← h.split b hb hl]
    rfl
  · rw [mem_update_append hf (h.nodup k hk),h.vacant l j hl]
    exact hv.vacant_insert.symm
  · exact nodup_remove hf (h.nodup k hk) (h.nodup l hl)
  · rw [map_update,List.map_append]
    refine h.rings.remove hk ?_
    rw [hf,List.map_append,List.map_cons]
    rfl

/-- A block whose buddy is occupied is unmarked and put on its free list. -/
theorem Shape.release {b : Blk} (h : Shape R s (insert b O) free) (hR : R⊆O) (hap : Apart O b)
    (hocc : Occupied O b.buddy) :
    Shape R ((s.allocSet b.level b.index false).push b.level (s.blkAddr b.level b.index)) O
      (Function.update free b.level (b.index::free b.level)) := by
  have hb : b ≤ root s := h.range b (Set.mem_insert _ _)
  have hv : Vacant (root s) O b := hap.vacant hb hocc
  have hk : b.level < s.nsizes := h.toStatic.level_lt hb
  refine {
    toStatic := {h.toStatic with}
    reserved := hR
    antichain := h.antichain.subset (Set.subset_insert _ _)
    range := fun o ho => h.range o (Set.mem_insert_of_mem _ ho)
    alloc := fun c hc => ?_
    split := fun c hc hl => ?_
    vacant := fun l j hl => ?_
    nodup := fun l hl => ?_
    rings := ?_ }
  · change (s.allocSet b.level b.index false).isAllocSet c.level c.index=true ↔ _
    rw [isAllocSet_allocSet h.toStatic hb hc]
    by_cases heq : c=b
    · rw [if_pos heq,heq]
      simp [hv.free]
    · rw [if_neg heq,h.alloc c hc,hv.occupied_insert hc]
      simp [heq]
  · change (s.allocSet b.level b.index false).isSplitSet c.level c.index=true ↔ _
    rw [isSplitSet_allocSet h.toStatic hb hc _ hl,h.split c hc hl,hv.divided_insert hc]
  · rw [mem_update_cons,h.vacant l j hl,hv.vacant_insert]
    change _ ↔ Vacant (root s) O ⟨l,j⟩
    by_cases heq : (⟨l,j⟩ : Blk)=b
    · rw [heq]
      simp [hv]
    · simp [heq]
  · by_cases hlk : l=b.level
    · rw [hlk,Function.update_self,List.nodup_cons]
      refine ⟨fun hmem => ?_,h.nodup _ hk⟩
      exact (hv.vacant_insert.mp ((h.vacant _ _ hk).mp hmem)).2 rfl
    · rw [Function.update_of_ne hlk]
      exact h.nodup l hl
  · rw [map_update,List.map_cons]
    refine h.rings.push hk (h.fresh ?_ fun c hc heq => ?_)
    · exact fun ho => hv.free (occupied_of_subset hR ho)
    · obtain ⟨hc',hne⟩ := hv.vacant_insert.mp hc
      exact hne (eq_of_blkAddr_eq hc' hv heq)

/-- A block of the set is replaced by one of its halves, and the other half is put on its free
list. -/
theorem Shape.halve {b : Blk} (h : Shape R s (insert b.parent O) free) (hR : R⊆O)
    (hap : Apart O b.parent) :
    Shape R (((s.splitSet b.parent.level b.parent.index true).allocSet b.level b.index true).push
        b.level (s.blkAddr b.level b.buddy.index)) (insert b O)
      (Function.update free b.level (b.buddy.index::free b.level)) := by
  have hp : b.parent ≤ root s := h.range _ (Set.mem_insert _ _)
  have hb : b ≤ root s := (lt_parent b).le.trans hp
  have hk : b.level < s.nsizes := h.toStatic.level_lt hb
  have hpl : 0<b.parent.level := Nat.succ_pos _
  have hs : Static R (s.splitSet b.parent.level b.parent.index true) := {h.toStatic with}
  have hvacant : ∀ c,Vacant (root s) (insert b O) c ↔
      c=b.buddy ∨ Vacant (root s) (insert b.parent O) c := fun c => hap.vacant_half hp
  have hbuddy : ¬Vacant (root s) (insert b.parent O) b.buddy := by
    intro hv
    refine (hv.apart h.antichain h.range _ (Set.mem_insert _ _)).2 ?_
    rw [← parent_buddy]
    exact (lt_parent b.buddy).le
  refine {
    toStatic := {h.toStatic with}
    reserved := hR.trans (Set.subset_insert _ _)
    antichain := hap.half.antichain (h.antichain.subset (Set.subset_insert _ _))
    range := ?_
    alloc := fun c hc => ?_
    split := fun c hc hl => ?_
    vacant := fun l j hl => ?_
    nodup := fun l hl => ?_
    rings := ?_ }
  · rintro o (rfl|ho)
    · exact hb
    · exact h.range o (Set.mem_insert_of_mem _ ho)
  · change ((s.splitSet b.parent.level b.parent.index true).allocSet b.level b.index
      true).isAllocSet c.level c.index=true ↔ _
    rw [isAllocSet_allocSet hs hb hc,occupied_half,isAllocSet_splitSet h.toStatic hp hc _ hpl,
      ← h.alloc c hc]
    by_cases heq : c=b
    · simp [heq]
    · simp [heq]
  · change ((s.splitSet b.parent.level b.parent.index true).allocSet b.level b.index
      true).isSplitSet c.level c.index=true ↔ _
    rw [isSplitSet_allocSet hs hb hc _ hl,isSplitSet_splitSet h.toStatic hp hc _ hpl hl,
      divided_half,← h.split c hc hl]
    by_cases heq : c=b.parent
    · simp [heq]
    · simp [heq]
  · rw [mem_update_cons,h.vacant l j hl]
    exact (hvacant _).symm
  · by_cases hlk : l=b.level
    · rw [hlk,Function.update_self,List.nodup_cons]
      exact ⟨fun hmem => hbuddy ((h.vacant _ _ hk).mp hmem),h.nodup _ hk⟩
    · rw [Function.update_of_ne hlk]
      exact h.nodup l hl
  · rw [map_update,List.map_cons]
    refine h.rings.push hk (h.fresh (b:=b.buddy) ?_ fun c hc heq => ?_)
    · rintro ⟨o,ho,hle⟩
      refine (hap o (hR ho)).1 (hle.trans ?_)
      rw [← parent_buddy]
      exact (lt_parent b.buddy).le
    · have hc' := (hvacant c).mpr (.inr hc)
      have heq' := eq_of_blkAddr_eq hc' ((hvacant b.buddy).mpr (.inl rfl)) heq
      exact hbuddy (heq' ▸ hc)

/-- A block of the set and its vacant buddy are replaced by their parent. -/
theorem Shape.merge {b : Blk} (h : Shape R s (insert b O) free) (hR : R⊆O) (hap : Apart O b)
    (hno : ¬Occupied O b.buddy) (hlt : b < root s) :
    ∃ ys zs,free b.level=ys++b.buddy.index::zs ∧
      Shape R (((s.allocSet b.level b.index false).remove
          (s.blkAddr b.level b.buddy.index)).splitSet b.parent.level b.parent.index false)
        (insert b.parent O) (Function.update free b.level (ys++zs)) := by
  have hp : b.parent ≤ root s := parent_le_of_lt hlt
  have hb : b ≤ root s := hlt.le
  have hk : b.level < s.nsizes := h.toStatic.level_lt hb
  have hpl : 0<b.parent.level := Nat.succ_pos _
  have hap' : Apart O b.parent := hap.parent hno
  have hs : Static R ((s.allocSet b.level b.index false).remove
      (s.blkAddr b.level b.buddy.index)) := {h.toStatic with}
  have hvacant : ∀ c,Vacant (root s) (insert b O) c ↔
      c=b.buddy ∨ Vacant (root s) (insert b.parent O) c := fun c => hap'.vacant_half hp
  have hanti : IsAntichain (·≤·) (insert b.parent O) :=
    hap'.antichain (h.antichain.subset (Set.subset_insert _ _))
  have hrange : ∀ o∈insert b.parent O,o ≤ root s := by
    rintro o (rfl|ho)
    · exact hp
    · exact h.range o (Set.mem_insert_of_mem _ ho)
  have hbuddy : ¬Vacant (root s) (insert b.parent O) b.buddy := by
    intro hv
    refine (hv.apart hanti hrange _ (Set.mem_insert _ _)).2 ?_
    rw [← parent_buddy]
    exact (lt_parent b.buddy).le
  have hmem : b.buddy.index∈free b.level := by
    rw [h.vacant _ _ hk]
    exact (hvacant b.buddy).mpr (.inl rfl)
  obtain ⟨ys,zs,hf⟩ := List.append_of_mem hmem
  refine ⟨ys,zs,hf,{
    toStatic := {h.toStatic with}
    reserved := hR.trans (Set.subset_insert _ _)
    antichain := hanti
    range := hrange
    alloc := fun c hc => ?_
    split := fun c hc hl => ?_
    vacant := fun l j hl => ?_
    nodup := fun l hl => ?_
    rings := ?_ }⟩
  · rw [isAllocSet_splitSet hs hp hc _ hpl]
    change (s.allocSet b.level b.index false).isAllocSet c.level c.index=true ↔ _
    rw [isAllocSet_allocSet h.toStatic hb hc]
    by_cases heq : c=b
    · rw [if_pos heq,heq]
      simp only [Bool.false_eq_true,false_iff]
      rintro ⟨o,rfl|ho,hle⟩
      · exact absurd hle (lt_parent b).not_ge
      · exact (hap o ho).1 hle
    · rw [if_neg heq,h.alloc c hc,occupied_half]
      simp [heq]
  · rw [isSplitSet_splitSet hs hp hc _ hpl hl]
    change (if c=b.parent then false else
      (s.allocSet b.level b.index false).isSplitSet c.level c.index)=true ↔ _
    rw [isSplitSet_allocSet h.toStatic hb hc _ hl]
    by_cases heq : c=b.parent
    · rw [if_pos heq,heq]
      simp only [Bool.false_eq_true,false_iff]
      rintro ⟨o,rfl|ho,hlt'⟩
      · exact lt_irrefl _ hlt'
      · exact (hap' o ho).1 hlt'.le
    · rw [if_neg heq,h.split c hc hl,divided_half]
      simp [heq]
  · rw [mem_update_append hf (h.nodup _ hk),h.vacant l j hl]
    change Vacant (root s) (insert b O) ⟨l,j⟩ ∧ _ ↔ Vacant (root s) (insert b.parent O) ⟨l,j⟩
    rw [hvacant]
    by_cases heq : (⟨l,j⟩ : Blk)=b.buddy
    · rw [heq]
      exact ⟨fun hv => absurd rfl hv.2,fun hv => absurd hv hbuddy⟩
    · simp only [heq,false_or]
      exact and_iff_left heq
  · exact nodup_remove hf (h.nodup _ hk) (h.nodup l hl)
  · rw [map_update,List.map_append]
    refine h.rings.remove hk ?_
    rw [hf,List.map_append,List.map_cons]
    rfl

end Transition

end Xv6Rust.BuddyShape
