import Xv6Rust.BuddyShape

/-!
# What `alloc` and `dealloc` do to the shape

`alloc` takes the first block of the lowest sufficient free list and halves it
down to the requested level; `dealloc` recovers the level from the split bits
and merges upwards as long as the buddy is free. Both loops pass from shape to
shape, and what they move between the free lists and the caller adds up.
-/

namespace Xv6Rust.BuddyCalls

open DyadicBlocks IntrusiveList Kalloc BuddyShape

/-- Bytes on the free lists. -/
def freeBytes (n : ℕ) (free : ℕ → List ℕ) : ℕ :=
  ∑ k∈Finset.range n,(free k).length*blkSize k

/-- Changing one list changes the bytes of its level. -/
theorem freeBytes_update {n k : ℕ} (hk : k<n) (free : ℕ → List ℕ) (xs : List ℕ) :
    freeBytes n (Function.update free k xs)+(free k).length*blkSize k=
      freeBytes n free+xs.length*blkSize k := by
  have hmem : k∈Finset.range n := Finset.mem_range.mpr hk
  unfold freeBytes
  rw [← Finset.add_sum_erase _ _ hmem,← Finset.add_sum_erase (Finset.range n) _ hmem]
  have hrest : ∑ l∈(Finset.range n).erase k,(Function.update free k xs l).length*blkSize l=
      ∑ l∈(Finset.range n).erase k,(free l).length*blkSize l :=
    Finset.sum_congr rfl fun l hl => by rw [Function.update_of_ne (Finset.ne_of_mem_erase hl)]
  rw [hrest,Function.update_self]
  omega

theorem freeBytes_cons {n k : ℕ} (hk : k<n) (free : ℕ → List ℕ) (i : ℕ) :
    freeBytes n (Function.update free k (i::free k))=freeBytes n free+blkSize k := by
  have h := freeBytes_update hk free (i::free k)
  rw [List.length_cons,Nat.succ_mul] at h
  omega

theorem freeBytes_append {n k i : ℕ} (hk : k<n) {free : ℕ → List ℕ} {ys zs : List ℕ}
    (hf : free k=ys++i::zs) :
    freeBytes n (Function.update free k (ys++zs))+blkSize k=freeBytes n free := by
  have h := freeBytes_update hk free (ys++zs)
  have hlen : (free k).length=(ys++zs).length+1 := by
    rw [hf]
    simp only [List.length_append,List.length_cons]
    omega
  rw [hlen,Nat.succ_mul] at h
  omega

/-- The range, the number of levels and the slices are the same. -/
structure Same (s t : BuddySystem) : Prop where
  /-- Start of the range. -/
  base : t.base=s.base
  /-- End of the range. -/
  actualEnd : t.actualEnd=s.actualEnd
  /-- Number of levels. -/
  nsizes : t.nsizes=s.nsizes
  /-- Alloc slices. -/
  alloc : t.alloc=s.alloc
  /-- Split slices. -/
  split : t.split=s.split

theorem Same.refl (s : BuddySystem) : Same s s := ⟨rfl,rfl,rfl,rfl,rfl⟩

theorem Same.trans {s t u : BuddySystem} (h : Same s t) (h' : Same t u) : Same s u :=
  ⟨h'.base.trans h.base,h'.actualEnd.trans h.actualEnd,h'.nsizes.trans h.nsizes,
    h'.alloc.trans h.alloc,h'.split.trans h.split⟩

theorem Same.root {s t : BuddySystem} (h : Same s t) : root t=root s := by
  rw [BuddyShape.root,BuddyShape.root,BuddySystem.maxSize,BuddySystem.maxSize,h.nsizes]

theorem Same.maxSize {s t : BuddySystem} (h : Same s t) : t.maxSize=s.maxSize := by
  rw [BuddySystem.maxSize,BuddySystem.maxSize,h.nsizes]

theorem Same.blkAddr {s t : BuddySystem} (h : Same s t) (k i : ℕ) :
    t.blkAddr k i=s.blkAddr k i := by
  rw [BuddySystem.blkAddr,BuddySystem.blkAddr,h.base]

theorem blkSize_pos (k : ℕ) : 0<blkSize k := Nat.mul_pos (Nat.two_pow_pos k) (by decide)

theorem blkSize_succ (k : ℕ) : blkSize (k+1)=2*blkSize k := by
  rw [blkSize,blkSize,Nat.pow_succ]
  ring

/-- The index of the block of a level that holds an address of the range. -/
theorem blkIndex_eq (s : BuddySystem) (k l : ℕ) :
    s.blkIndex k (s.base+l*leafSize)=l/2^k := by
  rw [BuddySystem.blkIndex,Nat.add_sub_cancel_left,blkSize]
  exact Nat.mul_div_mul_right _ _ (by decide)

/-- Every level has a block with the first leaf of a given one. -/
theorem blkIndex_blkAddr (s : BuddySystem) (b : Blk) (k : ℕ) :
    s.blkIndex k (s.blkAddr b.level b.index)=b.start/2^k := by
  rw [blkAddr_eq,blkIndex_eq]

theorem blkIndex_self (s : BuddySystem) (k i : ℕ) : s.blkIndex k (s.blkAddr k i)=i := by
  rw [blkIndex_blkAddr s ⟨k,i⟩,Blk.start]
  exact Nat.mul_div_cancel _ (Nat.two_pow_pos _)

/-- A block begins with its first half. -/
theorem blkAddr_double (s : BuddySystem) (k i : ℕ) : s.blkAddr (k+1) i=s.blkAddr k (2*i) := by
  rw [BuddySystem.blkAddr,BuddySystem.blkAddr,blkSize,blkSize,Nat.pow_succ,leafSize]
  congr 1
  ring

theorem blkAddr_succ (s : BuddySystem) (k i : ℕ) :
    s.blkAddr k (i+1)=s.blkAddr k i+blkSize k := by
  rw [BuddySystem.blkAddr,BuddySystem.blkAddr,Nat.succ_mul,Nat.add_assoc]

section Calls

variable {R O : Set Blk}

/-- One pass of the splitting loop. -/
theorem splitStep_shape {s : BuddySystem} {free : ℕ → List ℕ} {k i : ℕ}
    (h : Shape R s (insert ⟨k+1,i⟩ O) free) (hR : R⊆O) (hap : Apart O ⟨k+1,i⟩) :
    Shape R (s.splitStep k (s.blkAddr (k+1) i)) (insert ⟨k,2*i⟩ O)
        (Function.update free k ((2*i+1)::free k)) ∧
      Apart O ⟨k,2*i⟩ := by
  have hparent : Blk.parent ⟨k,2*i⟩=⟨k+1,i⟩ := by
    simp only [Blk.parent,Blk.mk.injEq,true_and]
    omega
  have hbuddy : Blk.buddy ⟨k,2*i⟩=⟨k,2*i+1⟩ := by
    simp only [Blk.buddy,Blk.mk.injEq,true_and]
    rw [if_pos (by omega)]
  rw [← hparent] at h hap
  refine ⟨?_,hap.half⟩
  have hshape := h.halve hR hap
  rw [hparent,hbuddy] at hshape
  have hstep : s.splitStep k (s.blkAddr (k+1) i)=
      ((s.splitSet (k+1) i true).allocSet k (2*i) true).push k (s.blkAddr k (2*i+1)) := by
    unfold BuddySystem.splitStep
    dsimp only
    rw [blkIndex_self,blkAddr_succ,← blkAddr_double]
    congr 2
    change s.blkIndex k (s.blkAddr (k+1) i)=2*i
    rw [blkAddr_double,blkIndex_self]
  rw [hstep]
  exact hshape

/-- The splitting loop replaces a block by the first block of a lower level in it. -/
theorem splitLoop_shape (smalli d : ℕ) {s : BuddySystem} {free : ℕ → List ℕ} {i : ℕ}
    (h : Shape R s (insert ⟨smalli+d,i⟩ O) free) (hR : R⊆O) (hap : Apart O ⟨smalli+d,i⟩) :
    ∃ j free',s.blkAddr smalli j=s.blkAddr (smalli+d) i ∧ Apart O ⟨smalli,j⟩ ∧
      Same s (BuddySystem.splitLoop (s.blkAddr (smalli+d) i) smalli s d) ∧
      Shape R (BuddySystem.splitLoop (s.blkAddr (smalli+d) i) smalli s d)
        (insert ⟨smalli,j⟩ O) free' ∧
      freeBytes s.nsizes free'+blkSize smalli=freeBytes s.nsizes free+blkSize (smalli+d) := by
  induction d generalizing s free i with
  | zero => exact ⟨i,free,rfl,hap,Same.refl s,h,rfl⟩
  | succ d ih =>
    obtain ⟨hstep,hap'⟩ := splitStep_shape (k:=smalli+d) h hR hap
    have hk : smalli+d < s.nsizes := by
      have hl := h.toStatic.level_lt (h.range _ (Set.mem_insert _ _))
      dsimp only at hl
      omega
    obtain ⟨j,free',hj,hapj,hsame,hshape,hbytes⟩ := ih hstep hap'
    have haddr : (s.splitStep (smalli+d) (s.blkAddr (smalli+d+1) i)).blkAddr (smalli+d) (2*i)=
        s.blkAddr (smalli+d+1) i := (blkAddr_double s (smalli+d) i).symm
    rw [haddr] at hj hsame hshape
    refine ⟨j,free',hj,hapj,?_,hshape,?_⟩
    · have hfirst : Same s (s.splitStep (smalli+d) (s.blkAddr (smalli+d+1) i)) := ⟨rfl,rfl,rfl,rfl,rfl⟩
      exact hfirst.trans hsame
    · have hcons := freeBytes_cons hk free (2*i+1)
      have hdouble : blkSize (smalli+(d+1))=2*blkSize (smalli+d) := blkSize_succ _
      change freeBytes s.nsizes free'+blkSize smalli=
        freeBytes s.nsizes (Function.update free (smalli+d) ((2*i+1)::free (smalli+d)))+
          blkSize (smalli+d) at hbytes
      omega

/-- The search ends at the first level with a free block, or at the bound. -/
theorem findFree_spec (s : BuddySystem) (fuel sizei : ℕ) :
    sizei ≤ s.findFree fuel sizei ∧ s.findFree fuel sizei ≤ sizei+fuel ∧
      (∀ k,sizei≤k → k < s.findFree fuel sizei → s.isEmpty k=true) ∧
      (s.findFree fuel sizei < sizei+fuel → s.isEmpty (s.findFree fuel sizei)=false) := by
  induction fuel generalizing sizei with
  | zero =>
    rw [BuddySystem.findFree]
    exact ⟨Nat.le_refl _,Nat.le_refl _,fun k h1 h2 => by omega,fun h => by omega⟩
  | succ fuel ih =>
    rw [BuddySystem.findFree]
    by_cases he : s.isEmpty sizei=true
    · rw [if_pos he]
      obtain ⟨h1,h2,h3,h4⟩ := ih (sizei+1)
      refine ⟨by omega,by omega,fun k hk hk' => ?_,fun h => h4 (by omega)⟩
      by_cases hks : k=sizei
      · rw [hks]
        exact he
      · exact h3 k (by omega) hk'
    · rw [if_neg he]
      exact ⟨Nat.le_refl _,by omega,fun k h1 h2 => by omega,
        fun _ => Bool.eq_false_iff.mpr he⟩

/-- A free list is empty in memory when it holds no block. -/
theorem isEmpty_iff {s : BuddySystem} {free : ℕ → List ℕ} (h : Shape R s O free) {k : ℕ}
    (hk : k < s.nsizes) : s.isEmpty k=true ↔ free k=[] := by
  rw [BuddySystem.isEmpty,(h.rings.ring k hk).isEmpty_iff,List.map_eq_nil_iff]

/-- What `alloc` does: it returns the null pointer and changes nothing when the size is zero or no
sufficient block is free, and otherwise moves a block of the requested level to the caller. -/
theorem allocate_spec {s : BuddySystem} {free : ℕ → List ℕ} (h : Shape R s O free) (hR : R⊆O)
    {layout : Layout} (ha : layout.align≤pageSize) :
    (s.allocate layout=.ok (none,s) ∧ (layout.size=0 ∨
      ∀ k,BuddySystem.levelOf layout.size≤k → k < s.nsizes → free k=[])) ∨
    ∃ j t free',s.allocate layout=.ok (some (s.blkAddr (BuddySystem.levelOf layout.size) j),t) ∧
      layout.size≠0 ∧ Same s t ∧ Apart O ⟨BuddySystem.levelOf layout.size,j⟩ ∧
      Shape R t (insert ⟨BuddySystem.levelOf layout.size,j⟩ O) free' ∧
      freeBytes s.nsizes free'+blkSize (BuddySystem.levelOf layout.size)=
        freeBytes s.nsizes free := by
  unfold BuddySystem.allocate
  by_cases hz : layout.size=0
  · rw [if_pos hz]
    exact .inl ⟨rfl,.inl hz⟩
  rw [if_neg hz,if_neg (by omega)]
  dsimp only
  generalize BuddySystem.levelOf layout.size=smalli
  obtain ⟨hle,hge,hempty,hfound⟩ := findFree_spec s (s.nsizes-smalli) smalli
  generalize s.findFree (s.nsizes-smalli) smalli=sizei at hle hge hempty hfound ⊢
  by_cases hfull : sizei≥s.nsizes
  · rw [if_pos hfull]
    exact .inl ⟨rfl,.inr fun k hk hkn => (isEmpty_iff h hkn).mp (hempty k hk (by omega))⟩
  rw [if_neg hfull]
  have hk : sizei < s.nsizes := by omega
  have hne := hfound (by omega)
  right
  obtain ⟨i,zs,hf⟩ : ∃ i zs,free sizei=i::zs := by
    cases hf : free sizei with
    | nil => rw [(isEmpty_iff h hk).mpr hf] at hne; cases hne
    | cons i zs => exact ⟨i,zs,rfl⟩
  have hnext : s.links.next (s.head sizei)=s.blkAddr sizei i := by
    have hring := h.rings.ring sizei hk
    rw [hf,List.map_cons] at hring
    exact hring.next_head
  have hpop : s.pop sizei=.ok (s.blkAddr sizei i,s.remove (s.blkAddr sizei i)) := by
    rw [BuddySystem.pop,if_neg (by rw [hne]; exact Bool.false_ne_true),hnext]
  rw [hpop]
  have hap : Apart O ⟨sizei,i⟩ :=
    ((h.vacant sizei i hk).mp (by rw [hf]; exact List.mem_cons_self)).apart h.antichain h.range
  have hf' : free sizei=[]++i::zs := hf
  have htake := h.take hk hf'
  have hbytes := freeBytes_append hk hf'
  obtain ⟨d,hd⟩ : ∃ d,sizei=smalli+d := ⟨sizei-smalli,by omega⟩
  have hidx : (s.remove (s.blkAddr sizei i)).blkIndex sizei (s.blkAddr sizei i)=i :=
    blkIndex_self s sizei i
  dsimp only
  rw [hidx]
  subst hd
  rw [Nat.add_sub_cancel_left]
  obtain ⟨j,free',hj,hapj,hsame,hshape,hsum⟩ := splitLoop_shape smalli d htake hR hap
  have hj' : s.blkAddr smalli j=s.blkAddr (smalli+d) i := hj
  refine ⟨j,_,free',by rw [hj']; rfl,hz,?_,hapj,hshape,?_⟩
  · have hfirst : Same s ((s.remove (s.blkAddr (smalli+d) i)).allocSet (smalli+d) i true) :=
      ⟨rfl,rfl,rfl,rfl,rfl⟩
    exact hfirst.trans hsame
  · change freeBytes s.nsizes free'+blkSize smalli=freeBytes s.nsizes
      (Function.update free (smalli+d) ([]++zs))+blkSize (smalli+d) at hsum
    omega

/-- The split bits around the address of a block lead to its level. -/
theorem findSplit_spec {s : BuddySystem} {free : ℕ → List ℕ} {b : Blk}
    (h : Shape R s (insert b O) free) (hap : Apart O b) (hlt : b < root s) (fuel i : ℕ)
    (hi : i≤b.level) (hfuel : b.level < i+fuel) :
    s.findSplit (s.blkAddr b.level b.index) fuel i=b.level := by
  induction fuel generalizing i with
  | zero => omega
  | succ fuel ih =>
    rw [BuddySystem.findSplit,blkIndex_blkAddr]
    let c : Blk := ⟨i+1,b.start/2^(i+1)⟩
    have hleaf : (⟨0,b.start⟩ : Blk) ≤ c := ⟨Nat.zero_le _,rfl⟩
    by_cases hib : i=b.level
    · have hcp : c=b.parent := by
        have hcb : b ≤ c := le_of_common (start_le b) hleaf (by dsimp only [c]; omega)
        have hbc : b < c := lt_iff.mpr ⟨hcb,by dsimp only [c]; omega⟩
        exact (eq_of_le_of_level (parent_le_of_lt hbc) (by dsimp only [c,Blk.parent]; omega)).symm
      have hdiv : Divided (insert b O) c := by
        rw [hcp]
        exact ⟨b,Set.mem_insert _ _,lt_parent b⟩
      have hcr : c ≤ root s := by
        rw [hcp]
        exact parent_le_of_lt hlt
      rw [if_pos ((h.split c hcr (Nat.succ_pos _)).mpr hdiv)]
      exact hib
    · have hcb : c≤b := le_of_common hleaf (start_le b) (by dsimp only [c]; omega)
      have hdiv : ¬Divided (insert b O) c := by
        rintro ⟨o,rfl|ho,hoc⟩
        · exact absurd hcb hoc.not_ge
        · exact (hap o ho).1 (hoc.le.trans hcb)
      rw [if_neg fun hs => hdiv ((h.split c (hcb.trans hlt.le) (Nat.succ_pos _)).mp hs)]
      exact ih (i+1) (by omega) (by omega)

/-- The merging loop gives a block back. -/
theorem mergeLoop_shape (n : ℕ) {s : BuddySystem} {free : ℕ → List ℕ} {b : Blk}
    (h : Shape R s (insert b O) free) (hR : R⊆O) (hne : R.Nonempty) (hap : Apart O b)
    (hn : b.level+n=s.maxSize) :
    ∃ free',Same s (BuddySystem.mergeLoop n s b.level (s.blkAddr b.level b.index)) ∧
      Shape R (BuddySystem.mergeLoop n s b.level (s.blkAddr b.level b.index)) O free' ∧
      freeBytes s.nsizes free'=freeBytes s.nsizes free+blkSize b.level := by
  induction n generalizing s free b with
  | zero =>
    obtain ⟨r,hr⟩ := hne
    have hb : b=root s := eq_of_le_of_level (h.range b (Set.mem_insert _ _)) (by
      change s.maxSize≤b.level
      omega)
    exact absurd (hb ▸ h.range r (Set.mem_insert_of_mem _ (hR hr))) (hap r (hR hr)).1
  | succ n ih =>
    have hb : b ≤ root s := h.range b (Set.mem_insert _ _)
    have hlt : b < root s := lt_iff.mpr ⟨hb,by
      change b.level < s.maxSize
      omega⟩
    have hk : b.level < s.nsizes := h.toStatic.level_lt hb
    have hbr : b.buddy ≤ root s :=
      (lt_parent b.buddy).le.trans (by rw [parent_buddy]; exact parent_le_of_lt hlt)
    have hbit : (s.allocSet b.level b.index false).isAllocSet b.level b.buddy.index=true ↔
        Occupied O b.buddy := by
      have hset := isAllocSet_allocSet h.toStatic hb hbr false
      rw [if_neg (buddy_ne b)] at hset
      change (s.allocSet b.level b.index false).isAllocSet b.level b.buddy.index=
        s.isAllocSet b.buddy.level b.buddy.index at hset
      rw [hset,h.alloc _ hbr,occupied_insert]
      exact or_iff_right (not_le_buddy le_rfl)
    rw [BuddySystem.mergeLoop]
    dsimp only
    rw [blkIndex_self]
    change ∃ free',Same s (if (s.allocSet b.level b.index false).isAllocSet b.level
      b.buddy.index=true then _ else _) ∧ Shape R (if (s.allocSet b.level b.index
      false).isAllocSet b.level b.buddy.index=true then _ else _) O free' ∧ _
    by_cases hocc : Occupied O b.buddy
    · rw [if_pos (hbit.mpr hocc)]
      exact ⟨_,⟨rfl,rfl,rfl,rfl,rfl⟩,h.release hR hap hocc,freeBytes_cons hk free b.index⟩
    · rw [if_neg fun hs => hocc (hbit.mp hs)]
      obtain ⟨ys,zs,hf,hmerge⟩ := h.merge hR hap hocc hlt
      have hraw : (if b.buddy.index%2=0 then s.blkAddr b.level b.buddy.index else
          s.blkAddr b.level b.index)=s.blkAddr b.parent.level b.parent.index := by
        rw [parent_level,blkAddr_double]
        change _=s.blkAddr b.level (2*(b.index/2))
        by_cases heven : b.index%2=0
        · have hbuddy : b.buddy.index=b.index+1 := if_pos heven
          rw [if_neg (by omega)]
          congr 1
          omega
        · have hbuddy : b.buddy.index=b.index-1 := if_neg heven
          rw [if_pos (by omega)]
          congr 1
          omega
      have hsum := freeBytes_append hk hf
      have hsize : blkSize b.parent.level=2*blkSize b.level := blkSize_succ _
      obtain ⟨free',hsame,hshape,hbytes⟩ := ih hmerge (hap.parent hocc) (by
        change b.level+1+n=s.maxSize
        omega)
      change ∃ free',Same s (BuddySystem.mergeLoop n (BuddySystem.splitSet _ (b.level+1)
        (s.blkIndex (b.level+1) (if b.buddy.index%2=0 then s.blkAddr b.level b.buddy.index else
          s.blkAddr b.level b.index)) false) (b.level+1) (if b.buddy.index%2=0 then
          s.blkAddr b.level b.buddy.index else s.blkAddr b.level b.index)) ∧ Shape R
        (BuddySystem.mergeLoop n (BuddySystem.splitSet _ (b.level+1) (s.blkIndex (b.level+1)
          (if b.buddy.index%2=0 then s.blkAddr b.level b.buddy.index else
          s.blkAddr b.level b.index)) false) (b.level+1) (if b.buddy.index%2=0 then
          s.blkAddr b.level b.buddy.index else s.blkAddr b.level b.index)) O free' ∧ _
      rw [hraw,parent_level,blkIndex_self]
      refine ⟨free',?_,hshape,?_⟩
      · have hfirst : Same s (((s.allocSet b.level b.index false).remove
            (s.blkAddr b.level b.buddy.index)).splitSet b.parent.level b.parent.index false) :=
          ⟨rfl,rfl,rfl,rfl,rfl⟩
        exact hfirst.trans hsame
      · change freeBytes s.nsizes free'=freeBytes s.nsizes
          (Function.update free b.level (ys++zs))+blkSize b.parent.level at hbytes
        omega

/-- Blocks that avoid the reserved leaves lie inside the range. -/
theorem blkAddr_lt_actualEnd {s : BuddySystem} (h : Static R s) {b : Blk} (hb : b ≤ root s)
    (hR : ¬Occupied R b) :
    s.blkAddr b.level b.index+blkSize b.level ≤ s.actualEnd := by
  have hpos := Nat.two_pow_pos b.level
  have hin : (⟨0,b.start+2^b.level-1⟩ : Blk)≤b := leaf_le_iff.mpr ⟨by omega,by omega⟩
  have hroot := (leaf_le_iff.mp (hin.trans hb)).2
  by_contra hend
  refine hR ⟨_,h.tail (b.start+2^b.level-1) ?_ ?_,hin⟩
  · simpa [root,Blk.start] using hroot
  · rw [blkAddr_eq,blkSize,Nat.add_assoc,← Nat.add_mul,Nat.not_le] at hend
    have hlast : b.start+2^b.level-1+1=b.start+2^b.level := by omega
    rw [hlast]
    exact hend

/-- What `dealloc` does to a block of the caller: it gives the block back. -/
theorem dealloc_spec {s : BuddySystem} {free : ℕ → List ℕ} {b : Blk}
    (h : Shape R s (insert b O) free) (hR : R⊆O) (hne : R.Nonempty) (hap : Apart O b)
    {layout : Layout} (hsize : layout.size≤blkSize b.level) :
    ∃ t free',s.dealloc (s.blkAddr b.level b.index) layout=.ok t ∧ Same s t ∧
      Shape R t O free' ∧ freeBytes s.nsizes free'=freeBytes s.nsizes free+blkSize b.level := by
  obtain ⟨r,hr⟩ := hne
  have hb : b ≤ root s := h.range b (Set.mem_insert _ _)
  have hlt : b < root s := by
    refine lt_of_le_of_ne hb fun heq => (hap r (hR hr)).1 ?_
    rw [heq]
    exact h.range r (Set.mem_insert_of_mem _ (hR hr))
  have hlevel : b.level < s.maxSize := (lt_iff.mp hlt).2
  have hend := blkAddr_lt_actualEnd h.toStatic hb fun ⟨o,ho,hle⟩ => (hap o (hR ho)).1 hle
  have hpos := blkSize_pos b.level
  have hbase : s.base ≤ s.blkAddr b.level b.index := Nat.le_add_right _ _
  have hmax : s.maxSize < s.nsizes := by
    have hn := h.nsizes
    rw [BuddySystem.maxSize]
    omega
  obtain ⟨free',hsame,hshape,hbytes⟩ := mergeLoop_shape (s.maxSize-b.level) h hR ⟨r,hr⟩ hap
    (by omega)
  refine ⟨_,free',?_,hsame,hshape,hbytes⟩
  rw [BuddySystem.dealloc,if_neg (by omega)]
  dsimp only
  rw [findSplit_spec h hap hlt s.maxSize 0 (Nat.zero_le _) (by omega),if_neg (by omega),
    if_neg (by omega)]

end Calls

end Xv6Rust.BuddyCalls
