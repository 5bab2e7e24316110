import Xv6Rust.BuddyHeap

/-!
# Which regions the kernel heap can manage

A successful `init` has divided what lies between the metadata and the end of
the region into the blocks of its free lists, because its last check compares
the byte counts. The check holds when the two blocks that `init_free` looks at
on each level are blocks of the level. In a region whose size is a power of two
the block behind the end is one beyond the last, its bits are those of the next
level, and a block behind the end is pushed: `init` rejects every such region.
The metadata take at most a quarter of a region, so that the two borders never
meet in one pair of buddies, and every other region is accepted.
-/

namespace Xv6Rust.BuddyRegions

open DyadicBlocks IntrusiveList Kalloc BuddyShape BuddyCalls BuddyInit BuddyHeap

/-- Why `init` stops. -/
inductive Trap where
  /-- `mark_unavail` computes the end of the largest block, which is no address. -/
  | overflow
  /-- A panic of the allocator. -/
  | panic (e : Panic)

/-- `init` with 64-bit addresses. -/
def init (s : BuddySystem) (start stop : UInt64) : Except Trap BuddySystem :=
  let p := s.place start.toNat stop.toNat
  if s.initialized=false ∧ start≠0 ∧ p.base≤p.actualEnd ∧ 2^64≤p.base+blkSize p.maxSize then
    .error .overflow
  else (s.init start.toNat stop.toNat).mapError .panic

/-- The indices of the alloc bits that `init_free` consults at a level. -/
def consulted (s : BuddySystem) (left k : ℕ) : List ℕ :=
  [s.blkIndexNext k left,BuddySystem.buddyIndex (s.blkIndexNext k left)]++
    if left < s.actualEnd then
      [s.blkIndex k s.actualEnd,BuddySystem.buddyIndex (s.blkIndex k s.actualEnd)]
    else []

/-- The free lists divide what lies between the metadata and the end. -/
structure Divides (t : BuddySystem) (free : ℕ → List ℕ) : Prop where
  /-- The lists in memory. -/
  listed : Listed t free
  /-- No two entries meet, so that none is there twice. -/
  disjoint : (freeSpans t.nsizes free).Pairwise Clear
  /-- A block is aligned to its size. -/
  aligned : ∀ k < t.nsizes,∀ a∈free k,t.base≤a ∧ blkSize k∣a-t.base
  /-- The blocks cover the rest of the region and nothing else. -/
  cover : ∀ x,t.metaEnd≤x ∧ x < t.actualEnd ↔ ∃ k < t.nsizes,∃ a∈free k,a≤x ∧ x<a+blkSize k

/-- `init` has succeeded, its free lists divide the region, and every alloc bit it has consulted is
one of its level. -/
def InitCorrect (start stop : UInt64) (result : Except Trap BuddySystem) : Prop :=
  ∃ t,result=.ok t ∧ t.base=roundUp start.toNat pageSize ∧
    t.actualEnd=roundDown stop.toNat pageSize ∧ (∃ free,Divides t free) ∧
    ∀ k < t.maxSize,∀ i∈consulted t t.metaEnd k,i < t.nBlk k

section Sound

variable {s t : BuddySystem} {start stop : ℕ}

/-- The borders of a system that `init` has built. -/
theorem init_borders (h : s.init start stop=.ok t) :
    Same (s.place start stop) t ∧ ∃ m e,Borders t m e := by
  obtain ⟨p,hp⟩ : ∃ p,p=s.place start stop := ⟨_,rfl⟩
  obtain ⟨hle,hfit,-,ht⟩ := init_passes h hp rfl
  obtain ⟨m,e,hb,-⟩ := place_borders hp hle hfit
  have hsame : Same p t := by
    rw [ht]
    exact (marks_same p).trans ⟨rfl,rfl,rfl,rfl,rfl⟩
  refine ⟨hp ▸ hsame,m,e,?_,?_,hb.fits,?_⟩
  · rw [metaEnd_congr hsame.base hsame.nsizes,hsame.base,hb.metaEnd]
  · rw [hsame.actualEnd,hsame.base,hb.actualEnd]
  · rw [hsame.maxSize]
    exact hb.covers

/-- A leaf between the borders lies in a vacant block. -/
theorem exists_vacant_leaf {m e l : ℕ} (hb : Borders t m e) (h1 : m≤l) (h2 : l<e) :
    ∃ c,⟨0,l⟩ ≤ c ∧ Vacant (root t) (reserved t) c := by
  have hcov := hb.covers
  have hmeta := hb.metaEnd
  have hend := hb.actualEnd
  have hroot : (⟨0,l⟩ : Blk) ≤ root t := le_root t (Nat.zero_le _) (by rw [Nat.sub_zero]; omega)
  have hnot : (⟨0,l⟩ : Blk)∉reserved t := by
    rintro ⟨-,-,hlt⟩
    rw [leafSize] at *
    dsimp only at hlt
    omega
  refine Apart.exists_vacant (fun o ho => ?_) hroot
  have hne : o≠⟨0,l⟩ := fun heq => hnot (heq ▸ ho)
  have hzero := ho.1
  exact ⟨fun hle => hne (eq_of_le_of_level hle (Nat.zero_le _)),
    fun hle => hne (eq_of_le_of_level hle (Nat.le_of_eq hzero)).symm⟩

/-- The free lists of a successful `init` divide the region. -/
theorem init_divides (h : s.init start stop=.ok t) : ∃ free,Divides t free := by
  obtain ⟨free,hshape,-,-,-,-⟩ := init_inv h
  obtain ⟨-,m,e,hb⟩ := init_borders h
  refine ⟨fun k => (free k).map (t.blkAddr k),listed (Same.refl t) hshape,
    freeSpans_pairwise hshape,fun k hk a ha => ?_,fun x => ⟨fun hx => ?_,fun hx => ?_⟩⟩
  · obtain ⟨i,-,rfl⟩ := List.mem_map.mp ha
    rw [BuddySystem.blkAddr,Nat.add_sub_cancel_left]
    exact ⟨Nat.le_add_right _ _,Dvd.intro_left _ rfl⟩
  · have hmeta := hb.metaEnd
    have hend := hb.actualEnd
    rw [leafSize] at hmeta hend
    obtain ⟨c,hle,hvac⟩ := exists_vacant_leaf hb (l:=(x-t.base)/leafSize)
      (by rw [leafSize]; omega) (by rw [leafSize]; omega)
    have hk := hshape.toStatic.level_lt hvac.le
    refine ⟨c.level,hk,_,List.mem_map_of_mem ((hshape.vacant c.level c.index hk).mpr hvac),?_⟩
    obtain ⟨h1,h2⟩ := leaf_le_iff.mp hle
    rw [blkAddr_eq,blkSize]
    rw [leafSize] at *
    omega
  · obtain ⟨k,hk,a,ha,hx⟩ := hx
    obtain ⟨i,hi,rfl⟩ := List.mem_map.mp ha
    have hvac := (hshape.vacant k i hk).mp hi
    have h1 := metaEnd_le_blkAddr hvac.le hvac.free
    have h2 := blkAddr_lt_actualEnd hshape.toStatic hvac.le hvac.free
    dsimp only at h1 h2
    omega

end Sound

section Sizes

theorem log2Loop_le (fuel n k : ℕ) (hn : 0<n) : 2^log2Loop fuel n k≤n*2^k := by
  induction fuel generalizing n k with
  | zero => exact Nat.le_mul_of_pos_left _ hn
  | succ fuel ih =>
    rw [log2Loop]
    split
    · have hrec := ih (n/2) (k+1) (by omega)
      have hhalf : n/2*2^(k+1)≤n*2^k := by
        rw [Nat.pow_succ,Nat.mul_comm (2^k) 2,← Nat.mul_assoc]
        exact Nat.mul_le_mul_right _ (Nat.div_mul_le_self n 2)
      exact hrec.trans hhalf
    · exact Nat.le_mul_of_pos_left _ hn

/-- A number is at least the power of its logarithm. -/
theorem two_pow_log2_le {n : ℕ} (hn : 0<n) : 2^log2 n≤n := by
  have h := log2Loop_le n n 0 hn
  rwa [Nat.pow_zero,Nat.mul_one] at h

/-- The largest block is less than twice the region. -/
theorem place_lower (s : BuddySystem) (start stop : ℕ) {e : ℕ}
    (he : (s.place start stop).actualEnd=(s.place start stop).base+e*leafSize) (hpos : 0<e) :
    2^(s.place start stop).maxSize<2*e := by
  have hlog := two_pow_log2_le hpos
  have hdiv : ((s.place start stop).actualEnd-(s.place start stop).base)/leafSize=e := by
    rw [he,Nat.add_sub_cancel_left]
    exact Nat.mul_div_cancel _ (by decide)
  have hsub : (s.place start stop).actualEnd-(s.place start stop).base=e*leafSize := by
    rw [he,Nat.add_sub_cancel_left]
  have hn : (s.place start stop).nsizes=
      if e*leafSize>blkSize (log2 e+1-1) then log2 e+1+1 else log2 e+1 := by
    rw [← hsub,← hdiv]
    rfl
  rw [BuddySystem.maxSize,hn,Nat.add_sub_cancel,blkSize]
  split
  · rename_i hgt
    rw [leafSize] at hgt
    rw [Nat.add_sub_cancel,Nat.pow_succ]
    omega
  · rw [Nat.add_sub_cancel]
    omega

variable (s : BuddySystem)

/-- A slice has a byte for every eight blocks of its level. -/
theorem sliceSize_le (k : ℕ) : 8*s.sliceSize k≤2^(s.maxSize-k)+7 := by
  have hpos := Nat.two_pow_pos (s.maxSize-k)
  rw [BuddySystem.sliceSize,roundUp,BuddySystem.nBlk,Nat.mul_div_cancel _ (by decide)]
  omega

/-- The alloc slices have room for the blocks of their levels. -/
theorem allocCur_le {k : ℕ} (hk : k ≤ s.maxSize+1) :
    8*s.allocCur k+2^(s.maxSize+1-k)≤8*(s.base+infoSize*s.nsizes)+2^(s.maxSize+1)+8*k := by
  induction k with
  | zero => exact Nat.le_refl _
  | succ k ih =>
    have hslice := sliceSize_le s k
    have hrec := ih (by omega)
    have hpow : 2^(s.maxSize+1-k)=2^(s.maxSize-k)*2 := by
      rw [Nat.succ_sub (by omega),Nat.pow_succ]
    have hnext : s.maxSize+1-(k+1)=s.maxSize-k := by omega
    rw [BuddySystem.allocCur,hnext]
    omega

/-- The split slices have room for the blocks of the levels above the leaves. -/
theorem splitCur_le {k : ℕ} (hk : k ≤ s.maxSize) :
    8*s.splitCur (k+1)+2^(s.maxSize-k)≤8*s.allocCur s.nsizes+2^s.maxSize+8*k := by
  induction k with
  | zero => exact Nat.le_refl _
  | succ k ih =>
    have hslice := sliceSize_le s (k+1)
    have hrec := ih (by omega)
    have hpow : 2^(s.maxSize-k)=2^(s.maxSize-(k+1))*2 := by
      have hsub : s.maxSize-k=s.maxSize-(k+1)+1 := by omega
      rw [hsub,Nat.pow_succ]
    rw [splitCur_succ s (k:=k+1) (Nat.succ_pos k)]
    omega

theorem pow_room {n : ℕ} (hn : 9≤n) : 1600*n+2072≤52*2^n := by
  induction n, hn using Nat.le_induction with
  | base => decide
  | succ n hn ih =>
    rw [Nat.pow_succ]
    omega

end Sizes

/-- A region with whole pages and room for a leaf behind the metadata. -/
structure Region (p : BuddySystem) (m e : ℕ) : Prop extends Borders p m e where
  /-- The slices lie where `init` places them. -/
  placed : Placed p
  /-- The region has whole pages. -/
  pages : 256∣e
  /-- The largest block is less than twice the region. -/
  lower : 2^p.maxSize<2*e
  /-- A leaf is left. -/
  room : m<e

section Geometry

variable {s p : BuddySystem} {start stop m e : ℕ}

theorem place_region (hp : p=s.place start stop) (hroom : p.metaEnd+leafSize≤p.actualEnd) :
    ∃ m e,Region p m e := by
  have hplaced : Placed p := hp ▸
    ⟨place_nsizes s start stop,place_alloc s start stop,place_split s start stop⟩
  have hmeta : p.base≤p.metaEnd := by
    have hinfos := infos_le_splitCur p
    have hslices := splitCur_le_metaEnd p
    omega
  obtain ⟨m,e,hb,hm⟩ := place_borders hp (by omega) (by omega)
  have h1 := hb.metaEnd
  have h2 := hb.actualEnd
  have hpages : 256∣e := by
    have hdvd : pageSize∣p.actualEnd-p.base := hp ▸
      Nat.dvd_sub (place_actualEnd s start stop) (place_base s start stop)
    rw [h2,Nat.add_sub_cancel_left] at hdvd
    exact Nat.dvd_of_mul_dvd_mul_right (by decide : 0 < leafSize) hdvd
  refine ⟨m,e,hb,hplaced,hpages,?_,?_⟩
  · subst hp
    refine place_lower s start stop h2 ?_
    rw [leafSize] at *
    omega
  · rw [leafSize] at *
    omega

/-- The region has at least a page. -/
theorem Region.page_le (h : Region p m e) : 256≤e :=
  Nat.le_of_dvd (by have := h.room; omega) h.pages

/-- The metadata are at least one record. -/
theorem Region.two_le (h : Region p m e) : 2 ≤ m := by
  have hinfos := infos_le_splitCur p
  have hslices := splitCur_le_metaEnd p
  have hn := h.placed.nsizes
  have hm := h.metaEnd
  rw [leafSize] at hm
  rw [infoSize] at hinfos
  omega

/-- The metadata take at most a quarter of the region. -/
theorem Region.quarter (h : Region p m e) : 4*m≤e := by
  obtain ⟨M,hM⟩ : ∃ M,p.maxSize=M := ⟨_,rfl⟩
  have hn : p.nsizes=M+1 := by
    have hpos := h.placed.nsizes
    rw [← hM,BuddySystem.maxSize]
    omega
  have h1 := allocCur_le p (k:=p.maxSize+1) (Nat.le_refl _)
  have h2 := splitCur_le p (k:=p.maxSize) (Nat.le_refl _)
  have h3 : p.metaEnd≤p.splitCur p.nsizes+15 := by
    have hinfos := infos_le_splitCur p
    have hpos := h.placed.nsizes
    rw [infoSize] at hinfos
    rw [BuddySystem.metaEnd,roundUp,leafSize]
    omega
  have h4 := h.metaEnd
  have h5 := h.lower
  have h6 := h.page_le
  have h7 := h.covers
  rw [hM,hn,infoSize,Nat.sub_self,Nat.pow_succ] at h1
  rw [hM,hn,Nat.sub_self] at h2
  rw [hn] at h3
  rw [leafSize] at h4
  rw [hM] at h5 h7
  rcases Nat.lt_or_ge M 9 with hlt|hge
  · have hpow : 2^M≤2^8 := Nat.pow_le_pow_right (by decide) (by omega)
    omega
  · have hpow := pow_room hge
    omega

/-- The size is a power of two when the largest block is the region. -/
theorem Region.pow_iff (h : Region p m e) :
    (∃ n,p.actualEnd-p.base=2^n) ↔ e=2^p.maxSize := by
  have hlow := h.lower
  have hcov := h.covers
  have hpage := h.page_le
  rw [h.actualEnd,Nat.add_sub_cancel_left,leafSize]
  constructor
  · rintro ⟨n,hn⟩
    obtain ⟨j,rfl⟩ : ∃ j,n=j+4 := by
      have h4 : ¬n<4 := fun hlt => by
        have hpow : 2^n≤2^4 := Nat.pow_le_pow_right (by decide) hlt.le
        omega
      exact ⟨n-4,by omega⟩
    have he : e=2^j := by
      rw [Nat.pow_add] at hn
      omega
    rw [he,← Nat.pow_succ'] at hlow
    rw [he] at hcov ⊢
    have hl := (Nat.pow_lt_pow_iff_right (by decide)).mp hlow
    have hu := (Nat.pow_le_pow_iff_right (by decide)).mp hcov
    rw [show j=p.maxSize by omega]
  · intro he
    exact ⟨p.maxSize+4,by rw [he,Nat.pow_add]⟩

/-- The largest block is the smallest power of two that holds the region. -/
theorem Region.fits_iff (h : Region p m e) :
    (∃ n,p.actualEnd-p.base≤2^n ∧ p.base+2^n<2^64) ↔ p.base+blkSize p.maxSize<2^64 := by
  have hlow := h.lower
  have hcov := h.covers
  have hpage := h.page_le
  have hblk : blkSize p.maxSize=2^(p.maxSize+4) := by
    rw [blkSize,Nat.pow_add]
    rfl
  rw [h.actualEnd,Nat.add_sub_cancel_left]
  constructor
  · rintro ⟨n,hn,hlt⟩
    have hexp : p.maxSize+4≤n := by
      have hpow : 2^(p.maxSize+3)<2^n := by
        rw [Nat.pow_add]
        rw [leafSize] at hn
        omega
      have hl := (Nat.pow_lt_pow_iff_right (by decide)).mp hpow
      omega
    have hle : 2^(p.maxSize+4)≤2^n := Nat.pow_le_pow_right (by decide) hexp
    omega
  · intro hlt
    refine ⟨p.maxSize+4,?_,by omega⟩
    rw [← hblk,blkSize]
    exact Nat.mul_le_mul_right _ hcov

/-- A level below the largest block has an even number of blocks, and the metadata end before the
last of them. -/
theorem Region.lo_lt (h : Region p m e) {k : ℕ} (hk : k < p.maxSize) :
    lo m k < p.nBlk k ∧ p.nBlk k%2=0 := by
  obtain ⟨d,hd⟩ : ∃ d,p.maxSize-k=d+1 := ⟨p.maxSize-k-1,by omega⟩
  have hpow : 2^(d+1)*2^k=2^p.maxSize := by
    rw [← hd,← Nat.pow_add,Nat.sub_add_cancel hk.le]
  have hq := h.quarter
  have hcov := h.covers
  have hpos := Nat.two_pow_pos d
  have hlast : ¬2^d<lo m k := by
    rw [lt_lo_iff]
    rw [Nat.pow_succ,Nat.mul_assoc,Nat.mul_comm 2,← Nat.mul_assoc] at hpow
    omega
  rw [BuddySystem.nBlk,hd,Nat.pow_succ]
  omega

/-- The buddy of a block of a level below the largest block is one of the level. -/
theorem buddyIndex_lt {n i : ℕ} (hn : n%2=0) (hi : i<n) : BuddySystem.buddyIndex i<n := by
  rw [BuddySystem.buddyIndex]
  split <;> omega

/-- Every bit that is consulted is one of its level when the region is smaller than the largest
block. -/
theorem Region.consulted_lt (h : Region p m e) (he : e<2^p.maxSize) {k : ℕ} (hk : k < p.maxSize) :
    ∀ i∈consulted p p.metaEnd k,i < p.nBlk k := by
  obtain ⟨hlo,heven⟩ := h.lo_lt hk
  have hnext : p.blkIndexNext k p.metaEnd=lo m k := by rw [h.metaEnd,blkIndexNext_eq]
  have hindex : p.blkIndex k p.actualEnd=e/2^k := by rw [h.actualEnd,blkIndex_eq]
  have hhi : e/2^k < p.nBlk k := by
    rw [BuddySystem.nBlk,Nat.div_lt_iff_lt_mul (Nat.two_pow_pos k),← Nat.pow_add,
      Nat.sub_add_cancel hk.le]
    exact he
  have hlob := buddyIndex_lt heven hlo
  have hhib := buddyIndex_lt heven hhi
  intro i hi
  rw [consulted,hnext,hindex] at hi
  split at hi
  · simp only [List.mem_append,List.mem_cons,List.not_mem_nil,or_false] at hi
    rcases hi with (rfl|rfl)|rfl|rfl
    · exact hlo
    · exact hlob
    · exact hhi
    · exact hhib
  · simp only [List.append_nil,List.mem_cons,List.not_mem_nil,or_false] at hi
    rcases hi with rfl|rfl
    · exact hlo
    · exact hlob

/-- The borders do not meet in one pair of buddies. -/
theorem Region.apart (h : Region p m e) {k : ℕ} (heven : lo m k%2=0) : e/2^k≠lo m k+1 := by
  intro heq
  have hq := h.quarter
  have hm := h.two_le
  have hpos := Nat.two_pow_pos k
  have hlo : 0<lo m k := by
    rw [lt_lo_iff]
    omega
  obtain ⟨j,hj⟩ : ∃ j,lo m k=j+2 := ⟨lo m k-2,by omega⟩
  have h1 : (j+1)*2^k < m := lt_lo_iff.mp (by omega)
  have h2 : e<(j+3+1)*2^k := succ_mul_pow_lt_iff.mpr (by omega)
  have h3 : (j+3+1)*2^k≤4*((j+1)*2^k) := by
    rw [← Nat.mul_assoc]
    exact Nat.mul_le_mul_right _ (by omega)
  omega

end Geometry

section Marked

variable {s p v : BuddySystem} {start stop m e k : ℕ}

theorem Region.same (h : Region p m e) (hs : Same p v) : Region v m e where
  metaEnd := by rw [metaEnd_congr hs.base hs.nsizes,hs.base,h.metaEnd]
  actualEnd := by rw [hs.actualEnd,hs.base,h.actualEnd]
  fits := h.fits
  covers := hs.maxSize.symm ▸ h.covers
  placed := h.placed.same hs
  pages := h.pages
  lower := hs.maxSize.symm ▸ h.lower
  room := h.room

/-- The alloc bits after the marks of `init`. -/
theorem marks_bit (hp : p=s.place start stop) (h : Region p m e) {c : Blk}
    (hc : c ≤ root (marks p)) : (marks p).isAllocSet c.level c.index=true ↔
      c.index<lo m c.level ∨ e/2^c.level ≤ c.index := by
  have hmarked : Marked p (marks p) (Occupied (reserved p)) :=
    init_marked h.toBorders (h.placed.static h.toBorders)
  rw [hmarked.root] at hc
  rw [hmarked.alloc c hc,(place_clear hp h.placed hc).1,h.occupied hc]
  simp

/-- When the region is smaller than the largest block, `init_free` pushes the vacant blocks. -/
theorem Region.targets_eq (h : Region v m e) (he : e<2^v.maxSize) (hk : k < v.maxSize)
    (hbit : ∀ i,i < v.nBlk k → (v.isAllocSet k i=true ↔ i<lo m k ∨ e/2^k ≤ i)) :
    targets v v.metaEnd k=vacs m e k := by
  obtain ⟨hlo,heven⟩ := h.lo_lt hk
  have hin := h.consulted_lt he hk
  have hnext : v.blkIndexNext k v.metaEnd=lo m k := by rw [h.metaEnd,blkIndexNext_eq]
  have hindex : v.blkIndex k v.actualEnd=e/2^k := by rw [h.actualEnd,blkIndex_eq]
  have hlt : v.metaEnd < v.actualEnd := by
    have hroom := h.room
    rw [h.metaEnd,h.actualEnd,leafSize]
    omega
  rw [consulted,hnext,hindex,if_pos hlt] at hin
  have hlob := hin (BuddySystem.buddyIndex (lo m k)) (by simp)
  have hhi := hin (e/2^k) (by simp)
  have hhib := hin (BuddySystem.buddyIndex (e/2^k)) (by simp)
  have hapart := h.apart (k:=k)
  rw [vacs,targets,hnext,hindex,if_pos hlt]
  congr 1
  · by_cases hodd : lo m k%2=1
    · have hbuddy : BuddySystem.buddyIndex (lo m k)=lo m k-1 := if_neg (by omega)
      have h2 : v.isAllocSet k (lo m k-1)=true := (hbit _ (by omega)).mpr (by omega)
      by_cases hopen : lo m k<e/2^k
      · have h1 : v.isAllocSet k (lo m k)=false := by
          rw [Bool.eq_false_iff,ne_eq,hbit _ hlo]
          omega
        rw [pairTarget_free h1 (hbuddy.symm ▸ h2),if_pos ⟨hopen,hodd⟩]
        rfl
      · have h1 : v.isAllocSet k (lo m k)=true := (hbit _ hlo).mpr (by omega)
        rw [pairTarget_same (by rw [hbuddy,h1,h2]),if_neg (by omega)]
        rfl
    · have hbuddy : BuddySystem.buddyIndex (lo m k)=lo m k+1 := if_pos (by omega)
      rw [hbuddy] at hlob
      have hsame : v.isAllocSet k (lo m k)=v.isAllocSet k (lo m k+1) := by
        rw [Bool.eq_iff_iff,hbit _ hlo,hbit _ hlob]
        omega
      rw [pairTarget_same (by rw [hbuddy,hsame]),if_neg (by omega)]
      rfl
  · have h1 : v.isAllocSet k (e/2^k)=true := (hbit _ hhi).mpr (by omega)
    by_cases hodd : e/2^k%2=1
    · have hbuddy : BuddySystem.buddyIndex (e/2^k)=e/2^k-1 := if_neg (by omega)
      rw [hbuddy] at hhib
      by_cases hopen : lo m k<e/2^k
      · have h2 : v.isAllocSet k (e/2^k-1)=false := by
          rw [Bool.eq_false_iff,ne_eq,hbit _ hhib]
          omega
        rw [pairTarget_buddy h1 (hbuddy.symm ▸ h2),if_pos ⟨hopen,hodd⟩,hbuddy]
        rfl
      · have h2 : v.isAllocSet k (e/2^k-1)=true := (hbit _ hhib).mpr (by omega)
        rw [pairTarget_same (by rw [hbuddy,h1,h2]),if_neg (by omega)]
        rfl
    · have hbuddy : BuddySystem.buddyIndex (e/2^k)=e/2^k+1 := if_pos (by omega)
      rw [hbuddy] at hhib
      have h2 : v.isAllocSet k (e/2^k+1)=true := (hbit _ hhib).mpr (by omega)
      rw [pairTarget_same (by rw [hbuddy,h1,h2]),if_neg (by omega)]
      rfl

/-- The bits behind the alloc bits of a level of whole bytes are those of the next level. -/
theorem isAllocSet_behind (h : Placed v) (hk : k+3 ≤ v.maxSize) (j : ℕ) :
    v.isAllocSet k (v.nBlk k+j)=v.isAllocSet (k+1) j := by
  obtain ⟨d,hd⟩ : ∃ d,v.maxSize-k=d+3 := ⟨v.maxSize-k-3,by omega⟩
  have hblk : v.nBlk k=2^d*8 := by rw [BuddySystem.nBlk,hd,Nat.pow_add]
  have hpos := Nat.two_pow_pos d
  have hslice : v.sliceSize k=2^d := by
    rw [BuddySystem.sliceSize,roundUp,hblk,Nat.mul_div_cancel _ (by decide)]
    omega
  have hcur : v.alloc (k+1)=v.alloc k+2^d := by
    rw [h.alloc,h.alloc,BuddySystem.allocCur,hslice]
  rw [BuddySystem.isAllocSet,BuddySystem.isAllocSet,hcur,hblk]
  congr 1
  omega

/-- In a region that is the largest block there is a level below whose last block `init_free`
pushes one. -/
theorem Region.target_behind (h : Region v m e) (he : e=2^v.maxSize)
    (hbit : ∀ c,c ≤ root v → (v.isAllocSet c.level c.index=true ↔
      c.index<lo m c.level ∨ e/2^c.level ≤ c.index)) :
    ∃ k < v.maxSize,e/2^k+1∈targets v v.metaEnd k := by
  have hm := h.two_le
  have hq := h.quarter
  obtain ⟨k,hk⟩ : ∃ k,Nat.clog 2 m=k+1 :=
    ⟨Nat.clog 2 m-1,by have := Nat.clog_pos (by decide : 1<2) hm; omega⟩
  have hbelow : 2^k < m := by
    have hpred := Nat.pow_pred_clog_lt_self (by decide : 1<2) hm
    rwa [hk] at hpred
  have habove : m≤2^(k+1) := by
    have hclog := Nat.le_pow_clog (by decide : 1<2) m
    rwa [hk] at hclog
  have hlevel : k+2 < v.maxSize := by
    refine (Nat.pow_lt_pow_iff_right (by decide : 1<2)).mp ?_
    rw [Nat.pow_add]
    omega
  have hindex : v.blkIndex k v.actualEnd=e/2^k := by rw [h.actualEnd,blkIndex_eq]
  have hlast : ∀ j,j ≤ v.maxSize → e/2^j=2^(v.maxSize-j) := fun j hj => by
    rw [he,Nat.pow_div hj (by decide)]
  have hblk : v.nBlk k=e/2^k := (hlast k (by omega)).symm
  have hfour : 4≤2^(v.maxSize-(k+1)) := by
    have hpow : 2^2≤2^(v.maxSize-(k+1)) := Nat.pow_le_pow_right (by decide) (by omega)
    exact hpow
  have hfirst : v.isAllocSet k (e/2^k)=true := by
    have hbehind := isAllocSet_behind h.placed (k:=k) (by omega) 0
    rw [Nat.add_zero,hblk] at hbehind
    rw [hbehind]
    refine (hbit ⟨k+1,0⟩ (le_root v (by omega) (by omega))).mpr (.inl ?_)
    rw [lt_lo_iff,Nat.zero_mul]
    omega
  have hsecond : v.isAllocSet k (e/2^k+1)=false := by
    have hbehind := isAllocSet_behind h.placed (k:=k) (by omega) 1
    rw [hblk] at hbehind
    rw [hbehind,Bool.eq_false_iff,ne_eq,hbit ⟨k+1,1⟩ (le_root v (by omega) (by omega)),lt_lo_iff,
      hlast (k+1) (by omega),Nat.one_mul]
    dsimp only
    omega
  have hbuddy : BuddySystem.buddyIndex (e/2^k)=e/2^k+1 := by
    refine if_pos ?_
    have heven := (h.lo_lt (k:=k) (by omega)).2
    rwa [hblk] at heven
  have hlt : v.metaEnd < v.actualEnd := by
    have hroom := h.room
    rw [h.metaEnd,h.actualEnd,leafSize]
    omega
  refine ⟨k,by omega,?_⟩
  rw [targets,hindex,if_pos hlt,pairTarget_buddy hfirst (hbuddy.symm ▸ hsecond),hbuddy]
  simp

end Marked

section Accepts

variable {s p : BuddySystem} {start stop m e : ℕ}

/-- `init` succeeds when the byte counts add up. -/
theorem init_of_total (hs : s.initialized=false) (hstart : start≠0)
    (hp : p=s.place start stop) (h : Region p m e)
    (htotal : ∑ k∈Finset.range p.maxSize,(targets (marks p) p.metaEnd k).length*blkSize k=
      (e-m)*leafSize) : ∃ t,s.init start stop=.ok t := by
  have hleaf : leafSize∣pageSize := by decide
  have hbase : p.base%leafSize=0 :=
    Nat.mod_eq_zero_of_dvd (hp ▸ hleaf.trans (place_base s start stop))
  have hsame := markLoop_same p p.base p.metaEnd
  have hm := h.metaEnd
  have he := h.actualEnd
  have hcov := h.covers
  have hroom := h.room
  have hright : (p.markLoop p.base p.metaEnd).actualEnd+
      (blkSize (p.markLoop p.base p.metaEnd).maxSize-
        ((p.markLoop p.base p.metaEnd).actualEnd-(p.markLoop p.base p.metaEnd).base))=
      p.base+2^p.maxSize*leafSize := by
    rw [hsame.actualEnd,hsame.base,hsame.maxSize,blkSize,he]
    rw [leafSize]
    omega
  have hfree : (marks p).initFree p.metaEnd=((e-m)*leafSize,{marks p with
      links := pushLevels (marks p) (targets (marks p) p.metaEnd) p.maxSize}) := by
    rw [BuddySystem.initFree,(marks_same p).maxSize,initFree_eq,htotal]
  have hbytes : ((marks p).initFree p.metaEnd).1=(e-m)*leafSize := by rw [hfree]
  have hblk : blkSize ((marks p).initFree p.metaEnd).2.maxSize=2^p.maxSize*leafSize := by
    rw [hfree,← (marks_same p).maxSize]
    rfl
  unfold BuddySystem.init BuddySystem.mark
  rw [if_neg (by rw [hs]; decide),if_neg hstart]
  dsimp only
  rw [← hp,if_neg (by rw [he]; omega),if_neg]
  · dsimp only
    rw [hright,if_neg]
    · dsimp only
      change ∃ t,(if blkSize ((marks p).initFree p.metaEnd).2.maxSize<_ then _ else
        if ((marks p).initFree p.metaEnd).1≠blkSize ((marks p).initFree p.metaEnd).2.maxSize-_-_
          then _ else _)=_
      rw [hblk,hbytes,hsame.actualEnd,hsame.base,hsame.maxSize,blkSize,he,hm]
      rw [leafSize] at *
      rw [if_neg (by omega),if_neg (by omega)]
      exact ⟨_,rfl⟩
    · rw [hsame.actualEnd,he]
      rw [leafSize] at *
      omega
  · rw [hm]
    rw [leafSize] at *
    omega

/-- A region is accepted when it is smaller than the largest block. -/
theorem init_accepts_iff (hs : s.initialized=false) (hstart : start≠0)
    (hp : p=s.place start stop) (h : Region p m e) :
    (∃ t,s.init start stop=.ok t) ↔ e<2^p.maxSize := by
  have hsame := marks_same p
  have hv : Region (marks p) m e := h.same hsame
  have hvmeta : (marks p).metaEnd=p.metaEnd := metaEnd_congr hsame.base hsame.nsizes
  have hbit : ∀ c,c ≤ root (marks p) → ((marks p).isAllocSet c.level c.index=true ↔
      c.index<lo m c.level ∨ e/2^c.level ≤ c.index) := fun c hc => marks_bit hp h hc
  have hpos : 0 < m := by
    have htwo := h.two_le
    omega
  constructor
  · rintro ⟨t,ht⟩
    by_contra hge
    have he : e=2^(marks p).maxSize := by
      have hcov := h.covers
      rw [hsame.maxSize]
      omega
    obtain ⟨-,-,htotal,-⟩ := init_passes ht hp rfl
    obtain ⟨k,hk,hmem⟩ := hv.target_behind he hbit
    rw [hv.toBorders.targets_eq hbit hpos ?_ hk,mem_vacs] at hmem
    · omega
    · rw [htotal,h.actualEnd,h.metaEnd,leafSize]
      omega
  · intro he
    refine init_of_total hs hstart hp h ?_
    rw [← hsame.maxSize] at he ⊢
    rw [← hv.toBorders.sum_vacs hpos,← hvmeta]
    refine Finset.sum_congr rfl fun k hk => ?_
    have hk := Finset.mem_range.mp hk
    rw [hv.targets_eq he hk fun i hi => hbit ⟨k,i⟩ (le_root _ hk.le hi)]

end Accepts

/-- The size of the page-rounded region. -/
def regionSize (start stop : UInt64) : ℕ :=
  roundDown stop.toNat pageSize-roundUp start.toNat pageSize

/-- The region has room for the metadata and a leaf behind them. -/
def Room (s : BuddySystem) (start stop : UInt64) : Prop :=
  (s.place start.toNat stop.toNat).metaEnd+leafSize≤(s.place start.toNat stop.toNat).actualEnd

section Main

variable {s : BuddySystem} {start stop : UInt64}

/-- `init` succeeds exactly if its computation with natural numbers does and the largest block
ends at an address. -/
theorem init_eq_ok_iff (hs : s.initialized=false) (hstart : start≠0) {t : BuddySystem}
    (hle : (s.place start.toNat stop.toNat).base≤(s.place start.toNat stop.toNat).actualEnd) :
    init s start stop=.ok t ↔ s.init start.toNat stop.toNat=.ok t ∧
      (s.place start.toNat stop.toNat).base+blkSize (s.place start.toNat stop.toNat).maxSize<
        2^64 := by
  rw [init]
  split
  · rename_i hov
    refine iff_of_false (fun h => ?_) fun h => ?_
    · cases h
    · omega
  · rename_i hov
    have hlt : (s.place start.toNat stop.toNat).base+
        blkSize (s.place start.toNat stop.toNat).maxSize<2^64 := by
      by_contra hge
      exact hov ⟨hs,hstart,hle,by omega⟩
    rw [and_iff_left hlt]
    cases s.init start.toNat stop.toNat with
    | error e => exact iff_of_false (fun h => by cases h) (fun h => by cases h)
    | ok u =>
      constructor
      · intro h
        cases h
        rfl
      · intro h
        cases h
        rfl

/-- A start of zero makes `round_up` wrap. -/
theorem init_zero (hs : s.initialized=false) : init s 0 stop=.error (.panic .underflow) := by
  rw [init,if_neg (by simp),BuddySystem.init,if_neg (by rw [hs]; decide),if_pos (by rfl)]
  rfl

/-- In a region with room, `init` is correct exactly if it succeeds. -/
theorem correct_iff (hs : s.initialized=false) (hstart : start≠0) (hroom : Room s start stop) :
    InitCorrect start stop (init s start stop) ↔
      (∀ n,regionSize start stop≠2^n) ∧
        ∃ n,regionSize start stop≤2^n ∧ roundUp start.toNat pageSize+2^n<2^64 := by
  obtain ⟨p,hp⟩ : ∃ p,p=s.place start.toNat stop.toNat := ⟨_,rfl⟩
  have hbase : p.base=roundUp start.toNat pageSize := by rw [hp]; rfl
  have hend : p.actualEnd=roundDown stop.toNat pageSize := by rw [hp]; rfl
  rw [Room,← hp] at hroom
  obtain ⟨m,e,h⟩ := place_region hp hroom
  have hle : p.base≤p.actualEnd := by
    rw [h.actualEnd]
    omega
  have hnat : start.toNat≠0 := fun h0 => hstart (UInt64.toNat_inj.mp h0)
  have hsize : regionSize start stop=p.actualEnd-p.base := by rw [regionSize,hbase,hend]
  have hcov := h.covers
  have hpow : (∀ n,regionSize start stop≠2^n) ↔ e<2^p.maxSize := by
    rw [hsize,← not_exists,h.pow_iff]
    omega
  rw [hpow,hsize,← hbase,h.fits_iff]
  constructor
  · rintro ⟨t,ht,-⟩
    rw [init_eq_ok_iff hs hstart (hp ▸ hle),← hp] at ht
    exact ⟨(init_accepts_iff hs hnat hp h).mp ⟨t,ht.1⟩,ht.2⟩
  · rintro ⟨he,hfit⟩
    obtain ⟨t,ht⟩ := (init_accepts_iff hs hnat hp h).mpr he
    obtain ⟨hsame,-⟩ := init_borders ht
    rw [← hp] at hsame
    refine ⟨t,?_,?_,?_,init_divides ht,fun k hk => ?_⟩
    · rw [init_eq_ok_iff hs hstart (hp ▸ hle),← hp]
      exact ⟨ht,hfit⟩
    · rw [hsame.base,hbase]
    · rw [hsame.actualEnd,hend]
    · refine (h.same hsame).consulted_lt ?_ hk
      rw [hsame.maxSize]
      exact he

end Main

/-- For every region with room behind the metadata, `init` succeeds, divides what lies between the
metadata and the end into the blocks of its free lists and consults alloc bits of their levels only,
exactly if the start is not zero, the size is no power of two and the smallest block that holds the
region ends at an address. -/
theorem init_correct_iff (bits : ℕ → Bool) (links : Links ℕ) (start stop : UInt64)
    (hroom : start≠0 → Room (uninit bits links) start stop) :
    InitCorrect start stop (init (uninit bits links) start stop) ↔
      start≠0 ∧ (∀ n,regionSize start stop≠2^n) ∧
        ∃ n,regionSize start stop≤2^n ∧ roundUp start.toNat pageSize+2^n<2^64 := by
  by_cases hstart : start=0
  · subst hstart
    rw [init_zero rfl]
    refine ⟨fun h => ?_,fun h => absurd rfl h.1⟩
    obtain ⟨t,ht,-⟩ := h
    cases ht
  · rw [correct_iff rfl hstart (hroom hstart)]
    exact (and_iff_right hstart).symm

/-- Three pages are managed. -/
theorem init_correct_iff_threePages :
    InitCorrect 4096 16384 (init (uninit (fun _ => false) ⟨id,id⟩) 4096 16384) := by
  refine (init_correct_iff (fun _ => false) ⟨id,id⟩ 4096 16384 fun _ => ?_).mpr
    ⟨by decide,fun n hn => ?_,14,by decide,by decide⟩
  · rw [Room]
    decide
  · have hsize : regionSize 4096 16384=3*4096 := by decide
    have hdvd : 3∣2^n := hn ▸ hsize ▸ Nat.dvd_mul_right 3 4096
    exact absurd (Nat.prime_three.dvd_of_dvd_pow hdvd) (by decide)

/-- A region of one page has room for the metadata, and `init` does not accept it. -/
theorem one_page_rejected :
    Room (uninit (fun _ => false) ⟨id,id⟩) 4096 8192 ∧
      ¬InitCorrect 4096 8192 (init (uninit (fun _ => false) ⟨id,id⟩) 4096 8192) := by
  have hroom : Room (uninit (fun _ => false) ⟨id,id⟩) 4096 8192 := by
    rw [Room]
    decide
  refine ⟨hroom,fun h => ?_⟩
  rw [correct_iff rfl (by decide) hroom] at h
  exact h.1 12 (by decide)

end Xv6Rust.BuddyRegions
