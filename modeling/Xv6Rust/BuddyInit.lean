import Xv6Rust.BuddyCalls

/-!
# The shape after `init`

`init` marks every block that meets the metadata or the range beyond the end,
and pushes the free block of each half-marked pair at the two borders. The
shape it is meant to build is the one of the reserved leaves. At a border pair
that is reached from both sides, and at an index behind the last block of a
level, the code pushes a block too many; the final comparison of the byte
counts rejects exactly these cases, because no vacant block is ever missed.
-/

namespace Xv6Rust.BuddyInit

open DyadicBlocks IntrusiveList Kalloc BuddyShape BuddyCalls

/-- The leaves of the metadata and those that do not lie before the end. -/
def reserved (s : BuddySystem) : Set Blk :=
  {b | b.level=0 ∧ b.index<2^s.maxSize ∧
    (s.base+b.index*leafSize < s.metaEnd ∨ s.actualEnd < s.base+(b.index+1)*leafSize)}

theorem log2Loop_spec (fuel n k : ℕ) (h : n≤fuel) :
    (n+1)*2^k≤2^(log2Loop fuel n k+1) := by
  induction fuel generalizing n k with
  | zero =>
    have hn : n=0 := by omega
    rw [log2Loop,hn,Nat.zero_add,Nat.one_mul]
    exact Nat.pow_le_pow_right (by decide) (Nat.le_succ _)
  | succ fuel ih =>
    rw [log2Loop]
    split
    · have hrec := ih (n/2) (k+1) (by omega)
      have hle : (n+1)*2^k≤(n/2+1)*2^(k+1) := by
        rw [Nat.pow_succ,Nat.mul_comm (2^k) 2,← Nat.mul_assoc]
        exact Nat.mul_le_mul_right _ (by omega)
      exact hle.trans hrec
    · rw [Nat.pow_succ,Nat.mul_comm (2^k) 2]
      exact Nat.mul_le_mul_right _ (by omega)

/-- A number is below the power after its logarithm. -/
theorem lt_two_pow_log2 (n : ℕ) : n<2^(log2 n+1) := by
  have h := log2Loop_spec n n 0 (Nat.le_refl n)
  rw [Nat.pow_zero,Nat.mul_one] at h
  exact h

theorem roundDown_dvd (n size : ℕ) : size∣roundDown n size := Dvd.intro_left _ rfl

theorem roundUp_dvd (n size : ℕ) : size∣roundUp n size := Dvd.intro_left _ rfl

theorem le_roundUp {n size : ℕ} (hs : 0 < size) : n ≤ roundUp n size := by
  have h := Nat.div_add_mod (n-1) size
  have hm := Nat.mod_lt (n-1) hs
  rw [roundUp,Nat.add_mul,Nat.one_mul,Nat.mul_comm]
  omega

section Place

variable (s : BuddySystem) (start stop : ℕ)

/-- The range starts at a page. -/
theorem place_base : pageSize∣(s.place start stop).base := roundUp_dvd ..

/-- The range ends at a page. -/
theorem place_actualEnd : pageSize∣(s.place start stop).actualEnd := roundDown_dvd ..

theorem place_nsizes : 0<(s.place start stop).nsizes := by
  change 0 < ite _ _ _
  split <;> exact Nat.succ_pos _

/-- The largest block covers the range. -/
theorem place_covers : (s.place start stop).actualEnd-(s.place start stop).base≤
    blkSize (s.place start stop).maxSize := by
  generalize hb : (s.place start stop).base=base
  generalize he : (s.place start stop).actualEnd=stop'
  have hn : (s.place start stop).nsizes=
      if stop'-base>blkSize (log2 ((stop'-base)/leafSize)+1-1) then
        log2 ((stop'-base)/leafSize)+1+1 else log2 ((stop'-base)/leafSize)+1 := by
    subst hb he
    rfl
  rw [BuddySystem.maxSize,hn]
  split
  · have hlog := lt_two_pow_log2 ((stop'-base)/leafSize)
    have hdvd : leafSize∣stop'-base := by
      have hleaf : leafSize∣pageSize := by decide
      subst hb he
      exact Nat.dvd_sub (hleaf.trans (place_actualEnd s start stop))
        (hleaf.trans (place_base s start stop))
    rw [Nat.add_sub_cancel,blkSize]
    calc stop'-base=(stop'-base)/leafSize*leafSize := (Nat.div_mul_cancel hdvd).symm
      _ ≤ _ := Nat.mul_le_mul_right _ hlog.le
  · omega

theorem allocCur_congr {s t : BuddySystem} (hb : s.base=t.base) (hn : s.nsizes=t.nsizes) (k : ℕ) :
    s.allocCur k=t.allocCur k := by
  induction k with
  | zero => rw [BuddySystem.allocCur,BuddySystem.allocCur,hb,hn]
  | succ k ih =>
    rw [BuddySystem.allocCur,BuddySystem.allocCur,ih]
    simp only [BuddySystem.sliceSize,BuddySystem.nBlk,BuddySystem.maxSize,hn]

theorem splitCur_congr {s t : BuddySystem} (hb : s.base=t.base) (hn : s.nsizes=t.nsizes) (k : ℕ) :
    s.splitCur k=t.splitCur k := by
  have hzero : s.allocCur s.nsizes=t.allocCur t.nsizes := by
    rw [hn]
    exact allocCur_congr hb hn _
  induction k with
  | zero => exact hzero
  | succ k ih =>
    cases k with
    | zero => exact hzero
    | succ k =>
      rw [BuddySystem.splitCur,BuddySystem.splitCur,ih]
      simp only [BuddySystem.sliceSize,BuddySystem.nBlk,BuddySystem.maxSize,hn]

/-- The system with its range, before the metadata are placed. -/
def sized : BuddySystem :=
  {s with
    base := (s.place start stop).base
    actualEnd := (s.place start stop).actualEnd
    nsizes := (s.place start stop).nsizes}

theorem place_alloc (k : ℕ) : (s.place start stop).alloc k=(s.place start stop).allocCur k :=
  allocCur_congr (s:=sized s start stop) (t:=s.place start stop) rfl rfl k

theorem place_split (k : ℕ) : (s.place start stop).split k=(s.place start stop).splitCur k :=
  splitCur_congr (s:=sized s start stop) (t:=s.place start stop) rfl rfl k

/-- The slices are zeroed. -/
theorem place_bits {i : ℕ} (h1 : 8*(s.place start stop).allocCur 0 ≤ i)
    (h2 : i<8*(s.place start stop).splitCur (s.place start stop).nsizes) :
    (s.place start stop).bits i=false := by
  rw [← splitCur_congr (s:=sized s start stop) (t:=s.place start stop) rfl rfl] at h2
  exact if_pos ⟨h1,h2⟩

end Place

section Slices

variable (s : BuddySystem)

theorem allocCur_mono {i j : ℕ} (h : i≤j) : s.allocCur i ≤ s.allocCur j := by
  induction j with
  | zero =>
    have hi : i=0 := by omega
    rw [hi]
  | succ j ih =>
    rcases Nat.lt_or_ge j i with hlt|hge
    · have hi : i=j+1 := by omega
      rw [hi]
    · exact (ih hge).trans (Nat.le_add_right _ _)

theorem splitCur_mono {i j : ℕ} (h : i≤j) : s.splitCur i ≤ s.splitCur j := by
  induction j with
  | zero =>
    have hi : i=0 := by omega
    rw [hi]
  | succ j ih =>
    rcases Nat.lt_or_ge j i with hlt|hge
    · have hi : i=j+1 := by omega
      rw [hi]
    · refine (ih hge).trans ?_
      cases j with
      | zero => exact Nat.le_refl _
      | succ j => exact Nat.le_add_right _ _

/-- A slice has a bit for every block of its level. -/
theorem index_lt_slice {b : Blk} (hb : b ≤ root s) : b.index<8*s.sliceSize b.level := by
  have hindex : b.index < s.nBlk b.level := by
    have h2 : b.index/2^(s.maxSize-b.level)=0 := hb.2
    exact (Nat.div_eq_zero_iff_lt (Nat.two_pow_pos _)).mp h2
  have hround : s.nBlk b.level ≤ roundUp (s.nBlk b.level) 8 := le_roundUp (by decide)
  have hdvd := roundUp_dvd (s.nBlk b.level) 8
  rw [BuddySystem.sliceSize,Nat.mul_div_cancel' hdvd]
  omega

theorem splitCur_succ {k : ℕ} (hk : 0<k) : s.splitCur (k+1)=s.splitCur k+s.sliceSize k := by
  cases k with
  | zero => cases hk
  | succ k => rfl

/-- The records of the levels lie before the end of the slices. -/
theorem infos_le_splitCur : s.base+infoSize*s.nsizes ≤ s.splitCur s.nsizes :=
  (allocCur_mono s (Nat.zero_le _)).trans (splitCur_mono s (Nat.zero_le _))

/-- The slices lie before the end of the metadata. -/
theorem splitCur_le_metaEnd : s.splitCur s.nsizes ≤ s.metaEnd := le_roundUp (by decide)

theorem index_lt {b : Blk} (hb : b ≤ root s) : b.index<2^(s.maxSize-b.level) :=
  (Nat.div_eq_zero_iff_lt (Nat.two_pow_pos _)).mp hb.2

theorem le_root {k i : ℕ} (hk : k ≤ s.maxSize) (hi : i<2^(s.maxSize-k)) : (⟨k,i⟩ : Blk) ≤ root s :=
  ⟨hk,Nat.div_eq_of_lt hi⟩

end Slices

/-- The slices lie where `init` places them. -/
structure Placed (s : BuddySystem) : Prop where
  /-- There is a level. -/
  nsizes : 0 < s.nsizes
  /-- The alloc slices. -/
  alloc : ∀ k,s.alloc k=s.allocCur k
  /-- The split slices. -/
  split : ∀ k,s.split k=s.splitCur k

/-- The metadata end after the given number of leaves and the range after another. -/
structure Borders (s : BuddySystem) (m e : ℕ) : Prop where
  /-- End of the metadata. -/
  metaEnd : s.metaEnd=s.base+m*leafSize
  /-- End of the range. -/
  actualEnd : s.actualEnd=s.base+e*leafSize
  /-- The metadata fit. -/
  fits : m≤e
  /-- The largest block covers the range. -/
  covers : e≤2^s.maxSize

section Static

variable {s : BuddySystem}

theorem Placed.level_lt (h : Placed s) {b : Blk} (hb : b ≤ root s) : b.level < s.nsizes := by
  have hl : b.level ≤ s.nsizes-1 := hb.1
  have hn := h.nsizes
  omega

theorem Placed.same (h : Placed s) {t : BuddySystem} (hst : Same s t) : Placed t where
  nsizes := hst.nsizes.symm ▸ h.nsizes
  alloc k := by rw [hst.alloc,h.alloc,allocCur_congr hst.base hst.nsizes]
  split k := by rw [hst.split,h.split,splitCur_congr hst.base hst.nsizes]

/-- An alloc bit lies in the slice of its level. -/
theorem Placed.allocBit (h : Placed s) {b : Blk} (hb : b ≤ root s) :
    allocBit s b=8*s.allocCur b.level+b.index ∧ allocBit s b<8*s.allocCur (b.level+1) := by
  have hi := index_lt_slice s hb
  rw [BuddyShape.allocBit,h.alloc,BuddySystem.allocCur]
  omega

/-- A split bit lies in the slice of its level. -/
theorem Placed.splitBit (h : Placed s) {b : Blk} (hb : b ≤ root s) (hl : 0<b.level) :
    splitBit s b=8*s.splitCur b.level+b.index ∧ splitBit s b<8*s.splitCur (b.level+1) := by
  have hi := index_lt_slice s hb
  rw [BuddyShape.splitBit,h.split,splitCur_succ s hl]
  omega

/-- Slices that follow each other have different bits. -/
theorem eq_of_slice {cur : ℕ → ℕ} (hcur : ∀ i j,i≤j → cur i ≤ cur j) {b c : Blk} {x : ℕ}
    (hb : x=8*cur b.level+b.index) (hb' : x<8*cur (b.level+1)) (hc : x=8*cur c.level+c.index)
    (hc' : x<8*cur (c.level+1)) : b=c := by
  have hlevel : b.level=c.level := by
    rcases Nat.lt_trichotomy b.level c.level with hlt|heq|hgt
    · have hmono := hcur (b.level+1) c.level hlt
      omega
    · exact heq
    · have hmono := hcur (c.level+1) b.level hgt
      omega
  obtain ⟨k,i⟩ := b
  obtain ⟨l,j⟩ := c
  dsimp only at hlevel hb hc
  subst hlevel
  have hij : i=j := by omega
  rw [hij]

/-- The slices lie before the end of the metadata. -/
theorem Placed.bits_lt (h : Placed s) {b : Blk} (hb : b ≤ root s) :
    BuddyShape.allocBit s b<8*s.metaEnd ∧
      (0<b.level → BuddyShape.splitBit s b<8*s.metaEnd) := by
  have hlevel : b.level+1 ≤ s.nsizes := h.level_lt hb
  have h1 : s.allocCur s.nsizes ≤ s.splitCur s.nsizes := splitCur_mono s (Nat.zero_le _)
  have h2 := splitCur_le_metaEnd s
  have h3 := allocCur_mono s hlevel
  have h4 := splitCur_mono s hlevel
  refine ⟨?_,fun hl => ?_⟩
  · have h5 := (h.allocBit hb).2
    omega
  · have h5 := (h.splitBit hb hl).2
    omega

/-- The list heads lie before the end of the metadata. -/
theorem head_lt_metaEnd {k : ℕ} (hk : k < s.nsizes) : s.head k < s.metaEnd := by
  have hinfos := infos_le_splitCur s
  have hend := splitCur_le_metaEnd s
  have hmul : infoSize*k < infoSize*s.nsizes := Nat.mul_lt_mul_of_pos_left hk (by decide)
  rw [BuddySystem.head]
  omega

/-- The placement that `init` computes has the fixed part of the shape. -/
theorem Placed.static (h : Placed s) {m e : ℕ} (hb : Borders s m e) : Static (reserved s) s where
  nsizes := h.nsizes
  allocBit b c hle hle' heq := by
    obtain ⟨h1,h2⟩ := h.allocBit hle
    obtain ⟨h3,h4⟩ := h.allocBit hle'
    rw [heq] at h1 h2
    exact eq_of_slice (fun i j => allocCur_mono s) h1 h2 h3 h4
  splitBit b c hle hle' hl hl' heq := by
    obtain ⟨h1,h2⟩ := h.splitBit hle hl
    obtain ⟨h3,h4⟩ := h.splitBit hle' hl'
    rw [heq] at h1 h2
    exact eq_of_slice (fun i j => splitCur_mono s) h1 h2 h3 h4
  allocSplit b c hle hle' hl heq := by
    obtain ⟨-,h2⟩ := h.allocBit hle
    obtain ⟨h3,-⟩ := h.splitBit hle' hl
    have hcur : s.allocCur (b.level+1) ≤ s.allocCur s.nsizes := allocCur_mono s (h.level_lt hle)
    have hsplit : s.allocCur s.nsizes ≤ s.splitCur c.level := splitCur_mono s (Nat.zero_le _)
    omega
  infos l hl := by
    have hinfos := infos_le_splitCur s
    have hslices := splitCur_le_metaEnd s
    have hm := hb.metaEnd
    have hfits := hb.fits
    have hcov := hb.covers
    rw [leafSize] at hl hm
    exact ⟨rfl,by dsimp only; omega,.inl (by rw [leafSize]; dsimp only; omega)⟩
  tail l hl hend := ⟨rfl,hl,.inr hend⟩

/-- The number of leaves below a block of a level, rounded up. -/
def lo (m k : ℕ) : ℕ := (m+(2^k-1))/2^k

theorem lt_lo_iff {m k i : ℕ} : i<lo m k ↔ i*2^k < m := by
  have hpos := Nat.two_pow_pos k
  rw [lo,← Nat.succ_le_iff,Nat.le_div_iff_mul_le hpos,Nat.succ_mul]
  omega

theorem lo_succ (m k : ℕ) : lo m (k+1)=(lo m k+1)/2 := by
  refine Nat.le_antisymm (Nat.le_of_not_lt fun h => ?_) (Nat.le_of_not_lt fun h => ?_)
  · rw [lt_lo_iff,Nat.pow_succ] at h
    have hlo : ¬(lo m k+1)/2*2<lo m k := by omega
    rw [lt_lo_iff] at hlo
    rw [Nat.mul_comm (2^k) 2,← Nat.mul_assoc] at h
    exact hlo h
  · have hlo : lo m (k+1)*2<lo m k := by omega
    rw [lt_lo_iff,Nat.mul_assoc,Nat.mul_comm 2,← Nat.pow_succ,← lt_lo_iff] at hlo
    exact absurd hlo (Nat.lt_irrefl _)

theorem succ_mul_pow_lt_iff {e k i : ℕ} : e<(i+1)*2^k ↔ e/2^k ≤ i := by
  rw [← Nat.div_lt_iff_lt_mul (Nat.two_pow_pos k)]
  omega

/-- A block is occupied by the reserved leaves when it meets one of the borders. -/
theorem Borders.occupied {m e : ℕ} (h : Borders s m e) {c : Blk} (hc : c ≤ root s) :
    Occupied (reserved s) c ↔ c.index<lo m c.level ∨ e/2^c.level ≤ c.index := by
  have hpos := Nat.two_pow_pos c.level
  have hroot := (start_le_start hc).2
  have hend : c.start+2^c.level=(c.index+1)*2^c.level := by
    rw [Blk.start,Nat.succ_mul]
  have htop : (root s).start+2^(root s).level=2^s.maxSize := by
    simp [root,Blk.start]
  have hm := h.metaEnd
  have he := h.actualEnd
  rw [lt_lo_iff,← succ_mul_pow_lt_iff,← hend,leafSize] at *
  change _ ↔ c.start < m ∨ _
  constructor
  · rintro ⟨⟨k,l⟩,⟨hk,-,hl⟩,hle⟩
    dsimp only at hk hl
    subst hk
    obtain ⟨h1,h2⟩ := leaf_le_iff.mp hle
    rw [leafSize] at hl
    omega
  · rintro (hlt|hlt)
    · refine ⟨⟨0,c.start⟩,⟨rfl,by dsimp only; omega,.inl ?_⟩,start_le c⟩
      rw [leafSize]
      dsimp only
      omega
    · refine ⟨⟨0,c.start+2^c.level-1⟩,⟨rfl,by dsimp only; omega,.inr ?_⟩,
        leaf_le_iff.mpr ⟨by omega,by omega⟩⟩
      rw [leafSize]
      dsimp only
      omega

/-- Above the leaves the reserved leaves divide what they occupy. -/
theorem divided_reserved {c : Blk} (hl : 0 < c.level) :
    Divided (reserved s) c ↔ Occupied (reserved s) c := by
  refine ⟨Divided.occupied,?_⟩
  rintro ⟨o,ho,hle⟩
  have hzero := ho.1
  exact ⟨o,ho,lt_iff.mpr ⟨hle,by omega⟩⟩

end Static

/-- Only bits change, and the alloc and split bits that get set are those of the given blocks. -/
structure Marked (s t : BuddySystem) (P : Blk → Prop) : Prop where
  /-- Only bits change. -/
  eq : t={s with bits := t.bits}
  /-- Alloc bits. -/
  alloc : ∀ c,c ≤ root s →
    (t.isAllocSet c.level c.index=true ↔ s.isAllocSet c.level c.index=true ∨ P c)
  /-- Split bits. -/
  split : ∀ c,c ≤ root s → 0 < c.level →
    (t.isSplitSet c.level c.index=true ↔ s.isSplitSet c.level c.index=true ∨ P c)

section Marks

variable {R : Set Blk} {s t u : BuddySystem} {P Q : Blk → Prop}

theorem Marked.refl (s : BuddySystem) : Marked s s fun _ => False :=
  ⟨rfl,fun _ _ => (or_iff_left id).symm,fun _ _ _ => (or_iff_left id).symm⟩

theorem Marked.root (h : Marked s t P) : root t=root s := by rw [h.eq]; rfl

theorem Marked.static (h : Marked s t P) (hs : Static R s) : Static R t := by
  rw [h.eq]
  exact {hs with}

theorem Marked.trans (h : Marked s t P) (h' : Marked t u Q) :
    Marked s u fun c => P c ∨ Q c where
  eq := by rw [h'.eq,h.eq]
  alloc c hc := by
    rw [h'.alloc c (h.root.symm ▸ hc),h.alloc c hc,or_assoc]
  split c hc hl := by
    rw [h'.split c (h.root.symm ▸ hc) hl,h.split c hc hl,or_assoc]

theorem Marked.imp (h : Marked s t P) (hPQ : ∀ c,c≤BuddyShape.root s → (P c ↔ Q c)) :
    Marked s t Q where
  eq := h.eq
  alloc c hc := by rw [h.alloc c hc,hPQ c hc]
  split c hc hl := by rw [h.split c hc hl,hPQ c hc]

/-- One pass of the inner loop of `mark`. -/
theorem markBlock_marked (hs : Static R s) {b : Blk} (hb : b ≤ root s) :
    Marked s (s.markBlock b.level b.index) (·=b) := by
  have hs' : Static R (s.allocSet b.level b.index true) := {hs with}
  unfold BuddySystem.markBlock
  dsimp only
  by_cases hl : b.level>0
  · rw [if_pos hl]
    refine ⟨rfl,fun c hc => ?_,fun c hc hlc => ?_⟩
    · rw [isAllocSet_splitSet hs' hb hc true hl,isAllocSet_allocSet hs hb hc]
      by_cases heq : c=b
      · simp [heq]
      · simp [heq]
    · rw [isSplitSet_splitSet hs' hb hc true hl hlc,isSplitSet_allocSet hs hb hc true hlc]
      by_cases heq : c=b
      · simp [heq]
      · simp [heq]
  · rw [if_neg hl]
    refine ⟨rfl,fun c hc => ?_,fun c hc hlc => ?_⟩
    · rw [isAllocSet_allocSet hs hb hc]
      by_cases heq : c=b
      · simp [heq]
      · simp [heq]
    · rw [isSplitSet_allocSet hs hb hc true hlc]
      have hne : c≠b := by
        rintro rfl
        exact hl hlc
      simp [hne]

/-- Marking blocks of one level. -/
theorem markLevel_marked (hs : Static R s) (k : ℕ) (is : List ℕ)
    (his : ∀ i∈is,(⟨k,i⟩ : Blk) ≤ root s) :
    Marked s (is.foldl (fun s b => s.markBlock k b) s) fun c => c.level=k ∧ c.index∈is := by
  induction is generalizing s with
  | nil => exact (Marked.refl s).imp fun c _ => by simp
  | cons i is ih =>
    have hfirst := markBlock_marked hs (his i List.mem_cons_self)
    have hrest := ih (hfirst.static hs) fun j hj =>
      hfirst.root.symm ▸ his j (List.mem_cons_of_mem _ hj)
    refine (hfirst.trans hrest).imp fun c _ => ?_
    obtain ⟨l,j⟩ := c
    simp only [Blk.mk.injEq,List.mem_cons]
    rw [← and_or_left]

/-- The block of a level after the given number of leaves. -/
theorem blkIndexNext_eq (s : BuddySystem) (k l : ℕ) :
    s.blkIndexNext k (s.base+l*leafSize)=lo l k := by
  have hpos := Nat.two_pow_pos k
  have hdm := Nat.div_add_mod l (2^k)
  have hmod := Nat.mod_lt l hpos
  rw [BuddySystem.blkIndexNext,Nat.add_sub_cancel_left,blkSize,
    Nat.mul_div_mul_right _ _ (by decide),Nat.mul_mod_mul_right]
  have hiff : l%2^k*leafSize>0 ↔ 0<l%2^k := by
    rw [leafSize]
    omega
  rw [lo]
  symm
  split
  · rename_i h
    rw [hiff] at h
    rw [Nat.div_eq_iff hpos,Nat.add_mul,Nat.mul_comm (l/2^k)]
    omega
  · rename_i h
    rw [hiff] at h
    rw [Nat.div_eq_iff hpos,Nat.mul_comm (l/2^k)]
    omega

/-- Marking a range of leaves at some levels. -/
theorem markLoop_marked (hs : Static R s) (l r : ℕ) (hr : r≤2^s.maxSize) (ks : List ℕ)
    (hks : ∀ k∈ks,k ≤ s.maxSize) :
    Marked s (ks.foldl (fun s' k => s'.markLevel k (s'.blkIndex k (s.base+l*leafSize))
        (s'.blkIndexNext k (s.base+r*leafSize))) s)
      fun c => c.level∈ks ∧ l/2^c.level ≤ c.index ∧ c.index<lo r c.level := by
  induction ks generalizing s with
  | nil => exact (Marked.refl s).imp fun c _ => by simp
  | cons k ks ih =>
    have hk := hks k List.mem_cons_self
    have hfirst : Marked s (s.markLevel k (s.blkIndex k (s.base+l*leafSize))
        (s.blkIndexNext k (s.base+r*leafSize))) fun c => c.level=k ∧ c.index∈List.range'
          (s.blkIndex k (s.base+l*leafSize)) (s.blkIndexNext k (s.base+r*leafSize)-
            s.blkIndex k (s.base+l*leafSize)) := by
      refine markLevel_marked hs k _ fun i hi => le_root s hk ?_
      rw [List.mem_range'_1,blkIndexNext_eq] at hi
      have hlt : i<lo r k := by omega
      rw [lt_lo_iff] at hlt
      have hpow : 2^(s.maxSize-k)*2^k=2^s.maxSize := by
        rw [← Nat.pow_add,Nat.sub_add_cancel hk]
      rw [← hpow] at hr
      exact Nat.lt_of_mul_lt_mul_right (hlt.trans_le hr)
    have hmax : (s.markLevel k (s.blkIndex k (s.base+l*leafSize))
        (s.blkIndexNext k (s.base+r*leafSize))).maxSize=s.maxSize := congrArg Blk.level hfirst.root
    have hbase : (s.markLevel k (s.blkIndex k (s.base+l*leafSize))
        (s.blkIndexNext k (s.base+r*leafSize))).base=s.base := by rw [hfirst.eq]
    have hrest := ih (hfirst.static hs) (hmax.symm ▸ hr) fun j hj =>
      hmax.symm ▸ hks j (List.mem_cons_of_mem _ hj)
    rw [hbase] at hrest
    refine (hfirst.trans hrest).imp fun c _ => ?_
    rw [List.mem_range'_1,blkIndexNext_eq,blkIndex_eq,List.mem_cons]
    obtain ⟨j,i⟩ := c
    dsimp only
    by_cases hj : j=k
    · subst hj
      simp only [true_and,true_or]
      omega
    · simp [hj]

end Marks

section Free

variable (s : BuddySystem) (left : ℕ)

/-- What `init_free` pushes at a level, in order. -/
def targets (k : ℕ) : List ℕ :=
  (s.pairTarget k (s.blkIndexNext k left)).toList++
    if left < s.actualEnd then (s.pairTarget k (s.blkIndex k s.actualEnd)).toList else []

/-- Pushing blocks of a level. -/
def pushAll (k : ℕ) (l : Links ℕ) (ts : List ℕ) : Links ℕ :=
  ts.foldl (fun l i => l.push (s.head k) (s.blkAddr k i)) l

theorem initFreePair_eq (k bi : ℕ) :
    s.initFreePair k bi=((s.pairTarget k bi).toList.length*blkSize k,
      {s with links := pushAll s k s.links (s.pairTarget k bi).toList}) := by
  unfold BuddySystem.initFreePair
  split
  · rename_i i h
    rw [h]
    simp [pushAll,BuddySystem.push]
  · rename_i h
    rw [h]
    simp [pushAll]

theorem initFreeLevel_eq (free k : ℕ) :
    BuddySystem.initFreeLevel left (free,s) k=(free+(targets s left k).length*blkSize k,
      {s with links := pushAll s k s.links (targets s left k)}) := by
  unfold BuddySystem.initFreeLevel targets
  dsimp only
  rw [initFreePair_eq]
  dsimp only
  split
  · rw [initFreePair_eq,List.length_append,Nat.add_mul,← Nat.add_assoc,pushAll,pushAll,pushAll,
      List.foldl_append]
    rfl
  · rw [List.append_nil]

/-- Pushing blocks of the lower levels. -/
def pushLevels (ts : ℕ → List ℕ) (n : ℕ) : Links ℕ :=
  (List.range n).foldl (fun l k => pushAll s k l (ts k)) s.links

theorem pushLevels_succ (ts : ℕ → List ℕ) (n : ℕ) :
    pushLevels s ts (n+1)=pushAll s n (pushLevels s ts n) (ts n) := by
  rw [pushLevels,List.range_succ,List.foldl_append]
  rfl

theorem pushLevels_congr {ts us : ℕ → List ℕ} {n : ℕ} (h : ∀ k,k<n → ts k=us k) :
    pushLevels s ts n=pushLevels s us n := by
  induction n with
  | zero => rfl
  | succ n ih =>
    rw [pushLevels_succ,pushLevels_succ,ih fun k hk => h k (by omega),h n (Nat.lt_succ_self n)]

/-- What `init_free` does. -/
theorem initFree_eq (n : ℕ) :
    (List.range n).foldl (BuddySystem.initFreeLevel left) (0,s)=
      (∑ k∈Finset.range n,(targets s left k).length*blkSize k,
        {s with links := pushLevels s (targets s left) n}) := by
  induction n with
  | zero => rfl
  | succ n ih =>
    rw [List.range_succ,List.foldl_append,ih,List.foldl_cons,List.foldl_nil,initFreeLevel_eq,
      Finset.sum_range_succ,pushLevels_succ]
    rfl

/-- The vacant blocks of a level between the borders. -/
def vacs (m e k : ℕ) : List ℕ :=
  (if lo m k<e/2^k ∧ lo m k%2=1 then [lo m k] else [])++
    if lo m k<e/2^k ∧ e/2^k%2=1 then [e/2^k-1] else []

theorem div_succ_pow (e k : ℕ) : e/2^(k+1)=e/2^k/2 := by
  rw [Nat.pow_succ,Nat.div_div_eq_div_mul]

theorem mem_vacs {m e k i : ℕ} :
    i∈vacs m e k ↔ lo m k ≤ i ∧ i<e/2^k ∧ (i/2<lo m (k+1) ∨ e/2^(k+1) ≤ i/2) := by
  rw [vacs,List.mem_append,lo_succ,div_succ_pow]
  generalize lo m k=a
  generalize e/2^k=b
  have hleft : i∈(if a<b ∧ a%2=1 then [a] else []) ↔ a<b ∧ a%2=1 ∧ i=a := by
    split
    · rename_i h
      simp [h]
    · rename_i h
      simp only [List.not_mem_nil,false_iff]
      omega
  have hright : i∈(if a<b ∧ b%2=1 then [b-1] else []) ↔ a<b ∧ b%2=1 ∧ i=b-1 := by
    split
    · rename_i h
      simp [h]
    · rename_i h
      simp only [List.not_mem_nil,false_iff]
      omega
  rw [hleft,hright]
  omega

theorem nodup_vacs (m e k : ℕ) : (vacs m e k).Nodup := by
  rw [vacs]
  generalize lo m k=a
  generalize e/2^k=b
  split
  · split
    · simp
      omega
    · simp
  · split <;> simp

/-- The vacant blocks of the lower levels and what is left between the borders add up. -/
theorem sum_vacs (m e n : ℕ) :
    (∑ k∈Finset.range n,(vacs m e k).length*2^k)+(e/2^n-lo m n)*2^n=e-m := by
  induction n with
  | zero => simp [lo]
  | succ n ih =>
    rw [Finset.sum_range_succ,← ih,Nat.add_assoc,lo_succ,div_succ_pow,Nat.pow_succ,
      Nat.mul_comm (2^n) 2,← Nat.mul_assoc,← Nat.add_mul,vacs,List.length_append]
    congr 2
    generalize lo m n=a
    generalize e/2^n=b
    split <;> split <;> simp <;> omega

end Free

section Pairs

variable {s : BuddySystem} {k i : ℕ}

theorem pairTarget_same (h : s.isAllocSet k i=s.isAllocSet k (BuddySystem.buddyIndex i)) :
    s.pairTarget k i=none := by
  rw [BuddySystem.pairTarget,if_neg (not_not.mpr h)]

theorem pairTarget_free (h : s.isAllocSet k i=false)
    (h' : s.isAllocSet k (BuddySystem.buddyIndex i)=true) : s.pairTarget k i=some i := by
  rw [BuddySystem.pairTarget,h,h']
  rfl

theorem pairTarget_buddy (h : s.isAllocSet k i=true)
    (h' : s.isAllocSet k (BuddySystem.buddyIndex i)=false) :
    s.pairTarget k i=some (BuddySystem.buddyIndex i) := by
  rw [BuddySystem.pairTarget,h,h']
  rfl

end Pairs

section Bits

variable {s : BuddySystem} {m e : ℕ} (h : Borders s m e)
  (hbit : ∀ c,c ≤ root s → (s.isAllocSet c.level c.index=true ↔
    c.index<lo m c.level ∨ e/2^c.level ≤ c.index))

include h

theorem Borders.mem_vacs_iff {k i : ℕ} (hk : k < s.maxSize) :
    i∈vacs m e k ↔ Vacant (root s) (reserved s) ⟨k,i⟩ := by
  have hle : i<e/2^k → (⟨k,i⟩ : Blk) ≤ root s := by
    intro hi
    refine le_root s hk.le (hi.trans_le ?_)
    have hdiv := Nat.div_le_div_right (c:=2^k) h.covers
    rwa [Nat.pow_div hk.le (by decide)] at hdiv
  have hpar : (⟨k,i⟩ : Blk) ≤ root s → Blk.parent ⟨k,i⟩ ≤ root s := fun hle =>
    parent_le_of_lt (lt_iff.mpr ⟨hle,hk⟩)
  rw [mem_vacs]
  constructor
  · rintro ⟨h1,h2,h3⟩
    refine ⟨hle h2,fun ho => ?_,.inr ?_⟩
    · rw [h.occupied (hle h2)] at ho
      dsimp only at ho
      omega
    · rw [divided_reserved (Nat.succ_pos _),h.occupied (hpar (hle h2))]
      exact h3
  · rintro ⟨hr,hfree,hmax⟩
    rw [h.occupied hr,not_or,Nat.not_lt,Nat.not_le] at hfree
    refine ⟨hfree.1,hfree.2,?_⟩
    rcases hmax with heq|hd
    · have hlevel : k=s.maxSize := congrArg Blk.level heq
      omega
    · rw [divided_reserved (Nat.succ_pos _),h.occupied (hpar hr)] at hd
      exact hd

theorem Borders.lt_of_lo_lt {k : ℕ} (hlt : lo m k<e/2^k) : s.metaEnd < s.actualEnd := by
  have hm : ¬lo m k<lo m k := Nat.lt_irrefl _
  rw [lt_lo_iff,Nat.not_lt] at hm
  have he : e/2^k*2^k≤e := Nat.div_mul_le_self e _
  have hmul : lo m k*2^k<e/2^k*2^k := Nat.mul_lt_mul_of_pos_right hlt (Nat.two_pow_pos k)
  rw [h.metaEnd,h.actualEnd,leafSize]
  omega

include hbit

/-- `init_free` misses no vacant block. -/
theorem Borders.vacs_sublist {k : ℕ} (hk : k < s.maxSize) :
    List.Sublist (vacs m e k) (targets s s.metaEnd k) := by
  obtain ⟨d,hd⟩ : ∃ d,s.maxSize-k=d+1 := ⟨s.maxSize-k-1,by omega⟩
  have hcov : e/2^k≤2^(d+1) := by
    have hdiv := Nat.div_le_div_right (c:=2^k) h.covers
    rwa [Nat.pow_div hk.le (by decide),hd] at hdiv
  rw [Nat.pow_succ] at hcov
  have hset : ∀ i,i<2^d*2 → (s.isAllocSet k i=true ↔ i<lo m k ∨ e/2^k ≤ i) := by
    intro i hi
    refine hbit ⟨k,i⟩ (le_root s hk.le ?_)
    rwa [hd,Nat.pow_succ]
  have hnext : s.blkIndexNext k s.metaEnd=lo m k := by rw [h.metaEnd,blkIndexNext_eq]
  have hindex : s.blkIndex k s.actualEnd=e/2^k := by rw [h.actualEnd,blkIndex_eq]
  rw [vacs,targets,hnext,hindex]
  refine List.Sublist.append ?_ ?_
  · split
    · rename_i hlo
      have h1 : s.isAllocSet k (lo m k)=false := by
        rw [Bool.eq_false_iff,ne_eq,hset _ (by omega)]
        omega
      have h2 : s.isAllocSet k (lo m k-1)=true := (hset _ (by omega)).mpr (by omega)
      have hbuddy : BuddySystem.buddyIndex (lo m k)=lo m k-1 := if_neg (by omega)
      rw [pairTarget_free h1 (hbuddy.symm ▸ h2)]
      exact List.Sublist.refl _
    · exact List.nil_sublist _
  · split
    · rename_i hhi
      have h1 : s.isAllocSet k (e/2^k)=true := (hset _ (by omega)).mpr (by omega)
      have h2 : s.isAllocSet k (e/2^k-1)=false := by
        rw [Bool.eq_false_iff,ne_eq,hset _ (by omega)]
        omega
      have hbuddy : BuddySystem.buddyIndex (e/2^k)=e/2^k-1 := if_neg (by omega)
      rw [if_pos (h.lt_of_lo_lt hhi.1),pairTarget_buddy h1 (hbuddy.symm ▸ h2),hbuddy]
      exact List.Sublist.refl _
    · exact List.nil_sublist _

omit hbit in
/-- The vacant blocks fill what lies between the borders. -/
theorem Borders.sum_vacs (hm : 0 < m) :
    ∑ k∈Finset.range s.maxSize,(vacs m e k).length*blkSize k=(e-m)*leafSize := by
  have hrest : e/2^s.maxSize-lo m s.maxSize=0 := by
    have hlo : 0<lo m s.maxSize := by
      rw [lt_lo_iff]
      omega
    have hdiv := Nat.div_le_div_right (c:=2^s.maxSize) h.covers
    rw [Nat.div_self (Nat.two_pow_pos _)] at hdiv
    omega
  rw [← BuddyInit.sum_vacs m e s.maxSize,hrest,Nat.zero_mul,Nat.add_zero,Finset.sum_mul]
  exact Finset.sum_congr rfl fun k _ => (Nat.mul_assoc _ _ _).symm

/-- When the total adds up, `init_free` pushes the vacant blocks and nothing else. -/
theorem Borders.targets_eq (hm : 0 < m)
    (htotal : ∑ k∈Finset.range s.maxSize,(targets s s.metaEnd k).length*blkSize k=
      (e-m)*leafSize) {k : ℕ} (hk : k < s.maxSize) : targets s s.metaEnd k=vacs m e k := by
  have hle : ∀ k∈Finset.range s.maxSize,(vacs m e k).length*blkSize k≤
      (targets s s.metaEnd k).length*blkSize k := fun k hk =>
    Nat.mul_le_mul_right _ (h.vacs_sublist hbit (Finset.mem_range.mp hk)).length_le
  have heq := (Finset.sum_eq_sum_iff_of_le hle).mp ((h.sum_vacs hm).trans htotal.symm) k
    (Finset.mem_range.mpr hk)
  have hlen := Nat.eq_of_mul_eq_mul_right (blkSize_pos k) heq
  exact ((h.vacs_sublist hbit hk).eq_of_length hlen).symm

end Bits

section Init

variable {s t : BuddySystem} {start stop : ℕ}

/-- The free lists after `init`. -/
def initLists (m e n k : ℕ) : List ℕ :=
  if k<n then (vacs m e k).reverse else []

/-- The pushes of the lower levels build their lists. -/
theorem pushLevels_rings {m e : ℕ} (h : Borders s m e) (hs : Static (reserved s) s)
    (hinit : Rings s.links s.nsizes s.head fun _ => []) (n : ℕ) (hn : n ≤ s.maxSize) :
    Rings (pushLevels s (vacs m e) n) s.nsizes s.head
      fun k => (initLists m e n k).map (s.blkAddr k) := by
  induction n with
  | zero => simpa [pushLevels,initLists] using hinit
  | succ n ih =>
    have hlast : n < s.nsizes := by
      rw [BuddySystem.maxSize] at hn
      omega
    have hvac : ∀ i∈vacs m e n,Vacant (root s) (reserved s) ⟨n,i⟩ := fun i hi =>
      (h.mem_vacs_iff (by omega)).mp hi
    have hpush := (ih (by omega)).pushAll hlast ((vacs m e n).map (s.blkAddr n)) ?_ ?_
    · rw [pushLevels_succ,pushAll]
      rw [List.foldl_map] at hpush
      convert hpush using 1
      funext k
      by_cases hk : k=n
      · subst hk
        rw [Function.update_self,initLists,initLists,if_pos (Nat.lt_succ_self k),
          if_neg (Nat.lt_irrefl k),List.map_nil,List.append_nil,List.map_reverse]
      · rw [Function.update_of_ne hk,initLists,initLists]
        congr 1
        by_cases hkn : k<n
        · rw [if_pos hkn,if_pos (by omega)]
        · rw [if_neg hkn,if_neg (by omega)]
    · refine (List.nodup_map_iff_inj_on (nodup_vacs m e n)).mpr fun i hi j hj heq => ?_
      have hblk := eq_of_blkAddr_eq (hvac i hi) (hvac j hj) heq
      exact congrArg Blk.index hblk
    · intro a ha j hj hmem
      obtain ⟨i,hi,rfl⟩ := List.mem_map.mp ha
      have hv := hvac i hi
      rcases List.mem_cons.mp hmem with heq|hmem
      · exact blkAddr_ne_head hs hv.free hj heq
      · obtain ⟨i',hi',heq⟩ := List.mem_map.mp hmem
        rw [initLists] at hi'
        split at hi'
        · rename_i hjn
          have hv' := (h.mem_vacs_iff (by omega)).mp (List.mem_reverse.mp hi')
          have hblk := eq_of_blkAddr_eq hv' hv heq
          have hlevel : j=n := congrArg Blk.level hblk
          omega
        · cases hi'

theorem metaEnd_congr (hb : s.base=t.base) (hn : s.nsizes=t.nsizes) : s.metaEnd=t.metaEnd := by
  rw [BuddySystem.metaEnd,BuddySystem.metaEnd,splitCur_congr hb hn,hn]

theorem Marked.metaEnd {P : Blk → Prop} (h : Marked s t P) : t.metaEnd=s.metaEnd := by
  rw [h.eq]
  exact metaEnd_congr rfl rfl

theorem reserved_congr (hsame : Same s t) : reserved t=reserved s := by
  rw [reserved,reserved,metaEnd_congr hsame.base hsame.nsizes,hsame.base,hsame.actualEnd,
    BuddySystem.maxSize,BuddySystem.maxSize,hsame.nsizes]

/-- What a successful `init` has passed through. -/
theorem init_ok (h : s.init start stop=.ok t) :
    let p := s.place start stop
    let u := p.markLoop p.base p.metaEnd
    let unavail := blkSize u.maxSize-(u.actualEnd-u.base)
    let v := u.markLoop u.actualEnd (u.actualEnd+unavail)
    p.base≤p.actualEnd ∧ p.metaEnd-p.base+unavail≤blkSize (v.initFree p.metaEnd).2.maxSize ∧
      (v.initFree p.metaEnd).1=blkSize (v.initFree p.metaEnd).2.maxSize-(p.metaEnd-p.base)-unavail ∧
      t={(v.initFree p.metaEnd).2 with initialized := true} := by
  unfold BuddySystem.init BuddySystem.mark at h
  dsimp only at h ⊢
  split at h
  · cases h
  split at h
  · cases h
  split at h
  · cases h
  rename_i hle
  split at h
  · cases h
  rename_i u hu
  split at hu
  · cases hu
  injection hu with hu
  subst hu
  split at h
  · cases h
  rename_i v hv
  split at hv
  · cases hv
  injection hv with hv
  subst hv
  split at h
  · cases h
  rename_i hfit
  split at h
  · cases h
  rename_i htotal
  injection h with h
  exact ⟨by omega,by omega,by omega,h.symm⟩

theorem foldl_bits {f : BuddySystem → ℕ → BuddySystem}
    (hf : ∀ s i,f s i={s with bits := (f s i).bits}) (is : List ℕ) (s : BuddySystem) :
    is.foldl f s={s with bits := (is.foldl f s).bits} := by
  induction is generalizing s with
  | nil => rfl
  | cons i is ih =>
    have hrest := ih (f s i)
    rw [List.foldl_cons]
    generalize is.foldl f (f s i)=u at hrest ⊢
    rw [hrest,hf s i]

/-- `mark` changes bits only. -/
theorem markLoop_same (s : BuddySystem) (left right : ℕ) : Same s (s.markLoop left right) := by
  have heq : s.markLoop left right={s with bits := (s.markLoop left right).bits} := by
    refine foldl_bits (fun s k => foldl_bits (fun s i => ?_) _ s) _ s
    unfold BuddySystem.markBlock
    dsimp only
    split <;> rfl
  rw [heq]
  exact ⟨rfl,rfl,rfl,rfl,rfl⟩

/-- The placement has borders when the metadata fit. -/
theorem place_borders {p : BuddySystem} (hp : p=s.place start stop) (hle : p.base≤p.actualEnd)
    (hfit : p.metaEnd≤p.actualEnd) : ∃ m e,Borders p m e ∧ 0 < m := by
  have hleaf : leafSize∣pageSize := by decide
  have hbase : leafSize∣p.base := hp ▸ hleaf.trans (place_base s start stop)
  have hend : leafSize∣p.actualEnd := hp ▸ hleaf.trans (place_actualEnd s start stop)
  have hmeta : leafSize∣p.metaEnd := roundUp_dvd _ _
  have hcov : p.actualEnd-p.base≤blkSize p.maxSize := hp ▸ place_covers s start stop
  have hn : 0<p.nsizes := hp ▸ place_nsizes s start stop
  have hinfos := infos_le_splitCur p
  have hslices := splitCur_le_metaEnd p
  obtain ⟨b,hb⟩ := hbase
  obtain ⟨x,hx⟩ := hend
  obtain ⟨y,hy⟩ := hmeta
  rw [blkSize] at hcov
  rw [leafSize] at *
  rw [infoSize] at hinfos
  refine ⟨y-b,x-b,⟨?_,?_,by omega,by omega⟩,by omega⟩
  · rw [leafSize]
    omega
  · rw [leafSize]
    omega

/-- The marks of `init` are the reserved leaves' ones. -/
theorem init_marked {p : BuddySystem} {m e : ℕ} (h : Borders p m e)
    (hs : Static (reserved p) p) :
    Marked p ((p.markLoop p.base p.metaEnd).markLoop (p.markLoop p.base p.metaEnd).actualEnd
      (p.base+2^p.maxSize*leafSize)) (Occupied (reserved p)) := by
  have hm : m≤2^p.maxSize := h.fits.trans h.covers
  have hlevels : ∀ k∈List.range p.nsizes,k≤p.maxSize := by
    intro k hk
    have hlt := List.mem_range.mp hk
    rw [BuddySystem.maxSize]
    omega
  have hfirst := markLoop_marked hs 0 m hm (List.range p.nsizes) hlevels
  rw [Nat.zero_mul,Nat.add_zero,← h.metaEnd] at hfirst
  change Marked p (p.markLoop p.base p.metaEnd) _ at hfirst
  have hsame := markLoop_same p p.base p.metaEnd
  generalize p.markLoop p.base p.metaEnd=u at hfirst hsame
  have hsecond := markLoop_marked (hfirst.static hs) e (2^p.maxSize)
    (Nat.le_of_eq (by rw [hsame.maxSize])) (List.range p.nsizes)
    (fun k hk => hsame.maxSize.symm ▸ hlevels k hk)
  rw [hsame.base,← h.actualEnd,← hsame.actualEnd,← hsame.nsizes] at hsecond
  change Marked u (u.markLoop u.actualEnd (p.base+2^p.maxSize*leafSize)) _ at hsecond
  refine (hfirst.trans hsecond).imp fun c hc => ?_
  have hlevel : c.level∈List.range u.nsizes := by
    rw [List.mem_range,hsame.nsizes]
    exact hs.level_lt hc
  have htop : c.index<lo (2^p.maxSize) c.level := by
    rw [lt_lo_iff]
    have hcl : c.level≤p.maxSize := hc.1
    have hpow : 2^(p.maxSize-c.level)*2^c.level=2^p.maxSize := by
      rw [← Nat.pow_add,Nat.sub_add_cancel hcl]
    rw [← hpow]
    exact Nat.mul_lt_mul_of_pos_right (index_lt p hc) (Nat.two_pow_pos _)
  rw [h.occupied hc,Nat.zero_div]
  rw [hsame.nsizes] at *
  simp only [hlevel,htop,true_and,and_true,Nat.zero_le]

/-- Before the marks every bit of the slices is clear. -/
theorem place_clear {p : BuddySystem} (hp : p=s.place start stop) (hs : Placed p) {c : Blk}
    (hc : c ≤ root p) : p.isAllocSet c.level c.index=false ∧
      (0 < c.level → p.isSplitSet c.level c.index=false) := by
  have hlevel : c.level+1≤p.nsizes := hs.level_lt hc
  have h1 : p.allocCur p.nsizes≤p.splitCur p.nsizes := splitCur_mono p (Nat.zero_le _)
  have hbits : ∀ i,8*p.allocCur 0 ≤ i → i<8*p.splitCur p.nsizes → p.bits i=false := by
    subst hp
    exact fun i => place_bits s start stop
  refine ⟨?_,fun hl => ?_⟩
  · obtain ⟨h2,h3⟩ := hs.allocBit hc
    have h4 := allocCur_mono p (Nat.zero_le c.level)
    have h5 := allocCur_mono p hlevel
    exact hbits (allocBit p c) (by omega) (by omega)
  · obtain ⟨h2,h3⟩ := hs.splitBit hc hl
    have h4 : p.allocCur p.nsizes≤p.splitCur c.level := splitCur_mono p (Nat.zero_le _)
    have h5 := splitCur_mono p hlevel
    have h6 := allocCur_mono p (Nat.zero_le p.nsizes)
    exact hbits (splitBit p c) (by omega) (by omega)

theorem head_ne (p : BuddySystem) {j k : ℕ} (h : j≠k) : p.head j≠p.head k := by
  rw [BuddySystem.head,BuddySystem.head,infoSize]
  omega

/-- The state after the marks of `init`. -/
def marks (p : BuddySystem) : BuddySystem :=
  (p.markLoop p.base p.metaEnd).markLoop (p.markLoop p.base p.metaEnd).actualEnd
    (p.base+2^p.maxSize*leafSize)

theorem marks_same (p : BuddySystem) : Same p (marks p) :=
  (markLoop_same p _ _).trans (markLoop_same _ _ _)

/-- What a successful `init` has passed through, in terms of the placement. -/
theorem init_passes (h : s.init start stop=.ok t) {p v : BuddySystem}
    (hp : p=s.place start stop) (hv : v=marks p) :
    p.base≤p.actualEnd ∧ p.metaEnd≤p.actualEnd ∧
      ∑ k∈Finset.range v.maxSize,(targets v v.metaEnd k).length*blkSize k=
        p.actualEnd-p.metaEnd ∧
      t={v with
        links := pushLevels v (targets v v.metaEnd) v.maxSize
        initialized := true} := by
  have hok := init_ok h
  have hcov := place_covers s start stop
  dsimp only at hok
  rw [← hp] at hok hcov
  have hsame := markLoop_same p p.base p.metaEnd
  have hright : (p.markLoop p.base p.metaEnd).actualEnd+
      (blkSize (p.markLoop p.base p.metaEnd).maxSize-
        ((p.markLoop p.base p.metaEnd).actualEnd-(p.markLoop p.base p.metaEnd).base))=
      p.base+2^p.maxSize*leafSize := by
    have hle := hok.1
    rw [hsame.actualEnd,hsame.base,hsame.maxSize]
    rw [blkSize] at hcov ⊢
    omega
  rw [hright] at hok
  change _ ∧ _≤blkSize ((marks p).initFree p.metaEnd).2.maxSize ∧
    ((marks p).initFree p.metaEnd).1=blkSize ((marks p).initFree p.metaEnd).2.maxSize-_-_ ∧
    t={((marks p).initFree p.metaEnd).2 with
      initialized := true} at hok
  have hvmeta : v.metaEnd=p.metaEnd := by
    rw [hv]
    exact metaEnd_congr (marks_same p).base (marks_same p).nsizes
  have hvmax : v.maxSize=p.maxSize := hv ▸ (marks_same p).maxSize
  rw [hsame.actualEnd,hsame.base,hsame.maxSize,← hv,← hvmeta,BuddySystem.initFree,
    initFree_eq] at hok
  obtain ⟨hle,hfit,htotal,ht⟩ := hok
  change _≤blkSize v.maxSize at hfit
  change ∑ k∈Finset.range v.maxSize,(targets v v.metaEnd k).length*blkSize k=
    blkSize v.maxSize-_-_ at htotal
  rw [hvmax] at hfit htotal
  rw [hvmeta] at hfit
  have hmeta : p.base≤p.metaEnd := by
    have hinfos := infos_le_splitCur p
    have hslices := splitCur_le_metaEnd p
    omega
  refine ⟨hle,by omega,?_,ht⟩
  rw [hvmax,htotal,hvmeta]
  omega

/-- A successful `init` builds the shape of the reserved leaves. -/
theorem init_shape (h : s.init start stop=.ok t) :
    ∃ free,Shape (reserved t) t (reserved t) free ∧ (reserved t).Nonempty ∧ pageSize∣t.base ∧
      Placed t := by
  obtain ⟨p,hp⟩ : ∃ p,p=s.place start stop := ⟨_,rfl⟩
  obtain ⟨v,hv⟩ : ∃ v,v=marks p := ⟨_,rfl⟩
  obtain ⟨hle,hfit,htotal,ht⟩ := init_passes h hp hv
  obtain ⟨m,e,hb,hm⟩ := place_borders hp hle hfit
  have hplaced : Placed p := hp ▸
    ⟨place_nsizes s start stop,place_alloc s start stop,place_split s start stop⟩
  have hs : Static (reserved p) p := hplaced.static hb
  have hmarked : Marked p v (Occupied (reserved p)) := hv ▸ init_marked hb hs
  have hsame : Same p v := hv ▸ marks_same p
  have hRv : reserved v=reserved p := reserved_congr hsame
  have hRt : reserved t=reserved v := by
    rw [ht]
    exact reserved_congr ⟨rfl,rfl,rfl,rfl,rfl⟩
  have hvs : Static (reserved v) v := hRv ▸ hmarked.static hs
  have hvb : Borders v m e := by
    refine ⟨?_,?_,hb.fits,?_⟩
    · rw [hmarked.metaEnd,hsame.base,hb.metaEnd]
    · rw [hsame.actualEnd,hsame.base,hb.actualEnd]
    · rw [hsame.maxSize]
      exact hb.covers
  have halloc : ∀ c,c ≤ root v → (v.isAllocSet c.level c.index=true ↔ Occupied (reserved v) c) := by
    intro c hc
    rw [hmarked.root] at hc
    rw [hmarked.alloc c hc,(place_clear hp hplaced hc).1,hRv]
    simp
  have hsplit : ∀ c,c ≤ root v → 0 < c.level →
      (v.isSplitSet c.level c.index=true ↔ Divided (reserved v) c) := by
    intro c hc hl
    rw [hmarked.root] at hc
    rw [hmarked.split c hc hl,(place_clear hp hplaced hc).2 hl,hRv,divided_reserved hl]
    simp
  have htargets : ∀ k,k<v.maxSize → targets v v.metaEnd k=vacs m e k := fun k hk => by
    refine hvb.targets_eq (fun c hc => ?_) hm ?_ hk
    · rw [halloc c hc,hvb.occupied hc]
    · rw [htotal,hb.actualEnd,hb.metaEnd,leafSize]
      omega
  rw [pushLevels_congr v htargets] at ht
  have hinit : Rings v.links v.nsizes v.head fun _ => [] := by
    have hlinks : v.links=(List.range p.nsizes).foldl (fun l i => l.init (p.head i)) s.links := by
      rw [hmarked.eq]
      subst hp
      rfl
    have hhead : v.head=p.head := by
      rw [hmarked.eq]
      rfl
    rw [hlinks,hsame.nsizes,hhead]
    exact rings_init s.links p.nsizes fun j _ k _ hjk => head_ne p hjk
  have hrings := pushLevels_rings hvb hvs hinit v.maxSize (Nat.le_refl _)
  have hroot : Occupied (reserved v) (root v) := by
    rw [hvb.occupied le_rfl]
    left
    rw [lt_lo_iff]
    exact (Nat.zero_mul _).symm ▸ hm
  have hmax : ∀ k,k<v.nsizes → k<v.maxSize ∨ k=v.maxSize := by
    intro k hk
    rw [BuddySystem.maxSize]
    omega
  refine ⟨initLists m e v.maxSize,?_,?_,?_,?_⟩
  · rw [hRt,ht]
    refine {
      toStatic := {hvs with}
      reserved := Set.Subset.refl _
      antichain := ?_
      range := fun b hb => ⟨hb.1 ▸ Nat.zero_le _,?_⟩
      alloc := halloc
      split := hsplit
      vacant := fun k i hk => ?_
      nodup := fun k hk => ?_
      rings := hrings }
    · intro b hb c hc hne hbc
      exact hne (eq_of_le_of_level hbc (by rw [hb.1,hc.1]))
    · rw [hb.1,Nat.sub_zero]
      exact Nat.div_eq_of_lt hb.2.1
    · change _ ↔ Vacant (root v) (reserved v) ⟨k,i⟩
      rw [initLists]
      rcases hmax k hk with hlt|heq
      · rw [if_pos hlt,List.mem_reverse]
        exact hvb.mem_vacs_iff hlt
      · rw [if_neg (by omega)]
        refine ⟨fun hi => (List.not_mem_nil hi).elim,fun hvac => ?_⟩
        have hblk : (⟨k,i⟩ : Blk)=root v := eq_of_le_of_level hvac.le (Nat.le_of_eq heq.symm)
        exact absurd (hblk ▸ hroot) hvac.free
    · rw [initLists]
      split
      · exact List.nodup_reverse.mpr (nodup_vacs m e k)
      · exact List.nodup_nil
  · obtain ⟨o,ho,-⟩ := hroot
    exact ⟨o,hRt ▸ ho⟩
  · rw [ht]
    change pageSize∣v.base
    rw [hsame.base,hp]
    exact place_base s start stop
  · have hsame' : Same p t := by
      rw [ht]
      exact hsame.trans ⟨rfl,rfl,rfl,rfl,rfl⟩
    exact hplaced.same hsame'

end Init

end Xv6Rust.BuddyInit
