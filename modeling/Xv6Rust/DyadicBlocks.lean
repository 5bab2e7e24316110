import Mathlib

/-!
# Dyadic blocks and what a set of them occupies

The block of level `k` and index `i` covers the leaves `i*2^k` up to
`(i+1)*2^k`. Blocks are ordered by inclusion; two of them are nested or
disjoint. A set of pairwise disjoint blocks determines which blocks it
occupies, which of them it divides, and the largest blocks it leaves vacant.
Adding a vacant block to the set, and passing from a block of the set to one of
its halves, change these three notions at single blocks.
-/

namespace Xv6Rust.DyadicBlocks

/-- A block, by level and index. -/
structure Blk where
  /-- Binary logarithm of the size in leaves. -/
  level : ℕ
  /-- Position in units of the size. -/
  index : ℕ
  deriving DecidableEq

/-- Inclusion of blocks. -/
instance : LE Blk := ⟨fun b c => b.level ≤ c.level ∧ b.index/2^(c.level-b.level)=c.index⟩

instance (b c : Blk) : Decidable (b ≤ c) := inferInstanceAs (Decidable (_ ∧ _))

theorem le_def {b c : Blk} :
    b ≤ c ↔ b.level ≤ c.level ∧ b.index/2^(c.level-b.level)=c.index := Iff.rfl

/-- Inclusion is a partial order. -/
instance : PartialOrder Blk where
  le_refl b := by
    rw [le_def,Nat.sub_self,Nat.pow_zero,Nat.div_one]
    exact ⟨Nat.le_refl _,rfl⟩
  le_trans a b c hab hbc := by
    rw [le_def] at *
    refine ⟨Nat.le_trans hab.1 hbc.1,?_⟩
    have hsub : c.level-a.level=(b.level-a.level)+(c.level-b.level) := by omega
    rw [hsub,Nat.pow_add,← Nat.div_div_eq_div_mul,hab.2,hbc.2]
  le_antisymm a b hab hba := by
    rw [le_def] at *
    have hl : a.level=b.level := Nat.le_antisymm hab.1 hba.1
    have hi : a.index=b.index := by simpa [hl] using hab.2
    cases a
    cases b
    simp_all

/-- A block within another one of its level is that block. -/
theorem eq_of_le_of_level {b c : Blk} (h : b ≤ c) (hl : c.level≤b.level) : b=c := by
  refine le_antisymm h ?_
  have heq : b.level=c.level := Nat.le_antisymm h.1 hl
  have hi := h.2
  rw [heq,Nat.sub_self,Nat.pow_zero,Nat.div_one] at hi
  rw [le_def,heq,Nat.sub_self,Nat.pow_zero,Nat.div_one]
  exact ⟨Nat.le_refl _,hi.symm⟩

/-- Strict inclusion is inclusion in a higher level. -/
theorem lt_iff {b c : Blk} : b < c ↔ b ≤ c ∧ b.level < c.level := by
  constructor
  · intro h
    refine ⟨h.le,?_⟩
    by_contra hl
    exact h.ne (eq_of_le_of_level h.le (Nat.le_of_not_lt hl))
  · rintro ⟨h,hl⟩
    refine lt_of_le_of_ne h ?_
    rintro rfl
    exact absurd hl (Nat.lt_irrefl _)

/-- Two blocks around a third are nested. -/
theorem le_of_common {a b c : Blk} (hb : a≤b) (hc : a ≤ c) (hl : b.level ≤ c.level) : b ≤ c := by
  refine ⟨hl,?_⟩
  have hsub : c.level-a.level=(b.level-a.level)+(c.level-b.level) := by
    have := hb.1
    omega
  rw [← hb.2,Nat.div_div_eq_div_mul,← Nat.pow_add,← hsub]
  exact hc.2

/-- The block twice as large. -/
def Blk.parent (b : Blk) : Blk := ⟨b.level+1,b.index/2⟩

/-- The other half of the parent. -/
def Blk.buddy (b : Blk) : Blk := ⟨b.level,if b.index%2=0 then b.index+1 else b.index-1⟩

@[simp] theorem parent_level (b : Blk) : b.parent.level=b.level+1 := rfl

@[simp] theorem buddy_level (b : Blk) : b.buddy.level=b.level := rfl

theorem lt_parent (b : Blk) : b<b.parent := by
  rw [lt_iff,le_def,parent_level]
  refine ⟨⟨Nat.le_succ _,?_⟩,Nat.lt_succ_self _⟩
  rw [Nat.add_sub_cancel_left,Nat.pow_one]
  rfl

theorem parent_le_of_lt {b c : Blk} (h : b < c) : b.parent ≤ c :=
  le_of_common (lt_parent b).le h.le (lt_iff.mp h).2

theorem buddy_ne (b : Blk) : b.buddy≠b := by
  intro h
  have hi := congrArg Blk.index h
  simp only [Blk.buddy] at hi
  split at hi <;> omega

@[simp] theorem parent_buddy (b : Blk) : b.buddy.parent=b.parent := by
  simp only [Blk.buddy,Blk.parent,Blk.mk.injEq,true_and]
  split <;> omega

@[simp] theorem buddy_buddy (b : Blk) : b.buddy.buddy=b := by
  obtain ⟨k,i⟩ := b
  simp only [Blk.buddy,Blk.mk.injEq,true_and]
  by_cases hi : i%2=0
  · rw [if_pos hi,if_neg (by omega)]
    omega
  · rw [if_neg hi,if_pos (by omega)]
    omega

/-- The parent's halves are the block and its buddy. -/
theorem eq_or_eq_buddy {b c : Blk} (h : c.parent=b.parent) : c=b ∨ c=b.buddy := by
  obtain ⟨k,i⟩ := b
  obtain ⟨l,j⟩ := c
  simp only [Blk.parent,Blk.mk.injEq,Nat.add_right_cancel_iff] at h
  obtain ⟨rfl,hij⟩ := h
  simp only [Blk.buddy,Blk.mk.injEq,true_and]
  split <;> omega

/-- What lies strictly within the parent lies within one of its halves. -/
theorem le_or_le_buddy {b c : Blk} (h : c<b.parent) : c≤b ∨ c≤b.buddy := by
  have hl : c.level≤b.level := Nat.le_of_lt_succ (lt_iff.mp h).2
  let d : Blk := ⟨b.level,c.index/2^(b.level-c.level)⟩
  have hcd : c≤d := ⟨hl,rfl⟩
  have hdp : d.parent=b.parent := by
    have hd : d≤b.parent := le_of_common hcd h.le (Nat.le_succ _)
    exact eq_of_le_of_level (parent_le_of_lt (lt_iff.mpr ⟨hd,Nat.lt_succ_self _⟩)) (Nat.le_refl _)
  rcases eq_or_eq_buddy hdp with hd|hd
  · exact .inl (hd ▸ hcd)
  · exact .inr (hd ▸ hcd)

/-- A block and its buddy are apart. -/
theorem not_le_buddy {b c : Blk} (h : c≤b) : ¬c≤b.buddy := by
  intro h'
  have heq := eq_of_le_of_level (le_of_common h h' (Nat.le_refl _)) (Nat.le_refl _)
  exact buddy_ne b heq.symm

/-- The first leaf of a block. -/
def Blk.start (b : Blk) : ℕ := b.index*2^b.level

/-- The first leaf lies in the block. -/
theorem start_le (b : Blk) : ⟨0,b.start⟩≤b := by
  rw [le_def,Blk.start,Nat.sub_zero]
  exact ⟨Nat.zero_le _,Nat.mul_div_cancel _ (Nat.two_pow_pos _)⟩

/-- Of two blocks with the same first leaf the smaller lies in the larger. -/
theorem le_of_start_eq {b c : Blk} (h : b.start=c.start) (hl : b.level ≤ c.level) : b ≤ c := by
  refine le_of_common (start_le b) ?_ hl
  rw [h]
  exact start_le c

/-- The leaves of a block. -/
theorem leaf_le_iff {b : Blk} {l : ℕ} :
    (⟨0,l⟩ : Blk)≤b ↔ b.start≤l ∧ l<b.start+2^b.level := by
  rw [le_def,Nat.sub_zero,Blk.start,Nat.div_eq_iff (Nat.two_pow_pos _)]
  have hpos := Nat.two_pow_pos b.level
  dsimp only
  constructor
  · rintro ⟨-,h1,h2⟩
    exact ⟨h1,by omega⟩
  · rintro ⟨h1,h2⟩
    exact ⟨Nat.zero_le _,h1,by omega⟩

/-- Inclusion of blocks is inclusion of their ranges. -/
theorem start_le_start {b c : Blk} (h : b ≤ c) :
    c.start≤b.start ∧ b.start+2^b.level ≤ c.start+2^c.level := by
  have hfirst := leaf_le_iff.mp ((start_le b).trans h)
  refine ⟨hfirst.1,?_⟩
  have hpos := Nat.two_pow_pos b.level
  have hin : (⟨0,b.start+2^b.level-1⟩ : Blk)≤b := leaf_le_iff.mpr ⟨by omega,by omega⟩
  have hlast := leaf_le_iff.mp (hin.trans h)
  omega

/-- Blocks whose ranges meet are nested. -/
theorem le_or_le_of_meet {b c : Blk} {l : ℕ} (hb : b.start≤l ∧ l<b.start+2^b.level)
    (hc : c.start≤l ∧ l < c.start+2^c.level) : b ≤ c ∨ c≤b := by
  rw [← leaf_le_iff] at hb hc
  exact (Nat.le_total b.level c.level).imp (le_of_common hb hc) (le_of_common hc hb)

section Occupation

variable {O : Set Blk} {b c : Blk}

/-- The block contains a block of the set. -/
def Occupied (O : Set Blk) (b : Blk) : Prop := ∃ o∈O,o≤b

/-- The block contains a smaller block of the set. -/
def Divided (O : Set Blk) (b : Blk) : Prop := ∃ o∈O,o<b

/-- A largest block within the root that the set leaves alone. -/
structure Vacant (root : Blk) (O : Set Blk) (b : Blk) : Prop where
  /-- The block lies within the root. -/
  le : b ≤ root
  /-- It contains no block of the set. -/
  free : ¬Occupied O b
  /-- Its parent is divided. -/
  maximal : b=root ∨ Divided O b.parent

/-- The block is disjoint from the set. -/
def Apart (O : Set Blk) (b : Blk) : Prop := ∀ o∈O,¬o≤b ∧ ¬b≤o

theorem Divided.occupied (h : Divided O b) : Occupied O b := by
  obtain ⟨o,ho,hlt⟩ := h
  exact ⟨o,ho,hlt.le⟩

theorem Divided.mono (h : Divided O b) (hbc : b ≤ c) : Divided O c := by
  obtain ⟨o,ho,hlt⟩ := h
  exact ⟨o,ho,lt_of_lt_of_le hlt hbc⟩

theorem Occupied.mono (h : Occupied O b) (hbc : b ≤ c) : Occupied O c := by
  obtain ⟨o,ho,hle⟩ := h
  exact ⟨o,ho,le_trans hle hbc⟩

theorem occupied_insert : Occupied (insert b O) c ↔ b ≤ c ∨ Occupied O c := by
  simp [Occupied]

theorem divided_insert : Divided (insert b O) c ↔ b < c ∨ Divided O c := by
  simp [Divided]

/-- A divided block is occupied in one of its halves. -/
theorem Divided.half (h : Divided O b.parent) : Occupied O b ∨ Occupied O b.buddy := by
  obtain ⟨o,ho,hlt⟩ := h
  exact (le_or_le_buddy hlt).imp (fun h => ⟨o,ho,h⟩) (fun h => ⟨o,ho,h⟩)

/-- No two buddies are vacant. -/
theorem Vacant.not_buddy {root : Blk} (h : Vacant root O b) (hb : b≠root) :
    ¬Vacant root O b.buddy := by
  intro h'
  rcases (h.maximal.resolve_left hb).half with ho|ho
  · exact h.free ho
  · exact h'.free ho

/-- Vacant blocks are disjoint from the set. -/
theorem Vacant.apart {root : Blk} (ha : IsAntichain (·≤·) O) (hO : ∀ o∈O,o ≤ root)
    (h : Vacant root O b) : Apart O b := by
  intro o ho
  refine ⟨fun hle => h.free ⟨o,ho,hle⟩,fun hle => ?_⟩
  rcases h.maximal with rfl|hd
  · exact h.free ⟨o,ho,hO o ho⟩
  · rcases hle.eq_or_lt with heq|hlt
    · exact h.free ⟨o,ho,heq ▸ le_rfl⟩
    · obtain ⟨o',ho',hlt'⟩ := hd
      have hlt'' := lt_of_lt_of_le hlt' (parent_le_of_lt hlt)
      exact hlt''.ne (ha.eq ho' ho hlt''.le)

/-- Vacant blocks are disjoint from each other. -/
theorem Vacant.eq_of_le {root : Blk} (hb : Vacant root O b) (hc : Vacant root O c)
    (h : b ≤ c) : b=c := by
  by_contra hne
  have hlt := lt_of_le_of_ne h hne
  rcases hb.maximal with rfl|hd
  · exact hlt.not_ge hc.le
  · exact hc.free (hd.occupied.mono (parent_le_of_lt hlt))

/-- A disjoint block can be added to a set of disjoint blocks. -/
theorem Apart.antichain (h : Apart O b) (ha : IsAntichain (·≤·) O) :
    IsAntichain (·≤·) (insert b O) := by
  refine ha.insert ?_ ?_
  · intro o ho _
    exact (h o ho).1
  · intro o ho _
    exact (h o ho).2

section Take

variable {root : Blk} (h : Vacant root O b)

include h

/-- Adding a vacant block occupies that block and no other. -/
theorem Vacant.occupied_insert (hc : c ≤ root) :
    Occupied (insert b O) c ↔ c=b ∨ Occupied O c := by
  rw [DyadicBlocks.occupied_insert]
  constructor
  · rintro (hle|ho)
    · rcases hle.eq_or_lt with heq|hlt
      · exact .inl heq.symm
      · right
        rcases h.maximal with rfl|hd
        · exact absurd hc hlt.not_ge
        · exact hd.occupied.mono (parent_le_of_lt hlt)
    · exact .inr ho
  · rintro (rfl|ho)
    · exact .inl le_rfl
    · exact .inr ho

/-- Adding a vacant block divides nothing new. -/
theorem Vacant.divided_insert (hc : c ≤ root) : Divided (insert b O) c ↔ Divided O c := by
  rw [DyadicBlocks.divided_insert]
  refine ⟨?_,.inr⟩
  rintro (hlt|hd)
  · rcases h.maximal with rfl|hd
    · exact absurd hc hlt.not_ge
    · exact hd.mono (parent_le_of_lt hlt)
  · exact hd

/-- Adding a vacant block leaves the other vacant blocks. -/
theorem Vacant.vacant_insert : Vacant root (insert b O) c ↔ Vacant root O c ∧ c≠b := by
  have hpar : c ≤ root → c≠root → c.parent ≤ root := fun hc hne =>
    parent_le_of_lt (lt_of_le_of_ne hc hne)
  constructor
  · intro hv
    have hfree := hv.free
    rw [h.occupied_insert hv.le,not_or] at hfree
    refine ⟨⟨hv.le,hfree.2,?_⟩,hfree.1⟩
    by_cases hroot : c=root
    · exact .inl hroot
    · have hd := hv.maximal.resolve_left hroot
      rw [h.divided_insert (hpar hv.le hroot)] at hd
      exact .inr hd
  · rintro ⟨hv,hne⟩
    refine ⟨hv.le,?_,?_⟩
    · rw [h.occupied_insert hv.le,not_or]
      exact ⟨hne,hv.free⟩
    · by_cases hroot : c=root
      · exact .inl hroot
      · have hd := hv.maximal.resolve_left hroot
        rw [← h.divided_insert (hpar hv.le hroot)] at hd
        exact .inr hd

end Take

section Halve

variable {root : Blk} (h : Apart O b.parent)

include h

/-- Passing from a block to one of its halves keeps the set disjoint. -/
theorem Apart.half : Apart O b := by
  intro o ho
  obtain ⟨h1,h2⟩ := h o ho
  refine ⟨fun hle => h1 (hle.trans (lt_parent b).le),fun hle => ?_⟩
  rcases hle.eq_or_lt with heq|hlt
  · exact h1 (heq ▸ (lt_parent b).le)
  · exact h2 (parent_le_of_lt hlt)

omit h in
/-- What contains a block is that block or contains its parent. -/
theorem le_iff_eq_or_parent_le : b ≤ c ↔ c=b ∨ b.parent ≤ c := by
  constructor
  · intro hle
    rcases hle.eq_or_lt with heq|hlt
    · exact .inl heq.symm
    · exact .inr (parent_le_of_lt hlt)
  · rintro (rfl|hle)
    · exact le_rfl
    · exact (lt_parent b).le.trans hle

omit h in
/-- A half in place of the block occupies that half in addition. -/
theorem occupied_half : Occupied (insert b O) c ↔ c=b ∨ Occupied (insert b.parent O) c := by
  rw [occupied_insert,occupied_insert,le_iff_eq_or_parent_le,or_assoc]

omit h in
/-- A half in place of the block divides the block in addition. -/
theorem divided_half :
    Divided (insert b O) c ↔ c=b.parent ∨ Divided (insert b.parent O) c := by
  rw [divided_insert,divided_insert,← or_assoc]
  refine or_congr_left ?_
  constructor
  · intro hlt
    rcases (parent_le_of_lt hlt).eq_or_lt with heq|hlt'
    · exact .inl heq.symm
    · exact .inr hlt'
  · rintro (rfl|hlt)
    · exact lt_parent b
    · exact (lt_parent b).trans hlt

/-- A half in place of the block leaves the other half vacant in addition. -/
theorem Apart.vacant_half (hroot : b.parent ≤ root) :
    Vacant root (insert b O) c ↔ c=b.buddy ∨ Vacant root (insert b.parent O) c := by
  have hlt : b < root := lt_of_lt_of_le (lt_parent b) hroot
  constructor
  · intro hv
    have hfree := hv.free
    rw [occupied_half,not_or] at hfree
    by_cases hc : c=b.buddy
    · exact .inl hc
    · refine .inr ⟨hv.le,hfree.2,?_⟩
      refine hv.maximal.imp_right fun hd => ?_
      rw [divided_half] at hd
      rcases hd with hp|hd
      · rcases eq_or_eq_buddy hp with heq|heq
        · exact absurd heq hfree.1
        · exact absurd heq hc
      · exact hd
  · rintro (rfl|hv)
    · refine ⟨?_,?_,?_⟩
      · exact (lt_parent b.buddy).le.trans (by rwa [parent_buddy])
      · rw [occupied_insert,not_or]
        refine ⟨fun hle => not_le_buddy le_rfl hle,?_⟩
        rintro ⟨o,ho,hle⟩
        exact (h o ho).1 (hle.trans (by rw [← parent_buddy]; exact (lt_parent b.buddy).le))
      · right
        rw [parent_buddy]
        exact ⟨b,Set.mem_insert _ _,lt_parent b⟩
    · refine ⟨hv.le,?_,?_⟩
      · rw [occupied_half,not_or]
        refine ⟨?_,hv.free⟩
        rintro rfl
        rcases hv.maximal with heq|hd
        · exact hlt.ne heq
        · obtain ⟨o,ho,hlo⟩ := hd
          rcases Set.mem_insert_iff.mp ho with rfl|ho
          · exact lt_irrefl _ hlo
          · exact (h o ho).1 hlo.le
      · refine hv.maximal.imp_right fun hd => ?_
        rw [divided_half]
        exact .inr hd

end Halve

/-- If the buddy is not occupied, the parent is as disjoint as the block. -/
theorem Apart.parent (h : Apart O b) (hbuddy : ¬Occupied O b.buddy) : Apart O b.parent := by
  intro o ho
  obtain ⟨h1,h2⟩ := h o ho
  refine ⟨fun hle => ?_,fun hle => h2 ((lt_parent b).le.trans hle)⟩
  rcases hle.eq_or_lt with heq|hlt
  · exact h2 (heq ▸ (lt_parent b).le)
  · rcases le_or_le_buddy hlt with hle|hle
    · exact h1 hle
    · exact hbuddy ⟨o,ho,hle⟩

/-- If the buddy is occupied, the block is vacant without being in the set. -/
theorem Apart.vacant {root : Blk} (h : Apart O b) (hb : b ≤ root)
    (hbuddy : Occupied O b.buddy) : Vacant root O b := by
  refine ⟨hb,fun ⟨o,ho,hle⟩ => (h o ho).1 hle,.inr ?_⟩
  obtain ⟨o,ho,hle⟩ := hbuddy
  refine ⟨o,ho,lt_of_le_of_lt hle ?_⟩
  rw [← parent_buddy]
  exact lt_parent b.buddy

/-- A disjoint block lies in a vacant one. -/
theorem Apart.exists_vacant {root : Blk} (h : Apart O b) (hb : b ≤ root) :
    ∃ c,b ≤ c ∧ Vacant root O c := by
  obtain ⟨d,hd⟩ : ∃ d,root.level-b.level=d := ⟨_,rfl⟩
  have hfree : ∀ b,Apart O b → ¬Occupied O b := fun b hap ⟨o,ho,hle⟩ => (hap o ho).1 hle
  induction d generalizing b with
  | zero =>
    have heq := eq_of_le_of_level hb (by omega)
    exact ⟨b,le_rfl,hb,hfree b h,.inl heq⟩
  | succ d ih =>
    have hlt : b < root := lt_iff.mpr ⟨hb,by omega⟩
    by_cases hdiv : Divided O b.parent
    · exact ⟨b,le_rfl,hb,hfree b h,.inr hdiv⟩
    · have hpar : Apart O b.parent := by
        intro o ho
        obtain ⟨-,h2⟩ := h o ho
        refine ⟨fun hle => ?_,fun hle => h2 ((lt_parent b).le.trans hle)⟩
        rcases hle.eq_or_lt with heq|hlt'
        · exact h2 (heq ▸ (lt_parent b).le)
        · exact hdiv ⟨o,ho,hlt'⟩
      obtain ⟨c,hle,hv⟩ := ih hpar (parent_le_of_lt hlt) (by rw [parent_level]; omega)
      exact ⟨c,(lt_parent b).le.trans hle,hv⟩

end Occupation

end Xv6Rust.DyadicBlocks
