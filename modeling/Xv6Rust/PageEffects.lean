import Xv6Rust.UserUnmap
import Xv6Rust.UserMemory

/-!
# What the operations on page tables change

One lemma for each function of `Paging`: which entries it changes, and where the
pages go. The pages of a page table are those of its tables and those behind its
valid entries, but for the entries of the pages that the kernel maps; with the free
pages they make up the pool, which mapping and unmapping redistribute.
-/

namespace Xv6Rust.PageEffects

open RadixTable Results Paging PageTable UserUnmap UserMemory

/-- The physical page behind an entry. -/
def cell (pgt : PageTable) (page : ℕ) : Multiset ℕ :=
  if (pgt.entryAt page).isValid=true then {(pgt.entryAt page).ppn} else 0

/-- The pages behind the entries outside a set. -/
def leaves (K : Finset ℕ) (pgt : PageTable) : Multiset ℕ :=
  ∑ page∈Finset.range pages \ K,cell pgt page

/-- Free pages, pages of tables and pages behind entries. -/
def pool (K : Finset ℕ) (pgt : PageTable) (m : Mem) : Multiset ℕ :=
  (m.heap : Multiset ℕ)+pgt.frames+leaves K pgt

/-- The same entries. -/
def SameEntries (pgt pgt' : PageTable) : Prop := ∀ page,pgt'.entryAt page=pgt.entryAt page

section Cells

variable {K : Finset ℕ} {pgt pgt' : PageTable} {page : ℕ}

theorem cell_congr (h : pgt'.entryAt page=pgt.entryAt page) : cell pgt' page=cell pgt page := by
  rw [cell,cell,h]

theorem leaves_congr (h : SameEntries pgt pgt') : leaves K pgt'=leaves K pgt :=
  Finset.sum_congr rfl fun page _ => cell_congr (h page)

theorem cell_of_valid (h : ValidAt pgt page) : cell pgt page={(pgt.entryAt page).ppn} := if_pos h

theorem cell_of_not_valid (h : ¬ValidAt pgt page) : cell pgt page=0 := if_neg h

/-- A page behind a valid entry outside the set. -/
theorem mem_leaves (hp : page<pages) (hk : page∉K) (h : ValidAt pgt page) :
    (pgt.entryAt page).ppn∈leaves K pgt := by
  have hmem : page∈Finset.range pages \ K :=
    Finset.mem_sdiff.mpr ⟨Finset.mem_range.mpr hp,hk⟩
  have hle : cell pgt page≤leaves K pgt :=
    Finset.single_le_sum (fun _ _ => Multiset.zero_le _) hmem
  rw [cell_of_valid h] at hle
  exact Multiset.singleton_le.mp hle

/-- One entry is changed. -/
theorem leaves_update (hp : page<pages)
    (h : ∀ page',page'<pages → page'≠page → pgt'.entryAt page'=pgt.entryAt page') :
    leaves K pgt'+(if page∈K then 0 else cell pgt page)=
      leaves K pgt+(if page∈K then 0 else cell pgt' page) := by
  by_cases hk : page∈K
  · rw [if_pos hk,if_pos hk]
    congr 1
    refine Finset.sum_congr rfl fun q hq => cell_congr ?_
    obtain ⟨hq1,hq2⟩ := Finset.mem_sdiff.mp hq
    exact h q (Finset.mem_range.mp hq1) fun e => hq2 (e ▸ hk)
  · rw [if_neg hk,if_neg hk,leaves,leaves]
    have hmem : page∈Finset.range pages \ K :=
      Finset.mem_sdiff.mpr ⟨Finset.mem_range.mpr hp,hk⟩
    rw [← Finset.add_sum_erase _ _ hmem,← Finset.add_sum_erase _ (cell pgt) hmem]
    have hsum : ∑ q∈(Finset.range pages \ K).erase page,cell pgt' q=
        ∑ q∈(Finset.range pages \ K).erase page,cell pgt q := by
      refine Finset.sum_congr rfl fun q hq => cell_congr ?_
      obtain ⟨hq1,hq2⟩ := Finset.mem_erase.mp hq
      exact h q (Finset.mem_range.mp (Finset.mem_sdiff.mp hq2).1) hq1
    rw [hsum]
    abel

end Cells

section MapPages

variable {K : Finset ℕ} {pgt pgt' : PageTable} {m m' : Mem} {page ppn : ℕ} {perm : PteFlag}

theorem sameEntries_withTables : SameEntries pgt (pgt.withTables m page) :=
  fun page' => entryAt_withTables page'

/-- Creating tables moves pages from the heap to the page table. -/
theorem pool_withTables :
    pool K (pgt.withTables m page) (pgt.afterTables m page)=pool K pgt m := by
  rw [pool,pool,leaves_congr sameEntries_withTables]
  change ((m.heap.drop (pgt.lacking page) : List ℕ) : Multiset ℕ)+
    ((m.heap.take (pgt.lacking page)++pgt.frames : List ℕ) : Multiset ℕ)+_=_
  rw [← Multiset.coe_add,← add_assoc]
  congr 2
  rw [add_comm,Multiset.coe_add,List.take_append_drop]

/-- What a successful `map_pages` of one page does. -/
structure MapsPage (pgt pgt' : PageTable) (page : ℕ) (pte : Pte) : Prop where
  /-- The page is below `MAXVA`. -/
  bound : page*pageSize+pageSize ≤ maxva
  /-- The entry was not valid. -/
  before : ¬ValidAt pgt page
  /-- The entry is written. -/
  self : pgt'.entryAt page=pte
  /-- The other entries are not. -/
  other : ∀ page',page'<pages → page'≠page → pgt'.entryAt page'=pgt.entryAt page'

/-- A page below `MAXVA` is below the number of pages. -/
theorem lt_pages_of_maxva (h : page*pageSize+pageSize ≤ maxva) : page<pages := by
  have e : pages=134217728 := by decide
  simp only [pageSize,maxva] at h
  omega

theorem MapsPage.lt {pte : Pte} (h : MapsPage pgt pgt' page pte) : page<pages :=
  lt_pages_of_maxva h.bound

/-- `map_pages` of one page maps it, or changes no entry. -/
theorem mapPages_cases {r : Except MapError Unit}
    (h : pgt.mapPages m (page*pageSize) pageSize ppn perm=.ok (pgt',m',r)) :
    (r=.ok () ∧ pgt.lacking page ≤ m.heap.length ∧ m'=pgt.afterTables m page ∧
      MapsPage pgt pgt' page (Pte.writePerm ppn perm) ∧
      pgt'.frames=(pgt.withTables m page).frames) ∨
    ((∃ e,r=.error e) ∧ SameEntries pgt pgt' ∧ pool K pgt' m'=pool K pgt m ∧
      (pgt.lacking page ≤ m.heap.length → page*pageSize+pageSize ≤ maxva → ValidAt pgt page)) := by
  rw [mapPages_page] at h
  split at h
  · cases h
  split at h
  · rename_i hmax
    cases h
    exact .inr ⟨⟨_,rfl⟩,fun _ => rfl,rfl,fun _ hle => absurd hle (Nat.not_le.mpr hmax)⟩
  split at h
  · rename_i hlack
    cases h
    exact .inr ⟨⟨_,rfl⟩,sameEntries_withTables,pool_withTables,
      fun hle _ => absurd hle (Nat.not_le.mpr hlack)⟩
  split at h
  · rename_i hv
    cases h
    exact .inr ⟨⟨_,rfl⟩,sameEntries_withTables,pool_withTables,fun _ _ => hv⟩
  · rename_i hmax hlack hv
    cases h
    have hle : pgt.lacking page ≤ m.heap.length := Nat.not_lt.mp hlack
    have hbound : page*pageSize+pageSize ≤ maxva := Nat.not_lt.mp hmax
    have hlt := lt_pages_of_maxva hbound
    refine .inl ⟨rfl,hle,rfl,⟨hbound,hv,?_,?_⟩,rfl⟩
    · rw [entryAt_mapped hle,if_pos rfl]
    · intro page' hp hne
      rw [entryAt_mapped hle,if_neg]
      rwa [Nat.mod_eq_of_lt hp,Nat.mod_eq_of_lt hlt]

/-- A page that is mapped joins the pages behind the entries, unless the kernel maps it there. -/
theorem MapsPage.leaves_eq (h : MapsPage pgt pgt' page (Pte.writePerm ppn perm)) :
    leaves K pgt'=leaves K pgt+(if page∈K then 0 else {ppn}) := by
  have hu := leaves_update (K:=K) h.lt h.other
  have hv : ValidAt pgt' page := by
    rw [ValidAt,h.self]
    exact Pte.writePerm_valid _ _
  rw [cell_of_not_valid h.before,cell_of_valid hv,h.self,ite_self,add_zero] at hu
  exact hu

/-- The pool after a page is mapped. -/
theorem pool_mapped (hm : m'=pgt.afterTables m page)
    (h : MapsPage pgt pgt' page (Pte.writePerm ppn perm))
    (hf : pgt'.frames=(pgt.withTables m page).frames) :
    pool K pgt' m'=pool K pgt m+(if page∈K then 0 else {ppn}) := by
  rw [← @pool_withTables K pgt m page,pool,pool,h.leaves_eq,hm,hf,
    leaves_congr sameEntries_withTables]
  exact (add_assoc _ _ _).symm

end MapPages

section Unmap

variable {K : Finset ℕ} {pgt pgt' : PageTable} {m m' : Mem} {page n k : ℕ}

/-- The pages that a run of `uvm_unmap` reaches are outside a set. -/
def Avoids (K : Finset ℕ) (pgt : PageTable) (page n : ℕ) : Prop :=
  ∀ i,i<n → (∀ j,j ≤ i → ValidAt pgt (page+j)) → (page+i)%pages∉K

/-- The freed pages, one for each page of the range. -/
theorem coe_freedPages (pgt : PageTable) (page k : ℕ) :
    (freedPages pgt page k : Multiset ℕ)=∑ i∈Finset.range k,{(pgt.entryAt (page+i)).ppn} := by
  induction k with
  | zero => rfl
  | succ k ih =>
    have hs : freedPages pgt page (k+1)=(pgt.entryAt (page+k)).ppn::freedPages pgt page k := by
      rw [freedPages,List.range_succ,List.map_append,List.reverse_append]
      rfl
    rw [hs,Finset.sum_range_succ,← ih,← Multiset.cons_coe,← Multiset.singleton_add,add_comm]

/-- A cleared entry. -/
theorem cleared_zero (hc : Cleared pgt pgt' page k) {page' i : ℕ} (hi : i<k)
    (h : page'%pages=(page+i)%pages) : pgt'.entryAt page'=Pte.zero :=
  entryAt_of_find (hc.zero page' i hi h)

/-- An entry that is not cleared. -/
theorem cleared_other (hc : Cleared pgt pgt' page k) {page' : ℕ}
    (h : ∀ i,i<k → page'%pages≠(page+i)%pages) : pgt'.entryAt page'=pgt.entryAt page' := by
  rw [entryAt,entryAt,entry,entry,hc.other page' h]

/-- The pages behind the cleared entries are given up. -/
theorem cleared_leaves (hc : Cleared pgt pgt' page k)
    (ha : ∀ i,i<k → (page+i)%pages∉K) :
    leaves K pgt=leaves K pgt'+(freedPages pgt page k : Multiset ℕ) := by
  have hinj : Set.InjOn (fun i => (page+i)%pages) (Finset.range k) := by
    intro i hi j hj e
    have hk := hc.bound
    rw [Finset.coe_range,Set.mem_Iio] at hi hj
    exact page_inj (by omega) (by omega) e
  have hsub : (Finset.range k).image (fun i => (page+i)%pages)⊆Finset.range pages \ K := by
    intro q hq
    obtain ⟨i,hi,rfl⟩ := Finset.mem_image.mp hq
    exact Finset.mem_sdiff.mpr
      ⟨Finset.mem_range.mpr (Nat.mod_lt _ pages_pos),ha i (Finset.mem_range.mp hi)⟩
  have hcell : ∀ i∈Finset.range k,cell pgt ((page+i)%pages)={(pgt.entryAt (page+i)).ppn} := by
    intro i hi
    have he : pgt.entryAt ((page+i)%pages)=pgt.entryAt (page+i) :=
      entryAt_congr (Nat.mod_mod _ _)
    rw [cell_of_valid,he]
    rw [ValidAt,he]
    exact valid_of_mapped (hc.mapped i (Finset.mem_range.mp hi))
  have hzero : ∀ q∈(Finset.range k).image (fun i => (page+i)%pages),cell pgt' q=0 := by
    intro q hq
    obtain ⟨i,hi,rfl⟩ := Finset.mem_image.mp hq
    rw [cell,cleared_zero hc (Finset.mem_range.mp hi) (Nat.mod_mod _ _)]
    rfl
  have hrest : ∑ q∈(Finset.range pages \ K) \ (Finset.range k).image (fun i => (page+i)%pages),
      cell pgt q=
      ∑ q∈(Finset.range pages \ K) \ (Finset.range k).image (fun i => (page+i)%pages),
      cell pgt' q := by
    refine Finset.sum_congr rfl fun q hq => (cell_congr (cleared_other hc ?_)).symm
    intro i hi e
    obtain ⟨hq1,hq2⟩ := Finset.mem_sdiff.mp hq
    have hlt := Finset.mem_range.mp (Finset.mem_sdiff.mp hq1).1
    rw [Nat.mod_eq_of_lt hlt] at e
    exact hq2 (Finset.mem_image.mpr ⟨i,Finset.mem_range.mpr hi,e.symm⟩)
  rw [leaves,leaves,← Finset.sum_sdiff hsub,← Finset.sum_sdiff hsub,hrest,
    Finset.sum_eq_zero hzero,add_zero,Finset.sum_image hinj,Finset.sum_congr rfl hcell,
    coe_freedPages]

end Unmap

/-- An entry stays, or the user loses access to it. -/
def Weaker (new old : Pte) : Prop := new=old ∨ new=old.clearUser

theorem clearUser_clearUser (pte : Pte) : pte.clearUser.clearUser=pte.clearUser := by
  rw [Pte.clearUser,Pte.clearUser]
  dsimp only
  rw [BitVec.and_assoc,BitVec.and_self]

theorem clearUser_isValid (pte : Pte) : pte.clearUser.isValid=pte.isValid := by
  have h : ~~~flagU&&&flagV=flagV := by decide
  rw [Pte.isValid,Pte.isValid,Pte.clearUser]
  dsimp only
  rw [BitVec.and_assoc,h]

theorem clearUser_isUser (pte : Pte) : pte.clearUser.isUser=false := by
  have h : ~~~flagU&&&flagU=0#10 := by decide
  rw [Pte.isUser,Pte.clearUser]
  dsimp only
  rw [BitVec.and_assoc,h,BitVec.and_zero]
  decide

theorem Weaker.trans {a b c : Pte} (h : Weaker b a) (h' : Weaker c b) : Weaker c a := by
  obtain rfl | rfl := h'
  · exact h
  · obtain rfl | rfl := h
    · exact .inr rfl
    · exact .inr (clearUser_clearUser a)

theorem Weaker.isValid {new old : Pte} (h : Weaker new old) : new.isValid=old.isValid := by
  obtain rfl | rfl := h
  · rfl
  · exact clearUser_isValid old

theorem Weaker.ppn {new old : Pte} (h : Weaker new old) : new.ppn=old.ppn := by
  obtain rfl | rfl := h <;> rfl

/-- An entry that the user can reach is the entry from before. -/
theorem Weaker.eq_of_user {new old : Pte} (h : Weaker new old) (hu : new.isUser=true) :
    new=old := by
  obtain rfl | rfl := h
  · rfl
  · rw [clearUser_isUser] at hu
    cases hu

/-- Pages move between the heap, the tables and the entries; entries of the kernel stay or are
taken from the user, and outside an area entries do or are cleared. -/
structure Rearranges (K : Finset ℕ) (A : Set ℕ) (pgt : PageTable) (m : Mem) (pgt' : PageTable)
    (m' : Mem) : Prop where
  /-- No page is lost or made. -/
  pool : pool K pgt' m'=pool K pgt m
  /-- The kernel's entries. -/
  kept : ∀ page∈K,page<pages → Weaker (pgt'.entryAt page) (pgt.entryAt page)
  /-- The entries outside the area. -/
  area : ∀ page,page<pages → page∉A →
    Weaker (pgt'.entryAt page) (pgt.entryAt page) ∨ pgt'.entryAt page=Pte.zero

/-- The kernel's pages are mapped. -/
def KernelValid (K : Finset ℕ) (pgt : PageTable) : Prop := ∀ page∈K,page<pages ∧ ValidAt pgt page

section Rearrange

variable {K : Finset ℕ} {A B : Set ℕ} {pgt pgt' pgt'' : PageTable} {m m' m'' : Mem}
  {page n ppn : ℕ} {perm : PteFlag}

theorem Rearranges.refl : Rearranges K A pgt m pgt m :=
  ⟨rfl,fun _ _ _ => .inl rfl,fun _ _ _ => .inl (.inl rfl)⟩

/-- Two rearrangements after each other. -/
theorem Rearranges.trans (h : Rearranges K A pgt m pgt' m') (h' : Rearranges K B pgt' m' pgt'' m'') :
    Rearranges K (A∪B) pgt m pgt'' m'' := by
  refine ⟨h'.pool.trans h.pool,fun page hp hlt => ?_,fun page hlt hp => ?_⟩
  · exact (h.kept page hp hlt).trans (h'.kept page hp hlt)
  · rw [Set.mem_union,not_or] at hp
    obtain e' | e' := h'.area page hlt hp.2
    · obtain e | e := h.area page hlt hp.1
      · exact .inl (e.trans e')
      · rw [e] at e'
        refine .inr ?_
        obtain e' | e' := e'
        · exact e'
        · rw [e']
          decide
    · exact .inr e'

/-- A larger area. -/
theorem Rearranges.mono (h : Rearranges K A pgt m pgt' m') (hAB : A⊆B) :
    Rearranges K B pgt m pgt' m' :=
  ⟨h.pool,h.kept,fun page hlt hp => h.area page hlt fun ha => hp (hAB ha)⟩

/-- The kernel's pages stay mapped. -/
theorem Rearranges.kernelValid (h : Rearranges K A pgt m pgt' m') (hK : KernelValid K pgt) :
    KernelValid K pgt' := by
  intro page hp
  obtain ⟨hlt,hv⟩ := hK page hp
  refine ⟨hlt,?_⟩
  rw [ValidAt,(h.kept page hp hlt).isValid]
  exact hv

/-- A page from the heap is mapped. -/
theorem rearranges_map {heap : List ℕ} {data : ℕ → Page} (hm : m.heap=ppn::heap)
    (hK : KernelValid K pgt)
    (h : pgt.mapPages ⟨heap,data⟩ (page*pageSize) pageSize ppn perm=.ok (pgt',m',.ok ())) :
    Rearranges K {page} pgt m pgt' m' ∧ page<pages ∧ page∉K := by
  obtain ⟨-,-,hm',hmap,hf⟩ | ⟨⟨e,he⟩,-⟩ := mapPages_cases (K:=K) h
  · have hk : page∉K := fun hin => hmap.before (hK page hin).2
    refine ⟨⟨?_,?_,?_⟩,hmap.lt,hk⟩
    · rw [pool_mapped hm' hmap hf,if_neg hk,pool,pool,hm,← Multiset.cons_coe,
        ← Multiset.singleton_add]
      abel
    · intro page' hp hlt
      exact .inl (hmap.other page' hlt fun e => hk (e ▸ hp))
    · intro page' hlt hp
      exact .inl (.inl (hmap.other page' hlt hp))
  · cases he

/-- A page from the heap cannot be mapped and goes back. -/
theorem rearranges_unmapped {heap : List ℕ} {data : ℕ → Page} {e : MapError} (hm : m.heap=ppn::heap)
    (h : pgt.mapPages ⟨heap,data⟩ (page*pageSize) pageSize ppn perm=.ok (pgt',m',.error e)) :
    Rearranges K A pgt m pgt' (m'.free ppn) := by
  obtain ⟨he,-⟩ | ⟨-,hs,hp,-⟩ := mapPages_cases (K:=K) h
  · cases he
  · refine ⟨?_,fun page' _ _ => .inl (hs page'),fun page' _ _ => .inl (.inl (hs page'))⟩
    have hfree : pool K pgt' (m'.free ppn)={ppn}+pool K pgt' m' := by
      rw [pool,pool,Mem.free,← Multiset.cons_coe,← Multiset.singleton_add]
      abel
    rw [hfree,hp,pool,pool,hm,← Multiset.cons_coe,← Multiset.singleton_add]
    abel

/-- A freeing `uvm_unmap` that avoids the kernel's pages gives the pages behind the cleared
entries to the heap, and ends at the first page that is not valid. -/
theorem unmapLoop_effect (h : pgt.unmapLoop m (page*pageSize) true n=.ok (pgt',m'))
    (ha : Avoids K pgt page n) : Rearranges K ∅ pgt m pgt' m' ∧
      ∃ k,k ≤ n ∧ (∀ i,i<k → ¬ValidAt pgt' (page+i)) ∧
        (k<n → k<pages → ¬ValidAt pgt (page+k)) := by
  obtain ⟨k,u,hk,hc,hstop,hr⟩ | ⟨k,-,-,-,-,-,hr⟩ := unmapLoop_cases pgt m page n
  · rw [hr] at h
    cases h
    have hak : ∀ i,i<k → (page+i)%pages∉K := fun i hi =>
      ha i (by omega) fun j hj => valid_of_mapped (hc.mapped j (by omega))
    refine ⟨⟨?_,?_,?_⟩,k,hk,?_,?_⟩
    · rw [pool,pool,cleared_leaves hc hak,hc.frames,← Multiset.coe_add]
      abel
    · intro page' hK hlt
      refine .inl (cleared_other hc fun i hi e => hak i hi ?_)
      rw [Nat.mod_eq_of_lt hlt] at e
      rwa [← e]
    · intro page' _ _
      by_cases hin : ∃ i,i<k ∧ page'%pages=(page+i)%pages
      · obtain ⟨i,hi,e⟩ := hin
        exact .inr (cleared_zero hc hi e)
      · exact .inl (.inl (cleared_other hc fun i hi e => hin ⟨i,hi,e⟩))
    · intro i hi
      rw [ValidAt,cleared_zero hc hi rfl]
      decide
    · intro h1 h2
      rw [ValidAt,hstop h1 h2]
      decide
  · rw [hr] at h
    cases h

/-- `uvm_unmap` that frees. -/
theorem uvmUnmap_effect (h : pgt.uvmUnmap m (page*pageSize) n true=.ok (pgt',m'))
    (ha : Avoids K pgt page n) : Rearranges K ∅ pgt m pgt' m' ∧
      ∃ k,k ≤ n ∧ (∀ i,i<k → ¬ValidAt pgt' (page+i)) ∧
        (k<n → k<pages → ¬ValidAt pgt (page+k)) := by
  rw [uvmUnmap] at h
  split at h
  · cases h
  split at h
  · cases h
  · exact unmapLoop_effect h ha

/-- The first page of the range that `uvm_dealloc` unmaps. -/
def deallocStart (newSize : ℕ) : ℕ := pgRoundUp newSize/pageSize

/-- The number of pages that `uvm_dealloc` unmaps. -/
def deallocCount (oldSize newSize : ℕ) : ℕ := (pgRoundUp oldSize-pgRoundUp newSize)/pageSize

/-- `uvm_dealloc`. -/
theorem uvmDealloc_effect {oldSize newSize size : ℕ}
    (h : pgt.uvmDealloc m oldSize newSize=.ok (pgt',m',size))
    (ha : Avoids K pgt (deallocStart newSize) (deallocCount oldSize newSize)) :
    Rearranges K ∅ pgt m pgt' m' ∧
      ∃ k,k ≤ deallocCount oldSize newSize ∧
        (∀ i,i<k → ¬ValidAt pgt' (deallocStart newSize+i)) ∧
        (k<deallocCount oldSize newSize → k<pages → ¬ValidAt pgt (deallocStart newSize+k)) := by
  have hnone : deallocCount oldSize newSize=0 → Rearranges K ∅ pgt m pgt m ∧
      ∃ k,k ≤ deallocCount oldSize newSize ∧
        (∀ i,i<k → ¬ValidAt pgt (deallocStart newSize+i)) ∧
        (k<deallocCount oldSize newSize → k<pages → ¬ValidAt pgt (deallocStart newSize+k)) := by
    intro h0
    refine ⟨Rearranges.refl,0,Nat.zero_le _,fun i hi => absurd hi (Nat.not_lt_zero i),?_⟩
    intro hlt
    omega
  rw [uvmDealloc] at h
  split at h
  · rename_i hle
    cases h
    refine hnone ?_
    rw [deallocCount,Nat.sub_eq_zero_of_le (pgRoundUp_mono hle),Nat.zero_div]
  split at h
  · cases h
  split at h
  · obtain ⟨⟨u,v⟩,hr,he⟩ := bind_eq_ok h
    cases he
    have hr' : pgt.uvmUnmap m (deallocStart newSize*pageSize) (deallocCount oldSize newSize) true=
        .ok (u,v) := by
      rw [deallocStart,pgRoundUp_div]
      exact hr
    exact uvmUnmap_effect hr' ha
  · rename_i hlt
    cases h
    refine hnone ?_
    rw [deallocCount,Nat.sub_eq_zero_of_le (Nat.not_lt.mp hlt),Nat.zero_div]

theorem pgRoundUp_page (page : ℕ) : pgRoundUp (page*pageSize)=page*pageSize := by
  simp only [pgRoundUp,pageSize]
  omega

theorem deallocStart_page (page : ℕ) : deallocStart (page*pageSize)=page := by
  rw [deallocStart,pgRoundUp_page,Nat.mul_div_cancel _ (by decide)]

theorem deallocCount_page (page n : ℕ) : deallocCount ((page+n)*pageSize) (page*pageSize)=n := by
  rw [deallocCount,pgRoundUp_page,pgRoundUp_page,← Nat.sub_mul,Nat.add_sub_cancel_left,
    Nat.mul_div_cancel _ (by decide)]

/-- Pages of a range that are not the kernel's. -/
theorem avoids_of_range (h : ∀ i,i<n → page+i<pages ∧ page+i∉K) : Avoids K pgt page n := by
  intro i hi _
  obtain ⟨h1,h2⟩ := h i hi
  rwa [Nat.mod_eq_of_lt h1]

/-- Undoing an allocation unmaps the pages that were allocated. -/
theorem undo_alloc {size : ℕ} (hown : ∀ i,i<n → page+i<pages ∧ page+i∉K)
    (h : pgt.uvmDealloc m ((page+n)*pageSize) (page*pageSize)=.ok (pgt',m',size)) :
    Rearranges K ∅ pgt m pgt' m' := by
  refine (uvmDealloc_effect h ?_).1
  rw [deallocStart_page,deallocCount_page]
  exact avoids_of_range hown

/-- The loop of `uvm_alloc` maps pages of its range only. -/
theorem allocLoop_effect {j : ℕ} {done : Bool} (hK : KernelValid K pgt)
    (hown : ∀ i,i<j → page+i<pages ∧ page+i∉K)
    (h : pgt.allocLoop m (page*pageSize) ((page+j)*pageSize) n=.ok (pgt',m',done)) :
    Rearranges K {q | page ≤ q ∧ q<page+j+n} pgt m pgt' m' := by
  induction n generalizing pgt m j with
  | zero =>
    cases h
    exact Rearranges.refl
  | succ n ih =>
    rw [allocLoop] at h
    split at h
    · obtain ⟨⟨u,v,w⟩,hr,he⟩ := bind_eq_ok h
      cases he
      exact (undo_alloc hown hr).mono (Set.empty_subset _)
    · rename_i ppn heap hm
      obtain ⟨⟨u,v,w⟩,hr,he⟩ := bind_eq_ok h
      cases w with
      | ok x =>
        obtain ⟨hmap,hlt,hk⟩ := rearranges_map hm hK hr
        have hown' : ∀ i,i<j+1 → page+i<pages ∧ page+i∉K := by
          intro i hi
          by_cases e : i=j
          · rw [e]
            exact ⟨hlt,hk⟩
          · exact hown i (by omega)
        have he' : u.allocLoop v (page*pageSize) ((page+(j+1))*pageSize) n=.ok (pgt',m',done) := by
          rw [← add_assoc,Nat.succ_mul]
          exact he
        refine (hmap.trans (ih (hmap.kernelValid hK) hown' he')).mono ?_
        intro q hq
        rw [Set.mem_union,Set.mem_singleton_iff,Set.mem_ofPred_eq] at hq
        rw [Set.mem_ofPred_eq]
        omega
      | error e =>
        obtain ⟨⟨u',v',w'⟩,hr',he'⟩ := bind_eq_ok he
        cases he'
        have hback : Rearranges K ∅ pgt m u (v.free ppn) := rearranges_unmapped hm hr
        exact (hback.trans (undo_alloc hown hr')).mono (by simp)

/-- `uvm_alloc`: it maps pages between the two sizes, and on success the new size is the larger
one. -/
theorem uvmAlloc_effect {oldSize newSize : ℕ} {size : Option ℕ} (hK : KernelValid K pgt)
    (h : pgt.uvmAlloc m oldSize newSize=.ok (pgt',m',size)) :
    Rearranges K {q | q*pageSize<pgRoundUp (max oldSize newSize)} pgt m pgt' m' ∧
      ∀ n,size=some n → n=max oldSize newSize := by
  rw [uvmAlloc] at h
  split at h
  · rename_i hle
    cases h
    refine ⟨Rearranges.refl,fun n hn => ?_⟩
    cases hn
    exact (max_eq_left hle).symm
  · rename_i hlt
    have hmax : max oldSize newSize=newSize := max_eq_right (by omega)
    obtain ⟨⟨u,v,done⟩,hr,he⟩ := bind_eq_ok h
    cases he
    rw [hmax]
    refine ⟨?_,fun n hn => ?_⟩
    · have hr' : pgt.allocLoop m (deallocStart oldSize*pageSize)
          ((deallocStart oldSize+0)*pageSize) (deallocCount newSize oldSize)=.ok (u,v,done) := by
        rw [add_zero,deallocStart,pgRoundUp_div]
        exact hr
      refine (allocLoop_effect hK (fun i hi => absurd hi (Nat.not_lt_zero i)) hr').mono ?_
      intro q hq
      rw [Set.mem_ofPred_eq] at hq ⊢
      have hq2 := hq.2
      have hs := pgRoundUp_div oldSize
      have hn := pgRoundUp_div newSize
      have hle : pgRoundUp oldSize ≤ pgRoundUp newSize := pgRoundUp_mono (by omega)
      rw [deallocStart,deallocCount] at hq2
      simp only [pageSize] at hq2 hs hn ⊢
      omega
    · dsimp only at hn
      split at hn
      · cases hn
        rfl
      · cases hn

/-- A page is cloned to the next free one. -/
theorem tryClone_eq_some {pte : Pte} (h : tryClone pte m=some (ppn,m')) :
    ∃ heap,m.heap=ppn::heap ∧ m'=m.cloned heap ppn pte.ppn := by
  rw [tryClone] at h
  split at h
  · cases h
  split at h
  · cases h
  · rename_i heap hm
    cases h
    exact ⟨heap,hm,rfl⟩

/-- The loop of `uvm_copy` maps pages of its range only. -/
theorem copyLoop_effect {parent : PageTable} {i : ℕ} {done : Bool} (hK : KernelValid K pgt)
    (hown : ∀ j,j < i → j<pages ∧ j∉K)
    (h : copyLoop parent pgt m i n=.ok (pgt',m',done)) :
    Rearranges K {q | q < i+n} pgt m pgt' m' := by
  induction n generalizing pgt m i with
  | zero =>
    cases h
    exact Rearranges.refl
  | succ n ih =>
    rw [copyLoop] at h
    split at h
    · cases h
      exact Rearranges.refl
    · rename_i pte hf
      split at h
      · cases h
        exact Rearranges.refl
      · rename_i ppn m1 hc
        obtain ⟨heap,hm,rfl⟩ := tryClone_eq_some hc
        obtain ⟨⟨u,v,w⟩,hr,he⟩ := bind_eq_ok h
        cases w with
        | ok x =>
          obtain ⟨hmap,hlt,hk⟩ := rearranges_map hm hK hr
          have hown' : ∀ j,j < i+1 → j<pages ∧ j∉K := by
            intro j hj
            by_cases e : j=i
            · rw [e]
              exact ⟨hlt,hk⟩
            · exact hown j (by omega)
          refine (hmap.trans (ih (hmap.kernelValid hK) hown' he)).mono ?_
          intro q hq
          rw [Set.mem_union,Set.mem_singleton_iff,Set.mem_ofPred_eq] at hq
          rw [Set.mem_ofPred_eq]
          omega
        | error e =>
          obtain ⟨⟨u',v'⟩,hr',he'⟩ := bind_eq_ok he
          cases he'
          have hback : Rearranges K ∅ pgt m u (v.free ppn) := rearranges_unmapped hm hr
          have hrange : Avoids K u 0 i := by
            refine avoids_of_range fun j hj => ?_
            rw [Nat.zero_add]
            exact hown j hj
          have hzero : u.uvmUnmap (v.free ppn) (0*pageSize) i true=.ok (u',v') := by
            rw [Nat.zero_mul]
            exact hr'
          exact (hback.trans (uvmUnmap_effect hzero hrange).1).mono (by simp)

/-- `uvm_clear`. -/
theorem uvmClear_effect {va : ℕ} (h : pgt.uvmClear va=.ok pgt') :
    Rearranges K ∅ pgt m pgt' m := by
  rw [uvmClear] at h
  split at h
  · cases h
  split at h
  · cases h
  · rename_i pte hf
    cases h
    have hf' : find fan pgt.root (va/pageSize)=some pte := hf
    have hset : pgt.setPte va pte.clearUser=
        pgt.setPte (va/pageSize*pageSize) pte.clearUser := by
      rw [setPte,setPte,Nat.mul_div_cancel _ (by decide)]
    have he := entryAt_of_find hf'
    have hw : ∀ page,Weaker ((pgt.setPte va pte.clearUser).entryAt page) (pgt.entryAt page) := by
      intro page
      rw [hset,entryAt_setPte hf']
      split
      · rename_i e
        rw [entryAt_congr e,he]
        exact .inr rfl
      · exact .inl rfl
    refine ⟨?_,fun page _ _ => hw page,fun page _ _ => .inl (hw page)⟩
    have hl : leaves K (pgt.setPte va pte.clearUser)=leaves K pgt := by
      refine Finset.sum_congr rfl fun page _ => ?_
      rw [cell,cell,(hw page).isValid,(hw page).ppn]
    rw [pool,pool,hl]
    rfl

/-- The guard pages. -/
theorem clearGuards_effect {size : ℕ} (h : clearGuards pgt size n=.ok pgt') :
    Rearranges K ∅ pgt m pgt' m := by
  induction n generalizing pgt' with
  | zero =>
    cases h
    exact Rearranges.refl
  | succ n ih =>
    obtain ⟨u,hu,hc⟩ := bind_eq_ok h
    exact ((ih hu).trans (uvmClear_effect hc)).mono (by simp)

end Rearrange

/-- `user_init` maps the first page. -/
theorem userInit_maps {p p' : Proc} (h : userInit p m=.ok (m',p')) :
    ∃ ppn heap pgt,m.heap=ppn::heap ∧ p'={p with pgt := pgt,size := pageSize} ∧
      p.pgt.mapPages (m.zeroed heap ppn) (0*pageSize) pageSize ppn (flagR|||flagW|||flagX|||flagU)=
        .ok (pgt,m',.ok ()) := by
  rw [userInit] at h
  split at h
  · cases h
  · rename_i ppn heap hm
    obtain ⟨⟨u,v,w⟩,hr,h⟩ := bind_eq_ok h
    cases w with
    | error e => cases h
    | ok x =>
      cases h
      rw [Nat.zero_mul]
      exact ⟨ppn,heap,u,hm,rfl,hr⟩

section Build

variable {K : Finset ℕ} {pgt pgt' : PageTable} {m m' : Mem} {page pid : ℕ} {perm : PteFlag}

/-- The pages that the kernel maps into every page table. -/
def kernelPages (pid : ℕ) : Finset ℕ :=
  {trampoline/pageSize,trapframeFromPid pid/pageSize,usyscallPage}

/-- A new page table: the kernel's pages are mapped, only `USYSCALL` for the user, and no other
page is. -/
structure Fresh (K : Finset ℕ) (pgt : PageTable) : Prop where
  /-- The kernel's pages. -/
  kernel : KernelValid K pgt
  /-- They are not the user's. -/
  guarded : ∀ q∈K,q≠usyscallPage → (pgt.entryAt q).isUser=false
  /-- The other pages. -/
  zero : ∀ q,q<pages → q∉K → pgt.entryAt q=Pte.zero

theorem entryAt_empty (frames : List ℕ) (q : ℕ) :
    (⟨Table.empty Pte.zero 2,frames⟩ : PageTable).entryAt q=Pte.zero := entry_empty q

/-- Without entries there are no pages behind them. -/
theorem leaves_of_zero (h : ∀ q,q<pages → q∉K → pgt.entryAt q=Pte.zero) : leaves K pgt=0 := by
  refine Finset.sum_eq_zero fun q hq => ?_
  obtain ⟨hlt,hk⟩ := Finset.mem_sdiff.mp hq
  rw [cell,h q (Finset.mem_range.mp hlt) hk]
  rfl

/-- One more kernel page is mapped, or the page table is dropped and the heap has its pages
again. -/
theorem mapKernelPage_effect {ppn : ℕ} {r : Option PageTable} (hf : Fresh K pgt)
    (hu : page≠usyscallPage → (Pte.writePerm ppn perm).isUser=false)
    (h : pgt.mapKernelPage m (page*pageSize) ppn perm=.ok (m',r)) :
    (r=none ∧ (m'.heap : Multiset ℕ)=(m.heap : Multiset ℕ)+pgt.frames) ∨
    ∃ pgt',r=some pgt' ∧ Fresh (insert page K) pgt' ∧
      (m'.heap : Multiset ℕ)+pgt'.frames=(m.heap : Multiset ℕ)+pgt.frames ∧
      pgt'.entryAt page=Pte.writePerm ppn perm := by
  obtain ⟨⟨u,v,w⟩,hr,he⟩ := bind_eq_ok h
  have hzero := leaves_of_zero hf.zero
  cases w with
  | ok x =>
    cases he
    obtain ⟨-,-,hm,hmap,hfr⟩ | ⟨⟨e,he⟩,-⟩ := mapPages_cases (K:=insert page K) hr
    · refine .inr ⟨u,rfl,⟨?_,?_,?_⟩,?_,hmap.self⟩
      · intro q hq
        obtain rfl | hq := Finset.mem_insert.mp hq
        · refine ⟨hmap.lt,?_⟩
          rw [ValidAt,hmap.self]
          exact Pte.writePerm_valid _ _
        · obtain ⟨hlt,hv⟩ := hf.kernel q hq
          refine ⟨hlt,?_⟩
          rw [ValidAt,hmap.other q hlt fun e => hmap.before (e ▸ hv)]
          exact hv
      · intro q hq hne
        by_cases e : q=page
        · rw [e,hmap.self]
          exact hu (e ▸ hne)
        · have hq' := (Finset.mem_insert.mp hq).resolve_left e
          rw [hmap.other q (hf.kernel q hq').1 e]
          exact hf.guarded q hq' hne
      · intro q hlt hq
        rw [Finset.mem_insert,not_or] at hq
        rw [hmap.other q hlt hq.1]
        exact hf.zero q hlt hq.2
      · have hp := pool_mapped (K:=insert page K) hm hmap hfr
        have hz : leaves (insert page K) pgt=0 := by
          refine leaves_of_zero fun q hlt hq => hf.zero q hlt fun hk => hq ?_
          exact Finset.mem_insert_of_mem hk
        rw [if_pos (Finset.mem_insert_self page K),add_zero,pool,pool,hmap.leaves_eq,
          if_pos (Finset.mem_insert_self page K),add_zero,hz,add_zero,add_zero] at hp
        exact hp
    · cases he
  | error e =>
    cases he
    obtain ⟨he,-⟩ | ⟨-,hs,hp,-⟩ := mapPages_cases (K:=K) hr
    · cases he
    · refine .inl ⟨rfl,?_⟩
      rw [pool,pool,leaves_congr hs,hzero,add_zero,add_zero] at hp
      rw [PageTable.drop,← Multiset.coe_add,add_comm]
      exact hp

theorem or_reverse {a b c : Prop} : a ∨ b ∨ c ↔ c ∨ b ∨ a := by tauto

/-- A page that is mapped without `U` is not the user's. -/
theorem writePerm_not_user (ppn : ℕ) {perm : PteFlag} (h : (perm|||flagV)&&&flagU=0) :
    (Pte.writePerm ppn perm).isUser=false := by
  rw [Pte.isUser,Pte.writePerm]
  dsimp only
  rw [h]
  decide

/-- `alloc_proc_pagetable`: a new page table over pages of the heap, or the heap has all its
pages again. -/
theorem allocProcPagetable_effect {tramp tf up : ℕ} {r : Option PageTable}
    (h : allocProcPagetable m tramp tf up pid=.ok (m',r)) :
    (r=none ∧ (m'.heap : Multiset ℕ)=m.heap) ∨
    ∃ pgt,r=some pgt ∧ PidFits pid ∧ Fresh (kernelPages pid) pgt ∧
      (m'.heap : Multiset ℕ)+pgt.frames=m.heap ∧ (pgt.entryAt usyscallPage).ppn=up := by
  rw [allocProcPagetable] at h
  split at h
  · cases h
    exact .inl ⟨rfl,rfl⟩
  · rename_i frame heap hm
    have hempty : Fresh ∅ (⟨Table.empty Pte.zero 2,[frame]⟩ : PageTable) :=
      ⟨fun q hq => absurd hq (Finset.notMem_empty q),fun q hq => absurd hq (Finset.notMem_empty q),
        fun q _ _ => entryAt_empty [frame] q⟩
    have hheap : (heap : Multiset ℕ)+([frame] : List ℕ)=m.heap := by
      rw [hm,← Multiset.cons_coe,← Multiset.singleton_add,add_comm]
      rfl
    obtain ⟨⟨m1,r1⟩,h1,h⟩ := bind_eq_ok h
    rw [← trampoline_aligned] at h1
    obtain ⟨rfl,e1⟩ | ⟨pgt1,rfl,hf1,e1,-⟩ := mapKernelPage_effect hempty
      (fun _ => writePerm_not_user tramp (by decide)) h1
    · cases h
      exact .inl ⟨rfl,e1.trans hheap⟩
    dsimp only at h
    split at h
    · cases h
    · rename_i hpid
      have hfits : PidFits pid := not_not.mp hpid
      obtain ⟨⟨m2,r2⟩,h2,h⟩ := bind_eq_ok h
      rw [← trapframeFromPid_aligned hfits] at h2
      obtain ⟨rfl,e2⟩ | ⟨pgt2,rfl,hf2,e2,-⟩ := mapKernelPage_effect hf1
        (fun _ => writePerm_not_user tf (by decide)) h2
      · cases h
        exact .inl ⟨rfl,e2.trans (e1.trans hheap)⟩
      dsimp only at h
      rw [← usyscall_aligned] at h
      obtain ⟨rfl,e3⟩ | ⟨pgt3,rfl,hf3,e3,hus⟩ := mapKernelPage_effect hf2
        (fun hne => absurd rfl hne) h
      · exact .inl ⟨rfl,e3.trans (e2.trans (e1.trans hheap))⟩
      · have hup : (pgt3.entryAt usyscallPage).ppn=up := by
          rw [hus,Pte.writePerm]
        refine .inr ⟨pgt3,rfl,hfits,?_,e3.trans (e2.trans (e1.trans hheap)),hup⟩
        have hset : insert (usyscall/pageSize) (insert (trapframeFromPid pid/pageSize)
            (insert (trampoline/pageSize) (∅ : Finset ℕ)))=kernelPages pid := by
          ext q
          simp only [kernelPages,usyscallPage,Finset.mem_insert,Finset.mem_singleton,
            Finset.notMem_empty,or_false]
          exact or_reverse
        rw [← hset]
        exact hf3

/-- The page of the trap frame of a task. -/
def taskPage (tid : ℕ) : ℕ := trapframeFromTid tid/pageSize

theorem trapframeFromTid_aligned {tid : ℕ} (h : TidFits tid) :
    taskPage tid*pageSize=trapframeFromTid tid := by
  simp only [TidFits,taskPage,trapframeFromTid,trapframe,trampoline,maxva,pageSize] at h ⊢
  omega

/-- A page that is not valid has no page behind it. -/
theorem leaves_insert (h : ¬ValidAt pgt page) : leaves (insert page K) pgt=leaves K pgt := by
  by_cases hk : page∈K
  · rw [Finset.insert_eq_of_mem hk]
  · have hsub : Finset.range pages \ insert page K⊆Finset.range pages \ K :=
      Finset.sdiff_subset_sdiff (Finset.Subset.refl _) (Finset.subset_insert page K)
    refine Finset.sum_subset hsub fun q hq hn => ?_
    have e : q=page := by
      by_contra hne
      refine hn (Finset.mem_sdiff.mpr ⟨(Finset.mem_sdiff.mp hq).1,fun hin => ?_⟩)
      exact (Finset.mem_sdiff.mp hq).2 ((Finset.mem_insert.mp hin).resolve_left hne)
    rw [e]
    exact cell_of_not_valid h

/-- `Task::new`: the trap frame is a page from the heap, and the kernel has one page more in the
page table. -/
theorem newTask_effect {tid : ℕ} {task : Task}
    (h : newTask pgt m tid=.ok (pgt',m',task)) :
    task.tid=tid ∧ TidFits tid ∧ taskPage tid<pages ∧
      pool (insert (taskPage tid) K) pgt' m'+{task.page}=pool K pgt m ∧
      (∀ q,q<pages → q≠taskPage tid → pgt'.entryAt q=pgt.entryAt q) ∧
      pgt'.entryAt (taskPage tid)=Pte.writePerm task.page (flagR|||flagW) ∧
      ¬ValidAt pgt (taskPage tid) := by
  rw [newTask] at h
  split at h
  · cases h
  split at h
  · cases h
  · rename_i ppn heap hm hfits
    have hfit : TidFits tid := not_not.mp hfits
    obtain ⟨⟨u,v,w⟩,hr,he⟩ := bind_eq_ok h
    rw [← trapframeFromTid_aligned hfit] at hr
    cases w with
    | ok x =>
      cases he
      obtain ⟨-,-,hm',hmap,hf⟩ | ⟨⟨e,he⟩,-⟩ := mapPages_cases (K:=insert (taskPage tid) K) hr
      · refine ⟨rfl,hfit,hmap.lt,?_,hmap.other,hmap.self,hmap.before⟩
        have hp := pool_mapped (K:=insert (taskPage tid) K) hm' hmap hf
        rw [if_pos (Finset.mem_insert_self _ K),add_zero] at hp
        rw [hp,pool,pool,leaves_insert hmap.before,hm,← Multiset.cons_coe,
          ← Multiset.singleton_add]
        change (heap : Multiset ℕ)+_+_+_=_
        abel
      · cases he
    | error e => cases he

/-- A page of the kernel is cleared. -/
theorem entryAt_clearPage {q : ℕ} (hp : page<pages) (hq : q<pages) (hne : q≠page) :
    (clearPage pgt page).entryAt q=pgt.entryAt q := by
  rw [clearPage]
  split
  · rename_i hm
    rw [entryAt_setPte (find_of_valid (valid_of_mapped hm)),if_neg]
    rwa [Nat.mod_eq_of_lt hq,Nat.mod_eq_of_lt hp]
  · rfl

/-- A page that is cleared is not valid, unless it has a table where a leaf should be. -/
theorem clearPage_not_valid (h : NoTable pgt page) : ¬ValidAt (clearPage pgt page) page := by
  rw [clearPage]
  split
  · rename_i hm
    rw [ValidAt,entryAt_setPte (find_of_valid (valid_of_mapped hm)),if_pos rfl]
    decide
  · rename_i hm
    intro hv
    refine hm ?_
    rw [Mapped,Pte.isMapped,h hv]
    rw [ValidAt] at hv
    rw [hv]
    rfl

/-- A page that is not valid stays so. -/
theorem clearPage_keeps_not_valid {q : ℕ} (h : ¬ValidAt pgt q) : ¬ValidAt (clearPage pgt page) q := by
  rw [clearPage]
  split
  · rename_i hm
    rw [ValidAt,entryAt_setPte (find_of_valid (valid_of_mapped hm))]
    split
    · decide
    · exact h
  · exact h

theorem clearPage_frames (pgt : PageTable) (page : ℕ) :
    (clearPage pgt page).frames=pgt.frames := by
  rw [clearPage]
  split <;> rfl

/-- Clearing a kernel page changes no page behind the other entries. -/
theorem leaves_clearPage (hp : page<pages) (hk : page∈K) :
    leaves K (clearPage pgt page)=leaves K pgt := by
  refine Finset.sum_congr rfl fun q hq => cell_congr ?_
  obtain ⟨hlt,hn⟩ := Finset.mem_sdiff.mp hq
  exact entryAt_clearPage hp (Finset.mem_range.mp hlt) fun e => hn (e ▸ hk)

/-- `Drop for Task`: the trap frame is no kernel page of the page table any more. -/
theorem dropTask_effect {tid tf : ℕ} (hfit : TidFits tid) (hlt : taskPage tid<pages)
    (h : dropTask pgt m (some ⟨tid,tf⟩)=.ok (pgt',m')) :
    m'=m ∧ pgt'=clearPage pgt (taskPage tid) ∧ pool K pgt' m'=pool (insert (taskPage tid) K) pgt m ∧
      ¬ValidAt pgt' (taskPage tid) := by
  have hb : taskPage tid*pageSize+pageSize<2^64 := by
    have e : pages=134217728 := by decide
    simp only [pageSize]
    omega
  rw [dropTask,← trapframeFromTid_aligned hfit] at h
  obtain ⟨hr,hn⟩ | ⟨hr,-⟩ := @uvmUnmap_keep pgt m (taskPage tid) hb
  · rw [hr] at h
    cases h
    have hnv := clearPage_not_valid hn
    refine ⟨rfl,rfl,?_,hnv⟩
    rw [pool,pool,clearPage_frames,← leaves_insert hnv,
      leaves_clearPage hlt (Finset.mem_insert_self _ K)]
  · rw [hr] at h
    cases h

theorem trampolinePage_lt : trampoline/pageSize<pages := by
  have e : pages=134217728 := by decide
  simp only [trampoline,maxva,pageSize]
  omega

theorem trapframePage_lt (pid : ℕ) : trapframeFromPid pid/pageSize<pages := by
  have e : pages=134217728 := by decide
  simp only [trapframeFromPid,trapframe,trampoline,maxva,pageSize]
  omega

theorem usyscallPage_lt : usyscallPage<pages := by
  have e : pages=134217728 := by decide
  simp only [usyscallPage,usyscall,trapframe,trampoline,maxva,pageSize]
  omega

/-- The kernel's pages are taken out of a page table without being freed. -/
theorem withoutKernelPages_effect (hl : KernelLeaves pgt pid) :
    leaves (kernelPages pid) (withoutKernelPages pgt pid)=leaves (kernelPages pid) pgt ∧
      (∀ q∈kernelPages pid,¬ValidAt (withoutKernelPages pgt pid) q) ∧
      (withoutKernelPages pgt pid).frames=pgt.frames := by
  obtain ⟨n1,n2,n3⟩ := hl
  have h1 : trampoline/pageSize∈kernelPages pid := Finset.mem_insert_self _ _
  have h2 : trapframeFromPid pid/pageSize∈kernelPages pid :=
    Finset.mem_insert_of_mem (Finset.mem_insert_self _ _)
  have h3 : usyscall/pageSize∈kernelPages pid :=
    Finset.mem_insert_of_mem (Finset.mem_insert_of_mem (Finset.mem_singleton_self _))
  have hu : usyscall/pageSize<pages := usyscallPage_lt
  refine ⟨?_,?_,?_⟩
  · rw [withoutKernelPages,leaves_clearPage hu h3,
      leaves_clearPage (trapframePage_lt pid) h2,leaves_clearPage trampolinePage_lt h1]
  · intro q hq
    obtain rfl | hq := Finset.mem_insert.mp hq
    · exact clearPage_keeps_not_valid (clearPage_keeps_not_valid (clearPage_not_valid n1))
    · obtain rfl | hq := Finset.mem_insert.mp hq
      · exact clearPage_keeps_not_valid (clearPage_not_valid n2)
      · rw [Finset.mem_singleton.mp hq]
        exact clearPage_not_valid n3
  · rw [withoutKernelPages,clearPage_frames,clearPage_frames,clearPage_frames]

/-- `dealloc_proc_pagetable` and the drop of the page table give back no page that it had not. -/
theorem discard_effect {size : ℕ} (h : discard pgt m size pid=.ok m') :
    (m'.heap : Multiset ℕ) ≤ pool (kernelPages pid) pgt m := by
  obtain ⟨⟨u,v⟩,hr,he⟩ := bind_eq_ok h
  cases he
  obtain ⟨-,hl,hq⟩ | ⟨-,e,hq⟩ := deallocProcPagetable_eq pgt m size pid
  · obtain ⟨e1,e2,e3⟩ := withoutKernelPages_effect hl
    have hdrop : (((u.drop v).heap : List ℕ) : Multiset ℕ) ≤ pool (kernelPages pid) u v := by
      rw [PageTable.drop,pool,← Multiset.coe_add,add_comm (v.heap : Multiset ℕ)]
      exact Multiset.le_add_right _ _
    refine hdrop.trans (le_of_eq ?_)
    have hp : pool (kernelPages pid) (withoutKernelPages pgt pid) m=pool (kernelPages pid) pgt m := by
      rw [pool,pool,e1,e3]
    rw [hq] at hr
    split at hr
    · split at hr
      · cases hr
      · have hz : (withoutKernelPages pgt pid).uvmUnmap m (0*pageSize) (pgRoundUp size/pageSize)
            true=.ok (u,v) := by
          rw [Nat.zero_mul]
          exact hr
        refine ((uvmUnmap_effect hz ?_).1.pool).trans hp
        intro i _ hv hin
        refine e2 _ hin ?_
        rw [ValidAt,entryAt_congr (Nat.mod_mod _ _)]
        exact hv i (le_refl i)
    · cases hr
      exact hp
  · rw [hq] at hr
    cases hr

end Build

end Xv6Rust.PageEffects
