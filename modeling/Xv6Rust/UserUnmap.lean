import Xv6Rust.Paging

/-!
# Unmapping a range of user pages

`uvm_unmap` ends at the first page of its range that has no valid entry, whether a
table is missing or the entry is invalid. With a lazily grown heap such a page can
stand before mapped ones, which then stay mapped and are never freed. The range is
released exactly when its mapped pages come first.
-/

namespace Xv6Rust.UserUnmap

open RadixTable Results Paging PageTable

/-- The physical pages of the first `k` pages of a range, in the order they are freed. -/
def freedPages (pgt : PageTable) (page k : ℕ) : List ℕ :=
  ((List.range k).map fun i => (pgt.entryAt (page+i)).ppn).reverse

/-- The first `k` pages of a range are mapped and were cleared, nothing else changed. -/
structure Cleared (pgt pgt' : PageTable) (page k : ℕ) : Prop where
  /-- No page is visited twice. -/
  bound : k≤pages
  /-- The pages had valid leaves. -/
  mapped : ∀ i,i<k → pgt.Mapped (page+i)
  /-- Cleared pages have a zero entry. -/
  zero : ∀ key i,i<k → key%pages=(page+i)%pages → find fan pgt'.root key=some Pte.zero
  /-- Other entries are as before. -/
  other : ∀ key,(∀ i,i<k → key%pages≠(page+i)%pages) →
    find fan pgt'.root key=find fan pgt.root key
  /-- No table is released. -/
  frames : pgt'.frames=pgt.frames

section Loop

variable {pgt pgt' : PageTable} {m m' : Mem} {page n : ℕ}

theorem unmapLoop_mapped (h : pgt.Mapped page) (freeing : Bool) (n : ℕ) :
    pgt.unmapLoop m (page*pageSize) freeing (n+1)=
      (pgt.setPte (page*pageSize) Pte.zero).unmapLoop
        (if freeing=true then m.free (pgt.entryAt page).ppn else m) ((page+1)*pageSize) freeing n := by
  rw [unmapLoop,findPte_eq,find_of_valid (valid_of_mapped h)]
  dsimp only
  rw [valid_of_mapped h,leaf_of_mapped h,if_neg (by decide),if_neg (by decide),Nat.succ_mul]

theorem unmapLoop_hole (h : (pgt.entryAt page).isValid=false) (freeing : Bool) (n : ℕ) :
    pgt.unmapLoop m (page*pageSize) freeing (n+1)=.ok (pgt,m) := by
  rw [unmapLoop,findPte_eq]
  cases hf : find fan pgt.root page with
  | none => rfl
  | some pte =>
    rw [entryAt_of_find hf] at h
    dsimp only
    rw [if_pos h]

theorem unmapLoop_table (hv : (pgt.entryAt page).isValid=true)
    (hl : (pgt.entryAt page).isLeaf=false) (freeing : Bool) (n : ℕ) :
    pgt.unmapLoop m (page*pageSize) freeing (n+1)=.error .notLeaf := by
  rw [unmapLoop,findPte_eq,find_of_valid hv]
  dsimp only
  rw [hv,hl,if_neg (by decide),if_pos rfl]

/-- Clearing one more page at the front. -/
theorem Cleared.cons {k : ℕ} (h : pgt.Mapped page)
    (hc : Cleared (pgt.setPte (page*pageSize) Pte.zero) pgt' (page+1) k) :
    Cleared pgt pgt' page (k+1) := by
  have hf := find_of_valid (valid_of_mapped h)
  have hset := entryAt_setPte hf Pte.zero
  have hne : ∀ i,i<k → (page+1+i)%pages≠page%pages := by
    intro i hi e
    have hm := hc.mapped i hi
    rw [Mapped,hset,if_pos e] at hm
    cases hm
  have hbound : k+1≤pages := by
    by_contra hlt
    have hk := hc.bound
    have hpos : 0<pages := by decide
    refine hne (pages-1) (by omega) ?_
    have e : page+1+(pages-1)=page+pages := by omega
    rw [e,Nat.add_mod_right]
  constructor
  · exact hbound
  · intro i hi
    cases i with
    | zero => exact h
    | succ i =>
      have hm := hc.mapped i (by omega)
      rw [Mapped,hset,if_neg (hne i (by omega))] at hm
      have e : page+(i+1)=page+1+i := by omega
      rw [Mapped,e]
      exact hm
  · intro key i hi hkey
    by_cases hin : ∃ j,j<k ∧ key%pages=(page+1+j)%pages
    · obtain ⟨j,hj,e⟩ := hin
      exact hc.zero key j hj e
    · rw [hc.other key (fun j hj e => hin ⟨j,hj,e⟩),find_setPte hf]
      cases i with
      | zero => rw [if_pos (by simpa using hkey)]
      | succ i =>
        have e : page+(i+1)=page+1+i := by omega
        rw [e] at hkey
        exact absurd ⟨i,by omega,hkey⟩ hin
  · intro key hkey
    rw [hc.other key,find_setPte hf,if_neg]
    · simpa using hkey 0 (by omega)
    · intro i hi
      have hk := hkey (i+1) (by omega)
      have e : page+(i+1)=page+1+i := by omega
      rw [e] at hk
      exact hk
  · exact hc.frames

theorem freedPages_cons {k : ℕ} (h : pgt.Mapped page)
    (hc : Cleared (pgt.setPte (page*pageSize) Pte.zero) pgt' (page+1) k) :
    freedPages (pgt.setPte (page*pageSize) Pte.zero) (page+1) k++[(pgt.entryAt page).ppn]=
      freedPages pgt page (k+1) := by
  have hf := find_of_valid (valid_of_mapped h)
  rw [freedPages,freedPages,List.range_succ_eq_map,List.map_cons,List.reverse_cons,List.map_map]
  congr 2
  apply List.map_congr_left
  intro i hi
  have hm := hc.mapped i (List.mem_range.mp hi)
  have e : page+(i+1)=page+1+i := by omega
  simp only [Function.comp_apply,Nat.succ_eq_add_one,e]
  rw [entryAt_setPte hf]
  rw [Mapped,entryAt_setPte hf] at hm
  split
  · rename_i he
    rw [if_pos he] at hm
    cases hm
  · rfl

/-- What a run of the loop does: it clears a prefix of mapped pages and ends at the
end of the range, at a hole, or in a panic at a valid entry that is no leaf. -/
theorem unmapLoop_cases (pgt : PageTable) (m : Mem) (page n : ℕ) :
    (∃ k pgt',k≤n ∧ Cleared pgt pgt' page k ∧
      (k<n → k<pages → (pgt.entryAt (page+k)).isValid=false) ∧
      pgt.unmapLoop m (page*pageSize) true n=
        .ok (pgt',{m with heap := freedPages pgt page k++m.heap})) ∨
    (∃ k,k<n ∧ k<pages ∧ (∀ i,i<k → pgt.Mapped (page+i)) ∧
      (pgt.entryAt (page+k)).isValid=true ∧ (pgt.entryAt (page+k)).isLeaf=false ∧
      pgt.unmapLoop m (page*pageSize) true n=.error .notLeaf) := by
  induction n generalizing pgt m page with
  | zero =>
    refine .inl ⟨0,pgt,le_refl 0,?_,fun h => absurd h (Nat.lt_irrefl 0),rfl⟩
    exact ⟨Nat.zero_le _,fun i hi => absurd hi (Nat.not_lt_zero i),
      fun key i hi => absurd hi (Nat.not_lt_zero i),fun key _ => rfl,rfl⟩
  | succ n ih =>
    by_cases hm : pgt.Mapped page
    · have hf := find_of_valid (valid_of_mapped hm)
      rcases ih (pgt.setPte (page*pageSize) Pte.zero) (m.free (pgt.entryAt page).ppn) (page+1) with
        ⟨k,pgt',hk,hc,hstop,hr⟩|⟨k,hk,hkp,hpre,hv,hl,hr⟩
      · have hc' := hc.cons hm
        refine .inl ⟨k+1,pgt',by omega,hc',?_,?_⟩
        · intro h1 h2
          have hv := hstop (by omega) (by omega)
          rw [entryAt_setPte hf] at hv
          have e : page+(k+1)=page+1+k := by omega
          rw [e]
          split at hv
          · rename_i he
            have hmod : (k+1)%pages=0 := by
              have h3 : (page+(k+1))%pages=(page+0)%pages := by rw [e]; exact he
              exact (Nat.ModEq.add_left_cancel' page h3).symm ▸ rfl
            rw [Nat.mod_eq_of_lt h2] at hmod
            omega
          · exact hv
        · rw [unmapLoop_mapped hm,if_pos rfl,hr,←freedPages_cons hm hc]
          simp [Mem.free]
      · have hset := entryAt_setPte hf Pte.zero
        have hne : (page+1+k)%pages≠page%pages := by
          intro e
          rw [hset,if_pos e] at hv
          cases hv
        rw [hset,if_neg hne] at hv hl
        have e : page+1+k=page+(k+1) := by omega
        rw [e] at hv hl hne
        have hkp' : k+1<pages := by
          by_contra hge
          have he : k+1=pages := by omega
          rw [he,Nat.add_mod_right] at hne
          exact hne rfl
        refine .inr ⟨k+1,by omega,hkp',?_,hv,hl,?_⟩
        · intro i hi
          cases i with
          | zero => exact hm
          | succ i =>
            have hmi := hpre i (by omega)
            rw [Mapped,hset] at hmi
            split at hmi
            · cases hmi
            · have e : page+(i+1)=page+1+i := by omega
              rw [Mapped,e]
              exact hmi
        · rw [unmapLoop_mapped hm,if_pos rfl,hr]
    · cases hv : (pgt.entryAt page).isValid with
      | false =>
        refine .inl ⟨0,pgt,Nat.zero_le _,?_,fun _ _ => hv,unmapLoop_hole hv true n⟩
        exact ⟨Nat.zero_le _,fun i hi => absurd hi (Nat.not_lt_zero i),
          fun key i hi => absurd hi (Nat.not_lt_zero i),fun key _ => rfl,rfl⟩
      | true =>
        have hl : (pgt.entryAt page).isLeaf=false := by
          cases hl : (pgt.entryAt page).isLeaf with
          | false => rfl
          | true =>
            rw [Mapped,Pte.isMapped,hv,hl] at hm
            exact absurd rfl hm
        refine .inr ⟨0,Nat.succ_pos n,by decide,?_,hv,hl,unmapLoop_table hv hl true n⟩
        intro i hi
        exact absurd hi (Nat.not_lt_zero i)

end Loop

/-- Everything in a range is released: no page of it has a valid leaf, every physical
page that was mapped there has been freed exactly once, and no other entry changed. -/
structure Released (pgt : PageTable) (m : Mem) (page count : ℕ) (pgt' : PageTable) (m' : Mem) :
    Prop where
  /-- Nothing is mapped. -/
  unmapped : ∀ i,i < count → ¬pgt'.Mapped (page+i)
  /-- The pages mapped before are freed once each. -/
  freed : ∃ pages,m'.heap=pages++m.heap ∧ pages.Nodup ∧
    ∀ p,p∈pages ↔ ∃ i,i < count ∧ pgt.Mapped (page+i) ∧ (pgt.entryAt (page+i)).ppn=p
  /-- Other entries are as before. -/
  other : ∀ key,(∀ i,i < count → key%pages≠(page+i)%pages) →
    find fan pgt'.root key=find fan pgt.root key

/-- The mapped pages of a range stand at its front, at different physical pages, and
the page after them is a hole. A range longer than the address space repeats itself. -/
def LeavesFirst (pgt : PageTable) (page count : ℕ) : Prop :=
  ∃ k,k ≤ min count pages ∧ (∀ i,i<k → pgt.Mapped (page+i)) ∧
    (∀ i,k ≤ i → i < min count pages → ¬pgt.Mapped (page+i)) ∧
    (k < min count pages → (pgt.entryAt (page+k)).isValid=false) ∧
    ∀ i j,i<k → j<k → (pgt.entryAt (page+i)).ppn=(pgt.entryAt (page+j)).ppn → i=j

section Release

variable {pgt pgt' : PageTable} {m m' : Mem} {page count k : ℕ}

theorem pages_pos : 0<pages := by decide

/-- Different positions below the number of pages are different pages. -/
theorem page_inj {i j : ℕ} (hi : i<pages) (hj : j<pages) (h : (page+i)%pages=(page+j)%pages) :
    i=j := by
  have hm : i%pages=j%pages := Nat.ModEq.add_left_cancel' page h
  rwa [Nat.mod_eq_of_lt hi,Nat.mod_eq_of_lt hj] at hm

theorem page_mod (i : ℕ) : (page+i%pages)%pages=(page+i)%pages := by
  rw [Nat.add_mod,Nat.mod_mod,←Nat.add_mod]

/-- A position of the range reduced to one below the number of pages. -/
theorem mod_lt_range {i : ℕ} (hi : i < count) : i%pages < min count pages := by
  have h1 := Nat.mod_lt i pages_pos
  have h2 := Nat.mod_le i pages
  omega

theorem mapped_congr {key key' : ℕ} (h : key%pages=key'%pages) :
    pgt.Mapped key ↔ pgt.Mapped key' := by
  rw [Mapped,Mapped,entryAt_congr h]

theorem Cleared.not_mapped (hc : Cleared pgt pgt' page k) {i : ℕ} (hi : i<k) :
    ¬pgt'.Mapped (page+i) := by
  rw [Mapped,entryAt_of_find (hc.zero (page+i) i hi rfl)]
  decide

theorem Cleared.mapped_iff (hc : Cleared pgt pgt' page k) {i : ℕ} (hk : k ≤ i) (hi : i<pages) :
    pgt'.Mapped (page+i) ↔ pgt.Mapped (page+i) := by
  have hf := hc.other (page+i) (by
    intro j hj e
    have hjp := hc.bound
    have hij := page_inj hi (by omega) e
    omega)
  rw [Mapped,Mapped,entryAt,entryAt,entry,entry,hf]

theorem mem_freedPages {p : ℕ} :
    p∈freedPages pgt page k ↔ ∃ i,i<k ∧ (pgt.entryAt (page+i)).ppn=p := by
  simp [freedPages]

theorem nodup_freedPages : (freedPages pgt page k).Nodup ↔
    ∀ i j,i<k → j<k → (pgt.entryAt (page+i)).ppn=(pgt.entryAt (page+j)).ppn → i=j := by
  rw [freedPages,List.nodup_reverse,List.nodup_map_iff_inj_on List.nodup_range]
  simp only [List.mem_range]
  constructor
  · intro h i j hi hj e
    exact h i hi j hj e
  · intro h i hi j hj e
    exact h i j hi hj e

/-- Clearing the mapped front of a range releases the range. -/
theorem released_of_cleared (hc : Cleared pgt pgt' page k) (hk : k ≤ min count pages)
    (hrest : ∀ i,k ≤ i → i < min count pages → ¬pgt.Mapped (page+i))
    (hinj : ∀ i j,i<k → j<k → (pgt.entryAt (page+i)).ppn=(pgt.entryAt (page+j)).ppn → i=j) :
    Released pgt m page count pgt' {m with heap := freedPages pgt page k++m.heap} := by
  constructor
  · intro i hi hm
    rw [←mapped_congr (page_mod i)] at hm
    have hlt := mod_lt_range hi
    by_cases h : i%pages<k
    · exact hc.not_mapped h hm
    · rw [hc.mapped_iff (by omega) (by omega)] at hm
      exact hrest _ (by omega) hlt hm
  · refine ⟨_,rfl,nodup_freedPages.mpr hinj,?_⟩
    intro p
    rw [mem_freedPages]
    constructor
    · rintro ⟨i,hi,hp⟩
      exact ⟨i,by omega,hc.mapped i hi,hp⟩
    · rintro ⟨i,hi,hm,hp⟩
      rw [←mapped_congr (page_mod i)] at hm
      refine ⟨i%pages,?_,?_⟩
      · by_contra h
        exact hrest _ (by omega) (mod_lt_range hi) hm
      · rw [entryAt_congr (page_mod i)]
        exact hp
  · intro key hkey
    apply hc.other
    intro i hi
    exact hkey i (by omega)

/-- The loop releases its range exactly when the mapped pages come first. -/
theorem unmapLoop_releases_iff (pgt : PageTable) (m : Mem) (page count : ℕ) :
    (∃ pgt' m',pgt.unmapLoop m (page*pageSize) true count=.ok (pgt',m') ∧
      Released pgt m page count pgt' m') ↔ LeavesFirst pgt page count := by
  rcases unmapLoop_cases pgt m page count with ⟨k,pgt',hk,hc,hstop,hr⟩|⟨k,hk,hkp,hpre,hv,hl,hr⟩
  · have hkm : k ≤ min count pages := by
      have := hc.bound
      omega
    rw [hr]
    constructor
    · rintro ⟨u,m',he,hrel⟩
      obtain ⟨rfl,rfl⟩ := Prod.mk.inj (Except.ok.inj he)
      refine ⟨k,hkm,hc.mapped,?_,?_,?_⟩
      · intro i hki hi hm
        rw [←hc.mapped_iff hki (by omega)] at hm
        exact hrel.unmapped i (by omega) hm
      · intro h
        exact hstop (by omega) (by omega)
      · obtain ⟨ps,hps,hnd,-⟩ := hrel.freed
        have hf : freedPages pgt page k=ps := List.append_cancel_right hps
        rw [←hf] at hnd
        exact nodup_freedPages.mp hnd
    · rintro ⟨k',hk',hmap,hrest,hhole,hinj⟩
      have hkk : k=k' := by
        rcases Nat.lt_trichotomy k k' with h|h|h
        · have hv := valid_of_mapped (hmap k h)
          rw [hstop (by omega) (by omega)] at hv
          cases hv
        · exact h
        · exact absurd (hc.mapped k' h) (hrest k' (le_refl k') (by omega))
      rw [hkk] at hc hr ⊢
      exact ⟨pgt',_,rfl,released_of_cleared hc hk' hrest hinj⟩
  · rw [hr]
    constructor
    · rintro ⟨u,m',he,-⟩
      cases he
    · rintro ⟨k',hk',hmap,hrest,hhole,-⟩
      have hnm : ¬pgt.Mapped (page+k) := by
        intro hm
        have := leaf_of_mapped hm
        rw [hl] at this
        cases this
      rcases Nat.lt_trichotomy k k' with h|h|h
      · exact absurd (hmap k h) hnm
      · rw [h] at hk hkp hv
        rw [hhole (by omega)] at hv
        cases hv
      · exact absurd (hpre k' h) (hrest k' (le_refl k') (by omega))

end Release

section Callers

variable {pgt : PageTable} {m : Mem}

/-- `uvm_unmap` of a page-aligned range. -/
theorem uvmUnmap_releases_iff (pgt : PageTable) (m : Mem) (page count : ℕ) :
    (∃ pgt' m',pgt.uvmUnmap m (page*pageSize) count true=.ok (pgt',m') ∧
      Released pgt m page count pgt' m') ↔
    page*pageSize+pageSize*count<2^64 ∧ LeavesFirst pgt page count := by
  have hal : ¬page*pageSize%pageSize≠0 := by rw [Nat.mul_mod_left]; simp
  rw [uvmUnmap,if_neg hal]
  by_cases ho : page*pageSize+pageSize*count≥2^64
  · rw [if_pos ho]
    constructor
    · rintro ⟨u,m',h,-⟩
      cases h
    · rintro ⟨h,-⟩
      omega
  · rw [if_neg ho,unmapLoop_releases_iff]
    exact ⟨fun h => ⟨by omega,h⟩,fun h => h.2⟩

theorem pgRoundUp_div (size : ℕ) : pgRoundUp size/pageSize*pageSize=pgRoundUp size := by
  rw [pgRoundUp,Nat.mul_div_cancel _ (by decide)]

theorem pgRoundUp_mono {a b : ℕ} (h : a≤b) : pgRoundUp a≤pgRoundUp b := by
  simp only [pgRoundUp,pageSize]
  omega

theorem pgRoundUp_lt {a : ℕ} (h : a+(pageSize-1)<2^64) : pgRoundUp a<2^64 := by
  simp only [pgRoundUp,pageSize] at h ⊢
  omega

/-- An empty range is released by doing nothing. -/
theorem released_empty (pgt : PageTable) (m : Mem) (page : ℕ) : Released pgt m page 0 pgt m := by
  constructor
  · intro i hi
    exact absurd hi (Nat.not_lt_zero i)
  · refine ⟨[],rfl,List.nodup_nil,?_⟩
    intro p
    simp
  · intro key _
    rfl

theorem leavesFirst_empty (pgt : PageTable) (page : ℕ) : LeavesFirst pgt page 0 := by
  refine ⟨0,Nat.zero_le _,?_,?_,?_,?_⟩
  · intro i hi
    exact absurd hi (Nat.not_lt_zero i)
  · intro i _ hi
    simp at hi
  · intro h
    simp at h
  · intro i j hi
    exact absurd hi (Nat.not_lt_zero i)

/-- `uvm_dealloc` releases the pages between the two sizes. -/
theorem uvmDealloc_releases_iff (pgt : PageTable) (m : Mem) (oldSize newSize : ℕ) :
    (∃ pgt' m' size,pgt.uvmDealloc m oldSize newSize=.ok (pgt',m',size) ∧
      Released pgt m (pgRoundUp newSize/pageSize)
        ((pgRoundUp oldSize-pgRoundUp newSize)/pageSize) pgt' m') ↔
    (newSize<oldSize → oldSize+(pageSize-1)<2^64) ∧
      LeavesFirst pgt (pgRoundUp newSize/pageSize)
        ((pgRoundUp oldSize-pgRoundUp newSize)/pageSize) := by
  rw [uvmDealloc]
  by_cases hle : newSize≥oldSize
  · have hc : (pgRoundUp oldSize-pgRoundUp newSize)/pageSize=0 := by
      rw [Nat.sub_eq_zero_of_le (pgRoundUp_mono hle),Nat.zero_div]
    rw [if_pos hle,hc]
    constructor
    · intro _
      exact ⟨fun h => by omega,leavesFirst_empty _ _⟩
    · intro _
      exact ⟨pgt,m,oldSize,rfl,released_empty _ _ _⟩
  · rw [if_neg hle]
    by_cases ho : oldSize+(pageSize-1)≥2^64
    · rw [if_pos ho]
      constructor
      · rintro ⟨u,m',size,h,-⟩
        cases h
      · rintro ⟨h,-⟩
        have := h (by omega)
        omega
    · rw [if_neg ho]
      by_cases hlt : pgRoundUp newSize<pgRoundUp oldSize
      · have hu := uvmUnmap_releases_iff pgt m (pgRoundUp newSize/pageSize)
          ((pgRoundUp oldSize-pgRoundUp newSize)/pageSize)
        have hend : pgRoundUp newSize+pageSize*((pgRoundUp oldSize-pgRoundUp newSize)/pageSize)=
            pgRoundUp oldSize := by
          have h1 := pgRoundUp_div oldSize
          have h2 := pgRoundUp_div newSize
          simp only [pageSize] at h1 h2 ⊢
          omega
        have hb := pgRoundUp_lt (a:=oldSize) (by omega)
        rw [pgRoundUp_div,hend] at hu
        rw [if_pos hlt]
        constructor
        · rintro ⟨u,m',size,h,hrel⟩
          refine ⟨fun _ => by omega,(hu.mp ?_).2⟩
          cases hr : pgt.uvmUnmap m (pgRoundUp newSize)
              ((pgRoundUp oldSize-pgRoundUp newSize)/pageSize) true with
          | error e => rw [hr] at h; cases h
          | ok r =>
            rw [hr] at h
            cases h
            exact ⟨r.1,r.2,rfl,hrel⟩
        · rintro ⟨-,hl⟩
          obtain ⟨u,m',h,hrel⟩ := hu.mpr ⟨hb,hl⟩
          refine ⟨u,m',newSize,?_,hrel⟩
          rw [h]
          rfl
      · have hc : (pgRoundUp oldSize-pgRoundUp newSize)/pageSize=0 := by
          rw [Nat.sub_eq_zero_of_le (by omega),Nat.zero_div]
        rw [if_neg hlt,hc]
        constructor
        · intro _
          exact ⟨fun _ => by omega,leavesFirst_empty _ _⟩
        · intro _
          exact ⟨pgt,m,newSize,rfl,released_empty _ _ _⟩

/-- One page cleared without freeing it. -/
def clearPage (pgt : PageTable) (page : ℕ) : PageTable :=
  if pgt.Mapped page then pgt.setPte (page*pageSize) Pte.zero else pgt

/-- A page whose entry is valid without being a leaf makes `uvm_unmap` panic. -/
def NoTable (pgt : PageTable) (page : ℕ) : Prop :=
  (pgt.entryAt page).isValid=true → (pgt.entryAt page).isLeaf=true

/-- `uvm_unmap` of one page that is not freed. -/
theorem uvmUnmap_keep {page : ℕ} (hb : page*pageSize+pageSize<2^64) :
    pgt.uvmUnmap m (page*pageSize) 1 false=.ok (clearPage pgt page,m) ∧ NoTable pgt page ∨
    pgt.uvmUnmap m (page*pageSize) 1 false=.error .notLeaf ∧ ¬NoTable pgt page := by
  have hal : ¬page*pageSize%pageSize≠0 := by rw [Nat.mul_mod_left]; simp
  rw [uvmUnmap,if_neg hal,if_neg (by omega)]
  cases hv : (pgt.entryAt page).isValid with
  | false =>
    refine .inl ⟨?_,fun h => by rw [hv] at h; cases h⟩
    have hm : ¬pgt.Mapped page := by
      intro hm
      have := valid_of_mapped hm
      rw [hv] at this
      cases this
    rw [unmapLoop_hole hv,clearPage,if_neg hm]
  | true =>
    cases hl : (pgt.entryAt page).isLeaf with
    | false =>
      refine .inr ⟨unmapLoop_table hv hl false 0,?_⟩
      intro h
      rw [NoTable,hl] at h
      exact absurd (h hv) (by decide)
    | true =>
      have hm : pgt.Mapped page := by
        rw [Mapped,Pte.isMapped,hv,hl]
        rfl
      refine .inl ⟨?_,fun _ => hl⟩
      rw [unmapLoop_mapped hm,unmapLoop,clearPage,if_pos hm]
      rfl

/-- The page table without the trampoline, the trapframe of a process and the
`USYSCALL` page. -/
def withoutKernelPages (pgt : PageTable) (pid : ℕ) : PageTable :=
  clearPage (clearPage (clearPage pgt (trampoline/pageSize)) (trapframeFromPid pid/pageSize))
    (usyscall/pageSize)

/-- None of the three kernel pages has a valid entry that is no leaf. -/
def KernelLeaves (pgt : PageTable) (pid : ℕ) : Prop :=
  NoTable pgt (trampoline/pageSize) ∧
    NoTable (clearPage pgt (trampoline/pageSize)) (trapframeFromPid pid/pageSize) ∧
    NoTable (clearPage (clearPage pgt (trampoline/pageSize)) (trapframeFromPid pid/pageSize))
      (usyscall/pageSize)

theorem trapframeFromPid_aligned {pid : ℕ} (h : PidFits pid) :
    trapframeFromPid pid/pageSize*pageSize=trapframeFromPid pid := by
  simp only [PidFits,trapframeFromPid,trapframe,trampoline,maxva,pageSize] at h ⊢
  omega

theorem trampoline_aligned : trampoline/pageSize*pageSize=trampoline := by
  norm_num [trampoline,maxva,pageSize]

theorem usyscall_aligned : usyscall/pageSize*pageSize=usyscall := by
  norm_num [usyscall,trapframe,trampoline,maxva,pageSize]

theorem trampoline_lt : trampoline+pageSize<2^64 := by norm_num [trampoline,maxva,pageSize]

theorem usyscall_lt : usyscall+pageSize<2^64 := by
  norm_num [usyscall,trapframe,trampoline,maxva,pageSize]

theorem trapframeFromPid_lt (pid : ℕ) : trapframeFromPid pid+pageSize<2^64 := by
  have h : trapframeFromPid pid≤2^38 := by
    rw [trapframeFromPid,trapframe,trampoline,maxva]
    omega
  have hp : pageSize≤2^38 := by norm_num [pageSize]
  omega

/-- The three kernel pages are taken out of the page table, or `uvm_unmap` panics. -/
theorem deallocProcPagetable_eq (pgt : PageTable) (m : Mem) (size pid : ℕ) :
    (PidFits pid ∧ KernelLeaves pgt pid ∧ pgt.deallocProcPagetable m size pid=
      if size>0 then
        if size+(pageSize-1)≥2^64 then .error .overflow
        else (withoutKernelPages pgt pid).uvmUnmap m 0 (pgRoundUp size/pageSize) true
      else .ok (withoutKernelPages pgt pid,m)) ∨
    (¬(PidFits pid ∧ KernelLeaves pgt pid) ∧
      ∃ e,pgt.deallocProcPagetable m size pid=.error e) := by
  have k1 := @uvmUnmap_keep pgt m (trampoline/pageSize) (by
    rw [trampoline_aligned]
    exact trampoline_lt)
  rw [trampoline_aligned] at k1
  rw [deallocProcPagetable]
  rcases k1 with ⟨h1,n1⟩|⟨h1,n1⟩
  · rw [h1,ok_bind]
    dsimp only
    by_cases hp : PidFits pid
    · have e2 := trapframeFromPid_aligned hp
      have k2 := @uvmUnmap_keep (clearPage pgt (trampoline/pageSize)) m
        (trapframeFromPid pid/pageSize) (by rw [e2]; exact trapframeFromPid_lt pid)
      rw [e2] at k2
      rw [if_neg (not_not.mpr hp)]
      rcases k2 with ⟨h2,n2⟩|⟨h2,n2⟩
      · have k3 := @uvmUnmap_keep (clearPage (clearPage pgt (trampoline/pageSize))
          (trapframeFromPid pid/pageSize)) m (usyscall/pageSize) (by
            rw [usyscall_aligned]
            exact usyscall_lt)
        rw [usyscall_aligned] at k3
        rw [h2,ok_bind]
        dsimp only
        rcases k3 with ⟨h3,n3⟩|⟨h3,n3⟩
        · rw [h3,ok_bind]
          exact .inl ⟨hp,⟨n1,n2,n3⟩,rfl⟩
        · rw [h3,error_bind]
          exact .inr ⟨fun h => n3 h.2.2.2,.notLeaf,rfl⟩
      · rw [h2,error_bind]
        exact .inr ⟨fun h => n2 h.2.2.1,.notLeaf,rfl⟩
    · rw [if_pos hp]
      exact .inr ⟨fun h => hp h.1,.overflow,rfl⟩
  · rw [h1,error_bind]
    exact .inr ⟨fun h => n1 h.2.1,.notLeaf,rfl⟩

/-- `dealloc_proc_pagetable` releases the user pages below the size. -/
theorem deallocProcPagetable_releases_iff (pgt : PageTable) (m : Mem) (size pid : ℕ) :
    (∃ pgt' m',pgt.deallocProcPagetable m size pid=.ok (pgt',m') ∧
      Released (withoutKernelPages pgt pid) m 0 (pgRoundUp size/pageSize) pgt' m') ↔
    PidFits pid ∧ KernelLeaves pgt pid ∧ (0 < size → size+(pageSize-1)<2^64) ∧
      LeavesFirst (withoutKernelPages pgt pid) 0 (pgRoundUp size/pageSize) := by
  rcases deallocProcPagetable_eq pgt m size pid with ⟨hp,hk,he⟩|⟨hn,e,he⟩
  · rw [he]
    by_cases hs : size>0
    · rw [if_pos hs]
      by_cases ho : size+(pageSize-1)≥2^64
      · rw [if_pos ho]
        constructor
        · rintro ⟨u,m',h,-⟩
          cases h
        · rintro ⟨-,-,h,-⟩
          have := h hs
          omega
      · have hu := uvmUnmap_releases_iff (withoutKernelPages pgt pid) m 0 (pgRoundUp size/pageSize)
        have hb := pgRoundUp_lt (a:=size) (by omega)
        rw [Nat.zero_mul,Nat.zero_add,Nat.mul_comm,pgRoundUp_div] at hu
        rw [if_neg ho,hu]
        exact ⟨fun h => ⟨hp,hk,fun _ => by omega,h.2⟩,fun h => ⟨hb,h.2.2.2⟩⟩
    · have hz : size=0 := by omega
      have hc : pgRoundUp size/pageSize=0 := by
        rw [hz]
        decide
      rw [if_neg hs,hc]
      constructor
      · intro _
        exact ⟨hp,hk,fun h => by omega,leavesFirst_empty _ _⟩
      · intro _
        exact ⟨_,m,rfl,released_empty _ _ _⟩
  · rw [he]
    constructor
    · rintro ⟨u,m',h,-⟩
      cases h
    · rintro ⟨hp,hk,-⟩
      exact absurd ⟨hp,hk⟩ hn

end Callers

/-- Unmapping releases everything exactly when the mapped pages of the range come
first: for `uvm_unmap`, for `uvm_dealloc` and for `dealloc_proc_pagetable`, which
first takes the three kernel pages out of the page table. -/
theorem unmap_releases_iff (pgt : PageTable) (m : Mem) :
    (∀ page count : ℕ,
      (∃ pgt' m',pgt.uvmUnmap m (page*pageSize) count true=.ok (pgt',m') ∧
        Released pgt m page count pgt' m') ↔
      page*pageSize+pageSize*count<2^64 ∧ LeavesFirst pgt page count) ∧
    (∀ oldSize newSize : ℕ,
      (∃ pgt' m' size,pgt.uvmDealloc m oldSize newSize=.ok (pgt',m',size) ∧
        Released pgt m (pgRoundUp newSize/pageSize)
          ((pgRoundUp oldSize-pgRoundUp newSize)/pageSize) pgt' m') ↔
      (newSize<oldSize → oldSize+(pageSize-1)<2^64) ∧
        LeavesFirst pgt (pgRoundUp newSize/pageSize)
          ((pgRoundUp oldSize-pgRoundUp newSize)/pageSize)) ∧
    (∀ size pid : ℕ,
      (∃ pgt' m',pgt.deallocProcPagetable m size pid=.ok (pgt',m') ∧
        Released (withoutKernelPages pgt pid) m 0 (pgRoundUp size/pageSize) pgt' m') ↔
      PidFits pid ∧ KernelLeaves pgt pid ∧ (0 < size → size+(pageSize-1)<2^64) ∧
        LeavesFirst (withoutKernelPages pgt pid) 0 (pgRoundUp size/pageSize)) :=
  ⟨uvmUnmap_releases_iff pgt m,uvmDealloc_releases_iff pgt m,deallocProcPagetable_releases_iff pgt m⟩

/-- A page table whose page 1 was touched and whose page 0 was not. -/
def holeFirst : PageTable :=
  match (⟨Table.empty Pte.zero 2,[]⟩ : PageTable).mapPages ⟨[1,2],fun _ _ => 0⟩ pageSize pageSize 7
      (flagR|||flagW|||flagU) with
  | .ok (pgt,_,.ok ()) => pgt
  | _ => ⟨Table.empty Pte.zero 2,[]⟩

/-- After `uvm_unmap` of pages 0 and 1 page 1 is still mapped and nothing is freed. -/
theorem unmap_keeps_page_after_hole :
    ∃ pgt' m',holeFirst.uvmUnmap ⟨[],fun _ _ => 0⟩ 0 2 true=.ok (pgt',m') ∧
      holeFirst.Mapped 1 ∧ pgt'.Mapped 1 ∧ m'.heap=[] := by
  refine ⟨_,_,rfl,?_,?_,rfl⟩
  · decide +kernel
  · decide +kernel

end Xv6Rust.UserUnmap
