import Xv6Rust.PageEffects

/-!
# Growing user memory, or not at all

`uvm_alloc` takes a page at a time from the heap and maps it behind the pages mapped so far. Where
a page is missing or cannot be mapped, `uvm_dealloc` takes the pages mapped so far away again. The
tables that were created on the way stay.
-/

namespace Xv6Rust.UserAlloc

open RadixTable Results Paging PageTable UserUnmap UserMemory PageEffects

/-- Permissions of the pages that `uvm_alloc` maps. -/
def userPerm : PteFlag := flagR|||flagW|||flagX|||flagU

/-- Pages were taken from the heap, zeroed, and mapped one behind another. -/
structure Grown (pgt : PageTable) (m : Mem) (page : ℕ) (ps : List ℕ) (pgt' : PageTable) (m' : Mem) :
    Prop where
  /-- The range ends below `MAXVA`. -/
  low : (page+ps.length)*pageSize ≤ maxva
  /-- No page of it had a valid entry. -/
  hole : ∀ i,i < ps.length → ¬ValidAt pgt (page+i)
  /-- The pages are mapped now. -/
  entry : ∀ i p,ps[i]? =some p → pgt'.entryAt (page+i)=Pte.writePerm p userPerm
  /-- No other entry has changed. -/
  other : ∀ q,q < pages → (∀ i,i < ps.length → q≠page+i) → pgt'.entryAt q=pgt.entryAt q
  /-- The pages come from the heap, as do those of new tables. -/
  taken : ∃ fs,pgt'.frames=fs++pgt.frames ∧ (ps++(fs++m'.heap)).Perm m.heap
  /-- The pages are zeroed, if no page was free twice. -/
  zero : m.heap.Nodup → ∀ p,p∈ps → m'.data p=fun _ => 0
  /-- Pages that were not free are as before. -/
  data : ∀ p,p∉m.heap → m'.data p=m.data p

/-- Nothing is mapped that was not, and all pages but those of new tables are in the heap again. -/
structure Restored (pgt : PageTable) (m : Mem) (pgt' : PageTable) (m' : Mem) : Prop where
  /-- Entries that are valid, before or after, are the same. -/
  entry : ∀ q,q < pages → ValidAt pgt q ∨ ValidAt pgt' q → pgt'.entryAt q=pgt.entryAt q
  /-- The free pages are those from before, without the pages of new tables. -/
  heap : ∃ fs,pgt'.frames=fs++pgt.frames ∧ (fs++m'.heap).Perm m.heap
  /-- Pages that were not free are as before. -/
  data : ∀ p,p∉m.heap → m'.data p=m.data p

section Rounds

variable {pgt u v : PageTable} {m m' m'' : Mem} {page ppn : ℕ} {ps heap : List ℕ}

/-- A page that is mapped with a permission to access it has a leaf. -/
theorem writePerm_mapped (ppn : ℕ) (perm : PteFlag)
    (h : (perm|||flagV)&&&(flagR|||flagW|||flagX)≠0) : (Pte.writePerm ppn perm).isMapped=true := by
  rw [Pte.isMapped,Pte.writePerm_valid,Bool.true_and,Pte.isLeaf,Pte.writePerm]
  exact bne_iff_ne.mpr h

/-- A page of the range is below the number of pages. -/
theorem range_lt (h : (page+ps.length)*pageSize ≤ maxva) {i : ℕ} (hi : i ≤ ps.length) :
    page+i < pages := by
  have e : pages=134217728 := by decide
  simp only [pageSize,maxva] at h
  omega

theorem Grown.lt (h : Grown pgt m page ps u m') {i : ℕ} (hi : i ≤ ps.length) : page+i < pages :=
  range_lt h.low hi

/-- The pages of the range are mapped. -/
theorem Grown.mapped (h : Grown pgt m page ps u m') {i : ℕ} (hi : i < ps.length) :
    u.Mapped (page+i) := by
  rw [Mapped,h.entry i _ (List.getElem?_eq_getElem hi)]
  exact writePerm_mapped _ _ (by decide)

theorem grown_nil (h : page*pageSize ≤ maxva) : Grown pgt m page [] pgt m where
  low := h
  hole i hi := absurd hi (Nat.not_lt_zero i)
  entry i p hi := by cases hi
  other q _ _ := rfl
  taken := ⟨[],rfl,List.Perm.refl _⟩
  zero _ p hp := by cases hp
  data p _ := rfl

/-- The next free page is none of those that are mapped. -/
theorem Grown.next_fresh (h : Grown pgt m page ps u m') (hn : m.heap.Nodup)
    (hm : m'.heap=ppn::heap) : ppn∉ps := by
  obtain ⟨fs,-,hp⟩ := h.taken
  rw [hm] at hp
  intro hin
  refine (List.disjoint_of_nodup_append (hp.nodup_iff.mpr hn)) hin ?_
  exact List.mem_append_right _ (List.mem_cons_self ..)

theorem Grown.next_free (h : Grown pgt m page ps u m') (hm : m'.heap=ppn::heap) :
    ppn∈m.heap := by
  obtain ⟨fs,-,hp⟩ := h.taken
  rw [hm] at hp
  exact hp.subset (List.mem_append_right _ (List.mem_append_right _ (List.mem_cons_self ..)))

/-- A page is taken, and no entry is changed. -/
theorem Grown.take (h : Grown pgt m page ps u m') (hm : m'.heap=ppn::heap)
    {gs rest : List ℕ} (hsame : SameEntries u v) (hv : v.frames=gs++u.frames)
    (hgs : gs++rest=heap) {data : ℕ → Page} (hdata : data=(m'.zeroed heap ppn).data) :
    Grown pgt m page ps v ⟨ppn::rest,data⟩ := by
  have hin := h.next_free hm
  obtain ⟨fs,hf,hp⟩ := h.taken
  have hother : ∀ p,p≠ppn → data p=m'.data p := fun p hne => by
    rw [hdata]
    exact Function.update_of_ne hne ..
  refine ⟨h.low,h.hole,fun i p hi => ?_,fun q hq hi => ?_,⟨gs++fs,?_,?_⟩,fun hn p hp => ?_,
    fun p hp => ?_⟩
  · rw [hsame,h.entry i p hi]
  · rw [hsame,h.other q hq hi]
  · rw [hv,hf,List.append_assoc]
  · refine List.Perm.trans ?_ hp
    rw [hm,← hgs]
    refine List.Perm.append_left ps ?_
    rw [← Multiset.coe_eq_coe]
    simp only [← Multiset.coe_add,← Multiset.cons_coe,← Multiset.singleton_add]
    abel
  · exact (hother p fun e => h.next_fresh hn hm (e ▸ hp)).trans (h.zero hn p hp)
  · exact (hother p fun e => hp (e ▸ hin)).trans (h.data p hp)

/-- One page more is mapped. -/
theorem Grown.map {data : ℕ → Page} (h : Grown pgt m page ps u ⟨ppn::heap,data⟩)
    (hlow : (page+ps.length)*pageSize+pageSize ≤ maxva)
    (hhole : ¬ValidAt u (page+ps.length)) (hzero : data ppn=fun _ => 0)
    (hentry : ∀ q,v.entryAt q=
      if q%pages=(page+ps.length)%pages then Pte.writePerm ppn userPerm else u.entryAt q)
    (hframes : v.frames=u.frames) : Grown pgt m page (ps++[ppn]) v ⟨heap,data⟩ := by
  have hlen : (ps++[ppn]).length=ps.length+1 := by simp
  have hlt := h.lt (le_refl _)
  have hself : v.entryAt (page+ps.length)=Pte.writePerm ppn userPerm := by
    rw [hentry,if_pos rfl]
  have hother : ∀ q,q < pages → q≠page+ps.length → v.entryAt q=u.entryAt q := fun q hq hne => by
    rw [hentry,if_neg]
    rwa [Nat.mod_eq_of_lt hq,Nat.mod_eq_of_lt hlt]
  obtain ⟨fs,hf,hp⟩ := h.taken
  refine ⟨?_,fun i hi => ?_,fun i p hi => ?_,fun q hq hne => ?_,⟨fs,?_,?_⟩,fun hn p hp => ?_,h.data⟩
  · rw [hlen,← Nat.add_assoc,Nat.succ_mul]
    exact hlow
  · rw [hlen] at hi
    by_cases e : i=ps.length
    · rw [e]
      intro hv
      refine hhole ?_
      rw [ValidAt,h.other _ hlt fun j hj hj' => by omega]
      exact hv
    · exact h.hole i (by omega)
  · by_cases e : i < ps.length
    · rw [List.getElem?_append_left e] at hi
      rw [hother _ (h.lt (Nat.le_of_lt e)) (by omega)]
      exact h.entry i p hi
    · rw [List.getElem?_append_right (not_lt.mp e)] at hi
      have hi0 : i-ps.length=0 := by
        by_contra hne
        rw [List.getElem?_eq_none (by simp only [List.length_singleton]; omega)] at hi
        cases hi
      rw [hi0] at hi
      cases hi
      have hip : i=ps.length := by omega
      rw [hip]
      exact hself
  · rw [hlen] at hne
    rw [hother q hq (hne ps.length (Nat.lt_succ_self _))]
    exact h.other q hq fun i hi => hne i (by omega)
  · rw [hframes,hf]
  · refine List.Perm.trans ?_ hp
    rw [List.append_assoc]
    refine List.Perm.append_left ps ?_
    show (ppn::(fs++heap)).Perm (fs++ppn::heap)
    exact List.perm_middle.symm
  · obtain hp | hp := List.mem_append.mp hp
    · exact h.zero hn p hp
    · rw [List.mem_singleton.mp hp]
      exact hzero

/-- The next page is mapped, or it is not and is free again. -/
theorem Grown.round (h : Grown pgt m page ps u m') (hm : m'.heap=ppn::heap) :
    ∃ v w,(u.mapPages (m'.zeroed heap ppn) ((page+ps.length)*pageSize) pageSize ppn userPerm=
        .ok (v,w,.ok ()) ∧ Grown pgt m page (ps++[ppn]) v w) ∨
      ∃ e,u.mapPages (m'.zeroed heap ppn) ((page+ps.length)*pageSize) pageSize ppn userPerm=
        .ok (v,w,.error e) ∧ Grown pgt m page ps v (w.free ppn) := by
  have hlow := h.low
  have htables : Grown pgt m page ps (u.withTables (m'.zeroed heap ppn) (page+ps.length))
      ((u.afterTables (m'.zeroed heap ppn) (page+ps.length)).free ppn) :=
    h.take hm sameEntries_withTables rfl (List.take_append_drop ..) rfl
  rw [mapPages_page,if_neg (by simp only [pageSize,maxva] at hlow ⊢; omega)]
  split
  · exact ⟨_,_,.inr ⟨_,rfl,h.take hm (fun _ => rfl) (List.nil_append _).symm (List.nil_append _) rfl⟩⟩
  rename_i hmax
  split
  · exact ⟨_,_,.inr ⟨_,rfl,htables⟩⟩
  rename_i hlack
  split
  · exact ⟨_,_,.inr ⟨_,rfl,htables⟩⟩
  rename_i hvalid
  refine ⟨_,_,.inl ⟨rfl,htables.map (not_lt.mp hmax) (fun hv => hvalid ?_)
    (Function.update_self ..) (fun q => ?_) rfl⟩⟩
  · rw [ValidAt,entryAt_withTables] at hv
    exact hv
  · rw [entryAt_mapped (not_lt.mp hlack),entryAt_withTables]

/-- The pages that are mapped are those that are freed. -/
theorem Grown.freedPages (h : Grown pgt m page ps u m') :
    UserUnmap.freedPages u page ps.length=ps.reverse := by
  rw [UserUnmap.freedPages]
  congr 1
  refine List.ext_getElem (by simp) fun i h1 h2 => ?_
  rw [List.getElem_map,List.getElem_range,h.entry i _ (List.getElem?_eq_getElem h2)]
  rfl

/-- `uvm_dealloc` takes all pages away that are mapped. -/
theorem Grown.undo (h : Grown pgt m page ps u m') :
    ∃ v w size,u.uvmDealloc m' ((page+ps.length)*pageSize) (page*pageSize)=.ok (v,w,size) ∧
      Restored pgt m v w := by
  obtain ⟨fs,hf,hp⟩ := h.taken
  have hlow := h.low
  by_cases hnil : ps=[]
  · rw [hnil] at h hp ⊢
    have hge : page*pageSize ≥ (page+([] : List ℕ).length)*pageSize := le_refl _
    rw [uvmDealloc,if_pos hge]
    exact ⟨u,m',_,rfl,fun q hq _ => h.other q hq fun i hi => absurd hi (Nat.not_lt_zero i),
      ⟨fs,hf,hp⟩,h.data⟩
  · have hpos : 0 < ps.length := List.length_pos_iff.mpr hnil
    have hlt : page*pageSize < (page+ps.length)*pageSize :=
      Nat.mul_lt_mul_of_pos_right (by omega) (by decide)
    have hover : ¬(page+ps.length)*pageSize+(pageSize-1) ≥ 2^64 := by
      simp only [pageSize,maxva] at hlow ⊢
      omega
    have hcount : ((page+ps.length)*pageSize-page*pageSize)/pageSize=ps.length := by
      rw [← Nat.sub_mul,Nat.add_sub_cancel_left,Nat.mul_div_cancel _ (by decide)]
    have hbound : ¬page*pageSize+pageSize*ps.length ≥ 2^64 := by
      simp only [pageSize,maxva] at hlow ⊢
      omega
    rw [uvmDealloc,if_neg (not_le.mpr hlt),if_neg hover,pgRoundUp_page,pgRoundUp_page,if_pos hlt,
      hcount,uvmUnmap,if_neg (not_not.mpr (Nat.mul_mod_left ..)),if_neg hbound]
    obtain ⟨k,v,hk,hc,hstop,hr⟩ | ⟨k,hk,-,-,hv,hl,-⟩ := unmapLoop_cases u m' page ps.length
    · have hkall : k=ps.length := by
        by_contra hne
        have hlt' : k < ps.length := by omega
        have hinv := hstop hlt' (by have := h.lt hk; omega)
        rw [valid_of_mapped (h.mapped hlt')] at hinv
        cases hinv
      rw [hr,hkall,h.freedPages]
      rw [hkall] at hc
      refine ⟨v,_,_,rfl,fun q hq hvq => ?_,⟨fs,hc.frames.trans hf,?_⟩,h.data⟩
      · by_cases hin : ∃ i,i < ps.length ∧ q=page+i
        · obtain ⟨i,hi,rfl⟩ := hin
          have hzero : v.entryAt (page+i)=Pte.zero := cleared_zero hc hi rfl
          obtain hb | ha := hvq
          · exact absurd hb (h.hole i hi)
          · rw [ValidAt,hzero] at ha
            exact absurd ha (by decide)
        · have hout : ∀ i,i < ps.length → q≠page+i := fun i hi e => hin ⟨i,hi,e⟩
          have hsame : v.entryAt q=u.entryAt q := cleared_other hc fun i hi => by
            rw [Nat.mod_eq_of_lt hq,Nat.mod_eq_of_lt (h.lt (Nat.le_of_lt hi))]
            exact hout i hi
          rw [hsame]
          exact h.other q hq hout
      · refine List.Perm.trans ?_ hp
        rw [← Multiset.coe_eq_coe]
        simp only [← Multiset.coe_add,Multiset.coe_reverse]
        abel
    · rw [leaf_of_mapped (h.mapped hk)] at hl
      cases hl

/-- The loop of `uvm_alloc` maps all pages of its range, or none. -/
theorem Grown.loop (n : ℕ) (h : Grown pgt m page ps u m') :
    ∃ v w done,u.allocLoop m' (page*pageSize) ((page+ps.length)*pageSize) n=.ok (v,w,done) ∧
      ((done=true ∧ ∃ qs,qs.length=ps.length+n ∧ Grown pgt m page qs v w) ∨
        (done=false ∧ Restored pgt m v w)) := by
  induction n generalizing ps u m' with
  | zero => exact ⟨u,m',true,rfl,.inl ⟨rfl,ps,rfl,h⟩⟩
  | succ n ih =>
    rw [allocLoop]
    cases hm : m'.heap with
    | nil =>
      obtain ⟨v,w,size,hr,hres⟩ := h.undo
      dsimp only
      rw [hr]
      exact ⟨v,w,false,rfl,.inr ⟨rfl,hres⟩⟩
    | cons ppn heap =>
      dsimp only
      obtain ⟨v,w,⟨hr,hg⟩ | ⟨e,hr,hg⟩⟩ := h.round hm
      · have hlen : page+(ps++[ppn]).length=page+ps.length+1 := by simp; omega
        obtain ⟨v',w',done,hloop,hres⟩ := ih hg
        rw [hlen,Nat.succ_mul] at hloop
        rw [userPerm] at hr
        rw [hr]
        refine ⟨v',w',done,hloop,?_⟩
        obtain ⟨hd,qs,hqs,hg'⟩ | hres := hres
        · refine .inl ⟨hd,qs,?_,hg'⟩
          rw [hqs]
          simp
          omega
        · exact .inr hres
      · obtain ⟨v',w',size,hu,hres⟩ := hg.undo
        rw [userPerm] at hr
        rw [hr]
        dsimp only [ok_bind]
        rw [hu]
        exact ⟨v',w',false,rfl,.inr ⟨rfl,hres⟩⟩

end Rounds

/-- The page begins between the two sizes. -/
def InRange (oldSize newSize q : ℕ) : Prop :=
  pgRoundUp oldSize ≤ q*pageSize ∧ q*pageSize < newSize

/-- The pages between the two sizes were mapped, each to a page of its own that was free. -/
structure Grew (pgt : PageTable) (m : Mem) (oldSize newSize : ℕ) (pgt' : PageTable) (m' : Mem) :
    Prop where
  /-- A page of the range was not mapped; it is now, to a page that was free and is zeroed. -/
  newly : ∀ q,InRange oldSize newSize q → ¬ValidAt pgt q ∧
    ∃ p,pgt'.entryAt q=Pte.writePerm p userPerm ∧ m'.data p=(fun _ => 0) ∧ p∈m.heap ∧ p∉m'.heap
  /-- No two pages of the range share a page. -/
  distinct : ∀ q q',InRange oldSize newSize q → InRange oldSize newSize q' →
    (pgt'.entryAt q).ppn=(pgt'.entryAt q').ppn → q=q'
  /-- No other entry has changed. -/
  other : ∀ q,q < pages → ¬InRange oldSize newSize q → pgt'.entryAt q=pgt.entryAt q
  /-- New tables take pages that were free and are not behind the range. -/
  tables : ∃ fs,pgt'.frames=fs++pgt.frames ∧
    ∀ f∈fs,f∈m.heap ∧ f∉m'.heap ∧ ∀ q,InRange oldSize newSize q → (pgt'.entryAt q).ppn≠f

section Whole

variable {pgt pgt' : PageTable} {m m' : Mem} {oldSize newSize : ℕ} {ps : List ℕ}

/-- The pages of the range are those of the rounds of `uvm_alloc`. -/
theorem inRange_iff (oldSize newSize q : ℕ) : InRange oldSize newSize q ↔
    ∃ i,i < (pgRoundUp newSize-pgRoundUp oldSize)/pageSize ∧ q=pgRoundUp oldSize/pageSize+i := by
  rw [InRange]
  constructor
  · rintro ⟨hle,hq⟩
    refine ⟨q-pgRoundUp oldSize/pageSize,?_,?_⟩
    · simp only [pgRoundUp,pageSize] at *
      omega
    · simp only [pgRoundUp,pageSize] at *
      omega
  · rintro ⟨i,hi,rfl⟩
    simp only [pgRoundUp,pageSize] at *
    omega

/-- What the rounds of `uvm_alloc` have done together. -/
theorem Grown.grew (hn : m.heap.Nodup)
    (hlen : ps.length=(pgRoundUp newSize-pgRoundUp oldSize)/pageSize)
    (h : Grown pgt m (pgRoundUp oldSize/pageSize) ps pgt' m') :
    Grew pgt m oldSize newSize pgt' m' := by
  obtain ⟨fs,hf,hp⟩ := h.taken
  have hd := hp.nodup_iff.mpr hn
  have hentry : ∀ q,InRange oldSize newSize q → ∃ i,∃ hi : i < ps.length,
      q=pgRoundUp oldSize/pageSize+i ∧ pgt'.entryAt q=Pte.writePerm ps[i] userPerm := by
    intro q hq
    obtain ⟨i,hi,rfl⟩ := (inRange_iff oldSize newSize q).mp hq
    rw [← hlen] at hi
    exact ⟨i,hi,rfl,h.entry i _ (List.getElem?_eq_getElem hi)⟩
  refine ⟨fun q hq => ?_,fun q q' hq hq' he => ?_,fun q hq hnot => ?_,fs,hf,fun f hfs => ?_⟩
  · obtain ⟨i,hi,rfl,he⟩ := hentry q hq
    have hmem : ps[i]∈ps := List.getElem_mem hi
    refine ⟨h.hole i hi,ps[i],he,h.zero hn _ hmem,hp.subset (List.mem_append_left _ hmem),fun hin => ?_⟩
    exact List.disjoint_of_nodup_append hd hmem (List.mem_append_right _ hin)
  · obtain ⟨i,hi,rfl,hei⟩ := hentry q hq
    obtain ⟨j,hj,rfl,hej⟩ := hentry q' hq'
    rw [hei,hej] at he
    have hij : ps[i]=ps[j] := he
    rw [(List.Nodup.of_append_left hd).getElem_inj_iff.mp hij]
  · refine h.other q hq fun i hi e => hnot ?_
    exact (inRange_iff oldSize newSize q).mpr ⟨i,hlen ▸ hi,e⟩
  · refine ⟨hp.subset (List.mem_append_right _ (List.mem_append_left _ hfs)),fun hin => ?_,
      fun q hq e => ?_⟩
    · exact List.disjoint_of_nodup_append (List.Nodup.of_append_right hd) hfs hin
    · obtain ⟨i,hi,rfl,he⟩ := hentry q hq
      rw [he] at e
      have hmem : ps[i]∈ps := List.getElem_mem hi
      exact List.disjoint_of_nodup_append hd hmem
        (List.mem_append_left _ ((show ps[i]=f from e) ▸ hfs))

/-- The rounds of `uvm_alloc` from the end of the old size on. -/
theorem alloc_rounds (pgt : PageTable) (m : Mem) (hold : oldSize ≤ maxva) (newSize : ℕ) :
    ∃ v w done,pgt.allocLoop m (pgRoundUp oldSize) (pgRoundUp oldSize)
        ((pgRoundUp newSize-pgRoundUp oldSize)/pageSize)=.ok (v,w,done) ∧
      ((done=true ∧ ∃ qs,qs.length=(pgRoundUp newSize-pgRoundUp oldSize)/pageSize ∧
          Grown pgt m (pgRoundUp oldSize/pageSize) qs v w) ∨
        (done=false ∧ Restored pgt m v w)) := by
  have hround : pgRoundUp oldSize/pageSize*pageSize ≤ maxva := by
    rw [pgRoundUp_div]
    simp only [pgRoundUp,pageSize,maxva] at hold ⊢
    omega
  have hnil : Grown pgt m (pgRoundUp oldSize/pageSize) [] pgt m := grown_nil hround
  obtain ⟨v,w,done,hr,hres⟩ := hnil.loop ((pgRoundUp newSize-pgRoundUp oldSize)/pageSize)
  rw [List.length_nil,Nat.add_zero,pgRoundUp_div] at hr
  refine ⟨v,w,done,hr,hres.imp_left ?_⟩
  rintro ⟨hd,qs,hqs,hg⟩
  rw [List.length_nil,Nat.zero_add] at hqs
  exact ⟨hd,qs,hqs,hg⟩

end Whole

/-- `uvm_alloc` maps all pages between the two sizes and returns the new size, or it fails and maps
none: every entry is as before, and every page that was free is free again, once, but for those of
new tables. -/
theorem uvm_alloc_all_or_nothing (pgt : PageTable) (m : Mem) (oldSize newSize : ℕ)
    (hn : m.heap.Nodup) (hold : oldSize ≤ maxva) (hlt : oldSize < newSize) :
    ∃ pgt' m' r,pgt.uvmAlloc m oldSize newSize=.ok (pgt',m',r) ∧
      ((r=some newSize ∧ Grew pgt m oldSize newSize pgt' m') ∨
        (r=none ∧ Restored pgt m pgt' m')) := by
  obtain ⟨v,w,done,hr,⟨rfl,qs,hqs,hg⟩ | ⟨rfl,hres⟩⟩ := alloc_rounds pgt m hold newSize
  · rw [uvmAlloc,if_neg (not_le.mpr hlt),hr]
    exact ⟨v,w,_,rfl,.inl ⟨rfl,hg.grew hn hqs⟩⟩
  · rw [uvmAlloc,if_neg (not_le.mpr hlt),hr]
    exact ⟨v,w,_,rfl,.inr ⟨rfl,hres⟩⟩

/-- An empty page table and five free pages. -/
def fiveFree : PageTable×Mem := (⟨Table.empty Pte.zero 2,[]⟩,⟨[1,2,3,4,5],fun _ _ => 7⟩)

theorem uvm_alloc_all_or_nothing_two :
    ∃ pgt m,uvmAlloc fiveFree.1 fiveFree.2 0 8192=.ok (pgt,m,some 8192) ∧
      Grew fiveFree.1 fiveFree.2 0 8192 pgt m := by
  obtain ⟨pgt,m,r,hr,hcases⟩ :=
    uvm_alloc_all_or_nothing fiveFree.1 fiveFree.2 0 8192 (by decide) (by decide) (by decide)
  have hsize : (uvmAlloc fiveFree.1 fiveFree.2 0 8192).toOption.map (fun x => x.2.2)=
      some (some 8192) := by
    decide +kernel
  rw [hr] at hsize
  have hsome : r=some 8192 := Option.some_inj.mp hsize
  obtain ⟨-,hgrew⟩ | ⟨hnone,-⟩ := hcases
  · exact ⟨pgt,m,hsome ▸ hr,hgrew⟩
  · rw [hsome] at hnone
    cases hnone

end Xv6Rust.UserAlloc
