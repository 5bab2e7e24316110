import Xv6Rust.Paging

/-!
# Copying user memory at fork

`uvm_copy` walks the pages below the size. It fails where a table of the parent is
missing, but returns success where the entry is invalid and also where the heap has
no page for the clone, so a fork can succeed with mapped pages of the parent left
out. The condition under which a successful copy is whole is exact.
-/

namespace Xv6Rust.UserCopy

open RadixTable Results Paging PageTable

/-- A parent, a child and memory, with the allocator's guarantee: free pages are
different and no page table maps one of them. -/
structure Setting where
  /-- Page table of the parent. -/
  parent : PageTable
  /-- Page table of the child. -/
  child : PageTable
  /-- Memory before the copy. -/
  mem : Mem
  /-- Free pages are different. -/
  nodup : mem.heap.Nodup
  /-- The parent maps no free page. -/
  parent_used : ∀ page,(parent.entryAt page).isValid=true → (parent.entryAt page).ppn∉mem.heap
  /-- The child maps no free page. -/
  child_used : ∀ page,(child.entryAt page).isValid=true → (child.entryAt page).ppn∉mem.heap

/-- Rounds of `uvm_copy` for a size. -/
def pageCount (size : ℕ) : ℕ := (size+pageSize-1)/pageSize

/-- Pages of the address space below a size. -/
def pagesBelow (size : ℕ) : ℕ := min (pageCount size) pages

/-- A valid page. -/
def Valid (pgt : PageTable) (page : ℕ) : Prop := (pgt.entryAt page).isValid=true

/-- A page of the child is a copy of the parent's: a fresh page with the contents and
the permissions of the parent's. -/
structure Copy (c : Setting) (child : PageTable) (m : Mem) (page : ℕ) : Prop where
  /-- The child maps the page. -/
  valid : Valid child page
  /-- The physical page is another one. -/
  other : (child.entryAt page).ppn≠(c.parent.entryAt page).ppn
  /-- It came from the heap. -/
  fresh : (child.entryAt page).ppn∈c.mem.heap
  /-- It has the parent's contents. -/
  contents : m.data (child.entryAt page).ppn=c.mem.data (c.parent.entryAt page).ppn
  /-- It has the parent's permission bits. -/
  flags : (child.entryAt page).flags=(c.parent.entryAt page).flags

/-- A successful copy is whole: pages mapped in the parent are copied, the others are
not mapped in the child. -/
def CopiesWhole (c : Setting) (size : ℕ) : Prop :=
  ∀ child m,uvmCopy c.parent c.child c.mem size=.ok (child,m,true) →
    ∀ page,page<pagesBelow size →
      (Valid c.parent page → Copy c child m page) ∧ (¬Valid c.parent page → ¬Valid child page)

/-- A page that can be copied: mapped in the parent, free in the child, and below
`MAXVA`. -/
def Copyable (c : Setting) (page : ℕ) : Prop :=
  Valid c.parent page ∧ ¬Valid c.child page ∧ page*pageSize+pageSize ≤ maxva

/-- The tables of the child once it has those for its first pages. -/
def grown (c : Setting) : ℕ → Table Pte 2
  | 0 => c.child.root
  | i+1 => grow fan Pte.zero (grown c i) i

/-- Heap pages that the first pages take: one for each clone and one for each table
the child lacks. -/
def need (c : Setting) : ℕ → ℕ
  | 0 => 0
  | i+1 => need c i+1+missing fan (grown c i) i

/-- With `k` the first page that cannot be copied: no clone before it finds the heap
empty, and if memory lasts up to it, either it is past the end, or `uvm_copy` fails
there (a table of the parent is missing, or the page of the child is taken), or it is
a hole with nothing mapped after it. -/
def CopyComplete (c : Setting) (size : ℕ) : Prop :=
  ∃ k,k≤pagesBelow size ∧ (∀ i,i<k → Copyable c i) ∧ (k<pagesBelow size → ¬Copyable c k) ∧
    (∀ i,i<k → c.mem.heap.length≠need c i) ∧
    (need c k ≤ c.mem.heap.length →
      k=pagesBelow size ∨ find fan c.parent.root k=none ∨
      (Valid c.parent k ∧ c.mem.heap.length≠need c k) ∨
      ∀ j,k≤j → j<pagesBelow size → ¬Valid c.parent j ∧ ¬Valid c.child j)

/-- The copy of the first `i` pages is done. -/
structure Progress (c : Setting) (i : ℕ) (child : PageTable) (m : Mem) : Prop where
  /-- Memory used so far. -/
  heap : m.heap=c.mem.heap.drop (need c i)
  /-- Within the memory there was. -/
  enough : need c i ≤ c.mem.heap.length
  /-- Tables of the child. -/
  shape : SameShape child.root (grown c i)
  /-- The pages before are copied. -/
  copied : ∀ j,j < i → Copy c child m j ∧ (child.entryAt j).ppn∉m.heap
  /-- The pages after are as before. -/
  rest : ∀ j,i≤j → j<pages → child.entryAt j=c.child.entryAt j
  /-- Pages that were not free keep their contents. -/
  data : ∀ p,p∉c.mem.heap → m.data p=c.mem.data p

section Rounds

variable {c : Setting} {i n : ℕ} {child : PageTable} {m : Mem}

theorem flags_or_valid {flags : PteFlag} (h : flags&&&flagV≠0) : flags|||flagV=flags := by
  have h0 : flags[0]=true := by
    by_contra hf
    apply h
    ext j hj
    rw [BitVec.getElem_and,flagV,BitVec.ofNat_eq_ofNat,BitVec.getElem_one]
    by_cases e : j=0
    · simpa [e] using hf
    · simp [e]
  ext j hj
  rw [BitVec.getElem_or,flagV,BitVec.ofNat_eq_ofNat,BitVec.getElem_one]
  by_cases e : j=0
  · simp [e,h0]
  · simp [e]

theorem progress_zero (c : Setting) : Progress c 0 c.child c.mem := by
  constructor
  · rfl
  · exact Nat.zero_le _
  · exact SameShape.refl _
  · intro j hj
    exact absurd hj (Nat.not_lt_zero j)
  · intro j _ _
    rfl
  · intro p _
    rfl

/-- A page below `MAXVA` is below the number of pages. -/
theorem page_lt {page : ℕ} (h : page*pageSize+pageSize ≤ maxva) :
    page<pages ∧ page*pageSize+pageSize<2^64 := by
  have e : pages=134217728 := by decide
  simp only [pageSize,maxva] at h ⊢
  omega

theorem isValid_iff (pte : Pte) : pte.isValid=true ↔ pte.flags&&&flagV≠0 := by
  rw [Pte.isValid,bne_iff_ne]

/-- `uvm_copy` stops with an error after the pages copied so far are unmapped. -/
theorem undo_ne_true {r : Except Panic (PageTable×Mem)} {child' : PageTable} {m' : Mem} :
    (do let u ← r; .ok (u.1,u.2,false) : Except Panic (PageTable×Mem×Bool))≠
      .ok (child',m',true) := by
  intro h
  obtain ⟨u,-,hu⟩ := bind_eq_ok h
  cases hu

/-- A round that finds the heap empty ends the copy with success. -/
theorem copyLoop_refused {pte : Pte} (hf : find fan c.parent.root i=some pte)
    (hm : m.heap=[]) (n : ℕ) : copyLoop c.parent child m i (n+1)=.ok (child,m,true) := by
  rw [copyLoop,findPte_eq,hf]
  dsimp only
  rw [tryClone,hm]
  split
  · rfl
  · rename_i h
    split at h <;> cases h

/-- A round that clones a page goes on with `map_pages`. -/
theorem copyLoop_cloned {pte : Pte} {ppn : ℕ} {heap : List ℕ} (hf : find fan c.parent.root i=some pte)
    (hv : pte.isValid=true) (hm : m.heap=ppn::heap) (n : ℕ) :
    copyLoop c.parent child m i (n+1)=(do
      let r ← child.mapPages (m.cloned heap ppn pte.ppn) (i*pageSize) pageSize ppn pte.flags
      match r with
      | (child,m,.ok ()) => copyLoop c.parent child m (i+1) n
      | (child,m,.error _) => do
        let r ← child.uvmUnmap (m.free ppn) 0 i true
        .ok (r.1,r.2,false)) := by
  rw [copyLoop,findPte_eq,hf]
  dsimp only
  rewrite [tryClone,if_neg (by rw [hv]; decide),hm]
  rfl

/-- One more page is copied. -/
theorem Progress.next (hp : Progress c i child m) (hc : Copyable c i) {ppn : ℕ} {heap : List ℕ}
    (hm : m.heap=ppn::heap) (hn : need c (i+1) ≤ c.mem.heap.length) :
    Progress c (i+1)
      (child.mapped (m.cloned heap ppn (c.parent.entryAt i).ppn) i
        (Pte.writePerm ppn (c.parent.entryAt i).flags))
      (child.afterTables (m.cloned heap ppn (c.parent.entryAt i).ppn) i) := by
  obtain ⟨hv,hfree,hmax⟩ := hc
  have hlack : child.lacking i=missing fan (grown c i) i := hp.shape.missing_eq i
  have hlen : heap.length+1=c.mem.heap.length-need c i := by
    rw [←List.length_cons,←hm,hp.heap,List.length_drop]
  have hneed : need c (i+1)=need c i+1+missing fan (grown c i) i := rfl
  have henough : child.lacking i ≤ heap.length := by omega
  have hheap : heap=c.mem.heap.drop (need c i+1) := by
    have h := hp.heap
    rw [hm] at h
    rw [←List.drop_drop,←h]
    rfl
  have hmem : ppn∈c.mem.heap := by
    have h : ppn∈m.heap := by rw [hm]; exact List.mem_cons_self
    rw [hp.heap] at h
    exact List.mem_of_mem_drop h
  have hnd : (ppn::heap).Nodup := by
    rw [←hm,hp.heap]
    exact c.nodup.sublist (List.drop_sublist _ _)
  have hout : ppn∉heap.drop (child.lacking i) := fun h =>
    (List.nodup_cons.mp hnd).1 (List.mem_of_mem_drop h)
  have hsrc : (c.parent.entryAt i).ppn∉c.mem.heap := c.parent_used i hv
  have hi := (page_lt hmax).1
  have hentry := @entryAt_mapped child (m.cloned heap ppn (c.parent.entryAt i).ppn) i henough
    (Pte.writePerm ppn (c.parent.entryAt i).flags)
  have hself : (child.mapped (m.cloned heap ppn (c.parent.entryAt i).ppn) i
      (Pte.writePerm ppn (c.parent.entryAt i).flags)).entryAt i=
      Pte.writePerm ppn (c.parent.entryAt i).flags := by
    rw [hentry,if_pos rfl]
  have hothers : ∀ j,j<pages → j≠i → (child.mapped (m.cloned heap ppn (c.parent.entryAt i).ppn) i
      (Pte.writePerm ppn (c.parent.entryAt i).flags)).entryAt j=child.entryAt j := by
    intro j hj hne
    rw [hentry,if_neg]
    rw [Nat.mod_eq_of_lt hj,Nat.mod_eq_of_lt hi]
    exact hne
  constructor
  · change heap.drop (child.lacking i)=_
    rw [hlack,hheap,List.drop_drop,hneed]
  · exact hn
  · change SameShape (RadixTable.set fan _ (i*pageSize/pageSize) _) _
    apply SameShape.set
    change SameShape (create fan Pte.zero child.root i heap).1 _
    rw [create_table henough]
    exact hp.shape.grow i
  · intro j hj
    by_cases e : j=i
    · rw [e]
      refine ⟨⟨?_,?_,?_,?_,?_⟩,?_⟩
      · rw [Valid,hself]
        exact Pte.writePerm_valid _ _
      · rw [hself]
        intro h
        rw [←h] at hsrc
        exact hsrc hmem
      · rw [hself]
        exact hmem
      · rw [hself]
        change Function.update m.data ppn (m.data (c.parent.entryAt i).ppn) ppn=_
        rw [Function.update_self,hp.data _ hsrc]
      · rw [hself]
        exact flags_or_valid ((isValid_iff _).mp hv)
      · rw [hself]
        exact hout
    · have hji : j < i := by omega
      obtain ⟨⟨h1,h2,h3,h4,h5⟩,h6⟩ := hp.copied j hji
      have he := hothers j (by omega) e
      have hne : (child.entryAt j).ppn≠ppn := by
        intro h
        rw [h,hm] at h6
        exact h6 List.mem_cons_self
      refine ⟨⟨?_,?_,?_,?_,?_⟩,?_⟩
      · rw [Valid,he]
        exact h1
      · rw [he]
        exact h2
      · rw [he]
        exact h3
      · rw [he]
        change Function.update m.data ppn (m.data (c.parent.entryAt i).ppn) (child.entryAt j).ppn=_
        rw [Function.update_of_ne hne,h4]
      · rw [he]
        exact h5
      · rw [he]
        intro h
        rw [hm] at h6
        exact h6 (List.mem_cons_of_mem _ (List.mem_of_mem_drop h))
  · intro j hj hjp
    rw [hothers j hjp (by omega)]
    exact hp.rest j (by omega) hjp
  · intro p hpn
    change Function.update m.data ppn (m.data (c.parent.entryAt i).ppn) p=_
    have hne : p≠ppn := by
      intro e
      rw [e] at hpn
      exact hpn hmem
    rw [Function.update_of_ne hne,hp.data p hpn]

/-- One round at a page that can be copied: the clone is refused and the copy ends
with success, the tables do not fit and it fails, or the page is copied. -/
theorem Progress.round (hp : Progress c i child m) (hc : Copyable c i) (n : ℕ) :
    (c.mem.heap.length=need c i ∧ copyLoop c.parent child m i (n+1)=.ok (child,m,true)) ∨
    (need c i < c.mem.heap.length ∧ c.mem.heap.length<need c (i+1) ∧
      ∀ child' m',copyLoop c.parent child m i (n+1)≠.ok (child',m',true)) ∨
    (need c (i+1) ≤ c.mem.heap.length ∧ ∃ child' m',Progress c (i+1) child' m' ∧
      copyLoop c.parent child m i (n+1)=copyLoop c.parent child' m' (i+1) n) := by
  have hf := find_of_valid hc.1
  cases hm : m.heap with
  | nil =>
    refine .inl ⟨?_,copyLoop_refused hf hm n⟩
    have h := hp.enough
    have hl := hp.heap
    rw [hm] at hl
    have hz := congrArg List.length hl
    rw [List.length_drop,List.length_nil] at hz
    omega
  | cons ppn heap =>
    have hlack : child.lacking i=missing fan (grown c i) i := hp.shape.missing_eq i
    have hlen : heap.length+1=c.mem.heap.length-need c i := by
      rw [←List.length_cons,←hm,hp.heap,List.length_drop]
    have hneed : need c (i+1)=need c i+1+missing fan (grown c i) i := rfl
    have hmax := hc.2.2
    have hfree : ¬(child.entryAt i).isValid=true := by
      rw [hp.rest i (le_refl i) (page_lt hmax).1]
      exact hc.2.1
    rw [copyLoop_cloned hf hc.1 hm,mapPages_page,if_neg (by have := (page_lt hmax).2; omega),
      if_neg (by omega)]
    by_cases hlt : c.mem.heap.length<need c (i+1)
    · refine .inr (.inl ⟨by omega,hlt,?_⟩)
      intro child' m'
      rw [if_pos (by change child.lacking i > heap.length; omega),ok_bind]
      exact undo_ne_true
    · refine .inr (.inr ⟨by omega,_,_,hp.next hc hm (by omega),?_⟩)
      rw [if_neg (by change ¬child.lacking i > heap.length; omega),if_neg hfree,ok_bind]

theorem need_lt_succ (c : Setting) (i : ℕ) : need c i<need c (i+1) := by
  rw [need]
  omega

theorem need_strictMono (c : Setting) : StrictMono (need c) := strictMono_nat_of_lt_succ (need_lt_succ c)

/-- With memory for the first `k` pages they are copied. -/
theorem reach {k n : ℕ} (hc : ∀ i,i<k → Copyable c i) (hk : k≤n)
    (hn : need c k ≤ c.mem.heap.length) :
    ∃ child m,Progress c k child m ∧
      copyLoop c.parent c.child c.mem 0 n=copyLoop c.parent child m k (n-k) := by
  induction k with
  | zero => exact ⟨c.child,c.mem,progress_zero c,rfl⟩
  | succ k ih =>
    have hlt := need_lt_succ c k
    obtain ⟨child,m,hp,he⟩ := ih (fun i hi => hc i (by omega)) (by omega) (by omega)
    have hs : n-k=n-(k+1)+1 := by omega
    rw [hs] at he
    rcases hp.round (hc k (Nat.lt_succ_self k)) (n-(k+1)) with ⟨h,-⟩|⟨-,h,-⟩|⟨-,child',m',hp',he'⟩
    · omega
    · omega
    · exact ⟨child',m',hp',he.trans he'⟩

/-- Without memory for the first `k` pages the copy ends before them: with success at
a refused clone, or with an error at the tables. -/
theorem runs_out {k n : ℕ} (hc : ∀ i,i<k → Copyable c i) (hk : k≤n)
    (hn : c.mem.heap.length<need c k) :
    (∃ i child m,i<k ∧ c.mem.heap.length=need c i ∧ Progress c i child m ∧
      copyLoop c.parent c.child c.mem 0 n=.ok (child,m,true)) ∨
    ((∀ i,c.mem.heap.length≠need c i) ∧
      ∀ child m,copyLoop c.parent c.child c.mem 0 n≠.ok (child,m,true)) := by
  have hfirst : ∃ i,i<k ∧ need c i ≤ c.mem.heap.length ∧ c.mem.heap.length<need c (i+1) := by
    induction k with
    | zero => exact absurd hn (Nat.not_lt_zero _)
    | succ k ih =>
      by_cases h : c.mem.heap.length<need c k
      · obtain ⟨i,hi,h1,h2⟩ := ih (fun i hi => hc i (by omega)) (by omega) h
        exact ⟨i,by omega,h1,h2⟩
      · exact ⟨k,by omega,by omega,hn⟩
  obtain ⟨i,hi,h1,h2⟩ := hfirst
  obtain ⟨child,m,hp,he⟩ := reach (fun j hj => hc j (by omega)) (by omega : i≤n) h1
  have hs : n-i=n-(i+1)+1 := by omega
  rw [hs] at he
  rcases hp.round (hc i hi) (n-(i+1)) with ⟨h,hr⟩|⟨h,-,hr⟩|⟨h,-⟩
  · exact .inl ⟨i,child,m,hi,h,hp,he.trans hr⟩
  · refine .inr ⟨?_,?_⟩
    · intro j hj
      rw [hj] at h h2
      have hij := (need_strictMono c).lt_iff_lt.mp h
      have hji := (need_strictMono c).lt_iff_lt.mp h2
      omega
    · intro child' m'
      rw [he]
      exact hr child' m'
  · omega

/-- A round at a page that cannot be copied: what it takes for success there. -/
theorem Progress.stop {child : PageTable} {m : Mem} (hp : Progress c i child m)
    (hc : ¬Copyable c i) (n : ℕ) :
    (find fan c.parent.root i=none ∧ copyLoop c.parent child m i (n+1)=.ok (child,m,false)) ∨
    ((find fan c.parent.root i).isSome=true ∧ ¬Valid c.parent i ∧
      copyLoop c.parent child m i (n+1)=.ok (child,m,true)) ∨
    (Valid c.parent i ∧ c.mem.heap.length=need c i ∧
      copyLoop c.parent child m i (n+1)=.ok (child,m,true)) ∨
    (Valid c.parent i ∧ c.mem.heap.length≠need c i ∧
      ∀ child' m',copyLoop c.parent child m i (n+1)≠.ok (child',m',true)) := by
  cases hf : find fan c.parent.root i with
  | none =>
    refine .inl ⟨rfl,?_⟩
    rw [copyLoop,findPte_eq,hf]
  | some pte =>
    have hpte := entryAt_of_find hf
    cases hv : pte.isValid with
    | false =>
      refine .inr (.inl ⟨rfl,?_,?_⟩)
      · rw [Valid,hpte,hv]
        decide
      · rw [copyLoop,findPte_eq,hf]
        dsimp only
        rw [tryClone,if_pos hv]
    | true =>
      have hval : Valid c.parent i := by
        rw [Valid,hpte,hv]
      have hlen : m.heap.length=c.mem.heap.length-need c i := by rw [hp.heap,List.length_drop]
      have henough := hp.enough
      cases hm : m.heap with
      | nil =>
        rw [hm,List.length_nil] at hlen
        exact .inr (.inr (.inl ⟨hval,by omega,copyLoop_refused hf hm n⟩))
      | cons ppn heap =>
        rw [hm,List.length_cons] at hlen
        refine .inr (.inr (.inr ⟨hval,by omega,?_⟩))
        intro child' m'
        rw [copyLoop_cloned hf hv hm,mapPages_page]
        split
        · rw [error_bind]
          intro h
          cases h
        · split
          · rw [ok_bind]
            exact undo_ne_true
          · split
            · rw [ok_bind]
              exact undo_ne_true
            · rename_i h1 h2 h3
              have hchild : (child.entryAt i).isValid=true := by
                rw [hp.rest i (le_refl i) (page_lt (by omega)).1]
                by_contra hn
                exact hc ⟨hval,hn,by omega⟩
              rw [if_pos hchild,ok_bind]
              exact undo_ne_true

end Rounds

section Whole

variable {c : Setting} {size k : ℕ}

/-- The first page below the size that cannot be copied. -/
theorem exists_first (c : Setting) (size : ℕ) :
    ∃ k,k≤pagesBelow size ∧ (∀ i,i<k → Copyable c i) ∧ (k<pagesBelow size → ¬Copyable c k) := by
  induction pagesBelow size with
  | zero => exact ⟨0,le_refl 0,fun i hi => absurd hi (Nat.not_lt_zero i),
      fun h => absurd h (Nat.lt_irrefl 0)⟩
  | succ n ih =>
    obtain ⟨k,hk,hc,hn⟩ := ih
    by_cases h : k<n
    · exact ⟨k,by omega,hc,fun _ => hn h⟩
    · have hkn : k=n := by omega
      by_cases hcn : Copyable c n
      · refine ⟨n+1,le_refl _,?_,fun h => absurd h (Nat.lt_irrefl _)⟩
        intro i hi
        by_cases e : i=n
        · rw [e]
          exact hcn
        · exact hc i (by omega)
      · exact ⟨n,by omega,fun i hi => hc i (by omega),fun _ => hcn⟩

/-- The page where the copyable front ends is unique. -/
theorem first_unique {k k' n : ℕ} (hk : k≤n) (hc : ∀ i,i<k → Copyable c i)
    (hn : k<n → ¬Copyable c k) (hk' : k'≤n) (hc' : ∀ i,i<k' → Copyable c i)
    (hn' : k'<n → ¬Copyable c k') : k=k' := by
  rcases Nat.lt_trichotomy k k' with h|h|h
  · exact absurd (hc' k h) (hn (by omega))
  · exact h
  · exact absurd (hc k' h) (hn' (by omega))

/-- All pages of a copyable front are named without wrapping around. -/
theorem front_lt (hk : k≤pagesBelow size) (hc : ∀ i,i<k → Copyable c i) :
    k≤pageCount size ∧ k<pages := by
  refine ⟨hk.trans (Nat.min_le_left _ _),?_⟩
  have e : pages=134217728 := by decide
  cases k with
  | zero => omega
  | succ k =>
    have h := (hc k (Nat.lt_succ_self k)).2.2
    simp only [pageSize,maxva] at h
    omega

/-- What a success with the first `i` pages copied leaves open: it is whole exactly
when no page from `i` on is mapped in the parent or in the child. -/
theorem Progress.whole_iff {i : ℕ} {child : PageTable} {m : Mem} (hp : Progress c i child m)
    (size : ℕ) (hcop : ∀ j,j < i → Copyable c j) :
    (∀ page,page<pagesBelow size → (Valid c.parent page → Copy c child m page) ∧
      (¬Valid c.parent page → ¬Valid child page)) ↔
    ∀ j,i≤j → j<pagesBelow size → ¬Valid c.parent j ∧ ¬Valid c.child j := by
  have hrest : ∀ j,i≤j → j<pagesBelow size → child.entryAt j=c.child.entryAt j := by
    intro j hj hlt
    exact hp.rest j hj (lt_of_lt_of_le hlt (Nat.min_le_right _ _))
  constructor
  · intro h j hj hlt
    have hpar : ¬Valid c.parent j := by
      intro hv
      have hcopy := (h j hlt).1 hv
      have hvc := hcopy.valid
      have hfr := hcopy.fresh
      rw [Valid,hrest j hj hlt] at hvc
      rw [hrest j hj hlt] at hfr
      exact c.child_used j hvc hfr
    refine ⟨hpar,?_⟩
    have hch := (h j hlt).2 hpar
    rw [Valid,hrest j hj hlt] at hch
    exact hch
  · intro h page hlt
    by_cases hj : page < i
    · exact ⟨fun _ => (hp.copied page hj).1,fun hn => absurd (hcop page hj).1 hn⟩
    · obtain ⟨h1,h2⟩ := h page (by omega) hlt
      refine ⟨fun hv => absurd hv h1,fun _ => ?_⟩
      rw [Valid,hrest page (by omega) hlt]
      exact h2

end Whole

/-- A successful `uvm_copy` copies the whole user memory exactly when no clone is
refused for lack of memory and the walk does not end with success at a hole that has
mapped pages after it. -/
theorem copy_whole_iff (c : Setting) (size : ℕ) : CopiesWhole c size ↔ CopyComplete c size := by
  obtain ⟨k,hk,hc,hn⟩ := exists_first c size
  obtain ⟨hkc,hkp⟩ := front_lt hk hc
  have hcond : CopyComplete c size ↔ (∀ i,i<k → c.mem.heap.length≠need c i) ∧
      (need c k ≤ c.mem.heap.length →
        k=pagesBelow size ∨ find fan c.parent.root k=none ∨
        (Valid c.parent k ∧ c.mem.heap.length≠need c k) ∨
        ∀ j,k≤j → j<pagesBelow size → ¬Valid c.parent j ∧ ¬Valid c.child j) := by
    constructor
    · rintro ⟨k',hk',hc',hn',h1,h2⟩
      have e := first_unique hk hc hn hk' hc' hn'
      rw [e]
      exact ⟨h1,h2⟩
    · rintro ⟨h1,h2⟩
      exact ⟨k,hk,hc,hn,h1,h2⟩
  rw [hcond,CopiesWhole,uvmCopy]
  change (∀ child m,copyLoop c.parent c.child c.mem 0 (pageCount size)=_ → _) ↔ _
  by_cases hmem : need c k ≤ c.mem.heap.length
  · have hno : ∀ i,i<k → c.mem.heap.length≠need c i := by
      intro i hi
      have := need_strictMono c hi
      omega
    obtain ⟨child,m,hp,he⟩ := reach hc hkc hmem
    rw [he]
    by_cases hend : k=pagesBelow size
    · have hall : ∀ j,k≤j → j<pagesBelow size → ¬Valid c.parent j ∧ ¬Valid c.child j := by
        intro j h1 h2
        omega
      have hz : pageCount size-k=0 := by
        rw [pagesBelow] at hend
        omega
      rw [hz,copyLoop]
      refine ⟨fun _ => ⟨hno,fun _ => .inl hend⟩,?_⟩
      rintro - child' m' h
      cases h
      exact (hp.whole_iff size hc).mpr hall
    · have hlt : k<pagesBelow size := by omega
      have hs : pageCount size-k=pageCount size-(k+1)+1 := by
        rw [pagesBelow] at hlt
        omega
      rw [hs]
      rcases hp.stop (hn hlt) (pageCount size-(k+1)) with
        ⟨hf,hr⟩|⟨hf,hv,hr⟩|⟨hv,hl,hr⟩|⟨hv,hl,hr⟩
      · rw [hr]
        refine ⟨fun _ => ⟨hno,fun _ => .inr (.inl hf)⟩,?_⟩
        rintro - child' m' h
        cases h
      · rw [hr]
        have hw := hp.whole_iff size hc
        constructor
        · intro h
          exact ⟨hno,fun _ => .inr (.inr (.inr (hw.mp (h child m rfl))))⟩
        · rintro ⟨-,h⟩ child' m' he'
          cases he'
          rcases h hmem with h|h|h|h
          · exact absurd h hend
          · rw [h] at hf
            cases hf
          · exact absurd h.1 hv
          · exact hw.mpr h
      · rw [hr]
        have hw := hp.whole_iff size hc
        constructor
        · intro h
          exact absurd hv (hw.mp (h child m rfl) k (le_refl k) hlt).1
        · rintro ⟨-,h⟩
          rcases h hmem with h|h|h|h
          · exact absurd h hend
          · have hsome := find_of_valid hv
            rw [h] at hsome
            cases hsome
          · exact absurd hl h.2
          · exact absurd hv (h k (le_refl k) hlt).1
      · refine ⟨fun _ => ⟨hno,fun _ => .inr (.inr (.inl ⟨hv,hl⟩))⟩,?_⟩
        intro _ child' m' h
        exact absurd h (hr child' m')
  · rcases runs_out hc hkc (by omega) with ⟨i,child,m,hi,hl,hp,hr⟩|⟨hl,hr⟩
    · rw [hr]
      constructor
      · intro h
        have hw := (hp.whole_iff size (fun j hj => hc j (by omega))).mp (h child m rfl)
        exact absurd (hc i hi).1 (hw i (le_refl i) (by omega)).1
      · rintro ⟨h,-⟩
        exact absurd hl (h i hi)
    · refine ⟨fun _ => ⟨fun i _ => hl i,fun h => absurd h hmem⟩,?_⟩
      intro _ child' m' h
      exact absurd h (hr child' m')

/-- The heap of the example. -/
def exampleMem (heap : List ℕ) : Mem := ⟨heap,fun _ _ => 0⟩

/-- A process with its code in page 0 that grew its heap by two pages and touched the
second one: page 1 is a hole below page 2. -/
def sparseParent : PageTable :=
  ((⟨Table.empty Pte.zero 2,[]⟩ : PageTable).mapped (exampleMem [1,2]) 0
    (Pte.writePerm 10 (flagR|||flagW|||flagX|||flagU))).mapped (exampleMem [])
    2 (Pte.writePerm 11 (flagR|||flagW|||flagU))

theorem sparseParent_entryAt (page : ℕ) : sparseParent.entryAt page=
    if page%pages=2%pages then Pte.writePerm 11 (flagR|||flagW|||flagU)
    else if page%pages=0%pages then Pte.writePerm 10 (flagR|||flagW|||flagX|||flagU)
    else Pte.zero := by
  rw [sparseParent,entryAt_mapped (by decide +kernel),entryAt_mapped (by decide +kernel)]
  rfl

/-- The sparse parent forks into an empty child. -/
def sparseFork : Setting where
  parent := sparseParent
  child := ⟨Table.empty Pte.zero 2,[]⟩
  mem := exampleMem [20,21,22,23,24]
  nodup := by decide
  parent_used := by
    intro page
    rw [sparseParent_entryAt]
    split
    · decide
    · split <;> decide
  child_used := by
    intro page h
    have hz : (⟨Table.empty Pte.zero 2,[]⟩ : PageTable).entryAt page=Pte.zero := entry_empty page
    rw [hz] at h
    cases h

/-- The fork succeeds, and page 2 of the parent is missing in the child. -/
theorem copy_loses_page_after_hole :
    ∃ child m,uvmCopy sparseFork.parent sparseFork.child sparseFork.mem (3*pageSize)=
        .ok (child,m,true) ∧
      2<pagesBelow (3*pageSize) ∧ Valid sparseFork.parent 2 ∧ ¬Valid child 2 := by
  refine ⟨_,_,rfl,?_,?_,?_⟩
  · decide +kernel
  · unfold Valid
    decide +kernel
  · unfold Valid
    decide +kernel

end Xv6Rust.UserCopy
