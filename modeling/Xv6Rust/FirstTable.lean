import Xv6Rust.UserUnmap

/-!
# Pages of the first leaf table

The first `fan` pages of a page table have their entries in one leaf table. On a range of them the
loops of `uvm_alloc` and `uvm_unmap` change that table and no other, so that what a whole loop does
is said by one table, whatever the length of the range.
-/

namespace Xv6Rust.FirstTable

open RadixTable Paging PageTable UserUnmap

/-- The leaf table of the first pages. -/
def firstLeaf (t : Table Pte 2) : Option (Table Pte 0) := (t.sub 0).bind fun mid => mid.sub 0

/-- Another leaf table for the first pages. -/
def putFirst (t : Table Pte 2) (g : Table Pte 0) : Table Pte 2 :=
  match t.sub 0 with
  | none => t
  | some mid => t.putSub 0 (mid.putSub 0 g)

/-- Entries of a leaf table for the pages of a range, which were free from `base` on. -/
def filled (g : Table Pte 0) (page base n : ℕ) : Table Pte 0 := fun i =>
  if page ≤ i ∧ i < page+n then
    Pte.writePerm (base+(i-page)) (flagR|||flagW|||flagX|||flagU)
  else g i

/-- No entries for the pages of a range. -/
def wiped (g : Table Pte 0) (page n : ℕ) : Table Pte 0 := fun i =>
  if page ≤ i ∧ i < page+n then Pte.zero else g i

/-- Physical memory with zeros in a range of pages. -/
def blanked (data : ℕ → Page) (base n : ℕ) : ℕ → Page := fun ppn =>
  if base ≤ ppn ∧ ppn < base+n then fun _ => 0 else data ppn

section Table

variable {t : Table Pte 2} {f g : Table Pte 0} {page : ℕ}

theorem exists_mid (h : firstLeaf t=some f) : ∃ mid,t.sub 0=some mid ∧ mid.sub 0=some f :=
  Option.bind_eq_some_iff.mp h

theorem sub_putFirst {mid : Table Pte 1} (h : t.sub 0=some mid) (g : Table Pte 0) :
    putFirst t g=t.putSub 0 (mid.putSub 0 g) := by
  rw [putFirst,h]

theorem putSub_sub {n : ℕ} {t : Table Pte (n+1)} {d : ℕ} {s : Table Pte n} (h : t.sub d=some s) :
    t.putSub d s=t := by
  funext i
  show (if i=d then some s else t.sub i)=t.sub i
  split
  · rename_i hi
    rw [hi,h]
  · rfl

theorem putSub_putSub {n : ℕ} (t : Table Pte (n+1)) (d : ℕ) (s s' : Table Pte n) :
    (t.putSub d s).putSub d s'=t.putSub d s' := by
  funext i
  show (if i=d then some s' else if i=d then some s else t.sub i)=if i=d then some s' else t.sub i
  split <;> rfl

theorem putFirst_self (h : firstLeaf t=some f) : putFirst t f=t := by
  obtain ⟨mid,ht,hm⟩ := exists_mid h
  rw [sub_putFirst ht,putSub_sub hm,putSub_sub ht]

/-- Of the digits of these pages only the last is not zero. -/
theorem digits (h : page < fan) :
    digit fan 2 page=0 ∧ digit fan 1 page=0 ∧ digit fan 0 page=page := by
  simp only [digit,fan] at h ⊢
  omega

theorem find_putFirst (h : firstLeaf t=some f) (hp : page < fan) :
    find fan (putFirst t g) page=some (g page) := by
  obtain ⟨mid,ht,-⟩ := exists_mid h
  obtain ⟨h2,h1,h0⟩ := digits hp
  rw [sub_putFirst ht,find,Table.sub_putSub,h2,if_pos rfl]
  dsimp only
  rw [find,Table.sub_putSub,h1,if_pos rfl]
  dsimp only
  rw [find,h0]
  rfl

theorem set_putFirst (h : firstLeaf t=some f) (hp : page < fan) (pte : Pte) :
    set fan (putFirst t g) page pte=putFirst t (g.putLeaf page pte) := by
  obtain ⟨mid,ht,-⟩ := exists_mid h
  obtain ⟨h2,h1,h0⟩ := digits hp
  rw [sub_putFirst ht,sub_putFirst ht,RadixTable.set,Table.sub_putSub,h2,if_pos rfl]
  dsimp only
  rw [RadixTable.set,Table.sub_putSub,h1,if_pos rfl]
  dsimp only
  rw [RadixTable.set,h0,putSub_putSub,putSub_putSub]

/-- No table is created on the path of these pages. -/
theorem create_putFirst (h : firstLeaf t=some f) (hp : page < fan) (supply : List ℕ) :
    create fan Pte.zero (putFirst t g) page supply=(putFirst t g,supply,true) := by
  obtain ⟨mid,ht,-⟩ := exists_mid h
  obtain ⟨h2,h1,-⟩ := digits hp
  have htop : (putFirst t g).sub (digit fan 2 page)=some (mid.putSub 0 g) := by
    rw [sub_putFirst ht,Table.sub_putSub,h2,if_pos rfl]
  have hmid : (mid.putSub 0 g).sub (digit fan 1 page)=some g := by
    rw [Table.sub_putSub,h1,if_pos rfl]
  rw [create_some htop,create_some hmid,create]
  dsimp only
  rw [putSub_sub hmid,putSub_sub htop]

end Table

section Loops

variable {t : Table Pte 2} {f : Table Pte 0} {frames : List ℕ}

theorem entryAt_putFirst (h : firstLeaf t=some f) {page : ℕ} (hp : page < fan) (g : Table Pte 0) :
    (⟨putFirst t g,frames⟩ : PageTable).entryAt page=g page :=
  entryAt_of_find (find_putFirst h hp)

theorem setPte_putFirst (h : firstLeaf t=some f) {page : ℕ} (hp : page < fan) (g : Table Pte 0)
    (pte : Pte) : (⟨putFirst t g,frames⟩ : PageTable).setPte (page*pageSize) pte=
      ⟨putFirst t (g.putLeaf page pte),frames⟩ := by
  rw [setPte,Nat.mul_div_cancel _ (by decide),set_putFirst h hp]

/-- One page is mapped. -/
theorem mapPages_putFirst (h : firstLeaf t=some f) {page : ℕ} (hp : page < fan) (g : Table Pte 0)
    (hfree : (g page).isValid=false) (m : Mem) (ppn : ℕ) (perm : PteFlag) :
    (⟨putFirst t g,frames⟩ : PageTable).mapPages m (page*pageSize) pageSize ppn perm=
      .ok (⟨putFirst t (g.putLeaf page (Pte.writePerm ppn perm)),frames⟩,m,.ok ()) := by
  have hcreate := create_putFirst (g:=g) h hp m.heap
  have htables := findPteCreate_eq ⟨putFirst t g,frames⟩ m page
  have hbound : page*pageSize+pageSize ≤ fan*pageSize := by
    rw [← Nat.succ_mul]
    exact Nat.mul_le_mul_right _ hp
  have htop : fan*pageSize < 2^64 ∧ fan*pageSize ≤ maxva := by decide
  rw [findPteCreate,Nat.mul_div_cancel _ (by decide),hcreate] at htables
  dsimp only at htables
  rw [Nat.sub_self,List.take_zero,List.nil_append] at htables
  obtain ⟨hw,hrest⟩ := Prod.mk.inj htables
  obtain ⟨ha,hl⟩ := Prod.mk.inj hrest
  have hlack := of_decide_eq_true hl.symm
  rw [mapPages_page,if_neg (by omega),if_neg (by omega),if_neg (by omega),
    entryAt_putFirst h hp,if_neg (by rw [hfree]; decide),mapped,← hw,← ha,setPte_putFirst h hp]

theorem filled_cons (g : Table Pte 0) (page base n : ℕ) :
    filled (g.putLeaf page (Pte.writePerm base (flagR|||flagW|||flagX|||flagU))) (page+1) (base+1)
      n=filled g page base (n+1) := by
  funext i
  show (if page+1 ≤ i ∧ i < page+1+n then _ else if i=page then _ else g i)=
    if page ≤ i ∧ i < page+(n+1) then _ else g i
  by_cases hi : i=page
  · rw [if_neg (by omega),if_pos hi,if_pos (by omega),hi,Nat.sub_self,Nat.add_zero]
  · rw [if_neg hi]
    by_cases hin : page+1 ≤ i ∧ i < page+1+n
    · rw [if_pos hin,if_pos (by omega)]
      congr 1
      omega
    · rw [if_neg hin,if_neg (by omega)]

theorem blanked_cons (data : ℕ → Page) (base n : ℕ) :
    blanked (Function.update data base fun _ => 0) (base+1) n=blanked data base (n+1) := by
  funext ppn
  rw [blanked,blanked,Function.update_apply]
  by_cases hi : ppn=base
  · rw [if_neg (by omega),if_pos hi,if_pos (by omega)]
  · rw [if_neg hi]
    by_cases hin : base+1 ≤ ppn ∧ ppn < base+1+n
    · rw [if_pos hin,if_pos (by omega)]
    · rw [if_neg hin,if_neg (by omega)]

theorem filled_zero (g : Table Pte 0) (page base : ℕ) : filled g page base 0=g := by
  funext i
  exact if_neg (by omega)

theorem blanked_zero (data : ℕ → Page) (base : ℕ) : blanked data base 0=data := by
  funext ppn
  exact if_neg (by omega)

theorem wiped_zero (g : Table Pte 0) (page : ℕ) : wiped g page 0=g := by
  funext i
  exact if_neg (by omega)

theorem wiped_cons (g : Table Pte 0) (page n : ℕ) :
    wiped (g.putLeaf page Pte.zero) (page+1) n=wiped g page (n+1) := by
  funext i
  show (if page+1 ≤ i ∧ i < page+1+n then _ else if i=page then _ else g i)=
    if page ≤ i ∧ i < page+(n+1) then _ else g i
  by_cases hi : i=page
  · rw [if_neg (by omega),if_pos hi,if_pos (by omega)]
  · rw [if_neg hi]
    by_cases hin : page+1 ≤ i ∧ i < page+1+n
    · rw [if_pos hin,if_pos (by omega)]
    · rw [if_neg hin,if_neg (by omega)]

/-- `uvm_alloc` over unmapped pages, with a heap that hands its pages out in order. -/
theorem allocLoop_putFirst (h : firstLeaf t=some f) (old base : ℕ) (heap : List ℕ)
    (data : ℕ → Page) (n page : ℕ) (g : Table Pte 0) (hp : page+n ≤ fan)
    (hfree : ∀ i,page ≤ i → i < page+n → (g i).isValid=false) :
    (⟨putFirst t g,frames⟩ : PageTable).allocLoop ⟨List.range' base n++heap,data⟩ old
        (page*pageSize) n=
      .ok (⟨putFirst t (filled g page base n),frames⟩,⟨heap,blanked data base n⟩,true) := by
  induction n generalizing page base data g with
  | zero => rw [allocLoop,filled_zero,blanked_zero]; rfl
  | succ n ih =>
    have hrest : ∀ i,page+1 ≤ i → i < page+1+n → ((g.putLeaf page
        (Pte.writePerm base (flagR|||flagW|||flagX|||flagU))) i).isValid=false := by
      intro i hlow hhigh
      show (if i=page then _ else g i : Pte).isValid=false
      rw [if_neg (by omega)]
      exact hfree i (by omega) (by omega)
    have hstep := ih (base+1) (Function.update data base fun _ => 0) (page+1)
      (g.putLeaf page (Pte.writePerm base (flagR|||flagW|||flagX|||flagU))) (by omega) hrest
    rw [filled_cons,blanked_cons,Nat.succ_mul] at hstep
    rw [List.range'_succ,List.cons_append,allocLoop]
    dsimp only
    rw [mapPages_putFirst h (by omega) g (hfree page le_rfl (by omega))]
    exact hstep

/-- `uvm_unmap` over mapped pages. -/
theorem unmapLoop_putFirst (h : firstLeaf t=some f) (n page : ℕ) (g : Table Pte 0) (m : Mem)
    (hp : page+n ≤ fan) (hmapped : ∀ i,page ≤ i → i < page+n → (g i).isMapped=true) :
    (⟨putFirst t g,frames⟩ : PageTable).unmapLoop m (page*pageSize) true n=
      .ok (⟨putFirst t (wiped g page n),frames⟩,
        {m with heap := ((List.range' page n).map fun i => (g i).ppn).reverse++m.heap}) := by
  induction n generalizing page m g with
  | zero => rw [unmapLoop,wiped_zero]; rfl
  | succ n ih =>
    have hput : ∀ i,page+1 ≤ i → (g.putLeaf page Pte.zero) i=g i := fun i hi => if_neg (by omega)
    have hrest : ∀ i,page+1 ≤ i → i < page+1+n → ((g.putLeaf page Pte.zero) i).isMapped=true := by
      intro i hlow hhigh
      rw [hput i hlow]
      exact hmapped i (by omega) (by omega)
    have hhere : (⟨putFirst t g,frames⟩ : PageTable).Mapped page := by
      rw [Mapped,entryAt_putFirst h (by omega)]
      exact hmapped page le_rfl (by omega)
    have hpages : (List.range' (page+1) n).map (fun i => ((g.putLeaf page Pte.zero) i).ppn)=
        (List.range' (page+1) n).map fun i => (g i).ppn :=
      List.map_congr_left fun i hi => by rw [hput i (List.mem_range'_1.mp hi).1]
    rw [unmapLoop_mapped hhere,entryAt_putFirst h (by omega),setPte_putFirst h (by omega),
      if_pos rfl,ih (page+1) (g.putLeaf page Pte.zero) _ (by omega) hrest,wiped_cons,hpages,
      List.range'_succ,List.map_cons,List.reverse_cons,List.append_assoc]
    rfl

end Loops

/-- `allocLoop`, with the whole range at once where it is a range of the first pages. -/
def allocFirst (pgt : PageTable) (m : Mem) (old cur n : ℕ) : Except Panic (PageTable×Mem×Bool) :=
  match firstLeaf pgt.root with
  | none => pgt.allocLoop m old cur n
  | some f =>
    if cur/pageSize*pageSize=cur ∧ cur/pageSize+n ≤ fan ∧
        (List.range' (cur/pageSize) n).all (fun i => !(f i).isValid)=true ∧
        m.heap.take n=List.range' (m.heap.headD 0) n then
      .ok (⟨putFirst pgt.root (filled f (cur/pageSize) (m.heap.headD 0) n),pgt.frames⟩,
        ⟨m.heap.drop n,blanked m.data (m.heap.headD 0) n⟩,true)
    else pgt.allocLoop m old cur n

/-- `unmapLoop`, with the whole range at once where it is a range of the first pages. -/
def unmapFirst (pgt : PageTable) (m : Mem) (va : ℕ) (freeing : Bool) (n : ℕ) :
    Except Panic (PageTable×Mem) :=
  match firstLeaf pgt.root with
  | none => pgt.unmapLoop m va freeing n
  | some f =>
    if va/pageSize*pageSize=va ∧ va/pageSize+n ≤ fan ∧ freeing=true ∧
        (List.range' (va/pageSize) n).all (fun i => (f i).isMapped)=true then
      .ok (⟨putFirst pgt.root (wiped f (va/pageSize) n),pgt.frames⟩,
        {m with heap := ((List.range' (va/pageSize) n).map fun i => (f i).ppn).reverse++m.heap})
    else pgt.unmapLoop m va freeing n

/-- A range at once is what the loop of `uvm_alloc` does page by page. -/
theorem allocLoop_eq_first (pgt : PageTable) (m : Mem) (old cur n : ℕ) :
    pgt.allocLoop m old cur n=allocFirst pgt m old cur n := by
  rw [allocFirst]
  split
  · rfl
  · rename_i f hf
    split
    · rename_i hc
      obtain ⟨hcur,hp,hall,hheap⟩ := hc
      have hfree : ∀ i,cur/pageSize ≤ i → i < cur/pageSize+n → (f i).isValid=false := by
        intro i hlow hhigh
        have hi := List.all_eq_true.mp hall i (List.mem_range'_1.mpr ⟨hlow,hhigh⟩)
        exact (Bool.not_eq_true' _).mp hi
      have hloop := @allocLoop_putFirst pgt.root f pgt.frames hf old (m.heap.headD 0)
        (m.heap.drop n) m.data n (cur/pageSize) f hp hfree
      rw [putFirst_self hf,← hheap,List.take_append_drop,hcur] at hloop
      exact hloop
    · rfl

/-- `uvm_alloc`, with the whole range at once where it is a range of the first pages. -/
def uvmAllocFirst (pgt : PageTable) (m : Mem) (oldSize newSize : ℕ) :
    Except Panic (PageTable×Mem×Option ℕ) :=
  if newSize≤oldSize then .ok (pgt,m,some oldSize)
  else do
    let r ← allocFirst pgt m (pgRoundUp oldSize) (pgRoundUp oldSize)
      ((pgRoundUp newSize-pgRoundUp oldSize)/pageSize)
    .ok (r.1,r.2.1,if r.2.2=true then some newSize else none)

theorem uvmAlloc_eq_first (pgt : PageTable) (m : Mem) (oldSize newSize : ℕ) :
    pgt.uvmAlloc m oldSize newSize=uvmAllocFirst pgt m oldSize newSize := by
  rw [uvmAlloc,allocLoop_eq_first]
  rfl

/-- A range at once is what the loop of `uvm_unmap` does page by page. -/
theorem unmapLoop_eq_first (pgt : PageTable) (m : Mem) (va : ℕ) (freeing : Bool) (n : ℕ) :
    pgt.unmapLoop m va freeing n=unmapFirst pgt m va freeing n := by
  rw [unmapFirst]
  split
  · rfl
  · rename_i f hf
    split
    · rename_i hc
      obtain ⟨hva,hp,rfl,hall⟩ := hc
      have hmapped : ∀ i,va/pageSize ≤ i → i < va/pageSize+n → (f i).isMapped=true :=
        fun i hlow hhigh => List.all_eq_true.mp hall i (List.mem_range'_1.mpr ⟨hlow,hhigh⟩)
      have hloop := @unmapLoop_putFirst pgt.root f pgt.frames hf n (va/pageSize) f m hp hmapped
      rw [putFirst_self hf,hva] at hloop
      exact hloop
    · rfl

end Xv6Rust.FirstTable
