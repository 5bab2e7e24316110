import Xv6Rust.RadixTable
import Xv6Rust.Results

/-!
# User page tables

`PageTable` of `mm/pagetable.rs`: three levels of 512 entries over physical pages
that come from the kernel heap. Addresses are byte addresses, physical pages are
page numbers, and the heap is the list of its free pages in the order in which they
are handed out. The tables of a page table are heap pages too; the tree of tables
carries no addresses, and the pages it occupies stand beside it. Arithmetic that
passes `2^64` panics, as in the debug build the `Makefile` makes.
-/

namespace Xv6Rust.Paging

open RadixTable

/-- `PAGE_SIZE` and `PGSIZE`. -/
def pageSize : ℕ := 4096

/-- Entries of a table. -/
def fan : ℕ := 512

/-- `MAXVA`. -/
def maxva : ℕ := 2^38

/-- `TRAMPOLINE`. -/
def trampoline : ℕ := maxva-pageSize

/-- `TRAPFRAME`. -/
def trapframe : ℕ := trampoline-pageSize

/-- `USYSCALL`. -/
def usyscall : ℕ := trapframe-pageSize

/-- `trapframe_from_pid`, with its distance below `TRAPFRAME`. -/
def trapframeFromPid (pid : ℕ) : ℕ := trapframe-(pid*(pageSize+pageSize)+pageSize)

/-- The subtraction of `trapframe_from_pid` does not underflow. -/
def PidFits (pid : ℕ) : Prop := pid*(pageSize+pageSize)+pageSize≤trapframe

instance (pid : ℕ) : Decidable (PidFits pid) :=
  inferInstanceAs (Decidable (pid*(pageSize+pageSize)+pageSize≤trapframe))

/-- `pg_round_up`. -/
def pgRoundUp (addr : ℕ) : ℕ := (addr+(pageSize-1))/pageSize*pageSize

/-- `pg_round_down`. -/
def pgRoundDown (addr : ℕ) : ℕ := addr/pageSize*pageSize

/-- `PteFlag`. -/
abbrev PteFlag := BitVec 10

/-- Valid. -/
def flagV : PteFlag := 1

/-- Readable. -/
def flagR : PteFlag := 2

/-- Writable. -/
def flagW : PteFlag := 4

/-- Executable. -/
def flagX : PteFlag := 8

/-- Accessible in user mode. -/
def flagU : PteFlag := 16

/-- `PageTableEntry`: the page number above the ten flag bits of its word. -/
structure Pte where
  /-- Physical page number. -/
  ppn : ℕ
  /-- Flag bits. -/
  flags : PteFlag
  deriving DecidableEq

namespace Pte

/-- The entry of a zeroed table. -/
def zero : Pte := ⟨0,0⟩

/-- `is_valid`. -/
def isValid (pte : Pte) : Bool := pte.flags&&&flagV != 0

/-- `is_leaf`. -/
def isLeaf (pte : Pte) : Bool := pte.flags&&&(flagR|||flagW|||flagX) != 0

/-- `is_user`. -/
def isUser (pte : Pte) : Bool := pte.flags&&&flagU != 0

/-- `clear_user`. -/
def clearUser (pte : Pte) : Pte := {pte with flags := pte.flags&&& ~~~flagU}

/-- `write_perm`. -/
def writePerm (ppn : ℕ) (perm : PteFlag) : Pte := ⟨ppn,perm|||flagV⟩

/-- A valid leaf. -/
def isMapped (pte : Pte) : Bool := pte.isValid && pte.isLeaf

theorem zero_not_valid : zero.isValid=false := by decide

theorem writePerm_valid (ppn : ℕ) (perm : PteFlag) : (writePerm ppn perm).isValid=true := by
  have h : (perm|||flagV)&&&flagV=flagV := by
    ext i hi
    simp only [BitVec.getElem_and,BitVec.getElem_or]
    cases perm[i] <;> simp
  simp only [isValid,writePerm,h]
  decide

end Pte

/-- Contents of a physical page. -/
abbrev Page := Fin 4096 → UInt8

/-- Physical memory: the free pages of the kernel heap and the contents of pages. -/
structure Mem where
  /-- Free pages, the next one to be handed out first. -/
  heap : List ℕ
  /-- Contents by page number. -/
  data : ℕ → Page

/-- `RawSinglePage::from_raw_and_drop`. -/
def Mem.free (m : Mem) (ppn : ℕ) : Mem := {m with heap := ppn::m.heap}

/-- Memory after a page was taken and filled with the contents of another one. -/
def Mem.cloned (m : Mem) (heap : List ℕ) (ppn src : ℕ) : Mem :=
  ⟨heap,Function.update m.data ppn (m.data src)⟩

/-- Memory after a page was taken and zeroed. -/
def Mem.zeroed (m : Mem) (heap : List ℕ) (ppn : ℕ) : Mem :=
  ⟨heap,Function.update m.data ppn fun _ => 0⟩

/-- A page table: its tables and the pages they occupy. -/
structure PageTable where
  /-- The tree of tables. -/
  root : Table Pte 2
  /-- Heap pages of the tables. -/
  frames : List ℕ

/-- Failed assertions. -/
inductive Panic where
  /-- `va not page aligned`. -/
  | notAligned
  /-- `this pte is not a leaf`. -/
  | notLeaf
  /-- `cannot find available pte`. -/
  | noPte
  /-- Arithmetic overflow. -/
  | overflow
  /-- An allocation that must not fail finds no memory. -/
  | outOfMemory
  /-- A mapping that must not fail. -/
  | mapFailed
  deriving DecidableEq

/-- Errors of `map_pages`. -/
inductive MapError where
  /-- `value for VirtAddr should be smaller than 1<<38`. -/
  | badAddress
  /-- `remap`. -/
  | remap
  /-- `not enough memory for new page table`. -/
  | noMemory
  deriving DecidableEq

namespace PageTable

/-- `find_pte` and `find_pte_mut`. -/
def findPte (pgt : PageTable) (va : ℕ) : Option Pte := find fan pgt.root (va/pageSize)

/-- Write through the reference that a lookup returned. -/
def setPte (pgt : PageTable) (va : ℕ) (pte : Pte) : PageTable :=
  {pgt with root := set fan pgt.root (va/pageSize) pte}

/-- The entry of an address, zero when a table is missing. -/
def pte (pgt : PageTable) (va : ℕ) : Pte := entry fan Pte.zero pgt.root (va/pageSize)

/-- `find_pte_create`: the page table with the tables on the path, the memory left,
and whether the entry was reached. -/
def findPteCreate (pgt : PageTable) (m : Mem) (va : ℕ) : PageTable×Mem×Bool :=
  let r := create fan Pte.zero pgt.root (va/pageSize) m.heap
  (⟨r.1,m.heap.take (m.heap.length-r.2.1.length)++pgt.frames⟩,{m with heap := r.2.1},r.2.2)

/-- The loop of `map_pages` with its number of rounds. -/
def mapLoop (pgt : PageTable) (m : Mem) (va ppn : ℕ) (perm : PteFlag) :
    ℕ → PageTable×Mem×Except MapError Unit
  | 0 => (pgt,m,.ok ())
  | n+1 =>
    match pgt.findPteCreate m va with
    | (pgt,m,false) => (pgt,m,.error .noMemory)
    | (pgt,m,true) =>
      if (pgt.pte va).isValid=true then (pgt,m,.error .remap)
      else mapLoop (pgt.setPte va (Pte.writePerm ppn perm)) m (va+pageSize) (ppn+1) perm n

/-- `map_pages`. -/
def mapPages (pgt : PageTable) (m : Mem) (va size ppn : ℕ) (perm : PteFlag) :
    Except Panic (PageTable×Mem×Except MapError Unit) :=
  if va+size≥2^64 then .error .overflow
  else if va+size>maxva then .ok (pgt,m,.error .badAddress)
  else .ok (mapLoop pgt m (pgRoundDown va) ppn perm
    ((pgRoundUp (va+size)-pgRoundDown va)/pageSize))

/-- The loop of `uvm_unmap` with its number of rounds. A missing table and an
invalid entry both end the loop. -/
def unmapLoop (pgt : PageTable) (m : Mem) (va : ℕ) (freeing : Bool) :
    ℕ → Except Panic (PageTable×Mem)
  | 0 => .ok (pgt,m)
  | n+1 =>
    match pgt.findPte va with
    | none => .ok (pgt,m)
    | some pte =>
      if pte.isValid=false then .ok (pgt,m)
      else if pte.isLeaf=false then .error .notLeaf
      else unmapLoop (pgt.setPte va Pte.zero) (if freeing=true then m.free pte.ppn else m)
        (va+pageSize) freeing n

/-- `uvm_unmap`, with `walk_mut` read as `find_pte_mut`. -/
def uvmUnmap (pgt : PageTable) (m : Mem) (va count : ℕ) (freeing : Bool) :
    Except Panic (PageTable×Mem) :=
  if va%pageSize≠0 then .error .notAligned
  else if va+pageSize*count≥2^64 then .error .overflow
  else unmapLoop pgt m va freeing count

/-- `uvm_dealloc`. -/
def uvmDealloc (pgt : PageTable) (m : Mem) (oldSize newSize : ℕ) :
    Except Panic (PageTable×Mem×ℕ) :=
  if newSize≥oldSize then .ok (pgt,m,oldSize)
  else if oldSize+(pageSize-1)≥2^64 then .error .overflow
  else if pgRoundUp newSize<pgRoundUp oldSize then do
    let r ← pgt.uvmUnmap m (pgRoundUp newSize)
      ((pgRoundUp oldSize-pgRoundUp newSize)/pageSize) true
    .ok (r.1,r.2,newSize)
  else .ok (pgt,m,newSize)

/-- The loop of `uvm_alloc` from `cur` with its number of rounds. -/
def allocLoop (pgt : PageTable) (m : Mem) (oldSize cur : ℕ) :
    ℕ → Except Panic (PageTable×Mem×Bool)
  | 0 => .ok (pgt,m,true)
  | n+1 =>
    match m.heap with
    | [] => do
      let r ← pgt.uvmDealloc m cur oldSize
      .ok (r.1,r.2.1,false)
    | ppn::heap => do
      let r ← pgt.mapPages (m.zeroed heap ppn) cur pageSize ppn (flagR|||flagW|||flagX|||flagU)
      match r with
      | (pgt,m,.ok ()) => allocLoop pgt m oldSize (cur+pageSize) n
      | (pgt,m,.error _) => do
        let r ← pgt.uvmDealloc (m.free ppn) cur oldSize
        .ok (r.1,r.2.1,false)

/-- `uvm_alloc`; the result is the new size on success. -/
def uvmAlloc (pgt : PageTable) (m : Mem) (oldSize newSize : ℕ) :
    Except Panic (PageTable×Mem×Option ℕ) :=
  if newSize≤oldSize then .ok (pgt,m,some oldSize)
  else do
    let r ← pgt.allocLoop m (pgRoundUp oldSize) (pgRoundUp oldSize)
      ((pgRoundUp newSize-pgRoundUp oldSize)/pageSize)
    .ok (r.1,r.2.1,if r.2.2=true then some newSize else none)

/-- `uvm_clear`. -/
def uvmClear (pgt : PageTable) (va : ℕ) : Except Panic PageTable :=
  if va>maxva then .error .noPte
  else
    match pgt.findPte va with
    | none => .error .noPte
    | some pte => .ok (pgt.setPte va pte.clearUser)

/-- `try_clone`: a fresh page with the contents of a valid entry's page. -/
def tryClone (pte : Pte) (m : Mem) : Option (ℕ×Mem) :=
  if pte.isValid=false then none
  else
    match m.heap with
    | [] => none
    | ppn::heap => some (ppn,m.cloned heap ppn pte.ppn)

/-- The loop of `uvm_copy` at page `i` with its number of rounds. The flag is `true`
for `Ok(())` and `false` for `Err(())`. -/
def copyLoop (parent child : PageTable) (m : Mem) (i : ℕ) :
    ℕ → Except Panic (PageTable×Mem×Bool)
  | 0 => .ok (child,m,true)
  | n+1 =>
    match parent.findPte (i*pageSize) with
    | none => .ok (child,m,false)
    | some pte =>
      match tryClone pte m with
      | none => .ok (child,m,true)
      | some (ppn,m) => do
        let r ← child.mapPages m (i*pageSize) pageSize ppn pte.flags
        match r with
        | (child,m,.ok ()) => copyLoop parent child m (i+1) n
        | (child,m,.error _) => do
          let r ← child.uvmUnmap (m.free ppn) 0 i true
          .ok (r.1,r.2,false)

/-- `uvm_copy`. -/
def uvmCopy (parent child : PageTable) (m : Mem) (size : ℕ) : Except Panic (PageTable×Mem×Bool) :=
  copyLoop parent child m 0 ((size+pageSize-1)/pageSize)

/-- `Drop for PageTable` with the page of the table itself: all tables go back to the
heap, leaf entries are left alone. -/
def drop (pgt : PageTable) (m : Mem) : Mem := {m with heap := pgt.frames++m.heap}

/-- `dealloc_proc_pagetable`. -/
def deallocProcPagetable (pgt : PageTable) (m : Mem) (size pid : ℕ) :
    Except Panic (PageTable×Mem) := do
  let r ← pgt.uvmUnmap m trampoline 1 false
  if ¬PidFits pid then .error .overflow
  else do
    let r ← r.1.uvmUnmap r.2 (trapframeFromPid pid) 1 false
    let r ← r.1.uvmUnmap r.2 usyscall 1 false
    if size>0 then
      if size+(pageSize-1)≥2^64 then .error .overflow
      else r.1.uvmUnmap r.2 0 (pgRoundUp size/pageSize) true
    else .ok r

/-- Map one kernel page of a new page table; on an error the page table is dropped. -/
def mapKernelPage (pgt : PageTable) (m : Mem) (va ppn : ℕ) (perm : PteFlag) :
    Except Panic (Mem×Option PageTable) := do
  let r ← pgt.mapPages m va pageSize ppn perm
  match r with
  | (pgt,m,.ok ()) => .ok (m,some pgt)
  | (pgt,m,.error _) => .ok (pgt.drop m,none)

/-- `alloc_proc_pagetable`, with the page of the trampoline code. -/
def allocProcPagetable (m : Mem) (trampolinePage trapframePage usysPage pid : ℕ) :
    Except Panic (Mem×Option PageTable) :=
  match m.heap with
  | [] => .ok (m,none)
  | frame::heap => do
    let pgt : PageTable := ⟨Table.empty Pte.zero 2,[frame]⟩
    let m := {m with heap := heap}
    let (m,pgt?) ← pgt.mapKernelPage m trampoline trampolinePage (flagR|||flagX)
    match pgt? with
    | none => .ok (m,none)
    | some pgt =>
      if ¬PidFits pid then .error .overflow
      else do
        let (m,pgt?) ← pgt.mapKernelPage m (trapframeFromPid pid) trapframePage (flagR|||flagW)
        match pgt? with
        | none => .ok (m,none)
        | some pgt => pgt.mapKernelPage m usyscall usysPage (flagR|||flagU)

/-- Number of pages a page table can name; lookups reduce page numbers modulo it. -/
def pages : ℕ := fan^3

/-- The entry of a page number. -/
def entryAt (pgt : PageTable) (page : ℕ) : Pte := entry fan Pte.zero pgt.root page

/-- A page has a valid leaf. -/
def Mapped (pgt : PageTable) (page : ℕ) : Prop := (pgt.entryAt page).isMapped=true

instance (pgt : PageTable) (page : ℕ) : Decidable (pgt.Mapped page) :=
  inferInstanceAs (Decidable ((pgt.entryAt page).isMapped=true))

section Entries

variable {pgt : PageTable} {page : ℕ}

theorem pte_eq (pgt : PageTable) (page : ℕ) : pgt.pte (page*pageSize)=pgt.entryAt page := by
  rw [pte,entryAt,Nat.mul_div_cancel _ (by decide)]

theorem findPte_eq (pgt : PageTable) (page : ℕ) :
    pgt.findPte (page*pageSize)=find fan pgt.root page := by
  rw [findPte,Nat.mul_div_cancel _ (by decide)]

/-- A valid entry is found. -/
theorem find_of_valid (h : (pgt.entryAt page).isValid=true) :
    find fan pgt.root page=some (pgt.entryAt page) := by
  cases hf : find fan pgt.root page with
  | none =>
    rw [entryAt,entry,hf] at h
    cases h
  | some pte =>
    rw [entryAt,entry,hf]
    rfl

theorem valid_of_mapped (h : pgt.Mapped page) : (pgt.entryAt page).isValid=true := by
  rw [Mapped,Pte.isMapped,Bool.and_eq_true] at h
  exact h.1

theorem leaf_of_mapped (h : pgt.Mapped page) : (pgt.entryAt page).isLeaf=true := by
  rw [Mapped,Pte.isMapped,Bool.and_eq_true] at h
  exact h.2

/-- The entry of a page whose lookup is known. -/
theorem entryAt_of_find {pte : Pte} (h : find fan pgt.root page=some pte) :
    pgt.entryAt page=pte := by
  rw [entryAt,entry,h]
  rfl

/-- Page numbers that agree modulo the number of pages name the same entry. -/
theorem find_page_congr {page' : ℕ} (h : page%pages=page'%pages) :
    find fan pgt.root page=find fan pgt.root page' := find_congr pgt.root h

theorem entryAt_congr {page' : ℕ} (h : page%pages=page'%pages) :
    pgt.entryAt page=pgt.entryAt page' := by
  rw [entryAt,entryAt,entry,entry,find_page_congr h]

/-- A write through a found entry changes the entry of that page only. -/
theorem find_setPte {pte : Pte} (h : find fan pgt.root page=some pte) (new : Pte) (page' : ℕ) :
    find fan (pgt.setPte (page*pageSize) new).root page'=
      if page'%pages=page%pages then some new else find fan pgt.root page' := by
  rw [setPte,Nat.mul_div_cancel _ (by decide)]
  exact find_set new (by rw [h]; rfl) page'

theorem entryAt_setPte {pte : Pte} (h : find fan pgt.root page=some pte) (new : Pte) (page' : ℕ) :
    (pgt.setPte (page*pageSize) new).entryAt page'=
      if page'%pages=page%pages then new else pgt.entryAt page' := by
  rw [entryAt,entry,find_setPte h,entryAt,entry]
  split <;> rfl

end Entries

section Mapping

variable {pgt : PageTable} {m : Mem} {page : ℕ}

/-- Tables missing on the path of a page. -/
def lacking (pgt : PageTable) (page : ℕ) : ℕ := missing fan pgt.root page

/-- The page table with the tables on the path of a page, as far as memory goes. -/
def withTables (pgt : PageTable) (m : Mem) (page : ℕ) : PageTable :=
  ⟨(create fan Pte.zero pgt.root page m.heap).1,m.heap.take (pgt.lacking page)++pgt.frames⟩

/-- The memory left after the tables on the path of a page are created. -/
def afterTables (pgt : PageTable) (m : Mem) (page : ℕ) : Mem :=
  {m with heap := m.heap.drop (pgt.lacking page)}

theorem findPteCreate_eq (pgt : PageTable) (m : Mem) (page : ℕ) :
    pgt.findPteCreate m (page*pageSize)=
      (pgt.withTables m page,pgt.afterTables m page,decide (pgt.lacking page ≤ m.heap.length)) := by
  rw [findPteCreate,Nat.mul_div_cancel _ (by decide)]
  simp only [create_supply,withTables,afterTables,lacking,List.length_drop]
  congr 3
  rcases Nat.le_total (missing fan pgt.root page) m.heap.length with h|h
  · congr 1
    omega
  · rw [List.take_of_length_le (by omega),List.take_of_length_le h]

/-- Creating tables changes no entry. -/
theorem entryAt_withTables (page' : ℕ) : (pgt.withTables m page).entryAt page'=pgt.entryAt page' :=
  entry_create pgt.root page m.heap page'

/-- With enough memory the entry is reached. -/
theorem find_withTables (h : pgt.lacking page ≤ m.heap.length) :
    find fan (pgt.withTables m page).root page=some (pgt.entryAt page) := find_create_self h

/-- One page mapped. -/
def mapped (pgt : PageTable) (m : Mem) (page : ℕ) (pte : Pte) : PageTable :=
  (pgt.withTables m page).setPte (page*pageSize) pte

/-- What `map_pages` of one page does. -/
theorem mapPages_page (pgt : PageTable) (m : Mem) (page ppn : ℕ) (perm : PteFlag) :
    pgt.mapPages m (page*pageSize) pageSize ppn perm=
      if page*pageSize+pageSize≥2^64 then .error .overflow
      else if page*pageSize+pageSize>maxva then .ok (pgt,m,.error .badAddress)
      else if pgt.lacking page > m.heap.length then
        .ok (pgt.withTables m page,pgt.afterTables m page,.error .noMemory)
      else if (pgt.entryAt page).isValid=true then
        .ok (pgt.withTables m page,pgt.afterTables m page,.error .remap)
      else .ok (pgt.mapped m page (Pte.writePerm ppn perm),pgt.afterTables m page,.ok ()) := by
  have hd : pgRoundDown (page*pageSize)=page*pageSize := by
    rw [pgRoundDown,Nat.mul_div_cancel _ (by decide)]
  have hn : (pgRoundUp (page*pageSize+pageSize)-page*pageSize)/pageSize=1 := by
    simp only [pgRoundUp,pageSize]
    omega
  rw [mapPages,hd,hn,mapLoop,findPteCreate_eq]
  by_cases h1 : page*pageSize+pageSize≥2^64
  · rw [if_pos h1,if_pos h1]
  · rw [if_neg h1,if_neg h1]
    by_cases h2 : page*pageSize+pageSize>maxva
    · rw [if_pos h2,if_pos h2]
    · rw [if_neg h2,if_neg h2]
      by_cases h3 : pgt.lacking page > m.heap.length
      · have hf : decide (pgt.lacking page ≤ m.heap.length)=false := decide_eq_false (by omega)
        rw [if_pos h3,hf]
      · have hf : decide (pgt.lacking page ≤ m.heap.length)=true := decide_eq_true (by omega)
        rw [if_neg h3,hf]
        dsimp only
        rw [pte_eq,entryAt_withTables]
        by_cases h4 : (pgt.entryAt page).isValid=true
        · rw [if_pos h4,if_pos h4]
        · rw [if_neg h4,if_neg h4]
          rfl

/-- The entries of a page table in which one page was mapped. -/
theorem entryAt_mapped (h : pgt.lacking page ≤ m.heap.length) (pte : Pte) (page' : ℕ) :
    (pgt.mapped m page pte).entryAt page'=
      if page'%pages=page%pages then pte else pgt.entryAt page' := by
  rw [mapped,entryAt_setPte (find_withTables h),entryAt_withTables]

/-- The tables of a page table in which one page was mapped. -/
theorem mapped_shape (h : pgt.lacking page ≤ m.heap.length) (pte : Pte) :
    SameShape (pgt.mapped m page pte).root (grow fan Pte.zero pgt.root page) := by
  have hroot : (pgt.withTables m page).root=grow fan Pte.zero pgt.root page := create_table h
  rw [← hroot]
  exact (SameShape.refl _).set _ _

/-- Tables missing on the paths of pages that follow each other. -/
def lackingRange (pgt : PageTable) (page n : ℕ) : ℕ :=
  missingAll fan Pte.zero pgt.root (List.range' page n)

/-- Pages that follow each other are not mapped. -/
def Bare (pgt : PageTable) (page n : ℕ) : Prop :=
  ∀ i,i < n → ¬(pgt.entryAt (page+i)).isValid=true

theorem lackingRange_succ (pgt : PageTable) (page n : ℕ) :
    pgt.lackingRange page (n+1)=
      pgt.lacking page+missingAll fan Pte.zero (grow fan Pte.zero pgt.root page)
        (List.range' (page+1) n) := rfl

/-- The loop of `map_pages` maps pages that are not mapped, with memory for their tables. -/
theorem mapLoop_range {n ppn : ℕ} {perm : PteFlag} (hlt : page+n ≤ pages) :
    ((pgt.Bare page n ∧ pgt.lackingRange page n ≤ m.heap.length) ∧
      ∃ v,pgt.mapLoop m (page*pageSize) ppn perm n=
        (v,{m with heap := m.heap.drop (pgt.lackingRange page n)},.ok ())) ∨
    (¬(pgt.Bare page n ∧ pgt.lackingRange page n ≤ m.heap.length) ∧
      ∃ v w e,pgt.mapLoop m (page*pageSize) ppn perm n=(v,w,.error e)) := by
  induction n generalizing pgt m page ppn with
  | zero => exact .inl ⟨⟨(fun i hi => absurd hi (Nat.not_lt_zero i)),Nat.zero_le _⟩,pgt,rfl⟩
  | succ n ih =>
    have hnext : page*pageSize+pageSize=(page+1)*pageSize := (Nat.succ_mul ..).symm
    rw [mapLoop,findPteCreate_eq,lackingRange_succ]
    by_cases hfew : pgt.lacking page ≤ m.heap.length
    swap
    · rw [decide_eq_false hfew]
      exact .inr ⟨fun h => hfew (by have := h.2; omega),_,_,_,rfl⟩
    rw [decide_eq_true hfew]
    dsimp only
    rw [pte_eq,entryAt_withTables]
    by_cases hv : (pgt.entryAt page).isValid=true
    · rw [if_pos hv]
      exact .inr ⟨fun h => h.1 0 (Nat.succ_pos n) hv,_,_,_,rfl⟩
    rw [if_neg hv,hnext]
    -- the other pages are as before, and their tables are those behind the first
    have hcount : (pgt.mapped m page (Pte.writePerm ppn perm)).lackingRange (page+1) n=
        missingAll fan Pte.zero (grow fan Pte.zero pgt.root page) (List.range' (page+1) n) :=
      (mapped_shape hfew _).missingAll_eq _
    have hbare : (pgt.mapped m page (Pte.writePerm ppn perm)).Bare (page+1) n ↔
        pgt.Bare page (n+1) := by
      have hother : ∀ i,i < n → (pgt.mapped m page (Pte.writePerm ppn perm)).entryAt (page+1+i)=
          pgt.entryAt (page+(i+1)) := by
        intro i hi
        have hsum : page+1+i=page+(i+1) := by omega
        rw [entryAt_mapped hfew,hsum,if_neg]
        rw [Nat.mod_eq_of_lt (by omega),Nat.mod_eq_of_lt (by omega)]
        omega
      refine ⟨fun h i hi => ?_,fun h i hi => ?_⟩
      · cases i with
        | zero => exact hv
        | succ i =>
          rw [← hother i (by omega)]
          exact h i (by omega)
      · rw [hother i hi]
        exact h (i+1) (by omega)
    have hlen : (pgt.afterTables m page).heap.length=m.heap.length-pgt.lacking page :=
      List.length_drop
    have hstep := @ih (pgt.mapped m page (Pte.writePerm ppn perm)) (pgt.afterTables m page) (page+1)
      (ppn+1) (by omega)
    rw [hcount,hbare,hlen] at hstep
    obtain ⟨⟨hb,hle⟩,v,hr⟩ | ⟨hno,v,w,e,hr⟩ := hstep
    · refine .inl ⟨⟨hb,by omega⟩,v,hr.trans ?_⟩
      rw [afterTables,List.drop_drop]
    · exact .inr ⟨fun h => hno ⟨h.1,by omega⟩,v,w,e,hr⟩

/-- What `map_pages` does with pages that follow each other. -/
theorem mapPages_range {n ppn : ℕ} {perm : PteFlag} (hmax : (page+n)*pageSize ≤ maxva) :
    ((pgt.Bare page n ∧ pgt.lackingRange page n ≤ m.heap.length) ∧
      ∃ v,pgt.mapPages m (page*pageSize) (n*pageSize) ppn perm=
        .ok (v,{m with heap := m.heap.drop (pgt.lackingRange page n)},.ok ())) ∨
    (¬(pgt.Bare page n ∧ pgt.lackingRange page n ≤ m.heap.length) ∧
      ∃ v w e,pgt.mapPages m (page*pageSize) (n*pageSize) ppn perm=.ok (v,w,.error e)) := by
  have hpages : pages=134217728 := by decide
  have hlt : page+n ≤ pages := by
    simp only [pageSize,maxva] at hmax
    omega
  have hd : pgRoundDown (page*pageSize)=page*pageSize := by
    rw [pgRoundDown,Nat.mul_div_cancel _ (by decide)]
  have hn : (pgRoundUp (page*pageSize+n*pageSize)-page*pageSize)/pageSize=n := by
    simp only [pgRoundUp,pageSize]
    omega
  have hsum : page*pageSize+n*pageSize=(page+n)*pageSize := (Nat.add_mul ..).symm
  have hover : ¬page*pageSize+n*pageSize ≥ 2^64 := by
    rw [hsum]
    simp only [maxva] at hmax
    omega
  rw [mapPages,if_neg hover,if_neg (by omega),hd,hn]
  obtain ⟨h,v,hr⟩ | ⟨h,v,w,e,hr⟩ := @mapLoop_range pgt m page n ppn perm hlt
  · rw [hr]
    exact .inl ⟨h,v,rfl⟩
  · rw [hr]
    exact .inr ⟨h,v,w,e,rfl⟩

end Mapping

end PageTable

end Xv6Rust.Paging
