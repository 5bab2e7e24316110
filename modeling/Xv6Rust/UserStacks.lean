import Mathlib.Order.Interval.Set.Disjoint
import Xv6Rust.ElfLoad

/-!
# Where the stack of a task is

The user stacks of a process lie in a row above `ustack_base`, each with a guard page below it.
`load`, `Task::new`, and the pair of `uvm_alloc_ustack` and `dealloc_ustack_by_pos` compute the
place of one from its position, in three ways: the result of `ustack_bottom_by_pos` is the bottom
of the stack for `load` and its top for the pair, and `ustack_bottom_from_tid` is one page short of
the next stack.
-/

namespace Xv6Rust.UserStacks

open Results Paging PageTable UserMemory PageEffects
open ElfLoad (ustackBottomByPos)

/-- A stretch of addresses: its first byte, and the first one above it. -/
abbrev Region := ℕ×ℕ

/-- The bytes of a region. -/
def bytes (r : Region) : Set ℕ := Set.Ico r.1 r.2

/-- The result of an addition of addresses, if it does not overflow. -/
def checked (addr : ℕ) : Except Panic ℕ := if addr ≥ 2^64 then .error .overflow else .ok addr

/-- `ustack_bottom_by_pos`, with the panics of its arithmetic. -/
def bottomByPos (base pos : ℕ) : Except Panic ℕ :=
  if pos=0 then .error .overflow else checked (ustackBottomByPos base pos)

/-- `ustack_bottom_from_tid`. -/
def ustackBottomFromTid (base pos : ℕ) : Except Panic ℕ :=
  checked (base+pos*(pageSize+userStackSize))

/-- `stack_base` of `load` and the first `stack_pointer`. -/
def loadStack (base pos : ℕ) : Except Panic Region := do
  let bottom ← bottomByPos base pos
  let top ← checked (bottom+userStackSize)
  .ok (bottom,top)

/-- `ustack_bottom` of `Task::new` and its `sp`. -/
def taskStack (base pos : ℕ) : Except Panic Region := do
  let bottom ← ustackBottomFromTid base pos
  let sp ← checked (bottom+userStackSize)
  .ok (bottom,sp)

/-- `ustack_bottom` and `ustack_top` of `uvm_alloc_ustack` and `dealloc_ustack_by_pos`. -/
def ustackRange (base pos : ℕ) : Except Panic Region := do
  let top ← bottomByPos base pos
  if top<userStackSize then .error .overflow else .ok (top-userStackSize,top)

/-- Errors of `uvm_alloc_ustack`. -/
inductive StackError where
  /-- `too many tasks`. -/
  | tooManyTasks
  /-- `no enough physical memory`. -/
  | noPhysical
  /-- `no enough virtual memory`. -/
  | noVirtual
  deriving DecidableEq

/-- The loop of `uvm_alloc_ustack`. On an error the pages before it stay mapped. -/
def allocStackLoop (pgt : PageTable) (m : Mem) (va : ℕ) :
    ℕ → Except Panic (PageTable×Mem×Except StackError Unit)
  | 0 => .ok (pgt,m,.ok ())
  | n+1 =>
    match m.heap with
    | [] => .ok (pgt,m,.error .noPhysical)
    | ppn::heap => do
      let r ← pgt.mapPages (m.zeroed heap ppn) va pageSize ppn (flagR|||flagW|||flagU)
      match r with
      | (pgt,m,.error _) => .ok (pgt,m.free ppn,.error .noVirtual)
      | (pgt,m,.ok ()) => allocStackLoop pgt m (va+pageSize) n

/-- The range that `uvm_alloc_ustack` maps, if it takes the position. -/
def allocRange (base pos : ℕ) : Except Panic (Option Region) :=
  if pos ≥ maxTasksPerProc then .ok none
  else do
    let r ← ustackRange base pos
    .ok (some r)

/-- `uvm_alloc_ustack`. -/
def uvmAllocUstack (pgt : PageTable) (m : Mem) (base pos : ℕ) :
    Except Panic (PageTable×Mem×Except StackError ℕ) := do
  let range ← allocRange base pos
  match range with
  | none => .ok (pgt,m,.error .tooManyTasks)
  | some r => do
    let u ← allocStackLoop pgt m r.1 ((r.2-r.1)/pageSize)
    .ok (u.1,u.2.1,u.2.2.map fun _ => r.2)

/-- `dealloc_ustack_by_pos`. -/
def deallocUstackByPos (pgt : PageTable) (m : Mem) (base pos : ℕ) :
    Except Panic (PageTable×Mem) := do
  let r ← ustackRange base pos
  pgt.uvmUnmap m r.1 4 false

/-- The positions that a process has stacks for. -/
def Position (pos : ℕ) : Prop := 1 ≤ pos ∧ pos ≤ maxTasksPerProc

instance : DecidablePred Position := fun pos => inferInstanceAs (Decidable (1 ≤ pos ∧ pos ≤ _))

/-- What `load` allocates for the stacks. -/
def area (base : ℕ) : Region := (base,base+maxTasksPerProc*(userStackSize+pageSize))

/-- The addresses that `load` gives to `uvm_clear`, when `size` is its `proc_size`. -/
def guards (size n : ℕ) : List ℕ :=
  (List.range n).map fun i => size-(i+1)*(userStackSize+pageSize)

/-- `load` clears the guards one after the other. -/
theorem clearGuards_eq (pgt : PageTable) (size n : ℕ) :
    clearGuards pgt size n=(guards size n).foldlM uvmClear pgt := by
  induction n with
  | zero => rfl
  | succ n ih =>
    rw [clearGuards,ih,guards,guards,List.range_succ,List.map_append,List.foldlM_append]
    congr 1
    funext u
    rw [List.map_singleton,List.foldlM_cons]
    cases u.uvmClear (size-(n+1)*(userStackSize+pageSize)) <;> rfl

/-- A region is the stack of a task for all of them. -/
structure UserStack (base pos : ℕ) (r : Region) : Prop where
  /-- For `load`. -/
  load : loadStack base pos=.ok r
  /-- For `Task::new`. -/
  task : taskStack base pos=.ok r
  /-- For `uvm_alloc_ustack`. -/
  alloc : allocRange base pos=.ok (some r)
  /-- For `dealloc_ustack_by_pos`. -/
  dealloc : ustackRange base pos=.ok r
  /-- Its size. -/
  size : r.2=r.1+userStackSize
  /-- It lies in the area of the stacks. -/
  inside : bytes r⊆bytes (area base)
  /-- No page of it is a guard. -/
  unguarded : ∀ g∈guards (area base).2 maxTasksPerProc,Disjoint (bytes r) (bytes (g,g+pageSize))
  /-- It is apart from those of other positions. -/
  apart : ∀ pos',Position pos' → pos'≠pos → ∀ r',loadStack base pos'=.ok r' →
    Disjoint (bytes r) (bytes r')

/-- All parts of the kernel agree on the stack of a position. -/
def StacksAgree (base pos : ℕ) : Prop := ∃ r,UserStack base pos r

section Places

variable {base pos : ℕ} {r l : Region}

theorem checked_ok {addr a : ℕ} (h : checked addr=.ok a) : a=addr := by
  unfold checked at h
  split at h
  · cases h
  · cases h
    rfl

theorem bottomByPos_ok {bottom : ℕ} (h : bottomByPos base pos=.ok bottom) :
    1 ≤ pos ∧ bottom=ustackBottomByPos base pos := by
  unfold bottomByPos at h
  split at h
  · cases h
  · exact ⟨by omega,checked_ok h⟩

/-- The stack of `load`. -/
theorem loadStack_ok (h : loadStack base pos=.ok r) :
    1 ≤ pos ∧ r=(ustackBottomByPos base pos,ustackBottomByPos base pos+userStackSize) := by
  obtain ⟨bottom,hb,h⟩ := bind_eq_ok h
  obtain ⟨top,ht,h⟩ := bind_eq_ok h
  obtain ⟨hpos,rfl⟩ := bottomByPos_ok hb
  rw [checked_ok ht] at h
  cases h
  exact ⟨hpos,rfl⟩

/-- The stack of `Task::new`. -/
theorem taskStack_place (h : taskStack base pos=.ok r) :
    r=(base+pos*(pageSize+userStackSize),base+pos*(pageSize+userStackSize)+userStackSize) := by
  obtain ⟨bottom,hb,h⟩ := bind_eq_ok h
  obtain ⟨sp,hs,h⟩ := bind_eq_ok h
  rw [checked_ok hs,checked_ok hb] at h
  exact (Except.ok.inj h).symm

/-- It begins where the stack of `load` ends. -/
theorem taskStack_ok (h : taskStack base pos=.ok r) (hl : loadStack base pos=.ok l) :
    r=(l.2,l.2+userStackSize) := by
  rw [taskStack_place h]
  obtain ⟨hpos,rfl⟩ := loadStack_ok hl
  obtain ⟨k,rfl⟩ := Nat.exists_eq_add_of_le hpos
  rw [ustackBottomByPos,Nat.add_sub_cancel_left,Nat.add_mul]
  ext <;> dsimp only <;> omega

/-- The range of `uvm_alloc_ustack` and `dealloc_ustack_by_pos` ends where the stack of `load`
begins. -/
theorem ustackRange_ok (h : ustackRange base pos=.ok r) (hl : loadStack base pos=.ok l) :
    r=(l.1-userStackSize,l.1) := by
  obtain ⟨top,ht,h⟩ := bind_eq_ok h
  obtain ⟨-,rfl⟩ := bottomByPos_ok ht
  obtain ⟨-,rfl⟩ := loadStack_ok hl
  split at h
  · cases h
  · exact (Except.ok.inj h).symm

/-- The guards are the pages below the stacks of `load`. -/
theorem mem_guards {g : ℕ} : g∈guards (area base).2 maxTasksPerProc ↔
    ∃ pos,Position pos ∧ g+pageSize=ustackBottomByPos base pos := by
  rw [guards,List.mem_map]
  simp only [List.mem_range,area,Position,ustackBottomByPos,maxTasksPerProc,userStackSize,pageSize]
  constructor
  · rintro ⟨i,hi,rfl⟩
    exact ⟨64-i,by omega,by omega⟩
  · rintro ⟨pos,hpos,hg⟩
    exact ⟨64-pos,by omega,by omega⟩

/-- Regions where one begins behind the end of the other are apart. -/
theorem disjoint_bytes {r s : Region} (h : r.2 ≤ s.1 ∨ s.2 ≤ r.1) : Disjoint (bytes r) (bytes s) := by
  rw [bytes,bytes,Set.Ico_disjoint_Ico]
  omega

/-- The stacks of `load` lie in their area, on no guard and apart from each other. -/
theorem loadStack_placed (hpos : Position pos) (h : loadStack base pos=.ok r) :
    r.2=r.1+userStackSize ∧ bytes r⊆bytes (area base) ∧
      (∀ g∈guards (area base).2 maxTasksPerProc,Disjoint (bytes r) (bytes (g,g+pageSize))) ∧
      ∀ pos',Position pos' → pos'≠pos → ∀ r',loadStack base pos'=.ok r' →
        Disjoint (bytes r) (bytes r') := by
  obtain ⟨-,rfl⟩ := loadStack_ok h
  simp only [Position,maxTasksPerProc] at hpos
  refine ⟨rfl,?_,fun g hg => ?_,fun pos' hpos' hne r' hr' => ?_⟩
  · refine Set.Ico_subset_Ico ?_ ?_ <;>
      simp only [area,ustackBottomByPos,maxTasksPerProc,userStackSize,pageSize] <;> omega
  · obtain ⟨pos',-,hg⟩ := mem_guards.mp hg
    apply disjoint_bytes
    rw [hg]
    simp only [ustackBottomByPos,userStackSize,pageSize] at hg ⊢
    omega
  · obtain ⟨h1,rfl⟩ := loadStack_ok hr'
    apply disjoint_bytes
    simp only [ustackBottomByPos,userStackSize,pageSize]
    omega

/-- The first page of the stack of `Task::new` is the guard of the next position. -/
theorem taskStack_guard (hlast : pos < maxTasksPerProc)
    (h : taskStack base pos=.ok r) : r.1∈guards (area base).2 maxTasksPerProc := by
  obtain ⟨bottom,hb,h⟩ := bind_eq_ok h
  obtain ⟨sp,hs,h⟩ := bind_eq_ok h
  rw [checked_ok hb] at h
  cases h
  refine mem_guards.mpr ⟨pos+1,⟨by omega,hlast⟩,?_⟩
  rw [ustackBottomByPos,Nat.add_sub_cancel]

/-- The last page that `uvm_alloc_ustack` maps is the guard of the position. -/
theorem ustackRange_guard (hpos : Position pos) (h : ustackRange base pos=.ok r) :
    r.2-pageSize∈guards (area base).2 maxTasksPerProc := by
  obtain ⟨top,ht,h⟩ := bind_eq_ok h
  obtain ⟨-,rfl⟩ := bottomByPos_ok ht
  split at h
  · cases h
  · rw [← Except.ok.inj h]
    refine mem_guards.mpr ⟨pos,hpos,?_⟩
    rw [ustackBottomByPos]
    dsimp only
    omega

end Places

section Mapping

variable {pgt v : PageTable} {m w : Mem} {base pos page n : ℕ} {r : Region}

/-- The loop of `uvm_alloc_ustack` maps one page after the other. -/
theorem allocStackLoop_maps (h : allocStackLoop pgt m (page*pageSize) n=.ok (v,w,.ok ())) :
    (∀ i,i<n → page+i<pages ∧ ¬ValidAt pgt (page+i) ∧ ValidAt v (page+i)) ∧
      ∀ q,q<pages → q<page ∨ page+n ≤ q → v.entryAt q=pgt.entryAt q := by
  induction n generalizing pgt m page with
  | zero =>
    cases h
    exact ⟨fun i hi => absurd hi (Nat.not_lt_zero i),fun q _ _ => rfl⟩
  | succ n ih =>
    rw [allocStackLoop] at h
    split at h
    · cases h
    · obtain ⟨⟨u,m1,e⟩,hmap,h⟩ := bind_eq_ok h
      obtain ⟨rfl,-,-,hpage,-⟩ | ⟨⟨e,rfl⟩,-⟩ := mapPages_cases (K:=∅) hmap
      · dsimp only at h
        rw [← Nat.succ_mul] at h
        obtain ⟨hnew,hold⟩ := ih h
        refine ⟨fun i hi => ?_,fun q hq hout => ?_⟩
        · cases i with
          | zero =>
            refine ⟨hpage.lt,hpage.before,?_⟩
            rw [ValidAt,Nat.add_zero,hold page hpage.lt (.inl (Nat.lt_succ_self page)),hpage.self]
            exact Pte.writePerm_valid _ _
          | succ i =>
            obtain ⟨hlt,hfree,hvalid⟩ := hnew i (Nat.lt_of_succ_lt_succ hi)
            rw [show page.succ+i=page+(i+1) by omega] at hlt hfree hvalid
            rw [ValidAt,hpage.other _ hlt (by omega)] at hfree
            exact ⟨hlt,hfree,hvalid⟩
        · rw [hold q hq (by omega),hpage.other q hq (by omega)]
      · cases h

/-- `uvm_unmap` that does not free clears its range, as far as it is mapped, and nothing else. -/
theorem unmapLoop_keeps (hmax : page+n ≤ pages)
    (h : pgt.unmapLoop m (page*pageSize) false n=.ok (v,w)) :
    w=m ∧ (∀ q,q<pages → q<page ∨ page+n ≤ q → v.entryAt q=pgt.entryAt q) ∧
      ((∀ i,i<n → pgt.Mapped (page+i)) → ∀ i,i<n → ¬ValidAt v (page+i)) := by
  induction n generalizing pgt page with
  | zero =>
    cases h
    exact ⟨rfl,fun q _ _ => rfl,fun _ i hi => absurd hi (Nat.not_lt_zero i)⟩
  | succ n ih =>
    by_cases hm : pgt.Mapped page
    · rw [UserUnmap.unmapLoop_mapped hm,if_neg Bool.false_ne_true] at h
      obtain ⟨hw,hold,hclear⟩ := ih (by omega) h
      have hset : ∀ q,q<pages → (pgt.setPte (page*pageSize) Pte.zero).entryAt q=
          if q=page then Pte.zero else pgt.entryAt q := by
        intro q hq
        rw [entryAt_setPte (find_of_valid (valid_of_mapped hm)),Nat.mod_eq_of_lt hq,
          Nat.mod_eq_of_lt (by omega)]
      refine ⟨hw,fun q hq hout => ?_,fun hall i hi => ?_⟩
      · rw [hold q hq (by omega),hset q hq,if_neg (by omega)]
      · cases i with
        | zero =>
          rw [ValidAt,Nat.add_zero,hold page (by omega) (by omega),hset page (by omega),if_pos rfl]
          decide
        | succ i =>
          have hrest : ∀ j,j<n → (pgt.setPte (page*pageSize) Pte.zero).Mapped (page+1+j) := by
            intro j hj
            rw [Mapped,hset _ (by omega),if_neg (by omega),Nat.add_assoc,Nat.add_comm 1 j]
            exact hall (j+1) (by omega)
          have hgone := hclear hrest i (by omega)
          rwa [show page+1+i=page+(i+1) by omega] at hgone
    · have hsame : v=pgt ∧ w=m := by
        cases hv : (pgt.entryAt page).isValid with
        | false =>
          rw [UserUnmap.unmapLoop_hole hv] at h
          cases h
          exact ⟨rfl,rfl⟩
        | true =>
          rw [Mapped,Pte.isMapped,hv,Bool.true_and] at hm
          rw [UserUnmap.unmapLoop_table hv (Bool.eq_false_of_not_eq_true hm)] at h
          cases h
      obtain ⟨rfl,rfl⟩ := hsame
      exact ⟨rfl,fun q _ _ => rfl,fun hall => absurd (hall 0 (by omega)) hm⟩

/-- The range of the pair begins with a page and has four. -/
theorem ustackRange_pages (hbase : base%pageSize=0) (h : ustackRange base pos=.ok r) :
    ∃ page,r=(page*pageSize,(page+4)*pageSize) := by
  obtain ⟨top,ht,h⟩ := bind_eq_ok h
  obtain ⟨-,rfl⟩ := bottomByPos_ok ht
  split at h
  · cases h
  · rename_i hlow
    rw [← Except.ok.inj h]
    simp only [ustackBottomByPos,userStackSize,pageSize] at hbase hlow ⊢
    refine ⟨(base+(pos-1)*(4096+4096*4)+4096-4096*4)/4096,?_⟩
    ext <;> dsimp only <;> omega

/-- What `uvm_alloc_ustack` maps are the pages of its range. -/
theorem uvmAllocUstack_maps {top : ℕ} (hbase : base%pageSize=0)
    (h : uvmAllocUstack pgt m base pos=.ok (v,w,.ok top)) :
    ∃ r,allocRange base pos=.ok (some r) ∧ top=r.2 ∧
      ∀ q,q<pages → (¬ValidAt pgt q ∧ ValidAt v q ↔ q*pageSize∈bytes r) := by
  obtain ⟨range,hrange,h⟩ := bind_eq_ok h
  cases range with
  | none => cases h
  | some r =>
    obtain ⟨⟨u,m1,e⟩,hloop,h⟩ := bind_eq_ok h
    cases e with
    | error e => cases h
    | ok x =>
      cases h
      refine ⟨r,hrange,rfl,fun q hq => ?_⟩
      have hr : ustackRange base pos=.ok r := by
        unfold allocRange at hrange
        split at hrange
        · cases hrange
        · obtain ⟨r',hr',he⟩ := bind_eq_ok hrange
          cases he
          exact hr'
      obtain ⟨page,rfl⟩ := ustackRange_pages hbase hr
      have hcount : ((page+4)*pageSize-page*pageSize)/pageSize=4 := by
        rw [← Nat.sub_mul,Nat.add_sub_cancel_left,Nat.mul_div_cancel _ (by decide)]
      rw [hcount] at hloop
      obtain ⟨hnew,hold⟩ := allocStackLoop_maps hloop
      have hmem : q*pageSize∈bytes (page*pageSize,(page+4)*pageSize) ↔ page ≤ q ∧ q<page+4 := by
        simp only [bytes,Set.mem_Ico,pageSize]
        omega
      rw [hmem]
      refine ⟨fun hv => ?_,fun hin => ?_⟩
      · by_contra hout
        rw [ValidAt,ValidAt,hold q hq (by omega)] at hv
        exact hv.1 hv.2
      · obtain ⟨-,hfree,hvalid⟩ := hnew (q-page) (by omega)
        rw [Nat.add_sub_cancel' hin.1] at hfree hvalid
        exact ⟨hfree,hvalid⟩

/-- What `dealloc_ustack_by_pos` clears are pages of its range: all of them, if they are mapped. -/
theorem deallocUstackByPos_clears (hbase : base%pageSize=0) (hr : ustackRange base pos=.ok r)
    (hmax : r.2 ≤ pages*pageSize) (h : deallocUstackByPos pgt m base pos=.ok (v,w)) :
    w=m ∧ (∀ q,q<pages → q*pageSize∉bytes r → v.entryAt q=pgt.entryAt q) ∧
      ((∀ q,q*pageSize∈bytes r → pgt.Mapped q) → ∀ q,q*pageSize∈bytes r → ¬ValidAt v q) := by
  obtain ⟨r',hr',h⟩ := bind_eq_ok h
  rw [hr] at hr'
  cases hr'
  obtain ⟨page,rfl⟩ := ustackRange_pages hbase hr
  have hle : page+4 ≤ pages := Nat.le_of_mul_le_mul_right hmax (by decide)
  have hmem : ∀ q,q*pageSize∈bytes (page*pageSize,(page+4)*pageSize) ↔ page ≤ q ∧ q<page+4 := by
    intro q
    simp only [bytes,Set.mem_Ico,pageSize]
    omega
  rw [uvmUnmap,if_neg (by rw [Nat.mul_mod_left]; exact not_not.mpr rfl)] at h
  split at h
  · cases h
  · obtain ⟨hw,hold,hclear⟩ := unmapLoop_keeps hle h
    refine ⟨hw,fun q hq hout => hold q hq ?_,fun hall q hin => ?_⟩
    · rw [hmem] at hout
      omega
    · rw [hmem] at hin
      have hgone := hclear (fun i hi => hall _ ((hmem _).mpr ⟨by omega,by omega⟩)) (q-page) (by omega)
      rwa [Nat.add_sub_cancel' hin.1] at hgone

end Mapping

/-- No two of the three places of a stack have a byte in common. -/
theorem places_apart {base pos : ℕ} {l t u : Region} (hl : loadStack base pos=.ok l)
    (ht : taskStack base pos=.ok t) (hu : ustackRange base pos=.ok u) :
    Disjoint (bytes l) (bytes t) ∧ Disjoint (bytes l) (bytes u) ∧ Disjoint (bytes t) (bytes u) := by
  have htask := taskStack_ok ht hl
  have hrange := ustackRange_ok hu hl
  obtain ⟨-,rfl⟩ := loadStack_ok hl
  rw [htask,hrange]
  refine ⟨disjoint_bytes (.inl le_rfl),disjoint_bytes (.inr le_rfl),disjoint_bytes (.inr ?_)⟩
  dsimp only
  omega

/-- For no base and no position do the parts of the kernel agree on a stack. -/
theorem stacks_never_agree (base pos : ℕ) : ¬StacksAgree base pos := by
  rintro ⟨r,h⟩
  obtain ⟨hapart,-⟩ := places_apart h.load h.task h.dealloc
  have hempty : bytes r=∅ := disjoint_self.mp hapart
  have hbottom : r.1∈bytes r := by
    rw [bytes,Set.mem_Ico,h.size]
    exact ⟨le_rfl,Nat.lt_add_of_pos_right (by decide)⟩
  rw [hempty] at hbottom
  exact hbottom

/-- Where the stack of the first task is for a base. -/
theorem places_differ :
    (loadStack 0x5000 1=.ok (0x6000,0xa000) ∧ taskStack 0x5000 1=.ok (0xa000,0xe000) ∧
      allocRange 0x5000 1=.ok (some (0x2000,0x6000)) ∧
      ustackRange 0x5000 1=.ok (0x2000,0x6000)) ∧
    ¬∀ base pos,base%pageSize=0 → Position pos → StacksAgree base pos := by
  refine ⟨⟨rfl,rfl,rfl,rfl⟩,fun h => ?_⟩
  obtain ⟨r,hr⟩ := h 0x5000 1 rfl (by decide)
  have hload := hr.load
  have htask := hr.task
  rw [show loadStack 0x5000 1=.ok (0x6000,0xa000) from rfl] at hload
  rw [show taskStack 0x5000 1=.ok (0xa000,0xe000) from rfl,← Except.ok.inj hload] at htask
  cases htask

end Xv6Rust.UserStacks
