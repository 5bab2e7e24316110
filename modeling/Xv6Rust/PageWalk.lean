import Xv6Rust.Runs
import Xv6Rust.Paging

/-!
# Page tables in memory

The page table as words in physical pages: `PageTableEntry` packs an address and
flags into one word, and `find_pte`, `find_pte_mut`, `find_pte_create` and
`map_pages` walk through three levels of pages. The answers of the page allocator
are an argument of each call; the pages it has answered with so far are recorded.
-/

namespace Xv6Rust.PageWalk

open Runs Paging

/-- `usize`. -/
abbrev Usize := BitVec 64

/-- `PGSHIFT`. -/
def pgShift : ℕ := 12

/-- `PGMASKLEN`. -/
def pgMaskLen : ℕ := 9

/-- `PGMASK`. -/
def pgMask : ℕ := 0x1FF

/-- `SV39FLAGLEN`. -/
def sv39FlagLen : ℕ := 10

/-- `PHYSTOP`. -/
def physTop : ℕ := 0x80000000+(128+64)*1024*1024

/-- `VirtAddr::page_num`. -/
def pageNum (va level : ℕ) : ℕ := (va >>> (pgShift+level*pgMaskLen)) &&& pgMask

/-- `PageTableEntry`. -/
structure PageTableEntry where
  /-- Address and flags. -/
  data : Usize
  deriving DecidableEq

namespace PageTableEntry

/-- A page of `try_new_zeroed` holds these; `write_zero`. -/
def zero : PageTableEntry := ⟨0⟩

/-- `is_valid`. -/
def isValid (pte : PageTableEntry) : Bool := pte.data&&&1 != 0

/-- `as_page_table`. -/
def asPageTable (pte : PageTableEntry) : Usize := (pte.data >>> sv39FlagLen) <<< pgShift

/-- `as_phys_addr`. -/
def asPhysAddr (pte : PageTableEntry) : Usize := (pte.data >>> sv39FlagLen) <<< pgShift

/-- `write`. -/
def write (pa : Usize) : PageTableEntry := ⟨((pa >>> pgShift) <<< sv39FlagLen)|||1⟩

/-- `write_perm`. -/
def writePerm (pa : Usize) (perm : PteFlag) : PageTableEntry :=
  ⟨((pa >>> pgShift) <<< sv39FlagLen)|||(perm|||flagV).setWidth 64⟩

/-- `read_perm`. -/
def readPerm (pte : PageTableEntry) : PteFlag := pte.data.setWidth 10

end PageTableEntry

/-- The address of a page. -/
def Aligned (pa : Usize) : Prop := pa&&&0xfff=0

instance (pa : Usize) : Decidable (Aligned pa) := inferInstanceAs (Decidable (_=_))

/-- `try_from` accepts an address. -/
def IsPhysPage (pa : Usize) : Prop := Aligned pa ∧ pa.toNat≤physTop

instance (pa : Usize) : Decidable (IsPhysPage pa) := inferInstanceAs (Decidable (_ ∧ _))

section Words

open PageTableEntry

variable {pa : Usize}

/-- The bits of the address of a page. -/
theorem Aligned.low (h : Aligned pa) {i : ℕ} (hi : i<12) : pa.getLsbD i=false := by
  have hb : (pa&&&0xfff#64).getLsbD i=false := by
    have h0 : pa&&&0xfff#64=0#64 := h
    rw [h0]
    exact BitVec.getLsbD_zero
  rw [BitVec.getLsbD_and] at hb
  have hm : (0xfff#64).getLsbD i=true := by
    interval_cases i <;> rfl
  rwa [hm,Bool.and_true] at hb

/-- The address comes back from a word whose other bits are flags. -/
theorem address_roundtrip (h : Aligned pa) (flags : BitVec 10) :
    ((((pa >>> 12) <<< 10)|||flags.setWidth 64) >>> 10) <<< 12=pa := by
  refine BitVec.eq_of_getLsbD_eq fun i hi => ?_
  simp only [BitVec.getLsbD_shiftLeft,BitVec.getLsbD_ushiftRight,BitVec.getLsbD_or,
    BitVec.getLsbD_setWidth]
  by_cases hlow : i<12
  · rw [h.low hlow]
    simp [hlow]
  · have hf : flags.getLsbD (10+(i-12))=false := BitVec.getLsbD_of_ge _ _ (by omega)
    have he : 12+(10+(i-12)-10)=i := by omega
    have hs : 10+(i-12)<64 := by omega
    rw [hf,he]
    simp [hlow,hi,hs]

/-- The flags come back. -/
theorem flags_roundtrip (pa : Usize) (flags : BitVec 10) :
    (((pa >>> 12) <<< 10)|||flags.setWidth 64).setWidth 10=flags := by
  refine BitVec.eq_of_getLsbD_eq fun i hi => ?_
  have h64 : i<64 := by omega
  simp only [BitVec.getLsbD_setWidth,BitVec.getLsbD_shiftLeft,BitVec.getLsbD_or,hi,h64,
    decide_true,Bool.not_true,Bool.and_false,Bool.false_and,Bool.false_or,Bool.true_and]

theorem isValid_of_bit {pte : PageTableEntry} (h : pte.data.getLsbD 0=true) :
    pte.isValid=true := by
  rw [isValid,bne_iff_ne]
  intro hz
  have hb : (pte.data&&&1#64).getLsbD 0=false := by
    have hz' : pte.data&&&1#64=0#64 := hz
    rw [hz']
    exact BitVec.getLsbD_zero
  rw [BitVec.getLsbD_and,h] at hb
  cases hb

/-- Reading a leaf back yields the address and the flags that were written. -/
theorem writePerm_roundtrip (h : Aligned pa) (perm : PteFlag) :
    (writePerm pa perm).asPhysAddr=pa ∧ (writePerm pa perm).readPerm=perm|||flagV ∧
      (writePerm pa perm).isValid=true := by
  refine ⟨address_roundtrip h _,flags_roundtrip pa _,?_⟩
  have hbit : ((writePerm pa perm).data.setWidth 10).getLsbD 0=(perm|||flagV).getLsbD 0 :=
    congrArg (fun w : BitVec 10 => w.getLsbD 0) (flags_roundtrip pa (perm|||flagV))
  have hone : (perm|||flagV).getLsbD 0=true := by
    rw [BitVec.getLsbD_or,flagV]
    simp
  rw [hone,BitVec.getLsbD_setWidth] at hbit
  have hdata : (writePerm pa perm).data.getLsbD 0=true := by simpa using hbit
  exact isValid_of_bit hdata

/-- A link to a page is valid and leads to it. -/
theorem write_roundtrip (h : Aligned pa) : (write pa).asPageTable=pa ∧ (write pa).isValid=true := by
  have he : write pa=writePerm pa 0 := rfl
  have hw := writePerm_roundtrip h 0
  rw [he]
  exact ⟨hw.1,hw.2.2⟩

theorem zero_not_valid : zero.isValid=false := by decide

end Words

/-- Physical pages as entries, the root of a page table, and the pages it has been given. -/
structure Space where
  /-- The entries of the page at an address. -/
  mem : Usize → ℕ → PageTableEntry
  /-- The address of the root. -/
  root : Usize
  /-- The pages of the page table. -/
  tables : List Usize

/-- An entry: the address of its page, and its index. -/
abbrev Slot := Usize×ℕ

namespace Space

variable (s : Space)

/-- An entry. -/
def get (slot : Slot) : PageTableEntry := s.mem slot.1 slot.2

/-- Write an entry. -/
def set (slot : Slot) (pte : PageTableEntry) : Space :=
  {s with mem := fun t i => if t=slot.1 ∧ i=slot.2 then pte else s.mem t i}

/-- A page from `try_new_zeroed` is linked into an entry. -/
def attach (slot : Slot) (page : Usize) : Space :=
  Space.set {s with
    mem := fun t i => if t=page then PageTableEntry.zero else s.mem t i
    tables := page::s.tables} slot (PageTableEntry.write page)

/-- The loop of `find_pte` from a level and a table on. -/
def walk (va : ℕ) : ℕ → Usize → Option Slot
  | 0,t => some (t,pageNum va 0)
  | level+1,t =>
    if (s.get (t,pageNum va (level+1))).isValid=true then
      walk va level (s.get (t,pageNum va (level+1))).asPageTable
    else none

/-- `find_pte`. -/
def findPte (va : ℕ) : Option Slot := s.walk va 2 s.root

/-- `find_pte_mut`. -/
def findPteMut (va : ℕ) : Option Slot := s.walk va 2 s.root

end Space

/-- Answers of the allocator: a page, or no memory. -/
abbrev Answers := List (Option Usize)

/-- The loop of `find_pte_create` from a level and a table on, with the answers left. -/
def walkCreate (va : ℕ) :
    ℕ → Usize → Space → Answers → Except Panic (Space×Answers×Option Slot)
  | 0,t,s,answers => .ok (s,answers,some (t,pageNum va 0))
  | level+1,t,s,answers =>
    if (s.get (t,pageNum va (level+1))).isValid=true then
      walkCreate va level (s.get (t,pageNum va (level+1))).asPageTable s answers
    else
      match answers with
      | [] => .ok (s,[],none)
      | none::answers => .ok (s,answers,none)
      | some page::answers =>
        if IsPhysPage page then
          walkCreate va level page (s.attach (t,pageNum va (level+1)) page) answers
        else .error .notAligned

/-- `find_pte_create`. -/
def findPteCreate (s : Space) (va : ℕ) (answers : Answers) :
    Except Panic (Space×Answers×Option Slot) := walkCreate va 2 s.root s answers

/-- The loop of `map_pages` with its number of rounds. -/
def mapLoop (s : Space) (va : ℕ) (pa : Usize) (perm : PteFlag) (answers : Answers) :
    ℕ → Except Panic (Space×Except MapError Unit)
  | 0 => .ok (s,.ok ())
  | n+1 =>
    match findPteCreate s va answers with
    | .error e => .error e
    | .ok (s,_,none) => .ok (s,.error .noMemory)
    | .ok (s,answers,some slot) =>
      if (s.get slot).isValid=true then .ok (s,.error .remap)
      else if pa.toNat+pageSize≥2^64 then .error .overflow
      else mapLoop (s.set slot (PageTableEntry.writePerm pa perm)) (va+pageSize)
        (pa+BitVec.ofNat 64 pageSize) perm answers n

/-- `map_pages`. -/
def mapPages (s : Space) (va size : ℕ) (pa : Usize) (perm : PteFlag) (answers : Answers) :
    Except Panic (Space×Except MapError Unit) :=
  if va+size≥2^64 then .error .overflow
  else if va+size>maxva then .ok (s,.error .badAddress)
  else mapLoop s (pgRoundDown va) pa perm answers
    ((pgRoundUp (va+size)-pgRoundDown va)/pageSize)

/-- Calls on a page table. -/
inductive Label where
  /-- `find_pte_create`. -/
  | create (va : ℕ) (answers : Answers)
  /-- `map_pages`. -/
  | map (va size : ℕ) (pa : Usize) (perm : PteFlag) (answers : Answers)
  /-- A write through the reference of `find_pte_mut`. -/
  | store (va : ℕ) (pte : PageTableEntry)

/-- One call. -/
def step (s : Space) : Label → Outcome Panic Space
  | .create va answers =>
    match findPteCreate s va answers with
    | .error e => .fault e
    | .ok r => .next r.1
  | .map va size pa perm answers =>
    match mapPages s va size pa perm answers with
    | .error e => .fault e
    | .ok r => .next r.1
  | .store va pte =>
    match s.findPteMut va with
    | none => .blocked
    | some slot => .next (s.set slot pte)

/-- The allocator answers with pages that are in no use. -/
def FreshAnswers (s : Space) (answers : Answers) : Prop :=
  answers.reduceOption.Nodup ∧ ∀ page∈answers.reduceOption,page∉s.tables ∧ IsPhysPage page

instance (s : Space) (answers : Answers) : Decidable (FreshAnswers s answers) :=
  -- By the list of answers, not by all words.
  have : Decidable (∀ page∈answers.reduceOption,page∉s.tables ∧ IsPhysPage page) :=
    List.decidableBAll _ _
  inferInstanceAs (Decidable (_ ∧ _))

/-- The calls whose answers are fresh. -/
def Fresh (s : Space) : Label → Prop
  | .create _ answers => FreshAnswers s answers
  | .map _ _ _ _ answers => FreshAnswers s answers
  | .store _ _ => True

instance (s : Space) : ∀ a,Decidable (Fresh s a)
  | .create _ answers => inferInstanceAs (Decidable (FreshAnswers s answers))
  | .map _ _ _ _ answers => inferInstanceAs (Decidable (FreshAnswers s answers))
  | .store _ _ => inferInstanceAs (Decidable True)

/-- A page table with a zeroed root. -/
def empty (mem : Usize → ℕ → PageTableEntry) (root : Usize) : Space :=
  ⟨fun t i => if t=root then PageTableEntry.zero else mem t i,root,[root]⟩

end Xv6Rust.PageWalk
