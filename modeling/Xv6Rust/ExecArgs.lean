import Xv6Rust.ElfLoad

/-!
# The arguments of a program

Where `load` puts the arguments: all of them are on the last page of the stack of the first task,
the first argument highest, and the array of their addresses is below them. `copy_out` looks at the
page behind the last byte as well where a copy ends with a page; behind the stack there is the guard
of the next one.
-/

namespace Xv6Rust.ExecArgs

open Bytes RadixTable Results Paging PageTable UserMemory UserUnmap UserBytes CopyUser PageEffects
open TableBudget ElfLoad
open KernelStacks (RecycleAllocator)
open TaskStacks (KernelTable StackFits stackTables kstackAlloc kstackAlloc_cases noStacks)
open ProcessTasks (dropTasks createTask)
open UserCopy (pageCount)
open FirstTable (uvmAlloc_eq_first)

/-- Number of bytes before the NUL. -/
def Arg.len (arg : Arg) : ℕ := arg.toList.findIdx (· = 0)

/-- The argument ends with a NUL. -/
def Arg.Ends (arg : Arg) : Prop := 0∈arg.toList

instance (arg : Arg) : Decidable (Arg.Ends arg) := inferInstanceAs (Decidable (0∈arg.toList))

/-- The word at an address. -/
def wordAt (pgt : PageTable) (m : Mem) (va : ℕ) : ℕ :=
  getLE (fun i => byteAt pgt m (va+i)) 0 wordSize

/-- What is on the stack: the array of addresses, and the arguments, each with its size. -/
def blocks (args : List Arg) (sp : ℕ) (ps : List ℕ) : List (ℕ×ℕ) :=
  (sp,(args.length+1)*wordSize)::List.zipWith (fun p arg => (p,Arg.len arg+1)) ps args

/-- The arguments are where they should be: on the stack that begins at an address. -/
structure ArgsAt (pgt : PageTable) (m : Mem) (bottom : ℕ) (args : List Arg) (sp : ℕ)
    (ps : List ℕ) : Prop where
  /-- Every argument has an address. -/
  count : ps.length=args.length
  /-- The array holds the addresses, and a zero after them. -/
  array : ∀ i,i ≤ args.length → wordAt pgt m (sp+i*wordSize)=ps.getD i 0
  /-- At each address there is a copy of the argument. -/
  copies : ∀ p arg,(p,arg)∈ps.zip args → ∀ j,j ≤ Arg.len arg → byteAt pgt m (p+j)=arg.bytes j
  /-- The copies and the array are disjoint. -/
  apart : (blocks args sp ps).Pairwise fun a b => a.1+a.2 ≤ b.1 ∨ b.1+b.2 ≤ a.1
  /-- They are on the stack. -/
  inside : ∀ b∈blocks args sp ps,bottom ≤ b.1 ∧ b.1+b.2 ≤ bottom+userStackSize
  /-- The stack pointer is below them. -/
  below : ∀ b∈blocks args sp ps,sp ≤ b.1
  /-- It is a multiple of 16. -/
  aligned : sp%16=0

section OnePage

variable {pgt : PageTable} {m : Mem} {src : Buffer} {page dst n va : ℕ}

/-- The range of addresses is on a page. -/
def OnPage (page dst n : ℕ) : Prop := page*pageSize ≤ dst ∧ dst+n ≤ (page+1)*pageSize

theorem OnPage.div (h : OnPage page dst n) {j : ℕ} (hj : j < n) : (dst+j)/pageSize=page := by
  obtain ⟨h1,h2⟩ := h
  simp only [pageSize] at h1 h2 ⊢
  omega

/-- Bytes that are written to a page, and the others of the page. -/
theorem byteAt_pokes (h : OnPage page dst n) (hva : va/pageSize=page) :
    byteAt pgt (pokes pgt m src dst n) va=
      if dst ≤ va ∧ va < dst+n then src (va-dst) else byteAt pgt m va := by
  split
  · rename_i hin
    have hj : va-dst < n := by omega
    have hsum : dst+(va-dst)=va := by omega
    have hpoke : (pokes pgt m src dst n).data (ppnAt pgt (dst+(va-dst))) (offset (dst+(va-dst)))=
        src (va-dst) := pokes_inside hj fun j' hlt hn _ ho => by
      have hpage : (dst+j')/pageSize=(dst+(va-dst))/pageSize := by
        rw [h.div hn,h.div hj]
      have := eq_of_page_offset hpage ho
      omega
    rw [hsum] at hpoke
    exact hpoke
  · rename_i hout
    refine pokes_outside fun j hj _ ho => ?_
    have hpage : (dst+j)/pageSize=va/pageSize := by rw [h.div hj,hva]
    have := eq_of_page_offset hpage ho
    omega

/-- The other physical pages stay as they are. -/
theorem pokes_other (h : OnPage page dst n) {p : ℕ} (hp : p≠(pgt.entryAt page).ppn) :
    (pokes pgt m src dst n).data p=m.data p := by
  funext i
  refine pokes_outside fun j hj he _ => hp ?_
  rw [← he,ppnAt,h.div hj]

/-- `copy_out` to a page of the user that does not reach its end. -/
theorem copyOut_page (h : OnPage page dst n) (hlt : dst+n < (page+1)*pageSize) (hn : n≠0)
    (hu : UserPage pgt page) (hmax : (page+1)*pageSize ≤ maxva) :
    copyOut pgt m src dst n=((pgt,pokes pgt m src dst n),.ok) := by
  obtain ⟨h1,h2⟩ := h
  have hb : dst+n < 2^64 := by
    simp only [maxva] at hmax
    omega
  have ha : dst ≤ maxva := by omega
  obtain ⟨k,r,hr,hreach⟩ := copyOut_spec pgt m src hn ha
  have hend : (dst+n)/pageSize=page := by
    simp only [pageSize] at h1 hlt ⊢
    omega
  have hall : AllUser pgt dst n := allUser_iff.mpr fun j hj => by
    rw [OnPage.div ⟨h1,h2⟩ hj]
    exact hu
  obtain ⟨hok,-⟩ | ⟨-,hnot⟩ := hreach.result hb
  · obtain ⟨-,hk,-⟩ | ⟨hfail,-⟩ | ⟨hfail,-⟩ := hreach.stop
    · rw [hr,hok,hk]
    · rw [hok] at hfail
      cases hfail
    · rw [hok] at hfail
      cases hfail
  · exact absurd ⟨hall,hend ▸ hu⟩ hnot

/-- `copy_out` to the end of a page panics if the next page is not the user's. -/
theorem copyOut_end (h : OnPage page dst n) (hend : dst+n=(page+1)*pageSize) (hn : n≠0)
    (hu : ¬UserPage pgt (page+1)) (hmax : (page+1)*pageSize ≤ maxva) :
    (copyOut pgt m src dst n).2=.panic .noMap := by
  obtain ⟨h1,h2⟩ := h
  have hb : dst+n < 2^64 := by
    simp only [maxva] at hmax
    omega
  have ha : dst ≤ maxva := by omega
  obtain ⟨k,r,hr,hreach⟩ := copyOut_spec pgt m src hn ha
  have hdiv : (dst+n)/pageSize=page+1 := by
    rw [hend,Nat.mul_div_cancel _ (by decide)]
  obtain ⟨-,-,hlast⟩ | ⟨hfail,-⟩ := hreach.result hb
  · rw [hdiv] at hlast
    exact absurd hlast hu
  · rw [hr]
    exact hfail

end OnePage

section Places

variable {sp : ℕ} {arg : Arg} {args : List Arg}

/-- Where `load` puts the arguments, from a stack pointer down. -/
def places (sp : ℕ) : List Arg → List ℕ
  | [] => []
  | arg::args => alignSp (sp-(Arg.len arg+1))::places (alignSp (sp-(Arg.len arg+1))) args

/-- The stack pointer below them. -/
def lowest (sp : ℕ) : List Arg → ℕ
  | [] => sp
  | arg::args => lowest (alignSp (sp-(Arg.len arg+1))) args

theorem len_lt (h : Arg.Ends arg) : Arg.len arg < maxArgLen := by
  have hlt : arg.toList.findIdx (· = 0) < arg.toList.length :=
    List.findIdx_lt_length_of_exists ⟨0,h,decide_eq_true rfl⟩
  rwa [Vector.length_toList] at hlt

theorem findIdx_eq (h : Arg.Ends arg) : arg.toList.findIdx? (· = 0)=some (Arg.len arg) := by
  rw [List.findIdx?_eq_some_iff_findIdx_eq]
  refine ⟨?_,rfl⟩
  rw [Vector.length_toList]
  exact len_lt h

theorem places_length (sp : ℕ) (args : List Arg) : (places sp args).length=args.length := by
  induction args generalizing sp with
  | nil => rfl
  | cons arg args ih =>
    rw [places,List.length_cons,List.length_cons,ih]

/-- One argument moves the stack pointer down by at most the length of its slice. -/
theorem place_bound (h : Arg.Ends arg) (hsp : sp%16=0) (hroom : maxArgLen ≤ sp) :
    alignSp (sp-(Arg.len arg+1))%16=0 ∧ sp ≤ alignSp (sp-(Arg.len arg+1))+maxArgLen ∧
      alignSp (sp-(Arg.len arg+1))+(Arg.len arg+1) ≤ sp ∧
      (alignSp (sp-(Arg.len arg+1))+(Arg.len arg+1)=sp → (Arg.len arg+1)%16=0) := by
  have hlt := len_lt h
  simp only [alignSp,maxArgLen] at *
  omega

/-- The arguments are below each other. -/
theorem places_spec (hends : ∀ arg∈args,Arg.Ends arg) (hsp : sp%16=0)
    (hroom : args.length*maxArgLen ≤ sp) :
    lowest sp args%16=0 ∧ lowest sp args ≤ sp ∧ sp ≤ lowest sp args+args.length*maxArgLen ∧
      (∀ b∈List.zipWith (fun p arg => (p,Arg.len arg+1)) (places sp args) args,
        lowest sp args ≤ b.1 ∧ b.1+b.2 ≤ sp) ∧
      (List.zipWith (fun p arg => (p,Arg.len arg+1)) (places sp args) args).Pairwise
        fun a b => b.1+b.2 ≤ a.1 := by
  induction args generalizing sp with
  | nil =>
    refine ⟨hsp,le_refl _,?_,fun b hb => ?_,List.Pairwise.nil⟩
    · rw [lowest]
      omega
    · cases hb
  | cons arg args ih =>
    rw [List.length_cons,Nat.succ_mul] at hroom
    obtain ⟨hal,hlow,hfit,-⟩ := place_bound (hends arg (List.mem_cons_self ..)) hsp (by omega)
    obtain ⟨h1,h2,h3,h4,h5⟩ := ih (fun a ha => hends a (List.mem_cons_of_mem _ ha)) hal (by omega)
    rw [lowest,places,List.zipWith_cons_cons,List.length_cons,Nat.succ_mul]
    refine ⟨h1,by omega,by omega,fun b hb => ?_,List.pairwise_cons.mpr ⟨fun b hb => (h4 b hb).2,h5⟩⟩
    obtain rfl | hb := List.mem_cons.mp hb
    · exact ⟨h2,hfit⟩
    · have := h4 b hb
      omega

end Places

section Pushing

variable {pgt : PageTable} {m : Mem} {page size pid stackBase sp : ℕ} {args : List Arg}

/-- The arguments are copied to the last page of the stack. -/
theorem pushArgs_lays (hu : UserPage pgt page) (hmax : (page+1)*pageSize ≤ maxva)
    (hbase : stackBase ≤ page*pageSize) (hends : ∀ arg∈args,Arg.Ends arg) (hsp : sp%16=0)
    (hroom : page*pageSize+args.length*maxArgLen ≤ sp) (htop : sp ≤ (page+1)*pageSize)
    (hfirst : ∀ arg∈args.head?,sp=(page+1)*pageSize → (Arg.len arg+1)%16≠0) (ustack : List ℕ) :
    ∃ m',pushArgs pgt size pid stackBase (args.map some) m sp ustack=
        .ok (m',.ok (lowest sp args,ustack++places sp args)) ∧ m'.heap=m.heap ∧
      (∀ p arg,(p,arg)∈(places sp args).zip args → ∀ j,j ≤ Arg.len arg →
        byteAt pgt m' (p+j)=arg.bytes j) ∧
      (∀ p,p≠(pgt.entryAt page).ppn → m'.data p=m.data p) ∧
      ∀ va,va/pageSize=page → sp ≤ va → byteAt pgt m' va=byteAt pgt m va := by
  induction args generalizing m sp ustack with
  | nil =>
    refine ⟨m,?_,rfl,fun p arg hp => ?_,fun p _ => rfl,fun va _ _ => rfl⟩
    · rw [places,List.append_nil]
      rfl
    · cases hp
  | cons arg args ih =>
    rw [List.length_cons,Nat.succ_mul] at hroom
    have hend := hends arg (List.mem_cons_self ..)
    obtain ⟨hal,hlow,hfit,hexact⟩ := place_bound hend hsp (by omega)
    have hlt : alignSp (sp-(Arg.len arg+1))+(Arg.len arg+1) < (page+1)*pageSize := by
      by_contra hge
      exact hfirst arg rfl (by omega) (hexact (by omega))
    have hon : OnPage page (alignSp (sp-(Arg.len arg+1))) (Arg.len arg+1) := ⟨by omega,by omega⟩
    have hcopy := @copyOut_page pgt m arg.bytes _ _ _ hon hlt (Nat.succ_ne_zero _) hu hmax
    obtain ⟨m',hr,hheap,hbytes,hother,hkeep⟩ := ih
      (m:=pokes pgt m arg.bytes (alignSp (sp-(Arg.len arg+1))) (Arg.len arg+1))
      (fun a ha => hends a (List.mem_cons_of_mem _ ha)) hal (by omega) (by omega)
      (fun a _ he => by omega) (ustack++[alignSp (sp-(Arg.len arg+1))])
    refine ⟨m',?_,hheap.trans pokes_heap,fun p a hp j hj => ?_,
      fun p hp => (hother p hp).trans (pokes_other hon hp),fun va hva hge => ?_⟩
    · rw [List.map_cons,pushArgs,findIdx_eq hend]
      dsimp only
      rw [if_neg (by omega),if_neg (by omega),hcopy]
      dsimp only
      rw [hr,places,List.append_assoc]
      rfl
    · rw [places,List.zip_cons_cons] at hp
      obtain e | hp := List.mem_cons.mp hp
      · cases e
        have hva := hon.div (j:=j) (by omega)
        rw [hkeep _ hva (by omega),byteAt_pokes hon hva,if_pos (by omega),Nat.add_sub_cancel_left]
      · exact hbytes p a hp j hj
    · rw [hkeep va hva (by omega),byteAt_pokes hon hva,if_neg (by omega)]

/-- The first argument stops the kernel where it ends with the stack. -/
theorem pushArgs_end {arg : Arg} (hu : ¬UserPage pgt (page+1)) (hmax : (page+1)*pageSize ≤ maxva)
    (hbase : stackBase ≤ page*pageSize) (hend : Arg.Ends arg) (hlen : (Arg.len arg+1)%16=0)
    (ustack : List ℕ) :
    pushArgs pgt size pid stackBase (some arg::args.map some) m ((page+1)*pageSize) ustack=
      .error (.copy .noMap) := by
  have hlt := len_lt hend
  have hplace : alignSp ((page+1)*pageSize-(Arg.len arg+1))+(Arg.len arg+1)=(page+1)*pageSize := by
    simp only [alignSp,pageSize,maxArgLen] at hlt ⊢
    omega
  have hlow : page*pageSize+maxArgLen ≤ (page+1)*pageSize := by
    simp only [pageSize,maxArgLen]
    omega
  have hon : OnPage page (alignSp ((page+1)*pageSize-(Arg.len arg+1))) (Arg.len arg+1) :=
    ⟨by omega,by omega⟩
  have hcopy := @copyOut_end pgt m arg.bytes _ _ _ hon hplace (Nat.succ_ne_zero _) hu hmax
  rw [pushArgs,findIdx_eq hend]
  dsimp only
  rw [if_neg (by omega),if_neg (by omega)]
  generalize copyOut pgt m arg.bytes (alignSp ((page+1)*pageSize-(Arg.len arg+1)))
    (Arg.len arg+1)=c at hcopy
  obtain ⟨c,r⟩ := c
  rw [show r=.panic .noMap from hcopy]

/-- The digits of a number are read as the number. -/
theorem getLE_digits {b : Buffer} {off n w : ℕ}
    (h : ∀ i,i < n → b (off+i)=UInt8.ofNat (w/256^i)) : getLE b off n=w%256^n := by
  induction n generalizing off w with
  | zero => rw [getLE,Nat.pow_zero,Nat.mod_one]
  | succ n ih =>
    have hrest : getLE b (off+1) n=w/256%256^n := ih fun i hi => by
      have hi' := h (i+1) (by omega)
      rw [Nat.add_assoc,Nat.add_comm 1 i,hi',Nat.div_div_eq_div_mul,← Nat.pow_succ']
    have hfirst := h 0 (Nat.succ_pos n)
    rw [Nat.add_zero,Nat.pow_zero,Nat.div_one] at hfirst
    have hsplit : w%256^(n+1)=w%256+256*(w/256%256^n) := by rw [Nat.pow_succ',Nat.mod_mul]
    rw [getLE,hrest,hfirst,hsplit,UInt8.toNat_ofNat']

/-- A word of the array is an address, or zero behind the last. -/
theorem wordAt_array {sp' i : ℕ} {ustack : List ℕ}
    (hbytes : ∀ j,j < wordSize → byteAt pgt m (sp'+i*wordSize+j)=ustackBytes ustack (i*wordSize+j))
    (hlt : ∀ p∈ustack,p < 2^64) : wordAt pgt m (sp'+i*wordSize)=ustack.getD i 0 := by
  have hword : ustack.getD i 0 < 256^wordSize := by
    have hpow : 256^wordSize=2^64 := by decide
    rw [List.getD_eq_getElem?_getD,hpow]
    cases hi : ustack[i]? with
    | none => exact Nat.two_pow_pos 64
    | some p => exact hlt p (List.mem_of_getElem? hi)
  rw [wordAt,getLE_digits (w:=ustack.getD i 0) fun j hj => ?_,Nat.mod_eq_of_lt hword]
  rw [Nat.zero_add,hbytes j hj,ustackBytes]
  have hdiv : (i*wordSize+j)/8=i := by
    simp only [wordSize] at hj ⊢
    omega
  have hmod : (i*wordSize+j)%8=j := by
    simp only [wordSize] at hj ⊢
    omega
  rw [hdiv,hmod]

/-- The array of the addresses is copied below the arguments. -/
theorem pushUstack_lays {argc : ℕ} {ustack : List ℕ} (hu : UserPage pgt page)
    (hmax : (page+1)*pageSize ≤ maxva) (hbase : stackBase ≤ page*pageSize) (hsp : sp%16=0)
    (hroom : page*pageSize+(argc+2)*wordSize ≤ sp) (htop : sp ≤ (page+1)*pageSize)
    (hlast : ustack.getLast?≠some 0) (hfew : sp=(page+1)*pageSize → argc=0)
    (hlt : ∀ p∈ustack,p < 2^64) :
    ∃ m' sp',pushUstack pgt m size pid stackBase sp argc ustack=.ok (m',.ok sp') ∧
      m'.heap=m.heap ∧ sp'%16=0 ∧ page*pageSize ≤ sp' ∧ sp'+(argc+1)*wordSize ≤ sp ∧
      (∀ i,i ≤ argc → wordAt pgt m' (sp'+i*wordSize)=ustack.getD i 0) ∧
      (∀ p,p≠(pgt.entryAt page).ppn → m'.data p=m.data p) ∧
      ∀ va,va/pageSize=page → sp ≤ va → byteAt pgt m' va=byteAt pgt m va := by
  have hshape : alignSp (sp-(argc+1)*wordSize)%16=0 ∧
      alignSp (sp-(argc+1)*wordSize)+(argc+1)*wordSize ≤ sp ∧
      page*pageSize ≤ alignSp (sp-(argc+1)*wordSize) ∧
      (argc=0 → alignSp (sp-(argc+1)*wordSize)+(argc+1)*wordSize < sp) := by
    simp only [alignSp,wordSize,pageSize] at hsp hroom ⊢
    omega
  obtain ⟨hal,hfit,hlow,hone⟩ := hshape
  have hlt' : alignSp (sp-(argc+1)*wordSize)+(argc+1)*wordSize < (page+1)*pageSize := by
    by_cases he : sp=(page+1)*pageSize
    · have := hone (hfew he)
      omega
    · omega
  have hon : OnPage page (alignSp (sp-(argc+1)*wordSize)) ((argc+1)*wordSize) := ⟨hlow,by omega⟩
  have hpos : (argc+1)*wordSize≠0 := by
    simp only [wordSize]
    omega
  have hcopy := @copyOut_page pgt m (ustackBytes ustack) _ _ _ hon hlt' hpos hu hmax
  refine ⟨pokes pgt m (ustackBytes ustack) (alignSp (sp-(argc+1)*wordSize)) ((argc+1)*wordSize),
    alignSp (sp-(argc+1)*wordSize),?_,pokes_heap,hal,hlow,hfit,fun i hi => ?_,
    fun p hp => pokes_other hon hp,fun va hva hge => ?_⟩
  · rw [pushUstack,if_neg hlast,if_neg (by omega),if_neg (by omega),hcopy]
  · refine wordAt_array (fun j hj => ?_) hlt
    have hin : i*wordSize+j < (argc+1)*wordSize := by
      simp only [wordSize] at hj ⊢
      omega
    rw [Nat.add_assoc,byteAt_pokes hon (hon.div hin),if_pos (by omega),Nat.add_sub_cancel_left]
  · rw [byteAt_pokes hon hva,if_neg (by omega)]

/-- The arguments and their addresses on a page that ends with the stack. -/
theorem argsAt_pushed {bottom : ℕ} (hu : UserPage pgt page) (hmax : (page+1)*pageSize ≤ maxva)
    (hpage : page≠0) (hbottom : bottom ≤ page*pageSize)
    (hend : bottom+userStackSize=(page+1)*pageSize) (hends : ∀ arg∈args,Arg.Ends arg)
    (hargc : args.length < maxArg) (hfirst : ∀ arg∈args.head?,(Arg.len arg+1)%16≠0) :
    ∃ m₁ m₂ sp,pushArgs pgt size pid bottom (args.map some) m (bottom+userStackSize) []=
        .ok (m₁,.ok (lowest (bottom+userStackSize) args,places (bottom+userStackSize) args)) ∧
      pushUstack pgt m₁ size pid bottom (lowest (bottom+userStackSize) args) args.length
        (places (bottom+userStackSize) args)=.ok (m₂,.ok sp) ∧ m₂.heap=m.heap ∧
      (∀ p,p≠(pgt.entryAt page).ppn → m₂.data p=m.data p) ∧ page*pageSize ≤ sp ∧
      ArgsAt pgt m₂ bottom args sp (places (bottom+userStackSize) args) := by
  rw [hend]
  have hal : (page+1)*pageSize%16=0 := by
    simp only [pageSize]
    omega
  have hroom := stack_room hargc
  have hwide : page*pageSize+args.length*maxArgLen+(args.length+2)*wordSize ≤
      (page+1)*pageSize := by
    simp only [maxArg,maxArgLen,wordSize,pageSize] at hargc ⊢
    omega
  obtain ⟨m₁,hr₁,hheap₁,hbytes₁,hother₁,-⟩ := @pushArgs_lays pgt m page size pid _ _ args hu hmax
    hbottom hends hal (by omega) (le_refl _) (fun arg ha _ => hfirst arg ha) []
  obtain ⟨hal',hle,hge,hblocks,hpair⟩ := places_spec hends hal (by omega)
  have hone : ∀ p∈places ((page+1)*pageSize) args,
      lowest ((page+1)*pageSize) args ≤ p ∧ p < (page+1)*pageSize := by
    intro p hp
    obtain ⟨i,hi,rfl⟩ := List.getElem_of_mem hp
    have hi' : i < args.length := by rwa [places_length] at hi
    have hb := hblocks ((places ((page+1)*pageSize) args)[i],Arg.len args[i]+1) (by
      rw [List.mem_iff_getElem]
      refine ⟨i,?_,?_⟩
      · rw [List.length_zipWith]
        omega
      · rw [List.getElem_zipWith])
    exact ⟨hb.1,by have := hb.2; dsimp only at this; omega⟩
  have hpos : 0 < page*pageSize := Nat.mul_pos (Nat.pos_of_ne_zero hpage) (by decide)
  have hlow : page*pageSize+(args.length+2)*wordSize ≤ lowest ((page+1)*pageSize) args := by omega
  have hlast : (places ((page+1)*pageSize) args).getLast?≠some 0 := fun he => by
    have := (hone 0 (List.mem_of_getLast? he)).1
    omega
  have hfew : lowest ((page+1)*pageSize) args=(page+1)*pageSize → args.length=0 := by
    intro he
    by_contra hne
    have hlen : 0 < (places ((page+1)*pageSize) args).length := by
      rw [places_length]
      omega
    have hb := hone _ (List.getElem_mem hlen)
    omega
  have hword : ∀ p∈places ((page+1)*pageSize) args,p < 2^64 := fun p hp => by
    have := (hone p hp).2
    simp only [maxva] at hmax
    omega
  obtain ⟨m₂,sp,hr₂,hheap₂,hsp,hsplow,hspfit,harray,hother₂,hkeep⟩ := @pushUstack_lays pgt m₁ page
    size pid _ _ _ _ hu hmax hbottom hal' hlow hle hlast hfew hword
  refine ⟨m₁,m₂,sp,hr₁,hr₂,hheap₂.trans hheap₁,
    fun p hp => (hother₂ p hp).trans (hother₁ p hp),hsplow,places_length _ _,harray,?_,?_,?_,?_,
    hsp⟩
  · intro p arg hp j hj
    rw [← hbytes₁ p arg hp j hj]
    have hp' := hblocks (p,Arg.len arg+1) (by
      rw [← List.map_uncurry_zip_eq_zipWith]
      exact List.mem_map.mpr ⟨(p,arg),hp,rfl⟩)
    dsimp only at hp'
    refine hkeep _ ?_ (by omega)
    simp only [pageSize] at hlow hp' ⊢
    omega
  · refine List.pairwise_cons.mpr ⟨fun b hb => .inl ?_,hpair.imp fun h => .inr h⟩
    have := (hblocks b hb).1
    show sp+(args.length+1)*wordSize ≤ b.1
    omega
  · intro b hb
    obtain rfl | hb := List.mem_cons.mp hb
    · dsimp only
      omega
    · have := hblocks b hb
      omega
  · intro b hb
    obtain rfl | hb := List.mem_cons.mp hb
    · exact le_refl _
    · have := (hblocks b hb).1
      omega

end Pushing

/-- The file is a program, and its segments end at an address. -/
structure Program (f : File) (elf : ElfHeader) (size : ℕ) : Prop where
  /-- It has a header. -/
  header : f.elfHeader=some elf
  /-- The magic number is right. -/
  magic : elf.magic=elfMagic
  /-- The program headers and the segments are as they should be. -/
  segments : imageSize f elf.phnum 0 (elf.phoff%2^32)=some size

/-- The `tid` that a process gets when it has dropped its task. -/
def newTid (s : State) : ℕ :=
  match s.data.tasks with
  | [] => s.tids.tidAlloc.1
  | task::_ => task.tid

/-- A process, as the system calls leave it. -/
structure Sane (s : State) : Prop where
  /-- Its page table has leaves only. -/
  leaves : ∀ q,q < pages → NoTable s.data.pagetable q
  /-- It has one task at most. -/
  single : s.data.tasks.length ≤ 1
  /-- The `tid` of the task is in use. -/
  used : ∀ task∈s.data.tasks,task.tid < s.tids.current ∧ task.tid∉s.tids.recycled
  /-- There are not more tasks than processes. -/
  tid : newTid s < nproc
  /-- Every free page is there once. -/
  nodup : s.mem.heap.Nodup
  /-- The free pages are in physical memory. -/
  physical : ∀ ppn∈s.mem.heap,ppn < KernelStacks.physTop/pageSize

/-- Memory behind pages of the user and the stacks. -/
def behind (s : State) (n : ℕ) : Mem :=
  {s.mem with heap := s.mem.heap.drop (need s.pid (n+stackPages))}

/-- Behind pages of the user and the stacks there is memory for the task. -/
structure TaskFits (s : State) (n : ℕ) : Prop where
  /-- The kernel stack. -/
  stack : StackFits s.kernel (behind s n) (newTid s) s.block
  /-- The page of the trap frame, with the tables for it. -/
  frame : need s.pid (n+stackPages)+4+stackTables s.kernel (newTid s)+1+
    missing fan (treeOf (laidPages s.pid (n+stackPages))) (taskPage (newTid s)) ≤ s.mem.heap.length
  /-- The `Arc` of the task, and its place in the vector. -/
  small : s.small=true

/-- There is memory for a program: its segments, the stacks and the tables, and its task. -/
structure Memory (s : State) (size : ℕ) : Prop where
  /-- The pages of the user. -/
  room : Room s.pid (pageCount size+stackPages) s.mem.heap.length
  /-- The task. -/
  task : TaskFits s (pageCount size)

section Guards

variable {pgt : PageTable} {n k : ℕ}

/-- A page below the stacks of the last tasks, of which there are so many, that is a guard. -/
def IsGuard (n k q : ℕ) : Prop := n+stackPages ≤ q+k*5 ∧ q < n+stackPages ∧ (n+stackPages-q)%5=0

instance (n k q : ℕ) : Decidable (IsGuard n k q) := inferInstanceAs (Decidable (_ ∧ _))

/-- `uvm_clear` takes the guards from the user and changes nothing else. -/
theorem clearGuards_pages {t : Table Pte 2} (hshape : SameShape pgt.root t)
    (hvalid : ∀ q,q < n+stackPages → (pgt.entryAt q).isValid=true)
    (hmax : (n+stackPages)*pageSize ≤ maxva) (hk : k ≤ maxTasksPerProc) :
    ∃ u,clearGuards pgt ((n+stackPages)*pageSize) k=.ok u ∧ SameShape u.root t ∧
      ∀ q,q < pages →
        u.entryAt q=if IsGuard n k q then (pgt.entryAt q).clearUser else pgt.entryAt q := by
  have hpages : pages=134217728 := by decide
  have hstack : stackPages=320 := by decide
  induction k with
  | zero =>
    refine ⟨pgt,rfl,hshape,fun q _ => ?_⟩
    rw [if_neg fun hg => by have := hg.1; have := hg.2.1; omega]
  | succ k ih =>
    obtain ⟨u,hr,hshape,hentry⟩ := ih (by omega)
    have htasks : maxTasksPerProc=64 := rfl
    have hguard : (n+stackPages)*pageSize-(k+1)*(userStackSize+pageSize)=
        (n+stackPages-(k+1)*5)*pageSize := by
      simp only [userStackSize,pageSize]
      omega
    have hlt : n+stackPages-(k+1)*5 < pages := by
      simp only [pageSize,maxva] at hmax
      omega
    have hpage : u.entryAt (n+stackPages-(k+1)*5)=pgt.entryAt (n+stackPages-(k+1)*5) := by
      rw [hentry _ hlt,if_neg fun hg => by have := hg.1; omega]
    have hv : (u.entryAt (n+stackPages-(k+1)*5)).isValid=true := by
      rw [hpage]
      exact hvalid _ (by omega)
    have hfind := find_of_valid hv
    have hle : ¬(n+stackPages-(k+1)*5)*pageSize > maxva := by
      simp only [pageSize] at hmax ⊢
      omega
    refine ⟨u.setPte ((n+stackPages-(k+1)*5)*pageSize) (u.entryAt (n+stackPages-(k+1)*5)).clearUser,
      ?_,hshape.set _ _,fun q hq => ?_⟩
    · rw [clearGuards,hr,ok_bind,hguard,uvmClear,if_neg hle,findPte_eq,hfind]
    · rw [entryAt_setPte hfind,Nat.mod_eq_of_lt hq,Nat.mod_eq_of_lt hlt]
      by_cases e : q=n+stackPages-(k+1)*5
      · rw [if_pos e,hpage,← e,if_pos ⟨by omega,by omega,by omega⟩]
      · rw [if_neg e,hentry q hq]
        have hiff : IsGuard n (k+1) q ↔ IsGuard n k q := by
          simp only [IsGuard]
          omega
        simp only [hiff]

end Guards

section Image

variable {s : State} {f : File} {elf : ElfHeader} {size : ℕ}

/-- A program is read where its segments find room. -/
theorem loadImage_fits (hprog : Program f elf size)
    (hroom : Room s.pid (pageCount size) s.mem.heap.length) :
    ∃ pgt m,ElfLoad.loadImage s (some f)=.ok (s.after m,.ok (elf,pgt,size)) ∧
      Built s.mem s.pid (pageCount size) pgt m := by
  rw [ElfLoad.loadImage,hprog.header]
  dsimp only
  rw [if_neg (not_not.mpr hprog.magic)]
  obtain ⟨m,r,halloc,-⟩ | ⟨hno,-⟩ := allocProcPagetable_laid s.mem s.trampolinePage
    s.data.trapframe s.data.up s.pid
  swap
  · exact absurd hroom.fits hno
  obtain ⟨pgt,rfl,hb⟩ | ⟨-,-,hno⟩ := allocProcPagetable_built halloc
  swap
  · exact absurd (hroom.mono (Nat.zero_le _)) hno
  have hzero : pageCount 0=0 := by decide
  rw [← hzero] at hb
  rw [halloc]
  dsimp only
  obtain ⟨w,u,size',hr,hsize,hbw⟩ | ⟨-,hno⟩ :=
    @loadSegments_spec s.mem m s.pid elf.phnum pgt f (elf.phoff%2^32) 0 hb
  · rw [hprog.segments] at hsize
    cases hsize
    rw [hr]
    exact ⟨u,w,rfl,hbw⟩
  · exact absurd hroom (hno size hprog.segments)

end Image

section Stack

variable {m0 m : Mem} {pgt : PageTable} {pid n size : ℕ} {args : List Arg}

/-- The page table with the stacks: the guards are not the user's, and otherwise it is as
`uvm_alloc` left it. -/
structure Guarded (pid n : ℕ) (u v : PageTable) : Prop where
  /-- The tables. -/
  shape : SameShape u.root (treeOf (laidPages pid (n+stackPages)))
  /-- The entries. -/
  entry : ∀ q,q < pages → u.entryAt q=
    if IsGuard n maxTasksPerProc q then (v.entryAt q).clearUser else v.entryAt q

theorem stackBottom (n : ℕ) : ustackBottomByPos (n*pageSize) 1=(n+1)*pageSize ∧
    ustackBottomByPos (n*pageSize) 1+userStackSize=(n+5)*pageSize := by
  simp only [ustackBottomByPos,userStackSize,pageSize]
  omega

/-- The last page of the first stack is the user's, and the next page is not. -/
theorem Guarded.stackTop {u v : PageTable} (h : Guarded pid n u v)
    (hb : Built m0 pid (n+stackPages) v m) :
    UserPage u (n+4) ∧ ¬UserPage u (n+4+1) ∧ ¬UserPage u n := by
  have hstack : stackPages=320 := by decide
  have htasks : maxTasksPerProc=64 := rfl
  have hpages : pages=134217728 := by decide
  have hbound := hb.room.bound
  have hlt : n+stackPages < pages := by
    simp only [pageSize,maxva] at hbound
    omega
  refine ⟨?_,fun hu => ?_,fun hu => ?_⟩
  · rw [UserPage,h.entry _ (by omega),if_neg fun hg => by have := hg.2.2; omega]
    exact hb.user _ (by omega)
  · rw [UserPage,h.entry _ (by omega),if_pos ⟨by omega,by omega,by omega⟩,clearUser_isUser] at hu
    cases hu.2
  · rw [UserPage,h.entry _ (by omega),if_pos ⟨by omega,by omega,by omega⟩,clearUser_isUser] at hu
    cases hu.2

/-- With room for the stacks the arguments are put on the first one, unless one of them ends with
it. -/
theorem loadStack_lays (hb : Built m0 pid n pgt m)
    (hroom : Room pid (n+stackPages) m0.heap.length) (hends : ∀ arg∈args,Arg.Ends arg)
    (hargc : args.length < maxArg) :
    ((∀ arg∈args.head?,(Arg.len arg+1)%16≠0) ∧
      ∃ v w u m₂ sp ps,
        pgt.uvmAlloc m (n*pageSize) ((n+stackPages)*pageSize)=
          .ok (v,w,some ((n+stackPages)*pageSize)) ∧
        Built m0 pid (n+stackPages) v w ∧ Guarded pid n u v ∧ m₂.heap=w.heap ∧
        (∀ p,p≠(u.entryAt (n+4)).ppn → m₂.data p=w.data p) ∧
        loadStack pgt m (n*pageSize) pid (args.map some)=
          .ok (m₂,.ok (u,(n+stackPages)*pageSize,sp)) ∧
        (n+4)*pageSize ≤ sp ∧
        ArgsAt u m₂ (ustackBottomByPos (n*pageSize) 1) args sp ps) ∨
    ((∃ arg∈args.head?,(Arg.len arg+1)%16=0) ∧
      loadStack pgt m (n*pageSize) pid (args.map some)=.error (.copy .noMap)) := by
  have hbound := hroom.bound
  have hover : ¬(n+stackPages)*pageSize ≥ 2^64 := by
    simp only [maxva] at hbound
    omega
  have hstack : stackPages=320 := by decide
  have hmax : max (n*pageSize) ((n+stackPages)*pageSize)=(n+stackPages)*pageSize :=
    max_eq_right (Nat.mul_le_mul_right _ (Nat.le_add_right ..))
  obtain ⟨v,w,r,hr,hres⟩ := hb.alloc (pageCount_pages n) ((n+stackPages)*pageSize)
  rw [hmax,pageCount_pages] at hres
  obtain ⟨rfl,hbw⟩ | ⟨-,-,hno⟩ := hres
  swap
  · exact absurd hroom hno
  obtain ⟨u,hclear,hshape,hentry⟩ := clearGuards_pages (n:=n) hbw.laid.shape
    (fun q hq => (hbw.user q hq).1) (by omega) (le_refl _)
  have hg : Guarded pid n u v := ⟨hshape,hentry⟩
  obtain ⟨htop,hnext,-⟩ := hg.stackTop hbw
  obtain ⟨hbot,hend⟩ := stackBottom n
  have hpage : (n+4+1)*pageSize ≤ maxva := by
    simp only [pageSize] at hbound ⊢
    omega
  have hlow : ustackBottomByPos (n*pageSize) 1 ≤ (n+4)*pageSize := by
    rw [hbot]
    exact Nat.mul_le_mul_right _ (by omega)
  have hfill : loadStack pgt m (n*pageSize) pid (args.map some)=
      fillStack v w (n*pageSize) ((n+stackPages)*pageSize) pid (args.map some) := by
    rw [loadStack,stackPages_eq,← Nat.add_mul,if_neg hover,hr]
  rw [hfill,fillStack,hclear,List.length_map]
  dsimp only [Except.mapError]
  rw [ok_bind,if_neg (not_le.mpr hargc)]
  by_cases hfirst : ∀ arg∈args.head?,(Arg.len arg+1)%16≠0
  · obtain ⟨m₁,m₂,sp,hpush,hlast,hheap,hother,hsp,hat⟩ := @argsAt_pushed u w _
      ((n+stackPages)*pageSize) pid args _ htop hpage (by omega) hlow hend hends hargc hfirst
    refine .inl ⟨hfirst,v,w,u,m₂,sp,_,hr,hbw,hg,hheap,hother,?_,hsp,hat⟩
    rw [hpush]
    dsimp only
    rw [hlast]
  · obtain ⟨arg,harg,hlen⟩ : ∃ arg∈args.head?,(Arg.len arg+1)%16=0 := by
      by_contra hno
      exact hfirst fun arg ha he => hno ⟨arg,ha,he⟩
    refine .inr ⟨⟨arg,harg,hlen⟩,?_⟩
    cases args with
    | nil => cases harg
    | cons a args =>
      cases harg
      have hstop := @pushArgs_end u w _ ((n+stackPages)*pageSize) pid _ args _
        hnext hpage hlow (hends arg (List.mem_cons_self ..)) hlen []
      rw [List.map_cons,hend,hstop]

end Stack

section Commit

variable {s : State} {m : Mem} {pgt : PageTable} {pid size tid : ℕ}

theorem tidFits (h : tid < nproc) : TidFits tid := by
  simp only [nproc] at h
  simp only [TidFits,nproc,trapframe,trampoline,maxva,pageSize]
  omega

/-- The page of a task is far above what physical memory can fill, and no page of the kernel that
every process has. -/
theorem taskPage_bound (h : tid < nproc) :
    KernelStacks.physTop/pageSize ≤ taskPage tid ∧ taskPage tid < pages ∧
      taskPage tid*pageSize+pageSize ≤ maxva := by
  have hpages : pages=134217728 := by decide
  simp only [nproc] at h
  simp only [hpages,taskPage,trapframeFromTid,KernelStacks.physTop,nproc,trapframe,trampoline,maxva,
    pageSize]
  omega

theorem taskPage_not_kernel (h : tid < nproc) (hfits : PidFits pid) :
    taskPage tid∉kernelPages pid := by
  simp only [nproc] at h
  simp only [PidFits,trapframe,trampoline,maxva,pageSize] at hfits
  simp only [kernelPages,Finset.mem_insert,Finset.mem_singleton,usyscallPage,usyscall,taskPage,
    trapframeFromPid,trapframeFromTid,nproc,trapframe,trampoline,maxva,pageSize]
  omega

/-- The task of the process is dropped, and its `tid` is the next to be given out. -/
theorem dropTasks_fits (h : Sane s) (m : Mem) :
    ∃ old tids,dropTasks s.data.pagetable m s.tids s.data.tasks.reverse=.ok (old,m,tids) ∧
      (∀ q,q < pages → NoTable old q) ∧ tids.tidAlloc.1=newTid s := by
  have hsingle := h.single
  have hused := h.used
  have htid := h.tid
  rw [newTid] at htid ⊢
  cases htasks : s.data.tasks with
  | nil => exact ⟨_,_,rfl,h.leaves,rfl⟩
  | cons task rest =>
    rw [htasks,List.length_cons] at hsingle
    obtain rfl : rest=[] := List.length_eq_zero_iff.mp (by omega)
    rw [htasks] at htid hused
    have hfits : TidFits task.tid := tidFits htid
    obtain ⟨-,hlt,hbound⟩ := taskPage_bound htid
    have hunmap := @uvmUnmap_keep s.data.pagetable m (taskPage task.tid) (by
      simp only [maxva] at hbound
      omega)
    rw [trapframeFromTid_aligned hfits] at hunmap
    obtain ⟨hr,-⟩ | ⟨-,hno⟩ := hunmap
    · refine ⟨clearPage s.data.pagetable (taskPage task.tid),
        ⟨s.tids.current,task.tid::s.tids.recycled⟩,?_,
        fun q hq => noTable_clearPage (h.leaves q hq) _,rfl⟩
      rw [List.reverse_singleton,dropTasks,hr]
      dsimp only [Except.mapError]
      rw [ok_bind,RecycleAllocator.tidDealloc,if_pos (hused task (List.mem_singleton_self _))]
      rfl
    · exact absurd (h.leaves _ hlt) hno

/-- A page table that has leaves only is taken apart unless its size is rounded up too far. -/
theorem discard_leaves (h : ∀ q,q < pages → NoTable pgt q) (hfits : PidFits pid) :
    (size+(pageSize-1) < 2^64 ∧ ∃ m',UserMemory.discard pgt m size pid=.ok m' ∧ m'.data=m.data) ∨
      (¬size+(pageSize-1) < 2^64 ∧ UserMemory.discard pgt m size pid=.error .overflow) := by
  have hl : KernelLeaves pgt pid := ⟨h _ trampolinePage_lt,
    noTable_clearPage (h _ (trapframePage_lt pid)) _,
    noTable_clearPage (noTable_clearPage (h _ usyscallPage_lt) _) _⟩
  obtain ⟨-,-,he⟩ | ⟨hno,-⟩ := deallocProcPagetable_eq pgt m size pid
  swap
  · exact absurd ⟨hfits,hl⟩ hno
  rw [UserMemory.discard,he]
  by_cases hsize : size > 0
  · rw [if_pos hsize]
    by_cases hover : size+(pageSize-1) ≥ 2^64
    · rw [if_pos hover]
      exact .inr ⟨by omega,rfl⟩
    · refine .inl ⟨by omega,?_⟩
      have hend : ¬0+pageSize*(pgRoundUp size/pageSize) ≥ 2^64 := by
        simp only [pgRoundUp,pageSize] at hover ⊢
        omega
      rw [if_neg hover,uvmUnmap,if_neg (by decide),if_neg hend]
      obtain ⟨k,v,-,-,-,hr⟩ | ⟨k,-,hk,-,hv,hleaf,-⟩ :=
        unmapLoop_cases (withoutKernelPages pgt pid) m 0 (pgRoundUp size/pageSize)
      · rw [Nat.zero_mul] at hr
        rw [hr]
        exact ⟨_,rfl,rfl⟩
      · rw [Nat.zero_add] at hv hleaf
        have hno : NoTable (withoutKernelPages pgt pid) k :=
          noTable_clearPage (noTable_clearPage (noTable_clearPage (h k hk) _) _) _
        rw [hno hv] at hleaf
        cases hleaf
  · rw [if_neg hsize]
    simp only [pageSize]
    exact .inl ⟨by omega,_,rfl,rfl⟩

/-- The new task has its page in the new page table, where there is memory for it; the other pages
are as before. -/
theorem newTask_fits {m0 w : Mem} {n : ℕ} {u v : PageTable} (hb : Built m0 pid (n+stackPages) v w)
    (hg : Guarded pid n u v) (htid : tid < nproc) (hlow : n+stackPages ≤ taskPage tid) {k : ℕ}
    (hk : k=missing fan (treeOf (laidPages pid (n+stackPages))) (taskPage tid)) (m : Mem) :
    (k < m.heap.length ∧ ∃ u' m' task,newTask u m tid=.ok (u',m',task) ∧
        (∀ q,q < n+stackPages → u'.entryAt q=u.entryAt q) ∧ ∀ p,p∉m.heap → m'.data p=m.data p) ∨
    (¬k < m.heap.length ∧ ∃ e,newTask u m tid=.error e) := by
  have hfits := tidFits htid
  obtain ⟨-,hlt,hbound⟩ := taskPage_bound htid
  have hmissing : u.lacking (taskPage tid)=k := by
    rw [hk]
    exact hg.shape.missing_eq _
  have hout : taskPage tid∉laidPages pid (n+stackPages) := fun hin => by
    obtain hq | hq := mem_laidPages.mp hin
    · omega
    · exact taskPage_not_kernel htid hb.room.fits hq
  have hguard : ¬IsGuard n maxTasksPerProc (taskPage tid) := fun hq => by
    have := hq.2.1
    omega
  have hbare : ¬(u.entryAt (taskPage tid)).isValid=true := by
    rw [hg.entry _ hlt,if_neg hguard]
    exact hb.laid.bare _ hlt hout
  rw [newTask]
  cases hm : m.heap with
  | nil => exact .inr ⟨Nat.not_lt_zero k,_,rfl⟩
  | cons ppn heap =>
    rw [List.length_cons]
    dsimp only
    rw [if_neg (not_not.mpr hfits)]
    have hlen : (m.zeroed heap ppn).heap.length=heap.length := rfl
    have hmap := mapPages_page u (m.zeroed heap ppn) (taskPage tid) ppn (flagR|||flagW)
    rw [if_neg (by simp only [maxva] at hbound; omega),if_neg (by omega),hmissing,hlen,
      trapframeFromTid_aligned hfits] at hmap
    by_cases hfew : k > heap.length
    · rw [if_pos hfew] at hmap
      rw [hmap]
      exact .inr ⟨by omega,_,rfl⟩
    · rw [if_neg hfew,if_neg hbare] at hmap
      rw [hmap]
      refine .inl ⟨by omega,_,_,_,rfl,fun q hq => ?_,fun p hp => ?_⟩
      · rw [entryAt_mapped (by rw [hmissing,hlen]; omega),if_neg]
        rw [Nat.mod_eq_of_lt hlt,Nat.mod_eq_of_lt (by omega)]
        omega
      · have hne : p≠ppn := fun e => hp (by rw [e]; exact List.mem_cons_self ..)
        exact Function.update_of_ne hne ..

/-- A task is created where there is memory for its kernel stack and its page. -/
theorem createTask_fits {m0 w : Mem} {n : ℕ} {u v : PageTable} {tids : RecycleAllocator}
    {kernel : KernelTable} {base : ℕ} (hb : Built m0 pid (n+stackPages) v w)
    (hg : Guarded pid n u v) (hheap : m.heap=w.heap) (hnd : m.heap.Nodup)
    (htid : tids.tidAlloc.1 < nproc) (hlow : n+stackPages ≤ taskPage tids.tidAlloc.1) {k : ℕ}
    (hk : k=missing fan (treeOf (laidPages pid (n+stackPages))) (taskPage tids.tidAlloc.1)) :
    ((StackFits kernel m tids.tidAlloc.1 base ∧
        need pid (n+stackPages)+4+stackTables kernel tids.tidAlloc.1+1+k ≤ m0.heap.length) ∧
      ∃ r,createTask u m tids kernel base=.ok r ∧
        (∀ q,q < n+stackPages → r.pgt.entryAt q=u.entryAt q) ∧ ∀ p,p∉m.heap → r.mem.data p=m.data p) ∨
    (¬(StackFits kernel m tids.tidAlloc.1 base ∧
        need pid (n+stackPages)+4+stackTables kernel tids.tidAlloc.1+1+k ≤ m0.heap.length) ∧
      ∃ e,createTask u m tids kernel base=.error e) := by
  have htaken := hb.taken
  rw [← hheap] at htaken
  rw [createTask]
  obtain ⟨hstack,kernel',m₁,hr,ht⟩ | ⟨hno,e,hr⟩ :=
    @kstackAlloc_cases kernel m tids.tidAlloc.1 base hnd
  swap
  · rw [hr]
    exact .inr ⟨fun h => hno h.1,_,rfl⟩
  rw [hr]
  dsimp only [Except.mapError]
  rw [ok_bind]
  have hlength := ht.length
  obtain ⟨hfree,u',m₂,task,hr₂,hentry,hdata⟩ | ⟨hfew,e,hr₂⟩ := newTask_fits hb hg htid hlow hk m₁
  · rw [hr₂]
    refine .inl ⟨⟨hstack,by omega⟩,_,rfl,hentry,fun p hp => ?_⟩
    exact (hdata p fun h => hp (ht.free p h)).trans (ht.data p hp)
  · rw [hr₂]
    exact .inr ⟨fun h => hfew (by have := h.2; omega),_,rfl⟩

end Commit

section Whole

variable {namei : List UInt8 → Option File} {s : State} {path : List UInt8} {args : List Arg}
  {f : File} {elf : ElfHeader} {size : ℕ}

/-- Every page that was free is still there once. -/
theorem pool_nodup {m0 m : Mem} {pgt : PageTable} {pid n : ℕ} (h : Built m0 pid n pgt m)
    (hnd : m0.heap.Nodup) : (PageEffects.pool (kernelPages pid) pgt m).Nodup := by
  rw [h.pool]
  exact hnd

theorem heap_nodup {m0 m : Mem} {pgt : PageTable} {pid n : ℕ} (h : Built m0 pid n pgt m)
    (hnd : m0.heap.Nodup) : m.heap.Nodup := by
  have hnodup := pool_nodup h hnd
  rw [PageEffects.pool,Multiset.nodup_add,Multiset.nodup_add] at hnodup
  exact hnodup.1.1

/-- Pages of the user are not free. -/
theorem user_not_free {m0 m : Mem} {pgt : PageTable} {pid n q : ℕ} (h : Built m0 pid n pgt m)
    (hnd : m0.heap.Nodup) (hq : q < n) : (pgt.entryAt q).ppn∉m.heap := by
  have hnodup := pool_nodup h hnd
  rw [PageEffects.pool,Multiset.nodup_add] at hnodup
  have hlow := h.room.below _ (trapframePage_mem pid)
  have hlt := trapframePage_lt pid
  have hmem : (pgt.entryAt q).ppn∈leaves (kernelPages pid) pgt := mem_leaves (by omega)
    (fun hk => by have := h.room.below q hk; omega) (h.user q hq).1
  intro hin
  exact Multiset.disjoint_left.mp hnodup.2.2 (Multiset.mem_add.mpr (.inl hin)) hmem

/-- The bytes of the stack's last page are what the arguments depend on. -/
theorem ArgsAt.congr {u u' : PageTable} {m m' : Mem} {n sp : ℕ} {ps : List ℕ}
    (h : ArgsAt u m (ustackBottomByPos (n*pageSize) 1) args sp ps) (hsp : (n+4)*pageSize ≤ sp)
    (hbyte : ∀ va,va/pageSize=n+4 → byteAt u' m' va=byteAt u m va) :
    ArgsAt u' m' (ustackBottomByPos (n*pageSize) 1) args sp ps := by
  have hpage : ∀ b∈blocks args sp ps,∀ j,j < b.2 → (b.1+j)/pageSize=n+4 := by
    intro b hb j hj
    have hle := h.below b hb
    have hin := (h.inside b hb).2
    rw [(stackBottom n).2] at hin
    simp only [pageSize] at hsp hin ⊢
    omega
  refine ⟨h.count,fun i hi => ?_,fun p arg hp j hj => ?_,h.apart,h.inside,h.below,h.aligned⟩
  · rw [← h.array i hi,wordAt,wordAt]
    refine getLE_congr fun j _ hj => hbyte _ ?_
    rw [Nat.add_assoc]
    refine hpage _ (List.mem_cons_self ..) _ ?_
    simp only [wordSize] at hj ⊢
    omega
  · rw [← h.copies p arg hp j hj]
    refine hbyte _ (hpage (p,Arg.len arg+1) (List.mem_cons_of_mem _ ?_) j (by dsimp only; omega))
    rw [← List.map_uncurry_zip_eq_zipWith]
    exact List.mem_map.mpr ⟨(p,arg),hp,rfl⟩

/-- The heap has no more pages than physical memory. -/
theorem Sane.heap_le (h : Sane s) : s.mem.heap.length ≤ KernelStacks.physTop/pageSize := by
  rw [← List.toFinset_card_of_nodup h.nodup,← Finset.card_range (KernelStacks.physTop/pageSize)]
  refine Finset.card_le_card fun ppn hp => Finset.mem_range.mpr (h.physical ppn ?_)
  exact List.mem_toFinset.mp hp

/-- The program has its arguments: the argument pointer is the stack pointer, the page below the
stack is not the user's, and the arguments are on the stack. -/
def LaidOut (t : State) (args : List Arg) : Prop :=
  t.data.regs.a1=t.data.regs.sp ∧ ¬UserPage t.data.pagetable (t.data.ustackBase/pageSize) ∧
    ∃ ps,ArgsAt t.data.pagetable t.mem (ustackBottomByPos t.data.ustackBase 1) args
      t.data.regs.sp ps

/-- What a process has of the page table that takes the place of the old one: its user pages, and
what they hold, are as they were. -/
structure Committed (t : State) (u : PageTable) (m : Mem) (n sp : ℕ) : Prop where
  /-- The argument pointer is the stack pointer. -/
  a1 : t.data.regs.a1=sp
  /-- The stack pointer. -/
  sp : t.data.regs.sp=sp
  /-- The stacks begin behind the segments. -/
  base : t.data.ustackBase=n*pageSize
  /-- The entries. -/
  entry : ∀ q,q < n+stackPages → t.data.pagetable.entryAt q=u.entryAt q
  /-- What is behind them. -/
  data : ∀ q,q < n+stackPages → t.mem.data (u.entryAt q).ppn=m.data (u.entryAt q).ppn

theorem Committed.byteAt {t : State} {u : PageTable} {m : Mem} {n sp va : ℕ}
    (h : Committed t u m n sp) (hva : va/pageSize < n+stackPages) :
    UserBytes.byteAt t.data.pagetable t.mem va=UserBytes.byteAt u m va := by
  have hppn : ppnAt t.data.pagetable va=ppnAt u va := by rw [ppnAt,ppnAt,h.entry _ hva]
  rw [UserBytes.byteAt,UserBytes.byteAt,hppn]
  exact congrFun (h.data _ hva) _

/-- Guards are on the same physical pages as before. -/
theorem Guarded.ppn {u v : PageTable} {pid n q : ℕ} (h : Guarded pid n u v) (hq : q < pages) :
    (u.entryAt q).ppn=(v.entryAt q).ppn := by
  rw [h.entry q hq]
  split
  · rfl
  · rfl

/-- The page table takes the place of the old one, unless there is no memory for the task, or the
size of the old one is rounded up too far. -/
theorem commit_fits {n sp : ℕ} {u v : PageTable} {m w : Mem} (hsane : Sane s) (hpath : 0∈path)
    (hb : Built s.mem s.pid (n+stackPages) v w) (hg : Guarded s.pid n u v) (hheap : m.heap=w.heap)
    (log : List LogCall) (entry : ℕ) :
    ((TaskFits s n ∧ s.data.size+(pageSize-1) < 2^64) ∧
      ∃ t,commit {s with mem := m,log := log,data := {s.data with ustackBase := n*pageSize}} path
        entry u ((n+stackPages)*pageSize) sp=.ok t ∧ Committed t u m n sp) ∨
    (¬(TaskFits s n ∧ s.data.size+(pageSize-1) < 2^64) ∧
      ∃ why,commit {s with mem := m,log := log,data := {s.data with ustackBase := n*pageSize}} path
        entry u ((n+stackPages)*pageSize) sp=.error why) := by
  obtain ⟨off,hoff⟩ : ∃ off,path.findIdx? (· ≠ 47)=some off := by
    cases hf : path.findIdx? (· ≠ 47) with
    | some off => exact ⟨off,rfl⟩
    | none =>
      have hno := List.findIdx?_eq_none_iff.mp hf 0 hpath
      exact absurd hno (by decide)
  obtain ⟨old,tids,hdrop,hleaves,htid⟩ := dropTasks_fits hsane m
  have hphys := hsane.heap_le
  have henough := hb.room.enough
  have hbound := hb.room.bound
  have hpages : pages=134217728 := by decide
  have hpagelt : n+stackPages < pages := by
    simp only [pageSize,maxva] at hbound
    omega
  have hlt : tids.tidAlloc.1 < nproc := by
    rw [htid]
    exact hsane.tid
  have hlow : n+stackPages ≤ taskPage tids.tidAlloc.1 := by
    have hpage := (taskPage_bound hlt).1
    rw [need] at henough
    omega
  rw [commit,hoff]
  dsimp only
  rw [hdrop]
  dsimp only
  have hcongr : StackFits s.kernel m (newTid s) s.block ↔
      StackFits s.kernel (behind s n) (newTid s) s.block :=
    StackFits.congr (hheap.trans hb.heap)
  have hcreate := @createTask_fits m s.pid s.mem w n u v tids s.kernel s.block hb hg hheap
    (hheap ▸ heap_nodup hb hsane.nodup) hlt hlow _ rfl
  rw [htid,hcongr] at hcreate
  obtain ⟨hroom,r,hcreate,hentry,hdata⟩ | ⟨hroom,e,hcreate⟩ := hcreate
  swap
  · rw [hcreate]
    exact .inr ⟨fun hfits => hroom ⟨hfits.1.stack,hfits.1.frame⟩,_,rfl⟩
  rw [hcreate]
  dsimp only
  by_cases hsmall : s.small=true
  swap
  · rw [if_pos (Bool.eq_false_iff.mpr hsmall)]
    exact .inr ⟨fun hfits => hsmall hfits.1.small,_,rfl⟩
  rw [if_neg (by rw [hsmall]; decide)]
  obtain ⟨hover,m'',hdiscard,hsame⟩ | ⟨hover,hdiscard⟩ :=
    @discard_leaves r.mem old s.pid s.data.size hleaves hb.room.fits
  · rw [hdiscard]
    refine .inl ⟨⟨⟨hroom.1,hroom.2,hsmall⟩,hover⟩,_,rfl,rfl,rfl,rfl,hentry,fun q hq => ?_⟩
    have hfree : (u.entryAt q).ppn∉m.heap := by
      rw [hg.ppn (by omega),hheap]
      exact user_not_free hb hsane.nodup hq
    exact (congrFun hsame _).trans (hdata _ hfree)
  · rw [hdiscard]
    exact .inr ⟨fun hfits => hover hfits.2,_,rfl⟩

/-- The arguments stay on the stack. -/
theorem Committed.laidOut {t : State} {n sp : ℕ} {m w : Mem} {u v : PageTable} {ps : List ℕ}
    (h : Committed t u m n sp) (hb : Built s.mem s.pid (n+stackPages) v w)
    (hg : Guarded s.pid n u v) (hsp : (n+4)*pageSize ≤ sp)
    (hat : ArgsAt u m (ustackBottomByPos (n*pageSize) 1) args sp ps) : LaidOut t args := by
  have hstack : stackPages=320 := by decide
  refine ⟨h.a1.trans h.sp.symm,fun hu => ?_,ps,?_⟩
  · rw [h.base,Nat.mul_div_cancel _ (by decide),UserPage,h.entry n (by omega)] at hu
    exact (hg.stackTop hb).2.2 hu
  · rw [h.base,h.sp]
    exact hat.congr hsp fun va hva => h.byteAt (by omega)

end Whole

/-- With memory for the program, `load` puts its arguments where they should be exactly if the first
argument with its NUL does not fill its place, so that it would end with the stack, and the size of
the process can be rounded up to pages. -/
theorem args_laid_out_iff {namei : List UInt8 → Option File} {s : State} {path : List UInt8}
    {args : List Arg} {f : File} {elf : ElfHeader} {size : ℕ} (hfile : namei path=some f)
    (hprog : Program f elf size) (hsane : Sane s) (hmem : Memory s size) (hpath : 0∈path)
    (hargs : ∀ arg∈args,Arg.Ends arg) (hargc : args.length < maxArg) :
    (∃ t,load namei s path (args.map some)=.ok (t,.error .argsTooMuch) ∨
      load namei s path (args.map some)=.ok (t,.ok args.length) ∧ LaidOut t args) ↔
      (∀ arg∈args.head?,(Arg.len arg+1)%16≠0) ∧ s.data.size+(pageSize-1) < 2^64 := by
  obtain ⟨pgt,m,himage,hb⟩ := loadImage_fits (s:=s.logged .beginOp) hprog
    (hmem.room.mono (Nat.le_add_right ..))
  have hload : load namei s path (args.map some)=
      loadRest ((s.logged .beginOp).after m) elf pgt size path (args.map some) := by
    rw [load,hfile,himage,ok_bind]
  rw [hload,loadRest,pgRoundUp_pageCount,List.length_map]
  have hstack := loadStack_lays hb hmem.room hargs hargc
  obtain ⟨hfirst,v,w,u,m₂,sp,ps,-,hbw,hg,hheap,-,hr,hsp,hat⟩ | ⟨⟨arg,harg,hlen⟩,hr⟩ := hstack
  · have hcommit := @commit_fits s path _ sp u v m₂ w hsane hpath hbw hg hheap
      (s.log++[.beginOp]++[.endOp]) elf.entry
    have hr' : loadStack pgt ((s.logged .beginOp).after m).mem (pageCount size*pageSize)
        ((s.logged .beginOp).after m).pid (args.map some)=
        .ok (m₂,.ok (u,(pageCount size+stackPages)*pageSize,sp)) := hr
    have hsame : ({((s.logged .beginOp).after m).setUstackBase (pageCount size*pageSize) with
        mem := m₂} : State)={s with
          mem := m₂
          log := s.log++[.beginOp]++[.endOp]
          data := {s.data with ustackBase := pageCount size*pageSize}} := rfl
    rw [hr',ok_bind]
    dsimp only
    rw [hsame]
    obtain ⟨hfits,t,ht,hcommitted⟩ | ⟨hfits,why,ht⟩ := hcommit
    · rw [ht,ok_bind]
      exact iff_of_true ⟨t,.inr ⟨rfl,hcommitted.laidOut hbw hg hsp hat⟩⟩ ⟨hfirst,hfits.2⟩
    · rw [ht,error_bind]
      refine iff_of_false (fun hgood => ?_) fun hcond => hfits ⟨hmem.task,hcond.2⟩
      obtain ⟨t,he | ⟨he,-⟩⟩ := hgood
      · cases he
      · cases he
  · have hr' : loadStack pgt ((s.logged .beginOp).after m).mem (pageCount size*pageSize)
        ((s.logged .beginOp).after m).pid (args.map some)=.error (.copy .noMap) := hr
    rw [hr',error_bind]
    refine iff_of_false (fun hgood => ?_) fun hcond => hcond.1 arg harg hlen
    obtain ⟨t,he | ⟨he,-⟩⟩ := hgood
    · cases he
    · cases he

/-- Free pages. -/
def freePages : Mem := ⟨List.range' 100 400,fun _ _ => 0⟩

/-- The first process with a page table. -/
def firstProcess (m : Mem) (pgt : PageTable) : State :=
  ⟨m,496,true,⟨noStacks,0⟩,⟨0,[]⟩,[],9,1,⟨pgt,0,0,fun _ => 0,10,⟨0,0,0⟩,11,[]⟩⟩

/-- It has a new one. -/
def started : Option State :=
  match allocProcPagetable freePages 9 10 11 1 with
  | .ok (m,some pgt) => some (firstProcess m pgt)
  | _ => none

theorem tinyProgram_program : ∃ elf,Program tinyProgram elf 1 := by
  have hmagic : tinyProgram.elfHeader.map ElfHeader.magic=some elfMagic := by decide
  have hsize : (tinyProgram.elfHeader.bind fun elf =>
      imageSize tinyProgram elf.phnum 0 (elf.phoff%2^32))=some 1 := by decide
  cases helf : tinyProgram.elfHeader with
  | none =>
    rw [helf] at hmagic
    cases hmagic
  | some elf =>
    rw [helf] at hmagic hsize
    exact ⟨elf,helf,Option.some.inj hmagic,hsize⟩

theorem freePages_length : freePages.heap.length=400 := List.length_range'

theorem freePages_nodup : freePages.heap.Nodup := List.nodup_range'

theorem freePages_lt {ppn : ℕ} (h : ppn∈freePages.heap) : ppn < 500 := by
  have := List.mem_range'_1.mp h
  omega

section FirstProcess

variable {m : Mem} {pgt : PageTable}

theorem firstProcess_sane (hb : Built freePages 1 0 pgt m) : Sane (firstProcess m pgt) where
  leaves q hq hv := by
    by_cases hin : q∈laidPages 1 0
    · exact leaf_of_mapped (hb.laid.mapped q hin)
    · exact absurd hv (hb.laid.bare q hq hin)
  single := Nat.zero_le 1
  used task ht := by cases ht
  tid := by
    show 0 < nproc
    decide
  nodup := heap_nodup hb freePages_nodup
  physical ppn hp := by
    have hlt := freePages_lt (hb.held.free hp)
    have htop : 500 ≤ KernelStacks.physTop/pageSize := by decide
    omega

theorem firstProcess_memory (hb : Built freePages 1 0 pgt m) : Memory (firstProcess m pgt) 1 := by
  have hneed : need 1 0=3 := by decide
  have hsmall : need 1 (pageCount 1+stackPages)+4+stackTables ⟨noStacks,0⟩ 0+1+
      missing fan (treeOf (laidPages 1 (pageCount 1+stackPages))) (taskPage 0) ≤ 397 := by
    decide +kernel
  have hblock : need 1 (pageCount 1+stackPages) ≤ 393 := by omega
  have hlow : (pageCount 1+stackPages)*pageSize ≤ trapframeFromPid 1 := by decide
  have hposition : (KernelStacks.kernelStackPositionByTid 0).isSome=true := by decide +kernel
  have hheap : m.heap=List.range' 103 397 := by
    rw [hb.heap,hneed,freePages,List.drop_range']
  have hlength : m.heap.length=397 := by rw [hheap,List.length_range']
  have hbehind : (behind (firstProcess m pgt) (pageCount 1)).heap=
      List.range' (103+need 1 (pageCount 1+stackPages))
        (397-need 1 (pageCount 1+stackPages)) := by
    rw [behind,firstProcess]
    dsimp only
    rw [hheap,List.drop_range',Nat.mul_one]
  have hfree : ∀ ppn,496 ≤ ppn → ppn < 500 →
      ppn∈(behind (firstProcess m pgt) (pageCount 1)).heap := by
    intro ppn hle hlt
    rw [hbehind,List.mem_range'_1]
    omega
  refine ⟨⟨Nat.one_pos,hb.room.fits,hlow,?_⟩,⟨⟨hposition,⟨?_,?_,?_,?_⟩,?_,?_⟩,?_,rfl⟩⟩
  · show need 1 (pageCount 1+stackPages) ≤ m.heap.length
    omega
  · exact hfree 496 (by decide) (by decide)
  · exact hfree 497 (by decide) (by decide)
  · exact hfree 498 (by decide) (by decide)
  · exact hfree 499 (by decide) (by decide)
  · intro _ i _ hv
    rw [firstProcess,noStacks,entryAt_empty] at hv
    cases hv
  · rw [hbehind,List.length_range']
    show stackTables ⟨noStacks,0⟩ 0+4 ≤ _
    omega
  · show need 1 (pageCount 1+stackPages)+4+stackTables ⟨noStacks,0⟩ 0+1+
      missing fan (treeOf (laidPages 1 (pageCount 1+stackPages))) (taskPage 0) ≤ m.heap.length
    omega

end FirstProcess

/-- The first process is as it should be, and there is memory for a small program. -/
theorem started_ready : ∃ s,started=some s ∧ Sane s ∧ Memory s 1 ∧ s.data.size=0 := by
  have hfits : PidFits 1 := by decide
  have hroom : Room 1 0 freePages.heap.length :=
    ⟨by decide,hfits,by decide,by rw [freePages_length]; decide⟩
  obtain ⟨m,r,halloc,-⟩ | ⟨hno,-⟩ := allocProcPagetable_laid freePages 9 10 11 1
  swap
  · exact absurd hfits hno
  obtain ⟨pgt,rfl,hb⟩ | ⟨-,-,hno⟩ := allocProcPagetable_built halloc
  swap
  · exact absurd hroom hno
  refine ⟨firstProcess m pgt,?_,firstProcess_sane hb,firstProcess_memory hb,rfl⟩
  rw [started,halloc]

/-- An argument of so many letters. -/
def letters (count : ℕ) : Arg := Vector.ofFn fun i => if i.val < count then 97 else 0

/-- What `load` does with arguments for the first process. -/
def answer (args : List Arg) : Option (Except LoadPanic (Except LoadError ℕ)) :=
  started.map fun s =>
    (load (fun _ => some tinyProgram) s [47,97,0] (args.map some)).map Prod.snd

theorem args_laid_out_iff_oneLetter :
    ∃ s t,load (fun _ => some tinyProgram) s [47,97,0] ([letters 1].map some)=.ok (t,.ok 1) ∧
      LaidOut t [letters 1] := by
  obtain ⟨elf,hprog⟩ := tinyProgram_program
  obtain ⟨s,hs,hsane,hmem,hsize⟩ := started_ready
  have hanswer : answer [letters 1]=some (.ok (.ok 1)) := by
    -- the pages of the stacks are mapped at once
    simp only [answer,load,loadRest,loadStack,uvmAlloc_eq_first]
    decide +kernel
  have hends : ∀ arg∈[letters 1],Arg.Ends arg := by decide
  obtain ⟨t,h | h⟩ := (@args_laid_out_iff (fun _ => some tinyProgram) s [47,97,0] [letters 1] _ _ _
    rfl hprog hsane hmem (by decide) hends (by decide)).mpr
    ⟨fun arg harg => by cases harg; decide,by rw [hsize]; decide⟩
  · rw [answer,hs,Option.map_some,h] at hanswer
    cases hanswer
  · exact ⟨s,t,h⟩

/-- An argument of fifteen letters stops the kernel. -/
theorem fifteenLetters_panic :
    ∃ s,Sane s ∧ Memory s 1 ∧ (∃ elf,Program tinyProgram elf 1) ∧ Arg.Ends (letters 15) ∧
      load (fun _ => some tinyProgram) s [47,97,0] ([letters 15].map some)=
        .error (.copy .noMap) := by
  obtain ⟨s,hs,hsane,hmem,-⟩ := started_ready
  have hanswer : answer [letters 15]=some (.error (.copy .noMap)) := by
    -- the pages of the stacks are mapped at once
    simp only [answer,load,loadRest,loadStack,uvmAlloc_eq_first]
    decide +kernel
  rw [answer,hs,Option.map_some] at hanswer
  refine ⟨s,hsane,hmem,tinyProgram_program,by decide,?_⟩
  cases hload : load (fun _ => some tinyProgram) s [47,97,0] ([letters 15].map some) with
  | error why =>
    rw [hload] at hanswer
    cases hanswer
    rfl
  | ok r =>
    rw [hload] at hanswer
    cases hanswer

end Xv6Rust.ExecArgs
