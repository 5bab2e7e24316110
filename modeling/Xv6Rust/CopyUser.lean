import Xv6Rust.UserBytes
import Xv6Rust.UserCopy

/-!
# Copies between the kernel and user memory

`copy_out` and `copy_in` of `mm/pagetable.rs` go through the pages of a range of user addresses: a
page is looked up, the part of the range in it is copied, and the loop goes on unless the page
reaches behind the range. `fetch_addr` of `process/proc/mod.rs` reads a word through `copy_in`. The
memory of the kernel that is copied from and to is seen as its bytes from the given pointer on.
-/

namespace Xv6Rust.CopyUser

open Bytes Paging PageTable UserBytes

/-- Ways to stop the kernel. -/
inductive CopyPanic where
  /-- `va error`. -/
  | vaError
  /-- `no map`. -/
  | noMap
  /-- The `unwrap` of `VirtAddr::try_from`. -/
  | unwrap
  /-- Arithmetic overflow. -/
  | overflow
  /-- The assertion that both cursors are at the same page. -/
  | assertion
  /-- The loop has not ended. -/
  | endless
  deriving DecidableEq

/-- What a copy returns. -/
inductive Ret where
  /-- `Ok(())`. -/
  | ok
  /-- `Err(())`. -/
  | err
  /-- It does not return. -/
  | panic (why : CopyPanic)
  deriving DecidableEq

/-- The loop of `copy_out` and of `copy_in`, with at most the given number of rounds: the page of
the address is looked up, and the part of the range in the page is copied, after as many bytes as
were copied before. -/
def pageLoop {σ : Type} (find : σ → ℕ → Except CopyError ℕ) (fail : Ret)
    (chunk : σ → ℕ → ℕ → ℕ → ℕ → σ) : ℕ → σ → ℕ → ℕ → ℕ → ℕ → σ×Ret
  | 0,s,_,_,_,_ => (s,.panic .endless)
  | fuel+1,s,pos,addr,va,count =>
    match find s va with
    | .error _ => (s,fail)
    | .ok ppn =>
      let off := addr-va
      let offFromEnd := pageSize-off
      if offFromEnd > count then (chunk s ppn off pos count,.ok)
      else
        let s := chunk s ppn off pos offFromEnd
        if addr+offFromEnd ≥ 2^64 then (s,.panic .overflow)
        else if addr+offFromEnd≠va+pageSize then (s,.panic .assertion)
        else
          pageLoop find fail chunk fuel s (pos+offFromEnd) (addr+offFromEnd) (va+pageSize)
            (count-offFromEnd)

/-- `copy_out`. -/
def copyOut (pgt : PageTable) (m : Mem) (src : Buffer) (dst count : ℕ) : (PageTable×Mem)×Ret :=
  if count=0 then ((pgt,m),.ok)
  else if dst > maxva then ((pgt,m),.panic .vaError)
  else
    pageLoop (fun s va => findPaMut s.1 va) (.panic .noMap)
      (fun s ppn off pos n => (s.1,write s.2 ppn off (fun i => src (pos+i)) n))
      (count+1) (pgt,m) 0 dst (pgRoundDown dst) count

/-- `copy_in`; the buffer holds what is behind the pointer of the destination. -/
def copyIn (pgt : PageTable) (m : Mem) (buf : Buffer) (src count : ℕ) : Buffer×Ret :=
  if src > maxva then (buf,.panic .unwrap)
  else if count=0 then
    match findPa pgt (pgRoundDown src) with
    | .ok _ => (buf,.ok)
    | .error _ => (buf,.err)
  else
    pageLoop (fun _ va => findPa pgt va) .err
      (fun buf ppn off pos n => fun i =>
        if pos ≤ i ∧ i < pos+n then m.data ppn (offset (off+(i-pos))) else buf i)
      (count+1) buf 0 src (pgRoundDown src) count

/-- What `fetch_addr` returns. -/
inductive Fetched where
  /-- The word at the address. -/
  | value (word : ℕ)
  /-- `input addr > proc's mem size`. -/
  | outOfSize
  /-- `pagetable copy_in eror`. -/
  | notCopied
  /-- It does not return. -/
  | panic (why : CopyPanic)
  deriving DecidableEq

/-- `mem::size_of::<usize>()`. -/
def wordSize : ℕ := 8

/-- `fetch_addr` of a process with a page table and a size. -/
def fetchAddr (pgt : PageTable) (m : Mem) (size addr : ℕ) : Fetched :=
  if addr+wordSize ≥ 2^64 then .panic .overflow
  else if addr+wordSize > size then .outOfSize
  else
    let r := copyIn pgt m (fun _ => 0) addr wordSize
    match r.2 with
    | .ok => .value (getLE r.1 0 wordSize)
    | .err => .notCopied
    | .panic why => .panic why

/-- How far a loop comes: it copies bytes of pages that are mapped for the user, and stops behind
the range, at a page that is not mapped, or at the end of the address space. -/
structure Reached (pgt : PageTable) (fail : Ret) (addr count k : ℕ) (r : Ret) : Prop where
  /-- Only bytes of the range are copied. -/
  bound : k ≤ count
  /-- Their addresses do not overflow. -/
  low : addr+k ≤ 2^64
  /-- They are on pages of the user. -/
  user : ∀ j,j < k → UserPage pgt ((addr+j)/pageSize)
  /-- Why the loop stops. -/
  stop : (r=.ok ∧ k=count ∧ UserPage pgt ((addr+count)/pageSize)) ∨
    (r=fail ∧ ¬UserPage pgt ((addr+k)/pageSize)) ∨ (r=.panic .overflow ∧ 2^64 ≤ addr+k)

section Loop

variable {σ : Type} {pgt : PageTable} {find : σ → ℕ → Except CopyError ℕ} {fail : Ret}
  {chunk : σ → ℕ → ℕ → ℕ → ℕ → σ} {addr count : ℕ} {P : ℕ → σ → Prop}

/-- What holds of the bytes copied so far, and is kept by each part of a page, holds of all that is
copied. -/
theorem pageLoop_spec (hfind : ∀ k s,P k s → ∀ va,find s va=findPa pgt va)
    (hchunk : ∀ k s n,P k s → (addr+k)%pageSize+n ≤ pageSize →
      P (k+n) (chunk s (ppnAt pgt (addr+k)) ((addr+k)%pageSize) k n))
    {fuel k : ℕ} {s : σ} (hP : P k s) (hk : k ≤ count) (hlow : addr+k < 2^64)
    (huser : ∀ j,j < k → UserPage pgt ((addr+j)/pageSize)) (hfuel : count-k < fuel) :
    ∃ k' t r,pageLoop find fail chunk fuel s k (addr+k) (pgRoundDown (addr+k)) (count-k)=(t,r) ∧
      P k' t ∧ Reached pgt fail addr count k' r := by
  induction fuel generalizing k s with
  | zero => omega
  | succ fuel ih =>
    have hmod : (addr+k)%pageSize < pageSize := Nat.mod_lt _ (by decide)
    have hoff : addr+k-(addr+k)/pageSize*pageSize=(addr+k)%pageSize := by
      have := Nat.div_add_mod (addr+k) pageSize
      rw [Nat.mul_comm] at this
      omega
    rw [pageLoop,hfind k s hP,pgRoundDown]
    by_cases hu : UserPage pgt ((addr+k)/pageSize)
    · rw [findPa_user hu]
      dsimp only
      rw [hoff]
      have huser' : ∀ n,(addr+k)%pageSize+n ≤ pageSize →
          ∀ j,j < k+n → UserPage pgt ((addr+j)/pageSize) := by
        intro n hn j hj
        by_cases hjk : j < k
        · exact huser j hjk
        · have hpage : (addr+j)/pageSize=(addr+k)/pageSize := by
            simp only [pageSize] at hn hmod ⊢
            omega
          rw [hpage]
          exact hu
      split
      · rename_i hlast
        have hn : (addr+k)%pageSize+(count-k) ≤ pageSize := by omega
        have hsum : k+(count-k)=count := by omega
        have hend : (addr+count)/pageSize=(addr+k)/pageSize := by
          simp only [pageSize] at hlast hmod ⊢
          omega
        refine ⟨count,_,.ok,rfl,?_,⟨le_refl _,?_,?_,.inl ⟨rfl,rfl,?_⟩⟩⟩
        · have hc := hchunk k s (count-k) hP hn
          rwa [hsum] at hc
        · simp only [pageSize] at hn
          omega
        · have hc := huser' (count-k) hn
          rwa [hsum] at hc
        · rw [hend]
          exact hu
      · rename_i hmore
        have hn : (addr+k)%pageSize+(pageSize-(addr+k)%pageSize) ≤ pageSize := by omega
        have hc := hchunk k s (pageSize-(addr+k)%pageSize) hP hn
        have hk' : k+(pageSize-(addr+k)%pageSize) ≤ count := by omega
        split
        · rename_i hover
          have hle : addr+(k+(pageSize-(addr+k)%pageSize)) ≤ 2^64 := by
            simp only [pageSize] at hn ⊢
            omega
          exact ⟨_,_,_,rfl,hc,⟨hk',hle,huser' _ hn,.inr (.inr ⟨rfl,by omega⟩)⟩⟩
        · rename_i hfits
          have hnext : addr+k+(pageSize-(addr+k)%pageSize)=
              (addr+k)/pageSize*pageSize+pageSize := by
            have := Nat.div_add_mod (addr+k) pageSize
            rw [Nat.mul_comm] at this
            omega
          rw [if_neg (not_not.mpr hnext)]
          have hassoc : addr+k+(pageSize-(addr+k)%pageSize)=
              addr+(k+(pageSize-(addr+k)%pageSize)) := Nat.add_assoc ..
          have hround : (addr+k)/pageSize*pageSize+pageSize=
              pgRoundDown (addr+(k+(pageSize-(addr+k)%pageSize))) := by
            rw [← hassoc,hnext,pgRoundDown,← Nat.succ_mul,Nat.mul_div_cancel _ (by decide)]
          rw [hassoc,hround,Nat.sub_sub]
          exact ih hc hk' (by omega) (huser' _ hn) (by omega)
    · obtain ⟨e,he⟩ := findPa_error hu
      rw [he]
      exact ⟨k,s,fail,rfl,hP,hk,hlow.le,huser,.inr (.inl ⟨rfl,hu⟩)⟩

end Loop

section Copies

variable {pgt : PageTable} {m : Mem} {src buf : Buffer} {addr count : ℕ}

/-- `copy_out` writes the bytes one after another, as far as it comes. -/
theorem copyOut_spec (pgt : PageTable) (m : Mem) (src : Buffer) (hc : count≠0) (ha : addr ≤ maxva) :
    ∃ k r,copyOut pgt m src addr count=((pgt,pokes pgt m src addr k),r) ∧
      Reached pgt (.panic .noMap) addr count k r := by
  have hlow : addr+0 < 2^64 := by
    simp only [maxva] at ha
    omega
  rw [copyOut,if_neg hc,if_neg (not_lt.mpr ha)]
  obtain ⟨k,t,r,hr,ht,hreach⟩ := @pageLoop_spec (PageTable×Mem) pgt
    (fun s va => findPaMut s.1 va) (.panic .noMap)
    (fun s ppn off pos n => (s.1,write s.2 ppn off (fun i => src (pos+i)) n)) addr count
    (fun k s => s=(pgt,pokes pgt m src addr k)) (fun k s hs va => by rw [hs]; rfl)
    (fun k s n hs hn => by rw [hs,write_pokes hn]) (count+1) 0 (pgt,m) rfl
    (Nat.zero_le _) hlow (fun j hj => by omega) (by omega)
  exact ⟨k,r,by rw [← ht]; exact hr,hreach⟩

/-- `copy_in` reads the bytes one after another, as far as it comes. -/
theorem copyIn_spec (pgt : PageTable) (m : Mem) (buf : Buffer) (hc : count≠0) (ha : addr ≤ maxva) :
    ∃ k r,copyIn pgt m buf addr count=(fetched pgt m buf addr k,r) ∧
      Reached pgt .err addr count k r := by
  have hlow : addr+0 < 2^64 := by
    simp only [maxva] at ha
    omega
  rw [copyIn,if_neg (not_lt.mpr ha),if_neg hc]
  obtain ⟨k,t,r,hr,ht,hreach⟩ := @pageLoop_spec Buffer pgt (fun _ va => findPa pgt va) .err
    (fun buf ppn off pos n => fun i =>
      if pos ≤ i ∧ i < pos+n then m.data ppn (offset (off+(i-pos))) else buf i)
    addr count (fun k s => s=fetched pgt m buf addr k) (fun k s hs va => rfl)
    (fun k s n hs hn => by
      rw [hs]
      funext i
      rw [fetched,fetched]
      by_cases hik : i < k
      · rw [if_neg (by omega),if_pos hik,if_pos (by omega)]
      · by_cases hin : i < k+n
        · rw [if_pos ⟨not_lt.mp hik,hin⟩,if_pos hin]
          have hpage : (addr+i)/pageSize=(addr+k)/pageSize := by
            simp only [pageSize] at hn ⊢
            omega
          have hoff : offset ((addr+k)%pageSize+(i-k))=offset (addr+i) := by
            refine Fin.ext ?_
            show ((addr+k)%pageSize+(i-k))%pageSize=(addr+i)%pageSize
            simp only [pageSize] at hn ⊢
            omega
          rw [byteAt,ppnAt_same hpage,hoff,ppnAt]
        · rw [if_neg fun h => hin h.2,if_neg hik,if_neg hin])
    (count+1) 0 buf (funext fun i => (if_neg (Nat.not_lt_zero i)).symm)
    (Nat.zero_le _) hlow (fun j hj => by omega) (by omega)
  exact ⟨k,r,by rw [← ht]; exact hr,hreach⟩

/-- Every page that meets the range is mapped for the user. -/
def AllUser (pgt : PageTable) (addr count : ℕ) : Prop :=
  ∀ page,Meets addr count page → UserPage pgt page

theorem allUser_iff : AllUser pgt addr count ↔ ∀ j,j < count → UserPage pgt ((addr+j)/pageSize) := by
  refine ⟨fun h j hj => h _ (meets_page (Nat.le_add_right ..) (by omega)),fun h page hm => ?_⟩
  obtain ⟨va,hle,hlt,rfl⟩ := hm
  have hu := h (va-addr) (by omega)
  rwa [Nat.add_sub_cancel' hle] at hu

/-- Where no address overflows, the loop returns `Ok` exactly if the pages of the range and the page
right behind it are mapped for the user. -/
theorem Reached.result {fail r : Ret} {k : ℕ} (h : Reached pgt fail addr count k r)
    (hlt : addr+count < 2^64) :
    (r=.ok ∧ AllUser pgt addr count ∧ UserPage pgt ((addr+count)/pageSize)) ∨
      (r=fail ∧ ¬(AllUser pgt addr count ∧ UserPage pgt ((addr+count)/pageSize))) := by
  have hk := h.bound
  obtain ⟨hr,rfl,hend⟩ | ⟨hr,hnot⟩ | ⟨-,hover⟩ := h.stop
  · exact .inl ⟨hr,allUser_iff.mpr h.user,hend⟩
  · refine .inr ⟨hr,fun hall => hnot ?_⟩
    by_cases e : k=count
    · rw [e]
      exact hall.2
    · exact allUser_iff.mp hall.1 k (by omega)
  · omega

/-- A copy returns `Ok` where the condition holds and `Err` where it does not. -/
def Answers (r : Ret) (p : Prop) : Prop := (r=.ok ∧ p) ∨ (r=.err ∧ ¬p)

/-- `copy_out` answers as it should exactly if it does not come to a page that is not mapped for
the user. -/
theorem copyOut_answers_iff (hc : 0 < count) (hlt : addr+count < 2^64) :
    Answers (copyOut pgt m src addr count).2 (AllUser pgt addr count) ↔
      addr ≤ maxva ∧ AllUser pgt addr count ∧ UserPage pgt ((addr+count)/pageSize) := by
  by_cases ha : addr ≤ maxva
  · obtain ⟨k,r,hr,hreach⟩ := copyOut_spec pgt m src (Nat.ne_of_gt hc) ha
    rw [hr]
    obtain ⟨rfl,hall⟩ | ⟨rfl,hnot⟩ := hreach.result hlt
    · exact iff_of_true (.inl ⟨rfl,hall.1⟩) ⟨ha,hall⟩
    · refine iff_of_false (fun h => ?_) fun h => hnot h.2
      obtain ⟨e,-⟩ | ⟨e,-⟩ := h
      · cases e
      · cases e
  · refine iff_of_false (fun h => ?_) fun h => ha h.1
    rw [copyOut,if_neg (Nat.ne_of_gt hc),if_pos (not_le.mp ha)] at h
    obtain ⟨e,-⟩ | ⟨e,-⟩ := h
    · cases e
    · cases e

/-- `copy_in` answers as it should exactly if the address is not above `MAXVA` and the page right
behind the range is mapped for the user where the pages of the range are. -/
theorem copyIn_answers_iff (hc : 0 < count) (hlt : addr+count < 2^64) :
    Answers (copyIn pgt m buf addr count).2 (AllUser pgt addr count) ↔
      addr ≤ maxva ∧ (AllUser pgt addr count → UserPage pgt ((addr+count)/pageSize)) := by
  by_cases ha : addr ≤ maxva
  · obtain ⟨k,r,hr,hreach⟩ := copyIn_spec pgt m buf (Nat.ne_of_gt hc) ha
    rw [hr]
    obtain ⟨rfl,hall⟩ | ⟨rfl,hnot⟩ := hreach.result hlt
    · exact iff_of_true (.inl ⟨rfl,hall.1⟩) ⟨ha,fun _ => hall.2⟩
    · refine ⟨fun h => ?_,fun h => .inr ⟨rfl,fun hall => hnot ⟨hall,h.2 hall⟩⟩⟩
      obtain ⟨e,-⟩ | ⟨-,hno⟩ := h
      · cases e
      · exact ⟨ha,fun hall => absurd hall hno⟩
  · refine iff_of_false (fun h => ?_) fun h => ha h.1
    rw [copyIn,if_pos (not_le.mp ha)] at h
    obtain ⟨e,-⟩ | ⟨e,-⟩ := h
    · cases e
    · cases e

/-- `fetch_addr` returns exactly if the end of the word does not overflow and, where the size lets
the address through, it is not above `MAXVA`. -/
theorem fetchAddr_returns_iff (size : ℕ) :
    (∀ why,fetchAddr pgt m size addr≠.panic why) ↔
      addr+wordSize < 2^64 ∧ (addr+wordSize ≤ size → addr ≤ maxva) := by
  rw [fetchAddr]
  by_cases hover : addr+wordSize ≥ 2^64
  · rw [if_pos hover]
    exact iff_of_false (fun h => h _ rfl) fun h => by omega
  · rw [if_neg hover]
    have hlt : addr+wordSize < 2^64 := not_le.mp hover
    by_cases hsize : addr+wordSize > size
    · rw [if_pos hsize]
      exact iff_of_true (fun why e => by cases e) ⟨hlt,fun h => by omega⟩
    · rw [if_neg hsize]
      dsimp only
      by_cases ha : addr ≤ maxva
      · refine iff_of_true (fun why => ?_) ⟨hlt,fun _ => ha⟩
        have hpos : wordSize≠0 := by decide
        obtain ⟨k,r,hr,hreach⟩ := copyIn_spec pgt m (fun _ => 0) hpos ha
        rw [hr]
        obtain ⟨rfl,-⟩ | ⟨rfl,-⟩ := hreach.result hlt
        · exact fun e => by cases e
        · exact fun e => by cases e
      · rw [copyIn,if_pos (not_le.mp ha)]
        exact iff_of_false (fun h => h _ rfl) fun h => ha (h.2 (not_lt.mp hsize))

end Copies

/-- When the copies answer as they should: `copy_out` exactly if the address is not above `MAXVA`
and the pages of the range and the page right behind it are mapped for the user, `copy_in` exactly
if the address is not above `MAXVA` and the page right behind the range is mapped wherever the range
is; and when `fetch_addr` returns. -/
theorem copies_answer_iff (pgt : PageTable) (m : Mem) (addr : ℕ) :
    (∀ src count,0 < count → addr+count < 2^64 →
      (Answers (copyOut pgt m src addr count).2 (AllUser pgt addr count) ↔
        addr ≤ maxva ∧ AllUser pgt addr count ∧ UserPage pgt ((addr+count)/pageSize))) ∧
    (∀ buf count,0 < count → addr+count < 2^64 →
      (Answers (copyIn pgt m buf addr count).2 (AllUser pgt addr count) ↔
        addr ≤ maxva ∧ (AllUser pgt addr count → UserPage pgt ((addr+count)/pageSize)))) ∧
    ∀ size,(∀ why,fetchAddr pgt m size addr≠.panic why) ↔
      addr+wordSize < 2^64 ∧ (addr+wordSize ≤ size → addr ≤ maxva) :=
  ⟨fun _ _ => copyOut_answers_iff,fun _ _ => copyIn_answers_iff,fetchAddr_returns_iff⟩

/-- A page table with nothing in it. -/
def emptyTable : PageTable := ⟨RadixTable.Table.empty Pte.zero 2,[]⟩

theorem emptyTable_not_user (page : ℕ) : ¬UserPage emptyTable page := by
  intro h
  have hzero : emptyTable.entryAt page=Pte.zero := RadixTable.entry_empty page
  rw [UserPage,hzero] at h
  exact absurd h.1 (by decide)

theorem copies_answer_iff_unmapped :
    Answers (copyIn emptyTable (UserCopy.exampleMem []) (fun _ => 0) 0 1).2
      (AllUser emptyTable 0 1) := by
  refine ((copies_answer_iff _ _ _).2.1 _ _ (by decide) (by decide)).mpr ⟨by decide,fun h => ?_⟩
  exact absurd (h 0 ⟨0,le_refl _,by decide,by decide⟩) (emptyTable_not_user 0)

/-- `copy_out` panics at a page that is not mapped, and at an address above `MAXVA`; `copy_in` does
at such an address, and `fetch_addr` at the last addresses. -/
theorem copies_panic :
    (copyOut emptyTable (UserCopy.exampleMem []) (fun _ => 0) 0 1).2=.panic .noMap ∧
      (copyOut emptyTable (UserCopy.exampleMem []) (fun _ => 0) (maxva+1) 1).2=.panic .vaError ∧
      (copyIn emptyTable (UserCopy.exampleMem []) (fun _ => 0) (maxva+1) 1).2=.panic .unwrap ∧
      fetchAddr emptyTable (UserCopy.exampleMem []) 0 (2^64-1)=.panic .overflow := by
  refine ⟨?_,by decide,by decide,by decide⟩
  decide

section RoundTrip

variable {pgt pgt' : PageTable} {m m' : Mem} {src buf : Buffer} {a count : ℕ}

/-- A copy that returns `Ok` has written all bytes, and the page right behind them is mapped. -/
theorem copyOut_ok (hc : count≠0) (h : copyOut pgt m src a count=((pgt',m'),.ok)) :
    pgt'=pgt ∧ m'=pokes pgt m src a count ∧ a ≤ maxva ∧ AllUser pgt a count ∧
      UserPage pgt ((a+count)/pageSize) := by
  by_cases ha : a ≤ maxva
  · obtain ⟨k,r,hr,hreach⟩ := copyOut_spec pgt m src hc ha
    rw [hr] at h
    cases h
    obtain ⟨-,rfl,hend⟩ | ⟨e,-⟩ | ⟨e,-⟩ := hreach.stop
    · exact ⟨rfl,rfl,ha,allUser_iff.mpr hreach.user,hend⟩
    · cases e
    · cases e
  · rw [copyOut,if_neg hc,if_pos (not_le.mp ha)] at h
    cases h

/-- Two user pages with the same physical page are the same. -/
def Injective (pgt : PageTable) : Prop :=
  ∀ p q,p < pages → q < pages → UserPage pgt p → UserPage pgt q →
    (pgt.entryAt p).ppn=(pgt.entryAt q).ppn → p=q

/-- With such a page table, user addresses with the same byte behind them are equal. -/
theorem Injective.address (h : Injective pgt) {va va' : ℕ} (hp : va/pageSize < pages)
    (hp' : va'/pageSize < pages) (hu : UserPage pgt (va/pageSize))
    (hu' : UserPage pgt (va'/pageSize)) (hppn : ppnAt pgt va=ppnAt pgt va')
    (hoff : offset va=offset va') : va=va' :=
  eq_of_page_offset (h _ _ hp hp' hu hu' hppn) hoff

/-- The bytes of a list. -/
def bytesOf (b : List UInt8) : Buffer := fun i => b.getD i 0

/-- What `copy_out` has written, `copy_in` reads, and no other byte of the user or of physical memory
is changed, nor is the page table. The pages are those of the closed range, so that the page of the
address is mapped for the empty string too. -/
theorem copy_in_undoes_copy_out {b : List UInt8} (hinj : Injective pgt) (ha : a ≤ maxva)
    (hclosed : ∀ va,a ≤ va → va ≤ a+b.length →
      va/pageSize < pages ∧ UserPage pgt (va/pageSize))
    (hout : copyOut pgt m (bytesOf b) a b.length=((pgt',m'),.ok)) :
    copyIn pgt' m' buf a b.length=(fun i => if i < b.length then bytesOf b i else buf i,.ok) ∧
      (∀ va,va/pageSize < pages → UserPage pgt (va/pageSize) → ¬(a ≤ va ∧ va < a+b.length) →
        byteAt pgt m' va=byteAt pgt m va) ∧
      (∀ ppn i,(∀ va,a ≤ va → va < a+b.length → ppnAt pgt va=ppn → offset va≠i) →
        m'.data ppn i=m.data ppn i) ∧
      pgt'=pgt := by
  by_cases hb : b=[]
  · have hu := (hclosed a le_rfl (Nat.le_add_right ..)).2
    rw [hb,List.length_nil,copyOut,if_pos rfl] at hout
    cases hout
    refine ⟨?_,fun _ _ _ _ => rfl,fun _ _ _ => rfl,rfl⟩
    rw [hb,List.length_nil,copyIn,if_neg (not_lt.mpr ha),if_pos rfl,pgRoundDown,findPa_user hu]
    rfl
  · have hlen : b.length≠0 := fun e => hb (List.length_eq_zero_iff.mp e)
    obtain ⟨rfl,rfl,-,hall,hend⟩ := copyOut_ok hlen hout
    have hpage : ∀ j,j < b.length → (a+j)/pageSize < pages ∧ UserPage pgt' ((a+j)/pageSize) :=
      fun j hj => hclosed _ (Nat.le_add_right ..) (by omega)
    have hlt : a+b.length < 2^64 := by
      have hlast := (hpage (b.length-1) (by omega)).1
      simp only [pageSize,pages,fan] at hlast
      omega
    have hphys : ∀ ppn i,(∀ va,a ≤ va → va < a+b.length → ppnAt pgt' va=ppn → offset va≠i) →
        (pokes pgt' m (bytesOf b) a b.length).data ppn i=m.data ppn i := by
      intro ppn i hnot
      exact pokes_outside fun j hj => hnot (a+j) (Nat.le_add_right ..) (by omega)
    refine ⟨?_,fun va hva hu hnot => ?_,hphys,rfl⟩
    · obtain ⟨k,r,hr,hreach⟩ :=
        copyIn_spec pgt' (pokes pgt' m (bytesOf b) a b.length) buf hlen ha
      obtain ⟨rfl,-⟩ | ⟨-,hno⟩ := hreach.result hlt
      · have hk : k=b.length := by
          obtain ⟨-,hk,-⟩ | ⟨e,-⟩ | ⟨e,-⟩ := hreach.stop
          · exact hk
          · cases e
          · cases e
        rw [hr,hk]
        refine Prod.ext (funext fun i => ?_) rfl
        dsimp only [fetched]
        by_cases hi : i < b.length
        · rw [if_pos hi,if_pos hi,byteAt]
          refine pokes_inside hi fun j hlt hj hppn hoff => ?_
          have hpj := hpage j hj
          have hpi := hpage i hi
          have he := hinj.address hpj.1 hpi.1 hpj.2 hpi.2 hppn hoff
          omega
        · rw [if_neg hi,if_neg hi]
      · exact absurd ⟨hall,hend⟩ hno
    · refine hphys _ _ fun va' hle hlt' hppn hoff => ?_
      have hpv := hclosed _ hle hlt'.le
      have he := hinj.address hpv.1 hva hpv.2 hu hppn hoff
      exact hnot (he ▸ ⟨hle,hlt'⟩)

/-- The two pages of the sparse process are mapped to different physical pages. -/
theorem sparseParent_injective : Injective UserCopy.sparseParent := by
  have hpages : 2 < pages := by norm_num [pages,fan]
  have hcases : ∀ p,p < pages → UserPage UserCopy.sparseParent p → p=0 ∨ p=2 := by
    intro p hp hu
    by_contra hne
    obtain ⟨h0,h2⟩ := not_or.mp hne
    rw [UserPage,UserCopy.sparseParent_entryAt,Nat.mod_eq_of_lt hp,Nat.mod_eq_of_lt hpages,
      Nat.zero_mod,if_neg h2,if_neg h0] at hu
    exact absurd hu.1 (by decide)
  intro p q hp hq hup huq hppn
  obtain rfl | rfl := hcases p hp hup
  · obtain rfl | rfl := hcases q hq huq
    · rfl
    · exact absurd hppn (by decide)
  · obtain rfl | rfl := hcases q hq huq
    · exact absurd hppn (by decide)
    · rfl

theorem copy_in_undoes_copy_out_two :
    ∃ pgt m,copyIn pgt m (fun _ => 0) 0 2=(fun i => if i < 2 then bytesOf [5,6] i else 0,.ok) := by
  have hok : (copyOut UserCopy.sparseParent (UserCopy.exampleMem []) (bytesOf [5,6]) 0 2).2=.ok := by
    decide
  have hclosed : ∀ va,0 ≤ va → va ≤ 0+[(5 : UInt8),6].length →
      va/pageSize < pages ∧ UserPage UserCopy.sparseParent (va/pageSize) := by
    intro va _ hle
    have hzero : va/pageSize=0 :=
      Nat.div_eq_of_lt (by simp only [pageSize,List.length_cons,List.length_nil] at hle ⊢; omega)
    rw [hzero]
    exact ⟨by norm_num [pages,fan],by decide⟩
  exact ⟨_,_,(copy_in_undoes_copy_out sparseParent_injective (Nat.zero_le _) hclosed
    (Prod.ext rfl hok)).1⟩

end RoundTrip

section Permissions

variable {pgt : PageTable} {dst count : ℕ}

/-- The page is mapped for the user and the user may write to it. -/
def Writable (pgt : PageTable) (page : ℕ) : Prop :=
  UserPage pgt page ∧ (pgt.entryAt page).flags&&&flagW≠0

instance (pgt : PageTable) (page : ℕ) : Decidable (Writable pgt page) :=
  inferInstanceAs (Decidable (_ ∧ _))

/-- Only physical pages are changed that the user may write to by an address of the range. -/
def WritesWritable (pgt : PageTable) (dst count : ℕ) : Prop :=
  ∀ m src ppn,(copyOut pgt m src dst count).1.2.data ppn≠m.data ppn →
    ∃ page,Meets dst count page ∧ Writable pgt page ∧ (pgt.entryAt page).ppn=ppn

/-- `copy_out` comes to the page: it and the pages before it are mapped for the user. -/
def Reaches (pgt : PageTable) (dst count page : ℕ) : Prop :=
  dst ≤ maxva ∧ Meets dst count page ∧ page*pageSize < 2^64 ∧
    ∀ q,Meets dst count q → q ≤ page → UserPage pgt q

/-- The bytes that are copied are on pages that are reached. -/
theorem Reached.reaches {fail r : Ret} {k : ℕ} (h : Reached pgt fail dst count k r)
    (hd : dst ≤ maxva) {j : ℕ} (hj : j < k) : Reaches pgt dst count ((dst+j)/pageSize) := by
  have hk := h.bound
  have hlow := h.low
  refine ⟨hd,meets_page (Nat.le_add_right ..) (by omega),?_,fun q hq hle => ?_⟩
  · have := Nat.div_mul_le_self (dst+j) pageSize
    omega
  · obtain ⟨va,hva,hlt,rfl⟩ := hq
    by_cases hin : va-dst < k
    · have hu := h.user (va-dst) hin
      rwa [Nat.add_sub_cancel' hva] at hu
    · have hsame : va/pageSize=(dst+j)/pageSize :=
        le_antisymm hle (Nat.div_le_div_right (by omega))
      rw [hsame]
      exact h.user j hj

/-- A page that is reached has a byte that is copied. -/
theorem Reached.covers {r : Ret} {k page : ℕ} (h : Reached pgt (.panic .noMap) dst count k r)
    (hp : Reaches pgt dst count page) : ∃ j,j < k ∧ (dst+j)/pageSize=page := by
  obtain ⟨hd,⟨va,hle,hlt,rfl⟩,hlow,huser⟩ := hp
  by_contra hnone
  have hk : k ≤ va-dst := by
    by_contra hlt'
    exact hnone ⟨va-dst,not_le.mp hlt',by rw [Nat.add_sub_cancel' hle]⟩
  obtain ⟨-,rfl,-⟩ | ⟨-,hnot⟩ | ⟨-,hover⟩ := h.stop
  · omega
  · exact hnot (huser _ (meets_page (Nat.le_add_right ..) (by omega))
      (Nat.div_le_div_right (by omega)))
  · have := Nat.div_mul_le_self va pageSize
    have hpage : 2^64/pageSize*pageSize ≤ va/pageSize*pageSize :=
      Nat.mul_le_mul_right _ (Nat.div_le_div_right (by omega))
    have heq : 2^64/pageSize*pageSize=2^64 := by norm_num [pageSize]
    omega

/-- `copy_out` changes only pages that the user may write to exactly if the user may write to the
physical page of every page that it comes to. -/
theorem writes_writable_iff (pgt : PageTable) (dst count : ℕ) :
    WritesWritable pgt dst count ↔
      ∀ page,Reaches pgt dst count page →
        ∃ q,Meets dst count q ∧ Writable pgt q ∧ (pgt.entryAt q).ppn=(pgt.entryAt page).ppn := by
  refine ⟨fun h page hp => ?_,fun h m src ppn hne => ?_⟩
  · have hc : count≠0 := by
      obtain ⟨-,⟨va,hle,hlt,-⟩,-⟩ := hp
      omega
    obtain ⟨k,r,hr,hreach⟩ := copyOut_spec pgt ⟨[],fun _ _ => 0⟩ (fun _ => 1) hc hp.1
    obtain ⟨j,hj,hpage⟩ := hreach.covers hp
    refine h ⟨[],fun _ _ => 0⟩ (fun _ => 1) _ fun hsame => ?_
    rw [hr] at hsame
    have hbyte := congrFun hsame (offset (dst+j))
    dsimp only at hbyte
    rw [← show ppnAt pgt (dst+j)=_ from ppnAt_same hpage,pokes_constant hj] at hbyte
    exact absurd hbyte (by decide)
  · by_cases hc : count=0
    · rw [copyOut,if_pos hc] at hne
      exact absurd rfl hne
    · by_cases hd : dst ≤ maxva
      · obtain ⟨k,r,hr,hreach⟩ := copyOut_spec pgt m src hc hd
        rw [hr] at hne
        have hex : ∃ j,j < k ∧ ppnAt pgt (dst+j)=ppn := by
          by_contra hnone
          exact hne (funext fun i =>
            pokes_outside fun j hj hppn => absurd ⟨j,hj,hppn⟩ hnone)
        obtain ⟨j,hj,hppn⟩ := hex
        have hq := h _ (hreach.reaches hd hj)
        rwa [← ppnAt,hppn] at hq
      · rw [copyOut,if_neg hc,if_pos (not_le.mp hd)] at hne
        exact absurd rfl hne

/-- The page table of a new process. -/
def processTable : PageTable :=
  match allocProcPagetable (UserCopy.exampleMem [1,2,3,4,5,6,7,8,9]) 100 101 102 1 with
  | .ok (_,some pgt) => pgt
  | _ => emptyTable

/-- A system call that is given `USYSCALL` writes to the page that the user may only read. -/
theorem copy_out_writes_usyscall : ¬WritesWritable processTable usyscall 1 := by
  intro h
  have hbyte : (copyOut processTable (UserCopy.exampleMem []) (fun _ => 1) usyscall 1).1.2.data 102 0=
      1 := by decide
  obtain ⟨page,⟨va,hle,hlt,rfl⟩,hw,-⟩ := h (UserCopy.exampleMem []) (fun _ => 1) 102 fun hsame => by
    rw [hsame] at hbyte
    exact absurd hbyte (by decide)
  have hva : va=usyscall := by omega
  rw [hva] at hw
  exact absurd hw (by decide)

end Permissions

end Xv6Rust.CopyUser
