import Xv6Rust.Bytes
import Xv6Rust.Paging

/-!
# User memory, byte by byte

A user address names a byte of the physical page that the page table has for it. Writing a string
at a user address is writing its bytes one after another; the loops of the copy functions write the
same bytes a page at a time.
-/

namespace Xv6Rust.UserBytes

open Bytes Paging PageTable

/-- Errors of `find_pa`, `find_pa_mut` and `copy_in_str`. -/
inductive CopyError where
  /-- `value for VirtAddr should be smaller than 1<<38`. -/
  | badAddress
  /-- `pte not valid`. -/
  | notValid
  /-- `pte not mapped for user`. -/
  | notUser
  /-- `va not mapped`. -/
  | notMapped
  /-- `copy_in_str: dst not enough space`. -/
  | noSpace
  deriving DecidableEq

/-- `find_pa`: the physical page of a virtual address. -/
def findPa (pgt : PageTable) (va : ℕ) : Except CopyError ℕ :=
  match pgt.findPte va with
  | some pte =>
    if pte.isValid=false then .error .notValid
    else if pte.isUser=false then .error .notUser
    else .ok pte.ppn
  | none => .error .notMapped

/-- `find_pa_mut`, which makes the same tests. -/
def findPaMut (pgt : PageTable) (va : ℕ) : Except CopyError ℕ := findPa pgt va

/-- The page has a valid entry with `U`. -/
def UserPage (pgt : PageTable) (page : ℕ) : Prop :=
  (pgt.entryAt page).isValid=true ∧ (pgt.entryAt page).isUser=true

instance (pgt : PageTable) (page : ℕ) : Decidable (UserPage pgt page) :=
  inferInstanceAs (Decidable (_ ∧ _))

/-- Position of an address in its page. -/
def offset (va : ℕ) : Fin 4096 := ⟨va%pageSize,Nat.mod_lt _ (by decide)⟩

/-- Physical page of an address. -/
def ppnAt (pgt : PageTable) (va : ℕ) : ℕ := (pgt.entryAt (va/pageSize)).ppn

/-- The byte at an address. -/
def byteAt (pgt : PageTable) (m : Mem) (va : ℕ) : UInt8 := m.data (ppnAt pgt va) (offset va)

/-- The buffer after the first bytes from a user address on are read. -/
def fetched (pgt : PageTable) (m : Mem) (buf : Buffer) (src k : ℕ) : Buffer :=
  fun i => if i < k then byteAt pgt m (src+i) else buf i

/-- Write a byte of a physical page. -/
def poke (m : Mem) (ppn : ℕ) (i : Fin 4096) (b : UInt8) : Mem :=
  {m with data := Function.update m.data ppn (Function.update (m.data ppn) i b)}

/-- Write bytes of a physical page from a position on, `ptr::copy` into the page. -/
def write (m : Mem) (ppn off : ℕ) (src : Buffer) (n : ℕ) : Mem :=
  {m with data := Function.update m.data ppn fun i =>
    if off ≤ i.val ∧ i.val < off+n then src (i.val-off) else m.data ppn i}

/-- Memory after the first bytes of a string are written at a user address. -/
def pokes (pgt : PageTable) (m : Mem) (src : Buffer) (dst : ℕ) : ℕ → Mem
  | 0 => m
  | n+1 => poke (pokes pgt m src dst n) (ppnAt pgt (dst+n)) (offset (dst+n)) (src n)

/-- The page meets the range of addresses. -/
def Meets (addr count page : ℕ) : Prop := ∃ va,addr ≤ va ∧ va < addr+count ∧ va/pageSize=page

section Lookup

variable {pgt : PageTable} {page : ℕ}

theorem findPa_user (h : UserPage pgt page) :
    findPa pgt (page*pageSize)=.ok (pgt.entryAt page).ppn := by
  rw [findPa,findPte_eq,find_of_valid h.1]
  dsimp only
  rw [h.1,h.2,if_neg (by decide),if_neg (by decide)]

theorem findPa_error (h : ¬UserPage pgt page) : ∃ e,findPa pgt (page*pageSize)=.error e := by
  rw [findPa,findPte_eq]
  cases hf : RadixTable.find fan pgt.root page with
  | none => exact ⟨_,rfl⟩
  | some pte =>
    have hpte : pgt.entryAt page=pte := entryAt_of_find hf
    dsimp only
    by_cases hv : pte.isValid=false
    · rw [if_pos hv]
      exact ⟨_,rfl⟩
    · rw [if_neg hv]
      by_cases hu : pte.isUser=false
      · rw [if_pos hu]
        exact ⟨_,rfl⟩
      · refine absurd ⟨?_,?_⟩ h
        · rw [hpte]
          exact eq_true_of_ne_false hv
        · rw [hpte]
          exact eq_true_of_ne_false hu

end Lookup

section Addresses

variable {pgt : PageTable} {addr count va page : ℕ}

theorem meets_page (h : addr ≤ va) (hlt : va < addr+count) : Meets addr count (va/pageSize) :=
  ⟨va,h,hlt,rfl⟩

/-- A page that meets a range behind another one begins in the range. -/
theorem Meets.lt (h : Meets addr count page) : page*pageSize < addr+count := by
  obtain ⟨va,-,hlt,rfl⟩ := h
  have := Nat.div_mul_le_self va pageSize
  omega

theorem ppnAt_same (h : va/pageSize=page) : ppnAt pgt va=(pgt.entryAt page).ppn := by
  rw [ppnAt,h]

/-- Addresses with the same page and the same position are equal. -/
theorem eq_of_page_offset {va' : ℕ} (hp : va/pageSize=va'/pageSize)
    (ho : offset va=offset va') : va=va' := by
  have ho : va%pageSize=va'%pageSize := congrArg Fin.val ho
  rw [← Nat.div_add_mod va pageSize,← Nat.div_add_mod va' pageSize,hp,ho]

end Addresses

section Writing

variable {pgt : PageTable} {m : Mem} {src : Buffer} {dst k n : ℕ}

theorem write_zero (ppn off : ℕ) : write m ppn off src 0=m := by
  have hsame : (fun i : Fin 4096 =>
      if off ≤ i.val ∧ i.val < off+0 then src (i.val-off) else m.data ppn i)=m.data ppn := by
    funext i
    rw [if_neg (by omega)]
  rw [write,hsame,Function.update_eq_self]

theorem write_succ {ppn off : ℕ} (h : off+n < pageSize) :
    write m ppn off src (n+1)=poke (write m ppn off src n) ppn ⟨off+n,h⟩ (src n) := by
  rw [write,poke,write]
  dsimp only
  rw [Function.update_idem,Function.update_self]
  congr 2
  funext i
  by_cases e : i=⟨off+n,h⟩
  · rw [e,Function.update_self,if_pos ⟨Nat.le_add_right .., by show off+n < off+(n+1); omega⟩]
    show src (off+n-off)=src n
    rw [Nat.add_sub_cancel_left]
  · rw [Function.update_of_ne e]
    have hne : i.val≠off+n := fun hv => e (Fin.ext hv)
    by_cases hin : off ≤ i.val ∧ i.val < off+n
    · rw [if_pos hin,if_pos ⟨hin.1,by omega⟩]
    · rw [if_neg hin,if_neg (by omega)]

/-- The bytes of a string that fall into one page are written at once. -/
theorem write_pokes (h : (dst+k)%pageSize+n ≤ pageSize) :
    write (pokes pgt m src dst k) (ppnAt pgt (dst+k)) ((dst+k)%pageSize) (fun i => src (k+i)) n=
      pokes pgt m src dst (k+n) := by
  induction n with
  | zero => exact write_zero ..
  | succ n ih =>
    have hlt : (dst+k)%pageSize+n < pageSize := by omega
    rw [write_succ hlt,ih (by omega)]
    show _=poke (pokes pgt m src dst (k+n)) (ppnAt pgt (dst+(k+n))) (offset (dst+(k+n))) (src (k+n))
    have hdiv : (dst+(k+n))/pageSize=(dst+k)/pageSize := by
      simp only [pageSize] at hlt ⊢
      omega
    have hmod : (dst+(k+n))%pageSize=(dst+k)%pageSize+n := by
      simp only [pageSize] at hlt ⊢
      omega
    have hoff : (⟨(dst+k)%pageSize+n,hlt⟩ : Fin 4096)=offset (dst+(k+n)) := Fin.ext hmod.symm
    rw [hoff,ppnAt_same hdiv,ppnAt]

theorem pokes_heap : (pokes pgt m src dst n).heap=m.heap := by
  induction n with
  | zero => rfl
  | succ n ih => exact ih

theorem poke_data (m : Mem) (ppn q : ℕ) (i j : Fin 4096) (b : UInt8) :
    (poke m ppn i b).data q j=if q=ppn ∧ j=i then b else m.data q j := by
  rw [poke]
  dsimp only
  by_cases hq : q=ppn
  · rw [hq,Function.update_self]
    by_cases hj : j=i
    · rw [hj,Function.update_self,if_pos ⟨rfl,rfl⟩]
    · rw [Function.update_of_ne hj,if_neg fun h => hj h.2]
  · rw [Function.update_of_ne hq,if_neg fun h => hq h.1]

/-- A byte of physical memory that is behind none of the addresses stays as it is. -/
theorem pokes_outside {q : ℕ} {i : Fin 4096}
    (h : ∀ j,j < n → ppnAt pgt (dst+j)=q → offset (dst+j)≠i) :
    (pokes pgt m src dst n).data q i=m.data q i := by
  induction n with
  | zero => rfl
  | succ n ih =>
    rw [pokes,poke_data,if_neg fun hb => h n (Nat.lt_succ_self n) hb.1.symm hb.2.symm]
    exact ih fun j hj => h j (by omega)

/-- A byte is written at its address, unless it is written over. -/
theorem pokes_inside {j : ℕ} (hj : j < n)
    (h : ∀ j',j < j' → j' < n → ppnAt pgt (dst+j')=ppnAt pgt (dst+j) →
      offset (dst+j')≠offset (dst+j)) :
    (pokes pgt m src dst n).data (ppnAt pgt (dst+j)) (offset (dst+j))=src j := by
  induction n with
  | zero => omega
  | succ n ih =>
    rw [pokes,poke_data]
    by_cases e : j=n
    · rw [e,if_pos ⟨rfl,rfl⟩]
    · rw [if_neg fun hb => h n (by omega) (Nat.lt_succ_self n) hb.1.symm hb.2.symm]
      exact ih (by omega) fun j' hlt hn => h j' hlt (by omega)

/-- Where all bytes are the same, writing over makes no difference. -/
theorem pokes_constant {b : UInt8} {j : ℕ} (hj : j < n) :
    (pokes pgt m (fun _ => b) dst n).data (ppnAt pgt (dst+j)) (offset (dst+j))=b := by
  induction n with
  | zero => omega
  | succ n ih =>
    rw [pokes,poke_data]
    split
    · rfl
    · rename_i hother
      have hne : j≠n := by
        rintro rfl
        exact hother ⟨rfl,rfl⟩
      exact ih (by omega)

end Writing

end Xv6Rust.UserBytes
