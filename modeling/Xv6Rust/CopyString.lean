import Xv6Rust.UserBytes
import Xv6Rust.UserCopy

/-!
# Strings from user memory

`copy_in_str` of `mm/pagetable.rs` reads bytes of the user until it has read a zero, a page at a
time. The addresses that are read are listed as they are read.
-/

namespace Xv6Rust.CopyString

open Bytes Paging PageTable UserBytes

/-- A mutable slice. No slice is longer than `isize::MAX`. -/
structure Slice where
  /-- Its length. -/
  len : ℕ
  /-- Its bytes. -/
  byte : Buffer
  /-- The length fits. -/
  bound : len < 2^63

/-- What `copy_in_str` returns. -/
inductive StrRet where
  /-- `Ok(())`. -/
  | ok
  /-- `Err`, with the message. -/
  | err (e : CopyError)
  /-- Arithmetic overflow. -/
  | overflow
  deriving DecidableEq

/-- A copy of a string. -/
structure StrCopy where
  /-- The destination. -/
  dst : Buffer
  /-- The addresses that were read, in order. -/
  reads : List ℕ
  /-- What is returned. -/
  ret : StrRet

/-- The loop over the bytes of a page, and whether it ended at a zero. -/
def strPage (page : Page) : ℕ → ℕ → ℕ → ℕ → Buffer → List ℕ → Buffer×List ℕ×Bool
  | 0,_,_,_,dst,reads => (dst,reads,false)
  | count+1,off,va,i,dst,reads =>
    let b := page (offset off)
    let dst := Function.update dst i b
    let reads := reads++[va]
    if b=0 then (dst,reads,true) else strPage page count (off+1) (va+1) (i+1) dst reads

/-- A page holds a byte at least of what is left. -/
theorem count_pos {n va i : ℕ} (h : i < n) : 0 < min (pageSize-(va-pgRoundDown va)) (n-i) := by
  have hmod : va%pageSize < pageSize := Nat.mod_lt _ (by decide)
  have hdiv := Nat.div_add_mod va pageSize
  rw [Nat.mul_comm] at hdiv
  rw [pgRoundDown]
  omega

/-- The loop over the pages. -/
def strLoop (pgt : PageTable) (m : Mem) (n va i : ℕ) (dst : Buffer) (reads : List ℕ) : StrCopy :=
  if _h : i < n then
    match findPa pgt (pgRoundDown va) with
    | .error e => ⟨dst,reads,.err e⟩
    | .ok ppn =>
      let r := strPage (m.data ppn) (min (pageSize-(va-pgRoundDown va)) (n-i)) (va-pgRoundDown va)
        va i dst reads
      if r.2.2=true then ⟨r.1,r.2.1,.ok⟩
      else if pgRoundDown va+pageSize ≥ 2^64 then ⟨r.1,r.2.1,.overflow⟩
      else
        strLoop pgt m n (pgRoundDown va+pageSize) (i+min (pageSize-(va-pgRoundDown va)) (n-i))
          r.1 r.2.1
  else ⟨dst,reads,.err .noSpace⟩
termination_by n-i
decreasing_by
  have hpos := @count_pos n va i (by assumption)
  omega

/-- `copy_in_str`. -/
def copyInStr (pgt : PageTable) (m : Mem) (srcva : ℕ) (dst : Slice) : StrCopy :=
  if srcva > maxva then ⟨dst.byte,[],.err .badAddress⟩
  else strLoop pgt m dst.len srcva 0 dst.byte []

/-- A string at an address ends after so many bytes: they are mapped for the user, the last one is
zero and the others are not. -/
structure Ends (pgt : PageTable) (m : Mem) (srcva k : ℕ) : Prop where
  /-- The pages are mapped. -/
  user : ∀ j,j ≤ k → UserPage pgt ((srcva+j)/pageSize)
  /-- The last byte is zero. -/
  zero : byteAt pgt m (srcva+k)=0
  /-- No other byte is. -/
  first : ∀ j,j < k → byteAt pgt m (srcva+j)≠0

/-- The first addresses from an address on. -/
def addresses (srcva k : ℕ) : List ℕ := (List.range k).map (srcva+·)

section Reading

variable {pgt : PageTable} {m : Mem} {srcva n i count k : ℕ} {dst : Buffer}

theorem addresses_succ (srcva k : ℕ) : addresses srcva (k+1)=addresses srcva k++[srcva+k] := by
  rw [addresses,List.range_succ,List.map_append]
  rfl

theorem fetched_succ (dst : Buffer) (srcva k : ℕ) :
    Function.update (fetched pgt m dst srcva k) k (byteAt pgt m (srcva+k))=
      fetched pgt m dst srcva (k+1) := by
  funext j
  by_cases e : j=k
  · rw [e,Function.update_self]
    exact (if_pos (Nat.lt_succ_self k)).symm
  · rw [Function.update_of_ne e]
    by_cases hj : j < k
    · exact (if_pos hj).trans (if_pos (by omega)).symm
    · exact (if_neg hj).trans (if_neg (by omega)).symm

/-- The bytes of a page are read up to the first zero. -/
theorem strPage_spec (hcount : (srcva+i)%pageSize+count ≤ pageSize) :
    (∃ k,i ≤ k ∧ k < i+count ∧ byteAt pgt m (srcva+k)=0 ∧
      (∀ j,i ≤ j → j < k → byteAt pgt m (srcva+j)≠0) ∧
      strPage (m.data (ppnAt pgt (srcva+i))) count ((srcva+i)%pageSize) (srcva+i) i
          (fetched pgt m dst srcva i) (addresses srcva i)=
        (fetched pgt m dst srcva (k+1),addresses srcva (k+1),true)) ∨
    ((∀ j,i ≤ j → j < i+count → byteAt pgt m (srcva+j)≠0) ∧
      strPage (m.data (ppnAt pgt (srcva+i))) count ((srcva+i)%pageSize) (srcva+i) i
          (fetched pgt m dst srcva i) (addresses srcva i)=
        (fetched pgt m dst srcva (i+count),addresses srcva (i+count),false)) := by
  induction count generalizing i with
  | zero => exact .inr ⟨fun j hj hlt => by omega,rfl⟩
  | succ count ih =>
    have hbyte : m.data (ppnAt pgt (srcva+i)) (offset ((srcva+i)%pageSize))=
        byteAt pgt m (srcva+i) := by
      rw [byteAt]
      congr 1
      exact Fin.ext (Nat.mod_mod _ _)
    rw [strPage]
    rw [hbyte,fetched_succ,← addresses_succ]
    by_cases hz : byteAt pgt m (srcva+i)=0
    · rw [if_pos hz]
      exact .inl ⟨i,le_refl _,by omega,hz,fun j hj hlt => by omega,rfl⟩
    · rw [if_neg hz]
      by_cases hlast : count=0
      · refine .inr ⟨fun j hj hlt => ?_,?_⟩
        · have hji : j=i := by omega
          rwa [hji]
        · rw [hlast,strPage]
      · have hnext : (srcva+(i+1))%pageSize=(srcva+i)%pageSize+1 := by
          simp only [pageSize] at hcount ⊢
          omega
        have hpage : (srcva+(i+1))/pageSize=(srcva+i)/pageSize := by
          simp only [pageSize] at hcount ⊢
          omega
        have hppn : ppnAt pgt (srcva+(i+1))=ppnAt pgt (srcva+i) := ppnAt_same hpage
        have hrest : ∀ j,i ≤ j → ¬i+1 ≤ j → byteAt pgt m (srcva+j)≠0 := by
          intro j hj hlt
          have hji : j=i := by omega
          rwa [hji]
        obtain ⟨k,hk,hlt,hzero,hfirst,heq⟩ | ⟨hall,heq⟩ := @ih (i+1) (by omega)
        · rw [hnext,hppn] at heq
          refine .inl ⟨k,by omega,by omega,hzero,fun j hj hjk => ?_,heq⟩
          by_cases hji : i+1 ≤ j
          · exact hfirst j hji hjk
          · exact hrest j hj hji
        · rw [hnext,hppn] at heq
          have hsum : i+1+count=i+(count+1) := by omega
          rw [hsum] at heq hall
          refine .inr ⟨fun j hj hjk => ?_,heq⟩
          by_cases hji : i+1 ≤ j
          · exact hall j hji hjk
          · exact hrest j hj hji

/-- Bytes that are mapped for the user and are not zero. -/
def Passed (pgt : PageTable) (m : Mem) (srcva k : ℕ) : Prop :=
  ∀ j,j < k → UserPage pgt ((srcva+j)/pageSize) ∧ byteAt pgt m (srcva+j)≠0

/-- The bytes are read up to the first zero, the first page that is not mapped, or the end of the
destination. -/
theorem strLoop_spec (hn : srcva+n+pageSize < 2^64) (hi : i ≤ n) (hpassed : Passed pgt m srcva i) :
    (∃ k,k < n ∧ Ends pgt m srcva k ∧
      strLoop pgt m n (srcva+i) i (fetched pgt m dst srcva i) (addresses srcva i)=
        ⟨fetched pgt m dst srcva (k+1),addresses srcva (k+1),.ok⟩) ∨
    ∃ k e,k ≤ n ∧ Passed pgt m srcva k ∧ (k < n → ¬UserPage pgt ((srcva+k)/pageSize)) ∧
      strLoop pgt m n (srcva+i) i (fetched pgt m dst srcva i) (addresses srcva i)=
        ⟨fetched pgt m dst srcva k,addresses srcva k,.err e⟩ := by
  induction h : n-i using Nat.strong_induction_on generalizing i with
  | _ left ih =>
    rw [strLoop]
    by_cases hlt : i < n
    · rw [dif_pos hlt]
      have hmod : (srcva+i)%pageSize < pageSize := Nat.mod_lt _ (by decide)
      have hdiv : (srcva+i)/pageSize*pageSize+(srcva+i)%pageSize=srcva+i := by
        rw [Nat.mul_comm]
        exact Nat.div_add_mod ..
      have hoff : srcva+i-pgRoundDown (srcva+i)=(srcva+i)%pageSize := by
        rw [pgRoundDown]
        omega
      rw [hoff]
      by_cases hu : UserPage pgt ((srcva+i)/pageSize)
      · have hfind : findPa pgt (pgRoundDown (srcva+i))=.ok (ppnAt pgt (srcva+i)) := findPa_user hu
        rw [hfind]
        dsimp only
        have hcount : (srcva+i)%pageSize+min (pageSize-(srcva+i)%pageSize) (n-i) ≤ pageSize := by
          omega
        have huser : ∀ j,i ≤ j → j < i+min (pageSize-(srcva+i)%pageSize) (n-i) →
            UserPage pgt ((srcva+j)/pageSize) := by
          intro j hj hjlt
          have hpage : (srcva+j)/pageSize=(srcva+i)/pageSize := by
            simp only [pageSize] at hcount hmod hjlt ⊢
            omega
          rw [hpage]
          exact hu
        obtain ⟨k,hk,hklt,hzero,hfirst,heq⟩ | ⟨hall,heq⟩ :=
          @strPage_spec pgt m srcva i (min (pageSize-(srcva+i)%pageSize) (n-i)) dst hcount
        · rw [heq,if_pos rfl]
          refine .inl ⟨k,by omega,⟨fun j hj => ?_,hzero,fun j hj => ?_⟩,rfl⟩
          · by_cases hji : j < i
            · exact (hpassed j hji).1
            · exact huser j (by omega) (by omega)
          · by_cases hji : j < i
            · exact (hpassed j hji).2
            · exact hfirst j (by omega) hj
        · rw [heq,if_neg Bool.false_ne_true]
          have hpassed' : Passed pgt m srcva (i+min (pageSize-(srcva+i)%pageSize) (n-i)) := by
            intro j hj
            by_cases hji : j < i
            · exact hpassed j hji
            · exact ⟨huser j (by omega) hj,hall j (by omega) hj⟩
          have hfits : ¬pgRoundDown (srcva+i)+pageSize ≥ 2^64 := by
            rw [pgRoundDown]
            omega
          rw [if_neg hfits]
          by_cases hmore : n-i ≤ pageSize-(srcva+i)%pageSize
          · -- the destination is full, and the next round finds it so
            have hfull : i+min (pageSize-(srcva+i)%pageSize) (n-i)=n := by omega
            rw [hfull] at hpassed' ⊢
            rw [strLoop,dif_neg (lt_irrefl n)]
            exact .inr ⟨n,_,le_refl _,hpassed',fun h => absurd h (lt_irrefl n),rfl⟩
          · have hnext : pgRoundDown (srcva+i)+pageSize=
                srcva+(i+min (pageSize-(srcva+i)%pageSize) (n-i)) := by
              rw [pgRoundDown]
              omega
            rw [hnext]
            exact ih (n-(i+min (pageSize-(srcva+i)%pageSize) (n-i))) (by omega) (by omega) hpassed'
              rfl
      · obtain ⟨e,he⟩ := findPa_error hu
        have hfind : findPa pgt (pgRoundDown (srcva+i))=.error e := he
        rw [hfind]
        exact .inr ⟨i,e,hi,hpassed,fun _ => hu,rfl⟩
    · rw [dif_neg hlt]
      have hin : i=n := by omega
      refine .inr ⟨i,_,hi,hpassed,fun h => absurd h hlt,rfl⟩

/-- A string ends only once. -/
theorem Ends.unique {k' : ℕ} (h : Ends pgt m srcva k) (h' : Ends pgt m srcva k') : k=k' := by
  obtain hlt | heq | hlt := Nat.lt_trichotomy k k'
  · exact absurd h.zero (h'.first k hlt)
  · exact heq
  · exact absurd h'.zero (h.first k' hlt)

/-- What is read before a copy fails is no string that fits. -/
theorem Passed.no_end (h : Passed pgt m srcva k) (hk : k < n → ¬UserPage pgt ((srcva+k)/pageSize))
    {k' : ℕ} (hn : k' < n) (he : Ends pgt m srcva k') (hle : k ≤ n) : False := by
  by_cases hlt : k' < k
  · exact (h k' hlt).2 he.zero
  · exact hk (by omega) (he.user k (not_lt.mp hlt))

theorem mem_addresses {va : ℕ} : va∈addresses srcva k ↔ srcva ≤ va ∧ va < srcva+k := by
  rw [addresses,List.mem_map]
  refine ⟨fun ⟨j,hj,he⟩ => ?_,fun h => ⟨va-srcva,?_,?_⟩⟩
  · have hj := List.mem_range.mp hj
    omega
  · exact List.mem_range.mpr (by omega)
  · show srcva+(va-srcva)=va
    omega

/-- A copy of a string that fits, or an error after bytes that were passed. -/
theorem copyInStr_cases (pgt : PageTable) (m : Mem) (srcva : ℕ) (dst : Slice) :
    (srcva ≤ maxva ∧ ∃ k,k < dst.len ∧ Ends pgt m srcva k ∧
      copyInStr pgt m srcva dst=
        ⟨fetched pgt m dst.byte srcva (k+1),addresses srcva (k+1),.ok⟩) ∨
    ∃ k e,Passed pgt m srcva k ∧
      (srcva ≤ maxva → k ≤ dst.len ∧ (k < dst.len → ¬UserPage pgt ((srcva+k)/pageSize))) ∧
      copyInStr pgt m srcva dst=⟨fetched pgt m dst.byte srcva k,addresses srcva k,.err e⟩ := by
  have hzero : fetched pgt m dst.byte srcva 0=dst.byte := funext fun j => if_neg (Nat.not_lt_zero j)
  by_cases ha : srcva ≤ maxva
  · have hb := dst.bound
    have hn : srcva+dst.len+pageSize < 2^64 := by
      simp only [maxva,pageSize] at ha ⊢
      omega
    have hs := @strLoop_spec pgt m srcva dst.len 0 dst.byte hn (Nat.zero_le _)
      fun j hj => absurd hj (Nat.not_lt_zero j)
    rw [hzero] at hs
    rw [copyInStr,if_neg (not_lt.mpr ha)]
    obtain ⟨k,hk,he,heq⟩ | ⟨k,e,hk,hp,hstop,heq⟩ := hs
    · exact .inl ⟨ha,k,hk,he,heq⟩
    · exact .inr ⟨k,e,hp,fun _ => ⟨hk,hstop⟩,heq⟩
  · refine .inr ⟨0,.badAddress,fun j hj => absurd hj (Nat.not_lt_zero j),fun h => absurd h ha,?_⟩
    rw [copyInStr,if_pos (not_le.mp ha),hzero]
    rfl

end Reading

/-- `copy_in_str` returns `Ok` exactly if the address is not above `MAXVA` and a string that is
mapped for the user ends before the destination does; then the destination begins with the string
and is as it was behind it. Nothing is read behind a zero, and the arithmetic does not overflow. -/
theorem copy_in_str_exact (pgt : PageTable) (m : Mem) (srcva : ℕ) (dst : Slice) :
    ((copyInStr pgt m srcva dst).ret=.ok ↔
      srcva ≤ maxva ∧ ∃ k,k < dst.len ∧ Ends pgt m srcva k) ∧
    (∀ k,Ends pgt m srcva k → (copyInStr pgt m srcva dst).ret=.ok →
      (∀ j,j ≤ k → (copyInStr pgt m srcva dst).dst j=byteAt pgt m (srcva+j)) ∧
      ∀ j,k < j → (copyInStr pgt m srcva dst).dst j=dst.byte j) ∧
    (∀ nul,srcva ≤ nul → byteAt pgt m nul=0 →
      ∀ va∈(copyInStr pgt m srcva dst).reads,va ≤ nul ∧ UserPage pgt (va/pageSize)) ∧
    (copyInStr pgt m srcva dst).ret≠.overflow := by
  obtain ⟨ha,k,hk,he,heq⟩ | ⟨k,e,hp,hstop,heq⟩ := copyInStr_cases pgt m srcva dst
  · rw [heq]
    refine ⟨iff_of_true rfl ⟨ha,k,hk,he⟩,fun k' he' _ => ?_,fun nul hle hz va hva => ?_,
      fun h => by cases h⟩
    · rw [← he.unique he']
      exact ⟨fun j hj => if_pos (Nat.lt_succ_of_le hj),fun j hj => if_neg (by omega)⟩
    · obtain ⟨hle',hlt⟩ := mem_addresses.mp hva
      refine ⟨?_,?_⟩
      · by_contra hgt
        refine he.first (nul-srcva) (by omega) ?_
        rwa [Nat.add_sub_cancel' hle]
      · have hu := he.user (va-srcva) (by omega)
        rwa [Nat.add_sub_cancel' hle'] at hu
  · rw [heq]
    refine ⟨iff_of_false (fun h => by cases h) fun h => ?_,fun _ _ h => ?_,
      fun nul hle hz va hva => ?_,fun h => by cases h⟩
    · obtain ⟨ha,k',hk',he⟩ := h
      exact hp.no_end (hstop ha).2 hk' he (hstop ha).1
    · cases h
    · obtain ⟨hle',hlt⟩ := mem_addresses.mp hva
      refine ⟨?_,?_⟩
      · by_contra hgt
        refine (hp (nul-srcva) (by omega)).2 ?_
        rwa [Nat.add_sub_cancel' hle]
      · have hu := (hp (va-srcva) (by omega)).1
        rwa [Nat.add_sub_cancel' hle'] at hu

theorem copy_in_str_exact_empty :
    (copyInStr UserCopy.sparseParent (UserCopy.exampleMem []) 0
      ⟨4,fun _ => 1,by norm_num⟩).ret=.ok := by
  refine (copy_in_str_exact _ _ _ _).1.mpr ⟨Nat.zero_le _,0,by norm_num,⟨fun j hj => ?_,rfl,
    fun j hj => absurd hj (Nat.not_lt_zero j)⟩⟩
  have hj : j=0 := by omega
  rw [hj]
  decide +kernel

end Xv6Rust.CopyString
