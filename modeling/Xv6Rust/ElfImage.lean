import Xv6Rust.ExecArgs

/-!
# The bytes of a program

What `load` makes of any file: where it stops the kernel, and what is behind the addresses of the
segments when it succeeds. The sum of the address and the size of a segment is compared with the
address only after it has overflowed, and the place of a segment in the file is cut to 32 bits.
-/

namespace Xv6Rust.ElfImage

open Bytes RadixTable Results Paging PageTable UserMemory UserUnmap UserBytes PageEffects UserAlloc
open TableBudget ElfLoad ExecArgs
open UserCopy (pageCount)

/-- The headers of the segments to load, as `load` reads them. -/
def loadable (f : File) : ℕ → ℕ → List ProgHeader
  | 0,_ => []
  | n+1,off =>
    match f.progHeader off with
    | none => []
    | some ph =>
      if ph.pgType≠elfProgLoad then loadable f n (off+phSize) else ph::loadable f n (off+phSize)

/-- Before an error `load` comes to a segment whose end overflows. -/
def Overflows (f : File) (pid free : ℕ) : List ProgHeader → ℕ → Prop
  | [],_ => False
  | ph::phs,size =>
    ph.filesz ≤ ph.memsz ∧ (2^64 ≤ ph.vaddr+ph.memsz ∨
      ph.Fits f ∧ Room pid (pageCount (max size (ph.vaddr+ph.memsz))) free ∧
        Overflows f pid free phs (max size (ph.vaddr+ph.memsz)))

/-- Bytes of a file from an offset on, at an address, over other bytes. -/
def overlay (f : File) (off va size : ℕ) (img : ℕ → UInt8) : ℕ → UInt8 :=
  fun a => if va ≤ a ∧ a < va+size then f.byte (off+(a-va)) else img a

/-- The bytes of segments, one after another, over other bytes. -/
def image (f : File) : List ProgHeader → (ℕ → UInt8) → ℕ → UInt8
  | [],img => img
  | ph::phs,img => image f phs (overlay f (ph.off%2^32) ph.vaddr (ph.filesz%2^32) img)

section Images

variable {m0 m : Mem} {pgt : PageTable} {pid n page : ℕ} {img : ℕ → UInt8}

/-- The first pages of the user hold some bytes. -/
def Imaged (pgt : PageTable) (m : Mem) (n : ℕ) (img : ℕ → UInt8) : Prop :=
  ∀ va,va < n*pageSize → byteAt pgt m va=img va

/-- No two pages of the user share a physical page. -/
theorem user_ppn_ne (h : Built m0 pid n pgt m) (hnd : m0.heap.Nodup) {q q' : ℕ} (hq : q < n)
    (hq' : q' < n) (hne : q≠q') : (pgt.entryAt q).ppn≠(pgt.entryAt q').ppn := by
  have hnodup := pool_nodup h hnd
  rw [PageEffects.pool,Multiset.nodup_add] at hnodup
  have hlow := h.room.below _ (trapframePage_mem pid)
  have hlt := trapframePage_lt pid
  have hmem : ∀ p,p < n → p∈Finset.range pages \ kernelPages pid := fun p hp =>
    Finset.mem_sdiff.mpr ⟨Finset.mem_range.mpr (by omega),fun hk => by
      have := h.room.below p hk
      omega⟩
  have hsub : ({q,q'} : Finset ℕ)⊆Finset.range pages \ kernelPages pid := by
    intro p hp
    obtain rfl | hp := Finset.mem_insert.mp hp
    · exact hmem p hq
    · rw [Finset.mem_singleton.mp hp]
      exact hmem q' hq'
  have hle : ∑ p∈{q,q'},cell pgt p ≤ leaves (kernelPages pid) pgt :=
    Finset.sum_le_sum_of_subset hsub
  rw [Finset.sum_pair hne,cell_of_valid (h.user q hq).1,cell_of_valid (h.user q' hq').1] at hle
  have hpair := Multiset.nodup_of_le hle hnodup.2.1
  intro he
  rw [he] at hpair
  exact absurd hpair (by simp)

theorem byteAt_write {ppn off count : ℕ} {src : Buffer} (va : ℕ) :
    byteAt pgt (write m ppn off src count) va=
      if ppnAt pgt va=ppn ∧ off ≤ va%pageSize ∧ va%pageSize < off+count then src (va%pageSize-off)
      else byteAt pgt m va := by
  rw [byteAt,write]
  dsimp only
  by_cases hp : ppnAt pgt va=ppn
  · rw [hp,Function.update_self]
    show (if off ≤ va%pageSize ∧ va%pageSize < off+count then _ else _)=_
    split
    · rename_i hin
      rw [if_pos ⟨rfl,hin⟩]
      rfl
    · rename_i hout
      rw [if_neg fun h => hout h.2,byteAt,hp]
  · rw [Function.update_of_ne hp,if_neg fun h => hp h.1]
    rfl

/-- Bytes are written to the beginning of a page. -/
theorem Imaged.write (h : Imaged pgt m n img) (hb : Built m0 pid n pgt m) (hnd : m0.heap.Nodup)
    (hpage : page < n) {count : ℕ} (hcount : count ≤ pageSize) (src : Buffer) :
    Imaged pgt (UserBytes.write m (pgt.entryAt page).ppn 0 src count) n fun va =>
      if page*pageSize ≤ va ∧ va < page*pageSize+count then src (va-page*pageSize) else img va := by
  intro va hva
  rw [byteAt_write]
  dsimp only
  have hdiv := Nat.div_add_mod va pageSize
  have hlt : va/pageSize < n := by
    simp only [pageSize] at hva ⊢
    omega
  by_cases hin : page*pageSize ≤ va ∧ va < page*pageSize+count
  · have hsame : va/pageSize=page := by
      simp only [pageSize] at hin hcount ⊢
      omega
    have hmod : va%pageSize=va-page*pageSize := by
      rw [hsame,Nat.mul_comm] at hdiv
      omega
    rw [if_pos hin,if_pos ⟨ppnAt_same hsame,Nat.zero_le _,by omega⟩,hmod,Nat.sub_zero]
  · rw [if_neg hin,if_neg,h va hva]
    intro hout
    have hsame : va/pageSize=page := by
      by_contra hne
      exact user_ppn_ne hb hnd hlt hpage hne hout.1
    rw [hsame,Nat.mul_comm] at hdiv
    omega

/-- New pages are zero, and the others stay as they are. -/
theorem Imaged.alloc {size newSize s : ℕ} {v : PageTable} {w : Mem} (h : Imaged pgt m n img)
    (hb : Built m0 pid n pgt m) (hnd : m0.heap.Nodup) (hn : pageCount size=n)
    (hzero : ∀ va,n*pageSize ≤ va → img va=0)
    (hr : pgt.uvmAlloc m size newSize=.ok (v,w,some s)) : Imaged v w (pageCount s) img := by
  rw [uvmAlloc] at hr
  split at hr
  · cases hr
    rw [hn]
    exact h
  · rename_i hlt
    have hbound := hb.room.bound
    have hold : size ≤ maxva := by
      rw [pageCount] at hn
      simp only [pageSize] at hn hbound
      omega
    have hround : pgRoundUp size/pageSize=n := by
      rw [pgRoundUp_pageCount,Nat.mul_div_cancel _ (by decide),hn]
    obtain ⟨v',w',done,hloop,hres⟩ := alloc_rounds pgt m hold newSize
    rw [hloop,ok_bind] at hr
    obtain ⟨rfl,qs,hqs,hg⟩ | ⟨rfl,-⟩ := hres
    swap
    · cases hr
    cases hr
    rw [hround] at hg
    have hlen : n+qs.length=pageCount newSize := by
      have hmono := pageCount_mono (not_le.mp hlt).le
      rw [hqs,pgRoundUp_pageCount,pgRoundUp_pageCount,hn,← Nat.sub_mul,
        Nat.mul_div_cancel _ (by decide)]
      omega
    have hpages : pages=134217728 := by decide
    intro va hva
    rw [← hlen] at hva
    have hq : va/pageSize < n+qs.length := by
      simp only [pageSize] at hva ⊢
      omega
    by_cases hin : va/pageSize < n
    · have hpage : va/pageSize < pages := by
        simp only [pageSize,maxva] at hbound
        omega
      have hentry : v'.entryAt (va/pageSize)=pgt.entryAt (va/pageSize) :=
        hg.other _ hpage fun i _ => by omega
      have hdata := hg.data _ (user_not_free hb hnd hin)
      have hva' : va < n*pageSize := by
        simp only [pageSize] at hin ⊢
        omega
      rw [← h va hva',byteAt,byteAt,ppnAt,ppnAt,hentry]
      exact congrFun hdata _
    · have hi : va/pageSize-n < qs.length := by omega
      have hentry := hg.entry (va/pageSize-n) _ (List.getElem?_eq_getElem hi)
      have hsum : n+(va/pageSize-n)=va/pageSize := by omega
      rw [hsum] at hentry
      have hblank := hg.zero (heap_nodup hb hnd) _ (List.getElem_mem hi)
      rw [hzero va (by simp only [pageSize] at hin ⊢; omega),byteAt,ppnAt,hentry]
      exact congrFun hblank _

end Images

section Segments

variable {m0 m : Mem} {pid k n : ℕ} {pgt : PageTable} {f : File} {off size i page : ℕ}
  {img : ℕ → UInt8}

/-- `load_seg` fills pages of the user with the bytes of the file as far as it goes. It does not
overflow, since the bytes up to each offset have been in the file. -/
theorem segLoop_fills (f : File) (off : ℕ) (h : Built m0 pid k pgt m) (hnd : m0.heap.Nodup)
    (himg : Imaged pgt m k img) (hle : size ≤ i+n*pageSize)
    (hlast : n≠0 → i+(n-1)*pageSize < size) (hp : page+n ≤ k) (hoff : off+i < 2^32) :
    (∃ m',segLoop pgt f off size n m (page*pageSize) i=.ok (m',true) ∧ Built m0 pid k pgt m' ∧
      (n≠0 → SectionIn f off size) ∧
      Imaged pgt m' k (overlay f (off+i) (page*pageSize) (size-i) img)) ∨
    (n≠0 ∧ ¬SectionIn f off size ∧
      ∃ m',segLoop pgt f off size n m (page*pageSize) i=.ok (m',false) ∧
        Built m0 pid k pgt m') := by
  induction n generalizing m page i img with
  | zero =>
    have hsize : size-i=0 := by omega
    refine .inl ⟨m,rfl,h,fun hn => absurd rfl hn,fun va hva => ?_⟩
    rw [overlay,hsize,if_neg (by omega)]
    exact himg va hva
  | succ n ih =>
    obtain ⟨hi,hle',hlast'⟩ := next_round hle hlast
    have huser := h.user page (by omega)
    have howned : (pgt.entryAt page).ppn∈m0.heap := h.held.owned (by omega)
    rw [segLoop,findPaMut,findPa_user huser]
    dsimp only
    rw [if_neg (not_le.mpr hoff)]
    generalize hc : (if size-i < pageSize then size-i else pageSize)=count
    have hcount : count=min (size-i) pageSize := by
      rw [← hc]
      split
      · omega
      · omega
    obtain ⟨hread,hout⟩ | ⟨b,hread,hin⟩ := iread_cases f (off+i) count
    · rw [hread]
      refine .inr ⟨Nat.succ_ne_zero n,fun hin => hout ⟨?_,?_⟩,m,rfl,h⟩
      · have := hin.1
        omega
      · have := hin.2
        omega
    · have hbytes : b=fun j => f.byte (off+i+j) := by
        rw [File.iread,if_neg (by have := hin.1; omega),if_neg (by have := hin.2; omega)] at hread
        exact (Option.some.inj hread).symm
      rw [hread]
      dsimp only
      have hwrite : Built m0 pid k pgt (write m (pgt.entryAt page).ppn 0 b count) :=
        h.write rfl fun p hp => Function.update_of_ne (fun e => hp (by rw [e]; exact howned)) ..
      have hpage : page < k := by omega
      have hsmall : count ≤ pageSize := by omega
      have himg' := himg.write h hnd hpage hsmall b
      by_cases hn : n=0
      · rw [hn] at hle' ⊢
        have hwhole : count=size-i := by omega
        refine .inl ⟨_,rfl,hwrite,fun _ => ?_,fun va hva => ?_⟩
        · have hsum : off+i+count=off+size := by omega
          rw [SectionIn,hsum] at hin
          exact hin
        · rw [himg' va hva,overlay,hwhole,hbytes]
      · have hfull : count=pageSize := by
          have := hlast' hn
          omega
        have hoff' : off+(i+pageSize) < 2^32 := by
          have := hin.1
          omega
        have hpage' : page+1+n ≤ k := by omega
        have hrest := ih hwrite himg' hle' hlast' hpage' hoff'
        rw [Nat.succ_mul] at hrest
        obtain ⟨m',hr,hb,hfit,hfill⟩ | ⟨-,hno,hr⟩ := hrest
        · refine .inl ⟨m',hr,hb,fun _ => hfit hn,fun va hva => ?_⟩
          rw [hfill va hva,overlay,overlay,hfull,hbytes]
          have hmore : pageSize < size-i := by
            have := hlast' hn
            omega
          by_cases hlow : va < page*pageSize+pageSize
          · rw [if_neg (by omega)]
            by_cases hstart : page*pageSize ≤ va
            · rw [if_pos ⟨hstart,hlow⟩,if_pos ⟨hstart,by omega⟩]
            · rw [if_neg fun hin => hstart hin.1,if_neg fun hin => hstart hin.1]
          · by_cases hend : va < page*pageSize+(size-i)
            · have hplace : off+(i+pageSize)+(va-(page*pageSize+pageSize))=
                  off+i+(va-page*pageSize) := by omega
              rw [if_pos (by omega),if_pos (by omega),hplace]
            · rw [if_neg (by omega),if_neg fun hin => hlow hin.2,if_neg fun hin => hend hin.2]
        · exact .inr ⟨Nat.succ_ne_zero n,hno,hr⟩

/-- `load_seg` of a segment below the pages that are built. -/
theorem loadSeg_fills (h : Built m0 pid k pgt m) (hnd : m0.heap.Nodup) (himg : Imaged pgt m k img)
    {va : ℕ} (hva : va%pageSize=0) (hend : pageCount (va+size) ≤ k) (hoff : off < 2^32) :
    (∃ m',loadSeg pgt m va f off size=.ok (m',true) ∧ Built m0 pid k pgt m' ∧
      (size≠0 → SectionIn f off size) ∧ Imaged pgt m' k (overlay f off va size img)) ∨
    (size≠0 ∧ ¬SectionIn f off size ∧
      ∃ m',loadSeg pgt m va f off size=.ok (m',false) ∧ Built m0 pid k pgt m') := by
  obtain ⟨n,heq,hpage,hzero,hle,hlast,hrounds⟩ := loadSeg_eq m f off hva h.room.bound hend
  have hspec := segLoop_fills f off h hnd himg hle hlast hrounds (by rwa [Nat.add_zero])
  rw [hpage,hzero,Nat.add_zero,Nat.sub_zero] at hspec
  rw [heq,hpage]
  exact hspec

/-- The loop over the program headers overflows where a segment makes it, and fills the pages of the
segments or returns an error otherwise. -/
theorem loadSegments_fills (h : Built m0 pid (pageCount size) pgt m) (hnd : m0.heap.Nodup)
    (himg : Imaged pgt m (pageCount size) img)
    (hzero : ∀ va,pageCount size*pageSize ≤ va → img va=0) :
    (Overflows f pid m0.heap.length (loadable f n off) size ∧
      ∃ why,ElfLoad.loadSegments f pid n pgt m size off=.error why) ∨
    (¬Overflows f pid m0.heap.length (loadable f n off) size ∧
      ((∃ m' pgt' size',ElfLoad.loadSegments f pid n pgt m size off=.ok (m',.ok (pgt',size')) ∧
        imageSize f n size off=some size' ∧ Built m0 pid (pageCount size') pgt' m' ∧
        Imaged pgt' m' (pageCount size') (image f (loadable f n off) img)) ∨
      ((∃ m' e,ElfLoad.loadSegments f pid n pgt m size off=.ok (m',.error e)) ∧
        ∀ size',imageSize f n size off=some size' →
          ¬Room pid (pageCount size') m0.heap.length))) := by
  induction n generalizing pgt m size off img with
  | zero => exact .inr ⟨fun ho => ho,.inl ⟨m,pgt,size,rfl,rfl,h,himg⟩⟩
  | succ n ih =>
    have habandon : ∀ {k : ℕ} {u : PageTable} {v : Mem} {size : ℕ} (e : LoadError),
        Held m0 pid k u v → pageCount size=k →
        ∃ m' e',abandon u v size pid e=
          .ok (m',(.error e' : Except LoadError (PageTable×ℕ))) := by
      intro k u v size e hheld hk
      obtain ⟨w,hw,-⟩ := abandon_held hheld h.room.fits hk e
      exact ⟨w,e,hw⟩
    have hover : f.progHeader off≠none → ¬off+phSize ≥ 2^32 := by
      intro hne
      rw [File.progHeader] at hne
      obtain ⟨hread,-⟩ | ⟨b,-,hin⟩ := iread_cases f off phSize
      · rw [hread] at hne
        exact absurd rfl hne
      · have := hin.1
        omega
    rw [ElfLoad.loadSegments,imageSize,loadable]
    cases hph : f.progHeader off with
    | none => exact .inr ⟨fun ho => ho,.inr ⟨habandon _ h.held rfl,fun size' hs => by cases hs⟩⟩
    | some ph =>
      have hfar := hover (by rw [hph]; exact Option.some_ne_none ph)
      dsimp only
      by_cases htype : ph.pgType≠elfProgLoad
      · rw [if_pos htype,if_pos htype,if_pos htype,if_neg hfar]
        exact ih h himg hzero
      rw [if_neg htype,if_neg htype,if_neg htype,Overflows]
      by_cases hmem : ph.memsz < ph.filesz
      · rw [if_pos hmem]
        refine .inr ⟨fun ho => absurd ho.1 (not_le.mpr hmem),.inr ⟨habandon _ h.held rfl,
          fun size' hs => ?_⟩⟩
        rw [if_neg fun hfit => absurd hfit.1 (not_le.mpr hmem)] at hs
        cases hs
      rw [if_neg hmem]
      by_cases hwide : ph.vaddr+ph.memsz ≥ 2^64
      · rw [if_pos hwide]
        exact .inl ⟨⟨not_lt.mp hmem,.inl hwide⟩,_,rfl⟩
      rw [if_neg hwide]
      by_cases hal : ph.vaddr%pageSize≠0
      · rw [if_pos hal]
        refine .inr ⟨fun ho => ?_,.inr ⟨habandon _ h.held rfl,fun size' hs => ?_⟩⟩
        · obtain hw | ⟨hfit,-⟩ := ho.2
          · exact hwide hw
          · exact hal hfit.2.2.1
        · rw [if_neg fun hfit => hal hfit.2.2.1] at hs
          cases hs
      rw [if_neg hal]
      obtain ⟨u,v,r,hr,⟨rfl,hb⟩ | ⟨rfl,hheld,hno⟩⟩ := h.alloc rfl (ph.vaddr+ph.memsz)
      · have himg' := himg.alloc h hnd rfl hzero hr
        rw [hr]
        dsimp only
        have hmod := Nat.mod_le ph.filesz (2^32)
        have hmax := le_max_right size (ph.vaddr+ph.memsz)
        have hgrow := pageCount_mono (le_max_left size (ph.vaddr+ph.memsz))
        have hend : pageCount (ph.vaddr+ph.filesz%2^32) ≤
            pageCount (max size (ph.vaddr+ph.memsz)) := pageCount_mono (by omega)
        obtain ⟨w,hw,hbw,hfit,hfill⟩ | ⟨hne,hout,w,hw,hbw⟩ :=
          @loadSeg_fills m0 v pid _ u f (ph.off%2^32) (ph.filesz%2^32) img hb hnd himg' _
            (not_not.mp hal) hend (Nat.mod_lt _ (by decide))
        · have hfits : ph.Fits f := ⟨by omega,by omega,not_not.mp hal,hfit⟩
          have hzero' : ∀ va,pageCount (max size (ph.vaddr+ph.memsz))*pageSize ≤ va →
              overlay f (ph.off%2^32) ph.vaddr (ph.filesz%2^32) img va=0 := by
            intro va hva
            have hle : pageCount size*pageSize ≤ va := (Nat.mul_le_mul_right _ hgrow).trans hva
            have hsize : ph.vaddr+ph.memsz ≤ va := by
              rw [pageCount] at hva
              simp only [pageSize] at hva
              omega
            rw [overlay,if_neg (by omega)]
            exact hzero va hle
          rw [hw,if_pos hfits]
          dsimp only
          rw [if_neg hfar,image]
          obtain ⟨ho,hres⟩ | ⟨ho,hres⟩ := ih hbw hfill hzero'
          · exact .inl ⟨⟨not_lt.mp hmem,.inr ⟨hfits,hb.room,ho⟩⟩,hres⟩
          · refine .inr ⟨fun hall => ?_,hres⟩
            obtain hw' | ⟨-,-,ho'⟩ := hall.2
            · exact hwide hw'
            · exact ho ho'
        · have hfits : ¬ph.Fits f := fun hf => hout (hf.2.2.2 hne)
          rw [hw,if_neg hfits]
          refine .inr ⟨fun hall => ?_,.inr ⟨habandon _ hbw.held rfl,fun size' hs => by cases hs⟩⟩
          obtain hw' | ⟨hf,-⟩ := hall.2
          · exact hwide hw'
          · exact hfits hf
      · rw [hr]
        dsimp only
        refine .inr ⟨fun hall => ?_,.inr ⟨habandon _ hheld rfl,fun size' hs hroom => ?_⟩⟩
        · obtain hw' | ⟨-,hroom,-⟩ := hall.2
          · exact hwide hw'
          · exact hno hroom
        · split at hs
          · exact hno (hroom.mono (pageCount_mono (imageSize_ge hs)))
          · cases hs

end Segments

/-- The headers of the segments of a program. -/
def segments (f : File) (elf : ElfHeader) : List ProgHeader :=
  loadable f elf.phnum (elf.phoff%2^32)

/-- The address is of the part of the segment that is in the file. -/
def Covers (ph : ProgHeader) (va : ℕ) : Prop := ph.vaddr ≤ va ∧ va < ph.vaddr+ph.filesz

/-- The pages of the segments hold what they should. -/
structure Filled (pgt : PageTable) (m : Mem) (f : File) (phs : List ProgHeader) : Prop where
  /-- Bytes of the file, unless a later segment overwrites them. -/
  bytes : ∀ pre ph post,phs=pre++ph::post → ∀ i,i < ph.filesz →
    (∀ ph'∈post,¬Covers ph' (ph.vaddr+i)) →
    ph.off+i < f.size ∧ UserPage pgt ((ph.vaddr+i)/pageSize) ∧
      byteAt pgt m (ph.vaddr+i)=f.byte (ph.off+i)
  /-- The rest of their pages is zero. -/
  zeros : ∀ ph∈phs,∀ va,ph.vaddr ≤ va → va/pageSize < pageCount (ph.vaddr+ph.memsz) →
    (∀ ph'∈phs,¬Covers ph' va) → UserPage pgt (va/pageSize) ∧ byteAt pgt m va=0

/-- Segments of which something is left to be seen are in the first 4 GiB of the file. -/
def PlacesFit (phs : List ProgHeader) : Prop :=
  ∀ pre ph post,phs=pre++ph::post → ∀ i,i < ph.filesz →
    (∀ ph'∈post,¬Covers ph' (ph.vaddr+i)) → ph.off < 2^32

section Bytes

variable {f : File} {pgt : PageTable} {m : Mem} {n off size size' : ℕ}

theorem image_append (f : File) (pre phs : List ProgHeader) (img : ℕ → UInt8) :
    image f (pre++phs) img=image f phs (image f pre img) := by
  induction pre generalizing img with
  | nil => rfl
  | cons ph pre ih => exact ih _

/-- A byte that no segment covers stays as it was. -/
theorem image_not_covered {phs : List ProgHeader} {img : ℕ → UInt8} {va : ℕ}
    (h : ∀ ph∈phs,¬Covers ph va) : image f phs img va=img va := by
  induction phs generalizing img with
  | nil => rfl
  | cons ph phs ih =>
    have hmod := Nat.mod_le ph.filesz (2^32)
    rw [image,ih fun q hq => h q (List.mem_cons_of_mem _ hq),overlay,if_neg]
    intro hin
    exact h ph (List.mem_cons_self ..) ⟨hin.1,by omega⟩

/-- The segments of a program are as they should be, and end below its size. -/
theorem imageSize_bound (h : imageSize f n size off=some size') :
    ∀ ph∈loadable f n off,ph.Fits f ∧ ph.vaddr+ph.memsz ≤ size' := by
  induction n generalizing size off with
  | zero =>
    intro ph hph
    cases hph
  | succ n ih =>
    rw [imageSize] at h
    split at h
    · cases h
    · rename_i ph hread
      split at h
      · rename_i htype
        rw [loadable,hread]
        dsimp only
        rw [if_pos htype]
        exact ih h
      · rename_i htype
        split at h
        · rename_i hfits
          rw [loadable,hread]
          dsimp only
          rw [if_neg htype]
          intro q hq
          obtain rfl | hq := List.mem_cons.mp hq
          · exact ⟨hfits,(le_max_right ..).trans (imageSize_ge h)⟩
          · exact ih h q hq
        · cases h

/-- What the pages of the user hold is right exactly if the places of the segments fit. -/
theorem filled_iff {phs : List ProgHeader} (hsize : f.size < 2^32) (hlow : size < 2^32)
    (hphs : ∀ ph∈phs,ph.Fits f ∧ ph.vaddr+ph.memsz ≤ size)
    (himg : Imaged pgt m (pageCount size) (image f phs fun _ => 0))
    (huser : ∀ q,q < pageCount size → UserPage pgt q) :
    Filled pgt m f phs ↔ PlacesFit phs := by
  have hbelow : ∀ va,va < size → va < pageCount size*pageSize ∧ va/pageSize < pageCount size := by
    intro va hva
    simp only [pageCount,pageSize] at hva ⊢
    omega
  constructor
  · intro h pre ph post hsplit i hi hlast
    have := (h.bytes pre ph post hsplit i hi hlast).1
    omega
  · intro h
    refine ⟨fun pre ph post hsplit i hi hlast => ?_,fun ph hph va hge hva hnone => ?_⟩
    · obtain ⟨hfits,hend⟩ := hphs ph (by rw [hsplit]; simp)
      have hoff := h pre ph post hsplit i hi hlast
      have hmem := hfits.1
      have hfile : ph.filesz%2^32=ph.filesz := Nat.mod_eq_of_lt (by omega)
      have hplace : ph.off%2^32=ph.off := Nat.mod_eq_of_lt hoff
      have hsection := hfits.2.2.2
      rw [hfile,hplace] at hsection
      have hin := (hsection (by omega)).2
      obtain ⟨hva,hpage⟩ := hbelow (ph.vaddr+i) (by omega)
      refine ⟨by omega,huser _ hpage,?_⟩
      rw [himg _ hva,hsplit,image_append,image,image_not_covered hlast,overlay,hfile,hplace,
        if_pos (by omega),Nat.add_sub_cancel_left]
    · obtain ⟨-,hend⟩ := hphs ph hph
      have hpage : va/pageSize < pageCount size := hva.trans_le (pageCount_mono hend)
      have hlt : va < pageCount size*pageSize := by
        simp only [pageSize] at hpage ⊢
        omega
      exact ⟨huser _ hpage,by rw [himg va hlt,image_not_covered hnone]⟩

end Bytes

section Whole

variable {s : State} {f : File} {elf : ElfHeader} {args : List Arg} {path : List UInt8}

/-- Where `load` comes to a segment whose end overflows. -/
def SegmentPanics (s : State) (f : File) (elf : ElfHeader) : Prop :=
  Room s.pid 0 s.mem.heap.length ∧
    Overflows f s.pid s.mem.heap.length (segments f elf) 0

/-- The first half of `load` with any file. -/
theorem loadImage_fills (hnd : s.mem.heap.Nodup) (hfits : PidFits s.pid) (f : File) :
    (∃ t e,ElfLoad.loadImage s (some f)=.ok (t,.error e) ∧
      ∀ elf,f.elfHeader=some elf → elf.magic=elfMagic → ¬SegmentPanics s f elf ∧
        ∀ size,imageSize f elf.phnum 0 (elf.phoff%2^32)=some size →
          ¬Room s.pid (pageCount size) s.mem.heap.length) ∨
    ∃ elf,f.elfHeader=some elf ∧ elf.magic=elfMagic ∧
      ((SegmentPanics s f elf ∧ ∃ why,ElfLoad.loadImage s (some f)=.error why) ∨
      (¬SegmentPanics s f elf ∧ ∃ pgt m size,
        ElfLoad.loadImage s (some f)=.ok (s.after m,.ok (elf,pgt,size)) ∧ Program f elf size ∧
        Built s.mem s.pid (pageCount size) pgt m ∧
        Imaged pgt m (pageCount size) (image f (segments f elf) fun _ => 0))) := by
  rw [ElfLoad.loadImage]
  cases helf : f.elfHeader with
  | none => exact .inl ⟨_,_,rfl,fun elf h => by cases h⟩
  | some elf =>
    dsimp only
    by_cases hmagic : elf.magic≠elfMagic
    · rw [if_pos hmagic]
      refine .inl ⟨_,_,rfl,fun elf' h hm => ?_⟩
      cases h
      exact absurd hm hmagic
    rw [if_neg hmagic]
    obtain ⟨m,r,halloc,hdata⟩ | ⟨hno,-⟩ := allocProcPagetable_laid s.mem s.trampolinePage
      s.data.trapframe s.data.up s.pid
    swap
    · exact absurd hfits hno
    rw [halloc]
    obtain ⟨pgt,rfl,hb⟩ | ⟨rfl,-,hno⟩ := allocProcPagetable_built halloc
    swap
    · refine .inl ⟨_,_,rfl,fun elf' h _ => ⟨fun hp => hno hp.1,fun size _ hroom => ?_⟩⟩
      exact hno (hroom.mono (Nat.zero_le _))
    have hzero : pageCount 0=0 := by decide
    have himg : Imaged pgt m (pageCount 0) fun _ => 0 := by
      intro va hva
      rw [hzero,Nat.zero_mul] at hva
      exact absurd hva (Nat.not_lt_zero _)
    have hroom : Room s.pid 0 s.mem.heap.length := hb.room
    rw [← hzero] at hb
    dsimp only
    obtain ⟨ho,why,hr⟩ | ⟨ho,⟨w,u,size,hr,hsize,hbw,himgw⟩ | ⟨⟨w,e,hr⟩,hno⟩⟩ :=
      @loadSegments_fills s.mem m s.pid elf.phnum pgt f (elf.phoff%2^32) 0 (fun _ => 0) hb hnd himg
        fun va _ => rfl
    · rw [hr]
      exact .inr ⟨elf,rfl,not_not.mp hmagic,.inl ⟨⟨hroom,ho⟩,why,rfl⟩⟩
    · rw [hr]
      exact .inr ⟨elf,rfl,not_not.mp hmagic,.inr ⟨fun hp => ho hp.2,u,w,size,rfl,
        ⟨helf,not_not.mp hmagic,hsize⟩,hbw,himgw⟩⟩
    · rw [hr]
      refine .inl ⟨_,_,rfl,fun elf' h _ => ?_⟩
      cases h
      exact ⟨fun hp => ho hp.2,hno⟩

/-- What keeps `load` of a program from panicking, and makes the bytes right. -/
structure LoadFits (s : State) (f : File) (elf : ElfHeader) (args : List Arg) (size : ℕ) :
    Prop where
  /-- The first argument does not end with the stack. -/
  first : ∀ arg∈args.head?,(Arg.len arg+1)%16≠0
  /-- There is memory for the task. -/
  task : TaskFits s (pageCount size)
  /-- The size of the process can be rounded up. -/
  round : s.data.size+(pageSize-1) < 2^64
  /-- The segments are in the first 4 GiB of the file. -/
  places : PlacesFit (segments f elf)

/-- The file makes `load` neither panic nor load wrong bytes: no segment overflows, and where the
program and its stacks find room, all else fits. -/
def FileFits (s : State) (f : File) (args : List Arg) : Prop :=
  ∀ elf,f.elfHeader=some elf → elf.magic=elfMagic → ¬SegmentPanics s f elf ∧
    ∀ size,imageSize f elf.phnum 0 (elf.phoff%2^32)=some size →
      Room s.pid (pageCount size+stackPages) s.mem.heap.length → LoadFits s f elf args size

/-- The bytes of the segments stay behind their addresses when the stacks are filled and the page
table takes the place of the old one. -/
theorem imaged_committed {m m₂ w : Mem} {pgt u v : PageTable} {t : State} {n sp : ℕ}
    {img : ℕ → UInt8} (hb : Built s.mem s.pid n pgt m) (hnd : s.mem.heap.Nodup)
    (himg : Imaged pgt m n img) (hzero : ∀ va,n*pageSize ≤ va → img va=0)
    (halloc : pgt.uvmAlloc m (n*pageSize) ((n+stackPages)*pageSize)=
      .ok (v,w,some ((n+stackPages)*pageSize)))
    (hbw : Built s.mem s.pid (n+stackPages) v w) (hg : Guarded s.pid n u v)
    (hother : ∀ p,p≠(u.entryAt (n+4)).ppn → m₂.data p=w.data p) (ht : Committed t u m₂ n sp) :
    Imaged t.data.pagetable t.mem n img ∧ ∀ q,q < n → UserPage t.data.pagetable q := by
  have hstack : stackPages=320 := by decide
  have hpages : pages=134217728 := by decide
  have hbound := hbw.room.bound
  have hlt : n+stackPages < pages := by
    simp only [pageSize,maxva] at hbound
    omega
  have hgrown := himg.alloc hb hnd (pageCount_pages n) hzero halloc
  rw [pageCount_pages] at hgrown
  have hentry : ∀ q,q < n → u.entryAt q=v.entryAt q := fun q hq => by
    rw [hg.entry q (by omega),if_neg fun hguard => by
      have := hguard.1
      have htasks : maxTasksPerProc=64 := rfl
      omega]
  constructor
  · intro va hva
    have hq : va/pageSize < n := by
      simp only [pageSize] at hva ⊢
      omega
    have hppn : ppnAt u va=ppnAt v va := by rw [ppnAt,ppnAt,hentry _ hq]
    have hne : ppnAt v va≠(u.entryAt (n+4)).ppn := by
      rw [hg.ppn (by omega)]
      exact user_ppn_ne hbw hnd (by omega) (by omega) (by omega)
    rw [ht.byteAt (by omega),← hgrown va (by rw [Nat.add_mul]; omega),byteAt,byteAt,hppn,
      hother _ hne]
  · intro q hq
    rw [UserPage,ht.entry q (by omega),hentry q hq]
    exact hbw.user q (by omega)

end Whole

/-- `load` of any file, for a process as it should be, does not panic and loads the right bytes
exactly if the file fits: no segment that it comes to ends beyond 64 bits, and, where the program
and its stacks find room, the first argument does not end with the stack, there is memory for the
task, the size of the process can be rounded up, and all of a segment that is left to be seen is
from the first 4 GiB of the file. -/
theorem load_tolerates_iff {namei : List UInt8 → Option File} {s : State} {path : List UInt8}
    {args : List Arg} {f : File} (hfile : namei path=some f) (hsize : f.size < 2^32)
    (hsane : Sane s) (hfits : PidFits s.pid) (hpath : 0∈path) (hargs : ∀ arg∈args,Arg.Ends arg)
    (hargc : args.length < maxArg) :
    ((∀ why,load namei s path (args.map some)≠.error why) ∧
      ∀ t argc elf,load namei s path (args.map some)=.ok (t,.ok argc) → f.elfHeader=some elf →
        Filled t.data.pagetable t.mem f (segments f elf)) ↔
      FileFits s f args := by
  rw [load,hfile]
  obtain ⟨t,e,hr,hno⟩ | ⟨elf,helf,hmagic,⟨hpanic,why,hr⟩ | ⟨hpanic,pgt,m,size,hr,hprog,hb,himg⟩⟩ :=
    @loadImage_fills (s.logged .beginOp) hsane.nodup hfits f
  · rw [hr,ok_bind]
    refine iff_of_true ⟨(fun why h => by cases h),fun t argc elf h _ => by cases h⟩ ?_
    intro elf helf hmagic
    obtain ⟨hpanic,hfew⟩ := hno elf helf hmagic
    exact ⟨hpanic,fun size hs hroom => absurd (hroom.mono (Nat.le_add_right ..)) (hfew size hs)⟩
  · rw [hr,error_bind]
    exact iff_of_false (fun h => h.1 why rfl) fun h => (h elf helf hmagic).1 hpanic
  rw [hr,ok_bind]
  dsimp only
  rw [loadRest,pgRoundUp_pageCount,List.length_map]
  have hiff : FileFits s f args ↔
      (Room s.pid (pageCount size+stackPages) s.mem.heap.length → LoadFits s f elf args size) := by
    refine ⟨fun h => (h elf helf hmagic).2 size hprog.segments,fun h elf' h1 _ => ?_⟩
    rw [helf] at h1
    cases h1
    refine ⟨hpanic,fun size' h2 => ?_⟩
    rw [hprog.segments] at h2
    cases h2
    exact h
  rw [hiff]
  by_cases hroom : Room s.pid (pageCount size+stackPages) s.mem.heap.length
  swap
  · obtain ⟨hr',-⟩ | ⟨-,m',hr',-⟩ := loadStack_spec hb (args.map some)
    · exact absurd hr' hroom
    · have hr'' : loadStack pgt ((s.logged .beginOp).after m).mem (pageCount size*pageSize)
          ((s.logged .beginOp).after m).pid (args.map some)=.ok (m',.error .noStack) := hr'
      rw [hr'',ok_bind]
      exact iff_of_true ⟨(fun why h => by cases h),fun t argc elf h _ => by cases h⟩
        fun h => absurd h hroom
  obtain ⟨hfirst,v,w,u,m₂,sp,ps,halloc,hbw,hg,hheap,hother,hr',-,-⟩ | ⟨⟨arg,harg,hlen⟩,hr'⟩ :=
    loadStack_lays hb hroom hargs hargc
  · have hr'' : loadStack pgt ((s.logged .beginOp).after m).mem (pageCount size*pageSize)
        ((s.logged .beginOp).after m).pid (args.map some)=
        .ok (m₂,.ok (u,(pageCount size+stackPages)*pageSize,sp)) := hr'
    have hsame : ({((s.logged .beginOp).after m).setUstackBase (pageCount size*pageSize) with
        mem := m₂} : State)={s with
          mem := m₂
          log := s.log++[.beginOp]++[.endOp]
          data := {s.data with ustackBase := pageCount size*pageSize}} := rfl
    rw [hr'',ok_bind]
    dsimp only
    rw [hsame]
    obtain ⟨hcommit,t,ht,hcommitted⟩ | ⟨hcommit,why,ht⟩ := @commit_fits s path _ sp u v m₂ w hsane
      hpath hbw hg hheap (s.log++[.beginOp]++[.endOp]) elf.entry
    · rw [ht,ok_bind]
      have hlow : size < 2^32 := by
        have henough := hroom.enough
        have hphys := hsane.heap_le
        have htop : KernelStacks.physTop/pageSize=573440 := by decide
        rw [need,pageCount] at henough
        simp only [pageSize] at henough htop hphys
        omega
      have hbound := imageSize_bound hprog.segments
      have hzero : ∀ va,pageCount size*pageSize ≤ va →
          image f (segments f elf) (fun _ => 0) va=0 := by
        intro va hva
        refine image_not_covered fun ph hph hin => ?_
        obtain ⟨hph',hend⟩ := hbound ph hph
        have hmem := hph'.1
        have hlt := hin.2
        simp only [pageCount,pageSize] at hva
        omega
      obtain ⟨himg',huser⟩ := imaged_committed hb hsane.nodup himg hzero halloc hbw hg hother
        hcommitted
      have hfilled := filled_iff hsize hlow hbound himg' huser
      constructor
      · intro h _
        exact ⟨hfirst,hcommit.1,hcommit.2,hfilled.mp (h.2 t args.length elf rfl helf)⟩
      · intro h
        refine ⟨(fun why he => by cases he),fun t' argc elf' he helf' => ?_⟩
        cases he
        rw [helf] at helf'
        cases helf'
        exact hfilled.mpr (h hroom).places
    · rw [ht,error_bind]
      exact iff_of_false (fun h => h.1 why rfl) fun h => hcommit ⟨(h hroom).task,(h hroom).round⟩
  · have hr'' : loadStack pgt ((s.logged .beginOp).after m).mem (pageCount size*pageSize)
        ((s.logged .beginOp).after m).pid (args.map some)=.error (.copy .noMap) := hr'
    rw [hr'',error_bind]
    exact iff_of_false (fun h => h.1 _ rfl) fun h => (h hroom).first arg harg hlen

/-- Only a segment whose end does not fit into 64 bits overflows. -/
theorem overflows_wide {f : File} {pid free size : ℕ} {phs : List ProgHeader}
    (h : Overflows f pid free phs size) : ∃ ph∈phs,2^64 ≤ ph.vaddr+ph.memsz := by
  induction phs generalizing size with
  | nil => exact absurd h id
  | cons ph phs ih =>
    obtain hwide | ⟨-,-,hrest⟩ := h.2
    · exact ⟨ph,List.mem_cons_self ..,hwide⟩
    · obtain ⟨q,hq,hwide⟩ := ih hrest
      exact ⟨q,List.mem_cons_of_mem _ hq,hwide⟩

/-- Where the segments of a file are, in it and in memory. -/
def extents (f : File) : Option (List (ℕ×ℕ×ℕ)) :=
  f.elfHeader.map fun elf => (segments f elf).map fun ph => (ph.off,ph.vaddr,ph.memsz)

theorem tinyProgram_fits {s : State} (hmem : Memory s 1) (hsize : s.data.size=0) :
    FileFits s tinyProgram [letters 1] := by
  have hextents : extents tinyProgram=some [(0,0,1)] := by decide +kernel
  intro elf helf hmagic
  rw [extents,helf,Option.map_some] at hextents
  have hphs : ∀ ph∈segments tinyProgram elf,ph.off=0 ∧ ph.vaddr=0 ∧ ph.memsz=1 := by
    intro ph hph
    have hin : (ph.off,ph.vaddr,ph.memsz)∈[(0,0,1)] := by
      rw [← Option.some.inj hextents]
      exact List.mem_map_of_mem hph
    obtain ⟨h1,h2⟩ := Prod.mk.inj (List.mem_singleton.mp hin)
    exact ⟨h1,Prod.mk.inj h2⟩
  refine ⟨fun hpanic => ?_,fun size hs _ => ?_⟩
  · obtain ⟨ph,hph,hwide⟩ := overflows_wide hpanic.2
    obtain ⟨-,hva,hm⟩ := hphs ph hph
    rw [hva,hm] at hwide
    omega
  · obtain ⟨elf',hprog⟩ := tinyProgram_program
    have helf' := hprog.header
    rw [helf] at helf'
    cases helf'
    rw [hprog.segments] at hs
    cases hs
    refine ⟨fun arg harg => by cases harg; decide,hmem.task,by rw [hsize]; decide,?_⟩
    intro pre ph post hsplit i _ _
    rw [(hphs ph (by rw [hsplit]; simp)).1]
    decide

theorem load_tolerates_iff_tiny :
    ∃ s,started=some s ∧
      (∀ why,load (fun _ => some tinyProgram) s [47,97,0] ([letters 1].map some)≠.error why) ∧
      ∀ t argc elf,load (fun _ => some tinyProgram) s [47,97,0] ([letters 1].map some)=
          .ok (t,.ok argc) → tinyProgram.elfHeader=some elf →
        Filled t.data.pagetable t.mem tinyProgram (segments tinyProgram elf) := by
  obtain ⟨s,hs,hsane,hmem,hsize⟩ := started_ready
  exact ⟨s,hs,(@load_tolerates_iff (fun _ => some tinyProgram) s [47,97,0] [letters 1] tinyProgram
    rfl (by decide) hsane hmem.room.fits (by decide) (by decide) (by decide)).mpr
    (tinyProgram_fits hmem hsize)⟩

/-- A program with a segment of one page at the end of the 64-bit addresses. -/
def wideProgram : File where
  size := elfSize+phSize
  byte := putLE (putLE tinyProgram.byte (elfSize+16) 8 (2^64-4096)) (elfSize+40) 8 4096

/-- What `load` does with the program, without arguments. -/
def wideAnswer : Option (Except LoadPanic (Except LoadError ℕ)) :=
  started.map fun s => (load (fun _ => some wideProgram) s [47,97,0] []).map Prod.snd

/-- Its end overflows. -/
theorem wideProgram_panics :
    ∃ s,Sane s ∧ PidFits s.pid ∧
      load (fun _ => some wideProgram) s [47,97,0] []=.error .overflow := by
  obtain ⟨s,hs,hsane,hmem,-⟩ := started_ready
  have hanswer : wideAnswer=some (.error .overflow) := by decide +kernel
  rw [wideAnswer,hs,Option.map_some] at hanswer
  refine ⟨s,hsane,hmem.room.fits,?_⟩
  cases hload : load (fun _ => some wideProgram) s [47,97,0] [] with
  | error why =>
    rw [hload] at hanswer
    cases hanswer
    rfl
  | ok r =>
    rw [hload] at hanswer
    cases hanswer

end Xv6Rust.ElfImage
