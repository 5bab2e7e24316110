import Xv6Rust.FileOffset
import Xv6Rust.UserWrite

/-!
# What `fwrite` reports

`File::fwrite` of `fs/file/mod.rs` on a regular file writes in batches, each in a transaction of its
own, and adds what a batch has written to the offset of the file. Its result is made from the last
batch: the bytes up to it if it is cut short, but nothing where it is refused.
-/

namespace Xv6Rust.FileWrite

open Bytes DiskLayout InodeLayer BlockOwnership FileContents Paging CopyUser UserWrite
open LogWrites (Logged)
open UserBytes (UserPage)
open FileOffset (batchSize)

/-- What `fwrite` returns, and what it leaves of the file. -/
structure Result where
  /-- `Ok` of a number of bytes, or `Err`. -/
  ret : Option ℕ
  /-- `offset`. -/
  offset : ℕ
  /-- The blocks, as in the buffers. -/
  disk : Disk
  /-- The inode. -/
  dinode : DiskInode

section Fwrite

variable (sb : SuperBlock) (pgt : PageTable) (m : Mem) (inum count : ℕ) (others : ℕ → Disk → Disk)

/-- The loop of `fwrite` over the batches, each given by its first byte and in a transaction of its
own. Other processes change the disk before a batch. -/
def fwriteLoop : List ℕ → ℕ → ℕ → Disk → DiskInode → Except Fault Result
  | [],_,offset,d,di => .ok ⟨some count,offset,d,di⟩
  | i::is,addr,offset,d,di =>
    let writeCount := min batchSize (count-i)
    match UserWrite.tryIwrite sb pgt m inum addr offset writeCount ⟨others i d,[]⟩ di with
    | .error e => .error e
    | .ok (none,w,di) => .ok ⟨none,offset,w.disk,di⟩
    | .ok (some actual,w,di) =>
      if actual≠writeCount then .ok ⟨some (i+actual),offset+actual,w.disk,di⟩
      else if addr+writeCount ≥ 2^64 then .error (.copy .overflow)
      else fwriteLoop is (addr+writeCount) (offset+actual) w.disk di

/-- The first bytes of the batches, `(0..count).step_by(batch)`. -/
def batches : List ℕ := List.range' 0 ((count+batchSize-1)/batchSize) batchSize

/-- `fwrite` of a regular file with an offset. -/
def fwrite (writable : Bool) (addr offset : ℕ) (d : Disk) (di : DiskInode) : Except Fault Result :=
  if writable=false then .ok ⟨none,offset,d,di⟩
  else fwriteLoop sb pgt m inum count others (batches count) addr offset d di

end Fwrite

/-- Other processes do not touch the file: they leave it its blocks and its bytes. -/
def Apart (sb : SuperBlock) (inum : ℕ) (others : ℕ → Disk → Disk) : Prop :=
  ∀ i v d di,di.itype≠.empty → Owned sb d (withInode v inum di) →
    (∃ v',Owned sb (others i d) (withInode v' inum di)) ∧
      ∀ o,o < maxFileSize → byteAt (others i d) di o=byteAt d di o

/-- `fwrite` reports what it did: the offset has advanced by the bytes it reports, and they are
spliced into the old contents at the old offset; with `Err` there are none. -/
structure Honest (pgt : PageTable) (m : Mem) (src offset : ℕ) (d : Disk) (di : DiskInode)
    (s : Result) : Prop where
  /-- The offset. -/
  advance : s.offset=offset+s.ret.getD 0
  /-- The size. -/
  size : s.dinode.size.toNat=
    if s.ret.getD 0=0 then di.size.toNat else max di.size.toNat (offset+s.ret.getD 0)
  /-- The contents. -/
  bytes : ∀ o,o < s.dinode.size.toNat → o < maxFileSize →
    byteAt s.disk s.dinode o=spliced pgt m src offset (s.ret.getD 0) d di o

/-- A batch after the first one goes beyond the largest size of a file, and the source goes on up to
that batch. -/
def LateLimit (pgt : PageTable) (src offset count : ℕ) (di : DiskInode) : Prop :=
  offset ≤ di.size.toNat ∧ ∃ i,batchSize∣i ∧ 0 < i ∧ i < count ∧ offset+i ≤ maxFileSize ∧
    maxFileSize < offset+min (i+batchSize) count ∧ ∀ y,y ≤ i → UserPage pgt ((src+y)/pageSize)

/-- If the source ends before `count` bytes, at a page that is not mapped, the bytes before that
page that belong into the last block of the last batch are those of the file, as far as it has
any there. -/
def Unseen (pgt : PageTable) (m : Mem) (src offset count : ℕ) (d : Disk) (di : DiskInode) : Prop :=
  ∀ x,FirstUnmapped pgt src x → 0 < x → x ≤ count → ∀ y,y < x → y/batchSize=(x-1)/batchSize →
    (offset+y)/bsize=(offset+x-1)/bsize → offset+y < di.size.toNat →
      UserBytes.byteAt pgt m (src+y)=byteAt d di (offset+y)

/-- When `fwrite` reports what it did. -/
def Fair (pgt : PageTable) (m : Mem) (src offset count : ℕ) (d : Disk) (di : DiskInode) : Prop :=
  ¬LateLimit pgt src offset count di ∧
    (Refused di offset (min batchSize count) ∨ Unseen pgt m src offset count d di)

/-- The first `p` bytes of the source are written. -/
structure Going (sb : SuperBlock) (inum : ℕ) (pgt : PageTable) (m : Mem) (src offset : ℕ)
    (d : Disk) (di : DiskInode) (p : ℕ) (dc : Disk) (dic : DiskInode) : Prop where
  /-- Blocks are owned. -/
  owned : ∃ v,Owned sb dc (withInode v inum dic)
  /-- The inode is allocated. -/
  used : dic.itype≠.empty
  /-- They are spliced in. -/
  bytes : ∀ o,o < maxFileSize → byteAt dc dic o=spliced pgt m src offset p d di o
  /-- The size. -/
  size : dic.size.toNat=if p=0 then di.size.toNat else max di.size.toNat (offset+p)
  /-- They fit into the file. -/
  fits : 0 < p → offset ≤ di.size.toNat ∧ offset+p ≤ maxFileSize
  /-- Their pages and the one right behind them are mapped for the user. -/
  user : 0 < p → ∀ y,y ≤ p → UserPage pgt ((src+y)/pageSize)

section Batches

variable {sb : SuperBlock} {inum : ℕ} {pgt : PageTable} {m : Mem} {src offset count p : ℕ}
  {others : ℕ → Disk → Disk} {d dc : Disk} {di dic dic' : DiskInode} {w : Logged}

theorem Going.refl {v : ℕ → DiskInode} (hu : di.itype≠.empty)
    (h : Owned sb d (withInode v inum di)) : Going sb inum pgt m src offset d di 0 d di :=
  ⟨⟨v,h⟩,hu,fun _ _ => (spliced_zero _ _ _).symm,(if_pos rfl).symm,fun h => absurd h (by decide),
    fun h => absurd h (by decide)⟩

/-- Other processes leave it so. -/
theorem Going.aside (h : Going sb inum pgt m src offset d di p dc dic)
    (hap : Apart sb inum others) (i : ℕ) :
    Going sb inum pgt m src offset d di p (others i dc) dic := by
  obtain ⟨v,hown⟩ := h.owned
  obtain ⟨hown',hbytes⟩ := hap i v dc dic h.used hown
  exact ⟨hown',h.used,fun o ho => (hbytes o ho).trans (h.bytes o ho),h.size,h.fits,h.user⟩

/-- The size where bytes are written at a position in the file. -/
theorem Going.position (h : Going sb inum pgt m src offset d di p dc dic) (hle : offset ≤ di.size.toNat) :
    dic.size.toNat=max di.size.toNat (offset+p) := by
  have hsize := h.size
  split at hsize
  · omega
  · exact hsize

/-- Everything is written. -/
theorem Going.done (h : Going sb inum pgt m src offset d di count dc dic) :
    Honest pgt m src offset d di ⟨some count,offset+count,dc,dic⟩ ∧
      Fair pgt m src offset count d di := by
  refine ⟨⟨rfl,h.size,fun o _ ho => h.bytes o ho⟩,fun hlate => ?_,.inr fun x hx hpos hle => ?_⟩
  · obtain ⟨-,i,-,hpos,hlt,hin,hout,-⟩ := hlate
    have hfits := h.fits (by omega)
    omega
  · exact absurd (h.user (by omega) x hle) hx.1

/-- A batch is refused. -/
theorem Going.refused (h : Going sb inum pgt m src offset d di p dc dic) (hdvd : batchSize∣p)
    (hp : p < count) (hout : Refused dic (offset+p) (min batchSize (count-p))) :
    Honest pgt m src offset d di ⟨none,offset+p,dc,dic⟩ ↔ Fair pgt m src offset count d di := by
  have hmax : maxFileSize < 2^32 := by decide
  have hbatch : 0 < batchSize := by decide
  by_cases hzero : p=0
  · subst hzero
    have hsize : dic.size=di.size := UInt32.toNat_inj.mp h.size
    rw [Nat.sub_zero,Nat.add_zero,Refused,hsize] at hout
    refine iff_of_true ⟨rfl,h.size,fun o _ ho => h.bytes o ho⟩ ⟨fun hlate => ?_,.inl hout⟩
    obtain ⟨hle,i,⟨c,rfl⟩,hpos,hlt,hin,-,-⟩ := hlate
    have hc : 1 ≤ c := Nat.pos_of_mul_pos_left hpos
    have hge := Nat.mul_le_mul_left batchSize hc
    omega
  · have hpos : 0 < p := Nat.pos_of_ne_zero hzero
    obtain ⟨hle,hfit⟩ := h.fits hpos
    have hsize := h.position hle
    rw [Refused] at hout
    refine iff_of_false (fun hh => ?_) fun hfair => hfair.1 ⟨hle,p,hdvd,hpos,hp,hfit,?_,h.user hpos⟩
    · have hoff : offset+p=offset+0 := hh.advance
      omega
    · omega

/-- A batch is not refused: all of it is written, or the source ends in it. -/
theorem Going.batch (h : Going sb inum pgt m src offset d di p dc dic)
    (g : sb.Geometry) (hi : inum < sb.ninodes) {n a : ℕ} (hn : 0 < n)
    (hok : UserWrite.tryIwrite sb pgt m inum (src+p) (offset+p) n ⟨dc,[]⟩ dic=
      .ok (some a,w,dic')) :
    (offset ≤ di.size.toNat ∧ offset+p+n ≤ maxFileSize) ∧
      dic'.size.toNat=max di.size.toNat (offset+(p+a)) ∧
      ((a=n ∧ Going sb inum pgt m src offset d di (p+n) w.disk dic') ∨
        ∃ k,Ends pgt (src+p) (offset+p) n a k ∧ ∀ o,o < maxFileSize →
          byteAt w.disk dic' o=spliced pgt m src offset (p+(a+k)) d di o) := by
  obtain ⟨v,hown⟩ := h.owned
  obtain ⟨-,e,-⟩ | ⟨hin,left,base,w₁,di₁,hw,e,hdi',rfl⟩ :=
    tryIwrite_filled (l:=⟨dc,[]⟩) g hown hi h.used hok
  · cases e
  · obtain rfl : a=n-left := Option.some.inj e
    have hu₁ : di₁.itype≠.empty := by
      rw [hw.grows.itype]
      exact h.used
    obtain ⟨ht,ha,hsize⟩ := hw.inode hin hdi'
    obtain ⟨hgrow₁,hend⟩ := hw.ends g hi hu₁
    obtain ⟨hown',hput,-⟩ := put_keeps g hi hu₁ hgrow₁.owned ht ha
    rw [Refused] at hin
    have hle : offset ≤ di.size.toNat := by
      by_cases hzero : p=0
      · subst hzero
        have hsame := h.size
        rw [if_pos rfl] at hsame
        omega
      · exact (h.fits (Nat.pos_of_ne_zero hzero)).1
    have hpos := h.position hle
    have hmax : offset+p+n ≤ maxFileSize := by omega
    have hsize' : dic'.size.toNat=max di.size.toNat (offset+(p+(n-left))) := by
      rw [hsize,hpos]
      omega
    refine ⟨⟨hle,hmax⟩,hsize',?_⟩
    obtain ⟨rfl,rfl,huser⟩ | ⟨k,hends,-,hbytes⟩ := hend
    · rw [Nat.sub_zero] at hsize' ⊢
      refine .inl ⟨rfl,⟨v,hown'⟩,by rwa [ht],fun o ho => ?_,?_,fun _ => ⟨hle,by omega⟩,
        fun _ y hy => ?_⟩
      · refine (hput o ho).trans ?_
        rw [hw.bytes o ho,Nat.sub_zero]
        exact spliced_append (h.bytes o ho)
      · rw [if_neg (by omega),hsize']
      · by_cases hy' : y < p
        · exact h.user (by omega) y hy'.le
        · have hu := huser hn (y-p) (by omega)
          have e' : src+p+(y-p)=src+y := by omega
          rwa [e'] at hu
    · refine .inr ⟨k,hends,fun o ho => (hput o ho).trans ?_⟩
      rw [hbytes o ho]
      exact spliced_append (h.bytes o ho)

/-- The source ends at the same byte for the call and for the batch. -/
theorem Going.unmapped (h : Going sb inum pgt m src offset d di p dc dic) {n a k : ℕ}
    (hends : Ends pgt (src+p) (offset+p) n a k) :
    FirstUnmapped pgt src (p+(a+k)) ∧ (0 < p+(a+k) → 0 < k) := by
  have hout := hends.unmapped
  have hnot : ¬UserPage pgt ((src+(p+(a+k)))/pageSize) := by
    rw [← Nat.add_assoc]
    exact hout.1
  refine ⟨⟨hnot,fun y hy => ?_⟩,fun hpos => ?_⟩
  · by_cases hy' : y < p
    · exact h.user (by omega) y hy'.le
    · have hu := hout.2 (y-p) (by omega)
      have e : src+p+(y-p)=src+y := by omega
      rwa [e] at hu
  · by_contra hk
    have ha : a=0 := by
      have hp := hends.positive
      omega
    have hk' : k=0 := by omega
    simp only [ha,hk',Nat.add_zero] at hnot hpos
    exact hnot (h.user hpos p le_rfl)

/-- Numbers in one batch. -/
theorem div_batch (hdvd : batchSize∣p) {x y : ℕ} (hx : p ≤ x) (hlt : x < p+batchSize) :
    y/batchSize=x/batchSize ↔ p ≤ y ∧ y < p+batchSize := by
  obtain ⟨c,rfl⟩ := hdvd
  have hpos : 0 < batchSize := by decide
  have hc : x/batchSize=c := by
    rw [Nat.div_eq_iff hpos,Nat.mul_comm c]
    omega
  rw [hc,Nat.div_eq_iff hpos,Nat.mul_comm c]
  omega

/-- Where the source ends in a batch, the call is fair exactly if the bytes that are not reported
are those of the file, as far as it has any there. -/
theorem Going.fair_iff (h : Going sb inum pgt m src offset d di p dc dic) (hdvd : batchSize∣p)
    (hp : p < count) (hle : offset ≤ di.size.toNat)
    (hmax : offset+p+min batchSize (count-p) ≤ maxFileSize) {a k : ℕ}
    (hends : Ends pgt (src+p) (offset+p) (min batchSize (count-p)) a k) :
    Fair pgt m src offset count d di ↔ ∀ y,p+a ≤ y → y < p+(a+k) → offset+y < di.size.toNat →
      UserBytes.byteAt pgt m (src+y)=byteAt d di (offset+y) := by
  have hbatch : 0 < batchSize := by decide
  have hlimit : maxFileSize < 2^32 := by decide
  have hend := hends.bound
  obtain ⟨hfirst,hk⟩ := h.unmapped hends
  have hlate : ¬LateLimit pgt src offset count di := by
    intro hlate
    obtain ⟨-,i,⟨c,rfl⟩,-,hlt,-,hout,huser⟩ := hlate
    have hi : batchSize*c < p+(a+k) := by
      by_contra hn
      exact hfirst.1 (huser _ (not_lt.mp hn))
    obtain ⟨c',rfl⟩ := hdvd
    have hc : c ≤ c' := by
      by_contra hn
      have hge := Nat.mul_le_mul_left batchSize (show c'+1 ≤ c by omega)
      rw [Nat.mul_succ] at hge
      omega
    have hge := Nat.mul_le_mul_left batchSize hc
    omega
  have hin : ¬Refused di offset (min batchSize count) := by
    obtain ⟨c,rfl⟩ := hdvd
    rw [Refused]
    by_cases hc : c=0
    · subst hc
      rw [Nat.mul_zero,Nat.sub_zero] at hmax
      omega
    · have hge := Nat.mul_le_mul_left batchSize (Nat.pos_of_ne_zero hc)
      omega
  rw [Fair,and_iff_right hlate,or_iff_right hin]
  refine ⟨fun hun y hy hlt hsize => ?_,fun hsame x hx hpos hxc y hy hsb hblock hsize => ?_⟩
  · have hkpos := hk (by omega)
    refine hun (p+(a+k)) hfirst (by omega) (by omega) y hlt ?_ ?_ hsize
    · exact (div_batch hdvd (by omega) (by omega)).mpr ⟨by omega,by omega⟩
    · have hblock := (hends.same_block hkpos (show y-p < a+k by omega)).mpr (by omega)
      have e : offset+p+(y-p)=offset+y := by omega
      have e' : offset+p+(a+k)-1=offset+(p+(a+k))-1 := by omega
      rwa [e,e'] at hblock
  · obtain rfl := firstUnmapped_unique hx hfirst
    have hkpos := hk hpos
    have hpy := ((div_batch hdvd (by omega) (by omega)).mp hsb).1
    refine hsame y ?_ hy hsize
    have e : offset+p+(y-p)=offset+y := by omega
    have e' : offset+p+(a+k)-1=offset+(p+(a+k))-1 := by omega
    have hge := (hends.same_block hkpos (show y-p < a+k by omega)).mp (by rw [e,e']; exact hblock)
    omega

/-- A batch is cut short. -/
theorem Going.short (h : Going sb inum pgt m src offset d di p dc dic) (hdvd : batchSize∣p)
    (hp : p < count) (g : sb.Geometry) (hi : inum < sb.ninodes) {a : ℕ}
    (ha : a≠min batchSize (count-p))
    (hok : UserWrite.tryIwrite sb pgt m inum (src+p) (offset+p) (min batchSize (count-p)) ⟨dc,[]⟩
      dic=.ok (some a,w,dic')) :
    Honest pgt m src offset d di ⟨some (p+a),offset+p+a,w.disk,dic'⟩ ↔
      Fair pgt m src offset count d di := by
  have hbatch : 0 < batchSize := by decide
  obtain ⟨⟨hle,hmax⟩,hsize,⟨hfull,-⟩ | ⟨k,hends,hbytes⟩⟩ := h.batch g hi (by omega) hok
  · exact absurd hfull ha
  · have hend := hends.bound
    rw [h.fair_iff hdvd hp hle hmax hends]
    refine ⟨fun hh y hy hlt hsz => ?_,fun hsame => ⟨Nat.add_assoc .., ?_,fun o ho ho' => ?_⟩⟩
    · have hbyte : byteAt w.disk dic' (offset+y)=spliced pgt m src offset (p+a) d di (offset+y) :=
        hh.bytes (offset+y) (by show offset+y < dic'.size.toNat; omega) (by omega)
      rw [hbytes _ (by omega),spliced,spliced,if_pos ⟨by omega,by omega⟩,if_neg (by omega),
        Nat.add_sub_cancel_left] at hbyte
      exact hbyte
    · show dic'.size.toNat=if p+a=0 then di.size.toNat else max di.size.toNat (offset+(p+a))
      split
      · omega
      · exact hsize
    · show byteAt w.disk dic' o=spliced pgt m src offset (p+a) d di o
      change o < dic'.size.toNat at ho
      rw [hbytes o ho',spliced,spliced]
      by_cases hin : offset ≤ o ∧ o < offset+(p+a)
      · rw [if_pos hin,if_pos (by omega)]
      · rw [if_neg hin]
        split
        · rename_i hnew
          have e : offset+(o-offset)=o := by omega
          have hold := hsame (o-offset) (by omega) (by omega) (by omega)
          rwa [e] at hold
        · rfl

/-- The loop of `fwrite` from a batch on. -/
theorem fwriteLoop_honest (g : sb.Geometry) (hi : inum < sb.ninodes) (hap : Apart sb inum others)
    {s : Result} {k i : ℕ} (hdvd : batchSize∣i) (hcount : count ≤ i+k*batchSize)
    (hlast : 0 < k → i+(k-1)*batchSize < count)
    (h : Going sb inum pgt m src offset d di (min i count) dc dic)
    (hok : fwriteLoop sb pgt m inum count others (List.range' i k batchSize) (src+min i count)
      (offset+min i count) dc dic=.ok s) :
    Honest pgt m src offset d di s ↔ Fair pgt m src offset count d di := by
  induction k generalizing i dc dic with
  | zero =>
    have e : min i count=count := by omega
    rw [e] at h hok
    cases hok
    exact iff_of_true h.done.1 h.done.2
  | succ k ih =>
    have hp : i < count := by
      have hge := hlast (Nat.succ_pos k)
      omega
    have e : min i count=i := min_eq_left hp.le
    have hbatch : 0 < batchSize := by decide
    rw [e] at h hok
    have h' := h.aside hap i
    rw [List.range'_succ,fwriteLoop] at hok
    cases hrun : UserWrite.tryIwrite sb pgt m inum (src+i) (offset+i) (min batchSize (count-i))
        ⟨others i dc,[]⟩ dic with
    | error f =>
      simp only [hrun] at hok
      cases hok
    | ok x =>
      obtain ⟨r,w,dic'⟩ := x
      simp only [hrun] at hok
      cases r with
      | none =>
        cases hok
        obtain ⟨v,hown⟩ := h'.owned
        obtain ⟨hout,-,rfl,rfl⟩ | ⟨-,left,base,w₁,di₁,-,e',-⟩ :=
          tryIwrite_filled (l:=⟨others i dc,[]⟩) g hown hi h'.used hrun
        · exact h'.refused hdvd hp hout
        · cases e'
      | some a =>
        dsimp only at hok
        split at hok
        · rename_i hshort
          cases hok
          exact h'.short hdvd hp g hi hshort hrun
        · rename_i hfull
          obtain rfl : a=min batchSize (count-i) := not_not.mp hfull
          split at hok
          · cases hok
          · have hsucc : (k+1)*batchSize=k*batchSize+batchSize := Nat.succ_mul ..
            have hnext : i+min batchSize (count-i)=min (i+batchSize) count := by omega
            have hgo : Going sb inum pgt m src offset d di (min (i+batchSize) count) w.disk dic' := by
              obtain ⟨-,-,⟨-,hgo⟩ | ⟨k',hends,-⟩⟩ := h'.batch g hi (by omega) hrun
              · rwa [hnext] at hgo
              · exact absurd hends.part (lt_irrefl _)
            rw [Nat.add_assoc,Nat.add_assoc,hnext] at hok
            refine ih (Nat.dvd_add hdvd dvd_rfl) (by omega) (fun hk => ?_) hgo hok
            have hge := hlast (Nat.succ_pos k)
            have hs : (k-1+1)*batchSize=(k-1)*batchSize+batchSize := Nat.succ_mul ..
            have e' : k+1-1=k-1+1 := by omega
            rw [e',hs] at hge
            omega

/-- `fwrite` reports what it did exactly if it is not allowed to write, or the call is fair. -/
theorem fwrite_honest {v : ℕ → DiskInode} (g : sb.Geometry) (hi : inum < sb.ninodes)
    (hap : Apart sb inum others) (hu : di.itype≠.empty) (h : Owned sb d (withInode v inum di))
    {writable : Bool} {s : Result}
    (hok : fwrite sb pgt m inum count others writable src offset d di=.ok s) :
    Honest pgt m src offset d di s ↔ writable=false ∨ Fair pgt m src offset count d di := by
  have hgo : Going sb inum pgt m src offset d di (min 0 count) d di := by
    rw [Nat.zero_min]
    exact .refl hu h
  rw [fwrite] at hok
  split at hok
  · rename_i hw
    cases hok
    exact iff_of_true ⟨rfl,rfl,fun o _ ho => (hgo.bytes o ho).trans (by rw [Nat.zero_min]; rfl)⟩
      (.inl hw)
  · rename_i hw
    rw [or_iff_right hw]
    have hbatch : 0 < batchSize := by decide
    have hceil := Nat.div_add_mod' (count+batchSize-1) batchSize
    have hmod := Nat.mod_lt (count+batchSize-1) hbatch
    have hcount : count ≤ 0+(count+batchSize-1)/batchSize*batchSize := by omega
    have hlast : 0 < (count+batchSize-1)/batchSize →
        0+((count+batchSize-1)/batchSize-1)*batchSize < count := by
      intro hk
      have hs : ((count+batchSize-1)/batchSize-1+1)*batchSize=
          ((count+batchSize-1)/batchSize-1)*batchSize+batchSize := Nat.succ_mul ..
      rw [Nat.sub_add_cancel hk] at hs
      omega
    refine fwriteLoop_honest g hi hap (dvd_zero _) hcount hlast hgo ?_
    rw [Nat.zero_min,Nat.add_zero,Nat.add_zero]
    exact hok

end Batches

/-- For every regular file, offset, user buffer and count, where no other process touches the file:
if `fwrite` returns, it has reported what it did exactly if the file is not writable, or no batch
after the first one that it comes to goes beyond the largest size of a file, and the bytes that it
has read and not written are those of the file. -/
theorem fwrite_reports_iff (sb : SuperBlock) (g : sb.Geometry) (pgt : PageTable) (m : Mem)
    (inum count : ℕ) (others : ℕ → Disk → Disk) (writable : Bool) (src offset : ℕ) (d : Disk)
    (di : DiskInode) (v : ℕ → DiskInode) (hi : inum < sb.ninodes) (hap : Apart sb inum others)
    (hu : di.itype≠.empty) (h : Owned sb d (withInode v inum di)) (s : Result)
    (hok : fwrite sb pgt m inum count others writable src offset d di=.ok s) :
    Honest pgt m src offset d di s ↔ writable=false ∨ Fair pgt m src offset count d di :=
  fwrite_honest g hi hap hu h hok

/-- No other process is there. -/
theorem apart_alone (sb : SuperBlock) (inum : ℕ) : Apart sb inum fun _ d => d :=
  fun _ v _ _ _ h => ⟨⟨v,h⟩,fun _ _ => rfl⟩

theorem fwrite_reports_iff_oneByte :
    ∃ s,fwrite smallDevice processTable sevens 1 1 (fun _ d => d) true usyscall 0 emptyFile
        emptyInode=.ok s ∧ Honest processTable sevens usyscall 0 emptyFile emptyInode s := by
  obtain ⟨s,hok⟩ : ∃ s,fwrite smallDevice processTable sevens 1 1 (fun _ d => d) true usyscall 0
      emptyFile emptyInode=.ok s := by
    have htest : (fwrite smallDevice processTable sevens 1 1 (fun _ d => d) true usyscall 0 emptyFile
        emptyInode).toBool=true := by decide +kernel
    revert htest
    cases fwrite smallDevice processTable sevens 1 1 (fun _ d => d) true usyscall 0 emptyFile
        emptyInode with
    | error e =>
      intro h
      cases h
    | ok s => exact fun _ => ⟨s,rfl⟩
  refine ⟨s,hok,(fwrite_reports_iff smallDevice smallDevice_geometry processTable sevens 1 1
    (fun _ d => d) true usyscall 0 emptyFile emptyInode (inodeAt smallDevice emptyFile) (by decide)
    (apart_alone _ _) emptyInode_itype emptyInode_owned s hok).mpr
    (.inr ⟨fun hlate => ?_,.inr fun x hx hpos hle => absurd ?_ hx.1⟩)⟩
  · obtain ⟨-,i,-,hpos,hlt,-⟩ := hlate
    omega
  · obtain rfl : x=1 := by omega
    decide

section Limit

/-- A device with room for a file of the largest size. -/
def wideDevice : SuperBlock := ⟨512,508,16,2,3⟩

theorem wideDevice_bitmapBlockno {b : ℕ} (hb : b < wideDevice.size) :
    wideDevice.bitmapBlockno b=3 := by
  change b < 512 at hb
  show b/8192+3=3
  omega

theorem wideDevice_geometry : wideDevice.Geometry := by
  refine ⟨fun j hj => ?_,fun b hb => ?_,fun j b hj hb => ?_,by decide,by decide⟩
  · rw [show wideDevice.locateInode j=2 from smallDevice_locateInode hj]
    decide
  · rw [wideDevice_bitmapBlockno hb]
    decide
  · rw [show wideDevice.locateInode j=2 from smallDevice_locateInode hj,wideDevice_bitmapBlockno hb]
    decide

/-- Its blocks, with one empty file. -/
theorem wideDevice_bit {b : ℕ} (hb : b < wideDevice.size) :
    bit wideDevice emptyFile b=decide (b < 4) := by
  change b < 512 at hb
  revert b
  decide +kernel

theorem wideDevice_owned :
    Owned wideDevice emptyFile (withInode (inodeAt wideDevice emptyFile) 1 emptyInode) := by
  have hsame : withInode (inodeAt wideDevice emptyFile) 1 emptyInode=inodeAt smallDevice emptyFile :=
    Function.update_eq_self ..
  rw [hsame]
  have hnone : ∀ {j p b},¬Holds wideDevice emptyFile (inodeAt smallDevice emptyFile) j p b := by
    intro j p b hh
    have hh' : Holds smallDevice emptyFile (inodeAt smallDevice emptyFile) j p b :=
      ⟨hh.inum,hh.used,hh.pos,hh.addr,hh.nonzero⟩
    have hlow : 4 ≤ b ∧ b < 8 := emptyFile_owned.range hh'
    have hset := emptyFile_owned.held hh'
    have hclear : ∀ c,c < 8 → 4 ≤ c → bit smallDevice emptyFile c=false := by decide
    rw [hclear b hlow.2 hlow.1] at hset
    cases hset
  refine ⟨fun hj => absurd hj hnone,fun hj => absurd hj hnone,fun b hb => ?_⟩
  rw [wideDevice_bit hb,decide_eq_true_eq]
  refine ⟨.inl,fun h => h.resolve_right fun hheld => ?_⟩
  obtain ⟨j,p,hj⟩ := hheld
  exact hnone hj

/-- It has room. -/
theorem wideDevice_free : 269 ≤ freeBlocks wideDevice emptyFile := by
  have hsub : Finset.Ico 4 512 ⊆
      (Finset.range wideDevice.size).filter fun c => bit wideDevice emptyFile c=false := by
    intro c hc
    obtain ⟨hlo,hhi⟩ := Finset.mem_Ico.mp hc
    have hsize : c < wideDevice.size := hhi
    rw [Finset.mem_filter,Finset.mem_range,wideDevice_bit hsize]
    exact ⟨hsize,decide_eq_false (not_lt.mpr hlo)⟩
  have hcard := Finset.card_le_card hsub
  rw [Nat.card_Ico] at hcard
  rw [freeBlocks]
  omega

/-- A file without holes, of the largest size. -/
theorem exists_fullFile : ∃ d di,
    Owned wideDevice d (withInode (inodeAt wideDevice d) 1 di) ∧ di.itype≠.empty ∧ Whole d di ∧
      di.size.toNat=maxFileSize := by
  have hfree : missing emptyFile emptyInode (0/bsize) ((0+maxFileSize+bsize-1)/bsize) ≤
      freeBlocks wideDevice emptyFile := by
    have hlo : 0/bsize=0 := by decide
    have hhi : (0+maxFileSize+bsize-1)/bsize=268 := by decide
    rw [hlo,hhi,missing]
    have hcard := Finset.card_filter_le (Finset.Ico 0 268)
      fun bn => addrAt emptyFile emptyInode (posOf bn)=0
    rw [Nat.card_Ico] at hcard
    have hroom := wideDevice_free
    split
    · omega
    · omega
  have hsize : emptyInode.size.toNat=0 := by decide
  have hwhole : Whole emptyFile emptyInode := fun bn hbn => by
    rw [hsize] at hbn
    exact absurd hbn (Nat.not_lt_zero _)
  obtain ⟨⟨r,d',di'⟩,hok⟩ := @tryIwrite_ok wideDevice emptyFile _ emptyInode 1
    (kernelSource fun _ => 0) 0 maxFileSize wideDevice_geometry wideDevice_owned (by decide)
    emptyInode_itype hfree
  obtain ⟨-,hout⟩ | ⟨left,d₁,di₁,hw,-,hst,-,hnums,-,hrest,hle,-,hsize'⟩ :=
    tryIwrite_stored wideDevice_geometry wideDevice_owned (by decide) emptyInode_itype hok
  · have hlimit : maxFileSize < 2^32 := by decide
    omega
  · obtain ⟨rfl,-⟩ := hw.bytes (fun _ => 0) maxFileSize (fun _ _ _ => ⟨le_rfl,fun _ _ => rfl⟩)
      (by omega)
    have hu' : di'.itype≠.empty := by
      have e := congrArg DiskInode.itype hrest
      dsimp only at e
      rw [e]
      exact emptyInode_itype
    refine ⟨d',di',?_,hu',whole_of_wrote hw hwhole hnums hle hsize',?_⟩
    · rw [← hst.self,withInode_inodeAt]
      exact hst.owned
    · rw [hsize',hsize]
      decide

/-- A write in a file without holes allocates no block. -/
theorem missing_whole {d : Disk} {di : DiskInode} (h : Whole d di) {lo hi : ℕ}
    (hsize : hi*bsize ≤ di.size.toNat) : missing d di lo hi=0 := by
  have hmapped : ∀ bn,bn < hi → addrAt d di (posOf bn)≠0 := fun bn hbn =>
    (h bn (lt_of_lt_of_le (Nat.mul_lt_mul_of_pos_right hbn (by decide)) hsize)).2
  have hblocks : (Finset.Ico lo hi).filter (fun bn => addrAt d di (posOf bn)=0)=∅ := by
    refine Finset.filter_eq_empty_iff.mpr fun bn hbn => ?_
    exact hmapped bn (Finset.mem_Ico.mp hbn).2
  rw [missing,hblocks,if_neg]
  · rfl
  · rintro ⟨hlt,-,hzero⟩
    refine indirect_of_entry (p:=posOf ndirect) ?_ (hmapped ndirect hlt) hzero
    decide

/-- The last three blocks of a file of the largest size are written, and the batch after them is
refused: the offset has advanced by three blocks, and the result is `Err`. -/
theorem lateLimit_lost : ∃ d di s,
    Owned wideDevice d (withInode (inodeAt wideDevice d) 1 di) ∧ di.itype≠.empty ∧ Whole d di ∧
      di.size.toNat=maxFileSize ∧
      fwrite wideDevice processTable sevens 1 (batchSize+1) (fun _ d => d) true usyscall
        (maxFileSize-batchSize) d di=.ok s ∧
      s.ret=none ∧ ¬Honest processTable sevens usyscall (maxFileSize-batchSize) d di s := by
  obtain ⟨d,di,hown,hu,hwhole,hsize⟩ := exists_fullFile
  have hlimit : maxFileSize < 2^32 := by decide
  have hle : batchSize ≤ maxFileSize := by decide
  have hfree : missing d di ((maxFileSize-batchSize)/bsize)
      ((maxFileSize-batchSize+batchSize+bsize-1)/bsize) ≤ freeBlocks wideDevice d := by
    have hhi : (maxFileSize-batchSize+batchSize+bsize-1)/bsize*bsize=maxFileSize := by decide
    rw [missing_whole hwhole (by rw [hhi,hsize])]
    exact Nat.zero_le _
  obtain ⟨⟨r,d',di'⟩,hok⟩ := @tryIwrite_ok wideDevice d _ di 1 (kernelSource fun _ => 7)
    (maxFileSize-batchSize) batchSize wideDevice_geometry hown (by decide) hu hfree
  have huser : ∀ y,y ≤ batchSize → UserPage processTable ((usyscall+y)/pageSize) := by
    intro y hy
    have hbatch : batchSize=3072 := by decide
    have hpage : (usyscall+y)/pageSize=usyscall/pageSize := by
      have hus : usyscall=usyscall/pageSize*pageSize := by decide
      have hp : pageSize=4096 := rfl
      rw [Nat.div_eq_iff (by decide)]
      omega
    rw [hpage]
    decide
  obtain ⟨w,rfl,hrun⟩ := tryIwrite_of_kernel (l:=⟨d,[]⟩) (b:=fun _ => 7) (m:=sevens)
    (fun _ _ => rfl) huser (by decide) hok
  obtain ⟨-,hout⟩ | ⟨left,d₁,di₁,hw,rfl,-,-,-,-,-,-,-,hsize'⟩ :=
    tryIwrite_stored wideDevice_geometry hown (by decide) hu hok
  · omega
  · obtain ⟨rfl,-⟩ := hw.bytes (fun _ => 7) batchSize (fun _ _ _ => ⟨le_rfl,fun _ _ => rfl⟩)
      (by omega)
    rw [Nat.sub_zero] at hrun
    have hfull : maxFileSize-batchSize+batchSize=maxFileSize := Nat.sub_add_cancel hle
    have hrefused : UserWrite.tryIwrite wideDevice processTable sevens 1 (usyscall+batchSize)
        maxFileSize 1 ⟨w.disk,[]⟩ di'=.ok (none,⟨w.disk,[]⟩,di') := by
      rw [UserWrite.tryIwrite,if_pos]
      omega
    have hlist : batches (batchSize+1)=[0,batchSize] := by decide
    have hfirst : min batchSize (batchSize+1-0)=batchSize := by decide
    have hsecond : min batchSize (batchSize+1-batchSize)=1 := by decide
    have hlow : ¬usyscall+batchSize ≥ 2^64 := by decide
    refine ⟨d,di,⟨none,maxFileSize,w.disk,di'⟩,hown,hu,hwhole,hsize,?_,rfl,fun hh => ?_⟩
    · rw [fwrite,if_neg (by decide),hlist,fwriteLoop,hfirst]
      simp only [hrun]
      rw [if_neg (not_not.mpr rfl),if_neg hlow,hfull,fwriteLoop,hsecond]
      simp only [hrefused]
    · have hadvance : maxFileSize=maxFileSize-batchSize+0 := hh.advance
      revert hadvance
      decide

end Limit

end Xv6Rust.FileWrite
