import Xv6Rust.BlocksPassed
import Xv6Rust.SlotTable

/-!
# Operations that return

From a sound file system the operations of the inode cache return, if the cache has room and no
lock is held twice. What they leave is given exactly: which reference is taken or given, which
entry of the cache changes, and that a directory keeps its size and its bytes. So do reads and
writes of entries in a directory that is locked.
-/

namespace Xv6Rust.DirEntries

open Bytes DiskLayout InodeLayer BlockOwnership FileContents InodeSound
open LogWrites (Directories entryAt)
open SlotTable

section Cache

variable {K : InodeType → Prop} {s t : Fs} {hs : List Inode} {h : Inode} {i n m : ℕ}

/-- One operation after another. -/
theorem bind_ok {α β : Type} {o : Op α} {f : α → Op β} {a : α} (h : o s=.ok (a,t)) :
    (o >>= f) s=f a t := by
  show (o s >>= fun x => f x.1 x.2)=f a t
  rw [h]
  rfl

/-- The cache has an entry for an inode, or a free one. -/
def Room (s : Fs) (n : ℕ) : Prop :=
  ∃ i,i < ninode ∧ ((s.imeta i).refs=0 ∨ (s.imeta i).inum=n)

/-- `ICACHE.get` takes an entry of the inode or a free one. -/
theorem get_eq (hr : Room s n) : ∃ i,Icache.get n s=.ok (⟨n,i⟩,s.setMeta i ⟨n,(s.imeta i).refs+1⟩) ∧
    ((s.imeta i).refs=0 ∨ (s.imeta i).inum=n) := by
  rw [Icache.get]
  split
  · rename_i i hfind
    have hi := (find_entry hfind).2
    rw [decide_eq_true_eq] at hi
    refine ⟨i,?_,.inr hi.1⟩
    rw [Fs.retain,hi.1]
  · rename_i hnone
    split
    · rename_i i hfind
      have hi := (find_entry hfind).2
      rw [decide_eq_true_eq] at hi
      refine ⟨i,?_,.inl hi⟩
      rw [hi]
    · rename_i hfull
      obtain ⟨i,hlt,hi⟩ := hr
      have hno := List.find?_eq_none.mp hnone i (List.mem_range.mpr hlt)
      have hno' := List.find?_eq_none.mp hfull i (List.mem_range.mpr hlt)
      rw [decide_eq_true_eq] at hno hno'
      omega

/-- `ICACHE.get` gives a reference to an entry that is free or the inode's. -/
theorem get_returns (hg : Good K hs s) (hr : Room s n) :
    ∃ i,Icache.get n s=.ok (⟨n,i⟩,s.setMeta i ⟨n,(s.imeta i).refs+1⟩) ∧
      Good K (⟨n,i⟩::hs) (s.setMeta i ⟨n,(s.imeta i).refs+1⟩) ∧
      ((s.imeta i).refs=0 ∨ (s.imeta i).inum=n) := by
  obtain ⟨i,hok,hi⟩ := get_eq hr
  exact ⟨i,hok,((get_rule n s hg).1 _ _ hok).2,hi⟩

/-- `Inode::lock` takes a lock that is free, and then the inode is in the cache. -/
theorem lock_returns (hg : Good K hs s) (hm : h∈hs) (hfree : s.locked h.index=false)
    (hn : h.inum < s.sb.ninodes) (hu : (inodeAt s.sb s.disk h.inum).itype≠.empty) :
    ∃ di,h.lock s=.ok ((),(s.setLock h.index true).setData h.index ⟨some h.inum,di⟩) ∧
      Good K hs ((s.setLock h.index true).setData h.index ⟨some h.inum,di⟩) ∧
      (s.idata h.index=⟨some h.inum,di⟩ ∨ di=inodeAt s.sb s.disk h.inum) := by
  have hok : ∃ di,h.lock s=.ok ((),(s.setLock h.index true).setData h.index ⟨some h.inum,di⟩) ∧
      (s.idata h.index=⟨some h.inum,di⟩ ∨ di=inodeAt s.sb s.disk h.inum) := by
    rw [Inode.lock,if_neg (by rw [hfree]; exact Bool.false_ne_true)]
    dsimp only
    split
    · rename_i k hvalid
      have hvalid' : (s.idata h.index).valid=some k := hvalid
      have hkey := (hg.1.cached _ k hvalid').key
      rw [hg.2.key h hm] at hkey
      have hdata : s.idata h.index=⟨some h.inum,(s.idata h.index).dinode⟩ := by
        rw [hkey,← hvalid']
      refine ⟨_,?_,.inl hdata⟩
      rw [← hdata]
      show _=Except.ok ((),{s.setLock h.index true with
        idata := Function.update s.idata h.index (s.idata h.index)})
      rw [Function.update_eq_self]
      rfl
    · have hn' : ¬h.inum ≥ (s.setLock h.index true).sb.ninodes := not_le.mpr hn
      have hu' : ¬(inodeAt (s.setLock h.index true).sb (s.setLock h.index true).disk
          h.inum).itype=.empty := hu
      rw [if_neg hn',if_neg hu']
      exact ⟨_,rfl,.inr rfl⟩
  obtain ⟨di,hok,hdi⟩ := hok
  exact ⟨di,hok,((lock_rule hm s hg).1 _ _ hok).1,hdi⟩

/-- What `ICACHE.put` leaves. -/
structure Dropped (h : Inode) (s t : Fs) : Prop where
  /-- Super block. -/
  super : t.sb=s.sb
  /-- Locks. -/
  locked : t.locked=s.locked
  /-- Numbers of entries. -/
  inum : ∀ j,(t.imeta j).inum=(s.imeta j).inum
  /-- References. -/
  refs : ∀ j,(t.imeta j).refs=(s.imeta j).refs-if h.index=j then 1 else 0
  /-- Other entries. -/
  data : ∀ j,j≠h.index → t.idata j=s.idata j
  /-- An entry that is referenced still, or that holds no inode, stays, and so does the disk. -/
  stays : (s.imeta h.index).refs≠1 ∨ (s.idata h.index).valid=none →
    t.idata=s.idata ∧ t.disk=s.disk
  /-- An inode with links stays on disk. -/
  linked : 0 < (s.idata h.index).dinode.nlink → t.disk=s.disk
  /-- Otherwise the inode is freed. -/
  disk : t.disk=s.disk ∨ ∃ di,Stored s.sb h.inum s.disk t.disk di

/-- `ICACHE.put` returns, if the last reference is not to a locked inode. -/
theorem put_returns (hg : Good K (h::hs) s)
    (hfree : (s.imeta h.index).refs=1 → s.locked h.index=false) :
    ∃ t,Icache.put h s=.ok ((),t) ∧ Good K hs t ∧ Dropped h s t := by
  have hok : ∃ t,Icache.put h s=.ok ((),t) ∧ Dropped h s t := by
    have hsame : ∀ di,Dropped h s (s.release h.index) ∧
        (0 < (s.idata h.index).dinode.nlink → (s.imeta h.index).refs=1 →
          (s.idata h.index).valid≠none →
          Dropped h s ((s.setData h.index ⟨none,di⟩).release h.index)) := by
      refine fun di => ⟨⟨rfl,rfl,release_inum,release_refs,fun _ _ => rfl,fun _ => ⟨rfl,rfl⟩,
        fun _ => rfl,.inl rfl⟩,fun _ hone hvalid => ⟨rfl,rfl,release_inum,release_refs,
        fun j hj => Function.update_of_ne hj ..,fun hc => ?_,fun _ => rfl,.inl rfl⟩⟩
      exact absurd hc (by simp only [hone,hvalid,ne_eq,not_true_eq_false,or_self,not_false_eq_true])
    rw [Icache.put]
    dsimp only
    split
    · rename_i hone
      rw [if_neg (by rw [hfree hone]; exact Bool.false_ne_true)]
      split
      · exact ⟨_,rfl,(hsame (s.idata h.index).dinode).1⟩
      · rename_i k hvalid
        split
        · rename_i hlink
          exact ⟨_,rfl,(hsame _).2 hlink hone (by rw [hvalid]; exact Option.some_ne_none _)⟩
        · rename_i hzero
          have hc := hg.1.cached _ k hvalid
          have hkey : k=h.inum := by
            rw [← hc.key,hg.2.key h (List.mem_cons_self ..)]
          obtain ⟨d',di',htr,-,hst⟩ := truncate_stored hg.1.geometry
            (hc.owned hg.1) hc.inum hc.used
            (show ({(s.idata h.index).dinode with itype := .empty} : DiskInode).addrs=_ from rfl)
          rw [htr]
          refine ⟨_,rfl,rfl,rfl,release_inum,release_refs,fun j hj => Function.update_of_ne hj ..,
            fun hc => ?_,fun hlink => absurd hlink hzero,.inr ⟨di',hkey ▸ hst⟩⟩
          obtain hc | hc := hc
          · exact absurd hone hc
          · rw [hvalid] at hc
            cases hc
    · exact ⟨_,rfl,(hsame (s.idata h.index).dinode).1⟩
  obtain ⟨t,hok,ht⟩ := hok
  exact ⟨t,hok,(put_rule s hg).1 _ _ hok,ht⟩

end Cache

section Names

/-- A name ends with a zero. -/
def Terminated (name : Name) : Prop := ∃ i,name i=0

/-- The bytes of a name before the first zero. -/
def text (name : Name) : List UInt8 := (List.ofFn name).takeWhile (·≠0)

/-- The slot that an entry is: free, or a name with an inode. -/
def slot (e : DirEntry) : Option (List UInt8×ℕ) :=
  if e.inum=0 then none else some (text e.name,e.inum)

theorem sameName_iff {a b : Name} {is : List (Fin maxDirSize)} : sameName a b is=true ↔
    (∃ i∈is,a i=0) ∧ (is.map a).takeWhile (·≠0)=(is.map b).takeWhile (·≠0) := by
  induction is with
  | nil => simp [sameName]
  | cons i is ih =>
    rw [sameName]
    by_cases hne : a i=b i
    · by_cases hzero : a i=0
      · simp [hzero,← hne]
      · rw [if_neg (not_not.mpr hne),if_neg hzero,ih]
        simp [hzero,← hne]
    · rw [if_pos hne]
      refine iff_of_false Bool.false_ne_true fun hc => hne ?_
      have heq := hc.2
      by_cases ha : a i=0
      · by_cases hb : b i=0
        · rw [ha,hb]
        · simp [ha,hb] at heq
      · by_cases hb : b i=0
        · simp [ha,hb] at heq
        · simp [ha,hb] at heq
          exact heq.1

/-- `dir_lookup` takes an entry for a name if it ends with a zero and has the same text. -/
theorem named_iff {e : DirEntry} {name : Name} :
    e.named name=true ↔ Terminated e.name ∧ text e.name=text name := by
  rw [DirEntry.named,sameName_iff,Terminated,text,text,List.ofFn_eq_map,List.ofFn_eq_map]
  simp only [List.mem_finRange,true_and]

end Names

section Reading

variable {s t : Fs} {i n : ℕ} {name : Name} {offs : List ℕ}

/-- An entry depends on its bytes. -/
theorem getEntry_congr {b c : Buffer} {off off' : ℕ}
    (h : ∀ k,k < deSize → b (off+k)=c (off'+k)) : getEntry b off=getEntry c off' := by
  have hinum : getLE b off 2=getLE c off' 2 := by
    have h0 := h 0 (by decide)
    have h1 := h 1 (by decide)
    rw [Nat.add_zero,Nat.add_zero] at h0
    simp only [getLE,h0,h1]
  rw [getEntry,getEntry,hinum]
  congr 1
  funext j
  have hj := h (2+j) (Nat.add_lt_add_left j.isLt 2)
  rwa [← Nat.add_assoc,← Nat.add_assoc] at hj

/-- A directory in the cache whose entries can be read. -/
structure Loaded (i n : ℕ) (s : Fs) : Prop where
  /-- The file system is sound. -/
  sound : Sound Directories s
  /-- The inode is in the cache. -/
  valid : (s.idata i).valid=some n
  /-- It is a directory. -/
  isDir : IsDir i s

theorem Loaded.cached (h : Loaded i n s) : Cached s i n := h.sound.cached i n h.valid

/-- The size of the directory. -/
def dirSize (s : Fs) (n : ℕ) : ℕ := (inodeAt s.sb s.disk n).size.toNat

theorem Loaded.size (h : Loaded i n s) : (s.idata i).dinode.size.toNat=dirSize s n := by
  rw [h.cached.same.size,dirSize]

/-- A directory is not larger than a file can be. -/
theorem Loaded.size_le (h : Loaded i n s) : dirSize s n ≤ maxFileSize := by
  by_contra hn
  have hwhole := h.cached.whole h.sound h.isDir
  have hlt := (hwhole (ndirect+nindirect) (by rw [h.size]; exact not_le.mp hn)).1
  exact absurd hlt (lt_irrefl _)

theorem readEntry_returns (h : Loaded i n s) {off : ℕ} (hoff : off+deSize ≤ dirSize s n) :
    readEntry i off s=.ok (some (entryAt s n off),s) := by
  have hc := h.cached
  have hlt := (inodeAt s.sb s.disk n).size.toNat_lt
  obtain ⟨b,hread,hok⟩ := readEntry_eq (K:=Directories) rfl h.sound h.isDir off h.valid
  obtain ⟨b',hread',hsome⟩ := iread_whole s.sb (hc.whole h.sound h.isDir) off deSize
  rw [hread] at hread'
  cases hread'
  rw [← h.size] at hoff
  obtain ⟨b,rfl⟩ := Option.ne_none_iff_exists'.mp
    (hsome (by rw [h.size,dirSize] at hoff; omega) hoff)
  obtain ⟨-,-,-,hb⟩ := iread_spec h.sound.geometry (hc.owned h.sound) hc.inum hc.used hread
  rw [hok,Option.map_some,entryAt]
  congr 3
  refine getEntry_congr fun k hk => ?_
  rw [hb,Nat.zero_add,if_pos hk]
  exact byteAt_addrs hc.same.addrs _

/-- An entry in use that `dir_lookup` takes for a name. -/
def Matches (s : Fs) (n : ℕ) (name : Name) (off : ℕ) : Prop :=
  (entryAt s n off).inum≠0 ∧ (entryAt s n off).named name=true

/-- The loop of `dir_lookup` finds an entry if there is one, and changes nothing before. -/
theorem dirLookupLoop_returns (h : Loaded i n s)
    (hoffs : ∀ off∈offs,off+deSize ≤ dirSize s n) :
    (dirLookupLoop i name offs s=.ok (none,s) ∧ ∀ off∈offs,¬Matches s n name off) ∨
      ∃ off∈offs,Matches s n name off ∧ dirLookupLoop i name offs s=
        (Icache.get (entryAt s n off).inum >>= fun h => pure (some (h,off))) s := by
  induction offs with
  | nil => exact .inl ⟨rfl,fun off hoff => by cases hoff⟩
  | cons off offs ih =>
    have hread := readEntry_returns h (hoffs off (List.mem_cons_self ..))
    have hrest := ih fun x hx => hoffs x (List.mem_cons_of_mem _ hx)
    rw [dirLookupLoop,bind_ok hread]
    have hskip : ¬Matches s n name off →
        (dirLookupLoop i name offs s=.ok (none,s) ∧ ∀ x∈off::offs,¬Matches s n name x) ∨
          ∃ x∈off::offs,Matches s n name x ∧ dirLookupLoop i name offs s=
            (Icache.get (entryAt s n x).inum >>= fun h => pure (some (h,x))) s := by
      intro hno
      obtain ⟨hok,hall⟩ | ⟨x,hx,hmatch,hok⟩ := hrest
      · refine .inl ⟨hok,fun x hx => ?_⟩
        obtain rfl | hx := List.mem_cons.mp hx
        · exact hno
        · exact hall x hx
      · exact .inr ⟨x,List.mem_cons_of_mem _ hx,hmatch,hok⟩
    dsimp only
    split
    · rename_i hzero
      exact hskip fun hm => hm.1 hzero
    · split
      · rename_i hused hnamed
        exact .inr ⟨off,List.mem_cons_self ..,⟨hused,hnamed⟩,rfl⟩
      · rename_i hnamed
        exact hskip fun hm => hnamed hm.2

/-- The search of `dir_link` finds a free entry if there is one. -/
theorem freeOffset_returns (size : ℕ) (h : Loaded i n s)
    (hoffs : ∀ off∈offs,off+deSize ≤ dirSize s n) :
    (freeOffset i size offs s=.ok (size,s) ∧ ∀ off∈offs,(entryAt s n off).inum≠0) ∨
      ∃ off∈offs,(entryAt s n off).inum=0 ∧ freeOffset i size offs s=.ok (off,s) := by
  induction offs with
  | nil => exact .inl ⟨rfl,fun off hoff => by cases hoff⟩
  | cons off offs ih =>
    have hread := readEntry_returns h (hoffs off (List.mem_cons_self ..))
    rw [freeOffset,bind_ok hread]
    dsimp only
    split
    · rename_i hzero
      exact .inr ⟨off,List.mem_cons_self ..,hzero,rfl⟩
    · rename_i hused
      obtain ⟨hok,hall⟩ | ⟨x,hx,hzero,hok⟩ := ih fun x hx => hoffs x (List.mem_cons_of_mem _ hx)
      · refine .inl ⟨hok,fun x hx => ?_⟩
        obtain rfl | hx := List.mem_cons.mp hx
        · exact hused
        · exact hall x hx
      · exact .inr ⟨x,List.mem_cons_of_mem _ hx,hzero,hok⟩

/-- The loop of `dir_is_empty` tells whether entries are free. -/
theorem dirIsEmptyLoop_returns (h : Loaded i n s)
    (hoffs : ∀ off∈offs,off+deSize ≤ dirSize s n) :
    dirIsEmptyLoop i offs s=.ok (decide (∀ off∈offs,(entryAt s n off).inum=0),s) := by
  induction offs with
  | nil => rfl
  | cons off offs ih =>
    have hread := readEntry_returns h (hoffs off (List.mem_cons_self ..))
    rw [dirIsEmptyLoop,bind_ok hread]
    dsimp only
    split
    · rename_i hused
      rw [decide_eq_false]
      · rfl
      · exact fun hall => hused (hall off (List.mem_cons_self ..))
    · rename_i hfree
      rw [ih fun x hx => hoffs x (List.mem_cons_of_mem _ hx)]
      simp only [List.forall_mem_cons,not_not.mp hfree,true_and]

end Reading

section Slots

variable {s t u : Fs} {i n : ℕ}

/-- The slots of a directory on disk. -/
def slots (s : Fs) (n : ℕ) : List (Option (List UInt8×ℕ)) :=
  (List.range (dirSize s n/deSize)).map fun k => slot (entryAt s n (deSize*k))

theorem length_slots : (slots s n).length=dirSize s n/deSize := by
  rw [slots,List.length_map,List.length_range]

theorem getElem?_slots (k : ℕ) : (slots s n)[k]?=
    if k < dirSize s n/deSize then some (slot (entryAt s n (deSize*k))) else none := by
  rw [slots,List.getElem?_map]
  split
  · rename_i hk
    rw [List.getElem?_range hk,Option.map_some]
  · rename_i hk
    rw [List.getElem?_eq_none (by rw [List.length_range]; omega),Option.map_none]

/-- A directory on disk is as it was. -/
structure Kept (n : ℕ) (s t : Fs) : Prop where
  /-- Super block. -/
  super : t.sb=s.sb
  /-- Size. -/
  size : dirSize t n=dirSize s n
  /-- Bytes. -/
  bytes : ∀ o,o < maxFileSize →
    byteAt t.disk (inodeAt t.sb t.disk n) o=byteAt s.disk (inodeAt s.sb s.disk n) o

theorem Kept.of_disk (hsb : t.sb=s.sb) (hdisk : t.disk=s.disk) : Kept n s t := by
  refine ⟨hsb,?_,fun o _ => ?_⟩
  · rw [dirSize,hsb,hdisk,dirSize]
  · rw [hsb,hdisk]

theorem Kept.trans (h : Kept n s t) (h' : Kept n t u) : Kept n s u :=
  ⟨h'.super.trans h.super,h'.size.trans h.size,fun o ho => (h'.bytes o ho).trans (h.bytes o ho)⟩

theorem Kept.entryAt (h : Kept n s t) {off : ℕ} (hoff : off+deSize ≤ maxFileSize) :
    entryAt t n off=LogWrites.entryAt s n off := by
  refine getEntry_congr fun k hk => ?_
  exact h.bytes _ (by omega)

theorem Kept.slots (h : Kept n s t) (hmax : dirSize s n ≤ maxFileSize) : slots t n=slots s n := by
  refine List.ext_getElem? fun k => ?_
  rw [getElem?_slots,getElem?_slots,h.size]
  split
  · rename_i hk
    have hend : deSize*k+deSize ≤ dirSize s n := by
      rw [deSize] at hk ⊢
      omega
    rw [h.entryAt (by omega)]
  · rfl

/-- An operation on another inode. -/
theorem kept_of_stored {m : ℕ} {di : DiskInode} (hn : n < s.sb.ninodes)
    (hu : (inodeAt s.sb s.disk n).itype≠.empty) (hne : n≠m) (hsb : t.sb=s.sb)
    (hst : Stored s.sb m s.disk t.disk di) : Kept n s t := by
  have hsame : inodeAt t.sb t.disk n=inodeAt s.sb s.disk n := by rw [hsb,hst.others n hne hn]
  refine ⟨hsb,?_,fun o ho => ?_⟩
  · rw [dirSize,hsame,dirSize]
  · rw [hsame]
    exact hst.bytes n hne hn hu o ho

/-- The bytes of an entry are the entry. -/
theorem getEntry_entryBytes {e : DirEntry} (he : e.inum < 2^16) : getEntry (entryBytes e) 0=e := by
  have hinum : getLE (entryBytes e) 0 2=e.inum := by
    have hput : getLE (putLE (fun _ => 0) 0 2 e.inum) 0 2=e.inum :=
      getLE_putLE_self (he.trans_eq (by norm_num))
    rw [← hput]
    exact getLE_congr fun j _ hj => dif_neg (by omega)
  rw [getEntry,hinum]
  congr 1
  funext j
  have hj := j.isLt
  rw [entryBytes,dif_pos ⟨by omega,by omega⟩]
  congr 1
  exact Fin.ext (by show 0+2+j.val-2=j.val; omega)

/-- An entry is written in a directory. -/
structure Written (n off : ℕ) (e : DirEntry) (s t : Fs) : Prop where
  /-- Super block. -/
  super : t.sb=s.sb
  /-- Size. -/
  size : dirSize t n=max (dirSize s n) (off+deSize)
  /-- Bytes. -/
  bytes : ∀ o,o < maxFileSize → byteAt t.disk (inodeAt t.sb t.disk n) o=
    if off ≤ o ∧ o < off+deSize then entryBytes e (o-off)
      else byteAt s.disk (inodeAt s.sb s.disk n) o

/-- It is in its slot, and the other slots are as they were. -/
theorem Written.slots {k : ℕ} {e : DirEntry} (h : Written n (deSize*k) e s t) (he : e.inum < 2^16)
    (haligned : deSize∣dirSize s n) (hoff : deSize*k ≤ dirSize s n)
    (hend : deSize*k+deSize ≤ maxFileSize) (hmax : dirSize s n ≤ maxFileSize) :
    slots t n=place (slots s n) k (slot e) := by
  obtain ⟨c,hc⟩ := haligned
  have hlen : dirSize s n/deSize=c := by
    rw [hc]
    exact Nat.mul_div_cancel_left c (by decide)
  have hk : k ≤ c := by
    rw [hc] at hoff
    exact Nat.le_of_mul_le_mul_left hoff (by decide)
  have hlen' : dirSize t n/deSize=max c (k+1) := by
    rw [h.size,hc,deSize]
    omega
  refine List.ext_getElem? fun j => ?_
  rw [getElem?_place (by rw [length_slots,hlen]; exact hk),getElem?_slots,getElem?_slots,hlen,hlen']
  by_cases e' : j=k
  · have hself : LogWrites.entryAt t n (deSize*j)=e := by
      rw [← getEntry_entryBytes he,e']
      refine getEntry_congr fun x hx => ?_
      rw [Nat.zero_add,h.bytes _ (by omega),if_pos (by omega)]
      congr 1
      omega
    rw [if_pos e',if_pos (by omega),hself]
  · rw [if_neg e']
    by_cases hj : j < c
    · have hother : LogWrites.entryAt t n (deSize*j)=LogWrites.entryAt s n (deSize*j) := by
        refine getEntry_congr fun x hx => ?_
        rw [Nat.zero_add]
        rw [hc] at hmax
        rw [deSize] at hx hmax ⊢
        rw [h.bytes _ (by omega),if_neg (by rw [deSize]; omega)]
      rw [if_pos (by omega),if_pos hj,hother]
    · rw [if_neg (by omega),if_neg hj]

end Slots

section Writing

variable {s t : Fs} {i n m : ℕ} {hs : List Inode}

/-- What is missing depends on the block numbers of an inode only. -/
theorem missing_addrs {d : Disk} {di dj : DiskInode} (h : dj.addrs=di.addrs) (lo hi : ℕ) :
    missing d dj lo hi=missing d di lo hi := by
  have haddr : ∀ p,addrAt d dj p=addrAt d di p := addrAt_addrs h
  rw [missing,missing]
  simp only [haddr,← addrAt_ndirect (d:=d)]

/-- Nothing is missing in a file without holes below its size. -/
theorem missing_whole {d : Disk} {di : DiskInode} (h : Whole d di) {lo hi : ℕ}
    (hhi : ∀ bn,bn < hi → bn*bsize < di.size.toNat) : missing d di lo hi=0 := by
  have hnone : ((Finset.Ico lo hi).filter fun bn => addrAt d di (posOf bn)=0)=∅ := by
    refine Finset.filter_eq_empty_iff.mpr fun bn hbn => ?_
    exact (h bn (hhi bn (Finset.mem_Ico.mp hbn).2)).2
  rw [missing,hnone,Finset.card_empty,Nat.zero_add,if_neg]
  rintro ⟨hind,-,hzero⟩
  have hlast := (h (hi-1) (hhi (hi-1) (by omega))).2
  refine indirect_of_entry (p:=posOf (hi-1)) ?_ hlast hzero
  rw [posOf,if_neg (by omega)]
  omega

/-- There are free blocks for an entry at an offset. -/
def Free (s : Fs) (n off : ℕ) : Prop :=
  missing s.disk (inodeAt s.sb s.disk n) (off/bsize) ((off+deSize+bsize-1)/bsize) ≤
    freeBlocks s.sb s.disk

/-- Where an entry is, none are needed. -/
theorem Loaded.free (h : Loaded i n s) {k : ℕ} (hoff : deSize*k+deSize ≤ dirSize s n) :
    Free s n (deSize*k) := by
  have hc := h.cached
  have hwhole : Whole s.disk (inodeAt s.sb s.disk n) :=
    h.sound.whole n hc.inum (hc.same.itype ▸ hc.used) (hc.same.itype ▸ h.isDir)
  rw [Free,missing_whole hwhole fun bn hbn => ?_]
  · exact Nat.zero_le _
  · show bn*bsize < dirSize s n
    rw [deSize] at hoff hbn
    rw [bsize] at hbn ⊢
    omega

/-- An entry of a directory is written, if there is room for it. -/
theorem writeEntry_returns (h : Loaded i n s) (hg : Good Directories hs s) (e : DirEntry) {off : ℕ}
    (hoff : off ≤ dirSize s n) (hmax : off+deSize ≤ maxFileSize) (hfree : Free s n off) :
    ∃ d di t,t=Fs.setData {s with disk := d} i ⟨some n,di⟩ ∧ writeEntry i off e s=.ok (true,t) ∧
      Good Directories hs t ∧ Written n off e s t ∧ Stored s.sb n s.disk d di ∧
      di.itype=.directory ∧ di.nlink=(s.idata i).dinode.nlink := by
  have hc := h.cached
  have hsize := h.size
  have hself := @byteAt_addrs s.disk _ _ hc.same.addrs
  obtain ⟨⟨r,d,di⟩,hok⟩ := @tryIwrite_ok s.sb s.disk _ _ n (kernelSource (entryBytes e)) off deSize
    h.sound.geometry (hc.owned h.sound) hc.inum hc.used
    (by rw [missing_addrs hc.same.addrs]; exact hfree)
  obtain ⟨-,hout⟩ | ⟨left,d₁,di₁,hw,rfl,hst,-,-,hbytes,hrest,-,-,hsize'⟩ :=
    tryIwrite_stored h.sound.geometry (hc.owned h.sound) hc.inum hc.used hok
  · have hlt : maxFileSize<2^32 := by decide
    rw [hsize] at hout
    omega
  · obtain ⟨rfl,hcells⟩ := hw.bytes (entryBytes e) deSize (fun pos k _ => ⟨le_rfl,fun _ _ => rfl⟩)
      (by omega)
    have htype : di.itype=.directory := (congrArg DiskInode.itype hrest).trans h.isDir
    have hlinks := congrArg DiskInode.nlink hrest
    have hentry : writeEntry i off e s=
        .ok (true,Fs.setData {s with disk := d} i ⟨some n,di⟩) := by
      have hon : onInode i (fun sb inum d di =>
          tryIwrite sb inum (kernelSource (entryBytes e)) off deSize d di) s=
            .ok (some deSize,Fs.setData {s with disk := d} i ⟨some n,di⟩) := by
        simp only [onInode,h.valid,hok,Nat.sub_zero]
      rw [writeEntry,bind_ok hon]
      rfl
    refine ⟨d,di,_,rfl,hentry,(writeEntry_rule off e s hg).1 _ _ hentry,⟨rfl,?_,fun o ho => ?_⟩,hst,
      htype,hlinks⟩
    · show (inodeAt s.sb d n).size.toNat=_
      rw [hst.self,hsize',hsize,Nat.sub_zero]
    · show byteAt d (inodeAt s.sb d n) o=_
      rw [hst.self,hbytes o ho,hcells o ho,hself,Nat.zero_add]

/-- An inode is written to the inode table. -/
theorem kept_of_put {dj : DiskInode} (hs' : Sound Directories s) (hn : n < s.sb.ninodes)
    (hu : (inodeAt s.sb s.disk n).itype≠.empty) (hm : m < s.sb.ninodes) (hsb : t.sb=s.sb)
    (hdisk : t.disk=putInodeAt s.sb s.disk m dj)
    (hagree : n=m → Agrees dj (inodeAt s.sb s.disk n)) : Kept n s t := by
  have hsame : Agrees (inodeAt t.sb t.disk n) (inodeAt s.sb s.disk n) := by
    rw [hsb,hdisk,inodeAt_putInodeAt]
    split
    · rename_i e
      exact hagree e
    · exact .refl _
  refine ⟨hsb,?_,fun o ho => ?_⟩
  · rw [dirSize,hsame.size,dirSize]
  · rw [byteAt_addrs hsame.addrs,hdisk]
    exact putInodeAt_byteAt hs'.geometry hs'.owned hm hn hu ho

/-- `update` after a change of fields other than type, size and block numbers. -/
theorem adjust_returns {f : DiskInode → DiskInode} (hf : ∀ di,Agrees (f di) di)
    (hg : Good Directories hs s) (hvalid : (s.idata i).valid=some m) :
    ∃ s₁ t,setDinode i f s=.ok ((),s₁) ∧ update i s₁=.ok ((),t) ∧ Good Directories hs t ∧
      t.sb=s.sb ∧ t.imeta=s.imeta ∧ t.locked=s.locked ∧
      t.disk=putInodeAt s.sb s.disk m (f (s.idata i).dinode) ∧
      t.idata=Function.update s.idata i ⟨some m,f (s.idata i).dinode⟩ := by
  have hc := hg.1.cached i m hvalid
  have hset : setDinode i f s=.ok ((),s.setData i ⟨(s.idata i).valid,f (s.idata i).dinode⟩) := rfl
  have hg₁ := (setDinode_rule hf s hg).1 _ _ hset
  rw [hvalid] at hset hg₁
  have hdata := setData_self (i:=i) s ⟨some m,f (s.idata i).dinode⟩
  have hput : updateInode (s.setData i ⟨some m,f (s.idata i).dinode⟩).sb m
      (s.setData i ⟨some m,f (s.idata i).dinode⟩).disk (f (s.idata i).dinode)=
      .ok (putInodeAt s.sb s.disk m (f (s.idata i).dinode)) := if_neg (not_le.mpr hc.inum)
  have hok : update i (s.setData i ⟨some m,f (s.idata i).dinode⟩)=
      .ok ((),{(s.setData i ⟨some m,f (s.idata i).dinode⟩) with
        disk := putInodeAt s.sb s.disk m (f (s.idata i).dinode)}) := by
    rw [update,onInode]
    simp only [hdata,hput,bind,Except.bind,pure,Except.pure]
    rw [Fs.setData,Fs.setData]
    simp only [Function.update_idem]
  exact ⟨_,_,hset,hok,(update_rule _ hg₁).1 _ _ hok,rfl,rfl,rfl,rfl,rfl⟩

end Writing

end Xv6Rust.DirEntries
