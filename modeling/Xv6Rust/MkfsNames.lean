import Xv6Rust.FsRuns
import Xv6Rust.MkfsAccepted
import Xv6Rust.PathParse

/-!
# Opening the files of an image by name

`mkfs` stores up to 14 bytes of a name, `skip_path` keeps 13 of an element of a
path and `dir_lookup` compares up to a zero. So the names that are found are
those of at most 13 bytes that are not the names of the first two entries.
With more than 542 files the inodes that are written lie in the first block of
the root.
-/

namespace Xv6Rust.MkfsNames

open Bytes DiskLayout InodeLayer BlockOwnership FileContents Mkfs MkfsWrites MkfsImage MkfsAccepted
open InodeSound (setData_self setMeta_of_ne)
open PathParse (skipWhile_stop)
open DirEntries (Terminated text named_iff getEntry_congr bind_ok Room get_eq)

section Names

variable {name other : List UInt8}

/-- The bytes of a name that is stored. -/
theorem ofFn_storedName (name : List UInt8) : List.ofFn (storedName name)=
    name.take maxDirSize++List.replicate (maxDirSize-name.length) 0 := by
  refine List.ext_getElem ?_ fun i hi hi' => ?_
  · rw [List.length_ofFn,List.length_append,List.length_take,List.length_replicate]
    omega
  · rw [List.getElem_ofFn,storedName]
    rw [List.length_ofFn] at hi
    by_cases hlt : i < name.length
    · rw [List.getElem_append_left (by rw [List.length_take]; omega),List.getElem_take,
        List.getD_eq_getElem _ _ hlt]
    · rw [List.getElem_append_right (by rw [List.length_take]; omega),List.getElem_replicate,
        List.getD_eq_default _ _ (not_lt.mp hlt)]

theorem text_storedName (h : 0∉name) : text (storedName name)=name.take maxDirSize := by
  have hall : ∀ x∈name.take maxDirSize,decide (x≠0)=true := by
    intro x hx
    rw [decide_eq_true_eq]
    rintro rfl
    exact h (List.mem_of_mem_take hx)
  rw [text,ofFn_storedName,List.takeWhile_append_of_pos hall]
  cases maxDirSize-name.length with
  | zero => exact List.append_nil _
  | succ n =>
    rw [List.replicate_succ,List.takeWhile_cons_of_neg (by simp)]
    exact List.append_nil _

/-- A name that is stored ends with a zero if it is short. -/
theorem terminated_storedName (h : 0∉name) :
    Terminated (storedName name) ↔ name.length < maxDirSize := by
  rw [Terminated]
  constructor
  · rintro ⟨i,hi⟩
    by_contra hn
    have hlt : i.val < name.length := i.isLt.trans_le (not_lt.mp hn)
    rw [storedName,List.getD_eq_getElem _ _ hlt] at hi
    exact h (hi ▸ List.getElem_mem hlt)
  · exact fun hlt => ⟨⟨name.length,hlt⟩,List.getD_eq_default _ _ le_rfl⟩

/-- What is found of a name. -/
theorem named_storedName {inum : ℕ} (h : 0∉name) (h' : 0∉other) (hlen : other.length < maxDirSize) :
    (DirEntry.mk inum (storedName name)).named (storedName other)=true ↔ name=other := by
  rw [named_iff,terminated_storedName h,text_storedName h,text_storedName h',
    List.take_of_length_le hlen.le]
  refine ⟨fun hc => ?_,fun hc => ?_⟩
  · rw [List.take_of_length_le hc.1.le] at hc
    exact hc.2
  · rw [hc]
    exact ⟨hlen,List.take_of_length_le hlen.le⟩

end Names

section Paths

variable {s : List UInt8}

theorem pathAt_cons {k : ℕ} (hk : k < s.length) : pathAt (0x2f::s) (1+k)=s[k] := by
  rw [pathAt,Nat.add_comm,List.getD_cons_succ,List.getD_eq_getElem _ _ hk]

theorem pathAt_end : pathAt (0x2f::s) (1+s.length)=0 := by
  rw [pathAt,Nat.add_comm,List.getD_cons_succ,List.getD_eq_default _ _ le_rfl]

/-- The only element of a path of a slash and a name. -/
theorem skipPath_name (hs : s≠[]) (hzero : 0∉s) (hslash : 0x2f∉s) :
    skipPath (0x2f::s) 0 (fun _ => 0)=(1+s.length,storedName (s.take (maxDirSize-1))) := by
  have hpos := List.length_pos_of_ne_nil hs
  have hne : ∀ k (hk : k < s.length),s[k]≠0x2f ∧ s[k]≠0 := fun k hk =>
    ⟨fun e => hslash (e ▸ List.getElem_mem hk),fun e => hzero (e ▸ List.getElem_mem hk)⟩
  have hstart : skipWhile (fun c => c=0x2f) (0x2f::s) (0x2f::s).length 0=1 := by
    refine skipWhile_stop 1 (by rw [List.length_cons]; omega) (fun k hk => ?_) ?_
    · obtain rfl : k=0 := by omega
      rfl
    · have hfirst := pathAt_cons hpos
      rw [Nat.zero_add]
      rw [Nat.add_zero] at hfirst
      rw [hfirst]
      exact decide_eq_false (hne 0 hpos).1
  have hstop : skipWhile (fun c => c≠0x2f && c≠0) (0x2f::s) (0x2f::s).length 1=1+s.length := by
    refine skipWhile_stop s.length (by rw [List.length_cons]; omega) (fun k hk => ?_) ?_
    · rw [pathAt_cons hk]
      simp [hne k hk]
    · rw [pathAt_end]
      rfl
  have hend : skipWhile (fun c => c=0x2f) (0x2f::s) (0x2f::s).length (1+s.length)=1+s.length := by
    refine skipWhile_stop 0 (Nat.zero_le _) (fun k hk => by omega) ?_
    rw [Nat.add_zero,pathAt_end]
    rfl
  have hfirst : pathAt (0x2f::s) 1≠0 := by
    have hfirst := pathAt_cons hpos
    rw [Nat.add_zero] at hfirst
    rw [hfirst]
    exact (hne 0 hpos).2
  rw [skipPath]
  dsimp only
  rw [hstart,if_neg hfirst,hstop,hend]
  congr 1
  funext i
  have hi := i.isLt
  rw [storedName,Nat.add_sub_cancel_left]
  split
  · rename_i hlt
    have hlt' : i.val < s.length := by omega
    rw [pathAt_cons hlt',List.getD_eq_getElem _ _ (by rw [List.length_take]; omega),
      List.getElem_take]
  · rename_i hge
    rw [List.getD_eq_default _ _ (by rw [List.length_take]; omega)]
    split
    · rfl
    · rfl

/-- Behind it there is none. -/
theorem skipPath_end (name : Name) : skipPath (0x2f::s) (1+s.length) name=(0,name) := by
  have hend : skipWhile (fun c => c=0x2f) (0x2f::s) (0x2f::s).length (1+s.length)=1+s.length := by
    refine skipWhile_stop 0 (Nat.zero_le _) (fun k hk => by omega) ?_
    rw [Nat.add_zero,pathAt_end]
    rfl
  rw [skipPath]
  dsimp only
  rw [hend,if_pos pathAt_end]

end Paths

/-- A directory of entries on a disk: they lie in direct blocks, and what is behind them in the last
block is zero, if that block has a number at all. -/
structure RootOn (d : Disk) (di : DiskInode) (es : List (ℕ×List UInt8)) : Prop where
  /-- It is a directory. -/
  isDir : di.itype=.directory
  /-- It has a link. -/
  linked : 0 < di.nlink
  /-- The size is that of whole blocks. -/
  size : di.size.toNat=(es.length/64+1)*bsize
  /-- Direct blocks. -/
  direct : es.length/64 < ndirect
  /-- The blocks of the entries have numbers. -/
  mapped : ∀ {m : ℕ} {e},es[m]?=some e → di.addr (m/64)≠0
  /-- The entries. -/
  entry : ∀ {m : ℕ} {e},es[m]?=some e →
    getEntry (d (di.addr (m/64))) (deSize*(m%64))=⟨e.1,storedName e.2⟩ ∧ e.1≠0
  /-- Behind them. -/
  rest : di.addr (es.length/64)=0 ∨ ∀ j,deSize*(es.length%64) ≤ j → j < bsize →
    d (di.addr (es.length/64)) j=0

/-- An entry with a stored name is taken for a name. -/
def taken (e : ℕ×List UInt8) (name : Name) : Bool :=
  (DirEntry.mk e.1 (storedName e.2)).named name

section Lookups

variable {s t : Fs} {i n m : ℕ} {es : List (ℕ×List UInt8)} {name : Name}

/-- An entry is read in one block. -/
theorem readEntry_eq_map (hvalid : (s.idata i).valid=some n)
    (hin : deSize*m+deSize ≤ (s.idata i).dinode.size.toNat) :
    readEntry i (deSize*m) s=mapBlockno s.sb s.disk (s.idata i).dinode (m/64) >>= fun x =>
      .ok (some (getEntry (x.2.1 x.1) (deSize*(m%64))),
        Fs.setData {s with disk := x.2.1} i ⟨some n,x.2.2⟩) := by
  have hlt := (s.idata i).dinode.size.toNat_lt
  have hdiv : deSize*m/bsize=m/64 := by
    rw [deSize,bsize]
    omega
  have hmod : deSize*m%bsize=deSize*(m%64) := by
    rw [deSize,bsize]
    omega
  have hcount : min (bsize-deSize*(m%64)) deSize=deSize := by
    rw [deSize,bsize]
    omega
  have hread : iread s.sb s.disk (s.idata i).dinode (deSize*m) deSize=
      mapBlockno s.sb s.disk (s.idata i).dinode (m/64) >>= fun x =>
        .ok (some (splice (fun _ => 0) 0 (fun j => x.2.1 x.1 (deSize*(m%64)+j)) deSize),
          x.2.1,x.2.2) := by
    rw [iread,if_neg (by omega),hdiv,hmod]
    show (ireadLoop s.sb (15+1) s.disk (s.idata i).dinode (m/64) (deSize*(m%64)) deSize 0 _ >>=
      fun y => _)=_
    rw [ireadLoop,if_neg (by decide)]
    cases mapBlockno s.sb s.disk (s.idata i).dinode (m/64) with
    | error e => rfl
    | ok x =>
      obtain ⟨b,d,di⟩ := x
      show (ireadLoop s.sb 15 d di (m/64+1) 0 (deSize-min (bsize-deSize*(m%64)) deSize)
        (0+min (bsize-deSize*(m%64)) deSize) (splice (fun _ => 0) 0 _
          (min (bsize-deSize*(m%64)) deSize)) >>= fun y => _)=_
      rw [hcount,Nat.sub_self]
      rfl
  show (onInode i (fun sb _ d di => iread sb d di (deSize*m) deSize) s >>= fun y => _)=_
  simp only [onInode,hvalid,hread]
  cases mapBlockno s.sb s.disk (s.idata i).dinode (m/64) with
  | error e => rfl
  | ok x =>
    have hentry : getEntry (splice (fun _ => 0) 0 (fun j => x.2.1 x.1 (deSize*(m%64)+j)) deSize) 0=
        getEntry (x.2.1 x.1) (deSize*(m%64)) := by
      refine getEntry_congr fun j hj => ?_
      rw [splice,if_pos (by omega),Nat.zero_add,Nat.sub_zero]
    refine Eq.trans ?_ (Results.ok_bind x _).symm
    rw [← hentry]
    rfl

/-- A directory in the cache. -/
structure InCache (i n : ℕ) (es : List (ℕ×List UInt8)) (s : Fs) : Prop where
  /-- It is in the entry of the cache. -/
  valid : (s.idata i).valid=some n
  /-- Its entries. -/
  on : RootOn s.disk (s.idata i).dinode es

/-- An entry is read without a change. -/
theorem InCache.readEntry (h : InCache i n es s) {e : ℕ×List UInt8} (he : es[m]?=some e) :
    readEntry i (deSize*m) s=.ok (some ⟨e.1,storedName e.2⟩,s) := by
  have hm := (List.getElem?_eq_some_iff.mp he).1
  have hdirect := h.on.direct
  have hblock : m/64 < ndirect := by omega
  have hin : deSize*m+deSize ≤ (s.idata i).dinode.size.toNat := by
    rw [h.on.size,deSize,bsize]
    omega
  have haddr : addrAt s.disk (s.idata i).dinode (posOf (m/64))=(s.idata i).dinode.addr (m/64) := by
    rw [posOf,if_pos hblock,addrAt_direct hblock.le]
  have hne := h.on.mapped he
  have hmap : mapBlockno s.sb s.disk (s.idata i).dinode (m/64)=.ok (addrAt s.disk
      (s.idata i).dinode (posOf (m/64)),s.disk,(s.idata i).dinode) :=
    mapBlockno_mapped (hblock.trans (by decide)) (by rw [haddr]; exact hne)
  rw [haddr] at hmap
  rw [readEntry_eq_map h.valid hin,hmap,Results.ok_bind]
  have hsame : Fs.setData {s with disk := s.disk} i ⟨some n,(s.idata i).dinode⟩=s := by
    rw [Fs.setData,← h.valid,Function.update_eq_self]
  rw [hsame,(h.on.entry he).1]

/-- The loop of `dir_lookup` over entries finds the first that is taken for the name. -/
theorem InCache.lookup (h : InCache i n es s) (name : Name) (l : List ((ℕ×List UInt8)×ℕ))
    (more : List ℕ) (hl : ∀ x∈l,es[x.2]?=some x.1) :
    dirLookupLoop i name (l.map (fun x => deSize*x.2)++more) s=
      (l.find? fun x => taken x.1 name).elim (dirLookupLoop i name more s) fun x =>
        (Icache.get x.1.1 >>= fun h => pure (some (h,deSize*x.2))) s := by
  induction l with
  | nil => rfl
  | cons x l ih =>
    have hx := hl x (List.mem_cons_self ..)
    have hused := (h.on.entry hx).2
    rw [List.map_cons,List.cons_append,dirLookupLoop,bind_ok (h.readEntry hx),List.find?_cons]
    dsimp only
    rw [if_neg hused]
    split
    · rename_i hnamed
      have htaken : taken x.1 name=true := hnamed
      rw [htaken]
      rfl
    · rename_i hnamed
      have htaken : taken x.1 name=false := Bool.eq_false_iff.mpr hnamed
      rw [htaken]
      exact ih fun y hy => hl y (List.mem_cons_of_mem _ hy)

/-- What is behind the entries of a directory. -/
structure Behind (i n k : ℕ) (s : Fs) : Prop where
  /-- It is in the entry of the cache. -/
  valid : (s.idata i).valid=some n
  /-- The size is that of whole blocks. -/
  size : (s.idata i).dinode.size.toNat=(k/64+1)*bsize
  /-- A direct block. -/
  direct : k/64 < ndirect
  /-- Block numbers are `u32`. -/
  width : s.sb.size<256^4
  /-- Zeros. -/
  rest : (s.idata i).dinode.addr (k/64)=0 ∨ ∀ j,deSize*(k%64) ≤ j → j < bsize →
    s.disk ((s.idata i).dinode.addr (k/64)) j=0

/-- A free entry is read, if the block has or gets a number. -/
theorem Behind.readEntry {k : ℕ} (h : Behind i n k s) (hm : k ≤ m ∧ m/64=k/64)
    {r : Option DirEntry} (hok : readEntry i (deSize*m) s=.ok (r,t)) :
    (∃ e,r=some e ∧ e.inum=0) ∧ Behind i n k t := by
  have hin : deSize*m+deSize ≤ (s.idata i).dinode.size.toNat := by
    rw [h.size,deSize,bsize]
    omega
  have hentry : ∀ b : Buffer,(∀ j,deSize*(k%64) ≤ j → j < bsize → b j=0) →
      (getEntry b (deSize*(m%64))).inum=0 := by
    intro b hb
    refine Eq.trans (getLE_congr fun j hj hj' => hb j ?_ ?_) (getLE_zero (deSize*(m%64)) 2)
    · rw [deSize] at hj ⊢
      omega
    · rw [deSize] at hj'
      rw [bsize]
      omega
  rw [readEntry_eq_map h.valid hin,hm.2] at hok
  by_cases hzero : (s.idata i).dinode.addr (k/64)=0
  · rw [mapBlockno_eq,if_pos h.direct,if_pos hzero] at hok
    cases halloc : bmAlloc s.sb s.disk with
    | error e =>
      rw [halloc] at hok
      cases hok
    | ok x =>
      rw [halloc] at hok
      cases hok
      have hfresh : x.1<256^4 ∧ x.2 x.1=fun _ => 0 := by
        rw [bmAlloc] at halloc
        split at halloc
        · cases halloc
        · rename_i hfind
          have hlt := (bmFind_some hfind).1
          cases halloc
          exact ⟨hlt.trans h.width,Function.update_self ..⟩
      have hp : k/64<13 := h.direct.trans (by decide)
      have hself := setData_self {s with disk := x.2} (i:=i)
        ⟨some n,(s.idata i).dinode.setAddr (k/64) x.1⟩
      refine ⟨⟨_,rfl,?_⟩,?_,?_,h.direct,h.width,.inr fun j _ _ => ?_⟩
      · dsimp only
        rw [hfresh.2]
        exact hentry _ fun _ _ _ => rfl
      · rw [hself]
      · rw [hself]
        exact h.size
      · rw [hself]
        dsimp only
        rw [DiskInode.addr_setAddr _ hfresh.1 hp,if_pos rfl]
        exact congrFun hfresh.2 j
  · have haddr : addrAt s.disk (s.idata i).dinode (posOf (k/64))=
        (s.idata i).dinode.addr (k/64) := by
      rw [posOf,if_pos h.direct,addrAt_direct h.direct.le]
    have hmap : mapBlockno s.sb s.disk (s.idata i).dinode (k/64)=.ok (addrAt s.disk
        (s.idata i).dinode (posOf (k/64)),s.disk,(s.idata i).dinode) :=
      mapBlockno_mapped (h.direct.trans (by decide)) (by rw [haddr]; exact hzero)
    rw [haddr] at hmap
    rw [hmap] at hok
    cases hok
    have hrest := h.rest.resolve_left hzero
    have hsame : Fs.setData {s with disk := s.disk} i ⟨some n,(s.idata i).dinode⟩=s := by
      rw [Fs.setData,← h.valid,Function.update_eq_self]
    dsimp only
    rw [hsame]
    exact ⟨⟨_,rfl,hentry _ hrest⟩,h⟩

/-- The loop of `dir_lookup` finds nothing behind the entries. -/
theorem Behind.lookup {k : ℕ} (h : Behind i n k s) (ms : List ℕ)
    (hms : ∀ m∈ms,k ≤ m ∧ m/64=k/64) (x : Inode×ℕ) :
    dirLookupLoop i name (ms.map (fun m => deSize*m)) s≠.ok (some x,t) := by
  induction ms generalizing s with
  | nil => nofun
  | cons m ms ih =>
    intro hok
    rw [List.map_cons,dirLookupLoop] at hok
    obtain ⟨⟨r,u⟩,hread,hok⟩ := Results.bind_eq_ok hok
    obtain ⟨⟨e,rfl,hfree⟩,hu⟩ := h.readEntry (hms m (List.mem_cons_self ..)) hread
    dsimp only at hok
    rw [if_pos hfree] at hok
    exact ih hu (fun m hm => hms m (List.mem_cons_of_mem _ hm)) hok

/-- `dir_lookup` in a directory of entries. -/
theorem InCache.dirLookup (h : InCache i n es s) (hwidth : s.sb.size<256^4) (name : Name) :
    (es.zipIdx.find? (fun x => taken x.1 name)=none → ∀ x t,dirLookup i name s≠.ok (some x,t)) ∧
      ∀ x,es.zipIdx.find? (fun x => taken x.1 name)=some x →
        dirLookup i name s=(Icache.get x.1.1 >>= fun h => pure (some (h,deSize*x.2))) s := by
  have hdata : dinodeOf i s=.ok ((s.idata i).dinode,s) := rfl
  have hoffsets : offsets (s.idata i).dinode.size.toNat=
      es.zipIdx.map (fun x => deSize*x.2)++
        (List.range' es.length ((es.length/64+1)*64-es.length)).map fun m => deSize*m := by
    have hcount : ((s.idata i).dinode.size.toNat+deSize-1)/deSize=(es.length/64+1)*64 := by
      rw [h.on.size,deSize,bsize]
      omega
    have hfront : es.zipIdx.map (fun x => deSize*x.2)=
        (List.range es.length).map fun m => deSize*m := by
      rw [List.range_eq_range',← List.zipIdx_map_snd 0 es,List.map_map]
      rfl
    rw [offsets,hcount,hfront,range_split (show es.length ≤ (es.length/64+1)*64 by omega),
      List.map_append]
  have hlookup : InodeLayer.dirLookup i name s=dirLookupLoop i name (es.zipIdx.map
      (fun x => deSize*x.2)++(List.range' es.length ((es.length/64+1)*64-es.length)).map
        fun m => deSize*m) s := by
    rw [InodeLayer.dirLookup,bind_ok hdata,if_neg (not_not.mpr h.on.isDir),hoffsets]
  have hloop := h.lookup name es.zipIdx ((List.range' es.length
    ((es.length/64+1)*64-es.length)).map fun m => deSize*m) fun x hx =>
      List.mem_zipIdx_iff_getElem?.mp hx
  rw [hlookup,hloop]
  refine ⟨fun hnone x t => ?_,fun x hsome => ?_⟩
  · rw [hnone]
    refine Behind.lookup (n:=n) (k:=es.length) ⟨h.valid,h.on.size,h.on.direct,hwidth,h.on.rest⟩ _
      (fun m hm => ?_) x
    rw [List.mem_range'_1] at hm
    omega
  · rw [hsome]
    rfl

end Lookups

/-- The file system on an image, with nothing locked, the inodes in the cache those on disk, and
with room in the cache. -/
structure Quiet (d : Disk) (s : Fs) : Prop where
  /-- The super block is the one on the image. -/
  super : superBlock d=some s.sb
  /-- The image. -/
  disk : s.disk=d
  /-- Locks. -/
  unlocked : ∀ i,s.locked i=false
  /-- The inodes in the cache. -/
  cached : ∀ i n,(s.idata i).valid=some n → 0 < (s.imeta i).refs ∧ (s.imeta i).inum=n ∧
    (s.idata i).dinode=inodeAt s.sb s.disk n
  /-- Two free entries. -/
  room : ∃ i j,i < j ∧ j < ninode ∧ (s.imeta i).refs=0 ∧ (s.imeta j).refs=0

section Opening

variable {d : Disk} {s t : Fs} {i n : ℕ} {es : List (ℕ×List UInt8)}

/-- `ICACHE.put` of an inode with a link returns. -/
theorem put_linked (h : Inode) (hfree : s.locked h.index=false)
    (hlink : 0 < (s.idata h.index).dinode.nlink) : ∃ t,Icache.put h s=.ok ((),t) := by
  rw [Icache.put]
  dsimp only
  split
  · rw [if_neg (by rw [hfree]; exact Bool.false_ne_true)]
    split
    · exact ⟨_,rfl⟩
    · exact ⟨_,rfl⟩
  · exact ⟨_,rfl⟩

/-- The root is taken and locked. -/
theorem Quiet.open_root (hq : Quiet d s) (hn : rootInum < s.sb.ninodes)
    (hroot : RootOn s.disk (inodeAt s.sb s.disk rootInum) es) :
    ∃ i u v,Icache.get rootInum s=.ok (⟨rootInum,i⟩,u) ∧
      Inode.lock ⟨rootInum,i⟩ u=.ok ((),v) ∧ InCache i rootInum es v ∧ v.sb=s.sb ∧
      ∀ n,Room v n := by
  obtain ⟨a,b,hab,hb,ha0,hb0⟩ := hq.room
  obtain ⟨i,hget,hi⟩ := get_eq (s:=s) (n:=rootInum) ⟨b,hb,.inl hb0⟩
  have hroom : ∀ n,Room (s.setMeta i ⟨rootInum,(s.imeta i).refs+1⟩) n := by
    intro n
    by_cases hia : i=a
    · refine ⟨b,hb,.inl ?_⟩
      rw [setMeta_of_ne s _ (by omega)]
      exact hb0
    · refine ⟨a,hab.trans hb,.inl ?_⟩
      rw [setMeta_of_ne s _ (Ne.symm hia)]
      exact ha0
  have hlocked : (s.setMeta i ⟨rootInum,(s.imeta i).refs+1⟩).locked i=false := hq.unlocked i
  cases hvalid : (s.idata i).valid with
  | none =>
    refine ⟨i,_,((s.setMeta i ⟨rootInum,(s.imeta i).refs+1⟩).setLock i true).setData i
      ⟨some rootInum,inodeAt s.sb s.disk rootInum⟩,hget,?_,⟨?_,?_⟩,rfl,hroom⟩
    · have hvalid' : (((s.setMeta i ⟨rootInum,(s.imeta i).refs+1⟩).setLock i true).idata i).valid=
          none := hvalid
      have hn' : ¬rootInum ≥
          ((s.setMeta i ⟨rootInum,(s.imeta i).refs+1⟩).setLock i true).sb.ninodes := not_le.mpr hn
      have hused : ¬(inodeAt ((s.setMeta i ⟨rootInum,(s.imeta i).refs+1⟩).setLock i true).sb
          ((s.setMeta i ⟨rootInum,(s.imeta i).refs+1⟩).setLock i true).disk rootInum).itype=
            .empty := by
        have hdir : (inodeAt s.sb s.disk rootInum).itype=.directory := hroot.isDir
        show ¬(inodeAt s.sb s.disk rootInum).itype=.empty
        rw [hdir]
        nofun
      rw [Inode.lock,if_neg (by rw [hlocked]; exact Bool.false_ne_true)]
      dsimp only
      rw [hvalid']
      dsimp only
      rw [if_neg hn',if_neg hused]
      rfl
    · rw [setData_self]
    · rw [setData_self]
      exact hroot
  | some k =>
    obtain ⟨hrefs,hinum,hdata⟩ := hq.cached i k hvalid
    obtain rfl : k=rootInum := by
      obtain hzero | hsame := hi
      · omega
      · rw [← hinum,hsame]
    refine ⟨i,_,(s.setMeta i ⟨rootInum,(s.imeta i).refs+1⟩).setLock i true,hget,?_,⟨hvalid,?_⟩,rfl,
      hroom⟩
    · have hvalid' : (((s.setMeta i ⟨rootInum,(s.imeta i).refs+1⟩).setLock i true).idata i).valid=
          some rootInum := hvalid
      rw [Inode.lock,if_neg (by rw [hlocked]; exact Bool.false_ne_true)]
      dsimp only
      rw [hvalid']
    · have hdata' : (((s.setMeta i ⟨rootInum,(s.imeta i).refs+1⟩).setLock i true).idata i).dinode=
          inodeAt s.sb s.disk rootInum := hdata
      rw [hdata']
      exact hroot

/-- The first element of the path is looked up in the root, and is the last. -/
theorem namexLoop_root {i : ℕ} {u v : Fs} {name : List UInt8} (hname : name≠[]) (hzero : 0∉name)
    (hslash : 0x2f∉name) (hlock : Inode.lock ⟨rootInum,i⟩ u=.ok ((),v))
    (hv : InCache i rootInum es v) (hwidth : v.sb.size<256^4) (hroom : ∀ n,Room v n) :
    (es.zipIdx.find? (fun x => taken x.1 (storedName (name.take (maxDirSize-1))))=none → ∀ h k t,
        namexLoop (0x2f::name) false (name.length+2) ⟨rootInum,i⟩ 0 (fun _ => 0) u≠
          .ok ((some h,k),t)) ∧
      ∀ x,es.zipIdx.find? (fun x => taken x.1 (storedName (name.take (maxDirSize-1))))=some x →
        ∃ j k t,namexLoop (0x2f::name) false (name.length+2) ⟨rootInum,i⟩ 0 (fun _ => 0) u=
          .ok ((some ⟨x.1.1,j⟩,k),t) := by
  have hdata : dinodeOf i v=.ok ((v.idata i).dinode,v) := rfl
  obtain ⟨habsent,hpresent⟩ :=
    hv.dirLookup hwidth (storedName (name.take (maxDirSize-1)))
  have hpos : 1+name.length≠0 := by omega
  rw [namexLoop,skipPath_name hname hzero hslash]
  dsimp only
  rw [if_neg hpos,bind_ok hlock,bind_ok hdata,if_neg (not_not.mpr hv.on.isDir),if_neg (by simp)]
  refine ⟨fun hnone h k t hok => ?_,fun x hsome => ?_⟩
  · obtain ⟨⟨r,w⟩,hr,hok⟩ := Results.bind_eq_ok hok
    cases r with
    | none =>
      obtain ⟨⟨x,w'⟩,-,hok⟩ := Results.bind_eq_ok hok
      cases hok
    | some x => exact habsent hnone x w hr
  · obtain ⟨j,hget,hj⟩ := get_eq (hroom x.1.1)
    have hfound : InodeLayer.dirLookup i (storedName (name.take (maxDirSize-1))) v=
        .ok (some (⟨x.1.1,j⟩,deSize*x.2),v.setMeta j ⟨x.1.1,(v.imeta j).refs+1⟩) := by
      rw [hpresent x hsome,bind_ok hget]
      rfl
    obtain ⟨t,hput⟩ := put_linked (s:=(v.setMeta j ⟨x.1.1,(v.imeta j).refs+1⟩).setLock i false)
      ⟨rootInum,i⟩ (Function.update_self ..) hv.on.linked
    have hunlock : Inode.unlock ⟨rootInum,i⟩ (v.setMeta j ⟨x.1.1,(v.imeta j).refs+1⟩)=
        .ok ((),(v.setMeta j ⟨x.1.1,(v.imeta j).refs+1⟩).setLock i false) := rfl
    refine ⟨j,storedName (name.take (maxDirSize-1)),t,?_⟩
    rw [bind_ok hfound]
    dsimp only
    rw [bind_ok hunlock,bind_ok hput,namexLoop,skipPath_end]
    rfl

/-- `namei` of a name in the root finds the first entry that is taken for it. -/
theorem Quiet.namei {name : List UInt8} (hq : Quiet d s) (hn : rootInum < s.sb.ninodes)
    (hwidth : s.sb.size<256^4) (hroot : RootOn s.disk (inodeAt s.sb s.disk rootInum) es)
    (hname : name≠[]) (hzero : 0∉name) (hslash : 0x2f∉name) (cwd : Inode) :
    (es.zipIdx.find? (fun x => taken x.1 (storedName (name.take (maxDirSize-1))))=none →
        ∀ h t,InodeLayer.namei cwd (0x2f::name) s≠.ok (some h,t)) ∧
      ∀ x,es.zipIdx.find? (fun x => taken x.1 (storedName (name.take (maxDirSize-1))))=some x →
        ∃ j t,InodeLayer.namei cwd (0x2f::name) s=.ok (some ⟨x.1.1,j⟩,t) := by
  obtain ⟨i,u,v,hget,hlock,hv,hsb,hroom⟩ := hq.open_root hn hroot
  obtain ⟨habsent,hpresent⟩ := namexLoop_root hname hzero hslash hlock hv (hsb ▸ hwidth) hroom
  have hnamex : namex cwd (0x2f::name) false s=
      namexLoop (0x2f::name) false (name.length+2) ⟨rootInum,i⟩ 0 (fun _ => 0) u := by
    rw [namex]
    have habs : pathAt (0x2f::name) 0=0x2f := rfl
    rw [if_pos habs,bind_ok hget]
    rfl
  have hnamei : InodeLayer.namei cwd (0x2f::name) s=
      (namexLoop (0x2f::name) false (name.length+2) ⟨rootInum,i⟩ 0 (fun _ => 0) u >>= fun x =>
        pure (x.1.1,x.2)) := by
    rw [← hnamex]
    rfl
  rw [hnamei]
  refine ⟨fun hnone h t hok => ?_,fun x hsome => ?_⟩
  · obtain ⟨⟨⟨r,k⟩,w⟩,hr,hok⟩ := Results.bind_eq_ok hok
    cases hok
    exact habsent hnone h k w hr
  · obtain ⟨j,k,t,hok⟩ := hpresent x hsome
    refine ⟨j,t,?_⟩
    rw [hok]
    rfl

end Opening

/-- The image with an inode table that goes on up to the data blocks, as long as it is not read for
the bitmap. -/
def wide : SuperBlock := ⟨fssize,nblocks,544,inodestart,0⟩

/-- The names that the kernel finds: short ones that are not those of the first entries. -/
def Findable (files : List Input) : Prop :=
  ∀ f∈files,f.shortname≠[] →
    f.shortname.length ≤ maxDirSize-1 ∧ f.shortname≠[0x2e] ∧ f.shortname≠[0x2e,0x2e]

/-- Every file with a name is opened by it. -/
def Opens (files : List Input) (d : Disk) : Prop :=
  ∀ s,Quiet d s → ∀ (k : ℕ) f,files[k]?=some f → f.shortname≠[] → ∀ cwd,
    ∃ j t,namei cwd (0x2f::f.shortname) s=.ok (some ⟨k+2,j⟩,t)

section Images

variable {files : List Input} {d : Disk}

theorem wide_view : View wide := by
  have hn : wide.nmeta=66 := by decide
  refine ⟨rfl,rfl,rfl,by decide,⟨fun j hj => ?_,fun b hb => ?_,fun j b hj hb => ?_,by decide,
    by decide⟩⟩
  · change j < 544 at hj
    rw [hn]
    show j/16+32 < 66
    omega
  · change b < 2048 at hb
    rw [hn]
    show b/8192+0 < 66
    omega
  · change j < 544 at hj
    change b < 2048 at hb
    show j/16+32≠b/8192+0
    omega

/-- The root of an image. -/
theorem image_root (hcount : files.length ≤ 542) (h : mkfs files=.ok d) :
    superBlock d=some sb ∧ RootOn d (inodeAt sb d rootInum) (entries files) := by
  have hroom : files.length+2 ≤ wide.ninodes := by
    show files.length+2 ≤ 544
    omega
  obtain ⟨e,himage,hsame,-,hfront⟩ := mkfs_image wide_view hroom h
  obtain ⟨di,hold,hroot⟩ := himage.root
  have hlen : (entryList (entries files)).length=deSize*(files.length+2) := by
    rw [length_entryList,length_entries]
  have hsize : rootSize files < 2^32 := by
    rw [rootSize,deSize,bsize]
    omega
  have hinode : inodeAt sb d rootInum={di with size := UInt32.ofNat (rootSize files)} := by
    have hblock : d 32=e 32 := hsame 32 (by decide) (by decide)
    rw [← hroot]
    show getInode (d 32) _=getInode (e 32) _
    rw [hblock]
    rfl
  have haddr : ∀ p,addrAt e di p=addrAt e (inodeAt wide e 1) p := fun p => by
    rw [hroot]
    exact (addrAt_addrs rfl p).symm
  -- the blocks of the root are the same on the image
  have hdata : ∀ bn,bn < ndirect → di.addr bn≠0 → d (di.addr bn)=e (di.addr bn) := by
    intro bn hbn hne
    have hpos : addrAt e (inodeAt wide e 1) bn=di.addr bn := by
      rw [← haddr,addrAt_direct hbn.le]
    have hused : (inodeAt wide e 1).itype≠.empty := by
      have hdir : (inodeAt wide e 1).itype=.directory := by
        rw [hroot]
        exact hold.itype
      rw [hdir]
      decide
    have hheld : Holds wide e (inodeAt wide e) 1 bn (addrAt e (inodeAt wide e 1) bn) :=
      holds_of (by decide) hused
      (hbn.trans (by decide)) (by rw [hpos]; exact hne)
    rw [hpos] at hheld
    have hlow := (himage.owned.range hheld).1
    have hnmeta : wide.nmeta=66 := by decide
    have hbitmap : bmapstart=65 := by decide
    refine hsame _ (by omega) ?_
    show di.addr bn≠0
    exact hne
  have hbyte : ∀ bn j,bn < ndirect → j < bsize → di.addr bn≠0 →
      byteAt e di (bn*bsize+j)=d (di.addr bn) j := by
    intro bn j hbn hj hne
    have hpos : addrAt e di (posOf bn)=di.addr bn := by
      rw [posOf,if_pos hbn,addrAt_direct hbn.le]
    rw [byteAt_block (by rw [hpos]; exact hne) hj,hpos,hdata bn hbn hne]
  have hdirect : (entries files).length/64 < ndirect := by
    rw [length_entries,ndirect]
    omega
  have hmapped : ∀ {m : ℕ},m < files.length+2 → di.addr (m/64)≠0 := by
    intro m hm
    have hbn : m/64 < ndirect := by
      rw [ndirect]
      omega
    have hwhole := (hold.whole (m/64) (by
      rw [hold.size,hlen,deSize,bsize]
      omega)).2
    rwa [posOf,if_pos hbn,addrAt_direct hbn.le] at hwhole
  refine ⟨superBlock_eq ?_,?_⟩
  · rw [hfront 1 (by decide)]
    rfl
  rw [hinode]
  refine ⟨hold.itype,?_,?_,hdirect,fun {m x} hx => ?_,fun {m x} hx => ?_,?_⟩
  · have hlink : di.nlink=1 := hold.nlink
    show 0 < di.nlink
    rw [hlink]
    decide
  · rw [length_entries]
    refine (UInt32.toNat_ofNat_of_lt' hsize).trans ?_
    rw [rootSize,deSize,bsize]
    omega
  · have hm := (List.getElem?_eq_some_iff.mp hx).1
    rw [length_entries] at hm
    exact hmapped hm
  · have hm := (List.getElem?_eq_some_iff.mp hx).1
    rw [length_entries] at hm
    have hne := hmapped hm
    have hbn : m/64 < ndirect := by
      rw [ndirect]
      omega
    obtain ⟨hused,hsmall⟩ := entries_inum (by omega) hx
    refine ⟨?_,hused⟩
    rw [← diskEntry_eq hold.bytes (by rw [← length_entryList]; exact hold.length_le)
      hx hsmall]
    refine getEntry_congr fun j hj => ?_
    have hoff : deSize*m+(0+j)=m/64*bsize+(deSize*(m%64)+j) := by
      rw [deSize,bsize]
      omega
    rw [hoff,hbyte _ _ hbn (by rw [deSize] at hj ⊢; rw [bsize]; omega) hne]
    rfl
  · rw [length_entries]
    by_cases hfull : (files.length+2)%64=0
    · left
      refine hold.tail _ ?_ ?_
      · rw [ndirect]
        omega
      · rw [hlen,deSize,bsize]
        omega
    · right
      intro j hge hlt
      have hne : di.addr ((files.length+2)/64)≠0 := by
        have hlast := hmapped (m:=files.length+1) (by omega)
        have hdiv : (files.length+1)/64=(files.length+2)/64 := by omega
        rwa [hdiv] at hlast
      have hzero : byteAt e di ((files.length+2)/64*bsize+j)=0 := by
        rw [hold.bytes _ (by rw [maxFileSize,ndirect,nindirect,bsize] at *; omega),
          List.getD_eq_default _ _ (by rw [hlen,deSize,bsize] at *; omega)]
      rw [← hzero,hbyte _ _ (by rw [ndirect]; omega) hlt hne]
      rfl

/-- A file that is installed has no slash in its name. -/
theorem foldlM_install_slash {st st' : State} {more : List Input}
    (h : more.foldlM install st=.ok st') : ∀ f∈more,0x2f∉f.stem := by
  induction more generalizing st with
  | nil => exact fun f hf => by cases hf
  | cons f more ih =>
    rw [List.foldlM_cons] at h
    obtain ⟨next,hnext,h⟩ := Results.bind_eq_ok h
    intro g hg
    obtain rfl | hg := List.mem_cons.mp hg
    · intro hslash
      rw [install,if_pos hslash] at hnext
      cases hnext
    · exact ih h g hg

theorem drop_shortname (f : Input) : ∃ n,f.shortname=f.stem.drop n := by
  rw [Input.shortname]
  split
  · exact ⟨1,rfl⟩
  · exact ⟨0,rfl⟩

/-- A short name has no zero, and no slash if the file is installed. -/
theorem shortname_bytes (h : mkfs files=.ok d) :
    ∀ f∈files,0∉f.shortname ∧ 0x2f∉f.shortname := by
  rw [mkfs] at h
  obtain ⟨st,-,h⟩ := Results.bind_eq_ok h
  obtain ⟨st₁,hfiles,-⟩ := Results.bind_eq_ok h
  intro f hf
  have hslash := foldlM_install_slash hfiles f hf
  obtain ⟨n,hn⟩ := drop_shortname f
  have hzero : 0∉f.stem := by
    rw [Input.stem]
    split
    · exact fun hmem => f.string (List.mem_of_mem_drop hmem)
    · exact f.string
  rw [hn]
  exact ⟨fun hmem => hzero (List.mem_of_mem_drop hmem),
    fun hmem => hslash (List.mem_of_mem_drop hmem)⟩

/-- The entries that are taken for the name of a file: the file, or others of the same name. -/
theorem getElem?_entries {m : ℕ} {e : ℕ×List UInt8} (h : (entries files)[m]?=some e) :
    (m=0 ∧ e=(rootino,[0x2e])) ∨ (m=1 ∧ e=(rootino,[0x2e,0x2e])) ∨
      ∃ f,files[m-2]?=some f ∧ e=(m,f.shortname) ∧ 2 ≤ m := by
  rw [entries] at h
  cases m with
  | zero =>
    cases h
    exact .inl ⟨rfl,rfl⟩
  | succ m =>
    cases m with
    | zero =>
      cases h
      exact .inr (.inl ⟨rfl,rfl⟩)
    | succ m =>
      rw [List.getElem?_cons_succ,List.getElem?_cons_succ,List.getElem?_mapIdx] at h
      obtain ⟨f,hf,rfl⟩ := Option.map_eq_some_iff.mp h
      exact .inr (.inr ⟨f,hf,rfl,by omega⟩)

/-- The names of the entries have no zero. -/
theorem entries_bytes (h : mkfs files=.ok d) {m : ℕ} {e : ℕ×List UInt8}
    (he : (entries files)[m]?=some e) : 0∉e.2 := by
  obtain ⟨-,rfl⟩ | ⟨-,rfl⟩ | ⟨f,hf,rfl,-⟩ := getElem?_entries he
  · decide
  · decide
  · exact (shortname_bytes h f (List.mem_of_getElem? hf)).1

/-- Files with short names are found, if there is one of each. -/
theorem opens_of_findable (h : mkfs files=.ok d)
    (hdistinct : (files.map fun f => storedName f.shortname).Nodup) (hcount : files.length ≤ 542)
    (hf : Findable files) : Opens files d := by
  intro s hq k f hk hname cwd
  obtain ⟨hsuper,hroot⟩ := image_root hcount h
  have hsb : s.sb=sb := Option.some.inj (hq.super.symm.trans hsuper)
  have hmem := List.mem_of_getElem? hk
  obtain ⟨hzero,hslash⟩ := shortname_bytes h f hmem
  obtain ⟨hlen,hdot,hdots⟩ := hf f hmem hname
  have htake : f.shortname.take (maxDirSize-1)=f.shortname := List.take_of_length_le hlen
  rw [← hq.disk,← hsb] at hroot
  have hnamei := (hq.namei (by rw [hsb]; decide) (by rw [hsb]; decide) hroot hname hzero hslash
    cwd).2
  rw [htake] at hnamei
  have htaken : ∀ {m : ℕ} {e},(entries files)[m]?=some e →
      (taken e (storedName f.shortname)=true ↔ e.2=f.shortname) := fun he =>
    named_storedName (entries_bytes h he) hzero (hlen.trans_lt (by decide))
  have hself : (entries files)[k+2]?=some (k+2,f.shortname) := by
    rw [entries,List.getElem?_cons_succ,List.getElem?_cons_succ,List.getElem?_mapIdx,hk]
    rfl
  cases hfind : (entries files).zipIdx.find? fun x => taken x.1 (storedName f.shortname) with
  | none =>
    have hno := List.find?_eq_none.mp hfind ((k+2,f.shortname),k+2)
      (List.mem_zipIdx_iff_getElem?.mpr hself)
    exact absurd ((htaken hself).mpr rfl) hno
  | some x =>
    have hx := List.mem_zipIdx_iff_getElem?.mp (List.mem_of_find?_eq_some hfind)
    have hsame := (htaken hx).mp
      (List.find?_some (p:=fun x : (ℕ×List UInt8)×ℕ => taken x.1 (storedName f.shortname)) hfind)
    have hinum : x.1.1=k+2 := by
      obtain ⟨-,e⟩ | ⟨-,e⟩ | ⟨g,hg,e,hle⟩ := getElem?_entries hx
      · rw [e] at hsame
        exact absurd hsame.symm hdot
      · rw [e] at hsame
        exact absurd hsame.symm hdots
      · rw [e] at hsame ⊢
        -- the names of the files are distinct
        have hlt := (List.getElem?_eq_some_iff.mp hg).1
        have hlt' := (List.getElem?_eq_some_iff.mp hk).1
        have hget : (files.map fun f => storedName f.shortname)[x.2-2]?=
            (files.map fun f => storedName f.shortname)[k]? := by
          rw [List.getElem?_map,List.getElem?_map,hg,hk]
          exact congrArg (fun s => some (storedName s)) hsame
        have hindex := (List.getElem?_inj (by rwa [List.length_map]) hdistinct).mp hget
        show x.2=k+2
        omega
    rw [← hinum]
    exact hnamei x hfind

/-- The file system after boot is quiet. -/
theorem boot_quiet (hsuper : superBlock d=some sb) : Quiet d (FsRuns.boot sb d).fs := by
  refine ⟨hsuper,rfl,fun _ => rfl,fun i n hi => ?_,⟨0,1,by decide,by decide,rfl,rfl⟩⟩
  cases hi

/-- Files that are found have short names. -/
theorem findable_of_opens (h : mkfs files=.ok d) (hcount : files.length ≤ 542)
    (ho : Opens files d) : Findable files := by
  intro f hmem hname
  obtain ⟨k,hk⟩ := List.mem_iff_getElem?.mp hmem
  obtain ⟨hsuper,hroot⟩ := image_root hcount h
  have hq := boot_quiet hsuper
  obtain ⟨hzero,hslash⟩ := shortname_bytes h f hmem
  obtain ⟨j,t,hok⟩ := ho _ hq k f hk hname ⟨rootInum,0⟩
  obtain ⟨habsent,hpresent⟩ := hq.namei
    (show rootInum < 512 by decide) (show fssize<256^4 by decide) hroot hname hzero
    hslash ⟨rootInum,0⟩
  have hother : (f.shortname.take (maxDirSize-1)).length < maxDirSize := by
    rw [List.length_take]
    exact (Nat.min_le_left ..).trans_lt (by decide)
  have hzero' : 0∉f.shortname.take (maxDirSize-1) := fun hin => hzero (List.mem_of_mem_take hin)
  cases hfind : (entries files).zipIdx.find? fun x =>
      taken x.1 (storedName (f.shortname.take (maxDirSize-1))) with
  | none => exact absurd hok (habsent hfind _ _)
  | some x =>
    obtain ⟨j',t',hok'⟩ := hpresent x hfind
    rw [hok'] at hok
    have hinum : x.1.1=k+2 :=
      congrArg Inode.inum (Option.some.inj (congrArg Prod.fst (Except.ok.inj hok)))
    have hx := List.mem_zipIdx_iff_getElem?.mp (List.mem_of_find?_eq_some hfind)
    have htaken := List.find?_some (p:=fun x : (ℕ×List UInt8)×ℕ =>
      taken x.1 (storedName (f.shortname.take (maxDirSize-1)))) hfind
    have hsame := (named_storedName (entries_bytes h hx) hzero' hother).mp htaken
    obtain ⟨-,e⟩ | ⟨-,e⟩ | ⟨g,hg,e,hle⟩ := getElem?_entries hx
    · rw [e,rootino] at hinum
      dsimp only at hinum
      omega
    · rw [e,rootino] at hinum
      dsimp only at hinum
      omega
    · rw [e] at hinum hsame
      dsimp only at hinum hsame
      rw [hinum,Nat.add_sub_cancel,hk] at hg
      obtain rfl := Option.some.inj hg
      have hlen : f.shortname.length ≤ maxDirSize-1 := by
        rw [hsame,List.length_take]
        exact Nat.min_le_left ..
      refine ⟨hlen,fun hdot => ?_,fun hdots => ?_⟩
      · have hfirst : (entries files).zipIdx.find? (fun x =>
            taken x.1 (storedName (f.shortname.take (maxDirSize-1))))=
              some ((rootino,[0x2e]),0) := by
          rw [hdot,entries]
          exact List.find?_cons_of_pos (by decide)
        rw [hfirst] at hfind
        cases hfind
        exact absurd hinum (by rw [rootino]; omega)
      · have hsecond : (entries files).zipIdx.find? (fun x =>
            taken x.1 (storedName (f.shortname.take (maxDirSize-1))))=
              some ((rootino,[0x2e,0x2e]),1) := by
          rw [hdots,entries]
          refine (List.find?_cons_of_neg (by decide)).trans ?_
          exact List.find?_cons_of_pos (by decide)
        rw [hsecond] at hfind
        cases hfind
        exact absurd hinum (by rw [rootino]; omega)

end Images

instance (files : List Input) : Decidable (Findable files) :=
  inferInstanceAs (Decidable (∀ f∈files,f.shortname≠[] →
    f.shortname.length ≤ maxDirSize-1 ∧ f.shortname≠[0x2e] ∧ f.shortname≠[0x2e,0x2e]))

/-- Every file of an image is opened by its name, if no two stored names are the same, there are at
most 542 files, and names have at most 13 bytes and are not `.` or `..`. Up to 542 files the
condition on the names is necessary. -/
theorem names_open (files : List Input) (d : Disk) (h : mkfs files=.ok d)
    (hdistinct : (files.map fun f => storedName f.shortname).Nodup) :
    (files.length ≤ 542 ∧ Findable files → Opens files d) ∧
      (files.length ≤ 542 → Opens files d → Findable files) :=
  ⟨fun hf => opens_of_findable h hdistinct hf.1 hf.2,findable_of_opens h⟩

theorem names_open_oneFile : ∃ d,mkfs oneFile=.ok d ∧ Opens oneFile d := by
  obtain ⟨d,hd⟩ := exists_image oneFile_isOk
  exact ⟨d,hd,(names_open oneFile d hd (by decide)).1 (by decide)⟩

/-- A file with a name of 14 bytes. -/
def longName : List Input := [⟨List.replicate 14 0x61,by decide,[]⟩]

theorem longName_isOk : (mkfs longName).isOk=true := by decide +kernel

theorem long_name_lost : ¬∀ files d,mkfs files=.ok d →
    (files.map fun f => storedName f.shortname).Nodup → Opens files d := by
  intro hall
  obtain ⟨d,hd⟩ := exists_image longName_isOk
  have hopens := hall longName d hd (by decide)
  exact absurd (findable_of_opens hd (by decide) hopens) (by decide)

end Xv6Rust.MkfsNames
