import Xv6Rust.FileContents
import Xv6Rust.Mkfs
import Xv6Rust.Results

/-!
# mkfs writes as the kernel does

While `mkfs` runs there is no bitmap yet. With the bits of the blocks handed out
so far put in the place of the bitmap, the image is a disk of the kernel, and
`iappend` is `try_iwrite` at the end of a file there: the counter of the free
blocks is the first clear bit that `bm_alloc` finds, and the blocks behind it
are zero as those of `bm_alloc` are.
-/

namespace Xv6Rust.MkfsWrites

open Bytes DiskLayout InodeLayer BlockOwnership FileContents Mkfs

/-- The numbers below a bound, in two parts. -/
theorem range_split {n m : ℕ} (h : n ≤ m) : List.range m=List.range n++List.range' n (m-n) := by
  have happ := List.range'_append_1 (s:=0) (m:=n) (n:=m-n)
  rw [Nat.zero_add,Nat.add_sub_cancel' h] at happ
  rw [List.range_eq_range',List.range_eq_range',happ]

section Bitmap

theorem bitmapBytes_succ (n : ℕ) : bitmapBytes (n+1)=setBit (bitmapBytes n) n true := by
  rw [bitmapBytes,List.range_succ,List.foldl_append]
  rfl

theorem getBit_bitmapBytes (n i : ℕ) : getBit (bitmapBytes n) i=decide (i<n) := by
  induction n with
  | zero =>
    rw [getBit]
    simp [bitmapBytes]
  | succ n ih =>
    rw [bitmapBytes_succ,getBit_setBit,ih]
    by_cases h : i=n
    · rw [if_pos h,h]
      simp
    · rw [if_neg h]
      exact decide_eq_decide.mpr (by omega)

end Bitmap

section Sectors

variable {st st' : State} {sec : ℕ} {buf : Buffer}

theorem sector_eq (h : sec<2^22) : sector sec=sec := by
  have hlt : sec*bsize<2^32 := by
    rw [bsize]
    omega
  rw [sector,Nat.mod_eq_of_lt hlt]
  exact Nat.mul_div_cancel _ (by decide)

theorem rsect_eq_ok (h : sec<2^22) : rsect st sec=.ok buf ↔ sec < fssize ∧ st.disk sec=buf := by
  rw [rsect,sector_eq h]
  split
  · rename_i hlt
    simp [hlt]
  · rename_i hge
    simp [hge]

theorem wsect_disk (h : sec<2^22) : (wsect st sec buf).disk=Function.update st.disk sec buf := by
  rw [wsect,sector_eq h]

end Sectors

section Fields

variable {din : Buffer} {p b off : ℕ}

/-- The inode in a structure. -/
def inodeOf (din : Buffer) : DiskInode := getInode din 0

/-- An inode read from its place in a block. -/
theorem getInode_shift (buf : Buffer) (off : ℕ) :
    inodeOf (fun j => buf (off+j))=getInode buf off := by
  have hfield : ∀ k n,getLE (fun j => buf (off+j)) k n=getLE buf (off+k) n := by
    intro k n
    induction n generalizing k with
    | zero => rfl
    | succ n ih => rw [getLE,getLE,ih,← Nat.add_assoc]
  simp only [inodeOf,getInode,getU32,hfield,Nat.zero_add,Nat.add_assoc,Nat.add_zero]

theorem inodeOf_addr (hp : p<13) : (inodeOf din).addr p=dinAddr din p := by
  have hlt := getLE_lt din (12+4*p) 4
  rw [DiskInode.addr,dif_pos hp,inodeOf,getInode,dinAddr,getU32,Nat.zero_add]
  exact UInt32.toNat_ofNat_of_lt' hlt

theorem inodeOf_size : (inodeOf din).size.toNat=dinSize din := by
  have hlt := getLE_lt din 8 4
  rw [inodeOf,getInode,dinSize,getU32,Nat.zero_add]
  exact UInt32.toNat_ofNat_of_lt' hlt

theorem inodeOf_setDinAddr (hp : p<13) (hb : b<256^4) :
    inodeOf (setDinAddr din p b)=(inodeOf din).setAddr p b := by
  refine DiskInode.ext ?_ ?_ ?_ ?_ ?_ ?_
  · exact congrArg InodeType.ofCode (getLE_putLE_of_apart (by omega))
  · exact congrArg UInt16.ofNat (getLE_putLE_of_apart (by omega))
  · exact congrArg UInt16.ofNat (getLE_putLE_of_apart (by omega))
  · exact congrArg UInt16.ofNat (getLE_putLE_of_apart (by omega))
  · exact congrArg UInt32.ofNat (getLE_putLE_of_apart (by omega))
  · funext i
    change UInt32.ofNat (getLE (setDinAddr din p b) (0+12+4*i) 4)=
      if i.val=p then UInt32.ofNat b else UInt32.ofNat (getLE din (0+12+4*i) 4)
    rw [setDinAddr,Nat.zero_add]
    by_cases h : i.val=p
    · rw [if_pos h,h,getLE_putLE_self hb]
    · rw [if_neg h,getLE_putLE_of_apart (by omega)]

theorem inodeOf_setSize (hoff : off<256^4) :
    inodeOf (putLE din 8 4 off)={inodeOf din with size := UInt32.ofNat off} := by
  refine DiskInode.ext ?_ ?_ ?_ ?_ ?_ ?_
  · exact congrArg InodeType.ofCode (getLE_putLE_of_apart (by omega))
  · exact congrArg UInt16.ofNat (getLE_putLE_of_apart (by omega))
  · exact congrArg UInt16.ofNat (getLE_putLE_of_apart (by omega))
  · exact congrArg UInt16.ofNat (getLE_putLE_of_apart (by omega))
  · exact congrArg UInt32.ofNat (getLE_putLE_self hoff)
  · funext i
    exact congrArg UInt32.ofNat (getLE_putLE_of_apart (by omega))

/-- Writing what is read at a place copies it. -/
theorem putLE_getLE (c : Buffer) (off o n : ℕ) (din : Buffer) :
    putLE c off n (getLE din o n)=splice c off (fun j => din (o+j)) n := by
  induction n generalizing c off o with
  | zero =>
    funext i
    rw [putLE,splice,if_neg (by omega)]
  | succ n ih =>
    have hlow : UInt8.ofNat (getLE din o (n+1))=din o := by
      rw [getLE]
      apply UInt8.toNat_inj.mp
      have hb := (din o).toNat_lt
      rw [UInt8.toNat_ofNat']
      omega
    have hhigh : getLE din o (n+1)/256=getLE din (o+1) n := by
      have hb := (din o).toNat_lt
      rw [getLE]
      omega
    rw [putLE,hlow,hhigh,ih]
    funext i
    simp only [splice]
    by_cases h0 : i=off
    · rw [h0,if_neg (by omega),Function.update_self,if_pos (by omega),Nat.sub_self,Nat.add_zero]
    · rw [Function.update_of_ne h0]
      by_cases hin : off+1 ≤ i ∧ i<off+1+n
      · have e : o+1+(i-(off+1))=o+(i-off) := by omega
        rw [if_pos hin,if_pos (by omega),e]
      · rw [if_neg hin,if_neg (by omega)]

/-- Copying two windows next to each other copies both. -/
theorem splice_splice (c : Buffer) (off n k : ℕ) (src : Buffer) :
    splice (splice c off src n) (off+n) (fun j => src (n+j)) k=splice c off src (n+k) := by
  funext i
  simp only [splice]
  by_cases h : off+n ≤ i ∧ i<off+n+k
  · have e : n+(i-(off+n))=i-off := by omega
    rw [if_pos h,if_pos (by omega),e]
  · rw [if_neg h]
    by_cases h' : off ≤ i ∧ i<off+n
    · rw [if_pos h',if_pos (by omega)]
    · rw [if_neg h',if_neg (by omega)]

/-- Numbers that are read one after the other and written. -/
theorem putU32s_getU32 (c : Buffer) (off o n : ℕ) (din : Buffer) :
    putU32s c off ((List.range n).map fun i => getU32 din (o+4*i))=
      splice c off (fun j => din (o+j)) (4*n) := by
  induction n generalizing c off o with
  | zero =>
    funext i
    rw [List.range_zero,List.map_nil,putU32s,splice,if_neg (by omega)]
  | succ n ih =>
    have hmap : (List.range n).map ((fun i => getU32 din (o+4*i)) ∘ Nat.succ)=
        (List.range n).map fun i => getU32 din (o+4+4*i) := by
      refine List.map_congr_left fun i _ => ?_
      have e : o+4*i.succ=o+4+4*i := by omega
      rw [Function.comp_apply,e]
    have hlt := getLE_lt din o 4
    rw [List.range_succ_eq_map,List.map_cons,List.map_map,hmap,putU32s,ih,Nat.mul_zero,Nat.add_zero,
      putU32,getU32,UInt32.toNat_ofNat_of_lt' hlt,putLE_getLE,Nat.mul_succ,Nat.add_comm (4*n)]
    have hsrc : (fun j => din (o+4+j))=fun j => (fun j => din (o+j)) (4+j) := by
      funext j
      rw [Nat.add_assoc]
    rw [hsrc,splice_splice]

/-- An inode of a type of the kernel is written as its structure is copied. -/
theorem putInode_inodeOf (c : Buffer) (off : ℕ) (h : getLE din 0 2<4) :
    putInode c off (inodeOf din)=splice c off din inodeSize := by
  have hcode : (inodeOf din).itype.code=getLE din (0+0) 2 := by
    rw [inodeOf,getInode]
    generalize getLE din 0 2=t at h ⊢
    dsimp only
    interval_cases t <;> rfl
  have h16 : ∀ o,(UInt16.ofNat (getLE din o 2)).toNat=getLE din o 2 := fun o =>
    UInt16.toNat_ofNat_of_lt' (getLE_lt din o 2)
  have h32 : (UInt32.ofNat (getLE din (0+8) 4)).toNat=getLE din (0+8) 4 :=
    UInt32.toNat_ofNat_of_lt' (getLE_lt din (0+8) 4)
  have haddrs : List.ofFn (inodeOf din).addrs=
      (List.range 13).map fun i => getU32 din (12+4*i) := rfl
  dsimp only [putInode]
  rw [hcode,haddrs,putU32s_getU32,putU32]
  dsimp only [inodeOf,getInode,getU32]
  rw [h16,h16,h16,h32]
  simp only [putLE_getLE,Nat.zero_add]
  have h4 : splice (splice c off din 2) (off+2) (fun j => din (2+j)) 2=splice c off din 4 :=
    splice_splice c off 2 2 din
  have h6 : splice (splice c off din 4) (off+4) (fun j => din (4+j)) 2=splice c off din 6 :=
    splice_splice c off 4 2 din
  have h8 : splice (splice c off din 6) (off+6) (fun j => din (6+j)) 2=splice c off din 8 :=
    splice_splice c off 6 2 din
  have h12 : splice (splice c off din 8) (off+8) (fun j => din (8+j)) 4=splice c off din 12 :=
    splice_splice c off 8 4 din
  rw [h4,h6,h8,h12]
  exact splice_splice c off 12 52 din

end Fields

/-- A super block with the blocks of the image, in which the bitmap may lie elsewhere before the
data blocks and the inode table may be longer. -/
structure View (w : SuperBlock) : Prop where
  /-- Number of blocks. -/
  size : w.size=fssize
  /-- First data block. -/
  nmeta : w.nmeta=nmeta
  /-- First inode block. -/
  inodestart : w.inodestart=inodestart
  /-- The bitmap lies before the data blocks. -/
  low : w.bmapstart<Mkfs.nmeta
  /-- Inode table and bitmap lie apart. -/
  geometry : w.Geometry

/-- The image with a bitmap of the blocks that are handed out. -/
def virt (w : SuperBlock) (st : State) : Disk :=
  Function.update st.disk w.bmapstart (bitmapBytes st.freeblock)

/-- The blocks that are not handed out are zero. -/
structure Blank (st : State) : Prop where
  /-- Data blocks are handed out. -/
  low : nmeta ≤ st.freeblock
  /-- They are blocks of the image. -/
  high : st.freeblock ≤ fssize
  /-- The others are zero. -/
  zero : ∀ b,st.freeblock ≤ b → b<fssize → st.disk b=fun _ => 0

section Views

variable {w : SuperBlock} {st st' : State} {b : ℕ}

theorem View.locateInode (hw : View w) (inum : ℕ) : w.locateInode inum=iblock inum := by
  rw [SuperBlock.locateInode,hw.inodestart,iblock]

theorem bitmapBlockno_eq (w : SuperBlock) (hb : b<fssize) : w.bitmapBlockno b=w.bmapstart := by
  have hsize : fssize ≤ bpb := by decide
  rw [SuperBlock.bitmapBlockno,Nat.div_eq_of_lt (hb.trans_le hsize),Nat.zero_add]

theorem View.iblock_lt (hw : View w) {inum : ℕ} (hi : inum < w.ninodes) :
    iblock inum<Mkfs.nmeta ∧ iblock inum≠w.bmapstart := by
  have hsize : 0 < w.size := by
    rw [hw.size]
    decide
  have h1 := hw.geometry.inodes inum hi
  have h2 := hw.geometry.apart inum 0 hi hsize
  rw [hw.locateInode,hw.nmeta] at h1
  rw [hw.locateInode,bitmapBlockno_eq w (by decide)] at h2
  exact ⟨h1,h2⟩

theorem virt_apply {c : ℕ} (hc : c≠w.bmapstart) : virt w st c=st.disk c :=
  Function.update_of_ne hc ..

theorem View.virt_data {c : ℕ} (hw : View w) (hc : Mkfs.nmeta ≤ c) : virt w st c=st.disk c := by
  have hlow := hw.low
  exact virt_apply (by omega)

theorem bit_virt (w : SuperBlock) (hb : b<fssize) :
    bit w (virt w st) b=decide (b < st.freeblock) := by
  have hsize : fssize ≤ bpb := by decide
  rw [bit,bitmapBlockno_eq w hb,virt,Function.update_self,getBit_bitmapBytes,
    Nat.mod_eq_of_lt (hb.trans_le hsize)]

/-- Writing a data block. -/
theorem View.virt_wsect (hw : View w) (hb : Mkfs.nmeta ≤ b) (hlt : b<fssize) (buf : Buffer) :
    virt w (wsect st b buf)=Function.update (virt w st) b buf := by
  have hne : b≠w.bmapstart := by
    have := hw.low
    omega
  have hsec : b<2^22 := hlt.trans (by decide)
  rw [virt,virt,wsect_disk hsec,Function.update_comm hne]
  rfl

/-- The search of `bm_alloc` finds the counter of `mkfs`. -/
theorem View.bmFind (hw : View w) (hlt : st.freeblock<fssize) :
    bmFind w (virt w st)=some (0,st.freeblock) := by
  have hcount : (w.size+bpb-1)/bpb=1 := by
    rw [hw.size]
    decide
  have hsize : fssize ≤ bpb := by decide
  have hpick : ∀ offset,offset<fssize → (if 0*bpb+offset ≥ w.size then none
      else if getBit (virt w st (w.bitmapBlockno (0*bpb))) offset=true then none
      else some (0*bpb,offset))=if offset < st.freeblock then none else some (0,offset) := by
    intro offset ho
    rw [Nat.zero_mul,Nat.zero_add,hw.size,if_neg (by omega),bitmapBlockno_eq w (by decide),virt,
      Function.update_self,getBit_bitmapBytes]
    simp
  rw [InodeLayer.bmFind,hcount]
  have hone : List.range 1=[0] := rfl
  rw [hone,List.findSome?_cons,range_split (show st.freeblock ≤ bpb by omega),List.findSome?_append]
  have hbefore : (List.range st.freeblock).findSome? (fun offset =>
      if 0*bpb+offset ≥ w.size then none
      else if getBit (virt w st (w.bitmapBlockno (0*bpb))) offset=true then none
      else some (0*bpb,offset))=none := by
    rw [List.findSome?_eq_none_iff]
    intro offset ho
    have ho := List.mem_range.mp ho
    rw [hpick offset (by omega),if_pos ho]
  have hfirst : List.range' st.freeblock (bpb-st.freeblock)=
      st.freeblock::List.range' (st.freeblock+1) (bpb-st.freeblock-1) := by
    obtain ⟨d,hd⟩ : ∃ d,bpb-st.freeblock=d+1 := ⟨bpb-st.freeblock-1,by omega⟩
    rw [hd,List.range'_succ]
    rfl
  rw [hbefore,hfirst,List.findSome?_cons,hpick _ hlt,if_neg (lt_irrefl _)]
  rfl

/-- `bm_alloc` hands out the same block as `mkfs`. -/
theorem View.bmAlloc (hw : View w) (hz : Blank st) (hlt : st.freeblock<fssize) :
    bmAlloc w (virt w st)=.ok (st.freeblock,virt w {st with freeblock := st.freeblock+1}) := by
  rw [InodeLayer.bmAlloc,hw.bmFind hlt]
  dsimp only
  rw [bitmapBlockno_eq w (by decide),Nat.zero_add]
  congr 2
  have hmark : Function.update (virt w st) w.bmapstart
      (setBit (virt w st w.bmapstart) st.freeblock true)=
      virt w {st with freeblock := st.freeblock+1} := by
    rw [virt,Function.update_self,Function.update_idem,virt,bitmapBytes_succ]
  rw [hmark]
  refine Function.update_eq_self_iff.mpr ?_
  rw [hw.virt_data hz.low]
  exact (hz.zero _ le_rfl hlt).symm

end Views

/-- `mkfs` has handed out blocks, and changed data blocks only. -/
structure Advanced (st st' : State) : Prop where
  /-- The other blocks are zero. -/
  blank : Blank st'
  /-- No inode is handed out. -/
  freeinode : st'.freeinode=st.freeinode
  /-- The blocks before the data blocks stay. -/
  low : ∀ c,c<nmeta → st'.disk c=st.disk c

theorem Advanced.trans {st st' st'' : State} (h : Advanced st st') (h' : Advanced st' st'') :
    Advanced st st'' :=
  ⟨h'.blank,h'.freeinode.trans h.freeinode,fun c hc => (h'.low c hc).trans (h.low c hc)⟩

section Finding

variable {w : SuperBlock} {st st' : State} {din din' buf : Buffer} {v : ℕ → DiskInode} {i fbn x : ℕ}

/-- The counter of the blocks goes up. -/
theorem Blank.succ (hz : Blank st) (hlt : st.freeblock<fssize) :
    Advanced st {st with freeblock := st.freeblock+1} :=
  ⟨⟨hz.low.trans (Nat.le_succ _),hlt,fun b hb => hz.zero b (Nat.le_of_succ_le hb)⟩,rfl,
    fun _ _ => rfl⟩

/-- A data block that is handed out is written. -/
theorem Blank.wsect (hz : Blank st) (hx : nmeta ≤ x) (hlt : x < st.freeblock) (buf : Buffer) :
    Advanced st (wsect st x buf) := by
  have hhigh := hz.high
  have hsec : x<2^22 := (hlt.trans_le hhigh).trans (by decide)
  refine ⟨⟨hz.low,hz.high,fun b hb hb' => ?_⟩,rfl,fun c hc => ?_⟩
  · have hb : st.freeblock ≤ b := hb
    rw [wsect_disk hsec,Function.update_of_ne (by omega)]
    exact hz.zero b hb hb'
  · rw [wsect_disk hsec,Function.update_of_ne (by omega)]

theorem Blank.freeblock_lt (hz : Blank st) (hx : rsect st' st.freeblock=.ok buf) :
    st.freeblock<fssize := by
  have hhigh := hz.high
  have hsec : st.freeblock<2^22 := hhigh.trans_lt (by decide)
  exact ((rsect_eq_ok hsec).mp hx).1

theorem dinAddr_setDinAddr {p b : ℕ} (hb : b<256^4) : dinAddr (setDinAddr din p b) p=b :=
  getLE_putLE_self hb

/-- The entry of the indirect block. -/
theorem mapEntry_maps (hw : View w) (hz : Blank st) (ind k : ℕ) (di : DiskInode)
    (hind : nmeta ≤ ind) (hlt : ind < st.freeblock) :
    (word (st.disk ind) k≠0 →
      mapEntry w (virt w st) di ind k=.ok (word (st.disk ind) k,virt w st,di)) ∧
    (word (st.disk ind) k=0 → st.freeblock<fssize →
      mapEntry w (virt w st) di ind k=.ok (st.freeblock,virt w (wsect
        {st with freeblock := st.freeblock+1} ind (putWord (st.disk ind) k st.freeblock)),di)) := by
  have hhigh := hz.high
  have hblock : virt w st ind=st.disk ind := hw.virt_data hind
  refine ⟨fun hne => ?_,fun hzero hfree => ?_⟩
  · rw [mapEntry,hblock,if_neg hne]
  · have hblock' : virt w {st with freeblock := st.freeblock+1} ind=st.disk ind := hw.virt_data hind
    rw [mapEntry,hblock,if_pos hzero,hw.bmAlloc hz hfree]
    dsimp only
    rw [hblock',hw.virt_wsect hind (by omega)]

/-- `iappend` finds the block that `map_blockno` finds, and hands out the same blocks. -/
theorem findBlock_maps (hw : View w) (hz : Blank st) (ho : Owned w (virt w st) (withInode v i
    (inodeOf din))) (hi : i < w.ninodes) (hu : (inodeOf din).itype≠.empty)
    (h : findBlock st din fbn=.ok (st',din',x)) (hx : rsect st' x=.ok buf) :
    mapBlockno w (virt w st) (inodeOf din) fbn=.ok (x,virt w st',inodeOf din') ∧
      Advanced st st' ∧ getLE din' 0 2=getLE din 0 2 := by
  have hhigh := hz.high
  have hwidth : st.freeblock<256^4 := hhigh.trans_lt (by decide)
  have hself : Advanced st st := ⟨hz,rfl,fun _ _ => rfl⟩
  rw [findBlock] at h
  split at h
  · cases h
  rename_i hmax
  have hmax : fbn < ndirect+nindirect := not_le.mp hmax
  rw [mapBlockno_eq]
  split at h
  · rename_i hdirect
    have hp : fbn<13 := by
      rw [ndirect] at hdirect
      omega
    rw [if_pos hdirect,inodeOf_addr hp]
    rw [takeAddr] at h
    split at h
    · rename_i hzero
      cases h
      dsimp only at hx ⊢
      rw [dinAddr_setDinAddr hwidth] at hx
      have hlt := hz.freeblock_lt hx
      rw [if_pos hzero,hw.bmAlloc hz hlt,dinAddr_setDinAddr hwidth,inodeOf_setDinAddr hp hwidth]
      exact ⟨rfl,hz.succ hlt,getLE_putLE_of_apart (by omega)⟩
    · rename_i hne
      cases h
      rw [if_neg hne]
      exact ⟨rfl,hself,rfl⟩
  · rename_i hindirect
    rw [if_neg hindirect,if_pos hmax,inodeOf_addr (by decide)]
    obtain ⟨indirect,hr,h⟩ := Results.bind_eq_ok h
    by_cases hzero : dinAddr din ndirect=0
    · have htake : takeAddr st din ndirect=
          ({st with freeblock := st.freeblock+1},setDinAddr din ndirect st.freeblock) :=
        if_pos hzero
      rw [htake] at hr h
      dsimp only at hr h
      rw [dinAddr_setDinAddr hwidth] at hr h
      have hlt := hz.freeblock_lt hr
      have hsucc := hz.succ hlt
      have hind := ((rsect_eq_ok (hlt.trans (by decide))).mp hr).2
      have hempty : st.disk st.freeblock=fun _ => 0 := hz.zero _ le_rfl hlt
      rw [hempty] at hind
      subst hind
      rw [word_zero,if_pos rfl] at h
      cases h
      have hwidth' : st.freeblock+1<256^4 := by
        have := hsucc.blank.high
        exact this.trans_lt (by decide)
      rw [word_putWord _ hwidth',if_pos rfl] at hx
      have hlt' : st.freeblock+1<fssize := hsucc.blank.freeblock_lt hx
      rw [if_pos hzero,hw.bmAlloc hz hlt]
      dsimp only
      have hentry := (mapEntry_maps hw hsucc.blank st.freeblock (fbn-ndirect)
        ((inodeOf din).setAddr ndirect st.freeblock) hz.low
        (Nat.lt_succ_self _)).2
      dsimp only at hentry
      rw [hempty] at hentry
      rw [hentry (word_zero _) hlt',word_putWord _ hwidth',if_pos rfl,
        inodeOf_setDinAddr (by decide) hwidth]
      refine ⟨rfl,hsucc.trans ((hsucc.blank.succ hlt').trans ?_),getLE_putLE_of_apart (by decide)⟩
      exact (hsucc.blank.succ hlt').blank.wsect hz.low (by dsimp only; omega) _
    · have htake : takeAddr st din ndirect=(st,din) := if_neg hzero
      rw [htake] at hr h
      dsimp only at hr h
      have hheld := holds_indirect (d:=virt w st) (v:=withInode v i (inodeOf din)) hi
        (by rwa [withInode_self]) (by rwa [withInode_self,inodeOf_addr (by decide)])
      rw [withInode_self,inodeOf_addr (by decide)] at hheld
      obtain ⟨hlow,hhi⟩ := ho.range hheld
      rw [hw.nmeta] at hlow
      rw [hw.size] at hhi
      have hused := ho.held hheld
      rw [bit_virt w hhi,decide_eq_true_iff] at hused
      have hind := ((rsect_eq_ok (hhi.trans (by decide))).mp hr).2
      subst hind
      rw [if_neg hzero]
      obtain ⟨hold,hnew⟩ := mapEntry_maps hw hz _ (fbn-ndirect) (inodeOf din) hlow hused
      split at h
      · rename_i hword
        cases h
        rw [word_putWord _ hwidth,if_pos rfl] at hx
        have hlt : st.freeblock<fssize := hz.freeblock_lt hx
        rw [hnew hword hlt,word_putWord _ hwidth,if_pos rfl]
        refine ⟨rfl,(hz.succ hlt).trans ?_,rfl⟩
        exact (hz.succ hlt).blank.wsect hlow (by dsimp only; omega) _
      · rename_i hword
        cases h
        rw [hold hword]
        exact ⟨rfl,hself,rfl⟩

end Finding

section Appending

variable {w : SuperBlock} {st st' : State} {din din' p : Buffer} {v : ℕ → DiskInode}
  {i fbn x off off' pos n : ℕ}

/-- A block that an inode holds is handed out. -/
theorem View.held_lt (hw : View w) {q b : ℕ} (ho : Owned w (virt w st) v)
    (hheld : Holds w (virt w st) v i q b) : Mkfs.nmeta ≤ b ∧ b < st.freeblock ∧ b<fssize := by
  obtain ⟨hlow,hhigh⟩ := ho.range hheld
  rw [hw.nmeta] at hlow
  rw [hw.size] at hhigh
  have hused := ho.held hheld
  rw [bit_virt w hhigh,decide_eq_true_iff] at hused
  exact ⟨hlow,hused,hhigh⟩

/-- One pass of the loop of `iappend` is one pass of the loop of `try_iwrite`. -/
theorem write_block (hw : View w) (hz : Blank st)
    (ho : Owned w (virt w st) (withInode v i (inodeOf din))) (hi : i < w.ninodes)
    (hu : (inodeOf din).itype≠.empty) {buf : Buffer} (h : findBlock st din fbn=.ok (st',din',x))
    (hr : rsect st' x=.ok buf) (new : Buffer) :
    mapBlockno w (virt w st) (inodeOf din) fbn=.ok (x,virt w st',inodeOf din') ∧
      virt w st' x=buf ∧ Function.update (virt w st') x new=virt w (wsect st' x new) ∧
      Advanced st (wsect st' x new) ∧ getLE din' 0 2=getLE din 0 2 ∧
      Owned w (virt w (wsect st' x new)) (withInode v i (inodeOf din')) ∧
      (inodeOf din').itype≠.empty := by
  obtain ⟨hmap,hadv,htype⟩ := findBlock_maps hw hz ho hi hu h hr
  obtain ⟨hgrow,-,hbn,hnum,hne⟩ := mapBlockno_grows hw.geometry ho hi hu hmap
  have hu' : (inodeOf din').itype≠.empty := by rwa [hgrow.itype]
  have hheld := holds_of (d:=virt w st') (v:=withInode v i (inodeOf din')) (p:=posOf fbn) hi
    (by rwa [withInode_self]) (posOf_lt hbn) (by rwa [withInode_self,hnum])
  rw [withInode_self,hnum] at hheld
  obtain ⟨hlow,hlt,hhigh⟩ := hw.held_lt hgrow.owned hheld
  have hblock := ((rsect_eq_ok (hhigh.trans (by decide))).mp hr).2
  have hupdate : virt w (wsect st' x new)=Function.update (virt w st') x new :=
    hw.virt_wsect hlow hhigh new
  refine ⟨hmap,by rw [hw.virt_data hlow,hblock],hupdate.symm,
    hadv.trans (hadv.blank.wsect hlow hlt _),htype,?_,hu'⟩
  rw [hupdate]
  exact (mapBlockno_write hw.geometry ho hi hu hmap new).1.owned

/-- The loop of `iappend` is the loop of `try_iwrite`. -/
theorem iappendLoop_writes {fuel : ℕ} (base o : ℕ) (hw : View w) (hz : Blank st)
    (ho : Owned w (virt w st) (withInode v i (inodeOf din))) (hi : i < w.ninodes)
    (hu : (inodeOf din).itype≠.empty) (hn : n ≤ fuel)
    (hplace : n≠0 → base=off/bsize ∧ o=off%bsize)
    (h : iappendLoop p fuel st din off pos n=.ok (st',din',off')) :
    writeLoop w (kernelSource p) fuel (virt w st) (inodeOf din) base o n pos=
        .ok (0,virt w st',inodeOf din') ∧
      Advanced st st' ∧ getLE din' 0 2=getLE din 0 2 ∧ off'=off+n := by
  induction fuel generalizing st din off pos n base o with
  | zero =>
    obtain rfl : n=0 := by omega
    cases h
    exact ⟨rfl,⟨hz,rfl,fun _ _ => rfl⟩,rfl,rfl⟩
  | succ fuel ih =>
    rw [iappendLoop] at h
    rw [writeLoop]
    by_cases hzero : n=0
    · rw [if_pos hzero] at h
      cases h
      rw [if_pos hzero,hzero]
      exact ⟨rfl,⟨hz,rfl,fun _ _ => rfl⟩,rfl,rfl⟩
    · obtain ⟨rfl,rfl⟩ := hplace hzero
      rw [if_neg hzero] at h
      obtain ⟨⟨st₁,din₁,x⟩,hfind,h⟩ := Results.bind_eq_ok h
      obtain ⟨buf,hr,h⟩ := Results.bind_eq_ok h
      have hsum : off/bsize*bsize+off%bsize=off := Nat.div_add_mod' ..
      have hsucc : (off/bsize+1)*bsize=off/bsize*bsize+bsize := Nat.succ_mul ..
      have hmod : off%bsize<bsize := Nat.mod_lt _ (by decide)
      have hcount : min n ((off/bsize+1)*bsize-off)=min (bsize-off%bsize) n := by omega
      have hwithin : off-off/bsize*bsize=off%bsize := by omega
      dsimp only at hr h
      rw [hcount,hwithin] at h
      obtain ⟨hmap,hblock,hupdate,hadv,htype,hown,hu'⟩ := write_block hw hz ho hi hu hfind hr
        (splice buf (off%bsize) (fun j => p (pos+j)) (min (bsize-off%bsize) n))
      obtain ⟨hloop,hadv',htype',rfl⟩ := ih (off/bsize+1) 0 hadv.blank hown hu'
        (by omega)
        (fun hne => by
          have hfull : off+min (bsize-off%bsize) n=(off/bsize+1)*bsize := by omega
          rw [hfull,Nat.mul_div_cancel _ (by decide),Nat.mul_mod_left]
          exact ⟨rfl,rfl⟩) h
      refine ⟨?_,hadv.trans hadv',htype'.trans htype,by omega⟩
      rw [if_neg hzero,hmap]
      show (if min (bsize-off%bsize) n < min (bsize-off%bsize) n then _ else
        writeLoop w (kernelSource p) fuel (Function.update (virt w st₁) x (splice (virt w st₁ x)
          (off%bsize) (fun j => p (pos+j))
          (min (min (bsize-off%bsize) n) (min (bsize-off%bsize) n))))
          (inodeOf din₁) (off/bsize+1) 0 (n-min (bsize-off%bsize) n)
          (pos+min (bsize-off%bsize) n))=_
      rw [if_neg (lt_irrefl _),min_self,hblock,hupdate]
      exact hloop

/-- `winode` writes the inode table as the kernel does. -/
theorem winode_puts (hw : View w) (hi : i < w.ninodes) (htype : getLE din 0 2<4)
    (h : winode st i din=.ok st') :
    virt w st'=putInodeAt w (virt w st) i (inodeOf din) ∧ st'.freeblock=st.freeblock ∧
      st'.freeinode=st.freeinode ∧ ∀ c,c≠iblock i → st'.disk c=st.disk c := by
  obtain ⟨hlow,hne⟩ := hw.iblock_lt hi
  have hsec : iblock i<2^22 := hlow.trans (by decide)
  rw [winode] at h
  obtain ⟨buf,hr,h⟩ := Results.bind_eq_ok h
  obtain ⟨-,rfl⟩ := (rsect_eq_ok hsec).mp hr
  cases h
  refine ⟨?_,rfl,rfl,fun c hc => ?_⟩
  · rw [putInodeAt,hw.locateInode,virt_apply hne,putInode_inodeOf _ _ htype,virt,wsect_disk hsec,
      Function.update_comm hne]
    rfl
  · rw [wsect_disk hsec,Function.update_of_ne hc]

/-- `rinode` reads the inode table as the kernel does. -/
theorem rinode_reads (hw : View w) (hi : i < w.ninodes) (h : rinode st i=.ok din) :
    inodeOf din=inodeAt w (virt w st) i := by
  obtain ⟨hlow,hne⟩ := hw.iblock_lt hi
  have hsec : iblock i<2^22 := hlow.trans (by decide)
  rw [rinode] at h
  obtain ⟨buf,hr,h⟩ := Results.bind_eq_ok h
  obtain ⟨-,rfl⟩ := (rsect_eq_ok hsec).mp hr
  cases h
  rw [getInode_shift,inodeAt,hw.locateInode,virt_apply hne]

/-- A type of the kernel other than a device is written as its code. -/
theorem code_of_itype (h : (inodeOf din).itype=.directory ∨ (inodeOf din).itype=.file) :
    getLE din 0 2<4 := by
  change InodeType.ofCode (getLE din 0 2)=_ ∨ InodeType.ofCode (getLE din 0 2)=_ at h
  by_contra hn
  obtain ⟨c,hc⟩ : ∃ c,getLE din 0 2=c+3 := ⟨getLE din 0 2-3,by omega⟩
  rw [hc] at h
  obtain h | h := h
  · cases h
  · cases h

/-- `iappend` is `try_iwrite` at the end of the file, from a buffer of the kernel. -/
theorem iappend_writes (hw : View w) (hz : Blank st)
    (ho : Owned w (virt w st) (inodeAt w (virt w st))) (hi : i < w.ninodes)
    (hu : (inodeAt w (virt w st) i).itype=.directory ∨ (inodeAt w (virt w st) i).itype=.file)
    (hn : 0<n) (h : iappend st i p n=.ok st') :
    (∃ di,tryIwrite w i (kernelSource p) (inodeAt w (virt w st) i).size.toNat n (virt w st)
      (inodeAt w (virt w st) i)=.ok (some n,virt w st',di)) ∧
      Blank st' ∧ st'.freeinode=st.freeinode ∧
      ∀ c,c<Mkfs.inodestart → st'.disk c=st.disk c := by
  rw [iappend] at h
  obtain ⟨din,hdin,h⟩ := Results.bind_eq_ok h
  obtain ⟨⟨st₁,din₁,off⟩,hloop,h⟩ := Results.bind_eq_ok h
  dsimp only at h
  have hread := rinode_reads hw hi hdin
  rw [← hread] at hu ⊢
  have hused : (inodeOf din).itype≠.empty := by
    obtain hu | hu := hu
    · rw [hu]
      nofun
    · rw [hu]
      nofun
  have hown : Owned w (virt w st) (withInode (inodeAt w (virt w st)) i (inodeOf din)) := by
    rwa [hread,withInode_inodeAt]
  obtain ⟨hwrite,hadv,htype,rfl⟩ := iappendLoop_writes (dinSize din/bsize)
    (dinSize din%bsize) hw hz hown hi hused le_rfl (fun _ => ⟨rfl,rfl⟩) hloop
  have hcode := code_of_itype hu
  have hw₁ := writeLoop_wrote hw.geometry hown hi hused le_rfl (Nat.mod_lt _ (by decide)) hwrite
  rw [Nat.div_add_mod' (dinSize din) bsize] at hw₁
  -- the last block that is written is one of the file
  have hlast := hw₁.mapped ((dinSize din+n-1)/bsize) (Nat.div_le_div_right (by omega))
    (by have := Nat.div_mul_le_self (dinSize din+n-1) bsize; omega) hn
  have hmax : dinSize din+n ≤ maxFileSize := by
    have hlt := (Nat.div_lt_iff_lt_mul (show 0 < bsize by decide)).mp hlast.1
    rw [maxFileSize]
    omega
  have hmaxsize : maxFileSize<256^4 := by decide
  have htype' : getLE (putLE din₁ 8 4 (dinSize din+n)) 0 2<4 := by
    rw [getLE_putLE_of_apart (by omega),htype]
    exact hcode
  obtain ⟨hput,hblock,hinode,hrest⟩ := winode_puts hw hi htype' h
  rw [inodeOf_setSize (by omega)] at hput
  have hsize : (inodeOf din₁).size=(inodeOf din).size := hw₁.grows.size
  refine ⟨⟨{inodeOf din₁ with size := UInt32.ofNat (dinSize din+n)},?_⟩,⟨?_,?_,fun b hb hb' => ?_⟩,
    hinode.trans hadv.freeinode,fun c hc => ?_⟩
  · rw [tryIwrite,inodeOf_size,if_neg (by omega),hwrite]
    have hupdate : ∀ di,updateInode w i (virt w st₁) di=.ok (putInodeAt w (virt w st₁) i di) :=
      fun di => if_neg (not_le.mpr hi)
    simp only [bind,Except.bind,hupdate,Nat.sub_zero,hsize,inodeOf_size]
    rw [if_pos (by omega),← hput,Nat.add_sub_cancel_left]
    rfl
  · rw [hblock]
    exact hadv.blank.low
  · rw [hblock]
    exact hadv.blank.high
  · rw [hblock] at hb
    have hlow := (hw.iblock_lt hi).1
    have := hadv.blank.low
    rw [hrest b (by omega)]
    exact hadv.blank.zero b hb hb'
  · have hge : Mkfs.inodestart ≤ iblock i := Nat.le_add_left ..
    rw [hrest c (by omega),hadv.low c (hc.trans (by decide))]

end Appending

end Xv6Rust.MkfsWrites
