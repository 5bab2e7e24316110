import Xv6Rust.MkfsWrites

/-!
# What mkfs builds

Inodes are built one after the other, each with a type and with the bytes that
are appended to it: the root with an entry for every file, and the files with
their contents. While there are as many as the inode table has room for, the
inodes are on the image as they would be on a disk of the kernel to which the
same bytes are written.
-/

namespace Xv6Rust.MkfsImage

open Bytes DiskLayout InodeLayer BlockOwnership FileContents Mkfs MkfsWrites

/-- The type and the bytes of an inode. -/
structure Node where
  /-- Type. -/
  itype : InodeType
  /-- Bytes. -/
  bytes : List UInt8

/-- The node with more bytes. -/
def Node.append (f : Node) (bytes : List UInt8) : Node := ⟨f.itype,f.bytes++bytes⟩

theorem Node.append_append (f : Node) (xs ys : List UInt8) :
    (f.append xs).append ys=f.append (xs++ys) := by
  show Node.mk _ _=Node.mk _ _
  rw [← List.append_assoc]
  rfl

/-- An inode with the bytes of a node. -/
structure Holding (d : Disk) (di : DiskInode) (f : Node) : Prop where
  /-- Type. -/
  itype : di.itype=f.itype
  /-- One link. -/
  nlink : di.nlink=1
  /-- Size. -/
  size : di.size.toNat=f.bytes.length
  /-- Every block has a number. -/
  whole : Whole d di
  /-- Direct blocks behind the contents have none. -/
  tail : ∀ bn,bn < ndirect → f.bytes.length ≤ bn*bsize → di.addr bn=0
  /-- Contents. -/
  bytes : ∀ o,o < maxFileSize → byteAt d di o=f.bytes.getD o 0

/-- The image while `mkfs` runs, with the nodes built so far. -/
structure Built (w : SuperBlock) (st : State) (fs : List Node) : Prop where
  /-- Blocks that are not handed out are zero. -/
  blank : Blank st
  /-- The counter of the inodes. -/
  freeinode : st.freeinode=fs.length+1
  /-- They are in the inode table. -/
  room : fs.length < w.ninodes
  /-- The blocks that are handed out are those of the inodes. -/
  owned : Owned w (virt w st) (inodeAt w (virt w st))
  /-- The inodes. -/
  nodes : ∀ {k : ℕ} {f},fs[k]?=some f → Holding (virt w st) (inodeAt w (virt w st) (k+1)) f
  /-- They are directories and files. -/
  kinds : ∀ {k : ℕ} {f},fs[k]?=some f → f.itype=.directory ∨ f.itype=.file
  /-- Other inodes are free. -/
  others : ∀ j,j < w.ninodes → j=0 ∨ fs.length < j → (inodeAt w (virt w st) j).itype=.empty
  /-- The blocks before the inode table are as they were written first. -/
  front : ∀ c,c < inodestart → st.disk c=start.disk c

section Places

variable {sb : SuperBlock} {d d' : Disk} {di di' : DiskInode} {bn b cn : ℕ}

theorem addr_setAddr_of_ne {p q : ℕ} (h : q≠p) : (di.setAddr p b).addr q=di.addr q := by
  rw [DiskInode.addr,DiskInode.addr]
  split
  · exact congrArg UInt32.toNat (if_neg h)
  · rfl

/-- `map_blockno` leaves the other direct blocks. -/
theorem mapBlockno_direct (h : mapBlockno sb d di bn=.ok (b,d',di')) (hcn : cn < ndirect)
    (hne : cn≠bn) : di'.addr cn=di.addr cn := by
  have hentry : ∀ {d dj ind k},mapEntry sb d dj ind k=.ok (b,d',di') → di'=dj := by
    intro d dj ind k hk
    rw [mapEntry] at hk
    split at hk
    · split at hk
      · cases hk
      · cases hk
        rfl
    · cases hk
      rfl
  rw [mapBlockno_eq] at h
  split at h
  · split at h
    · split at h
      · cases h
      · cases h
        exact addr_setAddr_of_ne hne
    · cases h
      rfl
  · split at h
    · split at h
      · split at h
        · cases h
        · rw [hentry h]
          exact addr_setAddr_of_ne (by omega)
      · rw [hentry h]
    · cases h

/-- The loop of `try_iwrite` leaves the direct blocks behind what it writes. -/
theorem writeLoop_direct {src : Source} {fuel base o count pos left : ℕ} (ho : o < bsize)
    (h : writeLoop sb src fuel d di base o count pos=.ok (left,d',di')) (hcn : cn < ndirect)
    (hbehind : base*bsize+o+count ≤ cn*bsize) : di'.addr cn=di.addr cn := by
  induction fuel generalizing d di base o count pos with
  | zero =>
    cases h
    rfl
  | succ fuel ih =>
    rw [writeLoop] at h
    split at h
    · cases h
      rfl
    · rename_i hzero
      obtain ⟨⟨b,d₁,di₁⟩,hmap,h⟩ := Results.bind_eq_ok h
      have hne : cn≠base := by
        rintro rfl
        omega
      have hfirst := mapBlockno_direct hmap hcn hne
      have hsucc : (base+1)*bsize=base*bsize+bsize := Nat.succ_mul ..
      have hnext : base+1 ≤ cn := by
        by_contra hn
        have hle := Nat.mul_le_mul_right bsize (show cn ≤ base by omega)
        omega
      have hnext := Nat.mul_le_mul_right bsize hnext
      dsimp only at h
      split at h
      · cases h
        exact hfirst
      · exact (ih (by decide) h (by omega)).trans hfirst

/-- So does `try_iwrite`. -/
theorem tryIwrite_direct {src : Source} {i offset count : ℕ} {r : Option ℕ}
    (h : tryIwrite sb i src offset count d di=.ok (r,d',di')) (hcn : cn < ndirect)
    (hbehind : offset+count ≤ cn*bsize) : di'.addr cn=di.addr cn := by
  rw [tryIwrite] at h
  split at h
  · cases h
    rfl
  · obtain ⟨⟨left,d₁,di₁⟩,hloop,h⟩ := Results.bind_eq_ok h
    obtain ⟨d₂,-,h⟩ := Results.bind_eq_ok h
    have hsum : offset/bsize*bsize+offset%bsize=offset := Nat.div_add_mod' ..
    have hsame := writeLoop_direct (Nat.mod_lt _ (by decide)) hloop hcn (by omega)
    cases h
    rw [← hsame]
    split
    · rfl
    · rfl

end Places

section Steps

variable {w : SuperBlock} {st st' : State} {fs : List Node} {f : Node} {k : ℕ} {p : Buffer}
  {itype : InodeType} {inum : ℕ}

theorem used_of_kind (h : itype=.directory ∨ itype=.file) : itype≠.empty := by
  obtain rfl | rfl := h
  · nofun
  · nofun

theorem Built.inum_lt (hb : Built w st fs) (hk : fs[k]?=some f) : k+1 < w.ninodes := by
  have hlt := (List.getElem?_eq_some_iff.mp hk).1
  have hroom := hb.room
  omega

theorem Built.used (hb : Built w st fs) (hk : fs[k]?=some f) :
    (inodeAt w (virt w st) (k+1)).itype≠.empty := by
  rw [(hb.nodes hk).itype]
  exact used_of_kind (hb.kinds hk)

/-- The blocks of an inode are as they were. -/
theorem Holding.congr {d d' : Disk} {di : DiskInode} (h : Holding d di f)
    (haddr : ∀ p,p < npos → addrAt d' di p=addrAt d di p)
    (hbyte : ∀ o,o < maxFileSize → byteAt d' di o=byteAt d di o) : Holding d' di f := by
  refine ⟨h.itype,h.nlink,h.size,fun bn hbn => ?_,h.tail,fun o ho => ?_⟩
  · obtain ⟨hlt,hne⟩ := h.whole bn hbn
    refine ⟨hlt,?_⟩
    rw [haddr _ (posOf_lt hlt)]
    exact hne
  · rw [hbyte o ho]
    exact h.bytes o ho

/-- Another inode is written; this one keeps its bytes. -/
theorem Holding.other {sb : SuperBlock} {d d' : Disk} {di : DiskInode} {i j : ℕ}
    (h : Holding d (inodeAt sb d j) f) (hst : Stored sb i d d' di) (hne : j≠i)
    (hj : j < sb.ninodes) (hu : (inodeAt sb d j).itype≠.empty) :
    Holding d' (inodeAt sb d' j) f := by
  rw [hst.others j hne hj]
  exact h.congr (hst.addrs j hne hj hu) (hst.bytes j hne hj hu)

theorem getLE_zero (o n : ℕ) : getLE (fun _ => 0) o n=0 := by
  induction n generalizing o with
  | zero => rfl
  | succ n ih =>
    rw [getLE,ih]
    rfl

/-- The structure that `ialloc` writes. -/
theorem inodeOf_new (hkind : itype=.directory ∨ itype=.file) :
    inodeOf (putLE (putLE (putLE (fun _ => 0) 0 2 itype.code) 6 2 1) 8 4 0)=
        {DiskInode.new with itype := itype,nlink := 1} ∧
      getLE (putLE (putLE (putLE (fun _ => 0) 0 2 itype.code) 6 2 1) 8 4 0) 0 2<4 := by
  have hcode : getLE (putLE (putLE (putLE (fun _ => 0) 0 2 itype.code) 6 2 1) 8 4 0) 0 2=
      itype.code := by
    rw [getLE_putLE_of_apart (by omega),getLE_putLE_of_apart (by omega),
      getLE_putLE_self (code_lt itype)]
  refine ⟨DiskInode.ext ?_ ?_ ?_ ?_ ?_ ?_,?_⟩
  · change InodeType.ofCode (getLE _ 0 2)=itype
    rw [hcode,InodeType.ofCode_code]
  · rfl
  · rfl
  · rfl
  · rfl
  · funext i
    refine congrArg UInt32.ofNat ?_
    rw [getLE_putLE_of_apart (by omega),getLE_putLE_of_apart (by omega),
      getLE_putLE_of_apart (by omega)]
    exact getLE_zero ..
  · rw [hcode]
    obtain rfl | rfl := hkind
    · decide
    · decide

/-- `ialloc` adds a node without bytes. -/
theorem Built.ialloc (hw : View w) (hb : Built w st fs) (hroom : fs.length+1 < w.ninodes)
    (hkind : itype=.directory ∨ itype=.file) (h : ialloc st itype.code=.ok (inum,st')) :
    inum=fs.length+1 ∧ Built w st' (fs++[⟨itype,[]⟩]) := by
  rw [Mkfs.ialloc] at h
  obtain ⟨next,hwinode,h⟩ := Results.bind_eq_ok h
  cases h
  rw [hb.freeinode] at hwinode
  obtain ⟨hnew,htype⟩ := inodeOf_new hkind
  obtain ⟨hput,hblock,hinode,hrest⟩ := winode_puts hw hroom htype hwinode
  have hvirt : virt w {st with freeinode := fs.length+1+1}=virt w st := rfl
  have hblock' : st'.freeblock=st.freeblock := hblock
  rw [hnew,hvirt] at hput
  have haddr : ∀ d p,addrAt d {DiskInode.new with itype := itype,nlink := 1} p=0 := by
    intro d p
    rw [addrAt]
    split
    · exact new_addr itype 1 0 p
    · exact if_pos (new_addr itype 1 0 ndirect)
  have hfree := hb.others (fs.length+1) hroom (.inr (Nat.lt_succ_self _))
  have hnone := hb.owned.allocate hfree (haddr _)
  have hst := stored_of_put (d:=virt w st) hw.geometry hroom hnone rfl rfl
    (fun _ _ => rfl) (fun _ _ _ _ _ _ => rfl) fun _ _ _ _ _ _ => rfl
  rw [← hput] at hst
  refine ⟨hb.freeinode,⟨?_,?_,?_⟩,?_,?_,hst.owned,fun {k f} hk => ?_,fun {k f} hk => ?_,
    fun j hj hout => ?_,fun c hc => ?_⟩
  · rw [hblock']
    exact hb.blank.low
  · rw [hblock']
    exact hb.blank.high
  · intro b hge hlt
    rw [hblock'] at hge
    have hlow := (hw.iblock_lt hroom).1
    have hdata := hb.blank.low
    rw [hrest b (by omega)]
    exact hb.blank.zero b hge hlt
  · rw [hinode,List.length_append,List.length_singleton]
  · rw [List.length_append,List.length_singleton]
    exact hroom
  · by_cases hlast : k=fs.length
    · rw [hlast,List.getElem?_concat_length] at hk
      cases hk
      rw [hlast,hst.self]
      refine ⟨rfl,rfl,rfl,fun bn hbn => absurd hbn (Nat.not_lt_zero _),
        fun bn _ _ => new_addr itype 1 0 bn,fun o ho => ?_⟩
      rw [byteAt,if_pos (haddr ..)]
      rfl
    · have hold : fs[k]?=some f := by
        rwa [List.getElem?_append_left] at hk
        have hlt := (List.getElem?_eq_some_iff.mp hk).1
        rw [List.length_append,List.length_singleton] at hlt
        omega
      exact (hb.nodes hold).other hst (by omega) (hb.inum_lt hold) (hb.used hold)
  · rw [List.getElem?_append] at hk
    split at hk
    · exact hb.kinds hk
    · have hmem := List.mem_of_getElem? hk
      rw [List.mem_singleton] at hmem
      rw [hmem]
      exact hkind
  · rw [List.length_append,List.length_singleton] at hout
    rw [hst.others j (by omega) hj]
    exact hb.others j hj (by omega)
  · have hge : Mkfs.inodestart ≤ iblock (fs.length+1) := Nat.le_add_left ..
    rw [hrest c (by omega)]
    exact hb.front c hc

/-- The bytes of a list behind those of another. -/
theorem getD_append (xs ys : List UInt8) (o : ℕ) : (xs++ys).getD o 0=
    if xs.length ≤ o ∧ o < xs.length+ys.length then ys.getD (o-xs.length) 0 else xs.getD o 0 := by
  by_cases hlow : o < xs.length
  · rw [if_neg (by omega),List.getD_append _ _ _ _ hlow]
  · have hlow := not_lt.mp hlow
    rw [List.getD_append_right _ _ _ _ hlow]
    split
    · rfl
    · rename_i hout
      rw [List.getD_eq_default _ _ (by omega),List.getD_eq_default _ _ (by omega)]

/-- `iappend` adds bytes to a node. -/
theorem Built.iappend {bytes : List UInt8} (hw : View w) (hb : Built w st fs) (hk : fs[k]?=some f)
    (hbytes : bytes≠[]) (hp : ∀ j,j < bytes.length → p j=bytes.getD j 0)
    (h : iappend st (k+1) p bytes.length=.ok st') : Built w st' (fs.set k (f.append bytes)) := by
  have hold := hb.nodes hk
  have hi := hb.inum_lt hk
  have hkind := hb.kinds hk
  rw [← hold.itype] at hkind
  obtain ⟨⟨di,hok⟩,hblank,hinode,hfront⟩ := iappend_writes hw hb.blank hb.owned hi hkind
    (List.length_pos_of_ne_nil hbytes) h
  have hown : Owned w (virt w st) (withInode (inodeAt w (virt w st)) (k+1)
      (inodeAt w (virt w st) (k+1))) := by
    rw [withInode_inodeAt]
    exact hb.owned
  obtain ⟨⟨hnone,-⟩,-⟩ | ⟨left,d₁,di₁,hw₁,hleft,hst,-,hnums,hsame,hrest,-,hmax,hsize⟩ :=
    tryIwrite_stored hw.geometry hown hi (hb.used hk) hok
  · cases hnone
  · obtain ⟨rfl,hcells⟩ := hw₁.bytes p bytes.length (fun pos n _ => ⟨le_rfl,fun _ _ => rfl⟩)
      (by omega)
    have hk' := (List.getElem?_eq_some_iff.mp hk).1
    rw [Nat.sub_zero,hold.size] at hsize
    refine ⟨hblank,?_,?_,hst.owned,fun {j g} hj => ?_,fun {j g} hj => ?_,fun j hj hout => ?_,
      fun c hc => ?_⟩
    · rw [hinode,hb.freeinode,List.length_set]
    · rw [List.length_set]
      exact hb.room
    · by_cases hjk : j=k
      · rw [hjk,List.getElem?_set_self hk'] at hj
        cases hj
        rw [hjk,hst.self]
        refine ⟨?_,?_,?_,whole_of_wrote hw₁ hold.whole hnums le_rfl ?_,fun bn hbn hout => ?_,
          fun o ho => ?_⟩
        · have e := congrArg DiskInode.itype hrest
          exact Eq.trans e hold.itype
        · have e := congrArg DiskInode.nlink hrest
          exact Eq.trans e hold.nlink
        · rw [hsize,Node.append,List.length_append]
          omega
        · rw [hsize,hold.size,Nat.sub_zero]
        · rw [Node.append,List.length_append] at hout
          rw [tryIwrite_direct hok hbn (by rw [hold.size]; exact hout)]
          exact hold.tail bn hbn (by omega)
        · rw [hsame o ho,hcells o ho,hold.size,Node.append,getD_append,hold.bytes o ho,Nat.zero_add]
          split
          · rename_i hin
            exact hp _ (by omega)
          · rfl
      · rw [List.getElem?_set_ne (Ne.symm hjk)] at hj
        exact (hb.nodes hj).other hst (by omega) (hb.inum_lt hj) (hb.used hj)
    · by_cases hjk : j=k
      · rw [hjk,List.getElem?_set_self hk'] at hj
        cases hj
        have hkind' := hb.kinds hk
        exact hkind'
      · rw [List.getElem?_set_ne (Ne.symm hjk)] at hj
        exact hb.kinds hj
    · rw [List.length_set] at hout
      rw [hst.others j (by omega) hj]
      exact hb.others j hj hout
    · rw [hfront c hc]
      exact hb.front c hc

/-- The loop over the bytes of an input file adds them all. -/
theorem Built.appendLoop {bytes : List UInt8} {fuel : ℕ} (hw : View w) (hb : Built w st fs)
    (hk : fs[k]?=some f) (hfuel : bytes.length < fuel)
    (h : appendLoop (k+1) fuel st bytes=.ok st') : Built w st' (fs.set k (f.append bytes)) := by
  induction fuel generalizing st fs f bytes with
  | zero => omega
  | succ fuel ih =>
    rw [Mkfs.appendLoop] at h
    by_cases hnil : bytes=[]
    · rw [hnil,List.take_nil,List.length_nil,if_pos rfl] at h
      cases h
      rw [hnil,Node.append,List.append_nil]
      have hsame : fs.set k ⟨f.itype,f.bytes⟩=fs := by
        obtain ⟨hlt,rfl⟩ := List.getElem?_eq_some_iff.mp hk
        exact List.set_getElem_self hlt
      rw [hsame]
      exact hb
    · have hpos := List.length_pos_of_ne_nil hnil
      have hbsize : bsize=1024 := rfl
      have htake : (bytes.take bsize).length≠0 := by
        rw [List.length_take]
        omega
      rw [if_neg htake] at h
      obtain ⟨next,happend,h⟩ := Results.bind_eq_ok h
      have hnext := hb.iappend hw hk (fun e => htake (by rw [e]; rfl)) (fun _ _ => rfl) happend
      have hlt := (List.getElem?_eq_some_iff.mp hk).1
      have hlast := ih hnext (List.getElem?_set_self hlt) (by rw [List.length_drop]; omega) h
      rwa [List.set_set,Node.append_append,List.take_append_drop] at hlast

end Steps

/-- The bytes of an entry. -/
def entry (inum : ℕ) (name : List UInt8) : List UInt8 := (List.range deSize).map (dirent inum name)

/-- The entries of the root: inode and name. -/
def entries (files : List Input) : List (ℕ×List UInt8) :=
  (rootino,[0x2e])::(rootino,[0x2e,0x2e])::files.mapIdx fun k f => (k+2,f.shortname)

/-- The bytes of entries. -/
def entryList (es : List (ℕ×List UInt8)) : List UInt8 := es.flatMap fun e => entry e.1 e.2

/-- The inodes that are built. -/
def nodesOf (files : List Input) : List Node :=
  ⟨.directory,entryList (entries files)⟩::files.map fun f => ⟨.file,f.contents⟩

section Runs

variable {w : SuperBlock} {st st' : State} {files : List Input}

theorem length_entry (inum : ℕ) (name : List UInt8) : (entry inum name).length=deSize := by
  rw [entry,List.length_map,List.length_range]

theorem dirent_eq (inum : ℕ) (name : List UInt8) {j : ℕ} (hj : j < (entry inum name).length) :
    dirent inum name j=(entry inum name).getD j 0 := by
  rw [List.getD_eq_getElem _ _ hj]
  simp only [entry,List.getElem_map,List.getElem_range]

theorem length_entries : (entries files).length=files.length+2 := by
  simp only [entries,List.length_cons,List.length_mapIdx]

theorem length_entryList (es : List (ℕ×List UInt8)) : (entryList es).length=deSize*es.length := by
  induction es with
  | nil => rfl
  | cons e es ih =>
    have hcons : entryList (e::es)=entry e.1 e.2++entryList es := rfl
    rw [hcons,List.length_append,length_entry,ih,List.length_cons,Nat.mul_succ,Nat.add_comm]

/-- A file more. -/
theorem entries_append (f : Input) :
    entries (files++[f])=entries files++[(files.length+2,f.shortname)] := by
  simp only [entries,List.mapIdx_concat,List.cons_append]

theorem entryList_append (es : List (ℕ×List UInt8)) (e : ℕ×List UInt8) :
    entryList (es++[e])=entryList es++entry e.1 e.2 := by
  rw [entryList,List.flatMap_append,List.flatMap_singleton]
  rfl

theorem length_nodesOf : (nodesOf files).length=files.length+1 := by
  rw [nodesOf,List.length_cons,List.length_map]

/-- The node of a file. -/
theorem getElem?_nodesOf {k : ℕ} {f : Input} (h : files[k]?=some f) :
    (nodesOf files)[k+1]?=some ⟨.file,f.contents⟩ := by
  rw [nodesOf,List.getElem?_cons_succ,List.getElem?_map,h]
  rfl

/-- A pass of the loop over the input files adds an entry and a node. -/
theorem Built.install {f : Input} (hw : View w) (hb : Built w st (nodesOf files))
    (hroom : files.length+3 ≤ w.ninodes) (h : install st f=.ok st') :
    Built w st' (nodesOf (files++[f])) := by
  rw [Mkfs.install] at h
  split at h
  · cases h
  · obtain ⟨⟨inum,st₁⟩,halloc,h⟩ := Results.bind_eq_ok h
    obtain ⟨st₂,hentry,h⟩ := Results.bind_eq_ok h
    obtain ⟨rfl,hb₁⟩ := hb.ialloc hw (by rw [length_nodesOf]; exact hroom)
      (show InodeType.file=.directory ∨ InodeType.file=.file from .inr rfl) halloc
    rw [length_nodesOf] at hentry h
    have hroot : (nodesOf files++[⟨.file,[]⟩])[0]?=
        some ⟨.directory,entryList (entries files)⟩ := rfl
    have hlen := length_entry (files.length+2) f.shortname
    have hne : entry (files.length+2) f.shortname≠[] := by
      intro e
      rw [e] at hlen
      cases hlen
    have hb₂ := hb₁.iappend hw hroot hne (fun j hj => dirent_eq _ _ hj) (by rwa [hlen])
    have hfile : ((nodesOf files++[Node.mk .file []]).set 0 (Node.append
        ⟨.directory,entryList (entries files)⟩
          (entry (files.length+2) f.shortname)))[files.length+1]?=some ⟨.file,[]⟩ := by
      have hlast : ∀ l : List Node,(l++[⟨.file,[]⟩])[l.length]?=some ⟨.file,[]⟩ := fun l =>
        List.getElem?_concat_length
      rw [List.getElem?_set_ne (by omega),← length_nodesOf,hlast]
    have hb₃ := hb₂.appendLoop hw hfile (Nat.lt_succ_self _) h
    have hnodes : ((nodesOf files++[Node.mk .file []]).set 0 (Node.append
        ⟨.directory,entryList (entries files)⟩ (entry (files.length+2) f.shortname))).set
          (files.length+1) (Node.append ⟨.file,[]⟩ f.contents)=nodesOf (files++[f]) := by
      rw [nodesOf,List.cons_append,List.set_cons_zero,List.set_cons_succ,nodesOf,entries_append,
        entryList_append,List.map_append]
      have hend : ((files.map fun f => Node.mk .file f.contents)++[Node.mk .file []]).set
          files.length (Node.append ⟨.file,[]⟩ f.contents)=
          (files.map fun f => Node.mk .file f.contents)++[⟨.file,f.contents⟩] := by
        rw [List.set_append_right _ _ (by rw [List.length_map]),List.length_map,Nat.sub_self]
        rfl
      rw [hend]
      rfl
    rwa [hnodes] at hb₃

/-- The loop over the input files. -/
theorem Built.foldlM {more : List Input} (hw : View w) (hb : Built w st (nodesOf files))
    (hroom : (files++more).length+2 ≤ w.ninodes) (h : more.foldlM Mkfs.install st=.ok st') :
    Built w st' (nodesOf (files++more)) := by
  induction more generalizing st files with
  | nil =>
    cases h
    rwa [List.append_nil]
  | cons f more ih =>
    rw [List.foldlM_cons] at h
    obtain ⟨next,hnext,h⟩ := Results.bind_eq_ok h
    have hb' := hb.install hw (by rw [List.length_append,List.length_cons] at hroom; omega) hnext
    have happ : files++f::more=files++[f]++more := by rw [List.append_assoc]; rfl
    rw [happ] at hroom ⊢
    exact ih hb' hroom h

theorem start_apply {c : ℕ} (hc : c≠1) : start.disk c=fun _ => 0 := if_neg hc

/-- Nothing is built at first. -/
theorem start_built (hw : View w) (hroom : 0 < w.ninodes) : Built w start [] := by
  have hinode : ∀ j,j < w.ninodes → inodeAt w (virt w start) j=
      getInode (fun _ => 0) (j%ipb*inodeSize) := by
    intro j hj
    have hne := (hw.iblock_lt hj).2
    have hge : Mkfs.inodestart ≤ iblock j := Nat.le_add_left ..
    have hstart : (1 : ℕ) < Mkfs.inodestart := by decide
    rw [inodeAt,hw.locateInode,virt_apply hne,start_apply (by omega)]
  have hempty : ∀ j,j < w.ninodes → (inodeAt w (virt w start) j).itype=.empty := by
    intro j hj
    rw [hinode j hj,getInode,getLE_zero]
    rfl
  have hnone : ∀ {j p b},¬Holds w (virt w start) (inodeAt w (virt w start)) j p b := fun hj =>
    hj.used (hempty _ hj.inum)
  refine ⟨⟨le_rfl,by decide,fun b hb _ => start_apply ?_⟩,rfl,hroom,
    ⟨fun hj => absurd hj hnone,fun hj => absurd hj hnone,fun b hb => ?_⟩,fun {k f} hk => ?_,
    fun {k f} hk => ?_,fun j hj _ => hempty j hj,fun _ _ => rfl⟩
  · rintro rfl
    exact absurd hb (by decide)
  · rw [hw.size] at hb
    rw [bit_virt w hb,decide_eq_true_iff,hw.nmeta]
    refine ⟨.inl,fun h => h.resolve_right fun hheld => ?_⟩
    obtain ⟨j,p,hj⟩ := hheld
    exact hnone hj
  · cases hk
  · cases hk

/-- The root is built first. -/
theorem makeRoot_built (hw : View w) (hroom : 1 < w.ninodes) (h : makeRoot=.ok st) :
    Built w st (nodesOf []) := by
  rw [makeRoot] at h
  obtain ⟨⟨inum,st₁⟩,halloc,h⟩ := Results.bind_eq_ok h
  obtain ⟨st₂,hdot,h⟩ := Results.bind_eq_ok h
  obtain ⟨-,hb₁⟩ := (start_built hw (by omega)).ialloc hw hroom
    (show InodeType.directory=.directory ∨ InodeType.directory=.file from .inl rfl) halloc
  have happend : ∀ {st st' : State} {f : Node} {name : List UInt8},Built w st [f] →
      iappend st rootino (dirent rootino name) deSize=.ok st' →
        Built w st' [f.append (entry rootino name)] := by
    intro st st' f name hb h
    have hlen := length_entry rootino name
    have hne : entry rootino name≠[] := by
      intro e
      rw [e] at hlen
      cases hlen
    exact hb.iappend (k:=0) hw rfl hne (fun j hj => dirent_eq _ _ hj) (by rwa [hlen])
  exact happend (happend hb₁ hdot) h

/-- A file without holes is not larger than a file can be. -/
theorem Holding.length_le {d : Disk} {di : DiskInode} {f : Node} (h : Holding d di f) :
    f.bytes.length ≤ maxFileSize := by
  by_contra hn
  have hlt := (h.whole (ndirect+nindirect) (by rw [h.size]; exact not_le.mp hn)).1
  exact absurd hlt (lt_irrefl _)

end Runs

/-- The size of the root at the end. -/
def rootSize (files : List Input) : ℕ := (deSize*(files.length+2)/bsize+1)*bsize

/-- The image at the end, as a disk of the kernel. -/
structure Image (w : SuperBlock) (e : Disk) (files : List Input) : Prop where
  /-- Blocks are owned. -/
  owned : Owned w e (inodeAt w e)
  /-- The root holds its entries, and is larger. -/
  root : ∃ di,Holding e di ⟨.directory,entryList (entries files)⟩ ∧
    inodeAt w e 1={di with size := UInt32.ofNat (rootSize files)}
  /-- The files hold their contents. -/
  file : ∀ {k : ℕ} {f},files[k]?=some f → Holding e (inodeAt w e (k+2)) ⟨.file,f.contents⟩
  /-- Other inodes are free. -/
  others : ∀ j,j < w.ninodes → j=0 ∨ files.length+1 < j → (inodeAt w e j).itype=.empty

section Ends

variable {w : SuperBlock} {st st' : State} {files : List Input} {d : Disk}

/-- The end of `main`, before the bitmap is written. -/
theorem Built.fixRoot (hw : View w) (hb : Built w st (nodesOf files)) (h : fixRoot st=.ok st') :
    Image w (virt w st') files ∧ st'.freeblock=st.freeblock ∧
      ∀ c,c < inodestart → st'.disk c=start.disk c := by
  have hroot : (nodesOf files)[0]?=some ⟨.directory,entryList (entries files)⟩ := rfl
  have hhold := hb.nodes hroot
  have hi := hb.inum_lt hroot
  have hlen : (entryList (entries files)).length=deSize*(files.length+2) := by
    rw [length_entryList,length_entries]
  have hmax := hhold.length_le
  rw [Mkfs.fixRoot] at h
  obtain ⟨din,hdin,h⟩ := Results.bind_eq_ok h
  have hread := rinode_reads hw hi hdin
  have hsize : dinSize din=deSize*(files.length+2) := by
    rw [← inodeOf_size,hread,hhold.size,hlen]
  rw [hlen] at hmax
  rw [hsize] at h
  have hsmall : rootSize files<256^4 := by
    have hle := Nat.div_mul_le_self (deSize*(files.length+2)) bsize
    have hmaxsize : maxFileSize+bsize<256^4 := by decide
    rw [rootSize,Nat.succ_mul]
    omega
  have hcode : getLE (putLE din 8 4 (rootSize files)) 0 2<4 := by
    rw [getLE_putLE_of_apart (by omega)]
    exact code_of_itype (by rw [hread,hhold.itype]; exact .inl rfl)
  obtain ⟨hput,hblock,-,hrest⟩ := winode_puts hw hi hcode h
  rw [inodeOf_setSize hsmall,hread] at hput
  have hown : Owned w (virt w st)
      (withInode (inodeAt w (virt w st)) 1 (inodeAt w (virt w st) 1)) := by
    rw [withInode_inodeAt]
    exact hb.owned
  have hst : Stored w 1 (virt w st) (putInodeAt w (virt w st) 1
      {inodeAt w (virt w st) 1 with size := UInt32.ofNat (rootSize files)})
      {inodeAt w (virt w st) 1 with size := UInt32.ofNat (rootSize files)} :=
    stored_of_put hw.geometry hi hown rfl rfl (fun _ _ => rfl) (fun _ _ _ _ _ _ => rfl)
      fun _ _ _ _ _ _ => rfl
  rw [← hput] at hst
  refine ⟨⟨hst.owned,⟨inodeAt w (virt w st) 1,?_,hst.self⟩,fun {k f} hk => ?_,fun j hj hout => ?_⟩,
    hblock,fun c hc => ?_⟩
  · have hused := hb.used hroot
    rw [hput]
    refine hhold.congr (fun p hp => ?_) fun o ho =>
      putInodeAt_byteAt hw.geometry hb.owned hi hi hused ho
    refine addrAt_congr (fun hne => putInodeAt_apply _ hw.geometry hi ?_ _) p
    exact (hb.owned.range (holds_indirect hi hused hne)).1
  · have hk' := getElem?_nodesOf hk
    exact (hb.nodes hk').other hst (by omega) (hb.inum_lt hk') (hb.used hk')
  · rw [hst.others j (by omega) hj]
    exact hb.others j hj (by rwa [length_nodesOf])
  · have hne : c≠iblock (0+1) := by
      have hge : inodestart ≤ iblock (0+1) := Nat.le_add_left ..
      omega
    rw [hrest c hne]
    exact hb.front c hc

/-- The image that `mkfs` leaves: as a disk of the kernel, apart from the two places of the
bitmap, and with the super block. -/
theorem mkfs_image (hw : View w) (hroom : files.length+2 ≤ w.ninodes) (h : mkfs files=.ok d) :
    ∃ e,Image w e files ∧ (∀ c,c≠bmapstart → c≠w.bmapstart → d c=e c) ∧
      (w.bmapstart=bmapstart → d=e) ∧ ∀ c,c < inodestart → d c=start.disk c := by
  rw [mkfs] at h
  obtain ⟨st₁,hroot,h⟩ := Results.bind_eq_ok h
  obtain ⟨st₂,hfiles,h⟩ := Results.bind_eq_ok h
  obtain ⟨st₃,hfix,h⟩ := Results.bind_eq_ok h
  obtain ⟨st₄,hballoc,h⟩ := Results.bind_eq_ok h
  cases h
  have hb : Built w st₂ (nodesOf ([]++files)) :=
    (makeRoot_built hw (by omega) hroot).foldlM hw hroom hfiles
  rw [List.nil_append] at hb
  obtain ⟨himage,-,hfront⟩ := hb.fixRoot hw hfix
  rw [balloc] at hballoc
  split at hballoc
  · cases hballoc
  · cases hballoc
    have hdisk : (wsect st₃ bmapstart (bitmapBytes st₃.freeblock)).disk=
        Function.update st₃.disk bmapstart (bitmapBytes st₃.freeblock) := wsect_disk (by decide)
    refine ⟨virt w st₃,himage,fun c hc hc' => ?_,fun hsame => ?_,fun c hc => ?_⟩
    · rw [hdisk,Function.update_of_ne hc,virt_apply hc']
    · rw [hdisk,virt,hsame]
    · have hlt : inodestart<bmapstart := by decide
      rw [hdisk,Function.update_of_ne (by omega)]
      exact hfront c hc

end Ends

end Xv6Rust.MkfsImage
