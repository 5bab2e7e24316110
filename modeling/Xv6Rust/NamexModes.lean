import Xv6Rust.DirMap

/-!
# Paths of inodes and paths of their parents

`namei` and `namei_parent` of `fs/inode.rs` are the same loop, `namex`: it takes an element of the
path after another, and leaves at the end of the path, or before the last element. The inode of a
path is what `dir_lookup` finds of the last element in the directory that is the parent, in every
state and with the same effects. What the buffer of the name holds before does not matter.
-/

namespace Xv6Rust.NamexModes

open Bytes DiskLayout InodeLayer InodeSound
open DirEntries (bind_ok Room get_returns put_returns)
open LogWrites (Directories rootInUse rootInUse_wellFormed)

/-- The directory that a path starts at. -/
def startOf (cwd : Inode) (path : List UInt8) : Op Inode :=
  if pathAt path 0=0x2f then Icache.get rootInum else Icache.dup cwd

/-- `namei_parent`, with what the buffer of the name holds before. -/
def nameiParentInto (cwd : Inode) (path : List UInt8) (name : Name) : Op (Option (Inode×Name)) := do
  let inode ← startOf cwd path
  let (inode,name) ← namexLoop path true (path.length+1) inode 0 name
  return inode.map fun h => (h,name)

/-- `dir_lookup` of a name in a directory that is referenced, which then is let go. -/
def lookupIn (dir : Inode) (name : Name) : Op (Option Inode) := do
  dir.lock
  let r ← dirLookup dir.index name
  dir.unlock
  Icache.put dir
  return r.map Prod.fst

/-- The path has an element: a byte that is not a slash, before the first zero. -/
def HasElement (path : List UInt8) : Prop := ∃ k,pathAt path k≠0x2f ∧ ∀ j,j ≤ k → pathAt path j≠0

section Skipping

variable {path : List UInt8} {cur : ℕ} {a b : Name}

/-- Bytes are skipped up to the first that is not of the kind. -/
theorem skipWhile_spec {p : UInt8 → Bool} (hp : p 0=false) {fuel : ℕ}
    (hfuel : path.length ≤ cur+fuel) (hcur : cur ≤ path.length) :
    (cur ≤ skipWhile p path fuel cur ∧ skipWhile p path fuel cur ≤ path.length) ∧
      p (pathAt path (skipWhile p path fuel cur))=false ∧
      ∀ k,cur ≤ k → k < skipWhile p path fuel cur → p (pathAt path k)=true := by
  have hend : ∀ k,path.length ≤ k → pathAt path k=0 := fun k hk => List.getD_eq_default _ _ hk
  induction fuel generalizing cur with
  | zero =>
    rw [skipWhile]
    refine ⟨⟨le_rfl,hcur⟩,?_,fun k hle hlt => by omega⟩
    rw [hend cur (by omega),hp]
  | succ fuel ih =>
    rw [skipWhile]
    split
    · rename_i htrue
      have hlt : cur < path.length := by
        by_contra hn
        rw [hend cur (not_lt.mp hn),hp] at htrue
        cases htrue
      obtain ⟨⟨hle,hle'⟩,hstop,hall⟩ := @ih (cur+1) (by omega) hlt
      refine ⟨⟨by omega,hle'⟩,hstop,fun k hk hk' => ?_⟩
      by_cases e : k=cur
      · rw [e]
        exact htrue
      · exact hall k (by omega) hk'
    · rename_i hfalse
      exact ⟨⟨le_rfl,hcur⟩,eq_false_of_ne_true hfalse,fun k hle hlt => by omega⟩

/-- Where an element is looked for. -/
def elementAt (path : List UInt8) (cur : ℕ) : ℕ :=
  skipWhile (fun c => c=0x2f) path path.length cur

/-- The search for an element ends at a byte that is not a slash. -/
theorem elementAt_spec (hcur : cur ≤ path.length) :
    (cur ≤ elementAt path cur ∧ elementAt path cur ≤ path.length) ∧
      pathAt path (elementAt path cur)≠0x2f ∧
      ∀ k,cur ≤ k → k < elementAt path cur → pathAt path k=0x2f := by
  obtain ⟨hle,hstop,hall⟩ := @skipWhile_spec path cur (fun c => c=0x2f) (by decide) path.length
    (by omega) hcur
  exact ⟨hle,of_decide_eq_false hstop,fun k hk hk' => of_decide_eq_true (hall k hk hk')⟩

/-- An element that starts at a position. -/
theorem elementAt_self (hcur : cur ≤ path.length) (h : pathAt path cur≠0x2f) :
    elementAt path cur=cur := by
  obtain ⟨⟨hle,-⟩,-,hall⟩ := elementAt_spec hcur
  by_contra hne
  exact h (hall cur le_rfl (by omega))

/-- There is no element behind a position. -/
theorem skipPath_none (h : pathAt path (elementAt path cur)=0) : skipPath path cur a=(0,a) := by
  rw [skipPath]
  exact if_pos h

/-- An element behind a position: the next one is looked for further on, at a byte that is not a
slash, and the name does not depend on the buffer. -/
theorem skipPath_some (hcur : cur ≤ path.length) (h : pathAt path (elementAt path cur)≠0) :
    ∃ r a' b',skipPath path cur a=(r,a') ∧ skipPath path cur b=(r,b') ∧
      (cur < r ∧ r ≤ path.length) ∧ pathAt path r≠0x2f ∧
      ∃ k : Fin maxDirSize,a' k=0 ∧ ∀ i,i ≤ k → a' i=b' i := by
  obtain ⟨⟨hlo,hhi⟩,hnot,-⟩ := elementAt_spec hcur
  have hstart : skipWhile (fun c => c=0x2f) path path.length cur=elementAt path cur := rfl
  obtain ⟨⟨hlo',hhi'⟩,hstop,-⟩ := @skipWhile_spec path (elementAt path cur)
    (fun c => c≠0x2f && c≠0) (by decide) path.length (by omega) hhi
  obtain ⟨stop,hstop'⟩ : ∃ stop,stop=skipWhile (fun c => c≠0x2f && c≠0) path path.length
    (elementAt path cur) := ⟨_,rfl⟩
  rw [← hstop'] at hlo' hhi' hstop
  have hmore : elementAt path cur < stop := by
    by_contra hn
    have e : stop=elementAt path cur := by omega
    rw [e] at hstop
    simp [hnot,h] at hstop
  obtain ⟨⟨hlo'',hhi''⟩,hnext,-⟩ := elementAt_spec hhi'
  have heq : ∀ name : Name,skipPath path cur name=(elementAt path stop,fun i : Fin maxDirSize =>
      if i.val < min (stop-elementAt path cur) (maxDirSize-1) then
        pathAt path (elementAt path cur+i)
      else if i.val=min (stop-elementAt path cur) (maxDirSize-1) then 0 else name i) := by
    intro name
    rw [skipPath]
    dsimp only
    rw [hstart,if_neg h,← hstop']
    rfl
  have hcount : min (stop-elementAt path cur) (maxDirSize-1) < maxDirSize :=
    lt_of_le_of_lt (Nat.min_le_right ..) (by decide)
  refine ⟨elementAt path stop,_,_,heq a,heq b,⟨by omega,hhi''⟩,hnext,⟨_,hcount⟩,?_,fun i hi => ?_⟩
  · show (if _ then _ else if _ then (0 : UInt8) else _)=0
    rw [if_neg (lt_irrefl _),if_pos rfl]
  · have hi' : i.val ≤ min (stop-elementAt path cur) (maxDirSize-1) := hi
    by_cases hlt : i.val < min (stop-elementAt path cur) (maxDirSize-1)
    · rw [if_pos hlt,if_pos hlt]
    · rw [if_neg hlt,if_neg hlt,if_pos (by omega),if_pos (by omega)]

/-- Whether a path has an element. -/
theorem hasElement_iff : HasElement path ↔ pathAt path (elementAt path 0)≠0 := by
  obtain ⟨-,hnot,hall⟩ := elementAt_spec (Nat.zero_le path.length)
  refine ⟨fun h hzero => ?_,fun h => ⟨_,hnot,fun j hj => ?_⟩⟩
  · obtain ⟨k,hk,hbefore⟩ := h
    by_cases hlt : k < elementAt path 0
    · exact hk (hall k (Nat.zero_le k) hlt)
    · exact hbefore _ (not_lt.mp hlt) hzero
  · by_cases e : j=elementAt path 0
    · rw [e]
      exact h
    · rw [hall j (Nat.zero_le j) (by omega)]
      decide

end Skipping

section Names

variable {a b : Name} {i : ℕ}

/-- Names that agree up to a zero are the same for `dir_lookup`. -/
theorem sameName_congr {c : Name} {is : List (Fin maxDirSize)} {k : Fin maxDirSize} (hk : a k=0)
    (hmem : k∈is) (hsorted : is.Pairwise (· < ·)) (h : ∀ i,i ≤ k → a i=b i) :
    sameName c a is=sameName c b is := by
  induction is with
  | nil => rfl
  | cons i is ih =>
    obtain ⟨hfirst,hrest⟩ := List.pairwise_cons.mp hsorted
    rw [sameName,sameName]
    obtain rfl | hin := List.mem_cons.mp hmem
    · rw [← h k le_rfl,hk]
      by_cases hc : c k=0
      · rw [if_neg (not_not.mpr hc),if_pos hc,if_neg (not_not.mpr hc),if_pos hc]
      · rw [if_pos hc,if_pos hc]
    · rw [← h i (hfirst k hin).le,ih hin hrest]

theorem named_congr {k : Fin maxDirSize} (hk : a k=0) (h : ∀ i,i ≤ k → a i=b i) (e : DirEntry) :
    e.named a=e.named b :=
  sameName_congr hk (List.mem_finRange k) (List.pairwise_lt_finRange maxDirSize) h

theorem dirLookup_congr (h : ∀ e : DirEntry,e.named a=e.named b) :
    dirLookup i a=dirLookup i b := by
  have hloop : ∀ offs,dirLookupLoop i a offs=dirLookupLoop i b offs := by
    intro offs
    induction offs with
    | nil => rfl
    | cons off offs ih =>
      rw [dirLookupLoop,dirLookupLoop,ih]
      refine congrArg _ (funext fun r => ?_)
      cases r with
      | none => rfl
      | some e =>
        dsimp only
        rw [h e]
  rw [dirLookup,dirLookup]
  refine congrArg _ (funext fun di => ?_)
  rw [hloop]

end Names

section Loop

variable {path : List UInt8} {s t : Fs} {inode : Inode} {cur : ℕ} {a b : Name}

/-- One operation after another, after which there are more. -/
theorem bind_bind_ok {α β γ : Type} {o : Op α} {f : α → Op β} {k : β → Op γ} {x : α}
    (h : o s=.ok (x,t)) : ((o >>= f) >>= k) s=(f x >>= k) t := by
  rw [bind_assoc,bind_ok h]

/-- An operation that does not return. -/
theorem bind_error {α β : Type} {o : Op α} {f : α → Op β} {e : Stop} (h : o s=.error e) :
    (o >>= f) s=.error e := by
  show (o s >>= fun x => f x.1 x.2)=.error e
  rw [h]
  rfl

/-- What follows an operation. -/
theorem bind_congr_ok {α β : Type} {o : Op α} {f g : α → Op β}
    (h : ∀ x t,o s=.ok (x,t) → f x t=g x t) : (o >>= f) s=(o >>= g) s := by
  cases ho : o s with
  | error e => rw [bind_error ho,bind_error ho]
  | ok x =>
    obtain ⟨x,t⟩ := x
    rw [bind_ok ho,bind_ok ho,h x t ho]

/-- Two operations that return. -/
theorem bind_returns {α β : Type} {o : Op α} {f : α → Op β} {y : β} (h : (o >>= f) s=.ok (y,t)) :
    ∃ x u,o s=.ok (x,u) ∧ f x u=.ok (y,t) := by
  cases ho : o s with
  | error e =>
    rw [bind_error ho] at h
    cases h
  | ok x =>
    obtain ⟨x,u⟩ := x
    rw [bind_ok ho] at h
    exact ⟨x,u,rfl,h⟩

/-- Taking the lock of an inode that was locked just before. -/
theorem relock (h : inode.lock s=.ok ((),t)) :
    inode.lock (t.setLock inode.index false)=.ok ((),t) := by
  have ht : t.locked inode.index=true ∧ ∃ n,(t.idata inode.index).valid=some n := by
    rw [Inode.lock] at h
    split at h
    · cases h
    · dsimp only at h
      split at h
      · rename_i n hvalid
        cases h
        exact ⟨Function.update_self ..,n,hvalid⟩
      · split at h
        · cases h
        · split at h
          · cases h
          · cases h
            exact ⟨Function.update_self ..,inode.inum,
              congrArg InodeData.valid (InodeSound.setData_self _ _)⟩
  obtain ⟨hlocked,n,hvalid⟩ := ht
  have hsame : (t.setLock inode.index false).setLock inode.index true=t := by
    rw [Fs.setLock,Fs.setLock,Function.update_idem,← hlocked,Function.update_eq_self]
  have hvalid' : ((t.setLock inode.index false).idata inode.index).valid=some n := hvalid
  have hfree : (t.setLock inode.index false).locked inode.index≠true := by
    show Function.update t.locked inode.index false inode.index≠true
    rw [Function.update_self]
    exact Bool.false_ne_true
  rw [Inode.lock,if_neg hfree]
  dsimp only
  rw [hsame,hvalid]

/-- `dir_lookup` of the name that `namei_parent` leaves in its buffer. -/
def lookedUp : Option Inode×Name → Op (Option Inode)
  | (none,_) => pure none
  | (some dir,name) => lookupIn dir name

/-- Behind the last element the loop of `namei` returns the inode that it has. -/
theorem namexLoop_end {fuel : ℕ} (hcur : cur ≤ path.length) (h : pathAt path cur=0)
    (hfuel : 0 < fuel) : namexLoop path false fuel inode cur a=pure (some inode,a) := by
  obtain ⟨fuel,rfl⟩ : ∃ f,fuel=f+1 := ⟨fuel-1,by omega⟩
  have hslash : pathAt path cur≠0x2f := by
    rw [h]
    decide
  rw [namexLoop,skipPath_none (by rwa [elementAt_self hcur hslash])]
  rfl

/-- The loop in its two modes. -/
theorem namexLoop_agree {fuel : ℕ} (hfuel : path.length < fuel+cur) (hcur : cur ≤ path.length)
    (h : pathAt path (elementAt path cur)≠0) :
    (namexLoop path false fuel inode cur a >>= fun r => pure r.1) s=
      (namexLoop path true fuel inode cur b >>= lookedUp) s := by
  induction fuel generalizing inode cur a b s with
  | zero => omega
  | succ fuel ih =>
    obtain ⟨r,a',b',ha,hb,⟨hlt,hle⟩,hslash,k,hk,hsame⟩ := @skipPath_some path cur a b hcur h
    have hne : r≠0 := by omega
    rw [namexLoop,namexLoop,ha,hb]
    dsimp only
    rw [if_neg hne,if_neg hne]
    cases hlock : inode.lock s with
    | error e => exact (bind_error (bind_error hlock)).trans (bind_error (bind_error hlock)).symm
    | ok x =>
      obtain ⟨⟨⟩,s₁⟩ := x
      rw [bind_bind_ok hlock,bind_bind_ok hlock]
      have hdi : dinodeOf inode.index s₁=.ok ((s₁.idata inode.index).dinode,s₁) := rfl
      rw [bind_bind_ok hdi,bind_bind_ok hdi]
      by_cases hdir : (s₁.idata inode.index).dinode.itype≠.directory
      · rw [if_pos hdir,if_pos hdir]
        simp only [bind_assoc,pure_bind,lookedUp]
      · rw [if_neg hdir,if_neg hdir,if_neg (by simp)]
        have hlookup : dirLookup inode.index a'=dirLookup inode.index b' :=
          dirLookup_congr (named_congr hk hsame)
        by_cases hlast : pathAt path r=0
        · -- the parent is locked again for the name
          have hunlock : inode.unlock s₁=.ok ((),s₁.setLock inode.index false) := rfl
          rw [if_pos ⟨rfl,hlast⟩,bind_bind_ok hunlock,pure_bind,lookedUp,lookupIn,
            bind_ok (relock hlock),← hlookup,bind_assoc]
          refine bind_congr_ok fun x t _ => ?_
          cases x with
          | none => simp only [bind_assoc,pure_bind,Option.map_none]
          | some x =>
            obtain ⟨last,off⟩ := x
            simp only [bind_assoc,pure_bind,Option.map_some,
              namexLoop_end hle hlast (show 0 < fuel by omega)]
        · rw [if_neg fun hc => hlast hc.2,← hlookup,bind_assoc,bind_assoc]
          refine bind_congr_ok fun x t _ => ?_
          cases x with
          | none => simp only [bind_assoc,pure_bind,lookedUp]
          | some x =>
            obtain ⟨last,off⟩ := x
            simp only [bind_assoc]
            refine bind_congr_ok fun _ _ _ => bind_congr_ok fun _ _ _ => ?_
            exact ih (by omega) hle (by rwa [elementAt_self hle hslash])

/-- The loop of `namei_parent` returns a directory. -/
theorem namexLoop_parent {fuel : ℕ} {dir : Inode} (hfuel : path.length < fuel+cur)
    (hcur : cur ≤ path.length) (h : namexLoop path true fuel inode cur a s=.ok ((some dir,b),t)) :
    (t.idata dir.index).dinode.itype=.directory := by
  induction fuel generalizing inode cur a s with
  | zero => omega
  | succ fuel ih =>
    by_cases hzero : pathAt path (elementAt path cur)=0
    · rw [namexLoop,skipPath_none hzero] at h
      dsimp only at h
      rw [if_pos rfl,if_pos rfl] at h
      obtain ⟨x,u,-,h⟩ := bind_returns h
      cases h
    · obtain ⟨r,a',b',ha,-,⟨hlt,hle⟩,-⟩ := @skipPath_some path cur a a hcur hzero
      rw [namexLoop,ha] at h
      dsimp only at h
      rw [if_neg (by omega)] at h
      obtain ⟨-,s₁,-,h⟩ := bind_returns h
      obtain ⟨di,s₂,hdi,h⟩ := bind_returns h
      obtain ⟨rfl,rfl⟩ : (s₁.idata inode.index).dinode=di ∧ s₁=s₂ := by
        cases hdi
        exact ⟨rfl,rfl⟩
      by_cases hdir : (s₁.idata inode.index).dinode.itype≠.directory
      · rw [if_pos hdir] at h
        obtain ⟨-,u,-,h⟩ := bind_returns h
        obtain ⟨-,u',-,h⟩ := bind_returns h
        cases h
      · rw [if_neg hdir] at h
        by_cases hlast : pathAt path r=0
        · rw [if_pos ⟨rfl,hlast⟩] at h
          obtain ⟨x,u,hunlock,h⟩ := bind_returns h
          cases hunlock
          cases h
          exact not_not.mp hdir
        · rw [if_neg fun hc => hlast hc.2] at h
          obtain ⟨found,u,-,h⟩ := bind_returns h
          cases found with
          | none =>
            obtain ⟨-,u',-,h⟩ := bind_returns h
            obtain ⟨-,u'',-,h⟩ := bind_returns h
            cases h
          | some x =>
            obtain ⟨last,off⟩ := x
            obtain ⟨-,u',-,h⟩ := bind_returns h
            obtain ⟨-,u'',-,h⟩ := bind_returns h
            exact ih (by omega) hle h

end Loop

section Agreement

variable {path : List UInt8} {cwd : Inode} {s t : Fs}

theorem namei_start : namei cwd path=startOf cwd path >>= fun inode =>
    namexLoop path false (path.length+1) inode 0 (fun _ => 0) >>= fun r => pure r.1 := by
  have hnamei : namei cwd path=namex cwd path false >>= fun r => pure r.1 := rfl
  have hnamex : namex cwd path false=startOf cwd path >>= fun inode =>
      namexLoop path false (path.length+1) inode 0 fun _ => 0 := by
    rw [namex,startOf]
    split
    · rfl
    · rfl
  rw [hnamei,hnamex,bind_assoc]

/-- `namei` is `namei_parent`, and a lookup of the name in the directory that it returns. -/
theorem namei_eq (h : HasElement path) (name : Name) :
    namei cwd path s=(nameiParentInto cwd path name >>= fun r =>
      r.elim (pure none) fun x => lookupIn x.1 x.2) s := by
  rw [namei_start,nameiParentInto,bind_assoc]
  refine bind_congr_ok fun inode t _ => ?_
  rw [namexLoop_agree (by omega) (Nat.zero_le _) (hasElement_iff.mp h),bind_assoc]
  refine bind_congr_ok fun x u _ => ?_
  obtain ⟨found,last⟩ := x
  cases found with
  | none => rfl
  | some dir => rfl

/-- A path without elements is that of the directory that it starts at, which has no parent. -/
theorem namei_none (h : ¬HasElement path) (name : Name) :
    namei cwd path=(startOf cwd path >>= fun inode => pure (some inode)) ∧
      nameiParentInto cwd path name=(startOf cwd path >>= fun inode => do
        Icache.put inode
        return none) := by
  have hzero : pathAt path (elementAt path 0)=0 := by
    by_contra hn
    exact h (hasElement_iff.mpr hn)
  refine ⟨?_,?_⟩
  · rw [namei_start]
    refine congrArg _ (funext fun inode => ?_)
    rw [namexLoop,skipPath_none hzero]
    rfl
  · rw [nameiParentInto]
    refine congrArg _ (funext fun inode => ?_)
    rw [namexLoop,skipPath_none hzero]
    dsimp only
    rw [if_pos rfl,if_pos rfl,bind_assoc]
    rfl

/-- The result of `namei_parent` is a directory. -/
theorem nameiParentInto_directory {name last : Name} {dir : Inode}
    (h : nameiParentInto cwd path name s=.ok (some (dir,last),t)) :
    (t.idata dir.index).dinode.itype=.directory := by
  rw [nameiParentInto] at h
  obtain ⟨inode,u,-,h⟩ := bind_returns h
  obtain ⟨r,v,hloop,h⟩ := bind_returns h
  obtain ⟨found,b⟩ := r
  cases found with
  | none => cases h
  | some inode =>
    cases h
    exact namexLoop_parent (by omega) (Nat.zero_le _) hloop

/-- The reference that a path starts with can be taken and let go. -/
theorem startOf_returns {K : InodeType → Prop} {hs : List Inode} (hg : Good K hs s)
    (htaken : ∀ j,s.locked j=true → 0 < (s.imeta j).refs)
    (hroot : pathAt path 0=0x2f → Room s rootInum) (hcwd : pathAt path 0≠0x2f → cwd∈hs) :
    ∃ inode u t,startOf cwd path s=.ok (inode,u) ∧ Icache.put inode u=.ok ((),t) := by
  rw [startOf]
  by_cases hslash : pathAt path 0=0x2f
  · rw [if_pos hslash]
    obtain ⟨i,hget,hgood,-⟩ := get_returns hg (hroot hslash)
    have hfree : ((s.setMeta i ⟨rootInum,(s.imeta i).refs+1⟩).imeta i).refs=1 →
        s.locked i=false := by
      intro hone
      rw [setMeta_self] at hone
      dsimp only at hone
      by_contra hlocked
      have hpos := htaken i (eq_true_of_ne_false hlocked)
      omega
    obtain ⟨t,hput,-⟩ := put_returns hgood hfree
    exact ⟨_,_,t,hget,hput⟩
  · rw [if_neg hslash]
    have hmem := hcwd hslash
    have hdup : Icache.dup cwd s=.ok (cwd,s.retain cwd.index) := rfl
    have hgood := ((dup_rule hmem s hg).1 _ _ hdup).2
    have hpos : 0 < (s.imeta cwd.index).refs := hg.2.pos hmem
    obtain ⟨t,hput,-⟩ := put_returns hgood fun hone => by
      rw [Fs.retain,setMeta_self] at hone
      dsimp only at hone
      omega
    exact ⟨_,_,t,hdup,hput⟩

end Agreement

/-- For every current directory and every path, whatever the buffer of the name holds before: if the
path has an element, `namei` returns an inode, in any state, exactly if `namei_parent` returns a
directory in which `dir_lookup` of the name finds that inode, and with the same effects; if it has
none, `namei` returns the directory that the path starts at and `namei_parent` none, in every sound
state that has room for the root directory. -/
theorem namei_agrees (cwd : Inode) (path : List UInt8) (name : Name) (s : Fs) :
    (HasElement path → ∀ x t,namei cwd path s=.ok (some x,t) ↔
      ∃ dir last u,nameiParentInto cwd path name s=.ok (some (dir,last),u) ∧
        (u.idata dir.index).dinode.itype=.directory ∧ lookupIn dir last u=.ok (some x,t)) ∧
      (¬HasElement path → ∀ K hs,Good K hs s → (∀ j,s.locked j=true → 0 < (s.imeta j).refs) →
        (pathAt path 0=0x2f → Room s rootInum) → (pathAt path 0≠0x2f → cwd∈hs) →
        ∃ inode u t,startOf cwd path s=.ok (inode,u) ∧ namei cwd path s=.ok (some inode,u) ∧
          nameiParentInto cwd path name s=.ok (none,t)) := by
  refine ⟨fun h x t => ?_,fun h K hs hg htaken hroot hcwd => ?_⟩
  · rw [namei_eq h name]
    refine ⟨fun hok => ?_,fun hok => ?_⟩
    · obtain ⟨r,u,hparent,hlookup⟩ := bind_returns hok
      cases r with
      | none => cases hlookup
      | some found =>
        obtain ⟨dir,last⟩ := found
        exact ⟨dir,last,u,hparent,nameiParentInto_directory hparent,hlookup⟩
    · obtain ⟨dir,last,u,hparent,-,hlookup⟩ := hok
      rw [bind_ok hparent]
      exact hlookup
  · obtain ⟨inode,u,t,hstart,hput⟩ := startOf_returns hg htaken hroot hcwd
    obtain ⟨hnamei,hparent⟩ := @namei_none path cwd h name
    refine ⟨inode,u,t,hstart,?_,?_⟩
    · rw [hnamei,bind_ok hstart]
      rfl
    · rw [hparent,bind_ok hstart,bind_ok hput]
      rfl

/-- The file system of `rootInUse` after the file `/f` is created. -/
def fileInRoot : Fs :=
  match create ⟨rootInum,0⟩ [0x2f,0x66] .file 0 0 false rootInUse with
  | .ok (_,s) => s
  | .error _ => rootInUse

theorem namei_agrees_fileInRoot :
    (∃ dir last u t,nameiParentInto ⟨rootInum,0⟩ [0x2f,0x66,0x2f] (fun _ => 0) fileInRoot=
        .ok (some (dir,last),u) ∧ lookupIn dir last u=.ok (some ⟨2,1⟩,t)) ∧
      ∃ u t,namei ⟨rootInum,0⟩ [] rootInUse=.ok (some ⟨rootInum,0⟩,u) ∧
        nameiParentInto ⟨rootInum,0⟩ [] (fun _ => 0) rootInUse=.ok (none,t) := by
  refine ⟨?_,?_⟩
  · have htest : ((namei ⟨rootInum,0⟩ [0x2f,0x66,0x2f] fileInRoot).toOption.map Prod.fst)=
        some (some ⟨2,1⟩) := by decide +kernel
    have hfound : ∃ t,namei ⟨rootInum,0⟩ [0x2f,0x66,0x2f] fileInRoot=.ok (some ⟨2,1⟩,t) := by
      revert htest
      cases namei ⟨rootInum,0⟩ [0x2f,0x66,0x2f] fileInRoot with
      | error e =>
        intro h
        cases h
      | ok x =>
        obtain ⟨r,t⟩ := x
        intro h
        cases h
        exact ⟨t,rfl⟩
    obtain ⟨t,hfound⟩ := hfound
    obtain ⟨dir,last,u,hparent,-,hlookup⟩ := ((namei_agrees ⟨rootInum,0⟩ [0x2f,0x66,0x2f]
      (fun _ => 0) fileInRoot).1 ⟨1,by decide,by decide⟩ ⟨2,1⟩ t).mp hfound
    exact ⟨dir,last,u,t,hparent,hlookup⟩
  · obtain ⟨inode,u,t,hstart,hnamei,hparent⟩ := (namei_agrees ⟨rootInum,0⟩ [] (fun _ => 0)
      rootInUse).2 (fun h => by obtain ⟨k,-,hk⟩ := h; exact hk k le_rfl rfl) Directories
      [⟨rootInum,0⟩] rootInUse_wellFormed.good (fun j hj => by cases hj)
      (fun h => absurd h (by decide)) (fun _ => List.mem_cons_self ..)
    cases hstart
    exact ⟨_,t,hnamei,hparent⟩

end Xv6Rust.NamexModes
