import Xv6Rust.InodeCache

/-!
# The last reference to an unlinked inode

A deleting `put` releases the contents of its slot before it takes its
reference away. Until then the slot can still be found: a `get` of the inode
number, which `inode_alloc` may already have handed out again, raises the count,
and a `lock` loads the contents anew. Without such a `lock` the cache stays
coherent, and without such a `get` the second decrement ends at zero.
-/

namespace Xv6Rust.InodeRelease

open Runs Handles DiskLayout InodeCache

section Contents

variable {s t : System}

/-- Loaded contents fit the keys, and slots that are left hold none. -/
structure Clean (s : System) : Prop where
  /-- A slot that is not in use holds no contents. -/
  cleared : ∀ i,(s.imeta i).refs=0 → (s.idata i).valid=none
  /-- Contents are those of the key. -/
  keyed : ∀ i k,(s.idata i).valid=some k → (s.imeta i).key=k
  /-- A deleting `put` that released the contents left none. -/
  left : ∀ h∈s.live,s.stage h=.unlocked → (s.idata (s.inode h).index).valid=none
  /-- Nobody holds the lock of a slot whose contents were released so. -/
  apart : ∀ h∈s.live,∀ h'∈s.live,(s.stage h).holds=true → s.stage h'=.unlocked →
    (s.inode h).index≠(s.inode h').index

/-- Locks are no contents. -/
theorem Clean.setLocked (hc : Clean s) (i : ℕ) (b : Bool) : Clean (s.setLocked i b) :=
  ⟨hc.cleared,hc.keyed,hc.left,hc.apart⟩

/-- The disk holds no contents of the cache. -/
theorem Clean.setDisk (hc : Clean s) (k : ℕ×ℕ) (d : DiskInode) : Clean (s.setDisk k d) :=
  ⟨hc.cleared,hc.keyed,hc.left,hc.apart⟩

/-- A new handle to a slot whose key is kept while it is in use. -/
theorem Clean.add (hc : Clean s) {h i : ℕ} {m : InodeMeta} (hn : h∉s.live) (hr : m.refs≠0)
    (hk : 0<(s.imeta i).refs → m.key=(s.imeta i).key) (ino : Inode) :
    Clean ((s.setMeta i m).addHandle h ino) := by
  have hi : ∀ x∈s.live,Function.update s.inode h ino x=s.inode x := by
    intro x hx
    exact Function.update_of_ne (ne_of_mem_of_not_mem hx hn) _ _
  have hold : ∀ x∈insert h s.live,Function.update s.stage h .idle x≠.idle →
      x∈s.live ∧ Function.update s.stage h .idle x=s.stage x := by
    intro x hx hs
    rcases Finset.mem_insert.mp hx with e|e
    · rw [e,Function.update_self] at hs
      exact absurd rfl hs
    · exact ⟨e,Function.update_of_ne (ne_of_mem_of_not_mem e hn) _ _⟩
  constructor
  · intro j hj
    dsimp only [System.addHandle,System.setMeta] at hj ⊢
    rw [Function.update_apply] at hj
    split at hj
    · exact absurd hj hr
    · exact hc.cleared j hj
  · intro j k hv
    dsimp only [System.addHandle,System.setMeta] at hv ⊢
    rw [Function.update_apply]
    split
    · rename_i e
      rw [e] at hv
      have hpos : 0<(s.imeta i).refs := by
        apply Nat.pos_of_ne_zero
        intro h0
        rw [hc.cleared i h0] at hv
        cases hv
      rw [hk hpos]
      exact hc.keyed i k hv
    · exact hc.keyed j k hv
  · intro x hx hs
    dsimp only [System.addHandle,System.setMeta] at hx hs ⊢
    obtain ⟨hx',he⟩ := hold x hx (by rw [hs]; decide)
    rw [he] at hs
    rw [hi x hx']
    exact hc.left x hx' hs
  · intro x hx y hy hhx hsy
    dsimp only [System.addHandle,System.setMeta] at hx hy hhx hsy ⊢
    obtain ⟨hx',hex⟩ := hold x hx (by intro e; rw [e] at hhx; cases hhx)
    obtain ⟨hy',hey⟩ := hold y hy (by rw [hsy]; decide)
    rw [hex] at hhx
    rw [hey] at hsy
    rw [hi x hx',hi y hy']
    exact hc.apart x hx' y hy' hhx hsy

/-- A handle is dropped; a slot that is left holds no contents. -/
theorem Clean.drop (hc : Clean s) {h i n : ℕ} (hv : n=0 → (s.idata i).valid=none) :
    Clean ((s.setRefs i n).dropHandle h) := by
  constructor
  · intro j hj
    dsimp only [System.dropHandle,System.setRefs,System.setMeta] at hj ⊢
    rw [Function.update_apply] at hj
    split at hj
    · rename_i e
      rw [e]
      exact hv hj
    · exact hc.cleared j hj
  · intro j k hk
    dsimp only [System.dropHandle,System.setRefs,System.setMeta] at hk ⊢
    rw [Function.update_apply]
    split
    · rename_i e
      rw [e] at hk
      exact hc.keyed i k hk
    · exact hc.keyed j k hk
  · intro x hx
    exact hc.left x (Finset.mem_of_mem_erase hx)
  · intro x hx y hy
    exact hc.apart x (Finset.mem_of_mem_erase hx) y (Finset.mem_of_mem_erase hy)

/-- New contents of a slot: none, or those of its key while it is in use and not being left. -/
theorem Clean.setData (hc : Clean s) {i : ℕ} {x : InodeData}
    (hx : ∀ k,x.valid=some k → (s.imeta i).key=k ∧ (s.imeta i).refs≠0 ∧
      ∀ h∈s.live,s.stage h=.unlocked → (s.inode h).index≠i) : Clean (s.setData i x) := by
  constructor
  · intro j hj
    dsimp only [System.setData] at hj ⊢
    rw [Function.update_apply]
    split
    · rename_i e
      rw [e] at hj
      cases hv : x.valid with
      | none => rfl
      | some k => exact absurd hj (hx k hv).2.1
    · exact hc.cleared j hj
  · intro j k hk
    dsimp only [System.setData] at hk ⊢
    rw [Function.update_apply] at hk
    split at hk
    · rename_i e
      rw [e]
      exact (hx k hk).1
    · exact hc.keyed j k hk
  · intro h hl hs
    dsimp only [System.setData] at hl hs ⊢
    rw [Function.update_apply]
    split
    · rename_i e
      cases hv : x.valid with
      | none => rfl
      | some k => exact absurd e ((hx k hv).2.2 h hl hs)
    · exact hc.left h hl hs
  · exact hc.apart

/-- Contents that keep their `valid` field. -/
theorem Clean.setDinode (hc : Clean s) {i : ℕ} {x : InodeData} (hx : x.valid=(s.idata i).valid) :
    Clean (s.setData i x) := by
  refine hc.setData ?_
  intro k hk
  rw [hx] at hk
  refine ⟨hc.keyed i k hk,?_,?_⟩
  · intro h0
    rw [hc.cleared i h0] at hk
    cases hk
  · intro h hl hs e
    have hn := hc.left h hl hs
    rw [e,hk] at hn
    cases hn

/-- A handle goes on to another stage. -/
theorem Clean.setStage (hc : Clean s) {h : ℕ} {st : Stage}
    (hh : st.holds=true → ∀ x∈s.live,s.stage x=.unlocked → (s.inode x).index≠(s.inode h).index)
    (hu : st=.unlocked → (s.idata (s.inode h).index).valid=none ∧
      ∀ x∈s.live,x≠h → (s.stage x).holds=true → (s.inode x).index≠(s.inode h).index) :
    Clean (s.setStage h st) := by
  refine ⟨hc.cleared,hc.keyed,?_,?_⟩
  · intro x hx hs
    dsimp only [System.setStage] at hx hs ⊢
    rw [Function.update_apply] at hs
    split at hs
    · rename_i e
      rw [e]
      exact (hu hs).1
    · exact hc.left x hx hs
  · intro x hx y hy hhx hsy
    dsimp only [System.setStage] at hx hy hhx hsy ⊢
    rw [Function.update_apply] at hhx hsy
    split at hhx
    · rename_i ex
      rw [ex]
      split at hsy
      · rw [hsy] at hhx
        cases hhx
      · exact (hh hhx y hy hsy).symm
    · rename_i ex
      split at hsy
      · rename_i ey
        rw [ey]
        exact (hu hsy).2 x hx ex hhx
      · exact hc.apart x hx y hy hhx hsy

end Contents

section Coherence

variable {s t : System}

/-- No `lock` takes the contents of a slot that a deleting `put` has released and still
counts. -/
def NoReload (s : System) : Label → Prop
  | .lock h => ∀ h'∈s.live,s.stage h'=.unlocked → (s.inode h').index≠(s.inode h).index
  | _ => True

/-- Every section without such a `lock` keeps the contents right. -/
theorem Clean.change (hi : Clean s) (hc : Counted s) (hk : Locks s) {a : Label}
    (hn : NoReload s a) (h : Change s a t) : Clean t := by
  cases h with
  | hit new bound key used =>
    refine hi.add new ?_ ?_ _
    · exact Nat.succ_ne_zero _
    · intro _
      rfl
  | miss new bound unused absent =>
    exact hi.add new one_ne_zero (fun h0 => absurd unused (Nat.ne_of_gt h0)) _
  | dup live stays new =>
    refine hi.add new ?_ ?_ _
    · exact Nat.succ_ne_zero _
    · intro _
      rfl
  | lock live idle free =>
    refine (hi.setLocked _ _).setStage (fun _ => hn) ?_
    intro e
    split at e <;> cases e
  | @load x live loading =>
    have hh : (s.stage x).holds=true := by rw [loading]; rfl
    have hap : ∀ y∈s.live,s.stage y=.unlocked → (s.inode y).index≠(s.inode x).index :=
      fun y hy hs => (hi.apart x live y hy hh hs).symm
    refine Clean.setStage (hi.setData ?_) (fun _ => hap) (fun e => by cases e)
    intro k hv
    cases hv
    exact ⟨hc.key x live,Nat.ne_of_gt (hc.used live),hap⟩
  | modify => exact hi.setDinode rfl
  | update => exact hi.setDisk _ _
  | unlock => exact (hi.setLocked _ _).setStage (fun e => by cases e) (fun e => by cases e)
  | @last x live idle refs =>
    have hnone : Clean (s.setData (s.inode x).index
        ⟨none,(s.idata (s.inode x).index).dinode⟩) := hi.setData (fun k e => by cases e)
    refine hnone.drop ?_
    intro _
    dsimp only [System.setData]
    rw [Function.update_self]
  | @delete x live idle refs free =>
    refine (hi.setLocked _ _).setStage ?_ (fun e => by cases e)
    intro _ y hy hs e
    have he : y=x := hc.sole live refs hy e
    rw [he] at hs
    exact absurd (hs.symm.trans idle) (by decide)
  | less live idle many some => exact hi.drop (fun e => absurd e (by omega))
  | @truncate x k live deleting valid =>
    have hh : (s.stage x).holds=true := by rw [deleting]; rfl
    refine Clean.setStage ((hi.setDinode valid.symm).setDisk _ _) ?_ (fun e => by cases e)
    intro _ y hy hs
    exact (hi.apart x live y hy hh hs).symm
  | @clear x live emptied =>
    have hh : (s.stage x).holds=true := by rw [emptied]; rfl
    have hnone : Clean (s.setData (s.inode x).index
        ⟨none,(s.idata (s.inode x).index).dinode⟩) := hi.setData (fun k e => by cases e)
    refine (hnone.setLocked _ _).setStage (fun e => by cases e) ?_
    intro _
    refine ⟨?_,?_⟩
    · dsimp only [System.setData,System.setLocked]
      rw [Function.update_self]
    · intro y hy hne hhy e
      exact hne (hk.exclusive y hy x live hhy hh e)
  | @finish x live unlocked refs => exact hi.drop (fun _ => hi.left x live unlocked)
  | alloc => exact hi.setDisk _ _

/-- What every section keeps. -/
structure Inv (s : System) : Prop where
  /-- The counts. -/
  counted : Counted s
  /-- The locks. -/
  locks : Locks s
  /-- The contents. -/
  clean : Clean s

/-- The cache after boot. -/
theorem boot_inv (disk : ℕ×ℕ → DiskInode) : Inv (boot disk) := by
  refine ⟨⟨?_,?_,?_,?_⟩,Locking.empty (fun _ => rfl),⟨?_,?_,?_,?_⟩⟩
  · intro h hl
    exact absurd hl (Finset.notMem_empty h)
  · intro h hl
    exact absurd hl (Finset.notMem_empty h)
  · intro i
    rfl
  · intro i j _ _ hi
    exact absurd hi (lt_irrefl 0)
  · intro i _
    rfl
  · intro i k hk
    cases hk
  · intro h hl
    exact absurd hl (Finset.notMem_empty h)
  · intro h hl
    exact absurd hl (Finset.notMem_empty h)

/-- One section without such a `lock`. -/
theorem step_inv {a : Label} (hi : Inv s) (hn : NoReload s a) (h : step s a=.next t) : Inv t := by
  have hc := step_change h
  exact ⟨hi.counted.change hc,hi.locks.change hc,
    hi.clean.change hi.counted hi.locks hn hc⟩

/-- `put` never waits for the sleep lock with the `meta` lock in its hand. -/
theorem step_no_sleep {a : Label} (hc : Counted s) (hk : Locks s) :
    step s a≠.fault .sleepWithMeta := by
  intro h
  obtain ⟨x,hl,hs,hr,hx⟩ := (step_fault h).1 rfl
  rw [hk.free_of_last hc hl (by rw [hs]; rfl) hr] at hx
  cases hx

/-- A coherent cache. -/
structure Coherent (s : System) : Prop where
  /-- Reference counts count the live handles, those inside `put` included. -/
  refs : ∀ i,i<ninode → (s.imeta i).refs=(s.handlesAt i).card
  /-- Two slots in use have different keys. -/
  unique : ∀ i j,i<ninode → j<ninode → 0<(s.imeta i).refs → 0<(s.imeta j).refs →
    (s.imeta i).key=(s.imeta j).key → i=j
  /-- A slot that is not in use holds no contents. -/
  cleared : ∀ i,i<ninode → (s.imeta i).refs=0 → (s.idata i).valid=none
  /-- Contents are those of the key. -/
  keyed : ∀ i k,i<ninode → (s.idata i).valid=some k → (s.imeta i).key=k
  /-- A live handle has the key of its slot. -/
  handle : ∀ h∈s.live,(s.inode h).index<ninode ∧
    (s.imeta (s.inode h).index).key=((s.inode h).dev,(s.inode h).inum)

/-- The invariant gives coherence. -/
theorem Inv.coherent (hi : Inv s) : Coherent s :=
  ⟨fun i _ => hi.counted.count i,hi.counted.unique,fun i _ => hi.clean.cleared i,
    fun i k _ => hi.clean.keyed i k,fun h hl => ⟨hi.counted.bound h hl,hi.counted.key h hl⟩⟩

/-- In every interleaving in which no `lock` reloads a slot between the release of its
contents by a deleting `put` and the second decrement, the cache is coherent in every
state, and `put` never waits for a sleep lock under the `meta` lock. -/
theorem cache_coherent_without_reload (disk : ℕ×ℕ → DiskInode) (labels : List Label)
    (hg : Guarded step NoReload (boot disk) labels) :
    run step (boot disk) labels≠.fault .sleepWithMeta ∧
    ∀ t,run step (boot disk) labels=.next t → Coherent t := by
  have hstep : ∀ s a t,Inv s → NoReload s a → step s a=.next t → Inv t :=
    fun s a t hi hn h => step_inv hi hn h
  refine ⟨run_no_fault hstep (fun s a hi _ => step_no_sleep hi.counted hi.locks)
    (boot_inv disk) hg,?_⟩
  intro t ht
  exact (run_invariant hstep (boot_inv disk) hg ht).coherent

instance decidableNoReload (s : System) : ∀ a,Decidable (NoReload s a)
  | .lock h => inferInstanceAs (Decidable (∀ h'∈s.live,s.stage h'=.unlocked →
      (s.inode h').index≠(s.inode h).index))
  | .get _ _ _ | .dup _ _ | .load _ | .modify _ _ | .update _ | .unlock _ | .put _ | .truncate _
  | .clear _ | .finish _ | .alloc _ _ _ => inferInstanceAs (Decidable True)

/-- A disk with a file of one link at every inode number. -/
def files : ℕ×ℕ → DiskInode := fun _ => {DiskInode.new with itype := .file,nlink := 1}

/-- A file without links. -/
def unlinkedFile : DiskInode := {DiskInode.new with itype := .file}

/-- The calls of one process that unlinks the file 2, up to the first section of the last
`put`. -/
def unlinkCalls : List Label :=
  [.get 0 1 2,.lock 0,.load 0,.modify 0 unlinkedFile,.update 0,.unlock 0,.put 0]

/-- A file is unlinked and deleted, and its number is allocated and opened afterwards. -/
def orderly : List Label :=
  unlinkCalls++[.truncate 0,.clear 0,.alloc 1 2 .file,.finish 0,.get 1 1 2,.lock 1,.load 1,
    .dup 1 2,.unlock 1,.put 1]

/-- The hypotheses hold of a run that deletes a file and uses its number again. -/
theorem cache_coherent_orderly :
    Guarded step NoReload (boot files) orderly ∧
    (∃ t,run step (boot files) orderly=.next t ∧ t.live={2} ∧ (t.imeta 0).refs=1) ∧
    run step (boot files) orderly≠.fault .sleepWithMeta ∧
    ∀ t,run step (boot files) orderly=.next t → Coherent t := by
  have hg : Guarded step NoReload (boot files) orderly := by decide
  exact ⟨hg,⟨_,rfl,by decide,by decide⟩,cache_coherent_without_reload files orderly hg⟩

/-- Before the second decrement another process allocates the inode, opens it and drops
it. -/
def reloaded : List Label :=
  unlinkCalls++[.truncate 0,.clear 0,.alloc 1 2 .file,.get 1 1 2,.lock 1,.load 1,.unlock 1,
    .put 1,.finish 0]

/-- Then the slot has no reference and still holds contents. -/
theorem contents_left_after_reload :
    ∃ t,run step (boot files) reloaded=.next t ∧ (t.imeta 0).refs=0 ∧
      (t.idata 0).valid=some (1,2) ∧ ¬Coherent t := by
  refine ⟨_,rfl,by decide,by decide,?_⟩
  intro h
  have hn := h.cleared 0 (by decide) (by decide)
  revert hn
  decide

end Coherence

section LastReference

variable {s t : System}

/-- No `get` looks for an inode that a `put` is deleting. -/
def NoReuse (s : System) : Label → Prop
  | .get _ dev inum => ∀ h∈s.live,(s.stage h).leaving=true →
      ((s.inode h).dev,(s.inode h).inum)≠(dev,inum)
  | _ => True

instance decidableNoReuse (s : System) : ∀ a,Decidable (NoReuse s a)
  | .get _ dev inum => inferInstanceAs (Decidable (∀ h∈s.live,(s.stage h).leaving=true →
      ((s.inode h).dev,(s.inode h).inum)≠(dev,inum)))
  | .dup _ _ | .lock _ | .load _ | .modify _ _ | .update _ | .unlock _ | .put _ | .truncate _
  | .clear _ | .finish _ | .alloc _ _ _ => inferInstanceAs (Decidable True)

/-- A deleting `put` has the only handle of its slot. -/
def Sole (s : System) : Prop :=
  ∀ h∈s.live,(s.stage h).leaving=true → ∀ h'∈s.live,(s.inode h').index=(s.inode h).index → h'=h

/-- A new handle to a slot that no `put` is leaving. -/
theorem Sole.add (hs : Sole s) {h : ℕ} {ino : Inode} (hn : h∉s.live)
    (hfree : ∀ x∈s.live,(s.stage x).leaving=true → (s.inode x).index≠ino.index) :
    Sole (s.addHandle h ino) := by
  intro x hx hlx y hy he
  dsimp only [System.addHandle] at hx hlx hy he
  rcases Finset.mem_insert.mp hx with ex|hx'
  · rw [ex,Function.update_self] at hlx
    cases hlx
  · have hxh : x≠h := ne_of_mem_of_not_mem hx' hn
    rw [Function.update_of_ne hxh] at hlx he
    rcases Finset.mem_insert.mp hy with ey|hy'
    · rw [ey,Function.update_self] at he
      exact absurd he.symm (hfree x hx' hlx)
    · rw [Function.update_of_ne (ne_of_mem_of_not_mem hy' hn)] at he
      exact hs x hx' hlx y hy' he

/-- A handle goes on to another stage; one that begins to leave is the only one. -/
theorem Sole.setStage (hs : Sole s) {h : ℕ} {st : Stage} (hst : st.leaving=true →
      (s.stage h).leaving=true ∨ ∀ y∈s.live,(s.inode y).index=(s.inode h).index → y=h) :
    Sole (s.setStage h st) := by
  intro x hx hlx y hy he
  dsimp only [System.setStage] at hx hlx hy he
  rw [Function.update_apply] at hlx
  split at hlx
  · rename_i e
    rw [e] at hx he ⊢
    rcases hst hlx with h1|h1
    · exact hs h hx h1 y hy he
    · exact h1 y hy he
  · exact hs x hx hlx y hy he

/-- A handle is dropped. -/
theorem Sole.drop (hs : Sole s) (h : ℕ) : Sole (s.dropHandle h) := by
  intro x hx hlx y hy he
  exact hs x (Finset.mem_of_mem_erase hx) hlx y (Finset.mem_of_mem_erase hy) he

/-- Every section keeps the handle of a deleting `put` alone, without such a `get`. -/
theorem Sole.change (hs : Sole s) (hc : Counted s) {a : Label} (hn : NoReuse s a)
    (h : Change s a t) : Sole t := by
  cases h with
  | @hit x dev inum i new bound key used =>
    have hfree : ∀ y∈s.live,(s.stage y).leaving=true → (s.inode y).index≠i := by
      intro y hy hl e
      have hk := hc.key y hy
      rw [e,key] at hk
      exact hn y hy hl hk.symm
    exact Sole.add (s:=s.setMeta i _) hs new hfree
  | @miss x dev inum i new bound unused absent =>
    have hfree : ∀ y∈s.live,(s.stage y).leaving=true → (s.inode y).index≠i := by
      intro y hy hl e
      have hu := hc.used hy
      rw [e,unused] at hu
      exact absurd hu (lt_irrefl 0)
    exact Sole.add (s:=s.setMeta i _) hs new hfree
  | @dup x x' live stays new =>
    have hfree : ∀ y∈s.live,(s.stage y).leaving=true → (s.inode y).index≠(s.inode x).index := by
      intro y hy hl e
      have he := hs y hy hl x live e.symm
      rw [←he,stays] at hl
      cases hl
    exact Sole.add (s:=s.setMeta _ _) hs new hfree
  | lock live idle free =>
    refine Sole.setStage (s:=s.setLocked _ _) hs ?_
    intro e
    split at e <;> cases e
  | load => exact Sole.setStage (s:=s.setData _ _) hs (fun e => by cases e)
  | modify => exact hs
  | update => exact hs
  | unlock => exact Sole.setStage (s:=s.setLocked _ _) hs (fun e => by cases e)
  | last => exact Sole.drop (s:=(s.setData _ _).setRefs _ _) hs _
  | @delete x live idle refs free =>
    refine Sole.setStage (s:=s.setLocked _ _) hs ?_
    intro _
    right
    intro y hy e
    exact hc.sole live refs hy e
  | less => exact Sole.drop (s:=s.setRefs _ _) hs _
  | @truncate x k live deleting valid =>
    refine Sole.setStage (s:=(s.setData _ _).setDisk _ _) hs ?_
    intro _
    left
    dsimp only [System.setData,System.setDisk]
    rw [deleting]
    rfl
  | @clear x live emptied =>
    refine Sole.setStage (s:=(s.setData _ _).setLocked _ _) hs ?_
    intro _
    left
    dsimp only [System.setData,System.setLocked]
    rw [emptied]
    rfl
  | finish => exact Sole.drop (s:=s.setRefs _ _) hs _
  | alloc => exact hs

/-- The last handle of a slot has the only reference. -/
theorem Sole.refs (hs : Sole s) (hc : Counted s) {h : ℕ} (hl : h∈s.live)
    (hlv : (s.stage h).leaving=true) : (s.imeta (s.inode h).index).refs=1 := by
  rw [hc.count]
  exact card_fiber_eq_one hl (fun y hy he => hs h hl hlv y hy he)

/-- The second decrement of a deleting `put` ends at zero. -/
theorem finish_zero (hs : Sole s) (hc : Counted s) {h : ℕ} (hl : h∈s.live)
    (hu : s.stage h=.unlocked) :
    ∃ t,step s (.finish h)=.next t ∧ (t.imeta (s.inode h).index).refs=0 := by
  have hr := hs.refs hc hl (by rw [hu]; rfl)
  refine ⟨(s.setRefs (s.inode h).index ((s.imeta (s.inode h).index).refs-1)).dropHandle h,?_,?_⟩
  · rw [step,if_pos ⟨hl,hu⟩,if_neg (by omega),if_neg (by omega)]
  · dsimp only [System.dropHandle,System.setRefs,System.setMeta]
    rw [Function.update_self,hr]

/-- In every interleaving in which no `get` looks for an inode while a `put` is deleting it,
the second decrement of every deleting `put` brings the count to zero. -/
theorem last_reference_without_reuse (disk : ℕ×ℕ → DiskInode) (labels : List Label)
    (hg : Guarded step NoReuse (boot disk) labels) :
    run step (boot disk) labels≠.fault .lastReference ∧
    ∀ t,run step (boot disk) labels=.next t → ∀ h∈t.live,t.stage h=.unlocked →
      ∃ u,step t (.finish h)=.next u ∧ (u.imeta (t.inode h).index).refs=0 := by
  have hstep : ∀ s a t,Counted s ∧ Sole s → NoReuse s a → step s a=.next t →
      Counted t ∧ Sole t := by
    intro s a t hi hn h
    have hc := step_change h
    exact ⟨hi.1.change hc,hi.2.change hi.1 hn hc⟩
  have h0 : Counted (boot disk) ∧ Sole (boot disk) :=
    ⟨(boot_inv disk).counted,fun h hl => absurd hl (Finset.notMem_empty h)⟩
  refine ⟨run_no_fault hstep ?_ h0 hg,?_⟩
  · intro s a hi hn hf
    obtain ⟨h,hl,hu,rfl⟩ := (step_fault hf).2 rfl
    obtain ⟨t,ht,-⟩ := finish_zero hi.2 hi.1 hl hu
    rw [hf] at ht
    cases ht
  · intro t ht h hl hu
    obtain ⟨hc,hs⟩ := run_invariant hstep h0 hg ht
    exact finish_zero hs hc hl hu

/-- The hypotheses hold of a run that deletes a file and then creates one of its number. -/
theorem last_reference_orderly :
    Guarded step NoReuse (boot files) orderly ∧
    run step (boot files) orderly≠.fault .lastReference ∧
    ∀ t,run step (boot files) orderly=.next t → ∀ h∈t.live,t.stage h=.unlocked →
      ∃ u,step t (.finish h)=.next u ∧ (u.imeta (t.inode h).index).refs=0 := by
  have hg : Guarded step NoReuse (boot files) orderly := by decide
  exact ⟨hg,last_reference_without_reuse files orderly hg⟩

/-- Another process creates a file between the two critical sections of `put`, and
`inode_alloc` gives it the inode that was just emptied. -/
def created : List Label :=
  unlinkCalls++[.truncate 0,.clear 0,.alloc 1 2 .file,.get 1 1 2,.lock 1,.load 1,.finish 0]

/-- Then the assertion of `put` fails. -/
theorem last_reference_reused : run step (boot files) created=.fault .lastReference :=
  rfl

end LastReference

end Xv6Rust.InodeRelease
