import Xv6Rust.BufferCache

/-!
# Coherence of the buffer cache

Reference counts count the `Buf` values and the pins as long as nobody else
changes a count between the read and the write of a `pin` or an `unpin`. Then a
buffer with a reference stays with its block, the block is in no other buffer,
and `bread` gives what was left in the buffer or, once for each assignment, what
is on disk. A count that is overwritten lets a buffer be recycled under a
waiting reader.
-/

namespace Xv6Rust.BufferCoherence

open Runs Handles BufferCache

variable {α : Type}

section References

variable {s t : System α}

/-- List, keys and counts fit the live `Buf` values and the pins. -/
structure Refs (s : System α) : Prop where
  /-- The list has every buffer once. -/
  perm : s.lru.Perm (List.range nbuf)
  /-- A `Buf` points to a buffer. -/
  listed : ∀ h∈s.live,s.slot h∈s.lru
  /-- A `Buf` has the block of its buffer. -/
  key : ∀ h∈s.live,(s.ctrl (s.slot h)).key=(s.buf h).key
  /-- Its buffer was given to a block. -/
  used : ∀ h∈s.live,s.used (s.slot h)=true
  /-- Counts count references and pins. -/
  count : ∀ i,(s.ctrl i).refcnt=(s.handlesAt i).card+s.pins i
  /-- A count that was read is still there. -/
  half : ∀ h∈s.live,∀ rc,s.stage h=.pinning rc ∨ s.stage h=.unpinning rc →
    (s.ctrl (s.slot h)).refcnt=rc
  /-- An `unpin` that has begun has a pin to undo. -/
  owed : ∀ h∈s.live,∀ rc,s.stage h=.unpinning rc → 0 < s.pins (s.slot h)
  /-- A buffer that was never used is as `binit` left it. -/
  fresh : ∀ i,s.used i=false → (s.ctrl i).key=(0,0) ∧ (s.ctrl i).refcnt=0
  /-- Of two entries with one block the later one was never used. -/
  order : s.lru.Pairwise fun i j => (s.ctrl i).key=(s.ctrl j).key → s.used j=false

/-- The list has no buffer twice. -/
theorem Refs.nodup (hr : Refs s) : s.lru.Nodup := hr.perm.nodup_iff.mpr List.nodup_range

/-- Two used buffers have different blocks. -/
theorem Refs.unique (hr : Refs s) {i j : ℕ} (hi : i∈s.lru) (hj : j∈s.lru)
    (hui : s.used i=true) (huj : s.used j=true) (he : (s.ctrl i).key=(s.ctrl j).key) : i=j := by
  obtain ⟨before,after,hl⟩ := List.append_of_mem hi
  have ho := hr.order
  rw [hl,List.pairwise_append,List.pairwise_cons] at ho
  rw [hl,List.mem_append,List.mem_cons] at hj
  rcases hj with hj|hj|hj
  · have hn := ho.2.2 j hj i List.mem_cons_self he.symm
    rw [hui] at hn
    cases hn
  · exact hj.symm
  · have hn := ho.2.1.1 j hj he
    rw [huj] at hn
    cases hn

/-- A buffer with a live `Buf` has a reference. -/
theorem Refs.pos (hr : Refs s) {h : ℕ} (hl : h∈s.live) : 0<(s.ctrl (s.slot h)).refcnt := by
  have hp : 0<(s.handlesAt (s.slot h)).card := card_fiber_pos hl
  rw [hr.count]
  omega

/-- The counts depend only on these parts of the state. -/
theorem Refs.congr (hr : Refs s) (h1 : t.ctrl=s.ctrl) (h2 : t.lru=s.lru) (h3 : t.live=s.live)
    (h4 : t.buf=s.buf) (h5 : t.stage=s.stage) (h6 : t.used=s.used) (h7 : t.pins=s.pins) :
    Refs t := by
  have hs : t.slot=s.slot := by
    unfold System.slot
    rw [h4]
  have hat : t.handlesAt=s.handlesAt := by
    unfold System.handlesAt
    rw [h3,hs]
  constructor
  · rw [h2]
    exact hr.perm
  · rw [h2,h3,hs]
    exact hr.listed
  · rw [h1,h3,h4,hs]
    exact hr.key
  · rw [h3,h6,hs]
    exact hr.used
  · rw [h1,h7,hat]
    exact hr.count
  · rw [h1,h3,h5,hs]
    exact hr.half
  · rw [h3,h5,h7,hs]
    exact hr.owed
  · rw [h1,h6]
    exact hr.fresh
  · rw [h1,h2,h6]
    exact hr.order

/-- An owner goes on; if to the middle of a `pin` or `unpin`, with the count that is there. -/
theorem Refs.restage (hr : Refs s) {h : ℕ} {st : Stage}
    (hrc : ∀ rc,st=.pinning rc ∨ st=.unpinning rc → (s.ctrl (s.slot h)).refcnt=rc)
    (hp : ∀ rc,st=.unpinning rc → 0 < s.pins (s.slot h)) : Refs (s.setStage h st) := by
  refine ⟨hr.perm,hr.listed,hr.key,hr.used,hr.count,?_,?_,hr.fresh,hr.order⟩
  · intro x hx rc hs
    dsimp only [System.setStage] at hx hs
    rw [Function.update_apply] at hs
    split at hs
    · rename_i e
      rw [e]
      exact hrc rc hs
    · exact hr.half x hx rc hs
  · intro x hx rc hs
    dsimp only [System.setStage] at hx hs
    rw [Function.update_apply] at hs
    split at hs
    · rename_i e
      rw [e]
      exact hp rc hs
    · exact hr.owed x hx rc hs

/-- An owner goes on outside of `pin` and `unpin`. -/
theorem Refs.advance (hr : Refs s) {h : ℕ} {st : Stage} (hst : st.counting=false) :
    Refs (s.setStage h st) := by
  refine hr.restage ?_ ?_
  · intro rc hs
    rcases hs with hs|hs <;> rw [hs] at hst <;> cases hst
  · intro rc hs
    rw [hs] at hst
    cases hst

/-- A new `Buf` to a buffer whose count goes up by one. -/
theorem Refs.add (hr : Refs s) {h i : ℕ} {c : BufCtrl} (hn : h∉s.live) (hi : i∈s.lru)
    (hc : c.refcnt=(s.ctrl i).refcnt+1)
    (hk : 0<(s.ctrl i).refcnt → c.key=(s.ctrl i).key)
    (hhalf : ∀ x∈s.live,(s.stage x).counting=true → s.slot x≠i)
    (hord : s.lru.Pairwise fun a b => (Function.update s.ctrl i c a).key=
      (Function.update s.ctrl i c b).key → Function.update s.used i true b=false)
    (valid : ℕ → Bool) (reads : ℕ → ℕ) (last : ℕ×ℕ → Option α) :
    Refs (System.addBuf {s with
      ctrl := Function.update s.ctrl i c,valid := valid,reads := reads,last := last} h
      ⟨i,c.dev,c.blockno⟩) := by
  have hold : ∀ x∈s.live,Function.update s.buf h ⟨i,c.dev,c.blockno⟩ x=s.buf x := by
    intro x hx
    exact Function.update_of_ne (ne_of_mem_of_not_mem hx hn) _ _
  have hstage : ∀ x∈insert h s.live,(Function.update s.stage h .waiting x).counting=true →
      x∈s.live ∧ Function.update s.stage h .waiting x=s.stage x := by
    intro x hx hs
    rcases Finset.mem_insert.mp hx with e|e
    · rw [e,Function.update_self] at hs
      cases hs
    · exact ⟨e,Function.update_of_ne (ne_of_mem_of_not_mem e hn) _ _⟩
  constructor
  · exact hr.perm
  · intro x hx
    dsimp only [System.addBuf,System.slot] at hx ⊢
    rcases Finset.mem_insert.mp hx with e|e
    · rw [e,Function.update_self]
      exact hi
    · rw [hold x e]
      exact hr.listed x e
  · intro x hx
    dsimp only [System.addBuf,System.slot] at hx ⊢
    rcases Finset.mem_insert.mp hx with e|e
    · rw [e,Function.update_self,Function.update_self]
      rfl
    · rw [hold x e,Function.update_apply]
      split
      · rename_i ei
        have hp := hr.pos e
        rw [System.slot,ei] at hp
        rw [hk hp,←ei]
        exact hr.key x e
      · exact hr.key x e
  · intro x hx
    dsimp only [System.addBuf,System.slot] at hx ⊢
    rcases Finset.mem_insert.mp hx with e|e
    · rw [e,Function.update_self,Function.update_self]
    · rw [hold x e,Function.update_apply]
      split
      · rfl
      · exact hr.used x e
  · intro j
    have hcard := card_fiber_insert s.slot
      (fun x => (Function.update s.buf h ⟨i,c.dev,c.blockno⟩ x).index) hn
      (fun x hx => congrArg Buf.index (hold x hx)) j
    rw [Function.update_self] at hcard
    have hj := hr.count j
    rw [System.handlesAt] at hj
    change (Function.update s.ctrl i c j).refcnt=(fiber (insert h s.live)
      (fun x => (Function.update s.buf h ⟨i,c.dev,c.blockno⟩ x).index) j).card+s.pins j
    rw [hcard,Function.update_apply]
    split
    · rename_i e
      rw [e] at hj ⊢
      rw [hc,hj]
      omega
    · exact hj
  · intro x hx rc hs
    dsimp only [System.addBuf,System.slot] at hx hs ⊢
    obtain ⟨hx',he⟩ := hstage x hx (by rcases hs with hs|hs <;> rw [hs] <;> rfl)
    rw [he] at hs
    have hne : (s.buf x).index≠i := hhalf x hx' (by rcases hs with hs|hs <;> rw [hs] <;> rfl)
    rw [hold x hx',Function.update_of_ne hne]
    exact hr.half x hx' rc hs
  · intro x hx rc hs
    dsimp only [System.addBuf,System.slot] at hx hs ⊢
    obtain ⟨hx',he⟩ := hstage x hx (by rw [hs]; rfl)
    rw [he] at hs
    rw [hold x hx']
    exact hr.owed x hx' rc hs
  · intro j hj
    dsimp only [System.addBuf] at hj ⊢
    rw [Function.update_apply] at hj
    split at hj
    · cases hj
    · rename_i e
      rw [Function.update_of_ne e]
      exact hr.fresh j hj
  · exact hord

/-- The order after `bget` has found an entry. -/
theorem Refs.order_hit (hr : Refs s) {i : ℕ} {before after : List ℕ} {c : BufCtrl}
    (hl : s.lru=before++i::after) (hf : ∀ j∈before,(s.ctrl j).key≠(s.ctrl i).key)
    (hc : c.key=(s.ctrl i).key) :
    s.lru.Pairwise fun a b => (Function.update s.ctrl i c a).key=
      (Function.update s.ctrl i c b).key → Function.update s.used i true b=false := by
  have hkey : ∀ j,(Function.update s.ctrl i c j).key=(s.ctrl j).key := by
    intro j
    rw [Function.update_apply]
    split
    · rename_i e
      rw [e,hc]
    · rfl
  have hnd := hr.nodup
  have ho := hr.order
  rw [hl] at hnd ho ⊢
  simp only [hkey]
  have hnot := List.nodup_cons.mp (List.Nodup.of_append_right hnd)
  have hbefore : ∀ j∈before,j≠i := by
    intro j hj e
    exact hf j hj (by rw [e])
  have hafter : ∀ j∈after,j≠i := fun j hj => ne_of_mem_of_not_mem hj hnot.1
  rw [List.pairwise_append,List.pairwise_cons] at ho ⊢
  refine ⟨ho.1.imp_of_mem ?_,⟨?_,ho.2.1.2.imp_of_mem ?_⟩,?_⟩
  · intro a b _ hb h he
    rw [Function.update_of_ne (hbefore b hb)]
    exact h he
  · intro b hb he
    rw [Function.update_of_ne (hafter b hb)]
    exact ho.2.1.1 b hb he
  · intro a b _ hb h he
    rw [Function.update_of_ne (hafter b hb)]
    exact h he
  · intro a ha b hb he
    rcases List.mem_cons.mp hb with e|e
    · rw [e] at he
      exact absurd he (hf a ha)
    · rw [Function.update_of_ne (hafter b e)]
      exact ho.2.2 a ha b hb he

/-- The order after a buffer was recycled. -/
theorem Refs.order_miss (hr : Refs s) {i : ℕ} {c : BufCtrl}
    (hf : ∀ j∈s.lru,(s.ctrl j).key≠c.key) :
    s.lru.Pairwise fun a b => (Function.update s.ctrl i c a).key=
      (Function.update s.ctrl i c b).key → Function.update s.used i true b=false := by
  have hnd : s.lru.Pairwise fun a b => a≠b := hr.nodup
  refine (hr.order.and hnd).imp_of_mem ?_
  intro a b ha hb h he
  rw [Function.update_apply,Function.update_apply] at he
  by_cases eb : b=i
  · rw [if_neg (fun e => h.2 (e.trans eb.symm)),if_pos eb] at he
    exact absurd he (hf a ha)
  · rw [if_neg eb] at he
    rw [Function.update_of_ne eb]
    split at he
    · exact absurd he.symm (hf b hb)
    · exact h.1 he

/-- A `pin` or `unpin` writes the count that goes with the pins. -/
theorem Refs.write (hr : Refs s) (hk : Locks s) {h n p : ℕ} (hl : h∈s.live)
    (hh : (s.stage h).holds=true) (hn : n+s.pins (s.slot h)=(s.ctrl (s.slot h)).refcnt+p) :
    Refs {(s.setRefcnt (s.slot h) n).setStage h .held with
      pins := Function.update s.pins (s.slot h) p} := by
  have hother : ∀ x∈s.live,(s.stage x).counting=true → x≠h → s.slot x≠s.slot h := by
    intro x hx hc hne e
    have hx' : (s.stage x).holds=true := by
      cases hs : s.stage x <;> rw [hs] at hc <;> cases hc <;> rfl
    exact hne (hk.alone hx hl hx' hh e)
  have hkey : ∀ j,(Function.update s.ctrl (s.slot h) ⟨(s.ctrl (s.slot h)).dev,
      (s.ctrl (s.slot h)).blockno,n⟩ j).key=(s.ctrl j).key := by
    intro j
    rw [Function.update_apply]
    split
    · rename_i e
      rw [e]
      rfl
    · rfl
  constructor
  · exact hr.perm
  · exact hr.listed
  · intro x hx
    exact (hkey _).trans (hr.key x hx)
  · exact hr.used
  · intro j
    have hj := hr.count j
    change (Function.update s.ctrl (s.slot h) _ j).refcnt=(s.handlesAt j).card+
      Function.update s.pins (s.slot h) p j
    rw [Function.update_apply,Function.update_apply]
    split
    · rename_i e
      rw [e] at hj ⊢
      dsimp only
      omega
    · exact hj
  · intro x hx rc hs
    dsimp only [System.setStage,System.setRefcnt,System.setCtrl] at hx hs
    rw [Function.update_apply] at hs
    split at hs
    · rcases hs with hs|hs <;> cases hs
    · rename_i e
      have hne := hother x hx (by rcases hs with hs|hs <;> rw [hs] <;> rfl) e
      change (Function.update s.ctrl (s.slot h) _ (s.slot x)).refcnt=rc
      rw [Function.update_of_ne hne]
      exact hr.half x hx rc hs
  · intro x hx rc hs
    dsimp only [System.setStage,System.setRefcnt,System.setCtrl] at hx hs
    rw [Function.update_apply] at hs
    split at hs
    · cases hs
    · rename_i e
      have hne := hother x hx (by rw [hs]; rfl) e
      change 0<Function.update s.pins (s.slot h) p (s.slot x)
      rw [Function.update_of_ne hne]
      exact hr.owed x hx rc hs
  · intro j hj
    refine ⟨(hkey j).trans (hr.fresh j hj).1,?_⟩
    have hne : j≠s.slot h := by
      intro e
      have hu := hr.used h hl
      rw [←e] at hu
      exact absurd (hj.symm.trans hu) (by decide)
    change (Function.update s.ctrl (s.slot h) _ j).refcnt=0
    rw [Function.update_of_ne hne]
    exact (hr.fresh j hj).2
  · exact hr.order.imp (fun h he => h ((hkey _).symm.trans (he.trans (hkey _))))

/-- A `Buf` is dropped and its buffer moved to the head if nothing refers to it. -/
theorem Refs.drop (hr : Refs s) {h n : ℕ} (hl : h∈s.live)
    (hc : (s.ctrl (s.slot h)).refcnt=n+1)
    (hhalf : ∀ x∈s.live,(s.stage x).counting=true → s.slot x≠s.slot h) :
    Refs {s.setRefcnt (s.slot h) n with
      lru := if n=0 then s.slot h::s.lru.erase (s.slot h) else s.lru
      live := s.live.erase h} := by
  have hkey : ∀ j,(Function.update s.ctrl (s.slot h) ⟨(s.ctrl (s.slot h)).dev,
      (s.ctrl (s.slot h)).blockno,n⟩ j).key=(s.ctrl j).key := by
    intro j
    rw [Function.update_apply]
    split
    · rename_i e
      rw [e]
      rfl
    · rfl
  have hperm : (if n=0 then s.slot h::s.lru.erase (s.slot h) else s.lru).Perm s.lru := by
    split
    · exact (List.perm_cons_erase (hr.listed h hl)).symm
    · exact .refl _
  have hu := hr.used h hl
  constructor
  · exact hperm.trans hr.perm
  · intro x hx
    exact hperm.mem_iff.mpr (hr.listed x (Finset.mem_of_mem_erase hx))
  · intro x hx
    exact (hkey _).trans (hr.key x (Finset.mem_of_mem_erase hx))
  · intro x hx
    exact hr.used x (Finset.mem_of_mem_erase hx)
  · intro j
    have hj := hr.count j
    rw [System.handlesAt] at hj
    change (Function.update s.ctrl (s.slot h) _ j).refcnt=
      (fiber (s.live.erase h) s.slot j).card+s.pins j
    rw [card_fiber_erase s.slot hl,Function.update_apply]
    split
    · rename_i e
      have hp : 0<(fiber s.live s.slot (s.slot h)).card := card_fiber_pos hl
      rw [e] at hj ⊢
      dsimp only
      omega
    · exact hj
  · intro x hx rc hs
    have hx' := Finset.mem_of_mem_erase hx
    have hne := hhalf x hx' (by
      change s.stage x=.pinning rc ∨ s.stage x=.unpinning rc at hs
      rcases hs with hs|hs <;> rw [hs] <;> rfl)
    change (Function.update s.ctrl (s.slot h) _ (s.slot x)).refcnt=rc
    rw [Function.update_of_ne hne]
    exact hr.half x hx' rc hs
  · intro x hx rc hs
    exact hr.owed x (Finset.mem_of_mem_erase hx) rc hs
  · intro j hj
    refine ⟨(hkey j).trans (hr.fresh j hj).1,?_⟩
    have hne : j≠s.slot h := by
      intro e
      rw [←e] at hu
      exact absurd (hj.symm.trans hu) (by decide)
    change (Function.update s.ctrl (s.slot h) _ j).refcnt=0
    rw [Function.update_of_ne hne]
    exact (hr.fresh j hj).2
  · have hold : (if n=0 then s.slot h::s.lru.erase (s.slot h) else s.lru).Pairwise
        fun i j => (s.ctrl i).key=(s.ctrl j).key → s.used j=false := by
      split
      · refine List.pairwise_cons.mpr ⟨?_,hr.order.sublist List.erase_sublist⟩
        intro j hj he
        rw [←Bool.not_eq_true]
        intro huj
        have hjl := List.mem_of_mem_erase hj
        have e := hr.unique (hr.listed h hl) hjl hu huj he
        rw [e] at hj
        exact List.Nodup.not_mem_erase hr.nodup hj
      · exact hr.order
    exact hold.imp (fun h he => h ((hkey _).symm.trans (he.trans (hkey _))))

/-- Nobody else changes a count between the read and the write of a `pin` or an `unpin`. -/
def NoRace (s : System α) : Label α → Prop
  | .bget _ dev blockno => ∀ h'∈s.live,(s.stage h').counting=true →
      (s.buf h').key≠(dev,blockno)
  | .brelse h => ∀ h'∈s.live,(s.stage h').counting=true → s.slot h'≠s.slot h
  | _ => True

/-- Every section without such a race keeps the counts right. -/
theorem Refs.change (hr : Refs s) (hk : Locks s) {a : Label α} (hn : NoRace s a)
    (h : Change s a t) : Refs t := by
  cases h with
  | @hit x dev blockno i before after new list key first =>
    have hi : i∈s.lru := by
      rw [list]
      exact List.mem_append_right _ List.mem_cons_self
    have hhalf : ∀ y∈s.live,(s.stage y).counting=true → s.slot y≠i := by
      intro y hy hc e
      have hky := hr.key y hy
      rw [e,key] at hky
      exact hn y hy hc hky.symm
    have ha := hr.add new hi (c:=⟨(s.ctrl i).dev,(s.ctrl i).blockno,(s.ctrl i).refcnt+1⟩) rfl
      (fun _ => rfl) hhalf (hr.order_hit list (fun j hj => by rw [key]; exact first j hj) rfl)
      s.valid s.reads s.last
    have hb : (⟨i,(s.ctrl i).dev,(s.ctrl i).blockno⟩ : Buf)=⟨i,dev,blockno⟩ := by
      cases key
      rfl
    rw [hb] at ha
    exact ha
  | @miss x dev blockno i new listed unused absent =>
    have hhalf : ∀ y∈s.live,(s.stage y).counting=true → s.slot y≠i := by
      intro y hy _ e
      have hp := hr.pos hy
      rw [e,unused] at hp
      exact absurd hp (lt_irrefl 0)
    exact hr.add new listed (c:=⟨dev,blockno,(s.ctrl i).refcnt+1⟩) rfl
      (fun h0 => absurd unused (Nat.ne_of_gt h0)) hhalf (hr.order_miss absent) _ _ _
  | @acquire x =>
    have ha : Refs (s.setStage x .locked) := hr.advance rfl
    exact ha.congr rfl rfl rfl rfl rfl rfl rfl
  | check =>
    refine hr.advance ?_
    split <;> rfl
  | read => exact (hr.advance rfl).congr rfl rfl rfl rfl rfl rfl rfl
  | store => exact (hr.advance rfl).congr rfl rfl rfl rfl rfl rfl rfl
  | modify => exact hr.congr rfl rfl rfl rfl rfl rfl rfl
  | bwrite => exact hr.congr rfl rfl rfl rfl rfl rfl rfl
  | pinRead =>
    refine hr.restage ?_ ?_
    · intro rc hs
      rcases hs with hs|hs <;> cases hs
      rfl
    · intro rc hs
      cases hs
  | @pinWrite x rc live pinning =>
    have hrc := hr.half x live rc (.inl pinning)
    exact hr.write hk live (by rw [pinning]; rfl) (by omega)
  | unpinRead live held owed =>
    refine hr.restage ?_ (fun _ _ => owed)
    intro rc hs
    rcases hs with hs|hs <;> cases hs
    rfl
  | @unpinWrite x rc live unpinning =>
    have hrc := hr.half x live rc (.inr unpinning)
    have hp := hr.owed x live rc unpinning
    have hpos := hr.pos live
    exact hr.write hk live (by rw [unpinning]; rfl) (by omega)
  | @release x =>
    have ha : Refs (s.setStage x .released) := hr.advance rfl
    exact ha.congr rfl rfl rfl rfl rfl rfl rfl
  | brelse live released refs => exact hr.drop live refs hn

end References

section Contents

variable {s t : System α}

/-- Flags and contents fit what was left in the buffers. -/
structure Contents (s : System α) : Prop where
  /-- After `bread` the flag is set. -/
  flag : ∀ h∈s.live,(s.stage h).open=true → s.valid (s.slot h)=true
  /-- While `bread` reads the disk the flag is cleared. -/
  unread : ∀ h∈s.live,s.stage h=.reading ∨ s.stage h=.loaded → s.valid (s.slot h)=false
  /-- What `bread` has read is on disk. -/
  loaded : ∀ h∈s.live,s.stage h=.loaded → s.data (s.slot h)=s.disk (s.buf h).key
  /-- The disk is read once. -/
  once : ∀ i,s.reads i ≤ 1
  /-- It was read for the flag, or for one that is about to be set. -/
  done : ∀ i,s.reads i=1 → s.valid i=true ∨ ∃ h∈s.live,s.slot h=i ∧ s.stage h=.loaded
  /-- A buffer that was never used holds nothing. -/
  clear : ∀ i,s.used i=false → s.valid i=false ∧ s.reads i=0
  /-- A valid buffer holds what was left for its block. -/
  memory : ∀ i∈s.lru,s.used i=true →
    s.last (s.ctrl i).key=if s.valid i=true then some (s.data i) else none
  /-- Nothing is left of a block without a buffer. -/
  gone : ∀ k,(∀ i∈s.lru,s.used i=true → (s.ctrl i).key≠k) → s.last k=none

/-- Contents, flags and blocks stay, and the stages still fit them. -/
theorem Contents.frame (hc : Contents s) (hkey : ∀ i,(t.ctrl i).key=(s.ctrl i).key)
    (hlru : ∀ i,i∈t.lru ↔ i∈s.lru) (hv : t.valid=s.valid) (hd : t.data=s.data)
    (hdisk : t.disk=s.disk) (hb : t.buf=s.buf) (hu : t.used=s.used) (hr : t.reads=s.reads)
    (hl : t.last=s.last)
    (hopen : ∀ x∈t.live,(t.stage x).open=true → s.valid (s.slot x)=true)
    (hread : ∀ x∈t.live,t.stage x=.reading ∨ t.stage x=.loaded → s.valid (s.slot x)=false)
    (hload : ∀ x∈t.live,t.stage x=.loaded → s.data (s.slot x)=s.disk (s.buf x).key)
    (hkeep : ∀ x∈s.live,s.stage x=.loaded → x∈t.live ∧ t.stage x=.loaded) : Contents t := by
  have hs : t.slot=s.slot := by
    unfold System.slot
    rw [hb]
  constructor
  · rw [hv,hs]
    exact hopen
  · rw [hv,hs]
    exact hread
  · rw [hd,hdisk,hb,hs]
    exact hload
  · rw [hr]
    exact hc.once
  · intro i hi
    rw [hr] at hi
    rw [hv,hs]
    rcases hc.done i hi with h|⟨x,hx,he,hx'⟩
    · exact .inl h
    · obtain ⟨h1,h2⟩ := hkeep x hx hx'
      exact .inr ⟨x,h1,he,h2⟩
  · rw [hu,hv,hr]
    exact hc.clear
  · intro i hi hui
    rw [hu] at hui
    rw [hl,hv,hd,hkey]
    exact hc.memory i ((hlru i).mp hi) hui
  · intro k hk
    rw [hl]
    refine hc.gone k ?_
    intro i hi hui
    rw [←hkey]
    exact hk i ((hlru i).mpr hi) (by rw [hu]; exact hui)

/-- An owner goes on and its new stage fits the flag. -/
theorem Contents.restage (hc : Contents s) {h : ℕ} {st : Stage}
    (hopen : st.open=true → s.valid (s.slot h)=true)
    (hread : st=.reading → s.valid (s.slot h)=false) (hload : st≠.loaded)
    (hnot : s.stage h≠.loaded) : Contents (s.setStage h st) := by
  refine hc.frame (fun _ => rfl) (fun _ => Iff.rfl) rfl rfl rfl rfl rfl rfl rfl ?_ ?_ ?_ ?_
  · intro x hx hs
    dsimp only [System.setStage] at hx hs
    rw [Function.update_apply] at hs
    split at hs
    · rename_i e
      rw [e]
      exact hopen hs
    · exact hc.flag x hx hs
  · intro x hx hs
    dsimp only [System.setStage] at hx hs
    rw [Function.update_apply] at hs
    split at hs
    · rename_i e
      rw [e]
      rcases hs with hs|hs
      · exact hread hs
      · exact absurd hs hload
    · exact hc.unread x hx hs
  · intro x hx hs
    dsimp only [System.setStage] at hx hs
    rw [Function.update_apply] at hs
    split at hs
    · exact absurd hs hload
    · exact hc.loaded x hx hs
  · intro x hx hs
    refine ⟨hx,?_⟩
    dsimp only [System.setStage]
    rw [Function.update_of_ne (fun e => hnot (by rw [←e]; exact hs))]
    exact hs

/-- The counts do not matter for the contents. -/
theorem Contents.recount (hc : Contents s) (i n : ℕ) (pins : ℕ → ℕ) :
    Contents {s.setRefcnt i n with pins := pins} := by
  refine hc.frame ?_ (fun _ => Iff.rfl) rfl rfl rfl rfl rfl rfl rfl hc.flag hc.unread hc.loaded
    (fun _ hx hs => ⟨hx,hs⟩)
  intro j
  dsimp only [System.setRefcnt,System.setCtrl]
  rw [Function.update_apply]
  split
  · rename_i e
    rw [e]
    rfl
  · rfl

/-- A new `Buf` to a buffer, whose contents fit its block. -/
theorem Contents.add (hc : Contents s) {h i : ℕ} (hn : h∉s.live)
    (hm : s.last (s.ctrl i).key=if s.valid i=true then some (s.data i) else none) (dev blockno : ℕ) :
    Contents (s.addBuf h ⟨i,dev,blockno⟩) := by
  have hold : ∀ x∈s.live,Function.update s.buf h ⟨i,dev,blockno⟩ x=s.buf x := by
    intro x hx
    exact Function.update_of_ne (ne_of_mem_of_not_mem hx hn) _ _
  have hstage : ∀ x∈insert h s.live,Function.update s.stage h .waiting x≠.waiting →
      x∈s.live ∧ Function.update s.stage h .waiting x=s.stage x := by
    intro x hx hs
    rcases Finset.mem_insert.mp hx with e|e
    · rw [e,Function.update_self] at hs
      exact absurd rfl hs
    · exact ⟨e,Function.update_of_ne (ne_of_mem_of_not_mem e hn) _ _⟩
  constructor
  · intro x hx hs
    dsimp only [System.addBuf,System.slot] at hx hs ⊢
    obtain ⟨hx',he⟩ := hstage x hx (by intro e; rw [e] at hs; cases hs)
    rw [he] at hs
    rw [hold x hx']
    exact hc.flag x hx' hs
  · intro x hx hs
    dsimp only [System.addBuf,System.slot] at hx hs ⊢
    obtain ⟨hx',he⟩ := hstage x hx (by rcases hs with hs|hs <;> rw [hs] <;> decide)
    rw [he] at hs
    rw [hold x hx']
    exact hc.unread x hx' hs
  · intro x hx hs
    dsimp only [System.addBuf,System.slot] at hx hs ⊢
    obtain ⟨hx',he⟩ := hstage x hx (by rw [hs]; decide)
    rw [he] at hs
    rw [hold x hx']
    exact hc.loaded x hx' hs
  · exact hc.once
  · intro j hj
    rcases hc.done j hj with h1|⟨x,hx,he,hs⟩
    · exact .inl h1
    · refine .inr ⟨x,Finset.mem_insert_of_mem hx,?_,?_⟩
      · dsimp only [System.addBuf,System.slot]
        rw [hold x hx]
        exact he
      · dsimp only [System.addBuf]
        rw [Function.update_of_ne (ne_of_mem_of_not_mem hx hn)]
        exact hs
  · intro j hj
    dsimp only [System.addBuf] at hj ⊢
    rw [Function.update_apply] at hj
    split at hj
    · cases hj
    · exact hc.clear j hj
  · intro j hj hu
    dsimp only [System.addBuf] at hj hu ⊢
    rw [Function.update_apply] at hu
    split at hu
    · rename_i e
      rw [e]
      exact hm
    · exact hc.memory j hj hu
  · intro k hk
    refine hc.gone k ?_
    intro j hj hu
    refine hk j hj ?_
    dsimp only [System.addBuf]
    rw [Function.update_apply]
    split
    · rfl
    · exact hu

/-- A buffer without references is given to a block that has none. -/
theorem Contents.recycle (hc : Contents s) (hr : Refs s) {i dev blockno : ℕ} (hi : i∈s.lru)
    (h0 : (s.ctrl i).refcnt=0) (habs : ∀ j∈s.lru,(s.ctrl j).key≠(dev,blockno)) :
    Contents (s.recycle i dev blockno) ∧ (s.recycle i dev blockno).last (dev,blockno)=none := by
  have hslot : ∀ x∈s.live,s.slot x≠i := by
    intro x hx e
    have hp := hr.pos hx
    rw [e,h0] at hp
    exact absurd hp (lt_irrefl 0)
  have hlast : ∀ k,(s.used i=true → k≠(s.ctrl i).key) → (s.recycle i dev blockno).last k=s.last k := by
    intro k hk
    dsimp only [System.recycle]
    split
    · rename_i hu
      rw [Function.update_of_ne (hk hu)]
    · rfl
  have hnew : (s.recycle i dev blockno).last (dev,blockno)=none := by
    rw [hlast _ (fun _ e => habs i hi e.symm)]
    exact hc.gone _ (fun j hj _ => habs j hj)
  refine ⟨⟨?_,?_,?_,?_,?_,?_,?_,?_⟩,hnew⟩
  · intro x hx hs
    have hv := hc.flag x hx hs
    change Function.update s.valid i false (s.slot x)=true
    rw [Function.update_of_ne (hslot x hx)]
    exact hv
  · intro x hx hs
    change Function.update s.valid i false (s.slot x)=false
    rw [Function.update_of_ne (hslot x hx)]
    exact hc.unread x hx hs
  · exact hc.loaded
  · intro j
    dsimp only [System.recycle]
    rw [Function.update_apply]
    split
    · exact Nat.zero_le 1
    · exact hc.once j
  · intro j hj
    dsimp only [System.recycle] at hj ⊢
    rw [Function.update_apply] at hj
    split at hj
    · cases hj
    · rename_i e
      rw [Function.update_of_ne e]
      exact hc.done j hj
  · intro j hj
    dsimp only [System.recycle] at hj ⊢
    rw [Function.update_apply,Function.update_apply]
    split
    · exact ⟨rfl,rfl⟩
    · exact hc.clear j hj
  · intro j hj hu
    by_cases e : j=i
    · have hki : ((s.recycle i dev blockno).ctrl i).key=(dev,blockno) := by
        dsimp only [System.recycle]
        rw [Function.update_self]
        rfl
      have hvi : (s.recycle i dev blockno).valid i=false := Function.update_self _ _ _
      rw [e,hki,if_neg (by rw [hvi]; decide)]
      exact hnew
    · have hk : ((s.recycle i dev blockno).ctrl j).key=(s.ctrl j).key := by
        dsimp only [System.recycle]
        rw [Function.update_of_ne e]
      have hv : (s.recycle i dev blockno).valid j=s.valid j := Function.update_of_ne e _ _
      rw [hk,hv,hlast _ (fun hui he => e (hr.unique hj hi hu hui he))]
      exact hc.memory j hj hu
  · intro k hk
    by_cases hki : s.used i=true ∧ k=(s.ctrl i).key
    · dsimp only [System.recycle]
      rw [if_pos hki.1,hki.2,Function.update_self]
    · rw [hlast k (fun hu e => hki ⟨hu,e⟩)]
      refine hc.gone k ?_
      intro j hj hu e
      by_cases ej : j=i
      · rw [ej] at hu e
        exact hki ⟨hu,e.symm⟩
      · refine hk j hj hu ?_
        dsimp only [System.recycle]
        rw [Function.update_of_ne ej]
        exact e

/-- The disk is read into a buffer whose flag is cleared. -/
theorem Contents.read (hc : Contents s) (hk : Locks s) (hr : Refs s) {h : ℕ} (hl : h∈s.live)
    (hs : s.stage h=.reading) :
    Contents {s.setStage h .loaded with
      data := Function.update s.data (s.slot h) (s.disk (s.buf h).key)
      reads := Function.update s.reads (s.slot h) (s.reads (s.slot h)+1)} := by
  have hv := hc.unread h hl (.inl hs)
  have hother : ∀ x∈s.live,s.stage x=.loaded → s.slot x≠s.slot h := by
    intro x hx hx' e
    have he := hk.alone hx hl (by rw [hx']; rfl) (by rw [hs]; rfl) e
    rw [he,hs] at hx'
    cases hx'
  have hzero : s.reads (s.slot h)=0 := by
    have h1 := hc.once (s.slot h)
    by_contra h0
    rcases hc.done (s.slot h) (by omega) with h2|⟨x,hx,he,hx'⟩
    · exact absurd (h2.symm.trans hv) (by decide)
    · exact hother x hx hx' he
  have hstage : ∀ x,x≠h → Function.update s.stage h .loaded x=s.stage x :=
    fun x hx => Function.update_of_ne hx _ _
  constructor
  · intro x hx hx'
    change (Function.update s.stage h .loaded x).open=true at hx'
    by_cases e : x=h
    · rw [e,Function.update_self] at hx'
      cases hx'
    · rw [hstage x e] at hx'
      exact hc.flag x hx hx'
  · intro x hx hx'
    change Function.update s.stage h .loaded x=.reading ∨
      Function.update s.stage h .loaded x=.loaded at hx'
    by_cases e : x=h
    · rw [e]
      exact hv
    · rw [hstage x e] at hx'
      exact hc.unread x hx hx'
  · intro x hx hx'
    change Function.update s.stage h .loaded x=.loaded at hx'
    change Function.update s.data (s.slot h) (s.disk (s.buf h).key) (s.slot x)=s.disk (s.buf x).key
    by_cases e : x=h
    · rw [e,Function.update_self]
    · rw [hstage x e] at hx'
      rw [Function.update_of_ne (hother x hx hx')]
      exact hc.loaded x hx hx'
  · intro j
    change Function.update s.reads (s.slot h) (s.reads (s.slot h)+1) j ≤ 1
    rw [Function.update_apply]
    split
    · omega
    · exact hc.once j
  · intro j hj
    change Function.update s.reads (s.slot h) (s.reads (s.slot h)+1) j=1 at hj
    change s.valid j=true ∨ ∃ x∈s.live,s.slot x=j ∧ Function.update s.stage h .loaded x=.loaded
    by_cases e : j=s.slot h
    · exact .inr ⟨h,hl,e.symm,Function.update_self _ _ _⟩
    · rw [Function.update_of_ne e] at hj
      rcases hc.done j hj with h1|⟨x,hx,he,hx'⟩
      · exact .inl h1
      · have hne : x≠h := fun e' => e (by rw [←he,e'])
        exact .inr ⟨x,hx,he,(hstage x hne).trans hx'⟩
  · intro j hj
    have hne : j≠s.slot h := by
      intro e
      have hu := hr.used h hl
      rw [←e] at hu
      exact absurd (hj.symm.trans hu) (by decide)
    change s.valid j=false ∧ Function.update s.reads (s.slot h) (s.reads (s.slot h)+1) j=0
    rw [Function.update_of_ne hne]
    exact hc.clear j hj
  · intro j hj hu
    have hm := hc.memory j hj hu
    change s.last (s.ctrl j).key=if s.valid j=true then
      some (Function.update s.data (s.slot h) (s.disk (s.buf h).key) j) else none
    by_cases e : j=s.slot h
    · rw [e,if_neg (by rw [hv]; decide)]
      rw [e,if_neg (by rw [hv]; decide)] at hm
      exact hm
    · rw [Function.update_of_ne e]
      exact hm
  · exact hc.gone

/-- The contents of a buffer become what is left for its block. -/
theorem Contents.leave (hc : Contents s) (hk : Locks s) (hr : Refs s) {h : ℕ} (hl : h∈s.live)
    (hs : s.stage h=.loaded ∨ s.stage h=.held) (x : α) :
    Contents {s.setStage h .held with
      data := Function.update s.data (s.slot h) x
      valid := Function.update s.valid (s.slot h) true
      last := Function.update s.last (s.buf h).key (some x)} := by
  have hh : (s.stage h).holds=true := by
    rcases hs with hs|hs <;> rw [hs] <;> rfl
  have hother : ∀ y∈s.live,y≠h → (s.stage y).holds=true → s.slot y≠s.slot h := by
    intro y hy hne hy' e
    exact hne (hk.alone hy hl hy' hh e)
  have hstage : ∀ y,y≠h → Function.update s.stage h .held y=s.stage y :=
    fun y hy => Function.update_of_ne hy _ _
  have hu := hr.used h hl
  constructor
  · intro y hy hy'
    change (Function.update s.stage h .held y).open=true at hy'
    change Function.update s.valid (s.slot h) true (s.slot y)=true
    rw [Function.update_apply]
    split
    · rfl
    · rename_i e
      have hne : y≠h := fun e' => e (by rw [e'])
      rw [hstage y hne] at hy'
      exact hc.flag y hy hy'
  · intro y hy hy'
    change Function.update s.stage h .held y=.reading ∨
      Function.update s.stage h .held y=.loaded at hy'
    change Function.update s.valid (s.slot h) true (s.slot y)=false
    by_cases e : y=h
    · rw [e,Function.update_self] at hy'
      rcases hy' with h1|h1 <;> cases h1
    · rw [hstage y e] at hy'
      rw [Function.update_of_ne (hother y hy e (by rcases hy' with h1|h1 <;> rw [h1] <;> rfl))]
      exact hc.unread y hy hy'
  · intro y hy hy'
    change Function.update s.stage h .held y=.loaded at hy'
    change Function.update s.data (s.slot h) x (s.slot y)=s.disk (s.buf y).key
    by_cases e : y=h
    · rw [e,Function.update_self] at hy'
      cases hy'
    · rw [hstage y e] at hy'
      rw [Function.update_of_ne (hother y hy e (by rw [hy']; rfl))]
      exact hc.loaded y hy hy'
  · exact hc.once
  · intro j hj
    change Function.update s.valid (s.slot h) true j=true ∨
      ∃ y∈s.live,s.slot y=j ∧ Function.update s.stage h .held y=.loaded
    by_cases e : j=s.slot h
    · rw [e,Function.update_self]
      exact .inl rfl
    · rw [Function.update_of_ne e]
      rcases hc.done j hj with h1|⟨y,hy,he,hy'⟩
      · exact .inl h1
      · have hne : y≠h := fun e' => e (by rw [←he,e'])
        exact .inr ⟨y,hy,he,(hstage y hne).trans hy'⟩
  · intro j hj
    have hne : j≠s.slot h := by
      intro e
      rw [←e] at hu
      exact absurd (hj.symm.trans hu) (by decide)
    change Function.update s.valid (s.slot h) true j=false ∧ s.reads j=0
    rw [Function.update_of_ne hne]
    exact hc.clear j hj
  · intro j hj huj
    change Function.update s.last (s.buf h).key (some x) (s.ctrl j).key=
      if Function.update s.valid (s.slot h) true j=true then
        some (Function.update s.data (s.slot h) x j) else none
    by_cases e : j=s.slot h
    · rw [e,hr.key h hl,Function.update_self,Function.update_self,Function.update_self,if_pos rfl]
    · have hne : (s.ctrl j).key≠(s.buf h).key := by
        rw [←hr.key h hl]
        exact fun he => e (hr.unique hj (hr.listed h hl) huj hu he)
      rw [Function.update_of_ne hne,Function.update_of_ne e,Function.update_of_ne e]
      exact hc.memory j hj huj
  · intro k hk'
    have hne : k≠(s.buf h).key := by
      intro e
      refine hk' (s.slot h) (hr.listed h hl) hu ?_
      rw [e]
      exact hr.key h hl
    change Function.update s.last (s.buf h).key (some x) k=none
    rw [Function.update_of_ne hne]
    exact hc.gone k hk'

/-- The disk is written from a buffer. -/
theorem Contents.bwrite (hc : Contents s) (hk : Locks s) (hr : Refs s) {h : ℕ} (hl : h∈s.live)
    (hs : s.stage h=.held) : Contents (BufferCache.bwrite s h) := by
  refine ⟨hc.flag,hc.unread,?_,hc.once,hc.done,hc.clear,hc.memory,hc.gone⟩
  intro x hx hx'
  change s.data (s.slot x)=Function.update s.disk (s.buf h).key (s.data (s.slot h)) (s.buf x).key
  have hne : (s.buf x).key≠(s.buf h).key := by
    intro e
    rw [←hr.key x hx,←hr.key h hl] at e
    have he := hr.unique (hr.listed x hx) (hr.listed h hl) (hr.used x hx) (hr.used h hl) e
    have he' := hk.alone hx hl
      (by change s.stage x=.loaded at hx'; rw [hx']; rfl) (by rw [hs]; rfl) he
    rw [he'] at hx'
    exact absurd (hx'.symm.trans hs) (by decide)
  rw [Function.update_of_ne hne]
  exact hc.loaded x hx hx'

/-- Every section without a race keeps the contents right. -/
theorem Contents.change (hc : Contents s) (hk : Locks s) (hr : Refs s) {a : Label α}
    (h : Change s a t) : Contents t := by
  cases h with
  | @hit x dev blockno i before after new list key first =>
    have hcount : Contents (s.setRefcnt i ((s.ctrl i).refcnt+1)) := hc.recount i _ s.pins
    refine hcount.add new ?_ dev blockno
    have hi : i∈s.lru := by
      rw [list]
      exact List.mem_append_right _ List.mem_cons_self
    have hm : s.last (s.ctrl i).key=if s.valid i=true then some (s.data i) else none := by
      cases hu : s.used i with
      | true => exact hc.memory i hi hu
      | false =>
        rw [if_neg (by rw [(hc.clear i hu).1]; decide)]
        refine hc.gone _ ?_
        intro j hj huj he
        have ho := hr.order
        rw [list,List.pairwise_append,List.pairwise_cons] at ho
        rw [list,List.mem_append,List.mem_cons] at hj
        rcases hj with hj|hj|hj
        · exact first j hj (he.trans key)
        · rw [hj,hu] at huj
          cases huj
        · have hn := ho.2.1.1 j hj he.symm
          rw [huj] at hn
          cases hn
    dsimp only [System.setRefcnt,System.setCtrl]
    rw [Function.update_self]
    exact hm
  | @miss x dev blockno i new listed unused absent =>
    obtain ⟨hrec,hnone⟩ := hc.recycle hr listed unused absent
    refine hrec.add new ?_ dev blockno
    have hv : (s.recycle i dev blockno).valid i=false := Function.update_self _ _ _
    have hkey : ((s.recycle i dev blockno).ctrl i).key=(dev,blockno) := by
      dsimp only [System.recycle]
      rw [Function.update_self]
      rfl
    rw [hkey,hnone,if_neg (by rw [hv]; decide)]
  | @acquire x live waiting free =>
    have hx : Contents (s.setStage x .locked) := hc.restage (fun e => by cases e)
      (fun e => by cases e) (by decide) (by rw [waiting]; decide)
    exact hx.frame (fun _ => rfl) (fun _ => Iff.rfl) rfl rfl rfl rfl rfl rfl rfl hx.flag hx.unread
      hx.loaded (fun _ hx hs => ⟨hx,hs⟩)
  | @check x live locked =>
    refine hc.restage ?_ ?_ ?_ (by rw [locked]; decide)
    · intro e
      split at e
      · rename_i hv
        exact hv
      · cases e
    · intro e
      split at e
      · cases e
      · rename_i hv
        rw [Bool.not_eq_true] at hv
        exact hv
    · split <;> decide
  | read live reading => exact hc.read hk hr live reading
  | @store x live loaded =>
    have hl := hc.leave hk hr live (.inl loaded) (s.data (s.slot x))
    rw [Function.update_eq_self] at hl
    exact hl
  | @modify x d live held =>
    have hl := hc.leave hk hr live (.inr held) d
    have hv : Function.update s.valid (s.slot x) true=s.valid := by
      rw [←hc.flag x live (by rw [held]; rfl),Function.update_eq_self]
    have hs : s.setStage x .held=s := by
      unfold System.setStage
      rw [←held,Function.update_eq_self]
    rw [hv,hs] at hl
    exact hl
  | bwrite live held => exact hc.bwrite hk hr live held
  | @pinRead x live held =>
    exact hc.restage (fun _ => hc.flag x live (by rw [held]; rfl)) (fun e => by cases e)
      (fun e => by cases e) (by rw [held]; decide)
  | @pinWrite x rc live pinning =>
    have hx : Contents (s.setStage x .held) := hc.restage
      (fun _ => hc.flag x live (by rw [pinning]; rfl)) (fun e => by cases e) (by decide)
      (by rw [pinning]; exact fun e => by cases e)
    exact hx.recount _ _ _
  | @unpinRead x live held owed =>
    exact hc.restage (fun _ => hc.flag x live (by rw [held]; rfl)) (fun e => by cases e)
      (fun e => by cases e) (by rw [held]; decide)
  | @unpinWrite x rc live unpinning =>
    have hx : Contents (s.setStage x .held) := hc.restage
      (fun _ => hc.flag x live (by rw [unpinning]; rfl)) (fun e => by cases e) (by decide)
      (by rw [unpinning]; exact fun e => by cases e)
    exact hx.recount _ _ _
  | @release x live held =>
    have hx : Contents (s.setStage x .released) := hc.restage (fun e => by cases e)
      (fun e => by cases e) (by decide) (by rw [held]; decide)
    exact hx.frame (fun _ => rfl) (fun _ => Iff.rfl) rfl rfl rfl rfl rfl rfl rfl hx.flag hx.unread
      hx.loaded (fun _ hx hs => ⟨hx,hs⟩)
  | @brelse x n live released refs =>
    have hx : Contents (s.setRefcnt (s.slot x) n) := hc.recount _ _ s.pins
    refine hx.frame (fun _ => rfl) ?_ rfl rfl rfl rfl rfl rfl rfl ?_ ?_ ?_ ?_
    · intro j
      have hperm := (List.perm_cons_erase (hr.listed x live)).mem_iff (a:=j)
      dsimp only
      split
      · exact hperm.symm
      · exact Iff.rfl
    · intro y hy
      exact hc.flag y (Finset.mem_of_mem_erase hy)
    · intro y hy
      exact hc.unread y (Finset.mem_of_mem_erase hy)
    · intro y hy
      exact hc.loaded y (Finset.mem_of_mem_erase hy)
    · intro y hy hs
      refine ⟨Finset.mem_erase.mpr ⟨?_,hy⟩,hs⟩
      intro e
      change s.stage y=.loaded at hs
      rw [e,released] at hs
      cases hs

end Contents

section Coherence

variable {s t : System α}

/-- What every section keeps. -/
structure Inv (s : System α) : Prop where
  /-- The locks. -/
  locks : Locks s
  /-- The counts. -/
  refs : Refs s
  /-- The contents. -/
  contents : Contents s

/-- The cache after `binit`. -/
theorem binit_inv (zero : α) (disk : ℕ×ℕ → α) : Inv (binit zero disk) := by
  have hno : ∀ h,h∉(binit zero disk).live := Finset.notMem_empty
  refine ⟨Locking.empty (fun _ => rfl),⟨.refl _,?_,?_,?_,fun _ => rfl,?_,?_,fun _ _ => ⟨rfl,rfl⟩,?_⟩,
    ⟨?_,?_,?_,fun _ => Nat.zero_le 1,?_,fun _ _ => ⟨rfl,rfl⟩,?_,fun _ _ => rfl⟩⟩
  · exact fun h hl => absurd hl (hno h)
  · exact fun h hl => absurd hl (hno h)
  · exact fun h hl => absurd hl (hno h)
  · exact fun h hl => absurd hl (hno h)
  · exact fun h hl => absurd hl (hno h)
  · exact List.pairwise_of_forall (fun _ _ _ => rfl)
  · exact fun h hl => absurd hl (hno h)
  · exact fun h hl => absurd hl (hno h)
  · exact fun h hl => absurd hl (hno h)
  · intro i hi
    cases hi
  · intro i _ hu
    cases hu

/-- One section without a race. -/
theorem step_inv {a : Label α} (hi : Inv s) (hn : NoRace s a) (h : step s a=.next t) : Inv t := by
  have hc := step_change h
  exact ⟨hi.locks.change hc,hi.refs.change hi.locks hn hc,hi.contents.change hi.locks hi.refs hc⟩

/-- A coherent cache. -/
structure Coherent (s : System α) : Prop where
  /-- A block of a device is in one buffer. -/
  unique : ∀ i j,i<nbuf → j<nbuf → (s.ctrl i).key=(s.ctrl j).key → (s.ctrl i).dev≠0 → i=j
  /-- A buffer with references is not given to another block. -/
  assigned : ∀ a t,step s a=.next t → ∀ i,0<(s.ctrl i).refcnt → (t.ctrl i).key=(s.ctrl i).key
  /-- A `Buf` has a reference to a buffer with its block. -/
  referenced : ∀ h∈s.live,0<(s.ctrl (s.slot h)).refcnt ∧ (s.ctrl (s.slot h)).key=(s.buf h).key
  /-- A `bread` that finds the flag set returns what was left in the buffer of the block. -/
  cached : ∀ h t,step s (.check h)=.next t → t.stage h=.held →
    s.last (s.buf h).key=some (t.data (t.slot h))
  /-- A `bread` that has read the disk returns its current contents, and nothing was left. -/
  read : ∀ h t,step s (.store h)=.next t →
    s.last (s.buf h).key=none ∧ t.data (t.slot h)=t.disk (t.buf h).key
  /-- The disk is read at most once for each assignment. -/
  once : ∀ i,s.reads i ≤ 1

/-- No section gives a buffer with references to another block. -/
theorem key_of_referenced {a : Label α} (h : Change s a t) {i : ℕ} (hp : 0<(s.ctrl i).refcnt) :
    (t.ctrl i).key=(s.ctrl i).key := by
  have hset : ∀ j n,(Function.update s.ctrl j ⟨(s.ctrl j).dev,(s.ctrl j).blockno,n⟩ i).key=
      (s.ctrl i).key := by
    intro j n
    rw [Function.update_apply]
    split
    · rename_i e
      rw [e]
      rfl
    · rfl
  cases h with
  | hit => exact hset _ _
  | @miss x dev blockno j new listed unused absent =>
    have hne : i≠j := by
      intro e
      rw [e,unused] at hp
      exact absurd hp (lt_irrefl 0)
    dsimp only [System.addBuf,System.recycle]
    rw [Function.update_of_ne hne]
  | acquire => rfl
  | check => rfl
  | read => rfl
  | store => rfl
  | modify => rfl
  | bwrite => rfl
  | pinRead => rfl
  | pinWrite => exact hset _ _
  | unpinRead => rfl
  | unpinWrite => exact hset _ _
  | release => rfl
  | brelse => exact hset _ _

/-- The invariant gives coherence. -/
theorem Inv.coherent (hi : Inv s) : Coherent s := by
  constructor
  · intro i j hi' hj he hd
    have hlisted : ∀ k,k<nbuf → k∈s.lru := fun k hk =>
      hi.refs.perm.mem_iff.mpr (List.mem_range.mpr hk)
    have hused : ∀ k,(s.ctrl k).key=(s.ctrl i).key → s.used k=true := by
      intro k hk
      rw [←Bool.not_eq_false]
      intro hu
      have hz := (hi.refs.fresh k hu).1
      rw [hk,BufCtrl.key,Prod.mk.injEq] at hz
      exact hd hz.1
    exact hi.refs.unique (hlisted i hi') (hlisted j hj) (hused i rfl) (hused j he.symm) he
  · intro a t h i hp
    exact key_of_referenced (step_change h) hp
  · intro h hl
    exact ⟨hi.refs.pos hl,hi.refs.key h hl⟩
  · intro h t hs ht
    cases step_change hs with
    | check live locked =>
      dsimp only [System.setStage] at ht
      rw [Function.update_self] at ht
      have hv : s.valid (s.slot h)=true := by
        by_contra hv
        rw [if_neg hv] at ht
        cases ht
      have hm := hi.contents.memory _ (hi.refs.listed h live) (hi.refs.used h live)
      rw [hi.refs.key h live,if_pos hv] at hm
      exact hm
  · intro h t hs
    cases step_change hs with
    | store live loaded =>
      have hv := hi.contents.unread h live (.inr loaded)
      have hm := hi.contents.memory _ (hi.refs.listed h live) (hi.refs.used h live)
      rw [hi.refs.key h live,if_neg (by rw [hv]; decide)] at hm
      exact ⟨hm,hi.contents.loaded h live loaded⟩
  · exact hi.contents.once

/-- In every interleaving in which nobody else changes the count of a buffer between the read
and the write of a `pin` or an `unpin`, the cache is coherent in every state. -/
theorem cache_coherent_without_race (zero : α) (disk : ℕ×ℕ → α) (labels : List (Label α))
    (hg : Guarded step NoRace (binit zero disk) labels) (t : System α)
    (ht : run step (binit zero disk) labels=.next t) : Coherent t :=
  (run_invariant (fun _ _ _ hi hn h => step_inv hi hn h) (binit_inv zero disk) hg ht).coherent

instance decidableNoRace (s : System α) : ∀ a,Decidable (NoRace s a)
  | .bget _ dev blockno => inferInstanceAs (Decidable (∀ h'∈s.live,(s.stage h').counting=true →
      (s.buf h').key≠(dev,blockno)))
  | .brelse h => inferInstanceAs (Decidable (∀ h'∈s.live,(s.stage h').counting=true →
      s.slot h'≠s.slot h))
  | .acquire _ | .check _ | .read _ | .store _ | .modify _ _ | .bwrite _ | .pinRead _
  | .pinWrite _ | .unpinRead _ | .unpinWrite _ | .release _ =>
    inferInstanceAs (Decidable True)

/-- Block 5 is changed and pinned while a second process waits for it, then installed and
unpinned. -/
def orderly : List (Label ℕ) :=
  [.bget 0 1 5,.acquire 0,.check 0,.read 0,.store 0,.modify 0 50,.pinRead 0,.pinWrite 0,
    .bget 1 1 5,.release 0,.brelse 0,.bget 2 1 5,.acquire 2,.check 2,.bwrite 2,.unpinRead 2,
    .unpinWrite 2,.release 2,.brelse 2,.acquire 1,.check 1]

/-- The hypotheses hold of a run with a `pin`, an `unpin` and a reader that waits. -/
theorem cache_coherent_with_pins :
    Guarded step NoRace (binit 0 Prod.snd) orderly ∧
    ∃ t,run step (binit 0 Prod.snd) orderly=.next t ∧ t.data (t.slot 1)=50 ∧ Coherent t := by
  have hg : Guarded step NoRace (binit 0 Prod.snd) orderly := by decide +kernel
  have ht : (run step (binit 0 Prod.snd) orderly).test
      (fun t => t.data (t.slot 1)=50)=true := by decide +kernel
  obtain ⟨t,hr,hd⟩ := Outcome.exists_of_test ht
  exact ⟨hg,t,hr,of_decide_eq_true hd,cache_coherent_without_race 0 Prod.snd orderly hg t hr⟩

/-- All other buffers are in use. The second process counts its reference between the read and
the write of the `pin`; after `unpin` the buffer has no count, is recycled for block 7 under the
second process, and is filled with block 5. -/
def lostCount : List (Label ℕ) :=
  (List.range 29).map (fun j => .bget (4+j) 1 (100+j))++
  [.bget 0 1 5,.acquire 0,.check 0,.read 0,.store 0,.modify 0 50,.pinRead 0,.bget 1 1 5,
    .pinWrite 0,.release 0,.brelse 0,.bget 2 1 5,.acquire 2,.check 2,.bwrite 2,.unpinRead 2,
    .unpinWrite 2,.release 2,.brelse 2,.bget 3 1 7,.acquire 1,.check 1,.read 1,.store 1,
    .release 1,.brelse 1,.acquire 3]

/-- Then `bread` of block 7 returns the contents of block 5. -/
theorem lost_count_mixes_blocks :
    ∃ s t,run step (binit 0 Prod.snd) lostCount=.next s ∧ step s (.check 3)=.next t ∧
      t.stage 3=.held ∧ (s.buf 3).key=(1,7) ∧ t.data (t.slot 3)=50 ∧ s.disk (1,7)=7 ∧
      s.last (1,7)=none ∧ ¬Coherent s := by
  have hrun : (run step (binit 0 Prod.snd) lostCount).test (fun s =>
      (step s (.check 3)).test fun t => t.stage 3=.held ∧ (s.buf 3).key=(1,7) ∧
        t.data (t.slot 3)=50 ∧ s.disk (1,7)=7 ∧ s.last (1,7)=none)=true := by decide +kernel
  obtain ⟨s,hs,h1⟩ := Outcome.exists_of_test hrun
  obtain ⟨t,ht,h2⟩ := Outcome.exists_of_test h1
  obtain ⟨hst,hk,hd,hdisk,hl⟩ := of_decide_eq_true h2
  refine ⟨s,t,hs,ht,hst,hk,hd,hdisk,hl,?_⟩
  intro hc
  have hlast := hc.cached 3 t ht hst
  rw [hk,hl] at hlast
  cases hlast

end Coherence

end Xv6Rust.BufferCoherence
