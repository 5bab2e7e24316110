import Mathlib

/-!
# Handles to slots

Finitely many live handles point to slots. Counting the handles of every slot
says what a reference count has to be when a handle is made or dropped. A lock
for each slot is held through at most one handle; whether a handle holds the
lock of its slot is part of what is being done through it.
-/

namespace Xv6Rust.Handles

variable {κ ι : Type*} {live : Finset κ} {slot slot' : κ → ι} {h : κ}

section Counting

variable [DecidableEq ι]

/-- The live handles of a slot. -/
def fiber (live : Finset κ) (slot : κ → ι) (i : ι) : Finset κ := live.filter fun h => slot h=i

/-- A handle is one of its slot. -/
theorem mem_fiber {i : ι} : h∈fiber live slot i ↔ h∈live ∧ slot h=i := Finset.mem_filter

/-- The slot of a live handle has handles. -/
theorem card_fiber_pos (hl : h∈live) : 0<(fiber live slot (slot h)).card :=
  Finset.card_pos.mpr ⟨h,mem_fiber.mpr ⟨hl,rfl⟩⟩

/-- A slot with at most one handle. -/
theorem eq_of_card_fiber_le_one {h' : κ} {i : ι} (hc : (fiber live slot i).card ≤ 1) (hl : h∈live)
    (hs : slot h=i) (hl' : h'∈live) (hs' : slot h'=i) : h'=h :=
  Finset.card_le_one.mp hc h' (mem_fiber.mpr ⟨hl',hs'⟩) h (mem_fiber.mpr ⟨hl,hs⟩)

/-- A handle that is alone has a slot with one handle. -/
theorem card_fiber_eq_one (hl : h∈live) (hs : ∀ x∈live,slot x=slot h → x=h) :
    (fiber live slot (slot h)).card=1 := by
  rw [Finset.card_eq_one]
  refine ⟨h,?_⟩
  ext x
  rw [mem_fiber,Finset.mem_singleton]
  constructor
  · intro hx
    exact hs x hx.1 hx.2
  · intro e
    rw [e]
    exact ⟨hl,rfl⟩

/-- Slots that agree on the live handles give the same counts. -/
theorem fiber_congr (hs : ∀ x∈live,slot' x=slot x) (i : ι) :
    fiber live slot' i=fiber live slot i := by
  refine Finset.filter_congr ?_
  intro x hx
  rw [hs x hx]

/-- The counts after a handle is made. -/
theorem card_fiber_insert [DecidableEq κ] (slot slot' : κ → ι) (hn : h∉live) (hs : ∀ x∈live,slot' x=slot x) (i : ι) :
    (fiber (insert h live) slot' i).card=
      if i=slot' h then (fiber live slot i).card+1 else (fiber live slot i).card := by
  have hf : fiber (insert h live) slot' i=
      if slot' h=i then insert h (fiber live slot' i) else fiber live slot' i :=
    Finset.filter_insert _ _ _
  rw [hf,fiber_congr hs]
  by_cases e : i=slot' h
  · rw [if_pos e.symm,if_pos e,Finset.card_insert_of_notMem (fun hm => hn (mem_fiber.mp hm).1)]
  · rw [if_neg (fun e' => e e'.symm),if_neg e]

/-- The counts after a handle is dropped. -/
theorem card_fiber_erase [DecidableEq κ] (slot : κ → ι) (hl : h∈live) (i : ι) :
    (fiber (live.erase h) slot i).card=
      if i=slot h then (fiber live slot i).card-1 else (fiber live slot i).card := by
  have hf : fiber (live.erase h) slot i=(fiber live slot i).erase h := by
    ext x
    rw [Finset.mem_erase,mem_fiber,mem_fiber,Finset.mem_erase,and_assoc]
  rw [hf]
  split
  · rename_i e
    exact Finset.card_erase_of_mem (mem_fiber.mpr ⟨hl,e.symm⟩)
  · rename_i e
    rw [Finset.erase_eq_of_notMem (fun hm => e (mem_fiber.mp hm).2.symm)]

end Counting

/-- The locks of the slots fit what is being done through the handles. -/
structure Locking (live : Finset κ) (slot : κ → ι) (holds : κ → Bool) (locked : ι → Bool) :
    Prop where
  /-- A lock is held through a live handle. -/
  holder : ∀ i,locked i=true → ∃ h∈live,slot h=i ∧ holds h=true
  /-- Such a handle has the lock of its slot. -/
  held : ∀ h∈live,holds h=true → locked (slot h)=true
  /-- Only one handle has it. -/
  exclusive : ∀ h∈live,∀ h'∈live,holds h=true → holds h'=true → slot h=slot h' → h=h'

namespace Locking

variable {holds holds' : κ → Bool} {locked : ι → Bool}

/-- No live handle, no lock. -/
theorem empty (hf : ∀ i,locked i=false) : Locking ∅ slot holds locked := by
  constructor
  · intro i hi
    rw [hf i] at hi
    cases hi
  · intro h hl
    exact absurd hl (Finset.notMem_empty h)
  · intro h hl
    exact absurd hl (Finset.notMem_empty h)

/-- Locking depends on the slots and the holders among the live handles. -/
theorem congr (hk : Locking live slot holds locked) (hs : ∀ x∈live,slot' x=slot x)
    (hh : ∀ x∈live,holds' x=holds x) : Locking live slot' holds' locked := by
  constructor
  · intro i hi
    obtain ⟨x,hx,he,hx'⟩ := hk.holder i hi
    exact ⟨x,hx,(hs x hx).trans he,(hh x hx).trans hx'⟩
  · intro x hx hx'
    rw [hs x hx]
    exact hk.held x hx ((hh x hx).symm.trans hx')
  · intro x hx y hy hhx hhy he
    rw [hs x hx,hs y hy] at he
    exact hk.exclusive x hx y hy ((hh x hx).symm.trans hhx) ((hh y hy).symm.trans hhy) he

/-- A new handle that holds no lock. -/
theorem insert [DecidableEq κ] (hk : Locking live slot holds locked)
    (hs : ∀ x∈live,slot' x=slot x) (hh : ∀ x∈live,holds' x=holds x) (hnew : holds' h=false) :
    Locking (insert h live) slot' holds' locked := by
  have hk' : Locking live slot' holds' locked := hk.congr hs hh
  have hold : ∀ x∈Insert.insert h live,holds' x=true → x∈live := by
    intro x hx hx'
    rcases Finset.mem_insert.mp hx with e|e
    · rw [e,hnew] at hx'
      cases hx'
    · exact e
  constructor
  · intro i hi
    obtain ⟨x,hx,he,hx'⟩ := hk'.holder i hi
    exact ⟨x,Finset.mem_insert_of_mem hx,he,hx'⟩
  · intro x hx hx'
    exact hk'.held x (hold x hx hx') hx'
  · intro x hx y hy hhx hhy
    exact hk'.exclusive x (hold x hx hhx) y (hold y hy hhy) hhx hhy

/-- A handle that holds no lock is dropped. -/
theorem erase [DecidableEq κ] (hk : Locking live slot holds locked) (hh : holds h=false) :
    Locking (live.erase h) slot holds locked := by
  constructor
  · intro i hi
    obtain ⟨x,hx,he,hx'⟩ := hk.holder i hi
    refine ⟨x,Finset.mem_erase.mpr ⟨?_,hx⟩,he,hx'⟩
    intro e
    rw [e,hh] at hx'
    cases hx'
  · intro x hx
    exact hk.held x (Finset.mem_of_mem_erase hx)
  · intro x hx y hy
    exact hk.exclusive x (Finset.mem_of_mem_erase hx) y (Finset.mem_of_mem_erase hy)

/-- A free lock is taken. -/
theorem acquire [DecidableEq ι] (hk : Locking live slot holds locked) (hl : h∈live)
    (hf : locked (slot h)=false) (hnew : holds' h=true) (hh : ∀ x,x≠h → holds' x=holds x) :
    Locking live slot holds' (Function.update locked (slot h) true) := by
  have hother : ∀ x∈live,holds x=true → slot x≠slot h := by
    intro x hx hx' e
    have hlock := hk.held x hx hx'
    rw [e,hf] at hlock
    cases hlock
  constructor
  · intro i hi
    by_cases e : i=slot h
    · exact ⟨h,hl,e.symm,hnew⟩
    · rw [Function.update_of_ne e] at hi
      obtain ⟨x,hx,he,hx'⟩ := hk.holder i hi
      have hne : x≠h := fun e' => e (by rw [←he,e'])
      exact ⟨x,hx,he,(hh x hne).trans hx'⟩
  · intro x hx hx'
    rw [Function.update_apply]
    split
    · rfl
    · rename_i e
      have hne : x≠h := fun e' => e (by rw [e'])
      exact hk.held x hx ((hh x hne).symm.trans hx')
  · intro x hx y hy hhx hhy he
    by_cases ex : x=h
    · by_cases ey : y=h
      · rw [ex,ey]
      · rw [hh y ey] at hhy
        rw [ex] at he
        exact absurd he.symm (hother y hy hhy)
    · rw [hh x ex] at hhx
      by_cases ey : y=h
      · rw [ey] at he
        exact absurd he (hother x hx hhx)
      · rw [hh y ey] at hhy
        exact hk.exclusive x hx y hy hhx hhy he

/-- The holder of a lock releases it. -/
theorem release [DecidableEq ι] (hk : Locking live slot holds locked) (hl : h∈live)
    (hold : holds h=true) (hnew : holds' h=false) (hh : ∀ x,x≠h → holds' x=holds x) :
    Locking live slot holds' (Function.update locked (slot h) false) := by
  have hne : ∀ x,holds' x=true → x≠h ∧ holds x=true := by
    intro x hx
    by_cases e : x=h
    · rw [e,hnew] at hx
      cases hx
    · exact ⟨e,(hh x e).symm.trans hx⟩
  constructor
  · intro i hi
    rw [Function.update_apply] at hi
    split at hi
    · cases hi
    · rename_i e
      obtain ⟨x,hx,he,hx'⟩ := hk.holder i hi
      have hxh : x≠h := fun e' => e (by rw [←he,e'])
      exact ⟨x,hx,he,(hh x hxh).trans hx'⟩
  · intro x hx hx'
    obtain ⟨hxh,hx''⟩ := hne x hx'
    have he : slot x≠slot h := fun e => hxh (hk.exclusive x hx h hl hx'' hold e)
    rw [Function.update_of_ne he]
    exact hk.held x hx hx''
  · intro x hx y hy hhx hhy
    exact hk.exclusive x hx y hy (hne x hhx).2 (hne y hhy).2

/-- The lock of a slot whose only handle does not hold it is free. -/
theorem free_of_alone (hk : Locking live slot holds locked) (hh : holds h=false)
    (ha : ∀ x∈live,slot x=slot h → x=h) : locked (slot h)=false := by
  rw [←Bool.not_eq_true]
  intro hlock
  obtain ⟨x,hx,he,hx'⟩ := hk.holder _ hlock
  rw [ha x hx he,hh] at hx'
  cases hx'

end Locking

end Xv6Rust.Handles
