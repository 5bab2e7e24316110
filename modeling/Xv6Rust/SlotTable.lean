import Mathlib

/-!
# Finite maps in tables of slots

A table is a list of slots, each of which is free or holds a key with its value. With distinct
keys it is a finite map. A slot is filled, cleared or added at the end in one way, and what that
does to the map depends only on whether the key is new.
-/

namespace Xv6Rust.SlotTable

variable {α β γ : Type*}

section Places

variable {l : List γ} {x y : γ} {j k : ℕ}

/-- Put an element in a place, which may be the one after the last. -/
def place (l : List γ) (k : ℕ) (x : γ) : List γ := l.take k++x::l.drop (k+1)

theorem getElem?_place (hk : k ≤ l.length) :
    (place l k x)[j]?=if j=k then some x else l[j]? := by
  have hlen : (l.take k).length=k := by rw [List.length_take,Nat.min_eq_left hk]
  rw [place]
  obtain hlt | rfl | hgt := lt_trichotomy j k
  · rw [if_neg hlt.ne,List.getElem?_append_left (by omega),List.getElem?_take_of_lt hlt]
  · rw [if_pos rfl,List.getElem?_append_right (by omega),hlen,Nat.sub_self]
    rfl
  · have e : j-k=j-k-1+1 := by omega
    rw [if_neg hgt.ne',List.getElem?_append_right (by omega),hlen,e,List.getElem?_cons_succ,
      List.getElem?_drop]
    congr 1
    omega

theorem countP_place {p : γ → Bool} (h : l[k]?=some y) :
    (place l k x).countP p+(if p y=true then 1 else 0)=
      l.countP p+if p x=true then 1 else 0 := by
  obtain ⟨hk,hy⟩ := List.getElem?_eq_some_iff.mp h
  have hl : l=l.take k++y::l.drop (k+1) := by
    rw [← hy,← List.drop_eq_getElem_cons hk,List.take_append_drop]
  rw [place]
  conv_rhs => rw [hl]
  simp only [List.countP_append,List.countP_cons]
  omega

theorem countP_place_length {p : γ → Bool} :
    (place l l.length x).countP p=l.countP p+if p x=true then 1 else 0 := by
  rw [place,List.take_length,List.drop_eq_nil_of_le (Nat.le_succ _),List.countP_append,
    List.countP_singleton]

end Places

/-- No key is in two slots. -/
def Distinct (t : List (Option (α×β))) : Prop :=
  ∀ (j k : ℕ) (a : α) (b c : β),t[j]?=some (some (a,b)) → t[k]?=some (some (a,c)) → j=k

variable [DecidableEq α]

/-- The value in the first slot of a key. -/
def value (t : List (Option (α×β))) (a : α) : Option β :=
  t.findSome? fun x => x.bind fun p => if p.1=a then some p.2 else none

variable {t : List (Option (α×β))} {a c : α} {b : β} {k : ℕ}

theorem exists_of_value (h : value t a=some b) : ∃ k : ℕ,t[k]?=some (some (a,b)) := by
  obtain ⟨x,hx,he⟩ := List.exists_of_findSome?_eq_some h
  obtain ⟨k,hk⟩ := List.mem_iff_getElem?.mp hx
  refine ⟨k,?_⟩
  rw [hk]
  cases x with
  | none => cases he
  | some p =>
    change (if p.1=a then some p.2 else none)=some b at he
    split at he
    · rename_i e
      cases he
      rw [← e]
    · cases he

theorem value_ne_none (h : t[k]?=some (some (a,b))) : value t a≠none := by
  intro hnone
  have e := List.findSome?_eq_none_iff.mp hnone _ (List.mem_of_getElem? h)
  simp at e

theorem value_eq_none : value t a=none ↔ ∀ (k : ℕ) (b : β),t[k]?≠some (some (a,b)) := by
  refine ⟨fun h k b hk => value_ne_none hk h,fun h => ?_⟩
  cases hv : value t a with
  | none => rfl
  | some b =>
    obtain ⟨k,hk⟩ := exists_of_value hv
    exact absurd hk (h k b)

/-- With distinct keys, the slot of a key holds its value. -/
theorem Distinct.value (hd : Distinct t) (h : t[k]?=some (some (a,b))) : value t a=some b := by
  cases hv : SlotTable.value t a with
  | none => exact absurd hv (value_ne_none h)
  | some c =>
    obtain ⟨j,hj⟩ := exists_of_value hv
    rw [hd j k a c b hj h,h] at hj
    cases hj
    rfl

theorem Distinct.value_eq_some (hd : Distinct t) :
    SlotTable.value t a=some b ↔ ∃ k : ℕ,t[k]?=some (some (a,b)) :=
  ⟨exists_of_value,fun ⟨_,hk⟩ => hd.value hk⟩

omit [DecidableEq α] in
/-- A slot is cleared. -/
theorem Distinct.clear (hd : Distinct t) (hk : k ≤ t.length) : Distinct (place t k none) := by
  intro i j a b c hi hj
  rw [getElem?_place hk] at hi hj
  split at hi
  · cases hi
  · split at hj
    · cases hj
    · exact hd i j a b c hi hj

/-- A key is cleared. -/
theorem Distinct.value_clear (hd : Distinct t) (h : t[k]?=some (some (a,b))) :
    SlotTable.value (place t k none)=Function.update (SlotTable.value t) a none := by
  have hk : k ≤ t.length := (List.getElem?_eq_some_iff.mp h).1.le
  funext c
  by_cases e : c=a
  · rw [e,Function.update_self,value_eq_none]
    intro j b' hj
    rw [getElem?_place hk] at hj
    split at hj
    · cases hj
    · rename_i hne
      exact hne (hd j k a b' b hj h)
  · rw [Function.update_of_ne e]
    refine Option.ext fun b' => ?_
    rw [(hd.clear hk).value_eq_some,hd.value_eq_some]
    refine exists_congr fun j => ?_
    rw [getElem?_place hk]
    split
    · rename_i hj
      rw [hj,h]
      refine iff_of_false (fun hc => by cases hc) fun hc => ?_
      cases hc
      exact e rfl
    · exact Iff.rfl

/-- A new key is added in a slot that is free or at the end. -/
theorem Distinct.fill (hd : Distinct t) (hk : k ≤ t.length) (hnew : SlotTable.value t a=none) :
    Distinct (place t k (some (a,b))) := by
  have hno := value_eq_none.mp hnew
  intro i j x y z hi hj
  rw [getElem?_place hk] at hi hj
  split at hi
  · rename_i ei
    cases hi
    split at hj
    · rename_i ej
      rw [ei,ej]
    · exact absurd hj (hno j z)
  · split at hj
    · cases hj
      exact absurd hi (hno i y)
    · exact hd i j x y z hi hj

theorem Distinct.value_fill (hd : Distinct t) (hk : k ≤ t.length)
    (hfree : ∀ x,t[k]?≠some (some x)) (hnew : SlotTable.value t a=none) :
    SlotTable.value (place t k (some (a,b)))=Function.update (SlotTable.value t) a (some b) := by
  funext c
  by_cases e : c=a
  · rw [e,Function.update_self]
    refine (hd.fill hk hnew).value (k:=k) ?_
    rw [getElem?_place hk,if_pos rfl]
  · rw [Function.update_of_ne e]
    refine Option.ext fun b' => ?_
    rw [(hd.fill hk hnew).value_eq_some,hd.value_eq_some]
    refine exists_congr fun j => ?_
    rw [getElem?_place hk]
    split
    · rename_i hj
      rw [hj]
      refine iff_of_false (fun hc => ?_) (hfree _)
      cases hc
      exact e rfl
    · exact Iff.rfl

end Xv6Rust.SlotTable
