import Mathlib

/-!
# Circular doubly linked lists threaded through memory

The nodes of a list carry the addresses of their neighbours, and the list is
reached from a head node that is not one of its elements. Insertion after the
head and removal of a node are the usual pointer assignments, in their order. A
family of such lists in one memory with pairwise different nodes is kept by the
operations on any of them.
-/

namespace Xv6Rust.IntrusiveList

variable {α : Type*} [DecidableEq α]

/-- The neighbour fields of every node. -/
structure Links (α : Type*) where
  /-- The node before. -/
  prev : α → α
  /-- The node after. -/
  next : α → α

/-- Make a node the head of an empty list. -/
def Links.init (l : Links α) (head : α) : Links α :=
  ⟨Function.update l.prev head head,Function.update l.next head head⟩

/-- Insert a node after the head. -/
def Links.push (l : Links α) (head a : α) : Links α :=
  let l : Links α := ⟨Function.update l.prev a head,Function.update l.next a (l.next head)⟩
  let l : Links α := {l with prev := Function.update l.prev (l.next head) a}
  {l with next := Function.update l.next head a}

/-- Unlink a node from its neighbours. -/
def Links.remove (l : Links α) (a : α) : Links α :=
  let l : Links α := {l with next := Function.update l.next (l.prev a) (l.next a)}
  {l with prev := Function.update l.prev (l.next a) (l.prev a)}

/-- The list of a head has no nodes. -/
def Links.isEmpty (l : Links α) (head : α) : Bool := decide (l.next head=head)

/-- From a node through the given ones to an end node, linked both ways. -/
def Chain (l : Links α) : α → List α → α → Prop
  | u,[],e => l.next u=e ∧ l.prev e=u
  | u,x::xs,e => l.next u=x ∧ l.prev x=u ∧ Chain l x xs e

/-- The list of a head has the given nodes. -/
structure Ring (l : Links α) (head : α) (xs : List α) : Prop where
  /-- The links run through the nodes and back to the head. -/
  chain : Chain l head xs head
  /-- The nodes are distinct. -/
  nodup : (head::xs).Nodup

omit [DecidableEq α] in
/-- A chain depends on the links of its nodes. -/
theorem Chain.congr {l m : Links α} {u e : α} {xs : List α} (h : Chain l u xs e)
    (hn : ∀ a∈u::xs,m.next a=l.next a) (hp : ∀ a∈xs++[e],m.prev a=l.prev a) :
    Chain m u xs e := by
  induction xs generalizing u with
  | nil =>
    refine ⟨?_,?_⟩
    · rw [hn u (by simp)]
      exact h.1
    · rw [hp e (by simp)]
      exact h.2
  | cons x xs ih =>
    obtain ⟨h1,h2,h3⟩ := h
    refine ⟨?_,?_,ih h3 (fun a ha => hn a (List.mem_cons_of_mem _ ha))
      fun a ha => hp a (List.mem_cons_of_mem _ ha)⟩
    · rw [hn u (by simp)]
      exact h1
    · rw [hp x (by simp)]
      exact h2

omit [DecidableEq α] in
/-- A ring depends on the links of its nodes. -/
theorem Ring.congr {l m : Links α} {head : α} {xs : List α} (h : Ring l head xs)
    (hn : ∀ a∈head::xs,m.next a=l.next a) (hp : ∀ a∈head::xs,m.prev a=l.prev a) :
    Ring m head xs := by
  refine ⟨h.chain.congr hn fun a ha => hp a ?_,h.nodup⟩
  rw [List.mem_append,List.mem_singleton] at ha
  rw [List.mem_cons]
  exact ha.symm

omit [DecidableEq α] in
theorem chain_append {l : Links α} {u y e : α} {xs ys : List α} :
    Chain l u (xs++y::ys) e ↔ Chain l u xs y ∧ Chain l y ys e := by
  induction xs generalizing u with
  | nil => exact and_assoc.symm
  | cons x xs ih =>
    rw [List.cons_append,Chain,Chain,ih,and_assoc,and_assoc]

omit [DecidableEq α] in
/-- The node before the end of a chain is one of its nodes. -/
theorem Chain.prev_mem {l : Links α} {u e : α} {xs : List α} (h : Chain l u xs e) :
    l.prev e∈u::xs := by
  induction xs generalizing u with
  | nil =>
    rw [h.2]
    exact List.mem_cons_self
  | cons x xs ih => exact List.mem_cons_of_mem _ (ih h.2.2)

omit [DecidableEq α] in
/-- The node after the start of a chain is one of its nodes or its end. -/
theorem Chain.next_mem {l : Links α} {u e : α} {xs : List α} (h : Chain l u xs e) :
    l.next u∈xs++[e] := by
  cases xs with
  | nil =>
    rw [h.1]
    exact List.mem_singleton_self e
  | cons x xs =>
    rw [h.1]
    exact List.mem_cons_self

/-- A list whose head points to itself is empty. -/
theorem Ring.isEmpty_iff {l : Links α} {head : α} {xs : List α} (h : Ring l head xs) :
    l.isEmpty head=true ↔ xs=[] := by
  rw [Links.isEmpty,decide_eq_true_iff]
  cases xs with
  | nil => exact ⟨fun _ => rfl,fun _ => h.chain.1⟩
  | cons x xs =>
    refine ⟨fun he => ?_,nofun⟩
    have hx := h.chain.1
    rw [he] at hx
    have hnd := h.nodup
    rw [hx] at hnd
    exact absurd List.mem_cons_self (List.nodup_cons.mp hnd).1

omit [DecidableEq α] in
/-- The node after the head is the first one. -/
theorem Ring.next_head {l : Links α} {head x : α} {xs : List α} (h : Ring l head (x::xs)) :
    l.next head=x := h.chain.1

omit [DecidableEq α] in
theorem Chain.unique {l : Links α} {u e : α} {xs ys : List α} (h : Chain l u xs e)
    (h' : Chain l u ys e) (hx : e∉xs) (hy : e∉ys) : xs=ys := by
  induction xs generalizing u ys with
  | nil =>
    cases ys with
    | nil => rfl
    | cons y ys =>
      have he : y=e := h'.1.symm.trans h.1
      exact absurd (he ▸ List.mem_cons_self) hy
  | cons x xs ih =>
    cases ys with
    | nil =>
      have he : x=e := h.1.symm.trans h'.1
      exact absurd (he ▸ List.mem_cons_self) hx
    | cons y ys =>
      have he : y=x := h'.1.symm.trans h.1
      subst he
      rw [ih h.2.2 h'.2.2 (fun hm => hx (List.mem_cons_of_mem _ hm)) fun hm =>
        hy (List.mem_cons_of_mem _ hm)]

omit [DecidableEq α] in
/-- Memory determines the nodes of a list. -/
theorem Ring.unique {l : Links α} {head : α} {xs ys : List α} (h : Ring l head xs)
    (h' : Ring l head ys) : xs=ys :=
  h.chain.unique h'.chain (List.nodup_cons.mp h.nodup).1 (List.nodup_cons.mp h'.nodup).1

/-- Insertion after the head adds a first node. -/
theorem Ring.push {l : Links α} {head a : α} {xs : List α} (h : Ring l head xs)
    (ha : a∉head::xs) : Ring (l.push head a) head (a::xs) := by
  have hah : a≠head := fun he => ha (he ▸ List.mem_cons_self)
  have hnext : l.next head∈head::xs := by
    have hm := h.chain.next_mem
    rw [List.mem_append,List.mem_singleton] at hm
    exact List.mem_cons.mpr hm.symm
  have hane : a≠l.next head := fun he => ha (he ▸ hnext)
  have hn : ∀ b,b≠a → b≠head → (l.push head a).next b=l.next b := by
    intro b hba hbh
    simp [Links.push,hba,hbh]
  have hp : ∀ b,b≠a → b≠l.next head → (l.push head a).prev b=l.prev b := by
    intro b hba hbn
    simp [Links.push,hba,hbn,Ne.symm hah]
  refine ⟨⟨?_,?_,?_⟩,?_⟩
  · simp [Links.push]
  · simp [Links.push,hane,Ne.symm hah]
  · cases xs with
    | nil =>
      have hself : l.next head=head := h.chain.1
      refine ⟨?_,?_⟩
      · simp [Links.push,hah,hself]
      · simp [Links.push,hself,Ne.symm hah]
    | cons x xs =>
      have hx : l.next head=x := h.chain.1
      obtain ⟨hhead,hnd⟩ := List.nodup_cons.mp h.nodup
      obtain ⟨hxs,-⟩ := List.nodup_cons.mp hnd
      rw [List.mem_cons,List.mem_cons] at ha
      refine ⟨?_,?_,h.chain.2.2.congr ?_ ?_⟩
      · simp [Links.push,hah,hx]
      · simp [Links.push,hx,Ne.symm hah]
      · intro b hb
        refine hn b ?_ ?_
        · rintro rfl
          exact ha (.inr (List.mem_cons.mp hb))
        · rintro rfl
          exact hhead hb
      · intro b hb
        rw [List.mem_append,List.mem_singleton] at hb
        refine hp b ?_ ?_
        · rintro rfl
          exact ha (hb.elim (fun hb => .inr (.inr hb)) .inl)
        · rw [hx]
          rintro rfl
          exact hb.elim hxs fun he => hhead (he ▸ List.mem_cons_self)
  · rw [List.nodup_cons,List.nodup_cons]
    rw [List.mem_cons,not_or] at ha
    obtain ⟨hhead,hnd⟩ := List.nodup_cons.mp h.nodup
    refine ⟨?_,ha.2,hnd⟩
    rw [List.mem_cons,not_or]
    exact ⟨Ne.symm hah,hhead⟩

/-- Unlinking a node joins the chains on its two sides. -/
theorem Chain.remove {l : Links α} {u a e : α} {ys zs : List α} (h1 : Chain l u ys a)
    (h2 : Chain l a zs e) (hnd : (u::(ys++a::zs)).Nodup) (he : e∉ys++a::zs) :
    Chain (l.remove a) u (ys++zs) e := by
  have hau : a∉u::ys := by
    rw [← List.cons_append,List.nodup_append] at hnd
    exact fun hm => hnd.2.2 a hm a List.mem_cons_self rfl
  have hn : ∀ b,b≠l.prev a → (l.remove a).next b=l.next b := by
    intro b hb
    simp [Links.remove,hb]
  have hpa : l.prev a≠a := fun hp => hau (hp ▸ h1.prev_mem)
  have hp : ∀ b,b≠l.next a → (l.remove a).prev b=l.prev b := by
    intro b hb
    simp [Links.remove,hb,Ne.symm hpa]
  induction ys generalizing u with
  | nil =>
    obtain ⟨-,hpu⟩ := h1
    rw [List.nil_append] at hnd he
    obtain ⟨hu,hnd⟩ := List.nodup_cons.mp hnd
    rw [List.mem_cons,not_or] at hu he
    cases zs with
    | nil =>
      refine ⟨?_,?_⟩
      · simp [Links.remove,hpu,h2.1]
      · simp [Links.remove,hpu,h2.1,Ne.symm hu.1]
    | cons z zs =>
      obtain ⟨hz,hzs⟩ := List.nodup_cons.mp (List.nodup_cons.mp hnd).2
      refine ⟨?_,?_,h2.2.2.congr ?_ ?_⟩
      · simp [Links.remove,hpu,h2.1]
      · simp [Links.remove,hpu,h2.1,Ne.symm hu.1]
      · intro b hb
        refine hn b ?_
        rw [hpu]
        rintro rfl
        exact hu.2 hb
      · intro b hb
        refine hp b ?_
        rw [h2.1]
        rintro rfl
        rw [List.mem_append,List.mem_singleton] at hb
        exact hb.elim hz fun hbe => he.2 (hbe ▸ List.mem_cons_self)
  | cons y ys ih =>
    obtain ⟨hny,hpy,h1'⟩ := h1
    obtain ⟨hu,hnd'⟩ := List.nodup_cons.mp hnd
    rw [List.cons_append,List.mem_cons,not_or] at he
    refine ⟨?_,?_,ih h1' hnd' he.2 ?_⟩
    · rw [hn u]
      · exact hny
      · intro hpu
        have hm := h1'.prev_mem
        rw [← hpu] at hm
        exact hu (List.mem_append_left _ hm)
    · rw [hp y]
      · exact hpy
      · intro hyn
        have hm := h2.next_mem
        rw [← hyn,List.mem_append,List.mem_singleton] at hm
        rcases hm with hm|hm
        · have hy := (List.nodup_cons.mp hnd').1
          exact hy (List.mem_append_right _ (List.mem_cons_of_mem _ hm))
        · exact he.1 hm.symm
    · exact fun hm => hau (List.mem_cons_of_mem _ hm)

/-- Unlinking a node of a ring. -/
theorem Ring.remove {l : Links α} {head a : α} {ys zs : List α}
    (h : Ring l head (ys++a::zs)) : Ring (l.remove a) head (ys++zs) := by
  obtain ⟨h1,h2⟩ := chain_append.mp h.chain
  obtain ⟨hhead,-⟩ := List.nodup_cons.mp h.nodup
  refine ⟨h1.remove h2 h.nodup hhead,h.nodup.sublist ?_⟩
  exact List.Sublist.cons_cons _ (List.Sublist.append (List.Sublist.refl _)
    (List.sublist_cons_self ..))

/-- The same nodes seen from the other end. -/
def Links.flip (l : Links α) : Links α := ⟨l.next,l.prev⟩

omit [DecidableEq α] in
theorem Chain.flip {l : Links α} {u e : α} {xs : List α} (h : Chain l u xs e) :
    Chain l.flip e xs.reverse u := by
  induction xs generalizing u with
  | nil => exact ⟨h.2,h.1⟩
  | cons x xs ih =>
    rw [List.reverse_cons]
    exact chain_append.mpr ⟨ih h.2.2,h.2.1,h.1⟩

instance decidableChain (l : Links α) : ∀ (u : α) (xs : List α) (e : α),Decidable (Chain l u xs e)
  | u,[],e => inferInstanceAs (Decidable (l.next u=e ∧ l.prev e=u))
  | u,x::xs,e =>
    have := decidableChain l x xs e
    inferInstanceAs (Decidable (l.next u=x ∧ l.prev x=u ∧ Chain l x xs e))

section Family

variable {n : ℕ} {head : ℕ → α} {xs : ℕ → List α} {l : Links α}

/-- Lists with pairwise different nodes in one memory. -/
structure Rings (l : Links α) (n : ℕ) (head : ℕ → α) (xs : ℕ → List α) : Prop where
  /-- Each head has its list. -/
  ring : ∀ k,k<n → Ring l (head k) (xs k)
  /-- No node is in two lists. -/
  apart : ∀ j,j<n → ∀ k,k<n → j≠k → ∀ a∈head j::xs j,a∉head k::xs k

/-- Inserting a node that is in no list. -/
theorem Rings.push (h : Rings l n head xs) {k : ℕ} (hk : k<n) {a : α}
    (ha : ∀ j,j<n → a∉head j::xs j) :
    Rings (l.push (head k) a) n head (Function.update xs k (a::xs k)) := by
  have hnext : l.next (head k)∈head k::xs k := by
    have hm := (h.ring k hk).chain.next_mem
    rw [List.mem_append,List.mem_singleton] at hm
    exact List.mem_cons.mpr hm.symm
  refine ⟨fun j hj => ?_,fun i hi j hj hij b hb hb' => ?_⟩
  · by_cases hjk : j=k
    · rw [hjk,Function.update_self]
      exact (h.ring k hk).push (ha k hk)
    · rw [Function.update_of_ne hjk]
      refine (h.ring j hj).congr (fun b hb => ?_) fun b hb => ?_
      · have hba : b≠a := fun he => ha j hj (he ▸ hb)
        have hbh : b≠head k := fun he =>
          h.apart j hj k hk hjk b hb (he ▸ List.mem_cons_self)
        simp [Links.push,hba,hbh]
      · have hba : b≠a := fun he => ha j hj (he ▸ hb)
        have hbn : b≠l.next (head k) := fun he => h.apart j hj k hk hjk b hb (he ▸ hnext)
        have hak : a≠head k := fun he => ha k hk (he ▸ List.mem_cons_self)
        simp [Links.push,hba,hbn,Ne.symm hak]
  · have hold : ∀ m,m<n → b∈head m::Function.update xs k (a::xs k) m →
        b=a ∧ m=k ∨ b∈head m::xs m := by
      intro m hm hbm
      by_cases hmk : m=k
      · rw [hmk,Function.update_self] at hbm
        rw [hmk]
        simp only [List.mem_cons] at hbm ⊢
        rcases hbm with hbm|hbm|hbm
        · exact .inr (.inl hbm)
        · exact .inl ⟨hbm,trivial⟩
        · exact .inr (.inr hbm)
      · rw [Function.update_of_ne hmk] at hbm
        exact .inr hbm
    rcases hold i hi hb with ⟨rfl,rfl⟩|hbi
    · rcases hold j hj hb' with ⟨-,rfl⟩|hbj
      · exact hij rfl
      · exact ha j hj hbj
    · rcases hold j hj hb' with ⟨rfl,-⟩|hbj
      · exact ha i hi hbi
      · exact h.apart i hi j hj hij b hbi hbj

/-- Unlinking a node of one of the lists. -/
theorem Rings.remove (h : Rings l n head xs) {k : ℕ} (hk : k<n) {a : α} {ys zs : List α}
    (hx : xs k=ys++a::zs) : Rings (l.remove a) n head (Function.update xs k (ys++zs)) := by
  have hring := h.ring k hk
  rw [hx] at hring
  obtain ⟨h1,h2⟩ := chain_append.mp hring.chain
  have hprev : l.prev a∈head k::xs k := by
    rw [hx,← List.cons_append]
    exact List.mem_append_left _ h1.prev_mem
  have hnext : l.next a∈head k::xs k := by
    have hm := h2.next_mem
    rw [List.mem_append,List.mem_singleton] at hm
    rw [hx]
    rcases hm with hm|hm
    · exact List.mem_cons_of_mem _ (List.mem_append_right _ (List.mem_cons_of_mem _ hm))
    · exact hm ▸ List.mem_cons_self
  have hpa : l.prev a≠a := by
    intro hp
    have hm := h1.prev_mem
    rw [hp] at hm
    have hnd := hring.nodup
    rw [← List.cons_append,List.nodup_append] at hnd
    exact hnd.2.2 a hm a List.mem_cons_self rfl
  refine ⟨fun j hj => ?_,fun i hi j hj hij b hb hb' => ?_⟩
  · by_cases hjk : j=k
    · rw [hjk,Function.update_self]
      exact hring.remove
    · rw [Function.update_of_ne hjk]
      refine (h.ring j hj).congr (fun b hb => ?_) fun b hb => ?_
      · have hbp : b≠l.prev a := fun he => h.apart j hj k hk hjk b hb (he ▸ hprev)
        simp [Links.remove,hbp]
      · have hbn : b≠l.next a := fun he => h.apart j hj k hk hjk b hb (he ▸ hnext)
        simp [Links.remove,hbn,Ne.symm hpa]
  · have hold : ∀ m,b∈head m::Function.update xs k (ys++zs) m → b∈head m::xs m := by
      intro m hbm
      by_cases hmk : m=k
      · rw [hmk,Function.update_self] at hbm
        rw [hmk,hx]
        simp only [List.mem_cons,List.mem_append] at hbm ⊢
        rcases hbm with hbm|hbm|hbm
        · exact .inl hbm
        · exact .inr (.inl hbm)
        · exact .inr (.inr (.inr hbm))
      · rwa [Function.update_of_ne hmk] at hbm
    exact h.apart i hi j hj hij b (hold i hb) (hold j hb')

omit [DecidableEq α] in
/-- Memory that agrees on the nodes of the lists holds the same lists. -/
theorem Rings.congr {m : Links α} (h : Rings l n head xs)
    (hm : ∀ k,k<n → ∀ a∈head k::xs k,m.next a=l.next a ∧ m.prev a=l.prev a) :
    Rings m n head xs :=
  ⟨fun k hk => (h.ring k hk).congr (fun a ha => (hm k hk a ha).1) fun a ha => (hm k hk a ha).2,
    h.apart⟩

/-- Inserting nodes that are in no list one after the other. -/
theorem Rings.pushAll (h : Rings l n head xs) {k : ℕ} (hk : k<n) (as : List α) (hnd : as.Nodup)
    (ha : ∀ a∈as,∀ j,j<n → a∉head j::xs j) :
    Rings (as.foldl (fun l a => l.push (head k) a) l) n head
      (Function.update xs k (as.reverse++xs k)) := by
  induction as generalizing l xs with
  | nil =>
    rw [List.reverse_nil,List.nil_append,Function.update_eq_self]
    exact h
  | cons a as ih =>
    obtain ⟨hmem,hnd'⟩ := List.nodup_cons.mp hnd
    have hrec := ih (h.push hk (ha a List.mem_cons_self)) hnd' fun b hb j hj hbj => ?_
    · rw [Function.update_self,Function.update_idem] at hrec
      rw [List.foldl_cons,List.reverse_cons,List.append_assoc]
      exact hrec
    · refine ha b (List.mem_cons_of_mem _ hb) j hj ?_
      by_cases hjk : j=k
      · rw [hjk,Function.update_self,List.mem_cons,List.mem_cons] at hbj
        rw [hjk,List.mem_cons]
        have hba : b≠a := fun he => hmem (he ▸ hb)
        exact hbj.imp_right fun hor => hor.resolve_left hba
      · rwa [Function.update_of_ne hjk] at hbj

theorem next_prev_init (l : Links α) (head : ℕ → α) (n k : ℕ) (hk : k<n) :
    ((List.range n).foldl (fun l i => l.init (head i)) l).next (head k)=head k ∧
      ((List.range n).foldl (fun l i => l.init (head i)) l).prev (head k)=head k := by
  induction n with
  | zero => omega
  | succ n ih =>
    rw [List.range_succ,List.foldl_append,List.foldl_cons,List.foldl_nil]
    simp only [Links.init]
    by_cases heq : head k=head n
    · rw [heq,Function.update_self,Function.update_self]
      exact ⟨rfl,rfl⟩
    · rw [Function.update_of_ne heq,Function.update_of_ne heq]
      have hkn : k≠n := fun he => heq (by rw [he])
      exact ih (by omega)

/-- Initialised heads have empty lists. -/
theorem rings_init (l : Links α) {head : ℕ → α} (n : ℕ)
    (hinj : ∀ j,j<n → ∀ k,k<n → j≠k → head j≠head k) :
    Rings ((List.range n).foldl (fun l i => l.init (head i)) l) n head fun _ => [] := by
  refine ⟨fun k hk => ⟨next_prev_init l head n k hk,List.pairwise_singleton _ _⟩,?_⟩
  intro j hj k hk hjk a ha
  rw [List.mem_singleton] at ha ⊢
  rw [ha]
  exact hinj j hj k hk hjk

end Family

end Xv6Rust.IntrusiveList
