import Mathlib

/-!
# Radix tables

A table of `n` levels above its leaves holds at each position an optional table of
the level below, and a leaf table holds values. A key selects one position a level
by its digits. A lookup ends early at a missing table. Creation of the tables on the
path of a key takes one unit of a supply for each missing table, from the top down,
and stops when the supply is used up. The rules relate lookups after a store or a
creation to lookups before it.
-/

namespace Xv6Rust.RadixTable

/-- The digit of a key that selects the position at a level. -/
def digit (fan n key : ℕ) : ℕ := key/fan^n%fan

/-- Tables with `n` levels above the leaves. -/
def Table (α : Type) : ℕ → Type
  | 0 => ℕ → α
  | n+1 => ℕ → Option (Table α n)

variable {α β : Type}

namespace Table

/-- The value at a position of a leaf table. -/
def leaf (t : Table α 0) (d : ℕ) : α := t d

/-- Store a value at a position of a leaf table. -/
def putLeaf (t : Table α 0) (d : ℕ) (a : α) : Table α 0 := fun i => if i=d then a else t.leaf i

/-- The table below a position. -/
def sub {n : ℕ} (t : Table α (n+1)) (d : ℕ) : Option (Table α n) := t d

/-- Put a table below a position. -/
def putSub {n : ℕ} (t : Table α (n+1)) (d : ℕ) (s : Table α n) : Table α (n+1) :=
  fun i => if i=d then some s else t.sub i

/-- A fresh table: no tables below it, or the zero value at every leaf. -/
def empty (zero : α) : (n : ℕ) → Table α n
  | 0 => fun _ => zero
  | _+1 => fun _ => none

theorem leaf_putLeaf (t : Table α 0) (d : ℕ) (a : α) (i : ℕ) :
    (t.putLeaf d a).leaf i=if i=d then a else t.leaf i := rfl

theorem sub_putSub {n : ℕ} (t : Table α (n+1)) (d : ℕ) (s : Table α n) (i : ℕ) :
    (t.putSub d s).sub i=if i=d then some s else t.sub i := rfl

end Table

/-- The leaf of a key, if all tables on its path are present. -/
def find (fan : ℕ) : {n : ℕ} → Table α n → ℕ → Option α
  | 0,t,key => some (t.leaf (digit fan 0 key))
  | n+1,t,key =>
    match t.sub (digit fan (n+1) key) with
    | none => none
    | some sub => find fan sub key

/-- Store a leaf; nothing is stored when a table on the path is missing. -/
def set (fan : ℕ) : {n : ℕ} → Table α n → ℕ → α → Table α n
  | 0,t,key,a => t.putLeaf (digit fan 0 key) a
  | n+1,t,key,a =>
    match t.sub (digit fan (n+1) key) with
    | none => t
    | some sub => t.putSub (digit fan (n+1) key) (set fan sub key a)

/-- Number of tables missing on the path of a key. -/
def missing (fan : ℕ) : {n : ℕ} → Table α n → ℕ → ℕ
  | 0,_,_ => 0
  | n+1,t,key =>
    match t.sub (digit fan (n+1) key) with
    | none => n+1
    | some sub => missing fan sub key

/-- Create the tables on the path of a key from a supply. The result has the new
table, the supply left, and whether the leaf was reached. -/
def create (fan : ℕ) (zero : α) : {n : ℕ} → Table α n → ℕ → List β → Table α n×List β×Bool
  | 0,t,_,supply => (t,supply,true)
  | n+1,t,key,supply =>
    match t.sub (digit fan (n+1) key) with
    | some sub =>
      let r := create fan zero sub key supply
      (t.putSub (digit fan (n+1) key) r.1,r.2)
    | none =>
      match supply with
      | [] => (t,[],false)
      | _::supply =>
        let r := create fan zero (Table.empty zero n) key supply
        (t.putSub (digit fan (n+1) key) r.1,r.2)

/-- All tables on the path of a key present. -/
def grow (fan : ℕ) (zero : α) : {n : ℕ} → Table α n → ℕ → Table α n
  | 0,t,_ => t
  | n+1,t,key => t.putSub (digit fan (n+1) key)
      (grow fan zero ((t.sub (digit fan (n+1) key)).getD (Table.empty zero n)) key)

/-- Number of tables missing on the paths of some keys, which are created one after another. -/
def missingAll (fan : ℕ) (zero : α) {n : ℕ} : Table α n → List ℕ → ℕ
  | _,[] => 0
  | t,key::keys => missing fan t key+missingAll fan zero (grow fan zero t key) keys

/-- The leaf of a key, or the zero value when a table on its path is missing. -/
def entry (fan : ℕ) (zero : α) {n : ℕ} (t : Table α n) (key : ℕ) : α := (find fan t key).getD zero

variable {fan n : ℕ} {zero : α}

/-- Keys with equal digits are the keys that agree modulo the size of the table. -/
theorem mod_pow_eq_iff (n k k' : ℕ) :
    k%fan^(n+1)=k'%fan^(n+1) ↔ digit fan n k=digit fan n k' ∧ k%fan^n=k'%fan^n := by
  constructor
  · intro h
    refine ⟨?_,?_⟩
    · rw [digit,digit,←Nat.mod_mul_right_div_self,←Nat.mod_mul_right_div_self,←pow_succ,h]
    · have hd : fan^n∣fan^(n+1) := pow_dvd_pow fan (Nat.le_succ n)
      rw [←Nat.mod_mod_of_dvd k hd,h,Nat.mod_mod_of_dvd k' hd]
  · rintro ⟨h1,h2⟩
    rw [Nat.mod_pow_succ,Nat.mod_pow_succ,h2]
    rw [digit,digit] at h1
    rw [h1]

section Lookup

theorem find_none {t : Table α (n+1)} {k : ℕ} (h : t.sub (digit fan (n+1) k)=none) :
    find fan t k=none := by
  rw [find,h]

theorem find_some {t : Table α (n+1)} {sub : Table α n} {k : ℕ}
    (h : t.sub (digit fan (n+1) k)=some sub) : find fan t k=find fan sub k := by
  rw [find,h]

/-- After a table at one position is replaced, lookups through that position go to
the new table and the others are as before. -/
theorem find_putSub (t : Table α (n+1)) (d : ℕ) (sub : Table α n) (k : ℕ) :
    find fan (t.putSub d sub) k=if digit fan (n+1) k=d then find fan sub k else find fan t k := by
  rw [find,Table.sub_putSub]
  by_cases h : digit fan (n+1) k=d
  · rw [if_pos h,if_pos h]
  · rw [if_neg h,if_neg h,find]

/-- Lookups of keys with equal digits agree. -/
theorem find_congr (t : Table α n) {k k' : ℕ} (h : k%fan^(n+1)=k'%fan^(n+1)) :
    find fan t k=find fan t k' := by
  induction n with
  | zero =>
    have hd : digit fan 0 k=digit fan 0 k' := by simpa [digit] using h
    rw [find,find,hd]
  | succ n ih =>
    obtain ⟨hd,hr⟩ := (mod_pow_eq_iff (n+1) k k').mp h
    rw [find,find,hd]
    cases t.sub (digit fan (n+1) k') with
    | none => rfl
    | some sub => exact ih sub hr

/-- A store is seen by exactly the keys that agree with its key. -/
theorem find_set {t : Table α n} {k : ℕ} (a : α) (h : (find fan t k).isSome=true) (k' : ℕ) :
    find fan (set fan t k a) k'=
      if k'%fan^(n+1)=k%fan^(n+1) then some a else find fan t k' := by
  induction n with
  | zero =>
    have hd : k'%fan^(0+1)=k%fan^(0+1) ↔ digit fan 0 k'=digit fan 0 k := by
      simp [digit]
    rw [find,set,Table.leaf_putLeaf]
    by_cases e : digit fan 0 k'=digit fan 0 k
    · rw [if_pos (hd.mpr e),if_pos e]
    · rw [if_neg (fun h => e (hd.mp h)),if_neg e,find]
  | succ n ih =>
    cases ht : t.sub (digit fan (n+1) k) with
    | none =>
      rw [find_none ht] at h
      cases h
    | some sub =>
      rw [find_some ht] at h
      have hs : set fan t k a=t.putSub (digit fan (n+1) k) (set fan sub k a) := by
        rw [set,ht]
      have hd := @mod_pow_eq_iff fan (n+1) k' k
      rw [hs,find_putSub]
      by_cases e : digit fan (n+1) k'=digit fan (n+1) k
      · have hsub : find fan t k'=find fan sub k' := find_some (by rw [e]; exact ht)
        rw [if_pos e,ih h,hsub]
        simp only [hd,e,true_and]
      · rw [if_neg e,if_neg (fun h => e (hd.mp h).1)]

end Lookup

section Creation

theorem entry_empty (k : ℕ) : entry fan zero (Table.empty zero n) k=zero := by
  cases n with
  | zero => rfl
  | succ n => rfl

theorem missing_empty (k : ℕ) : missing fan (Table.empty zero n) k=n := by
  cases n with
  | zero => rfl
  | succ n => rfl

theorem create_some {t : Table α (n+1)} {sub : Table α n} {k : ℕ}
    (h : t.sub (digit fan (n+1) k)=some sub) (supply : List β) :
    create fan zero t k supply=(t.putSub (digit fan (n+1) k) (create fan zero sub k supply).1,
      (create fan zero sub k supply).2) := by
  rw [create.eq_def]
  simp only [h]

theorem create_nil {t : Table α (n+1)} {k : ℕ} (h : t.sub (digit fan (n+1) k)=none) :
    create fan zero t k ([] : List β)=(t,[],false) := by
  rw [create.eq_def]
  simp only [h]

theorem create_cons {t : Table α (n+1)} {k : ℕ} (h : t.sub (digit fan (n+1) k)=none)
    (b : β) (supply : List β) :
    create fan zero t k (b::supply)=(t.putSub (digit fan (n+1) k)
      (create fan zero (Table.empty zero n) k supply).1,
      (create fan zero (Table.empty zero n) k supply).2) := by
  rw [create.eq_def]
  simp only [h]

/-- Creation uses one unit for each missing table, and reaches the leaf exactly when
the supply has that many. -/
theorem create_supply (t : Table α n) (k : ℕ) (supply : List β) :
    (create fan zero t k supply).2=
      (supply.drop (missing fan t k),decide (missing fan t k ≤ supply.length)) := by
  induction n generalizing supply with
  | zero => simp [create,missing]
  | succ n ih =>
    rw [missing]
    cases ht : t.sub (digit fan (n+1) k) with
    | some sub =>
      rw [create_some ht]
      exact ih sub supply
    | none =>
      cases supply with
      | nil => simp [create_nil ht]
      | cons b supply =>
        rw [create_cons ht]
        dsimp only
        rw [ih,missing_empty]
        simp

/-- A creation that reaches the leaf leaves all tables on the path present. -/
theorem create_table {t : Table α n} {k : ℕ} {supply : List β}
    (h : missing fan t k ≤ supply.length) : (create fan zero t k supply).1=grow fan zero t k := by
  induction n generalizing supply with
  | zero => rfl
  | succ n ih =>
    rw [missing] at h
    rw [grow]
    cases ht : t.sub (digit fan (n+1) k) with
    | some sub =>
      rw [ht] at h
      rw [create_some ht,ih h]
      rfl
    | none =>
      rw [ht] at h
      cases supply with
      | nil => simp at h
      | cons b supply =>
        rw [create_cons ht,ih]
        · rfl
        · rw [missing_empty]
          simpa using h

/-- Creation changes no leaf. -/
theorem entry_create (t : Table α n) (k : ℕ) (supply : List β) (k' : ℕ) :
    entry fan zero (create fan zero t k supply).1 k'=entry fan zero t k' := by
  induction n generalizing supply with
  | zero => rfl
  | succ n ih =>
    simp only [entry] at ih ⊢
    cases ht : t.sub (digit fan (n+1) k) with
    | some sub =>
      rw [create_some ht]
      dsimp only
      rw [find_putSub]
      split
      · rename_i e
        have hsub : find fan t k'=find fan sub k' := find_some (by rw [e]; exact ht)
        rw [ih,hsub]
      · rfl
    | none =>
      cases supply with
      | nil => rw [create_nil ht]
      | cons b supply =>
        rw [create_cons ht]
        dsimp only
        rw [find_putSub]
        split
        · rename_i e
          have hsub : find fan t k'=none := find_none (by rw [e]; exact ht)
          rw [ih,hsub]
          exact entry_empty k'
        · rfl

theorem find_grow_isSome (t : Table α n) (k : ℕ) : (find fan (grow fan zero t k) k).isSome=true := by
  induction n with
  | zero => rfl
  | succ n ih =>
    rw [grow,find_putSub,if_pos rfl]
    exact ih _

/-- A creation that reaches the leaf makes its lookup succeed. -/
theorem find_create_self {t : Table α n} {k : ℕ} {supply : List β}
    (h : missing fan t k ≤ supply.length) :
    find fan (create fan zero t k supply).1 k=some (entry fan zero t k) := by
  have hsome : (find fan (create fan zero t k supply).1 k).isSome=true := by
    rw [create_table h]
    exact find_grow_isSome t k
  obtain ⟨a,ha⟩ := Option.isSome_iff_exists.mp hsome
  have he : entry fan zero (create fan zero t k supply).1 k=entry fan zero t k :=
    entry_create t k supply k
  rw [entry,ha] at he
  rw [ha,←he]
  rfl

end Creation

section Shape

/-- The same tables are present. -/
def SameShape : {n : ℕ} → Table α n → Table α n → Prop
  | 0,_,_ => True
  | _+1,t,t' => ∀ d,
    match t.sub d,t'.sub d with
    | none,none => True
    | some s,some s' => SameShape s s'
    | _,_ => False

theorem SameShape.refl (t : Table α n) : SameShape t t := by
  induction n with
  | zero => trivial
  | succ n ih =>
    intro d
    cases t.sub d with
    | none => trivial
    | some s => exact ih s

/-- Tables of the same shape miss the same tables. -/
theorem SameShape.missing_eq {t t' : Table α n} (h : SameShape t t') (k : ℕ) :
    missing fan t k=missing fan t' k := by
  induction n with
  | zero => rfl
  | succ n ih =>
    have hd := h (digit fan (n+1) k)
    rw [missing,missing]
    cases hs : t.sub (digit fan (n+1) k) with
    | none =>
      cases hs' : t'.sub (digit fan (n+1) k) with
      | none => rfl
      | some s' =>
        rw [hs,hs'] at hd
        exact hd.elim
    | some s =>
      cases hs' : t'.sub (digit fan (n+1) k) with
      | none =>
        rw [hs,hs'] at hd
        exact hd.elim
      | some s' =>
        rw [hs,hs'] at hd
        exact ih hd

/-- Replacing tables of the same shape below a position keeps the shape. -/
theorem SameShape.putSub {t t' : Table α (n+1)} {s s' : Table α n} (h : SameShape t t')
    (hs : SameShape s s') (d : ℕ) : SameShape (t.putSub d s) (t'.putSub d s') := by
  intro i
  rw [Table.sub_putSub,Table.sub_putSub]
  by_cases e : i=d
  · rw [if_pos e,if_pos e]
    exact hs
  · rw [if_neg e,if_neg e]
    exact h i

/-- A store keeps the shape. -/
theorem SameShape.set {t t' : Table α n} (h : SameShape t t') (k : ℕ) (a : α) :
    SameShape (RadixTable.set fan t k a) t' := by
  induction n with
  | zero => trivial
  | succ n ih =>
    rw [RadixTable.set]
    cases hs : t.sub (digit fan (n+1) k) with
    | none => exact h
    | some s =>
      have hd := h (digit fan (n+1) k)
      intro i
      rw [Table.sub_putSub]
      by_cases e : i=digit fan (n+1) k
      · rw [if_pos e,e]
        rw [hs] at hd
        cases hs' : t'.sub (digit fan (n+1) k) with
        | none =>
          rw [hs'] at hd
          exact hd.elim
        | some s' =>
          rw [hs'] at hd
          exact ih hd
      · rw [if_neg e]
        exact h i

/-- Creation of a path keeps equality of shapes. -/
theorem SameShape.grow {t t' : Table α n} (h : SameShape t t') (k : ℕ) :
    SameShape (RadixTable.grow fan zero t k) (RadixTable.grow fan zero t' k) := by
  induction n with
  | zero => trivial
  | succ n ih =>
    have hd := h (digit fan (n+1) k)
    rw [RadixTable.grow,RadixTable.grow]
    refine h.putSub (ih ?_) _
    cases hs : t.sub (digit fan (n+1) k) with
    | none =>
      cases hs' : t'.sub (digit fan (n+1) k) with
      | none => exact SameShape.refl _
      | some s' =>
        rw [hs,hs'] at hd
        exact hd.elim
    | some s =>
      cases hs' : t'.sub (digit fan (n+1) k) with
      | none =>
        rw [hs,hs'] at hd
        exact hd.elim
      | some s' =>
        rw [hs,hs'] at hd
        exact hd

theorem SameShape.missingAll_eq {t t' : Table α n} (h : SameShape t t') (ks : List ℕ) :
    missingAll fan zero t ks=missingAll fan zero t' ks := by
  induction ks generalizing t t' with
  | nil => rfl
  | cons k ks ih => rw [missingAll,missingAll,h.missing_eq,ih (h.grow k)]

end Shape

end Xv6Rust.RadixTable
