import Mathlib.Computability.Language

/-!
# Patterns over an alphabet

A pattern is a row of classes of letters, each taken once or any number of times; it may be tied to
the start or to the end of a text. The texts with a match are a language. The rules below take a
letter off a text, as a matcher does that goes back where it fails.
-/

namespace Xv6Rust.Patterns

open scoped Computability

variable {α : Type*}

/-- Texts of one letter, of the class. -/
def letter (p : α → Bool) : Language α := {w | ∃ a,p a=true ∧ w=[a]}

/-- A class that is taken once or any number of times. -/
inductive Piece (α : Type*) where
  | once (p : α → Bool)
  | star (p : α → Bool)

/-- What a part stands for. -/
def Piece.lang : Piece α → Language α
  | .once p => letter p
  | .star p => (letter p)∗

/-- A row of parts, which may be tied to the ends of a text. -/
structure Pattern (α : Type*) where
  atStart : Bool
  parts : List (Piece α)
  atEnd : Bool

/-- The texts with a match at their start. -/
def Pattern.here (m : Pattern α) : Language α :=
  (m.parts.map Piece.lang).prod*if m.atEnd=true then 1 else ⊤

/-- The texts with a match. -/
def Pattern.lang (m : Pattern α) : Language α := (if m.atStart=true then 1 else ⊤)*m.here

section Letters

variable {p : α → Bool} {L : Language α} {a : α} {t : List α}

theorem nil_notMem_letter_mul : []∉letter p*L := by
  intro h
  obtain ⟨u,⟨a,-,rfl⟩,v,-,huv⟩ := Language.mem_mul.mp h
  exact List.cons_ne_nil _ _ huv

theorem cons_mem_letter_mul : a::t∈letter p*L ↔ p a=true ∧ t∈L := by
  rw [Language.mem_mul]
  constructor
  · rintro ⟨u,⟨b,hb,rfl⟩,v,hv,huv⟩
    rw [List.singleton_append,List.cons.injEq] at huv
    rw [← huv.1,← huv.2]
    exact ⟨hb,hv⟩
  · rintro ⟨ha,ht⟩
    exact ⟨[a],⟨a,ha,rfl⟩,t,ht,rfl⟩

/-- A row of letters is empty or begins with one. -/
theorem star_mul_eq (p : α → Bool) (L : Language α) :
    (letter p)∗*L=L+letter p*((letter p)∗*L) := by
  conv_lhs => rw [← Language.one_add_self_mul_kstar_eq_kstar,add_mul,one_mul,mul_assoc]

theorem nil_mem_star_mul : []∈(letter p)∗*L ↔ []∈L := by
  rw [star_mul_eq,Language.mem_add]
  exact or_iff_left nil_notMem_letter_mul

theorem cons_mem_star_mul : a::t∈(letter p)∗*L ↔ a::t∈L ∨ p a=true ∧ t∈(letter p)∗*L := by
  rw [star_mul_eq,Language.mem_add,cons_mem_letter_mul,← star_mul_eq]

/-- Every text is a row of arbitrary letters. -/
theorem star_all : (letter fun _ : α => true)∗=⊤ := by
  refine Language.ext fun w => iff_of_true ?_ trivial
  rw [← mul_one (letter _)∗]
  induction w with
  | nil => exact nil_mem_star_mul.mpr Language.nil_mem_one
  | cons a w ih => exact cons_mem_star_mul.mpr (.inr ⟨rfl,ih⟩)

/-- A loop that tries the rest of a pattern at a place and goes on over a letter of the class. -/
theorem loop_iff {here loop : List α → Bool} (hhere : ∀ t,here t=true ↔ t∈L)
    (hnil : loop []=here []) (hcons : ∀ a t,loop (a::t)=(here (a::t) || (p a && loop t)))
    (t : List α) : loop t=true ↔ t∈(letter p)∗*L := by
  induction t with
  | nil => rw [hnil,hhere,nil_mem_star_mul]
  | cons a t ih => rw [hcons,Bool.or_eq_true,Bool.and_eq_true,hhere,ih,cons_mem_star_mul]

end Letters

section Rows

variable {s e : Bool} {ps : List (Piece α)} {t : List α}

theorem here_free : t∈(⟨s,[],false⟩ : Pattern α).here := by
  rw [Pattern.here,List.map_nil,List.prod_nil,one_mul]
  exact trivial

theorem here_atEnd : t∈(⟨s,[],true⟩ : Pattern α).here ↔ t=[] := by
  rw [Pattern.here,List.map_nil,List.prod_nil,one_mul]
  exact Language.mem_one t

theorem here_cons (part : Piece α) :
    (⟨s,part::ps,e⟩ : Pattern α).here=part.lang*(⟨s,ps,e⟩ : Pattern α).here := by
  rw [Pattern.here,List.map_cons,List.prod_cons,mul_assoc,Pattern.here]

theorem lang_atStart : (⟨true,ps,e⟩ : Pattern α).lang=(⟨true,ps,e⟩ : Pattern α).here := by
  rw [Pattern.lang,if_pos rfl,one_mul]

theorem lang_free :
    (⟨false,ps,e⟩ : Pattern α).lang=(letter fun _ => true)∗*(⟨false,ps,e⟩ : Pattern α).here := by
  rw [Pattern.lang,if_neg Bool.false_ne_true,star_all]

end Rows

end Xv6Rust.Patterns
