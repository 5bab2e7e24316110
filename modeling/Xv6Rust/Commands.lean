import Mathlib

/-!
# Commands with choices and loops

Commands over arbitrary actions: sequence, a choice that data outside the
command decides, and a loop that such data ends. A thread is the list of the
commands it has left. An effect says how an action changes a flag of the thread
and which actions the flag allows; it lifts to commands, and what is left of a
command that passes it still passes it after every step.
-/

namespace Xv6Rust.Commands

/-- Commands over actions. -/
inductive Cmd (A : Type*) where
  /-- Nothing. -/
  | skip
  /-- One action. -/
  | act (a : A)
  /-- One after the other. -/
  | seq (c d : Cmd A)
  /-- One of the two. -/
  | alt (c d : Cmd A)
  /-- Any number of times. -/
  | loop (c : Cmd A)
  deriving DecidableEq

variable {A β : Type*}

/-- A list of commands, one after the other. -/
def block : List (Cmd A) → Cmd A
  | [] => .skip
  | c::cs => .seq c (block cs)

/-- What a thread has left when a command is put before it, down to the first action, choice or
loop of every sequence. -/
def flat : Cmd A → List (Cmd A) → List (Cmd A)
  | .skip,rest => rest
  | .act a,rest => .act a::rest
  | .seq c d,rest => flat c (flat d rest)
  | .alt c d,rest => .alt c d::rest
  | .loop c,rest => .loop c::rest

/-- One step of control: which branch is taken, and whether a loop goes on. Nothing is left to
control when an action is next. -/
def unfold : List (Cmd A) → Bool → Option (List (Cmd A))
  | .skip::rest,_ => some rest
  | .seq c d::rest,_ => some (flat c (flat d rest))
  | .alt c d::rest,b => some (flat (if b=true then c else d) rest)
  | .loop c::rest,b => some (if b=true then flat c (.loop c::rest) else rest)
  | _,_ => none

section Effect

variable [DecidableEq β] (f : A → β → Option β)

/-- The flag after a command, if every action on every path is allowed and the branches agree. -/
def flow : Cmd A → β → Option β
  | .skip,b => some b
  | .act a,b => f a b
  | .seq c d,b => (flow c b).bind (flow d)
  | .alt c d,b => if flow c b=flow d b then flow c b else none
  | .loop c,b => if flow c b=some b then some b else none

/-- The flag after the commands that are left. -/
def flowAll : List (Cmd A) → β → Option β
  | [],b => some b
  | c::rest,b => (flow f c b).bind (flowAll rest)

variable {f}

/-- The first action that is left is allowed, and the rest passes with the flag it gives. -/
theorem flowAll_act {a : A} {rest : List (Cmd A)} {b x : β}
    (h : flowAll f (.act a::rest) b=some x) :
    ∃ b',f a b=some b' ∧ flowAll f rest b'=some x := by
  rw [flowAll,flow] at h
  cases hf : f a b with
  | none =>
    rw [hf] at h
    cases h
  | some b' =>
    rw [hf] at h
    exact ⟨b',rfl,h⟩

/-- A command that is put before the others takes its effect first. -/
theorem flowAll_flat (c : Cmd A) (rest : List (Cmd A)) (b : β) :
    flowAll f (flat c rest) b=(flow f c b).bind (flowAll f rest) := by
  induction c generalizing rest b with
  | skip => rfl
  | act a => rfl
  | seq c d hc hd =>
    rw [flat,hc,flow,Option.bind_assoc]
    congr 1
    funext b'
    exact hd rest b'
  | alt c d => rfl
  | loop c => rfl

/-- A step of control keeps what is left in order. -/
theorem flowAll_unfold {rest rest' : List (Cmd A)} {b x : β} {choice : Bool}
    (h : flowAll f rest b=some x) (hs : unfold rest choice=some rest') :
    flowAll f rest' b=some x := by
  cases rest with
  | nil => cases hs
  | cons c rest =>
    cases c with
    | skip =>
      cases hs
      exact h
    | act a => cases hs
    | seq c d =>
      cases hs
      rw [flowAll,← flowAll_flat] at h
      exact h
    | alt c d =>
      cases hs
      rw [flowAll,flow] at h
      rw [flowAll_flat]
      split at h
      · rename_i he
        cases choice with
        | true => exact h
        | false =>
          rw [he] at h
          exact h
      · cases h
    | loop c =>
      cases hs
      rw [flowAll,flow] at h
      split at h
      · rename_i he
        cases choice with
        | true =>
          change flowAll f (flat c (.loop c::rest)) b=some x
          rw [flowAll_flat,he,Option.bind_some,flowAll,flow,if_pos he]
          exact h
        | false => exact h
      · cases h

end Effect

end Xv6Rust.Commands
