import Mathlib

/-!
# Command lines

The language that the shell of `user/sh.c` reads. A text is a row of tokens: symbols, and words of
other characters. A line is a row of tokens: pipelines, each of which may be sent to the
background, with semicolons between them; a pipeline is commands with bars between them; a command
is a line in parentheses with redirections behind it, or words with redirections among them.
-/

namespace Xv6Rust.ShellSyntax

/-- Bytes of a text. -/
abbrev Text := List UInt8

/-- A token. -/
inductive Lexeme where
  | bar
  | lparen
  | rparen
  | semi
  | amp
  | lt
  | gt
  | append
  | word (w : Text)
  deriving DecidableEq

/-- Space, tab, carriage return, line feed and vertical tab. -/
def isSpace (c : UInt8) : Bool := c∈([0x20,0x09,0x0d,0x0a,0x0b] : List UInt8)

/-- The token that begins with such a character, if that is not a part of a word. -/
def symbol (c : UInt8) : Option Lexeme :=
  if c=0x7c then some .bar
  else if c=0x28 then some .lparen
  else if c=0x29 then some .rparen
  else if c=0x3b then some .semi
  else if c=0x26 then some .amp
  else if c=0x3c then some .lt
  else if c=0x3e then some .gt
  else none

/-- A character of words. -/
def plain (c : UInt8) : Bool := !isSpace c && (symbol c).isNone

/-- The tokens of a text. -/
def tokens : Text → List Lexeme
  | [] => []
  | c::cs =>
    if isSpace c=true then tokens cs
    else
      match symbol c with
      | none => .word (c::cs.takeWhile plain)::tokens (cs.dropWhile plain)
      | some .gt => if cs.head?=some 0x3e then .append::tokens cs.tail else .gt::tokens cs
      | some k => k::tokens cs
termination_by l => l.length
decreasing_by
  all_goals simp only [List.length_cons]
  · omega
  · exact Nat.lt_succ_of_le (List.length_dropWhile_le _ _)
  · exact Nat.lt_succ_of_le (by simp)
  · omega
  · omega

/-- A redirection: `open` of the file with the mode gives the descriptor. -/
structure Redir (σ : Type) where
  file : σ
  mode : ℕ
  fd : ℕ

/-- `struct cmd`, with strings of any kind. -/
inductive Cmd (σ : Type) where
  | exec (argv : List σ)
  | redir (cmd : Cmd σ) (file : σ) (mode fd : ℕ)
  | pipe (left right : Cmd σ)
  | list (left right : Cmd σ)
  | back (cmd : Cmd σ)
  deriving DecidableEq

variable {σ ρ : Type}

/-- Replace the strings of a redirection. -/
def Redir.map (f : σ → ρ) (r : Redir σ) : Redir ρ := ⟨f r.file,r.mode,r.fd⟩

/-- Replace the strings of a command. -/
def Cmd.map (f : σ → ρ) : Cmd σ → Cmd ρ
  | .exec argv => .exec (argv.map f)
  | .redir c file mode fd => .redir (c.map f) (f file) mode fd
  | .pipe l r => .pipe (l.map f) (r.map f)
  | .list l r => .list (l.map f) (r.map f)
  | .back c => .back (c.map f)

/-- Put redirections around a command, the first innermost. -/
def Cmd.wrap (c : Cmd σ) (rs : List (Redir σ)) : Cmd σ :=
  rs.foldl (fun c r => .redir c r.file r.mode r.fd) c

/-- Send a command to the background some times. -/
def Cmd.backs (c : Cmd σ) : ℕ → Cmd σ
  | 0 => c
  | k+1 => .back (c.backs k)

/-- `MAXARGS` -/
def maxArgs : ℕ := 10

/-- There is room for the arguments and the null pointer behind them. -/
def Cmd.Fits : Cmd σ → Prop
  | .exec argv => argv.length < maxArgs
  | .redir c _ _ _ => c.Fits
  | .pipe l r => l.Fits ∧ r.Fits
  | .list l r => l.Fits ∧ r.Fits
  | .back c => c.Fits

/-- The strings of a command. -/
def Cmd.strings : Cmd σ → List σ
  | .exec argv => argv
  | .redir c file _ _ => c.strings++[file]
  | .pipe l r => l.strings++r.strings
  | .list l r => l.strings++r.strings
  | .back c => c.strings

/-- `O_RDONLY` -/
def rdOnly : ℕ := 0

/-- `O_WRONLY|O_CREATE` -/
def wrCreate : ℕ := 0x201

/-- `O_WRONLY|O_CREATE|O_TRUNC` -/
def wrCreateTrunc : ℕ := 0x601

/-- The redirection that a symbol stands for. -/
def redirOf (file : σ) : Lexeme → Option (Redir σ)
  | .lt => some ⟨file,rdOnly,0⟩
  | .gt => some ⟨file,wrCreateTrunc,1⟩
  | .append => some ⟨file,wrCreate,1⟩
  | _ => none

/-- A row of redirections. -/
inductive Redirs : List Lexeme → List (Redir Text) → Prop where
  | nil : Redirs [] []
  | cons {op : Lexeme} {w : Text} {ts : List Lexeme} {r : Redir Text} {rs : List (Redir Text)}
      (first : redirOf w op=some r) (rest : Redirs ts rs) : Redirs (op::.word w::ts) (r::rs)

/-- Words, each with redirections behind it. -/
inductive Args : List Lexeme → List Text → List (Redir Text) → Prop where
  | nil : Args [] [] []
  | cons {w : Text} {us ts : List Lexeme} {argv : List Text} {qs rs : List (Redir Text)}
      (redirs : Redirs us qs) (rest : Args ts argv rs) :
      Args (.word w::(us++ts)) (w::argv) (qs++rs)

/-- What a row of tokens can be. -/
inductive Phrase where
  | line
  | pipe
  | exec
  deriving DecidableEq

/-- The rules of the language. -/
inductive Derives : Phrase → List Lexeme → Cmd Text → Prop where
  /-- Words and redirections. -/
  | simple {us ts : List Lexeme} {argv : List Text} {qs rs : List (Redir Text)}
      (redirs : Redirs us qs) (args : Args ts argv rs) :
      Derives .exec (us++ts) ((Cmd.exec argv).wrap (qs++rs))
  /-- A line in parentheses. -/
  | block {ts us : List Lexeme} {c : Cmd Text} {rs : List (Redir Text)} (line : Derives .line ts c)
      (redirs : Redirs us rs) : Derives .exec (.lparen::(ts++.rparen::us)) (c.wrap rs)
  /-- The last command of a pipeline. -/
  | last {ts : List Lexeme} {c : Cmd Text} (exec : Derives .exec ts c) : Derives .pipe ts c
  /-- A pipe. -/
  | pipe {ts us : List Lexeme} {c d : Cmd Text} (left : Derives .exec ts c)
      (right : Derives .pipe us d) : Derives .pipe (ts++.bar::us) (.pipe c d)
  /-- The last pipeline of a line. -/
  | single {ts : List Lexeme} {c : Cmd Text} {k : ℕ} (pipe : Derives .pipe ts c) :
      Derives .line (ts++List.replicate k .amp) (c.backs k)
  /-- Pipelines one after the other. -/
  | list {ts us : List Lexeme} {c d : Cmd Text} {k : ℕ} (left : Derives .pipe ts c)
      (right : Derives .line us d) :
      Derives .line (ts++(List.replicate k .amp++.semi::us)) (.list (c.backs k) d)

section Commands

variable (f : σ → ρ)

theorem map_wrap (c : Cmd σ) (rs : List (Redir σ)) :
    (c.wrap rs).map f=(c.map f).wrap (rs.map (Redir.map f)) := by
  induction rs generalizing c with
  | nil => rfl
  | cons r rs ih =>
    rw [Cmd.wrap,List.foldl_cons,← Cmd.wrap,ih]
    rfl

theorem map_backs (c : Cmd σ) (k : ℕ) : (c.backs k).map f=(c.map f).backs k := by
  induction k with
  | zero => rfl
  | succ k ih => rw [Cmd.backs,Cmd.map,ih,Cmd.backs]

theorem backs_back (c : Cmd σ) (k : ℕ) : (Cmd.back c).backs k=c.backs (k+1) := by
  induction k with
  | zero => rfl
  | succ k ih => rw [Cmd.backs,ih,Cmd.backs,Cmd.backs,Cmd.backs]

variable {c : Cmd σ}

theorem fits_wrap (rs : List (Redir σ)) : (c.wrap rs).Fits ↔ c.Fits := by
  induction rs generalizing c with
  | nil => rfl
  | cons r rs ih =>
    rw [Cmd.wrap,List.foldl_cons,← Cmd.wrap,ih]
    rfl

theorem fits_backs (k : ℕ) : (c.backs k).Fits ↔ c.Fits := by
  induction k with
  | zero => rfl
  | succ k ih => exact ih

theorem fits_map : (c.map f).Fits ↔ c.Fits := by
  induction c with
  | exec argv => simp [Cmd.map,Cmd.Fits]
  | redir c file mode fd ih => exact ih
  | pipe l r hl hr => exact and_congr hl hr
  | list l r hl hr => exact and_congr hl hr
  | back c ih => exact ih

theorem mem_strings_wrap {x : σ} (rs : List (Redir σ)) :
    x∈(c.wrap rs).strings ↔ x∈c.strings ∨ ∃ r∈rs,r.file=x := by
  induction rs generalizing c with
  | nil => simp [Cmd.wrap]
  | cons r rs ih =>
    rw [Cmd.wrap,List.foldl_cons,← Cmd.wrap,ih]
    simp [Cmd.strings,or_assoc,eq_comm]

theorem strings_backs (k : ℕ) : (c.backs k).strings=c.strings := by
  induction k with
  | zero => rfl
  | succ k ih => exact ih

/-- Strings that agree make the same command. -/
theorem map_congr {f g : σ → ρ} (h : ∀ x∈c.strings,f x=g x) : c.map f=c.map g := by
  induction c with
  | exec argv => exact congrArg Cmd.exec (List.map_congr_left h)
  | redir c file mode fd ih =>
    rw [Cmd.map,Cmd.map,ih fun x hx => h x (by simp [Cmd.strings,hx]),
      h file (by simp [Cmd.strings])]
  | pipe l r hl hr =>
    rw [Cmd.map,Cmd.map,hl fun x hx => h x (by simp [Cmd.strings,hx]),
      hr fun x hx => h x (by simp [Cmd.strings,hx])]
  | list l r hl hr =>
    rw [Cmd.map,Cmd.map,hl fun x hx => h x (by simp [Cmd.strings,hx]),
      hr fun x hx => h x (by simp [Cmd.strings,hx])]
  | back c ih => rw [Cmd.map,Cmd.map,ih h]

end Commands

section Tokens

variable {c : UInt8} {cs : Text}

theorem tokens_space (h : isSpace c=true) : tokens (c::cs)=tokens cs := by
  rw [tokens,if_pos h]

theorem tokens_dropWhile (l : Text) : tokens (l.dropWhile isSpace)=tokens l := by
  induction l with
  | nil => rfl
  | cons c cs ih =>
    rw [List.dropWhile_cons]
    split
    · rename_i h
      rw [ih,tokens_space h]
    · rfl

/-- There is a byte for each token. -/
theorem length_tokens_le (l : Text) : (tokens l).length≤l.length := by
  fun_induction tokens l with
  | case1 => simp
  | case2 c cs hs ih => exact Nat.le_succ_of_le ih
  | case3 c cs hs hn ih =>
    rw [List.length_cons,List.length_cons]
    exact Nat.succ_le_succ (ih.trans (List.length_dropWhile_le _ _))
  | case4 c cs hs hn hh ih =>
    rw [List.length_cons,List.length_cons]
    exact Nat.succ_le_succ (ih.trans (by simp))
  | case5 c cs hs hn hh ih => exact Nat.succ_le_succ ih
  | case6 c cs hs k hk hn ih => exact Nat.succ_le_succ ih

end Tokens

end Xv6Rust.ShellSyntax
