import Xv6Rust.ShellSyntax
import Xv6Rust.Results

/-!
# The parser of the shell

`parsecmd` of `user/sh.c` and the functions it calls, on a line of text that ends at its first
zero. Pointers into the line are positions. The strings of a command are cut out of the line at the
end, when `nulterminate` puts a zero behind each. The command that the shell then runs is the one
that the rules of the language give for the tokens of the line; a line for which they give none
ends in a panic.

`parseline` and the functions below it call each other; their first argument bounds the depth of
the calls, and the bound of `parsecmd` is never reached. `malloc` has memory for every node of the
command.
-/

namespace Xv6Rust.ShellParse

open ShellSyntax Results

/-- A string of the line: `q` points to its first character, `eq` behind its last. -/
structure Span where
  q : ℕ
  eq : ℕ
  deriving DecidableEq

/-- Why the parser stops. -/
inductive Stop where
  /-- `panic` -/
  | panic (msg : String)
  /-- The bound on calls is reached. -/
  | fuel
  deriving DecidableEq

/-- What `gettoken` returns. -/
inductive Tok where
  /-- 0 -/
  | eof
  | bar
  | lparen
  | rparen
  | semi
  | amp
  | lt
  | gt
  /-- `+` -/
  | append
  /-- `a` -/
  | word
  deriving DecidableEq

/-- `*s`; the line ends with a zero. -/
def char (b : Text) (s : ℕ) : UInt8 := b.getD s 0

/-- `strchr(symbols, c)` -/
def isSymbol (c : UInt8) : Bool := c∈([0x3c,0x7c,0x3e,0x26,0x3b,0x28,0x29] : List UInt8)

/-- `while(s < es && p(*s)) s++`, at most so often. -/
def skipLoop (p : UInt8 → Bool) (b : Text) : ℕ → ℕ → ℕ
  | 0,s => s
  | n+1,s => if s < b.length ∧ p (char b s)=true then skipLoop p b n (s+1) else s

/-- `while(s < es && p(*s)) s++` -/
def skip (p : UInt8 → Bool) (b : Text) (s : ℕ) : ℕ := skipLoop p b (b.length-s) s

/-- A token, its place, and where the next begins. -/
structure Token where
  tok : Tok
  span : Span
  next : ℕ

/-- The switch of `gettoken`: what it returns, and where the token ends. -/
def scan (b : Text) (q : ℕ) : Tok × ℕ :=
  let c := char b q
  if c=0 then (.eof,q)
  else if c=0x7c then (.bar,q+1)
  else if c=0x28 then (.lparen,q+1)
  else if c=0x29 then (.rparen,q+1)
  else if c=0x3b then (.semi,q+1)
  else if c=0x26 then (.amp,q+1)
  else if c=0x3c then (.lt,q+1)
  else if c=0x3e then if char b (q+1)=0x3e then (.append,q+2) else (.gt,q+1)
  else (.word,skip (fun c => !isSpace c && !isSymbol c) b q)

/-- `gettoken` -/
def gettoken (b : Text) (s : ℕ) : Token :=
  let q := skip isSpace b s
  let r := scan b q
  ⟨r.1,⟨q,r.2⟩,skip isSpace b r.2⟩

/-- `peek`; the second part is the new position. -/
def peek (b : Text) (s : ℕ) (toks : List UInt8) : Bool × ℕ :=
  let q := skip isSpace b s
  (char b q≠0 && toks.contains (char b q),q)

/-- The switch of `parseredirs`. -/
def addRedir (rs : List (Redir Span)) (file : Span) : Tok → List (Redir Span)
  | .lt => rs++[⟨file,rdOnly,0⟩]
  | .gt => rs++[⟨file,wrCreateTrunc,1⟩]
  | .append => rs++[⟨file,wrCreate,1⟩]
  | _ => rs

/-- The loop of `parseredirs`, at most so often. -/
def redirLoop (b : Text) : ℕ → List (Redir Span) → ℕ → Except Stop (List (Redir Span) × ℕ)
  | 0,_,_ => .error .fuel
  | n+1,rs,s =>
    let p := peek b s [0x3c,0x3e]
    if p.1=false then .ok (rs,p.2)
    else
      let op := gettoken b p.2
      let file := gettoken b op.next
      if file.tok≠.word then .error (.panic "missing file for redirection")
      else redirLoop b n (addRedir rs file.span op.tok) file.next

/-- `parseredirs`. The redirections are kept apart from the command they go around, whose arguments
may still be missing. -/
def parseredirs (b : Text) (rs : List (Redir Span)) (s : ℕ) : Except Stop (List (Redir Span) × ℕ) :=
  redirLoop b (b.length+1) rs s

/-- The loop of `parseexec`, at most so often. -/
def argLoop (b : Text) : ℕ → List Span → List (Redir Span) → ℕ → Except Stop (Cmd Span × ℕ)
  | 0,_,_,_ => .error .fuel
  | n+1,argv,rs,s =>
    let p := peek b s [0x7c,0x29,0x26,0x3b]
    if p.1=true then .ok ((Cmd.exec argv).wrap rs,p.2)
    else
      let t := gettoken b p.2
      if t.tok=.eof then .ok ((Cmd.exec argv).wrap rs,t.next)
      else if t.tok≠.word then .error (.panic "syntax")
      else if maxArgs≤argv.length+1 then .error (.panic "too many args")
      else do
        let r ← parseredirs b rs t.next
        argLoop b n (argv++[t.span]) r.1 r.2

/-- The loop of `parseline` over `&`, at most so often. -/
def backLoop (b : Text) : ℕ → Cmd Span → ℕ → Except Stop (Cmd Span × ℕ)
  | 0,_,_ => .error .fuel
  | n+1,c,s =>
    let p := peek b s [0x26]
    if p.1=true then backLoop b n (.back c) (gettoken b p.2).next else .ok (c,p.2)

mutual

/-- `parseline` -/
def parseline (b : Text) : ℕ → ℕ → Except Stop (Cmd Span × ℕ)
  | 0,_ => .error .fuel
  | n+1,s => do
    let l ← parsepipe b n s
    let l ← backLoop b (b.length+1) l.1 l.2
    let p := peek b l.2 [0x3b]
    if p.1=true then do
      let r ← parseline b n (gettoken b p.2).next
      .ok (.list l.1 r.1,r.2)
    else .ok (l.1,p.2)
termination_by structural n => n

/-- `parsepipe` -/
def parsepipe (b : Text) : ℕ → ℕ → Except Stop (Cmd Span × ℕ)
  | 0,_ => .error .fuel
  | n+1,s => do
    let l ← parseexec b n s
    let p := peek b l.2 [0x7c]
    if p.1=true then do
      let r ← parsepipe b n (gettoken b p.2).next
      .ok (.pipe l.1 r.1,r.2)
    else .ok (l.1,p.2)
termination_by structural n => n

/-- `parseexec` -/
def parseexec (b : Text) : ℕ → ℕ → Except Stop (Cmd Span × ℕ)
  | 0,_ => .error .fuel
  | n+1,s =>
    let p := peek b s [0x28]
    if p.1=true then parseblock b n p.2
    else do
      let r ← parseredirs b [] p.2
      argLoop b (b.length+1) [] r.1 r.2
termination_by structural n => n

/-- `parseblock` -/
def parseblock (b : Text) : ℕ → ℕ → Except Stop (Cmd Span × ℕ)
  | 0,_ => .error .fuel
  | n+1,s =>
    let p := peek b s [0x28]
    if p.1=false then .error (.panic "parseblock")
    else do
      let l ← parseline b n (gettoken b p.2).next
      let p := peek b l.2 [0x29]
      if p.1=false then .error (.panic "syntax - missing )")
      else do
        let r ← parseredirs b [] (gettoken b p.2).next
        .ok (l.1.wrap r.1,r.2)
termination_by structural n => n

end

/-- `parsecmd` without `nulterminate` -/
def parsecmd (b : Text) : Except Stop (Cmd Span) := do
  let r ← parseline b (4*b.length+4) 0
  let s := (peek b r.2 []).2
  if s≠b.length then .error (.panic "syntax") else .ok r.1

/-- `nulterminate`, on the bytes of the buffer. -/
def nulterminate (buf : Text) : Cmd Span → Text
  | .exec argv => argv.foldl (fun buf sp => buf.set sp.eq 0) buf
  | .redir c file _ _ => (nulterminate buf c).set file.eq 0
  | .pipe l r => nulterminate (nulterminate buf l) r
  | .list l r => nulterminate (nulterminate buf l) r
  | .back c => nulterminate buf c

/-- The string to which a pointer into the buffer points. -/
def cstring (buf : Text) (q : ℕ) : Text := (buf.drop q).takeWhile (· ≠ 0)

/-- The command that `runcmd` gets for a line, with the strings that it finds. -/
def reads (b : Text) : Except Stop (Cmd Text) := do
  let c ← parsecmd b
  .ok (c.map fun sp => cstring (nulterminate (b++[0]) c) sp.q)

section Lexing

variable {b : Text} {s : ℕ} {p : UInt8 → Bool}

theorem symbol_isSome (c : UInt8) : (symbol c).isSome=isSymbol c := by
  simp only [symbol,isSymbol]
  split_ifs <;> simp_all

/-- The words of `gettoken` are those of the language. -/
theorem plain_eq : (fun c => !isSpace c && !isSymbol c)=plain := by
  funext c
  rw [plain,← symbol_isSome,Option.not_isSome]

theorem char_eq {c : UInt8} {cs : Text} (h : b.drop s=c::cs) : char b s=c := by
  have hc : (b.drop s)[0]?=some c := by rw [h]; rfl
  rw [List.getElem?_drop,Nat.add_zero] at hc
  rw [char,List.getD_eq_getElem?_getD,hc,Option.getD_some]

theorem char_end (h : b.drop s=[]) : char b s=0 := by
  rw [char,List.getD_eq_getElem?_getD,List.getElem?_eq_none (List.drop_eq_nil_iff.mp h),
    Option.getD_none]

/-- A loop stops behind the characters of its kind. -/
theorem skipLoop_eq (n : ℕ) (hs : s≤b.length) (hn : b.length-s≤n) :
    skipLoop p b n s=s+((b.drop s).takeWhile p).length := by
  induction n generalizing s with
  | zero =>
    have he : b.drop s=[] := List.drop_eq_nil_iff.mpr (by omega)
    rw [he]
    rfl
  | succ n ih =>
    rw [skipLoop]
    cases hd : b.drop s with
    | nil =>
      have hlen := List.drop_eq_nil_iff.mp hd
      rw [if_neg fun hc => absurd hc.1 (by omega)]
      rfl
    | cons c cs =>
      have hlt : s < b.length := by
        have hlen := congrArg List.length hd
        rw [List.length_drop,List.length_cons] at hlen
        omega
      have htail : b.drop (s+1)=cs := by rw [← List.drop_drop,hd]; rfl
      rw [char_eq hd,List.takeWhile_cons]
      by_cases hc : p c=true
      · rw [if_pos ⟨hlt,hc⟩,if_pos hc,ih hlt (by omega),htail,List.length_cons]
        omega
      · rw [if_neg fun h => hc h.2,if_neg hc]
        rfl

theorem skip_eq (hs : s≤b.length) : skip p b s=s+((b.drop s).takeWhile p).length :=
  skipLoop_eq _ hs (Nat.le_refl _)

theorem skip_le (hs : s≤b.length) : skip p b s≤b.length := by
  have hle := (List.takeWhile_sublist p (l:=b.drop s)).length_le
  rw [List.length_drop] at hle
  rw [skip_eq hs]
  omega

theorem drop_skip (hs : s≤b.length) : b.drop (skip p b s)=(b.drop s).dropWhile p := by
  have happ := congrArg (List.drop ((b.drop s).takeWhile p).length)
    (@List.takeWhile_append_dropWhile _ p (b.drop s))
  rw [List.drop_left] at happ
  rw [skip_eq hs,← List.drop_drop,happ]

/-- The tokens from a position on. -/
structure At (b : Text) (s : ℕ) (ts : List Lexeme) : Prop where
  le : s≤b.length
  tokens : tokens (b.drop s)=ts

variable {ts : List Lexeme} {t : Lexeme}

theorem At.space (h : At b s ts) : At b (skip isSpace b s) ts where
  le := skip_le h.le
  tokens := by
    rw [drop_skip h.le,tokens_dropWhile]
    exact h.tokens

/-- At the end of the line. -/
theorem At.nil (h : At b s []) : skip isSpace b s=b.length := by
  have hd := drop_skip (p:=isSpace) h.le
  have hend : (b.drop s).dropWhile isSpace=[] := by
    have ht := h.tokens
    rw [← tokens_dropWhile] at ht
    cases hl : (b.drop s).dropWhile isSpace with
    | nil => rfl
    | cons c cs =>
      have hc : isSpace c=false := by
        have hh := List.head?_dropWhile_not isSpace (b.drop s)
        rw [hl] at hh
        simpa using hh
      rw [hl,ShellSyntax.tokens,if_neg (by rw [hc]; exact Bool.false_ne_true)] at ht
      split at ht
      · cases ht
      · split at ht <;> cases ht
      · cases ht
  rw [hend] at hd
  exact Nat.le_antisymm (skip_le h.le) (List.drop_eq_nil_iff.mp hd)

/-- Before a token. -/
theorem At.cons (h : At b s (t::ts)) :
    ∃ c cs,b.drop (skip isSpace b s)=c::cs ∧ isSpace c=false ∧
      ShellSyntax.tokens (c::cs)=t::ts := by
  have hd := drop_skip (p:=isSpace) h.le
  have ht := h.tokens
  rw [← tokens_dropWhile] at ht
  cases hl : (b.drop s).dropWhile isSpace with
  | nil =>
    rw [hl,ShellSyntax.tokens] at ht
    cases ht
  | cons c cs =>
    have hh := List.head?_dropWhile_not isSpace (b.drop s)
    rw [hl] at hd ht hh
    exact ⟨c,cs,hd,by simpa using hh,ht⟩

/-- What `gettoken` returns for a token. -/
def ret : Lexeme → Tok
  | .bar => .bar
  | .lparen => .lparen
  | .rparen => .rparen
  | .semi => .semi
  | .amp => .amp
  | .lt => .lt
  | .gt => .gt
  | .append => .append
  | .word _ => .word

/-- The characters of a string of the line. -/
def text (b : Text) (sp : Span) : Text := (b.drop sp.q).take (sp.eq-sp.q)

/-- A string of the line is a whole word. -/
structure Word (b : Text) (sp : Span) : Prop where
  le : sp.eq≤b.length
  nonempty : sp.q < sp.eq
  plain : ∀ c∈text b sp,plain c=true
  stop : sp.eq=b.length ∨ ShellSyntax.plain (char b sp.eq)=false

theorem drop_succ {c : UInt8} {cs : Text} (h : b.drop s=c::cs) : b.drop (s+1)=cs := by
  rw [← List.drop_drop,h]
  rfl

theorem lt_of_drop {c : UInt8} {cs : Text} (h : b.drop s=c::cs) : s < b.length := by
  by_contra hle
  rw [List.drop_eq_nil_iff.mpr (Nat.le_of_not_lt hle)] at h
  cases h

/-- The loop over a word. -/
theorem word_skip {c : UInt8} {cs : Text} (h : b.drop s=c::cs) (hc : plain c=true) :
    text b ⟨s,skip plain b s⟩=c::cs.takeWhile plain ∧
      b.drop (skip plain b s)=cs.dropWhile plain ∧ Word b ⟨s,skip plain b s⟩ := by
  have hlt := lt_of_drop h
  have hle := hlt.le
  have htake : (b.drop s).takeWhile plain=c::cs.takeWhile plain := by
    rw [h,List.takeWhile_cons,if_pos hc]
  have hskip := skip_eq (p:=plain) hle
  have htext : text b ⟨s,skip plain b s⟩=c::cs.takeWhile plain := by
    rw [text,← htake,hskip,Nat.add_sub_cancel_left]
    exact (List.prefix_iff_eq_take.mp (List.takeWhile_prefix plain)).symm
  have hdrop : b.drop (skip plain b s)=cs.dropWhile plain := by
    rw [drop_skip hle,h,List.dropWhile_cons,if_pos hc]
  refine ⟨htext,hdrop,skip_le hle,?_,fun d hd => ?_,?_⟩
  · rw [hskip,htake,List.length_cons]
    exact Nat.lt_add_of_pos_right (Nat.succ_pos _)
  · rw [htext,← htake] at hd
    exact List.mem_takeWhile_imp hd
  · cases hr : cs.dropWhile plain with
    | nil =>
      rw [hr] at hdrop
      exact .inl (Nat.le_antisymm (skip_le hle) (List.drop_eq_nil_iff.mp hdrop))
    | cons d ds =>
      have hh := List.head?_dropWhile_not plain cs
      rw [hr] at hh hdrop
      exact .inr (by rw [char_eq hdrop]; simpa using hh)

/-- The switch of `gettoken` finds the token that begins at its position. -/
theorem scan_spec {c : UInt8} {cs : Text} (h : b.drop s=c::cs) (hspace : isSpace c=false)
    (hc : c≠0) (ht : tokens (c::cs)=t::ts) :
    (scan b s).1=ret t ∧ At b (scan b s).2 ts ∧
      ∀ w,t=.word w → text b ⟨s,(scan b s).2⟩=w ∧ Word b ⟨s,(scan b s).2⟩ := by
  have hlt := lt_of_drop h
  have hone : ∀ us,tokens cs=us → At b (s+1) us :=
    fun us hus => ⟨hlt,by rw [drop_succ h]; exact hus⟩
  rw [tokens,if_neg (by rw [hspace]; exact Bool.false_ne_true)] at ht
  simp only [scan,char_eq h,if_neg hc,plain_eq]
  by_cases h1 : c=0x7c
  · subst h1
    cases ht
    exact ⟨rfl,hone _ rfl,fun w hw => by cases hw⟩
  by_cases h2 : c=0x28
  · subst h2
    cases ht
    exact ⟨rfl,hone _ rfl,fun w hw => by cases hw⟩
  by_cases h3 : c=0x29
  · subst h3
    cases ht
    exact ⟨rfl,hone _ rfl,fun w hw => by cases hw⟩
  by_cases h4 : c=0x3b
  · subst h4
    cases ht
    exact ⟨rfl,hone _ rfl,fun w hw => by cases hw⟩
  by_cases h5 : c=0x26
  · subst h5
    cases ht
    exact ⟨rfl,hone _ rfl,fun w hw => by cases hw⟩
  by_cases h6 : c=0x3c
  · subst h6
    cases ht
    exact ⟨rfl,hone _ rfl,fun w hw => by cases hw⟩
  by_cases h7 : c=0x3e
  · subst h7
    have hsym : symbol 0x3e=some .gt := rfl
    rw [hsym] at ht
    simp only [h1,h2,h3,h4,h5,h6,if_false,if_true]
    cases hcs : cs with
    | nil =>
      subst hcs
      have hend : char b (s+1)=0 := char_end (drop_succ h)
      rw [hend,if_neg (by decide)]
      cases ht
      exact ⟨rfl,hone _ rfl,fun w hw => by cases hw⟩
    | cons d ds =>
      subst hcs
      rw [char_eq (drop_succ h)]
      simp only [List.head?_cons,Option.some.injEq,List.tail_cons] at ht
      by_cases hd : d=0x3e
      · rw [if_pos hd] at ht
        rw [if_pos hd]
        cases ht
        refine ⟨rfl,⟨lt_of_drop (drop_succ h),?_⟩,fun w hw => by cases hw⟩
        rw [drop_succ (drop_succ h)]
      · rw [if_neg hd] at ht
        rw [if_neg hd]
        cases ht
        exact ⟨rfl,hone _ rfl,fun w hw => by cases hw⟩
  have hnone : symbol c=none := by simp [symbol,h1,h2,h3,h4,h5,h6,h7]
  have hplain : plain c=true := by simp [plain,hspace,hnone]
  obtain ⟨htext,hdrop,hword⟩ := word_skip h hplain
  rw [hnone] at ht
  simp only [h1,h2,h3,h4,h5,h6,h7,if_false]
  cases ht
  refine ⟨rfl,⟨skip_le hlt.le,by rw [hdrop]⟩,?_⟩
  rintro w ⟨⟩
  exact ⟨htext,hword⟩

/-- `gettoken` takes the first token. -/
theorem gettoken_cons (hb : 0∉b) (h : At b s (t::ts)) :
    (gettoken b s).tok=ret t ∧ At b (gettoken b s).next ts ∧
      ∀ w,t=.word w → text b (gettoken b s).span=w ∧ Word b (gettoken b s).span := by
  obtain ⟨c,cs,hd,hspace,ht⟩ := h.cons
  have hc : c≠0 := by
    rintro rfl
    exact hb (List.mem_of_mem_drop (hd ▸ List.mem_cons_self ..))
  obtain ⟨htok,hat,hword⟩ := scan_spec hd hspace hc ht
  exact ⟨htok,hat.space,hword⟩

/-- At the end of the line `gettoken` returns 0. -/
theorem gettoken_nil (h : At b s []) : (gettoken b s).tok=.eof ∧ At b (gettoken b s).next [] := by
  have hq := h.nil
  have hc : char b b.length=0 := char_end (List.drop_length ..)
  have hscan : scan b b.length=(.eof,b.length) := by
    simp only [scan,hc,if_true]
  have hat : At b b.length [] := ⟨Nat.le_refl _,by rw [List.drop_length,tokens]⟩
  simp only [gettoken,hq,hscan,true_and]
  exact hat.space

/-- The first character of a token; that of words is `a`, for `gettoken` returns it. -/
def first : Lexeme → UInt8
  | .bar => 0x7c
  | .lparen => 0x28
  | .rparen => 0x29
  | .semi => 0x3b
  | .amp => 0x26
  | .lt => 0x3c
  | .gt => 0x3e
  | .append => 0x3e
  | .word _ => 0x61

/-- The next token begins with one of these characters. -/
def begins (toks : List UInt8) : List Lexeme → Bool
  | [] => false
  | t::_ => toks.contains (first t)

/-- `peek` tells whether the next token begins with one of some symbols. -/
theorem peek_spec (hb : 0∉b) (h : At b s ts) {toks : List UInt8}
    (htoks : toks.all isSymbol=true) :
    (peek b s toks).1=begins toks ts ∧ At b (peek b s toks).2 ts := by
  refine ⟨?_,h.space⟩
  cases ts with
  | nil =>
    have hq := h.nil
    have hc : char b b.length=0 := char_end (List.drop_length ..)
    simp [peek,hq,hc,begins]
  | cons t ts =>
    obtain ⟨c,cs,hd,hspace,ht⟩ := h.cons
    have hc : c≠0 := by
      rintro rfl
      exact hb (List.mem_of_mem_drop (hd ▸ List.mem_cons_self ..))
    have hpeek : (peek b s toks).1=toks.contains c := by simp [peek,char_eq hd,hc]
    have hno : ∀ d,isSymbol d=false → toks.contains d=false := by
      intro d hsym
      rw [← Bool.not_eq_true,List.contains_iff_mem]
      intro hm
      rw [List.all_eq_true.mp htoks d hm] at hsym
      cases hsym
    rw [hpeek,begins]
    rw [tokens,if_neg (by rw [hspace]; exact Bool.false_ne_true)] at ht
    split at ht
    · rename_i hn
      cases ht
      have hsym : isSymbol c=false := by rw [← symbol_isSome,hn]; rfl
      rw [hno c hsym,first,hno 0x61 (by decide)]
    · rename_i hg
      have hcode : c=0x3e := by
        simp only [symbol] at hg
        split_ifs at hg <;> first | assumption | cases hg
      subst hcode
      split at ht <;> cases ht <;> rfl
    · rename_i k hk hs
      cases ht
      simp only [symbol] at hs
      split_ifs at hs <;> cases hs <;> simp_all [first]

end Lexing

section Loops

variable {b : Text} {s : ℕ} {ts vs : List Lexeme}

/-- A reason to stop that is the line's, not the model's. -/
def Refused (e : Stop) : Prop := e≠.fuel

/-- The strings of redirections. -/
def texts (b : Text) (rs : List (Redir Span)) : List (Redir Text) := rs.map (Redir.map (text b))

/-- What comes behind a command. -/
def Stops (vs : List Lexeme) : Prop := vs=[] ∨ begins [0x7c,0x29,0x26,0x3b] vs=true

theorem Stops.redir (h : Stops vs) : begins [0x3c,0x3e] vs=false := by
  obtain rfl | h := h
  · rfl
  · cases vs with
    | nil => rfl
    | cons t ts => cases t <;> first | rfl | cases h

theorem Stops.paren (h : Stops vs) : begins [0x28] vs=false := by
  obtain rfl | h := h
  · rfl
  · cases vs with
    | nil => rfl
    | cons t ts => cases t <;> first | rfl | cases h

theorem exists_of_begins {toks : List UInt8} (h : begins toks ts=true) :
    ∃ t us,ts=t::us ∧ first t∈toks := by
  cases ts with
  | nil => cases h
  | cons t us => exact ⟨t,us,rfl,List.contains_iff_mem.mp h⟩

/-- A redirection symbol and its file. -/
theorem addRedir_spec {op : Lexeme} {w : Text} {sp : Span} (hw : text b sp=w)
    (hop : begins [0x3c,0x3e] (op::ts)=true) (rs : List (Redir Span)) :
    ∃ r,addRedir rs sp (ret op)=rs++[r] ∧ redirOf w op=some (r.map (text b)) ∧ r.file=sp := by
  subst hw
  cases op with
  | lt => exact ⟨_,rfl,rfl,rfl⟩
  | gt => exact ⟨_,rfl,rfl,rfl⟩
  | append => exact ⟨_,rfl,rfl,rfl⟩
  | _ => cases hop

theorem begins_of_redirOf {op : Lexeme} {w : Text} {r : Redir Text} (h : redirOf w op=some r) :
    begins [0x3c,0x3e] (op::ts)=true := by
  cases op <;> first | rfl | cases h

theorem ret_word {t : Lexeme} (h : ret t=.word) : ∃ w,t=.word w := by
  cases t with
  | word w => exact ⟨w,rfl⟩
  | _ => cases h

/-- `parseredirs` reads redirections. -/
theorem redirLoop_sound (hb : 0∉b) {n : ℕ} (h : At b s ts) (hn : ts.length < n)
    (rs : List (Redir Span)) :
    Ensures Refused (redirLoop b n rs s) fun r => ∃ us vs new,ts=us++vs ∧ At b r.2 vs ∧
      r.1=rs++new ∧ Redirs us (texts b new) ∧ ∀ x∈new,Word b x.file := by
  induction n generalizing s ts rs with
  | zero => exact absurd hn (Nat.not_lt_zero _)
  | succ n ih =>
    obtain ⟨hp,hat⟩ := @peek_spec _ _ _ hb h [0x3c,0x3e] rfl
    simp only [redirLoop]
    split
    · exact ⟨[],ts,[],rfl,hat,(List.append_nil _).symm,.nil,fun x hx => by cases hx⟩
    · rename_i hfound
      rw [hp,Bool.not_eq_false] at hfound
      obtain ⟨op,ts1,rfl,-⟩ := exists_of_begins hfound
      obtain ⟨hop,hat1,-⟩ := gettoken_cons hb hat
      cases ts1 with
      | nil =>
        obtain ⟨hnil,-⟩ := gettoken_nil hat1
        rw [if_pos (by rw [hnil]; decide)]
        exact Stop.noConfusion
      | cons f ts2 =>
        obtain ⟨hf,hat2,hword⟩ := gettoken_cons hb hat1
        split
        · exact Stop.noConfusion
        · rename_i hret
          rw [hf,ne_eq,not_not] at hret
          obtain ⟨w,rfl⟩ := ret_word hret
          obtain ⟨htext,hspan⟩ := hword w rfl
          obtain ⟨r,hadd,hr,hfile⟩ := addRedir_spec htext hfound rs
          rw [hop,hadd]
          simp only [List.length_cons] at hn
          refine (ih hat2 (by omega) (rs++[r])).imp ?_
          rintro x ⟨us,vs,new,rfl,hat3,hnew,hder,hwords⟩
          refine ⟨op::.word w::us,vs,r::new,rfl,hat3,?_,.cons hr hder,?_⟩
          · rw [hnew,List.append_assoc,List.singleton_append]
          · intro y hy
            obtain rfl | hy := List.mem_cons.mp hy
            · rw [hfile]
              exact hspan
            · exact hwords y hy

/-- `parseredirs` reads all of them. -/
theorem redirLoop_complete (hb : 0∉b) {us : List Lexeme} {qs : List (Redir Text)}
    (hr : Redirs us qs) {n : ℕ} (h : At b s (us++vs)) (hvs : begins [0x3c,0x3e] vs=false)
    (hn : (us++vs).length < n) (rs : List (Redir Span)) :
    ∃ new s',redirLoop b n rs s=.ok (rs++new,s') ∧ At b s' vs ∧ texts b new=qs := by
  induction hr generalizing s n rs with
  | nil =>
    obtain ⟨n,rfl⟩ := Nat.exists_eq_add_one_of_ne_zero (Nat.ne_of_gt (Nat.zero_lt_of_lt hn))
    obtain ⟨hp,hat⟩ := @peek_spec _ _ _ hb h [0x3c,0x3e] rfl
    refine ⟨[],_,?_,hat,rfl⟩
    simp only [redirLoop]
    rw [if_pos (hp.trans hvs),List.append_nil]
  | @cons op w us r qs hop hrest ih =>
    obtain ⟨n,rfl⟩ := Nat.exists_eq_add_one_of_ne_zero (Nat.ne_of_gt (Nat.zero_lt_of_lt hn))
    have hbegin : begins [0x3c,0x3e] (op::.word w::us++vs)=true := begins_of_redirOf hop
    obtain ⟨hp,hat⟩ := @peek_spec _ _ _ hb h [0x3c,0x3e] rfl
    obtain ⟨htok,hat1,-⟩ := gettoken_cons hb hat
    obtain ⟨hf,hat2,hword⟩ := gettoken_cons hb hat1
    obtain ⟨htext,-⟩ := hword w rfl
    obtain ⟨x,hadd,hx,-⟩ := addRedir_spec htext hbegin rs
    rw [hop,Option.some.injEq] at hx
    simp only [List.cons_append,List.length_cons] at hn
    have hfuel : (us++vs).length < n := by omega
    obtain ⟨new,s',hrun,hat3,hnew⟩ := ih hat2 hfuel (rs++[x])
    refine ⟨x::new,s',?_,hat3,?_⟩
    · simp only [redirLoop]
      rw [if_neg (by rw [hp,hbegin]; decide),if_neg (by rw [hf]; exact fun h => h rfl),htok,hadd,hrun,
        List.append_assoc,List.singleton_append]
    · rw [texts,List.map_cons,← hx,← hnew,texts]

theorem length_le_of_at (h : At b s ts) : ts.length≤b.length := by
  rw [← h.tokens]
  refine (length_tokens_le _).trans ?_
  rw [List.length_drop]
  exact Nat.sub_le _ _

theorem parseredirs_sound (hb : 0∉b) (h : At b s ts) (rs : List (Redir Span)) :
    Ensures Refused (parseredirs b rs s) fun r => ∃ us vs new,ts=us++vs ∧ At b r.2 vs ∧
      r.1=rs++new ∧ Redirs us (texts b new) ∧ ∀ x∈new,Word b x.file :=
  redirLoop_sound hb h (Nat.lt_succ_of_le (length_le_of_at h)) rs

theorem parseredirs_complete (hb : 0∉b) {us : List Lexeme} {qs : List (Redir Text)}
    (hr : Redirs us qs) (h : At b s (us++vs)) (hvs : begins [0x3c,0x3e] vs=false)
    (rs : List (Redir Span)) :
    ∃ new s',parseredirs b rs s=.ok (rs++new,s') ∧ At b s' vs ∧ texts b new=qs :=
  redirLoop_complete hb hr h hvs (Nat.lt_succ_of_le (length_le_of_at h)) rs

/-- What the loop of `parseexec` has read: words and redirections among them. -/
structure Simple (b : Text) (argv : List Span) (rs : List (Redir Span)) (ts : List Lexeme)
    (r : Cmd Span × ℕ) (us vs : List Lexeme) (args : List Span) (new : List (Redir Span)) :
    Prop where
  split : ts=us++vs
  rest : At b r.2 vs
  cmd : r.1=(Cmd.exec (argv++args)).wrap (rs++new)
  derives : Args us (args.map (text b)) (texts b new)
  fits : (argv++args).length < maxArgs
  words : (∀ x∈args,Word b x) ∧ ∀ x∈new,Word b x.file

/-- `parseexec` reads words with redirections behind them. -/
theorem argLoop_sound (hb : 0∉b) {n : ℕ} (h : At b s ts) (hn : ts.length < n) {argv : List Span}
    (hargv : argv.length < maxArgs) (rs : List (Redir Span)) :
    Ensures Refused (argLoop b n argv rs s) fun r => ∃ us vs args new,
      Simple b argv rs ts r us vs args new := by
  induction n generalizing s ts argv rs with
  | zero => exact absurd hn (Nat.not_lt_zero _)
  | succ n ih =>
    obtain ⟨-,hat⟩ := @peek_spec _ _ _ hb h [0x7c,0x29,0x26,0x3b] rfl
    have hend : ∀ {s'},At b s' ts → Simple b argv rs ts ((Cmd.exec argv).wrap rs,s') [] ts [] [] :=
      fun hs => ⟨rfl,hs,by rw [List.append_nil,List.append_nil],.nil,
        by rwa [List.append_nil],(fun x hx => by cases hx),fun x hx => by cases hx⟩
    simp only [argLoop]
    split
    · exact ⟨[],ts,[],[],hend hat⟩
    · cases ts with
      | nil =>
        obtain ⟨hnil,hat1⟩ := gettoken_nil hat
        rw [if_pos hnil]
        exact ⟨[],[],[],[],hend hat1⟩
      | cons t ts1 =>
        obtain ⟨ht,hat1,hword⟩ := gettoken_cons hb hat
        rw [if_neg (by rw [ht]; cases t <;> exact Tok.noConfusion)]
        split
        · exact Stop.noConfusion
        · rename_i hret
          rw [ht,ne_eq,not_not] at hret
          obtain ⟨w,rfl⟩ := ret_word hret
          obtain ⟨htext,hspan⟩ := hword w rfl
          split
          · exact Stop.noConfusion
          · rename_i hroom
            generalize (gettoken b (peek b s [0x7c,0x29,0x26,0x3b]).2).span=sp at htext hspan ⊢
            refine (parseredirs_sound hb hat1 rs).bind ?_
            rintro ⟨rs1,s1⟩ ⟨us1,ts2,new1,rfl,hat2,rfl,hder1,hwords1⟩
            simp only [List.length_cons,List.length_append] at hn
            have hlen : (argv++[sp]).length < maxArgs := by
              rw [List.length_append,List.length_singleton]
              exact Nat.lt_of_not_le hroom
            refine (ih hat2 (by omega) hlen (rs++new1)).imp ?_
            rintro x ⟨us2,vs,args,new2,hx⟩
            refine ⟨.word w::(us1++us2),vs,sp::args,new1++new2,?_⟩
            exact {
              split := by simp [hx.split]
              rest := hx.rest
              cmd := by rw [hx.cmd,List.append_assoc,List.append_assoc,List.singleton_append]
              derives := by
                rw [texts,List.map_append,List.map_cons,htext]
                exact .cons hder1 hx.derives
              fits := by
                have hf := hx.fits
                rwa [List.append_assoc,List.singleton_append] at hf
              words := by
                refine ⟨fun y hy => ?_,fun y hy => ?_⟩
                · obtain rfl | hy := List.mem_cons.mp hy
                  · exact hspan
                  · exact hx.words.1 y hy
                · exact (List.mem_append.mp hy).elim (hwords1 y) (hx.words.2 y) }

/-- Behind the redirections of a word comes another word, or the end. -/
theorem begins_args {us : List Lexeme} {argv : List Text} {qs : List (Redir Text)}
    (h : Args us argv qs) (hvs : Stops vs) : begins [0x3c,0x3e] (us++vs)=false := by
  cases h with
  | nil => exact hvs.redir
  | cons hr ha => rfl

/-- `parseexec` reads all of them. -/
theorem argLoop_complete (hb : 0∉b) {us : List Lexeme} {words : List Text}
    {qs : List (Redir Text)} (ha : Args us words qs) {n : ℕ} (h : At b s (us++vs))
    (hvs : Stops vs) (hn : (us++vs).length < n) {argv : List Span}
    (hfits : argv.length+words.length < maxArgs) (rs : List (Redir Span)) :
    ∃ args new s',argLoop b n argv rs s=.ok ((Cmd.exec (argv++args)).wrap (rs++new),s') ∧
      At b s' vs ∧ args.map (text b)=words ∧ texts b new=qs := by
  induction ha generalizing s n argv rs with
  | nil =>
    obtain ⟨n,rfl⟩ := Nat.exists_eq_add_one_of_ne_zero (Nat.ne_of_gt (Nat.zero_lt_of_lt hn))
    obtain ⟨hp,hat⟩ := @peek_spec _ _ _ hb h [0x7c,0x29,0x26,0x3b] rfl
    rw [List.nil_append] at hp hat
    simp only [argLoop]
    obtain rfl | hstop := hvs
    · obtain ⟨hnil,hat1⟩ := gettoken_nil hat
      refine ⟨[],[],_,?_,hat1,rfl,rfl⟩
      rw [if_neg (by rw [hp]; decide),if_pos hnil,List.append_nil,List.append_nil]
    · refine ⟨[],[],_,?_,hat,rfl,rfl⟩
      rw [if_pos (hp.trans hstop),List.append_nil,List.append_nil]
  | @cons w us1 ts argv' qs1 qs2 hr hrest ih =>
    obtain ⟨n,rfl⟩ := Nat.exists_eq_add_one_of_ne_zero (Nat.ne_of_gt (Nat.zero_lt_of_lt hn))
    rw [List.cons_append,List.append_assoc] at h
    obtain ⟨hp,hat⟩ := @peek_spec _ _ _ hb h [0x7c,0x29,0x26,0x3b] rfl
    obtain ⟨ht,hat1,hword⟩ := gettoken_cons hb hat
    obtain ⟨htext,-⟩ := hword w rfl
    obtain ⟨new1,s1,hrun1,hat2,hnew1⟩ :=
      parseredirs_complete hb hr hat1 (begins_args hrest hvs) rs
    simp only [List.cons_append,List.append_assoc,List.length_cons,List.length_append] at hn
    rw [List.length_cons] at hfits
    have hlen : (argv++[(gettoken b (peek b s [0x7c,0x29,0x26,0x3b]).2).span]).length+
        argv'.length < maxArgs := by
      rw [List.length_append,List.length_singleton]
      omega
    have hfuel : (ts++vs).length < n := by
      rw [List.length_append]
      omega
    obtain ⟨args,new,s',hrun,hat3,hargs,hnew⟩ := ih hat2 hfuel hlen (rs++new1)
    refine ⟨(gettoken b (peek b s [0x7c,0x29,0x26,0x3b]).2).span::args,new1++new,s',?_,hat3,?_,?_⟩
    · simp only [argLoop]
      rw [if_neg (by rw [hp]; exact Bool.false_ne_true),if_neg (by rw [ht]; exact Tok.noConfusion),
        if_neg (by rw [ht]; exact fun h => h rfl),if_neg (by omega),hrun1,ok_bind,hrun,
        List.append_assoc,List.append_assoc,List.singleton_append]
    · rw [List.map_cons,htext,hargs]
    · rw [texts,List.map_append,← hnew1,← hnew,texts,texts]

theorem begins_amp (h : begins [0x26] ts=true) : ∃ us,ts=.amp::us := by
  obtain ⟨t,us,rfl,ht⟩ := exists_of_begins h
  cases t with
  | amp => exact ⟨us,rfl⟩
  | _ => cases h

/-- `parseline` reads ampersands. -/
theorem backLoop_sound (hb : 0∉b) {n : ℕ} (h : At b s ts) (hn : ts.length < n) (c : Cmd Span) :
    Ensures Refused (backLoop b n c s) fun r => ∃ k vs,ts=List.replicate k .amp++vs ∧
      At b r.2 vs ∧ r.1=c.backs k := by
  induction n generalizing s ts c with
  | zero => exact absurd hn (Nat.not_lt_zero _)
  | succ n ih =>
    obtain ⟨hp,hat⟩ := @peek_spec _ _ _ hb h [0x26] rfl
    simp only [backLoop]
    split
    · rename_i hfound
      obtain ⟨us,rfl⟩ := begins_amp (hp.symm.trans hfound)
      obtain ⟨-,hat1,-⟩ := gettoken_cons hb hat
      refine (ih hat1 (Nat.lt_of_succ_lt_succ hn) (.back c)).imp ?_
      rintro r ⟨k,vs,rfl,hat2,hr⟩
      refine ⟨k+1,vs,rfl,hat2,?_⟩
      rw [hr,backs_back]
    · exact ⟨0,ts,rfl,hat,rfl⟩

/-- `parseline` reads all of them. -/
theorem backLoop_complete (hb : 0∉b) {n k : ℕ} (h : At b s (List.replicate k .amp++vs))
    (hvs : begins [0x26] vs=false) (hn : (List.replicate k Lexeme.amp++vs).length < n)
    (c : Cmd Span) : ∃ s',backLoop b n c s=.ok (c.backs k,s') ∧ At b s' vs := by
  induction k generalizing s n c with
  | zero =>
    obtain ⟨n,rfl⟩ := Nat.exists_eq_add_one_of_ne_zero (Nat.ne_of_gt (Nat.zero_lt_of_lt hn))
    obtain ⟨hp,hat⟩ := @peek_spec _ _ _ hb h [0x26] rfl
    refine ⟨_,?_,hat⟩
    simp only [backLoop]
    rw [if_neg (by rw [hp]; exact hvs ▸ Bool.false_ne_true)]
    rfl
  | succ k ih =>
    obtain ⟨n,rfl⟩ := Nat.exists_eq_add_one_of_ne_zero (Nat.ne_of_gt (Nat.zero_lt_of_lt hn))
    obtain ⟨hp,hat⟩ := @peek_spec _ _ _ hb h [0x26] rfl
    obtain ⟨-,hat1,-⟩ := gettoken_cons hb hat
    obtain ⟨s',hrun,hat2⟩ := ih hat1 (Nat.lt_of_succ_lt_succ hn) (.back c)
    refine ⟨s',?_,hat2⟩
    simp only [backLoop]
    rw [if_pos (by rw [hp]; rfl),hrun,backs_back]

end Loops

/-- The function that reads a part. -/
def parse (b : Text) : Phrase → ℕ → ℕ → Except Stop (Cmd Span × ℕ)
  | .line => parseline b
  | .pipe => parsepipe b
  | .exec => parseexec b

/-- Calls as deep as a part of so many tokens needs them. -/
def depth (m : ℕ) : Phrase → ℕ
  | .line => 4*m+4
  | .pipe => 4*m+3
  | .exec => 4*m+2

/-- What comes behind a part. -/
def Follows : Phrase → List Lexeme → Prop
  | .line,vs => vs=[] ∨ begins [0x29] vs=true
  | .pipe,vs => vs=[] ∨ begins [0x29,0x26,0x3b] vs=true
  | .exec,vs => Stops vs

/-- What is read of a part. -/
structure Reads (b : Text) (part : Phrase) (ts : List Lexeme) (r : Cmd Span × ℕ)
    (us vs : List Lexeme) : Prop where
  split : ts=us++vs
  rest : At b r.2 vs
  derives : Derives part us (r.1.map (text b))
  fits : r.1.Fits
  words : ∀ x∈r.1.strings,Word b x

section Phrases

variable {b : Text} {s : ℕ} {ts us vs : List Lexeme}

theorem begins_one {c : UInt8} (h : begins [c] ts=true) : ∃ t us,ts=t::us ∧ first t=c := by
  obtain ⟨t,us,rfl,ht⟩ := exists_of_begins h
  exact ⟨t,us,rfl,List.mem_singleton.mp ht⟩

theorem begins_bar (h : begins [0x7c] ts=true) : ∃ us,ts=.bar::us := by
  obtain ⟨t,us,rfl,ht⟩ := begins_one h
  cases t with
  | bar => exact ⟨us,rfl⟩
  | _ => cases ht

theorem begins_semi (h : begins [0x3b] ts=true) : ∃ us,ts=.semi::us := by
  obtain ⟨t,us,rfl,ht⟩ := begins_one h
  cases t with
  | semi => exact ⟨us,rfl⟩
  | _ => cases ht

theorem begins_lparen (h : begins [0x28] ts=true) : ∃ us,ts=.lparen::us := by
  obtain ⟨t,us,rfl,ht⟩ := begins_one h
  cases t with
  | lparen => exact ⟨us,rfl⟩
  | _ => cases ht

theorem begins_rparen (h : begins [0x29] ts=true) : ∃ us,ts=.rparen::us := by
  obtain ⟨t,us,rfl,ht⟩ := begins_one h
  cases t with
  | rparen => exact ⟨us,rfl⟩
  | _ => cases ht

/-- A line in parentheses, if lines are read right. -/
theorem parseblock_sound (hb : 0∉b) {n : ℕ}
    (hline : ∀ s ts,At b s ts → depth ts.length .line≤n →
      Ensures Refused (parseline b n s) fun r => ∃ us vs,Reads b .line ts r us vs)
    (h : At b s (.lparen::ts)) (hn : depth ts.length .line≤n) :
    Ensures Refused (parseblock b (n+1) s) fun r => ∃ us vs,
      Reads b .exec (.lparen::ts) r us vs := by
  obtain ⟨hp,hat⟩ := @peek_spec _ _ _ hb h [0x28] rfl
  obtain ⟨-,hat1,-⟩ := gettoken_cons hb hat
  simp only [parseblock]
  rw [if_neg (by rw [hp]; exact Bool.false_ne_true.symm)]
  refine (hline _ _ hat1 hn).bind ?_
  rintro ⟨c,s1⟩ ⟨us1,vs1,hread⟩
  obtain ⟨hp1,hat2⟩ := @peek_spec _ _ _ hb hread.rest [0x29] rfl
  dsimp only at hp1 hat2 ⊢
  split
  · exact Stop.noConfusion
  · rename_i hfound
    rw [hp1,Bool.not_eq_false] at hfound
    obtain ⟨vs2,rfl⟩ := begins_rparen hfound
    obtain ⟨-,hat3,-⟩ := gettoken_cons hb hat2
    refine (parseredirs_sound hb hat3 []).bind ?_
    rintro ⟨rs,s2⟩ ⟨us2,vs3,new,rfl,hat4,rfl,hder,hwords⟩
    refine ⟨.lparen::(us1++.rparen::us2),vs3,?_⟩
    exact {
      split := by simp [hread.split]
      rest := hat4
      derives := by
        rw [map_wrap]
        exact .block hread.derives hder
      fits := (fits_wrap _).mpr hread.fits
      words := by
        intro x hx
        obtain hx | ⟨r,hr,rfl⟩ := (mem_strings_wrap _).mp hx
        · exact hread.words x hx
        · exact hwords r hr }

/-- The parser reads parts of the language. -/
theorem parse_sound (hb : 0∉b) (n : ℕ) : ∀ part s ts,At b s ts → depth ts.length part≤n →
    Ensures Refused (parse b part n s) fun r => ∃ us vs,Reads b part ts r us vs := by
  induction n using Nat.strongRecOn with
  | ind n ih =>
    intro part s ts h hn
    obtain ⟨n,rfl⟩ : ∃ m,n=m+1 := by
      refine Nat.exists_eq_add_one_of_ne_zero ?_
      rintro rfl
      cases part <;> exact absurd hn (Nat.not_succ_le_zero _)
    have ihn := ih n (Nat.lt_succ_self n)
    cases part with
    | line =>
      simp only [depth] at hn
      simp only [parse,parseline]
      refine (ihn .pipe s ts h (by simp only [depth]; omega)).bind ?_
      rintro ⟨c,s1⟩ ⟨us1,vs1,hleft⟩
      have hlen1 := length_le_of_at hleft.rest
      refine (backLoop_sound hb hleft.rest (Nat.lt_succ_of_le hlen1) c).bind ?_
      rintro ⟨c1,s2⟩ ⟨k,vs2,hvs1,hat2,hc1⟩
      dsimp only at hc1
      subst hc1
      obtain ⟨hp,hat3⟩ := @peek_spec _ _ _ hb hat2 [0x3b] rfl
      dsimp only at hp hat3 ⊢
      split
      · rename_i hfound
        obtain ⟨vs3,rfl⟩ := begins_semi (hp.symm.trans hfound)
        obtain ⟨-,hat4,-⟩ := gettoken_cons hb hat3
        have hsplit := hleft.split
        have hlen := congrArg List.length hsplit
        rw [hvs1] at hlen
        simp only [List.length_append,List.length_cons,List.length_replicate] at hlen
        refine (ihn .line _ vs3 hat4 (by simp only [depth]; omega)).bind ?_
        rintro ⟨d,s4⟩ ⟨us4,vs4,hright⟩
        refine ⟨us1++(List.replicate k .amp++.semi::us4),vs4,?_⟩
        exact {
          split := by
            rw [hsplit,hvs1,hright.split]
            simp
          rest := hright.rest
          derives := by
            rw [Cmd.map,map_backs]
            exact .list hleft.derives hright.derives
          fits := ⟨(fits_backs k).mpr hleft.fits,hright.fits⟩
          words := fun x hx => (List.mem_append.mp hx).elim
            (fun hx => hleft.words x (strings_backs k ▸ hx)) (hright.words x) }
      · refine ⟨us1++List.replicate k .amp,vs2,?_⟩
        exact {
          split := by rw [hleft.split,hvs1,List.append_assoc]
          rest := hat3
          derives := by
            rw [map_backs]
            exact .single hleft.derives
          fits := (fits_backs k).mpr hleft.fits
          words := fun x hx => hleft.words x (strings_backs k ▸ hx) }
    | pipe =>
      simp only [depth] at hn
      simp only [parse,parsepipe]
      refine (ihn .exec s ts h (by simp only [depth]; omega)).bind ?_
      rintro ⟨c,s1⟩ ⟨us1,vs1,hleft⟩
      obtain ⟨hp,hat2⟩ := @peek_spec _ _ _ hb hleft.rest [0x7c] rfl
      dsimp only at hp hat2 ⊢
      split
      · rename_i hfound
        obtain ⟨vs2,rfl⟩ := begins_bar (hp.symm.trans hfound)
        obtain ⟨-,hat3,-⟩ := gettoken_cons hb hat2
        have hsplit := hleft.split
        have hlen := congrArg List.length hsplit
        simp only [List.length_append,List.length_cons] at hlen
        refine (ihn .pipe _ vs2 hat3 (by simp only [depth]; omega)).bind ?_
        rintro ⟨d,s3⟩ ⟨us3,vs3,hright⟩
        refine ⟨us1++.bar::us3,vs3,?_⟩
        exact {
          split := by
            rw [hsplit,hright.split]
            simp
          rest := hright.rest
          derives := .pipe hleft.derives hright.derives
          fits := ⟨hleft.fits,hright.fits⟩
          words := fun x hx => (List.mem_append.mp hx).elim (hleft.words x) (hright.words x) }
      · exact ⟨us1,vs1,⟨hleft.split,hat2,.last hleft.derives,hleft.fits,hleft.words⟩⟩
    | exec =>
      simp only [depth] at hn
      obtain ⟨hp,hat⟩ := @peek_spec _ _ _ hb h [0x28] rfl
      simp only [parse,parseexec]
      split
      · rename_i hfound
        obtain ⟨ts1,rfl⟩ := begins_lparen (hp.symm.trans hfound)
        rw [List.length_cons] at hn
        obtain ⟨m,rfl⟩ := Nat.exists_eq_add_one_of_ne_zero (show n≠0 by omega)
        exact parseblock_sound hb (ih m (by omega) .line) hat (by simp only [depth]; omega)
      · refine (parseredirs_sound hb hat []).bind ?_
        rintro ⟨rs,s1⟩ ⟨us1,vs1,new1,rfl,hat1,rfl,hder1,hwords1⟩
        refine (argLoop_sound hb hat1 (Nat.lt_succ_of_le (length_le_of_at hat1))
          (by decide) _).imp ?_
        rintro ⟨c,s2⟩ ⟨us2,vs2,args,new2,hx⟩
        refine ⟨us1++us2,vs2,?_⟩
        have hc := hx.cmd
        simp only [List.nil_append] at hc
        exact {
          split := by rw [hx.split,List.append_assoc]
          rest := hx.rest
          derives := by
            rw [hc,map_wrap,List.map_append]
            exact .simple hder1 hx.derives
          fits := by
            rw [hc,fits_wrap]
            exact hx.fits
          words := by
            intro x hmem
            rw [hc] at hmem
            obtain hmem | ⟨r,hr,rfl⟩ := (mem_strings_wrap _).mp hmem
            · exact hx.words.1 x hmem
            · exact (List.mem_append.mp hr).elim (hwords1 r) (hx.words.2 r) }

/-- No other command begins with a parenthesis. -/
theorem begins_simple {qs rs : List (Redir Text)} {argv : List Text} (hr : Redirs us qs)
    (ha : Args ts argv rs) (hvs : Stops vs) : begins [0x28] (us++(ts++vs))=false := by
  cases hr with
  | nil =>
    cases ha with
    | nil => exact hvs.paren
    | cons hr ha => rfl
  | @cons op w us r qs hop hr => cases op <;> first | rfl | cases hop

theorem Follows.stops_of_pipe (h : Follows .pipe vs) : Stops vs ∧ begins [0x7c] vs=false := by
  obtain rfl | h := h
  · exact ⟨.inl rfl,rfl⟩
  · cases vs with
    | nil => cases h
    | cons t ts => cases t <;> first | exact ⟨.inr rfl,rfl⟩ | cases h

theorem Follows.not_begins (h : Follows .line vs) :
    begins [0x26] vs=false ∧ begins [0x3b] vs=false := by
  obtain rfl | h := h
  · exact ⟨rfl,rfl⟩
  · obtain ⟨us,rfl⟩ := begins_rparen h
    exact ⟨rfl,rfl⟩

/-- Ampersands come behind a pipeline. -/
theorem follows_amps {k : ℕ} (h : Follows .pipe vs) :
    Follows .pipe (List.replicate k .amp++vs) := by
  cases k with
  | zero => exact h
  | succ k => exact .inr rfl

/-- The parser reads all parts of the language. -/
theorem parse_complete (hb : 0∉b) {part : Phrase} {a : Cmd Text} (hd : Derives part us a) :
    ∀ vs s n,a.Fits → Follows part vs → At b s (us++vs) → depth (us++vs).length part≤n →
      ∃ c s',parse b part n s=.ok (c,s') ∧ c.map (text b)=a ∧ At b s' vs := by
  induction hd with
  | @simple us ts argv qs rs hr ha =>
    intro vs s n hfits hvs h hn
    obtain ⟨n,rfl⟩ := Nat.exists_eq_add_one_of_ne_zero
      (Nat.ne_of_gt ((Nat.succ_pos _).trans_le hn))
    rw [List.append_assoc] at h
    obtain ⟨hp,hat⟩ := @peek_spec _ _ _ hb h [0x28] rfl
    rw [begins_simple hr ha hvs] at hp
    obtain ⟨new1,s1,hrun1,hat1,hnew1⟩ := parseredirs_complete hb hr hat (begins_args ha hvs) []
    have hlen := length_le_of_at hat1
    have hargs : ([] : List Span).length+argv.length < maxArgs := by
      rw [List.length_nil,Nat.zero_add]
      exact (fits_wrap _).mp hfits
    obtain ⟨args,new,s2,hrun,hat2,hmap,hnew⟩ :=
      argLoop_complete hb ha hat1 hvs (Nat.lt_succ_of_le hlen) hargs ([]++new1)
    refine ⟨(Cmd.exec ([]++args)).wrap ([]++new1++new),s2,?_,?_,hat2⟩
    · simp only [parse,parseexec]
      rw [if_neg (by rw [hp]; exact Bool.false_ne_true),hrun1,ok_bind]
      exact hrun
    · rw [map_wrap,List.map_append,List.nil_append,List.nil_append,Cmd.map,hmap]
      exact congrArg _ (congrArg₂ _ hnew1 hnew)
  | @block ts us c rs hline hr ih =>
    intro vs s n hfits hvs h hn
    rw [List.cons_append,List.append_assoc,List.cons_append] at h hn
    simp only [depth,List.length_cons] at hn
    obtain ⟨n,rfl⟩ : ∃ m,n=m+2 := ⟨n-2,by omega⟩
    obtain ⟨hp,hat⟩ := @peek_spec _ _ _ hb h [0x28] rfl
    obtain ⟨hp1,hat1⟩ := @peek_spec _ _ _ hb hat [0x28] rfl
    obtain ⟨-,hat2,-⟩ := gettoken_cons hb hat1
    obtain ⟨c',s1,hrun1,hmap1,hat3⟩ := ih (.rparen::(us++vs)) _ n ((fits_wrap _).mp hfits)
      (.inr rfl) hat2 (by simp only [depth]; omega)
    obtain ⟨hp3,hat4⟩ := @peek_spec _ _ _ hb hat3 [0x29] rfl
    obtain ⟨-,hat5,-⟩ := gettoken_cons hb hat4
    obtain ⟨new,s2,hrun2,hat6,hnew⟩ := parseredirs_complete hb hr hat5 hvs.redir []
    refine ⟨c'.wrap ([]++new),s2,?_,?_,hat6⟩
    · simp only [parse,parseexec]
      rw [if_pos (by rw [hp]; rfl)]
      simp only [parseblock]
      simp only [parse] at hrun1
      rw [if_neg (by rw [hp1]; exact Bool.false_ne_true.symm),hrun1,ok_bind]
      simp only
      rw [if_neg (by rw [hp3]; exact Bool.false_ne_true.symm),hrun2,ok_bind]
    · rw [map_wrap,hmap1,List.nil_append]
      exact congrArg _ hnew
  | @last ts c hexec ih =>
    intro vs s n hfits hvs h hn
    simp only [depth] at hn
    obtain ⟨n,rfl⟩ : ∃ m,n=m+1 := ⟨n-1,by omega⟩
    obtain ⟨hstops,hbar⟩ := hvs.stops_of_pipe
    obtain ⟨c',s1,hrun1,hmap1,hat1⟩ := ih vs s n hfits hstops h (by simp only [depth]; omega)
    obtain ⟨hp,hat2⟩ := @peek_spec _ _ _ hb hat1 [0x7c] rfl
    refine ⟨c',_,?_,hmap1,hat2⟩
    simp only [parse] at hrun1 ⊢
    rw [parsepipe,hrun1,ok_bind]
    simp only
    rw [if_neg (by rw [hp,hbar]; exact Bool.false_ne_true)]
  | @pipe ts us c d hl hr ihl ihr =>
    intro vs s n hfits hvs h hn
    rw [List.append_assoc,List.cons_append] at h hn
    simp only [depth,List.length_append,List.length_cons] at hn
    obtain ⟨n,rfl⟩ : ∃ m,n=m+1 := ⟨n-1,by omega⟩
    obtain ⟨c',s1,hrun1,hmap1,hat1⟩ := ihl (.bar::(us++vs)) s n hfits.1 (.inr rfl) h
      (by simp only [depth,List.length_append,List.length_cons]; omega)
    obtain ⟨hp,hat2⟩ := @peek_spec _ _ _ hb hat1 [0x7c] rfl
    obtain ⟨-,hat3,-⟩ := gettoken_cons hb hat2
    obtain ⟨d',s2,hrun2,hmap2,hat4⟩ := ihr vs _ n hfits.2 hvs hat3
      (by simp only [depth,List.length_append]; omega)
    refine ⟨.pipe c' d',s2,?_,by rw [Cmd.map,hmap1,hmap2],hat4⟩
    simp only [parse] at hrun1 hrun2 ⊢
    rw [parsepipe,hrun1,ok_bind]
    simp only
    rw [if_pos (by rw [hp]; rfl),hrun2,ok_bind]
  | @single ts c k hpipe ih =>
    intro vs s n hfits hvs h hn
    rw [List.append_assoc] at h hn
    simp only [depth] at hn
    obtain ⟨n,rfl⟩ : ∃ m,n=m+1 := ⟨n-1,by omega⟩
    obtain ⟨hamp,hsemi⟩ := hvs.not_begins
    have hfollow : Follows .pipe vs := by
      obtain rfl | hv := hvs
      · exact .inl rfl
      · obtain ⟨us,rfl⟩ := begins_rparen hv
        exact .inr rfl
    obtain ⟨c',s1,hrun1,hmap1,hat1⟩ := ih (List.replicate k .amp++vs) s n ((fits_backs k).mp hfits)
      (follows_amps hfollow) h (by simp only [depth]; omega)
    obtain ⟨s2,hrun2,hat2⟩ := backLoop_complete hb hat1 hamp
      (Nat.lt_succ_of_le (length_le_of_at hat1)) c'
    obtain ⟨hp,hat3⟩ := @peek_spec _ _ _ hb hat2 [0x3b] rfl
    refine ⟨c'.backs k,_,?_,by rw [map_backs,hmap1],hat3⟩
    simp only [parse] at hrun1 ⊢
    rw [parseline,hrun1,ok_bind,hrun2,ok_bind]
    simp only
    rw [if_neg (by rw [hp,hsemi]; exact Bool.false_ne_true)]
  | @list ts us c d k hl hr ihl ihr =>
    intro vs s n hfits hvs h hn
    rw [List.append_assoc,List.append_assoc,List.cons_append] at h hn
    simp only [depth,List.length_append,List.length_cons] at hn
    obtain ⟨n,rfl⟩ : ∃ m,n=m+1 := ⟨n-1,by omega⟩
    obtain ⟨c',s1,hrun1,hmap1,hat1⟩ := ihl (List.replicate k .amp++.semi::(us++vs)) s n
      ((fits_backs k).mp hfits.1) (follows_amps (.inr rfl)) h
      (by simp only [depth,List.length_append,List.length_cons]; omega)
    obtain ⟨s2,hrun2,hat2⟩ := backLoop_complete hb hat1 rfl
      (Nat.lt_succ_of_le (length_le_of_at hat1)) c'
    obtain ⟨hp,hat3⟩ := @peek_spec _ _ _ hb hat2 [0x3b] rfl
    obtain ⟨-,hat4,-⟩ := gettoken_cons hb hat3
    obtain ⟨d',s3,hrun3,hmap3,hat5⟩ := ihr vs _ n hfits.2 hvs hat4
      (by simp only [depth,List.length_append]; omega)
    refine ⟨.list (c'.backs k) d',s3,?_,by rw [Cmd.map,map_backs,hmap1,hmap3],hat5⟩
    simp only [parse] at hrun1 hrun3 ⊢
    rw [parseline,hrun1,ok_bind,hrun2,ok_bind]
    simp only
    rw [if_pos (by rw [hp]; rfl),hrun3,ok_bind]

end Phrases

section Strings

variable {b : Text} {c : Cmd Span} {sp : Span}

/-- Put zeros at some positions. -/
def zeros (buf : Text) (es : List ℕ) : Text := es.foldl (fun buf e => buf.set e 0) buf

theorem zeros_append (buf : Text) (es fs : List ℕ) :
    zeros buf (es++fs)=zeros (zeros buf es) fs := List.foldl_append ..

/-- `nulterminate` puts a zero behind each string. -/
theorem nulterminate_eq (c : Cmd Span) (buf : Text) :
    nulterminate buf c=zeros buf (c.strings.map Span.eq) := by
  induction c generalizing buf with
  | exec argv => rw [nulterminate,Cmd.strings,zeros,List.foldl_map]
  | redir c file mode fd ih =>
    rw [nulterminate,ih,Cmd.strings,List.map_append,zeros_append]
    rfl
  | pipe l r hl hr => rw [nulterminate,hl,hr,Cmd.strings,List.map_append,zeros_append]
  | list l r hl hr => rw [nulterminate,hl,hr,Cmd.strings,List.map_append,zeros_append]
  | back c ih => rw [nulterminate,ih,Cmd.strings]

theorem zeros_getElem? (buf : Text) (es : List ℕ) (k : ℕ) :
    (zeros buf es)[k]?=if k∈es ∧ k < buf.length then some 0 else buf[k]? := by
  induction es generalizing buf with
  | nil => simp [zeros]
  | cons e es ih =>
    rw [zeros,List.foldl_cons,← zeros,ih,List.length_set,List.getElem?_set]
    by_cases hk : k < buf.length
    · by_cases he : e=k
      · subst he
        simp [hk]
      · simp [hk,he,Ne.symm he]
    · have hnone : buf[k]?=none := List.getElem?_eq_none (Nat.le_of_not_lt hk)
      by_cases he : e=k <;> simp [hk,he]

/-- A string ends before its first zero. -/
theorem takeWhile_of_zero {l w : Text} (hw : ∀ i (h : i < w.length),l[i]?=some w[i])
    (hnz : ∀ d∈w,d≠0) (hzero : l[w.length]?=some 0) : l.takeWhile (· ≠ 0)=w := by
  have htake : l.take w.length=w := by
    refine List.ext_getElem? fun i => ?_
    rw [List.getElem?_take]
    by_cases hi : i < w.length
    · rw [if_pos hi,hw i hi,List.getElem?_eq_getElem hi]
    · rw [if_neg hi,List.getElem?_eq_none (Nat.le_of_not_lt hi)]
  obtain ⟨rest,hrest⟩ : ∃ rest,l.drop w.length=0::rest := by
    have hhead : (l.drop w.length)[0]?=some 0 := by rwa [List.getElem?_drop,Nat.add_zero]
    cases hd : l.drop w.length with
    | nil => rw [hd] at hhead; cases hhead
    | cons d ds =>
      rw [hd] at hhead
      cases hhead
      exact ⟨ds,rfl⟩
  rw [← List.take_append_drop w.length l,htake,hrest,
    List.takeWhile_append_of_pos (fun d hd => by simpa using hnz d hd)]
  simp

theorem plain_ne_zero (hb : 0∉b) {d : UInt8} (h : d∈text b sp) : d≠0 := by
  rintro rfl
  exact hb (List.mem_of_mem_drop (List.mem_of_mem_take h))

/-- No zero is put into a word, and one is put behind it. -/
theorem cstring_eq (hb : 0∉b) (hwords : ∀ x∈c.strings,Word b x) (hsp : sp∈c.strings) :
    cstring (nulterminate (b++[0]) c) sp.q=text b sp := by
  have hw := hwords sp hsp
  have hlen : (text b sp).length=sp.eq-sp.q := by
    rw [text,List.length_take,List.length_drop]
    have hle := hw.le
    omega
  have hlt := hw.nonempty
  refine takeWhile_of_zero (fun i hi => ?_) (fun d hd => plain_ne_zero hb hd) ?_
  · rw [hlen] at hi
    have hle := hw.le
    have hat : (text b sp)[i]?=b[sp.q+i]? := by
      rw [text,List.getElem?_take,if_pos hi,List.getElem?_drop]
    have hback : b[sp.q+i]?=some ((text b sp)[i]) := by
      rw [← hat,List.getElem?_eq_getElem]
    rw [List.getElem?_drop,nulterminate_eq,zeros_getElem?,if_neg,
      List.getElem?_append_left (by omega),hback]
    rintro ⟨hmem,-⟩
    obtain ⟨x,hx,heq⟩ := List.mem_map.mp hmem
    -- the string `x` would end inside the word
    have hplain := hw.plain _ (List.getElem_mem (by rw [hlen]; exact hi))
    obtain hend | hstop := (hwords x hx).stop
    · omega
    · rw [heq,char,List.getD_eq_getElem?_getD,hback,Option.getD_some,hplain] at hstop
      cases hstop
  · have hle := hw.le
    rw [hlen,List.getElem?_drop,nulterminate_eq,zeros_getElem?]
    rw [if_pos ⟨List.mem_map.mpr ⟨sp,hsp,by omega⟩,by simp; omega⟩]

end Strings

/-- `parsecmd` reads the tokens of the line. -/
theorem parsecmd_sound {b : Text} (hb : 0∉b) : Ensures Refused (parsecmd b) fun c =>
    Derives .line (tokens b) (c.map (text b)) ∧ c.Fits ∧ ∀ x∈c.strings,Word b x := by
  have hat : At b 0 (tokens b) := ⟨Nat.zero_le _,by rw [List.drop_zero]⟩
  have hdepth : depth (tokens b).length .line≤4*b.length+4 := by
    have hlen := length_tokens_le b
    simp only [depth]
    omega
  refine (parse_sound hb _ .line 0 (tokens b) hat hdepth).bind ?_
  rintro ⟨c,s⟩ ⟨us,vs,hread⟩
  obtain ⟨-,hat1⟩ := @peek_spec _ _ _ hb hread.rest [] rfl
  simp only
  split
  · exact Stop.noConfusion
  · rename_i hend
    rw [ne_eq,not_not] at hend
    dsimp only at hat1
    rw [hend] at hat1
    have hnil : vs=[] := by
      have ht := hat1.tokens
      rw [List.drop_length,tokens] at ht
      exact ht.symm
    have hsplit := hread.split
    rw [hnil,List.append_nil] at hsplit
    rw [hsplit]
    exact ⟨hread.derives,hread.fits,hread.words⟩

/-- `parsecmd` reads every line of the language. -/
theorem parsecmd_complete {b : Text} (hb : 0∉b) {a : Cmd Text} (hd : Derives .line (tokens b) a)
    (hfits : a.Fits) : ∃ c,parsecmd b=.ok c ∧ c.map (text b)=a := by
  have hat : At b 0 (tokens b++[]) := ⟨Nat.zero_le _,by rw [List.drop_zero,List.append_nil]⟩
  have hdepth : depth (tokens b++[]).length .line≤4*b.length+4 := by
    have hlen := length_tokens_le b
    rw [List.append_nil]
    simp only [depth]
    omega
  obtain ⟨c,s,hrun,hmap,hat1⟩ := parse_complete hb hd [] 0 _ hfits (.inl rfl) hat hdepth
  refine ⟨c,?_,hmap⟩
  simp only [parse] at hrun
  rw [parsecmd,hrun,ok_bind]
  simp only
  rw [if_neg]
  exact not_not.mpr hat1.nil

/-- The shell gets the command of a line that the rules of the language give for its tokens, if
every command in it has less than ten words; any other line ends in a panic. -/
theorem reads_iff {b : Text} (hb : 0∉b) :
    (∀ a,reads b=.ok a ↔ Derives .line (tokens b) a ∧ a.Fits) ∧ reads b≠.error .fuel := by
  have hsound := parsecmd_sound hb
  have hstrings : ∀ {c},parsecmd b=.ok c → reads b=.ok (c.map (text b)) := by
    intro c hc
    rw [hc] at hsound
    rw [reads,hc,ok_bind,map_congr fun x hx => cstring_eq hb hsound.2.2 hx]
  refine ⟨fun a => ⟨fun h => ?_,fun ⟨hd,hfits⟩ => ?_⟩,fun h => ?_⟩
  · obtain ⟨c,hc,-⟩ := bind_eq_ok h
    have ha := hstrings hc
    rw [h] at ha
    rw [hc] at hsound
    cases ha
    exact ⟨hsound.1,(fits_map _).mpr hsound.2.1⟩
  · obtain ⟨c,hc,rfl⟩ := parsecmd_complete hb hd hfits
    exact hstrings hc
  · cases hc : parsecmd b with
    | ok c =>
      rw [hstrings hc] at h
      cases h
    | error e =>
      rw [hc] at hsound
      rw [reads,hc,error_bind] at h
      cases h
      exact hsound rfl

/-- `(a b<x|c)>>y&;d` -/
def mixedLine : Text :=
  [0x28,0x61,0x20,0x62,0x3c,0x78,0x7c,0x63,0x29,0x3e,0x3e,0x79,0x26,0x3b,0x64]

/-- The command of that line. -/
def mixedCmd : Cmd Text :=
  .list (.back (.redir (.pipe (.redir (.exec [[0x61],[0x62]]) [0x78] rdOnly 0) (.exec [[0x63]]))
    [0x79] wrCreate 1)) (.exec [[0x64]])

theorem reads_iff_mixedLine : Derives .line (tokens mixedLine) mixedCmd ∧ mixedCmd.Fits := by
  have hreads : reads mixedLine=.ok mixedCmd := by rfl
  exact ((reads_iff (by decide)).1 mixedCmd).mp hreads

end Xv6Rust.ShellParse
