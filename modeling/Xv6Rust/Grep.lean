import Xv6Rust.Patterns
import Xv6Rust.ShellSyntax

/-!
# Searching for a pattern

`user/grep.c`. Its matcher goes back where it fails; what it accepts is the language of the
pattern. The files are read in pieces, which end anywhere, into one buffer; the lines in it are
printed or not, and what is left is moved to its start.

Three things end the search of a file before its end: a line that does not fit into the buffer, a
line with a NUL in it, and a last line without a newline.
-/

namespace Xv6Rust.Grep

open Patterns ShellSyntax
open scoped Computability

/-- `'\n'` -/
def newline : UInt8 := 0x0a

/-- `'*'` -/
def asterisk : UInt8 := 0x2a

/-- `'.'` -/
def period : UInt8 := 0x2e

/-- `'$'` -/
def dollar : UInt8 := 0x24

/-- `'^'` -/
def caret : UInt8 := 0x5e

/-- `matchstar`; `here` is `matchhere` of the rest of the pattern. -/
def matchstar (here : Text → Bool) (c : UInt8) : Text → Bool
  | [] => here []
  | t::ts => here (t::ts) || ((t==c || c==period) && matchstar here c ts)

/-- The last test of `matchhere`; `here` is `matchhere` of the rest of the pattern. -/
def matchone (here : Text → Bool) (c : UInt8) : Text → Bool
  | [] => false
  | t::ts => (c==period || c==t) && here ts

/-- `matchhere` -/
def matchhere : Text → Text → Bool
  | [],_ => true
  | [c],text => if c=dollar then text.isEmpty else matchone (matchhere []) c text
  | c::d::re,text =>
    if d=asterisk then matchstar (matchhere re) c text else matchone (matchhere (d::re)) c text

/-- The loop of `match`. -/
def anywhere (re : Text) : Text → Bool
  | [] => matchhere re []
  | t::ts => matchhere re (t::ts) || anywhere re ts

/-- `match` -/
def matchLine (re text : Text) : Bool :=
  match re with
  | c::re' => if c=caret then matchhere re' text else anywhere re text
  | [] => anywhere re text

/-- What a character of a pattern stands for. -/
def letters (c t : UInt8) : Bool := c==period || c==t

/-- The parts of a pattern, and whether it is tied to the end. -/
def parts : Text → List (Piece UInt8) × Bool
  | [] => ([],false)
  | [c] => if c=dollar then ([],true) else ([.once (letters c)],false)
  | c::d::re =>
    if d=asterisk then (.star (letters c)::(parts re).1,(parts re).2)
    else (.once (letters c)::(parts (d::re)).1,(parts (d::re)).2)

/-- What a pattern means. -/
def pattern (re : Text) : Pattern UInt8 :=
  if re.head?=some caret then ⟨true,(parts re.tail).1,(parts re.tail).2⟩
  else ⟨false,(parts re).1,(parts re).2⟩

section Matching

variable {L : Language UInt8} {here : Text → Bool}

theorem matchstar_iff (hhere : ∀ t,here t=true ↔ t∈L) (c : UInt8) (text : Text) :
    matchstar here c text=true ↔ text∈(letter (letters c))∗*L := by
  refine @loop_iff _ (letters c) L here (matchstar here c) hhere rfl (fun t ts => ?_) text
  rw [matchstar,letters,Bool.or_comm (t==c),Bool.beq_comm (a:=t)]

theorem matchone_iff (hhere : ∀ t,here t=true ↔ t∈L) (c : UInt8) (text : Text) :
    matchone here c text=true ↔ text∈letter (letters c)*L := by
  cases text with
  | nil => exact iff_of_false Bool.false_ne_true nil_notMem_letter_mul
  | cons t ts => rw [matchone,Bool.and_eq_true,hhere,cons_mem_letter_mul,letters]

/-- `matchhere` finds the texts with a match at their start. -/
theorem matchhere_iff (s : Bool) (re text : Text) :
    matchhere re text=true ↔ text∈(⟨s,(parts re).1,(parts re).2⟩ : Pattern UInt8).here := by
  induction re using parts.induct generalizing text with
  | case1 => exact iff_of_true rfl here_free
  | case2 =>
    rw [matchhere,if_pos rfl,parts,if_pos rfl,here_atEnd,List.isEmpty_iff]
  | case3 c hc =>
    rw [matchhere,if_neg hc,parts,if_neg hc,here_cons]
    exact matchone_iff (fun t => iff_of_true rfl here_free) c text
  | case4 c re ih =>
    rw [matchhere,if_pos rfl,parts,if_pos rfl,here_cons]
    exact matchstar_iff ih c text
  | case5 c d re hd ih =>
    rw [matchhere,if_neg hd,parts,if_neg hd,here_cons]
    exact matchone_iff ih c text

theorem anywhere_iff {re : Text} (hhere : ∀ t,matchhere re t=true ↔ t∈L) (text : Text) :
    anywhere re text=true ↔ text∈(letter fun _ => true)∗*L :=
  @loop_iff _ (fun _ => true) L (matchhere re) (anywhere re) hhere rfl
    (fun t ts => by rw [anywhere,Bool.true_and]) text

end Matching

/-- The matcher accepts a text if it is in the language of the pattern. -/
theorem matchLine_iff (re text : Text) : matchLine re text=true ↔ text∈(pattern re).lang := by
  have hfree : anywhere re text=true ↔
      text∈(⟨false,(parts re).1,(parts re).2⟩ : Pattern UInt8).lang := by
    rw [lang_free]
    exact anywhere_iff (matchhere_iff false re) text
  cases re with
  | nil => exact hfree
  | cons c re =>
    by_cases hc : c=caret
    · rw [matchLine,if_pos hc,pattern,if_pos (by rw [List.head?_cons,hc]),lang_atStart]
      exact matchhere_iff true re text
    · have hhead : (c::re).head?≠some caret := fun h => hc (Option.some.inj h)
      rw [matchLine,if_neg hc,pattern,if_neg hhead]
      exact hfree

/-- `a.*b$` -/
example : matchLine [0x61,0x2e,0x2a,0x62,0x24] [0x78,0x61,0x62,0x62]=true := by decide

/-- Bytes of memory. -/
abbrev Memory := ℕ → UInt8

/-- `sizeof(buf)` -/
def bufSize : ℕ := 1024

/-- The bytes from an address on. -/
def span (mem : Memory) (p : ℕ) : ℕ → Text
  | 0 => []
  | n+1 => mem p::span mem (p+1) n

/-- The bytes from an address on are written. -/
def store (mem : Memory) (p : ℕ) : Text → Memory
  | [] => mem
  | b::bs => store (Function.update mem p b) (p+1) bs

/-- The C string at an address; there are `n` bytes from there on. -/
def cstring (mem : Memory) : ℕ → ℕ → Text
  | 0,_ => []
  | n+1,p => if mem p=0 then [] else mem p::cstring mem n (p+1)

/-- `strchr`; there are `n` bytes from the address on. -/
def strchr (mem : Memory) (c : UInt8) : ℕ → ℕ → Option ℕ
  | 0,_ => none
  | n+1,p => if mem p=0 then none else if mem p=c then some p else strchr mem c n (p+1)

/-- The loop of `memmove` that goes up. -/
def moveUp (mem : Memory) : ℕ → ℕ → ℕ → Memory
  | _,_,0 => mem
  | dst,src,n+1 => moveUp (Function.update mem dst (mem src)) (dst+1) (src+1) n

/-- The loop of `memmove` that goes down. -/
def moveDown (mem : Memory) (dst src : ℕ) : ℕ → Memory
  | 0 => mem
  | n+1 => moveDown (Function.update mem (dst+n) (mem (src+n))) dst src n

/-- `memmove` -/
def memmove (mem : Memory) (dst src n : ℕ) : Memory :=
  if dst < src then moveUp mem dst src n else moveDown mem dst src n

/-- The inner loop of `grep`: what it writes, the buffer, and `p`. -/
def printLines (re : Text) : ℕ → Memory → ℕ → Text × Memory × ℕ
  | 0,buf,p => ([],buf,p)
  | n+1,buf,p =>
    match strchr buf newline (bufSize-p) p with
    | none => ([],buf,p)
    | some q =>
      let buf := Function.update buf q 0
      if matchLine re (cstring buf (bufSize-p) p)=true then
        let buf := Function.update buf q newline
        let rest := printLines re n buf (q+1)
        (span buf p (q+1-p)++rest.1,rest.2)
      else printLines re n buf (q+1)

/-- `read`: it fails where no byte is asked for, and otherwise returns at least one, if there is
one left, and no more than the pace allows. -/
def read (pace : ℕ) (data : Text) (count : ℕ) : Text := data.take (min count (pace+1))

/-- `grep`, after `k` reads: what it writes, and the buffer. -/
def grep (re : Text) (pace : ℕ → ℕ) (k : ℕ) (data : Text) (buf : Memory) (m : ℕ) : Text × Memory :=
  let got := read (pace k) data (bufSize-m-1)
  if got=[] then ([],buf)
  else
    let n := m+got.length
    let buf := Function.update (store buf m got) n 0
    let lines := printLines re bufSize buf 0
    let p := lines.2.2
    let rest := grep re pace (k+1) (data.drop got.length) (memmove lines.2.1 0 p (n-p)) (n-p)
    (lines.1++rest.1,rest.2)
termination_by data.length
decreasing_by
  have hlen : (read (pace k) data (bufSize-m-1)).length≤data.length := List.length_take_le' ..
  have hpos : 0 < (read (pace k) data (bufSize-m-1)).length := List.length_pos_iff.mpr ‹_›
  rw [List.length_drop]
  omega

section Strings

variable {mem : Memory} {c : UInt8} {p n k i : ℕ}

theorem span_length : (span mem p n).length=n := by
  induction n generalizing p with
  | zero => rfl
  | succ n ih => rw [span,List.length_cons,ih]

theorem span_add : span mem p (n+k)=span mem p n++span mem (p+n) k := by
  induction n generalizing p with
  | zero => rw [Nat.zero_add]; rfl
  | succ n ih => rw [Nat.succ_add,span,ih,span,List.cons_append,Nat.add_right_comm p 1 n,Nat.add_assoc]

/-- Bytes that agree. -/
theorem span_congr {mem' : Memory} {q : ℕ} (h : ∀ i < n,mem (p+i)=mem' (q+i)) :
    span mem p n=span mem' q n := by
  induction n generalizing p q with
  | zero => rfl
  | succ n ih =>
    have h0 : mem p=mem' q := h 0 (Nat.succ_pos n)
    rw [span,span,h0]
    refine congrArg _ (ih fun i hi => ?_)
    rw [Nat.add_right_comm,Nat.add_right_comm q]
    exact h (i+1) (Nat.succ_lt_succ hi)

/-- What is written is there, and nothing else changes. -/
theorem store_apply (bs : Text) :
    store mem p bs i=if p ≤ i ∧ i < p+bs.length then bs.getD (i-p) 0 else mem i := by
  induction bs generalizing mem p with
  | nil =>
    rw [store,if_neg]
    simp
  | cons b bs ih =>
    rw [store,ih]
    by_cases hi : i=p
    · subst hi
      simp
    · rw [Function.update_of_ne hi]
      by_cases hlt : p ≤ i
      · obtain ⟨j,rfl⟩ : ∃ j,i=p+1+j := ⟨i-(p+1),by omega⟩
        have hj : p+1+j-p=j+1 := by omega
        simp [hj]
        grind
      · rw [if_neg (by omega),if_neg (by omega)]

theorem span_store (bs : Text) : span (store mem p bs) p bs.length=bs := by
  induction bs generalizing mem p with
  | nil => rfl
  | cons b bs ih =>
    have hb : store (Function.update mem p b) (p+1) bs p=b := by
      rw [store_apply,if_neg (by omega),Function.update_self]
    rw [List.length_cons,span,store,hb,ih]

/-- Bytes that are copied from above are not overwritten before. -/
theorem moveUp_apply {dst src : ℕ} (h : dst < src) :
    moveUp mem dst src n i=if dst ≤ i ∧ i < dst+n then mem (src+(i-dst)) else mem i := by
  induction n generalizing mem dst src with
  | zero => rw [moveUp,if_neg (by omega)]
  | succ n ih =>
    rw [moveUp,ih (Nat.succ_lt_succ h)]
    obtain hi | rfl | hi := lt_trichotomy i dst
    · rw [if_neg (by omega),if_neg (by omega),Function.update_of_ne (Nat.ne_of_lt hi)]
    · rw [if_neg (by omega),if_pos (by omega),Function.update_self,Nat.sub_self,Nat.add_zero]
    · by_cases hn : i < dst+(n+1)
      · have hsrc : src+1+(i-(dst+1))=src+(i-dst) := by omega
        rw [if_pos (by omega),if_pos (by omega),Function.update_of_ne (by omega),hsrc]
      · rw [if_neg (by omega),if_neg (by omega),Function.update_of_ne (Nat.ne_of_gt hi)]

/-- Bytes that are copied from below are not overwritten before. -/
theorem moveDown_apply {dst src : ℕ} (h : src≤dst) :
    moveDown mem dst src n i=if dst ≤ i ∧ i < dst+n then mem (src+(i-dst)) else mem i := by
  induction n generalizing mem with
  | zero => rw [moveDown,if_neg (by omega)]
  | succ n ih =>
    rw [moveDown,ih]
    by_cases hi : i=dst+n
    · subst hi
      rw [if_neg (by omega),if_pos (by omega),Function.update_self,Nat.add_sub_cancel_left]
    · by_cases hn : dst ≤ i ∧ i < dst+n
      · rw [if_pos hn,if_pos (by omega),Function.update_of_ne (by omega)]
      · rw [if_neg hn,if_neg (by omega),Function.update_of_ne hi]

/-- `memmove` copies bytes as they were, wherever the two places are. -/
theorem memmove_apply (mem : Memory) (dst src n i : ℕ) :
    memmove mem dst src n i=if dst ≤ i ∧ i < dst+n then mem (src+(i-dst)) else mem i := by
  rw [memmove]
  split
  · exact moveUp_apply ‹_›
  · exact moveDown_apply (Nat.le_of_not_lt ‹_›)

theorem span_memmove (dst src : ℕ) : span (memmove mem dst src n) dst n=span mem src n := by
  refine span_congr fun i hi => ?_
  rw [memmove_apply,if_pos (by omega),Nat.add_sub_cancel_left]

end Strings

section Lines

variable {re rest data l x : Text} {mem : Memory} {p n k : ℕ}

/-- The first line of a text, and what is behind it, if no NUL hides its end. -/
def cut : Text → Option (Text × Text)
  | [] => none
  | b::bs =>
    if b=0 then none else if b=newline then some ([],bs) else (cut bs).map fun l => (b::l.1,l.2)

theorem cut_some {r : Text} (h : cut rest=some (l,r)) : rest=l++newline::r ∧ newline∉l ∧ 0∉l := by
  induction rest generalizing l with
  | nil => cases h
  | cons b bs ih =>
    rw [cut] at h
    split at h
    · cases h
    · rename_i hb
      split at h
      · rename_i hnl
        cases h
        rw [hnl]
        simp
      · rename_i hnl
        obtain ⟨⟨l',r'⟩,hcut,hl⟩ := Option.map_eq_some_iff.mp h
        cases hl
        obtain ⟨rfl,h1,h2⟩ := ih hcut
        simp [h1,h2,Ne.symm hb,Ne.symm hnl]

/-- Where no line ends before a NUL, the first line has a NUL, or ends later. -/
theorem cut_none (h : cut rest=none) (hl : rest++data=l++newline::x) (hnl : newline∉l) :
    0∈l ∨ rest.length≤l.length := by
  induction rest generalizing l with
  | nil => exact .inr (Nat.zero_le _)
  | cons b bs ih =>
    rw [cut] at h
    cases l with
    | nil =>
      obtain ⟨rfl,-⟩ := List.cons.inj hl
      rw [if_neg (by decide),if_pos rfl] at h
      cases h
    | cons c l =>
      obtain ⟨rfl,htail⟩ := List.cons.inj hl
      split at h
      · rename_i hb
        exact .inl (by simp [hb])
      · split at h
        · cases h
        · refine (ih (Option.map_eq_none_iff.mp h) htail fun hmem => hnl (.tail _ hmem)).imp
            (List.mem_cons_of_mem _) fun hlen => ?_
          rw [List.length_cons,List.length_cons]
          exact Nat.succ_le_succ hlen

/-- A line that fits into the buffer, without a NUL. -/
def fits (l : Text) : Bool := decide (l.length+1 < bufSize ∧ 0∉l)

/-- The lines with a match, up to the first that does not fit. -/
def printed (re data : Text) : Text :=
  (((data.splitOn newline).dropLast.takeWhile fits).filter (matchLine re ·)).flatMap (·++[newline])

theorem printed_line (hnl : newline∉l) (hfits : fits l=true) :
    printed re (l++newline::x)=(if matchLine re l=true then l++[newline] else [])++printed re x := by
  rw [printed,List.splitOn_append_cons_self_of_not_mem hnl,
    List.dropLast_cons_of_ne_nil (List.splitOn_ne_nil newline _),List.takeWhile_cons_of_pos hfits]
  by_cases hm : matchLine re l=true
  · rw [List.filter_cons_of_pos hm,if_pos hm,List.flatMap_cons,printed]
  · rw [List.filter_cons_of_neg hm,if_neg hm,List.nil_append,printed]

/-- Nothing is printed where the first line does not fit. -/
theorem printed_nil (h : ∀ l x,data=l++newline::x → newline∉l → fits l=false) :
    printed re data=[] := by
  by_cases hmem : newline∈data
  · obtain ⟨l,x,hdata,hnl⟩ := List.eq_append_cons_of_mem hmem
    have hfits := h l x hdata hnl
    rw [printed,hdata,List.splitOn_append_cons_self_of_not_mem hnl,
      List.dropLast_cons_of_ne_nil (List.splitOn_ne_nil newline _),
      List.takeWhile_cons_of_neg (by rw [hfits]; exact Bool.false_ne_true)]
    rfl
  · rw [printed,List.splitOn_eq_singleton hmem]
    rfl

theorem strchr_eq {f : ℕ} (hz : mem (p+n)=0) (hf : n < f) :
    strchr mem newline f p=(cut (span mem p n)).map fun l => p+l.1.length := by
  induction n generalizing p f with
  | zero =>
    obtain ⟨f,rfl⟩ := Nat.exists_eq_succ_of_ne_zero (Nat.ne_of_gt hf)
    exact if_pos hz
  | succ n ih =>
    obtain ⟨f,rfl⟩ := Nat.exists_eq_succ_of_ne_zero (Nat.ne_of_gt (Nat.zero_lt_of_lt hf))
    rw [strchr,span,cut]
    split
    · rfl
    · split
      · rfl
      · rw [ih (by rwa [Nat.add_right_comm]) (Nat.lt_of_succ_lt_succ hf),Option.map_map]
        refine Option.map_congr fun l _ => ?_
        simp only [Function.comp_apply,List.length_cons]
        omega

theorem cstring_eq {f : ℕ} (hz : mem (p+n)=0) (hf : n < f) (h : 0∉span mem p n) :
    cstring mem f p=span mem p n := by
  induction n generalizing p f with
  | zero =>
    obtain ⟨f,rfl⟩ := Nat.exists_eq_succ_of_ne_zero (Nat.ne_of_gt hf)
    exact if_pos hz
  | succ n ih =>
    obtain ⟨f,rfl⟩ := Nat.exists_eq_succ_of_ne_zero (Nat.ne_of_gt (Nat.zero_lt_of_lt hf))
    rw [span,List.mem_cons,not_or] at h
    rw [cstring,if_neg fun h0 => h.1 h0.symm,span,
      ih (by rwa [Nat.add_right_comm]) (Nat.lt_of_succ_lt_succ hf) h.2]

/-- Where the first line of the buffer is, and what is behind it. -/
theorem span_line (h : span mem p n=l++newline::x) :
    n=l.length+1+x.length ∧ span mem p l.length=l ∧ mem (p+l.length)=newline ∧
      span mem (p+l.length+1) x.length=x := by
  have hn : n=l.length+1+x.length := by
    have hlen := congrArg List.length h
    rw [span_length,List.length_append,List.length_cons] at hlen
    omega
  subst hn
  rw [Nat.add_assoc,span_add] at h
  obtain ⟨hl,hx⟩ := List.append_inj h span_length
  rw [Nat.add_comm 1,span,List.cons.injEq] at hx
  exact ⟨rfl,hl,hx.1,hx.2⟩

/-- The inner loop prints the lines of the buffer, and leaves a rest without one. -/
theorem printLines_eq (f : ℕ) (hz : mem (p+n)=0) (hn : p+n < bufSize) (hf : n≤f) :
    ∃ d,d≤n ∧ (printLines re f mem p).2.2=p+d ∧
      cut (span (printLines re f mem p).2.1 (p+d) (n-d))=none ∧
      (∀ x,printed re (span mem p n++x)=(printLines re f mem p).1++
        printed re (span (printLines re f mem p).2.1 (p+d) (n-d)++x)) ∧
      ∀ i,p+n ≤ i → (printLines re f mem p).2.1 i=mem i := by
  induction f generalizing mem p n with
  | zero =>
    obtain rfl := Nat.le_zero.mp hf
    exact ⟨0,Nat.le_refl _,rfl,rfl,fun x => rfl,fun i _ => rfl⟩
  | succ f ih =>
    have hfuel : n < bufSize-p := by omega
    have hstrchr := strchr_eq hz hfuel
    cases hcut : cut (span mem p n) with
    | none =>
      rw [hcut,Option.map_none] at hstrchr
      have hstop : printLines re (f+1) mem p=([],mem,p) := by simp only [printLines,hstrchr]
      rw [hstop]
      exact ⟨0,Nat.zero_le _,rfl,hcut,fun x => rfl,fun i _ => rfl⟩
    | some line =>
      obtain ⟨l,r⟩ := line
      rw [hcut,Option.map_some] at hstrchr
      obtain ⟨hspan,hnl,h0⟩ := cut_some hcut
      obtain ⟨rfl,hl,hq,hr⟩ := span_line hspan
      have hfits : fits l=true := decide_eq_true ⟨by omega,h0⟩
      -- The rest of the buffer is the same, whether the newline is put back or not.
      have hrest : ∀ mem' : Memory,(∀ i,i≠p+l.length → mem' i=mem i) →
          ∃ d,d ≤ r.length ∧ (printLines re f mem' (p+l.length+1)).2.2=p+(l.length+1+d) ∧
            cut (span (printLines re f mem' (p+l.length+1)).2.1 (p+(l.length+1+d))
              (l.length+1+r.length-(l.length+1+d)))=none ∧
            (∀ x,printed re (r++x)=(printLines re f mem' (p+l.length+1)).1++
              printed re (span (printLines re f mem' (p+l.length+1)).2.1 (p+(l.length+1+d))
                (l.length+1+r.length-(l.length+1+d))++x)) ∧
            ∀ i,p+(l.length+1+r.length) ≤ i →
              (printLines re f mem' (p+l.length+1)).2.1 i=mem i := by
        intro mem' hmem
        have hz' : mem' (p+l.length+1+r.length)=0 := by
          rw [hmem _ (by omega),← hz]
          exact congrArg mem (by omega)
        obtain ⟨d,hd,hp,hc,hprint,hframe⟩ := ih hz' (by omega) (by omega)
        have hr' : span mem' (p+l.length+1) r.length=r :=
          (span_congr fun i _ => hmem _ (by omega)).trans hr
        have hplace : p+l.length+1+d=p+(l.length+1+d) := by omega
        have hsize : r.length-d=l.length+1+r.length-(l.length+1+d) := by omega
        rw [hr'] at hprint
        rw [hplace,hsize] at hc hprint
        refine ⟨d,hd,hp.trans hplace,hc,hprint,fun i hi => ?_⟩
        rw [hframe i (by omega),hmem i (by omega)]
      have hcstring : cstring (Function.update mem (p+l.length) 0) (bufSize-p) p=l := by
        have hsame : span (Function.update mem (p+l.length) 0) p l.length=l :=
          (span_congr fun i hi => Function.update_of_ne (by omega) ..).trans hl
        rw [@cstring_eq _ p l.length _ (Function.update_self ..) (by omega) (by rwa [hsame]),hsame]
      by_cases hm : matchLine re l=true
      · have hback : Function.update (Function.update mem (p+l.length) 0) (p+l.length) newline=mem := by
          rw [Function.update_idem,← hq,Function.update_eq_self]
        obtain ⟨d,hd,hp,hc,hprint,hframe⟩ := hrest mem fun i _ => rfl
        have hline : span mem p (p+l.length+1-p)=l++[newline] := by
          rw [Nat.add_assoc,Nat.add_sub_cancel_left,span_add,hl,span,hq]
          rfl
        have hnext : printLines re (f+1) mem p=
            (l++[newline]++(printLines re f mem (p+l.length+1)).1,
              (printLines re f mem (p+l.length+1)).2) := by
          simp only [printLines,hstrchr,hcstring,if_pos hm,hback,hline]
        rw [hnext]
        refine ⟨l.length+1+d,by omega,hp,hc,fun x => ?_,hframe⟩
        rw [hspan,List.append_assoc,List.cons_append,printed_line hnl hfits,if_pos hm,hprint,
          List.append_assoc (l++[newline])]
      · obtain ⟨d,hd,hp,hc,hprint,hframe⟩ := hrest (Function.update mem (p+l.length) 0)
          fun i hi => Function.update_of_ne hi ..
        have hnext : printLines re (f+1) mem p=
            printLines re f (Function.update mem (p+l.length) 0) (p+l.length+1) := by
          simp only [printLines,hstrchr,hcstring,if_neg hm]
        rw [hnext]
        refine ⟨l.length+1+d,by omega,hp,hc,fun x => ?_,hframe⟩
        rw [hspan,List.append_assoc,List.cons_append,printed_line hnl hfits,if_neg hm,List.nil_append,
          hprint]

/-- What is left in the buffer is followed by what is left of the file. -/
theorem grep_eq (pace : ℕ → ℕ) {m : ℕ} (hm : m < bufSize) (hcut : cut (span mem 0 m)=none) :
    (grep re pace k data mem m).1=printed re (span mem 0 m++data) ∧
      ∀ i,bufSize ≤ i → (grep re pace k data mem m).2 i=mem i := by
  induction hlen : data.length using Nat.strong_induction_on generalizing data mem m k with
  | _ size ih =>
    by_cases hgot : read (pace k) data (bufSize-m-1)=[]
    · have hstop : grep re pace k data mem m=([],mem) := by
        rw [grep]
        exact if_pos hgot
      rw [hstop]
      refine ⟨(printed_nil fun l x hl hnl => ?_).symm,fun i _ => rfl⟩
      refine decide_eq_false fun hfits => (cut_none hcut hl hnl).elim hfits.2 fun hlen => ?_
      rw [span_length] at hlen
      -- Either the file has no more bytes, or the buffer is full.
      obtain hdata | hfull : data=[] ∨ m+1=bufSize := by
        rcases List.take_eq_nil_iff.mp hgot with h | h
        · right; omega
        · exact .inl h
      · rw [hdata,List.append_nil] at hl
        have htotal := congrArg List.length hl
        rw [span_length,List.length_append,List.length_cons] at htotal
        omega
      · have := hfits.1
        omega
    · rw [grep]
      simp only [if_neg hgot]
      generalize hg : read (pace k) data (bufSize-m-1)=got at hgot
      have hpos : 0 < got.length := List.length_pos_iff.mpr hgot
      have hroom : m+got.length < bufSize := by
        have hle : got.length≤bufSize-m-1 := by
          rw [← hg,read,List.length_take]
          omega
        omega
      have hsplit : got++data.drop got.length=data := by
        rw [← hg,read,List.length_take,List.take_eq_take_min,List.take_append_drop]
      have hspan : span (Function.update (store mem m got) (m+got.length) 0) 0 (m+got.length)=
          span mem 0 m++got := by
        rw [span_add,Nat.zero_add]
        refine congrArg₂ _ (span_congr fun i hi => ?_) ?_
        · rw [Function.update_of_ne (by omega),store_apply,if_neg (by omega)]
        · refine (span_congr fun i hi => ?_).trans (@span_store mem m got)
          exact Function.update_of_ne (by omega) ..
      generalize hbuf : Function.update (store mem m got) (m+got.length) 0=buf at hspan
      have hz : buf (0+(m+got.length))=0 := by rw [← hbuf,Nat.zero_add,Function.update_self]
      obtain ⟨d,hd,hp,hc,hprint,hframe⟩ := @printLines_eq re buf 0 (m+got.length) bufSize hz
        (by rwa [Nat.zero_add]) (Nat.le_of_lt hroom)
      rw [Nat.zero_add] at hp hc hprint hframe
      have hmoved : span (memmove (printLines re bufSize buf 0).2.1 0 d (m+got.length-d)) 0
          (m+got.length-d)=span (printLines re bufSize buf 0).2.1 d (m+got.length-d) :=
        span_memmove ..
      have hless : (data.drop got.length).length < size := by
        have hlen' := congrArg List.length hsplit
        rw [List.length_append] at hlen'
        omega
      rw [hp]
      obtain ⟨hout,hout_frame⟩ := @ih _ hless (data.drop got.length)
        (memmove (printLines re bufSize buf 0).2.1 0 d (m+got.length-d)) (k+1) (m+got.length-d)
        (by omega) (by rw [hmoved]; exact hc) rfl
      refine ⟨?_,fun i hi => ?_⟩
      · rw [hout,hmoved,← hprint,hspan,List.append_assoc,hsplit]
      · rw [hout_frame i hi,memmove_apply,if_neg (by omega),hframe i (by omega),← hbuf,
          Function.update_of_ne (by omega),store_apply,if_neg (by omega)]

end Lines

/-- What `printf` writes where a file cannot be opened. -/
def cannotOpen (name : Text) : Text := "grep: cannot open ".toUTF8.toList++name++[newline]

/-- The loop of `main` over its files, with what `open` finds: what it writes, and the buffer. Each
argument has a pace of its own for its reads. -/
def searchFiles (re : Text) :
    (ℕ → ℕ → ℕ) → List (Text × Option Text) → Memory → Text × Memory
  | _,[],buf => ([],buf)
  | _,(name,none)::_,buf => (cannotOpen name,buf)
  | pace,(_,some data)::files,buf =>
    let here := grep re (pace 0) 0 data buf 0
    let rest := searchFiles re (fun i => pace (i+1)) files here.2
    (here.1++rest.1,rest.2)

/-- What is written about a file. -/
def answer (re : Text) : Text × Option Text → Text
  | (name,none) => cannotOpen name
  | (_,some data) => printed re data

/-- The files up to the first that cannot be opened, with that one. -/
def searched : List (Text × Option Text) → List (Text × Option Text)
  | [] => []
  | (name,none)::_ => [(name,none)]
  | (name,some data)::files => (name,some data)::searched files

/-- `grep` writes the lines of its files with a match, of each up to the first line that is too long
or has a NUL, in whichever pieces it reads them and whatever the buffer held before; it does not
write behind the buffer. -/
theorem files_printed (re : Text) (pace : ℕ → ℕ → ℕ) (files : List (Text × Option Text))
    (buf : Memory) :
    (searchFiles re pace files buf).1=(searched files).flatMap (answer re) ∧
      ∀ i,bufSize ≤ i → (searchFiles re pace files buf).2 i=buf i := by
  induction files generalizing pace buf with
  | nil => exact ⟨rfl,fun i _ => rfl⟩
  | cons file files ih =>
    obtain ⟨name,found⟩ := file
    cases found with
    | none => exact ⟨(List.append_nil _).symm,fun i _ => rfl⟩
    | some data =>
      obtain ⟨hhere,hframe⟩ :=
        @grep_eq re data buf 0 (pace 0) 0 (Nat.zero_lt_succ _) rfl
      obtain ⟨hrest,hrest_frame⟩ := ih (fun i => pace (i+1)) (grep re (pace 0) 0 data buf 0).2
      rw [searchFiles,searched,List.flatMap_cons]
      refine ⟨?_,fun i hi => ?_⟩
      · simp only [hhere,hrest]
        rfl
      · simp only [hrest_frame i hi,hframe i hi]

end Xv6Rust.Grep
