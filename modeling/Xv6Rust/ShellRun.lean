import Xv6Rust.ShellParse

/-!
# The processes of a command line

`runcmd` of `user/sh.c`: the shell forks for the parts of a command, and every process arranges its
descriptors with `close`, `open`, `pipe` and `dup` before it runs a program. What a program should
read and write follows from the command alone; the descriptors that it gets are those, and
otherwise the ones the shell had. A process that waits has given up the ends of its pipe, so that
none stays open anywhere else.

A fork copies the descriptors, and no process changes those of another, so the processes of a
command can be followed one after the other.
-/

namespace Xv6Rust.ShellRun

open ShellSyntax ShellParse Results

/-- The place of a part in a command. -/
abbrev Place := List Bool

/-- What a descriptor stands for. -/
inductive File where
  /-- A file that was open before. -/
  | inherited (n : ℕ)
  /-- A file that a redirection has opened. -/
  | opened (file : Text) (mode : ℕ)
  /-- `p[0]` of the pipe at a place. -/
  | readEnd (place : Place)
  /-- `p[1]` of the pipe at a place. -/
  | writeEnd (place : Place)
  deriving DecidableEq

/-- `NFILE` -/
def nfile : ℕ := 16

/-- `open_files` -/
abbrev Files := ℕ → Option File

/-- The descriptors that are free, the lowest first. -/
def frees (files : Files) : List ℕ := (List.range nfile).filter fun fd => (files fd).isNone

/-- `close` -/
def close (files : Files) (fd : ℕ) : Files := Function.update files fd none

/-- `open` of a file that can be opened, and `dup` of one that is open: the lowest free descriptor
gets it. -/
def install (files : Files) (file : Option File) : Option Files :=
  (frees files).head?.map fun fd => Function.update files fd file

/-- `pipe`: the two lowest free descriptors get the ends. -/
def pipe (files : Files) (place : Place) : Option (Files × ℕ × ℕ) :=
  match frees files with
  | r::w::_ => some (Function.update (Function.update files r (some (.readEnd place))) w
      (some (.writeEnd place)),r,w)
  | _ => none

/-- Which system calls succeed where descriptors are left. -/
structure World where
  /-- The open of the redirection at a place. -/
  opens : Place → Bool
  /-- The fork of a process for the part at a place. -/
  forks : Place → Bool
  pipes : Place → Bool

/-- A process that runs a program, or that waits for others, and its descriptors. -/
structure Process where
  argv : Option (List Text)
  files : Files

/-- `close(fd); dup(p[i]); close(p[0]); close(p[1])` -/
def attach (files : Files) (fd : ℕ) (p : ℕ × ℕ) (i : ℕ) : Files :=
  let files := close files fd
  let files := (install files (files i)).getD files
  close (close files p.1) p.2

/-- The programs that `runcmd` runs, in the process that calls it and in the processes that it
forks, and the processes in which it waits. Where a call fails, the process that made it prints a
message and exits. -/
def runcmd (w : World) : Cmd Text → Place → Files → List Process
  | .exec argv,_,files => if argv=[] then [] else [⟨some argv,files⟩]
  | .redir c file mode fd,place,files =>
    if w.opens place=true then
      match install (close files fd) (some (.opened file mode)) with
      | some files => runcmd w c (false::place) files
      | none => []
    else []
  | .list l r,place,files =>
    if w.forks (true::place)=true then
      runcmd w l (true::place) files++⟨none,files⟩::runcmd w r (false::place) files
    else []
  | .pipe l r,place,files =>
    if w.pipes place=true then
      match pipe files place with
      | some (files,p) =>
        if w.forks (true::place)=true then
          runcmd w l (true::place) (attach files 1 p p.2)++
            if w.forks (false::place)=true then
              runcmd w r (false::place) (attach files 0 p p.1)++
                [⟨none,close (close files p.1) p.2⟩]
            else []
        else []
      | none => []
    else []
  | .back c,place,files =>
    if w.forks (true::place)=true then runcmd w c (true::place) files else []

/-- A program, or a process that waits, with its input and its output. -/
structure Job where
  argv : Option (List Text)
  input : File
  output : File

/-- The programs of a command, by the meaning of its parts, and the processes that wait: one
between the commands of a list, and one behind the two sides of a pipe. -/
def jobs (w : World) : Cmd Text → Place → File → File → List Job
  | .exec argv,_,i,o => if argv=[] then [] else [⟨some argv,i,o⟩]
  | .redir c file mode fd,place,i,o =>
    if w.opens place=true then
      if fd=0 then jobs w c (false::place) (.opened file mode) o
      else jobs w c (false::place) i (.opened file mode)
    else []
  | .list l r,place,i,o =>
    if w.forks (true::place)=true then
      jobs w l (true::place) i o++⟨none,i,o⟩::jobs w r (false::place) i o
    else []
  | .pipe l r,place,i,o =>
    if w.pipes place=true ∧ w.forks (true::place)=true then
      jobs w l (true::place) i (.writeEnd place)++
        if w.forks (false::place)=true then
          jobs w r (false::place) (.readEnd place) o++[⟨none,i,o⟩]
        else []
    else []
  | .back c,place,i,o => if w.forks (true::place)=true then jobs w c (true::place) i o else []

/-- The shell's descriptors with others for input and output. -/
def between (files : Files) (i o : File) : Files :=
  Function.update (Function.update files 0 (some i)) 1 (some o)

/-- The process with the descriptors that it should have. -/
def Job.launch (files : Files) (j : Job) : Process := ⟨j.argv,between files j.input j.output⟩

/-- Redirections are of the input or the output. -/
def Standard : Cmd Text → Prop
  | .exec _ => True
  | .redir c _ _ fd => fd≤1 ∧ Standard c
  | .pipe l r => Standard l ∧ Standard r
  | .list l r => Standard l ∧ Standard r
  | .back c => Standard c

section Descriptors

variable {files : Files} {i o : File} {x y fd : ℕ}

theorem between_zero : between files i o 0=some i := by
  rw [between,Function.update_of_ne Nat.zero_ne_one,Function.update_self]

theorem between_one : between files i o 1=some o := Function.update_self ..

theorem between_other (h0 : x≠0) (h1 : x≠1) : between files i o x=files x := by
  rw [between,Function.update_of_ne h1,Function.update_of_ne h0]

/-- Free descriptors are those that the shell has free. -/
theorem isNone_between (h0 : (files 0).isSome) (h1 : (files 1).isSome) (x : ℕ) :
    (between files i o x).isNone=(files x).isNone := by
  by_cases e1 : x=1
  · simp [e1,between_one,← Option.not_isSome,h1]
  · by_cases e0 : x=0
    · simp [e0,between_zero,← Option.not_isSome,h0]
    · rw [between_other e0 e1]

theorem frees_between (h0 : (files 0).isSome) (h1 : (files 1).isSome) :
    frees (between files i o)=frees files :=
  List.filter_congr fun x _ => isNone_between h0 h1 x

/-- What is closed and opened again is the same descriptor, if those below it are open. -/
theorem install_close (hlt : fd < nfile) (hbelow : ∀ x,x < fd → (files x).isSome)
    (file : Option File) : install (close files fd) file=some (Function.update files fd file) := by
  have hhead : (frees (close files fd)).head?=some fd := by
    rw [frees,List.head?_filter,List.find?_range_eq_some]
    refine ⟨by simp [close],List.mem_range.mpr hlt,fun x hx => ?_⟩
    have hsome := hbelow x hx
    rw [close,Function.update_of_ne (Nat.ne_of_lt hx),← Option.not_isSome,hsome]
    rfl
  rw [install,hhead,Option.map_some,close,Function.update_idem]

theorem below_between (hfd : fd≤1) (x : ℕ) (hx : x < fd) : (between files i o x).isSome := by
  obtain rfl : x=0 := by omega
  rw [between_zero]
  rfl

theorem mem_frees (h : x∈frees files) : files x=none := by
  simpa using (List.mem_filter.mp h).2

/-- The descriptors of a pipe. -/
theorem pipe_eq (h : 1 < (frees files).length) (place : Place) :
    ∃ r w,pipe files place=some (Function.update (Function.update files r (some (.readEnd place))) w
      (some (.writeEnd place)),r,w) ∧ files r=none ∧ files w=none ∧ r≠w := by
  have hnodup : (frees files).Nodup := List.Nodup.filter _ List.nodup_range
  cases hf : frees files with
  | nil =>
    rw [hf] at h
    exact absurd h (Nat.not_lt_zero _)
  | cons r rest =>
    cases rest with
    | nil =>
      rw [hf] at h
      exact absurd h (Nat.lt_irrefl _)
    | cons w rest =>
      rw [hf] at hnodup
      have hr : r∈frees files := by simp [hf]
      have hw : w∈frees files := by simp [hf]
      have hne : r≠w := by
        rintro rfl
        simp at hnodup
      exact ⟨r,w,by rw [pipe,hf],mem_frees hr,mem_frees hw,hne⟩

theorem ne_of_free {x y : ℕ} (hx : (files x).isSome) (hy : files y=none) : x≠y := by
  rintro rfl
  rw [hy] at hx
  cases hx

/-- A side of a pipe has its end as input or output, and neither end besides. -/
theorem attach_eq {r w d : ℕ} {re we f : Option File} (h0 : (files 0).isSome)
    (h1 : (files 1).isSome) (hr : files r=none) (hw : files w=none) (hfd : fd≤1)
    (hd : d=r ∨ d=w) (hf : Function.update (Function.update (between files i o) r re) w we d=f) :
    attach (Function.update (Function.update (between files i o) r re) w we) fd (r,w) d=
      Function.update (between files i o) fd f := by
  have hr0 := ne_of_free h0 hr
  have hr1 := ne_of_free h1 hr
  have hw0 := ne_of_free h0 hw
  have hw1 := ne_of_free h1 hw
  have hfdr : fd≠r := by
    obtain rfl | rfl : fd=0 ∨ fd=1 := by omega
    · exact hr0
    · exact hr1
  have hfdw : fd≠w := by
    obtain rfl | rfl : fd=0 ∨ fd=1 := by omega
    · exact hw0
    · exact hw1
  have hdf : d≠fd := by
    obtain rfl | rfl := hd
    · exact hfdr.symm
    · exact hfdw.symm
  have hlt : fd < nfile := lt_of_le_of_lt hfd (by decide)
  have hinstall : install (close (Function.update (Function.update (between files i o) r re) w we)
      fd) f=some (Function.update (Function.update (Function.update (between files i o) r re) w we)
        fd f) := by
    refine install_close hlt (fun x hx => ?_) f
    obtain rfl : x=0 := by omega
    rw [Function.update_of_ne hw0,Function.update_of_ne hr0,between_zero]
    rfl
  have hclosed : close (Function.update (Function.update (between files i o) r re) w we) fd d=f := by
    rw [close,Function.update_of_ne hdf,hf]
  simp only [attach,hclosed,hinstall,Option.getD_some]
  funext x
  by_cases ew : x=w
  · subst ew
    rw [close,Function.update_self,Function.update_of_ne hfdw.symm,between_other hw0.symm hw1.symm,
      hw]
  · by_cases er : x=r
    · subst er
      rw [close,Function.update_of_ne ew,close,Function.update_self,
        Function.update_of_ne hfdr.symm,between_other hr0.symm hr1.symm,hr]
    · rw [close,Function.update_of_ne ew,close,Function.update_of_ne er]
      by_cases ef : x=fd
      · rw [ef,Function.update_self,Function.update_self]
      · rw [Function.update_of_ne ef,Function.update_of_ne ef,Function.update_of_ne ew,
          Function.update_of_ne er]

/-- Without its ends a pipe has left no trace. -/
theorem detach_eq {r w : ℕ} {re we : Option File} (hr : files r=none) (hw : files w=none) :
    close (close (Function.update (Function.update files r re) w we) r) w=files := by
  funext x
  by_cases ew : x=w
  · rw [ew,close,Function.update_self,hw]
  · by_cases er : x=r
    · rw [er,close,Function.update_of_ne (er ▸ ew),close,Function.update_self,hr]
    · rw [close,Function.update_of_ne ew,close,Function.update_of_ne er,
        Function.update_of_ne ew,Function.update_of_ne er]

end Descriptors

section Commands

variable {files : Files}

theorem update_zero (i o f : File) :
    Function.update (between files i o) 0 (some f)=between files f o := by
  funext x
  by_cases e : x=0
  · rw [e,Function.update_self,between_zero]
  · rw [Function.update_of_ne e]
    by_cases e1 : x=1
    · rw [e1,between_one,between_one]
    · rw [between_other e e1,between_other e e1]

theorem update_one (i o f : File) :
    Function.update (between files i o) 1 (some f)=between files i f := by
  rw [between,Function.update_idem,between]

/-- Every process of a command gets what it should. -/
theorem runcmd_eq (w : World) (h0 : (files 0).isSome) (h1 : (files 1).isSome)
    (h2 : 1 < (frees files).length) {c : Cmd Text} (hc : Standard c) (place : Place) (i o : File) :
    runcmd w c place (between files i o)=(jobs w c place i o).map (Job.launch files) := by
  induction c generalizing place i o with
  | exec argv =>
    rw [runcmd,jobs]
    split
    · rfl
    · rfl
  | redir c file mode fd ih =>
    rw [runcmd,jobs]
    split
    · have hlt : fd < nfile := lt_of_le_of_lt hc.1 (by decide)
      rw [install_close hlt (below_between hc.1)]
      obtain rfl | rfl : fd=0 ∨ fd=1 := by have hle := hc.1; omega
      · rw [if_pos rfl]
        simp only [update_zero]
        exact ih hc.2 _ _ _
      · rw [if_neg Nat.one_ne_zero]
        simp only [update_one]
        exact ih hc.2 _ _ _
    · rfl
  | list l r ihl ihr =>
    rw [runcmd,jobs,ihl hc.1,ihr hc.2]
    split
    · rw [List.map_append,List.map_cons]
      rfl
    · rfl
  | pipe l r ihl ihr =>
    have hfree : 1 < (frees (between files i o)).length := by rwa [frees_between h0 h1]
    obtain ⟨p,q,hpipe,hp,hq,hne⟩ := pipe_eq hfree place
    have hp' : files p=none := by
      have hn := isNone_between (i:=i) (o:=o) h0 h1 p
      rw [hp] at hn
      exact Option.isNone_iff_eq_none.mp hn.symm
    have hq' : files q=none := by
      have hn := isNone_between (i:=i) (o:=o) h0 h1 q
      rw [hq] at hn
      exact Option.isNone_iff_eq_none.mp hn.symm
    have hparent := @detach_eq (between files i o) p q (some (.readEnd place))
      (some (.writeEnd place)) hp hq
    have hwrite := @attach_eq files i o 1 p q q (some (.readEnd place)) (some (.writeEnd place)) _
      h0 h1 hp' hq' (Nat.le_refl _) (.inr rfl) rfl
    have hread := @attach_eq files i o 0 p q p (some (.readEnd place)) (some (.writeEnd place)) _
      h0 h1 hp' hq' (Nat.zero_le _) (.inl rfl) rfl
    rw [Function.update_self,update_one] at hwrite
    rw [Function.update_of_ne hne,Function.update_self,update_zero] at hread
    rw [runcmd,jobs,hpipe]
    by_cases hok : w.pipes place=true
    · rw [if_pos hok]
      by_cases hfork : w.forks (true::place)=true
      · have hboth : w.pipes place=true ∧ w.forks (true::place)=true := ⟨hok,hfork⟩
        simp only
        rw [if_pos hfork,if_pos hboth,hwrite,hread,hparent,ihl hc.1,ihr hc.2,List.map_append]
        split
        · rw [List.map_append]
          rfl
        · rfl
      · simp only
        rw [if_neg hfork,if_neg fun h => hfork h.2]
        rfl
    · rw [if_neg hok,if_neg fun h => hok h.1]
      rfl
  | back c ih =>
    rw [runcmd,jobs,ih hc]
    split
    · rfl
    · rfl

theorem standard_wrap {c : Cmd Text} {rs : List (Redir Text)} (hc : Standard c)
    (hrs : ∀ r∈rs,r.fd≤1) : Standard (c.wrap rs) := by
  induction rs generalizing c with
  | nil => exact hc
  | cons r rs ih =>
    rw [Cmd.wrap,List.foldl_cons,← Cmd.wrap]
    exact ih ⟨hrs r (List.mem_cons_self ..),hc⟩ fun x hx => hrs x (List.mem_cons_of_mem _ hx)

theorem standard_backs {c : Cmd Text} (hc : Standard c) (k : ℕ) : Standard (c.backs k) := by
  induction k with
  | zero => exact hc
  | succ k ih => exact ih

theorem redirs_standard {ts : List Lexeme} {rs : List (Redir Text)} (h : Redirs ts rs) :
    ∀ r∈rs,r.fd≤1 := by
  induction h with
  | nil => exact fun r hr => by cases hr
  | @cons op w ts r rs hop hrest ih =>
    intro x hx
    obtain rfl | hx := List.mem_cons.mp hx
    · cases op <;> cases hop <;> first | exact Nat.zero_le _ | exact Nat.le_refl _
    · exact ih x hx

theorem args_standard {ts : List Lexeme} {argv : List Text} {rs : List (Redir Text)}
    (h : Args ts argv rs) : ∀ r∈rs,r.fd≤1 := by
  induction h with
  | nil => exact fun r hr => by cases hr
  | cons hr ha ih =>
    intro x hx
    exact (List.mem_append.mp hx).elim (redirs_standard hr x) (ih x)

/-- The redirections of the language are of the input or the output. -/
theorem derives_standard {phrase : Phrase} {ts : List Lexeme} {c : Cmd Text}
    (h : Derives phrase ts c) : Standard c := by
  induction h with
  | simple hr ha =>
    refine standard_wrap trivial fun r hmem => ?_
    exact (List.mem_append.mp hmem).elim (redirs_standard hr r) (args_standard ha r)
  | block hline hr ih => exact standard_wrap ih (redirs_standard hr)
  | last hexec ih => exact ih
  | pipe hl hr ihl ihr => exact ⟨ihl,ihr⟩
  | single hp ih => exact standard_backs ih _
  | list hl hr ihl ihr => exact ⟨standard_backs ihl _,ihr⟩

end Commands

/-- The programs that the shell runs for a line are those that the command has, and each gets the
input and the output that the redirections and pipes around it give and the shell's other
descriptors, as do the processes that wait, whichever calls fail on the way; the shell needs two
free descriptors. -/
theorem programs_connected (w : World) {b : Text} (hb : 0∉b) {c : Cmd Text} (hc : reads b=.ok c)
    {files : Files} {i o : File} (h0 : files 0=some i) (h1 : files 1=some o)
    (h2 : 1 < (frees files).length) :
    runcmd w c [] files=(jobs w c [] i o).map (Job.launch files) := by
  have hd := (((reads_iff hb).1 c).mp hc).1
  have hsame : between files i o=files := by
    funext x
    by_cases e1 : x=1
    · rw [e1,between_one,h1]
    · by_cases e0 : x=0
      · rw [e0,between_zero,h0]
      · rw [between_other e0 e1]
  have hrun := runcmd_eq w (by rw [h0]; rfl) (by rw [h1]; rfl) h2 (derives_standard hd) [] i o
  rwa [hsame] at hrun

/-- The shell's descriptors: the console three times. -/
def console : Files := fun fd => if fd < 3 then some (.inherited fd) else none

/-- Every call succeeds. -/
def willing : World := ⟨fun _ => true,fun _ => true,fun _ => true⟩

theorem programs_connected_mixedLine :
    runcmd willing mixedCmd [] console=
      [⟨some [[0x61],[0x62]],
          between console (.opened [0x78] rdOnly) (.writeEnd [false,true,true])⟩,
        ⟨some [[0x63]],between console (.readEnd [false,true,true]) (.opened [0x79] wrCreate)⟩,
        ⟨none,between console (.inherited 0) (.opened [0x79] wrCreate)⟩,
        ⟨none,between console (.inherited 0) (.inherited 1)⟩,
        ⟨some [[0x64]],between console (.inherited 0) (.inherited 1)⟩] := by
  have hreads : reads mixedLine=.ok mixedCmd := by rfl
  exact @programs_connected willing mixedLine (by decide) mixedCmd hreads console (.inherited 0)
    (.inherited 1) rfl rfl (by decide)

end Xv6Rust.ShellRun
