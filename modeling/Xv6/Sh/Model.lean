import Xv6.Lib.Outcome

/-!
# The parser of the shell

The second half of `user/sh.c`: six functions with one cursor take a command line apart and
build a tree of commands.  A pointer into the line is what is left of the line from there on:
`*s` is the first byte of it, or the NUL at the end, and `s++` drops that byte.

## Main definitions

* `Cmd` — trees of commands.
* `gettoken`, `peek` — the two ways of looking at the line.
* `parseline`, `parsepipe`, `parseexec`, `parseblock`, `parseredirs` — the parser.
* `parsecmd` — the parser on a whole line, up to the call of `nulterminate`.
* `nulterminate` — the end of every word is overwritten.
-/

namespace Xv6.Sh

def maxargs : ℕ := 10

def oRdonly : ℕ := 0x000
def oWronly : ℕ := 0x001
def oCreate : ℕ := 0x200
def oTrunc : ℕ := 0x400

/-- A pointer into the line: what is left of it. -/
abbrev Ptr := List UInt8

/-- A counted string: where it starts, and where it ends. -/
structure Slice where
  q : Ptr
  eq : Ptr
  deriving DecidableEq

/-- `struct cmd`.  The argument vector has `MAXARGS` entries. -/
inductive Cmd
  | exec (argv : List (Option Slice))
  | redir (cmd : Cmd) (file : Slice) (mode fd : ℕ)
  | pipe (left right : Cmd)
  | list (left right : Cmd)
  | back (cmd : Cmd)
  deriving DecidableEq

/-- `execcmd`. -/
def execcmd : Cmd := .exec (List.replicate maxargs none)

/-- Assign to entry `k` of the argument vector, through the redirections around the command. -/
def Cmd.setArg (k : ℕ) (w : Option Slice) : Cmd → Cmd
  | exec argv => .exec (argv.set k w)
  | redir cmd file mode fd => .redir (cmd.setArg k w) file mode fd
  | cmd => cmd

/-- The ways in which parsing can end without a tree. -/
inductive Panic
  | leftovers -- `panic("syntax")` in `parsecmd`
  | missingFile -- `panic("missing file for redirection")`
  | parseblock -- `panic("parseblock")`
  | missingParen -- `panic("syntax - missing )")`
  | badToken -- `panic("syntax")` in `parseexec`
  | tooManyArgs -- `panic("too many args")`
  | overflow -- not a call of `panic`: an assignment past the end of `argv`
  deriving DecidableEq

/-! ### Code with a cursor -/

/-- Code that reads the line and moves the cursor. -/
def Parser (α : Type) : Type := Ptr → Outcome Panic (α × Ptr)

namespace Parser

instance : Monad Parser where
  pure a := fun s => .ok (a, s)
  bind p f := fun s => (p s).bind fun r => f r.1 r.2

variable {α β : Type}

@[simp] theorem bind_apply (p : Parser α) (f : α → Parser β) (s : Ptr) :
    (p >>= f) s = (p s).bind fun r => f r.1 r.2 := rfl

end Parser

/-- `panic(...)`. -/
def panic {α : Type} (e : Panic) : Parser α := fun _ => .panic e

/-- The call goes deeper than `fuel` allows. -/
def outOfFuel {α : Type} : Parser α := fun _ => .stuck

/-! ### Tokens -/

/-- What `gettoken` returns. -/
inductive Tok
  | eof -- 0
  | bar
  | lpar
  | rpar
  | semi
  | amp
  | lt
  | gt
  | append -- '+', for ">>"
  | word -- 'a'
  deriving DecidableEq

/-- `" \t\r\n\v"`. -/
def whitespace : List UInt8 := [32, 9, 13, 10, 11]

/-- `"<|>&;()"`. -/
def symbols : List UInt8 := [60, 124, 62, 38, 59, 40, 41]

/-- `strchr`, as a test. -/
def strchr (l : List UInt8) (c : UInt8) : Bool := l.contains c

/-- `while(s < es && strchr(whitespace, *s)) s++`. -/
def skip (s : Ptr) : Ptr := s.dropWhile (strchr whitespace)

/-- The bytes of a word. -/
def isWord (c : UInt8) : Bool := !strchr whitespace c && !strchr symbols c

/-- The `switch` of `gettoken`. -/
def scan (s : Ptr) : Tok × Ptr :=
  match s with
  | [] => (.eof, s)
  | c :: s' =>
    if c = 0 then (.eof, s)
    else if c = 124 then (.bar, s')
    else if c = 40 then (.lpar, s')
    else if c = 41 then (.rpar, s')
    else if c = 59 then (.semi, s')
    else if c = 38 then (.amp, s')
    else if c = 60 then (.lt, s')
    else if c = 62 then
      if s'.head? = some 62 then (.append, s'.tail) else (.gt, s')
    else (.word, s.dropWhile isWord)

/-- `gettoken`: the token, and the part of the line that it is. -/
def gettoken : Parser (Tok × Slice) := fun s =>
  let r := scan (skip s)
  .ok ((r.1, ⟨skip s, r.2⟩), skip r.2)

/-- `peek`. -/
def peek (toks : List UInt8) : Parser Bool := fun s =>
  let r := match skip s with
    | [] => false
    | c :: _ => c != 0 && strchr toks c
  .ok (r, skip s)

/-! ### Commands -/

/-- `parseredirs`. -/
def parseredirs : ℕ → Cmd → Parser Cmd
  | 0, _ => outOfFuel
  | fuel + 1, cmd => do
    if ← peek [60, 62] then
      let tok ← gettoken
      let file ← gettoken
      if file.1 ≠ .word then panic .missingFile
      else
        match tok.1 with
        | .lt => parseredirs fuel (.redir cmd file.2 oRdonly 0)
        | .gt => parseredirs fuel (.redir cmd file.2 (oWronly ||| oCreate ||| oTrunc) 1)
        | .append => parseredirs fuel (.redir cmd file.2 (oWronly ||| oCreate) 1)
        | _ => parseredirs fuel cmd
    else return cmd

/-- `cmd->argv[argc] = q`, with `eargv`, where `cmd` is the command inside `ret`. -/
def setArgv (ret : Cmd) (argc : ℕ) (w : Option Slice) : Parser Cmd :=
  if argc < maxargs then return ret.setArg argc w else panic .overflow

/-- The loop of `parseexec`. -/
def parseargs : ℕ → Cmd → ℕ → Parser Cmd
  | 0, _, _ => outOfFuel
  | fuel + 1, ret, argc => do
    if ← peek [124, 41, 38, 59] then setArgv ret argc none
    else
      let tok ← gettoken
      if tok.1 = .eof then setArgv ret argc none
      else if tok.1 ≠ .word then panic .badToken
      else
        let ret ← setArgv ret argc (some tok.2)
        if maxargs ≤ argc + 1 then panic .tooManyArgs
        else
          let ret ← parseredirs fuel ret
          parseargs fuel ret (argc + 1)

/-- The loop of `parseline`. -/
def parseback : ℕ → Cmd → Parser Cmd
  | 0, _ => outOfFuel
  | fuel + 1, cmd => do
    if ← peek [38] then
      let _ ← gettoken
      parseback fuel (.back cmd)
    else return cmd

mutual

/-- `parseline`. -/
def parseline : ℕ → Parser Cmd
  | 0 => outOfFuel
  | fuel + 1 => do
    let cmd ← parsepipe fuel
    let cmd ← parseback fuel cmd
    if ← peek [59] then
      let _ ← gettoken
      let right ← parseline fuel
      return .list cmd right
    else return cmd

/-- `parsepipe`. -/
def parsepipe : ℕ → Parser Cmd
  | 0 => outOfFuel
  | fuel + 1 => do
    let cmd ← parseexec fuel
    if ← peek [124] then
      let _ ← gettoken
      let right ← parsepipe fuel
      return .pipe cmd right
    else return cmd

/-- `parseexec`. -/
def parseexec : ℕ → Parser Cmd
  | 0 => outOfFuel
  | fuel + 1 => do
    if ← peek [40] then parseblock fuel
    else
      let ret ← parseredirs fuel execcmd
      parseargs fuel ret 0

/-- `parseblock`. -/
def parseblock : ℕ → Parser Cmd
  | 0 => outOfFuel
  | fuel + 1 => do
    if ← peek [40] then
      let _ ← gettoken
      let cmd ← parseline fuel
      if ← peek [41] then
        let _ ← gettoken
        parseredirs fuel cmd
      else panic .missingParen
    else panic .parseblock

end

/-- `parsecmd`, up to the call of `nulterminate`.  Every call of `parseline` but the first
follows a byte of the line, so the fuel is enough. -/
def parsecmd (s : Ptr) : Outcome Panic Cmd :=
  (parseline (4 * s.length + 4) s).bind fun r =>
    if skip r.2 = [] then .ok r.1 else .panic .leftovers

/-! ### Terminating the words -/

/-- The line in memory.  An address is the number of bytes before the NUL at the end. -/
def line (s : Ptr) (n : ℕ) : UInt8 := (s.drop (s.length - n)).headD 0

/-- `*e = 0`. -/
def terminate (e : Ptr) (m : ℕ → UInt8) (n : ℕ) : UInt8 := if n = e.length then 0 else m n

/-- The arguments before the null pointer. -/
def args : List (Option Slice) → List Slice
  | some w :: argv => w :: args argv
  | _ => []

/-- `nulterminate`. -/
def nulterminate : Cmd → (ℕ → UInt8) → ℕ → UInt8
  | .exec argv, m => (args argv).foldl (fun m w => terminate w.eq m) m
  | .redir cmd file _ _, m => terminate file.eq (nulterminate cmd m)
  | .pipe left right, m | .list left right, m => nulterminate right (nulterminate left m)
  | .back cmd, m => nulterminate cmd m

end Xv6.Sh
