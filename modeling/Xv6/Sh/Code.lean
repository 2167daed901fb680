import Xv6.Lib.Cmd

/-!
# The shell's parser

`sh.c` reads a command line by recursive descent. The cursor `*ps` is the rest of the line from it
on, so that `s < es` says the rest is not empty and `*s` is its first byte, or the NUL after the
line. A pointer that the tree keeps is a position in the line. `malloc` gives the tree its memory.
-/

namespace Xv6.Sh

def ch (c : Char) : UInt8 := c.toUInt8

def whitespace : List UInt8 := [' ', '\t', '\r', '\n', '\x0b'].map ch

def symbols : List UInt8 := ['<', '|', '>', '&', ';', '(', ')'].map ch

def MAXARGS : Nat := 10
def O_RDONLY : Nat := 0x000
def O_WRONLY : Nat := 0x001
def O_CREATE : Nat := 0x200

/-- A parsed command over the strings `ω`. -/
inductive Tree (ω : Type) where
  | execcmd (argv : List ω)
  | redircmd (cmd : Tree ω) (file : ω) (mode fd : Nat)
  | pipecmd (left right : Tree ω)
  | listcmd (left right : Tree ω)
  | backcmd (cmd : Tree ω)
  deriving DecidableEq, Repr

/-- A string of the line: the positions of its first byte and of the byte after its last, as
`argv` with `eargv`, or `file` with `efile`. -/
abbrev Span := Nat × Nat

/-- Why `parsecmd` does not return. -/
inductive Stop where
  | panic (msg : String)
  /-- `parsecmd` prints what is left of the line and then calls `panic`. -/
  | leftovers (rest : List UInt8) (msg : String)
  /-- The parser still runs after the turns it was given. -/
  | hang
  deriving DecidableEq, Repr

abbrev Parser := Cmd Stop (List UInt8)

/-! ## Tokens -/

/-- `while(s < es && strchr(whitespace, *s)) s++;` -/
def skip (s : List UInt8) : List UInt8 := s.dropWhile (whitespace.contains ·)

/-- The bytes that `gettoken` takes into a word. -/
def inWord (c : UInt8) : Bool := !whitespace.contains c && !symbols.contains c

/-- The `switch` of `gettoken`: the value it returns and where the token ends. -/
def scan : List UInt8 → UInt8 × List UInt8
  | [] => (0, [])
  | c :: s =>
    if (['|', '(', ')', ';', '&', '<'].map ch).contains c then (c, s)
    else if c = ch '>' then
      if s.head? = some (ch '>') then (ch '+', s.tail) else (c, s)
    else (ch 'a', (c :: s).dropWhile inWord)

def gettoken (es : Nat) : Parser (UInt8 × Span) := fun s =>
  let s := skip s
  let r := scan s
  .ok ((r.1, es - s.length, es - r.2.length), skip r.2)

/-- `strchr` finds no NUL, so the end of the line is in no `toks`. -/
def peek (toks : List Char) : Parser Bool := fun s =>
  let s := skip s
  .ok (s.head?.any ((toks.map ch).contains ·), s)

/-! ## Commands -/

/-- The `switch` of `parseredirs`. -/
def redirect (tok : UInt8) (cmd : Tree Span) (file : Span) : Tree Span :=
  if tok = ch '<' then .redircmd cmd file O_RDONLY 0
  else if tok = ch '>' then .redircmd cmd file (O_WRONLY ||| O_CREATE) 1
  else if tok = ch '+' then .redircmd cmd file (O_WRONLY ||| O_CREATE) 1
  else cmd

/-- The store to `cmd->argv[argc]` in `parseexec`, where `cmd` is the command under the
redirections that `ret` has so far. -/
def Tree.addArg {ω : Type} (w : ω) : Tree ω → Tree ω
  | .execcmd argv => .execcmd (argv ++ [w])
  | .redircmd cmd file mode fd => .redircmd (cmd.addArg w) file mode fd
  | cmd => cmd

/-! The first argument after `es` bounds the calls and the turns of loops still allowed. -/

def parseredirs (es : Nat) : Nat → Tree Span → Parser (Tree Span)
  | 0, _ => throw .hang
  | n + 1, cmd => do
    if ← peek ['<', '>'] then
      let (tok, _) ← gettoken es
      let (a, file) ← gettoken es
      if a ≠ ch 'a' then throw (.panic "missing file for redirection")
      else parseredirs es n (redirect tok cmd file)
    else return cmd

/-- The `while` loop of `parseexec`. -/
def parseargs (es : Nat) : Nat → Nat → Tree Span → Parser (Tree Span)
  | 0, _, _ => throw .hang
  | n + 1, argc, ret => do
    if ← peek ['|', ')', '&', ';'] then return ret
    else
      let (tok, w) ← gettoken es
      if tok = 0 then return ret
      else if tok ≠ ch 'a' then throw (.panic "syntax")
      else if argc + 1 ≥ MAXARGS then throw (.panic "too many args")
      else
        let ret ← parseredirs es n (ret.addArg w)
        parseargs es n (argc + 1) ret

/-- The `while` loop of `parseline`. -/
def parseback (es : Nat) : Nat → Tree Span → Parser (Tree Span)
  | 0, _ => throw .hang
  | n + 1, cmd => do
    if ← peek ['&'] then
      let _ ← gettoken es
      parseback es n (.backcmd cmd)
    else return cmd

mutual

def parseline (es : Nat) : Nat → Parser (Tree Span)
  | 0 => throw .hang
  | n + 1 => do
    let cmd ← parsepipe es n
    let cmd ← parseback es n cmd
    if ← peek [';'] then
      let _ ← gettoken es
      let right ← parseline es n
      return .listcmd cmd right
    else return cmd

def parsepipe (es : Nat) : Nat → Parser (Tree Span)
  | 0 => throw .hang
  | n + 1 => do
    let cmd ← parseexec es n
    if ← peek ['|'] then
      let _ ← gettoken es
      let right ← parsepipe es n
      return .pipecmd cmd right
    else return cmd

def parseblock (es : Nat) : Nat → Parser (Tree Span)
  | 0 => throw .hang
  | n + 1 => do
    if ← peek ['('] then
      let _ ← gettoken es
      let cmd ← parseline es n
      if ← peek [')'] then
        let _ ← gettoken es
        parseredirs es n cmd
      else throw (.panic "syntax - missing )")
    else throw (.panic "parseblock")

def parseexec (es : Nat) : Nat → Parser (Tree Span)
  | 0 => throw .hang
  | n + 1 => do
    if ← peek ['('] then parseblock es n
    else
      let ret ← parseredirs es n (.execcmd [])
      parseargs es n 0 ret

end

/-! ## The whole line -/

/-- `nulterminate` on the memory of the line. -/
def nulterminate (buf : List UInt8) : Tree Span → List UInt8
  | .execcmd argv => argv.foldl (fun buf w => buf.set w.2 0) buf
  | .redircmd cmd file _ _ => (nulterminate buf cmd).set file.2 0
  | .pipecmd left right => nulterminate (nulterminate buf left) right
  | .listcmd left right => nulterminate (nulterminate buf left) right
  | .backcmd cmd => nulterminate buf cmd

/-- The number of calls and turns that a line of length `n` can take. -/
def turns (n : Nat) : Nat := 4 * n + 4

/-- The tree, and the memory of the line with its NUL after the call. -/
def parsecmd (s : List UInt8) : Except Stop (Tree Span × List UInt8) :=
  let es := s.length
  match (do let cmd ← parseline es (turns es); let _ ← peek []; return cmd : Parser (Tree Span)) s with
  | .error e => .error e
  | .ok (cmd, rest) =>
    if rest ≠ [] then .error (.leftovers rest "syntax")
    else .ok (cmd, nulterminate (s ++ [0]) cmd)

/-- The C string at `q`. -/
def cstr (buf : List UInt8) (q : Nat) : List UInt8 := (buf.drop q).takeWhile (· ≠ 0)

def Tree.map {ω ω' : Type} (f : ω → ω') : Tree ω → Tree ω'
  | .execcmd argv => .execcmd (argv.map f)
  | .redircmd cmd file mode fd => .redircmd (cmd.map f) (f file) mode fd
  | .pipecmd left right => .pipecmd (left.map f) (right.map f)
  | .listcmd left right => .listcmd (left.map f) (right.map f)
  | .backcmd cmd => .backcmd (cmd.map f)

/-- The tree with the C strings that its `argv` and `file` pointers see in `buf`. -/
def Tree.strings (buf : List UInt8) (cmd : Tree Span) : Tree (List UInt8) :=
  cmd.map (fun w => cstr buf w.1)

end Xv6.Sh
