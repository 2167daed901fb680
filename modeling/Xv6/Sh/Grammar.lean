import Xv6.Sh.Code

/-!
# The grammar of command lines

    line  ::= pipe '&'* [';' line]
    pipe  ::= exec ['|' pipe]
    exec  ::= '(' line ')' redir*
            | redir* (word redir*)*
    redir ::= ('<' | '>' | '>>') word

with fewer than `MAXARGS` words in an `exec`, over the tokens of the line. A derivation carries the
command tree it stands for.
-/

namespace Xv6.Sh

/-! ## Tokens -/

inductive Tok where
  | word (w : List UInt8)
  | bar | amp | semi | lpar | rpar | lt | gt | gtgt
  deriving DecidableEq, Repr

namespace Tok

def spell : Tok → List UInt8
  | word w => w
  | bar => [ch '|']
  | amp => [ch '&']
  | semi => [ch ';']
  | lpar => [ch '(']
  | rpar => [ch ')']
  | lt => [ch '<']
  | gt => [ch '>']
  | gtgt => [ch '>', ch '>']

/-- A word is a run of bytes that are neither white space nor symbols. -/
def Proper : Tok → Prop
  | word w => w ≠ [] ∧ ∀ c ∈ w, inWord c
  | _ => True

/-- A token goes on as long as it can: a word ends where no byte of a word follows, and two `>`
in a row are one token. -/
def Stops (rest : List UInt8) : Tok → Prop
  | word _ => ∀ c ∈ rest.head?, ¬ inWord c
  | gt => rest.head? ≠ some (ch '>')
  | _ => True

end Tok

/-- The line `s` has the tokens `ts`, with any white space around them. -/
inductive Tokens : List UInt8 → List Tok → Prop where
  | nil : Tokens [] []
  | space {c s ts} (hc : c ∈ whitespace) (h : Tokens s ts) : Tokens (c :: s) ts
  | tok {t s ts} (hp : t.Proper) (he : t.Stops s) (h : Tokens s ts) : Tokens (t.spell ++ s) (t :: ts)

/-! ## Redirections -/

inductive Op where
  | lt | gt | gtgt
  deriving DecidableEq, Repr

namespace Op

def tok : Op → Tok
  | lt => .lt
  | gt => .gt
  | gtgt => .gtgt

/-- How the file is opened. -/
def mode : Op → Nat
  | lt => O_RDONLY
  | gt | gtgt => O_WRONLY ||| O_CREATE

/-- The descriptor it is opened as. -/
def fd : Op → Nat
  | lt => 0
  | gt | gtgt => 1

end Op

structure Redir where
  op : Op
  file : List UInt8
  deriving DecidableEq, Repr

/-- The tokens of `redir*`. -/
def redirToks (rs : List Redir) : List Tok := rs.flatMap fun r => [r.op.tok, .word r.file]

/-- The command under its redirections, the last one outermost. -/
def Tree.under (cmd : Tree (List UInt8)) (rs : List Redir) : Tree (List UInt8) :=
  rs.foldl (fun cmd r => .redircmd cmd r.file r.op.mode r.op.fd) cmd

/-! ## Commands -/

/-- A word of an `exec` with the redirections that follow it. -/
structure Arg where
  word : List UInt8
  redirs : List Redir
  deriving DecidableEq, Repr

/-- The tokens of `(word redir*)*`. -/
def argToks (as : List Arg) : List Tok := as.flatMap fun a => .word a.word :: redirToks a.redirs

/-- The command after `n` times `&`. -/
def Tree.backs {ω : Type} (n : Nat) (cmd : Tree ω) : Tree ω := Tree.backcmd^[n] cmd

inductive Sym where
  | line | pipe | exec

/-- The tokens derive from the symbol, and the derivation stands for the tree. -/
inductive Derives : Sym → List Tok → Tree (List UInt8) → Prop where
  | line {ts c} (n : Nat) (h : Derives .pipe ts c) :
      Derives .line (ts ++ List.replicate n .amp) (c.backs n)
  | lines {ts us c d} (n : Nat) (h : Derives .pipe ts c) (hd : Derives .line us d) :
      Derives .line (ts ++ (List.replicate n .amp ++ .semi :: us)) (.listcmd (c.backs n) d)
  | pipe {ts c} (h : Derives .exec ts c) : Derives .pipe ts c
  | pipes {ts us c d} (h : Derives .exec ts c) (hd : Derives .pipe us d) :
      Derives .pipe (ts ++ .bar :: us) (.pipecmd c d)
  | block {ts c} (rs : List Redir) (h : Derives .line ts c) :
      Derives .exec (.lpar :: (ts ++ .rpar :: redirToks rs)) (c.under rs)
  | simple (rs : List Redir) (as : List Arg) (h : as.length < MAXARGS) :
      Derives .exec (redirToks rs ++ argToks as)
        ((Tree.execcmd (as.map Arg.word)).under (rs ++ as.flatMap Arg.redirs))

end Xv6.Sh
