import PatternAudit.Text

set_option autoImplicit false

/-!
# Tokens of a pattern

The vocabulary of patterns: what a lexeme can stand for, and the bytes of the pattern that it covers. An atom is
a token that is already a whole piece of a pattern; the other tokens only arrange atoms.
-/
namespace PatternAudit.Grammar

/-- The bytes from `start` up to, and not including, `stop`. -/
structure Span where
  start : Nat
  stop : Nat
deriving DecidableEq, Repr

inductive Escape where
  /-- Denotes exactly one character. -/
  | literal (c : Char)
  /-- A set named by one letter. -/
  | shorthand (letter : Char)
  /-- A condition on a place, matching no character. -/
  | assertion (letter : Char)
  | property (negated : Bool) (name : Text)
  | backreference (target : Text)
deriving DecidableEq, Repr

def Escape.asChar : Escape → Option Char
  | .literal c => some c
  | _ => none

inductive ClassItem where
  | literal (c : Char)
  | range (lo hi : Char)
  | set (escape : Escape)
  | posix (negated : Bool) (name : Text)
deriving DecidableEq, Repr

structure CharClass where
  negated : Bool
  items : List ClassItem
deriving DecidableEq, Repr

inductive GroupKind where
  | capturing
  | named (name : Text)
  | nonCapturing
  /-- A non-capturing group with option settings of its own. -/
  | scoped (flags : Text)
  | atomic
  | branchReset
  | lookahead (negated : Bool)
  | lookbehind (negated : Bool)
  /-- Recursion, a subroutine call or a verb: the content is no pattern to look into. -/
  | directive
deriving DecidableEq, Repr

/-- Whether a group matches exactly what its content matches. -/
def GroupKind.isTransparent : GroupKind → Bool
  | .capturing | .named _ | .nonCapturing | .scoped _ | .atomic => true
  | .branchReset | .lookahead _ | .lookbehind _ | .directive => false

inductive Anchor where
  | start
  | finish
deriving DecidableEq, Repr

inductive Bounds where
  | atLeast (lo : Nat)
  | between (lo hi : Nat)
deriving DecidableEq, Repr

def Bounds.lo : Bounds → Nat
  | .atLeast lo => lo
  | .between lo _ => lo

def Bounds.hi? : Bounds → Option Nat
  | .atLeast _ => none
  | .between _ hi => some hi

def Bounds.isUnbounded (b : Bounds) : Bool :=
  b.hi?.isNone

inductive Greed where
  | greedy
  | lazy
  | possessive
deriving DecidableEq, Repr

structure Quantifier where
  bounds : Bounds
  greed : Greed
deriving DecidableEq, Repr

inductive Atom where
  | char (c : Char)
  | escape (e : Escape)
  | any
  | charClass (cls : CharClass)
  | anchor (a : Anchor)
  /-- Option settings for the rest of the enclosing group. -/
  | options (flags : Text)
deriving DecidableEq, Repr

/-- The single character an atom stands for, if it stands for one. -/
def Atom.asChar : Atom → Option Char
  | .char c => some c
  | .escape e => e.asChar
  | _ => none

inductive TokenKind where
  | atom (a : Atom)
  | groupOpen (kind : GroupKind)
  | groupClose
  | bar
  | quantifier (q : Quantifier)
deriving DecidableEq, Repr

structure Token where
  span : Span
  kind : TokenKind
deriving DecidableEq, Repr

end PatternAudit.Grammar
