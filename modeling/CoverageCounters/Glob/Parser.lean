import CoverageCounters.Glob.Basic

/-!
Reading patterns. The characters are first cut into lexemes, which settles escapes and classes; the
lexemes are then grouped into tokens, which settles alternatives and recursive stars.
-/

namespace CoverageCounters

namespace Glob

/-- Why a text is no pattern. -/
inductive Error where
  | unclosedClass
  | invalidRange (low high : Char)
  | unopenedAlternates
  | unclosedAlternates
  | danglingEscape
  deriving DecidableEq, Repr

inductive Lexeme where
  | plain (c : Char)
  | escaped (c : Char)
  | oneOf (cls : ByteClass)
  deriving DecidableEq, Repr

namespace Lexeme

def last : Lexeme → Char
  | plain c => c
  | escaped c => c
  | oneOf _ => ']'

end Lexeme

/-- A class that is being read; the ranges are kept last first. -/
structure ClassDraft where
  negated : Bool := false
  ranges : List (Char × Char) := []
  /-- A hyphen has been read that may make the next character the end of a range. -/
  inRange : Bool := false
  deriving DecidableEq, Repr

namespace ClassDraft

/-- Take a character into a class. The first one is a member, whatever it is. -/
def take (d : ClassDraft) (c : Char) : Except Error ClassDraft :=
  match d.inRange, d.ranges with
  | true, (low,_) :: ranges =>
    if c < low then .error (.invalidRange low c)
    else .ok { d with ranges := (low,c) :: ranges, inRange := false }
  | _, [] => .ok { d with ranges := [(c,c)] }
  | _, ranges =>
    if c = '-' then .ok { d with inRange := true }
    else .ok { d with ranges := (c,c) :: ranges }

/-- Close a class; a hyphen at its end is a member. -/
def close (d : ClassDraft) : ByteClass :=
  ⟨d.negated,(if d.inRange then ('-','-') :: d.ranges else d.ranges).reverse⟩

end ClassDraft

inductive Mode where
  | outside
  | escape
  | classStart
  | inClass (draft : ClassDraft)
  deriving DecidableEq, Repr

def lex : Mode → List Char → Except Error (List Lexeme)
  | .outside, [] => .ok []
  | .escape, [] => .error .danglingEscape
  | _, [] => .error .unclosedClass
  | .outside, c :: rest =>
    if c = '\\' then lex .escape rest
    else if c = '[' then lex .classStart rest
    else (lex .outside rest).map (.plain c :: ·)
  | .escape, c :: rest => (lex .outside rest).map (.escaped c :: ·)
  | .classStart, c :: rest =>
    if c = '!' || c = '^' then lex (.inClass { negated := true }) rest
    else do lex (.inClass (← ClassDraft.take {} c)) rest
  | .inClass draft, c :: rest =>
    if c = ']' && !draft.ranges.isEmpty then (lex .outside rest).map (.oneOf draft.close :: ·)
    else do lex (.inClass (← draft.take c)) rest

/-- An open group: its finished branches, last first, and the tokens before it, last first. -/
structure Group where
  branches : List (List Token)
  before : List Token

/-- What has been read of a pattern: the tokens of the branch at hand, last first, and the groups
that are open around it. -/
structure Draft where
  tokens : List Token := []
  groups : List Group := []

namespace Draft

def push (d : Draft) (token : Token) : Draft := { d with tokens := token :: d.tokens }

def openGroup (d : Draft) : Draft := ⟨[],⟨[],d.tokens⟩ :: d.groups⟩

/-- A branch that matches nothing but the empty text, being made of groups without branches. -/
def isIdle (branch : List Token) : Bool :=
  branch.all fun
    | .alternates [] => true
    | _ => false

/-- Close the innermost group; its idle branches are left out. -/
def closeGroup (d : Draft) : Except Error Draft :=
  match d.groups with
  | [] => .error .unopenedAlternates
  | ⟨branches,before⟩ :: groups =>
    let all := (d.tokens.reverse :: branches).reverse
    .ok ⟨.alternates (all.filter (!isIdle ·)) :: before,groups⟩

/-- End the branch at hand; outside groups a comma is itself. -/
def comma (d : Draft) : Draft :=
  match d.groups with
  | [] => d.push (.literal ',')
  | ⟨branches,before⟩ :: groups => ⟨[],⟨d.tokens.reverse :: branches,before⟩ :: groups⟩

/-- Two stars that are not a path component of their own are two plain ones. -/
def twoStars (d : Draft) : Draft := (d.push .zeroOrMore).push .zeroOrMore

/-- Put a recursive token in place of the slash before it; a recursive token at either end of a path
takes it up. -/
def recursive (d : Draft) (token : Token) : Draft :=
  match d.tokens with
  | .recursiveFront :: _ | .recursiveEnd :: _ => d
  | _ :: tokens => { d with tokens := token :: tokens }
  | [] => d

/-- Whether two stars after a character may be a path component of their own. -/
def startsComponent (d : Draft) (prev : Option Char) : Bool :=
  prev = some '/' || !d.groups.isEmpty && (prev = some ',' || prev = some '\x7b')

end Draft

/-- Group lexemes into tokens; `prev` is the character before them. -/
def group (prev : Option Char) (d : Draft) : List Lexeme → Except Error Draft
  | [] => .ok d
  | .escaped c :: rest => group (some c) (d.push (.literal c)) rest
  | .oneOf cls :: rest => group (some ']') (d.push (.oneOf cls)) rest
  | .plain '?' :: rest => group (some '?') (d.push .any) rest
  | .plain '\x7b' :: rest => group (some '\x7b') d.openGroup rest
  | .plain '\x7d' :: rest => do group (some '\x7d') (← d.closeGroup) rest
  | .plain ',' :: rest => group (some ',') d.comma rest
  | .plain '*' :: .plain '*' :: rest =>
    if d.tokens.isEmpty then
      match rest with
      | [] => .ok (d.push .recursiveFront)
      | .plain '/' :: rest => group (some '/') (d.push .recursiveFront) rest
      | rest => group (some '*') d.twoStars rest
    else if d.startsComponent prev then
      match rest with
      | [] => .ok (d.recursive .recursiveEnd)
      | .plain '/' :: rest => group (some '/') (d.recursive .recursiveMiddle) rest
      | .plain c :: rest =>
        if (c = ',' || c = '\x7d') && !d.groups.isEmpty then
          group (some '*') (d.recursive .recursiveEnd) (.plain c :: rest)
        else group (some '*') d.twoStars (.plain c :: rest)
      | rest => group (some '*') d.twoStars rest
    else group (some '*') d.twoStars rest
  | .plain '*' :: rest => group (some '*') (d.push .zeroOrMore) rest
  | .plain c :: rest => group (some c) (d.push (.literal c)) rest

def parse (text : String) : Except Error Glob := do
  let draft ← group none {} (← lex .outside text.toList)
  if draft.groups.isEmpty then return ⟨draft.tokens.reverse⟩ else throw .unclosedAlternates

end Glob
end CoverageCounters
