import Mports.Distinfo
import Mports.MakeWords
import Mports.ShellText

set_option autoImplicit false

namespace Mports.MakefileDiff
open PerlText MakeWords Distinfo

abbrev Line := List Char

/-- `[ \t]`. -/
def isTab (c : Char) : Bool := c = ' ' || c = '\t'

/-- `\w`. -/
def isWord (c : Char) : Bool := c.isAlphanum || c = '_'

/-- `[+?:!]?=` -/
def hasOperator (text : List Char) : Bool :=
  text.head? = some '=' ||
    (text.head?.any fun c => c = '+' || c = '?' || c = ':' || c = '!') && text.tail.head? = some '='

/-- `(?:[+?:!]?=|\b)`, between two texts. -/
def ends (before after : List Char) : Bool := hasOperator after || before.getLast?.any isWord != after.head?.any isWord

/-- `(?:$var_re)(?:[+?:!]?=|\b)`. -/
def matchesVar (vars : List (List Char)) (text : List Char) : Bool :=
  vars.any fun var => var.isPrefixOf text && ends var (text.drop var.length)

/-- `(?:$prefix_re)(?:_[A-Za-z0-9_]+)?(?:[+?:!]?=|\b)`. -/
def matchesStart (starts : List (List Char)) (text : List Char) : Bool :=
  starts.any fun start => start.isPrefixOf text &&
    let rest := text.drop start.length
    (ends start rest || rest.head? = some '_' && rest.tail.inits.any fun suffix =>
      suffix ≠ [] && suffix.all isWord && ends suffix (rest.tail.drop suffix.length))

/-- `[+-]`. -/
def isSign (c : Char) : Bool := c = '+' || c = '-'

/-- `/^[+-](?![+-])/`, and the pattern after the blanks. -/
def changes (pattern : List Char → Bool) (line : Line) : Bool :=
  line.head?.any isSign && !line.tail.head?.any isSign && pattern (line.tail.dropWhile isTab)

def makefileDiffChangesVars (diff : List Char) (vars : List (List Char)) : Bool :=
  diff ≠ [] && (split '\n' diff).any (changes (matchesVar vars))

def makefileDiffChangesVarPrefixes (diff : List Char) (starts : List (List Char)) : Bool :=
  diff ≠ [] && (split '\n' diff).any (changes (matchesStart starts))

/-- A hunk of a diff, with the lines before it that stay. A text whose last line has no
newline is marked. -/
structure Hunk where
  kept : List Line
  title : Line
  deleted : List Line
  oldMark : Bool
  inserted : List Line
  newMark : Bool
  title_hunk : "@@".toList <+: title
  whole : ∀ line ∈ title :: (kept ++ deleted ++ inserted), '\n' ∉ line

def noNewline (mark : Bool) : List Line := if mark then ["\\ No newline at end of file".toList] else []

def Hunk.lines (h : Hunk) : List Line :=
  h.title :: (h.deleted.map ('-' :: ·) ++ noNewline h.oldMark ++ (h.inserted.map ('+' :: ·) ++ noNewline h.newMark))

/-- A diff without context, and the lines after its last hunk. -/
structure Diff where
  headers : List Line
  hunks : List Hunk
  rest : List Line
  headers_plain : ∀ line ∈ headers, '\n' ∉ line ∧ ∀ c ∈ line.head?, isSign c → line.tail.head? = some c

def Diff.text (d : Diff) : List Char :=
  if d.hunks = [] then [] else ofLines (d.headers ++ d.hunks.flatMap Hunk.lines)

def Diff.old (d : Diff) : List (Line × Bool) :=
  (d.hunks.flatMap fun h => h.kept.map (·, true) ++ h.deleted.map (·, false)) ++ d.rest.map (·, true)

def Diff.new (d : Diff) : List (Line × Bool) :=
  (d.hunks.flatMap fun h => h.kept.map (·, true) ++ h.inserted.map (·, false)) ++ d.rest.map (·, true)

structure Assignment where
  name : List Char
  operator : List Char
  value : List Char
deriving DecidableEq

def joined : List Line → Line
  | [] => []
  | line :: rest => if continues line then line.dropLast ++ ' ' :: (joined rest).dropWhile isTab else line

def isName (c : Char) : Bool := !isTab c && c ≠ '=' && c ≠ '+' && c ≠ '?' && c ≠ ':' && c ≠ '!'

def operators : List (List Char) := [[], ['+'], ['?'], [':'], ['!'], ":sh".toList]

def assignment (line : Line) : Option Assignment :=
  let text := line.dropWhile isTab
  let rest := (text.dropWhile isName).dropWhile isTab
  let operator := rest.takeWhile (· ≠ '=')
  if text.takeWhile isName ≠ [] ∧ operator ∈ operators ∧ '=' ∈ rest then
    some ⟨text.takeWhile isName, operator, (rest.drop (operator.length + 1)).dropWhile isTab⟩
  else none

def isBare (line : Line) : Bool := continues line && line.dropLast.all isTab

/-- Where a line stands: at the start, after bare lines only, or in what others have begun. -/
inductive Place where
  | start
  | blank
  | inside

/-- Whether the line can bear the name of an assignment; a line that starts with a tab is a command. -/
def Place.bears (place : Place) (line : Line) : Bool :=
  match place with
  | start => line.head? ≠ some '\t' && !isBare line
  | blank => !isBare line
  | inside => false

def Place.next (place : Place) (line : Line) : Place :=
  if continues line then
    match place with
    | start => if line.head? ≠ some '\t' && isBare line then blank else inside
    | blank => if isBare line then blank else inside
    | inside => inside
  else start

/-- The assignments of a text, each with the mark of the line that bears its name. -/
def assignments : Place → List (Line × Bool) → List (Assignment × Bool)
  | _, [] => []
  | place, line :: rest =>
    (if place.bears line.1 then ((assignment (joined (line.1 :: rest.map Prod.fst))).map (·, line.2)).toList else []) ++
      assignments (place.next line.1) rest

def assigned (name : List Char) (lines : List (Line × Bool)) : List Assignment :=
  ((assignments .start lines).map Prod.fst).filter (·.name = name)

inductive Watch where
  | sites
  | version

def sites : List (List Char) := ["MASTER_SITES".toList]
def versions : List (List Char) := ["PORTVERSION".toList, "DISTVERSION".toList, "PORTREVISION".toList]

def Watch.Covers : Watch → List Char → Prop
  | sites, name => name = "MASTER_SITES".toList ∨
      ∃ suffix, name = "MASTER_SITES_".toList ++ suffix ∧ suffix.head?.any isWord
  | version, name => name ∈ versions

def Watch.pattern : Watch → List Char → Bool
  | sites => matchesStart MakefileDiff.sites
  | version => matchesVar versions

def Watch.detects : Watch → List Char → Bool
  | sites, diff => makefileDiffChangesVarPrefixes diff MakefileDiff.sites
  | version, diff => makefileDiffChangesVars diff versions

def Noticed (w : Watch) (d : Diff) : Prop :=
  (∃ name, w.Covers name ∧ assigned name d.old ≠ assigned name d.new) → w.detects d.text

def Diff.changed (d : Diff) : List Line := d.hunks.flatMap fun h => h.deleted ++ h.inserted

section Patterns

end Patterns

section Detection

end Detection

section Assignments

end Assignments

section Whole

def Complete (lines : List Line) : Prop := ∀ line ∈ lines.getLast?, continues line = false

theorem Complete.tail {line line' : Line} {lines : List Line} (h : Complete (line :: line' :: lines)) :
    Complete (line' :: lines) := fun l hl => h l (by rwa [List.getLast?_cons_cons])

end Whole

end Mports.MakefileDiff
