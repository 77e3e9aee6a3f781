import Mports.ShellText

set_option autoImplicit false

namespace Mports.PlistParser
open ShellText

/-- `[[:space:]]`. -/
def isSpace (c : Char) : Bool := isBlank c || c = '\r' || c = Char.ofNat 11 || c = Char.ofNat 12

/-- What follows the match of a regular expression at the beginning of a text. -/
abbrev Match := List Char → Option (List Char)

def literal (word : List Char) : Match := fun text => if word <+: text then some (text.drop word.length) else none

def spaces : Match := fun text => if text.head?.any isSpace then some (text.dropWhile isSpace) else none

/-- `s/m//`. -/
def removeFirst (m : Match) : List Char → List Char
  | [] => []
  | c :: text =>
    match m (c :: text) with
    | some rest => rest
    | none => c :: removeFirst m text

/-- `s/m//g`, on as many characters. -/
def removeAll (m : Match) : ℕ → List Char → List Char
  | 0, text => text
  | _, [] => []
  | n + 1, c :: text =>
    match m (c :: text) with
    | some rest => removeAll m n rest
    | none => c :: removeAll m n text

/-- `[^)]*\)[[:space:]]+`. -/
def perms : Match := fun text => (literal [')'] (text.dropWhile (· ≠ ')'))).bind spaces

def stripPerms (line : List Char) : List Char :=
  let line := ((literal "@(".toList line).bind perms).getD line
  let word := (line.drop 1).takeWhile Char.isAlpha
  match (literal ('@' :: word ++ ['(']) line).bind perms with
  | some rest => if word = [] then line else '@' :: word ++ ' ' :: rest
  | none => line

/-- `read -r line`. -/
def readLine (line : List Char) : List Char := ((line.dropWhile isBlank).reverse.dropWhile isBlank).reverse

/-- `s/\|\|.*//`. -/
def cutOr : List Char → List Char
  | [] => []
  | '|' :: '|' :: _ => []
  | c :: text => c :: cutOr text

/-- `[[:space:]]+[0-9]*[[:space:]]*>[&]?[[:space:]]*[^[:space:]]+`. -/
def redirection : Match := fun text => do
  let text ← spaces text
  let target ← literal ['>'] ((text.dropWhile Char.isDigit).dropWhile isSpace)
  let name := (without ['&'] target).dropWhile isSpace
  if name ≠ [] then some (name.dropWhile fun c => !isSpace c)
  else literal ['&'] target

/-- `@unexec[[:space:]]+(\/bin\/)?rmdir`. -/
def unexecRmdir : Match := fun text => do
  let text ← literal "@unexec".toList text
  let text ← spaces text
  literal "rmdir".toList (without "/bin/".toList text)

def unexecRmdirArgs : Match := fun text => do
  let text ← unexecRmdir text
  (literal " -p".toList text).bind spaces <|> spaces text

/-- `@dir(rm|rmtry)?[[:space:]]+`. -/
def dirKeyword : Match := fun text => do
  let text ← literal "@dir".toList text
  (literal "rmtry".toList text).bind spaces <|> (literal "rm".toList text).bind spaces <|> spaces text

/-- The replacement of an `s` command, for two groups; none where sed refuses it. -/
def expand (whole one two : List Char) : List Char → Option (List Char)
  | [] => some []
  | '\\' :: '1' :: text => (expand whole one two text).map (one ++ ·)
  | '\\' :: '2' :: text => (expand whole one two text).map (two ++ ·)
  | '\\' :: 'n' :: text => (expand whole one two text).map ('\n' :: ·)
  | '\\' :: c :: text => if c.isDigit then none else (expand whole one two text).map (c :: ·)
  | '|' :: _ => none
  | '&' :: text => (expand whole one two text).map (whole ++ ·)
  | c :: text => (expand whole one two text).map (c :: ·)

/-- `s|([^%])%D([^%])|...|g`. -/
def percentD (replacement : List Char) : List Char → List Char
  | a :: '%' :: 'D' :: b :: text =>
    if a ≠ '%' ∧ b ≠ '%' then
      (expand [a, '%', 'D', b] [a] [b] replacement).getD [] ++ percentD replacement text
    else a :: percentD replacement ('%' :: 'D' :: b :: text)
  | c :: text => c :: percentD replacement text
  | [] => []

/-- `s|"(.*)"[[:space:]]*|\1|g`. -/
def unquote (line : List Char) : List Char :=
  let quoted := (line.dropWhile (· ≠ '"')).drop 1
  if '"' ∈ quoted then
    line.takeWhile (· ≠ '"') ++ ((quoted.reverse.dropWhile (· ≠ '"')).drop 1).reverse ++
      (quoted.reverse.takeWhile (· ≠ '"')).reverse.dropWhile isSpace
  else line

/-- The sed script for directories, in which the directory is part of a replacement. -/
def sedDir (cwd line : List Char) : List Char :=
  let replacement := "\\1".toList ++ cwd ++ "\\2".toList
  if (expand [] [] [] replacement).isNone then []
  else
    let line := cutOr line
    let line := removeAll redirection line.length line
    let line := if (unexecRmdir line).isSome then unquote (percentD replacement line) else line
    let line := removeFirst dirKeyword (removeFirst unexecRmdirArgs line)
    (line.reverse.dropWhile isSpace).reverse

inductive Fd where
  | file | dir
  deriving DecidableEq, Repr

/-- A line that is printed, with `@comment ` in front or without. -/
structure Out where
  fd : Fd
  comment : Bool
  path : List Char
  deriving DecidableEq, Repr

abbrev Glob := List Char → List (List Char)

/-- The words after `set -- $line; shift`. -/
def arguments (glob : Glob) (line : List Char) : List (List Char) := ((fields line).flatMap glob).drop 1

def under (cwd path : List Char) : List Char := if path.head? = some '/' then path else cwd ++ '/' :: path

/-- `${path%suffix}`. -/
def withoutEnd (suffix path : List Char) : List Char := (without suffix.reverse path.reverse).reverse

def newCwd (glob : Glob) (start line : List Char) : Option (List Char) :=
  if line = "@cwd".toList ∨ line = "@cd".toList then some start
  else if "@cwd".toList <+: line ∨ "@cd".toList <+: line then
    let dir := ((arguments glob line).head?).getD []
    some (if dir = ['/'] then [] else dir)
  else none

def emit (glob : Glob) (comment : Bool) (cwd line : List Char) : List Out :=
  if "@dir".toList <+: line ∨ "@unexec rmdir".toList <+: line ∨ "@unexec /bin/rmdir".toList <+: line then
    let dir := sedDir cwd line
    [⟨.dir, comment, if dir.head? = some '/' then withoutEnd ['/'] dir else cwd ++ '/' :: withoutEnd ['/'] dir⟩]
  else if "@info ".toList <+: line ∨ "@shell ".toList <+: line ∨ "@xmlcatmgr ".toList <+: line then
    [⟨.file, comment, under cwd ([' '].intercalate (arguments glob line))⟩]
  else if "@sample ".toList <+: line then
    let args := arguments glob line
    let sample := args.head?.getD []
    let target := if args.length = 2 then args.getLast?.getD [] else withoutEnd ".sample".toList sample
    [⟨.file, true, under cwd target⟩, ⟨.file, comment, under cwd sample⟩]
  else if "@fc ".toList <+: line ∨ "@fcfontsdir ".toList <+: line ∨ "@fontsdir ".toList <+: line then
    [⟨.dir, comment, under cwd ([' '].intercalate (arguments glob line))⟩]
  else if line.head? = some '@' then []
  else [⟨.file, comment, under cwd line⟩]

/-- `-z "${line%%@comment *}"`. -/
def isComment (line : List Char) : Bool := line = [] || "@comment ".toList.isPrefixOf line

/-- `${line##*@comment }`. -/
def afterComment : List Char → List Char
  | [] => []
  | c :: text =>
    if ∃ t ∈ text.tails, "@comment ".toList <+: t then afterComment text
    else without "@comment ".toList (c :: text)

structure State where
  cwd : List Char
  cwdSave : List Char
  commentedCwd : List Char
  deriving DecidableEq, Repr

/-- What comes before the keywords for a line that is taken for a comment. -/
def State.enter (st : State) : State :=
  if st.commentedCwd = [] then st
  else { st with cwdSave := if st.cwdSave = [] then st.cwd else st.cwdSave, cwd := st.commentedCwd }

/-- The same for another line: the commented directory is dropped with the saved one. -/
def State.leave (st : State) : State := if st.cwdSave = [] then st else ⟨st.cwdSave, [], []⟩

def step (glob : Glob) (start : List Char) (parseComments : Bool) (st : State) (line : List Char) : State × List Out :=
  if parseComments && isComment line then
    let line := stripPerms (afterComment line)
    match newCwd glob start line with
    | some dir => ({ st.enter with commentedCwd := dir }, [])
    | none => (st.enter, emit glob true st.enter.cwd line)
  else
    match newCwd glob start line with
    | some dir => ({ st.leave with cwd := dir }, [])
    | none => (st.leave, emit glob false st.leave.cwd line)

def run (glob : Glob) (start : List Char) (parseComments : Bool) : State → List (List Char) → List (List Char × List Out)
  | _, [] => []
  | st, line :: lines =>
    let result := step glob start parseComments st line
    (line, result.2) :: run glob start parseComments result.1 lines

end Mports.PlistParser
