import Mports.PerlText
import Mports.ShellText
import Mathlib.Algebra.Group.Int.Defs
import Mathlib.Algebra.Group.Nat.Defs
import Mathlib.Data.Int.Basic

set_option autoImplicit false

namespace Mports.UserGroups
open ShellText

inductive Piece where
  | text (t : List Char)
  | uid (n : ℤ)
  | gid (n : ℤ)
  deriving DecidableEq, Repr

def lit (t : String) : Piece := .text t.toList

def Piece.render : Piece → List Char
  | .text t => t
  | .uid n => (toString n).toList
  | .gid n => (toString n).toList

def Piece.shift (u g : ℕ) : Piece → Piece
  | .text t => .text t
  | .uid n => .uid (n + u)
  | .gid n => .gid (n + g)

/-- The function error; a parameter that is not set; an id that is no number; awk without
its files. -/
inductive Failure where
  | told (message : List Char)
  | unset | arith | awk
  deriving DecidableEq, Repr

structure Part where
  out : List Piece
  failure : Option Failure
  deriving DecidableEq

namespace Part

def write (out : List Piece) : Part := ⟨out, none⟩

def fail (e : Failure) : Part := ⟨[], some e⟩

def andThen (a b : Part) : Part := if a.failure = none then ⟨a.out ++ b.out, b.failure⟩ else a

def each {α : Type} (f : α → Part) : List α → Part
  | [] => write []
  | x :: xs => (f x).andThen (each f xs)

def ofExcept : Except Failure (List Piece) → Part
  | .ok out => write out
  | .error e => fail e

def map (f : Piece → Piece) (a : Part) : Part := ⟨a.out.map f, a.failure⟩

end Part

/-- `grep` is whether a line matches `^name:`, `grepWord` whether a text matches with -w. -/
structure Setup where
  opsys : List Char
  pw : List Char
  install : List Char
  dpPrefix : List Char
  gidFiles : List Char
  uidFiles : List Char
  usersBlacklist : List Char
  groupsBlacklist : List Char
  users : List Char
  groups : List Char
  disk : List Char → Option (List (List Char))
  grep : List Char → List Char → Bool
  grepWord : List Char → List Char → Bool

/-- `$n`, under `set -u`. -/
def arg (args : List (List Char)) (n : ℕ) : Except Failure (List Char) :=
  match args[n - 1]? with
  | some value => .ok value
  | none => .error .unset

def number (t : List Char) : Option ℕ :=
  if t ≠ [] ∧ t.all Char.isDigit ∧ (t.head? = some '0' → t = ['0']) then some (Nat.ofDigitChars 10 t 0) else none

def shellMax : ℕ := 2 ^ 63 - 1

/-- `$((n + offset))`: greater numbers are read as the greatest, the sum wraps. -/
def shellAdd (n offset : ℕ) : ℤ := Int.bmod (min n shellMax + min offset shellMax : ℕ) (2 ^ 64)

def arith (t : List Char) (offset : ℕ) : Except Failure ℤ :=
  match number t with
  | some n => .ok (shellAdd n offset)
  | none => .error .arith

/-- `read -r line` and the splitting at colons. -/
def entry (line : List Char) : List (List Char) :=
  ifsFields ':' ((line.dropWhile isBlank).reverse.dropWhile isBlank).reverse

def groupadd (group : List Char) (gid : ℤ) : List Piece :=
  [lit "if ! $\x7bPW\x7d groupshow ", .text group, lit " >/dev/null 2>&1; then\n",
    lit "  echo \"Creating group '", .text group, lit "' with gid '", .gid gid, lit "'.\"\n",
    lit "  $\x7bPW\x7d groupadd ", .text group, lit " -g ", .gid gid, lit "\nelse\n",
    lit "  echo \"Using existing group '", .text group, lit "'.\"\nfi\n"]

structure User where
  login : List Char
  uid : ℤ
  gid : ℤ
  userClass : List Char
  gecos : List Char
  homedir : List Char
  shell : List Char

def useradd (r : User) : List Piece :=
  [lit "if ! $\x7bPW\x7d usershow ", .text r.login, lit " >/dev/null 2>&1; then\n",
    lit "  echo \"Creating user '", .text r.login, lit "' with uid '", .uid r.uid, lit "'.\"\n",
    lit "  $\x7bPW\x7d useradd ", .text r.login, lit " -u ", .uid r.uid, lit " -g ", .gid r.gid,
    .text (' ' :: (r.userClass ++ " -c \"".toList)), .text r.gecos, lit "\" -d ", .text r.homedir,
    lit " -s ", .text r.shell, lit "\nelse\n",
    lit "  echo \"Using existing user '", .text r.login, lit "'.\"\nfi\n"]

def installHome (s : Setup) (group : List Char) (r : User) : List Piece :=
  [lit "if [ -n \"$\x7bPKG_ROOTDIR\x7d\" ] && [ \"$\x7bPKG_ROOTDIR\x7d\" != \"/\" ]; then\n",
    lit "  HOMEDIR=\"$\x7bPKG_ROOTDIR\x7d/", .text r.homedir,
    lit "\"\n  MDBDIR=\"-N $\x7bPKG_ROOTDIR\x7d/etc/\"\nelse\n",
    lit "  HOMEDIR=\"", .text r.homedir, lit "\"\n  MDBDIR=\"\"\nfi\n",
    .text s.install, lit " $\x7bMDBDIR\x7d -d -g ", .text group, lit " -o ", .text r.login,
    lit " $\x7bHOMEDIR\x7d\n"]

def groupmod (group login : List Char) : List Piece :=
  [lit "if ! $\x7bPW\x7d groupshow ", .text group, lit " | grep -qw ", .text login, lit "; then\n",
    lit "  echo \"Adding user '", .text login, lit "' to group '", .text group, lit "'.\"\n",
    lit "  $\x7bPW\x7d groupmod ", .text group, lit " -m ", .text login, lit "\nfi\n"]

section Script
variable (s : Setup)

def header : List Piece :=
  if s.opsys = "FreeBSD".toList then
    [lit "if [ -n \"$\x7bPKG_ROOTDIR\x7d\" ] && [ \"$\x7bPKG_ROOTDIR\x7d\" != \"/\" ]; then\n",
      lit "  PW=\"", .text s.pw, lit " -R $\x7bPKG_ROOTDIR\x7d\"\nelse\n", lit "  PW=", .text s.pw, lit "\nfi\n"]
  else [lit "PW=", .text s.pw, lit "\n"]

def linesIn (files : List Char) : List (List Char) := (fields files).flatMap fun file => (s.disk file).getD []

def firstMissing (files : List Char) : Option (List Char) := (fields files).find? fun file => (s.disk file).isNone

def missing (file : List Char) : Failure := .told ("** ".toList ++ file ++ " doesn't exist. Exiting.".toList)

/-- The first line of the files that `grep` finds. -/
def groupLine (group : List Char) : Option (List Char) := (linesIn s s.gidFiles).find? (s.grep group)
def userLine (user : List Char) : Option (List Char) := (linesIn s s.uidFiles).find? (s.grep user)

def unknown (kind name files : List Char) : Failure :=
  .told ("** Cannot find any information about ".toList ++ kind ++ ' ' :: Char.ofNat 96 :: name ++
    "' in ".toList ++ files ++ ".".toList)

def groupBlock (g : ℕ) (line : List Char) : Part :=
  .ofExcept do
    let group ← arg (entry line) 1
    let gid ← arg (entry line) 3
    if gid = [] then throw (.told ("Group line for group ".toList ++ group ++ " has no gid".toList))
    return groupadd group (← arith gid g)

def groupRound (g : ℕ) (group : List Char) : Part :=
  match groupLine s group with
  | some line => groupBlock g line
  | none => .fail (unknown "group".toList group s.gidFiles)

def groupsPart (g : ℕ) : Part :=
  if s.groups = [] then .write []
  else
    match firstMissing s s.gidFiles with
    | some file => .fail (missing file)
    | none => (Part.write [lit "echo \"===> Creating groups.\"\n"]).andThen
        (Part.each (groupRound s g) (fields s.groups))

/-- `sed "s|^/usr/local|${dp_PREFIX}|"`. -/
def placed (homedir : List Char) : List Char :=
  if "/usr/local".toList <+: homedir then s.dpPrefix ++ homedir.drop 10 else homedir

def readUser (u g : ℕ) (user line : List Char) : Except Failure User := do
  let login ← arg (entry line) 1
  let uid ← arg (entry line) 3
  let gid ← arg (entry line) 4
  let userClass ← arg (entry line) 5
  let gecos ← arg (entry line) 8
  let homedir ← arg (entry line) 9
  let shell ← arg (entry line) 10
  if uid = [] ∨ gid = [] ∨ homedir = [] ∨ shell = [] then
    throw (.told ("User line for ".toList ++ user ++ " is invalid".toList))
  let uid ← arith uid u
  let gid ← arith gid g
  return ⟨login, uid, gid, if userClass = [] then [] else "-L ".toList ++ userClass, gecos, placed s homedir, shell⟩

/-- `awk -F: -v gid=${gid} '$1 !~ /^#/ && $3 == gid { print $1 }'`. -/
def owners (gid : ℤ) : List (List Char) :=
  ((linesIn s s.gidFiles).filter fun line =>
    line.head? ≠ some '#' && (number ((line.splitOn ':').getD 2 [])).any fun n => n = gid).map
      fun line => (line.splitOn ':').headD []

/-- `$(...)` takes newlines off the end. -/
def ownerGroup (gid : ℤ) : List Char :=
  (((owners s gid).flatMap (· ++ ['\n'])).reverse.dropWhile (· = '\n')).reverse

def homeless : List (List Char) := ["/".toList, "/nonexistent".toList, "/var/empty".toList]

def homedirPart (r : User) : Part :=
  if r.homedir ∈ homeless then .write []
  else (Part.write [lit "echo \"===> Creating homedir(s)\"\n"]).andThen <|
    if firstMissing s s.gidFiles = none then .write (installHome s (ownerGroup s r.gid) r) else .fail .awk

def userBlock (u g : ℕ) (user line : List Char) : Part :=
  match readUser s u g user line with
  | .ok r => (Part.write (useradd r)).andThen (homedirPart s r)
  | .error e => .fail e

def userRound (u g : ℕ) (user : List Char) : Part :=
  match userLine s user with
  | some line => userBlock s u g user line
  | none => .fail (unknown "user".toList user s.uidFiles)

def usersPart (u g : ℕ) : Part :=
  if s.users = [] then .write []
  else
    match firstMissing s s.uidFiles with
    | some file => .fail (missing file)
    | none => (Part.write [lit "echo \"===> Creating users\"\n"]).andThen
        (Part.each (userRound s u g) (fields s.users))

/-- The sum is not used, but it may fail; nothing is added to make it. -/
def membersBlock (g : ℕ) (line : List Char) : Part :=
  .ofExcept do
    let args := entry line ++ [[]]
    let group ← arg args 1
    let gid ← arg args 3
    let members ← arg args 4
    if gid ≠ [] then let _ ← arith gid g
    return (ifsFields ',' members).flatMap fun login =>
      ((fields s.users).filter (· = login)).flatMap fun _ => groupmod group login

def membersPart (g : ℕ) : Part :=
  if s.groups = [] then .write []
  else Part.each (fun group => membersBlock s g ((groupLine s group).getD [])) (fields s.groups)

def manually (show' kind name : List Char) : List Piece :=
  [lit "if $\x7bPW\x7d ", .text show', lit " ", .text name, lit " >/dev/null 2>&1; then\n",
    lit "  echo \"==> You should manually remove the \\\"", .text name, lit "\\\" ", .text kind, lit "fi\n"]

def deinstall : List Piece :=
  ((fields s.users).filter fun user => !s.grepWord user s.usersBlacklist).flatMap
      (manually "usershow".toList "user. \"\n".toList) ++
    ((fields s.groups).filter fun group => !s.grepWord group s.groupsBlacklist).flatMap
      (manually "groupshow".toList "group \"\n".toList)

def installPart (u g : ℕ) : Part := (groupsPart s g).andThen ((usersPart s u g).andThen (membersPart s g))

structure Scripts where
  ugInstall : List Piece
  ugDeinstall : List Piece
  failure : Option Failure
  deriving DecidableEq

def Scripts.shift (u g : ℕ) (scripts : Scripts) : Scripts :=
  ⟨scripts.ugInstall.map (.shift u g), scripts.ugDeinstall.map (.shift u g), scripts.failure⟩

def scripts (u g : ℕ) : Scripts :=
  let part := installPart s u g
  ⟨header s ++ part.out, header s ++ if part.failure = none then deinstall s else [], part.failure⟩

end Script

end Mports.UserGroups
