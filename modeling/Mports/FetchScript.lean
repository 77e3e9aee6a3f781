import Mathlib.Algebra.Group.Nat.Defs
import Mports.Distinfo
import Mports.FailingRuns

set_option autoImplicit false

/-!
do-fetch.sh: for every file the sites that are tried, one after the other, and how a file is
given up.
-/
namespace Mports.FetchScript
open ShellText Distinfo FailingRuns

/-- `dp_TARGET`. -/
inductive Target where
  | doFetch | makesum | fetchList | fetchUrlListInt
  deriving DecidableEq, Repr

def Target.fetches : Target → Bool
  | .doFetch | .makesum => true
  | .fetchList | .fetchUrlListInt => false

theorem Target.ne_fetchList {t : Target} (h : t.fetches = true) : t ≠ .fetchList := by
  rintro rfl
  cases h

/-- A command that is run for a file, and the site that it asks. -/
structure Attempt where
  file : List Char
  site : List Char
  words : List (List Char)
  deriving DecidableEq, Repr

/-- The files below the current directory, the commands that were run, and what was printed. -/
structure State where
  dir : Dir
  tried : List Attempt
  out : List Char

def State.print (st : State) (text : List Char) : State := { st with out := st.out ++ text }

/-- `echo` of one text, the `dp_ECHO_MSG` of the script. -/
def State.say (st : State) (text : List Char) : State := st.print (text ++ ['\n'])

/-- `sites` is what the variable of a group expands to. `sorts` says which records of awk match
an expression of `MASTER_SORT_REGEX`; `randomize` may answer differently each time. `links` are
the names of symbolic links, `escapes` is what `echo -e` prints. -/
structure Setup where
  tools : Tools
  env : Env
  target : Target
  distdir : List Char
  distinfoFile : List Char
  distinfo : Option (List Char)
  distSubdir : List Char
  developer : Bool
  forceFetchAll : Bool
  forceFetchList : List Char
  siteFlavor : List Char
  sites : List Char → List Char
  masterSiteOverride : List Char
  masterSiteBackup : List Char
  masterSortRegex : List (List Char)
  sorts : List Char → List Char → Bool
  randomize : Option (State → List Char → List Char)
  fetchEnv : List Char
  fetchCmd : List Char
  fetchBeforeArgs : List Char
  fetchAfterArgs : List Char
  writable : Bool
  links : List Char → Bool
  escapes : List Char → List Char

/-- A command for a file changes no other file, and where it succeeds the file is there. What
it does may depend on all commands before it. -/
structure Network where
  fetch : List Attempt → Attempt → Dir → Bool × Dir
  fetch_only : ∀ before a dir name, name ≠ a.file → (fetch before a dir).2 name = dir name
  fetch_there : ∀ before a dir, (fetch before a dir).1 = true → present (fetch before a dir).2 a.file

section Texts

/-- `${_file%%:*}`. -/
def fileOf (arg : List Char) : List Char := arg.takeWhile (· ≠ ':')

/-- `${text##*sep}`. -/
def afterLast (sep : Char) (text : List Char) : List Char := (text.reverse.takeWhile (· ≠ sep)).reverse

/-- `${file%/*}`, of a text with a slash. -/
def dirname (file : List Char) : List Char := (file.reverse.dropWhile (· ≠ '/')).tail.reverse

/-- `$(...)` of a command that prints these lines. -/
def substituted (lines : List (List Char)) : List Char :=
  ((['\n'].intercalate lines).reverse.dropWhile (· = '\n')).reverse

/-- `[ a -eq b ]` of digits; a number that is too large is an error, which is no success. -/
def numbersEqual (a b : List Char) : Bool :=
  Nat.ofDigitChars 10 a 0 = Nat.ofDigitChars 10 b 0 && Nat.ofDigitChars 10 b 0 < 2 ^ 63

/-- The `escape` of functions.sh. -/
def escape (text : List Char) : List Char :=
  text.flatMap fun c => if c ∈ ['&', ';', '(', ')', '!', '#'] then ['\\', c] else [c]

end Texts

section Script
variable (s : Setup)

def expand (dir : Dir) (text : List Char) : List (List Char) := (fields text).flatMap (s.tools.pathnames (present dir))

/-- `echo` of some words, without the newline. -/
def echo (words : List (List Char)) : List Char :=
  if words.head? = some "-n".toList then [' '].intercalate words.tail
  else if words.head? = some "-e".toList then s.escapes ([' '].intercalate words.tail)
  else [' '].intercalate words

def select (arg : List Char) : List Char :=
  if arg = fileOf arg then "DEFAULT".toList
  else (echo s [afterLast ':' arg]).map fun c => if c = ',' then ' ' else c

def forced (dir : Dir) (file : List Char) : Bool :=
  s.forceFetchAll ||
    (expand s dir s.forceFetchList).any fun afile => afterLast '/' afile = afterLast '/' file

/-- `${dp_DIST_SUBDIR:+${dp_DIST_SUBDIR}/}${file}`. -/
def fullFile (file : List Char) : List Char :=
  if s.distSubdir = [] then file else s.distSubdir ++ '/' :: file

def sha256sum (file : List Char) : List Char :=
  substituted (distinfoData s.tools s.env s.distinfo "SHA256".toList (fullFile s file))

def ckSize (file : List Char) : List Char :=
  substituted (distinfoData s.tools s.env s.distinfo "SIZE".toList (fullFile s file))

/-- The sites of one group are added to those of the groups before it. -/
def gather (file : List Char) (acc : State × List Char) (group : List Char) : Except State (State × List Char) :=
  let sites := s.sites group
  if sites ≠ [] then .ok (acc.1, acc.2 ++ ' ' :: sites)
  else if s.target.fetches then
    let st := ((acc.1.say (if s.developer then "===> /!\\ Error /!\\".toList else "===> /!\\ Warning /!\\".toList)).say
      ("     The :".toList ++ group ++ " group used for ".toList ++ file ++ " is missing".toList)).say
      ("     from ".toList ++ s.siteFlavor ++ "_SITES. Check for typos, or errors.".toList)
    if s.developer then .error st else .ok (st, acc.2)
  else .ok acc

/-- `MASTER_SORT_AWK`: a record goes to the first expression that it matches, and the records of
an expression are printed each time it is listed. -/
def masterSort (text : List Char) : List Char :=
  let records := text.splitOn ' '
  let key := fun record => s.masterSortRegex.find? fun srt => s.sorts srt record
  let printed := fun chosen => (records.filter chosen).flatMap (' ' :: ·) ++ [' ']
  s.masterSortRegex.flatMap (fun srt => printed fun record => key record = some srt) ++
    printed fun record => key record = none

def siteWords (st : State) (masterSites : List Char) : List (List Char) :=
  let sorted := echo s (expand s st.dir (s.masterSiteOverride ++ ' ' :: masterSort s masterSites ++
    ' ' :: s.masterSiteBackup))
  expand s st.dir (match s.randomize with
    | none => sorted
    | some randomize => randomize st sorted)

/-- `mkdir -p` fails below a regular file. -/
def blocked (dir : Dir) (file : List Char) : Bool :=
  (List.range file.length).any fun i => file[i]? = some '/' && present dir (file.take i)

def early (file : List Char) (st : State) : Except State State :=
  if '/' ∈ file then
    if s.target.fetches then if blocked st.dir file then .error st else .ok st
    else if s.target = .fetchList then .ok (st.say ("mkdir -p \"".toList ++ dirname file ++ "\" && ".toList))
    else .ok st
  else .ok st

def args (file site : List Char) : List Char :=
  (if '/' ∈ file ∧ s.target ≠ .fetchUrlListInt then "-o ".toList ++ file ++ [' '] else []) ++ site ++ file

/-- `-z "${dp_DISABLE_SIZE}" -a -n "${CKSIZE}"`. -/
def sized (file : List Char) : Bool := !s.env.disableSize && ckSize s file ≠ []

def command (file site : List Char) : List Char :=
  s.fetchCmd ++ ' ' :: s.fetchBeforeArgs ++
    (if sized s file then " -S ".toList ++ ckSize s file else []) ++
    ' ' :: args s file site ++ ' ' :: s.fetchAfterArgs

def sizeOk (dir : Dir) (file : List Char) : Bool :=
  s.env.disableSize || ckSize s file = [] || numbersEqual (s.tools.stat file dir) (ckSize s file)

variable (net : Network)

/-- One command is run; the answer says whether the next file is to be looked at. -/
def fetchOne (file : List Char) (remaining : ℕ) (st : State) (site : List Char) : Except State (Bool × State) :=
  let st := st.say ("=> Attempting to fetch ".toList ++ site ++ file)
  let attempt := ⟨file, site, "-S".toList :: s.fetchEnv :: expand s st.dir (command s file site)⟩
  let answer := net.fetch st.tried attempt st.dir
  let st := { st with dir := answer.2, tried := st.tried ++ [attempt] }
  if answer.1 then
    if s.tools.stat file st.dir = [] then .error st
    else if sizeOk s st.dir file then .ok (true, st)
    else
      let st := st.say ("=> Fetched file size mismatch (expected ".toList ++ ckSize s file ++ ", actual ".toList ++
        s.tools.stat file st.dir ++ ")".toList)
      if 0 < remaining then
        let st := st.say "=> Trying next site".toList
        match s.tools.rm file st.dir with
        | none => .error st
        | some dir => .ok (false, { st with dir := dir })
      else .ok (false, st)
  else .ok (false, st)

def invalidSize (file : List Char) (st : State) : State :=
  ((st.say ("=> Invalid SIZE for ".toList ++ fullFile s file ++ " in ".toList ++ s.distinfoFile ++ ".".toList)).say
    ("=> Expected a single integer, got: ".toList ++ echo s (expand s st.dir (ckSize s file)))).say
    "=> The entry is most likely present more than once.".toList

def trySite (file : List Char) (remaining : ℕ) (st : State) (site : List Char) : Except State (Bool × State) := do
  let st ← early s file st
  if sized s file && (ckSize s file).any fun c => !c.isDigit then .error (invalidSize s file st)
  else if s.target.fetches then fetchOne s net file remaining st site
  else if s.target = .fetchList then
    .ok (false, st.print ("env ".toList ++ escape (command s file site) ++ " || ".toList))
  else .ok (false, st.say (echo s (expand s st.dir (args s file site))))

def giveUp (file : List Char) (st : State) : Except State State :=
  if s.target.fetches then
    .error ((st.say "=> Couldn't fetch it - please try to retrieve this".toList).say
      ("=> port manually into ".toList ++ s.distdir ++ " and try again.".toList))
  else if s.target = .fetchList then .ok (st.say ("echo \"".toList ++ file ++ "\" not fetched; \x7d".toList))
  else .ok st

def trySites (file : List Char) : List (List Char) → State → Except State State
  | [], st => giveUp s file st
  | site :: rest, st => do
    let (done, st) ← trySite s net file rest.length st site
    if done then .ok st else trySites file rest st

def fetchMissing (arg : List Char) (st : State) : Except State State := do
  let file := fileOf arg
  let (st, masterSites) ← (expand s st.dir (select s arg)).foldlM (gather s file) (st, [])
  let sites := siteWords s st masterSites
  let st := if s.target = .fetchList then
      st.print ("mkdir -p ".toList ++ s.distdir ++ " && cd ".toList ++ s.distdir ++ " && \x7b ".toList) else st
  trySites s net file sites st

def fetchFile (st : State) (arg : List Char) : Except State State :=
  let file := fileOf arg
  if present st.dir file && !forced s st.dir file then .ok st
  else if s.links file then
    .error (((st.say ("=> ".toList ++ s.distdir ++ '/' :: file ++ " is a broken symlink.".toList)).say
      "=> Perhaps a filesystem (most likely a CD) isn't mounted?".toList).say
      "=> Please correct this problem and try again.".toList)
  else if s.distinfo.isSome && !s.env.noChecksum && sha256sum s file = [] then
    .error (((st.say ("=> ".toList ++ fullFile s file ++ " is not in ".toList ++ s.distinfoFile ++ ".".toList)).say
      ("=> Either ".toList ++ s.distinfoFile ++ " is out of date, or".toList)).say
      ("=> ".toList ++ fullFile s file ++ " is spelled incorrectly.".toList))
  else if s.target.fetches then
    let st := st.say ("=> ".toList ++ file ++ " doesn't seem to exist in ".toList ++ s.distdir ++ ".".toList)
    if s.writable then fetchMissing s net arg st
    else .error (st.say ("=> ".toList ++ s.distdir ++ " is not writable by you; cannot fetch.".toList))
  else fetchMissing s net arg st

def run (st : State) (files : List (List Char)) : Except State State := files.foldlM (fetchFile s net) st

end Script

/-- How a run leaves the files, whether it gets to its end or not. -/
def final : Except State State → State
  | .error st => st
  | .ok st => st

end Mports.FetchScript
