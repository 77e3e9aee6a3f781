import Mathlib.Data.List.Perm.Subperm

set_option autoImplicit false

/-!
do-patch.sh: distribution patches, extra patches and the patch directories, and what
`set -e`, `failure_fatal` and the conditions make of a failure.
-/
namespace Mports.PatchScript

abbrev Place := String

/-- One `cat_file "$file" | do_patch "$@" ${patch_strip}`. -/
structure Attempt where
  place : Place
  file : String
  args : String
  strip : String
  deriving DecidableEq, Repr

/-- The `dp_` variables. -/
structure Settings where
  patchfiles : String := ""
  distdir : Place := "/usr/mports/Distfiles"
  patchDistArgs : String := ""
  extraPatches : String := ""
  patchArgs : String := ""
  patchdir : String := "/usr/mports/devel/gmake/files"
  extraPatchTree : String := ""
  pkgorigin : String := "devel/gmake"
  pkgname : String := "gmake-4.4"
  opsys : String := "MidnightBSD"
  patchContinueOnFail : String := ""
  patchSilent : String := ""
  patchDebugTmp : String := ""

/-- What the script asks of its surroundings. -/
structure Host where
  words : Place → String → List String
  /-- The directory that `-d` and `cd` find under a path. -/
  directory : Place → String → Option Place
  /-- The files that match `patch-*`, in order. -/
  patches : Place → List String
  patch : List Attempt → Attempt → Bool

structure Shell where
  cwd : Place
  hasFailed : Bool
  attempts : List (Attempt × Bool)
  output : List String

namespace Shell

def say (s : Shell) (line : String) : Shell := { s with output := s.output ++ [line] }

@[simp] theorem say_cwd (s : Shell) (line : String) : (s.say line).cwd = s.cwd := rfl
@[simp] theorem say_hasFailed (s : Shell) (line : String) : (s.say line).hasFailed = s.hasFailed := rfl
@[simp] theorem say_attempts (s : Shell) (line : String) : (s.say line).attempts = s.attempts := rfl

def tried (s : Shell) : List Attempt := s.attempts.map Prod.fst

@[simp] theorem say_tried (s : Shell) (line : String) : (s.say line).tried = s.tried := rfl

end Shell

/-- An error is a shell that ends with status 1, for `set -e` or at the last line. -/
abbrev Run := Except Shell Shell

/-- `*.orig|*.rej|*~|*,v`. -/
def Ignored (name : String) : Prop :=
  ".orig".toList <:+ name.toList ∨ ".rej".toList <:+ name.toList ∨ "~".toList <:+ name.toList ∨
    ",v".toList <:+ name.toList

instance (name : String) : Decidable (Ignored name) := inferInstanceAs (Decidable (_ ∨ _ ∨ _ ∨ _))

/-- The file and the strip count of `*:-p[0-9]`. -/
def patchStrip (word : String) : String × String :=
  match word.toList.reverse with
  | d :: 'p' :: '-' :: ':' :: file =>
    if d.isDigit then (String.ofList file.reverse, String.ofList ['-', 'p', d]) else (word, "")
  | _ => (word, "")

/-- `$(...)` takes newlines off the end. -/
def substitution (text : String) : String :=
  String.ofList (text.toList.reverse.dropWhile (· = '\n')).reverse

/-- `"$(echo patch-*)" = "patch-*"`; a pattern that matches nothing stays as it is. -/
def Skipped (names : List String) : Prop :=
  substitution (" ".intercalate (if names = [] then ["patch-*"] else names)) = "patch-*"

instance (names : List String) : Decidable (Skipped names) := inferInstanceAs (Decidable (_ = _))

section Script
variable (v : Settings) (h : Host)

def failureFatal (s : Shell) : Bool × Shell :=
  if v.patchContinueOnFail ≠ "" then (true, { s with hasFailed := true }) else (false, s)

/-- `failure_fatal` where nothing tests its status. -/
def failing (s : Shell) : Run :=
  match failureFatal v s with
  | (true, s) => .ok s
  | (false, s) => .error s

def applyOnePatch (word msg verbose args : String) (s : Shell) : Bool × Shell :=
  let file := (patchStrip word).1
  let strip := (patchStrip word).2
  let what := msg ++ " " ++ file ++ if strip ≠ "" then " with " ++ strip else ""
  let s := if verbose ≠ "" ∨ v.patchDebugTmp ≠ "" then s.say ("===>  Applying " ++ what) else s
  let a : Attempt := ⟨s.cwd, file, args, strip⟩
  let ok := h.patch s.tried a
  let s := { s with attempts := s.attempts ++ [(a, ok)] }
  (ok, if ok then s else s.say ("===>  FAILED Applying " ++ what))

/-- The loop over `patch-*`, with the lists of the patches that applied and failed. -/
def patchLoop (msg : String) : List String → String → String → Shell → String × String × Shell
  | [], applied, failed, s => (applied, failed, s)
  | i :: rest, applied, failed, s =>
    if Ignored i then patchLoop msg rest applied failed (s.say ("====>   IGNORING patchfile " ++ i))
    else match applyOnePatch v h i msg "" v.patchArgs s with
      | (true, s) => patchLoop msg rest (applied ++ " " ++ i) failed s
      | (false, s) => match failureFatal v s with
        | (true, s) => patchLoop msg rest applied (failed ++ " " ++ i) s
        | (false, s) => (applied, failed ++ " " ++ i, s)

/-- What follows the loop: `failure_fatal` decides the status, unless silent. -/
def reportFailures (msg : String) : String × String × Shell → Run
  | (applied, failed, s) =>
    if failed ≠ "" ∧ v.patchSilent ≠ "yes" then
      let s := if applied ≠ "" then s.say ("===> Cleanly applied " ++ msg ++ " patch(es) " ++ applied) else s
      failing v (s.say ("===> FAILED to apply cleanly " ++ msg ++ " patch(es) " ++ failed))
    else .ok s

def patchFromDirectory (dir msg : String) (s : Shell) : Run :=
  match h.directory s.cwd dir with
  | none => .ok s
  | some place =>
    let s := { s with cwd := place }
    if Skipped (h.patches place) then .ok s
    else
      let s := s.say ("===>  Applying " ++ msg ++ " patches for " ++ v.pkgname ++ " from " ++ dir)
      reportFailures v msg (patchLoop v h msg (h.patches place) "" "" s)

/-- `if ! apply_one_patch ...; then failure_fatal; fi`. -/
def applyFile (word msg verbose args : String) (s : Shell) : Run :=
  match applyOnePatch v h word msg verbose args s with
  | (true, s) => .ok s
  | (false, s) => failing v s

def distributionLoop : List String → Shell → Run
  | [], s => .ok s
  | i :: rest, s => applyFile v h i "distribution patch" "" v.patchDistArgs s >>= distributionLoop rest

def extraLoop : List String → Shell → Run
  | [], s => .ok s
  | i :: rest, s =>
    (match h.directory s.cwd i with
      | some _ => patchFromDirectory v h i "extra patch" s
      | none => applyFile v h i "extra patch" "verbose" v.patchArgs s) >>= extraLoop rest

def distributionPatches (s : Shell) : Run :=
  if v.patchfiles ≠ "" then
    let s := s.say ("===>  Applying distribution patches for " ++ v.pkgname)
    match h.directory s.cwd v.distdir with
    | none => .error s
    | some place => distributionLoop v h (h.words place v.patchfiles) { s with cwd := place }
  else .ok s

def extraPatches (s : Shell) : Run :=
  if v.extraPatches ≠ "" then extraLoop v h (h.words s.cwd v.extraPatches) s else .ok s

def treePatches (s : Shell) : Run :=
  if v.extraPatchTree ≠ "" then patchFromDirectory v h (v.extraPatchTree ++ "/" ++ v.pkgorigin) "local" s
  else .ok s

def report (s : Shell) : Run :=
  if s.hasFailed then
    .error (if v.patchDebugTmp ≠ "" then
      (s.say "==> Some patches failed to apply cleanly.").say "==> Look for FAILED messages above." else s)
  else .ok s

def applyPatches (s : Shell) : Run :=
  distributionPatches v h s >>= fun s => extraPatches v h s >>= fun s =>
    patchFromDirectory v h v.patchdir v.opsys s >>= treePatches v h

def doPatch (start : Place) : Run := applyPatches v h ⟨start, false, [], []⟩ >>= report v

end Script

def attempt (place : Place) (word args : String) : Attempt :=
  ⟨place, (patchStrip word).1, args, (patchStrip word).2⟩

def named (place : Place) (names : List String) (args : String) : List Attempt :=
  (names.filter (¬ Ignored ·)).map (attempt place · args)

/-- Where patches come from: a file named in a list, or a directory of them. -/
inductive Source where
  | file (place : Place) (word args : String)
  | directory (place : Place) (names : List String) (args : String)

namespace Source

def place : Source → Place
  | file place _ _ => place
  | directory place _ _ => place

def IsDirectory : Source → Prop
  | file .. => False
  | directory .. => True

instance : (src : Source) → Decidable src.IsDirectory
  | file .. => inferInstanceAs (Decidable False)
  | directory .. => inferInstanceAs (Decidable True)

/-- The files to apply; in a list, not in a directory, a name can carry a strip count. -/
def files : Source → List Attempt
  | file place word args => [attempt place word args]
  | directory place names args => (names.filter (¬ Ignored ·)).map (⟨place, ·, args, ""⟩)

def planned : Source → List Attempt
  | file place word args => [attempt place word args]
  | directory place names args =>
    if Skipped names then [] else named place names args

theorem planned_directory (place : Place) (names : List String) (args : String) :
    (directory place names args).planned = if Skipped names then [] else named place names args := rfl

theorem files_directory (place : Place) (names : List String) (args : String) :
    (directory place names args).files = (names.filter (¬ Ignored ·)).map (⟨place, ·, args, ""⟩) := rfl

end Source

section Sources
variable (v : Settings) (h : Host)

def directorySource (cwd : Place) (dir : String) : List Source :=
  match h.directory cwd dir with
  | none => []
  | some place => [.directory place (h.patches place) v.patchArgs]

def extraSources (cwd : Place) : List String → List Source
  | [] => []
  | i :: rest => match h.directory cwd i with
    | none => .file cwd i v.patchArgs :: extraSources cwd rest
    | some place => .directory place (h.patches place) v.patchArgs :: extraSources place rest

def lastPlace (cwd : Place) : List Source → Place
  | [] => cwd
  | src :: rest => lastPlace src.place rest

def afterDistribution (start : Place) : Place :=
  if v.patchfiles ≠ "" then (h.directory start v.distdir).getD v.distdir else start

def distributionSources (start : Place) : List Source :=
  if v.patchfiles ≠ "" then
    (h.words (afterDistribution v h start) v.patchfiles).map (.file (afterDistribution v h start) · v.patchDistArgs)
  else []

def opening (s : Shell) : Shell :=
  if v.patchfiles ≠ "" then
    { s.say ("===>  Applying distribution patches for " ++ v.pkgname) with cwd := afterDistribution v h s.cwd }
  else s

def Enters (start : Place) : Prop := v.patchfiles ≠ "" → (h.directory start v.distdir).isSome

instance (start : Place) : Decidable (Enters v h start) := inferInstanceAs (Decidable (_ → _))

def extraFrom (cwd : Place) : List Source :=
  if v.extraPatches ≠ "" then extraSources v h cwd (h.words cwd v.extraPatches) else []

def treeFrom (cwd : Place) : List Source :=
  if v.extraPatchTree ≠ "" then directorySource v h cwd (v.extraPatchTree ++ "/" ++ v.pkgorigin) else []

def sources (start : Place) : List Source :=
  let extra := extraFrom v h (afterDistribution v h start)
  let own := directorySource v h (lastPlace (afterDistribution v h start) extra) v.patchdir
  distributionSources v h start ++ extra ++ own ++
    treeFrom v h (lastPlace (lastPlace (afterDistribution v h start) extra) own)

end Sources

section Attempts
variable (v : Settings) (h : Host)

/-- Try the attempts after those of `before`, until the first failure or to the end. -/
def tryAll (stops : Bool) : List Attempt → List Attempt → List (Attempt × Bool)
  | _, [] => []
  | before, a :: rest =>
    if h.patch before a then (a, true) :: tryAll stops (before ++ [a]) rest
    else (a, false) :: if stops then [] else tryAll stops (before ++ [a]) rest

def stops : Bool := v.patchContinueOnFail = ""

def Failing (attempts : List (Attempt × Bool)) : Prop := ∃ a, (a, false) ∈ attempts

def shellOf : Run → Shell
  | .ok s => s
  | .error s => s

def Ended : Run → Prop
  | .ok _ => False
  | .error _ => True

instance : (r : Run) → Decidable (Ended r)
  | .ok _ => inferInstanceAs (Decidable False)
  | .error _ => inferInstanceAs (Decidable True)

/-- A silent script forgets the failure of a directory, unless it is to continue. -/
def Forgets (src : Source) : Prop := src.IsDirectory ∧ v.patchSilent = "yes"

instance (src : Source) : Decidable (Forgets v src) := inferInstanceAs (Decidable (_ ∧ _))

structure Follows (src : Source) (s : Shell) (r : Run) : Prop where
  attempts : (shellOf r).attempts = s.attempts ++ tryAll h (stops v) s.tried src.planned
  ended : Ended r ↔ Failing (tryAll h (stops v) s.tried src.planned) ∧ stops v ∧ ¬ Forgets v src
  hasFailed : (shellOf r).hasFailed = true ↔
    s.hasFailed = true ∨ Failing (tryAll h (stops v) s.tried src.planned) ∧ stops v = false
  cwd : (shellOf r).cwd = src.place

/-- What the loop over a directory does about the names it does not ignore. -/
structure Looped (names : List String) (failed : String) (s : Shell) (r : String × String × Shell) : Prop where
  attempts : r.2.2.attempts = s.attempts ++ tryAll h (stops v) s.tried (named s.cwd names v.patchArgs)
  failed : r.2.1 ≠ "" ↔ failed ≠ "" ∨ Failing (tryAll h (stops v) s.tried (named s.cwd names v.patchArgs))
  hasFailed : r.2.2.hasFailed = true ↔ s.hasFailed = true ∨
    Failing (tryAll h (stops v) s.tried (named s.cwd names v.patchArgs)) ∧ stops v = false
  cwd : r.2.2.cwd = s.cwd

variable {v h}

theorem failureFatal_eq (s : Shell) : failureFatal v s =
    if stops v then (false, s) else (true, { s with hasFailed := true }) := by
  unfold failureFatal stops
  split_ifs <;> simp_all

theorem failing_eq (s : Shell) :
    failing v s = if stops v then .error s else .ok { s with hasFailed := true } := by
  unfold failing
  rw [failureFatal_eq]
  split_ifs <;> rfl

theorem applyOnePatch_eq (word msg verbose args : String) (s : Shell) : ∃ out,
    applyOnePatch v h word msg verbose args s = (h.patch s.tried (attempt s.cwd word args),
      ⟨s.cwd, s.hasFailed, s.attempts ++ [(attempt s.cwd word args,
        h.patch s.tried (attempt s.cwd word args))], out⟩) := by
  refine ⟨(applyOnePatch v h word msg verbose args s).2.output, ?_⟩
  unfold applyOnePatch attempt
  dsimp only
  generalize hsaid : (if verbose ≠ "" ∨ v.patchDebugTmp ≠ "" then
    s.say ("===>  Applying " ++ (msg ++ " " ++ (patchStrip word).1 ++
      if (patchStrip word).2 ≠ "" then " with " ++ (patchStrip word).2 else "")) else s) = said
  have hcwd : said.cwd = s.cwd := by subst hsaid; split_ifs <;> rfl
  have hfailed : said.hasFailed = s.hasFailed := by subst hsaid; split_ifs <;> rfl
  have hattempts : said.attempts = s.attempts := by subst hsaid; split_ifs <;> rfl
  simp only [Shell.tried, hcwd, hfailed, hattempts]
  cases h.patch (s.attempts.map Prod.fst) _ <;> simp [Shell.say, *]

@[simp] theorem tryAll_nil (stops : Bool) (before : List Attempt) : tryAll h stops before [] = [] := rfl

theorem tryAll_succeeded (stops : Bool) {before : List Attempt} {a : Attempt} (rest : List Attempt)
    (hok : h.patch before a = true) :
    tryAll h stops before (a :: rest) = (a, true) :: tryAll h stops (before ++ [a]) rest := by
  simp [tryAll, hok]

theorem tryAll_stopped {before : List Attempt} {a : Attempt} (rest : List Attempt)
    (hok : h.patch before a = false) :
    tryAll h true before (a :: rest) = [(a, false)] := by
  simp [tryAll, hok]

theorem tryAll_continued {before : List Attempt} {a : Attempt} (rest : List Attempt)
    (hok : h.patch before a = false) :
    tryAll h false before (a :: rest) = (a, false) :: tryAll h false (before ++ [a]) rest := by
  simp [tryAll, hok]

theorem failing_nil : ¬ Failing [] := by
  rintro ⟨a, ha⟩
  cases ha

theorem failing_cons_true (a : Attempt) (rest : List (Attempt × Bool)) :
    Failing ((a, true) :: rest) ↔ Failing rest := by
  simp [Failing]

theorem failing_cons_false (a : Attempt) (rest : List (Attempt × Bool)) : Failing ((a, false) :: rest) :=
  ⟨a, List.mem_cons_self⟩

theorem applyFile_follows (word msg verbose args : String) (s : Shell) :
    Follows v h (.file s.cwd word args) s (applyFile v h word msg verbose args s) := by
  obtain ⟨out, heq⟩ := applyOnePatch_eq word msg verbose args s
  have hforgets : ¬ Forgets v (.file s.cwd word args) := fun hf => hf.1
  unfold applyFile
  rw [heq]
  cases hok : h.patch s.tried (attempt s.cwd word args) with
  | true =>
    have htry : tryAll h (stops v) s.tried [attempt s.cwd word args] = [(attempt s.cwd word args, true)] := by
      simp [tryAll, hok]
    constructor <;> simp [Source.planned, Source.place, htry, shellOf, Ended, Failing]
  | false =>
    have htry : tryAll h (stops v) s.tried [attempt s.cwd word args] = [(attempt s.cwd word args, false)] := by
      simp [tryAll, hok]
    dsimp only
    rw [failing_eq]
    cases hstops : stops v <;> rw [hstops] at htry <;> constructor <;>
      simp [Source.planned, Source.place, hstops, htry, shellOf, Ended, failing_cons_false, hforgets]

theorem append_name_ne_empty (failed i : String) : failed ++ " " ++ i ≠ "" := by
  intro heq
  have hlength := congrArg String.length heq
  simp at hlength

theorem patchLoop_looped (msg : String) (names : List String) (applied failed : String) (s : Shell) :
    Looped v h names failed s (patchLoop v h msg names applied failed s) := by
  induction names generalizing applied failed s with
  | nil => constructor <;> simp [patchLoop, named, failing_nil]
  | cons i rest ih =>
    unfold patchLoop
    split_ifs with hignored
    · have hrest := ih applied failed (s.say ("====>   IGNORING patchfile " ++ i))
      have hnamed : named s.cwd (i :: rest) v.patchArgs = named s.cwd rest v.patchArgs := by
        simp [named, hignored]
      constructor
      · simpa [hnamed] using hrest.attempts
      · simpa [hnamed] using hrest.failed
      · simpa [hnamed] using hrest.hasFailed
      · simpa using hrest.cwd
    · generalize ha : attempt s.cwd i v.patchArgs = a
      have hnamed : named s.cwd (i :: rest) v.patchArgs = a :: named s.cwd rest v.patchArgs := by
        simp [named, hignored, ha]
      obtain ⟨out, heq⟩ := applyOnePatch_eq i msg "" v.patchArgs s
      have htried : ∀ failed ok, Shell.tried ⟨s.cwd, failed, s.attempts ++ [(a, ok)], out⟩ = s.tried ++ [a] := by
        simp [Shell.tried]
      rw [ha] at heq
      rw [heq]
      cases hok : h.patch s.tried a with
      | true =>
        have hrest := ih (applied ++ " " ++ i) failed ⟨s.cwd, s.hasFailed, s.attempts ++ [(a, true)], out⟩
        have htry := tryAll_succeeded (stops v) (named s.cwd rest v.patchArgs) hok
        constructor
        · rw [hnamed, htry, hrest.attempts, htried]
          simp
        · rw [hnamed, htry, failing_cons_true, hrest.failed, htried]
        · rw [hnamed, htry, failing_cons_true, hrest.hasFailed, htried]
        · exact hrest.cwd
      | false =>
        dsimp only
        rw [failureFatal_eq]
        cases hstops : stops v with
        | true =>
          have htry := tryAll_stopped (named s.cwd rest v.patchArgs) hok
          constructor <;> simp [hnamed, htry, hstops, failing_cons_false]
        | false =>
          have hrest := ih applied (failed ++ " " ++ i) ⟨s.cwd, true, s.attempts ++ [(a, false)], out⟩
          have htry := tryAll_continued (named s.cwd rest v.patchArgs) hok
          have hattempts := hrest.attempts
          have hfailed := hrest.failed
          have hflag := hrest.hasFailed
          rw [htried, hstops] at hattempts hfailed hflag
          constructor
          · rw [hnamed, hstops, htry]
            exact hattempts.trans (by simp)
          · rw [hnamed, hstops, htry]
            simpa [failing_cons_false, append_name_ne_empty] using hfailed
          · rw [hnamed, hstops, htry]
            simpa [failing_cons_false] using hflag
          · exact hrest.cwd

theorem reportFailures_eq (msg applied failed : String) (s : Shell) : ∃ out,
    reportFailures v msg (applied, failed, s) =
      if failed ≠ "" ∧ v.patchSilent ≠ "yes" then
        if stops v then .error { s with output := out } else .ok { s with hasFailed := true, output := out }
      else .ok s := by
  unfold reportFailures
  dsimp only
  rw [failing_eq]
  by_cases happlied : applied = "" <;> simp only [happlied, ne_eq, not_true, not_false_eq_true, if_true, if_false] <;>
    exact ⟨_, rfl⟩

/-- In a directory the loop stops at a failure, and its report ends the script, or not. -/
theorem patchFromDirectory_follows {dir : String} {place : Place} (msg : String) {s : Shell}
    (hplace : h.directory s.cwd dir = some place) :
    Follows v h (.directory place (h.patches place) v.patchArgs) s (patchFromDirectory v h dir msg s) := by
  unfold patchFromDirectory
  rw [hplace]
  dsimp only
  split_ifs with hskipped
  · constructor <;> simp [Source.planned, Source.place, hskipped, shellOf, Ended, failing_nil]
  · have hplanned : (Source.directory place (h.patches place) v.patchArgs).planned =
        named place (h.patches place) v.patchArgs := by
      simp [Source.planned, hskipped]
    generalize hstart : Shell.say _ _ = start
    have hlooped : Looped v h (h.patches place) "" start (patchLoop v h msg (h.patches place) "" "" start) :=
      patchLoop_looped msg (h.patches place) "" "" start
    have hcwd : start.cwd = place := by subst hstart; rfl
    have hflag : start.hasFailed = s.hasFailed := by subst hstart; rfl
    have hdone : start.attempts = s.attempts := by subst hstart; rfl
    have htried : start.tried = s.tried := by simp only [Shell.tried, hdone]
    generalize patchLoop v h msg (h.patches place) "" "" start = r at hlooped ⊢
    obtain ⟨applied, failed, s'⟩ := r
    obtain ⟨hattempts, hfailed, hhas, hcwd'⟩ := hlooped
    obtain ⟨out, heq⟩ := reportFailures_eq msg applied failed s'
    rw [heq]
    simp only [hcwd, htried, hflag, hdone, ne_eq, not_true, false_or] at hattempts hfailed hhas hcwd'
    have hforgets : Forgets v (.directory place (h.patches place) v.patchArgs) ↔ v.patchSilent = "yes" := by
      simp [Forgets, Source.IsDirectory]
    constructor
    · rw [hplanned, ← hattempts]
      split_ifs <;> rfl
    · rw [hplanned, hforgets, ← hfailed]
      split_ifs <;> simp_all [Ended]
    · rw [hplanned, ← hfailed]
      rw [← hfailed] at hhas
      split_ifs <;> simp_all [shellOf]
    · rw [Source.place, ← hcwd']
      split_ifs <;> rfl

/-- The sources one after the other, up to the one that ends the script. -/
inductive FollowsAll (v : Settings) (h : Host) : List Source → Shell → Run → Prop
  | nil (s : Shell) : FollowsAll v h [] s (.ok s)
  | ended {src : Source} {rest : List Source} {s s' : Shell} :
      Follows v h src s (.error s') → FollowsAll v h (src :: rest) s (.error s')
  | next {src : Source} {rest : List Source} {s s' : Shell} {r : Run} :
      Follows v h src s (.ok s') → FollowsAll v h rest s' r → FollowsAll v h (src :: rest) s r

theorem Follows.all {src : Source} {s : Shell} {r : Run} (hone : Follows v h src s r) : FollowsAll v h [src] s r := by
  cases r with
  | ok s' => exact .next hone (.nil s')
  | error s' => exact .ended hone

theorem FollowsAll.bind {srcs srcs' : List Source} {s : Shell} {r : Run} {f : Shell → Run}
    (hall : FollowsAll v h srcs s r) (hnext : ∀ s', r = .ok s' → FollowsAll v h srcs' s' (f s')) :
    FollowsAll v h (srcs ++ srcs') s (r >>= f) := by
  induction hall with
  | nil s => exact hnext s rfl
  | ended hone => exact .ended hone
  | next hone _ ih => exact .next hone (ih hnext)

theorem FollowsAll.cwd {srcs : List Source} {s s' : Shell} {r : Run} (hall : FollowsAll v h srcs s r)
    (hr : r = .ok s') : s'.cwd = lastPlace s.cwd srcs := by
  induction hall with
  | nil s =>
    cases hr
    rfl
  | ended => cases hr
  | next hone _ ih =>
    rw [ih hr, lastPlace]
    exact congrArg (lastPlace · _) hone.cwd

theorem distributionLoop_follows (words : List String) (s : Shell) :
    FollowsAll v h (words.map (.file s.cwd · v.patchDistArgs)) s (distributionLoop v h words s) := by
  induction words generalizing s with
  | nil => exact .nil s
  | cons i rest ih =>
    have hone := applyFile_follows (v := v) (h := h) i "distribution patch" "" v.patchDistArgs s
    refine hone.all.bind ?_
    intro s' hs'
    have hcwd : s'.cwd = s.cwd := hone.all.cwd hs'
    rw [← hcwd]
    exact ih s'

theorem directory_follows (dir msg : String) (s : Shell) :
    FollowsAll v h (directorySource v h s.cwd dir) s (patchFromDirectory v h dir msg s) := by
  unfold directorySource
  cases hplace : h.directory s.cwd dir with
  | none =>
    unfold patchFromDirectory
    rw [hplace]
    exact .nil s
  | some place => exact (patchFromDirectory_follows msg hplace).all

theorem extraLoop_follows (words : List String) (s : Shell) :
    FollowsAll v h (extraSources v h s.cwd words) s (extraLoop v h words s) := by
  induction words generalizing s with
  | nil => exact .nil s
  | cons i rest ih =>
    unfold extraSources extraLoop
    cases hplace : h.directory s.cwd i with
    | none =>
      have hone := applyFile_follows (v := v) (h := h) i "extra patch" "verbose" v.patchArgs s
      refine hone.all.bind ?_
      intro s' hs'
      have hcwd : s'.cwd = s.cwd := hone.all.cwd hs'
      rw [← hcwd]
      exact ih s'
    | some place =>
      have hone := patchFromDirectory_follows (v := v) "extra patch" hplace
      refine hone.all.bind ?_
      intro s' hs'
      have hcwd : s'.cwd = place := hone.all.cwd hs'
      rw [← hcwd]
      exact ih s'

theorem distributionPatches_follows (s : Shell) (henters : Enters v h s.cwd) :
    FollowsAll v h (distributionSources v h s.cwd) (opening v h s) (distributionPatches v h s) := by
  unfold distributionSources opening distributionPatches
  split_ifs with hfiles
  · obtain ⟨place, hplace⟩ := Option.isSome_iff_exists.1 (henters hfiles)
    have hafter : afterDistribution v h s.cwd = place := by
      rw [afterDistribution, if_pos hfiles, hplace]
      rfl
    rw [hafter]
    simp only [Shell.say_cwd, hplace]
    exact distributionLoop_follows _ { s.say ("===>  Applying distribution patches for " ++ v.pkgname) with cwd := place }
  · exact .nil s

theorem extraPatches_follows (s : Shell) : FollowsAll v h (extraFrom v h s.cwd) s (extraPatches v h s) := by
  unfold extraFrom extraPatches
  split_ifs
  · exact extraLoop_follows _ s
  · exact .nil s

theorem treePatches_follows (s : Shell) : FollowsAll v h (treeFrom v h s.cwd) s (treePatches v h s) := by
  unfold treeFrom treePatches
  split_ifs
  · exact directory_follows _ _ s
  · exact .nil s

theorem lastPlace_file (cwd : Place) (words : List String) (args : String) :
    lastPlace cwd (words.map (.file cwd · args)) = cwd := by
  induction words with
  | nil => rfl
  | cons i rest ih => exact ih

theorem lastPlace_distribution (s : Shell) :
    lastPlace (opening v h s).cwd (distributionSources v h s.cwd) = afterDistribution v h s.cwd := by
  unfold distributionSources opening
  split_ifs with hfiles
  · exact lastPlace_file _ _ _
  · rw [afterDistribution, if_neg hfiles]
    rfl

theorem applyPatches_follows (s : Shell) (henters : Enters v h s.cwd) :
    FollowsAll v h (sources v h s.cwd) (opening v h s) (applyPatches v h s) := by
  unfold sources applyPatches
  dsimp only
  rw [List.append_assoc, List.append_assoc]
  refine (distributionPatches_follows s henters).bind fun s₁ h₁ => ?_
  have hcwd₁ := (distributionPatches_follows s henters).cwd h₁
  rw [lastPlace_distribution] at hcwd₁
  rw [← hcwd₁]
  refine (extraPatches_follows s₁).bind fun s₂ h₂ => ?_
  have hcwd₂ := (extraPatches_follows s₁).cwd h₂
  rw [← hcwd₂]
  refine (directory_follows v.patchdir v.opsys s₂).bind fun s₃ h₃ => ?_
  have hcwd₃ := (directory_follows v.patchdir v.opsys s₂).cwd h₃
  rw [← hcwd₃]
  exact treePatches_follows s₃

end Attempts

section Failures
variable (v : Settings) (h : Host)

def breaks : List Attempt → List Attempt → Bool
  | _, [] => false
  | before, a :: rest => !h.patch before a || breaks (before ++ [a]) rest

def firstBreak : List Attempt → List Source → Option Source
  | _, [] => none
  | before, src :: rest =>
    if breaks h before src.planned then some src else firstBreak (before ++ src.planned) rest

variable {v h}

theorem failing_tryAll_iff (stops : Bool) {before attempts : List Attempt} :
    Failing (tryAll h stops before attempts) ↔ breaks h before attempts := by
  induction attempts generalizing before with
  | nil => simp [breaks, failing_nil]
  | cons a rest ih =>
    cases hok : h.patch before a with
    | true => simp [tryAll_succeeded stops rest hok, failing_cons_true, ih, breaks, hok]
    | false => simp [tryAll, hok, failing_cons_false, breaks]

theorem tryAll_of_not_breaks {stops : Bool} {before attempts : List Attempt} (hnot : ¬ breaks h before attempts) :
    tryAll h stops before attempts = attempts.map (·, true) := by
  induction attempts generalizing before with
  | nil => rfl
  | cons a rest ih =>
    simp only [breaks, Bool.or_eq_true, not_or, Bool.not_eq_true, Bool.not_eq_false'] at hnot
    rw [tryAll_succeeded stops rest hnot.1, ih (by simp [hnot.2]), List.map_cons]

theorem tryAll_breaks {before attempts : List Attempt} (hbreaks : breaks h before attempts) :
    ∃ (pre : List Attempt) (a : Attempt), tryAll h true before attempts = pre.map (·, true) ++ [(a, false)] := by
  induction attempts generalizing before with
  | nil => cases hbreaks
  | cons a rest ih =>
    cases hok : h.patch before a with
    | true =>
      obtain ⟨pre, b, heq⟩ := ih (by simpa [breaks, hok] using hbreaks)
      exact ⟨a :: pre, b, by simp [tryAll_succeeded true rest hok, heq]⟩
    | false => exact ⟨[], a, by simp [tryAll_stopped rest hok]⟩

theorem length_tryAll_le (stops : Bool) (before attempts : List Attempt) :
    (tryAll h stops before attempts).length ≤ attempts.length := by
  induction attempts generalizing before with
  | nil => simp
  | cons a rest ih =>
    have hrest := ih (before ++ [a])
    unfold tryAll
    split_ifs <;> simp <;> omega

section Sources
variable {srcs : List Source} {s : Shell} {r : Run}

theorem Follows.tried {src : Source} {s' : Shell} (hone : Follows v h src s (.ok s'))
    (hnot : ¬ breaks h s.tried src.planned) : s'.tried = s.tried ++ src.planned := by
  have hattempts : s'.attempts = _ := hone.attempts
  rw [Shell.tried, hattempts, tryAll_of_not_breaks hnot]
  simp [Shell.tried, Function.comp_def]

theorem FollowsAll.length_le (hall : FollowsAll v h srcs s r) :
    (shellOf r).attempts.length ≤ s.attempts.length + (srcs.flatMap Source.planned).length := by
  induction hall with
  | nil s => simp [shellOf]
  | @ended src rest s s' hone =>
    have hattempts : s'.attempts = _ := hone.attempts
    have hlength := length_tryAll_le (h := h) (stops v) s.tried src.planned
    simp [shellOf, hattempts]
    omega
  | @next src rest s s' r hone _ ih =>
    have hattempts : s'.attempts = _ := hone.attempts
    have hlength := length_tryAll_le (h := h) (stops v) s.tried src.planned
    simp only [hattempts, List.length_append, List.flatMap_cons] at ih ⊢
    omega

theorem FollowsAll.unbroken (hall : FollowsAll v h srcs s r) (hnone : firstBreak h s.tried srcs = none) :
    ∃ s', r = .ok s' ∧ s'.hasFailed = s.hasFailed ∧
      s'.attempts = s.attempts ++ (srcs.flatMap Source.planned).map (·, true) := by
  induction hall with
  | nil s => exact ⟨s, rfl, rfl, by simp⟩
  | @ended src rest s s' hone =>
    unfold firstBreak at hnone
    split_ifs at hnone with hbreaks
    exact absurd ((failing_tryAll_iff _).1 (hone.ended.1 trivial).1) hbreaks
  | @next src rest s s' r hone _ ih =>
    unfold firstBreak at hnone
    split_ifs at hnone with hbreaks
    rw [← hone.tried hbreaks] at hnone
    obtain ⟨s'', hr, hflag, hattempts⟩ := ih hnone
    have hstep : s'.attempts = _ := hone.attempts
    have hsame : s'.hasFailed = s.hasFailed := by
      have hiff := hone.hasFailed
      rw [failing_tryAll_iff] at hiff
      exact Bool.eq_iff_iff.2 (hiff.trans (by simp [hbreaks]))
    refine ⟨s'', hr, hflag.trans hsame, ?_⟩
    rw [hattempts, hstep, tryAll_of_not_breaks hbreaks]
    simp

theorem FollowsAll.remembered (hall : FollowsAll v h srcs s r) (hstops : stops v = false) :
    ∃ s', r = .ok s' ∧ (s.hasFailed = true → s'.hasFailed = true) ∧
      ((firstBreak h s.tried srcs).isSome → s'.hasFailed = true ∧ Failing s'.attempts) ∧
        (Failing s.attempts → Failing s'.attempts) := by
  induction hall with
  | nil s => exact ⟨s, rfl, id, by simp [firstBreak], id⟩
  | @ended src rest s s' hone =>
    have hno := (hone.ended.1 trivial).2.1
    simp [hstops] at hno
  | @next src rest s s' r hone _ ih =>
    obtain ⟨s'', hr, hflag, hrest, hmore⟩ := ih
    have hstep : s'.attempts = _ := hone.attempts
    have hthen := hone.hasFailed
    have hkept : Failing s.attempts → Failing s'.attempts := by
      rintro ⟨a, ha⟩
      exact ⟨a, hstep ▸ List.mem_append_left _ ha⟩
    refine ⟨s'', hr, fun hs => hflag (hthen.2 (.inl hs)), fun hsome => ?_, fun hs => hmore (hkept hs)⟩
    by_cases hbreaks : breaks h s.tried src.planned
    · have hfailing := (failing_tryAll_iff (stops v)).2 hbreaks
      obtain ⟨a, ha⟩ := id hfailing
      exact ⟨hflag (hthen.2 (.inr ⟨hfailing, hstops⟩)), hmore ⟨a, hstep ▸ List.mem_append_right _ ha⟩⟩
    · unfold firstBreak at hsome
      rw [if_neg hbreaks, ← hone.tried hbreaks] at hsome
      exact hrest hsome

theorem FollowsAll.stopped (hall : FollowsAll v h srcs s r) (hstops : stops v = true) {src : Source}
    (hfirst : firstBreak h s.tried srcs = some src) (hkept : ¬ Forgets v src) :
    ∃ (s' : Shell) (pre : List Attempt) (a : Attempt),
      r = .error s' ∧ s'.attempts = s.attempts ++ pre.map (·, true) ++ [(a, false)] := by
  induction hall with
  | nil s => cases hfirst
  | @ended src' rest s s' hone =>
    have hfailing := (hone.ended.1 trivial).1
    have hstep : s'.attempts = _ := hone.attempts
    rw [hstops] at hfailing hstep
    obtain ⟨pre, a, htry⟩ := tryAll_breaks ((failing_tryAll_iff _).1 hfailing)
    exact ⟨s', pre, a, rfl, by rw [hstep, htry, List.append_assoc]⟩
  | @next src' rest s s' r hone _ ih =>
    unfold firstBreak at hfirst
    split_ifs at hfirst with hbreaks
    · cases hfirst
      exact (hone.ended.2 ⟨(failing_tryAll_iff _).2 hbreaks, hstops, hkept⟩).elim
    · rw [← hone.tried hbreaks] at hfirst
      obtain ⟨s'', pre, a, hr, hattempts⟩ := ih hfirst
      have hstep : s'.attempts = _ := hone.attempts
      refine ⟨s'', src'.planned ++ pre, a, hr, ?_⟩
      rw [hattempts, hstep, tryAll_of_not_breaks hbreaks]
      simp

theorem Follows.flag {src : Source} (hone : Follows v h src s r) (hstops : stops v = true) :
    (shellOf r).hasFailed = s.hasFailed := by
  have hflag := hone.hasFailed
  simp only [hstops, Bool.true_eq_false, and_false, or_false] at hflag
  exact Bool.eq_iff_iff.2 hflag

theorem FollowsAll.grows (hall : FollowsAll v h srcs s r) (hstops : stops v = true) :
    s.attempts <+: (shellOf r).attempts ∧ (shellOf r).hasFailed = s.hasFailed ∧
      (Ended r → s.attempts.length < (shellOf r).attempts.length) := by
  induction hall with
  | nil s => exact ⟨List.prefix_refl _, rfl, fun hended => hended.elim⟩
  | @ended src rest s s' hone =>
    have hstep : s'.attempts = _ := hone.attempts
    obtain ⟨a, ha⟩ := (hone.ended.1 trivial).1
    have hpos := List.length_pos_of_mem ha
    refine ⟨⟨_, hstep.symm⟩, hone.flag hstops, fun _ => ?_⟩
    change s.attempts.length < s'.attempts.length
    rw [hstep, List.length_append]
    omega
  | @next src rest s s' r hone _ ih =>
    obtain ⟨hgrows, hflag, hlonger⟩ := ih
    have hstep : s'.attempts = _ := hone.attempts
    have hgrown : s.attempts <+: s'.attempts := ⟨_, hstep.symm⟩
    refine ⟨hgrown.trans hgrows, hflag.trans (hone.flag hstops), fun hended => ?_⟩
    exact Nat.lt_of_le_of_lt hgrown.length_le (hlonger hended)

theorem FollowsAll.forgotten (hall : FollowsAll v h srcs s r) (hstops : stops v = true) {src : Source}
    (hfirst : firstBreak h s.tried srcs = some src) (hforgets : Forgets v src) :
    ∃ (pre : List (Attempt × Bool)) (a : Attempt), pre ++ [(a, false)] <+: (shellOf r).attempts ∧
      (shellOf r).hasFailed = s.hasFailed ∧
        (Ended r → (pre ++ [(a, false)]).length < (shellOf r).attempts.length) := by
  induction hall with
  | nil s => cases hfirst
  | @ended src' rest s s' hone =>
    obtain ⟨hfailing, _, hkept⟩ := hone.ended.1 trivial
    unfold firstBreak at hfirst
    rw [if_pos ((failing_tryAll_iff _).1 hfailing)] at hfirst
    cases hfirst
    exact absurd hforgets hkept
  | @next src' rest s s' r hone hrest ih =>
    unfold firstBreak at hfirst
    split_ifs at hfirst with hbreaks
    · obtain ⟨pre, a, htry⟩ := tryAll_breaks hbreaks
      have hstep : s'.attempts = _ := hone.attempts
      rw [hstops, htry, ← List.append_assoc] at hstep
      obtain ⟨hgrows, hflag, hlonger⟩ := hrest.grows hstops
      rw [hstep] at hgrows hlonger
      exact ⟨_, a, hgrows, hflag.trans (hone.flag hstops), hlonger⟩
    · rw [← hone.tried hbreaks] at hfirst
      obtain ⟨pre, a, hgrows, hflag, hlonger⟩ := ih hfirst
      exact ⟨pre, a, hgrows, hflag.trans (hone.flag hstops), hlonger⟩

end Sources
end Failures

section Told
variable (v : Settings) (h : Host) (start : Place)

def AllApplied (s : Shell) : Prop :=
  ((sources v h start).flatMap Source.files).Subperm ((s.attempts.filter (·.2)).map Prod.fst)

def StopsAtFailure (s : Shell) : Prop := ∀ pre a post, s.attempts = pre ++ (a, false) :: post → post = []

/-- The status tells whether all patches were applied, and a failure ends the attempts
unless the script is to continue. -/
structure TellsFailure : Prop where
  status : ¬ Ended (doPatch v h start) ↔ AllApplied v h start (shellOf (doPatch v h start))
  stops : v.patchContinueOnFail = "" → StopsAtFailure (shellOf (doPatch v h start))

def Plain : Source → Prop
  | .file .. => True
  | .directory _ names _ => ∀ name ∈ names, ¬ Ignored name → ¬ Skipped names ∧ patchStrip name = (name, "")

instance : (src : Source) → Decidable (Plain src)
  | .file .. => inferInstanceAs (Decidable True)
  | .directory _ names _ => inferInstanceAs (Decidable (∀ name ∈ names, _))

/-- The first patch that fails does not lie in a directory whose failure is forgotten; and
if none does, all directories are plain. -/
def NoneForgotten : Prop :=
  match firstBreak h [] (sources v h start) with
  | some src => v.patchContinueOnFail = "" → ¬ Forgets v src
  | none => ∀ src ∈ sources v h start, Plain src

instance : Decidable (NoneForgotten v h start) :=
  match hfirst : firstBreak h [] (sources v h start) with
  | some src => decidable_of_iff (v.patchContinueOnFail = "" → ¬ Forgets v src) (by rw [NoneForgotten, hfirst])
  | none => decidable_of_iff (∀ src ∈ sources v h start, Plain src) (by rw [NoneForgotten, hfirst])

end Told

section Files
variable {srcs : List Source}

def strips (attempts : List Attempt) : ℕ := attempts.countP (·.strip ≠ "")

theorem patchStrip_of_empty {word : String} (hstrip : (patchStrip word).2 = "") : patchStrip word = (word, "") := by
  unfold patchStrip at hstrip ⊢
  split at hstrip
  · split_ifs at hstrip with hdigit
    · simp at hstrip
    · simp [hdigit]
  · rfl

theorem strips_directory (place : Place) (names : List String) (args : String) :
    strips (Source.directory place names args).files = 0 := by
  simp [strips, Source.files, List.countP_eq_zero]

theorem planned_of_plain {src : Source} (hplain : Plain src) : src.planned = src.files := by
  cases src with
  | file place word args => rfl
  | directory place names args =>
    have hnames : names.filter (¬ Ignored ·) ≠ [] → ¬ Skipped names := by
      intro hne
      obtain ⟨name, hname⟩ := List.exists_mem_of_ne_nil _ hne
      exact (hplain name (List.mem_of_mem_filter hname) (by simpa using (List.mem_filter.1 hname).2)).1
    rw [Source.planned_directory, Source.files_directory, named]
    split_ifs with hskipped
    · have hnil : names.filter (¬ Ignored ·) = [] := by_contra fun hne => hnames hne hskipped
      rw [hnil]
      rfl
    · apply List.map_congr_left
      intro name hname
      have hstrip := (hplain name (List.mem_of_mem_filter hname) (by simpa using (List.mem_filter.1 hname).2)).2
      rw [attempt, hstrip]

theorem length_planned_le (src : Source) : src.planned.length ≤ src.files.length := by
  cases src with
  | file place word args => exact Nat.le_refl _
  | directory place names args =>
    rw [Source.planned_directory, Source.files_directory, named]
    split_ifs <;> simp

theorem strips_files_le (src : Source) : strips src.files ≤ strips src.planned := by
  cases src with
  | file place word args => exact Nat.le_refl _
  | directory place names args => simp [strips_directory]

/-- A directory that is not plain is left out, or a file of it is taken for another. -/
theorem not_plain {src : Source} (hplain : ¬ Plain src) :
    src.planned.length < src.files.length ∨ strips src.files < strips src.planned := by
  cases src with
  | file place word args => exact absurd trivial hplain
  | directory place names args =>
    simp only [Plain, not_forall] at hplain
    obtain ⟨name, hname, hignored, hodd⟩ := hplain
    have hmem : name ∈ names.filter (¬ Ignored ·) := List.mem_filter.2 ⟨hname, by simpa using hignored⟩
    by_cases hskipped : Skipped names
    · left
      have hpos := List.length_pos_of_mem hmem
      simpa [Source.planned, Source.files, hskipped] using hpos
    · right
      have hstrip : (patchStrip name).2 ≠ "" := fun hempty => hodd ⟨hskipped, patchStrip_of_empty hempty⟩
      rw [strips_directory, Source.planned_directory, if_neg hskipped]
      apply List.countP_pos_iff.2
      exact ⟨attempt place name args, List.mem_map.2 ⟨name, hmem, rfl⟩, decide_eq_true hstrip⟩

theorem planned_bounds (srcs : List Source) :
    (srcs.flatMap Source.planned).length ≤ (srcs.flatMap Source.files).length ∧
      strips (srcs.flatMap Source.files) ≤ strips (srcs.flatMap Source.planned) ∧
        ((∃ src ∈ srcs, ¬ Plain src) →
          (srcs.flatMap Source.planned).length < (srcs.flatMap Source.files).length ∨
            strips (srcs.flatMap Source.files) < strips (srcs.flatMap Source.planned)) := by
  induction srcs with
  | nil => simp
  | cons src rest ih =>
    obtain ⟨hlength, hstrips, hodd⟩ := ih
    have hlength₁ := length_planned_le src
    have hstrips₁ := strips_files_le src
    unfold strips at *
    simp only [List.flatMap_cons, List.length_append, List.countP_append]
    refine ⟨by omega, by omega, ?_⟩
    rintro ⟨odd, hmem, hplain⟩
    rcases List.mem_cons.1 hmem with rfl | hmem
    · have hone := not_plain hplain
      unfold strips at hone
      omega
    · have hmore := hodd ⟨odd, hmem, hplain⟩
      omega

theorem files_subperm_iff :
    (srcs.flatMap Source.files).Subperm (srcs.flatMap Source.planned) ↔ ∀ src ∈ srcs, Plain src := by
  constructor
  · intro hsub
    by_contra hall
    simp only [not_forall] at hall
    obtain ⟨src, hmem, hplain⟩ := hall
    obtain ⟨hlength, _, hodd⟩ := planned_bounds srcs
    have hperm := hsub.perm_of_length_le hlength
    have hstrips : strips (srcs.flatMap Source.files) = strips (srcs.flatMap Source.planned) :=
      hperm.countP_eq _
    have hsame := hperm.length_eq
    have hlost := hodd ⟨src, hmem, hplain⟩
    omega
  · intro hall
    have heq : srcs.flatMap Source.files = srcs.flatMap Source.planned :=
      List.flatMap_congr fun src hmem => (planned_of_plain (hall src hmem)).symm
    rw [heq]

end Files

section Status
variable {v : Settings} {h : Host} {start : Place}

theorem ended_report (s : Shell) : Ended (report v s) ↔ s.hasFailed = true := by
  unfold report
  split_ifs with hflag <;> simp [Ended, hflag]

theorem attempts_report (s : Shell) : (shellOf (report v s)).attempts = s.attempts := by
  unfold report
  split_ifs <;> rfl

theorem ended_doPatch (v : Settings) (h : Host) (start : Place) : Ended (doPatch v h start) ↔
    Ended (applyPatches v h ⟨start, false, [], []⟩) ∨
      (shellOf (applyPatches v h ⟨start, false, [], []⟩)).hasFailed = true := by
  unfold doPatch
  cases applyPatches v h ⟨start, false, [], []⟩ with
  | ok s => exact (ended_report s).trans ⟨.inr, fun hor => hor.resolve_left id⟩
  | error s => exact ⟨fun _ => .inl trivial, fun _ => trivial⟩

theorem attempts_doPatch (v : Settings) (h : Host) (start : Place) : (shellOf (doPatch v h start)).attempts =
    (shellOf (applyPatches v h ⟨start, false, [], []⟩)).attempts := by
  unfold doPatch
  cases applyPatches v h ⟨start, false, [], []⟩ with
  | ok s => exact attempts_report s
  | error s => rfl

theorem opening_eq (v : Settings) (h : Host) (start : Place) :
    ∃ cwd out, opening v h ⟨start, false, [], []⟩ = ⟨cwd, false, [], out⟩ := by
  unfold opening
  split_ifs <;> exact ⟨_, _, rfl⟩

/-- With a failure among at most as many attempts as there are patch files, some file was
not applied. -/
theorem not_allApplied {s : Shell} (hfailing : Failing s.attempts)
    (hlength : s.attempts.length ≤ ((sources v h start).flatMap Source.files).length) :
    ¬ AllApplied v h start s := by
  intro hall
  obtain ⟨a, ha⟩ := hfailing
  have hfewer : (s.attempts.filter (·.2)).length < s.attempts.length :=
    List.length_filter_lt_length_iff_exists.2 ⟨(a, false), ha, by simp⟩
  have hle := hall.length_le
  rw [List.length_map] at hle
  omega

theorem nothing_after {pre : List Attempt} {pre' post : List (Attempt × Bool)} {a b : Attempt}
    (heq : pre.map (·, true) ++ [(a, false)] = pre' ++ (b, false) :: post) : post = [] := by
  induction pre generalizing pre' with
  | nil =>
    cases pre' with
    | nil => exact ((List.cons.inj heq).2).symm
    | cons x pre' => simp at heq
  | cons c pre ih =>
    cases pre' with
    | nil => simp at heq
    | cons x pre' => exact ih (List.cons.inj heq).2

theorem entered_tellsFailure_iff (henters : Enters v h start) : TellsFailure v h start ↔ NoneForgotten v h start := by
  have hended := ended_doPatch v h start
  have hattempts := attempts_doPatch v h start
  obtain ⟨cwd, out, hopening⟩ := opening_eq v h start
  have hall : FollowsAll v h (sources v h start) ⟨cwd, false, [], out⟩
      (applyPatches v h ⟨start, false, [], []⟩) := hopening ▸ applyPatches_follows ⟨start, false, [], []⟩ henters
  have hlength := hall.length_le
  rw [← hattempts] at hlength
  have hfiles := (planned_bounds (sources v h start)).1
  have hfew : (shellOf (doPatch v h start)).attempts.length ≤ ((sources v h start).flatMap Source.files).length := by
    simp only [List.length_nil, Nat.zero_add] at hlength
    omega
  have hstops : stops v = true ↔ v.patchContinueOnFail = "" := by simp [stops]
  unfold NoneForgotten
  cases hfirst : firstBreak h [] (sources v h start) with
  | none =>
    obtain ⟨s', hr, hflag, hdone⟩ := hall.unbroken hfirst
    have hok : ¬ Ended (doPatch v h start) := by
      rw [hended, hr]
      simp [Ended, shellOf, hflag]
    have hrun : (shellOf (doPatch v h start)).attempts = ((sources v h start).flatMap Source.planned).map (·, true) := by
      rw [hattempts, hr]
      simpa [shellOf] using hdone
    have hsuccesses : ((shellOf (doPatch v h start)).attempts.filter (·.2)).map Prod.fst =
        (sources v h start).flatMap Source.planned := by
      rw [hrun, List.filter_eq_self.2 (by simp)]
      simp [Function.comp_def]
    have hplain : AllApplied v h start (shellOf (doPatch v h start)) ↔ ∀ src ∈ sources v h start, Plain src := by
      rw [AllApplied, hsuccesses]
      exact files_subperm_iff
    constructor
    · intro htells
      exact hplain.1 (htells.status.1 hok)
    · intro hplain'
      refine ⟨⟨fun _ => hplain.2 hplain', fun _ => hok⟩, fun _ pre a post heq => ?_⟩
      have hmem : (a, false) ∈ pre ++ (a, false) :: post := by simp
      rw [← heq, hrun] at hmem
      simp at hmem
  | some src =>
    by_cases hcont : v.patchContinueOnFail = ""
    · by_cases hforgets : Forgets v src
      · -- the script ends well, or tries something after the failure
        obtain ⟨pre, a, hgrows, hflag, hlonger⟩ := hall.forgotten (hstops.2 hcont) hfirst hforgets
        rw [← hattempts] at hgrows hlonger
        obtain ⟨post, hpost⟩ := hgrows
        have hfailing : Failing (shellOf (doPatch v h start)).attempts := ⟨a, by simp [← hpost]⟩
        refine ⟨fun htells => ?_, fun hkept => absurd hforgets (hkept hcont)⟩
        exfalso
        by_cases hend : Ended (doPatch v h start)
        · have hended' := (hended.1 hend).resolve_right (by simp [hflag])
          have hnil : post = [] := htells.stops hcont pre a post (by simp [← hpost])
          have hlt := hlonger hended'
          rw [← hpost, hnil, List.append_nil] at hlt
          exact Nat.lt_irrefl _ hlt
        · exact not_allApplied hfailing hfew (htells.status.1 hend)
      · obtain ⟨s', pre, a, hr, hdone⟩ := hall.stopped (hstops.2 hcont) hfirst hforgets
        have hrun : (shellOf (doPatch v h start)).attempts = pre.map (·, true) ++ [(a, false)] := by
          rw [hattempts, hr]
          simpa [shellOf] using hdone
        have hend : Ended (doPatch v h start) := hended.2 (.inl (by rw [hr]; trivial))
        have hfailing : Failing (shellOf (doPatch v h start)).attempts := ⟨a, by simp [hrun]⟩
        refine ⟨fun _ _ => hforgets, fun _ => ⟨?_, fun _ pre' b post heq => ?_⟩⟩
        · exact ⟨fun hok => absurd hend hok, fun happlied => absurd happlied (not_allApplied hfailing hfew)⟩
        · exact nothing_after (hrun ▸ heq)
    · obtain ⟨s', hr, _, hbroken, _⟩ := hall.remembered (by simp [stops, hcont])
      obtain ⟨hflag, hfailing⟩ := hbroken (by simp [Shell.tried, hfirst])
      have hend : Ended (doPatch v h start) := hended.2 (.inr (by rw [hr]; exact hflag))
      have hfailing' : Failing (shellOf (doPatch v h start)).attempts := by
        rw [hattempts, hr]
        exact hfailing
      refine ⟨fun _ hstop => absurd hstop hcont, fun _ => ⟨?_, fun hstop => absurd hstop hcont⟩⟩
      exact ⟨fun hok => absurd hend hok, fun happlied => absurd happlied (not_allApplied hfailing' hfew)⟩

theorem shut_tellsFailure_iff (hshut : ¬ Enters v h start) :
    TellsFailure v h start ↔ (sources v h start).flatMap Source.files ≠ [] := by
  simp only [Enters, Classical.not_imp, Bool.not_eq_true, Option.isSome_eq_false_iff, Option.isNone_iff_eq_none] at hshut
  obtain ⟨hfiles, hnone⟩ := hshut
  obtain ⟨out, hrun⟩ : ∃ out, doPatch v h start = .error ⟨start, false, [], out⟩ := by
    have hpatches : distributionPatches v h ⟨start, false, [], []⟩ =
        .error ((Shell.mk start false [] []).say ("===>  Applying distribution patches for " ++ v.pkgname)) := by
      rw [distributionPatches, if_pos hfiles]
      simp only [Shell.say_cwd, hnone]
    refine ⟨["===>  Applying distribution patches for " ++ v.pkgname], ?_⟩
    rw [doPatch, applyPatches, hpatches]
    rfl
  have happlied : AllApplied v h start (shellOf (doPatch v h start)) ↔ (sources v h start).flatMap Source.files = [] := by
    rw [AllApplied, hrun]
    exact ⟨fun hsub => List.eq_nil_of_length_eq_zero (Nat.le_zero.1 hsub.length_le), fun hnil => by rw [hnil]; exact .refl _⟩
  have hended : Ended (doPatch v h start) := by
    rw [hrun]
    exact trivial
  constructor
  · exact fun htells hnil => htells.status.2 (happlied.2 hnil) hended
  · refine fun hsome => ⟨⟨fun hok => absurd hended hok, fun hall => absurd (happlied.1 hall) hsome⟩, fun _ pre a post heq => ?_⟩
    rw [hrun] at heq
    exact absurd heq (by simp [shellOf])

/-- The script tells of every failure if and only if it forgets none; where it does not get to its distribution patches,
if and only if it has any patch. -/
theorem tellsFailure_iff (v : Settings) (h : Host) (start : Place) : TellsFailure v h start ↔
    if Enters v h start then NoneForgotten v h start else (sources v h start).flatMap Source.files ≠ [] := by
  split_ifs with henters
  · exact entered_tellsFailure_iff henters
  · exact shut_tellsFailure_iff henters

end Status

def gmakeHost (patch : List Attempt → Attempt → Bool) : Host where
  words := fun _ _ => []
  directory := fun _ dir => if dir = "/usr/mports/devel/gmake/files" then some dir else none
  patches := fun _ => ["patch-configure", "patch-main.c", "patch-main.c.orig"]
  patch := patch

theorem gmake_tells : TellsFailure {} (gmakeHost fun _ a => a.file ≠ "patch-main.c") "/usr/mports/devel/gmake" :=
  (tellsFailure_iff _ _ _).2 (by decide +kernel)

theorem silent_not_tells :
    ¬ TellsFailure { patchSilent := "yes" } (gmakeHost fun _ _ => false) "/usr/mports/devel/gmake" := by
  intro htells
  have happlied := htells.status.1 (by decide +kernel)
  have hlength := happlied.length_le
  revert hlength
  decide +kernel

end Mports.PatchScript
