import Mports.PerlText
import Mathlib.Data.List.Infix

set_option autoImplicit false

namespace Mports.PortTestOutcome
open PerlText

inductive Target where
  | fetch | extract | patch | configure | build | fake | package | test
  deriving DecidableEq, Repr

def Target.name : Target → List Char
  | .fetch => "fetch".toList
  | .extract => "extract".toList
  | .patch => "patch".toList
  | .configure => "configure".toList
  | .build => "build".toList
  | .fake => "fake".toList
  | .package => "package".toList
  | .test => "test".toList

inductive Summary where
  | pass | warn | fail | skip
  deriving DecidableEq, Repr

structure Entry where
  phase : List Char
  msg : List Char
  name : List Char
  deriving DecidableEq, Repr

structure Log where
  phase : List Char
  data : List Char
  deriving DecidableEq, Repr

structure Results where
  summary : Summary
  skips : List Entry
  errors : List Entry
  warnings : List Entry
  log : Option Log
  deriving DecidableEq, Repr

/-- `code` is run with the log in `$_`. -/
structure Rule where
  name : List Char
  code : List Char → List Char

inductive MakeResult where
  | exited (status : ℕ)
  | timedOut
  deriving DecidableEq, Repr

inductive Died where
  | chdir | settings | incomplete | makeJobsLimit
  | phase (name : List Char)
  | log (target : Target)
  deriving DecidableEq, Repr

/-- The port as make shows it, the worker's limit of jobs and what each target comes to.
`settings` are the lines that make prints, if it succeeds; `output` is what a target writes to
its log, if that can be read. -/
structure Setup where
  port : List Char
  chdirs : Bool
  settings : Option (List (List Char))
  makeJobsLimit : Option (List Char)
  noTest : List Char
  testingUnsafe : List Char
  masterSites : List (List Char)
  timeoutFor : Target → ℕ
  make : Option (List Char) → Target → MakeResult
  output : Option (List Char) → Target → Option (List Char)
  warningRules : Target → List Rule
  errorRules : Target → List Rule
  timed : ∀ limit target, make limit target = .timedOut → timeoutFor target ≠ 0

/-- What `execute` of a class of rules returns. -/
structure PResults where
  summary : Summary
  errors : List Entry
  warnings : List Entry
  deriving DecidableEq

def warningStep (target : Target) (output : List Char) (result : PResults) (rule : Rule) : PResults :=
  let msg := rule.code output
  if isTrue msg then
    { result with
      summary := if result.summary = .pass then .warn else result.summary
      warnings := result.warnings ++ [⟨target.name, msg, rule.name⟩] }
  else result

def errorStep (target : Target) (output : List Char) (result : PResults) (rule : Rule) : PResults :=
  let msg := rule.code output
  if isTrue msg then
    { result with
      summary := .fail
      errors := result.errors ++ [⟨target.name, msg, rule.name⟩] }
  else result

section Run
variable (s : Setup)

def execute (target : Target) (output : List Char) : PResults :=
  (s.errorRules target).foldl (errorStep target output)
    ((s.warningRules target).foldl (warningStep target output) ⟨.pass, [], []⟩)

/-- `/\A[1-9][0-9]*\z/`. -/
def isLimit (text : List Char) : Bool :=
  match text with
  | [] => false
  | c :: cs => c.isDigit && c ≠ '0' && cs.all Char.isDigit

def checkForSkip : Except Died (Option Entry × Option (List Char)) :=
  if !s.chdirs then .error .chdir
  else
    match s.settings with
    | none => .error .settings
    | some (ignore :: existing :: _) =>
      let skip := if isTrue ignore then some ⟨"prerun".toList, s.port ++ ' ' :: ignore, "PortIgnored".toList⟩ else none
      match s.makeJobsLimit with
      | none => .ok (skip, none)
      | some limit =>
        if !isLimit limit then .error .makeJobsLimit
        else if isLimit existing && Nat.ofDigitChars 10 existing 0 < Nat.ofDigitChars 10 limit 0 then .ok (skip, some existing)
        else .ok (skip, some limit)
    | some _ => .error .incomplete

def checkForTestSkip : Option Entry :=
  if isTrue s.noTest || isTrue s.testingUnsafe then
    let reason := if isTrue s.noTest then "NO_TEST is set".toList else "TESTING_UNSAFE is set: ".toList ++ s.testingUnsafe
    some ⟨"prerun".toList, s.port ++ " test phase skipped: ".toList ++ reason, "TestSkipped".toList⟩
  else none

/-- `m{^(?:http|ftp)://}i`. -/
def isInsecure (url : List Char) : Bool :=
  "http://".toList.isPrefixOf (lc url) || "ftp://".toList.isPrefixOf (lc url)

def checkMasterSites (results : Results) : Results :=
  let insecure := (s.masterSites.filter isInsecure).eraseDups
  if insecure = [] then results
  else
    let shown := insecure.take 5
    let extra := if shown.length < insecure.length then
      " and ".toList ++ (toString (insecure.length - shown.length)).toList ++ " more".toList else []
    { results with
      warnings := results.warnings ++ [⟨"prerun".toList,
        "MASTER_SITES contains non-HTTPS URLs: ".toList ++ ", ".toList.intercalate shown ++ extra,
        "InsecureMasterSites".toList⟩]
      summary := if results.summary = .pass then .warn else results.summary }

def targetsForPhase (phase : List Char) : Except Died (List Target) :=
  if phase = "fetch".toList then .ok [.fetch]
  else if phase = "build".toList then .ok [.fetch, .extract, .patch, .configure, .build, .fake, .package]
  else if phase = "test".toList then .ok [.test]
  else .error (.phase phase)

def makeTimeout : List Char := "MakeTimeout".toList

def timeoutEntry (target : Target) : Entry :=
  ⟨target.name, "make ".toList ++ target.name ++ " timed out after ".toList ++
    (toString (s.timeoutFor target)).toList ++ " seconds and was killed".toList, makeTimeout⟩

/-- `$? >> 8`; a make that a signal ends has the code 0. -/
def exitEntry (target : Target) (status : ℕ) : Entry :=
  ⟨target.name, "make ".toList ++ target.name ++ " returned non-zero: ".toList ++ (toString (status / 256)).toList,
    "MakeExitNonZero".toList⟩

variable (limit : Option (List Char))

def afterMake (target : Target) (results : Results) : Results :=
  match s.make limit target with
  | .timedOut => { results with errors := results.errors ++ [timeoutEntry s target], summary := .fail }
  | .exited status =>
    if status = 0 then results
    else { results with errors := results.errors ++ [exitEntry target status], summary := .fail }

def logOf (target : Target) : Option (List Char) :=
  (s.output limit target).map fun output =>
    match s.make limit target with
    | .timedOut => output ++ "\n*** magus: make ".toList ++ target.name ++ " exceeded ".toList ++
        (toString (s.timeoutFor target)).toList ++ " seconds, killed ***\n".toList
    | .exited _ => output

def afterRules (presults : PResults) (results : Results) : Results :=
  let results :=
    if results.summary = .pass ∨ (results.summary = .warn ∧ presults.summary ≠ .pass) then
      { results with summary := presults.summary }
    else results
  let results :=
    if presults.errors ≠ [] then
      { results with errors := results.errors.filter (fun e => e.name = makeTimeout) ++ presults.errors }
    else results
  if presults.warnings ≠ [] then { results with warnings := results.warnings ++ presults.warnings } else results

def withLog (target : Target) (log : List Char) (results : Results) : Results :=
  if results.summary = .fail then { results with log := some ⟨target.name, log⟩ } else results

def round (target : Target) (log : List Char) (results : Results) : Results :=
  withLog target log (afterRules (execute s target log) (afterMake s limit target results))

def loop : Results → List Target → Except Died (List Target × Results)
  | results, [] => .ok ([], results)
  | results, target :: targets =>
    match logOf s limit target with
    | none => .error (.log target)
    | some log =>
      let results := round s limit target log results
      if results.summary = .fail then .ok ([target], results)
      else (loop results targets).map fun out => (target :: out.1, out.2)

end Run

/-- `$phase ||= 'build'`. -/
def phaseOf (phase : List Char) : List Char := if isTrue phase then phase else "build".toList

def skipCheck (s : Setup) (phase : List Char) : Except Died (Option Entry × Option (List Char)) :=
  (checkForSkip s).map fun out =>
    (out.1.or (if phase = "test".toList then checkForTestSkip s else none), out.2)

def run (s : Setup) (phase : List Char) : Except Died (List Target × Results) :=
  let phase := phaseOf phase
  let results : Results := ⟨.pass, [], [], [], none⟩
  match skipCheck s phase with
  | .error e => .error e
  | .ok (some skip, _) => .ok ([], { results with skips := [skip], summary := .skip })
  | .ok (none, limit) =>
    let results := if phase = "build".toList then checkMasterSites s results else results
    match targetsForPhase phase with
    | .error e => .error e
    | .ok targets => loop s limit results targets

section Laws
variable (s : Setup) (limit : Option (List Char))

def matching (rules : List Rule) (target : Target) (log : List Char) : List Entry :=
  (rules.filter fun rule => isTrue (rule.code log)).map fun rule => ⟨target.name, rule.code log, rule.name⟩

def makeErrors (target : Target) : List Entry :=
  match s.make limit target with
  | .timedOut => [timeoutEntry s target]
  | .exited status => if status = 0 then [] else [exitEntry target status]

def ruleErrors (target : Target) : List Entry :=
  matching (s.errorRules target) target ((logOf s limit target).getD [])

def ruleWarnings (target : Target) : List Entry :=
  matching (s.warningRules target) target ((logOf s limit target).getD [])

def Fails (target : Target) : Prop := makeErrors s limit target ≠ [] ∨ ruleErrors s limit target ≠ []

instance (target : Target) : Decidable (Fails s limit target) := inferInstanceAs (Decidable (_ ∨ _))

/-- The matching rules if there are any, after a timeout; else what is wrong with make. -/
def targetErrors (target : Target) : List Entry :=
  if ruleErrors s limit target = [] then makeErrors s limit target
  else if s.make limit target = .timedOut then timeoutEntry s target :: ruleErrors s limit target
  else ruleErrors s limit target

def masterWarnings (phase : List Char) : List Entry :=
  if phase = "build".toList then (checkMasterSites s ⟨.pass, [], [], [], none⟩).warnings else []

/-- The law for the results of a phase with these targets. -/
structure Lawful (phase : List Char) (targets ran : List Target) (results : Results) : Prop where
  in_order : ran <+: targets
  none_after : ∀ target ∈ ran.dropLast, ¬ Fails s limit target
  complete : ran = targets ∨ ∃ target ∈ ran.getLast?, Fails s limit target
  fail_iff : results.summary = .fail ↔ results.errors ≠ []
  warn_iff : results.summary = .warn ↔ results.errors = [] ∧ results.warnings ≠ []
  pass_iff : results.summary = .pass ↔ results.errors = [] ∧ results.warnings = []
  warnings : results.warnings = masterWarnings s phase ++ ran.flatMap (ruleWarnings s limit)
  errors : results.errors = (ran.filter fun target => Fails s limit target).flatMap (targetErrors s limit)
  timeout_first : ∀ target ∈ ran, s.make limit target = .timedOut → results.errors.head? = some (timeoutEntry s target)
  log_iff : results.log ≠ none ↔ results.summary = .fail
  log : ∀ log ∈ results.log, ∃ target ∈ ran, Fails s limit target ∧
    logOf s limit target = some log.data ∧ log.phase = target.name

end Laws

section Steps
variable {s : Setup} {limit : Option (List Char)} {target : Target} {log : List Char}

theorem matching_cons (rule : Rule) (rules : List Rule) :
    matching (rule :: rules) target log =
      (if isTrue (rule.code log) then [⟨target.name, rule.code log, rule.name⟩] else []) ++ matching rules target log := by
  unfold matching
  by_cases hmatch : isTrue (rule.code log)
  · simp [hmatch]
  · simp [hmatch]

theorem warningSteps_eq (target : Target) (log : List Char) (rules : List Rule) (warnings : List Entry) :
    rules.foldl (warningStep target log) ⟨if warnings = [] then .pass else .warn, [], warnings⟩ =
      ⟨if warnings ++ matching rules target log = [] then .pass else .warn, [], warnings ++ matching rules target log⟩ := by
  induction rules generalizing warnings with
  | nil => rw [List.foldl_nil, matching, List.filter_nil, List.map_nil, List.append_nil]
  | cons rule rules ih =>
    rw [List.foldl_cons, matching_cons, ← List.append_assoc, ← ih, warningStep]
    by_cases hmatch : isTrue (rule.code log)
    · by_cases hnone : warnings = []
      · simp [hmatch, hnone]
      · simp [hmatch, hnone]
    · simp [hmatch]

theorem errorSteps_eq (rules : List Rule) (summary : Summary) (errors warnings : List Entry) :
    rules.foldl (errorStep target log) ⟨summary, errors, warnings⟩ =
      ⟨if matching rules target log = [] then summary else .fail, errors ++ matching rules target log, warnings⟩ := by
  induction rules generalizing summary errors with
  | nil => rw [List.foldl_nil, matching, List.filter_nil, List.map_nil, List.append_nil, if_pos rfl]
  | cons rule rules ih =>
    rw [List.foldl_cons, matching_cons, errorStep]
    by_cases hmatch : isTrue (rule.code log)
    · simp [ih, hmatch]
    · simp [ih, hmatch]

theorem execute_eq (s : Setup) (target : Target) (log : List Char) :
    execute s target log =
      ⟨if matching (s.errorRules target) target log = [] then
          if matching (s.warningRules target) target log = [] then .pass else .warn
        else .fail,
        matching (s.errorRules target) target log, matching (s.warningRules target) target log⟩ := by
  have hwarnings := warningSteps_eq target log (s.warningRules target) []
  rw [if_pos rfl, List.nil_append] at hwarnings
  rw [execute, hwarnings, errorSteps_eq, List.nil_append]

def clean (warnings : List Entry) : Results := ⟨if warnings = [] then .pass else .warn, [], [], warnings, none⟩

theorem afterMake_clean (s : Setup) (limit : Option (List Char)) (target : Target) (warnings : List Entry) :
    afterMake s limit target (clean warnings) =
      if makeErrors s limit target = [] then clean warnings
      else ⟨.fail, [], makeErrors s limit target, warnings, none⟩ := by
  unfold afterMake makeErrors
  cases s.make limit target with
  | timedOut => rfl
  | exited status =>
    by_cases hzero : status = 0
    · simp [hzero]
    · simp [hzero, clean]

theorem makeErrors_timeouts (s : Setup) (limit : Option (List Char)) (target : Target) :
    (makeErrors s limit target).filter (fun e => e.name = makeTimeout) =
      if s.make limit target = .timedOut then [timeoutEntry s target] else [] := by
  have hexit : ∀ status, (exitEntry target status).name ≠ makeTimeout := fun _ =>
    show "MakeExitNonZero".toList ≠ makeTimeout by decide
  unfold makeErrors
  cases s.make limit target with
  | timedOut => simp [timeoutEntry]
  | exited status =>
    by_cases hzero : status = 0
    · simp [hzero]
    · simp [hzero, hexit]

theorem targetErrors_eq (s : Setup) (limit : Option (List Char)) (target : Target) :
    targetErrors s limit target =
      if ruleErrors s limit target = [] then makeErrors s limit target
      else (makeErrors s limit target).filter (fun e => e.name = makeTimeout) ++ ruleErrors s limit target := by
  rw [targetErrors, makeErrors_timeouts]
  split_ifs <;> rfl

theorem afterRules_clean (presults : PResults) (warnings : List Entry)
    (hsummary : presults.summary = if presults.errors = [] then if presults.warnings = [] then .pass else .warn else .fail) :
    afterRules presults (clean warnings) =
      if presults.errors = [] then clean (warnings ++ presults.warnings)
      else ⟨.fail, [], presults.errors, warnings ++ presults.warnings, none⟩ := by
  obtain ⟨summary, errors, warnings'⟩ := presults
  dsimp only at hsummary ⊢
  rw [hsummary]
  unfold afterRules clean
  by_cases herrors : errors = [] <;> by_cases hold : warnings = [] <;> by_cases hnew : warnings' = [] <;>
    simp [herrors, hold, hnew]

theorem afterRules_failed (presults : PResults) (errors warnings : List Entry) :
    afterRules presults ⟨.fail, [], errors, warnings, none⟩ =
      ⟨.fail, [], if presults.errors = [] then errors
        else errors.filter (fun e => e.name = makeTimeout) ++ presults.errors, warnings ++ presults.warnings, none⟩ := by
  unfold afterRules
  by_cases herrors : presults.errors = [] <;> by_cases hnew : presults.warnings = [] <;> simp [herrors, hnew]

theorem round_clean (hlog : logOf s limit target = some log) (warnings : List Entry) :
    round s limit target log (clean warnings) =
      if Fails s limit target then
        ⟨.fail, [], targetErrors s limit target, warnings ++ ruleWarnings s limit target, some ⟨target.name, log⟩⟩
      else clean (warnings ++ ruleWarnings s limit target) := by
  have herrors : matching (s.errorRules target) target log = ruleErrors s limit target := by
    rw [ruleErrors, hlog, Option.getD_some]
  have hwarnings : matching (s.warningRules target) target log = ruleWarnings s limit target := by
    rw [ruleWarnings, hlog, Option.getD_some]
  rw [round, afterMake_clean, execute_eq, herrors, hwarnings, targetErrors_eq]
  by_cases hmake : makeErrors s limit target = []
  · rw [if_pos hmake, afterRules_clean _ _ rfl]
    by_cases hrules : ruleErrors s limit target = []
    · have hok : ¬ Fails s limit target := by simp [Fails, hmake, hrules]
      rw [if_neg hok, if_pos hrules, withLog, if_neg]
      unfold clean
      dsimp only
      split_ifs <;> decide
    · have hfails : Fails s limit target := .inr hrules
      rw [if_pos hfails, if_neg hrules, hmake]
      simp [withLog, hrules]
  · have hfails : Fails s limit target := .inl hmake
    rw [if_neg hmake, if_pos hfails, afterRules_failed]
    simp [withLog]

end Steps

section Runs
variable {s : Setup} {limit : Option (List Char)}

theorem targetErrors_ne {target : Target} (h : Fails s limit target) : targetErrors s limit target ≠ [] := by
  unfold targetErrors
  split_ifs with hrules htimeout
  · exact h.resolve_right fun hne => hne hrules
  · exact List.cons_ne_nil _ _
  · exact hrules

theorem targetErrors_timeout {target : Target} (h : s.make limit target = .timedOut) :
    (targetErrors s limit target).head? = some (timeoutEntry s target) := by
  have hmake : makeErrors s limit target = [timeoutEntry s target] := by rw [makeErrors, h]
  unfold targetErrors
  split_ifs
  · rw [hmake, List.head?_cons]
  · exact List.head?_cons

theorem fails_of_timeout {target : Target} (h : s.make limit target = .timedOut) : Fails s limit target := by
  refine .inl ?_
  rw [makeErrors, h]
  exact List.cons_ne_nil _ _

theorem loop_ok {targets ran : List Target} {warnings : List Entry} {results : Results}
    (h : loop s limit (clean warnings) targets = .ok (ran, results)) :
    (ran = targets ∧ (∀ target ∈ ran, ¬ Fails s limit target) ∧
        results = clean (warnings ++ ran.flatMap (ruleWarnings s limit))) ∨
      ∃ before target log after, targets = before ++ target :: after ∧ ran = before ++ [target] ∧
        (∀ x ∈ before, ¬ Fails s limit x) ∧ Fails s limit target ∧ logOf s limit target = some log ∧
        results = ⟨.fail, [], targetErrors s limit target, warnings ++ ran.flatMap (ruleWarnings s limit),
          some ⟨target.name, log⟩⟩ := by
  induction targets generalizing warnings ran with
  | nil =>
    cases h
    exact .inl ⟨rfl, by simp, by simp⟩
  | cons target targets ih =>
    rw [loop] at h
    cases hlog : logOf s limit target with
    | none =>
      rw [hlog] at h
      cases h
    | some log =>
      rw [hlog] at h
      dsimp only at h
      rw [round_clean hlog] at h
      by_cases hfails : Fails s limit target
      · rw [if_pos hfails, if_pos rfl] at h
        cases h
        exact .inr ⟨[], target, log, targets, rfl, rfl, by simp, hfails, hlog, by simp⟩
      · have hsummary : (clean (warnings ++ ruleWarnings s limit target)).summary ≠ .fail := by
          unfold clean
          dsimp only
          split_ifs <;> decide
        rw [if_neg hfails, if_neg hsummary] at h
        cases hrest : loop s limit (clean (warnings ++ ruleWarnings s limit target)) targets with
        | error e =>
          rw [hrest] at h
          cases h
        | ok out =>
          rw [hrest] at h
          cases h
          rcases ih hrest with ⟨hran, hnone, hresults⟩ | ⟨before, last, log', after, htargets, hran, hbefore, hlast, hlog', hresults⟩
          · refine .inl ⟨by rw [hran], List.forall_mem_cons.2 ⟨hfails, hnone⟩, ?_⟩
            rw [hresults, List.flatMap_cons, List.append_assoc]
          · refine .inr ⟨target :: before, last, log', after, by rw [htargets]; rfl, by rw [hran]; rfl,
              List.forall_mem_cons.2 ⟨hfails, hbefore⟩, hlast, hlog', ?_⟩
            rw [hresults, List.flatMap_cons, List.append_assoc]

theorem loop_returns {targets : List Target} (h : ∀ target ∈ targets, logOf s limit target ≠ none) (results : Results) :
    ∃ out, loop s limit results targets = .ok out := by
  induction targets generalizing results with
  | nil => exact ⟨_, rfl⟩
  | cons target targets ih =>
    obtain ⟨log, hlog⟩ := Option.ne_none_iff_exists'.1 (h target List.mem_cons_self)
    rw [loop, hlog]
    dsimp only
    split_ifs
    · exact ⟨_, rfl⟩
    · obtain ⟨out, hout⟩ := ih (fun x hx => h x (List.mem_cons_of_mem _ hx)) (round s limit target log results)
      rw [hout]
      exact ⟨_, rfl⟩

theorem checkMasterSites_clean (s : Setup) :
    checkMasterSites s (clean []) = clean (checkMasterSites s ⟨.pass, [], [], [], none⟩).warnings := by
  unfold checkMasterSites clean
  dsimp only
  by_cases hnone : (s.masterSites.filter isInsecure).eraseDups = []
  · rw [if_pos hnone, if_pos hnone]
  · rw [if_neg hnone, if_neg hnone]
    rfl

theorem run_eq {phase : List Char} {targets : List Target} (hskip : skipCheck s (phaseOf phase) = .ok (none, limit))
    (hphase : targetsForPhase (phaseOf phase) = .ok targets) :
    run s phase = loop s limit (clean (masterWarnings s (phaseOf phase))) targets := by
  rw [run, hskip]
  dsimp only
  rw [hphase, masterWarnings]
  dsimp only
  split_ifs
  · rw [← checkMasterSites_clean]
    rfl
  · rfl

theorem lawful_clean {phase : List Char} {targets : List Target} (hnone : ∀ target ∈ targets, ¬ Fails s limit target) :
    Lawful s limit phase targets targets (clean (masterWarnings s phase ++ targets.flatMap (ruleWarnings s limit))) := by
  have hfilter : targets.filter (fun target => Fails s limit target) = [] := by
    rw [List.filter_eq_nil_iff]
    exact fun target hmem => by simpa using hnone target hmem
  generalize hall : masterWarnings s phase ++ targets.flatMap (ruleWarnings s limit) = warnings
  exact {
    in_order := List.prefix_refl _
    none_after := fun target hmem => hnone target (List.dropLast_subset _ hmem)
    complete := .inl rfl
    fail_iff := by by_cases hw : warnings = [] <;> simp [clean, hw]
    warn_iff := by by_cases hw : warnings = [] <;> simp [clean, hw]
    pass_iff := by by_cases hw : warnings = [] <;> simp [clean, hw]
    warnings := hall.symm
    errors := by rw [hfilter]; rfl
    timeout_first := fun target hmem htimeout => absurd (fails_of_timeout htimeout) (hnone target hmem)
    log_iff := by by_cases hw : warnings = [] <;> simp [clean, hw]
    log := fun log hlog => by cases hlog }

theorem lawful_failed {phase : List Char} {before after : List Target} {target : Target} {log : List Char}
    (hbefore : ∀ x ∈ before, ¬ Fails s limit x) (hfails : Fails s limit target)
    (hlog : logOf s limit target = some log) :
    Lawful s limit phase (before ++ target :: after) (before ++ [target])
      ⟨.fail, [], targetErrors s limit target,
        masterWarnings s phase ++ (before ++ [target]).flatMap (ruleWarnings s limit), some ⟨target.name, log⟩⟩ := by
  have hne := targetErrors_ne hfails
  have hfilter : (before ++ [target]).filter (fun x => Fails s limit x) = [target] := by
    have hnil : before.filter (fun x => Fails s limit x) = [] := by
      rw [List.filter_eq_nil_iff]
      exact fun x hmem => by simpa using hbefore x hmem
    rw [List.filter_append, hnil, List.filter_cons_of_pos (by simpa using hfails)]
    rfl
  exact {
    in_order := ⟨after, by simp⟩
    none_after := by simpa using hbefore
    complete := .inr ⟨target, by simp, hfails⟩
    fail_iff := by simp [hne]
    warn_iff := by simp [hne]
    pass_iff := by simp [hne]
    warnings := rfl
    errors := by rw [hfilter, List.flatMap_singleton]
    timeout_first := by
      intro x hmem htimeout
      rcases List.mem_append.1 hmem with hmem | hmem
      · exact absurd (fails_of_timeout htimeout) (hbefore x hmem)
      · rw [List.mem_singleton.1 hmem] at htimeout ⊢
        exact targetErrors_timeout htimeout
    log_iff := by simp
    log := by
      intro told htold
      rw [← Option.mem_some_iff.1 htold]
      exact ⟨target, by simp, hfails, hlog, rfl⟩ }

/-- Whatever the rules, the logs and the results of make are. -/
theorem run_lawful (s : Setup) (phase : List Char) (limit : Option (List Char)) (targets : List Target)
    (hskip : skipCheck s (phaseOf phase) = .ok (none, limit))
    (hphase : targetsForPhase (phaseOf phase) = .ok targets) :
    (∀ ran results, run s phase = .ok (ran, results) → Lawful s limit (phaseOf phase) targets ran results) ∧
      ((∀ target ∈ targets, logOf s limit target ≠ none) → ∃ out, run s phase = .ok out) := by
  rw [run_eq hskip hphase]
  refine ⟨?_, fun hlogs => loop_returns hlogs _⟩
  intro ran results hrun
  rcases loop_ok hrun with ⟨rfl, hnone, rfl⟩ | ⟨before, target, log, after, rfl, rfl, hbefore, hfails, hlog, rfl⟩
  · exact lawful_clean hnone
  · exact lawful_failed hbefore hfails hlog

end Runs

def hanging : Setup where
  port := "foo-1".toList
  chdirs := true
  settings := some [[], []]
  makeJobsLimit := none
  noTest := []
  testingUnsafe := []
  masterSites := ["http://a".toList]
  timeoutFor _ := 60
  make _ target := if target = .build then .timedOut else .exited 0
  output _ _ := some []
  warningRules _ := []
  errorRules _ := []
  timed _ _ _ := by decide

theorem hanging_lawful :
    (∀ ran results, run hanging "build".toList = .ok (ran, results) →
        Lawful hanging none "build".toList [.fetch, .extract, .patch, .configure, .build, .fake, .package] ran results) ∧
      ((∀ target ∈ [Target.fetch, .extract, .patch, .configure, .build, .fake, .package], logOf hanging none target ≠ none) →
        ∃ out, run hanging "build".toList = .ok out) :=
  run_lawful hanging "build".toList none _ (by decide) (by decide)

end Mports.PortTestOutcome
