import Mports.MagusPort

set_option autoImplicit false

namespace Mports.MagusScan
open MagusTables MagusStatements MagusPort StatementPrograms

/-- `run_command` returns `($? >> 8, $out)`. -/
def runCommand (c : Command) : Magus (ℕ × String) := do
  let (st, out) ← ext (.command c)
  return (st.exitcode, out)

def scpMessage (out : String) : Exn := "scp returned non-zero: " ++ out ++ "\n"

def scp (c : Command) : Magus Unit := do
  let (exit, out) ← runCommand c
  Prog.when (exit ≠ 0) (.raise (scpMessage out))

def injectPkgfile (port : PortRow) : Magus Unit := scp (.copyIn port)

def uploadPkgfile (port : PortRow) : Magus Unit := scp (.copyOut port)

def replacePhaseLog (p : PortId) (ph : Phase) (data : String) : Magus Unit := do
  sql (.deletePhaseLog p ph)
  sql (.insertPhaseLog p ph data)

def HasControl (s : String) : Prop := ∃ c ∈ s.toList, c.val < 32 ∨ c.val = 127

instance (s : String) : Decidable (HasControl s) := inferInstanceAs (Decidable (∃ c ∈ _, _))

def runYaraScan (port : PortRow) : Magus (ℕ × String) := do
  let targets ← ext (.yaraTargets port)
  if targets = [] then return (0, "No matching port files to scan.\n")
  let rules ← ext .yaraRulesExist
  if !rules then return (2, "YARA rules file is missing: " ++ yaraRules ++ "\n")
  -- the list is written up to the first path with a control character
  let clean := targets.takeWhile fun t => decide (¬ HasControl t)
  match ← ext (.yaraTargetList clean) with
  | some msg => return (2, msg)
  | none =>
    if clean ≠ targets then
      return (2, "Invalid YARA target path contains a control character.\n")
    let (exit, out) ← runCommand .yara
    if exit ≠ 0 then return (2, "YARA scanner exited with " ++ toString exit ++ ".\n" ++ out)
    if out = "" then return (0, "No YARA matches.\n")
    return (1, out)

/-- The three steps of `run_scan_phase` that fold a scanner's exit code into the
status, and the events each of them notes as type, message and name. -/
def clamavStatus (exit : ℕ) : Status :=
  if exit = 0 then .pass else if exit = 1 then .fail else .internal

def clamavEvent (exit : ℕ) : String × String × String :=
  if exit = 0 then ("info", "Virus scan passed.", "VirusScanClean")
  else if exit = 1 then ("fail", "Virus scan found a problem.", "VirusScanFailed")
  else ("internal", "Virus scanner exited with " ++ toString exit ++ ".", "VirusScanError")

def yaraStatus (exit : ℕ) (st : Status) : Status :=
  if exit = 0 then st
  else if exit = 1 then if st = .pass then .warn else st
  else if st = .pass ∨ st = .warn then .internal else st

def yaraEvent (exit : ℕ) : String × String × String :=
  if exit = 0 then ("info", "YARA scan passed.", "YaraScanClean")
  else if exit = 1 then
    ("warn", "YARA found suspicious port shell content.", "YaraSuspiciousShell")
  else ("internal", "YARA scanner failed; see scan log.", "YaraScanError")

def integrityStatus (exit : ℕ) (warnings : List SubResult) (st : Status) : Status :=
  if exit = 0 then if warnings ≠ [] ∧ st = .pass then .warn else st
  else if st = .pass ∨ st = .warn then .internal else st

def integrityEvents (exit : ℕ) (warnings : List SubResult) : List (String × String × String) :=
  if exit ≠ 0 then [("internal", "Source integrity scanner exited with " ++ toString exit ++ ".",
    "SourceIntegrityError")]
  else if warnings ≠ [] then warnings.map fun w => ("warn", w.msg, w.name)
  else [("info", "Source integrity scan passed.", "SourceIntegrityClean")]

def runScanPhase (machine : MachineId) (port : PortRow) : Magus Unit := do
  let note := fun (type, msg, name) => noteEvent machine port.id type msg .scan name
  let found ← ext (.pkgfileExists port)
  if !found then
    let msg := "Package file is missing: " ++ port.pkgpath
    setPhaseStatus machine port.id .scan .internal
    note ("internal", msg, "PackageMissing")
    replacePhaseLog port.id .scan msg
    return
  let (exit, out) ← runCommand (.clamav port)
  note (clamavEvent exit)
  let (yaraExit, yaraOut) ← runYaraScan port
  note (yaraEvent yaraExit)
  let (integrityExit, integrityOut, warnings) ← ext (.sourceIntegrity port)
  Prog.forEach (integrityEvents integrityExit warnings) note
  setPhaseStatus machine port.id .scan
    (integrityStatus integrityExit warnings (yaraStatus yaraExit (clamavStatus exit)))
  replacePhaseLog port.id .scan ("== ClamAV package scan ==\n" ++ out ++
    "\n== YARA port-file scan ==\n" ++ yaraOut ++ "\n== Source integrity scan ==\n" ++
    integrityOut)

end Mports.MagusScan
