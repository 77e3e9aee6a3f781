import Mathlib.Data.List.TakeWhile
import Mports.MagusScan

set_option autoImplicit false

/-!
What the exit codes of a worker's external commands are worth. `$? >> 8` is zero
for a command that a signal killed, so the copies and the two scanners are taken
at their word exactly when none of them died that way.
-/
namespace Mports.MagusScanVerdict
open MagusTables MagusStatements MagusPort MagusScan StatementPrograms

def Signaled (st : WaitStatus) : Prop := st.exitcode = 0 ∧ st ≠ .exited 0

theorem exitcode_eq_zero {st : WaitStatus} : st.exitcode = 0 ↔ st = .exited 0 ∨ Signaled st := by
  by_cases h : st = .exited 0
  · simp [h]
  · simp [Signaled, h]

/-- What the commands and the steps around them came back with. -/
structure Outcomes where
  scp : WaitStatus × String
  clamav : WaitStatus × String
  targets : List String
  rules : Bool
  listTrouble : Option String
  yara : WaitStatus × String
  integrity : String × List SubResult

namespace Outcomes

def choose (o : Outcomes) : Op → Choice
  | .ext (.command (.copyIn _)) | .ext (.command (.copyOut _)) => .command o.scp.1 o.scp.2
  | .ext (.command (.clamav _)) => .command o.clamav.1 o.clamav.2
  | .ext (.yaraTargets _) => .files o.targets
  | .ext .yaraRulesExist => .flag o.rules
  | .ext (.yaraTargetList _) => .trouble o.listTrouble
  | .ext (.command .yara) => .command o.yara.1 o.yara.2
  | .ext (.sourceIntegrity _) => .integrity o.integrity.1 o.integrity.2
  | _ => .done

def YaraStarts (o : Outcomes) : Prop :=
  o.rules = true ∧ o.listTrouble = none ∧ ∀ t ∈ o.targets, ¬ HasControl t

instance (o : Outcomes) : Decidable o.YaraStarts := inferInstanceAs (Decidable (_ ∧ _ ∧ _))

def yaraExit (o : Outcomes) : ℕ :=
  if o.targets = [] then 0
  else if ¬ o.YaraStarts ∨ o.yara.1.exitcode ≠ 0 then 2
  else if o.yara.2 = "" then 0 else 1

def Scanned (o : Outcomes) : Prop :=
  o.clamav.1 = .exited 0 ∧ (o.targets ≠ [] → o.yara.1 = .exited 0)

/-- Moreover YARA printed nothing and the source integrity step warned of nothing. -/
def Clean (o : Outcomes) : Prop :=
  o.Scanned ∧ (o.targets ≠ [] → o.yara.2 = "") ∧ o.integrity.2 = []

/-- A signal killed a scanner while everything else went through. -/
def Fooled (o : Outcomes) : Prop :=
  (o.clamav.1 = .exited 0 ∨ Signaled o.clamav.1) ∧
    (o.targets = [] ∨ o.YaraStarts ∧ (o.yara.1 = .exited 0 ∨ Signaled o.yara.1)) ∧
    (Signaled o.clamav.1 ∨ o.targets ≠ [] ∧ Signaled o.yara.1)

/-- The status `run_scan_phase` folds together once it has found the package. -/
def verdict (o : Outcomes) : Status :=
  integrityStatus 0 o.integrity.2 (yaraStatus o.yaraExit (clamavStatus o.clamav.1.exitcode))

end Outcomes

section Copies
variable (o : Outcomes) (port : PortRow) (db : Db)

theorem drive_command {c : Command} {st : WaitStatus} {out : String} {db' : Db}
    (hch : o.choose (.ext (.command c)) = .command st out) (hrun : c.run db st = some db') :
    drive o.choose (runCommand c) db = some (.ret (st.exitcode, out), db') := by
  have hext : drive o.choose (ext (.command c)) db = some (.ret (st, out), db') :=
    drive_ext o.choose (by simp [hch]) (by simp [hch, External.run, hrun])
  rw [runCommand, drive_bind_ret o.choose hext]
  rfl

/-- The copy returns without an exception only if scp exited with status 0. -/
def CopySound (copy : PortRow → Magus Unit) : Prop :=
  ∀ db', drive o.choose (copy port) db = some (.ret (), db') → o.scp.1 = .exited 0

theorem drive_scp {c : Command} {db' : Db}
    (hch : o.choose (.ext (.command c)) = .command o.scp.1 o.scp.2)
    (hrun : c.run db o.scp.1 = some db') : drive o.choose (scp c) db =
      some (if o.scp.1.exitcode = 0 then .ret () else .raise (scpMessage o.scp.2), db') := by
  refine (drive_bind_ret o.choose (drive_command o db hch hrun)).trans ?_
  by_cases h : o.scp.1.exitcode = 0 <;> simp [h, Prog.when]

theorem copySound_iff {copy : PortRow → Magus Unit} {db' : Db}
    (h : drive o.choose (copy port) db =
      some (if o.scp.1.exitcode = 0 then .ret () else .raise (scpMessage o.scp.2), db')) :
    CopySound o port db copy ↔ ¬ Signaled o.scp.1 := by
  constructor
  · intro sound hs
    exact hs.2 (sound db' (by rw [h, if_pos hs.1]))
  · intro hs u hu
    by_cases he : o.scp.1.exitcode = 0
    · exact (exitcode_eq_zero.1 he).resolve_right hs
    · simp [h, he] at hu

theorem copySound_uploadPkgfile : CopySound o port db uploadPkgfile ↔ ¬ Signaled o.scp.1 :=
  copySound_iff o port db (drive_scp o db rfl rfl)

theorem copySound_injectPkgfile : CopySound o port db injectPkgfile ↔ ¬ Signaled o.scp.1 := by
  by_cases hsrc : o.scp.1 = .exited 0
  · simp [CopySound, hsrc, Signaled]
  · exact copySound_iff o port db (drive_scp o db rfl (show _ = some db by simp [Command.run, hsrc]))

end Copies

section Scan
variable (o : Outcomes) (machine : MachineId) (port : PortRow) (db : Db)

theorem takeWhile_eq_self {targets : List String} :
    targets.takeWhile (fun t => decide (¬ HasControl t)) = targets ↔
      ∀ t ∈ targets, ¬ HasControl t := by
  rw [List.takeWhile_eq_self_iff]
  simp

theorem yaraExit_eq_two (hnil : o.targets ≠ []) (h : ¬ o.YaraStarts ∨ o.yara.1.exitcode ≠ 0) :
    o.yaraExit = 2 := by
  rw [Outcomes.yaraExit, if_neg hnil, if_pos h]

theorem yaraExit_of_accepted (hnil : o.targets ≠ []) (hs : o.YaraStarts)
    (he : o.yara.1.exitcode = 0) : o.yaraExit = if o.yara.2 = "" then 0 else 1 := by
  rw [Outcomes.yaraExit, if_neg hnil, if_neg (by simp [hs, he])]

theorem drive_runYaraScan : ∃ out,
    drive o.choose (runYaraScan port) db = some (.ret (o.yaraExit, out), db) := by
  have htargets : drive o.choose (ext (.yaraTargets port)) db = some (.ret o.targets, db) :=
    drive_ext o.choose (by simp [Outcomes.choose]) rfl
  have hrules : drive o.choose (ext .yaraRulesExist) db = some (.ret o.rules, db) :=
    drive_ext o.choose (by simp [Outcomes.choose]) rfl
  have hlist : ∀ clean, drive o.choose (ext (.yaraTargetList clean)) db =
      some (.ret o.listTrouble, db) :=
    fun clean => drive_ext o.choose (by simp [Outcomes.choose]) rfl
  rw [runYaraScan, drive_bind_ret o.choose htargets]
  by_cases hnil : o.targets = []
  · exact ⟨_, by rw [if_pos hnil, Outcomes.yaraExit, if_pos hnil]; rfl⟩
  rw [if_neg hnil, drive_bind_ret o.choose hrules]
  cases hr : o.rules with
  | false => exact ⟨_, by rw [yaraExit_eq_two o hnil (.inl (by simp [Outcomes.YaraStarts, hr]))]; rfl⟩
  | true =>
    simp only [Bool.not_true, Bool.false_eq_true, if_false]
    rw [drive_bind_ret o.choose (hlist _)]
    cases ht : o.listTrouble with
    | some msg =>
      exact ⟨_, by rw [yaraExit_eq_two o hnil (.inl (by simp [Outcomes.YaraStarts, ht]))]; rfl⟩
    | none =>
      by_cases hclean : ∀ t ∈ o.targets, ¬ HasControl t
      · have hs : o.YaraStarts := ⟨hr, ht, hclean⟩
        simp only [takeWhile_eq_self.2 hclean, ne_eq, not_true_eq_false, if_false]
        rw [drive_bind_ret o.choose (drive_command o db rfl rfl)]
        by_cases he : o.yara.1.exitcode = 0
        · rw [yaraExit_of_accepted o hnil hs he]
          simp only [he, not_true_eq_false, if_false]
          by_cases hout : o.yara.2 = ""
          · exact ⟨_, by simp only [hout, if_true]; rfl⟩
          · exact ⟨_, by simp only [hout, if_false]; rfl⟩
        · exact ⟨_, by rw [yaraExit_eq_two o hnil (.inr he), if_pos he]; rfl⟩
      · simp only [ne_eq, takeWhile_eq_self, hclean, not_false_eq_true, if_true]
        exact ⟨_, by rw [yaraExit_eq_two o hnil (.inl fun hs => hclean hs.2.2)]; rfl⟩

theorem drive_note {choose : Op → Choice} (hc : ∀ s, choose (.sql s) = .done) (p : PortId)
    (ph : Phase) (type msg name : String) : ∃ db',
    drive choose (noteEvent machine p type msg ph name) db = some (.ret (), db') ∧
      db'.phaseRow = db.phaseRow :=
  ⟨_, drive_sql choose (hc _) rfl, rfl⟩

theorem drive_replacePhaseLog {choose : Op → Choice} (hc : ∀ s, choose (.sql s) = .done)
    (p : PortId) (ph : Phase) (data : String) : ∃ db',
    drive choose (replacePhaseLog p ph data) db = some (.ret (), db') ∧
      db'.phaseRow = db.phaseRow := by
  refine ⟨{ db with phaseLog := put (put db.phaseLog p ph none) p ph (some data) }, ?_, rfl⟩
  rw [replacePhaseLog, drive_bind_ret choose (drive_sql choose (hc _) rfl)]
  exact drive_sql choose (hc _) (by simp [Stmt.exec])

/-- The scan phase always comes to its end, with the status folded together from
what its commands reported. -/
theorem runScanPhase_verdict : ∃ db',
    drive o.choose (runScanPhase machine port) db = some (.ret (), db') ∧
      db'.phaseStatus port.id .scan =
        some (if db.PkgfileExists port then o.verdict else .internal) := by
  have hc : ∀ s, o.choose (.sql s) = .done := fun _ => rfl
  have hfound : drive o.choose (ext (.pkgfileExists port)) db =
      some (.ret (decide (db.PkgfileExists port)), db) :=
    drive_ext o.choose (by simp [Outcomes.choose]) rfl
  rw [runScanPhase, drive_bind_ret o.choose hfound]
  by_cases hp : db.PkgfileExists port
  · simp only [hp, decide_true, Bool.not_true, Bool.false_eq_true, if_false, if_true]
    rw [drive_bind_ret o.choose (drive_command o db rfl rfl)]
    obtain ⟨db₁, h₁, hr₁⟩ := drive_note machine db hc port.id .scan
      (clamavEvent o.clamav.1.exitcode).1 (clamavEvent o.clamav.1.exitcode).2.1
      (clamavEvent o.clamav.1.exitcode).2.2
    rw [drive_bind_ret o.choose h₁]
    obtain ⟨yaraOut, h₂⟩ := drive_runYaraScan o port db₁
    rw [drive_bind_ret o.choose h₂]
    obtain ⟨db₃, h₃, hr₃⟩ := drive_note machine db₁ hc port.id .scan
      (yaraEvent o.yaraExit).1 (yaraEvent o.yaraExit).2.1 (yaraEvent o.yaraExit).2.2
    rw [drive_bind_ret o.choose h₃]
    have h₄ : drive o.choose (ext (.sourceIntegrity port)) db₃ =
        some (.ret (0, o.integrity.1, o.integrity.2), db₃) :=
      drive_ext o.choose (by simp [Outcomes.choose]) rfl
    rw [drive_bind_ret o.choose h₄]
    obtain ⟨db₅, h₅, hr₅⟩ := drive_forEach o.choose (I := fun _ => True)
      (w := integrityEvents 0 o.integrity.2)
      (f := fun x => noteEvent machine port.id x.1 x.2.1 .scan x.2.2)
      (fun x _ db _ => (drive_note machine db hc port.id .scan x.1 x.2.1 x.2.2).imp
        fun _ h => ⟨h.1, trivial⟩) (s := db₃) trivial
    rw [drive_bind_ret o.choose h₅]
    obtain ⟨db₆, h₆, hs₆, _⟩ := drive_setPhaseStatus hc machine port.id .scan
      (integrityStatus 0 o.integrity.2 (yaraStatus o.yaraExit (clamavStatus o.clamav.1.exitcode))) db₅
    rw [drive_bind_ret o.choose h₆]
    obtain ⟨db₇, h₇, hr₇⟩ := drive_replacePhaseLog db₆ hc port.id .scan
      ("== ClamAV package scan ==\n" ++ o.clamav.2 ++ "\n== YARA port-file scan ==\n" ++ yaraOut ++
        "\n== Source integrity scan ==\n" ++ o.integrity.1)
    refine ⟨db₇, h₇, ?_⟩
    rw [Db.phaseStatus, hr₇]
    exact hs₆
  · simp only [hp, decide_false, Bool.not_false, if_true, if_false]
    obtain ⟨db₁, h₁, hs₁, _⟩ := drive_setPhaseStatus hc machine port.id .scan .internal db
    rw [drive_bind_ret o.choose h₁]
    obtain ⟨db₂, h₂, hr₂⟩ := drive_note machine db₁ hc port.id .scan "internal"
      ("Package file is missing: " ++ port.pkgpath) "PackageMissing"
    rw [drive_bind_ret o.choose h₂]
    obtain ⟨db₃, h₃, hr₃⟩ := drive_replacePhaseLog db₂ hc port.id .scan
      ("Package file is missing: " ++ port.pkgpath)
    refine ⟨db₃, drive_bind_ret o.choose h₃, ?_⟩
    rw [Db.phaseStatus, hr₃, hr₂]
    exact hs₁

theorem clamavStatus_good {exit : ℕ} : (clamavStatus exit).Good ↔ exit = 0 := by
  unfold clamavStatus Status.Good
  split_ifs <;> simp [*]

theorem yaraStatus_good {exit : ℕ} {st : Status} :
    (yaraStatus exit st).Good ↔ st.Good ∧ exit ≤ 1 := by
  rcases exit with _ | _ | n
  · simp [yaraStatus]
  · cases st <;> simp [yaraStatus, Status.Good]
  · cases st <;> simp [yaraStatus, Status.Good]

theorem yaraStatus_eq_pass {exit : ℕ} {st : Status} :
    yaraStatus exit st = .pass ↔ st = .pass ∧ exit = 0 := by
  rcases exit with _ | _ | n
  · simp [yaraStatus]
  · cases st <;> simp [yaraStatus]
  · cases st <;> simp [yaraStatus]

theorem integrityStatus_good {warnings : List SubResult} {st : Status} :
    (integrityStatus 0 warnings st).Good ↔ st.Good := by
  cases warnings <;> cases st <;> simp [integrityStatus, Status.Good]

theorem integrityStatus_eq_pass {warnings : List SubResult} {st : Status} :
    integrityStatus 0 warnings st = .pass ↔ st = .pass ∧ warnings = [] := by
  cases warnings <;> cases st <;> simp [integrityStatus]

theorem yaraExit_le_one : o.yaraExit ≤ 1 ↔
    o.targets = [] ∨ o.YaraStarts ∧ (o.yara.1 = .exited 0 ∨ Signaled o.yara.1) := by
  rw [← exitcode_eq_zero]
  by_cases hnil : o.targets = []
  · simp [Outcomes.yaraExit, hnil]
  by_cases h : ¬ o.YaraStarts ∨ o.yara.1.exitcode ≠ 0
  · have h' : ¬ (o.YaraStarts ∧ o.yara.1.exitcode = 0) := fun ha => h.elim (· ha.1) (· ha.2)
    simp [yaraExit_eq_two o hnil h, hnil, h']
  · obtain ⟨hs, he⟩ : o.YaraStarts ∧ o.yara.1.exitcode = 0 := by simpa [not_or] using h
    rw [yaraExit_of_accepted o hnil hs he]
    split <;> simp [hs, he]

theorem yaraExit_eq_zero (h : o.yaraExit = 0) : o.targets ≠ [] → o.yara.2 = "" := by
  intro hnil
  by_contra hout
  rw [Outcomes.yaraExit, if_neg hnil, if_neg hout] at h
  split at h <;> exact absurd h (by decide)

theorem verdict_good : o.verdict.Good ↔ o.clamav.1.exitcode = 0 ∧ o.yaraExit ≤ 1 := by
  rw [Outcomes.verdict, integrityStatus_good, yaraStatus_good, clamavStatus_good]

theorem verdict_pass (h : o.verdict = .pass) : o.yaraExit = 0 ∧ o.integrity.2 = [] := by
  obtain ⟨hst, hw⟩ := integrityStatus_eq_pass.1 h
  exact ⟨(yaraStatus_eq_pass.1 hst).2, hw⟩

theorem verdict_good_iff : o.verdict.Good ↔
    (o.clamav.1 = .exited 0 ∨ Signaled o.clamav.1) ∧
      (o.targets = [] ∨ o.YaraStarts ∧ (o.yara.1 = .exited 0 ∨ Signaled o.yara.1)) := by
  rw [verdict_good, yaraExit_le_one, exitcode_eq_zero]

/-- `run_scan_phase` ends with `pass` only after a clean scan, and with `pass` or
`warn` only if both scanners ended normally with status 0. -/
def ScanSound : Prop :=
  ∀ db', drive o.choose (runScanPhase machine port) db = some (.ret (), db') →
    (db'.phaseStatus port.id .scan = some .pass → o.Clean) ∧
      ∀ st, db'.phaseStatus port.id .scan = some st → st.Good → o.Scanned

theorem scanSound_iff :
    ScanSound o machine port db ↔ ¬ (db.PkgfileExists port ∧ o.Fooled) := by
  obtain ⟨db', hdrive, hstatus⟩ := runScanPhase_verdict o machine port db
  constructor
  · rintro sound ⟨hp, hclam, hyara, hkilled⟩
    rw [if_pos hp] at hstatus
    obtain ⟨hc, hy⟩ := (sound db' hdrive).2 _ hstatus ((verdict_good_iff o).2 ⟨hclam, hyara⟩)
    rcases hkilled with hk | ⟨hnil, hk⟩
    · exact hk.2 hc
    · exact hk.2 (hy hnil)
  · intro hnot u hu
    obtain rfl : u = db' := by simpa using (hdrive.symm.trans hu).symm
    rw [hstatus]
    by_cases hp : db.PkgfileExists port
    · simp only [hp, if_true, Option.some.injEq, forall_eq']
      have hscanned : o.verdict.Good → o.Scanned := by
        intro hg
        obtain ⟨hclam, hyara⟩ := (verdict_good_iff o).1 hg
        have hk : ¬ (Signaled o.clamav.1 ∨ o.targets ≠ [] ∧ Signaled o.yara.1) :=
          fun hk => hnot ⟨hp, hclam, hyara, hk⟩
        refine ⟨hclam.resolve_right fun h => hk (.inl h), fun hnil => ?_⟩
        exact (hyara.resolve_left hnil).2.resolve_right fun h => hk (.inr ⟨hnil, h⟩)
      refine ⟨fun hv => ?_, hscanned⟩
      obtain ⟨hexit, hwarn⟩ := verdict_pass o hv
      exact ⟨hscanned (.inl hv), yaraExit_eq_zero o hexit, hwarn⟩
    · simp [hp, Status.Good]

/-- The worker takes no failed command for a success exactly where no signal kills
scp and no signal kills a scanner of a package that would otherwise be accepted. -/
theorem commandFailures_noticed_iff :
    (CopySound o port db uploadPkgfile ∧ CopySound o port db injectPkgfile ∧
      ScanSound o machine port db) ↔
    ¬ Signaled o.scp.1 ∧ ¬ (db.PkgfileExists port ∧ o.Fooled) := by
  rw [copySound_uploadPkgfile, copySound_injectPkgfile, scanSound_iff]
  tauto

end Scan

def oomKill : WaitStatus := .signaled ⟨9, by decide⟩ false

def killedOutcomes : Outcomes where
  scp := (oomKill, "")
  clamav := (oomKill, "")
  targets := []
  rules := true
  listTrouble := none
  yara := (.exited 0, "")
  integrity := ("", [])

def samplePort : PortRow := { id := 1, run := 1, name := "misc/a", version := "1", pkgname := "a" }

/-- A killed scp counts as a finished copy and a killed scanner as a clean scan. -/
theorem killed_commands_unnoticed :
    ¬ CopySound killedOutcomes samplePort .empty uploadPkgfile ∧
      ¬ CopySound killedOutcomes samplePort .empty injectPkgfile ∧
      ¬ ScanSound killedOutcomes 1 samplePort { Db.empty with pkgfiles := [samplePort.pkgfile] } := by
  rw [copySound_uploadPkgfile, copySound_injectPkgfile, scanSound_iff]
  have hkilled : Signaled oomKill := ⟨rfl, by decide⟩
  have hfooled : killedOutcomes.Fooled := ⟨.inr hkilled, .inl rfl, .inl hkilled⟩
  exact ⟨fun h => h hkilled, fun h => h hkilled,
    fun h => h ⟨List.mem_singleton.2 rfl, hfooled⟩⟩

end Mports.MagusScanVerdict
