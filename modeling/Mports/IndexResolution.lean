import Mports.IndexSync

set_option autoImplicit false

namespace Mports.IndexResolution
open MagusTables MagusStatements MagusPort MagusEffects MagusFootprint IndexSync StatementPrograms

section Resolves
variable (entries : List Entry) (d : Item)

def Flavored (fl : String) (y : Entry) : Prop :=
  y ∈ entries ∧ some y.dump.name = d.name ∧ y.dump.flavor = some fl

def Default (y : Entry) : Prop := y ∈ entries ∧ some y.dump.name = d.name ∧ y.defaultFlavor = true

/-- The port an item means: of its flavor, else without one, else of the default flavor. -/
inductive Resolves (y : Entry) : Prop where
  | flavor (found : Flavored entries d d.flavor y)
  | plain (missing : ∀ z, ¬ Flavored entries d d.flavor z) (found : Flavored entries d "" y)
  | default (missing : ∀ z, ¬ Flavored entries d d.flavor z) (flavored : ∀ z, ¬ Flavored entries d "" z)
      (found : Default entries d y)

end Resolves

/-- A run has a flavor and the default of a port once. -/
structure Unique (entries : List Entry) : Prop where
  flavor : ∀ x ∈ entries, ∀ y ∈ entries, x.dump.name = y.dump.name → x.dump.flavor = y.dump.flavor →
    x.dump.flavor ≠ none → x = y
  default : ∀ x ∈ entries, ∀ y ∈ entries, x.dump.name = y.dump.name → x.defaultFlavor = true →
    y.defaultFlavor = true → x = y

def syncPorts (machine : MachineId) (run : RunId) (entries : List Entry) : Magus Unit :=
  Prog.forEach entries fun x => indexPort machine (x.row run) x.dump.ignore

def syncDepends {entries : List Entry} (R : Retrieve entries) (machine : MachineId) (hash : List Entry) :
    Magus Unit :=
  Prog.forEach hash fun x => indexDepends machine x.id (resolved R [] (items x.dump))

theorem sync_eq {entries : List Entry} (R : Retrieve entries) (machine : MachineId) (run : RunId)
    (hash : List Entry) :
    sync R machine run hash = syncPorts machine run entries >>= fun _ => syncDepends R machine hash := rfl

def Complete (entries : List Entry) (x : Entry) : Prop :=
  ∀ d ∈ items x.dump, ∃ y, Resolves entries d y

/-- What the loop over `%depends` leaves, in whatever order it takes the ports. -/
structure Exact (entries : List Entry) (before after : Db) : Prop where
  complete : ∀ x ∈ entries, Complete entries x → ∀ row, row ∈ after.tree.depends ∧ row.port = x.id ↔
    ∃ d ∈ items x.dump, ∃ y, Resolves entries d y ∧ row = ⟨x.id, y.id, d.type⟩
  /-- The rows of any port are those of its own items before one that means no port. -/
  rows : ∀ x ∈ entries, ∀ row, row ∈ after.tree.depends ∧ row.port = x.id ↔
    ∃ first d rest y, items x.dump = first ++ d :: rest ∧ (∀ e ∈ first, ∃ z, Resolves entries e z) ∧
      Resolves entries d y ∧ row = ⟨x.id, y.id, d.type⟩
  once : after.tree.depends.Nodup
  failed : ∀ x ∈ entries, ¬ Complete entries x →
    after.status x.id = .fail ∧ after.phaseStatus x.id .build = some .fail
  kept : ∀ p, (∀ x ∈ entries, x.id = p → Complete entries x) →
    after.status p = before.status p ∧ ∀ ph, after.phaseRow p ph = before.phaseRow p ph
  elsewhere : ∀ row : Depend, row.port ∉ entries.map (·.id) →
    (row ∈ after.tree.depends ↔ row ∈ before.tree.depends)

section Resolution
variable {entries : List Entry} {R : Retrieve entries} {d : Item} {y : Entry}

theorem row_eq_some {cond : Entry → Prop} [DecidablePred cond]
    (unique : ∀ x ∈ entries, ∀ z ∈ entries, cond x → cond z → x = z) :
    R.row (fun x => decide (cond x)) = some y ↔ y ∈ entries ∧ cond y := by
  constructor
  · exact fun h => ⟨(R.sound h).1, of_decide_eq_true (R.sound h).2⟩
  · rintro ⟨hy, hcond⟩
    cases hrow : R.row fun x => decide (cond x) with
    | none => exact absurd hcond (row_eq_none.1 hrow y hy)
    | some z => rw [unique z (R.sound hrow).1 y hy (of_decide_eq_true (R.sound hrow).2) hcond]

theorem resolve_eq_some (unique : Unique entries) : resolve R d = some y ↔ Resolves entries d y := by
  have hflavored : ∀ fl, R.row (fun x => decide (some x.dump.name = d.name ∧ x.dump.flavor = some fl)) = some y ↔
      Flavored entries d fl y := fun fl => row_eq_some fun x hx z hz hcx hcz =>
    unique.flavor x hx z hz (Option.some_inj.1 (hcx.1.trans hcz.1.symm)) (hcx.2.trans hcz.2.symm)
      (by simp [hcx.2])
  have hdefault : R.row (fun x => decide (some x.dump.name = d.name ∧ x.defaultFlavor = true)) = some y ↔
      Default entries d y := row_eq_some fun x hx z hz hcx hcz =>
    unique.default x hx z hz (Option.some_inj.1 (hcx.1.trans hcz.1.symm)) hcx.2 hcz.2
  have hmissing : ∀ fl, R.row (fun x => decide (some x.dump.name = d.name ∧ x.dump.flavor = some fl)) = none ↔
      ∀ z, ¬ Flavored entries d fl z := by
    intro fl
    rw [row_eq_none]
    exact ⟨fun h z hz => h z hz.1 hz.2, fun h z hz hc => h z ⟨hz, hc⟩⟩
  simp only [resolve, Option.orElse_eq_some, hflavored, hdefault, hmissing]
  constructor
  · rintro (h | ⟨hnone, h | ⟨hplain, h⟩⟩)
    · exact .flavor h
    · split at h
      · exact .plain hnone ((hflavored "").1 h)
      · cases h
    · refine .default hnone ?_ h
      split at hplain
      · exact (hmissing "").1 hplain
      · rename_i hfl
        exact not_not.1 hfl ▸ hnone
  · intro h
    cases h with
    | flavor h => exact .inl h
    | plain missing h =>
      have hfl : d.flavor ≠ "" := fun he => missing y (he ▸ h)
      exact .inr ⟨missing, .inl (by rw [if_pos hfl]; exact (hflavored "").2 h)⟩
    | default missing plain h =>
      refine .inr ⟨missing, .inr ⟨?_, h⟩⟩
      split
      · exact (hmissing "").2 plain
      · rfl

theorem resolve_ne_none (unique : Unique entries) : resolve R d ≠ none ↔ ∃ y, Resolves entries d y := by
  rw [Option.ne_none_iff_exists']
  exact exists_congr fun _ => resolve_eq_some unique

theorem error_mem_resolved {seen : List (PortId × String)} {ds : List Item} :
    (∃ missing, .error missing ∈ resolved R seen ds) ↔ ∃ d ∈ ds, resolve R d = none := by
  constructor
  · rintro ⟨missing, hm⟩
    by_contra hall
    push Not at hall
    exact (resolved_complete seen hall).1 missing hm
  · exact resolved_incomplete seen

/-- The rows the loop makes are those of the items before the first that does not resolve. -/
theorem ok_mem_resolved {seen : List (PortId × String)} {ds : List Item} {k : PortId × String} :
    .ok k ∈ resolved R seen ds ↔ k ∉ seen ∧ ∃ first d rest y, ds = first ++ d :: rest ∧
      (∀ e ∈ first, resolve R e ≠ none) ∧ resolve R d = some y ∧ k = (y.id, d.type) := by
  induction ds generalizing seen with
  | nil => simp [resolved]
  | cons e ds ih =>
    cases he : resolve R e with
    | none =>
      simp only [resolved, he, List.mem_singleton, reduceCtorEq, false_iff, not_and]
      rintro _ ⟨first, d, rest, y, hds, hfirst, hd, _⟩
      cases first with
      | nil => simp_all
      | cons f first =>
        obtain ⟨rfl, _⟩ := List.cons.inj hds
        exact hfirst e (by simp) he
    | some z =>
      -- a later item that is met now has its way through the first
      have hlater : ∀ k, (∃ first d rest y, e :: ds = first ++ d :: rest ∧
          (∀ e ∈ first, resolve R e ≠ none) ∧ resolve R d = some y ∧ k = (y.id, d.type)) ↔
          k = (z.id, e.type) ∨ ∃ first d rest y, ds = first ++ d :: rest ∧
            (∀ e ∈ first, resolve R e ≠ none) ∧ resolve R d = some y ∧ k = (y.id, d.type) := by
        intro k
        constructor
        · rintro ⟨first, d, rest, y, hds, hfirst, hd, hk⟩
          cases first with
          | nil =>
            obtain ⟨rfl, rfl⟩ := List.cons.inj hds
            rw [he] at hd
            cases hd
            exact .inl hk
          | cons f first =>
            obtain ⟨rfl, rfl⟩ := List.cons.inj hds
            exact .inr ⟨first, d, rest, y, rfl, fun e he => hfirst e (List.mem_cons_of_mem _ he), hd, hk⟩
        · rintro (hk | ⟨first, d, rest, y, rfl, hfirst, hd, hk⟩)
          · exact ⟨[], e, ds, z, rfl, by simp, he, hk⟩
          · refine ⟨e :: first, d, rest, y, rfl, fun f hf => ?_, hd, hk⟩
            rcases List.mem_cons.1 hf with rfl | hf
            · simp [he]
            · exact hfirst f hf
      rw [hlater]
      simp only [resolved, he]
      split
      · rename_i hseen
        rw [ih]
        constructor
        · exact fun h => ⟨h.1, .inr h.2⟩
        · rintro ⟨hk, rfl | h⟩
          · exact absurd hseen hk
          · exact ⟨hk, h⟩
      · rename_i hseen
        rw [List.mem_cons, ih, Except.ok.injEq]
        constructor
        · rintro (rfl | ⟨hk, h⟩)
          · exact ⟨hseen, .inl rfl⟩
          · exact ⟨fun hmem => hk (List.mem_cons_of_mem _ hmem), .inr h⟩
        · rintro ⟨hk, rfl | h⟩
          · exact .inl rfl
          · by_cases hsame : k = (z.id, e.type)
            · exact .inl hsame
            · exact .inr ⟨fun hmem => (List.mem_cons.1 hmem).elim hsame hk, h⟩

end Resolution

section Rounds
variable {choose : Op → Choice} (hc : ∀ s, choose (.sql s) = .done) (machine : MachineId)

def Local (p : PortId) (o : Op) : Prop :=
  ∀ s, o = .sql s → ¬ Indexes s ∧ ∀ q ≠ p, ¬ WritesStatus q s ∧ ∀ ph, ¬ WritesRow q ph s

theorem drive_local {α : Type} {p : PortId} {f : Magus α} {x : Exit magus α} {db db' : Db}
    (uses : Uses (Local p) (fun _ _ => True) f) (h : drive choose f db = some (x, db')) :
    db'.tree = db.tree ∧ ∀ q ≠ p, db'.status q = db.status q ∧ ∀ ph, db'.phaseRow q ph = db.phaseRow q ph := by
  refine drive_uses choose (P := Local p) (I := fun t => t.tree = db.tree ∧ ∀ q ≠ p,
    t.status q = db.status q ∧ ∀ ph, t.phaseRow q ph = db.phaseRow q ph) uses ?_ h (by simp)
  intro o t ch r t' ho ha hI
  refine ⟨(answer_tree ha fun s hs => (ho s hs).1).trans hI.1, fun q hq => ⟨?_, fun ph => ?_⟩⟩
  · exact (answer_status ha fun s hs => ((ho s hs).2 q hq).1).trans (hI.2 q hq).1
  · exact (answer_phaseRow ha fun s hs => ((ho s hs).2 q hq).2 ph).trans ((hI.2 q hq).2 ph)

omit machine in
theorem setResult_local {machine : MachineId} {p : PortId} {st : Status} {msg type : String} :
    Uses (Local p) (fun _ _ => True) (setResult machine p st msg type) := by
  refine setResult_uses ?_ ?_ ?_ ?_ ?_ <;>
    simp +contextual [Local, Indexes, WritesStatus, WritesRow, eq_comm]

include hc

theorem drive_setResult (p : PortId) (st : Status) (msg type : String) (db : Db) :
    ∃ db', drive choose (setResult machine p st msg type) db = some (.ret (), db') ∧
      db'.status p = st ∧ db'.phaseStatus p .build = some st := by
  obtain ⟨db₁, h₁, hrow, hstatus⟩ := drive_setPhaseStatus hc machine p .build st
    { db with status := Function.update db.status p st }
  refine ⟨_, (drive_bind_ret choose (drive_sql choose (hc _) rfl)).trans
    ((drive_bind_ret choose h₁).trans (drive_sql choose (hc _) rfl)), ?_, hrow⟩
  rw [hstatus]
  simp

end Rounds

section Loop
variable {choose : Op → Choice} (hc : ∀ s, choose (.sql s) = .done) (machine : MachineId)
  {entries : List Entry} {R : Retrieve entries}

structure Extended (p : PortId) (es : List (Except String (PortId × String))) (db db' : Db) : Prop where
  ports : db'.tree.ports = db.tree.ports
  rows : ∀ row, row ∈ db'.tree.depends ↔
    row ∈ db.tree.depends ∨ row.port = p ∧ .ok (row.dependency, row.type) ∈ es
  failed : (∃ missing, .error missing ∈ es) → db'.status p = .fail ∧ db'.phaseStatus p .build = some .fail
  kept : ∀ q, q ≠ p ∨ (∀ missing, .error missing ∉ es) →
    db'.status q = db.status q ∧ ∀ ph, db'.phaseRow q ph = db.phaseRow q ph

def Indexed (run : RunId) (entries : List Entry) (db : Db) : Prop :=
  ∀ x ∈ entries, x.row run ∈ db.tree.ports

theorem insertDepend_some {run : RunId} {db : Db} {x y : Entry} {type : String}
    (hports : Indexed run entries db) (hx : x ∈ entries) (hy : y ∈ entries)
    (hnew : ⟨x.id, y.id, type⟩ ∉ db.tree.depends) :
    ∃ T, (Stmt.insertDepend ⟨x.id, y.id, type⟩).exec db = some ((), { db with tree := T }) ∧
      T.ports = db.tree.ports ∧ T.depends = db.tree.depends ++ [⟨x.id, y.id, type⟩] := by
  have hrun : db.tree.SameRun ⟨x.id, y.id, type⟩ :=
    ⟨x.row run, hports x hx, y.row run, hports y hy, rfl, rfl, rfl⟩
  obtain ⟨T, hT⟩ : ∃ T, db.tree.insertDepend ⟨x.id, y.id, type⟩ = some T :=
    ⟨_, by rw [Tree.insertDepend, dif_pos ⟨hnew, hrun⟩]⟩
  refine ⟨T, by rw [Stmt.exec, hT, Option.map_some], ?_⟩
  rw [Tree.insertDepend, dif_pos ⟨hnew, hrun⟩, Option.some.injEq] at hT
  exact hT ▸ ⟨rfl, rfl⟩

include hc

theorem indexDepends_returns {run : RunId} {x : Entry} (hx : x ∈ entries) (ds : List Item)
    (seen : List (PortId × String)) (db : Db) (hports : Indexed run entries db)
    (hseen : ∀ q type, ⟨x.id, q, type⟩ ∈ db.tree.depends → (q, type) ∈ seen) :
    ∃ db', drive choose (indexDepends machine x.id (resolved R seen ds)) db = some (.ret (), db') ∧
      Extended x.id (resolved R seen ds) db db' := by
  induction ds generalizing seen db with
  | nil => exact ⟨db, rfl, rfl, by simp [resolved], by simp [resolved], by simp⟩
  | cons d ds ih =>
    simp only [resolved]
    cases hd : resolve R d with
    | none =>
      obtain ⟨db', hdrive, hstatus, hrow⟩ := drive_setResult hc machine x.id .fail (doesNotExist d) "fail" db
      obtain ⟨htree, hkept⟩ := drive_local setResult_local hdrive
      refine ⟨db', hdrive, by rw [htree], by simp [htree], fun _ => ⟨hstatus, hrow⟩, fun q hq => ?_⟩
      exact hkept q (hq.resolve_right fun h => h (doesNotExist d) (by simp))
    | some y =>
      dsimp only
      split
      · exact ih seen db hports hseen
      · rename_i hkey
        obtain ⟨T, hexec, hTports, hTrows⟩ := insertDepend_some hports hx (resolve_name hd).1
          fun hrow => hkey (hseen _ _ hrow)
        obtain ⟨db', hdrive, hext⟩ := ih ((y.id, d.type) :: seen) { db with tree := T }
          (fun z hz => by rw [hTports]; exact hports z hz) (by
            intro q type hrow
            simp only [hTrows, List.mem_append, List.mem_singleton] at hrow
            rcases hrow with hrow | hrow
            · exact List.mem_cons_of_mem _ (hseen q type hrow)
            · cases hrow
              simp)
        refine ⟨db', (drive_bind_ret choose (drive_sql choose (hc _) hexec)).trans hdrive,
          hext.ports.trans hTports, fun row => ?_, ?_, fun q hq => ?_⟩
        · rw [hext.rows, hTrows, List.mem_append, List.mem_singleton, List.mem_cons, Except.ok.injEq,
            Prod.mk.injEq, or_assoc]
          refine or_congr_right ?_
          constructor
          · rintro (rfl | ⟨hp, hrow⟩)
            · exact ⟨rfl, .inl ⟨rfl, rfl⟩⟩
            · exact ⟨hp, .inr hrow⟩
          · rintro ⟨hp, ⟨hq, ht⟩ | hrow⟩
            · refine .inl ?_
              cases row
              simp_all
            · exact .inr ⟨hp, hrow⟩
        · rintro ⟨missing, hm⟩
          exact hext.failed ⟨missing, by simpa using hm⟩
        · exact hext.kept q (hq.imp_right fun h missing hm => h missing (List.mem_cons_of_mem _ hm))

theorem syncDepends_returns (run : RunId) {w : List Entry} (hw : ∀ x ∈ w, x ∈ entries)
    (ids : (w.map (·.id)).Nodup) (db : Db) (hports : Indexed run entries db)
    (fresh : ∀ row ∈ db.tree.depends, row.port ∉ w.map (·.id)) :
    ∃ db', drive choose (syncDepends R machine w) db = some (.ret (), db') ∧
      (∀ row, row ∈ db'.tree.depends ↔ row ∈ db.tree.depends ∨
        ∃ x ∈ w, row.port = x.id ∧ .ok (row.dependency, row.type) ∈ resolved R [] (items x.dump)) ∧
      (∀ x ∈ w, (∃ missing, .error missing ∈ resolved R [] (items x.dump)) →
        db'.status x.id = .fail ∧ db'.phaseStatus x.id .build = some .fail) ∧
      ∀ q, (∀ x ∈ w, x.id = q → ∀ missing, .error missing ∉ resolved R [] (items x.dump)) →
        db'.status q = db.status q ∧ ∀ ph, db'.phaseRow q ph = db.phaseRow q ph := by
  induction w generalizing db with
  | nil => exact ⟨db, rfl, by simp, by simp, by simp⟩
  | cons x w ih =>
    rw [List.map_cons, List.nodup_cons] at ids
    obtain ⟨db₁, h₁, hext⟩ := indexDepends_returns (R := R) hc machine (hw x (by simp)) (items x.dump) [] db
      hports fun q type hrow => absurd (by simp) (fresh _ hrow)
    have hother : ∀ y ∈ w, y.id ≠ x.id := fun y hy he => ids.1 (he ▸ List.mem_map_of_mem hy)
    obtain ⟨db₂, h₂, hrows, hfailed, hkept⟩ := ih (fun y hy => hw y (List.mem_cons_of_mem _ hy)) ids.2
      db₁ (fun y hy => by rw [hext.ports]; exact hports y hy) (by
        intro row hrow hin
        rcases (hext.rows row).1 hrow with hold | ⟨hp, _⟩
        · exact fresh row hold (List.mem_cons_of_mem _ hin)
        · exact ids.1 (hp ▸ hin))
    refine ⟨db₂, (drive_bind_ret choose h₁).trans h₂, fun row => ?_, fun y hy herror => ?_, fun q hq => ?_⟩
    · rw [hrows, hext.rows, or_assoc]
      simp only [List.mem_cons, exists_eq_or_imp]
    · rcases List.mem_cons.1 hy with rfl | hy
      · obtain ⟨hst, hrow⟩ := hkept y.id fun z hz he => absurd he (hother z hz)
        obtain ⟨hfail, hbuild⟩ := hext.failed herror
        exact ⟨hst.trans hfail, by rw [Db.phaseStatus, hrow]; exact hbuild⟩
      · exact hfailed y hy herror
    · obtain ⟨hst, hrow⟩ := hkept q fun z hz => hq z (List.mem_cons_of_mem _ hz)
      obtain ⟨hst₁, hrow₁⟩ := hext.kept q (by
        by_cases he : q = x.id
        · exact .inr (hq x (by simp) he.symm)
        · exact .inl he)
      exact ⟨hst.trans hst₁, fun ph => (hrow ph).trans (hrow₁ ph)⟩

end Loop

section Ports
variable {choose : Op → Choice} (hc : ∀ s, choose (.sql s) = .done) (machine : MachineId)

theorem ensureForPort_local (p : PortId) : Uses (Local p) (fun _ _ => True) (ensureForPort p) := by
  refine Uses.forEach fun ph _ => Uses.bind (phaseResult_uses ?_ ?_) fun _ => Uses.pure _ <;>
    simp +contextual [Local, Indexes, WritesStatus, WritesRow, eq_comm]

theorem markNonbuildSkip_local (p : PortId) : Uses (Local p) (fun _ _ => True) (markNonbuildSkip p) := by
  refine Uses.forEach fun ph _ => Uses.bind (phaseResult_uses ?_ ?_) fun _ => Uses.issue ?_ <;>
    simp +contextual [Local, Indexes, WritesStatus, WritesRow, eq_comm]

include hc

theorem drive_ensureForPort (p : PortId) (db : Db) :
    ∃ db', drive choose (ensureForPort p) db = some (.ret (), db') := by
  have hround : ∀ ph t, ∃ t', drive choose (do let _ ← phaseResult p ph) t = some (.ret (), t') :=
    fun ph t => ⟨_, (drive_bind_ret choose (drive_phaseResult hc p ph t)).trans rfl⟩
  obtain ⟨db', h, _⟩ := drive_forEach choose (I := fun _ => True) (w := Phase.names) (s := db)
    (fun ph _ t _ => (hround ph t).imp fun _ h => ⟨h, trivial⟩) trivial
  exact ⟨db', h⟩

theorem drive_markNonbuildSkip (p : PortId) (db : Db) :
    ∃ db', drive choose (markNonbuildSkip p) db = some (.ret (), db') := by
  have hround : ∀ ph t, ∃ t', drive choose (do
      let _ ← phaseResult p ph
      sql (.updateResultStatus p ph .skip)) t = some (.ret (), t') := fun ph t =>
    ⟨_, (drive_bind_ret choose (drive_phaseResult hc p ph t)).trans (drive_sql choose (hc _) rfl)⟩
  obtain ⟨db', h, _⟩ := drive_forEach choose (I := fun _ => True) (w := Phase.names.filter (· ≠ .build))
    (s := db) (fun ph _ t _ => (hround ph t).imp fun _ h => ⟨h, trivial⟩) trivial
  exact ⟨db', h⟩

theorem indexPort_returns (row : PortRow) (ignore : Option String) (db : Db)
    (fresh : row.id ∉ db.tree.ports.map (·.id)) :
    ∃ db', drive choose (indexPort machine row ignore) db = some (.ret (), db') ∧
      db'.tree.ports = db.tree.ports ++ [row] ∧ db'.tree.depends = db.tree.depends := by
  obtain ⟨T, hT⟩ : ∃ T, db.tree.insertPort row = some T := ⟨_, by rw [Tree.insertPort, dif_neg fresh]⟩
  have hrows : T.ports = db.tree.ports ++ [row] ∧ T.depends = db.tree.depends := by
    rw [Tree.insertPort, dif_neg fresh, Option.some.injEq] at hT
    exact hT ▸ ⟨rfl, rfl⟩
  have hinsert : (Stmt.insertPort row).exec db = some ((), { db with
      tree := T
      status := Function.update db.status row.id .untested
      phaseRow := Function.update db.phaseRow row.id fun _ => none }) := by
    rw [Stmt.exec, hT, Option.map_some]
  obtain ⟨db₁, h₁⟩ := drive_ensureForPort hc row.id { db with
    tree := T
    status := Function.update db.status row.id .untested
    phaseRow := Function.update db.phaseRow row.id fun _ => none }
  have htree₁ := (drive_local (ensureForPort_local row.id) h₁).1
  have hstart : ∀ rest : Magus Unit, drive choose (do
      sql (.insertPort row)
      ensureForPort row.id
      rest) db = drive choose rest db₁ := fun rest =>
    (drive_bind_ret choose (drive_sql choose (hc _) hinsert)).trans (drive_bind_ret choose h₁)
  cases ignore with
  | none => exact ⟨db₁, (hstart (pure ())).trans rfl, htree₁ ▸ hrows⟩
  | some msg =>
    obtain ⟨db₂, h₂, _⟩ := drive_setResult hc machine row.id .skip msg "skip" db₁
    obtain ⟨db₃, h₃⟩ := drive_markNonbuildSkip hc row.id db₂
    have htree₂ := (drive_local setResult_local h₂).1
    have htree₃ := (drive_local (markNonbuildSkip_local row.id) h₃).1
    refine ⟨db₃, (hstart _).trans ((drive_bind_ret choose h₂).trans h₃), ?_⟩
    rw [htree₃, htree₂, htree₁]
    exact hrows

theorem syncPorts_returns (run : RunId) (w : List Entry) (ids : (w.map (·.id)).Nodup) (db : Db)
    (fresh : ∀ x ∈ w, x.id ∉ db.tree.ports.map (·.id)) :
    ∃ db', drive choose (syncPorts machine run w) db = some (.ret (), db') ∧
      db'.tree.ports = db.tree.ports ++ w.map (·.row run) ∧ db'.tree.depends = db.tree.depends := by
  induction w generalizing db with
  | nil => exact ⟨db, rfl, by simp, rfl⟩
  | cons x w ih =>
    rw [List.map_cons, List.nodup_cons] at ids
    obtain ⟨db₁, h₁, hports₁, hdepends₁⟩ := indexPort_returns hc machine (x.row run) x.dump.ignore db
      (fresh x (by simp))
    obtain ⟨db₂, h₂, hports₂, hdepends₂⟩ := ih ids.2 db₁ (by
      intro y hy hin
      rw [hports₁, List.map_append, List.mem_append] at hin
      rcases hin with hin | hin
      · exact fresh y (List.mem_cons_of_mem _ hy) hin
      · have he : y.id = x.id := by simpa [Entry.row] using hin
        exact ids.1 (he ▸ List.mem_map_of_mem hy))
    refine ⟨db₂, (drive_bind_ret choose h₁).trans h₂, ?_, hdepends₂.trans hdepends₁⟩
    rw [hports₂, hports₁, List.append_assoc]
    rfl

/-- Every statement of `sync` succeeds for a new run, and its last loop is exact. -/
theorem sync_exact {entries hash : List Entry} {R : Retrieve entries} (unique : Unique entries)
    (ids : (entries.map (·.id)).Nodup) (same : hash.Perm entries) (run : RunId) (db₀ : Db)
    (fresh : ∀ x ∈ entries, x.id ∉ db₀.tree.ports.map (·.id)) :
    ∃ before after, drive choose (syncPorts machine run entries) db₀ = some (.ret (), before) ∧
      drive choose (sync R machine run hash) db₀ = some (.ret (), after) ∧ Exact entries before after := by
  obtain ⟨before, hbefore, hports, hdepends⟩ := syncPorts_returns hc machine run entries ids db₀ fresh
  have hmap : (hash.map (·.id)).Perm (entries.map (·.id)) := same.map _
  have hold : ∀ row ∈ before.tree.depends, row.port ∉ entries.map (·.id) := by
    intro row hrow hin
    obtain ⟨x, hx, hid⟩ := List.mem_map.1 hin
    obtain ⟨p, hp, _, _, hport, _⟩ := db₀.tree.depends_run row (hdepends ▸ hrow)
    exact fresh x hx (List.mem_map.2 ⟨p, hp, hport.trans hid.symm⟩)
  obtain ⟨after, hafter, hrows, hfailed, hkept⟩ := syncDepends_returns (R := R) hc machine run
    (fun x hx => same.mem_iff.1 hx) (hmap.nodup_iff.2 ids) before
    (fun x hx => by rw [hports]; exact List.mem_append_right _ (List.mem_map_of_mem hx))
    fun row hrow hin => hold row hrow (hmap.mem_iff.1 hin)
  have herror : ∀ x, (∃ missing, .error missing ∈ resolved R [] (items x.dump)) ↔ ¬ Complete entries x := by
    intro x
    rw [error_mem_resolved, Complete]
    push Not
    refine exists_congr fun d => and_congr_right fun _ => ?_
    rw [← not_iff_not, ← ne_eq, resolve_ne_none unique]
    push Not
    rfl
  have hown : ∀ x ∈ entries, ∀ row, row ∈ after.tree.depends ∧ row.port = x.id ↔
      ∃ first d rest y, items x.dump = first ++ d :: rest ∧ (∀ e ∈ first, ∃ z, Resolves entries e z) ∧
        Resolves entries d y ∧ row = ⟨x.id, y.id, d.type⟩ := by
    intro x hx row
    have hone : row ∈ after.tree.depends ∧ row.port = x.id ↔
        row.port = x.id ∧ .ok (row.dependency, row.type) ∈ resolved R [] (items x.dump) := by
      rw [hrows]
      constructor
      · rintro ⟨hrow | ⟨z, hz, hport, hok⟩, hid⟩
        · exact absurd (hid ▸ List.mem_map_of_mem hx) (hold row hrow)
        · have hzx : z = x := List.inj_on_of_nodup_map ids (same.mem_iff.1 hz) hx (hport.symm.trans hid)
          exact ⟨hid, hzx ▸ hok⟩
      · exact fun ⟨hid, hok⟩ => ⟨.inr ⟨x, same.mem_iff.2 hx, hid, hok⟩, hid⟩
    rw [hone, ok_mem_resolved]
    constructor
    · rintro ⟨hid, _, first, d, rest, y, hds, hfirst, hd, hk⟩
      refine ⟨first, d, rest, y, hds, fun e he => (resolve_ne_none unique).1 (hfirst e he),
        (resolve_eq_some unique).1 hd, ?_⟩
      cases row
      simp_all
    · rintro ⟨first, d, rest, y, hds, hfirst, hd, rfl⟩
      exact ⟨rfl, by simp, first, d, rest, y, hds, fun e he => (resolve_ne_none unique).2 (hfirst e he),
        (resolve_eq_some unique).2 hd, rfl⟩
  refine ⟨before, after, hbefore, ?_, ?_, hown, after.tree.depends_key, ?_, ?_, ?_⟩
  · rw [sync_eq]
    exact (drive_bind_ret choose hbefore).trans hafter
  · intro x hx hcomplete row
    rw [hown x hx]
    constructor
    · rintro ⟨first, d, rest, y, hds, _, hd, hrow⟩
      exact ⟨d, by simp [hds], y, hd, hrow⟩
    · rintro ⟨d, hd, y, hy, hrow⟩
      obtain ⟨first, rest, hds⟩ := List.append_of_mem hd
      exact ⟨first, d, rest, y, hds, fun e he => hcomplete e (by simp [hds, he]), hy, hrow⟩
  · exact fun x hx hsome => hfailed x (same.mem_iff.2 hx) ((herror x).2 hsome)
  · intro p hp
    refine hkept p fun x hx hid missing hm => ?_
    exact (herror x).1 ⟨missing, hm⟩ (hp x (same.mem_iff.1 hx) hid)
  · intro row hport
    rw [hrows]
    constructor
    · rintro (hrow | ⟨x, hx, hid, _⟩)
      · exact hrow
      · exact absurd (List.mem_map.2 ⟨x, same.mem_iff.1 hx, hid.symm⟩) hport
    · exact .inl

end Ports

theorem stale_exact : ∃ before after,
    drive (fun _ => .done) (syncPorts 1 1 [libEntry, progEntry, staleEntry]) .empty = some (.ret (), before) ∧
    drive (fun _ => .done) (sync (Retrieve.first [libEntry, progEntry, staleEntry]) 1 1
      [staleEntry, progEntry, libEntry]) .empty = some (.ret (), after) ∧
    Exact [libEntry, progEntry, staleEntry] before after :=
  sync_exact (fun _ => rfl) 1 ⟨by decide, by decide⟩ (by decide) (by decide) 1 .empty (by decide)

end Mports.IndexResolution
