import Mports.MagusRebuilds
import Mports.PerlText

set_option autoImplicit false

namespace Mports.IndexSync
open MagusTables MagusStatements MagusPort MagusReady MagusEffects MagusCluster
open MagusTasks MagusFootprint MagusRebuilds StatementPrograms LabelledRuns

/-- What `make describe-yaml` says of a port. `depends` has the lists of a type in the
order of `each`, `ignore` the message with which `mark_ignored` skips the port. -/
structure Dump where
  name : String
  version : String
  pkgname : String
  flavor : Option String
  depends : List (String × List String)
  ignore : Option String
  deriving DecidableEq

/-- A dump with the id its row gets; the first of a directory is the default flavor. -/
structure Entry where
  id : PortId
  dump : Dump
  defaultFlavor : Bool
  deriving DecidableEq

def Entry.row (run : RunId) (x : Entry) : PortRow :=
  { id := x.id, run := run, name := x.dump.name, version := x.dump.version,
    pkgname := x.dump.pkgname, flavor := x.dump.flavor }

/-- An item of `%depends`; a dependency without a text has no name. -/
structure Item where
  name : Option String
  type : String
  flavor : String
  deriving DecidableEq

/-- `split /@/, $dep`. -/
def item (type dep : String) : Item :=
  match PerlText.split '@' dep.toList with
  | [] => ⟨none, type, ""⟩
  | [name] => ⟨some (String.ofList name), type, ""⟩
  | name :: flavor :: _ => ⟨some (String.ofList name), type, String.ofList flavor⟩

def items (dump : Dump) : List Item :=
  dump.depends.flatMap fun entry => entry.2.map (item entry.1)

/-- `Magus::Port->retrieve` with other columns than the key: some row of the run that
has them, as nothing orders the rows. -/
structure Retrieve (entries : List Entry) where
  row : (Entry → Bool) → Option Entry
  sound : ∀ {cond x}, row cond = some x → x ∈ entries ∧ cond x = true
  complete : ∀ {cond}, row cond = none → ∀ x ∈ entries, cond x = false

section Sync
variable {entries : List Entry} (R : Retrieve entries)

/-- The port an item resolves to: of the flavor, without one, or of the default flavor. -/
def resolve (d : Item) : Option Entry :=
  let flavored := fun fl => R.row fun x => some x.dump.name = d.name ∧ x.dump.flavor = some fl
  flavored d.flavor <|> (if d.flavor ≠ "" then flavored "" else none) <|>
    R.row fun x => some x.dump.name = d.name ∧ x.defaultFlavor = true

def doesNotExist (d : Item) : String :=
  "depend \"" ++ d.name.getD "" ++ "\" with flavor: \"" ++ d.flavor ++ "\" does not exist."

/-- The loop over the items of one port, with `%seen_depends`: it ends at the first
item that does not resolve. -/
def resolved (seen : List (PortId × String)) : List Item → List (Except String (PortId × String))
  | [] => []
  | d :: rest =>
    match resolve R d with
    | none => [.error (doesNotExist d)]
    | some depend =>
      if (depend.id, d.type) ∈ seen then resolved seen rest
      else .ok (depend.id, d.type) :: resolved ((depend.id, d.type) :: seen) rest

/-- `sync`: the ports in the order of the tree, then their dependencies in the order of
the hash. -/
def sync (machine : MachineId) (run : RunId) (hash : List Entry) : Magus Unit := do
  Prog.forEach entries fun x => indexPort machine (x.row run) x.dump.ignore
  Prog.forEach hash fun x => indexDepends machine x.id (resolved R [] (items x.dump))

end Sync

section Resolved
variable {entries : List Entry} {R : Retrieve entries}

/-- No port of that name is there in the flavor, without one, or in the default flavor. -/
def Missing (entries : List Entry) (d : Item) : Prop :=
  ∀ x ∈ entries, some x.dump.name = d.name → x.dump.flavor ≠ some d.flavor ∧
    (d.flavor ≠ "" → x.dump.flavor ≠ some "") ∧ x.defaultFlavor = false

instance (entries : List Entry) (d : Item) : Decidable (Missing entries d) :=
  inferInstanceAs (Decidable (∀ x ∈ entries, some x.dump.name = d.name → _))

theorem row_eq_none {cond : Entry → Prop} [DecidablePred cond] :
    R.row (fun x => decide (cond x)) = none ↔ ∀ x ∈ entries, ¬ cond x := by
  constructor
  · exact fun h x hx => of_decide_eq_false (R.complete h x hx)
  · intro h
    by_contra hne
    obtain ⟨x, hx⟩ := Option.ne_none_iff_exists'.1 hne
    exact h x (R.sound hx).1 (of_decide_eq_true (R.sound hx).2)

theorem resolve_eq_none {d : Item} : resolve R d = none ↔ Missing entries d := by
  have hthree : resolve R d = none ↔
      (∀ x ∈ entries, ¬ (some x.dump.name = d.name ∧ x.dump.flavor = some d.flavor)) ∧
      (d.flavor ≠ "" → ∀ x ∈ entries, ¬ (some x.dump.name = d.name ∧ x.dump.flavor = some "")) ∧
      ∀ x ∈ entries, ¬ (some x.dump.name = d.name ∧ x.defaultFlavor = true) := by
    simp only [resolve, Option.orElse_eq_none, row_eq_none]
    by_cases hfl : d.flavor = ""
    · simp only [hfl, ne_eq, not_true_eq_false, if_false, true_and, false_implies]
    · simp only [hfl, ne_eq, not_false_eq_true, if_true, row_eq_none, true_implies]
  rw [hthree]
  constructor
  · rintro ⟨hflavor, hplain, hdefault⟩ x hx hname
    refine ⟨fun h => hflavor x hx ⟨hname, h⟩, fun hne h => hplain hne x hx ⟨hname, h⟩, ?_⟩
    simpa [hname] using hdefault x hx
  · intro h
    refine ⟨fun x hx hc => (h x hx hc.1).1 hc.2, fun hne x hx hc => (h x hx hc.1).2.1 hne hc.2, ?_⟩
    intro x hx hc
    simp [(h x hx hc.1).2.2] at hc

theorem resolve_name {d : Item} {x : Entry} (h : resolve R d = some x) :
    x ∈ entries ∧ some x.dump.name = d.name := by
  have named : ∀ {cond : Entry → Prop} [DecidablePred cond],
      R.row (fun x => decide (some x.dump.name = d.name ∧ cond x)) = some x →
        x ∈ entries ∧ some x.dump.name = d.name :=
    fun hx => ⟨(R.sound hx).1, (of_decide_eq_true (R.sound hx).2).1⟩
  simp only [resolve, Option.orElse_eq_some] at h
  rcases h with h | ⟨_, h | ⟨_, h⟩⟩
  · exact named h
  · split at h
    · exact named h
    · cases h
  · exact named h

theorem resolved_complete {ds : List Item} (seen : List (PortId × String))
    (h : ∀ d ∈ ds, resolve R d ≠ none) :
    (∀ missing, .error missing ∉ resolved R seen ds) ∧
      ∀ d ∈ ds, ∀ x, resolve R d = some x →
        (x.id, d.type) ∈ seen ∨ .ok (x.id, d.type) ∈ resolved R seen ds := by
  induction ds generalizing seen with
  | nil => simp [resolved]
  | cons d rest ih =>
    obtain ⟨depend, hd⟩ := Option.ne_none_iff_exists'.1 (h d (by simp))
    have hrest : ∀ d ∈ rest, resolve R d ≠ none := fun d hd => h d (List.mem_cons_of_mem _ hd)
    simp only [resolved, hd]
    split
    · rename_i hseen
      obtain ⟨herror, hok⟩ := ih seen hrest
      refine ⟨herror, fun e he x hx => ?_⟩
      rcases List.mem_cons.1 he with rfl | he
      · rw [hd] at hx
        cases hx
        exact .inl hseen
      · exact hok e he x hx
    · obtain ⟨herror, hok⟩ := ih ((depend.id, d.type) :: seen) hrest
      refine ⟨by simpa using herror, fun e he x hx => ?_⟩
      rcases List.mem_cons.1 he with rfl | he
      · rw [hd] at hx
        cases hx
        exact .inr (by simp)
      · rcases hok e he x hx with hmem | hmem
        · rcases List.mem_cons.1 hmem with heq | hmem
          · exact .inr (by simp [heq])
          · exact .inl hmem
        · exact .inr (List.mem_cons_of_mem _ hmem)

theorem resolved_incomplete {ds : List Item} (seen : List (PortId × String))
    (h : ∃ d ∈ ds, resolve R d = none) : ∃ missing, .error missing ∈ resolved R seen ds := by
  induction ds generalizing seen with
  | nil => simp at h
  | cons d rest ih =>
    simp only [resolved]
    cases hd : resolve R d with
    | none => exact ⟨doesNotExist d, by simp⟩
    | some depend =>
      have hrest : ∃ d ∈ rest, resolve R d = none := by
        obtain ⟨e, he, hnone⟩ := h
        rcases List.mem_cons.1 he with rfl | he
        · rw [hd] at hnone
          cases hnone
        · exact ⟨e, he, hnone⟩
      simp only []
      split
      · exact ih seen hrest
      · obtain ⟨missing, hm⟩ := ih ((depend.id, d.type) :: seen) hrest
        exact ⟨missing, List.mem_cons_of_mem _ hm⟩

end Resolved

section Driven
variable {choose : Op → Choice} {machine : MachineId} {p : PortId} {db db' : Db}

def Fails (p : PortId) (o : Op) : Prop :=
  ∀ s, o = .sql s → WritesStatus p s → s = .updateStatus p .fail

theorem fails_keep {o : Op} {ch : Choice} {r : Except Exn o.Res} (ho : Fails p o)
    (ha : answer db o ch = some (r, db')) (h : db.status p = .fail) : db'.status p = .fail := by
  by_cases hw : ∃ s, o = .sql s ∧ WritesStatus p s
  · obtain ⟨s, rfl, hw⟩ := hw
    obtain rfl := ho s rfl hw
    rcases answer_sql ha with ⟨x, _, hx⟩ | ⟨_, _, _, _, rfl⟩
    · cases hx
      simp
    · exact h
  · rw [answer_status ha fun s hs hws => hw ⟨s, hs, hws⟩]
    exact h

theorem fails_sql {s : Stmt} (h : WritesStatus p s → s = .updateStatus p .fail) : Fails p (.sql s) := by
  rintro s' ⟨rfl⟩
  exact h

theorem setPhaseStatus_fails {A : (o : Op) → Except Exn o.Res → Prop} (q : PortId) :
    Uses (S := magus) (Fails p) A (setPhaseStatus machine q .build .fail) :=
  setPhaseStatus_uses (fails_sql False.elim) (fails_sql False.elim) (fails_sql False.elim)

theorem indexDepends_fails {A : (o : Op) → Except Exn o.Res → Prop} (q : PortId)
    (es : List (Except String (PortId × String))) :
    Uses (S := magus) (Fails p) A (indexDepends machine q es) := by
  induction es with
  | nil => exact Uses.ret _
  | cons e rest ih =>
    rcases e with missing | ⟨dependency, type⟩
    · refine Uses.bind (Uses.issue (fails_sql fun hw => ?_)) fun _ =>
        Uses.bind (setPhaseStatus_fails q) fun _ => Uses.issue (fails_sql False.elim)
      cases hw
      rfl
    · exact Uses.bind (Uses.issue (fails_sql False.elim)) fun _ => ih

theorem drive_depends {q : Magus Unit} {x : Exit magus Unit} {d : Depend}
    (h : drive choose q db = some (x, db')) (hd : d ∈ db.tree.depends) : d ∈ db'.tree.depends :=
  drive_uses choose (P := fun _ => True) (I := fun db => d ∈ db.tree.depends) (Uses.all q)
    (fun _ _ _ _ _ _ ha hd => answer_depends ha hd) h hd

theorem drive_sql_inv {s : Stmt} {r : s.Res} (h : drive choose (sql s) db = some (.ret r, db')) :
    s.exec db = some (r, db') := by
  obtain ⟨⟨r', db₁⟩, ha, hk⟩ := Option.bind_eq_some_iff.1 h
  rcases answer_sql ha with ⟨x, rfl, hx⟩ | ⟨_, _, rfl, _⟩
  · cases hk
    exact hx
  · cases hk

/-- The loop that returns has inserted a row for every item before the first that does
not resolve. -/
theorem indexDepends_rows {es : List (Except String (PortId × String))}
    (h : drive choose (indexDepends machine p es) db = some (.ret (), db'))
    (hok : ∀ missing, .error missing ∉ es) {x : PortId × String} (hx : .ok x ∈ es) :
    ⟨p, x.1, x.2⟩ ∈ db'.tree.depends := by
  induction es generalizing db with
  | nil => cases hx
  | cons e rest ih =>
    rcases e with missing | ⟨dependency, type⟩
    · exact absurd (by simp) (hok missing)
    · obtain ⟨_, db₁, hinsert, hrest⟩ := drive_bind_inv choose h
      rcases List.mem_cons.1 hx with heq | hx
      · cases heq
        refine drive_depends hrest ?_
        obtain ⟨T, hT, he⟩ := Option.map_eq_some_iff.1 (drive_sql_inv hinsert)
        cases he
        simp only [Tree.insertDepend, Option.dite_none_right_eq_some, Option.some.injEq] at hT
        obtain ⟨_, rfl⟩ := hT
        simp
      · exact ih hrest (fun missing hm => hok missing (List.mem_cons_of_mem _ hm)) hx

theorem indexDepends_failed {es : List (Except String (PortId × String))}
    (h : drive choose (indexDepends machine p es) db = some (.ret (), db')) {missing : String}
    (herror : .error missing ∈ es) : db'.status p = .fail := by
  induction es generalizing db with
  | nil => cases herror
  | cons e rest ih =>
    rcases e with text | ⟨dependency, type⟩
    · obtain ⟨_, db₁, hstatus, hrest⟩ := drive_bind_inv choose h
      refine drive_uses choose (P := Fails p) (I := fun db => db.status p = .fail) ?_
        (fun _ _ _ _ _ ho ha => fails_keep ho ha) hrest ?_
      · exact Uses.bind (setPhaseStatus_fails p) fun _ => Uses.issue (fails_sql False.elim)
      · cases drive_sql_inv hstatus
        simp
    · obtain ⟨_, db₁, _, hrest⟩ := drive_bind_inv choose h
      exact ih hrest (by simpa using herror)

theorem indexPort_indexed {row : PortRow} {ignore : Option String}
    (h : drive choose (indexPort machine row ignore) db = some (.ret (), db')) :
    row.id ∈ db'.tree.ports.map (·.id) := by
  obtain ⟨_, db₁, hinsert, hrest⟩ := drive_bind_inv choose h
  have hin : row.id ∈ db₁.tree.ports.map (·.id) := by
    obtain ⟨T, hT, he⟩ := Option.map_eq_some_iff.1 (drive_sql_inv hinsert)
    cases he
    simp only [Tree.insertPort, Option.dite_none_left_eq_some, Option.some.injEq] at hT
    obtain ⟨_, rfl⟩ := hT
    simp
  exact drive_uses choose (P := fun _ => True) (Uses.all _)
    (fun _ _ _ _ _ _ ha hp => answer_indexed ha hp) hrest hin

end Driven

theorem moved_depends {c c' : Cluster} {e : Event} (hm : Move c e c') :
    c.db.tree.depends ⊆ c'.db.tree.depends := by
  obtain ⟨y, hmoved⟩ := moved hm
  generalize c'.db = db at hmoved
  cases hmoved with
  | call _ ha => exact answer_depends ha
  | _ => exact fun _ h => h

section Synced
variable {entries hash : List Entry} {R : Retrieve entries} {machine : MachineId} {run : RunId}
  {choose : Op → Choice} {db₀ db : Db} {x : Entry}

/-- `sync` has made the rows of every port all of whose dependencies resolve, and has
failed every other port. -/
theorem sync_done (h : drive choose (sync R machine run hash) db₀ = some (.ret (), db))
    (hx : x ∈ entries) (hhash : x ∈ hash) : x.id ∈ db.tree.ports.map (·.id) ∧
      ((∀ d ∈ items x.dump, resolve R d ≠ none) → ∀ d ∈ items x.dump, ∀ y, resolve R d = some y →
        ⟨x.id, y.id, d.type⟩ ∈ db.tree.depends) ∧
      ((∃ d ∈ items x.dump, resolve R d = none) → db.status x.id = .fail) := by
  obtain ⟨_, db₁, hports, hdepends⟩ := drive_bind_inv choose h
  refine ⟨?_, fun hall d hd y hy => ?_, fun hsome => ?_⟩
  · have hindexed : x.id ∈ db₁.tree.ports.map (·.id) :=
      drive_forEach_makes choose hx (fun _ _ h => indexPort_indexed h)
        (fun _ _ _ _ h hp => drive_uses choose (P := fun _ => True) (Uses.all _)
          (fun _ _ _ _ _ _ ha hp => answer_indexed ha hp) h hp) hports
    exact drive_uses choose (P := fun _ => True) (Uses.all _)
      (fun _ _ _ _ _ _ ha hp => answer_indexed ha hp) hdepends hindexed
  · obtain ⟨herror, hok⟩ := resolved_complete [] hall
    exact drive_forEach_makes choose (I := fun db => ⟨x.id, y.id, d.type⟩ ∈ db.tree.depends) hhash
      (fun _ _ h => indexDepends_rows h herror ((hok d hd y hy).resolve_left (by simp)))
      (fun _ _ _ _ h hrow => drive_depends h hrow) hdepends
  · obtain ⟨missing, hm⟩ := resolved_incomplete [] hsome
    exact drive_forEach_makes choose (I := fun db => db.status x.id = .fail) hhash
      (fun _ _ h => indexDepends_failed h hm)
      (fun y _ _ _ h hfail => drive_uses choose (P := Fails x.id)
        (I := fun db => db.status x.id = .fail) (indexDepends_fails y.id _)
        (fun _ _ _ _ _ ho ha => fails_keep ho ha) h hfail) hdepends

/-- The port has a dependency that does not resolve. -/
def Incomplete (entries : List Entry) (x : Entry) : Prop := ∃ d ∈ items x.dump, Missing entries d

instance (entries : List Entry) (x : Entry) : Decidable (Incomplete entries x) :=
  inferInstanceAs (Decidable (∃ d ∈ items x.dump, _))

/-- A port `ready_ports` offers has a row for every dependency of its dump, as long as
no port with a dependency that does not resolve is reset. -/
theorem dependencies_complete (same : hash.Perm entries)
    (synced : drive choose (sync R machine run hash) db₀ = some (.ret (), db))
    {h : List (Cluster × Event)} {c : Cluster} (steps : Run Cluster.Step (Cluster.start db) h c)
    (all : AllSteps (fun c e => ∀ x ∈ entries, Incomplete entries x → ¬ Resets x.id c e) h) :
    ∀ x ∈ entries, x.row run ∈ readyPorts c.db run .build → ∀ d ∈ items x.dump,
      ∃ y ∈ entries, resolve R d = some y ∧ some y.dump.name = d.name ∧
        ⟨x.id, y.id, d.type⟩ ∈ c.db.tree.depends := by
  intro x hx hoffered
  obtain ⟨hindexed, hrows, hfailed⟩ := sync_done synced hx (same.mem_iff.2 hx)
  have hkept : db.tree.depends ⊆ c.db.tree.depends :=
    steps.invariant (fun c => db.tree.depends ⊆ c.db.tree.depends) (K := fun _ _ => True)
      (fun _ _ => trivial) (fun _ h => h) fun _ _ _ hI hstep _ =>
        fun _ hd => moved_depends (Cluster.step_move hstep) (hI hd)
  by_cases hincomplete : Incomplete entries x
  · -- the port was failed, and nobody has made it untested since
    obtain ⟨d, hd, hmissing⟩ := hincomplete
    have hresult := steps.invariant
      (fun c => x.id ∈ c.db.tree.ports.map (·.id) ∧ c.db.status x.id ≠ .untested) all
      ⟨hindexed, by simp [Cluster.start, hfailed ⟨d, hd, resolve_eq_none.2 hmissing⟩]⟩
      fun _ _ _ hI hstep hok => ⟨indexed_kept (Cluster.step_move hstep) hI.1,
        result_kept (Cluster.step_move hstep) hI.1 (hok x hx ⟨d, hd, hmissing⟩) hI.2⟩
    have hready : ReadyBuild c.db (x.row run) :=
      (of_decide_eq_true (List.mem_filter.1 hoffered).2).2
    exact absurd hready.2.2.1 hresult.2
  · have hall : ∀ d ∈ items x.dump, resolve R d ≠ none := fun d hd hnone =>
      hincomplete ⟨d, hd, resolve_eq_none.1 hnone⟩
    intro d hd
    obtain ⟨y, hy⟩ := Option.ne_none_iff_exists'.1 (hall d hd)
    obtain ⟨hmem, hname⟩ := resolve_name hy
    exact ⟨y, hmem, hy, hname, hkept (hrows hall d hd y hy)⟩

end Synced

section Samples

def Retrieve.first (entries : List Entry) : Retrieve entries where
  row := entries.find?
  sound := fun h => ⟨List.mem_of_find?_eq_some h, List.find?_some h⟩
  complete := fun h x hx => by simpa using List.find?_eq_none.1 h x hx

def libEntry : Entry := ⟨0, ⟨"devel/lib", "1", "lib", none, [], none⟩, true⟩
def progEntry : Entry := ⟨1, ⟨"misc/prog", "1", "prog", none, [("run", ["devel/lib"])], none⟩, true⟩

def staleEntry : Entry :=
  ⟨2, ⟨"misc/stale", "1", "stale", none, [("run", ["misc/gone@py", "devel/lib"])], none⟩, true⟩

def fetched (row : PortRow) (pid child : Pid) : List Event :=
  taken 1 row .fetch pid ++ calls pid 7 ++
    [.fork pid child, .call child .done, .call child (.results { summary := .pass })] ++
    calls child 2 ++ [.exit child, .waited pid] ++ calls pid 5 ++ released pid

/-- The library is built, and the program fetched after it; the stale port stays failed. -/
theorem prog_complete : ∃ db h c,
    drive (fun _ => .done) (sync (Retrieve.first [libEntry, progEntry, staleEntry]) 1 1
      [staleEntry, progEntry, libEntry]) .empty = some (.ret (), db) ∧
    Run Cluster.Step (Cluster.start db) h c ∧ progEntry.row 1 ∈ readyPorts c.db 1 .build ∧
      ∀ d ∈ items progEntry.dump, ∃ y ∈ [libEntry, progEntry, staleEntry],
        resolve (Retrieve.first [libEntry, progEntry, staleEntry]) d = some y ∧
          some y.dump.name = d.name ∧ ⟨1, y.id, d.type⟩ ∈ c.db.tree.depends := by
  obtain ⟨db, synced, hrun⟩ := drive_returns (fun _ => .done) (Q := fun db : Db =>
    (history Cluster.next (Cluster.start db)
      (fetched (libEntry.row 1) 20 21 ++ taken 1 (libEntry.row 1) .build 30 ++ calls 30 7 ++
        passed 30 40 ++ uploaded 30 40 ++ released 30 ++ fetched (progEntry.row 1) 20 21) []).any
      (fun x : List (Cluster × Event) × Cluster =>
        (x.1.all fun y => decide (¬ Resets 2 y.1 y.2)) &&
          decide (progEntry.row 1 ∈ readyPorts x.2.db 1 .build)) = true)
    (p := sync (Retrieve.first [libEntry, progEntry, staleEntry]) 1 1
      [staleEntry, progEntry, libEntry]) (s := .empty) (by decide +kernel)
  obtain ⟨h, c, steps, hf⟩ := reached_of_history Cluster.next hrun
  simp only [Bool.and_eq_true, List.all_eq_true, decide_eq_true_eq] at hf
  refine ⟨db, h, c, synced, steps, hf.2, ?_⟩
  refine dependencies_complete (by decide) synced steps (fun x hx y hy hincomplete => ?_) progEntry
    (by simp) hf.2
  have hcomplete : ∀ z ∈ [libEntry, progEntry], ¬ Incomplete [libEntry, progEntry, staleEntry] z := by
    decide +kernel
  simp only [List.mem_cons, List.not_mem_nil, or_false] at hy
  rcases hy with rfl | rfl | rfl
  · exact absurd hincomplete (hcomplete libEntry (by simp))
  · exact absurd hincomplete (hcomplete progEntry (by simp))
  · exact hf.1 x hx

/-- An administrator resets a port that was failed for a dependency that is gone. It is
offered for its build, and nothing knows of its other dependency, which is not built. -/
theorem stale_offered : ∃ db h c,
    drive (fun _ => .done) (sync (Retrieve.first [libEntry, staleEntry]) 1 1
      [libEntry, staleEntry]) .empty = some (.ret (), db) ∧ db.status 2 = .fail ∧
    Run Cluster.Step (Cluster.start db) h c ∧ staleEntry.row 1 ∈ readyPorts c.db 1 .build ∧
      (∃ d ∈ items staleEntry.dump, Missing [libEntry, staleEntry] d) ∧
      (∃ d ∈ items staleEntry.dump,
        resolve (Retrieve.first [libEntry, staleEntry]) d = some libEntry) ∧
      c.db.tree.depends = [] ∧ c.db.status 0 = .untested := by
  obtain ⟨db, synced, hfail, hrun⟩ := drive_returns (fun _ => .done) (Q := fun db : Db =>
    db.status 2 = .fail ∧ (history Cluster.next (Cluster.start db)
      (.resetPort 10 2 :: calls 10 10 ++ [.exit 10] ++ taken 1 (libEntry.row 1) .fetch 20 ++
        calls 20 3 ++ fetched (staleEntry.row 1) 30 31) []).any
      (fun x : List (Cluster × Event) × Cluster =>
        decide (staleEntry.row 1 ∈ readyPorts x.2.db 1 .build) &&
          decide (x.2.db.tree.depends = []) && decide (x.2.db.status 0 = .untested)) = true)
    (p := sync (Retrieve.first [libEntry, staleEntry]) 1 1 [libEntry, staleEntry]) (s := .empty)
    (by decide +kernel)
  obtain ⟨h, c, steps, hf⟩ := reached_of_history Cluster.next hrun
  simp only [Bool.and_eq_true, decide_eq_true_eq] at hf
  exact ⟨db, h, c, synced, hfail, steps, hf.1.1, by decide +kernel, by decide +kernel, hf.1.2, hf.2⟩

end Samples
end Mports.IndexSync
