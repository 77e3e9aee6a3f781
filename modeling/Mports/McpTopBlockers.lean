import Mathlib.Data.List.Dedup
import Mports.McpBlockers

set_option autoImplicit false

namespace Mports.McpTopBlockers
open MagusTables MagusDepends MagusReady MagusCluster MagusTasks MagusConduct MagusPackages MagusProgress
open McpBlockers (boundedInt boundedInt_ge)
open KeyedWalk (acyclic_induction)
open LabelledRuns
open Relation (TransGen)

section Reports
variable (db : Db)

/-- `status IN ('fail', 'skip', 'untested')`. -/
def holdsUp (st : Status) : Bool := st = .fail || st = .skip || st = .untested

/-- `WHERE p.run = ? AND p.status = 'untested'`. -/
def waiting (run : RunId) : List PortRow :=
  db.tree.ports.filter fun p => p.run = run ∧ db.status p.id = .untested

/-- The ports of the `depends` rows of a port that hold it up, once for each row. -/
def holding (p : PortRow) : List PortRow :=
  (relations db.tree (fun _ => true) p).filter fun q => holdsUp (db.status q.id)

/-- `d.dependency` in the joined rows. -/
def joined (run : RunId) : List PortId := (waiting db run).flatMap fun p => (holding db p).map (·.id)

def blockedCount (run : RunId) (q : PortId) : ℕ := (joined db run).count q

/-- A result of the query, where rows of one count come in any order. -/
structure Selected (run : RunId) (rows : List (PortId × ℕ)) : Prop where
  groups : rows.Perm ((joined db run).dedup.map fun q => (q, blockedCount db run q))
  sorted : rows.Pairwise fun a b => b.2 ≤ a.2

/-- The columns of a run that go into the report. -/
structure RunRow where
  id : RunId
  arch : String
  osversion : String
  deriving DecidableEq, Repr

structure Blocker where
  weight : ℕ
  portId : PortId
  runId : RunId
  name : String
  pkgname : String
  version : String
  status : Status
  flavor : String
  arch : String
  osversion : String
  deriving DecidableEq, Repr

def blockerOf (run : RunRow) (row : PortId × ℕ) : Option Blocker :=
  (db.tree.retrieve row.1).bind fun port =>
    if db.status port.id = .untested then none
    else some {
      weight := row.2, portId := port.id, runId := run.id, name := port.name, pkgname := port.pkgname,
      version := port.version, status := db.status port.id, flavor := port.flavor.getD "",
      arch := run.arch, osversion := run.osversion }

def collect (run : RunRow) (limit : ℕ) : List (PortId × ℕ) → List Blocker → List Blocker
  | [], found => found
  | row :: rows, found =>
    match blockerOf db run row with
    | none => collect run limit rows found
    | some b => if limit ≤ (found ++ [b]).length then found ++ [b] else collect run limit rows (found ++ [b])

def topBlockersForRun (run : RunRow) (limit : ℕ) (rows : List (PortId × ℕ)) : List Blocker :=
  collect db run limit rows []

/-- The limit of `tool_top_blockers`. -/
def limitOf (value : Option ℤ) : ℕ := (boundedInt value 20 1 100).toNat

/-- `%blocking` and `%objs` of top_blockers.pl, whose keys are stringified ports. -/
structure Weights where
  blocking : String → ℕ
  objs : String → Option PortRow

def Weights.note (w : Weights) (port : PortRow) : Weights :=
  if (w.objs port.pkgname).isSome then w
  else { w with objs := Function.update w.objs port.pkgname (some port) }

def addDepend (add : ℕ) (w : Weights) (dep : PortRow) : Weights :=
  if holdsUp (db.status dep.id) then
    let w := w.note dep
    { w with blocking := Function.update w.blocking dep.pkgname (w.blocking dep.pkgname + add) }
  else w

def addPort (w : Weights) (port : PortRow) : Weights :=
  let add := if w.blocking port.pkgname = 0 then 1 else w.blocking port.pkgname
  (relations db.tree (fun _ => true) port).foldl (addDepend db add) (w.note port)

def weights (ports : List PortRow) : Weights := ports.foldl (addPort db) ⟨fun _ => 0, fun _ => none⟩

def Printed (ports : List PortRow) (name : String) : Prop :=
  (weights db ports).blocking name ≠ 0 ∧
    ∃ port, (weights db ports).objs name = some port ∧ db.status port.id ≠ .untested

end Reports

section Rows
variable {db : Db} {run : RunId}

theorem mem_holding {p q : PortRow} : q ∈ holding db p ↔
    (∃ d ∈ db.tree.depends, d.port = p.id ∧ db.tree.retrieve d.dependency = some q) ∧
      (db.status q.id = .fail ∨ db.status q.id = .skip ∨ db.status q.id = .untested) := by
  simp [holding, holdsUp, mem_relations, or_assoc]

theorem mem_joined {q : PortId} : q ∈ joined db run ↔ ∃ p ∈ waiting db run, ∃ r ∈ holding db p, r.id = q := by
  simp [joined]

theorem Selected.mem {rows : List (PortId × ℕ)} (h : Selected db run rows) {row : PortId × ℕ} :
    row ∈ rows ↔ row.1 ∈ joined db run ∧ row.2 = blockedCount db run row.1 := by
  rw [h.groups.mem_iff, List.mem_map]
  constructor
  · rintro ⟨q, hq, rfl⟩
    exact ⟨List.mem_dedup.1 hq, rfl⟩
  · rintro ⟨hq, hcount⟩
    exact ⟨row.1, List.mem_dedup.2 hq, by rw [← hcount]⟩

theorem Selected.nodup {rows : List (PortId × ℕ)} (h : Selected db run rows) : (rows.map (·.1)).Nodup := by
  rw [(h.groups.map (·.1)).nodup_iff, List.map_map]
  change ((joined db run).dedup.map id).Nodup
  rw [List.map_id]
  exact List.nodup_dedup _

theorem blockerOf_eq_some {r : RunRow} {row : PortId × ℕ} {b : Blocker} (h : blockerOf db r row = some b) :
    ∃ port, db.tree.retrieve row.1 = some port ∧ db.status port.id ≠ .untested ∧ b.weight = row.2 ∧
      b.portId = row.1 ∧ b.pkgname = port.pkgname ∧ b.status = db.status row.1 := by
  obtain ⟨port, hport, hb⟩ := Option.bind_eq_some_iff.1 h
  split_ifs at hb with hst
  obtain rfl := Option.some.inj hb
  have hid := (Tree.retrieve_mem hport).2
  exact ⟨port, hport, hst, rfl, hid, rfl, congrArg db.status hid⟩

theorem collect_eq (r : RunRow) (limit : ℕ) (rows : List (PortId × ℕ)) (found : List Blocker)
    (h : found.length < limit) :
    collect db r limit rows found = found ++ (rows.filterMap (blockerOf db r)).take (limit - found.length) := by
  induction rows generalizing found with
  | nil => simp [collect]
  | cons row rows ih =>
    rw [collect]
    cases hb : blockerOf db r row with
    | none =>
      rw [List.filterMap_cons_none hb]
      exact ih found h
    | some b =>
      rw [List.filterMap_cons_some hb]
      obtain ⟨n, hn⟩ : ∃ n, limit - found.length = n + 1 := ⟨limit - found.length - 1, by omega⟩
      dsimp only
      rw [hn, List.take_succ_cons, List.length_append, List.length_singleton]
      split_ifs with hfull
      · obtain rfl : n = 0 := by omega
        simp
      · rw [ih (found ++ [b]) (by simpa using Nat.lt_of_not_le hfull), List.append_assoc, List.singleton_append,
          List.length_append, List.length_singleton]
        congr 3
        omega

theorem topBlockersForRun_eq (r : RunRow) {limit : ℕ} (h : 0 < limit) (rows : List (PortId × ℕ)) :
    topBlockersForRun db r limit rows = (rows.filterMap (blockerOf db r)).take limit :=
  collect_eq r limit rows [] h

theorem limitOf_pos (value : Option ℤ) : 0 < limitOf value := by
  have := boundedInt_ge value 20 (show (1 : ℤ) ≤ 100 by decide)
  unfold limitOf
  omega

/-- What the first items of a list sorted by a key leave out comes after all of them. -/
theorem mem_take_or_full {α : Type} {key : α → ℕ} {l : List α} (h : l.Pairwise fun a b => key b ≤ key a) {x : α}
    (hx : x ∈ l) (n : ℕ) : x ∈ l.take n ∨ (l.take n).length = n ∧ ∀ y ∈ l.take n, key x ≤ key y := by
  rw [← List.take_append_drop n l, List.mem_append] at hx
  refine hx.imp_right fun hx => ⟨?_, fun y hy => h.rel_of_mem_take_of_mem_drop hy hx⟩
  have := List.length_pos_of_mem hx
  rw [List.length_drop] at this
  rw [List.length_take]
  omega

end Rows

/-- What is reported of a run, whatever the tables hold. -/
structure Reported (db : Db) (run : RunRow) (limit : ℕ) (found : List Blocker) : Prop where
  sound : ∀ b ∈ found, (db.status b.portId = .fail ∨ db.status b.portId = .skip) ∧
    b.weight = blockedCount db run.id b.portId ∧ 0 < b.weight
  nodup : (found.map (·.portId)).Nodup
  sorted : found.Pairwise fun a b => b.weight ≤ a.weight
  complete : ∀ q ∈ joined db run.id, db.status q ≠ .untested → q ∈ found.map (·.portId) ∨
    found.length = limit ∧ ∀ b ∈ found, blockedCount db run.id q ≤ b.weight

section Reports
variable {db : Db}

theorem joined_status {run : RunId} {q : PortId} (h : q ∈ joined db run) :
    (∃ port, db.tree.retrieve q = some port) ∧
      (db.status q = .fail ∨ db.status q = .skip ∨ db.status q = .untested) := by
  obtain ⟨p, _, r, hr, rfl⟩ := mem_joined.1 h
  obtain ⟨⟨d, _, _, hd⟩, hstatus⟩ := mem_holding.1 hr
  exact ⟨⟨r, Tree.retrieve_of_mem (Tree.retrieve_mem hd).1⟩, hstatus⟩

theorem reported (r : RunRow) {limit : ℕ} (hlimit : 0 < limit) {rows : List (PortId × ℕ)} (h : Selected db r.id rows) :
    Reported db r limit (topBlockersForRun db r limit rows) := by
  rw [topBlockersForRun_eq r hlimit]
  have hkey : ∀ b ∈ rows.filterMap (blockerOf db r), ∃ row ∈ rows, b.portId = row.1 ∧ b.weight = row.2 ∧
      db.status row.1 ≠ .untested := by
    intro b hb
    obtain ⟨row, hrow, hb⟩ := List.mem_filterMap.1 hb
    obtain ⟨port, hport, hst, hweight, hid, -⟩ := blockerOf_eq_some hb
    exact ⟨row, hrow, hid, hweight, (Tree.retrieve_mem hport).2 ▸ hst⟩
  have hsorted : (rows.filterMap (blockerOf db r)).Pairwise fun a b => b.weight ≤ a.weight := by
    refine List.Pairwise.filterMap _ (fun row row' hle b hb b' hb' => ?_) h.sorted
    obtain ⟨_, _, _, hweight, _⟩ := blockerOf_eq_some hb
    obtain ⟨_, _, _, hweight', _⟩ := blockerOf_eq_some hb'
    rwa [hweight, hweight']
  have hnodup : ((rows.filterMap (blockerOf db r)).map (·.portId)).Nodup := by
    refine List.pairwise_map.2 (List.Pairwise.filterMap _ (fun row row' hne b hb b' hb' => ?_)
      (List.pairwise_map.1 h.nodup))
    obtain ⟨_, _, _, _, hid, _⟩ := blockerOf_eq_some hb
    obtain ⟨_, _, _, _, hid', _⟩ := blockerOf_eq_some hb'
    rwa [hid, hid']
  refine ⟨fun b hb => ?_, hnodup.sublist ((List.take_sublist _ _).map _), hsorted.sublist (List.take_sublist _ _),
    fun q hq hst => ?_⟩
  · obtain ⟨row, hrow, hid, hweight, hst⟩ := hkey b (List.mem_of_mem_take hb)
    obtain ⟨hjoined, hcount⟩ := h.mem.1 hrow
    rw [hid, hweight]
    refine ⟨?_, hcount, hcount ▸ List.count_pos_iff.2 hjoined⟩
    rcases (joined_status hjoined).2 with hf | hs | hu
    · exact .inl hf
    · exact .inr hs
    · exact absurd hu hst
  · obtain ⟨⟨port, hport⟩, _⟩ := joined_status hq
    have hid := (Tree.retrieve_mem hport).2
    obtain ⟨b, hb⟩ : ∃ b, blockerOf db r (q, blockedCount db r.id q) = some b := by
      simp only [blockerOf, hport, Option.bind_some]
      exact ⟨_, if_neg (hid ▸ hst)⟩
    obtain ⟨_, _, _, hweight, hbid, _⟩ := blockerOf_eq_some hb
    have hmem : b ∈ rows.filterMap (blockerOf db r) := List.mem_filterMap.2 ⟨_, h.mem.2 ⟨hq, rfl⟩, hb⟩
    refine (mem_take_or_full hsorted hmem limit).imp (fun hb => List.mem_map.2 ⟨b, hb, hbid⟩) fun hfull => ?_
    rwa [hweight] at hfull

end Reports

section Stuck
variable {db : Db}

/-- An untested port and a port that its build waits for. -/
def Waits (db : Db) (p q : PortId) : Prop := db.status p = .untested ∧ Needs db.tree p q

theorem joined_of_waits {run : RunId} {p : PortRow} {q : PortId} (hp : p ∈ db.tree.ports) (hrun : p.run = run)
    (h : Waits db p.id q) (hbad : db.status q = .fail ∨ db.status q = .skip) : q ∈ joined db run := by
  obtain ⟨huntested, d, hd, hport, rfl, _⟩ := h
  obtain ⟨_, _, r, hr, _, hrid, _⟩ := db.tree.depends_run d hd
  refine mem_joined.2 ⟨p, by simp [waiting, hp, hrun, huntested], r, mem_holding.2 ⟨⟨d, hd, hport, ?_⟩, ?_⟩, hrid⟩
  · exact hrid ▸ Tree.retrieve_of_mem hr
  · rw [hrid]
    exact hbad.imp_right .inl

theorem plain_reached (free : ∀ p ph, db.lock p ph = none) (plain : ∀ p, db.status p ≠ .running)
    {h : List (Cluster × Event)} {c : Cluster} (reached : Run Cluster.Step (Cluster.start db) h c) : Plain c :=
  (reached.invariant (fun c => Regular (fun _ => True) c ∧ Plain c) (K := fun _ _ => True) (fun _ _ => trivial)
    ⟨.start free, plain⟩ fun c e c' hI hstep _ => by
      have hm := Cluster.step_move hstep
      refine ⟨hI.1.step hm ?_, hI.2.step hI.1 hm⟩
      cases e with
      | interrupt pid sig => cases sig <;> simp [Handles]
      | _ => trivial).2

/-- Every state that any run reaches: where a run without cyclic builds is stuck, the report on
it has a root cause for each of its untested ports, or is full of heavier ones, unless the
port waits for one that broke down. -/
theorem stuck_reported (free : ∀ p ph, db.lock p ph = none) (plain : ∀ p, db.status p ≠ .running)
    {h : List (Cluster × Event)} {c : Cluster} (reached : Run Cluster.Step (Cluster.start db) h c) {run : RunRow}
    (acyclic : ∀ row ∈ c.db.tree.ports, row.run = run.id → ¬ TransGen (Needs c.db.tree) row.id row.id)
    (phases : ∀ row ∈ c.db.tree.ports, row.run = run.id → ∀ ph, (c.db.phaseRow row.id ph).isSome)
    (unlocked : ∀ row ∈ c.db.tree.ports, row.run = run.id → ∀ ph, c.db.lock row.id ph = none)
    (noBuild : readyPorts c.db run.id .build = []) (noFetch : readyPorts c.db run.id .fetch = [])
    (limit : Option ℤ) {rows : List (PortId × ℕ)} (hrows : Selected c.db run.id rows)
    {row : PortRow} (hrow : row ∈ c.db.tree.ports) (hrun : row.run = run.id)
    (huntested : c.db.status row.id = .untested) :
    ∃ q, TransGen (Waits c.db) row.id q ∧ (c.db.status q = .internal ∨
      q ∈ (topBlockersForRun c.db run (limitOf limit) rows).map (·.portId) ∨
      (topBlockersForRun c.db run (limitOf limit) rows).length = limitOf limit ∧
        ∀ b ∈ topBlockersForRun c.db run (limitOf limit) rows, blockedCount c.db run.id q ≤ b.weight) := by
  have hplain := plain_reached free plain reached
  let Ours := { row : PortRow // row ∈ c.db.tree.ports ∧ row.run = run.id }
  have : Finite Ours := (List.finite_toSet c.db.tree.ports).subset fun _ h => h.1
  have lift : ∀ {a b : Ours}, TransGen (fun a b : Ours => Needs c.db.tree a.1.id b.1.id) a b →
      TransGen (Needs c.db.tree) a.1.id b.1.id := fun h => h.lift _ fun _ _ h => h
  -- along the needs of the run's ports, up to the first that is not untested
  have hcause : ∀ a : Ours, c.db.status a.1.id = .untested → ∃ q, TransGen (Waits c.db) a.1.id q ∧
      (c.db.status q = .internal ∨ q ∈ joined c.db run.id ∧ c.db.status q ≠ .untested) := by
    refine acyclic_induction (r := fun a b : Ours => Needs c.db.tree a.1.id b.1.id)
      (fun a hcycle => acyclic a.1 a.2.1 a.2.2 (lift hcycle)) fun a ih huntested => ?_
    obtain ⟨q, hq, hqrun, hneeds, hbad⟩ :=
      blocked unlocked noBuild noFetch a.2.1 a.2.2 (phases a.1 a.2.1 a.2.2 .fetch) huntested
    have hwaits : Waits c.db a.1.id q.id := ⟨huntested, hneeds⟩
    cases hst : c.db.status q.id with
    | untested =>
      obtain ⟨r, hpath, hend⟩ := ih ⟨q, hq, hqrun⟩ hneeds hst
      exact ⟨r, .head hwaits hpath, hend⟩
    | running => exact absurd hst (hplain q.id)
    | pass | warn => simp [hst, Status.Good] at hbad
    | internal => exact ⟨q.id, .single hwaits, .inl hst⟩
    | fail | skip =>
      exact ⟨q.id, .single hwaits, .inr ⟨joined_of_waits a.2.1 a.2.2 hwaits (by simp [hst]), by simp [hst]⟩⟩
  obtain ⟨q, hpath, hend⟩ := hcause ⟨row, hrow, hrun⟩ huntested
  refine ⟨q, hpath, hend.imp_right fun hjoined => ?_⟩
  exact (reported run (limitOf_pos limit) hrows).complete q hjoined.1 hjoined.2

/-- The first of two ports fails to build, and is what the report on their run shows. -/
theorem chain_reported : ∃ h c, Run Cluster.Step (Cluster.start chainDb) h c ∧ c.db.status 1 = .untested ∧
    ∃ q, TransGen (Waits c.db) 1 q ∧ (c.db.status q = .internal ∨
      q ∈ (topBlockersForRun c.db ⟨1, "amd64", "3.2"⟩ (limitOf none) [(0, 1)]).map (·.portId) ∨
      (topBlockersForRun c.db ⟨1, "amd64", "3.2"⟩ (limitOf none) [(0, 1)]).length = limitOf none ∧
        ∀ b ∈ topBlockersForRun c.db ⟨1, "amd64", "3.2"⟩ (limitOf none) [(0, 1)],
          blockedCount c.db 1 q ≤ b.weight) := by
  obtain ⟨h, c, reached, hf⟩ := reached_of_history Cluster.next (s := Cluster.start chainDb)
    (w := taken 1 samplePort .build 30 ++ calls 30 7 ++ [.fork 30 40, .call 40 .done,
      .call 40 (.results { summary := .fail })] ++ calls 40 3 ++ [.exit 40, .waited 30] ++
      calls 30 4 ++ released 30)
    (f := fun x => decide (x.2.db.tree.ports = [samplePort, sampleDependent]) &&
      decide (x.2.db.tree.depends = [⟨1, 0, "lib"⟩]) &&
      decide (∀ row ∈ x.2.db.tree.ports, ∀ ph ∈ Phase.names, (x.2.db.phaseRow row.id ph).isSome = true) &&
      decide (∀ row ∈ x.2.db.tree.ports, ∀ ph ∈ Phase.names, x.2.db.lock row.id ph = none) &&
      decide (readyPorts x.2.db 1 .build = []) && decide (readyPorts x.2.db 1 .fetch = []) &&
      decide ([(0, 1)] = (joined x.2.db 1).dedup.map fun q => (q, blockedCount x.2.db 1 q)) &&
      decide (x.2.db.status 1 = .untested)) (by decide +kernel)
  simp only [Bool.and_eq_true, decide_eq_true_eq] at hf
  obtain ⟨⟨⟨⟨⟨⟨⟨hports, hdepends⟩, hphases⟩, hunlocked⟩, hbuild⟩, hfetch⟩, hgroups⟩, huntested⟩ := hf
  have hdown : ∀ p q, TransGen (Needs c.db.tree) p q → q < p := by
    have hstep : ∀ p q, Needs c.db.tree p q → q < p := fun p q hneeds => by
      obtain ⟨rfl, rfl⟩ := McpBlockers.chain_needs hdepends hneeds
      decide
    intro p q hpq
    induction hpq with
    | single h => exact hstep _ _ h
    | tail _ h ih => exact (hstep _ _ h).trans ih
  have hrow : sampleDependent ∈ c.db.tree.ports := by simp [hports]
  have hrows : Selected c.db (RunRow.mk 1 "amd64" "3.2").id [(0, 1)] := ⟨hgroups ▸ .refl _, by simp⟩
  exact ⟨h, c, reached, huntested, stuck_reported (fun _ _ => rfl) (fun _ => by simp [chainDb, Db.empty]) reached
    (fun row _ _ hcycle => absurd (hdown _ _ hcycle) (lt_irrefl _))
    (fun row hrow _ ph => hphases row hrow ph (Phase.mem_names ph))
    (fun row hrow _ ph => hunlocked row hrow ph (Phase.mem_names ph)) hbuild hfetch none
    hrows hrow rfl huntested⟩

end Stuck

section Script
variable {db : Db}

def Noted (S : PortRow → Prop) (w : Weights) : Prop := ∀ name x, w.objs name = some x → S x ∧ x.pkgname = name

def Marked (name : String) (w : Weights) : Prop := w.blocking name ≠ 0 ∧ (w.objs name).isSome

theorem Noted.note {S : PortRow → Prop} {w : Weights} (h : Noted S w) {port : PortRow} (hport : S port) :
    Noted S (w.note port) := by
  intro name x hx
  unfold Weights.note at hx
  split_ifs at hx with hsome
  · exact h name x hx
  · dsimp only at hx
    by_cases hname : name = port.pkgname
    · subst hname
      rw [Function.update_self, Option.some.injEq] at hx
      exact hx ▸ ⟨hport, rfl⟩
    · rw [Function.update_of_ne hname] at hx
      exact h name x hx

theorem note_blocking (w : Weights) (port : PortRow) : (w.note port).blocking = w.blocking := by
  unfold Weights.note
  split_ifs <;> rfl

theorem note_isSome (w : Weights) (port : PortRow) (name : String) :
    ((w.note port).objs name).isSome ↔ name = port.pkgname ∨ (w.objs name).isSome := by
  unfold Weights.note
  split_ifs with hsome
  · exact ⟨.inr, fun h => h.elim (fun hname => hname ▸ hsome) id⟩
  · dsimp only
    by_cases hname : name = port.pkgname
    · simp [hname]
    · simp [hname]

theorem Marked.note {name : String} {w : Weights} (h : Marked name w) (port : PortRow) : Marked name (w.note port) :=
  ⟨by rw [note_blocking]; exact h.1, (note_isSome w port name).2 (.inr h.2)⟩

theorem addDepend_noted {S : PortRow → Prop} {w : Weights} (h : Noted S w) (add : ℕ) {dep : PortRow}
    (hdep : holdsUp (db.status dep.id) = true → S dep) : Noted S (addDepend db add w dep) := by
  unfold addDepend
  split_ifs with hup
  · exact h.note (hdep hup)
  · exact h

theorem addDepend_marked {name : String} {w : Weights} (h : Marked name w) (add : ℕ) (dep : PortRow) :
    Marked name (addDepend db add w dep) := by
  unfold addDepend
  split_ifs
  · refine ⟨?_, (h.note dep).2⟩
    dsimp only
    by_cases hname : name = dep.pkgname
    · subst hname
      rw [Function.update_self, note_blocking]
      have := h.1
      omega
    · rw [Function.update_of_ne hname, note_blocking]
      exact h.1
  · exact h

theorem addDepend_marks {add : ℕ} (hadd : add ≠ 0) (w : Weights) {dep : PortRow}
    (hup : holdsUp (db.status dep.id) = true) : Marked dep.pkgname (addDepend db add w dep) := by
  unfold addDepend
  rw [if_pos hup]
  refine ⟨?_, (note_isSome w dep _).2 (.inl rfl)⟩
  dsimp only
  rw [Function.update_self]
  omega

theorem foldl_addDepend_marks {add : ℕ} (hadd : add ≠ 0) (deps : List PortRow) (w : Weights) {dep : PortRow}
    (hdep : dep ∈ deps) (hup : holdsUp (db.status dep.id) = true) :
    Marked dep.pkgname (deps.foldl (addDepend db add) w) := by
  induction deps generalizing w with
  | nil => cases hdep
  | cons d deps ih =>
    rw [List.foldl_cons]
    rcases List.mem_cons.1 hdep with rfl | hdep
    · exact List.foldlRecOn deps _ (addDepend_marks hadd w hup) fun w hw d _ => addDepend_marked hw add d
    · exact ih _ hdep

theorem addPort_noted {S : PortRow → Prop} {w : Weights} (h : Noted S w) {port : PortRow} (hport : S port)
    (hdeps : ∀ q ∈ holding db port, S q) : Noted S (addPort db w port) :=
  List.foldlRecOn _ _ (h.note hport) fun _ hw dep hdep =>
    addDepend_noted hw _ fun hup => hdeps dep (List.mem_filter.2 ⟨hdep, hup⟩)

theorem addPort_marked {name : String} {w : Weights} (h : Marked name w) (port : PortRow) :
    Marked name (addPort db w port) :=
  List.foldlRecOn _ _ (h.note port) fun _ hw dep _ => addDepend_marked hw _ dep

theorem addPort_marks (w : Weights) {port dep : PortRow} (h : dep ∈ holding db port) :
    Marked dep.pkgname (addPort db w port) := by
  obtain ⟨hdep, hup⟩ := List.mem_filter.1 h
  refine foldl_addDepend_marks ?_ _ _ hdep hup
  split_ifs with hzero
  · exact one_ne_zero
  · exact hzero

theorem weights_noted {S : PortRow → Prop} {ports : List PortRow}
    (h : ∀ p ∈ ports, S p ∧ ∀ q ∈ holding db p, S q) : Noted S (weights db ports) :=
  List.foldlRecOn _ _ (fun _ _ hx => by cases hx) fun _ hw p hp => addPort_noted hw (h p hp).1 (h p hp).2

theorem weights_marked {ports : List PortRow} {p q : PortRow} (hp : p ∈ ports) (hq : q ∈ holding db p) :
    Marked q.pkgname (weights db ports) := by
  have hfold : ∀ w : Weights, Marked q.pkgname (ports.foldl (addPort db) w) := by
    induction ports with
    | nil => cases hp
    | cons p' ports ih =>
      intro w
      rw [List.foldl_cons]
      rcases List.mem_cons.1 hp with rfl | hp
      · exact List.foldlRecOn ports _ (addPort_marks w hq) fun w hw p _ => addPort_marked hw p
      · exact ih hp _
  exact hfold _

/-- The ports of one run have names of their own. -/
def Distinct (db : Db) (run : RunId) : Prop :=
  ∀ p ∈ db.tree.ports, ∀ q ∈ db.tree.ports, p.run = run → q.run = run → p.pkgname = q.pkgname → p = q

theorem holding_run {p q : PortRow} (hp : p ∈ db.tree.ports) (h : q ∈ holding db p) :
    q ∈ db.tree.ports ∧ q.run = p.run := by
  obtain ⟨⟨d, hd, hport, hq⟩, _⟩ := mem_holding.1 h
  obtain ⟨p', hp', r, hr, hpid, hrid, hsame⟩ := db.tree.depends_run d hd
  obtain rfl := List.inj_on_of_nodup_map db.tree.ports_key hp' hp (hpid.trans hport)
  obtain ⟨hqmem, hqid⟩ := Tree.retrieve_mem hq
  obtain rfl := List.inj_on_of_nodup_map db.tree.ports_key hqmem hr (hqid.trans hrid.symm)
  exact ⟨hqmem, hsame.symm⟩

/-- Every name that top_blockers.pl prints is reported by the tool, as far as its limit goes; and
every reported name is printed, as long as the run has no two ports of one name. -/
theorem reports_agree {run : RunRow} {ports : List PortRow} (hports : ports.Perm (waiting db run.id)) {limit : ℕ}
    {rows : List (PortId × ℕ)} (hrows : Selected db run.id rows)
    (hlimit : (topBlockersForRun db run limit rows).length < limit) :
    (∀ name, Printed db ports name → ∃ b ∈ topBlockersForRun db run limit rows, b.pkgname = name) ∧
      (Distinct db run.id → ∀ b ∈ topBlockersForRun db run limit rows, Printed db ports b.pkgname) := by
  have hpos : 0 < limit := by omega
  have hwaiting : ∀ p ∈ ports, p ∈ db.tree.ports ∧ p.run = run.id ∧ db.status p.id = .untested := by
    intro p hp
    simpa [waiting] using hports.mem_iff.1 hp
  -- the names of the report are those of its rows
  have hname : ∀ b ∈ topBlockersForRun db run limit rows, ∃ p ∈ ports, ∃ q ∈ holding db p,
      db.status q.id ≠ .untested ∧ b.portId = q.id ∧ b.pkgname = q.pkgname := by
    intro b hb
    rw [topBlockersForRun_eq run hpos] at hb
    obtain ⟨row, hrow, hb⟩ := List.mem_filterMap.1 (List.mem_of_mem_take hb)
    obtain ⟨port, hport, hst, -, hid, hpkg, -⟩ := blockerOf_eq_some hb
    obtain ⟨p, hp, q, hq, hqid⟩ := mem_joined.1 (hrows.mem.1 hrow).1
    obtain ⟨d, _, _, hret⟩ := (mem_holding.1 hq).1
    have hqport : q = port := by
      rw [← hqid, Tree.retrieve_of_mem (Tree.retrieve_mem hret).1] at hport
      exact Option.some.inj hport
    subst hqport
    exact ⟨p, hports.mem_iff.2 hp, q, hq, hst, hid.trans hqid.symm, hpkg⟩
  constructor
  · rintro name ⟨-, x, hx, hst⟩
    -- an object that is not untested was noted for a row
    have hnoted : Noted (fun x => db.status x.id = .untested ∨ ∃ p ∈ ports, x ∈ holding db p) (weights db ports) :=
      weights_noted fun p hp => ⟨.inl (hwaiting p hp).2.2, fun q hq => .inr ⟨p, hp, hq⟩⟩
    obtain ⟨hsource, rfl⟩ := hnoted name x hx
    obtain ⟨p, hp, hq⟩ := hsource.resolve_left hst
    have hjoined : x.id ∈ joined db run.id := mem_joined.2 ⟨p, hports.mem_iff.1 hp, x, hq, rfl⟩
    have hlisted := ((reported run hpos hrows).complete x.id hjoined hst).resolve_right fun hfull => by omega
    obtain ⟨b, hb, hid⟩ := List.mem_map.1 hlisted
    obtain ⟨p', hp', q', hq', -, hid', hpkg⟩ := hname b hb
    refine ⟨b, hb, hpkg.trans (congrArg PortRow.pkgname ?_)⟩
    exact List.inj_on_of_nodup_map db.tree.ports_key (holding_run (hwaiting p' hp').1 hq').1
      (holding_run (hwaiting p hp).1 hq).1 (hid'.symm.trans hid)
  · intro distinct b hb
    obtain ⟨p, hp, q, hq, hst, -, hpkg⟩ := hname b hb
    obtain ⟨hmarked, hsome⟩ := weights_marked hp hq
    obtain ⟨x, hx⟩ := Option.isSome_iff_exists.1 hsome
    have hnoted : Noted (fun x => x ∈ db.tree.ports ∧ x.run = run.id) (weights db ports) :=
      weights_noted fun p hp => ⟨⟨(hwaiting p hp).1, (hwaiting p hp).2.1⟩, fun q hq => by
        obtain ⟨hmem, hrun⟩ := holding_run (hwaiting p hp).1 hq
        exact ⟨hmem, hrun.trans (hwaiting p hp).2.1⟩⟩
    obtain ⟨⟨hmem, hrun⟩, hpkg'⟩ := hnoted _ x hx
    obtain ⟨hqmem, hqrun⟩ := holding_run (hwaiting p hp).1 hq
    obtain rfl := distinct x hmem q hqmem hrun (hqrun.trans (hwaiting p hp).2.1) hpkg'
    exact hpkg ▸ ⟨hmarked, x, hx, hst⟩

def failedChain : Db := { chainDb with status := fun p => if p = 0 then .fail else .untested }

theorem chain_agrees :
    (∀ name, Printed failedChain [sampleDependent] name →
      ∃ b ∈ topBlockersForRun failedChain ⟨1, "amd64", "3.2"⟩ 20 [(0, 1)], b.pkgname = name) ∧
    (Distinct failedChain 1 → ∀ b ∈ topBlockersForRun failedChain ⟨1, "amd64", "3.2"⟩ 20 [(0, 1)],
      Printed failedChain [sampleDependent] b.pkgname) :=
  @reports_agree failedChain ⟨1, "amd64", "3.2"⟩ _ (by decide +kernel) _ _ ⟨by decide +kernel, by simp⟩ (by decide +kernel)

end Script

end Mports.McpTopBlockers
