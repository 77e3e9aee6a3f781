import Mathlib.Data.Set.Card
import Mports.McpBlockers

set_option autoImplicit false

namespace Mports.McpShortestPaths
open MagusTables MagusCluster MagusPackages McpBlockers BoundedSearch

/-- The ports after `p` on a way to `q` along `depends` rows. Those on the way are untested. -/
inductive Way (db : Db) (p : PortRow) : List PortRow → PortRow → Prop where
  | start : Way db p [] p
  | next {path : List PortRow} {x q : PortRow} {d : Depend} (way : Way db p path x)
      (untested : path = [] ∨ db.status x.id = .untested) (row : d ∈ db.tree.depends)
      (port : d.port = x.id) (dependency : d.dependency = q.id) (found : q ∈ db.tree.ports) :
      Way db p (path ++ [q]) q

def pathText (p : PortRow) (path : List PortRow) : String :=
  " -> ".intercalate (p.name :: path.map (·.name))

def Blocks (db : Db) (p : PortRow) (maxDepth : ℕ) (q : PortRow) : Prop :=
  q ≠ p ∧ (db.status q.id = .fail ∨ db.status q.id = .skip) ∧
    ∃ path, Way db p path q ∧ path.length ≤ maxDepth

/-- A blocker is listed with the length and the names of a shortest way. -/
def Shortest (db : Db) (p : PortRow) (b : Blocker) : Prop :=
  ∃ path, Way db p path b.edge.port ∧ b.depth = path.length ∧ b.path = pathText p path ∧
    ∀ path', Way db p path' b.edge.port → path.length ≤ path'.length

structure Exact (db : Db) (p : PortRow) (maxDepth limit : ℕ) (blockers : List Blocker) : Prop where
  sorted : blockers.Pairwise fun b b' => b.depth ≤ b'.depth
  once : (blockers.map (·.edge.port)).Nodup
  sound : ∀ b ∈ blockers, Blocks db p maxDepth b.edge.port ∧ Shortest db p b
  all : {q | Blocks db p maxDepth q}.ncard ≤ limit → ∀ q, Blocks db p maxDepth q →
    ∃ b ∈ blockers, b.edge.port = q
  full : limit ≤ {q | Blocks db p maxDepth q}.ncard → blockers.length = limit

section Ways
variable {db : Db} {p q : PortRow}

theorem Way.mem_ports {path : List PortRow} (hp : p ∈ db.tree.ports) (h : Way db p path q) :
    q ∈ db.tree.ports := by
  cases h with
  | start => exact hp
  | next _ _ _ _ _ found => exact found

theorem Way.trail {path : List PortRow} (h : Way db p path q) :
    ∃ es : List Dep, es.length = path.length ∧ Trail (depGraph db fun _ => true) p.id es q.id := by
  induction h with
  | start => exact ⟨[], rfl, .start⟩
  | @next path x q d _ untested row port dependency found ih =>
    obtain ⟨es, hlength, htrail⟩ := ih
    have hedge : ⟨d.type, q, db.status q.id⟩ ∈ deps db (fun _ => true) x.id := by
      refine mem_deps.2 ⟨d, row, port, rfl, rfl, ?_, rfl⟩
      rw [dependency]
      exact Tree.retrieve_of_mem found
    refine ⟨es ++ [⟨d.type, q, db.status q.id⟩], by simp [hlength], htrail.next ?_ hedge⟩
    refine untested.imp (fun hnil => ?_) fun hst => by simp [depGraph, hst]
    subst hnil
    exact List.length_eq_zero_iff.1 hlength

theorem foldl_extendPath (es : List Dep) (text : String) :
    es.foldl extendPath text = " -> ".intercalate (text :: es.map (·.port.name)) := by
  induction es generalizing text with
  | nil => simp
  | cons e es ih =>
    rw [List.foldl_cons, ih, extendPath, String.intercalate_cons_append, List.map_cons,
      String.intercalate_cons_cons]

theorem mem_edges {x : PortId} {e : Dep} (h : e ∈ (depGraph db fun _ => true).edges x) :
    e.port ∈ db.tree.ports ∧ ∃ d ∈ db.tree.depends, d.port = x ∧ d.dependency = e.port.id := by
  have hrow : e ∈ deps db (fun _ => true) x := h
  obtain ⟨d, hd, hport, _, _, hq, _⟩ := mem_deps.1 hrow
  obtain ⟨hports, hid⟩ := Tree.retrieve_mem hq
  exact ⟨hports, d, hd, hport, hid.symm⟩

theorem way_of_trail {es : List Dep} {x : PortId} (h : Trail (depGraph db fun _ => true) p.id es x) :
    ((es.map (·.port)).getLastD p).id = x ∧ Way db p (es.map (·.port)) ((es.map (·.port)).getLastD p) := by
  induction h with
  | start => exact ⟨rfl, .start⟩
  | @next es x e _ enter edge ih =>
    obtain ⟨hid, hway⟩ := ih
    obtain ⟨hports, d, hd, hport, hdep⟩ := mem_edges edge
    rw [List.map_append, List.map_singleton, List.getLastD_concat]
    refine ⟨rfl, hway.next ?_ hd (hport.trans hid.symm) hdep hports⟩
    refine enter.imp (fun hnil => by simp [hnil]) fun hst => ?_
    rw [hid]
    simpa [depGraph] using hst

theorem blocks_leads {maxDepth : ℕ} (hp : p ∈ db.tree.ports) (h : Blocks db p maxDepth q) :
    q.id ≠ p.id ∧ (depGraph db fun _ => true).report q.id = true ∧
      ∃ n ≤ maxDepth, Leads (depGraph db fun _ => true) p.id n q.id := by
  obtain ⟨hne, hbad, path, hway, hlength⟩ := h
  refine ⟨fun hid => hne ?_, by simpa [depGraph] using hbad, ?_⟩
  · exact List.inj_on_of_nodup_map db.tree.ports_key (hway.mem_ports hp) hp hid
  · obtain ⟨es, hes, htrail⟩ := hway.trail
    exact ⟨es.length, hes ▸ hlength, htrail.leads⟩

end Ways

section Search
variable {db : Db} {p : PortRow} {maxDepth limit : ℕ} {t : State PortId Dep String}

theorem found_sound (h : search (depGraph db fun _ => true) extendPath maxDepth limit
    (db.tree.ports.length + 1) (start p.id p.name) = some t) {b : Blocker} (hb : b ∈ t.found) :
    Blocks db p maxDepth b.edge.port ∧ Shortest db p b := by
  obtain ⟨hdepth, ⟨es, hes⟩, hreport, hroot⟩ := (search_sound h).found b hb
  have hway := (way_of_trail hes.trail).2
  rw [List.map_append, List.map_singleton, List.getLastD_concat] at hway
  have hlength : (es.map (·.port) ++ [b.edge.port]).length = b.depth := by
    simpa using hes.length
  refine ⟨⟨fun he => hroot (congrArg PortRow.id he), by simpa [depGraph] using hreport, _, hway,
    hlength ▸ hdepth⟩, _, hway, hlength.symm, ?_, fun path hpath => ?_⟩
  · refine hes.path.symm.trans ?_
    rw [foldl_extendPath, pathText, List.map_append, List.map_append, List.map_map]
    rfl
  · obtain ⟨es', hes', htrail⟩ := hpath.trail
    rw [hlength, ← hes']
    exact (search_complete h).1.shortest b hb _ htrail.leads

theorem dependencyBlockers_exact (hp : p ∈ db.tree.ports) (maxDepth limit : ℕ) :
    ∃ blockers, dependencyBlockers db p maxDepth limit = some blockers ∧
      Exact db p maxDepth limit blockers := by
  obtain ⟨t, ht⟩ := blockers_some db p maxDepth limit
  obtain ⟨hlisted, hbound, hfull⟩ := search_complete ht
  have honce : (t.found.map (·.edge.port)).Nodup := by
    refine List.Nodup.of_map PortRow.id ?_
    rw [List.map_map]
    exact hlisted.once
  have hcomplete : t.found.length = limit ∨ ∀ q, Blocks db p maxDepth q → ∃ b ∈ t.found, b.edge.port = q := by
    refine hfull.imp_right fun hall q hq => ?_
    obtain ⟨hne, hreport, n, hn, hleads⟩ := blocks_leads hp hq
    obtain ⟨b, hb, hid⟩ := hall n hn q.id hleads hne hreport
    obtain ⟨_, _, path, hway, _⟩ := hq
    obtain ⟨_, ⟨path', hway', _⟩⟩ := (found_sound ht hb).1.2
    exact ⟨b, hb, List.inj_on_of_nodup_map db.tree.ports_key (hway'.mem_ports hp) (hway.mem_ports hp) hid⟩
  -- the listed ports as a set of as many elements
  have hcard : {q | ∃ b ∈ t.found, b.edge.port = q}.ncard = t.found.length := by
    have hset : {q | ∃ b ∈ t.found, b.edge.port = q} = ((t.found.map (·.edge.port)).toFinset : Set PortRow) := by
      ext q
      simp
    rw [hset, Set.ncard_coe_finset, List.toFinset_card_of_nodup honce, List.length_map]
  have hfinite : {q | Blocks db p maxDepth q}.Finite :=
    (List.finite_toSet db.tree.ports).subset fun q ⟨_, _, _, hway, _⟩ => hway.mem_ports hp
  have hsub : {q | ∃ b ∈ t.found, b.edge.port = q} ⊆ {q | Blocks db p maxDepth q} := by
    rintro q ⟨b, hb, rfl⟩
    exact (found_sound ht hb).1
  have hle := Set.ncard_le_ncard hsub hfinite
  rw [hcard] at hle
  refine ⟨t.found, by simp [dependencyBlockers, ht], hlisted.sorted, honce,
    fun b hb => found_sound ht hb, fun hfew => ?_, fun hmany => ?_⟩
  · rcases hcomplete with hfull | hall
    · have hsame : {q | ∃ b ∈ t.found, b.edge.port = q} = {q | Blocks db p maxDepth q} :=
        Set.eq_of_subset_of_ncard_le hsub (by rw [hcard]; omega) hfinite
      exact fun q hq => hsame.symm.subset hq
    · exact hall
  · rcases hcomplete with hfull | hall
    · exact hfull
    · have hall : {q | Blocks db p maxDepth q} ⊆ {q | ∃ b ∈ t.found, b.edge.port = q} := hall
      have hback := Set.ncard_le_ncard hall (hfinite.subset hsub)
      rw [hcard] at hback
      omega

/-- The tool ends for all arguments that name a port; the port itself is never a blocker. -/
theorem blockers_exact {args : Args} (hport : portFromArgs db args = .ok p) :
    ∃ r, toolGetDependencyBlockers db args = .ok (some r) ∧
      r.maxDepth = (boundedInt args.maxDepth 8 1 20).toNat ∧
      Exact db p r.maxDepth (boundedInt args.limit 50 1 200).toNat r.blockers := by
  have hp : p ∈ db.tree.ports := by
    unfold portFromArgs at hport
    split at hport
    · simp at hport
    · split at hport
      · simp at hport
      · rename_i hfind
        obtain ⟨id, _, hretrieve⟩ := Option.bind_eq_some_iff.1 hfind
        cases hport
        exact (Tree.retrieve_mem hretrieve).1
  obtain ⟨blockers, hsome, hexact⟩ := dependencyBlockers_exact hp
    (boundedInt args.maxDepth 8 1 20).toNat (boundedInt args.limit 50 1 200).toNat
  refine ⟨⟨p, db.status p.id, (boundedInt args.maxDepth 8 1 20).toNat, blockers⟩, ?_, rfl, hexact⟩
  simp [toolGetDependencyBlockers, hport, hsome, Except.map]

end Search

section Samples

def cycleDb : Db :=
  { chainDb with
    tree := ⟨[samplePort, sampleDependent], [⟨1, 0, "lib"⟩, ⟨0, 1, "build"⟩], chain_key, by decide, by decide⟩
    status := fun p => if p = 1 then .fail else .untested }

theorem lists_none {db : Db} {args : Args} (h : lists db args = some false) :
    ∃ r, toolGetDependencyBlockers db args = .ok (some r) ∧ r.blockers = [] := by
  unfold lists at h
  split at h
  · rename_i r hr
    exact ⟨r, hr, by simpa using h⟩
  · cases h

/-- A way of two rows leads from the failed port back to it, and it is not listed. -/
theorem cycle_unlisted : cycleDb.status sampleDependent.id = .fail ∧
    (∃ path, Way cycleDb sampleDependent path sampleDependent ∧ path.length = 2) ∧
    (∃ r, toolGetDependencyBlockers cycleDb { portId := some 1 } = .ok (some r) ∧ r.blockers = []) := by
  refine ⟨by decide, ⟨[samplePort, sampleDependent], ?_, rfl⟩, ?_⟩
  · have hfirst : Way cycleDb sampleDependent [samplePort] samplePort :=
      .next .start (.inl rfl) (d := ⟨1, 0, "lib"⟩) (by simp [cycleDb]) rfl rfl (by simp [cycleDb])
    exact .next hfirst (.inr (by decide)) (d := ⟨0, 1, "build"⟩) (by simp [cycleDb]) rfl rfl (by simp [cycleDb])
  · exact lists_none (by decide +kernel)

theorem failed_exact : ∃ r,
    toolGetDependencyBlockers { chainDb with status := fun p => if p = 0 then .fail else .untested }
      { portId := some 1, limit := some 3 } = .ok (some r) ∧ r.maxDepth = 8 ∧
      Exact { chainDb with status := fun p => if p = 0 then .fail else .untested } sampleDependent r.maxDepth 3
        r.blockers :=
  blockers_exact (by decide +kernel)

end Samples
end Mports.McpShortestPaths
