import Mports.KeyedWalk

set_option autoImplicit false

namespace Mports.BoundedSearch
open KeyedWalk (unseen unseen_lt)

structure Graph (ι β : Type) where
  edges : ι → List β
  target : β → ι
  enter : ι → Bool
  report : ι → Bool

structure Item (ι π : Type) where
  node : ι
  depth : ℕ
  path : π

structure Found (β π : Type) where
  edge : β
  depth : ℕ
  path : π

structure State (ι β π : Type) where
  queue : List (Item ι π)
  seen : List ι
  found : List (Found β π)

variable {ι β π : Type}

def start (root : ι) (path : π) : State ι β π := ⟨[⟨root, 0, path⟩], [root], []⟩

variable (g : Graph ι β) (extend : π → β → π) (maxDepth limit : ℕ)

def meet (x : Item ι π) (e : β) (s : State ι β π) : State ι β π :=
  let y : Item ι π := ⟨g.target e, x.depth + 1, extend x.path e⟩
  { queue := if g.enter y.node then s.queue ++ [y] else s.queue
    seen := s.seen ++ [y.node]
    found := if g.report y.node then s.found ++ [⟨e, y.depth, y.path⟩] else s.found }

variable [DecidableEq ι]

/-- The edges of one item. The report that fills the list ends it before the node is queued. -/
def scan (x : Item ι π) : List β → State ι β π → State ι β π
  | [], s => s
  | e :: es, s =>
    if g.target e ∈ s.seen then scan x es s
    else
      let t := meet g extend x e s
      if g.report (g.target e) ∧ limit ≤ t.found.length then { t with queue := s.queue }
      else scan x es t

def step (s : State ι β π) : State ι β π :=
  match s.queue with
  | [] => s
  | x :: rest =>
    let s := { s with queue := rest }
    if maxDepth ≤ x.depth then s else scan g extend limit x (g.edges x.node) s

def Done (s : State ι β π) : Prop := s.queue = [] ∨ limit ≤ s.found.length

instance (s : State ι β π) : Decidable (Done limit s) :=
  decidable_of_iff (s.queue.isEmpty = true ∨ limit ≤ s.found.length) (by simp [Done])

def search : ℕ → State ι β π → Option (State ι β π)
  | 0, s => if Done limit s then some s else none
  | n + 1, s => if Done limit s then some s else search n (step g extend maxDepth limit s)

variable {g extend maxDepth limit}

theorem scan_met {x : Item ι π} {e : β} {es : List β} {s : State ι β π} (h : g.target e ∈ s.seen) :
    scan g extend limit x (e :: es) s = scan g extend limit x es s := by
  simp only [scan, if_pos h]

theorem scan_new {x : Item ι π} {e : β} {es : List β} {s : State ι β π} (h : g.target e ∉ s.seen) :
    scan g extend limit x (e :: es) s =
      if g.report (g.target e) = true ∧ limit ≤ (meet g extend x e s).found.length then
        { meet g extend x e s with queue := s.queue }
      else scan g extend limit x es (meet g extend x e s) := by
  simp only [scan, if_neg h]

theorem search_keeps {I : State ι β π → Prop}
    (keep : ∀ s, ¬ Done limit s → I s → I (step g extend maxDepth limit s)) {n : ℕ} {s t : State ι β π}
    (h : search g extend maxDepth limit n s = some t) (hs : I s) : I t ∧ Done limit t := by
  induction n generalizing s with
  | zero =>
    simp only [search, Option.ite_none_right_eq_some, Option.some.injEq] at h
    exact h.2 ▸ ⟨hs, h.1⟩
  | succ n ih =>
    simp only [search] at h
    split at h
    · cases h
      exact ⟨hs, ‹_›⟩
    · exact ih h (keep s ‹_› hs)

section Total
variable (U : List ι)

def size (s : State ι β π) : ℕ := s.queue.length + unseen id U s.seen

theorem scan_size {x : Item ι π} {es : List β} (hU : ∀ e ∈ es, g.target e ∈ U) (s : State ι β π) :
    size U (scan g extend limit x es s) ≤ size U s := by
  induction es generalizing s with
  | nil => exact le_refl _
  | cons e es ih =>
    have hes : ∀ e ∈ es, g.target e ∈ U := fun e he => hU e (List.mem_cons_of_mem _ he)
    by_cases hseen : g.target e ∈ s.seen
    · rw [scan_met hseen]
      exact ih hes s
    · have hnew : ¬ KeyedWalk.Seen id s.seen (g.target e) := by simpa [KeyedWalk.Seen] using hseen
      have hlt := unseen_lt id U (hU e (by simp)) hnew
      have hmet : size U (meet g extend x e s) ≤ size U s := by
        simp only [meet, size]
        split
        · simp only [List.length_append, List.length_singleton]
          omega
        · omega
      rw [scan_new hseen]
      split
      · simp only [size, meet] at hlt ⊢
        omega
      · exact (ih hes _).trans hmet

theorem search_total (hU : ∀ x, ∀ e ∈ g.edges x, g.target e ∈ U) {n : ℕ} {s : State ι β π}
    (hn : size U s ≤ n) : ∃ t, search g extend maxDepth limit n s = some t := by
  induction n generalizing s with
  | zero =>
    have hqueue : s.queue = [] := by
      unfold size at hn
      exact List.length_eq_zero_iff.1 (by omega)
    exact ⟨s, by simp [search, Done, hqueue]⟩
  | succ n ih =>
    simp only [search]
    split
    · exact ⟨s, rfl⟩
    · rename_i hdone
      refine ih ?_
      cases hqueue : s.queue with
      | nil => exact absurd (.inl hqueue) hdone
      | cons x rest =>
        have hrest : size U { s with queue := rest } ≤ n := by
          simp only [size, hqueue, List.length_cons] at hn ⊢
          omega
        simp only [step, hqueue]
        split
        · exact hrest
        · exact (scan_size U (hU x.node) _).trans hrest

end Total

variable (g) in
/-- The node is the end of a path of that many edges, entered at each node on the way. -/
inductive Leads (root : ι) : ℕ → ι → Prop where
  | start : Leads root 0 root
  | next {n : ℕ} {x : ι} {e : β} (path : Leads root n x) (enter : x = root ∨ g.enter x = true)
      (edge : e ∈ g.edges x) : Leads root (n + 1) (g.target e)

variable (g) in
/-- The edges of such a path; no node on the way counts as entered for being the root. -/
inductive Trail (root : ι) : List β → ι → Prop where
  | start : Trail root [] root
  | next {es : List β} {x : ι} {e : β} (path : Trail root es x) (enter : es = [] ∨ g.enter x = true)
      (edge : e ∈ g.edges x) : Trail root (es ++ [e]) (g.target e)

section Paths
variable {root : ι}

omit [DecidableEq ι] in
theorem Trail.eq_root {es : List β} {x : ι} (h : Trail g root es x) (hnil : es = []) : x = root := by
  cases h with
  | start => rfl
  | next => simp at hnil

omit [DecidableEq ι] in
theorem Trail.leads {es : List β} {x : ι} (h : Trail g root es x) : Leads g root es.length x := by
  induction h with
  | start => exact .start
  | @next es x e path enter edge ih =>
    rw [List.length_append, List.length_singleton]
    exact .next ih (enter.imp_left path.eq_root) edge

omit [DecidableEq ι] in
theorem Leads.trail {n : ℕ} {x : ι} (h : Leads g root n x) : ∃ es, Trail g root es x ∧ es.length ≤ n := by
  induction h with
  | start => exact ⟨[], .start, le_refl _⟩
  | @next n x e path enter edge ih =>
    rcases enter with rfl | enter
    · exact ⟨[] ++ [e], .next .start (.inl rfl) edge, by simp⟩
    · obtain ⟨es, hes, hlength⟩ := ih
      exact ⟨es ++ [e], .next hes (.inr enter) edge, by simpa using hlength⟩

end Paths

section Sound
variable {root : ι} {path : π}

/-- The depth and the path of an item belong to a trail to its node. -/
structure Along (g : Graph ι β) (extend : π → β → π) (root : ι) (path : π) (x : Item ι π) (es : List β) : Prop where
  trail : Trail g root es x.node
  length : es.length = x.depth
  path : es.foldl extend path = x.path

structure Sound (g : Graph ι β) (extend : π → β → π) (maxDepth : ℕ) (root : ι) (path : π)
    (s : State ι β π) : Prop where
  seen : root ∈ s.seen
  queue : ∀ x ∈ s.queue, (∃ es, Along g extend root path x es) ∧ (x.depth = 0 ∨ g.enter x.node = true)
  found : ∀ f ∈ s.found, f.depth ≤ maxDepth ∧
    (∃ es, Along g extend root path ⟨g.target f.edge, f.depth, f.path⟩ (es ++ [f.edge])) ∧
    g.report (g.target f.edge) = true ∧ g.target f.edge ≠ root

omit [DecidableEq ι] in
theorem sound_start : Sound g extend maxDepth root path (start root path) where
  seen := by simp [start]
  queue := by
    intro x hx
    cases List.mem_singleton.1 hx
    exact ⟨⟨[], .start, rfl, rfl⟩, .inl rfl⟩
  found := by simp [start]

omit [DecidableEq ι] in
theorem Along.next {x : Item ι π} {es : List β} {e : β} (h : Along g extend root path x es)
    (henter : x.depth = 0 ∨ g.enter x.node = true) (he : e ∈ g.edges x.node) :
    Along g extend root path ⟨g.target e, x.depth + 1, extend x.path e⟩ (es ++ [e]) := by
  refine ⟨h.trail.next (henter.imp_left fun h0 => ?_) he, by simp [h.length], by simp [h.path]⟩
  exact List.length_eq_zero_iff.1 (h.length.trans h0)

omit [DecidableEq ι] in
theorem Sound.meet {x : Item ι π} {trail : List β} (hx : Along g extend root path x trail)
    (henter : x.depth = 0 ∨ g.enter x.node = true) (hdepth : x.depth < maxDepth) {e : β}
    (he : e ∈ g.edges x.node) {s : State ι β π} (h : Sound g extend maxDepth root path s)
    (hnew : g.target e ∉ s.seen) : Sound g extend maxDepth root path (meet g extend x e s) := by
  have hpath := hx.next henter he
  constructor
  · exact List.mem_append_left _ h.seen
  · intro y hy
    simp only [BoundedSearch.meet] at hy
    split at hy
    · rcases List.mem_append.1 hy with hy | hy
      · exact h.queue y hy
      · cases List.mem_singleton.1 hy
        exact ⟨⟨_, hpath⟩, .inr ‹_›⟩
    · exact h.queue y hy
  · intro f hf
    simp only [BoundedSearch.meet] at hf
    split at hf
    · rcases List.mem_append.1 hf with hf | hf
      · exact h.found f hf
      · cases List.mem_singleton.1 hf
        exact ⟨hdepth, ⟨_, hpath⟩, ‹_›, fun hroot => hnew (hroot ▸ h.seen)⟩
    · exact h.found f hf

theorem Sound.scan {x : Item ι π} {trail : List β} (hx : Along g extend root path x trail)
    (henter : x.depth = 0 ∨ g.enter x.node = true) (hdepth : x.depth < maxDepth) {es : List β}
    (hes : ∀ e ∈ es, e ∈ g.edges x.node) {s : State ι β π} (h : Sound g extend maxDepth root path s) :
    Sound g extend maxDepth root path (scan g extend limit x es s) := by
  induction es generalizing s with
  | nil => exact h
  | cons e es ih =>
    have hrest : ∀ e ∈ es, e ∈ g.edges x.node := fun e he => hes e (List.mem_cons_of_mem _ he)
    by_cases hseen : g.target e ∈ s.seen
    · rw [scan_met hseen]
      exact ih hrest h
    · have hmet := h.meet hx henter hdepth (hes e (by simp)) hseen
      rw [scan_new hseen]
      split
      · exact ⟨hmet.seen, h.queue, hmet.found⟩
      · exact ih hrest hmet

theorem Sound.step {s : State ι β π} (h : Sound g extend maxDepth root path s) :
    Sound g extend maxDepth root path (step g extend maxDepth limit s) := by
  unfold BoundedSearch.step
  split
  · exact h
  · rename_i x rest hqueue
    have hrest : Sound g extend maxDepth root path { s with queue := rest } :=
      ⟨h.seen, fun y hy => h.queue y (hqueue ▸ List.mem_cons_of_mem _ hy), h.found⟩
    obtain ⟨⟨_, hpath⟩, henter⟩ := h.queue x (by simp [hqueue])
    dsimp only
    split
    · exact hrest
    · exact hrest.scan hpath henter (by omega) fun _ he => he

end Sound

section Layers
variable {root : ι}

/-- The queue is ordered by depth; what was seen and is no longer queued has all its
targets seen, at most one deeper; what was seen and is to be reported is listed. -/
structure Layers (g : Graph ι β) (maxDepth : ℕ) (root : ι) (depth : ι → ℕ) (s : State ι β π) : Prop where
  began : root ∈ s.seen ∧ depth root = 0
  queued : ∀ q ∈ s.queue, q.node ∈ s.seen ∧ depth q.node = q.depth
  sorted : s.queue.Pairwise fun q r => q.depth ≤ r.depth
  near : ∀ q ∈ s.queue, ∀ y ∈ s.seen, depth y ≤ q.depth + 1
  closed : ∀ y ∈ s.seen, y = root ∨ g.enter y = true → y ∈ s.queue.map Item.node ∨
    maxDepth ≤ depth y ∨ ∀ e ∈ g.edges y, g.target e ∈ s.seen ∧ depth (g.target e) ≤ depth y + 1
  listed : ∀ f ∈ s.found, g.target f.edge ∈ s.seen ∧ depth (g.target f.edge) = f.depth
  reported : ∀ y ∈ s.seen, y = root ∨ g.report y = false ∨ ∃ f ∈ s.found, g.target f.edge = y

/-- What is listed, also when the list was cut off. -/
structure Listed (g : Graph ι β) (root : ι) (s : State ι β π) : Prop where
  seen : ∀ f ∈ s.found, g.target f.edge ∈ s.seen
  once : (s.found.map fun f => g.target f.edge).Nodup
  sorted : s.found.Pairwise fun f f' => f.depth ≤ f'.depth
  shortest : ∀ f ∈ s.found, ∀ n, Leads g root n (g.target f.edge) → f.depth ≤ n

omit [DecidableEq ι] in
theorem layers_start (path : π) : Layers (β := β) g maxDepth root (fun _ => 0) (start root path) where
  began := by simp [start]
  queued := by simp [start]
  sorted := by simp [start]
  near := by simp [start]
  closed := by simp [start]
  listed := by simp [start]
  reported := by simp [start]

omit [DecidableEq ι] in
theorem listed_start (path : π) : Listed (β := β) g root (start root path) where
  seen := by simp [start]
  once := by simp [start]
  sorted := by simp [start]
  shortest := by simp [start]

omit [DecidableEq ι] in
theorem Layers.leads {depth : ι → ℕ} {s : State ι β π} (h : Layers g maxDepth root depth s)
    {n : ℕ} (hqueue : ∀ q ∈ s.queue, n ≤ q.depth) {x : ι} (hx : Leads g root n x) (hn : n ≤ maxDepth) :
    x ∈ s.seen ∧ depth x ≤ n := by
  induction hx with
  | start => exact ⟨h.began.1, h.began.2.le⟩
  | @next n x e path enter edge ih =>
    obtain ⟨hseen, hdepth⟩ := ih (fun q hq => (Nat.le_succ n).trans (hqueue q hq)) (by omega)
    rcases h.closed x hseen enter with hin | hdeep | hall
    · obtain ⟨q, hq, rfl⟩ := List.mem_map.1 hin
      have := hqueue q hq
      have := (h.queued q hq).2
      omega
    · omega
    · obtain ⟨hseen, hnext⟩ := hall e edge
      exact ⟨hseen, by omega⟩

section Meet
variable {depth : ι → ℕ} {x : Item ι π} {e : β} {s : State ι β π}

omit [DecidableEq ι] in
theorem mem_queue_meet {q : Item ι π} (h : q ∈ (meet g extend x e s).queue) :
    q ∈ s.queue ∨ q = ⟨g.target e, x.depth + 1, extend x.path e⟩ := by
  simp only [meet] at h
  split at h
  · simpa using h
  · exact .inl h

omit [DecidableEq ι] in
theorem queue_meet_of_mem {q : Item ι π} (h : q ∈ s.queue) : q ∈ (meet g extend x e s).queue := by
  simp only [meet]
  split
  · exact List.mem_append_left _ h
  · exact h

omit [DecidableEq ι] in
theorem mem_found_meet {f : Found β π} (h : f ∈ (meet g extend x e s).found) :
    f ∈ s.found ∨ f = ⟨e, x.depth + 1, extend x.path e⟩ := by
  simp only [meet] at h
  split at h
  · simpa using h
  · exact .inl h

omit [DecidableEq ι] in
theorem found_meet_of_mem {f : Found β π} (h : f ∈ s.found) : f ∈ (meet g extend x e s).found := by
  simp only [meet]
  split
  · exact List.mem_append_left _ h
  · exact h

theorem Layers.meet (h : Layers g maxDepth root depth { s with queue := x :: s.queue })
    (hnew : g.target e ∉ s.seen) :
    Layers g maxDepth root (Function.update depth (g.target e) (x.depth + 1))
      { meet g extend x e s with queue := x :: (meet g extend x e s).queue } := by
  have hold : ∀ y ∈ s.seen, Function.update depth (g.target e) (x.depth + 1) y = depth y :=
    fun y hy => Function.update_of_ne (ne_of_mem_of_not_mem hy hnew) _ _
  have hnear : ∀ y ∈ s.seen, depth y ≤ x.depth + 1 := h.near x (by simp)
  have hlow : ∀ q ∈ s.queue, x.depth ≤ q.depth := (List.pairwise_cons.1 h.sorted).1
  constructor
  · exact ⟨List.mem_append_left _ h.began.1, (hold _ h.began.1).trans h.began.2⟩
  · intro q hq
    rcases List.mem_cons.1 hq with rfl | hq
    · obtain ⟨hseen, hdepth⟩ := h.queued q (by simp)
      exact ⟨List.mem_append_left _ hseen, (hold _ hseen).trans hdepth⟩
    · rcases mem_queue_meet hq with hq | rfl
      · obtain ⟨hseen, hdepth⟩ := h.queued q (List.mem_cons_of_mem _ hq)
        exact ⟨List.mem_append_left _ hseen, (hold _ hseen).trans hdepth⟩
      · exact ⟨by simp [BoundedSearch.meet], by simp⟩
  · refine List.pairwise_cons.2 ⟨fun q hq => ?_, ?_⟩
    · rcases mem_queue_meet hq with hq | rfl
      · exact hlow q hq
      · exact Nat.le_succ _
    · simp only [BoundedSearch.meet]
      split
      · refine List.pairwise_append.2 ⟨(List.pairwise_cons.1 h.sorted).2, by simp, fun q hq r hr => ?_⟩
        obtain ⟨hseen, hdepth⟩ := h.queued q (List.mem_cons_of_mem _ hq)
        cases List.mem_singleton.1 hr
        exact hdepth ▸ hnear _ hseen
      · exact (List.pairwise_cons.1 h.sorted).2
  · intro q hq y hy
    have hq : x.depth ≤ q.depth := by
      rcases List.mem_cons.1 hq with rfl | hq
      · exact le_refl _
      · rcases mem_queue_meet hq with hq | rfl
        · exact hlow q hq
        · exact Nat.le_succ _
    rcases List.mem_append.1 hy with hy | hy
    · rw [hold y hy]
      have := hnear y hy
      omega
    · cases List.mem_singleton.1 hy
      simpa using hq
  · intro y hy henter
    rcases List.mem_append.1 hy with hy | hy
    · rcases h.closed y hy henter with hin | hdeep | hall
      · refine .inl ?_
        obtain ⟨q, hq, rfl⟩ := List.mem_map.1 hin
        rcases List.mem_cons.1 hq with rfl | hq
        · simp
        · exact List.mem_map_of_mem (List.mem_cons_of_mem _ (queue_meet_of_mem hq))
      · exact .inr (.inl (hold y hy ▸ hdeep))
      · refine .inr (.inr fun f hf => ?_)
        obtain ⟨hseen, hdepth⟩ := hall f hf
        exact ⟨List.mem_append_left _ hseen, by rwa [hold _ hseen, hold y hy]⟩
    · refine .inl ?_
      cases List.mem_singleton.1 hy
      have hin : g.enter (g.target e) = true :=
        henter.resolve_left fun hroot => hnew ((show g.target e = root from hroot) ▸ h.began.1)
      simp [BoundedSearch.meet, hin]
  · intro f hf
    rcases mem_found_meet hf with hf | rfl
    · obtain ⟨hseen, hdepth⟩ := h.listed f hf
      exact ⟨List.mem_append_left _ hseen, (hold _ hseen).trans hdepth⟩
    · exact ⟨by simp [BoundedSearch.meet], by simp⟩
  · intro y hy
    rcases List.mem_append.1 hy with hy | hy
    · rcases h.reported y hy with hroot | hsilent | ⟨f, hf, hfy⟩
      · exact .inl hroot
      · exact .inr (.inl hsilent)
      · exact .inr (.inr ⟨f, found_meet_of_mem hf, hfy⟩)
    · cases List.mem_singleton.1 hy
      by_cases hreport : g.report (g.target e) = true
      · exact .inr (.inr ⟨⟨e, x.depth + 1, extend x.path e⟩, by simp [BoundedSearch.meet, hreport], rfl⟩)
      · exact .inr (.inl (by simpa using hreport))

omit [DecidableEq ι] in
theorem Listed.meet (h : Layers g maxDepth root depth { s with queue := x :: s.queue }) (hl : Listed g root s)
    (hdeep : x.depth < maxDepth) (hnew : g.target e ∉ s.seen) : Listed g root (meet g extend x e s) := by
  have hlow : ∀ q ∈ x :: s.queue, x.depth ≤ q.depth := by
    intro q hq
    rcases List.mem_cons.1 hq with rfl | hq
    · exact le_refl _
    · exact (List.pairwise_cons.1 h.sorted).1 q hq
  have hfar : ∀ n, Leads g root n (g.target e) → x.depth + 1 ≤ n := by
    intro n hn
    by_contra hle
    have hlow' : ∀ q ∈ x :: s.queue, n ≤ q.depth := by
      intro q hq
      have := hlow q hq
      omega
    exact hnew (h.leads hlow' hn (by omega)).1
  constructor
  · intro f hf
    rcases mem_found_meet hf with hf | rfl
    · exact List.mem_append_left _ (hl.seen f hf)
    · simp [BoundedSearch.meet]
  · simp only [BoundedSearch.meet]
    split
    · rw [List.map_append]
      refine hl.once.append (List.nodup_singleton _) ?_
      rw [List.map_singleton, List.disjoint_singleton]
      intro hin
      obtain ⟨f, hf, htarget⟩ := List.mem_map.1 hin
      exact hnew (htarget ▸ hl.seen f hf)
    · exact hl.once
  · simp only [BoundedSearch.meet]
    split
    · refine List.pairwise_append.2 ⟨hl.sorted, by simp, fun f hf f' hf' => ?_⟩
      obtain ⟨hseen, hdepth⟩ := h.listed f hf
      cases List.mem_singleton.1 hf'
      exact hdepth ▸ h.near x (by simp) _ hseen
    · exact hl.sorted
  · intro f hf
    rcases mem_found_meet hf with hf | rfl
    · exact hl.shortest f hf
    · exact hfar

end Meet

/-- The invariant of the loop: the layers are complete until the list is full. -/
structure Searched (g : Graph ι β) (maxDepth limit : ℕ) (root : ι) (s : State ι β π) : Prop where
  listed : Listed g root s
  bounded : s.found.length ≤ limit
  layers : s.found.length < limit → ∃ depth, Layers g maxDepth root depth s

theorem Searched.scan {x : Item ι π} {es : List β} {depth : ι → ℕ} {s : State ι β π}
    (h : Layers g maxDepth root depth { s with queue := x :: s.queue }) (hl : Listed g root s)
    (hdeep : x.depth < maxDepth) (hlimit : s.found.length < limit)
    (hes : ∀ e ∈ g.edges x.node, e ∈ es ∨ g.target e ∈ s.seen) :
    Searched g maxDepth limit root (scan g extend limit x es s) := by
  induction es generalizing s depth with
  | nil =>
    have hx : depth x.node = x.depth := (h.queued x (by simp)).2
    refine ⟨hl, hlimit.le, fun _ => ⟨depth, h.began, fun q hq => h.queued q (List.mem_cons_of_mem _ hq),
      (List.pairwise_cons.1 h.sorted).2, fun q hq => h.near q (List.mem_cons_of_mem _ hq), ?_, h.listed, h.reported⟩⟩
    intro y hy henter
    rcases h.closed y hy henter with hin | hrest
    · rcases List.mem_cons.1 hin with rfl | hin
      · refine .inr (.inr fun e he => ?_)
        have hseen := (hes e he).resolve_left (by simp)
        exact ⟨hseen, hx ▸ h.near x (by simp) _ hseen⟩
      · exact .inl hin
    · exact .inr hrest
  | cons e es ih =>
    by_cases hseen : g.target e ∈ s.seen
    · rw [scan_met hseen]
      refine ih h hl hlimit fun f hf => ?_
      rcases hes f hf with hf | hf
      · rcases List.mem_cons.1 hf with rfl | hf
        · exact .inr hseen
        · exact .inl hf
      · exact .inr hf
    · have hmet : Listed g root (BoundedSearch.meet g extend x e s) := hl.meet h hdeep hseen
      have hlength : (BoundedSearch.meet g extend x e s).found.length ≤ s.found.length + 1 := by
        simp only [BoundedSearch.meet]
        split <;> simp
      have hsilent : g.report (g.target e) = false → (BoundedSearch.meet g extend x e s).found = s.found := by
        intro hreport
        simp [BoundedSearch.meet, hreport]
      rw [scan_new hseen]
      split
      · rename_i hfull
        exact ⟨⟨hmet.seen, hmet.once, hmet.sorted, hmet.shortest⟩, hlength.trans hlimit,
          fun hless => absurd hless (Nat.not_lt.2 hfull.2)⟩
      · rename_i hgo
        refine ih (h.meet hseen) hmet ?_ fun f hf => ?_
        · cases hreport : g.report (g.target e) with
          | false => exact (hsilent hreport).symm ▸ hlimit
          | true => exact Nat.lt_of_not_le fun hle => hgo ⟨hreport, hle⟩
        · rcases hes f hf with hf | hf
          · rcases List.mem_cons.1 hf with rfl | hf
            · exact .inr (by simp [BoundedSearch.meet])
            · exact .inl hf
          · exact .inr (List.mem_append_left _ hf)

theorem Searched.step {s : State ι β π} (hdone : ¬ Done limit s) (h : Searched g maxDepth limit root s) :
    Searched g maxDepth limit root (step g extend maxDepth limit s) := by
  have hlimit : s.found.length < limit := Nat.lt_of_not_le fun hle => hdone (.inr hle)
  obtain ⟨depth, hl⟩ := h.layers hlimit
  unfold BoundedSearch.step
  cases hqueue : s.queue with
  | nil => exact absurd (.inl hqueue) hdone
  | cons x rest =>
    dsimp only
    have hhead : Layers g maxDepth root depth { { s with queue := rest } with queue := x :: rest } := by
      rw [← hqueue]
      exact hl
    have hlisted : Listed g root { s with queue := rest } :=
      ⟨h.listed.seen, h.listed.once, h.listed.sorted, h.listed.shortest⟩
    split
    · rename_i hdeep
      have hx : depth x.node = x.depth := (hhead.queued x (by simp)).2
      refine ⟨hlisted, h.bounded, fun _ => ⟨depth, hhead.began,
        fun q hq => hhead.queued q (List.mem_cons_of_mem _ hq), (List.pairwise_cons.1 hhead.sorted).2,
        fun q hq => hhead.near q (List.mem_cons_of_mem _ hq), ?_, hhead.listed, hhead.reported⟩⟩
      intro y hy henter
      rcases hhead.closed y hy henter with hin | hrest
      · rcases List.mem_cons.1 hin with rfl | hin
        · exact .inr (.inl (hx ▸ hdeep))
        · exact .inl hin
      · exact .inr hrest
    · rename_i hdeep
      exact .scan hhead hlisted (Nat.lt_of_not_le hdeep) hlimit fun e he => .inl he

end Layers

section Result
variable {root : ι} {path : π} {n : ℕ} {t : State ι β π}

theorem search_complete (h : search g extend maxDepth limit n (start root path) = some t) :
    Listed g root t ∧ t.found.length ≤ limit ∧ (t.found.length = limit ∨
      ∀ n ≤ maxDepth, ∀ x, Leads g root n x → x ≠ root → g.report x = true →
        ∃ f ∈ t.found, g.target f.edge = x) := by
  obtain ⟨hsearched, hdone⟩ := search_keeps (I := Searched g maxDepth limit root)
    (fun s hgo hs => hs.step hgo) h
    ⟨listed_start path, Nat.zero_le _, fun _ => ⟨_, layers_start path⟩⟩
  refine ⟨hsearched.listed, hsearched.bounded, ?_⟩
  rcases Nat.lt_or_eq_of_le hsearched.bounded with hless | hfull
  · refine .inr fun n hn x hx hroot hreport => ?_
    obtain ⟨depth, hl⟩ := hsearched.layers hless
    have hqueue : t.queue = [] := hdone.resolve_right (Nat.not_le.2 hless)
    rcases hl.reported x (hl.leads (by simp [hqueue]) hx hn).1 with h | h | h
    · exact absurd h hroot
    · simp [h] at hreport
    · exact h
  · exact .inl hfull

theorem search_sound (h : search g extend maxDepth limit n (start root path) = some t) :
    Sound g extend maxDepth root path t :=
  (search_keeps (fun _ _ hs => hs.step) h sound_start).1

theorem search_reports (h : search g extend maxDepth limit n (start root path) = some t) (hlimit : 0 < limit) :
    t.found ≠ [] ↔ ∃ n ≤ maxDepth, ∃ x, Leads g root n x ∧ x ≠ root ∧ g.report x = true := by
  constructor
  · intro hfound
    obtain ⟨f, hf⟩ := List.exists_mem_of_ne_nil _ hfound
    obtain ⟨hdepth, ⟨es, hes⟩, hreport, hroot⟩ := (search_sound h).found f hf
    have hleads := hes.trail.leads
    rw [hes.length] at hleads
    exact ⟨f.depth, hdepth, _, hleads, hroot, hreport⟩
  · intro ⟨n, hn, x, hx, hroot, hreport⟩ hfound
    rcases (search_complete h).2.2 with hfull | hall
    · simp only [hfound, List.length_nil] at hfull
      omega
    · obtain ⟨f, hf, _⟩ := hall n hn x hx hroot hreport
      simp [hfound] at hf

end Result
end Mports.BoundedSearch
