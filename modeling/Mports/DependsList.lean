import Mports.KeyedWalk
import Mports.PerlText

set_option autoImplicit false

namespace Mports.DependsList
open KeyedWalk
open Relation (ReflTransGen)

/-- What `getopts "fmrw"` sets. -/
structure Flags where
  flavors : Bool := false
  recursive : Bool := false
  missing : Bool := false
  requiresWrkdir : Bool := false
  deriving DecidableEq, Repr

/-- `${FLAVOR:-}` is empty where no flavor is asked for. -/
structure Node where
  dir : List Char
  flavor : List Char
  deriving DecidableEq, Repr

/-- The ports tree as the script sees it. `make` has the words that `make -V_UNIFIED_DEPENDS`
prints in the directory under the flavor, `existing` what the package tool prints for `-m`. -/
structure Setup where
  portsdir : List Char
  pkgname : List Char
  dirs : List (List Char)
  words : ∀ d ∈ dirs, d ≠ [] ∧ ' ' ∉ d
  make : Node → List (List Char)
  wrkdir : Node → List Char
  existing : List Char

/-- `IFS=:` and `set -- ${_dep}`: a colon at the end begins no field. -/
def fields (dep : List Char) : List (List Char) :=
  let parts := dep.splitOn ':'
  if parts.getLast? = some [] then parts.dropLast else parts

/-- `${d%@*}` and `${d##*@}`. -/
def beforeAt (d : List Char) : List Char := (d.reverse.dropWhile (· ≠ '@')).tail.reverse
def afterAt (d : List Char) : List Char := (d.reverse.takeWhile (· ≠ '@')).reverse

/-- The directory and the flavor of a dependency; nothing when `$2` is not set. -/
def parse (s : Setup) (dep : List Char) : Option Node :=
  match fields dep with
  | _ :: two :: _ =>
    let d := if two.head? = some '/' then two else s.portsdir ++ '/' :: two
    -- an '@' with a slash after it is part of the path
    if '@' ∉ d ∨ '/' ∈ d.dropWhile (· ≠ '@') then some ⟨d, []⟩
    else some ⟨beforeAt d, afterAt d⟩
  | _ => none

def portDisplay (fl : Flags) (p : Node) : List Char :=
  if fl.flavors ∧ p.flavor ≠ [] then p.dir ++ '@' :: p.flavor else p.dir

/-- `case " ${list} " in *\ ${word}\ *)`. -/
def Among (list word : List Char) : Prop := (' ' :: word ++ [' ']) <:+: (' ' :: list ++ [' '])

instance (list word : List Char) : Decidable (Among list word) := inferInstanceAs (Decidable (_ <:+: _))

structure State where
  checked : List Char
  out : List (List Char)
  warnings : List (List Char)
  deriving DecidableEq, Repr

/-- `set -u` ends the script at a parameter that is not set. -/
inductive Stop where
  | unset | fuel
  deriving DecidableEq, Repr

def nonExistent (s : Setup) (display : List Char) : List Char :=
  s.pkgname ++ ": \"".toList ++ display ++ "\" non-existent -- dependency list incomplete".toList

/-- `${d#${PORTSDIR}/}`. -/
def origin (s : Setup) (d : List Char) : List Char :=
  if s.portsdir ++ ['/'] <+: d then d.drop (s.portsdir.length + 1) else d

/-- One round of the loop in `check_dep`; `rec` is the function itself. -/
def checkOne (s : Setup) (fl : Flags) (rec : List (List Char) → State → Except Stop State) (st : State)
    (dep : List Char) : Except Stop State :=
  match parse s dep with
  | none => .error .unset
  | some p =>
    if Among st.checked p.dir then .ok st
    else
      let st := { st with checked := st.checked ++ ' ' :: p.dir }
      if p.dir ∉ s.dirs then
        .ok { st with warnings := st.warnings ++ [nonExistent s (portDisplay fl p)] }
      else if fl.missing ∧ Among s.existing (origin s p.dir) then .ok st
      else
        let showDep := !fl.requiresWrkdir || decide (s.wrkdir p ∈ s.dirs)
        let st := if showDep then { st with out := st.out ++ [portDisplay fl p] } else st
        if fl.recursive ∨ fl.requiresWrkdir ∧ showDep then rec (s.make p) st else .ok st

/-- `check_dep`; the fuel bounds how deep it calls itself. -/
def checkDep (s : Setup) (fl : Flags) : ℕ → List (List Char) → State → Except Stop State
  | 0, _, _ => .error .fuel
  | n + 1, deps, st => deps.foldlM (checkOne s fl (checkDep s fl n)) st

def dependsList (s : Setup) (fl : Flags) (deps : List (List Char)) : Except Stop State :=
  checkDep s fl (s.dirs.length + 1) deps ⟨[], [], []⟩

/-- `-f -r`. -/
def flavoredClosure : Flags := { flavors := true, recursive := true }

section Words

theorem among_iff {ds : List (List Char)} {d : List Char} (hds : ∀ x ∈ ds, ' ' ∉ x) (hd : ' ' ∉ d) (hne : d ≠ []) :
    Among (ds.flatMap (' ' :: ·)) d ↔ d ∈ ds := by
  have hshift : ∀ ds : List (List Char), ds.flatMap (' ' :: ·) ++ [' '] = ' ' :: ds.flatMap (· ++ [' ']) := by
    intro ds
    induction ds with
    | nil => rfl
    | cons x xs ih => simp [ih]
  unfold Among
  rw [List.cons_append, List.cons_append, hshift]
  constructor
  · intro ⟨front, back, heq⟩
    have hsplit : front ++ ' ' :: (d ++ ' ' :: back) = ' ' :: ' ' :: ds.flatMap (· ++ [' ']) := by
      simpa using heq
    have hparts := congrArg (List.splitOn ' ') hsplit
    rw [List.splitOn_append_cons_self, List.splitOn_append_cons_self_of_not_mem hd,
      List.splitOn_cons_eq_if_modifyHead, if_pos (by simp), List.splitOn_cons_eq_if_modifyHead,
      if_pos (by simp)] at hparts
    have hmem : d ∈ [] :: [] :: (ds.flatMap (· ++ [' '])).splitOn ' ' := hparts ▸ by simp
    simp only [List.mem_cons, hne, false_or] at hmem
    exact (PerlText.of_mem_lines hds hmem).resolve_left hne
  · intro hmem
    obtain ⟨front, back, rfl⟩ := List.append_of_mem hmem
    refine ⟨' ' :: front.flatMap (' ' :: ·), back.flatMap (· ++ [' ']), ?_⟩
    simpa using congrArg (· ++ (d ++ ' ' :: back.flatMap (· ++ [' ']))) (hshift front)

end Words

section Closure
variable {s : Setup}

/-- The word is a dependency on a directory that is there. -/
def Good (s : Setup) (w : List Char) : Prop := ∃ p, parse s w = some p ∧ p.dir ∈ s.dirs

structure AllExist (s : Setup) (deps : List (List Char)) : Prop where
  start : ∀ w ∈ deps, Good s w
  make : ∀ p : Node, p.dir ∈ s.dirs → ∀ w ∈ s.make p, Good s w

def DependsOn (s : Setup) (p q : Node) : Prop := ∃ w ∈ s.make p, parse s w = some q

def Reaches (s : Setup) (deps : List (List Char)) (q : Node) : Prop :=
  ∃ w ∈ deps, ∃ p, parse s w = some p ∧ ReflTransGen (DependsOn s) p q

/-- The script ends with one line for each directory and flavor that is reached. -/
def Exact (s : Setup) (deps : List (List Char)) : Prop :=
  ∃ st, dependsList s flavoredClosure deps = .ok st ∧ ∃ nodes : List Node, nodes.Nodup ∧
    (∀ q, q ∈ nodes ↔ Reaches s deps q) ∧ st.out = nodes.map (portDisplay flavoredClosure)

def OneFlavor (s : Setup) (deps : List (List Char)) : Prop :=
  ∀ p q, Reaches s deps p → Reaches s deps q → p.dir = q.dir → p = q

def needs (s : Setup) (p : Node) : List Node := (s.make p).filterMap (parse s)

def encode (seen : List Node) : State :=
  ⟨seen.flatMap fun p => ' ' :: p.dir, seen.map (portDisplay flavoredClosure), []⟩

theorem edge_iff {p q : Node} : Edge (needs s) p q ↔ DependsOn s p q := by
  simp [Edge, needs, DependsOn]

theorem edge_eq : Edge (needs s) = DependsOn s := by
  funext p q
  exact propext edge_iff

theorem among_seen {seen : List Node} {p : Node} (hseen : ∀ q ∈ seen, q.dir ∈ s.dirs) (hp : p.dir ∈ s.dirs) :
    Among (encode seen).checked p.dir ↔ Seen Node.dir seen p := by
  have hflat : (encode seen).checked = (seen.map Node.dir).flatMap (' ' :: ·) := by
    simp [encode, List.flatMap_map]
  rw [hflat, among_iff _ (s.words _ hp).2 (s.words _ hp).1, Seen]
  intro d hd
  obtain ⟨q, hq, rfl⟩ := List.mem_map.1 hd
  exact (s.words _ (hseen q hq)).2

theorem checkOne_seen {rec : List (List Char) → State → Except Stop State} {seen : List Node} {w : List Char}
    {p : Node} (hparse : parse s w = some p) (hseen : ∀ q ∈ seen, q.dir ∈ s.dirs) (hp : p.dir ∈ s.dirs)
    (h : Seen Node.dir seen p) : checkOne s flavoredClosure rec (encode seen) w = .ok (encode seen) := by
  simp only [checkOne, hparse, if_pos ((among_seen hseen hp).2 h)]

theorem checkOne_new {rec : List (List Char) → State → Except Stop State} {seen : List Node} {w : List Char}
    {p : Node} (hparse : parse s w = some p) (hseen : ∀ q ∈ seen, q.dir ∈ s.dirs) (hp : p.dir ∈ s.dirs)
    (h : ¬ Seen Node.dir seen p) :
    checkOne s flavoredClosure rec (encode seen) w = rec (s.make p) (encode (seen ++ [p])) := by
  have hnew : ¬ Among (encode seen).checked p.dir := fun ha => h ((among_seen hseen hp).1 ha)
  simp only [checkOne, hparse, if_neg hnew]
  simp [hp, flavoredClosure, encode]

theorem checkDep_cons (fl : Flags) (n : ℕ) (w : List Char) (deps : List (List Char)) (st : State) :
    checkDep s fl (n + 1) (w :: deps) st =
      checkOne s fl (checkDep s fl n) st w >>= checkDep s fl (n + 1) deps :=
  List.foldlM_cons

section Exists
variable (exist : ∀ p : Node, p.dir ∈ s.dirs → ∀ w ∈ s.make p, Good s w)
include exist

theorem good_needs {p q : Node} (hp : p.dir ∈ s.dirs) (hq : q ∈ needs s p) : q.dir ∈ s.dirs := by
  obtain ⟨w, hw, hparse⟩ := List.mem_filterMap.1 hq
  obtain ⟨p', hp', hdir⟩ := exist p hp w hw
  rw [hparse] at hp'
  cases hp'
  exact hdir

theorem path_dirs {d x : Node} (hd : d.dir ∈ s.dirs) (h : ReflTransGen (Edge (needs s)) d x) : x.dir ∈ s.dirs := by
  induction h with
  | refl => exact hd
  | tail _ hyz ih => exact good_needs exist ih hyz

theorem walk_dirs {n : ℕ} {todo seen : List Node} (htodo : ∀ d ∈ todo, d.dir ∈ s.dirs)
    (hseen : ∀ q ∈ seen, q.dir ∈ s.dirs) : ∀ q ∈ walk (needs s) Node.dir n todo seen, q.dir ∈ s.dirs := by
  intro q hq
  rcases walk_sound _ _ _ _ _ hq with hq | ⟨d, hd, hdq⟩
  · exact hseen q hq
  · exact path_dirs exist (htodo d hd) hdq

theorem checkDep_walk (n : ℕ) {deps : List (List Char)} (good : ∀ w ∈ deps, Good s w) {seen : List Node}
    (hseen : ∀ q ∈ seen, q.dir ∈ s.dirs) (hn : unseen Node.dir s.dirs seen < n) :
    checkDep s flavoredClosure n deps (encode seen) =
      .ok (encode (walk (needs s) Node.dir n (deps.filterMap (parse s)) seen)) := by
  induction n generalizing deps seen with
  | zero => omega
  | succ n ih =>
    induction deps generalizing seen with
    | nil => rfl
    | cons w deps ihd =>
      obtain ⟨p, hparse, hp⟩ := good w (by simp)
      have hdeps : ∀ w ∈ deps, Good s w := fun w hw => good w (List.mem_cons_of_mem _ hw)
      rw [checkDep_cons, List.filterMap_cons_some hparse, walk_cons]
      by_cases h : Seen Node.dir seen p
      · have hvisit : visit (needs s) Node.dir n seen p = seen := if_pos h
        rw [checkOne_seen hparse hseen hp h, hvisit]
        exact ihd hdeps hseen hn
      · have hvisit : visit (needs s) Node.dir n seen p = walk (needs s) Node.dir n (needs s p) (seen ++ [p]) :=
          if_neg h
        have hless := unseen_lt Node.dir s.dirs hp h
        have hnext : ∀ q ∈ seen ++ [p], q.dir ∈ s.dirs := by
          intro q hq
          rcases List.mem_append.1 hq with hq | hq
          · exact hseen q hq
          · exact List.mem_singleton.1 hq ▸ hp
        have hkeeps := unseen_mono Node.dir s.dirs (visit_keeps (needs s) Node.dir n seen p)
        rw [hvisit] at hkeeps
        have hinto := ih (exist p hp) hnext (by omega)
        rw [checkOne_new hparse hseen hp h, hinto, hvisit]
        refine ihd hdeps (walk_dirs exist (fun d hd => good_needs exist hp hd) hnext) ?_
        exact Nat.lt_of_le_of_lt hkeeps hn

end Exists

variable {deps : List (List Char)}

def visited (s : Setup) (deps : List (List Char)) : List Node :=
  walk (needs s) Node.dir (s.dirs.length + 1) (deps.filterMap (parse s)) []

theorem unseen_dirs (s : Setup) : unseen Node.dir s.dirs [] < s.dirs.length + 1 :=
  Nat.lt_succ_of_le (unseen_le Node.dir s.dirs [])

theorem dependsList_eq (exist : AllExist s deps) :
    dependsList s flavoredClosure deps = .ok (encode (visited s deps)) :=
  checkDep_walk exist.make _ exist.start (by simp) (unseen_dirs s)

theorem visited_dirs (s : Setup) (deps : List (List Char)) : ((visited s deps).map Node.dir).Nodup :=
  walk_nodup _ _ _ _ List.nodup_nil

theorem reaches_iff {q : Node} : Reaches s deps q ↔
    ∃ d ∈ deps.filterMap (parse s), ReflTransGen (Edge (needs s)) d q := by
  simp only [Reaches, edge_eq, List.mem_filterMap]
  constructor
  · exact fun ⟨w, hw, p, hp, h⟩ => ⟨p, ⟨w, hw, hp⟩, h⟩
  · exact fun ⟨p, ⟨w, hw, hp⟩, h⟩ => ⟨w, hw, p, hp, h⟩

theorem reaches_of_visited {q : Node} (h : q ∈ visited s deps) : Reaches s deps q := by
  rw [reaches_iff]
  exact (walk_sound _ _ _ _ _ h).resolve_left (by simp)

theorem seen_of_reaches (exist : AllExist s deps) (one : OneFlavor s deps) {q : Node} (h : Reaches s deps q) :
    q ∈ visited s deps := by
  have hstart : ∀ d ∈ deps.filterMap (parse s), d.dir ∈ s.dirs := by
    intro d hd
    obtain ⟨w, hw, hparse⟩ := List.mem_filterMap.1 hd
    obtain ⟨p, hp, hdir⟩ := exist.start w hw
    rw [hparse] at hp
    cases hp
    exact hdir
  obtain ⟨htodo, hclosed⟩ := walk_complete (needs s) Node.dir s.dirs (s.dirs.length + 1)
    (deps.filterMap (parse s)) [] (unseen_dirs s) fun d hd x hx => path_dirs exist.make (hstart d hd) hx
  have hone : ∀ x, Reaches s deps x → Seen Node.dir (visited s deps) x → x ∈ visited s deps := by
    intro x hx hs
    obtain ⟨y, hy, hdir⟩ := List.mem_map.1 hs
    exact one y x (reaches_of_visited hy) hx hdir ▸ hy
  obtain ⟨d, hd, hdq⟩ := reaches_iff.1 h
  clear h
  induction hdq with
  | refl => exact hone d (reaches_iff.2 ⟨d, hd, .refl⟩) (htodo d hd)
  | @tail y z hdy hyz ih =>
    exact hone z (reaches_iff.2 ⟨d, hd, hdy.tail hyz⟩) (hclosed y ih (by simp) z hyz)

/-- `checked` has the directories alone, so a directory needed in two flavors is listed
in the one that comes first. -/
theorem dependsList_exact_iff (exist : AllExist s deps) : Exact s deps ↔ OneFlavor s deps := by
  constructor
  · rintro ⟨st, hst, nodes, hnodup, hnodes, hout⟩
    rw [dependsList_eq exist] at hst
    cases hst
    -- as many lines as ports visited, so these are all that is reached
    have hlength : nodes.length = (visited s deps).length := by
      simpa [encode] using (congrArg List.length hout).symm
    have hvisited : (visited s deps).Nodup := .of_map _ (visited_dirs s deps)
    have hsub : (visited s deps).Subperm nodes :=
      hvisited.subperm fun q hq => (hnodes q).2 (reaches_of_visited hq)
    have hperm : (visited s deps).Perm nodes := hsub.perm_of_length_le hlength.le
    intro p q hp hq hdir
    exact List.inj_on_of_nodup_map (visited_dirs s deps) (hperm.mem_iff.2 ((hnodes p).2 hp))
      (hperm.mem_iff.2 ((hnodes q).2 hq)) hdir
  · intro one
    exact ⟨_, dependsList_eq exist, visited s deps, .of_map _ (visited_dirs s deps),
      fun q => ⟨reaches_of_visited, seen_of_reaches exist one⟩, rfl⟩

end Closure

section Samples

def samplePorts : Setup where
  portsdir := "/usr/mports".toList
  pkgname := "site-1.0".toList
  dirs := ["/usr/mports/devel/lib".toList]
  words := by decide +kernel
  make := fun _ => ["lib>0:devel/lib@py39".toList]
  wrkdir := fun _ => []
  existing := []

theorem lib_good : ∀ w ∈ ["lib>0:devel/lib@py39".toList], Good samplePorts w := by
  intro w hw
  obtain rfl := List.mem_singleton.1 hw
  exact ⟨⟨"/usr/mports/devel/lib".toList, "py39".toList⟩, by decide +kernel, List.mem_singleton_self _⟩

theorem lib_listed : Exact samplePorts ["lib>0:devel/lib@py39".toList] := by
  refine (dependsList_exact_iff ⟨lib_good, fun _ _ => lib_good⟩).2 ?_
  have hlib : ∀ q, Reaches samplePorts ["lib>0:devel/lib@py39".toList] q →
      parse samplePorts "lib>0:devel/lib@py39".toList = some q := by
    rintro q ⟨w, hw, p, hp, hpq⟩
    induction hpq with
    | refl => exact List.mem_singleton.1 hw ▸ hp
    | tail _ hyz _ =>
      obtain ⟨w', hw', hparse⟩ := hyz
      exact List.mem_singleton.1 hw' ▸ hparse
  intro p q hp hq _
  exact Option.some_inj.1 ((hlib p hp).symm.trans (hlib q hq))

/-- Asked for in another flavor, it is listed in that one only, and both are reached. -/
theorem flavor_unlisted :
    dependsList samplePorts flavoredClosure ["lib>0:devel/lib@py311".toList] =
      .ok (encode [⟨"/usr/mports/devel/lib".toList, "py311".toList⟩]) ∧
    Reaches samplePorts ["lib>0:devel/lib@py311".toList] ⟨"/usr/mports/devel/lib".toList, "py39".toList⟩ ∧
    ¬ Exact samplePorts ["lib>0:devel/lib@py311".toList] := by
  have hfirst : parse samplePorts "lib>0:devel/lib@py311".toList =
      some ⟨"/usr/mports/devel/lib".toList, "py311".toList⟩ := by decide +kernel
  have hsecond : parse samplePorts "lib>0:devel/lib@py39".toList =
      some ⟨"/usr/mports/devel/lib".toList, "py39".toList⟩ := by decide +kernel
  have hrun : dependsList samplePorts flavoredClosure ["lib>0:devel/lib@py311".toList] =
      .ok (encode [⟨"/usr/mports/devel/lib".toList, "py311".toList⟩]) := by decide +kernel
  have hreach : Reaches samplePorts ["lib>0:devel/lib@py311".toList]
      ⟨"/usr/mports/devel/lib".toList, "py39".toList⟩ :=
    ⟨_, List.mem_singleton_self _, _, hfirst, .single ⟨_, List.mem_singleton_self _, hsecond⟩⟩
  refine ⟨hrun, hreach, ?_⟩
  rintro ⟨st, hst, nodes, _, hnodes, hout⟩
  rw [hrun] at hst
  cases hst
  have hline := List.mem_map_of_mem (f := portDisplay flavoredClosure) ((hnodes _).2 hreach)
  rw [← hout] at hline
  revert hline
  decide +kernel

end Samples
end Mports.DependsList
