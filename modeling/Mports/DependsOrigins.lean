import Mports.ShellText
import Mathlib.Data.List.Infix

set_option autoImplicit false

namespace Mports.DependsOrigins
open ShellText

/-- What the shell leaves as it is when it splits a text and looks for path names. -/
def isPlain (c : Char) : Bool := !isBlank c && c ≠ '*' && c ≠ '?' && c ≠ '['

/-- `glob` is what the shell makes of a word. The trees are words. -/
structure Setup where
  overlays : List (List Char)
  portsdir : List Char
  isFile : List Char → Bool
  depType : List Char
  dependsTarget : List Char
  dependsArgs : List Char
  dependsPreclean : Bool
  dependsClean : Bool
  usePackageDepends : Bool
  usePackageDependsOnly : Bool
  strictDepends : Bool
  glob : List Char → List (List Char)
  glob_plain : ∀ word, (∀ c ∈ word, isPlain c) → glob word = [word]

inductive Fct where
  | findLib | findPackage | findFile | findFilePath | nothing
  deriving DecidableEq, Repr

/-- The programs that the script runs, all with FLAVOR in their environment or without it.
`none` is a failure that ends the script. -/
structure Host (W : Type) where
  check : W → Option (List Char) → Fct → List Char → Option Bool
  make : W → Option (List Char) → List Char → List Char → List Char → Option W
  pkgfile : W → Option (List Char) → List Char → List Char → List Char
  readable : W → List Char → Bool
  pkgAdd : W → Option (List Char) → List Char → Option W

structure Use where
  origin : List Char
  flavor : Option (List Char)
  deriving DecidableEq, Repr

structure State (W : Type) where
  world : W
  flavor : Option (List Char)
  anynotfound : Bool
  err : Bool
  uses : List Use

def under (dir name : List Char) : List Char := dir ++ '/' :: name

def hasMakefile (s : Setup) (dir : List Char) : Bool := s.isFile (under dir "Makefile".toList)

/-- `orig` after the loop over the overlays and PORTSDIR. -/
def search (s : Setup) (origin : List Char) : Option (List Char) → List (List Char) → Option (List Char)
  | orig, [] => orig
  | _, overlay :: overlays =>
    let orig := under overlay origin
    if hasMakefile s orig then some orig else search s origin (some orig) overlays

def located (s : Setup) (origin : List Char) : Option (List Char) :=
  if origin.head? = some '/' then some origin else search s origin none (s.overlays ++ [s.portsdir])

/-- `${origin##*@}` and `${origin%@*}`, where there is one. -/
def afterLast (origin : List Char) : List Char := (origin.reverse.takeWhile (· ≠ '@')).reverse
def beforeLast (origin : List Char) : List Char := (origin.reverse.dropWhile (· ≠ '@')).tail.reverse

/-- The `case` for `*@*/*` and `*@*`. -/
def flavored (origin : List Char) : Use :=
  if '/' ∈ origin.dropWhile (· ≠ '@') then ⟨origin, none⟩
  else if '@' ∈ origin then ⟨beforeLast origin, some (afterLast origin)⟩
  else ⟨origin, none⟩

/-- `$1`, `$2` and `${3:-}`. -/
def parts : List (List Char) → Option (List Char × List Char × List Char)
  | [pattern, origin] => some (pattern, origin, [])
  | [pattern, origin, last] => some (pattern, origin, last)
  | _ => none

def noCleanDepends (args : List Char) : List Char :=
  (if args = [] then [] else args ++ [' ']) ++ "NOCLEANDEPENDS=yes".toList

def targetAndArgs (s : Setup) (last : List Char) : List Char × List Char :=
  if last = [] then (s.dependsTarget, s.dependsArgs)
  else
    let target := if last = "fetch".toList then "checksum".toList else last
    let pre := if s.dependsPreclean then ("clean ".toList ++ target, noCleanDepends s.dependsArgs) else (target, s.dependsArgs)
    if s.dependsClean then (pre.1 ++ " clean".toList, noCleanDepends pre.2) else pre

def fctOf (depType pattern : List Char) : Option Fct :=
  if depType = "LIB_DEPENDS".toList then
    if "lib".toList <+: pattern ∧ ".so".toList <:+: pattern.drop 3 then some .findLib else none
  else if '>' ∈ pattern ∨ '<' ∈ pattern ∨ '=' ∈ pattern then some .findPackage
  else if pattern = "/nonexistent".toList then some .nothing
  else if pattern.head? = some '/' then some .findFile
  else some .findFilePath

section Loop
variable {W : Type} (s : Setup) (h : Host W)

def runFct (w : W) (flavor : Option (List Char)) (fct : Fct) (pattern : List Char) : Option Bool :=
  if fct = .nothing then some false else h.check w flavor fct pattern

def installDepends (w : W) (flavor : Option (List Char)) (origin target args : List Char) : Option W :=
  if !s.usePackageDepends && !s.usePackageDependsOnly then h.make w flavor origin target args
  else
    let pkgfile := h.pkgfile w flavor origin args
    if h.readable w pkgfile && target = s.dependsTarget then h.pkgAdd w flavor pkgfile
    else if s.usePackageDependsOnly && target = s.dependsTarget then none
    else h.make w flavor origin target args

def provide (st : State W) (pattern origin last : List Char) : Except (State W) (State W) :=
  let (target, args) := targetAndArgs s last
  match fctOf s.depType pattern with
  | none => .ok { st with err := true }
  | some fct =>
    match runFct h st.world st.flavor fct pattern with
    | none => .error st
    | some true => .ok st
    | some false =>
      let st := { st with anynotfound := st.anynotfound || pattern ≠ "/nonexistent".toList }
      if !hasMakefile s origin then .ok { st with err := true }
      else
        match installDepends s h st.world st.flavor origin target args with
        | none => .error st
        | some w =>
          let st := { st with world := w }
          if fct = .nothing then .ok st
          else
            match runFct h st.world st.flavor fct pattern with
            | some true => .ok st
            | _ => .error st

def round (st : State W) (line : List Char) : Except (State W) (State W) :=
  -- ensure we never leak flavors
  let st := { st with flavor := none }
  match parts ((ifsFields ':' line).flatMap s.glob) with
  | none => .ok { st with err := true }
  | some (pattern, origin, last) =>
    if pattern = [] ∨ origin = [] then .ok { st with err := true }
    else
      match located s origin with
      | none => .error st
      | some orig =>
        let use := flavored orig
        provide s h { st with flavor := use.flavor, uses := st.uses ++ [use] } pattern use.origin last

def rounds (st : State W) (lines : List (List Char)) : Except (State W) (State W) := lines.foldlM (round s h) st

def doDepends (w : W) (flavor : Option (List Char)) (lines : List (List Char)) : State W × ℕ :=
  match rounds s h ⟨w, flavor, false, false, []⟩ lines with
  | .error st => (st, 1)
  | .ok st => (st, if st.err || (s.strictDepends && st.anynotfound) then 1 else 0)

end Loop

/-- A dependency `pattern:origin[@flavor][:target]`. -/
structure Line where
  pattern : List Char
  origin : List Char
  flavor : Option (List Char)
  target : Option (List Char)
  pattern_plain : pattern ≠ [] ∧ ∀ c ∈ pattern, isPlain c ∧ c ≠ ':'
  origin_plain : origin ≠ [] ∧ ∀ c ∈ origin, isPlain c ∧ c ≠ ':'
  flavor_plain : ∀ f ∈ flavor, ∀ c ∈ f, isPlain c ∧ c ≠ ':' ∧ c ≠ '@' ∧ c ≠ '/'
  target_plain : ∀ t ∈ target, ∀ c ∈ t, isPlain c ∧ c ≠ ':'
  relative : origin.head? ≠ some '/'
  -- else it would be a flavor
  name_plain : '@' ∉ origin.reverse.takeWhile (· ≠ '/')

def Line.suffixed (line : Line) : List Char := line.origin ++ line.flavor.elim [] ('@' :: ·)

def Line.text (line : Line) : List Char :=
  line.pattern ++ ':' :: (line.suffixed ++ line.target.elim [] (':' :: ·))

def firstTree (s : Setup) (origin : List Char) : List Char :=
  ((s.overlays ++ [s.portsdir]).find? fun tree => hasMakefile s (under tree origin)).getD s.portsdir

def Line.expected (s : Setup) (line : Line) : Use := ⟨under (firstTree s line.origin) line.origin, line.flavor⟩

/-- Where there is a flavor, the search with it must find the tree that the search without it
finds, and no '@' may stand before it. -/
def Line.Findable (s : Setup) (line : Line) : Prop :=
  line.flavor ≠ none → firstTree s line.suffixed = firstTree s line.origin ∧
    '@' ∉ firstTree s line.origin ∧ '@' ∉ line.origin

section Search
variable {s : Setup}

theorem search_eq (origin : List Char) (orig : Option (List Char)) (trees : List (List Char)) (last : List Char) :
    search s origin orig (trees ++ [last]) =
      some (under (((trees ++ [last]).find? fun tree => hasMakefile s (under tree origin)).getD last) origin) := by
  induction trees generalizing orig with
  | nil =>
    simp only [List.nil_append, search, List.find?_cons]
    split_ifs with hfile
    · simp [hfile]
    · simp [hfile]
  | cons tree trees ih =>
    simp only [List.cons_append, search, List.find?_cons]
    split_ifs with hfile
    · simp [hfile]
    · simp [hfile, ih]

theorem located_relative {origin : List Char} (h : origin.head? ≠ some '/') :
    located s origin = some (under (firstTree s origin) origin) := by
  rw [located, if_neg h, search_eq]
  rfl

end Search

section Flavors

theorem slash_after_iff (dir : List Char) {name : List Char} (h : '/' ∉ name) :
    '/' ∈ (under dir name).dropWhile (· ≠ '@') ↔ '@' ∈ dir := by
  rw [under, List.dropWhile_append]
  by_cases hdir : '@' ∈ dir
  · have hsome : dir.dropWhile (· ≠ '@') ≠ [] := by
      intro hnil
      have hall := List.dropWhile_eq_nil_iff.1 hnil '@' hdir
      simp at hall
    rw [if_neg (by simpa using hsome)]
    simp [hdir]
  · have hnone : dir.dropWhile (· ≠ '@') = [] := by
      rw [List.dropWhile_eq_nil_iff]
      intro c hc
      refine decide_eq_true ?_
      rintro rfl
      exact hdir hc
    rw [hnone, if_pos List.isEmpty_nil, List.dropWhile_cons_of_pos (by decide), iff_false_right hdir]
    exact fun hslash => h ((List.dropWhile_sublist _).subset hslash)

theorem under_component (tree origin : List Char) (h : '@' ∉ origin.reverse.takeWhile (· ≠ '/')) :
    ∃ dir name, under tree origin = under dir name ∧ '/' ∉ name ∧ '@' ∉ name ∧
      ('@' ∈ dir ↔ '@' ∈ tree ∨ '@' ∈ origin) := by
  have hparts := List.takeWhile_append_dropWhile (p := (· ≠ '/')) (l := origin.reverse)
  have hslash : '/' ∉ origin.reverse.takeWhile (· ≠ '/') := fun hmem => by simpa using List.mem_takeWhile_imp hmem
  have horigin : origin = (origin.reverse.dropWhile (· ≠ '/')).reverse ++ (origin.reverse.takeWhile (· ≠ '/')).reverse := by
    rw [← List.reverse_append, hparts, List.reverse_reverse]
  generalize origin.reverse.takeWhile (· ≠ '/') = name at h hslash horigin
  cases hrest : origin.reverse.dropWhile (· ≠ '/') with
  | nil =>
    rw [hrest, List.reverse_nil, List.nil_append] at horigin
    refine ⟨tree, name.reverse, by rw [horigin], by simpa using hslash, by simpa using h, ?_⟩
    rw [horigin, List.mem_reverse, or_iff_left h]
  | cons c rest =>
    have hc : c = '/' := by simpa using dropWhile_head (· ≠ '/') origin.reverse c (by rw [hrest]; rfl)
    subst hc
    rw [hrest, List.reverse_cons, List.append_assoc] at horigin
    refine ⟨under tree rest.reverse, name.reverse, ?_, by simpa using hslash, by simpa using h, ?_⟩
    · rw [horigin]
      simp [under]
    · rw [horigin]
      simp [under, h]

theorem under_append (dir name rest : List Char) : under dir name ++ rest = under dir (name ++ rest) := by
  simp [under]

theorem not_at {text : List Char} (h : '@' ∉ text) : ∀ c ∈ text.reverse, decide (c ≠ '@') = true := by
  intro c hc
  refine decide_eq_true ?_
  rintro rfl
  exact h (List.mem_reverse.1 hc)

theorem afterLast_eq (text : List Char) {flavor : List Char} (h : '@' ∉ flavor) : afterLast (text ++ '@' :: flavor) = flavor := by
  have hreverse : (text ++ '@' :: flavor).reverse = flavor.reverse ++ '@' :: text.reverse := by simp
  rw [afterLast, hreverse, takeWhile_stop (not_at h) (by simp), List.reverse_reverse]

theorem beforeLast_eq (text : List Char) {flavor : List Char} (h : '@' ∉ flavor) : beforeLast (text ++ '@' :: flavor) = text := by
  have hreverse : (text ++ '@' :: flavor).reverse = flavor.reverse ++ '@' :: text.reverse := by simp
  rw [beforeLast, hreverse, List.dropWhile_append_of_pos (not_at h), List.dropWhile_cons_of_neg (by simp),
    List.tail_cons, List.reverse_reverse]

variable (tree : List Char) {origin : List Char}

theorem flavored_plain (h : '@' ∉ origin.reverse.takeWhile (· ≠ '/')) : flavored (under tree origin) = ⟨under tree origin, none⟩ := by
  obtain ⟨dir, name, hpath, hslash, hname, -⟩ := under_component tree origin h
  rw [hpath, flavored, if_congr (slash_after_iff dir hslash) rfl rfl]
  split_ifs with hdir hat
  · rfl
  · exact absurd hat (by simp [under, hdir, hname])
  · rfl

theorem flavored_suffixed (h : '@' ∉ origin.reverse.takeWhile (· ≠ '/')) {flavor : List Char} (hat : '@' ∉ flavor)
    (hslash : '/' ∉ flavor) :
    flavored (under tree (origin ++ '@' :: flavor)) =
      if '@' ∈ tree ∨ '@' ∈ origin then ⟨under tree (origin ++ '@' :: flavor), none⟩
      else ⟨under tree origin, some flavor⟩ := by
  obtain ⟨dir, name, hpath, hname, -, hdir⟩ := under_component tree origin h
  have hlast : '/' ∉ name ++ '@' :: flavor := by simp [hname, hslash]
  have hbefore := slash_after_iff dir hlast
  rw [← under_append] at hbefore
  rw [← under_append, hpath]
  by_cases hat' : '@' ∈ tree ∨ '@' ∈ origin
  · rw [if_pos hat', flavored, if_pos (hbefore.2 (hdir.2 hat'))]
  · rw [if_neg hat', flavored, if_neg fun hmem => hat' (hdir.1 (hbefore.1 hmem)), if_pos (by simp),
      beforeLast_eq _ hat, afterLast_eq _ hat]

end Flavors

section Rounds
variable {s : Setup} {W : Type} {h : Host W}

theorem Line.suffixed_plain (line : Line) : line.suffixed ≠ [] ∧ ∀ c ∈ line.suffixed, isPlain c ∧ c ≠ ':' := by
  refine ⟨List.append_ne_nil_of_left_ne_nil line.origin_plain.1 _, ?_⟩
  intro c hc
  rcases List.mem_append.1 hc with hc | hc
  · exact line.origin_plain.2 c hc
  · cases hflavor : line.flavor with
    | none => simp [hflavor] at hc
    | some flavor =>
      rw [hflavor] at hc
      rcases List.mem_cons.1 hc with rfl | hc
      · decide
      · have hplain := line.flavor_plain flavor hflavor c hc
        exact ⟨hplain.1, hplain.2.1⟩

theorem glob_words (s : Setup) (words : List (List Char)) (hwords : ∀ w ∈ words, ∀ c ∈ w, isPlain c) :
    words.flatMap s.glob = words := by
  induction words with
  | nil => rfl
  | cons w words ih =>
    rw [List.flatMap_cons, s.glob_plain w (hwords w List.mem_cons_self),
      ih fun w hw => hwords w (List.mem_cons_of_mem _ hw), List.singleton_append]

theorem Line.text_parts (line : Line) :
    parts ((ifsFields ':' line.text).flatMap s.glob) = some (line.pattern, line.suffixed, line.target.getD []) := by
  have hpattern : ':' ∉ line.pattern := fun hc => (line.pattern_plain.2 _ hc).2 rfl
  have hsuffixed : ':' ∉ line.suffixed := fun hc => (line.suffixed_plain.2 _ hc).2 rfl
  have hwords : ∀ w ∈ [line.pattern, line.suffixed], ∀ c ∈ w, isPlain c := by
    intro w hw c hc
    rcases List.mem_pair.1 hw with rfl | rfl
    · exact (line.pattern_plain.2 c hc).1
    · exact (line.suffixed_plain.2 c hc).1
  have htwo : parts (([line.pattern, line.suffixed]).flatMap s.glob) = some (line.pattern, line.suffixed, []) := by
    rw [glob_words s _ hwords]
    rfl
  rw [Line.text, ifsFields, List.splitOn_append_cons_self_of_not_mem hpattern]
  cases htarget : line.target with
  | none =>
    rw [Option.elim_none, List.append_nil, List.splitOn_eq_singleton hsuffixed]
    simpa [line.suffixed_plain.1] using htwo
  | some target =>
    have hcolon : ':' ∉ target := fun hc => (line.target_plain target htarget _ hc).2 rfl
    rw [Option.elim_some, List.splitOn_append_cons_self_of_not_mem hsuffixed, List.splitOn_eq_singleton hcolon]
    by_cases hempty : target = []
    · simpa [hempty] using htwo
    · have hthree := glob_words s [line.pattern, line.suffixed, target] <| by
        intro w hw
        rcases List.mem_cons.1 hw with rfl | hw
        · exact hwords _ List.mem_cons_self
        · rcases List.mem_pair.1 hw with rfl | rfl
          · exact hwords _ (by simp)
          · exact fun c hc => (line.target_plain _ htarget c hc).1
      have hlast : [line.pattern, line.suffixed, target].getLast? ≠ some [] := by simpa using hempty
      rw [if_neg hlast, hthree]
      rfl

def Line.taken (s : Setup) (line : Line) : Use := flavored (under (firstTree s line.suffixed) line.suffixed)

def reached (result : Except (State W) (State W)) : State W :=
  match result with
  | .ok st => st
  | .error st => st

theorem provide_uses (st : State W) (pattern origin last : List Char) :
    (reached (provide s h st pattern origin last)).uses = st.uses := by
  unfold provide
  dsimp only
  repeat' split
  all_goals rfl

theorem round_line (st : State W) (line : Line) :
    round s h st line.text = provide s h { st with flavor := (line.taken s).flavor, uses := st.uses ++ [line.taken s] }
      line.pattern (line.taken s).origin (line.target.getD []) := by
  have hrelative : line.suffixed.head? ≠ some '/' := by
    rw [Line.suffixed, List.head?_append_of_ne_nil _ line.origin_plain.1]
    exact line.relative
  rw [round, line.text_parts]
  dsimp only
  rw [if_neg (not_or.2 ⟨line.pattern_plain.1, line.suffixed_plain.1⟩), located_relative hrelative]
  rfl

theorem round_uses (st : State W) (line : Line) :
    (reached (round s h st line.text)).uses = st.uses ++ [line.taken s] := by
  rw [round_line, provide_uses]

theorem rounds_uses (st : State W) (lines : List Line) :
    (reached (rounds s h st (lines.map Line.text))).uses <+: st.uses ++ lines.map (Line.taken s) := by
  induction lines generalizing st with
  | nil => exact ⟨[], rfl⟩
  | cons line lines ih =>
    have huses := round_uses (s := s) (h := h) st line
    rw [List.map_cons, List.map_cons, rounds, List.foldlM_cons, List.append_cons, ← huses]
    cases hround : round s h st line.text with
    | error st' => exact List.prefix_append _ _
    | ok st' => exact ih st'

def complete : Host Unit where
  check _ _ _ _ := some true
  make w _ _ _ _ := some w
  pkgfile _ _ _ _ := []
  readable _ _ := true
  pkgAdd w _ _ := some w

theorem complete_installs (w : Unit) (flavor : Option (List Char)) (origin target args : List Char) :
    installDepends s complete w flavor origin target args = some w := by
  unfold installDepends complete
  dsimp only
  by_cases htarget : target = s.dependsTarget
  · simp [htarget]
  · simp [htarget]

theorem complete_provides (st : State Unit) (pattern origin last : List Char) :
    ∃ st', provide s complete st pattern origin last = .ok st' := by
  unfold provide
  dsimp only
  cases fctOf s.depType pattern with
  | none => exact ⟨_, rfl⟩
  | some fct =>
    by_cases hnothing : fct = .nothing
    · subst hnothing
      have hrun : ∀ w flavor, runFct complete w flavor .nothing pattern = some false := fun _ _ => rfl
      simp only [hrun, complete_installs, if_true]
      split_ifs
      · exact ⟨_, rfl⟩
      · exact ⟨_, rfl⟩
    · have hrun : ∀ w flavor, runFct complete w flavor fct pattern = some true := by
        intro w flavor
        rw [runFct, if_neg hnothing]
        rfl
      simp only [hrun]
      exact ⟨_, rfl⟩

theorem complete_uses (st : State Unit) (lines : List Line) :
    (reached (rounds s complete st (lines.map Line.text))).uses = st.uses ++ lines.map (Line.taken s) := by
  induction lines generalizing st with
  | nil => exact (List.append_nil _).symm
  | cons line lines ih =>
    have huses := round_uses (s := s) (h := complete) st line
    obtain ⟨st', hround⟩ : ∃ st', round s complete st line.text = .ok st' := by
      rw [round_line]
      exact complete_provides _ _ _ _
    rw [hround] at huses
    rw [List.map_cons, List.map_cons, rounds, List.foldlM_cons, List.append_cons, ← huses, hround]
    exact ih st'

theorem doDepends_uses (w : W) (flavor : Option (List Char)) (lines : List (List Char)) :
    (doDepends s h w flavor lines).1.uses = (reached (rounds s h ⟨w, flavor, false, false, []⟩ lines)).uses := by
  unfold doDepends
  cases rounds s h ⟨w, flavor, false, false, []⟩ lines with
  | error st => rfl
  | ok st => rfl

theorem taken_eq_iff (s : Setup) (line : Line) : line.taken s = line.expected s ↔ line.Findable s := by
  unfold Line.taken Line.expected Line.Findable
  cases hflavor : line.flavor with
  | none =>
    have hsuffixed : line.suffixed = line.origin := by
      rw [Line.suffixed, hflavor]
      exact List.append_nil _
    rw [hsuffixed, flavored_plain _ line.name_plain]
    simp
  | some flavor =>
    have hsuffixed : line.suffixed = line.origin ++ '@' :: flavor := by
      rw [Line.suffixed, hflavor]
      rfl
    have hplain := line.flavor_plain flavor hflavor
    rw [hsuffixed, flavored_suffixed _ line.name_plain (fun hc => (hplain _ hc).2.2.1 rfl) fun hc => (hplain _ hc).2.2.2 rfl]
    generalize firstTree s (line.origin ++ '@' :: flavor) = tree
    by_cases hat : '@' ∈ tree ∨ '@' ∈ line.origin
    · rw [if_pos hat]
      constructor
      · intro h
        cases congrArg Use.flavor h
      · intro h
        obtain ⟨rfl, htree, horigin⟩ := h (by simp)
        exact absurd hat (not_or.2 ⟨htree, horigin⟩)
    · rw [if_neg hat, Use.mk.injEq, under, under, List.append_left_inj]
      rw [not_or] at hat
      constructor
      · rintro ⟨rfl, -⟩ _
        exact ⟨rfl, hat⟩
      · intro h
        exact ⟨(h (by simp)).1, rfl⟩

/-- However the dependencies fare, whatever FLAVOR was before. -/
theorem origins_resolved_iff (s : Setup) (lines : List Line) :
    (∀ (W : Type) (h : Host W) (w : W) (flavor : Option (List Char)),
        (doDepends s h w flavor (lines.map Line.text)).1.uses <+: lines.map (Line.expected s)) ↔
      ∀ line ∈ lines, line.Findable s := by
  constructor
  · intro h
    have huses := h Unit complete () none
    rw [doDepends_uses, complete_uses, List.nil_append] at huses
    have heq := huses.eq_of_length (by simp)
    intro line hline
    exact (taken_eq_iff s line).1 (List.map_inj_left.1 heq line hline)
  · intro h W host w flavor
    have heq : lines.map (Line.expected s) = lines.map (Line.taken s) :=
      List.map_congr_left fun line hline => ((taken_eq_iff s line).2 (h line hline)).symm
    rw [doDepends_uses, heq]
    exact rounds_uses _ lines

end Rounds

def overlaid : Setup where
  overlays := ["/overlay".toList]
  portsdir := "/usr/mports".toList
  isFile path := path = "/overlay/devel/foo/Makefile".toList
  depType := "RUN_DEPENDS".toList
  dependsTarget := "install".toList
  dependsArgs := []
  dependsPreclean := false
  dependsClean := false
  usePackageDepends := false
  usePackageDependsOnly := false
  strictDepends := false
  glob word := [word]
  glob_plain _ _ := rfl

def flavoredFoo : Line where
  pattern := "foo>0".toList
  origin := "devel/foo".toList
  flavor := some "py39".toList
  target := none
  pattern_plain := ⟨by decide, List.forall_iff_forall_mem.1 (by decide)⟩
  origin_plain := ⟨by decide, List.forall_iff_forall_mem.1 (by decide)⟩
  flavor_plain := by
    rintro _ ⟨rfl⟩
    exact List.forall_iff_forall_mem.1 (by decide)
  target_plain := by decide
  relative := by decide
  name_plain := by decide

theorem overlay_unresolved : ¬ (doDepends overlaid complete () none [flavoredFoo.text]).1.uses <+:
    [flavoredFoo.expected overlaid] := by
  decide +kernel

end Mports.DependsOrigins
