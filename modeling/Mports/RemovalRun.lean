import Mports.MovedLintStatus
import Mports.PortRemoval
import Mports.ShellText

set_option autoImplicit false

namespace Mports.RemovalRun
open PortRemoval (Text Line Ports operators checkDepCore)
open PerlText (isSpace)

section Paths

def dirname (path : Text) : Text :=
  let kept := path.reverse.dropWhile (· = '/')
  if path = [] then []
  else if kept = [] then ['/']
  else if '/' ∉ kept then ['.']
  else
    let parent := (kept.dropWhile (· ≠ '/')).dropWhile (· = '/')
    if parent = [] then ['/'] else parent.reverse

def basename (path : Text) : Text :=
  if path ≠ [] ∧ path.all (· = '/') then ['/'] else PortRemoval.basename path

def isNameChar (c : Char) : Bool := c.isAlphanum || c = '.' || c = '_' || c = '+' || c = '-'

structure Name (name : Text) : Prop where
  nonempty : name ≠ []
  chars : ∀ c ∈ name, isNameChar c = true
  here : name ≠ ['.']
  parent : name ≠ ['.', '.']

end Paths

section Sed

def spaces : Line → List Line
  | [] => [[]]
  | c :: line => (c :: line) :: if isSpace c then spaces line else []

def behind (text : Text) (line : Line) : Option Line := if text <+: line then some (line.drop text.length) else none

/-- `([[:space:]]+#.*)?$`. -/
def endsEntry : Line → Bool
  | [] => true
  | c :: line => isSpace c && (spaces line).any fun rest => rest.head? = some '#'

def escape (name : Text) : Text := name.flatMap fun c => if c = '+' || c = '.' then ['\\', c] else [c]

/-- `^[[:space:]]*SUBDIR[[:space:]]*\+=[[:space:]]*${portesc}([[:space:]]+#.*)?$`. -/
def isSubdir (p : Ports) (port : Text) (line : Line) : Bool :=
  if port.all fun c => c = '+' || c ∉ operators then
    (((((spaces line).filterMap (behind "SUBDIR".toList)).flatMap spaces).filterMap (behind "+=".toList)).flatMap
      spaces).filterMap (behind port) |>.any endsEntry
  else p.other ("^[[:space:]]*SUBDIR[[:space:]]*\\+=[[:space:]]*".toList ++ escape port ++ "([[:space:]]+#.*)?$".toList) line

end Sed

/-- What rmport reads of the system, of Bugzilla and of its user. Nothing comes where the query fails. -/
structure Setting where
  isDir : Text → Bool
  realpath : Text → Text
  tracked : Text → Bool
  expirationDate : Text → Text
  deprecated : Text → Text
  query : Text → Option (List Line)
  skipDepended : Text → Bool
  skipPRs : Text → Bool
  today : Text

structure Work where
  ports : Ports
  moved : List Line
  gitrmlist : List Text

section Script
variable (c : Setting)

def findCatport (portsdir arg : Text) : Option Text :=
  if c.isDir (portsdir ++ '/' :: arg) then some arg
  else if c.isDir arg then some (basename (dirname (c.realpath arg)) ++ '/' :: basename (c.realpath arg))
  else none

def catport (found : Text) : Text := dirname found ++ '/' :: basename found

def movedReason (port : Text) : Text :=
  (if c.expirationDate port ≠ [] then "Has expired".toList else "Removed".toList) ++
    if c.deprecated port ≠ [] then ": ".toList ++ c.deprecated port else []

/-- The line that `edit_MOVED` adds. -/
def movedLine (port : Text) : Line := port ++ "||".toList ++ c.today ++ '|' :: movedReason c port

def makefile (category : Text) : Text := category ++ "/Makefile".toList

def editMakefile (category port : Text) (p : Ports) : Ports :=
  { p with makefiles := p.makefiles.map fun file =>
      if file.1 = makefile category then (file.1, file.2.filter fun line => !isSubdir p port line) else file }

def edit (w : Work) (found : Text) : Work where
  ports := editMakefile (dirname found) (basename found) w.ports
  moved := w.moved ++ [movedLine c (catport found)]
  gitrmlist := w.gitrmlist ++ [catport found]

/-- `check_dep` lets the port be removed. -/
def checkDep (w : Work) (port : Text) (alltorm : List Text) : Bool :=
  (checkDepCore w.ports port alltorm).1 = 0 || !c.skipDepended port

/-- `check_PRs`; where the query fails, the script ends. -/
def checkPRs (port name : Text) : Option Bool := (c.query name).map fun found => found.isEmpty || !c.skipPRs port

/-- One argument. An error is the end of the script, with everything as it is then. -/
def round (alltorm : List Text) (w : Work) (arg : Text) : Except Work Work :=
  match findCatport c w.ports.portsdir arg with
  | none => .error w
  | some found =>
    if !checkDep c w (catport found) alltorm then .ok w
    else match checkPRs c (catport found) (basename found) with
      | none => .error w
      | some false => .ok w
      | some true => .ok (edit c w found)

def rounds (alltorm : List Text) : List Text → Work → Except Work Work
  | [], w => .ok w
  | arg :: args, w => round c alltorm w arg >>= rounds alltorm args

/-- `git rm -r` of all directories, or of none. -/
def gitRm (gitrmlist : List Text) (tree : MovedLint.Tree) : MovedLint.Tree :=
  if gitrmlist.all c.tracked then
    { tree with hasMakefile := fun port => tree.hasMakefile port && !gitrmlist.any fun dir => components dir <+: components port }
  else tree
where
  components (path : Text) : List Text := (path.splitOn '/').filter fun part => part ≠ [] ∧ part ≠ ['.']

/-- The whole run, up to the commit: what it has edited, the ports that are left, and whether it got there. -/
def rmport (args : List Text) (p : Ports) (moved : List Line) (tree : MovedLint.Tree) : Work × MovedLint.Tree × Bool :=
  match rounds c args args ⟨p, moved, []⟩ with
  | .ok w => (w, gitRm c w.gitrmlist tree, true)
  | .error w => (w, tree, false)

end Script

section Entries
variable {p : Ports} {port line : Line}

/-- A line that adds a port to SUBDIR, with a comment or without one. -/
def Adds (port line : Line) : Prop :=
  ∃ a b c rest, line = a ++ ("SUBDIR".toList ++ (b ++ ("+=".toList ++ (c ++ (port ++ rest))))) ∧
    (∀ x ∈ a ++ b ++ c, isSpace x = true) ∧ endsEntry rest = true

theorem Name.plain {name : Text} (h : Name name) : ∀ x ∈ name, x = '+' ∨ x ∉ operators := by
  intro x hx
  by_contra hnot
  rw [not_or, not_not] at hnot
  have hchar := h.chars x hx
  have hoperators : ∀ y ∈ operators, y ≠ '+' → isNameChar y = false :=
    List.forall_iff_forall_mem.1 (by decide)
  rw [hoperators x hnot.2 hnot.1] at hchar
  cases hchar

/-- The first word behind `SUBDIR +=`. -/
def added (line : Line) : Text :=
  ((((line.dropWhile isSpace).drop 6).dropWhile isSpace).drop 2 |>.dropWhile isSpace).takeWhile fun x => !isSpace x

end Entries

section Runs
variable {c : Setting} {p : Ports} {args kept alltorm : List Text} {w : Work}

def left (result : Except Work Work) : Work :=
  match result with
  | .ok w => w
  | .error w => w

theorem rounds_edits (c : Setting) (alltorm args : List Text) (w : Work) :
    ∃ kept : List Text, kept.Sublist (args.filterMap (findCatport c w.ports.portsdir)) ∧
      left (rounds c alltorm args w) = kept.foldl (edit c) w := by
  induction args generalizing w with
  | nil => exact ⟨[], .slnil, rfl⟩
  | cons arg args ih =>
    unfold rounds round
    cases hfound : findCatport c w.ports.portsdir arg with
    | none => exact ⟨[], List.nil_sublist _, rfl⟩
    | some found =>
      rw [List.filterMap_cons_some hfound]
      dsimp only
      split_ifs
      · obtain ⟨kept, hkept, hleft⟩ := ih w
        exact ⟨kept, hkept.cons found, hleft⟩
      · cases checkPRs c (catport found) (basename found) with
        | none => exact ⟨[], List.nil_sublist _, rfl⟩
        | some accepted =>
          cases accepted with
          | false =>
            obtain ⟨kept, hkept, hleft⟩ := ih w
            exact ⟨kept, hkept.cons found, hleft⟩
          | true =>
            obtain ⟨kept, hkept, hleft⟩ := ih (edit c w found)
            exact ⟨found :: kept, hkept.cons_cons found, hleft⟩

theorem edits_moved (kept : List Text) (w : Work) :
    (kept.foldl (edit c) w).moved = w.moved ++ (kept.map catport).map (movedLine c) := by
  induction kept generalizing w with
  | nil => simp
  | cons found kept ih =>
    rw [List.foldl_cons, ih, edit, List.append_assoc]
    rfl

theorem edits_gitrmlist (kept : List Text) (w : Work) :
    (kept.foldl (edit c) w).gitrmlist = w.gitrmlist ++ kept.map catport := by
  induction kept generalizing w with
  | nil => simp
  | cons found kept ih =>
    rw [List.foldl_cons, ih, edit, List.append_assoc]
    rfl

def Proper (found : Text) : Prop := Name (dirname found) ∧ Name (basename found)

theorem Name.unslashed {name : Text} (h : Name name) : '/' ∉ name := fun hmem => absurd (h.chars _ hmem) (by decide)

theorem dirname_join {cat port : Text} (hcat : Name cat) (hport : Name port) : dirname (cat ++ '/' :: port) = cat := by
  obtain ⟨front, last, rfl⟩ : ∃ front last, port = front ++ [last] := ⟨_, _, (List.dropLast_concat_getLast hport.nonempty).symm⟩
  obtain ⟨start, stop, rfl⟩ : ∃ start stop, cat = start ++ [stop] := ⟨_, _, (List.dropLast_concat_getLast hcat.nonempty).symm⟩
  have hlast : last ≠ '/' := fun heq => hport.unslashed (by simp [heq])
  have hstop : stop ≠ '/' := fun heq => hcat.unslashed (by simp [heq])
  have hfront : ∀ x ∈ last :: front.reverse, x ≠ '/' := by
    rintro x hx rfl
    exact hport.unslashed (by simpa [or_comm] using hx)
  have hreverse : (start ++ [stop] ++ '/' :: (front ++ [last])).reverse =
      (last :: front.reverse) ++ '/' :: (stop :: start.reverse) := by simp
  have hkept : (start ++ [stop] ++ '/' :: (front ++ [last])).reverse.dropWhile (· = '/') =
      (last :: front.reverse) ++ '/' :: (stop :: start.reverse) := by
    rw [hreverse, List.cons_append, List.dropWhile_cons_of_neg (by simpa using hlast)]
  have hparent : (((last :: front.reverse) ++ '/' :: (stop :: start.reverse)).dropWhile (· ≠ '/')).dropWhile (· = '/') =
      stop :: start.reverse := by
    rw [List.dropWhile_append_of_pos (by simpa using hfront), List.dropWhile_cons_of_neg (by simp),
      List.dropWhile_cons_of_pos (by simp), List.dropWhile_cons_of_neg (by simpa using hstop)]
  unfold dirname
  simp only [hkept, hparent]
  simp

theorem basename_join {cat port : Text} (hport : Name port) : basename (cat ++ '/' :: port) = port := by
  obtain ⟨front, last, rfl⟩ : ∃ front last, port = front ++ [last] := ⟨_, _, (List.dropLast_concat_getLast hport.nonempty).symm⟩
  have hlast : last ≠ '/' := fun heq => hport.unslashed (by simp [heq])
  have hfront : ∀ x ∈ last :: front.reverse, x ≠ '/' := by
    rintro x hx rfl
    exact hport.unslashed (by simpa [or_comm] using hx)
  have hreverse : (cat ++ '/' :: (front ++ [last])).reverse = (last :: front.reverse) ++ '/' :: cat.reverse := by simp
  have hnot : ¬ ((cat ++ '/' :: (front ++ [last])) ≠ [] ∧ (cat ++ '/' :: (front ++ [last])).all (· = '/') = true) := by
    rintro ⟨-, hall⟩
    exact hlast (by simpa using List.all_eq_true.1 hall last (by simp))
  unfold basename PortRemoval.basename
  rw [if_neg hnot, hreverse, List.cons_append, List.dropWhile_cons_of_neg (by simpa using hlast), ← List.cons_append,
    List.takeWhile_append_of_pos (by simpa using hfront), List.takeWhile_cons_of_neg (by simp)]
  simp

theorem rmport_work (c : Setting) (args : List Text) (p : Ports) (moved : List Line) (tree : MovedLint.Tree) : ∃ kept : List Text,
    kept.Sublist (args.filterMap (findCatport c p.portsdir)) ∧ (rmport c args p moved tree).1 = kept.foldl (edit c) ⟨p, moved, []⟩ := by
  obtain ⟨kept, hkept, hleft⟩ := rounds_edits c args args ⟨p, moved, []⟩
  refine ⟨kept, hkept, ?_⟩
  rw [← hleft, rmport]
  cases rounds c args args ⟨p, moved, []⟩ with
  | ok w => rfl
  | error w => rfl

/-- A Makefile of the category has a line that adds the port. -/
def Listed (p : Ports) (cat port : Text) : Prop :=
  ∃ file ∈ p.makefiles, file.1 = makefile cat ∧ ∃ line ∈ file.2, Adds port line

theorem Proper.same {found : Text} (h : Proper found) {cat port : Text} (hcat : Name cat) (hport : Name port) :
    cat ++ '/' :: port = catport found ↔ cat = dirname found ∧ port = basename found := by
  constructor
  · intro heq
    unfold catport at heq
    have hdir := congrArg dirname heq
    have hbase := congrArg basename heq
    rw [dirname_join hcat hport, dirname_join h.1 h.2] at hdir
    rw [basename_join hport, basename_join h.2] at hbase
    exact ⟨hdir, hbase⟩
  · rintro ⟨rfl, rfl⟩
    rfl

/-- A port that has expired, with another one of a longer name beside it. -/
def sampleSetting : Setting where
  isDir path := path = "/usr/mports/net/gtk+".toList
  realpath path := path
  tracked _ := true
  expirationDate _ := "2026-01-31".toList
  deprecated _ := "Abandoned upstream".toList
  query _ := some []
  skipDepended _ := false
  skipPRs _ := false
  today := "2026-02-01".toList

def samplePorts : Ports where
  portsdir := "/usr/mports".toList
  pkgname port := port ++ "-1.0".toList
  index := []
  makefiles := [("net/Makefile".toList, ["    SUBDIR += gtk+".toList, "    SUBDIR += gtk+-extra # new".toList])]
  other _ _ := false

theorem gtk_proper : ∀ arg ∈ ["net/gtk+".toList], ∀ found,
    findCatport sampleSetting samplePorts.portsdir arg = some found → Proper found := by
  refine List.forall_mem_singleton.2 fun found hfound => ?_
  have hgtk : findCatport sampleSetting samplePorts.portsdir "net/gtk+".toList = some "net/gtk+".toList := by decide +kernel
  obtain rfl := Option.some.inj (hgtk.symm.trans hfound)
  have hcat : dirname "net/gtk+".toList = "net".toList := by decide +kernel
  have hname : basename "net/gtk+".toList = "gtk+".toList := by decide +kernel
  rw [Proper, hcat, hname]
  exact ⟨⟨by decide, List.forall_iff_forall_mem.1 (by decide), by decide, by decide⟩,
    ⟨by decide, List.forall_iff_forall_mem.1 (by decide), by decide, by decide⟩⟩

def sampleTree : MovedLint.Tree where
  hasMakefile port := port = "net/gtk+".toList || port = "net/gtk+-extra".toList
  hasFlavor _ _ := false
  resembles _ _ := false

def sampleMoved : List Line := ["x11/gtk|net/gtk+|2025-05-05|Moved".toList]

end Runs

section Lint
open MovedLint MovedLintStatus
variable {c : Setting} {tree : Tree} {cat name : PortRemoval.Text} {port : PortRemoval.Text}

/-- A port of the tree, in a directory that git knows. -/
structure IsPort (c : Setting) (tree : Tree) (port : PortRemoval.Text) : Prop where
  named : ∃ cat name, port = cat ++ '/' :: name ∧ Name cat ∧ Name name
  present : tree.hasMakefile port = true
  tracked : c.tracked port = true

theorem named_chars (hcat : Name cat) (hname : Name name) : ∀ x ∈ cat ++ '/' :: name, isNameChar x = true ∨ x = '/' := by
  intro x hx
  rcases List.mem_append.1 hx with hx | hx
  · exact .inl (hcat.chars x hx)
  · rcases List.mem_cons.1 hx with rfl | hx
    · exact .inr rfl
    · exact .inl (hname.chars x hx)

theorem named_excludes (hcat : Name cat) (hname : Name name) {x : Char} (hx : isNameChar x = false) (hslash : x ≠ '/') :
    x ∉ cat ++ '/' :: name := by
  intro hmem
  rcases named_chars hcat hname x hmem with hchar | heq
  · rw [hx] at hchar
    cases hchar
  · exact hslash heq

theorem named_origin (hcat : Name cat) (hname : Name name) : isOrigin (cat ++ '/' :: name) = true := by
  unfold isOrigin
  rw [List.splitOn_append_cons_self_of_not_mem hcat.unslashed, List.splitOn_eq_singleton hname.unslashed]
  simp [hcat.nonempty, hname.nonempty]

theorem date_plain {text : MovedLint.Text} (h : isDate text = true) : '|' ∉ text := by
  intro hmem
  unfold isDate at h
  split at h
  · simp only [Bool.and_eq_true, decide_eq_true_eq] at h
    obtain ⟨⟨⟨⟨⟨⟨⟨⟨⟨rfl, rfl⟩, ⟨-, hdecade⟩⟩, hyear⟩, rfl⟩, ⟨-, htens⟩⟩, hmonth⟩, rfl⟩, ⟨-, hweek⟩⟩, hday⟩ := h
    simp only [List.mem_cons, List.not_mem_nil, or_false] at hmem
    rcases hmem with heq | heq | rfl | rfl | heq | rfl | rfl | heq | rfl | rfl
    · cases heq
    · cases heq
    · exact absurd hdecade (by decide)
    · exact absurd hyear (by decide)
    · cases heq
    · exact absurd htens (by decide)
    · exact absurd hmonth (by decide)
    · cases heq
    · exact absurd hweek (by decide)
    · exact absurd hday (by decide)
  · cases h

theorem fields_movedLine (hcat : Name cat) (hname : Name name) (htoday : isDate c.today = true) :
    fields (movedLine c (cat ++ '/' :: name)) = (cat ++ '/' :: name) :: [] :: c.today :: (movedReason c (cat ++ '/' :: name)).splitOn '|' := by
  have hline : movedLine c (cat ++ '/' :: name) =
      (cat ++ '/' :: name) ++ '|' :: ([] ++ '|' :: (c.today ++ '|' :: movedReason c (cat ++ '/' :: name))) := by
    simp [movedLine]
  unfold fields
  rw [hline, List.splitOn_append_cons_self_of_not_mem (named_excludes hcat hname (by decide) (by decide)),
    List.splitOn_append_cons_self_of_not_mem List.not_mem_nil,
    List.splitOn_append_cons_self_of_not_mem (date_plain htoday)]

theorem movedReason_bar : '|' ∈ movedReason c port ↔ '|' ∈ c.deprecated port := by
  unfold movedReason
  rw [List.mem_append]
  have hfirst : '|' ∉ (if c.expirationDate port ≠ [] then "Has expired".toList else "Removed".toList) := by
    split_ifs <;> decide
  rw [or_iff_right hfirst]
  split_ifs with hsome
  · rw [List.mem_append, or_iff_right (by decide)]
  · rw [not_not] at hsome
    rw [hsome]

theorem movedReason_dot : (movedReason c port).getLast? = some '.' ↔ (c.deprecated port).getLast? = some '.' := by
  unfold movedReason
  split_ifs with hexpired hsome hsome
  · rw [List.getLast?_append_of_ne_nil _ (by simp), List.getLast?_append_of_ne_nil _ hsome]
  · rw [not_not] at hsome
    rw [hsome]
    decide
  · rw [List.getLast?_append_of_ne_nil _ (by simp), List.getLast?_append_of_ne_nil _ hsome]
  · rw [not_not] at hsome
    rw [hsome]
    decide

/-- The reason of a port fits into its line, and does not end with a dot. -/
def Tellable (c : Setting) (port : PortRemoval.Text) : Prop :=
  '|' ∉ c.deprecated port ∧ (c.deprecated port).getLast? ≠ some '.'

/-- What MOVEDlint reads in a line that rmport has added. -/
structure Entry (c : Setting) (tree : Tree) (port : PortRemoval.Text) : Prop where
  source : source (movedLine c port) = port
  dest : dest (movedLine c port) = []
  date : date (movedLine c port) = c.today
  comment : isComment (movedLine c port) = false
  sound : Sound tree (movedLine c port) ↔ Tellable c port

theorem movedLine_entry (tree : Tree) (hcat : Name cat) (hname : Name name) (htoday : isDate c.today = true) :
    Entry c tree (cat ++ '/' :: name) := by
  have hfields := fields_movedLine hcat hname htoday
  have hsource : source (movedLine c (cat ++ '/' :: name)) = cat ++ '/' :: name := by
    unfold source field
    rw [hfields]
    rfl
  have hdest : dest (movedLine c (cat ++ '/' :: name)) = [] := by
    unfold dest field
    rw [hfields]
    rfl
  have hdate : date (movedLine c (cat ++ '/' :: name)) = c.today := by
    unfold date field
    rw [hfields]
    rfl
  have hblank : hasBlank (cat ++ '/' :: name) = false := by
    unfold hasBlank
    rw [List.any_eq_false]
    intro x hx
    simp only [Bool.or_eq_true, decide_eq_true_eq]
    rintro (rfl | rfl)
    · exact named_excludes hcat hname (by decide) (by decide) hx
    · exact named_excludes hcat hname (by decide) (by decide) hx
  have hlength : (fields (movedLine c (cat ++ '/' :: name))).length = 4 ↔ '|' ∉ c.deprecated (cat ++ '/' :: name) := by
    rw [hfields, ← movedReason_bar]
    constructor
    · intro hlength hbar
      obtain ⟨front, back, hsplit⟩ := List.append_of_mem hbar
      rw [hsplit, List.splitOn_append_cons_self] at hlength
      have hfront := List.length_pos_of_ne_nil (List.splitOn_ne_nil '|' front)
      have hback := List.length_pos_of_ne_nil (List.splitOn_ne_nil '|' back)
      simp only [List.length_cons, List.length_append] at hlength
      omega
    · intro hbar
      rw [List.splitOn_eq_singleton hbar]
      rfl
  refine ⟨hsource, hdest, hdate, ?_, ?_⟩
  · obtain ⟨x, cat, rfl⟩ := List.exists_cons_of_ne_nil hcat.nonempty
    have hx : x ≠ '#' := by
      rintro rfl
      exact absurd (hcat.chars _ (List.mem_cons_self ..)) (by decide)
    unfold isComment movedLine
    simp [hx]
  · have hformat : formatFault (movedLine c (cat ++ '/' :: name)) = none ↔ '|' ∉ c.deprecated (cat ++ '/' :: name) := by
      unfold formatFault
      rw [hsource, hdest, hdate, ← hlength, named_origin hcat hname, htoday, hblank]
      simp [hasBlank]
    have hreason : '|' ∉ c.deprecated (cat ++ '/' :: name) →
        MovedLint.reason (movedLine c (cat ++ '/' :: name)) = movedReason c (cat ++ '/' :: name) := by
      intro hbar
      unfold MovedLint.reason field
      rw [hfields, List.splitOn_eq_singleton (movedReason_bar.not.2 hbar)]
      rfl
    constructor
    · rintro ⟨hformed, -, hdot⟩
      have hbar := hformat.1 hformed
      rw [hreason hbar] at hdot
      exact ⟨hbar, movedReason_dot.not.1 hdot⟩
    · rintro ⟨hbar, hdot⟩
      refine ⟨hformat.2 hbar, fun hmoved => absurd hdest hmoved, ?_⟩
      rw [hreason hbar]
      exact movedReason_dot.not.2 hdot

theorem read_append {file added : List MovedLint.Line} (hcomment : ∀ line ∈ added, isComment line = false)
    (hdate : ∀ line ∈ added, ¬ date line < firstDate) :
    MovedLint.read firstDate (file ++ added) = MovedLint.read firstDate file ++ added.zipIdx (1 + file.length) := by
  have hkept : ((added.zipIdx (1 + file.length)).filter fun l => !isComment l.1) = added.zipIdx (1 + file.length) := by
    rw [List.filter_eq_self]
    intro l hl
    rw [hcomment l.1 (List.fst_mem_of_mem_zipIdx hl)]
    rfl
  have hall : (added.zipIdx (1 + file.length)).dropWhile (fun l => decide (date l.1 < firstDate)) = added.zipIdx (1 + file.length) := by
    rw [List.dropWhile_eq_self_iff]
    intro hlength
    simpa using hdate _ (List.fst_mem_of_mem_zipIdx (List.getElem_mem hlength))
  unfold MovedLint.read
  rw [List.zipIdx_append, List.filter_append, hkept, List.dropWhile_append]
  split_ifs with hempty
  · rw [List.isEmpty_iff.1 hempty, hall, List.nil_append]
  · rfl

/-- The ports can be told in MOVED, after the lines that are read there. -/
structure Recordable (c : Setting) (lines : List (MovedLint.Line × ℕ)) (ports : List PortRemoval.Text) : Prop where
  told : ∀ port ∈ ports, Tellable c port
  once : ports.Nodup
  new : ∀ port ∈ ports, ∀ l ∈ lines, source l.1 ≠ port
  dates : ports ≠ [] → ∀ l ∈ lines, ¬ c.today < date l.1

theorem dates_append {first last : MovedLint.Text} {dates rest : List MovedLint.Text} (hrest : ∀ d ∈ rest, d = last) :
    ((first :: (dates ++ rest)).IsChain fun a b => ¬ b < a) ↔
      ((first :: dates).IsChain fun a b => ¬ b < a) ∧ (rest ≠ [] → ∀ d ∈ first :: dates, ¬ last < d) := by
  have htrans : Trans (fun a b : MovedLint.Text => ¬ b < a) (fun a b => ¬ b < a) (fun a b => ¬ b < a) :=
    ⟨fun hab hbc => not_lt.2 ((not_lt.1 hab).trans (not_lt.1 hbc))⟩
  rw [← List.cons_append, List.isChain_iff_pairwise, List.isChain_iff_pairwise, List.pairwise_append]
  have hequal : rest.Pairwise fun a b => ¬ b < a := by
    rw [List.pairwise_iff_getElem]
    intro i j hi hj _
    rw [hrest _ (List.getElem_mem hi), hrest _ (List.getElem_mem hj)]
    exact lt_irrefl _
  rw [and_iff_right hequal]
  refine and_congr_right fun _ => ?_
  constructor
  · intro h hne d hd
    obtain ⟨e, rest, rfl⟩ := List.exists_cons_of_ne_nil hne
    have hfirst := h d hd e (List.mem_cons_self ..)
    rwa [hrest e (List.mem_cons_self ..)] at hfirst
  · intro h d hd e he
    rw [hrest e he]
    exact h (List.ne_nil_of_mem he) d hd

theorem orderly_append {lines : List (MovedLint.Line × ℕ)} {ports : List PortRemoval.Text} {k : ℕ}
    (hentries : ∀ port ∈ ports, Entry c tree port) (htoday : isDate c.today = true) :
    Orderly tree (start firstDate) (lines ++ (ports.map (movedLine c)).zipIdx k) ↔
      Orderly tree (start firstDate) lines ∧ Recordable c lines ports := by
  have hsource : ((ports.map (movedLine c)).zipIdx k).map (fun l => source l.1) = ports := by
    have hmap := congrArg (List.map source) (List.zipIdx_map_fst k (ports.map (movedLine c)))
    rw [List.map_map, List.map_map] at hmap
    refine hmap.trans ?_
    conv_rhs => rw [← List.map_id ports]
    exact List.map_congr_left fun port hport => (hentries port hport).source
  have hdate : ∀ d ∈ ((ports.map (movedLine c)).zipIdx k).map (fun l => date l.1), d = c.today := by
    intro d hd
    obtain ⟨l, hl, rfl⟩ := List.mem_map.1 hd
    obtain ⟨port, hport, heq⟩ := List.mem_map.1 (List.fst_mem_of_mem_zipIdx hl)
    rw [← heq, (hentries port hport).date]
  have hempty : ((ports.map (movedLine c)).zipIdx k).map (fun l => date l.1) ≠ [] ↔ ports ≠ [] := by simp
  have hmem : ∀ port ∈ ports, ∃ l ∈ (ports.map (movedLine c)).zipIdx k, l.1 = movedLine c port := by
    intro port hport
    have hline := List.mem_map_of_mem (f := movedLine c) hport
    rw [← List.zipIdx_map_fst k (ports.map (movedLine c))] at hline
    exact List.mem_map.1 hline
  have hlater : ∀ d ∈ lines.map (fun l => date l.1), ∃ l ∈ lines, date l.1 = d := fun d hd => List.mem_map.1 hd
  constructor
  · intro h
    have hdistinct := h.distinct
    have hdates := h.dates
    rw [List.map_append, hsource] at hdistinct
    rw [List.map_append, dates_append hdate, hempty] at hdates
    obtain ⟨hold, honce, hnew⟩ := List.nodup_append.1 hdistinct
    refine ⟨⟨fun l hl => h.sound l (List.mem_append_left _ hl), hold, nofun, hdates.1⟩, ?_, honce, ?_, ?_⟩
    · intro port hport
      obtain ⟨l, hl, heq⟩ := hmem port hport
      have hsound := h.sound l (List.mem_append_right _ hl)
      rw [heq] at hsound
      exact (hentries port hport).sound.1 hsound
    · exact fun port hport l hl => hnew _ (List.mem_map_of_mem hl) port hport
    · exact fun hne l hl => hdates.2 hne _ (List.mem_cons_of_mem _ (List.mem_map_of_mem hl))
  · rintro ⟨h, hrecordable⟩
    refine ⟨?_, ?_, nofun, ?_⟩
    · intro l hl
      rcases List.mem_append.1 hl with hl | hl
      · exact h.sound l hl
      · obtain ⟨port, hport, heq⟩ := List.mem_map.1 (List.fst_mem_of_mem_zipIdx hl)
        rw [← heq]
        exact (hentries port hport).sound.2 (hrecordable.told port hport)
    · rw [List.map_append, hsource, List.nodup_append]
      refine ⟨h.distinct, hrecordable.once, ?_⟩
      rintro text htext port hport rfl
      obtain ⟨l, hl, heq⟩ := List.mem_map.1 htext
      exact hrecordable.new _ hport l hl heq
    · rw [List.map_append, dates_append hdate, hempty]
      refine ⟨h.dates, fun hne => List.forall_mem_cons.2 ⟨firstDate_le htoday, fun d hd => ?_⟩⟩
      obtain ⟨l, hl, rfl⟩ := hlater d hd
      exact hrecordable.dates hne l hl

theorem components_join (hcat : Name cat) (hname : Name name) : gitRm.components (cat ++ '/' :: name) = [cat, name] := by
  unfold gitRm.components
  rw [List.splitOn_append_cons_self_of_not_mem hcat.unslashed, List.splitOn_eq_singleton hname.unslashed]
  simp [hcat.nonempty, hcat.here, hname.nonempty, hname.here]

theorem origin_self (hcat : Name cat) (hname : Name name) : origin (cat ++ '/' :: name) = cat ++ '/' :: name := by
  unfold origin
  rw [List.takeWhile_eq_self_iff]
  rintro x hx
  simp only [ne_eq, decide_not, Bool.not_eq_true', decide_eq_false_iff_not]
  rintro rfl
  exact named_excludes hcat hname (by decide) (by decide) hx

theorem origin_parts {text : MovedLint.Text} (h : isOrigin text = true) :
    ∃ x y, text = x ++ '/' :: y ∧ '/' ∉ x ∧ '/' ∉ y := by
  unfold isOrigin at h
  split at h
  · rename_i x y hparts
    have hplain : ∀ part ∈ text.splitOn '/', '/' ∉ part := fun part hpart hmem => by
      rw [List.splitOn_eq_splitOnP] at hpart
      simpa using ShellText.part_plain hpart '/' hmem
    rw [hparts] at hplain
    have hjoin : ['/'].intercalate (text.splitOn '/') = text := List.intercalate_splitOn '/'
    rw [hparts] at hjoin
    exact ⟨x, y, by simpa using hjoin.symm, hplain x (by simp), hplain y (by simp)⟩
  · cases h

/-- What is below a port, as far as a destination in MOVED can name it: the port. -/
theorem origin_below (hcat : Name cat) (hname : Name name) {text : MovedLint.Text} (htext : isOrigin text = true)
    (h : gitRm.components (cat ++ '/' :: name) <+: gitRm.components (origin text)) : origin text = cat ++ '/' :: name := by
  obtain ⟨x, y, rfl, hx, hy⟩ := origin_parts htext
  rw [components_join hcat hname] at h
  have hsubset : ∀ part : MovedLint.Text, origin part ⊆ part := fun part => (List.takeWhile_prefix _).subset
  by_cases hat : '@' ∈ x
  · -- the category of the destination has a flavor, and nothing is left of the port
    have horigin : origin (x ++ '/' :: y) = origin x := by
      have hshort : (x.takeWhile (· ≠ '@')).length ≠ x.length := fun hlength => by
        have hself := (List.takeWhile_prefix (· ≠ '@')).eq_of_length hlength
        rw [List.takeWhile_eq_self_iff] at hself
        simpa using hself '@' hat
      unfold origin
      rw [List.takeWhile_append, if_neg hshort]
    rw [horigin] at h
    have hone : (gitRm.components (origin x)).length ≤ 1 := by
      unfold gitRm.components
      rw [List.splitOn_eq_singleton fun hmem => hx (hsubset x hmem)]
      exact List.length_filter_le _ _
    have htwo := h.length_le
    simp only [List.length_cons, List.length_nil] at htwo
    omega
  · have horigin : origin (x ++ '/' :: y) = x ++ '/' :: origin y := by
      unfold origin
      rw [List.takeWhile_append_of_pos (fun z hz => by simpa using fun heq : z = '@' => hat (heq ▸ hz)),
        List.takeWhile_cons_of_pos (by decide)]
    rw [horigin] at h ⊢
    unfold gitRm.components at h
    rw [List.splitOn_append_cons_self_of_not_mem hx, List.splitOn_eq_singleton fun hmem => hy (hsubset y hmem)] at h
    have hfilter : ([x, origin y].filter fun part => decide (part ≠ [] ∧ part ≠ ['.'])).Sublist [x, origin y] := List.filter_sublist
    have hall := hfilter.eq_of_length_le h.length_le
    rw [hall] at h
    obtain ⟨hcat', hrest⟩ := List.cons_prefix_cons.1 h
    obtain ⟨hname', -⟩ := List.cons_prefix_cons.1 hrest
    rw [hcat', hname']

theorem gitRm_eq {ports : List PortRemoval.Text} (h : ∀ port ∈ ports, IsPort c tree port) : gitRm c ports tree =
    { tree with hasMakefile := fun port =>
        tree.hasMakefile port && !ports.any fun dir => gitRm.components dir <+: gitRm.components port } := by
  unfold gitRm
  rw [if_pos (List.all_eq_true.2 fun port hport => (h port hport).tracked)]

theorem dest_origin {line : MovedLint.Line} (h : formatFault line = none) (hdest : dest line ≠ []) :
    isOrigin (dest line) = true := by
  unfold formatFault at h
  split_ifs at h with hlength horigin
  simp only [Bool.or_eq_true, Bool.not_eq_true', decide_eq_true_eq, not_or, Bool.not_eq_false, hdest, false_or] at horigin
  exact horigin.2

theorem found_append {lines : List (MovedLint.Line × ℕ)} {ports : List PortRemoval.Text} {k : ℕ}
    (hports : ∀ port ∈ ports, IsPort c tree port) (htoday : isDate c.today = true)
    (formed : ∀ l ∈ lines, formatFault l.1 = none) (h : Found tree lines) :
    Found (gitRm c ports tree) (lines ++ (ports.map (movedLine c)).zipIdx k) := by
  have hentries : ∀ port ∈ ports, Entry c tree port := fun port hport => by
    obtain ⟨cat, name, rfl, hcat, hname⟩ := (hports port hport).named
    exact movedLine_entry tree hcat hname htoday
  have hadded : ∀ l ∈ (ports.map (movedLine c)).zipIdx k, dest l.1 = [] := fun l hl => by
    obtain ⟨port, hport, heq⟩ := List.mem_map.1 (List.fst_mem_of_mem_zipIdx hl)
    rw [← heq]
    exact (hentries port hport).dest
  intro before l after hsplit hdest
  obtain ⟨mid, rfl, hrest⟩ | ⟨mid, rfl, hrest⟩ := List.append_eq_append_iff.1 hsplit
  · exact absurd (hadded l (hrest ▸ List.mem_append_right _ (List.mem_cons_self ..))) hdest
  · cases mid with
    | nil =>
      have hl : l ∈ (ports.map (movedLine c)).zipIdx k := by
        rw [List.nil_append] at hrest
        rw [← hrest]
        exact List.mem_cons_self ..
      exact absurd (hadded l hl) hdest
    | cons first mid =>
      obtain ⟨rfl, rfl⟩ := List.cons.inj hrest
      obtain hthere | ⟨m, hm, heq⟩ := h before l mid rfl hdest
      · by_cases hgone : ∃ port ∈ ports, gitRm.components port <+: gitRm.components (origin (dest l.1))
        · obtain ⟨port, hport, hbelow⟩ := hgone
          have hsource := (hentries port hport).source
          obtain ⟨cat, name, rfl, hcat, hname⟩ := (hports port hport).named
          have hformed := formed l (List.mem_append_right _ (List.mem_cons_self ..))
          obtain ⟨m, hm, hline⟩ : ∃ m ∈ (ports.map (movedLine c)).zipIdx k, m.1 = movedLine c (cat ++ '/' :: name) := by
            have hmem := List.mem_map_of_mem (f := movedLine c) hport
            rw [← List.zipIdx_map_fst k (ports.map (movedLine c))] at hmem
            exact List.mem_map.1 hmem
          refine .inr ⟨m, List.mem_append_right _ hm, ?_⟩
          rw [hline, hsource, origin_below hcat hname (dest_origin hformed hdest) hbelow, origin_self hcat hname]
        · left
          rw [gitRm_eq hports]
          simp only [Bool.and_eq_true, Bool.not_eq_true', List.any_eq_false, decide_eq_true_eq]
          exact ⟨hthere, fun port hport hbelow => hgone ⟨port, hport, hbelow⟩⟩
      · exact .inr ⟨m, List.mem_append_left _ hm, heq⟩

/-- A port that has been removed is not in the tree any more, and none has come. -/
theorem gitRm_gone {ports : List PortRemoval.Text} (hports : ∀ port ∈ ports, IsPort c tree port) :
    (∀ port, (gitRm c ports tree).hasMakefile port = true → tree.hasMakefile port = true ∧ port ∉ ports) ∧
      (gitRm c ports tree).hasFlavor = tree.hasFlavor := by
  rw [gitRm_eq hports]
  refine ⟨fun port hport => ?_, rfl⟩
  simp only [Bool.and_eq_true, Bool.not_eq_true', List.any_eq_false, decide_eq_true_eq] at hport
  exact ⟨hport.1, fun hmem => hport.2 port hmem (List.prefix_refl _)⟩

theorem sound_mono {tree' : Tree} (hports : ∀ port, tree'.hasMakefile port = true → tree.hasMakefile port = true)
    (hflavors : tree'.hasFlavor = tree.hasFlavor) {line : MovedLint.Line} (h : Sound tree line) : Sound tree' line := by
  refine ⟨h.format, fun hdest hport hflavor => ?_, h.reason⟩
  rw [hflavors]
  exact h.flavor hdest (hports _ hport) hflavor

/-- MOVEDlint has nothing to say about a file and its tree. -/
def Clean (tree : Tree) (file : List MovedLint.Line) : Prop := (lint tree firstDate [] file).printed = []

theorem clean_iff (tree : Tree) (file : List MovedLint.Line) : Clean tree file ↔
    Faultless tree firstDate (MovedLint.read firstDate file) ∧ ¬ ∃ l ∈ MovedLint.read firstDate file, Resurrected tree l.1 :=
  (outcome_nil tree firstDate file).2

theorem flavor_self (hcat : Name cat) (hname : Name name) : flavor (cat ++ '/' :: name) = [] :=
  if_neg (named_excludes hcat hname (by decide) (by decide))

theorem rmport_tree (c : Setting) (args : List PortRemoval.Text) (p : Ports) (moved : List PortRemoval.Line) (tree : Tree) :
    (rmport c args p moved tree).2 = (gitRm c (rmport c args p moved tree).1.gitrmlist tree, true) ∨
      (rmport c args p moved tree).2 = (tree, false) := by
  unfold rmport
  cases rounds c args args ⟨p, moved, []⟩ with
  | ok w => exact .inl rfl
  | error w => exact .inr rfl

theorem read_edited {ports : List PortRemoval.Text} (hports : ∀ port ∈ ports, IsPort c tree port)
    (htoday : isDate c.today = true) (moved : List MovedLint.Line) :
    MovedLint.read firstDate (moved ++ ports.map (movedLine c)) =
      MovedLint.read firstDate moved ++ (ports.map (movedLine c)).zipIdx (1 + moved.length) := by
  have hentries : ∀ line ∈ ports.map (movedLine c), ∃ port, line = movedLine c port ∧ Entry c tree port := fun line hline => by
    obtain ⟨port, hport, rfl⟩ := List.mem_map.1 hline
    obtain ⟨cat, name, rfl, hcat, hname⟩ := (hports port hport).named
    exact ⟨_, rfl, movedLine_entry tree hcat hname htoday⟩
  refine read_append (fun line hline => ?_) (fun line hline => ?_)
  · obtain ⟨port, rfl, hentry⟩ := hentries line hline
    exact hentry.comment
  · obtain ⟨port, rfl, hentry⟩ := hentries line hline
    rw [hentry.date]
    exact firstDate_le htoday

theorem clean_removed {ports : List PortRemoval.Text} (hports : ∀ port ∈ ports, IsPort c tree port)
    (htoday : isDate c.today = true) {moved : List MovedLint.Line} (hclean : Clean tree moved) :
    Clean (gitRm c ports tree) (moved ++ ports.map (movedLine c)) ↔ Recordable c (MovedLint.read firstDate moved) ports := by
  obtain ⟨⟨horderly, hfound⟩, hgone⟩ := (clean_iff tree moved).1 hclean
  obtain ⟨hless, hflavors⟩ := gitRm_gone hports
  have hpresent : ∀ port, (gitRm c ports tree).hasMakefile port = true → tree.hasMakefile port = true := fun port h => (hless port h).1
  have hentries : ∀ port ∈ ports, Entry c (gitRm c ports tree) port := fun port hport => by
    obtain ⟨cat, name, rfl, hcat, hname⟩ := (hports port hport).named
    exact movedLine_entry _ hcat hname htoday
  rw [clean_iff, read_edited hports htoday, Faultless, orderly_append hentries htoday]
  constructor
  · exact fun h => h.1.1.2
  · intro hrecordable
    have horderly' : Orderly (gitRm c ports tree) (start firstDate) (MovedLint.read firstDate moved) :=
      ⟨fun l hl => sound_mono hpresent hflavors (horderly.sound l hl), horderly.distinct, horderly.new, horderly.dates⟩
    have hformed : ∀ l ∈ MovedLint.read firstDate moved, formatFault l.1 = none := fun l hl => (horderly.sound l hl).format
    refine ⟨⟨⟨horderly', hrecordable⟩, found_append hports htoday hformed hfound⟩, ?_⟩
    rintro ⟨l, hl, hport, hflavor⟩
    rcases List.mem_append.1 hl with hl | hl
    · rw [hflavors] at hflavor
      exact hgone ⟨l, hl, hpresent _ hport, hflavor⟩
    · obtain ⟨port, hmem, heq⟩ := List.mem_map.1 (List.fst_mem_of_mem_zipIdx hl)
      rw [← heq, (hentries port hmem).source] at hport
      obtain ⟨cat, name, rfl, hcat, hname⟩ := (hports port hmem).named
      rw [origin_self hcat hname] at hport
      exact (hless _ hport).2 hmem

theorem clean_aborted {ports : List PortRemoval.Text} (hports : ∀ port ∈ ports, IsPort c tree port)
    (htoday : isDate c.today = true) {moved : List MovedLint.Line} (hclean : Clean tree moved) :
    Clean tree (moved ++ ports.map (movedLine c)) ↔ ports = [] := by
  constructor
  · intro h
    by_contra hne
    obtain ⟨port, rest, rfl⟩ := List.exists_cons_of_ne_nil hne
    obtain ⟨-, hgone⟩ := (clean_iff tree _).1 h
    rw [read_edited hports htoday] at hgone
    have hport := hports port (List.mem_cons_self ..)
    obtain ⟨cat, name, rfl, hcat, hname⟩ := hport.named
    refine hgone ⟨(movedLine c (cat ++ '/' :: name), 1 + moved.length), List.mem_append_right _ (List.mem_cons_self ..), ?_, .inl ?_⟩
    · rw [(movedLine_entry tree hcat hname htoday).source, origin_self hcat hname]
      exact hport.present
    · rw [(movedLine_entry tree hcat hname htoday).source, flavor_self hcat hname]
  · rintro rfl
    rw [List.map_nil, List.append_nil]
    exact hclean

/-- Where MOVEDlint has nothing to say, it has nothing to say after a run of rmport that came to its end just where
each port that was removed could be told: once, with a new source, a reason in one field without a dot at its end and a
date that is not before the others. After a run that was given up it has nothing to say just where nothing was edited. -/
theorem lint_after {args : List PortRemoval.Text} {p : Ports} {moved : List MovedLint.Line}
    (hargs : ∀ arg ∈ args, ∀ found, findCatport c p.portsdir arg = some found → IsPort c tree (catport found)) (htoday : isDate c.today = true) (hclean : Clean tree moved) :
    Clean (rmport c args p moved tree).2.1 (rmport c args p moved tree).1.moved ↔
      if (rmport c args p moved tree).2.2 then
        Recordable c (MovedLint.read firstDate moved) (rmport c args p moved tree).1.gitrmlist
      else (rmport c args p moved tree).1.gitrmlist = [] := by
  obtain ⟨kept, hkept, hwork⟩ := rmport_work c args p moved tree
  have hlist : (rmport c args p moved tree).1.gitrmlist = kept.map catport := by
    rw [hwork, edits_gitrmlist]
    rfl
  have hmoved : (rmport c args p moved tree).1.moved = moved ++ (kept.map catport).map (movedLine c) := by
    rw [hwork, edits_moved]
  have hports : ∀ port ∈ kept.map catport, IsPort c tree port := fun port hport => by
    obtain ⟨found, hfound, rfl⟩ := List.mem_map.1 hport
    obtain ⟨arg, harg, heq⟩ := List.mem_filterMap.1 (hkept.subset hfound)
    exact hargs arg harg found heq
  obtain htree | htree := rmport_tree c args p moved tree
  · rw [htree, hmoved, hlist, if_pos rfl]
    exact clean_removed hports htoday hclean
  · rw [htree, hmoved, hlist, if_neg Bool.false_ne_true]
    exact clean_aborted hports htoday hclean

theorem gtk_clean : Clean (rmport sampleSetting ["net/gtk+".toList] samplePorts sampleMoved sampleTree).2.1
    (rmport sampleSetting ["net/gtk+".toList] samplePorts sampleMoved sampleTree).1.moved := by
  have hargs : ∀ arg ∈ ["net/gtk+".toList], ∀ found,
      findCatport sampleSetting samplePorts.portsdir arg = some found → IsPort sampleSetting sampleTree (catport found) := by
    intro arg harg found hfound
    have hproper := gtk_proper arg harg found hfound
    obtain rfl := List.mem_singleton.1 harg
    have hgtk : findCatport sampleSetting samplePorts.portsdir "net/gtk+".toList = some "net/gtk+".toList := by decide +kernel
    obtain rfl := Option.some.inj (hgtk.symm.trans hfound)
    exact ⟨⟨_, _, rfl, hproper⟩, by decide +kernel, rfl⟩
  have hclean : Clean sampleTree sampleMoved := by
    unfold Clean
    decide +kernel
  have hended : (rmport sampleSetting ["net/gtk+".toList] samplePorts sampleMoved sampleTree).2.2 = true := by decide +kernel
  have hremoved : (rmport sampleSetting ["net/gtk+".toList] samplePorts sampleMoved sampleTree).1.gitrmlist =
      ["net/gtk+".toList] := by decide +kernel
  have hread : MovedLint.read firstDate sampleMoved = [("x11/gtk|net/gtk+|2025-05-05|Moved".toList, 1)] := by decide +kernel
  have hrecordable : Recordable sampleSetting (MovedLint.read firstDate sampleMoved)
      (rmport sampleSetting ["net/gtk+".toList] samplePorts sampleMoved sampleTree).1.gitrmlist := by
    rw [hremoved, hread]
    refine ⟨List.forall_mem_singleton.2 ?_, List.nodup_singleton _, List.forall_mem_singleton.2 (List.forall_mem_singleton.2 ?_),
      fun _ => List.forall_mem_singleton.2 ?_⟩
    · exact ⟨by decide +kernel, by decide +kernel⟩
    · decide +kernel
    · decide +kernel
  exact (lint_after hargs (by decide +kernel) hclean).2 (by rw [if_pos hended]; exact hrecordable)

end Lint

end Mports.RemovalRun
