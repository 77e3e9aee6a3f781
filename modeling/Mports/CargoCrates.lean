import Mports.PerlText
import Mports.ShellText
import Mathlib.Data.List.Induction
import Mathlib.Data.List.Nodup
import Mathlib.Logic.Function.Basic

set_option autoImplicit false

namespace Mports.CargoCrates
open ShellText

abbrev Line := List Char

/-- `/^key = ".*"/`. -/
def isField (key : List Char) (line : Line) : Bool :=
  let start := key ++ " = \"".toList
  start.isPrefixOf line && decide ('"' ∈ line.drop start.length)

/-- `$3` without quotation marks. -/
def value (line : Line) : List Char := (field 3 line).filter (· ≠ '"')

structure Record where
  name : List Char
  version : List Char
  source : List Char

def unknown : Record := ⟨"<unknown>".toList, "<unknown>".toList, "<unknown>".toList⟩

def readField (r : Record) (line : Line) : Record :=
  let r := if isField "name".toList line then { r with name := value line } else r
  let r := if isField "version".toList line then { r with version := value line } else r
  if isField "source".toList line then { r with source := value line } else r

/-- `gsub(/#/, "\\#", crate_source)`. -/
def escape (source : List Char) : List Char := source.flatMap fun c => if c = '#' then ['\\', '#'] else [c]

def isGit (source : List Char) : Bool := "git+".toList.isPrefixOf source

def cratesIo : List Char := "registry+https://github.com/rust-lang/crates.io-index".toList

/-- `crates` and `git_crates`, the latter by its keys. -/
structure Listing where
  crates : List (List Char)
  keys : List (List Char)
  names : List Char → List Char

def Listing.addGit (l : Listing) (key name : List Char) : Listing :=
  { l with
    keys := if key ∈ l.keys then l.keys else l.keys ++ [key]
    names := Function.update l.names key (if l.names key ≠ [] then l.names key ++ ',' :: name else name) }

def addCrate (l : Listing) (r : Record) : Listing :=
  if isGit r.source then l.addGit (escape r.source) r.name
  else if r.source = cratesIo then { l with crates := l.crates ++ [r.name ++ '-' :: r.version] }
  else l

structure State where
  listing : Listing
  record : Record

def step (s : State) (line : Line) : State :=
  let s := { s with record := readField s.record line }
  if line = "[[package]]".toList then ⟨addCrate s.listing s.record, unknown⟩ else s

/-- The order in which awk goes through an array. -/
structure Order where
  order : List (List Char) → List (List Char)
  perm : ∀ keys, (order keys).Perm keys

/-- `crates` at the end. -/
def crates (o : Order) (lines : List Line) : List (List Char) :=
  let s := lines.foldl step ⟨⟨[], [], fun _ => []⟩, unknown⟩
  let l := addCrate s.listing s.record
  l.crates ++ (o.order l.keys).map fun key => l.names key ++ '@' :: key

def printArray (start : List Char) : List (List Char) → List Char
  | [] => []
  | [crate] => start ++ '\t' :: crate ++ ['\n']
  | crate :: crates => start ++ '\t' :: crate ++ " \\\n".toList ++ printArray ['\t'] crates

def cargoCrates (o : Order) (lines : List Line) : List Char := printArray "CARGO_CRATES=".toList (crates o lines)

def wordsOf (text : List Char) : List (List Char) := ((fields text).drop 1).filter (· ≠ ['\\'])

/-- A line that is neither a header of a package nor one of the fields. -/
def Plain (line : Line) : Prop :=
  line ≠ "[[package]]".toList ∧ isField "name".toList line = false ∧ isField "version".toList line = false ∧
    isField "source".toList line = false

instance : DecidablePred Plain := fun line =>
  inferInstanceAs (Decidable (line ≠ "[[package]]".toList ∧ isField "name".toList line = false ∧
    isField "version".toList line = false ∧ isField "source".toList line = false))

def Quotable (word : List Char) : Prop := word ≠ [] ∧ ∀ c ∈ word, isBlank c = false ∧ c ≠ '"'

structure Package where
  name : List Char
  version : List Char
  source : Option (List Char)
  others : List Line
  name_word : Quotable name
  name_crate : ∀ c ∈ name, c ≠ ',' ∧ c ≠ '@'
  version_word : Quotable version
  version_crate : '@' ∉ version
  source_word : ∀ s ∈ source, Quotable s
  others_plain : ∀ line ∈ others, Plain line

def fieldLine (key word : List Char) : Line := key ++ " = ".toList ++ '"' :: word ++ ['"']

def Package.lines (p : Package) : List Line :=
  fieldLine "name".toList p.name :: fieldLine "version".toList p.version ::
    (p.source.map (fieldLine "source".toList)).toList ++ p.others

def Package.record (p : Package) : Record := ⟨p.name, p.version, p.source.getD unknown.source⟩

/-- A table after the packages: a patch that no package uses, or one without such fields. -/
inductive Trailing where
  | patch (p : Package)
  | other (lines : List Line) (plain : ∀ line ∈ lines, Plain line)

def Trailing.lines : Trailing → List Line
  | patch p => "[[patch.unused]]".toList :: p.lines
  | other lines _ => lines

structure Lock where
  top : List Line
  packages : List Package
  trailing : List Trailing
  top_plain : ∀ line ∈ top, Plain line

def Lock.lines (lock : Lock) : List Line :=
  lock.top ++ (lock.packages.flatMap fun p => "[[package]]".toList :: p.lines) ++ lock.trailing.flatMap Trailing.lines

def namesOf (source : List Char) (packages : List Record) : List (List Char) :=
  (packages.filter fun p => p.source = source).map Record.name

/-- The packages from the index, and one entry for each git source, in any order. -/
def Listed (packages : List Record) (crates : List (List Char)) : Prop :=
  ∃ sources : List (List Char), sources.Nodup ∧
    (∀ s, s ∈ sources ↔ isGit s ∧ ∃ p ∈ packages, p.source = s) ∧
    crates = ((packages.filter fun p => p.source = cratesIo).map fun p => p.name ++ '-' :: p.version) ++
      sources.map fun s => [','].intercalate (namesOf s packages) ++ '@' :: escape s

def Faithful (lock : Lock) (text : List Char) : Prop := Listed (lock.packages.map Package.record) (wordsOf text)

/-- The fields of the tables after a package take the place of its own. -/
def overwrite (r : Record) : Trailing → Record
  | .patch p => ⟨p.name, p.version, p.source.getD r.source⟩
  | .other _ _ => r

/-- How a package is listed: not at all, by itself, or with those of a git source. -/
inductive Entry where
  | none
  | crate (text : List Char)
  | git (source name : List Char)

def entryOf (r : Record) : Entry :=
  if isGit r.source then .git r.source r.name
  else if r.source = cratesIo then .crate (r.name ++ '-' :: r.version)
  else .none

def Lock.last (lock : Lock) : Record := (unknown :: lock.packages.map Package.record).getLast (List.cons_ne_nil _ _)

section Reading

theorem isField_fieldLine (key key' word : List Char)
    (hkey : key ∈ ["name".toList, "version".toList, "source".toList])
    (hkey' : key' ∈ ["name".toList, "version".toList, "source".toList]) :
    isField key' (fieldLine key word) = decide (key' = key) := by
  have hstart : (key ++ " = \"".toList) <+: fieldLine key word := ⟨word ++ ['"'], by simp [fieldLine]⟩
  by_cases hsame : key' = key
  · subst hsame
    simp only [isField, List.isPrefixOf_iff_prefix.2 hstart, decide_true, Bool.true_and, decide_eq_true_eq]
    have hdrop : (fieldLine key' word).drop (key' ++ " = \"".toList).length = word ++ ['"'] := by
      simp [fieldLine]
    rw [hdrop]
    simp
  · rw [decide_eq_false hsame, Bool.eq_false_iff]
    intro h
    rw [isField, Bool.and_eq_true, List.isPrefixOf_iff_prefix] at h
    have hpair := List.prefix_or_prefix_of_prefix h.1 hstart
    revert hpair hsame
    simp only [List.mem_cons, List.not_mem_nil, or_false] at hkey hkey'
    rcases hkey with rfl | rfl | rfl <;> rcases hkey' with rfl | rfl | rfl <;> decide

theorem value_fieldLine {key word : List Char} (hkey : ∀ c ∈ key, isBlank c = false) (hne : key ≠ [])
    (h : Quotable word) : value (fieldLine key word) = word := by
  have hquoted : ∀ c ∈ '"' :: word ++ ['"'], isBlank c = false := by
    intro c hc
    simp only [List.cons_append, List.mem_cons, List.mem_append, List.not_mem_nil, or_false] at hc
    rcases hc with rfl | hc | rfl
    · rfl
    · exact (h.2 c hc).1
    · rfl
  have hfields : fields (fieldLine key word) = [key, ['='], '"' :: word ++ ['"']] := by
    have hline : fieldLine key word = key ++ ' ' :: (['='] ++ ' ' :: ('"' :: word ++ ['"'])) := by simp [fieldLine]
    rw [hline, fields_word hkey hne rfl,
      fields_word (List.forall_iff_forall_mem.1 (by decide)) (List.cons_ne_nil _ _) rfl, fields_last hquoted (by simp)]
  rw [value, field, hfields]
  change ('"' :: word ++ ['"']).filter _ = word
  simpa using fun c hc => (h.2 c hc).2

theorem readField_name {word : List Char} (h : Quotable word) (r : Record) :
    readField r (fieldLine "name".toList word) = { r with name := word } := by
  have hvalue := value_fieldLine (List.forall_iff_forall_mem.1 (by decide)) (by decide : "name".toList ≠ []) h
  have hkey := fun key' => isField_fieldLine "name".toList key' word (by decide)
  simp only [readField, hkey "name".toList (by decide), hkey "version".toList (by decide),
    hkey "source".toList (by decide), hvalue]
  rfl

theorem readField_version {word : List Char} (h : Quotable word) (r : Record) :
    readField r (fieldLine "version".toList word) = { r with version := word } := by
  have hvalue := value_fieldLine (List.forall_iff_forall_mem.1 (by decide)) (by decide : "version".toList ≠ []) h
  have hkey := fun key' => isField_fieldLine "version".toList key' word (by decide)
  simp only [readField, hkey "name".toList (by decide), hkey "version".toList (by decide),
    hkey "source".toList (by decide), hvalue]
  rfl

theorem readField_source {word : List Char} (h : Quotable word) (r : Record) :
    readField r (fieldLine "source".toList word) = { r with source := word } := by
  have hvalue := value_fieldLine (List.forall_iff_forall_mem.1 (by decide)) (by decide : "source".toList ≠ []) h
  have hkey := fun key' => isField_fieldLine "source".toList key' word (by decide)
  simp only [readField, hkey "name".toList (by decide), hkey "version".toList (by decide),
    hkey "source".toList (by decide), hvalue]
  rfl

theorem step_plain {line : Line} (h : Plain line) (s : State) : step s line = s := by
  obtain ⟨hheader, hname, hversion, hsource⟩ := h
  have hread : readField s.record line = s.record := by
    simp only [readField, hname, hversion, hsource, Bool.false_eq_true, if_false]
  rw [step, hread, if_neg hheader]

theorem foldl_plain {lines : List Line} (h : ∀ line ∈ lines, Plain line) (s : State) : lines.foldl step s = s := by
  induction lines with
  | nil => rfl
  | cons line lines ih =>
    rw [List.foldl_cons, step_plain (h line List.mem_cons_self), ih fun l hl => h l (List.mem_cons_of_mem _ hl)]

theorem step_header (s : State) : step s "[[package]]".toList = ⟨addCrate s.listing s.record, unknown⟩ := by
  have hread : readField s.record "[[package]]".toList = s.record := rfl
  simp only [step, hread, if_true]

theorem fieldLine_header (key word : List Char) : fieldLine key word ≠ "[[package]]".toList := by
  intro h
  have hlast := congrArg List.getLast? h
  rw [fieldLine, List.getLast?_concat] at hlast
  exact absurd hlast (by decide)

theorem step_fieldLine (s : State) (key word : List Char) :
    step s (fieldLine key word) = { s with record := readField s.record (fieldLine key word) } :=
  if_neg (fieldLine_header key word)

theorem package_read (p : Package) (s : State) :
    p.lines.foldl step s = ⟨s.listing, ⟨p.name, p.version, p.source.getD s.record.source⟩⟩ := by
  have hothers := foldl_plain p.others_plain
  have hword := p.source_word
  simp only [Package.lines, List.cons_append, List.foldl_cons, step_fieldLine, readField_name p.name_word,
    readField_version p.version_word, List.foldl_append]
  cases hsource : p.source with
  | none => exact hothers _
  | some source =>
    rw [hsource] at hword
    rw [Option.map_some, Option.toList_some, List.foldl_cons, List.foldl_nil, step_fieldLine,
      readField_source (hword source rfl), hothers]
    rfl

theorem packages_read (packages : List Package) (s : State) :
    (packages.flatMap fun p => "[[package]]".toList :: p.lines).foldl step s =
      ⟨((s.record :: packages.map Package.record).dropLast).foldl addCrate s.listing,
        (s.record :: packages.map Package.record).getLast (List.cons_ne_nil _ _)⟩ := by
  induction packages generalizing s with
  | nil => rfl
  | cons p packages ih =>
    rw [List.flatMap_cons, List.cons_append, List.foldl_cons, step_header, List.foldl_append, package_read, ih,
      List.map_cons, List.dropLast_cons_cons, List.foldl_cons, List.getLast_cons (List.cons_ne_nil _ _)]
    rfl

theorem trailing_read (trailing : List Trailing) (s : State) :
    (trailing.flatMap Trailing.lines).foldl step s = ⟨s.listing, trailing.foldl overwrite s.record⟩ := by
  induction trailing generalizing s with
  | nil => rfl
  | cons t trailing ih =>
    have hone : t.lines.foldl step s = ⟨s.listing, overwrite s.record t⟩ := by
      cases t with
      | patch p =>
        have hheader : Plain "[[patch.unused]]".toList := by decide
        rw [Trailing.lines, List.foldl_cons, step_plain hheader, package_read]
        rfl
      | other lines plain => exact foldl_plain plain s
    rw [List.flatMap_cons, List.foldl_append, hone, ih]
    rfl

/-- The records that are listed: the last as the tables after it have left it. -/
def Lock.seen (lock : Lock) : List Record :=
  (unknown :: lock.packages.map Package.record).dropLast ++ [lock.trailing.foldl overwrite lock.last]

theorem crates_eq (o : Order) (lock : Lock) : crates o lock.lines =
    (lock.seen.foldl addCrate ⟨[], [], fun _ => []⟩).crates ++
      (o.order (lock.seen.foldl addCrate ⟨[], [], fun _ => []⟩).keys).map fun key =>
        (lock.seen.foldl addCrate ⟨[], [], fun _ => []⟩).names key ++ '@' :: key := by
  rw [crates, Lock.lines, List.foldl_append, List.foldl_append, foldl_plain lock.top_plain, packages_read,
    trailing_read, Lock.seen, List.foldl_concat]
  rfl

end Reading

section Listings

theorem escape_head (source : List Char) : (escape source).head? ≠ some '#' := by
  cases source with
  | nil => simp [escape]
  | cons c source =>
    by_cases hc : c = '#'
    · simp [escape, hc]
    · simp [escape, hc]

theorem escape_cons (c : Char) (source : List Char) :
    escape (c :: source) = (if c = '#' then ['\\', '#'] else [c]) ++ escape source := rfl

theorem escape_injective {s t : List Char} (h : escape s = escape t) : s = t := by
  have hhead : ∀ {c : Char} {s t : List Char}, c ≠ '#' → escape ('#' :: s) ≠ escape (c :: t) := by
    intro c s t hc heq
    rw [escape_cons, escape_cons, if_pos rfl, if_neg hc] at heq
    have hrest := (List.cons.inj heq).2
    change '#' :: escape s = escape t at hrest
    exact escape_head t (by rw [← hrest]; rfl)
  induction s generalizing t with
  | nil =>
    cases t with
    | nil => rfl
    | cons d t =>
      rw [escape_cons] at h
      split_ifs at h <;> cases h
  | cons c s ih =>
    cases t with
    | nil =>
      rw [escape_cons] at h
      split_ifs at h <;> cases h
    | cons d t =>
      by_cases hc : c = '#' <;> by_cases hd : d = '#'
      · subst hc hd
        rw [escape_cons, escape_cons, List.append_cancel_left_eq] at h
        rw [ih h]
      · subst hc
        exact absurd h (hhead hd)
      · subst hd
        exact absurd h.symm (hhead hc)
      · rw [escape_cons, escape_cons, if_neg hc, if_neg hd] at h
        obtain ⟨rfl, hrest⟩ := List.cons.inj h
        rw [ih hrest]

theorem git_not_cratesIo {source : List Char} (h : isGit source) : source ≠ cratesIo := by
  rintro rfl
  exact absurd h (by decide)

theorem namesOf_append (source : List Char) (a b : List Record) :
    namesOf source (a ++ b) = namesOf source a ++ namesOf source b := by
  simp [namesOf]

theorem intercalate_concat (names : List (List Char)) (name : List Char) :
    [','].intercalate (names ++ [name]) = if names = [] then name else [','].intercalate names ++ ',' :: name := by
  induction names with
  | nil => simp
  | cons n names ih =>
    cases names with
    | nil => simp
    | cons n' names =>
      rw [List.cons_append, List.cons_append, List.intercalate_cons_cons, ← List.cons_append, ih,
        if_neg (List.cons_ne_nil _ _), if_neg (List.cons_ne_nil _ _), List.intercalate_cons_cons]
      simp

theorem intercalate_eq_nil {names : List (List Char)} (h : ∀ name ∈ names, name ≠ []) :
    [','].intercalate names = [] ↔ names = [] := by
  cases names with
  | nil => simp
  | cons n names =>
    cases names with
    | nil => simpa using h n List.mem_cons_self
    | cons n' names => simp [List.intercalate_cons_cons]

structure Holds (l : Listing) (records : List Record) : Prop where
  crates : l.crates = (records.filter fun r => r.source = cratesIo).map fun r => r.name ++ '-' :: r.version
  nodup : l.keys.Nodup
  keys : ∀ key, key ∈ l.keys ↔ ∃ r ∈ records, isGit r.source ∧ escape r.source = key
  names : ∀ s, isGit s → l.names (escape s) = [','].intercalate (namesOf s records)

theorem Holds.addCrate {l : Listing} {records : List Record} (h : Holds l records)
    (hnames : ∀ r ∈ records, r.name ≠ []) (r : Record) : Holds (addCrate l r) (records ++ [r]) := by
  unfold CargoCrates.addCrate
  split_ifs with hgit hindex
  · have hnot := git_not_cratesIo hgit
    refine ⟨?_, ?_, fun key => ?_, fun s hs => ?_⟩
    · simp [Listing.addGit, h.crates, hnot]
    · unfold Listing.addGit
      dsimp only
      split_ifs with hkey
      · exact h.nodup
      · exact h.nodup.append (List.nodup_singleton _) (by simpa using hkey)
    · have hkeys : key ∈ (l.addGit (escape r.source) r.name).keys ↔ key ∈ l.keys ∨ key = escape r.source := by
        unfold Listing.addGit
        dsimp only
        split_ifs with hkey
        · exact ⟨.inl, fun hmem => hmem.elim id (· ▸ hkey)⟩
        · simp
      rw [hkeys, h.keys]
      simp only [List.mem_append, List.mem_singleton, or_and_right, exists_or, exists_eq_left, hgit, true_and]
      exact or_congr_right eq_comm
    · unfold Listing.addGit
      dsimp only
      rw [namesOf_append]
      by_cases hsame : s = r.source
      · have hone : namesOf s [r] = [r.name] := by simp [namesOf, hsame]
        have hnil : [','].intercalate (namesOf s records) = [] ↔ namesOf s records = [] := by
          refine intercalate_eq_nil fun name hname => ?_
          obtain ⟨p, hp, rfl⟩ := List.mem_map.1 hname
          exact hnames p (List.mem_of_mem_filter hp)
        rw [← hsame, Function.update_self, h.names s hs, hone, intercalate_concat]
        by_cases hempty : namesOf s records = []
        · rw [if_neg (by simp [hempty]), if_pos hempty]
        · rw [if_pos (hnil.not.2 hempty), if_neg hempty]
      · have hother : namesOf s [r] = [] := by simp [namesOf, Ne.symm hsame]
        rw [Function.update_of_ne fun heq => hsame (escape_injective heq), h.names s hs, hother, List.append_nil]
  · refine ⟨?_, h.nodup, fun key => ?_, fun s hs => ?_⟩
    · simp [h.crates, hindex]
    · simp [h.keys, hgit]
    · have hother : namesOf s [r] = [] := by
        simp only [namesOf, List.map_eq_nil_iff, List.filter_eq_nil_iff, List.mem_singleton, forall_eq,
          decide_eq_true_eq]
        rintro rfl
        exact hgit hs
      rw [namesOf_append, hother, List.append_nil, h.names s hs]
  · refine ⟨?_, h.nodup, fun key => ?_, fun s hs => ?_⟩
    · simp [h.crates, hindex]
    · simp [h.keys, hgit]
    · have hother : namesOf s [r] = [] := by
        simp only [namesOf, List.map_eq_nil_iff, List.filter_eq_nil_iff, List.mem_singleton, forall_eq,
          decide_eq_true_eq]
        rintro rfl
        exact hgit hs
      rw [namesOf_append, hother, List.append_nil, h.names s hs]

theorem held {records : List Record} (hnames : ∀ r ∈ records, r.name ≠ []) :
    Holds (records.foldl CargoCrates.addCrate ⟨[], [], fun _ => []⟩) records := by
  induction records using List.reverseRecOn with
  | nil =>
    refine ⟨rfl, List.nodup_nil, fun key => ?_, fun s hs => rfl⟩
    simp
  | append_singleton records r ih =>
    rw [List.foldl_concat]
    have hbefore : ∀ r ∈ records, r.name ≠ [] := fun r hr => hnames r (List.mem_append_left _ hr)
    exact (ih hbefore).addCrate hbefore r

/-- A record whose texts a listing keeps apart. -/
structure Legible (r : Record) : Prop where
  name_ne : r.name ≠ []
  name_word : ∀ c ∈ r.name, isBlank c = false
  name_crate : ∀ c ∈ r.name, c ≠ ',' ∧ c ≠ '@'
  version_word : ∀ c ∈ r.version, isBlank c = false
  version_crate : '@' ∉ r.version
  source_word : ∀ c ∈ r.source, isBlank c = false

theorem unknown_legible : Legible unknown where
  name_ne := by decide
  name_word := List.forall_iff_forall_mem.1 (by decide)
  name_crate := List.forall_iff_forall_mem.1 (by decide)
  version_word := List.forall_iff_forall_mem.1 (by decide)
  version_crate := by decide
  source_word := List.forall_iff_forall_mem.1 (by decide)

theorem Package.legible (p : Package) {source : List Char} (h : ∀ c ∈ source, isBlank c = false) :
    Legible ⟨p.name, p.version, p.source.getD source⟩ where
  name_ne := p.name_word.1
  name_word := fun c hc => (p.name_word.2 c hc).1
  name_crate := p.name_crate
  version_word := fun c hc => (p.version_word.2 c hc).1
  version_crate := p.version_crate
  source_word := by
    have hword := p.source_word
    cases hsource : p.source with
    | none => exact h
    | some s =>
      rw [hsource] at hword
      exact fun c hc => ((hword s rfl).2 c hc).1

theorem overwrite_legible {r : Record} (h : Legible r) (trailing : List Trailing) :
    Legible (trailing.foldl overwrite r) := by
  induction trailing generalizing r with
  | nil => exact h
  | cons t trailing ih =>
    rw [List.foldl_cons]
    cases t with
    | patch p => exact ih (p.legible h.source_word)
    | other lines plain => exact ih h

theorem Lock.records_legible (lock : Lock) : ∀ r ∈ unknown :: lock.packages.map Package.record, Legible r := by
  intro r hr
  rw [List.mem_cons] at hr
  obtain rfl | hr := hr
  · exact unknown_legible
  · obtain ⟨p, -, rfl⟩ := List.mem_map.1 hr
    exact p.legible unknown_legible.source_word

theorem Lock.records_split (lock : Lock) :
    unknown :: lock.packages.map Package.record =
      (unknown :: lock.packages.map Package.record).dropLast ++ [lock.last] :=
  (List.dropLast_concat_getLast (List.cons_ne_nil _ _)).symm

theorem Lock.seen_legible (lock : Lock) : ∀ r ∈ lock.seen, Legible r := by
  intro r hr
  rw [Lock.seen, List.mem_append, List.mem_singleton] at hr
  obtain hr | rfl := hr
  · exact lock.records_legible r ((List.dropLast_subset _) hr)
  · exact overwrite_legible (lock.records_legible _ (List.getLast_mem _)) lock.trailing

theorem crates_listed (o : Order) (lock : Lock) : Listed lock.seen (crates o lock.lines) := by
  have hheld := held fun r hr => (lock.seen_legible r hr).name_ne
  set l := lock.seen.foldl addCrate ⟨[], [], fun _ => []⟩ with hl
  have hsource : ∀ key ∈ o.order l.keys, ∃ s, isGit s ∧ escape s = key := by
    intro key hkey
    obtain ⟨r, -, hgit, hescape⟩ := (hheld.keys key).1 ((o.perm l.keys).mem_iff.1 hkey)
    exact ⟨r.source, hgit, hescape⟩
  choose! source hgit hescape using hsource
  have hinj : ∀ a ∈ o.order l.keys, ∀ b ∈ o.order l.keys, source a = source b → a = b := by
    intro a ha b hb heq
    rw [← hescape a ha, ← hescape b hb, heq]
  refine ⟨(o.order l.keys).map source, ((o.perm l.keys).nodup_iff.2 hheld.nodup).map_on hinj, ?_, ?_⟩
  · intro s
    rw [List.mem_map]
    constructor
    · rintro ⟨key, hkey, rfl⟩
      obtain ⟨r, hr, -, heq⟩ := (hheld.keys key).1 ((o.perm l.keys).mem_iff.1 hkey)
      exact ⟨hgit key hkey, r, hr, escape_injective (heq.trans (hescape key hkey).symm)⟩
    · rintro ⟨hs, r, hr, rfl⟩
      have hkey : escape r.source ∈ o.order l.keys :=
        (o.perm l.keys).mem_iff.2 ((hheld.keys _).2 ⟨r, hr, hs, rfl⟩)
      exact ⟨_, hkey, escape_injective (hescape _ hkey)⟩
  · rw [crates_eq, ← hl, hheld.crates, List.map_map]
    congr 1
    refine List.map_congr_left fun key hkey => ?_
    rw [Function.comp_apply, ← hheld.names _ (hgit key hkey), hescape key hkey]

end Listings

section Entries

def crateTexts (records : List Record) : List (List Char) :=
  (records.filter fun r => r.source = cratesIo).map fun r => r.name ++ '-' :: r.version

theorem crateTexts_append (a b : List Record) : crateTexts (a ++ b) = crateTexts a ++ crateTexts b := by
  simp [crateTexts]

theorem crateTexts_plain {records : List Record} (h : ∀ r ∈ records, Legible r) :
    ∀ text ∈ crateTexts records, '@' ∉ text := by
  intro text htext
  obtain ⟨r, hr, rfl⟩ := List.mem_map.1 htext
  have hlegible := h r (List.mem_of_mem_filter hr)
  rw [List.mem_append, List.mem_cons]
  rintro (hname | hdash | hversion)
  · exact (hlegible.name_crate '@' hname).2 rfl
  · exact absurd hdash (by decide)
  · exact hlegible.version_crate hversion

theorem names_plain {records : List Record} (h : ∀ r ∈ records, Legible r) (s : List Char) :
    ∀ name ∈ namesOf s records, name ≠ [] ∧ ',' ∉ name ∧ '@' ∉ name ∧ ∀ c ∈ name, isBlank c = false := by
  intro name hname
  obtain ⟨r, hr, rfl⟩ := List.mem_map.1 hname
  have hlegible := h r (List.mem_of_mem_filter hr)
  exact ⟨hlegible.name_ne, fun hc => (hlegible.name_crate _ hc).1 rfl, fun hc => (hlegible.name_crate _ hc).2 rfl,
    hlegible.name_word⟩

theorem intercalate_plain {records : List Record} (h : ∀ r ∈ records, Legible r) (s : List Char) :
    '@' ∉ [','].intercalate (namesOf s records) := by
  intro hmem
  obtain hcomma | ⟨name, hname, hc⟩ := mem_intercalate hmem
  · exact absurd hcomma (by decide)
  · exact (names_plain h s name hname).2.2.1 hc

theorem parts_eq {a b s t : List Char} (ha : '@' ∉ a) (hb : '@' ∉ b) (h : a ++ '@' :: s = b ++ '@' :: t) :
    a = b ∧ s = t := by
  have hbefore : ∀ {a s : List Char}, '@' ∉ a → (a ++ '@' :: s).takeWhile (· ≠ '@') = a := by
    intro a s ha
    refine takeWhile_stop (fun c hc => decide_eq_true ?_) (by simp)
    rintro rfl
    exact ha hc
  have hnames : a = b := by rw [← hbefore (s := s) ha, h, hbefore hb]
  subst hnames
  exact ⟨rfl, (List.cons.inj (List.append_cancel_left h)).2⟩

theorem intercalate_inj {a b : List (List Char)} (ha : ∀ name ∈ a, name ≠ [] ∧ ',' ∉ name)
    (hb : ∀ name ∈ b, name ≠ [] ∧ ',' ∉ name) (h : [','].intercalate a = [','].intercalate b) : a = b := by
  by_cases hnil : a = []
  · subst hnil
    exact ((intercalate_eq_nil fun name hname => (hb name hname).1).1 h.symm).symm
  · have hother : b ≠ [] := by
      rintro rfl
      exact hnil ((intercalate_eq_nil fun name hname => (ha name hname).1).1 h)
    have hsplit := congrArg (List.splitOn ',') h
    rwa [List.splitOn_intercalate _ (fun name hname => (ha name hname).2) hnil,
      List.splitOn_intercalate _ (fun name hname => (hb name hname).2) hother] at hsplit

theorem listed_names {records : List Record} {items : List (List Char)} (hlegible : ∀ r ∈ records, Legible r)
    (h : Listed records items) {s : List Char} (hs : isGit s) {names : List (List Char)} (hne : names ≠ [])
    (hnames : ∀ name ∈ names, name ≠ [] ∧ ',' ∉ name ∧ '@' ∉ name) :
    [','].intercalate names ++ '@' :: escape s ∈ items ↔ namesOf s records = names := by
  obtain ⟨sources, -, hsources, rfl⟩ := h
  have hplain : '@' ∉ [','].intercalate names := by
    intro hmem
    obtain hcomma | ⟨name, hname, hc⟩ := mem_intercalate hmem
    · exact absurd hcomma (by decide)
    · exact (hnames name hname).2.2 hc
  rw [List.mem_append, List.mem_map (l := sources)]
  constructor
  · rintro (hcrate | ⟨t, ht, heq⟩)
    · exact absurd (List.mem_append_right _ List.mem_cons_self) (crateTexts_plain hlegible _ hcrate)
    · obtain ⟨hjoined, hescape⟩ := parts_eq (intercalate_plain hlegible t) hplain heq
      obtain rfl := escape_injective hescape
      refine intercalate_inj (fun name hname => ?_) (fun name hname => ?_) hjoined
      · exact ⟨(names_plain hlegible t name hname).1, (names_plain hlegible t name hname).2.1⟩
      · exact ⟨(hnames name hname).1, (hnames name hname).2.1⟩
  · rintro rfl
    refine .inr ⟨s, (hsources s).2 ⟨hs, ?_⟩, rfl⟩
    obtain ⟨name, hname⟩ := List.exists_mem_of_ne_nil _ hne
    obtain ⟨r, hr, -⟩ := List.mem_map.1 hname
    exact ⟨r, List.mem_of_mem_filter hr, by simpa using (List.mem_filter.1 hr).2⟩

theorem listed_crates {records : List Record} {items : List (List Char)} (hlegible : ∀ r ∈ records, Legible r)
    (h : Listed records items) : items.filter (fun item => '@' ∉ item) = crateTexts records := by
  obtain ⟨sources, -, -, rfl⟩ := h
  have hcrates : (crateTexts records).filter (fun item => '@' ∉ item) = crateTexts records :=
    List.filter_eq_self.2 fun text htext => decide_eq_true (crateTexts_plain hlegible text htext)
  rw [List.filter_append, ← crateTexts, hcrates, List.filter_eq_nil_iff.2, List.append_nil]
  intro item hitem
  obtain ⟨s, -, rfl⟩ := List.mem_map.1 hitem
  simp

theorem crateTexts_entry (r : Record) :
    crateTexts [r] = match entryOf r with | .crate text => [text] | _ => [] := by
  unfold entryOf
  split_ifs with hgit hindex
  · simp [crateTexts, git_not_cratesIo hgit]
  · simp [crateTexts, hindex]
  · simp [crateTexts, hindex]

theorem namesOf_entry (r : Record) {s : List Char} (hs : isGit s) :
    namesOf s [r] = match entryOf r with | .git source name => if source = s then [name] else [] | _ => [] := by
  unfold entryOf
  split_ifs with hgit hindex
  · by_cases hsame : r.source = s
    · simp [namesOf, hsame]
    · simp [namesOf, hsame]
  all_goals
    have hother : r.source ≠ s := by
      rintro rfl
      exact hgit hs
    simp [namesOf, hother]

theorem namesOf_ne_nil {s : List Char} {records : List Record} :
    namesOf s records ≠ [] ↔ ∃ r ∈ records, r.source = s := by
  rw [namesOf, Ne, List.map_eq_nil_iff, ← Ne, ← List.length_pos_iff, List.length_filter_pos_iff]
  simp

theorem entryOf_git {r : Record} {source name : List Char} (h : entryOf r = .git source name) : isGit source := by
  unfold entryOf at h
  split_ifs at h with hgit
  cases h
  exact hgit

theorem entry_eq {a b : Record} (hcrates : crateTexts [a] = crateTexts [b])
    (hnames : ∀ s, isGit s → namesOf s [a] = namesOf s [b]) : entryOf a = entryOf b := by
  have hside : ∀ {a b : Record} {source name : List Char}, (∀ s, isGit s → namesOf s [a] = namesOf s [b]) →
      entryOf a = .git source name → entryOf b = .git source name := by
    intro a b source name hnames ha
    have hone := hnames source (entryOf_git ha)
    rw [namesOf_entry a (entryOf_git ha), namesOf_entry b (entryOf_git ha), ha] at hone
    dsimp only at hone
    rw [if_pos rfl] at hone
    cases hb : entryOf b with
    | git source' name' =>
      rw [hb] at hone
      dsimp only at hone
      split_ifs at hone with hsame
      rw [hsame, List.singleton_inj.1 hone]
    | _ =>
      rw [hb] at hone
      exact absurd hone (List.cons_ne_nil _ _)
  cases ha : entryOf a with
  | git source name => exact (hside hnames ha).symm
  | none | crate =>
    cases hb : entryOf b with
    | git source name => exact absurd (ha.symm.trans (hside (fun s hs => (hnames s hs).symm) hb)) (by simp)
    | none | crate =>
      revert hcrates
      rw [crateTexts_entry, crateTexts_entry, ha, hb]
      simp

theorem listed_entry {before : List Record} {a b : Record} {items : List (List Char)}
    (ha : ∀ r ∈ before ++ [a], Legible r) (hb : ∀ r ∈ before ++ [b], Legible r) (h : Listed (before ++ [a]) items) :
    Listed (before ++ [b]) items ↔ entryOf a = entryOf b := by
  constructor
  · intro hother
    have hcrates : crateTexts [a] = crateTexts [b] := by
      have heq := (listed_crates ha h).symm.trans (listed_crates hb hother)
      rwa [crateTexts_append, crateTexts_append, List.append_cancel_left_eq] at heq
    have hnames : ∀ s, isGit s → namesOf s [a] = namesOf s [b] := by
      intro s hs
      have heq : namesOf s (before ++ [a]) = namesOf s (before ++ [b]) := by
        by_cases hnil : namesOf s (before ++ [b]) = []
        · by_contra hne
          rw [hnil] at hne
          have hmem := (listed_names ha h hs hne fun name hname => by
            have hplain := names_plain ha s name hname
            exact ⟨hplain.1, hplain.2.1, hplain.2.2.1⟩).2 rfl
          have hback := (listed_names hb hother hs hne fun name hname => by
            have hplain := names_plain ha s name hname
            exact ⟨hplain.1, hplain.2.1, hplain.2.2.1⟩).1 hmem
          exact hne (hback.symm.trans hnil)
        · refine (listed_names ha h hs hnil fun name hname => ?_).1
            ((listed_names hb hother hs hnil fun name hname => ?_).2 rfl)
          all_goals
            have hplain := names_plain hb s name hname
            exact ⟨hplain.1, hplain.2.1, hplain.2.2.1⟩
      rwa [namesOf_append, namesOf_append, List.append_cancel_left_eq] at heq
    exact entry_eq hcrates hnames
  · intro heq
    obtain ⟨sources, hnodup, hsources, rfl⟩ := h
    have hcrates : crateTexts (before ++ [b]) = crateTexts (before ++ [a]) := by
      rw [crateTexts_append, crateTexts_append, crateTexts_entry, crateTexts_entry, heq]
    have hnames : ∀ s, isGit s → namesOf s (before ++ [b]) = namesOf s (before ++ [a]) := by
      intro s hs
      rw [namesOf_append, namesOf_append, namesOf_entry b hs, namesOf_entry a hs, heq]
    refine ⟨sources, hnodup, fun s => ?_, ?_⟩
    · rw [hsources]
      refine and_congr_right fun hs => ?_
      rw [← namesOf_ne_nil, ← namesOf_ne_nil, hnames s hs]
    · rw [← crateTexts, ← crateTexts, hcrates]
      congr 1
      refine List.map_congr_left fun s hs => ?_
      rw [hnames s ((hsources s).1 hs).1]

theorem listed_unknown (records : List Record) (items : List (List Char)) :
    Listed (unknown :: records) items ↔ Listed records items := by
  have hgit : isGit unknown.source = false := by decide
  have hindex : unknown.source ≠ cratesIo := by decide
  have hnames : ∀ s, isGit s → namesOf s (unknown :: records) = namesOf s records := by
    intro s hs
    have hother : unknown.source ≠ s := by
      rintro rfl
      simp [hgit] at hs
    simp [namesOf, hother]
  refine exists_congr fun sources => and_congr_right fun _ => ?_
  have hmem : ∀ s, (isGit s ∧ ∃ p ∈ unknown :: records, p.source = s) ↔ isGit s ∧ ∃ p ∈ records, p.source = s := by
    intro s
    refine and_congr_right fun hs => ?_
    rw [← namesOf_ne_nil, ← namesOf_ne_nil, hnames s hs]
  simp only [hmem]
  refine and_congr_right fun hsources => ?_
  have hmap : (sources.map fun s => [','].intercalate (namesOf s (unknown :: records)) ++ '@' :: escape s) =
      sources.map fun s => [','].intercalate (namesOf s records) ++ '@' :: escape s :=
    List.map_congr_left fun s hs => by rw [hnames s ((hsources s).1 hs).1]
  rw [hmap, List.filter_cons_of_neg (by simpa using hindex)]

end Entries

section Printing

theorem fields_tab (text : List Char) : fields ('\t' :: text) = fields text := by
  rw [fields, fields, List.splitOnP_cons_eq_if_modifyHead]
  simp [isBlank]

/-- A word of the value that is not the end of a line of it. -/
def Crate (text : List Char) : Prop := text ≠ [] ∧ text ≠ ['\\'] ∧ ∀ c ∈ text, isBlank c = false

theorem fields_printed {items : List (List Char)} (h : ∀ item ∈ items, Crate item) :
    (fields (printArray ['\t'] items)).filter (· ≠ ['\\']) = items := by
  induction items with
  | nil => rfl
  | cons item items ih =>
    obtain ⟨hne, hcrate, hword⟩ := h item List.mem_cons_self
    cases items with
    | nil =>
      have hline : printArray ['\t'] [item] = '\t' :: '\t' :: (item ++ '\n' :: []) := rfl
      rw [hline, fields_tab, fields_tab, fields_word hword hne rfl, List.filter_cons_of_pos (by simpa using hcrate)]
      rfl
    | cons item' items =>
      have hline : printArray ['\t'] (item :: item' :: items) =
          '\t' :: '\t' :: (item ++ ' ' :: (['\\'] ++ '\n' :: printArray ['\t'] (item' :: items))) := by
        simp [printArray]
      rw [hline, fields_tab, fields_tab, fields_word hword hne rfl,
        fields_word (List.forall_iff_forall_mem.1 (by decide)) (List.cons_ne_nil _ _) rfl,
        List.filter_cons_of_pos (by simpa using hcrate), List.filter_cons_of_neg (by simp),
        ih fun i hi => h i (List.mem_cons_of_mem _ hi)]

theorem printArray_start (start item : List Char) (items : List (List Char)) :
    ∃ rest, printArray start (item :: items) = start ++ '\t' :: rest ∧
      printArray ['\t'] (item :: items) = '\t' :: '\t' :: rest := by
  cases items with
  | nil => exact ⟨item ++ ['\n'], by simp [printArray], by simp [printArray]⟩
  | cons item' items =>
    exact ⟨item ++ " \\\n".toList ++ printArray ['\t'] (item' :: items), by simp [printArray], by simp [printArray]⟩

theorem wordsOf_printed {items : List (List Char)} (h : ∀ item ∈ items, Crate item) :
    wordsOf (printArray "CARGO_CRATES=".toList items) = items := by
  cases items with
  | nil => rfl
  | cons item items =>
    obtain ⟨rest, hstart, htab⟩ := printArray_start "CARGO_CRATES=".toList item items
    have hrest : fields rest = fields (printArray ['\t'] (item :: items)) := by
      rw [htab, fields_tab, fields_tab]
    have hfields : fields (printArray "CARGO_CRATES=".toList (item :: items)) =
        "CARGO_CRATES=".toList :: fields (printArray ['\t'] (item :: items)) := by
      rw [hstart, fields_word (List.forall_iff_forall_mem.1 (by decide)) (by decide) rfl, hrest]
    rw [wordsOf, hfields, List.drop_succ_cons, List.drop_zero, fields_printed h]

theorem listed_crate {records : List Record} (hlegible : ∀ r ∈ records, Legible r) {items : List (List Char)}
    (h : Listed records items) : ∀ item ∈ items, Crate item := by
  obtain ⟨sources, -, hsources, rfl⟩ := h
  intro item hitem
  have hparted : ∀ {a b : List Char} {c : Char}, c ≠ '\\' → isBlank c = false → (∀ x ∈ a, isBlank x = false) →
      (∀ x ∈ b, isBlank x = false) → Crate (a ++ c :: b) := by
    intro a b c hc hblank ha hb
    refine ⟨by simp, fun heq => ?_, fun x hx => ?_⟩
    · have hmem : c ∈ ['\\'] := heq ▸ List.mem_append_right a List.mem_cons_self
      exact hc (List.mem_singleton.1 hmem)
    · rw [List.mem_append, List.mem_cons] at hx
      obtain hx | rfl | hx := hx
      · exact ha x hx
      · exact hblank
      · exact hb x hx
  rw [List.mem_append, List.mem_map, List.mem_map] at hitem
  obtain ⟨r, hr, rfl⟩ | ⟨s, hs, rfl⟩ := hitem
  · have hplain := hlegible r (List.mem_of_mem_filter hr)
    exact hparted (by decide) rfl hplain.name_word hplain.version_word
  · obtain ⟨-, r, hr, rfl⟩ := (hsources s).1 hs
    refine hparted (by decide) rfl (fun x hx => ?_) fun x hx => ?_
    · obtain rfl | ⟨name, hname, hx⟩ := mem_intercalate hx
      · rfl
      · exact (names_plain hlegible _ name hname).2.2.2 x hx
    · obtain ⟨c, hc, hx⟩ := List.mem_flatMap.1 hx
      split_ifs at hx
      · simp only [List.mem_cons, List.not_mem_nil, or_false] at hx
        obtain rfl | rfl := hx <;> rfl
      · rw [List.mem_singleton.1 hx]
        exact (hlegible r hr).source_word c hc

/-- The list is that of the packages where the tables after them leave the last as it is listed. -/
theorem cargoCrates_faithful (o : Order) (lock : Lock) : Faithful lock (cargoCrates o lock.lines) ↔
    entryOf (lock.trailing.foldl overwrite lock.last) = entryOf lock.last := by
  have hlisted := crates_listed o lock
  rw [Faithful, cargoCrates, wordsOf_printed (listed_crate lock.seen_legible hlisted), ← listed_unknown,
    lock.records_split]
  have hrecords := lock.records_legible
  rw [lock.records_split] at hrecords
  exact listed_entry lock.seen_legible hrecords hlisted

/-- One crate of the index, and a patch of another source that no package uses. -/
def withPatch : Lock where
  top := ["version = 3".toList, []]
  packages := [
    { name := "libc".toList
      version := "0.2.1".toList
      source := some cratesIo
      others := [[]]
      name_word := ⟨by decide, List.forall_iff_forall_mem.1 (by decide)⟩
      name_crate := List.forall_iff_forall_mem.1 (by decide)
      version_word := ⟨by decide, List.forall_iff_forall_mem.1 (by decide)⟩
      version_crate := by decide
      source_word := by
        rintro s ⟨rfl⟩
        exact ⟨by decide, List.forall_iff_forall_mem.1 (by decide)⟩
      others_plain := List.forall_iff_forall_mem.1 (by decide) }]
  trailing := [
    .patch
      { name := "rand".toList
        version := "0.9.0".toList
        source := none
        others := []
        name_word := ⟨by decide, List.forall_iff_forall_mem.1 (by decide)⟩
        name_crate := List.forall_iff_forall_mem.1 (by decide)
        version_word := ⟨by decide, List.forall_iff_forall_mem.1 (by decide)⟩
        version_crate := by decide
        source_word := nofun
        others_plain := nofun }]
  top_plain := List.forall_iff_forall_mem.1 (by decide)

theorem patch_listed : ¬ ∀ (o : Order) (lock : Lock), Faithful lock (cargoCrates o lock.lines) := by
  intro h
  obtain ⟨sources, -, hsources, heq⟩ := h ⟨id, fun _ => List.Perm.refl _⟩ withPatch
  have hnone : sources = [] := by
    refine List.eq_nil_iff_forall_not_mem.2 fun s hs => ?_
    obtain ⟨hgit, r, hr, rfl⟩ := (hsources s).1 hs
    rw [List.mem_singleton.1 hr] at hgit
    exact absurd hgit (by decide)
  subst hnone
  revert heq
  decide

end Printing
end Mports.CargoCrates
