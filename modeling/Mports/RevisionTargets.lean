import Mathlib.Data.List.Dedup
import Mathlib.Data.List.GetD
import Mathlib.Data.List.TakeWhile
import Mports.KeyedWrites
import Mports.MakeIndex
import Mports.ShellText

set_option autoImplicit false

namespace Mports.RevisionTargets
open PerlText KeyedWrites MakeIndex
open Relation (ReflTransGen TransGen)

/-- One element of `%index`. -/
structure Port where
  portname : String
  origin : String
  comment : String
  deps : List String
  deriving DecidableEq, Repr

/-- `split " ", $text`. -/
def words (text : String) : List String := ((text.toList.splitOnP isSpace).filter (· ≠ [])).map String.ofList

def parse (line : String) : Except String (String × Port) :=
  let a := fields '|' line
  let b := fields '/' (a.getD 1 "")
  let portname := b.getLastD ""
  let origin := b.dropLast.getLastD "" ++ "/" ++ portname
  if isTrue portname.toList then
    .ok (a.getD 0 "", ⟨portname, origin, a.getD 3 "",
      if isTrue (a.getD 8 "").toList then words (a.getD 8 "") else []⟩)
  else .error "undefined portname"

/-- `%index` and its keys. -/
structure Table where
  keys : List String
  port : String → Option Port

def table (rows : List (String × Port)) : Table :=
  ⟨(rows.map (·.1)).dedup, writeAll Prod.fst Prod.snd (fun _ => none) rows⟩

/-- `$shallow`; `opt_l` gets its default when this has been decided. -/
def shallow (optL optG : Bool) : Except String Bool :=
  if optL && optG then .error "Options -g and -l given, which are mutually exclusive. Pick either."
  else .ok optL

/-- What `$r` is for an argument: an element of `%index`, or a key of it. -/
inductive Found where
  | element
  | package (name : String)
  deriving DecidableEq, Repr

/-- `byPortname` and `byOrigin` are `%index` turned around. -/
def find (t : Table) (byPortname byOrigin : String → Option String) (port : String) : Option Found :=
  if (t.port port).isSome then some .element else ((byPortname port).or (byOrigin port)).map .package

/-- The packages with the argument under their run dependencies; the text of a reference to an
element is none of them. -/
def dependents (t : Table) : Found → List String
  | .element => []
  | .package name => t.keys.filter fun p => name ∈ ((t.port p).map Port.deps).getD []

/-- The keys of `%DEPPORTS`; `direct` is `direct_dependency` for the arguments at hand. -/
def depports (t : Table) (shallow : Bool) (direct : String → Bool) (found : List Found) : List String :=
  (t.keys.filter fun p => found.any fun f => p ∈ dependents t f).filter fun p =>
    !shallow || direct (((t.port p).map Port.origin).getD "")

/-- The directories that `bumpMakefile` is called with. -/
def targets (t : Table) (shallow : Bool) (direct : String → Bool) (found : List Found) : List String :=
  ((depports t shallow direct found).mergeSort (· ≤ ·)).map fun p => ((t.port p).map Port.origin).getD ""

structure Options where
  l : Bool
  g : Bool
  f : Bool
  n : Bool
  deriving DecidableEq, Repr

section Columns

end Columns

section Lines
variable (canonical : String → String)

/-- A line as `describe` prints it: seven columns at least, a name without white space that is
true, and a last component of the directory that is. -/
structure Described (line : String) : Prop where
  seven : 7 ≤ (columns canonical line).length
  plain : ∀ c ∈ (columns canonical line).take 7, '|' ∉ c.toList
  name : isTrue ((columns canonical line).getD 0 "").toList = true
  word : ∀ c ∈ ((columns canonical line).getD 0 "").toList, isSpace c = false
  place : isTrue ((fields '/' ((columns canonical line).getD 1 "")).getLastD "").toList = true

variable {canonical} {line : String}

instance : Decidable (Described canonical line) := decidable_of_iff
  (7 ≤ (columns canonical line).length ∧ (((columns canonical line).take 7).all fun c => '|' ∉ c.toList) = true ∧
    PerlText.isTrue ((columns canonical line).getD 0 "").toList = true ∧
    (((columns canonical line).getD 0 "").toList.all fun c => !isSpace c) = true ∧
    PerlText.isTrue ((fields '/' ((columns canonical line).getD 1 "")).getLastD "").toList = true) (by
  simp only [List.all_eq_true, decide_eq_true_eq, Bool.not_eq_true']
  exact ⟨fun ⟨h₁, h₂, h₃, h₄, h₅⟩ => ⟨h₁, h₂, h₃, h₄, h₅⟩, fun ⟨h₁, h₂, h₃, h₄, h₅⟩ => ⟨h₁, h₂, h₃, h₄, h₅⟩⟩)

section
variable (t : Tables) (line)

theorem readLine_names : (readLine canonical t line).names = t.names ++ [(columns canonical line).getD 0 ""] := rfl

theorem readLine_byPath : (readLine canonical t line).byPath =
    Function.update t.byPath ((columns canonical line).getD 1 "") (some ((columns canonical line).getD 0 "")) := by
  rfl

theorem readLine_text : ((readLine canonical t line).index ((columns canonical line).getD 0 "")).text =
    "|".intercalate ((columns canonical line).take 7) := by
  unfold readLine
  dsimp only
  rw [Function.update_self]

variable {line}

theorem readLine_other {n : String} (h : n ≠ (columns canonical line).getD 0 "") :
    (readLine canonical t line).index n = t.index n := by
  unfold readLine
  dsimp only
  exact Function.update_of_ne h _ _

end

/-- The names of the tables are first columns, and directories are mapped to names. -/
structure Filled (canonical : String → String) (lines : List String) (t : Tables) : Prop where
  text : ∀ n ∈ t.names, ∃ line ∈ lines, (columns canonical line).getD 0 "" = n ∧
    (t.index n).text = "|".intercalate ((columns canonical line).take 7)
  byPath : ∀ dir n, t.byPath dir = some n → n ∈ t.names

theorem Filled.readLine {lines : List String} {t : Tables} (h : Filled canonical lines t) (line : String) :
    Filled canonical (lines ++ [line]) (readLine canonical t line) := by
  refine ⟨fun n hn => ?_, fun dir n hn => ?_⟩
  · by_cases heq : n = (columns canonical line).getD 0 ""
    · exact ⟨line, by simp, heq.symm, heq ▸ readLine_text line t⟩
    · rw [readLine_names] at hn
      have hold : n ∈ t.names := (List.mem_append.1 hn).resolve_right fun h => heq (List.mem_singleton.1 h)
      obtain ⟨line', hline', hname, htext⟩ := h.text n hold
      exact ⟨line', List.mem_append_left _ hline', hname, by rw [readLine_other t heq, htext]⟩
  · rw [readLine_byPath] at hn
    rw [readLine_names]
    by_cases heq : dir = (columns canonical line).getD 1 ""
    · rw [heq, Function.update_self, Option.some.injEq] at hn
      exact List.mem_append_right _ (List.mem_singleton.2 hn.symm)
    · rw [Function.update_of_ne heq] at hn
      exact List.mem_append_left _ (h.byPath dir n hn)

theorem readLines_filled (lines : List String) : Filled canonical lines (readLines canonical lines) := by
  induction lines using List.reverseRecOn with
  | nil => exact ⟨by simp [readLines], by simp [readLines]⟩
  | append_singleton lines line ih =>
    rw [readLines, List.foldl_append]
    exact ih.readLine line

end Lines

section Printed
variable {canonical : String → String}

def Plain (name : String) : Prop := '|' ∉ name.toList ∧ (∀ c ∈ name.toList, isSpace c = false) ∧ name ≠ "0"

theorem name_plain {line : String} (h : Described canonical line) : Plain ((columns canonical line).getD 0 "") := by
  have hlength := h.seven
  refine ⟨h.plain _ ?_, h.word, fun hzero => ?_⟩
  · rw [List.getD_eq_getElem _ _ (by omega), List.mem_take_iff_getElem]
    exact ⟨0, by omega, rfl⟩
  · have htrue := h.name
    rw [hzero] at htrue
    cases htrue

variable {lines : List String} (described : ∀ line ∈ lines, Described canonical line)
include described

theorem names_plain {n : String} (h : n ∈ (readLines canonical lines).names) : Plain n := by
  obtain ⟨line, hline, rfl, _⟩ := (readLines_filled lines).text n h
  exact name_plain (described line hline)

section Dependents
omit described
variable {out : List Entry} (hprints : Prints (ports canonical lines) (uniqify (readLines canonical lines).names) out)
include hprints

end Dependents

omit described in
theorem mem_targets {t : Table} {s : Bool} {direct : String → Bool} {found : List Found} {origin : String} :
    origin ∈ targets t s direct found ↔ ∃ p ∈ depports t s direct found, ((t.port p).map Port.origin).getD "" = origin := by
  simp [targets, List.mem_mergeSort]

end Printed

end Mports.RevisionTargets
