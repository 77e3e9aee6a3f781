import Mports.PerlText
import Mports.ShellText

set_option autoImplicit false

namespace Mports.Distinfo
open ShellText

def linesOf (text : List Char) : List (List Char) :=
  let parts := text.splitOn '\n'
  if parts.getLast? = some [] then parts.dropLast else parts

def ofLines (lines : List (List Char)) : List Char := lines.flatMap (· ++ ['\n'])

structure File where
  digest : List Char → List Char
  size : ℕ

abbrev Dir := List Char → Option File

def present (dir : Dir) (name : List Char) : Bool := (dir name).isSome

/-- The tools under the scripts. `unescape` is what `awk -v` makes of a value; `pathnames`
what the shell makes of a word without quotes where some names are there. `rm` is `rm -f`
and `stat` what `stat -f %z` prints, both of which may take a name for options. -/
structure Tools where
  unescape : List Char → List Char
  pathnames : (List Char → Bool) → List Char → List (List Char)
  rm : List Char → Dir → Option Dir
  stat : List Char → Dir → List Char
  unescape_plain : ∀ text, '\\' ∉ text → unescape text = text
  pathnames_plain : ∀ names word, '*' ∉ word → '?' ∉ word → '[' ∉ word → pathnames names word = [word]
  pathnames_nonempty : ∀ names word, pathnames names word ≠ []
  pathnames_present : ∀ names word, ∀ x ∈ pathnames names word, names x ∨ x = word
  rm_plain : ∀ name dir, name.head? ≠ some '-' → rm name dir = some (Function.update dir name none)
  stat_plain : ∀ name dir file, name.head? ≠ some '-' → dir name = some file →
    stat name dir = (toString file.size).toList
  stat_digits : ∀ name dir, ∀ c ∈ stat name dir, c.isDigit

def IsAlgorithm (alg : List Char) : Prop :=
  alg ≠ [] ∧ (∀ c ∈ alg, c.isAlphanum ∨ c = '_') ∧ ∀ c ∈ alg.head?, ¬ c.isDigit

instance (alg : List Char) : Decidable (IsAlgorithm alg) :=
  @instDecidableAnd _ _ _ (@instDecidableAnd _ _ (List.decidableBAll _ alg) (Option.decidableForallMem _))

theorem sha256_names : ∀ alg ∈ ["SHA256".toList], IsAlgorithm alg := by decide

/-- `dp_DISABLE_SIZE` and `dp_NO_CHECKSUM`, when they are not empty, and
`dp_CHECKSUM_ALGORITHMS`. -/
structure Env where
  disableSize : Bool
  noChecksum : Bool
  algorithms : List (List Char)
  algorithms_names : ∀ alg ∈ algorithms, IsAlgorithm alg

/-- `$1 == alg && $2 == "(" file ")"`. -/
def Tagged (alg file line : List Char) : Prop := field 1 line = alg ∧ field 2 line = '(' :: (file ++ [')'])

instance (alg file line : List Char) : Decidable (Tagged alg file line) := inferInstanceAs (Decidable (_ ∧ _))

def entries (text alg file : List Char) : List (List Char) :=
  ((linesOf text).filter (Tagged alg file ·)).map (field 4)

/-- `distinfo_data`: the lines it prints. -/
def distinfoData (tools : Tools) (env : Env) (distinfo : Option (List Char)) (alg file : List Char) :
    List (List Char) :=
  if env.disableSize && env.noChecksum then []
  else
    match distinfo with
    | none => []
    | some text => entries text alg (tools.unescape file)

theorem linesOf_plain {text line : List Char} (h : line ∈ linesOf text) : '\n' ∉ line := by
  have hpart : line ∈ text.splitOn '\n' := by
    unfold linesOf at h
    dsimp only at h
    split_ifs at h
    · exact (List.dropLast_subset _) h
    · exact h
  intro hmem
  exact absurd (part_plain hpart '\n' hmem) (by decide)

theorem linesOf_ofLines {lines : List (List Char)} (h : ∀ l ∈ lines, '\n' ∉ l) : linesOf (ofLines lines) = lines :=
  ifsFields_lines h

/-- What awk makes of the escapes for a backslash, a tab and a newline. -/
def awkValue : List Char → List Char
  | '\\' :: '\\' :: rest => '\\' :: awkValue rest
  | '\\' :: 't' :: rest => '\t' :: awkValue rest
  | '\\' :: 'n' :: rest => '\n' :: awkValue rest
  | c :: rest => c :: awkValue rest
  | [] => []

theorem awkValue_plain (text : List Char) (h : '\\' ∉ text) : awkValue text = text := by
  induction text with
  | nil => rfl
  | cons c text ih =>
    have hc : c ≠ '\\' := fun hc => h (hc ▸ List.mem_cons_self)
    have hrest := ih fun hm => h (List.mem_cons_of_mem _ hm)
    rw [awkValue.eq_def]
    split <;> simp_all

def simpleTools : Tools where
  unescape := awkValue
  pathnames _ word := [word]
  rm name dir := some (Function.update dir name none)
  stat name dir := ((dir name).map fun file => (toString file.size).toList).getD []
  unescape_plain := awkValue_plain
  pathnames_plain _ _ _ _ _ := rfl
  pathnames_nonempty _ _ := List.cons_ne_nil _ _
  pathnames_present _ _ _ hx := .inr (List.mem_singleton.1 hx)
  rm_plain _ _ _ := rfl
  stat_plain _ _ _ _ h := by rw [h]; rfl
  stat_digits name dir := by
    cases dir name with
    | none => simp
    | some file =>
      intro c hc
      exact PerlText.toString_isDigit file.size c (by simpa using hc)

end Mports.Distinfo
