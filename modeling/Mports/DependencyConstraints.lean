import Mports.DependsList
import Mports.ShellText
import Mathlib.Data.Char
import Mathlib.Data.List.Lex

set_option autoImplicit false

namespace Mports.DependencyConstraints
open ShellText

inductive Operator where
  | ge | le | gt | lt | eq
  deriving DecidableEq, Repr

def Operator.text : Operator → List Char
  | .ge => ['>', '=']
  | .le => ['<', '=']
  | .gt => ['>']
  | .lt => ['<']
  | .eq => ['=']

/-- `[><=]`. -/
def isOperator (c : Char) : Bool := c = '>' || c = '<' || c = '='

/-- `[<>]`. -/
def isBound (c : Char) : Bool := c = '<' || c = '>'

/-- The `case` in the loop of find_package. -/
def operatorOf : List Char → Option Operator
  | '>' :: '=' :: _ => some .ge
  | '<' :: '=' :: _ => some .le
  | '>' :: _ => some .gt
  | '<' :: _ => some .lt
  | '=' :: _ => some .eq
  | _ => none

/-- `set -u` ends the script at an operator that was never set. -/
inductive Failure where
  | invalid | unset | fuel
  deriving DecidableEq, Repr

/-- The loop over `_version`; `_operator` keeps its value where no case applies. -/
def predicates : ℕ → Option Operator → List Char → List (List Char) → Except Failure (List (List Char))
  | _, _, [], args => .ok args
  | 0, _, _ :: _, _ => .error .fuel
  | n + 1, last, c :: cs, args =>
    match (operatorOf (c :: cs)).or last with
    | none => .error .unset
    | some operator =>
      let version := without operator.text (c :: cs)
      let value := version.takeWhile (!isOperator ·)
      if value = [] then .error .invalid
      else
        predicates n (some operator) (without value version)
          (args ++ ["version".toList ++ (operator.text ++ value)])

def packageQuery (last : Option Operator) (dp : List Char) : Except Failure (List (List Char)) :=
  let name := dp.takeWhile (!isOperator ·)
  let version := without name dp
  predicates version.length last version ["name=".toList ++ name]

structure Reply where
  code : ℕ
  text : List Char
  deriving DecidableEq, Repr

def findPackage (pkgname : List Char) (pkgInfo : List (List Char) → Bool) (last : Option Operator) (dp : List Char) :
    Except Failure Reply :=
  match packageQuery last dp with
  | .error .invalid => .ok ⟨1, "Error: invalid version constraint in ".toList ++ dp⟩
  | .error e => .error e
  | .ok args =>
    let told := "===>   ".toList ++ pkgname ++ " depends on package: ".toList ++ dp
    if pkgInfo args then .ok ⟨0, told ++ " - found".toList⟩ else .ok ⟨1, told ++ " - not found".toList⟩

/-- A word, as `realpath` and `make -V` print them. -/
def Word (w : List Char) : Prop := w ≠ [] ∧ ∀ c ∈ w, isBlank c = false

instance (w : List Char) : Decidable (Word w) := @instDecidableAnd _ _ _ (List.decidableBAll _ w)

/-- `realpath` prints nothing where there is no such path; PKGBASE and PKGORIGIN are those
of a directory under a flavor. -/
structure Setup where
  pkgname : List Char
  portsdir : List Char
  realpath : List Char → List Char
  dirs : List (List Char)
  pkgbase : List Char → List Char → List Char
  pkgorigin : List Char → List Char → List Char
  dirs_word : ∀ d ∈ dirs, Word d
  pkgbase_word : ∀ d f, Word (pkgbase d f)
  pkgorigin_word : ∀ d f, Word (pkgorigin d f)

/-- `cut -f 1 -d ':'` and `cut -f 2 -d ':'`. -/
def cut1 (depend : List Char) : List Char := depend.takeWhile (· ≠ ':')
def cut2 (depend : List Char) : List Char :=
  if ':' ∈ depend then (depend.dropWhile (· ≠ ':')).tail.takeWhile (· ≠ ':') else depend

/-- `s/^.*([<>])/\1/`. -/
def lastBound (version : List Char) : List Char :=
  match version.reverse.dropWhile (!isBound ·) with
  | [] => version
  | c :: _ => c :: (version.reverse.takeWhile (!isBound ·)).reverse

def dependVersionSed (osversion : ℕ) (version : List Char) : List Char :=
  if 401000 ≤ osversion then version.dropWhile (!isBound ·) else lastBound version

/-- `flavor` and `dir` of PACKAGE-DEPENDS-LIST. -/
def flavorOf (dir : List Char) : List Char := (dir.dropWhile (· ≠ '@')).tail
def directory (s : Setup) (dir : List Char) : List Char :=
  let dir := if '@' ∈ dir then DependsList.beforeAt dir else dir
  s.realpath (if dir.head? = some '/' then dir else s.portsdir ++ '/' :: dir)

/-- One round of PACKAGE-DEPENDS-LIST: the line it prints, or the message. The dependency is
one word to the shell. -/
def dependsLine (s : Setup) (osversion : ℕ) (depend : List Char) : Except (List Char) (List Char) :=
  let version := if (cut1 depend).any isBound then cut1 depend else []
  let flavor := flavorOf (cut2 depend)
  let dir := directory s (cut2 depend)
  -- `[ -d ]` is true when there is no path
  if dir = [] ∨ dir ∈ s.dirs then
    let line := dir ++ ' ' :: (s.pkgbase dir flavor ++ '\t' :: s.pkgorigin dir flavor)
    if version = [] then .ok (field 2 line ++ ' ' :: (field 1 line ++ ' ' :: field 3 line))
    else
      let line := dir ++ ' ' :: (s.pkgbase dir flavor ++ '\t' :: (s.pkgorigin dir flavor ++
        ' ' :: dependVersionSed osversion version))
      .ok (field 2 line ++ ' ' :: (field 1 line ++ ' ' :: (field 3 line ++ ' ' :: field 4 line)))
  else .error (s.pkgname ++ ": \"".toList ++ dir ++ "\" non-existent -- dependency list incomplete".toList)

/-- The characters of names and versions: make and the shell read none of them. -/
def isPlain (c : Char) : Bool :=
  !isOperator c && !isBlank c && !(c ∈ [':', '*', '?', '[', '"', '$', '\\', Char.ofNat 96])

structure Part where
  operator : Operator
  version : List Char
  nonempty : version ≠ []
  plain : ∀ c ∈ version, isPlain c

def Part.text (p : Part) : List Char := p.operator.text ++ p.version

structure Pattern where
  name : List Char
  first : Part
  rest : List Part
  nonempty : name ≠ []
  plain : ∀ c ∈ name, isPlain c

def Pattern.parts (p : Pattern) : List Part := p.first :: p.rest
def Pattern.constraint (p : Pattern) : List Char := p.parts.flatMap Part.text
def Pattern.text (p : Pattern) : List Char := p.name ++ p.constraint

section Parts

theorem operator_char (o : Operator) : ∀ c ∈ o.text, isOperator c :=
  List.forall_iff_forall_mem.1 (by cases o <;> decide)

theorem operator_facts {c : Char} (h : isOperator c) : isBlank c = false ∧ c ≠ ':' := by
  simp only [isOperator, Bool.or_eq_true, decide_eq_true_eq] at h
  rcases h with (rfl | rfl) | rfl <;> decide

theorem plain_facts {c : Char} (h : isPlain c) : isOperator c = false ∧ isBlank c = false ∧ c ≠ ':' := by
  simp only [isPlain, Bool.and_eq_true, Bool.not_eq_true'] at h
  refine ⟨h.1.1, h.1.2, ?_⟩
  rintro rfl
  exact absurd h.2 (by decide)

theorem plain_not_bound {c : Char} (h : isPlain c) : isBound c = false := by
  have ho := (plain_facts h).1
  grind [isOperator, isBound]

/-- A version does not begin with '=', so that the operator before it is the one taken. -/
theorem operatorOf_text (o : Operator) {rest : List Char} (hrest : '=' ∉ rest.head?) :
    operatorOf (o.text ++ rest) = some o := by
  cases rest with
  | nil => cases o <;> rfl
  | cons c rest =>
    have hc : c ≠ '=' := by
      rintro rfl
      exact hrest rfl
    cases o <;> simp [Operator.text, operatorOf, hc]

theorem constraint_head (ps : List Part) : ∀ c ∈ (ps.flatMap Part.text).head?, isOperator c := by
  cases ps with
  | nil => simp
  | cons p ps =>
    intro c hc
    cases hp : p.operator <;> simp [Part.text, hp, Operator.text] at hc <;> subst hc <;> decide

theorem predicates_parts (ps : List Part) : ∀ (n : ℕ) (last : Option Operator) (args : List (List Char)),
    (ps.flatMap Part.text).length ≤ n →
    predicates n last (ps.flatMap Part.text) args = .ok (args ++ ps.map fun p => "version".toList ++ p.text) := by
  induction ps with
  | nil =>
    intro n last args _
    cases n <;> simp [predicates]
  | cons p ps ih =>
    intro n last args hn
    have hshape : (p :: ps).flatMap Part.text = p.operator.text ++ (p.version ++ ps.flatMap Part.text) := by
      simp [Part.text]
    have hstart : '=' ∉ (p.version ++ ps.flatMap Part.text).head? := by
      rw [List.head?_append_of_ne_nil _ p.nonempty]
      exact fun hc => absurd (plain_facts (p.plain _ (List.mem_of_mem_head? hc))).1 (by decide)
    have hop := operatorOf_text p.operator hstart
    have hvalue : (p.version ++ ps.flatMap Part.text).takeWhile (!isOperator ·) = p.version :=
      takeWhile_stop (fun c hc => by simp [(plain_facts (p.plain c hc)).1])
        fun c hc => by simp [constraint_head ps c hc]
    rw [hshape] at hn ⊢
    have hlen : 0 < p.operator.text.length := by
      cases p.operator <;> decide
    obtain ⟨c, cs, hcs⟩ := List.exists_cons_of_length_pos
      (l := p.operator.text ++ (p.version ++ ps.flatMap Part.text)) (by rw [List.length_append]; omega)
    cases n with
    | zero => simp only [List.length_append] at hn; omega
    | succ n =>
      rw [hcs, predicates, ← hcs, hop]
      simp only [Option.some_or, without_append, hvalue, if_neg p.nonempty]
      rw [ih n _ _ (by simp only [List.length_append] at hn; omega)]
      simp [Part.text]

theorem operatorOf_shorter {c : Char} (cs : List Char) (hc : isOperator c) :
    ∃ o, operatorOf (c :: cs) = some o ∧ (without o.text (c :: cs)).length ≤ cs.length := by
  simp only [isOperator, Bool.or_eq_true, decide_eq_true_eq] at hc
  by_cases heq : cs.head? = some '='
  · obtain ⟨ds, rfl⟩ : ∃ ds, cs = '=' :: ds := List.head?_eq_some_iff.1 heq
    rcases hc with (rfl | rfl) | rfl
    · exact ⟨.ge, rfl, by simp [without, Operator.text]⟩
    · exact ⟨.le, rfl, by simp [without, Operator.text]⟩
    · exact ⟨.eq, rfl, by simp [without, Operator.text]⟩
  · have hone : ∀ o : Operator, o.text = [c] →
        operatorOf (c :: cs) = some o ∧ (without o.text (c :: cs)).length ≤ cs.length := by
      intro o ho
      have h := operatorOf_text o heq
      rw [ho] at h
      exact ⟨h, by simp [without, ho]⟩
    rcases hc with (rfl | rfl) | rfl
    · exact ⟨.gt, hone .gt rfl⟩
    · exact ⟨.lt, hone .lt rfl⟩
    · exact ⟨.eq, hone .eq rfl⟩

theorem predicates_ends : ∀ (n : ℕ) (last : Option Operator) (version : List Char) (args : List (List Char)),
    version.length ≤ n → (∀ c ∈ version.head?, isOperator c) →
    predicates n last version args = .error .invalid ∨ ∃ out, predicates n last version args = .ok out := by
  intro n
  induction n with
  | zero =>
    intro last version args hn _
    rw [List.length_eq_zero_iff.1 (Nat.le_zero.1 hn)]
    exact .inr ⟨args, rfl⟩
  | succ n ih =>
    intro last version args hn hhead
    cases version with
    | nil => exact .inr ⟨args, rfl⟩
    | cons c cs =>
      obtain ⟨o, ho, hshorter⟩ := operatorOf_shorter cs (hhead c rfl)
      rw [predicates, ho]
      simp only [Option.some_or, without_takeWhile]
      split
      · exact .inl rfl
      · refine ih _ _ _ ?_ fun d hd => by simpa using dropWhile_head _ _ d hd
        have := List.length_dropWhile_le (!isOperator ·) (without o.text (c :: cs))
        simp only [List.length_cons] at hn
        omega

theorem packageQuery_ends (last : Option Operator) (dp : List Char) :
    packageQuery last dp = .error .invalid ∨ ∃ args, packageQuery last dp = .ok args := by
  simp only [packageQuery, without_takeWhile]
  exact predicates_ends _ _ _ _ le_rfl fun c hc => by simpa using dropWhile_head _ _ c hc

end Parts

section Lines

variable {s : Setup}

theorem fields_three {a b c : List Char} {x y : Char} (ha : Word a) (hb : Word b) (hc : Word c) (hx : isBlank x)
    (hy : isBlank y) : fields (a ++ x :: (b ++ y :: c)) = [a, b, c] := by
  rw [fields_word ha.2 ha.1 hx, fields_word hb.2 hb.1 hy, fields_last hc.2 hc.1]

theorem fields_four {a b c d : List Char} {x y z : Char} (ha : Word a) (hb : Word b) (hc : Word c) (hd : Word d)
    (hx : isBlank x) (hy : isBlank y) (hz : isBlank z) :
    fields (a ++ x :: (b ++ y :: (c ++ z :: d))) = [a, b, c, d] := by
  rw [fields_word ha.2 ha.1 hx, fields_three hb hc hd hy hz]

theorem dependsLine_field {osversion : ℕ} (text place : List Char) (htext : ':' ∉ text)
    (hblank : ∀ c ∈ text, isBlank c = false) (hdir : directory s (place.takeWhile (· ≠ ':')) ∈ s.dirs)
    (hos : 401000 ≤ osversion) :
    ∃ line, dependsLine s osversion (text ++ ':' :: place) = .ok line ∧
      field 4 line = text.dropWhile (!isBound ·) := by
  have hother : ∀ c ∈ text, decide (c ≠ ':') := by
    intro c hc
    refine decide_eq_true ?_
    rintro rfl
    exact htext hc
  have hcut1 : cut1 (text ++ ':' :: place) = text := takeWhile_stop hother (by simp)
  have hcut2 : cut2 (text ++ ':' :: place) = place.takeWhile (· ≠ ':') := by
    have hdrop : (text ++ ':' :: place).dropWhile (· ≠ ':') = ':' :: place := by
      rw [List.dropWhile_append_of_pos hother]
      exact List.dropWhile_cons_of_neg (by simp)
    rw [cut2, if_pos (by simp), hdrop, List.tail_cons]
  have hd := s.dirs_word _ hdir
  simp only [dependsLine, hcut1, hcut2]
  rw [if_pos (Or.inr hdir)]
  generalize flavorOf _ = flavor
  generalize directory s _ = dir at hd
  have hb := s.pkgbase_word dir flavor
  have ho := s.pkgorigin_word dir flavor
  by_cases hany : text.any isBound
  · have hne : text ≠ [] := by
      rintro rfl
      cases hany
    have hv : Word (text.dropWhile (!isBound ·)) := by
      refine ⟨fun h => ?_, fun c hc => hblank c ((List.dropWhile_sublist _).subset hc)⟩
      obtain ⟨c, hc, hbound⟩ := List.any_eq_true.1 hany
      have := List.dropWhile_eq_nil_iff.1 h c hc
      simp [hbound] at this
    refine ⟨_, by rw [if_pos hany, if_neg hne], ?_⟩
    have hline := fields_four hd hb ho hv (x := ' ') (y := '\t') (z := ' ') rfl rfl rfl
    simp only [field, dependVersionSed, if_pos hos, hline]
    exact congrArg (·.getD 3 []) (fields_four hb hd ho hv (x := ' ') (y := ' ') (z := ' ') rfl rfl rfl)
  · refine ⟨_, by rw [if_neg hany, if_pos rfl], ?_⟩
    have hline := fields_three hd hb ho (x := ' ') (y := '\t') rfl rfl
    simp only [field, hline]
    have hnone : text.dropWhile (!isBound ·) = [] :=
      List.dropWhile_eq_nil_iff.2 fun c hc => by
        have := List.any_eq_false.1 (Bool.eq_false_iff.2 hany) c hc
        simpa using this
    rw [hnone]
    exact congrArg (·.getD 3 []) (fields_three hb hd ho (x := ' ') (y := ' ') rfl rfl)

end Lines

section Constraints

theorem Pattern.plain_text (p : Pattern) : ':' ∉ p.text ∧ ∀ c ∈ p.text, isBlank c = false := by
  have hchar : ∀ c ∈ p.text, isBlank c = false ∧ c ≠ ':' := by
    intro c hc
    rcases List.mem_append.1 hc with hc | hc
    · exact (plain_facts (p.plain c hc)).2
    · obtain ⟨part, _, hc⟩ := List.mem_flatMap.1 hc
      rcases List.mem_append.1 hc with hc | hc
      · exact operator_facts (operator_char _ c hc)
      · exact (plain_facts (part.plain c hc)).2
  exact ⟨fun h => (hchar _ h).2 rfl, fun c hc => (hchar c hc).1⟩

theorem packageQuery_pattern (last : Option Operator) (p : Pattern) :
    packageQuery last p.text =
      .ok (("name=".toList ++ p.name) :: p.parts.map fun part => "version".toList ++ part.text) := by
  have hname : p.text.takeWhile (!isOperator ·) = p.name :=
    takeWhile_stop (fun c hc => by simp [(plain_facts (p.plain c hc)).1])
      fun c hc => by simp [constraint_head p.parts c hc]
  rw [packageQuery, hname]
  simp only [Pattern.text, without_append]
  exact predicates_parts p.parts _ last _ le_rfl

/-- The query and the record have the parts of the pattern. -/
def Agrees (s : Setup) (osversion : ℕ) (last : Option Operator) (p : Pattern) (place : List Char) : Prop :=
  ∃ name asked line, packageQuery last p.text =
      .ok (("name=".toList ++ name) :: asked.map ("version".toList ++ ·)) ∧
    name ++ asked.flatten = p.text ∧
    dependsLine s osversion (p.text ++ ':' :: place) = .ok line ∧
    asked = p.parts.map Part.text ∧ field 4 line = asked.flatten

theorem recorded_iff (p : Pattern) : p.text.dropWhile (!isBound ·) = p.constraint ↔ p.first.operator ≠ .eq := by
  have hname : p.text.dropWhile (!isBound ·) = p.constraint.dropWhile (!isBound ·) :=
    List.dropWhile_append_of_pos fun c hc => by simp [plain_not_bound (p.plain c hc)]
  rw [hname]
  have hshape : p.constraint = p.first.operator.text ++ (p.first.version ++ p.rest.flatMap Part.text) := by
    simp [Pattern.constraint, Pattern.parts, Part.text]
  constructor
  · intro h heq
    rw [heq] at hshape
    have hhead := dropWhile_head (!isBound ·) p.constraint '='
    rw [h, hshape] at hhead
    exact absurd (hhead rfl) (by decide)
  · intro h
    rw [hshape]
    cases hop : p.first.operator with
    | eq => exact absurd hop h
    | _ => rfl

theorem constraint_recorded_iff (s : Setup) (osversion : ℕ) (last : Option Operator) (p : Pattern) (place : List Char)
    (hos : 401000 ≤ osversion) (hdir : directory s (place.takeWhile (· ≠ ':')) ∈ s.dirs) :
    Agrees s osversion last p place ↔ p.first.operator ≠ .eq := by
  obtain ⟨line, hline, hfield⟩ := dependsLine_field p.text place p.plain_text.1 p.plain_text.2 hdir hos
  have hquery := packageQuery_pattern last p
  have hflat : (p.parts.map Part.text).flatten = p.constraint := List.flatMap_def.symm
  rw [← recorded_iff, ← hfield]
  constructor
  · rintro ⟨name, asked, line', _, _, hline', rfl, hrecord⟩
    rw [hline] at hline'
    cases hline'
    rw [hrecord, hflat]
  · intro h
    refine ⟨p.name, p.parts.map Part.text, line, ?_, ?_, hline, rfl, ?_⟩
    · rw [List.map_map]
      exact hquery
    · rw [hflat]
      rfl
    · rw [h, hflat]

def semconv : Setup where
  pkgname := "py311-opentelemetry-semantic-conventions-0.66.b1".toList
  portsdir := "/usr/mports".toList
  realpath := id
  dirs := ["/usr/mports/devel/py-opentelemetry-api".toList]
  pkgbase _ _ := "py311-opentelemetry-api".toList
  pkgorigin _ _ := "devel/py-opentelemetry-api".toList
  dirs_word := by decide
  pkgbase_word _ _ := by decide
  pkgorigin_word _ _ := by decide

def api (operator : Operator) : Pattern where
  name := "py311-opentelemetry-api".toList
  first := ⟨operator, "1.45.1".toList, by decide, List.forall_iff_forall_mem.1 (by decide)⟩
  rest := []
  nonempty := by decide
  plain := List.forall_iff_forall_mem.1 (by decide)

theorem at_least_recorded :
    Agrees semconv 401000 none (api .ge) "devel/py-opentelemetry-api@py311".toList ↔ Operator.ge ≠ .eq :=
  constraint_recorded_iff semconv 401000 none (api .ge) _ (by decide) (by decide)

theorem exact_unrecorded : ¬ Agrees semconv 401000 none (api .eq) "devel/py-opentelemetry-api@py311".toList := by
  rintro ⟨_, asked, line, _, _, hline, rfl, hrecord⟩
  obtain ⟨told, htold, hfield⟩ := dependsLine_field (api .eq).text "devel/py-opentelemetry-api@py311".toList
    (by decide) (List.forall_iff_forall_mem.1 (by decide))
    (show _ ∈ semconv.dirs by decide) (le_refl 401000)
  rw [hline] at htold
  cases htold
  rw [hfield] at hrecord
  exact absurd hrecord (by decide)

end Constraints

end Mports.DependencyConstraints
