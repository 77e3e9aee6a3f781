import Mathlib.Data.List.Infix

set_option autoImplicit false

namespace Mports.MakeWords

abbrev Word := List Char

/-- A backslash at the end of a line, which no backslash quotes: the next line belongs to it. -/
def continues (line : List Char) : Bool := (line.reverse.takeWhile (· = '\\')).length % 2 = 1

theorem continues_ne {line : List Char} (h : continues line) : line ≠ [] := by
  rintro rfl
  cases h

inductive Piece where
  | any
  | one (p : Char → Bool)

mutual
def pieces : List Char → List Piece
  | [] => []
  | '\\' :: c :: rest => .one (· = c) :: pieces rest
  | '*' :: rest => .any :: pieces rest
  | '?' :: rest => .one (fun _ => true) :: pieces rest
  | '[' :: '^' :: rest => bracket true (fun _ => false) rest
  | '[' :: rest => bracket false (fun _ => false) rest
  | c :: rest => .one (· = c) :: pieces rest

def bracket (negated : Bool) (listed : Char → Bool) : List Char → List Piece
  | [] => [.one fun c => listed c != negated]
  | ']' :: rest => .one (fun c => listed c != negated) :: pieces rest
  | a :: '-' :: b :: rest =>
    bracket negated (fun c => listed c || (a ≤ c && c ≤ b) || (b ≤ c && c ≤ a)) rest
  | a :: rest => bracket negated (fun c => listed c || c = a) rest
end

def fits : List Piece → Word → Bool
  | [], word => word.isEmpty
  | .any :: rest, word => word.tails.any (fits rest)
  | .one _ :: _, [] => false
  | .one p :: rest, c :: word => p c && fits rest word

/-- `Str_Match` of make. -/
def strMatch (pattern word : Word) : Bool := fits (pieces pattern) word

def Plain (pattern : Word) : Prop := ∀ c ∈ pattern, c ≠ '*' ∧ c ≠ '?' ∧ c ≠ '[' ∧ c ≠ '\\'

instance (pattern : Word) : Decidable (Plain pattern) := List.decidableBAll _ pattern

/-- `${words:Mpattern} != ""`. -/
def hasMatch (pattern : Word) (words : List Word) : Bool := words.any (strMatch pattern)

/-- `${words:Npattern}`. -/
def excluding (pattern : Word) (words : List Word) : List Word := words.filter (!strMatch pattern ·)

theorem pieces_append {pattern : Word} (h : Plain pattern) (rest : Word) :
    pieces (pattern ++ rest) = pattern.map (fun c => .one (· = c)) ++ pieces rest := by
  induction pattern with
  | nil => rfl
  | cons c pattern ih =>
    obtain ⟨hstar, hmark, hbracket, hescape⟩ := h c List.mem_cons_self
    rw [List.map_cons, List.cons_append, List.cons_append, ← ih fun x hx => h x (List.mem_cons_of_mem _ hx)]
    rw [pieces.eq_def]
    split <;> simp_all

theorem fits_append (pattern : Word) (rest : List Piece) (word : Word) :
    fits (pattern.map (fun c => .one (· = c)) ++ rest) word = true ↔
      ∃ tail, word = pattern ++ tail ∧ fits rest tail = true := by
  induction pattern generalizing word with
  | nil => simp
  | cons c pattern ih =>
    cases word with
    | nil => simp [fits]
    | cons x word =>
      simp only [List.map_cons, List.cons_append, fits, Bool.and_eq_true, decide_eq_true_eq, ih, List.cons.injEq]
      constructor
      · rintro ⟨rfl, tail, rfl, htail⟩
        exact ⟨tail, ⟨rfl, rfl⟩, htail⟩
      · rintro ⟨tail, ⟨rfl, rfl⟩, htail⟩
        exact ⟨rfl, tail, rfl, htail⟩

theorem strMatch_plain {pattern : Word} (h : Plain pattern) (word : Word) : strMatch pattern word = true ↔ word = pattern := by
  have hpieces := pieces_append h []
  rw [List.append_nil] at hpieces
  rw [strMatch, hpieces, fits_append]
  constructor
  · rintro ⟨tail, rfl, htail⟩
    have hnil : tail = [] := by simpa [pieces, fits] using htail
    rw [hnil, List.append_nil]
  · rintro rfl
    exact ⟨[], (List.append_nil _).symm, rfl⟩

theorem strMatch_star {pattern : Word} (h : Plain pattern) (word : Word) :
    strMatch (pattern ++ ['*']) word = true ↔ pattern <+: word := by
  rw [strMatch, pieces_append h, fits_append]
  constructor
  · rintro ⟨tail, rfl, -⟩
    exact List.prefix_append _ _
  · rintro ⟨tail, rfl⟩
    refine ⟨tail, rfl, List.any_eq_true.2 ⟨[], ?_, rfl⟩⟩
    exact (List.mem_tails _ _).2 (List.nil_suffix)

theorem hasMatch_plain {pattern : Word} (h : Plain pattern) (words : List Word) :
    hasMatch pattern words = true ↔ pattern ∈ words := by
  simp only [hasMatch, List.any_eq_true, strMatch_plain h]
  exact ⟨fun ⟨_, hx, rfl⟩ => hx, fun hx => ⟨_, hx, rfl⟩⟩

theorem mem_excluding_plain {pattern : Word} (h : Plain pattern) (words : List Word) (word : Word) :
    word ∈ excluding pattern words ↔ word ∈ words ∧ word ≠ pattern := by
  rw [excluding, List.mem_filter, Bool.not_eq_true', ← Bool.not_eq_true, strMatch_plain h]

end Mports.MakeWords
