import Mathlib.Data.List.Infix
import Mathlib.Data.List.Nodup

set_option autoImplicit false

namespace Mports.FileTrees

inductive Kind where
  | file | dir
  deriving DecidableEq, Repr

/-- The names of an entry and of the directories it is in, from the top. -/
abbrev Path := List (List Char)

def Proper (name : List Char) : Prop := name ≠ [] ∧ name ≠ ['.'] ∧ name ≠ ['.', '.'] ∧ '/' ∉ name

instance (name : List Char) : Decidable (Proper name) := inferInstanceAs (Decidable (_ ∧ _))

structure FileTree where
  entries : List (Path × Kind)
  key : (entries.map Prod.fst).Nodup
  proper : ∀ e ∈ entries, ∀ name ∈ e.1, Proper name
  parents : ∀ e ∈ entries, e.1.dropLast = [] ∨ (e.1.dropLast, Kind.dir) ∈ entries

namespace FileTree
variable (t : FileTree)

def kind (p : Path) : Option Kind :=
  if p = [] then some .dir else (t.entries.find? fun e => e.1 = p).map Prod.snd

def resolve : Path → List (List Char) → Option Path
  | here, [] => some here
  | here, part :: parts =>
    if t.kind here ≠ some .dir then none
    else if part = [] ∨ part = ['.'] then resolve here parts
    else if part = ['.', '.'] then resolve here.dropLast parts
    else if t.kind (here ++ [part]) = none then none
    else resolve (here ++ [part]) parts

def filesBelow (here : Path) : List Path :=
  (t.entries.filter fun e => e.2 = .file ∧ here <+: e.1 ∧ here ≠ e.1).map fun e => e.1.drop here.length

variable {t}

theorem kind_of_mem {p : Path} {k : Kind} (h : (p, k) ∈ t.entries) (hp : p ≠ []) : t.kind p = some k := by
  unfold kind
  rw [if_neg hp]
  cases hfind : t.entries.find? fun e => e.1 = p with
  | none => simpa using List.find?_eq_none.1 hfind (p, k) h
  | some e =>
    have he : e.1 = p := by simpa using List.find?_some hfind
    have hsame := List.inj_on_of_nodup_map t.key (List.mem_of_find?_eq_some hfind) h he
    rw [hsame, Option.map_some]

theorem mem_of_kind {p : Path} {k : Kind} (h : t.kind p = some k) (hp : p ≠ []) : (p, k) ∈ t.entries := by
  unfold kind at h
  rw [if_neg hp, Option.map_eq_some_iff] at h
  obtain ⟨e, hfind, rfl⟩ := h
  have he : e.1 = p := by simpa using List.find?_some hfind
  exact he ▸ List.mem_of_find?_eq_some hfind

theorem kind_parent {p : Path} {name : List Char} (h : t.kind (p ++ [name]) ≠ none) : t.kind p = some .dir := by
  obtain ⟨k, hk⟩ := Option.ne_none_iff_exists'.1 h
  have hmem := mem_of_kind hk (by simp)
  rcases t.parents _ hmem with hp | hp
  · rw [List.dropLast_concat] at hp
    simp [hp, kind]
  · rw [List.dropLast_concat] at hp
    by_cases hnil : p = []
    · simp [hnil, kind]
    · exact kind_of_mem hp hnil

theorem kind_above {p : Path} {names : List (List Char)} (h : t.kind (p ++ names) ≠ none) : t.kind p ≠ none := by
  induction names using List.reverseRecOn with
  | nil => simpa using h
  | append_singleton names name ih =>
    rw [← List.append_assoc] at h
    exact ih (by simp [kind_parent h])

theorem resolve_kind {here e : Path} {parts : List (List Char)} (hhere : t.kind here ≠ none)
    (h : t.resolve here parts = some e) : t.kind e ≠ none := by
  induction parts generalizing here with
  | nil =>
    cases h
    exact hhere
  | cons part parts ih =>
    unfold resolve at h
    split_ifs at h with hdir hstay hup hmissing
    · exact ih hhere h
    · refine ih ?_ h
      rcases List.eq_nil_or_concat here with rfl | ⟨p, name, rfl⟩
      · simp [kind]
      · rw [List.concat_eq_append] at hhere ⊢
        rw [List.dropLast_concat]
        exact kind_above hhere
    · exact ih hmissing h

theorem resolve_below {here e : Path} {parts : List (List Char)} (hup : ['.', '.'] ∉ parts)
    (h : t.resolve here parts = some e) : here <+: e := by
  induction parts generalizing here with
  | nil =>
    cases h
    exact List.prefix_refl _
  | cons part parts ih =>
    rw [List.mem_cons, not_or] at hup
    unfold resolve at h
    split_ifs at h with hdir hstay hpart hmissing
    · exact ih hup.2 h
    · exact absurd hpart.symm hup.1
    · exact (List.prefix_append _ _).trans (ih hup.2 h)

/-- It leaves the directory for an entry in it at the first part that is a name. -/
theorem resolve_stays_iff {here e : Path} {parts : List (List Char)} (hup : ['.', '.'] ∉ parts)
    (h : t.resolve here parts = some e) : e = here ↔ ∀ part ∈ parts, part = [] ∨ part = ['.'] := by
  induction parts generalizing here with
  | nil =>
    cases h
    simp
  | cons part parts ih =>
    rw [List.mem_cons, not_or] at hup
    rw [List.forall_mem_cons]
    unfold resolve at h
    split_ifs at h with hdir hstay hpart hmissing
    · rw [ih hup.2 h]
      exact (and_iff_right hstay).symm
    · exact absurd hpart.symm hup.1
    · refine iff_of_false ?_ fun hall => hstay hall.1
      rintro rfl
      have hlength := (resolve_below hup.2 h).length_le
      rw [List.length_append, List.length_singleton] at hlength
      omega

theorem resolve_names {here : Path} {names : List (List Char)} (hproper : ∀ name ∈ names, Proper name)
    (h : t.kind (here ++ names) ≠ none) : t.resolve here names = some (here ++ names) := by
  induction names generalizing here with
  | nil => simp [resolve]
  | cons name names ih =>
    obtain ⟨⟨hempty, hdot, hup, _⟩, hrest⟩ := List.forall_mem_cons.1 hproper
    rw [List.append_cons] at h
    have hname := kind_above h
    unfold resolve
    rw [if_neg (by simp [kind_parent hname]), if_neg (by simp [hempty, hdot]), if_neg hup, if_neg hname,
      ih hrest h, ← List.append_cons]

theorem mem_filesBelow {here : Path} {names : List (List Char)} (h : names ∈ t.filesBelow here) :
    names ≠ [] ∧ (∀ name ∈ names, Proper name) ∧ t.kind (here ++ names) = some .file := by
  obtain ⟨⟨p, k⟩, hmem, rfl⟩ := List.mem_map.1 h
  simp only [List.mem_filter, decide_eq_true_eq] at hmem
  obtain ⟨hentry, rfl, ⟨names, rfl⟩, hne⟩ := hmem
  dsimp only
  rw [List.drop_left]
  have hnames : names ≠ [] := by simpa using hne
  exact ⟨hnames, fun name hname => t.proper _ hentry name (List.mem_append_right _ hname),
    kind_of_mem hentry (by simp [hnames])⟩

end FileTree
end Mports.FileTrees
