import Mports.DistcheckQueries
import Mports.PerlText

set_option autoImplicit false

namespace Mports.DistfileNames
open DistcheckQueries

/-- An entry of `qw(${DISTFILES})`; so `$` and `.` of a pattern meet no newline. -/
structure Entry where
  text : String
  word : ∀ c ∈ text.toList, PerlText.isSpace c = false

/-- The text before the last `sep` and the one after it. -/
def splitLast (sep : Char) (text : List Char) : Option (List Char × List Char) :=
  match text.reverse.dropWhile (· ≠ sep) with
  | [] => none
  | _ :: rest => some (rest.reverse, (text.reverse.takeWhile (· ≠ sep)).reverse)

/-- Remove a tag after the last colon, one or more characters of a class. -/
def stripTag (inTag : Char → Bool) (name : List Char) : List Char :=
  match splitLast ':' name with
  | some (rest, tag) => if tag ≠ [] ∧ tag.all inTag then rest else name
  | none => name

/-- `[A-Za-z0-9_,]`. -/
def isGroups (c : Char) : Bool := c.isAlphanum || c = '_' || c = ','

/-- `isalnum(ch)` or an underscore. -/
def isTag (c : Char) : Bool := c.isAlphanum || c = '_'

def stripQuery (name : List Char) : List Char := name.takeWhile (· ≠ '?')

/-- `m{(?:^|/)\.\.(?:/|$)}` or `m{^/}`. -/
def Climbs (file : List Char) : Prop := "..".toList ∈ file.splitOn '/' ∨ file.head? = some '/'

instance (file : List Char) : Decidable (Climbs file) := inferInstanceAs (Decidable (_ ∨ _))

/-- `distfile_cache_path`; without a path, what is logged. -/
def distfileCachePath (subdir : String) : Option String → Except (Option String) String
  | none => .error none
  | some file =>
    let file := stripQuery (stripTag isGroups file.toList)
    if Climbs file then .error (some ("Unsafe distfile path ignored: " ++ String.ofList file))
    else if subdir ≠ "" ∧ ¬ (subdir ++ "/").toList <+: file then .ok (subdir ++ "/" ++ String.ofList file)
    else .ok (String.ofList file)

section Tags
variable {inTag : Char → Bool} {name : List Char}

theorem splitLast_append (sep : Char) (rest : List Char) {tag : List Char} (h : sep ∉ tag) :
    splitLast sep (rest ++ sep :: tag) = some (rest, tag) := by
  have hpass : ∀ c ∈ tag.reverse, decide (c ≠ sep) = true := by
    intro c hc
    have hne : c ≠ sep := fun heq => h (heq ▸ List.mem_reverse.1 hc)
    simpa using hne
  have hreverse : (rest ++ sep :: tag).reverse = tag.reverse ++ sep :: rest.reverse := by simp
  unfold splitLast
  rw [hreverse, List.dropWhile_append_of_pos hpass, List.takeWhile_append_of_pos hpass]
  simp

theorem tag_unique {sep : Char} {rest rest' tag tag' : List Char} (h : sep ∉ tag) (h' : sep ∉ tag')
    (heq : rest ++ sep :: tag = rest' ++ sep :: tag') : rest = rest' ∧ tag = tag' := by
  have hsplit := splitLast_append sep rest h
  rw [heq, splitLast_append sep rest' h'] at hsplit
  simpa [eq_comm] using hsplit

theorem splitLast_of_not_mem {sep : Char} (h : sep ∉ name) : splitLast sep name = none := by
  have hpass : ∀ c ∈ name.reverse, decide (c ≠ sep) = true := by
    intro c hc
    have hne : c ≠ sep := fun heq => h (heq ▸ List.mem_reverse.1 hc)
    simpa using hne
  have hdrop : (name.reverse ++ []).dropWhile (· ≠ sep) = _ := List.dropWhile_append_of_pos hpass
  unfold splitLast
  rw [List.append_nil] at hdrop
  rw [hdrop]
  rfl

theorem exists_last {sep : Char} (h : sep ∈ name) : ∃ rest tag, name = rest ++ sep :: tag ∧ sep ∉ tag := by
  obtain ⟨front, back, heq, hfresh⟩ := List.eq_append_cons_of_mem (List.mem_reverse.2 h)
  refine ⟨back.reverse, front.reverse, ?_, by simpa using hfresh⟩
  rw [← List.reverse_reverse name, heq]
  simp

/-- The name ends in a colon and one or more characters of the class. -/
def Tagged (inTag : Char → Bool) (name : List Char) : Prop :=
  ∃ rest tag, name = rest ++ ':' :: tag ∧ tag ≠ [] ∧ ∀ c ∈ tag, inTag c

theorem colon_free (hcolon : inTag ':' = false) {tag : List Char} (h : ∀ c ∈ tag, inTag c) : ':' ∉ tag := by
  intro hmem
  have htrue := h ':' hmem
  simp [hcolon] at htrue

theorem stripTag_tagged (hcolon : inTag ':' = false) (rest : List Char) {tag : List Char} (hne : tag ≠ [])
    (h : ∀ c ∈ tag, inTag c) : stripTag inTag (rest ++ ':' :: tag) = rest := by
  rw [stripTag, splitLast_append ':' rest (colon_free hcolon h)]
  simp only [ne_eq, List.all_eq_true]
  rw [if_pos ⟨hne, h⟩]

theorem stripTag_untagged (h : ¬ Tagged inTag name) : stripTag inTag name = name := by
  unfold stripTag
  by_cases hmem : ':' ∈ name
  · obtain ⟨rest, tag, heq, hfree⟩ := exists_last hmem
    have hsplit : splitLast ':' name = some (rest, tag) := heq ▸ splitLast_append ':' rest hfree
    rw [hsplit]
    simp only [ne_eq, List.all_eq_true]
    exact if_neg fun htag => h ⟨rest, tag, heq, htag.1, htag.2⟩
  · rw [splitLast_of_not_mem hmem]

theorem stripTag_eq_self_iff (hcolon : inTag ':' = false) : stripTag inTag name = name ↔ ¬ Tagged inTag name := by
  constructor
  · rintro hself ⟨rest, tag, heq, hne, h⟩
    rw [heq, stripTag_tagged hcolon rest hne h] at hself
    have hlength := congrArg List.length hself
    simp at hlength
  · exact stripTag_untagged

end Tags

section Queries
variable {name : List Char}

theorem stripQuery_append {front : List Char} (h : '?' ∉ front) (back : List Char) :
    stripQuery (front ++ '?' :: back) = front := by
  have hpass : ∀ c ∈ front, decide (c ≠ '?') = true := by
    intro c hc
    have hne : c ≠ '?' := fun heq => h (heq ▸ hc)
    simpa using hne
  rw [stripQuery, List.takeWhile_append_of_pos hpass]
  simp

theorem stripQuery_eq_self (h : '?' ∉ name) : stripQuery name = name := by
  have hpass : ∀ c ∈ name, decide (c ≠ '?') = true := by
    intro c hc
    have hne : c ≠ '?' := fun heq => h (heq ▸ hc)
    simpa using hne
  have htake : (name ++ []).takeWhile (· ≠ '?') = _ := List.takeWhile_append_of_pos hpass
  simpa [stripQuery] using htake

theorem stripQuery_stripTag {inTag : Char → Bool} (hcolon : inTag ':' = false) (hquery : inTag '?' = false)
    (h : '?' ∈ name) : stripQuery (stripTag inTag name) = stripQuery name := by
  by_cases htagged : Tagged inTag name
  · obtain ⟨rest, tag, heq, hne, htag⟩ := htagged
    have hfree : '?' ∉ tag := by
      intro hmem
      have htrue := htag '?' hmem
      simp [hquery] at htrue
    have hrest : '?' ∈ rest := by simpa [heq, hfree] using h
    obtain ⟨front, back, hsplit, hfront⟩ := List.eq_append_cons_of_mem hrest
    rw [heq, stripTag_tagged hcolon rest hne htag, hsplit, List.append_assoc, List.cons_append,
      stripQuery_append hfront, stripQuery_append hfront]
  · rw [stripTag_untagged htagged]

end Queries

/-- A character of a tag is no slash, so the last slash of the name does not matter. -/
theorem normalizeDistfileName_eq (file : String) :
    normalizeDistfileName file = String.ofList (stripTag isTag (stripQuery file.toList)) := by
  have hslash : ∀ tag : List Char, tag.all isTag → '/' ∉ tag := by
    intro tag htag hmem
    have htrue := List.all_eq_true.1 htag '/' hmem
    simp [isTag] at htrue
  unfold normalizeDistfileName stripTag splitLast stripQuery
  dsimp only
  generalize file.toList.takeWhile (fun c => decide (c ≠ '?')) = name
  generalize (name.reverse.takeWhile fun c => decide (c ≠ ':')).reverse = tag
  cases name.reverse.dropWhile fun c => decide (c ≠ ':') with
  | nil => simp
  | cons c rest =>
    dsimp only [List.tail_cons]
    split_ifs with hold hnew hnew
    · rfl
    · exact absurd hold.2.2 hnew
    · exact absurd ⟨List.cons_ne_nil c rest, hslash tag hnew.2, hnew⟩ hold
    · rfl

/-- A name with a query has no tag before it; one without does not end in a list of groups. -/
def Alike (file : List Char) : Prop :=
  if '?' ∈ file then ¬ Tagged isTag (stripQuery file)
  else ∀ rest tag, file = rest ++ ':' :: tag → (∀ c ∈ tag, isGroups c) → ',' ∉ tag

theorem isTag_iff (c : Char) : isTag c ↔ isGroups c ∧ c ≠ ',' := by
  unfold isTag isGroups
  by_cases hc : c = ','
  · subst hc
    decide
  · simp [hc]

theorem strips_eq_iff (file : List Char) :
    stripTag isTag (stripQuery file) = stripQuery (stripTag isGroups file) ↔ Alike file := by
  have hcolon : isTag ':' = false := by decide
  have hcolons : isGroups ':' = false := by decide
  unfold Alike
  split_ifs with hquery
  · rw [stripQuery_stripTag hcolons (by decide) hquery, stripTag_eq_self_iff hcolon]
  by_cases hgroups : Tagged isGroups file
  · obtain ⟨rest, tag, rfl, hne, htag⟩ := hgroups
    have hrest : '?' ∉ rest := fun hmem => hquery (List.mem_append_left _ hmem)
    rw [stripQuery_eq_self hquery, stripTag_tagged hcolons rest hne htag, stripQuery_eq_self hrest]
    constructor
    · -- distcheck takes the tag off too, so it has no comma
      intro heq rest' tag' hsplit htag' hcomma
      obtain ⟨_, rfl⟩ := tag_unique (colon_free hcolons htag) (colon_free hcolons htag') hsplit
      have hnot : ¬ Tagged isTag (rest ++ ':' :: tag) := by
        rintro ⟨rest'', tag'', hsplit', _, htag''⟩
        obtain ⟨_, rfl⟩ := tag_unique (colon_free hcolons htag) (colon_free hcolon htag'') hsplit'
        exact ((isTag_iff ',').1 ( htag'' ',' hcomma)).2 rfl
      rw [stripTag_untagged hnot] at heq
      simpa using congrArg List.length heq
    · intro hcomma
      have htags : ∀ c ∈ tag, isTag c := by
        intro c hc
        exact (isTag_iff c).2 ⟨htag c hc, fun heq => hcomma rest tag rfl htag (heq ▸ hc)⟩
      exact stripTag_tagged hcolon rest hne htags
  · have htags : ¬ Tagged isTag file := by
      rintro ⟨rest, tag, heq, hne, htag⟩
      exact hgroups ⟨rest, tag, heq, hne, fun c hc => ((isTag_iff c).1 (htag c hc)).1⟩
    rw [stripQuery_eq_self hquery, stripTag_untagged hgroups, stripQuery_eq_self hquery, stripTag_untagged htags]
    simp only [true_iff]
    intro rest tag heq htag hcomma
    exact hgroups ⟨rest, tag, heq, List.ne_nil_of_mem hcomma, htag⟩

theorem distfileCachePath_ok {file path : String} (h : distfileCachePath "" (some file) = .ok path) :
    path = String.ofList (stripQuery (stripTag isGroups file.toList)) ∧ ¬ Climbs path.toList := by
  unfold distfileCachePath at h
  dsimp only at h
  split_ifs at h with hclimbs hsubdir
  · exact absurd rfl hsubdir.1
  · cases h
    exact ⟨rfl, by simpa using hclimbs⟩

theorem safeRelativePath_of_not_climbs {path : String} (hne : path ≠ "") (h : ¬ Climbs path.toList) :
    safeRelativePath path := by
  have hparts : ['.', '.'] ∉ path.toList.splitOn '/' := by
    intro hmem
    exact h (.inl (by simpa using hmem))
  have hhead : (path.toList.splitOn '/').head? ≠ some [] := by
    cases hchars : path.toList with
    | nil => exact absurd (String.toList_eq_nil_iff.1 hchars) hne
    | cons c cs =>
      have hslash : c ≠ '/' := fun heq => h (.inr (by simp [hchars, heq]))
      rw [List.splitOn, List.splitOnP_cons_eq_if_modifyHead, if_neg (by simpa using hslash)]
      cases List.splitOnP (· == '/') cs <;> simp
  simp [safeRelativePath, hne, hhead, hparts]

/-- With no `DIST_SUBDIR`, distcheck looks for the file under the path it is stored at,
and so finds it there, if and only if its entry is read alike. -/
theorem cached_name_iff (entry : Entry) {path : String}
    (h : distfileCachePath "" (some entry.text) = .ok path) :
    (normalizeDistfileName entry.text = path ↔ Alike entry.text.toList) ∧
      (Alike entry.text.toList → path ≠ "" → ∀ root : Root, root.has path →
        findDistfile root entry.text = some path) := by
  obtain ⟨hpath, hclimbs⟩ := distfileCachePath_ok h
  have hname : normalizeDistfileName entry.text = path ↔ Alike entry.text.toList := by
    rw [normalizeDistfileName_eq, hpath, String.ofList_inj, strips_eq_iff]
  refine ⟨hname, fun halike hne root hroot => ?_⟩
  unfold findDistfile
  rw [hname.2 halike]
  simp [safeRelativePath_of_not_climbs hne hclimbs, hroot]

def gmakeRoot : Root := ⟨true, (· = "gmake-4.4.tar.gz"), ["gmake-4.4.tar.gz"]⟩

theorem one_group_found : Alike "gmake-4.4.tar.gz:gnu".toList ∧
    findDistfile gmakeRoot "gmake-4.4.tar.gz:gnu" = some "gmake-4.4.tar.gz" := by
  have hpath : distfileCachePath "" (some "gmake-4.4.tar.gz:gnu") = .ok "gmake-4.4.tar.gz" := by decide +kernel
  have h := cached_name_iff ⟨"gmake-4.4.tar.gz:gnu", PerlText.plain_of_any (by decide +kernel)⟩ hpath
  have halike := h.1.1 (by decide +kernel)
  exact ⟨halike, h.2 halike (by decide) gmakeRoot (by decide)⟩

/-- Two groups: the file is in the store under its name, and distcheck reports it missing. -/
theorem two_groups_missing : ∃ (entry : Entry) (path : String) (root : Root),
    distfileCachePath "" (some entry.text) = .ok path ∧ normalizeDistfileName entry.text ≠ path ∧
      root.has path ∧ findDistfile root entry.text = none := by
  refine ⟨⟨"gmake-4.4.tar.gz:gnu,mirror", PerlText.plain_of_any ?_⟩, "gmake-4.4.tar.gz", gmakeRoot, ?_⟩
  · decide +kernel
  · decide +kernel

end Mports.DistfileNames
