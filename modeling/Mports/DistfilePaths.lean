import Mports.DistfileNames
import Mports.FileTrees
import Mports.ShellText

set_option autoImplicit false

namespace Mports.DistfilePaths
open DistcheckQueries DistfileNames FileTrees

section Worker

/-- `$` matches at the end or before a newline at the end, which then stays. -/
def beforeEnd (strip : List Char → List Char) (text : List Char) : List Char :=
  strip (PerlText.chomped text) ++ text.drop (PerlText.chomped text).length

/-- `s/:[A-Za-z0-9_,]+$//`. -/
def removeGroups (file : List Char) : List Char := beforeEnd (stripTag isGroups) file

/-- `s/\?.*$//`. No newline matches `.`, so the query is on the last line. -/
def removeQuery (file : List Char) : List Char :=
  beforeEnd (fun text => match splitLast '\n' text with
    | some (lines, last) => lines ++ '\n' :: stripQuery last
    | none => stripQuery text) file

/-- `m{(?:^|/)\.\.(?:/|$)}` or `m{^/}`. -/
def Rejected (file : List Char) : Prop :=
  Climbs file ∨ (file.splitOn '/').getLast? = some "..\n".toList

instance (file : List Char) : Decidable (Rejected file) := inferInstanceAs (Decidable (_ ∨ _))

/-- `[[:cntrl:]]`, on bytes. -/
def isControl (c : Char) : Bool := c.toNat < 32 || c.toNat = 127

/-- `distfile_subdir`, from the exit code and the output of `make -V DIST_SUBDIR`. -/
def distfileSubdir (exit : ℕ) (out : String) : String :=
  let out := PerlText.chomped out.toList
  if exit ≠ 0 then ""
  else if out.any isControl then ""
  else if Rejected out then ""
  else String.ofList out

/-- `distfile_cache_path` of any text. -/
def cachePath (exit : ℕ) (out : String) : Option String → Except (Option String) String
  | none => .error none
  | some file =>
    let file := removeQuery (removeGroups file.toList)
    if Rejected file then .error (some ("Unsafe distfile path ignored: " ++ String.ofList file))
    else
      let subdir := distfileSubdir exit out
      if subdir ≠ "" ∧ ¬ (subdir ++ "/").toList <+: file then .ok (subdir ++ "/" ++ String.ofList file)
      else .ok (String.ofList file)

end Worker

def Inside (path : String) : Prop :=
  path.toList.head? ≠ some '/' ∧ "..".toList ∉ path.toList.splitOn '/'

theorem inside_iff {path : String} : Inside path ↔ ¬ Climbs path.toList := by
  rw [Inside, Climbs, not_or, and_comm]

section Worker

theorem climbs_join {front back : List Char} (hne : front ≠ []) (hfront : ¬ Climbs front)
    (hback : ¬ Climbs back) : ¬ Climbs (front ++ '/' :: back) := by
  obtain ⟨c, cs, rfl⟩ := List.exists_cons_of_ne_nil hne
  rw [Climbs, not_or] at hfront hback ⊢
  rw [List.splitOn_append_cons_self, List.mem_append, not_or]
  exact ⟨⟨hfront.1, hback.1⟩, hfront.2⟩

theorem distfileSubdir_inside (exit : ℕ) (out : String) : ¬ Climbs (distfileSubdir exit out).toList := by
  unfold distfileSubdir
  dsimp only
  split_ifs with hexit hcontrol hrejected
  · decide
  · decide
  · decide
  · rw [String.toList_ofList]
    exact fun h => hrejected (.inl h)

theorem cachePath_inside {exit : ℕ} {out : String} {file : Option String} {path : String}
    (h : cachePath exit out file = .ok path) : Inside path := by
  cases file with
  | none => cases h
  | some file =>
    rw [inside_iff]
    unfold cachePath at h
    dsimp only at h
    have hsub := distfileSubdir_inside exit out
    generalize removeQuery (removeGroups file.toList) = name at h
    generalize distfileSubdir exit out = subdir at h hsub
    split_ifs at h with hrejected hsubdir
    · cases h
      have hjoin : (subdir ++ "/" ++ String.ofList name).toList = subdir.toList ++ '/' :: name := by simp
      rw [hjoin]
      exact climbs_join (by simpa using hsubdir.1) hsub fun hc => hrejected (.inl hc)
    · cases h
      rw [String.toList_ofList]
      exact fun hc => hrejected (.inl hc)

end Worker

section Store

/-- What distcheck sees of a directory without links: `has` answers for `root / path`. -/
def storeRoot (t : FileTree) (dir : Path) : Root where
  present := (t.kind dir).isSome
  has := fun path => (t.resolve dir (path.toList.splitOn '/')).isSome
  files := (t.filesBelow dir).map fun names => "/".intercalate (names.map String.ofList)

theorem safe_inside {path : String} (h : safeRelativePath path = true) : Inside path := by
  simp only [safeRelativePath, Bool.and_eq_true, decide_eq_true_eq, ne_eq,
    Bool.not_eq_true', List.contains_eq_mem, decide_eq_false_iff_not] at h
  refine ⟨fun hslash => h.1.2 ?_, h.2⟩
  cases hchars : path.toList with
  | nil => simp [hchars] at hslash
  | cons c cs =>
    rw [hchars, List.head?_cons, Option.some_inj] at hslash
    rw [hslash, List.splitOn_cons_eq_if_modifyHead]
    simp

theorem intercalate_inside {names : List (List Char)} (hne : names ≠ []) (hproper : ∀ name ∈ names, Proper name) :
    ("/".intercalate (names.map String.ofList)).toList.splitOn '/' = names ∧
      Inside ("/".intercalate (names.map String.ofList)) := by
  have hparts : ("/".intercalate (names.map String.ofList)).toList.splitOn '/' = names := by
    rw [String.toList_intercalate, List.map_map]
    have hid : names.map (String.toList ∘ String.ofList) = names := by simp [Function.comp_def]
    rw [hid]
    exact List.splitOn_intercalate '/' (fun name hname => (hproper name hname).2.2.2) hne
  refine ⟨hparts, fun hslash => ?_, fun hup => ?_⟩
  · generalize "/".intercalate (names.map String.ofList) = path at hparts hslash
    cases hchars : path.toList with
    | nil => simp [hchars] at hslash
    | cons c cs =>
      rw [hchars, List.head?_cons, Option.some_inj] at hslash
      rw [hchars, hslash, List.splitOn_cons_eq_if_modifyHead] at hparts
      exact (hproper [] (hparts ▸ by simp)).1 rfl
  · rw [hparts] at hup
    exact (hproper _ hup).2.2.1 rfl

/-- The path is that of an entry in the directory, or of the directory for want of a name. -/
def Names (t : FileTree) (dir : Path) (path : String) : Prop :=
  ∃ e, t.resolve dir (path.toList.splitOn '/') = some e ∧ t.kind e ≠ none ∧ dir <+: e ∧
    (e = dir ↔ ∀ part ∈ path.toList.splitOn '/', part = [] ∨ part = ['.'])

theorem names_of_resolve {t : FileTree} {dir e : Path} {path : String} (hinside : Inside path)
    (h : t.resolve dir (path.toList.splitOn '/') = some e) : Names t dir path := by
  have hdir : t.kind dir ≠ none := by
    obtain ⟨part, parts, hparts⟩ := List.exists_cons_of_ne_nil (List.splitOn_ne_nil '/' path.toList)
    rw [hparts] at h
    unfold FileTree.resolve at h
    split_ifs at h with hkind <;> simp_all
  exact ⟨e, h, FileTree.resolve_kind hdir h, FileTree.resolve_below hinside.2 h,
    FileTree.resolve_stays_iff hinside.2 h⟩

theorem findDistfile_inside {t : FileTree} {dir : Path} {filename path : String}
    (h : findDistfile (storeRoot t dir) filename = some path) : Inside path ∧ Names t dir path := by
  unfold findDistfile at h
  dsimp only at h
  split_ifs at h with hsafe hdirect hpresent
  · cases h
    obtain ⟨e, he⟩ := Option.isSome_iff_exists.1 hdirect
    exact ⟨safe_inside hsafe, names_of_resolve (safe_inside hsafe) he⟩
  · obtain ⟨names, hnames, rfl⟩ := List.mem_map.1 (List.mem_of_find?_eq_some h)
    obtain ⟨hne, hproper, hfile⟩ := FileTree.mem_filesBelow hnames
    obtain ⟨hparts, hinside⟩ := intercalate_inside hne hproper
    refine ⟨hinside, names_of_resolve hinside (e := dir ++ names) ?_⟩
    rw [hparts]
    exact FileTree.resolve_names hproper (by simp [hfile])

end Store

/-- Both make paths that stay inside, and no part of the way along such a path leaves the
directory it starts from. Where one names no entry of the directory, it names the
directory itself. -/
theorem paths_inside :
    (∀ exit out file path, cachePath exit out file = .ok path → Inside path) ∧
    (∀ t dir filename path, findDistfile (storeRoot t dir) filename = some path →
      Inside path ∧ Names t dir path) ∧
    ∀ path, Inside path → ∀ (t : FileTree) dir parts e, parts <+: path.toList.splitOn '/' →
      t.resolve dir parts = some e → dir <+: e :=
  ⟨fun _ _ _ _ h => cachePath_inside h, fun _ _ _ _ h => findDistfile_inside h,
    fun _ hinside _ _ _ _ hparts h =>
      FileTree.resolve_below (fun hup => hinside.2 (hparts.subset hup)) h⟩

theorem gmake_inside : cachePath 0 "gnu\n" (some "gmake-4.4.tar.gz:gnu,mirror") = .ok "gnu/gmake-4.4.tar.gz" ∧
    Inside "gnu/gmake-4.4.tar.gz" := by
  have hpath : cachePath 0 "gnu\n" (some "gmake-4.4.tar.gz:gnu,mirror") = .ok "gnu/gmake-4.4.tar.gz" := by
    decide +kernel
  exact ⟨hpath, paths_inside.1 _ _ _ _ hpath⟩

def srvTree : FileTree where
  entries := [(["srv".toList], .dir), (["srv".toList, "gmake-4.4.tar.gz".toList], .file)]
  key := by decide +kernel
  proper := by decide +kernel
  parents := by decide +kernel

theorem dot_names_store : findDistfile (storeRoot srvTree ["srv".toList]) "." = some "." ∧
    srvTree.resolve ["srv".toList] (".".toList.splitOn '/') = some ["srv".toList] := by
  decide +kernel

end Mports.DistfilePaths
