import Mathlib.Algebra.BigOperators.Group.List.Basic
import Mathlib.Data.List.Nodup
import Mports.FetchRuns

set_option autoImplicit false

namespace Mports.FetchScript
open ShellText Distinfo FailingRuns

section Sorting

/-- The elements by their keys, in the order of the keys, and then those without a key. -/
theorem byKey_perm {α κ : Type} [DecidableEq α] [DecidableEq κ] {keys : List κ} (hkeys : keys.Nodup) (key : α → Option κ)
    {l : List α} (hkey : ∀ a ∈ l, ∀ k, key a = some k → k ∈ keys) :
    ((keys.flatMap fun k => l.filter (key · = some k)) ++ l.filter (key · = none)).Perm l := by
  have hother : ∀ a x, key a ≠ x → (l.filter (key · = x)).count a = 0 := fun a x hx =>
    List.count_eq_zero_of_not_mem fun h => hx (by simpa using (List.mem_filter.1 h).2)
  have hsame : ∀ a x, key a = x → (l.filter (key · = x)).count a = l.count a := fun a x hx =>
    List.count_filter (by simpa using hx)
  rw [List.perm_iff_count]
  intro a
  rw [List.count_append, List.count_flatMap]
  cases hkind : key a with
  | none =>
    have hzero : ∀ n ∈ List.map (List.count a ∘ fun k => l.filter (key · = some k)) keys, n = 0 := by
      intro n hn
      obtain ⟨k, -, rfl⟩ := List.mem_map.1 hn
      exact hother a _ (by simp [hkind])
    rw [List.sum_eq_zero hzero, hsame a _ hkind, zero_add]
  | some k =>
    have hsum := List.sum_map_eq_nsmul_single k (List.count a ∘ fun k => l.filter (key · = some k))
      fun k' hk' (_ : k' ∈ keys) => hother a (some k') (by simpa [hkind] using hk'.symm)
    rw [hsum, hother a none (by simp [hkind]), add_zero, Function.comp_apply, hsame a _ hkind]
    by_cases hmem : a ∈ l
    · rw [List.count_eq_one_of_mem hkeys (hkey a hmem k hkind), one_nsmul]
    · rw [List.count_eq_zero_of_not_mem hmem, nsmul_zero]

end Sorting

variable {s : Setup}

theorem fields_records (records : List (List Char)) :
    fields (records.flatMap (' ' :: ·)) = records.flatMap fields := by
  induction records with
  | nil => rfl
  | cons r records ih =>
    rw [List.flatMap_cons, List.flatMap_cons, List.cons_append, fields_cons rfl, ← ih]
    cases records with
    | nil => simp
    | cons r' records =>
      rw [List.flatMap_cons, List.cons_append, fields_append rfl, fields_cons rfl]

theorem fields_splitOn (text : List Char) : fields text = (text.splitOn ' ').flatMap fields := by
  have hparts : ∀ parts : List (List Char), fields ([' '].intercalate parts) = parts.flatMap fields := by
    intro parts
    induction parts with
    | nil => rfl
    | cons part parts ih =>
      cases parts with
      | nil => simp
      | cons part' parts =>
        rw [List.intercalate_cons_cons, List.append_assoc, List.singleton_append, fields_append rfl, ih]
        rfl
  rw [← hparts, List.intercalate_splitOn]

theorem masterSort_perm (hnodup : s.masterSortRegex.Nodup) (text : List Char) :
    (fields (masterSort s text)).Perm (fields text) := by
  let key : List Char → Option (List Char) := fun record => s.masterSortRegex.find? fun srt => s.sorts srt record
  let chosen := s.masterSortRegex.flatMap fun srt => (text.splitOn ' ').filter (key · = some srt)
  let rest := (text.splitOn ' ').filter (key · = none)
  have hprinted : ∀ records : List (List Char),
      records.flatMap (' ' :: ·) ++ [' '] = (records ++ [[]]).flatMap (' ' :: ·) := by simp
  have htext : masterSort s text = ((s.masterSortRegex.flatMap fun srt =>
      (text.splitOn ' ').filter (key · = some srt) ++ [[]]) ++ (rest ++ [[]])).flatMap (' ' :: ·) := by
    rw [List.flatMap_append, List.flatMap_assoc, ← hprinted]
    unfold masterSort
    extract_lets records printed
    simp only [printed, hprinted]
    rfl
  have hwords : fields (masterSort s text) = (chosen ++ rest).flatMap fields := by
    rw [htext, fields_records]
    simp [List.flatMap_append, List.flatMap_assoc, chosen]
  rw [hwords, fields_splitOn text]
  exact (byKey_perm hnodup key fun record _ srt h => List.mem_of_find?_eq_some h).flatMap_right fields

def PlainWord (w : List Char) : Prop := '*' ∉ w ∧ '?' ∉ w ∧ '[' ∉ w

instance (w : List Char) : Decidable (PlainWord w) := inferInstanceAs (Decidable (_ ∧ _))

theorem expand_plain {text : List Char} (h : ∀ w ∈ fields text, PlainWord w) (dir : Dir) : expand s dir text = fields text := by
  unfold expand
  generalize fields text = words at h
  induction words with
  | nil => rfl
  | cons w words ih =>
    obtain ⟨hstar, hmark, hset⟩ := h w List.mem_cons_self
    rw [List.flatMap_cons, s.tools.pathnames_plain _ w hstar hmark hset, ih fun x hx => h x (List.mem_cons_of_mem _ hx),
      List.singleton_append]

theorem echo_plain {words : List (List Char)} (h : ∀ w ∈ words, ':' ∈ w) : echo s words = [' '].intercalate words := by
  have hhead : ∀ option : List Char, ':' ∉ option → words.head? ≠ some option := fun option hoption hsome =>
    hoption (h option (List.mem_of_mem_head? hsome))
  rw [echo, if_neg (hhead _ (by decide)), if_neg (hhead _ (by decide))]

def IsSite (w : List Char) : Prop := PlainWord w ∧ ':' ∈ w

instance (w : List Char) : Decidable (IsSite w) := inferInstanceAs (Decidable (_ ∧ _))

/-- No text is a pattern, the sites are URLs, and they are not shuffled. -/
structure Literal (s : Setup) (files : List (List Char)) : Prop where
  order : s.randomize = none
  nodup : s.masterSortRegex.Nodup
  override : ∀ w ∈ fields s.masterSiteOverride, IsSite w
  backup : ∀ w ∈ fields s.masterSiteBackup, IsSite w
  sites : ∀ group, ∀ w ∈ fields (s.sites group), IsSite w
  groups : ∀ arg ∈ files, ∀ w ∈ fields (select s arg), PlainWord w
  files : ∀ arg ∈ files, PlainWord (fileOf arg) ∧ ∀ c ∈ fileOf arg, isBlank c = false

/-- The sites that are overridden with, those of the groups, and those that come last. -/
def sitesOf (s : Setup) (arg : List Char) : List (List Char) :=
  fields s.masterSiteOverride ++ fields (masterSort s (gathered s (fields (select s arg)))) ++ fields s.masterSiteBackup

def urlsOf (s : Setup) (arg : List Char) : List (List Char) := (sitesOf s arg).map (· ++ fileOf arg)

theorem fields_gathered (groups : List (List Char)) :
    fields (gathered s groups) = groups.flatMap fun group => fields (s.sites group) := by
  rw [gathered, fields_records]
  induction groups with
  | nil => rfl
  | cons group groups ih =>
    rw [List.map_cons, List.filter_cons, List.flatMap_cons]
    split_ifs with h
    · rw [List.flatMap_cons, ih]
    · have hnil : s.sites group = [] := by simpa using h
      rw [ih, hnil, fields_nil, List.nil_append]

section
variable {files : List (List Char)} (literal : Literal s files)
include literal

theorem sorted_perm (arg : List Char) : (fields (masterSort s (gathered s (fields (select s arg))))).Perm
    ((fields (select s arg)).flatMap fun group => fields (s.sites group)) :=
  fields_gathered (s := s) _ ▸ masterSort_perm literal.nodup _

theorem sitesOf_site {arg : List Char} : ∀ w ∈ sitesOf s arg, IsSite w := by
  intro w hw
  rw [sitesOf, List.mem_append, List.mem_append] at hw
  obtain (hw | hw) | hw := hw
  · exact literal.override w hw
  · obtain ⟨group, -, hw⟩ := List.mem_flatMap.1 ((sorted_perm literal arg).mem_iff.1 hw)
    exact literal.sites group w hw
  · exact literal.backup w hw

theorem siteWords_literal (st : State) (arg : List Char) :
    siteWords s st (gathered s (fields (select s arg))) = sitesOf s arg := by
  have hfields : fields (s.masterSiteOverride ++ ' ' :: masterSort s (gathered s (fields (select s arg))) ++
      ' ' :: s.masterSiteBackup) = sitesOf s arg := by
    rw [fields_append rfl, fields_append rfl]
    rfl
  have hplain : ∀ w ∈ sitesOf s arg, PlainWord w := fun w hw => (sitesOf_site literal w hw).1
  unfold siteWords
  rw [literal.order]
  dsimp only
  rw [expand_plain (fun w hw => hplain w (hfields ▸ hw)), hfields, echo_plain fun w hw => (sitesOf_site literal w hw).2]
  have hjoined : fields ([' '].intercalate (sitesOf s arg)) = sitesOf s arg := fields_joined fun w hw => by
    rw [← hfields] at hw
    exact mem_fields hw
  rw [expand_plain fun w hw => hplain w (hjoined ▸ hw), hjoined]

end

section Listing

/-- `fetch-urlall-list`, with the settings that a run has. -/
def listing (s : Setup) : Setup := { s with target := .fetchUrlListInt, forceFetchAll := true }

variable {file : List Char} {net : Network}

theorem listSites (hfile : PlainWord file ∧ ∀ c ∈ file, isBlank c = false) {sites : List (List Char)}
    (hsites : ∀ w ∈ sites, IsSite w ∧ ∀ c ∈ w, isBlank c = false) (st : State) :
    Ends (fun _ => True) (· = st.print (ofLines (sites.map (· ++ file)))) (trySites (listing s) net file sites st) := by
  induction sites generalizing st with
  | nil => simp [trySites, giveUp, listing, Target.fetches, ofLines, State.print]
  | cons site rest ih =>
    obtain ⟨⟨⟨hstar, hmark, hset⟩, hcolon⟩, hblank⟩ := hsites site List.mem_cons_self
    have hword : fields (site ++ file) = [site ++ file] := by
      refine fields_last (fun c hc => ?_) fun hnil => ?_
      · exact (List.mem_append.1 hc).elim (hblank c) (hfile.2 c)
      · rw [(List.append_eq_nil_iff.1 hnil).1] at hcolon
        cases hcolon
    have hplain : PlainWord (site ++ file) := by
      obtain ⟨⟨hstar', hmark', hset'⟩, -⟩ := hfile
      simp [PlainWord, hstar, hmark, hset, hstar', hmark', hset']
    have hecho : echo (listing s) (expand (listing s) st.dir (args (listing s) file site)) = site ++ file := by
      have hargs : args (listing s) file site = site ++ file := by simp [args, listing]
      rw [hargs, expand_plain (fun w hw => by rw [hword, List.mem_singleton] at hw; exact hw ▸ hplain), hword,
        echo_plain fun w hw => by rw [List.mem_singleton.1 hw]; exact List.mem_append_left _ hcolon,
        List.intercalate_singleton]
    have hearly : early (listing s) file st = .ok st := by simp [early, listing, Target.fetches]
    unfold trySites trySite
    rw [hearly]
    change Ends _ _ ((if _ then _ else _) >>= _)
    split_ifs with hinvalid hfetch hlist
    · trivial
    · cases hfetch
    · cases hlist
    · rw [hecho]
      refine (ih (fun w hw => hsites w (List.mem_cons_of_mem _ hw)) _).mono (fun _ h => h) ?_
      rintro st' rfl
      simp [State.say, State.print, ofLines]

theorem gather_list (st : State) (groups : List (List Char)) :
    groups.foldlM (gather (listing s) file) (st, []) = .ok (st, gathered s groups) := by
  induction groups using List.reverseRecOn with
  | nil => rfl
  | append_singleton groups group ih =>
    rw [List.foldlM_append, ih, gathered_append]
    change gather (listing s) file (st, gathered s groups) group >>= _ = _
    unfold gather
    split_ifs with hsites hempty hfetch <;> simp_all [listing, Target.fetches]

variable {files : List (List Char)}

theorem listFile (literal : Literal s files) {arg : List Char} (harg : arg ∈ files) (st : State) :
    Ends (fun _ => True) (· = st.print (ofLines (urlsOf s arg))) (fetchFile (listing s) net st arg) := by
  have hmissing : Ends (fun _ => True) (· = st.print (ofLines (urlsOf s arg))) (fetchMissing (listing s) net arg st) := by
    unfold fetchMissing
    have hgroups : expand (listing s) st.dir (select (listing s) arg) = fields (select s arg) :=
      expand_plain (literal.groups arg harg) st.dir
    have hwords : siteWords (listing s) st (gathered s (fields (select s arg))) = sitesOf s arg :=
      siteWords_literal literal st arg
    dsimp only
    rw [hgroups, gather_list]
    change Ends _ _ (trySites (listing s) net (fileOf arg) (siteWords (listing s) st _) st)
    rw [hwords]
    refine listSites (literal.files arg harg) (fun w hw => ⟨sitesOf_site literal w hw, ?_⟩) st
    rw [sitesOf, List.mem_append, List.mem_append] at hw
    obtain (hw | hw) | hw := hw <;> exact (mem_fields hw).2
  have hforced : forced (listing s) st.dir (fileOf arg) = true := rfl
  unfold fetchFile
  extract_lets file st₁
  split_ifs with hkept hlink hsum hfetch
  · rw [hforced] at hkept
    simp at hkept
  · trivial
  · trivial
  · cases hfetch
  · cases hfetch
  · exact hmissing

end Listing

variable {net : Network} {files : List (List Char)}

theorem fetchMissing_tried (literal : Literal s files) (hfetch : s.target.fetches = true) {arg : List Char} (harg : arg ∈ files)
    (hname : (fileOf arg).head? ≠ some '-') (st : State) :
    Ends (TriedFirst (fileOf arg) (sitesOf s arg) st) (TriedFirst (fileOf arg) (sitesOf s arg) st)
      (fetchMissing s net arg st) := by
  unfold fetchMissing
  rw [expand_plain (literal.groups arg harg)]
  refine ((gathered_same st _).mono ?_ fun acc h => h).bind ?_
  · rintro st' ⟨hdir, htried⟩
    exact .of_same hdir htried
  · rintro ⟨st₁, masterSites⟩ ⟨⟨hdir, htried⟩, rfl⟩
    have hmore : ∀ st', TriedFirst (fileOf arg) (sitesOf s arg) st₁ st' → TriedFirst (fileOf arg) (sitesOf s arg) st st' := by
      rintro st' ⟨new, some, hsome, hnew, hran⟩
      exact ⟨new, some, hsome, hnew, (Ran.of_same hdir htried).trans hran⟩
    dsimp only
    rw [if_neg (Target.ne_fetchList hfetch), siteWords_literal literal]
    exact (trySites_ran hfetch hname _ st₁).mono hmore fun st' h => hmore st' h.1

theorem fetchFile_tried (literal : Literal s files) (hfetch : s.target.fetches = true) {arg : List Char} (harg : arg ∈ files)
    (hname : (fileOf arg).head? ≠ some '-') (st : State) :
    Ends (TriedFirst (fileOf arg) (sitesOf s arg) st) (TriedFirst (fileOf arg) (sitesOf s arg) st)
      (fetchFile s net st arg) := by
  have hsame : ∀ st', st'.dir = st.dir → st'.tried = st.tried → TriedFirst (fileOf arg) (sitesOf s arg) st st' :=
    fun st' hdir htried => .of_same hdir htried
  unfold fetchFile
  extract_lets file st₁
  split_ifs with hkept hlink hsum hwritable
  · exact hsame _ rfl rfl
  · exact hsame _ rfl rfl
  · exact hsame _ rfl rfl
  · have hmore : ∀ st', TriedFirst file (sitesOf s arg) st₁ st' → TriedFirst file (sitesOf s arg) st st' := by
      rintro st' ⟨new, some, hsome, hnew, hran⟩
      exact ⟨new, some, hsome, hnew, hran.tried, hran.others⟩
    exact (fetchMissing_tried literal hfetch harg hname st₁).mono hmore hmore
  · exact hsame _ rfl rfl

def Attempt.url (a : Attempt) : List Char := a.site ++ a.file

theorem TriedFirst.urls {arg : List Char} {st st' : State} (h : TriedFirst (fileOf arg) (sitesOf s arg) st st') :
    ∃ new, Ran new st st' ∧ new.map Attempt.url <+: urlsOf s arg := by
  obtain ⟨new, some, hsome, hnew, hran⟩ := h
  refine ⟨new, hran, ?_⟩
  have hurl : new.map Attempt.url = some.map (· ++ fileOf arg) := by
    have hurls := congrArg (List.map fun r : List Char × List Char => r.2 ++ r.1) hnew
    rwa [List.map_map, List.map_map] at hurls
  rw [hurl]
  exact hsome.map _

def TriedSome (s : Setup) (files : List (List Char)) (st st' : State) : Prop :=
  ∃ new, Ran new st st' ∧ (new.map Attempt.url).Sublist (files.flatMap (urlsOf s))

theorem run_tried (literal : Literal s files) (hfetch : s.target.fetches = true)
    (hplain : ∀ arg ∈ files, (fileOf arg).head? ≠ some '-') (st : State) :
    Ends (TriedSome s files st) (TriedSome s files st) (run s net st files) := by
  refine Ends.foldlM (fun done => TriedSome s done st) ?_ ⟨[], .of_same rfl rfl, by simp⟩
  rintro before arg after hfiles st₁ ⟨new, hran, hsub⟩
  have harg : arg ∈ files := by rw [hfiles]; simp
  have hmore : ∀ st', TriedFirst (fileOf arg) (sitesOf s arg) st₁ st' → TriedSome s (before ++ [arg]) st st' := by
    intro st' h
    obtain ⟨more, hmore, hprefix⟩ := h.urls
    refine ⟨new ++ more, hran.trans hmore, ?_⟩
    rw [List.map_append, List.flatMap_append]
    exact hsub.append (by simpa using hprefix.sublist)
  refine (fetchFile_tried literal hfetch harg (hplain arg harg) st₁).mono (fun st' h => ?_) hmore
  obtain ⟨new, hran, hsub⟩ := hmore st' h
  refine ⟨new, hran, hsub.trans ?_⟩
  have hrest : files.flatMap (urlsOf s) = (before ++ [arg]).flatMap (urlsOf s) ++ after.flatMap (urlsOf s) := by
    rw [hfiles, List.append_cons, List.flatMap_append]
  exact hrest ▸ List.sublist_append_left _ _

/-- Where `fetch-urlall-list` comes to its end, it has printed for every file the sites that are
overridden with, those of its groups in some order and then those of the backup; whatever the
network does, the commands of a run go through some of these URLs, in this order. -/
theorem attempts_listed (literal : Literal s files) (hfetch : s.target.fetches = true)
    (hplain : ∀ arg ∈ files, (fileOf arg).head? ≠ some '-') (net : Network) (cwd : State) {listed : State}
    (hlisted : run (listing s) net cwd files = .ok listed) :
    listed.out = cwd.out ++ ofLines (files.flatMap (urlsOf s)) ∧
      (∀ arg ∈ files, ∃ sorted, sorted.Perm ((fields (select s arg)).flatMap fun group => fields (s.sites group)) ∧
        urlsOf s arg = (fields s.masterSiteOverride ++ sorted ++ fields s.masterSiteBackup).map (· ++ fileOf arg)) ∧
      ∀ net' st, TriedSome s files st (final (run s net' st files)) := by
  refine ⟨?_, fun arg _ => ⟨_, sorted_perm literal arg, rfl⟩, fun net' st => ?_⟩
  · have hrun : Ends (fun _ => True) (· = cwd.print (ofLines (files.flatMap (urlsOf s)))) (run (listing s) net cwd files) := by
      refine Ends.foldlM (fun done st => st = cwd.print (ofLines (done.flatMap (urlsOf s)))) ?_ (by simp [ofLines, State.print])
      rintro before arg after hfiles st rfl
      refine (listFile literal (by rw [hfiles]; simp) _).mono (fun _ h => h) ?_
      rintro st' rfl
      simp [State.print, ofLines]
    rw [hlisted] at hrun
    exact congrArg State.out hrun
  · exact final_of_ends (run_tried literal hfetch hplain st)

theorem oneSite_literal : Literal oneSite ["a.tgz".toList] where
  order := rfl
  nodup := List.nodup_nil
  override := by decide
  backup := by decide
  sites := fun _ => (by decide : ∀ w ∈ fields "http://a/".toList, IsSite w)
  groups := by decide
  files := fun _ harg => by
    obtain rfl := List.mem_singleton.1 harg
    exact ⟨by decide, List.forall_iff_forall_mem.1 (by decide)⟩

theorem oneSite_listed :
    (⟨fun _ => none, [], "http://a/a.tgz\n".toList⟩ : State).out =
        [] ++ ofLines (["a.tgz".toList].flatMap (urlsOf oneSite)) ∧
      (∀ arg ∈ ["a.tgz".toList], ∃ sorted,
        sorted.Perm ((fields (select oneSite arg)).flatMap fun group => fields (oneSite.sites group)) ∧
          urlsOf oneSite arg = (fields oneSite.masterSiteOverride ++ sorted ++ fields oneSite.masterSiteBackup).map
            (· ++ fileOf arg)) ∧
      ∀ net' st, TriedSome oneSite ["a.tgz".toList] st (final (run oneSite net' st ["a.tgz".toList])) :=
  attempts_listed oneSite_literal rfl (by decide) mirror ⟨fun _ => none, [], []⟩ (by rfl)

end Mports.FetchScript
