import Mports.ChecksumSoundness
import Mports.FetchUrls

set_option autoImplicit false

namespace Mports.ChecksumRetries
open ShellText Distinfo FailingRuns FetchScript ChecksumScript

/-- The distfiles and the patches of a port, which are fetched by two runs with their own sites;
`ignored` are the IGNOREFILES. -/
structure Port where
  setup : FetchScript.Setup
  patchSites : List Char → List Char
  distfiles : List (List Char)
  patchfiles : List (List Char)
  ignored : List (List Char)

/-- `${arg:C/:[^:]+$//}`. -/
def withoutGroups (arg : List Char) : List Char :=
  if ':' ∈ arg ∧ afterLast ':' arg ≠ [] then (arg.reverse.dropWhile (· ≠ ':')).tail.reverse else arg

namespace Port
variable (p : Port)

def args : List (List Char) := p.distfiles ++ p.patchfiles

def masterRun (list : List Char) : FetchScript.Setup :=
  { p.setup with target := .doFetch, siteFlavor := "MASTER".toList, forceFetchList := list }

def patchRun (list : List Char) : FetchScript.Setup :=
  { p.setup with target := .doFetch, siteFlavor := "PATCH".toList, sites := p.patchSites, forceFetchList := list }

/-- The `do-fetch` of the port. -/
def doFetch (net : Network) (list : List Char) (st : FetchScript.State) : Except FetchScript.State FetchScript.State := do
  let st ← run (p.masterRun list) net st p.distfiles
  run (p.patchRun list) net st p.patchfiles

def inside (dir : Dir) : Dir := fun file => dir (fullFile p.setup file)

def outside (dir inner : Dir) : Dir := fun name =>
  if p.setup.distSubdir = [] then inner name
  else if p.setup.distSubdir ++ ['/'] <+: name then inner (name.drop (p.setup.distSubdir.length + 1))
  else dir name

/-- `make fetch` with the list that is forced, and then the `fetch` that `checksum` depends on. -/
def makeFetch (net : ℤ → Network) : Fetch := fun reget list dir =>
  let result : Except FetchScript.State FetchScript.State := do
    let st ← p.doFetch (net reget) list ⟨p.inside dir, [], []⟩
    p.doFetch (net reget) p.setup.forceFetchList st
  (result.isOk, p.outside dir (final result).dir)

def checking : ChecksumScript.Setup where
  tools := p.setup.tools
  env := p.setup.env
  distinfoFile := p.setup.distinfoFile
  distinfo := p.setup.distinfo
  files := ((p.args.map withoutGroups).filter (· ∉ p.ignored)).map (fullFile p.setup)

end Port

/-- The name of a file: a word that is neither a pattern nor an option. -/
def IsName (file : List Char) : Prop :=
  file ≠ [] ∧ (∀ c ∈ file, isBlank c = false) ∧ PlainWord file ∧ file.head? ≠ some '-'

instance (file : List Char) : Decidable (IsName file) := @instDecidableAnd _ _ _
  (@instDecidableAnd _ _ (List.decidableBAll _ file) (@instDecidableAnd _ _ _ _))

/-- Names of files, digests that are no patterns, and nothing that is forced from outside. -/
structure Tame (p : Port) : Prop where
  groups : ∀ arg ∈ p.args, withoutGroups arg = fileOf arg
  names : ∀ arg ∈ p.args, IsName (fileOf arg)
  subdir : p.setup.distSubdir ≠ [] → IsName p.setup.distSubdir
  records : ∀ alg file, ∀ w ∈ cksum p.checking alg file, PlainWord w
  calm : p.setup.forceFetchAll = false ∧ p.setup.forceFetchList = []

section Checking
variable {c : ChecksumScript.Setup}

/-- The file is there, with a digest that is recorded under every algorithm that has a record. -/
def Clean (c : ChecksumScript.Setup) (dir : Dir) (file : List Char) : Prop :=
  ∃ contents, dir file = some contents ∧ ∀ alg ∈ c.env.algorithms, cksum c alg file ≠ [] →
    contents.digest alg ∈ cksum c alg file

theorem chksums_plain (hplain : ∀ alg file, ∀ w ∈ cksum c alg file, PlainWord w) (dir : Dir) (alg file : List Char) :
    chksums c dir alg file = cksum c alg file := by
  have hwords := hplain alg file
  unfold chksums
  generalize cksum c alg file = words at hwords
  induction words with
  | nil => rfl
  | cons w words ih =>
    obtain ⟨hstar, hmark, hset⟩ := hwords w List.mem_cons_self
    rw [List.flatMap_cons, c.tools.pathnames_plain _ w hstar hmark hset, ih fun x hx => hwords x (List.mem_cons_of_mem _ hx),
      List.singleton_append]

/-- Files change only where they were not clean, and only such files are listed. -/
structure Checked (c : ChecksumScript.Setup) (dir : Dir) (st : ChecksumScript.State) : Prop where
  kept : ∀ name, name ∉ c.files ∨ Clean c dir name → st.dir name = dir name
  listed : ∀ w ∈ fields st.refetchlist, w ∈ c.files ∧ ¬ Clean c dir w

variable (hplain : ∀ alg file, ∀ w ∈ cksum c alg file, PlainWord w) (hnames : ∀ file ∈ c.files, IsName file)
include hplain hnames

theorem checkAlgorithm_checked {dir : Dir} {file alg : List Char} (hfile : file ∈ c.files) (halg : alg ∈ c.env.algorithms)
    (reget : ℤ) {st : ChecksumScript.State} (h : Checked c dir st) :
    Ends (Checked c dir) (Checked c dir) (checkAlgorithm c reget file st alg) := by
  obtain ⟨hne, hblank, -, hdash⟩ := hnames file hfile
  unfold checkAlgorithm
  cases hdir : st.dir file with
  | none => exact h
  | some contents =>
    dsimp only
    rw [chksums_plain hplain]
    split_ifs with hnone hmatch
    · exact ⟨h.kept, h.listed⟩
    · exact ⟨h.kept, h.listed⟩
    · have hdirty : ¬ Clean c dir file := by
        rintro ⟨contents', hcontents, hdigest⟩
        rw [← h.kept file (.inr ⟨contents', hcontents, hdigest⟩), hdir] at hcontents
        exact hmatch (Option.some.inj hcontents ▸ hdigest alg halg hnone)
      have hwords : fields (st.refetchlist ++ ' ' :: (file ++ [' '])) = fields st.refetchlist ++ [file] := by
        rw [fields_append rfl, fields_word hblank hne rfl, fields_nil]
      have hlisted : ∀ w ∈ fields (st.refetchlist ++ ' ' :: (file ++ [' '])), w ∈ c.files ∧ ¬ Clean c dir w := by
        intro w hw
        rw [hwords, List.mem_append, List.mem_singleton] at hw
        rcases hw with hw | rfl
        · exact h.listed w hw
        · exact ⟨hfile, hdirty⟩
      unfold mismatch
      extract_lets
      split_ifs with hretry
      · rw [c.tools.rm_plain file _ hdash]
        refine ⟨fun name hname => ?_, hlisted⟩
        have hother : name ≠ file := by
          rintro rfl
          exact hname.elim (· hfile) hdirty
        exact (Function.update_of_ne hother _ _).trans (h.kept name hname)
      · exact ⟨h.kept, hlisted⟩

theorem checkFiles_checked (reget : ℤ) (dir : Dir) :
    Ends (Checked c dir) (Checked c dir) (checkFiles c reget dir) := by
  refine Ends.foldlM (fun _ => Checked c dir) ?_ ⟨fun _ _ => rfl, by simp⟩
  intro before file after hfiles st hst
  have hfile : file ∈ c.files := by rw [hfiles]; simp
  unfold checkFile
  have hstart : Checked c dir { st with ignored := true } := ⟨hst.kept, hst.listed⟩
  refine (Ends.foldlM (fun _ => Checked c dir) ?_ hstart).bind ?_
  · intro before' alg after' halgs st' hst'
    exact checkAlgorithm_checked hplain hnames hfile (by rw [halgs]; simp) reget hst'
  · intro st' hst'
    split_ifs
    · exact ⟨hst'.kept, hst'.listed⟩
    · exact hst'

end Checking

section Fetching
variable {p : Port}

theorem inside_outside {dir inner : Dir} (file : List Char) : p.outside dir inner (fullFile p.setup file) = inner file := by
  unfold Port.outside fullFile
  by_cases hsub : p.setup.distSubdir = []
  · rw [if_pos hsub, if_pos hsub]
  · have hprefix : p.setup.distSubdir ++ ['/'] <+: p.setup.distSubdir ++ '/' :: file := ⟨file, by simp⟩
    rw [if_neg hsub, if_neg hsub, if_pos hprefix, List.append_cons]
    congr 1
    exact List.drop_left' (by simp)

/-- A name is that of a file of the runs, or it is out of their sight. -/
theorem outside_other {dir inner : Dir} {name : List Char} (h : ∀ file, fullFile p.setup file ≠ name) :
    p.outside dir inner name = dir name := by
  unfold Port.outside
  by_cases hsub : p.setup.distSubdir = []
  · exact absurd (by rw [fullFile, if_pos hsub]) (h name)
  · rw [if_neg hsub, if_neg]
    rintro ⟨file, hfile⟩
    refine h file ?_
    rw [fullFile, if_neg hsub, ← hfile]
    simp

/-- A run for the port has nothing to do with the file. -/
def Quiet (p : Port) (list : List Char) (dir : Dir) (file : List Char) : Prop :=
  (∀ arg ∈ p.args, fileOf arg ≠ file) ∨ (present dir file = true ∧ ∀ dir', forced (p.masterRun list) dir' file = false)

variable (hnames : ∀ arg ∈ p.args, IsName (fileOf arg))
include hnames

theorem doFetch_quiet (net : Network) (st : FetchScript.State) {list file : List Char}
    (h : Quiet p list st.dir file) :
    Ends (fun st' => st'.dir file = st.dir file) (fun st' => st'.dir file = st.dir file) (p.doFetch net list st) := by
  have hrun : ∀ (s : FetchScript.Setup) (files : List (List Char)) (st₁ : FetchScript.State), s.target.fetches = true →
      (∀ arg ∈ files, arg ∈ p.args) → (∀ dir', forced s dir' file = forced (p.masterRun list) dir' file) →
      st₁.dir file = st.dir file →
      Ends (fun st' => st'.dir file = st.dir file) (fun st' => st'.dir file = st.dir file) (run s net st₁ files) := by
    intro s files st₁ hfetch hsub hforced hsame
    have hunwanted : ¬ Wanted s st₁.dir files file := by
      rintro ⟨⟨arg, harg, hfile⟩, hwanted⟩
      rcases h with hother | ⟨hthere, hfree⟩
      · exact hother arg (hsub arg harg) hfile
      · rcases hwanted with habsent | ⟨dir', hdir'⟩
        · rw [present, hsame] at habsent
          rw [present, habsent] at hthere
          cases hthere
        · rw [hforced, hfree dir'] at hdir'
          cases hdir'
    have hdone : ∀ st', Contained s files st₁ st' → st'.dir file = st.dir file := by
      rintro st' ⟨new, hnew, hran⟩
      exact (hran.others file fun a ha hfile => hunwanted (hfile ▸ hnew a ha)).trans hsame
    refine (run_complete hfetch (fun arg harg => (hnames arg (hsub arg harg)).2.2.2) st₁).mono hdone ?_
    rintro st' ⟨new, hnew, hran, -⟩
    exact hdone st' ⟨new, fun a ha => (hnew a ha).1, hran⟩
  exact (hrun (p.masterRun list) p.distfiles st rfl (fun arg h => List.mem_append_left _ h) (fun _ => rfl) rfl).bind
    fun st₁ hst => hrun (p.patchRun list) p.patchfiles st₁ rfl (fun arg h => List.mem_append_right _ h) (fun _ => rfl) hst

end Fetching

section Names
variable {p : Port}

theorem afterLast_append (sep : Char) (a b : List Char) : afterLast sep (a ++ sep :: b) = afterLast sep b := by
  unfold afterLast
  rw [List.reverse_append, List.reverse_cons, List.append_assoc]
  congr 1
  by_cases hsep : ∀ x ∈ b.reverse, decide (x ≠ sep) = true
  · rw [List.takeWhile_append_of_pos hsep, List.takeWhile_eq_self_iff.2 hsep]
    simp
  · have hshort : (b.reverse.takeWhile fun x => decide (x ≠ sep)).length ≠ b.reverse.length := by
      intro hlength
      exact hsep (List.takeWhile_eq_self_iff.1 ((List.takeWhile_prefix _).eq_of_length hlength))
    rw [List.takeWhile_append, if_neg hshort]

theorem afterLast_fullFile (s : FetchScript.Setup) (file : List Char) :
    afterLast '/' (fullFile s file) = afterLast '/' file := by
  unfold fullFile
  split_ifs
  · rfl
  · exact afterLast_append '/' _ _

theorem fullFile_isName (tame : Tame p) {file : List Char} (h : IsName file) : IsName (fullFile p.setup file) := by
  unfold fullFile
  split_ifs with hsub
  · exact h
  · obtain ⟨hne, hblank, ⟨hstar, hmark, hset⟩, hdash⟩ := tame.subdir hsub
    obtain ⟨-, hblank', ⟨hstar', hmark', hset'⟩, -⟩ := h
    refine ⟨by simp, fun c hc => ?_, by simp [PlainWord, *], ?_⟩
    · rcases List.mem_append.1 hc with hc | hc
      · exact hblank c hc
      · rcases List.mem_cons.1 hc with rfl | hc
        · rfl
        · exact hblank' c hc
    · rwa [List.head?_append_of_ne_nil _ hne]

theorem mem_checking (tame : Tame p) {name : List Char} (h : name ∈ p.checking.files) :
    ∃ arg ∈ p.args, fullFile p.setup (fileOf arg) = name := by
  obtain ⟨file, hfile, rfl⟩ := List.mem_map.1 h
  obtain ⟨arg, harg, rfl⟩ := List.mem_map.1 (List.mem_filter.1 hfile).1
  exact ⟨arg, harg, by rw [tame.groups arg harg]⟩

theorem checking_names (tame : Tame p) : ∀ name ∈ p.checking.files, IsName name := by
  intro name hname
  obtain ⟨arg, harg, rfl⟩ := mem_checking tame hname
  exact fullFile_isName tame (tame.names arg harg)

theorem forced_iff (tame : Tame p) {list : List Char} (hlist : ∀ w ∈ fields list, PlainWord w) (dir : Dir) (file : List Char) :
    forced (p.masterRun list) dir file = true ↔ ∃ w ∈ fields list, afterLast '/' w = afterLast '/' file := by
  have hexpand : expand (p.masterRun list) dir list = fields list := expand_plain hlist dir
  unfold forced
  change (p.setup.forceFetchAll || (expand (p.masterRun list) dir list).any _) = true ↔ _
  rw [tame.calm.1, Bool.false_or, hexpand]
  simp

end Names

/-- A file that is none of the port's, or one that is clean and has its last component alone. -/
def Apart (p : Port) (dir : Dir) (name : List Char) : Prop :=
  (∀ arg ∈ p.args, fullFile p.setup (fileOf arg) ≠ name) ∨
    (Clean p.checking dir name ∧ ∀ arg ∈ p.args, afterLast '/' (fileOf arg) = afterLast '/' name →
      fullFile p.setup (fileOf arg) = name)

section Retries
variable {p : Port} (tame : Tame p) (net : ℤ → Network)
include tame

theorem makeFetch_apart (reget : ℤ) {dir dir' : Dir} {list name : List Char}
    (hlist : ∀ w ∈ fields list, w ∈ p.checking.files ∧ ¬ Clean p.checking dir w) (h : Apart p dir name)
    (hsame : dir' name = dir name) : (p.makeFetch net reget list dir').2 name = dir name := by
  unfold Port.makeFetch
  extract_lets result
  dsimp only
  by_cases hfull : ∃ file, fullFile p.setup file = name
  · obtain ⟨file, rfl⟩ := hfull
    have hquiet : ∀ l : List Char, (∀ w ∈ fields l, w ∈ p.checking.files ∧ ¬ Clean p.checking dir w) →
        ∀ inner : Dir, inner file = dir (fullFile p.setup file) → Quiet p l inner file := by
      intro l hl inner hinner
      rcases h with hother | ⟨hclean, halone⟩
      · exact .inl fun arg harg hfile => hother arg harg (by rw [hfile])
      · refine .inr ⟨?_, fun dir'' => Bool.eq_false_iff.2 fun hforced => ?_⟩
        · obtain ⟨contents, hcontents, -⟩ := hclean
          rw [present, hinner, hcontents]
          rfl
        · rw [forced_iff tame fun w hw => (checking_names tame w (hl w hw).1).2.2.1] at hforced
          obtain ⟨w, hw, hbase⟩ := hforced
          obtain ⟨arg, harg, rfl⟩ := mem_checking tame (hl w hw).1
          rw [afterLast_fullFile] at hbase
          refine (hl _ hw).2 ?_
          rw [halone arg harg (hbase.trans (afterLast_fullFile p.setup file).symm)]
          exact hclean
    rw [inside_outside]
    refine final_of_ends (P := fun st => st.dir file = dir (fullFile p.setup file)) ?_
    have hfirst := doFetch_quiet tame.names (net reget) ⟨p.inside dir', [], []⟩ (hquiet list hlist (p.inside dir') hsame)
    refine (hfirst.mono (fun st hst => hst.trans hsame) fun st hst => hst.trans hsame).bind fun st hst => ?_
    have hnone : ∀ w ∈ fields p.setup.forceFetchList, w ∈ p.checking.files ∧ ¬ Clean p.checking dir w := by
      rw [tame.calm.2]
      simp
    exact (doFetch_quiet tame.names (net reget) st (hquiet _ hnone st.dir hst)).mono (fun st' h => h.trans hst)
      fun st' h => h.trans hst
  · exact (outside_other fun file hfile => hfull ⟨file, hfile⟩).trans hsame

theorem checked_apart {dir : Dir} {st : ChecksumScript.State} {name : List Char} (h : Apart p dir name)
    (hst : Checked p.checking dir st) : st.dir name = dir name := by
  refine hst.kept name (h.imp (fun hother hname => ?_) And.left)
  obtain ⟨arg, harg, hfile⟩ := mem_checking tame hname
  exact hother arg harg hfile

omit tame in
theorem Apart.congr {dir dir' : Dir} {name : List Char} (h : Apart p dir name) (hsame : dir' name = dir name) :
    Apart p dir' name := by
  refine h.imp_right fun ⟨⟨contents, hcontents, hdigest⟩, halone⟩ => ⟨⟨contents, ?_, hdigest⟩, halone⟩
  rw [hsame, hcontents]

/-- However often files are fetched again, and whatever is fetched then, every file in DISTDIR that
is none of the port's stays as it is, and so does every file of the port that is clean, where no
other one has its last component. -/
theorem retries_keep (reget : ℤ) (dir : Dir) {name : List Char} (h : Apart p dir name) :
    (checksum p.checking (p.makeFetch net) reget dir).dir name = dir name := by
  have hchecked : ∀ {reget : ℤ} {dir : Dir} {st : ChecksumScript.State}, checkFiles p.checking reget dir = .ok st →
      Checked p.checking dir st := by
    intro reget dir st hfiles
    have hst := checkFiles_checked tame.records (checking_names tame) reget dir
    rwa [hfiles] at hst
  fun_induction checksum p.checking (p.makeFetch net) reget dir with
  | case1 | case2 => rfl
  | case3 reget dir _ _ st hfiles =>
    have hst := checkFiles_checked tame.records (checking_names tame) reget dir
    rw [hfiles] at hst
    exact checked_apart tame h hst
  | case4 reget dir _ _ st hfiles _ _ dir' hfetch =>
    have hst := hchecked hfiles
    have hkept := makeFetch_apart tame net (reget - 1) hst.listed h (checked_apart tame h hst)
    exact (congrArg (fun r => r.2 name) hfetch).symm.trans hkept
  | case5 reget dir _ _ st hfiles _ _ dir' hfetch nested ih =>
    have hst := hchecked hfiles
    have hkept := makeFetch_apart tame net (reget - 1) hst.listed h (checked_apart tame h hst)
    have hdir : dir' name = dir name := (congrArg (fun r => r.2 name) hfetch).symm.trans hkept
    exact (ih (h.congr hdir)).trans hdir
  | case6 reget dir _ _ st hfiles | case7 reget dir _ _ st hfiles =>
    have hst := hchecked hfiles
    exact checked_apart tame h hst

end Retries

theorem cksum_plain {c : ChecksumScript.Setup} {text : List Char} (hinfo : c.distinfo = some text)
    (h : ∀ line ∈ linesOf text, PlainWord (field 4 line)) (alg file : List Char) : ∀ w ∈ cksum c alg file, PlainWord w := by
  intro w hw
  have hdata : w ∈ distinfoData c.tools c.env c.distinfo alg file := (List.mem_filter.1 hw).1
  rw [hinfo] at hdata
  unfold distinfoData at hdata
  split_ifs at hdata with hoff
  · cases hdata
  obtain ⟨line, hline, rfl⟩ := List.mem_map.1 hdata
  exact h line (List.mem_filter.1 hline).1

def onePort : Port := ⟨oneSite, fun _ => [], ["a.tgz".toList], [], []⟩

def twoPort : Port where
  setup := { oneSite with
    distinfo := some "SHA256 (a.tgz) = d\nSIZE (a.tgz) = 3\nSHA256 (c.tgz) = e\nSIZE (c.tgz) = 5\n".toList }
  patchSites _ := []
  distfiles := ["a.tgz".toList, "c.tgz".toList]
  patchfiles := []
  ignored := []

theorem twoPort_tame : Tame twoPort where
  groups := by decide
  names := by decide
  subdir h := absurd rfl h
  records := cksum_plain (show twoPort.checking.distinfo =
    some "SHA256 (a.tgz) = d\nSIZE (a.tgz) = 3\nSHA256 (c.tgz) = e\nSIZE (c.tgz) = 5\n".toList from rfl) (by decide)
  calm := ⟨rfl, rfl⟩

/-- Its first file is damaged, the second is clean, and there is one of another port. -/
def damaged : Dir := fun name =>
  if name = "a.tgz".toList then some ⟨fun _ => ['x'], 2⟩
  else if name = "b.tgz".toList then some ⟨fun _ => ['y'], 4⟩
  else if name = "c.tgz".toList then some ⟨fun _ => ['e'], 5⟩ else none

theorem twoPort_keeps :
    (checksum twoPort.checking (twoPort.makeFetch fun _ => mirror) 2 damaged).dir "b.tgz".toList = damaged "b.tgz".toList ∧
      (checksum twoPort.checking (twoPort.makeFetch fun _ => mirror) 2 damaged).dir "c.tgz".toList =
        damaged "c.tgz".toList := by
  have hclean : Clean twoPort.checking damaged "c.tgz".toList :=
    ⟨⟨fun _ => ['e'], 5⟩, rfl, List.forall_mem_singleton.2 fun _ => by decide +kernel⟩
  exact ⟨retries_keep twoPort_tame _ 2 damaged (.inl (by decide)),
    retries_keep twoPort_tame _ 2 damaged (.inr ⟨hclean, by decide⟩)⟩

end Mports.ChecksumRetries
