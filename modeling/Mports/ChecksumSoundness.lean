import Mports.ChecksumScript

set_option autoImplicit false

namespace Mports.ChecksumScript
open ShellText Distinfo

def recorded (s : Setup) (alg file : List Char) : List (List Char) :=
  (entries (s.distinfo.getD []) alg file).filter (· ≠ [])

/-- Every file has a record, and under every algorithm that has one its digest is recorded. -/
def Sound (s : Setup) (dir : Dir) : Prop :=
  ∀ file ∈ s.files, (∃ alg ∈ s.env.algorithms, recorded s alg file ≠ []) ∧
    ∀ alg ∈ s.env.algorithms, recorded s alg file ≠ [] →
      ∃ contents, dir file = some contents ∧ contents.digest alg ∈ recorded s alg file

/-- What awk reads of the record under the algorithm, in any directory that holds the files,
is a record of the file itself. -/
def ReadsOwn (s : Setup) (alg file : List Char) : Prop :=
  recorded s alg (s.tools.unescape file) ≠ [] ∧
    ∀ names : List Char → Bool, (∀ m ∈ s.files, names m) → ∀ word ∈ recorded s alg (s.tools.unescape file),
      ∀ x ∈ s.tools.pathnames names word, x ∈ recorded s alg file

def Trusted (s : Setup) : Prop :=
  if s.distinfo = none then s.files ≠ [[]]
  else
    (s.env.disableSize && s.env.noChecksum) = true ∨
      (∃ file ∈ s.files, ∀ alg ∈ s.env.algorithms, recorded s alg (s.tools.unescape file) = []) ∨
      ∀ file ∈ s.files, (∃ alg ∈ s.env.algorithms, recorded s alg file ≠ []) ∧
        ∀ alg ∈ s.env.algorithms, recorded s alg file ≠ [] → ReadsOwn s alg file

variable {s : Setup}

theorem recorded_plain {alg file x : List Char} (h : x ∈ recorded s alg file) : ∀ c ∈ x, isBlank c = false := by
  obtain ⟨line, -, rfl⟩ := List.mem_map.1 (List.mem_filter.1 h).1
  exact field_plain 4 line

theorem cksum_recorded (hon : (s.env.disableSize && s.env.noChecksum) = false) (alg file : List Char) :
    cksum s alg file = recorded s alg (s.tools.unescape file) := by
  unfold cksum distinfoData recorded
  rw [if_neg (by simp [hon])]
  cases s.distinfo with
  | none => rfl
  | some text => rfl

theorem cksum_disabled (hoff : (s.env.disableSize && s.env.noChecksum) = true) (alg file : List Char) :
    cksum s alg file = [] := by
  unfold cksum distinfoData
  rw [if_pos hoff, List.filter_nil]

theorem intersperse_flatten (files : List (List Char)) :
    (files.intersperse [' ']).flatten = [] ↔ files = [] ∨ files = [[]] := by
  cases files with
  | nil => simp
  | cons file files =>
    cases files with
    | nil => simp
    | cons next files => simp [List.intersperse]

def holding (names : List Char → Bool) (digest : List Char → List Char → List Char) : Dir :=
  fun name => if names name then some ⟨digest name, 0⟩ else none

@[simp] theorem present_holding (names : List Char → Bool) (digest : List Char → List Char → List Char) :
    present (holding names digest) = names := by
  funext name
  unfold present holding
  split <;> simp_all

def firstRead (s : Setup) (names : List Char → Bool) (file alg : List Char) : List Char :=
  ((cksum s alg file).flatMap (s.tools.pathnames names)).headD [' ']

theorem firstRead_read {names : List Char → Bool} {file alg : List Char} (h : cksum s alg file ≠ []) :
    firstRead s names file alg ∈ (cksum s alg file).flatMap (s.tools.pathnames names) := by
  have hne : (cksum s alg file).flatMap (s.tools.pathnames names) ≠ [] := by
    obtain ⟨word, hword⟩ := List.exists_mem_of_ne_nil _ h
    obtain ⟨x, hx⟩ := List.exists_mem_of_ne_nil _ (s.tools.pathnames_nonempty names word)
    exact List.ne_nil_of_mem (List.mem_flatMap_of_mem hword hx)
  unfold firstRead
  rw [List.headD_eq_head?_getD, List.head?_eq_some_head hne]
  exact List.head_mem hne

theorem holding_passes {text : List Char} (htext : s.distinfo = some text) {names : List Char → Bool}
    {digest : List Char → List Char → List Char} (hnames : ∀ m ∈ s.files, names m)
    (hany : ∀ m ∈ s.files, ∃ alg ∈ s.env.algorithms, cksum s alg m ≠ [])
    (hdigest : ∀ m alg, cksum s alg m ≠ [] → digest m alg ∈ (cksum s alg m).flatMap (s.tools.pathnames names))
    (fetch : Fetch) : ∃ out, checksum s fetch 0 (holding names digest) = ⟨0, holding names digest, 0, out⟩ := by
  refine checksum_passes fetch 0 htext fun m hm => ⟨hany m hm, fun alg _ => ⟨⟨digest m, 0⟩, ?_, ?_⟩⟩
  · simp [holding, hnames m hm]
  · intro hsome
    rw [chksums, present_holding]
    exact hdigest m alg hsome

theorem matches_recorded (hon : (s.env.disableSize && s.env.noChecksum) = false) {dir : Dir} {alg file : List Char}
    (hreads : ReadsOwn s alg file) (hfiles : ∀ m ∈ s.files, present dir m) (h : Matches s dir file alg) :
    ∃ contents, dir file = some contents ∧ contents.digest alg ∈ recorded s alg file := by
  obtain ⟨contents, hdir, hdigest⟩ := h
  rw [cksum_recorded hon] at hdigest
  have hread := hdigest hreads.1
  rw [chksums, cksum_recorded hon] at hread
  obtain ⟨word, hword, hx⟩ := List.mem_flatMap.1 hread
  exact ⟨contents, hdir, hreads.2 (present dir) hfiles word hword _ hx⟩

theorem trusted_sound (h : Trusted s) (fetch : Fetch) (reget : ℤ) (dir : Dir)
    (hcode : (checksum s fetch reget dir).code = 0) : Sound s (checksum s fetch reget dir).dir := by
  unfold Trusted at h
  cases htext : s.distinfo with
  | none =>
    rw [if_pos htext] at h
    unfold checksum at hcode
    simp only [htext] at hcode
    have hempty : s.files = [] := by
      by_contra hne
      rw [if_neg fun he => ((intersperse_flatten s.files).1 he).elim hne h] at hcode
      cases hcode
    intro file hfile
    rw [hempty] at hfile
    cases hfile
  | some text =>
    rw [if_neg (by simp [htext])] at h
    have hpass := checksum_succeeds htext fetch reget dir hcode
    intro file hfile
    cases hon : s.env.disableSize && s.env.noChecksum with
    | true =>
      obtain ⟨alg, -, hsome⟩ := (hpass file hfile).1
      exact absurd (cksum_disabled hon alg file) hsome
    | false =>
      rcases h with hoff | ⟨m, hm, hnothing⟩ | hall
      · rw [hon] at hoff
        cases hoff
      · -- a file under which nothing is read never passes
        obtain ⟨alg, halg, hsome⟩ := (hpass m hm).1
        rw [cksum_recorded hon] at hsome
        exact absurd (hnothing alg halg) hsome
      · have hthere : ∀ m ∈ s.files, present (checksum s fetch reget dir).dir m := by
          intro m hm
          obtain ⟨⟨alg, halg, -⟩, hmatches⟩ := hpass m hm
          obtain ⟨contents, hdir, -⟩ := hmatches alg halg
          simp [present, hdir]
        exact ⟨(hall file hfile).1, fun alg halg hsome =>
          matches_recorded hon ((hall file hfile).2 alg halg hsome) hthere ((hpass file hfile).2 alg halg)⟩

theorem holding_digest {names : List Char → Bool} {digest : List Char → List Char → List Char} {file alg : List Char}
    (h : Sound s (holding names digest)) (hfile : file ∈ s.files) (hname : names file) (halg : alg ∈ s.env.algorithms)
    (hsome : recorded s alg file ≠ []) : digest file alg ∈ recorded s alg file := by
  obtain ⟨contents, hdir, hdigest⟩ := (h file hfile).2 alg halg hsome
  simp only [holding, hname, if_true, Option.some.injEq] at hdir
  subst hdir
  exact hdigest

theorem update_read {names : List Char → Bool} {file alg x : List Char}
    (hx : x ∈ (cksum s alg file).flatMap (s.tools.pathnames names)) (m a : List Char) (h : cksum s a m ≠ []) :
    Function.update (firstRead s names) file (Function.update (firstRead s names file) alg x) m a ∈
      (cksum s a m).flatMap (s.tools.pathnames names) := by
  by_cases hm : m = file
  · subst hm
    rw [Function.update_self]
    by_cases ha : a = alg
    · subst ha
      rwa [Function.update_self]
    · rw [Function.update_of_ne ha]
      exact firstRead_read h
  · rw [Function.update_of_ne hm]
    exact firstRead_read h

section
variable (h : ∀ fetch dir, (checksum s fetch 0 dir).code = 0 → Sound s (checksum s fetch 0 dir).dir)
include h

theorem unrecorded_trusted (htext : s.distinfo = none) : s.files ≠ [[]] := by
  intro hfiles
  have hsound := h (fun _ _ dir => (true, dir)) (fun _ => none) (by simp [checksum, htext, hfiles])
  obtain ⟨alg, -, hsome⟩ := (hsound [] (by simp [hfiles])).1
  exact hsome (by simp [recorded, htext, entries, linesOf])

theorem holding_sound {text : List Char} (htext : s.distinfo = some text) {names : List Char → Bool}
    {digest : List Char → List Char → List Char} (hnames : ∀ m ∈ s.files, names m)
    (hany : ∀ m ∈ s.files, ∃ alg ∈ s.env.algorithms, cksum s alg m ≠ [])
    (hdigest : ∀ m alg, cksum s alg m ≠ [] → digest m alg ∈ (cksum s alg m).flatMap (s.tools.pathnames names)) :
    Sound s (holding names digest) := by
  obtain ⟨out, hrun⟩ := holding_passes htext hnames hany hdigest fun _ _ dir => (true, dir)
  have hsound := h (fun _ _ dir => (true, dir)) (holding names digest)
  rw [hrun] at hsound
  exact hsound rfl

theorem recorded_reads {text : List Char} (htext : s.distinfo = some text)
    (hon : (s.env.disableSize && s.env.noChecksum) = false)
    (hany : ∀ m ∈ s.files, ∃ alg ∈ s.env.algorithms, cksum s alg m ≠ []) {file : List Char} (hfile : file ∈ s.files) :
    (∃ alg ∈ s.env.algorithms, recorded s alg file ≠ []) ∧
      ∀ alg ∈ s.env.algorithms, recorded s alg file ≠ [] → ReadsOwn s alg file := by
  have hlisted : ∀ m ∈ s.files, decide (m ∈ s.files) = true := fun m hm => decide_eq_true hm
  have hfirst := holding_sound h htext hlisted hany fun m alg => firstRead_read
  refine ⟨(hfirst file hfile).1, fun alg halg hsome => ⟨?_, ?_⟩⟩
  · -- where nothing is read, any digest passes
    intro hunread
    rw [← cksum_recorded hon] at hunread
    have hdigest := holding_digest hfirst hfile (hlisted file hfile) halg hsome
    rw [firstRead, hunread, List.flatMap_nil, List.headD_nil] at hdigest
    exact absurd (recorded_plain hdigest ' ' List.mem_cons_self) (by decide)
  · intro names hnames word hword x hx
    rw [← cksum_recorded hon] at hword
    have hsound := holding_sound h htext hnames hany (update_read (List.mem_flatMap_of_mem hword hx))
    have hdigest := holding_digest hsound hfile (hnames file hfile) halg hsome
    rwa [Function.update_self, Function.update_self] at hdigest

theorem sound_trusted : Trusted s := by
  unfold Trusted
  cases htext : s.distinfo with
  | none =>
    rw [if_pos rfl]
    exact unrecorded_trusted h htext
  | some text =>
    rw [if_neg (by simp)]
    by_contra hnot
    simp only [not_or, Bool.not_eq_true] at hnot
    obtain ⟨hon, hnothing, hall⟩ := hnot
    refine hall fun file hfile => recorded_reads h htext hon (fun m hm => ?_) hfile
    by_contra hunread
    refine hnothing ⟨m, hm, fun alg halg => ?_⟩
    rw [← cksum_recorded hon]
    by_contra hsome
    exact hunread ⟨alg, halg, hsome⟩

end

/-- A success is sound, whatever is fetched, exactly where it can be trusted; the nesting is
bounded everywhere. -/
theorem verification_sound_iff (s : Setup) :
    (∀ (fetch : Fetch) (reget : ℤ) (dir : Dir),
      ((checksum s fetch reget dir).code = 0 → Sound s (checksum s fetch reget dir).dir) ∧
        (checksum s fetch reget dir).depth ≤ reget.toNat) ↔ Trusted s :=
  ⟨fun h => sound_trusted fun fetch dir => (h fetch 0 dir).1,
    fun h fetch reget dir => ⟨trusted_sound h fetch reget dir, checksum_depth fetch reget dir⟩⟩

theorem plain_trusted (hdistinfo : s.distinfo ≠ none) (hnames : ∀ file ∈ s.files, '\\' ∉ file)
    (hrecords : ∀ alg, ∀ file ∈ s.files, ∀ x ∈ recorded s alg file, '*' ∉ x ∧ '?' ∉ x ∧ '[' ∉ x) : Trusted s := by
  unfold Trusted
  rw [if_neg hdistinfo]
  by_cases hnothing : ∃ file ∈ s.files, ∀ alg ∈ s.env.algorithms, recorded s alg (s.tools.unescape file) = []
  · exact .inr (.inl hnothing)
  refine .inr (.inr fun file hfile => ?_)
  have hsame : s.tools.unescape file = file := s.tools.unescape_plain file (hnames file hfile)
  constructor
  · by_contra hnone
    refine hnothing ⟨file, hfile, fun alg halg => ?_⟩
    by_contra hsome
    exact hnone ⟨alg, halg, hsame ▸ hsome⟩
  · intro alg _ hsome
    unfold ReadsOwn
    rw [hsame]
    refine ⟨hsome, fun names _ word hword x hx => ?_⟩
    obtain ⟨hstar, hmark, hbracket⟩ := hrecords alg file hfile word hword
    rw [s.tools.pathnames_plain names word hstar hmark hbracket, List.mem_singleton] at hx
    exact hx ▸ hword

def escapedName : Setup where
  tools := simpleTools
  env := ⟨false, false, ["SHA256".toList], sha256_names⟩
  distinfoFile := "distinfo".toList
  distinfo := some "SHA256 (a\\b) = 0\n".toList
  files := ["a\\\\b".toList]

def oneByte : Dir := fun _ => some ⟨fun _ => ['0'], 1⟩

theorem escapedName_passes : ∀ file ∈ escapedName.files, Passes escapedName oneByte file := by
  intro file hfile
  obtain rfl := List.mem_singleton.1 hfile
  refine ⟨⟨"SHA256".toList, List.mem_singleton.2 rfl, by decide⟩, fun alg halg => ⟨_, rfl, fun _ => ?_⟩⟩
  obtain rfl := List.mem_singleton.1 halg
  decide

theorem escaped_unsound : ¬ ∀ (fetch : Fetch) (reget : ℤ) (dir : Dir),
    ((checksum escapedName fetch reget dir).code = 0 → Sound escapedName (checksum escapedName fetch reget dir).dir) ∧
      (checksum escapedName fetch reget dir).depth ≤ reget.toNat := by
  intro h
  obtain ⟨hsound, -⟩ := h (fun _ _ dir => (true, dir)) 0 oneByte
  obtain ⟨out, hrun⟩ := checksum_passes (fun _ _ dir => (true, dir)) 0 rfl escapedName_passes
  rw [hrun] at hsound
  obtain ⟨⟨alg, halg, hsome⟩, -⟩ := hsound rfl _ (List.mem_singleton.2 rfl)
  obtain rfl := List.mem_singleton.1 halg
  exact hsome (by decide)

end Mports.ChecksumScript
