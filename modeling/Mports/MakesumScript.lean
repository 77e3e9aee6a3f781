import Mports.ChecksumSoundness
import Mathlib.Data.List.Nodup

set_option autoImplicit false

namespace Mports.MakesumScript
open ShellText Distinfo

def IsHash (hash : List Char) : Prop := hash ≠ [] ∧ ∀ c ∈ hash, c.isAlphanum

instance (hash : List Char) : Decidable (IsHash hash) := @instDecidableAnd _ _ _ (List.decidableBAll _ hash)

/-- The distfiles of a port, which are in DISTDIR; no file there has a blank in its name. -/
structure Sums where
  tools : Tools
  env : Env
  distinfoFile : List Char
  dir : Dir
  names : List (List Char)
  names_nonempty : names ≠ []
  names_nodup : names.Nodup
  names_words : ∀ name ∈ names, name ≠ [] ∧ present dir name
  dir_words : ∀ name, present dir name → ∀ c ∈ name, isBlank c = false
  algorithms_nonempty : env.algorithms ≠ []
  hashes : ∀ name file, dir name = some file → ∀ alg ∈ env.algorithms, IsHash (file.digest alg)

/-- A line `ALG (file) = value`. -/
def sumLine (alg file value : List Char) : List Char :=
  alg ++ ' ' :: (('(' :: (file ++ [')'])) ++ ' ' :: (['='] ++ ' ' :: value))

def isTimestamp (line : List Char) : Bool := "TIMESTAMP ".toList.isPrefixOf line

def timestampLine (now : ℕ) : List Char := "TIMESTAMP = ".toList ++ (toString now).toList

def sizeName : List Char := "SIZE".toList

section Script
variable (s : Sums)

/-- The words of `${dp_CKSUMFILES}`, in DISTDIR. -/
def words : List (List Char) := s.names.flatMap (s.tools.pathnames (present s.dir))

def digestOf (file alg : List Char) : List Char := ((s.dir file).map (·.digest alg)).getD []

def fileLines (file : List Char) : List (List Char) :=
  (s.env.algorithms.map fun alg => sumLine alg file (digestOf s file alg)) ++
    [sumLine sizeName file (s.tools.stat file s.dir)]

/-- `DISTINFO_NEW`. -/
def newLines : List (List Char) := (words s).flatMap (fileLines s)

/-- `DISTINFO_OLD`. -/
def oldLines (distinfo : Option (List Char)) : List (List Char) :=
  match distinfo with
  | none => []
  | some text =>
    if (linesOf text).any isTimestamp then (linesOf text).filter fun line => !isTimestamp line else []

def makesum (now : ℕ) (distinfo : Option (List Char)) : List Char :=
  if ofLines (oldLines distinfo) = [] ∨ ofLines (oldLines distinfo) ≠ ofLines (newLines s) then
    ofLines (timestampLine now :: newLines s)
  else distinfo.getD []

def checking (text : List Char) : ChecksumScript.Setup := ⟨s.tools, s.env, s.distinfoFile, some text, s.names⟩

/-- All files pass without a fetch, their sizes are read, and nothing changes later. -/
def Agrees : Prop :=
  ∀ (distinfo : Option (List Char)) (now : ℕ),
    (∀ (fetch : ChecksumScript.Fetch) (reget : ℤ),
      (ChecksumScript.checksum (checking s (makesum s now distinfo)) fetch reget s.dir).code = 0 ∧
        (ChecksumScript.checksum (checking s (makesum s now distinfo)) fetch reget s.dir).depth = 0) ∧
    (∀ name ∈ s.names, ∀ file, s.dir name = some file →
      distinfoData s.tools s.env (some (makesum s now distinfo)) sizeName name = [(toString file.size).toList]) ∧
    ∀ later, now ≤ later → makesum s later (some (makesum s now distinfo)) = makesum s now distinfo

/-- The names, as awk reads them, are among the words once, with the sums of the names. -/
structure Faithful : Prop where
  enabled : (s.env.disableSize && s.env.noChecksum) = false
  no_size : sizeName ∉ s.env.algorithms
  no_timestamp : "TIMESTAMP".toList ∉ s.env.algorithms
  once : ∀ name ∈ s.names, (words s).count (s.tools.unescape name) = 1
  digest : ∀ name ∈ s.names, ∀ alg ∈ s.env.algorithms, digestOf s (s.tools.unescape name) alg = digestOf s name alg
  size : ∀ name ∈ s.names, ∀ file, s.dir name = some file →
    s.tools.stat (s.tools.unescape name) s.dir = (toString file.size).toList

end Script

section Lines

theorem fields_sumLine {alg file value : List Char} (halg : ∀ c ∈ alg, isBlank c = false) (hne : alg ≠ [])
    (hfile : ∀ c ∈ file, isBlank c = false) :
    fields (sumLine alg file value) = alg :: ('(' :: (file ++ [')'])) :: ['='] :: fields value := by
  have hparen : ∀ c ∈ '(' :: (file ++ [')']), isBlank c = false := by
    intro c hc
    rcases List.mem_cons.1 hc with rfl | hc
    · rfl
    · rcases List.mem_append.1 hc with hc | hc
      · exact hfile c hc
      · rw [List.mem_singleton.1 hc]
        rfl
  rw [sumLine, fields_word halg hne rfl, fields_word hparen (List.cons_ne_nil _ _) rfl,
    fields_word (List.forall_iff_forall_mem.1 (by decide)) (by decide) rfl]

theorem field_value {alg file value : List Char} (halg : ∀ c ∈ alg, isBlank c = false) (hne : alg ≠ [])
    (hfile : ∀ c ∈ file, isBlank c = false) (hvalue : ∀ c ∈ value, isBlank c = false) :
    field 4 (sumLine alg file value) = value := by
  rw [field, fields_sumLine halg hne hfile]
  by_cases hnil : value = []
  · rw [hnil]
    rfl
  · rw [fields_last hvalue hnil]
    rfl

theorem tagged_iff {alg alg' file file' value : List Char} (halg : ∀ c ∈ alg', isBlank c = false) (hne : alg' ≠ [])
    (hfile : ∀ c ∈ file', isBlank c = false) : Tagged alg file (sumLine alg' file' value) ↔ alg' = alg ∧ file' = file := by
  rw [Tagged, field, field, fields_sumLine halg hne hfile]
  simp

theorem timestamp_word : (∀ c ∈ "TIMESTAMP".toList, isBlank c = false) ∧ "TIMESTAMP".toList ≠ [] :=
  ⟨List.forall_iff_forall_mem.1 (by decide), by decide⟩

theorem isTimestamp_iff (line : List Char) : isTimestamp line = true ↔ ∃ rest, line = "TIMESTAMP".toList ++ ' ' :: rest := by
  rw [isTimestamp, List.isPrefixOf_iff_prefix]
  constructor
  · rintro ⟨rest, rfl⟩
    exact ⟨rest, rfl⟩
  · rintro ⟨rest, rfl⟩
    exact ⟨rest, rfl⟩

theorem isTimestamp_sumLine {alg : List Char} (halg : ∀ c ∈ alg, isBlank c = false) (file value : List Char) :
    isTimestamp (sumLine alg file value) = true ↔ alg = "TIMESTAMP".toList := by
  have hstop : ∀ (word rest : List Char), (∀ c ∈ word, isBlank c = false) →
      (word ++ ' ' :: rest).takeWhile (!isBlank ·) = word := by
    intro word rest hword
    refine takeWhile_stop (fun c hc => by simp [hword c hc]) ?_
    simp [isBlank]
  rw [isTimestamp_iff, sumLine]
  constructor
  · rintro ⟨rest, hrest⟩
    rw [← hstop alg _ halg, hrest, hstop _ _ timestamp_word.1]
  · rintro rfl
    exact ⟨_, rfl⟩

theorem timestamp_untagged {alg file line : List Char} (halg : alg ≠ "TIMESTAMP".toList) (h : isTimestamp line = true) :
    ¬ Tagged alg file line := by
  obtain ⟨rest, rfl⟩ := (isTimestamp_iff line).1 h
  rintro ⟨hfield, -⟩
  rw [field, fields_word timestamp_word.1 timestamp_word.2 rfl] at hfield
  exact halg hfield.symm

theorem timestampLine_isTimestamp (now : ℕ) : isTimestamp (timestampLine now) = true :=
  (isTimestamp_iff _).2 ⟨'=' :: ' ' :: (toString now).toList, rfl⟩

theorem entries_untimed {alg : List Char} (halg : alg ≠ "TIMESTAMP".toList) (text file : List Char) :
    entries text alg file =
      (((linesOf text).filter fun line => !isTimestamp line).filter (Tagged alg file ·)).map (field 4) := by
  rw [entries, List.filter_filter]
  congr 1
  refine List.filter_congr fun line _ => ?_
  cases htime : isTimestamp line with
  | true => simp [timestamp_untagged halg htime]
  | false => simp

theorem ofLines_eq_nil_iff (lines : List (List Char)) : ofLines lines = [] ↔ lines = [] := by
  cases lines <;> simp [ofLines]

end Lines

section Sums
variable {s : Sums}

theorem alphanum_not_blank {c : Char} (h : c.isAlphanum ∨ c = '_') : isBlank c = false := by
  rw [Bool.eq_false_iff]
  intro hblank
  simp only [isBlank, Bool.or_eq_true, decide_eq_true_eq] at hblank
  rcases hblank with (rfl | rfl) | rfl <;> revert h <;> decide

theorem algorithm_word {alg : List Char} (h : IsAlgorithm alg) : (∀ c ∈ alg, isBlank c = false) ∧ alg ≠ [] :=
  ⟨fun c hc => alphanum_not_blank (h.2.1 c hc), h.1⟩

theorem hash_word {hash : List Char} (h : IsHash hash) : ∀ c ∈ hash, isBlank c = false :=
  fun c hc => alphanum_not_blank (.inl (h.2 c hc))

theorem hash_pathnames (tools : Tools) (names : List Char → Bool) {hash : List Char} (h : IsHash hash) :
    tools.pathnames names hash = [hash] := by
  refine tools.pathnames_plain names hash (fun hc => ?_) (fun hc => ?_) fun hc => ?_
  · exact absurd (h.2 _ hc) (by decide)
  · exact absurd (h.2 _ hc) (by decide)
  · exact absurd (h.2 _ hc) (by decide)

theorem words_present {word : List Char} (h : word ∈ words s) : present s.dir word := by
  obtain ⟨name, hname, hword⟩ := List.mem_flatMap.1 h
  rcases s.tools.pathnames_present _ _ _ hword with hpresent | rfl
  · exact hpresent
  · exact (s.names_words _ hname).2

theorem words_plain {word : List Char} (h : word ∈ words s) : ∀ c ∈ word, isBlank c = false :=
  s.dir_words word (words_present h)

theorem words_nonempty (s : Sums) : words s ≠ [] := by
  obtain ⟨name, hname⟩ := List.exists_mem_of_ne_nil _ s.names_nonempty
  obtain ⟨word, hword⟩ := List.exists_mem_of_ne_nil _ (s.tools.pathnames_nonempty (present s.dir) name)
  exact List.ne_nil_of_mem (List.mem_flatMap_of_mem hname hword)

theorem digestOf_hash {file alg : List Char} (hfile : present s.dir file) (halg : alg ∈ s.env.algorithms) :
    IsHash (digestOf s file alg) := by
  obtain ⟨contents, hdir⟩ := Option.isSome_iff_exists.1 hfile
  rw [digestOf, hdir]
  exact s.hashes file contents hdir alg halg

theorem size_word (s : Sums) (file : List Char) : ∀ c ∈ s.tools.stat file s.dir, isBlank c = false := by
  intro c hc
  have hdigit := s.tools.stat_digits file s.dir c hc
  exact alphanum_not_blank (.inl (by simp [Char.isAlphanum, hdigit]))

theorem sizeName_word : (∀ c ∈ sizeName, isBlank c = false) ∧ sizeName ≠ [] :=
  ⟨List.forall_iff_forall_mem.1 (by decide), by decide⟩

theorem mem_newLines {line : List Char} (h : line ∈ newLines s) :
    ∃ alg file value, line = sumLine alg file value ∧ (∀ c ∈ alg, isBlank c = false) ∧ alg ≠ [] ∧
      (alg ∈ s.env.algorithms ∨ alg = sizeName) ∧ (∀ c ∈ file, isBlank c = false) ∧ ∀ c ∈ value, isBlank c = false := by
  obtain ⟨file, hfile, hline⟩ := List.mem_flatMap.1 h
  rcases List.mem_append.1 hline with hline | hline
  · obtain ⟨alg, halg, rfl⟩ := List.mem_map.1 hline
    obtain ⟨hword, hne⟩ := algorithm_word (s.env.algorithms_names alg halg)
    exact ⟨alg, file, _, rfl, hword, hne, .inl halg, words_plain hfile, hash_word (digestOf_hash (words_present hfile) halg)⟩
  · rw [List.mem_singleton.1 hline]
    exact ⟨sizeName, file, _, rfl, sizeName_word.1, sizeName_word.2, .inr rfl, words_plain hfile, size_word s file⟩

theorem newLines_nonempty (s : Sums) : newLines s ≠ [] := by
  obtain ⟨word, hword⟩ := List.exists_mem_of_ne_nil _ (words_nonempty s)
  exact List.ne_nil_of_mem (List.mem_flatMap_of_mem hword (List.mem_append_right _ (List.mem_singleton_self _)))

theorem newLines_plain (s : Sums) : ∀ line ∈ newLines s, '\n' ∉ line := by
  intro line hline hmem
  obtain ⟨alg, file, value, rfl, halg, -, -, hfile, hvalue⟩ := mem_newLines hline
  have hnewline : isBlank '\n' ≠ false := by decide
  simp only [sumLine, List.mem_append, List.mem_cons, List.not_mem_nil, or_false] at hmem
  rcases hmem with h | h | (h | h | h) | h | h | h | h
  · exact hnewline (halg _ h)
  · exact absurd h (by decide)
  · exact absurd h (by decide)
  · exact hnewline (hfile _ h)
  · exact absurd h (by decide)
  · exact absurd h (by decide)
  · exact absurd h (by decide)
  · exact absurd h (by decide)
  · exact hnewline (hvalue _ h)

theorem newLines_untimed (h : "TIMESTAMP".toList ∉ s.env.algorithms) :
    (newLines s).filter (fun line => !isTimestamp line) = newLines s := by
  rw [List.filter_eq_self]
  intro line hline
  obtain ⟨alg, file, value, rfl, halg, -, hname, -, -⟩ := mem_newLines hline
  cases htime : isTimestamp (sumLine alg file value) with
  | false => rfl
  | true =>
    rw [isTimestamp_sumLine halg] at htime
    rcases hname with hname | hname
    · exact absurd (htime ▸ hname) h
    · exact absurd (htime.symm.trans hname) (by decide)

theorem timestampLine_plain (now : ℕ) : '\n' ∉ timestampLine now := by
  intro hmem
  rcases List.mem_append.1 hmem with hmem | hmem
  · exact absurd hmem (by decide)
  · exact absurd (PerlText.toString_isDigit now _ hmem) (by decide)

theorem linesOf_fresh (s : Sums) (now : ℕ) :
    linesOf (ofLines (timestampLine now :: newLines s)) = timestampLine now :: newLines s :=
  linesOf_ofLines (List.forall_mem_cons.2 ⟨timestampLine_plain now, newLines_plain s⟩)

theorem oldLines_fresh (s : Sums) (now : ℕ) :
    oldLines (some (ofLines (timestampLine now :: newLines s))) = (newLines s).filter fun line => !isTimestamp line := by
  rw [oldLines, linesOf_fresh, if_pos (by simp [timestampLine_isTimestamp]),
    List.filter_cons_of_neg (by simp [timestampLine_isTimestamp])]

theorem oldLines_plain (distinfo : Option (List Char)) : ∀ line ∈ oldLines distinfo, '\n' ∉ line := by
  intro line hline
  unfold oldLines at hline
  split at hline
  · cases hline
  · split_ifs at hline
    · exact linesOf_plain (List.mem_filter.1 hline).1
    · cases hline

theorem oldLines_makesum (h : "TIMESTAMP".toList ∉ s.env.algorithms) (now : ℕ) (distinfo : Option (List Char)) :
    oldLines (some (makesum s now distinfo)) = newLines s := by
  unfold makesum
  split_ifs with hfresh
  · rw [oldLines_fresh, newLines_untimed h]
  · rw [not_or, not_not] at hfresh
    have hsame : oldLines distinfo = newLines s := by
      rw [← linesOf_ofLines (oldLines_plain distinfo), hfresh.2, linesOf_ofLines (newLines_plain s)]
    cases distinfo with
    | none => exact absurd rfl hfresh.1
    | some text => exact hsame

theorem makesum_again (h : "TIMESTAMP".toList ∉ s.env.algorithms) (now later : ℕ) (distinfo : Option (List Char)) :
    makesum s later (some (makesum s now distinfo)) = makesum s now distinfo := by
  have hold := oldLines_makesum h now distinfo
  have hne : ofLines (newLines s) ≠ [] := by
    rw [Ne, ofLines_eq_nil_iff]
    exact newLines_nonempty s
  rw [makesum, hold, if_neg (by simp [hne])]
  rfl

theorem linesOf_makesum (h : "TIMESTAMP".toList ∉ s.env.algorithms) (now : ℕ) (distinfo : Option (List Char)) :
    (linesOf (makesum s now distinfo)).filter (fun line => !isTimestamp line) = newLines s := by
  have hold := oldLines_makesum h now distinfo
  rw [oldLines] at hold
  split_ifs at hold
  · exact hold
  · exact absurd hold.symm (newLines_nonempty s)

def sums (s : Sums) (alg file : List Char) : List (List Char) :=
  List.replicate (s.env.algorithms.count alg) (digestOf s file alg) ++
    if sizeName = alg then [s.tools.stat file s.dir] else []

theorem algorithmLines_entries {word : List Char} (hword : word ∈ words s) (alg file : List Char)
    (algs : List (List Char)) (hsub : algs ⊆ s.env.algorithms) :
    ((algs.map fun a => sumLine a word (digestOf s word a)).filter (Tagged alg file ·)).map (field 4) =
      if word = file then List.replicate (algs.count alg) (digestOf s file alg) else [] := by
  induction algs with
  | nil => simp
  | cons a algs ih =>
    have hmem := hsub List.mem_cons_self
    obtain ⟨halg, hne⟩ := algorithm_word (s.env.algorithms_names a hmem)
    have htagged : Tagged alg file (sumLine a word (digestOf s word a)) ↔ a = alg ∧ word = file :=
      tagged_iff halg hne (words_plain hword)
    have hvalue := field_value halg hne (words_plain hword) (hash_word (digestOf_hash (words_present hword) hmem))
    have hrest := ih fun x hx => hsub (List.mem_cons_of_mem _ hx)
    rw [List.map_cons]
    by_cases htag : a = alg ∧ word = file
    · obtain ⟨rfl, rfl⟩ := htag
      rw [List.filter_cons_of_pos (by simp [htagged]), List.map_cons, hvalue, hrest, if_pos rfl, if_pos rfl,
        List.count_cons_self, List.replicate_succ]
    · rw [List.filter_cons_of_neg (by simpa [htagged] using htag), hrest]
      by_cases hfile : word = file
      · rw [if_pos hfile, if_pos hfile, List.count_cons_of_ne fun h => htag ⟨h, hfile⟩]
      · rw [if_neg hfile, if_neg hfile]

theorem fileLines_entries {word : List Char} (hword : word ∈ words s) (alg file : List Char) :
    ((fileLines s word).filter (Tagged alg file ·)).map (field 4) = if word = file then sums s alg file else [] := by
  have htagged : Tagged alg file (sumLine sizeName word (s.tools.stat word s.dir)) ↔ sizeName = alg ∧ word = file :=
    tagged_iff sizeName_word.1 sizeName_word.2 (words_plain hword)
  have hvalue := field_value sizeName_word.1 sizeName_word.2 (words_plain hword) (size_word s word)
  rw [fileLines, List.filter_append, List.map_append, algorithmLines_entries hword alg file _ (List.Subset.refl _), sums]
  by_cases hfile : word = file
  · subst hfile
    by_cases hsize : sizeName = alg
    · have htag : decide (Tagged alg word (sumLine sizeName word (s.tools.stat word s.dir))) = true :=
        decide_eq_true (htagged.2 ⟨hsize, rfl⟩)
      rw [List.filter_cons_of_pos (by exact htag), List.filter_nil, List.map_singleton, hvalue, if_pos rfl,
        if_pos rfl, if_pos hsize]
    · rw [List.filter_cons_of_neg (by simp [htagged, hsize]), List.filter_nil, List.map_nil, if_pos rfl, if_pos rfl,
        if_neg hsize]
  · rw [List.filter_cons_of_neg (by simp [htagged, hfile]), List.filter_nil, List.map_nil, if_neg hfile, if_neg hfile,
      List.append_nil]

theorem flatMap_count {α β : Type} [DecidableEq α] [BEq α] [LawfulBEq α] (xs : List α) (a : α) (ys : List β) :
    (xs.flatMap fun x => if x = a then ys else []) = (List.replicate (xs.count a) ys).flatten := by
  induction xs with
  | nil => rfl
  | cons x xs ih =>
    rw [List.flatMap_cons, ih]
    by_cases hx : x = a
    · rw [if_pos hx, hx, List.count_cons_self, List.replicate_succ, List.flatten_cons]
    · rw [if_neg hx, List.nil_append, List.count_cons_of_ne hx]

theorem entries_makesum (h : "TIMESTAMP".toList ∉ s.env.algorithms) {alg : List Char} (halg : alg ≠ "TIMESTAMP".toList)
    (now : ℕ) (distinfo : Option (List Char)) (file : List Char) :
    entries (makesum s now distinfo) alg file = (List.replicate ((words s).count file) (sums s alg file)).flatten := by
  have hcount := flatMap_count (words s) file (sums s alg file)
  rw [entries_untimed halg, linesOf_makesum h, newLines, List.filter_flatMap, List.map_flatMap, ← hcount]
  exact List.flatMap_congr fun word hword => fileLines_entries hword alg file

theorem distinfoData_makesum (hon : (s.env.disableSize && s.env.noChecksum) = false)
    (h : "TIMESTAMP".toList ∉ s.env.algorithms) {alg : List Char} (halg : alg ≠ "TIMESTAMP".toList)
    (now : ℕ) (distinfo : Option (List Char)) (file : List Char) :
    distinfoData s.tools s.env (some (makesum s now distinfo)) alg file =
      (List.replicate ((words s).count (s.tools.unescape file)) (sums s alg (s.tools.unescape file))).flatten := by
  rw [distinfoData, if_neg (by simp [hon])]
  exact entries_makesum h halg now distinfo _

theorem algorithm_ne_timestamp (h : "TIMESTAMP".toList ∉ s.env.algorithms) {alg : List Char} (halg : alg ∈ s.env.algorithms) :
    alg ≠ "TIMESTAMP".toList := by
  rintro rfl
  exact h halg

theorem sums_algorithm (hsize : sizeName ∉ s.env.algorithms) {alg : List Char} (halg : alg ∈ s.env.algorithms)
    (file : List Char) : sums s alg file = List.replicate (s.env.algorithms.count alg) (digestOf s file alg) := by
  have hne : sizeName ≠ alg := fun heq => hsize (heq ▸ halg)
  rw [sums, if_neg hne, List.append_nil]

theorem sums_size (hsize : sizeName ∉ s.env.algorithms) (file : List Char) :
    sums s sizeName file = [s.tools.stat file s.dir] := by
  rw [sums, if_pos rfl, List.count_eq_zero_of_not_mem hsize]
  rfl

theorem words_of_once {name : List Char} (h : (words s).count name = 1) : name ∈ words s :=
  List.count_pos_iff.1 (h ▸ Nat.one_pos)

theorem cksum_makesum (hon : (s.env.disableSize && s.env.noChecksum) = false)
    (htime : "TIMESTAMP".toList ∉ s.env.algorithms) (hsize : sizeName ∉ s.env.algorithms)
    (now : ℕ) (distinfo : Option (List Char)) {name alg : List Char}
    (honce : (words s).count (s.tools.unescape name) = 1) (halg : alg ∈ s.env.algorithms) :
    ChecksumScript.cksum (checking s (makesum s now distinfo)) alg name =
      List.replicate (s.env.algorithms.count alg) (digestOf s (s.tools.unescape name) alg) := by
  have hhash := digestOf_hash (words_present (words_of_once honce)) halg
  unfold ChecksumScript.cksum
  change (distinfoData s.tools s.env (some (makesum s now distinfo)) alg name).filter _ = _
  rw [distinfoData_makesum hon htime (algorithm_ne_timestamp htime halg), honce, List.replicate_one,
    List.flatten_singleton, sums_algorithm hsize halg, List.filter_replicate_of_pos (by simpa using hhash.1)]

theorem cksum_faithful (h : Faithful s) (now : ℕ) (distinfo : Option (List Char)) {name alg : List Char}
    (hname : name ∈ s.names) (halg : alg ∈ s.env.algorithms) :
    ChecksumScript.cksum (checking s (makesum s now distinfo)) alg name =
      List.replicate (s.env.algorithms.count alg) (digestOf s name alg) := by
  rw [cksum_makesum h.enabled h.no_timestamp h.no_size now distinfo (h.once name hname) halg,
    h.digest name hname alg halg]

theorem passes_faithful (h : Faithful s) (now : ℕ) (distinfo : Option (List Char)) {name : List Char} (hname : name ∈ s.names) :
    ChecksumScript.Passes (checking s (makesum s now distinfo)) s.dir name := by
  have hread := fun alg (halg : alg ∈ s.env.algorithms) => cksum_faithful h now distinfo hname halg
  have hcount := fun alg (halg : alg ∈ s.env.algorithms) => (List.count_pos_iff.2 halg).ne'
  obtain ⟨contents, hdir⟩ := Option.isSome_iff_exists.1 (s.names_words name hname).2
  refine ⟨?_, fun alg halg => ⟨contents, hdir, fun _ => ?_⟩⟩
  · obtain ⟨alg, halg⟩ := List.exists_mem_of_ne_nil _ s.algorithms_nonempty
    refine ⟨alg, halg, ?_⟩
    rw [hread alg halg, Ne, List.replicate_eq_nil_iff]
    exact hcount alg halg
  · have hdigest : digestOf s name alg = contents.digest alg := by
      rw [digestOf, hdir]
      rfl
    have hhash := s.hashes name contents hdir alg halg
    rw [ChecksumScript.chksums, hread alg halg, hdigest]
    refine List.mem_flatMap_of_mem (List.mem_replicate.2 ⟨hcount alg halg, rfl⟩) ?_
    change _ ∈ s.tools.pathnames _ _
    rw [hash_pathnames _ _ hhash]
    exact List.mem_singleton_self _

theorem faithful_agrees (h : Faithful s) : Agrees s := by
  intro distinfo now
  refine ⟨?_, ?_, ?_⟩
  · intro fetch reget
    obtain ⟨out, hrun⟩ := ChecksumScript.checksum_passes fetch reget rfl
      (fun name hname => passes_faithful h now distinfo hname)
    rw [hrun]
    exact ⟨rfl, rfl⟩
  · intro name hname file hfile
    rw [distinfoData_makesum h.enabled h.no_timestamp (by decide), h.once name hname, sums_size h.no_size,
      h.size name hname file hfile]
    rfl
  · intro later _
    exact makesum_again h.no_timestamp now later distinfo

theorem passes_of_success (setup : ChecksumScript.Setup) {text : List Char} (htext : setup.distinfo = some text)
    (fetch : ChecksumScript.Fetch) (dir : Dir) (h : (ChecksumScript.checksum setup fetch 0 dir).code = 0) :
    ∀ file ∈ setup.files, ChecksumScript.Passes setup dir file := by
  rw [ChecksumScript.checksum, htext] at h
  dsimp only at h
  cases hfiles : ChecksumScript.checkFiles setup 0 dir with
  | error st =>
    rw [hfiles] at h
    cases h
  | ok st =>
    rw [hfiles] at h
    dsimp only at h
    rw [dif_neg (by simp)] at h
    split_ifs at h with hok
    · exact ((ChecksumScript.checkFiles_unset 0 dir st).1 ⟨hfiles, hok⟩).1

theorem agrees_passes (h : Agrees s) (now : ℕ) (distinfo : Option (List Char)) :
    ∀ name ∈ s.names, ChecksumScript.Passes (checking s (makesum s now distinfo)) s.dir name :=
  passes_of_success (checking s (makesum s now distinfo)) rfl (fun _ _ dir => (true, dir)) s.dir
    ((h distinfo now).1 _ 0).1

theorem agrees_enabled (h : Agrees s) : (s.env.disableSize && s.env.noChecksum) = false := by
  rw [Bool.eq_false_iff]
  intro hoff
  obtain ⟨name, hname⟩ := List.exists_mem_of_ne_nil _ s.names_nonempty
  obtain ⟨alg, -, hsome⟩ := (agrees_passes h 0 none name hname).1
  exact hsome (ChecksumScript.cksum_disabled hoff alg name)

/-- Sums under this name are taken for timestamps, and so the file is always a new one. -/
theorem agrees_no_timestamp (h : Agrees s) : "TIMESTAMP".toList ∉ s.env.algorithms := by
  intro hmem
  have hagain := (h none 0).2.2 1 (Nat.zero_le 1)
  have hfresh : ∀ now, makesum s now none = ofLines (timestampLine now :: newLines s) := fun now => if_pos (.inl rfl)
  have hchanged : ofLines (oldLines (some (makesum s 0 none))) ≠ ofLines (newLines s) := by
    rw [hfresh, oldLines_fresh]
    intro heq
    have hsame := congrArg linesOf heq
    rw [linesOf_ofLines (newLines_plain s),
      linesOf_ofLines fun line hline => newLines_plain s line (List.mem_filter.1 hline).1] at hsame
    obtain ⟨word, hword⟩ := List.exists_mem_of_ne_nil _ (words_nonempty s)
    have hline : sumLine "TIMESTAMP".toList word (digestOf s word "TIMESTAMP".toList) ∈ newLines s :=
      List.mem_flatMap_of_mem hword (List.mem_append_left _ (List.mem_map_of_mem hmem))
    have htime := (isTimestamp_sumLine timestamp_word.1 word (digestOf s word "TIMESTAMP".toList)).2 rfl
    have hkept := (List.filter_eq_self.1 hsame) _ hline
    rw [htime] at hkept
    cases hkept
  have hrun : makesum s 1 (some (makesum s 0 none)) = ofLines (timestampLine 1 :: newLines s) := if_pos (.inr hchanged)
  have hlines : timestampLine 1 :: newLines s = timestampLine 0 :: newLines s := by
    rw [← linesOf_fresh s 1, ← linesOf_fresh s 0, ← hrun, hagain, hfresh 0]
  exact absurd (List.cons.inj hlines).1 (by decide)

theorem copies_singleton {α : Type} {n m : ℕ} {x y z : α}
    (h : (List.replicate n (List.replicate m x ++ [y])).flatten = [z]) : n = 1 ∧ m = 0 ∧ y = z := by
  have hlength := congrArg List.length h
  simp only [List.length_flatten, List.map_replicate, List.length_append, List.length_replicate, List.length_singleton,
    List.sum_replicate_nat] at hlength
  obtain rfl : n = 1 := Nat.dvd_one.1 ⟨_, hlength.symm⟩
  obtain rfl : m = 0 := by omega
  simpa using h

theorem agrees_size (h : Agrees s) {name : List Char} (hname : name ∈ s.names) {file : File} (hfile : s.dir name = some file) :
    (words s).count (s.tools.unescape name) = 1 ∧ s.env.algorithms.count sizeName = 0 ∧
      s.tools.stat (s.tools.unescape name) s.dir = (toString file.size).toList := by
  have hsize := (h none 0).2.1 name hname file hfile
  rw [distinfoData_makesum (agrees_enabled h) (agrees_no_timestamp h) (by decide), sums, if_pos rfl] at hsize
  exact copies_singleton hsize

theorem agrees_faithful (h : Agrees s) : Faithful s := by
  have hfile := fun name hname => Option.isSome_iff_exists.1 (s.names_words name hname).2
  have hno_size : sizeName ∉ s.env.algorithms := by
    obtain ⟨name, hname⟩ := List.exists_mem_of_ne_nil _ s.names_nonempty
    obtain ⟨file, hdir⟩ := hfile name hname
    exact List.count_eq_zero.1 (agrees_size h hname hdir).2.1
  have honce : ∀ name ∈ s.names, (words s).count (s.tools.unescape name) = 1 := by
    intro name hname
    obtain ⟨file, hdir⟩ := hfile name hname
    exact (agrees_size h hname hdir).1
  refine ⟨agrees_enabled h, hno_size, agrees_no_timestamp h, honce, ?_, fun name hname file hdir => (agrees_size h hname hdir).2.2⟩
  intro name hname alg halg
  have hhash := digestOf_hash (words_present (words_of_once (honce name hname))) halg
  have hread := cksum_makesum (agrees_enabled h) (agrees_no_timestamp h) hno_size 0 none (honce name hname) halg
  obtain ⟨contents, hdir, hmatch⟩ := (agrees_passes h 0 none name hname).2 alg halg
  have hdigest := hmatch (by
    rw [hread, Ne, List.replicate_eq_nil_iff]
    exact (List.count_pos_iff.2 halg).ne')
  rw [ChecksumScript.chksums, hread] at hdigest
  obtain ⟨hash, hmem, hpath⟩ := List.mem_flatMap.1 hdigest
  rw [(List.mem_replicate.1 hmem).2] at hpath
  change _ ∈ s.tools.pathnames _ _ at hpath
  rw [hash_pathnames _ _ hhash, List.mem_singleton] at hpath
  have hown : digestOf s name alg = contents.digest alg := by
    rw [digestOf, hdir]
    rfl
  rw [hown, hpath]

/-- Whatever the distinfo file was, and whenever the second run is. -/
theorem makesum_agrees_iff (s : Sums) : Agrees s ↔ Faithful s := ⟨agrees_faithful, faithful_agrees⟩

theorem plain_faithful (hon : (s.env.disableSize && s.env.noChecksum) = false) (hsize : sizeName ∉ s.env.algorithms)
    (htime : "TIMESTAMP".toList ∉ s.env.algorithms)
    (hplain : ∀ name ∈ s.names, '\\' ∉ name ∧ '*' ∉ name ∧ '?' ∉ name ∧ '[' ∉ name ∧ name.head? ≠ some '-') :
    Faithful s := by
  have hunescape : ∀ name ∈ s.names, s.tools.unescape name = name :=
    fun name hname => s.tools.unescape_plain name (hplain name hname).1
  have hwords : words s = s.names := by
    have hsingle : words s = s.names.flatMap fun name => [name] := by
      refine List.flatMap_congr fun name hname => ?_
      obtain ⟨-, hstar, hmark, hbracket, -⟩ := hplain name hname
      exact s.tools.pathnames_plain _ name hstar hmark hbracket
    rw [hsingle, List.flatMap_singleton']
  exact {
    enabled := hon
    no_size := hsize
    no_timestamp := htime
    once := fun name hname => by rw [hunescape name hname, hwords, List.count_eq_one_of_mem s.names_nodup hname]
    digest := fun name hname alg _ => by rw [hunescape name hname]
    size := fun name hname file hfile => by
      rw [hunescape name hname]
      exact s.tools.stat_plain name s.dir file (hplain name hname).2.2.2.2 hfile }

end Sums

/-- A file called `a\tb`, with a backslash. -/
def escaped : Sums where
  tools := simpleTools
  env := ⟨false, false, ["SHA256".toList], sha256_names⟩
  distinfoFile := "distinfo".toList
  dir name := if name = ['a', '\\', 't', 'b'] then some ⟨fun _ => ['0'], 3⟩ else none
  names := [['a', '\\', 't', 'b']]
  names_nonempty := List.cons_ne_nil _ _
  names_nodup := List.nodup_singleton _
  names_words := by decide
  dir_words := by
    intro name hname
    have heq : name = ['a', '\\', 't', 'b'] := by
      by_contra hne
      simp [present, hne] at hname
    rw [heq]
    exact List.forall_iff_forall_mem.1 (by decide)
  algorithms_nonempty := List.cons_ne_nil _ _
  hashes := by
    intro name file hfile alg _
    split_ifs at hfile
    cases hfile
    change IsHash ['0']
    decide

theorem escaped_disagrees : ¬ Agrees escaped := by
  intro h
  have honce := (agrees_faithful h).once ['a', '\\', 't', 'b'] List.mem_cons_self
  revert honce
  decide

end Mports.MakesumScript
