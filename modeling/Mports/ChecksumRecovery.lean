import Mports.ChecksumRetries

set_option autoImplicit false

namespace Mports.ChecksumRetries
open ShellText Distinfo FailingRuns FetchScript ChecksumScript

/-- What comes with the recorded size is the file, and for every file there is a site that has it. -/
structure Reliable (s : FetchScript.Setup) (files : List (List Char)) (good : List Char → File) (net : Network) : Prop where
  honest : ∀ before a dir contents, (net.fetch before a dir).1 = true → (net.fetch before a dir).2 a.file = some contents →
    Fits s (net.fetch before a dir).2 a.file → contents = good a.file
  somewhere : ∀ arg ∈ files, ∃ site ∈ sitesOf s arg, ∀ before a dir, a.request = (fileOf arg, site) →
    (net.fetch before a dir).1 = true ∧ (net.fetch before a dir).2 (fileOf arg) = some (good (fileOf arg))

def SizeOf (s : FetchScript.Setup) (file : List Char) (contents : File) : Prop :=
  s.env.disableSize = true ∨ ckSize s file = [] ∨
    (∀ c ∈ ckSize s file, c.isDigit) ∧ contents.size = Nat.ofDigitChars 10 (ckSize s file) 0 ∧ contents.size < 2 ^ 63

structure Ready (s : FetchScript.Setup) (files : List (List Char)) (good : List Char → File) : Prop where
  fetches : s.target.fetches = true
  literal : Literal s files
  names : ∀ arg ∈ files, (fileOf arg).head? ≠ some '-'
  writable : s.writable = true
  links : ∀ arg ∈ files, s.links (fileOf arg) = false
  recorded : ∀ arg ∈ files, sha256sum s (fileOf arg) ≠ []
  groups : s.developer = true → ∀ arg ∈ files, ∀ group ∈ fields (select s arg), s.sites group ≠ []
  sizes : ∀ arg ∈ files, SizeOf s (fileOf arg) (good (fileOf arg))

section Fetching
variable {s : FetchScript.Setup} {net : Network} {good : List Char → File} {file : List Char}

theorem blocked_iff {dir : Dir} : blocked dir file = false ↔ ∀ i, file[i]? = some '/' → dir (file.take i) = none := by
  unfold blocked present
  rw [List.any_eq_false]
  constructor
  · intro h i hi
    have hlt : i < file.length := by
      by_contra hle
      rw [List.getElem?_eq_none (Nat.le_of_not_lt hle)] at hi
      cases hi
    simpa [hi] using h i (List.mem_range.2 hlt)
  · intro h i _
    by_cases hi : file[i]? = some '/'
    · simp [h i hi]
    · simp [hi]

variable {files : List (List Char)} (ready : Ready s files good) (reliable : Reliable s files good net)
include ready reliable

/-- What a run has made of the files: each is as it was, or the one that is recorded. -/
def Improved (good : List Char → File) (files : List (List Char)) (dir dir' : Dir) : Prop :=
  ∀ name, dir' name = dir name ∨ dir' name = some (good name) ∧ ∃ arg ∈ files, fileOf arg = name

/-- The files that are not left alone are the ones that are recorded. -/
def Settled (s : FetchScript.Setup) (good : List Char → File) (files : List (List Char)) (dir dir' : Dir) : Prop :=
  ∀ arg ∈ files, dir' (fileOf arg) = some (good (fileOf arg)) ∨
    dir' (fileOf arg) = dir (fileOf arg) ∧ present dir (fileOf arg) = true ∧ ∃ dir'', forced s dir'' (fileOf arg) = false

def Open (files : List (List Char)) (dir : Dir) : Prop :=
  ∀ arg ∈ files, ∀ i, (fileOf arg)[i]? = some '/' → dir ((fileOf arg).take i) = none ∧
    ∀ arg' ∈ files, fileOf arg' ≠ (fileOf arg).take i

omit ready reliable in
theorem Improved.blocked {all : List (List Char)} {dir dir' : Dir} (h : Improved good files dir dir') (hopen : Open all dir)
    (hsub : ∀ arg ∈ files, arg ∈ all) {arg : List Char} (harg : arg ∈ all) : blocked dir' (fileOf arg) = false := by
  rw [blocked_iff]
  intro i hi
  obtain ⟨hnone, hother⟩ := hopen arg harg i hi
  rcases h ((fileOf arg).take i) with hsame | ⟨-, arg', harg', hfile⟩
  · rw [hsame, hnone]
  · exact absurd hfile (hother arg' (hsub arg' harg'))

end Fetching

theorem Improved.trans {good : List Char → File} {files files' all : List (List Char)} {dir dir' dir'' : Dir}
    (h : Improved good files dir dir') (h' : Improved good files' dir' dir'') (hsub : ∀ arg ∈ files, arg ∈ all)
    (hsub' : ∀ arg ∈ files', arg ∈ all) : Improved good all dir dir'' := by
  intro name
  rcases h' name with hsame | ⟨hgood, arg, harg, hfile⟩
  · rw [hsame]
    exact (h name).imp_right fun ⟨hgood, arg, harg, hfile⟩ => ⟨hgood, arg, hsub arg harg, hfile⟩
  · exact .inr ⟨hgood, arg, hsub' arg harg, hfile⟩

section Ports
variable {p : Port} {good : List Char → File}

/-- All that a port needs to get its files back: every file is listed once, is there in some form
and has a record of the right one, and its sites bring the right one. -/
structure Recoverable (p : Port) (good : List Char → File) (net : ℤ → Network) (dir : Dir) : Prop where
  tame : Tame p
  text : ∃ text, p.setup.distinfo = some text
  algorithms : p.setup.env.algorithms = ["SHA256".toList]
  nodup : p.checking.files.Nodup
  there : ∀ name ∈ p.checking.files, present dir name
  right : ∀ arg ∈ p.args, (good (fileOf arg)).digest "SHA256".toList ∈
    cksum p.checking "SHA256".toList (fullFile p.setup (fileOf arg))
  master : Ready (p.masterRun []) p.distfiles good
  patch : Ready (p.patchRun []) p.patchfiles good
  masters : ∀ reget, Reliable (p.masterRun []) p.distfiles good (net reget)
  patches : ∀ reget, Reliable (p.patchRun []) p.patchfiles good (net reget)
  free : Open p.args (p.inside dir)

variable {net : ℤ → Network} {dir : Dir} (h : Recoverable p good net dir)
include h

theorem right_checking {name : List Char} (hname : name ∈ p.checking.files) :
    cksum p.checking "SHA256".toList name ≠ [] := by
  obtain ⟨arg, harg, rfl⟩ := mem_checking h.tame hname
  exact List.ne_nil_of_mem (h.right arg harg)

theorem clean_iff {dir' : Dir} {name : List Char} (hname : name ∈ p.checking.files) :
    Clean p.checking dir' name ↔ Passes p.checking dir' name := by
  have halgs : p.checking.env.algorithms = ["SHA256".toList] := h.algorithms
  unfold Clean Passes Matches
  rw [halgs]
  simp only [List.mem_singleton, forall_eq, exists_eq_left, chksums_plain h.tame.records]
  exact ⟨fun hclean => ⟨right_checking h hname, hclean⟩, And.right⟩

end Ports
end Mports.ChecksumRetries
