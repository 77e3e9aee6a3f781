import Mports.Distinfo

set_option autoImplicit false

/-!
checksum.sh: every file under every algorithm, with a status that is carried along, and the
retry by the script itself.
-/
namespace Mports.ChecksumScript
open Distinfo

/-- `OK` before the retry: empty, 'retry' or 'false'. -/
inductive Status where
  | unset | retry | wrong
  deriving DecidableEq, Repr

/-- `${OK:-retry}`. -/
def Status.orRetry : Status → Status
  | .unset => .retry
  | ok => ok

structure State where
  dir : Dir
  ok : Status
  refetchlist : List Char
  ignored : Bool
  out : List (List Char)

def State.tell (st : State) (text : List Char) : State := { st with out := st.out ++ [text] }

structure Setup where
  tools : Tools
  env : Env
  distinfoFile : List Char
  distinfo : Option (List Char)
  files : List (List Char)

/-- The words of `$CKSUM`, before the shell looks for pathnames. -/
def cksum (s : Setup) (alg file : List Char) : List (List Char) :=
  (distinfoData s.tools s.env s.distinfo alg file).filter (· ≠ [])

/-- The words the loop over `$CKSUM` goes through. -/
def chksums (s : Setup) (dir : Dir) (alg file : List Char) : List (List Char) :=
  (cksum s alg file).flatMap (s.tools.pathnames (present dir))

def mismatch (s : Setup) (reget : ℤ) (file : List Char) (st : State) : Except State State :=
  let st := { st with refetchlist := st.refetchlist ++ ' ' :: (file ++ [' ']), ok := st.ok.orRetry }
  if st.ok = .retry ∧ 0 < reget then
    match s.tools.rm file st.dir with
    | none => .error st
    | some dir => .ok { st with dir := dir, ignored := false }
  else .ok { st with ignored := false }

/-- One algorithm for one file; `set -e` ends the script where there is no such file. -/
def checkAlgorithm (s : Setup) (reget : ℤ) (file : List Char) (st : State) (alg : List Char) : Except State State :=
  match st.dir file with
  | none => .error st
  | some contents =>
    if cksum s alg file = [] then
      .ok (st.tell ("=> No ".toList ++ alg ++ " checksum recorded for ".toList ++ file ++ ['.']))
    else if contents.digest alg ∈ chksums s st.dir alg file then
      .ok { st.tell ("=> ".toList ++ alg ++ " Checksum OK for ".toList ++ file ++ ['.']) with ignored := false }
    else mismatch s reget file (st.tell ("=> ".toList ++ alg ++ " Checksum mismatch for ".toList ++ file ++ ['.']))

def checkFile (s : Setup) (reget : ℤ) (st : State) (file : List Char) : Except State State := do
  let st ← s.env.algorithms.foldlM (checkAlgorithm s reget file) { st with ignored := true }
  if st.ignored then
    .ok { st.tell ("=> No suitable checksum found for ".toList ++ file ++ ['.']) with ok := .wrong }
  else .ok st

def checkFiles (s : Setup) (reget : ℤ) (dir : Dir) : Except State State :=
  s.files.foldlM (checkFile s reget) ⟨dir, .unset, [], true, []⟩

/-- How the script ends; `depth` counts the retries that are nested in it. -/
structure Result where
  code : ℕ
  dir : Dir
  depth : ℕ
  out : List (List Char)

/-- `make fetch` under the FETCH_REGET it is given, for a list of files: whether it succeeds,
and what it leaves. -/
abbrev Fetch := ℤ → List Char → Dir → Bool × Dir

def givingUp (s : Setup) (st : State) : List (List Char) :=
  ["===>  Giving up on fetching files: ".toList ++ st.refetchlist,
    "Make sure the Makefile and distinfo file (".toList ++ s.distinfoFile ++ [')'],
    "are up to date.  If you are absolutely sure you want to override this".toList,
    "check, type \"make NO_CHECKSUM=yes [other args]\".".toList]

def checksum (s : Setup) (fetch : Fetch) (reget : ℤ) (dir : Dir) : Result :=
  match s.distinfo with
  | none =>
    -- `"${*}"`: the arguments with blanks between them
    if (s.files.intersperse [' ']).flatten = [] then ⟨0, dir, 0, []⟩
    else ⟨1, dir, 0, ["=> No checksum file (".toList ++ s.distinfoFile ++ ").".toList]⟩
  | some _ =>
    match checkFiles s reget dir with
    | .error st => ⟨1, st.dir, 0, st.out⟩
    | .ok st =>
      if _h : st.ok = .retry ∧ 0 < reget then
        let st := st.tell ("===>  Refetch for ".toList ++ (toString reget).toList ++ " more times files: ".toList ++
          st.refetchlist)
        match fetch (reget - 1) st.refetchlist st.dir with
        | (false, dir) => ⟨1, dir, 1, st.out⟩
        | (true, dir) =>
          let nested := checksum s fetch (reget - 1) dir
          ⟨if nested.code = 0 then 0 else 1, nested.dir, nested.depth + 1, st.out ++ nested.out⟩
      else if st.ok = .unset then ⟨0, st.dir, 0, st.out⟩
      else ⟨1, st.dir, 0, if reget = 0 then st.out ++ givingUp s st else st.out⟩
termination_by reget.toNat
decreasing_by omega

theorem foldlM_good_iff {σ ε α : Type} {step : σ → α → Except ε σ} {accept : σ → α → σ} (Good : σ → Prop)
    (Finds : σ → α → Prop) (hstep : ∀ st a st', step st a = .ok st' ∧ Good st' ↔ Good st ∧ Finds st a ∧ st' = accept st a)
    (hsame : ∀ st a b, Finds (accept st a) b ↔ Finds st b) (xs : List α) (st st' : σ) :
    xs.foldlM step st = .ok st' ∧ Good st' ↔ Good st ∧ (∀ a ∈ xs, Finds st a) ∧ st' = xs.foldl accept st := by
  induction xs generalizing st with
  | nil =>
    rw [List.foldlM_nil, List.foldl_nil]
    constructor
    · rintro ⟨h, hgood⟩
      obtain rfl := Except.ok.inj h
      exact ⟨hgood, by simp, rfl⟩
    · rintro ⟨hgood, -, rfl⟩
      exact ⟨rfl, hgood⟩
  | cons x xs ih =>
    rw [List.foldlM_cons, List.foldl_cons, List.forall_mem_cons]
    constructor
    · rintro ⟨h, hgood⟩
      cases hx : step st x with
      | error e =>
        rw [hx] at h
        cases h
      | ok st1 =>
        rw [hx] at h
        obtain ⟨hgood1, hall, rfl⟩ := (ih st1).1 ⟨h, hgood⟩
        obtain ⟨hst, hfinds, rfl⟩ := (hstep st x st1).1 ⟨hx, hgood1⟩
        exact ⟨hst, ⟨hfinds, fun b hb => (hsame st x b).1 (hall b hb)⟩, rfl⟩
    · rintro ⟨hst, ⟨hfinds, hall⟩, rfl⟩
      obtain ⟨hx, hgood1⟩ := (hstep st x _).2 ⟨hst, hfinds, rfl⟩
      rw [hx]
      exact (ih _).2 ⟨hgood1, fun b hb => (hsame st x b).2 (hall b hb), rfl⟩

/-- The file is there, and under the algorithm nothing is read or its digest is. -/
def Matches (s : Setup) (dir : Dir) (file alg : List Char) : Prop :=
  ∃ contents, dir file = some contents ∧ (cksum s alg file ≠ [] → contents.digest alg ∈ chksums s dir alg file)

def Passes (s : Setup) (dir : Dir) (file : List Char) : Prop :=
  (∃ alg ∈ s.env.algorithms, cksum s alg file ≠ []) ∧ ∀ alg ∈ s.env.algorithms, Matches s dir file alg

def accepted (s : Setup) (file : List Char) (st : State) (alg : List Char) : State :=
  if cksum s alg file = [] then
    st.tell ("=> No ".toList ++ alg ++ " checksum recorded for ".toList ++ file ++ ['.'])
  else { st.tell ("=> ".toList ++ alg ++ " Checksum OK for ".toList ++ file ++ ['.']) with ignored := false }

def acceptedFile (s : Setup) (st : State) (file : List Char) : State :=
  s.env.algorithms.foldl (accepted s file) { st with ignored := true }

theorem accepted_dir (s : Setup) (file : List Char) (st : State) (alg : List Char) :
    (accepted s file st alg).dir = st.dir := by
  unfold accepted
  split <;> rfl

theorem accepted_ignored (s : Setup) (file : List Char) (st : State) (alg : List Char) :
    (accepted s file st alg).ignored = true ↔ st.ignored = true ∧ cksum s alg file = [] := by
  unfold accepted
  split_ifs with h
  · simp [State.tell, h]
  · simp [h]

theorem foldl_accepted_dir (s : Setup) (file : List Char) (algs : List (List Char)) (st : State) :
    (algs.foldl (accepted s file) st).dir = st.dir := by
  induction algs generalizing st with
  | nil => rfl
  | cons alg algs ih => rw [List.foldl_cons, ih, accepted_dir]

theorem foldl_accepted_ignored (s : Setup) (file : List Char) (algs : List (List Char)) (st : State) :
    (algs.foldl (accepted s file) st).ignored = true ↔
      st.ignored = true ∧ ∀ alg ∈ algs, cksum s alg file = [] := by
  induction algs generalizing st with
  | nil => simp
  | cons alg algs ih => rw [List.foldl_cons, ih, accepted_ignored, List.forall_mem_cons, and_assoc]

theorem acceptedFile_dir (s : Setup) (st : State) (file : List Char) : (acceptedFile s st file).dir = st.dir :=
  foldl_accepted_dir s file _ _

theorem foldl_acceptedFile_dir (s : Setup) (files : List (List Char)) (st : State) :
    (files.foldl (acceptedFile s) st).dir = st.dir := by
  induction files generalizing st with
  | nil => rfl
  | cons file files ih => rw [List.foldl_cons, ih, acceptedFile_dir]

variable {s : Setup}

theorem orRetry_ne_unset (ok : Status) : ok.orRetry ≠ .unset := by
  cases ok <;> decide

theorem mismatch_ok {reget : ℤ} {file : List Char} {st st' : State} (h : mismatch s reget file st = .ok st') : st'.ok ≠ .unset := by
  unfold mismatch at h
  dsimp only at h
  split_ifs at h
  · cases hrm : s.tools.rm file st.dir with
    | none =>
      rw [hrm] at h
      cases h
    | some dir =>
      rw [hrm] at h
      cases h
      exact orRetry_ne_unset st.ok
  · cases h
    exact orRetry_ne_unset st.ok

theorem checkAlgorithm_unset (reget : ℤ) (file : List Char) (st : State) (alg : List Char) (st' : State) :
    checkAlgorithm s reget file st alg = .ok st' ∧ st'.ok = .unset ↔
      st.ok = .unset ∧ Matches s st.dir file alg ∧ st' = accepted s file st alg := by
  unfold checkAlgorithm Matches accepted
  cases hdir : st.dir file with
  | none => simp
  | some contents =>
    by_cases hnone : cksum s alg file = []
    · simp only [if_pos hnone, Except.ok.injEq]
      constructor
      · rintro ⟨rfl, hok⟩
        exact ⟨hok, ⟨contents, rfl, fun h => absurd hnone h⟩, rfl⟩
      · rintro ⟨hok, -, rfl⟩
        exact ⟨rfl, hok⟩
    · by_cases hmatch : contents.digest alg ∈ chksums s st.dir alg file
      · simp only [if_neg hnone, if_pos hmatch, Except.ok.injEq]
        constructor
        · rintro ⟨rfl, hok⟩
          exact ⟨hok, ⟨contents, rfl, fun _ => hmatch⟩, rfl⟩
        · rintro ⟨hok, -, rfl⟩
          exact ⟨rfl, hok⟩
      · simp only [if_neg hnone, if_neg hmatch]
        constructor
        · rintro ⟨h, hok⟩
          exact absurd hok (mismatch_ok h)
        · rintro ⟨-, ⟨c, hc, hdigest⟩, -⟩
          cases hc
          exact absurd (hdigest hnone) hmatch

theorem checkFile_unset (reget : ℤ) (st : State) (file : List Char) (st' : State) :
    checkFile s reget st file = .ok st' ∧ st'.ok = .unset ↔
      st.ok = .unset ∧ Passes s st.dir file ∧ st' = acceptedFile s st file := by
  have hfold := foldlM_good_iff (State.ok · = .unset) (Matches s ·.dir file) (checkAlgorithm_unset reget file)
    (fun st a b => by rw [accepted_dir]) s.env.algorithms { st with ignored := true }
  unfold checkFile Passes acceptedFile
  constructor
  · rintro ⟨h, hok⟩
    cases halgs : s.env.algorithms.foldlM (checkAlgorithm s reget file) { st with ignored := true } with
    | error e =>
      rw [halgs] at h
      cases h
    | ok st1 =>
      rw [halgs] at h
      change (if st1.ignored then _ else Except.ok st1) = _ at h
      split_ifs at h with hignored
      · cases h
        cases hok
      · cases h
        obtain ⟨hst, hall, rfl⟩ := (hfold _).1 ⟨halgs, hok⟩
        rw [foldl_accepted_ignored, and_iff_right rfl, not_forall] at hignored
        obtain ⟨alg, hsome⟩ := hignored
        exact ⟨hst, ⟨⟨alg, Classical.not_imp.1 hsome⟩, hall⟩, rfl⟩
  · rintro ⟨hst, ⟨⟨alg, halg, hsome⟩, hall⟩, rfl⟩
    obtain ⟨halgs, hok⟩ := (hfold _).2 ⟨hst, hall, rfl⟩
    refine ⟨?_, hok⟩
    rw [halgs]
    refine if_neg fun h => hsome ?_
    rw [foldl_accepted_ignored] at h
    exact h.2 alg halg

theorem checkFiles_unset (reget : ℤ) (dir : Dir) (st : State) :
    checkFiles s reget dir = .ok st ∧ st.ok = .unset ↔
      (∀ file ∈ s.files, Passes s dir file) ∧ st = s.files.foldl (acceptedFile s) ⟨dir, .unset, [], true, []⟩ := by
  have hfold := foldlM_good_iff (State.ok · = .unset) (Passes s ·.dir) (checkFile_unset reget)
    (fun st a b => by rw [acceptedFile_dir]) s.files ⟨dir, .unset, [], true, []⟩ st
  rw [checkFiles, hfold]
  exact and_iff_right rfl

theorem checksum_passes {text : List Char} {dir : Dir} (fetch : Fetch) (reget : ℤ) (htext : s.distinfo = some text)
    (h : ∀ file ∈ s.files, Passes s dir file) : ∃ out, checksum s fetch reget dir = ⟨0, dir, 0, out⟩ := by
  obtain ⟨hfiles, hok⟩ := (checkFiles_unset reget dir _).2 ⟨h, rfl⟩
  refine ⟨(s.files.foldl (acceptedFile s) ⟨dir, .unset, [], true, []⟩).out, ?_⟩
  rw [checksum, htext]
  simp only [hfiles]
  rw [dif_neg (by simp [hok]), if_pos hok, foldl_acceptedFile_dir]

theorem checksum_succeeds {text : List Char} (htext : s.distinfo = some text) (fetch : Fetch) (reget : ℤ) (dir : Dir)
    (h : (checksum s fetch reget dir).code = 0) : ∀ file ∈ s.files, Passes s (checksum s fetch reget dir).dir file := by
  fun_induction checksum s fetch reget dir with
  | case1 _ _ hnone | case2 _ _ hnone => cases hnone.symm.trans htext
  | case3 | case4 | case7 => cases h
  | case5 _ _ _ _ _ _ _ _ _ _ nested ih =>
    refine ih ?_
    by_contra hcode
    exact absurd h (by simp [nested, hcode])
  | case6 reget dir _ _ st hfiles _ hok =>
    obtain ⟨hall, rfl⟩ := (checkFiles_unset reget dir st).1 ⟨hfiles, hok⟩
    rwa [foldl_acceptedFile_dir]

theorem checksum_depth (fetch : Fetch) (reget : ℤ) (dir : Dir) : (checksum s fetch reget dir).depth ≤ reget.toNat := by
  fun_induction checksum s fetch reget dir with
  | case1 | case2 | case3 | case6 | case7 => exact Nat.zero_le _
  | case4 _ _ _ _ _ _ hretry =>
    dsimp only
    omega
  | case5 _ _ _ _ _ _ hretry _ _ _ nested ih =>
    change (checksum s fetch _ _).depth + 1 ≤ _
    omega

end Mports.ChecksumScript
