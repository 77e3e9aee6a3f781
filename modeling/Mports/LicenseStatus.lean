import Mports.MakeWords
import Mathlib.Data.List.Perm.Basic
import Mathlib.Logic.Function.Basic

set_option autoImplicit false

namespace Mports.LicenseStatus
open MakeWords

inductive Status where
  | accepted | rejected | ask
  deriving DecidableEq, Repr

inductive Comb where
  | dual | multi
  deriving DecidableEq, Repr

/-- The user's lists, `LICENSES_ASK` and `MAGUS` (whether they are defined), and the groups
and permissions of each license. -/
structure Setup where
  accepted : List Word
  rejected : List Word
  groupsAccepted : List Word
  groupsRejected : List Word
  ask : Bool
  magus : Bool
  groups : Word → List Word
  perms : Word → List Word

/-- `VAR?= value`. -/
def orElse (value : Status) (old : Option Status) : Option Status := some (old.getD value)

def evalGroup (s : Setup) (status : Option Status) (group : Word) : Option Status :=
  let status := if hasMatch group s.groupsRejected then orElse .rejected status else status
  if hasMatch group s.groupsAccepted then orElse .accepted status else status

/-- `_LICENSE_STATUS_${lic}`. -/
def evalLicense (s : Setup) (lic : Word) (status : Option Status) : Option Status :=
  let status := if hasMatch lic s.rejected then orElse .rejected status else status
  let status := (s.groups lic).foldl (evalGroup s) status
  let status := if hasMatch lic s.accepted then orElse .accepted status else status
  let status := if hasMatch "auto-accept".toList (s.perms lic) && !s.ask then orElse .accepted status else status
  if !s.magus then orElse .ask status else orElse .accepted status

def licenseStatuses (s : Setup) (lics : List Word) : Word → Option Status :=
  lics.foldl (fun statuses lic => Function.update statuses lic (evalLicense s lic (statuses lic))) fun _ => none

/-- `_LICENSE_STATUS` and `_LICENSE_TO_ASK`. -/
structure General where
  status : Option Status
  toAsk : List Word
  deriving DecidableEq

def dualStep (statuses : Word → Option Status) (general : General) (lic : Word) : General :=
  let general :=
    if statuses lic = some .accepted then { general with status := some .accepted }
    else if statuses lic = some .ask then ⟨orElse .ask general.status, general.toAsk ++ [lic]⟩
    else general
  { general with status := orElse .rejected general.status }

def multiStep (statuses : Word → Option Status) (general : General) (lic : Word) : General :=
  if statuses lic = some .rejected then { general with status := some .rejected }
  else if statuses lic = some .ask then ⟨orElse .ask general.status, general.toAsk ++ [lic]⟩
  else general

def general (s : Setup) (comb : Comb) (lics : List Word) : General :=
  let statuses := licenseStatuses s lics
  match comb with
  | .dual => lics.foldl (dualStep statuses) ⟨none, []⟩
  | .multi =>
    let general := lics.foldl (multiStep statuses) ⟨none, []⟩
    { general with status := orElse .accepted general.status }

def statusOf (s : Setup) (lic : Word) : Status := (evalLicense s lic none).getD .ask

def combined (s : Setup) (comb : Comb) (lics : List Word) : Status :=
  match comb with
  | .dual =>
    if ∃ lic ∈ lics, statusOf s lic = .accepted then .accepted
    else if ∃ lic ∈ lics, statusOf s lic = .ask then .ask
    else .rejected
  | .multi =>
    if ∃ lic ∈ lics, statusOf s lic = .rejected then .rejected
    else if ∃ lic ∈ lics, statusOf s lic = .ask then .ask
    else .accepted

@[simp] theorem orElse_some (value old : Status) : orElse value (some old) = some old := rfl

@[simp] theorem orElse_none (value : Status) : orElse value none = some value := rfl

variable {s : Setup}

theorem evalGroups_some (groups : List Word) (status : Status) : groups.foldl (evalGroup s) (some status) = some status := by
  induction groups with
  | nil => rfl
  | cons group groups ih =>
    have hgroup : evalGroup s (some status) group = some status := by simp only [evalGroup, orElse_some, ite_self]
    rw [List.foldl_cons, hgroup, ih]

theorem evalLicense_some (lic : Word) (status : Status) : evalLicense s lic (some status) = some status := by
  simp only [evalLicense, evalGroups_some, orElse_some, ite_self]

theorem evalLicense_none (lic : Word) : evalLicense s lic none = some (statusOf s lic) := by
  have hsome : (evalLicense s lic none).isSome := by
    unfold evalLicense
    dsimp only
    split <;> rfl
  obtain ⟨status, hstatus⟩ := Option.isSome_iff_exists.1 hsome
  rw [statusOf, hstatus, Option.getD_some]

theorem licenseStatuses_foldl (lics : List Word) (statuses : Word → Option Status)
    (h : ∀ lic, statuses lic = none ∨ statuses lic = some (statusOf s lic)) (lic : Word) :
    lics.foldl (fun statuses lic => Function.update statuses lic (evalLicense s lic (statuses lic))) statuses lic =
      if lic ∈ lics then some (statusOf s lic) else statuses lic := by
  induction lics generalizing statuses with
  | nil => simp
  | cons l lics ih =>
    have hl : evalLicense s l (statuses l) = some (statusOf s l) := by
      rcases h l with hnone | hsome
      · rw [hnone, evalLicense_none]
      · rw [hsome, evalLicense_some]
    rw [List.foldl_cons, ih, hl]
    · by_cases hlic : lic = l
      · simp [hlic]
      · simp [hlic]
    · intro x
      by_cases hx : x = l
      · exact .inr (by simp [hx, hl])
      · rw [Function.update_of_ne hx]
        exact h x

theorem licenseStatuses_mem {lics : List Word} {lic : Word} (h : lic ∈ lics) :
    licenseStatuses s lics lic = some (statusOf s lic) := by
  rw [licenseStatuses, licenseStatuses_foldl lics _ (fun _ => .inl rfl), if_pos h]

section
variable {statuses : Word → Option Status} {f : Word → Status}

theorem dualStep_status {lic : Word} (h : statuses lic = some (f lic)) (g : General) :
    (dualStep statuses g lic).status =
      if f lic = .accepted then some .accepted else some (g.status.getD (f lic)) := by
  unfold dualStep
  rw [h]
  cases hlic : f lic with
  | accepted => simp
  | ask => simp [orElse]
  | rejected => simp [orElse]

theorem dual_status (lics : List Word) (h : ∀ lic ∈ lics, statuses lic = some (f lic)) (g : General) :
    (lics.foldl (dualStep statuses) g).status =
      if ∃ lic ∈ lics, f lic = .accepted then some .accepted else (g.status <|> lics.head?.map f) := by
  induction lics generalizing g with
  | nil => simp
  | cons lic lics ih =>
    have hlic := h lic List.mem_cons_self
    rw [List.foldl_cons, ih (fun x hx => h x (List.mem_cons_of_mem _ hx)), dualStep_status hlic]
    by_cases hrest : ∃ x ∈ lics, f x = .accepted
    · simp [hrest]
    · by_cases hacc : f lic = .accepted
      · simp [hacc]
      · cases hg : g.status with
        | none => simp [hrest, hacc]
        | some x => simp [hrest, hacc]

theorem multiStep_status {lic : Word} (h : statuses lic = some (f lic)) (g : General) :
    (multiStep statuses g lic).status =
      match f lic with
      | .rejected => some .rejected
      | .ask => some (g.status.getD .ask)
      | .accepted => g.status := by
  unfold multiStep
  rw [h]
  cases f lic with
  | accepted => simp
  | ask => simp [orElse]
  | rejected => simp

theorem multi_status (lics : List Word) (h : ∀ lic ∈ lics, statuses lic = some (f lic)) (g : General) :
    (lics.foldl (multiStep statuses) g).status =
      if ∃ lic ∈ lics, f lic = .rejected then some .rejected
      else (g.status <|> if ∃ lic ∈ lics, f lic = .ask then some .ask else none) := by
  induction lics generalizing g with
  | nil => simp
  | cons lic lics ih =>
    have hlic := h lic List.mem_cons_self
    rw [List.foldl_cons, ih (fun x hx => h x (List.mem_cons_of_mem _ hx)), multiStep_status hlic]
    by_cases hrest : ∃ x ∈ lics, f x = .rejected
    · simp [hrest]
    · cases hf : f lic with
      | rejected => simp [hf]
      | accepted => simp [hf, hrest]
      | ask => cases hg : g.status <;> simp [hf, hrest]

end

theorem general_dual (s : Setup) (lics : List Word) :
    (general s .dual lics).status =
      if ∃ lic ∈ lics, statusOf s lic = .accepted then some .accepted else lics.head?.map (statusOf s) := by
  unfold general
  rw [dual_status lics fun lic hlic => licenseStatuses_mem hlic]
  rfl

theorem general_multi (s : Setup) (lics : List Word) : (general s .multi lics).status = some (combined s .multi lics) := by
  unfold general combined
  dsimp only
  rw [multi_status lics fun lic hlic => licenseStatuses_mem hlic]
  split_ifs <;> rfl

theorem combined_perm (s : Setup) (comb : Comb) {lics lics' : List Word} (h : lics'.Perm lics) :
    combined s comb lics' = combined s comb lics := by
  cases comb <;> simp only [combined, h.mem_iff]

theorem head_status {lics lics' : List Word} (hne : lics' ≠ []) (hsub : ∀ x ∈ lics', x ∈ lics)
    (hacc : ¬ ∃ lic ∈ lics, statusOf s lic = .accepted)
    (hmix : ¬ ((∃ lic ∈ lics, statusOf s lic = .ask) ∧ ∃ lic ∈ lics, statusOf s lic = .rejected)) :
    lics'.head?.map (statusOf s) = some (if ∃ lic ∈ lics, statusOf s lic = .ask then .ask else .rejected) := by
  obtain ⟨l, ls, rfl⟩ := List.exists_cons_of_ne_nil hne
  have hl := hsub l List.mem_cons_self
  rw [List.head?_cons, Option.map_some]
  cases hstatus : statusOf s l with
  | accepted => exact absurd ⟨l, hl, hstatus⟩ hacc
  | ask => rw [if_pos ⟨l, hl, hstatus⟩]
  | rejected => rw [if_neg fun hask => hmix ⟨hask, l, hl, hstatus⟩]

/-- The general status is that of the licenses in any order unless the first of a dual port may
be rejected while another is to be asked for. -/
theorem general_orderless_iff (s : Setup) (comb : Comb) (lics : List Word) :
    ((general s comb lics).status = some (combined s comb lics) ∧
      ∀ lics' : List Word, lics'.Perm lics → (general s comb lics').status = (general s comb lics).status) ↔
    (comb = .dual → lics ≠ [] ∧ ((∃ lic ∈ lics, statusOf s lic = .accepted) ∨
      ¬ ((∃ lic ∈ lics, statusOf s lic = .ask) ∧ ∃ lic ∈ lics, statusOf s lic = .rejected))) := by
  cases comb with
  | multi =>
    constructor
    · intro _ h
      cases h
    · intro _
      refine ⟨general_multi s lics, fun lics' h => ?_⟩
      rw [general_multi, general_multi, combined_perm s .multi h]
  | dual =>
    constructor
    · rintro ⟨hstatus, hperm⟩ -
      constructor
      · rintro rfl
        cases hstatus
      · by_contra hnot
        rw [not_or, not_not] at hnot
        obtain ⟨hacc, hask, rejected, hmem, hrejected⟩ := hnot
        -- the rejected license first
        have hfirst := List.perm_cons_erase hmem
        have := hperm _ hfirst.symm
        rw [hstatus, combined, if_neg hacc, if_pos hask, general_dual] at this
        simp only [← hfirst.mem_iff] at this
        rw [if_neg hacc, List.head?_cons, Option.map_some, hrejected] at this
        cases this
    · intro h
      obtain ⟨hne, hcond⟩ := h rfl
      have hall : ∀ lics' : List Word, lics'.Perm lics → (general s .dual lics').status = some (combined s .dual lics) := by
        intro lics' hp
        rw [general_dual, combined]
        simp only [hp.mem_iff]
        by_cases hacc : ∃ lic ∈ lics, statusOf s lic = .accepted
        · rw [if_pos hacc, if_pos hacc]
        · rw [if_neg hacc, if_neg hacc]
          exact head_status (fun h => hne (List.perm_nil.1 (h ▸ hp.symm))) (fun x hx => (hp.mem_iff.1 hx)) hacc
            (hcond.resolve_left hacc)
      exact ⟨hall lics (.refl _), fun lics' hp => (hall lics' hp).trans (hall lics (.refl _)).symm⟩

/-- A user who rejects one license and wants to be asked for the others. Both licenses have the
permissions that licenses.db.mk gives by default. -/
def rejecting : Setup where
  accepted := []
  rejected := ["agg".toList]
  groupsAccepted := []
  groupsRejected := []
  ask := true
  magus := false
  groups _ := []
  perms _ := ["dist-mirror".toList, "dist-sell".toList, "pkg-mirror".toList, "pkg-sell".toList, "auto-accept".toList]

theorem rejected_first :
    (general rejecting .dual ["agg".toList, "nvidia".toList]).status = some .rejected ∧
      combined rejecting .dual ["agg".toList, "nvidia".toList] = .ask ∧
      (general rejecting .dual ["nvidia".toList, "agg".toList]).status = some .ask := by
  decide

end Mports.LicenseStatus
