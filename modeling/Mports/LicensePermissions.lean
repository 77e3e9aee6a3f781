import Mports.LicenseStatus
import Mports.PerlText
import Mports.ShellText
import Mathlib.Data.List.Induction
import Mathlib.Data.List.Nodup

set_option autoImplicit false

namespace Mports.LicensePermissions
open MakeWords ShellText LicenseStatus

/-- `_LICENSE_LIST_PERMS`. -/
def listPerms : List Word :=
  ["dist-mirror".toList, "dist-sell".toList, "pkg-mirror".toList, "pkg-sell".toList, "auto-accept".toList, "none".toList]

/-- `_LICENSE_LIST_GROUPS`, to which nothing is assigned anywhere. -/
def listGroups : List Word := []

def namedGroups : List Word := ["FSF".toList, "GPL".toList, "OSI".toList, "COPYFREE".toList, "FONTS".toList]

def no (comp : Word) : Word := "no-".toList ++ comp

def stem (comp : Word) : Word := without "no-".toList comp

structure CleanUp where
  error : Option (List Char)
  kept : List Word

def cleanStep (perms : List Word) (c : CleanUp) (comp : Word) : CleanUp :=
  if !hasMatch (stem comp) listPerms then
    -- `${var}` is empty after its loop
    { c with error := some (c.error.getD ("invalid LICENSE_PERMS_ component \"".toList ++ comp ++ ['"'])) }
  else if !hasMatch comp c.kept && !hasMatch (no (stem comp)) perms then { c with kept := c.kept ++ [comp] }
  else c

def cleanUp (error : Option (List Char)) (perms : List Word) : CleanUp := perms.foldl (cleanStep perms) ⟨error, []⟩

structure Port where
  lics : List Word
  known : Word → Bool
  perms : Word → List Word
  groups : Word → List Word

/-- `_LICENSE_PERMS_${lic}`. -/
def licensePerms (p : Port) (lic : Word) : List Word :=
  if p.known lic then p.perms lic else (cleanUp none (p.perms lic)).kept

def union (components : List Word) (lists : Word → List Word) (lics : List Word) : List Word :=
  lics.foldl (fun acc lic => components.foldl (fun acc comp =>
    if hasMatch comp (lists lic) && !hasMatch comp acc then acc ++ [comp] else acc) acc) []

def intersection (components : List Word) (lists : Word → List Word) (lics : List Word) : List Word :=
  lics.foldl (fun acc lic => components.foldl (fun acc comp =>
    if !hasMatch comp (lists lic) then excluding comp acc else acc) acc) components

def combine (comb : Comb) (components : List Word) (lists : Word → List Word) (lics : List Word) : List Word :=
  match comb with
  | .dual => union components lists lics
  | .multi => intersection components lists lics

def generalPerms (p : Port) (comb : Comb) : List Word := combine comb listPerms (licensePerms p) p.lics

def generalGroups (p : Port) (comb : Comb) : List Word := combine comb listGroups p.groups p.lics

/-- To one license of a dual port, to every one of a multi port. -/
def Belongs (comb : Comb) (lists : Word → List Word) (lics : List Word) (comp : Word) : Prop :=
  match comb with
  | .dual => ∃ lic ∈ lics, comp ∈ lists lic
  | .multi => ∀ lic ∈ lics, comp ∈ lists lic

section
variable {components : List Word} {lists : Word → List Word}

theorem mem_addAll (hplain : ∀ comp ∈ components, Plain comp) (lic : Word) (acc : List Word) (c : Word) :
    c ∈ components.foldl (fun acc comp => if hasMatch comp (lists lic) && !hasMatch comp acc then acc ++ [comp] else acc) acc ↔
      c ∈ acc ∨ c ∈ components ∧ c ∈ lists lic := by
  induction components generalizing acc with
  | nil => simp
  | cons comp comps ih =>
    have hcomp := hplain comp List.mem_cons_self
    rw [List.foldl_cons, ih fun x hx => hplain x (List.mem_cons_of_mem _ hx)]
    simp only [Bool.and_eq_true, Bool.not_eq_true', ← Bool.not_eq_true, hasMatch_plain hcomp, List.mem_cons]
    split_ifs with h
    · rw [List.mem_append, List.mem_singleton]
      grind
    · grind

theorem nodup_addAll (hplain : ∀ comp ∈ components, Plain comp) (lic : Word) {acc : List Word} (h : acc.Nodup) :
    (components.foldl (fun acc comp =>
      if hasMatch comp (lists lic) && !hasMatch comp acc then acc ++ [comp] else acc) acc).Nodup := by
  induction components generalizing acc with
  | nil => exact h
  | cons comp comps ih =>
    have hcomp := hplain comp List.mem_cons_self
    rw [List.foldl_cons]
    refine ih (fun x hx => hplain x (List.mem_cons_of_mem _ hx)) ?_
    simp only [Bool.and_eq_true, Bool.not_eq_true', ← Bool.not_eq_true, hasMatch_plain hcomp]
    split_ifs with hadd
    · rw [← List.concat_eq_append]
      exact List.Nodup.concat hadd.2 h
    · exact h

theorem mem_union (hplain : ∀ comp ∈ components, Plain comp) (lics : List Word) (c : Word) :
    c ∈ union components lists lics ↔ c ∈ components ∧ ∃ lic ∈ lics, c ∈ lists lic := by
  have hfold : ∀ acc : List Word, c ∈ lics.foldl (fun acc lic => components.foldl (fun acc comp =>
      if hasMatch comp (lists lic) && !hasMatch comp acc then acc ++ [comp] else acc) acc) acc ↔
      c ∈ acc ∨ c ∈ components ∧ ∃ lic ∈ lics, c ∈ lists lic := by
    induction lics with
    | nil => simp
    | cons lic lics ih =>
      intro acc
      rw [List.foldl_cons, ih, mem_addAll hplain, or_assoc, ← and_or_left]
      simp
  rw [union, hfold]
  simp

theorem nodup_union (hplain : ∀ comp ∈ components, Plain comp) (lics : List Word) : (union components lists lics).Nodup := by
  have hfold : ∀ acc : List Word, acc.Nodup → (lics.foldl (fun acc lic => components.foldl (fun acc comp =>
      if hasMatch comp (lists lic) && !hasMatch comp acc then acc ++ [comp] else acc) acc) acc).Nodup := by
    induction lics with
    | nil => exact fun acc h => h
    | cons lic lics ih => exact fun acc h => ih _ (nodup_addAll hplain lic h)
  exact hfold [] List.nodup_nil

theorem dropAll_eq (hplain : ∀ comp ∈ components, Plain comp) (lic : Word) (acc : List Word) :
    components.foldl (fun acc comp => if !hasMatch comp (lists lic) then excluding comp acc else acc) acc =
      acc.filter fun c => decide (c ∈ components → c ∈ lists lic) := by
  induction components generalizing acc with
  | nil => simp
  | cons comp comps ih =>
    have hcomp := hplain comp List.mem_cons_self
    rw [List.foldl_cons, ih fun x hx => hplain x (List.mem_cons_of_mem _ hx)]
    simp only [Bool.not_eq_true', ← Bool.not_eq_true, hasMatch_plain hcomp]
    split_ifs with h
    · refine List.filter_congr fun c _ => decide_eq_decide.2 ?_
      grind
    · rw [excluding, List.filter_filter]
      refine List.filter_congr fun c _ => ?_
      have hmatch := strMatch_plain hcomp c
      grind

theorem intersection_eq (hplain : ∀ comp ∈ components, Plain comp) (lics : List Word) :
    intersection components lists lics = components.filter fun c => decide (∀ lic ∈ lics, c ∈ lists lic) := by
  have hfold : ∀ acc : List Word, (∀ c ∈ acc, c ∈ components) → lics.foldl (fun acc lic => components.foldl (fun acc comp =>
      if !hasMatch comp (lists lic) then excluding comp acc else acc) acc) acc =
      acc.filter fun c => decide (∀ lic ∈ lics, c ∈ lists lic) := by
    induction lics with
    | nil => simp
    | cons lic lics ih =>
      intro acc hacc
      rw [List.foldl_cons, dropAll_eq hplain, ih _ fun c hc => hacc c (List.mem_filter.1 hc).1, List.filter_filter]
      refine List.filter_congr fun c hc => ?_
      have hc' := hacc c hc
      rw [← Bool.decide_and]
      refine decide_eq_decide.2 ?_
      rw [List.forall_mem_cons]
      exact ⟨fun h => ⟨h.2 hc', h.1⟩, fun h => ⟨h.2, fun _ => h.1⟩⟩
  exact hfold components fun c hc => hc

theorem mem_combine (comb : Comb) (hplain : ∀ comp ∈ components, Plain comp) (lics : List Word) (c : Word) :
    c ∈ combine comb components lists lics ↔ c ∈ components ∧ Belongs comb lists lics c := by
  cases comb with
  | dual => exact mem_union hplain lics c
  | multi => rw [combine, intersection_eq hplain, List.mem_filter, decide_eq_true_iff, Belongs]

theorem nodup_combine (comb : Comb) (hplain : ∀ comp ∈ components, Plain comp) (hnodup : components.Nodup) (lics : List Word) :
    (combine comb components lists lics).Nodup := by
  cases comb with
  | dual => exact nodup_union hplain lics
  | multi =>
    rw [combine, intersection_eq hplain]
    exact hnodup.filter _

end

theorem listPerms_plain : ∀ comp ∈ listPerms, Plain comp := by decide

theorem listPerms_nodup : listPerms.Nodup := by decide

theorem listPerms_stem : ∀ comp ∈ listPerms, stem comp = comp := by decide

theorem no_plain {comp : Word} (h : Plain comp) : Plain (no comp) := by
  have hno : ∀ c ∈ "no-".toList, c ≠ '*' ∧ c ≠ '?' ∧ c ≠ '[' ∧ c ≠ '\\' :=
    List.forall_iff_forall_mem.1 (by decide)
  intro c hc
  exact (List.mem_append.1 hc).elim (hno c) (h c)

section
variable (perms : List Word)

def keptAfter (pre : List Word) : List Word := (pre.foldl (cleanStep perms) ⟨none, []⟩).kept

theorem keptAfter_snoc (pre : List Word) (comp : Word) :
    keptAfter perms (pre ++ [comp]) =
      if hasMatch (stem comp) listPerms = true ∧ hasMatch comp (keptAfter perms pre) = false ∧
        hasMatch (no (stem comp)) perms = false then keptAfter perms pre ++ [comp] else keptAfter perms pre := by
  unfold keptAfter
  rw [List.foldl_append, List.foldl_cons, List.foldl_nil]
  generalize pre.foldl (cleanStep perms) ⟨none, []⟩ = c
  unfold cleanStep
  cases hasMatch (stem comp) listPerms with
  | false => simp
  | true => cases hasMatch comp c.kept <;> cases hasMatch (no (stem comp)) perms <;> simp

theorem mem_keptAfter (pre : List Word) {c : Word} (hc : c ∈ listPerms) :
    c ∈ keptAfter perms pre ↔ c ∈ pre ∧ no c ∉ perms := by
  induction pre using List.reverseRecOn with
  | nil => simp [keptAfter]
  | append_singleton pre comp ih =>
    rw [keptAfter_snoc]
    by_cases hcomp : c = comp
    · subst hcomp
      have hplain := listPerms_plain c hc
      simp only [listPerms_stem c hc, ← Bool.not_eq_true, hasMatch_plain hplain, hasMatch_plain (no_plain hplain)]
      split_ifs with h
      · simp [h.2.2]
      · rw [ih]
        simp
        tauto
    · split_ifs
      · simp [ih, hcomp]
      · simp [ih, hcomp]

theorem keptAfter_sub (pre post : List Word) : ∀ c ∈ keptAfter perms pre, c ∈ keptAfter perms (pre ++ post) := by
  induction post using List.reverseRecOn with
  | nil => simp
  | append_singleton post comp ih =>
    intro c hc
    rw [← List.append_assoc, keptAfter_snoc]
    split_ifs
    · exact List.mem_append_left _ (ih c hc)
    · exact ih c hc

def Refused (pre : List Word) (comp : Word) : Prop :=
  (∀ v ∈ listPerms, strMatch (stem comp) v = false) ∨
    (∃ c ∈ pre, c ∈ listPerms ∧ no c ∉ perms ∧ strMatch comp c = true) ∨
    ∃ u ∈ perms, strMatch (no (stem comp)) u = true

/-- What is not of the framework is refused wherever it stands. -/
def WellListed : Prop :=
  ∀ pre comp post, perms = pre ++ comp :: post → comp ∉ listPerms → Refused perms pre comp

def Exact (kept : List Word) : Prop := kept.Nodup ∧ ∀ c, c ∈ kept ↔ c ∈ listPerms ∧ c ∈ perms ∧ no c ∉ perms

theorem refused_skipped {pre : List Word} {comp : Word} (h : Refused perms pre comp) :
    keptAfter perms (pre ++ [comp]) = keptAfter perms pre := by
  rw [keptAfter_snoc, if_neg]
  rintro ⟨hvalid, hnew, hunopposed⟩
  rcases h with hinvalid | ⟨c, hc, hlisted, hno, hmatch⟩ | ⟨u, hu, hmatch⟩
  · obtain ⟨v, hv, hmatch⟩ := List.any_eq_true.1 hvalid
    rw [hinvalid v hv] at hmatch
    cases hmatch
  · have hkept := (mem_keptAfter perms pre hlisted).2 ⟨hc, hno⟩
    have := List.any_eq_false.1 hnew c hkept
    contradiction
  · have := List.any_eq_false.1 hunopposed u hu
    contradiction

theorem unrefused_kept {pre : List Word} {comp : Word} (h : ¬ Refused perms pre comp)
    (hlisted : ∀ c ∈ keptAfter perms pre, c ∈ listPerms) : comp ∈ keptAfter perms (pre ++ [comp]) := by
  simp only [Refused, not_or, not_forall, not_exists, not_and, Bool.not_eq_false] at h
  obtain ⟨⟨v, hv, hvalid⟩, hnew, hunopposed⟩ := h
  rw [keptAfter_snoc, if_pos, List.mem_append, List.mem_singleton]
  · exact .inr rfl
  · refine ⟨List.any_eq_true.2 ⟨v, hv, hvalid⟩, List.any_eq_false.2 fun c hc => ?_, List.any_eq_false.2 hunopposed⟩
    obtain ⟨hpre, hno⟩ := (mem_keptAfter perms pre (hlisted c hc)).1 hc
    exact hnew c hpre (hlisted c hc) hno

theorem keptAfter_listed (h : WellListed perms) (pre post : List Word) (hperms : perms = pre ++ post) :
    (keptAfter perms pre).Nodup ∧ ∀ c ∈ keptAfter perms pre, c ∈ listPerms := by
  induction pre using List.reverseRecOn generalizing post with
  | nil => simp [keptAfter]
  | append_singleton pre comp ih =>
    rw [List.append_assoc, List.singleton_append] at hperms
    obtain ⟨hnodup, hlisted⟩ := ih (comp :: post) hperms
    by_cases hcomp : comp ∈ listPerms
    · rw [keptAfter_snoc]
      split_ifs with hadd
      · have hnew : comp ∉ keptAfter perms pre := by
          rw [← hasMatch_plain (listPerms_plain comp hcomp), hadd.2.1]
          exact Bool.false_ne_true
        constructor
        · rw [← List.concat_eq_append]
          exact hnodup.concat hnew
        · intro c hc
          rcases List.mem_append.1 hc with hc | hc
          · exact hlisted c hc
          · exact List.mem_singleton.1 hc ▸ hcomp
      · exact ⟨hnodup, hlisted⟩
    · rw [refused_skipped perms (h pre comp post hperms hcomp)]
      exact ⟨hnodup, hlisted⟩

theorem exact_iff : Exact perms (cleanUp none perms).kept ↔ WellListed perms := by
  change Exact perms (keptAfter perms perms) ↔ _
  constructor
  · rintro ⟨-, hmem⟩ pre comp post hperms hcomp
    by_contra hnot
    have hlisted : ∀ c ∈ keptAfter perms pre, c ∈ listPerms := by
      intro c hc
      have := keptAfter_sub perms pre (comp :: post) c hc
      rw [← hperms] at this
      exact ((hmem c).1 this).1
    have hkept := keptAfter_sub perms (pre ++ [comp]) post comp (unrefused_kept perms hnot hlisted)
    rw [List.append_assoc, List.singleton_append, ← hperms] at hkept
    exact hcomp ((hmem comp).1 hkept).1
  · intro h
    obtain ⟨hnodup, hlisted⟩ := keptAfter_listed perms h perms [] (List.append_nil perms).symm
    refine ⟨hnodup, fun c => ⟨fun hc => ⟨hlisted c hc, (mem_keptAfter perms perms (hlisted c hc)).1 hc⟩, ?_⟩⟩
    rintro ⟨hc, hmem⟩
    exact (mem_keptAfter perms perms hc).2 hmem

theorem plain_wellListed (h : ∀ comp ∈ perms, Plain comp) : WellListed perms := by
  rintro pre comp post hperms hcomp
  have hmem : comp ∈ perms := by simp [hperms]
  have hplain := h comp hmem
  have hstem : Plain (stem comp) := by
    unfold stem without
    split
    · exact fun c hc => hplain c (List.mem_of_mem_drop hc)
    · exact hplain
  by_cases hvalid : stem comp ∈ listPerms
  · refine .inr (.inr ⟨comp, hmem, (strMatch_plain (no_plain hstem) comp).2 ?_⟩)
    unfold stem without at hvalid ⊢
    split_ifs at hvalid ⊢ with hstart
    · obtain ⟨rest, hrest⟩ := hstart
      rw [no, ← hrest, List.drop_left]
    · exact absurd hvalid hcomp
  · refine .inl fun v hv => ?_
    rw [← Bool.not_eq_true, strMatch_plain hstem]
    rintro rfl
    exact hvalid hv

end

def Combined (comb : Comb) (components : List Word) (lists : Word → List Word) (lics result : List Word) : Prop :=
  result.Nodup ∧ ∀ c, c ∈ result ↔ c ∈ components ∧ Belongs comb lists lics c

/-- The same port with its licenses and their lists in another order. -/
def Reordered (p q : Port) : Prop :=
  q.lics.Perm p.lics ∧ q.known = p.known ∧ ∀ lic, (q.perms lic).Perm (p.perms lic) ∧ (q.groups lic).Perm (p.groups lic)

/-- The clean-up, the combination and its independence of any order. -/
def Algebra (p : Port) (comb : Comb) : Prop :=
  (∀ lic ∈ p.lics, p.known lic = false → Exact (p.perms lic) (licensePerms p lic)) ∧
    Combined comb listPerms (licensePerms p) p.lics (generalPerms p comb) ∧
    Combined comb namedGroups p.groups p.lics (generalGroups p comb) ∧
    ∀ q, Reordered p q →
      (generalPerms q comb).Perm (generalPerms p comb) ∧ (generalGroups q comb).Perm (generalGroups p comb)

theorem mem_licensePerms (p : Port) (lic : Word) {c : Word} (hc : c ∈ listPerms) :
    c ∈ licensePerms p lic ↔ c ∈ p.perms lic ∧ (p.known lic = true ∨ no c ∉ p.perms lic) := by
  unfold licensePerms
  cases hknown : p.known lic with
  | true => simp
  | false =>
    rw [if_neg Bool.false_ne_true, or_iff_right Bool.false_ne_true]
    exact mem_keptAfter (p.perms lic) (p.perms lic) hc

theorem generalPerms_combined (p : Port) (comb : Comb) :
    Combined comb listPerms (licensePerms p) p.lics (generalPerms p comb) :=
  ⟨nodup_combine comb listPerms_plain listPerms_nodup p.lics, mem_combine comb listPerms_plain p.lics⟩

theorem generalGroups_nil (p : Port) (comb : Comb) : generalGroups p comb = [] :=
  List.eq_nil_iff_forall_not_mem.2 fun c hc => by
    have hplain : ∀ comp ∈ listGroups, Plain comp := by simp [listGroups]
    exact List.not_mem_nil ((mem_combine comb hplain p.lics c).1 hc).1

theorem belongs_reordered {p q : Port} (h : Reordered p q) (comb : Comb) {c : Word} (hc : c ∈ listPerms) :
    Belongs comb (licensePerms q) q.lics c ↔ Belongs comb (licensePerms p) p.lics c := by
  obtain ⟨hlics, hknown, hlists⟩ := h
  have hsame : ∀ lic, c ∈ licensePerms q lic ↔ c ∈ licensePerms p lic := by
    intro lic
    rw [mem_licensePerms q lic hc, mem_licensePerms p lic hc, hknown, (hlists lic).1.mem_iff, (hlists lic).1.mem_iff]
  cases comb <;> simp only [Belongs, hsame, hlics.mem_iff]

theorem generalPerms_reordered {p q : Port} (h : Reordered p q) (comb : Comb) :
    (generalPerms q comb).Perm (generalPerms p comb) := by
  obtain ⟨hq, hqmem⟩ := generalPerms_combined q comb
  obtain ⟨hp, hpmem⟩ := generalPerms_combined p comb
  rw [List.perm_ext_iff_of_nodup hq hp]
  intro c
  rw [hqmem, hpmem]
  exact and_congr_right fun hc => belongs_reordered h comb hc

/-- The algebra holds exactly where no component with wildcards gets through the check and no
group is to be combined. -/
theorem algebra_iff (p : Port) (comb : Comb) :
    Algebra p comb ↔ (∀ lic ∈ p.lics, p.known lic = false → WellListed (p.perms lic)) ∧
      ∀ c ∈ namedGroups, ¬ Belongs comb p.groups p.lics c := by
  have hclean : ∀ lic, p.known lic = false → (Exact (p.perms lic) (licensePerms p lic) ↔ WellListed (p.perms lic)) := by
    intro lic hknown
    rw [← exact_iff, licensePerms, hknown]
    rfl
  constructor
  · rintro ⟨hexact, -, ⟨-, hgroups⟩, -⟩
    refine ⟨fun lic hlic hknown => (hclean lic hknown).1 (hexact lic hlic hknown), fun c hc hbelongs => ?_⟩
    have := (hgroups c).2 ⟨hc, hbelongs⟩
    rw [generalGroups_nil] at this
    exact List.not_mem_nil this
  · rintro ⟨hlisted, hnone⟩
    refine ⟨fun lic hlic hknown => (hclean lic hknown).2 (hlisted lic hlic hknown), generalPerms_combined p comb, ?_, ?_⟩
    · rw [generalGroups_nil]
      refine ⟨List.nodup_nil, fun c => ⟨fun hc => absurd hc List.not_mem_nil, ?_⟩⟩
      rintro ⟨hc, hbelongs⟩
      exact absurd hbelongs (hnone c hc)
    · intro q hq
      rw [generalGroups_nil, generalGroups_nil]
      exact ⟨generalPerms_reordered hq comb, .refl _⟩

/-- A license of the database with two groups and one of the port with a wildcard. -/
def wildcardPort : Port where
  lics := ["bsd2".toList, "custom".toList]
  known lic := lic = "bsd2".toList
  perms lic := if lic = "custom".toList then ["dist-*".toList]
    else ["dist-mirror".toList, "dist-sell".toList, "pkg-mirror".toList, "pkg-sell".toList, "auto-accept".toList]
  groups lic := if lic = "bsd2".toList then ["FSF".toList, "OSI".toList, "COPYFREE".toList] else []

theorem wildcard_kept :
    "dist-*".toList ∈ licensePerms wildcardPort "custom".toList ∧ "FSF".toList ∉ generalGroups wildcardPort .dual ∧
      ¬ Algebra wildcardPort .dual := by
  refine ⟨by decide, by decide, ?_⟩
  rintro ⟨-, -, ⟨-, hgroups⟩, -⟩
  have hfsf := (hgroups "FSF".toList).2 ⟨by decide, "bsd2".toList, by decide, by decide⟩
  rw [generalGroups_nil] at hfsf
  exact List.not_mem_nil hfsf

end Mports.LicensePermissions
