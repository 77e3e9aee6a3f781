import Mports.PerlText
import Mports.UserGroups
import Mathlib.Data.List.DropRight

set_option autoImplicit false

namespace Mports.UserGroupOffsets
open ShellText UserGroups

def HasId (line : List Char) (n : ℕ) : Prop := ∃ t, arg (entry line) n = .ok t ∧ ∃ id ∈ number t, id < 2 ^ 32

def HasText (line : List Char) (n : ℕ) : Prop := ∃ t, arg (entry line) n = .ok t ∧ t ≠ []

/-- The lines of the GID and the UID files, comments apart. -/
structure GroupEntry (line : List Char) : Prop where
  name : (line.splitOn ':').headD [] ≠ []
  one_line : '\n' ∉ line
  gid : HasId line 3

structure UserEntry (line : List Char) : Prop where
  uid : HasId line 3
  gid : HasId line 4
  homedir : HasText line 9
  shell : HasText line 10

def Comment (line : List Char) : Prop := line.head? = some '#'

instance (line : List Char) : Decidable (Comment line) := inferInstanceAs (Decidable (_ = _))

structure Format (s : Setup) : Prop where
  gid_files : firstMissing s s.gidFiles = none
  uid_files : firstMissing s s.uidFiles = none
  groups : ∀ line ∈ linesIn s s.gidFiles, ¬ Comment line → GroupEntry line
  users : ∀ line ∈ linesIn s s.uidFiles, ¬ Comment line → UserEntry line
  listed_groups : ∀ group ∈ fields s.groups, ∀ line ∈ linesIn s s.gidFiles, s.grep group line → ¬ Comment line
  listed_users : ∀ user ∈ fields s.users, ∀ line ∈ linesIn s s.uidFiles, s.grep user line → ¬ Comment line

def idOf (line : List Char) (n : ℕ) : Option ℕ := (arg (entry line) n).toOption.bind number

def homeOf (s : Setup) (line : List Char) : List Char := placed s ((entry line).getD 8 [])

def reachedGroups (s : Setup) : List (List Char) := (fields s.groups).takeWhile fun group => (groupLine s group).isSome
def reachedUsers (s : Setup) : List (List Char) :=
  if ∀ group ∈ fields s.groups, groupLine s group ≠ none then
    (fields s.users).takeWhile fun user => (userLine s user).isSome
  else []

/-- The sums are in range, and the groups that have the shifted gid are those that have the gid
where a home directory is made. -/
structure Shiftable (s : Setup) (u g : ℕ) : Prop where
  groups : ∀ group ∈ reachedGroups s, ∀ line ∈ groupLine s group, ∀ gid ∈ idOf line 3, gid + g < 2 ^ 63
  users : ∀ user ∈ reachedUsers s, ∀ line ∈ userLine s user, (∀ uid ∈ idOf line 3, uid + u < 2 ^ 63) ∧
    ∀ gid ∈ idOf line 4, gid + g < 2 ^ 63 ∧
      (homeOf s line ∉ homeless → owners s (gid + g : ℕ) = owners s gid)

section Parts
variable {f : Piece → Piece} {a a' b b' : Part}

/-- As many pieces, and the same end. -/
structure Alike (a b : Part) : Prop where
  length : a.out.length = b.out.length
  failure : a.failure = b.failure

theorem alike_andThen (ha : Alike a a') (hb : Alike b b') : Alike (a.andThen b) (a'.andThen b') := by
  unfold Part.andThen
  rw [ha.failure]
  split_ifs
  · exact ⟨by simp only [List.length_append, ha.length, hb.length], hb.failure⟩
  · exact ha

theorem map_out_iff (h : Alike a a') : a = a'.map f ↔ a.out = a'.out.map f := by
  cases a
  cases a'
  have hfail := h.failure
  simp only at hfail
  subst hfail
  simp [UserGroups.Part.map]

theorem andThen_map_iff (ha : Alike a a') (hb : Alike b b') :
    a.andThen b = (a'.andThen b').map f ↔ a = a'.map f ∧ (a'.failure = none → b = b'.map f) := by
  rw [map_out_iff (alike_andThen ha hb), map_out_iff ha, map_out_iff hb]
  unfold Part.andThen
  rw [ha.failure]
  by_cases hnone : a'.failure = none
  · rw [if_pos hnone, if_pos hnone, List.map_append, forall_prop_of_true hnone]
    constructor
    · intro h
      exact List.append_inj h (by rw [ha.length, List.length_map])
    · rintro ⟨h, h'⟩
      rw [h, h']
  · simp [hnone]

theorem andThen_map : (a.andThen b).map f = (a.map f).andThen (b.map f) := by
  unfold Part.andThen UserGroups.Part.map
  by_cases hnone : a.failure = none
  · simp [hnone]
  · simp [hnone]

theorem andThen_failure_iff : (a.andThen b).failure = none ↔ a.failure = none ∧ b.failure = none := by
  unfold Part.andThen
  split_ifs with hnone
  · simp [hnone]
  · simp [hnone]

theorem each_failure_iff {α : Type} (p : α → Part) (xs : List α) :
    (Part.each p xs).failure = none ↔ ∀ x ∈ xs, (p x).failure = none := by
  induction xs with
  | nil => simp [Part.each, Part.write]
  | cons x xs ih => rw [Part.each, andThen_failure_iff, List.forall_mem_cons, ih]

theorem alike_each {α : Type} {p q : α → Part} (xs : List α) (h : ∀ x ∈ xs, Alike (p x) (q x)) :
    Alike (Part.each p xs) (Part.each q xs) := by
  induction xs with
  | nil => exact ⟨rfl, rfl⟩
  | cons x xs ih =>
    exact alike_andThen (h x List.mem_cons_self) (ih fun y hy => h y (List.mem_cons_of_mem _ hy))

theorem each_map {α : Type} {p q : α → Part} (xs : List α) (h : ∀ x ∈ xs, p x = (q x).map f) :
    Part.each p xs = (Part.each q xs).map f := by
  induction xs with
  | nil => rfl
  | cons x xs ih =>
    rw [Part.each, Part.each, h x List.mem_cons_self, ih fun y hy => h y (List.mem_cons_of_mem _ hy), andThen_map]

theorem each_map_iff {α β : Type} (find : α → Option β) (p q : α → Part) (names : List α)
    (halike : ∀ x ∈ names, Alike (p x) (q x))
    (hfound : ∀ x ∈ names, (q x).failure = none ↔ (find x).isSome)
    (hunknown : ∀ x ∈ names, find x = none → p x = (q x).map f) :
    Part.each p names = (Part.each q names).map f ↔ ∀ x ∈ names.takeWhile fun x => (find x).isSome, p x = (q x).map f := by
  induction names with
  | nil => simp [Part.each, Part.write, UserGroups.Part.map]
  | cons x names ih =>
    have hrest := ih (fun y hy => halike y (List.mem_cons_of_mem _ hy))
      (fun y hy => hfound y (List.mem_cons_of_mem _ hy)) fun y hy => hunknown y (List.mem_cons_of_mem _ hy)
    have hx := hfound x List.mem_cons_self
    rw [Part.each, Part.each, andThen_map_iff (halike x List.mem_cons_self)
      (alike_each names fun y hy => halike y (List.mem_cons_of_mem _ hy)), hx, hrest]
    cases hfind : find x with
    | none => simpa [hfind] using hunknown x List.mem_cons_self hfind
    | some line => simp [hfind]

end Parts

section Blocks
variable {s : Setup} {line : List Char}

theorem shellAdd_small {n offset : ℕ} (h : n + offset < 2 ^ 63) : shellAdd n offset = (n + offset : ℕ) := by
  have hn : min n shellMax = n := Nat.min_eq_left (by unfold shellMax; omega)
  have ho : min offset shellMax = offset := Nat.min_eq_left (by unfold shellMax; omega)
  unfold shellAdd
  rw [hn, ho]
  exact Int.bmod_eq_of_le (by omega) (by omega)

theorem shellAdd_lt (n offset : ℕ) : shellAdd n offset < 2 ^ 63 := by
  have h := Int.bmod_lt (x := (min n shellMax + min offset shellMax : ℕ)) (m := 2 ^ 64) (by decide)
  unfold shellAdd
  omega

theorem shellAdd_shift_iff {n : ℕ} (hn : n < 2 ^ 32) (offset : ℕ) :
    shellAdd n offset = shellAdd n 0 + offset ↔ n + offset < 2 ^ 63 := by
  rw [shellAdd_small (show n + 0 < 2 ^ 63 by omega)]
  constructor
  · intro h
    have hlt := shellAdd_lt n offset
    omega
  · intro h
    rw [shellAdd_small h]
    omega

theorem arg_ok_iff {args : List (List Char)} {n : ℕ} {t : List Char} : arg args n = .ok t ↔ args[n - 1]? = some t := by
  unfold arg
  cases args[n - 1]? <;> simp

theorem arg_before {args : List (List Char)} {m n : ℕ} {t : List Char} (h : arg args n = .ok t) (hmn : m ≤ n) :
    ∃ t', arg args m = .ok t' := by
  have hlen := (List.getElem?_eq_some_iff.1 (arg_ok_iff.1 h)).1
  exact ⟨args[m - 1], arg_ok_iff.2 (List.getElem?_eq_getElem (by omega))⟩

theorem number_ne {t : List Char} {n : ℕ} (h : number t = some n) : t ≠ [] := by
  rintro rfl
  cases h

theorem idOf_eq {n : ℕ} {t : List Char} (h : arg (entry line) n = .ok t) : idOf line n = number t := by
  rw [idOf, h]
  rfl

theorem arith_eq {t : List Char} {n : ℕ} (h : number t = some n) (offset : ℕ) : arith t offset = .ok (shellAdd n offset) := by
  rw [arith, h]

theorem groupBlock_eq (h : HasId line 3) :
    ∃ group gid, idOf line 3 = some gid ∧ gid < 2 ^ 32 ∧
      ∀ g, groupBlock g line = .write (groupadd group (shellAdd gid g)) := by
  obtain ⟨t, ht, gid, hgid, hlt⟩ := h
  obtain ⟨group, hgroup⟩ := arg_before (m := 1) ht (by omega)
  refine ⟨group, gid, (idOf_eq ht).trans hgid, hlt, ?_⟩
  intro g
  unfold groupBlock
  simp only [hgroup, ht, bind, Except.bind, if_neg (number_ne hgid), arith_eq hgid]
  rfl

theorem membersBlock_eq (h : HasId line 3) :
    ∃ out : List Piece, (∀ u g, out.map (Piece.shift u g) = out) ∧ ∀ g, membersBlock s g line = .write out := by
  obtain ⟨t, ht, gid, hgid, hlt⟩ := h
  have happend : arg (entry line ++ [[]]) 3 = .ok t := by
    have hget := arg_ok_iff.1 ht
    rw [arg_ok_iff, List.getElem?_append_left (List.getElem?_eq_some_iff.1 hget).1, hget]
  obtain ⟨group, hgroup⟩ := arg_before (m := 1) happend (by omega)
  obtain ⟨members, hmembers⟩ : ∃ members, arg (entry line ++ [[]]) 4 = .ok members := by
    have hlen := (List.getElem?_eq_some_iff.1 (arg_ok_iff.1 ht)).1
    exact ⟨_, arg_ok_iff.2 (List.getElem?_eq_getElem (by rw [List.length_append, List.length_singleton]; omega))⟩
  refine ⟨(ifsFields ',' members).flatMap fun login =>
    ((fields s.users).filter (· = login)).flatMap fun _ => groupmod group login, ?_, ?_⟩
  · intro u g
    simp only [List.map_flatMap]
    rfl
  · intro g
    unfold membersBlock
    simp only [hgroup, happend, hmembers, bind, Except.bind, if_pos (number_ne hgid), arith_eq hgid]
    rfl

theorem readUser_eq (h : UserEntry line) (user : List Char) :
    ∃ (r : User) (uid gid : ℕ), idOf line 3 = some uid ∧ uid < 2 ^ 32 ∧ idOf line 4 = some gid ∧ gid < 2 ^ 32 ∧
      r.homedir = homeOf s line ∧
      ∀ u g, readUser s u g user line = .ok { r with uid := shellAdd uid u, gid := shellAdd gid g } := by
  obtain ⟨tu, htu, uid, huid, hult⟩ := h.uid
  obtain ⟨tg, htg, gid, hgid, hglt⟩ := h.gid
  obtain ⟨homedir, hhome, hhomene⟩ := h.homedir
  obtain ⟨shell, hshell, hshellne⟩ := h.shell
  obtain ⟨login, hlogin⟩ := arg_before (m := 1) hshell (by omega)
  obtain ⟨userClass, hclass⟩ := arg_before (m := 5) hshell (by omega)
  obtain ⟨gecos, hgecos⟩ := arg_before (m := 8) hshell (by omega)
  refine ⟨⟨login, 0, 0, if userClass = [] then [] else "-L ".toList ++ userClass, gecos, placed s homedir, shell⟩,
    uid, gid, (idOf_eq htu).trans huid, hult, (idOf_eq htg).trans hgid, hglt, ?_, ?_⟩
  · have hget := arg_ok_iff.1 hhome
    rw [homeOf, List.getD_eq_getElem?_getD, hget]
    rfl
  · intro u g
    have hvalid : ¬ (tu = [] ∨ tg = [] ∨ homedir = [] ∨ shell = []) := by
      simp [number_ne huid, number_ne hgid, hhomene, hshellne]
    unfold readUser
    simp only [hlogin, htu, htg, hclass, hgecos, hhome, hshell, bind, Except.bind, if_neg hvalid, arith_eq huid,
      arith_eq hgid]
    rfl

end Blocks

section Owners
variable {s : Setup}

theorem owners_plain (hs : Format s) (gid : ℤ) : ∀ name ∈ owners s gid, name ≠ [] ∧ '\n' ∉ name := by
  intro name hname
  obtain ⟨line, hline, rfl⟩ := List.mem_map.1 hname
  obtain ⟨hmem, hkept⟩ := List.mem_filter.1 hline
  have hcomment : ¬ Comment line := by
    intro h
    simp [show line.head? = some '#' from h] at hkept
  have hentry := hs.groups line hmem hcomment
  refine ⟨hentry.name, fun h => hentry.one_line ?_⟩
  cases hparts : line.splitOn ':' with
  | nil => simp [hparts] at h
  | cons part parts =>
    rw [hparts, List.headD_cons] at h
    have hpart : part ∈ line.splitOn ':' := by
      rw [hparts]
      exact List.mem_cons_self
    exact ShellText.part_subset hpart h

theorem ownerGroup_text (hs : Format s) {gid : ℤ} (hne : owners s gid ≠ []) :
    ownerGroup s gid ++ ['\n'] = (owners s gid).flatMap (· ++ ['\n']) ∧ ownerGroup s gid ≠ [] := by
  have hlast := owners_plain hs gid _ (List.getLast_mem hne)
  have hnames := List.dropLast_append_getLast hne
  generalize (owners s gid).dropLast = names at hnames
  generalize (owners s gid).getLast hne = last at hnames hlast
  have hend := List.dropLast_append_getLast hlast.1
  have hplain : last.getLast hlast.1 ≠ '\n' := fun h => hlast.2 (h ▸ List.getLast_mem hlast.1)
  generalize last.dropLast = part at hend
  generalize last.getLast hlast.1 = c at hend hplain
  have htext : (owners s gid).flatMap (· ++ ['\n']) = names.flatMap (· ++ ['\n']) ++ part ++ [c] ++ ['\n'] := by
    rw [← hnames, ← hend]
    simp
  have hgroup : ownerGroup s gid = names.flatMap (· ++ ['\n']) ++ part ++ [c] := by
    change ((owners s gid).flatMap (· ++ ['\n'])).rdropWhile (· = '\n') = _
    rw [htext, List.rdropWhile_concat_pos _ _ _ (by simp), List.rdropWhile_concat_neg _ _ _ (by simpa using hplain)]
  exact ⟨by rw [hgroup, htext], by simp [hgroup]⟩

theorem ownerGroup_eq_iff (hs : Format s) (a b : ℤ) : ownerGroup s a = ownerGroup s b ↔ owners s a = owners s b := by
  refine ⟨fun h => ?_, fun h => by rw [ownerGroup, ownerGroup, h]⟩
  have hempty : ∀ gid, owners s gid = [] → ownerGroup s gid = [] := by
    intro gid hnil
    rw [ownerGroup, hnil]
    rfl
  by_cases ha : owners s a = [] <;> by_cases hb : owners s b = []
  · rw [ha, hb]
  · exact absurd (h.symm.trans (hempty a ha)) (ownerGroup_text hs hb).2
  · exact absurd (h.trans (hempty b hb)) (ownerGroup_text hs ha).2
  · rw [← ifsFields_lines fun name hname => (owners_plain hs a name hname).2, ← (ownerGroup_text hs ha).1, h,
      (ownerGroup_text hs hb).1, ifsFields_lines fun name hname => (owners_plain hs b name hname).2]

end Owners

section Laws
variable {s : Setup} {u g : ℕ}

theorem groupBlock_map_iff {line : List Char} (h : HasId line 3) :
    groupBlock g line = (groupBlock 0 line).map (.shift u g) ↔ ∀ gid ∈ idOf line 3, gid + g < 2 ^ 63 := by
  obtain ⟨group, gid, hid, hlt, hblock⟩ := groupBlock_eq h
  rw [hblock, hblock, hid]
  simp only [Part.write, UserGroups.Part.map, UserGroups.Part.mk.injEq, groupadd, lit, List.map_cons, List.map_nil, Piece.shift,
    List.cons.injEq, Piece.gid.injEq, true_and, and_true, and_self, Option.mem_some_iff, forall_eq',
    shellAdd_shift_iff hlt]

theorem groupadd_alike (group : List Char) (gid gid' : ℤ) :
    Alike (.write (groupadd group gid)) (.write (groupadd group gid')) :=
  ⟨rfl, rfl⟩

theorem useradd_alike (r r' : User) : Alike (.write (useradd r)) (.write (useradd r')) := ⟨rfl, rfl⟩

theorem groupBlock_alike {line : List Char} (h : HasId line 3) :
    Alike (groupBlock g line) (groupBlock 0 line) ∧ (groupBlock 0 line).failure = none := by
  obtain ⟨group, gid, _, _, hblock⟩ := groupBlock_eq h
  rw [hblock, hblock]
  exact ⟨groupadd_alike _ _ _, rfl⟩

theorem installHome_alike (s : Setup) (group group' : List Char) (r r' : User) :
    Alike (.write (installHome s group r)) (.write (installHome s group' r')) :=
  ⟨rfl, rfl⟩

theorem homedirPart_alike (hs : Format s) (r r' : User) (hhome : r.homedir = r'.homedir) :
    Alike (homedirPart s r) (homedirPart s r') ∧ (homedirPart s r').failure = none := by
  unfold homedirPart
  rw [hhome, if_pos hs.gid_files, if_pos hs.gid_files]
  split_ifs
  · exact ⟨⟨rfl, rfl⟩, rfl⟩
  · exact ⟨alike_andThen ⟨rfl, rfl⟩ (installHome_alike _ _ _ _ _), rfl⟩

theorem useradd_map_iff (r : User) (uid uid' gid gid' : ℤ) :
    Part.write (useradd { r with uid := uid, gid := gid }) =
        (Part.write (useradd { r with uid := uid', gid := gid' })).map (.shift u g) ↔
      uid = uid' + u ∧ gid = gid' + g := by
  simp [Part.write, UserGroups.Part.map, useradd, lit, Piece.shift]

theorem homedirPart_map_iff (hs : Format s) (r : User) (uid uid' gid gid' : ℤ) :
    homedirPart s { r with uid := uid, gid := gid } =
        (homedirPart s { r with uid := uid', gid := gid' }).map (.shift u g) ↔
      (r.homedir ∉ homeless → owners s gid = owners s gid') := by
  unfold homedirPart
  rw [if_pos hs.gid_files, if_pos hs.gid_files]
  split_ifs with hless
  · simp [hless, Part.write, UserGroups.Part.map]
  · simp only [hless, not_false_eq_true, forall_const, ← ownerGroup_eq_iff hs]
    simp [Part.andThen, Part.write, UserGroups.Part.map, installHome, lit, Piece.shift]

def userParts (s : Setup) (r : User) (uid gid : ℤ) : Part :=
  (Part.write (useradd { r with uid := uid, gid := gid })).andThen (homedirPart s { r with uid := uid, gid := gid })

theorem userParts_alike (hs : Format s) (r : User) (uid uid' gid gid' : ℤ) :
    Alike (userParts s r uid gid) (userParts s r uid' gid') ∧ (userParts s r uid' gid').failure = none := by
  have hhome := homedirPart_alike hs { r with uid := uid, gid := gid } { r with uid := uid', gid := gid' } rfl
  exact ⟨alike_andThen (useradd_alike _ _) hhome.1, hhome.2⟩

theorem userParts_map_iff (hs : Format s) (r : User) (uid uid' gid gid' : ℤ) :
    userParts s r uid gid = (userParts s r uid' gid').map (.shift u g) ↔
      uid = uid' + u ∧ gid = gid' + g ∧ (r.homedir ∉ homeless → owners s gid = owners s gid') := by
  have hhome := homedirPart_alike hs { r with uid := uid, gid := gid } { r with uid := uid', gid := gid' } rfl
  unfold userParts
  rw [andThen_map_iff (useradd_alike _ _) hhome.1, useradd_map_iff, homedirPart_map_iff hs, and_assoc]
  simp only [Part.write, forall_const]

theorem userBlock_eq {line : List Char} (h : UserEntry line) (user : List Char) :
    ∃ (r : User) (uid gid : ℕ), idOf line 3 = some uid ∧ uid < 2 ^ 32 ∧ idOf line 4 = some gid ∧ gid < 2 ^ 32 ∧
      r.homedir = homeOf s line ∧
      ∀ u g, userBlock s u g user line = userParts s r (shellAdd uid u) (shellAdd gid g) := by
  obtain ⟨r, uid, gid, huid, hult, hgid, hglt, hhome, hread⟩ := readUser_eq (s := s) h user
  refine ⟨r, uid, gid, huid, hult, hgid, hglt, hhome, ?_⟩
  intro u g
  rw [userBlock, hread]
  rfl

theorem userBlock_alike (hs : Format s) {line : List Char} (h : UserEntry line) (user : List Char) :
    Alike (userBlock s u g user line) (userBlock s 0 0 user line) ∧ (userBlock s 0 0 user line).failure = none := by
  obtain ⟨r, uid, gid, _, _, _, _, _, hblock⟩ := userBlock_eq (s := s) h user
  rw [hblock, hblock]
  exact userParts_alike hs r _ _ _ _

theorem userBlock_map_iff (hs : Format s) {line : List Char} (h : UserEntry line) (user : List Char) :
    userBlock s u g user line = (userBlock s 0 0 user line).map (.shift u g) ↔
      (∀ uid ∈ idOf line 3, uid + u < 2 ^ 63) ∧ ∀ gid ∈ idOf line 4, gid + g < 2 ^ 63 ∧
        (homeOf s line ∉ homeless → owners s (gid + g : ℕ) = owners s gid) := by
  obtain ⟨r, uid, gid, huid, hult, hgid, hglt, hhome, hblock⟩ := userBlock_eq (s := s) h user
  have hzero : shellAdd gid 0 = gid := shellAdd_small (show gid + 0 < 2 ^ 63 by omega)
  rw [hblock, hblock, userParts_map_iff hs, shellAdd_shift_iff hult, shellAdd_shift_iff hglt, hhome, hzero, huid, hgid]
  simp only [Option.mem_some_iff, forall_eq']
  refine and_congr_right fun _ => and_congr_right fun hg => ?_
  rw [shellAdd_small hg]

theorem groupEntry_of_found (hs : Format s) {group line : List Char} (hmem : group ∈ fields s.groups)
    (h : groupLine s group = some line) : GroupEntry line :=
  hs.groups line (List.mem_of_find?_eq_some h) (hs.listed_groups group hmem line (List.mem_of_find?_eq_some h) (List.find?_some h))

theorem userEntry_of_found (hs : Format s) {user line : List Char} (hmem : user ∈ fields s.users)
    (h : userLine s user = some line) : UserEntry line :=
  hs.users line (List.mem_of_find?_eq_some h) (hs.listed_users user hmem line (List.mem_of_find?_eq_some h) (List.find?_some h))

theorem groupRound_alike (hs : Format s) {group : List Char} (hmem : group ∈ fields s.groups) :
    Alike (groupRound s g group) (groupRound s 0 group) ∧
      ((groupRound s 0 group).failure = none ↔ (groupLine s group).isSome) := by
  unfold groupRound
  cases hline : groupLine s group with
  | none => exact ⟨⟨rfl, rfl⟩, by simp [Part.fail]⟩
  | some line =>
    obtain ⟨halike, hends⟩ := groupBlock_alike (g := g) (groupEntry_of_found hs hmem hline).gid
    exact ⟨halike, by simp [hends]⟩

theorem userRound_alike (hs : Format s) {user : List Char} (hmem : user ∈ fields s.users) :
    Alike (userRound s u g user) (userRound s 0 0 user) ∧
      ((userRound s 0 0 user).failure = none ↔ (userLine s user).isSome) := by
  unfold userRound
  cases hline : userLine s user with
  | none => exact ⟨⟨rfl, rfl⟩, by simp [Part.fail]⟩
  | some line =>
    obtain ⟨halike, hends⟩ := userBlock_alike (u := u) (g := g) hs (userEntry_of_found hs hmem hline) user
    exact ⟨halike, by simp [hends]⟩

theorem groupsPart_eq (hs : Format s) (g : ℕ) :
    groupsPart s g = (Part.write (if s.groups = [] then [] else [lit "echo \"===> Creating groups.\"\n"])).andThen
      (Part.each (groupRound s g) (fields s.groups)) := by
  rw [groupsPart, hs.gid_files]
  split_ifs with hnil
  · rw [hnil]
    rfl
  · rfl

theorem usersPart_eq (hs : Format s) (u g : ℕ) :
    usersPart s u g = (Part.write (if s.users = [] then [] else [lit "echo \"===> Creating users\"\n"])).andThen
      (Part.each (userRound s u g) (fields s.users)) := by
  rw [usersPart, hs.uid_files]
  split_ifs with hnil
  · rw [hnil]
    rfl
  · rfl

theorem loop_map_iff {names : List (List Char)} (find : List Char → Option (List Char)) {p q : List Char → Part}
    {head : List Piece} (hhead : head.map (.shift u g) = head) (halike : ∀ x ∈ names, Alike (p x) (q x))
    (hfound : ∀ x ∈ names, (q x).failure = none ↔ (find x).isSome)
    (hunknown : ∀ x ∈ names, find x = none → p x = (q x).map (.shift u g)) :
    (Part.write head).andThen (Part.each p names) =
        ((Part.write head).andThen (Part.each q names)).map (.shift u g) ↔
      ∀ x ∈ names.takeWhile fun x => (find x).isSome, p x = (q x).map (.shift u g) := by
  rw [andThen_map_iff ⟨rfl, rfl⟩ (alike_each names halike), each_map_iff find p q names halike hfound hunknown]
  simp [Part.write, UserGroups.Part.map, hhead]

theorem loop_alike {names : List (List Char)} {p q : List Char → Part} (head : List Piece)
    (halike : ∀ x ∈ names, Alike (p x) (q x)) :
    Alike ((Part.write head).andThen (Part.each p names)) ((Part.write head).andThen (Part.each q names)) :=
  alike_andThen ⟨rfl, rfl⟩ (alike_each names halike)

theorem groupsPart_alike (hs : Format s) : Alike (groupsPart s g) (groupsPart s 0) := by
  rw [groupsPart_eq hs, groupsPart_eq hs]
  exact loop_alike _ fun group hmem => (groupRound_alike hs hmem).1

theorem usersPart_alike (hs : Format s) : Alike (usersPart s u g) (usersPart s 0 0) := by
  rw [usersPart_eq hs, usersPart_eq hs]
  exact loop_alike _ fun user hmem => (userRound_alike hs hmem).1

theorem groupsPart_failure_iff (hs : Format s) :
    (groupsPart s 0).failure = none ↔ ∀ group ∈ fields s.groups, groupLine s group ≠ none := by
  rw [groupsPart_eq hs, andThen_failure_iff, each_failure_iff]
  refine (and_iff_right rfl).trans (forall₂_congr fun group hmem => ?_)
  rw [(groupRound_alike (g := 0) hs hmem).2, Option.isSome_iff_ne_none]

theorem groupsPart_map_iff (hs : Format s) :
    groupsPart s g = (groupsPart s 0).map (.shift u g) ↔
      ∀ group ∈ reachedGroups s, ∀ line ∈ groupLine s group, ∀ gid ∈ idOf line 3, gid + g < 2 ^ 63 := by
  rw [groupsPart_eq hs, groupsPart_eq hs, loop_map_iff (groupLine s) (by split_ifs <;> rfl)
    (fun group hmem => (groupRound_alike hs hmem).1) (fun group hmem => (groupRound_alike (g := 0) hs hmem).2) ?_]
  · refine forall₂_congr fun group hmem => ?_
    have hlisted := (List.takeWhile_sublist _).subset hmem
    unfold groupRound
    cases hline : groupLine s group with
    | none => simp [Part.fail, UserGroups.Part.map]
    | some line =>
      have hentry := groupEntry_of_found hs hlisted hline
      simpa using groupBlock_map_iff hentry.gid
  · intro group _ hline
    rw [groupRound, groupRound, hline]
    rfl

theorem usersPart_map_iff (hs : Format s) :
    usersPart s u g = (usersPart s 0 0).map (.shift u g) ↔
      ∀ user ∈ (fields s.users).takeWhile fun user => (userLine s user).isSome, ∀ line ∈ userLine s user,
        (∀ uid ∈ idOf line 3, uid + u < 2 ^ 63) ∧ ∀ gid ∈ idOf line 4, gid + g < 2 ^ 63 ∧
          (homeOf s line ∉ homeless → owners s (gid + g : ℕ) = owners s gid) := by
  rw [usersPart_eq hs, usersPart_eq hs, loop_map_iff (userLine s) (by split_ifs <;> rfl)
    (fun user hmem => (userRound_alike hs hmem).1) (fun user hmem => (userRound_alike (u := 0) (g := 0) hs hmem).2) ?_]
  · refine forall₂_congr fun user hmem => ?_
    have hlisted := (List.takeWhile_sublist _).subset hmem
    unfold userRound
    cases hline : userLine s user with
    | none => simp [Part.fail, UserGroups.Part.map]
    | some line =>
      have hentry := userEntry_of_found hs hlisted hline
      simpa using userBlock_map_iff hs hentry user
  · intro user _ hline
    rw [userRound, userRound, hline]
    rfl

theorem membersBlock_map (hs : Format s) {group : List Char} (hmem : group ∈ fields s.groups) (u g : ℕ) :
    membersBlock s g ((groupLine s group).getD []) =
      (membersBlock s 0 ((groupLine s group).getD [])).map (.shift u g) := by
  cases hline : groupLine s group with
  | none => rfl
  | some line =>
    obtain ⟨out, hout, hblock⟩ := membersBlock_eq (s := s) (groupEntry_of_found hs hmem hline).gid
    rw [Option.getD_some, hblock, hblock, UserGroups.Part.map, Part.write, hout]

theorem membersPart_map (hs : Format s) (u g : ℕ) : membersPart s g = (membersPart s 0).map (.shift u g) := by
  unfold membersPart
  split_ifs
  · rfl
  · exact each_map _ fun group hmem => membersBlock_map hs hmem u g

theorem membersPart_alike (hs : Format s) : Alike (membersPart s g) (membersPart s 0) := by
  rw [membersPart_map hs 0 g]
  exact ⟨List.length_map _, rfl⟩

theorem installPart_alike (hs : Format s) : Alike (installPart s u g) (installPart s 0 0) :=
  alike_andThen (groupsPart_alike hs) (alike_andThen (usersPart_alike hs) (membersPart_alike hs))

theorem installPart_map_iff (hs : Format s) :
    installPart s u g = (installPart s 0 0).map (.shift u g) ↔ Shiftable s u g := by
  unfold installPart
  rw [andThen_map_iff (groupsPart_alike hs) (alike_andThen (usersPart_alike hs) (membersPart_alike hs)),
    andThen_map_iff (usersPart_alike hs) (membersPart_alike hs), groupsPart_map_iff hs, groupsPart_failure_iff hs,
    usersPart_map_iff hs]
  constructor
  · rintro ⟨hgroups, husers⟩
    refine ⟨hgroups, ?_⟩
    unfold reachedUsers
    split_ifs with hknown
    · exact (husers hknown).1
    · simp
  · intro h
    refine ⟨h.groups, fun hknown => ⟨?_, fun _ => membersPart_map hs u g⟩⟩
    have husers := h.users
    rwa [reachedUsers, if_pos hknown] at husers

theorem header_shift (s : Setup) (u g : ℕ) : (header s).map (.shift u g) = header s := by
  unfold header
  split_ifs <;> rfl

theorem deinstall_shift (s : Setup) (u g : ℕ) : (deinstall s).map (.shift u g) = deinstall s := by
  simp only [deinstall, List.map_append, List.map_flatMap]
  rfl

theorem scripts_shift_iff (hs : Format s) :
    scripts s u g = (scripts s 0 0).shift u g ↔ installPart s u g = (installPart s 0 0).map (.shift u g) := by
  have halike := installPart_alike (u := u) (g := g) hs
  rw [map_out_iff halike]
  unfold scripts Scripts.shift
  rw [Scripts.mk.injEq, halike.failure, List.map_append, List.map_append, header_shift]
  constructor
  · rintro ⟨hinstall, -, -⟩
    exact List.append_cancel_left hinstall
  · intro h
    refine ⟨by rw [h], ?_, rfl⟩
    split_ifs
    · rw [deinstall_shift]
    · rfl

theorem offsets_shift_iff (s : Setup) (hs : Format s) (u g : ℕ) :
    scripts s u g = (scripts s 0 0).shift u g ↔ Shiftable s u g := by
  rw [scripts_shift_iff hs, installPart_map_iff hs]

end Laws

/-- A user of the UID files with a home directory, whose group has the gid 1. -/
def gnats : Setup where
  opsys := "MidnightBSD".toList
  pw := "pw".toList
  install := "install".toList
  dpPrefix := "/usr/local".toList
  gidFiles := "GIDs".toList
  uidFiles := "UIDs".toList
  usersBlacklist := []
  groupsBlacklist := []
  users := "gnats".toList
  groups := []
  disk file :=
    if file = "GIDs".toList then some ["daemon:*:1:".toList]
    else some ["gnats:*:61:1::0:0:GNATS:/home/gnats:/bin/sh".toList]
  grep name line := (name ++ [':']).isPrefixOf line
  grepWord _ _ := false

def gnatsEntry : List Char := "gnats:*:61:1::0:0:GNATS:/home/gnats:/bin/sh".toList

theorem gnats_lines :
    linesIn gnats gnats.gidFiles = ["daemon:*:1:".toList] ∧ linesIn gnats gnats.uidFiles = [gnatsEntry] := by
  decide +kernel

theorem gnats_line : userLine gnats "gnats".toList = some gnatsEntry := by
  rw [userLine, gnats_lines.2]
  decide +kernel

theorem gnats_format : Format gnats where
  gid_files := by decide +kernel
  uid_files := by decide +kernel
  groups := by
    rw [gnats_lines.1, List.forall_mem_singleton]
    intro _
    exact ⟨by decide +kernel, by decide +kernel, "1".toList, by decide +kernel, 1, by decide, by decide⟩
  users := by
    rw [gnats_lines.2, List.forall_mem_singleton]
    intro _
    exact ⟨⟨"61".toList, by decide +kernel, 61, by decide, by decide⟩, ⟨"1".toList, by decide +kernel, 1, by decide, by decide⟩,
      ⟨"/home/gnats".toList, by decide +kernel, by decide⟩, ⟨"/bin/sh".toList, by decide +kernel, by decide⟩⟩
  listed_groups := by
    intro group hgroup
    cases hgroup
  listed_users := by
    rw [gnats_lines.2]
    intro user _
    rw [List.forall_mem_singleton]
    intro _
    decide +kernel

theorem gnats_unshifted : Format gnats ∧ scripts gnats 0 1000 ≠ (scripts gnats 0 0).shift 0 1000 := by
  refine ⟨gnats_format, fun h => ?_⟩
  have hshift := (installPart_map_iff gnats_format).1 ((scripts_shift_iff gnats_format).1 h)
  have howner := (hshift.users "gnats".toList (by decide +kernel) _ gnats_line).2 1 (by decide +kernel)
  exact absurd (howner.2 (by decide +kernel)) (by decide +kernel)

theorem gnats_users_shift : scripts gnats 1000 0 = (scripts gnats 0 0).shift 1000 0 ↔ Shiftable gnats 1000 0 :=
  offsets_shift_iff gnats gnats_format 1000 0

end Mports.UserGroupOffsets
