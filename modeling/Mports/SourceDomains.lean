import Mports.DistfilePaths
import Mports.GlobalMatches
import Mports.PerlText
import Mathlib.Data.Char
import Mathlib.Data.List.Lex
import Mathlib.Data.List.TakeWhile

set_option autoImplicit false

namespace Mports.SourceDomains
open PerlText GlobalMatches
open DistfilePaths (isControl)

/-- `make_var`, from the exit code and the output of `make -V`. -/
def makeVar (exit : ℕ) (out : List Char) : List Char :=
  if exit ≠ 0 then []
  else
    let out := chomped out
    if out.any isControl then [] else out

/-- `[/\s:]`. -/
def isStop (c : Char) : Bool := c = '/' || c = ':' || isSpace c

/-- `(?:https?|ftp)://` without regard to case: what is behind it. -/
def afterScheme (text : List Char) : Option (List Char) :=
  if "https://".toList <+: lc text then some (text.drop 8)
  else if "http://".toList <+: lc text then some (text.drop 7)
  else if "ftp://".toList <+: lc text then some (text.drop 6)
  else none

/-- `(?:https?|ftp)://([^/\s:]+)` at the beginning of a text. -/
def siteFirst (text : List Char) : Option (List Char × List Char) :=
  match afterScheme text with
  | none => none
  | some rest =>
    if rest.takeWhile (!isStop ·) = [] then none
    else some (rest.takeWhile (!isStop ·), rest.dropWhile (!isStop ·))

/-- `[A-Za-z0-9.-]+`. -/
def isDomain (text : List Char) : Bool :=
  text ≠ [] && text.all fun c => c.isAlphanum || c = '.' || c = '-'

/-- `lc` and `s/\.$//`. -/
def normal (name : List Char) : List Char :=
  if (lc name).getLast? = some '.' then (lc name).dropLast else lc name

theorem afterScheme_shorter {text rest : List Char} (h : afterScheme text = some rest) : rest.length < text.length := by
  have hlen : ∀ n, ∀ scheme : List Char, scheme.length = n → 0 < n → scheme <+: lc text →
      (text.drop n).length < text.length := by
    intro n scheme hn hpos hpre
    have := hpre.length_le
    rw [lc, List.length_map] at this
    rw [List.length_drop]
    omega
  unfold afterScheme at h
  split at h
  · exact Option.some.inj h ▸ hlen 8 _ rfl (by decide) ‹_›
  split at h
  · exact Option.some.inj h ▸ hlen 7 _ rfl (by decide) ‹_›
  split at h
  · exact Option.some.inj h ▸ hlen 6 _ rfl (by decide) ‹_›
  · cases h

def site : Pattern Char (List Char) where
  first := siteFirst
  shorter {text name rest} h := by
    unfold siteFirst at h
    split at h
    · cases h
    · rename_i behind hbehind
      split at h
      · cases h
      · cases h
        exact (List.length_dropWhile_le _ _).trans_lt (afterScheme_shorter hbehind)

/-- `master_site_domains`, from the value that `make_var` returns. -/
def masterSiteDomains (masterSites : List Char) : List (List Char) :=
  ((((all site masterSites).map normal).filter (isDomain ·)).eraseDups).mergeSort (· ≤ ·)

def entryOf (line : List Char) : Option (List Char) :=
  let line := trim (line.takeWhile (· ≠ '#'))
  if line = [] then none
  else
    let line := (((lc line).dropWhile (· = '.')).reverse.dropWhile (· = '.')).reverse
    if isDomain line then some line else none

/-- `source_domain_allowlist` of a file. -/
def entries (file : List Char) : List (List Char) := (file.splitOn '\n').filterMap entryOf

def domainIsAllowlisted (domain : List Char) (allow : List (List Char)) : Bool :=
  allow.any fun entry => lc domain = entry || ('.' :: entry).isSuffixOf (lc domain)

structure Warning where
  name : List Char
  msg : List Char
  deriving DecidableEq, Repr

/-- `allowlist` is the content of the file SourceDomainAllowlist, when there is one that can
be read; `quad9Blocks` is what the two resolvers say. -/
structure Setup where
  allowlist : Option (List Char)
  quad9Check : Bool
  quad9Blocks : List Char → Bool

def unknown : List Char := "SourceIntegrityUnknownMasterSiteDomain".toList
def blocked : List Char := "SourceIntegrityQuad9BlockedDomain".toList

def sourceDomainWarnings (s : Setup) (exit : ℕ) (out : List Char) : List Warning :=
  let domains := masterSiteDomains (makeVar exit out)
  (match s.allowlist with
    | none => []
    | some file => (domains.filter (!domainIsAllowlisted · (entries file))).map fun d =>
      ⟨unknown, "MASTER_SITES contains domain not in source allowlist: ".toList ++ d⟩) ++
  (if s.quad9Check then (domains.filter s.quad9Blocks).map fun d =>
      ⟨blocked, "Quad9 malware-blocking resolver blocks MASTER_SITES domain: ".toList ++ d⟩
    else [])

/-- `scheme://[userinfo@]host[:port]/...`, in which a host with colons stands in brackets. -/
structure Url where
  scheme : List Char
  userinfo : Option (List Char)
  host : List Char
  port : Option (List Char)
  path : List Char
  scheme_known : lc scheme ∈ ["https".toList, "http".toList, "ftp".toList]
  userinfo_text : ∀ u ∈ userinfo, ∀ c ∈ u, c ≠ '/' ∧ c ≠ '@' ∧ isSpace c = false
  host_nonempty : host ≠ []
  host_text : ∀ c ∈ host, c ≠ '/' ∧ c ≠ '@' ∧ isSpace c = false
  host_colon : ':' ∈ host → host.head? = some '[' ∧ host.getLast? = some ']'
  port_text : ∀ p ∈ port, ∀ c ∈ p, c.isDigit
  path_text : ∀ c ∈ path, isSpace c = false

def Url.text (u : Url) : List Char :=
  u.scheme ++ "://".toList ++ (u.userinfo.elim [] (· ++ ['@']) ++ (u.host ++ (u.port.elim [] (':' :: ·) ++ '/' :: u.path)))

def Url.Bare (u : Url) : Prop := u.userinfo = none ∧ isDomain (normal u.host)

def words (value : List Char) : List (List Char) := value.splitOnP isSpace

/-- An entry or below one, without regard to case and one dot at the end. -/
def Listed (allow : List (List Char)) (host : List Char) : Prop :=
  ∃ entry ∈ allow, normal host = entry ∨ '.' :: entry <:+ normal host

/-- The warnings for a value that `make` prints. -/
def Warned (s : Setup) (value : List Char) : Prop :=
  ∃ w ∈ sourceDomainWarnings s 0 (value ++ ['\n']), w.name = unknown

section Names

theorem toLower_twice (c : Char) : c.toLower.toLower = c.toLower := by
  delta Char.toLower
  grind

theorem lc_lc (text : List Char) : lc (lc text) = lc text := by
  simp only [lc, List.map_map]
  exact List.map_congr_left fun c _ => toLower_twice c

theorem lc_normal (name : List Char) : lc (normal name) = normal name := by
  unfold normal
  split
  · rw [lc, List.map_dropLast]
    exact congrArg List.dropLast (lc_lc name)
  · exact lc_lc name

theorem allowlisted_iff {allow : List (List Char)} {name : List Char} :
    domainIsAllowlisted (normal name) allow ↔ Listed allow name := by
  simp [domainIsAllowlisted, Listed, lc_normal, List.isSuffixOf_iff_suffix]

theorem mem_masterSiteDomains {value d : List Char} :
    d ∈ masterSiteDomains value ↔ ∃ name, Reads site value name ∧ normal name = d ∧ isDomain d := by
  simp only [masterSiteDomains, List.mem_mergeSort, List.mem_eraseDups, List.mem_filter, List.mem_map, mem_all]
  constructor
  · rintro ⟨⟨name, hread, rfl⟩, hd⟩
    exact ⟨name, hread, rfl, hd⟩
  · rintro ⟨name, hread, rfl, hd⟩
    exact ⟨⟨name, hread, rfl⟩, hd⟩

theorem makeVar_printed (value : List Char) :
    makeVar 0 (value ++ ['\n']) = if value.any isControl then [] else value := by
  have hchomp : chomped (value ++ ['\n']) = value := by
    simp [chomped]
  simp [makeVar, hchomp]

theorem warned_iff {s : Setup} {value : List Char} :
    Warned s value ↔ ∃ file, s.allowlist = some file ∧ value.any isControl = false ∧
      ∃ name, Reads site value name ∧ isDomain (normal name) ∧ ¬ Listed (entries file) name := by
  have hwarn : Warned s value ↔ ∃ file, s.allowlist = some file ∧
      ∃ d ∈ masterSiteDomains (makeVar 0 (value ++ ['\n'])), domainIsAllowlisted d (entries file) = false := by
    rw [Warned, sourceDomainWarnings]
    generalize masterSiteDomains (makeVar 0 (value ++ ['\n'])) = domains
    constructor
    · rintro ⟨w, hw, hname⟩
      rcases List.mem_append.1 hw with hw | hw
      · cases hfile : s.allowlist with
        | none => simp [hfile] at hw
        | some file =>
          simp only [hfile, List.mem_map, List.mem_filter, Bool.not_eq_true'] at hw
          obtain ⟨d, ⟨hd, hallow⟩, rfl⟩ := hw
          exact ⟨file, rfl, d, hd, hallow⟩
      · -- the other warning has another name
        split at hw
        · obtain ⟨d, _, rfl⟩ := List.mem_map.1 hw
          exact absurd hname (show blocked ≠ unknown by decide)
        · cases hw
    · rintro ⟨file, hfile, d, hd, hallow⟩
      refine ⟨⟨unknown, "MASTER_SITES contains domain not in source allowlist: ".toList ++ d⟩,
        List.mem_append_left _ ?_, rfl⟩
      rw [hfile]
      exact List.mem_map.2 ⟨d, List.mem_filter.2 ⟨hd, by simp [hallow]⟩, rfl⟩
  rw [hwarn, makeVar_printed]
  refine exists_congr fun file => and_congr_right fun _ => ?_
  by_cases hctl : value.any isControl
  · simp only [hctl, if_true, Bool.true_eq_false, false_and, iff_false]
    rintro ⟨d, hd, -⟩
    obtain ⟨name, hread, -⟩ := mem_masterSiteDomains.1 hd
    exact absurd (mem_all.2 hread) (by simp)
  · rw [if_neg hctl]
    simp only [Bool.eq_false_iff.2 hctl, true_and]
    constructor
    · rintro ⟨d, hd, hallow⟩
      obtain ⟨name, hread, rfl, hdomain⟩ := mem_masterSiteDomains.1 hd
      exact ⟨name, hread, hdomain, fun h => by simp [allowlisted_iff.2 h] at hallow⟩
    · rintro ⟨name, hread, hdomain, hlisted⟩
      exact ⟨_, mem_masterSiteDomains.2 ⟨name, hread, rfl, hdomain⟩,
        Bool.eq_false_iff.2 fun h => hlisted (allowlisted_iff.1 h)⟩

end Names

section Words

theorem toLower_space {c : Char} (h : isSpace c) : c.toLower = c := by
  simp only [isSpace, Bool.or_eq_true, decide_eq_true_eq] at h
  rcases h with ((((rfl | rfl) | rfl) | rfl) | rfl) | rfl <;> decide

theorem scheme_before {scheme a b : List Char} {c : Char} (hscheme : ∀ x ∈ scheme, isSpace x = false) (hc : isSpace c) :
    scheme <+: lc (a ++ c :: b) ↔ scheme <+: lc a := by
  have hlc : lc (a ++ c :: b) = lc a ++ c :: lc b := by
    simp [lc, toLower_space hc]
  rw [hlc]
  constructor
  · intro h
    rcases Nat.lt_or_ge (lc a).length scheme.length with hlen | hlen
    · -- then the white space would be in it
      have hmem : (lc a ++ [c]) <+: scheme :=
        List.prefix_of_prefix_length_le (by simp) h (by rw [List.length_append]; exact hlen)
      have := hscheme c (hmem.subset (by simp))
      simp [hc] at this
    · exact List.prefix_of_prefix_length_le h (List.prefix_append _ _) hlen
  · exact fun h => h.trans (List.prefix_append _ _)

theorem afterScheme_append (a b : List Char) {c : Char} (hc : isSpace c) :
    afterScheme (a ++ c :: b) = (afterScheme a).map (· ++ c :: b) := by
  have hdrop : ∀ (n : ℕ) (scheme : List Char), scheme.length = n → scheme <+: lc a →
      (a ++ c :: b).drop n = a.drop n ++ c :: b := by
    rintro n scheme rfl h
    have := h.length_le
    rw [lc, List.length_map] at this
    exact List.drop_append_of_le_length this
  have hhttps : ∀ x ∈ "https://".toList, isSpace x = false := plain_of_any (by decide)
  have hhttp : ∀ x ∈ "http://".toList, isSpace x = false := plain_of_any (by decide)
  have hftp : ∀ x ∈ "ftp://".toList, isSpace x = false := plain_of_any (by decide)
  simp only [afterScheme, scheme_before hhttps hc, scheme_before hhttp hc, scheme_before hftp hc]
  split
  · exact congrArg some (hdrop 8 _ rfl ‹_›)
  split
  · exact congrArg some (hdrop 7 _ rfl ‹_›)
  split
  · exact congrArg some (hdrop 6 _ rfl ‹_›)
  · rfl

theorem part_append (p : Char → Bool) {c : Char} (hc : p c = false) (a b : List Char) :
    (a ++ c :: b).takeWhile p = a.takeWhile p ∧ (a ++ c :: b).dropWhile p = a.dropWhile p ++ c :: b := by
  induction a with
  | nil => simp [hc]
  | cons x a ih => by_cases hx : p x <;> simp [hx, ih.1, ih.2]

theorem site_bounded : Bounded site isSpace := by
  intro a c b hc
  have hstop : (!isStop c) = false := by
    simp [isStop, hc]
  show siteFirst (a ++ c :: b) = (siteFirst a).map fun r => (r.1, r.2 ++ c :: b)
  rw [siteFirst, siteFirst, afterScheme_append a b hc]
  cases afterScheme a with
  | none => rfl
  | some rest =>
    have hpart := part_append (!isStop ·) hstop rest b
    simp only [Option.map_some, hpart.1, hpart.2]
    split <;> rfl

theorem normal_colon {name : List Char} (h : isDomain (normal name)) : ':' ∉ name := by
  intro hmem
  have hlc : ':' ∈ lc name := List.mem_map.2 ⟨':', hmem, rfl⟩
  have hnormal : ':' ∈ normal name := by
    unfold normal
    split
    · have hlast := List.dropLast_append_getLast? '.' ‹_›
      rw [← hlast] at hlc
      simpa using hlc
    · exact hlc
  simp only [isDomain, Bool.and_eq_true, List.all_eq_true] at h
  exact absurd (h.2 ':' hnormal) (by decide)

theorem afterScheme_url {scheme : List Char} (h : lc scheme ∈ ["https".toList, "http".toList, "ftp".toList])
    (rest : List Char) : afterScheme (scheme ++ "://".toList ++ rest) = some rest := by
  have hlc : lc (scheme ++ "://".toList ++ rest) = lc scheme ++ ':' :: '/' :: '/' :: lc rest := by
    simp [lc, show ':'.toLower = ':' from rfl, show '/'.toLower = '/' from rfl]
  have hdrop : ∀ n, (lc scheme).length + 3 = n → (scheme ++ "://".toList ++ rest).drop n = rest := by
    rintro n rfl
    rw [lc, List.length_map]
    exact List.drop_left' (by simp)
  simp only [List.mem_cons, List.not_mem_nil, or_false] at h
  rw [afterScheme, hlc]
  rcases h with h | h | h
  · rw [hdrop 8 (by rw [h]; rfl), h, if_pos (by simp)]
  · rw [hdrop 7 (by rw [h]; rfl), h, if_neg (by simp), if_pos (by simp)]
  · rw [hdrop 6 (by rw [h]; rfl), h, if_neg (by simp), if_neg (by simp), if_pos (by simp)]

theorem bare_read {u : Url} {value : List Char} (hbare : u.Bare) (hu : u.text ∈ words value) :
    Reads site value u.host := by
  refine mem_all.1 (mem_all_of_part site_bounded hu ?_)
  have hname : ∀ c ∈ u.host, (!isStop c) = true := by
    intro c hc
    have htext := u.host_text c hc
    have hcolon : c ≠ ':' := by
      rintro rfl
      exact normal_colon hbare.2 hc
    simp [isStop, htext.1, htext.2.2, hcolon]
  obtain ⟨c, tail, htail, hstop⟩ : ∃ c tail, u.port.elim [] (':' :: ·) ++ '/' :: u.path = c :: tail ∧ isStop c := by
    cases u.port with
    | none => exact ⟨'/', u.path, rfl, by decide⟩
    | some digits => exact ⟨':', digits ++ '/' :: u.path, rfl, by decide⟩
  have hrest : afterScheme u.text = some (u.host ++ c :: tail) := by
    rw [Url.text, hbare.1, htail]
    exact afterScheme_url u.scheme_known _
  have htake : (u.host ++ c :: tail).takeWhile (!isStop ·) = u.host := by
    rw [List.takeWhile_append_of_pos hname, List.takeWhile_cons_of_neg (by simp [hstop]), List.append_nil]
  have hfirst : site.first u.text = some (u.host, (u.host ++ c :: tail).dropWhile (!isStop ·)) := by
    show siteFirst u.text = _
    rw [siteFirst, hrest]
    simp only [htake, if_neg u.host_nonempty]
  rw [all_found hfirst]
  exact List.mem_cons_self

end Words

section Escapes

/-- An unlisted host of some URL makes a warning. -/
def Reported (s : Setup) (value : List Char) : Prop :=
  ∀ file, s.allowlist = some file →
    (∃ u : Url, u.text ∈ words value ∧ ¬ Listed (entries file) u.host) → Warned s value

/-- Where some host is unlisted, no control character hides the value and one of these hosts can be read. -/
def Legible (allow : List (List Char)) (value : List Char) : Prop :=
  (∃ u : Url, u.text ∈ words value ∧ ¬ Listed allow u.host) →
    value.any isControl = false ∧ ∃ u : Url, u.text ∈ words value ∧ ¬ Listed allow u.host ∧ u.Bare

theorem controlled_silent {s : Setup} {value : List Char} (h : value.any isControl = true) : ¬ Warned s value := by
  intro hwarned
  obtain ⟨_, _, hctl, _⟩ := warned_iff.1 hwarned
  rw [h] at hctl
  cases hctl

/-- In a legible value no unlisted host escapes. -/
theorem unlisted_reported (s : Setup) (value : List Char)
    (legible : ∀ file, s.allowlist = some file → Legible (entries file) value) : Reported s value := by
  intro file hfile hunlisted
  obtain ⟨hplain, u, hu, hlisted, hbare⟩ := legible file hfile hunlisted
  exact warned_iff.2 ⟨file, hfile, hplain, u.host, bare_read hbare hu, hbare.2, hlisted⟩

def mirror : Url where
  scheme := "http".toList
  userinfo := none
  host := "mirror.org".toList
  port := none
  path := "pub/".toList
  scheme_known := by decide
  userinfo_text := nofun
  host_nonempty := by decide
  host_text := List.forall_iff_forall_mem.1 (by decide)
  host_colon := by decide
  port_text := by decide
  path_text := List.forall_iff_forall_mem.1 (by decide)

theorem mirror_reported : Warned ⟨some "github.com\n".toList, false, fun _ => false⟩ mirror.text := by
  have hunlisted : ¬ Listed (entries "github.com\n".toList) mirror.host := by
    rw [← allowlisted_iff]
    decide
  have hword : mirror.text ∈ words mirror.text := List.mem_of_elem_eq_true (by decide)
  refine unlisted_reported _ _ ?_ "github.com\n".toList rfl ⟨mirror, hword, hunlisted⟩
  rintro file hfile
  cases hfile
  exact fun _ => ⟨by decide, mirror, hword, hunlisted, rfl, by decide⟩

def evil : Url where
  scheme := "http".toList
  userinfo := some "github.com:x".toList
  host := "evil.com".toList
  port := none
  path := []
  scheme_known := by decide
  userinfo_text := by
    rintro _ ⟨rfl⟩
    exact List.forall_iff_forall_mem.1 (by decide)
  host_nonempty := by decide
  host_text := List.forall_iff_forall_mem.1 (by decide)
  host_colon := by decide
  port_text := by decide
  path_text := List.forall_mem_nil _

theorem userinfo_unreported : ¬ Reported ⟨some "github.com\n".toList, false, fun _ => false⟩ evil.text := by
  intro h
  have hread : all site evil.text = ["github.com".toList] := by decide
  have hunlisted : ¬ Listed (entries "github.com\n".toList) evil.host := by
    rw [← allowlisted_iff]
    decide
  obtain ⟨file, hfile, -, name, hname, -, hlisted⟩ :=
    warned_iff.1 (h _ rfl ⟨evil, List.mem_of_elem_eq_true (by decide), hunlisted⟩)
  cases hfile
  rw [← mem_all, hread, List.mem_singleton] at hname
  refine hlisted (allowlisted_iff.1 ?_)
  rw [hname]
  decide

end Escapes

end Mports.SourceDomains
