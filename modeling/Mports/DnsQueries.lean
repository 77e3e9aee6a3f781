import Mports.DnsNames
import Mports.SourceDomains

set_option autoImplicit false

namespace Mports.DnsQueries
open PerlText SourceDomains DnsNames

/-- `pack 'n'`. -/
def pack (n : ℕ) : List UInt8 := [UInt8.ofNat (n / 256), UInt8.ofNat n]

def bytes (text : List Char) : List UInt8 := text.map fun c => UInt8.ofNat c.toNat

/-- `[0-9.]+`. -/
def isResolver (text : List Char) : Bool := text ≠ [] && text.all fun c => c.isDigit || c = '.'

def addLabels : List (List Char) → List UInt8 → Option (List UInt8)
  | [], packet => some packet
  | label :: labels, packet =>
    if 63 < label.length then none else addLabels labels (packet ++ UInt8.ofNat label.length :: bytes label)

def dnsQueryA (id : ℕ) (domain resolver : List Char) : Option (List UInt8) :=
  if !isDomain domain then none
  else if !isResolver resolver then none
  else (addLabels (split '.' domain) ([id, 0x0100, 1, 0, 0, 0].flatMap pack)).map
    (· ++ 0 :: (pack 1 ++ pack 1))

/-- One question for the address of the domain. -/
structure WellFormed (packet : List UInt8) (domain : List Char) : Prop where
  counts : (packet.drop 4).take 8 = [0, 1, 0, 0, 0, 0, 0, 0]
  question : decode (packet.drop 12) = some ((domain.splitOn '.').map bytes, [0, 1, 0, 1])
  labels : ∀ label ∈ domain.splitOn '.', 1 ≤ label.length ∧ label.length ≤ 63
  name : packet.length ≤ 12 + 255 + 4

theorem addLabels_eq (labels : List (List Char)) (packet : List UInt8) : addLabels labels packet =
    if ∃ label ∈ labels, 63 < label.length then none
    else some (packet ++ (labels.map bytes).flatMap fun label => UInt8.ofNat label.length :: label) := by
  induction labels generalizing packet with
  | nil => simp [addLabels]
  | cons label labels ih =>
    rw [addLabels]
    by_cases hlong : 63 < label.length
    · rw [if_pos hlong, if_pos ⟨label, List.mem_cons_self, hlong⟩]
    · rw [if_neg hlong, ih]
      simp [hlong, bytes]

section Labels
variable {domain resolver : List Char} {id : ℕ}

theorem long_iff : (∃ label ∈ split '.' domain, 63 < label.length) ↔ ∃ label ∈ domain.splitOn '.', 63 < label.length := by
  constructor
  · rintro ⟨label, hlabel, hlong⟩
    exact ⟨label, mem_of_mem_split hlabel, hlong⟩
  · rintro ⟨label, hlabel, hlong⟩
    exact ⟨label, mem_split hlabel (List.length_pos_iff.1 (Nat.lt_of_le_of_lt (Nat.zero_le 63) hlong)), hlong⟩

theorem split_full (h : [] ∉ domain.splitOn '.') : split '.' domain = domain.splitOn '.' := by
  have hkeep : (domain.splitOn '.').reverse.dropWhile (· = []) = (domain.splitOn '.').reverse := by
    rw [List.dropWhile_eq_self_iff]
    intro hlength hempty
    refine h (List.mem_reverse.1 ?_)
    rw [← of_decide_eq_true hempty]
    exact List.getElem_mem hlength
  rw [split, hkeep, List.reverse_reverse]

theorem splitOn_length (sep : Char) (text : List Char) :
    ((text.splitOn sep).map fun part => part.length + 1).sum = text.length + 1 := by
  induction text with
  | nil => rfl
  | cons c text ih =>
    obtain ⟨part, parts, hparts⟩ := List.exists_cons_of_ne_nil (List.splitOn_ne_nil sep text)
    rw [hparts, List.map_cons, List.sum_cons] at ih
    rw [List.splitOn_cons_eq_if_modifyHead, hparts]
    split_ifs
    · rw [List.map_cons, List.map_cons, List.sum_cons, List.sum_cons, List.length_cons]
      simp only [List.length_nil]
      omega
    · rw [List.modifyHead_cons, List.map_cons, List.sum_cons, List.length_cons, List.length_cons]
      omega

theorem bytes_length (text : List Char) : (bytes text).length = text.length := List.length_map _

def header (id : ℕ) : List UInt8 := [id, 0x0100, 1, 0, 0, 0].flatMap pack

/-- Where no label is too long, the packet is the header, the name and the type and class. -/
theorem dnsQueryA_eq (id : ℕ) (hdomain : isDomain domain) (hresolver : isResolver resolver) :
    dnsQueryA id domain resolver = if ∃ label ∈ domain.splitOn '.', 63 < label.length then none
      else some (header id ++ (encode ((split '.' domain).map bytes) ++ [0, 1, 0, 1])) := by
  rw [dnsQueryA, hdomain, hresolver, Bool.not_true, if_neg Bool.false_ne_true, if_neg Bool.false_ne_true, addLabels_eq,
    if_congr long_iff rfl rfl]
  split_ifs
  · rfl
  · rw [Option.map_some, encode, List.append_assoc, List.append_assoc]
    rfl

theorem query_wellFormed_iff (id : ℕ) (domain : List Char) (hlong : ¬ ∃ label ∈ domain.splitOn '.', 63 < label.length) :
    WellFormed (header id ++ (encode ((split '.' domain).map bytes) ++ [0, 1, 0, 1])) domain ↔
      [] ∉ domain.splitOn '.' ∧ domain.length ≤ 253 := by
  have hlength : [] ∉ domain.splitOn '.' →
      (header id ++ (encode ((split '.' domain).map bytes) ++ [0, 1, 0, 1])).length = 12 + (domain.length + 2) + 4 := by
    intro hne
    have hsum : ((domain.splitOn '.').map bytes).map (fun label => label.length + 1) =
        (domain.splitOn '.').map fun label => label.length + 1 := by
      rw [List.map_map]
      exact List.map_congr_left fun label _ => congrArg (· + 1) (bytes_length label)
    rw [split_full hne, List.length_append, List.length_append, encode_length, hsum, splitOn_length]
    change 12 + _ = _
    simp only [List.length_cons, List.length_nil]
    omega
  constructor
  · intro hquery
    have hne : [] ∉ domain.splitOn '.' := fun hmem => absurd (hquery.labels [] hmem).1 (by decide)
    have hname := hquery.name
    rw [hlength hne] at hname
    exact ⟨hne, by omega⟩
  · rintro ⟨hne, hshort⟩
    have hlabels : ∀ label ∈ domain.splitOn '.', 1 ≤ label.length ∧ label.length ≤ 63 := by
      intro label hlabel
      constructor
      · exact List.length_pos_iff.2 fun hempty => hne (hempty ▸ hlabel)
      · exact Nat.le_of_not_lt fun hlt => hlong ⟨label, hlabel, hlt⟩
    refine ⟨rfl, ?_, hlabels, ?_⟩
    · rw [split_full hne]
      refine decode_encode (fun label hlabel => ?_) [0, 1, 0, 1]
      obtain ⟨part, hpart, rfl⟩ := List.mem_map.1 hlabel
      rw [IsLabel, bytes_length]
      exact hlabels part hpart
    · rw [hlength hne]
      omega

/-- Each domain is refused or makes a good query just where a label is too long, or none is empty
and the name is not too long. -/
theorem wellFormed_iff {masterSites : List Char} (h : domain ∈ masterSiteDomains masterSites) :
    (∀ packet, dnsQueryA id domain resolver = some packet → WellFormed packet domain) ↔
      isResolver resolver = false ∨ (∃ label ∈ domain.splitOn '.', 63 < label.length) ∨
        ([] ∉ domain.splitOn '.' ∧ domain.length ≤ 253) := by
  obtain ⟨-, -, -, hdomain⟩ := mem_masterSiteDomains.1 h
  by_cases hresolver : isResolver resolver
  · rw [dnsQueryA_eq id hdomain hresolver]
    by_cases hlong : ∃ label ∈ domain.splitOn '.', 63 < label.length
    · rw [if_pos hlong]
      exact iff_of_true nofun (.inr (.inl hlong))
    · rw [if_neg hlong]
      constructor
      · exact fun hall => .inr (.inr ((query_wellFormed_iff id domain hlong).1 (hall _ rfl)))
      · rintro (hno | hyes | hgood) packet hpacket
        · rw [hresolver] at hno
          cases hno
        · exact absurd hyes hlong
        · rw [← Option.some.inj hpacket]
          exact (query_wellFormed_iff id domain hlong).2 hgood
  · have hrefused : dnsQueryA id domain resolver = none := by
      rw [dnsQueryA, hdomain, Bool.eq_false_iff.2 hresolver]
      rfl
    rw [hrefused]
    exact iff_of_true nofun (.inl (Bool.eq_false_iff.2 hresolver))

theorem midnight_query : ∃ packet, dnsQueryA 7 "www.midnightbsd.org".toList "9.9.9.9".toList = some packet ∧
    WellFormed packet "www.midnightbsd.org".toList := by
  have hread : "www.midnightbsd.org".toList ∈ masterSiteDomains "http://www.midnightbsd.org/ftp/".toList :=
    mem_masterSiteDomains.2 ⟨"www.midnightbsd.org".toList, GlobalMatches.mem_all.1 (by decide), by decide, by decide⟩
  have hsent : dnsQueryA 7 "www.midnightbsd.org".toList "9.9.9.9".toList =
      some (header 7 ++ (encode (["www".toList, "midnightbsd".toList, "org".toList].map bytes) ++ [0, 1, 0, 1])) := by decide
  have hgood : [] ∉ "www.midnightbsd.org".toList.splitOn '.' ∧ "www.midnightbsd.org".toList.length ≤ 253 := by decide
  exact ⟨_, hsent, (wellFormed_iff hread).2 (.inr (.inr hgood)) _ hsent⟩

theorem doubled_dot_malformed : "a..b".toList ∈ masterSiteDomains "http://a..b/".toList ∧
    ∃ packet, dnsQueryA 7 "a..b".toList "9.9.9.9".toList = some packet ∧ ¬ WellFormed packet "a..b".toList := by
  refine ⟨mem_masterSiteDomains.2 ⟨"a..b".toList, GlobalMatches.mem_all.1 (by decide), by decide, by decide⟩, _, rfl, ?_⟩
  intro h
  have hquestion := h.question
  revert hquestion
  decide

end Labels

end Mports.DnsQueries
