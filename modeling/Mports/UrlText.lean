import Mports.ShellText
import Mathlib.Data.List.Basic
import Mathlib.Logic.Function.Basic

set_option autoImplicit false

namespace Mports.UrlText
open ShellText

/-- `split` at a character; an empty text has no elements. -/
def awkSplit (sep : Char) (text : List Char) : List (List Char) := if text = [] then [] else text.splitOn sep

/-- `parts[n]`, empty where there are not so many. -/
def element (n : ℕ) (parts : List (List Char)) : List Char := parts.getD (n - 1) []

/-- The texts before and after the first `://`. -/
def cutScheme : List Char → List Char × Option (List Char)
  | ':' :: '/' :: '/' :: rest => ([], some rest)
  | c :: rest => (c :: (cutScheme rest).1, (cutScheme rest).2)
  | [] => ([], none)

/-- `url_scheme[2]`: what stands before the second `://`. -/
def secondOf (text : List Char) : List Char := ((cutScheme text).2.map fun rest => (cutScheme rest).1).getD []

/-- The array `url`: the query is the list of its keys, and a value for each. -/
structure Parts where
  scheme : List Char
  user : List Char
  password : List Char
  host : List Char
  port : List Char
  path : List Char
  query : List Char
  value : List Char → List Char
  fragment : List Char

def addQuery (query : List Char × (List Char → List Char)) (part : List Char) : List Char × (List Char → List Char) :=
  let key := element 1 (awkSplit '=' part)
  (query.1 ++ ' ' :: key, Function.update query.2 key (element 2 (awkSplit '=' part)))

def splitUrl (text : List Char) : Parts :=
  let fragment := awkSplit '#' (secondOf text)
  let query := awkSplit '?' (element 1 fragment)
  let queries := (awkSplit '&' (element 2 query)).foldl addQuery ([], fun _ => [])
  let authority := element 1 (awkSplit '/' (element 1 query))
  let auth := awkSplit '@' authority
  let user := awkSplit ':' (if auth.length = 2 then element 1 auth else [])
  let host := awkSplit ':' (if auth.length = 2 then element 2 auth else element 1 auth)
  { scheme := (cutScheme text).1
    user := element 1 user
    password := element 2 user
    host := element 1 host
    port := element 2 host
    path := (element 1 query).drop authority.length
    query := queries.1
    value := queries.2
    fragment := element 2 fragment }

section
variable (zero : List Char → Bool)

/-- Whether a text that `split` has made is true: it is not empty, and no number that is zero. -/
def truthy (text : List Char) : Bool := text ≠ [] && !zero text

def joinUrl (url : Parts) : List Char :=
  url.scheme ++ "://".toList ++
    (if truthy zero url.user then
      url.user ++ (if truthy zero url.password then ':' :: url.password else []) ++ ['@'] else []) ++
    url.host ++ (if truthy zero url.port then ':' :: url.port else []) ++ url.path ++
    (if url.query ≠ [] then
      '?' :: [';'].intercalate ((fields url.query).map fun key => key ++ '=' :: url.value key) else []) ++
    (if truthy zero url.fragment then '#' :: url.fragment else [])

end

/-- A text that is not empty, without blanks and some delimiters. -/
structure Component (delimiters text : List Char) : Prop where
  nonempty : text ≠ []
  word : ∀ c ∈ text, isBlank c = false
  free : ∀ c ∈ delimiters, c ∉ text

/-- `scheme://[user[:password]@]host[:port][/path][?k1=v1&...&kn=vn][#fragment]`. -/
structure Url where
  scheme : List Char
  user : Option (List Char × Option (List Char))
  host : List Char
  port : Option (List Char)
  path : Option (List Char)
  query : List (List Char × List Char)
  fragment : Option (List Char)
  scheme_part : Component [] scheme ∧ ¬ "://".toList <:+: scheme
  user_part : ∀ u ∈ user, Component [':', '@', '/', '?', '#'] u.1 ∧ ∀ p ∈ u.2, Component ['@', '/', '?', '#'] p
  host_part : Component [':', '/', '?', '#'] host
  port_part : ∀ p ∈ port, Component ['/', '?', '#'] p
  path_part : ∀ p ∈ path, p.head? = some '/' ∧ Component ['?', '#'] p
  query_part : ∀ q ∈ query, Component ['=', '&', '#'] q.1 ∧ Component ['&', '#'] q.2
  query_keys : (query.map Prod.fst).Nodup
  fragment_part : ∀ f ∈ fragment, Component [] f

def Url.authority (u : Url) : List Char :=
  (u.user.elim [] fun user => user.1 ++ (user.2.elim [] (':' :: ·)) ++ ['@']) ++ u.host ++ u.port.elim [] (':' :: ·)

def Url.queryText (u : Url) : List Char :=
  if u.query = [] then [] else '?' :: ['&'].intercalate (u.query.map fun q => q.1 ++ '=' :: q.2)

def Url.rest (u : Url) : List Char :=
  u.authority ++ u.path.getD [] ++ u.queryText ++ u.fragment.elim [] ('#' :: ·)

def Url.text (u : Url) : List Char := u.scheme ++ "://".toList ++ u.rest

/-- At most one `:`, and what follows it is true. -/
def Halved (zero : List Char → Bool) (text : List Char) : Prop :=
  ':' ∉ text ∨ ∃ a b, text = a ++ ':' :: b ∧ ':' ∉ a ∧ ':' ∉ b ∧ truthy zero b

/-- At most one `@`, and what is before and after it is read as it stands. -/
def AuthorityKept (zero : List Char → Bool) (text : List Char) : Prop :=
  ('@' ∉ text ∧ Halved zero text) ∨
    ∃ a b, text = a ++ '@' :: b ∧ '@' ∉ a ∧ '@' ∉ b ∧ truthy zero (a.takeWhile (· ≠ ':')) ∧ Halved zero a ∧ Halved zero b

structure Kept (zero : List Char → Bool) (u : Url) : Prop where
  scheme : ¬ "://".toList <:+: u.rest
  authority : AuthorityKept zero u.authority
  query : u.query = [] ∨ ∃ key value, u.query = [(key, value)] ∧ '?' ∉ key ∧ '=' ∉ value ∧ '?' ∉ value
  fragment : ∀ f ∈ u.fragment, '#' ∉ f ∧ truthy zero f

section Splits
variable {c : Char} {a b text : List Char}

theorem cut_cases (c : Char) (text : List Char) : c ∉ text ∨ ∃ a b, text = a ++ c :: b ∧ c ∉ a := by
  by_cases h : c ∈ text
  · exact .inr (List.eq_append_cons_of_mem h)
  · exact .inl h

theorem awkSplit_plain (hne : text ≠ []) (h : c ∉ text) : awkSplit c text = [text] := by
  rw [awkSplit, if_neg hne, List.splitOn_eq_singleton h]

theorem awkSplit_cut (h : c ∉ a) (b : List Char) : awkSplit c (a ++ c :: b) = a :: b.splitOn c := by
  rw [awkSplit, if_neg (by simp), List.splitOn_append_cons_self_of_not_mem h]

@[simp] theorem awkSplit_nil : awkSplit c [] = [] := rfl

theorem element_first (c : Char) (text : List Char) : element 1 (awkSplit c text) = (text.splitOn c).getD 0 [] := by
  unfold awkSplit
  split_ifs with h
  · rw [h]
    rfl
  · rfl

theorem first_plain (h : c ∉ text) : element 1 (awkSplit c text) = text := by
  rw [element_first, List.splitOn_eq_singleton h]
  rfl

theorem second_plain (h : c ∉ text) : element 2 (awkSplit c text) = [] := by
  by_cases hne : text = []
  · rw [hne]
    rfl
  · rw [awkSplit_plain hne h]
    rfl

theorem first_cut (h : c ∉ a) (b : List Char) : element 1 (awkSplit c (a ++ c :: b)) = a := by
  rw [awkSplit_cut h]
  rfl

theorem second_cut (h : c ∉ a) (b : List Char) :
    element 2 (awkSplit c (a ++ c :: b)) = element 1 (awkSplit c b) := by
  rw [awkSplit_cut h, element_first]
  rfl

theorem first_prefixed (c : Char) (text : List Char) : element 1 (awkSplit c text) <+: text := by
  obtain h | ⟨a, b, rfl, h⟩ := cut_cases c text
  · exact ⟨[], by rw [first_plain h, List.append_nil]⟩
  · rw [first_cut h]
    exact List.prefix_append a _

theorem first_subset {c : Char} {text : List Char} : element 1 (awkSplit c text) ⊆ text :=
  (first_prefixed c text).subset

theorem second_subset {c : Char} {text : List Char} : element 2 (awkSplit c text) ⊆ text := by
  obtain h | ⟨a, b, rfl, h⟩ := cut_cases c text
  · rw [second_plain h]
    exact List.nil_subset _
  · rw [second_cut h]
    exact fun d hd => List.mem_append_right a (List.mem_cons_of_mem c (first_subset hd))

theorem first_free (c : Char) (text : List Char) : c ∉ element 1 (awkSplit c text) := by
  obtain h | ⟨a, b, rfl, h⟩ := cut_cases c text
  · rwa [first_plain h]
  · rwa [first_cut h]

theorem second_free (c : Char) (text : List Char) : c ∉ element 2 (awkSplit c text) := by
  obtain h | ⟨a, b, rfl, h⟩ := cut_cases c text
  · rw [second_plain h]
    exact List.not_mem_nil
  · rw [second_cut h]
    exact first_free c b

theorem cut_unique {x y : List Char} (ha : c ∉ a) (hb : c ∉ b) (hx : ∀ d ∈ x.head?, d = c) (hy : ∀ d ∈ y.head?, d = c)
    (h : a ++ x = b ++ y) : a = b ∧ x = y := by
  have htake : ∀ {a x : List Char}, c ∉ a → (∀ d ∈ x.head?, d = c) → (a ++ x).takeWhile (· ≠ c) = a := by
    intro a x ha hx
    refine takeWhile_stop (fun d hd => decide_eq_true ?_) fun d hd => by simpa using hx d hd
    rintro rfl
    exact ha hd
  have hab : a = b := by rw [← htake ha hx, h, htake hb hy]
  subst hab
  exact ⟨rfl, List.append_cancel_left h⟩

theorem cut_prefixed {x y : List Char} (ha : c ∉ a) (hy : ∀ d ∈ y.head?, d = c) (h : a ++ x = b ++ y) : a <+: b := by
  obtain ⟨front, rfl, -⟩ | ⟨back, rfl, rfl⟩ := List.append_eq_append_iff.1 h
  · exact List.prefix_append a front
  · cases back with
    | nil => exact ⟨[], by simp⟩
    | cons d back =>
      obtain rfl := hy d rfl
      exact absurd (List.mem_append_right b List.mem_cons_self) ha

theorem parts_eq {x : List Char} (ha : c ∉ a) (hx : ∀ d ∈ x.head?, d = c) :
    element 1 (awkSplit c (a ++ x)) = a ∧ element 2 (awkSplit c (a ++ x)) = element 1 (awkSplit c x.tail) := by
  cases x with
  | nil =>
    rw [List.append_nil]
    exact ⟨first_plain ha, second_plain ha⟩
  | cons d x =>
    obtain rfl := hx d rfl
    exact ⟨first_cut ha x, second_cut ha x⟩

theorem parts_exist (c : Char) (text : List Char) :
    ∃ x, text = element 1 (awkSplit c text) ++ x ∧ ∀ d ∈ x.head?, d = c := by
  obtain h | ⟨a, b, rfl, h⟩ := cut_cases c text
  · exact ⟨[], by rw [first_plain h, List.append_nil], nofun⟩
  · exact ⟨c :: b, by rw [first_cut h], fun d hd => (Option.some.inj hd).symm⟩

theorem cutScheme_cons {d : Char} {text : List Char} (h : ¬ "://".toList <+: d :: text) :
    cutScheme (d :: text) = (d :: (cutScheme text).1, (cutScheme text).2) := by
  rw [cutScheme]
  rintro rest rfl rfl
  exact h ⟨rest, rfl⟩

theorem cutScheme_cases (text : List Char) :
    (cutScheme text = (text, none) ∧ ¬ "://".toList <:+: text) ∨
      ∃ a b, cutScheme text = (a, some b) ∧ text = a ++ ("://".toList ++ b) := by
  induction text with
  | nil => exact .inl ⟨rfl, by decide⟩
  | cons d text ih =>
    by_cases h : "://".toList <+: d :: text
    · obtain ⟨rest, hrest⟩ := h
      rw [← hrest]
      exact .inr ⟨[], rest, rfl, rfl⟩
    · rw [cutScheme_cons h]
      obtain ⟨hcut, hno⟩ | ⟨a, b, hcut, htext⟩ := ih
      · rw [hcut]
        refine .inl ⟨rfl, fun hin => ?_⟩
        obtain hstart | hin := List.infix_cons_iff.1 hin
        · exact h hstart
        · exact hno hin
      · rw [hcut, htext]
        exact .inr ⟨d :: a, b, rfl, rfl⟩

theorem cutScheme_scheme {scheme : List Char} (h : ¬ "://".toList <:+: scheme) (rest : List Char) :
    cutScheme (scheme ++ ("://".toList ++ rest)) = (scheme, some rest) := by
  induction scheme with
  | nil => rfl
  | cons d scheme ih =>
    have hnot : ¬ "://".toList <+: d :: (scheme ++ ("://".toList ++ rest)) := by
      rintro ⟨more, hmore⟩
      obtain ⟨rfl, htail⟩ := List.cons.inj hmore
      rcases scheme with _ | ⟨x, _ | ⟨y, back⟩⟩
      · exact absurd (List.cons.inj htail).1 (by decide)
      · exact absurd (List.cons.inj (List.cons.inj htail).2).1 (by decide)
      · obtain ⟨rfl, hnext⟩ := List.cons.inj htail
        obtain ⟨rfl, -⟩ := List.cons.inj hnext
        exact h (List.IsPrefix.isInfix ⟨back, rfl⟩)
    rw [List.cons_append, cutScheme_cons hnot, ih fun hin => h (List.infix_cons_iff.2 (.inr hin))]

end Splits

section Authority
variable (zero : List Char → Bool)

def hostText (text : List Char) : List Char :=
  element 1 (awkSplit ':' text) ++
    (if truthy zero (element 2 (awkSplit ':' text)) then ':' :: element 2 (awkSplit ':' text) else [])

def userText (text : List Char) : List Char :=
  if truthy zero (element 1 (awkSplit ':' text)) then hostText zero text ++ ['@'] else []

def authorityText (text : List Char) : List Char :=
  let auth := awkSplit '@' text
  userText zero (if auth.length = 2 then element 1 auth else []) ++
    hostText zero (if auth.length = 2 then element 2 auth else element 1 auth)

variable {zero}

theorem truthy_nil : truthy zero [] = false := rfl

theorem hostText_length (zero : List Char → Bool) (text : List Char) : (hostText zero text).length ≤ text.length := by
  rw [hostText]
  obtain h | ⟨a, b, rfl, h⟩ := cut_cases ':' text
  · rw [first_plain h, second_plain h, truthy_nil, if_neg Bool.false_ne_true, List.append_nil]
  · have hle := (first_prefixed ':' b).length_le
    rw [first_cut h, second_cut h]
    split_ifs
    · simp only [List.length_append, List.length_cons]
      omega
    · simp only [List.length_append, List.length_cons, List.length_nil]
      omega

theorem hostText_iff (text : List Char) : hostText zero text = text ↔ Halved zero text := by
  rw [hostText]
  obtain h | ⟨a, b, rfl, h⟩ := cut_cases ':' text
  · rw [first_plain h, second_plain h, truthy_nil, if_neg Bool.false_ne_true, List.append_nil]
    exact ⟨fun _ => .inl h, fun _ => rfl⟩
  · rw [first_cut h, second_cut h, List.append_cancel_left_eq]
    constructor
    · intro heq
      split_ifs at heq with htrue
      · have hb := (List.cons.inj heq).2
        rw [hb] at htrue
        exact .inr ⟨a, b, rfl, h, hb ▸ first_free ':' b, htrue⟩
    · rintro (hno | ⟨a', b', heq, ha', hb', htrue⟩)
      · exact absurd (List.mem_append_right a List.mem_cons_self) hno
      · obtain ⟨rfl, htail⟩ := cut_unique h ha' (by simp) (by simp) heq
        obtain rfl := (List.cons.inj htail).2
        rw [first_plain hb', if_pos htrue]

theorem userText_length (zero : List Char → Bool) (text : List Char) :
    (userText zero text).length ≤ text.length + 1 := by
  have hle := hostText_length zero text
  rw [userText]
  split_ifs
  · rw [List.length_append, List.length_singleton]
    omega
  · exact Nat.zero_le _

theorem userText_iff (text : List Char) :
    userText zero text = text ++ ['@'] ↔ truthy zero (element 1 (awkSplit ':' text)) ∧ Halved zero text := by
  rw [userText]
  split_ifs with h
  · rw [List.append_cancel_right_eq, hostText_iff]
    exact ⟨fun hhalved => ⟨h, hhalved⟩, fun hboth => hboth.2⟩
  · exact ⟨fun heq => absurd heq.symm (by simp), fun hboth => absurd hboth.1 h⟩

theorem first_takeWhile (c : Char) (text : List Char) : element 1 (awkSplit c text) = text.takeWhile (· ≠ c) := by
  have hkept : ∀ {a : List Char}, c ∉ a → ∀ d ∈ a, decide (d ≠ c) = true := by
    intro a ha d hd
    refine decide_eq_true ?_
    rintro rfl
    exact ha hd
  obtain h | ⟨a, b, rfl, h⟩ := cut_cases c text
  · rw [first_plain h, List.takeWhile_eq_self_iff.2 (hkept h)]
  · rw [first_cut h, takeWhile_stop (hkept h) (by simp)]

theorem userText_nil : userText zero [] = [] := rfl

theorem authorityText_length (zero : List Char → Bool) (text : List Char) :
    (authorityText zero text).length ≤ text.length := by
  rw [authorityText]
  split_ifs with hlength
  · obtain ⟨x, htext, hx⟩ := parts_exist '@' text
    obtain ⟨-, hsecond⟩ := parts_eq (first_free '@' text) hx
    rw [← htext] at hsecond
    have huser := userText_length zero (element 1 (awkSplit '@' text))
    have hhost := hostText_length zero (element 2 (awkSplit '@' text))
    have hall := congrArg List.length htext
    cases x with
    | nil =>
      have hplain : '@' ∉ text := by
        rw [htext, List.append_nil]
        exact first_free '@' text
      by_cases hne : text = []
      · rw [hne] at hlength
        cases hlength
      · rw [awkSplit_plain hne hplain] at hlength
        cases hlength
    | cons d x =>
      have hle := (first_prefixed '@' x).length_le
      rw [List.tail_cons] at hsecond
      rw [← hsecond] at hle
      rw [List.length_append, List.length_cons] at hall
      rw [List.length_append]
      omega
  · have hhost := hostText_length zero (element 1 (awkSplit '@' text))
    have hle := (first_prefixed '@' text).length_le
    rw [userText_nil, List.nil_append]
    omega

theorem hostText_chars {text : List Char} : ∀ c ∈ hostText zero text, c ∈ text ∨ c = ':' := by
  intro c hc
  rw [hostText, List.mem_append] at hc
  obtain hc | hc := hc
  · exact .inl ((first_prefixed ':' text).subset hc)
  · split_ifs at hc
    · rw [List.mem_cons] at hc
      exact hc.symm.imp_left fun hmem => second_subset hmem
    · cases hc

theorem authorityText_chars {text : List Char} : ∀ c ∈ authorityText zero text, c ∈ text ∨ c = ':' ∨ c = '@' := by
  have hhost : ∀ {t : List Char}, t ⊆ text → ∀ c ∈ hostText zero t, c ∈ text ∨ c = ':' ∨ c = '@' := fun ht c hc =>
    (hostText_chars c hc).imp (fun hmem => ht hmem) .inl
  have huser : ∀ {t : List Char}, t ⊆ text → ∀ c ∈ userText zero t, c ∈ text ∨ c = ':' ∨ c = '@' := by
    intro t ht c hc
    unfold userText at hc
    split_ifs at hc
    · rw [List.mem_append, List.mem_singleton] at hc
      obtain hc | hc := hc
      · exact hhost ht c hc
      · exact .inr (.inr hc)
    · cases hc
  intro c hc
  rw [authorityText, List.mem_append] at hc
  obtain hc | hc := hc
  · refine huser ?_ c hc
    split_ifs
    · exact first_subset
    · exact List.nil_subset _
  · refine hhost ?_ c hc
    split_ifs
    · exact second_subset
    · exact first_subset

theorem authorityText_iff (text : List Char) : authorityText zero text = text ↔ AuthorityKept zero text := by
  rw [authorityText]
  obtain h | ⟨a, b, rfl, ha⟩ := cut_cases '@' text
  · have hlength : (awkSplit '@' text).length ≠ 2 := by
      by_cases hne : text = []
      · rw [hne, awkSplit_nil]
        decide
      · rw [awkSplit_plain hne h]
        simp
    rw [if_neg hlength, if_neg hlength, userText_nil, List.nil_append, first_plain h, hostText_iff]
    constructor
    · exact fun hhalved => .inl ⟨h, hhalved⟩
    · rintro (hkept | ⟨a, b, rfl, -⟩)
      · exact hkept.2
      · exact absurd (List.mem_append_right a List.mem_cons_self) h
  · have hmem : '@' ∈ a ++ '@' :: b := List.mem_append_right a List.mem_cons_self
    have hparts : ∀ {a' b' : List Char}, a ++ '@' :: b = a' ++ '@' :: b' → '@' ∉ a' → a = a' ∧ b = b' := by
      intro a' b' heq ha'
      obtain ⟨hfront, htail⟩ := cut_unique ha ha' (by simp) (by simp) heq
      exact ⟨hfront, (List.cons.inj htail).2⟩
    by_cases hb : '@' ∈ b
    · have hlength : (awkSplit '@' (a ++ '@' :: b)).length ≠ 2 := by
        obtain ⟨b₁, b₂, rfl, hb₁⟩ := List.eq_append_cons_of_mem hb
        have hne := List.splitOn_ne_nil '@' b₂
        rw [awkSplit_cut ha, List.splitOn_append_cons_self_of_not_mem hb₁, List.length_cons, List.length_cons]
        have hpos := List.length_pos_iff.2 hne
        omega
      rw [if_neg hlength, if_neg hlength, userText_nil, List.nil_append, first_cut ha]
      constructor
      · intro heq
        have hle := hostText_length zero a
        rw [heq, List.length_append, List.length_cons] at hle
        omega
      · rintro (⟨hno, -⟩ | ⟨a', b', heq, ha', hb', -⟩)
        · exact absurd hmem hno
        · obtain ⟨rfl, rfl⟩ := hparts heq ha'
          exact absurd hb hb'
    · have hlength : (awkSplit '@' (a ++ '@' :: b)).length = 2 := by
        rw [awkSplit_cut ha, List.splitOn_eq_singleton hb]
        rfl
      rw [if_pos hlength, if_pos hlength, first_cut ha, second_cut ha, first_plain hb]
      have hboth : userText zero a ++ hostText zero b = a ++ '@' :: b ↔
          userText zero a = a ++ ['@'] ∧ hostText zero b = b := by
        constructor
        · intro heq
          have hlengths := congrArg List.length heq
          have huser := userText_length zero a
          have hhost := hostText_length zero b
          rw [List.length_append, List.length_append, List.length_cons] at hlengths
          refine List.append_inj (by simpa using heq) ?_
          rw [List.length_append, List.length_singleton]
          omega
        · rintro ⟨huser, hhost⟩
          rw [huser, hhost, List.append_assoc]
          rfl
      rw [hboth, userText_iff, hostText_iff, first_takeWhile]
      constructor
      · rintro ⟨⟨htrue, huser⟩, hhost⟩
        exact .inr ⟨a, b, rfl, ha, hb, htrue, huser, hhost⟩
      · rintro (⟨hno, -⟩ | ⟨a', b', heq, ha', -, htrue, huser, hhost⟩)
        · exact absurd hmem hno
        · obtain ⟨rfl, rfl⟩ := hparts heq ha'
          exact ⟨⟨htrue, huser⟩, hhost⟩

end Authority

section Queries

def queriesOf (text : List Char) : List Char × (List Char → List Char) :=
  (awkSplit '&' text).foldl addQuery ([], fun _ => [])

def queryPrinted (text : List Char) : List Char :=
  if (queriesOf text).1 ≠ [] then
    '?' :: [';'].intercalate ((fields (queriesOf text).1).map fun key => key ++ '=' :: (queriesOf text).2 key)
  else []

theorem addQuery_chars {P : Char → Prop} {parts : List (List Char)} (h : ∀ part ∈ parts, ∀ c ∈ part, P c)
    (query : List Char × (List Char → List Char)) (hquery : ∀ c ∈ query.1, c = ' ' ∨ P c)
    (hvalue : ∀ key, ∀ c ∈ query.2 key, P c) :
    (∀ c ∈ (parts.foldl addQuery query).1, c = ' ' ∨ P c) ∧
      ∀ key, ∀ c ∈ (parts.foldl addQuery query).2 key, P c := by
  induction parts generalizing query with
  | nil => exact ⟨hquery, hvalue⟩
  | cons part parts ih =>
    have hpart := h part List.mem_cons_self
    refine ih (fun part hmem => h part (List.mem_cons_of_mem _ hmem)) _ (fun c hc => ?_) fun key c hc => ?_
    · rw [addQuery, List.mem_append, List.mem_cons] at hc
      obtain hc | rfl | hc := hc
      · exact hquery c hc
      · exact .inl rfl
      · exact .inr (hpart c (first_subset hc))
    · change c ∈ Function.update query.2 (element 1 (awkSplit '=' part)) (element 2 (awkSplit '=' part)) key at hc
      rw [Function.update_apply] at hc
      split_ifs at hc
      · exact hpart c (second_subset hc)
      · exact hvalue key c hc

theorem part_of_split {c : Char} {text part : List Char} (h : part ∈ awkSplit c text) : part ∈ text.splitOn c := by
  unfold awkSplit at h
  split_ifs at h
  · cases h
  · exact h

theorem queryPrinted_chars {P : Char → Prop} {text : List Char} (h : ∀ part ∈ text.splitOn '&', ∀ c ∈ part, P c)
    (hstart : P '?') (hequals : P '=') (hsep : P ';') : ∀ c ∈ queryPrinted text, P c := by
  have hchars := addQuery_chars (fun part hpart => h part (part_of_split hpart)) ([], fun _ => []) nofun fun _ => nofun
  intro c hc
  unfold queryPrinted at hc
  split_ifs at hc
  · rw [List.mem_cons] at hc
    obtain rfl | hc := hc
    · exact hstart
    · obtain rfl | ⟨text, htext, hc⟩ := mem_intercalate hc
      · exact hsep
      · obtain ⟨key, hkey, rfl⟩ := List.mem_map.1 htext
        rw [List.mem_append, List.mem_cons] at hc
        obtain hc | rfl | hc := hc
        · have hpart := (List.mem_filter.1 hkey).1
          obtain rfl | hchar := hchars.1 c (part_subset hpart hc)
          · exact absurd (part_plain hpart _ hc) (by decide)
          · exact hchar
        · exact hequals
        · exact hchars.2 key c hc
  · cases hc

theorem queryPrinted_nil : queryPrinted [] = [] := rfl

theorem queryPrinted_one {text : List Char} (hne : text ≠ []) (hone : '&' ∉ text)
    (hword : ∀ c ∈ text, isBlank c = false) :
    queryPrinted text = '?' ::
      if element 1 (awkSplit '=' text) = [] then []
      else element 1 (awkSplit '=' text) ++ '=' :: element 2 (awkSplit '=' text) := by
  have hqueries : queriesOf text = (' ' :: element 1 (awkSplit '=' text),
      Function.update (fun _ => []) (element 1 (awkSplit '=' text)) (element 2 (awkSplit '=' text))) := by
    rw [queriesOf, awkSplit_plain hne hone]
    rfl
  have hkey : fields (' ' :: element 1 (awkSplit '=' text)) =
      if element 1 (awkSplit '=' text) = [] then [] else [element 1 (awkSplit '=' text)] := by
    have hblank : fields (' ' :: element 1 (awkSplit '=' text)) = fields (element 1 (awkSplit '=' text)) := by
      rw [fields, fields, List.splitOnP_cons_eq_if_modifyHead]
      simp [isBlank]
    rw [hblank]
    split_ifs with h
    · rw [h]
      rfl
    · exact fields_last (fun c hc => hword c (first_subset hc)) h
  rw [queryPrinted, hqueries, if_pos (List.cons_ne_nil _ _), hkey]
  split_ifs
  · rfl
  · simp

theorem queryPrinted_length {text : List Char} (hone : '&' ∉ text) (hword : ∀ c ∈ text, isBlank c = false) :
    (queryPrinted text).length ≤ if text = [] then 0 else text.length + 2 := by
  split_ifs with hne
  · rw [hne]
    exact le_refl 0
  · rw [queryPrinted_one hne hone hword]
    have hparts : (element 1 (awkSplit '=' text)).length + (element 2 (awkSplit '=' text)).length ≤ text.length := by
      obtain h | ⟨a, b, rfl, h⟩ := cut_cases '=' text
      · rw [first_plain h, second_plain h]
        exact le_refl _
      · have hle := (first_prefixed '=' b).length_le
        rw [first_cut h, second_cut h, List.length_append, List.length_cons]
        omega
    split_ifs
    · exact Nat.le_add_left _ _
    · simp only [List.length_cons, List.length_append]
      omega

end Queries

section Rest
variable (zero : List Char → Bool)

def bodyOf (rest : List Char) : List Char := element 1 (awkSplit '#' rest)
def frontOf (rest : List Char) : List Char := element 1 (awkSplit '?' (bodyOf rest))
def authorityOf (rest : List Char) : List Char := element 1 (awkSplit '/' (frontOf rest))
def queryOf (rest : List Char) : List Char := element 2 (awkSplit '?' (bodyOf rest))
def fragmentOf (rest : List Char) : List Char := element 2 (awkSplit '#' rest)

def fragmentPrinted (text : List Char) : List Char := if truthy zero text then '#' :: text else []

def restPrinted (rest : List Char) : List Char :=
  authorityText zero (authorityOf rest) ++ (frontOf rest).drop (authorityOf rest).length ++ queryPrinted (queryOf rest) ++
    fragmentPrinted zero (fragmentOf rest)

theorem join_split (text : List Char) : joinUrl zero (splitUrl text) =
    (cutScheme text).1 ++ ("://".toList ++ restPrinted zero (secondOf text)) := by
  have hhost : ∀ t rest, element 1 (awkSplit ':' t) ++
      ((if truthy zero (element 2 (awkSplit ':' t)) then ':' :: element 2 (awkSplit ':' t) else []) ++ rest) =
      hostText zero t ++ rest := fun t rest => (List.append_assoc _ _ _).symm
  have hquery : (if (splitUrl text).query ≠ [] then '?' :: [';'].intercalate
      ((fields (splitUrl text).query).map fun key => key ++ '=' :: (splitUrl text).value key) else []) =
      queryPrinted (queryOf (secondOf text)) := rfl
  rw [joinUrl, hquery]
  simp only [List.append_assoc]
  rw [splitUrl, restPrinted, authorityText, userText]
  dsimp only
  rw [hhost]
  simp only [List.append_assoc, hostText]
  rfl

variable {zero}

theorem body_subset {rest : List Char} : bodyOf rest ⊆ rest := first_subset

theorem query_subset {rest : List Char} : queryOf rest ⊆ bodyOf rest := second_subset

theorem second_length (c : Char) (text : List Char) :
    (element 1 (awkSplit c text)).length +
      (if element 2 (awkSplit c text) = [] then 0 else (element 2 (awkSplit c text)).length + 1) ≤ text.length := by
  obtain h | ⟨a, b, rfl, h⟩ := cut_cases c text
  · rw [first_plain h, second_plain h, if_pos rfl]
    exact le_refl _
  · have hle := (first_prefixed c b).length_le
    rw [first_cut h, second_cut h, List.length_append, List.length_cons]
    split_ifs <;> omega

theorem restPrinted_length (zero : List Char → Bool) {rest : List Char} (hone : '&' ∉ queryOf rest) (hword : ∀ c ∈ rest, isBlank c = false) :
    (restPrinted zero rest).length ≤ rest.length + 1 := by
  have hauthority := authorityText_length zero (authorityOf rest)
  have hfront := (first_prefixed '/' (frontOf rest)).length_le
  have hquery := queryPrinted_length hone fun c hc => hword c (body_subset (query_subset hc))
  have hbody := second_length '?' (bodyOf rest)
  have hrest := second_length '#' rest
  have hfragment : (fragmentPrinted zero (fragmentOf rest)).length ≤
      if fragmentOf rest = [] then 0 else (fragmentOf rest).length + 1 := by
    unfold fragmentPrinted
    split_ifs with htrue hnil hnil
    · rw [hnil] at htrue
      cases htrue
    · exact le_refl _
    · exact le_refl _
    · exact Nat.zero_le _
  change (authorityOf rest).length ≤ _ at hfront
  change (frontOf rest).length + (if queryOf rest = [] then 0 else (queryOf rest).length + 1) ≤ _ at hbody
  change (bodyOf rest).length + (if fragmentOf rest = [] then 0 else (fragmentOf rest).length + 1) ≤ _ at hrest
  rw [restPrinted, List.length_append, List.length_append, List.length_append, List.length_drop]
  split_ifs at hquery hbody hfragment hrest <;> omega

theorem queryPrinted_free (text : List Char) : '&' ∉ queryPrinted text := fun hmem =>
  absurd rfl (queryPrinted_chars (P := fun c => c ≠ '&')
    (fun _ hpart c hc heq => absurd (part_plain (p := (· == '&')) hpart c hc) (by simp [heq]))
    (by decide) (by decide) (by decide) '&' hmem)

theorem restPrinted_parts {rest a path q f : List Char} (ha : ∀ c ∈ ['/', '?', '#'], c ∉ a)
    (hpath : ∀ d ∈ path.head?, d = '/') (hpaths : ∀ c ∈ ['?', '#'], c ∉ path)
    (hq : ∀ d ∈ q.head?, d = '?') (hqs : '#' ∉ q) (hf : ∀ d ∈ f.head?, d = '#')
    (h : restPrinted zero rest = a ++ path ++ q ++ f) :
    authorityText zero (authorityOf rest) = a ∧ (frontOf rest).drop (authorityOf rest).length = path ∧
      queryPrinted (queryOf rest) = q ∧ fragmentPrinted zero (fragmentOf rest) = f := by
  have hauth : ∀ c ∈ ['/', '?', '#'], c ∉ authorityText zero (authorityOf rest) := by
    intro c hc hmem
    simp only [List.mem_cons, List.not_mem_nil, or_false] at hc
    obtain hmem | hmem := authorityText_chars c hmem
    · obtain rfl | rfl | rfl := hc
      · exact first_free _ _ hmem
      · exact first_free _ _ (first_subset hmem)
      · exact first_free _ _ (first_subset (first_subset hmem))
    · obtain rfl | rfl | rfl := hc <;> exact absurd hmem (by decide)
  obtain ⟨x, hfront, hx⟩ := parts_exist '/' (frontOf rest)
  have hdrop : (frontOf rest).drop (authorityOf rest).length = x :=
    (congrArg (List.drop (authorityOf rest).length) hfront).trans List.drop_left
  have hxs : ∀ c ∈ ['?', '#'], c ∉ x := by
    intro c hc hmem
    have hin : c ∈ frontOf rest := by
      rw [hfront]
      exact List.mem_append_right _ hmem
    simp only [List.mem_cons, List.not_mem_nil, or_false] at hc
    obtain rfl | rfl := hc
    · exact first_free _ _ hin
    · exact first_free _ _ (first_subset hin)
  have hquery : '#' ∉ queryPrinted (queryOf rest) := fun hmem =>
    absurd rfl (queryPrinted_chars (P := fun c => c ≠ '#')
      (fun part hpart c hc heq => first_free '#' rest (query_subset (part_subset hpart (heq ▸ hc))))
      (by decide) (by decide) (by decide) '#' hmem)
  have hqhead : ∀ d ∈ (queryPrinted (queryOf rest)).head?, d = '?' := by
    unfold queryPrinted
    split_ifs
    · exact fun d hd => (Option.some.inj hd).symm
    · exact nofun
  have hfhead : ∀ d ∈ (fragmentPrinted zero (fragmentOf rest)).head?, d = '#' := by
    unfold fragmentPrinted
    split_ifs
    · exact fun d hd => (Option.some.inj hd).symm
    · exact nofun
  rw [restPrinted, hdrop] at h
  rw [hdrop]
  obtain ⟨hbodies, hfragment⟩ := cut_unique (c := '#')
    (by simp [hauth '#' (by decide), hxs '#' (by decide), hquery])
    (by simp [ha '#' (by decide), hpaths '#' (by decide), hqs]) hfhead hf h
  obtain ⟨hfronts, hqueries⟩ := cut_unique (c := '?')
    (by simp [hauth '?' (by decide), hxs '?' (by decide)])
    (by simp [ha '?' (by decide), hpaths '?' (by decide)]) hqhead hq hbodies
  obtain ⟨hauthority, hx⟩ := cut_unique (hauth '/' (by decide)) (ha '/' (by decide)) hx hpath hfronts
  exact ⟨hauthority, hx, hqueries, hfragment⟩

end Rest

section Urls
variable {zero : List Char → Bool} (u : Url)

theorem Url.authority_free : ∀ c ∈ ['/', '?', '#'], c ∉ u.authority := by
  intro c hc
  have hcolon : c ≠ ':' ∧ c ≠ '@' := by
    simp only [List.mem_cons, List.not_mem_nil, or_false] at hc
    obtain rfl | rfl | rfl := hc <;> decide
  have hport : c ∉ u.port.elim [] (':' :: ·) := by
    cases hport : u.port with
    | none => exact List.not_mem_nil
    | some p => exact List.not_mem_cons_of_ne_of_not_mem hcolon.1 ((u.port_part p hport).free c hc)
  have huser : c ∉ u.user.elim [] fun user => user.1 ++ (user.2.elim [] (':' :: ·)) ++ ['@'] := by
    cases huser : u.user with
    | none => exact List.not_mem_nil
    | some user =>
      obtain ⟨hname, hpasswords⟩ := u.user_part user huser
      have hpassword : c ∉ user.2.elim [] (':' :: ·) := by
        cases hpassword : user.2 with
        | none => exact List.not_mem_nil
        | some p =>
          exact List.not_mem_cons_of_ne_of_not_mem hcolon.1
            ((hpasswords p hpassword).free c (List.mem_cons_of_mem _ hc))
      have hfree := hname.free c (List.mem_cons_of_mem _ (List.mem_cons_of_mem _ hc))
      simp [hfree, hpassword, hcolon.2]
  have hhost := u.host_part.free c (List.mem_cons_of_mem _ hc)
  rw [Url.authority, List.mem_append, List.mem_append, not_or, not_or]
  exact ⟨⟨huser, hhost⟩, hport⟩

theorem Url.path_free : (∀ d ∈ (u.path.getD []).head?, d = '/') ∧ ∀ c ∈ ['?', '#'], c ∉ u.path.getD [] := by
  cases hpath : u.path with
  | none => exact ⟨nofun, fun _ _ => List.not_mem_nil⟩
  | some p =>
    obtain ⟨hhead, hpart⟩ := u.path_part p hpath
    exact ⟨fun d hd => Option.some.inj (hd.symm.trans hhead), hpart.free⟩

theorem Url.queryText_free : (∀ d ∈ u.queryText.head?, d = '?') ∧ '#' ∉ u.queryText := by
  unfold Url.queryText
  split_ifs
  · exact ⟨nofun, List.not_mem_nil⟩
  · refine ⟨fun d hd => (Option.some.inj hd).symm, fun hmem => ?_⟩
    rw [List.mem_cons] at hmem
    obtain heq | hmem := hmem
    · exact absurd heq (by decide)
    · obtain heq | ⟨text, htext, hmem⟩ := mem_intercalate hmem
      · exact absurd heq (by decide)
      · obtain ⟨q, hq, rfl⟩ := List.mem_map.1 htext
        rw [List.mem_append, List.mem_cons] at hmem
        obtain hmem | heq | hmem := hmem
        · exact (u.query_part q hq).1.free _ (by simp) hmem
        · exact absurd heq (by decide)
        · exact (u.query_part q hq).2.free _ (by simp) hmem

theorem Url.fragment_head : ∀ d ∈ (u.fragment.elim [] ('#' :: ·)).head?, d = '#' := by
  cases u.fragment with
  | none => exact nofun
  | some f => exact fun d hd => (Option.some.inj hd).symm

theorem Url.rest_word : ∀ c ∈ u.rest, isBlank c = false := by
  have hmark : ∀ {d : Char} {t : Option (List Char)} {delimiters : List Char}, isBlank d = false →
      (∀ p ∈ t, Component delimiters p) → ∀ c ∈ t.elim [] (d :: ·), isBlank c = false := by
    intro d t delimiters hd ht
    cases t with
    | none => exact nofun
    | some p => exact List.forall_mem_cons.2 ⟨hd, (ht p rfl).word⟩
  have huser : ∀ c ∈ u.user.elim [] fun user => user.1 ++ (user.2.elim [] (':' :: ·)) ++ ['@'], isBlank c = false := by
    cases huser : u.user with
    | none => exact nofun
    | some user =>
      obtain ⟨hname, hpasswords⟩ := u.user_part user huser
      intro c hc
      change c ∈ user.1 ++ user.2.elim [] (':' :: ·) ++ ['@'] at hc
      rw [List.mem_append, List.mem_append, List.mem_singleton] at hc
      obtain (hc | hc) | rfl := hc
      · exact hname.word c hc
      · exact hmark rfl hpasswords c hc
      · rfl
  have hpath : ∀ c ∈ u.path.getD [], isBlank c = false := by
    cases hpath : u.path with
    | none => exact nofun
    | some p => exact (u.path_part p hpath).2.word
  have hquery : ∀ c ∈ u.queryText, isBlank c = false := by
    intro c hc
    unfold Url.queryText at hc
    split_ifs at hc
    · cases hc
    · rw [List.mem_cons] at hc
      obtain rfl | hc := hc
      · rfl
      · obtain rfl | ⟨text, htext, hc⟩ := mem_intercalate hc
        · rfl
        · obtain ⟨q, hq, rfl⟩ := List.mem_map.1 htext
          rw [List.mem_append, List.mem_cons] at hc
          obtain hc | rfl | hc := hc
          · exact (u.query_part q hq).1.word c hc
          · rfl
          · exact (u.query_part q hq).2.word c hc
  intro c hc
  rw [Url.rest, Url.authority] at hc
  simp only [List.mem_append] at hc
  obtain ((((hc | hc) | hc) | hc) | hc) | hc := hc
  · exact huser c hc
  · exact u.host_part.word c hc
  · exact hmark rfl u.port_part c hc
  · exact hpath c hc
  · exact hquery c hc
  · exact hmark rfl u.fragment_part c hc

theorem Url.rest_parts : authorityOf u.rest = u.authority ∧ frontOf u.rest = u.authority ++ u.path.getD [] ∧
    queryOf u.rest = element 1 (awkSplit '?' u.queryText.tail) ∧
    fragmentOf u.rest = element 1 (awkSplit '#' (u.fragment.getD [])) := by
  have ha := u.authority_free
  have hpath := u.path_free
  have hquery := u.queryText_free
  have hfront : '?' ∉ u.authority ++ u.path.getD [] := by
    simp [ha '?' (by decide), hpath.2 '?' (by decide)]
  have hbody : '#' ∉ u.authority ++ u.path.getD [] ++ u.queryText := by
    simp [ha '#' (by decide), hpath.2 '#' (by decide), hquery.2]
  obtain ⟨hbodies, hfragments⟩ := parts_eq hbody u.fragment_head
  obtain ⟨hfronts, hqueries⟩ := parts_eq hfront hquery.1
  have hauthority := (parts_eq (ha '/' (by decide)) hpath.1).1
  have htail : (u.fragment.elim [] ('#' :: ·)).tail = u.fragment.getD [] := by cases u.fragment <;> rfl
  rw [htail] at hfragments
  have hbodyEq : bodyOf u.rest = u.authority ++ u.path.getD [] ++ u.queryText := hbodies
  have hfrontEq : frontOf u.rest = u.authority ++ u.path.getD [] := by rw [frontOf, hbodyEq, hfronts]
  refine ⟨?_, hfrontEq, ?_, hfragments⟩
  · rw [authorityOf, hfrontEq, hauthority]
  · rw [queryOf, hbodyEq, hqueries]

theorem Url.query_cut {rest more : List Char} (h : u.rest = rest ++ more) : queryOf rest ⊆ u.queryText := by
  obtain ⟨x, hrest, hx⟩ := parts_exist '#' rest
  obtain ⟨y, hbody, hy⟩ := parts_exist '?' (bodyOf rest)
  have hfront : '?' ∉ u.authority ++ u.path.getD [] := by
    simp [u.authority_free '?' (by decide), u.path_free.2 '?' (by decide)]
  have hall : bodyOf rest ++ (x ++ more) =
      u.authority ++ u.path.getD [] ++ u.queryText ++ u.fragment.elim [] ('#' :: ·) := by
    rw [← List.append_assoc]
    exact (congrArg (· ++ more) hrest).symm.trans h.symm
  obtain ⟨z, hz⟩ := cut_prefixed (first_free '#' rest) u.fragment_head hall
  have hquery : queryOf rest = element 1 (awkSplit '?' y.tail) := by
    have hsecond := (parts_eq (first_free '?' (bodyOf rest)) hy).2
    rwa [← hbody] at hsecond
  rw [hquery]
  cases y with
  | nil => exact List.nil_subset _
  | cons d y =>
    obtain rfl := hy d rfl
    have hfronts : frontOf rest ++ '?' :: (y ++ z) = u.authority ++ u.path.getD [] ++ u.queryText :=
      calc frontOf rest ++ '?' :: (y ++ z) = frontOf rest ++ '?' :: y ++ z := by simp
        _ = bodyOf rest ++ z := congrArg (· ++ z) hbody.symm
        _ = _ := hz
    obtain ⟨-, htext⟩ := cut_unique (first_free '?' (bodyOf rest)) hfront (by simp) u.queryText_free.1 hfronts
    rw [← htext, List.tail_cons]
    exact fun c hc => List.mem_cons_of_mem _ (List.mem_append_left _ (first_subset hc))

theorem Url.fragment_iff : fragmentPrinted zero (fragmentOf u.rest) = u.fragment.elim [] ('#' :: ·) ↔
    ∀ f ∈ u.fragment, '#' ∉ f ∧ truthy zero f := by
  rw [u.rest_parts.2.2.2]
  cases u.fragment with
  | none => exact ⟨fun _ => by simp, fun _ => rfl⟩
  | some f =>
    simp only [Option.getD_some, Option.elim_some, Option.mem_def, Option.some.injEq, forall_eq']
    unfold fragmentPrinted
    constructor
    · intro h
      split_ifs at h with htrue
      have hf := (List.cons.inj h).2
      rw [hf] at htrue
      exact ⟨hf ▸ first_free '#' f, htrue⟩
    · rintro ⟨hfree, htrue⟩
      rw [first_plain hfree, if_pos htrue]

theorem Url.query_iff : queryPrinted (queryOf u.rest) = u.queryText ↔
    u.query = [] ∨ ∃ key value, u.query = [(key, value)] ∧ '?' ∉ key ∧ '=' ∉ value ∧ '?' ∉ value := by
  rw [u.rest_parts.2.2.1]
  have hparts := u.query_part
  rcases hquery : u.query with _ | ⟨⟨key, value⟩, _ | ⟨q, more⟩⟩
  · have hnone : u.queryText = [] := if_pos hquery
    rw [hnone]
    exact ⟨fun _ => .inl rfl, fun _ => rfl⟩
  · have hone : u.queryText = '?' :: (key ++ '=' :: value) := by simp [Url.queryText, hquery]
    obtain ⟨hkey, hvalue⟩ : Component ['=', '&', '#'] key ∧ Component ['&', '#'] value :=
      hparts (key, value) (by simp [hquery])
    have hsub : element 1 (awkSplit '?' (key ++ '=' :: value)) ⊆ key ++ '=' :: value := first_subset
    have hamp : '&' ∉ element 1 (awkSplit '?' (key ++ '=' :: value)) := by
      intro hmem
      have hin := hsub hmem
      rw [List.mem_append, List.mem_cons] at hin
      obtain hin | heq | hin := hin
      · exact hkey.free '&' (by decide) hin
      · exact absurd heq (by decide)
      · exact hvalue.free '&' (by decide) hin
    have hword : ∀ c ∈ element 1 (awkSplit '?' (key ++ '=' :: value)), isBlank c = false := by
      intro c hc
      have hin := hsub hc
      rw [List.mem_append, List.mem_cons] at hin
      obtain hin | rfl | hin := hin
      · exact hkey.word c hin
      · rfl
      · exact hvalue.word c hin
    rw [hone, List.tail_cons]
    constructor
    · intro h
      have hne : element 1 (awkSplit '?' (key ++ '=' :: value)) ≠ [] := by
        intro hnil
        rw [hnil, queryPrinted_nil] at h
        cases h
      rw [queryPrinted_one hne hamp hword, List.cons.injEq] at h
      have hprinted := h.2
      split_ifs at hprinted
      · exact absurd hprinted (by simp)
      · obtain ⟨hkeys, hvalues⟩ := cut_unique (first_free '=' _) (hkey.free '=' (by decide)) (by simp) (by simp) hprinted
        have hvalueEq := (List.cons.inj hvalues).2
        refine .inr ⟨key, value, rfl, ?_, ?_, ?_⟩
        · exact fun hmem => first_free '?' _ (first_subset (hkeys ▸ hmem))
        · exact fun hmem => second_free '=' _ (hvalueEq ▸ hmem)
        · exact fun hmem => first_free '?' _ (second_subset (hvalueEq ▸ hmem))
    · rintro (hnil | ⟨key', value', heq, hmark, hequals, hmark'⟩)
      · cases hnil
      · cases heq
        have hplain : '?' ∉ key ++ '=' :: value := by simp [hmark, hmark']
        rw [first_plain hplain] at hamp hword ⊢
        rw [queryPrinted_one (by simp) hamp hword, first_cut (hkey.free '=' (by decide)),
          second_cut (hkey.free '=' (by decide)), first_plain hequals, if_neg hkey.nonempty]
  · have hmany : '&' ∈ u.queryText := by simp [Url.queryText, hquery]
    constructor
    · intro h
      exact absurd (h ▸ hmany) (queryPrinted_free _)
    · rintro (hnil | ⟨key', value', heq, -⟩)
      · cases hnil
      · cases heq

/-- A URL comes back just where each of its parts is kept. -/
theorem roundTrip_iff (zero : List Char → Bool) (u : Url) : joinUrl zero (splitUrl u.text) = u.text ↔ Kept zero u := by
  have hcut : cutScheme u.text = (u.scheme, some u.rest) := by
    rw [Url.text, List.append_assoc]
    exact cutScheme_scheme u.scheme_part.2 u.rest
  have hsecond : secondOf u.text = (cutScheme u.rest).1 := by
    rw [secondOf, hcut]
    rfl
  have hequal : joinUrl zero (splitUrl u.text) = u.text ↔ restPrinted zero (cutScheme u.rest).1 = u.rest := by
    rw [join_split, hcut, hsecond, Url.text, List.append_assoc, List.append_cancel_left_eq, List.append_cancel_left_eq]
  have hparts : ∀ {rest : List Char}, restPrinted zero rest = u.rest →
      authorityText zero (authorityOf rest) = u.authority ∧
      (frontOf rest).drop (authorityOf rest).length = u.path.getD [] ∧ queryPrinted (queryOf rest) = u.queryText ∧
      fragmentPrinted zero (fragmentOf rest) = u.fragment.elim [] ('#' :: ·) := fun h =>
    restPrinted_parts u.authority_free u.path_free.1 u.path_free.2 u.queryText_free.1 u.queryText_free.2
      u.fragment_head h
  rw [hequal]
  obtain ⟨hwhole, hone⟩ | ⟨rest, more, hfirst, htext⟩ := cutScheme_cases u.rest
  · obtain ⟨hauthority, hfront, -, -⟩ := u.rest_parts
    rw [hwhole]
    constructor
    · intro h
      obtain ⟨hauth, -, hquery, hfragment⟩ := hparts h
      rw [hauthority] at hauth
      exact ⟨hone, authorityText_iff _ |>.1 hauth, u.query_iff.1 hquery, u.fragment_iff.1 hfragment⟩
    · intro h
      have hpath : (frontOf u.rest).drop (authorityOf u.rest).length = u.path.getD [] := by
        rw [hfront, hauthority, List.drop_left]
      rw [restPrinted, hpath, hauthority, (authorityText_iff _).2 h.authority, u.query_iff.2 h.query,
        u.fragment_iff.2 h.fragment, Url.rest]
  · rw [hfirst]
    constructor
    · intro h
      -- what stands after the second `://` is lost
      have hfree : '&' ∉ queryOf rest := fun hmem =>
        queryPrinted_free (queryOf rest) ((hparts h).2.2.1 ▸ u.query_cut htext hmem)
      have hword : ∀ c ∈ rest, isBlank c = false := fun c hc =>
        u.rest_word c (htext ▸ List.mem_append_left _ hc)
      have hle := restPrinted_length zero hfree hword
      rw [h, htext] at hle
      simp only [List.length_append] at hle
      have hthree : "://".toList.length = 3 := rfl
      omega
    · exact fun h => absurd ⟨rest, more, by rw [htext, List.append_assoc]⟩ h.scheme

theorem component_of {delimiters text : List Char} (hne : text ≠ []) (hword : text.Forall fun c => isBlank c = false)
    (hfree : delimiters.Forall fun c => c ∉ text) : Component delimiters text :=
  ⟨hne, List.forall_iff_forall_mem.1 hword, List.forall_iff_forall_mem.1 hfree⟩

def twoPairs : Url where
  scheme := "http".toList
  user := none
  host := "h".toList
  port := none
  path := none
  query := [("a".toList, "1".toList), ("b".toList, "2".toList)]
  fragment := none
  scheme_part := ⟨component_of (by decide) (by decide) trivial, by decide⟩
  user_part := nofun
  host_part := component_of (by decide) (by decide) (by decide)
  port_part := nofun
  path_part := nofun
  query_part := List.forall_iff_forall_mem.1
    ⟨⟨component_of (by decide) (by decide) (by decide), component_of (by decide) (by decide) (by decide)⟩,
      component_of (by decide) (by decide) (by decide), component_of (by decide) (by decide) (by decide)⟩
  query_keys := by decide
  fragment_part := nofun

theorem pairs_joined : joinUrl (fun text => text = ['0']) (splitUrl twoPairs.text) ≠ twoPairs.text := by
  decide

end Urls

end Mports.UrlText
