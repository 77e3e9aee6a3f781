import Mports.Distinfo
import Mports.OptionLayers

set_option autoImplicit false

namespace Mports.OptionsFile
open MakeWords OptionImplies OptionLayers ShellText Distinfo
open Relation (ReflTransGen)

/-- A character that `grep -w` counts to a word. -/
def isWordChar (c : Char) : Bool := c.isAlphanum || c = '_'

/-- What `grep -w` takes for the words of a line. -/
def tokens (line : List Char) : List Word := (line.splitOnP fun c => !isWordChar c).filter (· ≠ [])

def startsWith (name : Word) (text : List Char) : Bool :=
  name.isPrefixOf text && (text.drop name.length).head?.all fun c => !isWordChar c

/-- `grep -qw`; `inside` says whether a word character stands before the text. -/
def grepWord (name : Word) (inside : Bool) : List Char → Bool
  | [] => false
  | c :: rest => (!inside && startsWith name (c :: rest)) || grepWord name (isWordChar c) rest

section Config
variable (d : Declaration) (pkgname shown : List Char)

/-- The line for an option, of what `echo` shows of the selection. -/
def optionLine (opt : Word) : List Char :=
  (if grepWord opt false shown then "OPTIONS_FILE_SET".toList else "OPTIONS_FILE_UNSET".toList) ++ '+' :: '=' :: opt

/-- The file that `do-config` leaves. -/
def written : List Char :=
  ofLines (['#' :: " This file is auto-generated by 'make config'.".toList, '#' :: (" Options for ".toList ++ pkgname),
    "_OPTIONS_READ".toList ++ '=' :: pkgname,
    "_FILE_COMPLETE_OPTIONS_LIST".toList ++ '=' :: [' '].intercalate (complete d)] ++ (complete d).map (optionLine shown))

abbrev Vars := List Char → List Char

/-- A comment, or a variable with `=` or `+=` and a value without further variables. -/
def readLine (vars : Vars) (line : List Char) : Vars :=
  let line := line.takeWhile (· ≠ '#')
  if '=' ∈ line then
    let left := line.takeWhile (· ≠ '=')
    let value := (line.dropWhile (· ≠ '=')).drop 1
    if left.getLast? = some '+' then Function.update vars left.dropLast (vars left.dropLast ++ ' ' :: value)
    else Function.update vars left value
  else vars

def readFile (text : List Char) (vars : Vars) : Vars := (linesOf text).foldl readLine vars

/-- The settings when the file has been read, which is new each time, and then `OPTIONS_FILE.local`; under `MAGUS`
neither is. -/
def configured (locals : Vars → Vars) (s : Settings) : Settings :=
  if s.magus then s
  else
    let vars := locals (readFile (written d pkgname shown) fun _ => [])
    { s with fileSet := fields (vars "OPTIONS_FILE_SET".toList), fileUnset := fields (vars "OPTIONS_FILE_UNSET".toList) }

/-- `OPTIONS_FILE.local` leaves alone what the file sets. -/
def Untouched (locals : Vars → Vars) : Prop :=
  ∀ vars, locals vars "OPTIONS_FILE_SET".toList = vars "OPTIONS_FILE_SET".toList ∧
    locals vars "OPTIONS_FILE_UNSET".toList = vars "OPTIONS_FILE_UNSET".toList

end Config

section Words
variable {name : Word}

def Token (name : Word) : Prop := name ≠ [] ∧ ∀ c ∈ name, isWordChar c = true

instance (name : Word) : Decidable (Token name) := @instDecidableAnd _ _ _ (List.decidableBAll _ name)

theorem startsWith_iff (h : Token name) (text : List Char) : startsWith name text = true ↔ name = text.takeWhile isWordChar := by
  unfold startsWith
  rw [Bool.and_eq_true, List.isPrefixOf_iff_prefix]
  constructor
  · rintro ⟨⟨rest, rfl⟩, hrest⟩
    rw [List.drop_left] at hrest
    rw [takeWhile_stop h.2 fun c hc => ?_]
    simpa [Option.mem_def.1 hc] using hrest
  · intro hname
    refine ⟨hname ▸ List.takeWhile_prefix _, ?_⟩
    have hdrop : text.drop name.length = text.dropWhile isWordChar := by
      have htext := List.takeWhile_append_dropWhile (p := isWordChar) (l := text)
      rw [← hname] at htext
      conv_lhs => rw [← htext]
      exact List.drop_left
    rw [hdrop, Option.all_eq_true]
    exact fun c hc => by simpa using dropWhile_head isWordChar text c hc

theorem grepWord_parts (h : Token name) (text : List Char) : ∃ part parts, (text.splitOnP fun c => !isWordChar c) = part :: parts ∧
    part = text.takeWhile isWordChar ∧ (grepWord name false text = true ↔ name ∈ part :: parts) ∧
      (grepWord name true text = true ↔ name ∈ parts) := by
  induction text with
  | nil => exact ⟨[], [], by simp, rfl, by simp [grepWord, h.1], by simp [grepWord]⟩
  | cons c text ih =>
    obtain ⟨part, parts, hsplit, hpart, houtside, hinside⟩ := ih
    rw [List.splitOnP_cons_eq_if_modifyHead, hsplit]
    by_cases hc : isWordChar c = true
    · -- the word goes on
      have hfirst : (c :: text).takeWhile isWordChar = c :: part := by rw [List.takeWhile_cons_of_pos hc, hpart]
      refine ⟨c :: part, parts, by simp [hc], hfirst.symm, ?_, ?_⟩
      · rw [grepWord, hc, Bool.or_eq_true, hinside, Bool.not_false, Bool.true_and, startsWith_iff h, hfirst, List.mem_cons]
      · rw [grepWord, hc, Bool.or_eq_true, hinside]
        simp
    · have hstart : startsWith name (c :: text) = false := by
        rw [Bool.eq_false_iff, Ne, startsWith_iff h, List.takeWhile_cons_of_neg hc]
        exact h.1
      have hrest : ∀ inside, grepWord name inside (c :: text) = true ↔ name ∈ part :: parts := by
        intro inside
        rw [grepWord, hstart, Bool.eq_false_iff.2 hc, Bool.and_false, Bool.false_or, houtside]
      refine ⟨[], part :: parts, by simp [hc], by rw [List.takeWhile_cons_of_neg hc], ?_, hrest true⟩
      rw [hrest, List.mem_cons (a := name) (b := []), or_iff_right h.1]

theorem grepWord_iff (h : Token name) (text : List Char) : grepWord name false text = true ↔ name ∈ tokens text := by
  obtain ⟨part, parts, hsplit, -, houtside, -⟩ := grepWord_parts h text
  rw [houtside, tokens, hsplit, List.mem_filter, decide_eq_true_eq, and_iff_left h.1]

end Words

section Reading

theorem token_chars {c : Char} (h : isWordChar c = true) : c ≠ '#' ∧ c ≠ '\n' ∧ isBlank c = false := by
  refine ⟨?_, ?_, ?_⟩
  · rintro rfl
    revert h
    decide
  · rintro rfl
    revert h
    decide
  · rw [Bool.eq_false_iff]
    intro hblank
    simp only [isBlank, Bool.or_eq_true, decide_eq_true_eq] at hblank
    rcases hblank with (rfl | rfl) | rfl <;> revert h <;> decide

theorem readLine_add (vars : Vars) (name : List Char) {value : List Char} (hname : '#' ∉ name ∧ '=' ∉ name) (hvalue : '#' ∉ value) :
    readLine vars (name ++ '+' :: '=' :: value) = Function.update vars name (vars name ++ ' ' :: value) := by
  have hline : (name ++ '+' :: '=' :: value).takeWhile (· ≠ '#') = name ++ '+' :: '=' :: value := by
    rw [List.takeWhile_eq_self_iff]
    intro c hc
    have hne : c ≠ '#' := by
      rintro rfl
      simp only [List.mem_append, List.mem_cons] at hc
      rcases hc with hc | hc | hc | hc
      · exact hname.1 hc
      · revert hc
        decide
      · revert hc
        decide
      · exact hvalue hc
    simpa using hne
  have hleft : ∀ c ∈ name ++ ['+'], decide (c ≠ '=') = true := by
    intro c hc
    rcases List.mem_append.1 hc with hc | hc
    · exact decide_eq_true fun h => hname.2 (h ▸ hc)
    · rw [List.mem_singleton.1 hc]
      rfl
  have htake : (name ++ '+' :: '=' :: value).takeWhile (· ≠ '=') = name ++ ['+'] := by
    rw [List.append_cons, List.takeWhile_append_of_pos hleft]
    simp
  have hdrop : (name ++ '+' :: '=' :: value).dropWhile (· ≠ '=') = '=' :: value := by
    rw [List.append_cons, List.dropWhile_append_of_pos hleft]
    simp
  unfold readLine
  dsimp only
  rw [hline, htake, hdrop, if_pos (by simp), if_pos (by simp), List.dropLast_concat]
  rfl

theorem readLine_comment (vars : Vars) (rest : List Char) : readLine vars ('#' :: rest) = vars := by simp [readLine]

theorem readLine_set (vars : Vars) (name : List Char) {value : List Char} (hname : '#' ∉ name ∧ '=' ∉ name) (hlast : name.getLast? ≠ some '+') :
    readLine vars (name ++ '=' :: value) = Function.update vars name (value.takeWhile (· ≠ '#')) := by
  have hcomment : ∀ c ∈ name, decide (c ≠ '#') = true := fun c hc => decide_eq_true fun h => hname.1 (h ▸ hc)
  have hleft : ∀ c ∈ name, decide (c ≠ '=') = true := fun c hc => decide_eq_true fun h => hname.2 (h ▸ hc)
  have hline : (name ++ '=' :: value).takeWhile (· ≠ '#') = name ++ '=' :: value.takeWhile (· ≠ '#') := by
    rw [List.takeWhile_append_of_pos hcomment]
    simp
  have htake : (name ++ '=' :: value.takeWhile (· ≠ '#')).takeWhile (· ≠ '=') = name := by
    rw [List.takeWhile_append_of_pos hleft]
    simp
  have hdrop : (name ++ '=' :: value.takeWhile (· ≠ '#')).dropWhile (· ≠ '=') = '=' :: value.takeWhile (· ≠ '#') := by
    rw [List.dropWhile_append_of_pos hleft]
    simp
  unfold readLine
  dsimp only
  rw [hline, htake, hdrop, if_pos (by simp), if_neg hlast]
  rfl

variable (shown : List Char)

theorem readLines_options {opts : List Word} (hopts : ∀ opt ∈ opts, Token opt) (vars : Vars) :
    fields ((opts.map (optionLine shown)).foldl readLine vars "OPTIONS_FILE_SET".toList) =
        fields (vars "OPTIONS_FILE_SET".toList) ++ opts.filter (· ∈ tokens shown) ∧
      fields ((opts.map (optionLine shown)).foldl readLine vars "OPTIONS_FILE_UNSET".toList) =
        fields (vars "OPTIONS_FILE_UNSET".toList) ++ opts.filter (· ∉ tokens shown) := by
  induction opts generalizing vars with
  | nil => simp
  | cons opt opts ih =>
    obtain ⟨hset, hunset⟩ := ih (fun o ho => hopts o (List.mem_cons_of_mem _ ho)) (readLine vars (optionLine shown opt))
    have htoken := hopts opt List.mem_cons_self
    have hplain : '#' ∉ opt := fun hmem => (token_chars (htoken.2 '#' hmem)).1 rfl
    have hword : ∀ text : List Char, fields (text ++ ' ' :: opt) = fields text ++ [opt] := by
      intro text
      rw [fields_append rfl, fields_last (fun c hc => (token_chars (htoken.2 c hc)).2.2) htoken.1]
    rw [List.map_cons, List.foldl_cons, hset, hunset]
    by_cases hshown : opt ∈ tokens shown
    · have hread : readLine vars (optionLine shown opt) = Function.update vars "OPTIONS_FILE_SET".toList
          (vars "OPTIONS_FILE_SET".toList ++ ' ' :: opt) := by
        rw [optionLine, if_pos ((grepWord_iff htoken shown).2 hshown)]
        exact readLine_add vars "OPTIONS_FILE_SET".toList (by decide) hplain
      rw [hread, Function.update_self, Function.update_of_ne (by decide), hword]
      simp [hshown]
    · have hread : readLine vars (optionLine shown opt) = Function.update vars "OPTIONS_FILE_UNSET".toList
          (vars "OPTIONS_FILE_UNSET".toList ++ ' ' :: opt) := by
        rw [optionLine, if_neg fun h => hshown ((grepWord_iff htoken shown).1 h)]
        exact readLine_add vars "OPTIONS_FILE_UNSET".toList (by decide) hplain
      rw [hread, Function.update_self, Function.update_of_ne (by decide), hword]
      simp [hshown]

variable {d : Declaration} {pkgname : List Char}

theorem written_lines (hopts : ∀ opt ∈ complete d, Token opt) (hpkgname : '\n' ∉ pkgname) :
    linesOf (written d pkgname shown) = ['#' :: " This file is auto-generated by 'make config'.".toList,
      '#' :: (" Options for ".toList ++ pkgname), "_OPTIONS_READ".toList ++ '=' :: pkgname,
      "_FILE_COMPLETE_OPTIONS_LIST".toList ++ '=' :: [' '].intercalate (complete d)] ++
        (complete d).map (optionLine shown) := by
  refine linesOf_ofLines fun l hl => ?_
  have hjoined : '\n' ∉ [' '].intercalate (complete d) := by
    intro hmem
    obtain hmem | ⟨opt, hopt, hmem⟩ := mem_intercalate hmem
    · revert hmem
      decide
    · exact (token_chars ((hopts opt hopt).2 _ hmem)).2.1 rfl
  have hbehind : ∀ start rest : List Char, '\n' ∉ start → '\n' ∉ rest → '\n' ∉ start ++ rest := by
    intro start rest hstart hrest hmem
    exact (List.mem_append.1 hmem).elim hstart hrest
  have hvalue : ∀ rest : List Char, '\n' ∉ rest → '\n' ∉ '=' :: rest := fun rest hrest =>
    List.not_mem_cons_of_ne_of_not_mem (by decide) hrest
  have hcomment : ∀ rest : List Char, '\n' ∉ rest → '\n' ∉ '#' :: rest := fun rest hrest =>
    List.not_mem_cons_of_ne_of_not_mem (by decide) hrest
  rcases List.mem_append.1 hl with hl | hl
  · simp only [List.mem_cons, List.not_mem_nil, or_false] at hl
    rcases hl with rfl | rfl | rfl | rfl
    · exact hcomment _ (by decide)
    · exact hcomment _ (hbehind _ _ (by decide) hpkgname)
    · exact hbehind _ _ (by decide) (hvalue _ hpkgname)
    · exact hbehind _ _ (by decide) (hvalue _ hjoined)
  · obtain ⟨opt, hopt, rfl⟩ := List.mem_map.1 hl
    have hopt' : '\n' ∉ '+' :: '=' :: opt := List.not_mem_cons_of_ne_of_not_mem (by decide)
      (hvalue _ fun hmem => (token_chars ((hopts opt hopt).2 _ hmem)).2.1 rfl)
    unfold optionLine
    split_ifs
    · exact hbehind _ _ (by decide) hopt'
    · exact hbehind _ _ (by decide) hopt'

/-- Nothing is set or unset before the lines of the options. -/
theorem readFile_written (hopts : ∀ opt ∈ complete d, Token opt) (hpkgname : '\n' ∉ pkgname) :
    ∃ vars : Vars, vars "OPTIONS_FILE_SET".toList = [] ∧ vars "OPTIONS_FILE_UNSET".toList = [] ∧
      readFile (written d pkgname shown) (fun _ => []) = ((complete d).map (optionLine shown)).foldl readLine vars := by
  have hother : ∀ name ∈ ["OPTIONS_FILE_SET".toList, "OPTIONS_FILE_UNSET".toList],
      name ≠ "_OPTIONS_READ".toList ∧ name ≠ "_FILE_COMPLETE_OPTIONS_LIST".toList := by decide
  have hempty : ∀ name ∈ ["OPTIONS_FILE_SET".toList, "OPTIONS_FILE_UNSET".toList], ∀ a b : List Char,
      Function.update (Function.update (fun _ => [] : Vars) "_OPTIONS_READ".toList a)
        "_FILE_COMPLETE_OPTIONS_LIST".toList b name = [] := by
    intro name hname a b
    obtain ⟨hread, hlist⟩ := hother name hname
    rw [Function.update_of_ne hlist, Function.update_of_ne hread]
  refine ⟨_, hempty _ (by simp) (pkgname.takeWhile (· ≠ '#')) (([' '].intercalate (complete d)).takeWhile (· ≠ '#')),
    hempty _ (by simp) _ _, ?_⟩
  rw [readFile, written_lines shown hopts hpkgname, List.foldl_append, List.foldl_cons, List.foldl_cons, List.foldl_cons,
    List.foldl_cons, List.foldl_nil, readLine_comment, readLine_comment, readLine_set _ _ (by decide) (by decide),
    readLine_set _ _ (by decide) (by decide)]

theorem configured_sets (hopts : ∀ opt ∈ complete d, Token opt) (hpkgname : '\n' ∉ pkgname) {locals : Vars → Vars}
    (hlocals : Untouched locals) {s : Settings} (hmagus : s.magus = false) :
    (configured d pkgname shown locals s).fileSet = (complete d).filter (· ∈ tokens shown) ∧
      (configured d pkgname shown locals s).fileUnset = (complete d).filter (· ∉ tokens shown) := by
  obtain ⟨vars, hset, hunset, hread⟩ := readFile_written shown hopts hpkgname
  obtain ⟨hoptions, hoptions'⟩ := readLines_options shown hopts vars
  rw [hset] at hoptions
  rw [hunset] at hoptions'
  obtain ⟨hlocalSet, hlocalUnset⟩ := hlocals (((complete d).map (optionLine shown)).foldl readLine vars)
  unfold configured
  rw [if_neg (by simp [hmagus]), hread]
  exact ⟨(congrArg fields hlocalSet).trans hoptions, (congrArg fields hlocalUnset).trans hoptions'⟩

theorem configured_magus (locals : Vars → Vars) (s : Settings) : (configured d pkgname shown locals s).magus = s.magus := by
  unfold configured
  split_ifs <;> rfl

end Reading

section Layers
variable {complete : List Word}

theorem setOptions_port (opts : List Word) (l : Layer) (x : Word) :
    x ∈ (setOptions complete opts l).port ↔ x ∈ l.port ∨ (x ∈ opts ∧ hasMatch x complete = true) := by
  induction opts generalizing l with
  | nil => simp [setOptions]
  | cons opt opts ih =>
    rw [setOptions, List.foldl_cons]
    change x ∈ (setOptions complete opts _).port ↔ _
    rw [ih, List.mem_cons]
    split_ifs with hopt
    · rw [List.mem_append, List.mem_singleton]
      constructor
      · rintro ((h | rfl) | h)
        · exact .inl h
        · exact .inr ⟨.inl rfl, hopt⟩
        · exact .inr ⟨.inr h.1, h.2⟩
      · rintro (h | ⟨rfl | h, hmatch⟩)
        · exact .inl (.inl h)
        · exact .inl (.inr rfl)
        · exact .inr ⟨h, hmatch⟩
    · constructor
      · exact fun h => h.imp_right fun h => ⟨.inr h.1, h.2⟩
      · rintro (h | ⟨rfl | h, hmatch⟩)
        · exact .inl h
        · exact absurd hmatch hopt
        · exact .inr ⟨h, hmatch⟩

theorem setOptions_new (opts : List Word) (l : Layer) (x : Word) :
    x ∈ (setOptions complete opts l).new ↔ x ∈ l.new ∧ ∀ opt ∈ opts, hasMatch opt complete = true → strMatch opt x = false := by
  induction opts generalizing l with
  | nil => simp [setOptions]
  | cons opt opts ih =>
    rw [setOptions, List.foldl_cons]
    change x ∈ (setOptions complete opts _).new ↔ _
    rw [ih, List.forall_mem_cons]
    split_ifs with hopt
    · simp [excluding, hopt, and_assoc]
    · simp [hopt]

theorem unsetOptions_port (opts : List Word) (l : Layer) (x : Word) :
    x ∈ (unsetOptions opts l).port ↔ x ∈ l.port ∧ ∀ opt ∈ opts, strMatch opt x = false := by
  induction opts generalizing l with
  | nil => simp [unsetOptions]
  | cons opt opts ih =>
    rw [unsetOptions, List.foldl_cons]
    change x ∈ (unsetOptions opts _).port ↔ _
    rw [ih, List.forall_mem_cons]
    simp [excluding, and_assoc]

theorem unsetOptions_new (opts : List Word) (l : Layer) (x : Word) :
    x ∈ (unsetOptions opts l).new ↔ x ∈ l.new ∧ ∀ opt ∈ opts, strMatch opt x = false := by
  induction opts generalizing l with
  | nil => simp [unsetOptions]
  | cons opt opts ih =>
    rw [unsetOptions, List.foldl_cons]
    change x ∈ (unsetOptions opts _).new ↔ _
    rw [ih, List.forall_mem_cons]
    simp [excluding, and_assoc]

/-- Settings that look at each option on its own, and announce none as new. -/
def Layering (f : Layer → Layer) : Prop :=
  ∃ keep on : Word → Prop, (∀ l x, x ∈ (f l).port ↔ (x ∈ l.port ∧ keep x) ∨ on x) ∧ ∀ l, ∀ x ∈ (f l).new, x ∈ l.new

theorem layering_id : Layering id := ⟨fun _ => True, fun _ => False, by simp, by simp⟩

theorem Layering.set {f : Layer → Layer} (h : Layering f) (opts : List Word) :
    Layering fun l => setOptions complete opts (f l) := by
  obtain ⟨keep, on, hport, hnew⟩ := h
  refine ⟨keep, fun x => on x ∨ (x ∈ opts ∧ hasMatch x complete = true), fun l x => ?_, fun l x hx => ?_⟩
  · rw [setOptions_port, hport, or_assoc]
  · exact hnew l x ((setOptions_new opts (f l) x).1 hx).1

theorem Layering.unset {f : Layer → Layer} (h : Layering f) (opts : List Word) :
    Layering fun l => unsetOptions opts (f l) := by
  obtain ⟨keep, on, hport, hnew⟩ := h
  refine ⟨fun x => keep x ∧ ∀ opt ∈ opts, strMatch opt x = false, fun x => on x ∧ ∀ opt ∈ opts, strMatch opt x = false,
    fun l x => ?_, fun l x hx => ?_⟩
  · rw [unsetOptions_port, hport, or_and_right, and_assoc]
  · exact hnew l x ((unsetOptions_new opts (f l) x).1 hx).1

end Layers

section Settings
variable (d : Declaration) (s : Settings)

def before : Layer :=
  let set := setOptions (complete d)
  let l : Layer := ⟨declaredOptions d, complete d⟩
  if s.magus then l else unsetOptions s.nameUnset (set s.nameSet (unsetOptions s.unset (set s.set l)))

def withFile : Layer := unsetOptions s.fileUnset (setOptions (complete d) s.fileSet (before d s))

def after (l : Layer) : Layer :=
  let set := setOptions (complete d)
  let l := unsetOptions s.unsetForce (set s.setForce l)
  let l := unsetOptions s.nameUnsetForce (set s.nameSetForce l)
  unsetOptions s.withoutOpts (set s.withOpts l)

theorem settled_eq : settled d s = after d s (withFile d s) := rfl

variable (pkgname shown : List Char) (locals : Vars → Vars)

theorem before_configured : before d (configured d pkgname shown locals s) = before d s := by
  unfold configured
  split_ifs <;> rfl

theorem after_configured : after d (configured d pkgname shown locals s) = after d s := by
  unfold configured
  split_ifs <;> rfl

theorem after_layering : Layering (after d s) :=
  (((((layering_id.set _).unset _).set _).unset _).set _).unset _

theorem before_new : ∀ x ∈ (before d s).new, x ∈ complete d := by
  have hlayering : Layering fun l => unsetOptions s.nameUnset (setOptions (complete d) s.nameSet
      (unsetOptions s.unset (setOptions (complete d) s.set l))) := (((layering_id.set _).unset _).set _).unset _
  obtain ⟨-, -, -, hnew⟩ := hlayering
  unfold before
  split_ifs
  · exact fun x hx => hx
  · exact fun x hx => hnew _ x hx

end Settings

/-- A text that make reads as it is written. -/
def Literal (text : List Char) : Prop := ∀ c ∈ text, c ∉ ['\n', '\\', '$']

def Unforced (s : Settings) : Prop :=
  s.setForce = [] ∧ s.unsetForce = [] ∧ s.nameSetForce = [] ∧ s.nameUnsetForce = [] ∧ s.withOpts = [] ∧ s.withoutOpts = []

section RoundTrip
variable {p : Port} (hopts : ∀ opt ∈ complete p.toDeclaration, Token opt) {pkgname : List Char} (hpkgname : Literal pkgname)
  {locals : Vars → Vars} (hlocals : Untouched locals)
include hopts hpkgname hlocals

/-- The layer of the file: every option is in it that was chosen, and none is left to ask for. -/
theorem file_layer {s : Settings} (hmagus : s.magus = false) (shown : List Char) :
    let s' := configured p.toDeclaration pkgname shown locals s
    let l := withFile p.toDeclaration s'
    (∀ x ∈ complete p.toDeclaration, x ∈ l.port ↔ x ∈ tokens shown) ∧
      (∀ x ∉ complete p.toDeclaration, x ∈ l.port ↔ x ∈ (before p.toDeclaration s).port) ∧ l.new = [] := by
  intro s' l
  obtain ⟨hset, hunset⟩ := configured_sets shown hopts (fun hmem => hpkgname _ hmem (by simp)) hlocals hmagus
  have hplain : ∀ x ∈ complete p.toDeclaration, Plain x := fun x hx => (complete_names p x hx).1.2
  have hmatches : ∀ opt ∈ complete p.toDeclaration, ∀ x, strMatch opt x = false ↔ x ≠ opt := fun opt hopt x => by
    rw [Bool.eq_false_iff, Ne, strMatch_plain (hplain opt hopt)]
  have hport : ∀ x, x ∈ l.port ↔ (x ∈ (before p.toDeclaration s).port ∨ (x ∈ s'.fileSet ∧
      hasMatch x (complete p.toDeclaration) = true)) ∧ ∀ opt ∈ s'.fileUnset, strMatch opt x = false := fun x => by
    rw [← before_configured p.toDeclaration s pkgname shown locals]
    change x ∈ (unsetOptions s'.fileUnset (setOptions (complete p.toDeclaration) s'.fileSet (before p.toDeclaration s'))).port ↔ _
    rw [unsetOptions_port, setOptions_port]
  refine ⟨fun x hx => ?_, fun x hx => ?_, List.eq_nil_iff_forall_not_mem.2 fun x hx => ?_⟩
  · rw [hport, hset, hunset]
    simp only [List.mem_filter, decide_eq_true_eq, hasMatch_plain (hplain x hx)]
    constructor
    · rintro ⟨-, hkept⟩
      by_contra hnot
      exact (hmatches x hx x).1 (hkept x ⟨hx, by simpa using hnot⟩) rfl
    · refine fun hshown => ⟨.inr ⟨⟨hx, hshown⟩, hx⟩, fun opt hopt => (hmatches opt hopt.1 x).2 ?_⟩
      rintro rfl
      simp [hshown] at hopt
  · rw [hport, hset, hunset]
    simp only [List.mem_filter, decide_eq_true_eq]
    constructor
    · rintro ⟨h | ⟨⟨hmem, -⟩, -⟩, -⟩
      · exact h
      · exact absurd hmem hx
    · exact fun h => ⟨.inl h, fun opt hopt => (hmatches opt hopt.1 x).2 fun heq => hx (heq ▸ hopt.1)⟩
  · obtain ⟨hnew, hnotUnset⟩ := (unsetOptions_new _ _ x).1 hx
    obtain ⟨hnew, hnotSet⟩ := (setOptions_new _ _ x).1 hnew
    have hmem := before_new p.toDeclaration s' x hnew
    by_cases hshown : x ∈ tokens shown
    · have hfile : x ∈ s'.fileSet := by rw [hset]; exact List.mem_filter.2 ⟨hmem, decide_eq_true hshown⟩
      exact (hmatches x hmem x).1 (hnotSet x hfile ((hasMatch_plain (hplain x hmem) _).2 hmem)) rfl
    · have hfile : x ∈ s'.fileUnset := by rw [hunset]; exact List.mem_filter.2 ⟨hmem, decide_eq_true hshown⟩
      exact (hmatches x hmem x).1 (hnotUnset x hfile) rfl

omit hopts hpkgname hlocals in
theorem settled_configured (s : Settings) (shown : List Char) :
    settled p.toDeclaration (configured p.toDeclaration pkgname shown locals s) =
      after p.toDeclaration s (withFile p.toDeclaration (configured p.toDeclaration pkgname shown locals s)) := by
  rw [settled_eq, after_configured]

omit hopts hpkgname hlocals in
theorem complete_not_slave {c : Word} (hc : c ∈ complete p.toDeclaration) : c ∉ p.slave := fun hmem =>
  ((mem_complete p c).1 hc).2 (allExclude_listed p (.inr hmem))

/-- Where nothing is forced after the file, the chosen options and what they imply are active. -/
theorem configured_active {s : Settings} (hmagus : s.magus = false) (hforced : Unforced s) (shown : List Char) {c : Word}
    (hc : c ∈ complete p.toDeclaration) : c ∈ portOptions p.toDeclaration (configured p.toDeclaration pkgname shown locals s) ↔
      ∃ x ∈ complete p.toDeclaration, x ∈ tokens shown ∧ ReflTransGen (Implies p.implies (complete p.toDeclaration)) x c := by
  obtain ⟨hchosen, -, -⟩ := file_layer hopts hpkgname hlocals hmagus shown
  have hstart : ∀ {x}, x ∉ complete p.toDeclaration → ReflTransGen (Implies p.implies (complete p.toDeclaration)) x c → x = c := by
    intro x hx hxc
    rcases ReflTransGen.cases_head hxc with rfl | ⟨y, hxy, -⟩
    · rfl
    · exact absurd hxy.1 hx
  have hsettled : settled p.toDeclaration (configured p.toDeclaration pkgname shown locals s) =
      withFile p.toDeclaration (configured p.toDeclaration pkgname shown locals s) := by
    obtain ⟨h1, h2, h3, h4, h5, h6⟩ := hforced
    rw [settled_configured]
    simp [after, h1, h2, h3, h4, h5, h6, setOptions, unsetOptions]
  rw [mem_portOptions, or_iff_left (complete_not_slave hc), hsettled]
  constructor
  · rintro ⟨x, hx, hxc⟩
    by_cases hmem : x ∈ complete p.toDeclaration
    · exact ⟨x, hmem, (hchosen x hmem).1 hx, hxc⟩
    · exact absurd (hstart hmem hxc ▸ hc) hmem
  · rintro ⟨x, hmem, hx, hxc⟩
    exact ⟨x, (hchosen x hmem).2 hx, hxc⟩

/-- The dialog that is accepted as it shows the options changes none of them. -/
theorem configured_again {s : Settings} (hmagus : s.magus = false) (shown : List Char) {again : List Char}
    (hagain : ∀ c ∈ complete p.toDeclaration,
      c ∈ tokens again ↔ c ∈ portOptions p.toDeclaration (configured p.toDeclaration pkgname shown locals s)) (c : Word) :
    c ∈ portOptions p.toDeclaration (configured p.toDeclaration pkgname again locals
      (configured p.toDeclaration pkgname shown locals s)) ↔
        c ∈ portOptions p.toDeclaration (configured p.toDeclaration pkgname shown locals s) := by
  have hmagus' : (configured p.toDeclaration pkgname shown locals s).magus = false := (configured_magus shown locals s).trans hmagus
  obtain ⟨-, hother, -⟩ := file_layer hopts hpkgname hlocals hmagus shown
  obtain ⟨hchosen', hother', -⟩ := file_layer hopts hpkgname hlocals hmagus' again
  have hsettled' : settled p.toDeclaration (configured p.toDeclaration pkgname shown locals s) = _ := settled_configured s shown
  have hsettled : settled p.toDeclaration (configured p.toDeclaration pkgname again locals
    (configured p.toDeclaration pkgname shown locals s)) = _ := settled_configured _ again
  rw [after_configured] at hsettled
  have hbefore := before_configured p.toDeclaration s pkgname shown locals
  generalize configured p.toDeclaration pkgname shown locals s = s' at *
  obtain ⟨keep, on, hport, -⟩ := after_layering p.toDeclaration s
  have hfirst := hport (withFile p.toDeclaration s')
  have hsecond := hport (withFile p.toDeclaration (configured p.toDeclaration pkgname again locals s'))
  rw [← hsettled'] at hfirst
  rw [← hsettled] at hsecond
  -- what the dialog does not show comes from the settings before, in both
  have hsame : ∀ x ∉ complete p.toDeclaration,
      x ∈ (settled p.toDeclaration (configured p.toDeclaration pkgname again locals s')).port ↔ x ∈ (settled p.toDeclaration s').port := by
    intro x hx
    have hfile : x ∈ (withFile p.toDeclaration (configured p.toDeclaration pkgname again locals s')).port ↔
        x ∈ (withFile p.toDeclaration s').port := by
      rw [hother' x hx, hother x hx, hbefore]
    exact (hsecond x).trans ((or_congr_left (and_congr_left' hfile)).trans (hfirst x).symm)
  rw [mem_portOptions, mem_portOptions]
  refine or_congr_left ⟨?_, ?_⟩
  · rintro ⟨x, hx, hxc⟩
    by_cases hmem : x ∈ complete p.toDeclaration
    · rcases (hsecond x).1 hx with ⟨hfile, -⟩ | hon
      · obtain ⟨y, hy, hyx⟩ := ((mem_portOptions p s' x).1 ((hagain x hmem).1 ((hchosen' x hmem).1 hfile))).resolve_right
          (complete_not_slave hmem)
        exact ⟨y, hy, hyx.trans hxc⟩
      · exact ⟨x, (hfirst x).2 (.inr hon), hxc⟩
    · exact ⟨x, (hsame x hmem).1 hx, hxc⟩
  · rintro ⟨x, hx, hxc⟩
    by_cases hmem : x ∈ complete p.toDeclaration
    · refine ⟨x, (hsecond x).2 ?_, hxc⟩
      rcases (hfirst x).1 hx with ⟨-, hkeep⟩ | hon
      · exact .inl ⟨(hchosen' x hmem).2 ((hagain x hmem).2 ((mem_portOptions p s' x).2 (.inl ⟨x, hx, .refl⟩))), hkeep⟩
      · exact .inr hon
    · exact ⟨x, (hsame x hmem).2 hx, hxc⟩

/-- An option is active after the dialog where one that was chosen implies it, nothing is asked for as new, and the dialog
that is accepted again as it shows the options changes none of them. -/
theorem config_round_trip {s : Settings} (hmagus : s.magus = false) (shown : List Char) :
    let s' := configured p.toDeclaration pkgname shown locals s
    (settled p.toDeclaration s').new = [] ∧
      (Unforced s → ∀ c ∈ complete p.toDeclaration, c ∈ portOptions p.toDeclaration s' ↔
        ∃ x ∈ complete p.toDeclaration, x ∈ tokens shown ∧ ReflTransGen (Implies p.implies (complete p.toDeclaration)) x c) ∧
      ∀ again, (∀ c ∈ complete p.toDeclaration, c ∈ tokens again ↔ c ∈ portOptions p.toDeclaration s') → ∀ c,
        c ∈ portOptions p.toDeclaration (configured p.toDeclaration pkgname again locals s') ↔ c ∈ portOptions p.toDeclaration s' := by
  intro s'
  obtain ⟨-, -, hnew⟩ := file_layer hopts hpkgname hlocals hmagus shown
  obtain ⟨_, _, -, hafter⟩ := after_layering p.toDeclaration s
  refine ⟨List.eq_nil_iff_forall_not_mem.2 fun x hx => ?_, fun hforced c hc => ?_, fun again hagain c => ?_⟩
  · rw [settled_configured] at hx
    exact List.not_mem_nil (hnew ▸ hafter _ x hx)
  · exact configured_active hopts hpkgname hlocals hmagus hforced shown hc
  · exact configured_again hopts hpkgname hlocals hmagus shown hagain c

end RoundTrip

theorem no_names : ∀ x ∈ ([] : List Word), Name x := nofun

def viewer : Port where
  define := []
  defineArch := []
  default := []
  defaultArch := none
  defaultOtherArchs := []
  groups kind := if kind = .group then ["FORMATS".toList] else []
  members _ m := if m = "FORMATS".toList then ["PDF".toList, "FONTS".toList] else []
  exclude := []
  excludeArch := []
  excludeOpsys := []
  excludeOsrel := []
  slave := []
  implies opt := if opt = "PDF".toList then ["FONTS".toList] else []
  initial := []
  define_names := no_names
  defineArch_names := no_names
  groups_names kind := by
    unfold Name OptionName
    cases kind <;> decide
  members_names kind := by
    unfold Name OptionName
    cases kind <;> decide
  exclude_names := no_names
  implies_names x y hy := by
    split_ifs at hy with hx
    · rw [List.mem_singleton.1 hy]
      unfold Name OptionName
      decide
    · exact absurd hy List.not_mem_nil

theorem viewer_members (kind : Kind) (m : Word) :
    viewer.members kind m = if m = "FORMATS".toList then ["PDF".toList, "FONTS".toList] else [] := rfl

theorem viewer_complete (x : Word) : x ∈ complete viewer.toDeclaration ↔ x ∈ ["PDF".toList, "FONTS".toList] := by
  constructor
  · intro hx
    rcases ((mem_complete viewer x).1 hx).1 with hx | ⟨kind, m, hm, hx⟩
    · exact ((mem_defined _ viewer.defineArch_names x).1 hx).elim (absurd · List.not_mem_nil) (absurd · List.not_mem_nil)
    · rw [viewer_members] at hx
      split_ifs at hx
      · exact hx
      · cases hx
  · intro hx
    refine member_complete viewer .group "FORMATS".toList (by decide) ?_ List.not_mem_nil List.not_mem_nil List.not_mem_nil
    rw [viewer_members, if_pos rfl]
    exact hx

theorem viewer_config : "FONTS".toList ∈ portOptions viewer.toDeclaration
    (configured viewer.toDeclaration "viewer-1.0".toList "PDF".toList id ⟨false, [], [], [], [], [], [], [], [], [], [], [], []⟩) := by
  have htokens : ∀ opt ∈ complete viewer.toDeclaration, Token opt := by
    intro opt hopt
    have h := (viewer_complete opt).1 hopt
    simp only [List.mem_cons, List.not_mem_nil, or_false] at h
    rcases h with rfl | rfl <;> decide
  have hfonts : "FONTS".toList ∈ complete viewer.toDeclaration := (viewer_complete _).2 (by decide)
  have hpdf : "PDF".toList ∈ complete viewer.toDeclaration := (viewer_complete _).2 (by decide)
  have hlocals : Untouched id := fun vars => ⟨rfl, rfl⟩
  refine ((config_round_trip htokens (List.forall_iff_forall_mem.1 (by decide)) hlocals rfl _).2.1 (by simp [Unforced]) _ hfonts).2
    ⟨"PDF".toList, hpdf, (grepWord_iff (htokens _ hpdf) _).1 (by decide), .single ⟨hpdf, by decide⟩⟩

end Mports.OptionsFile
