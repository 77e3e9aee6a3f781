import Mathlib.Data.List.Chain
import Mathlib.Data.List.Pairwise
import Mathlib.Data.List.Perm.Basic
import Mathlib.Data.List.Sort
import Mports.GlobalMatches
import Mports.PerlText
import Mports.ShellText

set_option autoImplicit false

namespace Mports.PlistSubSort
open GlobalMatches ShellText
open PerlText (isSpace)

abbrev Text := List Char
abbrev Line := List Char

/-- `s![^!]*![^!]*!g;` at the beginning of a text, with what is behind it. -/
def sedFirst (text : Text) : Option (Text × Text) :=
  if "s!".toList.isPrefixOf text then
    match (text.drop 2).dropWhile (· ≠ '!') with
    | [] => none
    | _ :: behind =>
      if "!g;".toList.isPrefixOf (behind.dropWhile (· ≠ '!')) then
        some ("s!".toList ++ (text.drop 2).takeWhile (· ≠ '!') ++ '!' :: (behind.takeWhile (· ≠ '!') ++ "!g;".toList),
          (behind.dropWhile (· ≠ '!')).drop 3)
      else none
  else none

theorem sedFirst_shorter {text sedp rest : Text} (h : sedFirst text = some (sedp, rest)) : rest.length < text.length := by
  unfold sedFirst at h
  split at h
  · split at h
    · cases h
    · rename_i c behind hbehind
      split at h
      · obtain ⟨-, rfl⟩ := Prod.mk.inj (Option.some.inj h)
        have hlonger := (List.dropWhile_suffix (· ≠ '!') (l := text.drop 2)).length_le
        have hshorter := (List.dropWhile_suffix (· ≠ '!') (l := behind)).length_le
        rw [hbehind, List.length_cons, List.length_drop] at hlonger
        rw [List.length_drop]
        omega
      · cases h
  · cases h

def sed : Pattern Char Text where
  first := sedFirst
  shorter := sedFirst_shorter

/-- `gsub(/\\./, ".")`. -/
def dots : Text → Text
  | '\\' :: _ :: rest => '.' :: dots rest
  | c :: rest => c :: dots rest
  | [] => []

/-- `print length(a[2]), sedp`. -/
def printed (sedp : Text) : Line := (toString (dots ((sedp.splitOn '!').getD 1 [])).length).toList ++ ' ' :: sedp

/-- `$1=""; print $0`. -/
def reassembled (line : Line) : Line := [' '].intercalate ([] :: (fields line).tail)

def number (line : Line) : ℕ := Nat.ofDigitChars 10 (line.takeWhile Char.isDigit) 0

/-- `sort -rn`. -/
structure Sorter where
  run : List Line → List Line
  perm : ∀ lines, (run lines).Perm lines
  ordered : ∀ lines, (∀ line ∈ lines, ∃ c ∈ line.head?, c.isDigit) → (run lines).Pairwise fun a b => number b ≤ number a

def plistSubSedSort (sort : Sorter) (input : Text) : List Line :=
  (sort.run (((input.splitOn '\n').flatMap (all sed)).map printed)).map reassembled

structure Expr where
  pattern : Text
  replacement : Text
  pattern_text : ∀ c ∈ pattern, c ≠ '!' ∧ c ≠ '\n'
  replacement_text : ∀ c ∈ replacement, c ≠ '!' ∧ c ≠ '\n'

def Expr.text (e : Expr) : Text := "s!".toList ++ e.pattern ++ '!' :: (e.replacement ++ "!g;".toList)

/-- Expressions, each with the white space before it. -/
structure Input where
  items : List (Text × Expr)
  tail : Text
  items_space : ∀ item ∈ items, ∀ c ∈ item.1, isSpace c
  tail_space : ∀ c ∈ tail, isSpace c

def Input.exprs (i : Input) : List Expr := i.items.map Prod.snd

def Input.text (i : Input) : Text := (i.items.flatMap fun item => item.1 ++ item.2.text) ++ i.tail

def patternLength : Text → ℕ
  | '\\' :: _ :: rest => patternLength rest + 1
  | _ :: rest => patternLength rest + 1
  | [] => 0

/-- The lines are the expressions, each with its own number of times, the longest patterns first. -/
def Reordered (exprs : List Expr) (out : List Line) : Prop :=
  ∃ es : List Expr, es.Perm exprs ∧ (out.map fun line => line.dropWhile isSpace) = es.map Expr.text ∧
    es.Pairwise fun a b => patternLength b.pattern ≤ patternLength a.pattern

/-- No tab, and no two blanks in a row. -/
structure Single (text : Text) : Prop where
  tab : '\t' ∉ text
  blanks : text.IsChain fun a b => a ≠ ' ' ∨ b ≠ ' '

section Reading

theorem sed_first (e : Expr) (rest : Text) : sed.first (e.text ++ rest) = some (e.text, rest) := by
  have hbang : ∀ {text : Text} (rest : Text), (∀ c ∈ text, c ≠ '!' ∧ c ≠ '\n') →
      (text ++ '!' :: rest).takeWhile (· ≠ '!') = text ∧ (text ++ '!' :: rest).dropWhile (· ≠ '!') = '!' :: rest := by
    intro text rest htext
    have hkeep : ∀ c ∈ text, decide (c ≠ '!') = true := fun c hc => decide_eq_true (htext c hc).1
    rw [List.takeWhile_append_of_pos hkeep, List.dropWhile_append_of_pos hkeep]
    exact ⟨List.append_nil text, rfl⟩
  have htext : e.text ++ rest =
      's' :: '!' :: (e.pattern ++ '!' :: (e.replacement ++ '!' :: ("g;".toList ++ rest))) := by
    simp [Expr.text]
  obtain ⟨hpattern, hbehind⟩ := hbang (e.replacement ++ '!' :: ("g;".toList ++ rest)) e.pattern_text
  obtain ⟨hreplacement, hend⟩ := hbang ("g;".toList ++ rest) e.replacement_text
  change sedFirst (e.text ++ rest) = _
  rw [htext, sedFirst, if_pos (by rfl)]
  simp only [List.drop_succ_cons, List.drop_zero, hpattern, hbehind, hreplacement, hend]
  exact if_pos rfl

theorem sed_skip {c : Char} (h : c ≠ 's') (text : Text) : all sed (c :: text) = all sed text := by
  refine all_skip ?_
  have hstart : "s!".toList.isPrefixOf (c :: text) = false := by
    change (('s' == c) && _) = false
    rw [beq_eq_false_iff_ne.2 h.symm, Bool.false_and]
  change sedFirst (c :: text) = none
  rw [sedFirst, hstart, if_neg Bool.false_ne_true]

theorem splitOn_block {sep : Char} {block : Text} (h : sep ∉ block) (text : Text) :
    ∃ line lines, text.splitOn sep = line :: lines ∧ (block ++ text).splitOn sep = (block ++ line) :: lines := by
  obtain ⟨line, lines, hlines⟩ := List.exists_cons_of_ne_nil (List.splitOn_ne_nil sep text)
  refine ⟨line, lines, hlines, ?_⟩
  induction block with
  | nil => exact hlines
  | cons c block ih =>
    obtain ⟨hc, hblock⟩ := not_or.1 (mt List.mem_cons.2 h)
    rw [List.cons_append, List.splitOn_cons_eq_if_modifyHead, if_neg (by simpa using Ne.symm hc), ih hblock]
    rfl

def found (text : Text) : List Text := (text.splitOn '\n').flatMap (all sed)

theorem found_expr (e : Expr) (text : Text) : found (e.text ++ text) = e.text :: found text := by
  have hline : '\n' ∉ e.text := by
    simp only [Expr.text, List.mem_append, List.mem_cons, not_or]
    refine ⟨⟨by decide, fun hmem => (e.pattern_text _ hmem).2 rfl⟩, by decide, fun hmem => (e.replacement_text _ hmem).2 rfl,
      by decide⟩
  obtain ⟨line, lines, htext, hblock⟩ := splitOn_block hline text
  rw [found, found, hblock, htext, List.flatMap_cons, List.flatMap_cons, all_found (sed_first e line)]
  rfl

theorem found_space {space : Text} (h : ∀ c ∈ space, isSpace c) (text : Text) : found (space ++ text) = found text := by
  induction space with
  | nil => rfl
  | cons c space ih =>
    have hrest := ih fun d hd => h d (List.mem_cons_of_mem _ hd)
    have hspace := h c List.mem_cons_self
    by_cases hc : c = '\n'
    · have hbreak : ((c :: (space ++ text)).splitOn '\n') = [] :: (space ++ text).splitOn '\n' := by
        rw [List.splitOn_cons_eq_if_modifyHead, if_pos (by simp [hc])]
      rw [List.cons_append, found, hbreak, List.flatMap_cons]
      exact hrest
    · have hsingle : '\n' ∉ [c] := by simpa using Ne.symm hc
      obtain ⟨line, lines, htext, hblock⟩ := splitOn_block hsingle (space ++ text)
      have hs : c ≠ 's' := by
        rintro rfl
        exact absurd hspace (by decide)
      rw [List.cons_append, ← hrest, found, found, ← List.singleton_append, hblock, htext, List.flatMap_cons,
        List.flatMap_cons]
      exact congrArg (· ++ _) (sed_skip hs line)

theorem found_input (i : Input) : found i.text = i.exprs.map Expr.text := by
  have hitems : ∀ items : List (Text × Expr), (∀ item ∈ items, ∀ c ∈ item.1, isSpace c) →
      found ((items.flatMap fun item => item.1 ++ item.2.text) ++ i.tail) = items.map fun item => item.2.text := by
    intro items hspace
    induction items with
    | nil =>
      have htail := found_space i.tail_space []
      rw [List.append_nil] at htail
      exact htail
    | cons item items ih =>
      have hrest := ih fun other hother => hspace other (List.mem_cons_of_mem _ hother)
      rw [List.flatMap_cons, List.append_assoc, List.append_assoc, found_space (hspace item List.mem_cons_self), found_expr,
        hrest]
      rfl
  rw [Input.text, hitems i.items i.items_space, Input.exprs, List.map_map]
  rfl

end Reading

section Fields

def squeezed (text : Text) : Text := [' '].intercalate (fields text)

theorem fields_cut (text : Text) (h : ∃ c ∈ text.head?, isBlank c = false) :
    ∃ w, w ≠ [] ∧ (∀ c ∈ w, isBlank c = false) ∧ w.head? = text.head? ∧
      (text = w ∧ fields text = [w] ∨ ∃ c rest, isBlank c ∧ text = w ++ c :: rest ∧ fields text = w :: fields rest) := by
  obtain ⟨c, hc, hblank⟩ := h
  obtain ⟨rest, rfl⟩ := List.head?_eq_some_iff.1 hc
  have hword : ∀ d ∈ (c :: rest).takeWhile (fun d => !isBlank d), isBlank d = false := by
    intro d hd
    simpa using List.mem_takeWhile_imp hd
  have hhead : (c :: rest).takeWhile (fun d => !isBlank d) = c :: rest.takeWhile fun d => !isBlank d :=
    List.takeWhile_cons_of_pos (by rw [hblank]; rfl)
  have hparts := List.takeWhile_append_dropWhile (p := fun d => !isBlank d) (l := c :: rest)
  refine ⟨(c :: rest).takeWhile fun d => !isBlank d, by rw [hhead]; exact nofun, hword, by rw [hhead]; rfl, ?_⟩
  cases hdrop : (c :: rest).dropWhile fun d => !isBlank d with
  | nil =>
    rw [hdrop, List.append_nil] at hparts
    refine .inl ⟨hparts.symm, ?_⟩
    conv_lhs => rw [← hparts]
    exact fields_last hword (by rw [hhead]; exact nofun)
  | cons b behind =>
    rw [hdrop] at hparts
    have hb : isBlank b := by
      have hnot := dropWhile_head (fun d => !isBlank d) (c :: rest) b (by rw [hdrop]; rfl)
      simpa using hnot
    refine .inr ⟨b, behind, hb, hparts.symm, ?_⟩
    conv_lhs => rw [← hparts]
    exact fields_word hword (by rw [hhead]; exact nofun) hb

theorem intercalate_head {w : Text} (hw : w ≠ []) (words : List Text) :
    ([' '].intercalate (w :: words)).head? = w.head? := by
  obtain ⟨c, w, rfl⟩ := List.exists_cons_of_ne_nil hw
  cases words with
  | nil => simp
  | cons w' words =>
    rw [List.intercalate_cons_cons]
    rfl

theorem words_single {words : List Text} (h : ∀ w ∈ words, w ≠ [] ∧ ∀ c ∈ w, isBlank c = false) :
    Single ([' '].intercalate words) := by
  have hplain : ∀ w ∈ words, ∀ c ∈ w, c ≠ ' ' := by
    rintro w hw c hc rfl
    exact absurd ((h w hw).2 _ hc) (by decide)
  constructor
  · intro htab
    obtain hsep | ⟨w, hw, hc⟩ := mem_intercalate htab
    · exact absurd hsep (by decide)
    · exact absurd ((h w hw).2 _ hc) (by decide)
  · induction words with
    | nil => exact .nil
    | cons w words ih =>
      have hw := hplain w List.mem_cons_self
      cases words with
      | nil =>
        rw [List.intercalate_singleton]
        exact (List.pairwise_of_forall_mem_list fun a ha _ _ => .inl (hw a ha)).isChain
      | cons w' words =>
        have hrest := ih (fun v hv => h v (List.mem_cons_of_mem _ hv)) fun v hv => hplain v (List.mem_cons_of_mem _ hv)
        obtain ⟨hne, -⟩ := h w' (by simp)
        have hfirst : (w ++ [' ']).Pairwise fun a b => a ≠ ' ' ∨ b ≠ ' ' := by
          refine List.pairwise_append.2 ⟨?_, List.pairwise_singleton _ _, fun a ha b _ => .inl (hw a ha)⟩
          exact List.pairwise_of_forall_mem_list fun a ha _ _ => .inl (hw a ha)
        rw [List.intercalate_cons_cons]
        refine List.isChain_append.2 ⟨hfirst.isChain, hrest, fun a _ b hb => .inr ?_⟩
        rw [intercalate_head hne] at hb
        exact hplain w' (by simp) b (List.mem_of_mem_head? hb)

theorem squeezed_single (text : Text) : Single (squeezed text) := by
  refine words_single fun w hw => ?_
  obtain ⟨hpart, hne⟩ := List.mem_filter.1 hw
  exact ⟨of_decide_eq_true hne, part_plain hpart⟩

structure Ended (text : Text) : Prop where
  line : '\n' ∉ text
  first : ∃ c ∈ text.head?, isBlank c = false
  last : ∀ c ∈ text.getLast?, isBlank c = false

theorem squeezed_eq {text : Text} (h : Ended text) (hsingle : Single text) : squeezed text = text := by
  induction hn : text.length using Nat.strongRecOn generalizing text with
  | ind n ih =>
    obtain ⟨w, hne, -, -, ⟨rfl, hfields⟩ | ⟨c, rest, hc, rfl, hfields⟩⟩ := fields_cut text h.first
    · rw [squeezed, hfields, List.intercalate_singleton]
    · have hmem : c ∈ w ++ c :: rest := by simp
      have hblank : c = ' ' := by
        simp only [isBlank, Bool.or_eq_true, decide_eq_true_eq] at hc
        obtain (rfl | rfl) | rfl := hc
        · rfl
        · exact absurd hmem hsingle.tab
        · exact absurd hmem h.line
      subst hblank
      cases rest with
      | nil =>
        have hlast := h.last ' ' (by simp)
        cases hlast
      | cons d rest =>
        obtain ⟨-, hchain⟩ := List.isChain_append.1 hsingle.blanks
        obtain ⟨hnext, hchain⟩ := List.isChain_cons_cons.1 hchain.1
        have hd : isBlank d = false := by
          have hsep : d ≠ ' ' := hnext.resolve_left (not_not_intro rfl)
          have htab : d ≠ '\t' := by
            rintro rfl
            exact hsingle.tab (by simp)
          have hline : d ≠ '\n' := by
            rintro rfl
            exact h.line (by simp)
          simp [isBlank, hsep, htab, hline]
        have hrest : Ended (d :: rest) := by
          refine ⟨fun hin => h.line (by simp [List.mem_cons.1 hin]), ⟨d, rfl, hd⟩, fun e he => h.last e ?_⟩
          rw [List.getLast?_append, List.getLast?_cons_cons, Option.mem_def.1 he]
          rfl
        have hsingle' : Single (d :: rest) := ⟨fun hin => hsingle.tab (by simp [List.mem_cons.1 hin]), hchain⟩
        have hshorter : (d :: rest).length < n := by
          rw [← hn, List.length_append, List.length_cons, List.length_cons, List.length_cons]
          omega
        have hagain := ih _ hshorter hrest hsingle' rfl
        obtain ⟨v, -, -, -, ⟨-, hfields'⟩ | ⟨b, behind, -, -, hfields'⟩⟩ := fields_cut (d :: rest) hrest.first
        all_goals
          rw [squeezed, hfields'] at hagain
          rw [squeezed, hfields, hfields', List.intercalate_cons_cons, hagain, List.append_assoc]
          rfl

end Fields

section Output
variable {sort : Sorter} {i : Input}

theorem dots_length (text : Text) : (dots text).length = patternLength text := by
  induction text using dots.induct with
  | case1 c rest ih => rw [dots, patternLength, List.length_cons, ih]
  | case2 c rest hplain ih => rw [dots.eq_2 _ _ hplain, patternLength.eq_2 _ _ hplain, List.length_cons, ih]
  | case3 => rfl

theorem expr_pattern (e : Expr) : (e.text.splitOn '!').getD 1 [] = e.pattern := by
  have htext : e.text = ['s'] ++ '!' :: (e.pattern ++ '!' :: (e.replacement ++ "!g;".toList)) := by simp [Expr.text]
  rw [htext, List.splitOn_append_cons_self_of_not_mem (by decide),
    List.splitOn_append_cons_self_of_not_mem fun hmem => (e.pattern_text _ hmem).1 rfl]
  rfl

theorem expr_ended (e : Expr) : Ended e.text := by
  refine ⟨?_, ⟨'s', rfl, rfl⟩, fun c hc => ?_⟩
  · simp only [Expr.text, List.mem_append, List.mem_cons, not_or]
    refine ⟨⟨by decide, fun hmem => (e.pattern_text _ hmem).2 rfl⟩, by decide, ?_, by decide⟩
    exact fun hmem => (e.replacement_text _ hmem).2 rfl
  · have hlast : e.text = ("s!".toList ++ e.pattern ++ '!' :: (e.replacement ++ "!g".toList)) ++ [';'] := by
      simp [Expr.text]
    rw [hlast, List.getLast?_concat] at hc
    obtain rfl := Option.some.inj hc
    rfl

theorem number_printed (e : Expr) : number (printed e.text) = patternLength e.pattern := by
  have hstop : ((toString (patternLength e.pattern)).toList ++ ' ' :: e.text).takeWhile Char.isDigit =
      (toString (patternLength e.pattern)).toList :=
    takeWhile_stop (PerlText.toString_isDigit _) (fun c hc => by obtain rfl := Option.some.inj hc; rfl)
  rw [number, printed, expr_pattern, dots_length, hstop]
  exact PerlText.toString_value _

theorem reassembled_printed (e : Expr) : (reassembled (printed e.text)).dropWhile isSpace = squeezed e.text := by
  have hdigits : ∀ c ∈ (toString (dots ((e.text.splitOn '!').getD 1 [])).length).toList, isBlank c = false :=
    fun c hc => blank_of_digit (PerlText.toString_isDigit _ c hc)
  have hfields : fields (printed e.text) =
      (toString (dots ((e.text.splitOn '!').getD 1 [])).length).toList :: fields e.text :=
    fields_word hdigits (PerlText.toString_ne_nil _) rfl
  obtain ⟨w, hne, -, hhead, hcases⟩ := fields_cut e.text (expr_ended e).first
  have hcons : ∃ words, fields e.text = w :: words := by
    obtain ⟨-, hfields⟩ | ⟨c, rest, -, -, hfields⟩ := hcases
    · exact ⟨_, hfields⟩
    · exact ⟨_, hfields⟩
  obtain ⟨words, hwords⟩ := hcons
  have hfirst : (squeezed e.text).head? = some 's' := by
    rw [squeezed, hwords, intercalate_head hne, hhead]
    rfl
  obtain ⟨rest, hrest⟩ := List.head?_eq_some_iff.1 hfirst
  have hline : reassembled (printed e.text) = ' ' :: squeezed e.text := by
    rw [reassembled, hfields, List.tail_cons, squeezed, hwords, List.intercalate_cons_cons]
    rfl
  rw [hline, hrest]
  rfl

theorem sorted_exprs (sort : Sorter) (i : Input) : ∃ es : List Expr, es.Perm i.exprs ∧
    (plistSubSedSort sort i.text).map (fun line => line.dropWhile isSpace) = es.map (fun e => squeezed e.text) ∧
    es.Pairwise fun a b => patternLength b.pattern ≤ patternLength a.pattern := by
  have hlines : ((i.text.splitOn '\n').flatMap (all sed)).map printed = i.exprs.map fun e => printed e.text := by
    rw [show (i.text.splitOn '\n').flatMap (all sed) = _ from found_input i, List.map_map]
    rfl
  have hperm := sort.perm (i.exprs.map fun e => printed e.text)
  obtain ⟨es, hrun, hes⟩ := (congrFun (congrFun (List.eq_map_comp_perm fun e : Expr => printed e.text) _) _).mpr hperm
  have hnumbered : ∀ line ∈ i.exprs.map (fun e => printed e.text), ∃ c ∈ line.head?, c.isDigit := by
    intro line hline
    obtain ⟨e, -, rfl⟩ := List.mem_map.1 hline
    obtain ⟨c, digits, hdigits⟩ := List.exists_cons_of_ne_nil
      (PerlText.toString_ne_nil (dots ((e.text.splitOn '!').getD 1 [])).length)
    refine ⟨c, by rw [printed, hdigits]; rfl, PerlText.toString_isDigit _ c (by rw [hdigits]; exact List.mem_cons_self)⟩
  have hordered := sort.ordered _ hnumbered
  rw [hrun, List.pairwise_map] at hordered
  refine ⟨es, hes, ?_, hordered.imp fun {a b} hab => ?_⟩
  · rw [plistSubSedSort, hlines, hrun, List.map_map, List.map_map]
    refine List.map_congr_left fun e _ => ?_
    simp only [Function.comp_apply]
    exact reassembled_printed e
  · rwa [number_printed, number_printed] at hab

/-- The output has just the expressions, the longest patterns first, if and only if none of them
has a tab or two blanks in a row. -/
theorem reordered_iff (sort : Sorter) (i : Input) :
    Reordered i.exprs (plistSubSedSort sort i.text) ↔ ∀ e ∈ i.exprs, Single e.text := by
  obtain ⟨es, hperm, hout, hordered⟩ := sorted_exprs sort i
  constructor
  · rintro ⟨fs, hfs, htexts, -⟩ e he
    have hmem : e.text ∈ es.map fun e => squeezed e.text := by
      rw [← hout, htexts]
      exact List.mem_map_of_mem (hfs.mem_iff.2 he)
    obtain ⟨e', -, heq⟩ := List.mem_map.1 hmem
    rw [← heq]
    exact squeezed_single e'.text
  · intro hsingle
    refine ⟨es, hperm, ?_, hordered⟩
    rw [hout]
    exact List.map_congr_left fun e he => squeezed_eq (expr_ended e) (hsingle e (hperm.mem_iff.1 he))

def Falling (a b : Line) : Prop := number b ≤ number a

instance : DecidableRel Falling := fun a b => Nat.decLe (number b) (number a)
instance : Std.Total Falling := ⟨fun a b => Nat.le_total (number b) (number a)⟩
instance : IsTrans Line Falling := ⟨fun _ _ _ hab hbc => Nat.le_trans hbc hab⟩

def insertionSorter : Sorter where
  run lines := lines.insertionSort Falling
  perm lines := List.perm_insertionSort _ lines
  ordered lines _ := List.pairwise_insertionSort _ lines

def doubled : Input where
  items := [([], ⟨"a  b".toList, "%%A%%".toList, List.forall_iff_forall_mem.1 (by decide),
    List.forall_iff_forall_mem.1 (by decide)⟩)]
  tail := []
  items_space := List.forall_mem_singleton.2 nofun
  tail_space := nofun

theorem doubled_altered : ¬ Reordered doubled.exprs (plistSubSedSort insertionSorter doubled.text) := by
  rintro ⟨es, hperm, hout, -⟩
  obtain rfl := List.perm_singleton.1 hperm
  revert hout
  decide +kernel

end Output

end Mports.PlistSubSort
