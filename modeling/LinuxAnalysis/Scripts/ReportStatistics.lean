import LinuxAnalysis.Scripts.ReportScan

/-!
# The text around the functions

No line of the statistics is a heading, and the first number behind the label of the count is the one
that the parser takes.
-/

open LinuxAnalysis.Lib

namespace LinuxAnalysis

namespace IrToAssembly

section Statistics

/-- A title between empty lines, as it follows other text. -/
theorem heading_eq (title : String) : Report.heading title =
    '\n' :: '=' :: ("== ".toList ++ title.toList ++ " ===".toList ++ ['\n']) := by
  rw [Report.heading, show "\n=== ".toList = '\n' :: '=' :: "== ".toList from rfl,
    show " ===\n".toList = " ===".toList ++ ['\n'] from rfl]
  simp only [List.append_assoc, List.cons_append]

theorem not_mem_number (n : Nat) : '\n' ∉ Str.str n := not_mem_str (by decide)

theorem not_mem_level (z : Int) : '\n' ∉ Str.strInt z := not_mem_strInt (by decide) (by decide)

variable [Unicode]

/-- A mark that no heading contains. -/
theorem not_headLine_of_mark {line : Text} {x : Char} (hx : x ∈ "=(-,".toList) (hmem : x ∈ line) :
    ¬HeadLine line := by
  simp only [show "=(-,".toList = ['=', '(', '-', ','] from rfl, List.mem_cons, List.not_mem_nil,
    or_false] at hx
  have hword : Regex.word x = false := by
    rcases hx with rfl | rfl | rfl | rfl
    all_goals exact Regex.word_eq_false (by decide) (by decide)
  apply not_headLine_of_mem hmem hword
  · rintro rfl
    exact absurd hx (by decide)
  · rcases hx with rfl | rfl | rfl | rfl
    all_goals decide

/-- A numbered line is no heading if its label or the text behind the number shows it. -/
theorem inert_numberLine {label n : Text} {rest : String} (hlabel : '\n' ∉ label) (hn : '\n' ∉ n)
    (hrest : '\n' ∉ rest.toList) (hhead : ¬HeadLine (label ++ n ++ rest.toList)) :
    Inert (Report.numberLine label n rest) := by
  apply inert_line _ hhead
  simp only [List.mem_append, not_or]
  exact ⟨⟨hlabel, hn⟩, hrest⟩

theorem inert_newline_append {u : Text} (h : Inert u) : Inert ('\n' :: u) := by
  apply Inert.append (a := ['\n']) _ h
  apply inert_line (List.not_mem_nil)
  rintro ⟨name, spaces, heq, _⟩
  exact absurd (List.append_eq_nil_iff.mp heq.symm).2 (List.cons_ne_nil _ _)

theorem skips_newline_append {u : Text} (h : Inert u) (before rest : Text) :
    Skips before ('\n' :: u) rest := by
  apply Skips.append (a := ['\n']) (skips_newline before _)
  apply h.skips
  intro x hx
  exact (Option.mem_some.mp hx).symm

theorem inert_title {title : String} (h : '\n' ∉ title.toList) :
    Inert ('=' :: ("== ".toList ++ title.toList ++ " ===".toList ++ ['\n'])) := by
  show Inert (('=' :: ("== ".toList ++ title.toList ++ " ===".toList)) ++ ['\n'])
  apply inert_line
  · simp only [List.mem_cons, List.mem_append, not_or]
    exact ⟨by decide, ⟨by decide, h⟩, by decide⟩
  · exact not_headLine_of_mem List.mem_cons_self (Regex.word_eq_false (by decide) (by decide)) (by decide)
      (by decide)

/-- The lines between the trace and the functions. -/
theorem levelStatistics_inert {r : Report} (hnames : ∀ e ∈ r.breakdown, '\n' ∉ e.1) :
    ∃ u, r.levelStatistics = '\n' :: '=' :: u ∧ Inert ('=' :: u) := by
  -- line by line: none of them is the head of a block
  have hcount (label : Text) (n : Nat) (hbreak : '\n' ∉ label) (hmem : '=' ∈ label) :
      Inert (Report.numberLine (label ++ Str.strInt r.level ++ ": ".toList) (Str.str n) "") := by
    apply inert_numberLine _ (not_mem_number n) (by decide)
    · exact not_headLine_of_mark (x := '=') (by decide) (by simp [hmem])
    · simp only [List.mem_append, not_or]
      exact ⟨⟨hbreak, not_mem_level _⟩, by decide⟩
  have hlargest : Inert (Report.numberLine "Largest L value: ".toList (Str.strInt r.level) "") := by
    apply inert_numberLine (by decide) (not_mem_level _) (by decide)
    exact not_headLine_of_space (a := "Largest".toList) (by decide)
  have hbreakdown : Inert ("\nPer-function breakdown:\n".toList ++ r.breakdown.flatMap fun e =>
      Report.numberLine ("  ".toList ++ e.1 ++ ": ".toList) (Str.str e.2) " value(s)") := by
    apply Inert.append
    · apply inert_newline_append (u := "Per-function breakdown:".toList ++ ['\n'])
      apply inert_line (by decide)
      exact not_headLine_of_mark (x := '-') (by decide) (by decide)
    · apply Inert.flatMap
      intro e he
      apply inert_numberLine _ (not_mem_number _) (by decide)
      · exact not_headLine_of_mark (x := '(') (by decide) (List.mem_append_right _ (by decide))
      · simp only [List.mem_append, not_or]
        exact ⟨⟨by decide, hnames e he⟩, by decide⟩
  have hlabel : Inert (Report.numberLine "\nEarliest and latest instructions with L=".toList
      (Str.strInt r.level) " (per function):") := by
    apply inert_newline_append
      (u := Report.numberLine "Earliest and latest instructions with L=".toList (Str.strInt r.level)
        " (per function):")
    apply inert_numberLine (by decide) (not_mem_level _) (by decide)
    exact not_headLine_of_mark (x := '(') (by decide) (List.mem_append_right _ (by decide))
  -- the lines in the order they are printed
  have heq : r.levelStatistics = Report.heading "Maximum Level Statistics" ++ (
      Report.numberLine "Largest L value: ".toList (Str.strInt r.level) "" ++ (
      Report.numberLine ("Number of instructions with L=".toList ++ Str.strInt r.level ++ ": ".toList)
        (Str.str r.instructions) "" ++ (
      (if r.arguments ≠ 0 then
        Report.numberLine ("Number of arguments with L=".toList ++ Str.strInt r.level ++ ": ".toList)
          (Str.str r.arguments) "" ++
        Report.numberLine ("Total values with L=".toList ++ Str.strInt r.level ++ ": ".toList)
          (Str.str (r.instructions + r.arguments)) ""
      else []) ++ (
      (if r.breakdown.length > 1 then
        "\nPer-function breakdown:\n".toList ++ r.breakdown.flatMap fun e =>
          Report.numberLine ("  ".toList ++ e.1 ++ ": ".toList) (Str.str e.2) " value(s)"
      else []) ++
      Report.numberLine "\nEarliest and latest instructions with L=".toList (Str.strInt r.level)
        " (per function):")))) := by
    simp only [Report.levelStatistics, List.append_assoc]
  rw [heq, heading_eq]
  refine ⟨_, rfl, (inert_title (by decide)).append (hlargest.append ((hcount _ _ (by decide)
    (by decide)).append (Inert.append ?_ (Inert.append ?_ hlabel))))⟩
  · split
    · exact (hcount _ _ (by decide) (by decide)).append (hcount _ _ (by decide) (by decide))
    · exact .nil
  · split
    · exact hbreakdown
    · exact .nil

/-- The lines behind the functions. -/
theorem countStatistics_inert {r : Report} (hspans : ∀ s ∈ r.spans, '\n' ∉ s.1)
    (hothers : ∀ name ∈ r.otherNames, '\n' ∉ name) :
    ∃ u, r.countStatistics ++ r.spanDetails = '\n' :: '=' :: u ∧ Inert ('=' :: u) := by
  -- a label with one of these signs is no function name
  have hmark {label n : Text} {rest : String} {x : Char} (hx : x ∈ "=(-,".toList)
      (hmem : x ∈ label) (hlabel : '\n' ∉ label) (hn : '\n' ∉ n) (hrest : '\n' ∉ rest.toList) :
      Inert (Report.numberLine label n rest) := by
    apply inert_numberLine hlabel hn hrest
    exact not_headLine_of_mark hx (by simp [hmem])
  -- this line alone begins as a head does, but it does not end with the colon
  have htotal : Inert (Report.numberLine "Total: ".toList
      (Str.str (r.spanInstructions + r.otherInstructions)) " instructions") := by
    apply inert_numberLine (by decide) (not_mem_number _) (by decide)
    have hlast := not_headLine_of_last (a := "Total: ".toList ++ Str.str (r.spanInstructions +
      r.otherInstructions) ++ " instruction".toList) (x := 's') (by decide) (by decide)
    rw [List.append_assoc] at hlast
    exact hlast
  have hvisited : Inert (Report.numberLine "Number of other visited functions: ".toList
      (Str.str r.otherVisited) "") := by
    apply inert_numberLine (by decide) (not_mem_number _) (by decide)
    exact not_headLine_of_space (a := "Number".toList) (by decide)
  have hspan (s : Text × Nat × Nat × Nat × Nat) (hs : s ∈ r.spans) :
      Inert (s.1 ++ ", ".toList ++ Str.str s.2.1 ++ ", ".toList ++ Str.str s.2.2.1 ++ ", ".toList ++
        Str.str s.2.2.2.1 ++ ", ".toList ++ Str.str s.2.2.2.2 ++ ['\n']) := by
    apply inert_line
    · simp only [List.mem_append, not_or]
      exact ⟨⟨⟨⟨⟨⟨⟨⟨hspans s hs, by decide⟩, not_mem_number _⟩, by decide⟩, not_mem_number _⟩,
        by decide⟩, not_mem_number _⟩, by decide⟩, not_mem_number _⟩
    · exact not_headLine_of_mark (x := ',') (by decide) (List.mem_append_left _
        (List.mem_append_right _ (by decide)))
  have hother (name : Text) (hname : name ∈ r.otherNames) :
      Inert (name ++ ", full span\n".toList) := by
    rw [show ", full span\n".toList = ", full span".toList ++ ['\n'] from rfl, ← List.append_assoc]
    apply inert_line
    · rw [List.mem_append, not_or]
      exact ⟨hothers name hname, by decide⟩
    · exact not_headLine_of_mark (x := ',') (by decide) (List.mem_append_right _ (by decide))
  have hheading (title : String) (h : '\n' ∉ title.toList) : Inert (Report.heading title) := by
    rw [heading_eq]
    exact inert_newline_append (inert_title h)
  have heq : r.countStatistics ++ r.spanDetails = Report.heading "Instruction Count Statistics" ++ (
      Report.numberLine "Max-level functions (data flow span): ".toList (Str.str r.spanInstructions)
        " instructions" ++ (
      Report.numberLine "Other visited functions (total): ".toList (Str.str r.otherInstructions)
        " instructions" ++ (
      Report.numberLine "Total: ".toList (Str.str (r.spanInstructions + r.otherInstructions))
        " instructions" ++ (
      Report.numberLine Report.countLabel (Str.str r.functions.length) "" ++ (
      Report.numberLine "Number of other visited functions: ".toList (Str.str r.otherVisited) "" ++
      r.spanDetails))))) := by
    simp only [Report.countStatistics, List.append_assoc]
  rw [heq, heading_eq]
  refine ⟨_, rfl, (inert_title (by decide)).append ((hmark (x := '-') (by decide) (by decide)
    (by decide) (not_mem_number _) (by decide)).append ((hmark (x := '(') (by decide) (by decide)
    (by decide) (not_mem_number _) (by decide)).append (htotal.append ((hmark (x := '-') (by decide)
    (by decide) (by decide) (not_mem_number _) (by decide)).append (hvisited.append ?_)))))⟩
  rw [Report.spanDetails]
  exact (((hheading _ (by decide)).append (.flatMap hspan)).append (.flatMap hother)).append
    (hheading _ (by decide))

end Statistics

/-! ## The announced count -/

def announceLabel : Text := "Number of max-level functions:".toList

section Announced

variable [Unicode]

/-- The digits behind a label and white space. -/
def labelledDigits (s : Text) : Text :=
  ((s.drop announceLabel.length).dropWhile Str.isSpace).takeWhile Regex.digit

/-- The digits behind the first label that has any. -/
def announced : Text → Text
  | [] => []
  | c :: cs =>
    if announceLabel.isPrefixOf (c :: cs) && !(labelledDigits (c :: cs)).isEmpty then
      labelledDigits (c :: cs)
    else announced cs

/-- At a label with digits the pattern captures them. -/
theorem exec_countRE (before : Text) {rest : Text} (hlabel : announceLabel.isPrefixOf rest = true)
    (hdigits : labelledDigits rest ≠ []) : ∃ d, Regex.exec countRE some ⟨before, rest, []⟩ = some d ∧
      d.groups.lookup 1 = some (labelledDigits rest) := by
  obtain ⟨s, rfl⟩ := List.isPrefixOf_iff_prefix.mp hlabel
  have hlabelled : labelledDigits (announceLabel ++ s) =
      (s.dropWhile Str.isSpace).takeWhile Regex.digit := by
    rw [labelledDigits, List.drop_left]
  rw [hlabelled] at hdigits ⊢
  obtain ⟨t, ht⟩ : ∃ t, t = s.dropWhile Str.isSpace := ⟨_, rfl⟩
  rw [← ht] at hdigits ⊢
  -- from the inside out: the digits, the blanks in front of them, the label
  have hgroup (before : Text) : Regex.exec (.group 1 (.plus true Regex.digit)) some ⟨before, t, []⟩ =
      some ⟨(t.takeWhile Regex.digit).reverse ++ before, t.dropWhile Regex.digit,
        [(1, t.takeWhile Regex.digit)]⟩ := by
    apply Regex.exec_group_plus_longest hdigits List.takeWhile_append_dropWhile.symm
    · exact fun a ha => List.mem_takeWhile_imp ha
    · intro a as heq
      have hnot := List.head?_dropWhile_not Regex.digit t
      rw [heq] at hnot
      exact hnot
    · rfl
  have hspaces (before : Text) : Regex.exec (.cat [.star true Regex.space,
      .group 1 (.plus true Regex.digit)]) some ⟨before, s, []⟩ =
      Regex.exec (.group 1 (.plus true Regex.digit)) some
        ⟨(s.takeWhile Str.isSpace).reverse ++ before, t, []⟩ := by
    apply Regex.exec_star_greedy (p := Regex.space) (c := ⟨before, s, []⟩)
    · rw [ht]
      exact List.takeWhile_append_dropWhile.symm
    · exact fun a ha => List.mem_takeWhile_imp ha
    · intro ys rest' heq hys hspace
      cases ys with
      | nil => exact absurd rfl hys
      | cons y ys =>
        have hnot := List.head?_dropWhile_not Str.isSpace s
        rw [← ht, heq] at hnot
        have hy : Str.isSpace y = true := hspace y List.mem_cons_self
        rw [show Str.isSpace y = false from hnot] at hy
        cases hy
    · show (Regex.exec (.group 1 (.plus true Regex.digit)) some ⟨_, t, []⟩).isSome = true
      rw [hgroup]
      rfl
  have hlit : Regex.exec countRE some ⟨before, announceLabel ++ s, []⟩ = Regex.exec
      (.cat [.star true Regex.space, .group 1 (.plus true Regex.digit)]) some
      ⟨announceLabel.reverse ++ before, s, []⟩ := Regex.exec_lit rfl
  exact ⟨_, hlit.trans ((hspaces _).trans (hgroup _)), rfl⟩

/-- Behind a label and white space come the digits. -/
theorem labelledDigits_label {ws ds rest : Text} (hws : ∀ a ∈ ws, Str.isSpace a = true) (hne : ds ≠ [])
    (hds : ∀ a ∈ ds, Regex.digit a = true) :
    labelledDigits (announceLabel ++ (ws ++ (ds ++ rest))) = ds ++ rest.takeWhile Regex.digit := by
  have hstop : (ds ++ rest).dropWhile Str.isSpace = ds ++ rest := by
    cases ds with
    | nil => exact absurd rfl hne
    | cons x ds =>
      have hspace := Regex.isSpace_of_digit (hds x List.mem_cons_self)
      rw [List.cons_append, List.dropWhile_cons_of_neg (by rw [hspace]; decide)]
  rw [labelledDigits, List.drop_left, List.dropWhile_append_of_pos (p := Str.isSpace) hws, hstop,
    List.takeWhile_append_of_pos (p := Regex.digit) hds]

theorem exec_countRE_eq_none {before rest : Text} (h : ¬(announceLabel.isPrefixOf rest = true ∧
    labelledDigits rest ≠ [])) : Regex.exec countRE some ⟨before, rest, []⟩ = none := by
  apply Regex.exec_eq_none
  intro d hd
  obtain ⟨_, hlit, _, hstar, _, hgroup, _⟩ := hd
  obtain ⟨r₁, hr₁, rfl⟩ := Regex.matches_lit.mp hlit
  obtain ⟨ws, r₂, hr₂, hws, rfl⟩ := Regex.matches_star.mp hstar
  obtain ⟨ds, r₃, hne, hr₃, hds, _⟩ := Regex.matches_group_plus.mp hgroup
  have hrest : rest = announceLabel ++ (ws ++ (ds ++ r₃)) := by
    rw [← show r₂ = ds ++ r₃ from hr₃, ← show r₁ = ws ++ r₂ from hr₂]
    exact hr₁
  refine absurd ⟨List.isPrefixOf_iff_prefix.mpr ⟨_, hrest.symm⟩, ?_⟩ h
  rw [hrest, labelledDigits_label hws hne hds]
  exact List.append_ne_nil_of_left_ne_nil hne _

theorem searchFrom_countRE (before s : Text) :
    (announced s = [] ∧ Regex.searchFrom countRE before s = none) ∨
      (announced s ≠ [] ∧ ∃ m, Regex.searchFrom countRE before s = some m ∧
        m.group 1 = some (announced s)) := by
  induction s generalizing before with
  | nil =>
    left
    refine ⟨rfl, ?_⟩
    rw [Regex.searchFrom, exec_countRE_eq_none fun h => absurd h.1 (by decide)]
    rfl
  | cons c s ih =>
    by_cases h : announceLabel.isPrefixOf (c :: s) = true ∧ labelledDigits (c :: s) ≠ []
    · have hannounced : announced (c :: s) = labelledDigits (c :: s) := by
        rw [announced, if_pos]
        rw [h.1, Bool.true_and, Bool.not_eq_true', ← Bool.not_eq_true, List.isEmpty_iff]
        exact h.2
      right
      obtain ⟨d, hd, hgroup⟩ := exec_countRE before h.1 h.2
      rw [hannounced]
      exact ⟨h.2, _, Regex.searchFrom_eq_some hd, hgroup⟩
    · have hannounced : announced (c :: s) = announced s := by
        rw [announced, if_neg]
        rw [Bool.and_eq_true, Bool.not_eq_true', ← Bool.not_eq_true, List.isEmpty_iff]
        exact h
      rw [hannounced, Regex.searchFrom, exec_countRE_eq_none h, Option.map_none, Option.none_or]
      exact ih (c :: before)

/-- The parser takes the first announced number. -/
theorem functionCount_eq (s : Text) : functionCount s = Str.int 10 (announced s) := by
  rw [functionCount, Regex.search]
  rcases searchFrom_countRE [] s with ⟨hnil, hnone⟩ | ⟨_, m, hm, hgroup⟩
  · rw [hnone, hnil]
    rfl
  · rw [hm, Option.bind_some, groupText, hgroup]
    rfl

theorem digit_of_mem_announced {s : Text} {c : Char} (h : c ∈ announced s) :
    Regex.digit c = true := by
  induction s with
  | nil => cases h
  | cons x s ih =>
    rw [announced] at h
    split at h
    · exact List.mem_takeWhile_imp h
    · exact ih h

theorem announced_label {s : Text} (h : labelledDigits (announceLabel ++ s) ≠ []) :
    announced (announceLabel ++ s) = labelledDigits (announceLabel ++ s) := by
  obtain ⟨c, cs, hcs⟩ : ∃ c cs, announceLabel ++ s = c :: cs := ⟨_, _, rfl⟩
  have hlabel : announceLabel.isPrefixOf (c :: cs) = true := by
    rw [← hcs]
    exact List.isPrefixOf_iff_prefix.mpr (List.prefix_append _ _)
  rw [hcs] at h ⊢
  rw [announced, if_pos]
  rw [hlabel, Bool.true_and, Bool.not_eq_true', ← Bool.not_eq_true, List.isEmpty_iff]
  exact h

/-- A count that is printed anywhere is announced, or one before it. -/
theorem announced_ne_nil {pre ws ds rest : Text} (hws : ∀ a ∈ ws, Str.isSpace a = true) (hne : ds ≠ [])
    (hds : ∀ a ∈ ds, Regex.digit a = true) :
    announced (pre ++ (announceLabel ++ (ws ++ (ds ++ rest)))) ≠ [] := by
  induction pre with
  | nil =>
    have hlabelled : labelledDigits (announceLabel ++ (ws ++ (ds ++ rest))) ≠ [] := by
      rw [labelledDigits_label hws hne hds]
      exact List.append_ne_nil_of_left_ne_nil hne _
    rw [List.nil_append, announced_label hlabelled]
    exact hlabelled
  | cons c pre ih =>
    rw [List.cons_append, announced]
    split
    next h =>
      rw [Bool.and_eq_true, Bool.not_eq_true', ← Bool.not_eq_true, List.isEmpty_iff] at h
      exact h.2
    next => exact ih

/-- Text in which no label begins is passed over. -/
theorem announced_skip {pre rest : Text}
    (h : ∀ u w, pre = u ++ w → w ≠ [] → ¬announceLabel <+: w ++ rest) :
    announced (pre ++ rest) = announced rest := by
  induction pre with
  | nil => rfl
  | cons c pre ih =>
    have hnot : ¬announceLabel <+: c :: (pre ++ rest) := h [] (c :: pre) rfl (List.cons_ne_nil c pre)
    rw [List.cons_append, announced, if_neg]
    · apply ih
      intro u w heq hw
      exact h (c :: u) w (by rw [heq, List.cons_append]) hw
    · rw [Bool.and_eq_true, List.isPrefixOf_iff_prefix]
      exact fun h => hnot h.1

theorem announced_eq_nil {s : Text} (h : ¬announceLabel <:+: s) : announced s = [] := by
  rw [← List.append_nil s, announced_skip]
  · rfl
  · intro u w heq _ hstart
    rw [List.append_nil] at hstart
    rw [heq] at h
    exact h (hstart.isInfix.trans (List.suffix_append u w).isInfix)

end Announced

end IrToAssembly

end LinuxAnalysis
