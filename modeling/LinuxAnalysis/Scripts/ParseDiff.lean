import LinuxAnalysis.Scripts.ChangedInt

/-!
# locate-const-in-ir.py: the hunks of a diff

`parse_diff` reads the output of `diff` hunk by hunk and compares the last lines of the two sides.
-/

open LinuxAnalysis.Lib

namespace LinuxAnalysis

/-! ## The script -/

section ParseDiff

variable [Unicode]

/-- `\d+(?:,\d+)?` -/
def rangeRE : Regex :=
  .seq (.plus true Regex.digit) (.opt (.seq (.lit [',']) (.plus true Regex.digit)))

/-- `^\d+(?:,\d+)?c\d+(?:,\d+)?$` -/
def hunkRE : Regex := .cat [.textStart, rangeRE, .lit ['c'], rangeRE, .textEnd]

def isHunkHeader (line : Text) : Bool := (Regex.matchStart hunkRE (Str.strip line)).isSome

def lineStartsWith (mark : Char) (line : Text) : Bool := Str.startswith line [mark]

/-- The last of some marked lines, without its mark. -/
def lastLine (lines : List Text) : Option Text :=
  lines.getLast?.map fun line => Str.strip (line.drop 1)

def dropSeparator : List Text → List Text
  | [] => []
  | line :: lines => if Str.strip line = "---".toList then lines else line :: lines

/-- What is yielded for the two lines that a hunk ends with. -/
def hunkYield (old new : Option Text) : List (Text × Text × Text) :=
  match old, new with
  | some old, some new =>
    if old ≠ [] ∧ new ≠ [] then
      match changedInt old new with
      | some (ov, nv) => [(old, ov, nv)]
      | none => []
    else []
  | _, _ => []

/-- The lines behind the `<` lines and the separator. -/
def newSide (lines : List Text) : List Text :=
  dropSeparator (lines.dropWhile (lineStartsWith '<'))

def parseDiffFuel : Nat → List Text → List (Text × Text × Text)
  | 0, _ => []
  | _, [] => []
  | n + 1, line :: lines =>
    if isHunkHeader line then
      hunkYield (lastLine (lines.takeWhile (lineStartsWith '<')))
          (lastLine ((newSide lines).takeWhile (lineStartsWith '>'))) ++
        parseDiffFuel n ((newSide lines).dropWhile (lineStartsWith '>'))
    else parseDiffFuel n lines

def parseDiffLines (lines : List Text) : List (Text × Text × Text) :=
  parseDiffFuel lines.length lines

/-- `parse_diff` -/
def parseDiff (diffOutput : Text) : List (Text × Text × Text) :=
  parseDiffLines (Str.splitlines diffOutput)

/-! ## The loop -/

omit [Unicode] in
theorem length_behind (lines : List Text) :
    ((newSide lines).dropWhile (lineStartsWith '>')).length ≤ lines.length := by
  have hseparator (lines : List Text) : (dropSeparator lines).length ≤ lines.length := by
    cases lines with
    | nil => exact le_rfl
    | cons line lines =>
      rw [dropSeparator]
      split
      · exact Nat.le_succ _
      · exact le_rfl
  calc ((newSide lines).dropWhile (lineStartsWith '>')).length
      ≤ (newSide lines).length := (List.dropWhile_sublist _).length_le
    _ ≤ (lines.dropWhile (lineStartsWith '<')).length := hseparator _
    _ ≤ lines.length := (List.dropWhile_sublist _).length_le

theorem parseDiffFuel_eq {n m : Nat} {lines : List Text} (hn : lines.length ≤ n)
    (hm : lines.length ≤ m) : parseDiffFuel n lines = parseDiffFuel m lines := by
  induction n generalizing m lines with
  | zero =>
    obtain rfl := List.length_eq_zero_iff.mp (Nat.le_zero.mp hn)
    cases m <;> rfl
  | succ n ih =>
    cases lines with
    | nil => cases m <;> rfl
    | cons line lines =>
      cases m with
      | zero => exact absurd hm (by simp)
      | succ m =>
        rw [List.length_cons, Nat.add_le_add_iff_right] at hn hm
        have hbehind := length_behind lines
        rw [parseDiffFuel, parseDiffFuel, ih hn hm, ih (hbehind.trans hn) (hbehind.trans hm)]

theorem parseDiffLines_of_header {line : Text} (lines : List Text)
    (h : isHunkHeader line = true) :
    parseDiffLines (line :: lines) =
      hunkYield (lastLine (lines.takeWhile (lineStartsWith '<')))
          (lastLine ((newSide lines).takeWhile (lineStartsWith '>'))) ++
        parseDiffLines ((newSide lines).dropWhile (lineStartsWith '>')) := by
  rw [parseDiffLines, List.length_cons, parseDiffFuel, if_pos h,
    parseDiffFuel_eq (length_behind lines) le_rfl]
  rfl

theorem parseDiffLines_of_not_header {line : Text} (lines : List Text)
    (h : isHunkHeader line = false) : parseDiffLines (line :: lines) = parseDiffLines lines := by
  rw [parseDiffLines, List.length_cons, parseDiffFuel, h]
  rfl

end ParseDiff

/-! ## The output of diff -/

structure LineRange where
  first : Nat
  last : Option Nat

def LineRange.text (r : LineRange) : Text :=
  Str.str r.first ++
    match r.last with
    | some n => ',' :: Str.str n
    | none => []

/-- A stretch of the first file that is replaced by one of the second; one of the two may be empty. -/
structure Hunk where
  oldRange : LineRange
  newRange : LineRange
  olds : List Text
  news : List Text
  oneLine : ∀ line ∈ olds ++ news, ∀ c ∈ line, Str.isLineBreak c = false

namespace Hunk

def command (h : Hunk) : Char := if h.olds = [] then 'a' else if h.news = [] then 'd' else 'c'

def header (h : Hunk) : Text := h.oldRange.text ++ h.command :: h.newRange.text

def lines (h : Hunk) : List Text :=
  h.header :: (h.olds.map ("< ".toList ++ ·) ++
    ((if h.command = 'c' then ["---".toList] else []) ++ h.news.map ("> ".toList ++ ·)))

/-- What is yielded for a hunk. -/
def yields [Unicode] (h : Hunk) : List (Text × Text × Text) :=
  hunkYield (h.olds.getLast?.map Str.strip) (h.news.getLast?.map Str.strip)

end Hunk

/-- The output of `diff` for two files. -/
def diffText (hunks : List Hunk) : Text := Str.unlines (hunks.flatMap Hunk.lines)

section Reading

variable [Unicode]

open Regex (Cursor)

/-! ## Headers -/

theorem matches_rangeRE (r : LineRange) (before rest : Text) :
    Regex.Matches rangeRE ⟨before, r.text ++ rest, []⟩ ⟨r.text.reverse ++ before, rest, []⟩ := by
  have hdigits (n : Nat) (before rest : Text) : Regex.Matches (.plus true Regex.digit)
      ⟨before, Str.str n ++ rest, []⟩ ⟨(Str.str n).reverse ++ before, rest, []⟩ :=
    Regex.matches_plus.mpr ⟨Str.str n, rest, Nat.toDigits_ne_nil, rfl,
      fun c hc => Regex.digit_of_mem_str hc, rfl⟩
  unfold LineRange.text
  cases r.last with
  | none =>
    rw [List.append_nil]
    exact ⟨_, hdigits r.first before rest, .inr rfl⟩
  | some n =>
    rw [List.append_assoc, List.reverse_append, List.append_assoc]
    refine ⟨_, hdigits r.first before _, .inl ⟨⟨',' :: ((Str.str r.first).reverse ++ before),
      Str.str n ++ rest, []⟩, Regex.matches_lit.mpr ⟨_, rfl, rfl⟩, ?_⟩⟩
    rw [List.reverse_cons, List.append_assoc]
    exact hdigits n _ rest

/-- What a header is made of. -/
theorem isSpace_header (h : Hunk) : ∀ c ∈ h.header, Str.isSpace c = false := by
  have hrange (r : LineRange) : ∀ c ∈ r.text, Str.isSpace c = false := by
    intro c hc
    unfold LineRange.text at hc
    rcases List.mem_append.mp hc with hc | hc
    · exact Regex.isSpace_of_digit (Regex.digit_of_mem_str hc)
    · cases hlast : r.last with
      | none =>
        rw [hlast] at hc
        cases hc
      | some n =>
        rw [hlast] at hc
        rcases List.mem_cons.mp hc with rfl | hc
        · decide
        · exact Regex.isSpace_of_digit (Regex.digit_of_mem_str hc)
  intro c hc
  rcases List.mem_append.mp hc with hc | hc
  · exact hrange _ c hc
  · rcases List.mem_cons.mp hc with rfl | hc
    · unfold Hunk.command
      split
      · decide
      · split <;> decide
    · exact hrange _ c hc

theorem digit_head_header (h : Hunk) : ∃ c cs, h.header = c :: cs ∧ Regex.digit c = true := by
  cases hstr : Str.str h.oldRange.first with
  | nil => exact absurd hstr Nat.toDigits_ne_nil
  | cons c cs =>
    have hmem : c ∈ Str.str h.oldRange.first := by
      rw [hstr]
      exact List.mem_cons_self
    rw [Hunk.header, LineRange.text, hstr]
    exact ⟨c, _, rfl, Regex.digit_of_mem_str hmem⟩

theorem isHunkHeader_of_change {h : Hunk} (hcommand : h.command = 'c') :
    isHunkHeader h.header = true := by
  have hheader : h.header = h.oldRange.text ++ 'c' :: (h.newRange.text ++ []) := by
    rw [Hunk.header, hcommand, List.append_nil]
  have hmatch : ∃ d, Regex.Matches hunkRE ⟨[], h.header, []⟩ d := by
    rw [hheader]
    exact ⟨_, _, ⟨rfl, rfl⟩, _, matches_rangeRE _ _ _, _, Regex.matches_lit.mpr ⟨_, rfl, rfl⟩, _,
      matches_rangeRE _ _ _, _, ⟨rfl, rfl⟩, rfl⟩
  obtain ⟨d, hmatch⟩ := hmatch
  rw [isHunkHeader, Str.strip_eq_self (isSpace_header h), Regex.matchStart, Option.isSome_map]
  exact Regex.exec_complete hmatch rfl

/-- A header has a digit in front and the letter `c` behind it. -/
theorem of_isHunkHeader {line : Text} (h : isHunkHeader line = true) :
    'c' ∈ Str.strip line ∧ ∃ c cs, Str.strip line = c :: cs ∧ Regex.digit c = true := by
  obtain ⟨m, hm⟩ := Option.isSome_iff_exists.mp h
  obtain ⟨_, ⟨_, rfl⟩, e, hrange, _, hletter, _⟩ := (Regex.matchStart_sound hm).2
  obtain ⟨rest, hrest, _⟩ := Regex.matches_lit.mp hletter
  constructor
  · exact (Regex.suffix_of_matches hrange).mem (by rw [hrest]; simp)
  · obtain ⟨_, hdigits, _⟩ := hrange
    obtain ⟨ds, rest', hne, hline, hds, _⟩ := Regex.matches_plus.mp hdigits
    cases ds with
    | nil => exact absurd rfl hne
    | cons c ds => exact ⟨c, ds ++ rest', hline, hds c List.mem_cons_self⟩

theorem isHunkHeader_of_not_change {h : Hunk} (hcommand : h.command ≠ 'c') :
    isHunkHeader h.header = false := by
  by_contra hheader
  have hmem := (of_isHunkHeader (Bool.eq_true_of_not_eq_false hheader)).1
  rw [Str.strip_eq_self (isSpace_header h)] at hmem
  have hrange (r : LineRange) : 'c' ∉ r.text := by
    have hdigits (n : Nat) : 'c' ∉ Str.str n := by
      intro hc
      have hdigit := Regex.digit_of_mem_str hc
      rw [Regex.digit_eq_false (by decide) (by decide)] at hdigit
      cases hdigit
    intro hc
    unfold LineRange.text at hc
    rcases List.mem_append.mp hc with hc | hc
    · exact hdigits _ hc
    · cases hlast : r.last with
      | none =>
        rw [hlast] at hc
        cases hc
      | some n =>
        rw [hlast] at hc
        rcases List.mem_cons.mp hc with hc | hc
        · exact absurd hc (by decide)
        · exact hdigits n hc
  rcases List.mem_append.mp hmem with hmem | hmem
  · exact hrange _ hmem
  · rcases List.mem_cons.mp hmem with hmem | hmem
    · exact hcommand hmem.symm
    · exact hrange _ hmem

theorem isHunkHeader_of_mark {mark : Char} {line : Text} (hspace : Str.isSpace mark = false)
    (hdigit : Regex.digit mark = false) : isHunkHeader (mark :: line) = false := by
  by_contra hheader
  obtain ⟨c, cs, hstrip, hc⟩ := (of_isHunkHeader (Bool.eq_true_of_not_eq_false hheader)).2
  have hprefix : Str.strip (mark :: line) <+: mark :: line := by
    rw [Str.strip, Str.stripBy, List.dropWhile_cons_of_neg (by rw [hspace]; exact Bool.false_ne_true)]
    exact List.rdropWhile_prefix _ _
  rw [hstrip] at hprefix
  rw [(List.cons_prefix_cons.mp hprefix).1, hdigit] at hc
  cases hc

/-! ## Hunks -/

theorem parseDiffLines_skip {skipped : List Text} (h : ∀ line ∈ skipped, isHunkHeader line = false)
    (lines : List Text) : parseDiffLines (skipped ++ lines) = parseDiffLines lines := by
  induction skipped with
  | nil => rfl
  | cons line skipped ih =>
    obtain ⟨hline, hskipped⟩ := List.forall_mem_cons.mp h
    rw [List.cons_append, parseDiffLines_of_not_header _ hline, ih hskipped]

omit [Unicode] in
/-- The last marked line is the last line. -/
theorem lastLine_marked (mark : Char) (lines : List Text) :
    lastLine (lines.map ([mark, ' '] ++ ·)) = lines.getLast?.map Str.strip := by
  rw [lastLine, List.getLast?_map, Option.map_map]
  congr 1

omit [Unicode] in
theorem takeWhile_marked (mark : Char) (lines : List Text) {rest : List Text}
    (hrest : ∀ line ∈ rest.head?, lineStartsWith mark line = false) :
    (lines.map ([mark, ' '] ++ ·) ++ rest).takeWhile (lineStartsWith mark) =
        lines.map ([mark, ' '] ++ ·) ∧
      (lines.map ([mark, ' '] ++ ·) ++ rest).dropWhile (lineStartsWith mark) = rest := by
  have hmarked : ∀ line ∈ lines.map ([mark, ' '] ++ ·), lineStartsWith mark line = true := by
    intro line hline
    obtain ⟨l, _, rfl⟩ := List.mem_map.mp hline
    simp [lineStartsWith, Str.startswith]
  rw [List.takeWhile_append_of_pos hmarked, List.dropWhile_append_of_pos hmarked]
  cases rest with
  | nil => exact ⟨List.append_nil _, rfl⟩
  | cons line rest =>
    have hline := hrest line rfl
    rw [List.takeWhile_cons_of_neg (by rw [hline]; exact Bool.false_ne_true),
      List.dropWhile_cons_of_neg (by rw [hline]; exact Bool.false_ne_true), List.append_nil]
    exact ⟨rfl, rfl⟩

/-- One hunk. -/
theorem parseDiffLines_hunk (h : Hunk) {rest : List Text}
    (hrest : ∀ line ∈ rest.head?, lineStartsWith '>' line = false) :
    parseDiffLines (h.lines ++ rest) = h.yields ++ parseDiffLines rest := by
  -- the marked lines are no headers
  have hmark {mark : Char} (hmark : mark = '<' ∨ mark = '>') {lines : List Text} :
      ∀ line ∈ lines.map ([mark, ' '] ++ ·), isHunkHeader line = false := by
    intro line hline
    obtain ⟨l, _, rfl⟩ := List.mem_map.mp hline
    rcases hmark with rfl | rfl
    · exact isHunkHeader_of_mark (by decide) (Regex.digit_eq_false (by decide) (by decide))
    · exact isHunkHeader_of_mark (by decide) (Regex.digit_eq_false (by decide) (by decide))
  by_cases hcommand : h.command = 'c'
  · have hseparator : ∀ line ∈ ("---".toList :: (h.news.map (['>', ' '] ++ ·) ++ rest)).head?,
        lineStartsWith '<' line = false := by
      rintro line ⟨⟩
      decide
    -- the two sides end where their marks end
    have holds := takeWhile_marked '<' h.olds hseparator
    have hnews := takeWhile_marked '>' h.news hrest
    have hlines : h.lines ++ rest = h.header :: (h.olds.map (['<', ' '] ++ ·) ++
        "---".toList :: (h.news.map (['>', ' '] ++ ·) ++ rest)) := by
      rw [Hunk.lines, if_pos hcommand, List.cons_append, List.append_assoc, List.append_assoc]
      rfl
    have hside : newSide (h.olds.map (['<', ' '] ++ ·) ++
        "---".toList :: (h.news.map (['>', ' '] ++ ·) ++ rest)) =
          h.news.map (['>', ' '] ++ ·) ++ rest := by
      rw [newSide, holds.2, dropSeparator, if_pos (by decide)]
    rw [hlines, parseDiffLines_of_header _ (isHunkHeader_of_change hcommand), hside, holds.1,
      hnews.1, hnews.2, lastLine_marked, lastLine_marked, Hunk.yields]
  · -- nothing in a hunk that only adds or deletes looks like a header
    have hempty : h.olds = [] ∨ h.news = [] := by
      by_contra hne
      obtain ⟨holds, hnews⟩ := not_or.mp hne
      exact hcommand (by rw [Hunk.command, if_neg holds, if_neg hnews])
    have hyields : h.yields = [] := by
      rw [Hunk.yields]
      rcases hempty with holds | hnews
      · rw [holds]
        rfl
      · rw [hnews]
        cases h.olds.getLast? <;> rfl
    rw [Hunk.lines, if_neg hcommand, List.nil_append, List.cons_append,
      parseDiffLines_of_not_header _ (isHunkHeader_of_not_change hcommand), hyields,
      parseDiffLines_skip]
    · rfl
    · intro line hline
      rcases List.mem_append.mp hline with hline | hline
      · exact hmark (.inl rfl) line hline
      · exact hmark (.inr rfl) line hline

/-- The lines of a hunk are lines. -/
theorem isLineBreak_lines (h : Hunk) : ∀ line ∈ h.lines, ∀ c ∈ line, Str.isLineBreak c = false := by
  have hmarked {mark : Text} (hmark : ∀ c ∈ mark, Str.isLineBreak c = false) {lines : List Text}
      (hlines : ∀ line ∈ lines, ∀ c ∈ line, Str.isLineBreak c = false) :
      ∀ line ∈ lines.map (mark ++ ·), ∀ c ∈ line, Str.isLineBreak c = false := by
    intro line hline c hc
    obtain ⟨l, hl, rfl⟩ := List.mem_map.mp hline
    rcases List.mem_append.mp hc with hc | hc
    · exact hmark c hc
    · exact hlines l hl c hc
  intro line hline
  rcases List.mem_cons.mp hline with rfl | hline
  · intro c hc
    by_contra hbreak
    have hspace := Str.isSpace_of_isLineBreak (Bool.eq_true_of_not_eq_false hbreak)
    rw [isSpace_header h c hc] at hspace
    cases hspace
  · rcases List.mem_append.mp hline with hline | hline
    · exact hmarked (by decide) (fun l hl => h.oneLine l (List.mem_append_left _ hl)) line hline
    · rcases List.mem_append.mp hline with hline | hline
      · split at hline
        · rw [List.mem_singleton.mp hline]
          decide
        · cases hline
      · exact hmarked (by decide) (fun l hl => h.oneLine l (List.mem_append_right _ hl)) line hline

/-- **A diff is read hunk by hunk.** -/
theorem parseDiff_diffText (hunks : List Hunk) :
    parseDiff (diffText hunks) = hunks.flatMap Hunk.yields := by
  have hlines : ∀ line ∈ hunks.flatMap Hunk.lines, ∀ c ∈ line, Str.isLineBreak c = false := by
    intro line hline
    obtain ⟨h, _, hline⟩ := List.mem_flatMap.mp hline
    exact isLineBreak_lines h line hline
  rw [parseDiff, diffText, Str.splitlines_unlines hlines]
  clear hlines
  induction hunks with
  | nil => rfl
  | cons h hunks ih =>
    have hhead : ∀ line ∈ (hunks.flatMap Hunk.lines).head?, lineStartsWith '>' line = false := by
      cases hunks with
      | nil => rintro line ⟨⟩
      | cons h' hunks =>
        rintro line ⟨⟩
        obtain ⟨c, cs, hheader, hc⟩ := digit_head_header h'
        have hne : c ≠ '>' := by
          rintro rfl
          rw [Regex.digit_eq_false (by decide) (by decide)] at hc
          cases hc
        rw [hheader]
        show ('>' == c && true) = false
        rw [beq_false_of_ne hne.symm, Bool.false_and]
    rw [List.flatMap_cons, parseDiffLines_hunk h hhead, List.flatMap_cons, ih]

end Reading

/-! ## What is reported -/

namespace LinePair

variable [Unicode] (p : LinePair)

theorem strip_ne_nil {side : TokenPair → Text} (h : Str.split (p.line side) = p.pairs.map side) :
    Str.strip (p.line side) ≠ [] := by
  intro hnil
  have hsplit := Str.split_strip (p.line side)
  rw [hnil, h, pairs, List.map_cons] at hsplit
  cases hsplit

/-- What a hunk that ends in the two lines yields. -/
theorem yields_eq {h : Hunk} (hold : h.olds.getLast? = some p.old) (hnew : h.news.getLast? = some p.new) :
    h.yields = ((changedInt p.old p.new).map fun e => (Str.strip p.old, e.1, e.2)).toList := by
  rw [Hunk.yields, hold, hnew]
  show (if Str.strip p.old ≠ [] ∧ Str.strip p.new ≠ [] then
    match changedInt (Str.strip p.old) (Str.strip p.new) with
    | some (ov, nv) => [(Str.strip p.old, ov, nv)]
    | none => []
    else []) = _
  rw [if_pos ⟨p.strip_ne_nil p.split_old, p.strip_ne_nil p.split_new⟩, changedInt_strip]
  cases changedInt p.old p.new <;> rfl

theorem isLineBreak_line {side : TokenPair → Text}
    (h : ∀ t ∈ p.pairs, ∀ c ∈ side t, Str.isSpace c = false) :
    ∀ c ∈ p.line side, Str.isLineBreak c = false := by
  have hspaces {n : Nat} {c : Char} (hc : c ∈ List.replicate n ' ') : Str.isLineBreak c = false := by
    rw [List.eq_of_mem_replicate hc]
    decide
  have hfield {t : TokenPair} (ht : t ∈ p.pairs) {c : Char} (hc : c ∈ side t) :
      Str.isLineBreak c = false := by
    by_contra hbreak
    have hspace := Str.isSpace_of_isLineBreak (Bool.eq_true_of_not_eq_false hbreak)
    rw [h t ht c hc] at hspace
    cases hspace
  intro c hc
  rcases List.mem_append.mp hc with hc | hc
  · exact hspaces hc
  · rcases List.mem_append.mp hc with hc | hc
    · exact hfield List.mem_cons_self hc
    · obtain ⟨e, he, hc⟩ := List.mem_flatMap.mp hc
      rcases List.mem_append.mp hc with hc | hc
      · exact hspaces hc
      · exact hfield (List.mem_cons_of_mem _ (List.mem_map_of_mem he)) hc

/-- The hunk of the two lines alone. -/
def hunk : Hunk where
  oldRange := ⟨1, none⟩
  newRange := ⟨1, none⟩
  olds := [p.old]
  news := [p.new]
  oneLine := by
    have htoken (t : TokenPair) (ht : t ∈ p.pairs) := TokenPair.isToken (p.wellFormed t ht)
    intro line hline
    rcases List.mem_cons.mp hline with rfl | hline
    · exact p.isLineBreak_line fun t ht => (htoken t ht).1.2
    · rw [List.mem_singleton.mp hline]
      exact p.isLineBreak_line fun t ht => (htoken t ht).2.2

/-- A changed operand is reported with its values, and renumbering alone is not reported. -/
def Reported : Prop :=
  (∀ values, p.operand = some values → changedInt p.old p.new = some values) ∧
    (p.operand = none → ∀ (pre post : List Hunk) (h : Hunk), h.olds.getLast? = some p.old →
      h.news.getLast? = some p.new →
        parseDiff (diffText (pre ++ h :: post)) = parseDiff (diffText (pre ++ post)))

/-- The script reports what it should if and only if `changed_int` finds what the operand became. -/
theorem reported_iff_changedInt : p.Reported ↔ changedInt p.old p.new = p.operand := by
  constructor
  · rintro ⟨hreported, hquiet⟩
    cases hoperand : p.operand with
    | some values => exact hreported values hoperand
    | none =>
      have hdiff := hquiet hoperand [] [] p.hunk rfl rfl
      rw [parseDiff_diffText, parseDiff_diffText, List.nil_append, List.nil_append,
        List.flatMap_cons, List.flatMap_nil, List.append_nil, p.yields_eq rfl rfl] at hdiff
      cases hchanged : changedInt p.old p.new with
      | none => rfl
      | some values =>
        rw [hchanged] at hdiff
        cases hdiff
  · intro heq
    refine ⟨fun values hvalues => heq.trans hvalues, ?_⟩
    intro hnone pre post h hold hnew
    rw [hnone] at heq
    rw [parseDiff_diffText, parseDiff_diffText, List.flatMap_append, List.flatMap_append,
      List.flatMap_cons, p.yields_eq hold hnew, heq]
    rfl

/-- **When only operands are reported.**  The script returns the values of a changed operand, and yields
nothing for renumbering alone, if and only if the first opposite fields with different numbers are those
of the operand.  In aligned lines, as in all whose changed fields stand nowhere in the other line, the
first field whose number changed has to be the operand. -/
theorem reported_iff (p : LinePair) : (p.Reported ↔ p.OperandFirst) ∧
    (p.Aligned → (p.Reported ↔ p.pairs.findSome? TokenPair.numbers = p.operand)) ∧
    (p.Fresh → p.Aligned) := by
  refine ⟨?_, ?_, Fresh.aligned⟩
  · rw [reported_iff_changedInt, changedInt_eq_operand_iff]
  · intro haligned
    rw [reported_iff_changedInt, p.changedInt_of_aligned haligned]

end LinePair

/-- `%5 = add i32 %4, 8` and `%6 = add i32 %5, 9` -/
def renumberedAdd : @LinePair Unicode.ascii :=
  let _ := Unicode.ascii
  { indent := 2
    first := .reference [] .register 5 6 []
    rest := [(0, .same ['=']), (0, .same "add".toList), (0, .same "i32".toList),
      (0, .reference [] .register 4 5 [',']), (0, .constant [] 32 8 9 [])]
    wellFormed := by
      have hnumber {n m : Nat} {after : Text} (hspace : ∀ c ∈ after, Str.isSpace c = false)
          (hdigit : ∀ c ∈ after.head?, Regex.digit c = false) :
          (TokenPair.reference [] .register n m after).WellFormed :=
        ⟨hspace, fun _ hc => absurd hc List.not_mem_nil, hdigit⟩
      intro t ht
      simp only [List.map_cons, List.map_nil, List.mem_cons, List.not_mem_nil, or_false] at ht
      rcases ht with rfl | rfl | rfl | rfl | rfl | rfl
      · exact hnumber (by decide) (by rintro c ⟨⟩)
      · exact ⟨by decide, by decide⟩
      · exact ⟨by decide, by decide⟩
      · exact ⟨by decide, by decide⟩
      · exact hnumber (by decide) (by rintro c ⟨⟩; decide)
      · exact ⟨by decide, by decide, by decide, by decide, fun h => absurd h (by decide)⟩
    operands_le := by decide }

/-- The number of the result is reported in place of the operand. -/
theorem reported_misses_operand : ¬ ∀ (_ : Unicode) (p : LinePair), p.Reported := by
  intro hall
  have hreported := (hall Unicode.ascii renumberedAdd).1 ("8".toList, "9".toList) rfl
  exact absurd hreported (by decide +kernel)

end LinuxAnalysis
