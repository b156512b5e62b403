import LinuxAnalysis.Lib.Text

/-!
# Lines of fields

Facts about `splitlines` and `split`: a listing that ends every line is read back line by line, and the
fields of a line are the stretches between its white space.
-/

namespace LinuxAnalysis.Lib

namespace Str

/-! ## Lines -/

theorem isSpace_of_isLineBreak {c : Char} (h : isLineBreak c = true) : isSpace c = true := by
  have hcodes : ∀ n ∈ lineBreakCodes, spaceCodes.contains n = true := by decide
  exact hcodes c.toNat (List.contains_iff_mem.mp h)

theorem splitlinesAux_newline (current cs : List Char) :
    splitlinesAux current ('\n' :: cs) = current.reverse :: splitlinesAux [] cs := by
  rw [splitlinesAux, if_pos (by decide)]
  · intro _ h
    exact absurd h (by decide)

theorem splitlinesAux_cons_of_not {c : Char} (hc : isLineBreak c = false) (current cs : List Char) :
    splitlinesAux current (c :: cs) = splitlinesAux (c :: current) cs := by
  rw [splitlinesAux, if_neg (by rw [hc]; exact Bool.false_ne_true)]
  -- a carriage return would be a line break
  · intro _ hreturn _
    rw [hreturn] at hc
    exact absurd hc (by decide)

theorem splitlinesAux_append {line : List Char} (hline : ∀ c ∈ line, isLineBreak c = false)
    (current rest : List Char) :
    splitlinesAux current (line ++ rest) = splitlinesAux (line.reverse ++ current) rest := by
  induction line generalizing current with
  | nil => rfl
  | cons c line ih =>
    obtain ⟨hc, hline⟩ := List.forall_mem_cons.mp hline
    rw [List.cons_append, splitlinesAux_cons_of_not hc, ih hline, List.reverse_cons,
      List.append_assoc, List.singleton_append]

/-- The text of a list of lines. -/
def unlines (lines : List (List Char)) : List Char := lines.flatMap fun line => line ++ ['\n']

theorem splitlines_unlines {lines : List (List Char)}
    (h : ∀ line ∈ lines, ∀ c ∈ line, isLineBreak c = false) : splitlines (unlines lines) = lines := by
  induction lines with
  | nil => rfl
  | cons line lines ih =>
    obtain ⟨hline, hlines⟩ := List.forall_mem_cons.mp h
    have hrest : splitlinesAux [] (unlines lines) = lines := ih hlines
    rw [unlines, List.flatMap_cons, splitlines, List.append_assoc, splitlinesAux_append hline,
      List.append_nil, List.singleton_append, splitlinesAux_newline, List.reverse_reverse]
    exact congrArg (List.cons line) hrest

/-- The lines of a file that is opened in text mode, without their line ends. -/
def fileLines (text : List Char) : List (List Char) :=
  let lines := (universalNewlines text).splitOn '\n'
  if lines.getLast? = some [] then lines.dropLast else lines

theorem splitOn_unlines {lines : List (List Char)} (h : ∀ line ∈ lines, '\n' ∉ line) :
    (unlines lines).splitOn '\n' = lines ++ [[]] := by
  have hjoin (lines : List (List Char)) :
      unlines lines = ['\n'].intercalate (lines ++ [[]]) := by
    induction lines with
    | nil => rfl
    | cons line lines ih =>
      rw [unlines, List.flatMap_cons, ← unlines, ih, List.cons_append,
        List.intercalate_cons_of_ne_nil (by simp)]
  have hnewline : ∀ line ∈ lines ++ [[]], '\n' ∉ line := by
    intro line hline
    rcases List.mem_append.mp hline with hline | hline
    · exact h line hline
    · rw [List.mem_singleton.mp hline]
      exact List.not_mem_nil
  rw [hjoin, List.splitOn_intercalate '\n' hnewline (by simp)]

theorem return_not_mem_unlines {lines : List (List Char)} (h : ∀ line ∈ lines, '\r' ∉ line) :
    '\r' ∉ unlines lines := by
  intro hmem
  obtain ⟨line, hline, hmem⟩ := List.mem_flatMap.mp hmem
  rcases List.mem_append.mp hmem with hmem | hmem
  · exact h line hline hmem
  · exact absurd (List.mem_singleton.mp hmem) (by decide)

theorem fileLines_unlines {lines : List (List Char)}
    (h : ∀ line ∈ lines, '\n' ∉ line ∧ '\r' ∉ line) : fileLines (unlines lines) = lines := by
  have hreturn := return_not_mem_unlines fun line hline => (h line hline).2
  rw [fileLines, universalNewlines_eq_self hreturn, splitOn_unlines fun line hline => (h line hline).1,
    if_pos (by simp), List.dropLast_concat]

/-! ## Fields -/

/-- The pieces of a text are stretches of it without separators. -/
theorem of_mem_splitOnP {p : Char → Bool} {s w : List Char} (h : w ∈ s.splitOnP p) :
    (∀ c ∈ w, p c = false) ∧ w <:+: s := by
  induction hn : s.length using Nat.strongRecOn generalizing s with
  | ind n ih =>
    by_cases hsep : ∃ c ∈ s, p c = true
    · -- the pieces before and after one separator
      obtain ⟨c, hc, hpc⟩ := hsep
      obtain ⟨a, b, rfl⟩ := List.append_of_mem hc
      rw [List.length_append, List.length_cons] at hn
      rw [List.splitOnP_append_cons a b hpc] at h
      rcases List.mem_append.mp h with h | h
      · obtain ⟨hw, hinfix⟩ := ih a.length (by omega) h rfl
        exact ⟨hw, List.infix_append_of_infix_left hinfix⟩
      · obtain ⟨hw, hinfix⟩ := ih b.length (by omega) h rfl
        exact ⟨hw, List.infix_append_of_infix_right (List.infix_cons hinfix)⟩
    · have hnone : ∀ c ∈ s, p c = false := by
        intro c hc
        by_contra hpc
        exact hsep ⟨c, hc, Bool.not_eq_false _ ▸ hpc⟩
      rw [List.splitOnP_eq_singleton hnone, List.mem_singleton] at h
      rw [h]
      exact ⟨hnone, List.infix_refl s⟩

theorem of_mem_fileLines {text line : List Char} (h : line ∈ fileLines text) :
    '\n' ∉ line ∧ '\r' ∉ line := by
  have hpiece : line ∈ (universalNewlines text).splitOnP (· == '\n') := by
    dsimp only [fileLines] at h
    split at h
    · exact List.mem_of_mem_dropLast h
    · exact h
  obtain ⟨hnewline, hstretch⟩ := of_mem_splitOnP hpiece
  refine ⟨fun hmem => ?_, fun hmem => not_mem_universalNewlines text (hstretch.mem hmem)⟩
  exact absurd (hnewline _ hmem) (by decide)

/-- A field is a non-empty stretch of the line without white space. -/
theorem of_mem_split {s w : List Char} (h : w ∈ split s) :
    w ≠ [] ∧ (∀ c ∈ w, isSpace c = false) ∧ w <:+: s := by
  obtain ⟨hmem, hne⟩ := List.mem_filter.mp h
  exact ⟨by simpa using hne, of_mem_splitOnP hmem⟩

theorem split_append_space {c : Char} (hc : isSpace c = true) (s t : List Char) :
    split (s ++ c :: t) = split s ++ split t := by
  rw [split, List.splitOnP_append_cons s t hc, List.filter_append]
  rfl

theorem split_eq_singleton {w : List Char} (hne : w ≠ []) (h : ∀ c ∈ w, isSpace c = false) :
    split w = [w] := by
  rw [split, List.splitOnP_eq_singleton h, List.filter_cons_of_pos (by simpa using hne),
    List.filter_nil]

theorem split_cons_field {w : List Char} (hne : w ≠ []) (h : ∀ c ∈ w, isSpace c = false) {c : Char}
    (hc : isSpace c = true) (t : List Char) : split (w ++ c :: t) = w :: split t := by
  rw [split_append_space hc, split_eq_singleton hne h, List.singleton_append]

/-- White space in front of a line or at its end adds no field. -/
theorem split_spaces_append {spaces : List Char} (h : ∀ c ∈ spaces, isSpace c = true)
    (s : List Char) : split (spaces ++ s) = split s := by
  induction spaces with
  | nil => rfl
  | cons c spaces ih =>
    obtain ⟨hc, hspaces⟩ := List.forall_mem_cons.mp h
    rw [List.cons_append, ← List.nil_append (c :: (spaces ++ s)), split_append_space hc, ih hspaces]
    rfl

theorem split_append_spaces {spaces : List Char} (h : ∀ c ∈ spaces, isSpace c = true)
    (s : List Char) : split (s ++ spaces) = split s := by
  induction spaces generalizing s with
  | nil => rw [List.append_nil]
  | cons c spaces ih =>
    obtain ⟨hc, hspaces⟩ := List.forall_mem_cons.mp h
    rw [split_append_space hc, ← List.append_nil spaces, split_spaces_append hspaces]
    exact List.append_nil _

theorem split_strip (s : List Char) : split (strip s) = split s := by
  have hback : ∀ c ∈ (s.dropWhile isSpace).rtakeWhile isSpace, isSpace c = true :=
    fun c hc => List.mem_rtakeWhile_imp hc
  have hfront : ∀ c ∈ s.takeWhile isSpace, isSpace c = true :=
    fun c hc => List.mem_takeWhile_imp hc
  calc split (strip s) = split (strip s ++ (s.dropWhile isSpace).rtakeWhile isSpace) :=
        (split_append_spaces hback _).symm
    _ = split (s.dropWhile isSpace) := by
        rw [strip, stripBy, List.rdropWhile_append_rtakeWhile]
    _ = split (s.takeWhile isSpace ++ s.dropWhile isSpace) := (split_spaces_append hfront _).symm
    _ = split s := by rw [List.takeWhile_append_dropWhile]

end Str

end LinuxAnalysis.Lib
