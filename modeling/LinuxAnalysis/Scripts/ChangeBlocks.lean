import LinuxAnalysis.Scripts.ParseDiff

/-!
# locate-const-in-ir.py: hunks of several lines

A hunk may replace several instructions, with blank lines between them or at its end.  The script keeps
the last line of each side, and passes over a hunk that ends in a blank line.
-/

open LinuxAnalysis.Lib

namespace LinuxAnalysis

/-- The lines of one side that are not blank. -/
def instructionLines (lines : List Text) : List Text :=
  lines.filter fun line => !(Str.strip line).isEmpty

theorem strip_ne_nil_of_mem {lines : List Text} {line : Text} (h : line ∈ instructionLines lines) :
    Str.strip line ≠ [] := by
  have hline := (List.mem_filter.mp h).2
  rwa [Bool.not_eq_true', List.isEmpty_eq_false_iff] at hline

/-- A last line that is not blank is the last instruction. -/
theorem instructionLines_of_getLast? {lines : List Text} {line : Text}
    (hlast : lines.getLast? = some line) (hline : Str.strip line ≠ []) :
    ∃ front, instructionLines lines = front ++ [line] := by
  obtain ⟨front, rfl⟩ := List.getLast?_eq_some_iff.mp hlast
  refine ⟨instructionLines front, ?_⟩
  rw [instructionLines, List.filter_append, List.filter_cons_of_pos (by simpa using hline)]
  rfl

namespace Hunk

/-- As many instructions on either side. -/
def Balanced (h : Hunk) : Prop :=
  (instructionLines h.olds).length = (instructionLines h.news).length

/-- The old and the new instruction at each place. -/
def pairs (h : Hunk) : List (Text × Text) :=
  (instructionLines h.olds).zip (instructionLines h.news)

variable [Unicode]

/-- The entry for an instruction in which a number changes. -/
def entry (p : Text × Text) : Option (Text × Text × Text) :=
  (changedInt p.1 p.2).map fun values => (Str.strip p.1, values.1, values.2)

/-- One entry for every instruction in which a number changes. -/
def entries (h : Hunk) : List (Text × Text × Text) := h.pairs.filterMap entry

/-- A number changes in no instruction but the one that both sides end in. -/
def OnlyLastChanges (h : Hunk) : Prop :=
  ∀ front p back, h.pairs = front ++ p :: back → changedInt p.1 p.2 ≠ none →
    back = [] ∧ h.olds.getLast? = some p.1 ∧ h.news.getLast? = some p.2

theorem entry_eq_none_iff {p : Text × Text} : entry p = none ↔ changedInt p.1 p.2 = none :=
  Option.map_eq_none_iff

/-- A hunk with a blank last line yields nothing. -/
theorem yields_of_blank {h : Hunk}
    (hblank : ∀ old new, h.olds.getLast? = some old → h.news.getLast? = some new →
      Str.strip old = [] ∨ Str.strip new = []) : h.yields = [] := by
  unfold yields
  cases hold : h.olds.getLast? with
  | none => rfl
  | some old =>
    cases hnew : h.news.getLast? with
    | none => rfl
    | some new =>
      show (if Str.strip old ≠ [] ∧ Str.strip new ≠ [] then _ else []) = []
      rw [if_neg]
      rintro ⟨h₁, h₂⟩
      exact (hblank old new hold hnew).elim h₁ h₂

/-- Otherwise the last lines are compared. -/
theorem yields_of_last {h : Hunk} {old new : Text} (hold : h.olds.getLast? = some old)
    (hnew : h.news.getLast? = some new) (hne : Str.strip old ≠ [] ∧ Str.strip new ≠ []) :
    h.yields = (entry (old, new)).toList := by
  rw [yields, hold, hnew, Option.map_some, Option.map_some, hunkYield, if_pos hne, changedInt_strip,
    entry]
  cases changedInt old new <;> rfl

/-- A hunk yields its entries exactly if only the last instruction changes. -/
theorem yields_eq_entries_iff {h : Hunk} (hbalanced : h.Balanced) :
    h.yields = h.entries ↔ h.OnlyLastChanges := by
  -- the block yields its last pair alone, if neither side is blank there
  by_cases hlast : ∃ old new, h.olds.getLast? = some old ∧ h.news.getLast? = some new ∧
      Str.strip old ≠ [] ∧ Str.strip new ≠ []
  · obtain ⟨old, new, hold, hnew, hne⟩ := hlast
    obtain ⟨olds, holds⟩ := instructionLines_of_getLast? hold hne.1
    obtain ⟨news, hnews⟩ := instructionLines_of_getLast? hnew hne.2
    have hpairs : h.pairs = olds.zip news ++ [(old, new)] := by
      -- the two sides have the same length, so the last lines are a pair
      have hlength : olds.length = news.length := by
        rw [Balanced, holds, hnews, List.length_append, List.length_append] at hbalanced
        exact Nat.add_right_cancel hbalanced
      rw [pairs, holds, hnews, List.zip_append hlength]
      rfl
    have hentries : h.entries = (olds.zip news).filterMap entry ++ (entry (old, new)).toList := by
      rw [entries, hpairs, List.filterMap_append, List.filterMap_cons, List.filterMap_nil]
      cases entry (old, new) <;> rfl
    rw [yields_of_last hold hnew hne, hentries, List.self_eq_append_left, List.filterMap_eq_nil_iff]
    constructor
    · intro hnone front p back hsplit hchanged
      rw [hpairs] at hsplit
      rcases List.eq_nil_or_concat back with rfl | ⟨back', q, rfl⟩
      · obtain ⟨_, hp⟩ := List.append_inj' hsplit rfl
        obtain rfl := List.singleton_inj.mp hp
        exact ⟨rfl, hold, hnew⟩
      · -- a pair before the last one
        rw [List.concat_eq_append, ← List.cons_append, ← List.append_assoc] at hsplit
        obtain ⟨hfront, _⟩ := List.append_inj' hsplit rfl
        have hmem : p ∈ olds.zip news := by
          rw [hfront]
          simp
        exact absurd (entry_eq_none_iff.mp (hnone p hmem)) hchanged
    · intro honly p hmem
      by_contra hchanged
      obtain ⟨front, back, hsplit⟩ := List.append_of_mem hmem
      have hback := (honly front p (back ++ [(old, new)])
        (by rw [hpairs, hsplit, List.append_assoc, List.cons_append])
        (fun hnone => hchanged (entry_eq_none_iff.mpr hnone))).1
      exact absurd hback (by simp)
  · -- one side ends in a blank line
    have hblank : ∀ old new, h.olds.getLast? = some old → h.news.getLast? = some new →
        Str.strip old = [] ∨ Str.strip new = [] := by
      intro old new hold hnew
      by_contra hne
      exact hlast ⟨old, new, hold, hnew, not_or.mp hne⟩
    rw [yields_of_blank hblank, entries, eq_comm, List.filterMap_eq_nil_iff]
    constructor
    · intro hnone front p back hsplit hchanged
      have hmem : p ∈ h.pairs := by
        rw [hsplit]
        simp
      exact absurd (entry_eq_none_iff.mp (hnone p hmem)) hchanged
    · intro honly p hmem
      by_contra hchanged
      obtain ⟨front, back, hsplit⟩ := List.append_of_mem hmem
      obtain ⟨_, hold, hnew⟩ := honly front p back hsplit
        (fun hnone => hchanged (entry_eq_none_iff.mpr hnone))
      obtain ⟨hmem₁, hmem₂⟩ := List.of_mem_zip hmem
      exact (hblank p.1 p.2 hold hnew).elim (strip_ne_nil_of_mem hmem₁) (strip_ne_nil_of_mem hmem₂)

end Hunk

/-- **Several instructions in a hunk.**  For a hunk with as many instructions on either side the script
yields one entry for every instruction in which a number changes, in their order, if and only if no
instruction changes but the one that both sides end in. -/
theorem parseDiff_complete_iff [Unicode] (pre post : List Hunk) (h : Hunk) (hbalanced : h.Balanced) :
    parseDiff (diffText (pre ++ h :: post)) =
        parseDiff (diffText pre) ++ (h.entries ++ parseDiff (diffText post)) ↔
      h.OnlyLastChanges := by
  rw [parseDiff_diffText, parseDiff_diffText, parseDiff_diffText, List.flatMap_append,
    List.flatMap_cons, List.append_cancel_left_eq, List.append_cancel_right_eq,
    Hunk.yields_eq_entries_iff hbalanced]

/-- A hunk of two instructions, a blank line between them; a number changes in the second one. -/
def returnHunk : Hunk where
  oldRange := ⟨4, some 6⟩
  newRange := ⟨4, some 6⟩
  olds := ["  call void @g()".toList, [], "  ret i32 5".toList]
  news := ["  call void @h()".toList, [], "  ret i32 6".toList]
  oneLine := by decide

theorem parseDiff_complete_iff_return :
    ∃ _ : Unicode, parseDiff (diffText ([] ++ returnHunk :: [])) =
      parseDiff (diffText []) ++ (returnHunk.entries ++ parseDiff (diffText [])) := by
  let _ := Unicode.ascii
  have hbalanced : (instructionLines returnHunk.olds).length =
      (instructionLines returnHunk.news).length := by decide +kernel
  have hpairs : returnHunk.pairs = [("  call void @g()".toList, "  call void @h()".toList),
      ("  ret i32 5".toList, "  ret i32 6".toList)] := by decide +kernel
  have hfirst : changedInt "  call void @g()".toList "  call void @h()".toList = none := by
    decide +kernel
  have hends : returnHunk.olds.getLast? = some "  ret i32 5".toList ∧
      returnHunk.news.getLast? = some "  ret i32 6".toList := by decide +kernel
  refine ⟨_, (parseDiff_complete_iff [] [] returnHunk hbalanced).mpr ?_⟩
  intro front p back hsplit hchanged
  rw [hpairs] at hsplit
  match front, hsplit with
  | [], hsplit =>
    obtain ⟨rfl, _⟩ := List.cons.inj hsplit
    exact absurd hfirst hchanged
  | [_], hsplit =>
    obtain ⟨_, hsplit⟩ := List.cons.inj hsplit
    obtain ⟨rfl, rfl⟩ := List.cons.inj hsplit
    exact ⟨rfl, hends⟩
  | _ :: _ :: front, hsplit =>
    obtain ⟨_, hsplit⟩ := List.cons.inj hsplit
    obtain ⟨_, hsplit⟩ := List.cons.inj hsplit
    exact absurd hsplit (by simp)

/-- An instruction and the blank line behind it. -/
def blankHunk : Hunk where
  oldRange := ⟨4, some 5⟩
  newRange := ⟨4, some 5⟩
  olds := ["  ret i32 5".toList, []]
  news := ["  ret i32 6".toList, []]
  oneLine := by decide

/-- The blank line hides the instruction. -/
theorem parseDiff_loses_instruction :
    ¬ ∀ (_ : Unicode) (pre post : List Hunk) (h : Hunk), h.command = 'c' → h.Balanced →
      1 ≤ (instructionLines h.olds).length →
      parseDiff (diffText (pre ++ h :: post)) =
        parseDiff (diffText pre) ++ (h.entries ++ parseDiff (diffText post)) := by
  intro hall
  let _ := Unicode.ascii
  have hbalanced : (instructionLines blankHunk.olds).length =
      (instructionLines blankHunk.news).length := by decide +kernel
  have hlost := hall Unicode.ascii [] [] blankHunk (by decide) hbalanced (by decide +kernel)
  rw [parseDiff_diffText, parseDiff_diffText] at hlost
  have hyields : ([] ++ [blankHunk]).flatMap Hunk.yields = [] := by decide +kernel
  have hentries : blankHunk.entries = [("ret i32 5".toList, "5".toList, "6".toList)] := by
    decide +kernel
  rw [List.nil_append] at hyields
  rw [List.nil_append, hyields, hentries] at hlost
  exact absurd hlost (by simp)

end LinuxAnalysis
