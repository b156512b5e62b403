import LinuxAnalysis.Lib.Regex
import LinuxAnalysis.Pass.Occurrence

/-!
# locate-const-in-ir.py and the pass

The script numbers the lines of a function that agree with the instruction up to register names and
debug locations.  The pass numbers pairs of an instruction and an operand.
-/

open LinuxAnalysis.Lib

namespace LinuxAnalysis

/-! ## The script -/

section Locate

variable [Unicode]

/-- `[a-zA-Z0-9_.]` -/
def isNameChar (c : Char) : Bool := c.isAlphanum || c == '_' || c == '.'

/-- `_FUNC_RE` -/
def funcRE : Regex :=
  .cat [.lit "define".toList, .plus true Regex.space, .star true (· != '@'), .lit ['@'],
    .group 1 (.plus true isNameChar), .star true Regex.space, .lit ['(']]

def ssaResultRE : Regex :=
  .cat [.textStart, .star true Regex.space, .lit ['%'], .plus true Regex.digit,
    .star true Regex.space, .lit ['='], .star true Regex.space]

def trailingDbgRE : Regex :=
  .cat [.opt (.lit [',']), .star true Regex.space, .lit "!dbg ".toList, .star true Regex.dot,
    .textEnd]

def registerRE : Regex := .cat [.lit ['%'], .plus true Regex.digit]

/-- `_normalize_ir` -/
def normalizeIR (s : Text) : Text :=
  let s := Regex.sub ssaResultRE [] s
  let s := Regex.sub trailingDbgRE [] s
  let s := Regex.sub registerRE "%X".toList s
  Str.strip s

structure LocateState where
  current : Option Text
  countInFn : Nat
  foundFn : Option Text
  foundIdx : Nat

/-- One turn of the loop of `locate`; `line` comes without its newline. -/
def locateLine (exact body : Text) (s : LocateState) (line : Text) : LocateState :=
  match funcRE.search line with
  | some m => { s with current := m.group 1, countInFn := 0 }
  | none =>
    if Str.startswith line ['}'] then { s with current := none }
    else if normalizeIR line = body then
      let countInFn := s.countInFn + 1
      if Str.strip line = exact ∧ s.foundFn = none then
        { s with countInFn := countInFn, foundFn := s.current, foundIdx := countInFn }
      else { s with countInFn := countInFn }
    else s

def locateLines (lines : List Text) (instruction : Text) : LocateState :=
  lines.foldl (locateLine (Str.strip instruction) (normalizeIR instruction)) ⟨none, 0, none, 0⟩

def locate (lines : List Text) (instruction : Text) : Option Text × Nat :=
  let s := locateLines lines instruction
  (s.foundFn, if s.foundIdx ≠ 0 then s.foundIdx else 1)

/-- The line is counted: inside the function, with the same normalized text. -/
def isSameNormalized (instruction line : Text) : Bool :=
  !Str.startswith line ['}'] && decide (normalizeIR line = normalizeIR instruction)

/-- The lines counted after the last line that opens a function. -/
def sameNormalizedBefore (instruction : Text) (pre : List Text) : Nat :=
  (pre.reverse.takeWhile fun line => (funcRE.search line).isNone).countP
    (isSameNormalized instruction)

/-! ## What is read and what is found -/

/-- The name that a line defines as it is read. -/
def headerName (line : Text) : Option Text := (funcRE.search line).bind fun m => m.group 1

def opensOrCloses (line : Text) : Bool := (funcRE.search line).isSome || Str.startswith line ['}']

/-- The function in which the line behind some lines is read. -/
def readFunction (lines : List Text) : Option Text :=
  (lines.reverse.find? opensOrCloses).bind headerName

/-- The line passes for the instruction wherever it is read inside a function. -/
structure PassesFor (instruction line : Text) : Prop where
  quiet : opensOrCloses line = false
  normalized : normalizeIR line = normalizeIR instruction
  text : Str.strip line = Str.strip instruction

/-- No line is found. -/
def NoneFound (instruction : Text) (lines : List Text) : Prop :=
  ∀ front line back, lines = front ++ line :: back → PassesFor instruction line →
    readFunction front = none

/-- The first line that passes is read in `f`, the `k`th of its kind there. -/
def FirstFound (instruction : Text) (lines : List Text) (f : Text) (k : Nat) : Prop :=
  ∃ front line back, lines = front ++ line :: back ∧ PassesFor instruction line ∧
    readFunction front = some f ∧ k = sameNormalizedBefore instruction front + 1 ∧
    NoneFound instruction front

omit [Unicode] in
/-- The function after a line. -/
theorem readFunction_concat (lines : List Text) (line : Text) :
    readFunction (lines ++ [line]) =
      if opensOrCloses line then headerName line else readFunction lines := by
  rw [readFunction, List.reverse_concat, List.find?_cons]
  cases opensOrCloses line <;> rfl

theorem sameNormalizedBefore_concat (instruction : Text) (lines : List Text) (line : Text) :
    sameNormalizedBefore instruction (lines ++ [line]) =
      if (funcRE.search line).isSome then 0
      else sameNormalizedBefore instruction lines +
        if isSameNormalized instruction line then 1 else 0 := by
  rw [sameNormalizedBefore, List.reverse_concat]
  cases hheader : funcRE.search line with
  | some m =>
    rw [List.takeWhile_cons_of_neg (by simp [hheader])]
    rfl
  | none =>
    rw [List.takeWhile_cons_of_pos (by simp [hheader]), List.countP_cons, ← sameNormalizedBefore]
    rfl

/-- The function and the counter after a line. -/
theorem locateLine_reads (instruction : Text) (s : LocateState) (line : Text) :
    (locateLine (Str.strip instruction) (normalizeIR instruction) s line).current =
        (if opensOrCloses line then headerName line else s.current) ∧
      (locateLine (Str.strip instruction) (normalizeIR instruction) s line).countInFn =
        if (funcRE.search line).isSome then 0
        else s.countInFn + if isSameNormalized instruction line then 1 else 0 := by
  unfold locateLine opensOrCloses headerName isSameNormalized
  cases funcRE.search line with
  | some m => exact ⟨rfl, rfl⟩
  | none =>
    cases Str.startswith line ['}'] with
    | true => exact ⟨rfl, rfl⟩
    | false =>
      by_cases hsame : normalizeIR line = normalizeIR instruction
      · by_cases hfound : Str.strip line = Str.strip instruction ∧ s.foundFn = none
        · simp [hsame, hfound]
        · simp [hsame, hfound]
      · simp [hsame]

/-- The first line that passes is kept. -/
theorem locateLine_of_passes {instruction line : Text} {s : LocateState}
    (h : PassesFor instruction line) (hnone : s.foundFn = none) :
    (locateLine (Str.strip instruction) (normalizeIR instruction) s line).foundFn = s.current ∧
      (locateLine (Str.strip instruction) (normalizeIR instruction) s line).foundIdx =
        s.countInFn + 1 := by
  obtain ⟨hheader, hclose⟩ := Bool.or_eq_false_iff.mp h.quiet
  unfold locateLine
  rw [Option.isSome_eq_false_iff, Option.isNone_iff_eq_none] at hheader
  rw [hheader, hclose]
  dsimp only
  rw [if_neg Bool.false_ne_true, if_pos h.normalized, if_pos ⟨h.text, hnone⟩]
  exact ⟨rfl, rfl⟩

theorem locateLine_of_not_passes {instruction line : Text} {s : LocateState}
    (h : ¬ (PassesFor instruction line ∧ s.foundFn = none)) :
    (locateLine (Str.strip instruction) (normalizeIR instruction) s line).foundFn = s.foundFn ∧
      (locateLine (Str.strip instruction) (normalizeIR instruction) s line).foundIdx =
        s.foundIdx := by
  unfold locateLine
  cases hheader : funcRE.search line with
  | some m => exact ⟨rfl, rfl⟩
  | none =>
    cases hclose : Str.startswith line ['}'] with
    | true => exact ⟨rfl, rfl⟩
    | false =>
      dsimp only
      rw [if_neg Bool.false_ne_true]
      by_cases hsame : normalizeIR line = normalizeIR instruction
      · rw [if_pos hsame, if_neg]
        · exact ⟨rfl, rfl⟩
        · rintro ⟨htext, hnone⟩
          exact h ⟨⟨by rw [opensOrCloses, hheader, hclose]; rfl, hsame, htext⟩, hnone⟩
      · rw [if_neg hsame]
        exact ⟨rfl, rfl⟩

theorem locateLines_concat (instruction : Text) (lines : List Text) (line : Text) :
    locateLines (lines ++ [line]) instruction =
      locateLine (Str.strip instruction) (normalizeIR instruction) (locateLines lines instruction)
        line := by
  rw [locateLines, List.foldl_concat]
  rfl

/-- The function and the counter follow what is read. -/
theorem locateLines_reads (instruction : Text) (lines : List Text) :
    (locateLines lines instruction).current = readFunction lines ∧
      (locateLines lines instruction).countInFn = sameNormalizedBefore instruction lines := by
  induction lines using List.reverseRecOn with
  | nil => exact ⟨rfl, rfl⟩
  | append_singleton lines line ih =>
    obtain ⟨hcurrent, hcount⟩ := locateLine_reads instruction (locateLines lines instruction) line
    rw [locateLines_concat, hcurrent, hcount, ih.1, ih.2, readFunction_concat,
      sameNormalizedBefore_concat]
    exact ⟨rfl, rfl⟩

theorem NoneFound.concat {instruction : Text} {lines : List Text} {line : Text}
    (h : NoneFound instruction lines) (hline : PassesFor instruction line → readFunction lines = none) :
    NoneFound instruction (lines ++ [line]) := by
  intro front l back hsplit hpasses
  rcases List.eq_nil_or_concat back with rfl | ⟨back, l', rfl⟩
  · obtain ⟨rfl, hl⟩ := List.append_inj' hsplit rfl
    obtain rfl := List.singleton_inj.mp hl
    exact hline hpasses
  · rw [List.concat_eq_append, ← List.cons_append, ← List.append_assoc] at hsplit
    obtain ⟨rfl, _⟩ := List.append_inj' hsplit rfl
    exact h front l back rfl hpasses

/-- What is found in some lines. -/
theorem locateLines_finds (instruction : Text) (lines : List Text) :
    ((locateLines lines instruction).foundFn = none ∧ NoneFound instruction lines) ∨
      ∃ f, (locateLines lines instruction).foundFn = some f ∧
        FirstFound instruction lines f (locateLines lines instruction).foundIdx := by
  induction lines using List.reverseRecOn with
  | nil => exact .inl ⟨rfl, fun front line back hsplit => by simp at hsplit⟩
  | append_singleton lines line ih =>
    obtain ⟨hcurrent, hcount⟩ := locateLines_reads instruction lines
    rw [locateLines_concat]
    rcases ih with ⟨hnone, hlines⟩ | ⟨f, hfound, front, l, back, rfl, hpasses, hread, hidx, hfront⟩
    · by_cases hline : PassesFor instruction line
      · obtain ⟨hfn, hidx⟩ := locateLine_of_passes hline hnone
        rw [hfn, hidx, hcurrent, hcount]
        cases hread : readFunction lines with
        | none => exact .inl ⟨rfl, hlines.concat fun _ => hread⟩
        | some f => exact .inr ⟨f, rfl, lines, line, [], rfl, hline, hread, rfl, hlines⟩
      · obtain ⟨hfn, _⟩ := locateLine_of_not_passes (s := locateLines lines instruction)
          fun h : PassesFor instruction line ∧ _ => hline h.1
        rw [hfn]
        exact .inl ⟨hnone, hlines.concat fun h => absurd h hline⟩
    · obtain ⟨hfn, hsame⟩ := locateLine_of_not_passes
        (s := locateLines (front ++ l :: back) instruction)
        fun h : PassesFor instruction line ∧ _ => by
          rw [hfound] at h
          cases h.2
      rw [hfn, hsame]
      refine .inr ⟨f, hfound, front, l, back ++ [line], ?_, hpasses, hread, hidx, hfront⟩
      rw [List.append_assoc, List.cons_append]

/-- What `locate` returns. -/
theorem locate_eq_some_iff {lines : List Text} {instruction f : Text} {k : Nat} :
    locate lines instruction = (some f, k) ↔ FirstFound instruction lines f k := by
  have hpos {g : Text} {n : Nat} (h : FirstFound instruction lines g n) : n ≠ 0 := by
    obtain ⟨_, _, _, _, _, _, rfl, _⟩ := h
    exact Nat.succ_ne_zero _
  rw [locate]
  rcases locateLines_finds instruction lines with ⟨hnone, hlines⟩ | ⟨g, hfound, hfirst⟩
  · rw [hnone]
    refine iff_of_false (fun h => by cases (Prod.mk.inj h).1) ?_
    rintro ⟨front, line, back, hsplit, hpasses, hread, _⟩
    rw [hlines front line back hsplit hpasses] at hread
    cases hread
  · rw [hfound, if_pos (hpos hfirst)]
    constructor
    · intro h
      obtain ⟨hf, hk⟩ := Prod.mk.inj h
      rw [← Option.some.inj hf, ← hk]
      exact hfirst
    · -- of two lines that are found first one stands before the other
      rintro ⟨front, line, back, hsplit, hpasses, hread, hk, hnone⟩
      obtain ⟨front', line', back', hsplit', hpasses', hread', hidx, hnone'⟩ := hfirst
      rcases eq_or_mem_of_append_eq (hsplit.symm.trans hsplit') with
        ⟨rfl, _, _⟩ | ⟨middle, hfront, _⟩ | ⟨middle, hfront, _⟩
      · rw [hread] at hread'
        rw [hidx, hk, hread']
      · rw [hnone' front line middle hfront hpasses] at hread
        cases hread
      · rw [hnone front' line' middle hfront hpasses'] at hread'
        cases hread'

/-- A line of unique text that is located has as its number one more than the lines counted before it. -/
theorem locate_eq_some {pre post : List Text} {line instruction f : Text} {k : Nat}
    (hline : Str.strip line = Str.strip instruction)
    (hunique : ∀ l ∈ pre ++ post, Str.strip l ≠ Str.strip line)
    (h : locate (pre ++ line :: post) instruction = (some f, k)) :
    k = sameNormalizedBefore instruction pre + 1 := by
  obtain ⟨front, l, back, hsplit, hpasses, _, hk, _⟩ := locate_eq_some_iff.mp h
  have htext : Str.strip l = Str.strip line := hpasses.text.trans hline.symm
  rcases eq_or_mem_of_append_eq hsplit with ⟨rfl, _, _⟩ | ⟨middle, _, hpost⟩ | ⟨middle, hpre, _⟩
  · exact hk
  · exact absurd htext (hunique l (by rw [hpost]; simp))
  · exact absurd htext (hunique l (by rw [hpre]; simp))

end Locate

/-! ## The file and the module -/

/-- A line of a textual module; `inst` is the instruction that starts on it. -/
structure LLLine where
  text : Text
  inst : Option InstId

/-- A textual module with the module it is read as. -/
structure LLFile where
  module : Module
  lines : List LLLine
  insts_eq : lines.filterMap LLLine.inst = module.insts
  text_eq : ∀ line ∈ lines, ∀ i, line.inst = some i →
    Str.strip line.text = Str.strip ((module.inst i).text.takeWhile (· != '\n'))

namespace LLFile

def texts (file : LLFile) : List Text := file.lines.map LLLine.text

theorem inst_mem {file : LLFile} {line : LLLine} {i : InstId} (hline : line ∈ file.lines)
    (hi : line.inst = some i) : i ∈ file.module.insts := by
  rw [← file.insts_eq]
  exact List.mem_filterMap.mpr ⟨line, hline, hi⟩

end LLFile

/-- **Numbering by lines and numbering by pairs.**  The pass, given what `locate` returns for a line of
unique text, seeds exactly the instruction of that line if and only if the number of equal lines before
it reaches the number of pairs before it and stays below that number plus its own pairs. -/
theorem locate_seeds_iff [Unicode] (file : LLFile) (pre post : List LLLine) (line : LLLine)
    (i : InstId) (instruction : Text) (cfg : Config) (hlines : file.lines = pre ++ line :: post)
    (hi : line.inst = some i) (hline : Str.strip line.text = Str.strip instruction)
    (hunique : ∀ l ∈ pre ++ post, Str.strip l.text ≠ Str.strip line.text)
    (hfunction : cfg.functionName = file.module.functionName i.func)
    (hopcode : cfg.targetOpcode = (file.module.kind i).getOpcodeName)
    (hlocate : locate file.texts instruction = (some cfg.functionName, cfg.occurrenceIndex)) :
    (∀ j, .inst j ∈ (seedWorklist file.module cfg).taintedValues ↔ j = i) ↔
      pairsBefore file.module cfg i ≤ sameNormalizedBefore instruction (pre.map LLLine.text) ∧
        sameNormalizedBefore instruction (pre.map LLLine.text) <
          pairsBefore file.module cfg i + pairsIn file.module cfg i := by
  have hindex : cfg.occurrenceIndex =
      sameNormalizedBefore instruction (pre.map LLLine.text) + 1 := by
    rw [LLFile.texts, hlines, List.map_append, List.map_cons] at hlocate
    refine locate_eq_some hline (fun l hl => ?_) hlocate
    rw [← List.map_append] at hl
    obtain ⟨l, hmem, rfl⟩ := List.mem_map.mp hl
    exact hunique l hmem
  have hcandidate : i ∈ seedCandidates file.module cfg := by
    refine List.mem_filter.mpr ⟨LLFile.inst_mem (by rw [hlines]; simp) hi, ?_⟩
    simp [opcodeSelected, hfunction, hopcode]
  rw [seeds_iff_index (by omega) hcandidate, hindex]
  omega

/-- Two additions of the same constant, the second one with a flag. -/
def addsModule : Module :=
  .ofFunctions [{
    name := "f".toList
    argIsPointerTy := [false]
    blocks := [[
      { kind := .other "add".toList [.arg ⟨0, 0⟩, .constantInt 32 5] []
        text := "  %2 = add i32 %0, 5".toList },
      { kind := .other "add".toList [.inst ⟨0, 0, 0⟩, .constantInt 32 5] []
        text := "  %3 = add nsw i32 %2, 5".toList },
      { kind := .ret (some (.inst ⟨0, 0, 1⟩))
        text := "  ret i32 %3".toList }]] }] id

def addsFile : LLFile where
  module := addsModule
  lines := [
    ⟨"define i32 @f(i32 %0) \x7b".toList, none⟩,
    ⟨"  %2 = add i32 %0, 5".toList, some ⟨0, 0, 0⟩⟩,
    ⟨"  %3 = add nsw i32 %2, 5".toList, some ⟨0, 0, 1⟩⟩,
    ⟨"  ret i32 %3".toList, some ⟨0, 0, 2⟩⟩,
    ⟨"\x7d".toList, none⟩]
  insts_eq := by decide
  text_eq := by decide

def addsConfig : Config where
  functionName := "f".toList
  targetOpcode := "add".toList
  constantToTrack := 5
  interprocMode := false
  indirectCallMode := false
  upwardInterprocMode := false
  occurrenceIndex := 1
  approxDebugInfo := false

theorem locate_seeds_iff_addsFile :
    (∀ j, .inst j ∈ (seedWorklist addsModule addsConfig).taintedValues ↔ j = ⟨0, 0, 0⟩) ∧
      pairsBefore addsModule addsConfig ⟨0, 0, 0⟩ = 0 ∧
      pairsIn addsModule addsConfig ⟨0, 0, 0⟩ = 1 := by
  refine ⟨?_, by decide, by decide⟩
  let _ := Unicode.ascii
  exact (locate_seeds_iff addsFile (addsFile.lines.take 1) (addsFile.lines.drop 2)
    ⟨"  %2 = add i32 %0, 5".toList, some ⟨0, 0, 0⟩⟩ ⟨0, 0, 0⟩ "%2 = add i32 %0, 5".toList addsConfig
    rfl rfl (by decide) (by decide) rfl rfl (by decide)).mpr (by decide)

/-- The flag makes the second addition the first line of its kind, and the pass seeds the first. -/
theorem locate_numbers_other_instruction :
    ¬ ∀ (_ : Unicode) (file : LLFile) (pre post : List LLLine) (line : LLLine) (i : InstId)
      (instruction : Text) (cfg : Config) (type : Nat), file.lines = pre ++ line :: post →
      line.inst = some i → Str.strip line.text = Str.strip instruction →
      (∀ l ∈ pre ++ post, Str.strip l.text ≠ Str.strip line.text) →
      cfg.functionName = file.module.functionName i.func →
      cfg.targetOpcode = (file.module.kind i).getOpcodeName →
      .constantInt type cfg.constantToTrack ∈ file.module.operands i →
      locate file.texts instruction = (some cfg.functionName, cfg.occurrenceIndex) →
      ∀ j, .inst j ∈ (seedWorklist file.module cfg).taintedValues ↔ j = i := by
  intro hall
  have hseeded := (hall Unicode.ascii addsFile (addsFile.lines.take 2) (addsFile.lines.drop 3)
    ⟨"  %3 = add nsw i32 %2, 5".toList, some ⟨0, 0, 1⟩⟩ ⟨0, 0, 1⟩
    "%3 = add nsw i32 %2, 5".toList addsConfig 32 rfl rfl (by decide) (by decide) rfl rfl
    (by decide) (by decide) ⟨0, 0, 1⟩).mpr rfl
  exact absurd hseeded (by decide)

end LinuxAnalysis
