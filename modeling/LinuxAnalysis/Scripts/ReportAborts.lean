import LinuxAnalysis.Scripts.ReportModes

/-!
# When the report parser aborts

The parser asserts that the report has a number of functions, which is printed with the statistics only.
It asserts that the ends of an only function are found, which fails where one is printed over several
lines, and it converts the second last part of a location to an integer.
-/

open LinuxAnalysis.Lib

namespace LinuxAnalysis

namespace IrToAssembly

variable [Unicode]

/-! ## Conversion errors -/

/-- Both locations are taken apart without an error. -/
def Convertible (e l : LineReading) : Prop :=
  parseLocation e.location ≠ none ∧ parseLocation l.location ≠ none

theorem isSome_record_iff {function : Text} {e l : LineReading} :
    (LineReading.record function e l).isSome = true ↔ Convertible e l := by
  rw [LineReading.record, record, Convertible]
  cases parseLocation e.location with
  | none => simp
  | some earliest =>
    cases parseLocation l.location with
    | none => simp
    | some latest =>
      simp only [Option.bind_eq_bind, Option.bind_some, ne_eq, reduceCtorEq, not_false_eq_true,
        and_self, iff_true]
      split
      all_goals rfl

/-! ## The report -/

/-- A report with no part of it in the place of another. -/
structure Distinct (r : Report) : Prop where
  displayed : ∀ f ∈ r.functions, Displayed f
  quiet : r.Quiet
  count : ¬announceLabel <:+: beforeCount r
  phrase : ∀ f ∈ r.functions, f.latest ≠ none → ¬sameInstructionPhrase <:+: f.print r.level
  place : ∀ f, r.functions = [f] → InPlace r f
  last : ∀ f, r.functions = [f] → LastLabels r f

/-- A report that is printed line by line, with no part of it in the place of another. -/
structure Legible (r : Report) : Prop where
  shown : ∀ f ∈ r.functions, Shown f
  quiet : r.Quiet
  count : ¬announceLabel <:+: beforeCount r
  phrase : ∀ f ∈ r.functions, f.latest ≠ none → ¬sameInstructionPhrase <:+: f.print r.level
  place : ∀ f, r.functions = [f] → InPlace r f

variable {r : Report}

omit [Unicode] in
theorem Legible.distinct (h : Legible r) : Distinct r := by
  refine ⟨fun f hf => (h.shown f hf).displayed, h.quiet, h.count, h.phrase, h.place, fun f hf => ?_⟩
  have hshown := h.shown f (by rw [hf]; exact List.mem_singleton_self f)
  exact ⟨fun hin => absurd hin (hshown.earliest.text _ (by decide)),
    fun i hi hin => absurd hin ((hshown.latest i hi).text _ (by decide))⟩

omit [Unicode] in
theorem Distinct.content {filepath : Text} (h : Distinct r)
    (htweaks : applyTweaks filepath r.print = r.print) :
    applyTweaks filepath (Str.universalNewlines r.print) = r.print := by
  rw [universalNewlines_print (fun f hf => (h.displayed f hf).ends)
    (fun f hf hmem => absurd ((h.displayed f hf).name _ hmem) (by decide)) h.quiet, htweaks]

theorem Distinct.functionCount (h : Distinct r) :
    functionCount r.print = some (r.functions.length : Int) := by
  rw [functionCount_eq, announced_print_eq h.count, Str.int_str]

/-- The only function must be read, and from both of its lines. -/
theorem Distinct.isSome_single (h : Distinct r) {f : ReportedFunction} (hf : r.functions = [f])
    (function : Text) : (parseSingleFunction r.print function).isSome = true ↔
      HasLocations OnLine r.level f ∧ ∀ e l, ReadsEnds OnLine r.level f e l → Convertible e l := by
  have hshown := h.displayed f (by rw [hf]; exact List.mem_singleton_self f)
  by_cases hread : HasLocations OnLine r.level f
  case neg =>
    rw [parseSingleFunction_eq_none hf hshown (h.place f hf) (h.last f hf) hread]
    exact iff_of_false (by decide) fun hall => hread hall.1
  obtain ⟨e, l, hreads, hparse⟩ := parseSingleFunction_of_read hf hshown (h.place f hf) hread function
  rw [hparse, Option.isSome_map, isSome_record_iff]
  constructor
  · intro hconv
    refine ⟨hread, fun e' l' hreads' => ?_⟩
    obtain ⟨rfl, rfl⟩ := hreads.unique hreads'
    exact hconv
  · exact fun hall => hall.2 e l hreads

/-- Of several functions those are read that have a location in both lines; the others are passed
over. -/
theorem Distinct.isSome_multiple (h : Distinct r) : (parseMultipleFunctions r.print).isSome = true ↔
    ∀ f ∈ r.functions, WordName f → ∀ e l, ReadsEnds BehindBlank r.level f e l → Convertible e l := by
  classical
  have hmatched := finditer_displayed h.displayed h.quiet
  have hblock (f : ReportedFunction) (hf : f ∈ r.functions) (m : Regex.Match)
      (hm : Matched r.level f m) : (blockRecord m).isSome = true ↔
        ∀ e l, ReadsEnds BehindBlank r.level f e l → Convertible e l := by
    obtain ⟨e, l, hreads, hrecord⟩ := blockRecord_eq hm (h.phrase f hf)
    rw [hrecord, isSome_record_iff]
    constructor
    · intro hconv e' l' hreads'
      obtain ⟨rfl, rfl⟩ := hreads.unique hreads'
      exact hconv
    · exact fun hall => hall e l hreads
  rw [parseMultipleFunctions, Option.isSome_map, isSome_mapM_iff]
  constructor
  · intro hall f hf hword e l hreads
    obtain ⟨m, hm, hfm⟩ := forall₂_left hmatched f
      (List.mem_filter.mpr ⟨hf, decide_eq_true ⟨hword, hreads.hasLocations⟩⟩)
    exact (hblock f hf m hfm).mp (hall m hm) e l hreads
  · intro hall m hm
    obtain ⟨f, hf, hfm⟩ := forall₂_right hmatched m hm
    obtain ⟨hf, hread⟩ := List.mem_filter.mp hf
    exact (hblock f hf m hfm).mpr (hall f hf (of_decide_eq_true hread).1)

/-- What is asked of a function: the only one must be read, and whatever is read must be converted. -/
def Parses (functions : List ReportedFunction) (level : Int) (f : ReportedFunction) : Prop :=
  if functions.length = 1 then
    HasLocations OnLine level f ∧ ∀ e l, ReadsEnds OnLine level f e l → Convertible e l
  else WordName f → ∀ e l, ReadsEnds BehindBlank level f e l → Convertible e l

/-- A printed report is parsed without an error when the locations of its functions can be read and
converted. -/
theorem isSome_parse_print (h : Distinct r) {cfg : Config} {verbose : Bool} {trace filepath : Text}
    (htrace : r.trace = configuration cfg verbose ++ trace)
    (htweaks : applyTweaks filepath r.print = r.print) :
    (parseDataflowAnalysisOutputFile filepath r.print).isSome = true ↔
      ∀ f ∈ r.functions, Parses r.functions r.level f := by
  rw [parseDataflowAnalysisOutputFile, h.content htweaks, h.functionCount, Option.bind_some]
  unfold Parses
  by_cases hone : r.functions.length = 1
  · obtain ⟨f, hf⟩ := List.length_eq_one_iff.mp hone
    obtain ⟨m, hm, _⟩ := search_functionRE_print htrace
    rw [if_pos (by rw [hone]; rfl), hm, Option.bind_some, h.isSome_single hf]
    simp only [hone, if_true]
    rw [hf, List.forall_mem_singleton]
  · rw [if_neg fun hcount => hone (by exact_mod_cast hcount), h.isSome_multiple]
    simp only [hone, if_false]

/-- When an end of the only function is printed on several lines with no bracket on the first, as a
switch is, the parser aborts. -/
theorem Distinct.aborts_of_folded (h : Distinct r) {f : ReportedFunction} (hf : r.functions = [f])
    {i : ReportedInst} (hi : f.earliest = i ∨ f.latest = some i) (hbroken : '\n' ∈ i.text)
    (hopen : ∀ before b, i.text.dropWhile Str.isSpace = before ++ '<' :: b → '\n' ∈ before)
    (function : Text) : parseSingleFunction r.print function = none := by
  have hshown := h.displayed f (by rw [hf]; exact List.mem_singleton_self f)
  have hnot (hprinted : Printed i) : ¬HasLocation OnLine (shownLine r.level f.name i) := by
    rw [hprinted.hasLocation_folded_iff hshown.nonempty hshown.name hshown.plain hbroken]
    rintro ⟨before, b, hb, hline, _⟩
    exact hline (hopen before b hb)
  apply parseSingleFunction_eq_none hf hshown (h.place f hf) (h.last f hf)
  intro hread
  rcases hi with rfl | hi
  · exact hnot hshown.ends.earliest hread.earliest
  · exact hnot (hshown.ends.latest i hi) (hread.latest i hi)

/-! ## Locations -/

omit [Unicode] in
/-- A location is split in front of its line when the file name has no colon. -/
theorem rsplitTwice_printedLocation {l : Location} (h : ':' ∉ l.filename) :
    ∃ column, Str.rsplitTwice ':' (printedLocation l) = l.filename :: Str.str l.line :: column := by
  have hnumber (n : Nat) : ':' ∉ Str.str n := not_mem_str (by decide)
  unfold Str.rsplitTwice printedLocation
  by_cases hcolumn : l.column ≠ 0
  · rw [if_pos hcolumn, Str.rsplitOnce_append (hnumber _)]
    dsimp only
    rw [Str.rsplitOnce_append (hnumber _)]
    exact ⟨_, rfl⟩
  · rw [if_neg hcolumn, List.append_nil, Str.rsplitOnce_append (hnumber _)]
    dsimp only
    rw [Str.rsplitOnce_eq_none h]
    exact ⟨_, rfl⟩

/-- What the pass prints between the brackets converts, known or not, with a column or without. -/
theorem parseLocation_bracketed {location : Option Location}
    (h : ∀ l, location = some l → ':' ∉ l.filename) : parseLocation (bracketed location) ≠ none := by
  cases location with
  | none =>
    have h : parseLocation (bracketed none) = some none := rfl
    rw [h]
    exact Option.some_ne_none _
  | some l =>
    obtain ⟨column, hsplit⟩ := rsplitTwice_printedLocation (h l rfl)
    rw [bracketed, parseLocation, hsplit]
    dsimp only
    rw [Str.int_str]
    exact Option.some_ne_none _

/-- A function whose instructions have no bracket and whose files no colon. -/
structure Unmarked (f : ReportedFunction) : Prop where
  earliest : '<' ∉ f.earliest.text
  latest : ∀ i, f.latest = some i → '<' ∉ i.text
  earliestFile : ∀ l, f.earliest.location = some l → ':' ∉ l.filename
  latestFile : ∀ i, f.latest = some i → ∀ l, i.location = some l → ':' ∉ l.filename

theorem Unmarked.convertible {f : ReportedFunction} (h : Unmarked f) (hf : Shown f)
    {B : Text → Prop} (hB : ∀ s : Text, B (s ++ [' '])) {level : Int} {e l : LineReading}
    (hreads : ReadsEnds B level f e l) : Convertible e l := by
  obtain ⟨rfl, rfl⟩ := hreads.of_plain hB hf h.earliest h.latest
  refine ⟨parseLocation_bracketed h.earliestFile, parseLocation_bracketed ?_⟩
  cases hlatest : f.latest with
  | none => exact h.earliestFile
  | some i => exact h.latestFile i hlatest

/-! ## The output of a run -/

/-- Without statistics the parser finds no number of functions. -/
theorem parse_without_statistics {text filepath : Text}
    (htext : applyTweaks filepath (Str.universalNewlines text) = text)
    (hlabel : ¬announceLabel <:+: text) : parseDataflowAnalysisOutputFile filepath text = none := by
  have hcount : functionCount text = none := by
    rw [functionCount_eq, announced_eq_nil hlabel]
    rfl
  rw [parseDataflowAnalysisOutputFile, htext, hcount, Option.bind_none]

variable {M : Module} {cfg : Config} {addr : Value → Nat} {fuel : Nat} {s : PassState}

/-- The output of a run that prints no statistics. -/
theorem parse_output_without_statistics (hrun : run M cfg addr fuel = some s) {verbose : Bool}
    {trace filepath : Text} (hmax : s.maxLevelInstructions = [])
    (hbreaks : '\r' ∉ configuration cfg verbose ++ trace)
    (hlabel : ¬announceLabel <:+: configuration cfg verbose ++ trace)
    (htweaks : applyTweaks filepath (s.output M cfg verbose trace) = s.output M cfg verbose trace) :
    parseDataflowAnalysisOutputFile filepath (s.output M cfg verbose trace) = none := by
  have houtput : s.output M cfg verbose trace = (configuration cfg verbose ++ trace) ++
      Report.heading "Taint Analysis Complete" := by
    rw [run_output hrun, if_neg fun h => h hmax]
  rw [houtput] at htweaks ⊢
  apply parse_without_statistics
  · rw [Str.universalNewlines_eq_self, htweaks]
    rw [List.mem_append, not_or]
    exact ⟨hbreaks, by decide⟩
  · rw [heading_eq, Str.infix_append_cons_iff (by decide)]
    rintro (hin | hin)
    · exact hlabel hin
    · exact absurd (hin.subset (a := 'N') (by decide)) (by decide)

/-- The parser yields a result on the output of a run exactly when statistics are printed, the only
function has a location to be read in both lines, and the locations that are read can be converted. -/
theorem run_parse_isSome_iff (hrun : run M cfg addr fuel = some s) {verbose : Bool}
    {trace filepath : Text} (h : Distinct (s.report M cfg (configuration cfg verbose ++ trace)))
    (htweaks : applyTweaks filepath (s.output M cfg verbose trace) = s.output M cfg verbose trace) :
    (parseDataflowAnalysisOutputFile filepath (s.output M cfg verbose trace)).isSome = true ↔
      s.maxLevelInstructions ≠ [] ∧ ∀ f ∈ s.reportedFunctions M cfg,
        Parses (s.reportedFunctions M cfg) s.maxLevel f := by
  by_cases hmax : s.maxLevelInstructions ≠ []
  · have houtput : s.output M cfg verbose trace =
        (s.report M cfg (configuration cfg verbose ++ trace)).print := by
      rw [run_output hrun, if_pos hmax]
    rw [houtput] at htweaks ⊢
    rw [isSome_parse_print h rfl htweaks]
    exact (and_iff_right hmax).symm
  · have hlabel : ¬announceLabel <:+: configuration cfg verbose ++ trace := by
      refine fun hin => h.count (hin.trans ?_)
      rw [beforeCount, List.append_assoc]
      exact (List.prefix_append _ _).isInfix
    rw [parse_output_without_statistics hrun (not_not.mp hmax) h.quiet.traceBreaks hlabel htweaks]
    constructor
    · intro hsome
      cases hsome
    · exact fun hall => absurd hall.1 hmax

omit [Unicode] in
theorem legible_get (upward : Bool) : Legible (getReport upward) := by
  refine ⟨fun f hf => ?_, quiet_get upward, ?_, fun f hf hlatest => ?_, fun f hf => ?_⟩
  · rw [List.mem_singleton.mp hf]
    exact shown_get upward
  · cases upward with
    | false => decide +kernel
    | true => decide +kernel
  · rw [List.mem_singleton.mp hf] at hlatest
    exact absurd (latest_get upward) hlatest
  · rw [← (List.cons.inj hf).1]
    exact inPlace_get upward

omit [Unicode] in
theorem unmarked_get (upward : Bool) : Unmarked (getFunction upward) := by
  have hnot (i : ReportedInst) : (getFunction upward).latest ≠ some i := by
    rw [latest_get]
    exact (Option.some_ne_none i).symm
  cases upward with
  | false =>
    refine ⟨by decide, fun i hi => absurd hi (hnot i), fun l hl => ?_, fun i hi => absurd hi (hnot i)⟩
    cases hl
    decide
  | true =>
    refine ⟨by decide, fun i hi => absurd hi (hnot i), fun l hl => ?_, fun i hi => absurd hi (hnot i)⟩
    cases hl
    decide

omit [Unicode] in
/-- The report of the caller is parsed, its locations having no column. -/
theorem run_parse_isSome_get : ∃ s, run calledSourceModule (getConfig true) Value.slot 6 = some s ∧
    (@parseDataflowAnalysisOutputFile Unicode.ascii "report.txt".toList
      (s.output calledSourceModule (getConfig true) false [])).isSome = true := by
  let _ := Unicode.ascii
  obtain ⟨s, hs, hreport⟩ := run_getReport true
  have hlegible := legible_get true
  rw [← hreport] at hlegible
  have hfunctions : s.reportedFunctions calledSourceModule (getConfig true) = [getFunction true] :=
    congrArg Report.functions hreport
  refine ⟨s, hs, (run_parse_isSome_iff hs hlegible.distinct rfl).mpr
    ⟨maxLevelInstructions_ne_nil hfunctions, fun f hf => ?_⟩⟩
  have hshown := hlegible.shown f hf
  rw [hfunctions, List.mem_singleton] at hf
  subst hf
  rw [hfunctions, Parses, if_pos (show [getFunction true].length = 1 from rfl)]
  refine ⟨hshown.hasLocations _ fun i hi => hi.onLine, fun e l hreads => ?_⟩
  have hreads := hreads.of_sides (B := Anywhere) hshown fun line b hline hb =>
    iff_of_true (fun hmem => hline (hb.subset hmem)) trivial
  exact (unmarked_get true).convertible hshown (fun _ => trivial) hreads

/-- Nothing is found in a function that the module does not have. -/
def absentConfig : Config := { recursiveConfig with functionName := "absent".toList }

omit [Unicode] in
/-- On the output of a run without a seed the parser aborts. -/
theorem run_parse_aborts : ∃ s, run recursiveModule absentConfig Value.slot 6 = some s ∧
    @parseDataflowAnalysisOutputFile Unicode.ascii "report.txt".toList
      (s.output recursiveModule absentConfig false []) = none := by
  let _ := Unicode.ascii
  have h : (run recursiveModule absentConfig Value.slot 6).map
      (fun s => decide (s.maxLevelInstructions = [])) = some true := by decide
  obtain ⟨s, hs, hmax⟩ := Option.map_eq_some_iff.mp h
  exact ⟨s, hs, parse_output_without_statistics hs (of_decide_eq_true hmax) (by decide +kernel)
    (by decide +kernel) rfl⟩

/-- A switch on a tracked constant. -/
def switchModule : Module :=
  .ofFunctions [
    { name := "pick".toList
      argIsPointerTy := []
      blocks := [[
        { kind := .other "add".toList [.constantInt 32 5, .constantInt 32 3] []
          text := "  %1 = add i32 5, 3".toList
          debugLoc := some ⟨"a.c".toList, 3, 0⟩ },
        { kind := .other "switch".toList [.inst ⟨0, 0, 0⟩] []
          text := "  switch i32 %1, label %3 [\n    i32 8, label %2\n  ]".toList
          debugLoc := some ⟨"a.c".toList, 4, 0⟩ }]] }] id

def switchConfig : Config := { recursiveConfig with functionName := "pick".toList }

def switchFunction : ReportedFunction :=
  ⟨"pick".toList, ⟨"  %1 = add i32 5, 3".toList, some ⟨"a.c".toList, 3, 0, false⟩⟩,
    some ⟨"  switch i32 %1, label %3 [\n    i32 8, label %2\n  ]".toList, some ⟨"a.c".toList, 4, 0, false⟩⟩⟩

def switchReport : Report where
  trace := configuration switchConfig false
  level := 0
  instructions := 2
  arguments := 0
  breakdown := [("pick".toList, 2)]
  functions := [switchFunction]
  spanInstructions := 2
  otherInstructions := 0
  otherVisited := 0
  spans := [("pick".toList, 0, 0, 0, 1)]
  otherNames := []

omit [Unicode] in
theorem distinct_switch : Distinct switchReport := by
  have hends : PrintedEnds switchFunction := by
    refine ⟨⟨by decide, fun l hl => by cases hl; decide, fun h => absurd h (by decide)⟩, fun i hi => ?_⟩
    cases hi
    exact ⟨by decide, fun l hl => by cases hl; decide, fun _ => ⟨by decide, nofun, by decide, by decide⟩⟩
  have hshown : Displayed switchFunction := ⟨by decide, by decide, by decide, hends⟩
  have hquiet : switchReport.Quiet := ⟨by decide +kernel, by decide +kernel, by decide +kernel⟩
  refine ⟨fun f hf => ?_, hquiet, by decide +kernel, fun f hf _ => ?_, fun f hf => ?_, fun f hf => ?_⟩
  · rw [List.mem_singleton.mp hf]
    exact hshown
  · rw [List.mem_singleton.mp hf]
    decide +kernel
  · rw [← (List.cons.inj hf).1]
    exact ⟨by decide +kernel, fun _ => by decide +kernel, fun _ => by decide +kernel⟩
  · rw [← (List.cons.inj hf).1]
    refine ⟨fun h => absurd h (by decide), fun i hi _ => ?_⟩
    cases hi
    decide +kernel

/-- The record of a function that ends in a switch is not read. -/
example (function : Text) : ∃ s, run switchModule switchConfig Value.slot 6 = some s ∧
    parseSingleFunction (s.output switchModule switchConfig false []) function = none := by
  have h : (run switchModule switchConfig Value.slot 6).map (fun s =>
      decide (s.report switchModule switchConfig (configuration switchConfig false ++ []) =
        switchReport)) = some true := by decide +kernel
  obtain ⟨s, hs, hreport⟩ := Option.map_eq_some_iff.mp h
  have hreport := of_decide_eq_true hreport
  refine ⟨s, hs, ?_⟩
  have houtput : s.output switchModule switchConfig false [] = switchReport.print := by
    rw [run_output hs, if_pos (maxLevelInstructions_ne_nil (congrArg Report.functions hreport)), hreport]
  rw [houtput]
  refine distinct_switch.aborts_of_folded rfl (.inr rfl) (by decide) (fun before b hb => ?_) function
  have hnone : '<' ∉ "switch i32 %1, label %3 [\n    i32 8, label %2\n  ]".toList := by decide
  refine absurd ?_ hnone
  rw [show "switch i32 %1, label %3 [\n    i32 8, label %2\n  ]".toList = before ++ '<' :: b from hb]
  simp

end IrToAssembly

end LinuxAnalysis
