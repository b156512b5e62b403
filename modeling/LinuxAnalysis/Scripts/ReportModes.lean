import LinuxAnalysis.Scripts.ReportSingle

/-!
# The two parsers of a report with one function

The single-function parser takes the name from the configuration and the locations from the first
brackets of the two lines. The block parser takes the name from the block, and a bracket counts only
behind white space.
-/

open LinuxAnalysis.Lib

namespace LinuxAnalysis

namespace IrToAssembly

variable [Unicode]

/-! ## Records -/

/-- The function, the file and the line that a record takes from a line. -/
def LineReading.place (x : LineReading) : Option (Text × Text × Int) :=
  ((parseLocation x.location).bind usable).map fun p => (x.func, p)

/-- The places of both ends, unless one of them has none. -/
def placesRead (e l : LineReading) : Option ((Text × Text × Int) × (Text × Text × Int)) :=
  e.place.bind fun a => l.place.map fun b => (a, b)

/-- The record of a function with the two places. -/
def recordOf (function : Text) (p : (Text × Text × Int) × (Text × Text × Int)) : ParsedResult :=
  ⟨function, p.1.1, p.2.1, p.1.2.1, p.1.2.2, p.2.2.1, p.2.2.2⟩

theorem place_eq_some_iff {x : LineReading} {func file : Text} {line : Int} :
    x.place = some (func, file, line) ↔
      x.func = func ∧ parseLocation x.location = some (some (file, line)) ∧ file ≠ [] ∧ line ≠ 0 := by
  simp only [LineReading.place, Option.map_eq_some_iff, Option.bind_eq_some_iff, Prod.mk.injEq,
    usable_eq_some_iff, Prod.exists]
  constructor
  · rintro ⟨_, _, ⟨_, hparse, rfl, hfile, hline⟩, hfunc, rfl, rfl⟩
    exact ⟨hfunc, hparse, hfile, hline⟩
  · rintro ⟨hfunc, hparse, hfile, hline⟩
    exact ⟨file, line, ⟨_, hparse, rfl, hfile, hline⟩, hfunc, rfl, rfl⟩

theorem lineRecord_eq_some_iff {function : Text} {e l : LineReading} {rec : ParsedResult} :
    LineReading.record function e l = some (.ok rec) ↔
      ∃ p, placesRead e l = some p ∧ rec = recordOf function p := by
  rw [LineReading.record, record_eq_some_iff]
  simp only [placesRead, Option.bind_eq_some_iff, Option.map_eq_some_iff, Prod.exists,
    place_eq_some_iff, Prod.mk.injEq]
  constructor
  · rintro ⟨file₁, line₁, file₂, line₂, hp₁, hf₁, hl₁, hp₂, hf₂, hl₂, rfl⟩
    exact ⟨e.func, file₁, line₁, l.func, file₂, line₂, ⟨e.func, file₁, line₁, ⟨rfl, hp₁, hf₁, hl₁⟩,
      l.func, file₂, line₂, ⟨rfl, hp₂, hf₂, hl₂⟩, ⟨rfl, rfl, rfl⟩, rfl, rfl, rfl⟩, rfl⟩
  · rintro ⟨_, _, _, _, _, _, ⟨_, file₁, line₁, ⟨rfl, hp₁, hf₁, hl₁⟩, _, file₂, line₂,
      ⟨rfl, hp₂, hf₂, hl₂⟩, ⟨rfl, rfl, rfl⟩, rfl, rfl, rfl⟩, rfl⟩
    exact ⟨file₁, line₁, file₂, line₂, hp₁, hf₁, hl₁, hp₂, hf₂, hl₂, rfl⟩

/-! ## The two parsers -/

/-- What the file parser does with a report that announces one function. -/
def ParsesSingle (content : Text) (rec : ParsedResult) : Prop :=
  ∃ m, Regex.search functionRE content = some m ∧
    parseSingleFunction content (groupText m 1) = some (.single rec)

/-- The blocks give this record and no other entry. -/
def ParsesBlock (content : Text) (rec : ParsedResult) : Prop :=
  parseMultipleFunctions content = some (.multiple [.ok rec])

/-- The parsers agree on the record. -/
def SameRecord (content : Text) : Prop := ∀ rec, ParsesSingle content rec ↔ ParsesBlock content rec

/-- The record of a matched block, the phrase of a block of one instruction not standing in another. -/
theorem blockRecord_eq {level : Int} {f : ReportedFunction} {m : Regex.Match} (hm : Matched level f m)
    (hphrase : f.latest ≠ none → ¬sameInstructionPhrase <:+: f.print level) :
    ∃ e l, ReadsEnds BehindBlank level f e l ∧ blockRecord m = LineReading.record f.name e l := by
  obtain ⟨rest, hblock⟩ := hm
  obtain ⟨before, loc, func, hreads, hloc, hfunc⟩ := hblock.earliest
  have hgroup {n : Nat} {x : Text} (h : m.stop.groups.lookup n = some x) : groupText m n = x := by
    rw [groupText, Regex.Match.group, h]
    rfl
  cases hlatest : f.latest with
  -- one instruction: the groups of the earliest line serve for both ends
  | none =>
    refine ⟨⟨loc, func⟩, ⟨loc, func⟩, ⟨⟨before, hreads⟩, fun _ => rfl, fun i hi => ?_⟩, ?_⟩
    · rw [hlatest] at hi
      cases hi
    · rw [blockRecord, if_pos (Str.contains_iff_infix.mpr (hblock.single hlatest)),
        hgroup hblock.name, hgroup hloc, hgroup hfunc]
      rfl
  | some i =>
    have hsome : f.latest ≠ none := fun h => by rw [hlatest] at h; cases h
    obtain ⟨before', loc', func', hreads', hloc', hfunc', _⟩ := hblock.latest i hlatest
    -- the block is part of what was printed, so the phrase is not in it
    have hnot : ¬sameInstructionPhrase <:+: m.text := by
      refine fun h => hphrase hsome (h.trans ?_)
      rw [ReportedFunction.print_eq, hblock.split]
      exact (List.prefix_append _ _).isInfix.trans (List.suffix_cons _ _).isInfix
    refine ⟨⟨loc, func⟩, ⟨loc', func'⟩, ⟨⟨before, hreads⟩, fun h => absurd h hsome,
      fun i' hi' => ?_⟩, ?_⟩
    · obtain rfl := Option.some.inj (hlatest.symm.trans hi')
      exact ⟨before', hreads'⟩
    · rw [blockRecord, if_neg (fun h => hnot (Str.contains_iff_infix.mp h)), hgroup hblock.name,
        hgroup hloc, hgroup hfunc, hgroup hloc', hgroup hfunc']
      rfl

/-- On one line the brackets behind white space are the ones that count. -/
theorem blockRecord_shown {level : Int} {f : ReportedFunction} {m : Regex.Match} (hm : Matched level f m)
    (hf : Shown f) (hphrase : f.latest ≠ none → ¬sameInstructionPhrase <:+: f.print level) :
    ∃ e l, ReadsEnds EndsBlank level f e l ∧ blockRecord m = LineReading.record f.name e l := by
  obtain ⟨e, l, hreads, hrecord⟩ := blockRecord_eq hm hphrase
  exact ⟨e, l, hreads.of_sides hf fun _ _ hline hb => behindBlank_iff hline hb, hrecord⟩

/-- A report of one function whose name consists of word characters, with nothing around it that could
be taken for a part of its block. -/
structure SingleReport (r : Report) (f : ReportedFunction) : Prop where
  only : r.functions = [f]
  word : WordName f
  shown : Shown f
  quiet : r.Quiet
  place : InPlace r f

variable {r : Report} {f : ReportedFunction}

theorem parsesBlock_iff (h : SingleReport r f) :
    ∃ e l, ReadsEnds EndsBlank r.level f e l ∧ ∀ rec, ParsesBlock r.print rec ↔
      LineReading.record f.name e l = some (.ok rec) := by
  -- one function, one match
  have hmatched := finditer_print (r := r) (fun g hg => by
    rw [h.only, List.mem_singleton] at hg
    rw [hg]
    exact h.shown) h.quiet
  have hall : ([f].filter fun g => decide (WordName g)) = [f] := by
    rw [List.filter_eq_self]
    intro g hg
    rw [List.mem_singleton.mp hg]
    exact decide_eq_true h.word
  rw [h.only, hall] at hmatched
  obtain ⟨m, ms, hm, hnil, heq⟩ := List.forall₂_cons_left_iff.mp hmatched
  obtain rfl := List.forall₂_nil_left_iff.mp hnil
  obtain ⟨e, l, hreads, hrecord⟩ := blockRecord_shown hm h.shown fun hsome hphrase => by
    refine h.place.phrase hsome (hphrase.trans ?_)
    rw [Report.print, h.only, List.flatMap_singleton, List.append_assoc, List.append_assoc]
    exact (List.prefix_append _ _).isInfix.trans (List.suffix_append _ _).isInfix
  refine ⟨e, l, hreads, fun rec => ?_⟩
  have hparse : parseMultipleFunctions r.print =
      (blockRecord m).map fun entry => .multiple [entry] := by
    rw [parseMultipleFunctions, heq, List.mapM_cons, List.mapM_nil]
    cases blockRecord m with
    | none => rfl
    | some entry => rfl
  rw [ParsesBlock, hparse, hrecord, Option.map_eq_some_iff]
  constructor
  · rintro ⟨entry, hentry, hmultiple⟩
    cases hmultiple
    exact hentry
  · exact fun h => ⟨.ok rec, h, rfl⟩

theorem parsesSingle_iff (h : SingleReport r f) {m : Regex.Match}
    (hm : Regex.search functionRE r.print = some m) :
    ∃ e l, ReadsEnds Anywhere r.level f e l ∧ ∀ rec, ParsesSingle r.print rec ↔
      LineReading.record (groupText m 1) e l = some (.ok rec) := by
  obtain ⟨e, l, hreads, hparse⟩ := parseSingleFunction_print h.only h.shown h.place
    (groupText m 1)
  refine ⟨e, l, hreads, fun rec => ?_⟩
  rw [ParsesSingle, hm]
  simp only [Option.some.injEq, exists_eq_left', hparse, Option.map_eq_some_iff]
  constructor
  · rintro ⟨entry, hentry, hsingle⟩
    cases entry with
    | ok rec' =>
      cases hsingle
      exact hentry
    | error message => cases hsingle
  · exact fun h => ⟨.ok rec, h, rfl⟩

/-- Two functions yield the same record when they have one name and their lines the same places. -/
theorem records_agree_iff {n₁ n₂ : Text} {e₁ l₁ e₂ l₂ : LineReading} :
    (∀ rec, LineReading.record n₁ e₁ l₁ = some (.ok rec) ↔
      LineReading.record n₂ e₂ l₂ = some (.ok rec)) ↔
    placesRead e₁ l₁ = placesRead e₂ l₂ ∧ (placesRead e₂ l₂ ≠ none → n₁ = n₂) := by
  simp only [lineRecord_eq_some_iff]
  constructor
  · intro h
    cases h₂ : placesRead e₂ l₂ with
    | none =>
      refine ⟨?_, fun hne => absurd rfl hne⟩
      cases h₁ : placesRead e₁ l₁ with
      | none => rfl
      | some p =>
        obtain ⟨q, hq, _⟩ := (h (recordOf n₁ p)).mp ⟨p, h₁, rfl⟩
        rw [h₂] at hq
        cases hq
    | some p =>
      obtain ⟨q, hq, hrec⟩ := (h (recordOf n₂ p)).mpr ⟨p, h₂, rfl⟩
      simp only [recordOf, ParsedResult.mk.injEq] at hrec
      obtain ⟨hname, h₁, h₂, h₃, h₄, h₅, h₆⟩ := hrec
      refine ⟨?_, fun _ => hname.symm⟩
      rw [hq]
      exact congrArg some (Prod.ext (Prod.ext h₁.symm (Prod.ext h₃.symm h₄.symm))
        (Prod.ext h₂.symm (Prod.ext h₅.symm h₆.symm)))
  · rintro ⟨hplaces, hname⟩ rec
    rw [hplaces]
    constructor
    all_goals
      rintro ⟨p, hp, rfl⟩
      have hn := hname (by rw [hp]; exact Option.some_ne_none p)
      exact ⟨p, hp, by rw [hn]⟩

/-- The parsers agree exactly when the two lines give them the same places and, unless these are
missing, the function is the configured one. -/
theorem sameRecord_iff (h : SingleReport r f) {cfg : Config} {verbose : Bool} {trace : Text}
    (htrace : r.trace = configuration cfg verbose ++ trace) :
    SameRecord r.print ↔ ∀ e l e' l', ReadsEnds Anywhere r.level f e l →
      ReadsEnds EndsBlank r.level f e' l' →
        placesRead e l = placesRead e' l' ∧ (placesRead e' l' ≠ none → configuredName cfg = f.name) := by
  obtain ⟨m, hm, hname⟩ := search_functionRE_print htrace
  obtain ⟨e, l, hreads, hsingle⟩ := parsesSingle_iff h hm
  obtain ⟨e', l', hreads', hblock⟩ := parsesBlock_iff h
  have hrecords : SameRecord r.print ↔ ∀ rec, LineReading.record (configuredName cfg) e l =
      some (.ok rec) ↔ LineReading.record f.name e' l' = some (.ok rec) := by
    rw [← hname]
    exact forall_congr' fun rec => iff_congr (hsingle rec) (hblock rec)
  rw [hrecords, records_agree_iff]
  constructor
  · intro hagree e₁ l₁ e₂ l₂ h₁ h₂
    obtain ⟨rfl, rfl⟩ := hreads.unique h₁
    obtain ⟨rfl, rfl⟩ := hreads'.unique h₂
    exact hagree
  · exact fun hall => hall e l e' l' hreads hreads'

/-! ## Lines without brackets of their own -/

omit [Unicode] in
/-- From an instruction without a bracket the printed location and the function are read. -/
theorem ReadsAt.of_plain {B : Text → Prop} {level : Int} {name : Text} {i : ReportedInst}
    {before : Text} {x : LineReading} (hi : OneLine i) (hplain : '<' ∉ i.text) (hne : name ≠ [])
    (hname : ∀ c ∈ name, Str.isSpace c = false) (hB : B (i.text.dropWhile Str.isSpace ++ [' ']))
    (h : ReadsAt B (shownLine level name i) before x.location x.func) :
    x = ⟨bracketed i.location, name⟩ := by
  obtain ⟨rest, label, v, hfirst, hat⟩ := h
  have hclosing : '>' ∉ bracketed i.location := hi.printed.not_mem_bracketed (by decide)
  have hend : NamesFunction (lineEnd level name i.location) := by
    have h : NamesFunction (lineEnd level name i.location ++ []) :=
      namesFunction_lineTail hne hname _ []
    rwa [List.append_nil] at h
  rw [shownLine_eq] at hfirst
  -- the bracket of the location closes, so the first match is there or before it
  have hle := hfirst.first _ _ (List.append_assoc _ [' '] _).symm hB
    ⟨_, _, rfl, bracketed_ne_nil _, hclosing, hend⟩
  rcases bracket_cases hfirst.eq with ⟨b, hb, _⟩ | ⟨_, hbehind⟩ | hlong
  · -- the text has no bracket
    have hmem : '<' ∈ i.text.dropWhile Str.isSpace := by
      rw [hb]
      exact List.mem_append_right before List.mem_cons_self
    exact absurd ((List.dropWhile_suffix _).subset hmem) hplain
  · obtain ⟨hloc, hrest⟩ := Str.append_cons_inj hfirst.closing hclosing hbehind
    rw [hrest] at hat
    have hfunc : FuncAt (lineEnd level name i.location)
        ((if (i.location.getD ⟨[], 0, 0, false⟩).approx then " (approx)".toList else []) ++
          " FUNC".toList) name (" L=".toList ++ Str.strInt level) := by
      refine ⟨?_, ?_, hname, fun a as heq => ?_⟩
      · rw [lineEnd, lineTail, show " FUNC=".toList = " FUNC".toList ++ ['='] from rfl]
        simp only [List.append_assoc, List.cons_append, List.nil_append]
      · split
        all_goals decide
      · obtain ⟨rfl, _⟩ := List.cons.inj (show ' ' :: ("L=".toList ++ Str.strInt level) = a :: as from heq)
        decide
    cases x
    exact LineReading.mk.injEq .. ▸ ⟨hloc, hat.unique hfunc⟩
  · omega

/-- What is read from the line of an instruction without a bracket. -/
def printedReading (f : ReportedFunction) (i : ReportedInst) : LineReading :=
  ⟨bracketed i.location, f.name⟩

omit [Unicode] in
theorem ReadsEnds.of_plain {B : Text → Prop} (hB : ∀ s : Text, B (s ++ [' '])) (hf : Shown f)
    (hearliest : '<' ∉ f.earliest.text) (hlatest : ∀ i, f.latest = some i → '<' ∉ i.text)
    {level : Int} {e l : LineReading} (h : ReadsEnds B level f e l) :
    e = printedReading f f.earliest ∧ l = printedReading f (f.latest.getD f.earliest) := by
  obtain ⟨_, he⟩ := h.earliest
  have hread : e = printedReading f f.earliest :=
    he.of_plain hf.earliest hearliest hf.nonempty hf.name (hB _)
  refine ⟨hread, ?_⟩
  cases hi : f.latest with
  | none =>
    rw [h.single hi, Option.getD_none]
    exact hread
  | some i =>
    obtain ⟨_, hl⟩ := h.latest i hi
    exact hl.of_plain (hf.latest i hi) (hlatest i hi) hf.nonempty hf.name (hB _)

/-- Without brackets in the instructions only the name can differ. -/
theorem sameRecord_plain_iff (h : SingleReport r f) {cfg : Config} {verbose : Bool} {trace : Text}
    (htrace : r.trace = configuration cfg verbose ++ trace) (hearliest : '<' ∉ f.earliest.text)
    (hlatest : ∀ i, f.latest = some i → '<' ∉ i.text) :
    SameRecord r.print ↔
      (placesRead (printedReading f f.earliest) (printedReading f (f.latest.getD f.earliest)) ≠ none →
        configuredName cfg = f.name) := by
  rw [sameRecord_iff h htrace]
  constructor
  · intro hall
    obtain ⟨e, l, hreads, _⟩ := parseSingleFunction_print h.only h.shown h.place []
    obtain ⟨e', l', hreads', _⟩ := parsesBlock_iff h
    obtain ⟨rfl, rfl⟩ := hreads'.of_plain (fun s => ⟨s, ' ', rfl, by decide⟩) h.shown hearliest hlatest
    exact (hall _ _ _ _ hreads hreads').2
  · intro hname e l e' l' hreads hreads'
    obtain ⟨rfl, rfl⟩ := hreads.of_plain (fun _ => trivial) h.shown hearliest hlatest
    obtain ⟨rfl, rfl⟩ := hreads'.of_plain (fun s => ⟨s, ' ', rfl, by decide⟩) h.shown hearliest hlatest
    exact ⟨rfl, hname⟩

/-! ## The reports of the pass -/

/-- On what a run prints the two parsers agree exactly under these conditions. -/
theorem run_sameRecord_iff {M : Module} {cfg : Config} {addr : Value → Nat} {fuel : Nat}
    {s : PassState} (hrun : run M cfg addr fuel = some s) (verbose : Bool) (trace : Text)
    (h : SingleReport (s.report M cfg (configuration cfg verbose ++ trace)) f) :
    SameRecord (s.output M cfg verbose trace) ↔ ∀ e l e' l', ReadsEnds Anywhere s.maxLevel f e l →
      ReadsEnds EndsBlank s.maxLevel f e' l' →
        placesRead e l = placesRead e' l' ∧ (placesRead e' l' ≠ none → configuredName cfg = f.name) := by
  rw [run_output hrun, if_pos]
  · exact sameRecord_iff h rfl
  · exact maxLevelInstructions_ne_nil h.only

end IrToAssembly

/-- `use` calls `get`, which returns the tracked constant plus three. -/
def calledSourceModule : Module :=
  .ofFunctions [
    { name := "get".toList
      argIsPointerTy := []
      blocks := [[
        { kind := .other "add".toList [.constantInt 32 5, .constantInt 32 3] []
          text := "  %1 = add i32 5, 3".toList
          debugLoc := some ⟨"a.c".toList, 3, 0⟩ },
        { kind := .ret (some (.inst ⟨0, 0, 0⟩)) }]] },
    { name := "use".toList
      argIsPointerTy := []
      blocks := [[
        { kind := .call (.function 0) true [] []
          text := "  %1 = call i32 @get()".toList
          debugLoc := some ⟨"a.c".toList, 7, 0⟩ },
        { kind := .ret none }]] }] id

def getConfig (upward : Bool) : Config :=
  { recursiveConfig with functionName := "get".toList, upwardInterprocMode := upward }

/-- The caller has the largest level when it is tracked. -/
def getFunction (upward : Bool) : ReportedFunction :=
  if upward then
    ⟨"use".toList, ⟨"  %1 = call i32 @get()".toList, some ⟨"a.c".toList, 7, 0, false⟩⟩, none⟩
  else ⟨"get".toList, ⟨"  %1 = add i32 5, 3".toList, some ⟨"a.c".toList, 3, 0, false⟩⟩, none⟩

def getReport (upward : Bool) : Report where
  trace := configuration (getConfig upward) false
  level := if upward then 1 else 0
  instructions := 1
  arguments := 0
  breakdown := [((getFunction upward).name, 1)]
  functions := [getFunction upward]
  spanInstructions := 1
  otherInstructions := if upward then 2 else 0
  otherVisited := if upward then 1 else 0
  spans := [((getFunction upward).name, 0, 0, 0, 0)]
  otherNames := if upward then ["get".toList] else []

deriving instance DecidableEq for Report

theorem run_getReport (upward : Bool) :
    ∃ s, run calledSourceModule (getConfig upward) Value.slot 6 = some s ∧
      s.report calledSourceModule (getConfig upward) (configuration (getConfig upward) false ++ []) =
        getReport upward := by
  have h : (run calledSourceModule (getConfig upward) Value.slot 6).map (fun s =>
      decide (s.report calledSourceModule (getConfig upward)
        (configuration (getConfig upward) false ++ []) = getReport upward)) = some true := by
    cases upward with
    | false => decide +kernel
    | true => decide +kernel
  obtain ⟨s, hs, hreport⟩ := Option.map_eq_some_iff.mp h
  exact ⟨s, hs, of_decide_eq_true hreport⟩

namespace IrToAssembly

theorem latest_get (upward : Bool) : (getFunction upward).latest = none := by
  cases upward with
  | false => rfl
  | true => rfl

theorem shown_get (upward : Bool) : Shown (getFunction upward) := by
  have hname : (getFunction upward).name ≠ [] ∧
      (∀ a ∈ (getFunction upward).name, Str.isSpace a = false) ∧ '<' ∉ (getFunction upward).name := by
    cases upward with
    | false => decide
    | true => decide
  have hone : OneLine (getFunction upward).earliest := by
    cases upward with
    | false => exact ⟨by decide, fun l hl => by cases hl; decide⟩
    | true => exact ⟨by decide, fun l hl => by cases hl; decide⟩
  refine ⟨hname.1, hname.2.1, hname.2.2, hone, fun i hi => ?_⟩
  rw [latest_get] at hi
  cases hi

theorem quiet_get (upward : Bool) : (getReport upward).Quiet := by
  cases upward with
  | false => exact ⟨by decide +kernel, by decide +kernel, by decide +kernel⟩
  | true => exact ⟨by decide +kernel, by decide +kernel, by decide +kernel⟩

theorem inPlace_get (upward : Bool) : InPlace (getReport upward) (getFunction upward) := by
  refine ⟨?_, fun h => absurd (latest_get upward) h, fun h => absurd (latest_get upward) h⟩
  cases upward with
  | false => decide +kernel
  | true => decide +kernel

theorem singleReport_get (upward : Bool) :
    @SingleReport Unicode.ascii (getReport upward) (getFunction upward) := by
  let _ := Unicode.ascii
  refine ⟨rfl, ?_, shown_get upward, quiet_get upward, inPlace_get upward⟩
  cases upward with
  | false => decide
  | true => decide

/-- When the configured function has the largest level, the parsers agree. -/
theorem run_sameRecord_get : ∃ s, run calledSourceModule (getConfig false) Value.slot 6 = some s ∧
    @SameRecord Unicode.ascii (s.output calledSourceModule (getConfig false) false []) := by
  let _ := Unicode.ascii
  obtain ⟨s, hs, hreport⟩ := run_getReport false
  have hsingle := singleReport_get false
  rw [← hreport] at hsingle
  refine ⟨s, hs, (run_sameRecord_iff hs false [] hsingle).mpr fun e l e' l' hreads hreads' => ?_⟩
  have hplain : ∀ i, (getFunction false).latest = some i → '<' ∉ i.text := fun i hi => by cases hi
  obtain ⟨rfl, rfl⟩ := hreads.of_plain (fun _ => trivial) hsingle.shown (by decide) hplain
  obtain ⟨rfl, rfl⟩ := hreads'.of_plain (fun s => ⟨s, ' ', rfl, by decide⟩) hsingle.shown (by decide)
    hplain
  exact ⟨rfl, fun _ => by decide⟩

/-- A caller with the largest level gets the name of the configured function from one parser only. -/
theorem run_records_differ : ∃ s f, run calledSourceModule (getConfig true) Value.slot 6 = some s ∧
    s.reportedFunctions calledSourceModule (getConfig true) = [f] ∧ @WordName Unicode.ascii f ∧
    ¬@SameRecord Unicode.ascii (s.output calledSourceModule (getConfig true) false []) := by
  let _ := Unicode.ascii
  obtain ⟨s, hs, hreport⟩ := run_getReport true
  have hsingle := singleReport_get true
  rw [← hreport] at hsingle
  refine ⟨s, getFunction true, hs, hsingle.only, hsingle.word, fun hsame => ?_⟩
  rw [run_output hs, if_pos (maxLevelInstructions_ne_nil hsingle.only)] at hsame
  have hname := (sameRecord_plain_iff hsingle rfl (by decide) fun i hi => by cases hi).mp hsame
  have hdiffer : configuredName (getConfig true) ≠ (getFunction true).name := by decide
  exact hdiffer (hname (by decide))

end IrToAssembly

end LinuxAnalysis
