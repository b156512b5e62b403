import LinuxAnalysis.Scripts.ReportAborts
import LinuxAnalysis.Scripts.SsGen

/-!
# From tainted instructions to the offset file

The pass prints what it has found and `ir_to_assembly.py` reads it back.  With the text left out,
stage 2 is a function of the reported instructions, and what it writes is about tainted instructions
alone.
-/

open LinuxAnalysis.Lib

namespace LinuxAnalysis

namespace IrToAssembly

/-! ## 1. Stage 2 without a report -/

/-- The file and the line of a location where neither is missing. -/
def sourcePlace (location : Option Location) : Option (Text × Int) :=
  usable (location.map fun l => (l.filename, (l.line : Int)))

/-- What stage 2 has to know of a function that goes by the given name. -/
def directRecord (name : Text) (f : ReportedFunction) : Option ParsedResult :=
  (sourcePlace f.earliest.location).bind fun e =>
    (sourcePlace (f.latest.getD f.earliest).location).map fun l =>
      ⟨name, f.name, f.name, e.1, e.2, l.1, l.2⟩

section Direct

variable [Unicode]

/-- A result for a record, or one with an error; the outer `none` is an exception. -/
def directResult (c : Caches) : Option ParsedResult → Option (Option SpanResult)
  | none => some none
  | some r => (processSingleResult c r).map some

/-- The functions that stage 2 looks at: a single one by the name the pass was configured with, and
of several those whose names consist of word characters. -/
def examined (cfg : Config) (functions : List ReportedFunction) : List (Text × ReportedFunction) :=
  if functions.length = 1 then functions.map fun f => (configuredName cfg, f)
  else (functions.filter fun f => WordName f).map fun f => (f.name, f)

/-- The offset file for the reported functions. -/
def directOffsets (c : Caches) (outputFile : Text) (cfg : Config)
    (functions : List ReportedFunction) : Option (Option (Text × List OffsetEntry)) :=
  ((examined cfg functions).mapM fun p => directResult c (directRecord p.1 p.2)).map
    (writeFuncOffsetJson outputFile)

/-! ## 2. The records -/

theorem parseLocation_bracketed_eq {location : Option Location}
    (h : ∀ l, location = some l → ':' ∉ l.filename) :
    parseLocation (bracketed location) =
      some (location.map fun l => (l.filename, (l.line : Int))) := by
  cases location with
  | none => rfl
  | some l =>
    obtain ⟨column, hsplit⟩ := rsplitTwice_printedLocation (h l rfl)
    rw [bracketed, parseLocation, hsplit]
    show (Str.int 10 (Str.str l.line)).map _ = _
    rw [Str.int_str]
    rfl

/-- The lines of a function give its record. -/
theorem record_printedReading {f : ReportedFunction} (h : Unmarked f) (name : Text) :
    ∃ entry, LineReading.record name (printedReading f f.earliest)
        (printedReading f (f.latest.getD f.earliest)) = some entry ∧
      entry.toOption = directRecord name f := by
  have hlatest : ∀ l, (f.latest.getD f.earliest).location = some l → ':' ∉ l.filename := by
    cases hi : f.latest with
    | none => exact h.earliestFile
    | some i => exact h.latestFile i hi
  rw [LineReading.record, record]
  simp only [printedReading]
  rw [parseLocation_bracketed_eq h.earliestFile, parseLocation_bracketed_eq hlatest]
  unfold directRecord sourcePlace
  simp only [Option.bind_eq_bind, Option.bind_some]
  split
  next he =>
    rw [he]
    exact ⟨_, rfl, rfl⟩
  next hl _ =>
    simp only [hl, Option.map_none, Option.bind_fun_none]
    exact ⟨_, rfl, rfl⟩
  next he hl =>
    rw [he, hl]
    exact ⟨_, rfl, rfl⟩

/-- One record or error after another. -/
theorem processParsed_multiple (c : Caches) (entries : List (Except Text ParsedResult)) :
    processParsed c (.multiple entries) =
      entries.mapM fun entry => directResult c entry.toOption := by
  rw [processParsed]
  congr 1
  funext entry
  cases entry with
  | error message => rfl
  | ok r => rfl

theorem processParsed_singleParsed (c : Caches) (entry : Except Text ParsedResult) :
    processParsed c (singleParsed entry) =
      (directResult c entry.toOption).map fun res => [res] := by
  cases entry with
  | error message => rfl
  | ok r =>
    show (processSingleResult c r).map _ = ((processSingleResult c r).map some).map _
    rw [Option.map_map]
    rfl

theorem mapM_blockRecord {r : Report} (h : Legible r) (hplain : ∀ f ∈ r.functions, Unmarked f) :
    ∃ entries, (Regex.finditer blockRE r.print).mapM blockRecord = some entries ∧
      List.Forall₂ (fun f entry => entry.toOption = directRecord f.name f)
        (r.functions.filter fun f => WordName f) entries := by
  have hentry (f : ReportedFunction) (hf : f ∈ r.functions.filter fun f => WordName f)
      (m : Regex.Match) (hm : Matched r.level f m) :
      ∃ entry, blockRecord m = some entry ∧ entry.toOption = directRecord f.name f := by
    have hmem := (List.mem_filter.mp hf).1
    obtain ⟨e, l, hreads, hrecord⟩ := blockRecord_shown hm (h.shown f hmem) (h.phrase f hmem)
    obtain ⟨rfl, rfl⟩ := hreads.of_plain (fun s => ⟨s, ' ', rfl, by decide⟩) (h.shown f hmem)
      (hplain f hmem).earliest (hplain f hmem).latest
    rw [hrecord]
    exact record_printedReading (hplain f hmem) f.name
  obtain ⟨entries, hentries, hrecords⟩ := (exists_forall₂_iff (p := fun _ => True)
    (finditer_print h.shown h.quiet) fun f hf m hm => iff_of_true (hentry f hf m hm) trivial).mpr
      fun _ _ => trivial
  exact ⟨entries, mapM_eq_some_iff.mpr hentries, hrecords⟩

/-- The results for a report of several functions. -/
theorem processParsed_print {r : Report} (h : Legible r) (hplain : ∀ f ∈ r.functions, Unmarked f)
    (c : Caches) {outputFile : Text} :
    ((parseMultipleFunctions r.print).bind (processParsed c)).map (writeFuncOffsetJson outputFile) =
      (((r.functions.filter fun f => WordName f).mapM fun f =>
        directResult c (directRecord f.name f))).map (writeFuncOffsetJson outputFile) := by
  obtain ⟨entries, hentries, hrecords⟩ := mapM_blockRecord h hplain
  have hresults : (entries.mapM fun entry => directResult c entry.toOption) =
      (r.functions.filter fun f => WordName f).mapM fun f =>
        directResult c (directRecord f.name f) := by
    refine (mapM_congr_forall₂ (hrecords.imp fun f entry he => ?_)).symm
    rw [he]
  rw [parseMultipleFunctions, hentries, Option.map_some, Option.bind_some, ← hresults]
  split
  next hempty =>
    -- an error for the whole report, and no function to look at: nothing is written in either case
    rw [List.isEmpty_iff.mp hempty]
    show some (writeFuncOffsetJson outputFile [none]) = some (writeFuncOffsetJson outputFile [])
    unfold writeFuncOffsetJson
    split
    · rfl
    · rfl
  next => rw [processParsed_multiple]

/-- The results for a report of one function. -/
theorem processParsed_print_single {r : Report} (h : Legible r) {f : ReportedFunction}
    (hf : r.functions = [f]) (hplain : Unmarked f) (c : Caches) (name : Text) :
    (parseSingleFunction r.print name).bind (processParsed c) =
      (directResult c (directRecord name f)).map fun res => [res] := by
  have hshown : Shown f := h.shown f (by rw [hf]; exact List.mem_singleton_self f)
  obtain ⟨e, l, hreads, hparse⟩ := parseSingleFunction_print hf hshown (h.place f hf) name
  obtain ⟨rfl, rfl⟩ := hreads.of_plain (fun _ => trivial) hshown hplain.earliest hplain.latest
  obtain ⟨entry, hentry, hrecord⟩ := record_printedReading hplain name
  rw [hparse, hentry, Option.map_some, Option.bind_some, processParsed_singleParsed, hrecord]

/-- Printing a report and reading it back changes nothing about the offset file. -/
theorem processSingleFile_print {r : Report} (h : Legible r)
    (hplain : ∀ f ∈ r.functions, Unmarked f) (c : Caches) {cfg : Config} {verbose : Bool}
    {trace outputFile : Text} (htrace : r.trace = configuration cfg verbose ++ trace)
    (htweaks : applyTweaks outputFile r.print = r.print) :
    processSingleFile c outputFile r.print = directOffsets c outputFile cfg r.functions := by
  rw [processSingleFile, parseDataflowAnalysisOutputFile, h.distinct.content htweaks,
    h.distinct.functionCount,
    Option.bind_some, directOffsets, examined]
  by_cases hone : r.functions.length = 1
  · obtain ⟨f, hf⟩ := List.length_eq_one_iff.mp hone
    obtain ⟨m, hm, hname⟩ := search_functionRE_print htrace
    rw [if_pos (by rw [hone]; rfl), hm, Option.bind_some, hname,
      processParsed_print_single h hf (hplain f (by rw [hf]; exact List.mem_singleton_self f)),
      if_pos hone, hf]
    simp only [List.map_cons, List.map_nil, List.mapM_cons, List.mapM_nil]
    cases directResult c (directRecord (configuredName cfg) f) with
    | none => rfl
    | some res => rfl
  · rw [if_neg fun hcount => hone (by exact_mod_cast hcount), if_neg hone,
      processParsed_print h hplain c, List.mapM_map]
    rfl

/-! ## 3. The entries -/

omit [Unicode] in
theorem directRecord_eq_some {name : Text} {f : ReportedFunction} {r : ParsedResult}
    (h : directRecord name f = some r) : ∃ e l, f.earliest.location = some e ∧
      (f.latest.getD f.earliest).location = some l ∧
      r = ⟨name, f.name, f.name, e.filename, e.line, l.filename, l.line⟩ := by
  obtain ⟨⟨file₁, line₁⟩, he, hmap⟩ := Option.bind_eq_some_iff.mp h
  obtain ⟨⟨file₂, line₂⟩, hl, rfl⟩ := Option.map_eq_some_iff.mp hmap
  obtain ⟨e, hearliest, hplace⟩ := Option.map_eq_some_iff.mp (usable_eq_some_iff.mp he).1
  cases hplace
  obtain ⟨l, hlatest, hplace⟩ := Option.map_eq_some_iff.mp (usable_eq_some_iff.mp hl).1
  cases hplace
  exact ⟨e, l, hearliest, hlatest, rfl⟩

/-- An entry is about the location of the first and of the last instruction of a function. -/
def EntryFor (f : ReportedFunction) (entry : OffsetEntry) : Prop :=
  ∃ e l, f.earliest.location = some e ∧ (f.latest.getD f.earliest).location = some l ∧
    entry.sourceStart = e.filename ++ ':' :: Str.str e.line ∧
    entry.sourceEnd = l.filename ++ ':' :: Str.str l.line

theorem entryFor_of_directResult {c : Caches} {name : Text} {f : ReportedFunction}
    {res : Option SpanResult} {entry : OffsetEntry}
    (h : directResult c (directRecord name f) = some res)
    (hbind : res.bind funcOffsetEntry = some entry) : EntryFor f entry := by
  obtain ⟨result, rfl, hentry⟩ := Option.bind_eq_some_iff.mp hbind
  cases hrecord : directRecord name f with
  | none =>
    rw [hrecord] at h
    cases h
  | some r =>
    rw [hrecord] at h
    obtain ⟨result', hresult, hsome⟩ := Option.map_eq_some_iff.mp h
    cases hsome
    obtain ⟨ends, _, rfl⟩ := Option.map_eq_some_iff.mp hresult
    obtain ⟨e, l, he, hl, rfl⟩ := directRecord_eq_some hrecord
    unfold funcOffsetEntry at hentry
    split at hentry
    next =>
      cases hentry
      exact ⟨e, l, he, hl, rfl, rfl⟩
    next => cases hentry

/-- The entries are about some of the functions, in the same order. -/
theorem entryFor_of_directOffsets {c : Caches} {outputFile path : Text} {cfg : Config}
    {functions : List ReportedFunction} {entries : List OffsetEntry}
    (h : directOffsets c outputFile cfg functions = some (some (path, entries))) :
    ∃ fs, fs.Sublist functions ∧ List.Forall₂ EntryFor fs entries := by
  obtain ⟨results, hresults, hwrite⟩ := Option.map_eq_some_iff.mp h
  have hentries : entries = results.filterMap fun res => res.bind funcOffsetEntry := by
    unfold writeFuncOffsetJson at hwrite
    split at hwrite
    · exact (Prod.mk.inj (Option.some.inj hwrite)).2.symm
    · cases hwrite
  have hexamined : ((examined cfg functions).map Prod.snd).Sublist functions := by
    unfold examined
    split
    · rw [List.map_map]
      exact (List.map_id functions).symm ▸ .refl _
    · rw [List.map_map]
      exact (List.map_id _).symm ▸ List.filter_sublist
  obtain ⟨ps, hsub, hrel⟩ := forall₂_filterMap_right (g := fun res => res.bind funcOffsetEntry)
    (mapM_eq_some_iff.mp hresults)
  rw [← hentries] at hrel
  refine ⟨ps.map Prod.snd, (hsub.map Prod.snd).trans hexamined, ?_⟩
  rw [List.forall₂_map_left_iff]
  exact hrel.imp fun p entry ⟨res, hres, hentry⟩ => entryFor_of_directResult hres hentry

end Direct

end IrToAssembly

/-! ## 4. A run and its offset file -/

namespace PassState

/-- The first and the last instruction of function `f` that are tainted at the largest level. -/
structure MaxLevelSpan (M : Module) (s : PassState) (f : Nat) (first last : InstId) : Prop where
  mem : first ∈ M.insts ∧ last ∈ M.insts
  func : first.func = f ∧ last.func = f
  tainted : .inst first ∈ s.taintedValues ∧ .inst last ∈ s.taintedValues
  level : s.valueLevel.lookup (.inst first) = some s.maxLevel ∧
    s.valueLevel.lookup (.inst last) = some s.maxLevel
  covers : ∀ i ∈ M.insts, i.func = f → .inst i ∈ s.taintedValues →
    s.valueLevel.lookup (.inst i) = some s.maxLevel → first.le i ∧ i.le last

variable {M : Module} {s : PassState}

theorem maxLevelSpan_of_mem_reportedRanges {f : Nat} {first last : InstId}
    (h : (f, first, last) ∈ s.reportedRanges M) : s.MaxLevelSpan M f first last := by
  have hranges := rangesOver_earliestLatestPerFunction (M := M) (s := s)
  have hlookup := mem_reportedRanges h
  obtain ⟨⟨hf, hfmax, hffunc⟩, hl, hlmax, hlfunc⟩ := hranges.ends f first last hlookup
  obtain ⟨hftainted, hflevel⟩ := mem_maxLevelInstructions.mp hfmax
  obtain ⟨hltainted, hllevel⟩ := mem_maxLevelInstructions.mp hlmax
  refine ⟨⟨hf, hl⟩, ⟨hffunc, hlfunc⟩, ⟨hftainted, hltainted⟩, ⟨hflevel, hllevel⟩,
    fun i hi hfunc htainted hlevel => ?_⟩
  obtain ⟨e, l, hel, hle⟩ := hranges.covers i hi (mem_maxLevelInstructions.mpr ⟨htainted, hlevel⟩)
  rw [hfunc, hlookup] at hel
  cases hel
  exact hle

theorem nodup_reportedRanges : ((s.reportedRanges M).map Prod.fst).Nodup := by
  unfold reportedRanges
  split
  · rw [((List.perm_insertionSort _ _).map _).nodup_iff, List.map_map]
    exact (s.earliestLatestPerFunction M).nodupKeys
  · exact List.nodup_nil

/-- What is reported of the span of a function. -/
def reportedSpan (M : Module) (cfg : Config) (r : Nat × InstId × InstId) : ReportedFunction :=
  ⟨M.functionName r.1, ⟨getValueName (M.inst r.2.1).text, M.getDebugLoc cfg r.2.1⟩,
    if r.2.2 ≠ r.2.1 then some ⟨getValueName (M.inst r.2.2).text, M.getDebugLoc cfg r.2.2⟩
    else none⟩

theorem reportedFunctions_eq {cfg : Config} :
    s.reportedFunctions M cfg = (s.reportedRanges M).map (reportedSpan M cfg) := rfl

/-- A span of one instruction is reported as its first one alone. -/
theorem location_reportedSpan {cfg : Config} {r : Nat × InstId × InstId} :
    ((reportedSpan M cfg r).latest.getD (reportedSpan M cfg r).earliest).location =
      M.getDebugLoc cfg r.2.2 := by
  unfold reportedSpan
  dsimp only
  by_cases hone : r.2.2 ≠ r.2.1
  · rw [if_pos hone]
    rfl
  · rw [if_neg hone, not_not.mp hone]
    rfl

end PassState

namespace IrToAssembly

section Run

variable [Unicode] {M : Module} {cfg : Config} {addr : Value → Nat} {fuel : Nat} {s : PassState}

theorem processSingleFile_of_nothing (hrun : run M cfg addr fuel = some s) (c : Caches)
    {verbose : Bool} {trace outputFile : Text}
    (h : Legible (s.report M cfg (configuration cfg verbose ++ trace)))
    (htweaks : applyTweaks outputFile (s.output M cfg verbose trace) = s.output M cfg verbose trace)
    (hmax : s.maxLevelInstructions = []) :
    processSingleFile c outputFile (s.output M cfg verbose trace) = none := by
  have hlabel : ¬announceLabel <:+: configuration cfg verbose ++ trace := by
    refine fun hin => h.count (hin.trans ?_)
    rw [beforeCount, List.append_assoc]
    exact (List.prefix_append _ _).isInfix
  rw [processSingleFile,
    parse_output_without_statistics hrun hmax h.quiet.traceBreaks hlabel htweaks]
  rfl

theorem processSingleFile_of_found (hrun : run M cfg addr fuel = some s) (c : Caches)
    {verbose : Bool} {trace outputFile : Text}
    (h : Legible (s.report M cfg (configuration cfg verbose ++ trace)))
    (hplain : ∀ f ∈ s.reportedFunctions M cfg, Unmarked f)
    (htweaks : applyTweaks outputFile (s.output M cfg verbose trace) = s.output M cfg verbose trace)
    (hmax : s.maxLevelInstructions ≠ []) :
    processSingleFile c outputFile (s.output M cfg verbose trace) =
      directOffsets c outputFile cfg (s.reportedFunctions M cfg) := by
  have houtput : s.output M cfg verbose trace =
      (s.report M cfg (configuration cfg verbose ++ trace)).print := by
    rw [run_output hrun, if_pos hmax]
  rw [houtput] at htweaks ⊢
  exact processSingleFile_print h hplain c rfl htweaks

/-- **The report carries what stage 2 needs.**  The offset file made from the output of a run is a
function of the instructions reported, and there is none when the run found nothing. -/
theorem run_offsets_direct (hrun : run M cfg addr fuel = some s) (c : Caches) (verbose : Bool)
    (trace outputFile : Text) (h : Legible (s.report M cfg (configuration cfg verbose ++ trace)))
    (hplain : ∀ f ∈ s.reportedFunctions M cfg, Unmarked f)
    (htweaks : applyTweaks outputFile (s.output M cfg verbose trace) = s.output M cfg verbose trace) :
    processSingleFile c outputFile (s.output M cfg verbose trace) =
      if s.maxLevelInstructions = [] then none
      else directOffsets c outputFile cfg (s.reportedFunctions M cfg) := by
  split
  next hmax => exact processSingleFile_of_nothing hrun c h htweaks hmax
  next hmax => exact processSingleFile_of_found hrun c h hplain htweaks hmax

/-- A kernel in which `use` is inlined into `main`. -/
def callerCaches : Caches where
  vmlinuxPath := "vmlinux".toList
  nmOutput := "1000 T main\n2000 T get".toList
  readelfOutput := "net/a.c:\na.c 7 0x1010\na.c 9 0x1030".toList
  symbolToModule := []
  moduleNmCache := []
  moduleReadelfCache := []
  objdump := fun _ => none

def callerEntry : OffsetEntry where
  function := "main".toList
  offset := "0x10 - 0x10".toList
  sourceStart := "a.c:7".toList
  sourceEnd := "a.c:7".toList

omit [Unicode] in
theorem directOffsets_get : @directOffsets Unicode.ascii callerCaches "report.output.txt".toList
    (getConfig true) [getFunction true] =
      some (some ("report.func_offset.json".toList, [callerEntry])) := by
  decide +kernel

omit [Unicode] in
/-- A run of the pass whose report meets the conditions. -/
theorem run_get : ∃ s, run calledSourceModule (getConfig true) Value.slot 6 = some s ∧
    s.reportedFunctions calledSourceModule (getConfig true) = [getFunction true] ∧
    Legible (s.report calledSourceModule (getConfig true)
      (configuration (getConfig true) false ++ [])) ∧
    ∀ f ∈ s.reportedFunctions calledSourceModule (getConfig true), Unmarked f := by
  obtain ⟨s, hs, hreport⟩ := run_getReport true
  have hfunctions : s.reportedFunctions calledSourceModule (getConfig true) = [getFunction true] :=
    congrArg Report.functions hreport
  refine ⟨s, hs, hfunctions, hreport ▸ legible_get true, fun f hf => ?_⟩
  rw [hfunctions, List.mem_singleton] at hf
  rw [hf]
  exact unmarked_get true

omit [Unicode] in
theorem run_offsets_direct_get :
    ∃ s, run calledSourceModule (getConfig true) Value.slot 6 = some s ∧
      @processSingleFile Unicode.ascii callerCaches "report.output.txt".toList
          (s.output calledSourceModule (getConfig true) false []) =
        some (some ("report.func_offset.json".toList, [callerEntry])) := by
  let _ := Unicode.ascii
  obtain ⟨s, hs, hfunctions, hlegible, hunmarked⟩ := run_get
  refine ⟨s, hs, ?_⟩
  rw [run_offsets_direct hs callerCaches false [] "report.output.txt".toList hlegible hunmarked rfl,
    if_neg (maxLevelInstructions_ne_nil hfunctions), hfunctions]
  exact directOffsets_get

/-- The entry gives the source lines of the span of function `f`. -/
def SpanEntry (M : Module) (cfg : Config) (s : PassState) (f : Nat) (entry : OffsetEntry) : Prop :=
  ∃ first last e l, s.MaxLevelSpan M f first last ∧ M.getDebugLoc cfg first = some e ∧
    M.getDebugLoc cfg last = some l ∧ entry.sourceStart = e.filename ++ ':' :: Str.str e.line ∧
    entry.sourceEnd = l.filename ++ ':' :: Str.str l.line

/-- **Stage 2 makes nothing up.**  The entries of the offset file belong to different functions, and
each gives the lines of the first and the last instruction there that the run has tainted at the
largest level. -/
theorem run_entries_tainted (hrun : run M cfg addr fuel = some s) (c : Caches) (verbose : Bool)
    (trace outputFile path : Text) (entries : List OffsetEntry)
    (h : Legible (s.report M cfg (configuration cfg verbose ++ trace)))
    (hplain : ∀ f ∈ s.reportedFunctions M cfg, Unmarked f)
    (htweaks : applyTweaks outputFile (s.output M cfg verbose trace) = s.output M cfg verbose trace)
    (hfile : processSingleFile c outputFile (s.output M cfg verbose trace) =
      some (some (path, entries))) :
    ∃ fs : List Nat, fs.Nodup ∧ List.Forall₂ (SpanEntry M cfg s) fs entries := by
  by_cases hmax : s.maxLevelInstructions = []
  · rw [processSingleFile_of_nothing hrun c h htweaks hmax] at hfile
    cases hfile
  · rw [processSingleFile_of_found hrun c h hplain htweaks hmax] at hfile
    obtain ⟨fs, hsub, hentries⟩ := entryFor_of_directOffsets hfile
    rw [PassState.reportedFunctions_eq] at hsub
    obtain ⟨ranges, hranges, rfl⟩ := List.sublist_map_iff.mp hsub
    refine ⟨ranges.map Prod.fst, (hranges.map Prod.fst).nodup PassState.nodup_reportedRanges, ?_⟩
    rw [List.forall₂_map_left_iff] at hentries ⊢
    have hspans : ∀ r ∈ ranges, s.MaxLevelSpan M r.1 r.2.1 r.2.2 := fun r hr =>
      PassState.maxLevelSpan_of_mem_reportedRanges (hranges.subset hr)
    refine ((List.forall₂_and_left _ _).mpr ⟨hspans, hentries⟩).imp fun r entry hr => ?_
    obtain ⟨hspan, e, l, he, hl, hstart, hend⟩ := hr
    rw [PassState.location_reportedSpan] at hl
    exact ⟨r.2.1, r.2.2, e, l, hspan, he, hl, hstart, hend⟩

omit [Unicode] in
theorem run_entries_tainted_get :
    ∃ s f, run calledSourceModule (getConfig true) Value.slot 6 = some s ∧
      SpanEntry calledSourceModule (getConfig true) s f callerEntry := by
  let _ := Unicode.ascii
  obtain ⟨s, hs, hfunctions, hlegible, hunmarked⟩ := run_get
  have hfile : processSingleFile callerCaches "report.output.txt".toList
      (s.output calledSourceModule (getConfig true) false []) =
        some (some ("report.func_offset.json".toList, [callerEntry])) := by
    rw [processSingleFile_of_found hs callerCaches hlegible hunmarked rfl
      (maxLevelInstructions_ne_nil hfunctions), hfunctions]
    exact directOffsets_get
  obtain ⟨fs, _, hspans⟩ := run_entries_tainted hs callerCaches false []
    "report.output.txt".toList _ _ hlegible hunmarked rfl hfile
  obtain ⟨f, _, hf, _, rfl⟩ := List.forall₂_cons_right_iff.mp hspans
  exact ⟨s, f, hs, hf⟩

end Run

end IrToAssembly

end LinuxAnalysis
