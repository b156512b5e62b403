import LinuxAnalysis.Lib.Pointwise
import LinuxAnalysis.Scripts.ReportStatistics

/-!
# Reading back a printed report

For a report of several functions: the parser yields one entry for each function, with its name and its
two locations, exactly when the names consist of word characters, the locations read from the lines are
the printed ones or agree with them, and the first number announced is not one.
-/

open LinuxAnalysis.Lib

namespace LinuxAnalysis

/-! ## The text around the functions -/

/-- Nothing around the functions begins a block: the trace lacks the label, and the names of other
functions stand on one line. -/
structure Report.Quiet (r : Report) : Prop where
  trace : ¬"Earliest:".toList <:+: r.trace
  traceBreaks : '\r' ∉ r.trace
  names : ∀ name ∈ r.breakdown.map Prod.fst ++ r.spans.map Prod.fst ++ r.otherNames,
    name ∈ r.functions.map ReportedFunction.name ∨ ∀ c ∈ "\n\r".toList, c ∉ name

namespace IrToAssembly

section RoundTrip

theorem usable_eq_some_iff {loc : Option (Text × Int)} {file : Text} {line : Int} :
    usable loc = some (file, line) ↔ loc = some (file, line) ∧ file ≠ [] ∧ line ≠ 0 := by
  rw [usable, Option.filter_eq_some_iff]
  simp

variable [Unicode]

/-! ## What a report should read back as -/

/-- A function with known locations, printed on one line each. -/
structure Printable (f : ReportedFunction) : Prop where
  earliest : ∃ l, Located f.earliest l
  latest : ∀ i, f.latest = some i → ∃ l, Located i l

omit [Unicode] in
theorem Printable.oneLine {f : ReportedFunction} (hf : Printable f) :
    OneLine f.earliest ∧ ∀ i, f.latest = some i → OneLine i := by
  obtain ⟨l, hl⟩ := hf.earliest
  refine ⟨hl.oneLine, fun i hi => ?_⟩
  obtain ⟨l', hl'⟩ := hf.latest i hi
  exact hl'.oneLine

/-- The entry has the name of the function and the file and line of both instructions. -/
def Carries (f : ReportedFunction) (entry : Except Text ParsedResult) : Prop :=
  ∃ r, entry = .ok r ∧ r.function = f.name ∧
    (∃ l, f.earliest.location = some l ∧ r.earliestFile = l.filename ∧ r.earliestLine = l.line) ∧
    ∃ l, (f.latest.getD f.earliest).location = some l ∧ r.latestFile = l.filename ∧
      r.latestLine = l.line

/-- The parser yields one entry for each function, in order. -/
def RoundTrips (filepath : Text) (r : Report) : Prop :=
  ∃ entries, parseDataflowAnalysisOutputFile filepath r.print = some (.multiple entries) ∧
    List.Forall₂ Carries r.functions entries

/-- A location that is read gives the file and line of the printed one. -/
def Agrees (l : Location) (loc : Text) : Prop :=
  l.filename ≠ [] ∧ parseLocation loc = some (some (l.filename, (l.line : Int)))

/-- The phrase of a block of one instruction occurs in the part of a block of two that is matched. -/
def PhraseShown (level : Int) (f : ReportedFunction) (before loc : Text) : Prop :=
  sameInstructionPhrase <:+: instLine level f.name f.earliest ∨ sameInstructionPhrase <:+: before ∨
    sameInstructionPhrase <:+: loc

/-- The name can be read, and the locations read from the lines agree with the printed ones. -/
structure ReadsBack (level : Int) (f : ReportedFunction) : Prop where
  nonempty : f.name ≠ []
  name : ∀ a ∈ f.name, Regex.word a = true
  earliest : ∀ l before loc, f.earliest.location = some l → Reads f.earliest.text l before loc →
    Agrees l loc
  latest : ∀ i l le before loc, f.latest = some i → i.location = some l →
    f.earliest.location = some le → Reads i.text l before loc →
    (PhraseShown level f before loc ∧ le.filename = l.filename ∧ le.line = l.line) ∨
      (¬PhraseShown level f before loc ∧ Agrees l loc)

/-! ## The record of a block -/

/-- A record needs two locations with a file and a line. -/
theorem record_eq_some_iff {function func₁ loc₁ func₂ loc₂ : Text} {r : ParsedResult} :
    record function func₁ loc₁ func₂ loc₂ = some (.ok r) ↔ ∃ file₁ line₁ file₂ line₂,
      parseLocation loc₁ = some (some (file₁, line₁)) ∧ file₁ ≠ [] ∧ line₁ ≠ 0 ∧
      parseLocation loc₂ = some (some (file₂, line₂)) ∧ file₂ ≠ [] ∧ line₂ ≠ 0 ∧
      r = ⟨function, func₁, func₂, file₁, line₁, file₂, line₂⟩ := by
  constructor
  · intro h
    rw [record] at h
    obtain ⟨p₁, hp₁, hbind⟩ := Option.bind_eq_some_iff.mp h
    obtain ⟨p₂, hp₂, hmatch⟩ := Option.bind_eq_some_iff.mp hbind
    -- a location without file or line makes the record an error
    cases hu₁ : usable p₁ with
    | none =>
      rw [hu₁] at hmatch
      cases Option.some.inj hmatch
    | some l₁ =>
      cases hu₂ : usable p₂ with
      | none =>
        rw [hu₁, hu₂] at hmatch
        cases Option.some.inj hmatch
      | some l₂ =>
        rw [hu₁, hu₂] at hmatch
        obtain ⟨rfl, hf₁, hl₁⟩ := usable_eq_some_iff.mp hu₁
        obtain ⟨rfl, hf₂, hl₂⟩ := usable_eq_some_iff.mp hu₂
        exact ⟨l₁.1, l₁.2, l₂.1, l₂.2, hp₁, hf₁, hl₁, hp₂, hf₂, hl₂,
          (Except.ok.inj (Option.some.inj hmatch)).symm⟩
  · rintro ⟨file₁, line₁, file₂, line₂, hp₁, hf₁, hl₁, hp₂, hf₂, hl₂, rfl⟩
    rw [record]
    refine Option.bind_eq_some_iff.mpr ⟨_, hp₁, Option.bind_eq_some_iff.mpr ⟨_, hp₂, ?_⟩⟩
    rw [usable_eq_some_iff.mpr ⟨rfl, hf₁, hl₁⟩, usable_eq_some_iff.mpr ⟨rfl, hf₂, hl₂⟩]
    rfl

theorem record_carries_iff {f : ReportedFunction} {le ll : Location} {func₁ loc₁ func₂ loc₂ : Text}
    (he : f.earliest.location = some le) (hl : (f.latest.getD f.earliest).location = some ll)
    (hle : 0 < le.line) (hll : 0 < ll.line) :
    (∃ entry, record f.name func₁ loc₁ func₂ loc₂ = some entry ∧ Carries f entry) ↔
      Agrees le loc₁ ∧ Agrees ll loc₂ := by
  constructor
  · rintro ⟨_, hrecord, r, rfl, _, ⟨le', he', hfile₁, hline₁⟩, ll', hl', hfile₂, hline₂⟩
    obtain rfl := Option.some.inj (he.symm.trans he')
    obtain rfl := Option.some.inj (hl.symm.trans hl')
    obtain ⟨file₁, line₁, file₂, line₂, hp₁, hf₁, _, hp₂, hf₂, _, rfl⟩ :=
      record_eq_some_iff.mp hrecord
    obtain rfl : file₁ = le.filename := hfile₁
    obtain rfl : line₁ = le.line := hline₁
    obtain rfl : file₂ = ll.filename := hfile₂
    obtain rfl : line₂ = ll.line := hline₂
    exact ⟨⟨hf₁, hp₁⟩, hf₂, hp₂⟩
  · rintro ⟨⟨hf₁, hp₁⟩, hf₂, hp₂⟩
    refine ⟨_, record_eq_some_iff.mpr ⟨le.filename, le.line, ll.filename, ll.line, hp₁, hf₁, by omega,
      hp₂, hf₂, by omega, rfl⟩, _, rfl, rfl, ⟨le, he, rfl, rfl⟩, ll, hl, rfl, rfl⟩

/-- The record of a matched block is right exactly when the function reads back. -/
theorem blockRecord_carries_iff {level : Int} {f : ReportedFunction} {m : Regex.Match}
    (hf : Printable f) (hne : f.name ≠ []) (hname : ∀ a ∈ f.name, Regex.word a = true)
    (hm : Matched level f m) :
    (∃ entry, blockRecord m = some entry ∧ Carries f entry) ↔ ReadsBack level f := by
  obtain ⟨rest, hblock⟩ := hm
  obtain ⟨le, hle⟩ := hf.earliest
  have hspace : ∀ a ∈ f.name, Str.isSpace a = false := fun a ha => Regex.isSpace_of_word (hname a ha)
  obtain ⟨before, loc, func, hat, hloc, _⟩ := hblock.earliest
  -- on one line only the white space in front of the bracket counts
  have hsides {i : ReportedInst} (hi : OneLine i) {before loc func : Text}
      (h : ReadsAt BehindBlank (shownLine level f.name i) before loc func) :
      ReadsAt EndsBlank (shownLine level f.name i) before loc func :=
    h.of_sides fun b hb => behindBlank_iff (hi.onLine_shownLine hspace) hb
  have hreads := reads_of_readsAt hle hne hspace (hsides hle.oneLine hat)
  have hname₁ : groupText m 1 = f.name := by rw [groupText, Regex.Match.group, hblock.name]; rfl
  have hloc₃ : groupText m 3 = loc := by rw [groupText, Regex.Match.group, hloc]; rfl
  -- the earliest location is read in both modes
  have hagrees (h : ReadsBack level f) : Agrees le loc :=
    h.earliest le before loc hle.location hreads
  have hearliest (h : Agrees le loc) (l : Location) (before' loc' : Text)
      (hl : f.earliest.location = some l) (hreads' : Reads f.earliest.text l before' loc') :
      Agrees l loc' := by
    obtain rfl := Option.some.inj (hle.location.symm.trans hl)
    rwa [← (hreads.unique hreads').2]
  cases hlatest : f.latest with
  -- one instruction: the phrase is printed and the record repeats the location
  | none =>
    have hrecord : blockRecord m =
        record f.name (groupText m 4) loc (groupText m 4) loc := by
      rw [blockRecord, if_pos (Str.contains_iff_infix.mpr (hblock.single hlatest)), hname₁, hloc₃]
    rw [hrecord, record_carries_iff hle.location (by rw [hlatest]; exact hle.location) hle.line
      hle.line]
    constructor
    · intro h
      refine ⟨hne, hname, hearliest h.1, fun i l le before loc hi => ?_⟩
      rw [hlatest] at hi
      cases hi
    · exact fun h => ⟨hagrees h, hagrees h⟩
  | some i =>
    obtain ⟨l, hl⟩ := hf.latest i hlatest
    obtain ⟨before', loc', func', hat', hloc', _, hphrase⟩ := hblock.latest i hlatest
    have hreads' := reads_of_readsAt hl hne hspace (hsides hl.oneLine hat')
    have hloc₆ : groupText m 6 = loc' := by rw [groupText, Regex.Match.group, hloc']; rfl
    have hlocation : (f.latest.getD f.earliest).location = some l := by
      rw [hlatest]
      exact hl.location
    by_cases hshown : PhraseShown level f before' loc'
    · -- the record takes the earliest location twice
      have hrecord : blockRecord m =
          record f.name (groupText m 4) loc (groupText m 4) loc := by
        rw [blockRecord, if_pos (Str.contains_iff_infix.mpr (hphrase.mpr hshown)), hname₁, hloc₃]
      rw [hrecord, record_carries_iff hle.location hlocation hle.line hl.line]
      constructor
      · intro h
        have hsame := h.1.2.symm.trans h.2.2
        simp only [Option.some.injEq, Prod.mk.injEq, Int.natCast_inj] at hsame
        refine ⟨hne, hname, hearliest h.1, fun i' l' le' b c hi' hl' hle' hr => ?_⟩
        obtain rfl := Option.some.inj (hlatest.symm.trans hi')
        obtain rfl := Option.some.inj (hl.location.symm.trans hl')
        obtain rfl := Option.some.inj (hle.location.symm.trans hle')
        obtain ⟨rfl, rfl⟩ := hreads'.unique hr
        exact .inl ⟨hshown, hsame⟩
      · intro h
        refine ⟨hagrees h, ?_⟩
        rcases h.latest i l le before' loc' hlatest hl.location hle.location hreads' with
          ⟨_, hfile, hline⟩ | ⟨hnot, _⟩
        · rw [Agrees, ← hfile, ← hline]
          exact hagrees h
        · exact absurd hshown hnot
    · have hrecord : blockRecord m =
          record f.name (groupText m 4) loc (groupText m 7) loc' := by
        rw [blockRecord, if_neg (fun h => hshown (hphrase.mp (Str.contains_iff_infix.mp h))), hname₁,
          hloc₃, hloc₆]
      rw [hrecord, record_carries_iff hle.location hlocation hle.line hl.line]
      constructor
      · intro h
        refine ⟨hne, hname, hearliest h.1, fun i' l' le' b c hi' hl' hle' hr => ?_⟩
        obtain rfl := Option.some.inj (hlatest.symm.trans hi')
        obtain rfl := Option.some.inj (hl.location.symm.trans hl')
        obtain rfl := Option.some.inj (hle.location.symm.trans hle')
        obtain ⟨rfl, rfl⟩ := hreads'.unique hr
        exact .inr ⟨hshown, h.2⟩
      · intro h
        refine ⟨hagrees h, ?_⟩
        rcases h.latest i l le before' loc' hlatest hl.location hle.location hreads' with
          ⟨hin, _⟩ | ⟨_, hagree⟩
        · exact absurd hin hshown
        · exact hagree

/-! ## Names -/

theorem parseSingleFunction_ne_multiple {content function : Text}
    {entries : List (Except Text ParsedResult)} :
    parseSingleFunction content function ≠ some (.multiple entries) := by
  have hfinish {o : Option (Except Text ParsedResult)} {f : Except Text ParsedResult → Parsed}
      (hok : ∀ r, f (.ok r) ≠ .multiple entries)
      (herror : ∀ message, f (.error message) ≠ .multiple entries) :
      o.map f ≠ some (.multiple entries) := by
    intro h
    obtain ⟨r, _, hr⟩ := Option.map_eq_some_iff.mp h
    cases r with
    | ok r => exact hok r hr
    | error message => exact herror message hr
  have herror {o : Option Regex.Match} {message : Text} :
      (o.map fun _ => Parsed.error message) ≠ some (.multiple entries) := by
    intro h
    obtain ⟨_, _, hr⟩ := Option.map_eq_some_iff.mp h
    cases hr
  unfold parseSingleFunction
  dsimp only
  split
  · exact herror
  · split
    · exact hfinish nofun nofun
    · split
      · exact herror
      · exact hfinish nofun nofun

/-- A list of records comes from the matches, the count not being one. -/
theorem parse_eq_multiple_iff {filepath text : Text} {entries : List (Except Text ParsedResult)}
    (hne : entries ≠ []) :
    parseDataflowAnalysisOutputFile filepath text = some (.multiple entries) ↔
      (∃ n, functionCount (applyTweaks filepath (Str.universalNewlines text)) = some n ∧ n ≠ 1) ∧
      List.Forall₂ (fun m entry => blockRecord m = some entry)
        (Regex.finditer blockRE (applyTweaks filepath (Str.universalNewlines text))) entries := by
  constructor
  · intro h
    obtain ⟨n, hn, h⟩ := Option.bind_eq_some_iff.mp h
    split at h
    · obtain ⟨m, _, hm⟩ := Option.bind_eq_some_iff.mp h
      exact absurd hm parseSingleFunction_ne_multiple
    next hone =>
      obtain ⟨results, hresults, hmap⟩ := Option.map_eq_some_iff.mp h
      refine ⟨⟨n, hn, hone⟩, mapM_eq_some_iff.mp ?_⟩
      split at hmap
      · cases hmap
      · cases hmap
        exact hresults
  · rintro ⟨⟨n, hn, hone⟩, hentries⟩
    rw [parseDataflowAnalysisOutputFile]
    rw [hn, Option.bind_some, if_neg hone, parseMultipleFunctions, mapM_eq_some_iff.mpr hentries,
      Option.map_some, if_neg]
    rw [List.isEmpty_iff]
    exact hne

/-- Whatever the report, the name of an entry consists of word characters. -/
theorem word_of_blockRecord {content : Text} {m : Regex.Match} {r : ParsedResult}
    (hm : m ∈ Regex.finditer blockRE content) (h : blockRecord m = some (.ok r)) :
    r.function ≠ [] ∧ ∀ a ∈ r.function, Regex.word a = true := by
  obtain ⟨name, _, _, _, hstart, hgroup⟩ :=
    blockStart_of_matches (Regex.finditerFrom_sound hm).1
  have hfunction : r.function = name := by
    have hname : groupText m 1 = name := by rw [groupText, Regex.Match.group, hgroup]; rfl
    rw [← hname]
    rw [blockRecord] at h
    split at h
    all_goals
      obtain ⟨_, _, _, _, _, _, _, _, _, _, rfl⟩ := record_eq_some_iff.mp h
      rfl
  rw [hfunction]
  exact ⟨hstart.nonempty, hstart.name⟩

theorem word_of_roundTrips {filepath : Text} {r : Report} (h : RoundTrips filepath r) :
    ∀ f ∈ r.functions, f.name ≠ [] ∧ ∀ a ∈ f.name, Regex.word a = true := by
  obtain ⟨entries, hparse, hcarries⟩ := h
  intro f hf
  obtain ⟨entry, hentry, x, rfl, hname, _⟩ := forall₂_left hcarries f hf
  obtain ⟨_, hmatches⟩ := (parse_eq_multiple_iff (List.ne_nil_of_mem hentry)).mp hparse
  obtain ⟨m, hm, hrecord⟩ := forall₂_right hmatches _ hentry
  rw [← hname]
  exact word_of_blockRecord hm hrecord

/-! ## The report as a whole -/

open Classical in
/-- The text in front of the count line ends in a line break, and no position of it begins a block. -/
theorem finditer_displayed {r : Report} (hfunctions : ∀ f ∈ r.functions, Displayed f) (hquiet : r.Quiet) :
    List.Forall₂ (Matched r.level)
      (r.functions.filter fun f => WordName f ∧ HasLocations BehindBlank r.level f)
      (Regex.finditer blockRE r.print) := by
  -- no name breaks a line
  have hname (name : Text) (hmem : name ∈ r.breakdown.map Prod.fst ++ r.spans.map Prod.fst ++
      r.otherNames) : '\n' ∉ name := by
    rcases hquiet.names name hmem with h | h
    · obtain ⟨f, hf, rfl⟩ := List.mem_map.mp h
      exact fun h => absurd ((hfunctions f hf).name _ h) (by decide)
    · exact h '\n' (by decide)
  obtain ⟨u, hu, hinert⟩ := levelStatistics_inert (r := r) fun e he =>
    hname _ (List.mem_append_left _ (List.mem_append_left _ (List.mem_map_of_mem he)))
  obtain ⟨v, hv, htail⟩ := countStatistics_inert (r := r)
    (fun s hs => hname _ (List.mem_append_left _ (List.mem_append_right _ (List.mem_map_of_mem hs))))
    (fun n hn => hname _ (List.mem_append_right _ hn))
  -- the report is what comes before the blocks, the blocks, and what comes behind
  have hprint : r.print = (r.trace ++ '\n' :: '=' :: u) ++
      (r.functions.flatMap (ReportedFunction.print r.level) ++ '\n' :: '=' :: v) := by
    rw [Report.print, hu, ← hv]
    simp only [List.append_assoc]
  rw [hprint]
  apply finditerFrom_blocks hfunctions (fun before rest => skips_newline_append htail before rest)
  · apply Skips.append
    · exact skips_trace hquiet.trace []
    · exact skips_newline_append hinert _ _
  · rcases hinert.closed with h | ⟨z, hz⟩
    · cases h
    · intro a ha
      rw [show r.trace ++ '\n' :: '=' :: u = (r.trace ++ '\n' :: z) ++ ['\n'] by rw [hz]; simp,
        List.reverse_append] at ha
      exact (Option.mem_some.mp ha).symm
  · exact Nat.lt_succ_self _

/-- With instructions on one line only the names count. -/
theorem finditer_print {r : Report} (hfunctions : ∀ f ∈ r.functions, Shown f) (hquiet : r.Quiet) :
    List.Forall₂ (Matched r.level) (r.functions.filter fun f => WordName f)
      (Regex.finditer blockRE r.print) := by
  classical
  have hmatched := finditer_displayed (fun f hf => (hfunctions f hf).displayed) hquiet
  rwa [List.filter_congr fun f hf => decide_eq_decide.mpr
    (and_iff_left ((hfunctions f hf).hasLocations r.level fun i hi => hi.behindBlank))] at hmatched

omit [Unicode] in
/-- No carriage return, so reading the file as text leaves it as it is. -/
theorem universalNewlines_print {r : Report} (hlines : ∀ f ∈ r.functions, PrintedEnds f)
    (hnames : ∀ f ∈ r.functions, '\r' ∉ f.name) (hquiet : r.Quiet) :
    Str.universalNewlines r.print = r.print := by
  -- part by part: no carriage return in names, numbers, lines and statistics
  have hname (name : Text) (hmem : name ∈ r.breakdown.map Prod.fst ++ r.spans.map Prod.fst ++
      r.otherNames) : '\r' ∉ name := by
    rcases hquiet.names name hmem with h | h
    · obtain ⟨f, hf, rfl⟩ := List.mem_map.mp h
      exact hnames f hf
    · exact h '\r' (by decide)
  have hnumber (n : Nat) : '\r' ∉ Str.str n := not_mem_str (by decide)
  have hlevel : '\r' ∉ Str.strInt r.level := not_mem_strInt (by decide) (by decide)
  have hline {label n : Text} {rest : String} (hlabel : '\r' ∉ label) (hn : '\r' ∉ n)
      (hrest : '\r' ∉ rest.toList) : '\r' ∉ Report.numberLine label n rest := by
    simp only [Report.numberLine, List.mem_append, not_or]
    exact ⟨⟨⟨hlabel, hn⟩, hrest⟩, by decide⟩
  have hcount {label : Text} {n : Nat} (hlabel : '\r' ∉ label) :
      '\r' ∉ Report.numberLine (label ++ Str.strInt r.level ++ ": ".toList) (Str.str n) "" := by
    apply hline _ (hnumber n) (by decide)
    simp only [List.mem_append, not_or]
    exact ⟨⟨hlabel, hlevel⟩, by decide⟩
  have hinst {f : ReportedFunction} (hf : f ∈ r.functions) {i : ReportedInst} (hi : Printed i) :
      '\r' ∉ instLine r.level f.name i := by
    rw [instLine_eq]
    simp only [List.mem_append, List.mem_cons, not_or]
    exact ⟨hi.text, by decide, by decide, hi.not_mem_bracketed (by decide), by decide,
      not_mem_lineTail (hnames f hf) (by decide) (by decide) (by decide), by decide,
      List.not_mem_nil⟩
  have hprint (f : ReportedFunction) (hf : f ∈ r.functions) : '\r' ∉ f.print r.level := by
    have hlatest : '\r' ∉ f.latestText r.level := by
      unfold ReportedFunction.latestText
      split
      next i hi =>
        rw [List.mem_append, not_or]
        exact ⟨by decide, hinst hf ((hlines f hf).latest i hi)⟩
      next => decide
    rw [ReportedFunction.print_eq, ReportedFunction.block]
    simp only [List.mem_append, List.mem_cons, not_or]
    exact ⟨by decide, hnames f hf, by decide, by decide, by decide, by decide, by decide, by decide,
      hinst hf (hlines f hf).earliest, hlatest⟩
  have hif {p : Prop} [Decidable p] {s : Text} (hs : '\r' ∉ s) : '\r' ∉ if p then s else [] := by
    split
    · exact hs
    · exact List.not_mem_nil
  have hflatMap {α : Type} {g : α → Text} {xs : List α} (h : ∀ x ∈ xs, '\r' ∉ g x) :
      '\r' ∉ xs.flatMap g := fun hmem => by
    obtain ⟨x, hx, hin⟩ := List.mem_flatMap.mp hmem
    exact h x hx hin
  have happend {s t : Text} (hs : '\r' ∉ s) (ht : '\r' ∉ t) : '\r' ∉ s ++ t := by
    rw [List.mem_append, not_or]
    exact ⟨hs, ht⟩
  -- the four parts of the report behind the trace
  have hlevels : '\r' ∉ r.levelStatistics := by
    refine happend (happend (happend (happend (happend (by decide) (hline (by decide) hlevel
      (by decide))) (hcount (by decide))) (hif (happend (hcount (by decide)) (hcount (by decide)))))
      (hif (happend (by decide) (hflatMap fun e he => hline ?_ (hnumber _) (by decide)))))
      (hline (by decide) hlevel (by decide))
    exact happend (happend (by decide) (hname _ (List.mem_append_left _ (List.mem_append_left _
      (List.mem_map_of_mem he))))) (by decide)
  have hcounts : '\r' ∉ r.countStatistics := by
    have hrow {label : Text} (n : Nat) {rest : String} (hlabel : '\r' ∉ label)
        (hrest : '\r' ∉ rest.toList) : '\r' ∉ Report.numberLine label (Str.str n) rest :=
      hline hlabel (hnumber n) hrest
    exact happend (happend (happend (happend (happend (by decide) (hrow _ (by decide) (by decide)))
      (hrow _ (by decide) (by decide))) (hrow _ (by decide) (by decide)))
      (hrow _ (by decide) (by decide))) (hrow _ (by decide) (by decide))
  have hspans : '\r' ∉ r.spanDetails := by
    refine happend (happend (happend (by decide) (hflatMap fun s hs => ?_)) (hflatMap fun n hn => ?_))
      (by decide)
    · have hspan : '\r' ∉ s.1 := hname _ (List.mem_append_left _ (List.mem_append_right _
        (List.mem_map_of_mem hs)))
      exact happend (happend (happend (happend (happend (happend (happend (happend (happend hspan
        (by decide)) (hnumber _)) (by decide)) (hnumber _)) (by decide)) (hnumber _)) (by decide))
        (hnumber _)) (by decide)
    · exact happend (hname n (List.mem_append_right _ hn)) (by decide)
  apply Str.universalNewlines_eq_self
  exact happend (happend (happend (happend hquiet.traceBreaks hlevels) (hflatMap hprint)) hcounts)
    hspans

/-- What is printed in front of the instruction counts. -/
def beforeCount (r : Report) : Text :=
  r.trace ++ r.levelStatistics ++ r.functions.flatMap (ReportedFunction.print r.level)

/-- The instruction counts, up to the line of the number of functions. -/
def countHead (r : Report) : Text :=
  Report.heading "Instruction Count Statistics" ++
    Report.numberLine "Max-level functions (data flow span): ".toList (Str.str r.spanInstructions)
      " instructions" ++
    Report.numberLine "Other visited functions (total): ".toList (Str.str r.otherInstructions)
      " instructions" ++
    Report.numberLine "Total: ".toList (Str.str (r.spanInstructions + r.otherInstructions))
      " instructions"

omit [Unicode] in
theorem print_count (r : Report) : r.print = (beforeCount r ++ countHead r) ++
    (announceLabel ++ ([' '] ++ (Str.str r.functions.length ++ ('\n' ::
      (Report.numberLine "Number of other visited functions: ".toList (Str.str r.otherVisited) "" ++
        r.spanDetails))))) := by
  have hcount : Report.numberLine Report.countLabel (Str.str r.functions.length) "" =
      announceLabel ++ ([' '] ++ (Str.str r.functions.length ++ ['\n'])) := by
    rw [Report.numberLine, show Report.countLabel = announceLabel ++ [' '] from rfl,
      show "".toList = [] from rfl, List.append_nil]
    simp only [List.append_assoc]
  have hstatistics : r.countStatistics = countHead r ++
      (Report.numberLine Report.countLabel (Str.str r.functions.length) "" ++
        Report.numberLine "Number of other visited functions: ".toList (Str.str r.otherVisited) "") := by
    rw [Report.countStatistics, countHead]
    simp only [List.append_assoc]
  rw [Report.print, hstatistics, hcount, beforeCount]
  simp only [List.append_assoc, List.cons_append, List.nil_append]

/-- A report that announces at least one function has a count. -/
theorem announced_print (r : Report) : announced r.print ≠ [] := by
  rw [print_count]
  exact announced_ne_nil (by decide) Nat.toDigits_ne_nil fun _ h => Regex.digit_of_mem_str h

omit [Unicode] in
/-- No label begins in front of the number of functions when none stands in front of the counts. -/
theorem countHead_inert {r : Report} (h : ¬announceLabel <:+: beforeCount r) :
    ∃ z, beforeCount r ++ countHead r = z ++ ['\n'] ∧ ¬announceLabel <:+: z := by
  obtain ⟨body, hbody, hletter⟩ : ∃ body, countHead r = '\n' :: (body ++ ['\n']) ∧ 'N' ∉ body := by
    have hdigits (n : Nat) : 'N' ∉ Str.str n := not_mem_str (by decide)
    refine ⟨'=' :: ("== ".toList ++ "Instruction Count Statistics".toList ++ " ===".toList ++ ['\n']) ++
      (Report.numberLine "Max-level functions (data flow span): ".toList (Str.str r.spanInstructions)
        " instructions" ++ (Report.numberLine "Other visited functions (total): ".toList
          (Str.str r.otherInstructions) " instructions" ++ ("Total: ".toList ++
            (Str.str (r.spanInstructions + r.otherInstructions) ++ " instructions".toList)))), ?_, ?_⟩
    · rw [countHead, heading_eq]
      simp only [Report.numberLine, List.append_assoc, List.cons_append, List.nil_append]
    · simp only [Report.numberLine, List.mem_append, not_or]
      exact ⟨by decide, ⟨⟨⟨by decide, hdigits _⟩, by decide⟩, by decide⟩,
        ⟨⟨⟨by decide, hdigits _⟩, by decide⟩, by decide⟩, by decide, hdigits _, by decide⟩
  refine ⟨beforeCount r ++ '\n' :: body, by rw [hbody]; simp, ?_⟩
  rw [Str.infix_append_cons_iff (by decide)]
  rintro (hin | hin)
  · exact h hin
  · exact hletter (hin.subset (by decide))

/-- With no label in front of it, the number of functions is the announced one. -/
theorem announced_print_eq {r : Report} (h : ¬announceLabel <:+: beforeCount r) :
    announced r.print = Str.str r.functions.length := by
  obtain ⟨z, hz, hlabel⟩ := countHead_inert h
  have hdigits : ∀ c ∈ Str.str r.functions.length, Regex.digit c = true :=
    fun _ hc => Regex.digit_of_mem_str hc
  have hne : Str.str r.functions.length ≠ [] := Nat.toDigits_ne_nil
  have hspace : ∀ a ∈ [' '], Str.isSpace a = true := by decide
  have hlabelled {rest : Text} : labelledDigits (announceLabel ++ ([' '] ++
      (Str.str r.functions.length ++ '\n' :: rest))) = Str.str r.functions.length := by
    have hstop : Regex.digit '\n' = false := by
      rw [Regex.digit, Unicode.digitValue_ascii _ (by decide)]
      rfl
    rw [labelledDigits_label hspace hne hdigits,
      List.takeWhile_cons_of_neg (by rw [hstop]; decide), List.append_nil]
  rw [print_count, hz, announced_skip, announced_label, hlabelled]
  · rw [hlabelled]
    exact hne
  · intro u w heq hw
    exact Str.not_prefix_of_suffix hlabel (by decide) heq hw _

/-- The report reads back exactly when every function does and the announced count is not one. -/
theorem roundTrips_iff {filepath : Text} {r : Report} (htwo : 2 ≤ r.functions.length)
    (hprintable : ∀ f ∈ r.functions, Printable f) (hquiet : r.Quiet)
    (htweaks : applyTweaks filepath r.print = r.print) :
    RoundTrips filepath r ↔
      Str.int 10 (announced r.print) ≠ some 1 ∧ ∀ f ∈ r.functions, ReadsBack r.level f := by
  have hne {entries : List (Except Text ParsedResult)}
      (h : List.Forall₂ Carries r.functions entries) : entries ≠ [] := by
    rintro rfl
    rw [List.forall₂_nil_right_iff.mp h] at htwo
    exact absurd htwo (by decide)
  -- with names of word characters there is one match for each function
  have hmatched (hwords : ∀ f ∈ r.functions, f.name ≠ [] ∧ ∀ a ∈ f.name, Regex.word a = true) :
      applyTweaks filepath (Str.universalNewlines r.print) = r.print ∧
      ((∃ entries, List.Forall₂ (fun m entry => blockRecord m = some entry)
        (Regex.finditer blockRE r.print) entries ∧ List.Forall₂ Carries r.functions entries) ↔
          ∀ f ∈ r.functions, ReadsBack r.level f) := by
    have hfinditer := finditer_print (fun f hf => .of_word (hwords f hf).1 (hwords f hf).2
      (hprintable f hf).oneLine.1 (hprintable f hf).oneLine.2) hquiet
    have hall (f : ReportedFunction) (hf : f ∈ r.functions) : decide (WordName f) = true :=
      decide_eq_true (hwords f hf).2
    rw [List.filter_eq_self.mpr hall] at hfinditer
    refine ⟨?_, exists_forall₂_iff hfinditer fun f hf m hm => ?_⟩
    · rw [universalNewlines_print (fun f hf => ⟨(hprintable f hf).oneLine.1.printed,
        fun i hi => ((hprintable f hf).oneLine.2 i hi).printed⟩)
        (fun f hf => Regex.not_mem_of_word (hwords f hf).2 (by decide) (by decide)) hquiet, htweaks]
    · exact blockRecord_carries_iff (hprintable f hf) (hwords f hf).1 (hwords f hf).2 hm
  constructor
  · intro h
    obtain ⟨hcontent, hrecords⟩ := hmatched (word_of_roundTrips h)
    obtain ⟨entries, hparse, hcarries⟩ := h
    obtain ⟨⟨n, hn, hone⟩, hentries⟩ := (parse_eq_multiple_iff (hne hcarries)).mp hparse
    rw [hcontent] at hn hentries
    rw [functionCount_eq] at hn
    refine ⟨?_, hrecords.mp ⟨entries, hentries, hcarries⟩⟩
    rw [hn]
    exact fun h => hone (Option.some.inj h)
  · rintro ⟨hcount, hreads⟩
    obtain ⟨hcontent, hrecords⟩ := hmatched fun f hf => ⟨(hreads f hf).nonempty, (hreads f hf).name⟩
    obtain ⟨entries, hentries, hcarries⟩ := hrecords.mpr hreads
    obtain ⟨n, hn⟩ := Regex.int_of_digits (announced_print r) (fun _ hc => digit_of_mem_announced hc)
    refine ⟨entries, (parse_eq_multiple_iff (hne hcarries)).mpr ⟨⟨n, ?_, ?_⟩, ?_⟩, hcarries⟩
    · rw [hcontent, functionCount_eq, hn]
    · intro hone
      rw [hone] at hn
      exact hcount hn
    · rw [hcontent]
      exact hentries

end RoundTrip

/-- Two functions of a source file, one of them renamed by the compiler. -/
def clonedReport (first : String) : Report where
  trace := []
  level := 0
  instructions := 2
  arguments := 0
  breakdown := []
  functions :=
    [⟨first.toList, ⟨"  %1 = add i64 %0, 1".toList, some ⟨"a.c".toList, 3, 5, false⟩⟩, none⟩,
     ⟨"bar".toList, ⟨"  %1 = add i64 %0, 2".toList, some ⟨"a.c".toList, 7, 0, true⟩⟩, none⟩]
  spanInstructions := 2
  otherInstructions := 0
  otherVisited := 0
  spans := []
  otherNames := []

theorem printable_cloned {first : String} : ∀ f ∈ (clonedReport first).functions, Printable f := by
  have hfoo : Located ⟨"  %1 = add i64 %0, 1".toList, some ⟨"a.c".toList, 3, 5, false⟩⟩
      ⟨"a.c".toList, 3, 5, false⟩ := ⟨rfl, by decide, by decide, by decide⟩
  have hbar : Located ⟨"  %1 = add i64 %0, 2".toList, some ⟨"a.c".toList, 7, 0, true⟩⟩
      ⟨"a.c".toList, 7, 0, true⟩ := ⟨rfl, by decide, by decide, by decide⟩
  intro f hf
  rcases List.mem_cons.mp hf with rfl | hf
  · exact ⟨⟨_, hfoo⟩, fun i h => by cases h⟩
  · rcases List.mem_singleton.mp hf with rfl
    exact ⟨⟨_, hbar⟩, fun i h => by cases h⟩

theorem quiet_cloned {first : String} : (clonedReport first).Quiet :=
  ⟨show ¬"Earliest:".toList <:+: [] by decide, List.not_mem_nil, fun _ h => by cases h⟩

/-- With `foo` for the first function the report reads back. -/
theorem roundTrips_plain :
    @RoundTrips Unicode.ascii "report.txt".toList (clonedReport "foo") := by
  let _ := Unicode.ascii
  have hreads (line : Nat) (column : Nat) (approx : Bool) (text name : Text) (hplain : '<' ∉ text)
      (hne : name ≠ []) (hname : ∀ a ∈ name, Regex.word a = true)
      (hparse : parseLocation (printedLocation ⟨"a.c".toList, line, column, approx⟩) =
        some (some ("a.c".toList, (line : Int)))) :
      ReadsBack 0 ⟨name, ⟨text, some ⟨"a.c".toList, line, column, approx⟩⟩, none⟩ := by
    refine ⟨hne, hname, fun l before loc hl hr => ?_, fun i l le before loc hi => by cases hi⟩
    obtain rfl := Option.some.inj hl
    rw [hr.of_plain hplain]
    exact ⟨show "a.c".toList ≠ [] by decide, hparse⟩
  refine (roundTrips_iff (by decide) printable_cloned quiet_cloned rfl).mpr
    ⟨by decide +kernel, fun f hf => ?_⟩
  rcases List.mem_cons.mp hf with rfl | hf
  · exact hreads 3 5 false _ _ (by decide) (by decide) (by decide) (by decide)
  · rcases List.mem_singleton.mp hf with rfl
    exact hreads 7 0 true _ _ (by decide) (by decide) (by decide) (by decide)

/-- With `foo.123` it does not: the dot keeps the block pattern from matching. -/
theorem not_roundTrips_dot : (∀ f ∈ (clonedReport "foo.123").functions, Printable f) ∧
    ¬@RoundTrips Unicode.ascii "report.txt".toList (clonedReport "foo.123") := by
  let _ := Unicode.ascii
  refine ⟨printable_cloned, fun h => ?_⟩
  have hword := (word_of_roundTrips h _ List.mem_cons_self).2 '.' (by decide)
  exact absurd hword (by decide)


end IrToAssembly

end LinuxAnalysis
