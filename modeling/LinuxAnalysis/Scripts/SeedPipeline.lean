import LinuxAnalysis.Lib.Fields
import LinuxAnalysis.Pass.Plugin
import LinuxAnalysis.Scripts.AnalysisParallel
import LinuxAnalysis.Scripts.Locate

/-!
# From the input file to the parameters of the pass

`write_input` writes one file for each changed instruction.  `process_input_file` reads it, joins the
values with semicolons and starts `opt`, and the plugin takes the parameters apart again.
-/

open LinuxAnalysis.Lib

namespace LinuxAnalysis

namespace AnalysisParallel

/-! ## Writing the file -/

def assignment (a : Text × Text) : Text := a.1 ++ '=' :: a.2

/-- The text that `write_input` writes. -/
def writeInput (sourceFile function opcode value : Text) (occurrence : Nat) : Text :=
  Str.unlines ([
    ("SOURCE_FILE".toList, sourceFile),
    ("FUNCTION_NAME".toList, function),
    ("SOURCE_OP".toList, doubleQuote :: (opcode ++ [doubleQuote])),
    ("CONSTANT_VALUE".toList, value),
    ("OCCURENCE".toList, Str.str occurrence)].map assignment)

/-- `'true' if not args.no_… else 'false'` -/
def switch (off : Bool) : Text := if off then "false".toList else "true".toList

/-- The configuration that `main` builds. -/
def mainConfig (kernelDir plugin cwd : Text) (noInterproc noUpwardInterproc noIndirectCall : Bool)
    (timeout : Option Nat) : AnalysisParallel.Config where
  kernelDir := kernelDir
  plugin := plugin
  interproc := switch noInterproc
  upwardInterproc := switch noUpwardInterproc
  indirectCall := switch noIndirectCall
  cwd := cwd
  timeout := timeout

/-! ## Reading the file -/

/-- No white space, comment sign or quotes. -/
def Plain (s : Text) : Prop :=
  ∀ c ∈ s, Str.isSpace c = false ∧ c ≠ '#' ∧ c ≠ doubleQuote ∧ c ≠ singleQuote

instance (s : Text) : Decidable (Plain s) :=
  inferInstanceAs (Decidable (∀ c ∈ s, Str.isSpace c = false ∧ c ≠ '#' ∧ c ≠ doubleQuote ∧
    c ≠ singleQuote))

theorem Plain.hash_not_mem {s : Text} (h : Plain s) : '#' ∉ s := fun hmem => (h '#' hmem).2.1 rfl

theorem parseValue_plain {s : Text} (h : Plain s) : parseValue s = s := by
  rw [parseValue, Str.splitOnce_eq_none h.hash_not_mem]
  dsimp only
  rw [Str.strip_eq_self fun c hc => (h c hc).1,
    Str.stripBy_eq_self fun c hc => beq_false_of_ne (h c hc).2.2.1,
    Str.stripBy_eq_self fun c hc => beq_false_of_ne (h c hc).2.2.2]

theorem parseValue_quoted {s : Text} (h : Plain s) :
    parseValue (doubleQuote :: (s ++ [doubleQuote])) = s := by
  have hhash : '#' ∉ doubleQuote :: (s ++ [doubleQuote]) := by
    intro hmem
    rcases List.mem_cons.mp hmem with hquote | hmem
    · exact absurd hquote (by decide)
    · rcases List.mem_append.mp hmem with hmem | hquote
      · exact h.hash_not_mem hmem
      · exact absurd (List.mem_singleton.mp hquote) (by decide)
  have hspace : ∀ c ∈ doubleQuote :: (s ++ [doubleQuote]), Str.isSpace c = false := by
    intro c hc
    rcases List.mem_cons.mp hc with rfl | hc
    · decide
    · rcases List.mem_append.mp hc with hc | hc
      · exact (h c hc).1
      · rw [List.mem_singleton.mp hc]
        decide
  rw [parseValue, Str.splitOnce_eq_none hhash]
  dsimp only
  rw [Str.strip_eq_self hspace,
    Str.stripBy_quoted (p := (· == doubleQuote)) (beq_self_eq_true doubleQuote)
      fun c hc => beq_false_of_ne (h c hc).2.2.1,
    Str.stripBy_eq_self fun c hc => beq_false_of_ne (h c hc).2.2.2]

/-- A line that assigns a value without white space. -/
theorem parseLine_assignment {key value : Text} (vars : List (Text × Text)) (hkey : Plain key)
    (hequals : '=' ∉ key) (hvalue : ∀ c ∈ value, Str.isSpace c = false) :
    parseLine vars (assignment (key, value)) = (key, parseValue value) :: vars := by
  have hspace : ∀ c ∈ key ++ '=' :: value, Str.isSpace c = false := by
    intro c hc
    rcases List.mem_append.mp hc with hc | hc
    · exact (hkey c hc).1
    · rcases List.mem_cons.mp hc with rfl | hc
      · decide
      · exact hvalue c hc
  have hcomment : Str.startswith (key ++ '=' :: value) ['#'] = false := by
    cases key with
    | nil => rfl
    | cons c key =>
      have hc : c ≠ '#' := (hkey c List.mem_cons_self).2.1
      show ('#' == c && true) = false
      rw [beq_false_of_ne hc.symm, Bool.false_and]
  have hempty : (key ++ '=' :: value).isEmpty = false := by
    cases key <;> rfl
  rw [assignment, parseLine, Str.strip_eq_self hspace, hcomment, hempty, Bool.or_false,
    if_neg Bool.false_ne_true, Str.splitOnce_append hequals]

/-- A file of assignments; the newest one stands first. -/
theorem parseInputFile_assignments (assignments : List (Text × Text))
    (h : ∀ a ∈ assignments, (Plain a.1 ∧ '=' ∉ a.1) ∧ ∀ c ∈ a.2, Str.isSpace c = false) :
    parseInputFile (Str.fileLines (Str.unlines (assignments.map assignment))) =
      (assignments.map fun a => (a.1, parseValue a.2)).reverse := by
  have hlines : ∀ line ∈ assignments.map assignment, '\n' ∉ line ∧ '\r' ∉ line := by
    intro line hline
    obtain ⟨a, ha, rfl⟩ := List.mem_map.mp hline
    have hspace : ∀ c ∈ a.1 ++ '=' :: a.2, Str.isSpace c = false := by
      intro c hc
      rcases List.mem_append.mp hc with hc | hc
      · exact ((h a ha).1.1 c hc).1
      · rcases List.mem_cons.mp hc with rfl | hc
        · decide
        · exact (h a ha).2 c hc
    exact ⟨fun hmem => absurd (hspace _ hmem) (by decide),
      fun hmem => absurd (hspace _ hmem) (by decide)⟩
  rw [Str.fileLines_unlines hlines]
  clear hlines
  induction assignments using List.reverseRecOn with
  | nil => rfl
  | append_singleton assignments a ih =>
    obtain ⟨hkey, hvalue⟩ := h a (by simp)
    have ih' := ih fun a ha => h a (by simp [ha])
    rw [parseInputFile] at ih' ⊢
    rw [List.map_append, List.foldl_append, ih', List.map_singleton, List.foldl_cons,
      List.foldl_nil, parseLine_assignment _ hkey.1 hkey.2 hvalue, List.map_append,
      List.reverse_append]
    rfl

/-! ## The parameters -/

/-- What is known of a changed instruction: a path without white space, comment sign, quotes or `=`, a
name of the characters that `locate` reads, a word, a constant in decimal notation. -/
structure SeedInput [Unicode] where
  sourceFile : Text
  function : Text
  opcode : Text
  value : Text
  constant : Int
  occurrence : Nat
  sourceFile_plain : Plain sourceFile ∧ '=' ∉ sourceFile
  function_name : function ≠ [] ∧ ∀ c ∈ function, isNameChar c = true
  opcode_word : ∀ c ∈ opcode, Regex.word c = true
  value_decimal : DecimalText value constant
  constant_bounds : -2 ^ 63 ≤ constant ∧ constant < 2 ^ 63
  occurrence_bounds : 1 ≤ occurrence ∧ occurrence < 2 ^ 32

/-- The characters with a meaning to one of the readers. -/
def signs : List Char := ['#', doubleQuote, singleQuote, ';', ',', '(', ')']

/-- No white space and no sign. -/
def Harmless (s : Text) : Prop := ∀ c ∈ s, Str.isSpace c = false ∧ c ∉ signs

instance (s : Text) : Decidable (Harmless s) :=
  inferInstanceAs (Decidable (∀ c ∈ s, Str.isSpace c = false ∧ c ∉ signs))

theorem Harmless.plain {s : Text} (h : Harmless s) : Plain s := by
  intro c hc
  obtain ⟨hspace, hsigns⟩ := h c hc
  refine ⟨hspace, ?_, ?_, ?_⟩
  · rintro rfl
    exact hsigns (by decide)
  · rintro rfl
    exact hsigns (by decide)
  · rintro rfl
    exact hsigns (by decide)

theorem Harmless.semicolon_not_mem {s : Text} (h : Harmless s) : ';' ∉ s :=
  fun hmem => (h ';' hmem).2 (by decide)

theorem harmless_of_forall {p : Char → Bool} (hspace : ∀ c, p c = true → Str.isSpace c = false)
    (hsigns : ∀ c ∈ signs, p c = false) {s : Text} (hs : ∀ c ∈ s, p c = true) : Harmless s := by
  intro c hc
  refine ⟨hspace c (hs c hc), fun hsign => ?_⟩
  have hfalse := hsigns c hsign
  rw [hs c hc] at hfalse
  cases hfalse

theorem harmless_switch (off : Bool) : Harmless (switch off) := by
  cases off <;> decide

theorem mem_intercalate {sep c : Char} {params : List Text} (h : c ∈ [sep].intercalate params) :
    c = sep ∨ ∃ p ∈ params, c ∈ p := by
  induction params with
  | nil => cases h
  | cons p params ih =>
    cases params with
    | nil => exact .inr ⟨p, List.mem_cons_self, by simpa using h⟩
    | cons q params =>
      rw [List.intercalate_cons_of_ne_nil (List.cons_ne_nil q params)] at h
      rcases List.mem_append.mp h with h | h
      · rcases List.mem_append.mp h with h | h
        · exact .inr ⟨p, List.mem_cons_self, h⟩
        · exact .inl (List.mem_singleton.mp h)
      · rcases ih h with hsep | ⟨r, hr, hc⟩
        · exact .inl hsep
        · exact .inr ⟨r, List.mem_cons_of_mem p hr, hc⟩

namespace SeedInput

variable [Unicode]

theorem harmless_word {s : Text} (hs : ∀ c ∈ s, Regex.word c = true) : Harmless s := by
  refine harmless_of_forall (fun c hc => Regex.isSpace_of_word hc) (fun c hc => ?_) hs
  have hall : ∀ c ∈ signs, c.toNat < 128 ∧ (c.isAlphanum || c == '_') = false := by decide
  exact Regex.word_eq_false (hall c hc).1 (hall c hc).2

omit [Unicode] in
theorem harmless_name {s : Text} (hs : ∀ c ∈ s, isNameChar c = true) : Harmless s := by
  refine harmless_of_forall (fun c hc => ?_) (by decide) hs
  rw [isNameChar, Bool.or_eq_true, Bool.or_eq_true] at hc
  rcases hc with (hc | hc) | hc
  · exact Str.isSpace_of_isAlphanum hc
  · rw [eq_of_beq hc]
    decide
  · rw [eq_of_beq hc]
    decide

omit [Unicode] in
theorem isSpace_of_isDigit {c : Char} (h : c.isDigit = true) : Str.isSpace c = false :=
  Str.isSpace_of_isAlphanum (by rw [Char.isAlphanum, h, Bool.or_true])

omit [Unicode] in
theorem harmless_isDecimal {ds : Text} (h : IsDecimal ds) : Harmless ds :=
  harmless_of_forall (fun _ => isSpace_of_isDigit) (by decide) h.2

omit [Unicode] in
theorem harmless_decimalText {s : Text} {n : Int} (h : DecimalText s n) : s ≠ [] ∧ Harmless s := by
  cases h with
  | digits hds => exact ⟨hds.1, harmless_isDecimal hds⟩
  | minus hds =>
    refine ⟨by simp, fun c hc => ?_⟩
    rcases List.mem_cons.mp hc with rfl | hc
    · decide
    · exact harmless_isDecimal hds c hc

variable (s : SeedInput)

def text : Text := writeInput s.sourceFile s.function s.opcode s.value s.occurrence

/-- The variables that are read from what was written. -/
theorem parseInputFile_text :
    parseInputFile (Str.fileLines s.text) =
      [("OCCURENCE".toList, Str.str s.occurrence), ("CONSTANT_VALUE".toList, s.value),
        ("SOURCE_OP".toList, s.opcode), ("FUNCTION_NAME".toList, s.function),
        ("SOURCE_FILE".toList, s.sourceFile)] := by
  have hfunction := (harmless_name s.function_name.2).plain
  have hopcode := (harmless_word s.opcode_word).plain
  have hvalue := (harmless_decimalText s.value_decimal).2.plain
  have hoccurrence := (harmless_isDecimal (isDecimal_str s.occurrence)).plain
  -- the opcode alone is written in quotes
  have hquoted : ∀ c ∈ doubleQuote :: (s.opcode ++ [doubleQuote]), Str.isSpace c = false := by
    intro c hc
    rcases List.mem_cons.mp hc with rfl | hc
    · decide
    · rcases List.mem_append.mp hc with hc | hc
      · exact (hopcode c hc).1
      · rw [List.mem_singleton.mp hc]
        decide
  have hkeys : ∀ key ∈ ["SOURCE_FILE".toList, "FUNCTION_NAME".toList, "SOURCE_OP".toList,
      "CONSTANT_VALUE".toList, "OCCURENCE".toList], Harmless key ∧ '=' ∉ key := by decide
  rw [text, writeInput, parseInputFile_assignments]
  · simp only [List.map_cons, List.map_nil, List.reverse_cons, List.reverse_nil, List.nil_append,
      List.cons_append, parseValue_plain s.sourceFile_plain.1, parseValue_plain hfunction,
      parseValue_quoted hopcode, parseValue_plain hvalue, parseValue_plain hoccurrence]
  · simp only [List.forall_mem_cons, List.not_mem_nil, false_implies, implies_true, and_true]
      at hkeys ⊢
    obtain ⟨h₁, h₂, h₃, h₄, h₅⟩ := hkeys
    exact ⟨⟨⟨h₁.1.plain, h₁.2⟩, fun c hc => (s.sourceFile_plain.1 c hc).1⟩,
      ⟨⟨h₂.1.plain, h₂.2⟩, fun c hc => (hfunction c hc).1⟩,
      ⟨⟨h₃.1.plain, h₃.2⟩, List.forall_mem_cons.mp hquoted⟩,
      ⟨⟨h₄.1.plain, h₄.2⟩, fun c hc => (hvalue c hc).1⟩,
      ⟨⟨h₅.1.plain, h₅.2⟩, fun c hc => (hoccurrence c hc).1⟩⟩

variable (kernelDir plugin cwd : Text) (noInterproc noUpwardInterproc noIndirectCall : Bool)
  (timeout : Option Nat)

/-- The parameters in their order. -/
def params : List Text :=
  [s.function, s.opcode, s.value, "false".toList, switch noInterproc, switch noIndirectCall,
    switch noUpwardInterproc, Str.str s.occurrence, "true".toList]

theorem passArgs_eq :
    passArgs (mainConfig kernelDir plugin cwd noInterproc noUpwardInterproc noIndirectCall timeout)
        (parseInputFile (Str.fileLines s.text)) =
      [';'].intercalate (s.params noInterproc noUpwardInterproc noIndirectCall) := by
  rw [parseInputFile_text]
  rfl

theorem harmless_params :
    ∀ p ∈ s.params noInterproc noUpwardInterproc noIndirectCall, Harmless p := by
  simp only [params, List.forall_mem_cons, List.not_mem_nil, false_implies, implies_true, and_true]
  exact ⟨harmless_name s.function_name.2, harmless_word s.opcode_word,
    (harmless_decimalText s.value_decimal).2, by decide, harmless_switch _, harmless_switch _,
    harmless_switch _, harmless_isDecimal (isDecimal_str _), by decide⟩

omit [Unicode] in
theorem flag_switch (params : List Text) (k : Nat) (off : Bool) (h : params[k]? = some (switch off)) :
    flag params k = !off := by
  rw [flag, param, h]
  cases off <;> rfl

omit [Unicode] in
theorem param_of_ne_nil {params : List Text} {k : Nat} {p : Text} (h : params[k]? = some p)
    (hne : p ≠ []) : param params k = some p := by
  rw [param, h, Option.filter_some, if_pos]
  rw [List.isEmpty_eq_false_iff.mpr hne]
  rfl

omit [Unicode] in
theorem param_getD {params : List Text} {k : Nat} {p : Text} (h : params[k]? = some p) :
    (param params k).getD [] = p := by
  cases p with
  | nil =>
    rw [param, h]
    rfl
  | cons c p => rw [param_of_ne_nil h (List.cons_ne_nil c p), Option.getD_some]

variable [IntegerParsing]

/-- What the plugin makes of them. -/
theorem parseParams_params :
    parseParams (s.params noInterproc noUpwardInterproc noIndirectCall) =
      { config := {
          functionName := s.function
          targetOpcode := s.opcode
          constantToTrack := s.constant
          interprocMode := !noInterproc
          indirectCallMode := !noIndirectCall
          upwardInterprocMode := !noUpwardInterproc
          occurrenceIndex := s.occurrence
          approxDebugInfo := true }
        debug := false } := by
  have hconstant := IntegerParsing.getInt64_decimal s.value s.constant s.value_decimal
    s.constant_bounds.1 s.constant_bounds.2
  have hdigits : Nat.ofDigitChars 10 (Str.str s.occurrence) 0 = s.occurrence :=
    Nat.ofDigitChars_ten_toDigits
  have hoccurrence := IntegerParsing.getUnsigned_decimal (Str.str s.occurrence)
    (isDecimal_str s.occurrence) (by rw [hdigits]; exact s.occurrence_bounds.2)
  rw [hdigits] at hoccurrence
  rw [parseParams, param_of_ne_nil (k := 0) rfl s.function_name.1, param_getD (k := 1) rfl,
    param_of_ne_nil (k := 2) rfl (harmless_decimalText s.value_decimal).1,
    flag_switch _ 3 true rfl, flag_switch _ 4 noInterproc rfl, flag_switch _ 5 noIndirectCall rfl,
    flag_switch _ 6 noUpwardInterproc rfl, param_of_ne_nil (k := 7) rfl (isDecimal_str _).1,
    flag_switch _ 8 false rfl, Option.bind_some, Option.bind_some, hconstant, hoccurrence]
  rfl

end SeedInput

/-- **Seed parameters survive.**  The command that is run for an input file written from a function name,
an opcode, a constant and an occurrence names the pass with an argument that is one element of the
pipeline, and the plugin reads exactly these parameters and the switches of the script off it. -/
theorem seedParameters_survive [Unicode] [IntegerParsing] (s : SeedInput) (inputFile : Path)
    (kernelDir plugin cwd : Text) (noInterproc noUpwardInterproc noIndirectCall : Bool)
    (timeout : Option Nat) :
    ∃ name, "-passes=".toList ++ name ∈ optCmd inputFile
        (mainConfig kernelDir plugin cwd noInterproc noUpwardInterproc noIndirectCall timeout)
        (parseInputFile (Str.fileLines s.text)) ∧
      (∀ c ∈ name, c ∉ [',', '(', ')']) ∧
      parsePassName name = some {
        config := {
          functionName := s.function
          targetOpcode := s.opcode
          constantToTrack := s.constant
          interprocMode := !noInterproc
          indirectCallMode := !noIndirectCall
          upwardInterprocMode := !noUpwardInterproc
          occurrenceIndex := s.occurrence
          approxDebugInfo := true }
        debug := false } := by
  have hharmless := s.harmless_params noInterproc noUpwardInterproc noIndirectCall
  have hne : s.params noInterproc noUpwardInterproc noIndirectCall ≠ [] := List.cons_ne_nil _ _
  refine ⟨"taint-tracker<".toList ++
    [';'].intercalate (s.params noInterproc noUpwardInterproc noIndirectCall) ++ ['>'], ?_, ?_, ?_⟩
  · rw [optCmd, s.passArgs_eq]
    simp
  -- the signs that structure a pipeline occur in no parameter
  · have hsigns {c : Char} (hc : c ∈ [',', '(', ')']) : c ∈ signs := by
      have hall : ∀ c ∈ [',', '(', ')'], c ∈ signs := by decide
      exact hall c hc
    intro c hc hsign
    rcases List.mem_append.mp hc with hc | hc
    · rcases List.mem_append.mp hc with hc | hc
      · have hall : ∀ c ∈ "taint-tracker<".toList, c ∉ [',', '(', ')'] := by decide
        exact hall c hc hsign
      · rcases mem_intercalate hc with rfl | ⟨p, hp, hc⟩
        · exact absurd hsign (by decide)
        · exact (hharmless p hp c hc).2 (hsigns hsign)
    · rw [List.mem_singleton.mp hc] at hsign
      exact absurd hsign (by decide)
  · rw [parsePassName_join hne fun p hp => (hharmless p hp).semicolon_not_mem,
      s.parseParams_params]

/-- The second comparison with -5 in a function. -/
def comparisonInput : @SeedInput Unicode.ascii :=
  let _ := Unicode.ascii
  { sourceFile := "block/blk-mq.c".toList
    function := "blk_mq_poll.part.0".toList
    opcode := "icmp".toList
    value := "-5".toList
    constant := -5
    occurrence := 2
    sourceFile_plain := by decide
    function_name := by decide
    opcode_word := by decide
    value_decimal := @DecimalText.minus ['5'] (by decide)
    constant_bounds := by decide
    occurrence_bounds := by decide }

theorem seedParameters_survive_comparison :
    ∃ (_ : IntegerParsing) (name : Text), "-passes=".toList ++ name ∈
        optCmd (.parse "T/1.input.txt".toList)
          (mainConfig "linux".toList "libTaintTrackerPass.so".toList "repo".toList false false true none)
          (parseInputFile (Str.fileLines (@SeedInput.text Unicode.ascii comparisonInput))) ∧
      (parsePassName name).map (fun a => (a.config.functionName, a.config.targetOpcode,
        a.config.constantToTrack, a.config.occurrenceIndex)) =
          some ("blk_mq_poll.part.0".toList, "icmp".toList, -5, 2) := by
  let _ := Unicode.ascii
  let _ := IntegerParsing.decimal
  obtain ⟨name, hmem, _, hparse⟩ := seedParameters_survive comparisonInput
    (.parse "T/1.input.txt".toList) "linux".toList "libTaintTrackerPass.so".toList "repo".toList
    false false true none
  refine ⟨IntegerParsing.decimal, name, hmem, ?_⟩
  rw [hparse]
  rfl

end AnalysisParallel

end LinuxAnalysis
