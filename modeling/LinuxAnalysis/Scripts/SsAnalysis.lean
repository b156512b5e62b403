import LinuxAnalysis.Scripts.SeedPipeline
import LinuxAnalysis.Scripts.SsOptions

/-!
# The input file, read by the shell and by Python

`ss-analysis.sh` sources the input file, `ss-analysis-parallel.py` takes it apart by itself.  Both start
the pass with what they have read.
-/

open LinuxAnalysis.Lib

namespace LinuxAnalysis

/-! ## 1. The variables that both read -/

namespace SsAnalysis

open AnalysisParallel

/-- `vars` are the variables of the shell and `assigned` those of Python, `before` being the ones that
the shell began with. -/
def SameVariables (before vars : ShellVars) (assigned : List (Text × Text)) : Prop :=
  ∀ key, vars key = (assigned.lookup key).getD (before key)

theorem isSpace_plainChar {c : Char} (h : plainChar c = true) : Str.isSpace c = false := by
  unfold plainChar at h
  rw [Bool.or_eq_true, Bool.or_eq_true, Bool.and_eq_true] at h
  rcases h with (halnum | hsign) | ⟨_, hspace⟩
  · exact Str.isSpace_of_isAlphanum halnum
  · have hall : ∀ c ∈ "_-+./,:@%".toList, Str.isSpace c = false := by decide
    exact hall c (List.contains_iff_mem.mp hsign)
  · rwa [Bool.not_eq_true'] at hspace

theorem plain_of_plainChar {s : Text} (h : s.all plainChar = true) : Plain s := by
  intro c hc
  have hplain := List.all_eq_true.mp h c hc
  refine ⟨isSpace_plainChar hplain, ?_, ?_, ?_⟩
  · rintro rfl
    exact absurd hplain (by decide)
  · rintro rfl
    exact absurd hplain (by decide)
  · rintro rfl
    exact absurd hplain (by decide)

theorem plain_variableName {s : Text} (h : isVariableName s = true) : Plain s ∧ '=' ∉ s := by
  have hall := isVariableName_chars h
  have hharmless : Harmless s := by
    refine harmless_of_forall (fun c hc => ?_) (by decide) hall
    obtain halnum | hunder := Bool.or_eq_true_iff.mp hc
    · exact Str.isSpace_of_isAlphanum halnum
    · rw [eq_of_beq hunder]
      decide
  exact ⟨hharmless.plain, fun hmem => absurd (hall _ hmem) (by decide)⟩

/-- Both take the same value from a word. -/
theorem parseValue_of_wordValue {word value : Text} (h : wordValue word = some value) :
    (∀ c ∈ word, Str.isSpace c = false) ∧ parseValue word = value := by
  obtain ⟨hall, hword⟩ := eq_of_wordValue h
  have hplain := plain_of_plainChar hall
  rcases hword with rfl | rfl
  · exact ⟨fun c hc => (hplain c hc).1, parseValue_plain hplain⟩
  · refine ⟨fun c hc => ?_, parseValue_quoted hplain⟩
    rcases List.mem_cons.mp hc with rfl | hc
    · decide
    · rcases List.mem_append.mp hc with hc | hc
      · exact (hplain c hc).1
      · rw [List.mem_singleton.mp hc]
        decide

theorem strip_comment (line : Text) : ∃ rest, Str.strip ('#' :: line) = '#' :: rest := by
  have hdrop : ('#' :: line).dropWhile Str.isSpace = '#' :: line :=
    List.dropWhile_cons_of_neg (by decide)
  rw [Str.strip, Str.stripBy, hdrop, List.rdropWhile, List.reverse_cons, List.dropWhile_append]
  split
  · exact ⟨[], by rfl⟩
  · exact ⟨_, List.reverse_concat⟩

/-- A line that the shell takes means the same to both. -/
theorem SameVariables.line {before vars vars' : ShellVars} {assigned : List (Text × Text)}
    (h : SameVariables before vars assigned) {line : Text} (hline : sourceLine vars line = some vars') :
    SameVariables before vars' (parseLine assigned line) := by
  unfold sourceLine at hline
  split at hline
  next hskip =>
    cases hline
    cases line with
    | nil => exact h
    | cons c cs =>
      have hc : ('#' == c && true) = true := hskip
      rw [Bool.and_true] at hc
      obtain ⟨rest, hrest⟩ := strip_comment cs
      rw [← eq_of_beq hc, parseLine, hrest]
      exact h
  next =>
    split at hline
    next name word hsplit =>
      split at hline
      next hname =>
        obtain ⟨value, hvalue, rfl⟩ := Option.map_eq_some_iff.mp hline
        obtain ⟨hplain, hequals⟩ := plain_variableName (isVariableName_of_isAssignable hname)
        obtain ⟨hspace, hparse⟩ := parseValue_of_wordValue hvalue
        have hassigned : parseLine assigned line = (name, value) :: assigned := by
          rw [Str.eq_of_splitOnce hsplit, ← hparse]
          exact parseLine_assignment assigned hplain hequals hspace
        rw [hassigned]
        intro key
        rw [List.lookup_cons]
        by_cases hkey : key = name
        · rw [hkey, ShellVars.assign_self, beq_self_eq_true]
          rfl
        · rw [ShellVars.assign_of_ne hkey, beq_false_of_ne hkey]
          exact h key
      next => cases hline
    next => cases hline

theorem SameVariables.lines {before vars vars' : ShellVars} {assigned : List (Text × Text)}
    (h : SameVariables before vars assigned) {lines : List Text}
    (hlines : lines.foldlM sourceLine vars = some vars') :
    SameVariables before vars' (lines.foldl parseLine assigned) := by
  induction lines generalizing vars assigned with
  | nil =>
    cases hlines
    exact h
  | cons line lines ih =>
    obtain ⟨next, hline, hrest⟩ := Option.bind_eq_some_iff.mp hlines
    exact ih (h.line hline) hrest

/-- A file that the shell takes gives both the same variables. -/
theorem sameVariables_sourceText {vars vars' : ShellVars} {text : Text} (hreturn : '\r' ∉ text)
    (h : sourceText text vars = some vars') :
    SameVariables vars vars' (parseInputFile (Str.fileLines text)) := by
  have hstart : SameVariables vars vars [] := fun key => rfl
  have hlines := hstart.lines h
  -- the empty piece behind the last line assigns nothing
  have hlast : parseInputFile (Str.fileLines text) = (text.splitOn '\n').foldl parseLine [] := by
    rw [parseInputFile, Str.fileLines, Str.universalNewlines_eq_self hreturn]
    split
    next hempty =>
      have hsplit := List.dropLast_append_getLast? [] (Option.mem_def.mpr hempty)
      rw [← hsplit, List.dropLast_concat, List.foldl_append]
      rfl
    next => rfl
  rw [hlast]
  exact hlines

/-! ## 2. The two drivers -/

/-- The variable that an option assigns. -/
def assigned : CliOption → Option Text
  | .linuxWllvm _ => some "LINUX_WLLVM_ARG".toList
  | .vmlinuxBc _ => some "VMLINUX_BC_ARG".toList
  | .plugin _ => some "PLUGIN_ARG".toList
  | .interproc => some "INTERPROC".toList
  | .noUpwardInterproc => some "UPWARD_INTERPROC".toList
  | .indirectCall => some "INDIRECT_CALL".toList
  | .timeout _ => some "TIMEOUT_ARG".toList
  | .vmlinux _ | .modulesDir _ | .tunable _ | .dataset _ => none

def optionVariables : List Text :=
  ["LINUX_WLLVM_ARG".toList, "VMLINUX_BC_ARG".toList, "PLUGIN_ARG".toList, "INTERPROC".toList,
    "UPWARD_INTERPROC".toList, "INDIRECT_CALL".toList, "TIMEOUT_ARG".toList]

theorem mem_optionVariables {o : CliOption} {x : Text} (h : assigned o = some x) :
    x ∈ optionVariables := by
  cases o with
  | linuxWllvm _ | vmlinuxBc _ | plugin _ | interproc | noUpwardInterproc | indirectCall | timeout _ =>
    cases h
    decide
  | vmlinux _ | modulesDir _ | tunable _ | dataset _ => cases h

theorem apply_of_ne {o : CliOption} {x : Text} (h : assigned o ≠ some x) (s : ShellVars) :
    apply o s x = s x := by
  cases o with
  | linuxWllvm _ | vmlinuxBc _ | plugin _ | interproc | noUpwardInterproc | indirectCall | timeout _ =>
    refine ShellVars.assign_of_ne fun hx => h ?_
    rw [hx]
    rfl
  | vmlinux _ | modulesDir _ | tunable _ | dataset _ => rfl

theorem options_of_ne {x : Text} (hx : ∀ o, assigned o ≠ some x) (os : List CliOption)
    (s : ShellVars) : os.foldl (fun s o => apply o s) s x = s x := by
  induction os generalizing s with
  | nil => rfl
  | cons o os ih => rw [List.foldl_cons, ih, apply_of_ne (hx o)]

/-- A variable that one option alone assigns, and always the same value. -/
theorem options_flag {o : CliOption} {name value : Text} (ho : apply o = ShellVars.assign name value)
    (honly : ∀ o', assigned o' = some name → o' = o) (os : List CliOption) (s : ShellVars) :
    os.foldl (fun s o => apply o s) s name = if o ∈ os then value else s name := by
  induction os generalizing s with
  | nil => rfl
  | cons o' os ih =>
    rw [List.foldl_cons, ih]
    by_cases heq : o' = o
    · rw [heq, ho, ShellVars.assign_self, ite_self, if_pos List.mem_cons_self]
    · rw [apply_of_ne fun h => heq (honly o' h)]
      have hmem : o ∈ o' :: os ↔ o ∈ os := List.mem_cons.trans (or_iff_right (Ne.symm heq))
      simp only [hmem]

/-- The variables of the script when it sources the input file. -/
def start (host : Host) (os : List CliOption) (input : Text) : ShellVars :=
  (setPaths host.repoRoot (os.foldl (fun s o => apply o s) (defaults host.env))).assign
    "INPUT".toList input

theorem start_of_not_mem {host : Host} {os : List CliOption} {input x : Text}
    (hx : x ∉ ["LINUX_WLLVM".toList, "VMLINUX_BC".toList, "PLUGIN".toList, "INPUT".toList]) :
    start host os input x = os.foldl (fun s o => apply o s) (defaults host.env) x := by
  simp only [List.mem_cons, List.not_mem_nil, or_false, not_or] at hx
  rw [start, ShellVars.assign_of_ne hx.2.2.2, setPaths, ShellVars.assign_of_ne hx.2.2.1,
    ShellVars.assign_of_ne hx.2.1, ShellVars.assign_of_ne hx.1]

/-- Such a variable is still as the options have left it when the input file is sourced. -/
theorem start_flag {o : CliOption} {name value : Text} (ho : apply o = ShellVars.assign name value)
    (honly : ∀ o', assigned o' = some name → o' = o)
    (hpath : name ∉ ["LINUX_WLLVM".toList, "VMLINUX_BC".toList, "PLUGIN".toList, "INPUT".toList])
    (host : Host) (os : List CliOption) (input : Text) :
    start host os input name = if o ∈ os then value else defaults host.env name := by
  rw [start_of_not_mem hpath, options_flag ho honly]

/-- The three switches. -/
theorem start_switches (host : Host) (os : List CliOption) (input : Text) :
    start host os input "INTERPROC".toList = switch (decide (.interproc ∉ os)) ∧
    start host os input "INDIRECT_CALL".toList = switch (decide (.indirectCall ∉ os)) ∧
    start host os input "UPWARD_INTERPROC".toList = switch (decide (.noUpwardInterproc ∈ os)) := by
  have hinterproc : ∀ o, assigned o = some "INTERPROC".toList → o = .interproc := by
    intro o ho
    cases o with
    | interproc => rfl
    | _ => simp [assigned] at ho
  have hindirect : ∀ o, assigned o = some "INDIRECT_CALL".toList → o = .indirectCall := by
    intro o ho
    cases o with
    | indirectCall => rfl
    | _ => simp [assigned] at ho
  have hupward : ∀ o, assigned o = some "UPWARD_INTERPROC".toList → o = .noUpwardInterproc := by
    intro o ho
    cases o with
    | noUpwardInterproc => rfl
    | _ => simp [assigned] at ho
  refine ⟨?_, ?_, ?_⟩
  · rw [start_flag rfl hinterproc (by decide)]
    by_cases h : .interproc ∈ os
    · simp [h, switch]
    · simp [h, switch, defaults, ShellVars.assign]
  · rw [start_flag rfl hindirect (by decide)]
    by_cases h : .indirectCall ∈ os
    · simp [h, switch]
    · simp [h, switch, defaults, ShellVars.assign]
  · rw [start_flag rfl hupward (by decide)]
    by_cases h : .noUpwardInterproc ∈ os
    · simp [h, switch]
    · simp [h, switch, defaults, ShellVars.assign]

/-- The parameters of the pass that the input file is for. -/
def seedKeys : List Text :=
  ["FUNCTION_NAME".toList, "SOURCE_OP".toList, "CONSTANT_VALUE".toList, "OCCURENCE".toList]

def switchKeys : List Text :=
  ["INTERPROC".toList, "INDIRECT_CALL".toList, "UPWARD_INTERPROC".toList]

/-- The script starts with the seed parameters of its environment. -/
theorem start_seed {host : Host} {os : List CliOption} {input key : Text} (hkey : key ∈ seedKeys) :
    start host os input key = host.env key := by
  have hone {key : Text} (hne : ∀ o, assigned o ≠ some key)
      (hpath : key ∉ ["LINUX_WLLVM".toList, "VMLINUX_BC".toList, "PLUGIN".toList, "INPUT".toList])
      (hdefault : defaults host.env key = host.env key) : start host os input key = host.env key := by
    rw [start_of_not_mem hpath, options_of_ne hne, hdefault]
  have hassigned : ∀ key ∈ seedKeys, ∀ o, assigned o ≠ some key := by
    have hdisjoint : ∀ key ∈ seedKeys, key ∉ optionVariables := by decide
    exact fun key hkey o ho => hdisjoint key hkey (mem_optionVariables ho)
  simp only [seedKeys, List.mem_cons, List.not_mem_nil, or_false] at hkey
  rcases hkey with rfl | rfl | rfl | rfl
  · exact hone (hassigned _ (by decide)) (by decide) rfl
  · exact hone (hassigned _ (by decide)) (by decide) rfl
  · exact hone (hassigned _ (by decide)) (by decide) rfl
  · exact hone (hassigned _ (by decide)) (by decide) rfl

/-- Past its checks, the script comes down to its input file. -/
theorem main_cases (host : Host) {os : List CliOption} (hos : ∀ o ∈ os, o.stage1 = true)
    {input : Text} (hinput : Str.startswith input "--".toList = false) :
    (∃ status, main host (os.flatMap CliOption.words ++ [input]) = .exited status) ∨
      main host (os.flatMap CliOption.words ++ [input]) =
        (sourceText (host.read input) (start host os input)).elim .beyond
          fun vars => .runs (optCommand vars) := by
  rw [main, parse_options hos hinput]
  dsimp only
  split
  · exact .inl ⟨1, rfl⟩
  · split
    · exact .inl ⟨1, rfl⟩
    · split
      · exact .inl ⟨1, rfl⟩
      · split
        · exact .inl ⟨1, rfl⟩
        · right
          split
          next hvars =>
            have hbeyond : sourceText (host.read input) (start host os input) = none := hvars
            rw [hbeyond]
            rfl
          next vars hvars =>
            have hsourced : sourceText (host.read input) (start host os input) = some vars := hvars
            rw [hsourced]
            rfl

theorem main_runs {host : Host} {os : List CliOption} (hos : ∀ o ∈ os, o.stage1 = true)
    {input : Text} (hinput : Str.startswith input "--".toList = false) {cmd : OptCommand}
    (h : main host (os.flatMap CliOption.words ++ [input]) = .runs cmd) :
    ∃ vars, sourceText (host.read input) (start host os input) = some vars ∧
      cmd = optCommand vars := by
  rcases main_cases host hos hinput with ⟨status, hexit⟩ | hmain
  · rw [hexit] at h
    cases h
  · rw [hmain] at h
    cases hvars : sourceText (host.read input) (start host os input) with
    | none =>
      rw [hvars] at h
      cases h
    | some vars =>
      rw [hvars] at h
      cases h
      exact ⟨vars, rfl, rfl⟩

/-- The argument of the pass, read by the shell and by Python. -/
theorem passArgs_sourced {host : Host} {os : List CliOption} {input : Text} {vars : ShellVars}
    (hvars : sourceText (host.read input) (start host os input) = some vars)
    (hreturn : '\r' ∉ host.read input)
    (hswitches : ∀ key ∈ switchKeys,
      (parseInputFile (Str.fileLines (host.read input))).lookup key = none)
    (hseed : ∀ key ∈ seedKeys,
      (parseInputFile (Str.fileLines (host.read input))).lookup key = none → host.env key = [])
    (kernelDir plugin cwd : Text) (timeout : Option Nat) :
    passArgs vars = AnalysisParallel.passArgs
      (mainConfig kernelDir plugin cwd (decide (.interproc ∉ os))
        (decide (.noUpwardInterproc ∈ os)) (decide (.indirectCall ∉ os)) timeout)
      (parseInputFile (Str.fileLines (host.read input))) := by
  have hsame := sameVariables_sourceText hreturn hvars
  -- what the file assigns is read alike, and what it does not assign is empty for both
  have hparameter (key : Text) (hkey : key ∈ seedKeys) : vars key =
      ((parseInputFile (Str.fileLines (host.read input))).lookup key).getD [] := by
    rw [hsame key, start_seed hkey]
    cases hlookup : (parseInputFile (Str.fileLines (host.read input))).lookup key with
    | none => rw [hseed key hkey hlookup]
    | some value => rfl
  have hswitch (key : Text) (hkey : key ∈ switchKeys) : vars key = start host os input key := by
    rw [hsame key, hswitches key hkey]
    rfl
  obtain ⟨hinterproc, hindirect, hupward⟩ := start_switches host os input
  unfold passArgs
  rw [hparameter "FUNCTION_NAME".toList (by decide), hparameter "SOURCE_OP".toList (by decide),
    hparameter "CONSTANT_VALUE".toList (by decide), hparameter "OCCURENCE".toList (by decide),
    hswitch "INTERPROC".toList (by decide), hswitch "INDIRECT_CALL".toList (by decide),
    hswitch "UPWARD_INTERPROC".toList (by decide), hinterproc, hindirect, hupward]
  rfl

/-- **One analysis, two drivers.**  Where an input file consists of assignments of plain words,
leaves the switches alone and takes no parameter from the environment, `ss-analysis.sh` starts the
pass with the argument that `ss-analysis-parallel.py` gives it under the same switches. -/
theorem drivers_agree (host : Host) (os : List CliOption) (hos : ∀ o ∈ os, o.stage1 = true)
    (input : Text) (hinput : Str.startswith input "--".toList = false) (cmd : OptCommand)
    (hmain : main host (os.flatMap CliOption.words ++ [input]) = .runs cmd)
    (hreturn : '\r' ∉ host.read input)
    (hswitches : ∀ key ∈ switchKeys,
      (parseInputFile (Str.fileLines (host.read input))).lookup key = none)
    (hseed : ∀ key ∈ seedKeys,
      (parseInputFile (Str.fileLines (host.read input))).lookup key = none → host.env key = [])
    (inputFile : Path) (kernelDir plugin cwd : Text) (timeout : Option Nat) :
    "-passes=".toList ++ cmd.passes ∈ optCmd inputFile
      (mainConfig kernelDir plugin cwd (decide (.interproc ∉ os))
        (decide (.noUpwardInterproc ∈ os)) (decide (.indirectCall ∉ os)) timeout)
      (parseInputFile (Str.fileLines (host.read input))) := by
  obtain ⟨vars, hvars, rfl⟩ := main_runs hos hinput hmain
  have hargs := passArgs_sourced hvars hreturn hswitches hseed kernelDir plugin cwd timeout
  have hpasses : "-passes=".toList ++ (optCommand vars).passes =
      "-passes=taint-tracker<".toList ++ AnalysisParallel.passArgs
        (mainConfig kernelDir plugin cwd (decide (.interproc ∉ os))
          (decide (.noUpwardInterproc ∈ os)) (decide (.indirectCall ∉ os)) timeout)
        (parseInputFile (Str.fileLines (host.read input))) ++ ['>'] := by
    rw [optCommand, hargs]
    rfl
  rw [hpasses, optCmd]
  simp

/-- A host with everything in place, and an input file with a comment. -/
def seedHost : Host where
  env := fun _ => []
  repoRoot := "/repo".toList
  isFile := fun _ => true
  hasOpt := true
  read := fun _ =>
    "# seed\nFUNCTION_NAME=f\nSOURCE_OP=\"icmp\"\nCONSTANT_VALUE=5\nOCCURENCE=1\n".toList

theorem drivers_agree_seed :
    "-passes=taint-tracker<f;icmp;5;false;true;false;true;1;true>".toList ∈
      optCmd (.parse "1.input.txt".toList)
        (mainConfig "/linux".toList "/plugin.so".toList "/".toList false false true none)
        (parseInputFile (Str.fileLines (seedHost.read []))) :=
  drivers_agree seedHost [.interproc, .vmlinuxBc "v.bc".toList] (by decide) "1.input.txt".toList rfl
    { timeout := none
      plugin := "/repo/passes/build/libTaintTrackerPass.so".toList
      passes := "taint-tracker<f;icmp;5;false;true;false;true;1;true>".toList
      bitcode := "v.bc".toList }
    (by rfl) (by decide) (by decide) (by decide) _ _ _ _ _

/-! ## 3. A seed and the shell -/

theorem all_plainChar_digits {ds : Text} (h : IsDecimal ds) : ds.all plainChar = true := by
  apply List.all_eq_true.mpr
  intro c hc
  apply plainChar_of_nameChar
  rw [Char.isAlphanum, h.2 c hc, Bool.or_true, Bool.true_or]

theorem all_plainChar_decimal {s : Text} {n : Int} (h : DecimalText s n) :
    s.all plainChar = true := by
  cases h with
  | digits hds => exact all_plainChar_digits hds
  | minus hds =>
    rw [List.all_cons, all_plainChar_digits hds]
    decide

theorem all_plainChar_name {s : Text} (h : ∀ c ∈ s, isNameChar c = true) :
    s.all plainChar = true := by
  apply List.all_eq_true.mpr
  intro c hc
  have hname := h c hc
  rw [isNameChar, Bool.or_eq_true] at hname
  rcases hname with hchar | hdot
  · exact plainChar_of_nameChar hchar
  · rw [eq_of_beq hdot]
    decide

theorem all_plainChar_word [Unicode] {s : Text} (h : ∀ c ∈ s, Regex.word c = true) :
    s.all plainChar = true := by
  apply List.all_eq_true.mpr
  intro c hc
  have hword := h c hc
  by_cases hascii : c.toNat < 128
  · rw [Regex.word_ascii hascii] at hword
    exact plainChar_of_nameChar hword
  · rw [plainChar, Regex.isSpace_of_word hword, decide_eq_true (Nat.le_of_not_lt hascii)]
    exact Bool.or_true _

/-- The assignments that are written for a seed. -/
def written [Unicode] (s : SeedInput) : List (Text × Text) := [
  ("SOURCE_FILE".toList, s.sourceFile),
  ("FUNCTION_NAME".toList, s.function),
  ("SOURCE_OP".toList, doubleQuote :: (s.opcode ++ [doubleQuote])),
  ("CONSTANT_VALUE".toList, s.value),
  ("OCCURENCE".toList, Str.str s.occurrence)]

theorem text_eq_written [Unicode] (s : SeedInput) :
    s.text = Str.unlines ((written s).map assignmentLine) := rfl

/-- The shell takes them all. -/
theorem canAssign_written [Unicode] (s : SeedInput) (hfile : s.sourceFile.all plainChar = true) :
    ∀ a ∈ written s, CanAssign a := by
  have hplain {name word : Text} (hname : isAssignable name = true)
      (hword : word.all plainChar = true) : CanAssign (name, word) := by
    refine ⟨hname, ?_⟩
    rw [wordValue_plain hword]
    rfl
  have hopcode : CanAssign ("SOURCE_OP".toList, doubleQuote :: (s.opcode ++ [doubleQuote])) := by
    refine ⟨?_, ?_⟩
    · show isAssignable "SOURCE_OP".toList = true
      decide
    · rw [doubleQuote, wordValue_quoted (all_plainChar_word s.opcode_word)]
      rfl
  simp only [written, List.forall_mem_cons, List.not_mem_nil, false_implies, implies_true, and_true]
  exact ⟨hplain (by decide) hfile, hplain (by decide) (all_plainChar_name s.function_name.2),
    hopcode, hplain (by decide) (all_plainChar_decimal s.value_decimal),
    hplain (by decide) (all_plainChar_digits (isDecimal_str s.occurrence))⟩

theorem lookup_written [Unicode] (s : SeedInput) :
    (∀ key ∈ switchKeys, (parseInputFile (Str.fileLines s.text)).lookup key = none) ∧
      ∀ key ∈ seedKeys, (parseInputFile (Str.fileLines s.text)).lookup key ≠ none := by
  rw [s.parseInputFile_text]
  simp only [switchKeys, seedKeys, List.forall_mem_cons, List.not_mem_nil, false_implies,
    implies_true, and_true]
  exact ⟨⟨rfl, rfl, rfl⟩, Option.some_ne_none _, Option.some_ne_none _, Option.some_ne_none _,
    Option.some_ne_none _⟩

/-- The configuration of the pass for a seed and the options of the script. -/
def seedConfig [Unicode] (s : SeedInput) (os : List CliOption) : LinuxAnalysis.Config where
  functionName := s.function
  targetOpcode := s.opcode
  constantToTrack := s.constant
  interprocMode := decide (.interproc ∈ os)
  indirectCallMode := decide (.indirectCall ∈ os)
  upwardInterprocMode := !decide (.noUpwardInterproc ∈ os)
  occurrenceIndex := s.occurrence
  approxDebugInfo := true

/-- What the plugin reads off the argument. -/
theorem parsePassName_sourced [Unicode] [IntegerParsing] (s : SeedInput)
    (hfile : s.sourceFile.all plainChar = true) {host : Host} {os : List CliOption} {input : Text}
    (hread : host.read input = s.text) {vars : ShellVars}
    (hvars : sourceText (host.read input) (start host os input) = some vars) :
    parsePassName (optCommand vars).passes =
      some { config := seedConfig s os, debug := false } := by
  obtain ⟨hswitches, hseed⟩ := lookup_written s
  have hreturn := return_not_mem_assignments (canAssign_written s hfile)
  rw [← text_eq_written, ← hread] at hreturn
  rw [← hread] at hswitches hseed
  have hargs := passArgs_sourced hvars hreturn hswitches
    (fun key hkey hnone => absurd hnone (hseed key hkey)) [] [] [] none
  rw [hread, s.passArgs_eq] at hargs
  have hharmless := s.harmless_params (decide (.interproc ∉ os)) (decide (.noUpwardInterproc ∈ os))
    (decide (.indirectCall ∉ os))
  have hne : s.params (decide (.interproc ∉ os)) (decide (.noUpwardInterproc ∈ os))
    (decide (.indirectCall ∉ os)) ≠ [] := List.cons_ne_nil _ _
  show parsePassName ("taint-tracker<".toList ++ passArgs vars ++ ['>']) = _
  rw [hargs, parsePassName_join hne fun p hp => (hharmless p hp).semicolon_not_mem,
    s.parseParams_params]
  simp only [decide_not, Bool.not_not, seedConfig]

/-- Past its checks, the script sources what was written and starts the pass. -/
theorem main_written [Unicode] (s : SeedInput) (hfile : s.sourceFile.all plainChar = true)
    {host : Host} {os : List CliOption} (hos : ∀ o ∈ os, o.stage1 = true) {input : Text}
    (hinput : Str.startswith input "--".toList = false) (hread : host.read input = s.text)
    (hpassed : ∀ status, main host (os.flatMap CliOption.words ++ [input]) ≠ .exited status) :
    ∃ vars, sourceText (host.read input) (start host os input) = some vars ∧
      main host (os.flatMap CliOption.words ++ [input]) = .runs (optCommand vars) := by
  rcases main_cases host hos hinput with ⟨status, hexit⟩ | hmain
  · exact absurd hexit (hpassed status)
  · obtain ⟨vars, hvars⟩ := Option.isSome_iff_exists.mp
      (isSome_sourceText (canAssign_written s hfile) (start host os input))
    rw [← text_eq_written, ← hread] at hvars
    rw [hvars] at hmain
    exact ⟨vars, hvars, hmain⟩

/-- **Seed parameters survive the shell.**  When `ss-analysis.sh` gets past its checks on an input
file that was written for a seed, it starts the pass, and the plugin reads exactly the parameters of
the seed and the switches given to the script off its argument. -/
theorem seedParameters_sourced [Unicode] [IntegerParsing] (s : SeedInput)
    (hfile : s.sourceFile.all plainChar = true) (host : Host) (os : List CliOption)
    (hos : ∀ o ∈ os, o.stage1 = true) (input : Text)
    (hinput : Str.startswith input "--".toList = false) (hread : host.read input = s.text)
    (hpassed : ∀ status, main host (os.flatMap CliOption.words ++ [input]) ≠ .exited status) :
    ∃ cmd, main host (os.flatMap CliOption.words ++ [input]) = .runs cmd ∧
      parsePassName cmd.passes = some { config := seedConfig s os, debug := false } := by
  obtain ⟨vars, hvars, hmain⟩ := main_written s hfile hos hinput hread hpassed
  exact ⟨optCommand vars, hmain, parsePassName_sourced s hfile hread hvars⟩

/-- The host with what was written for the comparison. -/
def comparisonHost : Host :=
  { seedHost with read := fun _ => @SeedInput.text Unicode.ascii comparisonInput }

theorem seedParameters_sourced_comparison :
    ∃ (_ : IntegerParsing) (cmd : OptCommand),
      main comparisonHost ["--vmlinux-bc".toList, "v.bc".toList, "--interproc".toList,
        "1.input.txt".toList] = .runs cmd ∧
      (parsePassName cmd.passes).map (fun a => (a.config.functionName, a.config.targetOpcode,
        a.config.constantToTrack, a.config.occurrenceIndex, a.config.interprocMode)) =
          some ("blk_mq_poll.part.0".toList, "icmp".toList, -5, 2, true) := by
  let _ := Unicode.ascii
  let _ := IntegerParsing.decimal
  have hpassed : ∀ status, main comparisonHost ["--vmlinux-bc".toList, "v.bc".toList,
      "--interproc".toList, "1.input.txt".toList] ≠ .exited status := by
    intro status h
    have hruns : ∃ cmd, main comparisonHost ["--vmlinux-bc".toList, "v.bc".toList,
        "--interproc".toList, "1.input.txt".toList] = .runs cmd := ⟨_, rfl⟩
    obtain ⟨cmd, hcmd⟩ := hruns
    rw [h] at hcmd
    cases hcmd
  obtain ⟨cmd, hmain, hparse⟩ := seedParameters_sourced comparisonInput (by decide) comparisonHost
    [.vmlinuxBc "v.bc".toList, .interproc] (by decide) "1.input.txt".toList rfl rfl hpassed
  refine ⟨IntegerParsing.decimal, cmd, hmain, ?_⟩
  rw [hparse]
  rfl

end SsAnalysis

end LinuxAnalysis
