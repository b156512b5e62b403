import LinuxAnalysis.Lib.Regex

/-!
# ir_to_assembly.py: reading a report
-/

open LinuxAnalysis.Lib

namespace LinuxAnalysis

namespace IrToAssembly

/-- One function of a parsed report. -/
structure ParsedResult where
  function : Text
  earliestFunc : Text
  latestFunc : Text
  earliestFile : Text
  earliestLine : Int
  latestFile : Text
  latestLine : Int
  deriving DecidableEq

/-- What the parser returns: one record, a list of records and errors, or an error alone. -/
inductive Parsed where
  | single (r : ParsedResult)
  | multiple (rs : List (Except Text ParsedResult))
  | error (message : Text)

/-! ## Manual tweaks -/

/-- The replacements made in the reports of some paths, in order. -/
def tweaks (filepath : Text) : List (String × String) :=
  let at_ (paths : List String) (rs : List (String × String)) : List (String × String) :=
    if paths.any fun p => p.toList == filepath then rs else []
  at_ ["kernel-results/GSSD_MIN_TIMEOUT/1.output.txt"] [("gss_fill_context", "gss_pipe_downcall")] ++
  at_ ["kernel-results/NFS_JUKEBOX_RETRY_TIME/18.output.txt"]
    [("nfs3_do_create", "nfs3_proc_mknod"), ("<fs/nfs/nfs3proc.c:40:", "<fs/nfs/nfs3proc.c:320:")] ++
  at_ ["kernel-results/MAX_NR_FOLIOS_PER_FREE/2.output.txt"]
    [("tlb_flush_mmu", "__tlb_batch_free_encoded_pages")] ++
  at_ ["kernel-results/max_service_from_wr/1.output.txt"]
    [("<block/bfq-iosched.c:5095:", "<block/bfq-iosched.c:5094:")] ++
  at_ ["kernel-results/TCP_THIN_LINEAR_RETRIES/1.output.txt"]
    [("<net/ipv4/tcp_timer.c:664:", "<net/ipv4/tcp_timer.c:663:")] ++
  at_ ["kernel-results/TCP_MAX_WSCALE/2.output.txt"]
    [("<net/core/filter.c:12019:", "<net/core/filter.c:12018:")] ++
  at_ ["kernel-results/MAX_SLACK/5.output.txt", "kernel-results/MAX_SLACK/6.output.txt"]
    [("<UNKNOWN>", "<fs/select.c:509:>")] ++
  at_ ["kernel-results/MAX_SLACK/8.output.txt", "kernel-results/MAX_SLACK/9.output.txt"]
    [("<UNKNOWN>", "<fs/select.c:893:>")] ++
  at_ ["kernel-results/NUMA_IMBALANCE_MIN/1.output.txt"]
    [("<UNKNOWN>", "<kernel/sched/fair.c:1427:>")]

def applyTweaks (filepath content : Text) : Text :=
  (tweaks filepath).foldl (fun s r => Str.replace s r.1.toList r.2.toList) content

section Parser

variable [Unicode]

/-! ## Patterns -/

/-- `[^>]` -/
def notClosing (c : Char) : Bool := c != '>'

/-- `\s+(?:\(approx\)\s+)?FUNC=(\S+)`, the name being group `n` -/
def funcRE (n : Nat) : Regex :=
  .cat [.plus true Regex.space,
    .opt (.cat [.lit "(approx)".toList, .plus true Regex.space]),
    .lit "FUNC=".toList, .group n (.plus true Regex.nonSpace)]

/-- `label\s+.*?<([^>]+)>…FUNC=(\S+)` -/
def locatedRE (label : String) : Regex :=
  .cat [.lit label.toList, .plus true Regex.space, .star false Regex.dot, .lit ['<'],
    .group 1 (.plus true notClosing), .lit ['>'], IrToAssembly.funcRE 2]

/-- `label\s+(.*?)…FUNC=(\S+)` -/
def unlocatedRE (label : String) : Regex :=
  .cat [.lit label.toList, .plus true Regex.space, .group 1 (.star false Regex.dot),
    IrToAssembly.funcRE 2]

/-- `\s+(.*?)\s+<([^>]+)>…FUNC=(\S+)`, with groups `n`, `n + 1` and `n + 2` -/
def instRE (n : Nat) : Regex :=
  .cat [.plus true Regex.space, .group n (.star false Regex.dot), .plus true Regex.space, .lit ['<'],
    .group (n + 1) (.plus true notClosing), .lit ['>'], IrToAssembly.funcRE (n + 2)]

def sameInstructionPhrase : Text := "(Earliest and latest are the same instruction)".toList

/-- `^(\w+):\s*\n\s+Earliest:` -/
def blockHeadRE : Regex :=
  .cat [.lineStart, .group 1 (.plus true Regex.word), .lit [':'], .star true Regex.space, .lit ['\n'],
    .plus true Regex.space, .lit "Earliest:".toList]

/-- `.*?\n(?:\s+\(Earliest and latest are the same instruction\)|\s+Latest:…)` -/
def blockTailRE : Regex :=
  .cat [.star false Regex.dot, .lit ['\n'],
    .alt (.cat [.plus true Regex.space, .lit sameInstructionPhrase])
      (.cat [.plus true Regex.space, .lit "Latest:".toList, instRE 5])]

/-- The pattern of a function block. -/
def blockRE : Regex := .cat [blockHeadRE, instRE 2, blockTailRE]

/-- `Number of max-level functions:\s*(\d+)` -/
def countRE : Regex :=
  .cat [.lit "Number of max-level functions:".toList, .star true Regex.space,
    .group 1 (.plus true Regex.digit)]

/-- `Function:\s*(\S+)` -/
def functionRE : Regex :=
  .cat [.lit "Function:".toList, .star true Regex.space, .group 1 (.plus true Regex.nonSpace)]

/-! ## Records -/

/-- `m.group(n)` of a group that took part in the match -/
def groupText (m : Regex.Match) (n : Nat) : Text := (m.group n).getD []

/-- `parse_location`; the outer `none` is `ValueError`. -/
def parseLocation (loc : Text) : Option (Option (Text × Int)) :=
  match Str.rsplitTwice ':' loc with
  | file :: line :: _ => (Str.int 10 line).map fun n => some (file, n)
  | _ => some none

/-- The file and line, unless one of them is missing. -/
def usable (loc : Option (Text × Int)) : Option (Text × Int) :=
  loc.filter fun l => !l.1.isEmpty && l.2 != 0

/-- The record of a function from its two locations. -/
def record (function earliestFunc earliestLocation latestFunc latestLocation : Text) :
    Option (Except Text ParsedResult) := do
  let earliest ← parseLocation earliestLocation
  let latest ← parseLocation latestLocation
  match usable earliest, usable latest with
  | none, _ => return .error ("Could not parse earliest location: ".toList ++ earliestLocation)
  | _, none => return .error ("Could not parse latest location: ".toList ++ latestLocation)
  | some (earliestFile, earliestLine), some (latestFile, latestLine) =>
    return .ok ⟨function, earliestFunc, latestFunc, earliestFile, earliestLine, latestFile, latestLine⟩

/-- `parse_single_function`; `none` is an exception. -/
def parseSingleFunction (content function : Text) : Option Parsed :=
  -- looked for in the whole output, not in the block of the function
  let same := Str.contains sameInstructionPhrase content
  match Regex.search (locatedRE "Earliest:") content with
  | none =>
    -- the second pattern does without a location; when it fails too, so does the assertion
    (Regex.search (unlocatedRE "Earliest:") content).map fun _ =>
      .error "The start IR instruction does not have corresponding source code location".toList
  | some e =>
    let finish (latestFunc latestLocation : Text) : Option Parsed :=
      (record function (groupText e 2) (groupText e 1) latestFunc latestLocation).map fun r =>
        match r with
        | .ok r => .single r
        | .error message => .error message
    if same then finish (groupText e 2) (groupText e 1)
    else
      match Regex.search (locatedRE "Latest:") content with
      | none =>
        (Regex.search (unlocatedRE "Latest:") content).map fun _ =>
          .error "The end IR instruction does not have corresponding source code location".toList
      | some l => finish (groupText l 2) (groupText l 1)

/-- The record of one match of `blockRE`. -/
def blockRecord (m : Regex.Match) : Option (Except Text ParsedResult) :=
  if Str.contains sameInstructionPhrase m.text then
    record (groupText m 1) (groupText m 4) (groupText m 3) (groupText m 4) (groupText m 3)
  else record (groupText m 1) (groupText m 4) (groupText m 3) (groupText m 7) (groupText m 6)

/-- `parse_multiple_functions`; `none` is an exception. -/
def parseMultipleFunctions (content : Text) : Option Parsed :=
  ((Regex.finditer blockRE content).mapM blockRecord).map fun results =>
    if results.isEmpty then .error "Could not parse any function blocks".toList
    else .multiple results

/-- The number of functions that the report names first. -/
def functionCount (content : Text) : Option Int :=
  (Regex.search countRE content).bind fun m => Str.int 10 (groupText m 1)

/-- `parse_dataflow_analysis_output_file` on a file with the given text; `none` is an exception. -/
def parseDataflowAnalysisOutputFile (filepath text : Text) : Option Parsed :=
  let content := applyTweaks filepath (Str.universalNewlines text)
  (functionCount content).bind fun numFunctions =>
    if numFunctions = 1 then
      (Regex.search functionRE content).bind fun m => parseSingleFunction content (groupText m 1)
    else parseMultipleFunctions content

end Parser

end IrToAssembly

end LinuxAnalysis
