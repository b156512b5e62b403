import LinuxAnalysis.Pass.Report

/-!
# The printed report

What `run` prints at its end: the earliest and the latest instruction of each function that holds the
largest level, and the statistics around them.
-/

open LinuxAnalysis.Lib

namespace LinuxAnalysis

/-! ## Instructions and locations -/

/-- `getValueName`, from the text that `print` gives. -/
def getValueName (s : Text) : Text :=
  match Str.splitAt " !dbg !".toList s with
  | none => s
  | some (start, rest) =>
    -- a separator in front goes too, but only one whose blank is not the one found
    let start := if Str.endswith start ", ".toList then start.take (start.length - 2) else start
    start ++ rest.dropWhile fun c => c != '\n'

structure Location where
  filename : Text
  line : Nat
  column : Nat
  approx : Bool
  deriving DecidableEq

/-- The text of a location; `none` is an unknown one. -/
def locationText : Option Location → Text
  | none => " <UNKNOWN>".toList
  | some l =>
    " <".toList ++ l.filename ++ ':' :: Str.str l.line ++
      (if l.column ≠ 0 then ':' :: Str.str l.column else []) ++ ['>'] ++
      (if l.approx then " (approx)".toList else [])

namespace Module

variable (M : Module)

/-- The debug location of an instruction, if it is valid. -/
def validDebugLoc (approx : Bool) (i : InstId) : Option Location :=
  match (M.inst i).debugLoc with
  | some d => if d.line ≠ 0 then some ⟨d.filename, d.line, d.column, approx⟩ else none
  | none => none

/-- `getDebugLoc` before it is printed: the location itself or that of one of the next ten instructions
of the block. -/
def getDebugLoc (cfg : Config) (i : InstId) : Option Location :=
  match M.validDebugLoc false i with
  | some l => some l
  | none =>
    if cfg.approxDebugInfo then
      ((((M.parentInsts i).dropWhile fun j => j ≠ i).drop 1).take 10).findSome? (M.validDebugLoc true)
    else none

end Module

/-! ## The report -/

structure ReportedInst where
  text : Text
  location : Option Location
  deriving DecidableEq

/-- A function with its earliest instruction, and the latest one where that is another. -/
structure ReportedFunction where
  name : Text
  earliest : ReportedInst
  latest : Option ReportedInst
  deriving DecidableEq

/-- The line of an instruction, behind its label; `getFuncLevel` gives its end. -/
def instLine (level : Int) (name : Text) (i : ReportedInst) : Text :=
  i.text ++ locationText i.location ++ " FUNC=".toList ++ name ++ " L=".toList ++ Str.strInt level ++
    ['\n']

def sameInstruction : Text := "(Earliest and latest are the same instruction)".toList

def ReportedFunction.print (level : Int) (f : ReportedFunction) : Text :=
  '\n' :: f.name ++ ":\n  Earliest: ".toList ++ instLine level f.name f.earliest ++
    match f.latest with
    | some latest => "  Latest: ".toList ++ instLine level f.name latest
    | none => "  ".toList ++ sameInstruction ++ ['\n']

/-- The statistics with everything that is printed around the functions. -/
structure Report where
  /-- what is printed before the statistics -/
  trace : Text
  level : Int
  instructions : Nat
  arguments : Nat
  /-- the values of each function, in name order -/
  breakdown : List (Text × Nat)
  functions : List ReportedFunction
  spanInstructions : Nat
  otherInstructions : Nat
  otherVisited : Nat
  /-- block and instruction index of both ends -/
  spans : List (Text × Nat × Nat × Nat × Nat)
  otherNames : List Text

namespace Report

def heading (title : String) : Text := "\n=== ".toList ++ title.toList ++ " ===\n".toList

/-- A label, a number and the rest of the line. -/
def numberLine (label : Text) (n : Text) (rest : String) : Text :=
  label ++ n ++ rest.toList ++ ['\n']

def levelStatistics (r : Report) : Text :=
  let level := Str.strInt r.level
  heading "Maximum Level Statistics" ++
    numberLine "Largest L value: ".toList level "" ++
    numberLine ("Number of instructions with L=".toList ++ level ++ ": ".toList)
      (Str.str r.instructions) "" ++
    (if r.arguments ≠ 0 then
      numberLine ("Number of arguments with L=".toList ++ level ++ ": ".toList)
        (Str.str r.arguments) "" ++
      numberLine ("Total values with L=".toList ++ level ++ ": ".toList)
        (Str.str (r.instructions + r.arguments)) ""
    else []) ++
    (if r.breakdown.length > 1 then
      "\nPer-function breakdown:\n".toList ++
        r.breakdown.flatMap fun e =>
          numberLine ("  ".toList ++ e.1 ++ ": ".toList) (Str.str e.2) " value(s)"
    else []) ++
    numberLine "\nEarliest and latest instructions with L=".toList level " (per function):"

/-- The label of the number of functions. -/
def countLabel : Text := "Number of max-level functions: ".toList

def countStatistics (r : Report) : Text :=
  heading "Instruction Count Statistics" ++
    numberLine "Max-level functions (data flow span): ".toList (Str.str r.spanInstructions)
      " instructions" ++
    numberLine "Other visited functions (total): ".toList (Str.str r.otherInstructions)
      " instructions" ++
    numberLine "Total: ".toList (Str.str (r.spanInstructions + r.otherInstructions))
      " instructions" ++
    numberLine countLabel (Str.str r.functions.length) "" ++
    numberLine "Number of other visited functions: ".toList (Str.str r.otherVisited) ""

def spanDetails (r : Report) : Text :=
  heading "Data Flow Span Details" ++
    (r.spans.flatMap fun s => s.1 ++ ", ".toList ++ Str.str s.2.1 ++ ", ".toList ++
      Str.str s.2.2.1 ++ ", ".toList ++ Str.str s.2.2.2.1 ++ ", ".toList ++ Str.str s.2.2.2.2 ++
      ['\n']) ++
    (r.otherNames.flatMap fun name => name ++ ", full span\n".toList) ++
    heading "Taint Analysis Complete"

def print (r : Report) : Text :=
  r.trace ++ r.levelStatistics ++ r.functions.flatMap (ReportedFunction.print r.level) ++
    r.countStatistics ++ r.spanDetails

end Report

/-- The functions that `run` reports from its final state. -/
def PassState.reportedFunctions (M : Module) (cfg : Config) (s : PassState) :
    List ReportedFunction :=
  let reported (i : InstId) : ReportedInst :=
    ⟨getValueName (M.inst i).text, M.getDebugLoc cfg i⟩
  (s.reportedRanges M).map fun (f, earliest, latest) =>
    ⟨M.functionName f, reported earliest, if latest ≠ earliest then some (reported latest) else none⟩

end LinuxAnalysis
