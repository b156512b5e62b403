import LinuxAnalysis.Lib.Dict
import LinuxAnalysis.Lib.Regex
import Mathlib.Data.List.Sort

/-!
# ir_to_assembly.py: symbol tables, line tables and listings

The outputs of `nm`, `readelf --debug-dump=decodedline` and `objdump -d -l -S` are texts, read line by
line as the script reads them.
-/

open LinuxAnalysis.Lib

namespace LinuxAnalysis

namespace IrToAssembly

/-- `if x:` for a value that is `None` or a text. -/
def present (x : Option Text) : Option Text := x.filter fun s => !s.isEmpty

def normalizePath (path : Text) : Text := path.dropWhile fun c => c == '.' || c == '/'

/-! ## nm -/

structure NmRow where
  addr : Text
  symbolType : Text
  name : Text
  deriving DecidableEq

def nmRow (line : Text) : Option NmRow :=
  match Str.split line with
  | addr :: symbolType :: name :: _ => some ⟨addr, symbolType, name⟩
  | _ => none

def nmRows (nm : Text) : List NmRow := (Str.splitlines nm).filterMap nmRow

/-- The name itself, or the name with a suffix that the compiler added. -/
def namesFunction (function symbol : Text) : Bool :=
  symbol == function || Str.startswith symbol (function ++ ['.'])

/-- The first row for a function. -/
def findSymbol (nm function : Text) : Option NmRow :=
  (nmRows nm).find? fun row => namesFunction function row.name

/-- Only text symbols are functions. -/
def NmRow.isText (row : NmRow) : Bool := row.symbolType == ['T'] || row.symbolType == ['t']

section Tables

variable [Unicode]

def NmRow.addrInt (row : NmRow) : Option Int := Str.int 16 row.addr

def bestBelow (minAddr : Int) (best : Option NmRow) (row : NmRow) : Option NmRow :=
  if row.isText then
    match row.addrInt with
    | none => best
    | some addr =>
      if addr < minAddr then
        match best.bind NmRow.addrInt with
        | none => some row
        | some bestAddr => if bestAddr < addr then some row else best
      else best
  else best

/-- `find_best_base_address_below_span`; an address that is no number is an exception, caught there. -/
def findBestBaseAddressBelowSpan (nm minAddr : Text) : Option NmRow :=
  match Str.int 16 minAddr with
  | none => none
  | some minAddr => (nmRows nm).foldl (bestBelow minAddr) none

/-! ## readelf -/

structure LineTableState where
  currentDir : Option Text
  addresses : List Text

/-- The current section header admits the source file. -/
def dirMatches (sourceFile : Text) (currentDir : Option Text) : Bool :=
  match present currentDir with
  | none => true
  | some dir =>
    Str.contains (normalizePath sourceFile) (normalizePath dir) ||
      Str.contains (Str.basename sourceFile) dir

def lineTableLine (sourceFile : Text) (lineNumber : Int) (s : LineTableState) (line : Text) :
    LineTableState :=
  if Str.endswith line [':'] && Str.contains ['/'] line then
    { s with currentDir := some (line.rdropWhile (· == ':')) }
  else if Str.contains (Str.basename sourceFile) line then
    match Str.split line with
    | fileName :: lineNum :: parts =>
      -- the first part that is an address decides, since the other tests do not look at it
      match Str.int 10 lineNum, parts.find? fun part => Str.startswith part ['0', 'x'] with
      | some n, some part =>
        if n = lineNumber ∧ fileName = Str.basename sourceFile ∧ dirMatches sourceFile s.currentDir then
          { s with addresses := s.addresses ++ [part.drop 2] }
        else s
      | _, _ => s
    | _ => s
  else s

/-- The addresses that the line table gives for a source line. -/
def lineTableAddresses (readelf sourceFile : Text) (lineNumber : Int) : List Text :=
  ((Str.splitlines readelf).foldl (lineTableLine sourceFile lineNumber) ⟨none, []⟩).addresses

/-- `find_address_for_line_using_readelf` -/
def findAddressForLineUsingReadelf (readelf sourceFile : Text) (lineNumber : Int) : Option Text :=
  (lineTableAddresses readelf sourceFile lineNumber).head?

/-- `function_ranges`: the last row of a name gives its address. -/
def functionRanges (nm : Text) : Dict Text Int :=
  (nmRows nm).foldl (fun d row =>
    match row.isText, row.addrInt with
    | true, some addr => d.set row.name addr
    | _, _ => d) []

/-- The function of the greatest address that is not above `addr`. -/
def containingFunction (sortedFuncs : List (Text × Int)) (addr : Int) : Option Text :=
  ((sortedFuncs.takeWhile fun f => f.2 ≤ addr).getLast?).map Prod.fst

def addCandidate (sortedFuncs : List (Text × Int)) (found : Dict Text (List Text)) (addr : Text) :
    Dict Text (List Text) :=
  match (Str.int 16 addr).bind (containingFunction sortedFuncs) with
  | none => found
  | some f => found.set f ((found.lookup f).getD [] ++ [addr])

/-- `find_function_for_source_line`: the function, its base address and the addresses in it. -/
def findFunctionForSourceLine (nm readelf sourceFile : Text) (lineNumber : Int) :
    Option (Text × Text × List Text) :=
  let ranges := functionRanges nm
  let sortedFuncs := ranges.insertionSort fun f g => f.2 ≤ g.2
  let found := (lineTableAddresses readelf sourceFile lineNumber).foldl (addCandidate sortedFuncs) []
  (Dict.firstMax (fun f => ((found.lookup f).getD []).length) (found.map Prod.fst)).map fun f =>
    (f, (Str.hex ((ranges.lookup f).getD 0)).drop 2, (found.lookup f).getD [])

/-! ## objdump -/

/-- `^([^:]+):(\d+)` -/
def sourceRE : Regex :=
  .cat [.textStart, .group 1 (.plus true (· != ':')), .lit [':'], .group 2 (.plus true Regex.digit)]

/-- `^\s*([0-9a-f]+):\s+` -/
def addressRE : Regex :=
  .cat [.textStart, .star true Regex.space, .group 1 (.plus true Str.isHexDigit), .lit [':'],
    .plus true Regex.space]

/-- An instruction of a listing with the source line above it. -/
structure Attribution where
  file : Text
  line : Int
  addr : Text
  deriving DecidableEq

structure ListingState where
  current : Option (Text × Int)
  rows : List Attribution

def listingLine (s : ListingState) (line : Text) : Option ListingState :=
  match Regex.matchStart sourceRE line with
  | some m =>
    (Str.int 10 ((m.group 2).getD [])).map fun n => { s with current := some ((m.group 1).getD [], n) }
  | none =>
    match Regex.matchStart addressRE line, s.current with
    | some m, some (file, currentLine) =>
      if currentLine ≠ 0 then
        some { s with rows := s.rows ++ [⟨file, currentLine, (m.group 1).getD []⟩] }
      else some s
    | _, _ => some s

/-- The instructions of a listing that have a source line; `none` is an exception of `int`. -/
def attributions (listing : Text) : Option (List Attribution) :=
  ((Str.splitlines listing).foldlM listingLine ⟨none, []⟩).map ListingState.rows

/-- The paths agree up to leading directories of one of them. -/
def fileMatches (currentFile sourceFile : Text) : Bool :=
  Str.endswith (normalizePath currentFile) (normalizePath sourceFile) ||
    Str.endswith (normalizePath sourceFile) (normalizePath currentFile)

def Attribution.isAt (sourceFile : Text) (lineNumber : Int) (a : Attribution) : Bool :=
  fileMatches a.file sourceFile && a.line == lineNumber

/-- The addresses of the instructions of one source line, in the order of the listing. -/
def lineAddresses (rows : List Attribution) (sourceFile : Text) (lineNumber : Int) : List Text :=
  (rows.filter (Attribution.isAt sourceFile lineNumber)).map Attribution.addr

/-- `try_nearby_lines_objdump`, on a listing that has been read. -/
def tryNearbyLinesObjdump (rows : List Attribution) (sourceFile : Text) (targetLine : Int)
    (searchRange : Nat) : Option (Int × List Text) :=
  let offsets := (List.range searchRange).flatMap fun i : Nat =>
    [targetLine - (i + 1 : Int), targetLine + (i + 1 : Int)]
  (offsets.filter fun l => 0 < l).findSome? fun l =>
    let addresses := lineAddresses rows sourceFile l
    if addresses.isEmpty then none else some (l, addresses)

end Tables

end IrToAssembly

end LinuxAnalysis
