import LinuxAnalysis.Scripts.AddressLookup
import LinuxAnalysis.Scripts.ReportParser

/-!
# ir_to_assembly.py: from a parsed result to an offset entry
-/

open LinuxAnalysis.Lib

namespace LinuxAnalysis

namespace IrToAssembly

/-- A result with status `SUCCESS`. -/
structure SpanResult where
  function : Text
  earliestFile : Text
  earliestLine : Int
  latestFile : Text
  latestLine : Int
  startAddr : Option Text
  endAddr : Option Text
  startSymbol : Option Text
  endSymbol : Option Text
  startOffset : Option Text
  endOffset : Option Text
  deriving DecidableEq

/-- The earliest and the latest location are the same. -/
def ParsedResult.isSingleLine (r : ParsedResult) : Bool :=
  r.earliestFile == r.latestFile && r.earliestLine == r.latestLine &&
    r.earliestFunc == r.latestFunc

section Spans

variable [Unicode]

/-- The two lookups of `process_single_result`. -/
def lookupEnds (c : Caches) (r : ParsedResult) : Address × Address :=
  if r.isSingleLine then
    let range := findAddressRangeForSingleLine c r.earliestFile r.earliestLine r.earliestFunc
    (⟨range.startAddr, range.baseAddress, range.symbolName⟩,
      ⟨range.endAddr, range.baseAddress, range.symbolName⟩)
  else
    (findAddressForLine c r.earliestFile r.earliestLine r.earliestFunc,
      findAddressForLine c r.latestFile r.latestLine r.latestFunc)

/-- `hex(int(addr, 16) - int(base, 16))`; `none` is `ValueError`. -/
def offsetFrom (addr base : Text) : Option Text :=
  (Str.int 16 addr).bind fun a => (Str.int 16 base).map fun b => Str.hex (a - b)

/-- The offset of one end when it has an address and a base. -/
def endOffset (e : Address) : Option (Option Text) :=
  match present e.addr, present e.baseAddress with
  | some addr, some base => (offsetFrom addr base).map some
  | _, _ => some none

/-- The symbol table of the binary that defines the function of the result. -/
def relocationNm (c : Caches) (r : ParsedResult) : Text :=
  if c.symbolToModule.isEmpty || c.moduleNmCache.isEmpty || r.function.isEmpty then c.nmOutput
  else
    match findSymbolBinary r.function c.symbolToModule with
    | none => c.nmOutput
    | some (moduleName, _) =>
      if moduleName.isEmpty then c.nmOutput else (c.moduleNmCache.lookup moduleName).getD c.nmOutput

/-- An end of the span with its offset. -/
structure SpanEnd where
  address : Address
  offset : Option Text

/-- The end relative to another symbol. -/
def SpanEnd.relocate (e : SpanEnd) (addr : Text) (row : NmRow) : Option SpanEnd :=
  (offsetFrom addr row.addr).map fun offset =>
    ⟨⟨e.address.addr, some row.addr, some row.name⟩, some offset⟩

def isNegative (offset : Option Text) : Option Bool :=
  match present offset with
  | none => some false
  | some offset => (Str.int 16 offset).map fun z => decide (z < 0)

def SpanEnd.hasBase (e : SpanEnd) : Bool := (present e.address.baseAddress).isSome

/-- Relocation when both addresses are known. -/
def relocateBoth (nm : Text) (earliest latest : SpanEnd) (earliestAddr latestAddr : Text) :
    Option (SpanEnd × SpanEnd) := do
  let earliestInt ← Str.int 16 earliestAddr
  let latestInt ← Str.int 16 latestAddr
  let earliestNegative ← isNegative earliest.offset
  let latestNegative ← isNegative latest.offset
  if earliestNegative || latestNegative || !earliest.hasBase || !latest.hasBase then
    -- one base for both ends, below the smaller address
    match findBestBaseAddressBelowSpan nm ((Str.hex (min earliestInt latestInt)).drop 2) with
    | some row =>
      let earliest ← earliest.relocate earliestAddr row
      let latest ← latest.relocate latestAddr row
      return (earliest, latest)
    | none => return (earliest, latest)
  else return (earliest, latest)

/-- Relocation of an end whose address alone is known. -/
def relocateOne (nm : Text) (e : SpanEnd) (addr : Text) : Option SpanEnd :=
  if e.hasBase then some e
  else
    match findBestBaseAddressBelowSpan nm addr with
    | some row => e.relocate addr row
    | none => some e

/-- The two ends after relocation; `none` is an exception. -/
def spanEnds (c : Caches) (r : ParsedResult) : Option (SpanEnd × SpanEnd) := do
  let (earliest, latest) := lookupEnds c r
  let earliest : SpanEnd := ⟨earliest, ← endOffset earliest⟩
  let latest : SpanEnd := ⟨latest, ← endOffset latest⟩
  let nm := relocationNm c r
  match present earliest.address.addr, present latest.address.addr with
  | some earliestAddr, some latestAddr => relocateBoth nm earliest latest earliestAddr latestAddr
  | some earliestAddr, none => return (← relocateOne nm earliest earliestAddr, latest)
  | none, some latestAddr => return (earliest, ← relocateOne nm latest latestAddr)
  | none, none => return (earliest, latest)

/-- `process_single_result`; `none` is an exception. -/
def processSingleResult (c : Caches) (r : ParsedResult) : Option SpanResult :=
  (spanEnds c r).map fun ends => {
    function := r.function
    earliestFile := r.earliestFile
    earliestLine := r.earliestLine
    latestFile := r.latestFile
    latestLine := r.latestLine
    startAddr := ends.1.address.addr
    endAddr := ends.2.address.addr
    startSymbol := ends.1.address.symbolName
    endSymbol := ends.2.address.symbolName
    startOffset := ends.1.offset
    endOffset := ends.2.offset }

end Spans

/-! ## The offset file -/

structure OffsetEntry where
  function : Text
  offset : Text
  sourceStart : Text
  sourceEnd : Text
  deriving DecidableEq

/-- The separator of the two offsets. -/
def offsetSeparator : Text := " - ".toList

/-- The entry of a result, if it has both offsets. -/
def funcOffsetEntry (res : SpanResult) : Option OffsetEntry :=
  match present res.startOffset, present res.endOffset with
  | some startOffset, some endOffset => some {
      function := (present res.startSymbol).getD res.function
      offset := startOffset ++ offsetSeparator ++ endOffset
      sourceStart := res.earliestFile ++ ':' :: Str.strInt res.earliestLine
      sourceEnd := res.latestFile ++ ':' :: Str.strInt res.latestLine }
  | _, _ => none

/-- `write_func_offset_json`: the path and the entries written; results with an error are `none`. -/
def writeFuncOffsetJson (outputFile : Text) (results : List (Option SpanResult)) :
    Option (Text × List OffsetEntry) :=
  if Str.endswith outputFile ".output.txt".toList then
    some (outputFile.take (outputFile.length - ".output.txt".toList.length) ++
      ".func_offset.json".toList, results.filterMap fun res => res.bind funcOffsetEntry)
  else none

end IrToAssembly

end LinuxAnalysis
