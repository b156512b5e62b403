import LinuxAnalysis.Scripts.Tables

/-!
# ir_to_assembly.py: the address of a source line

Both lookups go through the same stages: the tables of the binary that defines the function, its row in
the symbol table, the listing from that row on, the lines next to the wanted one, the line table.  For
a function without a row they ask which function the line was inlined into.
-/

open LinuxAnalysis.Lib

namespace LinuxAnalysis

namespace IrToAssembly

/-- The caches the script has loaded, and `objdump`; it answers `none` when `subprocess.run` raises. -/
structure Caches where
  vmlinuxPath : Text
  nmOutput : Text
  readelfOutput : Text
  /-- symbol name to module name and path -/
  symbolToModule : Dict Text (Text × Text)
  moduleNmCache : Dict Text Text
  moduleReadelfCache : Dict Text Text
  objdump : List Text → Option Text

/-- `find_symbol_binary`: module name and path; `none` is vmlinux. -/
def findSymbolBinary (function : Text) (symbolToModule : Dict Text (Text × Text)) :
    Option (Text × Text) :=
  (symbolToModule.lookup function).or
    ((symbolToModule.lookup (function ++ ".part.0".toList)).or
      (symbolToModule.lookup (function ++ ".isra.0".toList)))

structure BinaryTables where
  binary : Text
  nm : Text
  readelf : Text

/-- `actual_binary`, `actual_nm` and `actual_readelf` -/
def actualTables (c : Caches) (function : Text) : BinaryTables :=
  let vmlinux : BinaryTables := ⟨c.vmlinuxPath, c.nmOutput, c.readelfOutput⟩
  if c.symbolToModule.isEmpty || c.moduleNmCache.isEmpty then vmlinux
  else
    match findSymbolBinary function c.symbolToModule with
    | none => vmlinux
    | some (moduleName, path) =>
      if path.isEmpty then vmlinux
      else ⟨path, (c.moduleNmCache.lookup moduleName).getD c.nmOutput,
        (c.moduleReadelfCache.lookup moduleName).getD c.readelfOutput⟩

/-- What a lookup returns; all `none` when it finds nothing. -/
structure AddressRange where
  startAddr : Option Text := none
  endAddr : Option Text := none
  baseAddress : Option Text := none
  symbolName : Option Text := none
  deriving DecidableEq

structure Address where
  addr : Option Text := none
  baseAddress : Option Text := none
  symbolName : Option Text := none
  deriving DecidableEq

section Lookup

variable [Unicode]

/-- The search of one module, when it may hold the source file. -/
def findInModule (c : Caches) (sourceFile : Text) (lineNumber : Int) (m : Text × Text) :
    Option (Text × Text × List Text) :=
  if Str.contains (Str.basename sourceFile) m.2 then
    match c.moduleNmCache.lookup m.1, c.symbolToModule.find? fun s => s.2.1 = m.1 with
    | some moduleNm, some (_, _, path) =>
      if path.isEmpty then none else findFunctionForSourceLine moduleNm m.2 sourceFile lineNumber
    | _, _ => none
  else none

/-- The function a line was inlined into: first in the tables at hand, then in the modules. -/
def findInlined (c : Caches) (t : BinaryTables) (sourceFile : Text) (lineNumber : Int) :
    Option (Text × Text × List Text) :=
  match findFunctionForSourceLine t.nm t.readelf sourceFile lineNumber with
  | some found => some found
  | none =>
    if c.symbolToModule.isEmpty then none
    else c.moduleReadelfCache.findSome? (findInModule c sourceFile lineNumber)

/-- The command that disassembles a function from its address on. -/
def objdumpCmd (funcAddr : Text) (funcInt : Int) (binary : Text) : List Text :=
  ["objdump".toList, "-d".toList, "-l".toList, "-S".toList,
    "--start-address=0x".toList ++ funcAddr,
    "--stop-address=0x".toList ++ (Str.hex (funcInt + 0x1000)).drop 2,
    binary]

/-- The listing of a function, read; `none` is an exception. -/
def functionListing (c : Caches) (binary : Text) (row : NmRow) : Option (List Attribution) :=
  row.addrInt.bind fun funcInt =>
    (c.objdump (objdumpCmd row.addr funcInt binary)).bind attributions

/-- `find_address_range_for_single_line` -/
def findAddressRangeForSingleLine (c : Caches) (sourceFile : Text) (lineNumber : Int)
    (function : Text) : AddressRange :=
  let t := actualTables c function
  if t.nm.isEmpty then {}
  else
    match findSymbol t.nm function with
    | none =>
      -- the function has no symbol: it was inlined somewhere
      match findInlined c t sourceFile lineNumber with
      | some (func, base, addrs) => ⟨addrs.head?, addrs.getLast?, some base, some func⟩
      | none =>
        match present (findAddressForLineUsingReadelf t.readelf sourceFile lineNumber) with
        | some addr => ⟨some addr, some addr, none, some function⟩
        | none => {}
    | some row =>
      match functionListing c t.binary row with
      | none => {}
      | some rows =>
        let addresses := lineAddresses rows sourceFile lineNumber
        if !addresses.isEmpty then
          ⟨addresses.head?, addresses.getLast?, some row.addr, some row.name⟩
        else
          -- no instruction of the line: its neighbours, then the line table
          match tryNearbyLinesObjdump rows sourceFile lineNumber 3 with
          | some (_, addresses) =>
            ⟨addresses.head?, addresses.getLast?, some row.addr, some row.name⟩
          | none =>
            match present (findAddressForLineUsingReadelf t.readelf sourceFile lineNumber) with
            | some addr => ⟨some addr, some addr, some row.addr, some row.name⟩
            | none => {}

/-- `find_address_for_line` -/
def findAddressForLine (c : Caches) (sourceFile : Text) (lineNumber : Int) (function : Text) :
    Address :=
  let t := actualTables c function
  if t.nm.isEmpty then {}
  else
    match findSymbol t.nm function with
    | none =>
      -- the function has no symbol: it was inlined somewhere
      match findInlined c t sourceFile lineNumber with
      | some (func, base, addrs) => ⟨addrs.head?, some base, some func⟩
      | none =>
        match present (findAddressForLineUsingReadelf t.readelf sourceFile lineNumber) with
        | some addr => ⟨some addr, none, some function⟩
        | none => {}
    | some row =>
      match functionListing c t.binary row with
      | none => {}
      | some rows =>
        let addresses := lineAddresses rows sourceFile lineNumber
        if !addresses.isEmpty then ⟨addresses.head?, some row.addr, some row.name⟩
        else
          -- no instruction of the line: its neighbours, then the line table
          match tryNearbyLinesObjdump rows sourceFile lineNumber 3 with
          | some (_, addresses) => ⟨addresses.head?, some row.addr, some row.name⟩
          | none =>
            match present (findAddressForLineUsingReadelf t.readelf sourceFile lineNumber) with
            | some addr => ⟨some addr, some row.addr, some row.name⟩
            | none => {}

end Lookup

end IrToAssembly

end LinuxAnalysis
