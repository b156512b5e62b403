import LinuxAnalysis.Scripts.AssemblySpan

/-!
# ir_to_assembly.py: one search behind both lookups

`find_address_for_line` and `find_address_range_for_single_line` repeat the same stages.  The stages
are stated once here, as a search for a list of addresses with their base and their symbol; each
function reads its own result off what the search finds.
-/

open LinuxAnalysis.Lib

namespace LinuxAnalysis

namespace IrToAssembly

/-- The addresses found for a line, the base they come with and the symbol. -/
structure Found where
  addrs : List Text
  base : Option Text
  symbol : Text

def Found.address (f : Found) : Address := ⟨f.addrs.head?, f.base, some f.symbol⟩

def Found.range (f : Found) : AddressRange :=
  ⟨f.addrs.head?, f.addrs.getLast?, f.base, some f.symbol⟩

theorem address_eq_nothing_iff (found : Option Found) :
    found.elim {} Found.address = {} ↔ found = none := by
  cases found with
  | none => exact iff_of_true rfl rfl
  | some f => exact iff_of_false (fun h => by cases congrArg Address.symbolName h) (by simp)

theorem range_eq_nothing_iff (found : Option Found) :
    found.elim {} Found.range = {} ↔ found = none := by
  cases found with
  | none => exact iff_of_true rfl rfl
  | some f => exact iff_of_false (fun h => by cases congrArg AddressRange.symbolName h) (by simp)

section Stages

variable [Unicode]

/-- The instructions of the line or else of the nearest line that has some. -/
def listedAddresses (rows : List Attribution) (sourceFile : Text) (lineNumber : Int) :
    Option (List Text) :=
  let addresses := lineAddresses rows sourceFile lineNumber
  if addresses.isEmpty then (tryNearbyLinesObjdump rows sourceFile lineNumber 3).map Prod.snd
  else some addresses

/-- The single address of the line table. -/
def readelfFound (readelf sourceFile : Text) (lineNumber : Int) (base : Option Text) (symbol : Text) :
    Option Found :=
  (present (findAddressForLineUsingReadelf readelf sourceFile lineNumber)).map fun addr =>
    ⟨[addr], base, symbol⟩

/-- For a function without a row: the function its line was inlined into, or else the line table. -/
def inlinedFound (c : Caches) (t : BinaryTables) (sourceFile : Text) (lineNumber : Int)
    (function : Text) : Option Found :=
  ((findInlined c t sourceFile lineNumber).map fun f => ⟨f.2.2, some f.2.1, f.1⟩).or
    (readelfFound t.readelf sourceFile lineNumber none function)

/-- For a function with a row: its listing, or else the line table. -/
def listedFound (c : Caches) (t : BinaryTables) (sourceFile : Text) (lineNumber : Int)
    (row : NmRow) : Option Found :=
  (functionListing c t.binary row).bind fun rows =>
    ((listedAddresses rows sourceFile lineNumber).map fun addrs => ⟨addrs, some row.addr, row.name⟩).or
      (readelfFound t.readelf sourceFile lineNumber (some row.addr) row.name)

def lookupFound (c : Caches) (sourceFile : Text) (lineNumber : Int) (function : Text) :
    Option Found :=
  let t := actualTables c function
  if t.nm.isEmpty then none
  else
    match findSymbol t.nm function with
    | none => inlinedFound c t sourceFile lineNumber function
    | some row => listedFound c t sourceFile lineNumber row

/-! ## The two functions -/

theorem findAddressForLine_eq (c : Caches) (sourceFile : Text) (lineNumber : Int) (function : Text) :
    findAddressForLine c sourceFile lineNumber function =
      (lookupFound c sourceFile lineNumber function).elim {} Found.address := by
  unfold findAddressForLine lookupFound
  dsimp only
  split
  · rfl
  · cases hrow : findSymbol (actualTables c function).nm function with
    -- the symbol is unknown: inlined code first, the line table last
    | none =>
      unfold inlinedFound readelfFound
      cases findInlined c (actualTables c function) sourceFile lineNumber with
      | some found => rfl
      | none =>
        cases present (findAddressForLineUsingReadelf (actualTables c function).readelf sourceFile
          lineNumber) <;> rfl
    | some row =>
      unfold listedFound listedAddresses readelfFound
      dsimp only
      cases functionListing c (actualTables c function).binary row with
      | none => rfl
      | some rows =>
        dsimp only [Option.bind_some]
        cases lineAddresses rows sourceFile lineNumber with
        | cons addr addrs => rfl
        -- nothing listed for the line: its neighbours first, the line table last
        | nil =>
          cases tryNearbyLinesObjdump rows sourceFile lineNumber 3 with
          | some found => rfl
          | none =>
            cases present (findAddressForLineUsingReadelf (actualTables c function).readelf
              sourceFile lineNumber) <;> rfl

theorem findAddressRangeForSingleLine_eq (c : Caches) (sourceFile : Text) (lineNumber : Int)
    (function : Text) :
    findAddressRangeForSingleLine c sourceFile lineNumber function =
      (lookupFound c sourceFile lineNumber function).elim {} Found.range := by
  unfold findAddressRangeForSingleLine lookupFound
  dsimp only
  split
  · rfl
  · cases hrow : findSymbol (actualTables c function).nm function with
    -- the stages of the other lookup in the same order
    | none =>
      unfold inlinedFound readelfFound
      cases findInlined c (actualTables c function) sourceFile lineNumber with
      | some found => rfl
      | none =>
        cases present (findAddressForLineUsingReadelf (actualTables c function).readelf sourceFile
          lineNumber) <;> rfl
    | some row =>
      unfold listedFound listedAddresses readelfFound
      dsimp only
      cases functionListing c (actualTables c function).binary row with
      | none => rfl
      | some rows =>
        dsimp only [Option.bind_some]
        cases lineAddresses rows sourceFile lineNumber with
        | cons addr addrs => rfl
        | nil =>
          cases tryNearbyLinesObjdump rows sourceFile lineNumber 3 with
          | some found => rfl
          | none =>
            cases present (findAddressForLineUsingReadelf (actualTables c function).readelf
              sourceFile lineNumber) <;> rfl

/-- **Agreement.**  The lookup of an address and the lookup of a range give the same address, base and
symbol, and find nothing for the same lines. -/
theorem findAddressForLine_agrees (c : Caches) (sourceFile : Text) (lineNumber : Int)
    (function : Text) :
    (∀ addr base symbol, findAddressForLine c sourceFile lineNumber function = ⟨addr, base, symbol⟩ ↔
      ∃ stop, findAddressRangeForSingleLine c sourceFile lineNumber function =
        ⟨addr, stop, base, symbol⟩) ∧
      (findAddressForLine c sourceFile lineNumber function = {} ↔
        findAddressRangeForSingleLine c sourceFile lineNumber function = {}) := by
  rw [findAddressForLine_eq, findAddressRangeForSingleLine_eq]
  constructor
  · intro addr base symbol
    cases lookupFound c sourceFile lineNumber function with
    | none =>
      show (⟨none, none, none⟩ : Address) = _ ↔ ∃ stop, (⟨none, none, none, none⟩ : AddressRange) = _
      simp only [Address.mk.injEq, AddressRange.mk.injEq]
      constructor
      · rintro ⟨haddr, hbase, hsymbol⟩
        exact ⟨none, haddr, rfl, hbase, hsymbol⟩
      · rintro ⟨stop, haddr, _, hbase, hsymbol⟩
        exact ⟨haddr, hbase, hsymbol⟩
    | some f =>
      show f.address = _ ↔ ∃ stop, f.range = _
      unfold Found.address Found.range
      simp only [Address.mk.injEq, AddressRange.mk.injEq]
      constructor
      · rintro ⟨haddr, hbase, hsymbol⟩
        exact ⟨f.addrs.getLast?, haddr, rfl, hbase, hsymbol⟩
      · rintro ⟨stop, haddr, _, hbase, hsymbol⟩
        exact ⟨haddr, hbase, hsymbol⟩
  · rw [address_eq_nothing_iff, range_eq_nothing_iff]

end Stages

end IrToAssembly

end LinuxAnalysis
