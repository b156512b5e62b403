import LinuxAnalysis.Scripts.FunctionSearch
import LinuxAnalysis.Scripts.Listing

/-!
# ir_to_assembly.py: the instructions taken for a function

The listing of a function is a window of fixed size from its symbol on, and the line table that stands
in for it is searched as a whole.  Neither looks at where the function ends: the next text symbol.
-/

open LinuxAnalysis.Lib

namespace LinuxAnalysis

namespace IrToAssembly

section Window

variable [Unicode]

/-- `a` lies in the function at `b`: not below it, and below every text symbol above it. -/
def InFunction (nm : Text) (b a : Int) : Prop :=
  b ≤ a ∧ ∀ row ∈ nmRows nm, row.isText = true → ∀ c ∈ row.addrInt, b < c → a < c

instance (nm : Text) (b a : Int) : Decidable (InFunction nm b a) :=
  inferInstanceAs (Decidable (_ ∧ ∀ row ∈ nmRows nm, row.isText = true → ∀ c ∈ row.addrInt, b < c → a < c))

/-! ## The line table -/

/-- **The line table as fallback.**  When the listing of a function has no instruction of the line or of
its neighbours, the address that both lookups take from the line table lies in the function if and only
if a row of the line whose address does so has no row of the line before it. -/
theorem readelfFallback_inFunction_iff (c : Caches) (sourceFile : Text) (lineNumber : Int)
    (function : Text) {row : NmRow} {rows : List Attribution} {addr : Text}
    (hsymbol : findSymbol (actualTables c function).nm function = some row)
    (hlisting : functionListing c (actualTables c function).binary row = some rows)
    (hunlisted : listedAddresses rows sourceFile lineNumber = none)
    (hreadelf : present (findAddressForLineUsingReadelf (actualTables c function).readelf sourceFile
      lineNumber) = some addr) :
    (∃ a b, findAddressForLine c sourceFile lineNumber function =
        ⟨some addr, some row.addr, some row.name⟩ ∧
      findAddressRangeForSingleLine c sourceFile lineNumber function =
        ⟨some addr, some addr, some row.addr, some row.name⟩ ∧
      Str.int 16 addr = some a ∧ row.addrInt = some b ∧
      InFunction (actualTables c function).nm b a) ↔
    ∃ pre r post a b, lineRows (actualTables c function).readelf = pre ++ r :: post ∧
      r.isFor sourceFile lineNumber = true ∧ Str.int 16 r.addr = some a ∧ row.addrInt = some b ∧
      InFunction (actualTables c function).nm b a ∧
      ∀ r' ∈ pre, r'.isFor sourceFile lineNumber = false := by
  have hnm : (actualTables c function).nm ≠ [] := by
    intro hempty
    rw [hempty] at hsymbol
    cases hsymbol
  -- no listing attributes an instruction to the line: the answer comes from the line table
  have hfound : lookupFound c sourceFile lineNumber function =
      some ⟨[addr], some row.addr, row.name⟩ := by
    rw [lookupFound, if_neg (by simpa using hnm), hsymbol]
    dsimp only
    rw [listedFound, hlisting, Option.bind_some, hunlisted, Option.map_none, Option.none_or,
      readelfFound, hreadelf]
    rfl
  -- it is the first row for the line
  have haddr : ((lineRows (actualTables c function).readelf).find?
      (LineRow.isFor sourceFile lineNumber)).map LineRow.addr = some addr := by
    rw [← findAddressForLineUsingReadelf_eq]
    exact (Option.filter_eq_some_iff.mp hreadelf).1
  rw [findAddressForLine_eq, findAddressRangeForSingleLine_eq, hfound]
  constructor
  · rintro ⟨a, b, _, _, ha, hb, hin⟩
    obtain ⟨r, hr, rfl⟩ := Option.map_eq_some_iff.mp haddr
    obtain ⟨hfor, pre, post, hrows, hpre⟩ := List.find?_eq_some_iff_append.mp hr
    refine ⟨pre, r, post, a, b, hrows, hfor, ha, hb, hin, fun r' hr' => ?_⟩
    simpa using hpre r' hr'
  · rintro ⟨pre, r, post, a, b, hrows, hfor, ha, hb, hin, hpre⟩
    have hr : (lineRows (actualTables c function).readelf).find?
        (LineRow.isFor sourceFile lineNumber) = some r := by
      apply List.find?_eq_some_iff_append.mpr
      refine ⟨hfor, pre, post, hrows, fun r' hr' => ?_⟩
      rw [hpre r' hr']
      rfl
    rw [hr] at haddr
    obtain rfl := Option.some.inj haddr
    exact ⟨a, b, rfl, rfl, ha, hb, hin⟩

/-! ## The window -/

/-- `objdump` lists exactly the instructions with addresses in the window. -/
def ListsWindow (objdump : List Text → Option Text) (binary : Text) (insts : List Nat) : Prop :=
  ∀ start stop : Text, (∀ c ∈ start, Str.isHexDigit c = true) →
    (∀ c ∈ stop, Str.isHexDigit c = true) → ∀ lo hi, Str.int 16 start = some lo →
    Str.int 16 stop = some hi →
    ∃ listing, objdump ["objdump".toList, "-d".toList, "-l".toList, "-S".toList,
        "--start-address=0x".toList ++ start, "--stop-address=0x".toList ++ stop, binary] = some listing ∧
      (listedInsts listing).map (Str.int 16) =
        (insts.filter fun a : Nat => decide (lo ≤ a ∧ a < hi)).map fun a : Nat => some (a : Int)

theorem exists_listing {objdump : List Text → Option Text} {binary : Text} {insts : List Nat}
    (h : ListsWindow objdump binary insts) {funcAddr : Text} {b : Int}
    (hhex : ∀ c ∈ funcAddr, Str.isHexDigit c = true) (hb : Str.int 16 funcAddr = some b) :
    ∃ listing, objdump (objdumpCmd funcAddr b binary) = some listing ∧
      (listedInsts listing).map (Str.int 16) =
        (insts.filter fun a : Nat => decide (b ≤ a ∧ a < b + 0x1000)).map fun a : Nat => some (a : Int) := by
  have hpos : 0 ≤ b := by
    rw [Str.int_of_isHexDigit hhex] at hb
    obtain ⟨n, _, rfl⟩ := Option.map_eq_some_iff.mp hb
    exact Int.natCast_nonneg n
  obtain ⟨n, hn⟩ := Int.eq_ofNat_of_zero_le (show 0 ≤ b + 0x1000 by omega)
  have hstop : ((Str.hex (b + 0x1000)).drop 2) = Nat.toDigits 16 n := by
    rw [hn]
    rfl
  apply h funcAddr _ hhex _ b (b + 0x1000) hb
  · rw [Str.int_drop_hex, if_pos (by omega)]
  · rw [hstop]
    intro c hc
    exact Str.isHexDigit_toDigits (by omega) (by omega) hc

/-- What is listed for a line is read off the listing. -/
theorem mem_listedInsts {listing : Text} {sourceFile : Text} {lineNumber : Int} {addrs : List Text}
    {rows : List Attribution} (hrows : attributions listing = some rows)
    (h : listedAddresses rows sourceFile lineNumber = some addrs) :
    ∀ addr ∈ addrs, addr ∈ listedInsts listing := by
  rw [attributions_eq] at hrows
  obtain rfl := Option.some.inj hrows
  unfold listedAddresses at h
  dsimp only at h
  split at h
  · obtain ⟨⟨line, addrs'⟩, hnearby, rfl⟩ := Option.map_eq_some_iff.mp h
    unfold tryNearbyLinesObjdump at hnearby
    obtain ⟨l, _, hl⟩ := List.exists_of_findSome?_eq_some hnearby
    dsimp only at hl
    split at hl
    · cases hl
    · obtain ⟨_, rfl⟩ := Prod.mk.inj (Option.some.inj hl)
      exact fun addr haddr => mem_readAddrs_of_lineAddresses haddr
  · obtain rfl := Option.some.inj h
    exact fun addr haddr => mem_readAddrs_of_lineAddresses haddr

omit [Unicode] in
theorem filter_map_some_inj {insts : List Nat} {p q : Nat → Bool}
    (h : (insts.filter p).map (fun a : Nat => some (a : Int)) =
      (insts.filter q).map fun a : Nat => some (a : Int)) : ∀ a ∈ insts, p a = q a := by
  have hinj : Function.Injective fun a : Nat => some (a : Int) :=
    fun x y hxy => Int.ofNat.inj (Option.some.inj hxy)
  have hfilter : insts.filter p = insts.filter q := List.map_injective_iff.mpr hinj h
  intro a ha
  rw [Bool.eq_iff_iff]
  constructor
  · intro hp
    exact (List.mem_filter.mp (hfilter ▸ List.mem_filter.mpr ⟨ha, hp⟩)).2
  · intro hq
    exact (List.mem_filter.mp (hfilter ▸ List.mem_filter.mpr ⟨ha, hq⟩)).2

/-- The listing that both lookups read has the instructions of the function at `b`, all of them and no
other, and the ends that they take from it lie in the function. -/
def ExaminesFunction (c : Caches) (function : Text) (row : NmRow) (insts : List Nat) (b : Int) : Prop :=
  ∃ base listing rows, row.addrInt = some base ∧
    c.objdump (objdumpCmd row.addr base (actualTables c function).binary) = some listing ∧
    functionListing c (actualTables c function).binary row = some rows ∧
    attributions listing = some rows ∧
    (listedInsts listing).map (Str.int 16) = (insts.filter fun a : Nat =>
      decide (InFunction (actualTables c function).nm b a)).map (fun a : Nat => some (a : Int)) ∧
    ∀ sourceFile lineNumber addrs, listedAddresses rows sourceFile lineNumber = some addrs →
      findAddressForLine c sourceFile lineNumber function =
        ⟨addrs.head?, some row.addr, some row.name⟩ ∧
      findAddressRangeForSingleLine c sourceFile lineNumber function =
        ⟨addrs.head?, addrs.getLast?, some row.addr, some row.name⟩ ∧
      ∀ addr ∈ addrs, ∃ a, Str.int 16 addr = some a ∧ InFunction (actualTables c function).nm b a

/-- **The window of a function.**  Let `b` be the address of a function, let `row` be the row that is
found for its name, and let `objdump` list the instructions of a window.  Exactly the instructions of
the function are examined if and only if every instruction of the binary lies in the 4096 bytes from the
row on just when it lies in the function. -/
theorem examinesFunction_iff (c : Caches) (function : Text) (row : NmRow) (insts : List Nat) (b : Int)
    {base : Int} (hrow : findSymbol (actualTables c function).nm function = some row)
    (hhex : ∀ c ∈ row.addr, Str.isHexDigit c = true) (hbase : row.addrInt = some base)
    (hobjdump : ListsWindow c.objdump (actualTables c function).binary insts) :
    ExaminesFunction c function row insts b ↔
      ∀ a : Nat, a ∈ insts → (base ≤ a ∧ (a : Int) < base + 0x1000 ↔
        InFunction (actualTables c function).nm b a) := by
  obtain ⟨listing, hlisting, hinsts⟩ := exists_listing hobjdump hhex hbase
  obtain ⟨rows, hrows⟩ : ∃ rows, attributions listing = some rows := ⟨_, attributions_eq listing⟩
  have hfunction : functionListing c (actualTables c function).binary row = some rows := by
    rw [functionListing, hbase, Option.bind_some, hlisting, Option.bind_some, hrows]
  have hnm : (actualTables c function).nm ≠ [] := by
    intro hempty
    rw [hempty] at hrow
    cases hrow
  constructor
  · rintro ⟨base', listing', _, hbase', hlisting', _, _, hexamined, _⟩ a ha
    obtain rfl := Option.some.inj (hbase.symm.trans hbase')
    obtain rfl := Option.some.inj (hlisting.symm.trans hlisting')
    have hsame := filter_map_some_inj (hinsts.symm.trans hexamined) a ha
    rw [Bool.eq_iff_iff, decide_eq_true_iff, decide_eq_true_iff] at hsame
    exact hsame
  · intro hcond
    -- the window and the function hold the same instructions
    have hfilter : (insts.filter fun a : Nat => decide (base ≤ a ∧ (a : Int) < base + 0x1000)) =
        insts.filter fun a : Nat => decide (InFunction (actualTables c function).nm b a) := by
      apply List.filter_congr
      intro a ha
      rw [Bool.eq_iff_iff, decide_eq_true_iff, decide_eq_true_iff]
      exact hcond a ha
    rw [hfilter] at hinsts
    refine ⟨base, listing, rows, hbase, hlisting, hfunction, hrows, hinsts,
      fun sourceFile lineNumber addrs haddrs => ?_⟩
    -- every address found comes from an instruction of the listing
    have hfound : lookupFound c sourceFile lineNumber function =
        some ⟨addrs, some row.addr, row.name⟩ := by
      rw [lookupFound, if_neg (by simpa using hnm), hrow]
      dsimp only
      rw [listedFound, hfunction, Option.bind_some, haddrs]
      rfl
    rw [findAddressForLine_eq, findAddressRangeForSingleLine_eq, hfound]
    refine ⟨rfl, rfl, fun addr haddr => ?_⟩
    have hmem : Str.int 16 addr ∈ (listedInsts listing).map (Str.int 16) :=
      List.mem_map.mpr ⟨addr, mem_listedInsts hrows haddrs addr haddr, rfl⟩
    rw [hinsts] at hmem
    obtain ⟨a, ha, hint⟩ := List.mem_map.mp hmem
    exact ⟨a, hint.symm, of_decide_eq_true (List.mem_filter.mp ha).2⟩

end Window

/-! ## Binaries -/

section Binary

variable [Unicode]

/-- The line of an instruction without operands. -/
def nopLine (a : Nat) : InstLine where
  indent := 2
  addr := Nat.toDigits 16 a
  bytes := "90 nop".toList
  addr_ne := Nat.toDigits_ne_nil
  addr_hex := fun _ hc => Str.isHexDigit_toDigits (by omega) (by omega) hc
  oneLine := by decide

/-- An `objdump` for a binary with these instructions. -/
def disassembler (insts : List Nat) : List Text → Option Text
  | [_, _, _, _, start, stop, _] =>
    match Str.int 16 (start.drop 18), Str.int 16 (stop.drop 17) with
    | some lo, some hi => some (Str.unlines
        (((insts.filter fun a : Nat => decide (lo ≤ a ∧ a < hi)).map nopLine).map InstLine.text))
    | _, _ => none
  | _ => none

theorem listsWindow_disassembler (insts : List Nat) (binary : Text) :
    ListsWindow (disassembler insts) binary insts := by
  intro start stop _ _ lo hi hlo hhi
  refine ⟨Str.unlines (((insts.filter fun a : Nat => decide (lo ≤ a ∧ a < hi)).map nopLine).map
    InstLine.text), ?_, ?_⟩
  · show (match Str.int 16 start, Str.int 16 stop with
      | some lo, some hi => some (Str.unlines
        (((insts.filter fun a : Nat => decide (lo ≤ a ∧ a < hi)).map nopLine).map InstLine.text))
      | _, _ => none) = _
    rw [hlo, hhi]
  · generalize insts.filter (fun a : Nat => decide (lo ≤ a ∧ a < hi)) = window
    have hlines : Str.splitlines (Str.unlines ((window.map nopLine).map InstLine.text)) =
        (window.map nopLine).map InstLine.text := by
      apply Str.splitlines_unlines
      intro line hline
      obtain ⟨i, _, rfl⟩ := List.mem_map.mp hline
      exact oneLine_inst i
    have hread : listedInsts (Str.unlines ((window.map nopLine).map InstLine.text)) =
        (window.map nopLine).map InstLine.addr := by
      rw [listedInsts, hlines]
      exact readAddrs_insts _
    rw [hread, List.map_map, List.map_map]
    apply List.map_congr_left
    intro a _
    exact Str.int_toDigits a

end Binary

/-- A kernel whose instructions are given by their addresses. -/
def binaryCaches (nm : String) (objdump : List Text → Option Text) : Caches where
  vmlinuxPath := "vmlinux".toList
  nmOutput := nm.toList
  readelfOutput := "x.h 5 0x2000\nx.h 5 0x1004".toList
  symbolToModule := []
  moduleNmCache := []
  moduleReadelfCache := []
  objdump := objdump

/-- Two functions, each with an expansion of a line of a header; neither expansion is in a listing. -/
theorem readelfFallback_inFunction_iff_first :
    ∃ (_ : Unicode) (a b : Int),
      findAddressForLine (binaryCaches "1000 T f\n2000 T g" (disassembler [])) "x.h".toList 5
        "g".toList = ⟨some "2000".toList, some "2000".toList, some ['g']⟩ ∧
      findAddressRangeForSingleLine (binaryCaches "1000 T f\n2000 T g" (disassembler [])) "x.h".toList 5
        "g".toList = ⟨some "2000".toList, some "2000".toList, some "2000".toList, some ['g']⟩ ∧
      Str.int 16 "2000".toList = some a ∧
      NmRow.addrInt ⟨"2000".toList, ['T'], ['g']⟩ = some b ∧
      InFunction (actualTables (binaryCaches "1000 T f\n2000 T g" (disassembler [])) "g".toList).nm
        b a := by
  let _ := Unicode.ascii
  have hrow : findSymbol (actualTables (binaryCaches "1000 T f\n2000 T g" (disassembler []))
      "g".toList).nm "g".toList = some ⟨"2000".toList, ['T'], ['g']⟩ := by decide +kernel
  have hrows : functionListing (binaryCaches "1000 T f\n2000 T g" (disassembler []))
      (actualTables (binaryCaches "1000 T f\n2000 T g" (disassembler [])) "g".toList).binary
      ⟨"2000".toList, ['T'], ['g']⟩ = some [] := by decide +kernel
  refine ⟨Unicode.ascii, (readelfFallback_inFunction_iff
    (binaryCaches "1000 T f\n2000 T g" (disassembler [])) "x.h".toList 5 "g".toList hrow hrows
    (by decide +kernel) (by decide +kernel)).mpr ?_⟩
  have hin : InFunction (actualTables (binaryCaches "1000 T f\n2000 T g" (disassembler []))
      "g".toList).nm 0x2000 0x2000 := by decide +kernel
  exact ⟨[], ⟨none, "x.h".toList, 5, "2000".toList⟩, [⟨none, "x.h".toList, 5, "1004".toList⟩], 0x2000,
    0x2000, by rfl, by decide, by decide, by decide, hin, fun _ h => absurd h List.not_mem_nil⟩

/-- For the first function the expansion in the second one is taken. -/
theorem readelfFallback_leaves_function :
    ¬ ∀ (_ : Unicode) (c : Caches) (sourceFile : Text) (lineNumber : Int) (function : Text)
      (row : NmRow) (rows : List Attribution) (addr : Text),
      findSymbol (actualTables c function).nm function = some row →
      functionListing c (actualTables c function).binary row = some rows →
      listedAddresses rows sourceFile lineNumber = none →
      present (findAddressForLineUsingReadelf (actualTables c function).readelf sourceFile
        lineNumber) = some addr →
      ∃ a b, Str.int 16 addr = some a ∧ row.addrInt = some b ∧
        InFunction (actualTables c function).nm b a := by
  intro hall
  let _ := Unicode.ascii
  obtain ⟨a, b, ha, hb, hin⟩ := hall Unicode.ascii
    (binaryCaches "1000 T f\n2000 T g" (disassembler [])) "x.h".toList 5 "f".toList
    ⟨"1000".toList, ['T'], ['f']⟩ [] "2000".toList (by decide +kernel) (by decide +kernel)
    (by decide +kernel) (by decide +kernel)
  have ha' : Str.int 16 "2000".toList = some 0x2000 := by decide
  have hb' : NmRow.addrInt ⟨"1000".toList, ['T'], ['f']⟩ = some 0x1000 := by decide
  obtain rfl := Option.some.inj (ha.symm.trans ha')
  obtain rfl := Option.some.inj (hb.symm.trans hb')
  exact absurd hin (by decide +kernel)

theorem examinesFunction_iff_single :
    ∃ _ : Unicode, ExaminesFunction (binaryCaches "1000 T f\n3000 T g" (disassembler [0x1000, 0x3000]))
      "f".toList ⟨"1000".toList, ['T'], ['f']⟩ [0x1000, 0x3000] 0x1000 := by
  have hbase : @NmRow.addrInt Unicode.ascii ⟨"1000".toList, ['T'], ['f']⟩ = some 0x1000 := by decide
  refine ⟨Unicode.ascii, (@examinesFunction_iff Unicode.ascii _ _ _ _ _ _ (by decide +kernel)
    (by decide) hbase (@listsWindow_disassembler Unicode.ascii _ _)).mpr ?_⟩
  decide +kernel

/-- The window of `f` reaches into the next function. -/
theorem examinesFunction_fails_neighbour :
    ¬ ∀ (_ : Unicode) (c : Caches) (function : Text) (row f : NmRow) (insts : List Nat) (b : Int),
      f ∈ nmRows (actualTables c function).nm → f.isText = true → f.name = function →
      f.addrInt = some b → findSymbol (actualTables c function).nm function = some row →
      (∀ c ∈ row.addr, Str.isHexDigit c = true) →
      ListsWindow c.objdump (actualTables c function).binary insts →
      ExaminesFunction c function row insts b := by
  intro hall
  let _ := Unicode.ascii
  have hexamines := hall Unicode.ascii
    (binaryCaches "1000 T f\n1010 T g" (disassembler [0x1000, 0x1010])) "f".toList
    ⟨"1000".toList, ['T'], ['f']⟩ ⟨"1000".toList, ['T'], ['f']⟩ [0x1000, 0x1010] 0x1000
    (by decide +kernel) (by decide) rfl (by decide) (by decide +kernel) (by decide)
    (listsWindow_disassembler _ _)
  obtain ⟨base, listing, _, hbase, hlisting, _, _, hexamined, _⟩ := hexamines
  have hbase' : NmRow.addrInt ⟨"1000".toList, ['T'], ['f']⟩ = some 0x1000 := by decide
  obtain rfl := Option.some.inj (hbase.symm.trans hbase')
  have hwindow : (disassembler [0x1000, 0x1010] (objdumpCmd "1000".toList 0x1000 "vmlinux".toList)).map
      (fun listing => (listedInsts listing).map (Str.int 16)) = some [some 0x1000, some 0x1010] := by
    decide +kernel
  obtain ⟨listing', hlisting', hinsts⟩ := Option.map_eq_some_iff.mp hwindow
  obtain rfl := Option.some.inj (hlisting.symm.trans hlisting')
  rw [hinsts] at hexamined
  have hlength := congrArg List.length hexamined
  exact absurd hlength (by decide +kernel)

end IrToAssembly

end LinuxAnalysis
