import LinuxAnalysis.Scripts.FuncOffset

/-!
# The span reported for two source lines

A line may own several groups of instructions.  For one line the script reports the first and the last
of them, for two lines the first of each.
-/

open LinuxAnalysis.Lib

namespace LinuxAnalysis

namespace IrToAssembly

/-! ## Addresses of a listing -/

/-- What `addressRE` captures: hexadecimal digits between white space and a colon. -/
theorem groups_addressRE {line : Text} {m : Regex.Match}
    (h : Regex.matchStart addressRE line = some m) :
    ∃ spaces ds rest, line = spaces ++ (ds ++ ':' :: rest) ∧
      (∀ c ∈ spaces, Str.isSpace c = true) ∧ ds ≠ [] ∧ (∀ c ∈ ds, Str.isHexDigit c = true) ∧
      m.group 1 = some ds := by
  obtain ⟨_, e₁, ⟨_, rfl⟩, e₂, hspaces, e₃, hdigits, e₄, hcolon, e₅, hafter, hstop⟩ :=
    Regex.matchStart_sound h
  obtain ⟨spaces, rest, hline, hwhite, rfl⟩ := Regex.matches_star.mp hspaces
  obtain ⟨ds, rest', hne, hrest, hds, rfl⟩ := Regex.matches_group_plus.mp hdigits
  obtain ⟨rest'', hrest', rfl⟩ := Regex.matches_lit.mp hcolon
  obtain ⟨_, _, _, _, _, rfl⟩ := Regex.matches_plus.mp hafter
  dsimp only [Regex.Cursor.advance] at hline hrest hrest'
  refine ⟨spaces, ds, rest'', ?_, hwhite, hne, hds, ?_⟩
  · rw [hline, hrest, hrest']
    rfl
  · rw [Regex.Match.group, show m.stop = _ from hstop]
    rfl

theorem head?_lineAddresses {rows : List Attribution} {sourceFile : Text} {lineNumber : Int} :
    (lineAddresses rows sourceFile lineNumber).head? =
      (rows.find? (Attribution.isAt sourceFile lineNumber)).map Attribution.addr := by
  rw [lineAddresses, List.head?_map, List.head?_filter]

section Spans

variable [Unicode]

def Attribution.addrInt (a : Attribution) : Option Int := Str.int 16 a.addr

theorem isSome_addrInt_listingLine {s t : ListingState} {line : Text}
    (hs : ∀ a ∈ s.rows, ∃ n, a.addrInt = some n) (h : listingLine s line = some t) :
    ∀ a ∈ t.rows, ∃ n, a.addrInt = some n := by
  unfold listingLine at h
  split at h
  · obtain ⟨n, _, rfl⟩ := Option.map_eq_some_iff.mp h
    exact hs
  · split at h
    next m file currentLine hm _ =>
      split at h
      · obtain rfl := Option.some.inj h
        intro a ha
        rcases List.mem_append.mp ha with ha | ha
        · exact hs a ha
        · obtain ⟨_, ds, _, _, _, hne, hds, hgroup⟩ := groups_addressRE hm
          obtain ⟨n, hn⟩ := Str.digitsValue_of_isHexDigit hds 0 (.inl hne)
          refine ⟨n, ?_⟩
          rw [List.mem_singleton.mp ha, Attribution.addrInt, hgroup, Option.getD_some,
            Str.int_of_isHexDigit hds, hn]
          rfl
      · obtain rfl := Option.some.inj h
        exact hs
    next =>
      obtain rfl := Option.some.inj h
      exact hs

/-- The addresses of a listing are numbers. -/
theorem isSome_addrInt_of_attributions {listing : Text} {rows : List Attribution}
    (h : attributions listing = some rows) : ∀ a ∈ rows, ∃ n, a.addrInt = some n := by
  obtain ⟨t, ht, rfl⟩ := Option.map_eq_some_iff.mp h
  exact foldlM_invariant (I := fun s : ListingState => ∀ a ∈ s.rows, ∃ n, a.addrInt = some n)
    (fun _ _ _ _ hs hst => isSome_addrInt_listingLine hs hst) (fun _ ha => by cases ha) ht

/-- The listing runs in increasing address order. -/
def Increasing (rows : List Attribution) : Prop :=
  rows.Pairwise fun a b => ∀ m n, a.addrInt = some m → b.addrInt = some n → m < n

/-- The listing of a function that its symbol table knows. -/
def listingFor (c : Caches) (function : Text) : Option (List Attribution) :=
  (findSymbol (actualTables c function).nm function).bind
    (functionListing c (actualTables c function).binary)

theorem isSome_addrInt_of_listingFor {c : Caches} {function : Text} {rows : List Attribution}
    (h : listingFor c function = some rows) : ∀ a ∈ rows, ∃ n, a.addrInt = some n := by
  obtain ⟨row, _, h⟩ := Option.bind_eq_some_iff.mp h
  obtain ⟨_, _, h⟩ := Option.bind_eq_some_iff.mp h
  obtain ⟨listing, _, h⟩ := Option.bind_eq_some_iff.mp h
  exact isSome_addrInt_of_attributions h

/-! ## The ends of a span -/

/-- The first address of a source line. -/
def firstAddress (rows : List Attribution) (sourceFile : Text) (lineNumber : Int) : Option Int :=
  (rows.find? (Attribution.isAt sourceFile lineNumber)).bind Attribution.addrInt

/-- The instructions of either line of the result. -/
def AtEitherLine (r : ParsedResult) (a : Attribution) : Prop :=
  a.isAt r.earliestFile r.earliestLine = true ∨ a.isAt r.latestFile r.latestLine = true

/-- Every instruction of either line lies between the two addresses. -/
def Covers (rows : List Attribution) (r : ParsedResult) (startInt endInt : Int) : Prop :=
  ∀ a ∈ rows, AtEitherLine r a → ∀ n, a.addrInt = some n →
    min startInt endInt ≤ n ∧ n ≤ max startInt endInt

/-- No instruction of either line lies above the first addresses of both lines. -/
def NoTail (rows : List Attribution) (r : ParsedResult) : Prop :=
  ∀ a ∈ rows, AtEitherLine r a → ∀ n first last, a.addrInt = some n →
    firstAddress rows r.earliestFile r.earliestLine = some first →
    firstAddress rows r.latestFile r.latestLine = some last → n ≤ max first last

/-- In an increasing listing the first instruction of a line has its least address. -/
theorem firstAddress_le {rows : List Attribution} (hrows : Increasing rows) {sourceFile : Text}
    {lineNumber : Int} {a : Attribution} (ha : a ∈ rows)
    (hat : a.isAt sourceFile lineNumber = true) {first n : Int}
    (hfirst : firstAddress rows sourceFile lineNumber = some first) (hn : a.addrInt = some n) :
    first ≤ n := by
  obtain ⟨b, hb, hbint⟩ := Option.bind_eq_some_iff.mp hfirst
  obtain ⟨hbat, pre, post, rfl, hpre⟩ := List.find?_eq_some_iff_append.mp hb
  rcases List.mem_append.mp ha with hmem | hmem
  · have := hpre a hmem
    rw [hat] at this
    cases this
  · rcases List.mem_cons.mp hmem with rfl | hmem
    · rw [hbint] at hn
      exact le_of_eq (Option.some.inj hn)
    · exact le_of_lt ((List.pairwise_cons.mp (List.pairwise_append.mp hrows).2.1).1 a hmem
        first n hbint hn)

/-- In an increasing listing the last instruction of a line has its greatest address. -/
theorem le_getLast?_lineAddresses {rows : List Attribution} (hrows : Increasing rows)
    {sourceFile : Text} {lineNumber : Int} {a : Attribution} (ha : a ∈ rows)
    (hat : a.isAt sourceFile lineNumber = true) {addr : Text} {last n : Int}
    (haddr : (lineAddresses rows sourceFile lineNumber).getLast? = some addr)
    (hlast : Str.int 16 addr = some last) (hn : a.addrInt = some n) : n ≤ last := by
  rw [lineAddresses, List.getLast?_map] at haddr
  obtain ⟨b, hb, rfl⟩ := Option.map_eq_some_iff.mp haddr
  obtain ⟨init, hinit⟩ := List.getLast?_eq_some_iff.mp hb
  have hmem : a ∈ rows.filter (Attribution.isAt sourceFile lineNumber) :=
    List.mem_filter.mpr ⟨ha, hat⟩
  have hpairwise := List.Pairwise.filter (Attribution.isAt sourceFile lineNumber) hrows
  rw [hinit] at hmem hpairwise
  rcases List.mem_append.mp hmem with hmem | hmem
  · exact le_of_lt ((List.pairwise_append.mp hpairwise).2.2 a hmem b (by simp) n last hn hlast)
  · rw [List.mem_singleton.mp hmem] at hn
    exact le_of_eq (Option.some.inj (hn.symm.trans hlast))

theorem present_of_int {s : Text} {n : Int} (h : Str.int 16 s = some n) :
    present (some s) = some s := by
  refine present_some (fun hs => ?_)
  rw [hs] at h
  cases h

/-- A lookup whose ends have addresses and bases is carried to the end, whatever is relocated. -/
theorem spanEnds_of_lookups {c : Caches} {r : ParsedResult} {a b x y : Int}
    (ha : (lookupEnds c r).1.addrInt = some a) (hb : (lookupEnds c r).2.addrInt = some b)
    (hx : (lookupEnds c r).1.baseInt = some x) (hy : (lookupEnds c r).2.baseInt = some y) :
    ∃ ends, spanEnds c r = some ends ∧ ends.1.address.addr = (lookupEnds c r).1.addr ∧
      ends.2.address.addr = (lookupEnds c r).2.addr := by
  unfold spanEnds
  generalize lookupEnds c r = ends at ha hb hx hy ⊢
  obtain ⟨e, l⟩ := ends
  obtain ⟨ea, hea, ha⟩ := Option.bind_eq_some_iff.mp ha
  obtain ⟨la, hla, hb⟩ := Option.bind_eq_some_iff.mp hb
  obtain ⟨eb, heb, hx⟩ := Option.bind_eq_some_iff.mp hx
  obtain ⟨lb, hlb, hy⟩ := Option.bind_eq_some_iff.mp hy
  have heo : endOffset e = some (some (Str.hex (a - x))) := by
    simp [endOffset, hea, heb, offsetFrom, ha, hx]
  have hlo : endOffset l = some (some (Str.hex (b - y))) := by
    simp [endOffset, hla, hlb, offsetFrom, hb, hy]
  dsimp only at hea hla ⊢
  rw [heo, hlo]
  simp only [Option.bind_eq_bind, Option.bind_some, hea, hla, relocateBoth, ha, hb, isNegative_hex]
  split
  · split
    next row hrow =>
      obtain ⟨_, z, _, _, _, hz, _⟩ := findBestBaseAddressBelowSpan_eq_some hrow
      rw [NmRow.addrInt] at hz
      simp [SpanEnd.relocate, offsetFrom, ha, hb, hz]
    next => exact ⟨_, rfl, rfl, rfl⟩
  · exact ⟨_, rfl, rfl, rfl⟩

theorem processSingleResult_of_lookups {c : Caches} {r : ParsedResult} {earliest latest : Address}
    {ea la eb lb : Text} {a b x y : Int} (h : lookupEnds c r = (earliest, latest))
    (hea : earliest.addr = some ea) (ha : Str.int 16 ea = some a)
    (hla : latest.addr = some la) (hb : Str.int 16 la = some b)
    (heb : earliest.baseAddress = some eb) (hx : Str.int 16 eb = some x)
    (hlb : latest.baseAddress = some lb) (hy : Str.int 16 lb = some y) :
    ∃ res, processSingleResult c r = some res ∧
      (present res.startAddr).bind (Str.int 16) = some a ∧
      (present res.endAddr).bind (Str.int 16) = some b := by
  have hbind {o : Option Text} {s : Text} {n : Int} (ho : o = some s) (hs : Str.int 16 s = some n) :
      (present o).bind (Str.int 16) = some n := by
    rw [ho, present_of_int hs, Option.bind_some, hs]
  obtain ⟨ends, hends, hstart, hend⟩ := spanEnds_of_lookups
    (show (lookupEnds c r).1.addrInt = some a from h ▸ hbind hea ha)
    (show (lookupEnds c r).2.addrInt = some b from h ▸ hbind hla hb)
    (show (lookupEnds c r).1.baseInt = some x from h ▸ hbind heb hx)
    (show (lookupEnds c r).2.baseInt = some y from h ▸ hbind hlb hy)
  rw [h] at hstart hend
  exact ⟨_, Option.map_eq_some_iff.mpr ⟨ends, hends, rfl⟩, hbind (hstart.trans hea) ha,
    hbind (hend.trans hla) hb⟩

/-- The stages of a lookup before the listing. -/
theorem of_listingFor {c : Caches} {function : Text} {rows : List Attribution}
    (h : listingFor c function = some rows) :
    (actualTables c function).nm.isEmpty = false ∧ ∃ row base,
      findSymbol (actualTables c function).nm function = some row ∧ row.addrInt = some base ∧
      functionListing c (actualTables c function).binary row = some rows := by
  obtain ⟨row, hrow, hlisting⟩ := Option.bind_eq_some_iff.mp h
  obtain ⟨base, hbase, _⟩ := Option.bind_eq_some_iff.mp hlisting
  refine ⟨?_, row, base, hrow, hbase, hlisting⟩
  by_contra hempty
  rw [Bool.not_eq_false, List.isEmpty_iff] at hempty
  rw [hempty] at hrow
  cases hrow

theorem findAddressForLine_of_listing {c : Caches} {sourceFile function : Text} {lineNumber : Int}
    {rows : List Attribution} (h : listingFor c function = some rows)
    (hne : lineAddresses rows sourceFile lineNumber ≠ []) :
    ∃ (row : NmRow) (base : Int), row.addrInt = some base ∧
      findAddressForLine c sourceFile lineNumber function =
        ⟨(lineAddresses rows sourceFile lineNumber).head?, some row.addr, some row.name⟩ := by
  obtain ⟨hnm, row, base, hrow, hbase, hlisting⟩ := of_listingFor h
  refine ⟨row, base, hbase, ?_⟩
  simp [findAddressForLine, hnm, hrow, hlisting, hne]

theorem findAddressRangeForSingleLine_of_listing {c : Caches} {sourceFile function : Text}
    {lineNumber : Int} {rows : List Attribution} (h : listingFor c function = some rows)
    (hne : lineAddresses rows sourceFile lineNumber ≠ []) :
    ∃ (row : NmRow) (base : Int), row.addrInt = some base ∧
      findAddressRangeForSingleLine c sourceFile lineNumber function =
        ⟨(lineAddresses rows sourceFile lineNumber).head?,
          (lineAddresses rows sourceFile lineNumber).getLast?, some row.addr, some row.name⟩ := by
  obtain ⟨hnm, row, base, hrow, hbase, hlisting⟩ := of_listingFor h
  refine ⟨row, base, hbase, ?_⟩
  simp [findAddressRangeForSingleLine, hnm, hrow, hlisting, hne]

/-- The first instruction of a line that has one. -/
theorem exists_firstAddress {rows : List Attribution} (hints : ∀ a ∈ rows, ∃ n, a.addrInt = some n)
    {sourceFile : Text} {lineNumber : Int} (h : ∃ a ∈ rows, a.isAt sourceFile lineNumber = true) :
    ∃ addr first, (lineAddresses rows sourceFile lineNumber).head? = some addr ∧
      Str.int 16 addr = some first ∧ firstAddress rows sourceFile lineNumber = some first := by
  obtain ⟨a, ha⟩ := Option.isSome_iff_exists.mp (List.find?_isSome.mpr h)
  obtain ⟨first, hfirst⟩ := hints a (List.mem_of_find?_eq_some ha)
  refine ⟨a.addr, first, ?_, hfirst, ?_⟩
  · rw [head?_lineAddresses, ha]
    rfl
  · rw [firstAddress, ha]
    exact hfirst

theorem exists_lastAddress {rows : List Attribution} (hints : ∀ a ∈ rows, ∃ n, a.addrInt = some n)
    {sourceFile : Text} {lineNumber : Int} (h : lineAddresses rows sourceFile lineNumber ≠ []) :
    ∃ addr last, (lineAddresses rows sourceFile lineNumber).getLast? = some addr ∧
      Str.int 16 addr = some last := by
  obtain ⟨a, ha, haddr⟩ := List.mem_map.mp (List.getLast_mem h)
  obtain ⟨last, hlast⟩ := hints a (List.mem_filter.mp ha).1
  exact ⟨a.addr, last, by rw [List.getLast?_eq_some_getLast h, haddr], hlast⟩

/-- **Coverage of two lines.**  For a function that the symbol table knows, with an increasing listing
that has instructions of both lines, the reported addresses enclose every instruction of the lines if
and only if the lines are one or no instruction lies above the first ones of both. -/
theorem processSingleResult_covers_iff (c : Caches) (r : ParsedResult) (rows : List Attribution)
    (hearliest : listingFor c r.earliestFunc = some rows)
    (hlatest : listingFor c r.latestFunc = some rows) (hincreasing : Increasing rows)
    (hfirst : ∃ a ∈ rows, a.isAt r.earliestFile r.earliestLine = true)
    (hlast : ∃ a ∈ rows, a.isAt r.latestFile r.latestLine = true) :
    ∃ res startInt endInt, processSingleResult c r = some res ∧
      (present res.startAddr).bind (Str.int 16) = some startInt ∧
      (present res.endAddr).bind (Str.int 16) = some endInt ∧
      (Covers rows r startInt endInt ↔ r.isSingleLine = true ∨ NoTail rows r) := by
  have hints := isSome_addrInt_of_listingFor hearliest
  obtain ⟨ea, first, hea, hfirstInt, hfirstAddress⟩ := exists_firstAddress hints hfirst
  obtain ⟨la, last, hla, hlastInt, hlastAddress⟩ := exists_firstAddress hints hlast
  have hene : lineAddresses rows r.earliestFile r.earliestLine ≠ [] := by
    intro hnil
    rw [hnil] at hea
    cases hea
  have hlne : lineAddresses rows r.latestFile r.latestLine ≠ [] := by
    intro hnil
    rw [hnil] at hla
    cases hla
  by_cases hsingle : r.isSingleLine = true
  · -- one line: the first and the last of its instructions
    obtain ⟨row, base, hbase, hlookup⟩ := findAddressRangeForSingleLine_of_listing hearliest hene
    obtain ⟨za, z, hza, hz⟩ := exists_lastAddress hints hene
    obtain ⟨res, hres, hstart, hend⟩ := processSingleResult_of_lookups
      (show lookupEnds c r = _ by rw [lookupEnds, if_pos hsingle, hlookup, hea, hza])
      rfl hfirstInt rfl hz rfl hbase rfl hbase
    refine ⟨res, first, z, hres, hstart, hend, iff_of_true (fun a ha hat n hn => ?_) (.inl hsingle)⟩
    simp only [ParsedResult.isSingleLine, Bool.and_eq_true, beq_iff_eq] at hsingle
    have hearliest : a.isAt r.earliestFile r.earliestLine = true := by
      refine hat.elim id (fun h => ?_)
      rwa [← hsingle.1.1, ← hsingle.1.2] at h
    have hle := firstAddress_le hincreasing ha hearliest hfirstAddress hn
    have hge := le_getLast?_lineAddresses hincreasing ha hearliest hza hz hn
    omega
  · -- two lines: the first instruction of each
    obtain ⟨row, base, hbase, hlookup⟩ := findAddressForLine_of_listing hearliest hene
    obtain ⟨row', base', hbase', hlookup'⟩ := findAddressForLine_of_listing hlatest hlne
    obtain ⟨res, hres, hstart, hend⟩ := processSingleResult_of_lookups
      (show lookupEnds c r = _ by rw [lookupEnds, if_neg hsingle, hlookup, hlookup', hea, hla])
      rfl hfirstInt rfl hlastInt rfl hbase rfl hbase'
    refine ⟨res, first, last, hres, hstart, hend, ?_⟩
    rw [or_iff_right hsingle]
    constructor
    · intro hcovers a ha hat n first' last' hn hfirst' hlast'
      obtain rfl := Option.some.inj (hfirstAddress.symm.trans hfirst')
      obtain rfl := Option.some.inj (hlastAddress.symm.trans hlast')
      exact (hcovers a ha hat n hn).2
    · intro hnotail a ha hat n hn
      refine ⟨?_, hnotail a ha hat n first last hn hfirstAddress hlastAddress⟩
      rcases hat with hat | hat
      · exact (min_le_left _ _).trans (firstAddress_le hincreasing ha hat hfirstAddress hn)
      · exact (min_le_right _ _).trans (firstAddress_le hincreasing ha hat hlastAddress hn)

end Spans

/-- A kernel with one function, whose second line has two instructions. -/
def tailCaches : Caches where
  vmlinuxPath := "vmlinux".toList
  nmOutput := "1000 T f".toList
  readelfOutput := "net/a.c:".toList
  symbolToModule := []
  moduleNmCache := []
  moduleReadelfCache := []
  objdump := fun _ => some
    "net/a.c:1\n 1000: 90\nnet/a.c:2\n 1004: 90\n 1008: 90\nnet/a.c:3\n 100c: c3".toList

def tailRows : List Attribution :=
  [⟨"net/a.c".toList, 1, "1000".toList⟩, ⟨"net/a.c".toList, 2, "1004".toList⟩,
    ⟨"net/a.c".toList, 2, "1008".toList⟩, ⟨"net/a.c".toList, 3, "100c".toList⟩]

def tailResult (earliestLine latestLine : Int) : ParsedResult where
  function := "f".toList
  earliestFunc := "f".toList
  latestFunc := "f".toList
  earliestFile := "net/a.c".toList
  earliestLine := earliestLine
  latestFile := "net/a.c".toList
  latestLine := latestLine

theorem increasing_tailRows : @Increasing Unicode.ascii tailRows := by
  let _ := Unicode.ascii
  have hvalues : tailRows.map Attribution.addrInt =
      [some 0x1000, some 0x1004, some 0x1008, some 0x100c] := by decide
  have hpairwise : (tailRows.map Attribution.addrInt).Pairwise fun x y => ∀ m n, x = some m →
      y = some n → m < n := by
    rw [hvalues]
    simp
  exact List.pairwise_map.mp hpairwise

theorem processSingleResult_covers_iff_tail :
    ∃ (_ : Unicode) (res : SpanResult) (startInt endInt : Int),
      processSingleResult tailCaches (tailResult 2 3) = some res ∧
      Covers tailRows (tailResult 2 3) startInt endInt := by
  let _ := Unicode.ascii
  obtain ⟨res, startInt, endInt, hres, _, _, hcovers⟩ :=
    processSingleResult_covers_iff tailCaches (tailResult 2 3) tailRows (by decide) (by decide)
      increasing_tailRows (by decide) (by decide)
  refine ⟨_, res, startInt, endInt, hres, hcovers.mpr (.inr ?_)⟩
  intro a ha _ n first last hn _ hlast
  have hlast' : firstAddress tailRows (tailResult 2 3).latestFile (tailResult 2 3).latestLine =
      some 0x100c := by decide
  have hall : ∀ a ∈ tailRows, ∀ n ∈ a.addrInt, n ≤ 0x100c := by decide
  have hle := hall a ha n hn
  rw [hlast] at hlast'
  have := Option.some.inj hlast'
  omega

/-- The second instruction of the later line lies behind the reported end. -/
theorem processSingleResult_loses_tail :
    ¬ ∀ (_ : Unicode) (c : Caches) (r : ParsedResult) (rows : List Attribution),
      listingFor c r.earliestFunc = some rows → listingFor c r.latestFunc = some rows →
      Increasing rows → (∃ a ∈ rows, a.isAt r.earliestFile r.earliestLine = true) →
      (∃ a ∈ rows, a.isAt r.latestFile r.latestLine = true) →
      ∀ res startInt endInt, processSingleResult c r = some res →
      (present res.startAddr).bind (Str.int 16) = some startInt →
      (present res.endAddr).bind (Str.int 16) = some endInt → Covers rows r startInt endInt := by
  intro hall
  let _ := Unicode.ascii
  have hrun : (processSingleResult tailCaches (tailResult 1 2)).map (fun res =>
      ((present res.startAddr).bind (Str.int 16), (present res.endAddr).bind (Str.int 16))) =
      some (some 0x1000, some 0x1004) := by decide
  obtain ⟨res, hres, haddrs⟩ := Option.map_eq_some_iff.mp hrun
  obtain ⟨hstart, hend⟩ := Prod.mk.inj haddrs
  have hcovers := hall _ tailCaches (tailResult 1 2) tailRows (by decide) (by decide)
    increasing_tailRows (by decide) (by decide) res _ _ hres hstart hend
  have hinside := hcovers ⟨"net/a.c".toList, 2, "1008".toList⟩ (by decide) (.inr (by decide)) 0x1008
    (by decide)
  omega

end IrToAssembly

end LinuxAnalysis
