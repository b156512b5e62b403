import LinuxAnalysis.Lib.Grouping
import LinuxAnalysis.Scripts.BaseAddress
import LinuxAnalysis.Scripts.LineTable
import LinuxAnalysis.Scripts.LookupStages

/-!
# ir_to_assembly.py: the function that owns a line

`find_function_for_source_line` files the addresses of a line under the functions that contain them and
takes the function with the most.  What it answers is stated here on the tables alone: a name stands for
its last row, an address belongs to the name with the greatest such row below it, and the largest group
is the answer.
-/

open LinuxAnalysis.Lib

namespace LinuxAnalysis

namespace IrToAssembly

section Search

variable [Unicode]

/-! ## Owners -/

/-- The text symbols with a readable address. -/
def textSymbols (nm : Text) : List (Text × Int) := (nmRows nm).filterMap NmRow.symbol

/-- The address of the last row of a name. -/
def keptAddr (nm f : Text) : Option Int :=
  (((textSymbols nm).filter fun e => some e.1 == some f).getLast?).map Prod.snd

def firstRow (nm f : Text) : Nat := Dict.firstIdx (fun e : Text × Int => some e.1) (textSymbols nm) f

/-- Of the addresses that stand for a name, the one of `f` is the greatest that is not above `a`; among
equal ones `f` is the name that appears last. -/
def Owns (nm : Text) (a : Int) (f : Text) : Prop :=
  ∃ b ∈ keptAddr nm f, b ≤ a ∧ ∀ e ∈ textSymbols nm, ∀ c ∈ keptAddr nm e.1, c ≤ a →
    c < b ∨ c = b ∧ firstRow nm e.1 ≤ firstRow nm f

instance (nm : Text) (a : Int) : DecidablePred (Owns nm a) := fun f =>
  inferInstanceAs (Decidable (∃ b ∈ keptAddr nm f, b ≤ a ∧ ∀ e ∈ textSymbols nm,
    ∀ c ∈ keptAddr nm e.1, c ≤ a → c < b ∨ c = b ∧ firstRow nm e.1 ≤ firstRow nm f))

/-- The owner of an address. -/
def owner (nm addr : Text) : Option Text :=
  (Str.int 16 addr).bind fun a => ((textSymbols nm).map Prod.fst).find? fun f => decide (Owns nm a f)

/-- The addresses of a line in the order of the line table. -/
def rowAddresses (readelf sourceFile : Text) (lineNumber : Int) : List Text :=
  ((lineRows readelf).filter (LineRow.isFor sourceFile lineNumber)).map LineRow.addr

theorem mem_symbols_of_keptAddr {nm f : Text} {b : Int} (h : keptAddr nm f = some b) :
    (f, b) ∈ textSymbols nm := by
  obtain ⟨e, he, rfl⟩ := Option.map_eq_some_iff.mp h
  obtain ⟨hmem, hname⟩ := List.mem_filter.mp (List.mem_of_getLast? he)
  rw [beq_iff_eq, Option.some.injEq] at hname
  rw [← hname]
  exact hmem

theorem Owns.unique {nm : Text} {a : Int} {f g : Text} (hf : Owns nm a f) (hg : Owns nm a g) :
    f = g := by
  obtain ⟨b, hb, hba, hfmax⟩ := hf
  obtain ⟨c, hc, hca, hgmax⟩ := hg
  have hfirst : firstRow nm f = firstRow nm g := by
    have hle := hfmax _ (mem_symbols_of_keptAddr hc) c hc hca
    have hge := hgmax _ (mem_symbols_of_keptAddr hb) b hb hba
    dsimp only at hle hge
    omega
  have hmem {f : Text} {b : Int} (h : keptAddr nm f = some b) :
      ∃ e ∈ textSymbols nm, some e.1 = some f := ⟨_, mem_symbols_of_keptAddr h, rfl⟩
  have hkey := Dict.key_firstIdx (Dict.firstIdx_lt (hmem hb))
  have hkey' := Dict.key_firstIdx (Dict.firstIdx_lt (hmem hc))
  have hidx : Dict.firstIdx (fun e : Text × Int => some e.1) (textSymbols nm) f =
      Dict.firstIdx (fun e : Text × Int => some e.1) (textSymbols nm) g := hfirst
  simp only [hidx] at hkey
  exact Option.some.inj (hkey.symm.trans hkey')

theorem owner_eq_some_iff {nm addr f : Text} :
    owner nm addr = some f ↔ ∃ a, Str.int 16 addr = some a ∧ Owns nm a f := by
  unfold owner
  rw [Option.bind_eq_some_iff]
  apply exists_congr
  intro a
  apply and_congr_right
  intro _
  constructor
  · intro h
    have howns := List.find?_some h
    exact of_decide_eq_true howns
  · intro h
    obtain ⟨b, hb, _⟩ := id h
    have hmem : f ∈ (textSymbols nm).map Prod.fst :=
      List.mem_map.mpr ⟨_, mem_symbols_of_keptAddr hb, rfl⟩
    have hsome : (((textSymbols nm).map Prod.fst).find? fun f => decide (Owns nm a f)).isSome :=
      List.find?_isSome.mpr ⟨f, hmem, decide_eq_true h⟩
    obtain ⟨g, hg⟩ := Option.isSome_iff_exists.mp hsome
    have howns := List.find?_some hg
    rw [hg, h.unique (of_decide_eq_true howns)]

/-! ## The search -/

theorem functionRanges_eq_setBy (nm : Text) :
    functionRanges nm =
      Dict.setBy (fun e : Text × Int => some e.1) (fun _ => Prod.snd) (textSymbols nm) := by
  rw [textSymbols, Dict.setBy, List.foldl_filterMap, functionRanges]
  congr 1
  funext d row
  unfold NmRow.symbol
  cases row.isText <;> cases row.addrInt <;> rfl

theorem lookup_functionRanges (nm f : Text) : (functionRanges nm).lookup f = keptAddr nm f := by
  rw [functionRanges_eq_setBy, Dict.lookup_setBy_last]
  rfl

theorem mem_functionRanges_iff {nm f : Text} {b : Int} :
    (f, b) ∈ functionRanges nm ↔ keptAddr nm f = some b := by
  rw [← lookup_functionRanges, Dict.lookup_eq_some_iff]
  rw [functionRanges_eq_setBy]
  exact Dict.nodup_keys_setBy _

def sortedFuncs (nm : Text) : List (Text × Int) :=
  (functionRanges nm).insertionSort fun f g => f.2 ≤ g.2

theorem mem_sortedFuncs {nm f : Text} {b : Int} : (f, b) ∈ sortedFuncs nm ↔ keptAddr nm f = some b := by
  rw [sortedFuncs, List.mem_insertionSort, mem_functionRanges_iff]

/-- The sort keeps names of one address in the order of their first rows. -/
theorem pairwise_sortedFuncs (nm : Text) :
    (sortedFuncs nm).Pairwise (KeyThen Prod.snd fun e e' => firstRow nm e.1 < firstRow nm e'.1) := by
  apply pairwise_insertionSort_keyThen
  have horder : ((Dict.setBy (fun e : Text × Int => some e.1) (fun _ => Prod.snd)
      (textSymbols nm)).map Prod.fst).Pairwise fun f g => firstRow nm f < firstRow nm g :=
    Dict.pairwise_keys_setBy (textSymbols nm)
  rw [List.pairwise_map] at horder
  rw [functionRanges_eq_setBy]
  exact horder

theorem containingFunction_eq_some_iff {nm : Text} {a : Int} {f : Text} :
    containingFunction (sortedFuncs nm) a = some f ↔ Owns nm a f := by
  have hsorted : (sortedFuncs nm).Pairwise fun e e' => e.2 ≤ e'.2 :=
    List.pairwise_insertionSort _ _
  have hprefix {e : Text × Int} := mem_takeWhile_of_sorted (a := a) hsorted (x := e)
  -- the last function before the first one above `a` owns it
  have howns {f : Text} (h : containingFunction (sortedFuncs nm) a = some f) : Owns nm a f := by
    obtain ⟨e, he, rfl⟩ := Option.map_eq_some_iff.mp h
    obtain ⟨hmem, hle⟩ := hprefix.mp (List.mem_of_getLast? he)
    refine ⟨e.2, mem_sortedFuncs.mp hmem, hle, fun e' _ c hc hca => ?_⟩
    have hin := hprefix.mpr ⟨mem_sortedFuncs.mpr hc, hca⟩
    obtain ⟨front, hfront⟩ := List.getLast?_eq_some_iff.mp he
    have hpairwise := (pairwise_sortedFuncs nm).sublist
      (List.takeWhile_sublist fun e => decide (e.2 ≤ a))
    rw [hfront] at hin hpairwise
    rcases List.mem_append.mp hin with hin | hin
    · rcases (List.pairwise_append.mp hpairwise).2.2 _ hin e (by simp) with hlt | ⟨heq, hlt⟩
      · exact .inl hlt
      · exact .inr ⟨heq, le_of_lt hlt⟩
    · rw [← List.mem_singleton.mp hin]
      exact .inr ⟨rfl, le_refl _⟩
  refine ⟨howns, fun h => ?_⟩
  cases hcontaining : containingFunction (sortedFuncs nm) a with
  | some g => rw [h.unique (howns hcontaining)]
  | none =>
    obtain ⟨b, hb, hba, _⟩ := h
    have hin := hprefix.mpr ⟨mem_sortedFuncs.mpr hb, hba⟩
    rw [List.getLast?_eq_none_iff.mp (Option.map_eq_none_iff.mp hcontaining)] at hin
    exact absurd hin List.not_mem_nil

theorem owner_eq (nm addr : Text) :
    owner nm addr = (Str.int 16 addr).bind (containingFunction (sortedFuncs nm)) := by
  apply Option.ext
  intro f
  rw [owner_eq_some_iff, Option.bind_eq_some_iff]
  simp only [containingFunction_eq_some_iff]

theorem foldl_addCandidate (nm : Text) (addrs : List Text) :
    addrs.foldl (addCandidate (sortedFuncs nm)) [] = Dict.groupBy (owner nm) addrs := by
  unfold Dict.groupBy Dict.setBy
  congr 1
  funext found addr
  rw [addCandidate, ← owner_eq]
  cases howner : owner nm addr with
  | none => rfl
  | some f =>
    dsimp only
    rw [howner]
    rfl

/-- The answer of the search is the owner of the largest group, with its address and its rows. -/
theorem findFunctionForSourceLine_eq_some_iff {nm readelf sourceFile : Text} {lineNumber : Int}
    {f base : Text} {addrs : List Text} :
    findFunctionForSourceLine nm readelf sourceFile lineNumber = some (f, base, addrs) ↔
      Dict.IsLargest (owner nm) (rowAddresses readelf sourceFile lineNumber) f ∧
        base = (Str.hex ((keptAddr nm f).getD 0)).drop 2 ∧
        addrs = (rowAddresses readelf sourceFile lineNumber).filter fun addr =>
          owner nm addr == some f := by
  unfold findFunctionForSourceLine
  dsimp only
  rw [← sortedFuncs, foldl_addCandidate, lineTableAddresses_eq, ← rowAddresses]
  generalize rowAddresses readelf sourceFile lineNumber = rows
  simp only [lookup_functionRanges, Dict.lookup_groupBy]
  have hlargest {g : Text} (h : Dict.firstMax
      (fun f => (rows.filter fun addr => owner nm addr == some f).length)
      ((Dict.groupBy (owner nm) rows).map Prod.fst) = some g) :
      Dict.IsLargest (owner nm) rows g := by
    apply Dict.isLargest_of_firstMax
    simp only [Dict.lookup_groupBy]
    exact h
  rw [Option.map_eq_some_iff]
  constructor
  · rintro ⟨g, hg, heq⟩
    obtain ⟨rfl, hrest⟩ := Prod.mk.inj heq
    obtain ⟨rfl, rfl⟩ := Prod.mk.inj hrest
    exact ⟨hlargest hg, rfl, rfl⟩
  · rintro ⟨hf, rfl, rfl⟩
    refine ⟨f, ?_, rfl⟩
    cases hfirst : Dict.firstMax (fun f => (rows.filter fun addr => owner nm addr == some f).length)
        ((Dict.groupBy (owner nm) rows).map Prod.fst) with
    | some g => rw [hf.unique (hlargest hfirst)]
    | none =>
      -- a group that is not empty has a key
      have hkey : f ∈ (Dict.groupBy (owner nm) rows).map Prod.fst :=
        Dict.mem_keys_setBy.mpr (Dict.groupSize_pos_iff.mp hf.pos)
      rw [Dict.firstMax_eq_none hfirst] at hkey
      exact absurd hkey List.not_mem_nil

/-! ## The function that contains the addresses -/

/-- The addresses lie in the function: at or above its base, with no text symbol between. -/
def LiesIn (nm s base : Text) (addrs : List Text) : Prop :=
  addrs ≠ [] ∧ ∃ b, Str.int 16 base = some b ∧
    (∃ row ∈ nmRows nm, row.isText = true ∧ row.name = s ∧ row.addrInt = some b) ∧
    ∀ addr ∈ addrs, ∃ a, Str.int 16 addr = some a ∧ b ≤ a ∧
      ∀ row ∈ nmRows nm, row.isText = true → ∀ c, row.addrInt = some c → ¬(b < c ∧ c ≤ a)

/-- Above the row that stands for `f` and up to an address that `f` owns there is no symbol whose name
stands for another row. -/
def NoReplacedBetween (nm f : Text) (b : Int) (rows : List Text) : Prop :=
  ∀ addr ∈ rows, ∀ a, Str.int 16 addr = some a → Owns nm a f →
    ∀ e ∈ textSymbols nm, keptAddr nm e.1 ≠ some e.2 → ¬(b < e.2 ∧ e.2 ≤ a)

theorem mem_textSymbols {nm f : Text} {b : Int} : (f, b) ∈ textSymbols nm ↔
    ∃ row ∈ nmRows nm, row.isText = true ∧ row.addrInt = some b ∧ row.name = f :=
  mem_symbols

/-- **The containing function.**  The function found for a line contains the addresses it comes with if
and only if, for the owner of the most rows of the line, the row that stands for it has a readable base
and no replaced symbol lies between it and one of these rows. -/
theorem findFunctionForSourceLine_liesIn_iff (nm readelf sourceFile : Text) (lineNumber : Int) :
    (∀ s base addrs,
      findFunctionForSourceLine nm readelf sourceFile lineNumber = some (s, base, addrs) →
      LiesIn nm s base addrs) ↔
    ∀ f b, Dict.IsLargest (owner nm) (rowAddresses readelf sourceFile lineNumber) f →
      keptAddr nm f = some b →
      0 ≤ b ∧ NoReplacedBetween nm f b (rowAddresses readelf sourceFile lineNumber) := by
  generalize hrows : rowAddresses readelf sourceFile lineNumber = rows
  -- the addresses of a candidate are the rows its function owns
  have howned {f addr : Text} : addr ∈ rows.filter (fun addr => owner nm addr == some f) ↔
      addr ∈ rows ∧ ∃ a, Str.int 16 addr = some a ∧ Owns nm a f := by
    rw [List.mem_filter, beq_iff_eq, owner_eq_some_iff]
  constructor
  · intro h f b hf hb
    have hbase : Str.int 16 ((Str.hex b).drop 2) = if 0 ≤ b then some b else none := Str.int_drop_hex b
    obtain ⟨_, b', hb', _, haddrs⟩ := h f _ _ (findFunctionForSourceLine_eq_some_iff.mpr
      ⟨by rw [hrows]; exact hf, rfl, rfl⟩)
    rw [hb, Option.getD_some, hbase] at hb'
    split at hb'
    next hpos =>
      obtain rfl := Option.some.inj hb'
      refine ⟨hpos, fun addr haddr a ha howns e he _ => ?_⟩
      rw [hrows] at haddrs
      obtain ⟨a', ha', _, hnone⟩ := haddrs addr (howned.mpr ⟨haddr, a, ha, howns⟩)
      obtain rfl := Option.some.inj (ha.symm.trans ha')
      obtain ⟨row, hrow, htext, hc, _⟩ := mem_textSymbols.mp he
      exact hnone row hrow htext e.2 hc
    next => cases hb'
  -- the answer is a largest group, which is not empty
  · intro h s base addrs hfound
    obtain ⟨hlargest, rfl, rfl⟩ := findFunctionForSourceLine_eq_some_iff.mp hfound
    rw [hrows] at hlargest ⊢
    obtain ⟨addr, haddr, howner⟩ := Dict.groupSize_pos_iff.mp hlargest.pos
    obtain ⟨a, ha, howns⟩ := owner_eq_some_iff.mp howner
    obtain ⟨b, hb, _⟩ := id howns
    obtain ⟨hpos, hbetween⟩ := h s b hlargest hb
    obtain ⟨row, hrow, htext, hrowAddr, hname⟩ := mem_textSymbols.mp (mem_symbols_of_keptAddr hb)
    refine ⟨List.ne_nil_of_mem (howned.mpr ⟨haddr, a, ha, howns⟩), b, ?_,
      ⟨row, hrow, htext, hname, hrowAddr⟩, fun addr haddr => ?_⟩
    · rw [hb, Option.getD_some, Str.int_drop_hex, if_pos hpos]
    · obtain ⟨hmem, a, ha, howns⟩ := howned.mp haddr
      obtain ⟨b', hb', hle, hmax⟩ := id howns
      obtain rfl := Option.some.inj (hb.symm.trans hb')
      refine ⟨a, ha, hle, fun row hrow htext c hc => ?_⟩
      have hsymbol : (row.name, c) ∈ textSymbols nm := mem_textSymbols.mpr ⟨row, hrow, htext, hc, rfl⟩
      by_cases hkept : keptAddr nm row.name = some c
      · -- a symbol that stands for its name competes for the address
        rintro ⟨hlt, hca⟩
        have hcompare := hmax _ hsymbol c hkept hca
        omega
      · exact hbetween addr hmem a ha howns _ hsymbol hkept

/-! ## The range of an inlined line -/

/-- What `findInModule` searches for a module. -/
def moduleSearchTables (c : Caches) (sourceFile : Text) (m : Text × Text) : Option (Text × Text) :=
  if Str.contains (Str.basename sourceFile) m.2 then
    match c.moduleNmCache.lookup m.1, c.symbolToModule.find? fun s => s.2.1 = m.1 with
    | some moduleNm, some (_, _, path) => if path.isEmpty then none else some (moduleNm, m.2)
    | _, _ => none
  else none

/-- The pairs of a symbol table and a line table that are searched for an inlined line, in order. -/
def searchTables (c : Caches) (t : BinaryTables) (sourceFile : Text) : List (Text × Text) :=
  (t.nm, t.readelf) ::
    if c.symbolToModule.isEmpty then []
    else c.moduleReadelfCache.filterMap (moduleSearchTables c sourceFile)

theorem findInlined_eq (c : Caches) (t : BinaryTables) (sourceFile : Text) (lineNumber : Int) :
    findInlined c t sourceFile lineNumber = (searchTables c t sourceFile).findSome? fun p =>
      findFunctionForSourceLine p.1 p.2 sourceFile lineNumber := by
  unfold findInlined searchTables
  rw [List.findSome?_cons]
  cases findFunctionForSourceLine t.nm t.readelf sourceFile lineNumber with
  | some found => rfl
  | none =>
    dsimp only
    by_cases hempty : c.symbolToModule.isEmpty = true
    · rw [if_pos hempty, if_pos hempty]
      rfl
    · rw [if_neg hempty, if_neg hempty, ← List.head?_filterMap, ← List.head?_filterMap,
        List.filterMap_filterMap, List.head?_filterMap, List.head?_filterMap]
      congr 1
      funext m
      unfold findInModule moduleSearchTables
      by_cases hcontains : Str.contains (Str.basename sourceFile) m.2 = true
      · rw [if_pos hcontains, if_pos hcontains]
        cases c.moduleNmCache.lookup m.1 with
        | none => rfl
        | some moduleNm =>
          cases c.symbolToModule.find? fun s => s.2.1 = m.1 with
          | none => rfl
          | some s =>
            dsimp only
            split <;> rfl
      · rw [if_neg hcontains, if_neg hcontains]
        rfl

/-- Some row of the line has an owner. -/
def hasOwnedRow (sourceFile : Text) (lineNumber : Int) (p : Text × Text) : Bool :=
  (rowAddresses p.2 sourceFile lineNumber).any fun addr => (owner p.1 addr).isSome

/-- The search of a pair of tables answers exactly then. -/
theorem findFunctionForSourceLine_isSome (sourceFile : Text) (lineNumber : Int) (p : Text × Text) :
    (findFunctionForSourceLine p.1 p.2 sourceFile lineNumber).isSome =
      hasOwnedRow sourceFile lineNumber p := by
  rw [Bool.eq_iff_iff]
  unfold hasOwnedRow
  rw [List.any_eq_true]
  constructor
  · intro h
    obtain ⟨⟨f, base, addrs⟩, hfound⟩ := Option.isSome_iff_exists.mp h
    have hlargest := (findFunctionForSourceLine_eq_some_iff.mp hfound).1
    obtain ⟨addr, haddr, howner⟩ := Dict.groupSize_pos_iff.mp hlargest.pos
    exact ⟨addr, haddr, by rw [howner]; rfl⟩
  · rintro ⟨addr, haddr, howner⟩
    obtain ⟨f, hf⟩ := Option.isSome_iff_exists.mp howner
    unfold findFunctionForSourceLine
    dsimp only
    rw [← sortedFuncs, foldl_addCandidate, lineTableAddresses_eq, ← rowAddresses, Option.isSome_map,
      Option.isSome_iff_ne_none]
    intro hnone
    -- the owner is a key
    have hkey : f ∈ (Dict.groupBy (owner p.1) (rowAddresses p.2 sourceFile lineNumber)).map Prod.fst :=
      Dict.mem_keys_setBy.mpr ⟨addr, haddr, hf⟩
    rw [Dict.firstMax_eq_none hnone] at hkey
    exact absurd hkey List.not_mem_nil

/-- One address is not above the other. -/
def AddrLE (x y : Text) : Prop := ∃ m n, Str.int 16 x = some m ∧ Str.int 16 y = some n ∧ m ≤ n

/-- The first of the addresses is the least and the last one the greatest. -/
def EndsEnclose (addrs : List Text) : Prop :=
  ∀ first ∈ addrs.head?, ∀ last ∈ addrs.getLast?, ∀ addr ∈ addrs, AddrLE first addr ∧ AddrLE addr last

/-- **The range of an inlined line.**  For a function without a symbol whose line is found in another
one, the range encloses the addresses of the line there if and only if, in the first tables in which
some row of the line has an owner, the rows of the owner of the most begin with the least address and
end with the greatest. -/
theorem findAddressRangeForSingleLine_encloses_iff (c : Caches) (sourceFile : Text) (lineNumber : Int)
    (function : Text) {f base : Text} {addrs : List Text}
    (hnm : (actualTables c function).nm ≠ [])
    (hsymbol : findSymbol (actualTables c function).nm function = none)
    (hfound : findInlined c (actualTables c function) sourceFile lineNumber = some (f, base, addrs)) :
    (∃ start stop, findAddressRangeForSingleLine c sourceFile lineNumber function =
        ⟨some start, some stop, some base, some f⟩ ∧
        ∀ addr ∈ addrs, AddrLE start addr ∧ AddrLE addr stop) ↔
      ∀ p g, (searchTables c (actualTables c function) sourceFile).find?
          (hasOwnedRow sourceFile lineNumber) = some p →
        Dict.IsLargest (owner p.1) (rowAddresses p.2 sourceFile lineNumber) g →
        EndsEnclose ((rowAddresses p.2 sourceFile lineNumber).filter fun addr =>
          owner p.1 addr == some g) := by
  have hrange : findAddressRangeForSingleLine c sourceFile lineNumber function =
      ⟨addrs.head?, addrs.getLast?, some base, some f⟩ := by
    rw [findAddressRangeForSingleLine_eq, lookupFound, if_neg (by simpa using hnm), hsymbol]
    dsimp only
    rw [inlinedFound, hfound]
    rfl
  -- the tables that answer
  rw [findInlined_eq] at hfound
  obtain ⟨before, p, after, htables, hp, hbefore⟩ := List.findSome?_eq_some_iff.mp hfound
  have hfind : (searchTables c (actualTables c function) sourceFile).find?
      (hasOwnedRow sourceFile lineNumber) = some p := by
    apply List.find?_eq_some_iff_append.mpr
    refine ⟨?_, before, after, htables, fun q hq => ?_⟩
    · rw [← findFunctionForSourceLine_isSome, hp]
      rfl
    · rw [← findFunctionForSourceLine_isSome, hbefore q hq]
      rfl
  obtain ⟨hlargest, _, haddrs⟩ := findFunctionForSourceLine_eq_some_iff.mp hp
  rw [hrange]
  constructor
  · rintro ⟨start, stop, heq, hencloses⟩ q g hq hg first hfirst last hlast
    obtain rfl := Option.some.inj (hfind.symm.trans hq)
    obtain rfl := hlargest.unique hg
    rw [← haddrs] at hfirst hlast ⊢
    obtain rfl : start = first := Option.some.inj ((congrArg AddressRange.startAddr heq).symm.trans hfirst)
    obtain rfl : stop = last := Option.some.inj ((congrArg AddressRange.endAddr heq).symm.trans hlast)
    exact hencloses
  · intro hcond
    have hends : EndsEnclose addrs := haddrs ▸ hcond p f hfind hlargest
    cases haddrsEq : addrs with
    | nil =>
      -- the largest group is not empty
      have hpos := hlargest.pos
      rw [Dict.groupSize, ← haddrs, haddrsEq] at hpos
      exact absurd hpos (lt_irrefl 0)
    | cons first rest =>
      rw [haddrsEq] at hends
      refine ⟨first, (first :: rest).getLast (List.cons_ne_nil _ _), ?_, fun addr haddr => ?_⟩
      · rw [List.head?_cons, List.getLast?_eq_some_getLast (List.cons_ne_nil first rest)]
      · exact hends first rfl _ (List.getLast?_eq_some_getLast (List.cons_ne_nil first rest)) addr haddr

end Search

/-! ## Tables that go wrong -/

/-- Two static functions of one name; the second one takes the place of the first. -/
def twinNm : Text := "10 T a\n20 t s\n30 T b\n40 t s".toList

def twinReadelf : Text := "a.c 1 0x24".toList

/-- The address in the first of the two functions is ascribed to the function before it. -/
theorem findFunctionForSourceLine_misses_twin :
    ¬ ∀ (_ : Unicode) (nm readelf sourceFile : Text) (lineNumber : Int) (s base : Text)
      (addrs : List Text),
      findFunctionForSourceLine nm readelf sourceFile lineNumber = some (s, base, addrs) →
      LiesIn nm s base addrs := by
  intro hall
  let _ := Unicode.ascii
  have hfound : findFunctionForSourceLine twinNm twinReadelf "a.c".toList 1 =
      some ("a".toList, "10".toList, ["24".toList]) := by decide +kernel
  obtain ⟨_, b, hb, _, haddrs⟩ := hall _ _ _ _ _ _ _ _ hfound
  obtain ⟨a, ha, _, hnone⟩ := haddrs "24".toList (by decide)
  have hb' : Str.int 16 "10".toList = some 0x10 := by decide
  have ha' : Str.int 16 "24".toList = some 0x24 := by decide
  obtain rfl := Option.some.inj (hb.symm.trans hb')
  obtain rfl := Option.some.inj (ha.symm.trans ha')
  exact hnone ⟨"20".toList, ['t'], ['s']⟩ (by decide) (by decide) 0x20 (by decide) (by decide)

/-- A kernel whose line table has two rows for a line, in this order. -/
def rowsCaches (first second : String) : Caches where
  vmlinuxPath := "vmlinux".toList
  nmOutput := "10 T f".toList
  readelfOutput := first.toList ++ '\n' :: second.toList
  symbolToModule := []
  moduleNmCache := []
  moduleReadelfCache := []
  objdump := fun _ => none

theorem findAddressRangeForSingleLine_encloses_iff_rising :
    ∃ (_ : Unicode) (start stop : Text),
      findAddressRangeForSingleLine (rowsCaches "a.c 1 0x20" "a.c 1 0x30") "a.c".toList 1 "g".toList =
        ⟨some start, some stop, some "10".toList, some "f".toList⟩ ∧
      ∀ addr ∈ ["20".toList, "30".toList], AddrLE start addr ∧ AddrLE addr stop := by
  let _ := Unicode.ascii
  refine ⟨_, (findAddressRangeForSingleLine_encloses_iff _ _ _ _ (by decide) (by decide +kernel)
    (by decide +kernel)).mpr ?_⟩
  intro p g hp _
  have htables : searchTables (rowsCaches "a.c 1 0x20" "a.c 1 0x30")
      (actualTables (rowsCaches "a.c 1 0x20" "a.c 1 0x30") "g".toList) "a.c".toList =
      [("10 T f".toList, "a.c 1 0x20\na.c 1 0x30".toList)] := by decide +kernel
  rw [htables] at hp
  obtain rfl := List.mem_singleton.mp (List.mem_of_find?_eq_some hp)
  have hrows : rowAddresses "a.c 1 0x20\na.c 1 0x30".toList "a.c".toList 1 =
      ["20".toList, "30".toList] := by decide +kernel
  have howner : ∀ addr ∈ ["20".toList, "30".toList],
      owner "10 T f".toList addr = some "f".toList := by decide +kernel
  dsimp only
  rw [hrows]
  -- one function owns both rows, so every other group is empty
  by_cases hg : "f".toList = g
  · have hgroup : ["20".toList, "30".toList].filter (fun addr => owner "10 T f".toList addr == some g) =
        ["20".toList, "30".toList] := by
      apply List.filter_eq_self.mpr
      intro addr haddr
      rw [howner addr haddr, hg]
      exact beq_self_eq_true _
    rw [hgroup]
    intro first hfirst last hlast addr haddr
    obtain rfl := Option.some.inj hfirst
    obtain rfl := Option.some.inj hlast
    rcases List.mem_cons.mp haddr with rfl | haddr
    · exact ⟨⟨0x20, 0x20, by decide, by decide, by decide⟩, ⟨0x20, 0x30, by decide, by decide, by decide⟩⟩
    · rw [List.mem_singleton.mp haddr]
      exact ⟨⟨0x20, 0x30, by decide, by decide, by decide⟩, ⟨0x30, 0x30, by decide, by decide, by decide⟩⟩
  · have hgroup : ["20".toList, "30".toList].filter (fun addr => owner "10 T f".toList addr == some g) =
        [] := by
      apply List.filter_eq_nil_iff.mpr
      intro addr haddr
      rw [howner addr haddr, beq_iff_eq, Option.some.injEq]
      exact hg
    rw [hgroup]
    intro first hfirst
    cases hfirst

/-- With the rows the other way round the range ends below its start. -/
theorem findAddressRangeForSingleLine_misses_falling :
    ¬ ∀ (_ : Unicode) (c : Caches) (sourceFile : Text) (lineNumber : Int) (function f base : Text)
      (addrs : List Text), (actualTables c function).nm ≠ [] →
      findSymbol (actualTables c function).nm function = none →
      findInlined c (actualTables c function) sourceFile lineNumber = some (f, base, addrs) →
      ∃ start stop, findAddressRangeForSingleLine c sourceFile lineNumber function =
        ⟨some start, some stop, some base, some f⟩ ∧
        ∀ addr ∈ addrs, AddrLE start addr ∧ AddrLE addr stop := by
  intro hall
  let _ := Unicode.ascii
  have hrange : findAddressRangeForSingleLine (rowsCaches "a.c 1 0x30" "a.c 1 0x20") "a.c".toList 1
      "g".toList = ⟨some "30".toList, some "20".toList, some "10".toList, some "f".toList⟩ := by
    decide +kernel
  obtain ⟨start, stop, heq, hencloses⟩ := hall Unicode.ascii
    (rowsCaches "a.c 1 0x30" "a.c 1 0x20") "a.c".toList 1 "g".toList "f".toList "10".toList ["30".toList, "20".toList] (by decide) (by decide +kernel)
    (by decide +kernel)
  rw [hrange] at heq
  obtain ⟨rfl, rfl⟩ : "30".toList = start ∧ "20".toList = stop := by simpa using heq
  obtain ⟨m, n, hm, hn, hle⟩ := (hencloses "20".toList (by decide)).1
  have hm' : Str.int 16 "30".toList = some 0x30 := by decide
  have hn' : Str.int 16 "20".toList = some 0x20 := by decide
  obtain rfl := Option.some.inj (hm.symm.trans hm')
  obtain rfl := Option.some.inj (hn.symm.trans hn')
  exact absurd hle (by decide)

end IrToAssembly

end LinuxAnalysis
