import LinuxAnalysis.Lib.Loop
import LinuxAnalysis.Scripts.FunctionSearch

/-!
# Offsets and the symbol they are relative to

An entry of the offset file names one symbol and carries two offsets.  The two ends of the span are
looked up one after the other, each with a base of its own, and are brought to one base only when an
offset is negative or a base is missing.
-/

open LinuxAnalysis.Lib

namespace LinuxAnalysis

namespace IrToAssembly

theorem nmRow_name_ne_nil {nm : Text} {row : NmRow} (h : row ∈ nmRows nm) : row.name ≠ [] := by
  obtain ⟨line, _, hrow⟩ := List.mem_filterMap.mp h
  unfold nmRow at hrow
  split at hrow
  next addr symbolType name rest hsplit =>
    have hname : name ∈ Str.split line := by
      rw [hsplit]
      simp
    have hne := (List.mem_filter.mp hname).2
    rw [← Option.some.inj hrow]
    show name ≠ []
    simpa using hne
  next => cases hrow

theorem containingFunction_mem {sorted : List (Text × Int)} {addr : Int} {f : Text}
    (h : containingFunction sorted addr = some f) : ∃ v, (f, v) ∈ sorted := by
  obtain ⟨e, he, rfl⟩ := Option.map_eq_some_iff.mp h
  exact ⟨e.2, (List.takeWhile_sublist _).subset (List.mem_of_getLast? he)⟩

theorem lookup_getD_mem (c : Caches) (moduleName : Text) :
    (c.moduleNmCache.lookup moduleName).getD c.nmOutput ∈
      c.nmOutput :: c.moduleNmCache.map Prod.snd := by
  cases hnm : c.moduleNmCache.lookup moduleName with
  | none => exact List.mem_cons_self
  | some nm => exact List.mem_cons_of_mem _ (List.mem_map.mpr ⟨_, Dict.mem_of_lookup hnm, rfl⟩)

theorem actualTables_nm_mem (c : Caches) (function : Text) :
    (actualTables c function).nm ∈ c.nmOutput :: c.moduleNmCache.map Prod.snd := by
  unfold actualTables
  dsimp only
  split
  · exact List.mem_cons_self
  · split
    next => exact List.mem_cons_self
    next moduleName path _ =>
      split
      · exact List.mem_cons_self
      · exact lookup_getD_mem c moduleName

theorem present_some {s : Text} (h : s ≠ []) : present (some s) = some s := by
  cases s with
  | nil => exact absurd rfl h
  | cons c s => rfl

theorem present_hex (z : Int) : present (some (Str.hex z)) = some (Str.hex z) := by
  cases z <;> rfl

theorem offsetText_injective {a b a' b' : Int}
    (h : Str.hex a ++ offsetSeparator ++ Str.hex b = Str.hex a' ++ offsetSeparator ++ Str.hex b') :
    a = a' ∧ b = b' := by
  have hfirst (x y : Int) :
      (Str.hex x ++ offsetSeparator ++ Str.hex y).takeWhile (fun c => !Str.isSpace c) = Str.hex x := by
    have hnospace : ∀ c ∈ Str.hex x, (!Str.isSpace c) = true := fun c hc => by
      rw [Str.isSpace_hex hc]
      rfl
    rw [List.append_assoc, List.takeWhile_append_of_pos hnospace]
    show Str.hex x ++ List.takeWhile _ (' ' :: _) = _
    rw [List.takeWhile_cons_of_neg (by decide), List.append_nil]
  have ha : Str.hex a = Str.hex a' := by rw [← hfirst a b, h, hfirst]
  rw [ha] at h
  exact ⟨Str.hex_injective ha, Str.hex_injective (List.append_cancel_left h)⟩

theorem relocationNm_mem (c : Caches) (r : ParsedResult) :
    relocationNm c r ∈ c.nmOutput :: c.moduleNmCache.map Prod.snd := by
  unfold relocationNm
  split
  · exact List.mem_cons_self
  · split
    next => exact List.mem_cons_self
    next moduleName _ _ =>
      split
      · exact List.mem_cons_self
      · exact lookup_getD_mem c moduleName

theorem funcOffsetEntry_eq_some {res : SpanResult} {entry : OffsetEntry} {startOffset endOffset : Text}
    (hstart : res.startOffset = some startOffset) (hend : res.endOffset = some endOffset)
    (h : funcOffsetEntry res = some entry) :
    entry.function = (present res.startSymbol).getD res.function ∧
      entry.offset = startOffset ++ offsetSeparator ++ endOffset := by
  unfold funcOffsetEntry at h
  split at h
  next s e hs he =>
    rw [hstart] at hs
    rw [hend] at he
    obtain rfl := Option.some.inj (Option.filter_eq_some_iff.mp hs).1
    obtain rfl := Option.some.inj (Option.filter_eq_some_iff.mp he).1
    rw [← Option.some.inj h]
    exact ⟨rfl, rfl⟩
  next => cases h

theorem present_of_funcOffsetEntry {res : SpanResult} {entry : OffsetEntry}
    (h : funcOffsetEntry res = some entry) :
    present res.startOffset ≠ none ∧ present res.endOffset ≠ none := by
  unfold funcOffsetEntry at h
  split at h
  next s e hs he => simp [hs, he]
  next => cases h

section Entries

variable [Unicode]

/-! ## Relocation -/

/-- The row found is a text symbol below the span. -/
theorem findBestBaseAddressBelowSpan_eq_some {nm minAddr : Text} {row : NmRow}
    (h : findBestBaseAddressBelowSpan nm minAddr = some row) :
    ∃ m b, Str.int 16 minAddr = some m ∧ row ∈ nmRows nm ∧ row.isText = true ∧
      row.addrInt = some b ∧ b < m := by
  cases hm : Str.int 16 minAddr with
  | none =>
    rw [findBestBaseAddressBelowSpan, hm] at h
    cases h
  | some m =>
    have hspec := findBestBaseAddressBelowSpan_spec nm hm
    rw [h] at hspec
    obtain ⟨hrow, ⟨htext, b, hb, hlt⟩, _⟩ := hspec
    exact ⟨m, b, rfl, hrow, htext, hb, hlt⟩

theorem findBestBaseAddressBelowSpan_eq_none {nm minAddr : Text} {m : Int}
    (hm : Str.int 16 minAddr = some m) (h : findBestBaseAddressBelowSpan nm minAddr = none) :
    ∀ row ∈ nmRows nm, row.isText = true → ∀ b, row.addrInt = some b → ¬ b < m := by
  have hspec : SearchResult NmRow.address (NmRow.IsBelow m) (nmRows nm) none :=
    h ▸ findBestBaseAddressBelowSpan_spec nm hm
  intro row hrow htext b hb hlt
  exact hspec row hrow ⟨htext, b, hb, hlt⟩

/-! ## Bases come from symbol tables -/

/-- One of the symbol tables gives `symbol` the address `base`. -/
def SymbolAt (c : Caches) (symbol : Text) (base : Int) : Prop :=
  ∃ nm ∈ c.nmOutput :: c.moduleNmCache.map Prod.snd, ∃ row ∈ nmRows nm,
    row.name = symbol ∧ row.addrInt = some base

/-- The search answers with a function of the table and its base, and with at least one address. -/
theorem findFunctionForSourceLine_eq_some {nm readelf sourceFile : Text} {lineNumber : Int}
    {f base : Text} {addrs : List Text}
    (h : findFunctionForSourceLine nm readelf sourceFile lineNumber = some (f, base, addrs)) :
    f ≠ [] ∧ ∀ b, Str.int 16 base = some b → ∃ row ∈ nmRows nm, row.name = f ∧
      row.addrInt = some b := by
  unfold findFunctionForSourceLine at h
  dsimp only at h
  generalize hfound : (lineTableAddresses readelf sourceFile lineNumber).foldl
    (addCandidate ((functionRanges nm).insertionSort fun f g => f.2 ≤ g.2)) [] = found at h
  obtain ⟨g, hg, heq⟩ := Option.map_eq_some_iff.mp h
  obtain ⟨rfl, rfl, rfl⟩ : g = f ∧ _ = base ∧ _ = addrs := by simpa using heq
  -- a candidate enters the dictionary under the function that contains its address
  have hkeys : ∀ e ∈ found, ∃ v, (e.1, v) ∈ functionRanges nm := by
    rw [← hfound]
    refine foldl_invariant (I := fun d : Dict Text (List Text) => ∀ e ∈ d, ∃ v,
      (e.1, v) ∈ functionRanges nm) (fun d addr _ hd => ?_) (fun _ h => by cases h)
    unfold addCandidate
    split
    next => exact hd
    next f' hf' =>
      intro e he
      rcases Dict.mem_of_mem_set he with rfl | he
      · obtain ⟨_, _, hcontaining⟩ := Option.bind_eq_some_iff.mp hf'
        obtain ⟨v, hv⟩ := containingFunction_mem hcontaining
        exact ⟨v, (List.mem_insertionSort _).mp hv⟩
      · exact hd e he
  obtain ⟨e, he, rfl⟩ := List.mem_map.mp (Dict.mem_of_firstMax hg)
  obtain ⟨v, hv⟩ := hkeys e he
  obtain ⟨addr, haddr⟩ := Dict.lookup_of_mem hv
  have hkept : keptAddr nm e.1 = some addr := by rw [← lookup_functionRanges, haddr]
  obtain ⟨row, hrow, _, hrowAddr, hname⟩ := mem_textSymbols.mp (mem_symbols_of_keptAddr hkept)
  refine ⟨hname ▸ nmRow_name_ne_nil hrow, fun b hb => ⟨row, hrow, hname, ?_⟩⟩
  -- the base is printed without its sign, so a negative one does not read back
  rw [haddr, Option.getD_some, Str.int_drop_hex] at hb
  split at hb
  · rw [hrowAddr, hb]
  · cases hb

/-- A base that a lookup returns comes with the symbol that has it as its address. -/
def BaseSound (c : Caches) (baseAddress symbolName : Option Text) : Prop :=
  ∀ base, baseAddress = some base → ∃ symbol, symbol ≠ [] ∧ symbolName = some symbol ∧
    ∀ b, Str.int 16 base = some b → SymbolAt c symbol b

theorem baseSound_none {c : Caches} {symbolName : Option Text} : BaseSound c none symbolName := by
  intro base h
  cases h

theorem baseSound_row {c : Caches} {nm function : Text} {row : NmRow}
    (hnm : nm ∈ c.nmOutput :: c.moduleNmCache.map Prod.snd) (h : findSymbol nm function = some row) :
    BaseSound c (some row.addr) (some row.name) := by
  intro base hbase
  have hrow := List.mem_of_find?_eq_some h
  refine ⟨row.name, nmRow_name_ne_nil hrow, rfl, fun b hb => ⟨nm, hnm, row, hrow, rfl, ?_⟩⟩
  rw [NmRow.addrInt, Option.some.inj hbase, hb]

theorem baseSound_inlined {c : Caches} {t : BinaryTables} {sourceFile : Text} {lineNumber : Int}
    {f base : Text} {addrs : List Text} (hnm : t.nm ∈ c.nmOutput :: c.moduleNmCache.map Prod.snd)
    (h : findInlined c t sourceFile lineNumber = some (f, base, addrs)) :
    BaseSound c (some base) (some f) := by
  -- both searches answer with a function of the table they were given
  have hsound {nm readelf : Text} (hnm : nm ∈ c.nmOutput :: c.moduleNmCache.map Prod.snd)
      (h : findFunctionForSourceLine nm readelf sourceFile lineNumber = some (f, base, addrs)) :
      BaseSound c (some base) (some f) := by
    intro base' hbase
    obtain ⟨hne, hrow⟩ := findFunctionForSourceLine_eq_some h
    refine ⟨f, hne, rfl, fun b hb => ?_⟩
    obtain ⟨row, hmem, hname, haddr⟩ := hrow b (Option.some.inj hbase ▸ hb)
    exact ⟨nm, hnm, row, hmem, hname, haddr⟩
  unfold findInlined at h
  split at h
  next found hfound =>
    rw [h] at hfound
    exact hsound hnm hfound
  next =>
    split at h
    · cases h
    · obtain ⟨m, _, hm⟩ := List.exists_of_findSome?_eq_some h
      unfold findInModule at hm
      split at hm
      · split at hm
        next moduleNm _ path hlookup _ =>
          split at hm
          · cases hm
          · exact hsound (List.mem_cons_of_mem _
              (List.mem_map.mpr ⟨_, Dict.mem_of_lookup hlookup, rfl⟩)) hm
        next => cases hm
      · cases hm

theorem baseSound_findAddressForLine (c : Caches) (sourceFile : Text) (lineNumber : Int)
    (function : Text) :
    BaseSound c (findAddressForLine c sourceFile lineNumber function).baseAddress
      (findAddressForLine c sourceFile lineNumber function).symbolName := by
  have hnm := actualTables_nm_mem c function
  unfold findAddressForLine
  dsimp only
  split
  · exact baseSound_none
  · split
    · split
      next hinlined => exact baseSound_inlined hnm hinlined
      next => split <;> exact baseSound_none
    next row hrow =>
      have hbase := baseSound_row hnm hrow
      split
      · exact baseSound_none
      · split
        · exact hbase
        · split
          · exact hbase
          · split
            · exact hbase
            · exact baseSound_none

theorem baseSound_findAddressRangeForSingleLine (c : Caches) (sourceFile : Text) (lineNumber : Int)
    (function : Text) :
    BaseSound c (findAddressRangeForSingleLine c sourceFile lineNumber function).baseAddress
      (findAddressRangeForSingleLine c sourceFile lineNumber function).symbolName := by
  have hnm := actualTables_nm_mem c function
  unfold findAddressRangeForSingleLine
  dsimp only
  split
  · exact baseSound_none
  · split
    · split
      next hinlined => exact baseSound_inlined hnm hinlined
      next => split <;> exact baseSound_none
    next row hrow =>
      have hbase := baseSound_row hnm hrow
      split
      · exact baseSound_none
      · split
        · exact hbase
        · split
          · exact hbase
          · split
            · exact hbase
            · exact baseSound_none

theorem baseSound_lookupEnds (c : Caches) (r : ParsedResult) :
    BaseSound c (lookupEnds c r).1.baseAddress (lookupEnds c r).1.symbolName := by
  unfold lookupEnds
  split
  · exact baseSound_findAddressRangeForSingleLine _ _ _ _
  · exact baseSound_findAddressForLine _ _ _ _

/-! ## The two ends of an entry -/

def Address.addrInt (e : Address) : Option Int := (present e.addr).bind (Str.int 16)

def Address.baseInt (e : Address) : Option Int := (present e.baseAddress).bind (Str.int 16)

theorem isNegative_hex (z : Int) : isNegative (some (Str.hex z)) = some (decide (z < 0)) := by
  unfold isNegative
  rw [present_hex]
  dsimp only
  rw [Str.int_hex]
  rfl

/-- An end has an offset when it has an address and a base. -/
theorem endOffset_cases {e : Address} {offset : Option Text} (h : endOffset e = some offset) :
    (∃ a x, e.addrInt = some a ∧ e.baseInt = some x ∧ offset = some (Str.hex (a - x))) ∨
    (offset = none ∧ (present e.addr = none ∨ present e.baseAddress = none)) := by
  unfold endOffset at h
  split at h
  next addr base haddr hbase =>
    obtain ⟨text, htext, rfl⟩ := Option.map_eq_some_iff.mp h
    obtain ⟨a, ha, htext⟩ := Option.bind_eq_some_iff.mp htext
    obtain ⟨x, hx, rfl⟩ := Option.map_eq_some_iff.mp htext
    refine .inl ⟨a, x, ?_, ?_, rfl⟩
    · rw [Address.addrInt, haddr, Option.bind_some, ha]
    · rw [Address.baseInt, hbase, Option.bind_some, hx]
  next hnone =>
    refine .inr ⟨(Option.some.inj h).symm, ?_⟩
    cases haddr : present e.addr with
    | none => exact .inl rfl
    | some addr =>
      cases hbase : present e.baseAddress with
      | none => exact .inr rfl
      | some base => exact (hnone addr base haddr hbase).elim

/-- The tests of an end that has an address. -/
theorem end_tests {e : Address} {offset : Option Text} {a : Int} {p : Bool}
    (h : endOffset e = some offset) (ha : e.addrInt = some a) (hp : isNegative offset = some p) :
    (∃ x, e.baseInt = some x ∧ offset = some (Str.hex (a - x)) ∧ (p = true ↔ a < x) ∧
      (present e.baseAddress).isSome = true) ∨
    (offset = none ∧ p = false ∧ e.baseInt = none ∧ (present e.baseAddress).isSome = false) := by
  rcases endOffset_cases h with ⟨a', x, ha', hx, rfl⟩ | ⟨rfl, hnone⟩
  · obtain rfl : a = a' := Option.some.inj (ha.symm.trans ha')
    rw [isNegative_hex] at hp
    refine .inl ⟨x, hx, rfl, ?_, ?_⟩
    · rw [← Option.some.inj hp, decide_eq_true_eq]
      omega
    · obtain ⟨base, hbase, _⟩ := Option.bind_eq_some_iff.mp hx
      rw [hbase]
      rfl
  · have hbase : present e.baseAddress = none := by
      refine hnone.resolve_left (fun haddr => ?_)
      rw [Address.addrInt, haddr] at ha
      cases ha
    refine .inr ⟨rfl, (Option.some.inj hp).symm, ?_, ?_⟩
    · rw [Address.baseInt, hbase]
      rfl
    · rw [hbase]
      rfl

theorem relocate_eq_some {e e' : SpanEnd} {addr : Text} {row : NmRow}
    (h : e.relocate addr row = some e') :
    ∃ a z, Str.int 16 addr = some a ∧ row.addrInt = some z ∧
      e' = ⟨⟨e.address.addr, some row.addr, some row.name⟩, some (Str.hex (a - z))⟩ := by
  obtain ⟨offset, hoffset, rfl⟩ := Option.map_eq_some_iff.mp h
  obtain ⟨a, ha, hoffset⟩ := Option.bind_eq_some_iff.mp hoffset
  obtain ⟨z, hz, rfl⟩ := Option.map_eq_some_iff.mp hoffset
  exact ⟨a, z, ha, hz, rfl⟩

/-- What relocation does when both addresses are known. -/
theorem relocateBoth_cases {nm earliestAddr latestAddr : Text} {e₀ l₀ e l : SpanEnd}
    (h : relocateBoth nm e₀ l₀ earliestAddr latestAddr = some (e, l)) :
    ∃ a b p q, Str.int 16 earliestAddr = some a ∧ Str.int 16 latestAddr = some b ∧
      isNegative e₀.offset = some p ∧ isNegative l₀.offset = some q ∧
      ((e = e₀ ∧ l = l₀ ∧ ((p || q || !e₀.hasBase || !l₀.hasBase) = false ∨
          findBestBaseAddressBelowSpan nm ((Str.hex (min a b)).drop 2) = none)) ∨
        ((p || q || !e₀.hasBase || !l₀.hasBase) = true ∧ ∃ row z,
          findBestBaseAddressBelowSpan nm ((Str.hex (min a b)).drop 2) = some row ∧
          row.addrInt = some z ∧
          e = ⟨⟨e₀.address.addr, some row.addr, some row.name⟩, some (Str.hex (a - z))⟩ ∧
          l = ⟨⟨l₀.address.addr, some row.addr, some row.name⟩, some (Str.hex (b - z))⟩)) := by
  unfold relocateBoth at h
  simp only [Option.bind_eq_bind, Option.bind_eq_some_iff] at h
  obtain ⟨a, ha, b, hb, p, hp, q, hq, h⟩ := h
  refine ⟨a, b, p, q, ha, hb, hp, hq, ?_⟩
  split at h
  -- one end is negative or has no base: both move to the row below the span, if there is one
  next hneeds =>
    split at h
    next row hrow =>
      simp only [Option.bind_eq_some_iff] at h
      obtain ⟨e', he', l', hl', heq⟩ := h
      obtain ⟨rfl, rfl⟩ := Prod.mk.inj (Option.some.inj heq)
      obtain ⟨a', z, ha', hz, rfl⟩ := relocate_eq_some he'
      obtain ⟨b', z', hb', hz', rfl⟩ := relocate_eq_some hl'
      obtain rfl : a = a' := Option.some.inj (ha.symm.trans ha')
      obtain rfl : b = b' := Option.some.inj (hb.symm.trans hb')
      obtain rfl : z = z' := Option.some.inj (hz.symm.trans hz')
      exact .inr ⟨hneeds, row, z, hrow, hz, rfl, rfl⟩
    next hrow =>
      obtain ⟨rfl, rfl⟩ := Prod.mk.inj (Option.some.inj h)
      exact .inl ⟨rfl, rfl, .inr hrow⟩
  next hneeds =>
    obtain ⟨rfl, rfl⟩ := Prod.mk.inj (Option.some.inj h)
    exact .inl ⟨rfl, rfl, .inl (by simpa using hneeds)⟩

/-- Both offsets are taken against the bases of the two lookups, or both against a relocated one. -/
theorem spanEnds_cases {c : Caches} {r : ParsedResult} {e l : SpanEnd}
    (h : spanEnds c r = some (e, l)) (he : present e.offset ≠ none) (hl : present l.offset ≠ none) :
    ∃ a b, (lookupEnds c r).1.addrInt = some a ∧ (lookupEnds c r).2.addrInt = some b ∧
      e.address.addr = (lookupEnds c r).1.addr ∧ l.address.addr = (lookupEnds c r).2.addr ∧
      ((∃ x y, (lookupEnds c r).1.baseInt = some x ∧ (lookupEnds c r).2.baseInt = some y ∧
          e.address = (lookupEnds c r).1 ∧ e.offset = some (Str.hex (a - x)) ∧
          l.offset = some (Str.hex (b - y)) ∧ ((x ≤ a ∧ y ≤ b) ∨
            findBestBaseAddressBelowSpan (relocationNm c r) ((Str.hex (min a b)).drop 2) = none)) ∨
        (∃ row z, row.addrInt = some z ∧
          findBestBaseAddressBelowSpan (relocationNm c r) ((Str.hex (min a b)).drop 2) = some row ∧
          e.address.symbolName = some row.name ∧ e.offset = some (Str.hex (a - z)) ∧
          l.offset = some (Str.hex (b - z)) ∧
          ∀ x y, (lookupEnds c r).1.baseInt = some x → (lookupEnds c r).2.baseInt = some y →
            a < x ∨ b < y)) := by
  unfold spanEnds at h
  generalize lookupEnds c r = ends at h ⊢
  obtain ⟨earliest, latest⟩ := ends
  simp only [Option.bind_eq_bind, Option.bind_eq_some_iff] at h
  obtain ⟨eo, heo, lo, hlo, h⟩ := h
  -- an end without an address has no offset
  have hnone {x : Address} {o : Option Text} (ho : endOffset x = some o) (hx : present x.addr = none) :
      present o = none := by
    unfold endOffset at ho
    rw [hx] at ho
    cases ho
    rfl
  split at h
  next ea la hea hla =>
    obtain ⟨a, b, p, q, ha, hb, hp, hq, hcases⟩ := relocateBoth_cases h
    have haddr : earliest.addrInt = some a := by rw [Address.addrInt, hea, Option.bind_some, ha]
    have hladdr : latest.addrInt = some b := by rw [Address.addrInt, hla, Option.bind_some, hb]
    refine ⟨a, b, haddr, hladdr, ?_⟩
    have hearliest := end_tests heo haddr hp
    have hlatest := end_tests hlo hladdr hq
    -- either the bases of the lookups stand, or both ends are moved to one row
    rcases hcases with ⟨rfl, rfl, hkept⟩ | ⟨hneeds, row, z, hrow, hz, rfl, rfl⟩
    · obtain ⟨x, hx, heq, hneg, hbase⟩ := hearliest.resolve_right fun h => he (by rw [h.1]; rfl)
      obtain ⟨y, hy, hleq, hlneg, hlbase⟩ := hlatest.resolve_right fun h => hl (by rw [h.1]; rfl)
      refine ⟨rfl, rfl, .inl ⟨x, y, hx, hy, rfl, heq, hleq, hkept.imp_left fun hno => ?_⟩⟩
      simp only [SpanEnd.hasBase, Bool.or_eq_false_iff] at hno
      obtain ⟨⟨⟨hpfalse, hqfalse⟩, _⟩, _⟩ := hno
      rw [hpfalse] at hneg
      rw [hqfalse] at hlneg
      exact ⟨by simpa using hneg, by simpa using hlneg⟩
    · refine ⟨rfl, rfl, .inr ⟨row, z, hz, hrow, rfl, rfl, rfl, fun x y hx hy => ?_⟩⟩
      rcases hearliest with ⟨x', hx', _, hneg, hbase⟩ | ⟨_, _, hnobase, _⟩
      · rcases hlatest with ⟨y', hy', _, hlneg, hlbase⟩ | ⟨_, _, hnobase, _⟩
        · obtain rfl : x = x' := Option.some.inj (hx.symm.trans hx')
          obtain rfl : y = y' := Option.some.inj (hy.symm.trans hy')
          simp only [SpanEnd.hasBase, hbase, hlbase, Bool.not_true, Bool.or_false,
            Bool.or_eq_true] at hneeds
          exact hneeds.imp hneg.mp hlneg.mp
        · rw [hnobase] at hy
          cases hy
      · rw [hnobase] at hx
        cases hx
  -- an end without an address contradicts its offset
  next ea hea hla =>
    simp only [Option.bind_eq_some_iff] at h
    obtain ⟨e', he', heq⟩ := h
    obtain ⟨rfl, rfl⟩ := Prod.mk.inj (Option.some.inj heq)
    exact absurd (hnone hlo hla) hl
  next la hea hla =>
    simp only [Option.bind_eq_some_iff] at h
    obtain ⟨l', hl', heq⟩ := h
    obtain ⟨rfl, rfl⟩ := Prod.mk.inj (Option.some.inj heq)
    exact absurd (hnone heo hea) he
  next hea hla =>
    obtain ⟨rfl, rfl⟩ := Prod.mk.inj (Option.some.inj h)
    exact absurd (hnone heo hea) he

/-! ## What an entry says -/

/-- Some symbol table address of the entry's symbol turns the two offsets, neither of them negative,
into the two addresses of the result. -/
def Reconstructs (c : Caches) (res : SpanResult) (entry : OffsetEntry) : Prop :=
  ∃ base a b startInt endInt : Int, SymbolAt c entry.function base ∧
    entry.offset = Str.hex a ++ offsetSeparator ++ Str.hex b ∧
    (present res.startAddr).bind (Str.int 16) = some startInt ∧
    (present res.endAddr).bind (Str.int 16) = some endInt ∧
    base + a = startInt ∧ base + b = endInt ∧ 0 ≤ a ∧ 0 ≤ b

def Address.BelowBase (e : Address) : Prop :=
  ∃ a x, e.addrInt = some a ∧ e.baseInt = some x ∧ a < x

/-- Where both lookups have a base it is the same one. -/
def OneBase (earliest latest : Address) : Prop :=
  ∀ x y, earliest.baseInt = some x → latest.baseInt = some y → x = y

/-- A text symbol lies below both addresses, which are not negative. -/
def TextSymbolBelow (nm : Text) (earliest latest : Address) : Prop :=
  ∃ row ∈ nmRows nm, row.isText = true ∧ ∃ z, row.addrInt = some z ∧
    ∀ e ∈ [earliest, latest], ∀ a, e.addrInt = some a → 0 ≤ a ∧ z < a

/-- The two lookups agree on their base; if an address lies below its base, there is a text symbol to
relocate to. -/
def OffsetsAgree (c : Caches) (r : ParsedResult) : Prop :=
  let earliest := (lookupEnds c r).1
  let latest := (lookupEnds c r).2
  (earliest.BelowBase ∨ latest.BelowBase → TextSymbolBelow (relocationNm c r) earliest latest) ∧
    (¬ (earliest.BelowBase ∨ latest.BelowBase) → OneBase earliest latest)

theorem belowBase_iff {e : Address} {a x : Int} (ha : e.addrInt = some a) (hx : e.baseInt = some x) :
    e.BelowBase ↔ a < x := by
  constructor
  · rintro ⟨a', x', ha', hx', hlt⟩
    obtain rfl : a = a' := Option.some.inj (ha.symm.trans ha')
    obtain rfl : x = x' := Option.some.inj (hx.symm.trans hx')
    exact hlt
  · exact fun hlt => ⟨a, x, ha, hx, hlt⟩

/-- Relocation looks for a text symbol below both addresses. -/
theorem textSymbolBelow_iff {nm : Text} {earliest latest : Address} {a b : Int}
    (ha : earliest.addrInt = some a) (hb : latest.addrInt = some b) :
    TextSymbolBelow nm earliest latest ↔
      findBestBaseAddressBelowSpan nm ((Str.hex (min a b)).drop 2) ≠ none := by
  constructor
  · rintro ⟨row, hrow, htext, z, hz, hbelow⟩ hnone
    obtain ⟨ha0, hza⟩ := hbelow earliest (by simp) a ha
    obtain ⟨hb0, hzb⟩ := hbelow latest (by simp) b hb
    have hm := Str.int_drop_hex (min a b)
    rw [if_pos (by omega)] at hm
    exact findBestBaseAddressBelowSpan_eq_none hm hnone row hrow htext z hz (by omega)
  · intro hsome
    obtain ⟨row, hrow⟩ := Option.ne_none_iff_exists'.mp hsome
    obtain ⟨m, z, hm, hmem, htext, hz, hlt⟩ := findBestBaseAddressBelowSpan_eq_some hrow
    rw [Str.int_drop_hex] at hm
    split at hm
    next hnonneg =>
      obtain rfl := Option.some.inj hm
      refine ⟨row, hmem, htext, z, hz, fun e he a' ha' => ?_⟩
      rcases List.mem_cons.mp he with rfl | he
      · obtain rfl : a = a' := Option.some.inj (ha.symm.trans ha')
        omega
      · obtain rfl := List.mem_singleton.mp he
        obtain rfl : b = a' := Option.some.inj (hb.symm.trans ha')
        omega
    next => cases hm

/-- **Offsets and addresses.**  An entry that is written gives back the two addresses from one address
of its symbol if and only if the two lookups agree on their base or are relocated to one. -/
theorem funcOffsetEntry_reconstructs_iff (c : Caches) (r : ParsedResult) (res : SpanResult)
    (entry : OffsetEntry) (h : processSingleResult c r = some res)
    (hentry : funcOffsetEntry res = some entry) :
    Reconstructs c res entry ↔ OffsetsAgree c r := by
  obtain ⟨⟨e, l⟩, hends, rfl⟩ := Option.map_eq_some_iff.mp h
  obtain ⟨he, hl⟩ := present_of_funcOffsetEntry hentry
  obtain ⟨a, b, ha, hb, headdr, hladdr, hcases⟩ := spanEnds_cases hends he hl
  have hsound := baseSound_lookupEnds c r
  unfold OffsetsAgree
  generalize lookupEnds c r = ends at ha hb headdr hladdr hcases hsound ⊢
  obtain ⟨earliest, latest⟩ := ends
  have hstart : (present e.address.addr).bind (Str.int 16) = some a := headdr ▸ ha
  have hend : (present l.address.addr).bind (Str.int 16) = some b := hladdr ▸ hb
  dsimp only
  rw [textSymbolBelow_iff ha hb]
  rcases hcases with ⟨x, y, hx, hy, haddress, heo, hlo, hkept⟩ | ⟨row, z, hz, hrow, hname, heo, hlo, hlt⟩
  · -- the bases of the lookups are kept
    obtain ⟨hfunction, hoffset⟩ := funcOffsetEntry_eq_some heo hlo hentry
    obtain ⟨base, hbase, hbaseInt⟩ := Option.bind_eq_some_iff.mp hx
    obtain ⟨symbol, hne, hsymbol, hat⟩ := hsound base (Option.filter_eq_some_iff.mp hbase).1
    -- the base printed with the entry is the address of the function named there
    have hsymbolAt : SymbolAt c entry.function x := by
      rw [hfunction, haddress, hsymbol, present_some hne]
      exact hat x hbaseInt
    rw [belowBase_iff ha hx, belowBase_iff hb hy]
    constructor
    · rintro ⟨base, a', b', startInt, endInt, _, hoffset', hs, hen, ha', hb', hanonneg, hbnonneg⟩
      obtain ⟨rfl, rfl⟩ := offsetText_injective (hoffset.symm.trans hoffset')
      rw [hstart] at hs
      rw [hend] at hen
      obtain rfl := Option.some.inj hs
      obtain rfl := Option.some.inj hen
      refine ⟨fun hbelow => by omega, fun _ x' y' hx' hy' => ?_⟩
      obtain rfl : x = x' := Option.some.inj (hx.symm.trans hx')
      obtain rfl : y = y' := Option.some.inj (hy.symm.trans hy')
      omega
    · rintro ⟨hbelow, hone⟩
      -- the guard of the relocation was false, or no row lies below
      have habove : x ≤ a ∧ y ≤ b := by
        rcases hkept with habove | hnone
        · exact habove
        · by_contra hnot
          exact hbelow (by omega) hnone
      have hxy := hone (by omega) x y hx hy
      exact ⟨x, a - x, b - y, a, b, hsymbolAt, hoffset, hstart, hend, by omega, by omega, by omega,
        by omega⟩
  · -- both ends are relocated
    obtain ⟨hfunction, hoffset⟩ := funcOffsetEntry_eq_some heo hlo hentry
    obtain ⟨m, z', hm, hmem, _, hz', hlt'⟩ := findBestBaseAddressBelowSpan_eq_some hrow
    obtain rfl : z = z' := Option.some.inj (hz.symm.trans hz')
    rw [Str.int_drop_hex] at hm
    split at hm
    next =>
      obtain rfl := Option.some.inj hm
      have hsymbolAt : SymbolAt c entry.function z := by
        rw [hfunction, hname, present_some (nmRow_name_ne_nil hmem)]
        exact ⟨relocationNm c r, relocationNm_mem c r, row, hmem, rfl, hz⟩
      refine iff_of_true ⟨z, a - z, b - z, a, b, hsymbolAt, hoffset, hstart, hend, by omega, by omega,
        by omega, by omega⟩ ⟨fun _ => by rw [hrow]; simp, fun hnot x y hx hy => ?_⟩
      rw [belowBase_iff ha hx, belowBase_iff hb hy] at hnot
      exact absurd (hlt x y hx hy) hnot
    next => cases hm

end Entries

/-- A kernel in which function `f` is inlined: lines 1 and 3 into `g`, line 2 into `h`. -/
def inlinedCaches : Caches where
  vmlinuxPath := "vmlinux".toList
  nmOutput := "1000 T g\n2000 T h".toList
  readelfOutput := "net/a.c:\na.c 1 0x1010\na.c 2 0x2020\na.c 3 0x1030".toList
  symbolToModule := []
  moduleNmCache := []
  moduleReadelfCache := []
  objdump := fun _ => none

/-- The span of `f` from line 1 to the given line. -/
def inlinedResult (latestLine : Int) : ParsedResult where
  function := "f".toList
  earliestFunc := "f".toList
  latestFunc := "f".toList
  earliestFile := "net/a.c".toList
  earliestLine := 1
  latestFile := "net/a.c".toList
  latestLine := latestLine

theorem funcOffsetEntry_reconstructs_iff_inlined :
    ∃ (_ : Unicode) (res : SpanResult) (entry : OffsetEntry),
      processSingleResult inlinedCaches (inlinedResult 3) = some res ∧
      funcOffsetEntry res = some entry ∧ entry.offset = "0x10 - 0x30".toList ∧
      Reconstructs inlinedCaches res entry := by
  let _ := Unicode.ascii
  have hentry : ((processSingleResult inlinedCaches (inlinedResult 3)).bind funcOffsetEntry).map
      OffsetEntry.offset = some "0x10 - 0x30".toList := by decide
  obtain ⟨entry, hbind, hoffset⟩ := Option.map_eq_some_iff.mp hentry
  obtain ⟨res, hres, hentry⟩ := Option.bind_eq_some_iff.mp hbind
  refine ⟨_, res, entry, hres, hentry, hoffset, ?_⟩
  refine (funcOffsetEntry_reconstructs_iff inlinedCaches (inlinedResult 3) res entry hres hentry).mpr
    ⟨fun hbelow => ?_, fun _ x y hx hy => ?_⟩
  · have hbase : (lookupEnds inlinedCaches (inlinedResult 3)).1.baseInt = some 0x1000 ∧
        (lookupEnds inlinedCaches (inlinedResult 3)).2.baseInt = some 0x1000 := by decide
    have haddr : (lookupEnds inlinedCaches (inlinedResult 3)).1.addrInt = some 0x1010 ∧
        (lookupEnds inlinedCaches (inlinedResult 3)).2.addrInt = some 0x1030 := by decide
    rw [belowBase_iff haddr.1 hbase.1, belowBase_iff haddr.2 hbase.2] at hbelow
    omega
  · have hbase : (lookupEnds inlinedCaches (inlinedResult 3)).1.baseInt =
        (lookupEnds inlinedCaches (inlinedResult 3)).2.baseInt := by decide
    rw [hx, hy] at hbase
    exact Option.some.inj hbase

/-- The two lines lie in different functions; the entry names the first of them only. -/
theorem funcOffsetEntry_mixes_functions :
    ¬ ∀ (_ : Unicode) (c : Caches) (r : ParsedResult) (res : SpanResult) (entry : OffsetEntry),
      processSingleResult c r = some res → funcOffsetEntry res = some entry →
      Reconstructs c res entry := by
  intro hall
  let _ := Unicode.ascii
  have hrun : (processSingleResult inlinedCaches (inlinedResult 2)).bind (fun res =>
      (funcOffsetEntry res).map fun entry => ((present res.startAddr).bind (Str.int 16),
        (present res.endAddr).bind (Str.int 16), entry.offset)) =
      some (some 0x1010, some 0x2020, Str.hex 0x10 ++ offsetSeparator ++ Str.hex 0x20) := by decide
  obtain ⟨res, hres, hmap⟩ := Option.bind_eq_some_iff.mp hrun
  obtain ⟨entry, hentry, hvalues⟩ := Option.map_eq_some_iff.mp hmap
  simp only [Prod.mk.injEq] at hvalues
  obtain ⟨hstart, hend, hoffset⟩ := hvalues
  obtain ⟨base, a, b, startInt, endInt, _, hoffset', hs, he, ha, hb, _⟩ :=
    hall _ inlinedCaches (inlinedResult 2) res entry hres hentry
  obtain ⟨rfl, rfl⟩ := offsetText_injective (hoffset.symm.trans hoffset')
  rw [hstart] at hs
  rw [hend] at he
  have hs := Option.some.inj hs
  have he := Option.some.inj he
  omega

end IrToAssembly

end LinuxAnalysis
