import LinuxAnalysis.Scripts.LookupStages
import LinuxAnalysis.Scripts.ModuleMap

/-!
# ir_to_assembly.py: which suffixes lead to a module

The search of a symbol table accepts every suffix after a dot, the choice of the module only the two
that `find_symbol_binary` writes out.
-/

open LinuxAnalysis.Lib

namespace LinuxAnalysis

namespace IrToAssembly

/-- The symbols under which a function is looked for in the modules. -/
def moduleSymbols (function : Text) : List Text :=
  [function, function ++ ".part.0".toList, function ++ ".isra.0".toList]

theorem namesFunction_of_mem_moduleSymbols {function symbol : Text}
    (h : symbol ∈ moduleSymbols function) : namesFunction function symbol = true := by
  have hsuffix (suffix : Text) :
      namesFunction function (function ++ '.' :: suffix) = true := by
    apply Bool.or_eq_true_iff.mpr
    right
    apply List.isPrefixOf_iff_prefix.mpr
    exact ⟨suffix, by rw [List.append_assoc, List.singleton_append]⟩
  rcases List.mem_cons.mp h with rfl | h
  · apply Bool.or_eq_true_iff.mpr
    left
    exact beq_self_eq_true symbol
  · rcases List.mem_cons.mp h with rfl | h
    · exact hsuffix "part.0".toList
    · rw [List.mem_singleton.mp h]
      exact hsuffix "isra.0".toList

/-- The function's symbol is looked for in the tables `t`, and the row found is `row`. -/
def SearchesIn (c : Caches) (function : Text) (t : BinaryTables) (row : NmRow) : Prop :=
  actualTables c function = t ∧ findSymbol t.nm function = some row

namespace Host

variable {h : Host} {koFiles : List Text} {function : Text} {m : Text × Text}

/-- The first symbol of a module that may stand for the function. -/
def symbolIn (h : Host) (m : Text × Text) (function : Text) : Option NmRow :=
  (h.moduleRows m).find? fun row => namesFunction function row.name

theorem symbolIn_isSome_of_defines {symbol : Text} (hsymbol : symbol ∈ moduleSymbols function)
    (hdefines : h.defines symbol m = true) : h.symbolIn m function ≠ none := by
  intro hnone
  obtain ⟨row, hrow, hname⟩ := List.any_eq_true.mp hdefines
  apply List.find?_eq_none.mp hnone row hrow
  rw [eq_of_beq hname]
  exact namesFunction_of_mem_moduleSymbols hsymbol

theorem lastDefiner_eq_none_iff {symbol : Text} :
    h.lastDefiner koFiles symbol = none ↔
      ∀ m ∈ findModuleFiles koFiles, h.defines symbol m = false := by
  rw [lastDefiner, List.getLast?_eq_none_iff, List.filter_eq_nil_iff]
  simp only [Bool.not_eq_true]

theorem chosenModule_eq_none_iff :
    h.chosenModule koFiles function = none ↔
      ∀ symbol ∈ moduleSymbols function, h.lastDefiner koFiles symbol = none := by
  simp only [chosenModule, moduleSymbols, Option.or_eq_none_iff, List.mem_cons, List.not_mem_nil,
    or_false, forall_eq_or_imp, forall_eq]

theorem chosenModule_defines (hm : h.chosenModule koFiles function = some m) :
    m ∈ findModuleFiles koFiles ∧ ∃ symbol ∈ moduleSymbols function, h.defines symbol m = true := by
  have hfrom {symbol : Text} (hsymbol : symbol ∈ moduleSymbols function)
      (hlast : h.lastDefiner koFiles symbol = some m) :
      m ∈ findModuleFiles koFiles ∧ ∃ symbol ∈ moduleSymbols function, h.defines symbol m = true :=
    ⟨(mem_of_lastDefiner hlast).1, symbol, hsymbol, (mem_of_lastDefiner hlast).2⟩
  rcases Option.or_eq_some_iff.mp hm with hlast | ⟨_, hm⟩
  · exact hfrom (by simp [moduleSymbols]) hlast
  · rcases Option.or_eq_some_iff.mp hm with hlast | ⟨_, hlast⟩
    · exact hfrom (by simp [moduleSymbols]) hlast
    · exact hfrom (by simp [moduleSymbols]) hlast

/-- A module whose table has the symbol is searched through its own table. -/
theorem findSymbol_moduleTables {row : NmRow} (hpath : m.2 ≠ [])
    (hrow : h.symbolIn m function = some row) :
    findSymbol (h.moduleTables m).nm function = some row := by
  unfold symbolIn moduleRows at hrow
  unfold moduleTables findSymbol
  rw [if_neg (by simpa using hpath)]
  cases hnm : present (h.nm m.2) with
  | none =>
    rw [hnm] at hrow
    cases hrow
  | some nm =>
    rw [hnm] at hrow
    exact hrow

section Lookup

variable [Unicode]

/-- **Suffixes of module symbols.**  Let one module alone have a symbol for the function, and the
kernel none.  The module's tables are searched and its symbol is found if and only if the module has
the name itself, the name with `.part.0` or the name with `.isra.0`; both lookups then read the
listing of that symbol. -/
theorem searchesIn_module_iff (h : Host) (koFiles : List Text) (function : Text) (m : Text × Text)
    (row : NmRow) (hpath : m.2 ≠ []) (hm : m ∈ findModuleFiles koFiles)
    (hrow : h.symbolIn m function = some row)
    (honly : ∀ m' ∈ findModuleFiles koFiles, m' ≠ m → h.symbolIn m' function = none)
    (hkernel : findSymbol h.nmOutput function = none) :
    (SearchesIn (h.caches koFiles) function (h.moduleTables m) row ↔
      ∃ symbol ∈ moduleSymbols function, h.defines symbol m = true) ∧
    (SearchesIn (h.caches koFiles) function (h.moduleTables m) row →
      ∀ sourceFile lineNumber,
        findAddressForLine (h.caches koFiles) sourceFile lineNumber function =
          (listedFound (h.caches koFiles) (h.moduleTables m) sourceFile lineNumber row).elim {}
            Found.address ∧
        findAddressRangeForSingleLine (h.caches koFiles) sourceFile lineNumber function =
          (listedFound (h.caches koFiles) (h.moduleTables m) sourceFile lineNumber row).elim {}
            Found.range) := by
  have hfound := findSymbol_moduleTables hpath hrow
  constructor
  · unfold SearchesIn
    rw [actualTables_caches, tablesOf, and_iff_left hfound]
    cases hchosen : h.chosenModule koFiles function with
    | none =>
      -- no module is chosen: the kernel is searched, and it lacks the symbol
      apply iff_of_false
      · intro htables
        have hnm : h.nmOutput = (h.moduleTables m).nm := congrArg BinaryTables.nm htables
        rw [hnm, hfound] at hkernel
        cases hkernel
      · rintro ⟨symbol, hsymbol, hdefines⟩
        have hlast := chosenModule_eq_none_iff.mp hchosen symbol hsymbol
        rw [lastDefiner_eq_none_iff.mp hlast m hm] at hdefines
        cases hdefines
    | some m' =>
      obtain ⟨hm', symbol, hsymbol, hdefines⟩ := chosenModule_defines hchosen
      have hsame : m' = m := by
        by_contra hne
        exact symbolIn_isSome_of_defines hsymbol hdefines (honly m' hm' hne)
      subst hsame
      exact iff_of_true rfl ⟨symbol, hsymbol, hdefines⟩
  · rintro ⟨htables, _⟩ sourceFile lineNumber
    have hnonempty : (h.moduleTables m).nm.isEmpty = false := by
      rw [Bool.eq_false_iff]
      intro hempty
      rw [List.isEmpty_iff.mp hempty] at hfound
      cases hfound
    have hlookup : lookupFound (h.caches koFiles) sourceFile lineNumber function =
        listedFound (h.caches koFiles) (h.moduleTables m) sourceFile lineNumber row := by
      unfold lookupFound
      rw [htables]
      dsimp only
      rw [hnonempty, hfound]
      rfl
    rw [findAddressForLine_eq, findAddressRangeForSingleLine_eq, hlookup]
    exact ⟨rfl, rfl⟩

end Lookup

end Host

/-- A kernel without the functions, and one module that has clones of them. -/
def cloneHost : Host where
  vmlinuxPath := "vmlinux".toList
  nmOutput := "0 T start".toList
  readelfOutput := "File:".toList
  nm := fun _ => some "10 t f.constprop.0\n40 t g.isra.0".toList
  readelf := fun _ => none
  objdump := fun _ => none

theorem searchesIn_module_iff_isra :
    @SearchesIn (cloneHost.caches ["a.ko".toList]) "g".toList
      (cloneHost.moduleTables ("a".toList, "a.ko".toList)) ⟨"40".toList, ['t'], "g.isra.0".toList⟩ := by
  let _ := Unicode.ascii
  exact (Host.searchesIn_module_iff cloneHost ["a.ko".toList] "g".toList ("a".toList, "a.ko".toList)
    ⟨"40".toList, ['t'], "g.isra.0".toList⟩ (by decide) (by decide) (by decide +kernel)
    (by decide +kernel) (by decide +kernel)).1.mpr (by decide +kernel)

/-- The clone for constant arguments is in the module, and the kernel is searched. -/
theorem searchesIn_module_misses_constprop :
    ¬ ∀ (h : Host) (koFiles : List Text) (function : Text) (m : Text × Text) (row : NmRow),
      m.2 ≠ [] → m ∈ findModuleFiles koFiles → h.symbolIn m function = some row →
      (∀ m' ∈ findModuleFiles koFiles, m' ≠ m → h.symbolIn m' function = none) →
      findSymbol h.nmOutput function = none →
      SearchesIn (h.caches koFiles) function (h.moduleTables m) row := by
  intro hall
  have htables := (hall cloneHost ["a.ko".toList] "f".toList ("a".toList, "a.ko".toList)
    ⟨"10".toList, ['t'], "f.constprop.0".toList⟩ (by decide) (by decide) (by decide +kernel)
    (by decide +kernel) (by decide +kernel)).1
  have hbinary : (actualTables (cloneHost.caches ["a.ko".toList]) "f".toList).binary =
      "vmlinux".toList := by decide +kernel
  rw [htables] at hbinary
  exact absurd hbinary (by decide)

end IrToAssembly

end LinuxAnalysis
