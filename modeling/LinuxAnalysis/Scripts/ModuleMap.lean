import LinuxAnalysis.Lib.Path
import LinuxAnalysis.Scripts.AssemblySpan

/-!
# ir_to_assembly.py: kernel modules in the order of the directory walk

A symbol belongs to the module that is read last among those that define it, and a line that was
inlined is looked for in one module after the other.  Both choices are read off the enumeration here,
and the result of a function depends on the order of the enumeration through them alone.
-/

open LinuxAnalysis.Lib

namespace LinuxAnalysis

namespace IrToAssembly

/-- The kernel, and what `nm` and `readelf` print for a `.ko` file; `none` when they fail. -/
structure Host where
  vmlinuxPath : Text
  nmOutput : Text
  readelfOutput : Text
  nm : Text → Option Text
  readelf : Text → Option Text
  objdump : List Text → Option Text

/-! ## Loading the modules -/

/-- `find_module_files`: module name to path. -/
def findModuleFiles (koFiles : List Text) : Dict Text Text :=
  koFiles.foldl (fun moduleFiles koFile => moduleFiles.set (Path.parse koFile).stem koFile) []

/-- One of the two caches of `load_module_caches`. -/
def loadModuleCache (load : Text → Option Text) (moduleFiles : Dict Text Text) : Dict Text Text :=
  moduleFiles.foldl (fun cache m =>
    match present (load m.2) with
    | some output => cache.set m.1 output
    | none => cache) []

/-- `build_symbol_to_module_map` -/
def buildSymbolToModuleMap (moduleNmCache moduleFiles : Dict Text Text) : Dict Text (Text × Text) :=
  moduleNmCache.foldl (fun symbolToModule m =>
    match moduleFiles.lookup m.1 with
    | none => symbolToModule
    | some koPath =>
      -- a symbol of several modules goes to the last one
      (nmRows m.2).foldl (fun symbolToModule row => symbolToModule.set row.name (m.1, koPath))
        symbolToModule) []

/-- What `main` loads when the walk finds the files in this order. -/
def Host.caches (h : Host) (koFiles : List Text) : Caches :=
  let moduleFiles := findModuleFiles koFiles
  let moduleNmCache := loadModuleCache h.nm moduleFiles
  { vmlinuxPath := h.vmlinuxPath
    nmOutput := h.nmOutput
    readelfOutput := h.readelfOutput
    symbolToModule := buildSymbolToModuleMap moduleNmCache moduleFiles
    moduleNmCache := moduleNmCache
    moduleReadelfCache := loadModuleCache h.readelf moduleFiles
    objdump := h.objdump }

/-! ## The choices that the order makes -/

/-- The symbol table of a module. -/
def Host.moduleRows (h : Host) (m : Text × Text) : List NmRow :=
  match present (h.nm m.2) with
  | some nm => nmRows nm
  | none => []

def Host.defines (h : Host) (symbol : Text) (m : Text × Text) : Bool :=
  (h.moduleRows m).any fun row => row.name == symbol

/-- The last module that defines a symbol. -/
def Host.lastDefiner (h : Host) (koFiles : List Text) (symbol : Text) : Option (Text × Text) :=
  ((findModuleFiles koFiles).filter (h.defines symbol)).getLast?

/-- The module of a function, whose symbol may have a suffix of the compiler. -/
def Host.chosenModule (h : Host) (koFiles : List Text) (function : Text) : Option (Text × Text) :=
  (h.lastDefiner koFiles function).or
    ((h.lastDefiner koFiles (function ++ ".part.0".toList)).or
      (h.lastDefiner koFiles (function ++ ".isra.0".toList)))

def Host.vmlinux (h : Host) : BinaryTables := ⟨h.vmlinuxPath, h.nmOutput, h.readelfOutput⟩

/-- The tables of a module, those of the kernel standing for one that was not loaded. -/
def Host.moduleTables (h : Host) (m : Text × Text) : BinaryTables :=
  if m.2.isEmpty then h.vmlinux
  else ⟨m.2, (present (h.nm m.2)).getD h.nmOutput, (present (h.readelf m.2)).getD h.readelfOutput⟩

/-- The tables in which a function is looked up. -/
def Host.tablesOf (h : Host) (koFiles : List Text) (function : Text) : BinaryTables :=
  match h.chosenModule koFiles function with
  | none => h.vmlinux
  | some m => h.moduleTables m

section Lines

variable [Unicode]

/-- What a module answers for an inlined line: it must mention the file and be the last one to define
some symbol. -/
def Host.inlinedIn (h : Host) (koFiles : List Text) (sourceFile : Text) (lineNumber : Int)
    (m : Text × Text) : Option (Text × Text × List Text) :=
  match present (h.nm m.2), present (h.readelf m.2) with
  | some nm, some readelf =>
    if Str.contains (Str.basename sourceFile) readelf && !m.2.isEmpty &&
        (nmRows nm).any fun row => h.lastDefiner koFiles row.name == some m then
      findFunctionForSourceLine nm readelf sourceFile lineNumber
    else none
  | _, _ => none

/-- The first module that has an answer for an inlined line. -/
def Host.firstAnswering (h : Host) (koFiles : List Text) (sourceFile : Text) (lineNumber : Int) :
    Option (Text × Text) :=
  (findModuleFiles koFiles).find? fun m => (h.inlinedIn koFiles sourceFile lineNumber m).isSome

/-- Nothing in the tables of the function answers, so that the other modules are asked. -/
def Host.AsksModules (h : Host) (koFiles : List Text) (sourceFile : Text) (lineNumber : Int)
    (function : Text) : Prop :=
  findSymbol (h.tablesOf koFiles function).nm function = none ∧
    findFunctionForSourceLine (h.tablesOf koFiles function).nm (h.tablesOf koFiles function).readelf
      sourceFile lineNumber = none

/-- Two orders make the same choices for a parsed result. -/
structure Host.SameChoices (h : Host) (koFiles koFiles' : List Text) (r : ParsedResult) : Prop where
  function : h.chosenModule koFiles r.function = h.chosenModule koFiles' r.function
  earliestFunc : h.chosenModule koFiles r.earliestFunc = h.chosenModule koFiles' r.earliestFunc
  latestFunc : h.chosenModule koFiles r.latestFunc = h.chosenModule koFiles' r.latestFunc
  earliestLine : h.AsksModules koFiles r.earliestFile r.earliestLine r.earliestFunc →
    h.firstAnswering koFiles r.earliestFile r.earliestLine =
      h.firstAnswering koFiles' r.earliestFile r.earliestLine
  latestLine : h.AsksModules koFiles r.latestFile r.latestLine r.latestFunc →
    h.firstAnswering koFiles r.latestFile r.latestLine =
      h.firstAnswering koFiles' r.latestFile r.latestLine

end Lines

/-! ## The dictionaries -/

theorem nodup_findModuleFiles (koFiles : List Text) :
    ((findModuleFiles koFiles).map Prod.fst).Nodup :=
  foldl_invariant (I := fun d : Dict Text Text => (d.map Prod.fst).Nodup)
    (fun _ _ _ hd => Dict.nodup_set hd _ _) List.nodup_nil

/-- The entry of a module in a cache. -/
def cacheEntry (load : Text → Option Text) (m : Text × Text) : Option (Text × Text) :=
  (present (load m.2)).map (Prod.mk m.1)

variable {moduleFiles : Dict Text Text}

theorem nodup_filterMap_cacheEntry (load : Text → Option Text)
    (hfiles : (moduleFiles.map Prod.fst).Nodup) :
    ((moduleFiles.filterMap (cacheEntry load)).map Prod.fst).Nodup := by
  have hsub : ((moduleFiles.filterMap (cacheEntry load)).map Prod.fst).Sublist
      (moduleFiles.map Prod.fst) := by
    clear hfiles
    induction moduleFiles with
    | nil => exact List.Sublist.refl []
    | cons m moduleFiles ih =>
      rw [List.filterMap_cons, cacheEntry]
      cases present (load m.2) with
      | none => exact ih.cons m.1
      | some output => exact ih.cons_cons m.1
  exact hsub.nodup hfiles

theorem loadModuleCache_eq {load : Text → Option Text} (hfiles : (moduleFiles.map Prod.fst).Nodup) :
    loadModuleCache load moduleFiles = moduleFiles.filterMap (cacheEntry load) := by
  have happend := Dict.foldl_set_eq_append (d := ([] : Dict Text Text))
    (nodup_filterMap_cacheEntry load hfiles)
  rw [List.nil_append, List.foldl_filterMap] at happend
  rw [← happend, loadModuleCache]
  congr 1
  funext cache m
  unfold cacheEntry
  cases present (load m.2) <;> rfl

theorem lookup_loadModuleCache (load : Text → Option Text)
    (hfiles : (moduleFiles.map Prod.fst).Nodup) {m : Text × Text} (hm : m ∈ moduleFiles) :
    (loadModuleCache load moduleFiles).lookup m.1 = present (load m.2) := by
  rw [loadModuleCache_eq hfiles]
  cases hload : present (load m.2) with
  | some output =>
    rw [Dict.lookup_eq_some_iff (nodup_filterMap_cacheEntry load hfiles)]
    exact List.mem_filterMap.mpr ⟨m, hm, by rw [cacheEntry, hload]; rfl⟩
  | none =>
    by_contra hne
    obtain ⟨output, houtput⟩ := Option.ne_none_iff_exists'.mp hne
    obtain ⟨m', hm', hentry⟩ := List.mem_filterMap.mp (Dict.mem_of_lookup houtput)
    obtain ⟨_, hload', heq⟩ := Option.map_eq_some_iff.mp hentry
    -- one module, since the names are distinct
    have hname : m'.1 = m.1 := (Prod.mk.inj heq).1
    have hsame : m' = m := List.inj_on_of_nodup_map hfiles hm' hm hname
    rw [hsame, hload] at hload'
    cases hload'

/-- Reading the rows of one module. -/
def addSymbols (h : Host) (symbols : Dict Text (Text × Text)) (m : Text × Text) :
    Dict Text (Text × Text) :=
  (h.moduleRows m).foldl (fun symbols row => symbols.set row.name m) symbols

variable {h : Host}

theorem buildSymbolToModuleMap_eq (hfiles : (moduleFiles.map Prod.fst).Nodup) :
    buildSymbolToModuleMap (loadModuleCache h.nm moduleFiles) moduleFiles =
      moduleFiles.foldl (addSymbols h) [] := by
  rw [buildSymbolToModuleMap, loadModuleCache_eq hfiles, List.foldl_filterMap]
  apply List.foldl_ext
  intro symbols m hm
  have hlookup : moduleFiles.lookup m.1 = some m.2 := (Dict.lookup_eq_some_iff hfiles).mpr hm
  unfold cacheEntry addSymbols Host.moduleRows
  cases present (h.nm m.2) with
  | none => rfl
  | some nm =>
    dsimp only [Option.map_some]
    rw [hlookup]

theorem lookup_addSymbols (symbols : Dict Text (Text × Text)) (m : Text × Text) (symbol : Text) :
    (addSymbols h symbols m).lookup symbol =
      if h.defines symbol m then some m else symbols.lookup symbol := by
  unfold addSymbols Host.defines
  induction h.moduleRows m generalizing symbols with
  | nil => rfl
  | cons row rows ih =>
    rw [List.foldl_cons, ih, Dict.lookup_set, List.any_cons, BEq.comm (a := symbol)]
    cases rows.any fun row => row.name == symbol <;> cases row.name == symbol <;> rfl

theorem lookup_foldl_addSymbols (symbols : Dict Text (Text × Text)) (symbol : Text) :
    (moduleFiles.foldl (addSymbols h) symbols).lookup symbol =
      ((moduleFiles.filter (h.defines symbol)).getLast?).or (symbols.lookup symbol) := by
  induction moduleFiles generalizing symbols with
  | nil => rfl
  | cons m moduleFiles ih =>
    rw [List.foldl_cons, ih, lookup_addSymbols, List.filter_cons]
    split
    · rw [List.getLast?_cons]
      cases (moduleFiles.filter (h.defines symbol)).getLast? <;> rfl
    · rfl

variable {koFiles : List Text}

/-- The symbol map sends a symbol to the last module that defines it. -/
theorem lookup_symbolToModule (symbol : Text) :
    (h.caches koFiles).symbolToModule.lookup symbol = h.lastDefiner koFiles symbol := by
  show (buildSymbolToModuleMap _ _).lookup symbol = _
  rw [buildSymbolToModuleMap_eq (nodup_findModuleFiles koFiles), lookup_foldl_addSymbols]
  exact Option.or_none

theorem nodup_symbolToModule :
    ((h.caches koFiles).symbolToModule.map Prod.fst).Nodup := by
  show ((buildSymbolToModuleMap _ _).map Prod.fst).Nodup
  rw [buildSymbolToModuleMap_eq (nodup_findModuleFiles koFiles)]
  refine foldl_invariant (I := fun d : Dict Text (Text × Text) => (d.map Prod.fst).Nodup)
    (fun symbols m _ hd => ?_) List.nodup_nil
  exact foldl_invariant (I := fun d : Dict Text (Text × Text) => (d.map Prod.fst).Nodup)
    (fun _ _ _ hd => Dict.nodup_set hd _ _) hd

theorem mem_of_lastDefiner {symbol : Text} {m : Text × Text}
    (hlast : h.lastDefiner koFiles symbol = some m) :
    m ∈ findModuleFiles koFiles ∧ h.defines symbol m = true :=
  List.mem_filter.mp (List.mem_of_getLast? hlast)

theorem mem_of_chosenModule {function : Text} {m : Text × Text}
    (hm : h.chosenModule koFiles function = some m) : m ∈ findModuleFiles koFiles := by
  rcases Option.or_eq_some_iff.mp hm with hm | ⟨_, hm⟩
  · exact (mem_of_lastDefiner hm).1
  · rcases Option.or_eq_some_iff.mp hm with hm | ⟨_, hm⟩
    · exact (mem_of_lastDefiner hm).1
    · exact (mem_of_lastDefiner hm).1

/-! ## The tables of a function -/

/-- The map is empty when no symbol leads anywhere. -/
theorem symbolToModule_eq_nil_or (h : Host) (koFiles : List Text) :
    (h.caches koFiles).symbolToModule = [] ∨
      ((h.caches koFiles).symbolToModule.isEmpty = false ∧
        (h.caches koFiles).moduleNmCache.isEmpty = false) := by
  cases hsymbols : (h.caches koFiles).symbolToModule with
  | nil => exact .inl rfl
  | cons e symbols =>
    right
    refine ⟨rfl, ?_⟩
    cases hcache : (h.caches koFiles).moduleNmCache with
    | cons m cache => rfl
    | nil =>
      -- without a symbol table there is no symbol
      have hnil : (h.caches koFiles).symbolToModule = [] := by
        show buildSymbolToModuleMap (h.caches koFiles).moduleNmCache _ = []
        rw [hcache]
        rfl
      rw [hsymbols] at hnil
      cases hnil

theorem findSymbolBinary_caches (function : Text) :
    findSymbolBinary function (h.caches koFiles).symbolToModule = h.chosenModule koFiles function := by
  rw [findSymbolBinary, lookup_symbolToModule, lookup_symbolToModule, lookup_symbolToModule]
  rfl

theorem actualTables_caches (function : Text) :
    actualTables (h.caches koFiles) function = h.tablesOf koFiles function := by
  have hchosen : findSymbolBinary function (h.caches koFiles).symbolToModule =
      h.chosenModule koFiles function := findSymbolBinary_caches function
  unfold actualTables Host.tablesOf
  dsimp only
  rcases symbolToModule_eq_nil_or h koFiles with hnil | ⟨hsymbols, hcache⟩
  · rw [hnil] at hchosen ⊢
    rw [← hchosen]
    rfl
  · rw [hsymbols, hcache, hchosen]
    cases hm : h.chosenModule koFiles function with
    | none => rfl
    | some m =>
      have hmem := mem_of_chosenModule hm
      have hnm := lookup_loadModuleCache h.nm (nodup_findModuleFiles koFiles) hmem
      have hreadelf := lookup_loadModuleCache h.readelf (nodup_findModuleFiles koFiles) hmem
      show (if m.2.isEmpty then _ else _) = h.moduleTables m
      unfold Host.moduleTables
      rw [← hnm, ← hreadelf]
      rfl

/-- The symbol table that relocation reads. -/
theorem relocationNm_caches (r : ParsedResult) :
    relocationNm (h.caches koFiles) r =
      if r.function.isEmpty then h.nmOutput
      else
        match h.chosenModule koFiles r.function with
        | none => h.nmOutput
        | some m => if m.1.isEmpty then h.nmOutput else (present (h.nm m.2)).getD h.nmOutput := by
  have hchosen : findSymbolBinary r.function (h.caches koFiles).symbolToModule =
      h.chosenModule koFiles r.function := findSymbolBinary_caches r.function
  unfold relocationNm
  rcases symbolToModule_eq_nil_or h koFiles with hnil | ⟨hsymbols, hcache⟩
  · rw [hnil] at hchosen ⊢
    rw [← hchosen]
    cases r.function.isEmpty <;> rfl
  · rw [hsymbols, hcache, hchosen]
    by_cases hempty : r.function.isEmpty
    · rw [hempty]
      rfl
    · rw [if_neg hempty, if_neg (by simpa using hempty)]
      cases hm : h.chosenModule koFiles r.function with
      | none => rfl
      | some m =>
        have hnm := lookup_loadModuleCache h.nm (nodup_findModuleFiles koFiles) (mem_of_chosenModule hm)
        show (if m.1.isEmpty then _ else _) = if m.1.isEmpty then _ else (present (h.nm m.2)).getD _
        rw [← hnm]
        rfl

/-! ## The search for an inlined line -/

/-- The path found for a module is its own, and it is found when some symbol leads to the module. -/
theorem find?_symbolToModule {m : Text × Text} (hm : m ∈ findModuleFiles koFiles) :
    ((h.caches koFiles).symbolToModule.find? fun s => s.2.1 = m.1).map (fun s => s.2.2) =
      if (h.moduleRows m).any fun row => h.lastDefiner koFiles row.name == some m then some m.2
      else none := by
  -- a symbol maps to its last definer, and no two modules share a name
  have hentry {s : Text × (Text × Text)} (hs : s ∈ (h.caches koFiles).symbolToModule)
      (hname : s.2.1 = m.1) : s.2 = m ∧ h.lastDefiner koFiles s.1 = some m := by
    have hlast : h.lastDefiner koFiles s.1 = some s.2 := by
      rw [← lookup_symbolToModule]
      exact (Dict.lookup_eq_some_iff nodup_symbolToModule).mpr hs
    have hsame : s.2 = m :=
      List.inj_on_of_nodup_map (nodup_findModuleFiles koFiles) (mem_of_lastDefiner hlast).1 hm hname
    exact ⟨hsame, hsame ▸ hlast⟩
  -- the module is found through any symbol it was the last to define
  by_cases hany : ((h.moduleRows m).any fun row => h.lastDefiner koFiles row.name == some m) = true
  · rw [if_pos hany]
    obtain ⟨row, _, hlast⟩ := List.any_eq_true.mp hany
    have hlookup : (h.caches koFiles).symbolToModule.lookup row.name = some m := by
      rw [lookup_symbolToModule]
      exact eq_of_beq hlast
    cases hfind : (h.caches koFiles).symbolToModule.find? fun s => s.2.1 = m.1 with
    | none =>
      have hnone := List.find?_eq_none.mp hfind _ (Dict.mem_of_lookup hlookup)
      exact absurd (decide_eq_true rfl) hnone
    | some s =>
      have hname := List.find?_some hfind
      rw [← (hentry (List.mem_of_find?_eq_some hfind) (by simpa using hname)).1]
      rfl
  · rw [if_neg hany, Option.map_eq_none_iff]
    apply List.find?_eq_none.mpr
    intro s hs hname
    obtain ⟨_, hlast⟩ := hentry hs (by simpa using hname)
    obtain ⟨row, hrow, hsymbol⟩ := List.any_eq_true.mp (mem_of_lastDefiner hlast).2
    apply hany
    apply List.any_eq_true.mpr
    refine ⟨row, hrow, ?_⟩
    rw [eq_of_beq hsymbol, hlast]
    exact beq_self_eq_true _

section Search

variable [Unicode]

theorem findInModule_caches (sourceFile : Text) (lineNumber : Int) {m : Text × Text}
    (hm : m ∈ findModuleFiles koFiles) :
    (cacheEntry h.readelf m).bind (findInModule (h.caches koFiles) sourceFile lineNumber) =
      h.inlinedIn koFiles sourceFile lineNumber m := by
  have hnm := lookup_loadModuleCache h.nm (nodup_findModuleFiles koFiles) hm
  have hpath := find?_symbolToModule (h := h) hm
  -- a module without a line table is not in the cache
  unfold cacheEntry Host.inlinedIn
  cases present (h.readelf m.2) with
  | none => cases present (h.nm m.2) <;> rfl
  | some readelf =>
    show findInModule (h.caches koFiles) sourceFile lineNumber (m.1, readelf) = _
    have hcache : (h.caches koFiles).moduleNmCache.lookup m.1 = present (h.nm m.2) := hnm
    unfold findInModule
    dsimp only
    rw [hcache]
    unfold Host.moduleRows at hpath
    cases hload : present (h.nm m.2) with
    | none => split <;> rfl
    | some nm =>
      rw [hload] at hpath
      dsimp only at hpath ⊢
      by_cases hcontains : Str.contains (Str.basename sourceFile) readelf
      · rw [if_pos hcontains, hcontains, Bool.true_and]
        by_cases hany : ((nmRows nm).any fun row => h.lastDefiner koFiles row.name == some m) = true
        · rw [if_pos hany] at hpath
          rw [hany, Bool.and_true]
          obtain ⟨s, hs, hpath⟩ := Option.map_eq_some_iff.mp hpath
          rw [hs]
          show (if s.2.2.isEmpty then _ else _) = _
          rw [hpath]
          cases m.2.isEmpty <;> rfl
        · rw [if_neg hany] at hpath
          rw [Bool.eq_false_iff.mpr hany, Bool.and_false, Option.map_eq_none_iff.mp hpath]
          rfl
      · rw [if_neg hcontains, Bool.eq_false_iff.mpr hcontains]
        rfl

theorem findSome?_findInModule (sourceFile : Text) (lineNumber : Int) :
    (h.caches koFiles).moduleReadelfCache.findSome?
        (findInModule (h.caches koFiles) sourceFile lineNumber) =
      (h.firstAnswering koFiles sourceFile lineNumber).bind
        (h.inlinedIn koFiles sourceFile lineNumber) := by
  have hcache : (h.caches koFiles).moduleReadelfCache =
      (findModuleFiles koFiles).filterMap (cacheEntry h.readelf) :=
    loadModuleCache_eq (nodup_findModuleFiles koFiles)
  have hmodule : ∀ m ∈ findModuleFiles koFiles,
      (cacheEntry h.readelf m).bind (findInModule (h.caches koFiles) sourceFile lineNumber) =
        h.inlinedIn koFiles sourceFile lineNumber m :=
    fun m hm => findInModule_caches sourceFile lineNumber hm
  rw [hcache, Host.firstAnswering]
  generalize findModuleFiles koFiles = moduleFiles at hmodule ⊢
  induction moduleFiles with
  | nil => rfl
  | cons m moduleFiles ih =>
    have hhead := hmodule m List.mem_cons_self
    have htail := ih fun m hm => hmodule m (List.mem_cons_of_mem _ hm)
    rw [List.filterMap_cons, List.find?_cons]
    cases hentry : cacheEntry h.readelf m with
    | none =>
      rw [hentry] at hhead
      rw [← hhead]
      exact htail
    | some e =>
      rw [hentry] at hhead
      rw [← hhead]
      show List.findSome? _ (e :: _) = _
      rw [List.findSome?_cons, Option.bind_some]
      -- the first module with an answer, in the order of the cache
      cases hfound : findInModule (h.caches koFiles) sourceFile lineNumber e with
      | none => exact htail
      | some found =>
        rw [Option.bind_some, hfound] at hhead
        exact hhead

/-- The search goes to the first module that has an answer. -/
theorem findInlined_caches (t : BinaryTables) (sourceFile : Text) (lineNumber : Int) :
    findInlined (h.caches koFiles) t sourceFile lineNumber =
      (findFunctionForSourceLine t.nm t.readelf sourceFile lineNumber).or
        ((h.firstAnswering koFiles sourceFile lineNumber).bind
          (h.inlinedIn koFiles sourceFile lineNumber)) := by
  rw [← findSome?_findInModule, findInlined]
  cases findFunctionForSourceLine t.nm t.readelf sourceFile lineNumber with
  | some found => rfl
  | none =>
    dsimp only
    rw [Option.none_or]
    rcases symbolToModule_eq_nil_or h koFiles with hnil | ⟨hsymbols, _⟩
    · rw [hnil, if_pos List.isEmpty_nil]
      symm
      apply List.findSome?_eq_none_iff.mpr
      intro m _
      unfold findInModule
      rw [hnil]
      split
      · split
        · rename_i hfind
          cases hfind
        · rfl
      · rfl
    · rw [hsymbols, if_neg Bool.false_ne_true]

/-- An answer is read off the tables of the module, whatever the order. -/
theorem inlinedIn_eq_some {sourceFile : Text} {lineNumber : Int} {m : Text × Text}
    {found : Text × Text × List Text}
    (hfound : h.inlinedIn koFiles sourceFile lineNumber m = some found) :
    ((present (h.nm m.2)).bind fun nm => (present (h.readelf m.2)).bind fun readelf =>
      findFunctionForSourceLine nm readelf sourceFile lineNumber) = some found := by
  unfold Host.inlinedIn at hfound
  split at hfound
  next nm readelf hnm hreadelf =>
    split at hfound
    · rw [hnm, hreadelf]
      exact hfound
    · cases hfound
  next => cases hfound

theorem exists_of_firstAnswering {sourceFile : Text} {lineNumber : Int} {m : Text × Text}
    (hm : h.firstAnswering koFiles sourceFile lineNumber = some m) :
    ∃ found, h.inlinedIn koFiles sourceFile lineNumber m = some found := by
  have hsome := List.find?_some hm
  exact Option.isSome_iff_exists.mp (by simpa using hsome)

theorem firstAnswering_bind {koFiles' : List Text} {sourceFile : Text} {lineNumber : Int}
    (hfirst : h.firstAnswering koFiles sourceFile lineNumber =
      h.firstAnswering koFiles' sourceFile lineNumber) :
    (h.firstAnswering koFiles sourceFile lineNumber).bind
        (h.inlinedIn koFiles sourceFile lineNumber) =
      (h.firstAnswering koFiles' sourceFile lineNumber).bind
        (h.inlinedIn koFiles' sourceFile lineNumber) := by
  rw [← hfirst]
  cases hm : h.firstAnswering koFiles sourceFile lineNumber with
  | none => rfl
  | some m =>
    rw [hm] at hfirst
    obtain ⟨found, hfound⟩ := exists_of_firstAnswering hm
    obtain ⟨found', hfound'⟩ := exists_of_firstAnswering hfirst.symm
    rw [Option.bind_some, Option.bind_some, hfound, hfound', ← inlinedIn_eq_some hfound,
      ← inlinedIn_eq_some hfound']

/-! ## The result of a function -/

variable {koFiles' : List Text} {sourceFile function : Text} {lineNumber : Int}

theorem findInlined_congr (htables : h.tablesOf koFiles function = h.tablesOf koFiles' function)
    (hsymbol : findSymbol (h.tablesOf koFiles function).nm function = none)
    (hline : h.AsksModules koFiles sourceFile lineNumber function →
      h.firstAnswering koFiles sourceFile lineNumber =
        h.firstAnswering koFiles' sourceFile lineNumber) :
    findInlined (h.caches koFiles) (h.tablesOf koFiles function) sourceFile lineNumber =
      findInlined (h.caches koFiles') (h.tablesOf koFiles' function) sourceFile lineNumber := by
  rw [findInlined_caches, findInlined_caches, ← htables]
  cases hown : findFunctionForSourceLine (h.tablesOf koFiles function).nm
      (h.tablesOf koFiles function).readelf sourceFile lineNumber with
  | some found => rfl
  | none => rw [firstAnswering_bind (hline ⟨hsymbol, hown⟩)]

theorem findAddressForLine_congr
    (htables : h.tablesOf koFiles function = h.tablesOf koFiles' function)
    (hline : h.AsksModules koFiles sourceFile lineNumber function →
      h.firstAnswering koFiles sourceFile lineNumber =
        h.firstAnswering koFiles' sourceFile lineNumber) :
    findAddressForLine (h.caches koFiles) sourceFile lineNumber function =
      findAddressForLine (h.caches koFiles') sourceFile lineNumber function := by
  unfold findAddressForLine
  rw [actualTables_caches, actualTables_caches]
  dsimp only
  cases hsymbol : findSymbol (h.tablesOf koFiles function).nm function with
  | none =>
    have hinlined := findInlined_congr htables hsymbol hline
    rw [← htables] at hinlined ⊢
    rw [hsymbol, hinlined]
  | some row =>
    rw [← htables, hsymbol]
    rfl

theorem findAddressRangeForSingleLine_congr
    (htables : h.tablesOf koFiles function = h.tablesOf koFiles' function)
    (hline : h.AsksModules koFiles sourceFile lineNumber function →
      h.firstAnswering koFiles sourceFile lineNumber =
        h.firstAnswering koFiles' sourceFile lineNumber) :
    findAddressRangeForSingleLine (h.caches koFiles) sourceFile lineNumber function =
      findAddressRangeForSingleLine (h.caches koFiles') sourceFile lineNumber function := by
  unfold findAddressRangeForSingleLine
  rw [actualTables_caches, actualTables_caches]
  dsimp only
  cases hsymbol : findSymbol (h.tablesOf koFiles function).nm function with
  | none =>
    have hinlined := findInlined_congr htables hsymbol hline
    rw [← htables] at hinlined ⊢
    rw [hsymbol, hinlined]
  | some row =>
    rw [← htables, hsymbol]
    rfl

/-- **Module order.**  Two orders of the walk that let the same modules define the three functions of a
result, and the same modules answer for its lines where these are looked for in the modules, give the
same symbols and offsets. -/
theorem processSingleResult_of_sameChoices (h : Host) (koFiles koFiles' : List Text)
    (r : ParsedResult) (hsame : h.SameChoices koFiles koFiles' r) :
    processSingleResult (h.caches koFiles) r = processSingleResult (h.caches koFiles') r := by
  have htables {f : Text} (hf : h.chosenModule koFiles f = h.chosenModule koFiles' f) :
      h.tablesOf koFiles f = h.tablesOf koFiles' f := by
    rw [Host.tablesOf, Host.tablesOf, hf]
  have hends : lookupEnds (h.caches koFiles) r = lookupEnds (h.caches koFiles') r := by
    unfold lookupEnds
    rw [findAddressRangeForSingleLine_congr (htables hsame.earliestFunc) hsame.earliestLine,
      findAddressForLine_congr (htables hsame.earliestFunc) hsame.earliestLine,
      findAddressForLine_congr (htables hsame.latestFunc) hsame.latestLine]
  have hnm : relocationNm (h.caches koFiles) r = relocationNm (h.caches koFiles') r := by
    rw [relocationNm_caches, relocationNm_caches, hsame.function]
  unfold processSingleResult spanEnds
  rw [hends, hnm]

end Search

/-! ## Two orders -/

/-- Two modules compiled from one header; each has its own copy of `f`, and only the second one `g`. -/
def headerHost : Host where
  vmlinuxPath := "vmlinux".toList
  nmOutput := "0 T start".toList
  readelfOutput := "File:".toList
  nm := fun koFile => if koFile = "b.ko".toList then some "10 t f\n40 t g".toList else some "10 t f".toList
  readelf := fun _ => none
  objdump := fun cmd =>
    if cmd.getLast? = some "b.ko".toList then some "x.h:5\n18:\tnop\n".toList
    else some "x.h:5\n14:\tnop\n".toList

def headerResult (function : String) : ParsedResult where
  function := function.toList
  earliestFunc := function.toList
  latestFunc := function.toList
  earliestFile := "x.h".toList
  earliestLine := 5
  latestFile := "x.h".toList
  latestLine := 5

/-- Only one module defines `g`. -/
theorem processSingleResult_of_sameChoices_header :
    @processSingleResult Unicode.ascii (headerHost.caches ["a.ko".toList, "b.ko".toList])
        (headerResult "g") =
      @processSingleResult Unicode.ascii (headerHost.caches ["b.ko".toList, "a.ko".toList])
        (headerResult "g") := by
  let _ := Unicode.ascii
  apply processSingleResult_of_sameChoices
  have hchosen : headerHost.chosenModule ["a.ko".toList, "b.ko".toList] "g".toList =
      headerHost.chosenModule ["b.ko".toList, "a.ko".toList] "g".toList := by
    decide +kernel
  have hfirst : headerHost.firstAnswering ["a.ko".toList, "b.ko".toList] "x.h".toList 5 =
      headerHost.firstAnswering ["b.ko".toList, "a.ko".toList] "x.h".toList 5 := by
    decide +kernel
  exact ⟨hchosen, hchosen, hchosen, fun _ => hfirst, fun _ => hfirst⟩

/-- Both modules define `f`, and the offset is the one of the module that the walk finds last. -/
theorem processSingleResult_depends_on_order :
    ["a.ko".toList, "b.ko".toList].Perm ["b.ko".toList, "a.ko".toList] ∧
      (@processSingleResult Unicode.ascii (headerHost.caches ["a.ko".toList, "b.ko".toList])
          (headerResult "f")).map SpanResult.startOffset = some (some "0x8".toList) ∧
      (@processSingleResult Unicode.ascii (headerHost.caches ["b.ko".toList, "a.ko".toList])
          (headerResult "f")).map SpanResult.startOffset = some (some "0x4".toList) := by
  refine ⟨List.Perm.swap _ _ _, ?_, ?_⟩
  · decide +kernel
  · decide +kernel

end IrToAssembly

end LinuxAnalysis
