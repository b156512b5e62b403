import LinuxAnalysis.Lib.Script
import LinuxAnalysis.Scripts.ModuleMap

/-!
# ir_to_assembly.py: the cached tables

What `nm` and `readelf` print is kept in a directory whose name is a hash of the path, the time and the
size of the binary.  The directories are followed through a sequence of runs between which the binaries
may change, and what `main` loads is compared with what the programs print.
-/

open LinuxAnalysis.Lib

namespace LinuxAnalysis

namespace IrToAssembly

/-! ## 1. The script -/

inductive LoadError where
  | fileNotFound (path : Text)
  | timeoutExpired (cmd : List Text)
  | systemExit (code : Nat)

abbrev CacheScript (α : Type) := Script LoadError Path Text α

/-- The two programs whose output is kept. -/
inductive TableTool where
  | nm
  | readelf
  deriving DecidableEq

namespace TableTool

def cmd : TableTool → List Text
  | nm => ["nm".toList]
  | readelf => ["readelf".toList, "--debug-dump=decodedline".toList]

def fileName : TableTool → Text
  | nm => "nm_output.txt".toList
  | readelf => "readelf_decodedline.txt".toList

end TableTool

/-- What `os.stat` tells of a binary, and its content. -/
structure Elf (γ : Type) where
  mtime : Text
  size : Nat
  content : γ
  /-- a printed float -/
  mtime_plain : '_' ∉ mtime

/-- The `mapping` directory and the hexadecimal digest that names the directories in it. -/
structure CacheRoot where
  mapping : Path
  md5 : Text → Text
  md5_hex : ∀ s, ∀ c ∈ md5 s, Str.isHexDigit c = true
  md5_length : ∀ s, (md5 s).length = 32

/-- What a run of the script meets; the programs print what the content says, or take too long. -/
structure Machine (γ : Type) where
  vmlinuxPath : Text
  /-- what the walk of the modules directory finds; `none` when there is no such directory -/
  koFiles : Option (List Text)
  elf : Text → Option (Elf γ)
  slow : List Text → Bool
  objdump : List Text → Option Text

section Script

variable {γ : Type} (root : CacheRoot) (prints : TableTool → γ → Int × Text) (machine : Machine γ)

def elfId (path : Text) (e : Elf γ) : Text := path ++ '_' :: (e.mtime ++ '_' :: Str.str e.size)

def CacheRoot.hash (id : Text) : Text := (root.md5 id).take 16

/-- The directory of a binary in one of the two cache directories. -/
def CacheRoot.dir (cache path : Text) (e : Elf γ) : Path :=
  (root.mapping.join (.parse cache)).join (.parse (root.hash (elfId path e)))

def stat (path : Text) : CacheScript (Elf γ) :=
  match machine.elf path with
  | some e => pure e
  | none => Script.raise (.fileNotFound path)

def getCacheDir (vmlinuxPath : Text) : CacheScript Path := do
  let e ← stat machine vmlinuxPath
  return root.dir ".vmlinux_cache".toList vmlinuxPath e

def getModuleCacheDir (koPath : Text) : CacheScript Path := do
  let e ← stat machine koPath
  return root.dir ".module_cache".toList koPath e

def cacheFile (tool : TableTool) (cacheDir : Path) : Option Text → Path
  | some (c :: cs) => cacheDir.join (.parse (c :: cs ++ '.' :: tool.fileName))
  | _ => cacheDir.join (.parse tool.fileName)

/-- The return code and what the program prints. -/
def runTool (tool : TableTool) (path : Text) : Int × Text :=
  match machine.elf path with
  | some e => prints tool e.content
  | none => (1, [])

def generateCache (tool : TableTool) (path : Text) (cacheDir : Path) (moduleName : Option Text) :
    CacheScript (Option Text) :=
  if machine.slow (tool.cmd ++ [path]) then Script.raise (.timeoutExpired (tool.cmd ++ [path]))
  else if (runTool prints machine tool path).1 ≠ 0 then return none
  else do
    -- the output is read in text mode
    Script.write (cacheFile tool cacheDir moduleName)
      (Str.universalNewlines (runTool prints machine tool path).2)
    return some (Str.universalNewlines (runTool prints machine tool path).2)

def generateNmCache := generateCache prints machine .nm

def generateReadelfCache := generateCache prints machine .readelf

def loadCache (tool : TableTool) (path : Text) (cacheDir : Path) (moduleName : Option Text) :
    CacheScript (Option Text) :=
  Script.memo (fun text => some (Str.universalNewlines text)) (cacheFile tool cacheDir moduleName)
    (generateCache prints machine tool path cacheDir moduleName)

def loadNmCache := loadCache prints machine .nm

def loadReadelfCache := loadCache prints machine .readelf

/-- `if output: cache[module_name] = output` -/
def keepOutput (cache : Dict Text Text) (moduleName : Text) (output : Option Text) : Dict Text Text :=
  match present output with
  | some output => cache.set moduleName output
  | none => cache

/-- The turn of `load_module_caches` for one module. -/
def loadModule (caches : Dict Text Text × Dict Text Text) (m : Text × Text) :
    CacheScript (Dict Text Text × Dict Text Text) := do
  let cacheDir ← getModuleCacheDir root machine m.2
  let nmOutput ← loadNmCache prints machine m.2 cacheDir (some m.1)
  let readelfOutput ← loadReadelfCache prints machine m.2 cacheDir (some m.1)
  return (keepOutput caches.1 m.1 nmOutput, keepOutput caches.2 m.1 readelfOutput)

def loadModuleCaches (moduleFiles : Dict Text Text) :
    CacheScript (Dict Text Text × Dict Text Text) :=
  moduleFiles.foldlM (loadModule root prints machine) ([], [])

/-- The part of `main` that loads the tables. -/
def loadTables (koFiles : List Text) : CacheScript Caches := do
  let cacheDir ← getCacheDir root machine machine.vmlinuxPath
  let nmOutput ← loadNmCache prints machine machine.vmlinuxPath cacheDir none
  let readelfOutput ← loadReadelfCache prints machine machine.vmlinuxPath cacheDir none
  match present nmOutput, present readelfOutput with
  | some nmOutput, some readelfOutput =>
    let caches ← loadModuleCaches root prints machine (findModuleFiles koFiles)
    return {
      vmlinuxPath := machine.vmlinuxPath
      nmOutput := nmOutput
      readelfOutput := readelfOutput
      symbolToModule := buildSymbolToModuleMap caches.1 (findModuleFiles koFiles)
      moduleNmCache := caches.1
      moduleReadelfCache := caches.2
      objdump := machine.objdump }
  | _, _ => Script.raise (.systemExit 1)

/-- The turn of `--generate-cache` for one module. -/
def generateModule (_ : Unit) (m : Text × Text) : CacheScript Unit := do
  let cacheDir ← getModuleCacheDir root machine m.2
  let _ ← generateNmCache prints machine m.2 cacheDir (some m.1)
  let _ ← generateReadelfCache prints machine m.2 cacheDir (some m.1)

/-- The part of `main` for `--generate-cache`. -/
def generateTables (koFiles : List Text) : CacheScript Unit := do
  let cacheDir ← getCacheDir root machine machine.vmlinuxPath
  let _ ← generateNmCache prints machine machine.vmlinuxPath cacheDir none
  let _ ← generateReadelfCache prints machine machine.vmlinuxPath cacheDir none
  (findModuleFiles koFiles).foldlM (generateModule root prints machine) ()

/-- `main` up to the tables; `none` when it only generates them. -/
def mainTables (generateCache : Bool) : CacheScript (Option Caches) :=
  match machine.elf machine.vmlinuxPath, machine.koFiles with
  | some _, some koFiles =>
    if generateCache then do
      generateTables root prints machine koFiles
      return none
    else do
      let caches ← loadTables root prints machine koFiles
      return some caches
  | _, _ => Script.raise (.systemExit 1)

end Script

/-! ## 2. Where a table is kept -/

section Names

variable {γ : Type} {root : CacheRoot}

/-- The path, the time and the size can be read back. -/
theorem elfId_inj {path path' : Text} {e e' : Elf γ} (h : elfId path e = elfId path' e') :
    path = path' ∧ e.mtime = e'.mtime ∧ e.size = e'.size := by
  have hsize (n : Nat) : '_' ∉ Str.str n := fun hmem =>
    absurd (Str.isHexDigit_toDigits (by omega) (by omega) hmem) (by decide)
  have hid (path : Text) (e : Elf γ) :
      elfId path e = (path ++ '_' :: e.mtime) ++ '_' :: Str.str e.size := by
    rw [elfId, List.append_assoc, List.cons_append]
  have hsplit := congrArg (Str.rsplitOnce '_') h
  rw [hid, hid, Str.rsplitOnce_append (hsize _), Str.rsplitOnce_append (hsize _), Option.some.injEq,
    Prod.mk.injEq] at hsplit
  have hpath := congrArg (Str.rsplitOnce '_') hsplit.1
  rw [Str.rsplitOnce_append e.mtime_plain, Str.rsplitOnce_append e'.mtime_plain, Option.some.injEq,
    Prod.mk.injEq] at hpath
  exact ⟨hpath.1, hpath.2, Str.str_injective hsplit.2⟩

theorem hash_plain (root : CacheRoot) (id : Text) :
    '/' ∉ root.hash id ∧ root.hash id ≠ [] ∧ root.hash id ≠ ['.'] := by
  have hlength : (root.hash id).length = 16 := by
    rw [CacheRoot.hash, List.length_take, root.md5_length]
    rfl
  have hslash : '/' ∉ root.hash id := fun hmem =>
    absurd (root.md5_hex id _ (List.mem_of_mem_take hmem)) (by decide)
  refine ⟨hslash, fun h => ?_, fun h => ?_⟩
  · rw [h] at hlength
    cases hlength
  · rw [h] at hlength
    cases hlength

/-- The two cache directories. -/
def IsCache (cache : Text) : Prop := cache = ".vmlinux_cache".toList ∨ cache = ".module_cache".toList

theorem dir_eq {cache : Text} (hcache : IsCache cache) (path : Text) (e : Elf γ) :
    root.dir cache path e = ⟨root.mapping.root,
      root.mapping.parts ++ [cache, root.hash (elfId path e)]⟩ := by
  obtain ⟨hslash, hne, hdot⟩ := hash_plain root (elfId path e)
  rw [CacheRoot.dir, Path.join_parse _ hslash hne hdot]
  rcases hcache with rfl | rfl
  · rw [Path.join_parse _ (by decide) (by decide) (by decide), List.append_assoc]
    rfl
  · rw [Path.join_parse _ (by decide) (by decide) (by decide), List.append_assoc]
    rfl

/-- The last component of a cache file. -/
def tableName (tool : TableTool) : Option Text → Text
  | some (c :: cs) => c :: cs ++ '.' :: tool.fileName
  | _ => tool.fileName

theorem fileName_suffix_tableName (tool : TableTool) (moduleName : Option Text) :
    tool.fileName <:+ tableName tool moduleName := by
  unfold tableName
  split
  · exact (List.suffix_cons _ _).trans (List.suffix_append _ _)
  · exact List.suffix_refl _

theorem cacheFile_eq {moduleName : Option Text} (hname : ∀ name ∈ moduleName, '/' ∉ name)
    (tool : TableTool) (cacheDir : Path) : cacheFile tool cacheDir moduleName =
      ⟨cacheDir.root, cacheDir.parts ++ [tableName tool moduleName]⟩ := by
  have hfile : cacheFile tool cacheDir moduleName =
      cacheDir.join (.parse (tableName tool moduleName)) := by
    unfold cacheFile tableName
    split <;> rfl
  have hlength := (fileName_suffix_tableName tool moduleName).length_le
  have hlong : 1 < tool.fileName.length := by cases tool <;> decide
  rw [hfile, Path.join_parse]
  · have hplain : '/' ∉ tool.fileName := by cases tool <;> decide
    unfold tableName
    split
    next c cs =>
      intro hmem
      rcases List.mem_append.mp hmem with hmem | hmem
      · exact hname _ rfl hmem
      · exact (List.mem_cons.mp hmem).elim (fun h => absurd h (by decide)) hplain
    next => exact hplain
  · rintro h
    rw [h, List.length_nil] at hlength
    omega
  · rintro h
    rw [h, List.length_singleton] at hlength
    omega

/-- A cache file tells its program and the hash of its binary. -/
theorem cacheFile_inj {cache cache' path path' : Text} {e e' : Elf γ} {tool tool' : TableTool}
    {name name' : Option Text} (hcache : IsCache cache) (hcache' : IsCache cache')
    (hname : ∀ n ∈ name, '/' ∉ n) (hname' : ∀ n ∈ name', '/' ∉ n)
    (h : cacheFile tool (root.dir cache path e) name =
      cacheFile tool' (root.dir cache' path' e') name') :
    root.hash (elfId path e) = root.hash (elfId path' e') ∧ tool = tool' := by
  rw [cacheFile_eq hname, cacheFile_eq hname', dir_eq hcache, dir_eq hcache', Lib.Path.mk.injEq] at h
  obtain ⟨hdirs, hlast⟩ := List.append_inj' h.2 rfl
  have hhash := List.append_cancel_left hdirs
  simp only [List.cons.injEq, and_true] at hhash hlast
  refine ⟨hhash.2, ?_⟩
  -- neither of the two names ends in the other
  have hsuffix := fileName_suffix_tableName tool name
  have hsuffix' := fileName_suffix_tableName tool' name'
  rw [hlast] at hsuffix
  by_contra hne
  rcases List.suffix_or_suffix_of_suffix hsuffix hsuffix' with h | h <;>
    cases tool <;> cases tool' <;> first | exact hne rfl | exact absurd h (by decide)

end Names

/-! ## 3. What is loaded -/

section Specs

open Script (Sound Triple)

variable {γ : Type} {root : CacheRoot} {prints : TableTool → γ → Int × Text}
  {machines : List (Machine γ)} {machine : Machine γ}

/-- The output of a program that succeeds, as it is read. -/
def table (prints : TableTool → γ → Int × Text) (machine : Machine γ) (tool : TableTool)
    (path : Text) : Option Text :=
  if (runTool prints machine tool path).1 ≠ 0 then none
  else some (Str.universalNewlines (runTool prints machine tool path).2)

/-- The kernel and its modules as the programs show them. -/
def Machine.host (machine : Machine γ) (prints : TableTool → γ → Int × Text) : Host where
  vmlinuxPath := machine.vmlinuxPath
  nmOutput := (table prints machine .nm machine.vmlinuxPath).getD []
  readelfOutput := (table prints machine .readelf machine.vmlinuxPath).getD []
  nm := table prints machine .nm
  readelf := table prints machine .readelf
  objdump := machine.objdump

/-- A binary that changes gets another time or size, and the digests of what identifies the binaries
differ. -/
structure Identified (root : CacheRoot) (machines : List (Machine γ)) : Prop where
  stat : ∀ M ∈ machines, ∀ M' ∈ machines, ∀ path e e', M.elf path = some e → M'.elf path = some e' →
    e.mtime = e'.mtime → e.size = e'.size → e.content = e'.content
  digest : ∀ M ∈ machines, ∀ M' ∈ machines, ∀ path path' e e', M.elf path = some e →
    M'.elf path' = some e' → root.hash (elfId path e) = root.hash (elfId path' e') →
    elfId path e = elfId path' e'

/-- What a cache file may hold: the table of every binary that it stands for. -/
def Allowed (root : CacheRoot) (prints : TableTool → γ → Int × Text) (machines : List (Machine γ))
    (p : Path) (text : Text) : Prop :=
  ∀ M ∈ machines, ∀ path e tool cache name, M.elf path = some e → IsCache cache →
    (∀ n ∈ name, '/' ∉ n) → p = cacheFile tool (root.dir cache path e) name →
    table prints M tool path = some text

theorem runTool_eq {path : Text} {e : Elf γ} (helf : machine.elf path = some e) (tool : TableTool) :
    runTool prints machine tool path = prints tool e.content := by
  rw [runTool, helf]

theorem allowed_table (hident : Identified root machines) (hmachine : machine ∈ machines)
    {path text cache : Text} {e : Elf γ} {tool : TableTool} {name : Option Text}
    (helf : machine.elf path = some e) (hcache : IsCache cache) (hname : ∀ n ∈ name, '/' ∉ n)
    (htable : table prints machine tool path = some text) :
    Allowed root prints machines (cacheFile tool (root.dir cache path e) name) text := by
  intro M hM path' e' tool' cache' name' helf' hcache' hname' hfile
  obtain ⟨hhash, rfl⟩ := cacheFile_inj hcache hcache' hname hname' hfile
  obtain ⟨rfl, hmtime, hsize⟩ :=
    elfId_inj (hident.digest machine hmachine M hM path path' e e' helf helf' hhash)
  have hcontent := hident.stat machine hmachine M hM path e e' helf helf' hmtime hsize
  rw [← htable, table, table, runTool_eq helf, runTool_eq helf', hcontent]

theorem generateCache_spec (hident : Identified root machines) (hmachine : machine ∈ machines)
    {path cache : Text} {e : Elf γ} {name : Option Text} (helf : machine.elf path = some e)
    (hcache : IsCache cache) (hname : ∀ n ∈ name, '/' ∉ n) (tool : TableTool) :
    Triple (Sound (Allowed root prints machines))
      (generateCache prints machine tool path (root.dir cache path e) name)
      (fun output files => output = table prints machine tool path ∧
        Sound (Allowed root prints machines) files)
      (Sound (Allowed root prints machines)) := by
  unfold generateCache
  split
  · exact .raise fun _ h => h
  · split
    next hcode => exact .pure fun files h => ⟨(if_pos hcode).symm, h⟩
    next hcode =>
      have htable : table prints machine tool path =
          some (Str.universalNewlines (runTool prints machine tool path).2) := if_neg hcode
      refine .bind (.write (R := Sound (Allowed root prints machines)) fun files h => ?_) fun _ =>
        .pure fun files h => ⟨htable.symm, h⟩
      exact h.update (allowed_table hident hmachine helf hcache hname htable)

theorem loadCache_spec (hident : Identified root machines) (hmachine : machine ∈ machines)
    {path cache : Text} {e : Elf γ} {name : Option Text} (helf : machine.elf path = some e)
    (hcache : IsCache cache) (hname : ∀ n ∈ name, '/' ∉ n) (tool : TableTool) :
    Triple (Sound (Allowed root prints machines))
      (loadCache prints machine tool path (root.dir cache path e) name)
      (fun output files => output = table prints machine tool path ∧
        Sound (Allowed root prints machines) files)
      (Sound (Allowed root prints machines)) := by
  refine .memo (generateCache_spec hident hmachine helf hcache hname tool) fun text hallowed => ?_
  have htable := hallowed machine hmachine path e tool cache name helf hcache hname rfl
  rw [htable]
  -- a table has no carriage return any more
  have hread : Str.universalNewlines text = text := by
    refine Str.universalNewlines_eq_self ?_
    unfold table at htable
    split at htable
    · cases htable
    · rw [← Option.some.inj htable]
      exact Str.not_mem_universalNewlines _
  exact congrArg some hread

/-- The directory of a binary, which must be there. -/
theorem dir_spec {P E : (Path → Option Text) → Prop} (cache path : Text)
    (hE : ∀ files, P files → E files) :
    Triple P (do let e ← stat machine path; return root.dir cache path e)
      (fun cacheDir files => (∃ e, machine.elf path = some e ∧ cacheDir = root.dir cache path e) ∧
        P files) E := by
  have hstat : Triple P (stat machine path)
      (fun e files => machine.elf path = some e ∧ P files) E := by
    unfold stat
    cases helf : machine.elf path with
    | some e => exact .pure fun files h => ⟨rfl, h⟩
    | none => exact .raise hE
  exact hstat.bind fun e => .pure fun files h => ⟨⟨e, h.1, rfl⟩, h.2⟩

theorem keepOutput_eq (cache : Dict Text Text) (m : Text × Text) (load : Text → Option Text)
    (done : Dict Text Text) (h : cache = loadModuleCache load done) :
    keepOutput cache m.1 (load m.2) = loadModuleCache load (done ++ [m]) := by
  rw [loadModuleCache, List.foldl_append, ← loadModuleCache, ← h]
  rfl

theorem loadModule_spec (hident : Identified root machines) (hmachine : machine ∈ machines)
    {m : Text × Text} (hname : '/' ∉ m.1) (done : Dict Text Text) :
    Triple (Sound (Allowed root prints machines))
      (loadModule root prints machine (loadModuleCache (table prints machine .nm) done,
        loadModuleCache (table prints machine .readelf) done) m)
      (fun caches files => caches = (loadModuleCache (table prints machine .nm) (done ++ [m]),
        loadModuleCache (table prints machine .readelf) (done ++ [m])) ∧
        Sound (Allowed root prints machines) files)
      (Sound (Allowed root prints machines)) := by
  have hplain : ∀ n ∈ some m.1, '/' ∉ n := fun n hn => Option.some.inj hn ▸ hname
  unfold loadModule
  refine .bind (dir_spec ".module_cache".toList m.2 fun _ h => h) fun cacheDir => .of_imp ?_
  rintro ⟨e, helf, rfl⟩
  refine .bind (loadCache_spec hident hmachine helf (.inr rfl) hplain .nm) fun nmOutput =>
    .of_imp fun hnm => ?_
  refine .bind (loadCache_spec hident hmachine helf (.inr rfl) hplain .readelf) fun readelfOutput =>
    .of_imp fun hreadelf => .pure fun files h => ⟨?_, h⟩
  rw [hnm, hreadelf, keepOutput_eq _ m _ done rfl, keepOutput_eq _ m _ done rfl]

/-- A module name is the stem of a path. -/
theorem not_mem_moduleName (koFiles : List Text) {m : Text × Text}
    (hm : m ∈ findModuleFiles koFiles) : '/' ∉ m.1 := by
  refine foldl_invariant (I := fun d : Dict Text Text => ∀ m ∈ d, '/' ∉ m.1)
    (fun d koFile _ hd m hm => ?_) (fun _ hm => by cases hm) m hm
  rcases Dict.mem_of_mem_set hm with rfl | hm
  · exact Path.not_mem_stem_parse koFile
  · exact hd m hm

theorem loadTables_spec (hident : Identified root machines) (hmachine : machine ∈ machines)
    (koFiles : List Text) :
    Triple (Sound (Allowed root prints machines)) (loadTables root prints machine koFiles)
      (fun caches files => caches = (machine.host prints).caches koFiles ∧
        Sound (Allowed root prints machines) files)
      (Sound (Allowed root prints machines)) := by
  have hnone : ∀ n ∈ (none : Option Text), '/' ∉ n := fun n hn => by cases hn
  unfold loadTables
  refine .bind (dir_spec ".vmlinux_cache".toList _ fun _ h => h) fun cacheDir => .of_imp ?_
  rintro ⟨e, helf, rfl⟩
  refine .bind (loadCache_spec hident hmachine helf (.inl rfl) hnone .nm) fun nmOutput =>
    .of_imp fun hnm => ?_
  refine .bind (loadCache_spec hident hmachine helf (.inl rfl) hnone .readelf) fun readelfOutput =>
    .of_imp fun hreadelf => ?_
  split
  next nm readelf hnm' hreadelf' =>
    have hmodules := Triple.foldlM (E := Sound (Allowed root prints machines))
      (f := loadModule root prints machine) (I := fun done caches files =>
        caches = (loadModuleCache (table prints machine .nm) done,
          loadModuleCache (table prints machine .readelf) done) ∧
        Sound (Allowed root prints machines) files)
      (findModuleFiles koFiles) ([], []) fun done m rest hdone caches => .of_imp fun hcaches => by
        rw [hcaches]
        refine loadModule_spec hident hmachine (not_mem_moduleName koFiles ?_) done
        rw [hdone]
        exact List.mem_append_right _ List.mem_cons_self
    refine .bind (hmodules.weaken (fun files h => ⟨rfl, h⟩) (fun _ _ h => h) fun _ h => h)
      fun caches => .of_imp fun hcaches => .pure fun files h => ⟨?_, h⟩
    rw [hnm] at hnm'
    rw [hreadelf] at hreadelf'
    have htables : (machine.host prints).nmOutput = nm ∧
        (machine.host prints).readelfOutput = readelf := by
      refine ⟨?_, ?_⟩
      · rw [Machine.host, (Option.filter_eq_some_iff.mp hnm').1, Option.getD_some]
      · rw [Machine.host, (Option.filter_eq_some_iff.mp hreadelf').1, Option.getD_some]
    rw [hcaches, ← htables.1, ← htables.2]
    rfl
  next => exact .raise fun _ h => h

theorem generateModule_spec (hident : Identified root machines) (hmachine : machine ∈ machines)
    {m : Text × Text} (hname : '/' ∉ m.1) :
    Triple (Sound (Allowed root prints machines)) (generateModule root prints machine () m)
      (fun _ files => Sound (Allowed root prints machines) files)
      (Sound (Allowed root prints machines)) := by
  have hplain : ∀ n ∈ some m.1, '/' ∉ n := fun n hn => Option.some.inj hn ▸ hname
  unfold generateModule
  refine .bind (dir_spec ".module_cache".toList m.2 fun _ h => h) fun cacheDir => .of_imp ?_
  rintro ⟨e, helf, rfl⟩
  refine .bind (generateCache_spec hident hmachine helf (.inr rfl) hplain .nm) fun _ =>
    .of_imp fun _ => ?_
  exact .bind (generateCache_spec hident hmachine helf (.inr rfl) hplain .readelf) fun _ =>
    .of_imp fun _ => .pure fun _ h => h

theorem generateTables_spec (hident : Identified root machines) (hmachine : machine ∈ machines)
    (koFiles : List Text) :
    Triple (Sound (Allowed root prints machines)) (generateTables root prints machine koFiles)
      (fun _ files => Sound (Allowed root prints machines) files)
      (Sound (Allowed root prints machines)) := by
  have hnone : ∀ n ∈ (none : Option Text), '/' ∉ n := fun n hn => by cases hn
  unfold generateTables
  refine .bind (dir_spec ".vmlinux_cache".toList _ fun _ h => h) fun cacheDir => .of_imp ?_
  rintro ⟨e, helf, rfl⟩
  refine .bind (generateCache_spec hident hmachine helf (.inl rfl) hnone .nm) fun _ =>
    .of_imp fun _ => ?_
  refine .bind (generateCache_spec hident hmachine helf (.inl rfl) hnone .readelf) fun _ =>
    .of_imp fun _ => ?_
  refine .foldlM (I := fun _ _ files => Sound (Allowed root prints machines) files) _ _
    fun done m rest hdone _ => generateModule_spec hident hmachine (not_mem_moduleName
      koFiles ?_)
  rw [hdone]
  exact List.mem_append_right _ List.mem_cons_self

/-- A run, of either kind, keeps the cache sound, and what it loads is what the programs print. -/
theorem mainTables_spec (prints : TableTool → γ → Int × Text) (hident : Identified root machines)
    (hmachine : machine ∈ machines) (generateCache : Bool) :
    Triple (Sound (Allowed root prints machines)) (mainTables root prints machine generateCache)
      (fun loaded files => (∀ caches, loaded = some caches → ∃ koFiles,
        machine.koFiles = some koFiles ∧ caches = (machine.host prints).caches koFiles) ∧
        Sound (Allowed root prints machines) files)
      (Sound (Allowed root prints machines)) := by
  unfold mainTables
  split
  next e koFiles _ hkoFiles =>
    split
    · refine .bind (generateTables_spec hident hmachine koFiles) fun _ =>
        .pure fun files h => ⟨fun caches hcaches => ?_, h⟩
      cases hcaches
    · refine .bind (loadTables_spec hident hmachine koFiles) fun caches =>
        .of_imp fun hloaded => .pure fun files h => ⟨fun caches' hcaches => ?_, h⟩
      cases hcaches
      exact ⟨koFiles, hkoFiles, hloaded⟩
  next => exact .raise fun _ h => h

end Specs

/-! ## 4. Sequences of runs -/

section Runs

open Script (Sound)

variable {γ : Type}

/-- The cache files after some runs, each with `--generate-cache` or without. -/
def cacheRuns (root : CacheRoot) (prints : TableTool → γ → Int × Text) (files : Path → Option Text)
    (runs : List (Machine γ × Bool)) : Path → Option Text :=
  runs.foldl (fun files run => (mainTables root prints run.1 run.2 files).2) files

variable {root : CacheRoot} {prints : TableTool → γ → Int × Text}

theorem sound_cacheRuns (prints : TableTool → γ → Int × Text) {machines : List (Machine γ)}
    (hident : Identified root machines) {runs : List (Machine γ × Bool)} (hruns : ∀ run ∈ runs, run.1 ∈ machines) :
    Sound (Allowed root prints machines) (cacheRuns root prints (fun _ => none) runs) := by
  refine foldl_invariant (I := Sound (Allowed root prints machines)) (fun files run hrun h => ?_)
    fun _ _ hfile => by cases hfile
  have hspec := mainTables_spec prints hident (hruns run hrun) run.2 files h
  cases hout : (mainTables root prints run.1 run.2 files).1 with
  | ok loaded => exact (hspec.1 loaded hout).2
  | error e => exact hspec.2 e hout

/-- **The cache is transparent.**  From an empty cache, in any sequence of runs between which binaries
come, go and change, and some of which fail, the tables that a run loads are those that `nm` and
`readelf` print for the binaries that are there. -/
theorem cached_tables_current (root : CacheRoot) (prints : TableTool → γ → Int × Text)
    (runs : List (Machine γ × Bool)) (hident : Identified root (runs.map Prod.fst))
    (done : List (Machine γ × Bool)) (machine : Machine γ) (generateCache : Bool)
    (rest : List (Machine γ × Bool)) (hruns : runs = done ++ (machine, generateCache) :: rest)
    (caches : Caches)
    (hloaded : (mainTables root prints machine generateCache
      (cacheRuns root prints (fun _ => none) done)).1 = .ok (some caches)) :
    ∃ koFiles, machine.koFiles = some koFiles ∧
      caches = (machine.host prints).caches koFiles := by
  have hmem : ∀ run ∈ done ++ [(machine, generateCache)], run.1 ∈ runs.map Prod.fst := by
    intro run hrun
    refine List.mem_map_of_mem ?_
    rw [hruns, List.append_cons]
    exact List.mem_append_left rest hrun
  have hsound := sound_cacheRuns prints hident fun run hrun =>
    hmem run (List.mem_append_left _ hrun)
  have hmachine : machine ∈ runs.map Prod.fst :=
    hmem (machine, generateCache) (List.mem_append_right _ List.mem_cons_self)
  exact ((mainTables_spec prints hident hmachine generateCache _ hsound).1 _ hloaded).1 caches rfl

end Runs

/-! A kernel that is built anew between two runs. -/

def exampleRoot : CacheRoot where
  mapping := .parse "/repo/mapping".toList
  md5 s :=
    if s = "/vmlinux_1.0_10".toList then "aa2439ee7f2e195eed62a5c9b044d4e1".toList
    else "bce6afbf12e22ab251711298990aeaa4".toList
  md5_hex s := by split <;> decide
  md5_length s := by split <;> rfl

def kernelBuild (mtime symbols : Text) (hplain : '_' ∉ mtime) : Machine Text where
  vmlinuxPath := "/vmlinux".toList
  koFiles := some []
  elf path := if path = "/vmlinux".toList then some ⟨mtime, 10, symbols, hplain⟩ else none
  slow _ := false
  objdump _ := none

def printsContent (_ : TableTool) (content : Text) : Int × Text := (0, content)

def rebuilt : List (Machine Text × Bool) :=
  [(kernelBuild "1.0".toList "0 t f\n".toList (by decide), false),
    (kernelBuild "2.0".toList "0 t g\n".toList (by decide), false)]

/-- The two builds in the tests of `Identified`. -/
theorem of_mem_rebuilt {M : Machine Text} (hM : M ∈ rebuilt.map Prod.fst) {path : Text}
    {e : Elf Text} (helf : M.elf path = some e) : path = "/vmlinux".toList ∧
      (e = ⟨"1.0".toList, 10, "0 t f\n".toList, by decide⟩ ∨
        e = ⟨"2.0".toList, 10, "0 t g\n".toList, by decide⟩) := by
  have hpath {mtime symbols : Text} {hplain : '_' ∉ mtime}
      (h : (kernelBuild mtime symbols hplain).elf path = some e) :
      path = "/vmlinux".toList ∧ e = ⟨mtime, 10, symbols, hplain⟩ := by
    dsimp only [kernelBuild] at h
    split at h
    next hpath => exact ⟨hpath, (Option.some.inj h).symm⟩
    next => cases h
  rcases List.mem_cons.mp hM with rfl | hM
  · exact ⟨(hpath helf).1, .inl (hpath helf).2⟩
  · obtain rfl := List.mem_singleton.mp hM
    exact ⟨(hpath helf).1, .inr (hpath helf).2⟩

theorem identified_rebuilt : Identified exampleRoot (rebuilt.map Prod.fst) where
  stat M hM M' hM' path e e' helf helf' hmtime _ := by
    obtain ⟨_, rfl | rfl⟩ := of_mem_rebuilt hM helf <;>
      obtain ⟨_, rfl | rfl⟩ := of_mem_rebuilt hM' helf' <;>
      first | rfl | exact absurd hmtime (by decide)
  digest M hM M' hM' path path' e e' helf helf' hhash := by
    obtain ⟨rfl, rfl | rfl⟩ := of_mem_rebuilt hM helf <;>
      obtain ⟨rfl, rfl | rfl⟩ := of_mem_rebuilt hM' helf' <;>
      first | rfl | exact absurd hhash (by decide)

theorem cached_tables_current_rebuilt : ∃ caches koFiles,
    rebuilt[1].1.koFiles = some koFiles ∧
      caches = (rebuilt[1].1.host printsContent).caches koFiles := by
  have hloaded : ∃ caches, (mainTables exampleRoot printsContent rebuilt[1].1 false
      (cacheRuns exampleRoot printsContent (fun _ => none) [rebuilt[0]])).1 = .ok (some caches) :=
    ⟨_, rfl⟩
  obtain ⟨caches, hloaded⟩ := hloaded
  exact ⟨caches, cached_tables_current exampleRoot printsContent rebuilt identified_rebuilt
    [rebuilt[0]] rebuilt[1].1 false [] rfl caches hloaded⟩

end IrToAssembly

end LinuxAnalysis
