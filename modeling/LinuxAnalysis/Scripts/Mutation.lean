import LinuxAnalysis.Lib.Script
import LinuxAnalysis.Scripts.ExtractOpcode
import LinuxAnalysis.Scripts.ParseDiff
import LinuxAnalysis.Scripts.SeedPipeline
import LinuxAnalysis.Scripts.WorkerPool

/-!
# locate-const-in-ir.py: mutate, build, compare

`process_mutation` builds a source file, changes a definition with `sed`, builds again and writes one
input file for each changed instruction.  The tools it runs are parameters; the files it reads and
writes are those of a store, so that what is left behind after an error can be said as well.
-/

open LinuxAnalysis.Lib

namespace LinuxAnalysis

namespace LocateConst

/-! ## 1. The script -/

inductive Error where
  /-- `subprocess.run` with `check=True`. -/
  | commandFailed (cmd : List Text) (returncode : Int)
  | fileNotFound (path : Path)
  | valueError (message : Text)
  | sedMatchedNothing (definitionSourceFile sedPattern : Text)
  | diffFailed (stderr : Text)
  | noHunks (sourceFile : Text)

abbrev FileScript (α : Type) := Script Error Path Text α

/-- What the script starts: commands in a directory, and `diff`, once on its standard input and once on
two texts, with the return code and what it writes to standard error and output. -/
structure Tools where
  run : List Text → Option Path → FileScript Unit
  diffStdin : Text → Nat × Text
  diff : Text → Text → Nat × Text × Text

structure Mutation where
  sourceFile : Text
  definitionSourceFile : Text
  sedPattern : Text

def withSuffix (p : Path) (suffix : Text) : Except Error Path :=
  (p.withSuffix suffix).mapError .valueError

section Script

variable [Unicode] (tools : Tools) (kdir tunableDir : Path)

def buildObjToLL (sourceFile : Text) : FileScript Path := do
  let src := Path.parse sourceFile
  let obj ← Script.ofExcept (withSuffix src ".o".toList)
  let bc ← Script.ofExcept (withSuffix src ".bc".toList)
  let ll ← Script.ofExcept (withSuffix src ".ll".toList)
  Script.unlink (kdir.join obj)
  tools.run ["make".toList, "CC=wllvm".toList, "AR=llvm-ar".toList, "HOSTCC=clang".toList, obj.str]
    (some kdir)
  tools.run ["extract-bc".toList, obj.str, "-o".toList, bc.str] (some kdir)
  tools.run ["llvm-dis".toList, bc.str, "-o".toList, ll.str] (some kdir)
  return kdir.join ll

/-- `re.match(r"^![0-9]", s.lstrip())` -/
def isMetadataNode (line : Text) : Bool :=
  match line.dropWhile Str.isSpace with
  | '!' :: c :: _ => c.isDigit
  | _ => false

def isNoise (line : Text) : Bool := isMetadataNode line || Str.contains "#dbg_value".toList line

/-- `"".join(filtered(path))`: an empty line behind every line. -/
def filtered (text : Text) : Text :=
  ((Str.fileLines text).filter fun line => !isNoise line).flatMap fun line => line ++ ['\n', '\n']

def diffLL (origin mutated : Path) : FileScript Text := do
  let a ← Script.read .fileNotFound origin
  let b ← Script.read .fileNotFound mutated
  -- a first call has the text on standard input; only its return code is looked at
  if (tools.diffStdin (filtered a)).1 > 1 then
    Script.raise (.diffFailed (tools.diffStdin (filtered a)).2)
  else if (tools.diff (filtered a) (filtered b)).1 > 1 then
    Script.raise (.diffFailed (tools.diff (filtered a) (filtered b)).2.1)
  else return (tools.diff (filtered a) (filtered b)).2.2

/-- `x or "UNKNOWN"` -/
def orUnknown : Option Text → Text
  | some (c :: cs) => c :: cs
  | _ => "UNKNOWN".toList

/-- `tunable_dir / f"{idx}.input.txt"` -/
def inputPath (idx : Nat) : Path := tunableDir.join (.parse (Str.str idx ++ ".input.txt".toList))

/-- The text of the input file for an instruction of the origin. -/
def inputText (sourceFile origin instruction oldVal : Text) : Text :=
  let r := locate (Str.fileLines origin) instruction
  AnalysisParallel.writeInput sourceFile (orUnknown r.1) (orUnknown (extractOpcode instruction)) oldVal
    r.2

def emitInput (sourceFile : Text) (llOrigin : Path) (idx : Nat) (e : Text × Text × Text) :
    FileScript Nat := do
  let origin ← Script.read .fileNotFound llOrigin
  Script.write (inputPath tunableDir idx) (inputText sourceFile origin e.1 e.2.1)
  return idx + 1

/-- `diff -q`: 0 when both files are there and agree. -/
def sameFile (p q : Path) : FileScript Bool := fun files =>
  (.ok ((files p).isSome && files p == files q), files)

/-- Steps 2 and 3: the disassembly of the build with the changed definition. -/
def buildMutated (m : Mutation) (defnPath backup : Path) : FileScript Path := do
  Script.copy .fileNotFound defnPath backup
  Script.tryFinally (do
    tools.run ["sed".toList, "-i".toList, m.sedPattern, defnPath.str] none
    let same ← sameFile backup defnPath
    if same then Script.raise (.sedMatchedNothing m.definitionSourceFile m.sedPattern)
    else
      let ll ← buildObjToLL tools kdir m.sourceFile
      let llMutated ← Script.ofExcept (withSuffix ll ".ll.mutated".toList)
      Script.move .fileNotFound ll llMutated
      return llMutated)
    (Script.move .fileNotFound backup defnPath)

def Mutation.defnPath (m : Mutation) : Path := kdir.join (.parse m.definitionSourceFile)

def Mutation.backup (m : Mutation) : Except Error Path :=
  withSuffix (m.defnPath kdir) ((m.defnPath kdir).suffix ++ ".bak".toList)

/-- Steps 1 to 3 of `process_mutation`: `ll_origin` and `ll_mutated`. -/
def buildBoth (m : Mutation) : FileScript (Path × Path) := do
  let ll ← buildObjToLL tools kdir m.sourceFile
  let llOrigin ← Script.ofExcept (withSuffix ll ".ll.origin".toList)
  Script.move .fileNotFound ll llOrigin
  let backup ← Script.ofExcept (m.backup kdir)
  let llMutated ← buildMutated tools kdir m (m.defnPath kdir) backup
  return (llOrigin, llMutated)

/-- Steps 1 to 4: the origin and its changed instructions. -/
def changedInstructions (m : Mutation) : FileScript (Path × List (Text × Text × Text)) := do
  let built ← buildBoth tools kdir m
  let diffText ← diffLL tools built.1 built.2
  if (parseDiff diffText).isEmpty then Script.raise (.noHunks m.sourceFile)
  else return (built.1, parseDiff diffText)

/-- `process_mutation`; step 5 writes the input files. -/
def processMutation (startIdx : Nat) (m : Mutation) : FileScript Nat := do
  let r ← changedInstructions tools kdir m
  r.2.foldlM (emitInput tunableDir m.sourceFile r.1) startIdx

/-- `tunable_dir.glob("*.input.txt")` lists the file. -/
def isInputFile (p : Path) : Bool :=
  p.parent == tunableDir && Str.endswith p.name ".input.txt".toList && !p.parts.isEmpty

/-- The loop that unlinks them. -/
def clearInputs : FileScript Unit := fun files =>
  (.ok (), fun p => if isInputFile tunableDir p then none else files p)

/-- `main`, behind the options and `mutation.toml`. -/
def main (mutations : List Mutation) : FileScript Nat := do
  -- stale files would mix with the new numbers
  clearInputs tunableDir
  mutations.foldlM (processMutation tools kdir tunableDir) 1

end Script

/-! ## 2. What a mutation touches -/

/-- The files of a build that the script removes or renames itself. -/
inductive IsProduct (kdir : Path) (sourceFile : Text) : Path → Prop where
  | obj {obj} : withSuffix (.parse sourceFile) ".o".toList = .ok obj →
      IsProduct kdir sourceFile (kdir.join obj)
  | ll {ll} : withSuffix (.parse sourceFile) ".ll".toList = .ok ll →
      IsProduct kdir sourceFile (kdir.join ll)
  | origin {ll p} : withSuffix (.parse sourceFile) ".ll".toList = .ok ll →
      withSuffix (kdir.join ll) ".ll.origin".toList = .ok p → IsProduct kdir sourceFile p
  | mutated {ll p} : withSuffix (.parse sourceFile) ".ll".toList = .ok ll →
      withSuffix (kdir.join ll) ".ll.mutated".toList = .ok p → IsProduct kdir sourceFile p

/-- The commands leave a file alone; `sed -i` may change its own argument. -/
structure Tools.Leaves (tools : Tools) (p : Path) : Prop where
  commands : ∀ cmd cwd, cmd.head? ≠ some "sed".toList → Script.Keeps p (tools.run cmd cwd)
  sed : ∀ (pattern : Text) (target : Path), target.str ≠ p.str →
    Script.Keeps p (tools.run ["sed".toList, "-i".toList, pattern, target.str] none)

/-- A file that neither the tools nor the script itself mean to change, the definition file included:
then its backup is not meant to change either. -/
structure Apart (tools : Tools) (kdir : Path) (m : Mutation) (p : Path) : Prop where
  leaves : tools.Leaves p
  product : ¬ IsProduct kdir m.sourceFile p
  backup : m.backup kdir ≠ .ok p
  other : m.defnPath kdir ≠ p → (m.defnPath kdir).str ≠ p.str
  copy : m.defnPath kdir = p → ∀ q, m.backup kdir = .ok q →
    tools.Leaves q ∧ ¬ IsProduct kdir m.sourceFile q

section Frames

open Script (Keeps Returns)

variable {tools : Tools} {kdir tunableDir p : Path} {m : Mutation}

theorem returns_buildObjToLL (sourceFile : Text) :
    Returns (fun q => ∃ ll, withSuffix (.parse sourceFile) ".ll".toList = .ok ll ∧ q = kdir.join ll)
      (buildObjToLL tools kdir sourceFile) := by
  unfold buildObjToLL
  refine .bind (.any _) fun obj _ => .bind (.any _) fun bc _ => .bind (.ofExcept _) fun ll hll => ?_
  refine .bind (.any _) fun _ _ => .bind (.any _) fun _ _ => .bind (.any _) fun _ _ =>
    .bind (.any _) fun _ _ => .pure ⟨ll, hll, rfl⟩

theorem keeps_buildObjToLL {sourceFile : Text} (hleaves : tools.Leaves p)
    (hproduct : ¬ IsProduct kdir sourceFile p) : Keeps p (buildObjToLL tools kdir sourceFile) := by
  unfold buildObjToLL
  refine (Keeps.ofExcept _).bind_returns (.ofExcept _) fun obj hobj => ?_
  refine .bind (.ofExcept _) fun bc => .bind (.ofExcept _) fun ll => .bind (.unlink ?_) fun _ => ?_
  · rintro rfl
    exact hproduct (.obj hobj)
  · have hcommand {name : Text} {args : List Text} (h : name ≠ "sed".toList) :
        Keeps p (tools.run (name :: args) (some kdir)) :=
      hleaves.commands _ _ (by simpa using h)
    exact .bind (hcommand (by decide)) fun _ => .bind (hcommand (by decide)) fun _ =>
      .bind (hcommand (by decide)) fun _ => .pure _

/-- A build and the renaming of its result. -/
theorem keeps_built {sourceFile : Text} (hleaves : tools.Leaves p)
    (hproduct : ¬ IsProduct kdir sourceFile p) {suffix : Text}
    (hsuffix : suffix = ".ll.origin".toList ∨ suffix = ".ll.mutated".toList) {α : Type}
    {rest : Path → FileScript α} (hrest : ∀ q, Keeps p (rest q)) :
    Keeps p (do
      let ll ← buildObjToLL tools kdir sourceFile
      let renamed ← Script.ofExcept (withSuffix ll suffix)
      Script.move .fileNotFound ll renamed
      rest renamed) := by
  refine (keeps_buildObjToLL hleaves hproduct).bind_returns (returns_buildObjToLL sourceFile)
    fun q hq => ?_
  obtain ⟨ll, hll, rfl⟩ := hq
  refine (Keeps.ofExcept _).bind_returns (.ofExcept _) fun renamed hrenamed => ?_
  refine .bind (.move ?_ ?_) fun _ => hrest renamed
  · rintro rfl
    exact hproduct (.ll hll)
  · rintro rfl
    rcases hsuffix with rfl | rfl
    · exact hproduct (.origin hll hrenamed)
    · exact hproduct (.mutated hll hrenamed)

theorem of_withSuffix {p q : Path} {suffix : Text} (h : withSuffix p suffix = .ok q) :
    p.withSuffix suffix = .ok q := by
  unfold withSuffix at h
  cases hp : p.withSuffix suffix with
  | error message =>
    rw [hp] at h
    cases h
  | ok r =>
    rw [hp] at h
    cases h
    rfl

theorem name_of_withSuffix {p q : Path} {suffix : Text} (h : withSuffix p suffix = .ok q)
    (hsuffix : suffix ≠ []) : q.parts ≠ [] ∧ q.name.getLast? = suffix.getLast? := by
  obtain ⟨_, rfl⟩ := Path.of_withSuffix (of_withSuffix h)
  refine ⟨by simp, ?_⟩
  rw [Path.name_concat, List.getLast?_append_of_ne_nil _ hsuffix]

/-- The letters that `.o`, `.ll`, `.origin` and `.mutated` end in. -/
theorem getLast?_of_isProduct {sourceFile : Text} {q : Path} (h : IsProduct kdir sourceFile q) :
    q.name.getLast? ∈ [some 'o', some 'l', some 'n', some 'd'] := by
  cases h with
  | obj h =>
    obtain ⟨hparts, hlast⟩ := name_of_withSuffix h (by decide)
    rw [Path.name_join _ hparts, hlast]
    decide
  | ll h =>
    obtain ⟨hparts, hlast⟩ := name_of_withSuffix h (by decide)
    rw [Path.name_join _ hparts, hlast]
    decide
  | origin _ h =>
    rw [(name_of_withSuffix h (by decide)).2]
    decide
  | mutated _ h =>
    rw [(name_of_withSuffix h (by decide)).2]
    decide

/-- A backup has the longer name. -/
theorem str_backup {q : Path} (h : m.backup kdir = .ok q) :
    q.str = (m.defnPath kdir).str ++ ".bak".toList := by
  obtain ⟨hparts, rfl⟩ := Path.of_withSuffix (of_withSuffix h)
  rw [← List.append_assoc, Path.stem_append_suffix, Path.str_concat_append, hparts]

theorem str_ne_backup {q : Path} (h : m.backup kdir = .ok q) : (m.defnPath kdir).str ≠ q.str := by
  intro heq
  have hlength := congrArg List.length (heq.trans (str_backup h))
  rw [List.length_append] at hlength
  exact absurd hlength (by simp)

/-- The part between the copy and the move back. -/
theorem keeps_buildMutated {q : Path} (hq : m.backup kdir = .ok q) (hm : Apart tools kdir m p) :
    Keeps p (buildMutated tools kdir m (m.defnPath kdir) q) := by
  have hbody {r : Path} (hleaves : tools.Leaves r) (hproduct : ¬ IsProduct kdir m.sourceFile r)
      (hne : (m.defnPath kdir).str ≠ r.str) : Keeps r (do
        tools.run ["sed".toList, "-i".toList, m.sedPattern, (m.defnPath kdir).str] none
        let same ← sameFile q (m.defnPath kdir)
        if same then Script.raise (.sedMatchedNothing m.definitionSourceFile m.sedPattern)
        else
          let ll ← buildObjToLL tools kdir m.sourceFile
          let llMutated ← Script.ofExcept (withSuffix ll ".ll.mutated".toList)
          Script.move .fileNotFound ll llMutated
          return llMutated) := by
    refine .bind (hleaves.sed _ _ hne) fun _ => .bind (fun _ => rfl) fun same => ?_
    split
    · exact .raise _
    · exact keeps_built hleaves hproduct (.inr rfl) fun llMutated => .pure llMutated
  unfold buildMutated
  by_cases hp : m.defnPath kdir = p
  · -- the definition itself is changed, and its copy comes back
    obtain ⟨hleaves, hproduct⟩ := hm.copy hp q hq
    subst hp
    exact .backup (hbody hleaves hproduct (str_ne_backup hq))
  · have hpq : p ≠ q := by
      rintro rfl
      exact hm.backup hq
    exact .bind (.copy hpq) fun _ =>
      .tryFinally (hbody hm.leaves hm.product (hm.other hp)) (.move hpq (Ne.symm hp))

theorem keeps_diffLL (origin mutated : Path) : Keeps p (diffLL tools origin mutated) := by
  unfold diffLL
  refine .bind (.read _) fun a => .bind (.read _) fun b => ?_
  split
  · exact .raise _
  · split
    · exact .raise _
    · exact .pure _

theorem keeps_buildBoth (hm : Apart tools kdir m p) : Keeps p (buildBoth tools kdir m) := by
  unfold buildBoth
  refine keeps_built hm.leaves hm.product (.inl rfl) fun llOrigin => ?_
  refine (Keeps.ofExcept _).bind_returns (.ofExcept _) fun q hq => ?_
  exact .bind (keeps_buildMutated hq hm) fun llMutated => .pure _

theorem keeps_changedInstructions [Unicode] (hm : Apart tools kdir m p) :
    Keeps p (changedInstructions tools kdir m) := by
  unfold changedInstructions
  refine .bind (keeps_buildBoth hm) fun built => .bind (keeps_diffLL _ _) fun diffText => ?_
  split
  · exact .raise _
  · exact .pure _

theorem keeps_emitInput [Unicode] {sourceFile : Text} {llOrigin : Path}
    (hp : ∀ idx, p ≠ inputPath tunableDir idx) (idx : Nat) (e : Text × Text × Text) :
    Keeps p (emitInput tunableDir sourceFile llOrigin idx e) :=
  .bind (.read _) fun _ => .bind (.write (hp idx) _) fun _ => .pure _

theorem inputPath_eq (tunableDir : Path) (idx : Nat) :
    inputPath tunableDir idx = AnalysisParallel.numberedInput tunableDir (Str.str idx) := by
  have hslash : '/' ∉ Str.str idx ++ ".input.txt".toList := by
    rw [List.mem_append, not_or]
    exact ⟨fun h => absurd (Str.isHexDigit_toDigits (by omega) (by omega) h) (by decide), by decide⟩
  have hdot : Str.str idx ++ ".input.txt".toList ≠ ['.'] := fun h => by
    have hlength := congrArg List.length h
    simp at hlength
  rw [inputPath, Path.parse_of_not_mem hslash (by simp) hdot]
  rfl

theorem isInputFile_inputPath (tunableDir : Path) (idx : Nat) :
    isInputFile tunableDir (inputPath tunableDir idx) = true := by
  have hsuffix : Str.endswith (Str.str idx ++ ".input.txt".toList) ".input.txt".toList = true :=
    List.isSuffixOf_iff_suffix.mpr (List.suffix_append _ _)
  rw [inputPath_eq]
  simpa [isInputFile, AnalysisParallel.numberedInput, Path.parent, Path.name,
    List.getLastD_eq_getLast?] using hsuffix

theorem inputPath_injective (tunableDir : Path) : Function.Injective (inputPath tunableDir) := by
  intro i k h
  rw [inputPath_eq, inputPath_eq, AnalysisParallel.numberedInput, AnalysisParallel.numberedInput,
    Lib.Path.mk.injEq] at h
  have hname := List.head_eq_of_cons_eq (List.append_cancel_left h.2)
  exact Str.str_injective (List.append_cancel_right hname)

theorem keeps_clearInputs (hp : isInputFile tunableDir p = false) :
    Keeps p (clearInputs tunableDir) := by
  intro files
  exact if_neg (by simp [hp])

theorem keeps_processMutation [Unicode] (hp : isInputFile tunableDir p = false)
    (hm : Apart tools kdir m p) (startIdx : Nat) :
    Keeps p (processMutation tools kdir tunableDir startIdx m) := by
  refine .bind (keeps_changedInstructions hm) fun r => .foldlM _ (fun idx e _ => ?_) _
  refine keeps_emitInput (fun idx => ?_) idx e
  rintro rfl
  rw [isInputFile_inputPath] at hp
  cases hp

/-- **Nothing is left changed.**  However `main` ends, in the middle of a build or of the changed
definition too, a file that is no input file, no `.bak` copy and none that the tools are run to make is
as it was before; the definition files are such files, since their copies are moved back. -/
theorem main_keeps [Unicode] (tools : Tools) (kdir tunableDir : Path) (mutations : List Mutation)
    (p : Path) (hp : isInputFile tunableDir p = false)
    (hapart : ∀ m ∈ mutations, Apart tools kdir m p) (files : Path → Option Text) :
    (main tools kdir tunableDir mutations files).2 p = files p := by
  have hkeeps : Keeps p (main tools kdir tunableDir mutations) :=
    .bind (keeps_clearInputs hp) fun _ => .foldlM _ (fun idx m hm =>
      keeps_processMutation hp (hapart m hm) idx) 1
  exact hkeeps files

/-! A header whose constant `sed` changes, and a file that has it in one instruction. -/

def headerText (value : Text) : Text := "#define BATCH ".toList ++ value

def disassembly (header : Option Text) : Text :=
  Str.unlines ["define void @f(ptr %0) \x7b".toList,
    "  store i32 ".toList ++ (if header = some (headerText "32".toList) then "32".toList
      else "64".toList) ++ ", ptr %0".toList,
    ['}']]

def batchMutation : Mutation where
  sourceFile := "a.c".toList
  definitionSourceFile := "a.h".toList
  sedPattern := "s/32/64/".toList

def batchHunk : Hunk where
  oldRange := ⟨3, none⟩
  newRange := ⟨3, none⟩
  olds := ["  store i32 32, ptr %0".toList]
  news := ["  store i32 64, ptr %0".toList]
  oneLine := by decide

def batchTools : Tools where
  run cmd _ files :=
    (.ok (), if cmd.head? = some "sed".toList then fun p =>
        if cmd.getLast? = some p.str then (files p).map fun _ => headerText "64".toList else files p
      else if cmd.head? = some "llvm-dis".toList then
        Function.update files (.parse "/k/a.ll".toList)
          (some (disassembly (files (.parse "/k/a.h".toList))))
      else files)
  diffStdin _ := (1, [])
  diff a b :=
    if a = filtered (disassembly (some (headerText "32".toList))) ∧
        b = filtered (disassembly (some (headerText "64".toList))) then (1, [], diffText [batchHunk])
    else (0, [], [])

def batchFiles (p : Path) : Option Text :=
  if p = .parse "/k/a.h".toList then some (headerText "32".toList)
  else if p = .parse "/d/7.input.txt".toList then some "stale".toList
  else none

theorem leaves_batchTools (hp : p ≠ .parse "/k/a.ll".toList) : batchTools.Leaves p where
  commands cmd cwd hcmd files := by
    simp only [batchTools, if_neg hcmd]
    split
    · exact Function.update_of_ne hp _ _
    · rfl
  sed pattern target htarget files := if_neg fun h => htarget (Option.some.inj h)

theorem main_keeps_header :
    ∃ _ : Unicode, (main batchTools (.parse "/k".toList) (.parse "/d".toList) [batchMutation]
      batchFiles).2 (.parse "/k/a.h".toList) = some (headerText "32".toList) := by
  let _ := Unicode.ascii
  refine ⟨_, (main_keeps batchTools (.parse "/k".toList) (.parse "/d".toList) [batchMutation]
    (.parse "/k/a.h".toList) (by decide) (fun m hm => ?_) batchFiles).trans (by decide)⟩
  obtain rfl := List.mem_singleton.mp hm
  refine ⟨leaves_batchTools (by decide), ?_, fun h => str_ne_backup h rfl, fun h => absurd rfl h,
    fun _ q hq => ?_⟩
  · intro h
    exact absurd (getLast?_of_isProduct h) (by decide)
  · cases hq
    refine ⟨leaves_batchTools (by decide), fun h => ?_⟩
    exact absurd (getLast?_of_isProduct h) (by decide)

end Frames

/-! ## 3. The numbers of the input files -/

/-- The input files of a tunable are some texts, numbered from 1. -/
structure Numbered (tunableDir : Path) (texts : List Text) (files : Path → Option Text) : Prop where
  text : ∀ i, files (inputPath tunableDir (i + 1)) = texts[i]?
  only : ∀ p, isInputFile tunableDir p = true → (∀ i, p ≠ inputPath tunableDir (i + 1)) →
    files p = none

namespace Numbered

variable {tunableDir : Path} {texts : List Text} {files files' : Path → Option Text}

theorem congr (h : Numbered tunableDir texts files)
    (hfiles : ∀ p, isInputFile tunableDir p = true → files' p = files p) :
    Numbered tunableDir texts files' where
  text i := (hfiles _ (isInputFile_inputPath tunableDir _)).trans (h.text i)
  only p hp hne := (hfiles p hp).trans (h.only p hp hne)

/-- The next number is free. -/
theorem write (h : Numbered tunableDir texts files) (t : Text) :
    Numbered tunableDir (texts ++ [t])
      (Function.update files (inputPath tunableDir (texts.length + 1)) (some t)) where
  text i := by
    by_cases hi : i = texts.length
    · subst hi
      rw [Function.update_self, List.getElem?_concat_length]
    · have hne : inputPath tunableDir (i + 1) ≠ inputPath tunableDir (texts.length + 1) := fun heq =>
        hi (Nat.succ.inj (inputPath_injective tunableDir heq))
      rw [Function.update_of_ne hne, h.text, List.getElem?_append]
      split
      · rfl
      · rw [List.getElem?_eq_none (by omega), List.getElem?_eq_none (by simp; omega)]
  only p hp hne := by
    rw [Function.update_of_ne (hne _)]
    exact h.only p hp hne

end Numbered

section Numbers

open Script (Keeps Returns Triple)

variable {tools : Tools} {kdir tunableDir : Path} {m : Mutation}

theorem getLast?_of_isInputFile {p : Path} (hp : isInputFile tunableDir p = true) :
    p.parts ≠ [] ∧ p.name.getLast? = some 't' := by
  simp only [isInputFile, Bool.and_eq_true, Bool.not_eq_true', List.isEmpty_eq_false_iff] at hp
  refine ⟨hp.2, ?_⟩
  obtain ⟨init, hname⟩ := List.isSuffixOf_iff_suffix.mp hp.1.2
  rw [← hname, List.getLast?_append]
  rfl

theorem not_isInputFile_of_isProduct {sourceFile : Text} {q : Path}
    (h : IsProduct kdir sourceFile q) : isInputFile tunableDir q = false := by
  have hlast := getLast?_of_isProduct h
  by_contra hinput
  rw [(getLast?_of_isInputFile (Bool.eq_true_of_not_eq_false hinput)).2] at hlast
  exact absurd hlast (by decide)

theorem not_isInputFile_backup {q : Path} (h : m.backup kdir = .ok q) :
    isInputFile tunableDir q = false := by
  have hlast := (name_of_withSuffix h (by simp)).2
  rw [List.getLast?_append_of_ne_nil _ (by decide)] at hlast
  by_contra hinput
  rw [(getLast?_of_isInputFile (Bool.eq_true_of_not_eq_false hinput)).2] at hlast
  exact absurd hlast (by decide)

theorem apart_of_isInputFile {p : Path} (hp : isInputFile tunableDir p = true)
    (hleaves : tools.Leaves p)
    (hdefn : Str.endswith (m.defnPath kdir).str ".input.txt".toList = false) :
    Apart tools kdir m p := by
  have hstr : (m.defnPath kdir).str ≠ p.str := by
    intro heq
    simp only [isInputFile, Bool.and_eq_true] at hp
    have hsuffix := (List.isSuffixOf_iff_suffix.mp hp.1.2).trans
      (Path.name_suffix_str (List.isEmpty_eq_false_iff.mp (by simpa using hp.2)))
    rw [heq, Str.endswith, List.isSuffixOf_iff_suffix.mpr hsuffix] at hdefn
    cases hdefn
  refine ⟨hleaves, fun h => ?_, fun h => ?_, fun _ => hstr, fun h => absurd (congrArg _ h) hstr⟩
  · rw [not_isInputFile_of_isProduct h] at hp
    cases hp
  · rw [not_isInputFile_backup h] at hp
    cases hp

variable [Unicode]

/-- The texts are those of the changed instructions of a mutation, of which there is at least one; the
origin and the mutated disassembly are what its two builds leave, from the files before it. -/
structure Located (tools : Tools) (kdir : Path) (m : Mutation) (before : Path → Option Text)
    (origin : Text) (texts : List Text) : Prop where
  built : ∃ llOrigin llMutated mutated files,
    buildBoth tools kdir m before = (.ok (llOrigin, llMutated), files) ∧
    files llOrigin = some origin ∧ files llMutated = some mutated ∧
    parseDiff (tools.diff (filtered origin) (filtered mutated)).2.2 ≠ [] ∧
    texts = (parseDiff (tools.diff (filtered origin) (filtered mutated)).2.2).map fun e =>
      inputText m.sourceFile origin e.1 e.2.1

omit [Unicode] in
theorem returns_buildBoth :
    Returns (fun r => isInputFile tunableDir r.1 = false) (buildBoth tools kdir m) := by
  unfold buildBoth
  refine .bind (returns_buildObjToLL _) fun q hq => .bind (.ofExcept _) fun llOrigin horigin => ?_
  obtain ⟨ll, hll, rfl⟩ := hq
  exact .bind (.any _) fun _ _ => .bind (.any _) fun _ _ => .bind (.any _) fun _ _ =>
    .pure (not_isInputFile_of_isProduct (.origin hll horigin))

omit [Unicode] in
/-- The two texts compared are those of the files. -/
theorem diffLL_spec (origin mutated : Path) (built : Path → Option Text) :
    Triple (fun files => files = built) (diffLL tools origin mutated) (fun t files => files = built ∧
      ∃ a b, built origin = some a ∧ built mutated = some b ∧
        t = (tools.diff (filtered a) (filtered b)).2.2) fun _ => True := by
  unfold diffLL
  refine .bind (.read origin fun _ _ _ => trivial) fun a =>
    .bind (.read mutated fun _ _ _ => trivial) fun b => ?_
  split
  · exact .raise fun _ _ => trivial
  · split
    · exact .raise fun _ _ => trivial
    · refine .pure ?_
      rintro _ ⟨hb, ha, rfl⟩
      exact ⟨rfl, a, b, ha, hb, rfl⟩

/-- What the steps before the input files give. -/
theorem changedInstructions_spec (tools : Tools) (kdir tunableDir : Path) (m : Mutation)
    (before : Path → Option Text) :
    Triple (fun files => files = before) (changedInstructions tools kdir m) (fun r files =>
      isInputFile tunableDir r.1 = false ∧ ∃ origin, files r.1 = some origin ∧
        Located tools kdir m before origin (r.2.map fun e => inputText m.sourceFile origin e.1 e.2.1))
      fun _ => True := by
  have hbuilt : Triple (fun files => files = before) (buildBoth tools kdir m)
      (fun r files => isInputFile tunableDir r.1 = false ∧
        buildBoth tools kdir m before = (.ok r, files)) fun _ => True :=
    ((Triple.exact _ before).weaken (fun _ h => h) (fun _ _ h => h) fun _ _ => trivial).returns
      returns_buildBoth
  unfold changedInstructions
  -- the texts compared are in the files that the builds leave
  refine .bind hbuilt fun built => .from_each fun files hfiles =>
    .bind (diffLL_spec built.1 built.2 files) fun diffText => ?_
  obtain ⟨hinput, hrun⟩ := hfiles
  split
  · exact .raise fun _ _ => trivial
  next hne =>
    refine .pure fun files' h => ?_
    obtain ⟨rfl, a, b, ha, hb, rfl⟩ := h
    exact ⟨hinput, a, ha, ⟨_, _, b, _, hrun, ha, hb, fun hnil => hne (List.isEmpty_iff.mpr hnil), rfl⟩⟩

/-- One more input file is written, and the origin is still there. -/
theorem emitInput_spec {sourceFile origin : Text} {llOrigin : Path} {texts : List Text} (idx : Nat)
    (e : Text × Text × Text) (horigin : isInputFile tunableDir llOrigin = false)
    {E : (Path → Option Text) → Prop} :
    Triple (fun files => idx = texts.length + 1 ∧ Numbered tunableDir texts files ∧
        files llOrigin = some origin)
      (emitInput tunableDir sourceFile llOrigin idx e)
      (fun idx files => idx = (texts ++ [inputText sourceFile origin e.1 e.2.1]).length + 1 ∧
        Numbered tunableDir (texts ++ [inputText sourceFile origin e.1 e.2.1]) files ∧
        files llOrigin = some origin) E := by
  refine .bind (.read llOrigin fun files h hnone => ?_) fun text => .bind
    (.write (R := fun files => idx = texts.length + 1 ∧
      Numbered tunableDir (texts ++ [inputText sourceFile origin e.1 e.2.1]) files ∧
      files llOrigin = some origin) fun files h => ?_) fun _ => .pure fun files h => ?_
  · rw [h.2.2] at hnone
    cases hnone
  · obtain ⟨htext, rfl, hnumbered, hfile⟩ := h
    obtain rfl := Option.some.inj (hfile.symm.trans htext)
    refine ⟨rfl, hnumbered.write _, ?_⟩
    rw [Function.update_of_ne]
    · exact hfile
    · rintro rfl
      rw [isInputFile_inputPath] at horigin
      cases horigin
  · rw [List.length_append, h.1]
    exact ⟨rfl, h.2⟩

/-- The loop over the changed instructions. -/
theorem emitInputs_spec (sourceFile : Text) {origin : Text} {llOrigin : Path} (texts : List Text)
    (es : List (Text × Text × Text)) (horigin : isInputFile tunableDir llOrigin = false)
    {E : (Path → Option Text) → Prop} :
    Triple (fun files => Numbered tunableDir texts files ∧ files llOrigin = some origin)
      (es.foldlM (emitInput tunableDir sourceFile llOrigin) (texts.length + 1))
      (fun n files =>
        n = (texts ++ es.map fun e => inputText sourceFile origin e.1 e.2.1).length + 1 ∧
        Numbered tunableDir (texts ++ es.map fun e => inputText sourceFile origin e.1 e.2.1) files)
      E := by
  let written (done : List (Text × Text × Text)) :=
    texts ++ done.map fun e => inputText sourceFile origin e.1 e.2.1
  have hloop := Triple.foldlM (E := E) (f := emitInput tunableDir sourceFile llOrigin)
    (I := fun done idx files => idx = (written done).length + 1 ∧
      Numbered tunableDir (written done) files ∧ files llOrigin = some origin)
    es (texts.length + 1) fun done e rest _ idx => by
      have hwritten : written (done ++ [e]) =
          written done ++ [inputText sourceFile origin e.1 e.2.1] := by
        simp [written]
      rw [hwritten]
      exact emitInput_spec idx e horigin
  refine hloop.weaken (fun files h => ⟨?_, ?_⟩) (fun n files h => ⟨h.1, h.2.1⟩) fun _ h => h
  · simp [written]
  · simpa [written] using h

/-- A mutation that fails leaves the numbers as they were. -/
theorem processMutation_spec (htools : ∀ p, isInputFile tunableDir p = true → tools.Leaves p)
    (hdefn : Str.endswith (m.defnPath kdir).str ".input.txt".toList = false) (texts : List Text)
    {before : Path → Option Text} (hbefore : Numbered tunableDir texts before) :
    Triple (fun files => files = before)
      (processMutation tools kdir tunableDir (texts.length + 1) m)
      (fun n files => ∃ origin more, Located tools kdir m before origin more ∧
        n = (texts ++ more).length + 1 ∧ Numbered tunableDir (texts ++ more) files)
      (Numbered tunableDir texts) := by
  have hsteps := (changedInstructions_spec tools kdir tunableDir m before).frame
    fun files (h : Numbered tunableDir texts files) => h.congr fun p hp =>
      keeps_changedInstructions (apart_of_isInputFile hp (htools p hp) hdefn) files
  refine Triple.bind (hsteps.weaken (fun files h => ⟨h, h ▸ hbefore⟩) (fun _ _ h => h) fun _ h => h)
    fun r files hr => ?_
  obtain ⟨⟨hinput, origin, horigin, hlocated⟩, hnumbered⟩ := hr
  have hloop := emitInputs_spec m.sourceFile (E := Numbered tunableDir texts) texts
    r.2 hinput files ⟨hnumbered, horigin⟩
  refine ⟨fun n hn => ?_, hloop.2⟩
  obtain ⟨hlength, hnumbered⟩ := hloop.1 n hn
  exact ⟨origin, _, hlocated, hlength, hnumbered⟩

omit [Unicode] in
theorem numbered_clearInputs (files : Path → Option Text) :
    Numbered tunableDir [] (clearInputs tunableDir files).2 where
  text _ := if_pos (isInputFile_inputPath tunableDir _)
  only _ hp _ := if_pos hp

/-- Some mutations have been processed, one behind the other, from the files that the clearing leaves:
their texts, the next index and the files. -/
inductive Processed (tools : Tools) (kdir tunableDir : Path) (files : Path → Option Text) :
    List Mutation → List (List Text) → Nat → (Path → Option Text) → Prop where
  | start : Processed tools kdir tunableDir files [] [] 1 (clearInputs tunableDir files).2
  | next {done texts idx before m origin more n after} :
      Processed tools kdir tunableDir files done texts idx before →
      processMutation tools kdir tunableDir idx m before = (.ok n, after) →
      Located tools kdir m before origin more →
      Processed tools kdir tunableDir files (done ++ [m]) (texts ++ [more]) n after

/-- **The input files after a run.**  They are numbered from 1 without a gap, with nothing left of an
earlier run, and are those of the mutations in order: of all of them when `main` returns, and when it
does not, of those before the one whose processing raised the error. -/
theorem main_numbers_inputs (tools : Tools) (kdir tunableDir : Path) (mutations : List Mutation)
    (htools : ∀ p, isInputFile tunableDir p = true → tools.Leaves p)
    (hdefn : ∀ m ∈ mutations, Str.endswith (m.defnPath kdir).str ".input.txt".toList = false)
    (files : Path → Option Text) :
    ∃ texts : List (List Text),
      Numbered tunableDir texts.flatten (main tools kdir tunableDir mutations files).2 ∧
      (∀ n, (main tools kdir tunableDir mutations files).1 = .ok n →
        Processed tools kdir tunableDir files mutations texts n
          (main tools kdir tunableDir mutations files).2 ∧ n = texts.flatten.length + 1) ∧
      ∀ e, (main tools kdir tunableDir mutations files).1 = .error e →
        ∃ done m rest idx before, mutations = done ++ m :: rest ∧
          Processed tools kdir tunableDir files done texts idx before ∧
          processMutation tools kdir tunableDir idx m before =
            (.error e, (main tools kdir tunableDir mutations files).2) := by
  let I (done : List Mutation) (idx : Nat) (after : Path → Option Text) :=
    ∃ texts : List (List Text), Processed tools kdir tunableDir files done texts idx after ∧
      idx = texts.flatten.length + 1 ∧ Numbered tunableDir texts.flatten after
  have hstep (done m rest) (hdone : mutations = done ++ m :: rest) (idx : Nat)
      (before : Path → Option Text) (hI : I done idx before) :
      (∀ n, (processMutation tools kdir tunableDir idx m before).1 = .ok n →
        I (done ++ [m]) n (processMutation tools kdir tunableDir idx m before).2) ∧
      ∀ e, (processMutation tools kdir tunableDir idx m before).1 = .error e →
        ∃ texts, Processed tools kdir tunableDir files done texts idx before ∧
          Numbered tunableDir texts.flatten
            (processMutation tools kdir tunableDir idx m before).2 := by
    obtain ⟨texts, hprocessed, rfl, hnumbered⟩ := hI
    have hm : m ∈ mutations := hdone ▸ List.mem_append_right _ List.mem_cons_self
    obtain ⟨hok, herror⟩ := processMutation_spec htools (hdefn m hm) texts.flatten hnumbered _ rfl
    refine ⟨fun n hn => ?_, fun e he => ⟨texts, hprocessed, herror e he⟩⟩
    obtain ⟨origin, more, hmore, hlength, hnumbered⟩ := hok n hn
    have hflatten : texts.flatten ++ more = (texts ++ [more]).flatten := by simp
    rw [hflatten] at hlength hnumbered
    exact ⟨_, .next hprocessed (Prod.ext hn rfl) hmore, hlength, hnumbered⟩
  have hloop := Script.foldlM_ends (I := I) (f := processMutation tools kdir tunableDir) mutations 1
    (fun done m rest hdone idx before hI => (hstep done m rest hdone idx before hI).1)
    (clearInputs tunableDir files).2 ⟨[], .start, rfl, numbered_clearInputs files⟩
  change (∀ n, (main tools kdir tunableDir mutations files).1 = .ok n → I mutations n _) ∧
    (∀ e, (main tools kdir tunableDir mutations files).1 = .error e → _) at hloop
  cases hout : (main tools kdir tunableDir mutations files).1 with
  | ok n =>
    obtain ⟨texts, hprocessed, hlength, hnumbered⟩ := hloop.1 n hout
    refine ⟨texts, hnumbered, fun n' hn => ?_, fun e he => ?_⟩
    · cases hn
      exact ⟨hprocessed, hlength⟩
    · cases he
  | error e =>
    obtain ⟨done, m, rest, idx, before, hdone, hI, hfailed⟩ := hloop.2 e hout
    change processMutation tools kdir tunableDir idx m before =
      (.error e, (main tools kdir tunableDir mutations files).2) at hfailed
    obtain ⟨texts, hprocessed, hnumbered⟩ :=
      (hstep done m rest hdone idx before hI).2 e (congrArg Prod.fst hfailed)
    rw [hfailed] at hnumbered
    refine ⟨texts, hnumbered, fun n hn => ?_, fun e' he => ?_⟩
    · cases hn
    · cases he
      exact ⟨done, m, rest, idx, before, hdone, hprocessed, hfailed⟩

omit [Unicode] in
theorem main_numbers_inputs_batch :
    ∃ (_ : Unicode) (texts : List (List Text)), Numbered (.parse "/d".toList) texts.flatten
      (main batchTools (.parse "/k".toList) (.parse "/d".toList) [batchMutation] batchFiles).2 := by
  let _ := Unicode.ascii
  have hleaves (p : Path) (hp : isInputFile (.parse "/d".toList) p = true) : batchTools.Leaves p := by
    refine leaves_batchTools ?_
    rintro rfl
    exact absurd hp (by decide)
  have hdefn : ∀ m ∈ [batchMutation],
      Str.endswith (m.defnPath (.parse "/k".toList)).str ".input.txt".toList = false := by
    intro m hm
    obtain rfl := List.mem_singleton.mp hm
    decide
  obtain ⟨texts, hnumbered, _⟩ := main_numbers_inputs batchTools (.parse "/k".toList)
    (.parse "/d".toList) [batchMutation] hleaves hdefn batchFiles
  exact ⟨_, texts, hnumbered⟩

end Numbers

/-! ## 4. What the input files say -/

section Contents

/-- The old sides of the hunks are lines of the first text. -/
def Tools.DiffsLines (tools : Tools) : Prop :=
  ∀ a b, ∃ hunks : List Hunk, (tools.diff a b).2.2 = diffText hunks ∧
    ∀ h ∈ hunks, ∀ line ∈ h.olds, line ∈ Str.fileLines a

/-- A line of the filtered text is empty or a line of the file that is no noise. -/
theorem mem_fileLines_filtered {text line : Text} (h : line ∈ Str.fileLines (filtered text)) :
    line = [] ∨ line ∈ Str.fileLines text ∧ isNoise line = false := by
  let kept := (Str.fileLines text).filter fun line => !isNoise line
  have hfiltered : filtered text = Str.unlines (kept.flatMap fun line => [line, []]) := by
    simp [filtered, Str.unlines, List.flatMap_assoc, kept]
  rw [hfiltered, Str.fileLines_unlines] at h
  · obtain ⟨kept', hkept, hline⟩ := List.mem_flatMap.mp h
    rcases List.mem_cons.mp hline with rfl | hline
    · obtain ⟨hmem, hnoise⟩ := List.mem_filter.mp hkept
      exact .inr ⟨hmem, by simpa using hnoise⟩
    · exact .inl (List.mem_singleton.mp hline)
  · intro line hline
    obtain ⟨kept', hkept, hline⟩ := List.mem_flatMap.mp hline
    rcases List.mem_cons.mp hline with rfl | hline
    · exact Str.of_mem_fileLines (List.mem_filter.mp hkept).1
    · rw [List.mem_singleton.mp hline]
      exact ⟨List.not_mem_nil, List.not_mem_nil⟩

variable [Unicode]

theorem of_mem_hunkYield {old new : Option Text} {e : Text × Text × Text}
    (he : e ∈ hunkYield old new) :
    old = some e.1 ∧ e.1 ≠ [] ∧ ∃ newLine newVal, changedInt e.1 newLine = some (e.2.1, newVal) := by
  unfold hunkYield at he
  split at he
  next old new =>
    split at he
    next hne =>
      split at he
      next ov nv hchanged =>
        rw [List.mem_singleton.mp he]
        exact ⟨rfl, hne.1, new, nv, hchanged⟩
      next => cases he
    next => cases he
  next => cases he

/-- The function and the number in an input file are those of the first line of the origin that has the
text of the instruction inside a function. -/
def Names (lines : List Text) (instruction function : Text) (occurrence : Nat) : Prop :=
  (∃ f, function = orUnknown (some f) ∧ FirstFound instruction lines f occurrence) ∨
    function = "UNKNOWN".toList ∧ NoneFound instruction lines

theorem names_locate (lines : List Text) (instruction : Text) :
    Names lines instruction (orUnknown (locate lines instruction).1)
      (locate lines instruction).2 := by
  cases hfound : (locate lines instruction).1 with
  | some f => exact .inl ⟨f, rfl, locate_eq_some_iff.mp (Prod.ext hfound rfl)⟩
  | none =>
    refine .inr ⟨rfl, ?_⟩
    rcases locateLines_finds instruction lines with ⟨_, hnone⟩ | ⟨f, hf, _⟩
    · exact hnone
    · rw [locate] at hfound
      rw [hf] at hfound
      cases hfound

/-- **No input file is made up.**  With a `diff` whose old lines are lines of its first file, each input
file of a mutation is about a line of the origin that its first build leaves, and no metadata: it has the
opcode of that line, the integer that another line has changed, and the function and the number under
which the line is found. -/
theorem located_inputs_are_lines (tools : Tools) (kdir : Path) (m : Mutation)
    (before : Path → Option Text) (origin : Text) (texts : List Text) (hdiff : tools.DiffsLines)
    (h : Located tools kdir m before origin texts) :
    ∀ text ∈ texts, ∃ line ∈ Str.fileLines origin, isNoise line = false ∧
      ∃ function value occurrence, text = AnalysisParallel.writeInput m.sourceFile function
          (orUnknown (extractOpcode (Str.strip line))) value occurrence ∧
        Names (Str.fileLines origin) (Str.strip line) function occurrence ∧
        ∃ newLine newVal, changedInt (Str.strip line) newLine = some (value, newVal) := by
  obtain ⟨_, _, mutated, _, _, _, _, _, rfl⟩ := h.built
  obtain ⟨hunks, houtput, holds⟩ := hdiff (filtered origin) (filtered mutated)
  intro text htext
  rw [houtput, parseDiff_diffText] at htext
  obtain ⟨e, he, rfl⟩ := List.mem_map.mp htext
  obtain ⟨hunk, hhunk, he⟩ := List.mem_flatMap.mp he
  obtain ⟨hold, hne, hchanged⟩ := of_mem_hunkYield he
  obtain ⟨line, hlast, hline⟩ := Option.map_eq_some_iff.mp hold
  rcases mem_fileLines_filtered (holds hunk hhunk line (List.mem_of_getLast? hlast)) with
    rfl | ⟨hmem, hnoise⟩
  · exact absurd hline.symm hne
  · refine ⟨line, hmem, hnoise, _, e.2.1, _, ?_, names_locate _ _, ?_⟩
    · rw [hline]
      rfl
    · rwa [hline]

end Contents

theorem diffsLines_batchTools : batchTools.DiffsLines := by
  intro a b
  by_cases h : a = filtered (disassembly (some (headerText "32".toList))) ∧
      b = filtered (disassembly (some (headerText "64".toList)))
  · refine ⟨[batchHunk], by simp only [batchTools, if_pos h], ?_⟩
    rw [h.1]
    decide
  · exact ⟨[], by simp only [batchTools, if_neg h]; rfl, by simp⟩

theorem located_inputs_are_lines_batch :
    ∃ (_ : Unicode) (origin : Text) (texts : List Text), texts ≠ [] ∧
      Located batchTools (.parse "/k".toList) batchMutation batchFiles origin texts ∧
      ∀ text ∈ texts, ∃ line ∈ Str.fileLines origin, isNoise line = false ∧
        ∃ function value occurrence,
        text = AnalysisParallel.writeInput "a.c".toList function
          (orUnknown (extractOpcode (Str.strip line))) value occurrence ∧
        Names (Str.fileLines origin) (Str.strip line) function occurrence ∧
        ∃ newLine newVal, changedInt (Str.strip line) newLine = some (value, newVal) := by
  let _ := Unicode.ascii
  have hne : parseDiff (batchTools.diff
      (filtered (disassembly (some (headerText "32".toList))))
      (filtered (disassembly (some (headerText "64".toList))))).2.2 ≠ [] := by decide +kernel
  have hlocated : Located batchTools (.parse "/k".toList) batchMutation batchFiles
      (disassembly (some (headerText "32".toList))) _ :=
    ⟨.parse "/k/a.ll.origin".toList, .parse "/k/a.ll.mutated".toList, _, _, rfl, by decide, by decide,
      hne, rfl⟩
  exact ⟨_, _, _, fun h => hne (List.map_eq_nil_iff.mp h), hlocated,
    located_inputs_are_lines batchTools (.parse "/k".toList) batchMutation batchFiles _ _
      diffsLines_batchTools hlocated⟩

end LocateConst

end LinuxAnalysis
