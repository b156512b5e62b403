import LinuxAnalysis.Lib.Text
import Mathlib.Algebra.BigOperators.Group.List.Basic
import Mathlib.Algebra.GroupWithZero.Nat
import Mathlib.Data.Char
import Mathlib.Data.List.Count
import Mathlib.Data.List.Flatten
import Mathlib.Data.List.Lex
import Mathlib.Data.List.Nodup
import Mathlib.Data.List.Range
import Mathlib.Data.Nat.Pairing
import Mathlib.Logic.Equiv.Nat

/-!
# LLVM modules as the pass reads them

Instructions are named by their position, so that `getParent` and `getFunction` are projections and
the order of a basic block is the order of the last component.  Of an instruction the model keeps
what the pass asks through `dyn_cast`: the operands of the kinds it distinguishes, and the printed
text and debug location used by the report.  The answers of LLVM's own analyses of a value, the
use-lists and `stripPointerCasts`, are data of the module.
-/

open LinuxAnalysis.Lib

namespace LinuxAnalysis

/-- An `Instruction *`: function, basic block and index inside the block. -/
structure InstId where
  func : Nat
  block : Nat
  idx : Nat
  deriving DecidableEq, Repr

/-- An `Argument *`: function and `getArgNo()`. -/
structure ArgId where
  func : Nat
  no : Nat
  deriving DecidableEq, Repr

/-- A `Value *`.  Integer constants are uniqued by type and value, so the pair is their identity. -/
inductive Value where
  | inst (i : InstId)
  | arg (a : ArgId)
  | globalVariable (g : Nat)
  | function (f : Nat)
  | constantInt (type : Nat) (sext : Int)
  | constant (c : Nat)
  deriving DecidableEq, Repr

namespace Value

def isGlobalVariable : Value → Bool
  | globalVariable _ => true
  | _ => false

/-- One assignment of distinct heap addresses. -/
def slot : Value → Nat
  | inst i => 6 * Nat.pair (Nat.pair i.func i.block) i.idx
  | arg a => 6 * Nat.pair a.func a.no + 1
  | globalVariable g => 6 * g + 2
  | function f => 6 * f + 3
  | constantInt type c => 6 * Nat.pair type (Equiv.intEquivNat c) + 4
  | constant c => 6 * c + 5

theorem slot_injective : Function.Injective slot := by
  intro v w h
  cases v with
  | inst i =>
    cases w <;> simp only [slot] at h <;> try omega
    rename_i j
    have hp := Nat.pair_eq_pair.mp (Nat.eq_of_mul_eq_mul_left (by decide) h)
    have hq := Nat.pair_eq_pair.mp hp.1
    rw [show i = j from by cases i; cases j; simp_all]
  | arg a =>
    cases w <;> simp only [slot] at h <;> try omega
    rename_i b
    have hp := Nat.pair_eq_pair.mp (show Nat.pair a.func a.no = Nat.pair b.func b.no by omega)
    rw [show a = b from by cases a; cases b; simp_all]
  | globalVariable g =>
    cases w <;> simp only [slot] at h <;> try omega
    exact congrArg globalVariable (by omega)
  | function f =>
    cases w <;> simp only [slot] at h <;> try omega
    exact congrArg function (by omega)
  | constantInt type c =>
    cases w <;> simp only [slot] at h <;> try omega
    rename_i type' d
    have hp := Nat.pair_eq_pair.mp
      (show Nat.pair type (Equiv.intEquivNat c) = Nat.pair type' (Equiv.intEquivNat d) by omega)
    rw [hp.1, Equiv.intEquivNat.injective hp.2]
  | constant c =>
    cases w <;> simp only [slot] at h <;> try omega
    exact congrArg constant (by omega)

end Value

inductive InstKind where
  | call (calledOperand : Value) (sameFunctionType : Bool) (args bundles : List Value)
  | ret (returnValue : Option Value)
  | store (valueOperand pointerOperand : Value)
  | load (pointerOperand : Value)
  | alloca (allocatedTypeIsStruct : Bool) (arraySize : Value)
  | getElementPtr (sourceElementType : Nat) (pointerOperand : Value) (indices : List Value)
  | phi (incoming : List Value)
  | other (opcodeName : Text) (operands : List Value) (successors : List Nat)
  deriving DecidableEq

namespace InstKind

def operands : InstKind → List Value
  | call called _ args bundles => args ++ bundles ++ [called]
  | ret value => value.toList
  | store value ptr => [value, ptr]
  | load ptr => [ptr]
  | alloca _ size => [size]
  | getElementPtr _ ptr indices => ptr :: indices
  | phi incoming => incoming
  | other _ ops _ => ops

def getOpcodeName : InstKind → Text
  | call .. => "call".toList
  | ret _ => "ret".toList
  | store .. => "store".toList
  | load _ => "load".toList
  | alloca .. => "alloca".toList
  | getElementPtr .. => "getelementptr".toList
  | phi _ => "phi".toList
  | other name _ _ => name

/-- Blocks a terminator may continue in. -/
def successors : InstKind → List Nat
  | other _ _ succs => succs
  | _ => []

end InstKind

structure DebugLoc where
  filename : Text
  line : Nat
  column : Nat
  deriving DecidableEq

structure Inst where
  kind : InstKind
  resultIsPointerTy : Bool := false
  text : Text := []
  debugLoc : Option DebugLoc := none
  deriving DecidableEq

instance : Inhabited Inst := ⟨{ kind := .other [] [] [] }⟩

structure Function where
  name : Text
  argIsPointerTy : List Bool
  blocks : List (List Inst)

namespace Function

def isDeclaration (F : Function) : Bool := F.blocks.isEmpty

end Function

/-! ## Positions -/

section Positions

variable (functions : List Function)

def blockAt (f b : Nat) : List Inst :=
  ((functions[f]?.map Function.blocks).getD [])[b]?.getD []

def instAt (i : InstId) : Inst := (blockAt functions i.func i.block)[i.idx]?.getD default

/-- The instructions of a basic block, in order. -/
def blockInstIds (f b : Nat) : List InstId :=
  (List.range (blockAt functions f b).length).map (InstId.mk f b)

/-- The instructions of a function, in block-then-instruction order. -/
def funcInstIds (f : Nat) : List InstId :=
  (List.range ((functions[f]?.map Function.blocks).getD []).length).flatMap
    (blockInstIds functions f)

/-- `for (Function &F : M) for (BasicBlock &BB : F) for (Instruction &I : BB)`. -/
def instIds : List InstId :=
  (List.range functions.length).flatMap (funcInstIds functions)

variable {functions}

theorem mem_blockInstIds {f b : Nat} {i : InstId} :
    i ∈ blockInstIds functions f b ↔
      i.func = f ∧ i.block = b ∧ i.idx < (blockAt functions f b).length := by
  simp only [blockInstIds, List.mem_map, List.mem_range]
  constructor
  · rintro ⟨n, hn, rfl⟩
    exact ⟨rfl, rfl, hn⟩
  · rintro ⟨rfl, rfl, hn⟩
    exact ⟨i.idx, hn, rfl⟩

theorem mem_instIds {i : InstId} :
    i ∈ instIds functions ↔ i.idx < (blockAt functions i.func i.block).length := by
  simp only [instIds, funcInstIds, List.mem_flatMap, List.mem_range, mem_blockInstIds]
  constructor
  · rintro ⟨f, _, b, _, rfl, rfl, hi⟩
    exact hi
  · intro hi
    have hblock : i.block < ((functions[i.func]?.map Function.blocks).getD []).length := by
      by_contra hb
      rw [blockAt, List.getElem?_eq_none (by omega)] at hi
      simp at hi
    have hfunc : i.func < functions.length := by
      by_contra hf
      rw [List.getElem?_eq_none (by omega)] at hblock
      simp at hblock
    exact ⟨i.func, hfunc, i.block, hblock, rfl, rfl, hi⟩

theorem nodup_blockInstIds (f b : Nat) : (blockInstIds functions f b).Nodup :=
  List.nodup_range.map fun _ _ h => (InstId.mk.inj h).2.2

theorem nodup_funcInstIds (f : Nat) : (funcInstIds functions f).Nodup := by
  refine List.nodup_flatMap.mpr ⟨fun b _ => nodup_blockInstIds f b, ?_⟩
  refine List.nodup_range.imp fun {b b'} hne => ?_
  intro i hi hi'
  exact hne ((mem_blockInstIds.mp hi).2.1.symm.trans (mem_blockInstIds.mp hi').2.1)

theorem nodup_instIds : (instIds functions).Nodup := by
  refine List.nodup_flatMap.mpr ⟨fun f _ => nodup_funcInstIds f, ?_⟩
  refine List.nodup_range.imp fun {f f'} hne => ?_
  intro i hi hi'
  simp only [funcInstIds, List.mem_flatMap, mem_blockInstIds] at hi hi'
  obtain ⟨_, _, hf, _⟩ := hi
  obtain ⟨_, _, hf', _⟩ := hi'
  exact hne (hf.symm.trans hf')

end Positions

/-- A module.  `users` are the use-lists, one entry for each operand slot, in whatever order LLVM
keeps them; `count_users` says that they are the uses of the instructions of the module. -/
structure Module where
  functions : List Function
  stripPointerCasts : Value → Value
  users : Value → List InstId
  count_users : ∀ v i, (users v).count i =
    if i ∈ instIds functions then (instAt functions i).kind.operands.count v else 0

namespace Module

variable (M : Module)

def insts : List InstId := instIds M.functions

def funcInsts (f : Nat) : List InstId := funcInstIds M.functions f

/-- The instructions of `I->getParent()`. -/
def parentInsts (i : InstId) : List InstId := blockInstIds M.functions i.func i.block

def inst (i : InstId) : Inst := instAt M.functions i

def kind (i : InstId) : InstKind := (M.inst i).kind

def operands (i : InstId) : List Value := (M.kind i).operands

def functionName (f : Nat) : Text := (M.functions[f]?.map Function.name).getD []

def isDeclaration (f : Nat) : Bool := (M.functions[f]?.map Function.isDeclaration).getD true

/-- `F->arg_size()`. -/
def argSize (f : Nat) : Nat := (M.functions[f]?.map (·.argIsPointerTy.length)).getD 0

def argIsPointerTy (a : ArgId) : Bool :=
  ((M.functions[a.func]?.map Function.argIsPointerTy).getD [])[a.no]?.getD false

/-- `V->getType()->isPointerTy()` of an instruction or an argument. -/
def isPointerTy : Value → Bool
  | .arg a => M.argIsPointerTy a
  | .inst i =>
    match M.kind i with
    | .alloca .. => true
    | _ => (M.inst i).resultIsPointerTy
  | _ => false

/-- `Call->getCalledFunction()`: the called operand, when it is a function of the call's type. -/
def calledFunction (i : InstId) : Option Nat :=
  match M.kind i with
  | .call (.function f) true _ _ => some f
  | _ => none

def isAlloca : Value → Bool
  | .inst i =>
    match M.kind i with
    | .alloca .. => true
    | _ => false
  | _ => false

/-- The cast-stripped pointer operand of a store. -/
def storePointer (i : InstId) : Option Value :=
  match M.kind i with
  | .store _ ptr => some (M.stripPointerCasts ptr)
  | _ => none

variable {M}

theorem mem_insts {i : InstId} :
    i ∈ M.insts ↔ i.idx < (blockAt M.functions i.func i.block).length :=
  mem_instIds

theorem mem_parentInsts {i j : InstId} :
    j ∈ M.parentInsts i ↔ j.func = i.func ∧ j.block = i.block ∧ j ∈ M.insts := by
  rw [parentInsts, mem_blockInstIds, mem_insts]
  constructor
  · rintro ⟨hf, hb, hi⟩
    exact ⟨hf, hb, by rw [hf, hb]; exact hi⟩
  · rintro ⟨hf, hb, hi⟩
    exact ⟨hf, hb, by rwa [hf, hb] at hi⟩

theorem mem_users {v : Value} {i : InstId} :
    i ∈ M.users v ↔ i ∈ M.insts ∧ v ∈ M.operands i := by
  rw [← List.count_pos_iff, M.count_users]
  split
  next h => rw [List.count_pos_iff]; exact ⟨fun hv => ⟨h, hv⟩, And.right⟩
  next h => exact ⟨fun h0 => absurd h0 (lt_irrefl 0), fun hi => absurd hi.1 h⟩

end Module

/-! ## Use-lists in program order -/

def useLists (functions : List Function) (v : Value) : List InstId :=
  (instIds functions).flatMap fun i =>
    List.replicate ((instAt functions i).kind.operands.count v) i

theorem count_useLists (functions : List Function) (v : Value) (i : InstId) :
    (useLists functions v).count i =
      if i ∈ instIds functions then (instAt functions i).kind.operands.count v else 0 := by
  have aux (xs : List InstId) (hxs : xs.Nodup) (n : InstId → Nat) :
      (xs.flatMap fun j => List.replicate (n j) j).count i = if i ∈ xs then n i else 0 := by
    induction xs with
    | nil => rfl
    | cons x xs ih =>
      obtain ⟨hx, hxs⟩ := List.nodup_cons.mp hxs
      rw [List.flatMap_cons, List.count_append, ih hxs, List.count_replicate]
      by_cases hix : x = i
      · subst hix
        simp [hx]
      · simp [hix, Ne.symm hix]
  exact aux _ nodup_instIds _

/-- The module with the given functions and casts, its use-lists being in program order. -/
def Module.ofFunctions (functions : List Function) (stripPointerCasts : Value → Value) : Module where
  functions := functions
  stripPointerCasts := stripPointerCasts
  users := useLists functions
  count_users := count_useLists functions

end LinuxAnalysis
