import LinuxAnalysis.IR.Module
import LinuxAnalysis.Lib.Dense

/-!
# Where a pointer comes from

The recursive helpers of the pass that follow a pointer back to a parameter or collect the struct
fields on its way.  Both carry the set of values already visited.  A chain of nested calls visits
distinct values, each an operand of the module or a cast-stripped operand, apart from the first: the
fuel of the top-level calls is above the length of every such chain.
-/

open LinuxAnalysis.Lib

namespace LinuxAnalysis.Module

variable (M : Module)

def originFuel : Nat := 2 * (M.insts.map fun i => (M.operands i).length).sum + 2

/-- `getPointerParameterOrigin(V, Visited)`: the parameter found and the visited set. -/
def getPointerParameterOriginAux : Nat → Value → DenseSet Value → Option ArgId × DenseSet Value
  | 0, _, visited => (none, visited)
  | n + 1, v, visited =>
    if v ∈ visited then (none, visited) else
    let visited := visited.insert v
    match M.stripPointerCasts v with
    | .arg a => (if M.argIsPointerTy a then some a else none, visited)
    | .inst i =>
      match M.kind i with
      | .phi incoming =>
        -- every incoming value is visited; the first parameter found is returned
        incoming.foldl (fun (acc : Option ArgId × DenseSet Value) inc =>
          let r := getPointerParameterOriginAux n inc acc.2
          (acc.1.or r.1, r.2)) (none, visited)
      | .getElementPtr _ ptr _ => getPointerParameterOriginAux n ptr visited
      -- through a local slot every store to it is tried, until one leads to a parameter
      | .load ptr =>
        let loadPtr := M.stripPointerCasts ptr
        if M.isAlloca loadPtr then
          (M.users loadPtr).foldl (fun (acc : Option ArgId × DenseSet Value) u =>
            match acc.1, M.kind u with
            | none, .store value _ =>
              match M.stripPointerCasts value with
              | .arg a =>
                if M.argIsPointerTy a then (some a, acc.2)
                else getPointerParameterOriginAux n (.arg a) acc.2
              | stored => getPointerParameterOriginAux n stored acc.2
            | _, _ => acc) (none, visited)
        else getPointerParameterOriginAux n loadPtr visited
      | _ => (none, visited)
    | _ => (none, visited)

def getPointerParameterOrigin (v : Value) : Option ArgId :=
  (M.getPointerParameterOriginAux M.originFuel v ∅).1

/-- The last index of a GEP with at least two of them, when it is constant. -/
def structFieldIndex? (indices : List Value) : Option Int :=
  if 2 ≤ indices.length then
    match indices.getLast? with
    | some (.constantInt _ c) => some c
    | _ => none
  else none

def extractStructFieldIndicesAux : Nat → Value → DenseSet Value → List Int × DenseSet Value
  | 0, _, visited => ([], visited)
  | n + 1, v, visited =>
    if v ∈ visited then ([], visited) else
    let visited := visited.insert v
    match v with
    | .inst i =>
      match M.kind i with
      | .getElementPtr _ ptr indices =>
        let r := extractStructFieldIndicesAux n ptr visited
        (r.1 ++ (structFieldIndex? indices).toList, r.2)
      | .load ptr =>
        if M.isAlloca ptr then
          (M.users ptr).foldl (fun (acc : List Int × DenseSet Value) u =>
            match acc.1, M.kind u with
            | [], .store value _ =>
              extractStructFieldIndicesAux n (M.stripPointerCasts value) acc.2
            | _, _ => acc) ([], visited)
        else extractStructFieldIndicesAux n ptr visited
      | _ => ([], visited)
    | _ => ([], visited)

def extractStructFieldIndices (v : Value) : List Int :=
  (M.extractStructFieldIndicesAux M.originFuel v ∅).1

/-- Two GEP indices may be equal: both constant with one value, or both unknown. -/
def indexMayMatch : Value → Value → Bool
  | .constantInt _ c, .constantInt _ d => c == d
  | .constantInt .., _ => false
  | _, .constantInt .. => false
  | _, _ => true

def sameGEPPattern (gep₁ gep₂ : InstId) : Bool :=
  match M.kind gep₁, M.kind gep₂ with
  | .getElementPtr type₁ _ idx₁, .getElementPtr type₂ _ idx₂ =>
    idx₁.length == idx₂.length && type₁ == type₂ && (idx₁.zip idx₂).all fun p =>
      indexMayMatch p.1 p.2
  | _, _ => false

end LinuxAnalysis.Module
