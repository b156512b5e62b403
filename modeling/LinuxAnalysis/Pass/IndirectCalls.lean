import LinuxAnalysis.Pass.CallClosure
import LinuxAnalysis.Pass.Visit

/-!
# Indirect calls resolved by pattern

A function pointer loaded from a struct field nothing is stored to directly is looked up under the
first GEP of the same pattern.  Many drivers fill the same field of their own struct, each through a
GEP of its own, and the targets of one of them are entered.
-/

open LinuxAnalysis.Lib

namespace LinuxAnalysis

/-- Function `f` is stored somewhere through a GEP of the pattern of `loadGEP`. -/
def StoredByPattern (M : Module) (loadGEP : InstId) (f : Nat) : Prop :=
  ∃ store ∈ M.insts, ∃ ptr storeGEP, M.kind store = .store (.function f) ptr ∧
    (ptr = .inst storeGEP ∨ M.stripPointerCasts ptr = .inst storeGEP) ∧
    M.sameGEPPattern loadGEP storeGEP = true

/-- `call` passes `v` in position `n` to what it loads from a GEP without an entry in the table of
function pointers, and `f` is a defined function with such a parameter, stored by pattern. -/
structure ResolvesByPattern (M : Module) (cfg : Config) (call : InstId) (v : Value) (n f : Nat) :
    Prop where
  mem : call ∈ M.insts
  passes : ∃ load loadGEP, PassesTaintThrough M call v n (.inst load) ∧
    M.kind load = .load (.inst loadGEP) ∧
    (initialPoint M cfg).state.functionPointerTargets.lookup (.inst loadGEP) = none ∧
    (initialPoint M cfg).state.functionPointerTargets.lookup
      (M.stripPointerCasts (.inst loadGEP)) = none ∧ StoredByPattern M loadGEP f
  parameter : HasParameter M f n

namespace PassState

/-- The parameters of all functions stored by pattern are tainted with the argument. -/
def PatternTargetsTainted (M : Module) (cfg : Config) (s : PassState) : Prop :=
  ∀ call v n f, ResolvesByPattern M cfg call v n f → v ∈ s.taintedValues →
    .arg ⟨f, n⟩ ∈ s.taintedValues

end PassState

/-- A forward visit of such a call enters the parameters of all these functions that are untainted. -/
def PatternVisitsEnter (M : Module) (cfg : Config) (addr : Value → Nat) : Prop :=
  ∀ v call rest s, Reachable M cfg addr ⟨.forwardUsers v (call :: rest), s⟩ →
    ∀ n f, ResolvesByPattern M cfg call v n f →
      EntersParameter M cfg addr v call ⟨f, n⟩ ∨ .arg ⟨f, n⟩ ∈ s.taintedValues

/-- The upward phase taints no value passed by such a call to a parameter still untainted. -/
def PatternTaintStays (M : Module) (cfg : Config) (addr : Value → Nat) : Prop :=
  ∀ m m', Reachable M cfg addr m → m.control.upward = true → step M cfg addr m = some m' →
    ∀ v ∈ m'.state.taintedValues, v ∉ m.state.taintedValues →
      ∀ call n f, ResolvesByPattern M cfg call v n f → .arg ⟨f, n⟩ ∈ m.state.taintedValues

variable {M : Module} {cfg : Config} {addr : Value → Nat}

theorem ResolvesByPattern.mem_users {call : InstId} {v : Value} {n f : Nat}
    (h : ResolvesByPattern M cfg call v n f) : call ∈ M.users v := by
  obtain ⟨load, loadGEP, ⟨same, args, bundles, hkind, hactual, _⟩, _⟩ := h.passes
  have hmem : v ∈ args := List.mem_of_getElem? hactual
  apply Module.mem_users.mpr
  refine ⟨h.mem, ?_⟩
  rw [Module.operands, hkind]
  exact List.mem_append_left _ (List.mem_append_left _ hmem)

/-- When the forward loop exits, each such call has been visited from each of its tainted arguments. -/
theorem forwardPhase_patternTargets (hvisits : PatternVisitsEnter M cfg addr) {fuel : Nat}
    {s : PassState} (h : forwardPhase M cfg addr fuel = some s) : s.PatternTargetsTainted M cfg := by
  intro call v n f hcall hv
  apply Point.forwardPhase_done (D := fun v u s => ∀ n f, ResolvesByPattern M cfg u v n f →
    .arg ⟨f, n⟩ ∈ s.taintedValues) _ _ _ h hv hcall.mem_users n f hcall
  · intro v u s t hext hdone n f hcall
    exact hext.taintedValues _ (hdone n f hcall)
  · intro v u s t hst hdone n f hcall
    rw [hst.taintedValues]
    exact hdone n f hcall
  · intro v u rest s hreach n f hcall
    apply (PassState.mem_forwardUser (Point.initialTargets_of_reachable hreach rfl)).mpr
    rcases hvisits v u rest s hreach n f hcall with henters | htainted
    · exact .inr (.inr ⟨⟨f, n⟩, rfl, henters⟩)
    · exact .inl htainted

theorem patternTargets_of_reaches {m m' : Point} (hstays : PatternTaintStays M cfg addr)
    (hm : Reachable M cfg addr m) (hphase : m.control.upward = true)
    (hclosed : m.state.PatternTargetsTainted M cfg) (h : Reaches (step M cfg addr) m m') :
    m'.state.PatternTargetsTainted M cfg := by
  have hend := closed_of_upward
    (R := fun v w => ∃ call n f, ResolvesByPattern M cfg call v n f ∧ w = .arg ⟨f, n⟩)
    (fun p q hp hup hpq v hv hnew w hw => ?_) hm hphase (fun v hv w hw => ?_) h
  · exact fun call v n f hcall hv => hend v hv _ ⟨call, n, f, hcall, rfl⟩
  · obtain ⟨call, n, f, hcall, rfl⟩ := hw
    exact hstays p q hp hup hpq v hv hnew call n f hcall
  · obtain ⟨call, n, f, hcall, rfl⟩ := hw
    exact hclosed call v n f hcall hv

/-- **Indirect calls by pattern.**  When each forward visit of an indirect call resolved by pattern
enters every function stored by that pattern, or finds its parameter tainted, and the upward phase
taints no argument of such a call, the parameters of all these functions are tainted at the end. -/
theorem run_patternTargets (M : Module) (cfg : Config) (addr : Value → Nat) (fuel : Nat)
    (t : PassState) (h : run M cfg addr fuel = some t) (hvisits : PatternVisitsEnter M cfg addr)
    (hstays : PatternTaintStays M cfg addr) : t.PatternTargetsTainted M cfg := by
  obtain ⟨s, hs, _⟩ := Option.bind_eq_some_iff.mp h
  have hentry := forwardPhase_reaches hs
  exact patternTargets_of_reaches hstays hentry rfl (forwardPhase_patternTargets hvisits hs)
    (Point.reaches_finished hentry h)

/-- Driver `d` stores a function of its own to the field. -/
def driverFunctions (d : Nat) : List Function :=
  [{ name := "probe".toList
     argIsPointerTy := [true]
     blocks := [[
      { kind := .getElementPtr 1 (.arg ⟨2 * d + 1, 0⟩) [.constantInt 32 0, .constantInt 32 1]
        resultIsPointerTy := true },
      { kind := .store (.function (2 * d + 2)) (.inst ⟨2 * d + 1, 0, 0⟩) },
      { kind := .ret none }]] },
    { name := "handler".toList
      argIsPointerTy := [false]
      blocks := [[{ kind := .ret none }]] }]

/-- `f` calls through the field of the struct it is passed. -/
def driversModule (drivers : Nat) : Module :=
  .ofFunctions ({
    name := "f".toList
    argIsPointerTy := [true]
    blocks := [[
      { kind := .other "add".toList [.constantInt 32 5, .constant 0] [] },
      { kind := .getElementPtr 1 (.arg ⟨0, 0⟩) [.constantInt 32 0, .constantInt 32 1]
        resultIsPointerTy := true },
      { kind := .load (.inst ⟨0, 0, 1⟩), resultIsPointerTy := true },
      { kind := .call (.inst ⟨0, 0, 2⟩) true [.inst ⟨0, 0, 0⟩] [] },
      { kind := .ret none }]] } :: (List.range drivers).flatMap driverFunctions) id

def indirectConfig : Config :=
  { downwardConfig with indirectCallMode := true, upwardInterprocMode := false }

/-- With one driver there is one such call, one value passed and one function stored. -/
theorem resolvesByPattern_driver {call : InstId} {v : Value} {n f : Nat}
    (h : ResolvesByPattern (driversModule 1) indirectConfig call v n f) :
    call = ⟨0, 0, 3⟩ ∧ v = .inst ⟨0, 0, 0⟩ ∧ n = 0 ∧ f = 2 := by
  have hinsts : (driversModule 1).insts = [⟨0, 0, 0⟩, ⟨0, 0, 1⟩, ⟨0, 0, 2⟩, ⟨0, 0, 3⟩, ⟨0, 0, 4⟩,
      ⟨1, 0, 0⟩, ⟨1, 0, 1⟩, ⟨1, 0, 2⟩, ⟨2, 0, 0⟩] := by decide
  have hcall := h.mem
  obtain ⟨load, loadGEP, ⟨same, args, bundles, hkind, hactual, _⟩, _, _, _, hstored⟩ := h.passes
  obtain ⟨store, hstore, ptr, storeGEP, hskind, _, _⟩ := hstored
  have hf : f = 2 := by
    rw [hinsts] at hstore
    simp only [List.mem_cons, List.not_mem_nil, or_false] at hstore
    rcases hstore with rfl | rfl | rfl | rfl | rfl | rfl | rfl | rfl | rfl <;> cases hskind
    rfl
  rw [hinsts] at hcall
  simp only [List.mem_cons, List.not_mem_nil, or_false] at hcall
  rcases hcall with rfl | rfl | rfl | rfl | rfl | rfl | rfl | rfl | rfl <;> cases hkind
  cases n with
  | zero =>
    cases hactual
    exact ⟨rfl, rfl, rfl, hf⟩
  | succ n => cases hactual

theorem run_patternTargets_driver :
    ∃ t, run (driversModule 1) indirectConfig Value.slot 6 = some t ∧
      t.PatternTargetsTainted (driversModule 1) indirectConfig := by
  obtain ⟨t, ht⟩ := Option.isSome_iff_exists.mp
    (show (run (driversModule 1) indirectConfig Value.slot 6).isSome = true by decide)
  refine ⟨t, ht, run_patternTargets _ _ _ 6 t ht ?_ ?_⟩
  · intro v call rest s _ n f hcall
    obtain ⟨rfl, rfl, rfl, rfl⟩ := resolvesByPattern_driver hcall
    exact .inl ⟨rfl, ⟨by decide, by decide⟩, _, _, _, _, rfl, rfl, .inr ⟨rfl, rfl, by decide⟩⟩
  · -- the upward phase begins with the parameter of the driver tainted
    have hcheck : Reaches.checkAll (step (driversModule 1) indirectConfig Value.slot)
        (fun m => !m.control.upward || decide (.arg ⟨2, 0⟩ ∈ m.state.taintedValues)) 80
        (initialPoint (driversModule 1) indirectConfig) = true := by decide
    intro m m' hm hup _ v _ _ call n f hcall
    obtain ⟨rfl, rfl, rfl, rfl⟩ := resolvesByPattern_driver hcall
    have htainted := Reaches.of_checkAll hcheck hm
    rw [hup] at htainted
    exact of_decide_eq_true htainted

theorem resolvesByPattern_drivers :
    ResolvesByPattern (driversModule 2) indirectConfig ⟨0, 0, 3⟩ (.inst ⟨0, 0, 0⟩) 0 4 where
  mem := by decide
  passes := by
    refine ⟨⟨0, 0, 2⟩, ⟨0, 0, 1⟩, ⟨_, _, _, rfl, rfl, ?_⟩, rfl, by decide, by decide, ?_⟩
    · decide
    · exact ⟨⟨3, 0, 1⟩, by decide, _, ⟨3, 0, 0⟩, rfl, .inl rfl, by decide⟩
  parameter := ⟨by decide, by decide⟩

/-- Of two drivers only one is entered. -/
theorem run_misses_pattern_target : ¬ ∀ (M : Module) (cfg : Config) (addr : Value → Nat)
    (fuel : Nat) (t : PassState), cfg.interprocMode = true → cfg.indirectCallMode = true →
    run M cfg addr fuel = some t → t.PatternTargetsTainted M cfg := by
  intro hall
  have h : (run (driversModule 2) indirectConfig Value.slot 6).map (fun t =>
      (decide (.inst ⟨0, 0, 0⟩ ∈ t.taintedValues), decide (.arg ⟨4, 0⟩ ∈ t.taintedValues))) =
      some (true, false) := by decide
  obtain ⟨t, ht, hval⟩ := Option.map_eq_some_iff.mp h
  simp only [Prod.mk.injEq, decide_eq_true_eq, decide_eq_false_iff_not] at hval
  apply hval.2
  exact hall _ indirectConfig Value.slot 6 t rfl rfl ht _ _ _ _ resolvesByPattern_drivers hval.1

end LinuxAnalysis
