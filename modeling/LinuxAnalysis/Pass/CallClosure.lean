import LinuxAnalysis.Pass.Flow
import LinuxAnalysis.Pass.UpwardClosure

/-!
# Arguments and parameters

The seeding loops enter a callee at every position that holds the constant, the forward loop at the
first position of the value it visits, the upward loops not at all.
-/

open LinuxAnalysis.Lib

namespace LinuxAnalysis

/-- `i` passes `v` to parameter `a` of a function with a body, in a direct call. -/
structure PassesArgument (M : Module) (i : InstId) (v : Value) (a : ArgId) : Prop where
  call : i ∈ M.insts
  actual : PassesTaintTo M i v a.no a.func
  parameter : HasParameter M a.func a.no

/-- The position of `v` is not the first one that it has in the call. -/
def LaterPosition (M : Module) (i : InstId) (v : Value) (a : ArgId) : Prop :=
  ∃ called same args bundles, M.kind i = .call called same args bundles ∧
    args.findIdx? (· == v) ≠ some a.no

namespace PassState

/-- The parameter of each tainted argument is tainted. -/
def ParametersTainted (M : Module) (s : PassState) : Prop :=
  ∀ i v a, PassesArgument M i v a → v ∈ s.taintedValues → .arg a ∈ s.taintedValues

end PassState

/-- A forward visit of a call finds the parameters behind the first position of the value tainted. -/
def CallVisitsEnter (M : Module) (cfg : Config) (addr : Value → Nat) : Prop :=
  ∀ v call rest s, Reachable M cfg addr ⟨.forwardUsers v (call :: rest), s⟩ →
    ∀ a, PassesArgument M call v a → LaterPosition M call v a → .arg a ∈ s.taintedValues

/-- The upward phase taints no value that is passed to a parameter still untainted. -/
def UpwardTaintStays (M : Module) (cfg : Config) (addr : Value → Nat) : Prop :=
  ∀ m m', Reachable M cfg addr m → m.control.upward = true → step M cfg addr m = some m' →
    ∀ v ∈ m'.state.taintedValues, v ∉ m.state.taintedValues →
      ∀ i a, PassesArgument M i v a → .arg a ∈ m.state.taintedValues

variable {M : Module} {cfg : Config} {addr : Value → Nat}

theorem PassesArgument.mem_users {i : InstId} {v : Value} {a : ArgId} (h : PassesArgument M i v a) :
    i ∈ M.users v := by
  obtain ⟨called, same, args, bundles, hkind, hactual, _⟩ := h.actual
  have hmem : v ∈ args := List.mem_of_getElem? hactual
  apply Module.mem_users.mpr
  refine ⟨h.call, ?_⟩
  rw [Module.operands, hkind]
  exact List.mem_append_left _ (List.mem_append_left _ hmem)

/-- The first position is entered by the forward loop. -/
theorem PassesArgument.enters {i : InstId} {v : Value} {a : ArgId} (h : PassesArgument M i v a)
    (hmode : cfg.interprocMode = true) (hfirst : ¬ LaterPosition M i v a) :
    EntersParameter M cfg addr v i a := by
  obtain ⟨called, same, args, bundles, hkind, _, hcallee⟩ := h.actual
  have hidx : args.findIdx? (· == v) = some a.no := by
    by_contra hne
    exact hfirst ⟨called, same, args, bundles, hkind, hne⟩
  exact ⟨hmode, h.parameter, called, same, args, bundles, hkind, hidx, .inl hcallee⟩

/-! ## The upward phase -/

namespace PassState

/-- What is new is an instruction. -/
def OnlyInstructions (s t : PassState) : Prop :=
  ∀ v ∈ t.taintedValues, v ∈ s.taintedValues ∨ ∃ i, v = .inst i

theorem OnlyInstructions.of_eq {s t : PassState} (h : t.taintedValues = s.taintedValues) :
    s.OnlyInstructions t := by
  intro v hv
  rw [h] at hv
  exact .inl hv

theorem onlyInstructions_taintValue {s t : PassState} {i : InstId}
    (h : t.taintedValues = s.taintedValues) : s.OnlyInstructions (t.taintValue (.inst i)) := by
  intro v hv
  rcases DenseSet.mem_insert.mp hv with rfl | hv
  · exact .inr ⟨i, rfl⟩
  · rw [h] at hv
    exact .inl hv

theorem taintedValues_initFunctionLevel (f : Nat) (level : Int) (s : PassState) :
    (s.initFunctionLevel f level).taintedValues = s.taintedValues := by
  unfold initFunctionLevel
  split <;> rfl

theorem taintedValues_taintPointer (p : Value) (i : InstId) (s : PassState) :
    (s.taintPointer p i).taintedValues = s.taintedValues := by
  unfold taintPointer
  split <;> rfl

theorem taintedValues_recordFieldAccess (f n : Nat) (fields : List Int) (s : PassState) :
    (s.recordFieldAccess f n fields).taintedValues = s.taintedValues := by
  unfold recordFieldAccess
  split <;> rfl

theorem taintedValues_ensureLevelSet (i : InstId) (s : PassState) :
    (s.ensureLevelSet i).taintedValues = s.taintedValues := by
  unfold ensureLevelSet
  split
  · rfl
  · split <;> rfl

theorem UpwardStep.onlyInstructions {start s t : PassState} (h : UpwardStep M start s t) :
    s.OnlyInstructions t := by
  cases h with
  | call _ _ _ _ => exact onlyInstructions_taintValue (taintedValues_initFunctionLevel _ _ _)
  | passThrough _ _ _ _ _ => exact .of_eq (taintedValues_initFunctionLevel _ _ _)
  | pointed _ _ _ _ _ =>
    exact .of_eq ((taintedValues_taintPointer _ _ _).trans (taintedValues_initFunctionLevel _ _ _))
  | field _ _ _ _ _ _ _ _ _ _ _ => exact .of_eq (taintedValues_taintPointer _ _ _)
  | use _ _ _ => exact onlyInstructions_taintValue rfl
  | store _ _ _ => exact .of_eq (taintedValues_taintPointer _ _ _)
  | parameterStore _ _ _ _ => exact .of_eq rfl
  | fields => exact .of_eq (taintedValues_recordFieldAccess _ _ _ _)
  | returned _ _ _ => exact .of_eq rfl

theorem ScanStep.onlyInstructions {s t : PassState} (h : ScanStep M s t) : s.OnlyInstructions t := by
  cases h with
  | kill _ _ => exact .of_eq rfl
  | level _ _ _ _ => exact .of_eq (taintedValues_ensureLevelSet _ _)
  | load _ _ _ _ => exact onlyInstructions_taintValue (taintedValues_ensureLevelSet _ _)

end PassState

/-- The upward phase taints no parameter. -/
theorem mem_parameters_of_reaches {m m' : Point} (hm : m.Valid M cfg)
    (hphase : m.control.upward = true) (h : Reaches (step M cfg addr) m m') {a : ArgId}
    (ha : .arg a ∈ m'.state.taintedValues) : .arg a ∈ m.state.taintedValues := by
  let U := fun s : PassState => .arg a ∈ s.taintedValues → .arg a ∈ m.state.taintedValues
  have honly {s t : PassState} (hs : U s) (hst : s.OnlyInstructions t) : U t := by
    intro hmem
    rcases hst _ hmem with hmem | ⟨i, hi⟩
    · exact hs hmem
    · cases hi
  have hinv := Point.invariant (F := fun _ => False) (U := U) (fun _ _ hs _ => hs)
    (fun _ _ hs _ => hs) (fun _ _ hs _ => hs) (fun _ _ hs _ => hs) (fun _ hs => absurd hs id)
    (fun _ _ _ _ hs hst => honly hs hst.onlyInstructions)
    (fun _ _ hs hst => honly hs hst.onlyInstructions)
    (fun _ _ hs hst => honly hs (.of_eq hst.taintedValues)) hm
    (fun hfalse => by rw [hphase] at hfalse; cases hfalse) (fun _ => id) h
  exact hinv.2 (Point.upward_of_reaches hm hphase h) ha

/-! ## Both phases -/

/-- When the forward loop exits, each call has been visited from each of its tainted arguments. -/
theorem forwardPhase_parametersTainted (hmode : cfg.interprocMode = true)
    (hvisits : CallVisitsEnter M cfg addr) {fuel : Nat} {s : PassState}
    (h : forwardPhase M cfg addr fuel = some s) : s.ParametersTainted M := by
  intro i v a harg hv
  apply Point.forwardPhase_done (D := fun v u s => ∀ a, PassesArgument M u v a →
    .arg a ∈ s.taintedValues) _ _ _ h hv harg.mem_users a harg
  · intro v u s t hext hdone a harg
    exact hext.taintedValues _ (hdone a harg)
  · intro v u s t hst hdone a harg
    rw [hst.taintedValues]
    exact hdone a harg
  · intro v u rest s hreach a harg
    apply (PassState.mem_forwardUser (Point.initialTargets_of_reachable hreach rfl)).mpr
    by_cases hpos : LaterPosition M u v a
    · exact .inl (hvisits v u rest s hreach a harg hpos)
    · -- the first position is entered by the visit
      exact .inr (.inr ⟨a, rfl, harg.enters hmode hpos⟩)

/-- **Closure rule.**  Tainted values stay closed under a relation when the upward phase taints none
that has an untainted successor. -/
theorem closed_of_upward {R : Value → Value → Prop}
    (hstays : ∀ p q, Reachable M cfg addr p → p.control.upward = true → step M cfg addr p = some q →
      ∀ v ∈ q.state.taintedValues, v ∉ p.state.taintedValues →
        ∀ w, R v w → w ∈ p.state.taintedValues) {m m' : Point} (hm : Reachable M cfg addr m)
    (hphase : m.control.upward = true)
    (hclosed : ∀ v ∈ m.state.taintedValues, ∀ w, R v w → w ∈ m.state.taintedValues)
    (h : Reaches (step M cfg addr) m m') :
    ∀ v ∈ m'.state.taintedValues, ∀ w, R v w → w ∈ m'.state.taintedValues := by
  refine (h.invariant (I := fun p => Reachable M cfg addr p ∧ p.control.upward = true ∧
    ∀ v ∈ p.state.taintedValues, ∀ w, R v w → w ∈ p.state.taintedValues) (fun p q hp hpq => ?_)
    ⟨hm, hphase, hclosed⟩).2.2
  obtain ⟨hreach, hup, hkept⟩ := hp
  have hvalid := Point.valid_of_reachable hreach
  have hgrows := (Point.grows_of_reaches hvalid (.single hpq)).1
  refine ⟨hreach.trans (.single hpq), ((Point.step_spec hvalid hpq).upward hup).1, ?_⟩
  intro v hv w hvw
  -- a successor of a value tainted by this step was tainted before it
  by_cases hold : v ∈ p.state.taintedValues
  · exact hgrows _ (hkept v hold w hvw)
  · exact hgrows _ (hstays p q hreach hup hpq v hv hold w hvw)

theorem parametersTainted_of_reaches {m m' : Point} (hstays : UpwardTaintStays M cfg addr)
    (hm : Reachable M cfg addr m) (hphase : m.control.upward = true)
    (hclosed : m.state.ParametersTainted M) (h : Reaches (step M cfg addr) m m') :
    m'.state.ParametersTainted M := by
  have hend := closed_of_upward (R := fun v w => ∃ i a, PassesArgument M i v a ∧ w = .arg a)
    (fun p q hp hup hpq v hv hnew w hw => ?_) hm hphase (fun v hv w hw => ?_) h
  · exact fun i v a harg hv => hend v hv _ ⟨i, a, harg, rfl⟩
  · obtain ⟨i, a, harg, rfl⟩ := hw
    exact hstays p q hp hup hpq v hv hnew i a harg
  · obtain ⟨i, a, harg, rfl⟩ := hw
    exact hclosed i v a harg hv

/-- **Downward closure.**  In a run in downward mode whose forward visits of calls find the later
positions entered, every tainted argument of a direct call has its parameter tainted at the end if and
only if the upward phase taints no value passed to an untainted parameter. -/
theorem run_parametersTainted_iff (M : Module) (cfg : Config) (addr : Value → Nat) (fuel : Nat)
    (t : PassState) (hmode : cfg.interprocMode = true) (hvisits : CallVisitsEnter M cfg addr)
    (h : run M cfg addr fuel = some t) :
    t.ParametersTainted M ↔ UpwardTaintStays M cfg addr := by
  obtain ⟨s, hs, _⟩ := Option.bind_eq_some_iff.mp h
  have hentry := forwardPhase_reaches hs
  have hend := Point.reaches_finished hentry h
  constructor
  · intro hclosed m m' hm hphase hstep v hv _ i a harg
    have hm' := hm.trans (.single hstep)
    have hgrows := (Point.grows_of_reaches (Point.valid_of_reachable hm')
      (Point.reaches_finished hm' h)).1
    exact mem_parameters_of_reaches (Point.valid_of_reachable hm) hphase (Point.reaches_finished hm h)
      (hclosed i v a harg (hgrows v hv))
  · intro hstays
    exact parametersTainted_of_reaches hstays hentry rfl
      (forwardPhase_parametersTainted hmode hvisits hs) hend

/-- `f` computes the constant and passes it to `g` in the given positions. -/
def passingModule (args : List Value) : Module :=
  .ofFunctions [
    { name := "f".toList
      argIsPointerTy := []
      blocks := [[
        { kind := .other "add".toList [.constantInt 32 5, .constant 0] [] },
        { kind := .call (.function 1) true args [] },
        { kind := .ret none }]] },
    { name := "g".toList
      argIsPointerTy := args.map fun _ => false
      blocks := [[{ kind := .ret none }]] }] id

def downwardConfig : Config := { recursiveConfig with interprocMode := true }

/-- The only argument is the sum. -/
theorem passesArgument_once {i : InstId} {v : Value} {a : ArgId}
    (h : PassesArgument (passingModule [.inst ⟨0, 0, 0⟩]) i v a) :
    i = ⟨0, 0, 1⟩ ∧ v = .inst ⟨0, 0, 0⟩ ∧ a = ⟨1, 0⟩ := by
  obtain ⟨hcall, ⟨called, same, args, bundles, hkind, hn, hcallee⟩, _⟩ := h
  have hinsts : (passingModule [.inst ⟨0, 0, 0⟩]).insts =
      [⟨0, 0, 0⟩, ⟨0, 0, 1⟩, ⟨0, 0, 2⟩, ⟨1, 0, 0⟩] := by decide
  rw [hinsts] at hcall
  simp only [List.mem_cons, List.not_mem_nil, or_false] at hcall
  obtain ⟨callee, n⟩ := a
  rcases hcall with rfl | rfl | rfl | rfl <;> cases hkind
  cases hcallee
  cases n with
  | zero =>
    cases hn
    exact ⟨rfl, rfl, rfl⟩
  | succ n => cases hn

/-- The value is passed once, and its parameter is tainted. -/
theorem run_parametersTainted_iff_once :
    ∃ t, run (passingModule [.inst ⟨0, 0, 0⟩]) downwardConfig Value.slot 5 = some t ∧
      t.ParametersTainted (passingModule [.inst ⟨0, 0, 0⟩]) := by
  obtain ⟨t, ht⟩ := Option.isSome_iff_exists.mp
    (show (run (passingModule [.inst ⟨0, 0, 0⟩]) downwardConfig Value.slot 5).isSome = true by decide)
  refine ⟨t, ht, (run_parametersTainted_iff _ _ _ 5 t rfl ?_ ht).mpr ?_⟩
  · -- there is no later position
    rintro v call rest s _ a harg ⟨called, same, args, bundles, hkind, hlater⟩
    obtain ⟨rfl, rfl, rfl⟩ := passesArgument_once harg
    cases hkind
    exact absurd rfl hlater
  · -- the upward phase begins with the parameter tainted
    have hcheck : Reaches.checkAll
        (step (passingModule [.inst ⟨0, 0, 0⟩]) downwardConfig Value.slot)
        (fun m => !m.control.upward || decide (.arg ⟨1, 0⟩ ∈ m.state.taintedValues)) 80
        (initialPoint (passingModule [.inst ⟨0, 0, 0⟩]) downwardConfig) = true := by decide
    intro m m' hm hup _ v _ _ i a harg
    obtain ⟨rfl, rfl, rfl⟩ := passesArgument_once harg
    have htainted := Reaches.of_checkAll hcheck hm
    rw [hup] at htainted
    exact of_decide_eq_true htainted

/-- The second parameter of `g` stays untainted when the value is passed twice. -/
theorem run_misses_later_parameter :
    ¬ ∀ (M : Module) (cfg : Config) (addr : Value → Nat) (fuel : Nat) (t : PassState),
      cfg.interprocMode = true → run M cfg addr fuel = some t → t.ParametersTainted M := by
  intro hall
  have h : (run (passingModule [.inst ⟨0, 0, 0⟩, .inst ⟨0, 0, 0⟩]) downwardConfig Value.slot 5).map
      (fun t => (decide (.inst ⟨0, 0, 0⟩ ∈ t.taintedValues),
        decide (.arg ⟨1, 1⟩ ∈ t.taintedValues))) = some (true, false) := by decide
  obtain ⟨t, ht, hval⟩ := Option.map_eq_some_iff.mp h
  simp only [Prod.mk.injEq, decide_eq_true_eq, decide_eq_false_iff_not] at hval
  have hparam := hall _ downwardConfig Value.slot 5 t rfl ht ⟨0, 0, 1⟩ (.inst ⟨0, 0, 0⟩) ⟨1, 1⟩
    ⟨by decide, ⟨_, _, _, _, rfl, rfl, rfl⟩, ⟨rfl, by decide⟩⟩ hval.1
  exact hval.2 hparam

end LinuxAnalysis
