import LinuxAnalysis.Pass.Report
import LinuxAnalysis.Pass.Termination

/-!
# Levels

A value is given its level before or when it is tainted and keeps it.  Levels are at most `0` through
the forward phase, below `0` at parameters; the upward phase gives a caller a level one above that of
a callee, so the levels above `0` stand on one another.
-/

open LinuxAnalysis.Lib

namespace LinuxAnalysis

/-- Labels that stand on one another: below every label above `1` there is the label one smaller.
There are at least as many elements as the largest label says. -/
theorem label_le_card {α : Type} {S : Finset α} (label : α → Option Int)
    (hbelow : ∀ a l, label a = some l → 0 < l → a ∈ S ∧ (l = 1 ∨ ∃ b, label b = some (l - 1)))
    {a : α} {l : Int} (h : label a = some l) : l ≤ S.card := by
  -- a positive level stands on the one below it, down to 1
  have hladder (n : Nat) : ∀ a, label a = some (n : Int) → ∀ k : Nat, 0 < k → k ≤ n →
      ∃ b ∈ S, label b = some (k : Int) := by
    induction n with
    | zero => intro a _ k hk hkn; omega
    | succ n ih =>
      intro a ha k hk hkn
      obtain ⟨hmem, hdown⟩ := hbelow a _ ha (by omega)
      by_cases heq : k = n + 1
      · subst heq
        exact ⟨a, hmem, ha⟩
      · rcases hdown with hone | ⟨b, hb⟩
        · omega
        · apply ih b _ k hk (by omega)
          rw [hb]
          congr 1
          omega
  rcases Int.lt_or_le 0 l with hpos | hle
  · obtain ⟨n, rfl⟩ := Int.eq_ofNat_of_zero_le (Int.le_of_lt hpos)
    -- so the levels 1 to `l` are labels of `l` distinct elements of `S`
    have hsub : (Finset.range n).image (fun k : Nat => some (k + 1 : Int)) ⊆ S.image label := by
      intro x hx
      obtain ⟨k, hk, rfl⟩ := Finset.mem_image.mp hx
      rw [Finset.mem_range] at hk
      obtain ⟨b, hb, hlabel⟩ := hladder n a h (k + 1) (by omega) (by omega)
      exact Finset.mem_image.mpr ⟨b, hb, hlabel⟩
    have hinj : Function.Injective fun k : Nat => some (k + 1 : Int) := by
      intro x y hxy
      have heq : (x + 1 : Int) = y + 1 := Option.some.inj hxy
      omega
    have hcard := (Finset.card_le_card hsub).trans Finset.card_image_le
    rw [Finset.card_image_of_injective _ hinj, Finset.card_range] at hcard
    omega
  · omega

/-- The functions with a body. -/
def Module.definedFunctions (M : Module) : Finset Nat :=
  (Finset.range M.functions.length).filter fun f => M.isDeclaration f = false

theorem Module.func_mem_definedFunctions {M : Module} {i : InstId} (hi : i ∈ M.insts) :
    i.func ∈ M.definedFunctions := by
  have hlt := func_lt_of_mem_insts hi
  rw [definedFunctions, Finset.mem_filter, Finset.mem_range]
  refine ⟨hlt, ?_⟩
  rw [mem_insts, blockAt, List.getElem?_eq_getElem hlt, Option.map_some, Option.getD_some] at hi
  rw [isDeclaration, List.getElem?_eq_getElem hlt, Option.map_some, Option.getD_some,
    Function.isDeclaration]
  by_contra hempty
  rw [Bool.not_eq_false, List.isEmpty_iff] at hempty
  rw [hempty] at hi
  exact Nat.not_lt_zero _ hi

namespace PassState

variable {M : Module} {cfg : Config} {addr : Value → Nat}

/-- No entry of a tainted value is written, and no function loses its level. -/
structure Frozen (s t : PassState) : Prop where
  values : s.taintedValues ⊆ t.taintedValues
  valueLevel : ∀ v ∈ s.taintedValues, t.valueLevel.lookup v = s.valueLevel.lookup v
  functions : ∀ f ∈ s.functionLevel, f ∈ t.functionLevel

theorem Frozen.refl (s : PassState) : s.Frozen s :=
  ⟨DenseSet.Subset.refl _, fun _ _ => rfl, fun _ h => h⟩

theorem Frozen.trans {s t u : PassState} (h₁ : s.Frozen t) (h₂ : t.Frozen u) : s.Frozen u :=
  ⟨DenseSet.Subset.trans h₁.values h₂.values,
    fun v hv => (h₂.valueLevel v (h₁.values v hv)).trans (h₁.valueLevel v hv),
    fun f hf => h₂.functions f (h₁.functions f hf)⟩

/-- The values and levels of two states agree. -/
structure SameLevels (s t : PassState) : Prop where
  values : t.taintedValues = s.taintedValues
  valueLevel : t.valueLevel = s.valueLevel
  functionLevel : t.functionLevel = s.functionLevel

theorem SameLevels.frozen {s t : PassState} (h : s.SameLevels t) : s.Frozen t :=
  ⟨by rw [h.values], fun v _ => by rw [h.valueLevel], fun f hf => by rwa [h.functionLevel]⟩

/-- `t` is `s` after the level of a value not tainted before was set; that value may be tainted now. -/
structure SetsLevel (s t : PassState) (v : Value) (level : Int) : Prop where
  fresh : v ∉ s.taintedValues
  kept : s.taintedValues ⊆ t.taintedValues
  values : ∀ w ∈ t.taintedValues, w ∈ s.taintedValues ∨ w = v
  valueLevel : t.valueLevel = s.valueLevel.insert v level
  functions : t.functionLevel = s.functionLevel ∨ ∃ f, t.functionLevel = s.functionLevel.insert f level

theorem SetsLevel.lookup_self {s t : PassState} {v : Value} {level : Int}
    (h : s.SetsLevel t v level) : t.valueLevel.lookup v = some level := by
  rw [h.valueLevel, AList.lookup_insert]

theorem SetsLevel.lookup_ne {s t : PassState} {v w : Value} {level : Int}
    (h : s.SetsLevel t v level) (hw : w ≠ v) : t.valueLevel.lookup w = s.valueLevel.lookup w := by
  rw [h.valueLevel, AList.lookup_insert_ne hw]

theorem SetsLevel.frozen {s t : PassState} {v : Value} {level : Int} (h : s.SetsLevel t v level) :
    s.Frozen t := by
  refine ⟨h.kept, fun _ hw => h.lookup_ne fun he => h.fresh (he ▸ hw), fun f hf => ?_⟩
  rcases h.functions with hsame | ⟨g, hset⟩
  · rwa [hsame]
  · rw [hset, AList.mem_insert]
    exact .inr hf

/-- A tainted parameter has a level below `0`, and only a load may be tainted without a level. -/
structure Leveled (M : Module) (s : PassState) : Prop where
  args : ∀ a, .arg a ∈ s.taintedValues → ∃ level ≤ -1, s.valueLevel.lookup (.arg a) = some level
  insts : ∀ i, .inst i ∈ s.taintedValues → .inst i ∈ s.valueLevel ∨ ∃ ptr, M.kind i = .load ptr

theorem Leveled.same {s t : PassState} (hs : s.Leveled M) (h : s.SameLevels t) : t.Leveled M := by
  refine ⟨fun a ha => ?_, fun i hi => ?_⟩
  · rw [h.values] at ha
    rw [h.valueLevel]
    exact hs.args a ha
  · rw [h.values] at hi
    rw [h.valueLevel]
    exact hs.insts i hi

theorem Leveled.sets {s t : PassState} {v : Value} {level : Int} (hs : s.Leveled M)
    (h : s.SetsLevel t v level) (harg : ∀ a, v = .arg a → level ≤ -1) : t.Leveled M := by
  refine ⟨fun a ha => ?_, fun i hi => ?_⟩
  · by_cases heq : .arg a = v
    · exact ⟨level, harg a heq.symm, heq ▸ h.lookup_self⟩
    · rw [h.lookup_ne heq]
      exact hs.args a ((h.values _ ha).resolve_right heq)
  · rw [h.valueLevel, AList.mem_insert]
    by_cases heq : .inst i = v
    · exact .inl (.inl heq)
    · exact (hs.insts i ((h.values _ hi).resolve_right heq)).imp_left .inr

/-- A load tainted in a function without a level. -/
theorem Leveled.load {s t : PassState} {i : InstId} {ptr : Value} (hs : s.Leveled M)
    (hkind : M.kind i = .load ptr) (hvalues : t.taintedValues = s.taintedValues.insert (.inst i))
    (hlevels : t.valueLevel = s.valueLevel) : t.Leveled M := by
  refine ⟨fun a ha => ?_, fun j hj => ?_⟩
  · rw [hvalues, DenseSet.mem_insert] at ha
    rw [hlevels]
    exact hs.args a (ha.resolve_left fun h => by cases h)
  · rw [hvalues, DenseSet.mem_insert] at hj
    rw [hlevels]
    by_cases hij : j = i
    · subst hij
      exact .inr ⟨ptr, hkind⟩
    · exact hs.insts j (hj.resolve_left fun h => hij (Value.inst.inj h))

/-- What `ensureLevelSet` and the taint of a load do to the levels. -/
theorem load_levels {s t : PassState} {i : InstId} (hfresh : .inst i ∉ s.taintedValues)
    (hkept : s.taintedValues ⊆ t.taintedValues)
    (hvalues : ∀ w ∈ t.taintedValues, w ∈ s.taintedValues ∨ w = .inst i)
    (hlevels : t.valueLevel = (s.ensureLevelSet i).valueLevel)
    (hfunctions : t.functionLevel = s.functionLevel) :
    t.valueLevel = s.valueLevel ∨
      ∃ level, s.functionLevel.lookup i.func = some level ∧ s.SetsLevel t (.inst i) level := by
  unfold ensureLevelSet at hlevels
  split at hlevels
  · exact .inl hlevels
  · split at hlevels
    next level hlevel => exact .inr ⟨level, hlevel, hfresh, hkept, hvalues, hlevels, .inl hfunctions⟩
    next => exact .inl hlevels

/-! ## The forward phase -/

structure ForwardLevels (M : Module) (s : PassState) : Prop extends Leveled M s where
  values_le : ∀ v level, s.valueLevel.lookup v = some level → level ≤ 0
  functions_le : ∀ f level, s.functionLevel.lookup f = some level → level ≤ 0

theorem ForwardLevels.getLevel_le {s : PassState} (hs : s.ForwardLevels M) (v : Value) :
    s.getLevel v ≤ 0 := by
  have hfunction (f : Nat) : DenseMap.getD s.functionLevel f 0 ≤ 0 := by
    rw [DenseMap.getD]
    cases hlookup : s.functionLevel.lookup f with
    | none => exact Int.le_refl 0
    | some level => exact hs.functions_le f level hlookup
  unfold getLevel
  split
  next level hlookup => exact hs.values_le v level hlookup
  next =>
    split
    · exact hfunction _
    · exact hfunction _
    · exact Int.le_refl 0

theorem ForwardLevels.same {s t : PassState} (hs : s.ForwardLevels M) (h : s.SameLevels t) :
    t.ForwardLevels M := by
  refine ⟨hs.toLeveled.same h, fun v level hl => ?_, fun f level hl => ?_⟩
  · rw [h.valueLevel] at hl
    exact hs.values_le v level hl
  · rw [h.functionLevel] at hl
    exact hs.functions_le f level hl

theorem ForwardLevels.sets {s t : PassState} {v : Value} {level : Int} (hs : s.ForwardLevels M)
    (h : s.SetsLevel t v level) (hle : level ≤ 0) (harg : ∀ a, v = .arg a → level ≤ -1) :
    t.ForwardLevels M := by
  refine ⟨hs.toLeveled.sets h harg, fun w l hl => ?_, fun f l hl => ?_⟩
  · by_cases hw : w = v
    · rw [hw, h.lookup_self] at hl
      cases hl
      exact hle
    · rw [h.lookup_ne hw] at hl
      exact hs.values_le w l hl
  · rcases h.functions with hsame | ⟨g, hset⟩
    · rw [hsame] at hl
      exact hs.functions_le f l hl
    · rw [hset, DenseMap.lookup_insert_ite] at hl
      split at hl
      · cases hl
        exact hle
      · exact hs.functions_le f l hl

theorem sameLevels_taintPointer (p : Value) (i : InstId) (s : PassState) :
    s.SameLevels (s.taintPointer p i) := by
  unfold taintPointer
  split <;> exact ⟨rfl, rfl, rfl⟩

theorem sameLevels_recordFieldAccess (f n : Nat) (fields : List Int) (s : PassState) :
    s.SameLevels (s.recordFieldAccess f n fields) := by
  unfold recordFieldAccess
  split <;> exact ⟨rfl, rfl, rfl⟩

theorem Bookkeeping.sameLevels {s t : PassState} (h : s.Bookkeeping t) : s.SameLevels t :=
  ⟨h.taintedValues, h.valueLevel, h.functionLevel⟩

theorem setsLevel_use {v : Value} {level : Int} {s : PassState} (h : v ∉ s.taintedValues) :
    s.SetsLevel ((s.setValueLevel v level).taintValue v) v level :=
  ⟨h, DenseSet.subset_insert _ _, fun _ hw => (DenseSet.mem_insert.mp hw).symm, rfl, .inl rfl⟩

theorem ForwardLevels.taintParameter {s : PassState} {a : ArgId} (hs : s.ForwardLevels M)
    (h : .arg a ∉ s.taintedValues) (v : Value) :
    (s.taintParameter a (s.getLevel v)).ForwardLevels M ∧
      s.Frozen (s.taintParameter a (s.getLevel v)) := by
  have hle := hs.getLevel_le v
  have hset : s.SetsLevel (s.taintParameter a (s.getLevel v)) (.arg a) (s.getLevel v - 1) := by
    rw [PassState.taintParameter, if_neg h]
    exact ⟨h, DenseSet.subset_insert _ _, fun _ hw => (DenseSet.mem_insert.mp hw).symm, rfl,
      .inr ⟨a.func, rfl⟩⟩
  exact ⟨hs.sets hset (by omega) (fun _ _ => by omega), hset.frozen⟩

theorem forwardLevels_seedStep {s t : PassState} (hs : s.ForwardLevels M) (h : SeedStep M cfg s t) :
    t.ForwardLevels M ∧ s.Frozen t := by
  have hsame {u : PassState} (hu : s.SameLevels u) : u.ForwardLevels M ∧ s.Frozen u :=
    ⟨hs.same hu, hu.frozen⟩
  cases h with
  | @source i _ _ hnew =>
    have hset : s.SetsLevel (((s.taintValue (.inst i)).setFunctionLevel i.func 0).setValueLevel
        (.inst i) 0) (.inst i) 0 :=
      ⟨hnew, DenseSet.subset_insert _ _, fun _ hw => (DenseSet.mem_insert.mp hw).symm, rfl,
        .inr ⟨i.func, rfl⟩⟩
    exact ⟨hs.sets hset (Int.le_refl 0) (fun a h => by cases h), hset.frozen⟩
  | returned _ _ _ => exact hsame ⟨rfl, rfl, rfl⟩
  | @parameterStore i _ _ ptr a _ _ _ _ =>
    have hrecord := sameLevels_recordFieldAccess i.func a.no (M.extractStructFieldIndices ptr)
      (s.addTaintingPointerParam i.func a.no)
    exact hsame ⟨hrecord.values, hrecord.valueLevel, hrecord.functionLevel⟩
  | pointer _ _ _ => exact hsame (sameLevels_taintPointer _ _ s)
  | parameter _ _ _ _ _ hnew => exact hs.taintParameter hnew _

theorem forwardLevels_forwardStep {s t : PassState} (hs : s.ForwardLevels M)
    (h : ForwardStep M cfg addr s t) : t.ForwardLevels M ∧ s.Frozen t := by
  have hsame {u : PassState} (hu : s.SameLevels u) : u.ForwardLevels M ∧ s.Frozen u :=
    ⟨hs.same hu, hu.frozen⟩
  cases h with
  | @callLevel v i _ _ _ _ _ _ hkind hnone =>
    -- a tainted call has its level already
    have hfresh : .inst i ∉ s.taintedValues := by
      intro hi
      rcases hs.insts i hi with hlevel | ⟨ptr, hload⟩
      · exact hnone hlevel
      · rw [hkind] at hload
        cases hload
    have hset : s.SetsLevel (s.setValueLevel (.inst i) (s.getLevel v)) (.inst i) (s.getLevel v) :=
      ⟨hfresh, DenseSet.Subset.refl _, fun _ hw => .inl hw, rfl, .inl rfl⟩
    exact ⟨hs.sets hset (hs.getLevel_le v) (fun a h => by cases h), hset.frozen⟩
  | parameter _ _ _ _ _ hnew => exact hs.taintParameter hnew _
  | returned _ _ _ => exact hsame ⟨rfl, rfl, rfl⟩
  | parameterStore _ _ _ _ => exact hsame ⟨rfl, rfl, rfl⟩
  | @pointer v i ptr _ _ _ _ =>
    have hptr := sameLevels_taintPointer (M.stripPointerCasts ptr) i s
    exact hsame ⟨hptr.values, hptr.valueLevel, hptr.functionLevel⟩
  | @use v i _ _ hnew =>
    have hset : s.SetsLevel _ (.inst i) (s.getLevel v) := setsLevel_use hnew
    exact ⟨hs.sets hset (hs.getLevel_le v) (fun a h => by cases h), hset.frozen⟩

/-- The levels after a load scan, for an invariant that functions pass on to their instructions. -/
theorem scanStep_levels {s t : PassState} {I : PassState → Prop} (h : ScanStep M s t)
    (hsame : ∀ u, s.SameLevels u → I u)
    (hload : ∀ i ptr u, M.kind i = .load ptr → .inst i ∉ s.taintedValues →
      u.taintedValues = s.taintedValues.insert (.inst i) → u.valueLevel = s.valueLevel →
      u.functionLevel = s.functionLevel → I u)
    (hset : ∀ i level u, s.functionLevel.lookup i.func = some level →
      s.SetsLevel u (.inst i) level → u.functionLevel = s.functionLevel → I u) : I t := by
  -- the level of a load is looked up and set before it is tainted
  have hensure (i : InstId) : (s.ensureLevelSet i).taintedValues = s.taintedValues ∧
      (s.ensureLevelSet i).functionLevel = s.functionLevel := by
    unfold ensureLevelSet
    split
    · exact ⟨rfl, rfl⟩
    · split <;> exact ⟨rfl, rfl⟩
  cases h with
  | kill _ _ => exact hsame _ ⟨rfl, rfl, rfl⟩
  -- a load that is skipped still gets its level
  | @level i p _ _ _ hnew =>
    obtain ⟨hvalues, hfunctions⟩ := hensure i
    have hkept : s.taintedValues ⊆ (s.ensureLevelSet i).taintedValues := by rw [hvalues]
    have hsub : ∀ w ∈ (s.ensureLevelSet i).taintedValues, w ∈ s.taintedValues ∨ w = .inst i := by
      intro w hw
      rw [hvalues] at hw
      exact .inl hw
    rcases load_levels hnew hkept hsub rfl hfunctions with hlevels | ⟨level, hlevel, hsets⟩
    · exact hsame _ ⟨hvalues, hlevels, hfunctions⟩
    · exact hset i level _ hlevel hsets hfunctions
  | @load i p _ _ hmatch hnew =>
    obtain ⟨hvalues, hfunctions⟩ := hensure i
    have hinsert : ((s.ensureLevelSet i).taintValue (.inst i)).taintedValues =
        s.taintedValues.insert (.inst i) := by
      show (s.ensureLevelSet i).taintedValues.insert (.inst i) = _
      rw [hvalues]
    have hkept : s.taintedValues ⊆ ((s.ensureLevelSet i).taintValue (.inst i)).taintedValues := by
      rw [hinsert]
      exact DenseSet.subset_insert _ _
    have hsub : ∀ w ∈ ((s.ensureLevelSet i).taintValue (.inst i)).taintedValues,
        w ∈ s.taintedValues ∨ w = .inst i := by
      intro w hw
      rw [hinsert] at hw
      exact (DenseSet.mem_insert.mp hw).symm
    rcases load_levels hnew hkept hsub rfl hfunctions with hlevels | ⟨level, hlevel, hsets⟩
    · obtain ⟨ptr, hkind⟩ : ∃ ptr, M.kind i = .load ptr := by
        unfold loadMatches at hmatch
        split at hmatch
        next ptr hkind => exact ⟨ptr, hkind⟩
        next => cases hmatch
      exact hload i ptr _ hkind hnew hinsert hlevels hfunctions
    · exact hset i level _ hlevel hsets hfunctions

theorem forwardLevels_scanStep {s t : PassState} (hs : s.ForwardLevels M) (h : ScanStep M s t) :
    t.ForwardLevels M ∧ s.Frozen t := by
  refine scanStep_levels (I := fun t => t.ForwardLevels M ∧ s.Frozen t) h
    (fun u hu => ⟨hs.same hu, hu.frozen⟩)
    (fun i ptr u hkind hnew hvalues hlevels hfunctions => ?_)
    (fun i level u hlevel hset hfunctions => ?_)
  · refine ⟨⟨hs.toLeveled.load hkind hvalues hlevels, ?_, ?_⟩, ?_, fun v _ => by rw [hlevels],
      fun f hf => by rwa [hfunctions]⟩
    · rw [hlevels]
      exact hs.values_le
    · rw [hfunctions]
      exact hs.functions_le
    · rw [hvalues]
      exact DenseSet.subset_insert _ _
  · have hle := hs.functions_le _ _ hlevel
    exact ⟨hs.sets hset hle (fun a h => by cases h), hset.frozen⟩

/-! ## The upward phase -/

/-- A level that is at most one above the level of some function, or of none. -/
def Supported (s : PassState) (level : Int) : Prop :=
  level ≤ 1 ∨ ∃ f, s.functionLevel.lookup f = some (level - 1)

structure UpwardLevels (M : Module) (s : PassState) : Prop extends Leveled M s where
  values_supported : ∀ v level, s.valueLevel.lookup v = some level → s.Supported level
  functions_supported : ∀ f level, s.functionLevel.lookup f = some level → 0 < level →
    f ∈ M.definedFunctions ∧ s.Supported level

theorem ForwardLevels.upward {s : PassState} (hs : s.ForwardLevels M) : s.UpwardLevels M := by
  refine ⟨hs.toLeveled, fun v level hl => .inl ?_, fun f level hl hpos => ?_⟩
  · have hle := hs.values_le v level hl
    omega
  · have hle := hs.functions_le f level hl
    omega

/-- Entries of the function levels are kept. -/
def KeepsFunctionLevels (s t : PassState) : Prop :=
  ∀ f level, s.functionLevel.lookup f = some level → t.functionLevel.lookup f = some level

theorem Supported.mono {s t : PassState} {level : Int} (h : s.Supported level)
    (hkeeps : s.KeepsFunctionLevels t) : t.Supported level :=
  h.imp_right fun ⟨f, hf⟩ => ⟨f, hkeeps f _ hf⟩

theorem UpwardLevels.supported_function {s : PassState} (hs : s.UpwardLevels M) (f : Nat) :
    s.Supported (DenseMap.getD s.functionLevel f 0) := by
  rw [DenseMap.getD]
  cases hlookup : s.functionLevel.lookup f with
  | none => exact .inl (by decide)
  | some level =>
    rw [Option.getD_some]
    by_cases hpos : 0 < level
    · exact (hs.functions_supported f level hlookup hpos).2
    · exact .inl (by omega)

theorem UpwardLevels.supported_getLevel {s : PassState} (hs : s.UpwardLevels M) (v : Value) :
    s.Supported (s.getLevel v) := by
  unfold getLevel
  split
  next level hlookup => exact hs.values_supported v level hlookup
  next =>
    split
    · exact hs.supported_function _
    · exact hs.supported_function _
    · exact .inl (by decide)

/-- The level a caller gets. -/
theorem supported_calleeLevel (f : Nat) (s : PassState) : s.Supported (s.calleeLevel f + 1) := by
  rw [calleeLevel, DenseMap.getD]
  cases hlookup : s.functionLevel.lookup f with
  | none => exact .inl (by decide)
  | some level =>
    refine .inr ⟨f, ?_⟩
    rw [hlookup, Option.getD_some]
    congr 1
    omega

theorem keepsFunctionLevels_initFunctionLevel (f : Nat) (level : Int) (s : PassState) :
    s.KeepsFunctionLevels (s.initFunctionLevel f level) := by
  intro g l hl
  unfold initFunctionLevel
  split
  · exact hl
  next hnew =>
    show (s.functionLevel.insert f level).lookup g = some l
    rw [AList.lookup_insert_ne, hl]
    rintro rfl
    exact hnew (AList.lookup_isSome.mp (by rw [hl]; rfl))

theorem UpwardLevels.same {s t : PassState} (hs : s.UpwardLevels M) (h : s.SameLevels t) :
    t.UpwardLevels M := by
  have hsupported (level : Int) : t.Supported level ↔ s.Supported level := by
    rw [Supported, h.functionLevel]
    exact Iff.rfl
  refine ⟨hs.toLeveled.same h, fun v level hl => ?_, fun f level hl hpos => ?_⟩
  · rw [h.valueLevel] at hl
    exact (hsupported level).mpr (hs.values_supported v level hl)
  · rw [h.functionLevel] at hl
    exact (hs.functions_supported f level hl hpos).imp_right (hsupported level).mpr

/-- Setting the level of an instruction, with the function levels as they are. -/
theorem UpwardLevels.sets {s t : PassState} {i : InstId} {level : Int} (hs : s.UpwardLevels M)
    (h : s.SetsLevel t (.inst i) level) (hlevel : s.Supported level)
    (hfunctions : t.functionLevel = s.functionLevel) : t.UpwardLevels M := by
  have hkeeps : s.KeepsFunctionLevels t := fun f l hl => by rw [hfunctions, hl]
  refine ⟨hs.toLeveled.sets h (fun a h => by cases h), fun w l hl => ?_, fun f l hl hpos => ?_⟩
  · apply Supported.mono _ hkeeps
    by_cases hw : w = .inst i
    · rw [hw, h.lookup_self] at hl
      cases hl
      exact hlevel
    · rw [h.lookup_ne hw] at hl
      exact hs.values_supported w l hl
  · rw [hfunctions] at hl
    exact (hs.functions_supported f l hl hpos).imp_right (Supported.mono · hkeeps)

/-- Giving a defined function the level of a caller. -/
theorem UpwardLevels.initFunctionLevel {s : PassState} {f : Nat} {level : Int}
    (hs : s.UpwardLevels M) (hf : f ∈ M.definedFunctions) (hlevel : s.Supported level) :
    (s.initFunctionLevel f level).UpwardLevels M := by
  have hkeeps := keepsFunctionLevels_initFunctionLevel f level s
  unfold PassState.initFunctionLevel at hkeeps ⊢
  by_cases hmem : f ∈ s.functionLevel
  · rwa [if_pos hmem]
  · rw [if_neg hmem] at hkeeps ⊢
    refine ⟨⟨hs.args, hs.insts⟩, fun v l hl => (hs.values_supported v l hl).mono hkeeps,
      fun g l hl hpos => ?_⟩
    have hl' : (s.functionLevel.insert f level).lookup g = some l := hl
    rw [DenseMap.lookup_insert_ite] at hl'
    split at hl'
    next hg =>
      cases hl'
      exact ⟨hg ▸ hf, hlevel.mono hkeeps⟩
    next => exact (hs.functions_supported g l hl' hpos).imp_right (Supported.mono · hkeeps)

theorem initFunctionLevel_levels (f : Nat) (level : Int) (s : PassState) :
    (s.initFunctionLevel f level).taintedValues = s.taintedValues ∧
      (s.initFunctionLevel f level).valueLevel = s.valueLevel := by
  unfold PassState.initFunctionLevel
  split <;> exact ⟨rfl, rfl⟩

theorem frozen_initFunctionLevel (f : Nat) (level : Int) (s : PassState) :
    s.Frozen (s.initFunctionLevel f level) := by
  obtain ⟨hvalues, hlevels⟩ := initFunctionLevel_levels f level s
  refine ⟨by rw [hvalues], fun v _ => by rw [hlevels], fun g hg => ?_⟩
  obtain ⟨l, hl⟩ := Option.isSome_iff_exists.mp (AList.lookup_isSome.mpr hg)
  rw [← AList.lookup_isSome, keepsFunctionLevels_initFunctionLevel f level s g l hl]
  rfl

theorem upwardLevels_upwardStep {start s t : PassState} (hs : s.UpwardLevels M)
    (h : UpwardStep M start s t) :
    t.UpwardLevels M ∧ s.Frozen t ∧ s.KeepsFunctionLevels t := by
  have hsame {u : PassState} (hu : s.SameLevels u) :
      u.UpwardLevels M ∧ s.Frozen u ∧ s.KeepsFunctionLevels u :=
    ⟨hs.same hu, hu.frozen, fun f l hl => by rw [hu.functionLevel, hl]⟩
  cases h with
  | @call f i _ hi _ hnew =>
    -- the level of the caller first: setting it does not read the level of the call
    have hcaller := hs.initFunctionLevel (Module.func_mem_definedFunctions hi)
      (supported_calleeLevel f s)
    have hkeeps := keepsFunctionLevels_initFunctionLevel i.func (s.calleeLevel f + 1) s
    obtain ⟨hvalues, hlevels⟩ := initFunctionLevel_levels i.func (s.calleeLevel f + 1) s
    have hswap : (((s.setValueLevel (.inst i) (s.calleeLevel f + 1)).initFunctionLevel i.func
        (s.calleeLevel f + 1)).taintValue (.inst i)) =
        ((s.initFunctionLevel i.func (s.calleeLevel f + 1)).setValueLevel (.inst i)
          (s.calleeLevel f + 1)).taintValue (.inst i) := by
      unfold PassState.initFunctionLevel
      by_cases hmem : i.func ∈ s.functionLevel
      · rw [if_pos hmem, if_pos (show i.func ∈ (s.setValueLevel _ _).functionLevel from hmem)]
      · rw [if_neg hmem, if_neg (show i.func ∉ (s.setValueLevel _ _).functionLevel from hmem)]
        rfl
    rw [hswap]
    have hset : (s.initFunctionLevel i.func (s.calleeLevel f + 1)).SetsLevel _ (.inst i)
        (s.calleeLevel f + 1) := setsLevel_use (by rwa [hvalues])
    exact ⟨hcaller.sets hset ((supported_calleeLevel f s).mono hkeeps) rfl,
      (frozen_initFunctionLevel _ _ s).trans hset.frozen, hkeeps⟩
  | @passThrough f n i actual a _ hi _ _ _ =>
    have hquiet : s.SameLevels (s.discoverTaintingPointerParam i.func a.no) := ⟨rfl, rfl, rfl⟩
    exact ⟨(hs.same hquiet).initFunctionLevel (Module.func_mem_definedFunctions hi)
      (supported_calleeLevel f s), hquiet.frozen.trans (frozen_initFunctionLevel _ _ _),
      keepsFunctionLevels_initFunctionLevel i.func (s.calleeLevel f + 1)
        (s.discoverTaintingPointerParam i.func a.no)⟩
  | @pointed f n i actual var _ hi _ _ _ =>
    have hcaller := hs.initFunctionLevel (Module.func_mem_definedFunctions hi)
      (supported_calleeLevel f s)
    have hptr := sameLevels_taintPointer var i (s.initFunctionLevel i.func (s.calleeLevel f + 1))
    refine ⟨hcaller.same hptr, (frozen_initFunctionLevel _ _ s).trans hptr.frozen, fun g l hl => ?_⟩
    rw [hptr.functionLevel]
    exact keepsFunctionLevels_initFunctionLevel _ _ s g l hl
  | field _ _ _ _ _ _ _ _ _ _ _ => exact hsame (sameLevels_taintPointer _ _ s)
  | @use v i _ _ hnew =>
    have hset : s.SetsLevel _ (.inst i) (s.getLevel v) := setsLevel_use hnew
    exact ⟨hs.sets hset (hs.supported_getLevel v) rfl, hset.frozen, fun _ _ => id⟩
  | store _ _ _ => exact hsame (sameLevels_taintPointer _ _ s)
  | parameterStore _ _ _ _ => exact hsame ⟨rfl, rfl, rfl⟩
  | fields => exact hsame (sameLevels_recordFieldAccess _ _ _ s)
  | returned _ _ _ => exact hsame ⟨rfl, rfl, rfl⟩

theorem upwardLevels_scanStep {s t : PassState} (hs : s.UpwardLevels M) (h : ScanStep M s t) :
    t.UpwardLevels M ∧ s.Frozen t ∧ s.KeepsFunctionLevels t := by
  refine scanStep_levels (I := fun t => t.UpwardLevels M ∧ s.Frozen t ∧ s.KeepsFunctionLevels t) h
    (fun u hu => ⟨hs.same hu, hu.frozen, fun f l hl => by rw [hu.functionLevel, hl]⟩)
    (fun i ptr u hkind hnew hvalues hlevels hfunctions => ?_)
    (fun i level u hlevel hset hfunctions => ?_)
  · have hkeeps : s.KeepsFunctionLevels u := fun f l hl => by rw [hfunctions, hl]
    refine ⟨⟨hs.toLeveled.load hkind hvalues hlevels, fun v l hl => ?_, fun f l hl hpos => ?_⟩,
      ⟨?_, fun v _ => by rw [hlevels], fun f hf => by rwa [hfunctions]⟩, hkeeps⟩
    · rw [hlevels] at hl
      exact (hs.values_supported v l hl).mono hkeeps
    · rw [hfunctions] at hl
      exact (hs.functions_supported f l hl hpos).imp_right (Supported.mono · hkeeps)
    · rw [hvalues]
      exact DenseSet.subset_insert _ _
  · have hlevel' := hs.supported_function i.func
    rw [DenseMap.getD, hlevel, Option.getD_some] at hlevel'
    exact ⟨hs.sets hset hlevel' hfunctions, hset.frozen, fun f l hl => by rw [hfunctions, hl]⟩

/-! ## Where the levels come from -/

/-- Nothing is tainted or on record. -/
structure Nothing (s : PassState) : Prop where
  values : ∀ v, v ∉ s.taintedValues
  pointers : ∀ p, p ∉ s.taintedPointers
  returning : ∀ f, f ∉ s.functionsReturningTaint
  params : ∀ f n, ¬ s.TaintsParam f n

/-- A tainted instruction of level `0`, with the function levels that come with it. -/
def Anchored (M : Module) (level : PassState → Nat → Prop) (s : PassState) : Prop :=
  s.Nothing ∨ ∃ i ∈ M.insts, .inst i ∈ s.taintedValues ∧ s.valueLevel.lookup (.inst i) = some 0 ∧
    level s i.func

theorem Nothing.congr {s t : PassState} (h : s.Nothing) (hv : t.taintedValues = s.taintedValues)
    (hp : t.taintedPointers = s.taintedPointers)
    (hr : t.functionsReturningTaint = s.functionsReturningTaint)
    (hq : t.functionsTaintingPointerParams = s.functionsTaintingPointerParams) : t.Nothing := by
  refine ⟨fun v => hv ▸ h.values v, fun p => hp ▸ h.pointers p, fun f => hr ▸ h.returning f,
    fun f n hn => h.params f n ?_⟩
  rwa [TaintsParam, hq] at hn

theorem Anchored.step {s t : PassState} {level : PassState → Nat → Prop}
    (hs : s.Anchored M level) (hnothing : s.Nothing → t.Anchored M level) (hfrozen : s.Frozen t)
    (hlevel : ∀ f, level s f → level t f) : t.Anchored M level := by
  rcases hs with hs | ⟨i, hi, hmem, hzero, hl⟩
  · exact hnothing hs
  · refine .inr ⟨i, hi, hfrozen.values _ hmem, ?_, hlevel _ hl⟩
    rw [hfrozen.valueLevel _ hmem, hzero]

theorem not_forwardStep_of_nothing {s t : PassState} (hs : s.Nothing)
    (h : ForwardStep M cfg addr s t) : False := by
  cases h with
  | callLevel hv _ _ _ => exact hs.values _ hv
  | parameter hv _ _ _ _ _ => exact hs.values _ hv
  | returned hv _ _ => exact hs.values _ hv
  | parameterStore hv _ _ _ => exact hs.values _ hv
  | pointer hv _ _ _ => exact hs.values _ hv
  | use hv _ _ => exact hs.values _ hv

theorem nothing_scanStep {s t : PassState} (hs : s.Nothing) (h : ScanStep M s t) : t.Nothing := by
  cases h with
  | kill _ _ => exact hs.congr rfl rfl rfl rfl
  | level _ hp _ _ => exact absurd hp (hs.pointers _)
  | load _ hp _ _ => exact absurd hp (hs.pointers _)

theorem nothing_upwardStep {start s t : PassState} (hs : s.Nothing) (h : UpwardStep M start s t) :
    t.Nothing := by
  cases h with
  | call hf _ _ _ => exact absurd hf (hs.returning _)
  | passThrough hn _ _ _ _ => exact absurd hn (hs.params _ _)
  | pointed hn _ _ _ _ => exact absurd hn (hs.params _ _)
  | field hn _ _ _ _ _ _ _ _ _ _ => exact absurd hn (hs.params _ _)
  | use hv _ _ => exact absurd hv (hs.values _)
  | store hv _ _ => exact absurd hv (hs.values _)
  | parameterStore hv _ _ _ => exact absurd hv (hs.values _)
  | fields =>
    unfold recordFieldAccess
    split
    · exact hs
    · exact hs.congr rfl rfl rfl rfl
  | returned hv _ _ => exact absurd hv (hs.values _)

theorem anchored_seedStep {s t : PassState} (hs : s.Anchored M fun s f => f ∈ s.functionLevel)
    (h : SeedStep M cfg s t) (hfrozen : s.Frozen t) :
    t.Anchored M fun s f => f ∈ s.functionLevel := by
  refine hs.step (fun hnothing => ?_) hfrozen hfrozen.functions
  cases h with
  | @source i ci hseed _ =>
    refine .inr ⟨i, Module.mem_insts_of_mem_operands hseed.operand, DenseSet.mem_insert.mpr (.inl rfl),
      AList.lookup_insert _, ?_⟩
    show i.func ∈ s.functionLevel.insert i.func 0
    exact (AList.mem_insert _).mpr (.inl rfl)
  | returned _ hi _ => exact absurd hi (hnothing.values _)
  | parameterStore _ hi _ _ => exact absurd hi (hnothing.values _)
  | pointer _ hi _ => exact absurd hi (hnothing.values _)
  | parameter _ hi _ _ _ _ => exact absurd hi (hnothing.values _)

end PassState

/-! ## Every point of a run -/

namespace Point

variable {M : Module} {cfg : Config} {addr : Value → Nat}

/-- The levels at a point: those of its phase. -/
structure LevelsAt (M : Module) (m : Point) : Prop where
  forward : m.control.upward = false → m.state.ForwardLevels M ∧
    m.state.Anchored M fun s f => f ∈ s.functionLevel
  upward : m.control.upward = true → m.state.UpwardLevels M ∧
    m.state.Anchored M fun s f => ∃ level ≤ 0, s.functionLevel.lookup f = some level

theorem levelsAt_initialPoint : (initialPoint M cfg).LevelsAt M := by
  obtain ⟨targets, hstate⟩ := initialPoint_state M cfg
  refine ⟨fun _ => ?_, fun h => by cases h⟩
  rw [hstate]
  refine ⟨⟨⟨fun a ha => ?_, fun i hi => ?_⟩, fun v level hl => ?_, fun f level hl => ?_⟩, .inl ?_⟩
  · exact absurd ha (DenseSet.not_mem_empty _)
  · exact absurd hi (DenseSet.not_mem_empty _)
  · cases hl
  · cases hl
  · exact ⟨DenseSet.not_mem_empty, DenseSet.not_mem_empty, DenseSet.not_mem_empty,
      fun f n hn => DenseSet.not_mem_empty n hn⟩

/-- Levels of the points reached, with the entries of values tainted before as they were. -/
theorem levelsAt_of_reaches {m m' : Point} (hvalid : m.Valid M cfg) (hm : m.LevelsAt M)
    (h : Reaches (step M cfg addr) m m') : m'.LevelsAt M ∧ m.state.Frozen m'.state := by
  -- one property for each phase; what was tainted at `m` keeps its level in both
  let F := fun s : PassState => s.ForwardLevels M ∧
    (s.Anchored M fun s f => f ∈ s.functionLevel) ∧ m.state.Frozen s
  let U := fun s : PassState => s.UpwardLevels M ∧
    (s.Anchored M fun s f => ∃ level ≤ 0, s.functionLevel.lookup f = some level) ∧ m.state.Frozen s
  have hkept {s t : PassState} (hst : s.KeepsFunctionLevels t) (f : Nat) :
      (∃ level ≤ 0, s.functionLevel.lookup f = some level) →
        ∃ level ≤ 0, t.functionLevel.lookup f = some level :=
    fun ⟨level, hle, hl⟩ => ⟨level, hle, hst f level hl⟩
  have hnothing {s t : PassState} (hs : s.Nothing) (hb : s.Bookkeeping t) : t.Nothing :=
    hs.congr hb.taintedValues hb.taintedPointers hb.functionsReturningTaint
      hb.functionsTaintingPointerParams
  have hinv := invariant (F := F) (U := U) (M := M) (m := m)
    (fun s t hs hst => by
      obtain ⟨ht, hfrozen⟩ := PassState.forwardLevels_seedStep hs.1 hst
      exact ⟨ht, PassState.anchored_seedStep hs.2.1 hst hfrozen, hs.2.2.trans hfrozen⟩)
    (fun s t hs hst => by
      obtain ⟨ht, hfrozen⟩ := PassState.forwardLevels_forwardStep hs.1 hst
      refine ⟨ht, hs.2.1.step (fun h => ?_) hfrozen hfrozen.functions, hs.2.2.trans hfrozen⟩
      exact absurd hst (PassState.not_forwardStep_of_nothing h))
    (fun s t hs hst => by
      obtain ⟨ht, hfrozen⟩ := PassState.forwardLevels_scanStep hs.1 hst
      refine ⟨ht, hs.2.1.step (fun h => ?_) hfrozen hfrozen.functions, hs.2.2.trans hfrozen⟩
      exact .inl (PassState.nothing_scanStep h hst))
    (fun s t hs hst => by
      have hsame := hst.sameLevels
      refine ⟨hs.1.same hsame, hs.2.1.step (fun h => .inl (hnothing h hst)) hsame.frozen
        hsame.frozen.functions, hs.2.2.trans hsame.frozen⟩)
    -- into the upward phase: the forward levels are at most 0
    (fun s hs => by
      refine ⟨hs.1.upward, hs.2.1.imp_right fun ⟨i, hi, hmem, hzero, hf⟩ => ⟨i, hi, hmem, hzero, ?_⟩,
        hs.2.2⟩
      obtain ⟨level, hl⟩ := Option.isSome_iff_exists.mp (AList.lookup_isSome.mpr hf)
      exact ⟨level, hs.1.functions_le _ level hl, hl⟩)
    (fun _ s t _ hs hst => by
      obtain ⟨ht, hfrozen, hkeeps⟩ := PassState.upwardLevels_upwardStep hs.1 hst
      exact ⟨ht, hs.2.1.step (fun h => .inl (PassState.nothing_upwardStep h hst)) hfrozen
        (hkept hkeeps), hs.2.2.trans hfrozen⟩)
    (fun s t hs hst => by
      obtain ⟨ht, hfrozen, hkeeps⟩ := PassState.upwardLevels_scanStep hs.1 hst
      exact ⟨ht, hs.2.1.step (fun h => .inl (PassState.nothing_scanStep h hst)) hfrozen
        (hkept hkeeps), hs.2.2.trans hfrozen⟩)
    (fun s t hs hst => by
      have hsame := hst.sameLevels
      have hkeeps : s.KeepsFunctionLevels t := fun f l hl => by rw [hsame.functionLevel, hl]
      exact ⟨hs.1.same hsame, hs.2.1.step (fun h => .inl (hnothing h hst)) hsame.frozen
        (hkept hkeeps), hs.2.2.trans hsame.frozen⟩)
    hvalid
    (fun hphase => ⟨(hm.forward hphase).1, (hm.forward hphase).2, .refl _⟩)
    (fun hphase => ⟨(hm.upward hphase).1, (hm.upward hphase).2, .refl _⟩) h
  refine ⟨⟨fun hphase => ?_, fun hphase => ?_⟩, ?_⟩
  · exact ⟨(hinv.1 hphase).1, (hinv.1 hphase).2.1⟩
  · exact ⟨(hinv.2 hphase).1, (hinv.2 hphase).2.1⟩
  · cases hphase : m'.control.upward with
    | false => exact (hinv.1 hphase).2.2
    | true => exact (hinv.2 hphase).2.2

theorem levelsAt_of_reachable {m : Point} (h : Reachable M cfg addr m) : m.LevelsAt M :=
  (levelsAt_of_reaches valid_initialPoint levelsAt_initialPoint h).1

/-- A step that stays in the seeding loops visits one operand. -/
theorem step_to_seeding {m : Point} {rest : List (InstId × Value)} {n : Nat} {found : Bool}
    {t : PassState} (h : step M cfg addr m = some ⟨.seeding rest n found, t⟩) :
    ∃ i op n' found' s, m = ⟨.seeding ((i, op) :: rest) n' found', s⟩ ∧
      t = (seedOperand M cfg i ⟨s, n', found'⟩ op).pass := by
  cases transition_of_step h
  exact ⟨_, _, _, _, _, rfl, rfl⟩

/-- Every seed has level `0` in the seeding loops. -/
theorem seed_level {rest : List (InstId × Value)} {n : Nat} {found : Bool} {s : PassState}
    (h : Reachable M cfg addr ⟨.seeding rest n found, s⟩) {i : InstId}
    (hi : .inst i ∈ s.taintedValues) : s.valueLevel.lookup (.inst i) = some 0 := by
  let Q := fun s : PassState => ∀ i, .inst i ∈ s.taintedValues →
    s.valueLevel.lookup (.inst i) = some 0
  -- only a source sets the level of an instruction while the seeds are chosen
  have hstep (s t : PassState) (hs : Q s) (hst : PassState.SeedStep M cfg s t) : Q t := by
    intro j hj
    have hframe (h : s.SameLevels t) : t.valueLevel.lookup (.inst j) = some 0 := by
      rw [h.valueLevel]
      exact hs j (h.values ▸ hj)
    cases hst with
    | @source i _ _ _ =>
      show (s.valueLevel.insert (.inst i) 0).lookup (.inst j) = some 0
      rw [DenseMap.lookup_insert_ite]
      split
      · rfl
      next hne => exact hs j ((DenseSet.mem_insert.mp hj).resolve_left hne)
    | returned _ _ _ => exact hframe ⟨rfl, rfl, rfl⟩
    | @parameterStore i _ _ ptr a _ _ _ _ =>
      have hrecord := PassState.sameLevels_recordFieldAccess i.func a.no
        (M.extractStructFieldIndices ptr) (s.addTaintingPointerParam i.func a.no)
      exact hframe ⟨hrecord.values, hrecord.valueLevel, hrecord.functionLevel⟩
    | pointer _ _ _ => exact hframe (PassState.sameLevels_taintPointer _ _ s)
    | parameter _ _ _ _ _ hnew =>
      rw [PassState.taintParameter, if_neg hnew] at hj ⊢
      have hj' := (DenseSet.mem_insert.mp hj).resolve_left fun h => by cases h
      show (s.valueLevel.insert _ _).lookup (.inst j) = some 0
      rw [AList.lookup_insert_ne fun h => by cases h]
      exact hs j hj'
  -- the points before a seeding point are seeding points
  have hnext (a b : Point) (hv : a.Valid M cfg)
      (hQ : ∀ rest n found, a.control = .seeding rest n found → Q a.state)
      (hab : step M cfg addr a = some b) (rest : List (InstId × Value)) (n : Nat) (found : Bool)
      (hb : b.control = .seeding rest n found) : Q b.state := by
    obtain ⟨control, t⟩ := b
    cases hb
    obtain ⟨i, op, n', found', s, rfl, rfl⟩ := step_to_seeding hab
    obtain ⟨hi, hop⟩ := hv.pending (i, op) List.mem_cons_self
    have hsteps := PassState.seedOperand_steps hi hop ⟨s, n', found'⟩
    have hs : Q s := hQ _ _ _ rfl
    exact steps_invariant hstep hs hsteps
  have hinv := Reaches.invariant (I := fun m => m.Valid M cfg ∧
    ∀ rest n found, m.control = .seeding rest n found → Q m.state)
    (fun a b hI hab => ⟨(step_spec hI.1 hab).valid, hnext a b hI.1 hI.2 hab⟩) h
    ⟨valid_initialPoint, fun _ _ _ _ => ?_⟩
  · exact hinv.2 rest n found rfl i hi
  · obtain ⟨targets, hstate⟩ := initialPoint_state M cfg
    rw [hstate]
    exact fun i hi => absurd hi (DenseSet.not_mem_empty _)

end Point

namespace PassState

variable {M : Module}

/-- The levels that stand on one another are no more than the functions above the source. -/
theorem UpwardLevels.level_le {s : PassState} (hs : s.UpwardLevels M) {f : Nat} {level : Int}
    (hf : f ∈ M.definedFunctions) (hle : level ≤ 0) (hl : s.functionLevel.lookup f = some level)
    {v : Value} {l : Int} (hv : s.valueLevel.lookup v = some l) : l ≤ M.definedFunctions.card := by
  have hcard : (M.definedFunctions.erase f).card + 1 = M.definedFunctions.card :=
    Finset.card_erase_add_one hf
  rcases hs.values_supported v l hv with hone | ⟨g, hg⟩
  · omega
  · have hbelow (h : Nat) (k : Int) (hk : s.functionLevel.lookup h = some k) (hpos : 0 < k) :
        h ∈ M.definedFunctions.erase f ∧
          (k = 1 ∨ ∃ b, s.functionLevel.lookup b = some (k - 1)) := by
      obtain ⟨hdefined, hsupported⟩ := hs.functions_supported h k hk hpos
      refine ⟨Finset.mem_erase.mpr ⟨?_, hdefined⟩, hsupported.imp_left fun _ => by omega⟩
      rintro rfl
      rw [hl] at hk
      cases hk
      omega
    have hbound := label_le_card (fun g => s.functionLevel.lookup g) hbelow hg
    omega

theorem intMin_le_maxLevel (s : PassState) : intMin ≤ s.maxLevel :=
  foldl_invariant (I := fun m => intMin ≤ m) (fun m e _ hm => by split <;> omega) le_rfl

/-- The largest level is the level of a tainted value, unless it is `INT_MIN`. -/
theorem maxLevel_attained (s : PassState) : s.maxLevel = intMin ∨
    ∃ v ∈ s.taintedValues, s.valueLevel.lookup v = some s.maxLevel := by
  refine foldl_invariant (I := fun m => m = intMin ∨
    ∃ v ∈ s.taintedValues, s.valueLevel.lookup v = some m) (fun m e he hm => ?_) (.inl rfl)
  split
  · obtain ⟨hentry, hv⟩ := List.mem_filter.mp he
    exact .inr ⟨e.1, of_decide_eq_true hv, DenseMap.mem_entries_iff.mp hentry⟩
  · exact hm

end PassState

/-- The largest level at the end of a run that tainted something. -/
theorem maxLevel_of_tainted {M : Module} {cfg : Config} {addr : Value → Nat} {t : PassState}
    (h : Reachable M cfg addr ⟨.finished, t⟩) (hsome : ∃ v, v ∈ t.taintedValues) :
    0 ≤ t.maxLevel ∧ t.maxLevel ≤ M.definedFunctions.card ∧ t.maxLevelInstructions ≠ [] := by
  obtain ⟨hlevels, hanchored⟩ := (Point.levelsAt_of_reachable h).upward rfl
  rcases hanchored with hnothing | ⟨i, hi, hmem, hzero, level, hle, hl⟩
  · obtain ⟨v, hv⟩ := hsome
    exact absurd hv (hnothing.values v)
  · have hnonneg : 0 ≤ t.maxLevel := PassState.le_maxLevel hmem hzero
    rcases PassState.maxLevel_attained t with hmin | ⟨v, hv, hmax⟩
    · rw [hmin] at hnonneg
      exact absurd hnonneg (by decide)
    · refine ⟨hnonneg, hlevels.level_le (Module.func_mem_definedFunctions hi) hle hl hmax, ?_⟩
      -- a parameter cannot have it, being below `0`
      have hvalue := (PassState.ready_of_reachable h).within.values v hv
      cases v with
      | inst j =>
        exact List.ne_nil_of_mem (PassState.mem_maxLevelInstructions.mpr ⟨hv, hmax⟩)
      | arg a =>
        obtain ⟨l, hneg, hlookup⟩ := hlevels.args a hv
        rw [hmax] at hlookup
        cases hlookup
        omega
      | _ => simp [Module.taintable] at hvalue

/-- **Level discipline.**  Along every run the entry of a tainted value stays as it is, a tainted
parameter has a level below `0`, and an instruction tainted as a seed keeps level `0`.  So once a seed
was found the largest level is from `0` to the number of defined functions and belongs to an
instruction, and no run reports a largest level that only parameters have. -/
theorem run_levels (M : Module) (cfg : Config) (addr : Value → Nat) :
    (∀ m m' v, Reachable M cfg addr m → Reaches (step M cfg addr) m m' →
      v ∈ m.state.taintedValues → m'.state.valueLevel.lookup v = m.state.valueLevel.lookup v) ∧
    (∀ m a, Reachable M cfg addr m → .arg a ∈ m.state.taintedValues →
      ∃ level ≤ -1, m.state.valueLevel.lookup (.arg a) = some level) ∧
    (∀ rest n found s m i, Reachable M cfg addr ⟨.seeding rest n found, s⟩ →
      .inst i ∈ s.taintedValues → Reaches (step M cfg addr) ⟨.seeding rest n found, s⟩ m →
      m.state.valueLevel.lookup (.inst i) = some 0) ∧
    (∀ fuel t i, run M cfg addr fuel = some t → .inst i ∈ (seedWorklist M cfg).taintedValues →
      0 ≤ t.maxLevel ∧ t.maxLevel ≤ M.definedFunctions.card ∧ t.maxLevelInstructions ≠ []) ∧
    ∀ fuel t, run M cfg addr fuel = some t → t.maxLevelArguments ≠ [] →
      t.maxLevelInstructions ≠ [] := by
  -- what holds at the seed holds for good, since levels never change
  have hseeds (rest : List (InstId × Value)) (n : Nat) (found : Bool) (s : PassState) (m : Point)
      (i : InstId) (hs : Reachable M cfg addr ⟨.seeding rest n found, s⟩)
      (hi : .inst i ∈ s.taintedValues)
      (hm : Reaches (step M cfg addr) ⟨.seeding rest n found, s⟩ m) :
      m.state.valueLevel.lookup (.inst i) = some 0 := by
    have hfrozen := (Point.levelsAt_of_reaches (Point.valid_of_reachable hs)
      (Point.levelsAt_of_reachable hs) hm).2
    exact (hfrozen.valueLevel _ hi).trans (Point.seed_level hs hi)
  have hargs (m : Point) (a : ArgId) (hm : Reachable M cfg addr m)
      (ha : .arg a ∈ m.state.taintedValues) :
      ∃ level ≤ -1, m.state.valueLevel.lookup (.arg a) = some level := by
    have hlevels := Point.levelsAt_of_reachable hm
    cases hphase : m.control.upward with
    | false => exact (hlevels.forward hphase).1.args a ha
    | true => exact (hlevels.upward hphase).1.args a ha
  refine ⟨fun m m' v hm hm' hv => ?_, hargs, hseeds, fun fuel t i ht hi => ?_, fun fuel t ht harg => ?_⟩
  · exact (Point.levelsAt_of_reaches (Point.valid_of_reachable hm)
      (Point.levelsAt_of_reachable hm) hm').2.valueLevel v hv
  · have hseeded : Reachable M cfg addr
        ⟨.forwardLoop, { seedWorklist M cfg with changed := true }⟩ := seedWorklist_reaches
    have hend := run_reaches ht
    refine maxLevel_of_tainted hend ⟨.inst i, ?_⟩
    rcases Reaches.linear hseeded hend with hforth | hback
    · exact (Point.levelsAt_of_reaches (Point.valid_of_reachable hseeded)
        (Point.levelsAt_of_reachable hseeded) hforth).2.values _ hi
    · -- no step leaves the last point
      rcases Relation.ReflTransGen.cases_head hback with heq | ⟨_, hstep, _⟩
      · cases heq
      · cases hstep
  -- a reported argument is tainted, so something is
  · refine (maxLevel_of_tainted (run_reaches ht) ?_).2.2
    obtain ⟨a, ha⟩ := List.exists_mem_of_ne_nil _ harg
    obtain ⟨v, hv, _⟩ := List.mem_filterMap.mp ha
    obtain ⟨e, he, _⟩ := List.mem_map.mp hv
    have htainted := (List.mem_filter.mp (List.mem_filter.mp he).1).2
    exact ⟨e.1, of_decide_eq_true htainted⟩

end LinuxAnalysis
