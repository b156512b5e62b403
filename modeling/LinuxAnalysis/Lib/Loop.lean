import Mathlib.Data.List.Sort

/-!
# Loops, folds and sorted iteration

Imperative loops as total functions.  A `while` or `do … break` loop runs under a fuel bound and
returns `none` only when the bound is reached; a `for` loop is a left fold.  The rules below are the
ones used to reason about them: an invariant rule and a two-run rule for loops, and for folds the
transfer of a reflexive and transitive relation and the effect of visiting one element.  A fold whose
turns may fail has rules of its own.
-/

namespace LinuxAnalysis.Lib

variable {σ τ α : Type}

/-- Run `body` until it answers `.done`; `none` when the fuel is used up. -/
def loop (body : σ → Option (ForInStep σ)) : Nat → σ → Option σ
  | 0, _ => none
  | n + 1, s =>
    match body s with
    | none => none
    | some (.done t) => some t
    | some (.yield t) => loop body n t

/-- `while (cond s) s = body s`. -/
def whileLoop (cond : σ → Bool) (body : σ → Option σ) : Nat → σ → Option σ :=
  loop fun s => if cond s then (body s).map .yield else some (.done s)

/-- Partial correctness of a loop: `I` is kept by every full turn, and a turn that leaves the loop
from a state in `I` establishes `Q`. -/
theorem loop_invariant {body : σ → Option (ForInStep σ)} {I Q : σ → Prop}
    (hyield : ∀ s t, I s → body s = some (.yield t) → I t)
    (hdone : ∀ s t, I s → body s = some (.done t) → Q t) {n : Nat} {s t : σ} (hs : I s)
    (h : loop body n s = some t) : Q t := by
  induction n generalizing s with
  | zero => cases h
  | succ n ih =>
    rw [loop] at h
    split at h
    next => cases h
    next u hb =>
      cases h
      exact hdone s t hs hb
    next u hb => exact ih (hyield s u hs hb) h

theorem whileLoop_invariant {cond : σ → Bool} {body : σ → Option σ} {I : σ → Prop}
    (hbody : ∀ s t, I s → cond s = true → body s = some t → I t) {n : Nat} {s t : σ} (hs : I s)
    (h : whileLoop cond body n s = some t) : I t ∧ cond t = false := by
  refine loop_invariant (I := I) (Q := fun t => I t ∧ cond t = false) ?_ ?_ hs h
  · intro s t hI hst
    split at hst
    next hc =>
      obtain ⟨u, hu, hut⟩ := Option.map_eq_some_iff.mp hst
      cases hut
      exact hbody s t hI hc hu
    next => cases hst
  · intro s t hI hst
    split at hst
    next =>
      obtain ⟨u, _, hut⟩ := Option.map_eq_some_iff.mp hst
      cases hut
    next hc =>
      cases hst
      exact ⟨hI, by simpa using hc⟩

theorem whileLoop_succ (cond : σ → Bool) (body : σ → Option σ) (n : Nat) (s : σ) :
    whileLoop cond body (n + 1) s =
      if cond s then (body s).bind (whileLoop cond body n) else some s := by
  rw [whileLoop, loop]
  split
  next hb => cases hc : cond s <;> simp_all
  next t hb => cases hc : cond s <;> simp_all
  next t hb =>
    cases hc : cond s with
    | false => simp [hc] at hb
    | true =>
      simp only [hc, if_true, Option.map_eq_some_iff, ForInStep.yield.injEq] at hb
      obtain ⟨u, hu, rfl⟩ := hb
      simp [hu]

/-- Two runs of loops whose tests agree on related states and whose bodies keep the relation end in
related states, whatever fuel either was given. -/
theorem whileLoop_rel {c₁ : σ → Bool} {c₂ : τ → Bool} {b₁ : σ → Option σ} {b₂ : τ → Option τ}
    {R : σ → τ → Prop} (hcond : ∀ s t, R s t → c₁ s = c₂ t)
    (hbody : ∀ s t s' t', R s t → c₁ s = true → b₁ s = some s' → b₂ t = some t' → R s' t')
    {n m : Nat} {s s' : σ} {t t' : τ} (hR : R s t) (h₁ : whileLoop c₁ b₁ n s = some s')
    (h₂ : whileLoop c₂ b₂ m t = some t') : R s' t' := by
  induction n generalizing m s t with
  | zero => cases h₁
  | succ n ih =>
    cases m with
    | zero => cases h₂
    | succ m =>
      rw [whileLoop_succ] at h₁ h₂
      rw [← hcond s t hR] at h₂
      cases hc : c₁ s with
      | false =>
        simp only [hc, Bool.false_eq_true, if_false, Option.some.injEq] at h₁ h₂
        subst h₁ h₂
        exact hR
      | true =>
        simp only [hc, if_true, Option.bind_eq_some_iff] at h₁ h₂
        obtain ⟨u, hu, hu'⟩ := h₁
        obtain ⟨v, hv, hv'⟩ := h₂
        exact ih (hbody s t u v hR hc hu hv) hu' hv'

/-- A reflexive and transitive relation kept by every turn relates the ends of a fold. -/
theorem foldl_rel {f : σ → α → σ} {R : σ → σ → Prop} (hrefl : ∀ s, R s s)
    (htrans : ∀ s t u, R s t → R t u → R s u) {xs : List α}
    (hstep : ∀ s, ∀ x ∈ xs, R s (f s x)) (s : σ) : R s (xs.foldl f s) := by
  induction xs generalizing s with
  | nil => exact hrefl s
  | cons x xs ih =>
    exact htrans _ _ _ (hstep s x List.mem_cons_self)
      (ih (fun s y hy => hstep s y (List.mem_cons_of_mem x hy)) (f s x))

theorem foldl_invariant {f : σ → α → σ} {I : σ → Prop} {xs : List α}
    (hstep : ∀ s, ∀ x ∈ xs, I s → I (f s x)) {s : σ} (hs : I s) : I (xs.foldl f s) :=
  foldl_rel (R := fun s t => I s → I t) (fun _ h => h) (fun _ _ _ h₁ h₂ h => h₂ (h₁ h)) hstep s hs

/-- What one turn of a fold establishes for its element, and every later turn keeps, holds of each
element at the end. -/
theorem foldl_visits {f : σ → α → σ} {P : α → σ → Prop} (xs : List α)
    (hvisit : ∀ s, ∀ x ∈ xs, P x (f s x))
    (hkeep : ∀ s, ∀ x ∈ xs, ∀ y, P y s → P y (f s x)) (s : σ) :
    ∀ x ∈ xs, P x (xs.foldl f s) := by
  induction xs generalizing s with
  | nil => intro x hx; cases hx
  | cons a xs ih =>
    have hkeep' : ∀ s, ∀ x ∈ xs, ∀ y, P y s → P y (f s x) :=
      fun s x hx => hkeep s x (List.mem_cons_of_mem a hx)
    intro x hx
    rcases List.mem_cons.mp hx with rfl | hx
    · exact foldl_invariant (fun s y hy => hkeep' s y hy x) (hvisit s x List.mem_cons_self)
    · exact ih (fun s y hy => hvisit s y (List.mem_cons_of_mem a hy)) hkeep' (f s a) x hx

/-- An invariant indexed by the elements already visited. -/
theorem foldl_prefix {f : σ → α → σ} {I : List α → σ → Prop} {s : σ} (xs : List α)
    (hnil : I [] s)
    (hstep : ∀ p x q, xs = p ++ x :: q → ∀ t, I p t → I (p ++ [x]) (f t x)) :
    I xs (xs.foldl f s) := by
  have aux (q : List α) : ∀ p t, xs = p ++ q → I p t → I xs (q.foldl f t) := by
    induction q with
    | nil =>
      intro p t hxs hp
      rwa [hxs, List.append_nil]
    | cons x q ih =>
      intro p t hxs hp
      exact ih (p ++ [x]) (f t x) (by rw [hxs, List.append_assoc]; rfl) (hstep p x q hxs t hp)
  exact aux xs [] s rfl hnil

/-! ## Folds that may fail -/

section Failing

variable {f : σ → α → Option σ} {I : σ → Prop} {xs : List α} {s t : σ}

theorem foldlM_invariant (hstep : ∀ s t, ∀ x ∈ xs, I s → f s x = some t → I t) (hs : I s)
    (h : xs.foldlM f s = some t) : I t := by
  induction xs generalizing s with
  | nil => exact Option.some.inj h ▸ hs
  | cons x xs ih =>
    rw [List.foldlM_cons] at h
    obtain ⟨u, hu, h⟩ := Option.bind_eq_some_iff.mp h
    exact ih (fun s t y hy => hstep s t y (List.mem_cons_of_mem x hy))
      (hstep s u x List.mem_cons_self hs hu) h

/-- What held before each turn that ends with it held before the fold. -/
theorem foldlM_backward (hstep : ∀ s t, ∀ x ∈ xs, f s x = some t → I t → I s) (ht : I t)
    (h : xs.foldlM f s = some t) : I s := by
  induction xs generalizing s with
  | nil => exact Option.some.inj h ▸ ht
  | cons x xs ih =>
    rw [List.foldlM_cons] at h
    obtain ⟨u, hu, h⟩ := Option.bind_eq_some_iff.mp h
    exact hstep s u x List.mem_cons_self hu
      (ih (fun s t y hy => hstep s t y (List.mem_cons_of_mem x hy)) h)

theorem foldlM_returns (hstep : ∀ s, ∀ x ∈ xs, I s → ∃ t, f s x = some t ∧ I t) (hs : I s) :
    ∃ t, xs.foldlM f s = some t ∧ I t := by
  induction xs generalizing s with
  | nil => exact ⟨s, rfl, hs⟩
  | cons x xs ih =>
    obtain ⟨u, hu, hIu⟩ := hstep s x List.mem_cons_self hs
    obtain ⟨t, ht, hIt⟩ := ih (fun s y hy => hstep s y (List.mem_cons_of_mem x hy)) hIu
    exact ⟨t, by rw [List.foldlM_cons, hu]; exact ht, hIt⟩

theorem foldlM_mono {f' : σ → α → Option σ} (hstep : ∀ s x t, f s x = some t → f' s x = some t)
    (h : xs.foldlM f s = some t) : xs.foldlM f' s = some t := by
  induction xs generalizing s with
  | nil => exact h
  | cons x xs ih =>
    rw [List.foldlM_cons] at h ⊢
    obtain ⟨u, hu, h⟩ := Option.bind_eq_some_iff.mp h
    rw [hstep s x u hu]
    exact ih h

/-- Where no turn fails, the fold is an ordinary one. -/
theorem foldlM_total {g : σ → α → σ} (hstep : ∀ s x, f s x = some (g s x)) (xs : List α) (s : σ) :
    xs.foldlM f s = some (xs.foldl g s) := by
  induction xs generalizing s with
  | nil => rfl
  | cons x xs ih =>
    rw [List.foldlM_cons, hstep]
    exact ih (g s x)

end Failing

/-! ## Sorted iteration -/

/-- Elements in increasing order of a numeric key. -/
def sortOn (key : α → Nat) (xs : List α) : List α :=
  xs.insertionSort fun a b => key a ≤ key b

@[simp] theorem mem_sortOn {key : α → Nat} {xs : List α} {x : α} : x ∈ sortOn key xs ↔ x ∈ xs :=
  (List.perm_insertionSort _ xs).mem_iff

/-- Where all matches agree, the keys do not matter to what the first match in order gives. -/
theorem find?_sortOn_congr {β : Type} {f : α → β} {p : α → Bool} {xs : List α}
    (hagree : ∀ x ∈ xs, ∀ y ∈ xs, p x = true → p y = true → f x = f y) (k₁ k₂ : α → Nat) :
    ((sortOn k₁ xs).find? p).map f = ((sortOn k₂ xs).find? p).map f := by
  cases hx : (sortOn k₁ xs).find? p with
  | none =>
    have hnone : (sortOn k₂ xs).find? p = none := List.find?_eq_none.mpr fun y hy =>
      List.find?_eq_none.mp hx y (mem_sortOn.mpr (mem_sortOn.mp hy))
    rw [hnone]
  | some x =>
    have hxs := mem_sortOn.mp (List.mem_of_find?_eq_some hx)
    cases hy : (sortOn k₂ xs).find? p with
    | none =>
      exact absurd (List.find?_some hx) (List.find?_eq_none.mp hy x (mem_sortOn.mpr hxs))
    | some y =>
      have hys := mem_sortOn.mp (List.mem_of_find?_eq_some hy)
      exact congrArg some (hagree x hxs y hys (List.find?_some hx) (List.find?_some hy))

end LinuxAnalysis.Lib
