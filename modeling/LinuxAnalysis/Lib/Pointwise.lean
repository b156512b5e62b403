import Mathlib.Data.List.Forall2

/-!
# Lists related element by element
-/

namespace LinuxAnalysis.Lib

variable {α β γ : Type}

theorem forall₂_left {r : α → β → Prop} {xs : List α} {ys : List β} (h : List.Forall₂ r xs ys) :
    ∀ x ∈ xs, ∃ y ∈ ys, r x y := by
  induction h with
  | nil => exact fun x hx => by cases hx
  | cons hxy _ ih =>
    intro x hx
    rcases List.mem_cons.mp hx with rfl | hx
    · exact ⟨_, List.mem_cons_self, hxy⟩
    · obtain ⟨y, hy, hr⟩ := ih x hx
      exact ⟨y, List.mem_cons_of_mem _ hy, hr⟩

theorem forall₂_right {r : α → β → Prop} {xs : List α} {ys : List β} (h : List.Forall₂ r xs ys) :
    ∀ y ∈ ys, ∃ x ∈ xs, r x y :=
  forall₂_left (r := flip r) (List.Forall₂.flip h)

theorem mapM_eq_some_iff {g : α → Option β} {xs : List α} {ys : List β} :
    xs.mapM g = some ys ↔ List.Forall₂ (fun x y => g x = some y) xs ys := by
  induction xs generalizing ys with
  | nil =>
    rw [List.mapM_nil, List.forall₂_nil_left_iff]
    exact ⟨fun h => (Option.some.inj h).symm, fun h => h ▸ rfl⟩
  | cons x xs ih =>
    rw [List.mapM_cons, List.forall₂_cons_left_iff]
    constructor
    · intro h
      obtain ⟨y, hy, hrest⟩ := Option.bind_eq_some_iff.mp h
      obtain ⟨zs, hzs, hys⟩ := Option.bind_eq_some_iff.mp hrest
      exact ⟨y, zs, hy, ih.mp hzs, (Option.some.inj hys).symm⟩
    · rintro ⟨y, zs, hy, hzs, rfl⟩
      rw [hy, ih.mpr hzs]
      rfl

theorem isSome_mapM_iff {g : α → Option β} {xs : List α} :
    (xs.mapM g).isSome = true ↔ ∀ x ∈ xs, (g x).isSome = true := by
  constructor
  · intro h x hx
    obtain ⟨ys, hys⟩ := Option.isSome_iff_exists.mp h
    obtain ⟨y, _, hy⟩ := forall₂_left (mapM_eq_some_iff.mp hys) x hx
    rw [hy]
    rfl
  · intro h
    induction xs with
    | nil => rfl
    | cons x xs ih =>
      obtain ⟨hx, hxs⟩ := List.forall_mem_cons.mp h
      obtain ⟨y, hy⟩ := Option.isSome_iff_exists.mp hx
      obtain ⟨ys, hys⟩ := Option.isSome_iff_exists.mp (ih hxs)
      rw [List.mapM_cons, hy, hys]
      rfl

theorem mapM_congr_forall₂ {g : α → Option γ} {h : β → Option γ} {xs : List α} {ys : List β}
    (hxy : List.Forall₂ (fun x y => g x = h y) xs ys) : xs.mapM g = ys.mapM h := by
  induction hxy with
  | nil => rfl
  | cons hhead _ ih => rw [List.mapM_cons, List.mapM_cons, hhead, ih]

/-- What is left of the second list is related to a part of the first, in order. -/
theorem forall₂_filterMap_right {r : α → β → Prop} {g : β → Option γ} {xs : List α} {ys : List β}
    (h : List.Forall₂ r xs ys) : ∃ xs', xs'.Sublist xs ∧
      List.Forall₂ (fun x z => ∃ y, r x y ∧ g y = some z) xs' (ys.filterMap g) := by
  induction h with
  | nil => exact ⟨[], .slnil, .nil⟩
  | @cons x y xs ys hxy _ ih =>
    obtain ⟨xs', hsub, hrel⟩ := ih
    cases hy : g y with
    | none =>
      rw [List.filterMap_cons_none hy]
      exact ⟨xs', hsub.cons x, hrel⟩
    | some z =>
      rw [List.filterMap_cons_some hy]
      exact ⟨x :: xs', hsub.cons_cons x, .cons ⟨y, hxy, hy⟩ hrel⟩

/-- Two relations meet in a common list exactly when they meet at each element. -/
theorem exists_forall₂_iff {m : α → β → Prop} {r : β → γ → Prop} {s : α → γ → Prop} {p : α → Prop}
    {xs : List α} {ys : List β} (h : List.Forall₂ m xs ys)
    (hp : ∀ x ∈ xs, ∀ y, m x y → ((∃ z, r y z ∧ s x z) ↔ p x)) :
    (∃ zs, List.Forall₂ r ys zs ∧ List.Forall₂ s xs zs) ↔ ∀ x ∈ xs, p x := by
  induction h with
  | nil => exact ⟨fun _ _ hx => (by cases hx), fun _ => ⟨[], .nil, .nil⟩⟩
  | @cons x y xs ys hxy _ ih =>
    have hhead := hp x List.mem_cons_self y hxy
    have htail := ih fun x hx => hp x (List.mem_cons_of_mem _ hx)
    rw [List.forall_mem_cons, ← hhead, ← htail]
    constructor
    · rintro ⟨_, hr, hs⟩
      cases hr with
      | cons hr hrs =>
        cases hs with
        | cons hs hss => exact ⟨⟨_, hr, hs⟩, _, hrs, hss⟩
    · rintro ⟨⟨z, hr, hs⟩, zs, hrs, hss⟩
      exact ⟨z :: zs, .cons hr hrs, .cons hs hss⟩

end LinuxAnalysis.Lib
