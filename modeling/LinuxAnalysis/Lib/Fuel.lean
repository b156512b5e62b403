import LinuxAnalysis.Lib.Dense
import LinuxAnalysis.Lib.Loop
import Mathlib.Data.Finset.Card

/-!
# Enough fuel

A computation under a fuel bound returns when all amounts of fuel from some point on give it the same
result.  A loop returns when its body does and a measure falls with every full turn.  The measures
count what a finite universe still lacks of a growing set.
-/

namespace LinuxAnalysis.Lib

variable {σ τ α : Type}

/-- With enough fuel `f` gives `t`. -/
def Returns (f : Nat → Option σ) (t : σ) : Prop := ∃ n, ∀ m, n ≤ m → f m = some t

theorem Returns.pure (t : σ) : Returns (fun _ => some t) t := ⟨0, fun _ _ => rfl⟩

theorem Returns.map {f : Nat → Option σ} {s : σ} (g : σ → τ) (h : Returns f s) :
    Returns (fun n => (f n).map g) (g s) := by
  obtain ⟨n, hn⟩ := h
  refine ⟨n, fun m hm => ?_⟩
  show (f m).map g = some (g s)
  rw [hn m hm]
  rfl

theorem Returns.bind {f : Nat → Option σ} {g : Nat → σ → Option τ} {s : σ} {t : τ}
    (hf : Returns f s) (hg : Returns (fun n => g n s) t) :
    Returns (fun n => (f n).bind (g n)) t := by
  obtain ⟨n, hn⟩ := hf
  obtain ⟨k, hk⟩ := hg
  refine ⟨max n k, fun m hm => ?_⟩
  show (f m).bind (g m) = some t
  rw [hn m (by omega)]
  exact hk m (by omega)

/-- The value that a returning computation has at one amount of fuel is the one it returns. -/
theorem Returns.eq_some {f : Nat → Option σ} {t : σ} (h : Returns f t) : ∃ n, f n = some t := by
  obtain ⟨n, hn⟩ := h
  exact ⟨n, hn n (Nat.le_refl n)⟩

/-- A loop whose body returns on the states of `I`, keeps `I` and lowers `μ` with every full turn, and
establishes `Q` with the turn that leaves. -/
theorem loop_returns {body : Nat → σ → Option (ForInStep σ)} {I Q : σ → Prop} (μ : σ → Nat)
    (hbody : ∀ s, I s → ∃ r, Returns (fun n => body n s) r ∧
      (∀ t, r = .yield t → I t ∧ μ t < μ s) ∧ ∀ t, r = .done t → Q t) {s : σ} (hs : I s) :
    ∃ t, Returns (fun n => loop (body n) n s) t ∧ Q t := by
  -- the induction lowers the turns left, not the fuel of the body
  have aux (k : Nat) : ∀ s, I s → μ s < k →
      ∃ t, Q t ∧ ∃ n, ∀ m j, n ≤ m → n ≤ j → loop (body m) j s = some t := by
    induction k with
    | zero => intro s _ hlt; omega
    | succ k ih =>
      intro s hs hlt
      obtain ⟨r, ⟨n, hn⟩, hyield, hdone⟩ := hbody s hs
      dsimp only at hn
      cases r with
      | done t =>
        refine ⟨t, hdone t rfl, n + 1, fun m j hm hj => ?_⟩
        obtain ⟨j, rfl⟩ : ∃ j', j = j' + 1 := ⟨j - 1, by omega⟩
        rw [loop, hn m (by omega)]
      | yield t =>
        obtain ⟨ht, hlt'⟩ := hyield t rfl
        obtain ⟨u, hu, n', hn'⟩ := ih t ht (by omega)
        refine ⟨u, hu, n + n' + 1, fun m j hm hj => ?_⟩
        obtain ⟨j, rfl⟩ : ∃ j', j = j' + 1 := ⟨j - 1, by omega⟩
        rw [loop, hn m (by omega)]
        exact hn' m j (by omega) (by omega)
  obtain ⟨t, ht, n, hn⟩ := aux (μ s + 1) s hs (Nat.lt_succ_self _)
  exact ⟨t, ⟨n, fun m hm => hn m m hm hm⟩, ht⟩

theorem whileLoop_returns {cond : σ → Bool} {body : Nat → σ → Option σ} {I : σ → Prop} (μ : σ → Nat)
    (hbody : ∀ s, I s → cond s = true → ∃ t, Returns (fun n => body n s) t ∧ I t ∧ μ t < μ s)
    {s : σ} (hs : I s) : ∃ t, Returns (fun n => whileLoop cond (body n) n s) t ∧ I t := by
  refine loop_returns (I := I) (Q := I) μ (fun s hs => ?_) hs
  cases hc : cond s with
  | false =>
    refine ⟨.done s, ?_, (fun t ht => by cases ht), fun t ht => by cases ht; exact hs⟩
    simp only [Bool.false_eq_true, if_false]
    exact .pure _
  | true =>
    obtain ⟨t, ht, hI, hlt⟩ := hbody s hs hc
    refine ⟨.yield t, ?_, (fun u hu => by cases hu; exact ⟨hI, hlt⟩), fun u hu => by cases hu⟩
    simp only [if_true]
    exact ht.map ForInStep.yield

/-! ## What a universe still lacks -/

/-- The elements of `U` without property `p`, counted. -/
def room (U : Finset α) (p : α → Prop) [DecidablePred p] : Nat := (U.filter fun a => ¬ p a).card

theorem room_le {U : Finset α} {p q : α → Prop} [DecidablePred p] [DecidablePred q]
    (h : ∀ a, p a → q a) : room U q ≤ room U p := by
  apply Finset.card_le_card
  intro a ha
  rw [Finset.mem_filter] at ha ⊢
  exact ⟨ha.1, fun hp => ha.2 (h a hp)⟩

theorem room_lt {U : Finset α} {p q : α → Prop} [DecidablePred p] [DecidablePred q] {a : α}
    (h : ∀ a, p a → q a) (ha : a ∈ U) (hp : ¬ p a) (hq : q a) : room U q < room U p := by
  apply Finset.card_lt_card
  refine Finset.ssubset_iff_subset_ne.mpr ⟨fun b hb => ?_, fun heq => ?_⟩
  · rw [Finset.mem_filter] at hb ⊢
    exact ⟨hb.1, fun hpb => hb.2 (h b hpb)⟩
  · have hmem : a ∈ U.filter fun a => ¬ p a := Finset.mem_filter.mpr ⟨ha, hp⟩
    rw [← heq, Finset.mem_filter] at hmem
    exact hmem.2 hq

end LinuxAnalysis.Lib
