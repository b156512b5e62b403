import LinuxAnalysis.Lib.Grouping
import LinuxAnalysis.Lib.Predecessor
import Mathlib.Data.List.Infix
import Mathlib.Data.List.TakeDrop

/-!
# Laying two sequences against each other

`SequenceMatcher` of Python's `difflib`, without junk: the longest common block is kept, of several the
one that starts first, and the stretches before and behind it are compared in the same way.
-/

namespace LinuxAnalysis.Lib

namespace Matcher

variable {α : Type} [DecidableEq α]

/-- The block of `size` elements at `a` in the first sequence and at `b` in the second. -/
structure Block where
  a : Nat
  b : Nat
  size : Nat

/-- How many elements two sequences have in common at their beginning. -/
def commonLength : List α → List α → Nat
  | x :: xs, y :: ys => if x = y then commonLength xs ys + 1 else 0
  | _, _ => 0

/-- The longest block at each pair of positions. -/
def blocks (xs ys : List α) : List Block :=
  (List.range xs.length).flatMap fun i =>
    (List.range ys.length).map fun j => ⟨i, j, commonLength (xs.drop i) (ys.drop j)⟩

/-- `find_longest_match` -/
def findLongestMatch (xs ys : List α) : Block :=
  (Dict.firstMax Block.size (blocks xs ys)).getD ⟨0, 0, 0⟩

inductive Opcode (α : Type) where
  | equal (xs : List α)
  | replace (xs ys : List α)
  | delete (xs : List α)
  | insert (ys : List α)

/-- The opcode of a stretch without common elements. -/
def between : List α → List α → List (Opcode α)
  | [], [] => []
  | x :: xs, [] => [.delete (x :: xs)]
  | [], y :: ys => [.insert (y :: ys)]
  | x :: xs, y :: ys => [.replace (x :: xs) (y :: ys)]

def opcodesFuel : Nat → List α → List α → List (Opcode α)
  | 0, xs, ys => between xs ys
  | n + 1, xs, ys =>
    let m := findLongestMatch xs ys
    if m.size = 0 then between xs ys
    else
      opcodesFuel n (xs.take m.a) (ys.take m.b) ++
        .equal ((xs.drop m.a).take m.size) ::
          opcodesFuel n (xs.drop (m.a + m.size)) (ys.drop (m.b + m.size))

/-- `get_opcodes` -/
def getOpcodes (xs ys : List α) : List (Opcode α) := opcodesFuel xs.length xs ys

/-! ## The longest block -/

/-- `size` elements from `a` on are those from `b` on. -/
def IsBlock (xs ys : List α) (m : Block) : Prop :=
  m.a + m.size ≤ xs.length ∧ m.b + m.size ≤ ys.length ∧
    (xs.drop m.a).take m.size = (ys.drop m.b).take m.size

theorem le_commonLength_iff {k : Nat} {xs ys : List α} :
    k ≤ commonLength xs ys ↔ k ≤ xs.length ∧ k ≤ ys.length ∧ xs.take k = ys.take k := by
  induction xs generalizing ys k with
  | nil =>
    have hzero : commonLength ([] : List α) ys = 0 := by cases ys <;> rfl
    rw [hzero, List.length_nil, Nat.le_zero]
    constructor
    · rintro rfl
      exact ⟨rfl, Nat.zero_le _, rfl⟩
    · exact And.left
  | cons x xs ih =>
    cases ys with
    | nil =>
      rw [commonLength, List.length_nil, Nat.le_zero]
      · constructor
        · rintro rfl
          exact ⟨Nat.zero_le _, rfl, rfl⟩
        · exact fun h => h.2.1
      · rintro _ _ _ _ _ ⟨⟩
    | cons y ys =>
      cases k with
      | zero => simp
      | succ k =>
        rw [commonLength]
        by_cases hxy : x = y
        · rw [if_pos hxy, Nat.add_le_add_iff_right, ih]
          simp [hxy]
        · rw [if_neg hxy]
          simp [hxy]

theorem mem_blocks {xs ys : List α} {m : Block} :
    m ∈ blocks xs ys ↔ m.a < xs.length ∧ m.b < ys.length ∧
      m.size = commonLength (xs.drop m.a) (ys.drop m.b) := by
  rw [blocks, List.mem_flatMap]
  constructor
  · rintro ⟨i, hi, hm⟩
    obtain ⟨j, hj, rfl⟩ := List.mem_map.mp hm
    exact ⟨List.mem_range.mp hi, List.mem_range.mp hj, rfl⟩
  · rintro ⟨ha, hb, hsize⟩
    refine ⟨m.a, List.mem_range.mpr ha, List.mem_map.mpr ⟨m.b, List.mem_range.mpr hb, ?_⟩⟩
    rw [← hsize]

/-- Blocks are listed by their position in the first sequence, then in the second. -/
theorem pairwise_blocks (xs ys : List α) :
    (blocks xs ys).Pairwise fun m n => m.a < n.a ∨ m.a = n.a ∧ m.b < n.b := by
  rw [blocks, List.pairwise_flatMap]
  constructor
  · intro i _
    rw [List.pairwise_map]
    exact List.pairwise_lt_range.imp fun hlt => .inr ⟨rfl, hlt⟩
  · apply List.pairwise_lt_range.imp
    intro i i' hlt m hm n hn
    obtain ⟨j, _, rfl⟩ := List.mem_map.mp hm
    obtain ⟨j', _, rfl⟩ := List.mem_map.mp hn
    exact .inl hlt

/-- `m` is a block that is longer than any other, or as long and before it. -/
def IsFirstLongest (xs ys : List α) (m : Block) : Prop :=
  IsBlock xs ys m ∧ ∀ m', IsBlock xs ys m' → 0 < m'.size → m'.size < m.size ∨
    m'.size ≤ m.size ∧ (m.a < m'.a ∨ m.a = m'.a ∧ m.b ≤ m'.b)

/-- What is found is a block. -/
theorem isBlock_findLongestMatch (xs ys : List α) : IsBlock xs ys (findLongestMatch xs ys) := by
  rw [findLongestMatch]
  cases hbest : Dict.firstMax Block.size (blocks xs ys) with
  | none => exact ⟨Nat.zero_le _, Nat.zero_le _, rfl⟩
  | some m =>
    obtain ⟨ha, hb, hsize⟩ := mem_blocks.mp (Dict.mem_of_firstMax hbest)
    obtain ⟨hxs, hys, htake⟩ := le_commonLength_iff.mp hsize.le
    rw [List.length_drop] at hxs hys
    rw [Option.getD_some]
    exact ⟨by omega, by omega, htake⟩

/-- No block is longer, and none of the same length starts earlier. -/
theorem isFirstLongest_findLongestMatch (xs ys : List α) :
    IsFirstLongest xs ys (findLongestMatch xs ys) := by
  refine ⟨isBlock_findLongestMatch xs ys, ?_⟩
  rintro m ⟨ha, hb, htake⟩ hpos
  -- the longest block at the two positions of `m`
  have hmem : (⟨m.a, m.b, commonLength (xs.drop m.a) (ys.drop m.b)⟩ : Block) ∈ blocks xs ys :=
    mem_blocks.mpr ⟨by dsimp only; omega, by dsimp only; omega, rfl⟩
  have hle : m.size ≤ commonLength (xs.drop m.a) (ys.drop m.b) :=
    le_commonLength_iff.mpr ⟨by rw [List.length_drop]; omega, by rw [List.length_drop]; omega, htake⟩
  cases hbest : Dict.firstMax Block.size (blocks xs ys) with
  | none =>
    rw [Dict.firstMax_eq_none hbest] at hmem
    cases hmem
  | some best =>
    rw [findLongestMatch, hbest, Option.getD_some]
    obtain ⟨pre, post, hsplit, hpre, hpost⟩ := Dict.firstMax_eq_some hbest
    have horder := pairwise_blocks xs ys
    rw [hsplit] at hmem horder
    rcases List.mem_append.mp hmem with h | h
    · exact .inl (lt_of_le_of_lt hle (hpre _ h))
    · rcases List.mem_cons.mp h with h | h
      · rw [← h]
        exact .inr ⟨hle, .inr ⟨rfl, le_rfl⟩⟩
      · refine .inr ⟨hle.trans (hpost _ h), ?_⟩
        rcases (List.pairwise_cons.mp (List.pairwise_append.mp horder).2.1).1 _ h with hlt | ⟨heq, hlt⟩
        · exact .inl hlt
        · exact .inr ⟨heq, le_of_lt hlt⟩

/-! ## The recursion -/

/-- Fuel for the first sequence is enough. -/
theorem opcodesFuel_eq {n m : Nat} {xs ys : List α} (hn : xs.length ≤ n) (hm : xs.length ≤ m) :
    opcodesFuel n xs ys = opcodesFuel m xs ys := by
  induction n generalizing m xs ys with
  | zero =>
    obtain rfl := List.length_eq_zero_iff.mp (Nat.le_zero.mp hn)
    cases m with
    | zero => rfl
    | succ m =>
      have hsize : (findLongestMatch [] ys).size = 0 := by
        have h := (isBlock_findLongestMatch [] ys).1
        rw [List.length_nil] at h
        omega
      rw [opcodesFuel, opcodesFuel, if_pos hsize]
  | succ n ih =>
    obtain ⟨ha, _⟩ := isBlock_findLongestMatch xs ys
    cases m with
    | zero =>
      obtain rfl := List.length_eq_zero_iff.mp (Nat.le_zero.mp hm)
      have hsize : (findLongestMatch [] ys).size = 0 := by
        rw [List.length_nil] at ha
        omega
      rw [opcodesFuel, opcodesFuel, if_pos hsize]
    | succ m =>
      rw [opcodesFuel, opcodesFuel]
      by_cases hsize : (findLongestMatch xs ys).size = 0
      · rw [if_pos hsize, if_pos hsize]
      · rw [if_neg hsize, if_neg hsize]
        rw [ih (m := m) (by rw [List.length_take]; omega) (by rw [List.length_take]; omega),
          ih (m := m) (by rw [List.length_drop]; omega) (by rw [List.length_drop]; omega)]

theorem getOpcodes_of_size_eq_zero {xs ys : List α} (h : (findLongestMatch xs ys).size = 0) :
    getOpcodes xs ys = between xs ys := by
  rw [getOpcodes]
  cases xs.length with
  | zero => rfl
  | succ n =>
    rw [opcodesFuel, if_pos h]

theorem getOpcodes_of_size_ne_zero {xs ys : List α} (h : (findLongestMatch xs ys).size ≠ 0) :
    getOpcodes xs ys =
      let m := findLongestMatch xs ys
      getOpcodes (xs.take m.a) (ys.take m.b) ++ .equal ((xs.drop m.a).take m.size) ::
        getOpcodes (xs.drop (m.a + m.size)) (ys.drop (m.b + m.size)) := by
  obtain ⟨ha, _⟩ := isBlock_findLongestMatch xs ys
  rw [getOpcodes]
  cases hlength : xs.length with
  | zero => omega
  | succ n =>
    rw [opcodesFuel, if_neg h]
    dsimp only
    rw [opcodesFuel_eq (n := n) (by rw [List.length_take]; omega) le_rfl,
      opcodesFuel_eq (n := n) (by rw [List.length_drop]; omega) le_rfl]
    rfl

/-! ## Elements laid against each other -/

/-- The pairs of a stretch that is replaced. -/
def Opcode.replaced : Opcode α → List (α × α)
  | replace xs ys => xs.zip ys
  | _ => []

/-- The pairs that are laid against each other where the longest blocks are taken out first. -/
inductive Laid : List α → List α → List (α × α) → Prop
  | apart {xs ys : List α} (h : ∀ x ∈ xs, x ∉ ys) : Laid xs ys (xs.zip ys)
  | block {xs ys : List α} {m : Block} {ps qs : List (α × α)} (hm : IsFirstLongest xs ys m)
      (hpos : 0 < m.size) (hfront : Laid (xs.take m.a) (ys.take m.b) ps)
      (hback : Laid (xs.drop (m.a + m.size)) (ys.drop (m.b + m.size)) qs) : Laid xs ys (ps ++ qs)

omit [DecidableEq α] in
/-- Two sequences have a block if and only if they have an element in common. -/
theorem exists_block_iff {xs ys : List α} :
    (∃ m, IsBlock xs ys m ∧ 0 < m.size) ↔ ∃ x ∈ xs, x ∈ ys := by
  constructor
  · rintro ⟨m, ⟨ha, _, htake⟩, hpos⟩
    have hlength : 0 < ((xs.drop m.a).take m.size).length := by
      rw [List.length_take, List.length_drop]
      omega
    obtain ⟨x, hx⟩ := List.exists_mem_of_length_pos hlength
    refine ⟨x, List.mem_of_mem_drop (List.mem_of_mem_take hx), ?_⟩
    rw [htake] at hx
    exact List.mem_of_mem_drop (List.mem_of_mem_take hx)
  · rintro ⟨x, hx, hy⟩
    obtain ⟨pre, post, rfl⟩ := List.append_of_mem hx
    obtain ⟨pre', post', rfl⟩ := List.append_of_mem hy
    exact ⟨⟨pre.length, pre'.length, 1⟩, ⟨by simp, by simp, by simp⟩, Nat.one_pos⟩

omit [DecidableEq α] in
theorem IsFirstLongest.unique {xs ys : List α} {m m' : Block} (hm : IsFirstLongest xs ys m)
    (hm' : IsFirstLongest xs ys m') (hpos : 0 < m.size) (hpos' : 0 < m'.size) : m = m' := by
  have hle := hm.2 m' hm'.1 hpos'
  have hge := hm'.2 m hm.1 hpos
  cases m
  cases m'
  rw [Block.mk.injEq]
  dsimp only at hle hge
  omega

omit [DecidableEq α] in
/-- There is one way of laying two sequences. -/
theorem Laid.unique {xs ys : List α} {ps qs : List (α × α)} (hps : Laid xs ys ps)
    (hqs : Laid xs ys qs) : ps = qs := by
  have hnot {xs ys : List α} {m : Block} (h : ∀ x ∈ xs, x ∉ ys) (hm : IsFirstLongest xs ys m)
      (hpos : 0 < m.size) : False := by
    obtain ⟨x, hx, hy⟩ := exists_block_iff.mp ⟨m, hm.1, hpos⟩
    exact h x hx hy
  induction hps generalizing qs with
  | apart h =>
    cases hqs with
    | apart h' => rfl
    | block hm hpos => exact (hnot h hm hpos).elim
  | block hm hpos hfront hback ihfront ihback =>
    cases hqs with
    | apart h => exact (hnot h hm hpos).elim
    | block hm' hpos' hfront' hback' =>
      obtain rfl := hm.unique hm' hpos hpos'
      rw [ihfront hfront', ihback hback']

omit [DecidableEq α] in
theorem replaced_between (xs ys : List α) :
    (between xs ys).flatMap Opcode.replaced = xs.zip ys := by
  cases xs with
  | nil => cases ys <;> rfl
  | cons x xs =>
    cases ys with
    | nil => rfl
    | cons y ys =>
      rw [between, List.flatMap_cons, List.flatMap_nil, List.append_nil]
      rfl

/-- The opcodes lay two sequences in this way. -/
theorem laid_getOpcodes (xs ys : List α) :
    Laid xs ys ((getOpcodes xs ys).flatMap Opcode.replaced) := by
  induction hn : xs.length using Nat.strongRecOn generalizing xs ys with
  | ind n ih =>
    have hm := isFirstLongest_findLongestMatch xs ys
    by_cases hsize : (findLongestMatch xs ys).size = 0
    · rw [getOpcodes_of_size_eq_zero hsize, replaced_between]
      apply Laid.apart
      intro x hx hy
      obtain ⟨m, hblock, hpos⟩ := exists_block_iff.mpr ⟨x, hx, hy⟩
      have hbest := hm.2 m hblock hpos
      omega
    · have ha := hm.1.1
      rw [getOpcodes_of_size_ne_zero hsize]
      dsimp only
      rw [List.flatMap_append, List.flatMap_cons]
      exact .block hm (Nat.pos_of_ne_zero hsize)
        (ih _ (by rw [← hn, List.length_take]; omega) _ _ rfl)
        (ih _ (by rw [← hn, List.length_drop]; omega) _ _ rfl)

section Layouts

omit [DecidableEq α]

/-! ## Opposite positions -/

/-- Positions that are laid against each other: as far from the beginning as each other, or from the
end of a longest block. -/
inductive Opposite : List α → List α → Nat → Nat → Prop
  | apart {xs ys : List α} {i : Nat} (h : ∀ x ∈ xs, x ∉ ys) (hi : i < xs.length)
      (hj : i < ys.length) : Opposite xs ys i i
  | front {xs ys : List α} {m : Block} {i j : Nat} (hm : IsFirstLongest xs ys m) (hpos : 0 < m.size)
      (h : Opposite (xs.take m.a) (ys.take m.b) i j) : Opposite xs ys i j
  | back {xs ys : List α} {m : Block} {i j : Nat} (hm : IsFirstLongest xs ys m) (hpos : 0 < m.size)
      (h : Opposite (xs.drop (m.a + m.size)) (ys.drop (m.b + m.size)) i j) :
      Opposite xs ys (m.a + m.size + i) (m.b + m.size + j)

theorem not_isFirstLongest {xs ys : List α} {m : Block} (h : ∀ x ∈ xs, x ∉ ys)
    (hm : IsFirstLongest xs ys m) (hpos : 0 < m.size) : False := by
  obtain ⟨x, hx, hy⟩ := exists_block_iff.mp ⟨m, hm.1, hpos⟩
  exact h x hx hy

theorem Opposite.lt {xs ys : List α} {i j : Nat} (h : Opposite xs ys i j) :
    i < xs.length ∧ j < ys.length := by
  induction h with
  | apart _ hi hj => exact ⟨hi, hj⟩
  | front _ _ _ ih =>
    rw [List.length_take, List.length_take] at ih
    omega
  | back _ _ _ ih =>
    rw [List.length_drop, List.length_drop] at ih
    omega

theorem opposite_apart_iff {xs ys : List α} {i j : Nat} (h : ∀ x ∈ xs, x ∉ ys) :
    Opposite xs ys i j ↔ i = j ∧ i < xs.length ∧ i < ys.length := by
  constructor
  · intro hopposite
    cases hopposite with
    | apart _ hi hj => exact ⟨rfl, hi, hj⟩
    | front hm hpos => exact (not_isFirstLongest h hm hpos).elim
    | back hm hpos => exact (not_isFirstLongest h hm hpos).elim
  · rintro ⟨rfl, hi, hj⟩
    exact .apart h hi hj

theorem opposite_block_iff {xs ys : List α} {m : Block} {i j : Nat} (hm : IsFirstLongest xs ys m)
    (hpos : 0 < m.size) :
    Opposite xs ys i j ↔ Opposite (xs.take m.a) (ys.take m.b) i j ∨
      ∃ k l, Opposite (xs.drop (m.a + m.size)) (ys.drop (m.b + m.size)) k l ∧
        i = m.a + m.size + k ∧ j = m.b + m.size + l := by
  constructor
  · intro hopposite
    cases hopposite with
    | apart h => exact (not_isFirstLongest h hm hpos).elim
    | front hm' hpos' h =>
      obtain rfl := hm.unique hm' hpos hpos'
      exact .inl h
    | back hm' hpos' h =>
      obtain rfl := hm.unique hm' hpos hpos'
      exact .inr ⟨_, _, h, rfl, rfl⟩
  · rintro (h | ⟨k, l, h, rfl, rfl⟩)
    · exact .front hm hpos h
    · exact .back hm hpos h

/-- Two positions with the elements that stand there. -/
abbrev Place (α : Type) := (Nat × Nat) × (α × α)

/-- The opposite positions with their elements, in their order. -/
structure Places (xs ys : List α) (places : List (Place α)) : Prop where
  order : places.Pairwise fun p q => p.1.1 < q.1.1
  mem : ∀ p, p ∈ places ↔ Opposite xs ys p.1.1 p.1.2 ∧
    xs[p.1.1]? = some p.2.1 ∧ ys[p.1.2]? = some p.2.2

theorem places_apart {xs ys : List α} (h : ∀ x ∈ xs, x ∉ ys) :
    Places xs ys ((xs.zip ys).zipIdx.map fun e => ((e.2, e.2), e.1)) := by
  constructor
  · rw [List.pairwise_map]
    have hindex := List.pairwise_lt_range' (s := 0) (n := (xs.zip ys).length)
    rw [← List.zipIdx_map_snd, List.pairwise_map] at hindex
    exact hindex
  · rintro ⟨⟨i, j⟩, x, y⟩
    rw [List.mem_map, opposite_apart_iff h]
    constructor
    · rintro ⟨⟨t, n⟩, hmem, heq⟩
      rw [List.mk_mem_zipIdx_iff_getElem?] at hmem
      cases heq
      obtain ⟨hx, hy⟩ := List.getElem?_zip_eq_some.mp hmem
      have hi := (List.getElem?_eq_some_iff.mp hx).1
      have hj := (List.getElem?_eq_some_iff.mp hy).1
      exact ⟨⟨rfl, hi, hj⟩, hx, hy⟩
    · rintro ⟨⟨hij, _, _⟩, hx, hy⟩
      obtain rfl : i = j := hij
      refine ⟨((x, y), i), ?_, rfl⟩
      rw [List.mk_mem_zipIdx_iff_getElem?]
      exact List.getElem?_zip_eq_some.mpr ⟨hx, hy⟩

theorem places_block {xs ys : List α} {m : Block} (hm : IsFirstLongest xs ys m) (hpos : 0 < m.size)
    {front back : List (Place α)} (hfront : Places (xs.take m.a) (ys.take m.b) front)
    (hback : Places (xs.drop (m.a + m.size)) (ys.drop (m.b + m.size)) back) :
    Places xs ys
      (front ++ back.map fun p => ((m.a + m.size + p.1.1, m.b + m.size + p.1.2), p.2)) := by
  -- in front of the block the elements are those of the whole sequences
  have htake {i j : Nat} (h : Opposite (xs.take m.a) (ys.take m.b) i j) :
      (xs.take m.a)[i]? = xs[i]? ∧ (ys.take m.b)[j]? = ys[j]? := by
    obtain ⟨hi, hj⟩ := h.lt
    rw [List.length_take] at hi hj
    exact ⟨List.getElem?_take_of_lt (by omega), List.getElem?_take_of_lt (by omega)⟩
  constructor
  · rw [List.pairwise_append, List.pairwise_map]
    refine ⟨hfront.order, hback.order.imp fun hlt => Nat.add_lt_add_left hlt _, ?_⟩
    intro p hp q hq
    obtain ⟨q, _, rfl⟩ := List.mem_map.mp hq
    have hlt := ((hfront.mem p).mp hp).1.lt.1
    rw [List.length_take] at hlt
    dsimp only
    omega
  · rintro ⟨⟨i, j⟩, x, y⟩
    rw [List.mem_append, opposite_block_iff hm hpos, hfront.mem, List.mem_map]
    dsimp only
    constructor
    · rintro (⟨hopposite, hx, hy⟩ | ⟨⟨⟨k, l⟩, t⟩, hp, heq⟩)
      · rw [(htake hopposite).1] at hx
        rw [(htake hopposite).2] at hy
        exact ⟨.inl hopposite, hx, hy⟩
      · cases heq
        obtain ⟨hopposite, hx, hy⟩ := (hback.mem _).mp hp
        rw [List.getElem?_drop] at hx hy
        exact ⟨.inr ⟨k, l, hopposite, rfl, rfl⟩, hx, hy⟩
    · rintro ⟨hopposite | ⟨k, l, hopposite, rfl, rfl⟩, hx, hy⟩
      · exact .inl ⟨hopposite, (htake hopposite).1.trans hx, (htake hopposite).2.trans hy⟩
      · rw [← List.getElem?_drop] at hx hy
        exact .inr ⟨((k, l), (x, y)), (hback.mem _).mpr ⟨hopposite, hx, hy⟩, rfl⟩

/-- The pairs of a layout are the elements at opposite positions, in their order. -/
theorem Laid.exists_places {xs ys : List α} {laid : List (α × α)} (h : Laid xs ys laid) :
    ∃ places : List (Place α), places.map Prod.snd = laid ∧ Places xs ys places := by
  induction h with
  | apart hapart =>
    refine ⟨_, ?_, places_apart hapart⟩
    rw [List.map_map]
    exact List.zipIdx_map_fst 0 _
  | block hm hpos _ _ ihfront ihback =>
    obtain ⟨front, rfl, hfront⟩ := ihfront
    obtain ⟨back, rfl, hback⟩ := ihback
    refine ⟨_, ?_, places_block hm hpos hfront hback⟩
    rw [List.map_append, List.map_map]
    rfl

/-- What a search through a layout finds is found at opposite positions that come first. -/
theorem Laid.findSome?_eq_some_iff {β : Type} {xs ys : List α} {laid : List (α × α)}
    (h : Laid xs ys laid) (f : α × α → Option β) (b : β) :
    laid.findSome? f = some b ↔
      ∃ i j x y, Opposite xs ys i j ∧ xs[i]? = some x ∧ ys[j]? = some y ∧ f (x, y) = some b ∧
        ∀ i' j' x' y', Opposite xs ys i' j' → i' < i → xs[i']? = some x' → ys[j']? = some y' →
          f (x', y') = none := by
  obtain ⟨places, rfl, horder, hmem⟩ := h.exists_places
  have hasymm : ∀ p q : Place α, p.1.1 < q.1.1 → ¬q.1.1 < p.1.1 := fun _ _ => Nat.not_lt_of_lt
  rw [List.findSome?_map, findSome?_eq_some_iff_of_pairwise hasymm horder]
  constructor
  · rintro ⟨⟨⟨i, j⟩, x, y⟩, hp, hf, hfirst⟩
    obtain ⟨hopposite, hx, hy⟩ := (hmem _).mp hp
    exact ⟨i, j, x, y, hopposite, hx, hy, hf, fun i' j' x' y' hopposite' hlt hx' hy' =>
      hfirst ((i', j'), (x', y')) ((hmem _).mpr ⟨hopposite', hx', hy'⟩) hlt⟩
  · rintro ⟨i, j, x, y, hopposite, hx, hy, hf, hfirst⟩
    refine ⟨((i, j), (x, y)), (hmem _).mpr ⟨hopposite, hx, hy⟩, hf, ?_⟩
    rintro ⟨⟨i', j'⟩, x', y'⟩ hp hlt
    obtain ⟨hopposite', hx', hy'⟩ := (hmem _).mp hp
    exact hfirst i' j' x' y' hopposite' hlt hx' hy'

theorem Laid.findSome?_eq_none_iff {β : Type} {xs ys : List α} {laid : List (α × α)}
    (h : Laid xs ys laid) (f : α × α → Option β) :
    laid.findSome? f = none ↔
      ∀ i j x y, Opposite xs ys i j → xs[i]? = some x → ys[j]? = some y → f (x, y) = none := by
  obtain ⟨places, rfl, _, hmem⟩ := h.exists_places
  rw [List.findSome?_map, List.findSome?_eq_none_iff]
  constructor
  · intro hnone i j x y hopposite hx hy
    exact hnone ((i, j), (x, y)) ((hmem _).mpr ⟨hopposite, hx, hy⟩)
  · rintro hnone ⟨⟨i, j⟩, x, y⟩ hp
    obtain ⟨hopposite, hx, hy⟩ := (hmem _).mp hp
    exact hnone i j x y hopposite hx hy

/-! ## Aligned and fresh changes -/

/-- An element that is changed occurs nowhere in the other sequence. -/
def Fresh (ps : List (α × α)) : Prop :=
  ∀ p ∈ ps, p.1 ≠ p.2 → p.1 ∉ ps.map Prod.snd ∧ p.2 ∉ ps.map Prod.fst

theorem Fresh.sublist {ps qs : List (α × α)} (h : Fresh ps) (hsub : qs.Sublist ps) : Fresh qs := by
  intro p hp hne
  obtain ⟨hfst, hsnd⟩ := h p (hsub.subset hp) hne
  exact ⟨fun hmem => hfst ((hsub.map Prod.snd).subset hmem),
    fun hmem => hsnd ((hsub.map Prod.fst).subset hmem)⟩

/-- A stretch without changes is a block. -/
theorem isBlock_of_unchanged {ps : List (α × α)} {i k : Nat} (hle : i + k ≤ ps.length)
    (h : ∀ p ∈ (ps.drop i).take k, p.1 = p.2) :
    IsBlock (ps.map Prod.fst) (ps.map Prod.snd) ⟨i, i, k⟩ := by
  refine ⟨by rwa [List.length_map], by rwa [List.length_map], ?_⟩
  rw [← List.map_drop, ← List.map_drop, ← List.map_take, ← List.map_take]
  exact List.map_congr_left h

/-- In every stretch the first longest block stands at the same place in both sequences. -/
def Aligned (ps : List (α × α)) : Prop :=
  ∀ qs, qs <:+: ps → ∀ m, IsFirstLongest (qs.map Prod.fst) (qs.map Prod.snd) m → 0 < m.size →
    m.a = m.b

theorem Aligned.stretch {ps qs : List (α × α)} (h : Aligned ps) (hin : qs <:+: ps) : Aligned qs :=
  fun _ hrs => h _ (hrs.trans hin)

/-- The elements of a block at one place are unchanged. -/
theorem unchanged_of_isBlock {ps : List (α × α)} {i k : Nat}
    (h : IsBlock (ps.map Prod.fst) (ps.map Prod.snd) ⟨i, i, k⟩) :
    ∀ p ∈ (ps.drop i).take k, p.1 = p.2 := by
  have htake := h.2.2
  dsimp only at htake
  rw [← List.map_drop, ← List.map_drop, ← List.map_take, ← List.map_take] at htake
  exact List.map_inj_left.mp htake

/-- Where changed elements are fresh, the elements of a block are unchanged, and the block at either of its
places alone would be preferred if the two differed. -/
theorem Fresh.aligned {ps : List (α × α)} (h : Fresh ps) : Aligned ps := by
  intro qs hqs m hm hpos
  have hfresh := h.sublist hqs.sublist
  obtain ⟨⟨ha, hb, htake⟩, hbest⟩ := hm
  rw [List.length_map] at ha hb
  rw [← List.map_drop, ← List.map_drop, ← List.map_take, ← List.map_take] at htake
  have hsub (i : Nat) : ((qs.drop i).take m.size).Sublist qs :=
    (List.take_sublist _ _).trans (List.drop_sublist _ _)
  have hfirst : ∀ p ∈ (qs.drop m.a).take m.size, p.1 = p.2 := by
    intro p hp
    by_contra hne
    apply (hfresh p ((hsub m.a).subset hp) hne).1
    have hmem : p.1 ∈ ((qs.drop m.a).take m.size).map Prod.fst := List.mem_map_of_mem hp
    rw [htake] at hmem
    exact ((hsub m.b).map Prod.snd).subset hmem
  have hsecond : ∀ p ∈ (qs.drop m.b).take m.size, p.1 = p.2 := by
    intro p hp
    by_contra hne
    apply (hfresh p ((hsub m.b).subset hp) hne).2
    have hmem : p.2 ∈ ((qs.drop m.b).take m.size).map Prod.snd := List.mem_map_of_mem hp
    rw [← htake] at hmem
    exact ((hsub m.a).map Prod.fst).subset hmem
  have hleft := hbest _ (isBlock_of_unchanged ha hfirst) hpos
  have hright := hbest _ (isBlock_of_unchanged hb hsecond) hpos
  dsimp only at hleft hright
  omega

end Layouts

/-- The block that is found in each stretch stands at one place. -/
def isAligned (ps : List (α × α)) : Bool :=
  (ps.tails.flatMap List.inits).all fun qs =>
    let m := findLongestMatch (qs.map Prod.fst) (qs.map Prod.snd)
    m.size == 0 || m.a == m.b

theorem isAligned_iff {ps : List (α × α)} : isAligned ps = true ↔ Aligned ps := by
  have hstretch {qs : List (α × α)} : qs ∈ ps.tails.flatMap List.inits ↔ qs <:+: ps := by
    rw [List.mem_flatMap, List.infix_iff_prefix_suffix]
    simp only [List.mem_tails, List.mem_inits, and_comm]
  rw [isAligned, List.all_eq_true]
  simp only [hstretch, Bool.or_eq_true, beq_iff_eq]
  constructor
  · intro h qs hqs m hm hpos
    have hfound := isFirstLongest_findLongestMatch (qs.map Prod.fst) (qs.map Prod.snd)
    have hsize : 0 < (findLongestMatch (qs.map Prod.fst) (qs.map Prod.snd)).size := by
      have hlonger := hfound.2 m hm.1 hpos
      omega
    rw [hm.unique hfound hpos hsize]
    exact (h qs hqs).resolve_left (Nat.ne_of_gt hsize)
  · intro h qs hqs
    rcases Nat.eq_zero_or_pos (findLongestMatch (qs.map Prod.fst) (qs.map Prod.snd)).size with hsize | hsize
    · exact .inl hsize
    · exact .inr (h qs hqs _ (isFirstLongest_findLongestMatch _ _) hsize)

instance (ps : List (α × α)) : Decidable (Aligned ps) := decidable_of_iff _ isAligned_iff

/-- **Position by position.**  Where the changes are aligned, the changed pairs are laid against each
other. -/
theorem Laid.eq_filter {ps laid : List (α × α)} (h : Aligned ps)
    (hlaid : Laid (ps.map Prod.fst) (ps.map Prod.snd) laid) :
    laid = ps.filter fun p => p.1 ≠ p.2 := by
  obtain ⟨xs, hxs⟩ : ∃ xs, ps.map Prod.fst = xs := ⟨_, rfl⟩
  obtain ⟨ys, hys⟩ : ∃ ys, ps.map Prod.snd = ys := ⟨_, rfl⟩
  rw [hxs, hys] at hlaid
  induction hlaid generalizing ps with
  -- no common element: nothing on one side occurs on the other, so every pair changed
  | apart hapart =>
    have hchanged : ∀ p ∈ ps, decide (p.1 ≠ p.2) = true := by
      intro p hp
      rw [decide_eq_true_iff]
      intro heq
      apply hapart p.1 (hxs ▸ List.mem_map_of_mem hp)
      rw [heq, ← hys]
      exact List.mem_map_of_mem hp
    rw [List.filter_eq_self.mpr hchanged, ← hxs, ← hys, List.zip_map', List.map_id'']
    intro p
    rfl
  | @block _ _ m _ _ hm hpos _ _ ihfront ihback =>
    subst hxs hys
    have hab : m.a = m.b := h ps List.infix_rfl m hm hpos
    have hblock : IsBlock (ps.map Prod.fst) (ps.map Prod.snd) ⟨m.a, m.a, m.size⟩ := by
      have hblock := hm.1
      rw [IsBlock, ← hab] at hblock
      exact hblock
    -- a block lies on the diagonal, so the filter drops it and the two parts add up
    have hkept : ((ps.drop m.a).take m.size).filter (fun p => p.1 ≠ p.2) = [] := by
      rw [List.filter_eq_nil_iff]
      intro p hp
      simp [unchanged_of_isBlock hblock p hp]
    have hsplit : ps = ps.take m.a ++ ((ps.drop m.a).take m.size ++ ps.drop (m.a + m.size)) := by
      rw [← List.drop_drop, List.take_append_drop, List.take_append_drop]
    have hfront : Aligned (ps.take m.a) := h.stretch ⟨[], _, List.take_append_drop m.a ps⟩
    have hback : Aligned (ps.drop (m.a + m.size)) := h.stretch (List.drop_suffix _ ps).isInfix
    rw [ihfront hfront List.map_take (by rw [← hab, List.map_take]),
      ihback hback List.map_drop (by rw [← hab, List.map_drop])]
    conv_rhs => rw [hsplit]
    rw [List.filter_append, List.filter_append, hkept, List.nil_append]

end Matcher

end LinuxAnalysis.Lib
