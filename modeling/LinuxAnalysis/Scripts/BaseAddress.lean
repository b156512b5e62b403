import LinuxAnalysis.Lib.Predecessor
import LinuxAnalysis.Scripts.Tables

/-!
# Two searches for the function that contains an address

The relocation step looks for the greatest text symbol below a span, the search for an inlined line
for the greatest one that is not above an address.  They differ at the entry of a function.
-/

open LinuxAnalysis.Lib

namespace LinuxAnalysis

namespace IrToAssembly

section Tables

variable [Unicode]

/-- A text symbol below `a`. -/
def NmRow.IsBelow (a : Int) (row : NmRow) : Prop :=
  row.isText = true ∧ ∃ b, row.addrInt = some b ∧ b < a

/-- A text symbol that is not above `a`. -/
def NmRow.IsAtMost (a : Int) (row : NmRow) : Prop :=
  row.isText = true ∧ ∃ b, row.addrInt = some b ∧ b ≤ a

def NmRow.address (row : NmRow) : Int := row.addrInt.getD 0

theorem findBestBaseAddressBelowSpan_spec (nm : Text) {minAddr : Text} {m : Int}
    (hm : Str.int 16 minAddr = some m) :
    SearchResult NmRow.address (NmRow.IsBelow m) (nmRows nm)
      (findBestBaseAddressBelowSpan nm minAddr) := by
  rw [findBestBaseAddressBelowSpan, hm]
  refine foldl_searchResult (fun best row hrow => ?_) (fun row hrow => ?_)
    (fun best row hbest hrow => ?_) (nmRows nm)
  · unfold bestBelow
    split
    next htext =>
      split
      next => rfl
      next b hb =>
        rw [if_neg fun hlt => hrow ⟨htext, b, hb, hlt⟩]
    next => rfl
  · obtain ⟨htext, b, hb, hlt⟩ := hrow
    rw [bestBelow, if_pos htext, hb]
    exact if_pos hlt
  · obtain ⟨htext, b, hb, hlt⟩ := hrow
    obtain ⟨_, c, hc, _⟩ := hbest
    rw [bestBelow, if_pos htext, hb]
    dsimp only
    rw [if_pos hlt, Option.bind_some, hc, NmRow.address, NmRow.address, hb, hc]
    rfl

/-! ## The ranges of the functions -/

/-- The entry that a text symbol with a readable address makes. -/
def NmRow.symbol (row : NmRow) : Option (Text × Int) :=
  if row.isText then row.addrInt.map fun b => (row.name, b) else none

theorem NmRow.symbol_eq_some {row : NmRow} {f : Text} {b : Int} :
    row.symbol = some (f, b) ↔ row.isText = true ∧ row.addrInt = some b ∧ row.name = f := by
  unfold NmRow.symbol
  split
  next h =>
    rw [Option.map_eq_some_iff]
    constructor
    · rintro ⟨c, hc, heq⟩
      cases heq
      exact ⟨h, hc, rfl⟩
    · rintro ⟨_, hb, rfl⟩
      exact ⟨b, hb, rfl⟩
  next h => exact iff_of_false (fun h' => by cases h') fun h' => h h'.1

/-- With distinct names no entry replaces another. -/
theorem functionRanges_eq {nm : Text}
    (hnames : (((nmRows nm).filter NmRow.isText).map NmRow.name).Nodup) :
    functionRanges nm = (nmRows nm).filterMap NmRow.symbol := by
  have hfold : functionRanges nm = ((nmRows nm).filterMap NmRow.symbol).foldl
      (fun (d : Dict Text Int) e => d.set e.1 e.2) [] := by
    rw [List.foldl_filterMap, functionRanges]
    congr 1
    funext d row
    unfold NmRow.symbol
    cases htext : row.isText <;> cases hb : row.addrInt <;> rfl
  have hkeys : ((nmRows nm).filterMap NmRow.symbol).map Prod.fst =
      ((nmRows nm).filter fun row => row.isText && row.addrInt.isSome).map NmRow.name := by
    induction nmRows nm with
    | nil => rfl
    | cons row rows ih =>
      have hrow : row.symbol =
          if row.isText then row.addrInt.map fun b => (row.name, b) else none := rfl
      rw [List.filterMap_cons, List.filter_cons, hrow]
      cases htext : row.isText <;> cases hb : row.addrInt <;> simp [ih]
  rw [hfold, Dict.foldl_set_eq_append]
  · rfl
  · rw [List.nil_append, hkeys]
    refine hnames.sublist (List.Sublist.map _ ?_)
    exact List.monotone_filter_right _ fun row h => (Bool.and_eq_true_iff.mp h).1

theorem mem_symbols {nm : Text} {f : Text} {b : Int} :
    (f, b) ∈ (nmRows nm).filterMap NmRow.symbol ↔
      ∃ row ∈ nmRows nm, row.isText = true ∧ row.addrInt = some b ∧ row.name = f := by
  rw [List.mem_filterMap]
  exact exists_congr fun row => and_congr_right fun _ => NmRow.symbol_eq_some

/-- The base that the search for an inlined line takes for an address: the entry of the function that
contains it. -/
def containingBase (nm : Text) (a : Int) : Option Int :=
  (containingFunction ((functionRanges nm).insertionSort fun f g => f.2 ≤ g.2) a).bind fun f =>
    (functionRanges nm).lookup f

/-- It is the greatest address of a text symbol that is not above `a`. -/
theorem containingBase_spec {nm : Text} {a : Int}
    (hnames : (((nmRows nm).filter NmRow.isText).map NmRow.name).Nodup)
    (hlow : ∃ row ∈ nmRows nm, row.IsAtMost a) :
    ∃ row b, GreatestOf NmRow.address (NmRow.IsAtMost a) (nmRows nm) row ∧
      row.addrInt = some b ∧ containingBase nm a = some b := by
  have hranges := functionRanges_eq hnames
  -- no name occurs twice, so the dictionary loses no row
  have hkeys : ((functionRanges nm).map Prod.fst).Nodup :=
    foldl_invariant (I := fun d : Dict Text Int => (d.map Prod.fst).Nodup) (fun d row _ hd => by
      split
      next addr _ _ => exact Dict.nodup_set hd row.name addr
      next => exact hd) List.nodup_nil
  have hsorted : ((functionRanges nm).insertionSort fun f g => f.2 ≤ g.2).Pairwise
      fun f g => f.2 ≤ g.2 := List.pairwise_insertionSort _ _
  have hsearch := searchResult_takeWhile (a := a) hsorted
  unfold containingBase containingFunction
  cases hlast : ((functionRanges nm).insertionSort fun f g => f.2 ≤ g.2).takeWhile
      (fun f => decide (f.2 ≤ a)) |>.getLast? with
  -- the search stops at the first address above, and some row is not above
  | none =>
    rw [hlast] at hsearch
    obtain ⟨row, hrow, htext, b, hb, hle⟩ := hlow
    have hmem : (row.name, b) ∈ (functionRanges nm).insertionSort fun f g => f.2 ≤ g.2 := by
      rw [List.mem_insertionSort, hranges]
      exact mem_symbols.mpr ⟨row, hrow, htext, hb, rfl⟩
    exact absurd hle (hsearch _ hmem)
  | some e =>
    rw [hlast] at hsearch
    obtain ⟨hmem, hle, hmax⟩ := hsearch
    rw [List.mem_insertionSort] at hmem
    have hrow : (e.1, e.2) ∈ (nmRows nm).filterMap NmRow.symbol := by
      rwa [hranges] at hmem
    obtain ⟨row, hrow, htext, hb, hname⟩ := mem_symbols.mp hrow
    refine ⟨row, e.2, ⟨hrow, ⟨htext, e.2, hb, hle⟩, ?_⟩, hb, ?_⟩
    -- every row that starts at or below was in reach of the search
    · rintro row' hrow' ⟨htext', b', hb', hle'⟩
      have hmem' : (row'.name, b') ∈ (functionRanges nm).insertionSort fun f g => f.2 ≤ g.2 := by
        rw [List.mem_insertionSort, hranges]
        exact mem_symbols.mpr ⟨row', hrow', htext', hb', rfl⟩
      rw [NmRow.address, NmRow.address, hb', hb]
      exact hmax _ hmem' hle'
    · rw [Option.map_some, Option.bind_some]
      exact (Dict.lookup_eq_some_iff hkeys).mpr hmem

/-! ## Relocation and containment -/

/-- The relocation step moves address `a` to a text symbol with the greatest address that is not above
it, the one the search for an inlined line takes. -/
def PicksContaining (nm minAddr : Text) (a : Int) : Prop :=
  ∃ row b, findBestBaseAddressBelowSpan nm minAddr = some row ∧
    GreatestOf NmRow.address (NmRow.IsAtMost a) (nmRows nm) row ∧ row.addrInt = some b ∧
    containingBase nm a = some b

/-- **Relocation.**  The base found for an address that is not below the lowest text symbol is that of
the containing function, if and only if no text symbol is at the address itself. -/
theorem findBestBaseAddressBelowSpan_containing_iff (nm minAddr : Text) (a : Int)
    (ha : Str.int 16 minAddr = some a)
    (hnames : (((nmRows nm).filter NmRow.isText).map NmRow.name).Nodup)
    (hlow : ∃ row ∈ nmRows nm, row.IsAtMost a) :
    PicksContaining nm minAddr a ↔
      ∀ row ∈ nmRows nm, row.isText = true → row.addrInt ≠ some a := by
  have hspec := findBestBaseAddressBelowSpan_spec nm ha
  constructor
  · rintro ⟨best, b, hfound, hgreatest, _⟩ row hrow htext hentry
    rw [hfound] at hspec
    obtain ⟨_, ⟨_, c, hc, hlt⟩, _⟩ := hspec
    have hle := hgreatest.2.2 row hrow ⟨htext, a, hentry, le_refl a⟩
    rw [NmRow.address, NmRow.address, hentry, hc, Option.getD_some, Option.getD_some] at hle
    omega
  · intro hnone
    -- without a symbol at the address both searches admit the same rows
    have hagree : ∀ row ∈ nmRows nm, (row.IsAtMost a ↔ row.IsBelow a) := by
      intro row hrow
      refine and_congr_right fun htext => exists_congr fun b => and_congr_right fun hb => ?_
      have hne : b ≠ a := fun hba => hnone row hrow htext (hba ▸ hb)
      omega
    obtain ⟨top, b, htop, hb, hbase⟩ := containingBase_spec hnames hlow
    cases hfound : findBestBaseAddressBelowSpan nm minAddr with
    | none =>
      rw [hfound] at hspec
      exact absurd ((hagree top htop.1).mp htop.2.1) (hspec top htop.1)
    | some row =>
      rw [hfound] at hspec
      have hrow : GreatestOf NmRow.address (NmRow.IsAtMost a) (nmRows nm) row :=
        ⟨hspec.1, (hagree row hspec.1).mpr hspec.2.1,
          fun y hy hpy => hspec.2.2 y hy ((hagree y hy).mp hpy)⟩
      refine ⟨row, b, hfound, hrow, ?_, hbase⟩
      obtain ⟨_, c, hc, _⟩ := hrow.2.1
      have hkey := hrow.key_eq htop
      rw [NmRow.address, NmRow.address, hc, hb] at hkey
      rw [hc]
      exact congrArg some hkey

end Tables

/-- A function and the padding symbol in front of it. -/
def paddedNm : Text := "1000 T __pfx_f\n1010 T f\n".toList

theorem findBestBaseAddressBelowSpan_containing_iff_inside :
    ∃ _ : Unicode, PicksContaining paddedNm "1014".toList 0x1014 := by
  let _ := Unicode.ascii
  refine ⟨_, (findBestBaseAddressBelowSpan_containing_iff paddedNm "1014".toList 0x1014 (by decide)
    (by decide) ?_).mpr (by decide)⟩
  exact ⟨⟨"1010".toList, ['T'], ['f']⟩, by decide, by decide, 0x1010, by decide, by decide⟩

/-- At the entry of `f` the padding symbol is taken. -/
theorem findBestBaseAddressBelowSpan_misses_entry :
    ¬ ∀ (_ : Unicode) (nm minAddr : Text) (a : Int), Str.int 16 minAddr = some a →
      (((nmRows nm).filter NmRow.isText).map NmRow.name).Nodup →
      (∃ row ∈ nmRows nm, row.IsAtMost a) → PicksContaining nm minAddr a := by
  intro hall
  let _ := Unicode.ascii
  have hpicks := hall Unicode.ascii paddedNm "1010".toList 0x1010 (by decide) (by decide)
    ⟨⟨"1000".toList, ['T'], "__pfx_f".toList⟩, by decide, by decide, 0x1000, by decide, by decide⟩
  obtain ⟨row, b, hfound, _, hb, hbase⟩ := hpicks
  have hrow : (findBestBaseAddressBelowSpan paddedNm "1010".toList).bind NmRow.addrInt =
      some 0x1000 := by decide
  have hcontaining : containingBase paddedNm 0x1010 = some 0x1010 := by decide
  rw [hfound, Option.bind_some, hb] at hrow
  rw [hbase, hrow] at hcontaining
  exact absurd hcontaining (by decide)

end IrToAssembly

end LinuxAnalysis
