import LinuxAnalysis.Lib.Predecessor
import LinuxAnalysis.Scripts.Listing
import Mathlib.Algebra.Order.Group.Abs
import Mathlib.Algebra.Order.Group.Int

/-!
# ir_to_assembly.py: the nearest line with instructions

`try_nearby_lines_objdump` goes through the lines around the wanted one and scans the listing again for
each of them.  The scans agree with one reading of the listing, and the order of the candidates makes
the first line with instructions the nearest one.
-/

open LinuxAnalysis.Lib

namespace LinuxAnalysis

namespace IrToAssembly

/-! ## The script -/

/-- `current_file`, `current_line` and `addresses` -/
structure NearbyScan where
  currentFile : Option Text
  currentLine : Option Int
  addresses : List Text

section Nearby

variable [Unicode]

/-- One line of a scan; `none` is an exception of `int`. -/
def nearbyLine (normalizedSource : Text) (tryLine : Int) (s : NearbyScan) (line : Text) :
    Option NearbyScan :=
  match Regex.matchStart sourceRE line with
  | some m =>
    (Str.int 10 ((m.group 2).getD [])).map fun n =>
      { s with currentFile := m.group 1, currentLine := some n }
  | none =>
    match Regex.matchStart addressRE line with
    | none => some s
    | some m =>
      -- an instruction belongs to the last source line above it
      match present s.currentFile, s.currentLine.filter (· ≠ 0) with
      | some currentFile, some currentLine =>
        let normCurrent := normalizePath currentFile
        if (Str.endswith normCurrent normalizedSource || Str.endswith normalizedSource normCurrent) &&
            currentLine == tryLine then
          some { s with addresses := s.addresses ++ [(m.group 1).getD []] }
        else some s
      | _, _ => some s

/-- The scan for one candidate. -/
def nearbyAddresses (listing sourceFile : Text) (tryLine : Int) : Option (List Text) :=
  ((Str.splitlines listing).foldlM (nearbyLine (normalizePath sourceFile) tryLine)
    ⟨none, none, []⟩).map NearbyScan.addresses

/-- The candidates: `target-1, target+1, target-2, target+2, …` -/
def nearbyOffsets (targetLine searchRange : Int) : List Int :=
  (List.range searchRange.toNat).flatMap fun i : Nat =>
    [targetLine - (i + 1 : Int), targetLine + (i + 1 : Int)]

/-- The loop over the candidates; the inner `none` is `(None, None)`. -/
def tryNearbyOffsets (listing sourceFile : Text) : List Int → Option (Option (Int × List Text))
  | [] => some none
  | tryLine :: offsets =>
    if tryLine ≤ 0 then tryNearbyOffsets listing sourceFile offsets
    else
      (nearbyAddresses listing sourceFile tryLine).bind fun addresses =>
        if addresses.isEmpty then tryNearbyOffsets listing sourceFile offsets
        else some (some (tryLine, addresses))

/-- `try_nearby_lines_objdump` -/
def tryNearbyLines (listing sourceFile : Text) (targetLine searchRange : Int) :
    Option (Option (Int × List Text)) :=
  tryNearbyOffsets listing sourceFile (nearbyOffsets targetLine searchRange)

/-! ## Attribution by position -/

/-- Line `k` as an instruction, with the last source read above it. -/
def attributedAt (lines : List Text) (k : Nat) : Option Attribution :=
  lines[k]?.bind (attributed (inForce none (lines.take k)))

/-- The addresses of the instructions of a source line, in the order of the listing. -/
def instructionsAt (listing sourceFile : Text) (lineNumber : Int) : List Text :=
  lineAddresses ((List.range (Str.splitlines listing).length).filterMap
    (attributedAt (Str.splitlines listing))) sourceFile lineNumber

/-- Reading line by line is reading by position. -/
theorem scanRows_eq_filterMap (lines : List Text) :
    scanRows none lines = (List.range lines.length).filterMap (attributedAt lines) := by
  induction lines using List.reverseRecOn with
  | nil => rfl
  | append_singleton lines line ih =>
    have hfront : (List.range lines.length).filterMap (attributedAt (lines ++ [line])) =
        (List.range lines.length).filterMap (attributedAt lines) := by
      refine List.filterMap_congr fun k hk => ?_
      have hk' : k < lines.length := List.mem_range.mp hk
      rw [attributedAt, attributedAt, List.getElem?_append_left hk',
        List.take_append_of_le_length hk'.le]
    have hlast : attributedAt (lines ++ [line]) lines.length =
        attributed (inForce none lines) line := by
      rw [attributedAt, List.getElem?_append_right le_rfl, Nat.sub_self, List.take_left']
      · rfl
      · rfl
    rw [scanRows_append, ih, List.length_append, List.length_singleton, List.range_succ,
      List.filterMap_append, hfront, List.filterMap_cons, hlast, scanRows, scanRows]
    cases attributed (inForce none lines) line <;> rfl

/-- A source that is read has a file and a line that is not negative. -/
theorem of_reading {line file : Text} {n : Int} (h : reading line = some (file, n)) :
    file ≠ [] ∧ 0 ≤ n := by
  obtain ⟨m, hm, _⟩ := Option.bind_eq_some_iff.mp h
  obtain ⟨file', k, hne, _, _, hreading⟩ := isSome_reading hm
  obtain ⟨rfl, rfl⟩ := Prod.mk.inj (Option.some.inj (h.symm.trans hreading))
  exact ⟨hne, Int.natCast_nonneg k⟩

/-! ## One scan -/

omit [Unicode] in
theorem isAt_mk {sourceFile file addr : Text} {lineNumber n : Int} :
    Attribution.isAt sourceFile lineNumber ⟨file, n, addr⟩ =
      ((Str.endswith (normalizePath file) (normalizePath sourceFile) ||
        Str.endswith (normalizePath sourceFile) (normalizePath file)) && n == lineNumber) := rfl

/-- What a scan remembers of the lines behind it. -/
def NearbyScan.behind (current : Option (Text × Int)) (addresses : List Text) : NearbyScan :=
  ⟨current.map Prod.fst, current.map Prod.snd, addresses⟩

theorem nearbyLine_eq {current : Option (Text × Int)}
    (hcurrent : ∀ file n, current = some (file, n) → file ≠ []) (sourceFile : Text) (tryLine : Int)
    (addresses : List Text) (line : Text) :
    nearbyLine (normalizePath sourceFile) tryLine (.behind current addresses) line =
      some (.behind ((reading line).or current)
        (addresses ++ lineAddresses (attributed current line).toList sourceFile tryLine)) := by
  unfold nearbyLine attributed
  cases hsource : Regex.matchStart sourceRE line with
  -- a source line changes the position in force
  | some m =>
    obtain ⟨file, n, _, hfile, hn, hreading⟩ := isSome_reading hsource
    dsimp only
    rw [hn, hreading, hfile, Option.isSome_some, if_pos rfl, Option.toList_none]
    show _ = some (NearbyScan.behind _ (addresses ++ []))
    rw [List.append_nil]
    rfl
  | none =>
    have hreading : reading line = none := by
      rw [reading, hsource]
      rfl
    rw [hreading, Option.none_or, Option.isSome_none, if_neg Bool.false_ne_true]
    dsimp only
    have hkeep : some (NearbyScan.behind current addresses) = some (NearbyScan.behind current
        (addresses ++ lineAddresses [] sourceFile tryLine)) := by
      rw [show lineAddresses [] sourceFile tryLine = [] from rfl, List.append_nil]
    cases haddress : Regex.matchStart addressRE line with
    | none =>
      have hlabel : label line = none := by
        rw [label, haddress]
        rfl
      rw [hlabel]
      exact hkeep
    | some m =>
      obtain ⟨_, ds, _, _, _, _, _, hgroup⟩ := groups_addressRE haddress
      have hlabel : label line = some ds := by
        rw [label, haddress, Option.bind_some, hgroup]
      rw [hlabel]
      cases current with
      | none => exact hkeep
      | some source =>
        obtain ⟨file, n⟩ := source
        dsimp only
        rw [hgroup]
        have hfile : present (NearbyScan.behind (some (file, n)) addresses).currentFile = some file :=
          present_some (hcurrent file n rfl)
        rw [hfile]
        -- line 0 is as good as no line for both scans
        by_cases hn : n ≠ 0
        · have hline : (NearbyScan.behind (some (file, n)) addresses).currentLine.filter (· ≠ 0) =
              some n := by
            simp [NearbyScan.behind, hn]
          rw [hline, if_pos hn, Option.toList_some]
          dsimp only
          rw [← @isAt_mk _ _ ds, lineAddresses, List.filter_cons]
          split
          · rfl
          · rw [List.filter_nil, List.map_nil, List.append_nil]
        · have hline : (NearbyScan.behind (some (file, n)) addresses).currentLine.filter (· ≠ 0) =
              none := by
            simpa [NearbyScan.behind] using hn
          rw [hline, if_neg hn]
          exact hkeep

theorem foldlM_nearbyLine {current : Option (Text × Int)}
    (hcurrent : ∀ file n, current = some (file, n) → file ≠ []) (sourceFile : Text) (tryLine : Int)
    (addresses : List Text) (lines : List Text) :
    lines.foldlM (nearbyLine (normalizePath sourceFile) tryLine) (.behind current addresses) =
      some (.behind (inForce current lines)
        (addresses ++ lineAddresses (scanRows current lines) sourceFile tryLine)) := by
  induction lines generalizing current addresses with
  | nil =>
    rw [List.foldlM_nil, scanRows, show lineAddresses [] sourceFile tryLine = [] from rfl,
      List.append_nil]
    rfl
  | cons line lines ih =>
    have hnext : ∀ file n, (reading line).or current = some (file, n) → file ≠ [] := by
      intro file n h
      rcases Option.or_eq_some_iff.mp h with h | ⟨_, h⟩
      · exact (of_reading h).1
      · exact hcurrent file n h
    rw [List.foldlM_cons, nearbyLine_eq hcurrent]
    show lines.foldlM _ _ = _
    rw [ih hnext, scanRows, lineAddresses_append, List.append_assoc]
    rfl

/-- Every scan reads the listing as one reading does, and none raises an exception. -/
theorem nearbyAddresses_eq (listing sourceFile : Text) (tryLine : Int) :
    nearbyAddresses listing sourceFile tryLine =
      some (instructionsAt listing sourceFile tryLine) := by
  rw [nearbyAddresses, show (⟨none, none, []⟩ : NearbyScan) = .behind none [] from rfl,
    foldlM_nearbyLine (fun _ _ h => by cases h), instructionsAt, ← scanRows_eq_filterMap]
  rfl

/-! ## The order of the candidates -/

omit [Unicode] in
theorem mem_nearbyOffsets {targetLine searchRange l : Int} :
    l ∈ nearbyOffsets targetLine searchRange ↔ l ≠ targetLine ∧ |l - targetLine| ≤ searchRange := by
  simp only [nearbyOffsets, List.mem_flatMap, List.mem_range, List.mem_cons, List.not_mem_nil,
    or_false]
  constructor
  · rintro ⟨i, hi, rfl | rfl⟩
    · rw [abs_le]
      omega
    · rw [abs_le]
      omega
  · rintro ⟨hne, hrange⟩
    obtain ⟨hlow, hhigh⟩ := abs_le.mp hrange
    rcases lt_or_gt_of_ne hne with hlt | hgt
    · exact ⟨(targetLine - l - 1).toNat, by omega, .inl (by omega)⟩
    · exact ⟨(l - targetLine - 1).toNat, by omega, .inr (by omega)⟩

/-- `l` is nearer to the target than `m`, or as near and before it. -/
def Nearer (targetLine l m : Int) : Prop :=
  |l - targetLine| < |m - targetLine| ∨ |l - targetLine| = |m - targetLine| ∧ l < m

omit [Unicode] in
theorem not_nearer_of_nearer {targetLine l m : Int} (h : Nearer targetLine l m) :
    ¬ Nearer targetLine m l := by
  unfold Nearer at h ⊢
  omega

omit [Unicode] in
theorem pairwise_nearbyOffsets (targetLine searchRange : Int) :
    (nearbyOffsets targetLine searchRange).Pairwise (Nearer targetLine) := by
  have hbelow (i : Nat) : |targetLine - (i + 1 : Int) - targetLine| = i + 1 := by
    rw [sub_right_comm, sub_self, zero_sub, abs_neg]
    exact abs_of_nonneg (by omega)
  have habove (i : Nat) : |targetLine + (i + 1 : Int) - targetLine| = i + 1 := by
    rw [add_sub_cancel_left]
    exact abs_of_nonneg (by omega)
  unfold nearbyOffsets
  rw [List.pairwise_flatMap]
  constructor
  · intro i _
    rw [List.pairwise_pair]
    exact .inr ⟨by rw [hbelow, habove], by omega⟩
  · refine List.pairwise_lt_range.imp fun {i j} hij => ?_
    have hlt {l m : Int} (hl : l ∈ [targetLine - (i + 1 : Int), targetLine + (i + 1 : Int)])
        (hm : m ∈ [targetLine - (j + 1 : Int), targetLine + (j + 1 : Int)]) :
        Nearer targetLine l m := by
      have hl' : |l - targetLine| = i + 1 := by
        rcases List.mem_pair.mp hl with rfl | rfl
        · exact hbelow i
        · exact habove i
      have hm' : |m - targetLine| = j + 1 := by
        rcases List.mem_pair.mp hm with rfl | rfl
        · exact hbelow j
        · exact habove j
      exact .inl (by omega)
    exact fun l hl m hm => hlt hl hm

/-! ## The search -/

theorem tryNearbyOffsets_eq (listing sourceFile : Text) (offsets : List Int) :
    tryNearbyOffsets listing sourceFile offsets =
      some (offsets.findSome? fun l =>
        if l ≤ 0 ∨ instructionsAt listing sourceFile l = [] then none
        else some (l, instructionsAt listing sourceFile l)) := by
  induction offsets with
  | nil => rfl
  | cons l offsets ih =>
    rw [tryNearbyOffsets, List.findSome?_cons]
    by_cases hl : l ≤ 0
    · rw [if_pos hl, if_pos (.inl hl)]
      exact ih
    · rw [if_neg hl, nearbyAddresses_eq, Option.bind_some]
      by_cases hnone : instructionsAt listing sourceFile l = []
      · rw [if_pos (List.isEmpty_iff.mpr hnone), if_pos (Or.inr hnone)]
        exact ih
      · rw [if_neg (fun h => hnone (List.isEmpty_iff.mp h)), if_neg (not_or.mpr ⟨hl, hnone⟩)]

/-- The search on a listing that has been read once. -/
theorem tryNearbyLines_eq (listing sourceFile : Text) (targetLine searchRange : Int) :
    tryNearbyLines listing sourceFile targetLine searchRange =
      (attributions listing).map fun rows =>
        tryNearbyLinesObjdump rows sourceFile targetLine searchRange.toNat := by
  rw [attributions_eq, scanRows_eq_filterMap, tryNearbyLines, tryNearbyOffsets_eq, Option.map_some]
  unfold tryNearbyLinesObjdump
  rw [← nearbyOffsets]
  generalize nearbyOffsets targetLine searchRange = offsets
  dsimp only
  congr 1
  induction offsets with
  | nil => rfl
  | cons l offsets ih =>
    rw [List.findSome?_cons, ih]
    by_cases hl : l ≤ 0
    · rw [if_pos (.inl hl), List.filter_cons_of_neg (by simpa using hl)]
    · rw [List.filter_cons_of_pos (by simpa using hl), List.findSome?_cons, ← instructionsAt]
      by_cases hnone : instructionsAt listing sourceFile l = []
      · rw [if_pos (.inr hnone), hnone]
        rfl
      · rw [if_neg (not_or.mpr ⟨hl, hnone⟩), if_neg (fun h => hnone (List.isEmpty_iff.mp h))]

/-- Lines that have instructions are positive: the script takes no line 0 for a source. -/
theorem pos_of_instructionsAt {listing sourceFile : Text} {l : Int}
    (h : instructionsAt listing sourceFile l ≠ []) : 0 < l := by
  -- line numbers are read from digits
  have hforce (lines : List Text) {file : Text} {n : Int}
      (h : inForce none lines = some (file, n)) : 0 ≤ n := by
    induction lines using List.reverseRecOn with
    | nil => cases h
    | append_singleton lines line ih =>
      rw [inForce, List.foldl_concat] at h
      rcases Option.or_eq_some_iff.mp h with h | ⟨_, h⟩
      · exact (of_reading h).2
      · exact ih h
  obtain ⟨addr, haddr⟩ := List.exists_mem_of_ne_nil _ h
  obtain ⟨a, ha, _⟩ := List.mem_map.mp haddr
  obtain ⟨hmem, hat⟩ := List.mem_filter.mp ha
  obtain ⟨k, _, hk⟩ := List.mem_filterMap.mp hmem
  obtain ⟨line, _, hattributed⟩ := Option.bind_eq_some_iff.mp hk
  have hline : a.line = l := by
    simp only [Attribution.isAt, Bool.and_eq_true, beq_iff_eq] at hat
    exact hat.2
  unfold attributed at hattributed
  split at hattributed
  · cases hattributed
  · split at hattributed
    next addr file n _ hcurrent =>
      split at hattributed
      next hn =>
        obtain rfl := Option.some.inj hattributed
        have hnonneg := hforce _ hcurrent
        rw [← hline]
        exact lt_of_le_of_ne hnonneg (Ne.symm hn)
      next => cases hattributed
    next => cases hattributed

/-- **The nearest line.**  Reading a listing raises no exception.  A line is found with its addresses if
and only if it is a positive line within the range, not the target, that has instructions of the file
while no nearer line has, nor the line below the target at the same distance; and nothing is found if
and only if no such line has any.  The lookups that read the listing once find the same. -/
theorem tryNearbyLines_nearest (listing sourceFile : Text) (targetLine searchRange : Int) :
    ∃ found, tryNearbyLines listing sourceFile targetLine searchRange = some found ∧
      (∀ l addrs, found = some (l, addrs) ↔
        0 < l ∧ l ≠ targetLine ∧ |l - targetLine| ≤ searchRange ∧
        addrs = instructionsAt listing sourceFile l ∧ addrs ≠ [] ∧
        (∀ m, m ≠ targetLine → |m - targetLine| < |l - targetLine| →
          instructionsAt listing sourceFile m = []) ∧
        (∀ d, 0 < d → l = targetLine + d → instructionsAt listing sourceFile (targetLine - d) = [])) ∧
      (found = none ↔ ∀ l, 0 < l → l ≠ targetLine → |l - targetLine| ≤ searchRange →
        instructionsAt listing sourceFile l = []) ∧
      (attributions listing).map (fun rows =>
        tryNearbyLinesObjdump rows sourceFile targetLine searchRange.toNat) = some found := by
  -- the tests of one offset; a line that is not positive has no instructions anyway
  have hnone {l : Int} : (if l ≤ 0 ∨ instructionsAt listing sourceFile l = [] then none
      else some (l, instructionsAt listing sourceFile l)) = none ↔
        instructionsAt listing sourceFile l = [] := by
    rw [ite_eq_left_iff]
    constructor
    · intro h
      by_contra hne
      have hpos := pos_of_instructionsAt hne
      cases h (not_or.mpr ⟨by omega, hne⟩)
    · exact fun h hnot => absurd (.inr h) hnot
  have hsearch := tryNearbyOffsets_eq listing sourceFile (nearbyOffsets targetLine searchRange)
  refine ⟨_, hsearch, fun l addrs => ?_, ?_, (tryNearbyLines_eq ..).symm.trans hsearch⟩
  -- the offsets are tried nearest first, below before above
  · rw [findSome?_eq_some_iff_of_pairwise (fun _ _ => not_nearer_of_nearer)
      (pairwise_nearbyOffsets targetLine searchRange)]
    constructor
    · rintro ⟨a, ha, hfound, hbefore⟩
      split at hfound
      next => cases hfound
      next hnot =>
        obtain ⟨rfl, rfl⟩ := Prod.mk.inj (Option.some.inj hfound)
        obtain ⟨hpos, hne⟩ := not_or.mp hnot
        obtain ⟨htarget, hrange⟩ := mem_nearbyOffsets.mp ha
        refine ⟨by omega, htarget, hrange, rfl, hne, fun m hm hnear => ?_, fun d hd hl => ?_⟩
        · have hmem := mem_nearbyOffsets.mpr ⟨hm, hnear.le.trans hrange⟩
          exact hnone.mp (hbefore m hmem (.inl hnear))
        · have habs : |targetLine - d - targetLine| = |a - targetLine| := by
            rw [hl, add_sub_cancel_left, sub_right_comm, sub_self, zero_sub, abs_neg]
          have hmem := mem_nearbyOffsets.mpr
            (⟨by omega, habs.le.trans hrange⟩ : targetLine - d ≠ targetLine ∧ _)
          exact hnone.mp (hbefore _ hmem (.inr ⟨habs, by omega⟩))
    · rintro ⟨hpos, htarget, hrange, rfl, hne, hnearer, hbelow⟩
      refine ⟨l, mem_nearbyOffsets.mpr ⟨htarget, hrange⟩, ?_, fun m hm hbefore => hnone.mpr ?_⟩
      · rw [if_neg (not_or.mpr ⟨by omega, hne⟩)]
      · rcases hbefore with hlt | ⟨heq, hlt⟩
        · exact hnearer m (mem_nearbyOffsets.mp hm).1 hlt
        · -- as near and before it: the target lies in the middle
          have hmiddle : m = targetLine - (l - targetLine) := by
            rcases abs_eq_abs.mp heq with h | h
            · omega
            · omega
          have hd : 0 < l - targetLine := by omega
          rw [hmiddle]
          exact hbelow _ hd (by omega)
  · rw [List.findSome?_eq_none_iff]
    constructor
    · intro h l _ htarget hrange
      exact hnone.mp (h l (mem_nearbyOffsets.mpr ⟨htarget, hrange⟩))
    · intro h l hl
      obtain ⟨htarget, hrange⟩ := mem_nearbyOffsets.mp hl
      refine hnone.mpr ?_
      by_contra hne
      exact hne (h l (pos_of_instructionsAt hne) htarget hrange)

end Nearby

end IrToAssembly

end LinuxAnalysis
