import LinuxAnalysis.Scripts.ReportInst

/-!
# Function blocks

The block pattern at the head of a printed function: there is a match, it stays in the block, and its
groups are the name and the locations that are read from the two lines.
-/

open LinuxAnalysis.Lib

namespace LinuxAnalysis

/-- What is printed below the earliest instruction. -/
def ReportedFunction.latestText (level : Int) (f : ReportedFunction) : Text :=
  match f.latest with
  | some latest => "  Latest: ".toList ++ instLine level f.name latest
  | none => "  ".toList ++ sameInstruction ++ ['\n']

/-- The block of a function, without the empty line in front. -/
def ReportedFunction.block (level : Int) (f : ReportedFunction) : Text :=
  f.name ++ ':' :: '\n' :: ' ' :: ' ' :: ("Earliest:".toList ++ ' ' ::
    (instLine level f.name f.earliest ++ f.latestText level))

theorem ReportedFunction.print_eq (level : Int) (f : ReportedFunction) :
    f.print level = '\n' :: f.block level := by
  have h : f.print level = '\n' :: f.name ++ ":\n  Earliest: ".toList ++
      instLine level f.name f.earliest ++ f.latestText level := rfl
  rw [h, block, show ":\n  Earliest: ".toList = ':' :: '\n' :: ' ' :: ' ' ::
    ("Earliest:".toList ++ [' ']) from rfl]
  simp only [List.append_assoc, List.cons_append, List.nil_append]

/-- A block ends with a line. -/
theorem ReportedFunction.block_closed (level : Int) (f : ReportedFunction) :
    ∃ z, f.block level = z ++ ['\n'] := by
  obtain ⟨z, hz⟩ : ∃ z, f.latestText level = z ++ ['\n'] := by
    unfold ReportedFunction.latestText
    split
    · rw [instLine]
      exact ⟨_, (List.append_assoc _ _ _).symm⟩
    · exact ⟨_, rfl⟩
  refine ⟨f.name ++ ':' :: '\n' :: ' ' :: ' ' :: ("Earliest:".toList ++ ' ' ::
    (instLine level f.name f.earliest ++ z)), ?_⟩
  rw [block, hz]
  simp only [List.append_assoc, List.cons_append]

namespace IrToAssembly

/-- A location can be read from the lines of both ends. -/
structure HasLocations (B : Text → Prop) (level : Int) (f : ReportedFunction) : Prop where
  earliest : HasLocation B (shownLine level f.name f.earliest)
  latest : ∀ i, f.latest = some i → HasLocation B (shownLine level f.name i)

theorem exists_latest_of_not {B : Text → Prop} {level : Int} {f : ReportedFunction}
    (hearliest : HasLocation B (shownLine level f.name f.earliest)) (h : ¬HasLocations B level f) :
    ∃ i, f.latest = some i ∧ ¬HasLocation B (shownLine level f.name i) := by
  by_contra hall
  refine h ⟨hearliest, fun i hi => ?_⟩
  by_contra hnot
  exact hall ⟨i, hi, hnot⟩

/-- Both instructions are printed on one line or on several. -/
structure PrintedEnds (f : ReportedFunction) : Prop where
  earliest : Printed f.earliest
  latest : ∀ i, f.latest = some i → Printed i

section Tail

variable {β : Type} {k : Regex.Cursor → Option β}

/-- The rest of the line, then the alternatives on the next one. -/
theorem exec_blockTailRE {c : Regex.Cursor} {v rest : Text} (hc : c.rest = v ++ '\n' :: rest)
    (hv : '\n' ∉ v) {b : β} {alternatives : Regex}
    (hk : Regex.exec alternatives k ⟨'\n' :: (v.reverse ++ c.before), rest, c.groups⟩ = some b) :
    Regex.exec (.cat [.star false Regex.dot, .lit ['\n'], alternatives]) k c = some b := by
  have hlit : Regex.exec (.cat [.lit ['\n'], alternatives]) k (c.advance v ('\n' :: rest)) =
      some b :=
    (Regex.exec_lit (s := ['\n']) (c := c.advance v ('\n' :: rest)) rfl).trans hk
  rw [← hlit]
  refine Regex.exec_star_lazy hc (fun a ha => bne_iff_ne.mpr ?_) (fun pre post hsplit hpost => ?_) ?_
  · rintro rfl
    exact hv ha
  · refine Regex.exec_lit_eq_none fun h => ?_
    cases post with
    | nil => exact hpost rfl
    | cons x post =>
      rw [(List.cons_prefix_cons.mp h).1, hsplit] at hv
      exact hv (List.mem_append_right pre List.mem_cons_self)
  · show (Regex.exec (.cat [.lit ['\n'], alternatives]) k (c.advance v ('\n' :: rest))).isSome = true
    rw [hlit]
    rfl

/-- Two blanks and a label. -/
theorem exec_indented {c : Regex.Cursor} {label rest : Text} (hc : c.rest = ' ' :: ' ' :: (label ++ rest))
    (hlabel : label.head?.map Str.isSpace = some false) {rs : List Regex} {b : β}
    (hk : Regex.exec (.cat rs) k ⟨label.reverse ++ ' ' :: ' ' :: c.before, rest, c.groups⟩ = some b) :
    Regex.exec (.cat (.plus true Regex.space :: .lit label :: rs)) k c = some b := by
  have hlit : Regex.exec (.cat (.lit label :: rs)) k (c.advance [' ', ' '] (label ++ rest)) = some b :=
    (Regex.exec_lit (c := c.advance [' ', ' '] (label ++ rest)) rfl).trans hk
  rw [← hlit]
  apply Regex.exec_plus_longest (p := Regex.space) (List.cons_ne_nil _ _) hc (by decide)
  · intro a as heq
    cases label with
    | nil => cases hlabel
    | cons first label =>
      obtain ⟨rfl, _⟩ := List.cons.inj heq
      exact Option.some.inj hlabel
  · show (Regex.exec (.cat (.lit label :: rs)) k (c.advance [' ', ' '] (label ++ rest))).isSome = true
    rw [hlit]
    rfl

/-- Another label is not found. -/
theorem not_matches_indented {c d : Regex.Cursor} {s rest : Text} {first x : Char}
    (hc : c.rest = ' ' :: ' ' :: x :: rest) (hx : Str.isSpace x = false) (hne : first ≠ x)
    (hfirst : first ≠ ' ') {rs : List Regex} :
    ¬Regex.Matches (.cat (.plus true Regex.space :: .lit (first :: s) :: rs)) c d := by
  rintro ⟨_, hplus, _, hlit, _⟩
  obtain ⟨ws, r, hne', hws, hspace, rfl⟩ := Regex.matches_plus.mp hplus
  obtain ⟨r', hr, _⟩ := Regex.matches_lit.mp hlit
  have hr : r = first :: s ++ r' := hr
  rw [hc, hr] at hws
  rcases ws with _ | ⟨a, _ | ⟨a', _ | ⟨a'', ws⟩⟩⟩
  · exact hne' rfl
  · exact hfirst (List.cons.inj (List.cons.inj hws).2).1.symm
  · exact hne (List.cons.inj (List.cons.inj (List.cons.inj hws).2).2).1.symm
  · have ha := hspace a'' (by simp)
    rw [← (List.cons.inj (List.cons.inj (List.cons.inj hws).2).2).1, Regex.space, hx] at ha
    cases ha

/-- The blank lines of a block head end at once: a longer run of white space is not followed by a line
break. -/
theorem exec_headBreak {c : Regex.Cursor} {rest : Text}
    (hc : c.rest = '\n' :: ' ' :: ' ' :: ("Earliest:".toList ++ rest)) {b : β}
    (hk : k ⟨"Earliest:".toList.reverse ++ ' ' :: ' ' :: '\n' :: c.before, rest, c.groups⟩ = some b) :
    Regex.exec (.cat [.star true Regex.space, .lit ['\n'], .plus true Regex.space,
      .lit "Earliest:".toList]) k c = some b := by
  have hlabel : Regex.exec (.cat [.lit ['\n'], .plus true Regex.space, .lit "Earliest:".toList]) k
      (c.advance [] ('\n' :: ' ' :: ' ' :: ("Earliest:".toList ++ rest))) = some b := by
    rw [Regex.exec_cat_cons, Regex.exec_lit (s := ['\n']) rfl]
    apply exec_indented rfl (by decide)
    exact hk
  rw [← hlabel]
  apply Regex.exec_star_greedy (show c.rest = [] ++ _ from hc) (by decide)
  · intro ys rest' heq hys hspace
    rw [Regex.exec_cat_cons]
    apply Regex.exec_lit_eq_none
    intro h
    obtain ⟨r, hr⟩ := h
    have hr : '\n' :: r = rest' := hr
    rw [← hr] at heq
    -- only the line break and the two blanks are white space
    rcases ys with _ | ⟨a, _ | ⟨a', _ | ⟨a'', _ | ⟨x, ys⟩⟩⟩⟩
    · exact absurd rfl hys
    · exact absurd (List.cons.inj (List.cons.inj heq).2).1 (by decide)
    · exact absurd (List.cons.inj (List.cons.inj (List.cons.inj heq).2).2).1 (by decide)
    · exact absurd (List.cons.inj (List.cons.inj (List.cons.inj (List.cons.inj heq).2).2).2).1
        (by decide)
    · have hx := hspace x (by simp)
      rw [← (List.cons.inj (List.cons.inj (List.cons.inj (List.cons.inj heq).2).2).2).1] at hx
      exact absurd hx (by decide)
  · show (Regex.exec (.cat [.lit ['\n'], .plus true Regex.space, .lit "Earliest:".toList]) k
      (c.advance [] ('\n' :: ' ' :: ' ' :: ("Earliest:".toList ++ rest)))).isSome = true
    rw [hlabel]
    rfl

variable [Unicode]

/-- The head of a block. -/
theorem exec_blockHeadRE {c : Regex.Cursor} {name : Text} (rest : Text) (hne : name ≠ [])
    (hname : ∀ a ∈ name, Regex.word a = true) (hstart : c.atLineStart = true)
    (hc : c.rest = name ++ ':' :: '\n' :: ' ' :: ' ' :: ("Earliest:".toList ++ rest)) {b : β}
    (hk : k ⟨"Earliest:".toList.reverse ++ ' ' :: ' ' :: '\n' :: ':' :: (name.reverse ++ c.before),
      rest, (1, name) :: c.groups⟩ = some b) :
    Regex.exec blockHeadRE k c = some b := by
  have hcolon : Regex.exec (.cat [.lit [':'], .star true Regex.space, .lit ['\n'],
      .plus true Regex.space, .lit "Earliest:".toList]) k ⟨name.reverse ++ c.before,
        ':' :: '\n' :: ' ' :: ' ' :: ("Earliest:".toList ++ rest), (1, name) :: c.groups⟩ = some b := by
    rw [Regex.exec_cat_cons, Regex.exec_lit (s := [':']) rfl]
    apply exec_headBreak rfl
    exact hk
  have hstep : Regex.exec blockHeadRE k c = Regex.exec (.group 1 (.plus true Regex.word))
      (Regex.exec (.cat [.lit [':'], .star true Regex.space, .lit ['\n'], .plus true Regex.space,
        .lit "Earliest:".toList]) k) c := by
    rw [blockHeadRE, Regex.exec_cat_cons, Regex.exec_lineStart hstart, Regex.exec_cat_cons]
  rw [hstep, ← hcolon]
  apply Regex.exec_group_plus_longest hne hc hname
  · intro a as heq
    rw [← (List.cons.inj heq).1]
    exact Regex.word_eq_false (by decide) (by decide)
  · rw [hcolon]
    rfl

end Tail

section Block

/-- A text behind a line break and blanks that begins with neither white space nor a bracket. -/
theorem not_open_of_blanks (blanks : Text) {rest : Text} {x : Char} (hx : Str.isSpace x = false)
    (hopen : x ≠ '<') (hblanks : '<' ∉ blanks) {ws r : Text}
    (heq : blanks ++ x :: rest = ws ++ '<' :: r) : ∃ y ∈ ws, Str.isSpace y = false := by
  rcases List.append_eq_append_iff.mp heq with ⟨z, rfl, hz⟩ | ⟨z, rfl, hz⟩
  · cases z with
    | nil => exact absurd (List.cons.inj hz).1 hopen
    | cons y z =>
      obtain ⟨rfl, _⟩ := List.cons.inj hz
      exact ⟨x, by simp, hx⟩
  · cases z with
    | nil => exact absurd (List.cons.inj hz).1.symm hopen
    | cons y z =>
      obtain ⟨rfl, _⟩ := List.cons.inj hz
      exact absurd (List.mem_append_right ws List.mem_cons_self) hblanks

/-- The line below is the phrase or a label, not a bracket. -/
theorem latestText_not_open (level : Int) (f : ReportedFunction) (more ws r : Text)
    (heq : f.latestText level ++ more = ws ++ '<' :: r) : ∃ x ∈ ws, Str.isSpace x = false := by
  cases hlatest : f.latest with
  | none =>
    rw [ReportedFunction.latestText, hlatest] at heq
    exact not_open_of_blanks [' ', ' '] (x := '(') (by decide) (by decide) (by decide) heq
  | some i =>
    rw [ReportedFunction.latestText, hlatest] at heq
    exact not_open_of_blanks [' ', ' '] (x := 'L') (by decide) (by decide) (by decide) heq

variable [Unicode]

/-! ## The match of a block -/

/-- The match of a block consumes `taken` and leaves the rest of its last line. -/
structure BlockMatch (level : Int) (f : ReportedFunction) (taken rest : Text)
    (groups : List (Nat × List Char)) : Prop where
  split : f.block level = taken ++ (rest ++ ['\n'])
  rest : '\n' ∉ rest
  stop : ∃ z a, taken = z ++ [a] ∧ a ≠ '\n'
  name : groups.lookup 1 = some f.name
  earliest : ∃ before loc func, ReadsAt BehindBlank (shownLine level f.name f.earliest) before loc func ∧
    groups.lookup 3 = some loc ∧ groups.lookup 4 = some func
  single : f.latest = none → sameInstructionPhrase <:+: taken
  latest : ∀ i, f.latest = some i →
    ∃ before loc func, ReadsAt BehindBlank (shownLine level f.name i) before loc func ∧
      groups.lookup 6 = some loc ∧ groups.lookup 7 = some func ∧
      (sameInstructionPhrase <:+: taken ↔
        sameInstructionPhrase <:+: instLine level f.name f.earliest ∨
          sameInstructionPhrase <:+: before ∨ sameInstructionPhrase <:+: loc)

/-- What the tail pattern consumes of the line below the earliest instruction. -/
structure TailMatch (level : Int) (f : ReportedFunction) (taken rest : Text)
    (groups : List (Nat × List Char)) : Prop where
  split : f.latestText level = taken ++ (rest ++ ['\n'])
  rest : '\n' ∉ rest
  stop : ∃ z a, taken = z ++ [a] ∧ a ≠ '\n'
  absent : ∀ n < 5, groups.lookup n = none
  single : f.latest = none → sameInstructionPhrase <:+: taken
  latest : ∀ i, f.latest = some i →
    ∃ before loc func, ReadsAt BehindBlank (shownLine level f.name i) before loc func ∧
      groups.lookup 6 = some loc ∧ groups.lookup 7 = some func ∧ (sameInstructionPhrase <:+: taken ↔
        sameInstructionPhrase <:+: before ∨ sameInstructionPhrase <:+: loc)

theorem exec_tail (level : Int) {f : ReportedFunction} {more : Text} (hne : f.name ≠ [])
    (hname : ∀ a ∈ f.name, Regex.word a = true) (hf : PrintedEnds f)
    (hread : HasLocations BehindBlank level f)
    (hmore : ∀ ws r, more = ws ++ '<' :: r → ∃ x ∈ ws, Str.isSpace x = false) {v : Text}
    (hv : '\n' ∉ v) (before : Text) (groups : List (Nat × List Char)) :
    ∃ taken rest groups', TailMatch level f taken rest groups' ∧ Regex.exec blockTailRE some
      ⟨before, v ++ '\n' :: (f.latestText level ++ more), groups⟩ =
        some ⟨taken.reverse ++ '\n' :: (v.reverse ++ before), rest ++ '\n' :: more,
          groups' ++ groups⟩ := by
  cases hlatest : f.latest with
  | none =>
    have htext : f.latestText level = ' ' :: ' ' :: (sameInstructionPhrase ++ ['\n']) := by
      rw [ReportedFunction.latestText, hlatest]
      rfl
    refine ⟨' ' :: ' ' :: sameInstructionPhrase, [], [], ⟨by rw [htext]; rfl, by decide, ?_, ?_, ?_,
      ?_⟩, ?_⟩
    · exact ⟨' ' :: ' ' :: sameInstructionPhrase.dropLast, ')', by decide, by decide⟩
    · exact fun _ _ => rfl
    · exact fun _ => List.infix_cons (List.infix_cons List.infix_rfl)
    · intro i hi
      rw [hlatest] at hi
      cases hi
    · apply exec_blockTailRE rfl hv
      rw [htext]
      show (Regex.exec (.cat [.plus true Regex.space, .lit sameInstructionPhrase]) some _).or _ = _
      have hsame : Regex.exec (.cat [.plus true Regex.space, .lit sameInstructionPhrase]) some
          ⟨'\n' :: (v.reverse ++ before),
            ' ' :: ' ' :: (sameInstructionPhrase ++ ['\n']) ++ more, groups⟩ =
          some ⟨sameInstructionPhrase.reverse ++ ' ' :: ' ' :: '\n' :: (v.reverse ++ before),
            '\n' :: more, groups⟩ := by
        rw [List.cons_append, List.cons_append, List.append_assoc]
        apply exec_indented rfl (by decide)
        rfl
      rw [hsame]
      simp
  | some i =>
    have htext : f.latestText level =
        ' ' :: ' ' :: ("Latest:".toList ++ ' ' :: instLine level f.name i) := by
      rw [ReportedFunction.latestText, hlatest, show "  Latest: ".toList =
        ' ' :: ' ' :: ("Latest:".toList ++ [' ']) from rfl]
      simp only [List.append_assoc, List.cons_append, List.nil_append]
    obtain ⟨before', loc, func, consumed, inst, rest, hline, hrest, hexec⟩ := exec_line
      (k := some) (n := 5)
      (c := ⟨"Latest:".toList.reverse ++ ' ' :: ' ' :: '\n' :: (v.reverse ++ before),
        ' ' :: (instLine level f.name i ++ more), groups⟩) (hf.latest i hlatest) hne
      (fun a ha => Regex.isSpace_of_word (hname a ha)) (Regex.not_mem_of_word hname (by decide) (by decide))
      (hread.latest i hlatest) rfl
      hmore (fun _ _ _ _ => rfl)
    obtain ⟨z, a, hza, ha⟩ := hline.not_lineStart
    refine ⟨' ' :: ' ' :: ("Latest:".toList ++ consumed), rest,
      [(7, func), (6, loc), (5, inst)], ⟨?_, hrest, ?_, ?_, ?_, ?_⟩, ?_⟩
    · rw [htext, hline.split]
      simp only [List.append_assoc, List.cons_append]
    · exact ⟨' ' :: ' ' :: ("Latest:".toList ++ z), a, by rw [hza]; simp, ha⟩
    · intro n hn
      rcases n with _ | _ | _ | _ | _ | n
      all_goals first | rfl | omega
    · intro h
      rw [hlatest] at h
      cases h
    · intro i' hi'
      rw [hlatest] at hi'
      obtain rfl := Option.some.inj hi'
      refine ⟨before', loc, func, hline.reads, rfl, rfl, ?_⟩
      rw [← hline.phrase_iff]
      -- the label ends in a colon, which the phrase lacks
      rw [show ' ' :: ' ' :: ("Latest:".toList ++ consumed) = "  Latest".toList ++ ':' :: consumed
        from rfl, Str.infix_append_cons_iff (by decide)]
      apply or_iff_right
      decide
    · apply exec_blockTailRE rfl hv
      rw [htext]
      show (Regex.exec (.cat [.plus true Regex.space, .lit sameInstructionPhrase]) some _).or
        (Regex.exec (.cat [.plus true Regex.space, .lit "Latest:".toList, instRE 5]) some _) = _
      have hnone : Regex.exec (.cat [.plus true Regex.space, .lit sameInstructionPhrase]) some
          ⟨'\n' :: (v.reverse ++ before), ' ' :: ' ' ::
            ("Latest:".toList ++ ' ' :: instLine level f.name i) ++ more, groups⟩ = none :=
        Regex.exec_eq_none fun _ hd =>
          absurd hd (not_matches_indented (x := 'L') rfl (by decide) (by decide) (by decide))
      have hlabel : Regex.exec (.cat [.plus true Regex.space, .lit "Latest:".toList, instRE 5]) some
          ⟨'\n' :: (v.reverse ++ before), ' ' :: ' ' ::
            ("Latest:".toList ++ ' ' :: instLine level f.name i) ++ more, groups⟩ =
          some ⟨(' ' :: ' ' :: ("Latest:".toList ++ consumed)).reverse ++ '\n' ::
            (v.reverse ++ before), rest ++ '\n' :: more,
            [(7, func), (6, loc), (5, inst)] ++ groups⟩ := by
        rw [List.cons_append, List.cons_append, List.append_assoc]
        apply exec_indented rfl (by decide)
        rw [show (' ' :: ' ' :: ("Latest:".toList ++ consumed)).reverse = consumed.reverse ++
          ("Latest:".toList.reverse ++ [' ', ' ']) by simp]
        exact hexec.trans (by simp)
      rw [hnone, hlabel]
      rfl

/-- At the head of a printed function the block pattern succeeds. -/
theorem exec_blockRE {level : Int} {f : ReportedFunction} {before more : Text}
    (hne : f.name ≠ []) (hname : ∀ a ∈ f.name, Regex.word a = true)
    (hstart : (⟨before, f.block level ++ more, []⟩ : Regex.Cursor).atLineStart = true)
    (hf : PrintedEnds f) (hread : HasLocations BehindBlank level f)
    (hmore : ∀ ws r, more = ws ++ '<' :: r → ∃ x ∈ ws, Str.isSpace x = false) :
    ∃ taken rest groups, BlockMatch level f taken rest groups ∧
      Regex.exec blockRE some ⟨before, f.block level ++ more, []⟩ =
        some ⟨taken.reverse ++ before, rest ++ '\n' :: more, groups⟩ := by
  have hbelow := latestText_not_open level f more
  obtain ⟨head, hhead⟩ : ∃ head, head = "Earliest:".toList.reverse ++ ' ' :: ' ' :: '\n' :: ':' ::
      (f.name.reverse ++ before) := ⟨_, rfl⟩
  obtain ⟨before', loc, func, consumed, inst, v, hline, hv, hexec⟩ := exec_line
    (k := Regex.exec (.cat [blockTailRE]) some) (n := 2) (c := ⟨head,
      ' ' :: (instLine level f.name f.earliest ++ (f.latestText level ++ more)), [(1, f.name)]⟩)
    hf.earliest hne (fun a ha => Regex.isSpace_of_word (hname a ha))
    (Regex.not_mem_of_word hname (by decide) (by decide)) hread.earliest rfl hbelow
    (fun v hv before groups => by
      obtain ⟨taken, rest, groups', _, htail⟩ := exec_tail level hne hname hf hread hmore hv before groups
      show (Regex.exec blockTailRE some ⟨before, _, groups⟩).isSome = true
      rw [htail]
      rfl)
  obtain ⟨taken, rest, groups, ht, htail⟩ := exec_tail level hne hname hf hread hmore hv
    (consumed.reverse ++ head) [(4, func), (3, loc), (2, inst), (1, f.name)]
  obtain ⟨z, a, hza, ha⟩ := ht.stop
  have hlookup {n : Nat} (hn : n < 5) : (groups ++ [(4, func), (3, loc), (2, inst),
      (1, f.name)]).lookup n = [(4, func), (3, loc), (2, inst), (1, f.name)].lookup n := by
    rw [List.lookup_append, ht.absent n hn, Option.none_or]
  have hphrase : sameInstructionPhrase <:+: f.name ++ ':' :: '\n' :: ' ' :: ' ' ::
      ("Earliest:".toList ++ (consumed ++ (v ++ '\n' :: taken))) ↔
        sameInstructionPhrase <:+: instLine level f.name f.earliest ∨
          sameInstructionPhrase <:+: taken := by
    have hinst : sameInstructionPhrase <:+: instLine level f.name f.earliest ↔
        sameInstructionPhrase <:+: consumed ++ v := by
      rw [← Str.infix_cons_iff_of_head (c := ' ') (by decide), hline.split, ← List.append_assoc]
      show sameInstructionPhrase <:+: _ ++ '\n' :: [] ↔ _
      rw [Str.infix_append_cons_iff (by decide)]
      apply or_iff_left
      decide
    -- nothing of the phrase stands in front of the line
    rw [hinst, show f.name ++ ':' :: '\n' :: ' ' :: ' ' :: ("Earliest:".toList ++ (consumed ++
      (v ++ '\n' :: taken))) = f.name ++ ':' :: ("\n  Earliest".toList ++ ':' ::
        ((consumed ++ v) ++ '\n' :: taken)) by rw [List.append_assoc]; rfl,
      Str.infix_append_cons_iff (by decide), Str.infix_append_cons_iff (by decide),
      Str.infix_append_cons_iff (by decide), or_iff_right, or_iff_right]
    · decide
    · intro h
      exact Regex.not_mem_of_word hname (c := '(') (by decide) (by decide) (h.subset (by decide))
  refine ⟨f.name ++ ':' :: '\n' :: ' ' :: ' ' :: ("Earliest:".toList ++
    (consumed ++ (v ++ '\n' :: taken))), rest,
    groups ++ [(4, func), (3, loc), (2, inst), (1, f.name)], ⟨?_, ht.rest, ?_, ?_, ?_, ?_, ?_⟩, ?_⟩
  · have hsplit : ' ' :: (instLine level f.name f.earliest ++ f.latestText level) =
        consumed ++ (v ++ ['\n']) ++ f.latestText level := by
      rw [← hline.split]
      rfl
    rw [ReportedFunction.block, hsplit, ht.split]
    simp only [List.append_assoc, List.cons_append, List.nil_append]
  · exact ⟨f.name ++ ':' :: '\n' :: ' ' :: ' ' :: ("Earliest:".toList ++
      (consumed ++ (v ++ '\n' :: z))), a, by rw [hza]; simp, ha⟩
  · rw [hlookup (by omega)]
    rfl
  · refine ⟨before', loc, func, hline.reads, ?_, ?_⟩
    · rw [hlookup (by omega)]
      rfl
    · rw [hlookup (by omega)]
      rfl
  · intro h
    exact hphrase.mpr (.inr (ht.single h))
  · intro i hi
    obtain ⟨b, loc', func', hb, hloc', hfunc', htaken⟩ := ht.latest i hi
    refine ⟨b, loc', func', hb, ?_, ?_, hphrase.trans (or_congr_right htaken)⟩
    · rw [List.lookup_append, hloc', Option.some_or]
    · rw [List.lookup_append, hfunc', Option.some_or]
  · have hblock : Regex.exec (.cat [instRE 2, blockTailRE]) some ⟨head,
        ' ' :: (instLine level f.name f.earliest ++ (f.latestText level ++ more)), [(1, f.name)]⟩ =
        some ⟨taken.reverse ++ '\n' :: (v.reverse ++ (consumed.reverse ++ head)),
          rest ++ '\n' :: more, groups ++ [(4, func), (3, loc), (2, inst), (1, f.name)]⟩ :=
      hexec.trans htail
    rw [blockRE, Regex.exec_cat_cons]
    apply exec_blockHeadRE (' ' :: (instLine level f.name f.earliest ++ (f.latestText level ++ more)))
      hne hname hstart
    · show f.block level ++ more = _
      rw [ReportedFunction.block]
      simp only [List.append_assoc, List.cons_append]
    · show Regex.exec (.cat [instRE 2, blockTailRE]) some ⟨"Earliest:".toList.reverse ++ ' ' :: ' ' ::
        '\n' :: ':' :: (f.name.reverse ++ before), ' ' :: (instLine level f.name f.earliest ++
          (f.latestText level ++ more)), [(1, f.name)]⟩ = _
      rw [← hhead, hblock, hhead]
      simp only [List.reverse_append, List.reverse_cons, List.append_assoc, List.cons_append,
        List.nil_append]

/-! ## Blocks that are passed over -/

omit [Unicode] in
/-- What follows a label behind white space. -/
theorem behind_label {label ws ws' r r' : Text} (hlabel : label.head?.map Str.isSpace = some false)
    (h : ws ++ (label ++ r) = ws' ++ (label ++ r')) (hws : ∀ a ∈ ws, Str.isSpace a = true)
    (hws' : ∀ a ∈ ws', Str.isSpace a = true) : r = r' := by
  have hdrop {s : Text} : (label ++ s).dropWhile Str.isSpace = label ++ s := by
    cases label with
    | nil => cases hlabel
    | cons a label => exact List.dropWhile_cons_of_neg (by simpa using hlabel)
  have heq := congrArg (List.dropWhile Str.isSpace) h
  rw [List.dropWhile_append_of_pos hws, List.dropWhile_append_of_pos hws', hdrop, hdrop] at heq
  exact List.append_cancel_left heq

/-- At the head of a function with an end from which no location is read the block pattern fails. -/
theorem not_matches_blockRE {level : Int} {f : ReportedFunction} {c d : Regex.Cursor} (more : Text)
    (hne : f.name ≠ []) (hname : ∀ a ∈ f.name, Regex.word a = true) (hf : PrintedEnds f)
    (hread : ¬HasLocations BehindBlank level f) (hc : c.rest = f.block level ++ more) :
    ¬Regex.Matches blockRE c d := by
  have hspace : ∀ a ∈ f.name, Str.isSpace a = false := fun a ha => Regex.isSpace_of_word (hname a ha)
  have hopen : '<' ∉ f.name := Regex.not_mem_of_word hname (by decide) (by decide)
  rintro ⟨e, ⟨_, ⟨_, rfl⟩, _, hgroup, _, hcolon, _, hstar, _, hbreak, _, hplus, _, hlabel, rfl⟩, _, hinst,
    _, htail, _⟩
  obtain ⟨name, r₁, _, hr₁, hword, rfl⟩ := Regex.matches_group_plus.mp hgroup
  obtain ⟨r₂, hr₂, rfl⟩ := Regex.matches_lit.mp hcolon
  obtain ⟨spaces, r₃, hr₃, hspaces, rfl⟩ := Regex.matches_star.mp hstar
  obtain ⟨r₄, hr₄, rfl⟩ := Regex.matches_lit.mp hbreak
  obtain ⟨indent, r₅, _, hr₅, hindent, rfl⟩ := Regex.matches_plus.mp hplus
  obtain ⟨r₆, hr₆, rfl⟩ := Regex.matches_lit.mp hlabel
  -- the head is the printed one, so the first line comes next
  have hhead : f.name ++ ':' :: ("\n  ".toList ++ ("Earliest:".toList ++ ' ' ::
      (instLine level f.name f.earliest ++ (f.latestText level ++ more)))) =
      name ++ ':' :: ((spaces ++ '\n' :: indent) ++ ("Earliest:".toList ++ r₆)) := by
    have hblock : f.block level ++ more = f.name ++ ':' :: ("\n  ".toList ++ ("Earliest:".toList ++ ' ' ::
        (instLine level f.name f.earliest ++ (f.latestText level ++ more)))) := by
      rw [ReportedFunction.block]
      simp only [List.append_assoc, List.cons_append]
      rfl
    rw [← hblock, ← hc, hr₁, show r₁ = [':'] ++ r₂ from hr₂, show r₂ = spaces ++ r₃ from hr₃,
      show r₃ = ['\n'] ++ r₄ from hr₄, show r₄ = indent ++ r₅ from hr₅,
      show r₅ = "Earliest:".toList ++ r₆ from hr₆]
    simp only [List.append_assoc, List.cons_append, List.nil_append]
  have hcolon {s : Text} (hs : ∀ a ∈ s, Regex.word a = true) : ':' ∉ s :=
    Regex.not_mem_of_word hs (by decide) (by decide)
  obtain ⟨_, hline⟩ := Str.append_cons_inj (hcolon hname) (hcolon hword) hhead
  have hr₆ : ' ' :: (instLine level f.name f.earliest ++ (f.latestText level ++ more)) = r₆ := by
    apply behind_label (by decide) hline (by decide)
    intro a ha
    rcases List.mem_append.mp ha with ha | ha
    · exact hspaces a ha
    · rcases List.mem_cons.mp ha with rfl | ha
      · decide
      · exact hindent a ha
  by_cases hearliest : HasLocation BehindBlank (shownLine level f.name f.earliest)
  case neg => exact hf.earliest.not_matches hne hspace hearliest hr₆.symm hinst
  -- the latest line comes next, with its label
  obtain ⟨i, hi, hlatest⟩ := exists_latest_of_not hearliest hread
  obtain ⟨v, hv, hbroken⟩ := hf.earliest.end_of_matches hspace hopen hr₆.symm
    (latestText_not_open level f more) hinst
  obtain ⟨_, hdots, _, hnewline, _, halt, _⟩ := htail
  obtain ⟨v', r₇, hr₇, hdot, rfl⟩ := Regex.matches_star.mp hdots
  obtain ⟨r₈, hr₈, rfl⟩ := Regex.matches_lit.mp hnewline
  have hr₈ : r₈ = ' ' :: ' ' :: ("Latest:".toList ++ ' ' :: (instLine level f.name i ++ more)) := by
    have hv' : '\n' ∉ v' := fun hmem => bne_iff_ne.mp (hdot _ hmem) rfl
    rw [hv, show r₇ = ['\n'] ++ r₈ from hr₈] at hr₇
    have hbelow : f.latestText level ++ more = r₈ := (Str.append_cons_inj hbroken hv' hr₇).2
    rw [← hbelow, ReportedFunction.latestText, hi]
    simp only [List.append_assoc]
    rfl
  rcases halt with hphrase | hlabelled
  · exact not_matches_indented hr₈ (by decide) (by decide) (by decide) hphrase
  · obtain ⟨_, hblank, _, hlit, _, hinst, _⟩ := hlabelled
    obtain ⟨ws, r₉, _, hr₉, hws, rfl⟩ := Regex.matches_plus.mp hblank
    obtain ⟨r₁₀, hr₁₀, rfl⟩ := Regex.matches_lit.mp hlit
    have hlabels : [' ', ' '] ++ ("Latest:".toList ++ ' ' :: (instLine level f.name i ++ more)) =
        ws ++ ("Latest:".toList ++ r₁₀) := by
      rw [← show r₉ = "Latest:".toList ++ r₁₀ from hr₁₀, ← show r₈ = ws ++ r₉ from hr₉, hr₈]
      rfl
    have hbelow : ' ' :: (instLine level f.name i ++ more) = r₁₀ :=
      behind_label (by decide) hlabels (by decide) hws
    exact (hf.latest i hi).not_matches hne hspace hlatest hbelow.symm hinst

end Block

end IrToAssembly

end LinuxAnalysis
