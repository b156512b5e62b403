import LinuxAnalysis.Pass.Print
import LinuxAnalysis.Scripts.ReportParser

/-!
# The location read from an instruction line

The pattern of a block takes the first opening bracket behind white space that is closed in front of a
function name.  The text of an instruction may hold such a bracket before the printed one.
-/

open LinuxAnalysis.Lib

namespace LinuxAnalysis

namespace IrToAssembly

/-! ## Brackets -/

/-- One or more characters of white space. -/
def Blank (s : Text) : Prop := s ≠ [] ∧ ∀ c ∈ s, Str.isSpace c = true

/-- What the patterns ask of the text behind a location. -/
def NamesFunction (s : Text) : Prop :=
  ∃ blank mark first rest, s = blank ++ (mark ++ ("FUNC=".toList ++ first :: rest)) ∧ Blank blank ∧
    (mark = [] ∨ ∃ b, mark = "(approx)".toList ++ b ∧ Blank b) ∧ Str.isSpace first = false

/-- The bracket is closed, not at once, in front of a function name. -/
def Closes (behind : Text) : Prop :=
  ∃ loc rest, behind = loc ++ '>' :: rest ∧ loc ≠ [] ∧ '>' ∉ loc ∧ NamesFunction rest

/-- The last character is white space. -/
def EndsBlank (s : Text) : Prop := ∃ a w, s = a ++ [w] ∧ Str.isSpace w = true

/-- There is no line break in it. -/
def OnLine (s : Text) : Prop := '\n' ∉ s

/-- White space behind a text on one line; the white space may go on to another line. -/
def BehindBlank (s : Text) : Prop := ∃ u w, s = u ++ w ∧ OnLine u ∧ Blank w

/-- The first location that can be read from `s`, of the brackets with a text of `B` in front. -/
structure FirstAt (B : Text → Prop) (s before loc rest : Text) : Prop where
  eq : s = before ++ '<' :: (loc ++ '>' :: rest)
  side : B before
  nonempty : loc ≠ []
  closing : '>' ∉ loc
  func : NamesFunction rest
  first : ∀ before' behind', s = before' ++ '<' :: behind' → B before' → Closes behind' →
    before.length ≤ before'.length

/-- How the text behind a location divides at the function name. -/
structure FuncAt (s label func rest : Text) : Prop where
  eq : s = label ++ '=' :: (func ++ rest)
  label : ∀ c ∈ label, Str.isSpace c = true ∨ c ∈ "(approx)FUNC".toList
  func : ∀ c ∈ func, Str.isSpace c = false
  stop : ∀ a as, rest = a :: as → Str.isSpace a = true

/-- Of the brackets of `line` with a text of `B` in front, the first one closed in front of a function
name stands behind `before`, encloses `loc` and is followed by the name `func`. -/
def ReadsAt (B : Text → Prop) (line before loc func : Text) : Prop :=
  ∃ rest label v, FirstAt B line before loc rest ∧ FuncAt rest label func v

/-- Some bracket of `s` with a text of `B` in front is closed in front of a function name. -/
def HasLocation (B : Text → Prop) (s : Text) : Prop :=
  ∃ before behind, s = before ++ '<' :: behind ∧ B before ∧ Closes behind

theorem FirstAt.unique {B : Text → Prop} {s b₁ l₁ r₁ b₂ l₂ r₂ : Text} (h₁ : FirstAt B s b₁ l₁ r₁)
    (h₂ : FirstAt B s b₂ l₂ r₂) : b₁ = b₂ ∧ l₁ = l₂ ∧ r₁ = r₂ := by
  have hlength : b₁.length = b₂.length :=
    le_antisymm (h₁.first b₂ _ h₂.eq h₂.side ⟨_, _, rfl, h₂.nonempty, h₂.closing, h₂.func⟩)
      (h₂.first b₁ _ h₁.eq h₁.side ⟨_, _, rfl, h₁.nonempty, h₁.closing, h₁.func⟩)
  obtain ⟨hb, hr⟩ := List.append_inj (h₁.eq.symm.trans h₂.eq) hlength
  exact ⟨hb, Str.append_cons_inj h₁.closing h₂.closing (List.cons.inj hr).2⟩

/-- What counts in front of a bracket matters for the beginnings of the line only. -/
theorem ReadsAt.of_sides {A B : Text → Prop} {line before loc func : Text}
    (hAB : ∀ b, b <+: line → (A b ↔ B b)) (h : ReadsAt A line before loc func) :
    ReadsAt B line before loc func := by
  obtain ⟨rest, label, v, hfirst, hat⟩ := h
  refine ⟨rest, label, v, ⟨hfirst.eq, ?_, hfirst.nonempty, hfirst.closing, hfirst.func,
    fun before' behind' heq hside => hfirst.first before' behind' heq ((hAB _ ?_).mpr hside)⟩, hat⟩
  · refine (hAB _ ?_).mp hfirst.side
    rw [hfirst.eq]
    exact List.prefix_append _ _
  · rw [heq]
    exact List.prefix_append _ _

/-- On one line white space in front of a bracket is all that counts. -/
theorem behindBlank_iff {line b : Text} (hline : OnLine line) (hb : b <+: line) :
    BehindBlank b ↔ EndsBlank b := by
  constructor
  · rintro ⟨u, w, rfl, _, hne, hspace⟩
    refine ⟨u ++ w.dropLast, w.getLast hne, ?_, hspace _ (List.getLast_mem hne)⟩
    rw [List.append_assoc, List.dropLast_append_getLast]
  · rintro ⟨a, x, rfl, hx⟩
    refine ⟨a, [x], rfl, fun hmem => hline (hb.subset (List.mem_append_left _ hmem)),
      List.cons_ne_nil _ _, ?_⟩
    intro c hc
    rw [List.mem_singleton.mp hc]
    exact hx

/-! ## The patterns of a line -/

section Patterns

variable {β : Type} {k : Regex.Cursor → Option β}

theorem exec_funcRE {n : Nat} {c : Regex.Cursor} {blank mark func rest : Text}
    (hrest : c.rest = blank ++ (mark ++ ("FUNC=".toList ++ (func ++ rest)))) (hblank : Blank blank)
    (hmark : mark = [] ∨ ∃ b, mark = "(approx)".toList ++ b ∧ Blank b) (hne : func ≠ [])
    (hfunc : ∀ a ∈ func, Regex.nonSpace a = true)
    (hstop : ∀ a as, rest = a :: as → Regex.nonSpace a = false)
    (hk : ∀ before, (k ⟨before, rest, (n, func) :: c.groups⟩).isSome = true) :
    Regex.exec (funcRE n) k c = k ⟨(blank ++ (mark ++ ("FUNC=".toList ++ func))).reverse ++ c.before,
      rest, (n, func) :: c.groups⟩ := by
  -- from the inside out: the name, the optional mark in front of it, the blanks in front of both
  have hname (before : List Char) : Regex.exec (.cat [.lit "FUNC=".toList,
      .group n (.plus true Regex.nonSpace)]) k ⟨before, "FUNC=".toList ++ (func ++ rest), c.groups⟩ =
      k ⟨("FUNC=".toList ++ func).reverse ++ before, rest, (n, func) :: c.groups⟩ := by
    rw [List.reverse_append, List.append_assoc]
    exact (Regex.exec_lit rfl).trans
      (Regex.exec_group_plus_longest hne rfl hfunc hstop (hk _))
  have hmarked (before : List Char) : Regex.exec (.cat [.opt (.cat [.lit "(approx)".toList,
      .plus true Regex.space]), .lit "FUNC=".toList, .group n (.plus true Regex.nonSpace)]) k
      ⟨before, mark ++ ("FUNC=".toList ++ (func ++ rest)), c.groups⟩ =
      k ⟨(mark ++ ("FUNC=".toList ++ func)).reverse ++ before, rest, (n, func) :: c.groups⟩ := by
    rw [List.reverse_append, List.append_assoc, ← hname]
    show (Regex.exec (.cat [.lit "(approx)".toList, .plus true Regex.space]) _ _).or _ = _
    -- without a mark the option gives up at its first letter
    rcases hmark with rfl | ⟨b, rfl, hb⟩
    · have hnone {k : Regex.Cursor → Option β} : Regex.exec (.cat [.lit "(approx)".toList,
          .plus true Regex.space]) k ⟨before, [] ++ ("FUNC=".toList ++ (func ++ rest)), c.groups⟩ =
          none :=
        Regex.exec_lit_eq_none fun h => by cases (List.cons_prefix_cons.mp h).1
      rw [hnone, Option.none_or]
      rfl
    · have hspaces : Regex.exec (.cat [.lit "(approx)".toList, .plus true Regex.space])
          (Regex.exec (.cat [.lit "FUNC=".toList, .group n (.plus true Regex.nonSpace)]) k)
          ⟨before, ("(approx)".toList ++ b) ++ ("FUNC=".toList ++ (func ++ rest)), c.groups⟩ =
          Regex.exec (.cat [.lit "FUNC=".toList, .group n (.plus true Regex.nonSpace)]) k
            ⟨("(approx)".toList ++ b).reverse ++ before, "FUNC=".toList ++ (func ++ rest),
              c.groups⟩ := by
        rw [List.reverse_append, List.append_assoc b.reverse]
        refine (Regex.exec_lit (List.append_assoc _ _ _)).trans
          (Regex.exec_plus_longest (p := Regex.space) (c := ⟨_, b ++ _, c.groups⟩) hb.1 rfl hb.2 ?_ ?_)
        · rintro a as ⟨⟩
          decide
        · show (Regex.exec (.cat [.lit "FUNC=".toList, .group n (.plus true Regex.nonSpace)]) k
            ⟨_, "FUNC=".toList ++ (func ++ rest), c.groups⟩).isSome = true
          rw [hname]
          exact hk _
      refine (Option.or_of_isSome ?_).trans hspaces
      show (Regex.exec (.cat [.lit "(approx)".toList, .plus true Regex.space])
        (Regex.exec (.cat [.lit "FUNC=".toList, .group n (.plus true Regex.nonSpace)]) k) _).isSome =
        true
      rw [hspaces, hname]
      exact hk _
  rw [List.reverse_append, List.append_assoc, ← hmarked]
  refine Regex.exec_plus_longest (p := Regex.space) hblank.1 hrest hblank.2 ?_ ?_
  · intro a as heq
    rcases hmark with rfl | ⟨b, rfl, _⟩
    · cases heq
      decide
    · cases heq
      decide
  · show (Regex.exec (.cat [.opt (.cat [.lit "(approx)".toList, .plus true Regex.space]),
      .lit "FUNC=".toList, .group n (.plus true Regex.nonSpace)]) k
      ⟨_, mark ++ ("FUNC=".toList ++ (func ++ rest)), c.groups⟩).isSome = true
    rw [hmarked]
    exact hk _

theorem ne_of_isSpace {a c : Char} (ha : Str.isSpace a = true) (hc : Str.isSpace c = false) :
    a ≠ c := by
  rintro rfl
  rw [ha] at hc
  cases hc

/-- The name of a function goes on to the next white space. -/
theorem NamesFunction.divide {s : Text} (h : NamesFunction s) :
    ∃ blank mark func rest, s = blank ++ (mark ++ ("FUNC=".toList ++ (func ++ rest))) ∧
      Blank blank ∧ (mark = [] ∨ ∃ b, mark = "(approx)".toList ++ b ∧ Blank b) ∧ func ≠ [] ∧
      (∀ a ∈ func, Regex.nonSpace a = true) ∧
      (∀ a as, rest = a :: as → Regex.nonSpace a = false) ∧
      FuncAt s (blank ++ (mark ++ "FUNC".toList)) func rest := by
  obtain ⟨blank, mark, first, rest, hs, hblank, hmark, hfirst⟩ := h
  have hsplit : first :: rest =
      first :: rest.takeWhile Regex.nonSpace ++ rest.dropWhile Regex.nonSpace := by
    rw [List.cons_append, List.takeWhile_append_dropWhile]
  -- the name is the longest run behind the equals sign
  have hfunc : ∀ a ∈ first :: rest.takeWhile Regex.nonSpace, Regex.nonSpace a = true := by
    refine List.forall_mem_cons.mpr ⟨by rw [Regex.nonSpace, hfirst]; rfl, fun a ha => ?_⟩
    exact List.mem_takeWhile_imp ha
  have hlabel : ∀ c ∈ blank ++ (mark ++ "FUNC".toList),
      Str.isSpace c = true ∨ c ∈ "(approx)FUNC".toList := by
    intro c hc
    rw [show "(approx)FUNC".toList = "(approx)".toList ++ "FUNC".toList from rfl, List.mem_append]
    rcases List.mem_append.mp hc with hc | hc
    · exact .inl (hblank.2 c hc)
    · rcases List.mem_append.mp hc with hc | hc
      · rcases hmark with rfl | ⟨b, rfl, hb⟩
        · cases hc
        · rcases List.mem_append.mp hc with hc | hc
          · exact .inr (.inl hc)
          · exact .inl (hb.2 c hc)
      · exact .inr (.inr hc)
  have hstop (a : Char) (as : Text) (heq : rest.dropWhile Regex.nonSpace = a :: as) :
      Regex.nonSpace a = false := by
    have hnot := List.head?_dropWhile_not Regex.nonSpace rest
    rw [heq] at hnot
    exact hnot
  refine ⟨blank, mark, first :: rest.takeWhile Regex.nonSpace, rest.dropWhile Regex.nonSpace,
    ?_, hblank, hmark, List.cons_ne_nil _ _, hfunc, hstop, ?_, hlabel, ?_, fun a as heq => ?_⟩
  · rw [hs, hsplit]
  · rw [hs, hsplit, List.append_assoc, List.append_assoc]
    rfl
  · intro a ha
    have := hfunc a ha
    rw [Regex.nonSpace, Bool.not_eq_true'] at this
    exact this
  · have := hstop a as heq
    rw [Regex.nonSpace, Bool.not_eq_false'] at this
    exact this

/-- A bracketed location and a function name. -/
def closedRE (n : Nat) : Regex :=
  .cat [.lit ['<'], .group (n + 1) (.plus true notClosing), .lit ['>'], IrToAssembly.funcRE (n + 2)]

theorem exec_closedRE {n : Nat} {c : Regex.Cursor} {loc rest : Text}
    (hrest : c.rest = '<' :: (loc ++ '>' :: rest)) (hne : loc ≠ []) (hclosing : '>' ∉ loc)
    (hfunc : NamesFunction rest)
    (hk : ∀ label func v, FuncAt rest label func v →
      ∀ before groups, (k ⟨before, v, groups⟩).isSome = true) :
    ∃ label func v, FuncAt rest label func v ∧ Regex.exec (closedRE n) k c =
      k ⟨('<' :: (loc ++ '>' :: (label ++ '=' :: func))).reverse ++ c.before, v,
        (n + 2, func) :: (n + 1, loc) :: c.groups⟩ := by
  obtain ⟨blank, mark, func, v, heq, hblank, hmark, hfne, hnonspace, hstop, hat⟩ := hfunc.divide
  refine ⟨_, func, v, hat, ?_⟩
  -- behind the bracket the name is matched in one way
  have hname (before : List Char) : Regex.exec (.cat [.lit ['>'], funcRE (n + 2)]) k
      ⟨before, '>' :: rest, (n + 1, loc) :: c.groups⟩ =
      k ⟨(blank ++ (mark ++ ("FUNC=".toList ++ func))).reverse ++ ('>' :: before), v,
        (n + 2, func) :: (n + 1, loc) :: c.groups⟩ :=
    (Regex.exec_lit (s := ['>']) (c := ⟨before, '>' :: rest, (n + 1, loc) :: c.groups⟩) rfl).trans
      (exec_funcRE heq hblank hmark hfne hnonspace hstop fun before => hk _ func v hat before _)
  -- no closing bracket inside, so the location is the longest run as well
  have hloc : Regex.exec (closedRE n) k c =
      k ⟨(blank ++ (mark ++ ("FUNC=".toList ++ func))).reverse ++ ('>' :: (loc.reverse ++
        '<' :: c.before)), v, (n + 2, func) :: (n + 1, loc) :: c.groups⟩ := by
    rw [← hname]
    refine (Regex.exec_lit (s := ['<']) hrest).trans (Regex.exec_group_plus_longest hne rfl ?_ ?_ ?_)
    · intro a ha
      refine bne_iff_ne.mpr ?_
      rintro rfl
      exact hclosing ha
    · rintro a as ⟨⟩
      rfl
    · show (Regex.exec (.cat [.lit ['>'], funcRE (n + 2)]) k
        ⟨_, '>' :: rest, (n + 1, loc) :: c.groups⟩).isSome = true
      rw [hname]
      exact hk _ func v hat _ _
  rw [hloc]
  congr 2
  simp

/-- What the pattern of a function name consumes. -/
theorem matches_funcRE {n : Nat} {c d : Regex.Cursor} (h : Regex.Matches (funcRE n) c d) :
    ∃ blank mark func, c.rest = blank ++ (mark ++ ("FUNC=".toList ++ (func ++ d.rest))) ∧ Blank blank ∧
      (mark = [] ∨ ∃ b, mark = "(approx)".toList ++ b ∧ Blank b) ∧ func ≠ [] ∧
      ∀ a ∈ func, Str.isSpace a = false := by
  obtain ⟨_, hspaces, _, hopt, _, hlit, _, hfunc, rfl⟩ := h
  obtain ⟨blank, r₁, hbne, hr₁, hblank, rfl⟩ := Regex.matches_plus.mp hspaces
  obtain ⟨r₂, hr₂, rfl⟩ := Regex.matches_lit.mp hlit
  obtain ⟨func, r₃, hfne, hr₃, hname, rfl⟩ := Regex.matches_group_plus.mp hfunc
  have hnonspace : ∀ a ∈ func, Str.isSpace a = false := fun a ha =>
    Bool.not_eq_true' _ |>.mp (hname a ha)
  have hrest (mark : Text) (hmark : r₁ = mark ++ ("FUNC=".toList ++ r₂)) :
      c.rest = blank ++ (mark ++ ("FUNC=".toList ++ (func ++ r₃))) := by
    rw [hr₁, hmark, show r₂ = func ++ r₃ from hr₃]
  rcases hopt with hopt | rfl
  · obtain ⟨_, happrox, _, hmarkspace, rfl⟩ := hopt
    obtain ⟨r₄, hr₄, rfl⟩ := Regex.matches_lit.mp happrox
    obtain ⟨b, r₅, hb, hr₅, hbspace, rfl⟩ := Regex.matches_plus.mp hmarkspace
    refine ⟨blank, "(approx)".toList ++ b, func, hrest _ ?_, ⟨hbne, hblank⟩, .inr ⟨b, rfl, hb, hbspace⟩,
      hfne, hnonspace⟩
    rw [show r₁ = "(approx)".toList ++ r₄ from hr₄, show r₄ = b ++ r₅ from hr₅,
      show r₅ = "FUNC=".toList ++ r₂ from hr₂, List.append_assoc]
  · exact ⟨blank, [], func, hrest [] hr₂, ⟨hbne, hblank⟩, .inl rfl, hfne, hnonspace⟩

/-- What the pattern of a bracket consumes. -/
theorem matches_closedRE {n : Nat} {c d : Regex.Cursor} (h : Regex.Matches (closedRE n) c d) :
    ∃ loc blank mark func, c.rest = '<' :: (loc ++ '>' :: (blank ++ (mark ++ ("FUNC=".toList ++
        (func ++ d.rest))))) ∧ loc ≠ [] ∧ '>' ∉ loc ∧ Blank blank ∧
      (mark = [] ∨ ∃ b, mark = "(approx)".toList ++ b ∧ Blank b) ∧ func ≠ [] ∧
      ∀ a ∈ func, Str.isSpace a = false := by
  obtain ⟨_, hopen, _, hgroup, _, hclose, _, hname, rfl⟩ := h
  obtain ⟨r₁, hr₁, rfl⟩ := Regex.matches_lit.mp hopen
  obtain ⟨loc, r₂, hlne, hr₂, hloc, rfl⟩ := Regex.matches_group_plus.mp hgroup
  obtain ⟨r₃, hr₃, rfl⟩ := Regex.matches_lit.mp hclose
  obtain ⟨blank, mark, func, hrest, hblank, hmark, hfunc⟩ := matches_funcRE hname
  have hclosing : '>' ∉ loc := fun hmem => bne_iff_ne.mp (hloc '>' hmem) rfl
  refine ⟨loc, blank, mark, func, ?_, hlne, hclosing, hblank, hmark, hfunc⟩
  rw [hr₁, show r₁ = loc ++ r₂ from hr₂, show r₂ = ['>'] ++ r₃ from hr₃, ← hrest]
  rfl

/-- Where the pattern of a bracket succeeds at all. -/
theorem closes_of_closedRE {n : Nat} {c d : Regex.Cursor} (h : Regex.Matches (closedRE n) c d) :
    ∃ behind, c.rest = '<' :: behind ∧ Closes behind := by
  obtain ⟨loc, blank, mark, func, hrest, hne, hclosing, hblank, hmark, hfne, hfunc⟩ :=
    matches_closedRE h
  obtain ⟨first, func, rfl⟩ := List.exists_cons_of_ne_nil hfne
  exact ⟨_, hrest, loc, _, rfl, hne, hclosing, blank, mark, first, func ++ d.rest, rfl, hblank, hmark,
    hfunc first List.mem_cons_self⟩

/-- White space, a bracketed location and a function name. -/
def bracketRE (n : Nat) : Regex :=
  .cat [.plus true Regex.space, .lit ['<'], .group (n + 1) (.plus true notClosing), .lit ['>'],
    IrToAssembly.funcRE (n + 2)]

theorem exec_bracketRE {n : Nat} {c : Regex.Cursor} {w loc rest : Text}
    (hrest : c.rest = w ++ '<' :: (loc ++ '>' :: rest)) (hw : Blank w) (hne : loc ≠ [])
    (hclosing : '>' ∉ loc) (hfunc : NamesFunction rest)
    (hk : ∀ label func v, FuncAt rest label func v →
      ∀ before groups, (k ⟨before, v, groups⟩).isSome = true) :
    ∃ label func v, FuncAt rest label func v ∧ Regex.exec (bracketRE n) k c =
      k ⟨(w ++ '<' :: (loc ++ '>' :: (label ++ '=' :: func))).reverse ++ c.before, v,
        (n + 2, func) :: (n + 1, loc) :: c.groups⟩ := by
  obtain ⟨label, func, v, hat, hclosed⟩ := exec_closedRE (n := n)
    (c := c.advance w ('<' :: (loc ++ '>' :: rest))) rfl hne hclosing hfunc hk
  refine ⟨label, func, v, hat, ?_⟩
  have hbracket : Regex.exec (bracketRE n) k c =
      Regex.exec (closedRE n) k (c.advance w ('<' :: (loc ++ '>' :: rest))) := by
    refine Regex.exec_plus_longest (p := Regex.space) hw.1 hrest hw.2 ?_ ?_
    · rintro a as ⟨⟩
      decide
    · show (Regex.exec (closedRE n) k (c.advance w ('<' :: (loc ++ '>' :: rest)))).isSome = true
      rw [hclosed]
      exact hk _ func v hat _ _
  rw [hbracket, hclosed]
  congr 2
  simp [Regex.Cursor.advance]

/-- Where the bracket pattern succeeds at all. -/
theorem closes_of_matches {n : Nat} {c d : Regex.Cursor} (h : Regex.Matches (bracketRE n) c d) :
    ∃ w behind, c.rest = w ++ '<' :: behind ∧ Blank w ∧ Closes behind := by
  obtain ⟨_, hspace, hclosed⟩ := h
  obtain ⟨w, r₁, hwne, hr₁, hw, rfl⟩ := Regex.matches_plus.mp hspace
  obtain ⟨behind, hbehind, hcloses⟩ := closes_of_closedRE (n := n) hclosed
  exact ⟨w, behind, by rw [hr₁, show r₁ = '<' :: behind from hbehind], ⟨hwne, hw⟩, hcloses⟩

/-- What is left of the text behind which white space ends. -/
theorem BehindBlank.divide {s : Text} (h : BehindBlank s) : ∃ u w, s = u ++ w ∧ OnLine u ∧ Blank w ∧
    ∀ hne : u ≠ [], Str.isSpace (u.getLast hne) = false := by
  obtain ⟨u', w', rfl, hline, hblank⟩ := h
  have hsplit : (u' ++ w').rdropWhile Str.isSpace = u'.rdropWhile Str.isSpace := by
    rw [List.rdropWhile, List.reverse_append, List.dropWhile_append_of_pos, List.rdropWhile]
    exact fun a ha => hblank.2 a (List.mem_reverse.mp ha)
  refine ⟨(u' ++ w').rdropWhile Str.isSpace, (u' ++ w').rtakeWhile Str.isSpace,
    List.rdropWhile_append_rtakeWhile.symm, ?_, ⟨?_, fun c hc => List.mem_rtakeWhile_imp hc⟩,
    fun hne => Bool.eq_false_iff.mpr (List.rdropWhile_last_not _ _ hne)⟩
  · rw [hsplit]
    exact fun h => hline ((List.rdropWhile_prefix _ _).subset h)
  · intro hnil
    have hdrop : (u' ++ w').rdropWhile Str.isSpace = u' ++ w' := by
      conv_rhs => rw [← List.rdropWhile_append_rtakeWhile (p := Str.isSpace) (l := u' ++ w'), hnil]
      exact (List.append_nil _).symm
    rw [hsplit] at hdrop
    have hlength := congrArg List.length hdrop
    have hle := (List.rdropWhile_prefix Str.isSpace u').length_le
    rw [List.length_append] at hlength
    exact hblank.1 (List.length_eq_zero_iff.mp (by omega))

/-- The pattern of an instruction line reads the first location. -/
theorem exec_instRE {n : Nat} {c : Regex.Cursor} {s line before loc rest : Text}
    (hc : c.rest = s ++ line) (hs : Blank s) (hread : FirstAt BehindBlank line before loc rest)
    (hlonger : ∀ ys u w behind, line = ys ++ (u ++ (w ++ '<' :: behind)) → Blank ys → '\n' ∉ u →
      Blank w → ¬Closes behind)
    (hk : ∀ label func v, FuncAt rest label func v →
      ∀ before groups, (k ⟨before, v, groups⟩).isSome = true) :
    ∃ inst label func v, FuncAt rest label func v ∧ Regex.exec (instRE n) k c =
      k ⟨(s ++ (before ++ '<' :: (loc ++ '>' :: (label ++ '=' :: func)))).reverse ++ c.before, v,
        (n + 2, func) :: (n + 1, loc) :: (n, inst) :: c.groups⟩ := by
  -- the white space in front of the bracket, and the text before that
  obtain ⟨u, w, huw, hnewline, hw, hu⟩ := hread.side.divide
  have hline : line = u ++ (w ++ '<' :: (loc ++ '>' :: rest)) := by
    rw [hread.eq, huw, List.append_assoc]
  have hdot : ∀ a ∈ u, Regex.dot a = true := fun a ha => bne_iff_ne.mpr (by
    rintro rfl
    exact hnewline ha)
  obtain ⟨c₁, hc₁⟩ : ∃ d, d = c.advance s line := ⟨_, rfl⟩
  have hrest₁ : c₁.rest = u ++ (w ++ '<' :: (loc ++ '>' :: rest)) := by rw [hc₁, ← hline]; rfl
  obtain ⟨c₂, hc₂⟩ : ∃ d, d = (c₁.advance u (w ++ '<' :: (loc ++ '>' :: rest))).capture n c₁ :=
    ⟨_, rfl⟩
  obtain ⟨label, func, v, hat, hbracket⟩ := exec_bracketRE (n := n) (c := c₂) (by rw [hc₂]; rfl) hw
    hread.nonempty hread.closing hread.func hk
  have hsome : (Regex.exec (bracketRE n) k c₂).isSome = true := by
    rw [hbracket]
    exact hk label func v hat _ _
  have hlazy : Regex.exec (.group n (.star false Regex.dot)) (Regex.exec (bracketRE n) k) c₁ =
      Regex.exec (bracketRE n) k c₂ := by
    rw [hc₂] at hsome ⊢
    rw [Regex.exec_group]
    refine Regex.exec_star_lazy hrest₁ hdot (fun pre post hsplit hpost => ?_) hsome
    refine Regex.exec_eq_none fun d hd => ?_
    -- a bracket found from an earlier position would be the same one, with white space before it
    obtain ⟨w', behind, heq, hw', hcloses⟩ := closes_of_matches hd
    have heq : post ++ (w ++ '<' :: (loc ++ '>' :: rest)) = w' ++ '<' :: behind := heq
    have hpre : OnLine pre := fun h => hnewline (by rw [hsplit]; exact List.mem_append_left post h)
    have hle := hread.first (pre ++ w') behind
      (by rw [hline, hsplit, List.append_assoc, heq, List.append_assoc]) ⟨pre, w', rfl, hpre, hw'⟩ hcloses
    rw [huw, hsplit, List.append_assoc, List.length_append, List.length_append, List.length_append]
      at hle
    obtain ⟨z, hz⟩ := List.prefix_of_prefix_length_le (List.prefix_append post _)
      (heq ▸ List.prefix_append w' _) (by omega)
    have hlast := hw'.2 (post.getLast hpost) (by
      rw [← hz]
      exact List.mem_append_left z (List.getLast_mem hpost))
    have hune : u ≠ [] := by
      rw [hsplit]
      exact List.append_ne_nil_of_right_ne_nil pre hpost
    have hugetLast := hu hune
    simp only [hsplit, List.getLast_append_of_ne_nil _ hpost] at hugetLast
    rw [hugetLast] at hlast
    cases hlast
  have hinst : Regex.exec (instRE n) k c = Regex.exec (.plus true Regex.space)
      (Regex.exec (.group n (.star false Regex.dot)) (Regex.exec (bracketRE n) k)) c := rfl
  have hplus : Regex.exec (instRE n) k c = Regex.exec (bracketRE n) k c₂ := by
    rw [← hlazy] at hsome ⊢
    rw [hc₁] at hsome ⊢
    rw [hinst]
    refine Regex.exec_plus_greedy (p := Regex.space) hs.1 hc hs.2 (fun ys rest' hys hne hspace => ?_)
      hsome
    refine Regex.exec_eq_none fun d hd => Regex.exec_eq_none fun e he => ?_
    obtain ⟨_, ⟨u', rest'', hu', hdots, rfl⟩, rfl⟩ := hd
    obtain ⟨w', behind, heq, hw', hcloses⟩ := closes_of_matches he
    have hu' : rest' = u' ++ rest'' := hu'
    have heq : rest'' = w' ++ '<' :: behind := heq
    refine absurd hcloses (hlonger ys u' w' behind (by rw [hys, hu', heq]) ⟨hne, hspace⟩ ?_ hw')
    exact fun hmem => bne_iff_ne.mp (hdots _ hmem) rfl
  refine ⟨u, label, func, v, hat, ?_⟩
  have hcapture : c₂ = ⟨u.reverse ++ (s.reverse ++ c.before), w ++ '<' :: (loc ++ '>' :: rest),
      (n, u) :: c.groups⟩ := by
    rw [hc₂, Regex.Cursor.capture_eq hrest₁, hc₁]
    rfl
  rw [hplus, hbracket, hcapture, huw]
  congr 2
  simp

end Patterns

end IrToAssembly

end LinuxAnalysis
