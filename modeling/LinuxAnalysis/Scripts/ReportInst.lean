import LinuxAnalysis.Scripts.ReportLine

/-!
# The line of an instruction

An instruction is printed on one line, or over several as a `switch` is.  Of one line the patterns
always read a location; of several only where a bracket opens on the first one and is not closed before
the printed location is.
-/

open LinuxAnalysis.Lib

namespace LinuxAnalysis

namespace IrToAssembly

/-! ## The text of an instruction -/

/-- What stands between the brackets of a printed location. -/
def printedLocation (l : Location) : Text :=
  l.filename ++ ':' :: Str.str l.line ++ if l.column ≠ 0 then ':' :: Str.str l.column else []

/-- An opening bracket behind white space. -/
structure Opening (s before behind : Text) : Prop where
  eq : s = before ++ '<' :: behind
  blank : ∃ a w, before = a ++ [w] ∧ Str.isSpace w = true

/-- The pattern reads a location from a bracket in the text that is closed in front of a function
name, and from one that only the printed location closes. -/
def Misleads (behind : Text) : Prop := '>' ∉ behind ∨ Closes behind

/-- The first bracket of the text that misleads. -/
structure FirstMisleading (text before behind : Text) : Prop where
  opening : Opening text before behind
  misleads : Misleads behind
  first : ∀ before' behind', Opening text before' behind' → Misleads behind' →
    before.length ≤ before'.length

/-- `Reads text l before loc`: behind `before` the pattern reads `loc` from the line of an instruction
with the given text, `l` being its printed location. -/
inductive Reads (text : Text) (l : Location) : Text → Text → Prop
  | printed (h : ∀ before behind, Opening (text.dropWhile Str.isSpace) before behind →
      ¬Misleads behind) :
    Reads text l (text.dropWhile Str.isSpace ++ [' ']) (printedLocation l)
  | inner {before loc rest : Text} (hclosing : '>' ∉ loc)
      (h : FirstMisleading (text.dropWhile Str.isSpace) before (loc ++ '>' :: rest)) :
    Reads text l before loc
  | across {before behind : Text} (hopen : '>' ∉ behind)
      (h : FirstMisleading (text.dropWhile Str.isSpace) before behind) :
    Reads text l before (behind ++ ' ' :: '<' :: printedLocation l)

theorem FirstMisleading.unique {text b₁ r₁ b₂ r₂ : Text} (h₁ : FirstMisleading text b₁ r₁)
    (h₂ : FirstMisleading text b₂ r₂) : b₁ = b₂ ∧ r₁ = r₂ := by
  have hlength : b₁.length = b₂.length :=
    le_antisymm (h₁.first b₂ r₂ h₂.opening h₂.misleads) (h₂.first b₁ r₁ h₁.opening h₁.misleads)
  obtain ⟨hb, hr⟩ := List.append_inj (h₁.opening.eq.symm.trans h₂.opening.eq) hlength
  exact ⟨hb, (List.cons.inj hr).2⟩

theorem Reads.unique {text : Text} {l : Location} {b₁ loc₁ b₂ loc₂ : Text}
    (h₁ : Reads text l b₁ loc₁) (h₂ : Reads text l b₂ loc₂) : b₁ = b₂ ∧ loc₁ = loc₂ := by
  cases h₁ with
  | printed h₁ =>
    cases h₂ with
    | printed _ => exact ⟨rfl, rfl⟩
    | inner _ h => exact absurd h.misleads (h₁ _ _ h.opening)
    | across _ h => exact absurd h.misleads (h₁ _ _ h.opening)
  | inner hclosing h =>
    cases h₂ with
    | printed h₂ => exact absurd h.misleads (h₂ _ _ h.opening)
    | inner hclosing' h' =>
      obtain ⟨hb, hr⟩ := h.unique h'
      exact ⟨hb, (Str.append_cons_inj hclosing hclosing' hr).1⟩
    | across hopen h' =>
      rw [← (h.unique h').2] at hopen
      exact absurd (List.mem_append_right _ List.mem_cons_self) hopen
  | across hopen h =>
    cases h₂ with
    | printed h₂ => exact absurd h.misleads (h₂ _ _ h.opening)
    | inner hclosing h' =>
      rw [(h.unique h').2] at hopen
      exact absurd (List.mem_append_right _ List.mem_cons_self) hopen
    | across hopen' h' =>
      obtain ⟨hb, hr⟩ := h.unique h'
      exact ⟨hb, by rw [hr]⟩

/-- Without an opening bracket in the text the printed location is read. -/
theorem Reads.of_plain {text : Text} {l : Location} {before loc : Text} (hplain : '<' ∉ text)
    (h : Reads text l before loc) : loc = printedLocation l := by
  have hnot {b r : Text} (ho : Opening (text.dropWhile Str.isSpace) b r) : False := by
    apply hplain
    apply (List.dropWhile_suffix Str.isSpace).subset
    rw [ho.eq]
    simp
  cases h with
  | printed _ => rfl
  | inner _ h => exact (hnot h.opening).elim
  | across _ h => exact (hnot h.opening).elim

theorem NamesFunction.append {s : Text} (h : NamesFunction s) (t : Text) : NamesFunction (s ++ t) := by
  obtain ⟨blank, mark, first, rest, rfl, hblank, hmark, hfirst⟩ := h
  exact ⟨blank, mark, first, rest ++ t, by simp, hblank, hmark, hfirst⟩

/-- A function name read in front of the printed location lies in the text. -/
theorem NamesFunction.of_append {b r : Text} (h : NamesFunction (b ++ ' ' :: '<' :: r)) :
    NamesFunction b := by
  obtain ⟨blank, mark, first, rest, heq, hblank, hmark, hfirst⟩ := h
  obtain ⟨label, hlabel⟩ : ∃ label, label = blank ++ (mark ++ "FUNC=".toList) := ⟨_, rfl⟩
  have heq : b ++ ' ' :: '<' :: r = (label ++ [first]) ++ rest := by
    rw [heq, hlabel]
    simp
  -- the label holds no bracket, so it ends before the one behind `b`
  have hopen : '<' ∉ label := by
    have hspace {s : Text} (hs : Blank s) : '<' ∉ s := fun h =>
      ne_of_isSpace (hs.2 '<' h) (by decide) rfl
    rw [hlabel]
    simp only [List.mem_append, not_or]
    refine ⟨hspace hblank, ?_, by decide⟩
    rcases hmark with rfl | ⟨s, rfl, hs⟩
    · exact List.not_mem_nil
    · rw [List.mem_append]
      exact not_or.mpr ⟨by decide, hspace hs⟩
  rcases List.append_eq_append_iff.mp heq with ⟨z, hz, hr⟩ | ⟨z, hz, _⟩
  · -- the name would begin with the blank or with the bracket behind it
    cases z with
    | nil =>
      rw [List.append_nil] at hz
      exact ⟨blank, mark, first, [], by rw [← hz, hlabel]; simp, hblank, hmark, hfirst⟩
    | cons x z =>
      obtain ⟨rfl, htail⟩ := List.cons.inj hr
      cases z with
      | nil =>
        rw [List.singleton_inj.mp (List.append_inj' hz rfl).2] at hfirst
        exact absurd hfirst (by decide)
      | cons y z =>
        obtain ⟨rfl, _⟩ := List.cons.inj htail
        rcases List.eq_nil_or_concat z with rfl | ⟨z, y, rfl⟩
        · have hlast : label = b ++ [' '] := by
            refine (List.append_inj' (?_ : label ++ [first] = (b ++ [' ']) ++ ['<']) rfl).1
            rw [hz, List.append_assoc]
            rfl
          have hend : (blank ++ (mark ++ "FUNC".toList)) ++ ['='] = b ++ [' '] := by
            rw [← hlast, hlabel]
            simp
          exact absurd (List.singleton_inj.mp (List.append_inj' hend rfl).2) (by decide)
        · have hin : label = b ++ ' ' :: '<' :: z := by
            refine (List.append_inj' (?_ : label ++ [first] = (b ++ ' ' :: '<' :: z) ++ [y]) rfl).1
            rw [hz, List.append_assoc, List.concat_eq_append]
            rfl
          rw [hin] at hopen
          exact absurd (List.mem_append_right b (by simp)) hopen
  · exact ⟨blank, mark, first, z, by rw [hz, hlabel]; simp, hblank, hmark, hfirst⟩

theorem FuncAt.not_mem_label {s label func rest : Text} (h : FuncAt s label func rest) {c : Char}
    (hspace : Str.isSpace c = false) (hc : c ∉ "(approx)FUNC".toList) : c ∉ label := fun hmem =>
  (h.label c hmem).elim (fun h => ne_of_isSpace h hspace rfl) hc

/-- A name behind a label stands on the line of the label. -/
theorem name_same_line {z more label func rest : Text} (hlabel : '=' ∉ label)
    (hfunc : ∀ a ∈ func, Str.isSpace a = false) (hz : '=' ∈ z)
    (heq : z ++ '\n' :: more = label ++ '=' :: (func ++ rest)) :
    ∃ v, rest = v ++ '\n' :: more ∧ z = label ++ '=' :: (func ++ v) := by
  obtain ⟨z₁, z₂, rfl, hz₁⟩ := List.eq_append_cons_of_mem hz
  rw [List.append_assoc, List.cons_append] at heq
  obtain ⟨rfl, hsplit⟩ := Str.append_cons_inj hz₁ hlabel heq
  rcases List.append_eq_append_iff.mp hsplit with ⟨v, hname, hrest⟩ | ⟨v, rfl, hrest⟩
  · cases v with
    | nil =>
      rw [List.append_nil] at hname
      exact ⟨[], hrest.symm, by rw [hname, List.append_nil]⟩
    | cons x v =>
      obtain ⟨rfl, _⟩ := List.cons.inj hrest
      have := hfunc '\n' (by rw [hname]; simp)
      exact absurd this (by decide)
  · exact ⟨v, hrest, rfl⟩

theorem FuncAt.same_line {z more label func rest : Text}
    (h : FuncAt (z ++ '\n' :: more) label func rest) (hz : '=' ∈ z) :
    ∃ v, rest = v ++ '\n' :: more ∧ z = label ++ '=' :: (func ++ v) :=
  name_same_line (h.not_mem_label (by decide) (by decide)) h.func hz h.eq

section Line

variable {t p q : Text}

theorem bracket_cases {m before behind : Text}
    (h : t ++ ' ' :: '<' :: m = before ++ '<' :: behind) :
    (∃ b, t = before ++ '<' :: b ∧ behind = b ++ ' ' :: '<' :: m) ∨
      (before = t ++ [' '] ∧ behind = m) ∨ (t ++ [' ']).length < before.length := by
  rcases List.append_eq_append_iff.mp h with ⟨z, rfl, hz⟩ | ⟨z, ht, hz⟩
  · rcases z with _ | ⟨x, _ | ⟨y, z⟩⟩
    · cases hz
    · obtain ⟨rfl, hbracket⟩ := List.cons.inj hz
      exact .inr (.inl ⟨rfl, (List.cons.inj hbracket).2.symm⟩)
    · refine .inr (.inr ?_)
      simp
  · cases z with
    | nil => cases hz
    | cons x z =>
      obtain ⟨rfl, hbehind⟩ := List.cons.inj hz
      exact .inl ⟨z, ht, hbehind⟩

/-- A bracket of the text can be read as a location in the line if it misleads. -/
theorem closes_append_iff {b : Text} (hp : '>' ∉ p) (hq : NamesFunction q) :
    Closes (b ++ ' ' :: '<' :: (p ++ '>' :: q)) ↔ Misleads b := by
  constructor
  · rintro ⟨loc, rest, heq, hne, hclosing, hfunc⟩
    refine or_iff_not_imp_left.mpr fun hmem => ?_
    obtain ⟨b₁, b₂, rfl, hb₁⟩ := List.eq_append_cons_of_mem (not_not.mp hmem)
    rw [List.append_assoc, List.cons_append] at heq
    obtain ⟨rfl, rfl⟩ := Str.append_cons_inj hb₁ hclosing heq
    exact ⟨b₁, b₂, rfl, hne, hclosing, hfunc.of_append⟩
  · rintro (hopen | ⟨loc, rest, rfl, hne, hclosing, hfunc⟩)
    · refine ⟨b ++ ' ' :: '<' :: p, q, by simp, by simp, ?_, hq⟩
      rw [List.mem_append, List.mem_cons, List.mem_cons]
      rintro (h | h | h | h)
      · exact hopen h
      · cases h
      · cases h
      · exact hp h
    · exact ⟨loc, rest ++ ' ' :: '<' :: (p ++ '>' :: q), by simp, hne, hclosing, hfunc.append _⟩

/-- No bracket of a printed line stands behind the printed one. -/
theorem length_le_printed {before behind : Text} (hp : '<' ∉ p) (hq : '<' ∉ q)
    (h : t ++ ' ' :: '<' :: (p ++ '>' :: q) = before ++ '<' :: behind) :
    before.length ≤ (t ++ [' ']).length := by
  by_contra hlt
  have hprinted : (t ++ [' ', '<']) ++ (p ++ '>' :: q) = before ++ '<' :: behind := by
    rw [← h]
    simp
  obtain ⟨z, hz⟩ := List.prefix_of_prefix_length_le (List.prefix_append (t ++ [' ', '<']) _)
    (hprinted ▸ List.prefix_append before _) (by
      simp only [List.length_append, List.length_cons, List.length_nil] at hlt ⊢
      omega)
  rw [← hz, List.append_assoc _ z] at hprinted
  have hmem : '<' ∈ p ++ '>' :: q := by
    rw [List.append_cancel_left hprinted]
    exact List.mem_append_right z List.mem_cons_self
  rcases List.mem_append.mp hmem with hmem | hmem
  · exact hp hmem
  · exact hq ((List.mem_cons.mp hmem).resolve_left (by decide))

/-- The first of the locations that can be read. -/
theorem HasLocation.exists_firstAt {B : Text → Prop} {s : Text} (h : HasLocation B s) :
    ∃ before loc rest, FirstAt B s before loc rest := by
  have hexists : ∃ n before behind, before.length = n ∧
      s = before ++ '<' :: behind ∧ B before ∧ Closes behind := by
    obtain ⟨before, behind, heq, hB, hcloses⟩ := h
    exact ⟨_, before, behind, rfl, heq, hB, hcloses⟩
  classical
  obtain ⟨before, behind, hlength, heq, hside, loc, rest, rfl, hlne, hclosing, hfunc⟩ :=
    Nat.find_spec hexists
  refine ⟨before, loc, rest, heq, hside, hlne, hclosing, hfunc, fun before' behind' ho hb hc => ?_⟩
  rw [hlength]
  exact Nat.find_min' hexists ⟨before', behind', rfl, ho, hb, hc⟩

/-- Of a printed line the printed location can be read, if no other. -/
theorem hasLocation_printed {B : Text → Prop} (hB : B (t ++ [' '])) (hne : p ≠ []) (hp : '>' ∉ p)
    (hq : NamesFunction q) : HasLocation B (t ++ ' ' :: '<' :: (p ++ '>' :: q)) :=
  ⟨t ++ [' '], p ++ '>' :: q, by simp, hB, p, q, rfl, hne, hp, hq⟩

/-- The location read ends where the printed one does or in front of it. -/
theorem FirstAt.in_line {B : Text → Prop} {before loc rest : Text}
    (h : FirstAt B (t ++ ' ' :: '<' :: (p ++ '>' :: q)) before loc rest)
    (hle : before.length ≤ (t ++ [' ']).length) :
    ∃ x, rest = x ++ q ∧ before ++ '<' :: (loc ++ '>' :: x) = t ++ ' ' :: '<' :: (p ++ ['>']) := by
  have heq : (t ++ [' ']) ++ '<' :: (p ++ '>' :: q) = before ++ '<' :: (loc ++ '>' :: rest) := by
    rw [← h.eq]
    simp
  obtain ⟨y, hy⟩ := List.prefix_of_prefix_length_le (List.prefix_append before _)
    (heq ▸ List.prefix_append (t ++ [' ']) _) hle
  have hline : t ++ ' ' :: '<' :: (p ++ ['>']) = before ++ (y ++ '<' :: (p ++ ['>'])) := by
    rw [← List.append_assoc, hy]
    simp
  rw [← hy, List.append_assoc] at heq
  have heq := List.append_cancel_left heq
  -- the text between the two opening brackets, with the printed location
  obtain ⟨z, hz⟩ : ∃ z, y ++ '<' :: p = '<' :: z := by
    cases y with
    | nil => exact ⟨p, rfl⟩
    | cons a y =>
      obtain ⟨rfl, _⟩ := List.cons.inj heq
      exact ⟨y ++ '<' :: p, rfl⟩
  have hloc : '<' :: (z ++ '>' :: q) = '<' :: (loc ++ '>' :: rest) := by
    rw [← heq, ← List.cons_append, ← hz]
    simp
  have hloc := (List.cons.inj hloc).2
  have hbehind : y ++ '<' :: (p ++ ['>']) = '<' :: (z ++ ['>']) := by
    rw [show y ++ '<' :: (p ++ ['>']) = (y ++ '<' :: p) ++ ['>'] by simp, hz]
    rfl
  rw [hline, hbehind]
  by_cases hmem : '>' ∈ z
  · obtain ⟨z₁, z₂, rfl, hz₁⟩ := List.eq_append_cons_of_mem hmem
    rw [List.append_assoc, List.cons_append] at hloc
    obtain ⟨rfl, rfl⟩ := Str.append_cons_inj hz₁ h.closing hloc
    exact ⟨z₂ ++ ['>'], by simp, by simp⟩
  · obtain ⟨rfl, rfl⟩ := Str.append_cons_inj hmem h.closing hloc
    exact ⟨[], rfl, rfl⟩

/-- A bracket of the line is closed in it or not at all, whatever stands behind the function name. -/
theorem FirstAt.append {B : Text → Prop} {before loc rest : Text}
    (h : FirstAt B (t ++ ' ' :: '<' :: (p ++ '>' :: q)) before loc rest)
    (hle : before.length ≤ (t ++ [' ']).length) (hp : '>' ∉ p) (hq : NamesFunction q) (more : Text) :
    FirstAt B (t ++ ' ' :: '<' :: (p ++ '>' :: (q ++ more))) before loc (rest ++ more) := by
  have hassoc : t ++ ' ' :: '<' :: (p ++ '>' :: (q ++ more)) =
      (t ++ ' ' :: '<' :: (p ++ '>' :: q)) ++ more := by simp
  refine ⟨?_, h.side, h.nonempty, h.closing, h.func.append more, fun before' behind' heq hb hc => ?_⟩
  · rw [hassoc, h.eq]
    simp
  · rcases bracket_cases heq with ⟨b, ht, rfl⟩ | ⟨rfl, rfl⟩ | hlt
    · have hmisleads := (closes_append_iff hp (hq.append more)).mp hc
      refine h.first before' (b ++ ' ' :: '<' :: (p ++ '>' :: q)) (by rw [ht]; simp) hb ?_
      exact (closes_append_iff hp hq).mpr hmisleads
    · exact hle
    · omega

/-- What the first location of a printed line is. -/
theorem reads_of_firstReading {text before loc rest : Text} {l : Location}
    (hp : '>' ∉ printedLocation l) (hq : NamesFunction q)
    (h : FirstAt EndsBlank (text.dropWhile Str.isSpace ++ ' ' :: '<' ::
      (printedLocation l ++ '>' :: q)) before loc rest) :
    Reads text l before loc ∧ before <+: text.dropWhile Str.isSpace ++ [' '] ∧
      ∃ x, rest = x ++ q ∧ (x = [] ∨
        ∃ b, text.dropWhile Str.isSpace = before ++ '<' :: (loc ++ '>' :: b) ∧
          x = b ++ ' ' :: '<' :: (printedLocation l ++ ['>'])) := by
  -- an opening bracket of the text that misleads is one of the line
  have hline {b r : Text} (ho : Opening (text.dropWhile Str.isSpace) b r) :
      Opening (text.dropWhile Str.isSpace ++ ' ' :: '<' :: (printedLocation l ++ '>' :: q)) b
        (r ++ ' ' :: '<' :: (printedLocation l ++ '>' :: q)) :=
    ⟨by rw [ho.eq]; simp, ho.blank⟩
  have hle := h.first (text.dropWhile Str.isSpace ++ [' ']) (printedLocation l ++ '>' :: q)
    (by simp) ⟨_, ' ', rfl, by decide⟩ ⟨_, q, rfl, by simp [printedLocation], hp, hq⟩
  rcases bracket_cases h.eq with ⟨b, hb', hb⟩ | ⟨rfl, hb⟩ | hlt
  · have ho : Opening (text.dropWhile Str.isSpace) before b := ⟨hb', h.side⟩
    have hmisleads : Misleads b := (closes_append_iff hp hq).mp
      (hb ▸ ⟨loc, rest, rfl, h.nonempty, h.closing, h.func⟩)
    have hfirst : FirstMisleading (text.dropWhile Str.isSpace) before b :=
      ⟨ho, hmisleads, fun b' r' ho' hm' => h.first b' _ (hline ho').eq ho'.blank
        ((closes_append_iff hp hq).mpr hm')⟩
    have hstart : before <+: text.dropWhile Str.isSpace ++ [' '] :=
      ⟨'<' :: b ++ [' '], by rw [ho.eq]; simp⟩
    by_cases hmem : '>' ∈ b
    · obtain ⟨b₁, b₂, rfl, hb₁⟩ := List.eq_append_cons_of_mem hmem
      rw [List.append_assoc, List.cons_append] at hb
      obtain ⟨rfl, rfl⟩ := Str.append_cons_inj h.closing hb₁ hb
      refine ⟨.inner hb₁ hfirst, hstart, _, ?_, .inr ⟨b₂, ho.eq, rfl⟩⟩
      simp
    · have hopen : '>' ∉ b ++ ' ' :: '<' :: printedLocation l := by
        rw [List.mem_append, List.mem_cons, List.mem_cons]
        rintro (hin | hin | hin | hin)
        · exact hmem hin
        · cases hin
        · cases hin
        · exact hp hin
      have hsplit : loc ++ '>' :: rest = (b ++ ' ' :: '<' :: printedLocation l) ++ '>' :: q := by
        rw [hb]
        simp
      obtain ⟨rfl, rfl⟩ := Str.append_cons_inj h.closing hopen hsplit
      exact ⟨.across hmem hfirst, hstart, [], rfl, .inl rfl⟩
  · obtain ⟨rfl, rfl⟩ := Str.append_cons_inj h.closing hp hb
    refine ⟨.printed fun b r ho hm => ?_, List.prefix_refl _, [], rfl, .inl rfl⟩
    have := h.first b _ (hline ho).eq ho.blank ((closes_append_iff hp hq).mpr hm)
    have hlength := congrArg List.length ho.eq
    simp only [List.length_append, List.length_cons, List.length_nil] at this hlength
    omega
  · omega

end Line

/-! ## Printed lines -/

/-- An instruction with a known location, printed on one line. -/
structure Located (i : ReportedInst) (l : Location) : Prop where
  location : i.location = some l
  text : ∀ c ∈ "\n\r".toList, c ∉ i.text
  filename : ∀ c ∈ ":<>\n\r".toList, c ∉ l.filename
  line : 0 < l.line

/-- An instruction printed on one line, its location being known or not. -/
structure OneLine (i : ReportedInst) : Prop where
  text : ∀ c ∈ "\n\r".toList, c ∉ i.text
  filename : ∀ l, i.location = some l → ∀ c ∈ "<>\n\r".toList, c ∉ l.filename

/-- A text that goes over several lines, with no label of the report in it. -/
structure Folded (text : Text) : Prop where
  breaks : '\n' ∈ text.dropWhile Str.isSpace
  first : ∀ s, text.dropWhile Str.isSpace ≠ '<' :: s
  func : ¬"FUNC=".toList <:+: text
  label : ¬"Earliest:".toList <:+: text

/-- An instruction printed on one line or on several. -/
structure Printed (i : ReportedInst) : Prop where
  text : '\r' ∉ i.text
  filename : ∀ l, i.location = some l → ∀ c ∈ "<>\n\r".toList, c ∉ l.filename
  folded : '\n' ∈ i.text → Folded i.text

theorem OneLine.printed {i : ReportedInst} (h : OneLine i) : Printed i :=
  ⟨h.text _ (by decide), h.filename, fun hin => absurd hin (h.text _ (by decide))⟩

theorem Printed.oneLine {i : ReportedInst} (h : Printed i) (htext : '\n' ∉ i.text) : OneLine i := by
  refine ⟨fun c hc => ?_, h.filename⟩
  rcases List.mem_cons.mp hc with rfl | hc
  · exact htext
  · rw [List.mem_singleton.mp hc]
    exact h.text

theorem Located.oneLine {i : ReportedInst} {l : Location} (h : Located i l) : OneLine i := by
  refine ⟨h.text, fun l' hl' c hc => ?_⟩
  obtain rfl := Option.some.inj (h.location.symm.trans hl')
  exact h.filename c (List.mem_cons_of_mem _ hc)

/-- What stands between the brackets behind an instruction. -/
def bracketed : Option Location → Text
  | none => "UNKNOWN".toList
  | some l => printedLocation l

/-- The line of an instruction behind the white space in front of it, up to the line break. -/
def shownLine (level : Int) (name : Text) (i : ReportedInst) : Text :=
  i.text.dropWhile Str.isSpace ++ locationText i.location ++ " FUNC=".toList ++ name ++
    " L=".toList ++ Str.strInt level

theorem not_mem_str {n : Nat} {c : Char} (h : Str.isHexDigit c = false) : c ∉ Str.str n := by
  intro hmem
  rw [Str.isHexDigit_toDigits (by omega) (by omega) hmem] at h
  cases h

theorem not_mem_strInt {z : Int} {c : Char} (h : Str.isHexDigit c = false) (hminus : c ≠ '-') :
    c ∉ Str.strInt z := by
  cases z with
  | ofNat n => exact not_mem_str h
  | negSucc n =>
    intro hmem
    exact not_mem_str h ((List.mem_cons.mp hmem).resolve_left hminus)

theorem not_mem_printedLocation {l : Location} {c : Char} (h : c ∉ l.filename) (hcolon : c ≠ ':')
    (hdigit : Str.isHexDigit c = false) : c ∉ printedLocation l := by
  unfold printedLocation
  rw [List.mem_append, List.mem_append, List.mem_cons]
  rintro ((hmem | hmem | hmem) | hmem)
  · exact h hmem
  · exact hcolon hmem
  · exact not_mem_str hdigit hmem
  · split at hmem
    · rcases List.mem_cons.mp hmem with hmem | hmem
      · exact hcolon hmem
      · exact not_mem_str hdigit hmem
    · cases hmem

/-- What `instLine` prints behind the closing bracket. -/
def lineTail (level : Int) (name : Text) (l : Location) : Text :=
  (if l.approx then " (approx)".toList else []) ++ (" FUNC=".toList ++ (name ++ (" L=".toList ++
    Str.strInt level)))

theorem locationText_some (l : Location) : locationText (some l) =
    ' ' :: '<' :: (printedLocation l ++ '>' :: if l.approx then " (approx)".toList else []) := by
  have h : locationText (some l) = " <".toList ++ l.filename ++ ':' :: Str.str l.line ++
      (if l.column ≠ 0 then ':' :: Str.str l.column else []) ++ ['>'] ++
      (if l.approx then " (approx)".toList else []) := rfl
  rw [h, printedLocation, show " <".toList = [' ', '<'] from rfl]
  simp only [List.append_assoc, List.cons_append, List.nil_append]

/-- What is printed behind a location that may be unknown. -/
def lineEnd (level : Int) (name : Text) (location : Option Location) : Text :=
  lineTail level name (location.getD ⟨[], 0, 0, false⟩)

theorem locationText_eq (level : Int) (name : Text) (location : Option Location) :
    locationText location ++ " FUNC=".toList ++ name ++ " L=".toList ++ Str.strInt level =
      ' ' :: '<' :: (bracketed location ++ '>' :: lineEnd level name location) := by
  cases location with
  | none =>
    rw [lineEnd, Option.getD_none, lineTail]
    simp only [List.append_assoc]
    rfl
  | some l =>
    rw [locationText_some, lineEnd, Option.getD_some, lineTail, bracketed]
    simp only [List.append_assoc, List.cons_append]

theorem instLine_eq {level : Int} {name : Text} {i : ReportedInst} : instLine level name i =
    i.text ++ ' ' :: '<' :: (bracketed i.location ++ '>' :: (lineEnd level name i.location ++ ['\n'])) := by
  have h : instLine level name i = i.text ++ ((locationText i.location ++ " FUNC=".toList ++ name ++
      " L=".toList ++ Str.strInt level) ++ ['\n']) := by
    rw [instLine]
    simp only [List.append_assoc]
  rw [h, locationText_eq]
  simp only [List.append_assoc, List.cons_append]

theorem shownLine_eq {level : Int} {name : Text} {i : ReportedInst} : shownLine level name i =
    i.text.dropWhile Str.isSpace ++ ' ' :: '<' ::
      (bracketed i.location ++ '>' :: lineEnd level name i.location) := by
  rw [← locationText_eq, shownLine]
  simp only [List.append_assoc]

theorem Printed.not_mem_bracketed {i : ReportedInst} (hi : Printed i) {c : Char}
    (hc : c ∈ "<>\n\r".toList) : c ∉ bracketed i.location := by
  have hcolon : ∀ c ∈ "<>\n\r".toList, c ≠ ':' ∧ Str.isHexDigit c = false ∧ c ∉ "UNKNOWN".toList := by
    decide
  cases hl : i.location with
  | none => exact (hcolon c hc).2.2
  | some l => exact not_mem_printedLocation (hi.filename l hl c hc) (hcolon c hc).1 (hcolon c hc).2.1

theorem bracketed_ne_nil (location : Option Location) : bracketed location ≠ [] := by
  cases location with
  | none => decide
  | some l => simp [bracketed, printedLocation]

theorem namesFunction_lineTail {level : Int} {name : Text} (hne : name ≠ [])
    (hname : ∀ c ∈ name, Str.isSpace c = false) (l : Location) (more : Text) :
    NamesFunction (lineTail level name l ++ more) := by
  have hspace : Blank [' '] := ⟨List.cons_ne_nil _ _, by decide⟩
  cases name with
  | nil => exact absurd rfl hne
  | cons first name =>
    have hfirst := hname first List.mem_cons_self
    unfold lineTail
    cases l.approx with
    | true =>
      refine ⟨[' '], "(approx)".toList ++ [' '], first,
        name ++ (" L=".toList ++ Str.strInt level) ++ more, ?_, hspace, .inr ⟨_, rfl, hspace⟩, hfirst⟩
      simp only [List.append_assoc, List.cons_append, if_true]
      rfl
    | false =>
      refine ⟨[' '], [], first, name ++ (" L=".toList ++ Str.strInt level) ++ more, ?_, hspace,
        .inl rfl, hfirst⟩
      simp only [List.append_assoc, List.cons_append]
      rfl

theorem not_mem_lineTail {level : Int} {name : Text} {l : Location} {c : Char} (hname : c ∉ name)
    (hdigit : Str.isHexDigit c = false) (hminus : c ≠ '-')
    (htext : c ∉ " (approx) FUNC= L=".toList) : c ∉ lineTail level name l := by
  have hlabel : ∀ s ∈ [" (approx)".toList, " FUNC=".toList, " L=".toList], c ∉ s := by
    intro s hs hmem
    refine htext ?_
    rw [show " (approx) FUNC= L=".toList = " (approx)".toList ++ (" FUNC=".toList ++ " L=".toList)
      from rfl, List.mem_append, List.mem_append]
    simp only [List.mem_cons, List.not_mem_nil, or_false] at hs
    rcases hs with rfl | rfl | rfl
    · exact .inl hmem
    · exact .inr (.inl hmem)
    · exact .inr (.inr hmem)
  unfold lineTail
  simp only [List.mem_append, not_or]
  refine ⟨?_, hlabel _ (by simp), hname, hlabel _ (by simp), not_mem_strInt hdigit hminus⟩
  split
  · exact hlabel _ (by simp)
  · exact List.not_mem_nil

/-- After an instruction without a text the only bracket is the printed one. -/
theorem not_closes_of_blank {z more ys u w behind : Text} (hopen : '<' ∉ z)
    (hmore : ∀ ws r, more = ws ++ '<' :: r → ∃ x ∈ ws, Str.isSpace x = false)
    (heq : ' ' :: '<' :: (z ++ '\n' :: more) = ys ++ (u ++ (w ++ '<' :: behind))) (hys : Blank ys)
    (hu : '\n' ∉ u) (hw : Blank w) : False := by
  have hw_more {ws : Text} (hws : ∀ x ∈ ws, Str.isSpace x = true) (h : more = ws ++ '<' :: behind) :
      False := by
    obtain ⟨x, hx, hspace⟩ := hmore ws behind h
    rw [hws x hx] at hspace
    cases hspace
  rcases ys with _ | ⟨y, _ | ⟨y', ys⟩⟩
  · exact hys.1 rfl
  · obtain ⟨_, heq⟩ := List.cons.inj heq
    cases u with
    | nil =>
      cases w with
      | nil => exact hw.1 rfl
      | cons x w =>
        have hx := hw.2 x List.mem_cons_self
        rw [← (List.cons.inj heq).1] at hx
        exact absurd hx (by decide)
    | cons x u =>
      obtain ⟨_, heq⟩ := List.cons.inj heq
      have hu : '\n' ∉ u := fun h => hu (List.mem_cons_of_mem x h)
      -- the bracket lies behind the line break, and only white space between them
      rcases List.append_eq_append_iff.mp heq with ⟨a, rfl, ha⟩ | ⟨a, rfl, ha⟩
      · cases a with
        | nil =>
          cases w with
          | nil => exact hw.1 rfl
          | cons x w =>
            obtain ⟨rfl, hmore'⟩ := List.cons.inj ha
            exact hw_more (fun x hx => hw.2 x (List.mem_cons_of_mem _ hx)) hmore'
        | cons x a =>
          obtain ⟨rfl, _⟩ := List.cons.inj ha
          exact hu (List.mem_append_right z List.mem_cons_self)
      · rcases List.append_eq_append_iff.mp ha with ⟨b, rfl, hb⟩ | ⟨b, rfl, hb⟩
        · cases b with
          | nil => cases hb
          | cons x b =>
            obtain ⟨rfl, _⟩ := List.cons.inj hb
            exact hopen (by simp)
        · cases b with
          | nil => cases hb
          | cons x b =>
            obtain ⟨rfl, hmore'⟩ := List.cons.inj hb
            exact hw_more (fun x hx => hw.2 x (by simp [hx])) hmore'
  · have hy := hys.2 y' (by simp)
    rw [← (List.cons.inj (List.cons.inj heq).2).1] at hy
    exact absurd hy (by decide)

/-- What the match of an instruction line consumes, with the parts it reads and the rest. -/
structure LineMatch (level : Int) (name : Text) (i : ReportedInst)
    (before loc func consumed rest : Text) : Prop where
  split : ' ' :: instLine level name i = consumed ++ (rest ++ ['\n'])
  parts : ∃ s label behind, consumed = s ++ (before ++ '<' :: (loc ++ '>' :: (label ++ '=' :: func))) ∧
    Blank s ∧ FirstAt BehindBlank (shownLine level name i) before loc behind ∧
    FuncAt behind label func rest

theorem LineMatch.reads {level : Int} {name : Text} {i : ReportedInst}
    {before loc func consumed rest : Text} (h : LineMatch level name i before loc func consumed rest) :
    ReadsAt BehindBlank (shownLine level name i) before loc func := by
  obtain ⟨_, label, behind, _, _, hfirst, hat⟩ := h.parts
  exact ⟨behind, label, rest, hfirst, hat⟩

/-- A name behind a location that is read from a printed line. -/
theorem FuncAt.of_append {level : Int} {name x more label func v : Text} {location : Option Location}
    (hx : '\n' ∉ x) (hname : '\n' ∉ name)
    (h : FuncAt (x ++ lineEnd level name location ++ '\n' :: more) label func v) :
    ∃ v', '\n' ∉ v' ∧ v = v' ++ '\n' :: more ∧
      FuncAt (x ++ lineEnd level name location) label func v' := by
  obtain ⟨v', hv, heq⟩ := h.same_line (by
    unfold lineEnd lineTail
    exact List.mem_append_right x (List.mem_append_right _ (List.mem_append_left _ (by decide))))
  refine ⟨v', fun hmem => ?_, hv, heq, h.label, h.func, fun a as hv' => ?_⟩
  · have hin : '\n' ∈ x ++ lineEnd level name location := by
      rw [heq]
      simp [hmem]
    rcases List.mem_append.mp hin with hin | hin
    · exact hx hin
    · exact not_mem_lineTail hname (by decide) (by decide) (by decide) hin
  · exact h.stop a (as ++ '\n' :: more) (by rw [hv, hv', List.cons_append])

theorem namesFunction_lineEnd {level : Int} {name : Text} (hne : name ≠ [])
    (hname : ∀ c ∈ name, Str.isSpace c = false) (location : Option Location) :
    NamesFunction (lineEnd level name location) := by
  rw [← List.append_nil (lineEnd level name location)]
  exact namesFunction_lineTail hne hname _ _

theorem not_open_lineEnd {level : Int} {name : Text} (hopen : '<' ∉ name)
    (location : Option Location) : '<' ∉ lineEnd level name location :=
  not_mem_lineTail hopen (by decide) (by decide) (by decide)

theorem equals_mem_lineEnd (level : Int) (name : Text) (location : Option Location) :
    '=' ∈ lineEnd level name location := by
  unfold lineEnd lineTail
  exact List.mem_append_right _ (List.mem_append_left _ (by decide))

theorem NamesFunction.label {s : Text} (h : NamesFunction s) : "FUNC=".toList <:+: s := by
  obtain ⟨blank, mark, first, rest, rfl, _⟩ := h
  exact ⟨blank ++ mark, first :: rest, by simp only [List.append_assoc]⟩

/-- In a text over several lines a bracket is read only if the printed location closes it. -/
theorem Folded.not_closing {text b : Text} (h : Folded text) (hb : b <:+: text) (hm : Misleads b) :
    '>' ∉ b := by
  rcases hm with hm | ⟨loc, rest, rfl, _, _, hfunc⟩
  · exact hm
  · refine absurd (hfunc.label.trans (List.IsInfix.trans ?_ hb)) h.func
    exact ⟨loc ++ ['>'], [], by simp⟩

theorem infix_of_dropWhile {text before b : Text}
    (h : text.dropWhile Str.isSpace = before ++ '<' :: b) : b <:+: text := by
  have hb : b <:+ text.dropWhile Str.isSpace := by
    rw [h]
    exact (List.suffix_cons _ _).trans (List.suffix_append _ _)
  exact (hb.trans (List.dropWhile_suffix _)).isInfix

/-- Between the location that is read and the end of the line there is no line break. -/
theorem Printed.line_of_firstAt {B : Text → Prop} {level : Int} {name before loc x : Text}
    {i : ReportedInst} (hi : Printed i) (hne : name ≠ []) (hname : ∀ c ∈ name, Str.isSpace c = false)
    (h : FirstAt B (shownLine level name i) before loc (x ++ lineEnd level name i.location))
    (hle : before.length ≤ (i.text.dropWhile Str.isSpace ++ [' ']).length)
    (hx : before ++ '<' :: (loc ++ '>' :: x) =
      i.text.dropWhile Str.isSpace ++ ' ' :: '<' :: (bracketed i.location ++ ['>'])) : '\n' ∉ x := by
  have hclosing : '>' ∉ bracketed i.location := hi.not_mem_bracketed (by decide)
  have hbreak : '\n' ∉ bracketed i.location := hi.not_mem_bracketed (by decide)
  by_cases htext : '\n' ∈ i.text
  case neg =>
    intro hmem
    have hin : '\n' ∈ i.text.dropWhile Str.isSpace ++ ' ' :: '<' :: (bracketed i.location ++ ['>']) := by
      rw [← hx]
      simp [hmem]
    simp only [List.mem_append, List.mem_cons, List.not_mem_nil, or_false] at hin
    rcases hin with hin | hin | hin | hin | hin
    · exact htext ((List.dropWhile_suffix _).subset hin)
    · cases hin
    · cases hin
    · exact hbreak hin
    · cases hin
  -- over several lines nothing lies between
  have hnil : x = [] := by
    have heq := h.eq
    rw [shownLine_eq] at heq
    rcases bracket_cases heq with ⟨b, hb, hbehind⟩ | ⟨_, hbehind⟩ | hlong
    · have hmisleads : Misleads b := by
        apply (closes_append_iff hclosing (namesFunction_lineEnd hne hname _)).mp
        rw [← hbehind]
        exact ⟨loc, _, rfl, h.nonempty, h.closing, h.func⟩
      have hopen := (hi.folded htext).not_closing (infix_of_dropWhile hb) hmisleads
      have hloc : '>' ∉ b ++ ' ' :: '<' :: bracketed i.location := by
        simp only [List.mem_append, List.mem_cons, not_or]
        exact ⟨hopen, by decide, by decide, hclosing⟩
      have hsplit : loc ++ '>' :: (x ++ lineEnd level name i.location) =
          (b ++ ' ' :: '<' :: bracketed i.location) ++ '>' :: lineEnd level name i.location := by
        rw [hbehind]
        simp
      obtain ⟨_, hrest⟩ := Str.append_cons_inj h.closing hloc hsplit
      exact List.append_left_eq_self.mp hrest
    · obtain ⟨_, hrest⟩ := Str.append_cons_inj h.closing hclosing hbehind
      exact List.append_left_eq_self.mp hrest
    · exact absurd hle (Nat.not_le.mpr hlong)
  rw [hnil]
  exact List.not_mem_nil

/-- What is read from a printed line is the same whatever stands below. -/
theorem Printed.exists_firstAt {B : Text → Prop} {name : Text} {i : ReportedInst}
    (hi : Printed i) {level : Int} (hne : name ≠ []) (hname : ∀ c ∈ name, Str.isSpace c = false)
    (hopen : '<' ∉ name) (hread : HasLocation B (shownLine level name i)) (more : Text) :
    ∃ before loc behind, FirstAt B (shownLine level name i) before loc behind ∧
      FirstAt B (shownLine level name i ++ '\n' :: more) before loc (behind ++ '\n' :: more) ∧
      ∀ label func v, FuncAt (behind ++ '\n' :: more) label func v →
        ∃ v', '\n' ∉ v' ∧ v = v' ++ '\n' :: more ∧ FuncAt behind label func v' := by
  have hclosing : '>' ∉ bracketed i.location := hi.not_mem_bracketed (by decide)
  have hq : NamesFunction (lineEnd level name i.location) := namesFunction_lineEnd hne hname _
  obtain ⟨before, loc, behind, hfirst⟩ := hread.exists_firstAt
  have hprinted := hfirst
  rw [shownLine_eq] at hprinted
  have hle := length_le_printed (hi.not_mem_bracketed (by decide)) (not_open_lineEnd hopen _) hprinted.eq
  obtain ⟨x, rfl, hx⟩ := hprinted.in_line hle
  have hlong := hprinted.append hle hclosing hq ('\n' :: more)
  have hshown : i.text.dropWhile Str.isSpace ++ ' ' :: '<' :: (bracketed i.location ++ '>' ::
      (lineEnd level name i.location ++ '\n' :: more)) = shownLine level name i ++ '\n' :: more := by
    rw [shownLine_eq]
    simp
  rw [hshown] at hlong
  refine ⟨before, loc, _, hfirst, hlong, fun label func v hat => ?_⟩
  exact hat.of_append (hi.line_of_firstAt hne hname hfirst hle hx) fun h => absurd (hname _ h) (by decide)

/-- From an instruction on one line some location is read. -/
theorem OneLine.hasLocation {B : Text → Prop} {name : Text} {i : ReportedInst} (hi : OneLine i)
    {level : Int} (hne : name ≠ []) (hname : ∀ c ∈ name, Str.isSpace c = false)
    (hB : B (i.text.dropWhile Str.isSpace ++ [' '])) : HasLocation B (shownLine level name i) := by
  rw [shownLine_eq]
  exact hasLocation_printed hB (bracketed_ne_nil _) (hi.printed.not_mem_bracketed (by decide))
    (namesFunction_lineEnd hne hname _)

theorem OneLine.onLine {i : ReportedInst} (hi : OneLine i) :
    OnLine (i.text.dropWhile Str.isSpace ++ [' ']) := by
  rw [OnLine, List.mem_append, not_or]
  exact ⟨fun h => hi.text '\n' (by decide) ((List.dropWhile_suffix _).subset h), by decide⟩

theorem OneLine.behindBlank {i : ReportedInst} (hi : OneLine i) :
    BehindBlank (i.text.dropWhile Str.isSpace ++ [' ']) :=
  ⟨_, [' '], rfl, fun h => hi.text '\n' (by decide) ((List.dropWhile_suffix _).subset h),
    List.cons_ne_nil _ _, by decide⟩

theorem OneLine.onLine_shownLine {level : Int} {name : Text} {i : ReportedInst} (hi : OneLine i)
    (hname : ∀ c ∈ name, Str.isSpace c = false) : OnLine (shownLine level name i) := by
  rw [OnLine, shownLine_eq]
  simp only [List.mem_append, List.mem_cons, not_or]
  exact ⟨fun h => hi.text '\n' (by decide) ((List.dropWhile_suffix _).subset h), by decide, by decide,
    hi.printed.not_mem_bracketed (by decide), by decide,
    not_mem_lineTail (fun h => absurd (hname _ h) (by decide)) (by decide) (by decide) (by decide)⟩

/-- The line in the report: a blank and the white space of the text come first. -/
theorem instLine_split (level : Int) (name : Text) (i : ReportedInst) (more : Text) :
    ' ' :: (instLine level name i ++ more) = (' ' :: i.text.takeWhile Str.isSpace) ++
      (shownLine level name i ++ '\n' :: more) := by
  rw [instLine_eq, shownLine_eq]
  conv_lhs => rw [← List.takeWhile_append_dropWhile (p := Str.isSpace) (l := i.text)]
  simp only [List.append_assoc, List.cons_append, List.nil_append]

theorem blank_takeWhile (s : Text) : Blank (' ' :: s.takeWhile Str.isSpace) :=
  ⟨List.cons_ne_nil _ _, List.forall_mem_cons.mpr ⟨by decide, fun _ ha => List.mem_takeWhile_imp ha⟩⟩

theorem exec_line {β : Type} {k : Regex.Cursor → Option β} {n : Nat} {c : Regex.Cursor} {level : Int}
    {name : Text} {i : ReportedInst} {more : Text} (hi : Printed i) (hne : name ≠ [])
    (hname : ∀ c ∈ name, Str.isSpace c = false) (hopen : '<' ∉ name)
    (hread : HasLocation BehindBlank (shownLine level name i))
    (hc : c.rest = ' ' :: (instLine level name i ++ more))
    (hmore : ∀ ws r, more = ws ++ '<' :: r → ∃ x ∈ ws, Str.isSpace x = false)
    (hk : ∀ v, '\n' ∉ v → ∀ before groups, (k ⟨before, v ++ '\n' :: more, groups⟩).isSome = true) :
    ∃ before loc func consumed inst v, LineMatch level name i before loc func consumed v ∧ '\n' ∉ v ∧
      Regex.exec (instRE n) k c = k ⟨consumed.reverse ++ c.before, v ++ '\n' :: more,
        (n + 2, func) :: (n + 1, loc) :: (n, inst) :: c.groups⟩ := by
  obtain ⟨before, loc, behind, hfirst, hlong, hfunc⟩ := hi.exists_firstAt hne hname hopen hread more
  rw [instLine_split] at hc
  obtain ⟨inst, label, func, v, hat, hexec⟩ := exec_instRE (n := n) (k := k) hc (blank_takeWhile _)
    hlong
    (fun ys u w behind heq hys hu hw _ => by
      rw [shownLine_eq] at heq
      cases ht : i.text.dropWhile Str.isSpace with
      | nil =>
        rw [ht] at heq
        refine not_closes_of_blank (z := bracketed i.location ++ '>' :: lineEnd level name i.location)
          (fun hmem => ?_) hmore (?_ : _ = ys ++ (u ++ (w ++ '<' :: behind))) hys hu hw
        · rcases List.mem_append.mp hmem with hmem | hmem
          · exact hi.not_mem_bracketed (by decide) hmem
          · exact not_mem_lineTail hopen (by decide) (by decide) (by decide)
              ((List.mem_cons.mp hmem).resolve_left (by decide))
        · rw [← heq]
          simp
      | cons a t =>
        -- white space at the front of the text was taken with the label
        have ha := List.head?_dropWhile_not Str.isSpace i.text
        rw [ht] at ha heq
        cases ys with
        | nil => exact hys.1 rfl
        | cons y ys =>
          have hy := hys.2 y List.mem_cons_self
          rw [← (List.cons.inj heq).1, ha] at hy
          cases hy)
    (fun label func v hat before groups => by
      obtain ⟨v', hv', rfl, _⟩ := hfunc label func v hat
      exact hk v' hv' before groups)
  obtain ⟨v', hv', rfl, hat'⟩ := hfunc label func v hat
  refine ⟨before, loc, func, _, inst, v', ⟨?_, _, label, behind, rfl, blank_takeWhile _, hfirst, hat'⟩,
    hv', hexec⟩
  have hnone := instLine_split level name i []
  rw [List.append_nil, hfirst.eq, hat'.eq] at hnone
  rw [hnone]
  simp

/-- The phrase of a block of one instruction occurs in what is consumed only in front of the bracket
that is read or inside it. -/
theorem LineMatch.phrase_iff {level : Int} {name : Text} {i : ReportedInst}
    {before loc func consumed rest : Text}
    (h : LineMatch level name i before loc func consumed rest) :
    sameInstructionPhrase <:+: consumed ↔
      sameInstructionPhrase <:+: before ∨ sameInstructionPhrase <:+: loc := by
  obtain ⟨s, label, behind, rfl, hs, _, hat⟩ := h.parts
  have hnot {b : Text} {c : Char} (hc : c ∈ sameInstructionPhrase) (hb : c ∉ b) :
      ¬sameInstructionPhrase <:+: b := fun h => hb (h.subset hc)
  have hblank : ∀ c ∈ s, sameInstructionPhrase.head? ≠ some c := by
    intro c hc h
    exact ne_of_isSpace (hs.2 c hc) (show Str.isSpace '(' = false by decide) (Option.some.inj h).symm
  have hE : 'E' ∉ label := hat.not_mem_label (by decide) (by decide)
  have hspace : ' ' ∉ func := fun h => absurd (hat.func ' ' h) (by decide)
  rw [Str.infix_append_iff_of_head hblank, Str.infix_append_cons_iff (by decide),
    Str.infix_append_cons_iff (by decide), Str.infix_append_cons_iff (by decide)]
  simp only [hnot (c := 'E') (by decide) hE, hnot (c := ' ') (by decide) hspace, or_false]

/-! ## Lines that are passed over -/

theorem matches_instRE {n : Nat} {c d : Regex.Cursor} (h : Regex.Matches (instRE n) c d) :
    ∃ s u w e, c.rest = s ++ (u ++ (w ++ e.rest)) ∧ Blank s ∧ OnLine u ∧ Blank w ∧
      Regex.Matches (closedRE n) e d := by
  obtain ⟨_, hspace, _, hgroup, _, hblank, hclosed⟩ := h
  obtain ⟨s, r₁, hsne, hs, hsspace, rfl⟩ := Regex.matches_plus.mp hspace
  obtain ⟨_, ⟨u, r₂, hu, hdots, rfl⟩, rfl⟩ := hgroup
  obtain ⟨w, r₃, hwne, hw, hwspace, rfl⟩ := Regex.matches_plus.mp hblank
  refine ⟨s, u, w, _, ?_, ⟨hsne, hsspace⟩, fun hmem => ?_, ⟨hwne, hwspace⟩, hclosed⟩
  · rw [hs, show r₁ = u ++ r₂ from hu, show r₂ = w ++ r₃ from hw]
    rfl
  · exact bne_iff_ne.mp (hdots _ hmem) rfl

/-- A bracket behind white space stands in the line, when what follows does not open with one. -/
theorem bracket_in_line {t p q more s u w behind : Text} (hp : '<' ∉ p) (hq : '<' ∉ q)
    (hmore : ∀ ws r, more = ws ++ '<' :: r → ∃ x ∈ ws, Str.isSpace x = false) (hs : Blank s)
    (hu : OnLine u) (hw : Blank w)
    (h : t ++ ' ' :: '<' :: (p ++ '>' :: (q ++ '\n' :: more)) = s ++ (u ++ w) ++ '<' :: behind) :
    (s ++ (u ++ w)).length ≤ (t ++ [' ']).length := by
  by_contra hlt
  have hblank {ws : Text} (hws : Blank ws) : '<' ∉ ws := fun hmem =>
    ne_of_isSpace (hws.2 _ hmem) (by decide) rfl
  obtain ⟨line, hline⟩ : ∃ line, line = t ++ [' ', '<'] ++ (p ++ '>' :: q) := ⟨_, rfl⟩
  have hsplit : line ++ '\n' :: more = s ++ (u ++ w) ++ '<' :: behind := by
    rw [hline, ← h]
    simp only [List.append_assoc, List.cons_append, List.nil_append]
  -- the printed bracket is in front, so this one is behind the line break
  obtain ⟨z, hz⟩ : ∃ z, s ++ (u ++ w) = line ++ '\n' :: z := by
    rcases List.append_eq_append_iff.mp hsplit with ⟨z, hz, hmore'⟩ | ⟨z, hz, hmore'⟩
    · cases z with
      | nil => cases hmore'
      | cons x z =>
        obtain ⟨rfl, _⟩ := List.cons.inj hmore'
        exact ⟨z, hz⟩
    · cases z with
      | nil => cases hmore'
      | cons x z =>
        obtain ⟨rfl, _⟩ := List.cons.inj hmore'
        refine absurd ?_ hlt
        refine length_le_printed hp hq (?_ : _ = _ ++ '<' :: z)
        rw [← hz, hline]
        simp only [List.append_assoc, List.cons_append, List.nil_append]
  have hmore' : more = z ++ '<' :: behind := by
    rw [hz, List.append_assoc, List.cons_append] at hsplit
    exact (List.cons.inj (List.append_cancel_left hsplit)).2
  obtain ⟨x, hx, hspace⟩ := hmore z behind hmore'
  -- the line with its bracket is not white space, and the break is not in the middle part
  have hwhite {ws : Text} (hws : Blank ws) (hin : z <:+: ws) : False := by
    rw [hws.2 x (hin.subset hx)] at hspace
    cases hspace
  rcases List.append_eq_append_iff.mp hz with ⟨y, hy, hend⟩ | ⟨y, hy, _⟩
  · rcases List.append_eq_append_iff.mp hend with ⟨y', rfl, hw'⟩ | ⟨y', hu', hw'⟩
    · rw [hw'] at hw
      exact hwhite hw ((List.suffix_cons _ _).trans (List.suffix_append _ _)).isInfix
    · cases y' with
      | nil =>
        rw [← show '\n' :: z = w from hw'] at hw
        exact hwhite hw (List.suffix_cons _ _).isInfix
      | cons b y' =>
        obtain ⟨rfl, _⟩ := List.cons.inj hw'
        exact hu (by rw [hu']; exact List.mem_append_right y List.mem_cons_self)
  · refine hblank hs ?_
    rw [hy, hline]
    simp

/-- Wherever the pattern of an instruction line matches, it stops at the end of that line. -/
theorem Printed.end_of_matches {n : Nat} {c d : Regex.Cursor} {level : Int} {name more : Text}
    {i : ReportedInst} (hi : Printed i) (hname : ∀ c ∈ name, Str.isSpace c = false)
    (hopen : '<' ∉ name) (hc : c.rest = ' ' :: (instLine level name i ++ more))
    (hmore : ∀ ws r, more = ws ++ '<' :: r → ∃ x ∈ ws, Str.isSpace x = false)
    (h : Regex.Matches (instRE n) c d) : ∃ v, d.rest = v ++ '\n' :: more ∧ '\n' ∉ v := by
  have hclosing : '>' ∉ bracketed i.location := hi.not_mem_bracketed (by decide)
  have hbreak : '\n' ∉ bracketed i.location := hi.not_mem_bracketed (by decide)
  have hend : '\n' ∉ lineEnd level name i.location :=
    not_mem_lineTail (fun h => absurd (hname _ h) (by decide)) (by decide) (by decide) (by decide)
  obtain ⟨s, u, w, e, hrest, hs, hu, hw, hclosed⟩ := matches_instRE h
  obtain ⟨loc, blank, mark, func, hloc, _, hlocation, hblank, hmark, hfne, hfunc⟩ :=
    matches_closedRE hclosed
  obtain ⟨r, hr⟩ : ∃ r, r = blank ++ (mark ++ ("FUNC=".toList ++ (func ++ d.rest))) := ⟨_, rfl⟩
  have hnames : NamesFunction r := by
    obtain ⟨first, func, rfl⟩ := List.exists_cons_of_ne_nil hfne
    exact ⟨blank, mark, first, func ++ d.rest, hr, hblank, hmark, hfunc first List.mem_cons_self⟩
  -- behind the bracket that closes, the name stands on the last line of the instruction
  have hdone (x : Text) (hx : '\n' ∉ x)
      (hxr : r = x ++ (lineEnd level name i.location ++ '\n' :: more)) :
      ∃ v, d.rest = v ++ '\n' :: more ∧ '\n' ∉ v := by
    have hlabel : '=' ∉ blank ++ (mark ++ "FUNC".toList) := by
      have hspace {b : Text} (hb : Blank b) : '=' ∉ b := fun hmem =>
        ne_of_isSpace (hb.2 _ hmem) (by decide) rfl
      simp only [List.mem_append, not_or]
      refine ⟨hspace hblank, ?_, by decide⟩
      rcases hmark with rfl | ⟨b, rfl, hb⟩
      · exact List.not_mem_nil
      · rw [List.mem_append, not_or]
        exact ⟨by decide, hspace hb⟩
    have hsplit : (x ++ lineEnd level name i.location) ++ '\n' :: more =
        blank ++ (mark ++ "FUNC".toList) ++ '=' :: (func ++ d.rest) := by
      rw [List.append_assoc, ← hxr, hr]
      simp only [List.append_assoc]
      rfl
    obtain ⟨v, hv, hline⟩ := name_same_line hlabel hfunc
      (List.mem_append_right x (equals_mem_lineEnd level name _)) hsplit
    refine ⟨v, hv, fun hmem => ?_⟩
    have hin : '\n' ∈ x ++ lineEnd level name i.location := by
      rw [hline]
      simp [hmem]
    exact (List.mem_append.mp hin).elim hx hend
  have heq : (' ' :: i.text) ++ ' ' :: '<' :: (bracketed i.location ++ '>' ::
      (lineEnd level name i.location ++ '\n' :: more)) = s ++ (u ++ w) ++ '<' :: (loc ++ '>' :: r) := by
    rw [hr, List.append_assoc, List.append_assoc, ← hloc, ← hrest, hc, instLine_eq]
    simp
  rcases bracket_cases heq with ⟨b, hb, hbehind⟩ | ⟨_, hbehind⟩ | hlong
  · by_cases hmem : '>' ∈ b
    · obtain ⟨b₁, b₂, rfl, hb₁⟩ := List.eq_append_cons_of_mem hmem
      rw [List.append_assoc, List.cons_append] at hbehind
      obtain ⟨rfl, rfl⟩ := Str.append_cons_inj hlocation hb₁ hbehind
      -- a name in the text: then the text is on one line
      have hin : b₂ <:+: i.text := by
        cases hs' : s ++ (u ++ w) with
        | nil => exact absurd (List.append_eq_nil_iff.mp hs').1 hs.1
        | cons x z =>
          rw [hs'] at hb
          rw [(List.cons.inj hb).2]
          exact ⟨z ++ '<' :: (loc ++ ['>']), [], by simp⟩
      have htext : '\n' ∉ i.text := fun hbroken =>
        (hi.folded hbroken).func (hnames.of_append.label.trans hin)
      apply hdone (b₂ ++ ' ' :: '<' :: (bracketed i.location ++ ['>']))
      · simp only [List.mem_append, List.mem_cons, not_or]
        exact ⟨fun h => htext (hin.subset h), by decide, by decide, hbreak, by decide, List.not_mem_nil⟩
      · simp
    · have hlocation' : '>' ∉ b ++ ' ' :: '<' :: bracketed i.location := by
        simp only [List.mem_append, List.mem_cons, not_or]
        exact ⟨hmem, by decide, by decide, hclosing⟩
      have hsplit : loc ++ '>' :: r = (b ++ ' ' :: '<' :: bracketed i.location) ++ '>' ::
          (lineEnd level name i.location ++ '\n' :: more) := by
        rw [hbehind]
        simp
      exact hdone [] List.not_mem_nil (Str.append_cons_inj hlocation hlocation' hsplit).2
  · exact hdone [] List.not_mem_nil (Str.append_cons_inj hlocation hclosing hbehind).2
  · refine absurd ?_ (Nat.not_le.mpr hlong)
    exact bracket_in_line (hi.not_mem_bracketed (by decide)) (not_open_lineEnd hopen _) hmore hs hu hw heq

/-- White space in front of a text is taken with the label or with the part in front of the bracket. -/
theorem bracket_behind_blanks {blanks s u w behind z : Text} {a : Char}
    (hblanks : ∀ c ∈ blanks, Str.isSpace c = true) (ha : Str.isSpace a = false) (hopen : a ≠ '<')
    (hs : Blank s) (hu : OnLine u) (hw : ∀ c ∈ w, Str.isSpace c = true)
    (h : blanks ++ a :: z = s ++ (u ++ (w ++ '<' :: behind))) :
    ∃ u', a :: z = u' ++ w ++ '<' :: behind ∧ OnLine u' := by
  have hleft : (blanks ++ a :: z).dropWhile Str.isSpace = a :: z := by
    rw [List.dropWhile_append_of_pos hblanks, List.dropWhile_cons_of_neg (by rw [ha]; decide)]
  rw [h, List.dropWhile_append_of_pos hs.2, List.dropWhile_append] at hleft
  split at hleft
  · rw [List.dropWhile_append_of_pos hw, List.dropWhile_cons_of_neg (by decide)] at hleft
    exact absurd (List.cons.inj hleft).1.symm hopen
  · refine ⟨u.dropWhile Str.isSpace, by rw [← hleft, List.append_assoc], fun hmem => ?_⟩
    exact hu ((List.dropWhile_suffix _).subset hmem)

/-- The first word of a text over several lines. -/
theorem Folded.exists_first {text : Text} (h : Folded text) : ∃ a t, text.dropWhile Str.isSpace = a :: t ∧
    Str.isSpace a = false ∧ a ≠ '<' := by
  obtain ⟨a, t, ht⟩ := List.exists_cons_of_ne_nil (List.ne_nil_of_mem h.breaks)
  refine ⟨a, t, ht, ?_, ?_⟩
  · have hnot := List.head?_dropWhile_not Str.isSpace text
    rw [ht] at hnot
    exact hnot
  · rintro rfl
    exact h.first t ht

/-- A bracket that stands no further than the printed one can be read in the line alone. -/
theorem Printed.hasLocation_of_long {B : Text → Prop} {level : Int} {name more before behind : Text}
    {i : ReportedInst} (hi : Printed i) (hne : name ≠ []) (hname : ∀ c ∈ name, Str.isSpace c = false)
    (h : shownLine level name i ++ '\n' :: more = before ++ '<' :: behind) (hside : B before)
    (hcloses : Closes behind)
    (hle : before.length ≤ (i.text.dropWhile Str.isSpace ++ [' ']).length) :
    HasLocation B (shownLine level name i) := by
  have hclosing : '>' ∉ bracketed i.location := hi.not_mem_bracketed (by decide)
  have hq : NamesFunction (lineEnd level name i.location) := namesFunction_lineEnd hne hname _
  rw [shownLine_eq] at h ⊢
  have heq : i.text.dropWhile Str.isSpace ++ ' ' :: '<' :: (bracketed i.location ++ '>' ::
      (lineEnd level name i.location ++ '\n' :: more)) = before ++ '<' :: behind := by
    rw [← h]
    simp
  rcases bracket_cases heq with ⟨b, hb, rfl⟩ | ⟨rfl, _⟩ | hlong
  · refine ⟨before, b ++ ' ' :: '<' :: (bracketed i.location ++ '>' :: lineEnd level name i.location),
      by rw [hb]; simp, hside, ?_⟩
    exact (closes_append_iff hclosing hq).mpr ((closes_append_iff hclosing (hq.append _)).mp hcloses)
  · exact hasLocation_printed hside (bracketed_ne_nil _) hclosing hq
  · exact absurd hle (Nat.not_le.mpr hlong)

/-- White space does not go back over the printed bracket to an earlier line. -/
theorem length_le_of_broken {t before m : Text} (ht : '\n' ∈ t) (hside : BehindBlank before)
    (hpre : before <+: t ++ ' ' :: '<' :: m) : before.length ≤ (t ++ [' ']).length := by
  by_contra hlt
  obtain ⟨u, w, rfl, hu, hw⟩ := hside
  obtain ⟨z, hz⟩ := List.prefix_of_prefix_length_le
    (show t ++ [' ', '<'] <+: t ++ ' ' :: '<' :: m from ⟨m, by simp⟩) hpre (by
      simp only [List.length_append, List.length_cons, List.length_nil] at hlt ⊢
      omega)
  have hsplit : u ++ w = (t ++ [' ']) ++ '<' :: z := by
    rw [← hz]
    simp
  rcases List.append_eq_append_iff.mp hsplit with ⟨y, _, hw'⟩ | ⟨y, hu', _⟩
  · refine absurd (hw.2 '<' ?_) (by decide)
    rw [hw']
    exact List.mem_append_right y List.mem_cons_self
  · apply hu
    rw [hu']
    exact List.mem_append_left y (List.mem_append_left _ ht)

/-- From a text over several lines a location is read when a bracket opens on its first line and the
text does not close it. -/
theorem Printed.hasLocation_folded_iff {level : Int} {name : Text} {i : ReportedInst} (hi : Printed i)
    (hne : name ≠ []) (hname : ∀ c ∈ name, Str.isSpace c = false) (hopen : '<' ∉ name)
    (hbroken : '\n' ∈ i.text) : HasLocation OnLine (shownLine level name i) ↔
      ∃ before b, i.text.dropWhile Str.isSpace = before ++ '<' :: b ∧ OnLine before ∧ '>' ∉ b := by
  have hclosing : '>' ∉ bracketed i.location := hi.not_mem_bracketed (by decide)
  have hq : NamesFunction (lineEnd level name i.location) := namesFunction_lineEnd hne hname _
  have hfolded := hi.folded hbroken
  rw [shownLine_eq]
  constructor
  · rintro ⟨before, behind, heq, hside, hcloses⟩
    rcases bracket_cases heq with ⟨b, hb, rfl⟩ | ⟨rfl, _⟩ | hlong
    · refine ⟨before, b, hb, hside, hfolded.not_closing (infix_of_dropWhile hb) ?_⟩
      exact (closes_append_iff hclosing hq).mp hcloses
    · exact absurd (List.mem_append_left _ hfolded.breaks) hside
    · refine absurd ?_ (Nat.not_le.mpr hlong)
      exact length_le_printed (hi.not_mem_bracketed (by decide)) (not_open_lineEnd hopen _) heq
  · rintro ⟨before, b, hb, hside, hopenb⟩
    refine ⟨before, b ++ ' ' :: '<' :: (bracketed i.location ++ '>' :: lineEnd level name i.location),
      by rw [hb]; simp, hside, (closes_append_iff hclosing hq).mpr (.inl hopenb)⟩

/-- An instruction from which no location is read is not matched. -/
theorem Printed.not_matches {n : Nat} {c d : Regex.Cursor} {level : Int} {name more : Text}
    {i : ReportedInst} (hi : Printed i) (hne : name ≠ []) (hname : ∀ c ∈ name, Str.isSpace c = false)
    (hread : ¬HasLocation BehindBlank (shownLine level name i))
    (hc : c.rest = ' ' :: (instLine level name i ++ more)) : ¬Regex.Matches (instRE n) c d := by
  intro h
  have hbroken : '\n' ∈ i.text := by
    by_contra htext
    exact hread ((hi.oneLine htext).hasLocation hne hname (hi.oneLine htext).behindBlank)
  have hfolded := hi.folded hbroken
  obtain ⟨s, u, w, e, hrest, hs, hu, hw, hclosed⟩ := matches_instRE h
  obtain ⟨behind, hbehind, hcloses⟩ := closes_of_closedRE hclosed
  -- the text begins with a word, so the bracket stands behind it
  obtain ⟨a, t, ht, ha, hopen⟩ := hfolded.exists_first
  obtain ⟨z, hz⟩ : ∃ z, shownLine level name i ++ '\n' :: more = a :: z := by
    rw [shownLine_eq, ht]
    exact ⟨_, rfl⟩
  rw [hbehind, hc, instLine_split, hz] at hrest
  obtain ⟨u', hbefore, hu'⟩ :=
    bracket_behind_blanks (blank_takeWhile _).2 ha hopen hs hu hw.2 hrest
  have hside : BehindBlank (u' ++ w) := ⟨u', w, rfl, hu', hw⟩
  rw [← hz] at hbefore
  refine hread (hi.hasLocation_of_long hne hname hbefore hside hcloses ?_)
  apply length_le_of_broken hfolded.breaks hside
  exact ⟨'<' :: behind, by rw [← hbefore, shownLine_eq, List.append_assoc, List.cons_append]; rfl⟩

theorem LineMatch.not_lineStart {level : Int} {name : Text} {i : ReportedInst}
    {before loc func consumed rest : Text}
    (h : LineMatch level name i before loc func consumed rest) :
    ∃ z a, consumed = z ++ [a] ∧ a ≠ '\n' := by
  obtain ⟨s, label, behind, rfl, _, _, hat⟩ := h.parts
  rcases List.eq_nil_or_concat func with rfl | ⟨func, a, rfl⟩
  · exact ⟨s ++ (before ++ '<' :: (loc ++ '>' :: label)), '=', by simp, by decide⟩
  · refine ⟨s ++ (before ++ '<' :: (loc ++ '>' :: (label ++ '=' :: func))), a, by simp, ?_⟩
    rintro rfl
    exact absurd (hat.func '\n' (by simp)) (by decide)

/-- With a known location the parts read are those of the text or the printed one. -/
theorem reads_of_readsAt {level : Int} {name : Text} {i : ReportedInst} {l : Location}
    {before loc func : Text} (hi : Located i l) (hne : name ≠ [])
    (hname : ∀ c ∈ name, Str.isSpace c = false)
    (h : ReadsAt EndsBlank (shownLine level name i) before loc func) : Reads i.text l before loc := by
  obtain ⟨behind, _, _, hfirst, _⟩ := h
  rw [shownLine_eq, hi.location] at hfirst
  have hclosing : '>' ∉ printedLocation l :=
    not_mem_printedLocation (hi.filename '>' (by decide)) (by decide) (by decide)
  have hq : NamesFunction (lineEnd level name (some l)) := by
    rw [← List.append_nil (lineEnd level name (some l))]
    exact namesFunction_lineTail hne hname _ _
  exact (reads_of_firstReading hclosing hq hfirst).1

end IrToAssembly

end LinuxAnalysis
