import LinuxAnalysis.Scripts.ReportBlock

/-!
# The blocks of a report

Outside the printed functions no position of a report begins a block, so the matches are one for each
function whose name is a word and whose ends have locations that the pattern reads.
-/

open LinuxAnalysis.Lib

namespace LinuxAnalysis

namespace IrToAssembly

section Scan

variable [Unicode]

/-! ## Positions that begin no block -/

/-- What the beginning of a block looks like. -/
structure BlockStart (c : Regex.Cursor) (name spaces indent rest : Text) : Prop where
  start : c.atLineStart = true
  eq : c.rest = name ++ ':' :: (spaces ++ '\n' :: (indent ++ ("Earliest:".toList ++ rest)))
  nonempty : name ≠ []
  name : ∀ a ∈ name, Regex.word a = true
  spaces : ∀ a ∈ spaces, Str.isSpace a = true
  indent : ∀ a ∈ indent, Str.isSpace a = true

theorem blockStart_of_matches {c d : Regex.Cursor} (h : Regex.Matches blockRE c d) :
    ∃ name spaces indent rest, BlockStart c name spaces indent rest ∧
      d.groups.lookup 1 = some name := by
  obtain ⟨e, ⟨_, ⟨hstart, rfl⟩, _, hgroup, _, hcolon, _, hstar, _, hbreak, _, hplus, _, hlabel,
    rfl⟩, htail⟩ := h
  obtain ⟨name, r₁, hne, hr₁, hname, rfl⟩ := Regex.matches_group_plus.mp hgroup
  obtain ⟨r₂, hr₂, rfl⟩ := Regex.matches_lit.mp hcolon
  obtain ⟨spaces, r₃, hr₃, hspaces, rfl⟩ := Regex.matches_star.mp hstar
  obtain ⟨r₄, hr₄, rfl⟩ := Regex.matches_lit.mp hbreak
  obtain ⟨indent, r₅, _, hr₅, hindent, rfl⟩ := Regex.matches_plus.mp hplus
  obtain ⟨r₆, hr₆, rfl⟩ := Regex.matches_lit.mp hlabel
  refine ⟨name, spaces, indent, r₆, ⟨hstart, ?_, hne, hname, hspaces, hindent⟩, ?_⟩
  · rw [hr₁, show r₁ = [':'] ++ r₂ from hr₂, show r₂ = spaces ++ r₃ from hr₃,
      show r₃ = ['\n'] ++ r₄ from hr₄, show r₄ = indent ++ r₅ from hr₅,
      show r₅ = "Earliest:".toList ++ r₆ from hr₆]
    rfl
  · rw [Regex.lookup_of_matches (r := .cat [instRE 2, blockTailRE]) htail (by decide)]
    rfl

theorem exec_blockRE_eq_none {c : Regex.Cursor}
    (h : ∀ name spaces indent rest, ¬BlockStart c name spaces indent rest) :
    Regex.exec blockRE some c = none := by
  apply Regex.exec_eq_none
  intro d hd
  obtain ⟨name, spaces, indent, rest, hstart, _⟩ := blockStart_of_matches hd
  exact absurd hstart (h name spaces indent rest)

/-- A line that a block could begin with. -/
def HeadLine (line : Text) : Prop :=
  ∃ name spaces, line = name ++ ':' :: spaces ∧ name ≠ [] ∧ (∀ a ∈ name, Regex.word a = true) ∧
    ∀ a ∈ spaces, Str.isSpace a = true

/-- The positions of `skipped` begin no block when `rest` follows. -/
def Skips (before skipped rest : Text) : Prop :=
  ∀ pre post, skipped = pre ++ post → post ≠ [] →
    Regex.exec blockRE some ⟨pre.reverse ++ before, post ++ rest, []⟩ = none

/-- Whole lines that begin no block, whatever follows. -/
structure Inert (text : Text) : Prop where
  closed : text = [] ∨ ∃ z, text = z ++ ['\n']
  skips : ∀ before rest, (∀ a ∈ before.head?, a = '\n') → Skips before text rest

theorem Skips.append {before a b rest : Text} (ha : Skips before a (b ++ rest))
    (hb : Skips (a.reverse ++ before) b rest) : Skips before (a ++ b) rest := by
  intro pre post heq hpost
  rcases List.append_eq_append_iff.mp heq with ⟨z, rfl, rfl⟩ | ⟨z, rfl, rfl⟩
  · have h := hb z post rfl hpost
    rwa [List.reverse_append, List.append_assoc]
  · by_cases hz : z = []
    · rw [hz] at hb hpost ⊢
      have h := hb [] b rfl hpost
      rwa [List.append_nil] at h
    · rw [List.append_assoc]
      exact ha pre z rfl hz

theorem Inert.nil : Inert [] :=
  ⟨.inl rfl, fun _ _ _ _ _ heq hpost =>
    absurd (List.append_eq_nil_iff.mp heq.symm).2 hpost⟩

theorem Inert.append {a b : Text} (ha : Inert a) (hb : Inert b) : Inert (a ++ b) := by
  refine ⟨?_, fun before rest hbefore => ?_⟩
  · rcases hb.closed with rfl | ⟨z, rfl⟩
    · rw [List.append_nil]
      exact ha.closed
    · exact .inr ⟨a ++ z, (List.append_assoc a z _).symm⟩
  · apply Skips.append (ha.skips before (b ++ rest) hbefore)
    apply hb.skips
    rcases ha.closed with rfl | ⟨z, rfl⟩
    · exact hbefore
    · intro x hx
      rw [List.reverse_append] at hx
      exact (Option.mem_some.mp hx).symm

theorem Inert.flatMap {α : Type} {g : α → Text} {xs : List α} (h : ∀ x ∈ xs, Inert (g x)) :
    Inert (xs.flatMap g) := by
  induction xs with
  | nil => exact .nil
  | cons x xs ih =>
    obtain ⟨hx, hxs⟩ := List.forall_mem_cons.mp h
    exact hx.append (ih hxs)

/-- A position inside a line begins no block. -/
theorem skips_line {before line rest : Text} (hline : '\n' ∉ line)
    (hbefore : ∃ a z, before = a :: z ∧ a ≠ '\n') : Skips before (line ++ ['\n']) rest := by
  intro pre post heq hpost
  apply exec_blockRE_eq_none
  intro name spaces indent rest' hstart
  obtain ⟨a, z, rfl, ha⟩ := hbefore
  have hat := hstart.start
  rcases List.eq_nil_or_concat pre with rfl | ⟨pre, x, rfl⟩
  · exact ha (eq_of_beq hat)
  · -- the character in front is one of the line
    rw [List.concat_eq_append, List.reverse_append] at hat
    have hx : x = '\n' := eq_of_beq hat
    obtain ⟨post, y, rfl⟩ := (List.eq_nil_or_concat post).resolve_left hpost
    have hsplit : line = (pre ++ [x]) ++ post := by
      refine (List.append_inj' (?_ : line ++ ['\n'] = ((pre ++ [x]) ++ post) ++ [y]) rfl).1
      rw [heq]
      simp
    rw [hsplit, hx] at hline
    exact hline (by simp)

/-- A line with no block at its beginning. -/
theorem skips_of_head {before line rest : Text} (hline : '\n' ∉ line)
    (hhead : Regex.exec blockRE some ⟨before, (line ++ ['\n']) ++ rest, []⟩ = none) :
    Skips before (line ++ ['\n']) rest := by
  intro pre post heq hpost
  cases pre with
  | nil =>
    rw [heq] at hhead
    exact hhead
  | cons x pre =>
    cases line with
    | nil =>
      obtain ⟨_, hnil⟩ := List.cons.inj heq
      exact absurd (List.append_eq_nil_iff.mp hnil.symm).2 hpost
    | cons y line =>
      obtain ⟨rfl, hsplit⟩ := List.cons.inj heq
      obtain ⟨hy, hline⟩ := List.ne_and_not_mem_of_not_mem_cons hline
      have hskips : Skips (y :: before) (line ++ ['\n']) rest :=
        skips_line hline ⟨y, before, rfl, Ne.symm hy⟩
      have h := hskips pre post hsplit hpost
      rwa [List.reverse_cons, List.append_assoc]

theorem inert_line {line : Text} (hline : '\n' ∉ line) (hhead : ¬HeadLine line) :
    Inert (line ++ ['\n']) := by
  refine ⟨.inr ⟨line, rfl⟩, fun before rest hbefore => skips_of_head hline ?_⟩
  · apply exec_blockRE_eq_none
    intro name spaces indent rest' hstart
    have hnewline : '\n' ∉ name := Regex.not_mem_of_word hstart.name (by decide) (by decide)
    -- the first line break ends the line
    have hfirst {s : Text} (z : Text) (hs : ∀ a ∈ s, Str.isSpace a = true) (hbreak : '\n' ∉ s)
        (h : line ++ '\n' :: rest = (name ++ ':' :: s) ++ '\n' :: z) : False := by
      have hbefore' : '\n' ∉ name ++ ':' :: s := by
        rw [List.mem_append, List.mem_cons]
        rintro (h | h | h)
        · exact hnewline h
        · cases h
        · exact hbreak h
      obtain ⟨rfl, _⟩ := Str.append_cons_inj hline hbefore' h
      exact hhead ⟨name, s, rfl, hstart.nonempty, hstart.name, hs⟩
    have hrest : line ++ '\n' :: rest =
        name ++ ':' :: (spaces ++ '\n' :: (indent ++ ("Earliest:".toList ++ rest'))) := by
      rw [← hstart.eq, List.append_assoc]
      rfl
    by_cases hmem : '\n' ∈ spaces
    · obtain ⟨s, s', rfl, hs⟩ := List.eq_append_cons_of_mem hmem
      apply hfirst (s' ++ '\n' :: (indent ++ ("Earliest:".toList ++ rest')))
        (fun a ha => hstart.spaces a (List.mem_append_left _ ha)) hs
      rw [hrest]
      simp only [List.append_assoc, List.cons_append]
    · apply hfirst (indent ++ ("Earliest:".toList ++ rest')) hstart.spaces hmem
      rw [hrest]
      simp only [List.append_assoc, List.cons_append]

theorem skips_newline (before rest : Text) : Skips before ['\n'] rest := by
  intro pre post heq hpost
  apply exec_blockRE_eq_none
  intro name spaces indent rest' hstart
  rcases List.append_eq_singleton_iff.mp heq.symm with ⟨rfl, rfl⟩ | ⟨_, rfl⟩
  · cases hname : name with
    | nil => exact hstart.nonempty hname
    | cons x name' =>
      have hx := Regex.isSpace_of_word (hstart.name x (by rw [hname]; exact List.mem_cons_self))
      have heq := hstart.eq
      rw [hname] at heq
      rw [← (List.cons.inj heq).1] at hx
      exact absurd hx (by decide)
  · exact hpost rfl

/-! ## Lines without a heading -/

/-- A character that no heading contains. -/
theorem not_headLine_of_mem {line : Text} {x : Char} (hmem : x ∈ line) (hword : Regex.word x = false)
    (hcolon : x ≠ ':') (hspace : Str.isSpace x = false) : ¬HeadLine line := by
  rintro ⟨name, spaces, rfl, _, hname, hspaces⟩
  rcases List.mem_append.mp hmem with h | h
  · rw [hname x h] at hword
    cases hword
  · rcases List.mem_cons.mp h with h | h
    · exact hcolon h
    · rw [hspaces x h] at hspace
      cases hspace

/-- White space in front of the first colon. -/
theorem not_headLine_of_space {a b : Text} (hcolon : ':' ∉ a) : ¬HeadLine (a ++ ' ' :: b) := by
  rintro ⟨name, spaces, heq, _, hname, _⟩
  rcases List.append_eq_append_iff.mp heq with ⟨z, rfl, hz⟩ | ⟨z, rfl, hz⟩
  · cases z with
    | nil => exact absurd (List.cons.inj hz).1 (by decide)
    | cons y z =>
      obtain ⟨rfl, _⟩ := List.cons.inj hz
      have h := Regex.isSpace_of_word (hname ' ' (by simp))
      exact absurd h (by decide)
  · cases z with
    | nil => exact absurd (List.cons.inj hz).1 (by decide)
    | cons y z =>
      obtain ⟨rfl, _⟩ := List.cons.inj hz
      exact hcolon (by simp)

/-- A line that does not end like a heading. -/
theorem not_headLine_of_last {a : Text} {x : Char} (hcolon : x ≠ ':')
    (hspace : Str.isSpace x = false) : ¬HeadLine (a ++ [x]) := by
  rintro ⟨name, spaces, heq, _, _, hspaces⟩
  rcases List.eq_nil_or_concat spaces with rfl | ⟨spaces, y, rfl⟩
  · exact hcolon (List.singleton_inj.mp (List.append_inj' heq rfl).2)
  · have heq : a ++ [x] = (name ++ ':' :: spaces) ++ [y] := by
      rw [heq]
      simp
    rw [List.singleton_inj.mp (List.append_inj' heq rfl).2, hspaces y (by simp)] at hspace
    cases hspace

/-! ## The trace -/

/-- A trace without the label begins no block if an empty line and a title follow. -/
theorem skips_trace {trace rest : Text} (htrace : ¬"Earliest:".toList <:+: trace) (before : Text) :
    Skips before trace ('\n' :: '=' :: rest) := by
  intro pre post heq _
  apply exec_blockRE_eq_none
  intro name spaces indent rest' hstart
  apply htrace
  -- everything in front of the label lies in the trace, as a title comes next
  obtain ⟨label, hlabel⟩ : ∃ label, label = name ++ ':' :: (spaces ++ '\n' :: indent) := ⟨_, rfl⟩
  have hequals : '=' ∉ label := by
    have hspace {s : Text} (hs : ∀ a ∈ s, Str.isSpace a = true) : '=' ∉ s := fun h =>
      ne_of_isSpace (hs '=' h) (by decide) rfl
    rw [hlabel]
    simp only [List.mem_append, List.mem_cons, not_or]
    exact ⟨Regex.not_mem_of_word hstart.name (by decide) (by decide), by decide, hspace hstart.spaces,
      by decide, hspace hstart.indent⟩
  have hsplit : post ++ '\n' :: '=' :: rest = label ++ ("Earliest:".toList ++ rest') := by
    rw [hlabel, show post ++ '\n' :: '=' :: rest = _ from hstart.eq]
    simp only [List.append_assoc, List.cons_append]
  have hpost : "Earliest:".toList <:+: post := by
    rcases List.append_eq_append_iff.mp hsplit with ⟨z, hz, hr⟩ | ⟨z, rfl, hr⟩
    · rcases z with _ | ⟨x, _ | ⟨y, z⟩⟩
      · cases hr
      · exact absurd (List.cons.inj (List.cons.inj hr).2).1 (by decide)
      · rw [hz, ← (List.cons.inj (List.cons.inj hr).2).1] at hequals
        exact absurd (List.mem_append_right post (by simp)) hequals
    · rcases List.append_eq_append_iff.mp hr with ⟨y, rfl, _⟩ | ⟨y, hy, hr⟩
      · exact List.infix_append_of_infix_right List.infix_append_left
      · cases y with
        | nil =>
          rw [List.append_nil] at hy
          rw [← hy]
          exact List.infix_append_right
        | cons c y =>
          have hmem : '\n' ∈ "Earliest:".toList := by
            rw [hy, ← (List.cons.inj hr).1]
            exact List.mem_append_right z List.mem_cons_self
          exact absurd hmem (by decide)
  rw [heq]
  exact hpost.trans List.infix_append_right

/-! ## The matches -/

/-- The match of a function's block. -/
def Matched (level : Int) (f : ReportedFunction) (m : Regex.Match) : Prop :=
  ∃ rest, BlockMatch level f m.text rest m.stop.groups

/-- A function whose name and instructions are printed on one line each. -/
structure Shown (f : ReportedFunction) : Prop where
  nonempty : f.name ≠ []
  name : ∀ a ∈ f.name, Str.isSpace a = false
  plain : '<' ∉ f.name
  earliest : OneLine f.earliest
  latest : ∀ i, f.latest = some i → OneLine i

/-- A function whose name is one word, its instructions being printed on one line or on several. -/
structure Displayed (f : ReportedFunction) : Prop where
  nonempty : f.name ≠ []
  name : ∀ a ∈ f.name, Str.isSpace a = false
  plain : '<' ∉ f.name
  ends : PrintedEnds f

omit [Unicode] in
theorem Shown.displayed {f : ReportedFunction} (h : Shown f) : Displayed f :=
  ⟨h.nonempty, h.name, h.plain, h.earliest.printed, fun i hi => (h.latest i hi).printed⟩

omit [Unicode] in
/-- From instructions on one line some location is read. -/
theorem Shown.hasLocations {f : ReportedFunction} (h : Shown f) {B : Text → Prop} (level : Int)
    (hB : ∀ i, OneLine i → B (i.text.dropWhile Str.isSpace ++ [' '])) : HasLocations B level f :=
  ⟨h.earliest.hasLocation h.nonempty h.name (hB _ h.earliest), fun i hi =>
    (h.latest i hi).hasLocation h.nonempty h.name (hB _ (h.latest i hi))⟩

/-- The block pattern asks for word characters. -/
def WordName (f : ReportedFunction) : Prop := ∀ a ∈ f.name, Regex.word a = true

instance (f : ReportedFunction) : Decidable (WordName f) :=
  inferInstanceAs (Decidable (∀ a ∈ f.name, Regex.word a = true))

theorem Shown.of_word {f : ReportedFunction} (hne : f.name ≠ []) (hname : WordName f)
    (hearliest : OneLine f.earliest) (hlatest : ∀ i, f.latest = some i → OneLine i) : Shown f :=
  ⟨hne, fun a ha => Regex.isSpace_of_word (hname a ha), Regex.not_mem_of_word hname (by decide) (by decide),
    hearliest, hlatest⟩

/-- The name line of another function is no heading. -/
theorem not_headLine_of_name {name : Text} (hname : ¬∀ a ∈ name, Regex.word a = true) :
    ¬HeadLine (name ++ [':']) := by
  rintro ⟨name', spaces, heq, _, hword, hspaces⟩
  rcases List.eq_nil_or_concat spaces with rfl | ⟨spaces, y, rfl⟩
  · apply hname
    rw [(List.append_inj' heq rfl).1]
    exact hword
  · have hlast : name ++ [':'] = (name' ++ ':' :: spaces) ++ [y] := by
      rw [heq]
      simp
    have hy := hspaces y (by simp)
    rw [← List.singleton_inj.mp (List.append_inj' hlast rfl).2] at hy
    exact absurd hy (by decide)

theorem inert_indented {line : Text} (hline : '\n' ∉ line) : Inert (' ' :: line ++ ['\n']) := by
  apply inert_line
  · rw [List.mem_cons, not_or]
    exact ⟨by decide, hline⟩
  · exact not_headLine_of_space (a := []) List.not_mem_nil

omit [Unicode] in
/-- What stands behind a line break of the middle part, the last one excepted. -/
theorem behind_break {a text m pre post : Text} (ha : '\n' ∉ a) (hm : '\n' ∉ m) (hpost : post ≠ [])
    (h : a ++ (text ++ (m ++ ['\n'])) = pre ++ '\n' :: post) :
    ∃ b, b <:+ text ∧ post = b ++ (m ++ ['\n']) := by
  obtain ⟨post, x, rfl⟩ := (List.eq_nil_or_concat post).resolve_left hpost
  have hsplit : a ++ (text ++ m) = pre ++ '\n' :: post ∧ x = '\n' := by
    have hlast : (a ++ (text ++ m)) ++ ['\n'] = (pre ++ '\n' :: post) ++ [x] := by
      simpa using h
    obtain ⟨hinit, hx⟩ := List.append_inj' hlast rfl
    exact ⟨hinit, (List.singleton_inj.mp hx).symm⟩
  obtain ⟨hsplit, rfl⟩ := hsplit
  rcases List.append_eq_append_iff.mp hsplit with ⟨z, _, hz⟩ | ⟨z, hz, hend⟩
  · rcases List.append_eq_append_iff.mp hz with ⟨y, _, hy⟩ | ⟨y, hy, hend⟩
    · rw [hy] at hm
      exact absurd (List.mem_append_right y List.mem_cons_self) hm
    · cases y with
      | nil =>
        rw [← show '\n' :: post = m from hend] at hm
        exact absurd List.mem_cons_self hm
      | cons c y =>
        obtain ⟨rfl, rfl⟩ := List.cons.inj hend
        refine ⟨y, ?_, by simp⟩
        rw [hy]
        exact (List.suffix_cons _ _).trans (List.suffix_append _ _)
  · cases z with
    | nil =>
      cases text with
      | nil =>
        rw [← show '\n' :: post = m from hend] at hm
        exact absurd List.mem_cons_self hm
      | cons c text =>
        obtain ⟨rfl, rfl⟩ := List.cons.inj hend
        exact ⟨text, List.suffix_cons _ _, by simp⟩
    | cons c z =>
      obtain ⟨rfl, _⟩ := List.cons.inj hend
      rw [hz] at ha
      exact absurd (List.mem_append_right pre List.mem_cons_self) ha

/-- The lines of an instruction begin no block. -/
theorem Printed.inert {i : ReportedInst} (hi : Printed i) {name : Text} (hname : '\n' ∉ name)
    (level : Int) {label : Text} (hlabel : '\n' ∉ label) :
    Inert (' ' :: (label ++ instLine level name i)) := by
  obtain ⟨m, hm⟩ : ∃ m, m = bracketed i.location ++ '>' :: lineEnd level name i.location := ⟨_, rfl⟩
  have hbreak : '\n' ∉ m := by
    rw [hm]
    simp only [List.mem_append, List.mem_cons, not_or]
    exact ⟨hi.not_mem_bracketed (by decide), by decide,
      not_mem_lineTail hname (by decide) (by decide) (by decide)⟩
  have hline : ' ' :: (label ++ instLine level name i) =
      (' ' :: (label ++ (i.text ++ ' ' :: '<' :: m))) ++ ['\n'] := by
    rw [hm, instLine_eq]
    simp only [List.append_assoc, List.cons_append]
  rw [hline]
  by_cases htext : '\n' ∈ i.text
  case neg =>
    refine inert_line ?_ (not_headLine_of_space (a := []) List.not_mem_nil)
    simp only [List.mem_append, List.mem_cons, not_or]
    exact ⟨by decide, hlabel, htext, by decide, by decide, hbreak⟩
  have hfolded := hi.folded htext
  refine ⟨.inr ⟨_, rfl⟩, fun before rest hbefore pre post heq hpost => ?_⟩
  apply exec_blockRE_eq_none
  intro name' spaces indent rest' hstart
  rcases List.eq_nil_or_concat pre with rfl | ⟨pre, x, rfl⟩
  · -- a name does not begin with a blank
    cases hname' : name' with
    | nil => exact hstart.nonempty hname'
    | cons y z =>
      have hy := Regex.isSpace_of_word (hstart.name y (by rw [hname']; exact List.mem_cons_self))
      have hrest := hstart.eq
      rw [hname', show post = _ from heq.symm] at hrest
      rw [← (List.cons.inj hrest).1] at hy
      exact absurd hy (by decide)
  -- the position is behind a line break of the text
  have hx : x = '\n' := by
    have hat := hstart.start
    rw [List.concat_eq_append, List.reverse_append] at hat
    exact eq_of_beq hat
  rw [hx, List.concat_eq_append] at heq
  obtain ⟨b, hb, hpost⟩ : ∃ b, b <:+ i.text ∧ post = b ++ (' ' :: '<' :: m ++ ['\n']) := by
    have hbroken : ' ' :: label ++ (i.text ++ (' ' :: '<' :: m ++ ['\n'])) = pre ++ '\n' :: post := by
      rw [show pre ++ '\n' :: post = (pre ++ ['\n']) ++ post by simp, ← heq]
      simp
    apply behind_break _ _ hpost hbroken
    · exact List.not_mem_cons_of_ne_of_not_mem (by decide) hlabel
    · simp only [List.mem_cons, not_or]
      exact ⟨by decide, by decide, hbreak⟩
  obtain ⟨head, hhead⟩ : ∃ head, head = name' ++ ':' :: (spaces ++ '\n' :: (indent ++ "Earliest:".toList)) :=
    ⟨_, rfl⟩
  have hopen : '<' ∉ head := by
    have hspace {s : Text} (hs : ∀ a ∈ s, Str.isSpace a = true) : '<' ∉ s := fun h =>
      ne_of_isSpace (hs '<' h) (by decide) rfl
    rw [hhead]
    simp only [List.mem_append, List.mem_cons, not_or]
    exact ⟨Regex.not_mem_of_word hstart.name (by decide) (by decide), by decide, hspace hstart.spaces,
      by decide, hspace hstart.indent, by decide⟩
  -- so the label is in front of the first bracket
  have hin {z r : Text} (h : head ++ rest' = z ++ '<' :: r) : "Earliest:".toList <:+: z := by
    have hlabel : "Earliest:".toList <:+: head := by
      rw [hhead]
      exact ⟨name' ++ ':' :: (spaces ++ '\n' :: indent), [], by simp⟩
    rcases List.append_eq_append_iff.mp h with ⟨y, rfl, _⟩ | ⟨y, hy, hr⟩
    · exact hlabel.trans (List.prefix_append _ _).isInfix
    · cases y with
      | nil =>
        rw [List.append_nil] at hy
        rw [← hy]
        exact hlabel
      | cons c y =>
        rw [hy, ← (List.cons.inj hr).1] at hopen
        exact absurd (List.mem_append_right z List.mem_cons_self) hopen
  have hsplit : head ++ rest' = b ++ ' ' :: '<' :: (m ++ '\n' :: rest) := by
    have hrest := hstart.eq
    rw [hhead]
    rw [show (_ : Regex.Cursor).rest = post ++ rest from rfl, hpost] at hrest
    simpa using hrest.symm
  apply hfolded.label
  by_cases hmem : '<' ∈ b
  · obtain ⟨b₁, b₂, rfl, _⟩ := List.eq_append_cons_of_mem hmem
    rw [List.append_assoc] at hsplit
    exact (hin hsplit).trans ((List.prefix_append _ _).isInfix.trans hb.isInfix)
  · have hsplit : head ++ rest' = (b ++ [' ']) ++ '<' :: (m ++ '\n' :: rest) := by
      rw [hsplit]
      simp
    have hlabel := hin hsplit
    rw [Str.infix_append_cons_iff (by decide)] at hlabel
    rcases hlabel with hlabel | hlabel
    · exact hlabel.trans hb.isInfix
    · exact absurd hlabel (by decide)

/-- Every line of a block but the first begins no block. -/
theorem Displayed.inert_lines {f : ReportedFunction} (hf : Displayed f) (level : Int) :
    Inert (' ' :: (" Earliest: ".toList ++ instLine level f.name f.earliest) ++ f.latestText level) := by
  have hname : '\n' ∉ f.name := fun h => absurd (hf.name _ h) (by decide)
  apply (hf.ends.earliest.inert hname level (by decide)).append
  cases hlatest : f.latest with
  | some i =>
    have htext : f.latestText level = ' ' :: (" Latest: ".toList ++ instLine level f.name i) := by
      rw [ReportedFunction.latestText, hlatest]
      rfl
    rw [htext]
    exact (hf.ends.latest i hlatest).inert hname level (by decide)
  | none =>
    have htext : f.latestText level = ' ' :: (' ' :: sameInstruction) ++ ['\n'] := by
      rw [ReportedFunction.latestText, hlatest]
      rfl
    rw [htext]
    exact inert_indented (by decide)

/-- A function whose name is no word, or from which no location is read, is passed over. -/
theorem Displayed.skips {f : ReportedFunction} (hf : Displayed f) {level : Int}
    (hnot : ¬(WordName f ∧ HasLocations BehindBlank level f)) {before : Text}
    (hbefore : ∀ a ∈ before.head?, a = '\n') (more : Text) : Skips before (f.block level) more := by
  have hline : '\n' ∉ f.name ++ [':'] := by
    rw [List.mem_append, not_or]
    exact ⟨fun h => absurd (hf.name _ h) (by decide), by decide⟩
  -- the lines of the block: its head, and the others
  have hsplit : f.block level = (f.name ++ [':'] ++ ['\n']) ++
      (' ' :: (" Earliest: ".toList ++ instLine level f.name f.earliest) ++ f.latestText level) := by
    rw [ReportedFunction.block]
    simp only [List.append_assoc, List.cons_append, List.nil_append]
    rfl
  rw [hsplit]
  apply Skips.append
  · by_cases hword : WordName f
    · apply skips_of_head hline
      apply Regex.exec_eq_none
      intro d hd
      refine absurd hd (not_matches_blockRE more hf.nonempty hword hf.ends
        (fun h => hnot ⟨hword, h⟩) ?_)
      rw [hsplit, List.append_assoc (f.name ++ [':'] ++ ['\n'])]
    · exact (inert_line hline (not_headLine_of_name hword)).skips before _ hbefore
  · apply (hf.inert_lines level).skips
    intro a ha
    rw [List.reverse_append] at ha
    exact (Option.mem_some.mp ha).symm

omit [Unicode] in
/-- What follows a block is another block or a title. -/
theorem next_not_open {level : Int} {fs : List ReportedFunction} (hfs : ∀ f ∈ fs, Displayed f)
    {tail ws r : Text} (heq : fs.flatMap (ReportedFunction.print level) ++ '\n' :: '=' :: tail =
      ws ++ '<' :: r) : ∃ x ∈ ws, Str.isSpace x = false := by
  cases fs with
  | nil => exact not_open_of_blanks ['\n'] (x := '=') (by decide) (by decide) (by decide) heq
  | cons f fs =>
    have hf := hfs f List.mem_cons_self
    rw [List.flatMap_cons, ReportedFunction.print_eq, ReportedFunction.block] at heq
    cases hname : f.name with
    | nil => exact absurd hname hf.nonempty
    | cons x name =>
      have hspace := hf.name
      have hplain := hf.plain
      rw [hname] at heq hspace hplain
      apply not_open_of_blanks ['\n'] (hspace x List.mem_cons_self) _ (by decide) heq
      rintro rfl
      exact hplain List.mem_cons_self

/-- Nothing is found where no position begins a block. -/
theorem finditerFrom_eq_nil {before text : Text} (h : Skips before text []) (n : Nat) :
    Regex.finditerFrom blockRE n before text = [] := by
  have hnone : Regex.searchFrom blockRE before text = none := by
    apply Regex.searchFrom_eq_none
    intro pre post heq
    by_cases hpost : post = []
    · rw [hpost]
      apply exec_blockRE_eq_none
      intro name spaces indent rest hstart
      have hempty : [] = name ++ ':' :: (spaces ++ '\n' :: (indent ++ ("Earliest:".toList ++ rest))) :=
        hstart.eq
      exact absurd (List.append_eq_nil_iff.mp hempty.symm).2 (List.cons_ne_nil _ _)
    · have hexec := h pre post heq hpost
      rwa [List.append_nil] at hexec
  cases n with
  | zero => rfl
  | succ n => rw [Regex.finditerFrom, hnone]

/-- Where no block begins earlier, the match of a function comes first, and the search goes on in the last
line of its block. -/
theorem finditerFrom_block {level : Int} {f : ReportedFunction} (hf : Displayed f)
    (hmatched : WordName f ∧ HasLocations BehindBlank level f) {before skipped more : Text}
    (hskips : Skips before (skipped ++ ['\n']) (f.block level ++ more))
    (hmore : ∀ ws r, more = ws ++ '<' :: r → ∃ x ∈ ws, Str.isSpace x = false) (n : Nat) :
    ∃ m before' rest, Matched level f m ∧ '\n' ∉ rest ∧ rest.length < (f.block level).length ∧
      (∃ a z, before' = a :: z ∧ a ≠ '\n') ∧
      Regex.finditerFrom blockRE (n + 1) before (skipped ++ (['\n'] ++ (f.block level ++ more))) =
        m :: Regex.finditerFrom blockRE n before' (rest ++ '\n' :: more) := by
  obtain ⟨start, hstart⟩ : ∃ b, b = (skipped ++ ['\n']).reverse ++ before := ⟨_, rfl⟩
  have hsearch : Regex.searchFrom blockRE before (skipped ++ (['\n'] ++ (f.block level ++ more))) =
      Regex.searchFrom blockRE start (f.block level ++ more) := by
    rw [← List.append_assoc, hstart]
    exact Regex.searchFrom_skip hskips
  have hatstart : (⟨start, f.block level ++ more, []⟩ : Regex.Cursor).atLineStart = true := by
    rw [hstart, List.reverse_append]
    rfl
  obtain ⟨taken, rest, groups, hblock, hexec⟩ :=
    exec_blockRE hf.nonempty hmatched.1 hatstart hf.ends hmatched.2 hmore
  rw [Regex.searchFrom_eq_some hexec] at hsearch
  obtain ⟨z, a, hza, ha⟩ := hblock.stop
  have hlength : (f.block level ++ more).length = taken.length + (rest ++ '\n' :: more).length := by
    rw [hblock.split]
    simp only [List.length_append, List.length_cons, List.length_nil]
    omega
  have htaken : 0 < taken.length := by
    rw [hza, List.length_append]
    simp
  have htext : (f.block level ++ more).take ((f.block level ++ more).length -
      (rest ++ '\n' :: more).length) = taken := by
    rw [hlength, Nat.add_sub_cancel, hblock.split, List.append_assoc, List.take_left]
  rw [Regex.finditerFrom_of_searchFrom hsearch (show (rest ++ '\n' :: more).length <
    (f.block level ++ more).length by omega)]
  refine ⟨_, taken.reverse ++ start, rest, ⟨rest, ?_⟩, hblock.rest, ?_, ?_, rfl⟩
  · show BlockMatch level f ((f.block level ++ more).take _) rest groups
    rw [htext]
    exact hblock
  · simp only [List.length_append, List.length_cons] at hlength
    omega
  · exact ⟨a, z.reverse ++ start, by rw [hza]; simp, ha⟩

open Classical in
/-- One match for each function with such a name and with locations to be read, in order. -/
theorem finditerFrom_blocks {level : Int} {fs : List ReportedFunction} (hfs : ∀ f ∈ fs, Displayed f)
    {tail : Text} (htail : ∀ before rest, Skips before ('\n' :: '=' :: tail) rest) {n : Nat}
    {before skipped : Text}
    (hskips : Skips before skipped
      (fs.flatMap (ReportedFunction.print level) ++ '\n' :: '=' :: tail))
    (hbefore : ∀ a ∈ (skipped.reverse ++ before).head?, a = '\n')
    (hn : (skipped ++ (fs.flatMap (ReportedFunction.print level) ++ '\n' :: '=' :: tail)).length < n) :
    List.Forall₂ (Matched level) (fs.filter fun f => WordName f ∧ HasLocations BehindBlank level f)
      (Regex.finditerFrom blockRE n before
        (skipped ++ (fs.flatMap (ReportedFunction.print level) ++ '\n' :: '=' :: tail))) := by
  induction fs generalizing n before skipped with
  | nil =>
    have hall : Skips before (skipped ++ '\n' :: '=' :: tail) [] := by
      apply Skips.append _ (htail _ [])
      rw [List.append_nil]
      exact hskips
    show List.Forall₂ _ [] (Regex.finditerFrom blockRE n before (skipped ++ '\n' :: '=' :: tail))
    rw [finditerFrom_eq_nil hall]
    exact .nil
  | cons f fs ih =>
    obtain ⟨hf, hfs⟩ := List.forall_mem_cons.mp hfs
    obtain ⟨more, hmore⟩ : ∃ more, more =
        fs.flatMap (ReportedFunction.print level) ++ '\n' :: '=' :: tail := ⟨_, rfl⟩
    have hprint : (f :: fs).flatMap (ReportedFunction.print level) ++ '\n' :: '=' :: tail =
        ['\n'] ++ (f.block level ++ more) := by
      rw [List.flatMap_cons, ReportedFunction.print_eq, hmore, List.append_assoc]
      rfl
    rw [hprint] at hskips hn ⊢
    by_cases hmatched : WordName f ∧ HasLocations BehindBlank level f
    · rw [List.filter_cons_of_pos (by simpa using hmatched)]
      cases n with
      | zero => exact absurd hn (Nat.not_lt_zero _)
      | succ n =>
        obtain ⟨m, before', rest, hm, hrest, hlength, hbehind, hfound⟩ := finditerFrom_block hf hmatched
          (hskips.append (skips_newline _ _)) (fun ws r heq => next_not_open hfs (by rw [← hmore, heq])) n
        rw [hfound, show rest ++ '\n' :: more = (rest ++ ['\n']) ++ more by simp, hmore]
        refine .cons hm (ih hfs (skips_line hrest hbehind) ?_ ?_)
        · intro x hx
          rw [List.reverse_append] at hx
          exact (Option.mem_some.mp hx).symm
        · rw [← hmore]
          simp only [List.length_append, List.length_cons, List.length_nil] at hn ⊢
          omega
    · -- the whole block is passed over
      rw [List.filter_cons_of_neg (by simpa using hmatched)]
      have hassoc : skipped ++ (['\n'] ++ (f.block level ++ more)) =
          (skipped ++ ['\n'] ++ f.block level) ++ more := by simp
      rw [hassoc, hmore]
      apply ih hfs
      · rw [← hmore]
        apply Skips.append
        · exact hskips.append (skips_newline _ _)
        · apply hf.skips hmatched
          intro a ha
          rw [List.reverse_append] at ha
          exact (Option.mem_some.mp ha).symm
      · obtain ⟨z, hz⟩ := f.block_closed level
        intro a ha
        rw [hz, ← List.append_assoc, List.reverse_append] at ha
        exact (Option.mem_some.mp ha).symm
      · rw [← hmore, ← hassoc]
        exact hn

end Scan

end IrToAssembly

end LinuxAnalysis
