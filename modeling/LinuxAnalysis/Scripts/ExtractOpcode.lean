import LinuxAnalysis.IR.Module
import LinuxAnalysis.Lib.Regex

/-!
# locate-const-in-ir.py: the opcode of a printed instruction

`extract_opcode` reads a line with three patterns in order.  The pass compares the result with
`getOpcodeName`, which never contains the marker that is printed in front of a call.
-/

open LinuxAnalysis.Lib

namespace LinuxAnalysis

/-! ## The script -/

section ExtractOpcode

variable [Unicode]

/-- `%\d+\s*=\s*`, then `r` -/
def assignedRE (r : Regex) : Regex :=
  .cat [.lit ['%'], .plus true Regex.digit, .star true Regex.space, .lit ['='],
    .star true Regex.space, r]

/-- `(?:tail\s+)?(call)` -/
def callRE : Regex :=
  .seq (.opt (.seq (.lit "tail".toList) (.plus true Regex.space))) (.group 1 (.lit "call".toList))

/-- `(\w+)` -/
def wordRE : Regex := .group 1 (.plus true Regex.word)

def extractOpcode (instruction : Text) : Option Text :=
  match (assignedRE callRE).search instruction with
  | some m => m.group 1
  | none =>
    match (assignedRE wordRE).search instruction with
    | some m => m.group 1
    | none =>
      match Regex.matchStart (.cat [.textStart, .star true Regex.space, wordRE]) instruction with
      | some m => m.group 1
      | none => none

end ExtractOpcode

/-! ## Printed instructions -/

/-- What is printed in front of the opcode of a call. -/
inductive TailCallKind where
  | tail
  | mustTail
  | noTail
  deriving DecidableEq

def TailCallKind.text : TailCallKind → Text
  | tail => "tail".toList
  | mustTail => "musttail".toList
  | noTail => "notail".toList

/-- How the result of an instruction is written. -/
inductive Register where
  | number (n : Nat)
  | name (s : Text)

namespace Register

/-- A name that could be read as a number is printed in quotes. -/
def IsPrintable : Register → Prop
  | number _ => True
  | name s => '%' ∉ s ∧ ∀ c ∈ s.head?, c.toNat < 128 ∧ ¬('0' ≤ c ∧ c ≤ '9')

/-- What stands between the `%` and the equals sign. -/
def text : Register → Text
  | number n => Str.str n
  | name s => s

def isNumber : Register → Bool
  | number _ => true
  | name _ => false

end Register

/-- An instruction in a textual module.  `operands` is what is printed behind the opcode, with its
flags in front and the metadata at the end. -/
structure PrintedInst where
  indent : Nat
  result : Option Register
  marker : Option TailCallKind
  kind : InstKind
  operands : Text
  result_printable : ∀ r ∈ result, r.IsPrintable
  marker_call : marker ≠ none → kind.getOpcodeName = "call".toList
  opcode_ne_nil : kind.getOpcodeName ≠ []
  opcode_word : ∀ c ∈ kind.getOpcodeName, c.isAlphanum = true ∨ c = '_'
  opcode_ne_tail : kind.getOpcodeName ≠ "tail".toList
  operands_apart : ∀ c ∈ operands.head?, c = ' ' ∨ c = ','

namespace PrintedInst

def resultText (i : PrintedInst) : Text :=
  match i.result with
  | some r => '%' :: (r.text ++ " = ".toList)
  | none => []

def markerText (i : PrintedInst) : Text :=
  match i.marker with
  | some k => k.text ++ [' ']
  | none => []

/-- What stands behind the result. -/
def body (i : PrintedInst) : Text := i.markerText ++ (i.kind.getOpcodeName ++ i.operands)

def print (i : PrintedInst) : Text := List.replicate i.indent ' ' ++ (i.resultText ++ i.body)

/-- The first word behind the result. -/
def firstWord (i : PrintedInst) : Text :=
  match i.marker with
  | some k => k.text
  | none => i.kind.getOpcodeName

def hasNumber (i : PrintedInst) : Bool := i.result.any Register.isNumber

/-- When the script reads the opcode: the operands mention no assignment that is taken for the
instruction's own, a marker is `tail` behind a numbered result, and no other opcode begins with
`call`. -/
def IsRead [Unicode] (i : PrintedInst) : Prop :=
  if ((assignedRE callRE).search i.operands).isSome then i.kind.getOpcodeName = "call".toList
  else if i.hasNumber then
    (i.marker = none ∨ i.marker = some .tail) ∧
      ("call".toList <+: i.kind.getOpcodeName → i.kind.getOpcodeName = "call".toList)
  else
    match (assignedRE wordRE).search i.operands with
    | some m => m.group 1 = some i.kind.getOpcodeName
    | none => i.result = none ∧ i.marker = none

/-! ## The patterns -/

section Patterns

variable [Unicode] {β : Type} {r : Regex}

open Regex (Cursor exec)

theorem word_space : Regex.word ' ' = false := Regex.word_eq_false (by decide) (by decide)

/-- The pattern cannot begin at the space behind an equals sign. -/
def NotAtSpace (r : Regex) : Prop := ∀ c d, Regex.Matches r c d → c.rest.head? ≠ some ' '

omit [Unicode] in
theorem matches_callRE {c d : Cursor} (h : Regex.Matches callRE c d) :
    ("call".toList <+: c.rest ∨ ∃ spaces rest, spaces ≠ [] ∧ (∀ a ∈ spaces, Regex.space a = true) ∧
      c.rest = "tail".toList ++ (spaces ++ rest) ∧ "call".toList <+: rest) ∧
      d.groups.lookup 1 = some "call".toList := by
  obtain ⟨e, htail, e', hcall, rfl⟩ := h
  obtain ⟨rest, hrest, rfl⟩ := Regex.matches_lit.mp hcall
  have hgroup : ((e.advance "call".toList rest).capture 1 e).groups.lookup 1 =
      some "call".toList := by
    rw [Cursor.capture_eq (show e.rest = "call".toList ++ (e.advance "call".toList rest).rest from
      hrest)]
    rfl
  refine ⟨?_, hgroup⟩
  rcases htail with ⟨e', htail, hspaces⟩ | rfl
  · obtain ⟨rest', hrest', rfl⟩ := Regex.matches_lit.mp htail
    obtain ⟨spaces, rest'', hne, hsplit, hall, rfl⟩ := Regex.matches_plus.mp hspaces
    have hsplit : rest' = spaces ++ rest'' := hsplit
    have hrest : rest'' = "call".toList ++ rest := hrest
    exact .inr ⟨spaces, rest'', hne, hall, by rw [hrest', hsplit], ⟨rest, hrest.symm⟩⟩
  · exact .inl ⟨rest, hrest.symm⟩

omit [Unicode] in
theorem notAtSpace_callRE : NotAtSpace callRE := by
  intro c d h hspace
  rcases (matches_callRE h).1 with ⟨rest, hrest⟩ | ⟨spaces, rest, _, _, hrest, _⟩
  · rw [← hrest] at hspace
    cases hspace
  · rw [hrest] at hspace
    cases hspace

theorem notAtSpace_wordRE : NotAtSpace wordRE := by
  intro c d h hspace
  obtain ⟨xs, rest, hne, hrest, hxs, _⟩ := Regex.matches_group_plus.mp h
  cases xs with
  | nil => exact absurd rfl hne
  | cons a xs =>
    rw [hrest] at hspace
    obtain rfl : a = ' ' := Option.some.inj hspace
    have ha := hxs ' ' List.mem_cons_self
    rw [word_space] at ha
    cases ha

/-- An assignment starts with a percent sign and a digit. -/
theorem exec_assignedRE_eq_none {k : Cursor → Option β} {c : Cursor}
    (h : ∀ a as, c.rest = '%' :: a :: as → Regex.digit a = false) :
    exec (assignedRE r) k c = none := by
  apply Regex.exec_eq_none
  rintro d ⟨e, hpercent, e', hdigits, _⟩
  obtain ⟨rest, hrest, rfl⟩ := Regex.matches_lit.mp hpercent
  obtain ⟨ds, rest', hne, hrest', hds, _⟩ := Regex.matches_plus.mp hdigits
  cases ds with
  | nil => exact absurd rfl hne
  | cons a ds =>
    have ha := hds a List.mem_cons_self
    have hrest'' : rest = a :: (ds ++ rest') := hrest'
    rw [h a (ds ++ rest') (by rw [hrest, hrest'']; rfl)] at ha
    cases ha

/-- Behind a number, the pattern goes on where the equals sign and the space end. -/
theorem exec_assignedRE_number (hr : NotAtSpace r) {k : Cursor → Option β} (before : Text) (n : Nat)
    {body : Text} (hbody : ∀ a ∈ body.head?, Regex.space a = false)
    (groups : List (Nat × List Char)) :
    exec (assignedRE r) k ⟨before, '%' :: (Str.str n ++ ' ' :: '=' :: ' ' :: body), groups⟩ =
      exec r k ⟨' ' :: '=' :: ' ' :: ((Str.str n).reverse ++ '%' :: before), body, groups⟩ := by
  have hdigit : ∀ c ∈ Str.str n, Regex.digit c = true := fun c hc => Regex.digit_of_mem_str hc
  have hspaces : ∀ a ∈ [' '], Regex.space a = true := by decide
  -- the single blank cannot be given back
  have hshort {pre post : Text} (heq : [' '] = pre ++ post) (hpost : post ≠ []) :
      pre = [] ∧ post = [' '] := by
    cases pre with
    | nil => exact ⟨rfl, heq.symm⟩
    | cons a pre =>
      obtain ⟨_, hnil⟩ := List.append_eq_nil_iff.mp (List.cons.inj heq).2.symm
      exact absurd hnil hpost
  calc exec (assignedRE r) k ⟨before, '%' :: (Str.str n ++ ' ' :: '=' :: ' ' :: body), groups⟩
      = exec (.cat [.plus true Regex.digit, .star true Regex.space, .lit ['='],
          .star true Regex.space, r]) k
          ⟨'%' :: before, Str.str n ++ ' ' :: '=' :: ' ' :: body, groups⟩ := Regex.exec_lit rfl
    _ = exec (.cat [.star true Regex.space, .lit ['='], .star true Regex.space, r]) k
          ⟨(Str.str n).reverse ++ '%' :: before, ' ' :: '=' :: ' ' :: body, groups⟩ := by
        apply Regex.exec_plus_forced Nat.toDigits_ne_nil rfl hdigit
        · rintro a as ⟨⟩
          exact Regex.digit_eq_false (by decide) (by decide)
        · -- an equals sign does not stand in front of a digit
          intro pre post heq hpost
          cases post with
          | nil => exact absurd rfl hpost
          | cons a post =>
            have hmem : a ∈ Str.str n := by
              rw [show Str.str n = pre ++ a :: post from heq]
              simp
            have ha := hdigit a hmem
            apply Regex.exec_eq_none
            rintro d ⟨e, ⟨spaces, rest, hrest, hspaces, rfl⟩, e', hequals, _⟩
            obtain ⟨rest', hrest', _⟩ := Regex.matches_lit.mp hequals
            cases spaces with
            | nil =>
              have hhead : a :: (post ++ ' ' :: '=' :: ' ' :: body) = '=' :: rest' :=
                hrest.trans hrest'
              rw [(List.cons.inj hhead).1, Regex.digit_eq_false (by decide) (by decide)] at ha
              cases ha
            | cons b spaces =>
              obtain ⟨rfl, _⟩ := List.cons.inj hrest
              have hb := hspaces _ List.mem_cons_self
              rw [Regex.space, Regex.isSpace_of_digit ha] at hb
              cases hb
    _ = exec (.cat [.lit ['='], .star true Regex.space, r]) k
          ⟨' ' :: ((Str.str n).reverse ++ '%' :: before), '=' :: ' ' :: body, groups⟩ := by
        apply Regex.exec_star_forced rfl hspaces
        · rintro a as ⟨⟩
          decide
        · intro pre post heq hpost
          obtain ⟨rfl, rfl⟩ := hshort heq hpost
          apply Regex.exec_lit_eq_none
          rintro ⟨rest, hrest⟩
          cases hrest
    _ = exec (.cat [.star true Regex.space, r]) k
          ⟨'=' :: ' ' :: ((Str.str n).reverse ++ '%' :: before), ' ' :: body, groups⟩ :=
        Regex.exec_lit rfl
    _ = exec r k ⟨' ' :: '=' :: ' ' :: ((Str.str n).reverse ++ '%' :: before), body, groups⟩ := by
        apply Regex.exec_star_forced rfl hspaces
        · intro a as heq
          exact hbody a (by rw [heq]; rfl)
        · intro pre post heq hpost
          obtain ⟨rfl, rfl⟩ := hshort heq hpost
          apply Regex.exec_eq_none
          rintro d ⟨e, hmatch, _⟩
          exact absurd rfl (hr _ _ hmatch)

theorem searchFrom_assignedRE_skip {before skipped rest : Text} (h : '%' ∉ skipped) :
    Regex.searchFrom (assignedRE r) before (skipped ++ rest) =
      Regex.searchFrom (assignedRE r) (skipped.reverse ++ before) rest := by
  apply Regex.searchFrom_skip
  intro pre post heq hpost
  apply exec_assignedRE_eq_none
  intro a as hrest
  cases post with
  | nil => exact absurd rfl hpost
  | cons b post =>
    obtain ⟨rfl, _⟩ := List.cons.inj hrest
    exact absurd (heq ▸ List.mem_append_right pre List.mem_cons_self) h

end Patterns

/-! ## What stands where -/

section Text

variable [Unicode] {r : Regex} (i : PrintedInst)

open Regex (Cursor exec)

theorem word_getOpcodeName : ∀ c ∈ i.kind.getOpcodeName, Regex.word c = true := by
  intro c hc
  rcases i.opcode_word c hc with h | rfl
  · exact Regex.word_of_isAlphanum h
  · rw [Regex.word_ascii (by decide)]
    decide

theorem word_operands : ∀ c ∈ i.operands.head?, Regex.word c = false := by
  intro c hc
  rcases i.operands_apart c hc with rfl | rfl
  · exact word_space
  · exact Regex.word_eq_false (by decide) (by decide)

theorem word_firstWord : ∀ c ∈ i.firstWord, Regex.word c = true := by
  unfold firstWord
  cases i.marker with
  | none => exact i.word_getOpcodeName
  | some k =>
    have hletters : ∀ c ∈ k.text, c.isAlphanum = true := by cases k <;> decide
    exact fun c hc => Regex.word_of_isAlphanum (hletters c hc)

omit [Unicode] in
theorem firstWord_of_none (h : i.marker = none) : i.firstWord = i.kind.getOpcodeName := by
  rw [firstWord, h]

omit [Unicode] in
theorem firstWord_of_some {k : TailCallKind} (h : i.marker = some k) : i.firstWord = k.text := by
  rw [firstWord, h]

omit [Unicode] in
theorem firstWord_ne_nil : i.firstWord ≠ [] := by
  cases hmarker : i.marker with
  | none =>
    rw [i.firstWord_of_none hmarker]
    exact i.opcode_ne_nil
  | some k =>
    rw [i.firstWord_of_some hmarker]
    cases k <;> decide

/-- The first word ends where no word character follows. -/
theorem body_eq : ∃ rest, i.body = i.firstWord ++ rest ∧ ∀ c ∈ rest.head?, Regex.word c = false := by
  unfold body markerText firstWord
  cases i.marker with
  | none => exact ⟨i.operands, rfl, i.word_operands⟩
  | some k =>
    refine ⟨' ' :: (i.kind.getOpcodeName ++ i.operands), List.append_assoc _ _ _, ?_⟩
    rintro c ⟨⟩
    exact word_space

theorem space_body : ∀ c ∈ i.body.head?, Regex.space c = false := by
  intro c hc
  obtain ⟨rest, hbody, _⟩ := i.body_eq
  rw [hbody, List.head?_append_of_ne_nil _ i.firstWord_ne_nil] at hc
  exact Regex.isSpace_of_word (i.word_firstWord c (List.mem_of_mem_head? hc))

theorem percent_not_mem : '%' ∉ i.markerText ++ i.kind.getOpcodeName := by
  have hopcode : '%' ∉ i.kind.getOpcodeName :=
    Regex.not_mem_of_word i.word_getOpcodeName (by decide) (by decide)
  intro h
  rcases List.mem_append.mp h with h | h
  · unfold markerText at h
    cases hmarker : i.marker with
    | none =>
      rw [hmarker] at h
      cases h
    | some k =>
      rw [hmarker] at h
      cases k <;> exact absurd h (by decide)
  · exact hopcode h

/-- A search finds the instruction's own assignment, if it has a number and the pattern goes on
there, and otherwise what it finds in the operands. -/
theorem groups_search_assignedRE (hu : r.unanchored = true) (hr : NotAtSpace r) :
    ((assignedRE r).search i.print).map (fun m => m.stop.groups) =
      ((if i.hasNumber then exec r some ⟨[], i.body, []⟩ else none).map Cursor.groups).or
        (((assignedRE r).search i.operands).map fun m => m.stop.groups) := by
  have hunanchored : (assignedRE r).unanchored = true := by
    simp [assignedRE, Regex.cat, Regex.lit, Regex.plus, Regex.unanchored, hu]
  -- the body holds no percent sign before its operands
  have hoperands (before : Text) :
      (Regex.searchFrom (assignedRE r) before i.body).map (fun m => m.stop.groups) =
        ((assignedRE r).search i.operands).map fun m => m.stop.groups := by
    rw [body, ← List.append_assoc, searchFrom_assignedRE_skip i.percent_not_mem, Regex.search]
    exact Regex.groups_searchFrom hunanchored _ _ _
  have hindent : '%' ∉ List.replicate i.indent ' ' := fun h =>
    absurd (List.eq_of_mem_replicate h) (by decide)
  rw [Regex.search, print, searchFrom_assignedRE_skip hindent, hasNumber, resultText]
  cases hresult : i.result with
  | none =>
    rw [List.nil_append, hoperands]
    rfl
  | some reg =>
    have hprintable := i.result_printable reg hresult
    -- a register name holds no percent sign
    have hbehind : '%' ∉ reg.text ++ " = ".toList := by
      intro h
      rcases List.mem_append.mp h with h | h
      · cases reg with
        | number n =>
          have hdigit := Regex.digit_of_mem_str h
          rw [Regex.digit_eq_false (by decide) (by decide)] at hdigit
          cases hdigit
        | name s => exact hprintable.1 h
      · exact absurd h (by decide)
    dsimp only
    rw [List.cons_append, Regex.searchFrom, Option.map_or, searchFrom_assignedRE_skip hbehind,
      hoperands, Option.map_map]
    congr 1
    -- the pattern wants digits behind the percent sign
    cases reg with
    | number n =>
      rw [List.append_assoc]
      show (exec (assignedRE r) some ⟨_, '%' :: (Str.str n ++ ' ' :: '=' :: ' ' :: i.body), []⟩).map
        Cursor.groups = (exec r some ⟨[], i.body, []⟩).map Cursor.groups
      rw [exec_assignedRE_number hr _ n i.space_body]
      exact Regex.map_exec hu (fun _ _ _ _ => rfl) _ _ _ _
    | name s =>
      rw [exec_assignedRE_eq_none]
      · rfl
      · intro a as hrest
        have hrest : s ++ " = ".toList ++ i.body = a :: as := (List.cons.inj hrest).2
        cases s with
        | nil =>
          obtain rfl : ' ' = a := (List.cons.inj hrest).1
          exact Regex.digit_eq_false (by decide) (by decide)
        | cons b s =>
          obtain rfl : b = a := (List.cons.inj hrest).1
          obtain ⟨hascii, hvalue⟩ := hprintable.2 b rfl
          exact Regex.digit_eq_false hascii hvalue

/-- The word pattern reads the first word. -/
theorem exec_wordRE_body (before : Text) (groups : List (Nat × List Char)) :
    ∃ d, exec wordRE some ⟨before, i.body, groups⟩ = some d ∧
      d.groups.lookup 1 = some i.firstWord := by
  obtain ⟨rest, hbody, hrest⟩ := i.body_eq
  have hstop : ∀ a as, rest = a :: as → Regex.word a = false :=
    fun a as heq => hrest a (by rw [heq]; rfl)
  refine ⟨⟨i.firstWord.reverse ++ before, rest, (1, i.firstWord) :: groups⟩, ?_, rfl⟩
  rw [hbody]
  exact Regex.exec_group_plus_longest i.firstWord_ne_nil rfl i.word_firstWord hstop rfl

/-- The call pattern takes a bare opcode that begins with `call`, and the marker `tail`. -/
theorem isSome_exec_callRE (before : Text) (groups : List (Nat × List Char)) :
    (exec callRE some ⟨before, i.body, groups⟩).isSome = true ↔
      i.marker = none ∧ "call".toList <+: i.kind.getOpcodeName ∨ i.marker = some .tail := by
  have hcomplete {c e : Cursor} (hopt : Regex.Matches (.opt (.seq (.lit "tail".toList)
      (.plus true Regex.space))) c e) (hcall : "call".toList <+: e.rest) :
      (exec callRE some c).isSome = true := by
    obtain ⟨rest, hrest⟩ := hcall
    have hgroup : Regex.Matches (.group 1 (.lit "call".toList)) e
        ((e.advance "call".toList rest).capture 1 e) :=
      ⟨_, Regex.matches_lit.mpr ⟨rest, hrest.symm, rfl⟩, rfl⟩
    exact Regex.exec_complete ⟨e, hopt, hgroup⟩ rfl
  constructor
  · intro h
    obtain ⟨d, hd⟩ := Option.isSome_iff_exists.mp h
    obtain ⟨_, hmatch, _⟩ := Regex.exec_sound hd
    obtain ⟨rest, hbody, hrest⟩ := i.body_eq
    have hletters : ∀ c ∈ "call".toList ++ "tail".toList, c.isAlphanum = true := by decide
    -- the word itself, or a tail marker in front of it
    rcases (matches_callRE hmatch).1 with hcall | ⟨spaces, rest', hne, hspaces, htail, _⟩
    · rw [hbody, Str.prefix_append_run (fun c hc => Regex.word_of_isAlphanum
        (hletters c (List.mem_append_left _ hc))) hrest] at hcall
      cases hmarker : i.marker with
      | none =>
        rw [i.firstWord_of_none hmarker] at hcall
        exact .inl ⟨rfl, hcall⟩
      | some k =>
        rw [i.firstWord_of_some hmarker] at hcall
        cases k <;> exact absurd hcall (by decide)
    · have hspace : ∀ c ∈ (spaces ++ rest').head?, Regex.word c = false := by
        cases spaces with
        | nil => exact absurd rfl hne
        | cons a spaces =>
          rintro c ⟨⟩
          by_contra hword
          have h := Regex.isSpace_of_word (Bool.eq_true_of_not_eq_false hword)
          rw [← Regex.space, hspaces a List.mem_cons_self] at h
          cases h
      have hword := (Str.append_run_inj i.word_firstWord (fun c hc => Regex.word_of_isAlphanum
        (hletters c (List.mem_append_right _ hc))) hrest hspace (hbody.symm.trans htail)).1
      cases hmarker : i.marker with
      | none =>
        rw [i.firstWord_of_none hmarker] at hword
        exact absurd hword i.opcode_ne_tail
      | some k =>
        rw [i.firstWord_of_some hmarker] at hword
        -- of the three markers only one is what the pattern spells
        cases k with
        | tail => exact .inr rfl
        | mustTail => exact absurd hword (by decide)
        | noTail => exact absurd hword (by decide)
  · rintro (⟨hmarker, hcall⟩ | hmarker)
    · apply hcomplete (.inr rfl)
      show "call".toList <+: i.body
      rw [body, markerText, hmarker, List.nil_append]
      exact hcall.trans (List.prefix_append _ _)
    · have hcall := i.marker_call (by simp [hmarker])
      have hbody : i.body = "tail".toList ++ (' ' :: ("call".toList ++ i.operands)) := by
        rw [body, markerText, hmarker, hcall]
        rfl
      rw [hbody]
      refine hcomplete (.inl ⟨_, Regex.matches_lit.mpr ⟨_, rfl, rfl⟩,
        Regex.matches_plus.mpr ⟨[' '], "call".toList ++ i.operands, by decide, rfl, by decide,
          rfl⟩⟩) ?_
      exact List.prefix_append _ _

/-- Without a result the line begins with the first word. -/
theorem group_matchStart :
    (match Regex.matchStart (.cat [.textStart, .star true Regex.space, wordRE]) i.print with
      | some m => m.group 1
      | none => none) = if i.result = none then some i.firstWord else none := by
  have hspaces : ∀ a ∈ List.replicate i.indent ' ', Regex.space a = true := by
    intro a ha
    rw [List.eq_of_mem_replicate ha]
    decide
  by_cases hresult : i.result = none
  -- without a result the body follows the indentation
  · have hprint : i.print = List.replicate i.indent ' ' ++ i.body := by
      rw [print, resultText, hresult, List.nil_append]
    obtain ⟨d, hd, hgroup⟩ := i.exec_wordRE_body ((List.replicate i.indent ' ').reverse ++ []) []
    have hexec : exec (.cat [.textStart, .star true Regex.space, wordRE]) some ⟨[], i.print, []⟩ =
        some d := by
      rw [← hd]
      show exec (.star true Regex.space) (exec wordRE some) ⟨[], i.print, []⟩ = _
      rw [hprint]
      apply Regex.exec_star_greedy rfl hspaces
      · intro ys rest heq hys hall
        cases ys with
        | nil => exact absurd rfl hys
        | cons a ys =>
          have ha := i.space_body a (by rw [heq]; rfl)
          rw [hall a List.mem_cons_self] at ha
          cases ha
      · exact Option.isSome_of_eq_some hd
    rw [if_pos hresult, Regex.matchStart, hexec]
    exact hgroup
  · -- a result begins with a percent sign
    rw [if_neg hresult]
    obtain ⟨reg, hreg⟩ := Option.ne_none_iff_exists'.mp hresult
    have hprint : i.print = List.replicate i.indent ' ' ++
        '%' :: (reg.text ++ " = ".toList ++ i.body) := by
      rw [print, resultText, hreg]
      rfl
    have hnone : Regex.matchStart (.cat [.textStart, .star true Regex.space, wordRE]) i.print =
        none := by
      rw [Option.eq_none_iff_forall_ne_some]
      intro m hm
      obtain ⟨e, ⟨_, rfl⟩, e', ⟨ws, rest, hrest, hws, rfl⟩, e'', hword, _⟩ :=
        (Regex.matchStart_sound hm).2
      obtain ⟨xs, rest', hne, hrest', hxs, _⟩ := Regex.matches_group_plus.mp hword
      have hsplit : List.replicate i.indent ' ' ++ '%' :: (reg.text ++ " = ".toList ++ i.body) =
          ws ++ (xs ++ rest') := by
        rw [← hprint, ← show rest = xs ++ rest' from hrest']
        exact hrest
      cases xs with
      | nil => exact hne rfl
      | cons a xs =>
        have ha := hxs a List.mem_cons_self
        have hpercent := (Str.append_run_inj hspaces hws (by rintro c ⟨⟩; decide)
          (by rintro c ⟨⟩; exact Regex.isSpace_of_word ha) hsplit).2
        rw [← (List.cons.inj hpercent).1, Regex.word_eq_false (by decide) (by decide)] at ha
        cases ha
    rw [hnone]

end Text

/-! ## The opcode -/

section Opcode

variable [Unicode]

theorem group_callRE {s : Text} {m : Regex.Match} (h : (assignedRE callRE).search s = some m) :
    m.group 1 = some "call".toList := by
  obtain ⟨_, _, _, _, _, _, _, _, _, _, _, hcall, hstop⟩ := (Regex.searchFrom_sound h).1
  rw [Regex.Match.group, show m.stop = _ from hstop]
  exact (matches_callRE hcall).2

omit [Unicode] in
theorem firstWord_eq_iff (i : PrintedInst) :
    i.firstWord = i.kind.getOpcodeName ↔ i.marker = none := by
  cases hmarker : i.marker with
  | none => exact iff_of_true (i.firstWord_of_none hmarker) rfl
  | some k =>
    apply iff_of_false _ (by simp)
    rw [i.firstWord_of_some hmarker, i.marker_call (by simp [hmarker])]
    cases k <;> decide

theorem isSome_search_callRE (i : PrintedInst) :
    ((assignedRE callRE).search i.print).isSome = true ↔
      ((assignedRE callRE).search i.operands).isSome = true ∨ i.hasNumber = true ∧
        (i.marker = none ∧ "call".toList <+: i.kind.getOpcodeName ∨ i.marker = some .tail) := by
  have hgroups := congrArg Option.isSome
    (i.groups_search_assignedRE (show callRE.unanchored = true from rfl) notAtSpace_callRE)
  rw [Option.isSome_map, Option.isSome_or, Option.isSome_map, Option.isSome_map] at hgroups
  rw [hgroups, Bool.or_eq_true, or_comm]
  apply or_congr_right
  cases i.hasNumber with
  | true => rw [if_pos rfl, isSome_exec_callRE, eq_self, true_and]
  | false => simp

/-- The three patterns in order. -/
theorem extractOpcode_of_call (i : PrintedInst)
    (h : ((assignedRE callRE).search i.print).isSome = true) :
    extractOpcode i.print = some "call".toList := by
  obtain ⟨m, hm⟩ := Option.isSome_iff_exists.mp h
  rw [extractOpcode, hm]
  exact group_callRE hm

theorem extractOpcode_of_number (i : PrintedInst) (hcall : (assignedRE callRE).search i.print = none)
    (hnumber : i.hasNumber = true) : extractOpcode i.print = some i.firstWord := by
  have hword := i.groups_search_assignedRE (show wordRE.unanchored = true from rfl)
    notAtSpace_wordRE
  obtain ⟨d, hd, hgroup⟩ := i.exec_wordRE_body [] []
  rw [if_pos hnumber, hd, Option.map_some, Option.some_or, Option.map_eq_some_iff] at hword
  obtain ⟨m, hm, hgroups⟩ := hword
  rw [extractOpcode, hcall, hm]
  dsimp only
  rw [Regex.Match.group, hgroups, hgroup]

theorem extractOpcode_of_no_number (i : PrintedInst)
    (hcall : (assignedRE callRE).search i.print = none) (hnumber : ¬i.hasNumber = true) :
    extractOpcode i.print =
      match (assignedRE wordRE).search i.operands with
      | some m => m.group 1
      | none => if i.result = none then some i.firstWord else none := by
  have hword := i.groups_search_assignedRE (show wordRE.unanchored = true from rfl)
    notAtSpace_wordRE
  rw [if_neg hnumber, Option.map_none, Option.none_or] at hword
  rw [extractOpcode, hcall]
  dsimp only
  cases hsearch : (assignedRE wordRE).search i.operands with
  | some m =>
    rw [hsearch, Option.map_some, Option.map_eq_some_iff] at hword
    obtain ⟨m', hm', hgroups⟩ := hword
    rw [hm']
    dsimp only
    rw [Regex.Match.group, hgroups, ← Regex.Match.group]
  | none =>
    rw [hsearch, Option.map_none, Option.map_eq_none_iff] at hword
    rw [hword]
    dsimp only
    rw [i.group_matchStart]

/-- **Which opcodes are read.**  The script returns what `getOpcodeName` gives if and only if the
instruction is written in a way that the three patterns cover. -/
theorem extractOpcode_print_iff (i : PrintedInst) :
    extractOpcode i.print = some i.kind.getOpcodeName ↔ i.IsRead := by
  have hcall := i.isSome_search_callRE
  unfold IsRead
  -- the searches in the order the function makes them
  by_cases hoperands : ((assignedRE callRE).search i.operands).isSome = true
  · rw [i.extractOpcode_of_call (hcall.mpr (.inl hoperands)), if_pos hoperands, Option.some.injEq,
      eq_comm]
  · rw [if_neg hoperands]
    -- the call pattern fails; a numbered register leads to the word behind it
    by_cases hnumber : i.hasNumber = true
    · rw [if_pos hnumber]
      by_cases hahead : i.marker = none ∧ "call".toList <+: i.kind.getOpcodeName ∨
          i.marker = some .tail
      · rw [i.extractOpcode_of_call (hcall.mpr (.inr ⟨hnumber, hahead⟩)), Option.some.injEq]
        constructor
        · intro hopcode
          exact ⟨hahead.imp And.left id, fun _ => hopcode.symm⟩
        · rintro ⟨_, hlonger⟩
          rcases hahead with ⟨_, hstarts⟩ | hmarker
          · exact (hlonger hstarts).symm
          · exact (i.marker_call (by simp [hmarker])).symm
      · have hnone : (assignedRE callRE).search i.print = none := by
          rw [← Option.not_isSome_iff_eq_none, hcall]
          exact not_or.mpr ⟨hoperands, fun h => hahead h.2⟩
        rw [i.extractOpcode_of_number hnone hnumber, Option.some.injEq, firstWord_eq_iff]
        constructor
        · intro hmarker
          exact ⟨.inl hmarker, fun hstarts => absurd (.inl ⟨hmarker, hstarts⟩) hahead⟩
        · rintro ⟨hmarker | hmarker, _⟩
          · exact hmarker
          · exact absurd (.inr hmarker) hahead
    · have hnone : (assignedRE callRE).search i.print = none := by
        rw [← Option.not_isSome_iff_eq_none, hcall]
        exact not_or.mpr ⟨hoperands, fun h => hnumber h.1⟩
      rw [i.extractOpcode_of_no_number hnone hnumber, if_neg hnumber]
      cases (assignedRE wordRE).search i.operands with
      | some m => rfl
      | none =>
        dsimp only
        by_cases hresult : i.result = none
        · rw [if_pos hresult, Option.some.injEq, firstWord_eq_iff, and_iff_right hresult]
        · rw [if_neg hresult]
          exact iff_of_false (by simp) fun h => hresult h.1

end Opcode

/-- `tail call void @f()` -/
def tailCall : PrintedInst where
  indent := 2
  result := none
  marker := some .tail
  kind := .call (.function 0) true [] []
  operands := " void @f()".toList
  result_printable := by rintro r ⟨⟩
  marker_call _ := rfl
  opcode_ne_nil := by decide
  opcode_word := by decide
  opcode_ne_tail := by decide
  operands_apart := by
    rintro c ⟨⟩
    exact .inl rfl

/-- The marker of a call without a result is taken for its opcode. -/
theorem extractOpcode_misses_tail :
    ¬ ∀ (_ : Unicode) (i : PrintedInst),
      extractOpcode i.print = some i.kind.getOpcodeName := by
  intro hall
  have hread := hall Unicode.ascii tailCall
  exact absurd hread (by decide +kernel)

end PrintedInst

end LinuxAnalysis
