import LinuxAnalysis.Lib.Fields
import LinuxAnalysis.Lib.Matcher
import LinuxAnalysis.Lib.Regex

/-!
# locate-const-in-ir.py: the integer that changed

`changed_int` lays the fields of two lines against each other and takes the first two that contain
different integers.  Registers, metadata and attribute groups contain integers too, so that renumbering
one of them in front of the operand hides the operand.
-/

open LinuxAnalysis.Lib

namespace LinuxAnalysis

/-! ## The script -/

section ChangedInt

variable [Unicode]

/-- `-?\d+` -/
def intRE : Regex := .seq (.opt (.lit ['-'])) (.plus true Regex.digit)

def firstInt (token : Text) : Option Text := (intRE.search token).map Regex.Match.text

/-- The first integers of two tokens, if they differ. -/
def differentInts (tokens : Text × Text) : Option (Text × Text) :=
  match firstInt tokens.1, firstInt tokens.2 with
  | some om, some nm => if om ≠ nm then some (om, nm) else none
  | _, _ => none

/-- `changed_int`; `none` is the pair of two `None`. -/
def changedInt (oldLine newLine : Text) : Option (Text × Text) :=
  (Matcher.getOpcodes (Str.split oldLine) (Str.split newLine)).findSome? fun
    | .replace a b => (a.zip b).findSome? differentInts
    | _ => none

/-- The first two tokens with different integers among those that are laid against each other. -/
theorem changedInt_of_laid {oldLine newLine : Text} {laid : List (Text × Text)}
    (h : Matcher.Laid (Str.split oldLine) (Str.split newLine) laid) :
    changedInt oldLine newLine = laid.findSome? differentInts := by
  rw [h.unique (Matcher.laid_getOpcodes _ _), changedInt]
  induction Matcher.getOpcodes (Str.split oldLine) (Str.split newLine) with
  | nil => rfl
  | cons op ops ih =>
    rw [List.findSome?_cons, List.flatMap_cons, List.findSome?_append, ih]
    cases op with
    | replace a b =>
      dsimp only [Matcher.Opcode.replaced]
      cases (a.zip b).findSome? differentInts <;> rfl
    | equal a => rfl
    | delete a => rfl
    | insert b => rfl

theorem changedInt_strip (oldLine newLine : Text) :
    changedInt (Str.strip oldLine) (Str.strip newLine) = changedInt oldLine newLine := by
  rw [changedInt, changedInt, Str.split_strip, Str.split_strip]

/-! ## The first integer of a token -/

theorem strInt_eq (z : Int) : ∃ sign ds, Str.strInt z = sign ++ ds ∧
    (sign = [] ∨ sign = ['-']) ∧ ds ≠ [] ∧ ∀ c ∈ ds, Regex.digit c = true := by
  cases z with
  | ofNat n =>
    exact ⟨[], Str.str n, rfl, .inl rfl, Nat.toDigits_ne_nil, fun c hc => Regex.digit_of_mem_str hc⟩
  | negSucc n =>
    exact ⟨['-'], Str.str (n + 1), rfl, .inr rfl, Nat.toDigits_ne_nil,
      fun c hc => Regex.digit_of_mem_str hc⟩

/-- Characters that are no digits are passed over, unless they end in the sign of a number. -/
theorem firstInt_append {before : Text} (rest : Text) (h : ∀ c ∈ before, Regex.digit c = false)
    (hlast : before.getLast? ≠ some '-') : firstInt (before ++ rest) = firstInt rest := by
  rw [firstInt, firstInt, Regex.search, Regex.searchFrom_skip]
  · exact Regex.text_searchFrom rfl _ _ _
  -- a match inside `before` would begin with a digit, or with a minus sign in front of one
  · intro pre post heq hpost
    apply Regex.exec_eq_none
    rintro d ⟨e, hsign, hdigits⟩
    obtain ⟨ds, rest', hne, hrest, hds, _⟩ := Regex.matches_plus.mp hdigits
    cases ds with
    | nil => exact absurd rfl hne
    | cons a ds =>
      have ha := hds a List.mem_cons_self
      have hmem {b : Char} (hb : b ∈ post) : Regex.digit b = false :=
        h b (heq ▸ List.mem_append_right pre hb)
      cases post with
      | nil => exact absurd rfl hpost
      | cons b post =>
        rcases hsign with hminus | rfl
        · obtain ⟨rest'', hrest'', rfl⟩ := Regex.matches_lit.mp hminus
          obtain ⟨rfl, hpost'⟩ := List.cons.inj hrest''
          have hrest : rest'' = a :: (ds ++ rest') := hrest
          rw [hrest] at hpost'
          cases post with
          | nil =>
            exact absurd (by rw [heq, List.getLast?_concat]) hlast
          | cons c post =>
            obtain ⟨rfl, _⟩ := List.cons.inj hpost'
            rw [hmem (List.mem_cons_of_mem _ List.mem_cons_self)] at ha
            cases ha
        · obtain ⟨rfl, _⟩ := List.cons.inj hrest
          rw [hmem List.mem_cons_self] at ha
          cases ha

theorem firstInt_eq_none {token : Text} (h : ∀ c ∈ token, Regex.digit c = false) :
    firstInt token = none := by
  rw [firstInt, Option.map_eq_none_iff]
  apply Regex.searchFrom_eq_none
  intro pre post heq
  apply Regex.exec_eq_none
  rintro d ⟨e, hsign, hdigits⟩
  obtain ⟨ds, rest, hne, hrest, hds, _⟩ := Regex.matches_plus.mp hdigits
  obtain ⟨a, ha⟩ := List.exists_mem_of_ne_nil ds hne
  have hsuffix : e.rest <:+ post := Regex.suffix_of_matches hsign
  have hmem : a ∈ e.rest := by
    rw [hrest]
    exact List.mem_append_left rest ha
  have hdigit := h a (heq ▸ List.mem_append_right pre (hsuffix.mem hmem))
  rw [hds a ha] at hdigit
  cases hdigit

/-- A number at the beginning of a token is read whole. -/
theorem firstInt_strInt (z : Int) {after : Text} (hafter : ∀ c ∈ after.head?, Regex.digit c = false) :
    firstInt (Str.strInt z ++ after) = some (Str.strInt z) := by
  obtain ⟨sign, ds, heq, hsign, hne, hds⟩ := strInt_eq z
  have hstop : ∀ a as, after = a :: as → Regex.digit a = false :=
    fun a as h => hafter a (by rw [h]; rfl)
  have hplus (before : Text) : Regex.exec (.plus true Regex.digit) some ⟨before, ds ++ after, []⟩ =
      some ⟨ds.reverse ++ before, after, []⟩ :=
    Regex.exec_plus_longest hne rfl hds hstop rfl
  have hexec : Regex.exec intRE some ⟨[], Str.strInt z ++ after, []⟩ =
      some ⟨(Str.strInt z).reverse, after, []⟩ := by
    show (Regex.exec (.lit ['-']) (Regex.exec (.plus true Regex.digit) some)
      ⟨[], Str.strInt z ++ after, []⟩).or (Regex.exec (.plus true Regex.digit) some
        ⟨[], Str.strInt z ++ after, []⟩) = _
    rw [heq]
    -- without a sign the optional minus fails and the digits match at once
    rcases hsign with rfl | rfl
    · rw [Regex.exec_lit_eq_none, Option.none_or, List.nil_append, hplus, List.append_nil]
      rintro ⟨rest, hrest⟩
      cases ds with
      | nil => exact hne rfl
      | cons a ds =>
        have ha := hds a List.mem_cons_self
        obtain ⟨rfl, _⟩ := List.cons.inj hrest
        exact (Regex.digit_ne ha).2.1 rfl
    · have hminus : Regex.exec (.lit ['-']) (Regex.exec (.plus true Regex.digit) some)
          ⟨[], ['-'] ++ ds ++ after, []⟩ = some ⟨(['-'] ++ ds).reverse, after, []⟩ := by
        rw [List.reverse_append]
        exact (Regex.exec_lit (List.append_assoc _ _ _)).trans (hplus _)
      rw [hminus, Option.some_or]
  rw [firstInt, Regex.search, Regex.searchFrom_eq_some hexec, Option.map_some, Regex.Match.text,
    List.length_append, Nat.add_sub_cancel, List.take_left]

end ChangedInt

/-! ## Two printings of one instruction -/

/-- What a number in a printed instruction refers to. -/
inductive Sigil where
  | register
  | metadata
  | attributes
  deriving DecidableEq

def Sigil.char : Sigil → Char
  | register => '%'
  | metadata => '!'
  | attributes => '#'

/-- A `ConstantInt` as it is printed; `i1` is printed as a truth value. -/
def printConstantInt (width : Nat) (sext : Int) : Text :=
  if width = 1 then if sext = 0 then "false".toList else "true".toList else Str.strInt sext

/-- A field of the two lines. -/
inductive TokenPair where
  | same (token : Text)
  | reference (before : Text) (sigil : Sigil) (old new : Nat) (after : Text)
  | constant (before : Text) (width : Nat) (old new : Int) (after : Text)

namespace TokenPair

def old : TokenPair → Text
  | same token => token
  | reference before sigil old _ after => before ++ sigil.char :: (Str.str old ++ after)
  | constant before width old _ after => before ++ (printConstantInt width old ++ after)

def new : TokenPair → Text
  | same token => token
  | reference before sigil _ new after => before ++ sigil.char :: (Str.str new ++ after)
  | constant before width _ new after => before ++ (printConstantInt width new ++ after)

/-- The operand that changed. -/
def operand : TokenPair → Option (Int × Int)
  | constant _ _ old new _ => some (old, new)
  | _ => none

/-- The first integer of a field in the old line. -/
def oldNumber [Unicode] : TokenPair → Option Text
  | same token => firstInt token
  | reference _ _ old _ _ => some (Str.str old)
  | constant _ width old _ _ => if width = 1 then none else some (Str.strInt old)

/-- The first integer of a field in the new line. -/
def newNumber [Unicode] : TokenPair → Option Text
  | same token => firstInt token
  | reference _ _ _ new _ => some (Str.str new)
  | constant _ width _ new _ => if width = 1 then none else some (Str.strInt new)

/-- The integers of a field, if it has different ones in the two lines. -/
def numbers : TokenPair → Option (Text × Text)
  | same _ => none
  | reference _ _ old new _ => if old = new then none else some (Str.str old, Str.str new)
  | constant _ width old new _ =>
    if width = 1 then none else some (Str.strInt old, Str.strInt new)

/-- The number begins where the first digit of the field is, and ends before the rest. -/
def WellFormed [Unicode] : TokenPair → Prop
  | same token => token ≠ [] ∧ ∀ c ∈ token, Str.isSpace c = false
  | reference before _ _ _ after =>
    (∀ c ∈ before ++ after, Str.isSpace c = false) ∧ (∀ c ∈ before, Regex.digit c = false) ∧
      ∀ c ∈ after.head?, Regex.digit c = false
  | constant before width old new after =>
    (∀ c ∈ before ++ after, Str.isSpace c = false) ∧
      (∀ c ∈ before ++ after, Regex.digit c = false) ∧ before.getLast? ≠ some '-' ∧ old ≠ new ∧
      (width = 1 → (old = 0 ∨ old = -1) ∧ (new = 0 ∨ new = -1))

section Fields

variable [Unicode] {t : TokenPair}

theorem isSpace_printConstantInt {width : Nat} {z : Int} :
    ∀ c ∈ printConstantInt width z, Str.isSpace c = false := by
  intro c h
  have hletters : ∀ c ∈ "false".toList ++ "true".toList, Str.isSpace c = false := by decide
  unfold printConstantInt at h
  split at h
  · split at h
    · exact hletters c (List.mem_append_left _ h)
    · exact hletters c (List.mem_append_right _ h)
  · obtain ⟨sign, ds, heq, hsign, _, hds⟩ := strInt_eq z
    rw [heq] at h
    rcases List.mem_append.mp h with h | h
    · rcases hsign with rfl | rfl
      · cases h
      · rw [List.mem_singleton.mp h]
        decide
    · exact Regex.isSpace_of_digit (hds c h)

/-- Each side of a field is a word. -/
theorem isToken (h : t.WellFormed) :
    (t.old ≠ [] ∧ ∀ c ∈ t.old, Str.isSpace c = false) ∧
      t.new ≠ [] ∧ ∀ c ∈ t.new, Str.isSpace c = false := by
  cases t with
  | same token => exact ⟨h, h⟩
  | reference before sigil old new after =>
    have hsigil : Str.isSpace sigil.char = false := by cases sigil <;> decide
    -- both fields are the same text around a number
    have hfield (n : Nat) : before ++ sigil.char :: (Str.str n ++ after) ≠ [] ∧
        ∀ c ∈ before ++ sigil.char :: (Str.str n ++ after), Str.isSpace c = false := by
      refine ⟨by simp, ?_⟩
      intro c hc
      simp only [List.mem_append, List.mem_cons] at hc
      rcases hc with hc | rfl | hc | hc
      · exact h.1 c (List.mem_append_left _ hc)
      · exact hsigil
      · exact Regex.isSpace_of_digit (Regex.digit_of_mem_str hc)
      · exact h.1 c (List.mem_append_right _ hc)
    exact ⟨hfield old, hfield new⟩
  | constant before width old new after =>
    have hfield (z : Int) : before ++ (printConstantInt width z ++ after) ≠ [] ∧
        ∀ c ∈ before ++ (printConstantInt width z ++ after), Str.isSpace c = false := by
      constructor
      · have hne : printConstantInt width z ≠ [] := by
          unfold printConstantInt
          split
          · split <;> decide
          · cases z with
            | ofNat n => exact Nat.toDigits_ne_nil
            | negSucc n => exact List.cons_ne_nil _ _
        simp [hne]
      · intro c hc
        simp only [List.mem_append] at hc
        rcases hc with hc | hc | hc
        · exact h.1 c (List.mem_append_left _ hc)
        · exact isSpace_printConstantInt c hc
        · exact h.1 c (List.mem_append_right _ hc)
    exact ⟨hfield old, hfield new⟩

theorem differentInts_self (token : Text) : differentInts (token, token) = none := by
  rw [differentInts]
  cases firstInt token with
  | none => rfl
  | some n => exact if_neg (not_not_intro rfl)

/-- The sigil stands between the text and the number, so the number is the first integer. -/
theorem firstInt_reference {before after : Text} (sigil : Sigil) (n : Nat)
    (hbefore : ∀ c ∈ before, Regex.digit c = false)
    (hafter : ∀ c ∈ after.head?, Regex.digit c = false) :
    firstInt (before ++ sigil.char :: (Str.str n ++ after)) = some (Str.str n) := by
  have hsigil : Regex.digit sigil.char = false ∧ sigil.char ≠ '-' := by
    cases sigil <;> exact ⟨Regex.digit_eq_false (by decide) (by decide), by decide⟩
  rw [← List.singleton_append, ← List.append_assoc, firstInt_append]
  · exact firstInt_strInt (.ofNat n) hafter
  · intro c hc
    rcases List.mem_append.mp hc with hc | hc
    · exact hbefore c hc
    · rw [List.mem_singleton.mp hc]
      exact hsigil.1
  · rw [List.getLast?_concat]
    exact fun heq => hsigil.2 (Option.some.inj heq)

/-- A constant of width 1 prints as a word and has no integer. -/
theorem firstInt_constant {before after : Text} (width : Nat) (z : Int)
    (hdigits : ∀ c ∈ before ++ after, Regex.digit c = false) (hlast : before.getLast? ≠ some '-') :
    firstInt (before ++ (printConstantInt width z ++ after)) =
      if width = 1 then none else some (Str.strInt z) := by
  have hbefore : ∀ c ∈ before, Regex.digit c = false :=
    fun c hc => hdigits c (List.mem_append_left _ hc)
  have hafter : ∀ c ∈ after, Regex.digit c = false :=
    fun c hc => hdigits c (List.mem_append_right _ hc)
  rw [firstInt_append _ hbefore hlast, printConstantInt]
  split
  · apply firstInt_eq_none
    intro c hc
    rcases List.mem_append.mp hc with hc | hc
    · have hletters : ∀ c ∈ "false".toList ++ "true".toList,
          c.toNat < 128 ∧ ¬('0' ≤ c ∧ c ≤ '9') := by decide
      have hmem : c ∈ "false".toList ++ "true".toList := by
        split at hc
        · exact List.mem_append_left _ hc
        · exact List.mem_append_right _ hc
      exact Regex.digit_eq_false (hletters c hmem).1 (hletters c hmem).2
    · exact hafter c hc
  · exact firstInt_strInt z fun c hc => hafter c (List.mem_of_mem_head? hc)

theorem firstInt_old (h : t.WellFormed) : firstInt t.old = t.oldNumber := by
  cases t with
  | same token => rfl
  | reference before sigil old new after => exact firstInt_reference sigil old h.2.1 h.2.2
  | constant before width old new after => exact firstInt_constant width old h.2.1 h.2.2.1

theorem firstInt_new (h : t.WellFormed) : firstInt t.new = t.newNumber := by
  cases t with
  | same token => rfl
  | reference before sigil old new after => exact firstInt_reference sigil new h.2.1 h.2.2
  | constant before width old new after => exact firstInt_constant width new h.2.1 h.2.2.1

/-- The integers that the script reads off two fields. -/
theorem differentInts_eq_some_iff {u : TokenPair} (ht : t.WellFormed) (hu : u.WellFormed)
    {values : Text × Text} : differentInts (t.old, u.new) = some values ↔
      t.oldNumber = some values.1 ∧ u.newNumber = some values.2 ∧ values.1 ≠ values.2 := by
  rw [← firstInt_old ht, ← firstInt_new hu, differentInts]
  cases firstInt t.old with
  | none => simp
  | some om =>
    cases firstInt u.new with
    | none => simp
    | some nm =>
      obtain ⟨old, new⟩ := values
      by_cases heq : om = nm
      · subst heq
        simp only [ne_eq, not_true_eq_false, if_false, Option.some.injEq, reduceCtorEq, false_iff]
        rintro ⟨rfl, rfl, hne⟩
        exact hne rfl
      · simp only [ne_eq, heq, not_false_eq_true, if_true, Option.some.injEq, Prod.mk.injEq]
        constructor
        · rintro ⟨rfl, rfl⟩
          exact ⟨rfl, rfl, heq⟩
        · exact fun h => ⟨h.1, h.2.1⟩

/-- The integers that the script reads off a field. -/
theorem differentInts_eq (h : t.WellFormed) : differentInts (t.old, t.new) = t.numbers := by
  cases t with
  | same token => exact differentInts_self token
  | reference before sigil old new after =>
    by_cases heq : old = new
    · subst heq
      rw [numbers, if_pos rfl]
      exact differentInts_self _
    · rw [numbers, if_neg heq]
      exact (differentInts_eq_some_iff h h).mpr ⟨rfl, rfl, fun hstr => heq (Str.str_injective hstr)⟩
  | constant before width old new after =>
    by_cases hwidth : width = 1
    · rw [differentInts, firstInt_old h, oldNumber, numbers, if_pos hwidth, if_pos hwidth]
    · rw [numbers, if_neg hwidth]
      exact (differentInts_eq_some_iff h h).mpr ⟨if_neg hwidth, if_neg hwidth, fun hstr =>
        h.2.2.2.1 (Str.strInt_injective hstr)⟩

/-- Fields without a change have no different integers. -/
theorem findSome?_changed {ts : List TokenPair} (h : ∀ t ∈ ts, t.WellFormed) :
    ((ts.map fun t => (t.old, t.new)).filter fun p => p.1 ≠ p.2).findSome? differentInts =
      ts.findSome? numbers := by
  induction ts with
  | nil => rfl
  | cons t ts ih =>
    obtain ⟨ht, hts⟩ := List.forall_mem_cons.mp h
    rw [List.map_cons, List.findSome?_cons, ← differentInts_eq ht]
    by_cases heq : t.old = t.new
    · rw [List.filter_cons_of_neg (by simpa using heq), ih hts, heq, differentInts_self]
    · rw [List.filter_cons_of_pos (by simpa using heq), List.findSome?_cons, ih hts]

end Fields

end TokenPair

/-- Two printings of an instruction, with at most one operand changed. -/
structure LinePair [Unicode] where
  indent : Nat
  first : TokenPair
  /-- Each further field with the number of spaces in front of it, less one. -/
  rest : List (Nat × TokenPair)
  wellFormed : ∀ t ∈ first :: rest.map Prod.snd, t.WellFormed
  operands_le : ((first :: rest.map Prod.snd).filterMap TokenPair.operand).length ≤ 1

namespace LinePair

variable [Unicode] (p : LinePair)

def pairs : List TokenPair := p.first :: p.rest.map Prod.snd

def line (side : TokenPair → Text) : Text :=
  List.replicate p.indent ' ' ++ (side p.first ++
    p.rest.flatMap fun e => List.replicate (e.1 + 1) ' ' ++ side e.2)

def old : Text := p.line TokenPair.old

def new : Text := p.line TokenPair.new

/-- The values of the operand that changed. -/
def operand : Option (Text × Text) :=
  (p.pairs.findSome? TokenPair.operand).map fun e => (Str.strInt e.1, Str.strInt e.2)

/-- Field `i` of the old line is laid against field `j` of the new one: they have the same number of
fields in front of them, counted from the beginning or from the end of a longest common stretch. -/
def Opposite (i j : Nat) : Prop :=
  Matcher.Opposite (p.pairs.map TokenPair.old) (p.pairs.map TokenPair.new) i j

/-- Field `i` of the old line and field `j` of the new one begin with different numbers. -/
def Differ (i j : Nat) (values : Text × Text) : Prop :=
  ∃ t u, p.pairs[i]? = some t ∧ p.pairs[j]? = some u ∧ t.oldNumber = some values.1 ∧
    u.newNumber = some values.2 ∧ values.1 ≠ values.2

/-- The first opposite fields with different numbers have the values of the operand; there are none if no
operand changed. -/
def OperandFirst : Prop :=
  (∀ values, p.operand = some values → ∃ i j, p.Opposite i j ∧ p.Differ i j values ∧
    ∀ i' j' other, p.Opposite i' j' → i' < i → ¬p.Differ i' j' other) ∧
  (p.operand = none → ∀ i j other, p.Opposite i j → ¬p.Differ i j other)

/-- A changed field stands nowhere in the other line. -/
def Fresh : Prop := Matcher.Fresh (p.pairs.map fun t => (t.old, t.new))

/-- Every longest common stretch stands at the same place in both lines. -/
def Aligned : Prop := Matcher.Aligned (p.pairs.map fun t => (t.old, t.new))

theorem Fresh.aligned {p : LinePair} (h : p.Fresh) : p.Aligned := Matcher.Fresh.aligned h

/-- A register that is renumbered may stand in the other line, as where `%6 = load i32, ptr %5` becomes
`%5 = load i32, ptr %4`. -/
example : Matcher.Aligned [("%6".toList, "%5".toList), ("=".toList, "=".toList),
    ("load".toList, "load".toList), ("i32,".toList, "i32,".toList), ("ptr".toList, "ptr".toList),
    ("%5".toList, "%4".toList)] := by
  decide +kernel

/-- A line is split into its fields. -/
theorem split_line {side : TokenPair → Text}
    (h : ∀ t ∈ p.pairs, side t ≠ [] ∧ ∀ c ∈ side t, Str.isSpace c = false) :
    Str.split (p.line side) = p.pairs.map side := by
  have hspaces (n : Nat) : ∀ c ∈ List.replicate n ' ', Str.isSpace c = true := by
    intro c hc
    rw [List.eq_of_mem_replicate hc]
    decide
  have hrest (first : TokenPair) (rest : List (Nat × TokenPair))
      (h : ∀ t ∈ first :: rest.map Prod.snd, side t ≠ [] ∧ ∀ c ∈ side t, Str.isSpace c = false) :
      Str.split (side first ++ rest.flatMap fun e => List.replicate (e.1 + 1) ' ' ++ side e.2) =
        (first :: rest.map Prod.snd).map side := by
    induction rest generalizing first with
    | nil =>
      obtain ⟨hne, hspace⟩ := h first List.mem_cons_self
      rw [List.flatMap_nil, List.append_nil, Str.split_eq_singleton hne hspace]
      rfl
    | cons e rest ih =>
      obtain ⟨hne, hspace⟩ := h first List.mem_cons_self
      have htail := ih e.2 fun t ht => h t (List.mem_cons_of_mem first ht)
      rw [List.flatMap_cons, List.replicate_succ, List.cons_append, List.cons_append,
        Str.split_cons_field hne hspace (by decide), List.append_assoc,
        Str.split_spaces_append (hspaces e.1), htail]
      rfl
  rw [line, Str.split_spaces_append (hspaces p.indent)]
  exact hrest p.first p.rest h

theorem split_old : Str.split p.old = p.pairs.map TokenPair.old :=
  p.split_line fun t ht => (TokenPair.isToken (p.wellFormed t ht)).1

theorem split_new : Str.split p.new = p.pairs.map TokenPair.new :=
  p.split_line fun t ht => (TokenPair.isToken (p.wellFormed t ht)).2

/-- The fields are laid against each other in one way, and this decides what is reported. -/
theorem exists_laid : ∃ laid,
    Matcher.Laid (p.pairs.map TokenPair.old) (p.pairs.map TokenPair.new) laid ∧
      changedInt p.old p.new = laid.findSome? differentInts := by
  have hlaid := Matcher.laid_getOpcodes (Str.split p.old) (Str.split p.new)
  refine ⟨_, ?_, changedInt_of_laid hlaid⟩
  rw [split_old, split_new] at hlaid ⊢
  exact hlaid

/-- The fields of one side are those of the pairs. -/
theorem getElem?_side {side : TokenPair → Text} {i : Nat} {x : Text} :
    (p.pairs.map side)[i]? = some x ↔ ∃ t ∈ p.pairs, p.pairs[i]? = some t ∧ side t = x := by
  rw [List.getElem?_map, Option.map_eq_some_iff]
  constructor
  · rintro ⟨t, ht, hside⟩
    exact ⟨t, List.mem_of_getElem? ht, ht, hside⟩
  · rintro ⟨t, _, ht, hside⟩
    exact ⟨t, ht, hside⟩

theorem differ_iff {i j : Nat} {values : Text × Text} : p.Differ i j values ↔
    ∃ x y, (p.pairs.map TokenPair.old)[i]? = some x ∧ (p.pairs.map TokenPair.new)[j]? = some y ∧
      differentInts (x, y) = some values := by
  constructor
  · rintro ⟨t, u, ht, hu, hdiffer⟩
    have htmem := List.mem_of_getElem? ht
    have humem := List.mem_of_getElem? hu
    exact ⟨t.old, u.new, p.getElem?_side.mpr ⟨t, htmem, ht, rfl⟩,
      p.getElem?_side.mpr ⟨u, humem, hu, rfl⟩,
      (TokenPair.differentInts_eq_some_iff (p.wellFormed t htmem) (p.wellFormed u humem)).mpr hdiffer⟩
  · rintro ⟨_, _, hx, hy, hdiffer⟩
    obtain ⟨t, htmem, ht, rfl⟩ := p.getElem?_side.mp hx
    obtain ⟨u, humem, hu, rfl⟩ := p.getElem?_side.mp hy
    exact ⟨t, u, ht, hu,
      (TokenPair.differentInts_eq_some_iff (p.wellFormed t htmem) (p.wellFormed u humem)).mp hdiffer⟩

/-- What is reported stands in the first opposite fields with different numbers. -/
theorem changedInt_eq_some_iff {values : Text × Text} : changedInt p.old p.new = some values ↔
    ∃ i j, p.Opposite i j ∧ p.Differ i j values ∧
      ∀ i' j' other, p.Opposite i' j' → i' < i → ¬p.Differ i' j' other := by
  obtain ⟨laid, hlaid, hchanged⟩ := p.exists_laid
  rw [hchanged, hlaid.findSome?_eq_some_iff]
  constructor
  · rintro ⟨i, j, x, y, hopposite, hx, hy, hvalues, hfirst⟩
    refine ⟨i, j, hopposite, p.differ_iff.mpr ⟨x, y, hx, hy, hvalues⟩, ?_⟩
    intro i' j' other hopposite' hlt hdiffer
    obtain ⟨x', y', hx', hy', hother⟩ := p.differ_iff.mp hdiffer
    rw [hfirst i' j' x' y' hopposite' hlt hx' hy'] at hother
    cases hother
  · rintro ⟨i, j, hopposite, hdiffer, hfirst⟩
    obtain ⟨x, y, hx, hy, hvalues⟩ := p.differ_iff.mp hdiffer
    refine ⟨i, j, x, y, hopposite, hx, hy, hvalues, ?_⟩
    intro i' j' x' y' hopposite' hlt hx' hy'
    rw [Option.eq_none_iff_forall_ne_some]
    intro other hother
    exact hfirst i' j' other hopposite' hlt (p.differ_iff.mpr ⟨x', y', hx', hy', hother⟩)

theorem changedInt_eq_none_iff : changedInt p.old p.new = none ↔
    ∀ i j other, p.Opposite i j → ¬p.Differ i j other := by
  obtain ⟨laid, hlaid, hchanged⟩ := p.exists_laid
  rw [hchanged, hlaid.findSome?_eq_none_iff]
  constructor
  · intro hnone i j other hopposite hdiffer
    obtain ⟨x, y, hx, hy, hother⟩ := p.differ_iff.mp hdiffer
    rw [hnone i j x y hopposite hx hy] at hother
    cases hother
  · intro hnone i j x y hopposite hx hy
    rw [Option.eq_none_iff_forall_ne_some]
    intro other hother
    exact hnone i j other hopposite (p.differ_iff.mpr ⟨x, y, hx, hy, hother⟩)

/-- What the script reports is the operand if and only if the operand is the first change. -/
theorem changedInt_eq_operand_iff : changedInt p.old p.new = p.operand ↔ p.OperandFirst := by
  unfold OperandFirst
  cases p.operand with
  | some values =>
    rw [changedInt_eq_some_iff]
    constructor
    · intro hfirst
      refine ⟨?_, fun hnone => by cases hnone⟩
      rintro _ ⟨⟩
      exact hfirst
    · exact fun hfirst => hfirst.1 values rfl
  | none =>
    rw [changedInt_eq_none_iff]
    exact ⟨fun hquiet => ⟨fun _ hsome => (by cases hsome), fun _ => hquiet⟩, fun hfirst => hfirst.2 rfl⟩

/-- Where the lines are aligned, the first change of a number is reported. -/
theorem changedInt_of_aligned (h : p.Aligned) :
    changedInt p.old p.new = p.pairs.findSome? TokenPair.numbers := by
  have hfst : p.pairs.map TokenPair.old = (p.pairs.map fun t => (t.old, t.new)).map Prod.fst := by
    rw [List.map_map]
    rfl
  have hsnd : p.pairs.map TokenPair.new = (p.pairs.map fun t => (t.old, t.new)).map Prod.snd := by
    rw [List.map_map]
    rfl
  obtain ⟨laid, hlaid, hchanged⟩ := p.exists_laid
  rw [hfst, hsnd] at hlaid
  rw [hchanged, hlaid.eq_filter h]
  exact TokenPair.findSome?_changed p.wellFormed

end LinePair

end LinuxAnalysis
