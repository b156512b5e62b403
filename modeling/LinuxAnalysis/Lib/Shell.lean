import LinuxAnalysis.Lib.Fields

/-!
# Shell scripts: variables, option loops and sourced files

A script under `set -e` that reads its options in a loop of `case` and sources a file of
assignments.
-/

namespace LinuxAnalysis.Lib

/-- The values of the variables; one that is not set is empty. -/
abbrev ShellVars := List Char → List Char

namespace ShellVars

def assign (name value : List Char) (vars : ShellVars) : ShellVars :=
  fun x => if x = name then value else vars x

@[simp] theorem assign_self {name value : List Char} {vars : ShellVars} :
    vars.assign name value name = value := if_pos rfl

theorem assign_of_ne {name value x : List Char} {vars : ShellVars} (h : x ≠ name) :
    vars.assign name value x = vars x := if_neg h

theorem assign_comm {n₁ n₂ v₁ v₂ : List Char} {vars : ShellVars} (h : n₁ ≠ n₂) :
    (vars.assign n₁ v₁).assign n₂ v₂ = (vars.assign n₂ v₂).assign n₁ v₁ := by
  funext x
  unfold assign
  by_cases h₁ : x = n₁
  · rw [if_pos h₁, if_neg (h₁ ▸ h), if_pos h₁]
  · rw [if_neg h₁, if_neg h₁]

theorem assign_eq_self {name value : List Char} {vars : ShellVars} (h : vars name = value) :
    vars.assign name value = vars := by
  funext x
  unfold assign
  split
  next hx => rw [hx, h]
  next => rfl

end ShellVars

/-! ## Option loops -/

/-- A branch of the `case`: `…; shift ;;`, or one that takes the next word as well and ends in
`shift 2 ;;`. -/
inductive OptionBranch (σ : Type) where
  | flag (set : σ → σ)
  | value (set : List Char → σ → σ)

section Loop

variable {σ ω : Type} (branch : List Char → Option (OptionBranch σ))

/-- `while [[ $# -gt 0 ]]; do case "$1" in …`: the state and the words left, or the exit status. -/
def optionLoop : List (List Char) → σ → Except Nat (σ × List (List Char))
  | [], s => .ok (s, [])
  | w :: ws, s =>
    match branch w with
    | some (.flag set) => optionLoop ws (set s)
    | some (.value set) =>
      match ws with
      -- there is no second word to shift
      | [] => .error 1
      | v :: ws => optionLoop ws (set v s)
    | none =>
      if w = "--".toList then .ok (s, ws)
      else if Str.startswith w "--".toList then .error 2
      else .ok (s, w :: ws)

variable {branch}

/-- The words are an option, with this effect on the state. -/
inductive IsOption (branch : List Char → Option (OptionBranch σ)) :
    List (List Char) → (σ → σ) → Prop where
  | flag {w : List Char} {set : σ → σ} : branch w = some (.flag set) → IsOption branch [w] set
  | value {w v : List Char} {set : List Char → σ → σ} : branch w = some (.value set) →
      IsOption branch [w, v] (set v)

theorem optionLoop_isOption {ws rest : List (List Char)} {set : σ → σ} (h : IsOption branch ws set)
    (s : σ) : optionLoop branch (ws ++ rest) s = optionLoop branch rest (set s) := by
  cases h with
  | flag h => simp only [List.singleton_append, optionLoop, h]
  | value h => simp only [List.cons_append, List.nil_append, optionLoop, h]

/-- A sequence of options is read from left to right. -/
theorem optionLoop_options {spell : ω → List (List Char)} {apply : ω → σ → σ} {os : List ω}
    (h : ∀ o ∈ os, IsOption branch (spell o) (apply o)) {rest : List (List Char)} (s : σ) :
    optionLoop branch (os.flatMap spell ++ rest) s =
      optionLoop branch rest (os.foldl (fun s o => apply o s) s) := by
  induction os generalizing s with
  | nil => rfl
  | cons o os ih =>
    obtain ⟨ho, hos⟩ := List.forall_mem_cons.mp h
    rw [List.flatMap_cons, List.append_assoc, optionLoop_isOption ho, ih hos, List.foldl_cons]

/-- The words are options, and perhaps a `--` behind them, that lead from one state to another. -/
def Accepts (spell : ω → List (List Char)) (apply : ω → σ → σ) (ws : List (List Char)) (s t : σ)
    (rest : List (List Char)) : Prop :=
  ∃ (os : List ω) (tail : List (List Char)), ws = os.flatMap spell ++ tail ∧
    t = os.foldl (fun s o => apply o s) s ∧ (tail = rest ∨ tail = "--".toList :: rest)

theorem Accepts.option {spell : ω → List (List Char)} {apply : ω → σ → σ} {o : ω} {s t : σ}
    {ws rest : List (List Char)} (h : Accepts spell apply ws (apply o s) t rest) :
    Accepts spell apply (spell o ++ ws) s t rest := by
  obtain ⟨os, tail, rfl, rfl, htail⟩ := h
  refine ⟨o :: os, tail, ?_, rfl, htail⟩
  rw [List.flatMap_cons, List.append_assoc]

/-- Only such words are accepted. -/
theorem accepts_of_optionLoop {spell : ω → List (List Char)} {apply : ω → σ → σ}
    (hall : ∀ ws set, IsOption branch ws set → ∃ o, spell o = ws ∧ apply o = set)
    {ws rest : List (List Char)} {s t : σ} (h : optionLoop branch ws s = .ok (t, rest)) :
    Accepts spell apply ws s t rest := by
  fun_induction optionLoop branch ws s with
  | case1 s =>
    cases h
    exact ⟨[], [], rfl, rfl, .inl rfl⟩
  | case2 w s ws set hbranch ih =>
    obtain ⟨o, hspell, rfl⟩ := hall _ _ (.flag hbranch)
    have haccepts := (ih h).option
    rwa [hspell] at haccepts
  | case3 w s set hbranch => cases h
  | case4 w s set hbranch v ws ih =>
    obtain ⟨o, hspell, happly⟩ := hall [w, v] (set v) (.value hbranch)
    rw [← happly] at ih h
    have haccepts := (ih h).option
    rwa [hspell] at haccepts
  | case5 s ws hbranch =>
    cases h
    exact ⟨[], _, rfl, rfl, .inr rfl⟩
  | case6 w s ws hbranch hend hstart => cases h
  | case7 w s ws hbranch hend hstart =>
    cases h
    exact ⟨[], _, rfl, rfl, .inl rfl⟩

end Loop

/-! ## Sourcing a file of assignments -/

/-- A character that stands for itself in a word. -/
def plainChar (c : Char) : Bool :=
  c.isAlphanum || "_-+./,:@%".toList.contains c || (128 ≤ c.toNat && !Str.isSpace c)

/-- What a plain word stands for, in double quotes or not; `none` for every other word. -/
def wordValue : List Char → Option (List Char)
  | [] => some []
  | c :: cs =>
    if c = Char.ofNat 34 then
      match Str.splitOnce (Char.ofNat 34) cs with
      | some (word, []) => if word.all plainChar then some word else none
      | _ => none
    else if (c :: cs).all plainChar then some (c :: cs) else none

/-- A name that a variable can have. -/
def isVariableName : List Char → Bool
  | [] => false
  | c :: cs => (c.isAlpha || c == '_') && cs.all fun d => d.isAlphanum || d == '_'

/-- The variables that bash does not let a script assign. -/
def readonlyNames : List (List Char) :=
  ["BASHOPTS".toList, "BASH_VERSINFO".toList, "EUID".toList, "PPID".toList, "SHELLOPTS".toList,
    "UID".toList]

/-- A name that a script can assign. -/
def isAssignable (name : List Char) : Bool := isVariableName name && !readonlyNames.contains name

/-- An empty line, a comment, or an assignment of a plain word; `none` for every other line. -/
def sourceLine (vars : ShellVars) (line : List Char) : Option ShellVars :=
  if line.isEmpty || Str.startswith line ['#'] then some vars
  else
    match Str.splitOnce '=' line with
    | some (name, word) =>
      if isAssignable name then (wordValue word).map fun value => vars.assign name value else none
    | none => none

/-- `source` on a file with the given text; `none` when there is more in it than assignments of
plain words. -/
def sourceText (text : List Char) (vars : ShellVars) : Option ShellVars :=
  (text.splitOn '\n').foldlM sourceLine vars

theorem not_mem_plain {s : List Char} {c : Char} (hs : s.all plainChar = true)
    (hc : plainChar c = false) : c ∉ s := by
  intro hmem
  rw [List.all_eq_true.mp hs c hmem] at hc
  cases hc

theorem wordValue_plain {s : List Char} (h : s.all plainChar = true) : wordValue s = some s := by
  cases s with
  | nil => rfl
  | cons c cs =>
    have hc : c ≠ Char.ofNat 34 := by
      rintro rfl
      exact not_mem_plain h (by decide) List.mem_cons_self
    rw [wordValue, if_neg hc, if_pos h]

theorem wordValue_quoted {s : List Char} (h : s.all plainChar = true) :
    wordValue (Char.ofNat 34 :: (s ++ [Char.ofNat 34])) = some s := by
  rw [wordValue, if_pos rfl, Str.splitOnce_append (not_mem_plain h (by decide))]
  dsimp only
  rw [if_pos h]

/-- There are no other words. -/
theorem eq_of_wordValue {word value : List Char} (h : wordValue word = some value) :
    value.all plainChar = true ∧
      (word = value ∨ word = Char.ofNat 34 :: (value ++ [Char.ofNat 34])) := by
  cases word with
  | nil =>
    cases h
    exact ⟨rfl, .inl rfl⟩
  | cons c cs =>
    rw [wordValue] at h
    split at h
    next hquote =>
      split at h
      next inner hsplit =>
        split at h
        next hplain =>
          cases h
          rw [hquote, Str.eq_of_splitOnce hsplit]
          exact ⟨hplain, .inr rfl⟩
        next => cases h
      next => cases h
    next =>
      split at h
      next hplain =>
        cases h
        exact ⟨hplain, .inl rfl⟩
      next => cases h

theorem not_mem_of_wordValue {word value : List Char} (h : wordValue word = some value) {c : Char}
    (hc : plainChar c = false) (hquote : c ≠ Char.ofNat 34) : c ∉ word := by
  obtain ⟨hplain, rfl | rfl⟩ := eq_of_wordValue h
  · exact not_mem_plain hplain hc
  · simp only [List.mem_cons, List.mem_append, List.not_mem_nil, or_false, not_or]
    exact ⟨hquote, not_mem_plain hplain hc, hquote⟩

theorem isVariableName_chars {name : List Char} (h : isVariableName name = true) :
    ∀ c ∈ name, (c.isAlphanum || c == '_') = true := by
  cases name with
  | nil => cases h
  | cons c cs =>
    rw [isVariableName, Bool.and_eq_true] at h
    intro d hd
    rcases List.mem_cons.mp hd with rfl | hd
    · obtain halpha | hunder := Bool.or_eq_true_iff.mp h.1
      · rw [Char.isAlphanum, halpha, Bool.true_or, Bool.true_or]
      · rw [hunder, Bool.or_true]
    · exact List.all_eq_true.mp h.2 d hd

theorem plainChar_of_nameChar {c : Char} (h : (c.isAlphanum || c == '_') = true) :
    plainChar c = true := by
  obtain halnum | hunder := Bool.or_eq_true_iff.mp h
  · rw [plainChar, halnum]
    rfl
  · rw [eq_of_beq hunder]
    decide

theorem isVariableName_of_isAssignable {name : List Char} (h : isAssignable name = true) :
    isVariableName name = true :=
  ((Bool.and_eq_true _ _).mp h).1

theorem sourceLine_assignment {name word value : List Char} (hname : isAssignable name = true)
    (hword : wordValue word = some value) (vars : ShellVars) :
    sourceLine vars (name ++ '=' :: word) = some (vars.assign name value) := by
  cases name with
  | nil => cases hname
  | cons c cs =>
    have hchars := isVariableName_chars (isVariableName_of_isAssignable hname)
    have hequals : '=' ∉ c :: cs := fun hmem => absurd (hchars _ hmem) (by decide)
    have hcomment : ('#' == c && true) = false := by
      rw [Bool.and_true]
      apply beq_false_of_ne
      rintro rfl
      exact absurd (hchars '#' List.mem_cons_self) (by decide)
    have hstart : Str.startswith (c :: cs ++ '=' :: word) ['#'] = false := hcomment
    have hskip : ((c :: cs ++ '=' :: word).isEmpty ||
        Str.startswith (c :: cs ++ '=' :: word) ['#']) = false := by
      rw [hstart]
      rfl
    rw [sourceLine, hskip, Str.splitOnce_append hequals, if_neg Bool.false_ne_true]
    dsimp only
    rw [if_pos hname, hword]
    rfl

/-- An assignment and the pairs that can be written as one. -/
def assignmentLine (a : List Char × List Char) : List Char := a.1 ++ '=' :: a.2

def CanAssign (a : List Char × List Char) : Prop :=
  isAssignable a.1 = true ∧ (wordValue a.2).isSome = true

theorem CanAssign.not_mem_line {a : List Char × List Char} (h : CanAssign a) {c : Char}
    (hc : plainChar c = false) (hsigns : c ≠ Char.ofNat 34 ∧ c ≠ '=') : c ∉ assignmentLine a := by
  obtain ⟨value, hvalue⟩ := Option.isSome_iff_exists.mp h.2
  have hname : c ∉ a.1 := by
    intro hmem
    have hall := isVariableName_chars (isVariableName_of_isAssignable h.1) c hmem
    rw [plainChar_of_nameChar hall] at hc
    cases hc
  rw [assignmentLine, List.mem_append, List.mem_cons, not_or, not_or]
  exact ⟨hname, hsigns.2, not_mem_of_wordValue hvalue hc hsigns.1⟩

/-- A file of such lines is sourced from its first to its last line. -/
theorem isSome_sourceText {assignments : List (List Char × List Char)}
    (h : ∀ a ∈ assignments, CanAssign a) (vars : ShellVars) :
    (sourceText (Str.unlines (assignments.map assignmentLine)) vars).isSome = true := by
  have hlines : ∀ line ∈ assignments.map assignmentLine, '\n' ∉ line := by
    intro line hline
    obtain ⟨a, ha, rfl⟩ := List.mem_map.mp hline
    exact (h a ha).not_mem_line (by decide) (by decide)
  rw [sourceText, Str.splitOn_unlines hlines]
  clear hlines
  induction assignments generalizing vars with
  | nil => rfl
  | cons a assignments ih =>
    obtain ⟨⟨hname, hword⟩, hrest⟩ := List.forall_mem_cons.mp h
    obtain ⟨value, hvalue⟩ := Option.isSome_iff_exists.mp hword
    rw [List.map_cons, List.cons_append, List.foldlM_cons, assignmentLine,
      sourceLine_assignment hname hvalue]
    exact ih hrest _

theorem return_not_mem_assignments {assignments : List (List Char × List Char)}
    (h : ∀ a ∈ assignments, CanAssign a) :
    '\r' ∉ Str.unlines (assignments.map assignmentLine) := by
  refine Str.return_not_mem_unlines fun line hline => ?_
  obtain ⟨a, ha, rfl⟩ := List.mem_map.mp hline
  exact (h a ha).not_mem_line (by decide) (by decide)

end LinuxAnalysis.Lib
