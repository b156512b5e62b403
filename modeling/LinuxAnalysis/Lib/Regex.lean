import LinuxAnalysis.Lib.Text

/-!
# Regular expressions with priorities

A backtracking matcher in the manner of Python's `re`: alternatives in order, greedy and lazy
repetition, numbered groups.  The matcher passes each success to a continuation and tries the next
one when that fails.  `Matches` says what a success is without the order in which they are tried, and
`exec_sound` and `exec_complete` connect the two.
-/

namespace LinuxAnalysis.Lib

inductive Regex where
  | eps
  | chr (p : Char → Bool)
  | seq (r s : Regex)
  | alt (r s : Regex)
  | star (greedy : Bool) (p : Char → Bool)
  | group (n : Nat) (r : Regex)
  /-- `^` under `re.MULTILINE` -/
  | lineStart
  /-- `^` -/
  | textStart
  /-- `$` -/
  | textEnd

namespace Regex

/-- A position in the subject, the text before it reversed, with the groups captured so far. -/
structure Cursor where
  before : List Char
  rest : List Char
  groups : List (Nat × List Char)
  deriving DecidableEq

namespace Cursor

/-- `n` is captured from `start` to the cursor. -/
def capture (c : Cursor) (n : Nat) (start : Cursor) : Cursor :=
  { c with groups := (n, start.rest.take (start.rest.length - c.rest.length)) :: c.groups }

def atLineStart (c : Cursor) : Bool :=
  match c.before with
  | [] => true
  | a :: _ => a == '\n'

def atTextEnd (c : Cursor) : Bool := c.rest.isEmpty || c.rest == ['\n']

end Cursor

section Matcher

variable {β : Type}

def starGreedy (p : Char → Bool) (k : Cursor → Option β) (groups : List (Nat × List Char)) :
    List Char → List Char → Option β
  | before, [] => k ⟨before, [], groups⟩
  | before, a :: as =>
    if p a then (starGreedy p k groups (a :: before) as).or (k ⟨before, a :: as, groups⟩)
    else k ⟨before, a :: as, groups⟩

def starLazy (p : Char → Bool) (k : Cursor → Option β) (groups : List (Nat × List Char)) :
    List Char → List Char → Option β
  | before, [] => k ⟨before, [], groups⟩
  | before, a :: as =>
    (k ⟨before, a :: as, groups⟩).or
      (if p a then starLazy p k groups (a :: before) as else none)

/-- The first success of `r` at the cursor that `k` accepts. -/
def exec : Regex → (Cursor → Option β) → Cursor → Option β
  | eps, k, c => k c
  | chr p, k, c =>
    match c.rest with
    | [] => none
    | a :: as => if p a then k ⟨a :: c.before, as, c.groups⟩ else none
  | seq r s, k, c => exec r (exec s k) c
  | alt r s, k, c => (exec r k c).or (exec s k c)
  | star true p, k, c => starGreedy p k c.groups c.before c.rest
  | star false p, k, c => starLazy p k c.groups c.before c.rest
  | group n r, k, c => exec r (fun d => k (d.capture n c)) c
  | lineStart, k, c => if c.atLineStart then k c else none
  | textStart, k, c => if c.before.isEmpty then k c else none
  | textEnd, k, c => if c.atTextEnd then k c else none

end Matcher

/-! ## Building blocks -/

/-- The text itself. -/
def lit : List Char → Regex
  | [] => eps
  | a :: as => seq (chr (· == a)) (lit as)

def plus (greedy : Bool) (p : Char → Bool) : Regex := seq (chr p) (star greedy p)

def opt (r : Regex) : Regex := alt r eps

/-- One after the other. -/
def cat : List Regex → Regex
  | [] => eps
  | r :: rs => seq r (cat rs)

/-- `\s` -/
def space (c : Char) : Bool := Str.isSpace c

/-- `\S` -/
def nonSpace (c : Char) : Bool := !Str.isSpace c

/-- `.` -/
def dot (c : Char) : Bool := c != '\n'

/-- `\d` -/
def digit [Unicode] (c : Char) : Bool := (Unicode.digitValue c).isSome

/-- `\w` -/
def word [Unicode] (c : Char) : Bool := Unicode.isAlnum c || c == '_'

/-! ## Matching a subject -/

structure Match where
  start : Cursor
  stop : Cursor

namespace Match

/-- `m.group(n)` for `n ≥ 1` -/
def group (m : Match) (n : Nat) : Option (List Char) := m.stop.groups.lookup n

/-- `m.group(0)` -/
def text (m : Match) : List Char := m.start.rest.take (m.start.rest.length - m.stop.rest.length)

end Match

/-- `re.match(r, s)` -/
def matchStart (r : Regex) (s : List Char) : Option Match :=
  (exec r some ⟨[], s, []⟩).map (Match.mk ⟨[], s, []⟩)

/-- The leftmost match at or after the cursor. -/
def searchFrom (r : Regex) : List Char → List Char → Option Match
  | before, [] => (exec r some ⟨before, [], []⟩).map (Match.mk ⟨before, [], []⟩)
  | before, a :: as =>
    ((exec r some ⟨before, a :: as, []⟩).map (Match.mk ⟨before, a :: as, []⟩)).or
      (searchFrom r (a :: before) as)

/-- `re.search(r, s)` -/
def search (r : Regex) (s : List Char) : Option Match := searchFrom r [] s

def finditerFrom (r : Regex) : Nat → List Char → List Char → List Match
  | 0, _, _ => []
  | n + 1, before, rest =>
    match searchFrom r before rest with
    | none => []
    | some m =>
      m :: if m.stop.rest.length < m.start.rest.length then
          finditerFrom r n m.stop.before m.stop.rest
        else
          match m.start.rest with
          | [] => []
          | a :: as => finditerFrom r n (a :: m.start.before) as

/-- `re.finditer(r, s)`: a match ends before the next one starts. -/
def finditer (r : Regex) (s : List Char) : List Match := finditerFrom r (s.length + 1) [] s

def subFrom (r : Regex) (repl : List Char) : Nat → List Char → List Char → List Char
  | 0, _, rest => rest
  | n + 1, before, rest =>
    match searchFrom r before rest with
    | none => rest
    | some m =>
      rest.take (rest.length - m.start.rest.length) ++ repl ++
        if m.stop.rest.length < m.start.rest.length then subFrom r repl n m.stop.before m.stop.rest
        else
          match m.start.rest with
          | [] => []
          | a :: as => a :: subFrom r repl n (a :: m.start.before) as

/-- `re.sub(r, repl, s)` -/
def sub (r : Regex) (repl s : List Char) : List Char := subFrom r repl (s.length + 1) [] s

/-! ## What a success is -/

def Matches : Regex → Cursor → Cursor → Prop
  | eps, c, d => d = c
  | chr p, c, d => ∃ a as, c.rest = a :: as ∧ p a = true ∧ d = ⟨a :: c.before, as, c.groups⟩
  | seq r s, c, d => ∃ e, Matches r c e ∧ Matches s e d
  | alt r s, c, d => Matches r c d ∨ Matches s c d
  | star _ p, c, d => ∃ xs ys, c.rest = xs ++ ys ∧ (∀ a ∈ xs, p a = true) ∧
      d = ⟨xs.reverse ++ c.before, ys, c.groups⟩
  | group n r, c, d => ∃ e, Matches r c e ∧ d = e.capture n c
  | lineStart, c, d => c.atLineStart = true ∧ d = c
  | textStart, c, d => c.before = [] ∧ d = c
  | textEnd, c, d => c.atTextEnd = true ∧ d = c

section Rules

/-- The cursor after reading `xs`. -/
def Cursor.advance (c : Cursor) (xs rest : List Char) : Cursor :=
  ⟨xs.reverse ++ c.before, rest, c.groups⟩

theorem Cursor.capture_eq {c e : Cursor} {xs : List Char} (h : c.rest = xs ++ e.rest) (n : Nat) :
    e.capture n c = { e with groups := (n, xs) :: e.groups } := by
  rw [Cursor.capture, h, List.length_append, Nat.add_sub_cancel, List.take_left]

theorem matches_lit {s : List Char} {c d : Cursor} :
    Matches (lit s) c d ↔ ∃ rest, c.rest = s ++ rest ∧ d = c.advance s rest := by
  induction s generalizing c with
  | nil =>
    constructor
    · rintro rfl
      exact ⟨d.rest, rfl, rfl⟩
    · rintro ⟨rest, hrest, rfl⟩
      rw [List.nil_append] at hrest
      subst hrest
      rfl
  | cons a s ih =>
    constructor
    · rintro ⟨e, ⟨b, bs, hrest, hb, rfl⟩, hs⟩
      obtain ⟨rest, rfl, rfl⟩ := ih.mp hs
      refine ⟨rest, ?_, ?_⟩
      · rw [hrest, eq_of_beq hb, List.cons_append]
      · rw [eq_of_beq hb, Cursor.advance, Cursor.advance, List.reverse_cons, List.append_assoc,
          List.singleton_append]
    · rintro ⟨rest, hrest, rfl⟩
      refine ⟨⟨a :: c.before, s ++ rest, c.groups⟩, ⟨a, s ++ rest, hrest, beq_self_eq_true a, rfl⟩,
        ih.mpr ⟨rest, rfl, ?_⟩⟩
      rw [Cursor.advance, Cursor.advance, List.reverse_cons, List.append_assoc, List.singleton_append]

theorem matches_star {greedy : Bool} {p : Char → Bool} {c d : Cursor} :
    Matches (star greedy p) c d ↔
      ∃ xs rest, c.rest = xs ++ rest ∧ (∀ a ∈ xs, p a = true) ∧ d = c.advance xs rest :=
  Iff.rfl

theorem matches_plus {greedy : Bool} {p : Char → Bool} {c d : Cursor} :
    Matches (plus greedy p) c d ↔ ∃ xs rest, xs ≠ [] ∧ c.rest = xs ++ rest ∧
      (∀ a ∈ xs, p a = true) ∧ d = c.advance xs rest := by
  constructor
  · rintro ⟨e, ⟨a, as, hrest, ha, rfl⟩, xs, rest, rfl, hxs, rfl⟩
    refine ⟨a :: xs, rest, List.cons_ne_nil _ _, hrest, ?_, ?_⟩
    · exact List.forall_mem_cons.mpr ⟨ha, hxs⟩
    · rw [Cursor.advance, List.reverse_cons, List.append_assoc, List.singleton_append]
  · rintro ⟨xs, rest, hne, hrest, hxs, rfl⟩
    cases xs with
    | nil => exact absurd rfl hne
    | cons a xs =>
      obtain ⟨ha, hxs⟩ := List.forall_mem_cons.mp hxs
      refine ⟨⟨a :: c.before, xs ++ rest, c.groups⟩, ⟨a, xs ++ rest, hrest, ha, rfl⟩, xs, rest, rfl,
        hxs, ?_⟩
      rw [Cursor.advance, List.reverse_cons, List.append_assoc, List.singleton_append]

/-- A group around one or more characters captures them. -/
theorem matches_group_plus {greedy : Bool} {p : Char → Bool} {n : Nat} {c d : Cursor} :
    Matches (group n (plus greedy p)) c d ↔ ∃ xs rest, xs ≠ [] ∧ c.rest = xs ++ rest ∧
      (∀ a ∈ xs, p a = true) ∧
      d = ⟨xs.reverse ++ c.before, rest, (n, xs) :: c.groups⟩ := by
  constructor
  · rintro ⟨e, he, rfl⟩
    obtain ⟨xs, rest, hne, hrest, hxs, rfl⟩ := matches_plus.mp he
    refine ⟨xs, rest, hne, hrest, hxs, ?_⟩
    rw [Cursor.capture_eq (show c.rest = xs ++ (c.advance xs rest).rest from hrest)]
    rfl
  · rintro ⟨xs, rest, hne, hrest, hxs, rfl⟩
    refine ⟨c.advance xs rest, matches_plus.mpr ⟨xs, rest, hne, hrest, hxs, rfl⟩, ?_⟩
    rw [Cursor.capture_eq (show c.rest = xs ++ (c.advance xs rest).rest from hrest)]
    rfl

/-- The numbers of the groups in a pattern. -/
def groupNumbers : Regex → List Nat
  | seq r s | alt r s => groupNumbers r ++ groupNumbers s
  | group n r => n :: groupNumbers r
  | _ => []

/-- A success leaves the groups that its pattern does not have. -/
theorem lookup_of_matches {r : Regex} {c d : Cursor} {n : Nat} (h : Matches r c d)
    (hn : n ∉ groupNumbers r) : d.groups.lookup n = c.groups.lookup n := by
  induction r generalizing c d with
  | eps => rw [show d = c from h]
  | chr p =>
    obtain ⟨_, _, _, _, rfl⟩ := h
    rfl
  | seq r s ihr ihs =>
    obtain ⟨hr, hs⟩ := not_or.mp (fun hmem => hn (List.mem_append.mpr hmem))
    obtain ⟨e, he, hd⟩ := h
    rw [ihs hd hs, ihr he hr]
  | alt r s ihr ihs =>
    obtain ⟨hr, hs⟩ := not_or.mp (fun hmem => hn (List.mem_append.mpr hmem))
    rcases h with h | h
    · exact ihr h hr
    · exact ihs h hs
  | star greedy p =>
    obtain ⟨_, _, _, _, rfl⟩ := h
    rfl
  | group m r ih =>
    obtain ⟨hm, hr⟩ := List.ne_and_not_mem_of_not_mem_cons hn
    obtain ⟨e, he, rfl⟩ := h
    rw [← ih he hr]
    show List.lookup n ((m, _) :: e.groups) = _
    rw [List.lookup_cons, beq_false_of_ne hm]
  | lineStart => rw [h.2]
  | textStart => rw [h.2]
  | textEnd => rw [h.2]

/-- A success reads on from the cursor. -/
theorem suffix_of_matches {r : Regex} {c d : Cursor} (h : Matches r c d) : d.rest <:+ c.rest := by
  induction r generalizing c d with
  | eps => rw [show d = c from h]
  | chr p =>
    obtain ⟨a, as, hrest, _, rfl⟩ := h
    rw [hrest]
    exact List.suffix_cons a as
  | seq r s ihr ihs =>
    obtain ⟨e, he, hd⟩ := h
    exact (ihs hd).trans (ihr he)
  | alt r s ihr ihs =>
    rcases h with h | h
    · exact ihr h
    · exact ihs h
  | star greedy p =>
    obtain ⟨xs, ys, hrest, _, rfl⟩ := h
    rw [hrest]
    exact List.suffix_append xs ys
  | group n r ih =>
    obtain ⟨e, he, rfl⟩ := h
    have hsuffix := ih he
    exact hsuffix
  | lineStart => rw [h.2]
  | textStart => rw [h.2]
  | textEnd => rw [h.2]

end Rules

section Laws

variable {β : Type} {k : Cursor → Option β}

theorem starGreedy_sound {p : Char → Bool} {groups : List (Nat × List Char)}
    {before rest : List Char} {b : β} (h : starGreedy p k groups before rest = some b) :
    ∃ xs ys, rest = xs ++ ys ∧ (∀ a ∈ xs, p a = true) ∧
      k ⟨xs.reverse ++ before, ys, groups⟩ = some b := by
  induction rest generalizing before with
  | nil => exact ⟨[], [], rfl, by simp, h⟩
  | cons a as ih =>
    have hstop (h : k ⟨before, a :: as, groups⟩ = some b) : ∃ xs ys, a :: as = xs ++ ys ∧
        (∀ a ∈ xs, p a = true) ∧ k ⟨xs.reverse ++ before, ys, groups⟩ = some b :=
      ⟨[], a :: as, rfl, by simp, h⟩
    rw [starGreedy] at h
    split at h
    next hp =>
      rcases Option.or_eq_some_iff.mp h with h | ⟨_, h⟩
      · obtain ⟨xs, ys, rfl, hxs, hk⟩ := ih h
        refine ⟨a :: xs, ys, rfl, ?_, ?_⟩
        · intro c hc
          rcases List.mem_cons.mp hc with rfl | hc
          · exact hp
          · exact hxs c hc
        · rwa [List.reverse_cons, List.append_assoc]
      · exact hstop h
    next => exact hstop h

theorem starLazy_sound {p : Char → Bool} {groups : List (Nat × List Char)}
    {before rest : List Char} {b : β} (h : starLazy p k groups before rest = some b) :
    ∃ xs ys, rest = xs ++ ys ∧ (∀ a ∈ xs, p a = true) ∧
      k ⟨xs.reverse ++ before, ys, groups⟩ = some b := by
  induction rest generalizing before with
  | nil => exact ⟨[], [], rfl, by simp, h⟩
  | cons a as ih =>
    rw [starLazy] at h
    rcases Option.or_eq_some_iff.mp h with h | ⟨_, h⟩
    · exact ⟨[], a :: as, rfl, by simp, h⟩
    · split at h
      next hp =>
        obtain ⟨xs, ys, rfl, hxs, hk⟩ := ih h
        refine ⟨a :: xs, ys, rfl, ?_, ?_⟩
        · intro c hc
          rcases List.mem_cons.mp hc with rfl | hc
          · exact hp
          · exact hxs c hc
        · rwa [List.reverse_cons, List.append_assoc]
      next => cases h

/-- A result of the matcher comes from a success that the continuation accepts. -/
theorem exec_sound {r : Regex} {c : Cursor} {b : β} (h : exec r k c = some b) :
    ∃ d, Matches r c d ∧ k d = some b := by
  induction r generalizing k c with
  | eps => exact ⟨c, rfl, h⟩
  | chr p =>
    rw [exec] at h
    split at h
    · cases h
    · rename_i a as hrest
      split at h
      next hp => exact ⟨_, ⟨a, as, hrest, hp, rfl⟩, h⟩
      next => cases h
  | seq r s ihr ihs =>
    obtain ⟨e, he, h⟩ := ihr h
    obtain ⟨d, hd, h⟩ := ihs h
    exact ⟨d, ⟨e, he, hd⟩, h⟩
  -- the second branch runs only when the first one fails, which soundness does not need
  | alt r s ihr ihs =>
    rcases Option.or_eq_some_iff.mp h with h | ⟨_, h⟩
    · obtain ⟨d, hd, h⟩ := ihr h
      exact ⟨d, .inl hd, h⟩
    · obtain ⟨d, hd, h⟩ := ihs h
      exact ⟨d, .inr hd, h⟩
  | star greedy p =>
    cases greedy with
    | true =>
      obtain ⟨xs, ys, hrest, hxs, h⟩ := starGreedy_sound h
      exact ⟨_, ⟨xs, ys, hrest, hxs, rfl⟩, h⟩
    | false =>
      obtain ⟨xs, ys, hrest, hxs, h⟩ := starLazy_sound h
      exact ⟨_, ⟨xs, ys, hrest, hxs, rfl⟩, h⟩
  | group n r ih =>
    obtain ⟨e, he, h⟩ := ih h
    exact ⟨_, ⟨e, he, rfl⟩, h⟩
  -- the anchors consume nothing
  | lineStart =>
    rw [exec] at h
    split at h
    next hc => exact ⟨c, ⟨hc, rfl⟩, h⟩
    next => cases h
  | textStart =>
    rw [exec] at h
    split at h
    next hc => exact ⟨c, ⟨List.isEmpty_iff.mp hc, rfl⟩, h⟩
    next => cases h
  | textEnd =>
    rw [exec] at h
    split at h
    next hc => exact ⟨c, ⟨hc, rfl⟩, h⟩
    next => cases h

/-- No success, no result. -/
theorem exec_eq_none {r : Regex} {c : Cursor} (h : ∀ d, Matches r c d → k d = none) :
    exec r k c = none := by
  rw [Option.eq_none_iff_forall_ne_some]
  intro b hb
  obtain ⟨d, hd, hk⟩ := exec_sound hb
  rw [h d hd] at hk
  cases hk

theorem isSome_starGreedy {p : Char → Bool} {groups : List (Nat × List Char)}
    {before xs rest : List Char} (hxs : ∀ a ∈ xs, p a = true)
    (hk : (k ⟨xs.reverse ++ before, rest, groups⟩).isSome = true) :
    (starGreedy p k groups before (xs ++ rest)).isSome = true := by
  induction xs generalizing before with
  | nil =>
    cases rest with
    | nil => exact hk
    | cons a as =>
      rw [List.nil_append, starGreedy]
      split
      · rw [Option.isSome_or]
        exact Bool.or_eq_true_iff.mpr (.inr hk)
      · exact hk
  | cons a xs ih =>
    obtain ⟨ha, hxs⟩ := List.forall_mem_cons.mp hxs
    rw [List.cons_append, starGreedy, if_pos ha, Option.isSome_or]
    refine Bool.or_eq_true_iff.mpr (.inl (ih hxs ?_))
    rwa [List.reverse_cons, List.append_assoc] at hk

theorem isSome_starLazy {p : Char → Bool} {groups : List (Nat × List Char)}
    {before xs rest : List Char} (hxs : ∀ a ∈ xs, p a = true)
    (hk : (k ⟨xs.reverse ++ before, rest, groups⟩).isSome = true) :
    (starLazy p k groups before (xs ++ rest)).isSome = true := by
  induction xs generalizing before with
  | nil =>
    cases rest with
    | nil => exact hk
    | cons a as =>
      rw [List.nil_append, starLazy, Option.isSome_or]
      exact Bool.or_eq_true_iff.mpr (.inl hk)
  | cons a xs ih =>
    obtain ⟨ha, hxs⟩ := List.forall_mem_cons.mp hxs
    rw [List.cons_append, starLazy, if_pos ha, Option.isSome_or]
    refine Bool.or_eq_true_iff.mpr (.inr (ih hxs ?_))
    rwa [List.reverse_cons, List.append_assoc] at hk

/-- If some success is accepted, there is a result. -/
theorem exec_complete {r : Regex} {c d : Cursor} (h : Matches r c d) (hk : (k d).isSome = true) :
    (exec r k c).isSome = true := by
  induction r generalizing k c d with
  | eps =>
    obtain rfl : d = c := h
    exact hk
  | chr p =>
    obtain ⟨a, as, hrest, ha, rfl⟩ := h
    rw [exec, hrest]
    dsimp only
    rwa [if_pos ha]
  -- the second part succeeds after the first, so it is a continuation of the first that succeeds
  | seq r s ihr ihs =>
    obtain ⟨e, he, hd⟩ := h
    exact ihr he (ihs hd hk)
  | alt r s ihr ihs =>
    rw [exec, Option.isSome_or]
    rcases h with h | h
    · exact Bool.or_eq_true_iff.mpr (.inl (ihr h hk))
    · exact Bool.or_eq_true_iff.mpr (.inr (ihs h hk))
  | star greedy p =>
    obtain ⟨xs, rest, hrest, hxs, rfl⟩ := h
    cases greedy with
    | true =>
      rw [exec, hrest]
      exact isSome_starGreedy hxs hk
    | false =>
      rw [exec, hrest]
      exact isSome_starLazy hxs hk
  -- a group runs with a continuation that records the capture
  | group n r ih =>
    obtain ⟨e, he, rfl⟩ := h
    exact ih (k := fun d => k (d.capture n c)) he hk
  | lineStart =>
    obtain ⟨hc, rfl⟩ := h
    rwa [exec, if_pos hc]
  | textStart =>
    obtain ⟨hc, rfl⟩ := h
    rwa [exec, if_pos (List.isEmpty_iff.mpr hc)]
  | textEnd =>
    obtain ⟨hc, rfl⟩ := h
    rwa [exec, if_pos hc]

theorem exec_cat_cons (r : Regex) (rs : List Regex) (c : Cursor) :
    exec (cat (r :: rs)) k c = exec r (exec (cat rs) k) c := rfl

theorem exec_lineStart {c : Cursor} (h : c.atLineStart = true) : exec lineStart k c = k c := if_pos h

theorem exec_group (n : Nat) (r : Regex) (c : Cursor) :
    exec (group n r) k c = exec r (fun d => k (d.capture n c)) c := rfl

/-! ## Which success comes first -/

/-- A greedy repetition stops where no longer run can be continued. -/
theorem exec_star_greedy {p : Char → Bool} {c : Cursor} {xs rest : List Char}
    (hrest : c.rest = xs ++ rest) (hxs : ∀ a ∈ xs, p a = true)
    (hlonger : ∀ ys rest', rest = ys ++ rest' → ys ≠ [] → (∀ a ∈ ys, p a = true) →
      k (c.advance (xs ++ ys) rest') = none) (hk : (k (c.advance xs rest)).isSome = true) :
    exec (star true p) k c = k (c.advance xs rest) := by
  -- behind `xs` the star tries to go on; every longer run fails in the continuation
  have hstop : starGreedy p k c.groups (xs.reverse ++ c.before) rest = k (c.advance xs rest) := by
    obtain ⟨b, hb⟩ := Option.isSome_iff_exists.mp hk
    cases rest with
    | nil => rfl
    | cons a as =>
      rw [starGreedy]
      split
      next ha =>
        have hnone : starGreedy p k c.groups (a :: (xs.reverse ++ c.before)) as = none := by
          rw [Option.eq_none_iff_forall_ne_some]
          intro b hb
          obtain ⟨ys, rest', rfl, hys, hb⟩ := starGreedy_sound hb
          have hk := hlonger (a :: ys) rest' rfl (List.cons_ne_nil a ys)
            (List.forall_mem_cons.mpr ⟨ha, hys⟩)
          rw [Cursor.advance, List.reverse_append, List.reverse_cons, List.append_assoc,
            List.append_assoc, List.singleton_append, hb] at hk
          cases hk
        rw [hnone, Option.none_or]
        rfl
      next => rfl
  -- the characters of `xs` are taken one by one, and the first success is kept
  have hrun (ys : List Char) (before : List Char) (hys : ∀ a ∈ ys, p a = true)
      (hbefore : ys.reverse ++ before = xs.reverse ++ c.before) :
      starGreedy p k c.groups before (ys ++ rest) = k (c.advance xs rest) := by
    induction ys generalizing before with
    | nil =>
      rw [List.reverse_nil, List.nil_append] at hbefore
      rw [hbefore]
      exact hstop
    | cons a ys ih =>
      obtain ⟨ha, hys⟩ := List.forall_mem_cons.mp hys
      rw [List.reverse_cons, List.append_assoc, List.singleton_append] at hbefore
      rw [List.cons_append, starGreedy, if_pos ha, ih _ hys hbefore]
      exact Option.or_of_isSome hk
  rw [exec, hrest]
  exact hrun xs c.before hxs rfl

theorem exec_plus_greedy {p : Char → Bool} {c : Cursor} {xs rest : List Char} (hne : xs ≠ [])
    (hrest : c.rest = xs ++ rest) (hxs : ∀ a ∈ xs, p a = true)
    (hlonger : ∀ ys rest', rest = ys ++ rest' → ys ≠ [] → (∀ a ∈ ys, p a = true) →
      k (c.advance (xs ++ ys) rest') = none) (hk : (k (c.advance xs rest)).isSome = true) :
    exec (plus true p) k c = k (c.advance xs rest) := by
  cases xs with
  | nil => exact absurd rfl hne
  | cons a xs =>
    obtain ⟨ha, hxs⟩ := List.forall_mem_cons.mp hxs
    have hadvance (ys rest' : List Char) : c.advance (a :: ys) rest' =
        (⟨a :: c.before, xs ++ rest, c.groups⟩ : Cursor).advance ys rest' := by
      rw [Cursor.advance, Cursor.advance, List.reverse_cons, List.append_assoc,
        List.singleton_append]
    rw [plus, exec, exec, hrest]
    simp only [List.cons_append]
    rw [if_pos ha, hadvance]
    rw [hadvance] at hk
    refine exec_star_greedy rfl hxs (fun ys rest' heq hys hspace => ?_) hk
    rw [← hadvance]
    exact hlonger ys rest' heq hys hspace

/-- If the longest run can be continued, it is the one taken. -/
theorem exec_plus_longest {p : Char → Bool} {c : Cursor} {xs rest : List Char} (hne : xs ≠ [])
    (hrest : c.rest = xs ++ rest) (hxs : ∀ a ∈ xs, p a = true)
    (hstop : ∀ a as, rest = a :: as → p a = false) (hk : (k (c.advance xs rest)).isSome = true) :
    exec (plus true p) k c = k (c.advance xs rest) := by
  refine exec_plus_greedy hne hrest hxs (fun ys rest' heq hys hspace => ?_) hk
  cases ys with
  | nil => exact absurd rfl hys
  | cons a ys =>
    rw [heq] at hstop
    have ha := (List.forall_mem_cons.mp hspace).1
    rw [hstop a (ys ++ rest') rfl] at ha
    cases ha

theorem exec_group_plus_longest {p : Char → Bool} {n : Nat} {c : Cursor} {xs rest : List Char}
    (hne : xs ≠ []) (hrest : c.rest = xs ++ rest) (hxs : ∀ a ∈ xs, p a = true)
    (hstop : ∀ a as, rest = a :: as → p a = false)
    (hk : (k ⟨xs.reverse ++ c.before, rest, (n, xs) :: c.groups⟩).isSome = true) :
    exec (group n (plus true p)) k c = k ⟨xs.reverse ++ c.before, rest, (n, xs) :: c.groups⟩ := by
  have hcapture : (c.advance xs rest).capture n c =
      ⟨xs.reverse ++ c.before, rest, (n, xs) :: c.groups⟩ :=
    Cursor.capture_eq (e := c.advance xs rest) hrest n
  rw [← hcapture] at hk ⊢
  exact exec_plus_longest (k := fun d => k (d.capture n c)) hne hrest hxs hstop hk

/-- A lazy repetition goes on to the first position that can be continued. -/
theorem exec_star_lazy {p : Char → Bool} {c : Cursor} {xs rest : List Char}
    (hrest : c.rest = xs ++ rest) (hxs : ∀ a ∈ xs, p a = true)
    (hskip : ∀ pre post, xs = pre ++ post → post ≠ [] → k (c.advance pre (post ++ rest)) = none)
    (hk : (k (c.advance xs rest)).isSome = true) :
    exec (star false p) k c = k (c.advance xs rest) := by
  have hrun (pre ys : List Char) (hys : xs = pre ++ ys) :
      starLazy p k c.groups (pre.reverse ++ c.before) (ys ++ rest) = k (c.advance xs rest) := by
    induction ys generalizing pre with
    | nil =>
      rw [List.append_nil] at hys
      rw [← hys, List.nil_append]
      cases rest with
      | nil => rfl
      | cons a as =>
        rw [starLazy]
        exact Option.or_of_isSome hk
    | cons a ys ih =>
      have hnone := hskip pre (a :: ys) hys (List.cons_ne_nil a ys)
      have ha : p a = true := hxs a (by rw [hys]; simp)
      rw [Cursor.advance, List.cons_append] at hnone
      rw [List.cons_append, starLazy, hnone, Option.none_or, if_pos ha]
      have hnext := ih (pre ++ [a]) (by rw [hys, List.append_assoc, List.singleton_append])
      rwa [List.reverse_append, List.reverse_cons, List.reverse_nil, List.nil_append,
        List.singleton_append, List.cons_append] at hnext
  rw [exec, hrest]
  exact hrun [] xs rfl

/-- A run that can be continued nowhere before its end is read whole, or there is no result. -/
theorem exec_star_forced {greedy : Bool} {p : Char → Bool} {c : Cursor} {xs rest : List Char}
    (hrest : c.rest = xs ++ rest) (hxs : ∀ a ∈ xs, p a = true)
    (hstop : ∀ a as, rest = a :: as → p a = false)
    (hshort : ∀ pre post, xs = pre ++ post → post ≠ [] → k (c.advance pre (post ++ rest)) = none) :
    exec (star greedy p) k c = k (c.advance xs rest) := by
  -- no run goes past the end of `xs`
  have hend {ys rest' : List Char} (heq : rest = ys ++ rest') (hys : ∀ a ∈ ys, p a = true) :
      ys = [] := by
    cases ys with
    | nil => rfl
    | cons a ys =>
      have ha := (List.forall_mem_cons.mp hys).1
      rw [hstop a (ys ++ rest') heq] at ha
      cases ha
  cases hk : k (c.advance xs rest) with
  | some b =>
    have hsome : (k (c.advance xs rest)).isSome = true := by rw [hk]; rfl
    rw [← hk]
    cases greedy with
    | true =>
      apply exec_star_greedy hrest hxs _ hsome
      intro ys rest' heq hne hys
      exact absurd (hend heq hys) hne
    | false => exact exec_star_lazy hrest hxs hshort hsome
  -- the continuation fails behind `xs`: then it fails at every other length as well
  | none =>
    apply exec_eq_none
    intro d hd
    obtain ⟨ys, rest', hrest', hys, rfl⟩ := matches_star.mp hd
    rw [hrest] at hrest'
    rcases List.append_eq_append_iff.mp hrest' with ⟨zs, rfl, heq⟩ | ⟨zs, rfl, rfl⟩
    · -- a longer run goes beyond the place where the characters end
      obtain rfl := hend heq fun a ha => hys a (List.mem_append_right xs ha)
      rw [List.nil_append] at heq
      rw [List.append_nil, ← heq]
      exact hk
    · by_cases hzs : zs = []
      · rw [hzs, List.append_nil] at hk
        rw [hzs]
        exact hk
      · exact hshort ys zs rfl hzs

theorem exec_plus_forced {greedy : Bool} {p : Char → Bool} {c : Cursor} {xs rest : List Char}
    (hne : xs ≠ []) (hrest : c.rest = xs ++ rest) (hxs : ∀ a ∈ xs, p a = true)
    (hstop : ∀ a as, rest = a :: as → p a = false)
    (hshort : ∀ pre post, xs = pre ++ post → post ≠ [] → k (c.advance pre (post ++ rest)) = none) :
    exec (plus greedy p) k c = k (c.advance xs rest) := by
  cases xs with
  | nil => exact absurd rfl hne
  | cons a xs =>
    obtain ⟨ha, hxs⟩ := List.forall_mem_cons.mp hxs
    have hadvance (ys rest' : List Char) : c.advance (a :: ys) rest' =
        (⟨a :: c.before, xs ++ rest, c.groups⟩ : Cursor).advance ys rest' := by
      rw [Cursor.advance, Cursor.advance, List.reverse_cons, List.append_assoc,
        List.singleton_append]
    rw [plus, exec, exec, hrest]
    simp only [List.cons_append]
    rw [if_pos ha, hadvance]
    apply exec_star_forced rfl hxs hstop
    intro pre post heq hpost
    rw [← hadvance]
    exact hshort (a :: pre) post (by rw [heq, List.cons_append]) hpost

theorem exec_lit {s : List Char} {c : Cursor} {rest : List Char} (hrest : c.rest = s ++ rest) :
    exec (lit s) k c = k (c.advance s rest) := by
  induction s generalizing c with
  | nil =>
    rw [List.nil_append] at hrest
    rw [lit, exec, Cursor.advance, ← hrest]
    rfl
  | cons a s ih =>
    rw [lit, exec, exec, hrest]
    simp only [List.cons_append, beq_self_eq_true, if_true]
    rw [ih rfl, Cursor.advance, Cursor.advance, List.reverse_cons, List.append_assoc,
      List.singleton_append]

theorem exec_lit_eq_none {s : List Char} {c : Cursor} (h : ¬s <+: c.rest) :
    exec (lit s) k c = none :=
  exec_eq_none fun d hd => by
    obtain ⟨rest, hrest, _⟩ := matches_lit.mp hd
    exact absurd ⟨rest, hrest.symm⟩ h

end Laws

/-! ## What stands before the cursor -/

section Unanchored

variable {β γ : Type}

/-- The pattern never looks at the text before the cursor. -/
def unanchored : Regex → Bool
  | seq r s | alt r s => unanchored r && unanchored s
  | group _ r => unanchored r
  | lineStart | textStart => false
  | eps | chr _ | star .. | textEnd => true

/-- `f` sees no difference between the two continuations. -/
def SameBehind (f : β → γ) (k k' : Cursor → Option β) : Prop :=
  ∀ before before' rest groups,
    (k ⟨before, rest, groups⟩).map f = (k' ⟨before', rest, groups⟩).map f

theorem map_starGreedy {f : β → γ} {k k' : Cursor → Option β} (hk : SameBehind f k k')
    (p : Char → Bool) (before before' rest : List Char) (groups : List (Nat × List Char)) :
    (starGreedy p k groups before rest).map f = (starGreedy p k' groups before' rest).map f := by
  induction rest generalizing before before' with
  | nil => exact hk _ _ _ _
  | cons a as ih =>
    rw [starGreedy, starGreedy]
    by_cases ha : p a = true
    · rw [if_pos ha, if_pos ha, Option.map_or, Option.map_or, ih (a :: before) (a :: before'),
        hk before before']
    · rw [if_neg ha, if_neg ha]
      exact hk _ _ _ _

theorem map_starLazy {f : β → γ} {k k' : Cursor → Option β} (hk : SameBehind f k k')
    (p : Char → Bool) (before before' rest : List Char) (groups : List (Nat × List Char)) :
    (starLazy p k groups before rest).map f = (starLazy p k' groups before' rest).map f := by
  induction rest generalizing before before' with
  | nil => exact hk _ _ _ _
  | cons a as ih =>
    rw [starLazy, starLazy, Option.map_or, Option.map_or, hk before before']
    by_cases ha : p a = true
    · rw [if_pos ha, if_pos ha, ih (a :: before) (a :: before')]
    · rw [if_neg ha, if_neg ha]

theorem map_exec {r : Regex} (hr : r.unanchored = true) {f : β → γ} {k k' : Cursor → Option β}
    (hk : SameBehind f k k') : SameBehind f (exec r k) (exec r k') := by
  intro before before' rest groups
  induction r generalizing k k' before before' rest groups with
  | eps => exact hk _ _ _ _
  | chr p =>
    cases rest with
    | nil => rfl
    | cons a as =>
      rw [exec, exec]
      dsimp only
      by_cases ha : p a = true
      · rw [if_pos ha, if_pos ha]
        exact hk _ _ _ _
      · rw [if_neg ha, if_neg ha]
  | seq r s ihr ihs =>
    obtain ⟨hr, hs⟩ := Bool.and_eq_true_iff.mp hr
    exact ihr hr (fun _ _ _ _ => ihs hs hk _ _ _ _) _ _ _ _
  | alt r s ihr ihs =>
    obtain ⟨hr, hs⟩ := Bool.and_eq_true_iff.mp hr
    rw [exec, exec, Option.map_or, Option.map_or, ihr hr hk before before',
      ihs hs hk before before']
  -- the stars test the characters ahead only
  | star greedy p =>
    cases greedy with
    | true => exact map_starGreedy hk p before before' rest groups
    | false => exact map_starLazy hk p before before' rest groups
  | group n r ih =>
    rw [exec_group, exec_group]
    apply ih hr
    intro b b' rest' groups'
    exact hk b b' rest' _
  -- the anchors at a start look behind and are excluded
  | lineStart => cases hr
  | textStart => cases hr
  | textEnd =>
    rw [exec, exec]
    by_cases hend : Cursor.atTextEnd ⟨before, rest, groups⟩ = true
    · have hend' : Cursor.atTextEnd ⟨before', rest, groups⟩ = true := hend
      rw [if_pos hend, if_pos hend']
      exact hk _ _ _ _
    · have hend' : ¬Cursor.atTextEnd ⟨before', rest, groups⟩ = true := hend
      rw [if_neg hend, if_neg hend']

end Unanchored

/-! ## Searching -/

section Search

variable {r : Regex}

/-- Positions where nothing matches are passed over. -/
theorem searchFrom_skip {before skipped rest : List Char}
    (h : ∀ pre post, skipped = pre ++ post → post ≠ [] →
      exec r some ⟨pre.reverse ++ before, post ++ rest, []⟩ = none) :
    searchFrom r before (skipped ++ rest) = searchFrom r (skipped.reverse ++ before) rest := by
  induction skipped generalizing before with
  | nil => rfl
  | cons a as ih =>
    have hhere := h [] (a :: as) rfl (List.cons_ne_nil a as)
    rw [List.reverse_nil, List.nil_append, List.cons_append] at hhere
    rw [List.cons_append, searchFrom, hhere, Option.map_none, Option.none_or, List.reverse_cons,
      List.append_assoc, List.singleton_append]
    refine ih fun pre post heq hpost => ?_
    have hnext := h (a :: pre) post (by rw [heq, List.cons_append]) hpost
    rwa [List.reverse_cons, List.append_assoc, List.singleton_append] at hnext

theorem searchFrom_eq_some {before rest : List Char} {d : Cursor}
    (h : exec r some ⟨before, rest, []⟩ = some d) :
    searchFrom r before rest = some ⟨⟨before, rest, []⟩, d⟩ := by
  cases rest with
  | nil => rw [searchFrom, h, Option.map_some]
  | cons a as => rw [searchFrom, h, Option.map_some, Option.some_or]

theorem searchFrom_eq_none {before rest : List Char}
    (h : ∀ pre post, rest = pre ++ post → exec r some ⟨pre.reverse ++ before, post, []⟩ = none) :
    searchFrom r before rest = none := by
  have hskip : searchFrom r before (rest ++ []) = searchFrom r (rest.reverse ++ before) [] :=
    searchFrom_skip fun pre post heq _ => by
      rw [List.append_nil]
      exact h pre post heq
  rw [List.append_nil] at hskip
  rw [hskip, searchFrom, h rest [] (List.append_nil rest).symm]
  rfl

/-- What a search finds is a success at some position. -/
theorem searchFrom_sound {before rest : List Char} {m : Match} (h : searchFrom r before rest = some m) :
    Matches r m.start m.stop ∧ m.start.groups = [] := by
  have hexec {before rest : List Char} (h : (exec r some ⟨before, rest, []⟩).map
      (Match.mk ⟨before, rest, []⟩) = some m) : Matches r m.start m.stop ∧ m.start.groups = [] := by
    obtain ⟨d, hd, rfl⟩ := Option.map_eq_some_iff.mp h
    obtain ⟨e, he, hed⟩ := exec_sound hd
    exact ⟨Option.some.inj hed ▸ he, rfl⟩
  induction rest generalizing before with
  | nil => exact hexec h
  | cons a as ih =>
    rw [searchFrom] at h
    rcases Option.or_eq_some_iff.mp h with h | ⟨_, h⟩
    · exact hexec h
    · exact ih h

/-- A search in the rest of a text finds what it finds in that rest alone. -/
theorem map_searchFrom {γ : Type} (hr : r.unanchored = true) (f : List Char → Cursor → γ)
    (hf : ∀ rest before before' rest' groups,
      f rest ⟨before, rest', groups⟩ = f rest ⟨before', rest', groups⟩)
    (before before' rest : List Char) :
    (searchFrom r before rest).map (fun m => f m.start.rest m.stop) =
      (searchFrom r before' rest).map fun m => f m.start.rest m.stop := by
  have hexec (before before' rest : List Char) :
      ((exec r some ⟨before, rest, []⟩).map (Match.mk ⟨before, rest, []⟩)).map
          (fun m => f m.start.rest m.stop) =
        ((exec r some ⟨before', rest, []⟩).map (Match.mk ⟨before', rest, []⟩)).map
          fun m => f m.start.rest m.stop := by
    have hsome : SameBehind (f rest) some some :=
      fun b b' rest' groups => congrArg some (hf rest b b' rest' groups)
    rw [Option.map_map, Option.map_map]
    exact map_exec hr hsome before before' rest []
  induction rest generalizing before before' with
  | nil => exact hexec before before' []
  | cons a as ih =>
    rw [searchFrom, searchFrom, Option.map_or, Option.map_or, hexec before before',
      ih (a :: before) (a :: before')]

theorem groups_searchFrom (hr : r.unanchored = true) (before before' rest : List Char) :
    (searchFrom r before rest).map (fun m => m.stop.groups) =
      (searchFrom r before' rest).map fun m => m.stop.groups :=
  map_searchFrom hr (fun _ stop => stop.groups) (fun _ _ _ _ _ => rfl) before before' rest

theorem text_searchFrom (hr : r.unanchored = true) (before before' rest : List Char) :
    (searchFrom r before rest).map Match.text = (searchFrom r before' rest).map Match.text :=
  map_searchFrom hr (fun rest stop => rest.take (rest.length - stop.rest.length))
    (fun _ _ _ _ _ => rfl) before before' rest

/-- A match that reads something, then the matches behind it. -/
theorem finditerFrom_of_searchFrom {n : Nat} {before rest : List Char} {m : Match}
    (h : searchFrom r before rest = some m) (hlt : m.stop.rest.length < m.start.rest.length) :
    finditerFrom r (n + 1) before rest = m :: finditerFrom r n m.stop.before m.stop.rest := by
  rw [finditerFrom, h]
  dsimp only
  rw [if_pos hlt]

theorem finditerFrom_sound {n : Nat} {before rest : List Char} {m : Match}
    (h : m ∈ finditerFrom r n before rest) : Matches r m.start m.stop ∧ m.start.groups = [] := by
  induction n generalizing before rest with
  | zero => cases h
  | succ n ih =>
    rw [finditerFrom] at h
    split at h
    next => cases h
    next m' hm' =>
      rcases List.mem_cons.mp h with rfl | h
      · exact searchFrom_sound hm'
      · split at h
        · exact ih h
        · split at h
          · cases h
          · exact ih h

end Search

theorem matchStart_sound {r : Regex} {s : List Char} {m : Match} (h : matchStart r s = some m) :
    m.start = ⟨[], s, []⟩ ∧ Matches r ⟨[], s, []⟩ m.stop := by
  obtain ⟨d, hd, rfl⟩ := Option.map_eq_some_iff.mp h
  obtain ⟨d', hmatch, hsome⟩ := exec_sound hd
  exact ⟨rfl, Option.some.inj hsome ▸ hmatch⟩

/-! ## Words -/

section Words

variable [Unicode]

theorem word_ascii {c : Char} (h : c.toNat < 128) : word c = (c.isAlphanum || c == '_') := by
  rw [word, Unicode.isAlnum_ascii c h]

theorem word_eq_false {c : Char} (hascii : c.toNat < 128)
    (hc : (c.isAlphanum || c == '_') = false) : word c = false := by
  rw [word_ascii hascii]
  exact hc

theorem isSpace_of_word {c : Char} (h : word c = true) : Str.isSpace c = false := by
  rw [word, Bool.or_eq_true] at h
  rcases h with h | h
  · exact Unicode.isSpace_of_isAlnum c h
  · rw [eq_of_beq h]
    decide

/-- No punctuation in a name of word characters. -/
theorem not_mem_of_word {name : List Char} (hname : ∀ a ∈ name, word a = true) {c : Char}
    (hascii : c.toNat < 128) (hc : (c.isAlphanum || c == '_') = false) : c ∉ name := by
  intro hmem
  have h := hname c hmem
  rw [word_eq_false hascii hc] at h
  cases h

theorem word_of_isAlphanum {c : Char} (h : c.isAlphanum = true) : word c = true := by
  rw [word_ascii (Str.toNat_of_isAlphanum h), h, Bool.true_or]

end Words

/-! ## Digits -/

section Digits

variable [Unicode]

theorem isSpace_of_digit {c : Char} (h : digit c = true) : Str.isSpace c = false := by
  obtain ⟨d, hd⟩ := Option.isSome_iff_exists.mp h
  exact Unicode.isSpace_of_isAlnum c (Unicode.isAlnum_of_digitValue c d hd)

theorem digit_of_mem_str {n : Nat} {c : Char} (h : c ∈ Str.str n) : digit c = true := by
  obtain ⟨d, hd, rfl⟩ := Str.mem_toDigits (by omega) h
  have hchar : ∀ d < 10, d.digitChar.toNat < 128 ∧ '0' ≤ d.digitChar ∧ d.digitChar ≤ '9' := by
    decide
  obtain ⟨hascii, hrange⟩ := hchar d hd
  rw [digit, Unicode.digitValue_ascii _ hascii, if_pos hrange]
  rfl

theorem digit_eq_false {c : Char} (hascii : c.toNat < 128) (hc : ¬('0' ≤ c ∧ c ≤ '9')) :
    digit c = false := by
  rw [digit, Unicode.digitValue_ascii c hascii, if_neg hc]
  rfl

theorem digit_ne {c : Char} (h : digit c = true) :
    c ≠ '_' ∧ c ≠ '-' ∧ c ≠ '+' := by
  have hascii {d : Char} (hd : d.toNat < 128) (hvalue : ¬('0' ≤ d ∧ d ≤ '9')) : c ≠ d := by
    intro hcd
    rw [hcd, digit_eq_false hd hvalue] at h
    cases h
  exact ⟨hascii (by decide) (by decide), hascii (by decide) (by decide),
    hascii (by decide) (by decide)⟩

theorem digitsValue_of_digits {ds : List Char} (hds : ∀ c ∈ ds, digit c = true) (acc : Nat)
    {needDigit : Bool} (hne : ds ≠ [] ∨ needDigit = false) :
    ∃ n, Str.digitsValue 10 acc needDigit ds = some n := by
  induction ds generalizing acc needDigit with
  | nil =>
    obtain rfl := hne.resolve_left fun h => h rfl
    exact ⟨acc, rfl⟩
  | cons c ds ih =>
    obtain ⟨hc, hds⟩ := List.forall_mem_cons.mp hds
    obtain ⟨d, hd⟩ := Option.isSome_iff_exists.mp hc
    have hlt := Unicode.digitValue_lt c d hd
    have hdigit : Str.digitOf 10 c = some d := by
      rw [Str.digitOf, hd]
      exact Option.filter_eq_some_iff.mpr ⟨rfl, decide_eq_true hlt⟩
    rw [Str.digitsValue, if_neg (digit_ne hc).1, hdigit, Option.bind_some]
    exact ih hds _ (.inr rfl)

/-- Digits are a number. -/
theorem int_of_digits {ds : List Char} (hne : ds ≠ []) (hds : ∀ c ∈ ds, digit c = true) :
    ∃ n : Nat, Str.int 10 ds = some (n : Int) := by
  obtain ⟨n, hn⟩ := digitsValue_of_digits hds 0 (.inl hne)
  refine ⟨n, ?_⟩
  unfold Str.int
  rw [Str.strip_eq_self fun c hc => isSpace_of_digit (hds c hc)]
  dsimp only
  split
  next cs => exact absurd rfl (digit_ne (hds '-' (by simp))).2.1
  next cs => exact absurd rfl (digit_ne (hds '+' (by simp))).2.2
  next =>
    rw [if_neg (by decide), hn]
    rfl

end Digits

end Regex

end LinuxAnalysis.Lib
