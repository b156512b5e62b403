import LinuxAnalysis.Scripts.Locate

/-!
# locate-const-in-ir.py: which line is located

`locate` is given the text of a line and keeps the first line of the file with this text that it reads
inside a function.
-/

open LinuxAnalysis.Lib

namespace LinuxAnalysis

/-- A line of the body of a function, with everything around it in the file. -/
structure BodyLine where
  pre : List Text
  name : Text
  /-- The `define` line. -/
  header : Text
  before : List Text
  line : Text
  after : List Text
  post : List Text

namespace BodyLine

/-- What stands behind the `define` line: the body, its closing brace, the rest of the file. -/
def behindHeader (b : BodyLine) : List Text := b.before ++ b.line :: (b.after ++ ['}'] :: b.post)

def file (b : BodyLine) : List Text := b.pre ++ b.header :: b.behindHeader

variable [Unicode]

/-- The rank of the line among the lines of its function with the same normalized form. -/
def rank (b : BodyLine) : Nat :=
  b.before.countP (fun l => decide (normalizeIR l = normalizeIR b.line)) + 1

/-- The `define` line is read with the name of the function, no line from there to this one opens or
closes a function, and no line above passes for it. -/
structure Pinned (b : BodyLine) : Prop where
  header : headerName b.header = some b.name
  quiet : ∀ l ∈ b.before ++ [b.line], opensOrCloses l = false
  first : NoneFound b.line (b.pre ++ b.header :: b.before)

omit [Unicode] in
/-- No other line is read as the definition of the function. -/
def DefinedOnce (b : BodyLine) : Prop :=
  ∀ l ∈ b.pre ++ b.behindHeader, headerName l ≠ some b.name

omit [Unicode] in
/-- The function that is read behind its `define` line. -/
theorem readFunction_body {pre before : List Text} {header name : Text}
    (hheader : headerName header = some name) (hquiet : ∀ l ∈ before, opensOrCloses l = false) :
    readFunction (pre ++ header :: before) = some name := by
  have hopens : opensOrCloses header = true := by
    obtain ⟨m, hm, _⟩ := Option.bind_eq_some_iff.mp hheader
    rw [opensOrCloses, hm]
    rfl
  induction before using List.reverseRecOn with
  | nil => rw [readFunction_concat, if_pos hopens, hheader]
  | append_singleton before line ih =>
    obtain ⟨hbefore, hline⟩ := List.forall_mem_append.mp hquiet
    rw [← List.cons_append, ← List.append_assoc, readFunction_concat, hline line (by simp),
      if_neg Bool.false_ne_true, ih hbefore]

omit [Unicode] in
/-- A function that is read has its `define` line above, and no other such line behind that. -/
theorem of_readFunction {lines : List Text} {name : Text} (h : readFunction lines = some name) :
    ∃ pre header before, lines = pre ++ header :: before ∧ headerName header = some name ∧
      ∀ l ∈ before, opensOrCloses l = false := by
  induction lines using List.reverseRecOn with
  | nil => cases h
  | append_singleton lines line ih =>
    rw [readFunction_concat] at h
    split at h
    next => exact ⟨lines, line, [], rfl, h, fun l hl => by cases hl⟩
    next hquiet =>
      obtain ⟨pre, header, before, rfl, hheader, hbefore⟩ := ih h
      refine ⟨pre, header, before ++ [line], by simp, hheader, ?_⟩
      rw [List.forall_mem_append]
      exact ⟨hbefore, fun l hl => by rw [List.mem_singleton.mp hl]; simpa using hquiet⟩

/-- The counter behind a `define` line. -/
theorem sameNormalizedBefore_body {instruction header name : Text} {pre before : List Text}
    (hheader : headerName header = some name) (hquiet : ∀ l ∈ before, opensOrCloses l = false) :
    sameNormalizedBefore instruction (pre ++ header :: before) =
      before.countP fun l => decide (normalizeIR l = normalizeIR instruction) := by
  induction before using List.reverseRecOn with
  | nil =>
    obtain ⟨m, hm, _⟩ := Option.bind_eq_some_iff.mp hheader
    rw [sameNormalizedBefore_concat, hm]
    rfl
  | append_singleton before line ih =>
    obtain ⟨hbefore, hline⟩ := List.forall_mem_append.mp hquiet
    obtain ⟨hopens, hclose⟩ := Bool.or_eq_false_iff.mp (hline line (by simp))
    rw [← List.cons_append, ← List.append_assoc, sameNormalizedBefore_concat, hopens,
      if_neg Bool.false_ne_true, ih hbefore, List.countP_append, List.countP_singleton,
      isSameNormalized, hclose, Bool.not_false, Bool.true_and]

/-- **The line that is located.**  `locate`, given the text of a line of a function, returns the function
and the rank of the line if its header is read, no line from there to it opens or closes a function, and
no line above that is read inside a function passes for it.  When no other line of the file is read as the
definition of the function, it does so only then. -/
theorem locate_pins_iff (b : BodyLine) :
    (b.Pinned → locate b.file b.line = (some b.name, b.rank)) ∧
      (b.DefinedOnce → locate b.file b.line = (some b.name, b.rank) → b.Pinned) := by
  rw [locate_eq_some_iff]
  constructor
  · rintro ⟨hheader, hquiet, hfirst⟩
    obtain ⟨hbefore, hline⟩ := List.forall_mem_append.mp hquiet
    refine ⟨b.pre ++ b.header :: b.before, b.line, b.after ++ ['}'] :: b.post, ?_,
      ⟨hline _ (by simp), rfl, rfl⟩, readFunction_body hheader hbefore, ?_, hfirst⟩
    · rw [file, behindHeader, List.append_assoc, List.cons_append]
    · rw [sameNormalizedBefore_body hheader hbefore, rank]
  · rintro honce ⟨front, line, back, hsplit, hpasses, hread, hrank, hnone⟩
    obtain ⟨pre, header, before, rfl, hheader, hbefore⟩ := of_readFunction hread
    rw [sameNormalizedBefore_body hheader hbefore, rank] at hrank
    have hlines : b.pre ++ b.header :: b.behindHeader =
        pre ++ header :: (before ++ line :: back) := by
      rw [← file, hsplit, List.append_assoc, List.cons_append]
    -- the `define` line that is read is that of the function
    rcases eq_or_mem_of_append_eq hlines with
      ⟨hpre, hhead, hbehind⟩ | ⟨middle, _, hmid⟩ | ⟨middle, hmid, _⟩
    · -- and of two places in its body the later one has the greater rank
      rcases eq_or_mem_of_append_eq hbehind with
        ⟨hbody, hline, _⟩ | ⟨middle, hmid, _⟩ | ⟨middle, hmid, _⟩
      · rw [← hpre, ← hhead, ← hbody] at hnone
        refine ⟨hhead ▸ hheader, ?_, hnone⟩
        rw [List.forall_mem_append]
        refine ⟨hbody ▸ hbefore, fun l hl => ?_⟩
        rw [List.mem_singleton.mp hl, hline]
        exact hpasses.quiet
      · rw [hmid, List.countP_append, List.countP_cons_of_pos (by simp)] at hrank
        omega
      · rw [hmid, List.countP_append, List.countP_cons_of_pos (by simpa using hpasses.normalized)]
          at hrank
        omega
    · exact absurd hheader (honce header (by rw [hmid]; simp))
    · exact absurd hheader (honce header (by rw [hmid]; simp))

end BodyLine

/-- Two functions that return the same constant; the line is that of the second one. -/
def secondReturn : BodyLine where
  pre := ["define i32 @f() \x7b".toList, "  ret i32 5".toList, "\x7d".toList]
  name := "g".toList
  header := "define i32 @g() \x7b".toList
  before := []
  line := "  ret i32 5".toList
  after := []
  post := []

/-- The first function is returned. -/
theorem locate_returns_other_function :
    ¬ ∀ (_ : Unicode) (b : BodyLine), b.DefinedOnce → headerName b.header = some b.name →
      (∀ l ∈ b.before ++ b.line :: b.after, opensOrCloses l = false) →
      locate b.file b.line = (some b.name, b.rank) := by
  intro hall
  let _ := Unicode.ascii
  have honce : ∀ l ∈ secondReturn.pre ++ secondReturn.behindHeader,
      headerName l ≠ some secondReturn.name := by decide +kernel
  have hlocate := hall Unicode.ascii secondReturn honce (by decide +kernel) (by decide +kernel)
  exact absurd hlocate (by decide +kernel)

end LinuxAnalysis
