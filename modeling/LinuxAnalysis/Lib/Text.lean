import Mathlib.Data.List.DropRight
import Mathlib.Data.List.Infix

/-!
# Text as Python sees it

The string methods the scripts use, on lists of characters.  The tables of the Unicode database are a
parameter; of them only the ASCII part is fixed.
-/

namespace LinuxAnalysis.Lib

abbrev Text := List Char

/-- The characters of a text are checked one by one, not all characters there are. -/
instance (priority := high) {p : Char → Prop} [DecidablePred p] (s : Text) :
    Decidable (∀ c ∈ s, p c) :=
  List.decidableBAll p s

/-- Two places in a list. -/
theorem eq_or_mem_of_append_eq {α : Type} {front front' back back' : List α} {x x' : α}
    (h : front ++ x :: back = front' ++ x' :: back') :
    (front = front' ∧ x = x' ∧ back = back') ∨
      (∃ middle, front' = front ++ x :: middle ∧ back = middle ++ x' :: back') ∨
      ∃ middle, front = front' ++ x' :: middle ∧ back' = middle ++ x :: back := by
  rcases List.append_eq_append_iff.mp h with ⟨middle, hfront, hback⟩ | ⟨middle, hfront, hback⟩
  · cases middle with
    | nil =>
      obtain ⟨rfl, rfl⟩ := List.cons.inj hback
      exact .inl ⟨by rw [hfront, List.append_nil], rfl, rfl⟩
    | cons y middle =>
      obtain ⟨rfl, rfl⟩ := List.cons.inj hback
      exact .inr (.inl ⟨middle, hfront, rfl⟩)
  · cases middle with
    | nil =>
      obtain ⟨rfl, rfl⟩ := List.cons.inj hback
      exact .inl ⟨by rw [hfront, List.append_nil], rfl, rfl⟩
    | cons y middle =>
      obtain ⟨rfl, rfl⟩ := List.cons.inj hback
      exact .inr (.inr ⟨middle, hfront, rfl⟩)

namespace Str

def spaceCodes : List Nat :=
  [9, 10, 11, 12, 13, 28, 29, 30, 31, 32, 133, 160, 5760, 8192, 8193, 8194, 8195, 8196, 8197, 8198,
    8199, 8200, 8201, 8202, 8232, 8233, 8239, 8287, 12288]

/-- `c.isspace()` -/
def isSpace (c : Char) : Bool := spaceCodes.contains c.toNat

theorem toNat_of_isAlphanum {c : Char} (h : c.isAlphanum = true) : c.toNat < 128 := by
  have hkinds : ((c.isUpper || c.isLower) || c.isDigit) = true := h
  rw [Bool.or_eq_true, Bool.or_eq_true] at hkinds
  rcases hkinds with (hupper | hlower) | hdigit
  · have hbounds : 65 ≤ c.toNat ∧ c.toNat ≤ 90 := of_decide_eq_true hupper
    omega
  · have hbounds := Bool.and_eq_true_iff.mp hlower
    have hupper : c.toNat ≤ 122 := of_decide_eq_true hbounds.2
    omega
  · have hbounds : 48 ≤ c.toNat ∧ c.toNat ≤ 57 := Char.isDigit_iff_toNat.mp hdigit
    omega

theorem isSpace_of_isAlphanum {c : Char} (h : c.isAlphanum = true) : isSpace c = false := by
  have hcodes : ∀ n < 128, (Char.ofNat n).isAlphanum = true → isSpace (Char.ofNat n) = false := by
    decide
  have hc := hcodes c.toNat (toNat_of_isAlphanum h)
  rw [Char.ofNat_toNat] at hc
  exact hc h

end Str

/-- The character properties that Python takes from the Unicode database. -/
class Unicode where
  /-- The value of a decimal digit. -/
  digitValue : Char → Option Nat
  isAlnum : Char → Bool
  digitValue_ascii : ∀ c, c.toNat < 128 →
    digitValue c = if '0' ≤ c ∧ c ≤ '9' then some (c.toNat - 48) else none
  isAlnum_ascii : ∀ c, c.toNat < 128 → isAlnum c = c.isAlphanum
  digitValue_lt : ∀ c d, digitValue c = some d → d < 10
  isAlnum_of_digitValue : ∀ c d, digitValue c = some d → isAlnum c = true
  isSpace_of_isAlnum : ∀ c, isAlnum c = true → Str.isSpace c = false

/-- No character outside ASCII is a digit or a letter. -/
@[reducible] def Unicode.ascii : Unicode where
  digitValue c := if '0' ≤ c ∧ c ≤ '9' then some (c.toNat - 48) else none
  isAlnum c := c.isAlphanum
  digitValue_ascii _ _ := rfl
  isAlnum_ascii _ _ := rfl
  digitValue_lt c d h := by
    split at h
    next hc =>
      have hle : c.toNat ≤ 57 := hc.2
      have hd := Option.some.inj h
      omega
    next => cases h
  isAlnum_of_digitValue c d h := by
    split at h
    next hc =>
      have hdigit : c.isDigit = true := by
        simp only [Char.isDigit, Bool.and_eq_true, decide_eq_true_eq]
        exact hc
      rw [Char.isAlphanum, hdigit, Bool.or_true]
    next => cases h
  isSpace_of_isAlnum _ h := Str.isSpace_of_isAlphanum h

namespace Str

/-! ## White space and lines -/

def lineBreakCodes : List Nat := [10, 11, 12, 13, 28, 29, 30, 133, 8232, 8233]

/-- The characters at which `splitlines` ends a line. -/
def isLineBreak (c : Char) : Bool := lineBreakCodes.contains c.toNat

/-- `s.strip(chars)`, the characters being those that satisfy `p`. -/
def stripBy (p : Char → Bool) (s : List Char) : List Char := (s.dropWhile p).rdropWhile p

def strip (s : List Char) : List Char := stripBy isSpace s

/-- `s.split()`: the maximal runs of characters that are not white space. -/
def split (s : List Char) : List (List Char) :=
  (s.splitOnP isSpace).filter fun w => !w.isEmpty

/-- `s.splitlines()`; `current` is the reversed line being read. -/
def splitlinesAux (current : List Char) : List Char → List (List Char)
  | [] => if current.isEmpty then [] else [current.reverse]
  | '\r' :: '\n' :: cs => current.reverse :: splitlinesAux [] cs
  | c :: cs =>
    if isLineBreak c then current.reverse :: splitlinesAux [] cs else splitlinesAux (c :: current) cs

def splitlines (s : List Char) : List (List Char) := splitlinesAux [] s

/-! ## Searching and cutting -/

def startswith (s pre : List Char) : Bool := pre.isPrefixOf s

def endswith (s suf : List Char) : Bool := suf.isSuffixOf s

/-- `sub in s` -/
def contains (sub : List Char) : List Char → Bool
  | [] => sub.isEmpty
  | c :: cs => sub.isPrefixOf (c :: cs) || contains sub cs

/-- `s.find(sub)`: what stands before the first occurrence, and the text from there on. -/
def splitAt (sub : List Char) : List Char → Option (List Char × List Char)
  | [] => if sub.isEmpty then some ([], []) else none
  | c :: cs =>
    if sub.isPrefixOf (c :: cs) then some ([], c :: cs)
    else (splitAt sub cs).map fun r => (c :: r.1, r.2)

/-- What `open` in text mode makes of line ends. -/
def universalNewlines : List Char → List Char
  | [] => []
  | '\r' :: '\n' :: cs => '\n' :: universalNewlines cs
  | '\r' :: cs => '\n' :: universalNewlines cs
  | c :: cs => c :: universalNewlines cs

/-- `s.split(sep, 1)` for a separator that occurs: what stands before and after the first one. -/
def splitOnce (sep : Char) : List Char → Option (List Char × List Char)
  | [] => none
  | c :: cs => if c = sep then some ([], cs) else (splitOnce sep cs).map fun r => (c :: r.1, r.2)

/-- `s.rsplit(sep, 1)` for a separator that occurs. -/
def rsplitOnce (sep : Char) (s : List Char) : Option (List Char × List Char) :=
  (splitOnce sep s.reverse).map fun r => (r.2.reverse, r.1.reverse)

/-- `s.rsplit(sep, 2)` -/
def rsplitTwice (sep : Char) (s : List Char) : List (List Char) :=
  match rsplitOnce sep s with
  | none => [s]
  | some (a, c) =>
    match rsplitOnce sep a with
    | none => [a, c]
    | some (a, b) => [a, b, c]

/-- `s.replace(old, new)` for a non-empty `old`; `skip` counts the characters of the last match that
are still to be dropped. -/
def replaceAux (old new : List Char) : Nat → List Char → List Char
  | _, [] => []
  | skip + 1, _ :: cs => replaceAux old new skip cs
  | 0, c :: cs =>
    if old.isPrefixOf (c :: cs) then new ++ replaceAux old new (old.length - 1) cs
    else c :: replaceAux old new 0 cs

def replace (s old new : List Char) : List Char := replaceAux old new 0 s

/-- `os.path.basename(s)` -/
def basename (s : List Char) : List Char := s.rtakeWhile fun c => c != '/'

/-! ## Integers -/

section Integers

variable [Unicode]

def digitOf (base : Nat) (c : Char) : Option Nat :=
  let value := match Unicode.digitValue c with
    | some d => some d
    | none =>
      if 'a' ≤ c ∧ c ≤ 'z' then some (c.toNat - 87)
      else if 'A' ≤ c ∧ c ≤ 'Z' then some (c.toNat - 55)
      else none
  value.filter fun d => d < base

/-- Digits with single underscores between them; the flag says that a digit has to come next. -/
def digitsValue (base : Nat) : Nat → Bool → List Char → Option Nat
  | acc, needDigit, [] => if needDigit then none else some acc
  | acc, needDigit, c :: cs =>
    if c = '_' then if needDigit then none else digitsValue base acc true cs
    else (digitOf base c).bind fun d => digitsValue base (base * acc + d) false cs

/-- The prefix that base 16 allows. -/
def dropHexPrefix : List Char → List Char
  | '0' :: x :: '_' :: cs => if x = 'x' ∨ x = 'X' then cs else '0' :: x :: '_' :: cs
  | '0' :: x :: cs => if x = 'x' ∨ x = 'X' then cs else '0' :: x :: cs
  | cs => cs

/-- `int(s, base)` for base 10 or 16; `none` is `ValueError`. -/
def int (base : Nat) (s : List Char) : Option Int :=
  let unsigned (cs : List Char) : Option Int :=
    (digitsValue base 0 true (if base = 16 then dropHexPrefix cs else cs)).map Int.ofNat
  match strip s with
  | '-' :: cs => (unsigned cs).map fun n => -n
  | '+' :: cs => unsigned cs
  | cs => unsigned cs

end Integers

/-- `str(n)` -/
def str (n : Nat) : List Char := Nat.toDigits 10 n

/-- `str(z)` -/
def strInt : Int → List Char
  | .ofNat n => str n
  | .negSucc n => '-' :: str (n + 1)

/-- `[0-9a-f]` -/
def isHexDigit (c : Char) : Bool := ('0' ≤ c && c ≤ '9') || ('a' ≤ c && c ≤ 'f')

/-- `hex(z)` -/
def hex : Int → List Char
  | .ofNat n => '0' :: 'x' :: Nat.toDigits 16 n
  | .negSucc n => '-' :: '0' :: 'x' :: Nat.toDigits 16 (n + 1)

/-- What stands before a suffix tells the text. -/
theorem eq_of_take_eq {suf a b : List Char} (ha : endswith a suf = true) (hb : endswith b suf = true)
    (h : a.take (a.length - suf.length) = b.take (b.length - suf.length)) : a = b := by
  obtain ⟨stem, rfl⟩ := List.isSuffixOf_iff_suffix.mp ha
  obtain ⟨stem', rfl⟩ := List.isSuffixOf_iff_suffix.mp hb
  rw [List.length_append, List.length_append, Nat.add_sub_cancel, Nat.add_sub_cancel, List.take_left,
    List.take_left] at h
  rw [h]

theorem not_mem_universalNewlines (s : List Char) : '\r' ∉ universalNewlines s := by
  fun_induction universalNewlines s with
  | case1 => exact List.not_mem_nil
  | case2 cs ih => simpa using ih
  | case3 cs _ ih => simpa using ih
  | case4 c cs _ hc ih => simpa [Ne.symm hc] using ih

theorem universalNewlines_eq_self {s : List Char} (h : '\r' ∉ s) : universalNewlines s = s := by
  induction s with
  | nil => rfl
  | cons c s ih =>
    obtain ⟨hc, hs⟩ := List.ne_and_not_mem_of_not_mem_cons h
    rw [universalNewlines, ih hs]
    · rintro cs rfl
      exact absurd rfl hc
    · rintro rfl
      exact absurd rfl hc

theorem contains_iff_infix {sub s : List Char} : contains sub s = true ↔ sub <:+: s := by
  induction s with
  | nil => rw [contains, List.isEmpty_iff, List.infix_nil]
  | cons c s ih =>
    rw [contains, Bool.or_eq_true, List.isPrefixOf_iff_prefix, ih, List.infix_cons_iff]

/-- A character that `sub` lacks separates the places where it can stand. -/
theorem infix_append_cons_iff {sub a b : List Char} {sep : Char} (hsep : sep ∉ sub) :
    sub <:+: a ++ sep :: b ↔ sub <:+: a ∨ sub <:+: b := by
  constructor
  · intro h
    rcases List.infix_append_iff_ne_nil.mp h with h | h | ⟨l₁, l₂, _, hl₂, rfl, _, hprefix⟩
    · exact .inl h
    · rcases List.infix_cons_iff.mp h with h | h
      · cases sub with
        | nil => exact .inl List.nil_infix
        | cons x sub =>
          rw [(List.cons_prefix_cons.mp h).1] at hsep
          exact absurd List.mem_cons_self hsep
      · exact .inr h
    · cases l₂ with
      | nil => exact absurd rfl hl₂
      | cons x l₂ =>
        rw [(List.cons_prefix_cons.mp hprefix).1] at hsep
        exact absurd (List.mem_append_right l₁ List.mem_cons_self) hsep
  · rintro (h | h)
    · exact List.infix_append_of_infix_left h
    · exact List.infix_append_of_infix_right (List.infix_cons h)

theorem infix_cons_iff_of_head {sub b : List Char} {c : Char} (h : sub.head? ≠ some c) :
    sub <:+: c :: b ↔ sub <:+: b := by
  rw [List.infix_cons_iff]
  apply or_iff_right_of_imp
  intro hstart
  cases sub with
  | nil => exact List.nil_infix
  | cons first sub => exact absurd (congrArg some (List.cons_prefix_cons.mp hstart).1) h

/-- Text without the first character of `sub` cannot begin an occurrence. -/
theorem infix_append_iff_of_head {sub a b : List Char} (h : ∀ c ∈ a, sub.head? ≠ some c) :
    sub <:+: a ++ b ↔ sub <:+: b := by
  induction a with
  | nil => rfl
  | cons c a ih =>
    obtain ⟨hc, ha⟩ := List.forall_mem_cons.mp h
    rw [List.cons_append, infix_cons_iff_of_head hc, ih ha]

/-- A label does not begin in front of its first place. -/
theorem not_prefix_of_suffix {label pre u w : List Char} {x : Char} (hpre : ¬label <:+: pre)
    (hx : x ∉ label) (heq : pre ++ [x] = u ++ w) (hw : w ≠ []) (rest : List Char) :
    ¬label <+: w ++ rest := by
  obtain ⟨w', y, rfl⟩ := (List.eq_nil_or_concat w).resolve_left hw
  rw [List.concat_eq_append] at heq ⊢
  obtain ⟨rfl, hy⟩ := List.append_inj' (heq.trans (List.append_assoc u w' [y]).symm) rfl
  obtain rfl := List.singleton_inj.mp hy
  intro hprefix
  rw [List.append_assoc] at hprefix
  rcases List.prefix_or_prefix_of_prefix hprefix (List.prefix_append w' _) with h | h
  · exact hpre (h.isInfix.trans ((List.suffix_append u w').isInfix))
  · obtain ⟨z, rfl⟩ := h
    have hz := (List.prefix_append_right_inj w').mp hprefix
    cases z with
    | nil =>
      rw [List.append_nil] at hpre
      exact hpre (List.suffix_append u w').isInfix
    | cons c z =>
      obtain ⟨rfl, _⟩ := List.cons_prefix_cons.mp hz
      exact hx (List.mem_append_right w' List.mem_cons_self)

/-- A label with nothing like it in front or behind has one place. -/
theorem append_label_inj {label pre u w rest : List Char} {x y : Char} (hpre : ¬label <:+: pre)
    (hx : x ∉ label) (hy : y ∉ label) (hrest : ¬label <:+: rest)
    (h : (pre ++ [x]) ++ (label ++ y :: rest) = u ++ (label ++ w)) : w = y :: rest := by
  rcases List.append_eq_append_iff.mp h with ⟨z, _, hz⟩ | ⟨z, hz, hw⟩
  · cases z with
    | nil => exact (List.append_cancel_left hz).symm
    | cons c z =>
      cases label with
      | nil => exact absurd List.nil_infix hpre
      | cons first label =>
        -- a later place begins inside the label or behind it
        have hlabel : label ++ y :: rest = z ++ (first :: label ++ w) := (List.cons.inj hz).2
        have hshort : ¬(first :: label) <:+: label := fun hin => by
          have hle := hin.length_le
          rw [List.length_cons] at hle
          omega
        have hsplit : (label ++ [y]) ++ rest = z ++ (first :: label ++ w) := by
          rw [← hlabel]
          simp
        rcases List.append_eq_append_iff.mp hsplit with ⟨v, _, hv⟩ | ⟨v, hv, hend⟩
        · refine absurd ?_ hrest
          rw [hv]
          exact ⟨v, w, by simp⟩
        · cases v with
          | nil =>
            rw [List.nil_append] at hend
            exact absurd ⟨[], w, by rw [← hend]; rfl⟩ hrest
          | cons c' v =>
            exact absurd ⟨w, hend⟩ (not_prefix_of_suffix hshort hy hv (List.cons_ne_nil _ _) rest)
  · cases z with
    | nil => exact List.append_cancel_left hw
    | cons c z =>
      exact absurd ⟨w, hw⟩
        (not_prefix_of_suffix hpre hx hz (List.cons_ne_nil _ _) (label ++ y :: rest))

theorem splitOnce_append {sep : Char} {a : List Char} (h : sep ∉ a) (b : List Char) :
    splitOnce sep (a ++ sep :: b) = some (a, b) := by
  induction a with
  | nil => rw [List.nil_append, splitOnce, if_pos rfl]
  | cons c a ih =>
    obtain ⟨hc, ha⟩ := List.ne_and_not_mem_of_not_mem_cons h
    rw [List.cons_append, splitOnce, if_neg (Ne.symm hc), ih ha]
    rfl

/-- Equal texts divide alike at their first separators. -/
theorem append_cons_inj {sep : Char} {a₁ a₂ b₁ b₂ : List Char} (ha : sep ∉ a₁) (hb : sep ∉ b₁)
    (h : a₁ ++ sep :: a₂ = b₁ ++ sep :: b₂) : a₁ = b₁ ∧ a₂ = b₂ := by
  have hsplit := splitOnce_append ha a₂
  rw [h, splitOnce_append hb, Option.some.injEq, Prod.mk.injEq] at hsplit
  exact ⟨hsplit.1.symm, hsplit.2.symm⟩

/-- Equal texts begin with the same run. -/
theorem append_run_inj {p : Char → Bool} {xs ys rest rest' : List Char}
    (hxs : ∀ a ∈ xs, p a = true) (hys : ∀ a ∈ ys, p a = true)
    (hrest : ∀ a ∈ rest.head?, p a = false) (hrest' : ∀ a ∈ rest'.head?, p a = false)
    (h : xs ++ rest = ys ++ rest') : xs = ys ∧ rest = rest' := by
  have htake {zs rest : List Char} (hzs : ∀ a ∈ zs, p a = true)
      (hrest : ∀ a ∈ rest.head?, p a = false) : (zs ++ rest).takeWhile p = zs := by
    rw [List.takeWhile_append_of_pos hzs]
    cases rest with
    | nil => rw [List.takeWhile_nil, List.append_nil]
    | cons a rest =>
      rw [List.takeWhile_cons_of_neg (by simp [hrest a rfl]), List.append_nil]
  have hrun := congrArg (List.takeWhile p) h
  rw [htake hxs hrest, htake hys hrest'] at hrun
  subst hrun
  exact ⟨rfl, List.append_cancel_left h⟩

theorem prefix_append_run {p : Char → Bool} {xs ys rest : List Char}
    (hxs : ∀ a ∈ xs, p a = true) (hrest : ∀ a ∈ rest.head?, p a = false) :
    xs <+: ys ++ rest ↔ xs <+: ys := by
  constructor
  · intro h
    rcases List.prefix_or_prefix_of_prefix h (List.prefix_append ys rest) with h' | h'
    · exact h'
    · obtain ⟨zs, rfl⟩ := h'
      cases zs with
      | nil => rw [List.append_nil]
      | cons a zs =>
        obtain ⟨post, hpost⟩ := (List.prefix_append_right_inj ys).mp h
        have ha := hrest a (by rw [← hpost]; rfl)
        rw [hxs a (by simp)] at ha
        cases ha
  · exact fun h => h.trans (List.prefix_append ys rest)

theorem splitOnce_eq_none {sep : Char} {a : List Char} (h : sep ∉ a) : splitOnce sep a = none := by
  induction a with
  | nil => rfl
  | cons c a ih =>
    obtain ⟨hc, ha⟩ := List.ne_and_not_mem_of_not_mem_cons h
    rw [splitOnce, if_neg (Ne.symm hc), ih ha]
    rfl

/-- The two parts and the separator make up the text. -/
theorem eq_of_splitOnce {sep : Char} {s before after : List Char}
    (h : splitOnce sep s = some (before, after)) : s = before ++ sep :: after := by
  induction s generalizing before with
  | nil => cases h
  | cons c cs ih =>
    rw [splitOnce] at h
    split at h
    next hc =>
      cases h
      rw [hc]
      rfl
    next =>
      obtain ⟨⟨front, back⟩, hsplit, hparts⟩ := Option.map_eq_some_iff.mp h
      cases hparts
      rw [ih hsplit]
      rfl

theorem rsplitOnce_append {sep : Char} {b : List Char} (h : sep ∉ b) (a : List Char) :
    rsplitOnce sep (a ++ sep :: b) = some (a, b) := by
  have hb : sep ∉ b.reverse := fun hmem => h (List.mem_reverse.mp hmem)
  rw [rsplitOnce, List.reverse_append, List.reverse_cons, List.append_assoc, List.singleton_append,
    splitOnce_append hb, Option.map_some, List.reverse_reverse, List.reverse_reverse]

theorem rsplitOnce_eq_none {sep : Char} {a : List Char} (h : sep ∉ a) : rsplitOnce sep a = none := by
  rw [rsplitOnce, splitOnce_eq_none fun hmem => h (List.mem_reverse.mp hmem)]
  rfl

/-- A part without the first character of `old` is copied. -/
theorem replace_append {o : Char} {old a : List Char} (h : o ∉ a) (b new : List Char) :
    replace (a ++ b) (o :: old) new = a ++ replace b (o :: old) new := by
  induction a with
  | nil => rfl
  | cons c cs ih =>
    obtain ⟨hc, hcs⟩ := List.ne_and_not_mem_of_not_mem_cons h
    have hnot : (o :: old).isPrefixOf (c :: (cs ++ b)) = false := by
      simp [List.isPrefixOf, hc]
    rw [List.cons_append, replace, replaceAux, if_neg (by rw [hnot]; decide), ← replace, ih hcs,
      List.cons_append]

theorem stripBy_eq_self {p : Char → Bool} {s : List Char} (h : ∀ c ∈ s, p c = false) :
    stripBy p s = s := by
  have hdrop : s.dropWhile p = s := by
    cases s with
    | nil => rfl
    | cons c s => rw [List.dropWhile_cons_of_neg (by simp [h c])]
  rw [stripBy, hdrop, List.rdropWhile_eq_self_iff]
  intro hne hstrip
  rw [h _ (List.getLast_mem hne)] at hstrip
  cases hstrip

theorem strip_eq_self {s : List Char} (h : ∀ c ∈ s, isSpace c = false) : strip s = s :=
  stripBy_eq_self h

/-- A character to strip on either side. -/
theorem stripBy_quoted {p : Char → Bool} {quote : Char} (hquote : p quote = true) {s : List Char}
    (h : ∀ c ∈ s, p c = false) : stripBy p (quote :: (s ++ [quote])) = s := by
  rw [stripBy, List.dropWhile_cons_of_pos hquote]
  cases s with
  | nil => rw [List.nil_append, List.dropWhile_cons_of_pos hquote]; rfl
  | cons c s =>
    rw [List.cons_append, List.dropWhile_cons_of_neg (by simp [h c]), ← List.cons_append,
      List.rdropWhile_concat_pos p _ quote hquote, List.rdropWhile_eq_self_iff]
    intro hne hstrip
    rw [h _ (List.getLast_mem hne)] at hstrip
    cases hstrip

theorem mem_toDigits {base : Nat} (hbase : 1 < base) {n : Nat} {c : Char}
    (h : c ∈ Nat.toDigits base n) : ∃ d < base, c = d.digitChar := by
  induction n using Nat.strongRecOn with
  | ind n ih =>
    by_cases hn : n < base
    · rw [Nat.toDigits_of_lt_base hn, List.mem_singleton] at h
      exact ⟨n, hn, h⟩
    · rw [Nat.toDigits_of_base_le hbase (by omega), List.mem_append, List.mem_singleton] at h
      rcases h with h | h
      · exact ih (n / base) (Nat.div_lt_self (by omega) hbase) h
      · exact ⟨n % base, Nat.mod_lt n (by omega), h⟩

theorem isHexDigit_toDigits {base n : Nat} {c : Char} (hbase : 1 < base) (hle : base ≤ 16)
    (h : c ∈ Nat.toDigits base n) : isHexDigit c = true := by
  obtain ⟨d, hd, rfl⟩ := mem_toDigits hbase h
  have hdigits : ∀ d < 16, isHexDigit d.digitChar = true := by decide
  exact hdigits d (by omega)

/-- What is known of a character that is a hexadecimal digit. -/
theorem of_isHexDigit {c : Char} (h : isHexDigit c = true) :
    c.toNat < 128 ∧ isSpace c = false ∧ c ≠ '_' ∧ c ≠ '-' ∧ c ≠ '+' ∧ c ≠ 'x' ∧ c ≠ 'X' := by
  have hcodes : ∀ n < 128, isHexDigit (Char.ofNat n) = true → isSpace (Char.ofNat n) = false ∧
      Char.ofNat n ≠ '_' ∧ Char.ofNat n ≠ '-' ∧ Char.ofNat n ≠ '+' ∧ Char.ofNat n ≠ 'x' ∧
      Char.ofNat n ≠ 'X' := by decide
  have hlt : c.toNat < 128 := by
    simp only [isHexDigit, Bool.or_eq_true, Bool.and_eq_true, decide_eq_true_eq] at h
    rcases h with ⟨_, h⟩ | ⟨_, h⟩
    · exact lt_of_le_of_lt (show c.toNat ≤ 57 from h) (by omega)
    · exact lt_of_le_of_lt (show c.toNat ≤ 102 from h) (by omega)
  have hc := hcodes c.toNat hlt
  rw [Char.ofNat_toNat] at hc
  exact ⟨hlt, hc h⟩

theorem isSpace_hex {z : Int} {c : Char} (h : c ∈ hex z) : isSpace c = false := by
  have hdigits {n : Nat} (hc : c ∈ Nat.toDigits 16 n) : isSpace c = false :=
    (of_isHexDigit (isHexDigit_toDigits (by omega) (by omega) hc)).2.1
  cases z with
  | ofNat n =>
    rcases List.mem_cons.mp h with rfl | h
    · decide
    · rcases List.mem_cons.mp h with rfl | h
      · decide
      · exact hdigits h
  | negSucc n =>
    rcases List.mem_cons.mp h with rfl | h
    · decide
    · rcases List.mem_cons.mp h with rfl | h
      · decide
      · rcases List.mem_cons.mp h with rfl | h
        · decide
        · exact hdigits h

theorem dropHexPrefix_toDigits (n : Nat) :
    dropHexPrefix ('0' :: 'x' :: Nat.toDigits 16 n) = Nat.toDigits 16 n := by
  cases hd : Nat.toDigits 16 n with
  | nil => rfl
  | cons c cs =>
    have hc : c ∈ Nat.toDigits 16 n := by
      rw [hd]
      exact List.mem_cons_self
    obtain ⟨_, _, hunderscore, _⟩ := of_isHexDigit (isHexDigit_toDigits (by omega) (by omega) hc)
    unfold dropHexPrefix
    split
    next h =>
      cases h
      exact absurd rfl hunderscore
    next h =>
      cases h
      rfl
    next h => exact absurd rfl (h 'x' (c :: cs))

theorem digitChar_ne_underscore {d : Nat} (hd : d < 16) : d.digitChar ≠ '_' := by
  have h : ∀ d < 16, d.digitChar ≠ '_' := by decide
  exact h d hd

section

variable [Unicode]

theorem digitOf_digitChar {base d : Nat} (hbase : base ≤ 16) (hd : d < base) :
    digitOf base d.digitChar = some d := by
  have hascii : ∀ d < 16, d.digitChar.toNat < 128 := by decide
  unfold digitOf
  rw [Unicode.digitValue_ascii _ (hascii d (by omega))]
  have hvalue : ∀ d < 16, (match (if '0' ≤ d.digitChar ∧ d.digitChar ≤ '9' then
      some (d.digitChar.toNat - 48) else none : Option Nat) with
    | some d => some d
    | none =>
      if 'a' ≤ d.digitChar ∧ d.digitChar ≤ 'z' then some (d.digitChar.toNat - 87)
      else if 'A' ≤ d.digitChar ∧ d.digitChar ≤ 'Z' then some (d.digitChar.toNat - 55)
      else none) = some d := by decide
  rw [hvalue d (by omega)]
  simp [hd]

/-- Reading back the digits of `n` continues the number read so far. -/
theorem digitsValue_toDigits {base : Nat} (hbase : 1 < base) (hle : base ≤ 16) (n : Nat)
    (needDigit : Bool) (cs : List Char) :
    digitsValue base 0 needDigit (Nat.toDigits base n ++ cs) = digitsValue base n false cs := by
  induction n using Nat.strongRecOn generalizing cs needDigit with
  | ind n ih =>
    by_cases hn : n < base
    · rw [Nat.toDigits_of_lt_base hn, List.singleton_append, digitsValue,
        if_neg (digitChar_ne_underscore (by omega)), digitOf_digitChar hle hn]
      simp only [Option.bind_some, Nat.mul_zero, Nat.zero_add]
    · rw [Nat.toDigits_of_base_le hbase (by omega), List.append_assoc,
        ih (n / base) (Nat.div_lt_self (by omega) hbase), List.singleton_append, digitsValue,
        if_neg (digitChar_ne_underscore (by have := Nat.mod_lt n (by omega : 0 < base); omega)),
        digitOf_digitChar hle (Nat.mod_lt n (by omega))]
      simp only [Option.bind_some, Nat.div_add_mod]

theorem digitOf_of_isHexDigit {c : Char} (h : isHexDigit c = true) :
    ∃ d < 16, digitOf 16 c = some d := by
  have hcodes : ∀ n < 128, isHexDigit (Char.ofNat n) = true →
      ∃ d < 16, (Char.ofNat n) = d.digitChar := by decide
  obtain ⟨hlt, _⟩ := of_isHexDigit h
  have hc := hcodes c.toNat hlt
  rw [Char.ofNat_toNat] at hc
  obtain ⟨d, hd, rfl⟩ := hc h
  exact ⟨d, hd, digitOf_digitChar (by omega) hd⟩

theorem digitsValue_of_isHexDigit {s : List Char} (h : ∀ c ∈ s, isHexDigit c = true) (acc : Nat)
    {needDigit : Bool} (hs : s ≠ [] ∨ needDigit = false) :
    ∃ n, digitsValue 16 acc needDigit s = some n := by
  induction s generalizing acc needDigit with
  | nil =>
    obtain rfl := hs.resolve_left (fun h => h rfl)
    exact ⟨acc, rfl⟩
  | cons c s ih =>
    obtain ⟨d, _, hd⟩ := digitOf_of_isHexDigit (h c List.mem_cons_self)
    obtain ⟨_, _, hunderscore, _⟩ := of_isHexDigit (h c List.mem_cons_self)
    rw [digitsValue, if_neg hunderscore, hd, Option.bind_some]
    exact ih (fun c hc => h c (List.mem_cons_of_mem _ hc)) _ (.inr rfl)

/-- Hexadecimal digits without a sign or a prefix. -/
theorem int_of_isHexDigit {s : List Char} (h : ∀ c ∈ s, isHexDigit c = true) :
    int 16 s = (digitsValue 16 0 true s).map Int.ofNat := by
  have hprefix : dropHexPrefix s = s := by
    unfold dropHexPrefix
    split
    next x cs =>
      obtain ⟨_, _, _, _, _, hx, hX⟩ := of_isHexDigit (h x (by simp))
      rw [if_neg (fun hx' => hx'.elim hx hX)]
    next x cs _ =>
      obtain ⟨_, _, _, _, _, hx, hX⟩ := of_isHexDigit (h x (by simp))
      rw [if_neg (fun hx' => hx'.elim hx hX)]
    next => rfl
  unfold int
  rw [strip_eq_self fun c hc => (of_isHexDigit (h c hc)).2.1]
  dsimp only
  split
  next cs => exact absurd rfl (of_isHexDigit (h '-' (by simp))).2.2.2.1
  next cs => exact absurd rfl (of_isHexDigit (h '+' (by simp))).2.2.2.2.1
  next => rw [if_pos rfl, hprefix]

/-- `int(str(n)) == n` -/
theorem int_str (n : Nat) : int 10 (str n) = some (n : Int) := by
  have hhex : ∀ c ∈ str n, isHexDigit c = true := fun c hc =>
    isHexDigit_toDigits (by omega) (by omega) hc
  have hdigits := digitsValue_toDigits (show 1 < 10 by omega) (by omega) n true []
  rw [List.append_nil] at hdigits
  unfold int
  rw [strip_eq_self fun c hc => (of_isHexDigit (hhex c hc)).2.1]
  dsimp only
  split
  next cs heq => exact absurd rfl (of_isHexDigit (hhex '-' (by simp [heq]))).2.2.2.1
  next cs heq => exact absurd rfl (of_isHexDigit (hhex '+' (by simp [heq]))).2.2.2.2.1
  next =>
    rw [if_neg (by decide)]
    show (digitsValue 10 0 true (Nat.toDigits 10 n)).map Int.ofNat = _
    rw [hdigits]
    rfl

theorem int_toDigits (n : Nat) : int 16 (Nat.toDigits 16 n) = some (n : Int) := by
  have hdigits := digitsValue_toDigits (show 1 < 16 by omega) (by omega) n true []
  rw [List.append_nil] at hdigits
  rw [int_of_isHexDigit fun c hc => isHexDigit_toDigits (by omega) (by omega) hc, hdigits]
  rfl

/-- `int(hex(z), 16) == z` -/
theorem int_hex (z : Int) : int 16 (hex z) = some z := by
  have hvalue (n : Nat) : digitsValue 16 0 true (Nat.toDigits 16 n) = some n := by
    have hdigits := digitsValue_toDigits (show 1 < 16 by omega) (by omega) n true []
    rw [List.append_nil] at hdigits
    rw [hdigits]
    rfl
  unfold int
  rw [strip_eq_self fun c hc => isSpace_hex hc]
  cases z with
  | ofNat n =>
    show (digitsValue 16 0 true (dropHexPrefix ('0' :: 'x' :: Nat.toDigits 16 n))).map _ = _
    rw [dropHexPrefix_toDigits, hvalue]
    rfl
  | negSucc n =>
    show ((digitsValue 16 0 true
      (dropHexPrefix ('0' :: 'x' :: Nat.toDigits 16 (n + 1)))).map Int.ofNat).map _ = _
    rw [dropHexPrefix_toDigits, hvalue]
    rfl

/-- `hex(z)[2:]` is the number again if it is not negative, and else no number. -/
theorem int_drop_hex (z : Int) : int 16 ((hex z).drop 2) = if 0 ≤ z then some z else none := by
  cases z with
  | ofNat n =>
    rw [if_pos (show 0 ≤ Int.ofNat n from Int.natCast_nonneg n)]
    exact int_toDigits n
  | negSucc n =>
    rw [if_neg (by omega)]
    have hspace : ∀ c ∈ 'x' :: Nat.toDigits 16 (n + 1), isSpace c = false := fun c hc =>
      isSpace_hex (z := .negSucc n) (List.mem_cons_of_mem _ (List.mem_cons_of_mem _ hc))
    show int 16 ('x' :: Nat.toDigits 16 (n + 1)) = none
    unfold int
    rw [strip_eq_self hspace]
    have hx : digitOf 16 'x' = none := by
      unfold digitOf
      rw [Unicode.digitValue_ascii 'x' (by decide)]
      rfl
    show (digitsValue 16 0 true ('x' :: Nat.toDigits 16 (n + 1))).map Int.ofNat = none
    rw [digitsValue, if_neg (by decide), hx]
    rfl

end

theorem str_injective {m n : Nat} (h : str m = str n) : m = n := by
  let _ := Unicode.ascii
  have hm := int_str m
  rw [h, int_str] at hm
  exact (Int.ofNat_inj.mp (Option.some.inj hm)).symm

theorem strInt_injective {x y : Int} (h : strInt x = strInt y) : x = y := by
  have hminus (n : Nat) : '-' ∉ str n := fun hmem =>
    (of_isHexDigit (isHexDigit_toDigits (by omega) (by omega) hmem)).2.2.2.1 rfl
  cases x with
  | ofNat m =>
    cases y with
    | ofNat n => exact congrArg Int.ofNat (str_injective h)
    | negSucc n =>
      have h : str m = '-' :: str (n + 1) := h
      exact absurd (h ▸ List.mem_cons_self) (hminus m)
  | negSucc m =>
    cases y with
    | ofNat n =>
      have h : '-' :: str (m + 1) = str n := h
      exact absurd (h ▸ List.mem_cons_self) (hminus n)
    | negSucc n =>
      have h : '-' :: str (m + 1) = '-' :: str (n + 1) := h
      have hsucc := str_injective (List.cons.inj h).2
      exact congrArg Int.negSucc (Nat.succ.inj hsucc)

theorem hex_injective {x y : Int} (h : hex x = hex y) : x = y := by
  let _ := Unicode.ascii
  have hx := int_hex x
  rw [h, int_hex] at hx
  exact (Option.some.inj hx).symm

end Str

end LinuxAnalysis.Lib
