import LinuxAnalysis.Pass.State
import Mathlib.Data.List.Basic

/-!
# The plugin callback

`llvmGetPassPluginInfo` registers a callback that takes the name of a pass with its parameters between
angle brackets, separated by semicolons.  A parameter that is missing, empty or unreadable has a default.
-/

open LinuxAnalysis.Lib

namespace LinuxAnalysis

/-! ## Decimal numbers -/

def IsDecimal (ds : Text) : Prop := ds ≠ [] ∧ ∀ c ∈ ds, c.isDigit = true

instance (ds : Text) : Decidable (IsDecimal ds) := inferInstanceAs (Decidable (_ ∧ _))

/-- Decimal digits, behind a minus sign for a negative number. -/
inductive DecimalText : Text → Int → Prop where
  | digits {ds : Text} : IsDecimal ds → DecimalText ds (Nat.ofDigitChars 10 ds 0)
  | minus {ds : Text} : IsDecimal ds → DecimalText ('-' :: ds) (-(Nat.ofDigitChars 10 ds 0 : Int))

theorem isDecimal_str (n : Nat) : IsDecimal (Str.str n) :=
  ⟨Nat.toDigits_ne_nil, fun _ hc => Nat.isDigit_of_mem_toDigits (by decide) (by decide) hc⟩

/-- What the plugin relies on in `StringRef::getAsInteger(10, …)`; `none` is an error. -/
class IntegerParsing where
  getInt64 : Text → Option Int
  getUnsigned : Text → Option Nat
  getInt64_decimal : ∀ s n, DecimalText s n → -2 ^ 63 ≤ n → n < 2 ^ 63 → getInt64 s = some n
  getUnsigned_decimal : ∀ ds, IsDecimal ds → Nat.ofDigitChars 10 ds 0 < 2 ^ 32 →
    getUnsigned ds = some (Nat.ofDigitChars 10 ds 0)

def readDigits (ds : Text) : Option Nat :=
  if IsDecimal ds then some (Nat.ofDigitChars 10 ds 0) else none

def readInt : Text → Option Int
  | '-' :: ds => (readDigits ds).map fun n : Nat => -(n : Int)
  | ds => (readDigits ds).map Int.ofNat

theorem readInt_decimal {s : Text} {n : Int} (h : DecimalText s n) : readInt s = some n := by
  cases h with
  | @digits ds hds =>
    rw [readInt, readDigits, if_pos hds]
    · rfl
    · rintro rest rfl
      exact absurd (hds.2 '-' (by simp)) (by decide)
  | @minus ds hds =>
    rw [readInt, readDigits, if_pos hds]
    rfl

/-- Everything that is not a decimal number within the range is an error. -/
@[reducible] def IntegerParsing.decimal : IntegerParsing where
  getInt64 s := (readInt s).filter fun n => -2 ^ 63 ≤ n ∧ n < 2 ^ 63
  getUnsigned ds := (readDigits ds).filter (· < 2 ^ 32)
  getInt64_decimal s n hs hlow hhigh := by
    rw [readInt_decimal hs, Option.filter_some, if_pos (decide_eq_true ⟨hlow, hhigh⟩)]
  getUnsigned_decimal ds hds hlt := by
    rw [readDigits, if_pos hds, Option.filter_some, if_pos (decide_eq_true hlt)]

/-! ## The parameters -/

/-- `consume_front` -/
def consumeFront (pre s : Text) : Option Text :=
  if pre.isPrefixOf s then some (s.drop pre.length) else none

/-- `consume_back` -/
def consumeBack (suf s : Text) : Option Text :=
  if suf.isSuffixOf s then some (s.take (s.length - suf.length)) else none

/-- The arguments of the constructor. -/
structure PassArguments where
  config : Config
  debug : Bool

/-- A parameter that is there and not empty. -/
def param (params : List Text) (k : Nat) : Option Text := params[k]?.filter fun s => !s.isEmpty

/-- A flag; it is off by default. -/
def flag (params : List Text) (k : Nat) : Bool :=
  match param params k with
  | none => false
  | some s => s == "true".toList || s == ['1'] || s == "TRUE".toList || s == "yes".toList

variable [IntegerParsing]

def parseParams (params : List Text) : PassArguments where
  config := {
    functionName := (param params 0).getD "gss_fill_context".toList
    targetOpcode := (param params 1).getD []
    constantToTrack := ((param params 2).bind IntegerParsing.getInt64).getD 3600
    interprocMode := flag params 4
    indirectCallMode := flag params 5
    upwardInterprocMode := flag params 6
    occurrenceIndex := ((param params 7).bind IntegerParsing.getUnsigned).getD 1
    approxDebugInfo := flag params 8 }
  debug := flag params 3

/-- The callback; `none` when the name is not that of the pass. -/
def parsePassName (name : Text) : Option PassArguments :=
  (consumeFront "taint-tracker".toList name).map fun rest =>
    match (consumeFront ['<'] rest).bind (consumeBack ['>']) with
    | none => parseParams []
    | some text => parseParams (text.splitOn ';')

omit [IntegerParsing] in
theorem consumeFront_append (pre s : Text) : consumeFront pre (pre ++ s) = some s := by
  rw [consumeFront, if_pos (List.isPrefixOf_iff_prefix.mpr (List.prefix_append pre s)),
    List.drop_left]

omit [IntegerParsing] in
theorem consumeBack_append (s suf : Text) : consumeBack suf (s ++ suf) = some s := by
  rw [consumeBack, if_pos (List.isSuffixOf_iff_suffix.mpr (List.suffix_append s suf)),
    List.length_append, Nat.add_sub_cancel, List.take_left]

/-- Parameters without a semicolon arrive one by one. -/
theorem parsePassName_join {params : List Text} (hne : params ≠ [])
    (hparams : ∀ s ∈ params, ';' ∉ s) :
    parsePassName ("taint-tracker<".toList ++ [';'].intercalate params ++ ['>']) =
      some (parseParams params) := by
  have hname : "taint-tracker<".toList ++ [';'].intercalate params ++ ['>'] =
      "taint-tracker".toList ++ (['<'] ++ ([';'].intercalate params ++ ['>'])) := by
    rw [List.append_assoc]
    rfl
  rw [parsePassName, hname, consumeFront_append, Option.map_some, consumeFront_append,
    Option.bind_some, consumeBack_append]
  dsimp only
  rw [List.splitOn_intercalate ';' hparams hne]

end LinuxAnalysis
