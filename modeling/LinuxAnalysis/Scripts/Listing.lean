import LinuxAnalysis.Lib.Fields
import LinuxAnalysis.Scripts.LineSpan

/-!
# ir_to_assembly.py: source text in a listing

A listing with source text interleaved is read by two patterns that look at every line: a line that
reads as `text:digits` becomes the source in force, and one that reads as `hex: ` counts as an
instruction.  The three loops over a listing share this reading.
-/

open LinuxAnalysis.Lib

namespace LinuxAnalysis

namespace IrToAssembly

/-- What a line gives when it is read as an instruction. -/
def label (line : Text) : Option Text := (Regex.matchStart addressRE line).bind fun m => m.group 1

section Reading

variable [Unicode]

/-- What a line gives when it is read as a source line. -/
def reading (line : Text) : Option (Text × Int) :=
  (Regex.matchStart sourceRE line).bind fun m =>
    (Str.int 10 ((m.group 2).getD [])).map fun n => ((m.group 1).getD [], n)

/-- The source in force behind some lines: the last one that was read. -/
def inForce (current : Option (Text × Int)) (lines : List Text) : Option (Text × Int) :=
  lines.foldl (fun current line => (reading line).or current) current

/-- The instruction that a line adds. -/
def attributed (current : Option (Text × Int)) (line : Text) : Option Attribution :=
  if (reading line).isSome then none
  else
    match label line, current with
    | some addr, some (file, n) => if n ≠ 0 then some ⟨file, n, addr⟩ else none
    | _, _ => none

def scanRows : Option (Text × Int) → List Text → List Attribution
  | _, [] => []
  | current, line :: lines =>
    (attributed current line).toList ++ scanRows ((reading line).or current) lines

/-- The addresses that the script reads off a listing, whatever their source. -/
def listedInsts (listing : Text) : List Text :=
  (Str.splitlines listing).filterMap fun line => if (reading line).isSome then none else label line

/-! ## The patterns -/

/-- The groups of `sourceRE`: what stands before the first colon, and digits. -/
theorem groups_sourceRE {line : Text} {m : Regex.Match} (h : Regex.matchStart sourceRE line = some m) :
    ∃ file ds rest, line = file ++ ':' :: (ds ++ rest) ∧ file ≠ [] ∧ ':' ∉ file ∧ ds ≠ [] ∧
      (∀ c ∈ ds, Regex.digit c = true) ∧ m.group 1 = some file ∧ m.group 2 = some ds := by
  obtain ⟨_, e₁, ⟨_, rfl⟩, e₂, hfile, e₃, hcolon, e₄, hdigits, hstop⟩ := Regex.matchStart_sound h
  obtain ⟨file, rest, hnonempty, hline, hnotColon, rfl⟩ := Regex.matches_group_plus.mp hfile
  obtain ⟨rest', hrest, rfl⟩ := Regex.matches_lit.mp hcolon
  obtain ⟨ds, rest'', hne, hrest', hds, rfl⟩ := Regex.matches_group_plus.mp hdigits
  dsimp only [Regex.Cursor.advance] at hline hrest hrest'
  refine ⟨file, ds, rest'', ?_, hnonempty, ?_, hne, hds, ?_, ?_⟩
  · rw [hline, hrest, hrest']
    rfl
  · intro hmem
    exact absurd (hnotColon ':' hmem) (by decide)
  · rw [Regex.Match.group, show m.stop = _ from hstop]
    rfl
  · rw [Regex.Match.group, show m.stop = _ from hstop]
    rfl

/-- A line that has the form of a source line is read. -/
theorem isSome_reading {line : Text} {m : Regex.Match} (h : Regex.matchStart sourceRE line = some m) :
    ∃ (file : Text) (n : Nat), file ≠ [] ∧ m.group 1 = some file ∧
      Str.int 10 ((m.group 2).getD []) = some (n : Int) ∧ reading line = some (file, (n : Int)) := by
  obtain ⟨file, ds, rest, _, hnonempty, _, hne, hds, hfile, hgroup⟩ := groups_sourceRE h
  obtain ⟨n, hn⟩ := Regex.int_of_digits hne hds
  refine ⟨file, n, hnonempty, hfile, ?_, ?_⟩
  · rw [hgroup]
    exact hn
  · rw [reading, h, Option.bind_some, hgroup, hfile, Option.getD_some, Option.getD_some, hn]
    rfl

/-- One line of the loop. -/
theorem listingLine_eq (s : ListingState) (line : Text) :
    listingLine s line = some ⟨(reading line).or s.current,
      s.rows ++ (attributed s.current line).toList⟩ := by
  unfold listingLine attributed
  cases hsource : Regex.matchStart sourceRE line with
  -- a source line sets the position in force and yields no row
  | some m =>
    obtain ⟨file, n, _, hfile, hn, hreading⟩ := isSome_reading hsource
    dsimp only
    rw [hn, hreading, hfile, Option.isSome_some, if_pos rfl, Option.toList_none, List.append_nil]
    rfl
  | none =>
    have hreading : reading line = none := by
      rw [reading, hsource]
      rfl
    rw [hreading, Option.none_or, if_neg (by decide)]
    dsimp only
    cases haddress : Regex.matchStart addressRE line with
    | none =>
      have hlabel : label line = none := by
        rw [label, haddress]
        rfl
      rw [hlabel]
      dsimp only
      rw [Option.toList_none, List.append_nil]
    | some m =>
      obtain ⟨_, ds, _, _, _, _, _, hgroup⟩ := groups_addressRE haddress
      have hlabel : label line = some ds := by
        rw [label, haddress, Option.bind_some, hgroup]
      rw [hlabel]
      cases hcurrent : s.current with
      | none =>
        dsimp only
        rw [Option.toList_none, List.append_nil, ← hcurrent]
      | some source =>
        obtain ⟨file, n⟩ := source
        dsimp only
        rw [hgroup, Option.getD_some]
        -- an instruction is recorded under a line other than 0
        by_cases hn : n ≠ 0
        · rw [if_pos hn, if_pos hn, ← hcurrent]
          rfl
        · rw [if_neg hn, if_neg hn, Option.toList_none, List.append_nil, ← hcurrent]

theorem foldlM_listingLine (s : ListingState) (lines : List Text) :
    lines.foldlM listingLine s =
      some ⟨inForce s.current lines, s.rows ++ scanRows s.current lines⟩ := by
  induction lines generalizing s with
  | nil =>
    rw [List.foldlM_nil, inForce, scanRows, List.append_nil]
    rfl
  | cons line lines ih =>
    rw [List.foldlM_cons, listingLine_eq]
    show lines.foldlM listingLine _ = _
    rw [ih, List.append_assoc]
    rfl

/-- The rows of a listing; reading one never raises an exception. -/
theorem attributions_eq (listing : Text) :
    attributions listing = some (scanRows none (Str.splitlines listing)) := by
  rw [attributions, foldlM_listingLine]
  rfl

theorem inForce_append (current : Option (Text × Int)) (xs ys : List Text) :
    inForce current (xs ++ ys) = inForce (inForce current xs) ys := List.foldl_append

theorem scanRows_append (current : Option (Text × Int)) (xs ys : List Text) :
    scanRows current (xs ++ ys) = scanRows current xs ++ scanRows (inForce current xs) ys := by
  induction xs generalizing current with
  | nil => rfl
  | cons line xs ih =>
    rw [List.cons_append, scanRows, scanRows, ih, List.append_assoc]
    rfl

end Reading

/-! ## Blocks -/

/-- An instruction line: its address in hexadecimal digits, a colon, a tabulator and the bytes. -/
structure InstLine where
  indent : Nat
  addr : Text
  bytes : Text
  addr_ne : addr ≠ []
  addr_hex : ∀ c ∈ addr, Str.isHexDigit c = true
  oneLine : ∀ c ∈ bytes, Str.isLineBreak c = false

def InstLine.text (i : InstLine) : Text :=
  List.replicate i.indent ' ' ++ (i.addr ++ ':' :: '\t' :: i.bytes)

/-- A header with the path and the line, any source text, and the instructions. -/
structure Block where
  path : Text
  line : Nat
  discriminator : Option Nat
  source : List Text
  insts : List InstLine
  path_oneLine : ∀ c ∈ path, Str.isLineBreak c = false
  source_oneLine : ∀ text ∈ source, ∀ c ∈ text, Str.isLineBreak c = false

namespace Block

def note (b : Block) : Text :=
  match b.discriminator with
  | none => []
  | some n => " (discriminator ".toList ++ Str.str n ++ ")".toList

def header (b : Block) : Text := b.path ++ ':' :: (Str.str b.line ++ b.note)

/-- The lines above the instructions. -/
def texts (b : Block) : List Text := b.header :: b.source

def lines (b : Block) : List Text := b.texts ++ b.insts.map InstLine.text

/-- The header has the line, and a path that matches the file. -/
def isAt (sourceFile : Text) (lineNumber : Int) (b : Block) : Bool :=
  fileMatches b.path sourceFile && (b.line : Int) == lineNumber

end Block

def objdumpListing (blocks : List Block) : Text := Str.unlines (blocks.flatMap Block.lines)

/-- The instructions under headers of the line. -/
def blockAddresses (blocks : List Block) (sourceFile : Text) (lineNumber : Int) : List Text :=
  (blocks.filter (Block.isAt sourceFile lineNumber)).flatMap fun b => b.insts.map InstLine.addr

theorem isLineBreak_of_isSpace {c : Char} (h : Str.isSpace c = false) : Str.isLineBreak c = false := by
  by_contra hbreak
  rw [Str.isSpace_of_isLineBreak (Bool.not_eq_false _ ▸ hbreak)] at h
  cases h

theorem isLineBreak_str {n : Nat} {c : Char} (h : c ∈ Str.str n) : Str.isLineBreak c = false :=
  isLineBreak_of_isSpace (Str.of_isHexDigit (Str.isHexDigit_toDigits (by omega) (by omega) h)).2.1

theorem oneLine_header (b : Block) : ∀ c ∈ b.header, Str.isLineBreak c = false := by
  have hnote : ∀ c ∈ b.note, Str.isLineBreak c = false := by
    unfold Block.note
    cases b.discriminator with
    | none => exact fun c hc => absurd hc List.not_mem_nil
    | some n =>
      intro c hc
      rcases List.mem_append.mp hc with hc | hc
      · rcases List.mem_append.mp hc with hc | hc
        · have hword : ∀ c ∈ " (discriminator ".toList, Str.isLineBreak c = false := by decide
          exact hword c hc
        · exact isLineBreak_str hc
      · have hclose : ∀ c ∈ ")".toList, Str.isLineBreak c = false := by decide
        exact hclose c hc
  intro c hc
  rcases List.mem_append.mp hc with hc | hc
  · exact b.path_oneLine c hc
  · rcases List.mem_cons.mp hc with rfl | hc
    · decide
    · rcases List.mem_append.mp hc with hc | hc
      · exact isLineBreak_str hc
      · exact hnote c hc

theorem oneLine_inst (i : InstLine) : ∀ c ∈ i.text, Str.isLineBreak c = false := by
  intro c hc
  rcases List.mem_append.mp hc with hc | hc
  · rw [List.eq_of_mem_replicate hc]
    decide
  · rcases List.mem_append.mp hc with hc | hc
    · exact isLineBreak_of_isSpace (Str.of_isHexDigit (i.addr_hex c hc)).2.1
    · rcases List.mem_cons.mp hc with rfl | hc
      · decide
      · rcases List.mem_cons.mp hc with rfl | hc
        · decide
        · exact i.oneLine c hc

theorem splitlines_objdumpListing (blocks : List Block) :
    Str.splitlines (objdumpListing blocks) = blocks.flatMap Block.lines := by
  apply Str.splitlines_unlines
  intro line hline
  obtain ⟨b, _, hline⟩ := List.mem_flatMap.mp hline
  rcases List.mem_append.mp hline with hline | hline
  · rcases List.mem_cons.mp hline with rfl | hline
    · exact oneLine_header b
    · exact b.source_oneLine line hline
  · obtain ⟨i, _, rfl⟩ := List.mem_map.mp hline
    exact oneLine_inst i

theorem colon_not_mem_front (i : InstLine) : ':' ∉ List.replicate i.indent ' ' ++ i.addr := by
  intro hmem
  rcases List.mem_append.mp hmem with hmem | hmem
  · exact absurd (List.eq_of_mem_replicate hmem) (by decide)
  · exact absurd (i.addr_hex ':' hmem) (by decide)

theorem takeWhile_spaces {spaces ds : Text} (hspaces : ∀ c ∈ spaces, Str.isSpace c = true)
    (hds : ∀ c ∈ ds, Str.isHexDigit c = true) : (spaces ++ ds).takeWhile Str.isSpace = spaces := by
  rw [List.takeWhile_append_of_pos hspaces]
  cases ds with
  | nil => exact List.append_nil spaces
  | cons d ds =>
    have hd := (Str.of_isHexDigit (hds d List.mem_cons_self)).2.1
    rw [List.takeWhile_cons_of_neg (by rw [hd]; exact Bool.false_ne_true), List.append_nil]

/-- An instruction line gives its address. -/
theorem label_inst (i : InstLine) : label i.text = some i.addr := by
  have hspaces : ∀ c ∈ List.replicate i.indent ' ', Str.isSpace c = true := by
    intro c hc
    rw [List.eq_of_mem_replicate hc]
    decide
  have hmatch : ∃ d, Regex.Matches addressRE ⟨[], i.text, []⟩ d := by
    refine ⟨_, ⟨[], i.text, []⟩, ⟨rfl, rfl⟩, _, Regex.matches_star.mpr
      ⟨List.replicate i.indent ' ', i.addr ++ ':' :: '\t' :: i.bytes, rfl, hspaces, rfl⟩, _,
      Regex.matches_group_plus.mpr ⟨i.addr, ':' :: '\t' :: i.bytes, i.addr_ne, rfl, i.addr_hex, rfl⟩,
      _, Regex.matches_lit.mpr ⟨'\t' :: i.bytes, rfl, rfl⟩, _, Regex.matches_plus.mpr
      ⟨['\t'], i.bytes, List.cons_ne_nil _ _, rfl, ?_, rfl⟩, rfl⟩
    intro c hc
    rw [List.mem_singleton.mp hc]
    decide
  obtain ⟨d, hd⟩ := hmatch
  obtain ⟨e, he⟩ := Option.isSome_iff_exists.mp (Regex.exec_complete (k := some) hd rfl)
  have hm : Regex.matchStart addressRE i.text = some ⟨⟨[], i.text, []⟩, e⟩ := by
    rw [Regex.matchStart, he]
    rfl
  -- one way only to stand before the first colon
  obtain ⟨spaces, ds, rest, hline, hwhite, _, hds, hgroup⟩ := groups_addressRE hm
  have hcolon : ':' ∉ spaces ++ ds := by
    intro hmem
    rcases List.mem_append.mp hmem with hmem | hmem
    · exact absurd (hwhite ':' hmem) (by decide)
    · exact absurd (hds ':' hmem) (by decide)
  rw [InstLine.text, ← List.append_assoc, ← List.append_assoc] at hline
  obtain ⟨hfront, _⟩ := Str.append_cons_inj (colon_not_mem_front i) hcolon hline
  have htake := congrArg (List.takeWhile Str.isSpace) hfront
  rw [takeWhile_spaces hspaces i.addr_hex, takeWhile_spaces hwhite hds] at htake
  rw [htake] at hfront
  rw [label, hm, Option.bind_some, hgroup, List.append_cancel_left hfront]

section Attribution

variable [Unicode]

/-- No instruction line reads as a source line. -/
theorem reading_inst (i : InstLine) : reading i.text = none := by
  by_contra hne
  obtain ⟨source, hsource⟩ := Option.ne_none_iff_exists'.mp hne
  obtain ⟨m, hm, _⟩ := Option.bind_eq_some_iff.mp hsource
  obtain ⟨file, ds, rest, hline, _, hfile, hds, hdigits, _⟩ := groups_sourceRE hm
  rw [InstLine.text, ← List.append_assoc] at hline
  obtain ⟨_, hrest⟩ := Str.append_cons_inj (colon_not_mem_front i) hfile hline
  cases ds with
  | nil => exact hds rfl
  | cons d ds =>
    -- behind the colon stands a tabulator
    obtain ⟨rfl, _⟩ := List.cons.inj hrest
    have hspace := Regex.isSpace_of_digit (hdigits '\t' List.mem_cons_self)
    exact absurd hspace (by decide)

/-- The source in force is the line. -/
def sourceAt (sourceFile : Text) (lineNumber : Int) : Option (Text × Int) → Bool
  | some (file, n) => decide (n ≠ 0) && (fileMatches file sourceFile && n == lineNumber)
  | none => false

/-- The addresses that some lines give, whatever the source in force. -/
def readAddrs (lines : List Text) : List Text :=
  lines.filterMap fun line => if (reading line).isSome then none else label line

/-- The header of a block that has instructions is the line exactly if the source in force is, and while
it is, no line of the source text reads as an instruction. -/
structure BlockReads (sourceFile : Text) (lineNumber : Int) (current : Option (Text × Int))
    (b : Block) : Prop where
  insts : b.insts ≠ [] → (sourceAt sourceFile lineNumber (inForce current b.texts) = true ↔
    b.isAt sourceFile lineNumber = true)
  texts : ∀ before text after, b.texts = before ++ text :: after →
    sourceAt sourceFile lineNumber (inForce current before) = true → reading text = none →
    label text = none

def ReadsAs (sourceFile : Text) (lineNumber : Int) (current : Option (Text × Int))
    (blocks : List Block) : Prop :=
  ∀ pre b post, blocks = pre ++ b :: post →
    BlockReads sourceFile lineNumber (inForce current (pre.flatMap Block.texts)) b

variable {sourceFile : Text} {lineNumber : Int}

theorem readsAs_cons {current : Option (Text × Int)} {b : Block} {blocks : List Block} :
    ReadsAs sourceFile lineNumber current (b :: blocks) ↔
      BlockReads sourceFile lineNumber current b ∧
        ReadsAs sourceFile lineNumber (inForce current b.texts) blocks := by
  constructor
  · intro h
    refine ⟨h [] b blocks rfl, fun pre b' post heq => ?_⟩
    have hb' := h (b :: pre) b' post (by rw [heq, List.cons_append])
    rwa [List.flatMap_cons, inForce_append] at hb'
  · rintro ⟨hb, hblocks⟩ pre b' post heq
    cases pre with
    | nil =>
      obtain ⟨rfl, _⟩ := List.cons.inj heq
      exact hb
    | cons first pre =>
      obtain ⟨rfl, htail⟩ := List.cons.inj heq
      rw [List.flatMap_cons, inForce_append]
      exact hblocks pre b' post htail

theorem attributed_filter (current : Option (Text × Int)) (line : Text) :
    lineAddresses (attributed current line).toList sourceFile lineNumber =
      if sourceAt sourceFile lineNumber current then readAddrs [line] else [] := by
  unfold attributed readAddrs
  rw [List.filterMap_cons, List.filterMap_nil]
  by_cases hreading : (reading line).isSome = true
  · rw [if_pos hreading, if_pos hreading, ite_self]
    rfl
  · rw [if_neg hreading, if_neg hreading]
    cases label line with
    | none => rw [ite_self]; rfl
    | some addr =>
      cases current with
      | none => rfl
      | some source =>
        obtain ⟨file, n⟩ := source
        show lineAddresses (if n ≠ 0 then some ⟨file, n, addr⟩ else none : Option Attribution).toList
          sourceFile lineNumber =
          if (decide (n ≠ 0) && (fileMatches file sourceFile && n == lineNumber)) = true then [addr]
          else []
        by_cases hn : n ≠ 0
        · rw [if_pos hn, decide_eq_true hn, Bool.true_and, Option.toList_some, lineAddresses,
            List.filter_singleton]
          unfold Attribution.isAt
          cases fileMatches file sourceFile && n == lineNumber <;> rfl
        · rw [if_neg hn, decide_eq_false hn, Bool.false_and]
          rfl

omit [Unicode] in
theorem lineAddresses_append (xs ys : List Attribution) :
    lineAddresses (xs ++ ys) sourceFile lineNumber =
      lineAddresses xs sourceFile lineNumber ++ lineAddresses ys sourceFile lineNumber := by
  rw [lineAddresses, List.filter_append, List.map_append]
  rfl

/-- The addresses of a line come from lines that read as instructions while it is in force. -/
theorem mem_lineAddresses_scanRows {current : Option (Text × Int)} {lines : List Text} {addr : Text} :
    addr ∈ lineAddresses (scanRows current lines) sourceFile lineNumber ↔
      ∃ before line after, lines = before ++ line :: after ∧
        sourceAt sourceFile lineNumber (inForce current before) = true ∧ reading line = none ∧
        label line = some addr := by
  -- one line: found when the position in force is the one asked for
  have hhere {current : Option (Text × Int)} {line : Text} :
      addr ∈ lineAddresses (attributed current line).toList sourceFile lineNumber ↔
        sourceAt sourceFile lineNumber current = true ∧ reading line = none ∧
          label line = some addr := by
    rw [attributed_filter]
    by_cases hsource : sourceAt sourceFile lineNumber current = true
    · rw [if_pos hsource, readAddrs, List.mem_filterMap]
      cases hreading : reading line <;> simp [hsource, hreading]
    · rw [if_neg hsource]
      exact iff_of_false List.not_mem_nil fun h => hsource h.1
  induction lines generalizing current with
  | nil =>
    apply iff_of_false List.not_mem_nil
    rintro ⟨before, line, after, heq, _⟩
    exact List.cons_ne_nil line after (List.append_eq_nil_iff.mp heq.symm).2
  | cons first lines ih =>
    rw [scanRows, lineAddresses_append, List.mem_append]
    apply (or_congr hhere ih).trans
    constructor
    · rintro (h | ⟨before, line, after, rfl, h⟩)
      · exact ⟨[], first, lines, rfl, h⟩
      · exact ⟨first :: before, line, after, rfl, h⟩
    · rintro ⟨before, line, after, heq, h⟩
      cases before with
      | nil =>
        obtain ⟨rfl, _⟩ := List.cons.inj heq
        exact .inl h
      | cons _ before =>
        obtain ⟨rfl, htail⟩ := List.cons.inj heq
        exact .inr ⟨before, line, after, htail, h⟩

theorem readAddrs_append (xs ys : List Text) : readAddrs (xs ++ ys) = readAddrs xs ++ readAddrs ys :=
  List.filterMap_append

theorem readAddrs_insts (insts : List InstLine) :
    readAddrs (insts.map InstLine.text) = insts.map InstLine.addr := by
  induction insts with
  | nil => rfl
  | cons i insts ih =>
    rw [List.map_cons, List.map_cons, ← ih]
    unfold readAddrs
    rw [List.filterMap_cons, reading_inst, if_neg (by decide), label_inst]

/-- What a line gets is read off the lines. -/
theorem mem_readAddrs_of_lineAddresses {current : Option (Text × Int)} {lines : List Text} {addr : Text}
    (h : addr ∈ lineAddresses (scanRows current lines) sourceFile lineNumber) :
    addr ∈ readAddrs lines := by
  obtain ⟨before, line, after, rfl, _, hreading, hlabel⟩ := mem_lineAddresses_scanRows.mp h
  apply List.mem_filterMap.mpr
  refine ⟨line, by simp, ?_⟩
  rw [hreading, if_neg (by decide), hlabel]

theorem inForce_insts (current : Option (Text × Int)) (insts : List InstLine) :
    inForce current (insts.map InstLine.text) = current := by
  induction insts with
  | nil => rfl
  | cons i insts ih =>
    rw [List.map_cons, inForce, List.foldl_cons, reading_inst, Option.none_or]
    exact ih

theorem lineAddresses_insts (current : Option (Text × Int)) (insts : List InstLine) :
    lineAddresses (scanRows current (insts.map InstLine.text)) sourceFile lineNumber =
      if sourceAt sourceFile lineNumber current then insts.map InstLine.addr else [] := by
  induction insts with
  | nil => rw [List.map_nil, List.map_nil, ite_self]; rfl
  | cons i insts ih =>
    rw [List.map_cons, scanRows, lineAddresses_append, attributed_filter, reading_inst,
      Option.none_or, ih]
    have hread : readAddrs [i.text] = [i.addr] := readAddrs_insts [i]
    rw [hread]
    split <;> rfl

/-- The lines of one block: its texts, then its instructions under the source they leave in force. -/
theorem lineAddresses_blocks (current : Option (Text × Int)) (b : Block) (blocks : List Block) :
    lineAddresses (scanRows current ((b :: blocks).flatMap Block.lines)) sourceFile lineNumber =
      lineAddresses (scanRows current b.texts) sourceFile lineNumber ++
        ((if sourceAt sourceFile lineNumber (inForce current b.texts) then b.insts.map InstLine.addr
          else []) ++
        lineAddresses (scanRows (inForce current b.texts) (blocks.flatMap Block.lines)) sourceFile
          lineNumber) := by
  rw [List.flatMap_cons, Block.lines, List.append_assoc, scanRows_append, lineAddresses_append,
    scanRows_append, lineAddresses_append, lineAddresses_insts, inForce_insts]

omit [Unicode] in
theorem blockAddresses_cons (b : Block) (blocks : List Block) :
    blockAddresses (b :: blocks) sourceFile lineNumber =
      (if b.isAt sourceFile lineNumber then b.insts.map InstLine.addr else []) ++
        blockAddresses blocks sourceFile lineNumber := by
  unfold blockAddresses
  rw [List.filter_cons]
  split <;> rfl

theorem texts_eq_nil_iff {current : Option (Text × Int)} {lines : List Text} :
    lineAddresses (scanRows current lines) sourceFile lineNumber = [] ↔
      ∀ before text after, lines = before ++ text :: after →
        sourceAt sourceFile lineNumber (inForce current before) = true → reading text = none →
        label text = none := by
  rw [List.eq_nil_iff_forall_not_mem]
  simp only [mem_lineAddresses_scanRows]
  constructor
  · intro h before text after heq hsource hreading
    by_contra hne
    obtain ⟨addr, haddr⟩ := Option.ne_none_iff_exists'.mp hne
    exact h addr ⟨before, text, after, heq, hsource, hreading, haddr⟩
  · rintro h addr ⟨before, text, after, heq, hsource, hreading, haddr⟩
    rw [h before text after heq hsource hreading] at haddr
    cases haddr

theorem lineAddresses_of_readsAs {current : Option (Text × Int)} {blocks : List Block}
    (h : ReadsAs sourceFile lineNumber current blocks) :
    lineAddresses (scanRows current (blocks.flatMap Block.lines)) sourceFile lineNumber =
      blockAddresses blocks sourceFile lineNumber := by
  induction blocks generalizing current with
  | nil => rfl
  | cons b blocks ih =>
    obtain ⟨hb, hblocks⟩ := readsAs_cons.mp h
    rw [lineAddresses_blocks, blockAddresses_cons, texts_eq_nil_iff.mpr hb.texts, ih hblocks,
      List.nil_append]
    congr 1
    by_cases hinsts : b.insts = []
    · rw [hinsts, List.map_nil, ite_self, ite_self]
    · simp only [hb.insts hinsts]

theorem mem_readAddrs_of_blockAddresses {blocks : List Block} {addr : Text}
    (h : addr ∈ blockAddresses blocks sourceFile lineNumber) :
    addr ∈ readAddrs (blocks.flatMap Block.lines) := by
  obtain ⟨b, hb, haddr⟩ := List.mem_flatMap.mp h
  rw [← readAddrs_insts] at haddr
  obtain ⟨line, hline, hread⟩ := List.mem_filterMap.mp haddr
  apply List.mem_filterMap.mpr
  exact ⟨line, List.mem_flatMap.mpr ⟨b, (List.mem_filter.mp hb).1, List.mem_append_right _ hline⟩,
    hread⟩

/-- With distinct addresses nothing makes up for a wrong source. -/
theorem readsAs_of_lineAddresses {current : Option (Text × Int)} {blocks : List Block}
    (hnodup : (readAddrs (blocks.flatMap Block.lines)).Nodup)
    (h : lineAddresses (scanRows current (blocks.flatMap Block.lines)) sourceFile lineNumber =
      blockAddresses blocks sourceFile lineNumber) :
    ReadsAs sourceFile lineNumber current blocks := by
  induction blocks generalizing current with
  | nil =>
    intro pre b post heq
    exact absurd (List.append_eq_nil_iff.mp heq.symm).2 (List.cons_ne_nil b post)
  | cons b blocks ih =>
    rw [lineAddresses_blocks, blockAddresses_cons] at h
    rw [List.flatMap_cons, Block.lines, List.append_assoc, readAddrs_append, readAddrs_append,
      readAddrs_insts] at hnodup
    obtain ⟨_, hrest, hdisjoint⟩ := List.nodup_append.mp hnodup
    obtain ⟨_, hblocks, hdisjoint'⟩ := List.nodup_append.mp hrest
    -- nothing is read off the texts
    have htexts : lineAddresses (scanRows current b.texts) sourceFile lineNumber = [] := by
      rw [List.eq_nil_iff_forall_not_mem]
      intro addr haddr
      have hmem := List.mem_append_left
        ((if sourceAt sourceFile lineNumber (inForce current b.texts) then b.insts.map InstLine.addr
          else []) ++ lineAddresses (scanRows (inForce current b.texts)
            (blocks.flatMap Block.lines)) sourceFile lineNumber) haddr
      rw [h] at hmem
      apply hdisjoint addr (mem_readAddrs_of_lineAddresses haddr) addr _ rfl
      rcases List.mem_append.mp hmem with hmem | hmem
      · split at hmem
        · exact List.mem_append_left _ hmem
        · exact absurd hmem List.not_mem_nil
      · exact List.mem_append_right _ (mem_readAddrs_of_blockAddresses hmem)
    rw [htexts, List.nil_append] at h
    have hinsts : b.insts ≠ [] → (sourceAt sourceFile lineNumber (inForce current b.texts) = true ↔
        b.isAt sourceFile lineNumber = true) := by
      intro hne
      obtain ⟨i, hi⟩ := List.exists_mem_of_ne_nil _ hne
      have haddr : i.addr ∈ b.insts.map InstLine.addr := List.mem_map.mpr ⟨i, hi, rfl⟩
      have hiff : (i.addr ∈ (if sourceAt sourceFile lineNumber (inForce current b.texts) then
            b.insts.map InstLine.addr else []) ++ lineAddresses (scanRows (inForce current b.texts)
              (blocks.flatMap Block.lines)) sourceFile lineNumber) ↔
          i.addr ∈ (if b.isAt sourceFile lineNumber then b.insts.map InstLine.addr else []) ++
            blockAddresses blocks sourceFile lineNumber := by
        rw [h]
      rw [List.mem_append, List.mem_append, or_iff_left, or_iff_left] at hiff
      · by_cases hsource : sourceAt sourceFile lineNumber (inForce current b.texts) = true
        · rw [if_pos hsource] at hiff
          apply iff_of_true hsource
          by_contra hat
          rw [if_neg hat] at hiff
          exact absurd (hiff.mp haddr) List.not_mem_nil
        · rw [if_neg hsource] at hiff
          apply iff_of_false hsource
          intro hat
          rw [if_pos hat] at hiff
          exact absurd (hiff.mpr haddr) List.not_mem_nil
      · exact fun hmem => hdisjoint' _ haddr _ (mem_readAddrs_of_blockAddresses hmem) rfl
      · exact fun hmem => hdisjoint' _ haddr _ (mem_readAddrs_of_lineAddresses hmem) rfl
    apply readsAs_cons.mpr
    refine ⟨⟨hinsts, texts_eq_nil_iff.mp htexts⟩, ih hblocks ?_⟩
    have hsame : (if sourceAt sourceFile lineNumber (inForce current b.texts) then
        b.insts.map InstLine.addr else []) =
        if b.isAt sourceFile lineNumber then b.insts.map InstLine.addr else [] := by
      by_cases hne : b.insts = []
      · rw [hne, List.map_nil, ite_self, ite_self]
      · simp only [hinsts hne]
    rw [hsame] at h
    exact List.append_cancel_left h

/-- A header whose path has no colon reads as what it says. -/
theorem reading_header (b : Block) (hne : b.path ≠ []) (hcolon : ':' ∉ b.path) :
    reading b.header = some (b.path, (b.line : Int)) := by
  have hdigits : ∀ c ∈ Str.str b.line, Regex.digit c = true := fun c hc => Regex.digit_of_mem_str hc
  have hnote : ∀ c cs, b.note = c :: cs → Regex.digit c = false := by
    intro c cs hnote
    have hc : c = ' ' := by
      unfold Block.note at hnote
      split at hnote
      · cases hnote
      · exact (List.cons.inj hnote).1.symm
    rw [hc, Regex.digit, Unicode.digitValue_ascii ' ' (by decide)]
    rfl
  have hline : Str.str b.line ≠ [] := Nat.toDigits_ne_nil
  have hpath : ∀ c ∈ b.path, (c != ':') = true := by
    intro c hc
    rw [bne_iff_ne]
    exact fun heq => hcolon (heq ▸ hc)
  -- the digits end where the note begins
  have htail : Regex.exec (.cat [.lit [':'], .group 2 (.plus true Regex.digit)]) some
      ⟨b.path.reverse, ':' :: (Str.str b.line ++ b.note), [(1, b.path)]⟩ =
      some ⟨(Str.str b.line).reverse ++ ':' :: b.path.reverse, b.note,
        [(2, Str.str b.line), (1, b.path)]⟩ := by
    rw [Regex.exec_cat_cons, Regex.exec_lit (show _ = [':'] ++ (Str.str b.line ++ b.note) from rfl),
      Regex.exec_cat_cons]
    exact Regex.exec_group_plus_longest (k := Regex.exec (.cat []) some) hline rfl hdigits hnote rfl
  have hmatch : Regex.matchStart sourceRE b.header = some ⟨⟨[], b.header, []⟩,
      ⟨(Str.str b.line).reverse ++ ':' :: b.path.reverse, b.note,
        [(2, Str.str b.line), (1, b.path)]⟩⟩ := by
    have hexec : Regex.exec sourceRE some ⟨[], b.header, []⟩ =
        some ⟨(Str.str b.line).reverse ++ ':' :: b.path.reverse, b.note,
          [(2, Str.str b.line), (1, b.path)]⟩ := by
      rw [← htail, sourceRE, Regex.exec_cat_cons]
      show Regex.exec (.cat [.group 1 (.plus true (· != ':')), .lit [':'],
        .group 2 (.plus true Regex.digit)]) some ⟨[], b.header, []⟩ = _
      rw [Regex.exec_cat_cons]
      have hfirst := Regex.exec_group_plus_longest (n := 1) (c := ⟨[], b.header, []⟩)
        (k := Regex.exec (.cat [.lit [':'], .group 2 (.plus true Regex.digit)]) some)
        hne (show _ = b.path ++ ':' :: (Str.str b.line ++ b.note) from rfl) hpath
      rw [List.append_nil] at hfirst
      apply hfirst
      · intro a as heq
        rw [← (List.cons.inj heq).1]
        rfl
      · rw [htail]
        rfl
    rw [Regex.matchStart, hexec]
    rfl
  rw [reading, hmatch, Option.bind_some]
  show (Str.int 10 (Str.str b.line)).map (fun n => (b.path, n)) = _
  rw [Str.int_str]
  rfl

/-- Source text that reads neither way leaves every block as its header says. -/
theorem readsAs_of_quiet {blocks : List Block} (sourceFile : Text) (lineNumber : Int)
    (hpath : ∀ b ∈ blocks, b.path ≠ [] ∧ ':' ∉ b.path ∧ b.line ≠ 0)
    (hquiet : ∀ b ∈ blocks, ∀ text ∈ b.source, reading text = none ∧ label text = none) :
    ReadsAs sourceFile lineNumber none blocks := by
  intro pre b post hblocks
  have hb : b ∈ blocks := by
    rw [hblocks]
    simp
  obtain ⟨hne, hcolon, hline⟩ := hpath b hb
  have hheader := reading_header b hne hcolon
  have hsource (texts : List Text) (htexts : ∀ text ∈ texts, reading text = none)
      (current : Option (Text × Int)) : inForce current texts = current := by
    induction texts with
    | nil => rfl
    | cons text texts ih =>
      obtain ⟨htext, htexts⟩ := List.forall_mem_cons.mp htexts
      rw [inForce, List.foldl_cons, htext, Option.none_or]
      exact ih htexts
  have hforce : inForce (inForce none (pre.flatMap Block.texts)) b.texts =
      some (b.path, (b.line : Int)) := by
    rw [Block.texts, inForce, List.foldl_cons, hheader, Option.some_or]
    exact hsource b.source (fun text htext => (hquiet b hb text htext).1) _
  constructor
  · intro _
    rw [hforce, sourceAt, Block.isAt, decide_eq_true (show (b.line : Int) ≠ 0 by omega), Bool.true_and]
  · intro before text after htexts _ hreading
    cases before with
    | nil =>
      -- the header reads as a source line
      rw [← (List.cons.inj htexts).1, hheader] at hreading
      cases hreading
    | cons _ before =>
      have htext : text ∈ b.source := by
        rw [(List.cons.inj htexts).2]
        simp
      exact (hquiet b hb text htext).2

/-- Where the headers name their lines and no source text looks like a header or a label, a line is
given the instructions under its headers. -/
theorem lineAddresses_of_quiet (blocks : List Block) (sourceFile : Text) (lineNumber : Int)
    (hpath : ∀ b ∈ blocks, b.path ≠ [] ∧ ':' ∉ b.path ∧ b.line ≠ 0)
    (hquiet : ∀ b ∈ blocks, ∀ text ∈ b.source, reading text = none ∧ label text = none) :
    ∃ rows, attributions (objdumpListing blocks) = some rows ∧
      lineAddresses rows sourceFile lineNumber = blockAddresses blocks sourceFile lineNumber := by
  refine ⟨_, attributions_eq _, ?_⟩
  rw [splitlines_objdumpListing]
  exact lineAddresses_of_readsAs (readsAs_of_quiet sourceFile lineNumber hpath hquiet)

/-- **Attribution.**  A listing gives a line the instructions under its headers when every block reads
as its header says; where the script reads no address twice, it does so only then. -/
theorem lineAddresses_exact (blocks : List Block) (sourceFile : Text) (lineNumber : Int) :
    ∃ rows, attributions (objdumpListing blocks) = some rows ∧
      (ReadsAs sourceFile lineNumber none blocks →
        lineAddresses rows sourceFile lineNumber = blockAddresses blocks sourceFile lineNumber) ∧
      ((listedInsts (objdumpListing blocks)).Nodup →
        lineAddresses rows sourceFile lineNumber = blockAddresses blocks sourceFile lineNumber →
        ReadsAs sourceFile lineNumber none blocks) := by
  refine ⟨_, attributions_eq _, ?_, ?_⟩
  · rw [splitlines_objdumpListing]
    exact lineAddresses_of_readsAs
  · rw [splitlines_objdumpListing, listedInsts, splitlines_objdumpListing]
    exact readsAs_of_lineAddresses

end Attribution

/-- One block; its source text ends in a conditional expression. -/
def conditionalListing : List Block :=
  [{ path := "a.c".toList
     line := 5
     discriminator := none
     source := ["x ? a:1".toList]
     insts := [{
       indent := 0
       addr := "10".toList
       bytes := "90".toList
       addr_ne := by decide
       addr_hex := by decide
       oneLine := by decide }]
     path_oneLine := by decide
     source_oneLine := by decide }]

/-- The conditional expression takes the instruction away from its line. -/
theorem lineAddresses_misses_conditional :
    ¬ ∀ (_ : Unicode) (blocks : List Block) (sourceFile : Text) (lineNumber : Int)
      (rows : List Attribution), attributions (objdumpListing blocks) = some rows →
      lineAddresses rows sourceFile lineNumber = blockAddresses blocks sourceFile lineNumber := by
  intro hall
  let _ := Unicode.ascii
  have hrows : attributions (objdumpListing conditionalListing) =
      some [⟨"x ? a".toList, 1, "10".toList⟩] := by decide +kernel
  have heq := hall _ conditionalListing "a.c".toList 5 _ hrows
  exact absurd heq (by decide)

end IrToAssembly

end LinuxAnalysis
