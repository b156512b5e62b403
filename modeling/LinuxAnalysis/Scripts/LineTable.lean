import LinuxAnalysis.Lib.Fields
import LinuxAnalysis.Lib.Path
import LinuxAnalysis.Scripts.Tables

/-!
# ir_to_assembly.py: rows of the line table and the files they belong to

The scan of the line table remembers the last section header and tests it for every row of the wanted
line.  The rows are read once here, each with the header in force, so that the addresses of a line are
the rows that pass the test.
-/

open LinuxAnalysis.Lib

namespace LinuxAnalysis

namespace IrToAssembly

/-- A row of the line table under the header in force. -/
structure LineRow where
  dir : Option Text
  file : Text
  line : Int
  addr : Text

/-- A line that `lineTableLine` takes for a header. -/
def isHeader (line : Text) : Bool := Str.endswith line [':'] && Str.contains ['/'] line

section Rows

variable [Unicode]

def lineRow (dir : Option Text) (line : Text) : Option LineRow :=
  match Str.split line with
  | file :: lineNum :: parts =>
    match Str.int 10 lineNum, parts.find? fun part => Str.startswith part ['0', 'x'] with
    | some n, some part => some ⟨dir, file, n, part.drop 2⟩
    | _, _ => none
  | _ => none

/-- The rows from a state of the scan on. -/
def lineRowsFrom : Option Text → List Text → List LineRow
  | _, [] => []
  | dir, line :: lines =>
    if isHeader line then lineRowsFrom (some (line.rdropWhile (· == ':'))) lines
    else (lineRow dir line).toList ++ lineRowsFrom dir lines

def lineRows (readelf : Text) : List LineRow := lineRowsFrom none (Str.splitlines readelf)

def LineRow.isFor (sourceFile : Text) (lineNumber : Int) (row : LineRow) : Bool :=
  decide (row.line = lineNumber ∧ row.file = Str.basename sourceFile ∧
    dirMatches sourceFile row.dir = true)

/-- The file of a row is written in its line. -/
theorem file_infix_of_lineRow {dir : Option Text} {line : Text} {row : LineRow}
    (h : lineRow dir line = some row) : row.file <:+: line := by
  unfold lineRow at h
  split at h
  next file lineNum parts hsplit =>
    split at h
    next n part _ _ =>
      have hfile : file ∈ Str.split line := by
        rw [hsplit]
        exact List.mem_cons_self
      rw [← Option.some.inj h]
      exact (Str.of_mem_split hfile).2.2
    next => cases h
  next => cases h

omit [Unicode] in
theorem keeps_addresses (s : LineTableState) : s = { s with addresses := s.addresses ++ [] } := by
  rw [List.append_nil]

theorem lineTableLine_header {sourceFile : Text} {lineNumber : Int} {s : LineTableState}
    {line : Text} (hheader : isHeader line = true) :
    lineTableLine sourceFile lineNumber s line =
      { s with currentDir := some (line.rdropWhile (· == ':')) } :=
  if_pos hheader

/-- One line of the scan: the row it holds is added when it passes the tests. -/
theorem lineTableLine_row {sourceFile : Text} {lineNumber : Int} {s : LineTableState} {line : Text}
    (hheader : isHeader line = false) :
    lineTableLine sourceFile lineNumber s line = { s with
      addresses := s.addresses ++ ((lineRow s.currentDir line).toList.filter
        (LineRow.isFor sourceFile lineNumber)).map LineRow.addr } := by
  unfold lineTableLine
  rw [if_neg (by rw [← isHeader, hheader]; exact Bool.false_ne_true)]
  -- the function looks for the name of the file in the line before it splits it
  by_cases hcontains : Str.contains (Str.basename sourceFile) line = true
  · rw [if_pos hcontains]
    unfold lineRow
    cases Str.split line with
    | nil => exact keeps_addresses s
    | cons file fields =>
      cases fields with
      | nil => exact keeps_addresses s
      | cons lineNum parts =>
        dsimp only
        cases Str.int 10 lineNum with
        | none => exact keeps_addresses s
        | some n =>
          cases parts.find? fun part => Str.startswith part ['0', 'x'] with
          | none => exact keeps_addresses s
          | some part =>
            dsimp only [Option.toList_some]
            by_cases htests : n = lineNumber ∧ file = Str.basename sourceFile ∧
                dirMatches sourceFile s.currentDir = true
            · have hfor : LineRow.isFor sourceFile lineNumber
                  ⟨s.currentDir, file, n, part.drop 2⟩ = true := decide_eq_true htests
              rw [if_pos htests, List.filter_cons_of_pos hfor]
              rfl
            · rw [if_neg htests, List.filter_cons_of_neg (by simpa [LineRow.isFor] using htests)]
              exact keeps_addresses s
  · -- the name of the file does not occur, so no row of the line is one of the file
    rw [if_neg hcontains]
    have hnone : (lineRow s.currentDir line).toList.filter (LineRow.isFor sourceFile lineNumber) =
        [] := by
      apply List.filter_eq_nil_iff.mpr
      intro row hrow hfor
      have hfile := file_infix_of_lineRow (Option.mem_toList.mp hrow)
      rw [(of_decide_eq_true hfor).2.1] at hfile
      exact hcontains (Str.contains_iff_infix.mpr hfile)
    rw [hnone, List.map_nil, List.append_nil]

theorem foldl_lineTableLine (sourceFile : Text) (lineNumber : Int) (s : LineTableState)
    (lines : List Text) :
    (lines.foldl (lineTableLine sourceFile lineNumber) s).addresses = s.addresses ++
      ((lineRowsFrom s.currentDir lines).filter (LineRow.isFor sourceFile lineNumber)).map
        LineRow.addr := by
  induction lines generalizing s with
  | nil => exact (List.append_nil s.addresses).symm
  | cons line lines ih =>
    rw [List.foldl_cons, ih, lineRowsFrom]
    by_cases hheader : isHeader line = true
    · rw [if_pos hheader, lineTableLine_header hheader]
    · rw [if_neg hheader, lineTableLine_row (Bool.not_eq_true _ ▸ hheader), List.filter_append,
        List.map_append, List.append_assoc]

/-- The addresses of a line are the rows for it, in the order of the table. -/
theorem lineTableAddresses_eq (readelf sourceFile : Text) (lineNumber : Int) :
    lineTableAddresses readelf sourceFile lineNumber =
      ((lineRows readelf).filter (LineRow.isFor sourceFile lineNumber)).map LineRow.addr := by
  rw [lineTableAddresses, foldl_lineTableLine, List.nil_append]
  rfl

theorem findAddressForLineUsingReadelf_eq (readelf sourceFile : Text) (lineNumber : Int) :
    findAddressForLineUsingReadelf readelf sourceFile lineNumber =
      ((lineRows readelf).find? (LineRow.isFor sourceFile lineNumber)).map LineRow.addr := by
  rw [findAddressForLineUsingReadelf, lineTableAddresses_eq, List.head?_map, List.head?_filter]

end Rows

/-! ## Listings -/

/-- A row as it is printed: the name of the file, the line and the address are its first fields. -/
structure PrintedRow where
  text : Text
  file : Text
  line : Nat
  addr : Text
  fields : ∃ more, Str.split text = file :: Str.str line :: ('0' :: 'x' :: addr) :: more
  oneLine : ∀ c ∈ text, Str.isLineBreak c = false
  noHeader : Str.endswith text [':'] = false

/-- The path of a source file and the rows of its lines. -/
structure LineSection where
  path : Text
  rows : List PrintedRow
  oneLine : ∀ c ∈ path, Str.isLineBreak c = false
  name : ∀ c ∈ Str.basename path, Str.isSpace c = false
  noColon : Str.endswith path [':'] = false
  files : ∀ row ∈ rows, row.file = Str.basename path

namespace LineSection

def lines (s : LineSection) : List Text := (s.path ++ [':']) :: s.rows.map PrintedRow.text

/-- The header in force behind the header of the section: a bare file name is not taken for one. -/
def header (dir : Option Text) (s : LineSection) : Option Text :=
  if '/' ∈ s.path then some s.path else dir

/-- The requested path is a suffix of the section's path, component by component. -/
def isOf (sourceFile : Text) (s : LineSection) : Prop :=
  (Path.parse sourceFile).parts <:+ (Path.parse s.path).parts

instance (sourceFile : Text) (s : LineSection) : Decidable (s.isOf sourceFile) :=
  inferInstanceAs (Decidable (_ <:+ _))

end LineSection

/-- The text of a listing. -/
def lineTable (sections : List LineSection) : Text :=
  Str.unlines (sections.flatMap LineSection.lines)

def PrintedRow.under (dir : Option Text) (row : PrintedRow) : LineRow :=
  ⟨dir, row.file, row.line, row.addr⟩

def sectionRows : Option Text → List LineSection → List LineRow
  | _, [] => []
  | dir, s :: sections =>
    s.rows.map (PrintedRow.under (s.header dir)) ++ sectionRows (s.header dir) sections

theorem splitlines_lineTable (sections : List LineSection) :
    Str.splitlines (lineTable sections) = sections.flatMap LineSection.lines := by
  apply Str.splitlines_unlines
  intro line hline c hc
  obtain ⟨s, _, hline⟩ := List.mem_flatMap.mp hline
  rcases List.mem_cons.mp hline with rfl | hline
  · rcases List.mem_append.mp hc with hc | hc
    · exact s.oneLine c hc
    · rw [List.mem_singleton.mp hc]
      decide
  · obtain ⟨row, _, rfl⟩ := List.mem_map.mp hline
    exact row.oneLine c hc

theorem mem_sectionRows {dir : Option Text} {sections : List LineSection} {row : LineRow} :
    row ∈ sectionRows dir sections ↔ ∃ pre s post, sections = pre ++ s :: post ∧
      ∃ printed ∈ s.rows, row = printed.under (s.header (pre.foldl (fun d s => s.header d) dir)) := by
  induction sections generalizing dir with
  | nil =>
    apply iff_of_false List.not_mem_nil
    rintro ⟨pre, s, post, heq, _⟩
    exact List.cons_ne_nil s post (List.append_eq_nil_iff.mp heq.symm).2
  | cons s sections ih =>
    rw [sectionRows, List.mem_append, ih]
    constructor
    · rintro (h | ⟨pre, s', post, rfl, printed, hprinted, rfl⟩)
      · obtain ⟨printed, hprinted, rfl⟩ := List.mem_map.mp h
        exact ⟨[], s, sections, rfl, printed, hprinted, rfl⟩
      · exact ⟨s :: pre, s', post, rfl, printed, hprinted, rfl⟩
    · rintro ⟨pre, s', post, heq, printed, hprinted, rfl⟩
      cases pre with
      | nil =>
        obtain ⟨rfl, rfl⟩ := List.cons.inj heq
        exact .inl (List.mem_map.mpr ⟨printed, hprinted, rfl⟩)
      | cons first pre =>
        obtain ⟨rfl, rfl⟩ := List.cons.inj heq
        exact .inr ⟨pre, s', post, rfl, printed, hprinted, rfl⟩

theorem basename_eq_self {path : Text} (h : '/' ∉ path) : Str.basename path = path := by
  apply List.rtakeWhile_eq_self_iff.mpr
  intro c hc
  rw [bne_iff_ne]
  exact fun heq => h (heq ▸ hc)

theorem isHeader_header (s : LineSection) :
    isHeader (s.path ++ [':']) = true ↔ '/' ∈ s.path := by
  have hend : Str.endswith (s.path ++ [':']) [':'] = true :=
    List.isSuffixOf_iff_suffix.mpr (List.suffix_append s.path [':'])
  unfold isHeader
  rw [hend, Bool.true_and, Str.contains_iff_infix, List.singleton_infix_iff, List.mem_append]
  apply or_iff_left
  decide

theorem rdropWhile_header (s : LineSection) : (s.path ++ [':']).rdropWhile (· == ':') = s.path := by
  rw [List.rdropWhile_concat_pos (· == ':') s.path ':' (beq_self_eq_true ':'),
    List.rdropWhile_eq_self_iff]
  intro hne hlast
  have hcolon : [':'] <:+ s.path := by
    rw [← eq_of_beq hlast]
    exact ⟨s.path.dropLast, List.dropLast_append_getLast hne⟩
  have hno := s.noColon
  rw [Str.endswith, List.isSuffixOf_iff_suffix.mpr hcolon] at hno
  cases hno

/-- The test of the header passes whenever the section's own path has the name of the file. -/
theorem dirMatches_header {sourceFile : Text} {s : LineSection} {dir : Option Text}
    (hname : Str.basename s.path = Str.basename sourceFile) :
    dirMatches sourceFile (s.header dir) = true ↔
      '/' ∈ s.path ∨ dirMatches sourceFile dir = true := by
  unfold LineSection.header
  by_cases hdir : '/' ∈ s.path
  · rw [if_pos hdir]
    apply iff_of_true _ (.inl hdir)
    have hpresent : present (some s.path) = some s.path := by
      cases hpath : s.path with
      | nil =>
        rw [hpath] at hdir
        exact absurd hdir List.not_mem_nil
      | cons c path => rfl
    have hcontains : Str.contains (Str.basename sourceFile) s.path = true := by
      rw [Str.contains_iff_infix, ← hname]
      exact (List.rtakeWhile_suffix _ s.path).isInfix
    unfold dirMatches
    rw [hpresent]
    show (_ || Str.contains (Str.basename sourceFile) s.path) = true
    rw [hcontains, Bool.or_true]
  · rw [if_neg hdir, or_iff_right hdir]

section Listings

variable [Unicode]

theorem lineRow_printed (dir : Option Text) (row : PrintedRow) :
    lineRow dir row.text = some (row.under dir) := by
  obtain ⟨more, hfields⟩ := row.fields
  unfold lineRow
  rw [hfields]
  dsimp only
  rw [Str.int_str, List.find?_cons_of_pos (by rfl)]
  rfl

theorem lineRowsFrom_rows (dir : Option Text) (rows : List PrintedRow) (lines : List Text) :
    lineRowsFrom dir (rows.map PrintedRow.text ++ lines) =
      rows.map (PrintedRow.under dir) ++ lineRowsFrom dir lines := by
  induction rows with
  | nil => rfl
  | cons row rows ih =>
    have hheader : isHeader row.text = false := by
      rw [isHeader, row.noHeader, Bool.false_and]
    rw [List.map_cons, List.cons_append, lineRowsFrom, if_neg (by rw [hheader]; decide),
      lineRow_printed, ih]
    rfl

/-- A header line changes the header in force and holds no row. -/
theorem lineRowsFrom_header (dir : Option Text) (s : LineSection) (lines : List Text) :
    lineRowsFrom dir ((s.path ++ [':']) :: lines) = lineRowsFrom (s.header dir) lines := by
  rw [lineRowsFrom, LineSection.header]
  by_cases hdir : '/' ∈ s.path
  · rw [if_pos ((isHeader_header s).mpr hdir), rdropWhile_header, if_pos hdir]
  · -- a bare name is a line with one field
    have hsplit : Str.split (s.path ++ [':']) = [s.path ++ [':']] := by
      apply Str.split_eq_singleton
      · exact List.append_ne_nil_of_right_ne_nil _ (List.cons_ne_nil _ _)
      · intro c hc
        rcases List.mem_append.mp hc with hc | hc
        · exact s.name c (by rwa [basename_eq_self hdir])
        · rw [List.mem_singleton.mp hc]
          decide
    have hrow : lineRow dir (s.path ++ [':']) = none := by
      rw [lineRow, hsplit]
    rw [if_neg (fun h => hdir ((isHeader_header s).mp h)), if_neg hdir, hrow]
    rfl

theorem lineRows_lineTable (sections : List LineSection) :
    lineRows (lineTable sections) = sectionRows none sections := by
  have hfrom (dir : Option Text) :
      lineRowsFrom dir (sections.flatMap LineSection.lines) = sectionRows dir sections := by
    induction sections generalizing dir with
    | nil => rfl
    | cons s sections ih =>
      rw [List.flatMap_cons, LineSection.lines, List.cons_append, lineRowsFrom_header,
        lineRowsFrom_rows, ih, sectionRows]
  rw [lineRows, splitlines_lineTable, hfrom]

/-! ## The file of an address -/

/-- A row of the line has the address, in a section of the requested file. -/
def FromFile (sections : List LineSection) (sourceFile : Text) (lineNumber : Int) (addr : Text) :
    Prop :=
  ∃ s ∈ sections, s.isOf sourceFile ∧ ∃ row ∈ s.rows, (row.line : Int) = lineNumber ∧ row.addr = addr

/-- What is returned and what is collected comes from the requested file. -/
def StaysInFile (sections : List LineSection) (sourceFile : Text) (lineNumber : Int) : Prop :=
  (∀ addr, findAddressForLineUsingReadelf (lineTable sections) sourceFile lineNumber = some addr →
    FromFile sections sourceFile lineNumber addr) ∧
  ∀ addr ∈ lineTableAddresses (lineTable sections) sourceFile lineNumber,
    FromFile sections sourceFile lineNumber addr

/-- **The file of a line.**  The addresses found for a line come from the requested file if and only if
every row of the line in a section of the same file name (with a path, or with a bare name behind a
header that passes the test) has an address that the requested file has for the line as well. -/
theorem staysInFile_iff (sections : List LineSection) (sourceFile : Text) (lineNumber : Int) :
    StaysInFile sections sourceFile lineNumber ↔
      ∀ pre s post, sections = pre ++ s :: post → Str.basename s.path = Str.basename sourceFile →
        ('/' ∈ s.path ∨
          dirMatches sourceFile (pre.foldl (fun dir s => s.header dir) none) = true) →
        ∀ row ∈ s.rows, (row.line : Int) = lineNumber →
          FromFile sections sourceFile lineNumber row.addr := by
  -- an address is found for the row of some section, under the directory in force there
  have hmem (addr : Text) : addr ∈ lineTableAddresses (lineTable sections) sourceFile lineNumber ↔
      ∃ row ∈ sectionRows none sections,
        LineRow.isFor sourceFile lineNumber row = true ∧ row.addr = addr := by
    rw [lineTableAddresses_eq, lineRows_lineTable, List.mem_map]
    simp only [List.mem_filter, and_assoc]
  constructor
  · intro hstays pre s post hsections hname hdir row hrow hline
    apply hstays.2
    apply (hmem _).mpr
    refine ⟨_, mem_sectionRows.mpr ⟨pre, s, post, hsections, row, hrow, rfl⟩, ?_, rfl⟩
    exact decide_eq_true ⟨hline, (s.files row hrow).trans hname, (dirMatches_header hname).mpr hdir⟩
  · intro hcond
    have hall : ∀ addr ∈ lineTableAddresses (lineTable sections) sourceFile lineNumber,
        FromFile sections sourceFile lineNumber addr := by
      intro addr haddr
      obtain ⟨row, hrow, hfor, rfl⟩ := (hmem addr).mp haddr
      obtain ⟨pre, s, post, hsections, printed, hprinted, rfl⟩ := mem_sectionRows.mp hrow
      obtain ⟨hline, hfile, hdir⟩ := of_decide_eq_true hfor
      have hname : Str.basename s.path = Str.basename sourceFile :=
        (s.files printed hprinted).symm.trans hfile
      exact hcond pre s post hsections hname ((dirMatches_header hname).mp hdir) printed hprinted hline
    constructor
    · intro addr haddr
      exact hall addr (List.mem_of_head? haddr)
    · exact hall

end Listings

/-- Two files of one name, each with a row for its fifth line. -/
def namesakes : List LineSection :=
  [{ path := "drivers/a.c".toList
     rows := [{
       text := "a.c  5  0x10".toList
       file := "a.c".toList
       line := 5
       addr := "10".toList
       fields := ⟨[], by decide⟩
       oneLine := by decide
       noHeader := by decide }]
     oneLine := by decide
     name := by decide
     noColon := by decide
     files := by decide },
   { path := "net/a.c".toList
     rows := [{
       text := "a.c  5  0x20".toList
       file := "a.c".toList
       line := 5
       addr := "20".toList
       fields := ⟨[], by decide⟩
       oneLine := by decide
       noHeader := by decide }]
     oneLine := by decide
     name := by decide
     noColon := by decide
     files := by decide }]

/-- A line of `net/a.c` gets the address of the same line of `drivers/a.c`. -/
theorem staysInFile_fails_namesakes :
    ¬ ∀ (_ : Unicode) (sections : List LineSection) (sourceFile : Text) (lineNumber : Int),
      StaysInFile sections sourceFile lineNumber := by
  intro hall
  have hfound : @findAddressForLineUsingReadelf Unicode.ascii (lineTable namesakes) "net/a.c".toList 5 =
      some "10".toList := by decide +kernel
  obtain ⟨s, hs, hof, row, hrow, hline, haddr⟩ :=
    (hall Unicode.ascii namesakes "net/a.c".toList 5).1 _ hfound
  have hnone : ∀ s ∈ namesakes, s.isOf "net/a.c".toList → ∀ row ∈ s.rows, row.addr ≠ "10".toList := by
    decide
  exact hnone s hs hof row hrow haddr

end IrToAssembly

end LinuxAnalysis
