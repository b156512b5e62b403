import LinuxAnalysis.Lib.Fields

/-!
# Paths as `pathlib` sees them

A POSIX path is a root and the components that are neither empty nor a single dot.
-/

namespace LinuxAnalysis.Lib

structure Path where
  root : List Char
  parts : List (List Char)
  deriving DecidableEq

namespace Path

/-- The root of a path text: two leading slashes stand for themselves, three or more for one. -/
def rootOf : List Char → List Char
  | '/' :: '/' :: '/' :: _ => ['/']
  | '/' :: '/' :: _ => ['/', '/']
  | '/' :: _ => ['/']
  | _ => []

/-- `Path(s)` -/
def parse (s : List Char) : Path where
  root := rootOf s
  parts := (s.splitOn '/').filter fun c => !c.isEmpty && c != ['.']

/-- `str(p)` -/
def str (p : Path) : List Char :=
  if p.root.isEmpty && p.parts.isEmpty then ['.'] else p.root ++ ['/'].intercalate p.parts

/-- `p / q`: a path with a root of its own stands alone. -/
def join (p q : Path) : Path :=
  if q.root.isEmpty then ⟨p.root, p.parts ++ q.parts⟩ else q

def parent (p : Path) : Path := ⟨p.root, p.parts.dropLast⟩

def name (p : Path) : List Char := p.parts.getLastD []

/-- The last component without its suffix, and the suffix with its dot. -/
def stemAndSuffix (name : List Char) : List Char × List Char :=
  match Str.rsplitOnce '.' name with
  | none => (name, [])
  | some (stem, suffix) =>
    if stem.isEmpty || suffix.isEmpty then (name, []) else (stem, '.' :: suffix)

def stem (p : Path) : List Char := (stemAndSuffix p.name).1

def suffix (p : Path) : List Char := (stemAndSuffix p.name).2

/-- `p.with_suffix(s)`; a path without a name is a `ValueError`. -/
def withSuffix (p : Path) (suffix : List Char) : Except (List Char) Path :=
  if p.name.isEmpty then
    .error ("PosixPath('".toList ++ p.str ++ "') has an empty name".toList)
  else .ok ⟨p.root, p.parts.dropLast ++ [p.stem ++ suffix]⟩

/-- A plain file name is a path of one component. -/
theorem parse_of_not_mem {s : List Char} (h : '/' ∉ s) (hne : s ≠ []) (hdot : s ≠ ['.']) :
    parse s = ⟨[], [s]⟩ := by
  have hroot : rootOf s = [] := by
    unfold rootOf
    split
    · exact absurd List.mem_cons_self h
    · exact absurd List.mem_cons_self h
    · exact absurd List.mem_cons_self h
    · rfl
  have hparts : [s].filter (fun c => !c.isEmpty && c != ['.']) = [s] := by
    simp [hne, hdot]
  rw [parse, hroot, List.splitOn_eq_singleton h, hparts]

/-- A directory below another one. -/
theorem join_parse (p : Path) {s : List Char} (h : '/' ∉ s) (hne : s ≠ []) (hdot : s ≠ ['.']) :
    p.join (parse s) = ⟨p.root, p.parts ++ [s]⟩ := by
  rw [parse_of_not_mem h hne hdot, join, if_pos (by rfl)]

theorem append_of_splitOnce {sep : Char} {s a b : List Char} (h : Str.splitOnce sep s = some (a, b)) :
    s = a ++ sep :: b := by
  induction s generalizing a with
  | nil => cases h
  | cons c cs ih =>
    rw [Str.splitOnce] at h
    split at h
    next hc =>
      cases h
      rw [hc, List.nil_append]
    next =>
      obtain ⟨⟨a', b'⟩, hsplit, heq⟩ := Option.map_eq_some_iff.mp h
      cases heq
      rw [ih hsplit, List.cons_append]

theorem stem_append_suffix (p : Path) : p.stem ++ p.suffix = p.name := by
  unfold stem suffix stemAndSuffix
  split
  · exact List.append_nil _
  · rename_i a b hsplit
    split
    · exact List.append_nil _
    · obtain ⟨⟨b', a'⟩, hsplit', heq⟩ := Option.map_eq_some_iff.mp hsplit
      cases heq
      have hreverse := congrArg List.reverse (append_of_splitOnce hsplit')
      rw [List.reverse_reverse, List.reverse_append, List.reverse_cons, List.append_assoc] at hreverse
      exact hreverse.symm

/-- What `with_suffix` makes of a path that has a name. -/
theorem of_withSuffix {p q : Path} {suffix : List Char} (h : p.withSuffix suffix = .ok q) :
    p.parts.dropLast ++ [p.name] = p.parts ∧ q = ⟨p.root, p.parts.dropLast ++ [p.stem ++ suffix]⟩ := by
  unfold withSuffix at h
  split at h
  · cases h
  next hname =>
    cases h
    refine ⟨?_, rfl⟩
    have hne : p.parts ≠ [] := by
      rintro hnil
      rw [name, hnil] at hname
      exact hname rfl
    rw [name, List.getLastD_eq_getLast?, List.getLast?_eq_some_getLast hne, Option.getD_some,
      List.dropLast_append_getLast]

theorem str_concat (root : List Char) (init : List (List Char)) (last : List Char) :
    str ⟨root, init ++ [last]⟩ = root ++ ['/'].intercalate (init ++ [last]) := by
  have hparts : (root.isEmpty && (init ++ [last]).isEmpty) = false := by simp
  rw [str, if_neg (by rw [hparts]; decide)]

/-- A longer last component makes a longer text. -/
theorem str_concat_append (root : List Char) (init : List (List Char)) (last more : List Char) :
    str ⟨root, init ++ [last ++ more]⟩ = str ⟨root, init ++ [last]⟩ ++ more := by
  rw [str_concat, str_concat, List.append_assoc]
  congr 1
  induction init with
  | nil => rw [List.nil_append, List.nil_append, List.intercalate_singleton, List.intercalate_singleton]
  | cons part init ih =>
    rw [List.cons_append, List.cons_append, List.intercalate_cons_of_ne_nil (by simp),
      List.intercalate_cons_of_ne_nil (by simp), ih]
    simp only [List.append_assoc]

theorem name_concat (root : List Char) (init : List (List Char)) (last : List Char) :
    name ⟨root, init ++ [last]⟩ = last := by
  rw [name, List.getLastD_eq_getLast?, List.getLast?_concat, Option.getD_some]

theorem name_join (p : Path) {q : Path} (h : q.parts ≠ []) : (p.join q).name = q.name := by
  unfold join
  split
  · rw [name, name, List.getLastD_eq_getLast?, List.getLast?_append_of_ne_nil _ h,
      ← List.getLastD_eq_getLast?]
  · rfl

theorem name_suffix_str {p : Path} (h : p.parts ≠ []) : p.name <:+ p.str := by
  obtain ⟨init, last, hparts⟩ := List.eq_nil_or_concat' p.parts |>.resolve_left h
  have hp : p = ⟨p.root, init ++ [last]⟩ := by rw [← hparts]
  have hstr := str_concat_append p.root init [] last
  rw [List.nil_append] at hstr
  rw [hp, name_concat, hstr]
  exact List.suffix_append _ _

theorem not_mem_stem_parse (s : List Char) : '/' ∉ (parse s).stem := by
  have hname : '/' ∉ (parse s).name := by
    intro hmem
    rw [name, List.getLastD_eq_getLast?] at hmem
    cases hlast : (parse s).parts.getLast? with
    | none =>
      rw [hlast] at hmem
      cases hmem
    | some part =>
      rw [hlast] at hmem
      have hpart : part ∈ s.splitOnP (· == '/') := (List.mem_filter.mp (List.mem_of_getLast? hlast)).1
      exact absurd ((Str.of_mem_splitOnP hpart).1 _ hmem) (by decide)
  intro hmem
  exact hname (stem_append_suffix (parse s) ▸ List.mem_append_left _ hmem)

end Path

end LinuxAnalysis.Lib
