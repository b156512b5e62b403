import LinuxAnalysis.Pass.Output
import LinuxAnalysis.Scripts.ReportRoundTrip

/-!
# Reading a report of one function

The parser of a single function searches for the two labels anywhere in the report and takes the first
bracket behind each that is closed in front of a function name.
-/

open LinuxAnalysis.Lib

namespace LinuxAnalysis

namespace IrToAssembly

section Search

/-- Every bracket counts. -/
def Anywhere (_ : Text) : Prop := True

/-- Brackets are not found in white space. -/
theorem FirstAt.drop {ws line before loc rest : Text} (hws : '<' ∉ ws) (hline : OnLine ws)
    (h : FirstAt OnLine (ws ++ line) before loc rest) :
    ∃ before', before = ws ++ before' ∧ FirstAt OnLine line before' loc rest := by
  have hprefix : ∃ before', before = ws ++ before' := by
    rcases List.append_eq_append_iff.mp h.eq with ⟨z, hz, _⟩ | ⟨z, hz, hrest⟩
    · exact ⟨z, hz⟩
    · cases z with
      | nil => exact ⟨[], by rw [hz, List.append_nil, List.append_nil]⟩
      | cons x z =>
        obtain ⟨rfl, _⟩ := List.cons.inj hrest
        rw [hz] at hws
        exact absurd (List.mem_append_right before List.mem_cons_self) hws
  obtain ⟨before', rfl⟩ := hprefix
  refine ⟨before', rfl, ?_, fun hmem => h.side (List.mem_append_right ws hmem), h.nonempty, h.closing,
    h.func, fun b r hb hside hc => ?_⟩
  · have heq := h.eq
    rw [List.append_assoc] at heq
    exact List.append_cancel_left heq
  · have hwhole : OnLine (ws ++ b) := fun hmem => (List.mem_append.mp hmem).elim hline hside
    have hle := h.first (ws ++ b) r (by rw [hb, List.append_assoc]) hwhole hc
    simp only [List.length_append] at hle
    omega

/-- Behind its label the located pattern reads the first location. -/
theorem exec_locatedRE (label : String) {c : Regex.Cursor} {ws line before loc rest : Text}
    (hc : c.rest = label.toList ++ (ws ++ line)) (hws : Blank ws)
    (hfront : OnLine (line.takeWhile Str.isSpace)) (hread : FirstAt OnLine line before loc rest) :
    ∃ func tag v consumed, FuncAt rest tag func v ∧ Regex.exec (locatedRE label) some c =
      some ⟨consumed, v, (2, func) :: (1, loc) :: c.groups⟩ := by
  -- all white space goes with the label
  obtain ⟨more, line', hmore, hfront, hline, hhead⟩ : ∃ more line',
      (∀ a ∈ more, Str.isSpace a = true) ∧ OnLine more ∧ line = more ++ line' ∧
        ∀ a as, line' = a :: as → Str.isSpace a = false := by
    refine ⟨line.takeWhile Str.isSpace, line.dropWhile Str.isSpace, fun a ha =>
      List.mem_takeWhile_imp ha, hfront, List.takeWhile_append_dropWhile.symm, fun a as heq => ?_⟩
    have hnot := List.head?_dropWhile_not Str.isSpace line
    rw [heq] at hnot
    exact hnot
  have hopen : '<' ∉ more := fun h => ne_of_isSpace (hmore '<' h) (by decide) rfl
  rw [hline] at hread
  obtain ⟨before', rfl, hread'⟩ := hread.drop hopen hfront
  obtain ⟨c₁, hc₁⟩ : ∃ d, d = c.advance label.toList (ws ++ line) := ⟨_, rfl⟩
  obtain ⟨c₂, hc₂⟩ : ∃ d, d = c₁.advance (ws ++ more) line' := ⟨_, rfl⟩
  obtain ⟨c₃, hc₃⟩ : ∃ d, d = c₂.advance before' ('<' :: (loc ++ '>' :: rest)) := ⟨_, rfl⟩
  obtain ⟨tag, func, v, hat, hclosed⟩ := exec_closedRE (n := 0) (k := some) (c := c₃)
    (by rw [hc₃]; rfl) hread'.nonempty hread'.closing hread'.func (fun _ _ _ _ _ _ => rfl)
  have hsome : (Regex.exec (closedRE 0) some c₃).isSome = true := by
    rw [hclosed]
    rfl
  have hlazy : Regex.exec (.star false Regex.dot) (Regex.exec (closedRE 0) some) c₂ =
      Regex.exec (closedRE 0) some c₃ := by
    rw [hc₃] at hsome ⊢
    apply Regex.exec_star_lazy (by rw [hc₂]; exact hread'.eq) (fun a ha => bne_iff_ne.mpr ?_)
      (fun pre post hsplit hpost => ?_) hsome
    · rintro rfl
      exact hread'.side ha
    · refine Regex.exec_eq_none fun d hd => ?_
      obtain ⟨behind, hbehind, hcloses⟩ := closes_of_closedRE hd
      have hbehind : post ++ '<' :: (loc ++ '>' :: rest) = '<' :: behind := hbehind
      have hpre : OnLine pre := fun hmem =>
        hread'.side (by rw [hsplit]; exact List.mem_append_left post hmem)
      have hle := hread'.first pre behind (by rw [hread'.eq, hsplit, List.append_assoc, hbehind])
        hpre hcloses
      rw [hsplit, List.length_append] at hle
      exact absurd (List.length_eq_zero_iff.mp (by omega)) hpost
  have hspaces : Regex.exec (.plus true Regex.space)
      (Regex.exec (.star false Regex.dot) (Regex.exec (closedRE 0) some)) c₁ =
      Regex.exec (.star false Regex.dot) (Regex.exec (closedRE 0) some) c₂ := by
    rw [hc₂]
    apply Regex.exec_plus_longest (p := Regex.space)
      (List.append_ne_nil_of_left_ne_nil hws.1 _) (by rw [hc₁, hline, ← List.append_assoc]; rfl)
      (fun a ha => ?_) hhead
    · rw [← hc₂, hlazy]
      exact hsome
    · rcases List.mem_append.mp ha with ha | ha
      · exact hws.2 a ha
      · exact hmore a ha
  have hgroups : c₃.groups = c.groups := by
    rw [hc₃, hc₂, hc₁]
    rfl
  have hlabel : Regex.exec (locatedRE label) some c = Regex.exec (.plus true Regex.space)
      (Regex.exec (.star false Regex.dot) (Regex.exec (closedRE 0) some)) c₁ := by
    rw [hc₁]
    exact Regex.exec_lit hc
  rw [hlabel, hspaces, hlazy, hclosed, hgroups]
  exact ⟨func, tag, v, _, hat, rfl⟩

/-- The text in front of the first word of a line is at most a blank. -/
theorem onLine_takeWhile_shownLine (level : Int) (name : Text) (i : ReportedInst) (more : Text) :
    OnLine ((shownLine level name i ++ more).takeWhile Str.isSpace) := by
  rw [shownLine_eq]
  cases ht : i.text.dropWhile Str.isSpace with
  | nil =>
    rw [List.nil_append, List.cons_append, List.cons_append,
      List.takeWhile_cons_of_pos (show Str.isSpace ' ' = true by decide),
      List.takeWhile_cons_of_neg (show ¬Str.isSpace '<' = true by decide)]
    exact show '\n' ∉ [' '] by decide
  | cons a t =>
    have ha := List.head?_dropWhile_not Str.isSpace i.text
    rw [ht] at ha
    have ha : Str.isSpace a = false := ha
    rw [List.cons_append, List.cons_append, List.takeWhile_cons_of_neg (by rw [ha]; decide)]
    exact List.not_mem_nil

/-- What the located pattern finds in a report whose first label stands in front of an instruction. -/
theorem search_locatedRE {label : String} {content pre name more : Text} {level : Int}
    {i : ReportedInst} (hpre : ¬label.toList <:+: pre) (hblank : ' ' ∉ label.toList)
    (hcontent : content = (pre ++ [' ']) ++ (label.toList ++ ' ' :: (instLine level name i ++ more)))
    (hi : Printed i) (hne : name ≠ []) (hname : ∀ c ∈ name, Str.isSpace c = false) (hopen : '<' ∉ name)
    (hread : HasLocation OnLine (shownLine level name i)) :
    ∃ before loc func m, ReadsAt OnLine (shownLine level name i) before loc func ∧
      Regex.search (locatedRE label) content = some m ∧ groupText m 1 = loc ∧
      groupText m 2 = func := by
  obtain ⟨before, loc, behind, hfirst, hlong, hfunc⟩ := hi.exists_firstAt hne hname hopen hread more
  rw [instLine_split] at hcontent
  have hskip : Regex.search (locatedRE label) content = Regex.searchFrom (locatedRE label)
      ((pre ++ [' ']).reverse ++ []) (label.toList ++ (' ' :: i.text.takeWhile Str.isSpace ++
        (shownLine level name i ++ '\n' :: more))) := by
    rw [Regex.search, hcontent]
    apply Regex.searchFrom_skip
    intro u w heq hw
    exact Regex.exec_lit_eq_none (Str.not_prefix_of_suffix hpre hblank heq hw _)
  obtain ⟨func, tag, v, consumed, hat, hexec⟩ := exec_locatedRE label
    (c := ⟨(pre ++ [' ']).reverse ++ [], label.toList ++ (' ' :: i.text.takeWhile Str.isSpace ++
      (shownLine level name i ++ '\n' :: more)), []⟩) rfl (blank_takeWhile _)
    (onLine_takeWhile_shownLine level name i _) hlong
  obtain ⟨v', _, _, hat'⟩ := hfunc tag func v hat
  refine ⟨before, loc, func, _, ⟨behind, tag, v', hfirst, hat'⟩,
    hskip.trans (Regex.searchFrom_eq_some hexec), rfl, rfl⟩

/-! ## Lines without a location -/

/-- A pattern that begins with a label fails when the only label is followed by no match. -/
theorem search_eq_none {label content pre rest : Text} {rs : List Regex} (hpre : ¬label <:+: pre)
    (hblank : ' ' ∉ label) (hrest : ¬label <:+: rest)
    (hcontent : content = (pre ++ [' ']) ++ (label ++ ' ' :: rest))
    (hat : ∀ c d, c.rest = label ++ ' ' :: rest → ¬Regex.Matches (.cat (.lit label :: rs)) c d) :
    Regex.search (.cat (.lit label :: rs)) content = none := by
  apply Regex.searchFrom_eq_none
  intro u w heq
  by_cases hw : label <+: w
  case neg => exact Regex.exec_lit_eq_none hw
  obtain ⟨w', rfl⟩ := hw
  apply Regex.exec_eq_none
  intro d hd
  rw [hcontent] at heq
  rw [Str.append_label_inj hpre hblank hblank hrest heq] at hd
  exact absurd hd (hat _ d rfl)

theorem matches_locatedRE {label : String} {c d : Regex.Cursor}
    (h : Regex.Matches (locatedRE label) c d) :
    ∃ s u e, c.rest = label.toList ++ (s ++ (u ++ e.rest)) ∧ Blank s ∧ OnLine u ∧
      Regex.Matches (closedRE 0) e d := by
  obtain ⟨_, hlit, _, hspace, _, hdots, hclosed⟩ := h
  obtain ⟨r₁, hr₁, rfl⟩ := Regex.matches_lit.mp hlit
  obtain ⟨s, r₂, hsne, hs, hspaces, rfl⟩ := Regex.matches_plus.mp hspace
  obtain ⟨u, r₃, hu, hdot, rfl⟩ := Regex.matches_star.mp hdots
  refine ⟨s, u, _, ?_, ⟨hsne, hspaces⟩, fun hmem => bne_iff_ne.mp (hdot _ hmem) rfl, hclosed⟩
  rw [hr₁, show r₁ = s ++ r₂ from hs, show r₂ = u ++ r₃ from hu]
  rfl

/-- Behind its label the located pattern fails at an instruction from which no location is read. -/
theorem Printed.not_matches_locatedRE {label : String} {c d : Regex.Cursor} {level : Int}
    {name more : Text} {i : ReportedInst} (hi : Printed i) (hne : name ≠ [])
    (hname : ∀ c ∈ name, Str.isSpace c = false) (hread : ¬HasLocation OnLine (shownLine level name i))
    (hc : c.rest = label.toList ++ ' ' :: (instLine level name i ++ more)) :
    ¬Regex.Matches (locatedRE label) c d := by
  intro h
  have hbroken : '\n' ∈ i.text := by
    by_contra htext
    exact hread ((hi.oneLine htext).hasLocation hne hname (hi.oneLine htext).onLine)
  have hfolded := hi.folded hbroken
  obtain ⟨s, u, e, hrest, hs, hu, hclosed⟩ := matches_locatedRE h
  obtain ⟨behind, hbehind, hcloses⟩ := closes_of_closedRE hclosed
  obtain ⟨a, t, ht, ha, hopen⟩ := hfolded.exists_first
  obtain ⟨z, hz⟩ : ∃ z, shownLine level name i ++ '\n' :: more = a :: z := by
    rw [shownLine_eq, ht]
    exact ⟨_, rfl⟩
  rw [hbehind, hc, instLine_split, hz] at hrest
  obtain ⟨u', hbefore, hu'⟩ := bracket_behind_blanks (w := []) (blank_takeWhile _).2 ha hopen hs hu
    (fun _ h => absurd h List.not_mem_nil) (List.append_cancel_left hrest)
  rw [← hz, List.append_nil] at hbefore
  refine hread (hi.hasLocation_of_long hne hname hbefore hu' hcloses ?_)
  -- the part in front of the bracket ends before the line break of the text
  by_contra hlt
  obtain ⟨v, hv⟩ := List.prefix_of_prefix_length_le
    (show i.text.dropWhile Str.isSpace <+: shownLine level name i ++ '\n' :: more by
      rw [shownLine_eq, List.append_assoc]
      exact List.prefix_append _ _)
    (hbefore ▸ List.prefix_append u' _) (by
      rw [List.length_append] at hlt
      omega)
  exact hu' (by rw [← hv]; exact List.mem_append_left v hfolded.breaks)

/-- From the first line of a text the name behind it is not reached. -/
theorem name_not_reached {text u g m v : Text} (hbreaks : '\n' ∈ text)
    (hlabel : ¬"FUNC=".toList <:+: text) (hu : OnLine u) (hg : '<' ∉ g) :
    (text ++ [' ']) ++ '<' :: m ≠ (u ++ g) ++ ("FUNC=".toList ++ v) := by
  intro h
  have hin (hin : "FUNC=".toList <:+: text ++ [' ']) : False := by
    rw [Str.infix_append_cons_iff (by decide)] at hin
    exact hin.elim hlabel (by decide)
  -- the label stands behind the bracket, so the bracket is in front of it
  obtain ⟨y, hy⟩ : ∃ y, u ++ g = (text ++ [' ']) ++ '<' :: y := by
    rcases List.append_eq_append_iff.mp h with ⟨y, hy, hr⟩ | ⟨y, hy, hr⟩
    · cases y with
      | nil =>
        rw [List.nil_append] at hr
        cases hr
      | cons c y =>
        obtain ⟨rfl, _⟩ := List.cons.inj hr
        exact ⟨y, hy⟩
    · rcases List.append_eq_append_iff.mp hr with ⟨z, rfl, _⟩ | ⟨z, hz, hend⟩
      · exact (hin ⟨u ++ g, z, by rw [hy]; simp⟩).elim
      · cases z with
        | nil =>
          rw [List.append_nil] at hz
          rw [← hz] at hy
          exact (hin ⟨u ++ g, [], by rw [hy]; simp⟩).elim
        | cons c z =>
          obtain ⟨rfl, _⟩ := List.cons.inj hend
          have hmem : '<' ∈ "FUNC=".toList := by
            rw [hz]
            exact List.mem_append_right y List.mem_cons_self
          exact absurd hmem (by decide)
  rcases List.append_eq_append_iff.mp hy with ⟨z, _, hz⟩ | ⟨z, hz, _⟩
  · apply hg
    rw [hz]
    exact List.mem_append_right z List.mem_cons_self
  · apply hu
    rw [hz]
    exact List.mem_append_left z (List.mem_append_left _ hbreaks)

/-- Nor does the pattern that does without a location reach the name over the lines of a text. -/
theorem Printed.not_matches_unlocatedRE {label : String} {c d : Regex.Cursor} {level : Int}
    {name more : Text} {i : ReportedInst} (hi : Printed i) (hbroken : '\n' ∈ i.text)
    (hc : c.rest = label.toList ++ ' ' :: (instLine level name i ++ more)) :
    ¬Regex.Matches (unlocatedRE label) c d := by
  rintro ⟨_, hlit, _, hspace, _, ⟨_, hgroup, rfl⟩, _, hname, rfl⟩
  obtain ⟨r₁, hr₁, rfl⟩ := Regex.matches_lit.mp hlit
  obtain ⟨s, r₂, hsne, hs, hspaces, rfl⟩ := Regex.matches_plus.mp hspace
  obtain ⟨u, r₃, hu, hdot, rfl⟩ := Regex.matches_star.mp hgroup
  obtain ⟨blank, mark, func, hfunc, hblank, hmark, _⟩ := matches_funcRE hname
  have hfolded := hi.folded hbroken
  have hnewline : OnLine u := fun hmem => bne_iff_ne.mp (hdot _ hmem) rfl
  -- the text, the printed bracket and what follows, without the white space in front
  obtain ⟨m, hm⟩ : ∃ m, shownLine level name i ++ '\n' :: more =
      (i.text.dropWhile Str.isSpace ++ [' ']) ++ '<' :: m := by
    rw [shownLine_eq]
    exact ⟨bracketed i.location ++ '>' :: lineEnd level name i.location ++ '\n' :: more, by simp⟩
  have hrest : (' ' :: i.text.takeWhile Str.isSpace) ++ ((i.text.dropWhile Str.isSpace ++ [' ']) ++
      '<' :: m) = s ++ (u ++ (blank ++ (mark ++ ("FUNC=".toList ++ (func ++ d.rest))))) := by
    rw [hc, instLine_split] at hr₁
    rw [← hm, ← hfunc, List.append_cancel_left hr₁, show r₁ = s ++ r₂ from hs, show r₂ = u ++ r₃ from hu]
    rfl
  have hmarked : '<' ∉ mark ∧ ∀ r, (mark ++ ("FUNC=".toList ++ r)).dropWhile Str.isSpace =
      mark ++ ("FUNC=".toList ++ r) := by
    rcases hmark with rfl | ⟨b, rfl, hb⟩
    · exact ⟨List.not_mem_nil, fun _ => rfl⟩
    · refine ⟨?_, fun _ => rfl⟩
      rw [List.mem_append, not_or]
      exact ⟨by decide, fun h => ne_of_isSpace (hb.2 '<' h) (by decide) rfl⟩
  obtain ⟨a, t, ht, ha, _⟩ := hfolded.exists_first
  have hlabel : ¬"FUNC=".toList <:+: i.text.dropWhile Str.isSpace := fun h =>
    hfolded.func (h.trans (List.dropWhile_suffix _).isInfix)
  have hleft : ((i.text.dropWhile Str.isSpace ++ [' ']) ++ '<' :: m).dropWhile Str.isSpace =
      (i.text.dropWhile Str.isSpace ++ [' ']) ++ '<' :: m := by
    rw [ht, List.cons_append, List.cons_append, List.dropWhile_cons_of_neg (by rw [ha]; decide)]
  have hblanks : ∀ a ∈ s, Str.isSpace a = true := hspaces
  have hdrop := congrArg (List.dropWhile Str.isSpace) hrest
  rw [List.dropWhile_append_of_pos (blank_takeWhile _).2, hleft, List.dropWhile_append_of_pos hblanks,
    List.dropWhile_append, List.dropWhile_append_of_pos hblank.2, hmarked.2] at hdrop
  split at hdrop
  · exact name_not_reached (u := []) hfolded.breaks hlabel List.not_mem_nil hmarked.1 hdrop
  · refine name_not_reached (u := u.dropWhile Str.isSpace) (g := blank ++ mark)
      (v := func ++ d.rest) hfolded.breaks hlabel
      (fun hmem => hnewline ((List.dropWhile_suffix _).subset hmem)) (fun hmem => ?_)
      (hdrop.trans (by simp only [List.append_assoc]))
    rcases List.mem_append.mp hmem with hmem | hmem
    · exact ne_of_isSpace (hblank.2 '<' hmem) (by decide) rfl
    · exact hmarked.1 hmem

/-- The first word behind `Function:`. -/
def configuredName (cfg : Config) : Text :=
  ((cfg.functionName ++ "\nOpcode: ".toList).dropWhile Str.isSpace).takeWhile Regex.nonSpace

/-- The line of the configured function goes on to white space in any case. -/
theorem configuredName_split (cfg : Config) : ∃ ws sp tail,
    cfg.functionName ++ "\nOpcode: ".toList = ws ++ (configuredName cfg ++ sp :: tail) ∧
      (∀ a ∈ ws, Str.isSpace a = true) ∧ configuredName cfg ≠ [] ∧ Str.isSpace sp = true := by
  obtain ⟨d, hd⟩ : ∃ d, d = (cfg.functionName ++ "\nOpcode: ".toList).dropWhile Str.isSpace := ⟨_, rfl⟩
  have hsplit : cfg.functionName ++ "\nOpcode: ".toList =
      (cfg.functionName ++ "\nOpcode: ".toList).takeWhile Str.isSpace ++ d := by
    rw [hd, List.takeWhile_append_dropWhile]
  -- the label behind the name keeps the search from running off the end
  have hletter : 'O' ∈ d := by
    have hmem : 'O' ∈ cfg.functionName ++ "\nOpcode: ".toList :=
      List.mem_append_right _ (by decide)
    rw [hsplit] at hmem
    refine (List.mem_append.mp hmem).resolve_left fun h => ?_
    exact absurd (List.mem_takeWhile_imp h) (by decide)
  -- its last blank stops the name
  have hblank : ' ' ∈ d.dropWhile Regex.nonSpace := by
    have hlast : ∃ z, d = z ++ [' '] := by
      have hsuffix := List.dropWhile_suffix Str.isSpace (l := cfg.functionName ++ "\nOpcode: ".toList)
      rw [← hd] at hsuffix
      obtain ⟨u, hu⟩ := hsuffix
      obtain ⟨z, y, rfl⟩ := (List.eq_nil_or_concat d).resolve_left (List.ne_nil_of_mem hletter)
      rw [List.concat_eq_append] at hu ⊢
      have hend : (u ++ z) ++ [y] = (cfg.functionName ++ "\nOpcode:".toList) ++ [' '] := by
        rw [List.append_assoc, hu]
        simp
      rw [List.singleton_inj.mp (List.append_inj' hend rfl).2]
      exact ⟨z, rfl⟩
    obtain ⟨z, hz⟩ := hlast
    have hmem : ' ' ∈ d := by
      rw [hz]
      simp
    rw [← List.takeWhile_append_dropWhile (p := Regex.nonSpace) (l := d)] at hmem
    refine (List.mem_append.mp hmem).resolve_left fun h => ?_
    exact absurd (List.mem_takeWhile_imp h) (by decide)
  obtain ⟨sp, tail, htail⟩ : ∃ sp tail, d.dropWhile Regex.nonSpace = sp :: tail :=
    List.exists_cons_of_ne_nil (List.ne_nil_of_mem hblank)
  have hname : d.takeWhile Regex.nonSpace = configuredName cfg := by
    rw [hd]
    rfl
  refine ⟨(cfg.functionName ++ "\nOpcode: ".toList).takeWhile Str.isSpace, sp, tail, ?_,
    fun a ha => List.mem_takeWhile_imp ha, ?_, ?_⟩
  · rw [← htail, ← hname, List.takeWhile_append_dropWhile]
    exact hsplit
  · rw [← hname]
    cases hcons : d with
    | nil => rw [hcons] at hletter; cases hletter
    | cons x d' =>
      have hx := List.head?_dropWhile_not Str.isSpace (cfg.functionName ++ "\nOpcode: ".toList)
      rw [← hd, hcons] at hx
      have hx : Str.isSpace x = false := hx
      rw [List.takeWhile_cons_of_pos (by rw [Regex.nonSpace, hx]; rfl)]
      exact List.cons_ne_nil _ _
  · have hsp := List.head?_dropWhile_not Regex.nonSpace d
    rw [htail] at hsp
    have hsp : Regex.nonSpace sp = false := hsp
    rwa [Regex.nonSpace, Bool.not_eq_false'] at hsp

/-- The parser finds the configured function. -/
theorem search_functionRE (cfg : Config) (verbose : Bool) (rest : Text) :
    ∃ m, Regex.search functionRE (configuration cfg verbose ++ rest) = some m ∧
      groupText m 1 = configuredName cfg := by
  obtain ⟨ws, sp, tail, hline, hws, hne, hsp⟩ := configuredName_split cfg
  obtain ⟨more, hmore⟩ : ∃ more, more = sp :: tail ++ (configurationRest cfg verbose ++ rest) := ⟨_, rfl⟩
  have hcontent : configuration cfg verbose ++ rest = (configurationTitle ++ ['\n']) ++
      ("Function:".toList ++ ((' ' :: ws) ++ (configuredName cfg ++ more))) := by
    have h : configuration cfg verbose ++ rest = (configurationTitle ++ ['\n']) ++
        ("Function:".toList ++ ' ' :: ((cfg.functionName ++ "\nOpcode: ".toList) ++
          (configurationRest cfg verbose ++ rest))) := by
      rw [configuration, show "\nFunction: ".toList = ['\n'] ++ ("Function:".toList ++ [' ']) from rfl]
      simp only [List.append_assoc, List.cons_append, List.nil_append]
    rw [h, hline, hmore]
    simp only [List.append_assoc, List.cons_append]
  have hskip : Regex.search functionRE (configuration cfg verbose ++ rest) =
      Regex.searchFrom functionRE ((configurationTitle ++ ['\n']).reverse ++ [])
        ("Function:".toList ++ ((' ' :: ws) ++ (configuredName cfg ++ more))) := by
    rw [Regex.search, hcontent]
    apply Regex.searchFrom_skip
    intro u w heq hw
    have hnot : ¬"Function:".toList <:+: configurationTitle := by decide
    exact Regex.exec_lit_eq_none (Str.not_prefix_of_suffix hnot (by decide) heq hw _)
  have hgroup (before : Text) : Regex.exec (.group 1 (.plus true Regex.nonSpace)) some
      ⟨before, configuredName cfg ++ more, []⟩ =
        some ⟨(configuredName cfg).reverse ++ before, more, [(1, configuredName cfg)]⟩ := by
    apply Regex.exec_group_plus_longest hne rfl (fun a ha => List.mem_takeWhile_imp ha) _ rfl
    intro a as heq
    rw [hmore] at heq
    rw [← (List.cons.inj heq).1, Regex.nonSpace, hsp]
    rfl
  have hspaces (before : Text) : Regex.exec (.cat [.star true Regex.space,
      .group 1 (.plus true Regex.nonSpace)]) some
      ⟨before, (' ' :: ws) ++ (configuredName cfg ++ more), []⟩ =
        Regex.exec (.group 1 (.plus true Regex.nonSpace)) some
          ⟨(' ' :: ws).reverse ++ before, configuredName cfg ++ more, []⟩ := by
    apply Regex.exec_star_greedy (p := Regex.space)
      (c := ⟨before, (' ' :: ws) ++ (configuredName cfg ++ more), []⟩) rfl
    · exact List.forall_mem_cons.mpr ⟨by decide, hws⟩
    · intro ys rest' heq hys hspace
      -- the name begins with another character
      cases ys with
      | nil => exact absurd rfl hys
      | cons y ys =>
        cases hname : configuredName cfg with
        | nil => exact absurd hname hne
        | cons x name =>
          have hx : Regex.nonSpace x = true := by
            have hmem : x ∈ configuredName cfg := by
              rw [hname]
              exact List.mem_cons_self
            exact List.mem_takeWhile_imp hmem
          have hy : Str.isSpace y = true := hspace y List.mem_cons_self
          rw [hname] at heq
          rw [← (List.cons.inj heq).1] at hy
          rw [Regex.nonSpace, hy] at hx
          cases hx
    · show (Regex.exec (.group 1 (.plus true Regex.nonSpace)) some ⟨_, _, []⟩).isSome = true
      rw [hgroup]
      rfl
  have hlit (before : Text) : Regex.exec functionRE some ⟨before, "Function:".toList ++
      ((' ' :: ws) ++ (configuredName cfg ++ more)), []⟩ = some
        ⟨(configuredName cfg).reverse ++ ((' ' :: ws).reverse ++ ("Function:".toList.reverse ++ before)),
          more, [(1, configuredName cfg)]⟩ :=
    (Regex.exec_lit rfl).trans ((hspaces _).trans (hgroup _))
  exact ⟨_, hskip.trans (Regex.searchFrom_eq_some (hlit _)), rfl⟩

end Search

/-! ## What is read of a function -/

/-- The location and the function name taken from a line. -/
structure LineReading where
  location : Text
  func : Text

/-- What is read from the lines of a function; a block of one instruction gives it for both ends. -/
structure ReadsEnds (B : Text → Prop) (level : Int) (f : ReportedFunction)
    (e l : LineReading) : Prop where
  earliest : ∃ before, ReadsAt B (shownLine level f.name f.earliest) before e.location e.func
  single : f.latest = none → l = e
  latest : ∀ i, f.latest = some i →
    ∃ before, ReadsAt B (shownLine level f.name i) before l.location l.func

/-- The record with what is read for a function. -/
def LineReading.record [Unicode] (function : Text) (e l : LineReading) :
    Option (Except Text ParsedResult) :=
  IrToAssembly.record function e.func e.location l.func l.location

section Readings

theorem FuncAt.unique {s label₁ func₁ v₁ label₂ func₂ v₂ : Text} (h₁ : FuncAt s label₁ func₁ v₁)
    (h₂ : FuncAt s label₂ func₂ v₂) : func₁ = func₂ := by
  obtain ⟨_, hrest⟩ := Str.append_cons_inj (h₁.not_mem_label (c := '=') (by decide) (by decide))
    (h₂.not_mem_label (by decide) (by decide)) (h₁.eq.symm.trans h₂.eq)
  -- a name ends where white space begins
  have hend {func v : Text} (hfunc : ∀ c ∈ func, Str.isSpace c = false)
      (hstop : ∀ a as, v = a :: as → Str.isSpace a = true) :
      func = (func ++ v).takeWhile fun c => !Str.isSpace c := by
    have hfunc : ∀ c ∈ func, (!Str.isSpace c) = true := fun c hc => by rw [hfunc c hc]; rfl
    rw [List.takeWhile_append_of_pos hfunc]
    cases v with
    | nil => simp
    | cons a as => simp [hstop a as rfl]
  rw [hend h₁.func h₁.stop, hend h₂.func h₂.stop, hrest]

theorem ReadsAt.unique {B : Text → Prop} {line before₁ before₂ : Text} {x y : LineReading}
    (h₁ : ReadsAt B line before₁ x.location x.func) (h₂ : ReadsAt B line before₂ y.location y.func) :
    x = y := by
  obtain ⟨rest₁, label₁, v₁, hfirst₁, hat₁⟩ := h₁
  obtain ⟨rest₂, label₂, v₂, hfirst₂, hat₂⟩ := h₂
  obtain ⟨_, hloc, rfl⟩ := hfirst₁.unique hfirst₂
  cases x
  cases y
  exact LineReading.mk.injEq .. ▸ ⟨hloc, hat₁.unique hat₂⟩

/-- One reading at most. -/
theorem ReadsEnds.unique {B : Text → Prop} {level : Int} {f : ReportedFunction}
    {e₁ l₁ e₂ l₂ : LineReading} (h₁ : ReadsEnds B level f e₁ l₁) (h₂ : ReadsEnds B level f e₂ l₂) :
    e₁ = e₂ ∧ l₁ = l₂ := by
  obtain ⟨_, he₁⟩ := h₁.earliest
  obtain ⟨_, he₂⟩ := h₂.earliest
  have he : e₁ = e₂ := he₁.unique he₂
  refine ⟨he, ?_⟩
  cases hlatest : f.latest with
  | none => rw [h₁.single hlatest, h₂.single hlatest, he]
  | some i =>
    obtain ⟨_, hl₁⟩ := h₁.latest i hlatest
    obtain ⟨_, hl₂⟩ := h₂.latest i hlatest
    exact hl₁.unique hl₂

theorem ReadsAt.hasLocation {B : Text → Prop} {line before loc func : Text}
    (h : ReadsAt B line before loc func) : HasLocation B line := by
  obtain ⟨rest, _, _, hfirst, _⟩ := h
  exact ⟨before, _, hfirst.eq, hfirst.side, loc, rest, rfl, hfirst.nonempty, hfirst.closing, hfirst.func⟩

theorem ReadsEnds.hasLocations {B : Text → Prop} {level : Int} {f : ReportedFunction}
    {e l : LineReading} (h : ReadsEnds B level f e l) : HasLocations B level f := by
  obtain ⟨_, he⟩ := h.earliest
  refine ⟨he.hasLocation, fun i hi => ?_⟩
  obtain ⟨_, hl⟩ := h.latest i hi
  exact hl.hasLocation

/-- What counts in front of a bracket matters for the beginnings of the lines only. -/
theorem ReadsEnds.of_sides {A B : Text → Prop} {level : Int} {f : ReportedFunction} {e l : LineReading}
    (hf : Shown f) (hAB : ∀ line b, OnLine line → b <+: line → (A b ↔ B b))
    (h : ReadsEnds A level f e l) : ReadsEnds B level f e l := by
  have hsides {i : ReportedInst} (hi : OneLine i) {x : LineReading} :
      (∃ before, ReadsAt A (shownLine level f.name i) before x.location x.func) →
        ∃ before, ReadsAt B (shownLine level f.name i) before x.location x.func := by
    rintro ⟨before, hread⟩
    exact ⟨before, hread.of_sides fun b hb => hAB _ b (hi.onLine_shownLine hf.name) hb⟩
  exact ⟨hsides hf.earliest h.earliest, h.single, fun i hi => hsides (hf.latest i hi) (h.latest i hi)⟩

end Readings

/-! ## The parser of one function -/

/-- The text in front of the label of the earliest instruction. -/
def beforeEarliest (r : Report) (f : ReportedFunction) : Text :=
  r.trace ++ r.levelStatistics ++ '\n' :: (f.name ++ ":\n ".toList)

/-- The text in front of the label of the latest instruction. -/
def beforeLatest (r : Report) (f : ReportedFunction) : Text :=
  beforeEarliest r f ++ ' ' :: ("Earliest:".toList ++ ' ' :: (instLine r.level f.name f.earliest ++ [' ']))

/-- The labels of the only function are the first ones of the report, and the phrase of a block of one
instruction stands nowhere else. -/
structure InPlace (r : Report) (f : ReportedFunction) : Prop where
  earliest : ¬"Earliest:".toList <:+: beforeEarliest r f
  latest : f.latest ≠ none → ¬"Latest:".toList <:+: beforeLatest r f
  phrase : f.latest ≠ none → ¬sameInstructionPhrase <:+: r.print

/-- What the parser of one function makes of a record. -/
def singleParsed : Except Text ParsedResult → Parsed
  | .ok r => .single r
  | .error message => .error message

theorem print_earliest {r : Report} {f : ReportedFunction} (hf : r.functions = [f]) :
    r.print = (beforeEarliest r f ++ [' ']) ++ ("Earliest:".toList ++ ' ' ::
      (instLine r.level f.name f.earliest ++
        (f.latestText r.level ++ (r.countStatistics ++ r.spanDetails)))) := by
  rw [Report.print, hf, List.flatMap_singleton, ReportedFunction.print_eq, ReportedFunction.block,
    beforeEarliest, show ":\n ".toList = [':', '\n', ' '] from rfl]
  simp only [List.append_assoc, List.cons_append, List.nil_append]

theorem print_latest {r : Report} {f : ReportedFunction} (hf : r.functions = [f]) {i : ReportedInst}
    (hi : f.latest = some i) : r.print = (beforeLatest r f ++ [' ']) ++ ("Latest:".toList ++ ' ' ::
      (instLine r.level f.name i ++ (r.countStatistics ++ r.spanDetails))) := by
  rw [print_earliest hf, ReportedFunction.latestText, hi, beforeLatest,
    show "  Latest: ".toList = ' ' :: ' ' :: ("Latest:".toList ++ [' ']) from rfl]
  simp only [List.append_assoc, List.cons_append, List.nil_append]

variable [Unicode]

/-- When a location is read from both lines, these give the record. -/
theorem parseSingleFunction_of_read {r : Report} {f : ReportedFunction} (hf : r.functions = [f])
    (hshown : Displayed f) (hplace : InPlace r f) (hread : HasLocations OnLine r.level f)
    (function : Text) : ∃ e l, ReadsEnds OnLine r.level f e l ∧
      parseSingleFunction r.print function = (LineReading.record function e l).map singleParsed := by
  obtain ⟨before, loc, func, m, hreads, hsearch, hloc, hfunc⟩ := search_locatedRE hplace.earliest
    (by decide) (print_earliest hf) hshown.ends.earliest hshown.nonempty hshown.name hshown.plain
    hread.earliest
  cases hlatest : f.latest with
  -- one instruction: the phrase is in the text and the latest line is not searched
  | none =>
    have hphrase : Str.contains sameInstructionPhrase r.print = true := by
      rw [Str.contains_iff_infix, print_earliest hf, ReportedFunction.latestText, hlatest]
      exact ⟨(beforeEarliest r f ++ [' ']) ++ ("Earliest:".toList ++ ' ' ::
        (instLine r.level f.name f.earliest ++ "  ".toList)),
        '\n' :: (r.countStatistics ++ r.spanDetails), by
          simp only [List.append_assoc, List.cons_append, List.nil_append]
          rfl⟩
    refine ⟨⟨loc, func⟩, ⟨loc, func⟩, ⟨⟨before, hreads⟩, fun _ => rfl, fun i hi => ?_⟩, ?_⟩
    · rw [hlatest] at hi
      cases hi
    · unfold parseSingleFunction
      rw [hsearch]
      dsimp only
      rw [if_pos hphrase, hloc, hfunc]
      rfl
  | some i =>
    have hsome : f.latest ≠ none := fun h => by rw [hlatest] at h; cases h
    have hphrase : Str.contains sameInstructionPhrase r.print = false := by
      rw [← Bool.not_eq_true, Str.contains_iff_infix]
      exact hplace.phrase hsome
    obtain ⟨before', loc', func', m', hreads', hsearch', hloc', hfunc'⟩ := search_locatedRE
      (hplace.latest hsome) (by decide) (print_latest hf hlatest)
      (hshown.ends.latest i hlatest) hshown.nonempty hshown.name hshown.plain (hread.latest i hlatest)
    refine ⟨⟨loc, func⟩, ⟨loc', func'⟩, ⟨⟨before, hreads⟩, fun h => absurd h hsome,
      fun i' hi' => ?_⟩, ?_⟩
    · obtain rfl := Option.some.inj (hlatest.symm.trans hi')
      exact ⟨before', hreads'⟩
    · unfold parseSingleFunction
      rw [hsearch]
      dsimp only
      rw [if_neg (by rw [hphrase]; decide), hsearch']
      dsimp only
      rw [hloc, hfunc, hloc', hfunc']
      rfl

/-- From instructions on one line both locations are read. -/
theorem parseSingleFunction_print {r : Report} {f : ReportedFunction} (hf : r.functions = [f])
    (hshown : Shown f) (hplace : InPlace r f) (function : Text) :
    ∃ e l, ReadsEnds Anywhere r.level f e l ∧
      parseSingleFunction r.print function = (LineReading.record function e l).map singleParsed := by
  obtain ⟨e, l, hreads, hparse⟩ := parseSingleFunction_of_read hf hshown.displayed hplace
    (hshown.hasLocations r.level fun i hi => hi.onLine) function
  refine ⟨e, l, hreads.of_sides hshown (fun line b hline hb => iff_of_true ?_ trivial), hparse⟩
  exact fun hmem => hline (hb.subset hmem)

/-- The labels of a function of several lines stand nowhere behind it. -/
structure LastLabels (r : Report) (f : ReportedFunction) : Prop where
  earliest : '\n' ∈ f.earliest.text → ¬"Earliest:".toList <:+: instLine r.level f.name f.earliest ++
    (f.latestText r.level ++ (r.countStatistics ++ r.spanDetails))
  latest : ∀ i, f.latest = some i → '\n' ∈ i.text → ¬"Latest:".toList <:+:
    instLine r.level f.name i ++ (r.countStatistics ++ r.spanDetails)

omit [Unicode] in
/-- Neither pattern finds an instruction from which no location is read. -/
theorem search_printed_eq_none {label : String} {content pre name more : Text} {level : Int}
    {i : ReportedInst} (hpre : ¬label.toList <:+: pre) (hblank : ' ' ∉ label.toList)
    (hcontent : content = (pre ++ [' ']) ++ (label.toList ++ ' ' :: (instLine level name i ++ more)))
    (hi : Printed i) (hne : name ≠ []) (hname : ∀ c ∈ name, Str.isSpace c = false)
    (hrest : '\n' ∈ i.text → ¬label.toList <:+: instLine level name i ++ more)
    (hread : ¬HasLocation OnLine (shownLine level name i)) :
    Regex.search (locatedRE label) content = none ∧
      Regex.search (unlocatedRE label) content = none := by
  have hbroken : '\n' ∈ i.text := by
    by_contra htext
    exact hread ((hi.oneLine htext).hasLocation hne hname (hi.oneLine htext).onLine)
  constructor
  · exact search_eq_none hpre hblank (hrest hbroken) hcontent fun c d hc =>
      hi.not_matches_locatedRE hne hname hread hc
  · exact search_eq_none hpre hblank (hrest hbroken) hcontent fun c d hc =>
      hi.not_matches_unlocatedRE hbroken hc

/-- When from a line no location is read, the parser aborts. -/
theorem parseSingleFunction_eq_none {r : Report} {f : ReportedFunction} (hf : r.functions = [f])
    (hshown : Displayed f) (hplace : InPlace r f) (hlast : LastLabels r f)
    (hread : ¬HasLocations OnLine r.level f) (function : Text) :
    parseSingleFunction r.print function = none := by
  by_cases hearliest : HasLocation OnLine (shownLine r.level f.name f.earliest)
  case neg =>
    obtain ⟨hlocated, hunlocated⟩ := search_printed_eq_none hplace.earliest (by decide)
      (print_earliest hf) hshown.ends.earliest hshown.nonempty hshown.name hlast.earliest hearliest
    unfold parseSingleFunction
    rw [hlocated]
    dsimp only
    rw [hunlocated]
    rfl
  obtain ⟨i, hi, hlatest⟩ := exists_latest_of_not hearliest hread
  have hsome : f.latest ≠ none := fun h => by rw [hi] at h; cases h
  have hphrase : Str.contains sameInstructionPhrase r.print = false := by
    rw [← Bool.not_eq_true, Str.contains_iff_infix]
    exact hplace.phrase hsome
  obtain ⟨_, _, _, m, _, hsearch, _⟩ := search_locatedRE hplace.earliest (by decide) (print_earliest hf)
    hshown.ends.earliest hshown.nonempty hshown.name hshown.plain hearliest
  obtain ⟨hlocated, hunlocated⟩ := search_printed_eq_none (hplace.latest hsome) (by decide)
    (print_latest hf hi) (hshown.ends.latest i hi) hshown.nonempty hshown.name (hlast.latest i hi) hlatest
  unfold parseSingleFunction
  rw [hsearch]
  dsimp only
  rw [if_neg (by rw [hphrase]; decide), hlocated]
  dsimp only
  rw [hunlocated]
  rfl

omit [Unicode] in
/-- The configuration stands in front of the report. -/
theorem search_functionRE_print {r : Report} {cfg : Config} {verbose : Bool} {trace : Text}
    (htrace : r.trace = configuration cfg verbose ++ trace) :
    ∃ m, Regex.search functionRE r.print = some m ∧ groupText m 1 = configuredName cfg := by
  have hprint : r.print = configuration cfg verbose ++ (trace ++ (r.levelStatistics ++
      (r.functions.flatMap (ReportedFunction.print r.level) ++
        (r.countStatistics ++ r.spanDetails)))) := by
    rw [Report.print, htrace]
    simp only [List.append_assoc]
  rw [hprint]
  exact search_functionRE cfg verbose _

end IrToAssembly

end LinuxAnalysis
