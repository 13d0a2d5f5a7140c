import Analizador.Proofs.Analysis.Lines
import Analizador.Proofs.Analysis.Relocation
import Analizador.Proofs.Program.Outline
import Analizador.Proofs.Reader.Joining
import Analizador.Proofs.Scan.Tiling

/-! # The two views of a program

All that a view shows of a program that was read can be printed, before the analysis and after it:
the values are those that the analysis keeps, and the places are those of tokens. So the graph
description is a rooted tree, and the listing has a message for each of its nodes. The messages are
the lines of the listing, too, unless a text of the program holds a line end. -/

namespace Analizador

/-! ## Places of tokens -/

theorem Spot.following_le (before : List Char) :
    (following before).line ≤ before.length + 1 ∧
      (following before).column ≤ before.length + 1 := by
  have hline : before.count '\n' ≤ before.length := List.count_le_length
  have hcolumn : (before.reverse.takeWhile (· != '\n')).length ≤ before.reverse.length :=
    (List.takeWhile_prefix _).length_le
  rw [List.length_reverse] at hcolumn
  exact ⟨by simp only [following]; omega, by simp only [following]; omega⟩

namespace Scan

/-- The places of tokens are no further on than the text is long. -/
theorem spot_le {code : String} {t : Token} (ht : t ∈ (ofText code).tokens) :
    t.spot.line ≤ code.length ∧ t.spot.column ≤ code.length := by
  obtain ⟨left, htiles, -⟩ := exists_tiles [] code.toList
  obtain ⟨more, hspot, hlength⟩ := htiles.exists_spot ht
  obtain ⟨hline, hcolumn⟩ := Spot.following_le more
  rw [hspot, List.nil_append]
  rw [String.length_toList] at hlength
  omega

end Scan

/-! ## Programs that stay in place -/

/-- A program that was read has no places but those of its tokens: it stays as it is where these
stay. -/
theorem Reading.relocate_eq {code : String} {p : Program} {log : List String}
    (h : Reading.ofText code = .program p log) {f : Spot → Spot}
    (hf : ∀ t ∈ (Scan.ofText code).tokens, f t.spot = t.spot) : p.relocate f = p := by
  have hsame : (Scan.ofText code).tokens.map (Token.relocate f) = (Scan.ofText code).tokens := by
    refine (List.map_congr_left fun t ht => ?_).trans (List.map_id _)
    rw [Token.relocate, hf t ht, id]
  rw [Reading.ofText, Reading.ofScan] at h
  obtain ⟨hstray, m, htakes, hfinish⟩ := Reader.takes_of_run h
  -- The moved reader takes the same tokens and ends with the moved program.
  have hmoved := (htakes.behind ⟨[], [], f⟩).run
    ((Reader.look_behind ⟨[], [], f⟩ m .finish).trans (congrArg (Step.behind _) hfinish))
  rw [hsame] at hmoved
  rw [hstray] at h
  exact (Reading.program.inj ((hmoved _).symm.trans h)).1

/-- The analysis gives the parts of a program no other places. -/
theorem Program.relocate_walk {p : Program} {f : Spot → Spot} (h : p.relocate f = p) :
    (⟨p.walk.part⟩ : Program).relocate f = ⟨p.walk.part⟩ := by
  have hparts := congrArg (·.part) (walk_relocate f p)
  rw [h] at hparts
  exact congrArg Program.mk hparts.symm

/-! ## What views show -/

/-- The line and the column of a place can be printed. -/
def Spot.Prints (spot : Spot) : Prop :=
  (Datum.ofInt spot.line).Prints ∧ (Datum.ofInt spot.column).Prints

theorem Datum.prints_ofText (text : String) : (ofText text).Prints := ⟨text, rfl⟩

theorem Datum.prints_none : none.Prints := ⟨_, rfl⟩

theorem Datum.oneLine_ofText {text : String} (h : Text.OneLine text) : (ofText text).OneLine := by
  rintro _ ⟨⟩
  exact h

theorem Datum.oneLine_none : none.OneLine := by
  rintro _ ⟨⟩
  decide

theorem Datum.oneLine_ofInt (n : Int) : (ofInt n).OneLine := by
  apply Constant.OneLine.render
  simp [Constant.OneLine]

theorem NodeClass.letters_name (cls : NodeClass) : ∀ c ∈ cls.name.toList, c.isAlpha = true := by
  cases cls <;> exact List.all_eq_true.mp rfl

/-- A place that stays can be printed, as far as it is shown. -/
def Spot.StaysPrinted (detailed : Bool) (f : Spot → Spot) : Prop :=
  detailed = true → ∀ spot, f spot = spot → spot.Prints

namespace Facts

/-- What a node shows can be printed if its value and, for detailed listings, its place can. -/
theorem asks_printable {detailed : Bool} {f : Spot → Spot} (hf : Spot.StaysPrinted detailed f) :
    Asks (Printable detailed) (fun s => f s = s) ShowsValue (fun _ => True) where
  node {cls spot _ ty v own attrs} hattrs hspot hvalue hown := by
    have hvalue' : (NodeTree.ofOption .constant v).datum.Prints := by
      cases v with
      | none => exact Datum.prints_none
      | some c => exact Datum.prints_constant_iff.mpr (hvalue c rfl)
    have htype : (NodeTree.ofOption (.text ·.name) ty).datum.Prints := by
      cases ty with
      | none => exact Datum.prints_none
      | some ty => exact Datum.prints_ofText ty.name
    obtain ⟨hattributes, hplaces⟩ := NodeTree.forall_nodeFacts hattrs hvalue' htype
      fun attr hattr hname => by
        obtain ⟨s, hs, -⟩ := hown attr hattr hname
        rw [hs]
        exact Datum.prints_ofText s
    refine ⟨rfl, rfl, cls.letters_name, hattributes, fun hdetailed => ?_⟩
    cases spot with
    | none => exact hplaces Datum.prints_none Datum.prints_none
    | some place =>
      obtain ⟨hline, hcolumn⟩ := hf hdetailed place (hspot place rfl)
      exact hplaces hline hcolumn
  sentence cls attrs := by
    rw [NodeTree.treeFacts_sentence]
    exact ⟨rfl, rfl, List.all_eq_true.mp rfl, by simp, by simp⟩
  unvalued := showsValue_none
  sign _ := trivial
  type _ := trivial

/-- What a node shows is on one line if its texts are. -/
theorem asks_oneLine (place : Spot → Prop) :
    Asks OneLine place (fun v => ∀ c ∈ v, c.OneLine) Text.OneLine where
  node {cls spot _ ty v own attrs} hattrs _ hvalue hown := by
    have hvalue' : (NodeTree.ofOption .constant v).datum.OneLine := by
      cases v with
      | none => exact Datum.oneLine_none
      | some c => exact (hvalue c rfl).render
    have htype : (NodeTree.ofOption (.text ·.name) ty).datum.OneLine := by
      cases ty with
      | none => exact Datum.oneLine_none
      | some ty => exact Datum.oneLine_ofText (by cases ty <;> decide)
    obtain ⟨hattributes, hplaces⟩ := NodeTree.forall_nodeFacts hattrs hvalue' htype
      fun attr hattr hname => by
        obtain ⟨s, hs, hline⟩ := hown attr hattr hname
        rw [hs]
        exact Datum.oneLine_ofText hline
    have hplaces' :
        ∀ slot ∈ [(NodeTree.nodeFacts cls attrs).line, (NodeTree.nodeFacts cls attrs).column],
        ∀ d ∈ slot, d.OneLine := by
      cases spot with
      | none => exact hplaces Datum.oneLine_none Datum.oneLine_none
      | some place => exact hplaces (Datum.oneLine_ofInt _) (Datum.oneLine_ofInt _)
    exact List.forall_mem_append.mpr ⟨hattributes, hplaces'⟩
  sentence cls attrs := by
    rw [NodeTree.treeFacts_sentence]
    simp [OneLine]
  unvalued := by simp
  sign op := by cases op <;> decide
  type ty := by cases ty <;> decide

end Facts

/-! ## Programs that were read -/

theorem Spot.prints_of_lt {spot : Spot} (hline : spot.line < Nat.pow 10 Numeral.digitLimit)
    (hcolumn : spot.column < Nat.pow 10 Numeral.digitLimit) : spot.Prints :=
  ⟨Datum.prints_constant_iff.mpr (Constant.shows_integer hline),
    Datum.prints_constant_iff.mpr (Constant.shows_integer hcolumn)⟩

theorem Numeral.one_lt_pow_digitLimit : 1 < Nat.pow 10 digitLimit := by
  have hpow : ∀ limit, limit ≠ 0 → 1 < Nat.pow 10 limit :=
    fun limit hlimit => Nat.one_lt_pow hlimit (by decide)
  exact hpow digitLimit (by decide)

/-- Some function keeps the places of the tokens of a text and no place that cannot be printed, as
far as places are shown. -/
theorem Scan.exists_staysPrinted {detailed : Bool} {code : String}
    (hdetailed : detailed = true → code.length < Nat.pow 10 Numeral.digitLimit) :
    ∃ f, Spot.StaysPrinted detailed f ∧ ∀ t ∈ (Scan.ofText code).tokens, f t.spot = t.spot := by
  cases detailed with
  | false => exact ⟨id, nofun, fun _ _ => rfl⟩
  | true =>
    have hcode := hdetailed rfl
    have hone := Numeral.one_lt_pow_digitLimit
    generalize hlimit : Nat.pow 10 Numeral.digitLimit = limit at hcode hone
    refine ⟨fun spot => if spot.line < limit ∧ spot.column < limit then spot else .start, ?_, ?_⟩
    · intro _ spot hspot
      dsimp only at hspot
      split at hspot
      next hlt => exact Spot.prints_of_lt (hlimit ▸ hlt.1) (hlimit ▸ hlt.2)
      next =>
        subst hspot
        exact Spot.prints_of_lt (hlimit ▸ hone) (hlimit ▸ hone)
    · intro t ht
      obtain ⟨hline, hcolumn⟩ := Scan.spot_le ht
      exact if_pos ⟨by omega, by omega⟩

/-- Identifiers are on one line. -/
theorem Token.oneLine_of_identifier {t : Token} (hkind : t.kind = .identifier)
    (hreads : t.kind.Reads t.text.toList) : Text.OneLine t.text := by
  rw [hkind] at hreads
  obtain ⟨⟨c, rest, hchars, hstart, hrest⟩, -⟩ := hreads
  rw [Text.OneLine, hchars, List.mem_cons, not_or]
  refine ⟨?_, fun hmem => ?_⟩
  · rintro rfl
    exact absurd hstart (by decide)
  · exact absurd (hrest _ hmem) (by decide)

/-- An operand that is a name comes from an identifier. -/
theorem Token.kind_of_use {t : Token} {n : Name} (hleaf : t.kind ∈ Grammar.leaves)
    (h : t.toExpr = .ok (.use n)) : t.kind = .identifier := by
  by_contra hkind
  have hliteral : t.kind = .integer ∨ t.kind = .decimal ∨ t.kind = .text := by
    simpa [Grammar.leaves, hkind] using hleaf
  unfold toExpr at h
  rcases hliteral with hkind | hkind | hkind <;> rw [hkind] at h
  · obtain ⟨_, -, h⟩ := exists_ok_of_bind h
    cases h
  · obtain ⟨_, -, h⟩ := exists_ok_of_bind h
    cases h
  · cases h

namespace Reading

variable {code : String} {p : Program} {log : List String}

/-- The values of a program that was read can be shown, before the analysis and after it. -/
theorem shows_sites (h : ofText code = .program p log) :
    ∀ q ∈ [p, ⟨p.walk.part⟩], ∀ site ∈ q.sites, ShowsValue site.mark.value := by
  have hinitial := initial_sites h
  have hknown := (keeps_account h (p.sound_shows hinitial)).2.1
  simp only [List.forall_mem_cons, List.not_mem_nil, false_implies, implies_true, and_true]
  exact ⟨fun site hsite => (hinitial site hsite).shows,
    fun site hsite => (hknown site hsite).settled⟩

/-- The names of a program that was read are on one line. -/
theorem oneLine_names (h : ofText code = .program p log) :
    ∀ site ∈ p.sites, ∀ name, site.form = .name name → Text.OneLine name := by
  refine unwalked_sites h ⟨fun t ht hkind name hname => ?_,
    fun t e ht hkind he name hname => ?_, nofun⟩
  · cases hname
    exact Token.oneLine_of_identifier hkind (Scan.ofText_reads ht)
  · rcases Token.toExpr_cases he with ⟨n, -, rfl⟩ | ⟨d, rfl⟩ | ⟨s, rfl⟩ | rfl
    · cases hname
    · cases hname
    · cases hname
    · cases hname
      exact Token.oneLine_of_identifier (Token.kind_of_use hkind he) (Scan.ofText_reads ht)

/-- If the texts of a program that was read are on one line, all that a view shows is, before the
analysis and after it. -/
theorem oneLine_sites (h : ofText code = .program p log)
    (hone : ∀ site ∈ p.sites, site.mark.OneLine) :
    ∀ q ∈ [p, ⟨p.walk.part⟩], ∀ site ∈ q.sites,
      site.Suits (fun v => ∀ c ∈ v, c.OneLine) Text.OneLine := by
  have hnames := oneLine_names h
  have hknown := (keeps_account h (p.sound_oneLine hone)).2.1
  simp only [List.forall_mem_cons, List.not_mem_nil, false_implies, implies_true, and_true]
  refine ⟨fun site hsite => ⟨hone site hsite, hnames site hsite⟩, fun site hsite => ?_⟩
  obtain ⟨hsettled, -, first, hfirst, hform⟩ := hknown site hsite
  exact ⟨hsettled, hform ▸ hnames first hfirst⟩

/-- All that the views show of a program that was read can be printed, before the analysis and after
it. It is on one line if the texts of the program are. -/
theorem met_node (h : ofText code = .program p log) {detailed : Bool}
    (hdetailed : detailed = true → code.length < Nat.pow 10 Numeral.digitLimit) :
    ∀ q ∈ [p, ⟨p.walk.part⟩], q.node.Met (Facts.Printable detailed) ∧
      ((∀ site ∈ p.sites, site.mark.OneLine) → q.node.Met Facts.OneLine) := by
  obtain ⟨f, hf, htokens⟩ := Scan.exists_staysPrinted hdetailed
  have hplace := relocate_eq h htokens
  have hplaces : ∀ q ∈ [p, ⟨p.walk.part⟩], q.relocate f = q := by
    simp only [List.forall_mem_cons, List.not_mem_nil, false_implies, implies_true, and_true]
    exact ⟨hplace, Program.relocate_walk hplace⟩
  refine fun q hq => ⟨?_, fun hone => ?_⟩
  · exact Program.met (Facts.asks_printable hf) (hplaces q hq) fun site hsite =>
      ⟨shows_sites h q hq site hsite, fun _ _ => trivial⟩
  · exact Program.met (Facts.asks_oneLine _) (hplaces q hq) (oneLine_sites h hone q hq)

end Reading

namespace Session

/-- The graph description of a program that was read is a rooted tree, before the analysis and after
it, and the messages of the listing name the classes of its nodes in the order of their numbers. So
do the lines of the listing, if no text of the program holds a line end. Only the line and column
numbers of texts longer than any number that can be printed would stop a detailed listing. -/
theorem views_agree (s : Session) (code : String) (p : Program)
    (hread : (s.parse [] code).2.program = some p) :
    ∀ after ∈ [(s.parse [] code).2, (s.parse [] code).2.analyse.2.2], ∃ (o : Outline) (d : Drawing),
      after.outline? Descent.drawn = some o ∧ Outline.describe (some o) = .ok d.text ∧
        (∀ k, d.incoming k = if 0 < k ∧ k < d.labels.length then 1 else 0) ∧
        d.labels.map labelledClass = o.classes ∧
        ∀ detailed, (detailed = true → code.length < Nat.pow 10 Numeral.digitLimit) →
        ∀ pane, ∃ pane',
          (Display.outline (after.outline? Descent.listed) detailed).perform pane =
            (.ok (), pane') ∧
            pane'.messageClasses = d.labels.map labelledClass ∧
            ((∀ site ∈ p.sites, site.mark.OneLine) →
              pane'.lineClasses = d.labels.map labelledClass) := by
  obtain ⟨log, hreading⟩ := reading_of_parse hread
  obtain ⟨-, hprogram, -⟩ := analyse_of_parse hread
  intro after hafter
  obtain ⟨q, hq, hafterq⟩ : ∃ q ∈ [p, ⟨p.walk.part⟩], after.program = some q := by
    simp only [List.mem_cons, List.not_mem_nil, or_false] at hafter
    rcases hafter with rfl | rfl
    · exact ⟨p, by simp, hread⟩
    · exact ⟨⟨p.walk.part⟩, by simp, hprogram⟩
  have houtline (ways : List Descent) : after.outline? ways = some (q.node.outline ways) := by
    rw [outline?, hafterq]
    rfl
  have hplain : false = true → code.length < Nat.pow 10 Numeral.digitLimit := nofun
  obtain ⟨d, htext, hlabels⟩ := Outline.exists_drawing
    ((Reading.met_node hreading hplain q hq).1.every Descent.regular_drawn)
  refine ⟨q.node.outline Descent.drawn, d, houtline _, htext, d.incoming_eq, hlabels, ?_⟩
  intro detailed hdetailed pane
  obtain ⟨hmet, hone⟩ := Reading.met_node hreading hdetailed q hq
  obtain ⟨pane', hperform, hmessages, hlines⟩ :=
    Display.perform_outline (hmet.every Descent.regular_listed) pane
  rw [hlabels, houtline, ← NodeTree.classes_listed]
  exact ⟨pane', hperform, hmessages,
    fun hsites => hlines ((hone hsites).every Descent.regular_listed)⟩

/-- Nested operations, a text with a mark of nodes in it, and two blocks of a conditional. -/
theorem views_agree_conditional :
    let code := "ent x;x=(1+2)*3;si(x>2)\x7bsout(\"+ b\");\x7doNo\x7brepetir(2)\x7bscan(x);\x7d\x7d"
    let classes := ["ProgramNode", "DeclarationNode", "IdentifierListNode", "IdentifierNode",
      "Tree", "AssignmentNode", "BinaryOpNode", "BinaryOpNode", "NumberNode", "NumberNode",
      "NumberNode", "Tree", "IfNode", "BinaryOpNode", "VariableNode", "NumberNode", "BlockNode",
      "Tree", "PrintNode", "StringNode", "BlockNode", "Tree", "RepeatNode", "BlockNode", "Tree",
      "InputNode"]
    ∀ after ∈ [(empty.parse [] code).2, (empty.parse [] code).2.analyse.2.2], ∃ d : Drawing,
      Outline.describe (after.outline? Descent.drawn) = .ok d.text ∧
        d.labels.map labelledClass = classes ∧
        (∀ k, d.incoming k = if 0 < k ∧ k < 26 then 1 else 0) ∧
        ∀ detailed pane, ∃ pane',
          (Display.outline (after.outline? Descent.listed) detailed).perform pane =
          (.ok (), pane') ∧
            pane'.messageClasses = classes ∧ pane'.lineClasses = classes := by
  intro code classes
  have hclasses : ∀ after ∈ [(empty.parse [] code).2, (empty.parse [] code).2.analyse.2.2],
      (after.outline? Descent.drawn).map Outline.classes = some classes := by
    simp only [List.forall_mem_cons, List.not_mem_nil, false_implies, implies_true, and_true]
    exact ⟨by decide +kernel, by decide +kernel⟩
  obtain ⟨_, hmapped, -⟩ := Option.map_eq_some_iff.mp (hclasses _ List.mem_cons_self)
  obtain ⟨p, hread, -⟩ := Option.map_eq_some_iff.mp hmapped
  have hsites : ∀ site ∈ p.sites, site.mark.OneLine := by
    have hdecides : ((empty.parse [] code).2.program.map fun p =>
        decide (∀ site ∈ p.sites, site.mark.OneLine)) = some true := by
      decide +kernel
    rw [hread] at hdecides
    exact of_decide_eq_true (Option.some.inj hdecides)
  have hlength : code.length < Nat.pow 10 Numeral.digitLimit := by
    have hlimit (k : Nat) (hk : 3 ≤ k) : 10 ^ 3 ≤ Nat.pow 10 k :=
      Nat.pow_le_pow_right (by decide) hk
    exact Nat.lt_of_lt_of_le (by decide) (hlimit Numeral.digitLimit (by decide))
  intro after hafter
  obtain ⟨o, d, ho, htext, hincoming, hlabels, hlisted⟩ :=
    views_agree empty code p hread after hafter
  have hnamed : d.labels.map labelledClass = classes := by
    have hafterClasses := hclasses after hafter
    rw [ho, Option.map_some, Option.some_inj] at hafterClasses
    exact hlabels.trans hafterClasses
  have hcount : d.labels.length = 26 := by
    rw [← List.length_map labelledClass, hnamed]
    rfl
  refine ⟨d, ho ▸ htext, hnamed, ?_, fun detailed pane => ?_⟩
  · rw [← hcount]
    exact hincoming
  · obtain ⟨pane', hperform, hmessages, hlines⟩ := hlisted detailed (fun _ => hlength) pane
    exact ⟨pane', hperform, hmessages.trans hnamed, (hlines hsites).trans hnamed⟩

/-- A text with a line end and a mark of nodes in it: the listing has a line for a node that the
graph description does not have. -/
theorem views_disagree_line_end :
    let after := (empty.parse [] "sout(\"\n+ IfNode \");").2
    let classes := ["ProgramNode", "Tree", "PrintNode", "StringNode"]
    (after.outline? Descent.drawn).map Outline.classes = some classes ∧
      ((Display.outline (after.outline? Descent.listed) false).perform ⟨[]⟩).2.lineClasses =
        classes ++ ["IfNode"] := by
  decide +kernel

end Session

end Analizador
