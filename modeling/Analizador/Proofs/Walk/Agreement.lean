import Analizador.Proofs.Assembly.Parses
import Analizador.Proofs.Walk.Mirror.Statements

/-! # The analysis and the walk over nodes

The analysis of a program and the checking walk over its nodes find the same. From nodes that stand
for the program the two agree on the result, the symbols, the faults and every line of the log, also
on why they stop where they do, and the nodes stand for the analysed program afterwards. -/

namespace Analizador

/-- A text is the same as one of some texts as data exactly if it is among them. -/
theorem Datum.any_same_ofText (names : List String) (name : String) :
    (names.map ofText).any (ofText name).same = names.contains name := by
  rw [List.any_map, List.contains_eq_any_beq]
  rfl

theorem Datum.quotedAll_texts (texts : List String) :
    quotedAll (texts.map ofText) = .ok (texts.map Text.quoted) := by
  induction texts with
  | nil => rfl
  | cons s texts ih =>
    rw [List.map_cons, quotedAll, ih]
    rfl

/-- A list of texts is shown in brackets, each of them quoted. -/
theorem Datum.render_texts (texts : List String) :
    (list (texts.map ofText)).render =
      .ok ("[" ++ ", ".intercalate (texts.map Text.quoted) ++ "]") := by
  change (list (texts.map ofText)).quoted = _
  rw [quoted, quotedAll_texts]
  rfl

/-- A declaration names something. -/
def Item.Named : Item → Prop
  | .declaration _ _ names => names ≠ []
  | .statement _ => True

namespace Analysis

variable {l : Ledger} {lines : List String} {s : Findings} {g : Graph} {d : Datum} {ids : List Nat}

/-! ## Declarations -/

theorem perform_insert_workshop (name : String) (ty : Ty) (spot : Spot) :
    (Work.insert ⟨.ofText name, .ofText ty.name, .none, .ofInt spot.line,
      .ofInt spot.column⟩).perform
        (s.workshop l lines g) =
      match s.table.insert? name ⟨name, ty, none, spot⟩ with
      | none => (.ok false, s.workshop l lines g)
      | some table =>
        let line := s!"[SymbolTable] Insertado símbolo: {name}, tipo: {ty.name}, " ++ "valor: None"
        (.ok true, { s with table, log := s.log ++ [line] }.workshop l lines g) := by
  have hinsert : s.table.recorded.insert? (.ofText name)
      ⟨.ofText name, .ofText ty.name, .none, .ofInt spot.line, .ofInt spot.column⟩ = _ :=
    s.table.insert?_recorded name ⟨name, ty, none, spot⟩
  rw [Work.perform_insert]
  simp only [Findings.workshop, hinsert]
  cases s.table.insert? name ⟨name, ty, none, spot⟩ with
  | none => rfl
  | some table =>
    simp only [← List.append_assoc]
    rfl

theorem perform_declared_workshop (name : String) :
    (modify fun w => { w with declared := w.declared ++ [.ofText name] } : Work Unit).perform
        (s.workshop l lines g) =
      (.ok (), { s with declared := s.declared ++ [name] }.workshop l lines g) := by
  simp [Findings.workshop]

/-- The walk over the node of a name mirrors its declaration. -/
theorem mirrors_declare {ty : Ty} {n : Name} (h : g.Stands (n.node .identifier) d ids)
    (hids : ids.Nodup) :
    Mirrors l lines (declare ty n) (Walk.declare (.ofText ty.name) d) s g fun n' _ g' =>
      n'.text = n.text ∧ g.Becomes d ids (n'.node .identifier) g' := by
  obtain ⟨id, rfl⟩ := h.exists_node
  refine .attr?_bind (h.attr?_plain "name" rfl .rfl) (.get_bind (.perform_bind rfl ?_))
  have hdeclared : (s.workshop l lines g).declared.any (Datum.ofText n.text).same =
      s.declared.contains n.text := Datum.any_same_ofText ..
  rw [hdeclared]
  cases s.declared.contains n.text with
  | true =>
    obtain ⟨hline, hcolumn⟩ := h.attr?_place
    simp only [if_true]
    refine .attr_bind hline (.attr_bind hcolumn (.ok_bind rfl ?_))
    rw [← bind_pure (Work.report _)]
    exact .report_bind (.redeclared n.text n.spot) (.answer ⟨rfl, h.becomes⟩)
  | false =>
    have htype := h.fill_type hids (some ty)
    obtain ⟨hline, hcolumn⟩ := htype.stands.attr?_place
    simp only [Bool.false_eq_true, if_false]
    refine .markName_bind (.setAttr_bind (.attr_bind hline (.attr_bind hcolumn (.get_bind ?_))))
    have hinsert : (Work.insert ⟨.ofText n.text, .ofText ty.name, .none, .ofInt n.spot.line,
        .ofInt n.spot.column⟩).perform (s.workshop l lines _) = _ :=
      perform_insert_workshop (g := g.fill id "type" (.ofType? (some ty))) n.text ty n.spot
    cases htable : s.table.insert? n.text ⟨n.text, ty, none, n.spot⟩ with
    | none =>
      rw [htable] at hinsert
      refine .perform_bind hinsert ?_
      exact .ends rfl (perform_declared_workshop n.text) ⟨rfl, htype⟩
    | some table =>
      rw [htable] at hinsert
      refine .ends (b := ()) rfl ?_ ⟨rfl, htype⟩
      exact (Work.perform_bind_ok hinsert _).trans (perform_declared_workshop n.text)

/-- Names are declared one after the other. -/
theorem mirrors_declareAll {ty : Ty} {names : List Name} {ds : List Datum}
    (h : g.StandsAll (names.map (Name.node .identifier)) ds ids) (hids : ids.Nodup) :
    Mirrors l lines (names.mapM (declare ty)) (ds.forM (Walk.declare (.ofText ty.name))) s g
      fun names' _ g' => names'.map (·.text) = names.map (·.text) ∧
        g.Becomes (.list ds) ids (.list (names'.map (Name.node .identifier))) g' := by
  induction names generalizing s g ds ids with
  | nil =>
    obtain ⟨rfl, rfl⟩ := h
    exact .answer ⟨rfl, ⟨[], rfl, rfl, rfl⟩, fun _ _ => rfl⟩
  | cons n names ih =>
    obtain ⟨d, ds, is, js, rfl, rfl, hfirst, hrest⟩ := h
    obtain ⟨hnodup, hnodup', -⟩ := List.nodup_append.mp hids
    rw [List.mapM_cons]
    refine (mirrors_declare hfirst hnodup).bind ?_
    rintro n' _ s' g' ⟨htext, hbecomes⟩
    refine .map (n' :: ·) ((ih (hbecomes.standsAll_rest hrest hids) hnodup').mono ?_)
    rintro names' _ g'' ⟨htexts, hbecomes'⟩
    exact ⟨congrArg₂ List.cons htext htexts, hbecomes.cons hbecomes' hids⟩

/-- The node of the names of a declaration. -/
abbrev namesNode (ty : Option Ty) (names : List Name) : NodeTree :=
  .ofNode .identifierList none (names.map (Name.node .identifier)) ty none
    [("identifiers", .list (names.map (.text ·.text)))]

theorem map_text_eq (names : List Name) :
    names.map (.text ·.text) = (names.map (·.text)).map NodeTree.text := by
  rw [List.map_map]
  rfl

/-- The node of a list of names has their texts. -/
theorem attr?_identifiers {ty : Option Ty} {names : List Name}
    (h : g.Stands (namesNode ty names) d ids) :
    g.attr? d "identifiers" = some (.list ((names.map (·.text)).map .ofText)) := by
  refine h.attr?_plain "identifiers" rfl fun {e is} => ?_
  rw [map_text_eq]
  simp only [Graph.Stands, Graph.standsAll_texts]
  constructor
  · rintro ⟨_, rfl, rfl, rfl⟩
    exact ⟨rfl, rfl⟩
  · rintro ⟨rfl, rfl⟩
    exact ⟨_, rfl, rfl, rfl⟩

/-- The names of a list are declared alike, one by one. -/
theorem mirrors_declareList {ty : Ty} {old : Option Ty} {names : List Name} (hnames : names ≠ [])
    (h : g.Stands (namesNode old names) d ids) (hids : ids.Nodup) :
    Mirrors l lines (names.mapM (declare ty)) (Walk.declareList (.ofText ty.name) d) s g
      fun names' _ g' => names'.map (·.text) = names.map (·.text) ∧
        g.Becomes d ids (namesNode (some ty) names') g' := by
  obtain ⟨id, rfl⟩ := h.exists_node
  have htype := h.fill_type hids (some ty)
  obtain ⟨_, is, hds, hfocus⟩ := htype.stands.focus hids "children" rfl
  obtain ⟨ds, rfl, hall⟩ := hfocus.stands
  have hsome : (Datum.list ((names.map (·.text)).map .ofText)).isTrue = true := by
    cases names with
    | nil => exact absurd rfl hnames
    | cons n names => rfl
  refine .attr?_bind (attr?_identifiers h) ?_
  simp only [Option.getD_some, hsome, if_true]
  refine .setAttr_bind (.attr_bind hds (.ok_bind (t := ds) rfl ?_))
  refine (mirrors_declareAll hall hfocus.nodup).mono ?_
  rintro names' _ g' ⟨htexts, hbecomes⟩
  have hlist : namesNode (some ty) names' = .ofNode .identifierList none
      (names'.map (Name.node .identifier)) (some ty) none
      [("identifiers", .list (names.map (.text ·.text)))] := by
    rw [namesNode, map_text_eq, htexts, ← map_text_eq]
  refine ⟨htexts, htype.trans ?_⟩
  rw [hlist]
  exact hfocus.becomes hbecomes

/-- The walk over a declared list shows its type and its names. -/
theorem mirrors_identifierList {α : Type} {ty : Ty} {names : List Name}
    (h : g.Stands (namesNode (some ty) names) d ids) (answer : α) :
    Mirrors l lines
      (do
        say "Visitando IdentifierListNode"
        say s!"  Tipo heredado: {ty.name}"
        let list := ", ".intercalate (names.map fun n => Text.quoted n.text)
        say s!"  Identificadores en la lista: [{list}]"
        return answer)
      (Walk.identifierList d) s g fun a _ g' => a = answer ∧ g' = g := by
  have hlist (list : String) : "  Identificadores en la lista: " ++ ("[" ++ list ++ "]") =
      "  Identificadores en la lista: [" ++ list ++ "]" := by
    rw [← String.append_assoc, ← String.append_assoc]
    rfl
  refine .say_bind _ (.attr_bind (h.attr?_plain "type" rfl Graph.stands_type) ?_)
  refine .text_bind rfl (.attr?_bind (attr?_identifiers h) ?_)
  refine .text_bind ?_ (.answer ⟨rfl, rfl⟩)
  rw [Datum.render_texts, List.map_map]
  exact congrArg Except.ok (hlist _)

/-- The walk over the nodes of a declaration mirrors its analysis. -/
theorem mirrors_declaration {ty : Ty} {old : Option Ty} {names : List Name} (hnames : names ≠ [])
    (h : g.Stands (Item.declaration ty old names).node d ids) (hids : ids.Nodup) {depth : Nat}
    (hdepth : 2 * ids.length ≤ depth + 1) :
    Mirrors l lines (item (.declaration ty old names)) (Walk.visitWithin .checking depth d) s g
      fun i' _ g' => g.Becomes d ids i'.node g' := by
  obtain ⟨k, hk, hvisit⟩ := exists_visitWithin_eq h hdepth
  obtain ⟨_, is, hds, hfocus⟩ := h.focus hids "children" rfl
  obtain ⟨_, rfl, ld, _, is, _, rfl, rfl, hlist, rfl, rfl⟩ := hfocus.stands
  have hnodup := hfocus.nodup
  have hfewer := hfocus.fewer
  rw [List.append_nil] at hnodup hfewer
  rw [hvisit, item]
  change Mirrors l lines _ (Walk.declaration _ d) s g _
  refine .attr_bind (h.attr?_plain "var_type" rfl .rfl) (.text_bind rfl (.attr_bind hds ?_))
  refine .ok_bind (t := 1) rfl (.say_bind _ (.ok_bind (t := [ld]) rfl ?_))
  refine ((mirrors_declareList hnames hlist hnodup).discard ()).bind ?_
  rintro names' _ s' g' ⟨-, hbecomes⟩
  have h' : g.Becomes d ids (Item.declaration ty (some ty) names').node g' :=
    hfocus.becomes (hbecomes.cons (Graph.Stands.becomes ⟨[], rfl, rfl, rfl⟩)
      (by rwa [List.append_nil]))
  obtain ⟨j, -, hvisit'⟩ := exists_visitWithin_eq hbecomes.stands (by omega : 2 * is.length ≤ k + 1)
  refine .discard _ (.discard _ (.discard _ ?_))
  rw [hvisit']
  refine (mirrors_identifierList hbecomes.stands _).mono ?_
  rintro _ _ _ ⟨rfl, rfl⟩
  exact h'

/-! ## Programs -/

/-- An item is mirrored. -/
theorem mirrors_item {i : Item} (hi : i.Named) (h : g.Stands i.node d ids) (hids : ids.Nodup)
    {depth : Nat} (hdepth : 2 * ids.length ≤ depth) :
    Mirrors l lines (item i) (Walk.visitWithin .checking depth d) s g fun i' _ g' =>
      g.Becomes d ids i'.node g' := by
  cases i with
  | declaration ty old names => exact mirrors_declaration hi h hids (by omega)
  | statement st =>
    obtain ⟨part, rfl, hpart⟩ := Graph.stands_sentence.mp h
    have hpos : 0 < ids.length := by cases st <;> exact hpart.length_pos
    obtain ⟨k, rfl⟩ : ∃ k, depth = k + 1 := ⟨depth - 1, by omega⟩
    rw [item, ← bind_assoc]
    exact .map Item.statement
      (mirrors_sentence fun s => stmtMirrors st k s g part ids hpart hids (by omega))

theorem kind_item {i : Item} (h : g.Stands i.node d ids) : d.kind = itemClass i := by
  cases i with
  | declaration ty old names =>
    obtain ⟨id, rfl⟩ := h.exists_node
    rfl
  | statement st =>
    obtain ⟨part, rfl, -⟩ := Graph.stands_sentence.mp h
    rfl

/-- The items of a program are walked one after the other. -/
theorem mirrors_items {is : List Item} {ds : List Datum} (his : ∀ i ∈ is, i.Named)
    (h : g.StandsAll (is.map Item.node) ds ids) (hids : ids.Nodup) {depth : Nat}
    (hdepth : 2 * ids.length ≤ depth) (start : Nat) :
    Mirrors l lines (items start is)
      (Walk.programChildren (Walk.visitWithin .checking depth) start ds) s g fun is' _ g' =>
        g.Becomes (.list ds) ids (.list (is'.map Item.node)) g' := by
  induction is generalizing s g ds ids start with
  | nil =>
    obtain ⟨rfl, rfl⟩ := h
    exact .answer (Graph.Stands.becomes ⟨[], rfl, rfl, rfl⟩)
  | cons i is ih =>
    obtain ⟨d, ds, as, bs, rfl, rfl, hfirst, hrest⟩ := h
    obtain ⟨hi, his⟩ := List.forall_mem_cons.mp his
    obtain ⟨hnodup, hnodup', -⟩ := List.nodup_append.mp hids
    rw [List.length_append] at hdepth
    rw [items, Walk.programChildren, kind_item hfirst]
    refine .say_bind _ ((mirrors_item hi hfirst hnodup (by omega)).bind
      fun i' _ s' g' hbecomes => ?_)
    have hrest' := hbecomes.standsAll_rest hrest hids
    refine .map (i' :: ·) ((ih his hrest' hnodup' (by omega) _).mono fun is' _ g'' hbecomes' => ?_)
    exact hbecomes.cons hbecomes' hids

/-- The analysis of a program without the lines around it. -/
def visitProgram (p : Program) : Analysis (Program × Bool) := do
  say "Visitando ProgramNode"
  say s!"  Número de hijos: {p.items.length}"
  let walked ← items 0 p.items
  return (⟨walked⟩, (← get).faults.isEmpty)

theorem perform_forget_workshop (h : s.declared = []) :
    (modify fun w => { w with declared := [] } : Work Unit).perform (s.workshop l lines g) =
      (.ok (), s.workshop l lines g) := by
  simp [Findings.workshop, h]

/-- The walk over the nodes of a program mirrors its analysis, if nothing has been declared or
reported before. -/
theorem mirrors_visitProgram {p : Program} (hp : ∀ i ∈ p.items, i.Named)
    (h : g.Stands p.node d ids) (hids : ids.Nodup) (hdeclared : s.declared = [])
    (hsemantic : l.semantic = []) {depth : Nat} (hdepth : 2 * ids.length ≤ depth + 1) :
    Mirrors l lines (visitProgram p) (Walk.visitWithin .checking depth d) s g fun answer b g' =>
      b = Walk.truth answer.2 ∧ g.Becomes d ids answer.1.node g' := by
  obtain ⟨k, hk, hvisit⟩ := exists_visitWithin_eq h hdepth
  obtain ⟨_, is, hds, hfocus⟩ := h.focus hids "children" rfl
  obtain ⟨ds, rfl, hall⟩ := hfocus.stands
  have hlength : ds.length = p.items.length := by rw [hall.length_eq, List.length_map]
  have hfewer := hfocus.fewer
  rw [hvisit]
  change Mirrors l lines _ (Walk.program _ d) s g _
  refine .say_bind _ (.attr_bind hds (.ok_bind (t := ds.length) rfl ?_))
  rw [hlength]
  refine .say_bind _ (.perform_bind (perform_forget_workshop hdeclared) (.ok_bind (t := ds) rfl ?_))
  refine (mirrors_items hp hall hfocus.nodup (by omega) 0).bind fun items' _ s' g' hbecomes => ?_
  refine .get_bind (.perform_bind rfl (.answer ⟨?_, hfocus.becomes hbecomes⟩))
  simp [Findings.workshop, hsemantic]

/-! ## Listings -/

/-- Two loops that take the same steps, each of which leaves the graph alone. -/
theorem mirrors_forIn {α β : Type} (f : α → β) {step : α → PUnit → Analysis (ForInStep PUnit)}
    {step' : β → PUnit → Work (ForInStep PUnit)}
    (h : ∀ a s, Mirrors l lines (step a .unit) (step' (f a) .unit) s g fun next next' g' =>
      next = .yield .unit ∧ next' = .yield .unit ∧ g' = g) (as : List α) :
    Mirrors l lines (forIn as .unit step) (forIn (as.map f) .unit step') s g fun _ _ g' =>
      g' = g := by
  induction as generalizing s with
  | nil => exact .answer rfl
  | cons a as ih =>
    rw [List.map_cons, List.forIn_cons, List.forIn_cons]
    refine (h a s).bind ?_
    rintro _ _ s' _ ⟨rfl, rfl, rfl⟩
    exact ih

/-- The symbols are listed alike. -/
theorem mirrors_listSymbols : Mirrors l lines listSymbols Work.listRecords s g
    fun symbols records g' => records = symbols.map Symbol.toRecord ∧ g' = g := by
  have hnamed : (s.workshop l lines g).table.named = s.table.named.map _ := s.table.named_recorded
  refine .get_bind (.perform_bind rfl ?_)
  simp only [hnamed, List.length_map]
  refine .say_bind _ ((mirrors_forIn _ (fun entry s' => ?_) s.table.named).bind ?_)
  · exact .sayText_bind _ fun _ _ => .answer ⟨rfl, rfl, rfl⟩
  · rintro _ _ s' _ rfl
    exact .answer ⟨by simp, rfl⟩

end Analysis

namespace Walk

/-- The checking walk over a program with the lines around it: the result, and what is left in the
table. -/
def analyse (d : Datum) : Work Datum := do
  Work.say s!"Iniciando análisis semántico. Tipo de AST: {d.kind}"
  let result ← visit .checking d
  Work.sayText do return s!"Análisis semántico completado. Resultado: {← result.render}"
  let records ← Work.listRecords
  Work.say s!"Símbolos encontrados: {records.length}"
  let records ← Work.listRecords
  for r in records do
    Work.sayText do return s!"  - {← r.name.render} ({← r.ty.render})"
  return result

end Walk

namespace Analysis

theorem program_eq (p : Program) : program p = (do
    say s!"Iniciando análisis semántico. Tipo de AST: {NodeClass.program.name}"
    let answer ← visitProgram p
    say s!"Análisis semántico completado. Resultado: {Constant.truthText answer.2}"
    let symbols ← listSymbols
    say s!"Símbolos encontrados: {symbols.length}"
    let symbols ← listSymbols
    for s in symbols do
      say s!"  - {s.name} ({s.ty.name})"
    return answer) := by
  simp only [program, visitProgram, bind_assoc, pure_bind]

/-- A program is mirrored. -/
theorem mirrors_program {p : Program} (hp : ∀ i ∈ p.items, i.Named)
    (h : g.Stands p.node d ids) (hids : ids.Nodup) (hdeclared : s.declared = [])
    (hsemantic : l.semantic = []) :
    Mirrors l lines (program p) (Walk.analyse d) s g fun answer b g' =>
      b = Walk.truth answer.2 ∧ g.Becomes d ids answer.1.node g' := by
  have hdepth : 2 * ids.length ≤ g.depthBound d := by
    have hlength := h.length_le hids
    have hbound := g.two_mul_nodes_size_le_depthBound d
    omega
  obtain ⟨id, rfl⟩ := h.exists_node
  rw [program_eq]
  refine .say_bind _ ?_
  rw [Walk.visit, bind_assoc]
  refine .perform_bind rfl ((mirrors_visitProgram hp h hids ?_ hsemantic
    (Nat.le_succ_of_le hdepth)).bind ?_)
  · exact hdeclared
  rintro answer _ s₁ g₁ ⟨rfl, hbecomes⟩
  refine .text_bind rfl (mirrors_listSymbols.bind ?_)
  rintro symbols _ s₂ _ ⟨rfl, rfl⟩
  rw [List.length_map]
  refine .say_bind _ (mirrors_listSymbols.bind ?_)
  rintro symbols _ s₃ _ ⟨rfl, rfl⟩
  refine (mirrors_forIn _ (fun symbol s' => ?_) symbols).bind ?_
  · exact .text_bind rfl (.answer ⟨rfl, rfl, rfl⟩)
  · rintro _ _ s' _ rfl
    exact .answer ⟨rfl, hbecomes⟩

end Analysis

/-! ## Agreement -/

/-- The walk over the nodes of a program comes to what the analysis of the program comes to: the
same result or the same failure, and a workshop that is laid out like the findings. Unless it fails,
the nodes stand for the analysed program afterwards, and no other node has changed. -/
theorem Program.walk_eq_analyse {p : Program} {w : Workshop} {l : Ledger} {d : Datum}
    {ids : List Nat} (hp : ∀ i ∈ p.items, i.Named) (hstands : w.graph.Stands p.node d ids)
    (hids : ids.Nodup) (htable : w.table = .empty) (hdeclared : w.declared = [])
    (hledger : w.ledger = some l) (hsemantic : l.semantic = []) :
    ∃ g', (Walk.analyse d).perform w = (p.analyse.1.map fun answer => Walk.truth answer.2,
        p.analyse.2.workshop l w.log g') ∧
      ∀ answer, p.analyse.1 = .ok answer → w.graph.Becomes d ids answer.1.node g' := by
  have hw : w = Analysis.start.workshop l w.log w.graph := by
    obtain ⟨graph, table, ledger, declared, log⟩ := w
    obtain ⟨lexical, syntactic, semantic⟩ := l
    simp_all [Findings.workshop, Analysis.start, Table.recorded_empty]
  have hmirrors :
      Analysis.Mirrors l w.log (Analysis.program p) (Walk.analyse d) Analysis.start w.graph _ :=
    Analysis.mirrors_program hp hstands hids rfl hsemantic
  cases hmirrors with
  | ends hrun hperform h =>
    obtain ⟨rfl, hbecomes⟩ := h
    have hanalyse : p.analyse = _ := hrun
    rw [← hw] at hperform
    rw [hanalyse]
    refine ⟨_, hperform, fun answer hanswer => ?_⟩
    obtain rfl := Except.ok.inj hanswer
    exact hbecomes
  | fails hrun hperform =>
    have hanalyse : p.analyse = _ := hrun
    rw [← hw] at hperform
    rw [hanalyse]
    exact ⟨_, hperform, fun answer hanswer => by cases hanswer⟩

/-- A list of identifiers is not empty. -/
theorem Parse.IsNames.ne_nil {names : List (Token.Of .identifier)} {ts : List Token}
    (h : IsNames names ts) : names ≠ [] := by
  cases h <;> simp

/-- Every declaration that is parsed names something. -/
theorem Parse.IsProgram.named {x : Parse Program} (h : x.IsProgram) :
    ∀ i ∈ x.part.items, i.Named := by
  obtain ⟨hitems⟩ := h
  intro i hi
  obtain ⟨y, hy, rfl⟩ := List.mem_map.mp hi
  cases hitems y hy with
  | declaration hty hnames closing => exact fun h => hnames.ne_nil (List.map_eq_nil_iff.mp h)
  | statement hx => trivial

/-- From the text of a program to what is found in it there are two ways, which come to the same:
its nodes can be built by the rules of its parse tree and walked over, or it can be read and
analysed. -/
theorem Reading.walk_eq_analyse {code : String} {p : Program} {log : List String}
    (h : Reading.ofText code = .program p log) :
    ∃ x : Parse Program, x.IsProgram ∧ x.part = p ∧ x.tokens = (Scan.ofText code).tokens ∧
      ∃ g, (do Walk.analyse (← Assembly.transform x.raw)).perform .empty =
        (p.analyse.1.map fun answer => Walk.truth answer.2, p.analyse.2.workshop .empty log g) := by
  obtain ⟨x, hx, rfl, htokens, hbuilds⟩ := Reading.builds_nodes h
  obtain ⟨d, ids, g, hperform, hstands, hids, -⟩ := hbuilds .empty
  refine ⟨x, hx, rfl, htokens, ?_⟩
  rw [Work.perform_bind_ok hperform]
  obtain ⟨g', hwalk, -⟩ := Program.walk_eq_analyse
    (w := { Workshop.empty with graph := g, log := log })
    (l := .empty) hx.named hstands hids rfl rfl rfl rfl
  exact ⟨g', hwalk⟩

end Analizador
