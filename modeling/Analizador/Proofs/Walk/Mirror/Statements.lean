import Analizador.Proofs.Reader.Shape
import Analizador.Proofs.Walk.Mirror.Expressions

/-! # Statements mirrored

The checking walk over the nodes of a statement mirrors the analysis of the statement, whatever it
holds. For a body this goes from statement to statement: each one changes its own nodes only, so the
nodes of the others stand for what they did. -/

namespace Analizador

/-- Types accept each other as their names do. -/
theorem Datum.accepts_names (target source : Ty) :
    (ofText target.name).accepts (.ofText source.name) = target.accepts source := by
  cases target <;> cases source <;> decide

namespace Walk

/-- What is done with an assignment once its expression and its target are visited. -/
def settle (d : Datum) : Work Datum := do
  let target ← Work.attr d "identifier"
  let name ← Work.attr target "name"
  match ← Work.lookup name with
  | none =>
    Work.reportUndeclared name target
    return truth false
  | some symbol =>
    Work.setAttr target "type" symbol.ty
    let expression ← Work.attr d "expression"
    if ← Work.typeAssignment d symbol expression then
      store (← Work.attr target "name") expression
      return truth true
    else return truth false

theorem assignment_eq (go : Datum → Work Datum) (d : Datum) : assignment go d = (do
    let shown ← match ← Work.attr? (← Work.attr d "identifier") "name" with
      | some name => pure (name.render)
      | none => pure (.ok "?")
    Work.sayText do return s!"Visitando AssignmentNode: {← shown}"
    let _ ← go (← Work.attr d "expression")
    let _ ← go (← Work.attr d "identifier")
    settle d) :=
  rfl

/-- What is done with a conditional once its condition is looked at. -/
def branch (go : Datum → Work Datum) (d condition : Datum) : Work Datum := do
  let _ ← go condition
  if ← Work.expectType .bool (Fault.conditionMessage .si) (← Work.attr d "condition") then
    inScope go d "if_body"
    if (← Work.attr d "else_body").isTrue then inScope go d "else_body"
    return truth true
  else return truth false

theorem conditional_eq (go : Datum → Work Datum) (d : Datum) : conditional go d = (do
    Work.say "Visitando IfNode"
    let condition ← Work.attr d "condition"
    Work.say s!"DEBUG IfNode: condition={condition.kind}"
    match condition with
    | .node .variableUse _ =>
      if ← Work.hasAttr d "if_body" then
        let name ← Work.attr condition "name"
        Work.sayText do
          return s!"¡ADVERTENCIA! La condición del if es sólo una variable: {← name.render}"
    | _ => pure ()
    branch go d condition) :=
  rfl

end Walk

namespace Analysis

variable {l : Ledger} {lines : List String} {s : Findings} {g : Graph} {d : Datum} {ids : List Nat}

/-! ## Assignments -/

/-- The value of a declared variable is changed in its own scope, then its line is written, then the
value is changed in the index. If the line cannot be written, only the first change is made. -/
theorem perform_update_workshop {name : String} {symbol : Symbol}
    (hlookup : s.table.lookup name = some symbol) (value : Option Constant) :
    (Work.update (.ofText name) [("value", .ofConstant? value)]).perform (s.workshop l lines g) =
      let table := s.table.modifyLocated name ({ · with value })
      match Record.updatedLine (.ofText name) (.ofConstant? symbol.value) (.ofConstant? value) with
      | .ok line => (.ok true, { s with
          table := table.modifyIndexed name ({ · with value })
          log := s.log ++ [line] }.workshop l lines g)
      | .error e => (.error e, { s with table }.workshop l lines g) := by
  obtain ⟨number, hnumber, -⟩ := Option.bind_eq_some_iff.mp hlookup
  have hlocate : (s.workshop l lines g).table.locate? (.ofText name) = some number :=
    (s.table.locate?_recorded name).trans hnumber
  have hrecord : (s.workshop l lines g).table.lookup (.ofText name) = some symbol.toRecord := by
    change s.table.recorded.lookup _ = _
    rw [Table.lookup_recorded, hlookup, Option.map_some]
  have hchange (s : Symbol) : ({ s with value } : Symbol).toRecord =
      Work.assignAttrs [("value", .ofConstant? value)] s.toRecord := rfl
  have htable : (s.table.modifyLocated name ({ · with value })).recorded =
      s.table.recorded.modify number (Work.assignAttrs [("value", .ofConstant? value)]) := by
    rw [Table.modifyLocated, hnumber]
    exact Table.recorded_modify s.table hchange number
  have hkey : Work.refusedKey? [("value", .ofConstant? value)] = none := rfl
  have haccepted : Work.accepted [("value", .ofConstant? value)] =
      [("value", .ofConstant? value)] := rfl
  have hrefusal : [("value", Datum.ofConstant? value)].findSome? Work.refusal? = none := rfl
  rw [Work.perform_update, hlocate, hrecord, hkey]
  simp only [haccepted, hrefusal]
  change (match Record.updatedLine (.ofText name) (.ofConstant? symbol.value)
      (.ofConstant? value) with
    | .ok line => _ | .error e => _) = _
  cases Record.updatedLine (.ofText name) (.ofConstant? symbol.value) (.ofConstant? value) with
  | ok line => simp [Findings.workshop, Table.recorded_modifyIndexed _ _ hchange, htable]
  | error e => simp [Findings.workshop, htable]

/-- The value of a variable is changed. -/
theorem Mirrors.update_bind {γ δ : Type} {n : Analysis γ} {y : Bool → Work δ}
    {R : γ → δ → Graph → Prop} {name : String} {symbol : Symbol} (value : Option Constant)
    (hlookup : s.table.lookup name = some symbol)
    (hnext : ∀ s', Mirrors l lines n (y true) s' g R) :
    Mirrors l lines
      (do
        turn (·.modifyLocated name ({ · with value }))
        say (← Record.updatedLine (.ofText name) (.ofConstant? symbol.value) (.ofConstant? value))
        turn (·.modifyIndexed name ({ · with value }))
        n)
      (Work.update (.ofText name) [("value", .ofConstant? value)] >>= y) s g R := by
  have hupdate : (Work.update (.ofText name) [("value", .ofConstant? value)]).perform
      (s.workshop l lines g) = _ := perform_update_workshop hlookup value
  cases hline : Record.updatedLine (.ofText name) (.ofConstant? symbol.value)
    (.ofConstant? value) with
  | ok line =>
    rw [hline] at hupdate
    cases hnext _ with
    | ends hrun hperform h => exact .ends hrun ((Work.perform_bind_ok hupdate y).trans hperform) h
    | fails hrun hperform => exact .fails hrun ((Work.perform_bind_ok hupdate y).trans hperform)
  | error e =>
    rw [hline] at hupdate
    exact .fails rfl (by rw [Work.perform_bind, hupdate])

/-- What is done with an assignment once its target is looked at. -/
def settle (target : Name) (value : Expr) (old : Option Ty) : Analysis (Name × Option Ty) := do
  match (← get).table.lookup target.text with
  | none =>
    report (.undeclared target.text target.spot)
    return (target, old)
  | some symbol =>
    let target ← markName target { target.mark with ty := some symbol.ty }
    match value.ty with
    | none => return (target, old)
    | some source =>
      if symbol.ty.accepts source then
        let text ← shown value.value
        say s!"  Asignando valor {text} a variable {target.text}"
        turn (·.modifyLocated target.text ({ · with value := value.value }))
        say (← Record.updatedLine (.ofText target.text) (.ofConstant? symbol.value)
          (.ofConstant? value.value))
        turn (·.modifyIndexed target.text ({ · with value := value.value }))
        say s!"  ✓ Actualización exitosa para {target.text}: valor={text}"
        return (target, some symbol.ty)
      else
        report (.assignment symbol.ty source)
        return (target, old)

theorem assign_eq (target : Name) (value : Expr) (old : Option Ty) :
    assign target value old = (do settle (← useName target) value old) :=
  rfl

/-- An assignment whose parts have been visited is judged, and the value is stored. -/
theorem mirrors_settle {target : Name} {value : Expr} {ty : Option Ty}
    (h : g.Stands (Stmt.assign target value ty).node d ids) (hids : ids.Nodup) :
    Mirrors l lines (settle target value ty) (Walk.settle d) s g fun answer _ g' =>
      g.Becomes d ids (Stmt.assign answer.1 value answer.2).node g' := by
  obtain ⟨did, rfl⟩ := h.exists_node
  obtain ⟨td, ts, htd, htarget⟩ := h.focus hids "identifier" rfl
  refine .attr_bind htd (.attr_bind (htarget.stands.attr?_plain "name" rfl .rfl) ?_)
  refine .get_bind (.lookup_bind ?_)
  cases hlookup : s.table.lookup target.text with
  | none =>
    obtain ⟨hline, hcolumn⟩ := htarget.stands.attr?_place
    exact .undeclared_bind hline hcolumn (.answer h.becomes)
  | some symbol =>
    obtain ⟨tid, rfl⟩ := htarget.stands.exists_node
    refine .markName_bind (.setAttr_bind ?_)
    have h' := htarget.becomes (htarget.stands.fill_type htarget.nodup (some symbol.ty))
    obtain ⟨ed, es, hed, hvalue⟩ := h'.stands.focus hids "expression" rfl
    refine .attr_bind hed ?_
    rw [Work.typeAssignment, bind_assoc]
    refine .attr_bind hvalue.stands.expr_type ?_
    cases value.ty with
    | none => exact .answer h'
    | some source =>
      have htrue : (Datum.ofType? (some source)).isTrue = true := by cases source <;> decide
      have haccepts : symbol.toRecord.ty.accepts (.ofType? (some source)) =
          symbol.ty.accepts source := Datum.accepts_names symbol.ty source
      simp only [htrue, Bool.not_true, Bool.false_eq_true, if_false, haccepts]
      cases symbol.ty.accepts source with
      | true =>
        have h'' := h'.stands.fill_type hids (some symbol.ty)
        obtain ⟨eid, rfl⟩ := hvalue.stands.expr_node
        -- Types are filled in, which leaves the name and the value where they are.
        have hname := htarget.stands.attr?_plain "name" rfl .rfl
        have hne : "name" ≠ "type" := by decide
        rw [← Graph.attr?_fill_of_ne hne, ← Graph.attr?_fill_of_ne hne] at hname
        have hshown := hvalue.stands.expr_value
        rw [← Graph.attr?_fill_of_ne (show "value" ≠ "type" by decide)] at hshown
        simp only [if_true, bind_assoc, pure_bind]
        refine .setAttr_bind (.attr_bind hname ?_)
        simp only [Walk.store, bind_assoc]
        refine .attr?_bind hshown ?_
        simp only [bind_assoc]
        refine .ok_bind (t := target.text) rfl ?_
        rw [Datum.render_ofConstant?]
        refine .lift_bind _ fun text _ => .say_bind _ (.update_bind _ hlookup fun s' => ?_)
        exact .say_bind _ (.answer (h'.trans h''))
      | false =>
        obtain ⟨hline, hcolumn⟩ := h'.stands.attr?_place
        simp only [Bool.false_eq_true, if_false, bind_assoc, pure_bind]
        exact .ok_bind rfl (.ok_bind rfl (.mismatch_bind hline hcolumn rfl (.answer h')))

/-- A variable gets the value of an expression. -/
theorem mirrors_assign {target : Name} {value : Expr} {ty : Option Ty}
    (h : g.Stands (Stmt.assign target value ty).node d ids) (hids : ids.Nodup) {k : Nat}
    (hk : 2 * ids.length ≤ k + 2) :
    Mirrors l lines (assign target value ty)
      (do
        let _ ← Walk.visitWithin .checking k (← Work.attr d "identifier")
        Walk.settle d) s g fun answer _ g' =>
          g.Becomes d ids (Stmt.assign answer.1 value answer.2).node g' := by
  obtain ⟨td, ts, htd, htarget⟩ := h.focus hids "identifier" rfl
  have huse : Mirrors l lines (useName target) (Walk.visitWithin .checking k td) s g
      fun target' _ g' => g.Becomes td ts (target'.node .variableUse) g' := by
    have hdepth : 2 * ts.length ≤ k + 1 := by
      have hfewer := htarget.fewer
      omega
    obtain ⟨j, -, hvisit⟩ := exists_visitWithin_eq htarget.stands hdepth
    rw [hvisit]
    exact mirrors_useName htarget.stands htarget.nodup
  refine .attr_bind htd (huse.bind fun target' _ s' g' hbecomes => ?_)
  have h' : g.Becomes d ids (Stmt.assign target' value ty).node g' := htarget.becomes hbecomes
  exact (mirrors_settle h'.stands hids).mono fun _ _ _ => h'.trans

/-! ## Conditions and scopes -/

/-- A condition is judged alike. -/
theorem mirrors_guarded {condition : Expr} (h : g.Stands condition.node d ids) (guard : Guard) :
    Mirrors l lines (guarded guard condition)
      (Work.expectType .bool (Fault.conditionMessage guard) d) s g fun fits fits' g' =>
        fits' = fits ∧ g' = g := by
  refine .attr_bind h.expr_type ?_
  unfold guarded
  cases condition.ty with
  | none => exact .answer ⟨rfl, rfl⟩
  | some found =>
    cases found with
    | bool => exact .answer ⟨rfl, rfl⟩
    | ent | dec | cadena =>
      obtain ⟨hline, hcolumn⟩ := h.expr_place
      exact .mismatch_bind hline hcolumn rfl (.answer ⟨rfl, rfl⟩)

theorem perform_enter_workshop : Work.enter.perform (s.workshop l lines g) =
    (.ok (), { s with table := s.table.enter }.workshop l lines g) :=
  rfl

theorem perform_exit_workshop : Work.exit.perform (s.workshop l lines g) =
    (.ok (), { s with table := s.table.exit }.workshop l lines g) := by
  simp [Work.exit, Findings.workshop, Table.recorded_exit]

/-- A part in a scope of its own is mirrored if it is mirrored whatever the table. -/
theorem mirrors_inScope {α : Type} {m : Analysis α} {go : Datum → Work Datum} {slot : String}
    {part : Datum} {Q : α → Graph → Prop} (hpart : g.attr? d slot = some part)
    (h : ∀ s, Mirrors l lines m (go part) s g fun a _ g' => Q a g') :
    Mirrors l lines (inScope m) (Walk.inScope go d slot) s g fun a _ g' => Q a g' := by
  refine .step_bind rfl perform_enter_workshop
    (.attr_bind hpart ((h _).bind fun a _ s' g' hQ => ?_))
  rw [← bind_pure Work.exit]
  exact .step_bind rfl perform_exit_workshop (.answer hQ)

/-! ## Statements -/

/-- A sentence is walked through to its statement. -/
theorem mirrors_sentence {st : Stmt} {depth : Nat} {part : Datum}
    (h : ∀ s, Mirrors l lines (stmt st) (Walk.visitWithin .checking depth part) s g fun st' _ g' =>
      g.Becomes part ids st'.node g') :
    Mirrors l lines (do visitSentence; stmt st)
      (Walk.visitWithin .checking (depth + 1) (.tree "sentencia" [part])) s g fun st' _ g' =>
        g.Becomes (.tree "sentencia" [part]) ids (.sentence st'.node) g' := by
  rw [visitSentence, bind_assoc]
  refine .say_bind _ (.say_bind _ ?_)
  change Mirrors l lines _ (do
    [part].forM fun child => do let _ ← Walk.visitWithin .checking depth child
    return Datum.none) _ g _
  exact .discard _ (.discard _ (.discard _ ((h _).mono fun _ _ _ hbecomes => hbecomes.sentence)))

/-- What it is that the walk over the nodes of a statement mirrors its analysis: from whatever
findings, and as deep as the nodes go. -/
def StmtMirrors (l : Ledger) (lines : List String) (st : Stmt) : Prop :=
  ∀ (depth : Nat) (s : Findings) (g : Graph) (d : Datum) (ids : List Nat), g.Stands st.node d ids →
    ids.Nodup → 2 * ids.length ≤ depth + 1 →
      Mirrors l lines (stmt st) (Walk.visitWithin .checking depth d) s g fun st' _ g' =>
        g.Becomes d ids st'.node g'

/-- The same of some statements, one after the other. -/
def BodyMirrors (l : Ledger) (lines : List String) (body : List Stmt) : Prop :=
  ∀ (depth : Nat) (s : Findings) (g : Graph) (ds : List Datum) (ids : List Nat),
    g.StandsAll (Stmt.nodeAll body) ds ids → ids.Nodup → 2 * ids.length ≤ depth →
      Mirrors l lines (stmts body)
        (ds.forM fun d => do let _ ← Walk.visitWithin .checking depth d) s g fun body' _ g' =>
          g.Becomes (.list ds) ids (.list (Stmt.nodeAll body')) g'

theorem bodyMirrors_nil : BodyMirrors l lines [] := by
  rintro depth s g ds ids ⟨rfl, rfl⟩ - -
  exact .answer ⟨⟨[], rfl, rfl, rfl⟩, fun _ _ => rfl⟩

/-- One statement is walked, and then the others. -/
theorem BodyMirrors.cons {st : Stmt} {body : List Stmt} (hst : StmtMirrors l lines st)
    (hbody : BodyMirrors l lines body) : BodyMirrors l lines (st :: body) := by
  rintro depth s g _ _ ⟨d, ds, is, js, rfl, rfl, hfirst, hrest⟩ hids hdepth
  obtain ⟨hnodup, hnodup', -⟩ := List.nodup_append.mp hids
  obtain ⟨part, rfl, hpart⟩ := Graph.stands_sentence.mp hfirst
  have hpos : 0 < is.length := by cases st <;> exact hpart.length_pos
  rw [List.length_append] at hdepth
  obtain ⟨k, rfl⟩ : ∃ k, depth = k + 1 := ⟨depth - 1, by omega⟩
  have hsentence := mirrors_sentence (s := s) fun s => hst k s g part is hpart hnodup (by omega)
  rw [stmts, ← bind_assoc]
  refine (hsentence.discard ()).bind fun st' _ s' g' hbecomes => ?_
  have hrest' := hbecomes.standsAll_rest hrest hids
  refine .map (st' :: ·)
    ((hbody _ _ _ _ _ hrest' hnodup' (by omega)).mono fun body' _ g'' hrest => ?_)
  exact hbecomes.cons hrest hids

/-- A block is walked statement by statement. -/
theorem BodyMirrors.block {body : List Stmt} (hbody : BodyMirrors l lines body) {depth : Nat}
    {s : Findings} {g : Graph} {d : Datum} {ids : List Nat}
    (h : g.Stands (.block (Stmt.nodeAll body)) d ids) (hids : ids.Nodup)
    (hdepth : 2 * ids.length ≤ depth + 1) :
    Mirrors l lines (do visitBlock body; stmts body) (Walk.visitWithin .checking depth d) s g
      fun body' _ g' => g.Becomes d ids (.block (Stmt.nodeAll body')) g' := by
  obtain ⟨k, hk, hvisit⟩ := exists_visitWithin_eq h hdepth
  rw [hvisit]
  obtain ⟨_, is, hds, hfocus⟩ := h.focus hids "statements" rfl
  obtain ⟨ds, rfl, hall⟩ := hfocus.stands
  have hlength : ds.length = body.length := by
    rw [hall.length_eq, Stmt.nodeAll_eq_map, List.length_map]
  refine .attr_bind hds (.ok_bind (t := ds.length) rfl ?_)
  rw [hlength]
  have hdepth' : 2 * is.length ≤ k := by
    have hfewer := hfocus.fewer
    omega
  refine .say_bind _ (.ok_bind (t := ds) rfl (.discard _ ?_))
  exact (hbody k _ g ds is hall hfocus.nodup hdepth').mono fun _ _ _ => hfocus.becomes

/-- A block in a scope of its own. -/
theorem BodyMirrors.inScope {body : List Stmt} (hbody : BodyMirrors l lines body) {depth : Nat}
    {slot : String} {part : Datum} {is : List Nat} (hpart : g.attr? d slot = some part)
    (h : g.Stands (.block (Stmt.nodeAll body)) part is) (his : is.Nodup)
    (hdepth : 2 * is.length ≤ depth + 1) :
    Mirrors l lines (Analysis.inScope do visitBlock body; stmts body)
      (Walk.inScope (Walk.visitWithin .checking depth) d slot) s g fun body' _ g' =>
        g.Becomes part is (.block (Stmt.nodeAll body')) g' :=
  mirrors_inScope hpart fun _ => hbody.block h his hdepth

/-- An assignment is mirrored. -/
theorem stmtMirrors_assign (target : Name) (value : Expr) (ty : Option Ty) :
    StmtMirrors l lines (.assign target value ty) := by
  intro depth s g d ids h hids hdepth
  obtain ⟨k, hk, hvisit⟩ := exists_visitWithin_eq h hdepth
  obtain ⟨td, ts, htd, htarget⟩ := h.focus hids "identifier" rfl
  obtain ⟨ed, es, hed, hvalue⟩ := h.focus hids "expression" rfl
  rw [hvisit]
  change Mirrors l lines _ (Walk.assignment _ d) s g _
  rw [Walk.assignment_eq]
  refine .attr_bind htd (.attr?_bind (htarget.stands.attr?_plain "name" rfl .rfl) ?_)
  rw [stmt]
  simp only [pure_bind]
  refine .text_bind rfl ?_
  have hfewer := hvalue.fewer
  refine .attr_bind hed ((mirrors_expr value hvalue.stands hvalue.nodup (by omega)).bind
    fun value' _ s' g' hbecomes => ?_)
  have h' : g.Becomes d ids (Stmt.assign target value' ty).node g' := hvalue.becomes hbecomes
  refine .map (fun answer : Name × Option Ty => Stmt.assign answer.1 value' answer.2) ?_
  exact (mirrors_assign h'.stands hids hk).mono fun _ _ _ => h'.trans

/-- A loop is mirrored if its body is. -/
theorem BodyMirrors.whileLoop {body : List Stmt} (hbody : BodyMirrors l lines body)
    (condition : Expr) : StmtMirrors l lines (.whileLoop condition body) := by
  intro depth s g d ids h hids hdepth
  obtain ⟨k, hk, hvisit⟩ := exists_visitWithin_eq h hdepth
  obtain ⟨cd, cs, hcd, hcondition⟩ := h.focus hids "condition" rfl
  rw [hvisit]
  have hfewer := hcondition.fewer
  refine .say_bind _ (.attr_bind hcd ((mirrors_expr condition hcondition.stands hcondition.nodup
    (by omega)).bind fun condition' _ s' g' hbecomes => ?_))
  have h' : g.Becomes d ids (Stmt.whileLoop condition' body).node g' := hcondition.becomes hbecomes
  obtain ⟨cd', cs', hcd', hcondition'⟩ := h'.stands.focus hids "condition" rfl
  refine .attr_bind hcd' ((mirrors_guarded hcondition'.stands .mientras).bind ?_)
  rintro _ fits s'' _ ⟨rfl, rfl⟩
  cases fits with
  | false => exact .answer h'
  | true =>
    obtain ⟨bd, bs, hbd, hfocus⟩ := h'.stands.focus hids "body" rfl
    have hfewer' := hfocus.fewer
    refine .discard _ (.map _ ((hbody.inScope hbd hfocus.stands hfocus.nodup (by omega)).mono
      fun _ _ _ hbody' => h'.trans (hfocus.becomes hbody')))

theorem perform_expectType {expected : Ty} {w : Workshop} (message : String)
    (h : w.graph.attr? d "type" = some (.ofText expected.name)) :
    (Work.expectType expected message d).perform w = (.ok true, w) := by
  rw [Work.expectType, Work.perform_bind_ok (Work.perform_attr h)]
  cases expected <;> rfl

/-- So is a repetition. -/
theorem BodyMirrors.repeatLoop {body : List Stmt} (hbody : BodyMirrors l lines body) (count : Int)
    (spot : Spot) : StmtMirrors l lines (.repeatLoop count spot body) := by
  intro depth s g d ids h hids hdepth
  obtain ⟨k, hk, hvisit⟩ := exists_visitWithin_eq h hdepth
  obtain ⟨cd, cs, hcd, hcount⟩ := h.focus hids "count" rfl
  obtain ⟨bd, bs, hbd, hfocus⟩ := h.focus hids "body" rfl
  have hcount' := hcount.fewer
  have hbody' := hfocus.fewer
  obtain ⟨j, -, hvisit'⟩ := exists_visitWithin_eq hcount.stands (by omega : 2 * cs.length ≤ k + 1)
  rw [hvisit]
  refine .say_bind _ (.attr_bind hcd ?_)
  rw [hvisit']
  refine (mirrors_number hcount.stands).bind fun _ _ s' g' hg' => ?_
  subst hg'
  refine .attr_bind hcd (.perform_bind (perform_expectType _ hcount.stands.expr_type) ?_)
  exact .discard _ (.map _ ((hbody.inScope hbd hfocus.stands hfocus.nodup (by omega)).mono
    fun _ _ _ => hfocus.becomes))

/-- What is done with a conditional once its condition is looked at. -/
def branch (condition : Expr) (body : List Stmt) (other : Option (List Stmt)) : Analysis Stmt := do
  let condition ← expr condition
  if ← guarded .si condition then
    let body ← inScope do visitBlock body; stmts body
    return .conditional condition body (← otherwise other)
  else return .conditional condition body other

/-- What comes after the check of a condition is mirrored if both bodies are. -/
theorem BodyMirrors.branch {body : List Stmt} {other : Option (List Stmt)}
    (hbody : BodyMirrors l lines body) (hother : ∀ b, other = some b → BodyMirrors l lines b)
    {condition : Expr} {k : Nat} {cd : Datum}
    (h : g.Stands (Stmt.conditional condition body other).node d ids) (hids : ids.Nodup)
    (hk : 2 * ids.length ≤ k + 2) (hcd : g.attr? d "condition" = some cd) :
    Mirrors l lines (Analysis.branch condition body other)
      (Walk.branch (Walk.visitWithin .checking k) d cd) s g fun st' _ g' =>
        g.Becomes d ids st'.node g' := by
  obtain ⟨_, cs, hcd', hcondition⟩ := h.focus hids "condition" rfl
  obtain rfl := Option.some.inj (hcd.symm.trans hcd')
  have hfewer := hcondition.fewer
  refine (mirrors_expr condition hcondition.stands hcondition.nodup (by omega)).bind
    fun condition' _ s' g' hbecomes => ?_
  have h' : g.Becomes d ids (Stmt.conditional condition' body other).node g' :=
    hcondition.becomes hbecomes
  obtain ⟨_, _, hcd', hcondition'⟩ := h'.stands.focus hids "condition" rfl
  refine .attr_bind hcd' ((mirrors_guarded hcondition'.stands .si).bind ?_)
  rintro _ fits s'' _ ⟨rfl, rfl⟩
  cases fits with
  | false => exact .answer h'
  | true =>
    obtain ⟨bd, bs, hbd, hfocus⟩ := h'.stands.focus hids "if_body" rfl
    have hfewer' := hfocus.fewer
    refine (hbody.inScope hbd hfocus.stands hfocus.nodup (by omega)).bind
      fun body' _ s₁ g₁ hbecomes' => ?_
    have h₁ : g.Becomes d ids (Stmt.conditional condition' body' other).node g₁ :=
      h'.trans (hfocus.becomes hbecomes')
    obtain ⟨od, os, hod, hfocus'⟩ := h₁.stands.focus hids "else_body" rfl
    refine .attr_bind hod ?_
    cases other with
    | none =>
      obtain ⟨rfl, -⟩ := hfocus'.stands
      exact .answer h₁
    | some b =>
      obtain ⟨oid, rfl⟩ := hfocus'.stands.exists_node
      have hfewer'' := hfocus'.fewer
      rw [otherwise, bind_assoc]
      simp only [pure_bind]
      refine .discard _ (.map _ ?_)
      exact ((hother b rfl).inScope hod hfocus'.stands hfocus'.nodup (by omega)).mono
        fun _ _ _ hother' => h₁.trans (hfocus'.becomes hother')

theorem perform_hasAttr {w : Workshop} {name : String} {value : Datum}
    (h : w.graph.attr? d name = some value) : (Work.hasAttr d name).perform w = (.ok true, w) := by
  have hhas : w.graph.hasAttr d name = true := by rw [Graph.hasAttr, h, Option.isSome_some]
  exact congrArg (fun b => (Except.ok b, w)) hhas

/-- So is a conditional. -/
theorem BodyMirrors.conditional {body : List Stmt} {other : Option (List Stmt)}
    (hbody : BodyMirrors l lines body) (hother : ∀ b, other = some b → BodyMirrors l lines b)
    (condition : Expr) : StmtMirrors l lines (.conditional condition body other) := by
  intro depth s g d ids h hids hdepth
  obtain ⟨k, hk, hvisit⟩ := exists_visitWithin_eq h hdepth
  obtain ⟨cd, cs, hcd, hcondition⟩ := h.focus hids "condition" rfl
  have hbranch (s : Findings) := hbody.branch (s := s) hother h hids hk hcd
  obtain ⟨cid, rfl⟩ := hcondition.stands.expr_node
  rw [hvisit, stmt]
  change Mirrors l lines _ (Walk.conditional _ d) s g _
  rw [Walk.conditional_eq]
  refine .say_bind _ (.attr_bind hcd (.say_bind _ ?_))
  cases condition with
  | use name =>
    obtain ⟨bd, _, hbd, -⟩ := h.focus hids "if_body" rfl
    refine .perform_bind (perform_hasAttr hbd) ?_
    exact .attr_bind (hcondition.stands.attr?_plain "name" rfl .rfl) (.text_bind rfl (hbranch _))
  | number | text | binary => exact hbranch _

theorem stmtMirrors_print (value : Expr) : StmtMirrors l lines (.print value) := by
  intro depth s g d ids h hids hdepth
  obtain ⟨k, hk, hvisit⟩ := exists_visitWithin_eq h hdepth
  obtain ⟨ed, es, hed, hvalue⟩ := h.focus hids "expression" rfl
  rw [hvisit]
  have hfewer := hvalue.fewer
  refine .say_bind _ (.attr_bind hed (.discard _ (.map _ ?_)))
  exact (mirrors_expr value hvalue.stands hvalue.nodup (by omega)).mono fun _ _ _ => hvalue.becomes

theorem stmtMirrors_input (target : Name) : StmtMirrors l lines (.input target) := by
  intro depth s g d ids h hids hdepth
  obtain ⟨k, hk, hvisit⟩ := exists_visitWithin_eq h hdepth
  obtain ⟨td, ts, htd, htarget⟩ := h.focus hids "variable" rfl
  obtain ⟨tid, rfl⟩ := htarget.stands.exists_node
  rw [hvisit]
  refine .map Stmt.input (.say_bind _ (.attr_bind htd ?_))
  rw [Work.typeInput, bind_assoc]
  refine .attr_bind (htarget.stands.attr?_plain "name" rfl .rfl) ?_
  rw [bind_assoc]
  refine .get_bind (.lookup_bind ?_)
  cases s.table.lookup target.text with
  | none =>
    obtain ⟨hline, hcolumn⟩ := htarget.stands.attr?_place
    simp only [Option.map_none, bind_assoc, pure_bind]
    exact .undeclared_bind hline hcolumn (.answer h.becomes)
  | some symbol =>
    have htype := htarget.stands.fill_type htarget.nodup (some symbol.ty)
    simp only [Option.map_some, bind_assoc, pure_bind]
    exact .setAttr_bind (.ends rfl rfl (htarget.becomes htype))

/-- A block as a statement is mirrored if its body is. -/
theorem BodyMirrors.blockStmt {body : List Stmt} (hbody : BodyMirrors l lines body) :
    StmtMirrors l lines (.block body) := by
  intro depth s g d ids h hids hdepth
  rw [stmt, ← bind_assoc]
  exact .map Stmt.block (hbody.block h hids hdepth)

mutual

/-- The walk over the nodes of a statement mirrors its analysis. -/
theorem stmtMirrors : ∀ st : Stmt, StmtMirrors l lines st
  | .assign target value ty => stmtMirrors_assign target value ty
  | .conditional condition body other =>
    (bodyMirrors body).conditional (otherMirrors other) condition
  | .whileLoop condition body => (bodyMirrors body).whileLoop condition
  | .repeatLoop count spot body => (bodyMirrors body).repeatLoop count spot
  | .print value => stmtMirrors_print value
  | .input target => stmtMirrors_input target
  | .block body => (bodyMirrors body).blockStmt
termination_by structural st => st

theorem otherMirrors : ∀ (other : Option (List Stmt)) (body : List Stmt), other = some body →
    BodyMirrors l lines body
  | some body, _, rfl => bodyMirrors body
termination_by structural other => other

/-- The walk over the nodes of a body mirrors its analysis. -/
theorem bodyMirrors : ∀ body : List Stmt, BodyMirrors l lines body
  | [] => bodyMirrors_nil
  | st :: body => (bodyMirrors body).cons (stmtMirrors st)
termination_by structural body => body

end

end Analysis

end Analizador
