import Analizador.Proofs.Walk.Expressions
import Analizador.Proofs.Walk.Mirror

/-! # Expressions mirrored

From nodes that stand for an expression the checking walk mirrors the analysis of the expression
step by step, and the nodes stand for the analysed expression afterwards; no other node is changed.
-/

namespace Analizador

theorem Datum.render_ofConstant? (value : Option Constant) :
    (ofConstant? value).render = Analysis.shown value := by
  cases value <;> rfl

theorem Datum.isText_ofType? (ty : Option Ty) (expected : Ty) :
    (ofType? ty).isText expected.name = decide (ty = some expected) := by
  cases ty with
  | none => rfl
  | some ty => cases ty <;> cases expected <;> decide

namespace Analysis

variable {l : Ledger} {lines : List String} {s : Findings} {g : Graph} {d : Datum} {ids : List Nat}

/-! ## Names and literals -/

theorem mirrors_number {n : Constant.Number} {spot : Spot}
    (h : g.Stands (Expr.number n spot).node d ids) :
    Mirrors l lines (visitNumber n) (Walk.literal NodeClass.number.name d) s g fun _ _ g' =>
      g' = g := by
  refine .attr_bind h.expr_value (.lift_bind _ fun text _ => .attr_bind h.expr_type ?_)
  rw [← bind_pure (say _)]
  exact .text_bind rfl (.answer rfl)

section Reports

variable {γ δ : Type} {name : String} {spot : Spot} {n : Unit → Analysis γ} {y : Unit → Work δ}
  {R : γ → δ → Graph → Prop}

theorem Mirrors.undeclared_bind (hline : g.attr? d "line" = some (.ofInt spot.line))
    (hcolumn : g.attr? d "column" = some (.ofInt spot.column))
    (hnext : Mirrors l lines (n ()) (y ())
      { s with faults := s.faults ++ [.undeclared name spot] } g R) :
    Mirrors l lines (report (.undeclared name spot) >>= n)
      (Work.reportUndeclared (.ofText name) d >>= y) s g R := by
  rw [Work.reportUndeclared, bind_assoc]
  refine .attr_bind hline ?_
  rw [bind_assoc]
  exact .attr_bind hcolumn (.report_bind _ hnext)

theorem Mirrors.mismatch_bind {f : Fault} {expected found line column : Datum} {message : String}
    (hline : g.attr? d "line" = some line) (hcolumn : g.attr? d "column" = some column)
    (hf : f.diagnostic = ⟨.mismatch expected found, .ofText message, line, column⟩)
    (hnext : Mirrors l lines (n ()) (y ()) { s with faults := s.faults ++ [f] } g R) :
    Mirrors l lines (report f >>= n)
      (Work.reportMismatch expected found message d >>= y) s g R := by
  rw [Work.reportMismatch, bind_assoc]
  refine .attr_bind hline ?_
  rw [bind_assoc]
  refine .attr_bind hcolumn ?_
  rw [← hf]
  exact .report_bind f hnext

end Reports

theorem mirrors_useName {n : Name} {cls : NodeClass} (h : g.Stands (n.node cls) d ids)
    (hids : ids.Nodup) : Mirrors l lines (useName n) (Walk.variableUse d) s g
      fun n' _ g' => g.Becomes d ids (n'.node cls) g' := by
  obtain ⟨id, rfl⟩ := h.exists_node
  refine .attr_bind (h.attr?_plain "name" rfl .rfl) (.text_bind rfl (.get_bind (.lookup_bind ?_)))
  cases s.table.lookup n.text with
  | none =>
    obtain ⟨hline, hcolumn⟩ := h.attr?_place
    exact .undeclared_bind hline hcolumn (.answer h.becomes)
  | some symbol =>
    have htype := h.fill_type hids (some symbol.ty)
    have hvalue := htype.stands.fill_value hids symbol.value
    refine .markName_bind
      (.setAttr_bind (.markName_bind (.setAttr_bind (.text_bind rfl (.answer ?_)))))
    exact htype.trans hvalue

/-! ## Operations -/

theorem run_trials (op : Operator) (cs : List Constant) (s : Findings) :
    (cs.forM fun c => note (.trial op c)).run s = (.ok (), s) := by
  induction cs generalizing s with
  | nil => rfl
  | cons c cs ih => exact ih s

theorem run_lines (ls : List String) (s : Findings) :
    (ls.forM say).run s = (.ok (), { s with log := s.log ++ ls }) := by
  induction ls generalizing s with
  | nil => rw [List.append_nil]; rfl
  | cons line ls ih => exact (ih { s with log := s.log ++ [line] }).trans (by simp)

theorem perform_lines_workshop (ls : List String) (s : Findings) :
    (ls.forM Work.say).perform (s.workshop l lines g) =
      (.ok (), { s with log := s.log ++ ls }.workshop l lines g) := by
  induction ls generalizing s with
  | nil => rw [List.append_nil]; rfl
  | cons line ls ih =>
    change (Work.say line >>= fun _ => ls.forM Work.say).perform _ = _
    rw [Work.perform_bind_ok (perform_say_workshop s l lines g line), ih]
    simp

theorem mirrors_calculate {op : Operator} {left right : Expr} {mark : Mark}
    (h : g.Stands (Expr.binary op left right mark).node d ids) (hids : ids.Nodup) (whole : Bool)
    (a b : Constant) : Mirrors l lines (calculate op whole a b mark)
      (Walk.evaluate d (.ofText op.sign) whole (.constant a) (.constant b)) s g fun mark' _ g' =>
        g.Becomes d ids (Expr.binary op left right mark').node g' := by
  obtain ⟨id, rfl⟩ := h.exists_node
  have hlines (ls : List String) (mark' : Mark) (s : Findings) (g' : Graph)
      (hbecomes : g.Becomes (.node .binary id) ids (Expr.binary op left right mark').node g') :
      Mirrors l lines (ls.forM say >>= fun _ => markOperation op mark') (ls.forM Work.say) s g'
        fun mark' _ g' => g.Becomes (.node .binary id) ids
        (Expr.binary op left right mark').node g' := by
    rw [← bind_pure (ls.forM Work.say)]
    exact .step_bind (run_lines ls s) (perform_lines_workshop ls s) (.ends rfl rfl hbecomes)
  refine .run_bind (run_trials op _ s) ?_
  unfold Walk.evaluate
  rw [Operator.ofDatum?_sign]
  cases hattempt : Folding.attempt op whole a b with
  | ok f =>
    have hfold : Folding.ofOperation op whole a b = f := by simp [Folding.ofOperation, hattempt]
    have hcalculate : op.calculate whole (.constant a) (.constant b) =
        .ok (f.value.map Datum.ofConstant?, f.lines) := by
      simp [Operator.calculate, hattempt]
    simp only [hfold, hcalculate]
    obtain ⟨value, ls⟩ := f
    cases value with
    | none => exact hlines ls mark s g h.becomes
    | some value => exact .setAttr_bind (hlines ls _ s _ (h.fill_value hids value))
  | error f =>
    have hfold : Folding.ofOperation op whole a b =
        ⟨some none, [Folding.failureLine op.sign f]⟩ := by
      simp [Folding.ofOperation, hattempt]
    have hcalculate : op.calculate whole (.constant a) (.constant b) = .error f := by
      simp [Operator.calculate, hattempt]
    simp only [hfold, hcalculate]
    exact .step_bind (run_lines _ s) (perform_say_workshop s l lines g _)
      (.ends rfl (Work.perform_setAttr ..) (h.fill_value hids none))

/-- An operation gets its type. -/
theorem mirrors_typeOperation {op : Operator} {left right : Expr} {mark : Mark}
    (h : g.Stands (Expr.binary op left right mark).node d ids) (hids : ids.Nodup) :
    Mirrors l lines
      (match left.ty, right.ty with
        | some lty, some rty =>
          match op.resultType? lty rty with
          | some ty => markOperation op { mark with ty := some ty }
          | none => do
            report (.operands op lty rty)
            markOperation op { mark with ty := none }
        | _, _ => markOperation op { mark with ty := none })
      (do return Walk.truth (← Work.typeOperation d (.ofText op.sign) (.ofType? left.ty)
        (.ofType? right.ty))) s g fun mark' _ g' =>
          g.Becomes d ids (Expr.binary op left right mark').node g' := by
  obtain ⟨id, rfl⟩ := h.exists_node
  have hunknown : Mirrors l lines (markOperation op { mark with ty := none })
      (do
        Work.setAttr (.node .binary id) "type" .none
        return Walk.truth false) s g fun mark' _ g' =>
          g.Becomes (.node .binary id) ids (Expr.binary op left right mark').node g' :=
    .setAttr_bind (.ends rfl rfl (h.fill_type hids none))
  cases hl : left.ty with
  | none => exact hunknown
  | some lty =>
    cases hr : right.ty with
    | none => exact hunknown
    | some rty =>
      have hfits : Work.typeOperation (.node .binary id) (.ofText op.sign) (.ofText lty.name)
          (.ofText rty.name) = (match op.resultType? lty rty with
            | some ty => do
              Work.setAttr (.node .binary id) "type" (.ofText ty.name)
              return true
            | none => do
              Work.reportMismatch (.ofText (Fault.operandExpectation op))
                (.ofText s!"{lty.name} y {rty.name}") (Fault.operandMessage op lty.name rty.name)
                (.node .binary id)
              Work.setAttr (.node .binary id) "type" .none
              return false) := by
        unfold Work.typeOperation
        rw [Operator.ofDatum?_sign]
        simp only [Operator.resultOf?_names]
        cases op.resultType? lty rty <;> rfl
      simp only [Datum.ofType?, hfits]
      cases op.resultType? lty rty with
      | some ty =>
        rw [bind_assoc]
        exact .setAttr_bind (.ends rfl rfl (h.fill_type hids (some ty)))
      | none =>
        obtain ⟨hline, hcolumn⟩ := h.attr?_place
        rw [bind_assoc]
        refine .mismatch_bind hline hcolumn rfl ?_
        rw [bind_assoc]
        exact .setAttr_bind (.ends rfl rfl (h.fill_type hids none))

theorem mirrors_operate {op : Operator} {left right : Expr} {mark : Mark}
    (h : g.Stands (Expr.binary op left right mark).node d ids) (hids : ids.Nodup) :
    Mirrors l lines (operate op left right mark) (Walk.operate d) s g fun mark' _ g' =>
      g.Becomes d ids (Expr.binary op left right mark').node g' := by
  obtain ⟨ld, ls, hl, hleft⟩ := h.focus hids "left" rfl
  obtain ⟨rd, rs, hr, hright⟩ := h.focus hids "right" rfl
  have hop := h.attr?_plain "operator" rfl .rfl
  refine .attr_bind hl (.attr_bind hr ?_)
  refine .attr_bind hleft.stands.expr_type (.attr_bind hright.stands.expr_type ?_)
  refine .attr?_bind hleft.stands.expr_value (.attr?_bind hright.stands.expr_value ?_)
  refine .attr_bind hop ?_
  have hrender (v : Option Constant) : ((some (Datum.ofConstant? v)).getD .none).render = shown v :=
    Datum.render_ofConstant? v
  unfold operate
  cases hsl : shown left.value with
  | error f => exact .fails rfl (by simp only [hrender, hsl]; rfl)
  | ok t =>
    cases hsr : shown right.value with
    | error f => exact .fails rfl (by simp only [hrender, hsl, hsr]; rfl)
    | ok u =>
      refine .run_bind rfl (.run_bind rfl (.text_bind (by simp only [hrender, hsl, hsr]; rfl) ?_))
      cases hlv : left.value with
      | none => exact .answer h.becomes
      | some a =>
        cases hrv : right.value with
        | none => exact .answer h.becomes
        | some b =>
          have hwhole : ((Datum.ofType? left.ty).isText Ty.ent.name &&
              (Datum.ofType? right.ty).isText Ty.ent.name) =
                (decide (left.ty = some .ent) && decide (right.ty = some .ent)) := by
            rw [Datum.isText_ofType?, Datum.isText_ofType?]
          change Mirrors l lines _ (Walk.evaluate d (.ofText op.sign) _ (.constant a)
              (.constant b) >>= _) _ g _
          rw [hwhole]
          refine (mirrors_calculate h hids _ a b).bind fun mark' _ s' g' hbecomes => ?_
          exact (mirrors_typeOperation hbecomes.stands hids).mono fun _ _ _ => hbecomes.trans

/-! ## Expressions -/

/-- A node is visited by the rule for its class, which can go on as deep as its parts are. -/
theorem exists_visitWithin_eq {cls : NodeClass} {attrs : List (String × NodeTree)} {depth : Nat}
    (h : g.Stands (.node cls attrs) d ids) (hdepth : 2 * ids.length ≤ depth + 1) :
    ∃ k, 2 * ids.length ≤ k + 2 ∧
      Walk.visitWithin .checking depth d = Walk.checked (Walk.visitWithin .checking k) cls d := by
  obtain ⟨id, slots, rest, rfl, rfl, -⟩ := h
  rw [List.length_cons] at hdepth ⊢
  obtain ⟨k, rfl⟩ : ∃ k, depth = k + 1 := ⟨depth - 1, by omega⟩
  exact ⟨k, by omega, rfl⟩

theorem perform_settleOperator {op : Operator}
    (hop : g.attr? d "operator" = some (.ofText op.sign)) :
    (Walk.settleOperator d).perform (s.workshop l lines g) =
      let line := s!"Visitando BinaryOpNode con operador: '{op.sign}' (tipo: <class 'str'>)"
      (.ok (), { s with log := s.log ++ [line] }.workshop l lines g) := by
  -- The kind of the operator is shown as a text of its own.
  have hline :
      let kind := (Datum.ofText op.sign).kindShown
      s!"Visitando BinaryOpNode con operador: '{op.sign}' (tipo: {kind})" =
        s!"Visitando BinaryOpNode con operador: '{op.sign}' (tipo: <class 'str'>)" := by
    intro kind
    rw [String.append_assoc, String.append_assoc]
    rfl
  rw [← hline, Walk.settleOperator, Work.perform_bind_ok (Work.perform_attr hop)]
  exact Work.perform_bind_ok (perform_say_workshop s l lines g _) _

/-- The walk over the nodes of an expression mirrors its analysis. -/
theorem mirrors_expr (e : Expr) {depth : Nat} {s : Findings} {g : Graph} {d : Datum}
    {ids : List Nat} (h : g.Stands e.node d ids) (hids : ids.Nodup)
    (hdepth : 2 * ids.length ≤ depth + 1) :
    Mirrors l lines (expr e) (Walk.visitWithin .checking depth d) s g fun e' _ g' =>
      g.Becomes d ids e'.node g' := by
  induction e generalizing depth s g d ids with
  | number n spot =>
    obtain ⟨k, -, hvisit⟩ := exists_visitWithin_eq h hdepth
    rw [hvisit]
    exact .map _ ((mirrors_number h).mono fun _ _ _ hg => hg ▸ h.becomes)
  | text v spot =>
    obtain ⟨k, -, hvisit⟩ := exists_visitWithin_eq h hdepth
    rw [hvisit]
    refine .attr_bind h.expr_value (.ok_bind (t := v) rfl (.attr_bind h.expr_type ?_))
    exact .text_bind rfl (.answer h.becomes)
  | use name =>
    obtain ⟨k, -, hvisit⟩ := exists_visitWithin_eq h hdepth
    rw [hvisit]
    exact .map Expr.use (mirrors_useName h hids)
  | binary op left right mark ihl ihr =>
    obtain ⟨k, hk, hvisit⟩ := exists_visitWithin_eq h hdepth
    rw [hvisit]
    change Mirrors l lines _ (Walk.binary _ d) s g _
    rw [Walk.binary_eq]
    refine .step_bind rfl (perform_settleOperator (h.attr?_plain "operator" rfl .rfl)) ?_
    obtain ⟨ld, ls, hld, hleft⟩ := h.focus hids "left" rfl
    refine .attr_bind hld ((ihl hleft.stands hleft.nodup ?_).bind fun left' _ s' g' hbecomes => ?_)
    · have hfewer := hleft.fewer
      omega
    have h' : g.Becomes d ids (Expr.binary op left' right mark).node g' := hleft.becomes hbecomes
    obtain ⟨rd, rs, hrd, hright⟩ := h'.stands.focus hids "right" rfl
    refine .attr_bind hrd ((ihr hright.stands hright.nodup ?_).bind
      fun right' _ s'' g'' hbecomes => ?_)
    · have hfewer := hright.fewer
      omega
    have h'' : g'.Becomes d ids (Expr.binary op left' right' mark).node g'' :=
      hright.becomes hbecomes
    exact .map _ ((mirrors_operate h''.stands hids).mono fun _ _ _ hmark =>
      (h'.trans h'').trans hmark)

end Analysis

end Analizador
