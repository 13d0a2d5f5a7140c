import Analizador.Proofs.Walk.Trees

/-! # Visits of expressions

The walk that checks meaning gives every node of an expression in a graph the reference value of its
part. It fills in types on the way and leaves the rest of the graph, the table and the ledger alone.
-/

namespace Analizador

/-- A table of records declares some variables. -/
def Table.Records (t : Table Datum Record) (V : Variables) : Prop :=
  ∀ name v, V name = some v →
    ∃ r, t.lookup (.ofText name) = some r ∧ r.ty = .ofText v.ty.name ∧
    r.value = .ofConstant? v.value

/-! ## Signs and types as data -/

theorem Operator.ofDatum?_sign (op : Operator) : ofDatum? (.ofText op.sign) = some op := by
  cases op <;> decide

theorem Datum.type?_name (ty : Ty) : (Datum.ofText ty.name).type? = some ty := by
  cases ty <;> decide

theorem Operator.resultOf?_names (op : Operator) (l r : Ty) :
    op.resultOf? (.ofText l.name) (.ofText r.name) = op.resultType? l r := by
  simp only [resultOf?, Datum.type?_name]

namespace Walk

open Work

/-! ## Visits of literals and variables -/

section Leaves

variable {t : Table Datum Record} {g : Graph}

theorem turns_literal {d : Datum} {c : Constant} {ty : String}
    (hvalue : g.attr? d "value" = some (.constant c)) (htype : g.attr? d "type" = some (.ofText ty))
    (hshows : c.Shows) (title : String) :
    Turns (literal title d) t g (truth true) g := by
  obtain ⟨text, htext⟩ := hshows
  exact (turns_attr hvalue).bind ((turns_lift htext).bind ((turns_attr htype).bind
    ((turns_sayText ⟨_, rfl⟩).bind (turns_pure _))))

theorem turns_variableUse {name : String} {cls : NodeClass} {id : Nat} {r : Record} {ty : String}
    (hname : g.attr? (.node cls id) "name" = some (.ofText name))
    (hlookup : t.lookup (.ofText name) = some r) (hty : r.ty = .ofText ty) :
    Turns (variableUse (.node cls id)) t g (truth true)
      ((g.fill id "type" r.ty).fill id "value" r.value) := by
  obtain ⟨_, _, value, _, _⟩ := r
  obtain rfl := hty
  refine (turns_attr hname).bind ((turns_sayText ⟨_, rfl⟩).bind ((turns_lookup name).bind ?_))
  rw [hlookup]
  exact (turns_setAttr _ _ _ _).bind
    ((turns_setAttr _ _ _ _).bind ((turns_sayText ⟨_, rfl⟩).bind (turns_pure _)))

end Leaves

/-! ## Settled expressions -/

/-- The nodes of an expression have its reference values, and its root has its type if its value is
known. -/
structure Settled (V : Variables) (e : Expr) (ty : Ty) (d : Datum) (ids : List Nat) (g : Graph) :
    Prop where
  holds : g.Holds (·.reference V) e d ids
  typed : ∃ found, g.attr? d "type" = some found ∧ (e.reference V ≠ none → found = .ofText ty.name)

/-- From one graph to the other an expression is settled, and no other node changes. -/
structure Settles (V : Variables) (e : Expr) (ty : Ty) (d : Datum) (ids : List Nat) (g g' : Graph) :
    Prop
    extends Settled V e ty d ids g' where
  frame : ∀ id ∉ ids, g.SameAt g' id

section Operations

variable {V : Variables} {t : Table Datum Record} {g g' : Graph} {e left right : Expr}
  {op : Operator} {mark : Mark}
  {lty rty ty : Ty} {id : Nat} {d l r : Datum} {ids ls rs : List Nat}

theorem Settled.congr (h : Settled V e ty d ids g) (hsame : ∀ id ∈ ids, g.SameAt g' id) :
    Settled V e ty d ids g' where
  holds := h.holds.congr hsame
  typed := by
    obtain ⟨found, hfound, htyped⟩ := h.typed
    exact ⟨found, (h.holds.attr?_congr hsame "type").trans hfound, htyped⟩

/-! ## Operations -/

/-- A folded operation gets its value, whether the calculation fails or not. -/
theorem turns_evaluate {whole : Bool} {x y : Constant} {result : Option Constant}
    (h : (Folding.ofOperation op whole x y).value = some result) (cls : NodeClass) (id : Nat) :
    Turns (evaluate (.node cls id) (.ofText op.sign) whole (.constant x) (.constant y)) t g ()
      (g.fill id "value" (.ofConstant? result)) := by
  unfold evaluate
  rw [Operator.ofDatum?_sign]
  cases hattempt : Folding.attempt op whole x y with
  | ok f =>
    have hvalue : f.value = some result := by simpa [Folding.ofOperation, hattempt] using h
    simp only [Operator.calculate, hattempt, hvalue, bind, Except.bind]
    exact (turns_setAttr _ _ _ _).bind (turns_lines _)
  | error f =>
    obtain rfl : result = none := by simpa [Folding.ofOperation, hattempt, eq_comm] using h
    simp only [Operator.calculate, hattempt, bind, Except.bind]
    exact (turns_say _).bind (turns_setAttr _ _ _ _)

theorem turns_typeOperation (hop : op.resultType? lty rty = some ty) (cls : NodeClass) (id : Nat) :
    Turns (typeOperation (.node cls id) (.ofText op.sign) (.ofText lty.name) (.ofText rty.name))
      t g true (g.fill id "type" (.ofText ty.name)) := by
  simp only [typeOperation, Operator.ofDatum?_sign, Operator.resultOf?_names, hop]
  exact (turns_setAttr _ _ _ _).bind (turns_pure _)

/-- What is done with an operation once the types and values of its operands are read. -/
def conclude (d op leftType rightType a b : Datum) : Work Datum := do
  if a.isNone || b.isNone then return .none
  evaluate d op (leftType.isText Ty.ent.name && rightType.isText Ty.ent.name) a b
  return truth (← Work.typeOperation d op leftType rightType)

/-- What is done with an operation once its operands are visited. -/
def operate (d : Datum) : Work Datum := do
  let left ← Work.attr d "left"
  let right ← Work.attr d "right"
  let leftType ← Work.attr left "type"
  let rightType ← Work.attr right "type"
  let a := (← Work.attr? left "value").getD .none
  let b := (← Work.attr? right "value").getD .none
  let op ← Work.attr d "operator"
  Work.sayText do
    return s!"  Operación binaria: {← a.render} '{← op.render}' {← b.render}"
  conclude d op leftType rightType a b

theorem binary_eq (go : Datum → Work Datum) (d : Datum) : binary go d = (do
    settleOperator d
    let _ ← go (← Work.attr d "left")
    let _ ← go (← Work.attr d "right")
    operate d) :=
  rfl

theorem isOperation_fill {value : Option Constant} (h : g.IsOperation id op l r value)
    (result : Option Constant) (ty : Ty) :
    ((g.fill id "value" (.ofConstant? result)).fill id "type" (.ofText ty.name)).IsOperation
      id op l r result where
  operator := by
    rw [Graph.attr?_fill_of_ne (by decide), Graph.attr?_fill_of_ne (by decide), h.operator]
  left := by rw [Graph.attr?_fill_of_ne (by decide), Graph.attr?_fill_of_ne (by decide), h.left]
  right := by rw [Graph.attr?_fill_of_ne (by decide), Graph.attr?_fill_of_ne (by decide), h.right]
  typed := ⟨_, Graph.attr?_fill_self (Graph.attr?_fill_self h.value)⟩
  value := by rw [Graph.attr?_fill_of_ne (by decide), Graph.attr?_fill_self h.value]

theorem turns_conclude_unknown {op leftType rightType a b : Datum}
    (h : a.isNone = true ∨ b.isNone = true) :
    Turns (conclude d op leftType rightType a b) t g .none g := by
  rw [conclude, if_pos (by simpa using h)]
  exact turns_pure _

theorem turns_conclude {x y : Constant} {result : Option Constant}
    (hop : op.resultType? lty rty = some ty)
    (h : ∀ whole, (Folding.ofOperation op whole x y).value = some result) :
    Turns (conclude (.node .binary id) (.ofText op.sign) (.ofText lty.name) (.ofText rty.name)
      (.constant x) (.constant y)) t g (truth true)
      ((g.fill id "value" (.ofConstant? result)).fill id "type" (.ofText ty.name)) :=
  (turns_evaluate (h _) _ _).bind ((turns_typeOperation hop _ _).bind (turns_pure _))

/-- An operation with settled operands is settled. Without both values it is left as it is. -/
theorem turns_operate (he : (Expr.binary op left right mark).Foldable)
    (hleft : left.HasType V.ty lty) (hright : right.HasType V.ty rty)
    (hop : op.resultType? lty rty = some ty) (hnode : g.IsOperation id op l r none)
    (hlsettled : Settled V left lty l ls g) (hrsettled : Settled V right rty r rs g)
    (hapart : (id :: (ls ++ rs)).Nodup) :
    ∃ a g', Turns (operate (.node .binary id)) t g a g' ∧
      Settles V (.binary op left right mark) ty (.node .binary id) (id :: (ls ++ rs)) g g' := by
  obtain ⟨lfound, hlfound, hltyped⟩ := hlsettled.typed
  obtain ⟨rfound, hrfound, hrtyped⟩ := hrsettled.typed
  obtain ⟨ltext, hltext⟩ := Analysis.render_ofConstant? fun c hc =>
    ((Expr.reference_typed he.2.1 hleft).2 c hc).2
  obtain ⟨rtext, hrtext⟩ := Analysis.render_ofConstant? fun c hc =>
    ((Expr.reference_typed he.2.2 hright).2 c hc).2
  have hconclude {a : Datum} {g' : Graph}
      (h : Turns (conclude (.node .binary id) (.ofText op.sign) lfound rfound
      (.ofConstant? (left.reference V)) (.ofConstant? (right.reference V))) t g a g') :
      Turns (operate (.node .binary id)) t g a g' := by
    refine (turns_attr hnode.left).bind ((turns_attr hnode.right).bind ((turns_attr hlfound).bind
      ((turns_attr hrfound).bind ((turns_attr? hlsettled.holds.value_eq).bind
        ((turns_attr? hrsettled.holds.value_eq).bind
          ((turns_attr hnode.operator).bind ((turns_sayText ?_).bind h)))))))
    simp only [Option.getD_some, hltext, hrtext]
    exact ⟨_, rfl⟩
  by_cases hknown : left.reference V = none ∨ right.reference V = none
  · have hnone : (Expr.binary op left right mark).reference V = none :=
      Expr.reference_binary_of_none hknown
    have hholds : g.Holds (·.reference V) (.binary op left right mark) (.node .binary id)
        (id :: (ls ++ rs)) := .binary (hnone ▸ hnode) hlsettled.holds hrsettled.holds hapart
    obtain ⟨found, hfound⟩ := hnode.typed
    refine ⟨_, g, hconclude (turns_conclude_unknown ?_), ⟨hholds, found, hfound, ?_⟩,
      fun _ _ => rfl⟩
    · exact hknown.imp (fun hx => by rw [hx]; rfl) (fun hy => by rw [hy]; rfl)
    · exact fun hsome => absurd hnone hsome
  · rw [not_or] at hknown
    obtain ⟨x, hx⟩ := Option.ne_none_iff_exists'.mp hknown.1
    obtain ⟨y, hy⟩ := Option.ne_none_iff_exists'.mp hknown.2
    obtain rfl := hltyped hknown.1
    obtain rfl := hrtyped hknown.2
    have hfold := Expr.value_ofOperation_reference he (.binary hleft hright hop) hx hy
    rw [hx, hy] at hconclude
    have hid : id ∉ ls ++ rs := (List.nodup_cons.mp hapart).1
    have hsame (result found : Datum) {i : Nat} (hi : i ≠ id) :
        g.SameAt ((g.fill id "value" result).fill id "type" found) i :=
      (Graph.sameAt_fill hi).trans (Graph.sameAt_fill hi)
    refine ⟨_, _, hconclude (turns_conclude hop hfold),
      ⟨.binary (isOperation_fill hnode _ ty) ?_ ?_ hapart, ?_⟩, ?_⟩
    · exact hlsettled.holds.congr fun i hi => hsame _ _ fun heq =>
        hid (heq ▸ List.mem_append_left rs hi)
    · exact hrsettled.holds.congr fun i hi => hsame _ _ fun heq =>
        hid (heq ▸ List.mem_append_right ls hi)
    · exact ⟨_, Graph.attr?_fill_self (Graph.attr?_fill_self hnode.value), fun _ => rfl⟩
    · exact fun i hi => hsame _ _ fun heq => hi (heq ▸ List.mem_cons_self)

theorem turns_settleOperator {sign : String} (h : g.attr? d "operator" = some (.ofText sign)) :
    Turns (settleOperator d) t g () g :=
  (turns_attr h).bind ((turns_sayText ⟨_, rfl⟩).bind (turns_pure _))

/-- An operation is settled by its visit if its operands are by theirs. -/
theorem turns_binary {go : Datum → Work Datum} (he : (Expr.binary op left right mark).Foldable)
    (hleft : left.HasType V.ty lty) (hright : right.HasType V.ty rty)
    (hop : op.resultType? lty rty = some ty) (hnode : g.IsOperation id op l r none)
    (hrholds : g.Holds Expr.literalValue right r rs) (hapart : (id :: (ls ++ rs)).Nodup)
    (hlgo : ∃ a g', Turns (go l) t g a g' ∧ Settles V left lty l ls g g')
    (hrgo : ∀ g', g'.Holds Expr.literalValue right r rs →
      ∃ a g'', Turns (go r) t g' a g'' ∧ Settles V right rty r rs g' g'') :
    ∃ a g', Turns (binary go (.node .binary id)) t g a g' ∧
      Settles V (.binary op left right mark) ty (.node .binary id) (id :: (ls ++ rs)) g g' := by
  obtain ⟨hid, hoperands⟩ := List.nodup_cons.mp hapart
  have hdisjoint : ∀ i ∈ ls, i ∉ rs :=
    fun i hl hr => (List.nodup_append.mp hoperands).2.2 i hl i hr rfl
  -- The left operand is visited first; the operation and its right operand are not touched.
  obtain ⟨a, g₁, hlturns, hlsettles⟩ := hlgo
  have hnode₁ := hnode.congr (hlsettles.frame id fun hi => hid (List.mem_append_left rs hi))
  obtain ⟨b, g₂, hrturns, hrsettles⟩ :=
    hrgo g₁ (hrholds.congr fun i hr => hlsettles.frame i fun hl => hdisjoint i hl hr)
  -- The visit of the right operand leaves the left one settled.
  have hnode₂ := hnode₁.congr (hrsettles.frame id fun hi => hid (List.mem_append_right ls hi))
  have hlsettled := hlsettles.toSettled.congr fun i hl => hrsettles.frame i (hdisjoint i hl)
  obtain ⟨c, g₃, hturns, hsettles⟩ :=
    turns_operate he hleft hright hop hnode₂ hlsettled hrsettles.toSettled hapart
  refine ⟨c, g₃, ?_, hsettles.toSettled, fun i hi => ?_⟩
  · rw [binary_eq]
    exact (turns_settleOperator hnode.operator).bind ((turns_attr hnode.left).bind (hlturns.bind
      ((turns_attr hnode₁.right).bind (hrturns.bind hturns))))
  · have hoff : i ∉ ls ++ rs := fun hmem => hi (List.mem_cons_of_mem id hmem)
    have hl := hlsettles.frame i fun hmem => hoff (List.mem_append_left rs hmem)
    have hr := hrsettles.frame i fun hmem => hoff (List.mem_append_right ls hmem)
    exact (hl.trans hr).trans (hsettles.frame i hi)

/-- The visit of a declared variable gives it the type and the value that the table has. -/
theorem turns_use (ht : t.Records V) {name : Name} (htype : V.ty name.text = some ty)
    (h : g.attr? (.node .variableUse id) "name" = some (.ofText name.text)) :
    ∃ a g', Turns (variableUse (.node .variableUse id)) t g a g' ∧
      Settles V (.use name) ty (.node .variableUse id) [id] g g' := by
  obtain ⟨v, hv, rfl⟩ := Option.map_eq_some_iff.mp htype
  obtain ⟨r, hlookup, hty, hvalue⟩ := ht name.text v hv
  have hreference : (Expr.use name).reference V = v.value := by
    simp [Expr.reference, Variables.value, hv]
  refine ⟨_, _, turns_variableUse h hlookup hty, ⟨.use ?_ ?_, ?_⟩, fun i hi => ?_⟩
  · rw [Graph.attr?_fill_of_ne (by decide), Graph.attr?_fill_of_ne (by decide), h]
  · rw [Graph.attr?_fill_self (Graph.attr?_fill_self h), hreference, hvalue]
  · refine ⟨r.ty, ?_, fun _ => hty⟩
    rw [Graph.attr?_fill_of_ne (by decide), Graph.attr?_fill_self h]
  · have hne : i ≠ id := List.ne_of_not_mem_cons hi
    exact (Graph.sameAt_fill hne).trans (Graph.sameAt_fill hne)

/-- Every visit of an expression, down to a depth that its nodes do not exceed, settles it. -/
theorem turns_visitWithin (ht : t.Records V) {depth : Nat} (he : e.Foldable)
    (htype : e.HasType V.ty ty) (h : g.Holds Expr.literalValue e d ids)
    (hdepth : ids.length ≤ depth) :
    ∃ a g', Turns (visitWithin .checking depth d) t g a g' ∧ Settles V e ty d ids g g' := by
  induction htype generalizing g d ids depth with
  | number =>
    obtain ⟨depth, rfl⟩ := Nat.exists_eq_add_of_le' (h.length_pos.trans_le hdepth)
    cases h with
    | number hfound hvalue =>
      refine ⟨_, g, turns_literal hvalue hfound he.shows_number.2.2 _, ⟨.number hfound hvalue, ?_⟩,
        fun _ _ => rfl⟩
      exact ⟨_, hfound, fun _ => rfl⟩
  | text =>
    obtain ⟨depth, rfl⟩ := Nat.exists_eq_add_of_le' (h.length_pos.trans_le hdepth)
    cases h with
    | text hfound hvalue =>
      refine ⟨_, g, turns_literal hvalue hfound ⟨_, rfl⟩ _, ⟨.text hfound hvalue, ?_⟩,
        fun _ _ => rfl⟩
      exact ⟨_, hfound, fun _ => rfl⟩
  | use htype =>
    obtain ⟨depth, rfl⟩ := Nat.exists_eq_add_of_le' (h.length_pos.trans_le hdepth)
    cases h with
    | use hname hvalue => exact turns_use ht htype hname
  | binary hleft hright hop ihleft ihright =>
    obtain ⟨depth, rfl⟩ := Nat.exists_eq_add_of_le' (h.length_pos.trans_le hdepth)
    cases h with
    | binary hnode hlholds hrholds hapart =>
      simp only [List.length_cons, List.length_append] at hdepth
      exact turns_binary he hleft hright hop hnode hrholds hapart
        (ihleft he.2.1 hlholds (by omega)) fun g' hg' => ihright he.2.2 hg' (by omega)

/-- The visit of an expression settles it. -/
theorem turns_visit_expression (ht : t.Records V) (he : e.Foldable) (htype : e.HasType V.ty ty)
    (h : g.Holds Expr.literalValue e d ids) :
    ∃ a g', Turns (visit .checking d) t g a g' ∧ Settles V e ty d ids g g' := by
  have hdepth := h.length_le.trans (g.nodes_size_le_depthBound d)
  obtain ⟨a, g', hturns, hsettles⟩ := turns_visitWithin ht he htype h hdepth
  exact ⟨a, g', turns_visit hturns, hsettles⟩

end Operations

end Walk

namespace Expr

/-- Walking an expression that has no values yet gives every part of it the reference value, and
changes no table: in a program that is analysed, in every graph that holds the expression, and so in
one where its nodes have just been built. An operation lacks a reference value exactly if an operand
does or if an integer result has too many digits. -/
theorem walks_bear_reference (V : Variables) {e : Expr} {ty : Ty} (he : e.Foldable)
    (htype : e.HasType V.ty ty) :
    (∀ s : Findings, s.table.Declares V → e.Unvalued →
      ∃ e' log, (Analysis.expr e).run s = (.ok e', { s with log := s.log ++ log }) ∧
      e.Bears (reference V) e') ∧
    (∀ (w : Workshop) (d : Datum) (ids : List Nat), w.table.Records V →
      w.graph.Holds literalValue e d ids →
      ∃ a g log, (Walk.visit .checking d).perform w =
      (.ok a, { w with graph := g, log := w.log ++ log }) ∧
        g.Holds (reference V) e d ids ∧ ∀ id ∉ ids, w.graph.SameAt g id) ∧
    (∀ w : Workshop, w.table.Records V → ∃ d ids g log,
      (do let d ← e.build; let _ ← Walk.visit .checking d; return d : Work Datum).perform w =
          (.ok d, { w with graph := g, log := w.log ++ log }) ∧
        g.Holds (reference V) e d ids ∧ ∀ id < w.graph.nodes.size, w.graph.SameAt g id) ∧
    (∀ op left right mark, e = binary op left right mark →
      (e.reference V = none ↔ left.reference V = none ∨ right.reference V = none ∨
        ∃ f m n, op.whole? = some f ∧ left.reference V = some (.integer m) ∧
          right.reference V = some (.integer n) ∧
            Nat.pow 10 Numeral.digitLimit ≤ (f m n).natAbs)) := by
  refine ⟨fun s ht hvalues => ?_, fun w d ids ht h => ?_, fun w ht => ?_, ?_⟩
  · obtain ⟨e', hsettles, hgives⟩ := Analysis.gives_settled ht he hvalues htype
    obtain ⟨log, hrun⟩ := hgives s rfl rfl
    exact ⟨e', log, by simpa using hrun, hsettles.bears⟩
  · obtain ⟨a, g, hturns, hsettles⟩ := Walk.turns_visit_expression ht he htype h
    obtain ⟨log, hperform⟩ := hturns w rfl rfl
    exact ⟨a, g, log, hperform, hsettles.holds, hsettles.frame⟩
  · obtain ⟨d, ids, g, hbuild, hholds, hextends, hnew⟩ := turns_build he
    obtain ⟨a, g', hturns, hsettles⟩ := Walk.turns_visit_expression ht he htype hholds
    have hboth : Work.Turns (do let d ← e.build; let _ ← Walk.visit .checking d; return d)
        w.table w.graph d g' := hbuild.bind (hturns.bind (Work.turns_pure d))
    obtain ⟨log, hperform⟩ := hboth w rfl rfl
    refine ⟨d, ids, g', log, hperform, hsettles.holds,
      fun id hid => (hextends.same id hid).trans ?_⟩
    exact hsettles.frame id fun hmem => absurd (hnew id hmem) (Nat.not_le.mpr hid)
  · rintro op left right mark rfl
    exact reference_binary_eq_none_iff he htype

/-! Of the two sides of `("a" + s == "ab") != (x * 3 > y)` the left one is known, but not the right
one, since `y` has no value. -/

/-- A text and an integer that are known, and an integer that is not. -/
def sampleVariables : Variables
  | "s" => some (.cadena (some "b"))
  | "x" => some (.ent (some ⟨5, by decide +kernel⟩))
  | "y" => some (.ent none)
  | _ => none

/-- The symbols of the sample variables. -/
def sampleTable : Table String Symbol where
  entries := #[⟨"s", .cadena, some (.text "b"), ⟨1, 1⟩⟩, ⟨"x", .ent, some (.integer 5), ⟨1, 1⟩⟩,
    ⟨"y", .ent, none, ⟨1, 1⟩⟩]
  scope := [("s", 0), ("x", 1), ("y", 2)]
  outer := []
  index := [("s", 0), ("x", 1), ("y", 2)]

theorem declares_sampleTable : sampleTable.Declares sampleVariables := by
  intro name v hv
  unfold sampleVariables at hv
  split at hv
  case h_4 => cases hv
  all_goals
    cases hv
    exact ⟨_, rfl, rfl, rfl⟩

/-- The records of the sample variables. -/
def sampleRecords : Table Datum Record where
  entries := #[⟨.ofText "s", .ofText "cadena", .ofText "b", .ofInt 1, .ofInt 1⟩,
    ⟨.ofText "x", .ofText "ent", .ofInt 5, .ofInt 1, .ofInt 1⟩,
    ⟨.ofText "y", .ofText "ent", .none, .ofInt 1, .ofInt 1⟩]
  scope := [(.ofText "s", 0), (.ofText "x", 1), (.ofText "y", 2)]
  outer := []
  index := [(.ofText "s", 0), (.ofText "x", 1), (.ofText "y", 2)]

theorem records_sampleRecords : sampleRecords.Records sampleVariables := by
  intro name v hv
  unfold sampleVariables at hv
  split at hv
  case h_4 => cases hv
  all_goals
    cases hv
    exact ⟨_, rfl, rfl, rfl⟩

/-- The sample expression. -/
def sample : Expr :=
  .binary .ne
    (.binary .eq (.binary .add (.text "a" ⟨1, 1⟩) (.use ⟨"s", ⟨1, 7⟩, .blank⟩) .blank)
      (.text "ab" ⟨1, 12⟩) .blank)
    (.binary .gt (.binary .mul (.use ⟨"x", ⟨1, 22⟩, .blank⟩) (.number (.whole 3) ⟨1, 26⟩) .blank)
      (.use ⟨"y", ⟨1, 30⟩, .blank⟩) .blank)
    .blank

theorem walks_bear_reference_sample :
    sample.Foldable ∧ sample.HasType sampleVariables.ty .bool ∧ sample.Unvalued ∧
      sampleTable.Declares sampleVariables ∧ sampleRecords.Records sampleVariables ∧
      sample.reference sampleVariables = none ∧
      (∃ e' log, (Analysis.expr sample).run ⟨sampleTable, [], [], []⟩ =
        (.ok e', ⟨sampleTable, [], [], log⟩) ∧
        sample.Bears (reference sampleVariables) e') ∧
      ∃ d ids g g' a log, g.Holds literalValue sample d ids ∧
        (Walk.visit .checking d).perform ⟨g, sampleRecords, none, [], []⟩ =
          (.ok a, ⟨g', sampleRecords, none, [], log⟩) ∧
        g'.Holds (reference sampleVariables) sample d ids := by
  have hfold : sample.Foldable := by decide +kernel
  have hsum : (binary .add (.text "a" ⟨1, 1⟩) (.use ⟨"s", ⟨1, 7⟩, .blank⟩) .blank).HasType
      sampleVariables.ty .cadena := .binary .text (.use rfl) rfl
  have hproduct : (binary .mul (.use ⟨"x", ⟨1, 22⟩, .blank⟩) (.number (.whole 3) ⟨1, 26⟩)
      .blank).HasType sampleVariables.ty .ent := .binary (.use rfl) .number rfl
  have htype : sample.HasType sampleVariables.ty .bool :=
    .binary (.binary hsum .text rfl) (.binary hproduct (.use rfl) rfl) rfl
  obtain ⟨hanalysis, hvisit, -⟩ := walks_bear_reference sampleVariables hfold htype
  obtain ⟨e', log, hrun, hbears⟩ :=
    hanalysis ⟨sampleTable, [], [], []⟩ declares_sampleTable (by decide)
  obtain ⟨d, ids, g, -, hholds, -⟩ := turns_build (t := sampleRecords) (g := .empty) hfold
  obtain ⟨a, g', log', hperform, hholds', -⟩ :=
    hvisit ⟨g, sampleRecords, none, [], []⟩ d ids records_sampleRecords hholds
  exact ⟨hfold, htype, by decide, declares_sampleTable, records_sampleRecords, by decide +kernel,
    ⟨e', log, hrun, hbears⟩, d, ids, g, g', a, log', hholds, hperform, hholds'⟩

end Expr

end Analizador
