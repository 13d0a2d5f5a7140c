import Analizador.Proofs.Assembly.Literals
import Analizador.Proofs.Reader.Parses
import Analizador.Proofs.Reader.Shape
import Analizador.Proofs.Walk.Standing

/-! # Assembling parse trees

The raw tree of a phrase is transformed from the bottom up, each rule making a node of what the
rules below it have made. For the parse tree of a program the nodes that come of this are those of
the program, and the lines logged are those of the parse tree. -/

namespace Analizador

/-! ## Steps that build trees -/

namespace Work

/-- From every workshop the step gives a datum that stands for the tree, by nodes that it adds, and
logs the given lines. -/
def Builds (step : Work Datum) (t : NodeTree) (lines : List String) : Prop :=
  ∀ w : Workshop, ∃ d ids g,
    step.perform w = (.ok d, { w with graph := g, log := w.log ++ lines }) ∧
      g.Stands t d ids ∧ ids.Nodup ∧ w.graph.Extends g ∧ ∀ id ∈ ids, w.graph.nodes.size ≤ id

/-- The same of a step that gives several data. -/
def BuildsAll (step : Work (List Datum)) (ts : List NodeTree) (lines : List String) : Prop :=
  ∀ w : Workshop, ∃ ds ids g,
    step.perform w = (.ok ds, { w with graph := g, log := w.log ++ lines }) ∧
      g.StandsAll ts ds ids ∧ ids.Nodup ∧ w.graph.Extends g ∧ ∀ id ∈ ids, w.graph.nodes.size ≤ id

end Work

namespace Graph

theorem Extends.refl (g : Graph) : g.Extends g := ⟨Nat.le_refl _, fun _ _ => rfl⟩

/-- What stands for a tree in a graph stands for it after the graph has grown. -/
theorem Stands.extend {g g' : Graph} {t : NodeTree} {d : Datum} {ids : List Nat}
    (h : g.Stands t d ids) (hextends : g.Extends g') : g'.Stands t d ids :=
  Stands.congr t h fun id hid => hextends.same id (Stands.lt_size t h id hid)

/-- Data that stand for some trees still do in a graph that extends the first. -/
theorem StandsAll.extend {g g' : Graph} {ts : List NodeTree} {ds : List Datum} {ids : List Nat}
    (h : g.StandsAll ts ds ids) (hextends : g.Extends g') : g'.StandsAll ts ds ids :=
  StandsAll.congr ts h fun id hid => hextends.same id (StandsAll.lt_size ts h id hid)

theorem StandsIn.extend {g g' : Graph} {own : List (String × NodeTree)}
    {slots : List (String × Datum)} {ids : List Nat} (h : g.StandsIn own slots ids)
    (hextends : g.Extends g') :
    g'.StandsIn own slots ids :=
  StandsIn.congr own h fun id hid => hextends.same id (StandsIn.lt_size own h id hid)

theorem standsAll_nil (g : Graph) : g.StandsAll [] [] [] := ⟨rfl, rfl⟩

/-- What holds of all that can stand for one of some trees holds of the data that stand for them. -/
theorem StandsAll.forall_mem {g : Graph} {ts : List NodeTree} {ds : List Datum} {ids : List Nat}
    {P : Datum → Prop} (h : g.StandsAll ts ds ids)
    (hP : ∀ t ∈ ts, ∀ d is, g.Stands t d is → P d) : ∀ d ∈ ds, P d := by
  induction ts generalizing ds ids with
  | nil => simp [h.1]
  | cons t ts ih =>
    obtain ⟨d, rest, is, js, rfl, -, hfirst, hrest⟩ := h
    refine List.forall_mem_cons.mpr ⟨hP t List.mem_cons_self d is hfirst, ?_⟩
    exact ih hrest fun t ht => hP t (List.mem_cons_of_mem _ ht)

end Graph

/-- Raw trees and nodes, which can be parts of a node. -/
def Datum.IsPart : Datum → Prop
  | .tree .. | .node .. => True
  | _ => False

/-- A part counts as true. -/
theorem Datum.IsPart.isTrue_eq {d : Datum} (h : d.IsPart) : d.isTrue = true := by
  cases d <;> first | rfl | exact h.elim

/-- What stands for a sentence is a part. -/
theorem Datum.isPart_of_stands_sentence {g : Graph} {t : NodeTree} {d : Datum} {ids : List Nat}
    (h : g.Stands (.sentence t) d ids) : d.IsPart := by
  obtain ⟨ds, rfl, -⟩ := h
  trivial

/-- So is what stands for a node. -/
theorem Datum.isPart_of_stands_node {g : Graph} {cls : NodeClass} {attrs : List (String × NodeTree)}
    {d : Datum} {ids : List Nat} (h : g.Stands (.node cls attrs) d ids) : d.IsPart := by
  obtain ⟨id, _, _, rfl, -⟩ := h
  trivial

namespace Assembly

open Work

/-! ## From rules to trees -/

/-- The rule joins trees to a tree: of data that stand for the former it makes a datum that stands
for the latter, by their nodes and by nodes that it adds. -/
def Joins (label : String) (ts : List NodeTree) (t : NodeTree) (lines : List String) : Prop :=
  ∀ (w : Workshop) (ds : List Datum) (ids : List Nat), w.graph.StandsAll ts ds ids → ids.Nodup →
    ∃ d js g, (call label ds).perform w = (.ok d, { w with graph := g, log := w.log ++ lines }) ∧
      g.Stands t d js ∧ js.Nodup ∧ w.graph.Extends g ∧
        ∀ id ∈ js, id ∈ ids ∨ w.graph.nodes.size ≤ id

/-- A rule that does not fail does the same while a tree is being transformed. -/
theorem perform_callNamed {label : String} {ds : List Datum} {w w' : Workshop} {d : Datum}
    (h : (call label ds).perform w = (.ok d, w')) :
    (callNamed label ds).perform w = (.ok d, w') := by
  have hrun : StateT.run (call label ds) w = (.ok d, w') := h
  change StateT.run (ExceptT.tryCatch (call label ds) _).run w = _
  simp only [ExceptT.tryCatch, ExceptT.run_mk, StateT.run_bind, hrun]
  rfl

/-- A tree is built by its rule from what its children are. -/
theorem builds_tree {label : String} {raws : List Datum} {ts : List NodeTree} {t : NodeTree}
    {lines more : List String} (hlabel : (signature? label).isSome = true)
    (hall : BuildsAll (transformAll raws) ts lines) (hjoins : Joins label ts t more) :
    Builds (transform (.tree label raws)) t (lines ++ more) := by
  intro w
  obtain ⟨ds, ids, g, hperform, hstands, hnodup, hextends, hnew⟩ := hall w
  obtain ⟨d, js, g', hcall, hstands', hnodup', hextends', hnew'⟩ :=
    hjoins { w with graph := g, log := w.log ++ lines } ds ids hstands hnodup
  obtain ⟨s, hs⟩ := Option.isSome_iff_exists.mp hlabel
  refine ⟨d, js, g', ?_, hstands', hnodup', hextends.trans hextends', fun id hid => ?_⟩
  · rw [transform, perform_bind, hperform]
    simp only [replace, hs]
    rw [perform_callNamed hcall, List.append_assoc]
  · exact (hnew' id hid).elim (hnew id) hextends.size_le.trans

theorem buildsAll_nil : BuildsAll (transformAll []) [] [] := by
  intro w
  exact ⟨[], [], w.graph, by simp [transformAll]; rfl, ⟨rfl, rfl⟩, List.nodup_nil, .refl _, by simp⟩

/-- The first raw tree is transformed, and then the others. -/
theorem buildsAll_cons {raw : Datum} {raws : List Datum} {t : NodeTree} {ts : List NodeTree}
    {lines more : List String} (hfirst : Builds (transform raw) t lines)
    (hrest : BuildsAll (transformAll raws) ts more) :
    BuildsAll (transformAll (raw :: raws)) (t :: ts) (lines ++ more) := by
  intro w
  obtain ⟨d, ids, g, hperform, hstands, hnodup, hextends, hnew⟩ := hfirst w
  obtain ⟨ds, js, g', hperform', hstands', hnodup', hextends', hnew'⟩ :=
    hrest { w with graph := g, log := w.log ++ lines }
  refine ⟨d :: ds, ids ++ js, g', ?_, ⟨d, ds, ids, js, rfl, rfl, hstands.extend hextends',
    hstands'⟩, ?_, hextends.trans hextends', fun id hid => ?_⟩
  · rw [transformAll, perform_bind, hperform]
    simp only [perform_bind, hperform', List.append_assoc]
    rfl
  · refine List.nodup_append.mpr ⟨hnodup, hnodup', fun i hi j hj heq => ?_⟩
    have hlt := hstands.lt_size _ i hi
    have hle : g.nodes.size ≤ j := hnew' j hj
    omega
  · exact (List.mem_append.mp hid).elim (hnew id) fun hid => hextends.size_le.trans (hnew' id hid)

/-- A tree with one child. -/
theorem builds_single {label : String} {raw : Datum} {t t' : NodeTree} {lines more : List String}
    (h : Builds (transform raw) t lines) (hlabel : (signature? label).isSome = true)
    (hjoins : Joins label [t] t' more) :
    Builds (transform (.tree label [raw])) t' (lines ++ more) := by
  have hall : BuildsAll (transformAll [raw]) [t] lines := by
    simpa using buildsAll_cons h buildsAll_nil
  exact builds_tree hlabel hall hjoins

/-- A tree with two children. -/
theorem builds_pair {label : String} {raw raw' : Datum} {t t' u : NodeTree}
    {lines lines' more : List String} (h : Builds (transform raw) t lines)
    (h' : Builds (transform raw') t' lines') (hlabel : (signature? label).isSome = true)
    (hjoins : Joins label [t, t'] u more) :
    Builds (transform (.tree label [raw, raw'])) u (lines ++ lines' ++ more) := by
  have hall : BuildsAll (transformAll [raw, raw']) [t, t'] (lines ++ lines') := by
    simpa using buildsAll_cons h (buildsAll_cons h' buildsAll_nil)
  exact builds_tree hlabel hall hjoins

/-- The rules that only hand on what they are given. -/
theorem builds_wrap (label : String) {raw : Datum} {t : NodeTree} {lines : List String}
    (h : Builds (transform raw) t lines)
    (hlabel : label ∈ ["factor", "termino", "expr_aritmetica", "expr_logica", "expresion",
      "start"]) :
    Builds (transform (.tree label [raw])) t lines := by
  have hsame (d : Datum) (w : Workshop) : (call label [d]).perform w = (.ok d, w) := by
    simp only [List.mem_cons, List.not_mem_nil, or_false] at hlabel
    obtain rfl | rfl | rfl | rfl | rfl | rfl := hlabel <;> rfl
  have hjoins : Joins label [t] t [] := by
    rintro w ds ids ⟨d, _, is, _, rfl, rfl, hstands, rfl, rfl⟩ hnodup
    rw [List.append_nil] at hnodup
    exact ⟨d, is, w.graph, by simp [hsame], hstands, hnodup, .refl _, by simp +contextual⟩
  have hrule : (signature? label).isSome = true := by
    simp only [List.mem_cons, List.not_mem_nil, or_false] at hlabel
    obtain rfl | rfl | rfl | rfl | rfl | rfl := hlabel <;> rfl
  simpa using builds_single h hrule hjoins

/-! ## Rules that add a node -/

/-- A new node stands for a tree if its children and what is in its slots do. -/
theorem stands_push {g : Graph} {children : List NodeTree} {cs : List Datum} {is js : List Nat}
    {own : List (String × NodeTree)} {slots : List (String × Datum)}
    (hchildren : g.StandsAll children cs is) (hown : g.StandsIn own slots js)
    (hids : (is ++ js).Nodup) (cls : NodeClass) (spot : Option Spot) (ty : Option Ty)
    (value : Option Constant) :
    let g' := (g.push (.ofParts cls spot cs ty value slots)).2
    g'.Stands (.ofNode cls spot children ty value own) (.node cls g.nodes.size)
        (g.nodes.size :: (is ++ js)) ∧
      (g.nodes.size :: (is ++ js)).Nodup := by
  intro g'
  have hextends : g.Extends g' := g.extends_push _
  have hlt : ∀ id ∈ is ++ js, id < g.nodes.size := fun id hid =>
    (List.mem_append.mp hid).elim (Graph.StandsAll.lt_size children hchildren id)
      (Graph.StandsIn.lt_size own hown id)
  have hnode : g'.nodes[g.nodes.size]? = some (.ofParts cls spot cs ty value slots) := by
    simp [g', Graph.push]
  refine ⟨Graph.stands_ofNode.mpr ⟨_, cs, is, slots, js, rfl, rfl, hnode, ?_, ?_⟩, ?_⟩
  · exact hchildren.extend hextends
  · exact hown.extend hextends
  · exact List.nodup_cons.mpr ⟨fun hmem => Nat.lt_irrefl _ (hlt _ hmem), hids⟩

/-- A rule that adds one node, with what it is given as its children and in its slots. -/
theorem joins_push {label : String} {ts children : List NodeTree} {cls : NodeClass} {ty : Option Ty}
    {own : List (String × NodeTree)} {lines : List String}
    (hcall : ∀ (w : Workshop) (ds : List Datum) (ids : List Nat), w.graph.StandsAll ts ds ids →
      ∃ cs slots is js, ids = is ++ js ∧ w.graph.StandsAll children cs is ∧
        w.graph.StandsIn own slots js ∧
          (call label ds).perform w = (.ok (.node cls w.graph.nodes.size),
            { w with
              graph := (w.graph.push (.ofParts cls none cs ty none slots)).2
              log := w.log ++ lines })) :
    Joins label ts (.ofNode cls none children ty none own) lines := by
  intro w ds ids hall hids
  obtain ⟨cs, slots, is, js, rfl, hchildren, hown, hperform⟩ := hcall w ds ids hall
  obtain ⟨hstands, hnodup⟩ := stands_push hchildren hown hids cls none ty none
  refine ⟨_, _, _, hperform, hstands, hnodup, w.graph.extends_push _, fun id hid => ?_⟩
  rcases List.mem_cons.mp hid with rfl | hid
  · exact .inr (Nat.le_refl _)
  · exact .inl hid

/-- Slots that are named in order stand for attributes that are named in the same order. -/
theorem standsIn_zip {g : Graph} (names : List String) {ts : List NodeTree} {ds : List Datum}
    {ids : List Nat} (hnames : names.length = ts.length) (h : g.StandsAll ts ds ids) :
    g.StandsIn (names.zip ts) (names.zip ds) ids := by
  induction ts generalizing names ds ids with
  | nil =>
    obtain ⟨rfl, rfl⟩ := h
    obtain rfl := List.length_eq_zero_iff.mp hnames
    exact ⟨rfl, rfl⟩
  | cons t ts ih =>
    obtain ⟨d, rest, is, js, rfl, rfl, hfirst, hrest⟩ := h
    obtain ⟨name, names, rfl⟩ := List.exists_cons_of_length_eq_add_one hnames
    exact ⟨d, _, is, js, rfl, rfl, hfirst, ih names (Nat.succ.inj hnames) hrest⟩

/-- A rule that makes a node with its arguments under the given names. -/
theorem joins_zip {label : String} {ts : List NodeTree} {cls : NodeClass} (names : List String)
    (hnames : names.length = ts.length)
    (hcall : ∀ (w : Workshop) (ds : List Datum), ds.length = ts.length →
      (call label ds).perform w = (.ok (.node cls w.graph.nodes.size),
        { w with graph := (w.graph.push (.ofParts cls none [] none none (names.zip ds))).2 })) :
    Joins label ts (.ofClass cls (names.zip ts)) [] := by
  refine joins_push fun w ds ids hall => ?_
  refine ⟨[], _, [], ids, rfl, Graph.standsAll_nil _, standsIn_zip names hnames hall, ?_⟩
  rw [hcall w ds hall.length_eq, List.append_nil]

/-- A rule that makes a node of one part. -/
theorem builds_one {label name : String} {cls : NodeClass} {raw : Datum} {t : NodeTree}
    {lines : List String} (h : Builds (transform raw) t lines)
    (hlabel : (signature? label).isSome = true)
    (hcall : ∀ (w : Workshop) (d : Datum), (call label [d]).perform w =
      (.ok (.node cls w.graph.nodes.size),
        { w with graph := (w.graph.push (.ofParts cls none [] none none [(name, d)])).2 })) :
    Builds (transform (.tree label [raw])) (.ofClass cls [(name, t)]) lines := by
  have hjoins : Joins label [t] (.ofClass cls ([name].zip [t])) [] :=
    joins_zip [name] rfl fun w ds hds => by
      obtain ⟨d, rfl⟩ := List.length_eq_one_iff.mp hds
      exact hcall w d
  have hbuilds := builds_single h hlabel hjoins
  rwa [List.append_nil] at hbuilds

/-- A rule that makes a node of two parts. -/
theorem builds_two {label name name' : String} {cls : NodeClass} {raw raw' : Datum}
    {t t' : NodeTree} {lines lines' : List String} (h : Builds (transform raw) t lines)
    (h' : Builds (transform raw') t' lines') (hlabel : (signature? label).isSome = true)
    (hcall : ∀ (w : Workshop) (d d' : Datum), (call label [d, d']).perform w =
      (.ok (.node cls w.graph.nodes.size),
        { w with graph :=
  (w.graph.push (.ofParts cls none [] none none [(name, d), (name', d')])).2 })) :
    Builds (transform (.tree label [raw, raw'])) (.ofClass cls [(name, t), (name', t')])
      (lines ++ lines') := by
  have hjoins : Joins label [t, t'] (.ofClass cls ([name, name'].zip [t, t'])) [] :=
    joins_zip [name, name'] rfl fun w ds hds => by
      obtain ⟨d, d', rfl⟩ := List.length_eq_two.mp hds
      exact hcall w d d'
  have hbuilds := builds_pair h h' hlabel hjoins
  rwa [List.append_nil] at hbuilds

/-! ## Names and literals -/

theorem signature?_name (k : Kind) : signature? k.name = none := by
  cases k <;> decide

/-- A rule that makes a node at the place of a token. -/
theorem builds_token {label : String} {t : Token} {cls : NodeClass} {ty : Option Ty}
    {value : Option Constant} {own : List (String × NodeTree)} {slots : List (String × Datum)}
    (hlabel : (signature? label).isSome = true) (hown : ∀ g : Graph, g.StandsIn own slots [])
    (hcall : ∀ w : Workshop, (call label [t.datum]).perform w = (.ok (.node cls w.graph.nodes.size),
      { w with graph := (w.graph.push (.ofParts cls (some t.spot) [] ty value slots)).2 })) :
    Builds (transform (.tree label [t.datum])) (.ofNode cls (some t.spot) [] ty value own) [] := by
  intro w
  obtain ⟨s, hs⟩ := Option.isSome_iff_exists.mp hlabel
  obtain ⟨hstands, hnodup⟩ :=
    stands_push (g := w.graph) (Graph.standsAll_nil _) (hown _) List.nodup_nil cls
      (some t.spot) ty value
  have htoken : transformAll [t.datum] = pure [t.datum] := by
    simp [transformAll, transform, Token.datum, signature?_name]
  refine ⟨_, _, _, ?_, hstands, hnodup, w.graph.extends_push _, by simp⟩
  rw [transform, htoken, pure_bind]
  simp only [replace, hs, List.append_nil]
  exact perform_callNamed (hcall w)

/-- A raw name builds a node of its class. -/
theorem builds_name {label : String} {cls : NodeClass} (t : Token)
    (h : label = "variable" ∧ cls = .variableUse ∨ label = "identificador" ∧ cls = .identifier) :
    Builds (transform (.tree label [t.datum])) (t.toName.node cls) [] := by
  have hown (g : Graph) : g.StandsIn [("name", .text t.text)] [("name", .ofText t.text)] [] :=
    (Graph.standsIn_cons_plain .rfl).mpr ⟨_, rfl, rfl, rfl⟩
  obtain ⟨rfl, rfl⟩ | ⟨rfl, rfl⟩ := h
  · exact builds_token rfl hown fun _ => rfl
  · exact builds_token rfl hown fun _ => rfl

/-- A raw integer builds a number, if its digits can be read. -/
theorem builds_integer {t : Token} {n : Int} (hn : Numeral.readInteger t.text = .ok n) :
    Builds (transform (.tree "entero" [t.datum])) (Expr.number (.whole n) t.spot).node [] := by
  refine builds_token rfl (fun _ => ⟨rfl, rfl⟩) fun w => ?_
  exact makesNumber_integer hn (Constant.shows_integer (Numeral.natAbs_lt_of_readInteger hn)) w

/-- A name or a literal is built from its token. -/
theorem builds_leaf {t : Token} {e : Expr} (hleaf : t.kind ∈ Grammar.leaves)
    (he : t.toExpr = .ok e) :
    Builds (transform (Parse.leaf t e).raw) e.node [] := by
  obtain ⟨kind, text, spot⟩ := t
  cases kind with
  | integer =>
    obtain ⟨n, hn, he⟩ := exists_ok_of_bind he
    cases he
    exact builds_integer hn
  | decimal =>
    obtain ⟨d, hd, he⟩ := exists_ok_of_bind he
    cases he
    exact builds_token rfl (fun _ => ⟨rfl, rfl⟩) fun w => makesNumber_decimal hd w
  | text =>
    cases he
    exact builds_token rfl (fun _ => ⟨rfl, rfl⟩) fun _ => rfl
  | identifier =>
    cases he
    exact builds_name _ (.inl ⟨rfl, rfl⟩)
  | _ => simp [Grammar.leaves] at hleaf

/-! ## Expressions -/

/-- A rule that makes an operation of two expressions. -/
theorem joins_binary {label : String} {op : Operator} {left right : Expr} {ty : Option Ty}
    {lines : List String}
    (hcall : ∀ (w : Workshop) (i j : Nat),
      (call label [.node left.cls i, .node right.cls j]).perform w =
        (.ok (.node .binary w.graph.nodes.size), { w with
          graph := (w.graph.push (.ofParts .binary none [] ty none [("operator", .ofText op.sign),
            ("left", .node left.cls i), ("right", .node right.cls j)])).2
          log := w.log ++ lines })) :
    Joins label [left.node, right.node] (Expr.binary op left right ⟨ty, none⟩).node lines := by
  refine joins_push fun w ds ids hall => ?_
  have hzip := standsIn_zip ["left", "right"] rfl hall
  obtain ⟨_, _, is, _, rfl, rfl, hleft, _, _, js, _, rfl, rfl, hright, rfl, rfl⟩ := hall
  obtain ⟨i, rfl⟩ := hleft.expr_node
  obtain ⟨j, rfl⟩ := hright.expr_node
  exact ⟨[], _, [], _, rfl, Graph.standsAll_nil _,
    (Graph.standsIn_cons_plain .rfl).mpr ⟨_, rfl, hzip⟩, hcall w i j⟩

/-- An arithmetic rule joins its two operands, and logs the operation. -/
theorem joins_operation {k : Kind} {op : Operator} (hop : k.arithmetic? = some op)
    (left right : Expr) :
    Joins op.rule [left.node, right.node] (Expr.operation op left right).node
      [Reader.operationLine op left right] := by
  cases k <;> cases hop <;> exact joins_binary fun _ _ _ => rfl

/-- A relational rule joins its two operands, and logs nothing. -/
theorem joins_comparison {k : Kind} {op : Operator} (hop : k.relational? = some op)
    (left right : Expr) :
    Joins op.rule [left.node, right.node] (Expr.operation op left right).node [] := by
  have hcompared (w : Workshop) (i j : Nat) :
      (compared op.sign (.node left.cls i) (.node right.cls j)).perform w =
        (.ok (.node .binary w.graph.nodes.size), { w with
          graph := (w.graph.push (.ofParts .binary none [] (some .bool) none
            [("operator", .ofText op.sign), ("left", .node left.cls i),
              ("right", .node right.cls j)])).2
          log := w.log ++ [] }) := by
    rw [List.append_nil]
    exact congrArg (fun g => (Except.ok (Datum.node .binary w.graph.nodes.size),
      { w with graph := g })) (Graph.fill_push ..)
  cases k <;> cases hop <;> exact joins_binary hcompared

/-- An expression that is not compared passes through, and is logged. -/
theorem joins_plain (e : Expr) :
    Joins "expr_relacional" [e.node] e.node [Reader.plainLine e] := by
  rintro w ds ids ⟨d, _, is, _, rfl, rfl, hstands, rfl, rfl⟩ hnodup
  rw [List.append_nil] at hnodup
  obtain ⟨id, rfl⟩ := hstands.expr_node
  -- The row of the other arguments is shown as a text of its own.
  have hline : Reader.plainLine e = s!"DEBUG expr_relacional: expr={e.cls.shown}, args=" ++ "()" :=
    (@String.append_assoc s!"DEBUG expr_relacional: expr={e.cls.shown}" ", args=" "()").symm
  exact ⟨_, is,
    w.graph, by rw [hline]; rfl, hstands, hnodup, .refl _, fun id hid => .inl (by simpa using hid)⟩

/-- The rules around a whole expression pass it on. -/
theorem builds_whole {raw : Datum} {t : NodeTree} {lines : List String}
    (h : Builds (transform raw) t lines) :
    Builds (transform (.tree "expresion" [.tree "expr_logica" [raw]])) t lines :=
  builds_wrap _ (builds_wrap _ h (by decide)) (by decide)

theorem isSome_signature?_rule (op : Operator) : (signature? op.rule).isSome = true := by
  cases op <;> rfl

/-- The nodes of an expression are built from its parse tree. -/
theorem builds_expr {rank : Parse.Rank} {x : Parse Expr} (h : x.IsExpr rank) :
    Builds (transform x.raw) x.part.node x.lines := by
  induction h with
  | leaf hleaf he => exact builds_wrap _ (builds_leaf hleaf he) (by decide)
  | paren _ _ _ ih => exact builds_wrap _ ih (by decide)
  | single _ ih => exact builds_wrap _ (builds_wrap _ ih (by decide)) (by decide)
  | @operation op x sign y hop _ _ ihx ihy =>
    have hleft := builds_wrap "termino" ihx (by decide)
    have hright := builds_wrap "termino" ihy (by decide)
    simpa [Parse.operation] using builds_pair hleft hright (isSome_signature?_rule op)
      (joins_operation hop _ _)
  | plain _ ih =>
    exact builds_whole (builds_single ih rfl (joins_plain _))
  | @comparison op x sign y hop _ _ ihx ihy =>
    have hpair := builds_pair ihx ihy (isSome_signature?_rule op) (joins_comparison hop _ _)
    rw [List.append_nil] at hpair
    exact builds_whole hpair

/-! ## Statements -/

/-- A raw tree that no rule is for stays, with what its child has become. -/
theorem builds_sentence {raw : Datum} {t : NodeTree} {lines : List String}
    (h : Builds (transform raw) t lines) :
    Builds (transform (.tree "sentencia" [raw])) (.sentence t) lines := by
  intro w
  obtain ⟨d, ids, g, hperform, hstands, hnodup, hextends, hnew⟩ := h w
  refine ⟨_, ids, g, ?_, Graph.stands_sentence.mpr ⟨d, rfl, hstands⟩, hnodup, hextends, hnew⟩
  simp only [transform, transformAll, perform_bind, hperform]
  rfl

/-- The trees of some phrases are built one after the other. -/
theorem buildsAll_map {α : Type} {raw : α → Datum} {tree : α → NodeTree} {lines : α → List String}
    {xs : List α} (h : ∀ x ∈ xs, Builds (transform (raw x)) (tree x) (lines x)) :
    BuildsAll (transformAll (xs.map raw)) (xs.map tree) (xs.flatMap lines) := by
  induction xs with
  | nil => exact buildsAll_nil
  | cons x xs ih =>
    rw [List.flatMap_cons]
    exact buildsAll_cons (h x List.mem_cons_self) (ih fun y hy => h y (List.mem_cons_of_mem x hy))

/-- A block joins its statements. -/
theorem joins_block (body : List Stmt) :
    Joins "bloque" (Stmt.nodeAll body) (.block (Stmt.nodeAll body)) [] := by
  refine joins_push fun w ds ids hall => ?_
  have hparts : ∀ d ∈ ds, d.IsPart := hall.forall_mem fun t ht d is hd => by
    rw [Stmt.nodeAll_eq_map] at ht
    obtain ⟨s, -, rfl⟩ := List.mem_map.mp ht
    exact Datum.isPart_of_stands_sentence hd
  have hfilter : ds.filter (·.isTrue) = ds :=
    List.filter_eq_self.mpr fun d hd => (hparts d hd).isTrue_eq
  have hcall : (call "bloque" ds).perform w = (.ok (.node .block w.graph.nodes.size), { w with
      graph := (w.graph.push (.ofParts .block none [] none none [("statements", .list ds)])).2
      log := w.log ++ [] }) := by
    change (make .block [("statements", .list (ds.filter (·.isTrue)))]).perform w = _
    rw [hfilter, List.append_nil]
    cases ds <;> rfl
  refine ⟨[], _, [], ids, rfl, Graph.standsAll_nil _, ?_, hcall⟩
  exact ⟨_, _, ids, [], rfl, (List.append_nil ids).symm, ⟨ds, rfl, hall⟩, rfl, rfl⟩

/-- A block is built of its statements. -/
theorem builds_block (b : Parse.Block)
    (h : ∀ y ∈ b.body, Builds (transform y.raw) y.part.node y.lines) :
    Builds (transform b.raw) (.block (Stmt.nodeAll b.part)) b.lines := by
  have hall : BuildsAll (transformAll (b.body.map fun y => y.sentence.raw))
      (b.body.map fun y => .sentence y.part.node) b.lines :=
    buildsAll_map fun y hy => builds_sentence (h y hy)
  have hnodes : Stmt.nodeAll b.part = b.body.map fun y => .sentence y.part.node := by
    rw [Stmt.nodeAll_eq_map, Parse.Block.part, List.map_map]
    rfl
  rw [← hnodes] at hall
  have hblock := builds_tree rfl hall (joins_block b.part)
  rwa [List.append_nil] at hblock

theorem builds_none : Builds (transform .none) .none [] := by
  intro w
  exact ⟨.none, [],
    w.graph, by rw [List.append_nil]; rfl, ⟨rfl, rfl⟩, List.nodup_nil, .refl _, by simp⟩

/-- A conditional is built of its condition, its block and what stands for the other. -/
theorem builds_conditional (head : Parse.Guarded .si) {b : Parse.Block} {raw : Datum}
    {other : NodeTree} {lines : List String}
    (hb : Builds (transform b.raw) (.block (Stmt.nodeAll b.part)) b.lines)
    (hother : Builds (transform raw) other lines) :
    Builds (transform (.tree "condicional" [head.guard.raw, b.raw, raw]))
      (.ofClass .conditional [("condition", head.guard.part.node),
        ("if_body", .block (Stmt.nodeAll b.part)), ("else_body", other)])
      (head.guard.lines ++ (b.lines ++ lines)) := by
  have hall := buildsAll_cons (builds_expr head.isExpr)
    (buildsAll_cons hb (buildsAll_cons hother buildsAll_nil))
  have hjoins (t t' u : NodeTree) : Joins "condicional" [t, t', u]
      (.ofClass .conditional (["condition", "if_body", "else_body"].zip [t, t', u])) [] :=
    joins_zip _ rfl fun w ds hds => by
      obtain ⟨condition, body, other, rfl⟩ := List.length_eq_three.mp hds
      rfl
  have hbuilds := builds_tree rfl hall (hjoins _ _ _)
  rwa [List.append_nil, List.append_nil] at hbuilds

/-- The nodes of a statement are built from its parse tree. -/
theorem builds_stmt {x : Parse Stmt} (h : x.IsStmt) :
    Builds (transform x.raw) x.part.node x.lines := by
  induction h with
  | assign target mark hx closing =>
    exact builds_two (builds_name target.1 (.inl ⟨rfl, rfl⟩)) (builds_expr hx) rfl fun _ _ _ => rfl
  | conditional head b hb ih =>
    have hbuilds := builds_conditional head (builds_block b ih) builds_none
    rwa [List.append_nil] at hbuilds
  | alternative head b hb other b' hb' ih ih' =>
    exact builds_conditional head (builds_block b ih) (builds_block b' ih')
  | whileLoop head b hb ih =>
    exact builds_two (builds_expr head.isExpr) (builds_block b ih) rfl fun _ _ _ => rfl
  | repeatLoop c b hb ih =>
    exact builds_two (builds_integer c.reads) (builds_block b ih) rfl fun _ _ _ => rfl
  | print head mark =>
    exact builds_one (builds_expr head.isExpr) rfl fun _ _ => rfl
  | lone word opening t he closing mark =>
    have hleaf : t.1.kind ∈ Grammar.leaves := by rw [t.2]; decide
    exact builds_one (builds_leaf hleaf he) rfl fun _ _ => rfl
  | input word opening target closing mark =>
    exact builds_one (builds_name target.1 (.inl ⟨rfl, rfl⟩)) rfl fun _ _ => rfl
  | block b hb ih => exact builds_block b ih

/-! ## Programs -/

/-- A part becomes the last child of the newest node. -/
theorem perform_addChild_push (w : Workshop) {g : Graph} {cls : NodeClass} {spot : Option Spot}
    {cs : List Datum} {ty : Option Ty} {value : Option Constant} {own : List (String × Datum)}
    {d : Datum} (hd : d.IsPart) :
    (addChild (.node cls g.nodes.size) d).perform
        { w with graph := (g.push (.ofParts cls spot cs ty value own)).2 } =
      (.ok (), { w with graph := (g.push (.ofParts cls spot (cs ++ [d]) ty value own)).2 }) := by
  have hset : (setAttr (.node cls g.nodes.size) "children" (.list (cs ++ [d]))).perform
        { w with graph := (g.push (.ofParts cls spot cs ty value own)).2 } =
      (.ok (), { w with graph := (g.push (.ofParts cls spot (cs ++ [d]) ty value own)).2 }) := by
    rw [perform_setAttr, Graph.fill_push, Node.ofParts_set_children]
  have hchildren := perform_attr (w := { w with
      graph := (g.push (.ofParts cls spot cs ty value own)).2 })
    (Graph.attr?_push g (.ofParts cls spot cs ty value own) cls "children")
  -- A part is neither nothing nor a list, so it is added as it is.
  cases d with
  | tree label parts => exact (perform_bind_ok hchildren _).trans hset
  | node part id => exact (perform_bind_ok hchildren _).trans hset
  | _ => exact hd.elim

/-- A loop goes from workshop to workshop, which one depending on what it has gone through. -/
theorem perform_forIn {γ : Type} {body : γ → Unit → Work (ForInStep Unit)} {xs : List γ}
    (state : List γ → Workshop) (hbody : ∀ done, ∀ x ∈ xs,
      (body x ()).perform (state done) = (.ok (.yield ()), state (done ++ [x]))) (done : List γ) :
    (forIn xs () body).perform (state done) = (.ok (), state (done ++ xs)) := by
  induction xs generalizing done with
  | nil => rw [List.append_nil]; rfl
  | cons x xs ih =>
    rw [List.forIn_cons, perform_bind, hbody done x List.mem_cons_self, List.append_cons done x xs]
    exact ih (fun done y hy => hbody done y (List.mem_cons_of_mem x hy)) (done ++ [x])

/-- Parts become the children of a program, in their order. -/
theorem perform_program (w : Workshop) {ds : List Datum} (hds : ∀ d ∈ ds, d.IsPart) :
    (program ds).perform w = (.ok (.node .program w.graph.nodes.size),
      { w with graph := (w.graph.push (.ofParts .program none ds none none [])).2 }) := by
  have hmake : (make .program []).perform w = (.ok (.node .program w.graph.nodes.size),
      { w with graph := (w.graph.push (.ofParts .program none [] none none [])).2 }) := rfl
  rw [program, perform_bind_ok hmake, perform_bind_ok (perform_forIn (fun cs =>
    { w with graph := (w.graph.push (.ofParts .program none cs none none [])).2 })
      (fun cs d hd => ?_) [])]
  · rfl
  · rw [if_pos (hds d hd).isTrue_eq, perform_bind_ok (perform_addChild_push w (hds d hd))]
    rfl

/-- What stands for a name is a node that has it. -/
theorem exists_name_of_stands {g : Graph} {cls : NodeClass} {name : Name} {d : Datum}
    {ids : List Nat} (h : g.Stands (name.node cls) d ids) :
    ∃ id, d = .node cls id ∧ g.attr? d "name" = some (.ofText name.text) := by
  obtain ⟨id, cs, is, slots, js, rfl, -, hnode, -, hslots⟩ := Graph.stands_ofNode.mp h
  obtain ⟨_, rfl, -⟩ := (Graph.standsIn_cons_plain .rfl).mp hslots
  exact ⟨id, rfl, by simp only [Graph.attr?, hnode]; rfl⟩

/-- The names of identifiers are read off their nodes. -/
theorem map_attr?_name {g : Graph} {cls : NodeClass} {names : List Name} {ds : List Datum}
    {ids : List Nat} (h : g.StandsAll (names.map (Name.node cls)) ds ids) :
    ds.map (fun d => (g.attr? d "name").getD .none) = names.map (.ofText ·.text) := by
  induction names generalizing ds ids with
  | nil => rw [h.1]; rfl
  | cons name names ih =>
    obtain ⟨d, rest, is, js, rfl, -, hfirst, hrest⟩ := h
    obtain ⟨id, rfl, hname⟩ := exists_name_of_stands hfirst
    rw [List.map_cons, List.map_cons, ih hrest, hname, Option.getD_some]

/-- A list of identifiers, with the given nodes as its children and their names as the identifiers.
-/
def listNode (g : Graph) (cs : List Datum) : Node :=
  .ofParts .identifierList none cs none none
    [("identifiers", .list (cs.map fun d => (g.attr? d "name").getD .none))]

/-- Identifiers become the children of a list, and their names its identifiers. -/
theorem perform_identifierList (w : Workshop) {ds : List Datum}
    (hds : ∀ d ∈ ds, ∃ id name, d = .node .identifier id ∧ w.graph.attr? d "name" = some name) :
    (identifierList ds).perform w = (.ok (.node .identifierList w.graph.nodes.size),
      { w with graph := (w.graph.push (listNode w.graph ds)).2 }) := by
  have hmake : (make .identifierList []).perform w =
      (.ok (.node .identifierList w.graph.nodes.size),
      { w with graph := (w.graph.push (listNode w.graph [])).2 }) := rfl
  rw [identifierList, perform_bind_ok hmake, perform_bind_ok (perform_forIn (fun cs =>
    { w with graph := (w.graph.push (listNode w.graph cs)).2 }) (fun cs d hd => ?_) [])]
  · rfl
  · obtain ⟨id, name, rfl, hname⟩ := hds d hd
    have hpart : (w.graph.push (listNode w.graph cs)).2.attr? (.node .identifier id) "name" =
        some name := ((Graph.sameAt_push (Graph.lt_size_of_attr? hname)).attr? _ _).trans hname
    have hold : (w.graph.push (listNode w.graph cs)).2.attr?
        (.node .identifierList w.graph.nodes.size) "identifiers" =
          some (.list (cs.map fun d => (w.graph.attr? d "name").getD .none)) := Graph.attr?_push ..
    have hset : (listNode w.graph cs).set "identifiers"
        (.list (cs.map (fun d => (w.graph.attr? d "name").getD .none) ++ [name])) =
          .ofParts .identifierList none cs none none [("identifiers",
            .list ((cs ++ [Datum.node .identifier id]).map fun d =>
              (w.graph.attr? d "name").getD .none))] := by
      rw [List.map_append, List.map_singleton, hname]
      rfl
    have hid : (Datum.node .identifier id).IsPart := trivial
    rw [perform_bind_ok (perform_attr hpart), perform_bind_ok (perform_attr hold),
      perform_bind_ok (perform_setAttr ..), Graph.fill_push, hset,
      perform_bind_ok (perform_addChild_push w hid)]
    rfl

/-- A list of identifiers joins them, and keeps their names. -/
theorem joins_identifierList (names : List Name) :
    Joins "identificador_lista" (names.map (Name.node .identifier))
      (.ofNode .identifierList none (names.map (Name.node .identifier)) none none
        [("identifiers", .list (names.map (.text ·.text)))]) [] := by
  refine joins_push fun w ds ids hall => ?_
  have hslots : w.graph.StandsIn [("identifiers", .list (names.map (.text ·.text)))]
      [("identifiers", .list (names.map (.ofText ·.text)))] [] := by
    have htexts : w.graph.StandsAll ((names.map (·.text)).map .text) _ [] :=
      Graph.standsAll_texts.mpr ⟨rfl, rfl⟩
    rw [List.map_map, List.map_map] at htexts
    exact ⟨_, [], [], [], rfl, rfl, ⟨_, rfl, htexts⟩, rfl, rfl⟩
  refine ⟨ds, _, ids, [], (List.append_nil ids).symm, hall, hslots, ?_⟩
  have hparts : ∀ d ∈ ds, ∃ id name, d = .node .identifier id ∧
      w.graph.attr? d "name" = some name :=
    hall.forall_mem fun t ht d is hd => by
      obtain ⟨name, -, rfl⟩ := List.mem_map.mp ht
      obtain ⟨id, hid, hname⟩ := exists_name_of_stands hd
      exact ⟨id, _, hid, hname⟩
  change (identifierList ds).perform w = _
  rw [perform_identifierList w hparts, listNode, map_attr?_name hall, List.append_nil]

/-- A declaration joins its type and its list. -/
theorem joins_declaration (ty : Ty) (cls : NodeClass) (attrs : List (String × NodeTree)) :
    Joins "declaracion" [.text ty.name, .node cls attrs]
      (.ofNode .declaration none [.node cls attrs] (some ty) none
        [("var_type", .text ty.name)]) [] := by
  refine joins_push fun w ds ids hall => ?_
  obtain ⟨_, _, _, _, rfl, rfl, ⟨rfl, rfl⟩, d, _, is, _, rfl, rfl, hd, rfl, rfl⟩ := hall
  refine ⟨[d], _, is, [], ?_, ⟨d, [], is, [], rfl, ?_, hd, rfl, rfl⟩,
    (Graph.standsIn_cons_plain .rfl).mpr ⟨_, rfl, rfl, rfl⟩, ?_⟩
  · simp
  · simp
  · have hmake : (make .declaration [("var_type", .ofText ty.name)]).perform w =
        (.ok (.node .declaration w.graph.nodes.size),
          { w with graph := (w.graph.push (.ofParts .declaration none [] (some ty) none
            [("var_type", .ofText ty.name)])).2 }) := rfl
    change (declaration (.ofText ty.name) d).perform w = _
    rw [declaration, perform_bind, hmake, List.append_nil]
    simp only [perform_bind]
    rw [perform_addChild_push w (Datum.isPart_of_stands_node hd)]
    rfl

theorem builds_type {k : Kind} {ty : Ty} (hty : k.type? = some ty) :
    Builds (transform (.tree ty.rule [])) (.text ty.name) [] := by
  have hjoins : Joins ty.rule [] (.text ty.name) [] := by
    rintro w ds ids ⟨rfl, rfl⟩ hnodup
    refine ⟨.ofText ty.name, [], w.graph, ?_, ⟨rfl, rfl⟩, hnodup, .refl _, fun id hid => .inl hid⟩
    rw [List.append_nil]
    cases k <;> cases hty <;> rfl
  have hrule : (signature? ty.rule).isSome = true := by cases ty <;> rfl
  exact builds_tree hrule buildsAll_nil hjoins

/-- The nodes of a declaration or a statement are built from its parse tree. -/
theorem builds_item {x : Parse Item} (h : x.IsItem) :
    Builds (transform x.raw) x.part.node x.lines := by
  cases h with
  | @declaration word ty names ts hty hnames closing =>
    have hall : BuildsAll (transformAll (names.map fun n => .tree "identificador" [n.1.datum]))
        ((names.map (·.1.toName)).map (Name.node .identifier)) (names.flatMap fun _ => []) := by
      rw [List.map_map]
      exact buildsAll_map fun n _ => builds_name n.1 (.inr ⟨rfl, rfl⟩)
    rw [List.flatMap_eq_nil_iff.mpr fun _ _ => rfl] at hall
    have hlist := builds_tree rfl hall (joins_identifierList _)
    exact builds_pair (builds_type hty) hlist rfl (joins_declaration ty _ _)
  | statement hx => exact builds_sentence (builds_stmt hx)

/-- A program joins its items. -/
theorem joins_program (items : List Item) :
    Joins "programa" (items.map Item.node) (Program.node ⟨items⟩) [] := by
  refine joins_push fun w ds ids hall => ?_
  have hparts : ∀ d ∈ ds, d.IsPart := hall.forall_mem fun t ht d is hd => by
    obtain ⟨item, -, rfl⟩ := List.mem_map.mp ht
    cases item with
    | declaration => exact Datum.isPart_of_stands_node hd
    | statement s => exact Datum.isPart_of_stands_sentence hd
  refine ⟨ds, [], ids, [], (List.append_nil ids).symm, hall, ⟨rfl, rfl⟩, ?_⟩
  change (program ds).perform w = _
  rw [perform_program w hparts, List.append_nil]

/-- The nodes of a program are built from its parse tree. -/
theorem builds_program {x : Parse Program} (h : x.IsProgram) :
    Builds (transform x.raw) x.part.node x.lines := by
  obtain @⟨items, hitems⟩ := h
  have hall : BuildsAll (transformAll (items.map Parse.raw)) ((items.map Parse.part).map Item.node)
      (items.flatMap Parse.lines) := by
    rw [List.map_map]
    exact buildsAll_map fun y hy => builds_item (hitems y hy)
  have hbuilds := builds_tree rfl hall (joins_program _)
  rw [List.append_nil] at hbuilds
  exact builds_wrap _ hbuilds (by decide)

end Assembly

/-- A program that is read has a parse tree that spans the text, and its nodes are those that the
rules build of the raw tree. -/
theorem Reading.builds_nodes {code : String} {p : Program} {log : List String}
    (h : Reading.ofText code = .program p log) : ∃ x : Parse Program, x.IsProgram ∧ x.part = p ∧
      x.tokens = (Scan.ofText code).tokens ∧ (Assembly.transform x.raw).Builds p.node log := by
  obtain ⟨x, hx, rfl, htokens, rfl⟩ := Reading.exists_parse h
  exact ⟨x, hx, rfl, htokens, Assembly.builds_program hx⟩

end Analizador
