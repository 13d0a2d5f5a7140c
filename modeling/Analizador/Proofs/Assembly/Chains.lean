import Analizador.Proofs.Assembly.Literals
import Analizador.Proofs.Attribution.Printable
import Analizador.Proofs.Walk.Outcomes

/-! # Chains of operations

Four rules build a chain: they take a first operand and then operators and operands in turn, and
make an operation of what they have so far and the next operand, each in their own way. The
operations nest to the left, and going down on the left gives back all that the rule was given, in
its order. An operator at the end that has no operand is dropped. The rules log what they are given,
so they fail on a first operand that cannot be printed; no node is one. -/

namespace Analizador

/-- The datum can be shown in a row of arguments. -/
def Datum.Quotes (d : Datum) : Prop := ∃ shown, d.quoted = .ok shown

/-- The node of an operation without a place. -/
def Node.operation (op left right ty : Datum) : Node :=
  ⟨.binary, [("line", .none), ("column", .none), ("children", .list []), ("type", ty),
    ("value", .none), ("operator", op), ("left", left), ("right", right)]⟩

namespace Assembly

/-- An operator that a rule is given: a token or a plain text. -/
inductive Sign where
  | token (kind text : String) (line column : Datum)
  | plain (text : String)

namespace Sign

/-- The operator as an argument. -/
def datum : Sign → Datum
  | token kind text line column => .token kind text line column
  | plain text => .ofText text

/-- The text of the operator. -/
def text : Sign → String
  | token _ text _ _ | plain text => text

end Sign

/-- An operator and the node that follows it. -/
structure Link where
  sign : Sign
  cls : NodeClass
  id : Nat

/-- The operand of a link. -/
def Link.operand (l : Link) : Datum := .node l.cls l.id

/-- Operators and operands in turn. -/
def arguments (links : List Link) : List Datum := links.flatMap fun l => [l.sign.datum, l.operand]

/-- The rules that build chains. -/
inductive ChainRule where
  | logical
  | relational
  | sum
  | product
  deriving DecidableEq

namespace ChainRule

/-- The name of a rule. -/
def name : ChainRule → String
  | logical => "expr_logica"
  | relational => "expr_relacional"
  | sum => "expr_aritmetica"
  | product => "termino"

/-- How a rule makes one operation. -/
def link : ChainRule → Datum → Datum → Datum → Work Datum
  | logical => logicalLink
  | relational => relationalLink
  | sum => arithmeticLink "expr_aritmetica" [("-", "RESTA"), ("+", "SUMA")]
  | product => arithmeticLink "termino" [("*", "MULTIPLICACIÓN"), ("/", "DIVISIÓN")]

/-- The type of an operation that a rule makes. -/
def type (rule : ChainRule) (op : String) : Datum :=
  if rule = relational ∧ op ∈ comparisonSigns then .ofText Ty.bool.name else .none

/-- The node that a rule makes of what it has so far and a link. -/
def node (rule : ChainRule) (left : Datum) (l : Link) : Node :=
  .operation (.ofText l.sign.text) left l.operand (rule.type l.sign.text)

/-- The chain over a first operand, and the graph with its nodes. -/
def build (rule : ChainRule) (g : Graph) (first : Datum) : List Link → Datum × Graph
  | [] => (first, g)
  | l :: links => build rule (g.push (rule.node first l)).2 (.node .binary g.nodes.size) links

end ChainRule

/-- One level of a chain: the operator, the right operand and the type of the operation. -/
structure Level where
  op : Datum
  right : Datum
  ty : Datum

/-- The left operand of an operation and the level around it. -/
def level? (g : Graph) : Datum → Option (Datum × Level)
  | .node .binary id => do
    let op ← g.attr? (.node .binary id) "operator"
    let left ← g.attr? (.node .binary id) "left"
    let right ← g.attr? (.node .binary id) "right"
    let ty ← g.attr? (.node .binary id) "type"
    return (left, ⟨op, right, ty⟩)
  | _ => none

/-- Goes down on the left of an operation, a number of levels, and gives what is found there and the
levels that were passed, from the innermost out. -/
def unroll (g : Graph) : Nat → Datum → Option (Datum × List Level)
  | 0, d => some (d, [])
  | n + 1, d => do
    let (left, level) ← level? g d
    let (first, levels) ← unroll g n left
    return (first, levels ++ [level])

/-- The level that a rule makes of a link. -/
def ChainRule.level (rule : ChainRule) (l : Link) : Level :=
  ⟨.ofText l.sign.text, l.operand, rule.type l.sign.text⟩

/-! ## Unrolling what is built -/

section

variable {rule : ChainRule} {g : Graph} {first : Datum} {links : List Link}

/-- The nodes that were there stay. -/
theorem sameAt_build {id : Nat} (h : id < g.nodes.size) :
    g.SameAt (rule.build g first links).2 id := by
  induction links generalizing g first with
  | nil => exact rfl
  | cons l links ih =>
    have hpush : id < (g.push (rule.node first l)).2.nodes.size := by
      rw [Graph.size_push]
      omega
    exact (Graph.sameAt_push h).trans (ih hpush)

/-- One level more, if what is found after the others is an operation. -/
theorem unroll_succ {n : Nat} {d inner left : Datum} {level : Level} {levels : List Level}
    (h : unroll g n d = some (inner, levels)) (hinner : level? g inner = some (left, level)) :
    unroll g (n + 1) d = some (left, level :: levels) := by
  induction n generalizing d levels with
  | zero =>
    obtain ⟨rfl, rfl⟩ := Prod.mk.inj (Option.some.inj h)
    simp [unroll, hinner]
  | succ n ih =>
    obtain ⟨⟨left', level'⟩, hlevel, h⟩ := Option.bind_eq_some_iff.mp h
    obtain ⟨⟨inner', levels'⟩, hunroll, h⟩ := Option.bind_eq_some_iff.mp h
    obtain ⟨rfl, rfl⟩ := Prod.mk.inj (Option.some.inj h)
    rw [unroll, hlevel]
    simp [ih hunroll]

/-- A chain that is built unrolls to its first operand and its links. -/
theorem unroll_build :
    unroll (rule.build g first links).2 links.length (rule.build g first links).1 =
    some (first, links.map rule.level) := by
  induction links generalizing g first with
  | nil => rfl
  | cons l links ih =>
    have hsame : (g.push (rule.node first l)).2.SameAt
        (rule.build g first (l :: links)).2 g.nodes.size := sameAt_build (by simp [Graph.size_push])
    have hattr (name : String) : (rule.build g first (l :: links)).2.attr?
        (.node .binary g.nodes.size) name = (rule.node first l).slot? name :=
          (hsame.attr? .binary name).trans (g.attr?_push _ _ _)
    have hlevel : level? (rule.build g first (l :: links)).2 (.node .binary g.nodes.size) =
        some (first, rule.level l) := by
      simp only [level?, hattr]
      rfl
    exact unroll_succ ih hlevel

end

/-! ## What a rule makes of one link -/

/-- From the given workshop a step gives `d`, leaves the graph `g`, and logs something; or it fails,
and then `P` does not hold. -/
def Makes (step : Work Datum) (w : Workshop) (d : Datum) (g : Graph) (P : Prop) : Prop :=
  step.Leads w (fun d' w' => d' = d ∧ ∃ log, w' = { w with graph := g, log := w.log ++ log })
    fun _ => ¬ P

open Work

/-- A step that cannot fail comes to what it makes. -/
theorem Makes.exists_perform {step : Work Datum} {w : Workshop} {d : Datum} {g : Graph} {P : Prop}
    (h : Makes step w d g P) (hP : P) :
    ∃ log, step.perform w = (.ok d, { w with graph := g, log := w.log ++ log }) := by
  unfold Makes Leads at h
  split at h
  next heq =>
    obtain ⟨rfl, log, rfl⟩ := h
    exact ⟨log, heq⟩
  next => exact absurd hP h

theorem Makes.of_imp {step : Work Datum} {w : Workshop} {d : Datum} {g : Graph} {P P' : Prop}
    (h : Makes step w d g P) (hP : P' → P) : Makes step w d g P' := by
  unfold Makes Leads at h ⊢
  split at h
  next => exact h
  next => exact mt hP h

section

variable {w : Workshop} {left : Datum}

theorem leads_valueOr (sign : Sign) {Q : Datum → Workshop → Prop} {E : Failure → Prop} :
    Leads (valueOr sign.datum) w Q E ↔ Q (.ofText sign.text) w := by
  cases sign <;> exact .rfl

theorem leads_valueOrText (sign : Sign) {Q : Datum → Workshop → Prop} {E : Failure → Prop} :
    Leads (valueOrText sign.datum) w Q E ↔ Q (.ofText sign.text) w := by
  cases sign <;> exact .rfl

/-- An operation is a new node. -/
theorem leads_makeBinary (op right : Datum) {Q : Datum → Workshop → Prop} {E : Failure → Prop} :
    Leads (makeBinary op left right) w Q E ↔
      Q (.node .binary w.graph.nodes.size)
        { w with graph := (w.graph.push (.operation op left right .none)).2 } :=
  .rfl

end

/-- An operator compares exactly if it is one of the signs of comparison. -/
theorem isComparison_ofText (op : String) :
    isComparison (.ofText op) = true ↔ op ∈ comparisonSigns := by
  rw [isComparison, List.any_eq_true]
  constructor
  · rintro ⟨sign, hsign, hsame⟩
    rwa [Datum.same_ofText.mp hsame]
  · intro hop
    exact ⟨op, hop, Datum.same_ofText.mpr rfl⟩

/-- A logical link makes an operation, and does not fail. -/
theorem makes_logicalLink (w : Workshop) (left : Datum) (l : Link) (P : Prop) :
    Makes (logicalLink left l.sign.datum l.operand) w (.node .binary w.graph.nodes.size)
      (w.graph.push (ChainRule.logical.node left l)).2 P := by
  rw [Makes, logicalLink, leads_bind, leads_valueOr, leads_makeBinary]
  exact ⟨rfl, [], by simp; rfl⟩

/-- A relational link makes an operation, and fails only if its left side cannot be printed. -/
theorem makes_relationalLink (w : Workshop) (left : Datum) (l : Link) :
    Makes (relationalLink left l.sign.datum l.operand) w (.node .binary w.graph.nodes.size)
      (w.graph.push (ChainRule.relational.node left l)).2 left.Prints := by
  rw [Makes, relationalLink, leads_bind, leads_valueOr, leads_bind]
  apply leads_sayText
  · intro line _
    rw [leads_bind, leads_makeBinary]
    by_cases hop : l.sign.text ∈ comparisonSigns
    · have htype : ChainRule.relational.type l.sign.text = .ofText Ty.bool.name := if_pos ⟨rfl, hop⟩
      simp only [(isComparison_ofText _).mpr hop, if_true]
      rw [leads_bind, leads_setAttr, leads_pure, Graph.fill_push]
      refine ⟨rfl, [line], ?_⟩
      rw [ChainRule.node, htype]
      rfl
    · have htype : ChainRule.relational.type l.sign.text = .none := if_neg fun h => hop h.2
      simp only [mt (isComparison_ofText _).mp hop]
      refine ⟨rfl, [line], ?_⟩
      rw [ChainRule.node, htype]
  · rintro f hf ⟨shown, hshown⟩
    rw [hshown] at hf
    cases hf

/-- So does an arithmetic link. -/
theorem makes_arithmeticLink (rule : ChainRule) (hrule : rule ≠ .relational) (title : String)
    (titles : List (String × String)) (w : Workshop) (left : Datum) (l : Link) :
    Makes (arithmeticLink title titles left l.sign.datum l.operand) w
      (.node .binary w.graph.nodes.size)
      (w.graph.push (rule.node left l)).2 left.Prints := by
  have htype : rule.type l.sign.text = .none := if_neg fun h => hrule h.1
  rw [Makes, arithmeticLink, leads_bind, leads_valueOrText, leads_bind]
  apply leads_sayText
  · intro line _
    rw [leads_bind, leads_makeBinary, ChainRule.node, htype]
    split
    next sign announced _ =>
      rw [leads_bind]
      apply leads_sayText
      · intro line' _
        exact ⟨rfl, [line, line'], by simp⟩
      · rintro f hf ⟨shown, hshown⟩
        rw [hshown] at hf
        cases hf
    next => exact ⟨rfl, [line], rfl⟩
  · intro f hf
    cases hf

/-- A rule takes what it has so far as a left operand: it does not print it, or it can. -/
def ChainRule.Takes (rule : ChainRule) (left : Datum) : Prop := rule = .logical ∨ left.Prints

theorem ChainRule.Takes.prints {rule : ChainRule} {left : Datum} (hrule : rule ≠ .logical)
    (h : rule.Takes left) :
    left.Prints :=
  h.resolve_left hrule

/-- Every rule makes the operation of a link, if it takes what it has so far. -/
theorem makes_link (rule : ChainRule) (w : Workshop) (left : Datum) (l : Link) :
    Makes (rule.link left l.sign.datum l.operand) w (.node .binary w.graph.nodes.size)
      (w.graph.push (rule.node left l)).2 (rule.Takes left) := by
  cases rule with
  | logical => exact makes_logicalLink w left l _
  | relational => exact (makes_relationalLink w left l).of_imp (ChainRule.Takes.prints (by decide))
  | sum | product => exact (makes_arithmeticLink _
      (by decide) _ _ w left l).of_imp (ChainRule.Takes.prints (by decide))

/-! ## Chains of any length -/

/-- Links make a chain, one after the other. -/
theorem makes_chain (rule : ChainRule) (w : Workshop) (first : Datum) (links : List Link) :
    Makes (chain rule.link first (arguments links)) w (rule.build w.graph first links).1
      (rule.build w.graph first links).2 (rule.Takes first) := by
  induction links generalizing w first with
  | nil => exact ⟨rfl, [], by simp; rfl⟩
  | cons l links ih =>
    change Leads (rule.link first l.sign.datum l.operand >>= fun d =>
        chain rule.link d (arguments links)) w _ _
    rw [leads_bind]
    apply (makes_link rule w first l).mono
    rintro _ w' ⟨rfl, log, rfl⟩
    -- What has been built so far is a node, which can be printed.
    have htakes : rule.Takes (.node .binary w.graph.nodes.size) := .inr ⟨_, rfl⟩
    obtain ⟨log', hperform⟩ := (ih _ _).exists_perform htakes
    unfold Leads
    rw [hperform]
    exact ⟨rfl, log ++ log', by simp [ChainRule.build]⟩

/-- An operator without an operand is dropped. -/
theorem chain_append (combine : Datum → Datum → Datum → Work Datum) (first : Datum)
    (links : List Link) (last : Datum) :
    chain combine first (arguments links ++ [last]) = chain combine first (arguments links) := by
  induction links generalizing first with
  | nil => rfl
  | cons l links ih =>
    change (combine first l.sign.datum l.operand >>= fun d =>
        chain combine d (arguments links ++ [last])) = _
    simp only [ih]
    rfl

theorem Sign.quotes_datum (sign : Sign) : sign.datum.Quotes := by
  cases sign <;> exact ⟨_, rfl⟩

/-- The arguments of links can be quoted. -/
theorem quotes_of_mem_arguments {links : List Link} {d : Datum} (h : d ∈ arguments links) :
    d.Quotes := by
  obtain ⟨l, -, hd⟩ := List.mem_flatMap.mp h
  rcases List.mem_pair.mp hd with rfl | rfl
  · exact l.sign.quotes_datum
  · exact ⟨_, rfl⟩

theorem exists_argumentRow {ds : List Datum} (h : ∀ d ∈ ds, d.Quotes) :
    ∃ row, Datum.argumentRow ds = .ok row := by
  have hall : ∃ shown, Datum.quotedAll ds = .ok shown := by
    induction ds with
    | nil => exact ⟨[], rfl⟩
    | cons d ds ih =>
      obtain ⟨⟨shown, hshown⟩, hds⟩ := List.forall_mem_cons.mp h
      obtain ⟨rest, hrest⟩ := ih hds
      exact ⟨shown :: rest, by rw [Datum.quotedAll, hshown, hrest]; rfl⟩
  obtain ⟨shown, hshown⟩ := hall
  unfold Datum.argumentRow
  rw [hshown]
  match shown with
  | [] | [_] | _ :: _ :: _ => exact ⟨_, rfl⟩

/-! ## The rules -/

theorem call_eq_chain {rule : ChainRule} (hrule : rule ≠ .relational) (first : Datum)
    (rest : List Datum) :
    call rule.name (first :: rest) = chain rule.link first rest := by
  cases rule with
  | relational => exact absurd rfl hrule
  | logical | sum | product => exact (call_eq_applyRule rfl rfl).trans rfl

/-- The arguments are logged first; then a comparison that is not of two parts alone is a chain like
the others. -/
theorem call_relational (first : Datum) {rest : List Datum} (hrest : rest.length ≠ 1) :
    call ChainRule.relational.name (first :: rest) =
      sayText (do
        return s!"DEBUG expr_relacional: expr={← first.render}, args={← Datum.argumentRow rest}")
      >>= fun _ => chain ChainRule.relational.link first rest := by
  have hcall : call ChainRule.relational.name (first :: rest) = comparison first rest :=
    (call_eq_applyRule rfl rfl).trans rfl
  rw [hcall]
  match rest, hrest with
  | [], _ | _ :: _ :: _, _ => rfl
  | [_], hrest => exact absurd rfl hrest

/-- Each link has two arguments, its sign and its operand. -/
theorem length_arguments (links : List Link) : (arguments links).length = 2 * links.length := by
  simp [arguments, Nat.mul_comm]

theorem makes_call_relational (w : Workshop) (first : Datum) (links : List Link) {rest : List Datum}
    (hchain : chain ChainRule.relational.link first rest =
      chain ChainRule.relational.link first (arguments links))
    (hlength : rest.length ≠ 1) (hquotes : ∀ d ∈ rest, d.Quotes) :
    Makes (call ChainRule.relational.name (first :: rest)) w
      (ChainRule.relational.build w.graph first links).1
      (ChainRule.relational.build w.graph first links).2 (ChainRule.relational.Takes first) := by
  obtain ⟨row, hrow⟩ := exists_argumentRow hquotes
  rw [Makes, call_relational first hlength, leads_bind, hchain]
  apply leads_sayText
  · intro line _
    apply (makes_chain .relational { w with log := w.log ++ [line] } first links).mono
    rintro d w' ⟨hd, log, rfl⟩
    exact ⟨hd, line :: log, by simp⟩
  · intro f hf htakes
    obtain ⟨shown, hshown⟩ := htakes.prints (by decide)
    rw [hshown, hrow] at hf
    cases hf

/-- A rule makes a chain of its arguments. -/
theorem makes_call (rule : ChainRule) (w : Workshop) (first : Datum) (links : List Link) :
    Makes (call rule.name (first :: arguments links)) w (rule.build w.graph first links).1
      (rule.build w.graph first links).2 (rule.Takes first) := by
  by_cases hrule : rule = .relational
  · subst hrule
    have hlength : (arguments links).length ≠ 1 := by
      rw [length_arguments]
      omega
    exact makes_call_relational w first links rfl hlength fun _ => quotes_of_mem_arguments
  · rw [call_eq_chain hrule]
    exact makes_chain rule w first links

/-- A last argument that belongs to no pair changes nothing but the log. -/
theorem perform_call_append (rule : ChainRule) (w : Workshop) (first : Datum) {links : List Link}
    (hlinks : links ≠ []) {last : Datum} (hlast : rule = .relational → last.Quotes) :
    let result := (call rule.name (first :: arguments links)).perform w
    let result' := (call rule.name (first :: (arguments links ++ [last]))).perform w
    result'.1 = result.1 ∧ result'.2 = { result.2 with log := result'.2.log } := by
  by_cases hrule : rule = .relational
  · subst hrule
    have hlength : (arguments links).length ≠ 1 := by
      rw [length_arguments]
      omega
    have hlength' : (arguments links ++ [last]).length ≠ 1 := by
      have := List.length_pos_of_ne_nil hlinks
      rw [List.length_append, length_arguments, List.length_singleton]
      omega
    by_cases hfirst : first.Prints
    · have hquotes : ∀ d ∈ arguments links ++ [last], d.Quotes := by
        simpa [or_imp, forall_and, hlast rfl] using fun d (hd : d ∈ arguments links) =>
          quotes_of_mem_arguments hd
      obtain ⟨log, hperform⟩ := (makes_call .relational w first links).exists_perform (.inr hfirst)
      obtain ⟨log', hperform'⟩ := (makes_call_relational w first links
        (chain_append _ _ _ last) hlength' hquotes).exists_perform (.inr hfirst)
      rw [hperform, hperform']
      exact ⟨rfl, rfl⟩
    · -- The first operand is printed before all else.
      cases hrender : first.render with
      | ok shown => exact absurd ⟨shown, hrender⟩ hfirst
      | error f =>
        rw [call_relational first hlength, call_relational first hlength', hrender]
        exact ⟨rfl, rfl⟩
  · rw [call_eq_chain hrule, call_eq_chain hrule, chain_append]
    exact ⟨rfl, rfl⟩

/-- For every rule that builds chains, every first operand and any number of operators, each with
the node that follows it: what the rule makes gives the first operand, the texts of the operators
and the operands back in their order when it is unrolled as many levels, and the nodes that were
there are as they were. An operation has type `bool` if the rule is the one for comparisons and the
operator is a comparison, and no type otherwise. The rule comes to an end unless it has to print a
first operand that cannot be printed. One argument more changes nothing but the log. -/
theorem call_chain (rule : ChainRule) (first : Datum) (links : List Link) (w : Workshop) :
    let result := (call rule.name (first :: arguments links)).perform w
    (∀ d, result.1 = .ok d → unroll result.2.graph links.length d = some (first,
      links.map rule.level) ∧
      ∀ id < w.graph.nodes.size, w.graph.SameAt result.2.graph id) ∧
      (rule = .logical ∨ first.Prints → ∃ d, result.1 = .ok d) ∧
      ∀ last : Datum, links ≠ [] → (rule = .relational → last.Quotes) →
        let result' := (call rule.name (first :: (arguments links ++ [last]))).perform w
        result'.1 = result.1 ∧ result'.2 = { result.2 with log := result'.2.log } := by
  intro result
  have hmakes := makes_call rule w first links
  refine ⟨?_, ?_, ?_⟩
  · intro d hd
    have hperform : (call rule.name (first :: arguments links)).perform w = (.ok d, result.2) :=
      Prod.ext hd rfl
    obtain ⟨rfl, log, hw⟩ := Leads.of_perform hmakes hperform
    have hgraph : result.2.graph = (rule.build w.graph first links).2 := by rw [hw]
    rw [hgraph]
    exact ⟨unroll_build, fun id hid => sameAt_build hid⟩
  · intro htakes
    obtain ⟨log, hperform⟩ := hmakes.exists_perform htakes
    exact ⟨_, congrArg Prod.fst hperform⟩
  · intro last hlinks hlast
    exact perform_call_append rule w first hlinks hlast

/-- A chain of two comparisons and a sum over a node, with operators of both sorts and one that is
left over. -/
theorem call_chain_comparisons :
    let links : List Link :=
  [⟨.token "LESSTHAN" "<" (.ofInt 1) (.ofInt 3), .number, 1⟩, ⟨.plain "+", .number, 0⟩,
      ⟨.plain "==", .text, 2⟩]
    let first : Datum := .node .variableUse 0
    let bool : Datum := .ofText "bool"
    ∃ d w', (call "expr_relacional" (first :: (arguments links ++ [.ofText ">"]))).perform .empty =
      (.ok d, w') ∧ unroll w'.graph 3 d = some (first, [⟨.ofText "<", .node .number 1, bool⟩,
      ⟨.ofText "+", .node .number 0, .none⟩, ⟨.ofText "==", .node .text 2, bool⟩]) := by
  intro links first bool
  obtain ⟨hunroll, hends, happend⟩ := call_chain .relational first links .empty
  obtain ⟨d, hd⟩ := hends (.inr ⟨_, rfl⟩)
  obtain ⟨hresult, hrest⟩ := happend (.ofText ">") (by decide) fun _ => ⟨_, rfl⟩
  refine ⟨d, _, Prod.ext (hresult.trans hd) rfl, ?_⟩
  have hgraph := congrArg Workshop.graph hrest
  exact (congrArg (fun g => unroll g 3 d) hgraph).trans (hunroll d hd).1

end Assembly

end Analizador
