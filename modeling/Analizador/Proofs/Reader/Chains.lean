import Analizador.Proofs.Reader.Acceptance
import Analizador.Proofs.Reader.RoundTrip

/-! # Chains of operations

An assignment may be written with any number of factors between arithmetic signs, and by the usual
rules of precedence such a chain stands for one tree. The grammar has no rule for a second sign: of
all chains it takes those with at most one, and so in every pair of parentheses and on each side of
a comparison. For the chains that it takes, the tree read is the usual one. -/

namespace Analizador

open Grammar

/-! ## The usual precedence -/

namespace Expr

/-- Takes the products of a chain together, each from the left. What is left is a chain of sums. -/
def products (e : Expr) : List (Operator × Expr) → Expr × List (Operator × Expr)
  | [] => (e, [])
  | (op, f) :: rest =>
    if op = .mul ∨ op = .div then products (.operation op e f) rest
    else
      let (g, sums) := products f rest
      (e, (op, g) :: sums)

/-- The tree of a chain: products bind tighter than sums, and signs of one strength group to the
left. -/
def chained (e : Expr) (rest : List (Operator × Expr)) : Expr :=
  let (first, sums) := e.products rest
  sums.foldl (fun left next => .operation next.1 left next.2) first

@[simp] theorem chained_nil (e : Expr) : e.chained [] = e := rfl

@[simp] theorem chained_singleton (e f : Expr) (op : Operator) :
    e.chained [(op, f)] = .operation op e f := by
  by_cases h : op = .mul ∨ op = .div <;> simp [chained, products, h]

example (a b c d e : Expr) :
    a.chained [(.sub, b), (.mul, c), (.div, d), (.add, e)] =
      .operation .add (.operation .sub a (.operation .div (.operation .mul b c) d)) e := rfl

end Expr

/-! ## Written expressions -/

mutual

/-- A factor as it is written: a literal, a variable or an expression in parentheses. -/
inductive Factor where
  | leaf (t : Token) (ht : t.kind ∈ leaves)
  | group (opening : Token) (inner : Formula) (closing : Token)
      (hopening : opening.kind = .leftParen)
      (hclosing : closing.kind = .rightParen)

/-- Factors with arithmetic signs between them. -/
inductive Chain where
  | last (f : Factor)
  | more (f : Factor) (sign : Token) (op : Operator) (hsign : sign.kind.arithmetic? = some op)
      (rest : Chain)

/-- An expression in parentheses: a chain, a comparison of two, or expressions with a logical sign
between them. -/
inductive Formula where
  | plain (c : Chain)
  | compared (left : Chain) (sign : Token) (op : Operator) (hsign : sign.kind.relational? = some op)
      (right : Chain)
  | joined (left : Formula) (sign : Token) (hsign : sign.kind.isLogical = true) (right : Formula)

end

mutual

/-- The tokens of a factor. -/
def Factor.tokens : Factor → List Token
  | .leaf t _ => [t]
  | .group opening inner closing _ _ => opening :: (inner.tokens ++ [closing])

/-- The tokens of a chain. -/
def Chain.tokens : Chain → List Token
  | .last f => f.tokens
  | .more f sign _ _ rest => f.tokens ++ sign :: rest.tokens

/-- The tokens of an expression. -/
def Formula.tokens : Formula → List Token
  | .plain c => c.tokens
  | .compared left sign _ _ right => left.tokens ++ sign :: right.tokens
  | .joined left sign _ right => left.tokens ++ sign :: right.tokens

end

mutual

/-- The tree of a factor, unless it holds a literal that cannot be read. -/
def Factor.tree : Factor → Except Failure Expr
  | .leaf t _ => t.toExpr
  | .group _ inner _ _ _ => inner.tree

/-- The trees of the factors of a chain: the first, and the others with the signs before them. -/
def Chain.factors : Chain → Except Failure (Expr × List (Operator × Expr))
  | .last f => do return (← f.tree, [])
  | .more f _ op _ rest => do
    let e ← f.tree
    let (next, others) ← rest.factors
    return (e, (op, next) :: others)

/-- The tree of an expression. No tree is built for a logical sign. -/
def Formula.tree : Formula → Except Failure Expr
  | .plain c => do
    let (e, rest) ← c.factors
    return e.chained rest
  | .compared left _ op _ right => do
    let (e, rest) ← left.factors
    let (e', rest') ← right.factors
    return .operation op (e.chained rest) (e'.chained rest')
  | .joined .. => .error (.missingArguments "operador_logico" ["op"])

end

/-- The number of signs in a chain, those in parentheses apart. -/
def Chain.signs : Chain → Nat
  | .last _ => 0
  | .more _ _ _ _ rest => rest.signs + 1

mutual

/-- No chain inside a factor has two signs. -/
def Factor.isNarrow : Factor → Bool
  | .leaf .. => true
  | .group _ inner _ _ _ => inner.isNarrow

/-- Neither the chain nor one inside it has two signs. -/
def Chain.isNarrow : Chain → Bool
  | .last f => f.isNarrow
  | .more f _ _ _ rest => f.isNarrow && rest.signs == 0 && rest.isNarrow

/-- No chain inside an expression has two signs. -/
def Formula.isNarrow : Formula → Bool
  | .plain c => c.isNarrow
  | .compared left _ _ _ right => left.isNarrow && right.isNarrow
  | .joined left _ _ right => left.isNarrow && right.isNarrow

end

/-- The tree of a chain. -/
def Chain.tree (c : Chain) : Except Failure Expr := (Formula.plain c).tree

/-- An operation has a tree exactly if both of its operands do, and is made of them. -/
theorem Expr.operation_eq_ok_iff {op : Operator} {x y : Except Failure Expr} {e : Expr} :
    (do return .operation op (← x) (← y)) = Except.ok e ↔
      ∃ left right, x = .ok left ∧ y = .ok right ∧ .operation op left right = e := by
  cases x <;> cases y <;> simp [bind, Except.bind, pure, Except.pure]

namespace Chain

theorem tree_last (f : Factor) : (last f).tree = f.tree := by
  cases h : f.tree <;> simp [tree, Formula.tree, factors, h, bind, Except.bind, pure, Except.pure]

/-- The tree of two factors and a sign is one operation. -/
theorem tree_pair (f g : Factor) (sign : Token) (op : Operator)
    (hsign : sign.kind.arithmetic? = some op) :
    (more f sign op hsign (last g)).tree = do return .operation op (← f.tree) (← g.tree) := by
  cases hf : f.tree <;> cases hg : g.tree <;>
    simp [tree, Formula.tree, factors, hf, hg, bind, Except.bind, pure, Except.pure]

end Chain

/-- The tree of a comparison is an operation on those of its sides. -/
theorem Formula.tree_compared (left right : Chain) (sign : Token) (op : Operator)
    (hsign : sign.kind.relational? = some op) :
    (compared left sign op hsign right).tree = do
      return .operation op (← left.tree) (← right.tree) := by
  cases hleft : left.factors <;> cases hright : right.factors <;>
    simp [Chain.tree, tree, hleft, hright, bind, Except.bind, pure, Except.pure]

/-! ## Narrow expressions are read -/

namespace Reader

/-- Some tokens take a reader to the end of a chain that is the expression: to its last factor,
after perhaps another one and a sign. -/
def TakesSum (ts : List Token) (e : Expr) : Prop :=
  ∃ (operand : Option (Expr × Operator)) (x : Operand) (last : Expr), x.build = .ok last ∧
    (Level.mk none operand).whole last = e ∧
    ∀ (r : Reader) (place : Place) (compared : Option (Expr × Operator)) (outer : List Level),
      ∃ φ : Phase, φ.Holds place ⟨compared, operand⟩ outer x ∧
        Leads { r with phase := .wanting place ⟨compared, none⟩ outer } ts { r with phase := φ }

variable {ts us : List Token} {t : Token} {e left right : Expr} {op : Operator}

/-- An operand alone is taken as a sum. -/
theorem TakesOperand.takesSum (h : TakesOperand ts e) : TakesSum ts e := by
  obtain ⟨x, hx, htakes⟩ := h
  exact ⟨none, x, e, hx, rfl, fun r place compared outer => htakes r place ⟨compared, none⟩ outer⟩

/-- Two operands and an arithmetic sign between them are taken as a sum. -/
theorem TakesOperand.pair (hleft : TakesOperand ts left) (hright : TakesOperand us right)
    (hop : t.kind.arithmetic? = some op) : TakesSum (ts ++ t :: us) (.operation op left right) := by
  obtain ⟨x, hx, htakes⟩ := hleft
  obtain ⟨y, hy, htakes'⟩ := hright
  refine ⟨some (left, op), y, right, hy, rfl, fun r place compared outer => ?_⟩
  obtain ⟨φ, hφ, hleads⟩ := htakes r place ⟨compared, none⟩ outer
  obtain ⟨ψ, hψ, hleads'⟩ := htakes' r place ⟨compared, some (left, op)⟩ outer
  exact ⟨ψ, hψ, hleads.append ((arithmetic_leads hφ hx hop).cons hleads')⟩

/-- A sum alone is taken as a whole expression. -/
theorem TakesSum.takesWhole (h : TakesSum ts e) : TakesWhole ts e := by
  intro r next place outer t ht hnext
  obtain ⟨operand, x, last, hx, rfl, htakes⟩ := h
  obtain ⟨φ, hφ, hleads⟩ := htakes r place none outer
  exact hleads.append (closing_leads hφ hx ht hnext)

/-- Two sums and a relational sign between them are taken as a whole expression. -/
theorem TakesSum.compared (hleft : TakesSum ts left) (hright : TakesSum us right)
    (hop : t.kind.relational? = some op) :
    TakesWhole (ts ++ t :: us) (.operation op left right) := by
  intro r next place outer closing hclosing hnext
  obtain ⟨operand, x, last, hx, rfl, htakes⟩ := hleft
  obtain ⟨operand', y, last', hy, rfl, htakes'⟩ := hright
  obtain ⟨φ, hφ, hleads⟩ := htakes r place none outer
  obtain ⟨ψ, hψ, hleads'⟩ := htakes' r place (some ((Level.mk none operand).whole last, op)) outer
  have hend : Leads { r with phase := ψ } [closing] next := closing_leads hψ hy hclosing hnext
  rw [List.append_assoc]
  exact hleads.append ((relational_leads hφ hx hop).cons (hleads'.append hend))

end Reader

mutual

/-- A narrow factor that has a tree is taken as an operand. -/
theorem Factor.takes : ∀ {f : Factor} {e : Expr}, f.isNarrow = true → f.tree = .ok e →
    Reader.TakesOperand f.tokens e
  | .leaf t ht, e, _, htree => by
    have hne : t.kind ≠ .leftParen := by
      intro h
      rw [h] at ht
      simp [leaves] at ht
    exact Reader.takesOperand_leaf (Kind.startsOperand_iff.mpr (.inr ht)) hne htree
  | .group opening inner closing hopening hclosing, e, hnarrow, htree =>
    Reader.TakesWhole.takesOperand (Formula.takes hnarrow htree) hopening hclosing

/-- A narrow chain that has a tree is taken as a sum. -/
theorem Chain.takes : ∀ {c : Chain} {e : Expr}, c.isNarrow = true → c.tree = .ok e →
    Reader.TakesSum c.tokens e
  | .last f, e, hnarrow, htree =>
    (Factor.takes (f := f) hnarrow (Chain.tree_last f ▸ htree)).takesSum
  | .more f sign op hsign (.last g), e, hnarrow, htree => by
    rw [Chain.tree_pair, Expr.operation_eq_ok_iff] at htree
    obtain ⟨left, right, hleft, hright, rfl⟩ := htree
    simp only [Chain.isNarrow, Bool.and_eq_true] at hnarrow
    exact (Factor.takes hnarrow.1.1 hleft).pair (Factor.takes hnarrow.2 hright) hsign
  | .more _ _ _ _ (.more ..), _, hnarrow, _ => by simp [Chain.isNarrow, Chain.signs] at hnarrow

/-- A narrow formula that has a tree is taken as a whole expression. -/
theorem Formula.takes : ∀ {p : Formula} {e : Expr}, p.isNarrow = true → p.tree = .ok e →
    Reader.TakesWhole p.tokens e
  | .plain c, e, hnarrow, htree => (Chain.takes (c := c) hnarrow htree).takesWhole
  | .compared left sign op hsign right, e, hnarrow, htree => by
    rw [Formula.tree_compared, Expr.operation_eq_ok_iff] at htree
    obtain ⟨l, r, hleft, hright, rfl⟩ := htree
    obtain ⟨hnarrowLeft, hnarrowRight⟩ := Bool.and_eq_true_iff.mp hnarrow
    exact (Chain.takes hnarrowLeft hleft).compared (Chain.takes hnarrowRight hright) hsign
  | .joined .., _, _, htree => by cases htree

end

/-! ## Expressions that are read are narrow -/

theorem Kind.arithmetic?_eq_none_of_followsComparison {k : Kind} (h : k.followsComparison = true) :
    k.arithmetic? = none := by
  cases k <;> first | rfl | cases h

namespace Grammar

variable {ps : List Phrase} {k l : Kind} {w : List Kind}

/-- Only a logical operator or the closing mark comes after a comparison. -/
theorem followsComparison_of_comparisons (hk : k.isClosing = true)
    (h : Spells (.many moreComparisons :: .kind k :: ps) (l :: w)) :
    l.followsComparison = true := by
  rcases spells_moreComparisons_cons.mp h with h | ⟨hmem, -⟩
  · simp [Kind.followsComparison, (spells_kind_cons.mp h).1, hk]
  · simp [Kind.followsComparison, Kind.isLogical_iff.mpr hmem]

/-- The closing mark ends a row of comparisons. -/
theorem spells_of_comparisons (hk : k.isClosing = true)
    (h : Spells (.many moreComparisons :: .kind k :: ps) (k :: w)) : Spells ps w := by
  rcases spells_moreComparisons_cons.mp h with h | ⟨hmem, -⟩
  · exact (spells_kind_cons.mp h).2
  · rw [Kind.isClosing_eq_false_of_isLogical (Kind.isLogical_iff.mpr hmem)] at hk
    cases hk

/-- What goes on with a relational mark begins with a relational sign. -/
theorem exists_relational?_of_further {n : Nonterminal}
    (h : Spells (further n relationalMarks :: ps) (k :: w)) : ∃ op, k.relational? = some op :=
  Option.isSome_iff_exists.mp (Kind.isSome_relational?_iff.mpr (spells_further_cons.mp h).1)

/-- No arithmetic sign comes after a chain. -/
theorem arithmetic?_eq_none_of_further {n : Nonterminal} (hk : k.isClosing = true)
    (h : Spells (.optional (further n relationalMarks) :: .many moreComparisons :: .kind k :: ps)
      (l :: w)) :
    l.arithmetic? = none := by
  rcases spells_optional.mp h with h | h
  · exact Kind.arithmetic?_eq_none_of_followsComparison (followsComparison_of_comparisons hk h)
  · obtain ⟨op, hop⟩ := exists_relational?_of_further h
    exact Kind.arithmetic?_eq_none_of_relational? hop

end Grammar

mutual

/-- A factor that is spelled as a term, and whose tokens can be built, is narrow and has a tree. -/
theorem Factor.narrow_of_spells : ∀ (f : Factor) {ps : List Phrase} {w : List Kind},
    Spells (.name .termino :: ps) (f.tokens.map Token.kind ++ w) →
      (∀ t ∈ f.tokens, t.breaksOn? = none) →
    f.isNarrow = true ∧ (∃ e, f.tree = .ok e) ∧ Spells ps w
  | .leaf t ht, ps, w, hspells, hbuilt => by
    rcases spells_termino_cons.mp hspells with ⟨hparen, -⟩ | ⟨-, hrest⟩
    · rw [hparen] at ht
      simp [leaves] at ht
    · exact ⟨rfl, Token.exists_toExpr_of_breaksOn? (hbuilt t (by simp [Factor.tokens])), hrest⟩
  | .group opening inner closing hopening hclosing, ps, w, hspells, hbuilt => by
    have hkinds :
        (Factor.tokens (.group opening inner closing hopening hclosing)).map Token.kind ++ w =
          .leftParen :: (inner.tokens.map Token.kind ++ .rightParen :: w) := by
      simp [Factor.tokens, hopening, hclosing]
    rw [hkinds] at hspells
    rcases spells_termino_cons.mp hspells with ⟨-, hinner⟩ | ⟨hleaf, -⟩
    · exact Formula.narrow_of_spells inner hinner rfl fun t ht =>
        hbuilt t (by simp [Factor.tokens, ht])
    · simp [leaves] at hleaf

/-- No arithmetic sign follows the chain: one that did would belong to it. -/
theorem Chain.narrow_of_spells : ∀ (c : Chain) {ps : List Phrase} {w : List Kind},
    Spells (.name .exprAritmetica :: ps) (c.tokens.map Token.kind ++ w) →
    (∀ k v, Spells ps (k :: v) → k.arithmetic? = none) → (∀ k ∈ w.head?, k.arithmetic? = none) →
    (∀ t ∈ c.tokens, t.breaksOn? = none) →
    c.isNarrow = true ∧ (∃ e, c.tree = .ok e) ∧ Spells ps w
  | .last f, ps, w, hspells, _, hw, hbuilt => by
    rw [spells_exprAritmetica] at hspells
    obtain ⟨hnarrow, htree, hrest⟩ := Factor.narrow_of_spells f hspells hbuilt
    refine ⟨hnarrow, by rwa [Chain.tree_last], ?_⟩
    rcases spells_optional.mp hrest with hrest | hrest
    · exact hrest
    cases w with
    | nil => simp [spells_further] at hrest
    | cons k w =>
      have hsome := Kind.isSome_arithmetic?_iff.mpr (spells_further_cons.mp hrest).1
      simp [hw k rfl] at hsome
  | .more f sign op hsign rest, ps, w, hspells, hps, hw, hbuilt => by
    have hkinds : (Chain.tokens (.more f sign op hsign rest)).map Token.kind ++ w =
        f.tokens.map Token.kind ++ (sign.kind :: (rest.tokens.map Token.kind ++ w)) := by
      simp [Chain.tokens]
    rw [hkinds, spells_exprAritmetica] at hspells
    obtain ⟨hnarrow, ⟨e, he⟩, hrest⟩ :=
      Factor.narrow_of_spells f hspells fun t ht => hbuilt t (by simp [Chain.tokens, ht])
    have hbuilt' (t : Token) (ht : t ∈ rest.tokens) : t.breaksOn? = none :=
      hbuilt t (by simp [Chain.tokens, ht])
    rcases spells_optional.mp hrest with hrest | hrest
    · cases hsign.symm.trans (hps _ _ hrest)
    obtain ⟨-, hrest⟩ := spells_further_cons.mp hrest
    match rest with
    | .last g =>
      obtain ⟨hnarrow', ⟨e', he'⟩, hrest⟩ := Factor.narrow_of_spells g hrest hbuilt'
      refine ⟨by simp [Chain.isNarrow, Chain.signs, hnarrow, hnarrow'], ?_, hrest⟩
      exact ⟨.operation op e e', by rw [Chain.tree_pair, he, he']; rfl⟩
    | .more g sign' op' hsign' rest' =>
      -- The rule is used up by the first sign, and nothing that may come after it takes the second.
      have hkinds' : (Chain.tokens (.more g sign' op' hsign' rest')).map Token.kind ++ w =
          g.tokens.map Token.kind ++ (sign'.kind :: (rest'.tokens.map Token.kind ++ w)) := by
        simp [Chain.tokens]
      rw [hkinds'] at hrest
      obtain ⟨-, -, hrest⟩ :=
        Factor.narrow_of_spells g hrest fun t ht => hbuilt' t (by simp [Chain.tokens, ht])
      cases hsign'.symm.trans (hps _ _ hrest)

/-- So is a formula that is spelled as an expression before a kind that closes it. -/
theorem Formula.narrow_of_spells : ∀ (p : Formula) {k : Kind} {ps : List Phrase} {w : List Kind},
    Spells (.name .expresion :: .kind k :: ps) (p.tokens.map Token.kind ++ k :: w) →
      k.isClosing = true →
    (∀ t ∈ p.tokens, t.breaksOn? = none) →
    p.isNarrow = true ∧ (∃ e, p.tree = .ok e) ∧ Spells ps w
  | .plain c, k, ps, w, hspells, hk, hbuilt => by
    have hfollows : k.followsComparison = true := by simp [Kind.followsComparison, hk]
    rw [spells_expresion, ← spells_exprAritmetica] at hspells
    obtain ⟨hnarrow, htree, hrest⟩ := Chain.narrow_of_spells c hspells
      (fun _ _ => arithmetic?_eq_none_of_further hk)
      (by simpa using Kind.arithmetic?_eq_none_of_followsComparison hfollows) hbuilt
    refine ⟨hnarrow, htree, ?_⟩
    rcases spells_optional.mp hrest with hrest | hrest
    · exact spells_of_comparisons hk hrest
    · obtain ⟨op, hop⟩ := exists_relational?_of_further hrest
      simp [Kind.followsComparison_eq_false_of_relational? hop] at hfollows
  | .compared left sign op hsign right, k, ps, w, hspells, hk, hbuilt => by
    have hkinds : (Formula.tokens (.compared left sign op hsign right)).map Token.kind ++ k :: w =
        left.tokens.map Token.kind ++ (sign.kind :: (right.tokens.map Token.kind ++ k :: w)) := by
      simp [Formula.tokens]
    have hfollows : k.followsComparison = true := by simp [Kind.followsComparison, hk]
    rw [hkinds, spells_expresion, ← spells_exprAritmetica] at hspells
    obtain ⟨hnarrow, ⟨e, he⟩, hrest⟩ := Chain.narrow_of_spells left hspells
      (fun _ _ => arithmetic?_eq_none_of_further hk)
      (by simpa using Kind.arithmetic?_eq_none_of_relational? hsign)
      fun t ht => hbuilt t (by simp [Formula.tokens, ht])
    rcases spells_optional.mp hrest with hrest | hrest
    · have hsigned := followsComparison_of_comparisons hk hrest
      simp [Kind.followsComparison_eq_false_of_relational? hsign] at hsigned
    obtain ⟨-, hrest⟩ := spells_further_cons.mp hrest
    obtain ⟨hnarrow', ⟨e', he'⟩, hrest⟩ := Chain.narrow_of_spells right hrest
      (fun _ _ h => Kind.arithmetic?_eq_none_of_followsComparison
        (followsComparison_of_comparisons hk h))
      (by simpa using Kind.arithmetic?_eq_none_of_followsComparison hfollows)
      fun t ht => hbuilt t (by simp [Formula.tokens, ht])
    refine ⟨by simp [Formula.isNarrow, hnarrow, hnarrow'], ?_, spells_of_comparisons hk hrest⟩
    exact ⟨.operation op e e', by rw [Formula.tree_compared, he, he']; rfl⟩
  | .joined left sign hsign right, _, _, _, _, _, hbuilt => by
    have hsome := hbuilt sign (by simp [Formula.tokens])
    simp [Token.breaksOn?, hsign] at hsome

end

/-! ## Expressions that have a tree -/

theorem Token.breaksOn?_of_leaf {t : Token} {e : Expr} (ht : t.kind ∈ leaves)
    (hexpr : t.toExpr = .ok e) :
    t.breaksOn? = none := by
  cases hbreaks : t.breaksOn? with
  | none => rfl
  | some f =>
    obtain ⟨-, failure, hfailure⟩ := breaksOn?_leaf ht hbreaks
    cases hexpr.symm.trans hfailure

mutual

/-- Every token of a factor that has a tree can be built. -/
theorem Factor.breaksOn?_of_tree : ∀ {f : Factor} {e : Expr}, f.tree = .ok e →
    ∀ t ∈ f.tokens, t.breaksOn? = none
  | .leaf t ht, e, htree => by simpa [Factor.tokens] using Token.breaksOn?_of_leaf ht htree
  | .group opening inner closing hopening hclosing, e, htree => by
    simp only [Factor.tokens, List.forall_mem_cons, List.forall_mem_append]
    exact ⟨Token.breaksOn?_eq_none hopening (by decide), Formula.breaksOn?_of_tree htree,
      Token.breaksOn?_eq_none hclosing (by decide), List.forall_mem_nil _⟩

theorem Chain.breaksOn?_of_factors : ∀ {c : Chain} {es : Expr × List (Operator × Expr)},
    c.factors = .ok es → ∀ t ∈ c.tokens, t.breaksOn? = none
  | .last f, es, hfactors => by
    cases hf : f.tree with
    | error => simp [Chain.factors, hf, bind, Except.bind] at hfactors
    | ok e => exact Factor.breaksOn?_of_tree hf
  | .more f sign op hsign rest, es, hfactors => by
    have hmark : sign.breaksOn? = none :=
      Token.breaksOn?_of_eq_some (f := Kind.arithmetic?) (by decide) hsign
    cases hf : f.tree with
    | error => simp [Chain.factors, hf, bind, Except.bind] at hfactors
    | ok e =>
      cases hrest : rest.factors with
      | error => simp [Chain.factors, hf, hrest, bind, Except.bind] at hfactors
      | ok others =>
        simp only [Chain.tokens, List.forall_mem_append, List.forall_mem_cons]
        exact ⟨Factor.breaksOn?_of_tree hf, hmark, Chain.breaksOn?_of_factors hrest⟩

/-- So can every token of a formula that has one. -/
theorem Formula.breaksOn?_of_tree : ∀ {p : Formula} {e : Expr}, p.tree = .ok e →
    ∀ t ∈ p.tokens, t.breaksOn? = none
  | .plain c, e, htree => by
    cases hfactors : c.factors with
    | error => simp [Formula.tree, hfactors, bind, Except.bind] at htree
    | ok es => exact Chain.breaksOn?_of_factors hfactors
  | .compared left sign op hsign right, e, htree => by
    have hmark : sign.breaksOn? = none :=
      Token.breaksOn?_of_eq_some (f := Kind.relational?) (by decide) hsign
    cases hleft : left.factors with
    | error => simp [Formula.tree, hleft, bind, Except.bind] at htree
    | ok =>
      cases hright : right.factors with
      | error => simp [Formula.tree, hleft, hright, bind, Except.bind] at htree
      | ok =>
        simp only [Formula.tokens, List.forall_mem_append, List.forall_mem_cons]
        exact ⟨Chain.breaksOn?_of_factors hleft, hmark, Chain.breaksOn?_of_factors hright⟩
  | .joined .., _, htree => by cases htree

end

/-! ## Assigned chains -/

namespace Reading

variable {code : String} {target assign semicolon : Token} {c : Chain}

/-- An assignment of a narrow chain that has a tree is read, with that tree. -/
theorem ofText_chain
    (hscan : Scan.ofText code = ⟨target :: assign :: (c.tokens ++ [semicolon]), none⟩)
    (htarget : target.kind = .identifier) (hassign : assign.kind = .assign)
    (hsemicolon : semicolon.kind = .semicolon) {e : Expr} (hnarrow : c.isNarrow = true)
    (htree : c.tree = .ok e) :
    ∃ log, ofText code = .program ⟨[.statement (.assign target.toName e none)]⟩ log := by
  have hwhole : Reader.TakesWhole c.tokens e := (Chain.takes hnarrow htree).takesWhole
  have htarget : Reader.start.Leads [target] { Reader.start with phase := .target target.toName } :=
    Reader.leads_of_quiet fun log => by
      simp [Reader.start, Reader.look, Reader.ready, Reader.enter, htarget]
  have hassign : Reader.Leads { Reader.start with phase := .target target.toName } [assign]
      { Reader.start with phase := .wanting (.assign target.toName) .fresh [] } :=
    Reader.leads_of_quiet fun log => if_pos hassign
  have hvalue : Reader.Leads
      { Reader.start with phase := .wanting (.assign target.toName) .fresh [] }
      (c.tokens ++ [semicolon]) ⟨[.statement (.assign target.toName e none)], [], .ready, []⟩ :=
    hwhole (by rw [hsemicolon]; rfl) fun φ log => by rw [hsemicolon]; rfl
  obtain ⟨log, htakes⟩ := (htarget.cons (hassign.cons hvalue)) []
  exact ⟨log, by rw [ofText, ofScan, hscan]; exact htakes.run rfl _⟩

/-- Where an assignment of a chain is read, the chain is narrow and has a tree. -/
theorem narrow_of_ofText
    (hscan : Scan.ofText code = ⟨target :: assign :: (c.tokens ++ [semicolon]), none⟩)
    (htarget : target.kind = .identifier) (hassign : assign.kind = .assign)
    (hsemicolon : semicolon.kind = .semicolon) {p : Program} {log : List String}
    (hread : ofText code = .program p log) : c.isNarrow = true ∧ ∃ e, c.tree = .ok e := by
  have houtcome := ofText_outcome code
  rw [hread, hscan] at houtcome
  cases houtcome with
  | program hreadable _ =>
    obtain ⟨-, hderivable, hbuilt⟩ := hreadable
    -- What is derivable after the variable is what an assignment still needs.
    have hfits := Reader.look_fits .start target
    have hlook : Reader.start.look (.token target) =
        .moved { Reader.start with phase := .target target.toName } := by
      simp [Reader.start, Reader.look, Reader.ready, Reader.enter, htarget]
    rw [hlook, Step.fits_moved] at hfits
    have hspells := (hfits _).mp (Reader.spells_start_rest.mpr hderivable)
    simp only [Reader.rest, Phase.rest, List.cons_append, List.map_cons, List.map_append,
      List.map_nil, hassign, hsemicolon, spells_kind_cons, true_and] at hspells
    obtain ⟨hnarrow, htree, -⟩ := Formula.narrow_of_spells (.plain c) hspells rfl fun t ht =>
      hbuilt t (List.mem_cons_of_mem _ (List.mem_cons_of_mem _ (List.mem_append_left _ ht)))
    exact ⟨hnarrow, htree⟩

/-- A chain that has a tree is read or reported. -/
theorem ofText_chain_ne_aborted
    (hscan : Scan.ofText code = ⟨target :: assign :: (c.tokens ++ [semicolon]), none⟩)
    (htarget : target.kind = .identifier) (hassign : assign.kind = .assign)
    (hsemicolon : semicolon.kind = .semicolon) {e : Expr} (htree : c.tree = .ok e) (f : Failure) :
    ofText code ≠ .aborted f := by
  intro hread
  have houtcome := ofText_outcome code
  rw [hread, hscan] at houtcome
  cases houtcome with
  | aborted _ hchoke =>
    obtain ⟨before, t, after, breaks, heq, -, hbreaks, -, -⟩ := hchoke
    have hbuilt : ∀ t ∈ target :: assign :: (c.tokens ++ [semicolon]), t.breaksOn? = none := by
      simp only [List.forall_mem_cons, List.forall_mem_append]
      exact ⟨Token.breaksOn?_eq_none htarget (by decide), Token.breaksOn?_eq_none hassign
        (by decide), Formula.breaksOn?_of_tree (p := .plain c) htree,
        Token.breaksOn?_eq_none hsemicolon (by decide), List.forall_mem_nil _⟩
    have hmem : t ∈ target :: assign :: (c.tokens ++ [semicolon]) := by
      rw [show target :: assign :: (c.tokens ++ [semicolon]) = before ++ t :: after from heq]
      simp
    cases hbreaks.symm.trans (hbuilt t hmem)

end Reading

namespace Session

/-- An assigned chain is accepted exactly if neither it nor a chain inside its parentheses has two
signs and every literal in it can be read. Its tree by the usual precedence is then what is
assigned, and otherwise no program is kept. Where there is a tree, a chain that is not accepted is
reported. -/
theorem parse_chain (s : Session) {code : String} {target assign semicolon : Token} {c : Chain}
    (hscan : Scan.ofText code = ⟨target :: assign :: (c.tokens ++ [semicolon]), none⟩)
    (htarget : target.kind = .identifier) (hassign : assign.kind = .assign)
    (hsemicolon : semicolon.kind = .semicolon) :
    ((s.parse [] code).1 = .ok true ↔ c.isNarrow = true ∧ ∃ e, c.tree = .ok e) ∧
    (∀ e, c.tree = .ok e → (s.parse [] code).1 = .ok c.isNarrow) ∧
    (s.parse [] code).2.program = if c.isNarrow then
        c.tree.toOption.map fun e => ⟨[.statement (.assign target.toName e none)]⟩
      else none := by
  by_cases hgood : c.isNarrow = true ∧ ∃ e, c.tree = .ok e
  · obtain ⟨hnarrow, e, htree⟩ := id hgood
    obtain ⟨log, hread⟩ := Reading.ofText_chain hscan htarget hassign hsemicolon hnarrow htree
    simp [parse, Parsing.ofText, hread, hnarrow, htree, Except.toOption]
  · have hwide {e : Expr} (htree : c.tree = .ok e) : c.isNarrow = false := by
      simpa [htree] using hgood
    have hnone : (if c.isNarrow then
        c.tree.toOption.map fun e => (⟨[.statement (.assign target.toName e none)]⟩ : Program)
      else none) = none := by
      cases htree : c.tree with
      | ok e => simp [hwide htree]
      | error f => simp [Except.toOption]
    rw [hnone]
    cases hread : Reading.ofText code with
    | program p log =>
      exact absurd (Reading.narrow_of_ofText hscan htarget hassign hsemicolon hread) hgood
    | fault f =>
      refine ⟨by simp [parse, Parsing.ofText, hread, hgood], fun e htree => ?_, ?_⟩
      · simp [parse, Parsing.ofText, hread, hwide htree]
      · simp [parse, Parsing.ofText, hread]
    | aborted f =>
      refine ⟨by simp [parse, Parsing.ofText, hread, hgood], fun e htree => ?_, ?_⟩
      · exact absurd hread
          (Reading.ofText_chain_ne_aborted hscan htarget hassign hsemicolon htree f)
      · simp [parse, Parsing.ofText, hread]

/-- The chain of `( a / 2 ) - ( b < 3 )` at its places after `x = `. -/
def groupedChain : Chain :=
  .more
    (.group ⟨.leftParen, "(", ⟨1, 5⟩⟩
      (.plain (.more (.leaf ⟨.identifier, "a", ⟨1, 7⟩⟩ (by decide)) ⟨.slash, "/", ⟨1, 9⟩⟩ .div rfl
        (.last (.leaf ⟨.integer, "2", ⟨1, 11⟩⟩ (by decide)))))
      ⟨.rightParen, ")", ⟨1, 13⟩⟩ rfl rfl)
    ⟨.minus, "-", ⟨1, 15⟩⟩ .sub rfl
    (.last (.group ⟨.leftParen, "(", ⟨1, 17⟩⟩
      (.compared (.last (.leaf ⟨.identifier, "b", ⟨1, 19⟩⟩ (by decide)))
        ⟨.less, "<", ⟨1, 21⟩⟩ .lt rfl
        (.last (.leaf ⟨.integer, "3", ⟨1, 23⟩⟩ (by decide))))
      ⟨.rightParen, ")", ⟨1, 25⟩⟩ rfl rfl))

theorem parse_chain_grouped :
    Scan.ofText "x = ( a / 2 ) - ( b < 3 );" =
        ⟨⟨.identifier, "x", ⟨1, 1⟩⟩ :: ⟨.assign, "=", ⟨1, 3⟩⟩ ::
          (groupedChain.tokens ++ [⟨.semicolon, ";", ⟨1, 26⟩⟩]), none⟩ ∧
      (empty.parse [] "x = ( a / 2 ) - ( b < 3 );").1 = .ok true ∧
      (empty.parse [] "x = ( a / 2 ) - ( b < 3 );").2.program =
        some ⟨[.statement (.assign ⟨"x", ⟨1, 1⟩, .blank⟩
          (.operation .sub
            (.operation .div (.use ⟨"a", ⟨1, 7⟩, .blank⟩) (.number (.whole 2) ⟨1, 11⟩))
            (.operation .lt (.use ⟨"b", ⟨1, 19⟩, .blank⟩) (.number (.whole 3) ⟨1, 23⟩)))
              none)]⟩ := by
  have hscan : Scan.ofText "x = ( a / 2 ) - ( b < 3 );" =
      ⟨⟨.identifier, "x", ⟨1, 1⟩⟩ :: ⟨.assign, "=", ⟨1, 3⟩⟩ ::
        (groupedChain.tokens ++ [⟨.semicolon, ";", ⟨1, 26⟩⟩]), none⟩ := by decide +kernel
  obtain ⟨haccepted, -, hprogram⟩ := parse_chain .empty hscan rfl rfl rfl
  exact ⟨hscan, haccepted.mpr ⟨rfl, _, rfl⟩, hprogram⟩

/-- The chain of `10 + y * 2` at its places after `x = `. -/
def mixedChain : Chain :=
  .more (.leaf ⟨.integer, "10", ⟨1, 5⟩⟩ (by decide)) ⟨.plus, "+", ⟨1, 8⟩⟩ .add rfl
    (.more (.leaf ⟨.identifier, "y", ⟨1, 10⟩⟩ (by decide)) ⟨.star, "*", ⟨1, 12⟩⟩ .mul rfl
      (.last (.leaf ⟨.integer, "2", ⟨1, 14⟩⟩ (by decide))))

/-- A product inside a sum has a tree by the usual precedence, and the assignment of it is rejected.
-/
theorem parse_mixed_chain :
    Scan.ofText "x = 10 + y * 2;" =
        ⟨⟨.identifier, "x", ⟨1, 1⟩⟩ :: ⟨.assign, "=", ⟨1, 3⟩⟩ ::
          (mixedChain.tokens ++ [⟨.semicolon, ";", ⟨1, 15⟩⟩]), none⟩ ∧
      mixedChain.tree = .ok (.operation .add (.number (.whole 10) ⟨1, 5⟩)
        (.operation .mul (.use ⟨"y", ⟨1, 10⟩, .blank⟩) (.number (.whole 2) ⟨1, 14⟩))) ∧
      (empty.parse [] "x = 10 + y * 2;").1 = .ok false ∧
      (empty.parse [] "x = 10 + y * 2;").2.program = none :=
  ⟨by decide +kernel, rfl, rfl, rfl⟩

end Session

end Analizador
