import Analizador.Proofs.Printing
import Analizador.Proofs.Reader.Places
import Analizador.Session

/-! # Reading undoes printing

A reader follows the tokens that a program is printed as and rebuilds the program from them. The
argument goes by the parts of the tree: what the tokens of an operand, an expression, a statement
and an item do to a reader, whatever its log. A printed program then reads as the same program,
whose places are those of the printed text. -/

namespace Analizador

namespace Reader

/-! ## Following tokens -/

/-- With any log, the reader takes tokens and comes to another state, with some log. -/
def Leads (r : Reader) (ts : List Token) (r' : Reader) : Prop :=
  ∀ log, ∃ log', Takes { r with log } ts { r' with log := log' }

variable {r m r' : Reader} {t : Token} {ts us : List Token}

theorem Leads.refl (r : Reader) : r.Leads [] r := fun log => ⟨log, .nil⟩

/-- Tokens taken in two parts. -/
theorem Leads.append (hfirst : r.Leads ts m) (hsecond : m.Leads us r') : r.Leads (ts ++ us) r' := by
  intro log
  obtain ⟨log₁, hfirst⟩ := hfirst log
  obtain ⟨log₂, hsecond⟩ := hsecond log₁
  exact ⟨log₂, hfirst.append hsecond⟩

/-- One token, and then the others. -/
theorem Leads.cons (hfirst : r.Leads [t] m) (hsecond : m.Leads ts r') : r.Leads (t :: ts) r' :=
  hfirst.append hsecond

/-- A token that moves a reader, whatever it has logged. -/
theorem leads_of_look
    (h : ∀ log, ∃ log', look { r with log } (.token t) = .moved { m with log := log' }) :
    r.Leads [t] m := by
  intro log
  obtain ⟨log', hlook⟩ := h log
  exact ⟨log', .cons hlook .nil⟩

/-- A token that is taken without a note. -/
theorem leads_of_quiet (h : ∀ log, look { r with log } (.token t) = .moved { m with log }) :
    r.Leads [t] m :=
  leads_of_look fun log => ⟨log, h log⟩

end Reader

/-! ## Expressions -/

/-- A relational sign is no arithmetic one. -/
theorem Kind.arithmetic?_eq_none_of_relational? {k : Kind} {op : Operator}
    (h : k.relational? = some op) :
    k.arithmetic? = none := by
  cases k <;> first | rfl | cases h

/-- The expression at a level once its last operand is known. -/
def Level.whole (level : Level) (e : Expr) : Expr :=
  let sum := level.operand.elim e fun left => .operation left.2 left.1 e
  level.compared.elim sum fun left => .operation left.2 left.1 sum

/-- The level after the left operand of an operation and its sign. -/
def Level.after (op : Operator) (left : Expr) : Level :=
  if op.family = .relational then ⟨some (left, op), none⟩ else ⟨none, some (left, op)⟩

/-- With a second operand after its sign, a level holds the operation. -/
theorem Level.whole_after (op : Operator) (left right : Expr) :
    (Level.after op left).whole right = .operation op left right := by
  unfold Level.after
  split <;> rfl

/-- The phases after an operand: a text at the very start of a print statement has one of its own.
-/
inductive Phase.Holds : Phase → Place → Level → List Level → Operand → Prop where
  | holding {place level outer x} : Holds (.holding place level outer x) place level outer x
  | lone {t} : Holds (.lone t) .sout .fresh [] (.loose t)

namespace Reader

variable {r next : Reader} {t : Token} {place : Place} {level : Level} {outer : List Level}
  {x : Operand}
  {e : Expr} {φ : Phase}

/-- A leaf fills the place where an operand is wanted. -/
theorem leaf_leads (ht : t.kind.startsOperand = true) (hne : t.kind ≠ .leftParen) (r : Reader)
    (place : Place) (level : Level) (outer : List Level) :
    ∃ φ : Phase, φ.Holds place level outer (.loose t) ∧
      Leads { r with phase := .wanting place level outer } [t] { r with phase := φ } := by
  by_cases hlone : t.kind = .text ∧ place = .sout ∧ level = .fresh ∧ outer = []
  · obtain ⟨-, rfl, rfl, rfl⟩ := id hlone
    exact ⟨.lone t, .lone, leads_of_quiet fun log => (if_neg hne).trans (if_pos hlone)⟩
  · exact ⟨.holding place level outer (.loose t), .holding,
      leads_of_quiet fun log => (if_neg hne).trans ((if_neg hlone).trans (if_pos ht))⟩

/-- A mark that is no closing one is met after a lone text as after any other operand. -/
theorem leads_of_afterOperand (hφ : φ.Holds place level outer x)
    (ht : t.kind ≠ .rightParen ∧ t.kind ≠ .semicolon)
    (h : ∀ log, ∃ log', afterOperand { r with phase := φ, log } place level outer x t.kind =
      .moved { next with log := log' }) :
    Leads { r with phase := φ } [t] next := by
  refine leads_of_look fun log => ?_
  cases hφ with
  | holding => exact h log
  | lone =>
    simp only [look]
    rw [if_neg ht.1, if_neg ht.2]
    exact h log

/-- An arithmetic sign after an operand asks for the next operand. -/
theorem arithmetic_leads {compared : Option (Expr × Operator)} {op : Operator}
    (hφ : φ.Holds place ⟨compared, none⟩ outer x) (hx : x.build = .ok e)
    (hop : t.kind.arithmetic? = some op) :
    Leads { r with phase := φ } [t]
      { r with phase := .wanting place ⟨compared, some (e, op)⟩ outer } := by
  have hne : t.kind ≠ .rightParen ∧ t.kind ≠ .semicolon := by
    constructor <;> intro hk <;> rw [hk] at hop <;> cases hop
  refine leads_of_afterOperand hφ hne fun log => ⟨log, ?_⟩
  simp only [afterOperand, Kind.followsOperand, hop, Option.isSome_some, Bool.true_or, if_true, hx,
    closeOperand, enter]

/-- A relational sign after an operand asks for the other side of the comparison. -/
theorem relational_leads {operand : Option (Expr × Operator)} {op : Operator}
    (hφ : φ.Holds place ⟨none, operand⟩ outer x) (hx : x.build = .ok e)
    (hop : t.kind.relational? = some op) :
    Leads { r with phase := φ } [t]
      { r with
        phase := .wanting place ⟨some ((Level.mk none operand).whole e, op), none⟩ outer } := by
  have hne : t.kind ≠ .rightParen ∧ t.kind ≠ .semicolon := by
    constructor <;> intro hk <;> rw [hk] at hop <;> cases hop
  refine leads_of_afterOperand hφ hne fun log => ?_
  simp only [afterOperand, Kind.followsOperand, hop, Option.isSome_some, Bool.true_or, Bool.or_true,
    if_true, hx, closeOperand, Kind.arithmetic?_eq_none_of_relational? hop]
  cases operand <;> simp only [closeSum, hop] <;> exact ⟨_, rfl⟩

/-- A sign after the first operand of a level is kept with it. -/
theorem operator_leads (hφ : φ.Holds place .fresh outer x) (hx : x.build = .ok e) {op : Operator}
    (hop : op.family ≠ .logical) :
    Leads { r with phase := φ } [⟨op.kind, op.sign, .start⟩]
      { r with phase := .wanting place (.after op e) outer } := by
  by_cases hrel : op.family = .relational
  · rw [Level.after, if_pos hrel]
    exact relational_leads hφ hx (by cases op <;> first | rfl | cases hrel)
  · rw [Level.after, if_neg hrel]
    exact arithmetic_leads hφ hx
      (by cases op <;> first | rfl | exact absurd rfl hrel | exact absurd rfl hop)

/-- A closing mark ends the expression at hand. -/
theorem closing_leads (hφ : φ.Holds place level outer x) (hx : x.build = .ok e)
    (ht : t.kind.isClosing = true)
    (hnext : ∀ φ log, closeWhole { r with phase := φ, log } place outer (level.whole e) t.kind =
      .moved { next with log }) :
    Leads { r with phase := φ } [t] next := by
  have hkind : t.kind = .rightParen ∨ t.kind = .semicolon := by
    revert ht
    cases t.kind <;> simp [Kind.isClosing]
  have hafter (log : List String) :
      ∃ log', afterOperand { r with phase := φ, log } place level outer x t.kind =
        .moved { next with log := log' } := by
    obtain ⟨compared, operand⟩ := level
    rcases hkind with hk | hk <;> rw [hk] at hnext ⊢ <;>
      cases compared <;> cases operand <;> simp only [afterOperand, hx] <;> exact ⟨_, hnext φ _⟩
  refine leads_of_look fun log => ?_
  cases hφ with
  | holding => exact hafter log
  | @lone s =>
    have hwhole := hnext (.lone s) log
    rcases hkind with hk | hk <;> rw [hk] at hwhole
    · simp only [look, if_pos hk, show s.toExpr = .ok e from hx]
      exact ⟨log, hwhole⟩
    · -- A semicolon does not close what stands in parentheses.
      cases hwhole

/-- Some tokens take a reader past an operand that is the expression. -/
def TakesOperand (ts : List Token) (e : Expr) : Prop :=
  ∃ x : Operand, x.build = .ok e ∧
    ∀ (r : Reader) (place : Place) (level : Level) (outer : List Level),
      ∃ φ : Phase, φ.Holds place level outer x ∧
        Leads { r with phase := .wanting place level outer } ts { r with phase := φ }

/-- Some tokens and a closing mark take a reader past the whole expression. -/
def TakesWhole (ts : List Token) (e : Expr) : Prop :=
  ∀ ⦃r next : Reader⦄ ⦃place : Place⦄ ⦃outer : List Level⦄ ⦃t : Token⦄, t.kind.isClosing = true →
    (∀ φ log, closeWhole { r with phase := φ, log } place outer e t.kind =
      .moved { next with log }) →
    Leads { r with phase := .wanting place .fresh outer } (ts ++ [t]) next

/-- The token of a leaf is taken as an operand. -/
theorem takesOperand_leaf (ht : t.kind.startsOperand = true) (hne : t.kind ≠ .leftParen)
    (hbuild : t.toExpr = .ok e) : TakesOperand [t] e :=
  ⟨.loose t, hbuild, leaf_leads ht hne⟩

/-- Parentheses open a level of their own, and the closing one ends the whole expression in it. -/
theorem TakesWhole.takesOperand {ts : List Token} {opening closing : Token} (h : TakesWhole ts e)
    (hopening : opening.kind = .leftParen) (hclosing : closing.kind = .rightParen) :
    TakesOperand (opening :: (ts ++ [closing])) e := by
  refine ⟨.built e, rfl, fun r place level outer =>
    ⟨.holding place level outer (.built e), .holding, ?_⟩⟩
  refine Leads.cons (m := { r with phase := .wanting place .fresh (level :: outer) })
    (leads_of_quiet fun log => if_pos hopening) (h (by rw [hclosing]; rfl) fun φ log => ?_)
  rw [hclosing]
  rfl

end Reader

/-- The token of a number that can be written reads back as the number. -/
theorem Token.toExpr_ofInteger {n : Int} (h : Numeral.Writable n) :
    (Token.ofInteger n).toExpr = .ok (.number (.whole n) .start) := by
  simp only [Token.toExpr, Token.ofInteger, h.readInteger]
  rfl

/-- The token of a text reads back as the text. -/
theorem Token.toExpr_ofString (s : String) : (Token.ofString s).toExpr = .ok (.text s .start) := by
  simp [Token.toExpr, Token.ofString]

/-- The token of a name that can be written reads back as the name. -/
theorem Name.Writable.toName {n : Name} (h : n.Writable) :
    (Token.ofWord n.text).toName = n.unplaced := by
  simp only [Token.toName, Token.ofWord, Name.unplaced, h.2]

namespace Expr

/-- The tokens of an expression, as an operand, take a reader past an operand that is the
expression. -/
def TakenAsOperand (e : Expr) : Prop := Reader.TakesOperand (e.enclose e.tokens) e.unplaced

/-- The tokens of an expression and a closing mark take a reader past the whole expression. -/
def TakenAsWhole (e : Expr) : Prop := Reader.TakesWhole e.tokens e.unplaced

theorem takenAsOperand_leaf {e : Expr} {t : Token} (htokens : e.enclose e.tokens = [t])
    (ht : t.kind.startsOperand = true) (hne : t.kind ≠ .leftParen)
    (hbuild : t.toExpr = .ok e.unplaced) :
    e.TakenAsOperand := by
  rw [TakenAsOperand, htokens]
  exact Reader.takesOperand_leaf ht hne hbuild

/-- An expression that stands alone as an operand is taken as a whole expression. -/
theorem takenAsWhole_operand {e : Expr} (h : e.TakenAsOperand)
    (htokens : e.enclose e.tokens = e.tokens) :
    e.TakenAsWhole := by
  intro r next place outer t ht hnext
  obtain ⟨x, hx, htaken⟩ := h
  obtain ⟨φ, hφ, hleads⟩ := htaken r place .fresh outer
  rw [htokens] at hleads
  exact hleads.append (Reader.closing_leads hφ hx ht hnext)

/-- An operation on expressions that are taken as operands is taken as a whole expression. -/
theorem takenAsWhole_operation {op : Operator} {left right : Expr} (hop : op.family ≠ .logical)
    (hleft : left.TakenAsOperand) (hright : right.TakenAsOperand) :
    (operation op left right).TakenAsWhole := by
  intro r next place outer t ht hnext
  obtain ⟨x, hx, htaken⟩ := hleft
  obtain ⟨y, hy, htaken'⟩ := hright
  obtain ⟨φ, hφ, hleads⟩ := htaken r place .fresh outer
  obtain ⟨ψ, hψ, hleads'⟩ := htaken' r place (.after op left.unplaced) outer
  have hclosing : Reader.Leads { r with phase := ψ } [t] next := by
    refine Reader.closing_leads hψ hy ht fun φ log => ?_
    rw [Level.whole_after]
    exact hnext φ log
  have hall := hleads.append ((Reader.operator_leads hφ hx hop).cons (hleads'.append hclosing))
  simpa [operation, tokens] using hall

/-- An expression that can be written is taken as an operand. -/
theorem Writable.takenAsOperand {e : Expr} (h : e.Writable) : e.TakenAsOperand := by
  induction e with
  | number value spot =>
    cases value with
    | whole n =>
      exact takenAsOperand_leaf rfl rfl (by simp [Token.ofInteger]) (Token.toExpr_ofInteger h)
    | real d => cases h
  | text s spot =>
    exact takenAsOperand_leaf rfl rfl (by simp [Token.ofString]) (Token.toExpr_ofString s)
  | use name =>
    have hkind : (Token.ofWord name.text).kind = .identifier := Name.Writable.kind_ofWord h
    have hbuild : (Token.ofWord name.text).toExpr = .ok (.use name.unplaced) := by
      simp only [Token.toExpr, hkind, Name.Writable.toName h]
    exact takenAsOperand_leaf rfl (by rw [hkind]; rfl) (by simp [hkind]) hbuild
  | binary op left right mark ihleft ihright =>
    obtain ⟨hop, hmark, hleft, hright⟩ := h
    have hwhole := takenAsWhole_operation hop (ihleft hleft) (ihright hright)
    rw [← hmark] at hwhole
    exact hwhole.takesOperand rfl rfl

/-- An expression that can be written is taken as a whole. -/
theorem Writable.takenAsWhole {e : Expr} (h : e.Writable) : e.TakenAsWhole := by
  cases e with
  | binary op left right mark =>
    obtain ⟨hop, hmark, hleft, hright⟩ := h
    rw [hmark]
    exact takenAsWhole_operation hop hleft.takenAsOperand hright.takenAsOperand
  | _ => exact takenAsWhole_operand h.takenAsOperand rfl

end Expr

/-! ## Statements -/

namespace Reader

/-- The reader once a conditional that could go on has been ended. -/
def settled (r : Reader) : Reader :=
  match r.phase with
  | .afterThen condition body => r.complete (.conditional condition body none)
  | _ => r

variable {r m q : Reader} {t : Token} {role : Role} {body : List Stmt} {fs : List Frame}

theorem complete_with (r : Reader) (φ : Phase) (log : List String) (s : Stmt) :
    complete { r with phase := φ, log } s = { r.complete s with log } := by
  obtain ⟨items, frames, phase, log'⟩ := r
  cases frames <;> rfl

theorem complete_phase (r : Reader) (s : Stmt) : (r.complete s).phase = .ready := by
  obtain ⟨items, frames, phase, log⟩ := r
  cases frames <;> rfl

theorem closeBlock_with (r : Reader) (frames : List Frame) (φ : Phase) (log : List String)
    (f : Frame) (fs : List Frame) :
    closeBlock { r with frames, phase := φ, log } f fs = { r.closeBlock f fs with log } := by
  obtain ⟨role, stmts⟩ := f
  cases role <;> cases fs <;> rfl

/-- A reader that is ready has settled. -/
theorem settled_of_ready (h : r.phase = .ready) : r.settled = r := by
  simp only [settled, h]

theorem settled_complete (r : Reader) (s : Stmt) : (r.complete s).settled = r.complete s :=
  settled_of_ready (complete_phase r s)

theorem settled_with (r : Reader) (log : List String) :
    settled { r with log } = { r.settled with log } := by
  unfold settled
  obtain ⟨items, frames, phase, log'⟩ := r
  cases phase with
  | afterThen condition body => exact complete_with ⟨items, frames, _, log'⟩ _ log _
  | _ => rfl

/-- Before a token that may follow a statement, a reader that has ended one is between two
statements. -/
theorem look_settled (hr : r.settled.phase = .ready) (ht : t.kind.followsStatement = true) :
    r.look (.token t) = r.settled.ready (.token t) := by
  have hne : t.kind ≠ .oNo := by
    intro h
    rw [h] at ht
    cases ht
  obtain ⟨items, frames, phase, log⟩ := r
  cases phase with
  | ready => rfl
  | afterThen condition body => exact (if_neg hne).trans (if_pos ht)
  | _ => cases hr

theorem look_settled_finish (hr : r.settled.phase = .ready) :
    r.look .finish = r.settled.ready .finish := by
  obtain ⟨items, frames, phase, log⟩ := r
  cases phase with
  | ready | afterThen => rfl
  | _ => cases hr

/-- A token that starts a statement is taken where the reader has settled. -/
theorem start_leads (hr : r.settled.phase = .ready) (ht : t.kind.followsStatement = true)
    (h : ∀ log, ready { r.settled with log } (.token t) = .moved { m with log }) :
    r.Leads [t] m := by
  refine leads_of_quiet fun log => ?_
  have hready : (settled { r with log }).phase = .ready := by rw [settled_with]; exact hr
  rw [look_settled hready ht, settled_with, h]

end Reader

/-- The tokens of a statement add it to the block or the program that a reader is in. -/
def Stmt.Taken (s : Stmt) : Prop :=
  ∀ r : Reader, r.settled.phase = .ready →
    ∃ r' : Reader, r'.settled = r.settled.complete s.unplaced ∧ r.Leads s.tokens r'

/-- The tokens of some statements add them to the block that a reader is in. -/
def Stmt.TakenAll (body : List Stmt) : Prop :=
  ∀ (r : Reader) (f : Frame) (fs : List Frame), r.settled.phase = .ready →
    r.settled.frames = f :: fs →
    ∃ r' : Reader, r'.settled =
        { r.settled with frames := { f with stmts := f.stmts ++ body.map Stmt.unplaced } :: fs } ∧
      r.Leads (tokensAll body) r'

namespace Reader

variable {q : Reader} {role : Role} {body : List Stmt}

/-- The statements of a block and its closing brace close the block. -/
theorem block_leads (hbody : Stmt.TakenAll body) (q : Reader) (role : Role) :
    Leads { q with frames := ⟨role, []⟩ :: q.frames, phase := .ready }
      (Stmt.tokensAll body ++ [Kind.rightBrace.token])
      (q.closeBlock ⟨role, body.map Stmt.unplaced⟩ q.frames) := by
  obtain ⟨r', hsettled, hleads⟩ :=
    hbody { q with frames := ⟨role, []⟩ :: q.frames, phase := .ready } ⟨role, []⟩ q.frames rfl rfl
  refine hleads.append (start_leads (by rw [hsettled]; rfl) rfl fun log => ?_)
  rw [hsettled]
  exact congrArg Step.moved (closeBlock_with q _ _ log _ _)

/-- The statement that a block completes, if nothing more comes. -/
def stmtOf (body : List Stmt) : Role → Stmt
  | .bare => .block body
  | .thenPart condition => .conditional condition body none
  | .elsePart condition first => .conditional condition first (some body)
  | .whileBody condition => .whileLoop condition body
  | .repeatBody count spot => .repeatLoop count spot body

/-- A closed block completes the statement that it is part of. -/
theorem settled_closeBlock (q : Reader) (role : Role) (body : List Stmt) :
    (q.closeBlock ⟨role, body⟩ q.frames).settled = q.complete (stmtOf body role) := by
  obtain ⟨items, frames, phase, log⟩ := q
  cases role <;> cases frames <;> rfl

/-- A block in braces is taken where one may open. -/
theorem opening_leads (hbody : Stmt.TakenAll body) (q : Reader) (role : Role) :
    Leads { q with phase := .opening role } (Token.braced (Stmt.tokensAll body))
      (q.closeBlock ⟨role, body.map Stmt.unplaced⟩ q.frames) :=
  Leads.cons (leads_of_quiet fun _ => rfl) (block_leads hbody q role)

/-- A keyword and an expression in parentheses, at the start of a statement. -/
theorem headed_leads {r : Reader} (hr : r.settled.phase = .ready) {e : Expr} (he : e.Writable)
    (k : Kind) (place : Place) (φ : Phase) (hk : k.followsStatement = true)
    (hkeyword : ∀ log, ready { r.settled with log } (.token k.token) =
      .moved { r.settled with phase := .keyword k, log })
    (hplace : ∀ log,
      look { r.settled with phase := .keyword k, log } (.token Kind.leftParen.token) =
        .moved { r.settled with phase := .wanting place .fresh [], log })
    (hclose : ∀ ψ log,
      closeWhole { r.settled with phase := ψ, log } place [] e.unplaced .rightParen =
        .moved { r.settled with phase := φ, log }) :
    Leads r (k.token :: Token.parenthesised e.tokens) { r.settled with phase := φ } :=
  .cons (m := { r.settled with phase := .keyword k }) (start_leads hr hk hkeyword)
    (.cons (m := { r.settled with phase := .wanting place .fresh [] }) (leads_of_quiet hplace)
      (he.takenAsWhole rfl hclose))

end Reader

namespace Stmt

variable {target : Name} {value condition : Expr} {body other : List Stmt}

/-- An assignment that can be written is taken. -/
theorem taken_assign (htarget : target.Writable) (hvalue : value.Writable) :
    (Stmt.assign target value none).Taken := by
  intro r hr
  have hkind : (Token.ofWord target.text).kind = .identifier := htarget.kind_ofWord
  refine ⟨_, Reader.settled_complete r.settled _, ?_⟩
  refine .cons (m := { r.settled with phase := .target target.unplaced })
    (Reader.start_leads hr (by rw [hkind]; rfl) fun log => ?_)
    (.cons (Reader.leads_of_quiet fun _ => rfl) (hvalue.takenAsWhole rfl fun φ log => ?_))
  · simp only [Reader.ready, hkind, htarget.toName]
    rfl
  · exact congrArg Step.moved (Reader.complete_with r.settled φ log _)

/-- A statement that ends with a block is taken if its tokens lead to the end of the block. -/
theorem exists_taken {s : Stmt} {r : Reader} {role : Role} {ts : List Token}
    (hleads : r.Leads ts (r.settled.closeBlock ⟨role, body.map unplaced⟩ r.settled.frames))
    (htokens : s.tokens = ts) (hs : s.unplaced = Reader.stmtOf (body.map unplaced) role) :
    ∃ r' : Reader, r'.settled = r.settled.complete s.unplaced ∧ r.Leads s.tokens r' :=
  ⟨_, by rw [Reader.settled_closeBlock, hs], htokens ▸ hleads⟩

/-- So is a conditional without a second block. -/
theorem taken_conditional (hcondition : condition.Writable) (hbody : TakenAll body) :
    (Stmt.conditional condition body none).Taken := by
  intro r hr
  have hhead := Reader.headed_leads hr hcondition .si .si
    (.opening (.thenPart condition.unplaced)) rfl (fun _ => rfl) (fun _ => rfl) (fun _ _ => rfl)
  have hleads := hhead.append (Reader.opening_leads hbody r.settled (.thenPart condition.unplaced))
  exact exists_taken hleads (by simp [tokens, tokensOther])
    (by simp [unplaced, unplacedOther, Reader.stmtOf])

/-- So is one with a second block. -/
theorem taken_alternative (hcondition : condition.Writable) (hbody : TakenAll body)
    (hother : TakenAll other) : (Stmt.conditional condition body (some other)).Taken := by
  intro r hr
  have hhead := Reader.headed_leads hr hcondition .si .si
    (.opening (.thenPart condition.unplaced)) rfl (fun _ => rfl) (fun _ => rfl) (fun _ _ => rfl)
  have hfirst := hhead.append (Reader.opening_leads hbody r.settled (.thenPart condition.unplaced))
  have hsecond := Reader.opening_leads hother r.settled
    (.elsePart condition.unplaced (body.map Stmt.unplaced))
  -- The first block leaves the conditional open, which is why `oNo` can still be taken.
  have hleads := hfirst.append
    (.cons (t := Kind.oNo.token) (Reader.leads_of_quiet fun _ => rfl) hsecond)
  exact exists_taken hleads (by simp [tokens, tokensOther])
    (by simp [unplaced, unplacedOther, Reader.stmtOf])

theorem taken_whileLoop (hcondition : condition.Writable) (hbody : TakenAll body) :
    (Stmt.whileLoop condition body).Taken := by
  intro r hr
  have hhead := Reader.headed_leads hr hcondition .mientras .mientras
    (.opening (.whileBody condition.unplaced)) rfl (fun _ => rfl) (fun _ => rfl) (fun _ _ => rfl)
  have hleads := hhead.append (Reader.opening_leads hbody r.settled (.whileBody condition.unplaced))
  exact exists_taken hleads (by simp [tokens]) (by simp [unplaced, Reader.stmtOf])

theorem taken_repeatLoop {count : Int} {spot : Spot} (hcount : Numeral.Writable count)
    (hbody : TakenAll body) : (Stmt.repeatLoop count spot body).Taken := by
  intro r hr
  have hread : Reader.Leads { r.settled with phase := .counting (.ofInteger count) }
    [Kind.rightParen.token]
      { r.settled with phase := .opening (.repeatBody count .start) } :=
    Reader.leads_of_quiet fun log => by
      simp only [Reader.look, Token.ofInteger, hcount.readInteger]
      rfl
  have hhead : r.Leads (Kind.repetir.token :: Token.parenthesised [.ofInteger count])
      { r.settled with phase := .opening (.repeatBody count .start) } :=
    .cons (m := { r.settled with phase := .keyword .repetir }) (Reader.start_leads hr rfl fun _ =>
      rfl) (.cons (m := { r.settled with phase := .count }) (Reader.leads_of_quiet fun _ => rfl)
      (.cons (Reader.leads_of_quiet fun _ => rfl) hread))
  have hleads := hhead.append (Reader.opening_leads hbody r.settled (.repeatBody count .start))
  exact exists_taken hleads (by simp [tokens]) (by simp [unplaced, Reader.stmtOf])

theorem taken_print (hvalue : value.Writable) : (Stmt.print value).Taken := by
  intro r hr
  have hhead := Reader.headed_leads hr hvalue .sout .sout (.ending (.print value.unplaced)) rfl
    (fun _ => rfl) (fun _ => rfl) (fun _ _ => rfl)
  refine ⟨_, Reader.settled_complete r.settled _,
    hhead.append (Reader.leads_of_quiet fun log => ?_)⟩
  exact congrArg Step.moved (Reader.complete_with r.settled _ log _)

theorem taken_input (htarget : target.Writable) : (Stmt.input target).Taken := by
  intro r hr
  have hkind : (Token.ofWord target.text).kind = .identifier := htarget.kind_ofWord
  have hname : Reader.Leads { r.settled with phase := .inputName } [.ofWord target.text]
      { r.settled with phase := .inputNamed target.unplaced } :=
    Reader.leads_of_quiet fun _ => by
      simp only [Reader.look, hkind, htarget.toName]
      rfl
  have hhead : r.Leads (Kind.scan.token :: Token.parenthesised [.ofWord target.text])
      { r.settled with phase := .ending (.input target.unplaced) } :=
    .cons (m := { r.settled with phase := .keyword .scan }) (Reader.start_leads hr rfl fun _ => rfl)
      (.cons (m := { r.settled with phase := .inputName }) (Reader.leads_of_quiet fun _ => rfl)
        (hname.cons (Reader.leads_of_quiet fun _ => rfl)))
  refine ⟨_, Reader.settled_complete r.settled _,
    hhead.append (Reader.leads_of_quiet fun log => ?_)⟩
  exact congrArg Step.moved (Reader.complete_with r.settled _ log _)

theorem taken_block (hbody : TakenAll body) : (Stmt.block body).Taken := by
  intro r hr
  have hopen : r.Leads [Kind.leftBrace.token]
      { r.settled with frames := ⟨.bare, []⟩ :: r.settled.frames, phase := .ready } :=
    Reader.start_leads hr rfl fun _ => rfl
  exact exists_taken (hopen.cons (Reader.block_leads hbody r.settled .bare)) rfl
    (by simp [unplaced, Reader.stmtOf])

theorem takenAll_nil : TakenAll [] := fun r f fs _ hframes =>
  ⟨r, by simp [← hframes], .refl r⟩

/-- Statements that are taken one by one are taken together. -/
theorem takenAll_cons {s : Stmt} (hs : s.Taken) (hrest : TakenAll body) : TakenAll (s :: body) := by
  intro r f fs hr hframes
  obtain ⟨m, hm, hleads⟩ := hs r hr
  -- Inside a block a completed statement goes to the innermost frame.
  have hcomplete : r.settled.complete s.unplaced =
      { r.settled with frames := { f with stmts := f.stmts ++ [s.unplaced] } :: fs } := by
    simp only [Reader.complete, hframes, hr]
  rw [hcomplete] at hm
  obtain ⟨r', hr', hleads'⟩ :=
    hrest m { f with stmts := f.stmts ++ [s.unplaced] } fs (by rw [hm]; exact hr) (by rw [hm])
  exact ⟨r', by simp [hr', hm], hleads.append hleads'⟩

mutual

/-- Every statement that can be written is taken. -/
theorem Writable.taken : ∀ {s : Stmt}, s.Writable → s.Taken
  | .assign _ _ _, ⟨htarget, hvalue, hty⟩ => hty ▸ taken_assign htarget hvalue
  | .conditional _ _ none, ⟨hcondition, hbody, _⟩ =>
    taken_conditional hcondition (WritableAll.taken hbody)
  | .conditional _ _ (some _), ⟨hcondition, hbody, hother⟩ =>
    taken_alternative hcondition (WritableAll.taken hbody) (WritableAll.taken hother)
  | .whileLoop _ _, ⟨hcondition, hbody⟩ => taken_whileLoop hcondition (WritableAll.taken hbody)
  | .repeatLoop _ _ _, ⟨hcount, hbody⟩ => taken_repeatLoop hcount (WritableAll.taken hbody)
  | .print _, hvalue => taken_print hvalue
  | .input _, htarget => taken_input htarget
  | .block _, hbody => taken_block (WritableAll.taken hbody)

theorem WritableAll.taken : ∀ {body : List Stmt}, WritableAll body → TakenAll body
  | [], _ => takenAll_nil
  | _ :: _, ⟨hs, hrest⟩ => takenAll_cons (Writable.taken hs) (WritableAll.taken hrest)

end

end Stmt

/-! ## Programs -/

/-- The tokens of an item add it to the program, outside all blocks. -/
def Item.Taken (i : Item) : Prop :=
  ∀ r : Reader, r.settled.phase = .ready → r.settled.frames = [] →
    ∃ r' : Reader, r'.settled = { r.settled with items := r.settled.items ++ [i.unplaced] } ∧
      r.Leads i.tokens r'

/-- A name is taken where a declaration asks for one. -/
theorem Name.Writable.leads {n : Name} (h : n.Writable) (q : Reader) (ty : Ty) (names : List Name) :
    Reader.Leads { q with phase := .nextName ty names } [.ofWord n.text]
      { q with phase := .named ty (names ++ [n.unplaced]) } := by
  have hkind : (Token.ofWord n.text).kind = .identifier := h.kind_ofWord
  refine Reader.leads_of_quiet fun log => ?_
  simp only [Reader.look, hkind, h.toName]
  rfl

/-- More names are taken after commas. -/
theorem Name.leads_more (q : Reader) (ty : Ty) {names : List Name} (h : ∀ n ∈ names, n.Writable)
    (before : List Name) :
    Reader.Leads { q with phase := .named ty before }
      (names.flatMap fun n => [Kind.comma.token, .ofWord n.text])
      { q with phase := .named ty (before ++ names.map unplaced) } := by
  induction names generalizing before with
  | nil => simpa using Reader.Leads.refl { q with phase := .named ty before }
  | cons n names ih =>
    obtain ⟨hn, hnames⟩ := List.forall_mem_cons.mp h
    have hcomma : Reader.Leads { q with phase := .named ty before } [Kind.comma.token]
        { q with phase := .nextName ty before } := Reader.leads_of_quiet fun _ => rfl
    have hleads := hcomma.append
      ((hn.leads q ty before).append (ih hnames (before ++ [n.unplaced])))
    simpa using hleads

/-- A declaration that can be written is taken. -/
theorem Item.taken_declaration {ty : Ty} {names : List Name} (hty : ty ≠ .bool) (hne : names ≠ [])
    (hnames : ∀ n ∈ names, n.Writable) : (Item.declaration ty none names).Taken := by
  intro r hr hframes
  obtain ⟨n, rest, rfl⟩ := List.exists_cons_of_ne_nil hne
  obtain ⟨hn, hrest⟩ := List.forall_mem_cons.mp hnames
  have htype : r.Leads [.ofWord ty.name] { r.settled with phase := .nextName ty [] } := by
    cases ty with
    | bool => exact absurd rfl hty
    | _ => exact Reader.start_leads hr rfl fun log => by simp only [Reader.ready, hframes]; rfl
  have hmore := Name.leads_more r.settled ty hrest [n.unplaced]
  have hend :
      Reader.Leads { r.settled with phase := .named ty ([n.unplaced] ++ rest.map Name.unplaced) }
      [Kind.semicolon.token] { r.settled with
        items := r.settled.items ++ [.declaration ty none (n.unplaced :: rest.map Name.unplaced)],
        phase := .ready } := Reader.leads_of_quiet fun _ => rfl
  refine ⟨_, ?_, htype.cons ((hn.leads r.settled ty []).cons (hmore.append hend))⟩
  rw [Reader.settled_of_ready rfl]
  simp only [Item.unplaced, List.map_cons, ← hr]

theorem Item.Writable.taken {i : Item} (h : i.Writable) : i.Taken := by
  cases i with
  | declaration ty listType names =>
    obtain ⟨hty, rfl, hne, hnames⟩ := h
    exact Item.taken_declaration hty hne hnames
  | statement s =>
    intro r hr hframes
    obtain ⟨r', hr', hleads⟩ := Stmt.Writable.taken h r hr
    refine ⟨r', hr'.trans ?_, hleads⟩
    simp only [Reader.complete, hframes, hr, Item.unplaced]

/-- Items that can be written are taken one after the other. -/
theorem Item.exists_leads {items : List Item} (h : ∀ i ∈ items, i.Writable) {r : Reader}
    (hr : r.settled.phase = .ready) (hframes : r.settled.frames = []) :
    ∃ r' : Reader,
      r'.settled = { r.settled with items := r.settled.items ++ items.map Item.unplaced } ∧
      r.Leads (items.flatMap Item.tokens) r' := by
  induction items generalizing r with
  | nil => exact ⟨r, by simp, .refl r⟩
  | cons i items ih =>
    obtain ⟨hi, hitems⟩ := List.forall_mem_cons.mp h
    obtain ⟨m, hm, hleads⟩ := hi.taken r hr hframes
    obtain ⟨r', hr', hleads'⟩ := ih hitems (by rw [hm]; exact hr) (by rw [hm]; exact hframes)
    refine ⟨r', by simp [hr', hm], ?_⟩
    simpa using hleads.append hleads'

/-- Reading a printed program gives the program, up to places. -/
theorem Reading.ofText_print {p : Program} (h : p.Writable) :
    ∃ q log, Reading.ofText p.print = .program q log ∧ q.unplaced = p.unplaced := by
  obtain ⟨us, hus, hscan⟩ := Scan.ofText_intercalate fun t ht => (h.printed t ht).reads
  have htokens : us.map Token.unplaced = p.tokens := by
    rw [hus]
    exact (List.map_congr_left fun t ht => (h.printed t ht).unplaced).trans (List.map_id _)
  obtain ⟨r', hr', hleads⟩ := Item.exists_leads h (r := .start) rfl rfl
  obtain ⟨log, htakes⟩ := hleads []
  have hunplaced : Reader.start.unplaced.Takes (us.map Token.unplaced) { r' with log } := by
    rw [htokens]
    exact htakes
  -- The scan gives tokens with places; the same run with places erased ends in a reader like `r'`.
  obtain ⟨m, htakes, hm⟩ := hunplaced.of_unplaced
  have hfinish : m.unplaced.look .finish = .accepted p.unplaced log := by
    have hsettled : Reader.settled { r' with log } =
        ⟨p.items.map Item.unplaced, [], .ready, log⟩ := by
      rw [Reader.settled_with, hr']
      rfl
    rw [hm, Reader.look_settled_finish (by rw [hsettled]), hsettled]
    rfl
  obtain ⟨q, hq, heq⟩ := Reader.finish_of_unplaced hfinish
  exact ⟨q,
    log, by simp only [Reading.ofText, Reading.ofScan, Program.print, hscan, htakes.run hq], heq⟩

/-- Parsing undoes printing: the text of every program that can be written is accepted and read as
the same program, up to the places of names and literals. -/
theorem Session.parse_print (s : Session) {p : Program} (h : p.Writable) :
    ∃ q, s.parse [] p.print =
        (.ok true, { s with program := some q, ledger := { s.ledger with syntactic := [] } }) ∧
      q.unplaced = p.unplaced := by
  obtain ⟨q, log, hread, heq⟩ := Reading.ofText_print h
  refine ⟨q, ?_, heq⟩
  simp [Session.parse, Parsing.ofText, hread]

/-- A program with a declaration, a compound operand, both blocks of a conditional and a nested
loop. -/
def Program.branching : Program :=
  let n : Name := ⟨"n", .start, .blank⟩
  let m : Name := ⟨"m_2", .start, .blank⟩
  let double : Expr := .operation .mul (.use n) (.number (.whole 2) .start)
  ⟨[.declaration .ent none [n, m], .statement (.assign n (.number (.whole 7) .start) none),
    .statement (.conditional (.operation .ge double (.use m)) [.print (.text "ya" .start)]
      (some [.repeatLoop 3 .start [.input m]]))]⟩

theorem Session.parse_print_branching :
    Program.branching.Writable ∧
      Program.branching.print = "ent n , m_2 ; n = 7 ; si ( ( n * 2 ) >= m_2 ) " ++
        "\x7b sout ( \"ya\" ) ; \x7d oNo \x7b repetir ( 3 ) \x7b scan ( m_2 ) ; \x7d \x7d" ∧
      ∃ q, Session.empty.parse [] Program.branching.print =
          (.ok true, { Session.empty with program := some q }) ∧
        q.unplaced = Program.branching.unplaced := by
  have hn : Name.Writable ⟨"n", .start, .blank⟩ := ⟨⟨⟨'n', [], rfl, rfl, by simp⟩, rfl⟩, rfl⟩
  have hm : Name.Writable ⟨"m_2", .start, .blank⟩ :=
    ⟨⟨⟨'m', ['_', '2'], rfl, rfl, by simp [Scan.isWordRest]⟩, rfl⟩, rfl⟩
  have hwritable : Program.branching.Writable := by
    have hcondition : Expr.Writable (.operation .ge (.operation .mul (.use ⟨"n", .start, .blank⟩)
        (.number (.whole 2) .start)) (.use ⟨"m_2", .start, .blank⟩)) :=
      ⟨by decide, rfl, ⟨by decide, rfl, hn, ⟨2, rfl, by decide⟩⟩, hm⟩
    have hother : Stmt.WritableAll [.repeatLoop 3 .start [.input ⟨"m_2", .start, .blank⟩]] :=
      ⟨⟨⟨3, rfl, by decide⟩, hm, trivial⟩, trivial⟩
    simp only [Program.Writable, Program.branching, List.forall_mem_cons]
    exact ⟨⟨by decide, rfl, by simp, by simp [hn, hm]⟩, ⟨hn, ⟨7, rfl, by decide⟩, rfl⟩,
      ⟨hcondition, ⟨(by decide : '"' ∉ "ya".toList), trivial⟩, hother⟩, List.forall_mem_nil _⟩
  exact ⟨hwritable, by decide +kernel, Session.parse_print .empty hwritable⟩

end Analizador
