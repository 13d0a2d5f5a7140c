import Analizador.Program

/-! # Expressions and names of a program

A program as what it is made of: the expressions of its statements, at any depth, and its names in
the order of the text, each either declared or used. -/

namespace Analizador

/-! ## Expressions -/

mutual

/-- Every expression of a statement has a property; the count of a repetition is one of them. -/
def Stmt.Every (P : Expr → Prop) : Stmt → Prop
  | .assign _ value _ => P value
  | .conditional condition body other => P condition ∧ EveryAll P body ∧ EveryOther P other
  | .whileLoop condition body => P condition ∧ EveryAll P body
  | .repeatLoop count spot body => P (.number (.whole count) spot) ∧ EveryAll P body
  | .print value => P value
  | .input _ => True
  | .block body => EveryAll P body
termination_by structural s => s

/-- Every expression of the second block of a conditional has a property. -/
def Stmt.EveryOther (P : Expr → Prop) : Option (List Stmt) → Prop
  | none => True
  | some body => EveryAll P body
termination_by structural other => other

/-- Every expression of some statements has a property. -/
def Stmt.EveryAll (P : Expr → Prop) : List Stmt → Prop
  | [] => True
  | s :: rest => s.Every P ∧ EveryAll P rest
termination_by structural body => body

end

/-- Every expression of an item has a property. -/
def Item.Every (P : Expr → Prop) : Item → Prop
  | .declaration .. => True
  | .statement s => s.Every P

theorem Stmt.everyAll_iff {P : Expr → Prop} {body : List Stmt} :
    EveryAll P body ↔ ∀ s ∈ body, s.Every P := by
  induction body with
  | nil => simp [EveryAll]
  | cons s rest ih => simp [EveryAll, ih]

mutual

theorem Stmt.Every.mono {P Q : Expr → Prop} (hPQ : ∀ e, P e → Q e) :
    ∀ {s : Stmt}, s.Every P → s.Every Q
  | .assign _ _ _, h => hPQ _ h
  | .conditional _ _ _, h => ⟨hPQ _ h.1, EveryAll.mono hPQ h.2.1, EveryOther.mono hPQ h.2.2⟩
  | .whileLoop _ _, h => ⟨hPQ _ h.1, EveryAll.mono hPQ h.2⟩
  | .repeatLoop _ _ _, h => ⟨hPQ _ h.1, EveryAll.mono hPQ h.2⟩
  | .print _, h => hPQ _ h
  | .input _, _ => trivial
  | .block _, h => EveryAll.mono hPQ h

theorem Stmt.EveryOther.mono {P Q : Expr → Prop} (hPQ : ∀ e, P e → Q e) :
    ∀ {other : Option (List Stmt)}, EveryOther P other → EveryOther Q other
  | none, _ => trivial
  | some _, h => EveryAll.mono hPQ h

theorem Stmt.EveryAll.mono {P Q : Expr → Prop} (hPQ : ∀ e, P e → Q e) :
    ∀ {body : List Stmt}, EveryAll P body → EveryAll Q body
  | [], _ => trivial
  | _ :: _, h => ⟨Every.mono hPQ h.1, EveryAll.mono hPQ h.2⟩

end

theorem Item.Every.mono {P Q : Expr → Prop} (hPQ : ∀ e, P e → Q e) {i : Item} (h : i.Every P) :
    i.Every Q := by
  cases i with
  | declaration => trivial
  | statement s => exact Stmt.Every.mono hPQ h

/-! ## Names -/

/-- The names that an expression uses, in order. -/
def Expr.uses : Expr → List Name
  | .number .. | .text .. => []
  | .use name => [name]
  | .binary _ left right _ => left.uses ++ right.uses

mutual

/-- The names that a statement uses, in order. -/
def Stmt.uses : Stmt → List Name
  | .assign target value _ => target :: value.uses
  | .conditional condition body other => condition.uses ++ (usesAll body ++ usesOther other)
  | .whileLoop condition body => condition.uses ++ usesAll body
  | .repeatLoop _ _ body => usesAll body
  | .print value => value.uses
  | .input target => [target]
  | .block body => usesAll body
termination_by structural s => s

/-- The names that the second block of a conditional uses, in order. -/
def Stmt.usesOther : Option (List Stmt) → List Name
  | none => []
  | some body => usesAll body
termination_by structural other => other

/-- The names that some statements use, in order. -/
def Stmt.usesAll : List Stmt → List Name
  | [] => []
  | s :: rest => s.uses ++ usesAll rest
termination_by structural body => body

end

/-- A name at a place of a program: it is declared there with a type, or used. -/
inductive Mention where
  | declared (ty : Ty) (name : Name)
  | used (name : Name)
  deriving DecidableEq, Repr

/-- The names of an item in the order of the text. -/
def Item.mentions : Item → List Mention
  | .declaration ty _ names => names.map (.declared ty)
  | .statement s => s.uses.map .used

namespace Program

/-- The names of a program in the order of the text. -/
def mentions (p : Program) : List Mention := p.items.flatMap Item.mentions

/-- No name is declared twice. -/
def DeclaresOnce (p : Program) : Prop :=
  ∀ before ty n after, p.mentions = before ++ .declared ty n :: after →
    ∀ ty' m, .declared ty' m ∈ before → m.text ≠ n.text

/-- Every use of a name comes after a declaration of it. -/
def DeclaresFirst (p : Program) : Prop :=
  ∀ before n after, p.mentions = before ++ .used n :: after →
    ∃ ty m, .declared ty m ∈ before ∧ m.text = n.text

end Program

end Analizador
