import Analizador.Proofs.Reader.Atoms

/-! # The names of a program in the order of the text

The names of a program that is read are the identifiers of its text, in the order in which they
stand there. -/

namespace Analizador

/-- The name that stands at a place of a program. -/
def Mention.name : Mention → Name
  | .declared _ n | .used n => n

/-- The name that an atom is. -/
def Expr.name? : Expr → Option Name
  | .use name => some name
  | .number .. | .text .. | .binary .. => none

theorem Expr.filterMap_atoms (e : Expr) : e.atoms.filterMap name? = e.uses := by
  induction e with
  | number | text | use => rfl
  | binary op left right mark ihleft ihright => simp [atoms, uses, ihleft, ihright]

mutual

theorem Stmt.filterMap_atoms : ∀ s : Stmt, s.atoms.filterMap Expr.name? = s.uses
  | .assign target value _ => by simp [atoms, uses, Expr.name?, Expr.filterMap_atoms]
  | .conditional condition body other => by
    simp [atoms, uses, Expr.filterMap_atoms, filterMap_atomsAll body, filterMap_atomsOther other]
  | .whileLoop condition body => by
      simp [atoms, uses, Expr.filterMap_atoms, filterMap_atomsAll body]
  | .repeatLoop _ _ body => by
    rw [atoms, uses, List.filterMap_cons_none rfl, filterMap_atomsAll body]
  | .print value => Expr.filterMap_atoms value
  | .input _ => rfl
  | .block body => filterMap_atomsAll body

theorem Stmt.filterMap_atomsOther :
    ∀ other : Option (List Stmt), (atomsOther other).filterMap Expr.name? = usesOther other
  | none => rfl
  | some body => filterMap_atomsAll body

theorem Stmt.filterMap_atomsAll :
    ∀ body : List Stmt, (atomsAll body).filterMap Expr.name? = usesAll body
  | [] => rfl
  | s :: rest => by simp [atomsAll, usesAll, filterMap_atoms s, filterMap_atomsAll rest]

end

theorem Item.filterMap_atoms (i : Item) :
    i.atoms.filterMap Expr.name? = i.mentions.map Mention.name := by
  cases i with
  | declaration ty listType names =>
    simp [atoms, mentions, Function.comp_def, Mention.name, Expr.name?, List.filterMap_map]
  | statement s => simp [atoms, mentions, Function.comp_def, Mention.name, Stmt.filterMap_atoms]

theorem Token.filterMap_atoms (t : Token) :
    t.atoms.filterMap Expr.name? = if t.kind = .identifier then [t.toName] else [] := by
  split
  next hkind => simp [atoms_identifier hkind, Expr.name?]
  next hkind =>
    unfold atoms toExpr
    cases hk : t.kind with
    | identifier => exact absurd hk hkind
    | integer => cases Numeral.readInteger t.text <;> rfl
    | decimal => cases Numeral.readDecimal t.text <;> rfl
    | text => rfl
    | _ => rfl

/-- The names of a program that is read from a text are the identifiers of the text. -/
theorem Reading.names_ofText {code : String} {p : Program} {log : List String}
    (h : ofText code = .program p log) :
    p.mentions.map Mention.name =
      ((Scan.ofText code).tokens.filter (·.kind = .identifier)).map Token.toName := by
  have htokens (ts : List Token) : (ts.flatMap Token.atoms).filterMap Expr.name? =
      (ts.filter (·.kind = .identifier)).map Token.toName := by
    induction ts with
    | nil => rfl
    | cons t ts ih =>
      rw [List.flatMap_cons, List.filterMap_append, ih, Token.filterMap_atoms]
      by_cases hkind : t.kind = .identifier <;> simp [hkind]
  calc p.mentions.map Mention.name
      = p.items.flatMap fun i => i.mentions.map Mention.name := List.map_flatMap
    _ = p.atoms.filterMap Expr.name? := by
        simp only [Program.atoms, List.filterMap_flatMap, Item.filterMap_atoms]
    _ = ((Scan.ofText code).tokens.filter (·.kind = .identifier)).map Token.toName := by
        rw [atoms_ofText h, htokens]

end Analizador
