import Analizador.Proofs.Reader.Built

/-! # The atoms of a program in the order of the text

The names and literals of a program that is read are those of its text, in the order in which they
stand there. At every moment a reader holds the ones read so far in this order, and each step adds
that of the token it takes. -/

namespace Analizador

/-- The names and literals of an expression, in order. -/
def Expr.atoms : Expr → List Expr
  | .number n spot => [.number n spot]
  | .text s spot => [.text s spot]
  | .use name => [.use name]
  | .binary _ left right _ => left.atoms ++ right.atoms

mutual

/-- The names and literals of a statement, in order. -/
def Stmt.atoms : Stmt → List Expr
  | .assign target value _ => .use target :: value.atoms
  | .conditional condition body other => condition.atoms ++ (atomsAll body ++ atomsOther other)
  | .whileLoop condition body => condition.atoms ++ atomsAll body
  | .repeatLoop count spot body => .number (.whole count) spot :: atomsAll body
  | .print value => value.atoms
  | .input target => [.use target]
  | .block body => atomsAll body
termination_by structural s => s

/-- The names and literals of the second block of a conditional, in order. -/
def Stmt.atomsOther : Option (List Stmt) → List Expr
  | none => []
  | some body => atomsAll body
termination_by structural other => other

/-- The names and literals of some statements, in order. -/
def Stmt.atomsAll : List Stmt → List Expr
  | [] => []
  | s :: rest => s.atoms ++ atomsAll rest
termination_by structural body => body

end

/-- The names and literals of an item, in order. -/
def Item.atoms : Item → List Expr
  | .declaration _ _ names => names.map .use
  | .statement s => s.atoms

/-- The names and literals of a program, in order. -/
def Program.atoms (p : Program) : List Expr := p.items.flatMap Item.atoms

/-- The name or literal that a token is, if it can be read. -/
def Token.atoms (t : Token) : List Expr :=
  if t.kind ∈ Grammar.leaves then t.toExpr.toOption.toList else []

@[simp] theorem Stmt.atomsAll_append (body rest : List Stmt) :
    atomsAll (body ++ rest) = atomsAll body ++ atomsAll rest := by
  induction body with
  | nil => rfl
  | cons s body ih => simp [atomsAll, ih]

/-- The number that a count is, if it can be read. -/
def Token.count (t : Token) : List Expr :=
  match Numeral.readInteger t.text with
  | .ok n => [.number (.whole n) t.spot]
  | .error _ => []

/-! ## What a reader holds -/

/-- The atoms of an operand, which may be still to be built. -/
def Operand.atoms (x : Operand) : List Expr :=
  match x.build with
  | .ok e => e.atoms
  | .error _ => []

/-- The atoms of a left operand that waits for the right one. -/
def Level.pendingAtoms : Option (Expr × Operator) → List Expr
  | none => []
  | some (e, _) => e.atoms

/-- The atoms that a level holds. -/
def Level.atoms (level : Level) : List Expr :=
  pendingAtoms level.compared ++ pendingAtoms level.operand

/-- The atoms that the levels around an expression hold, from the outside in. -/
def Level.outerAtoms (outer : List Level) : List Expr := outer.reverse.flatMap atoms

/-- The atoms that a place holds. -/
def Place.atoms : Place → List Expr
  | .assign target => [.use target]
  | .si | .mientras | .sout => []

/-- The atoms that a role holds. -/
def Role.atoms : Role → List Expr
  | .bare => []
  | .thenPart condition | .whileBody condition => condition.atoms
  | .elsePart condition body => condition.atoms ++ Stmt.atomsAll body
  | .repeatBody count spot => [.number (.whole count) spot]

/-- The atoms that an open block holds. -/
def Frame.atoms (f : Frame) : List Expr := f.role.atoms ++ Stmt.atomsAll f.stmts

/-- The atoms that a phase holds. After a logical operator they are lost, but from there no program
is reached. -/
def Phase.atoms : Phase → List Expr
  | .ready | .keyword _ | .logical .. | .count | .inputName => []
  | .afterThen condition body => condition.atoms ++ Stmt.atomsAll body
  | .nextName _ ids | .named _ ids => ids.map .use
  | .target name | .inputNamed name => [.use name]
  | .wanting place level outer => place.atoms ++ (Level.outerAtoms outer ++ level.atoms)
  | .holding place level outer x =>
    place.atoms ++ (Level.outerAtoms outer ++ (level.atoms ++ x.atoms))
  | .compared place outer e | .whole place outer e =>
    place.atoms ++ (Level.outerAtoms outer ++ e.atoms)
  | .lone t => (Operand.loose t).atoms
  | .counting t => t.count
  | .counted n spot => [.number (.whole n) spot]
  | .opening role => role.atoms
  | .ending s => s.atoms

/-- The phases of a declaration. -/
def Phase.isDeclaring : Phase → Bool
  | .nextName .. | .named .. => true
  | _ => false

namespace Reader

/-- The atoms of the complete items and of the open blocks. -/
def openAtoms (r : Reader) : List Expr :=
  r.items.flatMap Item.atoms ++ r.frames.reverse.flatMap Frame.atoms

/-- The atoms that a reader holds, in the order of the text. -/
def atoms (r : Reader) : List Expr := r.openAtoms ++ r.phase.atoms

/-- A reader holds the given atoms, and no declaration inside a block, unless it cannot come to a
program any more. -/
def Atoms (r : Reader) (atoms : List Expr) : Prop :=
  (∃ place outer, r.phase = .logical place outer) ∨
    r.atoms = atoms ∧ (r.phase.isDeclaring = true → r.frames = [])

end Reader

/-! ## Every step adds the atoms of its token -/

theorem Operand.atoms_built (e : Expr) : (Operand.built e).atoms = e.atoms := rfl

/-- The expression of a token is its own only atom. -/
theorem Token.atoms_of_toExpr {t : Token} {e : Expr} (h : t.toExpr = .ok e) : e.atoms = [e] := by
  obtain ⟨n, -, rfl⟩ | ⟨d, rfl⟩ | ⟨s, rfl⟩ | rfl := toExpr_cases h <;> rfl

theorem Operand.atoms_loose {t : Token} (h : t.kind ∈ Grammar.leaves) :
    (Operand.loose t).atoms = t.atoms := by
  cases hexpr : t.toExpr with
  | ok e => simp [Operand.atoms, Operand.build, Token.atoms, h, hexpr, Token.atoms_of_toExpr hexpr,
      Except.toOption]
  | error f => simp [Operand.atoms, Operand.build, Token.atoms, h, hexpr, Except.toOption]

/-- The atom of an identifier is the use of its name. -/
theorem Token.atoms_identifier {t : Token} (h : t.kind = .identifier) :
    t.atoms = [.use t.toName] := by
  simp [atoms, toExpr, h, Grammar.leaves, Except.toOption]

theorem Token.atoms_integer {t : Token} (h : t.kind = .integer) : t.atoms = t.count := by
  cases hread : Numeral.readInteger t.text <;>
    simp [atoms, toExpr, count, h, hread, Grammar.leaves, Except.toOption, bind, Except.bind, pure,
      Except.pure]

theorem Token.atoms_of_kind {t : Token} {k : Kind} (h : t.kind = k) (hk : k ∉ Grammar.leaves) :
    t.atoms = [] :=
  if_neg (h ▸ hk)

/-- A token of a class without names and literals is no atom. -/
theorem Token.atoms_of_class {t : Token} {p : Kind → Bool} (h : p t.kind = true)
    (hp : ∀ k ∈ Grammar.leaves, p k = false) : t.atoms = [] := by
  refine atoms_of_kind rfl fun hkind => ?_
  rw [hp _ hkind] at h
  cases h

@[simp] theorem Level.atoms_fresh : fresh.atoms = [] := rfl

@[simp] theorem Level.outerAtoms_nil : outerAtoms [] = [] := rfl

/-- The atoms of a level come after those of the levels around it. -/
theorem Level.outerAtoms_cons (level : Level) (outer : List Level) :
    outerAtoms (level :: outer) = outerAtoms outer ++ level.atoms := by
  simp [outerAtoms]

namespace Reader

variable {r : Reader}

theorem openAtoms_complete (r : Reader) (s : Stmt) :
    (r.complete s).openAtoms = r.openAtoms ++ s.atoms := by
  unfold Reader.complete
  split
  next hframes => simp [openAtoms, hframes, Item.atoms]
  next hframes => simp [openAtoms, hframes, Frame.atoms, Stmt.atomsAll]

theorem phase_complete (r : Reader) (s : Stmt) : (r.complete s).phase = .ready := by
  unfold Reader.complete
  split <;> rfl

/-- A completed statement adds its atoms to the open ones. -/
theorem atoms_complete (r : Reader) (s : Stmt) : (r.complete s).atoms = r.openAtoms ++ s.atoms := by
  rw [atoms, phase_complete, openAtoms_complete, Phase.atoms, List.append_nil]

/-- So does a phase. -/
theorem atoms_inPhase (r : Reader) (phase : Phase) :
    (r.inPhase phase).atoms = r.openAtoms ++ phase.atoms :=
  rfl

/-- So does the role of a block that is opened. -/
theorem atoms_openBlock (r : Reader) (role : Role) :
    (r.openBlock role).atoms = r.openAtoms ++ role.atoms := by
  simp [atoms, openAtoms, openBlock, Phase.atoms, Frame.atoms, Stmt.atomsAll]

/-- Ending a block keeps its atoms. -/
theorem atoms_closeBlock {f : Frame} {fs : List Frame} (hframes : r.frames = f :: fs) :
    (r.closeBlock f fs).atoms = r.openAtoms := by
  obtain ⟨role, stmts⟩ := f
  have hopen : r.openAtoms =
      ({ r with frames := fs } : Reader).openAtoms ++ Frame.atoms ⟨role, stmts⟩ := by
    simp [openAtoms, hframes]
  rw [hopen]
  cases role with
  | thenPart condition => rfl
  | bare => exact atoms_complete _ (.block stmts)
  | elsePart condition body =>
    have hcomplete :=
      atoms_complete { r with frames := fs } (.conditional condition body (some stmts))
    rwa [Stmt.atoms, ← List.append_assoc condition.atoms] at hcomplete
  | whileBody condition => exact atoms_complete _ (.whileLoop condition stmts)
  | repeatBody count spot => exact atoms_complete _ (.repeatLoop count spot stmts)

theorem isDeclaring_closeBlock (r : Reader) (f : Frame) (fs : List Frame) :
    (r.closeBlock f fs).phase.isDeclaring = false := by
  unfold closeBlock
  cases f.role <;> simp only [phase_complete] <;> rfl

/-- Ending a phrase keeps the atoms. -/
theorem Ends.atoms {r' : Reader} {k : Kind} (h : r.Ends k r') {atoms : List Expr}
    (hr : r.Atoms atoms) : r'.Atoms atoms := by
  have hends {q : Reader} (hatoms : q.atoms = r.atoms) (hphase : q.phase.isDeclaring = false) :
      q.Atoms r.atoms :=
    .inr ⟨hatoms, by simp [hphase]⟩
  obtain ⟨place, outer, hphase⟩ | ⟨rfl, -⟩ := hr
  · cases h <;> cases hphase
  cases h with
  | conditional =>
    refine hends ?_ (by rw [phase_complete]; rfl)
    rw [atoms_complete, atoms_inPhase, Stmt.atoms, Stmt.atomsOther, List.append_nil]
    rfl
  | leaf hk he =>
    refine hends ?_ rfl
    simp only [atoms_inPhase, Phase.atoms, Operand.atoms, Operand.build, he]
  | operation | plain | comparison =>
    refine hends ?_ rfl
    simp [atoms_inPhase, openAtoms, note, Phase.atoms, Level.atoms, Level.pendingAtoms, Level.fresh,
      Operand.atoms_built, Expr.operation, Expr.atoms]
  | whole => exact hends rfl rfl
  | lone => exact hends rfl rfl
  | count hk hn =>
    refine hends ?_ rfl
    simp [atoms_inPhase, Phase.atoms, Token.count, hn]

/-- Taking a token adds its atoms. -/
theorem Shifts.atoms {r' : Reader} {t : Token} (h : r.Shifts t r') {atoms : List Expr}
    (hr : r.Atoms atoms) : r'.Atoms (atoms ++ t.atoms) := by
  have hmoves {q : Reader} (hatoms : q.atoms = r.atoms ++ t.atoms)
      (hphase : q.phase.isDeclaring = false) : q.Atoms (r.atoms ++ t.atoms) :=
    .inr ⟨hatoms, by simp [hphase]⟩
  -- Most tokens have no atoms, and the reader holds the same ones after them.
  have hsame {q : Reader} (hnone : t.atoms = []) (hatoms : q.atoms = r.atoms)
      (hphase : q.phase.isDeclaring = false) : q.Atoms (r.atoms ++ t.atoms) :=
    hmoves (by rw [hatoms, hnone, List.append_nil]) hphase
  have hkind {k : Kind} (hkind : t.kind = k) (hk : k ∉ Grammar.leaves) : t.atoms = [] :=
    Token.atoms_of_kind hkind hk
  obtain ⟨place, outer, hphase⟩ | ⟨rfl, hdeclaring⟩ := hr
  · cases h <;> cases hphase
  cases h with
  | target h | inputName h =>
    refine hmoves ?_ rfl
    simp [atoms_inPhase, Phase.atoms, Token.atoms_identifier h]
  | keyword h => exact hsame (Token.atoms_of_class h (by decide)) rfl rfl
  | bare h => exact hsame (hkind h (by decide)) (atoms_openBlock _ _) rfl
  | close h hframes =>
    refine hsame (hkind h (by decide)) ?_ (isDeclaring_closeBlock ..)
    rw [atoms_closeBlock hframes, atoms_inPhase, Phase.atoms, List.append_nil]
  | type hty hframes =>
    -- A declaration starts outside all blocks only.
    have hnone : t.atoms = [] :=
      Token.atoms_of_class (p := fun k => k.type?.isSome) (by simp [hty]) (by decide)
    refine .inr ⟨?_, fun _ => hframes⟩
    simp [atoms_inPhase, Phase.atoms, hnone]
  | name h =>
    refine .inr ⟨?_, hdeclaring⟩
    simp [atoms_inPhase, Phase.atoms, Token.atoms_identifier h]
  | comma h =>
    refine .inr ⟨?_, hdeclaring⟩
    simp [atoms_inPhase, Phase.atoms, hkind h (by decide)]
  | @declaration r ty names h =>
    have hframes : r.frames = [] := hdeclaring rfl
    refine hsame (hkind h (by decide)) ?_ rfl
    simp [Reader.atoms, inPhase, openAtoms, Phase.atoms, Item.atoms, hframes]
  | assign h | otherwise h | si h | mientras h | sout h | counted h | input h =>
    exact hsame (hkind h (by decide)) rfl rfl
  | closeParen h | paren h =>
    refine hsame (hkind h (by decide)) ?_ rfl
    simp [atoms_inPhase, Phase.atoms, Level.outerAtoms_cons, Operand.atoms_built]
  | @inside r k h => exact hsame (hkind h (by decide)) (by cases k <;> rfl) (by cases k <;> rfl)
  | lone h =>
    refine hmoves ?_ rfl
    rw [atoms_inPhase, Phase.atoms, Operand.atoms_loose (by simp [h, Grammar.leaves])]
    simp [atoms_inPhase, Phase.atoms, Place.atoms]
  | operand hstarts hparen =>
    refine hmoves ?_ rfl
    have hleaf := (Kind.startsOperand_iff.mp hstarts).resolve_left hparen
    simp [atoms_inPhase, Phase.atoms, Operand.atoms_loose hleaf]
  | arithmetic hop =>
    have hnone : t.atoms = [] :=
      Token.atoms_of_class (p := fun k => k.arithmetic?.isSome) (by simp [hop]) (by decide)
    refine hsame hnone ?_ rfl
    simp [atoms_inPhase, Phase.atoms, Level.atoms, Level.pendingAtoms, Operand.atoms_built]
  | relational hop =>
    have hnone : t.atoms = [] :=
      Token.atoms_of_class (p := fun k => k.relational?.isSome) (by simp [hop]) (by decide)
    refine hsame hnone ?_ rfl
    simp [atoms_inPhase, Phase.atoms, Level.atoms, Level.pendingAtoms, Level.fresh,
      Operand.atoms_built]
  | logical => exact .inl ⟨_, _, rfl⟩
  | assigned h | statement h =>
    refine hsame (hkind h (by decide)) ?_ (by rw [phase_complete]; rfl)
    rw [atoms_complete]
    rfl
  | loneSout h he =>
    refine hsame (hkind h (by decide)) ?_ rfl
    simp [atoms_inPhase, Phase.atoms, Operand.atoms, Operand.build, he, Stmt.atoms]
  | count h =>
    refine hmoves ?_ rfl
    simp [atoms_inPhase, Phase.atoms, Token.atoms_integer h]
  | block h => exact hsame (hkind h (by decide)) (atoms_openBlock _ _) rfl

/-- Taking tokens adds their atoms to those that the reader holds. -/
theorem Takes.atoms {ts : List Token} {atoms : List Expr} (h : r.Takes ts r') (hr : r.Atoms atoms) :
    r'.Atoms (atoms ++ ts.flatMap Token.atoms) := by
  induction h generalizing atoms with
  | nil => rwa [List.flatMap_nil, List.append_nil]
  | cons hlook _ ih =>
    rw [List.flatMap_cons, ← List.append_assoc]
    exact ih (invariant_of_look (fun hends => hends.atoms) (fun hshifts => hshifts.atoms) hr hlook)

/-- The atoms of a reader that may stop are those of its program. -/
theorem Finishes.atoms {p : Program} {log : List String} {atoms : List Expr} (h : r.Finishes p log)
    (hr : r.Atoms atoms) : p.items.flatMap Item.atoms = atoms := by
  obtain ⟨place, outer, hphase⟩ | ⟨rfl, -⟩ := hr
  · cases h <;> cases hphase
  · cases h with
    | ready hframes => simp [Reader.atoms, openAtoms, Reader.inPhase, hframes, Phase.atoms]
    | conditional hframes =>
      simp [Reader.atoms, openAtoms, Reader.inPhase, hframes, Phase.atoms, Item.atoms, Stmt.atoms,
        Stmt.atomsOther]

/-- A whole run adds the atoms of its tokens. -/
theorem atoms_run {last : Spot} {stray : Option Stray} {ts : List Token} {p : Program}
    {log : List String} {atoms : List Expr} (hr : r.Atoms atoms)
    (h : r.run last stray ts = .program p log) :
    p.items.flatMap Item.atoms = atoms ++ ts.flatMap Token.atoms := by
  obtain ⟨-, m, htakes, hfinish⟩ := takes_of_run h
  exact (finishes_of_look hfinish).atoms (htakes.atoms hr)

end Reader

/-- The names and literals of a program that is read from a text are those of the text. -/
theorem Reading.atoms_ofText {code : String} {p : Program} {log : List String}
    (h : ofText code = .program p log) :
    p.atoms = (Scan.ofText code).tokens.flatMap Token.atoms := by
  have hstart : Reader.start.Atoms [] := .inr ⟨rfl, by simp [Reader.start, Phase.isDeclaring]⟩
  exact Reader.atoms_run hstart h

end Analizador
