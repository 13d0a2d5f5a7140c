import Analizador.Proofs.Reader.Preamble
import Analizador.Proofs.Scan.Spaced

/-! # Reading without places

A reader copies the places of tokens into the tree and never looks at them. So taking the places
away before reading or after it makes no difference, and what can be read from tokens without places
can be read from the same tokens anywhere. -/

namespace Analizador

/-! ## Trees without places -/

/-- A name without its place. -/
def Name.unplaced (n : Name) : Name := { n with spot := .start }

/-- An expression without places. -/
def Expr.unplaced : Expr → Expr
  | .number value _ => .number value .start
  | .text value _ => .text value .start
  | .use name => .use name.unplaced
  | .binary op left right mark => .binary op left.unplaced right.unplaced mark

mutual

/-- A statement without places. -/
def Stmt.unplaced : Stmt → Stmt
  | .assign target value ty => .assign target.unplaced value.unplaced ty
  | .conditional condition body other =>
    .conditional condition.unplaced (unplacedAll body) (unplacedOther other)
  | .whileLoop condition body => .whileLoop condition.unplaced (unplacedAll body)
  | .repeatLoop count _ body => .repeatLoop count .start (unplacedAll body)
  | .print value => .print value.unplaced
  | .input target => .input target.unplaced
  | .block body => .block (unplacedAll body)
termination_by structural s => s

/-- The second block of a conditional without places. -/
def Stmt.unplacedOther : Option (List Stmt) → Option (List Stmt)
  | none => none
  | some body => some (unplacedAll body)
termination_by structural other => other

/-- Statements without places. -/
def Stmt.unplacedAll : List Stmt → List Stmt
  | [] => []
  | s :: rest => s.unplaced :: unplacedAll rest
termination_by structural body => body

end

@[simp] theorem Stmt.unplacedAll_eq_map (body : List Stmt) :
    unplacedAll body = body.map unplaced := by
  induction body with
  | nil => rfl
  | cons s rest ih => rw [unplacedAll, ih, List.map_cons]

/-- An item without places. -/
def Item.unplaced : Item → Item
  | .declaration ty listType names => .declaration ty listType (names.map Name.unplaced)
  | .statement s => .statement s.unplaced

/-- A program without places. -/
def Program.unplaced (p : Program) : Program := ⟨p.items.map Item.unplaced⟩

/-! Taking the places away moves them all to one place. -/

theorem Name.unplaced_eq : unplaced = relocate fun _ => .start := rfl

theorem Expr.unplaced_eq : unplaced = relocate fun _ => .start := by
  funext e
  induction e with
  | number value spot => rfl
  | text value spot => rfl
  | use name => rfl
  | binary op left right mark ihl ihr => rw [unplaced, relocate, ihl, ihr]

mutual

theorem Stmt.unplaced_eq_relocate : (s : Stmt) → s.unplaced = s.relocate fun _ => .start
  | .assign target value ty => by rw [unplaced, relocate, Name.unplaced_eq, Expr.unplaced_eq]
  | .conditional condition body other => by
    rw [unplaced, relocate, Expr.unplaced_eq, unplacedAll_eq_relocateAll body,
      unplacedOther_eq_relocateOther other]
  | .whileLoop condition body => by
    rw [unplaced, relocate, Expr.unplaced_eq, unplacedAll_eq_relocateAll body]
  | .repeatLoop count spot body => by rw [unplaced, relocate, unplacedAll_eq_relocateAll body]
  | .print value => by rw [unplaced, relocate, Expr.unplaced_eq]
  | .input target => by rw [unplaced, relocate, Name.unplaced_eq]
  | .block body => by rw [unplaced, relocate, unplacedAll_eq_relocateAll body]
termination_by structural s => s

theorem Stmt.unplacedOther_eq_relocateOther :
    (other : Option (List Stmt)) → unplacedOther other = relocateOther (fun _ => .start) other
  | none => rfl
  | some body => by rw [unplacedOther, relocateOther, unplacedAll_eq_relocateAll body]
termination_by structural other => other

theorem Stmt.unplacedAll_eq_relocateAll :
    (body : List Stmt) → unplacedAll body = relocateAll (fun _ => .start) body
  | [] => rfl
  | s :: rest => by
    rw [unplacedAll, relocateAll, unplaced_eq_relocate s, unplacedAll_eq_relocateAll rest]
termination_by structural body => body

end

theorem Stmt.unplaced_eq : unplaced = relocate fun _ => .start := funext unplaced_eq_relocate

theorem Item.unplaced_eq : unplaced = relocate fun _ => .start := by
  funext i
  cases i with
  | declaration ty listType names => rfl
  | statement s => rw [unplaced, relocate, Stmt.unplaced_eq]

theorem Item.unplaced_relocate (f : Spot → Spot) (i : Item) :
    (i.relocate f).unplaced = i.unplaced := by
  rw [unplaced_eq, relocate_relocate]
  rfl

theorem Program.unplaced_eq : unplaced = relocate fun _ => .start := by
  funext p
  rw [unplaced, relocate, Item.unplaced_eq]

/-! ## Readers without places -/

/-- What is looked at, without its place. -/
def Look.unplaced : Look → Look
  | .token t => .token t.unplaced
  | .finish => .finish

/-- An operand without places. -/
def Operand.unplaced : Operand → Operand
  | .loose t => .loose t.unplaced
  | .built e => .built e.unplaced

/-- A level without places. -/
def Level.unplaced (level : Level) : Level where
  compared := level.compared.map fun left => (left.1.unplaced, left.2)
  operand := level.operand.map fun left => (left.1.unplaced, left.2)

/-- The statement of an expression without places. -/
def Place.unplaced : Place → Place
  | .assign target => .assign target.unplaced
  | .si => .si
  | .mientras => .mientras
  | .sout => .sout

/-- The part of a block without places. -/
def Role.unplaced : Role → Role
  | .bare => .bare
  | .thenPart condition => .thenPart condition.unplaced
  | .elsePart condition body => .elsePart condition.unplaced (body.map Stmt.unplaced)
  | .whileBody condition => .whileBody condition.unplaced
  | .repeatBody count _ => .repeatBody count .start

/-- An open block without places. -/
def Frame.unplaced (f : Frame) : Frame := ⟨f.role.unplaced, f.stmts.map Stmt.unplaced⟩

/-- A phase without places. -/
def Phase.unplaced : Phase → Phase
  | .ready => .ready
  | .afterThen condition body => .afterThen condition.unplaced (body.map Stmt.unplaced)
  | .nextName ty names => .nextName ty (names.map Name.unplaced)
  | .named ty names => .named ty (names.map Name.unplaced)
  | .target name => .target name.unplaced
  | .keyword k => .keyword k
  | .wanting place level outer => .wanting place.unplaced level.unplaced (outer.map Level.unplaced)
  | .holding place level outer x =>
    .holding place.unplaced level.unplaced (outer.map Level.unplaced) x.unplaced
  | .compared place outer e => .compared place.unplaced (outer.map Level.unplaced) e.unplaced
  | .whole place outer e => .whole place.unplaced (outer.map Level.unplaced) e.unplaced
  | .logical place outer => .logical place.unplaced (outer.map Level.unplaced)
  | .lone t => .lone t.unplaced
  | .count => .count
  | .counting t => .counting t.unplaced
  | .counted n _ => .counted n .start
  | .inputName => .inputName
  | .inputNamed name => .inputNamed name.unplaced
  | .opening role => .opening role.unplaced
  | .ending s => .ending s.unplaced

/-- A reader without places. -/
def Reader.unplaced (r : Reader) : Reader where
  items := r.items.map Item.unplaced
  frames := r.frames.map Frame.unplaced
  phase := r.phase.unplaced
  log := r.log

/-- A step without places. -/
def Step.unplaced : Step → Step
  | .moved r => .moved r.unplaced
  | .accepted p log => .accepted p.unplaced log
  | .stuck r => .stuck r.unplaced
  | .failed f => .failed f

/-! ## Reading commutes with taking places away -/

/-- Nothing stands before the text, and its places are taken away. -/
def Preamble.nowhere : Preamble := ⟨[], [], fun _ => .start⟩

theorem Look.unplaced_eq (next : Look) : next.unplaced = next.relocate Preamble.nowhere.place := by
  cases next <;> rfl

theorem Operand.unplaced_eq (x : Operand) : x.unplaced = x.relocate fun _ => .start := by
  cases x with
  | loose t => rfl
  | built e => rw [unplaced, relocate, Expr.unplaced_eq]

theorem Level.unplaced_eq : unplaced = relocate fun _ => .start := by
  funext level
  rw [unplaced, relocate, Expr.unplaced_eq]
  rfl

theorem Place.unplaced_eq (place : Place) : place.unplaced = place.relocate fun _ => .start := by
  cases place <;> rfl

theorem Role.unplaced_eq (role : Role) : role.unplaced = role.relocate fun _ => .start := by
  cases role <;> simp [unplaced, relocate, Expr.unplaced_eq, Stmt.unplaced_eq]

theorem Frame.unplaced_eq : unplaced = relocate fun _ => .start := by
  funext frame
  rw [unplaced, relocate, Role.unplaced_eq, Stmt.unplaced_eq]

theorem Phase.unplaced_eq (phase : Phase) : phase.unplaced = phase.relocate fun _ => .start := by
  cases phase <;> simp [unplaced, relocate, Name.unplaced_eq, Expr.unplaced_eq, Stmt.unplaced_eq,
    Operand.unplaced_eq, Level.unplaced_eq, Place.unplaced_eq, Role.unplaced_eq] <;> rfl

theorem Reader.unplaced_eq (r : Reader) : r.unplaced = r.behind .nowhere := by
  simp only [unplaced, behind, Preamble.nowhere, Item.unplaced_eq, Frame.unplaced_eq,
    Phase.unplaced_eq, List.nil_append]

theorem Step.unplaced_eq (step : Step) : step.unplaced = step.behind .nowhere := by
  cases step with
  | moved r => rw [unplaced, behind, Reader.unplaced_eq]
  | accepted p log =>
    rw [unplaced, behind, Program.unplaced_eq]
    rfl
  | stuck r => rw [unplaced, behind, Reader.unplaced_eq]
  | failed f => rfl

namespace Reader

variable {r r' : Reader} {ts : List Token}

/-- A look is the same with and without places. -/
theorem look_unplaced (r : Reader) (next : Look) :
    r.unplaced.look next.unplaced = (r.look next).unplaced := by
  rw [unplaced_eq, Look.unplaced_eq, look_behind, Step.unplaced_eq]

/-- What a reader takes without places it takes at any place. -/
theorem Takes.of_unplaced (htakes : r.unplaced.Takes (ts.map Token.unplaced) r') :
    ∃ m, r.Takes ts m ∧ m.unplaced = r' := by
  induction ts generalizing r with
  | nil =>
    cases htakes
    exact ⟨r, .nil, rfl⟩
  | cons t ts ih =>
    cases htakes with
    | cons hlook htail =>
      have hstep := (look_unplaced r (.token t)).symm.trans hlook
      cases hmoved : r.look (.token t) with
      | moved m =>
        rw [hmoved] at hstep
        obtain rfl := Step.moved.inj hstep
        obtain ⟨m', htakes, heq⟩ := ih htail
        exact ⟨m', .cons hmoved htakes, heq⟩
      | accepted | stuck | failed =>
        rw [hmoved] at hstep
        cases hstep

theorem finish_of_unplaced {p : Program} {log : List String}
    (h : r.unplaced.look .finish = .accepted p log) :
    ∃ q, r.look .finish = .accepted q log ∧ q.unplaced = p := by
  have hstep := (look_unplaced r .finish).symm.trans h
  cases hlook : r.look .finish with
  | accepted q log' =>
    rw [hlook] at hstep
    obtain ⟨rfl, rfl⟩ := Step.accepted.inj hstep
    exact ⟨q, rfl, rfl⟩
  | moved | stuck | failed =>
    rw [hlook] at hstep
    cases hstep

end Reader

end Analizador
