import Analizador.Program

/-! # Programs at other places

Moving every place of a program by one function changes nothing else: the shape of the tree, its
names and literals, and what is known about them stay. -/

namespace Analizador

/-- A token at another place. -/
def Token.relocate (f : Spot → Spot) (t : Token) : Token := { t with spot := f t.spot }

/-- A name at another place. -/
def Name.relocate (f : Spot → Spot) (n : Name) : Name := { n with spot := f n.spot }

/-- An expression at other places. -/
def Expr.relocate (f : Spot → Spot) : Expr → Expr
  | .number value spot => .number value (f spot)
  | .text value spot => .text value (f spot)
  | .use name => .use (name.relocate f)
  | .binary op left right mark => .binary op (left.relocate f) (right.relocate f) mark

mutual

/-- A statement at other places. -/
def Stmt.relocate (f : Spot → Spot) : Stmt → Stmt
  | .assign target value ty => .assign (target.relocate f) (value.relocate f) ty
  | .conditional condition body other =>
    .conditional (condition.relocate f) (relocateAll f body) (relocateOther f other)
  | .whileLoop condition body => .whileLoop (condition.relocate f) (relocateAll f body)
  | .repeatLoop count spot body => .repeatLoop count (f spot) (relocateAll f body)
  | .print value => .print (value.relocate f)
  | .input target => .input (target.relocate f)
  | .block body => .block (relocateAll f body)
termination_by structural s => s

/-- The second block of a conditional at other places. -/
def Stmt.relocateOther (f : Spot → Spot) : Option (List Stmt) → Option (List Stmt)
  | none => none
  | some body => some (relocateAll f body)
termination_by structural other => other

/-- Statements at other places. -/
def Stmt.relocateAll (f : Spot → Spot) : List Stmt → List Stmt
  | [] => []
  | s :: rest => s.relocate f :: relocateAll f rest
termination_by structural body => body

end

@[simp] theorem Stmt.relocateAll_eq_map (f : Spot → Spot) (body : List Stmt) :
    relocateAll f body = body.map (relocate f) := by
  induction body with
  | nil => rfl
  | cons s rest ih => rw [relocateAll, ih, List.map_cons]

/-- An item at other places. -/
def Item.relocate (f : Spot → Spot) : Item → Item
  | .declaration ty listType names => .declaration ty listType (names.map (Name.relocate f))
  | .statement s => .statement (s.relocate f)

/-- A program at other places. -/
def Program.relocate (f : Spot → Spot) (p : Program) : Program := ⟨p.items.map (Item.relocate f)⟩

/-! Moving the places twice moves them once. -/

theorem Expr.relocate_relocate (f g : Spot → Spot) (e : Expr) :
    (e.relocate f).relocate g = e.relocate (g ∘ f) := by
  induction e with
  | number | text | use => rfl
  | binary op left right mark ihleft ihright => simp only [relocate, ihleft, ihright]

mutual

theorem Stmt.relocate_relocate (f g : Spot → Spot) :
    (s : Stmt) → (s.relocate f).relocate g = s.relocate (g ∘ f)
  | .assign target value ty => by
      simp only [relocate, Expr.relocate_relocate, Name.relocate, Function.comp_apply]
  | .conditional condition body other => by
    rw [relocate, relocate, relocate, Expr.relocate_relocate, relocateAll_relocateAll f g body,
      relocateOther_relocateOther f g other]
  | .whileLoop condition body => by
    rw [relocate, relocate, relocate, Expr.relocate_relocate, relocateAll_relocateAll f g body]
  | .repeatLoop count spot body => by
    rw [relocate, relocate, relocate, relocateAll_relocateAll f g body, Function.comp_apply]
  | .print value => by rw [relocate, relocate, relocate, Expr.relocate_relocate]
  | .input target => rfl
  | .block body => by rw [relocate, relocate, relocate, relocateAll_relocateAll f g body]
termination_by structural s => s

theorem Stmt.relocateOther_relocateOther (f g : Spot → Spot) : (other : Option (List Stmt)) →
    relocateOther g (relocateOther f other) = relocateOther (g ∘ f) other
  | none => rfl
  | some body => by
      rw [relocateOther, relocateOther, relocateOther, relocateAll_relocateAll f g body]
termination_by structural other => other

theorem Stmt.relocateAll_relocateAll (f g : Spot → Spot) : (body : List Stmt) →
    relocateAll g (relocateAll f body) = relocateAll (g ∘ f) body
  | [] => rfl
  | s :: rest => by
    rw [relocateAll, relocateAll, relocateAll, relocate_relocate f g s,
      relocateAll_relocateAll f g rest]
termination_by structural body => body

end

theorem Item.relocate_relocate (f g : Spot → Spot) (i : Item) :
    (i.relocate f).relocate g = i.relocate (g ∘ f) := by
  cases i with
  | declaration ty listType names => simp [relocate, Name.relocate]
  | statement s => rw [relocate, relocate, relocate, Stmt.relocate_relocate]

namespace Expr

variable (f : Spot → Spot) (e : Expr)

@[simp] theorem cls_relocate : (e.relocate f).cls = e.cls := by
  cases e <;> rfl

@[simp] theorem ty_relocate : (e.relocate f).ty = e.ty := by
  cases e <;> rfl

@[simp] theorem value_relocate : (e.relocate f).value = e.value := by
  cases e <;> rfl

@[simp] theorem spot?_relocate : (e.relocate f).spot? = e.spot?.map f := by
  cases e <;> rfl

end Expr

end Analizador
