/-! # Scoped tables

A table keeps numbered entries and says which of them each scope binds to a name. Besides the scopes
it has a flat index that remembers, for every name ever bound, the entry bound last; the index
outlives the scopes. -/

namespace Analizador

/-- Names bound to entry numbers, in the order in which they were first bound. -/
abbrev Bindings (κ : Type) := List (κ × Nat)

namespace Bindings

variable {κ : Type} [BEq κ]

/-- The entry number of a name. -/
def find? (b : Bindings κ) (name : κ) : Option Nat := b.lookup name

/-- Binds a name; one that is bound already keeps its place. -/
def put (b : Bindings κ) (name : κ) (entry : Nat) : Bindings κ :=
  match b with
  | [] => [(name, entry)]
  | (key, old) :: rest =>
    if name == key then (key, entry) :: rest else (key, old) :: put rest name entry

end Bindings

/-- A table with entries of type `σ` under names of type `κ`. -/
structure Table (κ σ : Type) where
  /-- All entries ever made, by number. -/
  entries : Array σ
  /-- The innermost scope. -/
  scope : Bindings κ
  /-- The scopes around it, from the inside out. -/
  outer : List (Bindings κ)
  /-- The entry bound last to each name. -/
  index : Bindings κ
  deriving Repr, Inhabited

namespace Table

variable {κ σ : Type}

/-- The table with one empty scope. -/
def empty : Table κ σ := ⟨#[], [], [], []⟩

/-- Opens a scope. -/
def enter (t : Table κ σ) : Table κ σ := { t with scope := [], outer := t.scope :: t.outer }

/-- Closes the innermost scope, unless it is the only one. -/
def exit (t : Table κ σ) : Table κ σ :=
  match t.outer with
  | [] => t
  | scope :: outer => { t with scope, outer }

/-- How many scopes are open around the outermost one. -/
def depth (t : Table κ σ) : Nat := t.outer.length

/-- The entries that some bindings name, in their order. -/
def entriesOf (t : Table κ σ) (b : Bindings κ) : List σ := b.filterMap fun (_, i) => t.entries[i]?

/-- The entries of the flat index. -/
def all (t : Table κ σ) : List σ := t.entriesOf t.index

/-- The names of the flat index with their entries. -/
def named (t : Table κ σ) : List (κ × σ) :=
  t.index.filterMap fun (name, i) => (t.entries[i]?).map (name, ·)

/-- The entries of every scope, from the outermost in. -/
def scopes (t : Table κ σ) : List (List σ) := (t.scope :: t.outer).reverse.map t.entriesOf

variable [BEq κ]

/-- Binds a name in the innermost scope to a new entry, unless it is bound there already. -/
def insert? (t : Table κ σ) (name : κ) (entry : σ) : Option (Table κ σ) :=
  if (t.scope.find? name).isSome then none
  else
    let number := t.entries.size
    some { t with
      entries := t.entries.push entry
      scope := t.scope.put name number
      index := t.index.put name number }

/-- The number of the entry that a name has in the innermost scope that binds it. -/
def locate? (t : Table κ σ) (name : κ) : Option Nat :=
  (t.scope :: t.outer).findSome? (·.find? name)

/-- The entry that a name has in the innermost scope that binds it. -/
def lookup (t : Table κ σ) (name : κ) : Option σ := do t.entries[← t.locate? name]?

/-- Changes one entry. -/
def modify (t : Table κ σ) (number : Nat) (f : σ → σ) : Table κ σ :=
  { t with entries := t.entries.modify number f }

/-- Changes the entry that a name has in the innermost scope that binds it. -/
def modifyLocated (t : Table κ σ) (name : κ) (f : σ → σ) : Table κ σ :=
  match t.locate? name with
  | some number => t.modify number f
  | none => t

/-- Changes the entry that the flat index has for a name. -/
def modifyIndexed (t : Table κ σ) (name : κ) (f : σ → σ) : Table κ σ :=
  match t.index.find? name with
  | some number => t.modify number f
  | none => t

end Table

end Analizador
