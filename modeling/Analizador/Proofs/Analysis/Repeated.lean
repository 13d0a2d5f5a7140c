import Mathlib.Data.List.Infix
import Analizador.Proofs.Analysis.Declared
import Analizador.Proofs.Reader.Names

/-! # First and repeated declarations

A declaration is the first of its name or repeats one before it. The table of an analysed program
lists the first declarations in the order of the text, and the faults of this sort are the others:
the names that the analysis keeps besides the table are at every item those that are declared before
it. -/

namespace Analizador

/-- A name that is declared, with its type. -/
structure Declaration where
  ty : Ty
  name : Name
  deriving DecidableEq, Repr

/-- The declaration that stands at a place of a program, if one does. -/
def Mention.declaration? : Mention → Option Declaration
  | .declared ty n => some ⟨ty, n⟩
  | .used _ => none

/-- The declarations of a program in the order of the text. -/
def Program.declarations (p : Program) : List Declaration :=
  p.mentions.filterMap Mention.declaration?

namespace Declaration

/-- The variable of a declaration, without a value. -/
def symbol (d : Declaration) : Symbol := ⟨d.name.text, d.ty, none, d.name.spot⟩

/-- The report on a declaration of a name that is declared before. -/
def report (d : Declaration) : Diagnostic where
  kind := .redeclared
  message := .ofText s!"Variable '{d.name.text}' ya declarada"
  line := .ofInt d.name.spot.line
  column := .ofInt d.name.spot.column

/-- A declaration of a name that is declared before. -/
def Repeats (before : List Declaration) (d : Declaration) : Prop :=
  ∃ e ∈ before, e.name.text = d.name.text

instance (before : List Declaration) (d : Declaration) : Decidable (d.Repeats before) :=
  inferInstanceAs (Decidable (∃ e ∈ before, e.name.text = d.name.text))

/-- Those of some declarations that have a property, which may look at the declarations before them.
-/
def select (P : List Declaration → Declaration → Bool) (ds : List Declaration) : List Declaration :=
  ((ds.inits.zip ds).filter fun (before, d) => P before d).map Prod.snd

/-- The declarations that are the first of their name. -/
def firsts (ds : List Declaration) : List Declaration :=
  select (fun before d => !d.Repeats before) ds

/-- The declarations that repeat one before them. -/
def repeats (ds : List Declaration) : List Declaration :=
  select (fun before d => d.Repeats before) ds

/-! ## Declarations after others -/

theorem select_cons (P : List Declaration → Declaration → Bool) (d : Declaration)
    (ds : List Declaration) :
    select P (d :: ds) =
      (if P [] d then [d] else []) ++ select (fun before => P (d :: before)) ds := by
  simp only [select, List.inits_cons, List.zip_cons_cons, List.zip_map_left, List.filter_cons,
    List.filter_map, Function.comp_def, Prod.map_fst, Prod.map_snd, id_eq]
  split <;> simp

theorem select_append (P : List Declaration → Declaration → Bool) (ds es : List Declaration) :
    select P (ds ++ es) = select P ds ++ select (fun before => P (ds ++ before)) es := by
  induction ds generalizing P with
  | nil => simp [select]
  | cons d ds ih => simp [select_cons, ih]

/-- Some names are those of the declarations before a place. -/
def Covers (declared : List String) (before : List Declaration) : Prop :=
  ∀ d : Declaration, d.name.text ∈ declared ↔ d.Repeats before

variable {declared : List String} {before : List Declaration} {d : Declaration}

theorem Covers.repeated (h : Covers declared before) (hd : d.Repeats before) :
    Covers declared (before ++ [d]) := by
  intro e
  rw [h e]
  constructor
  · rintro ⟨first, hfirst, htext⟩
    exact ⟨first, List.mem_append_left _ hfirst, htext⟩
  · rintro ⟨first, hfirst, htext⟩
    rcases List.mem_append.mp hfirst with hfirst | hfirst
    · exact ⟨first, hfirst, htext⟩
    · obtain rfl := List.mem_singleton.mp hfirst
      obtain ⟨earlier, hearlier, hsame⟩ := hd
      exact ⟨earlier, hearlier, hsame.trans htext⟩

theorem Covers.first (h : Covers declared before) (d : Declaration) :
    Covers (declared ++ [d.name.text]) (before ++ [d]) := by
  intro e
  have he : e.name.text ∈ declared ↔ e.Repeats before := h e
  simp only [List.mem_append, List.mem_singleton, he, Repeats, or_and_right, exists_or,
    exists_eq_left, eq_comm (a := e.name.text)]

/-- The symbols of the names that are declared first are those of the first declarations. -/
theorem Covers.firstDeclared_eq (h : Covers declared before) (ms : List Mention) :
    firstDeclared declared ms =
      (select (fun earlier d => !d.Repeats (before ++ earlier))
        (ms.filterMap Mention.declaration?)).map
        symbol := by
  induction ms generalizing declared before with
  | nil => rfl
  | cons m ms ih =>
    cases m with
    | used n => exact ih h
    | declared ty n =>
      have hn : n.text ∈ declared ↔ Repeats before ⟨ty, n⟩ := h ⟨ty, n⟩
      have hcons : (Mention.declared ty n :: ms).filterMap Mention.declaration? =
          ⟨ty, n⟩ :: ms.filterMap Mention.declaration? := rfl
      rw [firstDeclared, hcons, select_cons]
      by_cases hrepeats : Repeats before ⟨ty, n⟩
      · rw [if_pos (hn.mpr hrepeats), ih (h.repeated hrepeats)]
        simp [hrepeats]
      · rw [if_neg (mt hn.mp hrepeats), ih (h.first ⟨ty, n⟩)]
        simp [hrepeats, symbol]

end Declaration

/-! ## Faults of declarations -/

/-- Whether a fault is a name that is declared again. -/
def Fault.isRedeclared : Fault → Bool
  | .redeclared .. => true
  | .undeclared .. | .operands .. | .assignment .. | .condition .. => false

/-- The fault of a declaration that repeats another. -/
def Declaration.fault (d : Declaration) : Fault := .redeclared d.name.text d.name.spot

/-- None of some faults is a name that is declared again. -/
def Fault.Undeclaring (fs : List Fault) : Prop := ∀ f ∈ fs, f.isRedeclared = false

section Undeclaring

open Fault

variable {fs gs : List Fault}

@[simp] theorem Fault.undeclaring_nil : Undeclaring [] := by simp [Undeclaring]

@[simp] theorem Fault.undeclaring_singleton {f : Fault} :
    Undeclaring [f] ↔ f.isRedeclared = false := by
  simp [Undeclaring]

@[simp] theorem Fault.undeclaring_append :
    Undeclaring (fs ++ gs) ↔ Undeclaring fs ∧ Undeclaring gs :=
  List.forall_mem_append

theorem Expr.undeclaring_operationFaults (op : Operator) (left right : Expr) :
    Undeclaring (operationFaults op left right) := by
  unfold operationFaults
  split
  next =>
    split
    next => simp
    next => simp [isRedeclared]
  next => simp

theorem Expr.undeclaring_faults (t : Table String Symbol) (e : Expr) :
    Undeclaring (e.faults t) := by
  induction e with
  | number | text => simp [faults]
  | use name =>
    unfold faults
    split <;> simp [isRedeclared]
  | binary op left right mark ihleft ihright =>
    simp [faults, ihleft, ihright, undeclaring_operationFaults]

theorem Name.undeclaring_assigned (t : Table String Symbol) (target : Name) (value : Expr)
    (old : Option Ty) :
    Undeclaring (target.assigned t value old).faults := by
  unfold Name.assigned
  split
  next => simp [Undeclaring, isRedeclared]
  next =>
    dsimp only
    split
    next => simp
    next => split <;> simp [isRedeclared]

end Undeclaring

mutual

/-- A statement declares nothing, so none of its faults is a name that is declared again. -/
theorem Stmt.undeclaring_walk (t : Table String Symbol) :
    ∀ s : Stmt, Fault.Undeclaring (s.walk t).faults
  | .assign target value ty => by
    simp [Stmt.walk, Expr.undeclaring_faults, Name.undeclaring_assigned]
  | .conditional condition body other => by
    unfold Stmt.walk
    dsimp only
    split
    next => simp [Expr.undeclaring_faults, Fault.isRedeclared]
    next => simp [Expr.undeclaring_faults, undeclaring_walkAll _ body,
        undeclaring_walkOther _ other]
  | .whileLoop condition body => by
    unfold Stmt.walk
    dsimp only
    split
    next => simp [Expr.undeclaring_faults, Fault.isRedeclared]
    next => simp [Expr.undeclaring_faults, undeclaring_walkAll _ body]
  | .repeatLoop count spot body => undeclaring_walkAll t.enter body
  | .print value => Expr.undeclaring_faults t value
  | .input target => by
    unfold Stmt.walk
    split <;> simp [Fault.isRedeclared]
  | .block body => undeclaring_walkAll t body

theorem Stmt.undeclaring_walkOther (t : Table String Symbol) :
    ∀ other : Option (List Stmt), Fault.Undeclaring (walkOther t other).faults
  | none => Fault.undeclaring_nil
  | some body => undeclaring_walkAll t.enter body

theorem Stmt.undeclaring_walkAll (t : Table String Symbol) :
    ∀ body : List Stmt, Fault.Undeclaring (walkAll t body).faults
  | [] => Fault.undeclaring_nil
  | s :: rest =>
    Fault.undeclaring_append.mpr ⟨undeclaring_walk t s, undeclaring_walkAll (s.walk t).table rest⟩

end

namespace Declaration.Covers

variable {declared : List String} {before : List Declaration}

/-- A declaration is a fault exactly if it repeats one before it. -/
theorem declare (h : Covers declared before) (t : Table String Symbol) (ty : Ty) (n : Name) :
    Covers (n.declare t declared ty).declared (before ++ [⟨ty, n⟩]) ∧
      (n.declare t declared ty).faults =
        if Repeats before ⟨ty, n⟩ then [fault ⟨ty, n⟩] else [] := by
  have hn : declared.contains n.text = true ↔ Repeats before ⟨ty, n⟩ := by
    rw [List.contains_iff_mem]
    exact h ⟨ty, n⟩
  unfold Name.declare
  by_cases hrepeats : Repeats before ⟨ty, n⟩
  · rw [if_pos (hn.mpr hrepeats), if_pos hrepeats]
    exact ⟨h.repeated hrepeats, rfl⟩
  · rw [if_neg (mt hn.mp hrepeats), if_neg hrepeats]
    exact ⟨h.first ⟨ty, n⟩, rfl⟩

theorem declareAll (h : Covers declared before) (t : Table String Symbol) (ty : Ty)
    (names : List Name) :
    Covers (Name.declareAll t declared ty names).declared (before ++ names.map (⟨ty, ·⟩)) ∧
      (Name.declareAll t declared ty names).faults =
        (select (fun earlier d => d.Repeats (before ++ earlier))
          (names.map (⟨ty, ·⟩))).map fault := by
  induction names generalizing t declared before with
  | nil => exact ⟨by simpa [Name.declareAll] using h, rfl⟩
  | cons n rest ih =>
    obtain ⟨hfirst, hfault⟩ := h.declare t ty n
    obtain ⟨hrest, hfaults⟩ := ih hfirst (n.declare t declared ty).table
    refine ⟨by simpa [Name.declareAll] using hrest, ?_⟩
    rw [Name.declareAll, hfault, hfaults, List.map_cons, select_cons]
    by_cases hrepeats : Repeats before ⟨ty, n⟩ <;> simp [hrepeats]

/-- An item adds its declarations to those before it, and its faults of this sort are those that
repeat. -/
theorem walk (h : Covers declared before) (t : Table String Symbol) (i : Item) :
    Covers (i.walk t declared).declared (before ++ i.mentions.filterMap Mention.declaration?) ∧
      (i.walk t declared).faults.filter Fault.isRedeclared =
        (select (fun earlier d => d.Repeats (before ++ earlier))
          (i.mentions.filterMap Mention.declaration?)).map fault := by
  cases i with
  | declaration ty listType names =>
    have hdeclared : (Item.declaration ty listType names).mentions.filterMap Mention.declaration? =
        names.map (⟨ty, ·⟩) := by
      simp [Item.mentions, Mention.declaration?, Function.comp_def]
    obtain ⟨hcovers, hfaults⟩ := h.declareAll t ty names
    rw [hdeclared]
    refine ⟨hcovers, ?_⟩
    simp only [Item.walk, hfaults]
    exact List.filter_eq_self.mpr (by simp [fault, Fault.isRedeclared])
  | statement s =>
    have hdeclared : (Item.statement s).mentions.filterMap Mention.declaration? = [] := by
      simp [Item.mentions, Mention.declaration?]
    rw [hdeclared, List.append_nil]
    exact ⟨h, List.filter_eq_nil_iff.mpr fun f hf => by simp [Stmt.undeclaring_walk t s f hf]⟩

/-- Over a whole walk, the faults of this sort are the declarations that repeat one before them. -/
theorem walkAll (h : Covers declared before) (t : Table String Symbol) (is : List Item) :
    (Item.walkAll t declared is).faults.filter Fault.isRedeclared =
      (select (fun earlier d => d.Repeats (before ++ earlier))
        ((is.flatMap Item.mentions).filterMap Mention.declaration?)).map fault := by
  induction is generalizing t declared before with
  | nil => rfl
  | cons i rest ih =>
    obtain ⟨hfirst, hfaults⟩ := h.walk t i
    rw [Item.walkAll, List.filter_append, hfaults, ih hfirst, List.flatMap_cons,
      List.filterMap_append, select_append, List.map_append]
    simp only [List.append_assoc]

end Declaration.Covers

theorem Declaration.covers_start : Covers [] [] := fun d => by simp [Repeats]

/-- The only scope of a table of declared names lists the entries of the flat index. -/
theorem Table.Lists.scopes_eq {t : Table String Symbol} {declared : List String}
    {symbols : List Symbol} (h : t.Lists declared symbols) : t.scopes = [t.all] := by
  obtain ⟨entries, scope, outer, index⟩ := t
  obtain ⟨-, rfl, rfl, rfl⟩ : entries.map Symbol.forget = symbols.toArray ∧
      scope = numbered symbols 0 ∧
      outer = [] ∧ index = numbered symbols 0 := by
    simpa [map, ofSymbols] using h.table
  rfl

namespace Program

/-- Values aside, the names of the table that a walk leaves are those of the first declarations. -/
theorem named_walk (p : Program) :
    p.walk.table.named.map (Prod.map id Symbol.forget) =
      (Declaration.firsts p.declarations).map fun d => (d.name.text, d.symbol) := by
  rw [p.lists_walk.named, Declaration.covers_start.firstDeclared_eq, List.map_map]
  rfl

/-- The reports of a walk on names that are declared again are those on the repeated declarations.
-/
theorem redeclared_walk (p : Program) :
    (p.walk.faults.map Fault.diagnostic).filter (·.kind matches .redeclared) =
      (Declaration.repeats p.declarations).map Declaration.report := by
  have hkind (f : Fault) : (f.diagnostic.kind matches .redeclared) = f.isRedeclared := by
    cases f <;> rfl
  rw [List.filter_map]
  simp only [Function.comp_def, hkind]
  rw [walk, Declaration.covers_start.walkAll, List.map_map]
  rfl

end Program

namespace Session

/-- The names of a program are the identifiers of its text, in their order. Its analysis comes to a
result, and whatever that is, the flat index and the only scope list the same entries: one for each
first declaration, with the type and the place of that declaration. The reports on names that are
declared again are those on all other declarations, in their order. -/
theorem analyse_declarations (s : Session) (code : String) (p : Program)
    (hread : (s.parse [] code).2.program = some p) :
    let after := (s.parse [] code).2.analyse.2.2
    p.mentions.map Mention.name =
        ((Scan.ofText code).tokens.filter (·.kind = .identifier)).map Token.toName ∧
      (∃ result, (s.parse [] code).2.analyse.1 = .ok result) ∧
      after.table.named.map (Prod.map id Symbol.forget) =
        (Declaration.firsts p.declarations).map (fun d => (d.name.text, d.symbol)) ∧
      after.table.scopes = [after.table.all] ∧
      after.ledger.semantic.filter (·.kind matches .redeclared) =
        (Declaration.repeats p.declarations).map Declaration.report := by
  intro after
  obtain ⟨log, hreading⟩ := reading_of_parse hread
  obtain ⟨hresult, -, hsemantic⟩ := analyse_of_parse hread
  have htable : after.table = p.walk.table := table_of_parse hread
  refine ⟨Reading.names_ofText hreading, ⟨_, hresult⟩, ?_, ?_, ?_⟩
  · rw [htable]
    exact p.named_walk
  · rw [htable]
    exact p.lists_walk.scopes_eq
  · rw [hsemantic]
    exact p.redeclared_walk

/-- A name is repeated inside one list and, with another type, after a block that assigns it. -/
theorem analyse_declarations_repeated :
    let code := "ent x , y , x ; si ( 1 < 2 ) \x7b x = \"a\" ; \x7d dec x ; cadena z ;"
    let after := (empty.parse [] code).2.analyse.2.2
    after.table.named.map (Prod.map id Symbol.forget) =
        [("x", ⟨"x", .ent, none, ⟨1, 5⟩⟩), ("y", ⟨"y", .ent, none, ⟨1, 9⟩⟩),
          ("z", ⟨"z", .cadena, none, ⟨1, 59⟩⟩)] ∧
      after.table.scopes = [after.table.all] ∧
      after.ledger.semantic.filter (·.kind matches .redeclared) =
        [⟨.redeclared, .ofText "Variable 'x' ya declarada", .ofInt 1, .ofInt 13⟩,
          ⟨.redeclared, .ofText "Variable 'x' ya declarada", .ofInt 1, .ofInt 48⟩] := by
  let name (text : String) (column : Nat) : Name := ⟨text, ⟨1, column⟩, .blank⟩
  let number (n : Nat) (column : Nat) : Expr := .number (.whole n) ⟨1, column⟩
  let p : Program := ⟨[.declaration .ent none [name "x" 5, name "y" 9, name "x" 13],
    .statement (.conditional (.operation .lt (number 1 22) (number 2 26))
      [.assign (name "x" 32) (.text "a" ⟨1, 36⟩) none] none),
    .declaration .dec none [name "x" 48], .declaration .cadena none [name "z" 59]]⟩
  have hfirsts : Declaration.firsts p.declarations =
      [⟨.ent, name "x" 5⟩, ⟨.ent, name "y" 9⟩, ⟨.cadena, name "z" 59⟩] := by decide +kernel
  have hrepeats : Declaration.repeats p.declarations =
      [⟨.ent, name "x" 13⟩, ⟨.dec, name "x" 48⟩] := by
    decide +kernel
  obtain ⟨-, -, hnamed, hscopes, hreports⟩ := analyse_declarations empty
    "ent x , y , x ; si ( 1 < 2 ) \x7b x = \"a\" ; \x7d dec x ; cadena z ;" p rfl
  rw [hfirsts] at hnamed
  rw [hrepeats] at hreports
  exact ⟨hnamed, hscopes, hreports⟩

end Session

end Analizador
