import Analizador.Proofs.Analysis.Simulation
import Analizador.Proofs.Analysis.Typing
import Analizador.Proofs.Numeral
import Analizador.Proofs.Reader.Built
import Analizador.Session

/-! # The verdict on a program

The table holds what the declarations so far say. So the walk of a program finds no fault, and what
it does not check is well typed, exactly if every name is declared once and before its uses and the
program is well typed. -/

namespace Analizador

/-! ## Names in the order of the text -/

/-- Of two lists of mentions the first gives the type, if it has one. -/
theorem typeOf?_append (ms ms' : List Mention) (name : String) :
    typeOf? (ms ++ ms') name = (typeOf? ms name).or (typeOf? ms' name) :=
  List.findSome?_append

theorem typeOf?_used (names : List Name) (name : String) :
    typeOf? (names.map .used) name = none := by
  simp [typeOf?, List.findSome?_eq_none_iff]

/-- A name has a type if it is declared somewhere among the mentions. -/
theorem isSome_typeOf?_iff {ms : List Mention} {name : String} :
    (typeOf? ms name).isSome = true ↔ ∃ ty n, .declared ty n ∈ ms ∧ n.text = name := by
  rw [typeOf?, List.findSome?_isSome_iff]
  constructor
  · rintro ⟨m, hm, hsome⟩
    cases m with
    | used n => simp at hsome
    | declared ty n => exact ⟨ty, n, hm, by simpa using hsome⟩
  · rintro ⟨ty, n, hm, rfl⟩
    exact ⟨_, hm, by simp⟩

/-- A name may stand after some others: one that is declared is new, one that is used is not. -/
def Mention.Follows (before : List Mention) : Mention → Prop
  | .declared _ n => typeOf? before n.text = none
  | .used n => (typeOf? before n.text).isSome = true

/-- Every name may stand after those before it. -/
def Scoped (before : List Mention) : List Mention → Prop
  | [] => True
  | m :: ms => m.Follows before ∧ Scoped (before ++ [m]) ms

/-- Mentions are in scope if the first are, and the others after them. -/
theorem scoped_append {before ms ms' : List Mention} :
    Scoped before (ms ++ ms') ↔ Scoped before ms ∧ Scoped (before ++ ms) ms' := by
  induction ms generalizing before with
  | nil => simp [Scoped]
  | cons m ms ih => simp [Scoped, ih, and_assoc]

/-- Mentions are in scope if each follows the ones before it. -/
theorem scoped_iff {before ms : List Mention} :
    Scoped before ms ↔ ∀ pre m post, ms = pre ++ m :: post → m.Follows (before ++ pre) := by
  constructor
  · rintro h pre m post rfl
    exact (scoped_append.mp h).2.1
  · intro h
    induction ms generalizing before with
    | nil => trivial
    | cons m ms ih =>
      refine ⟨by simpa using h [] m ms rfl, ih fun pre m' post heq => ?_⟩
      simpa using h (m :: pre) m' post (by simp [heq])

/-- Uses give no types. -/
theorem typeOf?_append_used (before : List Mention) (names : List Name) :
    typeOf? (before ++ names.map .used) = typeOf? before := by
  funext name
  rw [typeOf?_append, typeOf?_used, Option.or_none]

/-- Uses are in scope if every name has been declared. -/
theorem scoped_used {before : List Mention} {names : List Name} :
    Scoped before (names.map .used) ↔ ∀ n ∈ names, (typeOf? before n.text).isSome = true := by
  induction names generalizing before with
  | nil => simp [Scoped]
  | cons n names ih =>
    have hstep : typeOf? (before ++ [.used n]) = typeOf? before := typeOf?_append_used before [n]
    simp [Scoped, Mention.Follows, ih, hstep]

/-- A program is scoped exactly if its names are declared once and first. -/
theorem Program.scoped_iff {p : Program} :
    Scoped [] p.mentions ↔ p.DeclaresOnce ∧ p.DeclaresFirst := by
  rw [Analizador.scoped_iff]
  constructor
  · intro h
    refine ⟨fun before ty n after heq ty' m hm htext => ?_, fun before n after heq => ?_⟩
    · have hnone : typeOf? before n.text = none := h before (.declared ty n) after heq
      have hsome : (typeOf? before n.text).isSome = true :=
        isSome_typeOf?_iff.mpr ⟨ty', m, hm, htext⟩
      simp [hnone] at hsome
    · exact isSome_typeOf?_iff.mp (h before (.used n) after heq)
  · rintro ⟨honce, hfirst⟩ pre m post heq
    cases m with
    | declared ty n =>
      refine Option.not_isSome_iff_eq_none.mp fun hsome => ?_
      obtain ⟨ty', m, hm, htext⟩ := isSome_typeOf?_iff.mp hsome
      exact honce pre ty n post heq ty' m hm htext
    | used n => exact isSome_typeOf?_iff.mpr (hfirst pre n post heq)

/-! ## The table keeps track of the declarations -/

/-- A table and the declared names are those of the names before some place of a program. -/
structure Tracks (t : Table String Symbol) (declared : List String) (before : List Mention) :
    Prop where
  symbols : ∃ symbols, t.map Symbol.forget = .ofSymbols symbols ∧ declared = symbols.map Symbol.name
  types : t.typeOf? = typeOf? before

/-- The type of a name is that of the first symbol with it. -/
theorem Table.typeOf?_of_symbols {t : Table String Symbol} {symbols : List Symbol}
    (h : t.map Symbol.forget = .ofSymbols symbols) (name : String) :
    t.typeOf? name = (symbols.find? (·.name = name)).map Symbol.ty := by
  rw [← lookup_ofSymbols, ← h, lookup_map]
  simp [typeOf?, Function.comp_def, Symbol.forget]

namespace Tracks

variable {t : Table String Symbol} {declared : List String} {before : List Mention}

/-- Nothing has been declared at the start. -/
theorem start : Tracks .empty [] [] :=
  ⟨⟨[], by simp [Table.map, Table.empty, Table.ofSymbols, Table.numbered], rfl⟩, rfl⟩

/-- The declared names are those that have a type. -/
theorem mem_declared_iff (h : Tracks t declared before) {name : String} :
    name ∈ declared ↔ (typeOf? before name).isSome = true := by
  obtain ⟨symbols, hsymbols, rfl⟩ := h.symbols
  rw [← h.types, Table.typeOf?_of_symbols hsymbols]
  simp

/-- A statement declares nothing. -/
theorem stmt (h : Tracks t declared before) (s : Stmt) :
    Tracks (s.walk t).table declared (before ++ s.uses.map .used) := by
  obtain ⟨symbols, hsymbols, hdeclared⟩ := h.symbols
  refine ⟨⟨symbols, (Stmt.forget_walk t s).trans hsymbols, hdeclared⟩, ?_⟩
  rw [Table.typeOf?_congr (Stmt.forget_walk t s), typeOf?_append_used, h.types]

theorem typeOf?_snoc (before : List Mention) (ty : Ty) (n : Name) (name : String) :
    typeOf? (before ++ [.declared ty n]) name =
      (typeOf? before name).or (if n.text = name then some ty else none) := by
  rw [typeOf?_append]
  congr 1
  simp only [typeOf?, List.findSome?_cons, List.findSome?_nil]
  split <;> simp_all

/-- A name that is declared again is known before. -/
theorem redeclare (h : Tracks t declared before) {n : Name} (hn : n.text ∈ declared) (ty : Ty) :
    Tracks t declared (before ++ [.declared ty n]) := by
  refine ⟨h.symbols, funext fun name => ?_⟩
  obtain ⟨ty', hty'⟩ := Option.isSome_iff_exists.mp (h.mem_declared_iff.mp hn)
  rw [typeOf?_snoc, ← h.types]
  split
  next hname =>
    rw [h.types, ← hname, hty']
    rfl
  next => exact Option.or_none.symm

/-- A new name gets a symbol of its own. -/
theorem enrol (h : Tracks t declared before) {n : Name} (hn : n.text ∉ declared) (ty : Ty) :
    Tracks ((t.insert? n.text ⟨n.text, ty, none, n.spot⟩).getD t) (declared ++ [n.text])
      (before ++ [.declared ty n]) := by
  obtain ⟨symbols, hsymbols, rfl⟩ := h.symbols
  let symbol : Symbol := ⟨n.text, ty, none, n.spot⟩
  obtain ⟨t', ht', hforget⟩ := Table.exists_insert?_of_forget (s := symbol) hsymbols hn
  rw [ht', Option.getD_some]
  refine ⟨⟨symbols ++ [symbol], hforget, by simp [symbol]⟩, funext fun name => ?_⟩
  rw [typeOf?_snoc, ← h.types, Table.typeOf?_of_symbols hforget, Table.typeOf?_of_symbols hsymbols,
    List.find?_append]
  cases symbols.find? (·.name = name) with
  | none => by_cases hname : n.text = name <;> simp [symbol, Symbol.forget, hname]
  | some s => simp

/-- A name that is declared is entered unless it is known, which is a fault. -/
theorem declare (h : Tracks t declared before) (ty : Ty) (n : Name) :
    Tracks (n.declare t declared ty).table (n.declare t declared ty).declared
        (before ++ [.declared ty n]) ∧
      ((n.declare t declared ty).faults = [] ↔ typeOf? before n.text = none) := by
  unfold Name.declare
  split
  next hdeclared =>
    have hn : n.text ∈ declared := by simpa using hdeclared
    have hknown := h.mem_declared_iff.mp hn
    refine ⟨h.redeclare hn ty, ?_⟩
    simp [Option.isSome_iff_ne_none.mp hknown]
  next hdeclared =>
    have hn : n.text ∉ declared := by simpa using hdeclared
    have hunknown := mt h.mem_declared_iff.mpr hn
    exact ⟨h.enrol hn ty, by simpa using hunknown⟩

/-- The names of a declaration are tracked, and there is no fault exactly if they are in scope. -/
theorem declareAll (h : Tracks t declared before) (ty : Ty) (names : List Name) :
    Tracks (Name.declareAll t declared ty names).table
      (Name.declareAll t declared ty names).declared
        (before ++ names.map (.declared ty)) ∧
      ((Name.declareAll t declared ty names).faults = [] ↔
        Scoped before (names.map (.declared ty))) := by
  induction names generalizing t declared before with
  | nil => exact ⟨by simpa [Name.declareAll] using h, by simp [Name.declareAll, Scoped]⟩
  | cons n rest ih =>
    obtain ⟨hfirst, hfaults⟩ := h.declare ty n
    obtain ⟨hrest, hothers⟩ := ih hfirst
    refine ⟨by simpa [Name.declareAll] using hrest, ?_⟩
    simp [Name.declareAll, Scoped, Mention.Follows, hfaults, hothers]

/-- A tracked table agrees with every context that has the declared types. -/
theorem within (h : Tracks t declared before) {Γ : String → Option Ty}
    (hΓ : ∀ name ty, typeOf? before name = some ty → Γ name = some ty) : t.Within Γ := by
  intro name ty hty
  rw [h.types] at hty
  exact hΓ name ty hty

/-- After an item the table keeps track of its names too, and the item is walked without fault, with
what is not checked in it well typed, exactly if its names are scoped and it is well typed. -/
theorem item (h : Tracks t declared before) {Γ : String → Option Ty}
    (hΓ : ∀ name ty, typeOf? before name = some ty → Γ name = some ty) {i : Item}
    (hi : i.Every Expr.Fresh) :
    Tracks (i.walk t declared).table (i.walk t declared).declared (before ++ i.mentions) ∧
      ((i.walk t declared).faults = [] ∧ (i.walk t declared).part.SkippedTyped Γ ↔
        Scoped before i.mentions ∧ i.WellTyped Γ) := by
  cases i with
  | declaration ty listType names =>
    obtain ⟨htracks, hfaults⟩ := h.declareAll ty names
    refine ⟨htracks, ?_⟩
    simp [Item.walk, Item.SkippedTyped, Item.WellTyped, Item.mentions, hfaults]
  | statement s =>
    refine ⟨h.stmt s, ?_⟩
    have hstmt := Stmt.faultless_iff (h.within hΓ) s hi
    simp only [Table.Knows, h.types] at hstmt
    simpa [Item.walk, Item.SkippedTyped, Item.WellTyped, Item.mentions, scoped_used] using hstmt

/-- The walk of items is without fault, with what is not checked well typed, exactly if the names
are scoped and the items well typed. -/
theorem items (h : Tracks t declared before) {Γ : String → Option Ty} {is : List Item}
    (hΓ : ∀ name ty, typeOf? (before ++ is.flatMap Item.mentions) name = some ty → Γ name = some ty)
    (his : ∀ i ∈ is, i.Every Expr.Fresh) :
    (Item.walkAll t declared is).faults = [] ∧
        (∀ i ∈ (Item.walkAll t declared is).part, i.SkippedTyped Γ) ↔
      Scoped before (is.flatMap Item.mentions) ∧ ∀ i ∈ is, i.WellTyped Γ := by
  -- `Tracks` is carried from item to item, while `Γ` stays the context of the whole program.
  induction is generalizing t declared before with
  | nil => simp [Item.walkAll, Scoped]
  | cons i rest ih =>
    obtain ⟨hi, hrest⟩ := List.forall_mem_cons.mp his
    have hbefore (name : String) (ty : Ty) (hty : typeOf? before name = some ty) :
        Γ name = some ty := hΓ name ty (by rw [typeOf?_append, hty]; rfl)
    obtain ⟨htracks, hfirst⟩ := h.item hbefore hi
    have hothers := ih htracks (by simpa using hΓ) hrest
    simp only [Item.walkAll, List.append_eq_nil_iff, List.forall_mem_cons, List.flatMap_cons,
      scoped_append]
    rw [and_and_and_comm, hfirst, hothers, and_and_and_comm]

/-- The names of items that are walked without fault are scoped. -/
theorem scoped_of_faultless (h : Tracks t declared before) {is : List Item}
    (hfaults : (Item.walkAll t declared is).faults = []) :
    Scoped before (is.flatMap Item.mentions) := by
  induction is generalizing t declared before with
  | nil => trivial
  | cons i rest ih =>
    obtain ⟨hfirst, hrest⟩ := List.append_eq_nil_iff.mp hfaults
    rw [List.flatMap_cons, scoped_append]
    cases i with
    | declaration ty listType names =>
      obtain ⟨htracks, hnames⟩ := h.declareAll ty names
      exact ⟨hnames.mp hfirst, ih htracks hrest⟩
    | statement s =>
      have hknows := Stmt.knows_of_walk s hfirst
      rw [Table.Knows, h.types] at hknows
      exact ⟨scoped_used.mpr hknows, ih (h.stmt s) hrest⟩

end Tracks

/-! ## Programs that are read -/

/-- A whole number with few enough digits can be shown. -/
theorem Constant.shows_integer {n : Int} (h : n.natAbs < Nat.pow 10 Numeral.digitLimit) :
    (integer n).Shows := by
  refine ⟨toString n, ?_⟩
  rw [render, integerText, if_neg (Nat.not_le.mpr h)]

/-- The expression of a token can be shown. -/
theorem Token.shows_toExpr {t : Token} {e : Expr} (h : t.toExpr = .ok e) : e.Shows := by
  rcases Token.toExpr_cases h with ⟨n, hn, rfl⟩ | ⟨d, rfl⟩ | ⟨s, rfl⟩ | rfl
  · exact Constant.shows_integer (Numeral.natAbs_lt_of_readInteger hn)
  · exact ⟨d.toText, rfl⟩
  · trivial
  · exact fun _ hc => by cases hc

theorem Token.fresh_toExpr {t : Token} {e : Expr} (h : t.toExpr = .ok e) : e.Fresh := by
  rcases Token.toExpr_cases h with ⟨n, -, rfl⟩ | ⟨d, rfl⟩ | ⟨s, rfl⟩ | rfl <;> trivial

namespace Expr.Built

variable {T : Token → Prop} {e : Expr}

/-- An expression that was built can be shown. -/
theorem shows (h : e.Built T) : e.Shows := by
  induction h with
  | leaf _ _ he => exact Token.shows_toExpr he
  | operation _ _ _ hleft hright => exact ⟨hleft, hright, fun _ hc => by cases hc⟩

/-- An expression that was built has no marks. -/
theorem fresh (h : e.Built T) : e.Fresh := by
  induction h with
  | leaf _ _ he => exact Token.fresh_toExpr he
  | operation _ _ _ hleft hright => exact ⟨hleft, hright, rfl⟩

end Expr.Built

/-- The analysis of a program that is read ends, and its outcome is that of the walk. -/
theorem Reading.analyse_eq {code : String} {p : Program} {log : List String}
    (h : Reading.ofText code = .program p log) :
    ∃ lines, p.analyse = (.ok (⟨p.walk.part⟩, p.walk.faults.isEmpty),
      ⟨p.walk.table, p.walk.faults, p.walk.declared, lines⟩) :=
  Program.analyse_eq fun i hi => (Reading.built_ofText h i hi).every.mono fun _ => Expr.Built.shows

/-- A program that is read is walked without fault, with what is not checked well typed, exactly if
its names are declared once and first and it is well typed. -/
theorem Reading.faultless_iff {code : String} {p : Program} {log : List String}
    (h : Reading.ofText code = .program p log) :
    p.walk.faults = [] ∧ Program.SkippedTyped p.context ⟨p.walk.part⟩ ↔
      (p.DeclaresOnce ∧ p.DeclaresFirst) ∧ p.WellTyped := by
  rw [← Program.scoped_iff]
  exact Tracks.start.items (fun _ _ hty => hty) fun i hi =>
    (Reading.built_ofText h i hi).every.mono fun _ => Expr.Built.fresh

namespace Session

/-- The program that a session holds after parsing was read from the text. -/
theorem reading_of_parse {s : Session} {code : String} {p : Program}
    (h : (s.parse [] code).2.program = some p) : ∃ log, Reading.ofText code = .program p log := by
  cases hreading : Reading.ofText code with
  | program q log =>
    obtain rfl : q = p := by simpa [parse, Parsing.ofText, hreading] using h
    exact ⟨log, rfl⟩
  | fault f => simp [parse, Parsing.ofText, hreading] at h
  | aborted f => simp [parse, Parsing.ofText, hreading] at h

/-- A text that reads as a program is parsed, and the session holds the program. -/
theorem parse_of_reading (s : Session) {code : String} {p : Program} {log : List String}
    (h : Reading.ofText code = .program p log) :
    (s.parse [] code).1 = .ok true ∧ (s.parse [] code).2.program = some p := by
  simp [parse, Parsing.ofText, h]

/-- The analysis of a parsed program gives what the reference walk gives. -/
theorem analyse_of_parse {s : Session} {code : String} {p : Program}
    (h : (s.parse [] code).2.program = some p) :
    (s.parse [] code).2.analyse.1 = .ok p.walk.faults.isEmpty ∧
      (s.parse [] code).2.analyse.2.2.program = some ⟨p.walk.part⟩ ∧
      (s.parse [] code).2.analyse.2.2.ledger.semantic = p.walk.faults.map Fault.diagnostic := by
  obtain ⟨log, hreading⟩ := reading_of_parse h
  obtain ⟨lines, hanalyse⟩ := Reading.analyse_eq hreading
  simp [analyse, h, hanalyse]

/-- After the analysis the session holds the table of the reference walk. -/
theorem table_of_parse {s : Session} {code : String} {p : Program}
    (h : (s.parse [] code).2.program = some p) :
    (s.parse [] code).2.analyse.2.2.table = p.walk.table := by
  obtain ⟨log, hreading⟩ := reading_of_parse h
  obtain ⟨lines, hanalyse⟩ := Reading.analyse_eq hreading
  simp [analyse, h, hanalyse]

/-- A program whose names are declared once and first and that is well typed is analysed without
fault. -/
theorem analyse_of_wellTyped (s : Session) (code : String) (p : Program)
    (hread : (s.parse [] code).2.program = some p) (honce : p.DeclaresOnce)
    (hfirst : p.DeclaresFirst) (htyped : p.WellTyped) :
    (s.parse [] code).2.analyse.1 = .ok true ∧
      (s.parse [] code).2.analyse.2.2.ledger.semantic = [] := by
  obtain ⟨log, hreading⟩ := reading_of_parse hread
  obtain ⟨hresult, -, hsemantic⟩ := analyse_of_parse hread
  obtain ⟨hfaults, -⟩ := (Reading.faultless_iff hreading).mpr ⟨⟨honce, hfirst⟩, htyped⟩
  exact ⟨by simp [hresult, hfaults], by simp [hsemantic, hfaults]⟩

/-- A division by zero, a comparison of a variable without value and an integer for a decimal are no
faults. -/
theorem analyse_guarded_quotient :
    let code := "ent x , y ; dec d ; x = 7 / 0 ; si ( x > y ) \x7b d = x ; \x7d"
    (empty.parse [] code).2.analyse.1 = .ok true ∧
      (empty.parse [] code).2.analyse.2.2.ledger.semantic = [] := by
  let name (text : String) (column : Nat) : Name := ⟨text, ⟨1, column⟩, .blank⟩
  let number (n : Nat) (column : Nat) : Expr := .number (.whole n) ⟨1, column⟩
  let quotient := Expr.operation .div (number 7 25) (number 0 29)
  let comparison := Expr.operation .gt (.use (name "x" 38)) (.use (name "y" 42))
  let p : Program := ⟨[.declaration .ent none [name "x" 5, name "y" 9],
    .declaration .dec none [name "d" 17], .statement (.assign (name "x" 21) quotient none),
    .statement (.conditional comparison [.assign (name "d" 48) (.use (name "x" 52)) none] none)]⟩
  have hscoped : p.DeclaresOnce ∧ p.DeclaresFirst :=
    Program.scoped_iff.mp ⟨rfl, rfl, rfl, rfl, rfl, rfl, rfl, rfl, trivial⟩
  have hquotient : quotient.HasType p.context .ent := .binary .number .number rfl
  have hcomparison : comparison.HasType p.context .bool := .binary (.use rfl) (.use rfl) rfl
  have htyped : p.WellTyped := by
    simp only [Program.WellTyped, p, List.forall_mem_cons]
    refine ⟨trivial, trivial, ⟨.ent, .ent, rfl, hquotient, rfl⟩,
      ⟨hcomparison, ⟨?_, trivial⟩, trivial⟩, by simp⟩
    exact ⟨.dec, .ent, rfl, .use rfl, rfl⟩
  exact analyse_of_wellTyped empty _ p rfl hscoped.1 hscoped.2 htyped

/-- A program that is analysed without fault is well typed exactly if what was not checked in it is.
-/
theorem wellTyped_iff_of_analyse (s : Session) (code : String) (p : Program)
    (hread : (s.parse [] code).2.program = some p)
    (hresult : (s.parse [] code).2.analyse.1 = .ok true) :
    ∃ q, (s.parse [] code).2.analyse.2.2.program = some q ∧
      (p.WellTyped ↔ q.SkippedTyped p.context) := by
  obtain ⟨log, hreading⟩ := reading_of_parse hread
  obtain ⟨hresult', hwalked, -⟩ := analyse_of_parse hread
  have hfaults : p.walk.faults = [] := by
    rw [hresult'] at hresult
    simpa using hresult
  have hscoped : p.DeclaresOnce ∧ p.DeclaresFirst :=
    Program.scoped_iff.mp (Tracks.start.scoped_of_faultless hfaults)
  have hiff := Reading.faultless_iff hreading
  exact ⟨_, hwalked, fun htyped => (hiff.mpr ⟨hscoped, htyped⟩).2,
    fun hskipped => (hiff.mp ⟨hfaults, hskipped⟩).2⟩

/-- The comparison is checked and the sum is not, since one of its operands has no value. -/
theorem wellTyped_iff_unvalued_sum :
    let code := "ent x , y ; x = 2 ; sout ( x < 3 ) ; sout ( x + y ) ;"
    ∃ p q, (empty.parse [] code).2.program = some p ∧
      (empty.parse [] code).2.analyse.1 = .ok true ∧
      (empty.parse [] code).2.analyse.2.2.program = some q ∧
      (p.WellTyped ↔ q.SkippedTyped p.context) := by
  let x (column : Nat) : Name := ⟨"x", ⟨1, column⟩, .blank⟩
  let y (column : Nat) : Name := ⟨"y", ⟨1, column⟩, .blank⟩
  let number (n : Nat) (column : Nat) : Expr := .number (.whole n) ⟨1, column⟩
  let p : Program :=
    ⟨[.declaration .ent none [x 5, y 9], .statement (.assign (x 13) (number 2 17) none),
    .statement (.print (.operation .lt (.use (x 28)) (number 3 32))),
    .statement (.print (.operation .add (.use (x 45)) (.use (y 49))))]⟩
  have hread : (empty.parse [] "ent x , y ; x = 2 ; sout ( x < 3 ) ; sout ( x + y ) ;").2.program =
      some p :=
    rfl
  have hfaults : p.walk.faults.isEmpty = true := by decide +kernel
  have hresult := (analyse_of_parse hread).1
  rw [hfaults] at hresult
  obtain ⟨q, hwalked, hiff⟩ := wellTyped_iff_of_analyse empty _ p hread hresult
  exact ⟨p, q, hread, hresult, hwalked, hiff⟩

/-- The sum of an integer and a text has no type, but as long as neither variable has a value it is
no fault. -/
theorem analyse_unvalued_sum :
    let code := "ent x ; cadena s ; sout ( x + s ) ;"
    (empty.parse [] code).2.analyse.1 = .ok true ∧
      ∀ p, (empty.parse [] code).2.program = some p → ¬ p.WellTyped := by
  let name (text : String) (column : Nat) : Name := ⟨text, ⟨1, column⟩, .blank⟩
  let sum : Expr := .operation .add (.use (name "x" 27)) (.use (name "s" 31))
  let p : Program := ⟨[.declaration .ent none [name "x" 5], .declaration .cadena none [name "s" 16],
    .statement (.print sum)]⟩
  have hread : (empty.parse [] "ent x ; cadena s ; sout ( x + s ) ;").2.program = some p := rfl
  have hfaults : p.walk.faults.isEmpty = true := by decide +kernel
  have hresult := (analyse_of_parse hread).1
  rw [hfaults] at hresult
  refine ⟨hresult, fun q hq htyped => ?_⟩
  obtain rfl : p = q := Option.some.inj (hread.symm.trans hq)
  have hprint : (Item.statement (.print sum)).WellTyped p.context := htyped _ (by simp [p])
  obtain ⟨ty, hsum : (Expr.binary .add (.use (name "x" 27)) (.use (name "s" 31)) .blank).HasType _
      ty⟩ := hprint
  cases hsum with
  | binary hleft hright hop =>
    have hx : (Expr.use (name "x" 27)).HasType p.context .ent := .use rfl
    have hs : (Expr.use (name "s" 31)).HasType p.context .cadena := .use rfl
    obtain rfl := hx.unique hleft
    obtain rfl := hs.unique hright
    cases hop

end Session

end Analizador
