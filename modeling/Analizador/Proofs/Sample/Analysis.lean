import Analizador.Proofs.Analysis.Flattening
import Analizador.Proofs.Sample

/-! # Analysing sample programs

A plain unit declares five variables that no unit before it has declared, and has no faults. A
faulty unit declares one and has seven. So the analysis of a sample program finds as many faults and
symbols as its units have together. -/

namespace Analizador

/-! ## Symbols of a table -/

namespace Table

theorem all_eq_named {κ σ : Type} (t : Table κ σ) : t.all = t.named.map Prod.snd := by
  simp [all, entriesOf, named, List.map_filterMap, Function.comp_def]

variable {t : Table String Symbol} {declared : List String} {symbols : List Symbol}

/-- A table has one symbol for each declared name. -/
theorem Lists.length_all (h : t.Lists declared symbols) : t.all.length = declared.length := by
  have hnamed := congrArg List.length h.named
  rw [List.length_map, List.length_map] at hnamed
  rw [all_eq_named, List.length_map, hnamed, h.names, List.length_map]

/-- The type of a name that is new among the symbols added last. -/
theorem Lists.typeOf?_append {added : List Symbol} (h : t.Lists declared (symbols ++ added))
    {name : String} (hname : name ∉ symbols.map Symbol.name) :
    t.typeOf? name = (added.find? (·.name = name)).map Symbol.ty := by
  have hold : symbols.find? (·.name = name) = none := by
    rw [List.find?_eq_none]
    simpa using hname
  rw [typeOf?_of_symbols h.table, List.find?_append, hold, Option.none_or]

end Table

/-- The analysis of a program that was read leaves the faults of its walk as the reports on meaning.
-/
theorem Session.ledger_of_parse {s : Session} {code : String} {p : Program}
    (h : (s.parse [] code).2.program = some p) :
    (s.parse [] code).2.analyse.2.2.ledger =
      { s.ledger with syntactic := [], semantic := p.walk.faults.map Fault.diagnostic } := by
  obtain ⟨log, hreading⟩ := reading_of_parse h
  obtain ⟨lines, hanalyse⟩ := Reading.analyse_eq hreading
  simp [analyse, hanalyse, parse, Parsing.ofText, hreading]

namespace Sample

variable {t : Table String Symbol} {declared : List String} {symbols : List Symbol}

/-! ## Plain units -/

/-- The variables that a plain unit declares. -/
def plainStems : List Stem := [.a, .b, .c, .d, .s]

/-- The type of a variable of a plain unit. -/
def Stem.ty : Stem → Ty
  | d => .dec
  | s => .cadena
  | _ => .ent

/-- The types that a plain unit needs its variables to have. -/
def Typed (t : Table String Symbol) (i : Nat) : Prop :=
  ∀ v ∈ plainStems, t.typeOf? (v.name i) = some v.ty

/-- The declarations of a plain unit declare its variables, if they are new. -/
theorem walk_plainDeclarations (h : t.Lists declared symbols) {i : Nat}
    (hnew : ∀ v ∈ plainStems, v.name i ∉ declared) :
    let w := Item.walkAll t declared (plainDeclarations i)
    w.faults = [] ∧ w.declared = declared ++ plainStems.map (·.name i) ∧ Typed w.table i := by
  intro w
  have hall := hnew
  simp only [plainStems, List.forall_mem_cons] at hall
  obtain ⟨ha, hb, hc, hd, hs, -⟩ := hall
  refine ⟨?_, ?_, fun v hv => ?_⟩
  · simp [w, plainDeclarations, Item.walkAll, Item.walk, Name.declareAll, Name.declare, Stem.toName,
      Stem.name_inj, ha, hb, hc, hd, hs]
  · simp [w, plainDeclarations, Item.walkAll, Item.walk, Name.declareAll, Name.declare, Stem.toName,
      plainStems, Stem.name_inj, ha, hb, hc, hd, hs]
  · have hlists : w.table.Lists w.declared (symbols ++ _) := h.walkAll (plainDeclarations i)
    have hsymbols : firstDeclared declared ((plainDeclarations i).flatMap Item.mentions) =
        plainStems.map fun v => ⟨v.name i, v.ty, none, .start⟩ := by
      simp [plainDeclarations, Item.mentions, firstDeclared, Stem.toName, plainStems, Stem.ty,
        Stem.name_inj, ha, hb, hc, hd, hs]
    have hold : v.name i ∉ symbols.map Symbol.name := h.names ▸ hnew v hv
    rw [hlists.typeOf?_append hold, hsymbols]
    simp only [plainStems, List.mem_cons, List.not_mem_nil, or_false] at hv ⊢
    rcases hv with rfl | rfl | rfl | rfl | rfl <;> simp [Stem.name_inj]

/-- The statements of a plain unit are well typed, if its variables have their types. -/
theorem wellTyped_plainStmts {Γ : String → Option Ty} {i : Nat}
    (h : ∀ v ∈ plainStems, Γ (v.name i) = some v.ty) : Stmt.AllWellTyped Γ (plainStmts i) := by
  simp only [plainStems, List.forall_mem_cons] at h
  obtain ⟨ha, hb, hc, hd, hs, -⟩ := h
  have huse : (Expr.use (Stem.a.toName i)).HasType Γ .ent ∧
      (Expr.use (Stem.b.toName i)).HasType Γ .ent := ⟨.use ha, .use hb⟩
  have hwhole (n : Int) : (Expr.number (.whole n) .start).HasType Γ .ent := .number
  have hreal {d : Double} (hdec : (Constant.Number.real d).literalType = .dec) :
      (Expr.number (.real d) .start).HasType Γ .dec := hdec ▸ .number
  have hhalf := hreal (d := .ofRatio false 5 2) (by decide +kernel)
  have hone := hreal (d := .ofRatio false 1 1) (by decide +kernel)
  have hcalculates {op : Operator} (hop : op.resultType? .ent .ent = some .ent) :
      (Stem.c.toName i).Admits Γ (.operation op (.use (Stem.a.toName i))
        (.use (Stem.b.toName i))) :=
    ⟨.ent, .ent, hc, .binary huse.1 huse.2 hop, rfl⟩
  have hcompares {op : Operator} (hop : op.resultType? .ent .ent = some .bool) :
      (Expr.operation op (.use (Stem.a.toName i)) (.use (Stem.b.toName i))).HasType Γ .bool :=
    .binary huse.1 huse.2 hop
  have hsets (n : Int) : (Stem.c.toName i).Admits Γ (.number (.whole n) .start) :=
    ⟨.ent, .ent, hc, hwhole n, rfl⟩
  exact ⟨⟨.ent, .ent, ha, hwhole 5, rfl⟩, ⟨.ent, .ent, hb, hwhole 3, rfl⟩,
    ⟨.dec, .dec, hd, hhalf, rfl⟩, ⟨.cadena, .cadena, hs, .text, rfl⟩, hcalculates rfl,
    hcalculates rfl, hcalculates rfl, hcalculates rfl, ⟨.dec, .dec, hd, .binary (.use hd) hone rfl,
    rfl⟩, ⟨.ent, .use hc⟩, ⟨.cadena, .text⟩, trivial, ⟨hcompares rfl, ⟨⟨.ent, huse.1⟩, trivial⟩,
    ⟨.ent, huse.2⟩, trivial⟩, ⟨hcompares rfl, ⟨hsets 1, trivial⟩, trivial⟩,
    ⟨hcompares rfl, ⟨hsets 2, trivial⟩, trivial⟩, ⟨hcompares rfl, ⟨hsets 3, trivial⟩, trivial⟩,
    ⟨hcompares rfl, ⟨hsets 4, trivial⟩, trivial⟩,
    ⟨hcompares rfl, ⟨.ent, .ent, ha, .binary huse.1 (hwhole 1) rfl, rfl⟩, trivial⟩,
    ⟨hwhole 3, ⟨.cadena, .use hs⟩, trivial⟩, trivial⟩

/-- The statements of a plain unit have no faults, if its variables have their types. -/
theorem walk_plainStmts {i : Nat} (h : Typed t i) :
    (Stmt.walkAll t (plainStmts i)).faults = [] := by
  have hfresh : Stmt.EveryAll Expr.Fresh (plainStmts i) := by
    simp [plainStmts, Stmt.EveryAll, Stmt.Every, Stmt.EveryOther, Expr.Fresh, Expr.operation]
  have hknows : t.Knows (Stmt.usesAll (plainStmts i)) := by
    have hall := h
    simp only [Typed, plainStems, List.forall_mem_cons] at hall
    obtain ⟨ha, hb, hc, hd, hs, -⟩ := hall
    simp [plainStmts, Table.Knows, Stmt.usesAll, Stmt.uses, Stmt.usesOther, Expr.uses,
      Expr.operation, Stem.toName, ha, hb, hc, hd, hs]
  exact ((Stmt.allFaultless_iff (fun _ _ hty => hty) _ hfresh).mpr
    ⟨hknows, wellTyped_plainStmts h⟩).1

/-- A plain unit has no faults and declares its variables, if they are new. -/
theorem walk_plain (h : t.Lists declared symbols) {i : Nat}
    (hnew : ∀ v ∈ plainStems, v.name i ∉ declared) :
    let w := Item.walkAll t declared (plainItems i)
    w.faults = [] ∧ w.declared = declared ++ plainStems.map (·.name i) := by
  obtain ⟨hfaults, hdeclared, htyped⟩ := walk_plainDeclarations h hnew
  simp only [plainItems, Item.walkAll_append, Item.walkAll_statements]
  exact ⟨by rw [hfaults, walk_plainStmts htyped]; rfl, hdeclared⟩

/-! ## Faulty units -/

/-- A statement is walked with the given faults and leaves the table as it is. -/
def Refused (t : Table String Symbol) (s : Stmt) (faults : List Fault) : Prop :=
  (s.walk t).table = t ∧ (s.walk t).faults = faults

theorem faults_of_refused {body : List Stmt} {faults : List (List Fault)}
    (h : List.Forall₂ (Refused t) body faults) : (Stmt.walkAll t body).faults = faults.flatten := by
  induction h with
  | nil => rfl
  | cons hfirst _ ih => rw [Stmt.walkAll, hfirst.1, hfirst.2, ih, List.flatten_cons]

/-- The faults of the statements of a faulty unit. An assignment to a variable that is not declared
is reported twice. -/
def stmtFaults (j : Nat) : List (List Fault) :=
  [[.assignment .ent .cadena], [.undeclared (Stem.nf.name j) .start,
    .undeclared (Stem.nf.name j) .start], [.condition .si .ent (some .start)],
    [.condition .mientras .ent (some .start)], [.undeclared (Stem.zz.name j) .start]]

/-- The statements of a faulty unit are refused, if its variable is an integer and the two that it
does not declare are not declared. -/
theorem refused_faultyStmts {j : Nat} (he : t.typeOf? (Stem.e.name j) = some .ent)
    (hnf : t.typeOf? (Stem.nf.name j) = none) (hzz : t.typeOf? (Stem.zz.name j) = none) :
    List.Forall₂ (Refused t) (faultyStmts j) (stmtFaults j) := by
  obtain ⟨symbol, hsymbol, hent⟩ := Option.map_eq_some_iff.mp he
  rw [Table.typeOf?, Option.map_eq_none_iff] at hnf hzz
  have hfaults : (Expr.use (Stem.e.toName j)).faults t = [] := by
    simp [Expr.faults, Stem.toName, hsymbol]
  have hmarked : (Expr.use (Stem.e.toName j)).marked t =
      .use ⟨Stem.e.name j, .start, ⟨some .ent, symbol.value⟩⟩ := by
        simp [Expr.marked, Stem.toName, hsymbol, hent]
  refine .cons ?_ (.cons ?_ (.cons ?_ (.cons ?_ (.cons ?_ .nil))))
  · simp [Refused, Stmt.walk, Name.assigned, Expr.marked, Expr.faults, Expr.ty, Stem.toName,
      hsymbol, hent, Ty.accepts]
  · simp [Refused, Stmt.walk, Name.assigned, Expr.faults, Stem.toName, hnf]
  · simp [Refused, Stmt.walk, hmarked, hfaults, Expr.mistyped?, Expr.ty, Expr.spot?]
  · simp [Refused, Stmt.walk, hmarked, hfaults, Expr.mistyped?, Expr.ty, Expr.spot?]
  · simp [Refused, Stmt.walk, Stem.toName, hzz]

/-- A faulty unit has seven faults and declares one variable, if it and the two that it does not
declare are new. -/
theorem walk_faulty (h : t.Lists declared symbols) {j : Nat}
    (hnew : ∀ v ∈ [Stem.e, .nf, .zz], v.name j ∉ declared) :
    let w := Item.walkAll t declared (faultyItems j)
    w.faults.length = 7 ∧ w.declared = declared ++ [Stem.e.name j] := by
  let symbol : Symbol := ⟨Stem.e.name j, .ent, none, .start⟩
  have he : Stem.e.name j ∉ declared := hnew .e (by simp)
  obtain ⟨part, t', hfirst⟩ : ∃ part t',
      (Stem.e.toName j).declare t declared .ent = ⟨⟨part, t', []⟩, declared ++ [Stem.e.name j]⟩ :=
    ⟨_, _, if_neg (by simpa [Stem.toName] using he)⟩
  have hagain : (Stem.e.toName j).declare t' (declared ++ [Stem.e.name j]) .ent =
      ⟨⟨Stem.e.toName j, t', [.redeclared (Stem.e.name j) .start]⟩, declared ++ [Stem.e.name j]⟩ :=
    if_pos (by simp [Stem.toName])
  have hlists : t'.Lists (declared ++ [Stem.e.name j]) (symbols ++ [symbol]) := by
    have hdeclare := h.declare .ent (Stem.e.toName j)
    rw [hfirst] at hdeclare
    simpa [firstDeclared, Stem.toName, he] using hdeclare
  have htype (v : Stem) (hv : v.name j ∉ declared) : t'.typeOf? (v.name j) = if v =
      .e then some .ent else none := by
    rw [hlists.typeOf?_append (h.names ▸ hv)]
    by_cases heq : v = .e
    · simp [symbol, heq]
    · simp [symbol, Stem.name_inj, heq, Ne.symm heq]
  have hrefused := refused_faultyStmts (htype .e he) (htype .nf (hnew .nf (by simp)))
    (htype .zz (hnew .zz (by simp)))
  simp only [faultyItems, Item.walkAll, Item.walk, Name.declareAll, Item.walkAll_statements, hfirst,
    hagain, faults_of_refused hrefused, and_true]
  rfl

/-! ## All units -/

/-- The names that some plain units and then some faulty ones declare. -/
def declaredNames (n m : Nat) : List String :=
  (List.range n).flatMap (fun i => plainStems.map (·.name i)) ++ (List.range m).map Stem.e.name

theorem mem_declaredNames {v : Stem} {i n m : Nat} :
    v.name i ∈ declaredNames n m ↔ i < n ∧ v ∈ plainStems ∨ i < m ∧ .e = v := by
  simp [declaredNames, Stem.name_inj]

theorem length_declaredNames (n m : Nat) : (declaredNames n m).length = 5 * n + m := by
  simp [declaredNames, plainStems, Nat.mul_comm]

/-- The walk of plain units: each finds its variables new, and adds them. -/
theorem walk_plainUnits (n : Nat) :
    let w := Item.walkAll .empty [] (items n 0)
    w.faults = [] ∧ w.declared = declaredNames n 0 := by
  induction n with
  | zero => exact ⟨rfl, rfl⟩
  | succ n ih =>
    obtain ⟨hfaults, hdeclared⟩ := ih
    have hnew : ∀ v ∈ plainStems, v.name n ∉ (Item.walkAll .empty [] (items n 0)).declared := by
      simp [hdeclared, mem_declaredNames]
    obtain ⟨hunit, hadded⟩ := walk_plain (Table.Lists.start.walkAll (items n 0)) hnew
    have hitems : items (n + 1) 0 = items n 0 ++ plainItems n := by simp [items, List.range_succ]
    simp only [hitems, Item.walkAll_append, hfaults, hunit, hadded]
    exact ⟨rfl, by simp [hdeclared, declaredNames, List.range_succ]⟩

/-- The walk of plain units and then faulty ones: each of these adds seven faults and its variable.
-/
theorem walk_items (n m : Nat) :
    let w := Item.walkAll .empty [] (items n m)
    w.faults.length = 7 * m ∧ w.declared = declaredNames n m := by
  induction m with
  | zero => exact ⟨congrArg List.length (walk_plainUnits n).1, (walk_plainUnits n).2⟩
  | succ m ih =>
    obtain ⟨hfaults, hdeclared⟩ := ih
    have hnew : ∀ v ∈ [Stem.e, .nf, .zz], v.name m ∉
        (Item.walkAll .empty [] (items n m)).declared := by
      simp [hdeclared, mem_declaredNames, plainStems]
    obtain ⟨hunit, hadded⟩ := walk_faulty (Table.Lists.start.walkAll (items n m)) hnew
    have hitems : items n (m + 1) = items n m ++ faultyItems m := by simp [items, List.range_succ]
    simp only [hitems, Item.walkAll_append, List.length_append, hfaults, hunit, hadded]
    exact ⟨by omega, by simp [hdeclared, declaredNames, List.range_succ]⟩

theorem length_items (n m : Nat) : (items n m).length = 22 * n + 7 * m := by
  have hplain (i : Nat) : (plainItems i).length = 22 := rfl
  have hfaulty (j : Nat) : (faultyItems j).length = 7 := rfl
  simp [items, List.length_flatMap, hplain, hfaulty, Nat.mul_comm]

/-- A sample program is read, with the items of its units, and its walk finds the faults and the
symbols of its units. -/
theorem exists_walk_program (n : Nat) (faults : Bool) :
    let m := faultyCount n faults
    ∃ p log, Reading.ofText (program n faults) = .program p log ∧ p.items.length = 22 * n + 7 * m ∧
      p.walk.faults.length = 7 * m ∧ p.walk.table.all.length = 5 * n + m := by
  intro m
  obtain ⟨p, log, hreading, hitems⟩ := exists_reading_program n faults
  obtain ⟨hfaults, hdeclared⟩ := walk_items n m
  have hwalk : p.walk.relocate (fun _ => .start) (List.map (Item.relocate fun _ => .start)) =
      Item.walkAll .empty [] (items n m) := by rw [← Program.walk_unplaced, hitems, Program.walk]
  rw [← hwalk] at hfaults hdeclared
  have hlength : p.items.length = (items n m).length := by
    simpa [Program.unplaced] using congrArg (·.items.length) hitems
  have hnames : p.walk.declared = declaredNames n m := hdeclared
  refine ⟨p, log, hreading, by rw [hlength, length_items], ?_, ?_⟩
  · simpa [Enrolled.relocate, Walked.relocate] using hfaults
  · rw [p.lists_walk.length_all, hnames, length_declaredNames]

/-- A sample program is accepted, and its analysis reports the faults of its units and nothing else.
-/
theorem exists_reports (s : Session) (n : Nat) (faults : Bool) :
    (s.parse [] (program n faults)).1 = .ok true ∧
      (∃ p, (s.parse [] (program n faults)).2.program = some p ∧
        p.items.length = 22 * n + 7 * faultyCount n faults) ∧
      ∃ reports : List Diagnostic, reports.length = 7 * faultyCount n faults ∧
        (s.parse [] (program n faults)).2.analyse.1 = .ok reports.isEmpty ∧
        (s.parse [] (program n faults)).2.analyse.2.2.ledger =
          { s.ledger with syntactic := [], semantic := reports } ∧
        (s.parse [] (program n faults)).2.analyse.2.2.table.all.length =
          5 * n + faultyCount n faults := by
  obtain ⟨p, log, hreading, hitems, hfaults, hsymbols⟩ := exists_walk_program n faults
  obtain ⟨haccepted, hprogram⟩ := Session.parse_of_reading s hreading
  obtain ⟨hresult, -, -⟩ := Session.analyse_of_parse hprogram
  refine ⟨haccepted, ⟨p, hprogram, hitems⟩,
    p.walk.faults.map Fault.diagnostic, by rw [List.length_map, hfaults], ?_,
    Session.ledger_of_parse hprogram, ?_⟩
  · rw [hresult, List.isEmpty_map]
  · rw [Session.table_of_parse hprogram, hsymbols]

/-- A sample program of any size is accepted. Without faulty units it has 22 items for each unit,
its analysis succeeds and leaves no report, and there are five symbols for each unit. With faulty
units, one for every four units but at least one, the analysis fails, with seven reports and one
more symbol for each of these. -/
theorem analyse_program (s : Session) (n : Nat) :
    let good := s.parse [] (program n false)
    let bad := s.parse [] (program n true)
    let m := max 1 (n / 4)
    (good.1 = .ok true ∧ (∃ p, good.2.program = some p ∧ p.items.length = 22 * n) ∧
      good.2.analyse.1 = .ok true ∧
      good.2.analyse.2.2.ledger = { s.ledger with syntactic := [], semantic := [] } ∧
      good.2.analyse.2.2.table.all.length = 5 * n) ∧
    bad.1 = .ok true ∧ (∃ p, bad.2.program = some p ∧ p.items.length = 22 * n + 7 * m) ∧
      bad.2.analyse.1 = .ok false ∧ bad.2.analyse.2.2.ledger.semantic.length = 7 * m ∧
      bad.2.analyse.2.2.table.all.length = 5 * n + m := by
  obtain ⟨haccepted, hitems, reports, hlength, hresult, hledger, hsymbols⟩ :=
    exists_reports s n false
  obtain ⟨haccepted', hitems', reports', hlength', hresult', hledger', hsymbols'⟩ :=
    exists_reports s n true
  have hplain : faultyCount n false = 0 := rfl
  have hfaulty : faultyCount n true = max 1 (n / 4) := rfl
  simp only [hplain, Nat.mul_zero, Nat.add_zero] at hitems hlength hsymbols
  rw [hfaulty] at hitems' hlength' hsymbols'
  obtain rfl : reports = [] := List.eq_nil_of_length_eq_zero hlength
  have hsome : reports'.isEmpty = false := by
    have hpositive : 0 < reports'.length := by omega
    simpa using List.ne_nil_of_length_pos hpositive
  rw [hsome] at hresult'
  dsimp only
  refine ⟨⟨haccepted, hitems, hresult, hledger, hsymbols⟩, haccepted', hitems', hresult', ?_,
    hsymbols'⟩
  rw [hledger', hlength']

end Sample

end Analizador
