import Mathlib.Data.List.Nodup
import Mathlib.Data.List.Perm.Subperm
import Analizador.Proofs.Analysis.Undeclared
import Analizador.Proofs.Scan.Tiling

/-! # How often an undeclared name is reported

The walk of a program comes once to every use of a name and reports the name there if it is not
declared. Only the target of an assignment is looked up a second time, after its visit, and is then
reported again. No two names of a text stand at one place. So two reports on undeclared names are
the same exactly if they are about one target of an assignment. -/

namespace Analizador

/-- A use of a name, as the walk comes to it: the target of an assignment, or any other use. -/
inductive Use where
  | target (n : Name)
  | operand (n : Name)

namespace Use

/-- The name that is used. -/
def name : Use → Name
  | target n | operand n => n

/-- The faults at a use of a name that is not declared. -/
def faults : Use → List Fault
  | target n => [.undeclared n.text n.spot, .undeclared n.text n.spot]
  | operand n => [.undeclared n.text n.spot]

end Use

/-! ## The uses in the order of the walk -/

/-- The uses in an expression. -/
def Expr.visits (e : Expr) : List Use := e.uses.map .operand

mutual

/-- The uses in a statement. The target of an assignment comes after the value. -/
def Stmt.visits : Stmt → List Use
  | .assign target value _ => value.visits ++ [.target target]
  | .conditional condition body other => condition.visits ++ (visitsAll body ++ visitsOther other)
  | .whileLoop condition body => condition.visits ++ visitsAll body
  | .repeatLoop _ _ body => visitsAll body
  | .print value => value.visits
  | .input target => [.operand target]
  | .block body => visitsAll body
termination_by structural s => s

/-- The uses in the second block of a conditional. -/
def Stmt.visitsOther : Option (List Stmt) → List Use
  | none => []
  | some body => visitsAll body
termination_by structural other => other

/-- The uses in some statements. -/
def Stmt.visitsAll : List Stmt → List Use
  | [] => []
  | s :: rest => s.visits ++ visitsAll rest
termination_by structural body => body

end

/-- The uses in an item. -/
def Item.visits : Item → List Use
  | .declaration .. => []
  | .statement s => s.visits

/-- The uses in a program. -/
def Program.visits (p : Program) : List Use := p.items.flatMap Item.visits

/-- The walk comes to the names of an expression in their order. -/
theorem Expr.map_visits (e : Expr) : e.visits.map Use.name = e.uses := by
  simp [visits, Function.comp_def, Use.name]

mutual

/-- The walk comes once to every name that a statement uses. -/
theorem Stmt.perm_visits : ∀ s : Stmt, (s.visits.map Use.name).Perm s.uses
  | .assign target value _ => by
    rw [visits, uses, List.map_append, Expr.map_visits]
    exact List.perm_append_singleton target value.uses
  | .conditional condition body other => by
    rw [visits, uses, List.map_append, List.map_append, Expr.map_visits]
    exact ((perm_visitsAll body).append (perm_visitsOther other)).append_left _
  | .whileLoop condition body => by
    rw [visits, uses, List.map_append, Expr.map_visits]
    exact (perm_visitsAll body).append_left _
  | .repeatLoop _ _ body => perm_visitsAll body
  | .print value => .of_eq (Expr.map_visits value)
  | .input _ => .refl _
  | .block body => perm_visitsAll body

theorem Stmt.perm_visitsOther :
    ∀ other : Option (List Stmt), ((visitsOther other).map Use.name).Perm (usesOther other)
  | none => .refl _
  | some body => perm_visitsAll body

/-- The walk comes once to every name that some statements use. -/
theorem Stmt.perm_visitsAll :
    ∀ body : List Stmt, ((visitsAll body).map Use.name).Perm (usesAll body)
  | [] => .refl _
  | s :: rest => by
    rw [visitsAll, usesAll, List.map_append]
    exact (perm_visits s).append (perm_visitsAll rest)

end

/-- The walk comes to no name of a program more often than the program mentions it. -/
theorem Program.subperm_visits (p : Program) :
    (p.visits.map Use.name).Subperm (p.mentions.map Mention.name) := by
  unfold visits mentions
  induction p.items with
  | nil => exact .refl _
  | cons i rest ih =>
    simp only [List.flatMap_cons, List.map_append]
    apply List.Subperm.append _ ih
    cases i with
    | declaration ty listType names => exact List.nil_subperm
    | statement s => simpa [Item.visits, Item.mentions, Function.comp_def, Mention.name]
        using (s.perm_visits).subperm

/-- The uses of a program that is read stand at places of their own. -/
theorem Reading.nodup_visits {code : String} {p : Program} {log : List String}
    (h : ofText code = .program p log) :
    (p.visits.map fun u => u.name.spot).Nodup := by
  have hnames : (p.mentions.map fun m => m.name.spot).Nodup := by
    have htokens : p.mentions.map (fun m => m.name.spot) =
        ((Scan.ofText code).tokens.filter (·.kind = .identifier)).map Token.spot := by
      simpa [Function.comp_def, Token.toName] using congrArg (List.map Name.spot) (names_ofText h)
    rw [htokens]
    exact (Scan.nodup_spots_ofText code).sublist (List.filter_sublist.map _)
  obtain ⟨names, hperm, hsublist⟩ := p.subperm_visits
  have hvisits : (names.map Name.spot).Perm (p.visits.map fun u => u.name.spot) := by
    simpa [Function.comp_def] using hperm.map Name.spot
  have hspots := hsublist.map Name.spot
  rw [List.map_map] at hspots
  exact hvisits.nodup_iff.mp (hnames.sublist hspots)

/-! ## The reports of a walk -/

/-- A fault about an undeclared name. -/
def Fault.isUndeclared : Fault → Bool
  | undeclared .. => true
  | redeclared .. | operands .. | assignment .. | condition .. => false

/-- Of some faults, those about undeclared names are the ones at some of the given uses, in their
order. -/
def Reported (us : List Use) (fs : List Fault) : Prop :=
  ∃ missed : List Use, missed.Sublist us ∧ fs.filter Fault.isUndeclared = missed.flatMap Use.faults

namespace Reported

variable {us us' : List Use} {fs fs' : List Fault}

/-- Without faults about undeclared names nothing is missed. -/
theorem of_silent (h : ∀ f ∈ fs, f.isUndeclared = false) : Reported us fs := by
  refine ⟨[], List.nil_sublist us, List.filter_eq_nil_iff.mpr ?_⟩
  intro f hf
  simp [h f hf]

theorem nil : Reported us [] := of_silent (by simp)

/-- The faults of a use are reported at it. -/
theorem use (u : Use) : Reported [u] u.faults := by
  refine ⟨[u], .refl _, ?_⟩
  cases u <;> rfl

/-- What is reported in two parts is reported in both together. -/
theorem append (h : Reported us fs) (h' : Reported us' fs') : Reported (us ++ us') (fs ++ fs') := by
  obtain ⟨missed, hsublist, hfaults⟩ := h
  obtain ⟨missed', hsublist', hfaults'⟩ := h'
  refine ⟨missed ++ missed', hsublist.append hsublist', ?_⟩
  rw [List.filter_append, List.flatMap_append, hfaults, hfaults']

/-- Parts that the walk does not come to are not reported. -/
theorem extend (h : Reported us fs) : Reported (us ++ us') fs := by
  have hnil : Reported us' [] := nil
  simpa using h.append hnil

/-- Faults of other sorts may come after. -/
theorem append_silent (h : Reported us fs) (h' : ∀ f ∈ fs', f.isUndeclared = false) :
    Reported us (fs ++ fs') := by
  have hsilent : Reported [] fs' := of_silent h'
  simpa using h.append hsilent

end Reported

section Parts

variable (t : Table String Symbol)

theorem Expr.silent_operationFaults (op : Operator) (left right : Expr) :
    ∀ f ∈ operationFaults op left right, f.isUndeclared = false := by
  intro f hf
  unfold operationFaults at hf
  split at hf
  next =>
    split at hf
    next => cases hf
    next =>
      rw [List.mem_singleton.mp hf]
      rfl
  next => cases hf

/-- The undeclared names of an expression are reported at its uses. -/
theorem Expr.reported_faults (e : Expr) : Reported e.visits (e.faults t) := by
  induction e with
  | number | text => exact .nil
  | use name =>
    rw [faults]
    split
    next => exact .use (.operand name)
    next => exact .nil
  | binary op left right mark ihleft ihright =>
    have hvisits : (Expr.binary op left right mark).visits = left.visits ++ right.visits := by
      simp [visits, uses]
    rw [hvisits, faults]
    exact (ihleft.append ihright).append_silent (silent_operationFaults op _ _)

/-- A target that is not declared has two faults. -/
theorem Name.reported_assigned (target : Name) (value : Expr) (old : Option Ty) :
    Reported [.target target] (target.assigned t value old).faults := by
  unfold assigned
  split
  next => exact .use (.target target)
  next =>
    dsimp only
    split
    next => exact .nil
    next =>
      split
      next => exact .nil
      next => exact .of_silent (by simp [Fault.isUndeclared])

theorem Expr.reported_guard (condition : Expr) (guard : Guard) (found : Ty) (spot : Option Spot) :
    Reported condition.visits (condition.faults t ++ [.condition guard found spot]) :=
  (condition.reported_faults t).append_silent (by simp [Fault.isUndeclared])

end Parts

mutual

/-- The walk of a statement reports each use that it comes to at most once, but a target twice. -/
theorem Stmt.reported_walk (t : Table String Symbol) :
    ∀ s : Stmt, Reported s.visits (s.walk t).faults
  | .assign target value ty => (value.reported_faults t).append (target.reported_assigned t _ ty)
  | .conditional condition body other => by
    unfold Stmt.walk
    dsimp only
    split
    next => exact (condition.reported_guard t _ _ _).extend
    next =>
      exact (condition.reported_faults t).append
        ((reported_walkAll t.enter body).append (reported_walkOther _ other))
  | .whileLoop condition body => by
    unfold Stmt.walk
    dsimp only
    split
    next => exact (condition.reported_guard t _ _ _).extend
    next => exact (condition.reported_faults t).append (reported_walkAll t.enter body)
  | .repeatLoop _ _ body => reported_walkAll t.enter body
  | .print value => value.reported_faults t
  | .input target => by
    unfold Stmt.walk
    split
    next => exact .use (.operand target)
    next => exact .nil
  | .block body => reported_walkAll t body

theorem Stmt.reported_walkOther (t : Table String Symbol) :
    ∀ other : Option (List Stmt), Reported (visitsOther other) (walkOther t other).faults
  | none => .nil
  | some body => reported_walkAll t.enter body

/-- The undeclared names of a body are reported at its uses. -/
theorem Stmt.reported_walkAll (t : Table String Symbol) :
    ∀ body : List Stmt, Reported (visitsAll body) (walkAll t body).faults
  | [] => .nil
  | s :: rest => (reported_walk t s).append (reported_walkAll _ rest)

end

/-- Declarations report no undeclared name. -/
theorem Name.silent_declareAll (t : Table String Symbol) (declared : List String) (ty : Ty)
    (names : List Name) :
    ∀ f ∈ (declareAll t declared ty names).faults, f.isUndeclared = false := by
  induction names generalizing t declared with
  | nil => intro f hf; cases hf
  | cons n rest ih =>
    intro f hf
    rcases List.mem_append.mp hf with hfirst | hrest
    · unfold declare at hfirst
      split at hfirst
      next =>
        rw [List.mem_singleton.mp hfirst]
        rfl
      next => cases hfirst
    · exact ih _ _ f hrest

/-- The walk of items, one after the other. -/
theorem Item.reported_walkAll (t : Table String Symbol) (declared : List String) (is : List Item) :
    Reported (is.flatMap visits) (walkAll t declared is).faults := by
  induction is generalizing t declared with
  | nil => exact .nil
  | cons i rest ih =>
    rw [List.flatMap_cons]
    apply Reported.append _ (ih _ _)
    cases i with
    | declaration ty listType names => exact .of_silent (Name.silent_declareAll t declared ty names)
    | statement s => exact Stmt.reported_walk t s

/-! ## Repeated reports -/

/-- A diagnostic about an undeclared name. -/
def Diagnostic.isUndeclared (d : Diagnostic) : Bool := d.kind matches .undeclared

/-- The report on a name that is not declared. -/
def Name.report (n : Name) : Diagnostic where
  kind := .undeclared
  message := .ofText s!"Variable '{n.text}' no declarada"
  line := .ofInt n.spot.line
  column := .ofInt n.spot.column

/-- The reports on a use of a name that is not declared: two on the target of an assignment, else
one. -/
def Use.reports : Use → List Diagnostic
  | target n => [n.report, n.report]
  | operand n => [n.report]

/-- Names with the same report have the same place. -/
theorem Name.spot_eq_of_report_eq {m n : Name} (h : m.report = n.report) : m.spot = n.spot := by
  obtain ⟨_, ⟨mline, mcolumn⟩, _⟩ := m
  obtain ⟨_, ⟨nline, ncolumn⟩, _⟩ := n
  simp only [report, Diagnostic.mk.injEq, Datum.constant.injEq, Constant.integer.injEq,
    Int.natCast_inj] at h
  simp [h.2.2]

namespace Use

theorem map_faults (u : Use) : u.faults.map Fault.diagnostic = u.reports := by
  cases u <;> rfl

theorem mem_reports {u : Use} {d : Diagnostic} : d ∈ u.reports ↔ d = u.name.report := by
  cases u <;> simp [reports, name]

/-- Uses at different places have different reports. -/
theorem eq_of_report_eq {us : List Use} (hus : (us.map fun u => u.name.spot).Nodup) {u v : Use}
    (hu : u ∈ us) (hv : v ∈ us) (h : u.name.report = v.name.report) : u = v :=
  List.inj_on_of_nodup_map hus hu hv (Name.spot_eq_of_report_eq h)

/-- The reports on uses at places of their own are all different exactly if none is on a target. -/
theorem nodup_flatMap_reports {us : List Use} (hus : (us.map fun u => u.name.spot).Nodup) :
    (us.flatMap reports).Nodup ↔ ∀ n, target n ∉ us := by
  constructor
  · intro hnodup n hn
    have htwice := (List.nodup_flatMap.mp hnodup).1 (target n) hn
    simp [reports] at htwice
  · intro hnone
    have honce : us.flatMap reports = us.map fun u => u.name.report := by
      rw [List.map_eq_flatMap]
      apply List.flatMap_congr
      intro u hu
      cases u with
      | target n => exact absurd hu (hnone n)
      | operand n => rfl
    rw [honce]
    refine List.Nodup.map_on ?_ (List.Nodup.of_map _ hus)
    intro u hu v hv heq
    exact eq_of_report_eq hus hu hv heq

end Use

theorem Fault.isUndeclared_diagnostic (f : Fault) : f.diagnostic.isUndeclared = f.isUndeclared := by
  cases f <;> rfl

namespace Session

/-- The reports on undeclared names are those on some of the uses that the walk comes to, in their
order: one on each, but two on the target of an assignment. The uses stand at places of their own.
So all reports are different exactly if none of them is on the target of an assignment. -/
theorem analyse_undeclared_repeats (s : Session) (code : String) (p : Program)
    (hread : (s.parse [] code).2.program = some p) :
    let reports := (s.parse [] code).2.analyse.2.2.ledger.semantic.filter Diagnostic.isUndeclared
    (p.visits.map fun u => u.name.spot).Nodup ∧
      (∃ missed : List Use, missed.Sublist p.visits ∧ reports = missed.flatMap Use.reports) ∧
      (reports.Nodup ↔ ∀ n, .target n ∈ p.visits → n.report ∉ reports) := by
  intro reports
  obtain ⟨log, hreading⟩ := reading_of_parse hread
  have hvisits := Reading.nodup_visits hreading
  obtain ⟨missed, hsublist, hfaults⟩ : Reported p.visits p.walk.faults :=
    Item.reported_walkAll .empty [] p.items
  have hreports : reports = missed.flatMap Use.reports := by
    dsimp only [reports]
    rw [(analyse_of_parse hread).2.2, List.filter_map]
    simp only [Function.comp_def, Fault.isUndeclared_diagnostic, hfaults, List.map_flatMap,
      Use.map_faults]
  refine ⟨hvisits, ⟨missed, hsublist, hreports⟩, ?_⟩
  rw [hreports, Use.nodup_flatMap_reports (hvisits.sublist (hsublist.map _))]
  -- A target is missed exactly if there is a report on it.
  refine forall_congr' fun n => ⟨?_, ?_⟩
  · intro hmissed hn hmem
    obtain ⟨u, hu, hreport⟩ := List.mem_flatMap.mp hmem
    have hsame := Use.eq_of_report_eq hvisits hn (hsublist.subset hu) (Use.mem_reports.mp hreport)
    exact hmissed (hsame ▸ hu)
  · intro hnone hmissed
    refine hnone (hsublist.subset hmissed) (List.mem_flatMap.mpr ⟨_, hmissed, ?_⟩)
    exact Use.mem_reports.mpr rfl

/-- Where the targets of all assignments are declared, a name that is not is reported once for each
of its uses. -/
theorem analyse_undeclared_repeats_operands :
    let code := "ent x ; x = y + y ; scan ( z ) ;"
    let reports :=
      (empty.parse [] code).2.analyse.2.2.ledger.semantic.filter Diagnostic.isUndeclared
    ∃ p, (empty.parse [] code).2.program = some p ∧ .target ⟨"x", ⟨1, 9⟩, .blank⟩ ∈ p.visits ∧
      reports.length = 3 ∧ reports.Nodup := by
  let name (text : String) (column : Nat) : Name := ⟨text, ⟨1, column⟩, .blank⟩
  let p : Program := ⟨[.declaration .ent none [name "x" 5],
    .statement (.assign (name "x" 9)
      (.operation .add (.use (name "y" 13)) (.use (name "y" 17))) none),
    .statement (.input (name "z" 28))]⟩
  have hread : (empty.parse [] "ent x ; x = y + y ; scan ( z ) ;").2.program = some p := rfl
  have hfaults : p.walk.faults =
      [.undeclared "y" ⟨1, 13⟩, .undeclared "y" ⟨1, 17⟩, .undeclared "z" ⟨1, 28⟩] := by
    decide +kernel
  have hsemantic := (analyse_of_parse hread).2.2
  rw [hfaults] at hsemantic
  have hvisits : p.visits = [.operand (name "y" 13), .operand (name "y" 17), .target (name "x" 9),
      .operand (name "z" 28)] := rfl
  obtain ⟨-, -, hnodup⟩ := analyse_undeclared_repeats empty _ p hread
  refine ⟨p, hread, by simp [hvisits, name], by rw [hsemantic]; rfl, hnodup.mpr ?_⟩
  intro n hn
  obtain rfl : n = name "x" 9 := by simpa [hvisits] using hn
  simp [hsemantic, Fault.diagnostic, Diagnostic.isUndeclared, Name.report, name]

/-- The target of an assignment that is not declared is reported twice, in the same words and at the
same place. -/
theorem analyse_undeclared_target :
    let reports :=
  (empty.parse [] "x = 1;").2.analyse.2.2.ledger.semantic.filter Diagnostic.isUndeclared
    let report :
        Diagnostic := ⟨.undeclared, .ofText "Variable 'x' no declarada", .ofInt 1, .ofInt 1⟩
    (empty.parse [] "x = 1;").1 = .ok true ∧ reports = [report, report] ∧ ¬ reports.Nodup := by
  intro reports report
  let p : Program := ⟨[.statement (.assign ⟨"x", ⟨1, 1⟩, .blank⟩ (.number (.whole 1) ⟨1, 5⟩) none)]⟩
  have hread : (empty.parse [] "x = 1;").2.program = some p := rfl
  have hreports : reports = [report, report] := by
    dsimp only [reports]
    rw [(analyse_of_parse hread).2.2]
    rfl
  refine ⟨rfl, hreports, ?_⟩
  rw [hreports]
  simp

end Session

end Analizador
