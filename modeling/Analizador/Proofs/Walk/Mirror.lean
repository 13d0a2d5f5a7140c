import Analizador.Proofs.Analysis.Simulation
import Analizador.Proofs.Walk.Standing

/-! # A workshop that mirrors an analysis

What the analysis of a program has found can be laid out in a workshop: its table as a table of
records, its faults as the semantic findings of a ledger, the names it has declared and its log. A
step in the workshop mirrors a step of the analysis when both end in findings and a workshop that is
laid out like them, or both fail in the same way. There is a rule for each of the small steps that
the analysis and the walk over nodes are made of. -/

namespace Analizador

/-! ## Tables of records -/

section Renaming

variable {κ κ' σ : Type} (f : κ → κ')

/-- The same bindings under other names. -/
def Bindings.rename (b : Bindings κ) : Bindings κ' := b.map fun (name, number) => (f name, number)

/-- The same table under other names. -/
def Table.rename (t : Table κ σ) : Table κ' σ :=
  ⟨t.entries, t.scope.rename f, t.outer.map (.rename f), t.index.rename f⟩

/-- Closing a scope and renaming commute. -/
theorem Table.rename_exit (t : Table κ σ) : t.exit.rename f = (t.rename f).exit := by
  obtain ⟨entries, scope, outer, index⟩ := t
  cases outer <;> rfl

theorem Table.named_rename (t : Table κ σ) :
    (t.rename f).named = t.named.map fun (name, s) => (f name, s) := by
  simp only [named, rename, Bindings.rename, List.filterMap_map, List.map_filterMap]
  congr 1
  funext entry
  simp [Function.comp_def]

variable [BEq κ] [BEq κ'] {f} (hf : ∀ a b, (f a == f b) = (a == b))

include hf

/-- A renamed name is found where the name was. -/
theorem Bindings.find?_rename (b : Bindings κ) (name : κ) :
    (b.rename f).find? (f name) = b.find? name := by
  induction b with
  | nil => rfl
  | cons entry b ih =>
    change List.lookup (f name) ((f entry.1, entry.2) :: rename f b) = List.lookup name (entry :: b)
    rw [List.lookup_cons, List.lookup_cons, hf]
    cases name == entry.1 with
    | true => rfl
    | false => exact ih

/-- Binding and renaming commute. -/
theorem Bindings.put_rename (b : Bindings κ) (name : κ) (number : Nat) :
    (b.rename f).put (f name) number = (b.put name number).rename f := by
  induction b with
  | nil => rfl
  | cons entry b ih =>
    change put ((f entry.1, entry.2) :: rename f b) (f name) number = _
    rw [put, put, hf]
    split
    next => rfl
    next => rw [ih]; rfl

namespace Table

/-- Names are located in the same places. -/
theorem locate?_rename (t : Table κ σ) (name : κ) :
    (t.rename f).locate? (f name) = t.locate? name := by
  change ((t.scope :: t.outer).map (Bindings.rename f)).findSome? _ = _
  rw [List.findSome?_map]
  exact congrArg (List.findSome? · _) (funext fun b => Bindings.find?_rename hf b name)

theorem lookup_rename (t : Table κ σ) (name : κ) :
    (t.rename f).lookup (f name) = t.lookup name := by
  unfold lookup
  rw [locate?_rename hf]
  rfl

/-- Insertion and renaming commute. -/
theorem insert?_rename (t : Table κ σ) (name : κ) (s : σ) :
    (t.rename f).insert? (f name) s = (t.insert? name s).map (rename f) := by
  have hfind : (t.rename f).scope.find? (f name) = t.scope.find? name :=
    Bindings.find?_rename hf t.scope name
  unfold insert?
  rw [hfind]
  split
  next => rfl
  next => simp [rename, Bindings.put_rename hf]

theorem modifyIndexed_rename (t : Table κ σ) (name : κ) (g : σ → σ) :
    (t.rename f).modifyIndexed (f name) g = (t.modifyIndexed name g).rename f := by
  have hfind : (t.rename f).index.find? (f name) = t.index.find? name :=
    Bindings.find?_rename hf t.index name
  unfold modifyIndexed
  rw [hfind]
  split <;> rfl

end Table

end Renaming

/-- The table of the records of some variables. -/
def Table.recorded (t : Table String Symbol) : Table Datum Record :=
  (t.map Symbol.toRecord).rename .ofText

/-- Without variables there are no records. -/
theorem Table.recorded_empty : (Table.empty : Table String Symbol).recorded = .empty := by
  simp [recorded, map, rename, empty, Bindings.rename]

theorem Datum.beq_ofText (a b : String) : (ofText a == ofText b) = (a == b) := rfl

namespace Table

variable (t : Table String Symbol) (name : String)

theorem recorded_exit : t.exit.recorded = t.recorded.exit := by
  rw [recorded, recorded, map_exit, rename_exit]

theorem locate?_recorded : t.recorded.locate? (.ofText name) = t.locate? name :=
  locate?_rename Datum.beq_ofText _ name

/-- The record of a name is that of its variable. -/
theorem lookup_recorded :
    t.recorded.lookup (.ofText name) = (t.lookup name).map Symbol.toRecord := by
  rw [recorded, lookup_rename Datum.beq_ofText, lookup_map]

/-- Inserting a variable inserts its record. -/
theorem insert?_recorded (s : Symbol) :
    t.recorded.insert? (.ofText name) s.toRecord = (t.insert? name s).map recorded := by
  rw [recorded, insert?_rename Datum.beq_ofText, insert?_map, Option.map_map]
  rfl

/-- The records are listed in the order of the variables. -/
theorem named_recorded :
    t.recorded.named = t.named.map fun (name, s) => (.ofText name, s.toRecord) := by
  have hmap : (t.map Symbol.toRecord).named = t.named.map fun (name, s) => (name, s.toRecord) := by
    simp only [named, map, List.map_filterMap, Array.getElem?_map, Option.map_map]
    rfl
  rw [recorded, named_rename, hmap, List.map_map]
  rfl

/-- A change of a variable is a change of its record. -/
theorem recorded_modify {change : Symbol → Symbol} {change' : Record → Record}
    (h : ∀ s, (change s).toRecord = change' s.toRecord) (number : Nat) :
    (t.modify number change).recorded = t.recorded.modify number change' := by
  rw [recorded, ← modify_map h]
  rfl

theorem recorded_modifyIndexed {change : Symbol → Symbol} {change' : Record → Record}
    (h : ∀ s, (change s).toRecord = change' s.toRecord) :
    (t.modifyIndexed name change).recorded = t.recorded.modifyIndexed (.ofText name) change' := by
  rw [recorded, ← modifyIndexed_map h, ← modifyIndexed_rename Datum.beq_ofText]
  rfl

end Table

/-! ## Findings laid out -/

/-- The fault of an analysis is a semantic finding. -/
theorem Ledger.add_diagnostic (l : Ledger) (f : Fault) :
    l.add f.diagnostic = { l with semantic := l.semantic ++ [f.diagnostic] } := by
  cases f <;> rfl

/-- The workshop that is laid out like some findings, after what a ledger and a log held before. -/
def Findings.workshop (s : Findings) (l : Ledger) (lines : List String) (g : Graph) : Workshop where
  graph := g
  table := s.table.recorded
  ledger := some { l with semantic := l.semantic ++ s.faults.map Fault.diagnostic }
  declared := s.declared.map .ofText
  log := lines ++ s.log

section Laid

variable (s : Findings) (l : Ledger) (lines : List String) (g : Graph)

/-- A logged line is logged in the workshop. -/
theorem perform_say_workshop (line : String) :
    (Work.say line).perform (s.workshop l lines g) =
      (.ok (), { s with log := s.log ++ [line] }.workshop l lines g) := by
  simp [Work.say, Findings.workshop]

/-- A reported fault is reported in the workshop. -/
theorem perform_report_workshop (f : Fault) :
    (Work.report f.diagnostic).perform (s.workshop l lines g) =
      (.ok (), { s with faults := s.faults ++ [f] }.workshop l lines g) := by
  simp [Work.report, Findings.workshop, Ledger.add_diagnostic]

end Laid

namespace Analysis

variable {α β γ δ : Type} {l : Ledger} {lines : List String} {m : Analysis α} {x : Work β}
  {f : α → Analysis γ} {k : β → Work δ} {s s' : Findings} {g g' : Graph} {a : α} {b : β}
  {Q Q' : α → β → Graph → Prop} {R : γ → δ → Graph → Prop}

/-- A step that fails ends the analysis. -/
theorem run_bind_error {e : Failure} (h : m.run s = (.error e, s')) :
    (m >>= f).run s = (.error e, s') := by
  have hbind : (m >>= f).run s = (ExceptT.bindCont f (m.run s).1 (m.run s).2).value := rfl
  rw [hbind, h]
  rfl

/-- A step in the workshop mirrors a step of the analysis: where the one ends, so does the other, in
a workshop that is laid out like the findings, with `Q` of the answers and the graph; where the one
fails, so does the other. -/
inductive Mirrors (l : Ledger) (lines : List String) (m : Analysis α) (x : Work β) (s : Findings)
    (g : Graph) (Q : α → β → Graph → Prop) : Prop where
  | ends {a : α} {b : β} {s' : Findings} {g' : Graph} (hrun : m.run s = (.ok a, s'))
      (hperform : x.perform (s.workshop l lines g) = (.ok b, s'.workshop l lines g'))
      (hQ : Q a b g')
  | fails {e : Failure} {s' : Findings} {g' : Graph} (hrun : m.run s = (.error e, s'))
      (hperform : x.perform (s.workshop l lines g) = (.error e, s'.workshop l lines g'))

namespace Mirrors

/-- Less can be said of the answers. -/
theorem mono (h : Mirrors l lines m x s g Q) (hQ : ∀ a b g', Q a b g' → Q' a b g') :
    Mirrors l lines m x s g Q' := by
  cases h with
  | ends hrun hperform h => exact .ends hrun hperform (hQ _ _ _ h)
  | fails hrun hperform => exact .fails hrun hperform

/-! ### One step after the other -/

/-- A step of the analysis and a step in the workshop that both end. -/
theorem step_bind (hrun : m.run s = (.ok a, s'))
    (hperform : x.perform (s.workshop l lines g) = (.ok b, s'.workshop l lines g'))
    (hnext : Mirrors l lines (f a) (k b) s' g' R) : Mirrors l lines (m >>= f) (x >>= k) s g R := by
  cases hnext with
  | ends hrun' hperform' h' =>
    exact .ends ((run_bind hrun).trans hrun') ((Work.perform_bind_ok hperform k).trans hperform') h'
  | fails hrun' hperform' =>
    exact .fails ((run_bind hrun).trans hrun') ((Work.perform_bind_ok hperform k).trans hperform')

/-- Two mirrored steps and what comes after them. -/
theorem bind (h : Mirrors l lines m x s g Q)
    (hnext : ∀ a b s' g', Q a b g' → Mirrors l lines (f a) (k b) s' g' R) :
    Mirrors l lines (m >>= f) (x >>= k) s g R := by
  cases h with
  | ends hrun hperform h => exact step_bind hrun hperform (hnext _ _ _ _ h)
  | fails hrun hperform => exact .fails (run_bind_error hrun) (by rw [Work.perform_bind, hperform])

/-- What is done with the answer of the analysis only. -/
theorem map (f : α → γ) {R : γ → β → Graph → Prop}
    (h : Mirrors l lines m x s g fun a b g' => R (f a) b g') :
    Mirrors l lines (do return f (← m)) x s g R := by
  cases h with
  | ends hrun hperform h => exact .ends (run_bind hrun) hperform h
  | fails hrun hperform => exact .fails (run_bind_error hrun) hperform

/-- What is answered in the workshop only. -/
theorem discard {P : α → Graph → Prop} (c : δ) (h : Mirrors l lines m x s g fun a _ g' => P a g') :
    Mirrors l lines m (do let _ ← x; return c) s g fun a _ g' => P a g' := by
  cases h with
  | ends hrun hperform h => exact .ends hrun (Work.perform_bind_ok hperform _) h
  | fails hrun hperform => exact .fails hrun (by rw [Work.perform_bind, hperform])

theorem answer (h : Q a b g) : Mirrors l lines (pure a) (pure b) s g Q := .ends rfl rfl h

/-- A step that only the analysis takes, and that finds nothing. -/
theorem run_bind {n : α → Analysis γ} {y : Work δ} (hrun : m.run s = (.ok a, s))
    (hnext : Mirrors l lines (n a) y s g R) : Mirrors l lines (m >>= n) y s g R := by
  cases hnext with
  | ends hrun' hperform h => exact .ends ((Analysis.run_bind hrun).trans hrun') hperform h
  | fails hrun' hperform => exact .fails ((Analysis.run_bind hrun).trans hrun') hperform

/-- A step that is taken only in the workshop, and that changes nothing but the graph. -/
theorem perform_bind {n : Analysis γ} {y : β → Work δ}
    (hperform : x.perform (s.workshop l lines g) = (.ok b, s.workshop l lines g'))
    (hnext : Mirrors l lines n (y b) s g' R) : Mirrors l lines n (x >>= y) s g R := by
  cases hnext with
  | ends hrun hperform' h => exact .ends hrun ((Work.perform_bind_ok hperform y).trans hperform') h
  | fails hrun hperform' => exact .fails hrun ((Work.perform_bind_ok hperform y).trans hperform')

/-! ### The log -/

section Steps

variable {n : Unit → Analysis γ} {y : Unit → Work δ}

/-- A line that both log. -/
theorem say_bind (line : String)
    (hnext : Mirrors l lines (n ()) (y ()) { s with log := s.log ++ [line] } g R) :
    Mirrors l lines (say line >>= n) (Work.say line >>= y) s g R :=
  step_bind rfl (perform_say_workshop s l lines g line) hnext

/-- A text that can be shown. -/
theorem text_bind {line : String} {message : Except Failure String} (hmessage : message = .ok line)
    (hnext : Mirrors l lines (n ()) (y ()) { s with log := s.log ++ [line] } g R) :
    Mirrors l lines (say line >>= n) (Work.sayText message >>= y) s g R := by
  subst hmessage
  exact step_bind rfl (perform_say_workshop s l lines g line) hnext

/-- A computation that may fail, in both. -/
theorem lift_bind {τ : Type} (e : Except Failure τ) {n : τ → Analysis γ} {y : τ → Work δ}
    (hnext : ∀ t, e = .ok t → Mirrors l lines (n t) (y t) s g R) :
    Mirrors l lines (liftM e >>= n) (liftM e >>= y) s g R := by
  cases e with
  | ok t => exact step_bind rfl rfl (hnext t rfl)
  | error f => exact .fails rfl rfl

/-- A text that may not be shown. -/
theorem sayText_bind (message : Except Failure String)
    (hnext : ∀ line, message = .ok line →
      Mirrors l lines (n ()) (y ()) { s with log := s.log ++ [line] } g R) :
    Mirrors l lines (liftM message >>= fun line => say line >>= n)
      (Work.sayText message >>= y) s g R := by
  cases message with
  | ok line => exact .run_bind rfl (.text_bind rfl (hnext line rfl))
  | error f => exact .fails rfl rfl

/-- A fault that both report. -/
theorem report_bind (f : Fault)
    (hnext : Mirrors l lines (n ()) (y ()) { s with faults := s.faults ++ [f] } g R) :
    Mirrors l lines (report f >>= n) (Work.report f.diagnostic >>= y) s g R :=
  step_bind rfl (perform_report_workshop s l lines g f) hnext

end Steps

/-! ### Attributes and names -/

section Reads

variable {n : Analysis γ} {d : Datum} {name : String}

/-- The walk reads an attribute. -/
theorem attr_bind {value : Datum} {y : Datum → Work δ} (h : g.attr? d name = some value)
    (hnext : Mirrors l lines n (y value) s g R) :
    Mirrors l lines n (Work.attr d name >>= y) s g R :=
  perform_bind (Work.perform_attr h) hnext

theorem attr?_bind {y : Option Datum → Work δ} {value : Option Datum} (h : g.attr? d name = value)
    (hnext : Mirrors l lines n (y value) s g R) :
    Mirrors l lines n (Work.attr? d name >>= y) s g R := by
  subst h
  exact perform_bind rfl hnext

/-- The walk fills a slot of a node. -/
theorem setAttr_bind {cls : NodeClass} {id : Nat} {value : Datum} {y : Unit → Work δ}
    (hnext : Mirrors l lines n (y ()) s (g.fill id name value) R) :
    Mirrors l lines n (Work.setAttr (.node cls id) name value >>= y) s g R :=
  perform_bind (Work.perform_setAttr ..) hnext

theorem ok_bind {τ : Type} {t : τ} {e : Except Failure τ} {y : τ → Work δ} (he : e = .ok t)
    (hnext : Mirrors l lines n (y t) s g R) : Mirrors l lines n (liftM e >>= y) s g R := by
  subst he
  exact perform_bind rfl hnext

/-- The walk looks up a name, and finds the record of the variable. -/
theorem lookup_bind {y : Option Record → Work δ}
    (hnext : Mirrors l lines n (y ((s.table.lookup name).map Symbol.toRecord)) s g R) :
    Mirrors l lines n (Work.lookup (.ofText name) >>= y) s g R := by
  rw [← Table.lookup_recorded] at hnext
  exact perform_bind rfl hnext

end Reads

theorem get_bind {n : Findings → Analysis γ} {y : Work δ} (hnext : Mirrors l lines (n s) y s g R) :
    Mirrors l lines (get >>= n) y s g R :=
  run_bind rfl hnext

/-- The analysis marks a name. -/
theorem markName_bind {n : Name → Analysis γ} {y : Work δ} {name : Name} {mark : Mark}
    (hnext : Mirrors l lines (n { name with mark }) y s g R) :
    Mirrors l lines (markName name mark >>= n) y s g R :=
  run_bind rfl hnext

end Mirrors

end Analysis

end Analizador
