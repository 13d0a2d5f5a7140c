import Analizador.Proofs.Analysis.Verdict
import Analizador.Proofs.Reader.Acceptance
import Analizador.Proofs.Scan.Tiling
import Analizador.Proofs.Window

/-! # What an analysis shows

The same action on two windows with the same text, whatever was done with them before. A step agrees
at two windows if it gives both the same answer; what the windows have in common before and after it
is a relation between them. Every analysis agrees in what it shows, but for the syntactic one on a
text that chokes the reader: it stops before it shows anything. -/

namespace Analizador

namespace Grid

/-! ## Filling grids with the same rows and cells -/

/-- What a grid shows. -/
structure View where
  rows : Nat
  cells : List ((Nat × Nat) × Cell)

/-- The view of a grid. -/
def view (g : Grid) : View := ⟨g.rows, g.cells⟩

variable {g g' : Grid}

/-- Two grids look the same if they have the same rows and the same cells. -/
theorem view_eq_iff : g.view = g'.view ↔ g.rows = g'.rows ∧ g.cells = g'.cells := by
  simp [view]

/-- Setting a row depends on what the grid looks like only. -/
theorem setRow_of_view (h : g.view = g'.view) (row column : Nat)
    (cells : List (Except Failure Cell)) :
    (g.setRow row column cells).1 = (g'.setRow row column cells).1 ∧
      (g.setRow row column cells).2.view = (g'.setRow row column cells).2.view := by
  induction cells generalizing g g' column with
  | nil => exact ⟨rfl, h⟩
  | cons cell rest ih =>
    cases cell with
    | error f => exact ⟨rfl, h⟩
    | ok cell =>
      apply ih
      obtain ⟨hrows, hcells⟩ := view_eq_iff.mp h
      simp [view, set, hrows, hcells]

/-- So does setting several rows. -/
theorem setRows_of_view (h : g.view = g'.view) (row : Nat)
    (lines : List (List (Except Failure Cell))) :
    (g.setRows row lines).1 = (g'.setRows row lines).1 ∧
      (g.setRows row lines).2.view = (g'.setRows row lines).2.view := by
  induction lines generalizing g g' row with
  | nil => exact ⟨rfl, h⟩
  | cons cells rest ih =>
    obtain ⟨hresult, hview⟩ := setRow_of_view h row 0 cells
    simp only [setRows]
    generalize g.setRow row 0 cells = first at hresult hview ⊢
    generalize g'.setRow row 0 cells = second at hresult hview ⊢
    obtain ⟨result, set⟩ := first
    obtain ⟨result', set'⟩ := second
    obtain rfl : result = result' := hresult
    cases result with
    | error f => exact ⟨rfl, hview⟩
    | ok _ => exact ih hview (row + 1)

/-- So does filling the grid. -/
theorem fill_of_view (h : g.view = g'.view) (records : List Record) :
    (g.fill records).1 = (g'.fill records).1 ∧
      (g.fill records).2.view = (g'.fill records).2.view := by
  obtain ⟨hrows, hcells⟩ := view_eq_iff.mp h
  unfold fill
  split
  · simp [notice, set, resize, view, hcells]
  · apply setRows_of_view
    simp [view, resize, hcells]

theorem rows_setRow (row column : Nat) (cells : List (Except Failure Cell)) :
    (g.setRow row column cells).2.rows = g.rows := by
  induction cells generalizing g column with
  | nil => rfl
  | cons cell rest ih =>
    cases cell with
    | error f => rfl
    | ok cell => exact ih (column + 1)

theorem rows_setRows (row : Nat) (lines : List (List (Except Failure Cell))) :
    (g.setRows row lines).2.rows = g.rows := by
  induction lines generalizing g row with
  | nil => rfl
  | cons cells rest ih =>
    have hrow := rows_setRow (g := g) row 0 cells
    simp only [setRows]
    generalize g.setRow row 0 cells = first at hrow ⊢
    obtain ⟨result, set⟩ := first
    cases result with
    | error f => exact hrow
    | ok _ => exact (ih (row + 1)).trans hrow

/-- A filled grid is never without rows: if there is nothing to show, it says so. -/
theorem rows_fill_pos (records : List Record) : 0 < (g.fill records).2.rows := by
  unfold fill
  split
  · exact Nat.one_pos
  · rename_i hrecords
    rw [rows_setRows]
    exact List.length_pos_iff.mpr (by simpa using hrecords)

end Grid

/-! ## Texts that pass, texts that stall -/

/-- A text in which all three analyses find nothing. -/
def Session.Passes (code : String) : Prop :=
  let scanned := empty.tokenize code
  let parsed := scanned.parse [] code
  scanned.ledger.lexical = [] ∧ parsed.1 = .ok true ∧ parsed.2.analyse.1 = .ok true

/-- A text passes if it scans, reads as a program and has no fault. -/
theorem Session.passes_iff {code : String} :
    Passes code ↔ (Scan.ofText code).diagnostics = [] ∧
      ∃ p log, Reading.ofText code = .program p log ∧ p.walk.faults = [] := by
  simp only [Passes, tokenize, parse, Parsing.ofText, List.isEmpty_nil, ↓reduceIte]
  cases hreading : Reading.ofText code with
  | program p log =>
    obtain ⟨lines, hanalyse⟩ := Reading.analyse_eq hreading
    simp [analyse, hanalyse]
  | fault f => simp
  | aborted f => simp

/-- A text without stray characters on which the reader chokes. -/
def Scan.Stalls (scan : Scan) : Prop := scan.stray = none ∧ scan.Chokes

/-- Parsing is given up for a text that the scan chokes on, and for no other. -/
theorem Parsing.exists_aborted_iff {code : String} :
    (∃ f, Parsing.ofText [] code = .aborted f) ↔ (Scan.ofText code).Chokes := by
  have houtcome := Reading.ofText_outcome code
  rw [← Scan.choking_iff]
  cases hreading : Reading.ofText code with
  | program p log =>
    rw [hreading] at houtcome
    cases houtcome with
    | program _ hchoke => simp [Parsing.ofText, hreading, hchoke]
  | fault f =>
    rw [hreading] at houtcome
    cases houtcome with
    | fault _ hchoke => simp [Parsing.ofText, hreading, hchoke]
  | aborted f =>
    rw [hreading] at houtcome
    cases houtcome with
    | aborted _ hchoke => simp [Parsing.ofText, hreading, hchoke]

/-! ## Steps on two windows -/

/-- What a window shows of an analysis. -/
structure Window.View where
  output : Output
  grid : Grid.View

/-- The view of a window. -/
def Window.view (w : Window) : View := ⟨w.output, w.grid.view⟩

/-- Windows with the same output. -/
def Window.SameOutput (w v : Window) : Prop := w.output = v.output

/-- Windows that show the same. -/
def Window.SameView (w v : Window) : Prop := w.view = v.view

/-- Windows that show the same, with the same findings and a part of their sessions in common. -/
structure Window.Alike {γ : Type} (part : Session → γ) (w v : Window) : Prop where
  view : w.SameView v
  ledger : w.session.ledger = v.session.ledger
  part : part w.session = part v.session

namespace WindowStep

open Window

variable {α β γ : Type} {step : WindowStep α} {next : α → WindowStep β}
variable {E R : Window → Window → Prop} {S : α → Window → Window → Prop}
  {T : β → Window → Window → Prop}

/-- The same outcome at two windows: the same answer or the same failure, with a relation between
the windows in each case. -/
inductive Paired (E : Window → Window → Prop) (S : α → Window → Window → Prop) :
    Except Failure α × Window → Except Failure α × Window → Prop where
  | answer (a : α) {w v : Window} (h : S a w v) : Paired E S (.ok a, w) (.ok a, v)
  | failure (f : Failure) {w v : Window} (h : E w v) : Paired E S (.error f, w) (.error f, v)

/-- A step that has the same outcome at windows in a relation `R` and leaves them in a relation `S`,
or in `E` if it fails. -/
def Agrees (E R : Window → Window → Prop) (step : WindowStep α) (S : α → Window → Window → Prop) :
    Prop :=
  ∀ w v, R w v → Paired E S (step.perform w) (step.perform v)

theorem Paired.mono {x y : Except Failure α × Window} (h : Paired E S x y)
    {S' : α → Window → Window → Prop} (hle : ∀ a w v, S a w v → S' a w v) : Paired E S' x y := by
  cases h with
  | answer a hS => exact .answer a (hle a _ _ hS)
  | failure f hE => exact .failure f hE

/-- Windows that are paired are related, whether the steps end or fail. -/
theorem Paired.relates {x y : Except Failure α × Window} (h : Paired E (fun _ => E) x y) :
    E x.2 y.2 := by
  cases h with
  | answer a h => exact h
  | failure f h => exact h

namespace Agrees

/-- Steps that agree, one after the other. -/
theorem bind (hstep : Agrees E R step S) (hnext : ∀ a, Agrees E (S a) (next a) T) :
    Agrees E R (step >>= next) T := by
  intro w v hR
  rw [perform_bind, perform_bind]
  have hpaired := hstep w v hR
  generalize step.perform w = x at hpaired ⊢
  generalize step.perform v = y at hpaired ⊢
  cases hpaired with
  | answer a hS => exact hnext a _ _ hS
  | failure f hE => exact .failure f hE

/-- A step that only reads: what follows has to be the same for both windows. -/
theorem read {f : Window → α}
    (hread : ∀ w v, R w v → step.perform w = (.ok (f w), w) ∧ step.perform v = (.ok (f v), v))
    (hsame : ∀ w v, R w v → next (f w) = next (f v))
    (hnext : ∀ w v, R w v → Agrees E R (next (f w)) T) :
    Agrees E R (step >>= next) T := by
  intro w v hR
  obtain ⟨hw, hv⟩ := hread w v hR
  have hpaired := hnext w v hR w v hR
  rw [perform_bind, perform_bind, hw, hv]
  dsimp only
  rwa [← hsame w v hR]

/-- Steps that agree in either case. -/
theorem ite {c : Prop} [Decidable c] {a b : WindowStep α} (ha : Agrees E R a S)
    (hb : ¬ c → Agrees E R b S) :
    Agrees E R (if c then a else b) S := by
  split
  · exact ha
  · exact hb ‹_›

theorem weaken {Q : Window → Window → Prop} (h : Agrees E R step S) (hle : ∀ w v, Q w v → R w v) :
    Agrees E Q step S :=
  fun w v hQ => h w v (hle w v hQ)

theorem shows {part : Session → γ} (h : Agrees SameView R step fun _ => Alike part) :
    Agrees SameView R step fun _ => SameView :=
  fun w v hR => (h w v hR).mono fun _ _ _ halike => halike.view

end Agrees

/-! ### Steps of the analyses that start afresh -/

section

variable {part : Session → γ}

/-- A step of the output pane agrees where the panes are alike. -/
theorem agrees_display (d : Display Unit) :
    Agrees SameView (Alike part) (display d) fun _ => Alike part := by
  intro w v halike
  have houtput : w.output = v.output := congrArg View.output halike.view
  have hgrid : w.grid.view = v.grid.view := congrArg View.grid halike.view
  rw [perform_display, perform_display, houtput]
  have hview : ({ w with output := (d.perform v.output).2 } : Window).SameView
      { v with output := (d.perform v.output).2 } := by
    simp [SameView, view, hgrid]
  cases (d.perform v.output).1 with
  | ok _ => exact .answer () ⟨hview, halike.ledger, halike.part⟩
  | error f => exact .failure f hview

theorem agrees_say (text : String) : Agrees SameView (Alike part) (say text) fun _ => Alike part :=
  agrees_display _

theorem agrees_box (kind : BoxKind) (title text : String) :
    Agrees SameView (Alike part) (box kind title text) fun _ => Alike part :=
  fun _ _ h => .answer () ⟨h.view, h.ledger, h.part⟩

theorem agrees_ledger : Agrees SameView (Alike part) ledger fun _ => Alike part := by
  intro w v h
  rw [perform_ledger, perform_ledger, h.ledger]
  exact .answer _ h

/-- After a reset two windows are alike. -/
theorem agrees_reset : Agrees SameView R reset fun _ => Alike fun _ => () :=
  fun _ _ _ => .answer () ⟨rfl, rfl, rfl⟩

/-- Both take the tokens of the same text. -/
theorem agrees_tokenize (code : String) :
    Agrees SameView (Alike part) (tokenize code) fun _ => Alike fun _ => () := by
  intro w v h
  exact .answer _ ⟨h.view, by simp [Session.tokenize, h.ledger], rfl⟩

/-- Reading replaces the program of the session. -/
theorem agrees_parse (code : String) :
    Agrees SameView (Alike part) (parse code) fun _ => Alike Session.program := by
  intro w v h
  rw [perform_parse, perform_parse]
  unfold Session.parse
  cases Parsing.ofText [] code with
  | program p log => exact .answer true ⟨h.view, by simp [h.ledger], rfl⟩
  | fault d => exact .answer false ⟨h.view, by simp [h.ledger], rfl⟩
  | aborted f => exact .failure f h.view

/-- An analysis without faults replaces the table of the session. -/
theorem agrees_analyse :
    Agrees SameView (Alike Session.program) analyse fun success =>
      Alike fun s => if success then some s.table else none := by
  intro w v h
  rw [perform_analyse, perform_analyse]
  unfold Session.analyse
  rw [h.part]
  cases v.session.program with
  | none => exact .answer false ⟨h.view, h.ledger, rfl⟩
  | some p =>
    dsimp only
    cases p.analyse with
    | mk outcome findings =>
      cases outcome with
      | error f => exact .failure f h.view
      | ok a => exact .answer a.2 ⟨h.view, by simp [h.ledger], rfl⟩

/-- After an analysis without faults there is a table to go on with. -/
theorem Agrees.checked {success : Bool} {S : α → Window → Window → Prop} (hsuccess : success = true)
    (h : Agrees SameView (Alike Session.table) step S) :
    Agrees SameView (Alike fun s => if success then some s.table else none) step S :=
  h.weaken fun w v halike => ⟨halike.view, halike.ledger, by simpa [hsuccess] using halike.part⟩

/-- Both show the symbols of the same table. -/
theorem agrees_showSymbols :
    Agrees SameView (Alike Session.table) showSymbols fun _ => Alike Session.table := by
  intro w v h
  have houtput : w.output = v.output := congrArg View.output h.view
  obtain ⟨hresult, hfilled⟩ :=
    Grid.fill_of_view (congrArg View.grid h.view) (v.session.table.all.map Symbol.toRecord)
  rw [perform_showSymbols, perform_showSymbols, h.part, hresult]
  have hview : ∀ g g' : Grid, g.view = g'.view →
      ({ w with grid := g } : Window).SameView { v with grid := g' } := by
    intro g g' hg
    simp [SameView, view, houtput, hg]
  cases (v.grid.fill (v.session.table.all.map Symbol.toRecord)).1 with
  | ok _ => exact .answer () ⟨hview _ _ hfilled, h.ledger, h.part⟩
  | error f => exact .failure f (hview _ _ hfilled)

end

/-! ### Steps of the analyses that keep what was shown -/

/-- A display that starts with an empty pane shows the same at all windows. -/
theorem agrees_display_output {d : Display Unit} (hd : ∀ o o', d.perform o = d.perform o') :
    Agrees SameOutput R (display d) fun _ => SameOutput := by
  intro w v _
  rw [perform_display, perform_display, hd w.output v.output]
  cases (d.perform v.output).1 with
  | ok _ => exact .answer () rfl
  | error f => exact .failure f rfl

theorem agrees_say_output (text : String) :
    Agrees SameOutput SameOutput (say text) fun _ => SameOutput := by
  intro w v h
  rw [perform_say, perform_say]
  exact .answer () (congrArg (Output.addLine · Output.plainColor text) h)

/-- After the tokens are taken the lexical findings are those of the text. -/
theorem agrees_tokenize_output (code : String) :
    Agrees SameOutput R (tokenize code) fun _ w v =>
      w.session.ledger.lexical = (Scan.ofText code).diagnostics ∧
        v.session.ledger.lexical = (Scan.ofText code).diagnostics :=
  fun _ _ _ => .answer _ ⟨rfl, rfl⟩

/-- Reading a text that does not abort. -/
theorem agrees_parse_output {code : String} (hcode : ∀ f, Parsing.ofText [] code ≠ .aborted f) :
    Agrees SameOutput R (parse code) fun _ w v =>
      w.session.ledger.syntactic = v.session.ledger.syntactic ∧
      w.session.program = v.session.program := by
  intro w v _
  rw [perform_parse, perform_parse]
  unfold Session.parse
  cases hparsing : Parsing.ofText [] code with
  | program p log => exact .answer true ⟨rfl, rfl⟩
  | fault d =>
    refine .answer false ⟨?_, rfl⟩
    simp only [Ledger.add]
    split <;> rfl
  | aborted f => exact absurd hparsing (hcode f)

/-! ### The analyses -/

/-- A window in which an analysis of a text can be asked for. -/
structure Ready (code : String) (w : Window) : Prop where
  tools : w.tools = ⟨true, true, true⟩
  text : w.document.text = code
  written : Text.allBlank code = false

/-- Two windows with the same text. -/
def BothReady (code : String) (w v : Window) : Prop := Ready code w ∧ Ready code v

/-- A window that is ready has its code. -/
theorem Ready.perform_code? {code : String} {w : Window} (h : Ready code w) :
    code?.perform w = (.ok (some code), w) := by
  rw [WindowStep.perform_code? w (h.text ▸ h.written), h.text]

/-- An analysis that is offered works on the text of the window. -/
theorem agrees_offered {code : String} (offered : Toolset → Bool)
    (hoffered : offered ⟨true, true, true⟩ = true) {warning : String}
    {body : String → WindowStep Unit} {S : Unit → Window → Window → Prop}
    (hbody : Agrees E (BothReady code) (body code) S) :
    Agrees E (BothReady code) (do
      let tools := (← get).tools
      if !offered tools then warn warning
      else match ← code? with
        | none => return
        | some code => body code) S := by
  refine Agrees.read (fun _ _ _ => ⟨perform_get _, perform_get _⟩) ?_ ?_
  · intro w v ⟨hw, hv⟩
    dsimp only
    rw [hw.tools, hv.tools]
  intro w v ⟨hw, _⟩
  dsimp only
  rw [hw.tools, hoffered]
  exact Agrees.read (f := fun _ => some code)
    (fun _ _ ⟨hw, hv⟩ => ⟨hw.perform_code?, hv.perform_code?⟩) (fun _ _ _ => rfl) fun _ _ _ => hbody

/-- The lexical analysis of a text shows the same in any two windows. -/
theorem agrees_lexical {code : String} :
    Agrees SameOutput (BothReady code) lexical fun _ => SameOutput := by
  refine agrees_offered Toolset.lexical rfl ?_
  refine (agrees_tokenize_output code).bind fun tokens => ?_
  -- The ledgers may differ in the findings of other stages, which are not read.
  refine Agrees.read (fun w v _ => ⟨perform_ledger w, perform_ledger v⟩) (fun w v h => ?_)
    fun w v _ => ?_
  · dsimp only
    rw [h.1, h.2]
  · refine Agrees.ite ?_ fun _ => agrees_display_output fun _ _ => rfl
    exact (agrees_display_output fun _ _ => rfl).bind fun _ => agrees_say_output _

/-- So does the syntactic analysis, unless parsing is given up. -/
theorem agrees_syntactic {code : String}
    (hcode : (Scan.ofText code).diagnostics = [] → ∀ f, Parsing.ofText [] code ≠ .aborted f) :
    Agrees SameOutput (BothReady code) syntactic fun _ => SameOutput := by
  refine agrees_offered (fun tools => tools.lexical && tools.syntactic) rfl ?_
  refine (agrees_tokenize_output code).bind fun tokens => ?_
  refine Agrees.read (fun w v _ => ⟨perform_ledger w, perform_ledger v⟩) (fun w v h => ?_)
    fun w v h => ?_
  · dsimp only
    rw [h.1, h.2]
  refine Agrees.ite (agrees_display_output fun _ _ => rfl) fun hfound => ?_
  have hscan : (Scan.ofText code).diagnostics = [] := by simpa [h.1] using hfound
  refine (agrees_parse_output (hcode hscan)).bind fun _ => ?_
  refine Agrees.read (fun w v _ => ⟨perform_ledger w, perform_ledger v⟩) (fun w v h => ?_)
    fun w v _ => ?_
  · dsimp only
    rw [h.1]
  refine Agrees.ite (agrees_display_output fun _ _ => rfl) fun _ => ?_
  refine Agrees.read (fun w v _ => ⟨perform_get w, perform_get v⟩) (fun w v h => ?_) fun w v _ => ?_
  · rw [Session.outline?, Session.outline?, h.2]
  · exact (agrees_display_output fun _ _ => rfl).bind fun _ => agrees_say_output _

/-- So does the semantic analysis. -/
theorem agrees_semantic {code : String} :
    Agrees SameView (BothReady code) semantic fun _ => SameView := by
  refine agrees_offered Toolset.complete rfl ?_
  refine agrees_reset.bind fun _ => (agrees_say _).bind fun _ => (agrees_say _).bind fun _ => ?_
  refine (agrees_tokenize code).bind fun _ => agrees_ledger.bind fun found => ?_
  refine Agrees.ite (agrees_display _).shows fun _ => (agrees_say _).bind fun _ => ?_
  refine (agrees_parse code).bind fun read => agrees_ledger.bind fun found => ?_
  refine Agrees.ite (agrees_display _).shows fun _ => (agrees_say _).bind fun _ => ?_
  refine agrees_analyse.bind fun success => agrees_ledger.bind fun found => ?_
  refine Agrees.ite (agrees_display _).shows fun hfound => ?_
  refine Agrees.checked (by cases success <;> simp_all) (agrees_showSymbols.bind fun _ => ?_)
  exact Agrees.bind (fun w v h => .answer () ⟨h.view, h.ledger, h.part⟩) fun _ =>
    (agrees_say _).shows

/-- So does the full analysis. -/
theorem agrees_full {code : String} :
    Agrees SameView (BothReady code) full fun _ => SameView := by
  refine agrees_offered Toolset.complete rfl ?_
  refine agrees_reset.bind fun _ => (agrees_say _).bind fun _ => (agrees_say _).bind fun _ => ?_
  refine (agrees_tokenize code).bind fun tokens => agrees_ledger.bind fun found => ?_
  refine Agrees.ite (agrees_display _).shows fun _ => (agrees_say _).bind fun _ => ?_
  refine (agrees_say _).bind fun _ => (agrees_say _).bind fun _ => ?_
  refine (agrees_parse code).bind fun read => agrees_ledger.bind fun found => ?_
  refine Agrees.ite (agrees_display _).shows fun _ => (agrees_say _).bind fun _ =>
    (agrees_say _).bind fun _ => ?_
  refine agrees_analyse.bind fun success => agrees_ledger.bind fun found => ?_
  refine Agrees.ite (agrees_display _).shows fun hfound => ?_
  refine Agrees.checked (by cases success <;> simp_all) (agrees_showSymbols.bind fun _ => ?_)
  exact (agrees_say _).bind fun _ => (agrees_say _).bind fun _ => (agrees_box _ _ _).shows

/-! ### Where an analysis gets to -/

/-- The syntactic analysis of a text that aborts the reader stops before it shows anything. -/
theorem syntactic_aborted {code : String} {w : Window} (h : Ready code w) {f : Failure}
    (hscan : (Scan.ofText code).diagnostics = []) (hparsing : Parsing.ofText [] code = .aborted f) :
    ∃ w', syntactic.perform w = (.error f, w') ∧ w'.output = w.output := by
  refine ⟨{ w with session := ((w.session.tokenize code).parse [] code).2 }, ?_, rfl⟩
  simp [syntactic, h.tools, h.perform_code?, Session.tokenize, hscan, Session.parse, hparsing]

/-- The grid gets rows exactly if the text passes all analyses. -/
theorem rows_pos_iff {step : WindowStep Unit} (hstep : step = semantic ∨ step = full)
    {code : String} {w : Window} (h : Ready code w) :
    0 < (step.perform w).2.grid.rows ↔ Session.Passes code := by
  have htools : w.tools.complete = true := by rw [h.tools]; rfl
  rw [Session.passes_iff]
  cases hscan : (Scan.ofText code).diagnostics with
  | cons d ds =>
    obtain rfl | rfl := hstep <;>
      simp [semantic, full, htools, h.perform_code?, Session.tokenize, hscan, Grid.wipe]
  | nil =>
    cases hreading : Reading.ofText code with
    | aborted f =>
      have hparse (s : Session) : (s.parse [] code).1 = .error f := by
        simp [Session.parse, Parsing.ofText, hreading]
      obtain rfl | rfl := hstep <;>
        simp [semantic, full, htools, h.perform_code?, Session.tokenize, hscan, hparse, Grid.wipe]
    | fault f =>
      have hparse (s : Session) : (s.parse [] code).1 = .ok false := by
        simp [Session.parse, Parsing.ofText, hreading]
      obtain rfl | rfl := hstep <;>
        simp [semantic, full, htools, h.perform_code?, Session.tokenize, hscan, hparse, Grid.wipe]
    | program p log =>
      obtain ⟨lines, hanalyse⟩ := Reading.analyse_eq hreading
      have hparse (s : Session) : s.parse [] code =
          (.ok true,
            { s with program := some p, ledger := { s.ledger with syntactic := [] } }) := by
        simp [Session.parse, Parsing.ofText, hreading]
      cases hfaults : p.walk.faults with
      | cons f fs =>
        obtain rfl | rfl := hstep <;>
          simp [semantic, full, htools, h.perform_code?, Session.tokenize, hscan, hparse,
            Session.analyse, hanalyse, hfaults, Grid.wipe]
      | nil =>
        -- What is filled has rows, whether or not all symbols can be shown.
        have hrows := Grid.rows_fill_pos (g := w.grid.wipe) (p.walk.table.all.map Symbol.toRecord)
        cases hresult : (w.grid.wipe.fill (p.walk.table.all.map Symbol.toRecord)).1 <;>
          obtain rfl | rfl := hstep <;>
          simp [semantic, full, htools, h.perform_code?, Session.tokenize, hscan, hparse,
            Session.analyse, hanalyse, hfaults, hresult, hrows]

end WindowStep

/-! ## Actions -/

/-- The actions that analyse the text. -/
def Action.isAnalysis : Action → Bool
  | .lexical | .syntactic | .semantic | .full => true
  | .edit _ | .newFile .. | .openFile .. | .save _ | .saveAs _ | .about _ | .inspect => false

namespace Window

/-- A window with all tools, after any events. -/
def Reached (w : Window) : Prop :=
  ∃ colors folder events, w = (start ⟨true, true, true⟩ colors folder).run events

/-- A window that is reached is ready for its text. -/
theorem Reached.ready {w : Window} (h : Reached w) {code : String} (htext : w.document.text = code)
    (hcode : Text.allBlank code = false) : WindowStep.Ready code { w with boxes := [] } := by
  obtain ⟨colors, folder, events, rfl⟩ := h
  exact ⟨tools_run _ events, htext, hcode⟩

section

variable {w v : Window} {code : String}

/-- An action of two windows relates them if its step agrees. -/
theorem relates_act {E : Window → Window → Prop} {a : Action} {step : WindowStep Unit}
    (hact : WindowStep.act a = do step; return none)
    (hstep : WindowStep.Agrees E (WindowStep.BothReady code) step fun _ => E)
    (hready : WindowStep.BothReady code { w with boxes := [] } { v with boxes := [] }) :
    E (w.act a).2 (v.act a).2 := by
  rw [act, act, hact, WindowStep.state_return, WindowStep.state_return]
  exact (hstep _ _ hready).relates

/-- The grids after an analysis that starts afresh. -/
theorem grids_act {a : Action} {step : WindowStep Unit}
    (hact : WindowStep.act a = do step; return none)
    (hrows : step = WindowStep.semantic ∨ step = WindowStep.full)
    (hready : WindowStep.BothReady code { w with boxes := [] } { v with boxes := [] })
    (hview : (w.act a).2.SameView (v.act a).2) :
    (w.act a).2.grid.rows = (v.act a).2.grid.rows ∧
      (w.act a).2.grid.cells = (v.act a).2.grid.cells ∧
      (0 < (w.act a).2.grid.rows ↔ Session.Passes code) := by
  obtain ⟨hsame, hcells⟩ := Grid.view_eq_iff.mp (congrArg View.grid hview)
  refine ⟨hsame, hcells, ?_⟩
  rw [act, hact, WindowStep.state_return]
  exact WindowStep.rows_pos_iff hrows hready.1

end

/-- What an analysis shows is settled by the text, whatever was done before. Only the syntactic
analysis of a text on which the reader chokes stops and leaves the output as it was. The grid of a
semantic or full analysis is settled by the text as well, and has rows exactly if the text passes
all analyses. -/
theorem analysis_view {a : Action} (ha : a.isAnalysis = true) {w v : Window} (hw : Reached w)
    (hv : Reached v) {code : String} (hwcode : w.document.text = code)
    (hvcode : v.document.text = code) (hcode : Text.allBlank code = false) :
    (¬ (a = .syntactic ∧ (Scan.ofText code).Stalls) → (w.act a).2.output = (v.act a).2.output) ∧
    (a = .syntactic ∧ (Scan.ofText code).Stalls →
      (w.act a).1.isOk = false ∧ (w.act a).2.output = w.output) ∧
    (a = .semantic ∨ a = .full →
      (w.act a).2.grid.rows = (v.act a).2.grid.rows ∧
      (w.act a).2.grid.cells = (v.act a).2.grid.cells ∧
        (0 < (w.act a).2.grid.rows ↔ Session.Passes code)) := by
  have hready : WindowStep.BothReady code { w with boxes := [] } { v with boxes := [] } :=
    ⟨hw.ready hwcode hcode, hv.ready hvcode hcode⟩
  cases a with
  | lexical =>
    refine ⟨fun _ => ?_, by simp, by simp⟩
    exact relates_act rfl WindowStep.agrees_lexical hready
  | syntactic =>
    refine ⟨fun hstalls => ?_, fun ⟨_, hstray, hchokes⟩ => ?_, by simp⟩
    · refine relates_act rfl (WindowStep.agrees_syntactic fun hscan f hparsing =>
        hstalls ⟨rfl, ?_⟩) hready
      exact ⟨Scan.diagnostics_eq_nil_iff.mp hscan, Parsing.exists_aborted_iff.mp ⟨f, hparsing⟩⟩
    · obtain ⟨f, hparsing⟩ := Parsing.exists_aborted_iff.mpr hchokes
      obtain ⟨w', hperform, houtput⟩ :=
        WindowStep.syntactic_aborted hready.1 (Scan.diagnostics_eq_nil_iff.mpr hstray) hparsing
      rw [act, WindowStep.act, WindowStep.perform_bind, hperform]
      exact ⟨rfl, houtput⟩
  | semantic =>
    have hview : (w.act .semantic).2.SameView (v.act .semantic).2 :=
      relates_act rfl WindowStep.agrees_semantic hready
    exact ⟨fun _ => congrArg View.output hview, by simp,
      fun _ => grids_act rfl (.inl rfl) hready hview⟩
  | full =>
    have hview : (w.act .full).2.SameView (v.act .full).2 :=
      relates_act rfl WindowStep.agrees_full hready
    exact ⟨fun _ => congrArg View.output hview, by simp,
      fun _ => grids_act rfl (.inr rfl) hready hview⟩
  | edit _ => cases ha
  | newFile _ _ => cases ha
  | openFile _ _ _ => cases ha
  | save _ => cases ha
  | saveAs _ => cases ha
  | about => cases ha
  | inspect => cases ha

/-- A window into which a text is typed after some events. -/
def typed (events : List Event) (text : String) : Window :=
  (start ⟨true, true, true⟩ true ⟨[], []⟩).run (events ++ [.act (.edit text)])

/-- A window into which a text was typed is reached. -/
theorem reached_typed (events : List Event) (text : String) : Reached (typed events text) :=
  ⟨_, _, _, rfl⟩

theorem text_typed (events : List Event) (text : String) :
    (typed events text).document.text = text := by
  rw [typed, run, List.foldl_append]
  rfl

/-- A full analysis of a text that was just typed, and of one that replaces a text with faults. -/
theorem analysis_view_repaired :
    let w := typed [] "ent x ;"
    let v := typed [.act (.edit "ent x , x ;"), .act .full] "ent x ;"
    (Action.full.isAnalysis = true ∧ Reached w ∧ Reached v ∧ w.document.text = "ent x ;" ∧
      v.document.text = "ent x ;" ∧ Text.allBlank "ent x ;" = false) ∧
    (w.act .full).2.output = (v.act .full).2.output ∧ (w.act .full).2.grid.rows =
      (v.act .full).2.grid.rows ∧ (0 < (w.act .full).2.grid.rows ↔ Session.Passes "ent x ;") := by
  have hw := reached_typed [] "ent x ;"
  have hv := reached_typed [.act (.edit "ent x , x ;"), .act .full] "ent x ;"
  have hcode : Text.allBlank "ent x ;" = false := by decide +kernel
  obtain ⟨houtput, -, hgrid⟩ :=
    analysis_view (a := .full) rfl hw hv (text_typed _ _) (text_typed _ _) hcode
  obtain ⟨hrows, -, hpasses⟩ := hgrid (.inr rfl)
  exact ⟨⟨rfl, hw, hv, text_typed _ _, text_typed _ _, hcode⟩, houtput (by simp), hrows, hpasses⟩

/-- After the syntactic analysis of a text that stalls the output is what an earlier analysis
showed. -/
theorem syntactic_stalled :
    let w := typed [] "x = a && ;"
    let v := typed [.act (.edit "x"), .act .lexical] "x = a && ;"
    w.document.text = v.document.text ∧
      (w.act .syntactic).2.output ≠ (v.act .syntactic).2.output := by
  decide +kernel

end Window

end Analizador
