import Analizador.Window

/-! # Runs of a window

What happens to a window is a list of events: actions, and changes of the files by others. An action
that shows something about the text leaves the document, the title and the files alone. The other
actions change them by deeds, and the deeds of a run are its trail. -/

namespace Analizador

namespace WindowStep

variable {α β : Type} (w : Window)

/-! ## Performing steps -/

/-- One step after the other, unless the first fails. -/
@[simp] theorem perform_bind (step : WindowStep α) (next : α → WindowStep β) :
    (step >>= next).perform w =
      match step.perform w with
      | (.ok a, w') => (next a).perform w'
      | (.error f, w') => (.error f, w') := by
  change (match step.perform w with | (a, w') => (ExceptT.bindCont next a).run w') = _
  cases step.perform w with
  | mk a w' => cases a <;> rfl

@[simp] theorem perform_pure (a : α) : (pure a : WindowStep α).perform w = (.ok a, w) := rfl

/-- What is made of an answer leaves the window alone. -/
theorem state_return (step : WindowStep α) (f : α → β) :
    ((do return f (← step) : WindowStep β).perform w).2 = (step.perform w).2 := by
  rw [perform_bind]
  cases step.perform w with
  | mk result w' => cases result <;> rfl

@[simp] theorem perform_get : (get : WindowStep Window).perform w = (.ok w, w) := rfl

@[simp] theorem perform_modify (f : Window → Window) :
    (modify f : WindowStep Unit).perform w = (.ok (), f w) := rfl

/-- A box is shown after the boxes before it. -/
@[simp] theorem perform_box (kind : BoxKind) (title text : String) :
    (box kind title text).perform w =
      (.ok (), { w with boxes := w.boxes ++ [⟨kind, title, text⟩] }) := rfl

/-- A step of the output pane happens in the pane of the window. -/
@[simp] theorem perform_display (step : Display Unit) :
    (display step).perform w =
      ((step.perform w.output).1, { w with output := (step.perform w.output).2 }) := rfl

/-- A text is added to the output pane. -/
@[simp] theorem perform_say (text : String) :
    (say text).perform w = (.ok (), { w with output := w.output.addLine Output.plainColor text }) :=
  rfl

/-- The tokens of a text are taken in the session of the window. -/
@[simp] theorem perform_tokenize (code : String) :
    (tokenize code).perform w =
      (.ok (Scan.ofText code).tokens, { w with session := w.session.tokenize code }) := rfl

/-- A text is parsed in the session of the window. -/
@[simp] theorem perform_parse (code : String) :
    (parse code).perform w =
      ((w.session.parse [] code).1, { w with session := (w.session.parse [] code).2 }) := rfl

/-- The program of the session is analysed. -/
@[simp] theorem perform_analyse :
    analyse.perform w = (w.session.analyse.1, { w with session := w.session.analyse.2.2 }) := rfl

@[simp] theorem perform_ledger : ledger.perform w = (.ok w.session.ledger, w) := rfl

/-- A reset empties the output, the grid and the ledger. -/
@[simp] theorem perform_reset :
    reset.perform w = (.ok (), { w with
      output := ⟨[]⟩, grid := w.grid.wipe, session := { w.session with ledger := .empty } }) := rfl

/-- The grid is filled with the records of the table. -/
@[simp] theorem perform_showSymbols :
    let filled := w.grid.fill (w.session.table.all.map Symbol.toRecord)
    showSymbols.perform w = (filled.1, { w with grid := filled.2 }) := rfl

/-- A document that is not blank is the code that is analysed. -/
theorem perform_code? (h : Text.allBlank w.document.text = false) :
    code?.perform w = (.ok (some w.document.text), w) := by
  simp [code?, h]

end WindowStep

/-! ## What a window shows and what it works on -/

/-- What a window works on: its tools, the document, the files, and how it is called. -/
structure Window.Frame where
  tools : Toolset
  colors : Bool
  document : Document
  title : String
  file : Option String
  folder : Folder

/-- The frame of a window. -/
def Window.frame (w : Window) : Frame := ⟨w.tools, w.colors, w.document, w.title, w.file, w.folder⟩

namespace WindowStep

variable {α β : Type} {step : WindowStep α} {next : α → WindowStep β}

/-- A step that changes nothing but what is shown. -/
def Framed (step : WindowStep α) : Prop := ∀ w, (step.perform w).2.frame = w.frame

/-- Steps that keep the frame, one after the other. -/
theorem Framed.bind (hstep : step.Framed) (hnext : ∀ a, (next a).Framed) :
    (step >>= next).Framed := by
  intro w
  have hfirst := hstep w
  rw [perform_bind]
  cases hperform : step.perform w with
  | mk result w' =>
    rw [hperform] at hfirst
    cases result with
    | error f => exact hfirst
    | ok a => exact (hnext a w').trans hfirst

theorem framed_pure (a : α) : (pure a : WindowStep α).Framed := fun _ => rfl

theorem framed_throw (f : Failure) : (throw f : WindowStep α).Framed := fun _ => rfl

theorem framed_liftM (a : Except Failure α) : (liftM a : WindowStep α).Framed := fun _ => rfl

theorem framed_get : (get : WindowStep Window).Framed := fun _ => rfl

theorem framed_box (kind : BoxKind) (title text : String) : (box kind title text).Framed :=
  fun _ => rfl

theorem framed_display (step : Display Unit) : (display step).Framed := fun _ => rfl

theorem framed_say (text : String) : (say text).Framed := framed_display _

/-- A loop over steps that keep the frame. -/
theorem framed_forM {f : α → WindowStep Unit} (hf : ∀ a, (f a).Framed) (items : List α) :
    (items.forM f).Framed := by
  induction items with
  | nil => exact framed_pure ()
  | cons a items ih => exact (hf a).bind fun _ => ih

theorem framed_tokenize (code : String) : (tokenize code).Framed := fun _ => rfl

theorem framed_parse (code : String) : (parse code).Framed := fun _ => rfl

theorem framed_analyse : analyse.Framed := fun _ => rfl

theorem framed_ledger : ledger.Framed := fun _ => rfl

theorem framed_showSymbols : showSymbols.Framed := fun _ => rfl

theorem framed_reset : reset.Framed := fun _ => rfl

/-- Either of two steps that keep the frame. -/
theorem Framed.ite {c : Prop} [Decidable c] {a b : WindowStep α} (ha : a.Framed) (hb : b.Framed) :
    (if c then a else b).Framed := by
  split <;> assumption

/-- A step that is done on a condition, before others. -/
theorem Framed.optional {c : Prop} [Decidable c] {step : WindowStep PUnit}
    {rest : PUnit → WindowStep α} (hstep : step.Framed) (hrest : ∀ u, (rest u).Framed) :
    (if c then step >>= rest else rest ⟨⟩).Framed :=
  .ite (hstep.bind hrest) (hrest ⟨⟩)

/-- What is done with the edited text, if there is more than blanks. -/
theorem Framed.onText {body : String → WindowStep Unit} (hbody : ∀ code, (body code).Framed) :
    (do match ← code? with | none => return | some code => body code : WindowStep Unit).Framed := by
  have hcode : code?.Framed :=
    framed_get.bind fun _ => .ite ((framed_box _ _ _).bind fun _ => framed_pure _) (framed_pure _)
  refine hcode.bind fun code => ?_
  cases code with
  | none => exact framed_pure _
  | some code => exact hbody code

theorem framed_lexical : lexical.Framed := by
  refine framed_get.bind fun w => .ite (framed_box _ _ _) (.onText fun code => ?_)
  refine (framed_tokenize code).bind fun _ => framed_ledger.bind fun found => ?_
  exact .ite ((framed_display _).bind fun _ => framed_say _) (framed_display _)

theorem framed_syntactic : syntactic.Framed := by
  refine framed_get.bind fun w => .ite (framed_box _ _ _) (.onText fun code => ?_)
  refine (framed_tokenize code).bind fun _ => framed_ledger.bind fun found => ?_
  refine .ite (framed_display _)
    ((framed_parse code).bind fun _ => framed_ledger.bind fun found => ?_)
  refine .ite (framed_display _) (framed_get.bind fun _ => ?_)
  exact (framed_display _).bind fun _ => framed_say _

theorem framed_semantic : semantic.Framed := by
  refine framed_get.bind fun w => .ite (framed_box _ _ _) (.onText fun code => ?_)
  refine framed_reset.bind fun _ => (framed_say _).bind fun _ => (framed_say _).bind fun _ => ?_
  refine (framed_tokenize code).bind fun _ => framed_ledger.bind fun found =>
    .ite (framed_display _) ?_
  refine (framed_say _).bind fun _ => (framed_parse code).bind fun _ =>
    framed_ledger.bind fun found => ?_
  refine .ite (framed_display _) ((framed_say _).bind fun _ => framed_analyse.bind fun _ => ?_)
  refine framed_ledger.bind fun found =>
    .ite (framed_display _) (framed_showSymbols.bind fun _ => ?_)
  exact Framed.bind (fun _ => rfl) fun _ => framed_say _

/-- The full analysis is made of steps that keep the frame. -/
theorem framed_full : full.Framed := by
  refine framed_get.bind fun w => .ite (framed_box _ _ _) (.onText fun code => ?_)
  refine framed_reset.bind fun _ => (framed_say _).bind fun _ => (framed_say _).bind fun _ => ?_
  refine (framed_tokenize code).bind fun _ => framed_ledger.bind fun found =>
    .ite (framed_display _) ?_
  refine (framed_say _).bind fun _ => (framed_say _).bind fun _ => (framed_say _).bind fun _ => ?_
  refine (framed_parse code).bind fun _ => framed_ledger.bind fun found =>
    .ite (framed_display _) ?_
  refine (framed_say _).bind fun _ => (framed_say _).bind fun _ => framed_analyse.bind fun _ => ?_
  refine framed_ledger.bind fun found =>
    .ite (framed_display _) (framed_showSymbols.bind fun _ => ?_)
  exact (framed_say _).bind fun _ => (framed_say _).bind fun _ => framed_box _ _ _

theorem framed_symbolLines (table : Table String Symbol) :
    (do (← symbolLines table).forM say : WindowStep Unit).Framed :=
  (framed_liftM _).bind (framed_forM framed_say)

theorem framed_inspectState : inspectState.Framed := by
  refine framed_get.bind fun w => (framed_say _).bind fun _ => ?_
  refine (framed_say _).bind fun _ => (framed_say _).bind fun _ => (framed_say _).bind fun _ => ?_
  refine .optional (framed_say _) fun _ => .optional (framed_say _) fun _ => ?_
  exact .ite ((framed_say _).bind fun _ => (framed_say _).bind fun _ => framed_symbolLines _)
    (framed_pure _)

/-- Showing a trial keeps the frame. -/
theorem framed_showTrial (trial : Session) (success : Bool) : (showTrial trial success).Framed := by
  refine (framed_say _).bind fun _ => (framed_say _).bind fun _ =>
    (framed_liftM _).bind fun lines => ?_
  refine (framed_forM framed_say lines).bind fun _ =>
    .ite ((framed_say _).bind fun _ => ?_) (framed_pure _)
  exact framed_forM (fun d => (framed_liftM _).bind fun _ => framed_say _) _

theorem framed_runTrial (code : String) : (runTrial code).Framed := by
  refine framed_get.bind fun w => .optional (framed_throw _) fun _ => ?_
  refine (framed_tokenize code).bind fun _ => framed_get.bind fun w =>
    .optional (framed_throw _) fun _ => ?_
  refine (framed_parse code).bind fun _ => .ite (framed_get.bind fun w => ?_) (framed_say _)
  exact Framed.bind (fun _ => rfl) fun _ => (framed_liftM _).bind fun success =>
    framed_showTrial _ success

/-- The inspection keeps the frame, whatever it shows. -/
theorem framed_inspect : inspect.Framed := by
  refine (framed_display _).bind fun _ => framed_get.bind fun w =>
    .optional (framed_throw _) fun _ => ?_
  refine (framed_display _).bind fun _ => framed_inspectState.bind fun _ =>
    framed_get.bind fun w => ?_
  exact .ite (framed_say _) ((framed_say _).bind fun _ => framed_runTrial _)

end WindowStep

/-- The actions that show something about the text. -/
def Action.isView : Action → Bool
  | .lexical | .syntactic | .semantic | .full | .about _ | .inspect => true
  | .edit _ | .newFile .. | .openFile .. | .save _ | .saveAs _ => false

namespace Window

/-- An action that shows something leaves the document and its files alone. -/
theorem frame_act {a : Action} (h : a.isView = true) (w : Window) :
    (w.act a).2.frame = w.frame := by
  have hframed {step : WindowStep Unit} (hstep : step.Framed) :
      ((do step; return none : WindowStep (Option Bool)).perform { w with boxes := [] }).2.frame =
      w.frame :=
    hstep.bind (fun _ => WindowStep.framed_pure none) { w with boxes := [] }
  cases a with
  | lexical => exact hframed WindowStep.framed_lexical
  | syntactic => exact hframed WindowStep.framed_syntactic
  | semantic => exact hframed WindowStep.framed_semantic
  | full => exact hframed WindowStep.framed_full
  | about => exact hframed (WindowStep.framed_box _ _ _)
  | inspect => exact hframed WindowStep.framed_inspect
  | edit _ => cases h
  | newFile _ _ => cases h
  | openFile _ _ _ => cases h
  | save _ => cases h
  | saveAs _ => cases h

/-! ## What is done to the document and its files -/

/-- What is done to a document and its files. -/
inductive Deed where
  | edited (text : String)
  /-- A path was given, and the text was written there. -/
  | savedAs (path : String) (folder : Folder)
  /-- A path was given, and the text could not be written there. -/
  | misnamed (path : String)
  /-- The text was written without a path being asked for. -/
  | saved (path : String) (folder : Folder)
  | cleared
  | opened (path text : String)

/-- Whether the text was written. -/
def Deed.isWrite : Deed → Bool
  | savedAs .. | saved .. => true
  | edited _ | misnamed _ | cleared | opened .. => false

namespace Frame

variable (f : Frame)

/-- The frame after a deed. Only paths that are given become the file that saving writes to. -/
def apply : Deed → Frame
  | .edited text => { f with document := ⟨text, true⟩ }
  | .savedAs path folder =>
    { f with file := some path, title := fileTitle path, folder, document :=
      { f.document with modified := false } }
  | .misnamed path => { f with file := some path, title := fileTitle path }
  | .saved _ folder => { f with folder, document := { f.document with modified := false } }
  | .cleared => { f with document := ⟨"", false⟩, title := plainTitle }
  | .opened path text => { f with document := ⟨text, false⟩, title := fileTitle path }

/-- The frame after some deeds. -/
def applyAll (deeds : List Deed) : Frame := deeds.foldl apply f

@[simp] theorem applyAll_nil : f.applyAll [] = f := rfl

@[simp] theorem applyAll_cons (d : Deed) (deeds : List Deed) :
    f.applyAll (d :: deeds) = (f.apply d).applyAll deeds := rfl

/-- Deeds done in two parts. -/
@[simp] theorem applyAll_append (deeds others : List Deed) :
    f.applyAll (deeds ++ others) = (f.applyAll deeds).applyAll others := List.foldl_append

/-- No deed changes the tools. -/
theorem tools_applyAll (deeds : List Deed) : (f.applyAll deeds).tools = f.tools := by
  induction deeds generalizing f with
  | nil => rfl
  | cons d deeds ih =>
    rw [applyAll_cons, ih]
    cases d <;> rfl

/-- What saving under a path does. -/
def saveAsDeeds (path : String) : List Deed :=
  if path.isEmpty then []
  else match f.folder.write path f.document.text with
    | .ok folder => [.savedAs path folder]
    | .error _ => [.misnamed path]

/-- What saving does, with the path given if one is asked for. -/
def saveDeeds (path : String) : List Deed :=
  match f.file with
  | some file =>
    match f.folder.write file f.document.text with
    | .ok folder => [.saved file folder]
    | .error _ => []
  | none => f.saveAsDeeds path

/-- What is done about changes before they are lost; nothing follows if the question is cancelled.
-/
def lossDeeds? (reply : Reply) (savePath : String) : Option (List Deed) :=
  if f.document.modified then
    match reply with
    | .save => some (f.saveDeeds savePath)
    | .discard => some []
    | .cancel => none
  else some []

/-- What opening a path does. -/
def openDeeds (path : String) : List Deed :=
  if path.isEmpty then []
  else match f.folder.read path with
    | .ok text => [.opened path text]
    | .error _ => []

/-- What an action does. -/
def deeds : Action → List Deed
  | .edit text => [.edited text]
  | .newFile reply savePath =>
    match f.lossDeeds? reply savePath with
    | some before => before ++ [.cleared]
    | none => []
  | .openFile reply savePath openPath =>
    match f.lossDeeds? reply savePath with
    | some before => before ++ (f.applyAll before).openDeeds openPath
    | none => []
  | .save savePath => f.saveDeeds savePath
  | .saveAs savePath => f.saveAsDeeds savePath
  | .lexical | .syntactic | .semantic | .full | .about _ | .inspect => []

end Frame

end Window

namespace WindowStep

variable (w : Window)

/-- Writing to a path always has an answer. -/
theorem perform_writeTo (path : String) :
    (writeTo path).perform w =
      match w.folder.write path w.document.text with
      | .ok folder =>
        (.ok true, { w with folder, document := { w.document with modified := false } })
      | .error f => (.ok false,
          { w with boxes := w.boxes ++
            [⟨.critical, "Error", s!"Error al guardar el archivo: {f.message}"⟩] }) := by
  rw [writeTo, perform_bind, perform_get]
  dsimp only
  cases w.folder.write path w.document.text <;> rfl

/-- A file is saved under a new name, unless no name is given. -/
theorem perform_saveAs (path : String) :
    (saveAs path).perform w =
      if path.isEmpty then (.ok false, w)
      else (writeTo path).perform { w with file := some path, title := Window.fileTitle path } := by
  unfold saveAs
  split <;> rfl

/-- A file with a name is saved under it; one without gets a name first. -/
theorem perform_save (path : String) :
    (save path).perform w =
      match w.file with
      | some file => (writeTo file).perform w
      | none => (saveAs path).perform w := by
  rw [save, perform_bind, perform_get]
  dsimp only
  cases w.file <;> rfl

/-- Saving under a path does its deeds and says whether the text was written. -/
theorem exists_perform_saveAs (path : String) :
    ∃ w', (saveAs path).perform w = (.ok ((w.frame.saveAsDeeds path).any Window.Deed.isWrite), w') ∧
      w'.frame = w.frame.applyAll (w.frame.saveAsDeeds path) := by
  rw [perform_saveAs, Window.Frame.saveAsDeeds]
  cases path.isEmpty with
  | true => exact ⟨w, rfl, rfl⟩
  | false =>
    simp only [Bool.false_eq_true, ↓reduceIte, perform_writeTo, Window.frame]
    cases w.folder.write path w.document.text with
    | ok folder => exact ⟨_, rfl, rfl⟩
    | error f => exact ⟨_, rfl, rfl⟩

/-- Saving does its deeds to the frame, and answers whether the file is written. -/
theorem exists_perform_save (path : String) :
    ∃ w', (save path).perform w = (.ok ((w.frame.saveDeeds path).any Window.Deed.isWrite), w') ∧
      w'.frame = w.frame.applyAll (w.frame.saveDeeds path) := by
  rw [perform_save, Window.Frame.saveDeeds, show w.frame.file = w.file from rfl]
  cases w.file with
  | none => exact exists_perform_saveAs w path
  | some file =>
    simp only [perform_writeTo, Window.frame]
    cases w.folder.write file w.document.text with
    | ok folder => exact ⟨_, rfl, rfl⟩
    | error f => exact ⟨_, rfl, rfl⟩

/-- Unless the question is cancelled, the action goes on, whether or not the text was saved. -/
theorem exists_perform_confirmLoss (question : String) (reply : Reply) (savePath : String) :
    ∃ w', (confirmLoss question reply savePath).perform w =
      (.ok (w.frame.lossDeeds? reply savePath).isSome, w') ∧
      w'.frame = w.frame.applyAll ((w.frame.lossDeeds? reply savePath).getD []) := by
  unfold confirmLoss Window.Frame.lossDeeds?
  rw [perform_bind, perform_get, show w.frame.document = w.document from rfl]
  cases hmodified : w.document.modified with
  | false => exact ⟨w, by simp [hmodified], rfl⟩
  | true =>
    simp only [hmodified, ↓reduceIte, perform_bind, perform_box]
    cases reply with
    | discard => exact ⟨_, rfl, rfl⟩
    | cancel => exact ⟨_, rfl, rfl⟩
    | save =>
      obtain ⟨w', hsave, hframe⟩ := exists_perform_save { w with boxes := w.boxes ++
        [⟨.question, "Guardar cambios", question⟩] } savePath
      exact ⟨w', by rw [perform_bind, hsave]; rfl, hframe⟩

/-- A new file does its deeds to the frame. -/
theorem frame_newFile (reply : Reply) (savePath : String) :
    ((newFile reply savePath).perform w).2.frame =
      w.frame.applyAll (w.frame.deeds (.newFile reply savePath)) := by
  obtain ⟨w', hconfirm, hframe⟩ := exists_perform_confirmLoss w
    "¿Desea guardar los cambios antes de crear un nuevo archivo?" reply savePath
  rw [newFile, perform_bind, hconfirm, Window.Frame.deeds]
  cases hloss : w.frame.lossDeeds? reply savePath with
  | none => simpa [hloss] using hframe
  | some before =>
    have hbefore : w'.frame = w.frame.applyAll before := by simpa [hloss] using hframe
    rw [Window.Frame.applyAll_append, ← hbefore]
    rfl

/-- Opening a file does its deeds to the frame. -/
theorem frame_openFile (reply : Reply) (savePath openPath : String) :
    ((openFile reply savePath openPath).perform w).2.frame =
      w.frame.applyAll (w.frame.deeds (.openFile reply savePath openPath)) := by
  obtain ⟨w', hconfirm, hframe⟩ := exists_perform_confirmLoss w
    "¿Desea guardar los cambios antes de abrir un archivo?" reply savePath
  rw [openFile, perform_bind, hconfirm, Window.Frame.deeds]
  cases hloss : w.frame.lossDeeds? reply savePath with
  | none => simpa [hloss] using hframe
  | some before =>
    have hbefore : w'.frame = w.frame.applyAll before := by simpa [hloss] using hframe
    simp only [Window.Frame.applyAll_append, ← hbefore, Window.Frame.openDeeds, Option.isSome_some,
      ↓reduceIte]
    cases hpath : openPath.isEmpty with
    | true => rfl
    | false =>
      simp only [Bool.not_false, ↓reduceIte, perform_bind, perform_get, Window.frame]
      cases w'.folder.read openPath with
      | ok text => rfl
      | error f => rfl

end WindowStep

namespace Window

/-- Every action works on the document and its files by its deeds alone. -/
theorem frame_act_eq (w : Window) (a : Action) :
    (w.act a).2.frame = w.frame.applyAll (w.frame.deeds a) := by
  by_cases hview : a.isView = true
  · rw [frame_act hview w]
    cases a <;> first | rfl | cases hview
  · cases a with
    | edit text => rfl
    | newFile reply savePath =>
      exact (congrArg frame (WindowStep.state_return _ _ _)).trans
        (WindowStep.frame_newFile _ reply savePath)
    | openFile reply savePath openPath =>
      exact (congrArg frame (WindowStep.state_return _ _ _)).trans
        (WindowStep.frame_openFile _ reply savePath openPath)
    | save savePath =>
      obtain ⟨w', hsave, hframe⟩ := WindowStep.exists_perform_save { w with boxes := [] } savePath
      refine (congrArg frame (WindowStep.state_return _ _ _)).trans ?_
      rw [hsave]
      exact hframe
    | saveAs savePath =>
      obtain ⟨w', hsave, hframe⟩ := WindowStep.exists_perform_saveAs { w with boxes := [] } savePath
      refine (congrArg frame (WindowStep.state_return _ _ _)).trans ?_
      rw [hsave]
      exact hframe
    | _ => exact absurd rfl hview

/-- What happens to a window: the user acts, or the files are changed by others. -/
inductive Event where
  | act (a : Action)
  | disk (folder : Folder)

/-- The window after an event. -/
def after (w : Window) : Event → Window
  | .act a => (w.act a).2
  | .disk folder => { w with folder }

/-- The window after some events. -/
def run (w : Window) (events : List Event) : Window := events.foldl after w

/-- What events do. -/
def trail (w : Window) : List Event → List Deed
  | [] => []
  | .act a :: events => w.frame.deeds a ++ (w.act a).2.trail events
  | .disk folder :: events => ({ w with folder } : Window).trail events

theorem tools_after (w : Window) (e : Event) : (w.after e).tools = w.tools := by
  cases e with
  | act a => exact (congrArg Frame.tools (w.frame_act_eq a)).trans (w.frame.tools_applyAll _)
  | disk folder => rfl

/-- No event changes the tools. -/
theorem tools_run (w : Window) (events : List Event) : (w.run events).tools = w.tools := by
  induction events generalizing w with
  | nil => rfl
  | cons e events ih => exact (ih (w.after e)).trans (w.tools_after e)

end Window

end Analizador
