import Mathlib.Data.List.Induction
import Analizador.Proofs.Window

/-! # The file of a document

Which file saving writes to, over all runs of a window, and what becomes of unsaved text. Saving
writes to the path that was given last. That is the document's own file as long as no deed leads
astray: starting a new text, opening another file and giving a path that cannot be written do not
change where saving writes. -/

namespace Analizador.Window

namespace Deed

/-- The path that a deed gives to save under. -/
def named? : Deed → Option String
  | savedAs path _ | misnamed path => some path
  | edited _ | saved .. | cleared | opened .. => none

/-- The file that a deed makes the document's own; a new text has none. -/
def owner? : Deed → Option (Option String)
  | savedAs path _ | opened path _ => some (some path)
  | cleared => some none
  | edited _ | misnamed _ | saved .. => none

/-- The title that a deed sets. -/
def title? : Deed → Option String
  | savedAs path _ | misnamed path | opened path _ => some (fileTitle path)
  | cleared => some plainTitle
  | edited _ | saved .. => none

end Deed

/-- The path that was given last. -/
def lastNamed (deeds : List Deed) : Option String := (deeds.filterMap Deed.named?).getLast?

/-- The document's own file: the one opened or saved under a path last, since the last new text. -/
def ownFile (deeds : List Deed) : Option String := (deeds.filterMap Deed.owner?).getLast?.join

/-- The title that was set last. -/
def lastTitle (deeds : List Deed) : Option String := (deeds.filterMap Deed.title?).getLast?

variable {deeds others : List Deed} {d : Deed}

theorem lastNamed_append :
    lastNamed (deeds ++ others) = (lastNamed others).or (lastNamed deeds) := by
  simp [lastNamed, List.getLast?_append]

theorem lastTitle_append :
    lastTitle (deeds ++ others) = (lastTitle others).or (lastTitle deeds) := by
  simp [lastTitle, List.getLast?_append]

@[simp] theorem lastNamed_concat : lastNamed (deeds ++ [d]) = d.named?.or (lastNamed deeds) := by
  rw [lastNamed_append]
  cases h : d.named? <;> simp [lastNamed, h]

@[simp] theorem ownFile_concat : ownFile (deeds ++ [d]) = d.owner?.getD (ownFile deeds) := by
  cases h : d.owner? <;> simp [ownFile, h]

@[simp] theorem lastTitle_concat : lastTitle (deeds ++ [d]) = d.title?.or (lastTitle deeds) := by
  rw [lastTitle_append]
  cases h : d.title? <;> simp [lastTitle, h]

/-! ## Frames after deeds -/

namespace Frame

variable (f : Frame)

theorem file_applyAll (deeds : List Deed) :
    (f.applyAll deeds).file = (lastNamed deeds).or f.file := by
  induction deeds using List.reverseRecOn with
  | nil => rfl
  | append_singleton deeds d ih =>
    rw [applyAll_append, lastNamed_concat, Option.or_assoc, ← ih]
    cases d <;> rfl

theorem title_applyAll (deeds : List Deed) :
    (f.applyAll deeds).title = (lastTitle deeds).getD f.title := by
  induction deeds using List.reverseRecOn with
  | nil => rfl
  | append_singleton deeds d ih =>
    rw [applyAll_append, lastTitle_concat]
    cases d <;> simp [apply, Deed.title?, ih]

variable {f} {path : String} {folder : Folder}

theorem saved_notMem_saveAsDeeds (given : String) : .saved path folder ∉ f.saveAsDeeds given := by
  unfold saveAsDeeds
  split
  · exact List.not_mem_nil
  · split <;> simp

theorem file_of_saved_mem_saveDeeds {given : String} (h : .saved path folder ∈ f.saveDeeds given) :
    f.file = some path := by
  unfold saveDeeds at h
  split at h
  next file hfile =>
    split at h
    · simp only [List.mem_singleton, Deed.saved.injEq] at h
      rw [hfile, h.1]
    · cases h
  next => exact absurd h (saved_notMem_saveAsDeeds given)

theorem file_of_saved_mem_lossDeeds {reply : Reply} {savePath : String} {before : List Deed}
    (hbefore : f.lossDeeds? reply savePath = some before) (h : .saved path folder ∈ before) :
    f.file = some path := by
  unfold lossDeeds? at hbefore
  split at hbefore
  · cases reply with
    | save =>
      obtain rfl : f.saveDeeds savePath = before := by simpa using hbefore
      exact file_of_saved_mem_saveDeeds h
    | discard =>
      obtain rfl : [] = before := by simpa using hbefore
      cases h
    | cancel => cases hbefore
  · obtain rfl : [] = before := by simpa using hbefore
    cases h

/-- Whatever the action, text that is written without a path being asked for goes to the file of the
frame. -/
theorem file_of_saved {a : Action} (h : .saved path folder ∈ f.deeds a) : f.file = some path := by
  unfold deeds at h
  split at h
  · simp at h
  · split at h
    next before hbefore => exact file_of_saved_mem_lossDeeds hbefore (by simpa using h)
    next => cases h
  · split at h
    next before hbefore =>
      have hopen (f : Frame) (openPath : String) : .saved path folder ∉ f.openDeeds openPath := by
        unfold openDeeds
        split
        · exact List.not_mem_nil
        · split <;> simp
      exact file_of_saved_mem_lossDeeds hbefore ((List.mem_append.mp h).resolve_right (hopen _ _))
    next => cases h
  · exact file_of_saved_mem_saveDeeds h
  · exact absurd h (saved_notMem_saveAsDeeds _)
  all_goals cases h

end Frame

/-! ## Runs -/

theorem file_run (w : Window) (events : List Event) :
    (w.run events).file = (lastNamed (w.trail events)).or w.file := by
  induction events generalizing w with
  | nil => rfl
  | cons e events ih =>
    refine (ih (w.after e)).trans ?_
    cases e with
    | act a =>
      have hact : (w.act a).2.file = (lastNamed (w.frame.deeds a)).or w.file :=
        (congrArg Frame.file (w.frame_act_eq a)).trans (w.frame.file_applyAll _)
      rw [trail, lastNamed_append, Option.or_assoc, ← hact]
      rfl
    | disk folder => rfl

theorem title_run (w : Window) (events : List Event) :
    (w.run events).title = (lastTitle (w.trail events)).getD w.title := by
  induction events generalizing w with
  | nil => rfl
  | cons e events ih =>
    refine (ih (w.after e)).trans ?_
    cases e with
    | act a =>
      have hact : (w.act a).2.title = (lastTitle (w.frame.deeds a)).getD w.title :=
        (congrArg Frame.title (w.frame_act_eq a)).trans (w.frame.title_applyAll _)
      rw [trail, lastTitle_append, Option.getD_or, ← hact]
      rfl
    | disk folder => rfl

/-! ## The document's own file -/

/-- Saving would write to the document's own file, or ask for a path. -/
def Faithful (deeds : List Deed) : Prop :=
  ∀ path, lastNamed deeds = some path → ownFile deeds = some path

/-- A deed after which saving would write to a file that is not the document's own. -/
def Deed.Misleads (before : List Deed) : Deed → Prop
  | cleared => ∃ path, lastNamed before = some path
  | opened path _ => ∃ other, lastNamed before = some other ∧ path ≠ other
  | misnamed path => ownFile before ≠ some path
  | edited _ | savedAs .. | saved .. => False

theorem faithful_concat_iff {before : List Deed} (h : Faithful before) (d : Deed) :
    Faithful (before ++ [d]) ↔ ¬ d.Misleads before := by
  cases d <;> simp_all [Faithful, Deed.Misleads, Deed.named?, Deed.owner?]

/-- Saving is faithful all along exactly if no deed misleads. -/
theorem forall_faithful_iff (deeds : List Deed) :
    (∀ before after, deeds = before ++ after → Faithful before) ↔
      ∀ before d after, deeds = before ++ d :: after → ¬ d.Misleads before := by
  constructor
  · intro h before d after heq
    exact (faithful_concat_iff (h before (d :: after) heq) d).mp
      (h (before ++ [d]) after (by simpa using heq))
  · intro h before
    induction before using List.reverseRecOn with
    | nil =>
      intro after _ path hpath
      cases hpath
    | append_singleton before d ih =>
      intro after heq
      have hsplit : deeds = before ++ d :: after := by simpa using heq
      exact (faithful_concat_iff (ih _ hsplit) d).mpr (h before d after hsplit)

/-- The title names the document's own file where saving writes to it. -/
theorem lastTitle_of_ownFile {path : String} (hnamed : lastNamed deeds = some path)
    (hown : ownFile deeds = some path) : lastTitle deeds = some (fileTitle path) := by
  induction deeds using List.reverseRecOn with
  | nil => cases hnamed
  | append_singleton deeds d ih =>
    -- A new text has no file of its own, and every other deed that sets a title sets that of its
    -- path.
    cases d <;> simp_all [Deed.named?, Deed.owner?, Deed.title?]

/-- Without a file saving asks for a path. -/
theorem act_save_of_file_eq_none {w : Window} (h : w.file = none) (path : String) :
    w.act (.save path) = w.act (.saveAs path) := by
  have hsave : (WindowStep.save path).perform { w with boxes := [] } =
      (WindowStep.saveAs path).perform { w with boxes := [] } := by
    rw [WindowStep.perform_save]
    simp only [h]
  simp only [act, WindowStep.act, WindowStep.perform_bind, hsave]

/-- With a file saving writes there, or leaves the files alone. -/
theorem folder_act_save {w : Window} {file : String} (h : w.file = some file) (path : String) :
    (w.act (.save path)).2.folder =
      (w.folder.write file w.document.text).toOption.getD w.folder := by
  have hframe := congrArg Frame.folder (w.frame_act_eq (.save path))
  refine hframe.trans ?_
  simp only [Frame.deeds, Frame.saveDeeds, frame, h]
  cases w.folder.write file w.document.text <;> rfl

/-- After every run of a window, what was done before decides where saving writes: without asking it
writes to the path that was given last, and it asks exactly if none was given. That is the
document's own file, which the title then names, throughout the run exactly if no deed of the run
misleads: a new text after a path was given, another file opened, or a path given that cannot be
written. -/
theorem save_target (tools : Toolset) (colors : Bool) (folder : Folder) (events : List Event) :
    let w := (start tools colors folder).run events
    let deeds := (start tools colors folder).trail events
    (∀ a, (w.act a).2.frame = w.frame.applyAll (w.frame.deeds a)) ∧
    (lastNamed deeds = none → ∀ path, w.act (.save path) = w.act (.saveAs path)) ∧
    (∀ file, lastNamed deeds = some file → ∀ path,
      (w.act (.save path)).2.folder =
        (w.folder.write file w.document.text).toOption.getD w.folder) ∧
    (∀ a file written, .saved file written ∈ w.frame.deeds a → lastNamed deeds = some file) ∧
    (∀ file, lastNamed deeds = some file → ownFile deeds = some file → w.title = fileTitle file) ∧
    ((∀ before after, deeds = before ++ after → Faithful before) ↔
      ∀ before d after, deeds = before ++ d :: after → ¬ d.Misleads before) := by
  intro w deeds
  have hfile : w.file = lastNamed deeds := by
    rw [← Option.or_none (o := lastNamed deeds)]
    exact file_run _ events
  refine ⟨w.frame_act_eq, fun hnone => act_save_of_file_eq_none (hfile.trans hnone), ?_, ?_, ?_,
    forall_faithful_iff deeds⟩
  · intro file hnamed
    exact folder_act_save (hfile.trans hnamed)
  · intro a file written hsaved
    exact hfile.symm.trans (Frame.file_of_saved hsaved)
  · intro file hnamed hown
    have htitle : w.title = (lastTitle deeds).getD plainTitle := title_run _ events
    rw [htitle, lastTitle_of_ownFile hnamed hown]
    rfl

/-- After another file was opened saving overwrites the one that was saved before. -/
theorem save_overwrites_earlier :
    let start := start ⟨true, true, true⟩ true ⟨[("b.txt", "ent b ;".toUTF8.toList)], []⟩
    let events := [.act (.saveAs "a.txt"), .act (.openFile .discard "" "b.txt"),
      .act (.edit "ent c ;")]
    let w := start.run events
    let saved := (w.act (.save "")).2
    ownFile (start.trail events) = some "b.txt" ∧ w.title = fileTitle "b.txt" ∧
      saved.folder.read "a.txt" = .ok "ent c ;" ∧ saved.folder.read "b.txt" = .ok "ent b ;" := by
  decide +kernel

/-! ## Unsaved text -/

/-- The text was not saved: the dialog was closed, or the text could not be written. -/
theorem Frame.saveDeeds_unwritten_iff (f : Frame) (path : String) :
    (f.saveDeeds path).any Deed.isWrite = false ↔
      (f.file = none ∧ path = "") ∨
      ∃ fault, f.folder.write (f.file.getD path) f.document.text = .error fault := by
  unfold saveDeeds
  cases f.file with
  | some file => cases hwrite : f.folder.write file f.document.text <;> simp [hwrite, Deed.isWrite]
  | none =>
    unfold saveAsDeeds
    by_cases hpath : path = ""
    · simp [hpath]
    · cases hwrite : f.folder.write path f.document.text <;> simp [hwrite, hpath, Deed.isWrite]

/-- Text that was not saved is still there, and so are the files. -/
theorem Frame.applyAll_unwritten {f : Frame} {path : String}
    (h : (f.saveDeeds path).any Deed.isWrite = false) :
    (f.applyAll (f.saveDeeds path)).document = f.document ∧
      (f.applyAll (f.saveDeeds path)).folder = f.folder := by
  unfold saveDeeds at h ⊢
  split at h
  next file hfile =>
    cases hwrite : f.folder.write file f.document.text with
    | ok folder => simp [hwrite, Deed.isWrite] at h
    | error fault => simp
  next =>
    unfold saveAsDeeds at h ⊢
    by_cases hpath : path = ""
    · simp [hpath]
    · cases hwrite : f.folder.write path f.document.text with
      | ok folder => simp [hwrite, hpath, Deed.isWrite] at h
      | error fault => simp [hpath, apply]

/-- Opening replaces the document if there is something to read. -/
theorem Frame.document_openDeeds (f : Frame) (path : String) :
    (f.applyAll (f.openDeeds path)).document =
      if path = "" then f.document
      else match f.folder.read path with
        | .ok text => ⟨text, false⟩
        | .error _ => f.document := by
  unfold openDeeds
  by_cases hpath : path = ""
  · simp [hpath]
  · cases hread : f.folder.read path <;> simp [hpath, apply]

theorem document_act (w : Window) (a : Action) :
    (w.act a).2.document = (w.frame.applyAll (w.frame.deeds a)).document :=
  congrArg Frame.document (w.frame_act_eq a)

theorem answer_act_save (w : Window) (path : String) :
    (w.act (.save path)).1 = .ok (some ((w.frame.saveDeeds path).any Deed.isWrite)) := by
  obtain ⟨w', hsave, -⟩ := WindowStep.exists_perform_save { w with boxes := [] } path
  rw [act, WindowStep.act, WindowStep.perform_bind, hsave]
  rfl

/-- What becomes of changed text. A cancelled question leaves it alone. Saving is not done exactly
if the dialog is closed or the text cannot be written; a new text is then started all the same, and
a file that can be read is opened all the same. -/
theorem unsaved_text (w : Window) (hmodified : w.document.modified = true)
    (savePath openPath : String) :
    ((w.act (.newFile .cancel savePath)).2.document = w.document ∧
      (w.act (.openFile .cancel savePath openPath)).2.document = w.document) ∧
    ((w.act (.save savePath)).1 = .ok (some false) ↔
      (w.file = none ∧ savePath = "") ∨
        ∃ f, w.folder.write (w.file.getD savePath) w.document.text = .error f) ∧
    ((w.act (.save savePath)).1 = .ok (some false) →
      (w.act (.newFile .save savePath)).2.document = ⟨"", false⟩ ∧
      ((openPath = "" ∨ ∃ f, w.folder.read openPath = .error f) →
        (w.act (.openFile .save savePath openPath)).2.document = w.document) ∧
      ∀ text, openPath ≠ "" → w.folder.read openPath = .ok text →
        (w.act (.openFile .save savePath openPath)).2.document = ⟨text, false⟩) := by
  have hcancel : w.frame.lossDeeds? .cancel savePath = none := by
    simp [Frame.lossDeeds?, frame, hmodified]
  have hsave : w.frame.lossDeeds? .save savePath = some (w.frame.saveDeeds savePath) := by
    simp [Frame.lossDeeds?, frame, hmodified]
  have hunsaved : (w.act (.save savePath)).1 = .ok (some false) ↔
      (w.frame.saveDeeds savePath).any Deed.isWrite = false := by
    rw [answer_act_save]
    simp
  refine ⟨⟨?_, ?_⟩, hunsaved.trans (w.frame.saveDeeds_unwritten_iff savePath), fun hfalse => ?_⟩
  · rw [document_act, Frame.deeds, hcancel]
    rfl
  · rw [document_act, Frame.deeds, hcancel]
    rfl
  · obtain ⟨hdocument, hfolder⟩ := Frame.applyAll_unwritten (hunsaved.mp hfalse)
    have hopen : (w.act (.openFile .save savePath openPath)).2.document =
        if openPath = "" then w.document
        else match w.folder.read openPath with
          | .ok text => ⟨text, false⟩
          | .error _ => w.document := by
      rw [document_act, Frame.deeds, hsave]
      dsimp only
      rw [Frame.applyAll_append, Frame.document_openDeeds, hdocument, hfolder]
      rfl
    refine ⟨?_, fun hclosed => ?_, fun text hpath hread => ?_⟩
    · rw [document_act, Frame.deeds, hsave]
      simp [Frame.apply]
    · obtain hpath | ⟨f, hread⟩ := hclosed
      · rw [hopen, if_pos hpath]
      · simp [hopen, hread]
    · simp [hopen, hpath, hread]

/-- A window beside a file, with a text that was typed and not saved. -/
def changed : Window :=
  (start ⟨true, true, true⟩ true ⟨[("b.txt", "ent b ;".toUTF8.toList)], []⟩).run
    [.act (.edit "ent c ;")]

/-- A change whose saving was cancelled is lost to a file that is opened. -/
theorem unsaved_text_opened :
    changed.document = ⟨"ent c ;", true⟩ ∧ (changed.act (.save "")).1 = .ok (some false) ∧
      changed.folder.read "b.txt" = .ok "ent b ;" ∧
      (changed.act (.openFile .save "" "b.txt")).2.document = ⟨"ent b ;", false⟩ := by
  have hdocument : changed.document = ⟨"ent c ;", true⟩ := by decide +kernel
  have hread : changed.folder.read "b.txt" = .ok "ent b ;" := by decide +kernel
  obtain ⟨-, hunsaved, hlost⟩ :=
    unsaved_text changed (congrArg Document.modified hdocument) "" "b.txt"
  have hfalse := hunsaved.mpr (.inl ⟨by decide +kernel, rfl⟩)
  exact ⟨hdocument, hfalse, hread, (hlost hfalse).2.2 _ (by decide) hread⟩

/-- Starting a new text loses a change whose saving was cancelled. -/
theorem newFile_discards_unsaved :
    changed.document = ⟨"ent c ;", true⟩ ∧
      (changed.act (.newFile .save "")).2.document = ⟨"", false⟩ := by
  decide +kernel

end Analizador.Window
