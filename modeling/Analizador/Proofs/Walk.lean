import Analizador.Walk
import Analizador.Proofs.Workshop

/-! # Scopes in a walk over nodes

A walk opens a scope for each body of a conditional or a loop and closes it again, whatever nodes
the body is made of: declarations, raw trees, and nodes that no program has. So a visit that comes
to an end leaves the scopes as it found them, but for the names that the current one has gained. A
visit that stops half-way may leave scopes open; those that were there before it are still around
them. -/

namespace Analizador

variable {κ : Type} [BEq κ]

namespace Bindings

/-- Bindings to which others are added after the old ones, of names that were not bound. -/
def Gains (old new : Bindings κ) : Prop :=
  ∃ gained, new = old ++ gained ∧ ∀ e ∈ gained, old.find? e.1 = none

/-- Of two lists of bindings the first is asked first. -/
theorem find?_append (old gained : Bindings κ) (name : κ) :
    find? (old ++ gained) name = (old.find? name).or (gained.find? name) :=
  List.lookup_append

theorem Gains.refl (b : Bindings κ) : b.Gains b := ⟨[], by simp, by simp⟩

/-- What is gained twice is gained. -/
theorem Gains.trans {a b c : Bindings κ} (hab : a.Gains b) (hbc : b.Gains c) : a.Gains c := by
  obtain ⟨first, rfl, hfirst⟩ := hab
  obtain ⟨second, rfl, hsecond⟩ := hbc
  refine ⟨first ++ second, List.append_assoc .., ?_⟩
  intro e he
  rcases List.mem_append.mp he with he | he
  · exact hfirst e he
  · have hnone := hsecond e he
    rw [find?_append, Option.or_eq_none_iff] at hnone
    exact hnone.1

/-- A name that was bound keeps its number. -/
theorem Gains.find? {old new : Bindings κ} (h : old.Gains new) {name : κ} {number : Nat}
    (hfind : old.find? name = some number) : new.find? name = some number := by
  obtain ⟨gained, rfl, -⟩ := h
  rw [find?_append, hfind, Option.some_or]

/-- A new name is bound at the end. -/
theorem put_of_find?_eq_none {b : Bindings κ} {name : κ} (h : b.find? name = none) (number : Nat) :
    b.put name number = b ++ [(name, number)] := by
  induction b with
  | nil => rfl
  | cons e b ih =>
    obtain ⟨key, old⟩ := e
    unfold Bindings.find? at h
    rw [List.lookup_cons] at h
    cases hkey : name == key with
    | true => simp [hkey] at h
    | false =>
      rw [hkey] at h
      simp [put, hkey, ih h]

/-- Binding a new name is a gain. -/
theorem gains_put {b : Bindings κ} {name : κ} (h : b.find? name = none) (number : Nat) :
    b.Gains (b.put name number) := by
  refine ⟨[(name, number)], put_of_find?_eq_none h number, ?_⟩
  intro e he
  rwa [List.mem_singleton.mp he]

end Bindings

namespace Table

/-- Every symbol of a table is still there in another one, under its number and with its name. -/
def Remains (t t' : Table κ Record) : Prop :=
  ∀ (number : Nat) (r : Record), t.entries[number]? = some r →
    ∃ r' : Record, t'.entries[number]? = some r' ∧ r'.name = r.name

/-- The scopes after more has been done in them: the innermost one has gained names, and those
around it are as they were. -/
structure Grows (t t' : Table κ Record) : Prop where
  outer : t'.outer = t.outer
  scope : t.scope.Gains t'.scope
  remains : t.Remains t'

/-- The scopes after more has been done in them and in some that were opened inside and may not be
closed. -/
structure Deepens (t t' : Table κ Record) : Prop where
  scopes : ∃ inner scope, t'.scope :: t'.outer = inner ++ scope :: t.outer ∧ t.scope.Gains scope
  remains : t.Remains t'

variable {t t' t'' : Table κ Record}

omit [BEq κ] in
/-- Entries that remain twice remain. -/
theorem Remains.trans (h : t.Remains t') (h' : t'.Remains t'') : t.Remains t'' := by
  intro number r hr
  obtain ⟨r', hr', hname⟩ := h number r hr
  obtain ⟨r'', hr'', hname'⟩ := h' number r' hr'
  exact ⟨r'', hr'', hname'.trans hname⟩

omit [BEq κ] in
/-- Entries that are the same remain. -/
theorem remains_of_entries (h : t'.entries = t.entries) : t.Remains t' := by
  intro number r hr
  exact ⟨r, by rwa [h], rfl⟩

theorem Grows.refl (t : Table κ Record) : t.Grows t :=
  ⟨rfl, .refl _, remains_of_entries rfl⟩

theorem Grows.trans (h : t.Grows t') (h' : t'.Grows t'') : t.Grows t'' :=
  ⟨h'.outer.trans h.outer, h.scope.trans h'.scope, h.remains.trans h'.remains⟩

/-- A table that grows within its scopes is one that may have scopes left open. -/
theorem Grows.deepens (h : t.Grows t') : t.Deepens t' :=
  ⟨⟨[], t'.scope, by rw [h.outer, List.nil_append], h.scope⟩, h.remains⟩

/-- Growth within the scopes and then scopes left open. -/
theorem Grows.trans_deepens (h : t.Grows t') (h' : t'.Deepens t'') : t.Deepens t'' := by
  obtain ⟨inner, scope, hscopes, hgains⟩ := h'.scopes
  rw [h.outer] at hscopes
  exact ⟨⟨inner, scope, hscopes, h.scope.trans hgains⟩, h.remains.trans h'.remains⟩

/-! ## What is done to a table -/

/-- An insertion grows the innermost scope only. -/
theorem grows_insert? {name : κ} {r : Record} (h : t.insert? name r = some t') : t.Grows t' := by
  unfold insert? at h
  split at h
  next => cases h
  next hfree =>
    obtain rfl := Option.some.inj h
    have hnone : t.scope.find? name = none := by simpa using hfree
    refine ⟨rfl, Bindings.gains_put hnone _, ?_⟩
    intro number old hold
    have hlt := (Array.getElem?_eq_some_iff.mp hold).1
    exact ⟨old, by rwa [Array.getElem?_push_lt hlt, ← Array.getElem?_eq_getElem], rfl⟩

omit [BEq κ] in
/-- A change that keeps the names of entries leaves them in their places. -/
theorem remains_modify {f : Record → Record} (hf : ∀ r, (f r).name = r.name) (t : Table κ Record)
    (number : Nat) :
    t.Remains (t.modify number f) := by
  intro n r hr
  rw [modify, Array.getElem?_modify]
  split
  next => exact ⟨f r, by simp [hr], hf r⟩
  next => exact ⟨r, hr, rfl⟩

theorem grows_modify {f : Record → Record} (hf : ∀ r, (f r).name = r.name) (t : Table κ Record)
    (number : Nat) :
    t.Grows (t.modify number f) :=
  ⟨rfl, .refl _, remains_modify hf t number⟩

theorem grows_modifyIndexed {f : Record → Record} (hf : ∀ r, (f r).name = r.name)
    (t : Table κ Record) (name : κ) :
    t.Grows (t.modifyIndexed name f) := by
  unfold modifyIndexed
  split
  next number _ => exact grows_modify hf t number
  next => exact .refl t

/-- Closing a scope that was opened gives back the scopes around it. -/
theorem Grows.exit_of_enter (h : t.enter.Grows t') : t.Grows t'.exit := by
  have hexit : t'.exit.scope = t.scope ∧ t'.exit.outer = t.outer := by
    simp [Table.exit, h.outer, Table.enter]
  refine ⟨hexit.2, ?_, h.remains.trans (remains_of_entries t'.entries_exit)⟩
  rw [hexit.1]
  exact .refl _

/-- A scope that was opened and not closed stands in the ones around it. -/
theorem Deepens.of_enter (h : t.enter.Deepens t') : t.Deepens t' := by
  obtain ⟨inner, scope, hscopes, -⟩ := h.scopes
  refine ⟨⟨inner ++ [scope], t.scope, ?_, .refl _⟩, h.remains⟩
  simpa [Table.enter] using hscopes

end Table

namespace Work

variable {α β : Type} {step : Work α} {next : α → Work β} {w : Workshop}

/-- How a step may leave the scopes: as it found them, with more names in the innermost one, if it
comes to an end, and around those that it has opened if it fails. -/
def Leaves (w : Workshop) : Except Failure α × Workshop → Prop
  | (.ok _, w') => w.table.Grows w'.table
  | (.error _, w') => w.table.Deepens w'.table

/-- A step that closes the scopes that it opens. -/
def Balanced (step : Work α) : Prop := ∀ w, Leaves w (step.perform w)

/-- A step that ends with a grown table leaves the scopes as they were. -/
theorem leaves_of_grows {result : Except Failure α × Workshop} (h : w.table.Grows result.2.table) :
    Leaves w result := by
  obtain ⟨_ | _, w'⟩ := result
  · exact h.deepens
  · exact h

/-- Balanced steps, one after the other. -/
theorem Balanced.bind (hstep : step.Balanced) (hnext : ∀ a, (next a).Balanced) :
    (step >>= next).Balanced := by
  intro w
  have hfirst := hstep w
  rw [perform_bind]
  cases hperform : step.perform w with
  | mk result w' =>
    rw [hperform] at hfirst
    cases result with
    | error f => exact hfirst
    | ok a =>
      have hsecond := hnext a w'
      change Leaves w ((next a).perform w')
      cases hperform' : (next a).perform w' with
      | mk result' w'' =>
        rw [hperform'] at hsecond
        cases result' with
        | error f => exact hfirst.trans_deepens hsecond
        | ok b => exact hfirst.trans hsecond

/-- A step that does nothing to the table. -/
theorem balanced_of_table (h : ∀ w, (step.perform w).2.table = w.table) : step.Balanced := by
  intro w
  apply leaves_of_grows
  rw [h w]
  exact .refl _

theorem balanced_pure (a : α) : (pure a : Work α).Balanced := balanced_of_table fun _ => rfl

theorem balanced_throw (f : Failure) : (throw f : Work α).Balanced := balanced_of_table fun _ => rfl

theorem balanced_liftM (a : Except Failure α) : (liftM a : Work α).Balanced :=
  balanced_of_table fun _ => rfl

/-- A loop over balanced steps. -/
theorem balanced_forM {f : α → Work Unit} (hf : ∀ a, (f a).Balanced) (items : List α) :
    (items.forM f).Balanced := by
  induction items with
  | nil => exact balanced_pure ()
  | cons a items ih => exact (hf a).bind fun _ => ih

/-! ## Nodes and reports -/

theorem balanced_get : (get : Work Workshop).Balanced := balanced_of_table fun _ => rfl

theorem balanced_say (message : String) : (say message).Balanced := balanced_of_table fun _ => rfl

theorem balanced_sayText (message : Except Failure String) : (sayText message).Balanced :=
  (balanced_liftM message).bind balanced_say

theorem balanced_attr? (d : Datum) (name : String) : (attr? d name).Balanced :=
  balanced_of_table fun _ => rfl

theorem balanced_hasAttr (d : Datum) (name : String) : (hasAttr d name).Balanced :=
  balanced_of_table fun _ => rfl

theorem balanced_attr (d : Datum) (name : String) : (attr d name).Balanced :=
  balanced_get.bind fun _ => balanced_liftM _

/-- A change of the workshop that does not touch the table. -/
theorem balanced_modify {f : Workshop → Workshop} (hf : ∀ w, (f w).table = w.table) :
    (modify f : Work Unit).Balanced :=
  balanced_of_table hf

theorem balanced_setAttr (d : Datum) (name : String) (value : Datum) :
    (setAttr d name value).Balanced :=
  balanced_get.bind fun _ => (balanced_liftM _).bind fun _ => balanced_modify fun _ => rfl

theorem balanced_makeBinary (op left right : Datum) : (makeBinary op left right).Balanced :=
  (balanced_liftM _).bind fun _ => balanced_of_table fun _ => rfl

theorem balanced_report (d : Diagnostic) : (report d).Balanced := by
  refine balanced_get.bind fun w => ?_
  cases w.ledger with
  | none => exact balanced_throw _
  | some l => exact balanced_modify fun _ => rfl

theorem balanced_reportMismatch (expected found : Datum) (message : String) (place : Datum) :
    (reportMismatch expected found message place).Balanced :=
  (balanced_attr _ _).bind fun _ => (balanced_attr _ _).bind fun _ => balanced_report _

theorem balanced_reportUndeclared (name place : Datum) : (reportUndeclared name place).Balanced :=
  (balanced_attr _ _).bind fun _ => (balanced_attr _ _).bind fun _ =>
    (balanced_liftM _).bind balanced_report

theorem balanced_reportRedeclared (name place : Datum) : (reportRedeclared name place).Balanced :=
  (balanced_attr _ _).bind fun _ => (balanced_attr _ _).bind fun _ =>
    (balanced_liftM _).bind balanced_report

/-! ## The table -/

theorem balanced_lookup (name : Datum) : (lookup name).Balanced :=
  (balanced_liftM _).bind fun _ => balanced_of_table fun _ => rfl

/-- An insertion binds a name in the innermost scope, or nothing. -/
theorem balanced_insert (r : Record) : (insert r).Balanced := by
  refine (balanced_liftM _).bind fun _ => ?_
  intro w
  apply leaves_of_grows
  cases hinsert : w.table.insert? r.name r with
  | none =>
    simp only [perform_bind, perform_get, hinsert]
    exact .refl _
  | some table =>
    simp only [perform_bind, perform_get, hinsert, perform_modify, perform_sayText]
    cases Record.insertedLine r.name r.ty r.value <;> exact Table.grows_insert? hinsert

/-- An update changes an entry in its place. -/
theorem balanced_update (name : Datum) (changes : List (String × Datum)) :
    (update name changes).Balanced := by
  have hname := name_assignAttrs (accepted changes)
  unfold update
  split
  next => exact balanced_throw _
  next =>
    refine (balanced_liftM _).bind fun _ => balanced_get.bind fun w => ?_
    dsimp only
    split
    next number old _ _ =>
      refine Balanced.bind (fun w => Table.grows_modify hname w.table number) fun _ => ?_
      split
      next => exact balanced_throw _
      next =>
        refine (balanced_sayText _).bind fun _ => ?_
        exact Balanced.bind (fun w => Table.grows_modifyIndexed hname w.table name) fun _ =>
          balanced_pure _
    next => exact balanced_pure _

/-- What is done between the opening of a scope and its closing. -/
theorem Balanced.between (hstep : step.Balanced) :
    (enter >>= fun _ => step >>= fun _ => exit).Balanced := by
  intro w
  have hinside := hstep { w with table := w.table.enter }
  rw [perform_bind]
  change Leaves w ((step >>= fun _ => exit).perform { w with table := w.table.enter })
  rw [perform_bind]
  cases hperform : step.perform { w with table := w.table.enter } with
  | mk result w' =>
    rw [hperform] at hinside
    cases result with
    | error f => exact Table.Deepens.of_enter hinside
    | ok a => exact Table.Grows.exit_of_enter hinside

/-! ## Judging types -/

theorem balanced_typeOperation (d op left right : Datum) :
    (typeOperation d op left right).Balanced := by
  unfold typeOperation
  split
  next => exact (balanced_setAttr _ _ _).bind fun _ => balanced_pure _
  next =>
    split
    next => exact balanced_pure _
    next =>
      split
      next => exact (balanced_setAttr _ _ _).bind fun _ => balanced_pure _
      next =>
        refine (balanced_liftM _).bind fun _ => (balanced_liftM _).bind fun _ => ?_
        refine (balanced_reportMismatch _ _ _ _).bind fun _ => ?_
        exact (balanced_setAttr _ _ _).bind fun _ => balanced_pure _

theorem balanced_expectType (expected : Ty) (message : String) (part : Datum) :
    (expectType expected message part).Balanced := by
  refine (balanced_attr _ _).bind fun found => ?_
  split
  next => exact balanced_pure _
  next => exact (balanced_reportMismatch _ _ _ _).bind fun _ => balanced_pure _

theorem balanced_typeAssignment (d : Datum) (target : Record) (expression : Datum) :
    (typeAssignment d target expression).Balanced := by
  refine (balanced_attr _ _).bind fun source => ?_
  split
  next => exact balanced_pure _
  next =>
    split
    next => exact (balanced_setAttr _ _ _).bind fun _ => balanced_pure _
    next =>
      refine (balanced_liftM _).bind fun _ => (balanced_liftM _).bind fun _ => ?_
      exact (balanced_reportMismatch _ _ _ _).bind fun _ => balanced_pure _

theorem balanced_typeInput (target : Datum) : (typeInput target).Balanced := by
  refine (balanced_attr _ _).bind fun name => (balanced_lookup _).bind fun found => ?_
  cases found with
  | none => exact (balanced_reportUndeclared _ _).bind fun _ => balanced_pure _
  | some symbol => exact (balanced_setAttr _ _ _).bind fun _ => balanced_pure _

end Work

namespace Walk

variable {go : Datum → Work Datum} (hgo : ∀ d, (go d).Balanced)

include hgo

/-- A walk through children is balanced if every visit is. -/
theorem balanced_through (d : Datum) : (through go d).Balanced := by
  have hall (items : List Datum) : (items.forM fun child => do let _ ← go child).Balanced :=
    Work.balanced_forM (fun child => (hgo child).bind fun _ => Work.balanced_pure _) items
  unfold through
  split
  next label children =>
    refine (Work.balanced_say _).bind fun _ => ?_
    -- What follows once it is known whether the tree is a comparison.
    extract_lets rest
    have hrest (parts : Option (Datum × Datum × Datum)) : (rest parts).Balanced := by
      dsimp only [rest]
      split
      next left op right =>
        refine (Work.balanced_sayText _).bind fun _ => (Work.balanced_makeBinary _ _ _).bind
          fun node => ?_
        exact (Work.balanced_setAttr _ _ _).bind fun _ => hgo node
      next => exact (hall children).bind fun _ => Work.balanced_pure _
    split
    next left op right _ =>
      split
      next =>
        refine (Work.balanced_attr? _ _).bind fun value => ?_
        cases value with
        | some op => exact (Work.balanced_pure _).bind hrest
        | none => exact (Work.balanced_liftM _).bind fun _ => (Work.balanced_pure _).bind hrest
      next => exact (Work.balanced_pure _).bind hrest
    next => exact (Work.balanced_pure _).bind hrest
    next => exact (Work.balanced_pure _).bind hrest
  next =>
    refine (Work.balanced_attr? _ _).bind fun children => ?_
    cases children with
    | none => exact Work.balanced_pure _
    | some children => exact (Work.balanced_liftM _).bind fun items => (hall items).bind fun _ =>
        Work.balanced_pure _

/-- So is the walk over the children of a program. -/
theorem balanced_programChildren (start : Nat) (children : List Datum) :
    (programChildren go start children).Balanced := by
  induction children generalizing start with
  | nil => exact Work.balanced_pure _
  | cons child rest ih =>
    exact (Work.balanced_say _).bind fun _ => (hgo child).bind fun _ => ih (start + 1)

theorem balanced_program (d : Datum) : (program go d).Balanced := by
  refine (Work.balanced_say _).bind fun _ => (Work.balanced_attr _ _).bind fun children => ?_
  refine (Work.balanced_liftM _).bind fun _ => (Work.balanced_say _).bind fun _ => ?_
  refine Work.Balanced.bind (Work.balanced_modify fun _ => rfl) fun _ =>
    (Work.balanced_liftM _).bind fun items => ?_
  refine (balanced_programChildren hgo 0 items).bind fun _ => ?_
  exact Work.balanced_get.bind fun _ => Work.balanced_pure _

omit hgo in
/-- A declaration of a name inserts it and leaves the scopes alone. -/
theorem balanced_declare (ty part : Datum) : (declare ty part).Balanced := by
  refine (Work.balanced_attr? _ _).bind fun name => ?_
  cases name with
  | none => exact Work.balanced_pure _
  | some name =>
    refine Work.balanced_get.bind fun w => ?_
    split
    next => exact Work.balanced_reportRedeclared _ _
    next =>
      refine (Work.balanced_setAttr _ _ _).bind fun _ => ?_
      refine (Work.balanced_attr _ _).bind fun _ => (Work.balanced_attr _ _).bind fun _ => ?_
      exact (Work.balanced_insert _).bind fun _ => Work.balanced_modify fun _ => rfl

omit hgo in
theorem balanced_declareList (ty list : Datum) : (declareList ty list).Balanced := by
  refine (Work.balanced_attr? _ _).bind fun names => ?_
  split
  next =>
    refine (Work.balanced_setAttr _ _ _).bind fun _ => (Work.balanced_attr _ _).bind fun _ => ?_
    exact (Work.balanced_liftM _).bind fun parts => Work.balanced_forM (balanced_declare ty) parts
  next => exact Work.balanced_pure _

theorem balanced_declaration (d : Datum) : (declaration go d).Balanced := by
  refine (Work.balanced_attr _ _).bind fun ty => (Work.balanced_sayText _).bind fun _ => ?_
  refine (Work.balanced_attr _ _).bind fun children => (Work.balanced_liftM _).bind fun _ => ?_
  refine (Work.balanced_say _).bind fun _ => ?_
  split
  next => exact Work.balanced_pure _
  next =>
    refine (Work.balanced_liftM _).bind fun items => ?_
    refine (Work.balanced_forM (balanced_declareList ty) items).bind fun _ => ?_
    refine (Work.balanced_forM (fun child => ?_) items).bind fun _ => Work.balanced_pure _
    exact (hgo child).bind fun _ => Work.balanced_pure _

omit hgo in
theorem balanced_identifierList (d : Datum) : (identifierList d).Balanced := by
  refine (Work.balanced_say _).bind fun _ => (Work.balanced_attr _ _).bind fun ty => ?_
  refine (Work.balanced_sayText _).bind fun _ => (Work.balanced_attr? _ _).bind fun names => ?_
  cases names with
  | none => exact Work.balanced_pure _
  | some names => exact (Work.balanced_sayText _).bind fun _ => Work.balanced_pure _

omit hgo in
/-- Storing a value leaves the scopes as they were. -/
theorem balanced_store (name expression : Datum) : (store name expression).Balanced := by
  refine (Work.balanced_attr? _ _).bind fun value => ?_
  cases value with
  | none => exact Work.balanced_sayText _
  | some value =>
    refine (Work.balanced_liftM _).bind fun _ => (Work.balanced_liftM _).bind fun _ => ?_
    refine (Work.balanced_say _).bind fun _ => (Work.balanced_update _ _).bind fun found => ?_
    split <;> exact Work.balanced_say _

/-- An assignment is balanced if the visits of its parts are. -/
theorem balanced_assignment (d : Datum) : (assignment go d).Balanced := by
  refine (Work.balanced_attr _ _).bind fun _ => (Work.balanced_attr? _ _).bind fun name => ?_
  extract_lets rest
  have hrest (shown : Except Failure String) : (rest shown).Balanced := by
    refine (Work.balanced_sayText _).bind fun _ => ?_
    refine (Work.balanced_attr _ _).bind fun expression => (hgo expression).bind fun _ => ?_
    refine (Work.balanced_attr _ _).bind fun identifier => (hgo identifier).bind fun _ => ?_
    refine (Work.balanced_attr _ _).bind fun target => (Work.balanced_attr _ _).bind fun name => ?_
    refine (Work.balanced_lookup _).bind fun found => ?_
    cases found with
    | none => exact (Work.balanced_reportUndeclared _ _).bind fun _ => Work.balanced_pure _
    | some symbol =>
      refine (Work.balanced_setAttr _ _ _).bind fun _ =>
        (Work.balanced_attr _ _).bind fun expression => ?_
      refine (Work.balanced_typeAssignment _ _ _).bind fun fits => ?_
      split
      next =>
        refine (Work.balanced_attr _ _).bind fun name => ?_
        exact (balanced_store name expression).bind fun _ => Work.balanced_pure _
      next => exact Work.balanced_pure _
  cases name with
  | none => exact (Work.balanced_pure _).bind hrest
  | some name => exact (Work.balanced_pure _).bind hrest

omit hgo in
theorem balanced_settleOperator (d : Datum) : (settleOperator d).Balanced := by
  refine (Work.balanced_attr _ _).bind fun op => (Work.balanced_sayText _).bind fun _ => ?_
  split
  next =>
    refine (Work.balanced_say _).bind fun _ => (Work.balanced_liftM _).bind fun text => ?_
    exact (Work.balanced_setAttr _ _ _).bind fun _ => Work.balanced_say _
  next => exact Work.balanced_pure _

omit hgo in
theorem balanced_evaluate (d op : Datum) (whole : Bool) (a b : Datum) :
    (evaluate d op whole a b).Balanced := by
  unfold evaluate
  split
  next => exact Work.balanced_sayText _
  next sign _ =>
    split
    next value lines _ =>
      have hlines : (lines.forM Work.say).Balanced := Work.balanced_forM Work.balanced_say lines
      cases value with
      | none => exact hlines
      | some value => exact (Work.balanced_setAttr _ _ _).bind fun _ => hlines
    next => exact (Work.balanced_say _).bind fun _ => Work.balanced_setAttr _ _ _

/-- So is an operation. -/
theorem balanced_binary (d : Datum) : (binary go d).Balanced := by
  refine (balanced_settleOperator d).bind fun _ => ?_
  refine (Work.balanced_attr _ _).bind fun left => (hgo left).bind fun _ => ?_
  refine (Work.balanced_attr _ _).bind fun right => (hgo right).bind fun _ => ?_
  refine (Work.balanced_attr _ _).bind fun left => (Work.balanced_attr _ _).bind fun right => ?_
  refine (Work.balanced_attr _ _).bind fun leftType =>
    (Work.balanced_attr _ _).bind fun rightType => ?_
  refine (Work.balanced_attr? _ _).bind fun a => (Work.balanced_attr? _ _).bind fun b => ?_
  refine (Work.balanced_attr _ _).bind fun op => (Work.balanced_sayText _).bind fun _ => ?_
  split
  next => exact Work.balanced_pure _
  next =>
    refine (balanced_evaluate _ _ _ _ _).bind fun _ => ?_
    exact (Work.balanced_typeOperation _ _ _ _).bind fun _ => Work.balanced_pure _

/-- A scope that is opened is closed again, whatever is visited in it, unless the visit fails. -/
theorem balanced_inScope (d : Datum) (slot : String) : (inScope go d slot).Balanced := by
  have hpart : (Work.attr d slot >>= go).Balanced := (Work.balanced_attr d slot).bind hgo
  have hbetween := hpart.between
  rwa [bind_assoc] at hbetween

/-- A conditional opens and closes a scope for each of its bodies. -/
theorem balanced_conditional (d : Datum) : (conditional go d).Balanced := by
  refine (Work.balanced_say _).bind fun _ => (Work.balanced_attr _ _).bind fun condition => ?_
  refine (Work.balanced_say _).bind fun _ => ?_
  extract_lets last rest
  have hrest : (rest ()).Balanced := by
    refine (hgo condition).bind fun _ => (Work.balanced_attr _ _).bind fun condition => ?_
    refine (Work.balanced_expectType _ _ _).bind fun fits => ?_
    split
    next =>
      refine (balanced_inScope hgo d "if_body").bind fun _ =>
        (Work.balanced_attr _ _).bind fun other => ?_
      split
      next => exact (balanced_inScope hgo d "else_body").bind fun _ => Work.balanced_pure _
      next => exact Work.balanced_pure _
    next => exact Work.balanced_pure _
  split
  next =>
    refine (Work.balanced_hasAttr _ _).bind fun _ => ?_
    split
    next =>
      refine (Work.balanced_attr _ _).bind fun _ => ?_
      exact (Work.balanced_sayText _).bind fun _ => hrest
    next => exact hrest
  next => exact hrest

/-- A loop opens and closes a scope for its body. -/
theorem balanced_loop (guard : String) (expected : Ty) (message : String) (d : Datum) :
    (loop go guard expected message d).Balanced := by
  refine (Work.balanced_attr _ _).bind fun part => (hgo part).bind fun _ => ?_
  refine (Work.balanced_attr _ _).bind fun part => (Work.balanced_expectType _ _ _).bind
    fun fits => ?_
  split
  next => exact (balanced_inScope hgo d "body").bind fun _ => Work.balanced_pure _
  next => exact Work.balanced_pure _

/-- The statements of a block are visited one after the other. -/
theorem balanced_block (d : Datum) : (block go d).Balanced := by
  refine (Work.balanced_attr _ _).bind fun statements => (Work.balanced_liftM _).bind fun _ => ?_
  refine (Work.balanced_say _).bind fun _ => (Work.balanced_liftM _).bind fun items => ?_
  refine (Work.balanced_forM (fun s => ?_) items).bind fun _ => Work.balanced_pure _
  exact (hgo s).bind fun _ => Work.balanced_pure _

omit hgo in
theorem balanced_literal (title : String) (d : Datum) : (literal title d).Balanced := by
  refine (Work.balanced_attr _ _).bind fun value => (Work.balanced_liftM _).bind fun shown => ?_
  refine (Work.balanced_attr _ _).bind fun ty => ?_
  exact (Work.balanced_sayText _).bind fun _ => Work.balanced_pure _

omit hgo in
theorem balanced_variableUse (d : Datum) : (variableUse d).Balanced := by
  refine (Work.balanced_attr _ _).bind fun name => (Work.balanced_sayText _).bind fun _ => ?_
  refine (Work.balanced_lookup _).bind fun found => ?_
  cases found with
  | none => exact (Work.balanced_reportUndeclared _ _).bind fun _ => Work.balanced_pure _
  | some symbol =>
    refine (Work.balanced_setAttr _ _ _).bind fun _ => (Work.balanced_setAttr _ _ _).bind
      fun _ => ?_
    exact (Work.balanced_sayText _).bind fun _ => Work.balanced_pure _

/-- One case for each class of nodes. -/
theorem balanced_checked (cls : NodeClass) (d : Datum) : (checked go cls d).Balanced := by
  cases cls with
  | program => exact balanced_program hgo d
  | declaration => exact balanced_declaration hgo d
  | identifierList => exact balanced_identifierList d
  | assignment => exact balanced_assignment hgo d
  | binary => exact balanced_binary hgo d
  | conditional => exact balanced_conditional hgo d
  | whileLoop => exact (Work.balanced_say _).bind fun _ => balanced_loop hgo _ _ _ d
  | repeatLoop => exact (Work.balanced_say _).bind fun _ => balanced_loop hgo _ _ _ d
  | print =>
    refine (Work.balanced_say _).bind fun _ => (Work.balanced_attr _ _).bind fun expression => ?_
    exact (hgo expression).bind fun _ => Work.balanced_pure _
  | input =>
    refine (Work.balanced_say _).bind fun _ => (Work.balanced_attr _ _).bind fun target => ?_
    exact (Work.balanced_typeInput target).bind fun _ => Work.balanced_pure _
  | block => exact balanced_block hgo d
  | number => exact balanced_literal _ d
  | text => exact balanced_literal _ d
  | variableUse => exact balanced_variableUse d
  | plain => exact balanced_through hgo d
  | identifier => exact balanced_through hgo d
  | unary => exact balanced_through hgo d

omit hgo in
/-- Every visit is balanced, however deep it goes. -/
theorem balanced_visitWithin (walk : Walk) (depth : Nat) (d : Datum) :
    (visitWithin walk depth d).Balanced := by
  induction depth generalizing d with
  | zero => exact Work.balanced_throw _
  | succ depth ih =>
    unfold visitWithin
    split
    next cls id =>
      cases walk with
      | general => exact balanced_through ih _
      | checking => exact balanced_checked ih cls _
    next => exact (Work.balanced_say _).bind fun _ => balanced_through ih _

/-! ## The scopes after a visit -/

omit hgo in
/-- A visit of anything, in any state of the workshop, that comes to an end leaves as many scopes as
it found: those around the current one are the same, with the same symbols, and the current one has
the same names bound to the same symbols, and perhaps new ones after them. If it stops half-way,
scopes that it opened may stand inside these. -/
theorem visit_scopes (d : Datum) (w : Workshop) :
    let visited := (visit .checking d).perform w
    (visited.1.isOk = true →
      visited.2.table.depth = w.table.depth ∧
      visited.2.table.scopes.length = w.table.scopes.length ∧
        visited.2.table.outer = w.table.outer ∧ w.table.scope.Gains visited.2.table.scope ∧
        ∀ name number, w.table.scope.find? name = some number →
        visited.2.table.scope.find? name = some number) ∧
      w.table.Remains visited.2.table ∧
      ∃ inner scope, visited.2.table.scope :: visited.2.table.outer =
      inner ++ scope :: w.table.outer ∧
        w.table.scope.Gains scope := by
  intro visited
  have hleaves : Work.Leaves w visited :=
    Work.balanced_get.bind (fun w => balanced_visitWithin .checking _ d) w
  obtain ⟨f | answer, w'⟩ := visited
  · refine ⟨?_, hleaves.remains, hleaves.scopes⟩
    intro hok
    cases hok
  · refine ⟨?_, hleaves.remains, hleaves.deepens.scopes⟩
    intro _
    have hdepth : w'.table.depth = w.table.depth := congrArg List.length hleaves.outer
    refine ⟨hdepth, ?_, hleaves.outer, hleaves.scope, fun _ _ => hleaves.scope.find?⟩
    rw [Table.length_scopes, Table.length_scopes, hdepth]

/-- The nodes of a declaration of one name, numbered from `first` on; the declaration is the last.
-/
def declarationNodes (name : String) (first : Nat) : List Node :=
  [⟨.identifier, [("name", .ofText name), ("line", .none), ("column", .none), ("type", .none)]⟩,
    ⟨.identifierList, [("identifiers", .list [.ofText name]),
      ("children", .list [.node .identifier first]),
      ("type", .none)]⟩,
    ⟨.declaration, [("var_type", .ofText "ent"),
      ("children", .list [.node .identifierList (first + 1)])]⟩]

/-- Two scopes with a name in each, and a block (the last node) of a conditional and a declaration.
The conditional declares names in both of its bodies, in the second one inside a raw tree. -/
def nestedDeclarations : Workshop where
  graph := {
    nodes := List.toArray <| declarationNodes "x" 0 ++ declarationNodes "y" 3 ++
      declarationNodes "z" 6 ++ [⟨.text, [("type", .none), ("value", .ofText "")]⟩,
      ⟨.block, [("statements", .list [.node .declaration 5])]⟩,
      ⟨.conditional, [("condition", .node .text 9), ("if_body", .node .block 10),
      ("else_body", .tree "bloque" [.node .declaration 8])]⟩,
      ⟨.block, [("statements", .list [.node .conditional 11, .node .declaration 2])]⟩]
    objects := 0 }
  table := {
    entries := #[⟨.ofText "a", .none, .none, .none, .none⟩,
      ⟨.ofText "b", .none, .none, .none, .none⟩]
    scope := [(.ofText "b", 1)]
    outer := [[(.ofText "a", 0)]]
    index := [(.ofText "a", 0), (.ofText "b", 1)] }
  ledger := some .empty
  declared := []
  log := []

omit hgo in
/-- Of three names that are declared in a visit, two in bodies, the current scope gains the one
outside of these. -/
theorem visit_scopes_nested :
    let visited := (visit .checking (.node .block 12)).perform nestedDeclarations
    visited.1.isOk = true ∧ visited.2.table.entries.size = 5 ∧
      visited.2.table.scope.map (fun e => (e.1.text?, e.2)) = [(some "b", 1), (some "x", 4)] ∧
      visited.2.table.outer = nestedDeclarations.table.outer := by
  have hvisited : ((visit .checking (.node .block 12)).perform nestedDeclarations).1.isOk = true ∧
      ((visit .checking (.node .block 12)).perform nestedDeclarations).2.table.entries.size = 5 ∧
      ((visit .checking (.node .block 12)).perform nestedDeclarations).2.table.scope.map
        (fun e => (e.1.text?, e.2)) = [(some "b", 1), (some "x", 4)] := by
    decide +kernel
  obtain ⟨hok, hsize, hscope⟩ := hvisited
  obtain ⟨-, -, houter, -⟩ := (visit_scopes (.node .block 12) nestedDeclarations).1 hok
  exact ⟨hok, hsize, hscope, houter⟩

end Walk

end Analizador
