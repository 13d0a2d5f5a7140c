import Analizador.Proofs.Workshop

/-! # What is done inside a scope

Between the opening of a scope and its closing anything may be done to the table of a workshop, also
in scopes that are opened and closed on the way. Only the innermost scope gains names, so the scopes
around the opened one stay as they are, whatever names are bound again inside; what is found under a
name is then found again after the closing. Names may be any data here, and a call may fail on the
way. -/

namespace Analizador

/-- A call to the table of a workshop. -/
inductive TableCall where
  | enter
  | exit
  | insert (r : Record)
  | lookup (name : Datum)
  | update (name : Datum) (changes : List (String × Datum))

namespace TableCall

/-- The workshop after a call, which may fail on the way. -/
def next (w : Workshop) : TableCall → Workshop
  | enter => (Work.enter.perform w).2
  | exit => (Work.exit.perform w).2
  | insert r => ((Work.insert r).perform w).2
  | lookup name => ((Work.lookup name).perform w).2
  | update name changes => ((Work.update name changes).perform w).2

/-- The workshop after some calls. -/
def run (calls : List TableCall) (w : Workshop) : Workshop := calls.foldl next w

/-- Whether a call may change symbols that are there already. -/
def isUpdate : TableCall → Bool
  | update _ _ => true
  | _ => false

/-- How many scopes are open after a call, of those that were opened since the start; none of the
others is closed. -/
def level? (level : Nat) : TableCall → Option Nat
  | enter => some (level + 1)
  | exit => if level = 0 then none else some (level - 1)
  | _ => some level

/-- Calls that close every scope that they open, and no other. -/
def Balanced (calls : List TableCall) : Prop := calls.foldlM level? 0 = some 0

instance (calls : List TableCall) : Decidable (Balanced calls) :=
  inferInstanceAs (Decidable (_ = _))

end TableCall

namespace Work

/-- Looking up a name leaves the table as it is. -/
theorem table_lookup (w : Workshop) (name : Datum) :
    ((lookup name).perform w).2.table = w.table := by
  simp only [lookup, perform_bind, perform_liftM]
  cases name.checkKey <;> rfl

/-- An insertion does nothing to the table, or puts the record into it. -/
theorem table_insert (w : Workshop) (r : Record) :
    ((insert r).perform w).2.table = w.table ∨
      w.table.insert? r.name r = some ((insert r).perform w).2.table := by
  simp only [insert, perform_bind, perform_liftM]
  cases r.name.checkKey with
  | error f => exact .inl rfl
  | ok _ =>
    simp only [perform_get]
    cases w.table.insert? r.name r with
    | none => exact .inl rfl
    | some table =>
      simp only [perform_bind, perform_modify, perform_sayText]
      cases Record.insertedLine r.name r.ty r.value <;> exact .inr rfl

/-- An update changes what entries say, and neither their number nor what is bound. -/
theorem table_update (w : Workshop) (name : Datum) (changes : List (String × Datum)) :
    let t := ((update name changes).perform w).2.table
    t.scope = w.table.scope ∧ t.outer = w.table.outer ∧ t.entries.size = w.table.entries.size := by
  have hindexed (t : Table Datum Record) (f : Record → Record) :
      (t.modifyIndexed name f).entries.size = t.entries.size := by
    unfold Table.modifyIndexed
    split <;> simp [Table.modify]
  simp only [update]
  split
  next => exact ⟨rfl, rfl, rfl⟩
  next =>
    simp only [perform_bind, perform_liftM, perform_get]
    cases name.checkKey with
    | error f => exact ⟨rfl, rfl, rfl⟩
    | ok _ =>
      dsimp only
      split
      next number old _ _ =>
        have hsize (f : Record → Record) :
            (w.table.modify number f).entries.size = w.table.entries.size := by
          simp [Table.modify]
        simp only [perform_bind, perform_modify]
        cases changes.findSome? refusal? with
        | some f => exact ⟨rfl, rfl, hsize _⟩
        | none =>
          simp only [perform_bind, perform_modify, perform_sayText]
          cases Record.updatedLine name old.value (assignAttrs (accepted changes) old).value with
          | error f => exact ⟨rfl, rfl, hsize _⟩
          | ok line =>
            let change := assignAttrs (accepted changes)
            obtain ⟨hscope, houter, -⟩ :=
              Table.bindings_modifyIndexed (w.table.modify number change) name change
            exact ⟨hscope, houter, (hindexed _ _).trans (hsize _)⟩
      next => exact ⟨rfl, rfl, rfl⟩

end Work

namespace Table

variable {κ σ : Type} {t t' : Table κ σ} {base : List (Bindings κ)} {level : Nat}

/-- The entries of a table are the first ones of another one. -/
def Keeps (t t' : Table κ σ) : Prop := ∃ more : Array σ, t'.entries = t.entries ++ more

theorem Keeps.refl (t : Table κ σ) : t.Keeps t := ⟨#[], by simp⟩

theorem Keeps.trans {t'' : Table κ σ} (h : t.Keeps t') (h' : t'.Keeps t'') : t.Keeps t'' := by
  obtain ⟨more, hmore⟩ := h
  obtain ⟨more', hmore'⟩ := h'
  exact ⟨more ++ more', by rw [hmore', hmore, Array.append_assoc]⟩

/-- Entries that are kept stay under their numbers. -/
theorem Keeps.getElem? (h : t.Keeps t') {number : Nat} (hnumber : number < t.entries.size) :
    t'.entries[number]? = t.entries[number]? := by
  obtain ⟨more, hmore⟩ := h
  rw [hmore, Array.getElem?_append_left hnumber]

/-- Every symbol that an open scope binds is there. -/
def Stocked (t : Table κ σ) : Prop := ∀ number, t.Live number → number < t.entries.size

theorem Stocked.empty : (Table.empty : Table κ σ).Stocked := by
  rintro number ⟨b, hb, e, he, -⟩
  obtain rfl := List.mem_singleton.mp hb
  cases he

/-! ## The scopes around those that were opened -/

/-- Opening a scope leaves those around it. -/
theorem drop_outer_enter (h : t.outer.drop level = base) : t.enter.outer.drop (level + 1) = base :=
  h

/-- So does closing the one that was opened. -/
theorem drop_outer_exit (hbase : base ≠ []) (h : t.outer.drop (level + 1) = base) :
    t.exit.outer.drop level = base := by
  obtain ⟨entries, scope, outer, index⟩ := t
  cases outer with
  | nil => exact absurd h.symm hbase
  | cons _ outer => exact h

theorem live_enter {number : Nat} (h : t.enter.Live number) : t.Live number := by
  obtain ⟨b, hb, e, he, hnumber⟩ := h
  rcases List.mem_cons.mp hb with rfl | hb
  · cases he
  · exact ⟨b, hb, e, he, hnumber⟩

/-- Closing a scope makes no number live. -/
theorem live_exit {number : Nat} (h : t.exit.Live number) : t.Live number := by
  obtain ⟨entries, scope, outer, index⟩ := t
  cases outer with
  | nil => exact h
  | cons inner outer =>
    obtain ⟨b, hb, hnumber⟩ := h
    exact ⟨b, List.mem_cons_of_mem _ hb, hnumber⟩

variable [BEq κ]

theorem mem_put {b : Bindings κ} {name : κ} {number : Nat} {e : κ × Nat}
    (h : e ∈ b.put name number) :
    e ∈ b ∨ e.2 = number := by
  induction b with
  | nil =>
    obtain rfl := List.mem_singleton.mp h
    exact .inr rfl
  | cons old b ih =>
    obtain ⟨key, n⟩ := old
    unfold Bindings.put at h
    split at h
    next =>
      rcases List.mem_cons.mp h with rfl | h
      · exact .inr rfl
      · exact .inl (List.mem_cons_of_mem _ h)
    next =>
      rcases List.mem_cons.mp h with rfl | h
      · exact .inl List.mem_cons_self
      · exact (ih h).imp_left (List.mem_cons_of_mem _)

/-- What an insertion makes of a table. -/
theorem insert?_eq_some {name : κ} {entry : σ} (h : t.insert? name entry = some t') :
    t'.entries = t.entries.push entry ∧ t'.scope = t.scope.put name t.entries.size ∧
      t'.outer = t.outer := by
  unfold insert? at h
  split at h
  next => cases h
  next =>
    obtain rfl := Option.some.inj h
    exact ⟨rfl, rfl, rfl⟩

/-- Insertion makes one number live, that of the new entry. -/
theorem live_insert? {name : κ} {entry : σ} (h : t.insert? name entry = some t') {number : Nat}
    (hlive : t'.Live number) : t.Live number ∨ number = t.entries.size := by
  obtain ⟨-, hscope, houter⟩ := insert?_eq_some h
  obtain ⟨b, hb, e, he, rfl⟩ := hlive
  rw [hscope, houter] at hb
  rcases List.mem_cons.mp hb with rfl | hb
  · exact (mem_put he).imp_left fun he => ⟨t.scope, List.mem_cons_self, e, he, rfl⟩
  · exact .inl ⟨b, List.mem_cons_of_mem _ hb, e, he, rfl⟩

/-- A number that is located is live. -/
theorem live_of_locate? {name : κ} {number : Nat} (h : t.locate? name = some number) :
    t.Live number := by
  obtain ⟨b, hb, hfind⟩ := List.exists_of_findSome?_eq_some h
  rw [Bindings.find?, List.lookup_eq_findSome?] at hfind
  obtain ⟨e, he, hnumber⟩ := List.exists_of_findSome?_eq_some hfind
  obtain ⟨-, hnumber⟩ := Option.ite_none_right_eq_some.mp hnumber
  exact ⟨b, hb, e, he, Option.some.inj hnumber⟩

end Table

namespace TableCall

variable {w : Workshop} {c : TableCall} {base : List (Bindings Datum)} {level level' : Nat}

/-- A call leaves alone the scopes around those that were opened. -/
theorem drop_outer_next (hbase : base ≠ []) (h : w.table.outer.drop level = base)
    (hlevel : level? level c = some level') : (c.next w).table.outer.drop level' = base := by
  cases c with
  | enter =>
    obtain rfl := Option.some.inj hlevel
    exact Table.drop_outer_enter h
  | exit =>
    cases level with
    | zero => cases hlevel
    | succ level =>
      obtain rfl := Option.some.inj hlevel
      exact Table.drop_outer_exit hbase h
  | insert r =>
    obtain rfl := Option.some.inj hlevel
    rcases Work.table_insert w r with hsame | hinsert
    · rwa [next, hsame]
    · rwa [next, (Table.insert?_eq_some hinsert).2.2]
  | lookup name =>
    obtain rfl := Option.some.inj hlevel
    rwa [next, Work.table_lookup]
  | update name changes =>
    obtain rfl := Option.some.inj hlevel
    rwa [next, (Work.table_update w name changes).2.1]

/-- Calls that close no other scopes than they opened leave those around them. -/
theorem drop_outer_run (hbase : base ≠ []) {calls : List TableCall}
    (h : w.table.outer.drop level = base) (hlevel : calls.foldlM level? level = some level') :
    (run calls w).table.outer.drop level' = base := by
  induction calls generalizing w level with
  | nil =>
    obtain rfl := Option.some.inj hlevel
    exact h
  | cons c calls ih =>
    obtain ⟨middle, hmiddle, hlevel⟩ := Option.bind_eq_some_iff.mp hlevel
    exact ih (drop_outer_next hbase h hmiddle) hlevel

/-- A call that is no update keeps all symbols as they are. -/
theorem keeps_next (w : Workshop) (hc : c.isUpdate = false) : w.table.Keeps (c.next w).table := by
  cases c with
  | enter => exact .refl _
  | exit => exact ⟨#[], by simp [next, Work.exit]⟩
  | insert r =>
    rcases Work.table_insert w r with hsame | hinsert
    · rw [next, hsame]
      exact .refl _
    · exact ⟨#[r], by simp [next, (Table.insert?_eq_some hinsert).1]⟩
  | lookup name =>
    rw [next, Work.table_lookup]
    exact .refl _
  | update => cases hc

/-- Calls that are no updates keep the entries. -/
theorem keeps_run (w : Workshop) {calls : List TableCall} (h : ∀ c ∈ calls, c.isUpdate = false) :
    w.table.Keeps (run calls w).table := by
  induction calls generalizing w with
  | nil => exact .refl _
  | cons c calls ih =>
    obtain ⟨hc, hcalls⟩ := List.forall_mem_cons.mp h
    exact (keeps_next w hc).trans (ih (c.next w) hcalls)

theorem stocked_next (h : w.table.Stocked) (c : TableCall) : (c.next w).table.Stocked := by
  cases c with
  | enter => exact fun number hlive => h number (Table.live_enter hlive)
  | exit =>
    intro number hlive
    have hsize : (next w exit).table.entries.size = w.table.entries.size :=
      congrArg Array.size (Table.entries_exit w.table)
    rw [hsize]
    exact h number (Table.live_exit hlive)
  | insert r =>
    rcases Work.table_insert w r with hsame | hinsert
    · rwa [next, hsame]
    · intro number hlive
      have hsize : (next w (insert r)).table.entries.size = w.table.entries.size + 1 := by
        rw [next, (Table.insert?_eq_some hinsert).1, Array.size_push]
      rcases Table.live_insert? hinsert hlive with hlive | rfl
      · have := h number hlive
        omega
      · omega
  | lookup name => rwa [next, Work.table_lookup]
  | update name changes =>
    obtain ⟨hscope, houter, hsize⟩ := Work.table_update w name changes
    intro number hlive
    rw [next, hsize]
    unfold Table.Live at hlive
    rw [next, hscope, houter] at hlive
    exact h number hlive

/-- After any calls every symbol that an open scope binds is there. -/
theorem stocked_run (calls : List TableCall) : (run calls .empty).table.Stocked := by
  suffices hrun : ∀ w : Workshop, w.table.Stocked →
      (run calls w).table.Stocked from hrun .empty .empty
  intro w hw
  induction calls generalizing w with
  | nil => exact hw
  | cons c calls ih => exact ih _ (stocked_next hw c)

/-- A scope that is opened, used in any way that closes what it opens, and closed, leaves the scopes
as they were. -/
theorem scopes_run_enter_exit (w : Workshop) {body : List TableCall} (h : Balanced body) :
    (run (enter :: body ++ [exit]) w).table.scope = w.table.scope ∧
      (run (enter :: body ++ [exit]) w).table.outer = w.table.outer := by
  have hopened : (next w enter).table.outer.drop 0 = w.table.scope :: w.table.outer := rfl
  have hinside : (run body (next w enter)).table.outer = w.table.scope :: w.table.outer :=
    drop_outer_run (List.cons_ne_nil _ _) hopened h
  have hrun : run (enter :: body ++ [exit]) w = next (run body (next w enter)) exit := by simp [run]
  have hexit : (next (run body (next w enter)) exit).table =
      (run body (next w enter)).table.exit := rfl
  rw [hrun, hexit]
  simp [Table.exit, hinside]

/-- In every table that calls lead to, a scope that is opened, used in any way that closes what it
opens, and closed leaves the number of scopes, the names in each of them, their order and the
symbols that they are bound to; so the same symbol is found under every name. Unless there is an
update inside, all these symbols also say the same as before. -/
theorem run_enter_exit (before body : List TableCall) (hbody : Balanced body) :
    let w := run before .empty
    let w' := run (enter :: body ++ [exit]) w
    w'.table.depth = w.table.depth ∧ w'.table.scope = w.table.scope ∧
      w'.table.outer = w.table.outer ∧ (∀ name, w'.table.locate? name = w.table.locate? name) ∧
      (∀ number, w.table.Live number → (w.table.entries[number]?).isSome = true) ∧
      ((∀ c ∈ body, c.isUpdate = false) → (∀ number, w.table.Live number →
      w'.table.entries[number]? = w.table.entries[number]?) ∧
      ∀ name, ((Work.lookup name).perform w').1 = ((Work.lookup name).perform w).1) := by
  intro w w'
  have hstocked : w.table.Stocked := stocked_run before
  obtain ⟨hscope, houter⟩ := scopes_run_enter_exit w hbody
  have hlocate (name : Datum) : w'.table.locate? name = w.table.locate? name := by
    rw [Table.locate?, hscope, houter, Table.locate?]
  refine ⟨by rw [Table.depth, houter, Table.depth], hscope, houter, hlocate, ?_, ?_⟩
  · intro number hlive
    simp [hstocked number hlive]
  · intro hupdates
    have hkeeps : w.table.Keeps w'.table := by
      refine keeps_run w fun c hc => ?_
      rcases List.mem_append.mp hc with hc | hc
      · rcases List.mem_cons.mp hc with rfl | hc
        · rfl
        · exact hupdates c hc
      · obtain rfl := List.mem_singleton.mp hc
        rfl
    have hentries (number : Nat) (hlive : w.table.Live number) :
        w'.table.entries[number]? = w.table.entries[number]? :=
          hkeeps.getElem? (hstocked number hlive)
    refine ⟨hentries, fun name => ?_⟩
    have hlookup : w'.table.lookup name = w.table.lookup name := by
      rw [Table.lookup, hlocate, Table.lookup]
      cases hfound : w.table.locate? name with
      | none => rfl
      | some number => exact hentries number (Table.live_of_locate? hfound)
    simp only [Work.lookup, Work.perform_bind, Work.perform_liftM]
    cases name.checkKey with
    | error f => rfl
    | ok _ => exact congrArg Except.ok hlookup

/-- Both names are bound again inside, at two depths each; the index has the inner symbols at last.
-/
theorem run_enter_exit_shadowed :
    let symbol (name : String) (ty : String) : TableCall :=
  insert ⟨.ofText name, .ofText ty, .none, .none, .none⟩
    let w := run [symbol "x" "ent", symbol "y" "dec"] .empty
    let body := [symbol "y" "ent", enter, symbol "x" "cadena", lookup (.ofText "x"), enter,
      symbol "y" "cadena", exit, exit, symbol "x" "dec"]
    let w' := run (enter :: body ++ [exit]) w
    Balanced body ∧ w'.table.index.find? (.ofText "x") = some 5 ∧ w'.table.scope = w.table.scope ∧
      w'.table.locate? (.ofText "x") = some 0 ∧ w'.table.entries[1]? = w.table.entries[1]? := by
  intro symbol w body w'
  have hbody : Balanced body := by decide
  obtain ⟨-, hscope, -, hlocate, -, hframe⟩ :=
    run_enter_exit [symbol "x" "ent", symbol "y" "dec"] body hbody
  have hlive : w.table.Live 1 :=
    ⟨w.table.scope, List.mem_cons_self, _, List.mem_cons_of_mem _ List.mem_cons_self, rfl⟩
  exact ⟨hbody, rfl, hscope, hlocate (.ofText "x"), (hframe (by decide)).1 1 hlive⟩

end TableCall

end Analizador
