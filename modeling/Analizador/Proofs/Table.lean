import Analizador.Symbol

/-! # Laws of tables

Changing what the entries of a table say leaves alone which names it binds. A table of variables
that are declared one after the other in one scope is given by the list of their symbols. -/

namespace Analizador

namespace Table

variable {κ σ τ : Type}

/-- Changes every entry. -/
def map (f : σ → τ) (t : Table κ σ) : Table κ τ := ⟨t.entries.map f, t.scope, t.outer, t.index⟩

@[simp] theorem map_enter (f : σ → τ) (t : Table κ σ) : (t.enter).map f = (t.map f).enter := rfl

/-- Closing a scope and mapping the entries commute. -/
@[simp] theorem map_exit (f : σ → τ) (t : Table κ σ) : (t.exit).map f = (t.map f).exit := by
  obtain ⟨entries, scope, outer, index⟩ := t
  cases outer <;> rfl

/-- A scope that is opened and closed at once leaves no trace. -/
@[simp] theorem exit_enter (t : Table κ σ) : t.enter.exit = t := rfl

@[simp] theorem entries_exit (t : Table κ σ) : t.exit.entries = t.entries := by
  obtain ⟨entries, scope, outer, index⟩ := t
  cases outer <;> rfl

/-- There is one scope more than the depth. -/
theorem length_scopes (t : Table κ σ) : t.scopes.length = t.depth + 1 := by
  simp [scopes, depth]

/-- A change of an entry that `f` does not see. -/
theorem map_modify {f : σ → τ} {g : σ → σ} (hg : ∀ s, f (g s) = f s) (t : Table κ σ)
    (number : Nat) :
    (t.modify number g).map f = t.map f := by
  have hentries : (t.entries.modify number g).map f = t.entries.map f := by
    apply Array.ext_getElem?
    intro i
    simp only [Array.getElem?_map, Array.getElem?_modify]
    split
    next => cases t.entries[i]? <;> simp [hg]
    next => rfl
  simp [modify, map, hentries]

/-- What holds of every entry holds after a change that keeps it. -/
theorem forall_modify {P : σ → Prop} {g : σ → σ} (hg : ∀ s, P s → P (g s)) {t : Table κ σ}
    (h : ∀ s ∈ t.entries, P s) (number : Nat) : ∀ s ∈ (t.modify number g).entries, P s := by
  intro s hs
  obtain ⟨i, hi⟩ := Array.mem_iff_getElem?.mp hs
  simp only [modify, Array.getElem?_modify] at hi
  split at hi
  next =>
    obtain ⟨s', hs', rfl⟩ := Option.map_eq_some_iff.mp hi
    exact hg s' (h s' (Array.mem_of_getElem? hs'))
  next => exact h s (Array.mem_of_getElem? hi)

/-- What is listed under a name is an entry. -/
theorem mem_of_named {t : Table κ σ} {name : κ} {s : σ} (h : (name, s) ∈ t.named) :
    s ∈ t.entries := by
  obtain ⟨⟨_, number⟩, -, hnumber⟩ := List.mem_filterMap.mp h
  obtain ⟨s', hs', heq⟩ := Option.map_eq_some_iff.mp hnumber
  obtain ⟨-, rfl⟩ := Prod.mk.inj heq
  exact Array.mem_of_getElem? hs'

variable [BEq κ]

/-- Entries are looked up by name, whatever they are mapped to. -/
theorem lookup_map (f : σ → τ) (t : Table κ σ) (name : κ) :
    (t.map f).lookup name = (t.lookup name).map f := by
  have hlocate : (t.map f).locate? name = t.locate? name := rfl
  simp only [lookup, hlocate]
  cases t.locate? name with
  | none => rfl
  | some number => simp [map]

/-- What is looked up is an entry. -/
theorem mem_of_lookup {t : Table κ σ} {name : κ} {s : σ} (h : t.lookup name = some s) :
    s ∈ t.entries := by
  obtain ⟨number, -, hs⟩ := Option.bind_eq_some_iff.mp h
  exact Array.mem_of_getElem? hs

/-- A change that `f` does not see leaves the table as `f` sees it. -/
theorem map_modifyIndexed {f : σ → τ} {g : σ → σ} (hg : ∀ s, f (g s) = f s) (t : Table κ σ)
    (name : κ) :
    (t.modifyIndexed name g).map f = t.map f := by
  unfold modifyIndexed
  split
  next number _ => exact map_modify hg t number
  next => rfl

theorem map_modifyLocated {f : σ → τ} {g : σ → σ} (hg : ∀ s, f (g s) = f s) (t : Table κ σ)
    (name : κ) :
    (t.modifyLocated name g).map f = t.map f := by
  unfold modifyLocated
  split
  next number _ => exact map_modify hg t number
  next => rfl

theorem forall_modifyLocated {P : σ → Prop} {g : σ → σ} (hg : ∀ s, P s → P (g s)) {t : Table κ σ}
    (h : ∀ s ∈ t.entries, P s) (name : κ) : ∀ s ∈ (t.modifyLocated name g).entries, P s := by
  unfold modifyLocated
  split
  next number _ => exact forall_modify hg h number
  next => exact h

theorem forall_modifyIndexed {P : σ → Prop} {g : σ → σ} (hg : ∀ s, P s → P (g s)) {t : Table κ σ}
    (h : ∀ s ∈ t.entries, P s) (name : κ) : ∀ s ∈ (t.modifyIndexed name g).entries, P s := by
  unfold modifyIndexed
  split
  next number _ => exact forall_modify hg h number
  next => exact h

/-- What holds of every entry and of a new one holds after the insertion. -/
theorem forall_insert? {P : σ → Prop} {t t' : Table κ σ} {name : κ} {s : σ}
    (hP : ∀ s ∈ t.entries, P s) (hs : P s) (h : t.insert? name s = some t') :
    ∀ s ∈ t'.entries, P s := by
  unfold insert? at h
  split at h
  next => cases h
  next =>
    obtain rfl := Option.some.inj h
    intro s' hs'
    rcases Array.mem_push.mp hs' with hs' | rfl
    · exact hP s' hs'
    · exact hs

/-- Insertion and mapping the entries commute. -/
theorem insert?_map (f : σ → τ) (t : Table κ σ) (name : κ) (s : σ) :
    (t.map f).insert? name (f s) = (t.insert? name s).map (map f) := by
  unfold insert?
  split <;> simp_all [map]

section Commuting

variable {f : σ → τ} {g : σ → σ} {h : τ → τ}

omit [BEq κ] in
/-- An entry can be changed before the entries are mapped or after, if the two changes agree. -/
theorem modify_map (hfg : ∀ s, f (g s) = h (f s)) (t : Table κ σ) (number : Nat) :
    (t.map f).modify number h = (t.modify number g).map f := by
  have hentries : (t.entries.map f).modify number h = (t.entries.modify number g).map f := by
    apply Array.ext_getElem?
    intro i
    simp only [Array.getElem?_map, Array.getElem?_modify]
    split
    next => cases t.entries[i]? <;> simp [hfg]
    next => rfl
  simp [modify, map, hentries]

theorem modifyIndexed_map (hfg : ∀ s, f (g s) = h (f s)) (t : Table κ σ) (name : κ) :
    (t.map f).modifyIndexed name h = (t.modifyIndexed name g).map f := by
  have hindex : (t.map f).index = t.index := rfl
  unfold modifyIndexed
  rw [hindex]
  split
  next number _ => exact modify_map hfg t number
  next => rfl

theorem modifyLocated_map (hfg : ∀ s, f (g s) = h (f s)) (t : Table κ σ) (name : κ) :
    (t.map f).modifyLocated name h = (t.modifyLocated name g).map f := by
  have hlocate : (t.map f).locate? name = t.locate? name := rfl
  unfold modifyLocated
  rw [hlocate]
  split
  next number _ => exact modify_map hfg t number
  next => rfl

end Commuting

end Table

theorem Bindings.find?_cons {κ : Type} [BEq κ] [LawfulBEq κ] [DecidableEq κ] (key : κ)
    (number : Nat) (rest : Bindings κ) (name : κ) :
    find? ((key, number) :: rest) name = if name = key then some number else rest.find? name := by
  unfold find?
  rw [List.lookup_cons]
  split <;> simp_all

/-- A symbol without its value. -/
def Symbol.forget (s : Symbol) : Symbol := { s with value := none }

namespace Table

/-- The names of some symbols, each bound to the number of the symbol. -/
def numbered (symbols : List Symbol) (first : Nat) : Bindings String :=
  (symbols.zipIdx first).map fun (s, i) => (s.name, i)

/-- The table of variables declared one after the other in a single scope. -/
def ofSymbols (symbols : List Symbol) : Table String Symbol :=
  ⟨symbols.toArray, numbered symbols 0, [], numbered symbols 0⟩

theorem numbered_cons (s : Symbol) (symbols : List Symbol) (first : Nat) :
    numbered (s :: symbols) first = (s.name, first) :: numbered symbols (first + 1) := rfl

/-- A new symbol is numbered last. -/
theorem numbered_append (symbols : List Symbol) (s : Symbol) (first : Nat) :
    numbered (symbols ++ [s]) first =
      numbered symbols first ++ [(s.name, first + symbols.length)] := by
  simp [numbered, List.zipIdx_append]

/-- Binding a new name puts it last. -/
theorem put_numbered {symbols : List Symbol} {name : String} (h : name ∉ symbols.map Symbol.name)
    (first number : Nat) :
    (numbered symbols first).put name number = numbered symbols first ++ [(name, number)] := by
  induction symbols generalizing first with
  | nil => rfl
  | cons s symbols ih =>
    simp only [List.map_cons, List.mem_cons, not_or] at h
    simp [numbered_cons, Bindings.put, h.1, ih h.2]

/-- A name is found exactly if a symbol has it. -/
theorem find?_numbered_isSome (symbols : List Symbol) (first : Nat) (name : String) :
    ((numbered symbols first).find? name).isSome = true ↔ name ∈ symbols.map Symbol.name := by
  induction symbols generalizing first with
  | nil => simp [numbered, Bindings.find?]
  | cons s symbols ih =>
    rw [numbered_cons, Bindings.find?_cons, List.map_cons, List.mem_cons, ← ih (first + 1)]
    split <;> simp_all

/-- The entry of a name is the first symbol of that name. -/
theorem lookup_ofSymbols (symbols : List Symbol) (name : String) :
    (ofSymbols symbols).lookup name = symbols.find? (·.name = name) := by
  have hbind (before after : List Symbol) :
      ((numbered after before.length).find? name).bind ((before ++ after)[·]?) =
        after.find? (·.name = name) := by
    induction after generalizing before with
    | nil => rfl
    | cons s after ih =>
      have hnext := ih (before ++ [s])
      rw [List.append_assoc, List.length_append] at hnext
      rw [numbered_cons, Bindings.find?_cons]
      split
      next hname => simp [hname]
      next hname => simpa [Ne.symm hname] using hnext
  have hlookup : (ofSymbols symbols).lookup name =
      ((numbered symbols 0).find? name).bind (symbols[·]?) := by
    cases hfind : (numbered symbols 0).find? name <;>
      simp [lookup, locate?, ofSymbols, hfind]
  rw [hlookup]
  exact hbind [] symbols

/-- A symbol with a new name goes after the others. -/
theorem insert?_ofSymbols {symbols : List Symbol} {s : Symbol}
    (h : s.name ∉ symbols.map Symbol.name) :
    (ofSymbols symbols).insert? s.name s = some (ofSymbols (symbols ++ [s])) := by
  have hfree : ¬ ((numbered symbols 0).find? s.name).isSome = true := by rwa [find?_numbered_isSome]
  simp [insert?, ofSymbols, hfree, put_numbered h, numbered_append]

/-- A new symbol is put after those that are there, whatever values they have. -/
theorem exists_insert?_of_forget {t : Table String Symbol} {symbols : List Symbol} {s : Symbol}
    (h : t.map Symbol.forget = ofSymbols symbols) (hnew : s.name ∉ symbols.map Symbol.name) :
    ∃ t', t.insert? s.name s = some t' ∧
      t'.map Symbol.forget = ofSymbols (symbols ++ [s.forget]) := by
  have hinsert := insert?_map Symbol.forget t s.name s
  rw [h] at hinsert
  rw [show s.name = s.forget.name from rfl, insert?_ofSymbols (s := s.forget) hnew] at hinsert
  exact Option.map_eq_some_iff.mp hinsert.symm

end Table

end Analizador
