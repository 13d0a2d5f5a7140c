import Analizador.Proofs.Analysis.Values

/-! # Entries of the table

While a program is walked, its table is that of its entries, one for every declared name. An
assignment gives a value to the entry of its name alone, and a declaration gives none. -/

namespace Analizador

/-! ## Lookups after an assignment -/

namespace Table

/-- The value that a table has for a name. -/
def valueOf? (t : Table String Symbol) (name : String) : Option Constant :=
  (t.lookup name).bind Symbol.value

variable {t : Table String Symbol} {symbols : List Symbol} {name : String} {symbol : Symbol}

theorem numbered_forget (symbols : List Symbol) (first : Nat) :
    numbered (symbols.map Symbol.forget) first = numbered symbols first := by
  induction symbols generalizing first with
  | nil => rfl
  | cons s symbols ih => rw [List.map_cons, numbered_cons, numbered_cons, ih, Symbol.forget]

/-- A table that declares its variables one after the other is that of its entries. -/
theorem eq_ofSymbols (h : t.map Symbol.forget = ofSymbols symbols) :
    t = ofSymbols t.entries.toList ∧
      symbols.map Symbol.name = t.entries.toList.map Symbol.name := by
  obtain ⟨entries, scope, outer, index⟩ := t
  simp only [map, ofSymbols, mk.injEq] at h ⊢
  obtain ⟨hentries, rfl, rfl, rfl⟩ := h
  have hsymbols : symbols = entries.toList.map Symbol.forget := by
    rw [← Array.toList_map, hentries]
  simp [hsymbols, numbered_forget, Function.comp_def, Symbol.forget]

theorem name_of_lookup_ofSymbols (h : (ofSymbols symbols).lookup name = some symbol) :
    symbol.name = name := by
  rw [lookup_ofSymbols] at h
  simpa using List.find?_some h

theorem flat_ofSymbols (symbols : List Symbol) : (ofSymbols symbols).Flat := by
  intro name number h
  simpa [locate?, ofSymbols] using h

theorem Flat.assign_eq (h : t.Flat) {number : Nat} (hlocate : t.locate? name = some number)
    (value : Option Constant) :
    t.assign name value =
      (t.modify number ({ · with value })).modify number ({ · with value }) := by
  simp [assign, modifyLocated, hlocate, modifyIndexed, modify, h name number hlocate]

/-- An assignment changes what is found under the name of the variable alone. -/
theorem lookup_assign (hname : ∀ name symbol, t.lookup name = some symbol → symbol.name = name)
    (hflat : t.Flat) (hlookup : t.lookup name = some symbol) (value : Option Constant)
    (other : String) :
    (t.assign name value).lookup other =
      if other = name then some { symbol with value } else t.lookup other := by
  obtain ⟨number, hlocate, hentry⟩ := Option.bind_eq_some_iff.mp hlookup
  have hassign := hflat.assign_eq hlocate value
  have hlocated : (t.assign name value).locate? other = t.locate? other := by
    rw [hassign]
    rfl
  simp only [lookup, hlocated]
  cases hother : t.locate? other with
  | none =>
    have hne : other ≠ name := by
      rintro rfl
      simp [hlocate] at hother
    simp [hne]
  | some k =>
    -- Two names with one entry are the same, since an entry knows its name.
    have hiff : number = k ↔ other = name := by
      constructor
      · rintro rfl
        exact (hname other symbol (by simp [lookup, hother, hentry])).symm.trans
          (hname name symbol hlookup)
      · rintro rfl
        exact Option.some.inj (hlocate.symm.trans hother)
    rw [hassign]
    simp only [Option.bind_eq_bind, Option.bind_some, modify, Array.getElem?_modify]
    by_cases heq : number = k
    · subst heq
      simp [hiff.mp rfl, hentry]
    · simp [heq, mt hiff.mpr heq]

end Table

namespace Tracks

variable {t : Table String Symbol} {declared : List String} {before : List Mention} {name : String}
  {symbol : Symbol}

/-- The table is that of its entries, and these are the declared names. -/
theorem listed (h : Tracks t declared before) :
    t = .ofSymbols t.entries.toList ∧ declared = t.entries.toList.map Symbol.name := by
  obtain ⟨symbols, hsymbols, hdeclared⟩ := h.symbols
  obtain ⟨htable, hnames⟩ := Table.eq_ofSymbols hsymbols
  exact ⟨htable, hdeclared.trans hnames⟩

theorem valueOf?_assign (h : Tracks t declared before) (hlookup : t.lookup name = some symbol)
    (value : Option Constant) :
    (t.assign name value).valueOf? = Function.update t.valueOf? name value := by
  have hname (name : String) (symbol : Symbol) (hfound : t.lookup name = some symbol) :
      symbol.name = name := by
    rw [h.listed.1] at hfound
    exact Table.name_of_lookup_ofSymbols hfound
  have hflat : t.Flat := by
    rw [h.listed.1]
    exact Table.flat_ofSymbols _
  funext other
  rw [Table.valueOf?, Table.lookup_assign hname hflat hlookup, Function.update_apply]
  split <;> rfl

/-- A declaration gives no value. -/
theorem valueOf?_declare (h : Tracks t declared before) (ty : Ty) (n : Name) :
    (n.declare t declared ty).table.valueOf? = t.valueOf? := by
  unfold Name.declare
  split
  next => rfl
  next hnew =>
    obtain ⟨htable, hdeclared⟩ := h.listed
    generalize t.entries.toList = symbols at htable hdeclared
    subst htable hdeclared
    let symbol : Symbol := ⟨n.text, ty, none, n.spot⟩
    have hinsert : (Table.ofSymbols symbols).insert? n.text symbol =
        some (.ofSymbols (symbols ++ [symbol])) :=
          Table.insert?_ofSymbols (s := symbol) (by simpa using hnew)
    funext name
    simp only [Table.valueOf?, hinsert, symbol, Option.getD_some, Table.lookup_ofSymbols,
      List.find?_append]
    cases symbols.find? (·.name = name) with
    | some s => rfl
    | none => by_cases hname : n.text = name <;> simp [hname]

theorem valueOf?_declareAll (h : Tracks t declared before) (ty : Ty) (names : List Name) :
    (Name.declareAll t declared ty names).table.valueOf? = t.valueOf? := by
  induction names generalizing t declared before with
  | nil => rfl
  | cons n rest ih => exact (ih (h.declare ty n).1).trans (h.valueOf?_declare ty n)

theorem walk (h : Tracks t declared before) (i : Item) :
    Tracks (i.walk t declared).table (i.walk t declared).declared (before ++ i.mentions) := by
  cases i with
  | declaration ty listType names => exact (h.declareAll ty names).1
  | statement s => exact h.stmt s

end Tracks

/-! ## Entries by their names -/

theorem Name.nodup_declareAll {t : Table String Symbol} {declared : List String}
    (h : declared.Nodup) (ty : Ty) (names : List Name) :
    (declareAll t declared ty names).declared.Nodup := by
  induction names generalizing t declared with
  | nil => exact h
  | cons n rest ih =>
    refine ih ?_
    unfold declare
    split
    next => exact h
    next hnew =>
      have hn : n.text ∉ declared := by simpa using hnew
      exact h.append (List.nodup_singleton n.text) (List.disjoint_singleton.mpr hn)

theorem Item.nodup_walkAll {t : Table String Symbol} {declared : List String} (h : declared.Nodup)
    (is : List Item) : (walkAll t declared is).declared.Nodup := by
  induction is generalizing t declared with
  | nil => exact h
  | cons i rest ih =>
    refine ih ?_
    cases i with
    | declaration ty listType names => exact Name.nodup_declareAll h ty names
    | statement s => exact h

/-- In a table that declares every name once, an entry is found under its name. -/
theorem Tracks.valueOf?_of_mem {t : Table String Symbol} {declared : List String}
    {before : List Mention} (h : Tracks t declared before) (hnodup : declared.Nodup)
    {symbol : Symbol} (hmem : symbol ∈ t.entries) :
    t.valueOf? symbol.name = symbol.value := by
  obtain ⟨htable, hnames⟩ := h.listed
  rw [hnames] at hnodup
  rw [← Array.mem_toList_iff] at hmem
  have hlookup : t.lookup symbol.name = some symbol := by
    rw [htable, Table.lookup_ofSymbols]
    cases hfind : t.entries.toList.find? (·.name = symbol.name) with
    | none => simpa using List.find?_eq_none.mp hfind symbol hmem
    | some found =>
      have hname : found.name = symbol.name := by simpa using List.find?_some hfind
      rw [List.inj_on_of_nodup_map hnodup (List.mem_of_find?_eq_some hfind) hmem hname]
  rw [Table.valueOf?, hlookup, Option.bind_some]

end Analizador
