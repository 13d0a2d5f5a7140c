import Analizador.Proofs.Analysis.Verdict

/-! # First declarations

Values aside, the table that a walk leaves is that of the first declarations of the names, in the
order of the text. What is walked later only adds symbols after those that are there. -/

namespace Analizador

/-- The symbols of the names that are declared first among some mentions, where some names are known
before. -/
def firstDeclared (known : List String) : List Mention → List Symbol
  | [] => []
  | .used _ :: ms => firstDeclared known ms
  | .declared ty n :: ms =>
    if n.text ∈ known then firstDeclared known ms
    else ⟨n.text, ty, none, n.spot⟩ :: firstDeclared (known ++ [n.text]) ms

theorem firstDeclared_append (known : List String) (ms ms' : List Mention) :
    firstDeclared known (ms ++ ms') = firstDeclared known ms ++
      firstDeclared (known ++ (firstDeclared known ms).map Symbol.name) ms' := by
  induction ms generalizing known with
  | nil => simp [firstDeclared]
  | cons m ms ih =>
    cases m with
    | used n => exact ih known
    | declared ty n =>
      simp only [List.cons_append, firstDeclared]
      split
      next => exact ih known
      next => simp [ih]

theorem firstDeclared_used (known : List String) (names : List Name) :
    firstDeclared known (names.map .used) = [] := by
  induction names with
  | nil => rfl
  | cons n names ih => exact ih

namespace Table

/-- The names of a table of symbols are bound to them one after the other. -/
theorem named_ofSymbols (symbols : List Symbol) :
    (ofSymbols symbols).named = symbols.map fun s => (s.name, s) := by
  have hnumbered (before after : List Symbol) :
      (numbered after before.length).filterMap
      (fun entry => ((before ++ after)[entry.2]?).map (entry.1, ·)) =
        after.map fun s => (s.name, s) := by
    induction after generalizing before with
    | nil => rfl
    | cons s after ih =>
      have hnext := ih (before ++ [s])
      rw [List.append_assoc, List.length_append] at hnext
      simpa [numbered_cons] using hnext
  simpa [named, ofSymbols] using hnumbered [] symbols

theorem named_map {κ σ τ : Type} (f : σ → τ) (t : Table κ σ) :
    (t.map f).named = t.named.map (Prod.map id f) := by
  simp only [named, map, List.map_filterMap, Array.getElem?_map, Option.map_map]
  rfl

/-- Values aside, the table holds the given symbols in its only scope, and the declared names are
theirs. -/
structure Lists (t : Table String Symbol) (declared : List String) (symbols : List Symbol) :
    Prop where
  table : t.map Symbol.forget = .ofSymbols symbols
  names : declared = symbols.map Symbol.name

namespace Lists

variable {t : Table String Symbol} {declared : List String} {symbols : List Symbol}

theorem start : Lists .empty [] [] :=
  ⟨by simp [map, empty, ofSymbols, numbered], rfl⟩

/-- The symbols of one part of the text and then of the next are those of both. -/
theorem append {t' : Table String Symbol} {declared' : List String} {ms : List Mention}
    (h : t.Lists declared symbols) (h' : t'.Lists declared' (symbols ++ firstDeclared declared ms))
    (ms' : List Mention) :
    symbols ++ firstDeclared declared ms ++ firstDeclared declared' ms' =
      symbols ++ firstDeclared declared (ms ++ ms') := by
  rw [firstDeclared_append, h'.names, List.map_append, ← h.names, List.append_assoc]

theorem declare (h : t.Lists declared symbols) (ty : Ty) (n : Name) :
    (n.declare t declared ty).table.Lists (n.declare t declared ty).declared
      (symbols ++ firstDeclared declared [.declared ty n]) := by
  by_cases hn : n.text ∈ declared
  · have hknown : declared.contains n.text = true := by simpa using hn
    simp only [Name.declare, if_pos hknown, firstDeclared, if_pos hn, List.append_nil]
    exact h
  · have hknown : ¬ declared.contains n.text = true := by simpa using hn
    simp only [Name.declare, if_neg hknown, firstDeclared, if_neg hn]
    let symbol : Symbol := ⟨n.text, ty, none, n.spot⟩
    have hnew : symbol.name ∉ symbols.map Symbol.name := h.names ▸ hn
    obtain ⟨t', ht', hforget⟩ := exists_insert?_of_forget h.table hnew
    rw [ht', Option.getD_some]
    exact ⟨hforget, by simp [h.names]⟩

theorem declareAll (h : t.Lists declared symbols) (ty : Ty) (names : List Name) :
    (Name.declareAll t declared ty names).table.Lists (Name.declareAll t declared ty names).declared
      (symbols ++ firstDeclared declared (names.map (.declared ty))) := by
  induction names generalizing t declared symbols with
  | nil => simpa [Name.declareAll, firstDeclared] using h
  | cons n rest ih =>
    have hfirst := h.declare ty n
    have hrest := ih hfirst
    rw [h.append hfirst] at hrest
    exact hrest

/-- An item adds the symbols of the names that it declares first. -/
theorem walk (h : t.Lists declared symbols) (i : Item) :
    (i.walk t declared).table.Lists (i.walk t declared).declared
      (symbols ++ firstDeclared declared i.mentions) := by
  cases i with
  | declaration ty listType names => exact h.declareAll ty names
  | statement s =>
    rw [Item.mentions, firstDeclared_used, List.append_nil]
    exact ⟨(Stmt.forget_walk t s).trans h.table, h.names⟩

/-- Items add the symbols of the names that they declare first. -/
theorem walkAll (h : t.Lists declared symbols) (is : List Item) :
    (Item.walkAll t declared is).table.Lists (Item.walkAll t declared is).declared
      (symbols ++ firstDeclared declared (is.flatMap Item.mentions)) := by
  induction is generalizing t declared symbols with
  | nil => simpa [Item.walkAll, firstDeclared] using h
  | cons i rest ih =>
    have hfirst := h.walk i
    have hrest := ih hfirst
    rw [h.append hfirst] at hrest
    exact hrest

/-- The names of a table with the symbols under them, values aside. -/
theorem named (h : t.Lists declared symbols) :
    t.named.map (Prod.map id Symbol.forget) = symbols.map fun s => (s.name, s) := by
  rw [← named_map, h.table, named_ofSymbols]

end Lists

end Table

/-- Values aside, the table that the walk of a program leaves is that of the first declarations. -/
theorem Program.lists_walk (p : Program) :
    p.walk.table.Lists p.walk.declared (firstDeclared [] p.mentions) :=
  Table.Lists.start.walkAll p.items

end Analizador
