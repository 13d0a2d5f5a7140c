import Analizador.Proofs.Analysis.Verdict
import Analizador.Proofs.Reader.Names

/-! # Names that are not declared

A fault about an undeclared name stands at a use of that name, and the name is declared nowhere
before. The names of a program are the identifiers of its text in their order, so the fault is found
at an identifier of the text. -/

namespace Analizador

/-! ## Parts without declarations -/

/-- If the fault is about an undeclared name, it stands at one of the given names, which the table
does not know. -/
def Fault.Among (t : Table String Symbol) (names : List Name) (f : Fault) : Prop :=
  ∀ name spot, f = .undeclared name spot →
    ∃ n ∈ names, n.text = name ∧ n.spot = spot ∧ t.typeOf? name = none

namespace Fault.Among

variable {t t' : Table String Symbol} {names others : List Name} {f : Fault}

theorem mono (h : f.Among t names) (hnames : names ⊆ others) : f.Among t others := by
  intro name spot hf
  obtain ⟨n, hn, hfound⟩ := h name spot hf
  exact ⟨n, hnames hn, hfound⟩

theorem congr (h : f.Among t' names) (hsame : t'.map Symbol.forget = t.map Symbol.forget) :
    f.Among t names := by
  rwa [Among, ← Table.typeOf?_congr hsame]

theorem of_lookup {n : Name} (hn : n ∈ names) (h : t.lookup n.text = none) :
    (undeclared n.text n.spot).Among t names := by
  rintro name spot ⟨⟩
  exact ⟨n, hn, rfl, rfl, by rw [Table.typeOf?, h]; rfl⟩

end Fault.Among

section Parts

variable {t : Table String Symbol} {f : Fault}

theorem Expr.among_operationFaults {op : Operator} {left right : Expr} {names : List Name}
    (h : f ∈ operationFaults op left right) : f.Among t names := by
  rintro name spot rfl
  unfold operationFaults at h
  split at h
  next =>
    split at h
    next => cases h
    next => cases List.mem_singleton.mp h
  next => cases h

theorem Expr.among_faults {e : Expr} (h : f ∈ e.faults t) : f.Among t e.uses := by
  induction e with
  | number | text => cases h
  | use name =>
    cases hlookup : t.lookup name.text with
    | none =>
      simp only [faults, hlookup, List.mem_singleton] at h
      subst h
      exact .of_lookup (by simp [uses]) hlookup
    | some symbol => simp [faults, hlookup] at h
  | binary op left right mark ihleft ihright =>
    simp only [faults, List.mem_append] at h
    rcases h with (hleft | hright) | hoperation
    · exact (ihleft hleft).mono (List.subset_append_left ..)
    · exact (ihright hright).mono (List.subset_append_right ..)
    · exact among_operationFaults hoperation

theorem Name.among_assigned {target : Name} {value : Expr} {old : Option Ty}
    (h : f ∈ (target.assigned t value old).faults) : f.Among t [target] := by
  unfold Name.assigned at h
  split at h
  next hlookup =>
    obtain rfl : f = .undeclared target.text target.spot := by simpa using h
    exact .of_lookup (by simp) hlookup
  next =>
    dsimp only at h
    split at h
    next => cases h
    next =>
      split at h
      next => cases h
      next =>
        rintro name spot rfl
        cases List.mem_singleton.mp h

theorem Expr.among_guard {condition : Expr} {guard : Guard} {found : Ty} {spot : Option Spot}
    (h : f ∈ condition.faults t ++ [.condition guard found spot]) : f.Among t condition.uses := by
  rcases List.mem_append.mp h with hcondition | hguard
  · exact among_faults hcondition
  · rintro _ _ rfl
    cases List.mem_singleton.mp hguard

end Parts

mutual

/-- A fault of a statement about an undeclared name stands at a name that the statement uses. -/
theorem Stmt.among_walk {t : Table String Symbol} {f : Fault} :
    ∀ s : Stmt, f ∈ (s.walk t).faults → f.Among t s.uses
  | .assign target value ty, h => by
    rcases List.mem_append.mp h with hvalue | htarget
    · exact (Expr.among_faults hvalue).mono (List.subset_cons_self ..)
    · exact (Name.among_assigned htarget).mono (by simp [uses])
  | .conditional condition body other, h => by
    unfold Stmt.walk at h
    dsimp only at h
    split at h
    next => exact (Expr.among_guard h).mono (List.subset_append_left ..)
    next =>
      simp only [List.mem_append] at h
      rcases h with hcondition | hbody | hother
      · exact (Expr.among_faults hcondition).mono (List.subset_append_left ..)
      · have hfound : f.Among t (usesAll body) := among_walkAll (t := t.enter) body hbody
        exact hfound.mono (by simp [uses])
      · have hsame := Table.forget_exit (forget_walkAll t.enter body)
        exact ((among_walkOther other hother).congr hsame).mono (by simp [uses])
  | .whileLoop condition body, h => by
    unfold Stmt.walk at h
    dsimp only at h
    split at h
    next => exact (Expr.among_guard h).mono (List.subset_append_left ..)
    next =>
      rcases List.mem_append.mp h with hcondition | hbody
      · exact (Expr.among_faults hcondition).mono (List.subset_append_left ..)
      · have hfound : f.Among t (usesAll body) := among_walkAll (t := t.enter) body hbody
        exact hfound.mono (List.subset_append_right ..)
  | .repeatLoop count spot body, h => among_walkAll (t := t.enter) body h
  | .print value, h => Expr.among_faults h
  | .input target, h => by
    unfold Stmt.walk at h
    split at h
    next hlookup =>
      rw [List.mem_singleton.mp h]
      exact .of_lookup (by simp [uses]) hlookup
    next => cases h
  | .block body, h => among_walkAll body h

theorem Stmt.among_walkOther {t : Table String Symbol} {f : Fault} :
    ∀ other : Option (List Stmt), f ∈ (walkOther t other).faults → f.Among t (usesOther other)
  | none, h => by cases h
  | some body, h => among_walkAll (t := t.enter) body h

theorem Stmt.among_walkAll {t : Table String Symbol} {f : Fault} :
    ∀ body : List Stmt, f ∈ (walkAll t body).faults → f.Among t (usesAll body)
  | [], h => by cases h
  | s :: rest, h => by
    rcases List.mem_append.mp h with hfirst | hrest
    · exact (among_walk s hfirst).mono (List.subset_append_left ..)
    · exact ((among_walkAll rest hrest).congr (forget_walk t s)).mono (List.subset_append_right ..)

end

/-! ## Whole programs -/

/-- If the fault is about an undeclared name, it stands at a use of the name in the given part of a
program, and the name is not declared before. -/
def Fault.Misses (before ms : List Mention) (f : Fault) : Prop :=
  ∀ name spot, f = .undeclared name spot →
    ∃ pre n post, ms = pre ++ .used n :: post ∧ n.text = name ∧ n.spot = spot ∧
      typeOf? (before ++ pre) name = none

theorem Fault.misses_append_left {before ms ms' : List Mention} {f : Fault}
    (h : f.Misses before ms) :
    f.Misses before (ms ++ ms') := by
  intro name spot hf
  obtain ⟨pre, n, post, rfl, hfound⟩ := h name spot hf
  exact ⟨pre, n, post ++ ms', by simp, hfound⟩

theorem Fault.misses_append_right {before ms ms' : List Mention} {f : Fault}
    (h : f.Misses (before ++ ms) ms') : f.Misses before (ms ++ ms') := by
  intro name spot hf
  obtain ⟨pre, n, post, rfl, htext, hspot, hnone⟩ := h name spot hf
  exact ⟨ms ++ pre, n, post, by simp, htext, hspot, by rwa [← List.append_assoc]⟩

theorem Fault.Among.misses {t : Table String Symbol} {declared : List String}
    {before : List Mention} {names : List Name} {f : Fault} (h : f.Among t names)
    (htracks : Tracks t declared before) :
    f.Misses before (names.map .used) := by
  intro name spot hf
  obtain ⟨n, hn, htext, hspot, hnone⟩ := h name spot hf
  obtain ⟨pre, post, rfl⟩ := List.append_of_mem hn
  refine ⟨pre.map .used, n, post.map .used, by simp, htext, hspot, ?_⟩
  rwa [typeOf?_append_used, ← htracks.types]

/-- The only faults of a declaration are names that are declared again. -/
theorem Name.misses_declareAll {ty : Ty} {names : List Name} {before ms : List Mention} {f : Fault}
    {t : Table String Symbol} {declared : List String}
    (h : f ∈ (Name.declareAll t declared ty names).faults) : f.Misses before ms := by
  induction names generalizing t declared with
  | nil => cases h
  | cons n rest ih =>
    rcases List.mem_append.mp h with hfirst | hrest
    · rintro name spot rfl
      unfold Name.declare at hfirst
      split at hfirst
      next => cases List.mem_singleton.mp hfirst
      next => cases hfirst
    · exact ih hrest

/-- A fault in the walk of items about an undeclared name stands at a use of a name that is not
declared before. -/
theorem Tracks.misses {t : Table String Symbol} {declared : List String} {before : List Mention}
    (h : Tracks t declared before) {is : List Item} {f : Fault}
    (hf : f ∈ (Item.walkAll t declared is).faults) :
    f.Misses before (is.flatMap Item.mentions) := by
  induction is generalizing t declared before with
  | nil => cases hf
  | cons i rest ih =>
    rw [List.flatMap_cons]
    rcases List.mem_append.mp hf with hfirst | hrest
    · apply Fault.misses_append_left
      cases i with
      | declaration ty listType names => exact Name.misses_declareAll hfirst
      | statement s => exact (Stmt.among_walk s hfirst).misses h
    · apply Fault.misses_append_right
      cases i with
      | declaration ty listType names => exact ih (h.declareAll ty names).1 hrest
      | statement s => exact ih (h.stmt s) hrest

theorem Fault.eq_undeclared_of_kind {f : Fault} (h : f.diagnostic.kind = .undeclared) :
    ∃ name spot, f = .undeclared name spot := by
  cases f with
  | undeclared name spot => exact ⟨name, spot, rfl⟩
  | redeclared | operands | assignment | condition => cases h

namespace Session

/-- The names of a program are the identifiers of its text. If the program is analysed without
fault, all are declared before they are used. Each report on an undeclared name gives the place of
an identifier that is a use of the name, with no declaration of it before. -/
theorem analyse_undeclared (s : Session) (code : String) (p : Program)
    (hread : (s.parse [] code).2.program = some p) :
    p.mentions.map Mention.name =
        ((Scan.ofText code).tokens.filter (·.kind = .identifier)).map Token.toName ∧
      ((s.parse [] code).2.analyse.1 = .ok true → p.DeclaresFirst) ∧
      ∀ d ∈ (s.parse [] code).2.analyse.2.2.ledger.semantic, d.kind = .undeclared →
        ∃ t ∈ (Scan.ofText code).tokens, t.kind = .identifier ∧
          d.message = .ofText s!"Variable '{t.text}' no declarada" ∧
          d.line = .ofInt t.spot.line ∧ d.column = .ofInt t.spot.column ∧
          ∃ before after, p.mentions = before ++ .used t.toName :: after ∧
            ∀ ty n, .declared ty n ∈ before → n.text ≠ t.text := by
  obtain ⟨log, hreading⟩ := reading_of_parse hread
  obtain ⟨hresult, -, hsemantic⟩ := analyse_of_parse hread
  have hnames := Reading.names_ofText hreading
  refine ⟨hnames, fun htrue => ?_, fun d hd hkind => ?_⟩
  · have hfaults : p.walk.faults = [] := by
      rw [hresult] at htrue
      simpa using htrue
    exact (Program.scoped_iff.mp (Tracks.start.scoped_of_faultless hfaults)).2
  · rw [hsemantic] at hd
    obtain ⟨f, hf, rfl⟩ := List.mem_map.mp hd
    obtain ⟨name, spot, rfl⟩ := Fault.eq_undeclared_of_kind hkind
    obtain ⟨before, n, after, hmentions, rfl, rfl, hnone⟩ := Tracks.start.misses hf name spot rfl
    -- The use is a name of the program, so it is an identifier of the text.
    have hused : .used n ∈ p.mentions := by
      rw [Program.mentions, hmentions]
      simp
    have hn : n ∈ p.mentions.map Mention.name := List.mem_map_of_mem hused
    rw [hnames] at hn
    obtain ⟨t, ht, rfl⟩ := List.mem_map.mp hn
    obtain ⟨htoken, hidentifier⟩ := List.mem_filter.mp ht
    refine ⟨t, htoken, by simpa using hidentifier, rfl, rfl, rfl, before, after, hmentions, ?_⟩
    intro ty m hm htext
    have hsome : (typeOf? before t.text).isSome = true := isSome_typeOf?_iff.mpr ⟨ty, m, hm, htext⟩
    have hnone : typeOf? before t.text = none := hnone
    rw [hnone] at hsome
    cases hsome

/-- A variable that is declared after a block that assigns it is reported at its place in the block.
-/
theorem analyse_undeclared_late :
    let code := "si ( 1 < 2 ) \x7b x = y ; \x7d ent x ; scan ( x ) ;"
    ∃ p, (empty.parse [] code).2.program = some p ∧
      ∃ d ∈ (empty.parse [] code).2.analyse.2.2.ledger.semantic, d.kind = .undeclared ∧
        d.line = .ofInt 1 ∧ d.column = .ofInt 16 ∧
        ∃ t ∈ (Scan.ofText code).tokens, t.kind = .identifier ∧
          d.message = .ofText s!"Variable '{t.text}' no declarada" ∧
          ∃ before after, p.mentions = before ++ .used t.toName :: after ∧
            ∀ ty n, .declared ty n ∈ before → n.text ≠ t.text := by
  let name (text : String) (column : Nat) : Name := ⟨text, ⟨1, column⟩, .blank⟩
  let number (n : Nat) (column : Nat) : Expr := .number (.whole n) ⟨1, column⟩
  let p : Program := ⟨[.statement (.conditional (.operation .lt (number 1 6) (number 2 10))
      [.assign (name "x" 16) (.use (name "y" 20)) none] none),
    .declaration .ent none [name "x" 30], .statement (.input (name "x" 41))]⟩
  have hread : (empty.parse [] "si ( 1 < 2 ) \x7b x = y ; \x7d ent x ; scan ( x ) ;").2.program =
      some p := rfl
  have hfault : .undeclared "x" ⟨1, 16⟩ ∈ p.walk.faults := by decide +kernel
  have hreport : (Fault.undeclared "x" ⟨1, 16⟩).diagnostic ∈ p.walk.faults.map Fault.diagnostic :=
    List.mem_map_of_mem hfault
  rw [← (analyse_of_parse hread).2.2] at hreport
  obtain ⟨-, -, hreports⟩ := analyse_undeclared empty _ p hread
  obtain ⟨t, ht, hkind, hmessage, -, -, hplace⟩ := hreports _ hreport rfl
  exact ⟨p, hread, _, hreport, rfl, rfl, rfl, t, ht, hkind, hmessage, hplace⟩

end Session

end Analizador
