import Analizador.Output
import Analizador.Proofs.Attribution.Printable

/-! # Views of outlines

An outline that can be printed is described as a rooted tree: the nodes are numbered in the order in
which they are met, and each but the first is followed by the one edge that leads to it, from a node
met before. The listing of an outline has a message for every node, in the same order. If no text
that is shown holds a line end, the messages are the lines of the pane. -/

namespace Analizador

/-! ## Class names in the views -/

/-- The class that the label of a node starts with. -/
def labelledClass (label : String) : String := String.ofList (label.toList.takeWhile Char.isAlpha)

/-- The class named after the mark of a node in a listing; lines without that mark name none. -/
def listedClass? (line : String) : Option String :=
  match line.toList.dropWhile (· == ' ') with
  | '+' :: ' ' :: rest => some (String.ofList (rest.takeWhile Char.isAlpha))
  | _ => none

/-- No letter stands at the front of the text. -/
def Unlettered (text : String) : Prop := ∀ c ∈ text.toList.head?, c.isAlpha = false

/-- Two texts that do not start with a letter. -/
theorem Unlettered.append {a b : String} (ha : Unlettered a) (hb : Unlettered b) :
    Unlettered (a ++ b) := by
  intro c hc
  rw [String.toList_append, List.head?_append] at hc
  cases hhead : a.toList.head? with
  | none =>
    rw [hhead, Option.none_or] at hc
    exact hb c hc
  | some d =>
    rw [hhead, Option.some_or] at hc
    exact ha c (hhead.trans hc)

/-- A character that is no letter stands at the front of the text. -/
def Marked (text : String) : Prop := text.toList.head?.map Char.isAlpha = some false

theorem Marked.append {text : String} (h : Marked text) (more : String) :
    Marked (text ++ more) := by
  unfold Marked at h ⊢
  rw [String.toList_append, List.head?_append]
  cases hhead : text.toList.head? with
  | none => simp [hhead] at h
  | some c => simpa [hhead] using h

theorem Marked.unlettered {text : String} (h : Marked text) : Unlettered text := by
  intro c hc
  rw [Marked, Option.mem_def.mp hc] at h
  simpa using h

/-- The letters at the start of a label are those of the class. -/
theorem takeWhile_letters {cls rest : String} (hcls : ∀ c ∈ cls.toList, c.isAlpha = true)
    (hrest : Unlettered rest) :
    (cls ++ rest).toList.takeWhile Char.isAlpha = cls.toList := by
  rw [String.toList_append, List.takeWhile_append_of_pos hcls]
  cases hchars : rest.toList with
  | nil => simp
  | cons c cs =>
    have hc : c.isAlpha = false := hrest c (by simp [hchars])
    simp [hc]

/-- A label starts with the class, up to the first character that is no letter. -/
theorem labelledClass_eq {cls rest : String} (hcls : ∀ c ∈ cls.toList, c.isAlpha = true)
    (hrest : Unlettered rest) :
    labelledClass (cls ++ rest) = cls := by
  rw [labelledClass, takeWhile_letters hcls hrest, String.ofList_toList]

theorem forall_mem_blanks (n : Nat) : ∀ c ∈ (Text.blanks n).toList, (c == ' ') = true := by
  intro c hc
  simp only [Text.blanks, String.toList_ofList, List.mem_replicate] at hc
  exact beq_iff_eq.mpr hc.2

/-- A listed line gives its class back, however deep it is indented. -/
theorem listedClass?_eq {cls rest : String} (level : Nat)
    (hcls : ∀ c ∈ cls.toList, c.isAlpha = true) (hrest : Unlettered rest) :
    listedClass? (Text.blanks (2 * level) ++ ("+ " ++ (cls ++ rest))) = some cls := by
  have hmark : "+ ".toList = ['+', ' '] := rfl
  rw [listedClass?, String.toList_append, List.dropWhile_append_of_pos (forall_mem_blanks _),
    String.toList_append, hmark]
  simp only [List.cons_append, List.nil_append, List.dropWhile_cons]
  rw [if_neg (by decide)]
  simp only [takeWhile_letters hcls hrest, String.ofList_toList]

/-- The titles of branches name no class. -/
theorem listedClass?_title (level : Nat) (title : String) :
    listedClass? (Text.blanks (2 * level) ++ "  └─ " ++ title ++ ":") = none := by
  have hmark : "  └─ ".toList = [' ', ' ', '└', '─', ' '] := rfl
  rw [listedClass?]
  simp only [String.toList_append, List.append_assoc, hmark]
  rw [List.dropWhile_append_of_pos (forall_mem_blanks _)]
  rfl

/-- The line end after a line takes no part in naming a class. -/
theorem listedClass?_newline (line : String) : listedClass? (line ++ "\n") = listedClass? line := by
  have hdrop (cs : List Char) :
      (cs ++ ['\n']).dropWhile (· == ' ') = cs.dropWhile (· == ' ') ++ ['\n'] := by
    induction cs with
    | nil => rfl
    | cons c cs ih => by_cases hc : c = ' ' <;> simp [hc, ih]
  have hnewline : "\n".toList = ['\n'] := rfl
  rw [listedClass?, listedClass?, String.toList_append, hnewline, hdrop]
  match line.toList.dropWhile (· == ' ') with
  | [] => rfl
  | [c] => by_cases hc : c = '+' <;> simp [hc]
  | c :: d :: rest =>
    have hend : (rest ++ ['\n']).takeWhile Char.isAlpha = rest.takeWhile Char.isAlpha := by
      induction rest with
      | nil => rfl
      | cons e rest ih => cases he : e.isAlpha <;> simp [he, ih]
    by_cases hc : c = '+' <;> by_cases hd : d = ' ' <;> simp [hc, hd, hend]

theorem unlettered_empty : Unlettered "" := by
  intro c hc
  cases hc

/-- A class with lines after it, as they stand in a label. -/
theorem labelledClass_intercalate {cls : String} (hcls : ∀ c ∈ cls.toList, c.isAlpha = true)
    (lines : List String) :
    labelledClass ("\\n".intercalate (cls :: lines)) = cls := by
  cases lines with
  | nil => simpa using labelledClass_eq hcls unlettered_empty
  | cons line lines =>
    have hlabel : "\\n".intercalate (cls :: line :: lines) =
        cls ++ ("\\n" ++ "\\n".intercalate (line :: lines)) := by
      apply String.toList_inj.mp
      simp only [String.toList_intercalate, List.map_cons, String.toList_append,
        List.intercalate_cons_cons, List.append_assoc]
    have hmark : Marked "\\n" := rfl
    rw [hlabel]
    exact labelledClass_eq hcls (hmark.append _).unlettered

/-! ## Texts on one line -/

namespace Text

/-- No line ends in the text. -/
def OneLine (s : String) : Prop := '\n' ∉ s.toList

instance (s : String) : Decidable (OneLine s) := inferInstanceAs (Decidable ('\n' ∉ s.toList))

/-- A text of two parts is on one line if both are. -/
@[simp] theorem oneLine_append (a b : String) : OneLine (a ++ b) ↔ OneLine a ∧ OneLine b := by
  simp [OneLine]

/-- A text of characters among which there is no line break is on one line. -/
theorem oneLine_of_forall {s : String} {p : Char → Bool} (h : ∀ c ∈ s.toList, p c = true)
    (hp : p '\n' = false) : OneLine s := by
  intro hmem
  simp [h _ hmem] at hp

theorem oneLine_toString_nat (n : Nat) : OneLine (toString n) := by
  refine oneLine_of_forall (p := Char.isDigit) (fun c hc => ?_) rfl
  have hdigits : (toString n).toList = Nat.toDigits 10 n := by simp
  rw [hdigits] at hc
  exact Nat.isDigit_of_mem_toDigits (by decide) (by decide) hc

theorem oneLine_blanks (n : Nat) : OneLine (blanks n) := oneLine_of_forall (forall_mem_blanks n) rfl

end Text

/-- A datum is printed on one line, if it is printed. -/
def Datum.OneLine (d : Datum) : Prop := ∀ text, d.render = .ok text → Text.OneLine text

/-! ## Nodes that can be printed -/

namespace Facts

/-- What a view shows of a node can be printed. The place is shown by detailed listings alone. -/
structure Printable (detailed : Bool) (f : Facts) : Prop where
  counts : f.counts = true
  obstacle : f.obstacle = none
  letters : ∀ c ∈ f.cls.toList, c.isAlpha = true
  attributes : ∀ held ∈ [f.name, f.value, f.operator, f.varType, f.type], ∀ d ∈ held, d.Prints
  places : detailed = true → ∀ held ∈ [f.line, f.column], ∀ d ∈ held, d.Prints

/-- What a view shows of a node is printed on one line. -/
def OneLine (f : Facts) : Prop :=
  ∀ slot ∈ [f.name, f.value, f.operator, f.varType, f.type, f.line, f.column], ∀ d ∈ slot, d.OneLine

variable {detailed : Bool} {f : Facts}

theorem mem_of_held {slot : Option Datum} {d : Datum} (h : held slot = some d) : slot = some d := by
  unfold held at h
  split at h
  · cases h
  · cases h
  · exact h

/-- A slot that can be printed has its lines in a label. -/
theorem exists_labelLine (title : String) {held : Option Datum} (h : ∀ d ∈ held, d.Prints) :
    ∃ lines, labelLine title held = .ok lines := by
  unfold labelLine
  split
  next => exact ⟨_, rfl⟩
  next d hd =>
    obtain ⟨text, htext⟩ := h d (mem_of_held hd)
    exact ⟨_, by rw [htext]; rfl⟩

/-- The label of a node starts with its class. -/
theorem exists_label (h : f.Printable detailed) :
    ∃ label, f.label = .ok label ∧ labelledClass label = f.cls := by
  obtain ⟨name, hname⟩ := exists_labelLine "name" (h.attributes f.name (by simp))
  obtain ⟨value, hvalue⟩ := exists_labelLine "value" (h.attributes f.value (by simp))
  obtain ⟨operator, hoperator⟩ := exists_labelLine "op" (h.attributes f.operator (by simp))
  obtain ⟨varType, hvarType⟩ := exists_labelLine "type" (h.attributes f.varType (by simp))
  obtain ⟨type, htype⟩ := exists_labelLine "type" (h.attributes f.type (by simp))
  refine ⟨_, by rw [label, hname, hvalue, hoperator, hvarType, htype]; rfl, ?_⟩
  exact labelledClass_intercalate h.letters _

/-- A note in brackets on a datum that can be printed. -/
theorem exists_note (title : String) {d : Datum} (hmark : Marked title) (hline : Text.OneLine title)
    (hd : d.Prints) :
    ∃ text, (do return title ++ (← d.render) ++ ")" : Except Failure String) = .ok text ∧
      Unlettered text ∧ (d.OneLine → Text.OneLine text) := by
  obtain ⟨shown, hshown⟩ := hd
  refine ⟨title ++ shown ++ ")", by rw [hshown]; rfl,
    ((hmark.append shown).append ")").unlettered, ?_⟩
  intro hone
  have hbracket : Text.OneLine ")" := by decide
  simp only [Text.oneLine_append]
  exact ⟨⟨hline, hone shown hshown⟩, hbracket⟩

/-- What leads a line can be shown, and it does not start with a letter. -/
theorem exists_leading (h : f.Printable detailed) :
    ∃ text, f.leading = .ok text ∧ Unlettered text ∧ (f.OneLine → Text.OneLine text) := by
  unfold leading
  split
  next name hname =>
    have hprints := h.attributes f.name (by simp) name hname
    obtain ⟨text, htext, hunlettered, hone⟩ := exists_note " (name: " rfl (by decide) hprints
    exact ⟨text, htext, hunlettered, fun hf => hone (hf f.name (by simp) name hname)⟩
  next value _ hvalue =>
    have hvalue := mem_of_held hvalue
    have hprints := h.attributes f.value (by simp) value hvalue
    obtain ⟨text, htext, hunlettered, hone⟩ := exists_note " (value: " rfl (by decide) hprints
    exact ⟨text, htext, hunlettered, fun hf => hone (hf f.value (by simp) value hvalue)⟩
  next operator _ _ hoperator =>
    have hprints := h.attributes f.operator (by simp) operator hoperator
    obtain ⟨text, htext, hunlettered, hone⟩ := exists_note " (op: " rfl (by decide) hprints
    exact ⟨text, htext, hunlettered, fun hf => hone (hf f.operator (by simp) operator hoperator)⟩
  next varType _ _ _ hvarType =>
    have hprints := h.attributes f.varType (by simp) varType hvarType
    obtain ⟨text, htext, hunlettered, hone⟩ := exists_note " (type: " rfl (by decide) hprints
    exact ⟨text, htext, hunlettered, fun hf => hone (hf f.varType (by simp) varType hvarType)⟩
  next => exact ⟨_, rfl, unlettered_empty, fun _ => by decide⟩

/-- What an attribute holds is printed as the given text; there is none if it holds nothing. -/
inductive Shown (slot : Option Datum) : Option String → Prop where
  | nothing (hheld : held slot = none) : Shown slot none
  | text {d : Datum} {shown : String} (hheld : held slot = some d)
      (hrender : d.render = .ok shown) :
      Shown slot (some shown)

/-- A slot that can be printed has a text, unless it holds nothing. -/
theorem exists_shown {slot : Option Datum} (h : ∀ d ∈ slot, d.Prints) :
    ∃ shown, Shown slot shown := by
  cases hheld : held slot with
  | none => exact ⟨none, .nothing hheld⟩
  | some d =>
    obtain ⟨shown, hshown⟩ := h d (mem_of_held hheld)
    exact ⟨some shown, .text hheld hshown⟩

/-- The text of a slot is on one line if what it holds is. -/
theorem Shown.oneLine {slot : Option Datum} {shown : Option String} (h : Shown slot shown)
    (hslot : ∀ d ∈ slot, d.OneLine) : ∀ text ∈ shown, Text.OneLine text := by
  cases h with
  | nothing => simp
  | text hheld hrender => simpa using hslot _ (mem_of_held hheld) _ hrender

/-- The place of a node in detailed listings. -/
def placeNote : Option String → Option String → String
  | some line, some column => s!" [line: {line}, col: {column}]"
  | some line, none => s!" [line: {line}]"
  | none, _ => ""

/-- The type of a node in detailed listings. -/
def typeNote : Option String → String
  | some type => s!" \x7btype: {type}\x7d"
  | none => ""

theorem unlettered_placeNote (line column : Option String) :
    Unlettered (placeNote line column) := by
  have hmark : Marked " [line: " := rfl
  match line, column with
  | some line, some column =>
    exact ((((hmark.append line).append ", col: ").append column).append "]").unlettered
  | some line, none => exact ((hmark.append line).append "]").unlettered
  | none, _ => exact unlettered_empty

theorem unlettered_typeNote (type : Option String) : Unlettered (typeNote type) := by
  have hmark : Marked " \x7btype: " := rfl
  match type with
  | some type => exact ((hmark.append type).append "\x7d").unlettered
  | none => exact unlettered_empty

theorem oneLine_placeNote {line column : Option String} (hline : ∀ text ∈ line, Text.OneLine text)
    (hcolumn : ∀ text ∈ column, Text.OneLine text) : Text.OneLine (placeNote line column) := by
  have hopen : Text.OneLine " [line: " := by decide
  have hmiddle : Text.OneLine ", col: " := by decide
  have hclose : Text.OneLine "]" := by decide
  match line, column with
  | some line, some column =>
    simp only [placeNote, Text.oneLine_append]
    exact ⟨⟨⟨⟨hopen, hline line rfl⟩, hmiddle⟩, hcolumn column rfl⟩, hclose⟩
  | some line, none =>
    simp only [placeNote, Text.oneLine_append]
    exact ⟨⟨hopen, hline line rfl⟩, hclose⟩
  | none, _ => exact (by decide : Text.OneLine "")

theorem oneLine_typeNote {type : Option String} (htype : ∀ text ∈ type, Text.OneLine text) :
    Text.OneLine (typeNote type) := by
  have hopen : Text.OneLine " \x7btype: " := by decide
  have hclose : Text.OneLine "\x7d" := by decide
  match type with
  | some type =>
    simp only [typeNote, Text.oneLine_append]
    exact ⟨⟨hopen, htype type rfl⟩, hclose⟩
  | none => exact (by decide : Text.OneLine "")

/-- The details of a node are its place and its type. -/
theorem details_eq {line column type : Option String} (hline : Shown f.line line)
    (hcolumn : Shown f.column column) (htype : Shown f.type type) :
    f.details = .ok (placeNote line column ++ typeNote type) := by
  unfold details
  cases hline with
  | nothing hline =>
    cases htype with
    | nothing htype =>
      rw [hline, htype]
      rfl
    | text htype hrender =>
      rw [hline, htype]
      dsimp only
      rw [hrender]
      rfl
  | text hline hrenderLine =>
    cases hcolumn with
    | nothing hcolumn =>
      cases htype with
      | nothing htype =>
        rw [hline, hcolumn, htype]
        dsimp only
        rw [hrenderLine]
        rfl
      | text htype hrender =>
        rw [hline, hcolumn, htype]
        dsimp only
        rw [hrenderLine, hrender]
        rfl
    | text hcolumn hrenderColumn =>
      cases htype with
      | nothing htype =>
        rw [hline, hcolumn, htype]
        dsimp only
        rw [hrenderLine, hrenderColumn]
        rfl
      | text htype hrender =>
        rw [hline, hcolumn, htype]
        dsimp only
        rw [hrenderLine, hrenderColumn, hrender]
        rfl

/-- A node that can be printed has details, which do not start with a letter. -/
theorem exists_details (h : f.Printable true) :
    ∃ text, f.details = .ok text ∧ Unlettered text ∧ (f.OneLine → Text.OneLine text) := by
  obtain ⟨line, hline⟩ := exists_shown (h.places rfl f.line (by simp))
  obtain ⟨column, hcolumn⟩ := exists_shown (h.places rfl f.column (by simp))
  obtain ⟨type, htype⟩ := exists_shown (h.attributes f.type (by simp))
  refine ⟨_, details_eq hline hcolumn htype,
    (unlettered_placeNote line column).append (unlettered_typeNote type), fun hf => ?_⟩
  rw [Text.oneLine_append]
  exact ⟨oneLine_placeNote (hline.oneLine (hf f.line (by simp))) (hcolumn.oneLine
    (hf f.column (by simp))), oneLine_typeNote (htype.oneLine (hf f.type (by simp)))⟩

/-- The line of a node names its class after its mark. -/
theorem exists_listed (h : f.Printable detailed) (level : Nat) :
    ∃ line, f.listed detailed level = .ok line ∧ listedClass? line = some f.cls ∧
      (f.OneLine → Text.OneLine line) := by
  obtain ⟨leading, hleading, hunlettered, hone⟩ := exists_leading h
  obtain ⟨details, hlisted, hunlettered', hone'⟩ : ∃ details,
      f.listed detailed level =
          .ok (Text.blanks (2 * level) ++ ("+ " ++ (f.cls ++ (leading ++ details)))) ∧
        Unlettered details ∧ (f.OneLine → Text.OneLine details) := by
    simp only [← String.append_assoc]
    unfold listed
    rw [hleading]
    cases detailed with
    | false => exact ⟨_, rfl, unlettered_empty, fun _ => by decide⟩
    | true =>
      obtain ⟨details, hdetails, hunlettered', hone'⟩ := exists_details h
      exact ⟨details, by rw [hdetails]; rfl, hunlettered', hone'⟩
  refine ⟨_, hlisted, listedClass?_eq level h.letters (hunlettered.append hunlettered'),
    fun hf => ?_⟩
  have hmark : Text.OneLine "+ " := by decide
  simp only [Text.oneLine_append]
  exact ⟨Text.oneLine_blanks _, hmark, Text.oneLine_of_forall h.letters rfl, hone hf, hone' hf⟩

end Facts

mutual

/-- Every node of an outline has a property, the titles stand on one line, and no branches break
off. -/
def Outline.Every (P : Facts → Prop) : Outline → Prop
  | .node facts branches => P facts ∧ branches.Every P

/-- Every node below has a property, the titles stand on one line, and the branches do not break
off. -/
def Branches.Every (P : Facts → Prop) : Branches → Prop
  | .done => True
  | .broken _ => False
  | .more title part rest => (∀ text ∈ title, Text.OneLine text) ∧ part.Every P ∧ rest.Every P

end

mutual

/-- The classes of the nodes of an outline, from the top down and in the order of the branches. -/
def Outline.classes : Outline → List String
  | .node facts branches => facts.cls :: branches.classes

/-- The classes of the nodes below. -/
def Branches.classes : Branches → List String
  | .done | .broken _ => []
  | .more _ part rest => part.classes ++ rest.classes

end

/-! ## Graph descriptions -/

/-- A node of a graph description and the edge that leads to it. -/
structure Arrival where
  number : Nat
  label : String
  source : Nat
  edge : Option String

/-- The statement of a node, and directly after it that of the edge to it. -/
def Arrival.statements (a : Arrival) : List String :=
  [nodeStatement a.number a.label, edgeStatement a.source a.number a.edge]

/-- Arrivals with consecutive numbers, each from a smaller one, at nodes of the given classes. -/
structure Arrivals (next : Nat) (classes : List String) (as : List Arrival) : Prop where
  numbers : as.map Arrival.number = List.range' next as.length
  sources : ∀ a ∈ as, a.source < a.number
  labels : as.map (fun a => labelledClass a.label) = classes

namespace Arrivals

variable {next : Nat} {classes classes' : List String} {as bs : List Arrival}

theorem nil : Arrivals next [] [] := ⟨rfl, by simp, rfl⟩

/-- Arrivals at two parts of an outline are numbered one after the other. -/
theorem append (h : Arrivals next classes as) (h' : Arrivals (next + as.length) classes' bs) :
    Arrivals next (classes ++ classes') (as ++ bs) where
  numbers := by
    rw [List.map_append, h.numbers, h'.numbers, List.length_append, List.range'_append_1]
  sources a ha := (List.mem_append.mp ha).elim (h.sources a) (h'.sources a)
  labels := by rw [List.map_append, h.labels, h'.labels]

/-- A node arrives before the nodes below it. -/
theorem cons {source : Nat} (label : String) (edge : Option String) (hsource : source < next)
    (h : Arrivals (next + 1) classes as) :
    Arrivals next (labelledClass label :: classes) (⟨next, label, source, edge⟩ :: as) where
  numbers := by rw [List.map_cons, h.numbers, List.length_cons, List.range'_succ]
  sources := List.forall_mem_cons.mpr ⟨hsource, h.sources⟩
  labels := by rw [List.map_cons, h.labels]

end Arrivals

mutual

/-- A node that is reached by an edge is described by arrivals: its own and those of the nodes below
it. -/
theorem Outline.exists_arrivals {detailed : Bool} :
    ∀ (o : Outline), o.Every (Facts.Printable detailed) →
    ∀ (source : Nat) (title : Option String) (next : Nat), source < next → ∃ as,
      o.statements (some (source, title)) next =
        .ok (as.flatMap Arrival.statements, next + as.length) ∧
        Arrivals next o.classes as
  | .node facts branches, h, source, title, next, hsource => by
    obtain ⟨hfacts, hbranches⟩ := h
    obtain ⟨label, hlabel, hclass⟩ := Facts.exists_label hfacts
    obtain ⟨as, has, harrivals⟩ :=
      Branches.exists_arrivals branches hbranches next (next + 1) (Nat.lt_succ_self next)
    refine ⟨⟨next, label, source, title⟩ :: as, ?_, ?_⟩
    · simp only [Outline.statements, hfacts.counts, hfacts.obstacle, hlabel, has, bind, Except.bind,
        pure, Except.pure, Bool.not_true, Bool.false_eq_true, if_false, List.flatMap_cons,
        List.length_cons]
      rw [Nat.add_assoc, Nat.add_comm 1]
      rfl
    · rw [Outline.classes, ← hclass]
      exact .cons label title hsource harrivals

/-- The nodes below are described by their arrivals. -/
theorem Branches.exists_arrivals {detailed : Bool} :
    ∀ (bs : Branches), bs.Every (Facts.Printable detailed) →
    ∀ (source next : Nat), source < next → ∃ as,
      bs.statements source next = .ok (as.flatMap Arrival.statements, next + as.length) ∧
      Arrivals next bs.classes as
  | .done, _, _, _, _ => ⟨[], rfl, .nil⟩
  | .more title part rest, h, source, next, hsource => by
    obtain ⟨-, hpart, hrest⟩ := h
    obtain ⟨as, has, harrivals⟩ := Outline.exists_arrivals part hpart source title next hsource
    obtain ⟨bs, hbs, harrivals'⟩ :=
      Branches.exists_arrivals rest hrest source (next + as.length) (by omega)
    refine ⟨as ++ bs, ?_, harrivals.append harrivals'⟩
    simp only [Branches.statements, has, hbs, bind, Except.bind, pure, Except.pure]
    rw [List.flatMap_append, List.length_append, Nat.add_assoc]

end

/-- A rooted tree as it is described: the root is node number 0, the other nodes are numbered on in
the order of their statements, and directly after the statement of each comes that of the edge to
it, from a node with a smaller number. -/
structure Drawing where
  root : String
  arrivals : List Arrival
  numbers : arrivals.map Arrival.number = List.range' 1 arrivals.length
  sources : ∀ a ∈ arrivals, a.source < a.number

namespace Drawing

variable (d : Drawing)

/-- The statements of a drawing. -/
def statements : List String := nodeStatement 0 d.root :: d.arrivals.flatMap Arrival.statements

/-- The labels of the nodes, by their numbers. -/
def labels : List String := d.root :: d.arrivals.map Arrival.label

/-- The text of a drawing. -/
def text : String :=
  "\n".intercalate (["digraph AST \x7b", "  node [shape=box];"] ++ d.statements ++ ["\x7d"])

/-- The number of edges that lead to a node. -/
def incoming (number : Nat) : Nat := d.arrivals.countP (·.number == number)

/-- No edge leads to the root, and one leads to each other node. -/
theorem incoming_eq (number : Nat) :
    d.incoming number = if 0 < number ∧ number < d.labels.length then 1 else 0 := by
  have hcount : d.incoming number = (d.arrivals.map Arrival.number).count number := by
    rw [incoming, List.count, List.countP_map]
    rfl
  rw [hcount, d.numbers, labels, List.length_cons, List.length_map]
  have hmem : number ∈ List.range' 1 d.arrivals.length ↔
      0 < number ∧ number < d.arrivals.length + 1 := List.mem_range'_1.trans (by omega)
  simp only [List.Nodup.count (List.nodup_range' 1), hmem]

end Drawing

/-- An outline that can be printed is described as a rooted tree of its nodes. -/
theorem Outline.exists_drawing {detailed : Bool} {o : Outline}
    (h : o.Every (Facts.Printable detailed)) :
    ∃ d : Drawing, describe (some o) = .ok d.text ∧ d.labels.map labelledClass = o.classes := by
  obtain ⟨facts, branches⟩ := o
  obtain ⟨hfacts, hbranches⟩ := h
  obtain ⟨label, hlabel, hclass⟩ := Facts.exists_label hfacts
  obtain ⟨as, has, harrivals⟩ := branches.exists_arrivals hbranches 0 1 Nat.one_pos
  refine ⟨⟨label, as, harrivals.numbers, harrivals.sources⟩, ?_, ?_⟩
  · simp only [describe, Outline.statements, hfacts.counts, hfacts.obstacle, hlabel, has, bind,
      Except.bind, pure, Except.pure, Bool.not_true, Bool.false_eq_true, if_false, Nat.zero_add]
    rfl
  · rw [Drawing.labels, List.map_cons, List.map_map, classes, hclass]
    exact congrArg (facts.cls :: ·) harrivals.labels

/-! ## Listings -/

mutual

/-- The listing of an outline names the classes of its nodes. -/
theorem Outline.exists_lines {detailed : Bool} :
    ∀ (o : Outline), o.Every (Facts.Printable detailed) →
    ∀ level : Nat, ∃ ls, o.lines detailed level = (ls, none) ∧
      ls.filterMap listedClass? = o.classes ∧
      (o.Every Facts.OneLine → ∀ line ∈ ls, Text.OneLine line)
  | .node facts branches, h, level => by
    obtain ⟨hfacts, hbranches⟩ := h
    obtain ⟨line, hline, hclass, hone⟩ := Facts.exists_listed hfacts level
    obtain ⟨ls, hls, hclasses, hones⟩ := Branches.exists_lines branches hbranches level
    refine ⟨line :: ls, ?_, ?_, fun h => ?_⟩
    · rw [Outline.lines, hline, Listing.ofLine, Listing.andThen, hls]
      rfl
    · simp only [List.filterMap_cons, hclass, hclasses, Outline.classes]
    · exact List.forall_mem_cons.mpr ⟨hone h.1, hones h.2⟩

/-- So does the listing of some branches. -/
theorem Branches.exists_lines {detailed : Bool} :
    ∀ (bs : Branches), bs.Every (Facts.Printable detailed) →
    ∀ level : Nat, ∃ ls, bs.lines detailed level = (ls, none) ∧
      ls.filterMap listedClass? = bs.classes ∧
      (bs.Every Facts.OneLine → ∀ line ∈ ls, Text.OneLine line)
  | .done, _, _ => ⟨[], rfl, rfl, fun _ => List.forall_mem_nil _⟩
  | .more title part rest, h, level => by
    obtain ⟨htitle, hpart, hrest⟩ := h
    obtain ⟨others, hothers, hclasses', hones'⟩ := Branches.exists_lines rest hrest level
    rw [Branches.classes]
    cases title with
    | none =>
      obtain ⟨ls, hls, hclasses, hones⟩ := Outline.exists_lines part hpart (level + 1)
      refine ⟨ls ++ others, ?_, by rw [List.filterMap_append, hclasses, hclasses'], fun h => ?_⟩
      · simp only [Branches.lines, hls, hothers, Listing.andThen]
      · exact List.forall_mem_append.mpr ⟨hones h.2.1, hones' h.2.2⟩
    | some title =>
      obtain ⟨ls, hls, hclasses, hones⟩ := Outline.exists_lines part hpart (level + 2)
      have hnone : listedClass? s!"{Text.blanks (2 * level)}  └─ {title}:" = none :=
        listedClass?_title level title
      have hone : Text.OneLine s!"{Text.blanks (2 * level)}  └─ {title}:" := by
        have hmark : Text.OneLine "  └─ " := by decide
        have hend : Text.OneLine ":" := by decide
        simp only [Text.oneLine_append]
        exact ⟨⟨⟨Text.oneLine_blanks _, hmark⟩, htitle title rfl⟩, hend⟩
      refine ⟨s!"{Text.blanks (2 * level)}  └─ {title}:" :: (ls ++ others), ?_, ?_, fun h => ?_⟩
      · simp only [Branches.lines, hls, hothers, Listing.andThen, List.cons_append, List.nil_append]
      · rw [List.filterMap_cons, hnone, List.filterMap_append, hclasses, hclasses']
      · exact List.forall_mem_cons.mpr
          ⟨hone, List.forall_mem_append.mpr ⟨hones h.2.1, hones' h.2.2⟩⟩

end

namespace Display

variable {α β : Type} (pane : Output)

@[simp] theorem perform_bind (step : Display α) (next : α → Display β) :
    (step >>= next).perform pane =
      match step.perform pane with
      | (.ok a, pane') => (next a).perform pane'
      | (.error f, pane') => (.error f, pane') := by
  change (match step.perform pane with | (a, pane') => (ExceptT.bindCont next a).run pane') = _
  cases step.perform pane with
  | mk a pane' => cases a <;> rfl

@[simp] theorem perform_clear : clear.perform pane = (.ok (), ⟨[]⟩) := rfl

@[simp] theorem perform_sayIn (color text : String) :
    (sayIn color text).perform pane = (.ok (), pane.addLine color text) := rfl

@[simp] theorem perform_say (text : String) :
    (say text).perform pane = (.ok (), pane.addLine Output.plainColor text) := rfl

/-- Lines that are added to the output pane, one chunk each. -/
theorem perform_say_lines (lines : List String) :
    (lines.forM say : Display Unit).perform pane =
      (.ok (), ⟨pane.chunks ++ lines.map fun line => ⟨some Output.plainColor, line ++ "\n"⟩⟩) := by
  induction lines generalizing pane with
  | nil => simp; rfl
  | cons line lines ih =>
    rw [List.forM, perform_bind, perform_say]
    dsimp only
    rw [ih]
    simp [Output.addLine]

end Display

namespace Output

/-- The pane after a listing of the given lines. -/
def listing (ls : List String) : Output :=
  ⟨⟨some titleColor, "=== Árbol de Sintaxis Abstracta (AST) ===\n" ++ "\n"⟩ ::
    ls.map (fun line => ⟨some plainColor, line ++ "\n"⟩) ++
    [⟨some plainColor, "\nEl AST se generó correctamente." ++ "\n"⟩]⟩

/-- The lines of the pane: the texts between the line ends. -/
def lines (pane : Output) : List String :=
  ((pane.chunks.flatMap (·.text.toList)).splitOn '\n').map String.ofList

/-- The classes that the messages of the pane name. -/
def messageClasses (pane : Output) : List String :=
  pane.chunks.filterMap fun chunk => listedClass? chunk.text

/-- The classes that the lines of the pane name. -/
def lineClasses (pane : Output) : List String := pane.lines.filterMap listedClass?

/-- The classes in the messages of a listing are those of its lines. -/
theorem messageClasses_listing (ls : List String) :
    (listing ls).messageClasses = ls.filterMap listedClass? := by
  have htitle : listedClass? ("=== Árbol de Sintaxis Abstracta (AST) ===\n" ++ "\n") = none := rfl
  have hend : listedClass? ("\nEl AST se generó correctamente." ++ "\n") = none := rfl
  have hline : (fun chunk : Chunk => listedClass? chunk.text) ∘
      (fun line => ⟨some plainColor, line ++ "\n"⟩) = listedClass? :=
    funext listedClass?_newline
  simp only [messageClasses, listing, List.cons_append, List.filterMap_cons, List.filterMap_append,
    List.filterMap_nil, List.filterMap_map, htitle, hend, hline, List.append_nil]

/-- Lines that are written one after the other can be told apart. -/
theorem splitOn_lines {ls : List String} (h : ∀ line ∈ ls, Text.OneLine line) (rest : List Char) :
    (ls.flatMap (fun line => (line ++ "\n").toList) ++ rest).splitOn '\n' =
      ls.map String.toList ++ rest.splitOn '\n' := by
  induction ls with
  | nil => rfl
  | cons line ls ih =>
    obtain ⟨hline, hls⟩ := List.forall_mem_cons.mp h
    have hnewline : (line ++ "\n").toList = line.toList ++ ['\n'] := by simp
    rw [List.flatMap_cons, hnewline, List.append_assoc, List.append_assoc, List.singleton_append,
      List.map_cons, List.cons_append, ← ih hls]
    exact List.splitOn_append_cons_self_of_not_mem hline _

/-- So are those found line by line, if each line is one line. -/
theorem lineClasses_listing {ls : List String} (h : ∀ line ∈ ls, Text.OneLine line) :
    (listing ls).lineClasses = ls.filterMap listedClass? := by
  let before := ["=== Árbol de Sintaxis Abstracta (AST) ===", ""]
  let after := ["", "El AST se generó correctamente."]
  have htext : (listing ls).chunks.flatMap (·.text.toList) =
      (before ++ ls ++ after).flatMap (fun line => (line ++ "\n").toList) ++ [] := by
    simp [listing, before, after, List.flatMap_map]
  have hone : ∀ line ∈ before ++ ls ++ after, Text.OneLine line := by
    refine List.forall_mem_append.mpr ⟨List.forall_mem_append.mpr ⟨?_, h⟩, ?_⟩ <;> decide
  have hends : before.filterMap listedClass? = [] ∧ after.filterMap listedClass? = [] := ⟨rfl, rfl⟩
  have hlines : (listing ls).lines = before ++ ls ++ after ++ [""] := by
    rw [lines, htext, splitOn_lines hone]
    simp
  have hrest : [""].filterMap listedClass? = [] := rfl
  rw [lineClasses, hlines]
  simp only [List.filterMap_append, hends, hrest, List.nil_append, List.append_nil]

end Output

/-- The listing of an outline comes to its end and has a message that names the class for every
node. -/
theorem Display.perform_outline {o : Outline} {detailed : Bool}
    (h : o.Every (Facts.Printable detailed)) (pane : Output) :
    ∃ pane', (outline (some o) detailed).perform pane = (.ok (), pane') ∧
      pane'.messageClasses = o.classes ∧
      (o.Every Facts.OneLine → pane'.lineClasses = o.classes) := by
  obtain ⟨ls, hls, hclasses, hone⟩ := o.exists_lines h 0
  refine ⟨.listing ls, ?_, ?_, fun h => ?_⟩
  · simp only [outline, perform_bind, perform_clear, perform_sayIn, hls, perform_say_lines]
    rfl
  · rw [Output.messageClasses_listing, hclasses]
  · rw [Output.lineClasses_listing (hone h), hclasses]

end Analizador
