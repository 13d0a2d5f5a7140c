import Mathlib.Data.List.Forall2
import Analizador.Proofs.Analysis.Unplaced
import Analizador.Proofs.Printing
import Analizador.Proofs.Reader.Acceptance
import Analizador.Proofs.Reader.Joining
import Analizador.Proofs.Scan.Typeset
import Analizador.Sample

/-! # Reading sample programs

The lines of a sample program are typeset, and every line is read as one item, whatever the number
of its unit. So a sample program of any size is read, with the items of its lines. -/

namespace Analizador

/-! ## Reading words -/

namespace Scan.Word

/-- The word of a kind that has only one spelling. -/
def ofKind (k : Kind) (h : k ∉ [.identifier, .integer, .decimal, .text] := by decide) : Word :=
  ⟨k, k.spelling, (Kind.printed_token h).reads⟩

/-- The word of a text that is one lexeme. -/
def ofLexeme (kind : Kind) (text : String)
    (h : lexeme? text.toList = some ⟨some kind, text.toList.length⟩ := by decide) : Word :=
  ⟨kind, text, by simpa using reads_of_lexeme? h⟩

/-- The token of a word, without a place. -/
def token (w : Word) : Token := ⟨w.kind, w.text, .start⟩

end Scan.Word

open Scan (Word typeset)

/-- What comes of reading a text is what comes of reading the words that are scanned in it. -/
theorem Reading.outcome_of_scans {code : String} {ws : List Word} (h : Scan.Scans code.toList ws) :
    (ofText code).outcome = (Reader.start.run .start none (ws.map Word.token)).outcome := by
  obtain ⟨ts, hscan, hts⟩ := h .start
  have hunplaced : ts.map Token.unplaced = (ws.map Word.token).map Token.unplaced := by
    refine Token.unplaced_of_words (hts.trans ?_)
    rw [List.map_map]
    rfl
  rw [ofText, ofScan, Scan.ofText_eq_iff.mpr hscan]
  exact Reader.outcome_run rfl hunplaced _ _

/-- The operand at hand is built before a token that may follow it. -/
theorem Reader.look_loose {r : Reader} {t next : Token} {place : Place} {level : Level}
    {outer : List Level} {e : Expr} (hphase : r.phase = .holding place level outer (.loose t))
    (he : t.toExpr = .ok e) (hnext : next.kind.followsOperand = true) :
    r.look (.token next) = r.closeOperand place level outer e next.kind := by
  simp only [look, hphase, afterOperand, hnext, if_true, Operand.build, he]

namespace Sample

/-! ## Variables -/

/-- The variables of a unit, without its number. -/
inductive Stem where
  | a
  | b
  | c
  | d
  | s
  | e
  | nf
  | zz
  deriving DecidableEq

namespace Stem

/-- The letters of a variable. -/
def text : Stem → String
  | a => "a"
  | b => "b"
  | c => "c"
  | d => "d"
  | s => "s"
  | e => "e"
  | nf => "nf"
  | zz => "zz"

/-- The variable of a unit. -/
def name (v : Stem) (i : Nat) : String := v.text ++ toString i

theorem toList_name (v : Stem) (i : Nat) :
    (v.name i).toList = v.text.toList ++ Nat.toDigits 10 i := by
  rw [name, String.toList_append]
  congr 1
  exact Nat.toList_repr

theorem text_inj {v v' : Stem} (h : v.text = v'.text) : v = v' := by
  revert h
  cases v <;> cases v' <;> decide

/-- Variables of different units are different, as are the variables of one unit. -/
theorem name_inj {v v' : Stem} {i j : Nat} : v.name i = v'.name j ↔ v = v' ∧ i = j := by
  refine ⟨fun h => ?_, fun ⟨hv, hi⟩ => hv ▸ hi ▸ rfl⟩
  have hchars := congrArg String.toList h
  rw [toList_name, toList_name] at hchars
  -- Letters are no digits, so the digits of a name are those of its number.
  have hletters (v : Stem) : v.text.toList.filter Char.isDigit = [] := by cases v <;> decide
  have hnumber (k : Nat) : (Nat.toDigits 10 k).filter Char.isDigit = Nat.toDigits 10 k :=
    List.filter_eq_self.mpr fun c hc => Nat.isDigit_of_mem_toDigits (by decide) (by decide) hc
  have hdigits := congrArg (List.filter Char.isDigit) hchars
  simp only [List.filter_append, hletters, hnumber, List.nil_append] at hdigits
  rw [hdigits] at hchars
  refine ⟨text_inj (String.toList_inj.mp (List.append_cancel_right hchars)), ?_⟩
  simpa only [Nat.ofDigitChars_ten_toDigits] using congrArg (Nat.ofDigitChars 10 · 0) hdigits

/-- A variable is an identifier: it starts with a letter, and no reserved word has digits. -/
theorem reads_name (v : Stem) (i : Nat) : Kind.identifier.Reads (v.name i).toList := by
  have hne : v.text.toList ≠ [] := by cases v <;> decide
  have hletters : v.text.toList.all Char.isAlpha = true := by cases v <;> decide
  rw [List.all_eq_true] at hletters
  have hdigits (c : Char) (hc : c ∈ Nat.toDigits 10 i) : c.isDigit = true :=
    Nat.isDigit_of_mem_toDigits (by decide) (by decide) hc
  constructor
  · obtain ⟨c, cs, hcs⟩ := List.exists_cons_of_ne_nil hne
    refine ⟨c,
      cs ++ Nat.toDigits 10 i, by rw [toList_name, hcs, List.cons_append], ?_, fun d hd => ?_⟩
    · simp [Scan.isWordStart, hletters c (by simp [hcs])]
    · rcases List.mem_append.mp hd with hd | hd
      · simp [Scan.isWordRest, hletters d (by simp [hcs, hd])]
      · simp [Scan.isWordRest, hdigits d hd]
  · have hwords : ∀ entry ∈ Kind.keywords, entry.1.toList.all (fun c => !c.isDigit) =
        true := by decide
    have hunknown : Kind.keywords.lookup (v.name i) = none := by
      refine List.lookup_eq_none_iff.mpr fun entry hentry => bne_iff_ne.mpr fun hname => ?_
      obtain ⟨c, hc⟩ := List.exists_mem_of_ne_nil _ (Nat.toDigits_ne_nil (n := i) (b := 10))
      have hmem : c ∈ entry.1.toList := by simp [← hname, toList_name, hc]
      simpa [hdigits c hc] using List.all_eq_true.mp (hwords entry hentry) c hmem
    simp [Kind.ofWord, hunknown]

/-- The word of a variable. -/
def word (v : Stem) (i : Nat) : Word := ⟨.identifier, v.name i, v.reads_name i⟩

/-- A variable as it stands in a program. -/
def toName (v : Stem) (i : Nat) : Name := ⟨v.name i, .start, .blank⟩

end Stem

/-! ## The lines as words -/

/-- Words in parentheses. -/
def parenthesised (ws : List Word) : List Word :=
  .ofKind .leftParen :: (ws ++ [.ofKind .rightParen])

/-- Words in braces. -/
def braced (ws : List Word) : List Word := .ofKind .leftBrace :: (ws ++ [.ofKind .rightBrace])

/-- The words of an assignment. -/
def assignment (target : Word) (value : List Word) : List Word :=
  target :: .ofKind .assign :: (value ++ [.ofKind .semicolon])

/-- The words of a print statement. -/
def printing (value : Word) : List Word :=
  .ofKind .sout :: (parenthesised [value] ++ [.ofKind .semicolon])

/-- The words of an input statement. -/
def input (target : Word) : List Word :=
  .ofKind .scan :: (parenthesised [target] ++ [.ofKind .semicolon])

/-- The words of the lines of a unit without faults. -/
def plainWords (i : Nat) : List (List Word) :=
  let a := Stem.a.word i
  let b := Stem.b.word i
  let c := Stem.c.word i
  let d := Stem.d.word i
  let s := Stem.s.word i
  let comparing (sign n : Word) : List Word :=
    .ofKind .si :: (parenthesised [a, sign, b] ++ braced (assignment c [n]))
  [[.ofKind .ent, a, .ofKind .comma, b, .ofKind .comma, c, .ofKind .semicolon],
    [.ofKind .dec, d, .ofKind .semicolon],
    [.ofKind .cadena, s, .ofKind .semicolon],
    assignment a [.ofLexeme .integer "5"],
    assignment b [.ofLexeme .integer "3"],
    assignment d [.ofLexeme .decimal "2.5"],
    assignment s [.ofLexeme .text "\"hola\""],
    assignment c [a, .ofKind .plus, b],
    assignment c [a, .ofKind .minus, b],
    assignment c [a, .ofKind .star, b],
    assignment c (parenthesised [a] ++ [.ofKind .slash, b]),
    assignment d [d, .ofKind .plus, .ofLexeme .decimal "1.0"],
    printing c,
    printing (.ofLexeme .text "\"texto\""),
    input a,
    .ofKind .si :: (parenthesised [a, .ofKind .equals, b] ++
      (braced (printing a) ++ .ofKind .oNo :: braced (printing b))),
    comparing (.ofKind .differs) (.ofLexeme .integer "1"),
    comparing (.ofKind .atLeast) (.ofLexeme .integer "2"),
    comparing (.ofKind .atMost) (.ofLexeme .integer "3"),
    comparing (.ofKind .less) (.ofLexeme .integer "4"),
    .ofKind .mientras :: (parenthesised [a, .ofKind .greater, b] ++
      braced (assignment a [a, .ofKind .minus, .ofLexeme .integer "1"])),
    .ofKind .repetir :: (parenthesised [.ofLexeme .integer "3"] ++ braced (printing s))]

/-- The words of the lines of a unit with faults. -/
def faultyWords (j : Nat) : List (List Word) :=
  let e := Stem.e.word j
  [[.ofKind .ent, e, .ofKind .semicolon],
    [.ofKind .ent, e, .ofKind .semicolon],
    assignment e [.ofLexeme .text "\"bad\""],
    assignment (Stem.nf.word j) [.ofLexeme .integer "1"],
    .ofKind .si :: (parenthesised [e] ++ braced (printing e)),
    .ofKind .mientras :: (parenthesised [e] ++ braced (printing e)),
    input (Stem.zz.word j)]

theorem plainLines_eq (i : Nat) :
    (plainLines i).map String.toList = (plainWords i).map typeset := by
  simp only [plainLines, plainWords, parenthesised, braced, assignment, printing, input, Stem.word,
    Stem.name, Stem.text, Word.ofKind, Word.ofLexeme, List.map_cons, List.map_nil, List.cons_append,
    List.nil_append, typeset, toString, String.toList_append, String.reduceToList,
    List.append_assoc]
  rfl

theorem faultyLines_eq (j : Nat) :
    (faultyLines j).map String.toList = (faultyWords j).map typeset := by
  simp only [faultyLines, faultyWords, parenthesised, braced, assignment, printing, input,
    Stem.word, Stem.name, Stem.text, Word.ofKind, Word.ofLexeme, List.map_cons, List.map_nil,
    List.cons_append, List.nil_append, typeset, toString, String.toList_append, String.reduceToList,
    List.append_assoc]
  rfl

/-! ## The lines as items -/

/-- The declarations of a unit without faults. -/
def plainDeclarations (i : Nat) : List Item :=
  [.declaration .ent none [Stem.a.toName i, Stem.b.toName i, Stem.c.toName i],
    .declaration .dec none [Stem.d.toName i], .declaration .cadena none [Stem.s.toName i]]

/-- The statements of a unit without faults. -/
def plainStmts (i : Nat) : List Stmt :=
  let a := Stem.a.toName i
  let b := Stem.b.toName i
  let c := Stem.c.toName i
  let d := Stem.d.toName i
  let s := Stem.s.toName i
  let whole (n : Int) : Expr := .number (.whole n) .start
  let real (num den : Nat) : Expr := .number (.real (.ofRatio false num den)) .start
  let comparing (op : Operator) (n : Int) : Stmt :=
    .conditional (.operation op (.use a) (.use b)) [.assign c (whole n) none] none
  [.assign a (whole 5) none,
    .assign b (whole 3) none,
    .assign d (real 5 2) none,
    .assign s (.text "hola" .start) none,
    .assign c (.operation .add (.use a) (.use b)) none,
    .assign c (.operation .sub (.use a) (.use b)) none,
    .assign c (.operation .mul (.use a) (.use b)) none,
    .assign c (.operation .div (.use a) (.use b)) none,
    .assign d (.operation .add (.use d) (real 1 1)) none,
    .print (.use c),
    .print (.text "texto" .start),
    .input a,
    .conditional (.operation .eq (.use a) (.use b)) [.print (.use a)] (some [.print (.use b)]),
    comparing .ne 1,
    comparing .ge 2,
    comparing .le 3,
    comparing .lt 4,
    .whileLoop (.operation .gt (.use a) (.use b))
    [.assign a (.operation .sub (.use a) (whole 1)) none],
    .repeatLoop 3 .start [.print (.use s)]]

/-- The items of a unit without faults. -/
def plainItems (i : Nat) : List Item := plainDeclarations i ++ (plainStmts i).map .statement

/-- The statements of a unit with faults. -/
def faultyStmts (j : Nat) : List Stmt :=
  let e := Stem.e.toName j
  [.assign e (.text "bad" .start) none,
    .assign (Stem.nf.toName j) (.number (.whole 1) .start) none,
    .conditional (.use e) [.print (.use e)] none,
    .whileLoop (.use e) [.print (.use e)],
    .input (Stem.zz.toName j)]

/-- The items of a unit with faults. -/
def faultyItems (j : Nat) : List Item :=
  .declaration .ent none [Stem.e.toName j] :: .declaration .ent none [Stem.e.toName j] ::
    (faultyStmts j).map .statement

/-- Words that are read as one item. -/
def ReadAs (ws : List Word) (i : Item) : Prop :=
  (Reader.start.run .start none (ws.map Word.token)).outcome = .ok (some ⟨[i]⟩)

theorem readAs_plain (i : Nat) : List.Forall₂ ReadAs (plainWords i) (plainItems i) := by
  have hhalf : Token.toExpr ⟨.decimal, "2.5", .start⟩ =
      .ok (.number (.real (.ofRatio false 5 2)) .start) :=
        Token.toExpr_decimal rfl (by decide +kernel)
  have hone : Token.toExpr ⟨.decimal, "1.0", .start⟩ = .ok
      (.number (.real (.ofRatio false 1 1)) .start) := Token.toExpr_decimal rfl (by decide +kernel)
  iterate 5 refine .cons rfl ?_
  refine .cons ?_ ?_
  · have htakes : Reader.start.Takes
        ((assignment (Stem.d.word i) [.ofLexeme .decimal "2.5"]).map Word.token) _ := .cons rfl
        (.cons rfl (.cons rfl (.cons ((Reader.look_loose rfl hhalf rfl).trans rfl) .nil)))
    exact congrArg Reading.outcome (htakes.run rfl _)
  iterate 5 refine .cons rfl ?_
  refine .cons ?_ ?_
  · have htakes : Reader.start.Takes ((assignment (Stem.d.word i)
        [Stem.d.word i, .ofKind .plus, .ofLexeme .decimal "1.0"]).map Word.token) _ :=
      .cons rfl (.cons rfl (.cons rfl
        (.cons rfl (.cons rfl (.cons ((Reader.look_loose rfl hone rfl).trans rfl) .nil)))))
    exact congrArg Reading.outcome (htakes.run rfl _)
  repeat refine .cons rfl ?_
  exact .nil

theorem readAs_faulty (j : Nat) : List.Forall₂ ReadAs (faultyWords j) (faultyItems j) := by
  repeat refine .cons rfl ?_
  exact .nil

/-! ## The text -/

/-- A line that is read as one item, places aside. -/
def LineOf (line : String) (i : Item) : Prop := (Reading.ofText line).outcome = .ok (some ⟨[i]⟩)

theorem lineOf_typeset {lines : List String} {words : List (List Word)} {items : List Item}
    (hlines : lines.map String.toList = words.map typeset) (h : List.Forall₂ ReadAs words items) :
    List.Forall₂ LineOf lines items := by
  induction h generalizing lines with
  | nil =>
    obtain rfl : lines = [] := by simpa using hlines
    exact .nil
  | @cons ws i words items hfirst _ ih =>
    obtain ⟨line, rest, rfl, hline, hrest⟩ := List.map_eq_cons_iff.mp hlines
    refine .cons ?_ (ih hrest)
    have hscans : Scan.Scans line.toList ws := hline ▸ Scan.scans_typeset ws
    exact (Reading.outcome_of_scans hscans).trans hfirst

theorem lineOf_plain (i : Nat) : List.Forall₂ LineOf (plainLines i) (plainItems i) :=
  lineOf_typeset (plainLines_eq i) (readAs_plain i)

theorem lineOf_faulty (j : Nat) : List.Forall₂ LineOf (faultyLines j) (faultyItems j) :=
  lineOf_typeset (faultyLines_eq j) (readAs_faulty j)

theorem LineOf.exists_reading {line : String} {i : Item} (h : LineOf line i) :
    ∃ p log, Reading.ofText line = .program p log ∧ p.unplaced = ⟨[i]⟩ := by
  unfold LineOf at h
  cases hreading : Reading.ofText line with
  | program p log =>
    rw [hreading] at h
    exact ⟨p, log, rfl, Option.some.inj (Except.ok.inj h)⟩
  | fault f =>
    rw [hreading] at h
    cases Except.ok.inj h
  | aborted f =>
    rw [hreading] at h
    cases h

/-- Lines that are each read as an item are read as these items, one after the other. -/
theorem exists_reading_textOf {lines : List String} {items : List Item}
    (h : List.Forall₂ LineOf lines items) :
    ∃ p log, Reading.ofText (textOf lines) = .program p log ∧ p.unplaced = ⟨items⟩ := by
  induction h with
  | nil => exact ⟨⟨[]⟩, [], rfl, rfl⟩
  | @cons line i lines items hline _ ih =>
    obtain ⟨p, log, hp, hpi⟩ := hline.exists_reading
    obtain ⟨q, log', hq, hqi⟩ := ih
    have htext : textOf (line :: lines) = line ++ "\n" ++ textOf lines := by
      rw [textOf, List.map_cons, String.join_cons, textOf]
    rw [htext, Reading.ofText_newline hp hq]
    refine ⟨_, _, rfl, ?_⟩
    simp only [Program.unplaced, Program.mk.injEq] at hpi hqi ⊢
    rw [List.map_append, List.map_map, hpi, List.singleton_append, ← hqi]
    simp [Function.comp_def, Item.unplaced_relocate]

/-- How many faulty units a program has. -/
def faultyCount (n : Nat) (faults : Bool) : Nat := if faults then faultyUnits n else 0

/-- The items of a program: those of its plain units and then those of its faulty ones. -/
def items (n m : Nat) : List Item :=
  (List.range n).flatMap plainItems ++ (List.range m).flatMap faultyItems

theorem lineOf_flatMap {lines : Nat → List String} {items : Nat → List Item}
    (h : ∀ i, List.Forall₂ LineOf (lines i) (items i)) (is : List Nat) :
    List.Forall₂ LineOf (is.flatMap lines) (is.flatMap items) := by
  induction is with
  | nil => exact .nil
  | cons i is ih => exact List.rel_append (h i) ih

/-- A sample program of any size is read, with the items of its units. -/
theorem exists_reading_program (n : Nat) (faults : Bool) :
    ∃ p log, Reading.ofText (program n faults) = .program p log ∧
      p.unplaced = ⟨items n (faultyCount n faults)⟩ := by
  have htext : program n faults = textOf ((List.range n).flatMap plainLines ++
      (List.range (faultyCount n faults)).flatMap faultyLines) := by
    rw [textOf, List.map_append, String.join_append, program, plain, textOf]
    cases faults <;> rfl
  rw [htext]
  exact exists_reading_textOf (List.rel_append (lineOf_flatMap lineOf_plain _)
    (lineOf_flatMap lineOf_faulty _))

end Sample

end Analizador
