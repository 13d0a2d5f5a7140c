import Analizador.Proofs.Numeral
import Analizador.Proofs.Scan.Spaced
import Analizador.Program.Reader

/-! # Printing programs

A program is printed as its tokens with a space between them. Every compound operand of an operation
stands in parentheses. The programs that can be written in the language are those of identifiers,
natural numbers within the digit limit, texts without a quotation mark, and operations that no
analysis has marked. -/

namespace Analizador

/-! ## The tokens of a program -/

/-- The spelling of a kind that has only one. -/
def Kind.spelling (k : Kind) : String := (spellings.find? (·.2 = k)).elim "" (·.1)

/-- The token of a kind that has only one spelling. -/
def Kind.token (k : Kind) : Token := ⟨k, k.spelling, .start⟩

/-- The token of a word. -/
def Token.ofWord (word : String) : Token := ⟨Kind.ofWord word, word, .start⟩

/-- The token of an integer. -/
def Token.ofInteger (n : Int) : Token := ⟨.integer, toString n, .start⟩

/-- The token of a text. -/
def Token.ofString (s : String) : Token := ⟨.text, "\"" ++ s ++ "\"", .start⟩

/-- The kind of the sign of an operator. -/
def Operator.kind : Operator → Kind
  | add => .plus
  | sub => .minus
  | mul => .star
  | div => .slash
  | eq => .equals
  | ne => .differs
  | gt => .greater
  | lt => .less
  | ge => .atLeast
  | le => .atMost
  | both => .both
  | either => .either

/-- Tokens in parentheses. -/
def Token.parenthesised (ts : List Token) : List Token :=
  Kind.leftParen.token :: (ts ++ [Kind.rightParen.token])

/-- Tokens in braces. -/
def Token.braced (ts : List Token) : List Token :=
  Kind.leftBrace.token :: (ts ++ [Kind.rightBrace.token])

namespace Expr

/-- The tokens of an expression as an operand: in parentheses if it is an operation. -/
def enclose : Expr → List Token → List Token
  | binary .., ts => Token.parenthesised ts
  | _, ts => ts

/-- The tokens of an expression. -/
def tokens : Expr → List Token
  | number (.whole n) _ => [.ofInteger n]
  | number (.real d) _ => [⟨.decimal, d.toText, .start⟩]
  | text s _ => [.ofString s]
  | use name => [.ofWord name.text]
  | binary op left right _ =>
    left.enclose left.tokens ++ ⟨op.kind, op.sign, .start⟩ :: right.enclose right.tokens

end Expr

namespace Stmt

mutual

/-- The tokens of a statement. -/
def tokens : Stmt → List Token
  | .assign target value _ =>
    .ofWord target.text :: Kind.assign.token :: (value.tokens ++ [Kind.semicolon.token])
  | .conditional condition body other =>
    Kind.si.token :: (Token.parenthesised condition.tokens ++
      (Token.braced (tokensAll body) ++ tokensOther other))
  | .whileLoop condition body =>
    Kind.mientras.token :: (Token.parenthesised condition.tokens ++ Token.braced (tokensAll body))
  | .repeatLoop count _ body =>
    Kind.repetir.token :: (Token.parenthesised [.ofInteger count] ++ Token.braced (tokensAll body))
  | .print value => Kind.sout.token :: (Token.parenthesised value.tokens ++ [Kind.semicolon.token])
  | .input target =>
    Kind.scan.token :: (Token.parenthesised [.ofWord target.text] ++ [Kind.semicolon.token])
  | .block body => Token.braced (tokensAll body)
termination_by structural s => s

/-- The tokens of the second block of a conditional. -/
def tokensOther : Option (List Stmt) → List Token
  | none => []
  | some body => Kind.oNo.token :: Token.braced (tokensAll body)
termination_by structural other => other

/-- The tokens of statements. -/
def tokensAll : List Stmt → List Token
  | [] => []
  | s :: rest => s.tokens ++ tokensAll rest
termination_by structural body => body

end

end Stmt

/-- The tokens of names with a comma between them. -/
def Name.tokensAll : List Name → List Token
  | [] => []
  | n :: rest => .ofWord n.text :: rest.flatMap fun m => [Kind.comma.token, .ofWord m.text]

/-- The tokens of an item. -/
def Item.tokens : Item → List Token
  | .declaration ty _ names => .ofWord ty.name :: (Name.tokensAll names ++ [Kind.semicolon.token])
  | .statement s => s.tokens

/-- The tokens of a program. -/
def Program.tokens (p : Program) : List Token := p.items.flatMap Item.tokens

/-- The text of a program: its tokens with a space between them. -/
def Program.print (p : Program) : String := " ".intercalate (p.tokens.map Token.text)

/-! ## Programs that can be written -/

/-- A natural number within the digit limit. -/
def Numeral.Writable (n : Int) : Prop := ∃ k : Nat, n = k ∧ (Nat.toDigits 10 k).length ≤ digitLimit

/-- An identifier that no analysis has marked. -/
def Name.Writable (n : Name) : Prop := Kind.identifier.Reads n.text.toList ∧ n.mark = .blank

/-- An expression of the language that no analysis has marked. -/
def Expr.Writable : Expr → Prop
  | .number (.whole n) _ => Numeral.Writable n
  | .number (.real _) _ => False
  | .text s _ => '"' ∉ s.toList
  | .use name => name.Writable
  | .binary op left right mark =>
    op.family ≠ .logical ∧ .binary op left right mark = operation op left right ∧
      left.Writable ∧ right.Writable

namespace Stmt

mutual

/-- A statement of the language that no analysis has marked. -/
def Writable : Stmt → Prop
  | .assign target value ty => target.Writable ∧ value.Writable ∧ ty = none
  | .conditional condition body other => condition.Writable ∧ WritableAll body ∧ WritableOther other
  | .whileLoop condition body => condition.Writable ∧ WritableAll body
  | .repeatLoop count _ body => Numeral.Writable count ∧ WritableAll body
  | .print value => value.Writable
  | .input target => target.Writable
  | .block body => WritableAll body
termination_by structural s => s

/-- The second block of a conditional is made of statements of the language. -/
def WritableOther : Option (List Stmt) → Prop
  | none => True
  | some body => WritableAll body
termination_by structural other => other

/-- Statements of the language that no analysis has marked. -/
def WritableAll : List Stmt → Prop
  | [] => True
  | s :: rest => s.Writable ∧ WritableAll rest
termination_by structural body => body

end

end Stmt

/-- An item of the language that no analysis has marked. -/
def Item.Writable : Item → Prop
  | .declaration ty listType names =>
    ty ≠ .bool ∧ listType = none ∧ names ≠ [] ∧ ∀ n ∈ names, n.Writable
  | .statement s => s.Writable

/-- A program of the language that no analysis has marked. -/
def Program.Writable (p : Program) : Prop := ∀ i ∈ p.items, i.Writable

/-! ## What is printed can be scanned -/

/-- A token as it is printed: one of the language, without a place. -/
structure Token.Printed (t : Token) : Prop where
  reads : t.kind.Reads t.text.toList
  unplaced : t.unplaced = t

/-- A token whose text its kind fixes is printed. -/
theorem Kind.printed_token {k : Kind} (h : k ∉ [identifier, integer, decimal, text]) :
    k.token.Printed := by
  have hmem : (k.spelling, k) ∈ spellings := by
    revert h
    cases k <;> decide
  exact ⟨Scan.reads_of_mem_spellings hmem, rfl⟩

/-- So is the sign of an operator. -/
theorem Operator.printed_token (op : Operator) : Token.Printed ⟨op.kind, op.sign, .start⟩ := by
  have hmem : (op.sign, op.kind) ∈ Kind.spellings := by cases op <;> decide
  exact ⟨Scan.reads_of_mem_spellings hmem, rfl⟩

/-- So is the name of a type, other than that of truth values. -/
theorem Ty.printed_token {ty : Ty} (h : ty ≠ .bool) : (Token.ofWord ty.name).Printed := by
  have hmem : (ty.name, Kind.ofWord ty.name) ∈ Kind.spellings := by
    revert h
    cases ty <;> decide
  exact ⟨Scan.reads_of_mem_spellings hmem, rfl⟩

theorem Name.Writable.kind_ofWord {n : Name} (h : n.Writable) :
    Kind.ofWord n.text = .identifier := by
  simpa using h.1.2

/-- So is a name that is writable. -/
theorem Name.Writable.printed {n : Name} (h : n.Writable) : (Token.ofWord n.text).Printed := by
  refine ⟨?_, rfl⟩
  simpa only [Token.ofWord, h.kind_ofWord] using h.1

theorem Numeral.toList_toString (k : Nat) : (toString (k : Int)).toList = Nat.toDigits 10 k :=
  Nat.toList_repr

/-- So is an integer that is writable. -/
theorem Numeral.Writable.printed {n : Int} (h : Numeral.Writable n) :
    (Token.ofInteger n).Printed := by
  obtain ⟨k, rfl, -⟩ := h
  refine ⟨⟨?_, ?_⟩, rfl⟩ <;> simp only [Token.ofInteger, Numeral.toList_toString]
  · exact Nat.toDigits_ne_nil
  · exact fun c hc => Nat.isDigit_of_mem_toDigits (by decide) (by decide) hc

/-- Reading a printed number gives it back. -/
theorem Numeral.Writable.readInteger {n : Int} (h : Numeral.Writable n) :
    Numeral.readInteger (toString n) = .ok n := by
  obtain ⟨k, rfl, hlength⟩ := h
  have hdigits : ∀ c ∈ Nat.toDigits 10 k, c.isDigit = true := fun c hc =>
    Nat.isDigit_of_mem_toDigits (by decide) (by decide) hc
  rw [← String.ofList_toList (s := toString (k : Int)), Numeral.toList_toString,
    readInteger_ofList Nat.toDigits_ne_nil hdigits, if_neg (Nat.not_lt.mpr hlength),
    Nat.ofDigitChars_ten_toDigits]

/-- So is a text without quotes. -/
theorem Token.printed_ofString {s : String} (h : '"' ∉ s.toList) : (Token.ofString s).Printed :=
  ⟨⟨s.toList, by simp [Token.ofString], h⟩, rfl⟩

theorem Token.printed_cons {k : Kind} {ts : List Token}
    (hk : k ∉ [.identifier, .integer, .decimal, .text]) (h : ∀ t ∈ ts, t.Printed) :
    ∀ t ∈ k.token :: ts, t.Printed :=
  List.forall_mem_cons.mpr ⟨Kind.printed_token hk, h⟩

theorem Token.printed_concat {k : Kind} {ts : List Token} (h : ∀ t ∈ ts, t.Printed)
    (hk : k ∉ [.identifier, .integer, .decimal, .text]) : ∀ t ∈ ts ++ [k.token], t.Printed :=
  List.forall_mem_append.mpr ⟨h, List.forall_mem_singleton.mpr (Kind.printed_token hk)⟩

/-- Printed tokens in parentheses are printed. -/
theorem Token.printed_parenthesised {ts : List Token} (h : ∀ t ∈ ts, t.Printed) :
    ∀ t ∈ parenthesised ts, t.Printed :=
  printed_cons (by decide) (printed_concat h (by decide))

/-- So are printed tokens in braces. -/
theorem Token.printed_braced {ts : List Token} (h : ∀ t ∈ ts, t.Printed) :
    ∀ t ∈ braced ts, t.Printed :=
  printed_cons (by decide) (printed_concat h (by decide))

theorem Expr.printed_enclose (e : Expr) {ts : List Token} (h : ∀ t ∈ ts, t.Printed) :
    ∀ t ∈ e.enclose ts, t.Printed := by
  cases e with
  | binary => exact Token.printed_parenthesised h
  | _ => exact h

/-- The tokens of a writable expression are printed. -/
theorem Expr.Writable.printed {e : Expr} (h : e.Writable) : ∀ t ∈ e.tokens, t.Printed := by
  induction e with
  | number value spot =>
    cases value with
    | whole n => exact List.forall_mem_singleton.mpr (Numeral.Writable.printed h)
    | real d => cases h
  | text s spot => exact List.forall_mem_singleton.mpr (Token.printed_ofString h)
  | use name => exact List.forall_mem_singleton.mpr (Name.Writable.printed h)
  | binary op left right mark ihleft ihright =>
    obtain ⟨-, -, hleft, hright⟩ := h
    exact List.forall_mem_append.mpr ⟨left.printed_enclose (ihleft hleft),
      List.forall_mem_cons.mpr ⟨op.printed_token, right.printed_enclose (ihright hright)⟩⟩

namespace Stmt

mutual

/-- So are those of a writable statement. -/
theorem Writable.printed : ∀ {s : Stmt}, s.Writable → ∀ t ∈ s.tokens, t.Printed
  | .assign _ _ _, ⟨htarget, hvalue, _⟩ =>
    List.forall_mem_cons.mpr ⟨htarget.printed,
      Token.printed_cons (by decide) (Token.printed_concat hvalue.printed (by decide))⟩
  | .conditional _ _ _, ⟨hcondition, hbody, hother⟩ =>
    Token.printed_cons (by decide) (List.forall_mem_append.mpr
      ⟨Token.printed_parenthesised hcondition.printed, List.forall_mem_append.mpr
        ⟨Token.printed_braced (WritableAll.printed hbody), WritableOther.printed hother⟩⟩)
  | .whileLoop _ _, ⟨hcondition, hbody⟩ =>
    Token.printed_cons (by decide) (List.forall_mem_append.mpr
      ⟨Token.printed_parenthesised hcondition.printed,
        Token.printed_braced (WritableAll.printed hbody)⟩)
  | .repeatLoop _ _ _, ⟨hcount, hbody⟩ =>
    Token.printed_cons (by decide) (List.forall_mem_append.mpr
      ⟨Token.printed_parenthesised (List.forall_mem_singleton.mpr hcount.printed),
        Token.printed_braced (WritableAll.printed hbody)⟩)
  | .print _, hvalue =>
    Token.printed_cons (by decide)
      (Token.printed_concat (Token.printed_parenthesised (Expr.Writable.printed hvalue))
        (by decide))
  | .input _, htarget =>
    Token.printed_cons (by decide) (Token.printed_concat
      (Token.printed_parenthesised (List.forall_mem_singleton.mpr (Name.Writable.printed htarget)))
      (by decide))
  | .block _, hbody => Token.printed_braced (WritableAll.printed hbody)

theorem WritableOther.printed : ∀ {other : Option (List Stmt)}, WritableOther other →
    ∀ t ∈ tokensOther other, t.Printed
  | none, _ => by simp [tokensOther]
  | some _, hbody => Token.printed_cons (by decide)
      (Token.printed_braced (WritableAll.printed hbody))

/-- So are those of a writable body. -/
theorem WritableAll.printed :
    ∀ {body : List Stmt}, WritableAll body → ∀ t ∈ tokensAll body, t.Printed
  | [], _ => by simp [tokensAll]
  | _ :: _, ⟨hs, hrest⟩ => List.forall_mem_append.mpr
      ⟨Writable.printed hs, WritableAll.printed hrest⟩

end

end Stmt

theorem Name.printed_tokensAll {names : List Name} (h : ∀ n ∈ names, n.Writable) :
    ∀ t ∈ tokensAll names, t.Printed := by
  cases names with
  | nil => simp [tokensAll]
  | cons n rest =>
    obtain ⟨hn, hrest⟩ := List.forall_mem_cons.mp h
    refine List.forall_mem_cons.mpr ⟨hn.printed, fun t ht => ?_⟩
    obtain ⟨m, hm, ht⟩ := List.mem_flatMap.mp ht
    exact Token.printed_cons (by decide) (List.forall_mem_singleton.mpr (hrest m hm).printed) t ht

/-- So are those of a writable item. -/
theorem Item.Writable.printed {i : Item} (h : i.Writable) : ∀ t ∈ i.tokens, t.Printed := by
  cases i with
  | declaration ty listType names =>
    obtain ⟨hty, -, -, hnames⟩ := h
    exact List.forall_mem_cons.mpr
      ⟨Ty.printed_token hty, Token.printed_concat (Name.printed_tokensAll hnames) (by decide)⟩
  | statement s => exact Stmt.Writable.printed h

/-- So are those of a writable program. -/
theorem Program.Writable.printed {p : Program} (h : p.Writable) : ∀ t ∈ p.tokens, t.Printed := by
  intro t ht
  obtain ⟨i, hi, ht⟩ := List.mem_flatMap.mp ht
  exact (h i hi).printed t ht

end Analizador
