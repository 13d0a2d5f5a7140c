import Analizador.Proofs.Program.Relocation
import Analizador.Proofs.Reader.Moves

/-! # Reading behind a preamble

A reader never looks at the items and the log that it has built, nor at the places that it copies
into the tree. So it reads a text in the same way when other items stand before it and its tokens
have been moved to other places: every step commutes with putting the preamble first and moving the
places. -/

namespace Analizador

/-- What stands before a text: the items and the log of what was read, and where the places of the
text are moved. -/
structure Preamble where
  items : List Item
  log : List String
  place : Spot → Spot

/-! ## Readers at other places -/

/-- What is looked at, at another place. -/
def Look.relocate (f : Spot → Spot) : Look → Look
  | .token t => .token (t.relocate f)
  | .finish => .finish

/-- An operand at other places. -/
def Operand.relocate (f : Spot → Spot) : Operand → Operand
  | .loose t => .loose (t.relocate f)
  | .built e => .built (e.relocate f)

/-- The left side of an operation at other places. -/
def Level.relocateLeft (f : Spot → Spot) (left : Expr × Operator) : Expr × Operator :=
  (left.1.relocate f, left.2)

/-- A level at other places. -/
def Level.relocate (f : Spot → Spot) (level : Level) : Level where
  compared := level.compared.map (relocateLeft f)
  operand := level.operand.map (relocateLeft f)

/-- The statement of an expression at other places. -/
def Place.relocate (f : Spot → Spot) : Place → Place
  | .assign target => .assign (target.relocate f)
  | .si => .si
  | .mientras => .mientras
  | .sout => .sout

/-- The part of a block at other places. -/
def Role.relocate (f : Spot → Spot) : Role → Role
  | .bare => .bare
  | .thenPart condition => .thenPart (condition.relocate f)
  | .elsePart condition body => .elsePart (condition.relocate f) (body.map (Stmt.relocate f))
  | .whileBody condition => .whileBody (condition.relocate f)
  | .repeatBody count spot => .repeatBody count (f spot)

/-- An open block at other places. -/
def Frame.relocate (f : Spot → Spot) (frame : Frame) : Frame :=
  ⟨frame.role.relocate f, frame.stmts.map (Stmt.relocate f)⟩

/-- A phase at other places. -/
def Phase.relocate (f : Spot → Spot) : Phase → Phase
  | .ready => .ready
  | .afterThen condition body => .afterThen (condition.relocate f) (body.map (Stmt.relocate f))
  | .nextName ty names => .nextName ty (names.map (Name.relocate f))
  | .named ty names => .named ty (names.map (Name.relocate f))
  | .target name => .target (name.relocate f)
  | .keyword k => .keyword k
  | .wanting place level outer =>
    .wanting (place.relocate f) (level.relocate f) (outer.map (Level.relocate f))
  | .holding place level outer x =>
    .holding (place.relocate f) (level.relocate f) (outer.map (Level.relocate f)) (x.relocate f)
  | .compared place outer e =>
    .compared (place.relocate f) (outer.map (Level.relocate f)) (e.relocate f)
  | .whole place outer e => .whole (place.relocate f) (outer.map (Level.relocate f)) (e.relocate f)
  | .logical place outer => .logical (place.relocate f) (outer.map (Level.relocate f))
  | .lone t => .lone (t.relocate f)
  | .count => .count
  | .counting t => .counting (t.relocate f)
  | .counted n spot => .counted n (f spot)
  | .inputName => .inputName
  | .inputNamed name => .inputNamed (name.relocate f)
  | .opening role => .opening (role.relocate f)
  | .ending s => .ending (s.relocate f)

/-- A program behind a preamble. -/
def Program.behind (a : Preamble) (p : Program) : Program :=
  ⟨a.items ++ p.items.map (Item.relocate a.place)⟩

/-- A reader behind a preamble. -/
def Reader.behind (a : Preamble) (r : Reader) : Reader where
  items := a.items ++ r.items.map (Item.relocate a.place)
  frames := r.frames.map (Frame.relocate a.place)
  phase := r.phase.relocate a.place
  log := a.log ++ r.log

/-- A step behind a preamble. -/
def Step.behind (a : Preamble) : Step → Step
  | .moved r => .moved (r.behind a)
  | .accepted p log => .accepted (p.behind a) (a.log ++ log)
  | .stuck r => .stuck (r.behind a)
  | .failed f => .failed f

/-! ## Building phrases at other places -/

@[simp] theorem Token.text_relocate (f : Spot → Spot) (t : Token) : (t.relocate f).text = t.text :=
  rfl

/-- The expression of a token moves with it. -/
theorem Token.toExpr_relocate (f : Spot → Spot) (t : Token) :
    (t.relocate f).toExpr = t.toExpr.map (Expr.relocate f) := by
  obtain ⟨kind, text, spot⟩ := t
  cases kind with
  | integer =>
    simp only [Token.toExpr, Token.relocate]
    cases Numeral.readInteger text <;> rfl
  | decimal =>
    simp only [Token.toExpr, Token.relocate]
    cases Numeral.readDecimal text <;> rfl
  | _ => rfl

theorem Level.relocate_eq_fresh_iff {f : Spot → Spot} {level : Level} :
    level.relocate f = .fresh ↔ level = .fresh := by
  obtain ⟨compared, operand⟩ := level
  simp [Level.relocate, Level.fresh]

theorem Place.relocate_eq_sout_iff {f : Spot → Spot} {place : Place} :
    place.relocate f = .sout ↔ place = .sout := by
  cases place <;> simp [Place.relocate]

/-! ## Every step commutes with the preamble -/

namespace Reader

variable (a : Preamble) (r : Reader)

/-- A statement is completed behind a preamble as without it. -/
theorem complete_behind (s : Stmt) :
    (r.behind a).complete (s.relocate a.place) = (r.complete s).behind a := by
  obtain ⟨items, frames, phase, log⟩ := r
  cases frames with
  | nil => simp [complete, behind, Phase.relocate, Item.relocate]
  | cons f fs => simp [complete, behind, Phase.relocate, Frame.relocate]

/-- So is a line noted. -/
theorem note_behind (line : String) : (r.behind a).note line = (r.note line).behind a := by
  simp [note, behind]

/-- So is a block closed. -/
theorem closeBlock_behind (f : Frame) (fs : List Frame) :
    (r.behind a).closeBlock (f.relocate a.place) (fs.map (Frame.relocate a.place)) =
      (r.closeBlock f fs).behind a := by
  have hcomplete := complete_behind a { r with frames := fs }
  obtain ⟨role, stmts⟩ := f
  cases role <;> simp only [closeBlock, Frame.relocate, Role.relocate, ← hcomplete, Stmt.relocate,
    Stmt.relocateOther, Stmt.relocateAll_eq_map] <;> rfl

/-- So is the end looked at. -/
theorem ready_finish_behind : (r.behind a).ready .finish = (r.ready .finish).behind a := by
  obtain ⟨items, frames, phase, log⟩ := r
  cases frames <;> rfl

theorem inPhase_behind (phase : Phase) :
    (r.inPhase phase).behind a = (r.behind a).inPhase (phase.relocate a.place) :=
  rfl

theorem openBlock_behind (role : Role) :
    (r.openBlock role).behind a = (r.behind a).openBlock (role.relocate a.place) :=
  rfl

/-- The line of a plain expression does not depend on places. -/
theorem plainLine_relocate (f : Spot → Spot) (e : Expr) :
    plainLine (e.relocate f) = plainLine e := by
  unfold plainLine
  rw [Expr.cls_relocate]

/-- Nor does that of an operation. -/
theorem operationLine_relocate (f : Spot → Spot) (op : Operator) (left right : Expr) :
    operationLine op (left.relocate f) (right.relocate f) = operationLine op left right := by
  unfold operationLine
  rw [Expr.cls_relocate, Expr.cls_relocate]

variable {a r} {r' : Reader} {t : Token} {k : Kind}

theorem toExpr_behind {s : Token} {e : Expr} (he : s.toExpr = .ok e) :
    (s.relocate a.place).toExpr = .ok (e.relocate a.place) := by
  rw [Token.toExpr_relocate, he]
  rfl

theorem toExpr_behind_error {s : Token} {f : Failure} (hf : s.toExpr = .error f) :
    (s.relocate a.place).toExpr = .error f := by
  rw [Token.toExpr_relocate, hf]
  rfl

/-- A phrase that ends, ends behind a preamble. -/
theorem Ends.behind (h : r.Ends k r') : (r.behind a).Ends k (r'.behind a) := by
  have hends {q : Reader} {phase phase' : Phase}
      (h : ((q.behind a).inPhase (phase.relocate a.place)).Ends k
        ((q.behind a).inPhase (phase'.relocate a.place))) :
      ((q.inPhase phase).behind a).Ends k ((q.inPhase phase').behind a) := h
  cases h with
  | conditional hk =>
    rw [inPhase_behind, ← complete_behind, Stmt.relocate, Stmt.relocateAll_eq_map,
      Stmt.relocateOther]
    exact .conditional hk
  | leaf hk he => exact hends (.leaf hk (toExpr_behind he))
  | operation hk hop =>
    rw [inPhase_behind, inPhase_behind, ← note_behind, ← operationLine_relocate a.place]
    exact .operation hk hop
  | plain hk =>
    rw [inPhase_behind, inPhase_behind, ← note_behind, ← plainLine_relocate a.place]
    exact .plain hk
  | comparison hk hop => exact hends (.comparison hk hop)
  | whole hk => exact hends (.whole hk)
  | lone hk hparen hmark => exact hends (.lone hk hparen hmark)
  | count hk hn => exact hends (.count hk hn)

/-- A token that is taken, is taken behind a preamble. -/
theorem Shifts.behind (h : r.Shifts t r') :
    (r.behind a).Shifts (t.relocate a.place) (r'.behind a) := by
  have hshifts {q : Reader} {phase phase' : Phase}
      (h : ((q.behind a).inPhase (phase.relocate a.place)).Shifts (t.relocate a.place)
        ((q.behind a).inPhase (phase'.relocate a.place))) :
      ((q.inPhase phase).behind a).Shifts (t.relocate a.place) ((q.inPhase phase').behind a) := h
  cases h with
  | target h => exact hshifts (.target h)
  | keyword h => exact hshifts (.keyword h)
  | bare h =>
    rw [inPhase_behind, openBlock_behind]
    exact .bare h
  | close h hframes =>
    rw [inPhase_behind, ← closeBlock_behind]
    exact .close h (by simp [Reader.behind, hframes])
  | type hty hframes => exact hshifts (.type hty (by simp [Reader.behind, hframes]))
  | otherwise h => exact hshifts (.otherwise h)
  | name h =>
    refine hshifts ?_
    rw [Phase.relocate, Phase.relocate, List.map_append]
    exact .name h
  | comma h => exact hshifts (.comma h)
  | @declaration r ty names h =>
    have hbehind : Reader.behind a
          { r with items := r.items ++ [.declaration ty none names], phase := .ready } =
        { r.behind a with
          items := (r.behind a).items ++ [.declaration ty none (names.map (Name.relocate a.place))]
          phase := .ready } := by
      simp [Reader.behind, Item.relocate, Phase.relocate]
    rw [inPhase_behind, hbehind]
    exact .declaration h
  | assign h => exact hshifts (.assign h)
  | @inside r k h =>
    refine hshifts ?_
    have hinside : k.inside.relocate a.place = k.inside := by cases k <;> rfl
    rw [hinside]
    exact .inside h
  | paren h => exact hshifts (.paren h)
  | lone h => exact hshifts (.lone h)
  | operand h hparen hlone =>
    refine hshifts (.operand h hparen ?_)
    -- The test for a lone text compares the whole state of the expression, which keeps its shape.
    rwa [Place.relocate_eq_sout_iff, Level.relocate_eq_fresh_iff, List.map_eq_nil_iff]
  | arithmetic hop => exact hshifts (.arithmetic hop)
  | relational hop => exact hshifts (.relational hop)
  | logical h => exact hshifts (.logical h)
  | closeParen h => exact hshifts (.closeParen h)
  | assigned h =>
    rw [inPhase_behind, ← complete_behind]
    exact .assigned h
  | si h => exact hshifts (.si h)
  | mientras h => exact hshifts (.mientras h)
  | sout h => exact hshifts (.sout h)
  | loneSout h he => exact hshifts (.loneSout h (toExpr_behind he))
  | count h => exact hshifts (.count h)
  | counted h => exact hshifts (.counted h)
  | inputName h => exact hshifts (.inputName h)
  | input h => exact hshifts (.input h)
  | block h =>
    rw [inPhase_behind, openBlock_behind]
    exact .block h
  | statement h =>
    rw [inPhase_behind, ← complete_behind]
    exact .statement h

/-- Nor does what a phase wants. -/
theorem wants?_relocate (f : Spot → Spot) (phase : Phase) :
    (phase.relocate f).wants? = phase.wants? := by
  cases phase with
  | whole place outer e =>
    cases outer with
    | cons level outer => rfl
    | nil => cases place <;> rfl
  | _ => rfl

/-- A token that is refused, is refused behind a preamble. -/
theorem Refuses.behind (h : r.Refuses k) : (r.behind a).Refuses k := by
  have hrefuses {q : Reader} {phase : Phase}
      (h : ((q.behind a).inPhase (phase.relocate a.place)).Refuses k) :
      ((q.inPhase phase).behind a).Refuses k := h
  cases h with
  | single hwants hk => exact .single ((wants?_relocate a.place _).trans hwants) hk
  | ready hname hkeyword hopen hclose htype =>
    refine hrefuses (.ready hname hkeyword hopen ?_ ?_)
    · simpa [Reader.behind] using hclose
    · simpa [Reader.behind] using htype
  | conditional helse hk => exact hrefuses (.conditional helse hk)
  | named hcomma hmark => exact hrefuses (.named hcomma hmark)
  | wanting hk => exact hrefuses (.wanting hk)
  | holding hk => exact hrefuses (.holding hk)
  | operation hop => exact hrefuses (.operation hop)
  | compared hk => exact hrefuses (.compared hk)
  | logical hk => exact hrefuses (.logical hk)
  | lone hk => exact hrefuses (.lone hk)
  | counting hk => exact hrefuses (.counting hk)

/-- A phrase that cannot be built, cannot be built behind a preamble. -/
theorem Fails.behind {f : Failure} (h : r.Fails k f) : (r.behind a).Fails k f := by
  have hfails {q : Reader} {phase : Phase} {f : Failure}
      (h : ((q.behind a).inPhase (phase.relocate a.place)).Fails k f) :
      ((q.inPhase phase).behind a).Fails k f := h
  cases h with
  | leaf hk hf => exact hfails (.leaf hk (toExpr_behind_error hf))
  | lone hk hf => exact hfails (.lone hk (toExpr_behind_error hf))
  | count hk hf => exact hfails (.count hk hf)
  | logical hk => exact hfails (.logical hk)

/-- A token is looked at behind a preamble as without it. -/
theorem Looks.behind {step : Step} (h : r.Looks t step) :
    (r.behind a).Looks (t.relocate a.place) (step.behind a) := by
  induction h with
  | ends hends _ ih => exact .ends hends.behind ih
  | shifts hshifts => exact .shifts hshifts.behind
  | refuses hrefuses => exact .refuses hrefuses.behind
  | fails hfails => exact .fails hfails.behind

variable (a r)

/-- A look commutes with the preamble. -/
theorem look_behind (next : Look) :
    (r.behind a).look (next.relocate a.place) = (r.look next).behind a := by
  cases next with
  | token t => exact (r.looks t).behind.look_eq
  | finish =>
    have hready := ready_finish_behind a r
    have hended (condition : Expr) (body : List Stmt) :
        ((r.behind a).complete
            (.conditional (condition.relocate a.place)
              (body.map (Stmt.relocate a.place)) none)).ready
            .finish =
          ((r.complete (.conditional condition body none)).ready .finish).behind a := by
      rw [← ready_finish_behind, ← complete_behind, Stmt.relocate, Stmt.relocateAll_eq_map,
        Stmt.relocateOther]
    obtain ⟨items, frames, phase, log⟩ := r
    cases phase with
    | ready => exact hready
    | afterThen condition body => exact hended condition body
    | _ => rfl

end Reader

/-! ## Taking tokens -/

namespace Reader

/-- What a reader takes, it takes behind a preamble. -/
theorem Takes.behind {r r' : Reader} {ts : List Token} (a : Preamble) (htakes : r.Takes ts r') :
    (r.behind a).Takes (ts.map (Token.relocate a.place)) (r'.behind a) := by
  induction htakes with
  | nil => exact .nil
  | cons hlook _ ih =>
    refine .cons ?_ ih
    exact (look_behind a _ (.token _)).trans (congrArg (Step.behind a) hlook)

end Reader

end Analizador
