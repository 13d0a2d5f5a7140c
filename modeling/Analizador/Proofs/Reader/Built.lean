import Analizador.Proofs.Program
import Analizador.Proofs.Reader.Remainder

/-! # Programs are built from tokens

Every name and literal of a program that is read comes from a token of the text, every operation is
fresh and none is a logical one. This holds of what a reader has built at every moment, and each
step keeps it. -/

namespace Analizador

open Grammar

section Parts

variable (T : Token → Prop)

/-- A name from an identifier among the given tokens. -/
def Name.Built (n : Name) : Prop := ∃ t, T t ∧ t.kind = .identifier ∧ n = t.toName

/-- An expression of fresh operations over given tokens. -/
inductive Expr.Built : Expr → Prop where
  | leaf {t e} (ht : T t) (hkind : t.kind ∈ leaves) (he : t.toExpr = .ok e) : Built e
  | operation {op left right} (hop : op.family ≠ .logical) (hleft : Built left)
      (hright : Built right) :
      Built (.operation op left right)

/-- A count from an integer among the given tokens. -/
def Counted (count : Int) (spot : Spot) : Prop :=
  ∃ t, T t ∧ t.kind = .integer ∧ Numeral.readInteger t.text = .ok count ∧ spot = t.spot

/-- A statement over given tokens that has not been analysed. -/
inductive Stmt.Built : Stmt → Prop where
  | assign {target value} (htarget : target.Built T) (hvalue : value.Built T) :
      Built (.assign target value none)
  | conditional {condition body} (hcondition : condition.Built T) (hbody : ∀ s ∈ body, Built s) :
      Built (.conditional condition body none)
  | alternative {condition body other} (hcondition : condition.Built T)
      (hbody : ∀ s ∈ body, Built s)
      (hother : ∀ s ∈ other, Built s) : Built (.conditional condition body (some other))
  | whileLoop {condition body} (hcondition : condition.Built T) (hbody : ∀ s ∈ body, Built s) :
      Built (.whileLoop condition body)
  | repeatLoop {count spot body} (hcount : Counted T count spot) (hbody : ∀ s ∈ body, Built s) :
      Built (.repeatLoop count spot body)
  | print {value} (hvalue : value.Built T) : Built (.print value)
  | input {target} (htarget : target.Built T) : Built (.input target)
  | block {body} (hbody : ∀ s ∈ body, Built s) : Built (.block body)

/-- An item over given tokens that has not been analysed. -/
inductive Item.Built : Item → Prop where
  | declaration {ty names} (hty : ty ≠ .bool) (hne : names ≠ []) (hnames : ∀ n ∈ names, n.Built T) :
      Built (.declaration ty none names)
  | statement {s} (hs : s.Built T) : Built (.statement s)

/-! ## What a reader holds -/

/-- The left operand of an operation whose right one is to come. -/
def Pending (left : Option (Expr × Operator)) : Prop :=
  ∀ e op, left = some (e, op) → e.Built T ∧ op.family ≠ .logical

/-- What a level holds is built. -/
structure Level.Built (level : Level) : Prop where
  compared : Pending T level.compared
  operand : Pending T level.operand

/-- What a place holds is built. -/
def Place.Built : Place → Prop
  | .assign target => target.Built T
  | .si | .mientras | .sout => True

/-- What a role holds is built. -/
def Role.Built : Role → Prop
  | .bare => True
  | .thenPart condition | .whileBody condition => condition.Built T
  | .elsePart condition body => condition.Built T ∧ ∀ s ∈ body, s.Built T
  | .repeatBody count spot => Counted T count spot

/-- What an open block holds is built. -/
structure Frame.Built (f : Frame) : Prop where
  role : f.role.Built T
  stmts : ∀ s ∈ f.stmts, s.Built T

/-- An operand is built, or can be built from a token. -/
def Operand.Built : Operand → Prop
  | .loose t => T t ∧ t.kind ∈ leaves
  | .built e => e.Built T

/-- What a phase holds is built. -/
def Phase.Built : Phase → Prop
  | .ready | .keyword _ | .logical .. | .count | .inputName => True
  | .afterThen condition body => condition.Built T ∧ ∀ s ∈ body, s.Built T
  | .nextName ty names => ty ≠ .bool ∧ ∀ n ∈ names, n.Built T
  | .named ty names => ty ≠ .bool ∧ names ≠ [] ∧ ∀ n ∈ names, n.Built T
  | .target name | .inputNamed name => name.Built T
  | .wanting place level outer => place.Built T ∧ level.Built T ∧ ∀ l ∈ outer, l.Built T
  | .holding place level outer x => place.Built T ∧ level.Built T ∧
      (∀ l ∈ outer, l.Built T) ∧ x.Built T
  | .compared place outer e | .whole place outer e => place.Built T ∧
      (∀ l ∈ outer, l.Built T) ∧ e.Built T
  | .lone t => T t ∧ t.kind = .text
  | .counting t => T t ∧ t.kind = .integer
  | .counted n spot => Counted T n spot
  | .opening role => role.Built T
  | .ending s => s.Built T

/-- What a reader holds is built. -/
structure Reader.Built (r : Reader) : Prop where
  items : ∀ i ∈ r.items, i.Built T
  frames : ∀ f ∈ r.frames, f.Built T
  phase : r.phase.Built T

end Parts

namespace Reader

variable {T : Token → Prop} {r : Reader} {t : Token}

/-! ## Every step keeps it -/

theorem Built.inPhase (hr : r.Built T) {phase : Phase} (hphase : phase.Built T) :
    (r.inPhase phase).Built T :=
  ⟨hr.items, hr.frames, hphase⟩

theorem Built.openBlock (hr : r.Built T) {role : Role} (hrole : role.Built T) :
    (r.openBlock role).Built T :=
  ⟨hr.items, List.forall_mem_cons.mpr ⟨⟨hrole, by simp⟩, hr.frames⟩, trivial⟩

theorem forall_mem_append_singleton {α : Type} {P : α → Prop} {xs : List α} {x : α}
    (hxs : ∀ y ∈ xs, P y) (hx : P x) : ∀ y ∈ xs ++ [x], P y := by
  simpa [or_imp, forall_and] using And.intro hxs hx

theorem Built.complete (hr : r.Built T) {s : Stmt} (hs : s.Built T) : (r.complete s).Built T := by
  unfold Reader.complete
  split
  next => exact ⟨forall_mem_append_singleton hr.items (.statement hs), hr.frames, trivial⟩
  next f fs hframes =>
    have hall := hr.frames
    rw [hframes] at hall
    obtain ⟨hf, hfs⟩ := List.forall_mem_cons.mp hall
    refine ⟨hr.items, List.forall_mem_cons.mpr ⟨⟨hf.role, ?_⟩, hfs⟩, trivial⟩
    exact forall_mem_append_singleton hf.stmts hs

theorem Built.closeBlock (hr : r.Built T) {f : Frame} {fs : List Frame} (hf : f.Built T)
    (hfs : ∀ g ∈ fs, g.Built T) : (r.closeBlock f fs).Built T := by
  have hinner : ({ r with frames := fs } : Reader).Built T := ⟨hr.items, hfs, hr.phase⟩
  obtain ⟨role, stmts⟩ := f
  obtain ⟨hrole, hstmts⟩ := hf
  cases role with
  | bare => exact hinner.complete (.block hstmts)
  | thenPart condition => exact ⟨hr.items, hfs, hrole, hstmts⟩
  | elsePart condition body => exact hinner.complete (.alternative hrole.1 hrole.2 hstmts)
  | whileBody condition => exact hinner.complete (.whileLoop hrole hstmts)
  | repeatBody count spot => exact hinner.complete (.repeatLoop hrole hstmts)

theorem family_of_relational? {k : Kind} {op : Operator} (h : k.relational? = some op) :
    op.family ≠ .logical := by
  cases k <;> simp only [Kind.relational?, Option.some.injEq, reduceCtorEq]
    at h <;> subst h <;> decide

theorem family_of_arithmetic? {k : Kind} {op : Operator} (h : k.arithmetic? = some op) :
    op.family ≠ .logical := by
  cases k <;> simp only [Kind.arithmetic?, Option.some.injEq, reduceCtorEq]
    at h <;> subst h <;> decide

theorem pending_none : Pending T none := fun _ _ h => by cases h

theorem pending_some {e : Expr} {op : Operator} (he : e.Built T) (hop : op.family ≠ .logical) :
    Pending T (some (e, op)) := by
  rintro _ _ ⟨⟩
  exact ⟨he, hop⟩

theorem fresh_built : Level.fresh.Built T := ⟨pending_none, pending_none⟩

/-- Ending a phrase builds it from its parts. -/
theorem Ends.built {r' : Reader} {k : Kind} (h : r.Ends k r') (hr : r.Built T) : r'.Built T := by
  have hphase := hr.phase
  cases h with
  | conditional => exact hr.complete (.conditional hphase.1 hphase.2)
  | leaf hk he =>
    obtain ⟨hplace, hlevel, houter, ht, hkind⟩ := hphase
    exact hr.inPhase ⟨hplace, hlevel, houter, .leaf ht hkind he⟩
  | operation =>
    obtain ⟨hplace, hlevel, houter, he⟩ := hphase
    obtain ⟨hleft, hop⟩ := hlevel.operand _ _ rfl
    exact ⟨hr.items, hr.frames, hplace, ⟨hlevel.compared, pending_none⟩, houter,
      .operation hop hleft he⟩
  | plain =>
    obtain ⟨hplace, -, houter, he⟩ := hphase
    exact ⟨hr.items, hr.frames, hplace, houter, he⟩
  | comparison =>
    obtain ⟨hplace, hlevel, houter, he⟩ := hphase
    obtain ⟨hleft, hop⟩ := hlevel.compared _ _ rfl
    exact hr.inPhase ⟨hplace, houter, .operation hop hleft he⟩
  | whole => exact hr.inPhase hphase
  | lone =>
    have hleaf := hphase.2 ▸ (by decide : Kind.text ∈ leaves)
    exact hr.inPhase ⟨trivial, fresh_built, by simp, hphase.1, hleaf⟩
  | @count r t n hk hn => exact hr.inPhase ⟨t, hphase.1, hphase.2, hn, rfl⟩

/-- Taking a token keeps what the reader holds built. -/
theorem Shifts.built {r' : Reader} (h : r.Shifts t r') (hr : r.Built T) (ht : T t) :
    r'.Built T := by
  have hphase := hr.phase
  cases h with
  | target hkind | inputName hkind => exact hr.inPhase ⟨t, ht, hkind, rfl⟩
  | keyword => exact hr.inPhase trivial
  | bare => exact hr.openBlock trivial
  | @close r f fs hkind hframes =>
    have hall : ∀ g ∈ r.frames, g.Built T := hr.frames
    rw [hframes] at hall
    obtain ⟨hf, hfs⟩ := List.forall_mem_cons.mp hall
    exact hr.closeBlock hf hfs
  | type hty =>
    -- No token names the type of truth values.
    refine hr.inPhase ⟨?_, by simp⟩
    rintro rfl
    cases hkind : t.kind <;> simp [hkind, Kind.type?] at hty
  | name hkind =>
    refine hr.inPhase ⟨hphase.1, by simp, ?_⟩
    exact forall_mem_append_singleton hphase.2 ⟨t, ht, hkind, rfl⟩
  | comma => exact hr.inPhase ⟨hphase.1, hphase.2.2⟩
  | declaration =>
    have hitem := Item.Built.declaration hphase.1 hphase.2.1 hphase.2.2
    exact ⟨forall_mem_append_singleton hr.items hitem, hr.frames, trivial⟩
  | assign => exact hr.inPhase ⟨hphase, fresh_built, by simp⟩
  | @inside r k =>
    refine hr.inPhase ?_
    cases k <;> simp [Kind.inside, Phase.Built, Place.Built, fresh_built]
  | paren =>
    obtain ⟨hplace, hlevel, houter⟩ := hphase
    exact hr.inPhase ⟨hplace, fresh_built, List.forall_mem_cons.mpr ⟨hlevel, houter⟩⟩
  | lone hkind | count hkind => exact hr.inPhase ⟨ht, hkind⟩
  | operand hkind hparen =>
    have hleaf := (Kind.startsOperand_iff.mp hkind).resolve_left hparen
    exact hr.inPhase ⟨hphase.1, hphase.2.1, hphase.2.2, ht, hleaf⟩
  | arithmetic hop =>
    obtain ⟨hplace, hlevel, houter, he⟩ := hphase
    exact hr.inPhase
      ⟨hplace, ⟨hlevel.compared, pending_some he (family_of_arithmetic? hop)⟩, houter⟩
  | relational hop =>
    obtain ⟨hplace, -, houter, he⟩ := hphase
    exact hr.inPhase ⟨hplace, ⟨pending_some he (family_of_relational? hop), pending_none⟩, houter⟩
  | logical => exact hr.inPhase trivial
  | closeParen =>
    obtain ⟨hplace, houter, he⟩ := hphase
    obtain ⟨hlevel, houter⟩ := List.forall_mem_cons.mp houter
    exact hr.inPhase ⟨hplace, hlevel, houter, he⟩
  | assigned => exact hr.complete (.assign hphase.1 hphase.2.2)
  | si | mientras => exact hr.inPhase hphase.2.2
  | sout => exact hr.inPhase (.print hphase.2.2)
  | loneSout hkind he =>
    have hleaf := hphase.2 ▸ (by decide : Kind.text ∈ leaves)
    exact hr.inPhase (.print (.leaf hphase.1 hleaf he))
  | otherwise | counted => exact hr.inPhase hphase
  | input => exact hr.inPhase (.input hphase)
  | block => exact hr.openBlock hphase
  | statement => exact hr.complete hphase

theorem Built.takes {ts : List Token} (hr : r.Built T) (hts : ∀ t ∈ ts, T t) (h : r.Takes ts r') :
    r'.Built T := by
  induction h with
  | nil => exact hr
  | cons hlook _ ih =>
    obtain ⟨ht, hts⟩ := List.forall_mem_cons.mp hts
    exact ih (invariant_of_look (fun hends => hends.built)
      (fun hshifts hr => hshifts.built hr ht) hr hlook) hts

theorem Finishes.built {p : Program} {log : List String} (h : r.Finishes p log) (hr : r.Built T) :
    ∀ i ∈ p.items, i.Built T := by
  cases h with
  | ready => exact hr.items
  | conditional =>
    simpa [or_imp, forall_and] using ⟨hr.items, .statement (.conditional hr.phase.1 hr.phase.2)⟩

/-- A whole run builds a program from its tokens. -/
theorem Built.run {last : Spot} {stray : Option Stray} {ts : List Token} {p : Program}
    {log : List String} (hr : r.Built T) (hts : ∀ t ∈ ts, T t)
    (h : r.run last stray ts = .program p log) :
    ∀ i ∈ p.items, i.Built T := by
  obtain ⟨-, m, htakes, hfinish⟩ := takes_of_run h
  exact (finishes_of_look hfinish).built (hr.takes hts htakes)

end Reader

/-- A program that is read from a text is built from the tokens of the text. -/
theorem Reading.built_ofText {code : String} {p : Program} {log : List String}
    (h : ofText code = .program p log) :
    ∀ i ∈ p.items, i.Built (· ∈ (Scan.ofText code).tokens) := by
  have hstart : Reader.start.Built (· ∈ (Scan.ofText code).tokens) :=
    ⟨by simp [Reader.start], by simp [Reader.start], trivial⟩
  exact hstart.run (fun _ ht => ht) h

/-! ## The expressions of what is built -/

/-- A token becomes a number, a text or the use of a name. -/
theorem Token.toExpr_cases {t : Token} {e : Expr} (h : t.toExpr = .ok e) :
    (∃ n, Numeral.readInteger t.text = .ok n ∧ e = .number (.whole n) t.spot) ∨
      (∃ d, e = .number (.real d) t.spot) ∨ (∃ s, e = .text s t.spot) ∨ e = .use t.toName := by
  unfold toExpr at h
  split at h
  next =>
    cases hread : Numeral.readInteger t.text with
    | error f => simp [hread, bind, Except.bind] at h
    | ok n =>
      rw [hread] at h
      exact .inl ⟨n, rfl, (Except.ok.inj h).symm⟩
  next =>
    cases hread : Numeral.readDecimal t.text with
    | error f => simp [hread, bind, Except.bind] at h
    | ok d =>
      rw [hread] at h
      exact .inr (.inl ⟨d, (Except.ok.inj h).symm⟩)
  next => exact .inr (.inr (.inl ⟨_, (Except.ok.inj h).symm⟩))
  next => exact .inr (.inr (.inr (Except.ok.inj h).symm))

theorem Counted.built {T : Token → Prop} {count : Int} {spot : Spot} (h : Counted T count spot) :
    (Expr.number (.whole count) spot).Built T := by
  obtain ⟨t, ht, hkind, hread, rfl⟩ := h
  refine .leaf ht (by simp [hkind, leaves]) ?_
  unfold Token.toExpr
  rw [hkind]
  simp only [hread]
  rfl

theorem Stmt.Built.every {T : Token → Prop} {s : Stmt} (h : s.Built T) :
    s.Every (Expr.Built T) := by
  induction h with
  | assign _ hvalue => exact hvalue
  | conditional hcondition _ ih => exact ⟨hcondition, everyAll_iff.mpr ih, trivial⟩
  | alternative hcondition _ _ ih ihother =>
    exact ⟨hcondition, everyAll_iff.mpr ih, everyAll_iff.mpr ihother⟩
  | whileLoop hcondition _ ih => exact ⟨hcondition, everyAll_iff.mpr ih⟩
  | repeatLoop hcount _ ih => exact ⟨hcount.built, everyAll_iff.mpr ih⟩
  | print hvalue => exact hvalue
  | input => trivial
  | block _ ih => exact everyAll_iff.mpr ih

theorem Item.Built.every {T : Token → Prop} {i : Item} (h : i.Built T) :
    i.Every (Expr.Built T) := by
  cases h with
  | declaration => trivial
  | statement hs => exact hs.every

end Analizador
