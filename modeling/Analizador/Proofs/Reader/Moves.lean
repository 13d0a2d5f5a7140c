import Analizador.Program.Reader

/-! # Moves of a reader

What a reader does on a token is made of small moves. Phrases that could end before the token are
ended one after the other; then the token is taken, or it is refused, or a phrase cannot be built.
There is a relation for each sort of move, and every look at a token is a row of moves. What is to
be said of all looks is proved move by move. -/

namespace Analizador

/-- The kind that ends the expression of a statement. -/
def Place.closing : Place → Kind
  | .assign _ => .semicolon
  | .si | .mientras | .sout => .rightParen

/-- The kind that a phase goes on with, where there is only one. -/
def Phase.wants? : Phase → Option Kind
  | .nextName .. | .inputName => some .identifier
  | .target _ => some .assign
  | .keyword _ => some .leftParen
  | .whole _ (_ :: _) _ | .counted .. | .inputNamed _ => some .rightParen
  | .whole place [] _ => some place.closing
  | .ending _ => some .semicolon
  | .count => some .integer
  | .opening _ => some .leftBrace
  | _ => none

namespace Kind

/-- The keywords that statements start with. -/
def opensStatement : Kind → Bool
  | si | mientras | repetir | sout | scan => true
  | _ => false

theorem arithmetic?_of_followsComparison {k : Kind} (h : k.followsComparison = true) :
    k.arithmetic? = none := by
  cases k <;> first | rfl | cases h

theorem relational?_of_followsComparison {k : Kind} (h : k.followsComparison = true) :
    k.relational? = none := by
  cases k <;> first | rfl | cases h

/-- The phase inside the parentheses after a keyword. -/
def inside : Kind → Phase
  | si => .wanting .si .fresh []
  | mientras => .wanting .mientras .fresh []
  | repetir => .count
  | sout => .wanting .sout .fresh []
  | _ => .inputName

end Kind

namespace Reader

/-- The reader in another phase. -/
def inPhase (r : Reader) (phase : Phase) : Reader := { r with phase }

/-- The reader in a new block. -/
def openBlock (r : Reader) (role : Role) : Reader :=
  { r with frames := ⟨role, []⟩ :: r.frames, phase := .ready }

/-! ## Sorts of moves -/

/-- A phrase ends before a token of the given kind. -/
inductive Ends (k : Kind) : Reader → Reader → Prop where
  | conditional {r condition body} (hk : k.followsStatement = true) :
      Ends k (inPhase r (.afterThen condition body)) (r.complete (.conditional condition body none))
  | leaf {r place level outer t e} (hk : k.followsOperand = true) (he : t.toExpr = .ok e) :
      Ends k (inPhase r (.holding place level outer (.loose t)))
        (r.inPhase (.holding place level outer (.built e)))
  | operation {r place compared left op outer e} (hk : k.followsOperand = true)
      (hop : k.arithmetic? = none) :
      Ends k (inPhase r (.holding place ⟨compared, some (left, op)⟩ outer (.built e)))
        ((r.note (operationLine op left e)).inPhase
          (.holding place ⟨compared, none⟩ outer (.built (.operation op left e))))
  | plain {r place outer e} (hk : k.followsComparison = true) :
      Ends k (inPhase r (.holding place .fresh outer (.built e)))
        ((r.note (plainLine e)).inPhase (.compared place outer e))
  | comparison {r place left op outer e} (hk : k.followsOperand = true)
      (hop : k.arithmetic? = none) :
      Ends k (inPhase r (.holding place ⟨some (left, op), none⟩ outer (.built e)))
        (r.inPhase (.compared place outer (.operation op left e)))
  | whole {r place outer e} (hk : k.isClosing = true) :
      Ends k (inPhase r (.compared place outer e)) (r.inPhase (.whole place outer e))
  | lone {r t} (hk : k.followsOperand = true) (hparen : k ≠ .rightParen) (hmark : k ≠ .semicolon) :
      Ends k (inPhase r (.lone t)) (r.inPhase (.holding .sout .fresh [] (.loose t)))
  | count {r t n} (hk : k.followsOperand = true) (hn : Numeral.readInteger t.text = .ok n) :
      Ends k (inPhase r (.counting t)) (r.inPhase (.counted n t.spot))

/-- A token is taken. -/
inductive Shifts (t : Token) : Reader → Reader → Prop where
  | target {r} (hkind : t.kind = .identifier) :
      Shifts t (inPhase r .ready) (r.inPhase (.target t.toName))
  | keyword {r} (hkind : t.kind.opensStatement = true) :
      Shifts t (inPhase r .ready) (r.inPhase (.keyword t.kind))
  | bare {r} (hkind : t.kind = .leftBrace) : Shifts t (inPhase r .ready) (r.openBlock .bare)
  | close {r f fs} (hkind : t.kind = .rightBrace) (hframes : r.frames = f :: fs) :
      Shifts t (inPhase r .ready) (r.closeBlock f fs)
  | type {r ty} (hty : t.kind.type? = some ty) (hframes : r.frames = []) :
      Shifts t (inPhase r .ready) (r.inPhase (.nextName ty []))
  | otherwise {r condition body} (hkind : t.kind = .oNo) :
      Shifts t (inPhase r (.afterThen condition body))
        (r.inPhase (.opening (.elsePart condition body)))
  | name {r ty names} (hkind : t.kind = .identifier) :
      Shifts t (inPhase r (.nextName ty names)) (r.inPhase (.named ty (names ++ [t.toName])))
  | comma {r ty names} (hkind : t.kind = .comma) :
      Shifts t (inPhase r (.named ty names)) (r.inPhase (.nextName ty names))
  | declaration {r ty names} (hkind : t.kind = .semicolon) :
      Shifts t (inPhase r (.named ty names))
        { r with items := r.items ++ [.declaration ty none names], phase := .ready }
  | assign {r name} (hkind : t.kind = .assign) :
      Shifts t (inPhase r (.target name)) (r.inPhase (.wanting (.assign name) .fresh []))
  | inside {r k} (hkind : t.kind = .leftParen) :
      Shifts t (inPhase r (.keyword k)) (r.inPhase k.inside)
  | paren {r place level outer} (hkind : t.kind = .leftParen) :
      Shifts t (inPhase r (.wanting place level outer))
        (r.inPhase (.wanting place .fresh (level :: outer)))
  | lone {r} (hkind : t.kind = .text) :
      Shifts t (inPhase r (.wanting .sout .fresh [])) (r.inPhase (.lone t))
  | operand {r place level outer} (hkind : t.kind.startsOperand = true)
      (hparen : t.kind ≠ .leftParen)
      (hlone : ¬ (t.kind = .text ∧ place = .sout ∧ level = .fresh ∧ outer = [])) :
      Shifts t (inPhase r (.wanting place level outer))
        (r.inPhase (.holding place level outer (.loose t)))
  | arithmetic {r place compared outer e op} (hop : t.kind.arithmetic? = some op) :
      Shifts t (inPhase r (.holding place ⟨compared, none⟩ outer (.built e)))
        (r.inPhase (.wanting place ⟨compared, some (e, op)⟩ outer))
  | relational {r place outer e op} (hop : t.kind.relational? = some op) :
      Shifts t (inPhase r (.holding place .fresh outer (.built e)))
        (r.inPhase (.wanting place ⟨some (e, op), none⟩ outer))
  | logical {r place outer e} (hkind : t.kind.isLogical = true) :
      Shifts t (inPhase r (.compared place outer e)) (r.inPhase (.logical place outer))
  | closeParen {r place level outer e} (hkind : t.kind = .rightParen) :
      Shifts t (inPhase r (.whole place (level :: outer) e))
        (r.inPhase (.holding place level outer (.built e)))
  | assigned {r target e} (hkind : t.kind = .semicolon) :
      Shifts t (inPhase r (.whole (.assign target) [] e)) (r.complete (.assign target e none))
  | si {r e} (hkind : t.kind = .rightParen) :
      Shifts t (inPhase r (.whole .si [] e)) (r.inPhase (.opening (.thenPart e)))
  | mientras {r e} (hkind : t.kind = .rightParen) :
      Shifts t (inPhase r (.whole .mientras [] e)) (r.inPhase (.opening (.whileBody e)))
  | sout {r e} (hkind : t.kind = .rightParen) :
      Shifts t (inPhase r (.whole .sout [] e)) (r.inPhase (.ending (.print e)))
  | loneSout {r s e} (hkind : t.kind = .rightParen) (he : s.toExpr = .ok e) :
      Shifts t (inPhase r (.lone s)) (r.inPhase (.ending (.print e)))
  | count {r} (hkind : t.kind = .integer) : Shifts t (inPhase r .count) (r.inPhase (.counting t))
  | counted {r n spot} (hkind : t.kind = .rightParen) :
      Shifts t (inPhase r (.counted n spot)) (r.inPhase (.opening (.repeatBody n spot)))
  | inputName {r} (hkind : t.kind = .identifier) :
      Shifts t (inPhase r .inputName) (r.inPhase (.inputNamed t.toName))
  | input {r name} (hkind : t.kind = .rightParen) :
      Shifts t (inPhase r (.inputNamed name)) (r.inPhase (.ending (.input name)))
  | block {r role} (hkind : t.kind = .leftBrace) :
      Shifts t (inPhase r (.opening role)) (r.openBlock role)
  | statement {r s} (hkind : t.kind = .semicolon) :
      Shifts t (inPhase r (.ending s)) (r.complete s)

/-- A token of the given kind cannot come. -/
inductive Refuses (k : Kind) : Reader → Prop where
  | single {r l} (hwants : r.phase.wants? = some l) (hk : k ≠ l) : Refuses k r
  | ready {r} (hname : k ≠ .identifier) (hkeyword : k.opensStatement = false)
      (hopen : k ≠ .leftBrace)
      (hclose : k = .rightBrace → r.frames = []) (htype : k.type? ≠ none → r.frames ≠ []) :
      Refuses k (inPhase r .ready)
  | conditional {r condition body} (helse : k ≠ .oNo) (hk : k.followsStatement = false) :
      Refuses k (inPhase r (.afterThen condition body))
  | named {r ty names} (hcomma : k ≠ .comma) (hmark : k ≠ .semicolon) :
      Refuses k (inPhase r (.named ty names))
  | wanting {r place level outer} (hk : k.startsOperand = false) :
      Refuses k (inPhase r (.wanting place level outer))
  | holding {r place level outer x} (hk : k.followsOperand = false) :
      Refuses k (inPhase r (.holding place level outer x))
  | operation {r place compared left outer e} (hop : k.arithmetic? ≠ none) :
      Refuses k (inPhase r (.holding place ⟨compared, some left⟩ outer (.built e)))
  | compared {r place outer e} (hk : k.followsComparison = false) :
      Refuses k (inPhase r (.compared place outer e))
  | logical {r place outer} (hk : k.startsOperand = false) :
      Refuses k (inPhase r (.logical place outer))
  | lone {r t} (hk : k = .semicolon ∨ k.followsOperand = false) : Refuses k (inPhase r (.lone t))
  | counting {r t} (hk : k.followsOperand = false) : Refuses k (inPhase r (.counting t))

/-- A phrase that ends before a token of the given kind cannot be built. -/
inductive Fails (k : Kind) : Reader → Failure → Prop where
  | leaf {r place level outer t f} (hk : k.followsOperand = true) (hf : t.toExpr = .error f) :
      Fails k (inPhase r (.holding place level outer (.loose t))) f
  | lone {r t f} (hk : k = .rightParen) (hf : t.toExpr = .error f) : Fails k (inPhase r (.lone t)) f
  | count {r t f} (hk : k.followsOperand = true) (hf : Numeral.readInteger t.text = .error f) :
      Fails k (inPhase r (.counting t)) f
  | logical {r place outer} (hk : k.startsOperand = true) :
      Fails k (inPhase r (.logical place outer)) (.missingArguments "operador_logico" ["op"])

/-- The moves of a reader on a token, and what comes of them. -/
inductive Looks (t : Token) : Reader → Step → Prop where
  | ends {r r' step} (hends : r.Ends t.kind r') (hlooks : Looks t r' step) : Looks t r step
  | shifts {r r'} (hshifts : r.Shifts t r') : Looks t r (.moved r')
  | refuses {r} (hrefuses : r.Refuses t.kind) : Looks t r (.stuck r)
  | fails {r f} (hfails : r.Fails t.kind f) : Looks t r (.failed f)

/-! ## Every look is a row of moves -/

section Looks

variable {r : Reader} {t : Token} {place : Place} {level : Level} {outer : List Level} {e : Expr}

/-- A reader that has completed a statement is ready. -/
theorem inPhase_complete (r : Reader) (s : Stmt) :
    (r.complete s).inPhase .ready = r.complete s := by
  unfold complete
  split <;> rfl

/-- A whole expression is followed by a closing mark. -/
theorem wants?_whole (place : Place) (outer : List Level) (e : Expr) :
    ∃ k, (Phase.whole place outer e).wants? = some k ∧ k.isClosing = true := by
  cases outer with
  | cons level outer => exact ⟨_, rfl, rfl⟩
  | nil => cases place <;> exact ⟨_, rfl, rfl⟩

theorem looks_ready (r : Reader) (t : Token) : (r.inPhase .ready).Looks t (r.ready (.token t)) := by
  have hkeyword {k : Kind} (hkind : t.kind = k) (hk : k.opensStatement = true) :
      (r.inPhase .ready).Looks t (r.enter (.keyword t.kind)) :=
    .shifts (.keyword (hkind ▸ hk))
  simp only [ready]
  split
  next hkind => exact .shifts (.target hkind)
  next hkind => exact hkeyword hkind rfl
  next hkind => exact hkeyword hkind rfl
  next hkind => exact hkeyword hkind rfl
  next hkind => exact hkeyword hkind rfl
  next hkind => exact hkeyword hkind rfl
  next hkind => exact .shifts (.bare hkind)
  next hkind =>
    split
    next hframes =>
      exact .refuses (.ready (by simp [hkind]) (by simp [hkind, Kind.opensStatement])
        (by simp [hkind]) (fun _ => hframes) (by simp [hkind, Kind.type?]))
    next f fs hframes => exact .shifts (.close hkind hframes)
  next hname hsi hmientras hrepetir hsout hscan hopen hclose =>
    split
    next ty hframes hty => exact .shifts (.type hty hframes)
    next hnot =>
      have hkeywords : t.kind.opensStatement = false := by
        cases hkind : t.kind <;> first | rfl | simp_all
      refine .refuses (.ready hname hkeywords hopen (fun hkind => absurd hkind hclose) ?_)
      intro htype hframes
      obtain ⟨ty, hty⟩ := Option.ne_none_iff_exists'.mp htype
      exact hnot ty hframes hty

theorem looks_whole (r : Reader) (place : Place) (outer : List Level) (e : Expr) (t : Token) :
    (r.inPhase (.whole place outer e)).Looks t (r.closeWhole place outer e t.kind) := by
  unfold closeWhole
  split
  next hkind => exact .shifts (.closeParen hkind)
  next hkind => exact .refuses (.single rfl hkind)
  next =>
    split
    next hkind => exact .shifts (.assigned hkind)
    next hkind => exact .shifts (.si hkind)
    next hkind => exact .shifts (.mientras hkind)
    next hkind => exact .shifts (.sout hkind)
    next place _ hassign hsi hmientras hsout =>
      refine .refuses (.single (l := Place.closing _) rfl fun hkind => ?_)
      unfold Place.closing at hkind
      split at hkind
      next target => exact hassign target rfl hkind
      next => exact hsi rfl hkind
      next => exact hmientras rfl hkind
      next => exact hsout rfl hkind

theorem looks_compared (hk : t.kind.followsComparison = true) :
    (r.inPhase (.compared place outer e)).Looks t (r.closeComparison place outer e t.kind) := by
  unfold closeComparison
  split
  next hlogical => exact .shifts (.logical hlogical)
  next hlogical =>
    have hclosing : t.kind.isClosing = true := by simpa [Kind.followsComparison, hlogical] using hk
    exact .ends (.whole hclosing) (looks_whole r place outer e t)

theorem looks_sum (compared : Option (Expr × Operator)) (hk : t.kind.followsOperand = true)
    (hop : t.kind.arithmetic? = none) :
    (r.inPhase (.holding place ⟨compared, none⟩ outer (.built e))).Looks t
      (r.closeSum place compared outer e t.kind) := by
  have hcomparison (hrelational : t.kind.relational? = none) : t.kind.followsComparison = true := by
    simpa [Kind.followsOperand, Kind.followsComparison, hop, hrelational] using hk
  unfold closeSum
  split
  next op hrelational => exact .shifts (.relational hrelational)
  next hrelational =>
    refine .ends (.comparison hk hop) (.refuses (.compared ?_))
    cases hkind : t.kind <;> first | rfl | simp_all [Kind.relational?]
  next hrelational =>
    exact .ends (.plain (hcomparison hrelational)) (looks_compared (hcomparison hrelational))
  next hrelational =>
    exact .ends (.comparison hk hop) (looks_compared (hcomparison hrelational))

theorem looks_operand (level : Level) (hk : t.kind.followsOperand = true) :
    (r.inPhase (.holding place level outer (.built e))).Looks t
      (r.closeOperand place level outer e t.kind) := by
  obtain ⟨compared, operand⟩ := level
  unfold closeOperand
  split
  next op hop hoperand =>
    obtain rfl : operand = none := hoperand
    exact .shifts (.arithmetic hop)
  next op left hop hoperand =>
    obtain rfl : operand = some left := hoperand
    exact .refuses (.operation (by simp [hop]))
  next hop hoperand =>
    obtain rfl : operand = none := hoperand
    exact looks_sum compared hk hop
  next left op hop hoperand =>
    obtain rfl : operand = some (left, op) := hoperand
    exact .ends (.operation hk hop) (looks_sum compared hk hop)

theorem looks_build (level : Level) (x : Operand) (hk : t.kind.followsOperand = true) :
    (r.inPhase (.holding place level outer x)).Looks t
      (match x.build with
        | .ok e => r.closeOperand place level outer e t.kind
        | .error f => .failed f) := by
  cases x with
  | loose s =>
    cases he : s.toExpr with
    | ok e =>
      simp only [Operand.build, he]
      exact .ends (.leaf hk he) (looks_operand level hk)
    | error f =>
      simp only [Operand.build, he]
      exact .fails (.leaf hk he)
  | built e => exact looks_operand level hk

/-- A phase that goes on with one kind only takes it or refuses. -/
theorem looks_single {r' : Reader} {k : Kind} (hwants : r.phase.wants? = some k)
    (hshifts : t.kind = k → r.Shifts t r') :
    r.Looks t (if t.kind = k then .moved r' else .stuck r) := by
  split
  next hkind => exact .shifts (hshifts hkind)
  next hkind => exact .refuses (.single hwants hkind)

/-- Every look at a token is a row of moves. -/
theorem looks (r : Reader) (t : Token) : r.Looks t (r.look (.token t)) := by
  obtain ⟨items, frames, phase, log⟩ := r
  let r : Reader := ⟨items, frames, .ready, log⟩
  change (r.inPhase phase).Looks t _
  cases phase with
  | ready => exact looks_ready r t
  | afterThen condition body =>
    simp only [look]
    split
    next hkind => exact .shifts (.otherwise hkind)
    next helse =>
      split
      next hk =>
        refine .ends (.conditional hk) ?_
        have hready := looks_ready (r.complete (.conditional condition body none)) t
        rwa [inPhase_complete] at hready
      next hk => exact .refuses (.conditional helse (by simpa using hk))
  | nextName ty names => exact looks_single rfl .name
  | named ty names =>
    simp only [look]
    split
    next hkind => exact .shifts (.comma hkind)
    next hcomma =>
      split
      next hkind => exact .shifts (.declaration hkind)
      next hmark => exact .refuses (.named hcomma hmark)
  | target name => exact looks_single rfl .assign
  | keyword k =>
    have hinside := looks_single (r := r.inPhase (.keyword k)) (t := t) rfl .inside
    simp only [look]
    cases k <;> exact hinside
  | wanting place level outer =>
    simp only [look]
    split
    next hkind => exact .shifts (.paren hkind)
    next hparen =>
      split
      next hlone =>
        obtain ⟨hkind, rfl, rfl, rfl⟩ := hlone
        exact .shifts (.lone hkind)
      next hlone =>
        split
        next hkind => exact .shifts (.operand hkind hparen hlone)
        next hkind => exact .refuses (.wanting (by simpa using hkind))
  | holding place level outer x =>
    simp only [look, afterOperand]
    split
    next hk => exact looks_build level x hk
    next hk => exact .refuses (.holding (by simpa using hk))
  | compared place outer e =>
    simp only [look]
    split
    next hk => exact looks_compared hk
    next hk => exact .refuses (.compared (by simpa using hk))
  | whole place outer e =>
    simp only [look]
    split
    next hk => exact looks_whole r place outer e t
    next hk =>
      obtain ⟨l, hwants, hl⟩ := wants?_whole place outer e
      refine .refuses (.single hwants fun hkind => hk ?_)
      rwa [hkind]
  | logical place outer =>
    simp only [look]
    split
    next hk => exact .fails (.logical hk)
    next hk => exact .refuses (.logical (by simpa using hk))
  | lone s =>
    simp only [look]
    split
    next hkind =>
      cases he : s.toExpr with
      | ok e => exact .shifts (.loneSout hkind he)
      | error f => exact .fails (.lone hkind he)
    next hparen =>
      split
      next hkind => exact .refuses (.lone (.inl hkind))
      next hmark =>
        unfold afterOperand
        split
        next hk => exact .ends (.lone hk hparen hmark) (looks_build .fresh (.loose s) hk)
        next hk => exact .refuses (.lone (.inr (by simpa using hk)))
  | count => exact looks_single rfl .count
  | counting s =>
    simp only [look]
    split
    next hk =>
      cases hn : Numeral.readInteger s.text with
      | ok n =>
        exact .ends (.count hk hn) (looks_single rfl .counted)
      | error f => exact .fails (.count hk hn)
    next hk => exact .refuses (.counting (by simpa using hk))
  | counted n spot => exact looks_single rfl .counted
  | inputName => exact looks_single rfl .inputName
  | inputNamed name => exact looks_single rfl .input
  | opening role => exact looks_single rfl .block
  | ending s => exact looks_single rfl .statement

end Looks

/-! ## A row of moves is what a reader does -/

section Back

variable {r r' : Reader} {t : Token} {f : Failure}

/-- A reader that has completed a statement looks on as a ready one does. -/
theorem look_complete (r : Reader) (s : Stmt) (next : Look) :
    (r.complete s).look next = (r.complete s).ready next := by
  unfold complete
  split <;> rfl

/-- A token that is taken moves the reader. -/
theorem Shifts.look_eq (h : r.Shifts t r') : r.look (.token t) = .moved r' := by
  cases h with
  | target hkind => simp only [look, inPhase, ready, hkind, enter]
  | keyword hkind =>
    cases hk : t.kind <;> simp_all [look, inPhase, ready, enter, Kind.opensStatement]
  | bare hkind => simp only [look, inPhase, ready, hkind, openBlock]
  | close hkind hframes =>
    simp only [look, inPhase, ready, hkind, hframes]
    rfl
  | type hty hframes =>
    cases hk : t.kind <;> simp_all [look, inPhase, ready, enter, Kind.type?]
  | inside hkind =>
    rename_i k
    cases k <;> simp [look, inPhase, hkind, Kind.inside, enter]
  | operand hkind hparen hlone => simp [look, inPhase, hkind, hparen, hlone, enter]
  | arithmetic hop =>
    simp [look, inPhase, afterOperand, Kind.followsOperand, Operand.build, closeOperand, hop, enter]
  | relational hop =>
    have harith : t.kind.arithmetic? = none := by
      cases hk : t.kind <;> simp_all [Kind.relational?, Kind.arithmetic?]
    simp [look, inPhase, afterOperand, Kind.followsOperand, Operand.build, closeOperand, closeSum,
      Level.fresh, hop, harith, enter]
  | logical hkind => simp [look, inPhase, Kind.followsComparison, closeComparison, hkind, enter]
  | loneSout hkind he => simp [look, inPhase, hkind, he, enter]
  | closeParen hkind | assigned hkind | si hkind | mientras hkind | sout hkind =>
    simp [look, inPhase, hkind, Kind.isClosing, closeWhole, enter]
    try rfl
  | statement hkind | declaration hkind | comma hkind | otherwise hkind | name hkind | assign hkind
  | paren hkind | lone hkind | count hkind | counted hkind | inputName hkind | input hkind
  | block hkind => simp [look, inPhase, hkind, enter, openBlock]; try rfl

/-- A phrase that ends is closed before the token is looked at. -/
theorem Ends.look_eq (h : r.Ends t.kind r') : r.look (.token t) = r'.look (.token t) := by
  cases h with
  | conditional hk =>
    have helse : t.kind ≠ .oNo := by
      intro hkind
      simp [hkind, Kind.followsStatement] at hk
    rw [look_complete]
    simp only [look, inPhase, helse, hk, if_true, if_false]
    rfl
  | leaf hk he =>
    simp only [look, inPhase, afterOperand, hk, if_true, Operand.build, he]
    rfl
  | operation hk hop =>
    simp only [look, inPhase, afterOperand, hk, if_true, Operand.build, closeOperand, hop]
    rfl
  | plain hk =>
    have hk' : t.kind.followsOperand = true := by
      cases hkind : t.kind <;> simp_all [Kind.followsComparison, Kind.isLogical, Kind.isClosing,
        Kind.followsOperand]
    have hop : t.kind.arithmetic? = none := Kind.arithmetic?_of_followsComparison hk
    have hrelational : t.kind.relational? = none := Kind.relational?_of_followsComparison hk
    simp only [look, inPhase, afterOperand, hk', if_true, Operand.build, closeOperand, Level.fresh,
      hop, closeSum, hrelational, note, hk]
    rfl
  | comparison hk hop =>
    simp only [look, inPhase, afterOperand, hk, if_true, Operand.build, closeOperand, hop, closeSum]
    cases hrelational : t.kind.relational? with
    | some op =>
      have hnot : ¬ t.kind.followsComparison = true := by
        intro hfollows
        simp [Kind.relational?_of_followsComparison hfollows] at hrelational
      simp [hnot, halt]
    | none =>
      have hfollows : t.kind.followsComparison = true := by
        simpa [Kind.followsOperand, Kind.followsComparison, hop, hrelational] using hk
      simp only [hfollows, if_true]
      rfl
  | whole hk =>
    have hlogical : t.kind.isLogical = false := by
      cases hkind : t.kind <;> simp_all [Kind.isClosing, Kind.isLogical]
    simp only [look, inPhase, Kind.followsComparison, hk, hlogical, Bool.or_true, if_true,
      closeComparison, Bool.false_eq_true, if_false]
    rfl
  | lone hk hparen hmark => 
    simp only [look, inPhase, hparen, hmark, if_false, afterOperand, hk, if_true]
    rfl
  | count hk hn =>
    simp only [look, inPhase, hk, if_true, hn]
    rfl

theorem look_whole {items : List Item} {frames : List Frame} {log : List String} {place : Place}
    {outer : List Level} {e : Expr} {k : Kind}
    (hwants : (Phase.whole place outer e).wants? = some k) (hk : t.kind ≠ k) :
    look ⟨items, frames, .whole place outer e, log⟩ (.token t) =
      .stuck ⟨items, frames, .whole place outer e, log⟩ := by
  have hclose : closeWhole ⟨items, frames, .whole place outer e, log⟩ place outer e t.kind =
      .stuck ⟨items, frames, .whole place outer e, log⟩ := by
    cases outer with
    | cons level outer =>
      obtain rfl := Option.some.inj hwants
      simp [closeWhole, halt]
    | nil =>
      obtain rfl := Option.some.inj hwants
      cases place <;> simp_all [closeWhole, halt, Place.closing]
  simp only [look, hclose, ite_self]

/-- At a token that cannot come the reader is stuck. -/
theorem Refuses.look_eq (h : r.Refuses t.kind) : r.look (.token t) = .stuck r := by
  cases h with
  | single hwants hk =>
    obtain ⟨items, frames, phase, log⟩ := r
    cases phase with
    | whole place outer e => exact look_whole hwants hk
    | nextName | target | keyword | count | counted | inputName | inputNamed | opening | ending =>
      obtain rfl := Option.some.inj hwants
      exact if_neg hk
    | ready | afterThen | named | wanting | holding | compared | logical | lone | counting =>
      cases hwants
  | ready hname hkeyword hopen hclose htype =>
    cases hkind : t.kind <;>
      simp_all [look, inPhase, Reader.ready, halt, Kind.opensStatement, Kind.type?]
  | conditional helse hk => simp [look, inPhase, helse, hk]
  | named hcomma hmark => simp [look, inPhase, hcomma, hmark]
  | wanting hk =>
    have hparen : t.kind ≠ .leftParen := by
      rintro hkind
      simp [hkind, Kind.startsOperand] at hk
    have htext : t.kind ≠ .text := by
      rintro hkind
      simp [hkind, Kind.startsOperand] at hk
    simp [look, inPhase, hparen, htext, hk]
  | holding hk => simp [look, inPhase, afterOperand, hk]
  | operation hop =>
    obtain ⟨op, hop⟩ := Option.ne_none_iff_exists'.mp hop
    simp [look, inPhase, afterOperand, Kind.followsOperand, Operand.build, closeOperand, hop, halt]
  | compared hk => simp [look, inPhase, hk]
  | logical hk => simp [look, inPhase, hk]
  | lone hk =>
    have hparen : t.kind ≠ .rightParen := by
      intro hkind
      simp [hkind, Kind.followsOperand, Kind.isClosing] at hk
    rcases hk with hk | hk
    · simp [look, inPhase, hk]
    · simp [look, inPhase, hparen, afterOperand, hk]
  | counting hk => simp [look, inPhase, hk]

/-- Where the phrase that ends cannot be built, the look fails. -/
theorem Fails.look_eq (h : r.Fails t.kind f) : r.look (.token t) = .failed f := by
  cases h with
  | leaf hk hf => simp [look, inPhase, afterOperand, hk, Operand.build, hf]
  | lone hk hf => simp [look, inPhase, hk, hf]
  | count hk hf => simp [look, inPhase, hk, hf]
  | logical hk => simp [look, inPhase, hk]

/-- What a row of moves comes to is what the reader does. -/
theorem Looks.look_eq {step : Step} (h : r.Looks t step) : r.look (.token t) = step := by
  induction h with
  | ends hends _ ih => exact hends.look_eq.trans ih
  | shifts hshifts => exact hshifts.look_eq
  | refuses hrefuses => exact hrefuses.look_eq
  | fails hfails => exact hfails.look_eq

end Back

/-! ## Whole texts -/

/-- A reader may stop, and what it has read is a program. A conditional may end with its first
block. -/
inductive Finishes : Reader → Program → List String → Prop where
  | ready {r : Reader} (hframes : r.frames = []) : Finishes (inPhase r .ready) ⟨r.items⟩ r.log
  | conditional {r : Reader} {condition body} (hframes : r.frames = []) :
      Finishes (inPhase r (.afterThen condition body))
        ⟨r.items ++ [.statement (.conditional condition body none)]⟩ r.log

/-- The reader takes tokens one after the other and comes to another state. -/
inductive Takes : Reader → List Token → Reader → Prop where
  | nil {r} : Takes r [] r
  | cons {r m r' t ts} (hlook : r.look (.token t) = .moved m) (htail : Takes m ts r') :
      Takes r (t :: ts) r'

section Texts

variable {r m r' : Reader} {t : Token} {ts us : List Token} {p : Program} {log : List String}

/-- What ending a phrase keeps, and taking the token turns into something else, is so turned by a
look at the token. -/
theorem invariant_of_look {I J : Reader → Prop} (hends : ∀ {r r'}, Ends t.kind r r' → I r → I r')
    (hshifts : ∀ {r r'}, Shifts t r r' → I r → J r') (h : I r)
    (hlook : r.look (.token t) = .moved r') : J r' := by
  have hlooks : r.Looks t (.moved r') := hlook ▸ r.looks t
  clear hlook
  generalize hstep : Step.moved r' = step at hlooks
  induction hlooks with
  | ends hmove _ ih => exact ih (hends hmove h) hstep
  | shifts hmove =>
    cases hstep
    exact hshifts hmove h
  | refuses | fails => cases hstep

/-- A reader that accepts the end may stop there. -/
theorem finishes_of_look (h : r.look .finish = .accepted p log) : r.Finishes p log := by
  obtain ⟨items, frames, phase, log'⟩ := r
  cases phase with
  | ready =>
    cases frames with
    | nil =>
      cases h
      exact .ready (r := ⟨items, [], .ready, log'⟩) rfl
    | cons f fs => cases h
  | afterThen condition body =>
    cases frames with
    | nil =>
      cases h
      exact .conditional (r := ⟨items, [], .ready, log'⟩) rfl
    | cons f fs => cases h
  | _ => cases h

/-- Tokens are taken one list after the other. -/
theorem Takes.append (hfirst : r.Takes ts m) (hsecond : m.Takes us r') : r.Takes (ts ++ us) r' := by
  induction hfirst with
  | nil => exact hsecond
  | cons hlook _ ih => exact .cons hlook (ih hsecond)

/-- A reader that has taken the tokens of a text and may stop gives a program. -/
theorem Takes.run (htakes : r.Takes ts r') (hfinish : r'.look .finish = .accepted p log)
    (last : Spot) :
    r.run last none ts = .program p log := by
  induction htakes generalizing last with
  | nil => simp only [Reader.run, hfinish]
  | cons hlook _ ih =>
    simp only [Reader.run, hlook]
    exact ih hfinish _

/-- No program is accepted at a token. -/
theorem look_token_ne_accepted (r : Reader) (t : Token) : r.look (.token t) ≠ .accepted p log := by
  intro hlook
  have hlooks : r.Looks t (.accepted p log) := hlook ▸ r.looks t
  clear hlook
  generalize hstep : Step.accepted p log = step at hlooks
  induction hlooks with
  | ends _ _ ih => exact ih hstep
  | shifts | refuses | fails => cases hstep

/-- What is rejected is no program. -/
theorem reject_ne_program (look : Look) (spot : Spot) : r.reject look spot ≠ .program p log := by
  unfold reject
  split <;> simp

/-- A program is read only if the whole text is scanned and all tokens are taken. -/
theorem takes_of_run {last : Spot} {stray : Option Stray}
    (h : r.run last stray ts = .program p log) :
    stray = none ∧ ∃ m, r.Takes ts m ∧ m.look .finish = .accepted p log := by
  induction ts generalizing r last with
  | nil =>
    cases stray with
    | some s => cases h
    | none =>
      simp only [run] at h
      split at h
      next p' log' hfinish =>
        obtain ⟨rfl, rfl⟩ := Reading.program.inj h
        exact ⟨rfl, r, .nil, hfinish⟩
      next => exact absurd h (reject_ne_program _ _)
      next => exact absurd h (reject_ne_program _ _)
      next => cases h
  | cons t ts ih =>
    simp only [run] at h
    split at h
    next m hlook =>
      obtain ⟨hstray, m', htakes, hfinish⟩ := ih h
      exact ⟨hstray, m', .cons hlook htakes, hfinish⟩
    next hlook => exact absurd hlook (look_token_ne_accepted r t)
    next => exact absurd h (reject_ne_program _ _)
    next => cases h

end Texts

end Reader

end Analizador
