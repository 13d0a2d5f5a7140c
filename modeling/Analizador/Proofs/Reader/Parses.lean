import Analizador.Proofs.Parse
import Analizador.Proofs.Reader.Atoms

/-! # The parse tree of a program that is read

A reader keeps what it builds and not the parse tree of what it has read. But at every moment there
are parse trees for all the phrases it holds: their tokens are the tokens taken so far, and their
lines are its log. Each move of the reader is the building of a larger tree, and so a program that
is read has a parse tree that spans the text. -/

namespace Analizador

open Parse

/-! ## What a reader holds -/

/-- The tokens before the expression of a statement. -/
inductive Place.Reads : Place → List Token → Prop where
  | assign (target : Token.Of .identifier) (mark : Token.Of .assign) :
      Reads (.assign target.1.toName) [target.1, mark.1]
  | si (word : Token.Of .si) (opening : Token.Of .leftParen) : Reads .si [word.1, opening.1]
  | mientras (word : Token.Of .mientras) (opening : Token.Of .leftParen) :
      Reads .mientras [word.1, opening.1]
  | sout (word : Token.Of .sout) (opening : Token.Of .leftParen) : Reads .sout [word.1, opening.1]

/-- The tokens and the lines of a left operand with its operator, which may be missing. -/
inductive Level.ReadsLeft (rank : Rank) (sign? : Kind → Option Operator) :
    Option (Expr × Operator) → List Token → List String → Prop where
  | none : ReadsLeft rank sign? none [] []
  | some {x op sign} (hx : IsExpr rank x) (hop : sign? (Token.kind sign) = some op) :
      ReadsLeft rank sign? (some (x.part, op)) (x.tokens ++ [sign]) x.lines

/-- The tokens and the lines of a level. -/
inductive Level.Reads : Level → List Token → List String → Prop where
  | intro {compared operand ts us ls ms}
      (hcompared : ReadsLeft .sum Kind.relational? compared ts ls)
      (hoperand : ReadsLeft .factor Kind.arithmetic? operand us ms) :
      Reads ⟨compared, operand⟩ (ts ++ us) (ls ++ ms)

/-- The tokens and the lines of the levels around an expression. -/
inductive Level.ReadsAll : List Level → List Token → List String → Prop where
  | nil : ReadsAll [] [] []
  | cons {level outer ts us ls ms} (houter : ReadsAll outer ts ls) (hlevel : level.Reads us ms)
      (opening : Token.Of .leftParen) :
      ReadsAll (level :: outer) (ts ++ (us ++ [opening.1])) (ls ++ ms)

/-- The tokens and the lines of a statement before its block. -/
inductive Role.Reads : Role → List Token → List String → Prop where
  | bare : Reads .bare [] []
  | thenPart (head : Guarded .si) : Reads (.thenPart head.guard.part) head.tokens head.guard.lines
  | elsePart (head : Guarded .si) (b : Block) (hb : ∀ y ∈ b.body, IsStmt y)
      (other : Token.Of .oNo) :
      Reads (.elsePart head.guard.part b.part) (head.tokens ++ (b.tokens ++ [other.1]))
        (head.guard.lines ++ b.lines)
  | whileBody (head : Guarded .mientras) :
      Reads (.whileBody head.guard.part) head.tokens head.guard.lines
  | repeatBody (c : Repetition) : Reads (.repeatBody c.value c.count.1.spot) c.tokens []

/-- The tokens and the lines of an open block. -/
inductive Frame.Reads : Frame → List Token → List String → Prop where
  | intro {role ts ls} {body : List (Parse Stmt)} (hrole : role.Reads ts ls)
      (opening : Token.Of .leftBrace)
      (hbody : ∀ y ∈ body, IsStmt y) :
      Reads ⟨role, body.map Parse.part⟩ (ts ++ opening.1 :: body.flatMap Parse.tokens)
        (ls ++ body.flatMap Parse.lines)

/-- The tokens and the lines of the open blocks. -/
inductive Frame.ReadsAll : List Frame → List Token → List String → Prop where
  | nil : ReadsAll [] [] []
  | cons {f fs ts us ls ms} (hframes : ReadsAll fs ts ls) (hframe : f.Reads us ms) :
      ReadsAll (f :: fs) (ts ++ us) (ls ++ ms)

/-- The tokens and the lines of a phase, before a token of the given kind: an operand may be a whole
operation already, unless the kind is that of another arithmetic sign. After a logical operator
nothing is kept, but from there no program is reached. -/
inductive Phase.Reads (k : Kind) : Phase → List Token → List String → Prop where
  | ready : Reads k .ready [] []
  | afterThen (head : Guarded .si) (b : Block) (hb : ∀ y ∈ b.body, IsStmt y) :
      Reads k (.afterThen head.guard.part b.part) (head.tokens ++ b.tokens)
        (head.guard.lines ++ b.lines)
  | firstName {word ty} (hty : Kind.type? (Token.kind word) = some ty) :
      Reads k (.nextName ty []) [word] []
  | nextName {word ty names ts} (hty : Kind.type? (Token.kind word) = some ty)
      (hnames : IsNames names ts)
      (comma : Token.Of .comma) :
      Reads k (.nextName ty (names.map (·.1.toName))) (word :: (ts ++ [comma.1])) []
  | named {word ty names ts} (hty : Kind.type? (Token.kind word) = some ty)
      (hnames : IsNames names ts) :
      Reads k (.named ty (names.map (·.1.toName))) (word :: ts) []
  | target (target : Token.Of .identifier) : Reads k (.target target.1.toName) [target.1] []
  | keyword {word} (hword : (Token.kind word).opensStatement = true) :
      Reads k (.keyword word.kind) [word] []
  | wanting {place level outer ts us vs ls ms} (hplace : Place.Reads place ts)
      (houter : Level.ReadsAll outer us ls) (hlevel : Level.Reads level vs ms) :
      Reads k (.wanting place level outer) (ts ++ (us ++ vs)) (ls ++ ms)
  | loose {place level outer t ts us vs ls ms} (hplace : Place.Reads place ts)
      (houter : Level.ReadsAll outer us ls) (hlevel : Level.Reads level vs ms)
      (ht : t.kind ∈ Grammar.leaves) :
      Reads k (.holding place level outer (.loose t)) (ts ++ (us ++ (vs ++ [t]))) (ls ++ ms)
  | factor {place level outer x ts us vs ls ms} (hplace : Place.Reads place ts)
      (houter : Level.ReadsAll outer us ls) (hlevel : Level.Reads level vs ms)
      (hx : IsExpr .factor x) :
      Reads k (.holding place level outer (.built x.part)) (ts ++ (us ++ (vs ++ x.tokens)))
        (ls ++ (ms ++ x.lines))
  | sum {place compared outer x ts us vs ls ms} (hk : k.arithmetic? = none)
      (hplace : Place.Reads place ts)
      (houter : Level.ReadsAll outer us ls)
      (hlevel : Level.ReadsLeft .sum Kind.relational? compared vs ms)
      (hx : IsExpr .sum x) :
      Reads k (.holding place ⟨compared, none⟩ outer (.built x.part))
        (ts ++ (us ++ (vs ++ x.tokens)))
        (ls ++ (ms ++ x.lines))
  | compared {place outer x ts us ls} (hplace : Place.Reads place ts)
      (houter : Level.ReadsAll outer us ls)
      (hx : IsExpr .whole x) :
      Reads k (.compared place outer x.part) (ts ++ (us ++ x.tokens)) (ls ++ x.lines)
  | whole {place outer x ts us ls} (hplace : Place.Reads place ts)
      (houter : Level.ReadsAll outer us ls)
      (hx : IsExpr .whole x) :
      Reads k (.whole place outer x.part) (ts ++ (us ++ x.tokens)) (ls ++ x.lines)
  | logical {place outer ts ls} : Reads k (.logical place outer) ts ls
  | lone (word : Token.Of .sout) (opening : Token.Of .leftParen) (t : Token.Of .text) :
      Reads k (.lone t.1) [word.1, opening.1, t.1] []
  | count (word : Token.Of .repetir) (opening : Token.Of .leftParen) :
      Reads k .count [word.1, opening.1] []
  | counting (word : Token.Of .repetir) (opening : Token.Of .leftParen)
      (count : Token.Of .integer) :
      Reads k (.counting count.1) [word.1, opening.1, count.1] []
  | counted (word : Token.Of .repetir) (opening : Token.Of .leftParen)
      (count : Token.Of .integer) {n}
      (hn : Numeral.readInteger count.1.text = .ok n) :
      Reads k (.counted n count.1.spot) [word.1, opening.1, count.1] []
  | inputName (word : Token.Of .scan) (opening : Token.Of .leftParen) :
      Reads k .inputName [word.1, opening.1] []
  | inputNamed (word : Token.Of .scan) (opening : Token.Of .leftParen)
      (target : Token.Of .identifier) :
      Reads k (.inputNamed target.1.toName) [word.1, opening.1, target.1] []
  | opening {role ts ls} (hrole : Role.Reads role ts ls) : Reads k (.opening role) ts ls
  | ending {s ts ls} (hs : ∀ mark : Token.Of .semicolon, ∃ x, IsStmt x ∧ x.part = s ∧
      x.tokens = ts ++ [mark.1] ∧
      x.lines = ls) : Reads k (.ending s) ts ls

namespace Reader

/-- The tokens and the lines of the complete items and of the open blocks. -/
inductive Around : Reader → List Token → List String → Prop where
  | intro {r : Reader} {items : List (Parse Item)} {ts ls} (hitems : ∀ y ∈ items, IsItem y)
      (heq : r.items = items.map Parse.part) (hframes : Frame.ReadsAll r.frames ts ls) :
      Around r (items.flatMap Parse.tokens ++ ts) (items.flatMap Parse.lines ++ ls)

/-- Before a token of the given kind, a reader has taken the given tokens. -/
structure Reads (k : Kind) (r : Reader) (ts : List Token) : Prop where
  split : ∃ us vs ls ms, r.Around us ls ∧ r.phase.Reads k vs ms ∧ ts = us ++ vs ∧ r.log = ls ++ ms
  outside : r.phase.isDeclaring = true → r.frames = []

end Reader

/-! ## Every move builds a larger tree -/

theorem Phase.Reads.cast {k : Kind} {phase : Phase} {ts ts' : List Token} {ls ls' : List String}
    (h : phase.Reads k ts ls) (hts : ts = ts') (hls : ls = ls') : phase.Reads k ts' ls' :=
  hts ▸ hls ▸ h

namespace Reader

variable {r r' : Reader} {k : Kind} {t : Token} {ts : List Token}

theorem Around.congr {us : List Token} {ls : List String} (h : r.Around us ls)
    (hitems : r'.items = r.items) (hframes : r'.frames = r.frames) : r'.Around us ls := by
  obtain ⟨hparse, heq, hreads⟩ := h
  exact ⟨hparse, hitems.trans heq, hframes ▸ hreads⟩

/-- A complete statement joins the innermost block, or the items. -/
theorem Around.complete {us : List Token} {ls : List String} {x : Parse Stmt} (h : r.Around us ls)
    (hx : x.IsStmt) : (r.complete x.part).Around (us ++ x.tokens) (ls ++ x.lines) := by
  obtain ⟨_, frames, phase, log⟩ := r
  obtain @⟨items, _, _, hitems, rfl, hframes⟩ := h
  cases hframes with
  | nil =>
    have haround : Around ⟨(items ++ [statement x]).map Parse.part, [], .ready, log⟩ _ _ :=
      .intro (by simpa [or_imp, forall_and] using ⟨hitems, .statement hx⟩) rfl .nil
    simpa [Reader.complete, statement] using haround
  | cons hfs hframe =>
    obtain @⟨role, _, _, body, hrole, opening, hbody⟩ := hframe
    have hbody' : ∀ y ∈ body ++ [x], y.IsStmt := by simpa [or_imp, forall_and] using ⟨hbody, hx⟩
    have haround := Around.intro (r := ⟨_, _, .ready, log⟩) hitems rfl
      (.cons hfs (.intro hrole opening hbody'))
    simpa [Reader.complete] using haround

/-- A move that stays in the statement at hand. -/
theorem Reads.move {k' : Kind} {phase : Phase} {us : List Token} {ns : List String}
    (h : (r.inPhase phase).Reads k ts) (hitems : r'.items = r.items)
    (hframes : r'.frames = r.frames) (hlog : r'.log = r.log ++ ns)
    (hphase : ∀ {vs ms}, phase.Reads k vs ms → r'.phase.Reads k' (vs ++ us) (ms ++ ns))
    (hdeclaring : r'.phase.isDeclaring = phase.isDeclaring) : r'.Reads k' (ts ++ us) := by
  obtain ⟨⟨vs, ws, ls, ms, haround, hreads, rfl, hlog'⟩, houtside⟩ := h
  refine ⟨⟨vs, ws ++ us, ls, ms ++ ns, haround.congr hitems hframes, hphase hreads, ?_, ?_⟩, ?_⟩
  · exact List.append_assoc ..
  · rw [hlog, show r.log = ls ++ ms from hlog', List.append_assoc]
  · exact fun hnow => hframes.trans (houtside (hdeclaring ▸ hnow))

/-- A token is taken inside a statement. -/
theorem Reads.take {k' : Kind} {phase phase' : Phase} (h : (r.inPhase phase).Reads k ts)
    (hdeclaring : phase'.isDeclaring = phase.isDeclaring)
    (hphase : ∀ {vs ms}, phase.Reads k vs ms → phase'.Reads k' (vs ++ [t]) ms) :
    (r.inPhase phase').Reads k' (ts ++ [t]) :=
  h.move rfl rfl (List.append_nil _).symm
    (fun hreads => (hphase hreads).cast rfl (List.append_nil _).symm) hdeclaring

/-- A phrase ends inside a statement and logs a line. -/
theorem Reads.build {phase phase' : Phase} {line : String} (h : (r.inPhase phase).Reads k ts)
    (hdeclaring : phase'.isDeclaring = phase.isDeclaring)
    (hphase : ∀ {vs ms}, phase.Reads k vs ms → phase'.Reads k vs (ms ++ [line])) :
    ((r.note line).inPhase phase').Reads k ts := by
  have hmove : ((r.note line).inPhase phase').Reads k (ts ++ []) :=
    h.move rfl rfl rfl (fun hreads => (hphase hreads).cast (List.append_nil _).symm rfl) hdeclaring
  rwa [List.append_nil] at hmove

/-- A phrase ends inside a statement. -/
theorem Reads.turn {phase phase' : Phase} (h : (r.inPhase phase).Reads k ts)
    (hdeclaring : phase'.isDeclaring = phase.isDeclaring)
    (hphase : ∀ {vs ms}, phase.Reads k vs ms → phase'.Reads k vs ms) :
    (r.inPhase phase').Reads k ts := by
  have hmove : (r.inPhase phase').Reads k (ts ++ []) :=
    h.move rfl rfl (List.append_nil _).symm
      (fun hreads => (hphase hreads).cast (List.append_nil _).symm (List.append_nil _).symm)
      hdeclaring
  rwa [List.append_nil] at hmove

theorem Around.completed {us : List Token} {ls : List String} {x : Parse Stmt} (h : r.Around us ls)
    (hx : x.IsStmt) (hts : ts = us ++ x.tokens) (hlog : r.log = ls ++ x.lines) :
    (r.complete x.part).Reads k ts := by
  have hready : (r.complete x.part).phase = .ready := phase_complete r x.part
  have hlog' : (r.complete x.part).log = r.log := by
    unfold Reader.complete
    split <;> rfl
  refine ⟨⟨_, [], _, [], h.complete hx, hready ▸ .ready, ?_,
    ?_⟩, by simp [hready, Phase.isDeclaring]⟩
  · rw [hts, List.append_nil]
  · rw [hlog', hlog, List.append_nil]

/-- A statement is complete. -/
theorem Reads.complete {k' : Kind} {phase : Phase} {s : Stmt} {us : List Token}
    (h : (r.inPhase phase).Reads k ts)
    (hphase : ∀ {vs ms}, phase.Reads k vs ms →
      ∃ x : Parse Stmt, x.IsStmt ∧ x.part = s ∧ x.tokens = vs ++ us ∧ x.lines = ms) :
    (r.complete s).Reads k' (ts ++ us) := by
  obtain ⟨⟨vs, ws, ls, ms, haround, hreads, rfl, hlog⟩, -⟩ := h
  obtain ⟨x, hx, rfl, htokens, rfl⟩ := hphase hreads
  exact Around.completed (haround.congr rfl rfl) hx (by simp [htokens]) hlog

end Reader

namespace Phase

variable {k : Kind}

/-- An operand that no other waits for is a sum, if only of one operand. -/
theorem Reads.exists_sum {place : Place} {compared : Option (Expr × Operator)} {outer : List Level}
    {e : Expr} {ts : List Token} {ls : List String}
    (h : Reads k (.holding place ⟨compared, none⟩ outer (.built e)) ts ls) :
    ∃ (x : Parse Expr) (us vs ws : List Token) (ms ns : List String), x.IsExpr .sum ∧ x.part = e ∧
      place.Reads us ∧ Level.ReadsAll outer vs ms ∧
      Level.ReadsLeft .sum Kind.relational? compared ws ns ∧
        ts = us ++ (vs ++ (ws ++ x.tokens)) ∧ ls = ms ++ (ns ++ x.lines) := by
  cases h with
  | factor hplace houter hlevel hx =>
    obtain ⟨hcompared, ⟨⟩⟩ := hlevel
    exact ⟨_, _, _, _, _, _, .single hx, rfl, hplace, houter,
      hcompared, by simp [single], by simp [single]⟩
  | sum _ hplace houter hcompared hx =>
    exact ⟨_, _, _, _, _, _, hx, rfl, hplace, houter, hcompared, rfl, rfl⟩

end Phase

namespace Reader

variable {r r' : Reader} {k : Kind} {t : Token} {ts : List Token}

/-- A phrase that ends gets its parse tree; no token is taken. -/
theorem Ends.reads (hends : r.Ends k r') (h : r.Reads k ts) : r'.Reads k ts := by
  cases hends with
  | @conditional r condition body hk =>
    have hcomplete : (r.complete (.conditional condition body none)).Reads k (ts ++ []) :=
      h.complete fun hreads => by
      cases hreads with
      | afterThen head b hb => exact ⟨_, .conditional head b hb, rfl, (List.append_nil _).symm, rfl⟩
    rwa [List.append_nil] at hcomplete
  | leaf hk he =>
    refine h.turn rfl fun hreads => ?_
    cases hreads with
    | loose hplace houter hlevel ht =>
      exact (Phase.Reads.factor hplace houter hlevel (.leaf ht he)).cast rfl
        (by simp [Parse.factor, Parse.leaf])
  | operation hk hop =>
    refine h.build rfl fun hreads => ?_
    cases hreads with
    | factor hplace houter hlevel hx =>
      obtain ⟨hcompared, _ | ⟨hleft, hsign⟩⟩ := hlevel
      exact (Phase.Reads.sum hop hplace houter hcompared (.operation hsign hleft hx)).cast
        (by simp [Parse.operation]) (by simp [Parse.operation])
  | plain hk =>
    refine h.build rfl fun hreads => ?_
    obtain ⟨x, _, _, _, _, _, hx, rfl, hplace, houter, ⟨⟩, rfl, rfl⟩ :=
      Phase.Reads.exists_sum hreads
    exact (Phase.Reads.compared hplace houter (.plain hx)).cast rfl
      (by simp [Parse.whole, Parse.plain])
  | comparison hk hop =>
    refine h.turn rfl fun hreads => ?_
    obtain ⟨y, _, _, _, _, _, hy, rfl, hplace, houter, _ | ⟨hx, hsign⟩, rfl, rfl⟩ :=
      hreads.exists_sum
    exact (Phase.Reads.compared hplace houter (.comparison hsign hx hy)).cast
      (by simp [Parse.whole, Parse.comparison]) (by simp [Parse.whole, Parse.comparison])
  | whole hk =>
    refine h.turn rfl fun hreads => ?_
    cases hreads with
    | compared hplace houter hx => exact .whole hplace houter hx
  | lone hk hparen hmark =>
    refine h.turn rfl fun hreads => ?_
    cases hreads with
    | lone word opening t =>
      exact .loose (.sout word opening) .nil (.intro .none .none) (by simp [t.2, Grammar.leaves])
  | count hk hn =>
    refine h.turn rfl fun hreads => ?_
    cases hreads with
    | counting word opening count => exact .counted word opening count hn

/-- A brace opens a block. -/
theorem Reads.openBlock {k' : Kind} {phase : Phase} {role : Role} (h : (r.inPhase phase).Reads k ts)
    (hkind : t.kind = .leftBrace) (hphase : ∀ {vs ms}, phase.Reads k vs ms → role.Reads vs ms) :
    (r.openBlock role).Reads k' (ts ++ [t]) := by
  obtain ⟨⟨_, ws, _, ms, ⟨hitems, heq, hframes⟩, hreads, rfl, hlog⟩, -⟩ := h
  have hframe := Frame.Reads.intro (hphase hreads) ⟨t, hkind⟩
    (fun _ hy => absurd hy List.not_mem_nil)
  refine ⟨⟨_, [], _, [], .intro hitems heq (.cons hframes hframe), .ready, ?_, ?_⟩,
    fun hready => by cases hready⟩
  · simp
  · exact hlog.trans (by simp)

/-- A closing brace completes a block, and with it the statement that the block is part of, unless a
second block may follow. -/
theorem Reads.closeBlock {k' : Kind} {f : Frame} {fs : List Frame}
    (h : (r.inPhase .ready).Reads k ts) (hkind : t.kind = .rightBrace)
    (hframes : r.frames = f :: fs) :
    (r.closeBlock f fs).Reads k' (ts ++ [t]) := by
  obtain ⟨items, frames, phase, log⟩ := r
  subst hframes
  obtain ⟨⟨_, _, _, _, ⟨hitems, heq, hreads⟩, ⟨⟩, rfl, hlog⟩, -⟩ := h
  obtain _ | ⟨hfs, ⟨hrole, opening, hbody⟩⟩ := hreads
  have haround : Around ⟨items, fs, phase, log⟩ _ _ := .intro hitems heq hfs
  cases hrole with
  | bare =>
    exact haround.completed (.block ⟨opening, _, t, hkind⟩ hbody) (by simp [block, Block.tokens])
      (hlog.trans (by simp [block, Block.lines]))
  | thenPart head =>
    refine ⟨⟨_, _, _, _, .intro hitems heq hfs, .afterThen head ⟨opening, _, t, hkind⟩ hbody, ?_,
      ?_⟩, fun hnow => by cases hnow⟩
    · simp [Block.tokens]
    · exact hlog.trans (by simp [Block.lines])
  | elsePart head b hb other =>
    exact haround.completed (.alternative head b hb other ⟨opening, _, t, hkind⟩ hbody)
      (by simp [alternative, Block.tokens]) (hlog.trans (by simp [alternative, Block.lines]))
  | whileBody head =>
    exact haround.completed (.whileLoop head ⟨opening, _, t, hkind⟩ hbody)
      (by simp [whileLoop, Block.tokens]) (hlog.trans (by simp [whileLoop, Block.lines]))
  | repeatBody c =>
    exact haround.completed (.repeatLoop c ⟨opening, _, t, hkind⟩ hbody)
      (by simp [repeatLoop, Block.tokens]) (hlog.trans (by simp [repeatLoop, Block.lines]))

/-- After a keyword and a parenthesis comes what the keyword says. -/
theorem reads_inside {word : Token} (hword : word.kind.opensStatement = true)
    (opening : Token.Of .leftParen) :
    word.kind.inside.Reads k [word, opening.1] [] := by
  obtain ⟨kind, text, spot⟩ := word
  cases kind with
  | si => exact .wanting (.si ⟨_, rfl⟩ opening) .nil (.intro .none .none)
  | mientras => exact .wanting (.mientras ⟨_, rfl⟩ opening) .nil (.intro .none .none)
  | sout => exact .wanting (.sout ⟨_, rfl⟩ opening) .nil (.intro .none .none)
  | repetir => exact .count ⟨_, rfl⟩ opening
  | scan => exact .inputName ⟨_, rfl⟩ opening
  | _ => cases hword

/-- A declaration joins the items; it stands outside of all blocks. -/
theorem Reads.declare {k' : Kind} {ty : Ty} {names : List Name}
    (h : (r.inPhase (.named ty names)).Reads k ts) (hkind : t.kind = .semicolon) :
    Reads k' { r with items := r.items ++ [.declaration ty none names], phase := .ready }
      (ts ++ [t]) := by
  obtain ⟨items, frames, phase, log⟩ := r
  obtain ⟨⟨_, _, _, _, @⟨parses, _, _, hitems, rfl, hframes⟩, hreads, rfl, hlog⟩, houtside⟩ := h
  obtain rfl : frames = [] := houtside rfl
  cases hreads with
  | @named word _ names us hty hnames =>
    have hparses : ∀ y ∈ parses ++ [declaration word ty names us ⟨t, hkind⟩], y.IsItem := by
      simpa [or_imp, forall_and] using ⟨hitems, .declaration hty hnames ⟨t, hkind⟩⟩
    refine ⟨⟨_, [], _, [], .intro hparses (by simp [declaration]) .nil, .ready, ?_, ?_⟩,
      fun _ => rfl⟩
    · cases hframes
      simp [declaration]
    · cases hframes
      exact hlog.trans (by simp [declaration])

/-- A token that is taken joins the tokens read. -/
theorem Shifts.reads (hshifts : r.Shifts t r') (h : r.Reads t.kind ts) (k : Kind) :
    r'.Reads k (ts ++ [t]) := by
  cases hshifts with
  | target hkind =>
    refine h.take rfl fun hreads => ?_
    cases hreads
    exact .target ⟨t, hkind⟩
  | keyword hkind =>
    refine h.take rfl fun hreads => ?_
    cases hreads
    exact .keyword hkind
  | bare hkind =>
    refine h.openBlock hkind fun hreads => ?_
    cases hreads
    exact .bare
  | close hkind hframes => exact h.closeBlock hkind hframes
  | type hty hframes =>
    obtain ⟨⟨us, _, ls, _, haround, ⟨⟩, rfl, hlog⟩, -⟩ := h
    exact ⟨⟨us, [t], ls, [], haround.congr rfl rfl, .firstName hty, by simp, hlog⟩,
      fun _ => hframes⟩
  | otherwise hkind =>
    refine h.take rfl fun hreads => ?_
    cases hreads with
    | afterThen head b hb =>
      exact (Phase.Reads.opening (.elsePart head b hb ⟨t, hkind⟩)).cast (by simp) rfl
  | name hkind =>
    refine h.take rfl fun hreads => ?_
    cases hreads with
    | firstName hty => exact .named hty (.single ⟨t, hkind⟩)
    | nextName hty hnames comma =>
      have hnamed : Phase.Reads k _ _ [] := .named hty (hnames.more comma ⟨t, hkind⟩)
      simpa using hnamed
  | comma hkind =>
    refine h.take rfl fun hreads => ?_
    cases hreads with
    | named hty hnames => exact .nextName hty hnames ⟨t, hkind⟩
  | declaration hkind => exact h.declare hkind
  | assign hkind =>
    refine h.take rfl fun hreads => ?_
    cases hreads with
    | target target => exact .wanting (.assign target ⟨t, hkind⟩) .nil (.intro .none .none)
  | @inside r k' hkind =>
    refine h.take (by cases k' <;> rfl) fun hreads => ?_
    cases hreads with
    | keyword hword => exact reads_inside hword ⟨t, hkind⟩
  | paren hkind =>
    refine h.take rfl fun hreads => ?_
    cases hreads with
    | wanting hplace houter hlevel =>
      exact (Phase.Reads.wanting hplace (.cons houter hlevel ⟨t, hkind⟩) (.intro .none .none)).cast
        (by simp) (by simp)
  | lone hkind =>
    refine h.take rfl fun hreads => ?_
    cases hreads with
    | wanting hplace houter hlevel =>
      obtain ⟨⟩ | ⟨⟩ | ⟨⟩ | ⟨word, opening⟩ := hplace
      obtain ⟨⟩ := houter
      obtain ⟨⟨⟩, ⟨⟩⟩ := hlevel
      exact .lone word opening ⟨t, hkind⟩
  | operand hkind hparen hlone =>
    refine h.take rfl fun hreads => ?_
    cases hreads with
    | wanting hplace houter hlevel =>
      have hleaf : t.kind ∈ Grammar.leaves := by
        revert hkind hparen
        cases t.kind <;> decide
      exact (Phase.Reads.loose hplace houter hlevel hleaf).cast (by simp) rfl
  | arithmetic hop =>
    refine h.take rfl fun hreads => ?_
    cases hreads with
    | factor hplace houter hlevel hx =>
      obtain ⟨hcompared, ⟨⟩⟩ := hlevel
      exact (Phase.Reads.wanting hplace houter (.intro hcompared (.some hx hop))).cast
        (by simp) (by simp)
    | sum hk => rw [hk] at hop; cases hop
  | relational hop =>
    refine h.take rfl fun hreads => ?_
    obtain ⟨x, _, _, _, _, _, hx, rfl, hplace, houter, ⟨⟩, rfl, rfl⟩ :=
      Phase.Reads.exists_sum hreads
    exact (Phase.Reads.wanting hplace houter (.intro (.some hx hop) .none)).cast (by simp) (by simp)
  | logical hkind => exact h.take rfl fun _ => .logical
  | closeParen hkind =>
    refine h.take rfl fun hreads => ?_
    cases hreads with
    | whole hplace houter hx =>
      obtain _ | ⟨houter, hlevel, opening⟩ := houter
      exact (Phase.Reads.factor hplace houter hlevel (.paren opening hx ⟨t, hkind⟩)).cast
        (by simp [Parse.paren]) (by simp [Parse.paren])
  | assigned hkind =>
    refine h.complete fun hreads => ?_
    cases hreads with
    | whole hplace houter hx =>
      obtain ⟨target, mark⟩ | ⟨⟩ | ⟨⟩ | ⟨⟩ := hplace
      obtain ⟨⟩ := houter
      exact ⟨_, .assign target mark hx ⟨t, hkind⟩, rfl, by simp [Parse.assign], rfl⟩
  | si hkind =>
    refine h.take rfl fun hreads => ?_
    cases hreads with
    | whole hplace houter hx =>
      obtain ⟨⟩ | ⟨word, opening⟩ | ⟨⟩ | ⟨⟩ := hplace
      obtain ⟨⟩ := houter
      exact (Phase.Reads.opening (.thenPart ⟨word, opening, _, ⟨t, hkind⟩, hx⟩)).cast
        (by simp [Guarded.tokens]) rfl
  | mientras hkind =>
    refine h.take rfl fun hreads => ?_
    cases hreads with
    | whole hplace houter hx =>
      obtain ⟨⟩ | ⟨⟩ | ⟨word, opening⟩ | ⟨⟩ := hplace
      obtain ⟨⟩ := houter
      exact (Phase.Reads.opening (.whileBody ⟨word, opening, _, ⟨t, hkind⟩, hx⟩)).cast
        (by simp [Guarded.tokens]) rfl
  | sout hkind =>
    refine h.take rfl fun hreads => ?_
    cases hreads with
    | whole hplace houter hx =>
      obtain ⟨⟩ | ⟨⟩ | ⟨⟩ | ⟨word, opening⟩ := hplace
      obtain ⟨⟩ := houter
      exact .ending fun mark => ⟨_, .print ⟨word, opening, _, ⟨t, hkind⟩, hx⟩ mark, rfl,
        by simp [Parse.print, Guarded.tokens], rfl⟩
  | loneSout hkind he =>
    refine h.take rfl fun hreads => ?_
    cases hreads with
    | lone word opening s =>
      exact .ending fun mark => ⟨_, .lone word opening s he ⟨t, hkind⟩ mark, rfl, rfl, rfl⟩
  | count hkind =>
    refine h.take rfl fun hreads => ?_
    cases hreads with
    | count word opening => exact .counting word opening ⟨t, hkind⟩
  | counted hkind =>
    refine h.take rfl fun hreads => ?_
    cases hreads with
    | counted word opening count hn =>
      exact .opening (.repeatBody ⟨word, opening, count, ⟨t, hkind⟩, _, hn⟩)
  | inputName hkind =>
    refine h.take rfl fun hreads => ?_
    cases hreads with
    | inputName word opening => exact .inputNamed word opening ⟨t, hkind⟩
  | input hkind =>
    refine h.take rfl fun hreads => ?_
    cases hreads with
    | inputNamed word opening target =>
      exact .ending fun mark => ⟨_, .input word opening target ⟨t, hkind⟩ mark, rfl, rfl, rfl⟩
  | block hkind =>
    refine h.openBlock hkind fun hreads => ?_
    cases hreads with
    | opening hrole => exact hrole
  | statement hkind =>
    refine h.complete fun hreads => ?_
    cases hreads with
    | ending hs => exact hs ⟨t, hkind⟩

/-- Taking tokens adds them to those read. -/
theorem Takes.reads {us : List Token} (h : r.Takes us r') (hr : ∀ k, r.Reads k ts) (k : Kind) :
    r'.Reads k (ts ++ us) := by
  induction h generalizing ts with
  | nil => simpa using hr k
  | @cons r m r' t us hlook _ ih =>
    have hm (k : Kind) : m.Reads k (ts ++ [t]) :=
      invariant_of_look (fun hends => hends.reads) (fun hshifts h => hshifts.reads h k)
        (hr t.kind) hlook
    simpa using ih hm

/-- A reader that may stop has a parse tree for all that it has read. -/
theorem Finishes.reads {p : Program} {log : List String} (h : r.Finishes p log)
    (hr : r.Reads k ts) :
    ∃ x : Parse Program, x.IsProgram ∧ x.part = p ∧ x.tokens = ts ∧ x.lines = log := by
  obtain ⟨⟨_, _, _, _, @⟨items, _, _, hitems, heq, hframes⟩, hreads, rfl, hlog⟩, -⟩ := hr
  cases h with
  | @ready r hnil =>
    obtain ⟨_, frames, _, log⟩ := r
    obtain rfl : frames = [] := hnil
    cases hframes
    cases hreads
    have hlines : log = items.flatMap Parse.lines := by simpa [inPhase] using hlog
    exact ⟨_, .intro hitems, congrArg Program.mk heq.symm, by simp [program], hlines.symm⟩
  | @conditional r _ _ hnil =>
    obtain ⟨old, frames, _, log⟩ := r
    obtain rfl : frames = [] := hnil
    cases hframes
    cases hreads with
    | afterThen head b hb =>
      have hall : ∀ y ∈ items ++ [statement (Parse.conditional head b)], y.IsItem := by
        simpa [or_imp, forall_and] using ⟨hitems, .statement (.conditional head b hb)⟩
      have hparts : old = items.map Parse.part := heq
      have hlines : log = items.flatMap Parse.lines ++ (head.guard.lines ++ b.lines) := by
        simpa [inPhase] using hlog
      refine ⟨_, .intro hall, ?_, ?_, ?_⟩
      · simp [program, statement, Parse.conditional, hparts]
      · simp [program, statement, Parse.conditional]
      · simp [program, statement, Parse.conditional, hlines]

end Reader

/-- A program that is read from a text has a parse tree that spans the text. -/
theorem Reading.exists_parse {code : String} {p : Program} {log : List String}
    (h : ofText code = .program p log) :
    ∃ x : Parse Program, x.IsProgram ∧ x.part = p ∧ x.tokens = (Scan.ofText code).tokens ∧
      x.lines = log := by
  obtain ⟨-, m, htakes, hfinish⟩ := Reader.takes_of_run h
  have hstart (k : Kind) : Reader.start.Reads k [] := by
    refine ⟨⟨[], [], [], [], ?_, .ready, rfl, rfl⟩, fun hnow => by cases hnow⟩
    exact @Reader.Around.intro _ [] _ _ (by simp) rfl .nil
  exact (Reader.finishes_of_look hfinish).reads (htakes.reads hstart .si)

end Analizador
