import Analizador.Proofs.Grammar
import Analizador.Proofs.Reader.Moves

/-! # What a reader still wants

At every moment the tokens that would complete the text of a reader form a row of phrases of the
grammar. Taking a token takes its kind off that row, and a reader is stuck exactly when the row
cannot start with the kind at hand. -/

namespace Analizador

open Grammar

/-! ## Classes of kinds -/

namespace Kind

variable {k : Kind}

theorem isLogical_iff : k.isLogical = true ↔ k ∈ [both, either] := by
  cases k <;> decide

theorem isSome_arithmetic?_iff : k.arithmetic?.isSome = true ↔ k ∈ arithmeticMarks := by
  cases k <;> decide

theorem isSome_relational?_iff : k.relational?.isSome = true ↔ k ∈ relationalMarks := by
  cases k <;> decide

theorem startsOperand_iff : k.startsOperand = true ↔ k = leftParen ∨ k ∈ leaves := by
  cases k <;> decide

/-- No logical sign closes an expression. -/
theorem isClosing_eq_false_of_isLogical (h : k.isLogical = true) : k.isClosing = false := by
  cases k <;> first | rfl | cases h

/-- After a comparison there is no other. -/
theorem followsComparison_eq_false_of_relational? {op : Operator} (h : k.relational? = some op) :
    k.followsComparison = false := by
  cases k <;> first | rfl | cases h

/-- An arithmetic sign is no relational one. -/
theorem relational?_eq_none_of_arithmetic? {op : Operator} (h : k.arithmetic? = some op) :
    k.relational? = none := by
  cases k <;> first | rfl | cases h

end Kind

/-! ## Rows of phrases -/

/-- The row of phrases after a sum, up to the end of its expression. -/
def Level.sumTail (compared : Option (Expr × Operator)) : List Phrase :=
  match compared with
  | none => [.optional (further .exprAritmetica relationalMarks), .many moreComparisons]
  | some _ => [.many moreComparisons]

/-- The row of phrases after an operand, up to the end of its expression. -/
def Level.tail (level : Level) : List Phrase :=
  match level.operand with
  | none => .optional (further .termino arithmeticMarks) :: sumTail level.compared
  | some _ => sumTail level.compared

/-- The row of phrases after an expression, up to the end of the outermost one. -/
def Level.closing : List Level → List Phrase
  | [] => []
  | level :: outer => .kind .rightParen :: (level.tail ++ closing outer)

/-- The row of phrases after the expression of a statement. -/
def Place.tail : Place → List Phrase
  | .assign _ => [.kind .semicolon]
  | .si => [.kind .rightParen, .name .bloque, .optional otherwise]
  | .mientras => [.kind .rightParen, .name .bloque]
  | .sout => [.kind .rightParen, .kind .semicolon]

/-- The row of phrases after a block, up to the end of its statement. -/
def Role.tail : Role → List Phrase
  | .thenPart _ => [.optional otherwise]
  | _ => []

/-- The row of phrases after the keyword of a statement. -/
def Kind.tail : Kind → List Phrase
  | .si => .kind .leftParen :: .name .expresion :: Place.si.tail
  | .mientras => .kind .leftParen :: .name .expresion :: Place.mientras.tail
  | .repetir => [.kind .leftParen, .name .entero, .kind .rightParen, .name .bloque]
  | .sout => .kind .leftParen :: .name .expresion :: Place.sout.tail
  | _ => [.kind .leftParen, .name .variable, .kind .rightParen, .kind .semicolon]

/-- The row of phrases that a phase still needs, up to the end of its item. -/
def Phase.rest : Phase → List Phrase
  | .ready => []
  | .afterThen .. => [.optional otherwise]
  | .nextName .. => [.name .identificador, .many moreNames, .kind .semicolon]
  | .named .. => [.many moreNames, .kind .semicolon]
  | .target _ => [.kind .assign, .name .expresion, .kind .semicolon]
  | .keyword k => k.tail
  | .wanting place level outer =>
    .name .termino :: (level.tail ++ (Level.closing outer ++ place.tail))
  | .holding place level outer _ => level.tail ++ (Level.closing outer ++ place.tail)
  | .compared place outer _ => .many moreComparisons :: (Level.closing outer ++ place.tail)
  | .whole place outer _ => Level.closing outer ++ place.tail
  | .logical place outer =>
    .name .exprRelacional :: .many moreComparisons :: (Level.closing outer ++ place.tail)
  | .lone _ => Level.fresh.tail ++ Place.sout.tail
  | .count => [.name .entero, .kind .rightParen, .name .bloque]
  | .counting _ | .counted .. => [.kind .rightParen, .name .bloque]
  | .inputName => [.name .variable, .kind .rightParen, .kind .semicolon]
  | .inputNamed _ => [.kind .rightParen, .kind .semicolon]
  | .opening role => .name .bloque :: role.tail
  | .ending _ => [.kind .semicolon]

/-- The row of phrases after a statement in the innermost of some open blocks. -/
def Frame.after : List Frame → List Phrase
  | [] => [.many item]
  | f :: fs => .many (.name .sentencia) :: .kind .rightBrace :: (f.role.tail ++ after fs)

namespace Reader

/-- The row of phrases that a reader still needs. -/
def rest (r : Reader) : List Phrase := r.phase.rest ++ Frame.after r.frames

end Reader

/-- What comes of looking at a kind agrees with what was wanted, where `wants` are the lists of
kinds that were wanted after that kind. -/
def Step.Fits (step : Step) (wants : List Kind → Prop) : Prop :=
  match step with
  | .moved r => ∀ w, wants w ↔ Spells r.rest w
  | .accepted .. => False
  | .stuck _ => ∀ w, ¬ wants w
  | .failed _ => True

namespace Step

variable {r : Reader} {p : Program} {log : List String} {f : Failure}
  {wants wants' : List Kind → Prop}

/-- A move fits if the rest of the reader spells what is wanted. -/
@[simp] theorem fits_moved : (moved r).Fits wants ↔ ∀ w, wants w ↔ Spells r.rest w := Iff.rfl

/-- Being stuck fits if nothing is wanted. -/
@[simp] theorem fits_stuck : (stuck r).Fits wants ↔ ∀ w, ¬ wants w := Iff.rfl

@[simp] theorem fits_failed : (failed f).Fits wants := trivial

/-- What fits one wish fits the same wish put otherwise. -/
theorem Fits.congr {step : Step} (h : step.Fits wants') (heq : ∀ w, wants w ↔ wants' w) :
    step.Fits wants := by
  cases step with
  | moved r => exact fun w => (heq w).trans (h w)
  | accepted p log => exact h
  | stuck r => exact fun w hw => h w ((heq w).mp hw)
  | failed f => trivial

end Step

namespace Reader

@[simp] theorem rest_mk (items : List Item) (frames : List Frame) (phase : Phase)
    (log : List String) :
    (Reader.mk items frames phase log).rest = phase.rest ++ Frame.after frames := rfl

/-- After a statement there is what follows its block. -/
@[simp] theorem complete_rest (r : Reader) (s : Stmt) :
    (r.complete s).rest = Frame.after r.frames := by
  unfold complete
  split
  next hframes => simp [Phase.rest, hframes]
  next f fs hframes => simp [Phase.rest, hframes, Frame.after]

/-- After a block there is what follows its role. -/
@[simp] theorem closeBlock_rest (r : Reader) (f : Frame) (fs : List Frame) :
    (r.closeBlock f fs).rest = f.role.tail ++ Frame.after fs := by
  cases hrole : f.role <;> simp [closeBlock, hrole, Role.tail, Phase.rest]

@[simp] theorem complete_after (r : Reader) (s : Stmt) :
    Frame.after (r.complete s).frames = Frame.after r.frames := by
  unfold complete
  split
  next hframes => simp [hframes]
  next f fs hframes => simp [hframes, Frame.after]

/-- A whole expression goes on with the mark that closes it. -/
theorem wants?_of_spells {place : Place} {outer : List Level} {ps : List Phrase} {k : Kind}
    {w : List Kind} (h : Spells (Level.closing outer ++ (place.tail ++ ps)) (k :: w)) (e : Expr) :
    (Phase.whole place outer e).wants? = some k := by
  cases outer with
  | cons level outer =>
    simp only [Level.closing, List.cons_append, spells_kind_cons] at h
    rw [h.1]
    rfl
  | nil =>
    cases place <;> simp only [Level.closing, Place.tail, List.nil_append, List.cons_append,
      spells_kind_cons] at h <;> rw [h.1] <;> rfl

/-- Only a closing mark can follow a whole expression. -/
theorem isClosing_of_spells {place : Place} {outer : List Level} {ps : List Phrase} {k : Kind}
    {w : List Kind} (h : Spells (Level.closing outer ++ (place.tail ++ ps)) (k :: w)) :
    k.isClosing = true := by
  obtain ⟨l, hwants, hl⟩ := wants?_whole place outer default
  obtain rfl : k = l := Option.some.inj ((wants?_of_spells h default).symm.trans hwants)
  exact hl

/-- Only a logical operator or a closing mark can follow a whole comparison. -/
theorem followsComparison_of_spells {place : Place} {outer : List Level} {ps : List Phrase}
    {k : Kind} {w : List Kind}
    (h : Spells (.many moreComparisons :: (Level.closing outer ++ (place.tail ++ ps))) (k :: w)) :
    k.followsComparison = true := by
  rcases spells_moreComparisons_cons.mp h with h | ⟨hmem, -⟩
  · simp [Kind.followsComparison, isClosing_of_spells h]
  · simp [Kind.followsComparison, Kind.isLogical_iff.mpr hmem]

/-- What can follow a sum: an operator other than the arithmetic ones, or a closing mark. -/
theorem followsSum_of_spells {place : Place} {compared : Option (Expr × Operator)}
    {outer : List Level} {ps : List Phrase} {k : Kind} {w : List Kind}
    (h : Spells (Level.sumTail compared ++ (Level.closing outer ++ (place.tail ++ ps))) (k :: w)) :
    k.relational?.isSome = true ∨ k.followsComparison = true := by
  cases compared with
  | none =>
    simp only [Level.sumTail, List.cons_append, List.nil_append, spells_optional] at h
    rcases h with h | h
    · exact .inr (followsComparison_of_spells h)
    · exact .inl (Kind.isSome_relational?_iff.mpr (spells_further_cons.mp h).1)
  | some left => exact .inr (followsComparison_of_spells h)

/-- After an operand there is only what may follow one. -/
theorem followsOperand_of_spells {place : Place} {level : Level} {outer : List Level}
    {ps : List Phrase} {k : Kind} {w : List Kind}
    (h : Spells (level.tail ++ (Level.closing outer ++ (place.tail ++ ps))) (k :: w)) :
    k.followsOperand = true := by
  have hsum : k.relational?.isSome = true ∨ k.followsComparison = true →
      k.followsOperand = true := by
    rintro (h | h)
    · simp [Kind.followsOperand, h]
    · rcases Bool.or_eq_true_iff.mp h with h | h <;> simp [Kind.followsOperand, h]
  obtain ⟨compared, operand⟩ := level
  cases operand with
  | none =>
    simp only [Level.tail, List.cons_append, spells_optional, spells_further_cons] at h
    rcases h with h | ⟨hmem, -⟩
    · exact hsum (followsSum_of_spells h)
    · simp [Kind.followsOperand, Kind.isSome_arithmetic?_iff.mpr hmem]
  | some left => exact hsum (followsSum_of_spells h)

/-- After a statement there is only what may follow one. -/
theorem followsStatement_of_spells {frames : List Frame} {k : Kind} {w : List Kind}
    (h : Spells (Frame.after frames) (k :: w)) : k.followsStatement = true := by
  cases frames <;> cases k <;> first | rfl | skip
  all_goals simp [Frame.after, spells_many, item, spells_name_cons, rule] at h

/-- Where a term is wanted, its first token starts an operand. -/
theorem startsOperand_of_spells {ps : List Phrase} {k : Kind} {w : List Kind}
    (h : Spells (.name .termino :: ps) (k :: w)) : k.startsOperand = true := by
  rcases spells_termino_cons.mp h with ⟨hparen, -⟩ | ⟨hleaf, -⟩
  · exact Kind.startsOperand_iff.mpr (.inl hparen)
  · exact Kind.startsOperand_iff.mpr (.inr hleaf)

/-! ## Every move agrees with the row -/

@[simp] theorem rest_inPhase (r : Reader) (phase : Phase) :
    (r.inPhase phase).rest = phase.rest ++ Frame.after r.frames := rfl

/-- A block that opens wants statements and its closing brace. -/
@[simp] theorem rest_openBlock (r : Reader) (role : Role) : (r.openBlock role).rest =
    .many (.name .sentencia) :: .kind .rightBrace :: (role.tail ++ Frame.after r.frames) := rfl

section Moves

variable {r r' : Reader} {t : Token} {k : Kind}

/-- Ending a phrase leaves the texts that go on with the kind before which it ends. -/
theorem Ends.spells_iff (h : r.Ends k r') (w : List Kind) :
    Spells r.rest (k :: w) ↔ Spells r'.rest (k :: w) := by
  cases h with
  | conditional hk =>
    have helse : k ≠ .oNo := by
      rintro rfl
      cases hk
    simp [Phase.rest, otherwise, helse]
  | leaf => rfl
  | operation hk hop =>
    have hmark : k ∉ arithmeticMarks := by simp [← Kind.isSome_arithmetic?_iff, hop]
    simp [Phase.rest, Level.tail, spells_further_cons, hmark, note]
  | plain hk =>
    have hmark : k ∉ arithmeticMarks := by
      simp [← Kind.isSome_arithmetic?_iff, Kind.arithmetic?_of_followsComparison hk]
    have hsign : k ∉ relationalMarks := by
      simp [← Kind.isSome_relational?_iff, Kind.relational?_of_followsComparison hk]
    simp [Phase.rest, Level.tail, Level.sumTail, Level.fresh, spells_further_cons, hmark,
      hsign, note]
  | comparison hk hop =>
    have hmark : k ∉ arithmeticMarks := by simp [← Kind.isSome_arithmetic?_iff, hop]
    simp [Phase.rest, Level.tail, Level.sumTail, spells_further_cons, hmark]
  | whole hk =>
    have hlogical : k ∉ [Kind.both, .either] := by
      rw [← Kind.isLogical_iff]
      intro hlogical
      rw [Kind.isClosing_eq_false_of_isLogical hlogical] at hk
      cases hk
    simp [Phase.rest, spells_moreComparisons_cons, hlogical]
  | lone => rfl
  | count => rfl

/-- What starts no declaration and ends no block starts a statement. -/
theorem spells_after_cons {frames : List Frame} {w : List Kind} (hbrace : k ≠ .rightBrace)
    (htype : k.type? = none) : Spells (Frame.after frames) (k :: w) ↔
      Spells (.name .sentencia :: Frame.after frames) (k :: w) := by
  have hdeclaration (ps : List Phrase) : ¬ Spells (.name .declaracion :: ps) (k :: w) := by
    revert htype
    cases k <;> simp [Kind.type?, spells_name_cons, rule]
  cases frames with
  | nil => simp [Frame.after, spells_many, item, hdeclaration]
  | cons f fs => simp [Frame.after, spells_many, hbrace]

/-- Taking a token takes its kind off the row. -/
theorem Shifts.spells_iff (h : r.Shifts t r') (w : List Kind) :
    Spells r.rest (t.kind :: w) ↔ Spells r'.rest w := by
  cases h with
  | target hkind =>
    simp only [rest_inPhase, Phase.rest, hkind, List.nil_append]
    rw [spells_after_cons (by decide) rfl]
    simp [spells_name_cons, rule]
  | @keyword r hkind =>
    have hafter : Spells (Frame.after r.frames) (t.kind :: w) ↔
        Spells (.name .sentencia :: Frame.after r.frames) (t.kind :: w) := by
      apply spells_after_cons
      · intro hbrace
        simp [hbrace, Kind.opensStatement] at hkind
      · cases hk : t.kind <;> first | rfl | simp [hk, Kind.opensStatement] at hkind
    simp only [rest_inPhase, Phase.rest, List.nil_append, hafter]
    cases hk : t.kind <;> simp [hk, Kind.opensStatement] at hkind <;>
      simp [spells_name_cons, rule, Kind.tail, Place.tail, spells_expresion_or_string]
  | bare hkind =>
    simp only [rest_inPhase, Phase.rest, hkind, List.nil_append]
    rw [spells_after_cons (by decide) rfl]
    simp [spells_name_cons, rule, Role.tail]
  | close hkind hframes =>
    simp [Phase.rest, hframes, hkind, Frame.after, spells_many, spells_name_cons, rule]
  | type hty hframes =>
    cases hk : t.kind <;> simp [hk, Kind.type?] at hty <;>
      simp [Phase.rest, hframes, Frame.after, spells_many, item, spells_name_cons, rule,
        spells_identificadorLista]
  | otherwise hkind =>
    -- No statement starts with this keyword, so it belongs to the conditional.
    have hnot (frames : List Frame) : ¬ Spells (Frame.after frames) (.oNo :: w) := fun h =>
      absurd (followsStatement_of_spells h) (by decide)
    simp [hkind, Phase.rest, Analizador.Grammar.otherwise, Role.tail, hnot]
  | name hkind => simp [Phase.rest, hkind, spells_name_cons, rule]
  | comma hkind => simp [Phase.rest, hkind, spells_many, moreNames]
  | declaration hkind => simp [Phase.rest, hkind, spells_many, moreNames]
  | assign hkind =>
    simp [Phase.rest, hkind, spells_expresion, Place.tail, Level.closing, Level.tail, Level.fresh,
      Level.sumTail]
  | @inside r k hkind =>
    cases k <;>
      simp [Kind.inside, Phase.rest, Kind.tail, hkind, spells_expresion, Place.tail, Level.closing,
        Level.tail, Level.fresh, Level.sumTail]
  | paren hkind =>
    simp [Phase.rest, hkind, spells_termino_cons, leaves, spells_expresion, Level.closing,
      Level.tail, Level.fresh, Level.sumTail]
  | lone hkind => simp [Phase.rest, hkind, spells_termino_cons, leaves, Level.closing]
  | operand hkind hparen =>
    have hleaf := (Kind.startsOperand_iff.mp hkind).resolve_left hparen
    simp [Phase.rest, spells_termino_cons, hparen, hleaf]
  | @arithmetic r place compared outer e op hop =>
    have hmark : t.kind ∈ arithmeticMarks := Kind.isSome_arithmetic?_iff.mp (by simp [hop])
    -- The operation could also be left out, but then nothing takes the mark.
    have hnot : ¬ Spells (Level.sumTail compared ++
        (Level.closing outer ++ (place.tail ++ Frame.after r.frames))) (t.kind :: w) := by
      intro h
      rcases followsSum_of_spells h with h | h
      · simp [Kind.relational?_eq_none_of_arithmetic? hop] at h
      · simp [Kind.arithmetic?_of_followsComparison h] at hop
    simp [Phase.rest, Level.tail, spells_further_cons, hmark, hnot]
  | @relational r place outer e op hop =>
    have hsign : t.kind ∈ relationalMarks := Kind.isSome_relational?_iff.mp (by simp [hop])
    have hmark : t.kind ∉ arithmeticMarks := by
      rw [← Kind.isSome_arithmetic?_iff]
      intro h
      obtain ⟨op', hop'⟩ := Option.isSome_iff_exists.mp h
      simp [Kind.relational?_eq_none_of_arithmetic? hop'] at hop
    have hnot : ¬ Spells (.many moreComparisons ::
        (Level.closing outer ++ (place.tail ++ Frame.after r.frames))) (t.kind :: w) := by
      intro h
      simp [Kind.relational?_of_followsComparison (followsComparison_of_spells h)] at hop
    simp [Phase.rest, Level.tail, Level.sumTail, Level.fresh, spells_further_cons, hmark, hsign,
      hnot, spells_exprAritmetica]
  | @logical r place outer e hkind =>
    have hnot : ¬ Spells (Level.closing outer ++ (place.tail ++ Frame.after r.frames))
        (t.kind :: w) := by
      intro h
      simpa [Kind.isClosing_eq_false_of_isLogical hkind] using isClosing_of_spells h
    simp only [rest_inPhase, Phase.rest, List.cons_append, List.append_assoc,
      spells_moreComparisons_cons, hnot, Kind.isLogical_iff.mp hkind, false_or, true_and]
  | closeParen hkind => simp [Phase.rest, hkind, Level.closing]
  | assigned hkind | si hkind | mientras hkind | sout hkind =>
    simp [Phase.rest, hkind, Level.closing, Place.tail, Role.tail]
  | loneSout hkind =>
    simp [Phase.rest, hkind, Level.tail, Level.sumTail, Level.fresh, Place.tail,
      spells_further_cons, arithmeticMarks, relationalMarks, spells_moreComparisons_cons]
  | count hkind | counted hkind | inputName hkind | input hkind | block hkind | statement hkind =>
    simp [Phase.rest, hkind, spells_name_cons, rule, Role.tail]

/-- A token is refused if its kind cannot come next. -/
theorem Refuses.not_spells (h : r.Refuses k) (w : List Kind) : ¬ Spells r.rest (k :: w) := by
  intro hspells
  cases h with
  | single hwants hk =>
    obtain ⟨items, frames, phase, log⟩ := r
    cases phase with
    | whole place outer e =>
      simp only [rest_mk, Phase.rest, List.append_assoc] at hspells
      exact hk (Option.some.inj ((wants?_of_spells hspells e).symm.trans hwants))
    | keyword l => cases l <;> simp_all [Phase.wants?, Phase.rest, Kind.tail]
    | nextName | target | count | counted | inputName | inputNamed | opening | ending =>
      simp_all [Phase.wants?, Phase.rest, spells_name_cons, rule]
    | ready | afterThen | named | wanting | holding | compared | logical | lone | counting =>
      cases hwants
  | @ready r hname hkeyword hopen hclose htype =>
    have hk : k = .rightBrace ∨ k.type? ≠ none := by
      have hfollows : k.followsStatement = true := followsStatement_of_spells hspells
      revert hfollows hname hkeyword hopen
      cases k <;> simp [Kind.followsStatement, Kind.opensStatement, Kind.type?]
    rcases hk with rfl | hk
    · simp [Phase.rest, hclose rfl, Frame.after, spells_many, item, spells_name_cons, rule]
        at hspells
    · cases hframes : r.frames with
      | nil => exact htype hk hframes
      | cons f fs =>
        revert hk hspells
        cases k <;>
          simp [Kind.type?, Phase.rest, hframes, Frame.after, spells_many, spells_name_cons, rule]
  | conditional helse hk =>
    simp only [rest_inPhase, Phase.rest, List.cons_append, List.nil_append, spells_optional,
      otherwise, spells_seq, spells_kind_cons, helse, false_and, or_false] at hspells
    exact absurd (followsStatement_of_spells hspells) (by simp [hk])
  | named hcomma hmark => simp [Phase.rest, spells_many, moreNames, hcomma, hmark] at hspells
  | wanting hk => exact absurd (startsOperand_of_spells hspells) (by simp [hk])
  | holding hk =>
    simp only [rest_inPhase, Phase.rest, List.append_assoc] at hspells
    exact absurd (followsOperand_of_spells hspells) (by simp [hk])
  | operation hop =>
    obtain ⟨op, hop⟩ := Option.ne_none_iff_exists'.mp hop
    simp only [rest_inPhase, Phase.rest, Level.tail, List.append_assoc] at hspells
    rcases followsSum_of_spells hspells with h | h
    · simp [Kind.relational?_eq_none_of_arithmetic? hop] at h
    · simp [Kind.arithmetic?_of_followsComparison h] at hop
  | compared hk =>
    simp only [rest_inPhase, Phase.rest, List.cons_append, List.append_assoc] at hspells
    exact absurd (followsComparison_of_spells hspells) (by simp [hk])
  | logical hk =>
    simp only [rest_inPhase, Phase.rest, List.cons_append, spells_exprRelacional] at hspells
    exact absurd (startsOperand_of_spells hspells) (by simp [hk])
  | lone hk => 
    rcases hk with rfl | hk
    · simp [Phase.rest, Level.tail, Level.sumTail, Level.fresh, Place.tail, spells_further_cons,
        arithmeticMarks, relationalMarks, spells_moreComparisons_cons] at hspells
    · have hfollows := @followsOperand_of_spells .sout .fresh [] _ _ _ hspells
      simp [hk] at hfollows
  | counting hk =>
    simp only [rest_inPhase, Phase.rest, List.cons_append, spells_kind_cons] at hspells
    rw [hspells.1] at hk
    cases hk

end Moves

/-- Looking at a token takes its kind off the row of phrases that a reader still needs. -/
theorem look_fits (r : Reader) (t : Token) :
    (r.look (.token t)).Fits fun w => Spells r.rest (t.kind :: w) := by
  have hlooks := r.looks t
  generalize r.look (.token t) = step at hlooks ⊢
  induction hlooks with
  | ends hends _ ih => exact ih.congr hends.spells_iff
  | shifts hshifts => exact hshifts.spells_iff
  | refuses hrefuses => exact hrefuses.not_spells
  | fails => trivial

/-! ## The end of the text -/

/-- An expression that is open wants at least one more token. -/
theorem not_spells_closing_nil {place : Place} {outer : List Level} {ps : List Phrase} :
    ¬ Spells (Level.closing outer ++ (place.tail ++ ps)) [] := by
  cases outer with
  | nil => cases place <;> simp [Level.closing, Place.tail]
  | cons level outer => simp [Level.closing]

theorem not_spells_comparisons_nil {place : Place} {outer : List Level} {ps : List Phrase} :
    ¬ Spells (.many moreComparisons :: (Level.closing outer ++ (place.tail ++ ps))) [] := by
  simp [spells_many, moreComparisons, spells_name_nil, rule, not_spells_closing_nil]

/-- So does one after an operand. -/
theorem not_spells_tail_nil {place : Place} {level : Level} {outer : List Level}
    {ps : List Phrase} :
    ¬ Spells (level.tail ++ (Level.closing outer ++ (place.tail ++ ps))) [] := by
  obtain ⟨compared, operand⟩ := level
  cases compared <;> cases operand <;>
    simp [Level.tail, Level.sumTail, spells_further, not_spells_comparisons_nil]

/-- A reader accepts the end of the text exactly when it needs nothing more. -/
theorem look_finish (r : Reader) :
    (Spells r.rest [] ∧ ∃ p log, r.look .finish = .accepted p log) ∨
      (¬ Spells r.rest [] ∧ ∃ r', r.look .finish = .stuck r') := by
  have hready (r : Reader) :
      (Spells (Frame.after r.frames) [] ∧ ∃ p log, r.ready .finish = .accepted p log) ∨
      (¬ Spells (Frame.after r.frames) [] ∧ ∃ r', r.ready .finish = .stuck r') := by
    unfold ready
    cases hframes : r.frames with
    | nil => exact .inl ⟨.skip .done, _, _, rfl⟩
    | cons f fs =>
      refine .inr ⟨?_, _, rfl⟩
      simp [Frame.after, spells_many, spells_name_nil, rule]
  obtain ⟨items, frames, phase, log⟩ := r
  cases phase with
  | ready => exact hready _
  | afterThen condition body =>
    simpa [look, Phase.rest, otherwise] using
      hready (complete ⟨items, frames, .afterThen condition body, log⟩
        (.conditional condition body none))
  | holding place level outer x =>
    refine .inr ⟨?_, _, rfl⟩
    simpa [Phase.rest] using not_spells_tail_nil
  | compared place outer e =>
    refine .inr ⟨?_, _, rfl⟩
    simpa [Phase.rest] using not_spells_comparisons_nil
  | whole place outer e =>
    refine .inr ⟨?_, _, rfl⟩
    simpa [Phase.rest] using not_spells_closing_nil
  | lone s =>
    refine .inr ⟨?_, _, rfl⟩
    exact @not_spells_tail_nil .sout .fresh [] (Frame.after frames)
  | wanting place level outer =>
    refine .inr ⟨?_, _, rfl⟩
    simpa [Phase.rest] using not_spells_termino_nil
  | logical place outer =>
    refine .inr ⟨?_, _, rfl⟩
    simpa [Phase.rest, spells_exprRelacional] using not_spells_termino_nil
  | keyword k =>
    refine .inr ⟨?_, _, rfl⟩
    cases k <;> simp [Phase.rest, Kind.tail]
  | nextName | named | target | count | counting | counted | inputName | inputNamed | opening
  | ending =>
    refine .inr ⟨?_, _, rfl⟩
    simp [Phase.rest, spells_many, moreNames, spells_name_nil, rule]

/-- No phrase that is left is a sequence or a choice. -/
theorem isPlain_of_mem_tail (level : Level) : ∀ p ∈ level.tail, p.isPlain = true := by
  obtain ⟨compared, operand⟩ := level
  cases compared <;> cases operand <;> simp [Level.tail, Level.sumTail, Phrase.isPlain]

theorem isPlain_of_mem_closing (outer : List Level) :
    ∀ p ∈ Level.closing outer, p.isPlain = true := by
  induction outer with
  | nil => simp [Level.closing]
  | cons level outer ih =>
    intro p hmem
    simp only [Level.closing, List.mem_cons, List.mem_append] at hmem
    rcases hmem with rfl | hmem | hmem
    · rfl
    · exact isPlain_of_mem_tail level p hmem
    · exact ih p hmem

theorem isPlain_of_mem_after (frames : List Frame) :
    ∀ p ∈ Frame.after frames, p.isPlain = true := by
  induction frames with
  | nil => simp [Frame.after, Phrase.isPlain]
  | cons f fs ih =>
    have hrole : ∀ p ∈ f.role.tail, p.isPlain = true := by
      cases f.role <;> simp [Role.tail, Phrase.isPlain]
    intro p hmem
    simp only [Frame.after, List.mem_cons, List.mem_append] at hmem
    rcases hmem with rfl | rfl | hmem | hmem
    · rfl
    · rfl
    · exact hrole p hmem
    · exact ih p hmem

theorem isPlain_of_mem_phase (phase : Phase) : ∀ p ∈ phase.rest, p.isPlain = true := by
  have hplace (place : Place) : ∀ p ∈ place.tail, p.isPlain = true := by
    cases place <;> simp [Place.tail, Phrase.isPlain]
  have hclosing (place : Place) (outer : List Level) :
      ∀ p ∈ Level.closing outer ++ place.tail, p.isPlain = true := by
    intro p hmem
    rcases List.mem_append.mp hmem with hmem | hmem
    · exact isPlain_of_mem_closing outer p hmem
    · exact hplace place p hmem
  have htail (level : Level) (place : Place) (outer : List Level) :
      ∀ p ∈ level.tail ++ (Level.closing outer ++ place.tail), p.isPlain = true := by
    intro p hmem
    rcases List.mem_append.mp hmem with hmem | hmem
    · exact isPlain_of_mem_tail level p hmem
    · exact hclosing place outer p hmem
  cases phase with
  | keyword k => cases k <;> simp [Phase.rest, Kind.tail, Place.tail, Phrase.isPlain]
  | wanting place level outer => exact List.forall_mem_cons.mpr ⟨rfl, htail level place outer⟩
  | holding place level outer x => exact htail level place outer
  | compared place outer e => exact List.forall_mem_cons.mpr ⟨rfl, hclosing place outer⟩
  | whole place outer e => exact hclosing place outer
  | logical place outer =>
    exact List.forall_mem_cons.mpr ⟨rfl, List.forall_mem_cons.mpr ⟨rfl, hclosing place outer⟩⟩
  | lone s => exact htail .fresh .sout []
  | opening role => cases role <;> simp [Phase.rest, Role.tail, Phrase.isPlain]
  | ready | afterThen | nextName | named | target | count | counting | counted | inputName
  | inputNamed | ending => simp [Phase.rest, Phrase.isPlain]

/-- Every reader can be brought to accept. -/
theorem exists_spells_rest (r : Reader) : ∃ w, Spells r.rest w := by
  apply exists_spells
  intro p hmem
  rcases List.mem_append.mp hmem with hmem | hmem
  · exact isPlain_of_mem_phase r.phase p hmem
  · exact isPlain_of_mem_after r.frames p hmem

end Reader

end Analizador
