import Analizador.Grammar
import Analizador.Token

/-! # Derivations of the grammar

The syntax rules of the grammar as data, and the lists of kinds that can be derived from them. A
derivation always works on the first phrase that is left: it expands that phrase, or takes the kind
that the phrase asks for. Rules that nothing reaches from `start` are left out. -/

namespace Analizador.Grammar

/-- The names that the grammar defines. -/
inductive Nonterminal where
  | start
  | programa
  | declaracion
  | tipo
  | identificadorLista
  | sentencia
  | asignacion
  | condicional
  | bucleMientras
  | bucleRepetir
  | impresion
  | entrada
  | bloque
  | expresion
  | exprLogica
  | exprRelacional
  | exprAritmetica
  | termino
  | factor
  | operadorLogico
  | variable
  | entero
  | decimal
  | string
  | identificador
  deriving DecidableEq, Repr

/-- What may stand on the right of a rule. -/
inductive Phrase where
  | kind (k : Kind)
  | name (n : Nonterminal)
  | seq (parts : List Phrase)
  | alt (choices : List Phrase)
  | many (p : Phrase)
  | optional (p : Phrase)
  deriving Repr

/-- The second block of a conditional. -/
def otherwise : Phrase := .seq [.kind .oNo, .name .bloque]

/-- One more name of a declaration. -/
def moreNames : Phrase := .seq [.kind .comma, .name .identificador]

/-- One more comparison after a logical operator. -/
def moreComparisons : Phrase := .seq [.name .operadorLogico, .name .exprRelacional]

/-- A declaration or a statement. -/
def item : Phrase := .alt [.name .declaracion, .name .sentencia]

/-- Two phrases of one sort with a mark between them. -/
def around (n : Nonterminal) (k : Kind) : Phrase := .seq [.name n, .kind k, .name n]

/-- The right side of each rule. -/
def rule : Nonterminal → Phrase
  | .start => .name .programa
  | .programa => .many item
  | .declaracion => .seq [.name .tipo, .name .identificadorLista, .kind .semicolon]
  | .tipo => .alt [.kind .ent, .kind .dec, .kind .cadena]
  | .identificadorLista => .seq [.name .identificador, .many moreNames]
  | .sentencia =>
    .alt [.name .asignacion, .name .condicional, .name .bucleMientras, .name .bucleRepetir,
      .name .impresion, .name .entrada, .name .bloque]
  | .asignacion => .seq [.name .variable, .kind .assign, .name .expresion, .kind .semicolon]
  | .condicional =>
    .seq [.kind .si, .kind .leftParen, .name .expresion, .kind .rightParen, .name .bloque,
      .optional otherwise]
  | .bucleMientras =>
    .seq [.kind .mientras, .kind .leftParen, .name .expresion, .kind .rightParen, .name .bloque]
  | .bucleRepetir =>
    .seq [.kind .repetir, .kind .leftParen, .name .entero, .kind .rightParen, .name .bloque]
  | .impresion =>
    .seq [.kind .sout, .kind .leftParen, .alt [.name .expresion, .name .string], .kind .rightParen,
      .kind .semicolon]
  | .entrada => .seq [.kind .scan, .kind .leftParen, .name .variable, .kind .rightParen,
      .kind .semicolon]
  | .bloque => .seq [.kind .leftBrace, .many (.name .sentencia), .kind .rightBrace]
  | .expresion => .name .exprLogica
  | .exprLogica => .seq [.name .exprRelacional, .many moreComparisons]
  | .exprRelacional =>
    .alt [.name .exprAritmetica, around .exprAritmetica .equals, around .exprAritmetica .differs,
      around .exprAritmetica .greater, around .exprAritmetica .less,
      around .exprAritmetica .atLeast,
      around .exprAritmetica .atMost]
  | .exprAritmetica =>
    .alt [.name .termino, around .termino .plus, around .termino .minus, around .termino .star,
      around .termino .slash]
  | .termino => .name .factor
  | .factor =>
    .alt [.seq [.kind .leftParen, .name .expresion, .kind .rightParen], .name .entero,
      .name .decimal, .name .variable, .name .string]
  | .operadorLogico => .alt [.kind .both, .kind .either]
  | .variable => .kind .identifier
  | .entero => .kind .integer
  | .decimal => .kind .decimal
  | .string => .kind .text
  | .identificador => .kind .identifier

/-- A list of kinds can be derived from a row of phrases. -/
inductive Spells : List Phrase → List Kind → Prop where
  | done : Spells [] []
  | kind {k ps w} : Spells ps w → Spells (.kind k :: ps) (k :: w)
  | name {n ps w} : Spells (rule n :: ps) w → Spells (.name n :: ps) w
  | seq {parts ps w} : Spells (parts ++ ps) w → Spells (.seq parts :: ps) w
  | alt {p choices ps w} : p ∈ choices → Spells (p :: ps) w → Spells (.alt choices :: ps) w
  | skip {p ps w} : Spells ps w → Spells (.many p :: ps) w
  | again {p ps w} : Spells (p :: .many p :: ps) w → Spells (.many p :: ps) w
  | absent {p ps w} : Spells ps w → Spells (.optional p :: ps) w
  | present {p ps w} : Spells (p :: ps) w → Spells (.optional p :: ps) w

/-- The lists of kinds that the grammar derives. -/
def Derivable (w : List Kind) : Prop := Spells [.name .start] w

/-! ## One step back -/

section Inversion

variable {ps qs parts choices : List Phrase} {p : Phrase} {n : Nonterminal} {k l : Kind}
  {w : List Kind}

@[simp] theorem spells_nil : Spells [] w ↔ w = [] := by
  constructor
  · intro h
    cases h
    rfl
  · rintro rfl
    exact .done

@[simp] theorem not_spells_kind_nil : ¬ Spells (.kind k :: ps) [] := by
  intro h
  cases h

/-- A kind is spelled by itself. -/
@[simp] theorem spells_kind_cons : Spells (.kind k :: ps) (l :: w) ↔ l = k ∧ Spells ps w := by
  constructor
  · intro h
    cases h with
    | kind h => exact ⟨rfl, h⟩
  · rintro ⟨rfl, h⟩
    exact .kind h

/-- A name is spelled as its rule. -/
theorem spells_name : Spells (.name n :: ps) w ↔ Spells (rule n :: ps) w := by
  constructor
  · intro h
    cases h with
    | name h => exact h
  · exact .name

/-- A name is expanded where its first kind is known. -/
theorem spells_name_cons : Spells (.name n :: ps) (l :: w) ↔ Spells (rule n :: ps) (l :: w) :=
  spells_name

theorem spells_name_nil : Spells (.name n :: ps) [] ↔ Spells (rule n :: ps) [] := spells_name

/-- A sequence is spelled part by part. -/
@[simp] theorem spells_seq : Spells (.seq parts :: ps) w ↔ Spells (parts ++ ps) w := by
  constructor
  · intro h
    cases h with
    | seq h => exact h
  · exact .seq

/-- A choice is spelled as one of its choices. -/
theorem spells_alt :
    Spells (.alt choices :: ps) w ↔ ∃ p ∈ choices, Spells (p :: ps) w := by
  constructor
  · intro h
    cases h with
    | alt hmem h => exact ⟨_, hmem, h⟩
  · rintro ⟨p, hmem, h⟩
    exact .alt hmem h

@[simp] theorem not_spells_alt_nil : ¬ Spells (.alt [] :: ps) w := by
  simp [spells_alt]

@[simp] theorem spells_alt_cons :
    Spells (.alt (p :: choices) :: ps) w ↔ Spells (p :: ps) w ∨ Spells (.alt choices :: ps) w := by
  simp [spells_alt, or_and_right, exists_or]

/-- A repetition is spelled by nothing, or as its phrase and then as a repetition. -/
theorem spells_many :
    Spells (.many p :: ps) w ↔ Spells ps w ∨ Spells (p :: .many p :: ps) w := by
  constructor
  · intro h
    cases h with
    | skip h => exact .inl h
    | again h => exact .inr h
  · rintro (h | h)
    · exact .skip h
    · exact .again h

/-- An option is spelled by nothing, or as its phrase. -/
@[simp] theorem spells_optional :
    Spells (.optional p :: ps) w ↔ Spells ps w ∨ Spells (p :: ps) w := by
  constructor
  · intro h
    cases h with
    | absent h => exact .inl h
    | present h => exact .inr h
  · rintro (h | h)
    · exact .absent h
    · exact .present h

end Inversion

/-! ## Rows of phrases -/

section Rows

variable {ps qs : List Phrase} {p : Phrase} {u v w : List Kind}

/-- What spells some phrases and then what spells others spell them one after the other. -/
theorem Spells.append (hps : Spells ps u) (hqs : Spells qs v) : Spells (ps ++ qs) (u ++ v) := by
  induction hps with
  | done => exact hqs
  | kind _ ih => exact .kind ih
  | name _ ih => exact .name ih
  | seq _ ih => exact .seq (by simpa using ih)
  | alt hmem _ ih => exact .alt hmem ih
  | skip _ ih => exact .skip ih
  | again _ ih => exact .again ih
  | absent _ ih => exact .absent ih
  | present _ ih => exact .present ih

/-- What spells phrases can be split where the phrases are. -/
theorem Spells.split {rs : List Phrase} (h : Spells rs w) (ps : List Phrase) (heq : rs = ps ++ qs) :
    ∃ u v, w = u ++ v ∧ Spells ps u ∧ Spells qs v := by
  induction h generalizing ps with
  | done =>
      obtain ⟨rfl, rfl⟩ := List.append_eq_nil_iff.mp heq.symm
      exact ⟨[], [], rfl, .done, .done⟩
  | @kind k rest w h ih =>
      rcases List.cons_eq_append_iff.mp heq with ⟨rfl, rfl⟩ | ⟨ps, rfl, hrest⟩
      · exact ⟨[], _, rfl, .done, .kind h⟩
      · obtain ⟨u, v, rfl, hu, hv⟩ := ih ps hrest
        exact ⟨k :: u, v, rfl, .kind hu, hv⟩
  | @name n rest w h ih =>
      rcases List.cons_eq_append_iff.mp heq with ⟨rfl, rfl⟩ | ⟨ps, rfl, rfl⟩
      · exact ⟨[], _, rfl, .done, .name h⟩
      · obtain ⟨u, v, rfl, hu, hv⟩ := ih (rule n :: ps) rfl
        exact ⟨u, v, rfl, .name hu, hv⟩
  | @seq parts rest w h ih =>
      rcases List.cons_eq_append_iff.mp heq with ⟨rfl, rfl⟩ | ⟨ps, rfl, rfl⟩
      · exact ⟨[], _, rfl, .done, .seq h⟩
      · obtain ⟨u, v, rfl, hu, hv⟩ := ih (parts ++ ps) (by simp)
        exact ⟨u, v, rfl, .seq hu, hv⟩
  | @alt q choices rest w hmem h ih =>
      rcases List.cons_eq_append_iff.mp heq with ⟨rfl, rfl⟩ | ⟨ps, rfl, rfl⟩
      · exact ⟨[], _, rfl, .done, .alt hmem h⟩
      · obtain ⟨u, v, rfl, hu, hv⟩ := ih (q :: ps) rfl
        exact ⟨u, v, rfl, .alt hmem hu, hv⟩
  | @skip q rest w h ih =>
      rcases List.cons_eq_append_iff.mp heq with ⟨rfl, rfl⟩ | ⟨ps, rfl, hrest⟩
      · exact ⟨[], _, rfl, .done, .skip h⟩
      · obtain ⟨u, v, rfl, hu, hv⟩ := ih ps hrest
        exact ⟨u, v, rfl, .skip hu, hv⟩
  | @again q rest w h ih =>
      rcases List.cons_eq_append_iff.mp heq with ⟨rfl, rfl⟩ | ⟨ps, rfl, rfl⟩
      · exact ⟨[], _, rfl, .done, .again h⟩
      · obtain ⟨u, v, rfl, hu, hv⟩ := ih (q :: .many q :: ps) rfl
        exact ⟨u, v, rfl, .again hu, hv⟩
  | @absent q rest w h ih =>
      rcases List.cons_eq_append_iff.mp heq with ⟨rfl, rfl⟩ | ⟨ps, rfl, hrest⟩
      · exact ⟨[], _, rfl, .done, .absent h⟩
      · obtain ⟨u, v, rfl, hu, hv⟩ := ih ps hrest
        exact ⟨u, v, rfl, .absent hu, hv⟩
  | @present q rest w h ih =>
      rcases List.cons_eq_append_iff.mp heq with ⟨rfl, rfl⟩ | ⟨ps, rfl, rfl⟩
      · exact ⟨[], _, rfl, .done, .present h⟩
      · obtain ⟨u, v, rfl, hu, hv⟩ := ih (q :: ps) rfl
        exact ⟨u, v, rfl, .present hu, hv⟩

/-- What follows a phrase may be replaced by what derives at least as much. -/
theorem Spells.mono_tail (h : Spells (p :: ps) w) (htail : ∀ v, Spells ps v → Spells qs v) :
    Spells (p :: qs) w := by
  obtain ⟨u, v, rfl, hu, hv⟩ := h.split [p] rfl
  exact hu.append (htail v hv)

end Rows

/-! ## Operations

The rules for sums and comparisons list every operator with both of its operands. The operand on the
left can be taken out of the list. -/

/-- One of some marks, and one more phrase. -/
def further (n : Nonterminal) (ks : List Kind) : Phrase :=
  .alt (ks.map fun k => .seq [.kind k, .name n])

/-- The marks of arithmetic operations. -/
def arithmeticMarks : List Kind := [.plus, .minus, .star, .slash]

/-- The marks of comparisons. -/
def relationalMarks : List Kind := [.equals, .differs, .greater, .less, .atLeast, .atMost]

section Operations

variable {ps : List Phrase} {n : Nonterminal} {ks : List Kind} {k : Kind} {w : List Kind}

theorem spells_further : Spells (further n ks :: ps) w ↔
    ∃ k ∈ ks, Spells (.kind k :: .name n :: ps) w := by
  rw [further, spells_alt]
  constructor
  · rintro ⟨p, hmem, h⟩
    obtain ⟨k, hk, rfl⟩ := List.mem_map.mp hmem
    exact ⟨k, hk, spells_seq.mp h⟩
  · rintro ⟨k, hk, h⟩
    exact ⟨_, List.mem_map_of_mem hk, .seq h⟩

/-- A further part begins with one of its marks. -/
theorem spells_further_cons :
    Spells (further n ks :: ps) (k :: w) ↔ k ∈ ks ∧ Spells (.name n :: ps) w := by
  simp only [spells_further, spells_kind_cons]
  constructor
  · rintro ⟨_, hmem, rfl, h⟩
    exact ⟨hmem, h⟩
  · rintro ⟨hmem, h⟩
    exact ⟨k, hmem, rfl, h⟩

/-- The common operand on the left, and then perhaps a mark with an operand on the right. -/
theorem spells_around (n : Nonterminal) (ks : List Kind) :
    Spells (.alt (.name n :: ks.map (around n)) :: ps) w ↔
    Spells (.name n :: .optional (further n ks) :: ps) w := by
  constructor
  · rw [spells_alt]
    rintro ⟨p, hmem, h⟩
    rcases List.mem_cons.mp hmem with rfl | hmem
    · exact h.mono_tail fun _ hv => .absent hv
    · obtain ⟨k, hk, rfl⟩ := List.mem_map.mp hmem
      rw [around, spells_seq] at h
      exact h.mono_tail fun _ hv => .present (spells_further.mpr ⟨k, hk, hv⟩)
  · intro h
    -- The choice comes after the operand here and before it in the rule, so the operand is split
    -- off.
    obtain ⟨u, v, rfl, hu, hv⟩ := h.split [.name n] rfl
    rw [spells_alt]
    rcases spells_optional.mp hv with hv | hv
    · exact ⟨.name n, List.mem_cons_self, hu.append hv⟩
    · obtain ⟨k, hk, hv⟩ := spells_further.mp hv
      refine ⟨around n k, List.mem_cons_of_mem _ (List.mem_map_of_mem hk), ?_⟩
      exact .seq (hu.append hv)

theorem spells_exprAritmetica : Spells (.name .exprAritmetica :: ps) w ↔
    Spells (.name .termino :: .optional (further .termino arithmeticMarks) :: ps) w := by
  rw [spells_name]
  exact spells_around .termino arithmeticMarks

/-- A comparison is a term with what may follow it. -/
theorem spells_exprRelacional : Spells (.name .exprRelacional :: ps) w ↔
    Spells (.name .termino :: .optional (further .termino arithmeticMarks) ::
      .optional (further .exprAritmetica relationalMarks) :: ps) w := by
  rw [spells_name, ← spells_exprAritmetica]
  exact spells_around .exprAritmetica relationalMarks

/-- So is an expression, with more comparisons after it. -/
theorem spells_expresion : Spells (.name .expresion :: ps) w ↔
    Spells (.name .termino :: .optional (further .termino arithmeticMarks) ::
      .optional (further .exprAritmetica relationalMarks) :: .many moreComparisons :: ps) w := by
  rw [spells_name, rule, spells_name, rule, spells_seq]
  exact spells_exprRelacional

end Operations

/-! ## First kinds

What is left of a phrase once its first kind is taken. -/

section First

variable {ps : List Phrase} {k : Kind} {w : List Kind}

theorem not_spells_termino_nil : ¬ Spells (.name .termino :: ps) [] := by
  simp [spells_name_nil, rule]

/-- The kinds of operands that are one token. -/
def leaves : List Kind := [.integer, .decimal, .identifier, .text]

/-- A term is an expression in parentheses, or a leaf. -/
theorem spells_termino_cons : Spells (.name .termino :: ps) (k :: w) ↔
    k = .leftParen ∧ Spells (.name .expresion :: .kind .rightParen :: ps) w ∨
      k ∈ leaves ∧ Spells ps w := by
  simp [spells_name_cons, rule, leaves, or_and_right]

/-- More comparisons are none, or a logical mark and a comparison before more. -/
theorem spells_moreComparisons_cons : Spells (.many moreComparisons :: ps) (k :: w) ↔
    Spells ps (k :: w) ∨
      k ∈ [Kind.both, .either] ∧
      Spells (.name .exprRelacional :: .many moreComparisons :: ps) w := by
  rw [spells_many]
  simp [moreComparisons, spells_name_cons, rule, or_and_right]

theorem spells_identificadorLista : Spells (.name .identificadorLista :: ps) w ↔
    Spells (.name .identificador :: .many moreNames :: ps) w := by
  rw [spells_name, rule, spells_seq]
  rfl

/-- A leaf is a whole expression. -/
theorem spells_expresion_cons_leaf (hleaf : k ∈ leaves) (h : Spells ps w) :
    Spells (.name .expresion :: ps) (k :: w) := by
  rw [spells_expresion, spells_termino_cons]
  exact .inr ⟨hleaf, .absent (.absent (.skip h))⟩

/-- A text is an expression by itself, so that naming it as a second choice adds nothing. -/
theorem spells_expresion_or_string :
    Spells (.kind k :: .alt [.name .expresion, .name .string] :: ps) w ↔
      Spells (.kind k :: .name .expresion :: ps) w := by
  constructor
  · intro h
    apply h.mono_tail
    intro v hv
    simp only [spells_alt_cons, not_spells_alt_nil, or_false] at hv
    rcases hv with hv | hv
    · exact hv
    · rw [spells_name, rule] at hv
      cases hv with
      | kind hv => exact spells_expresion_cons_leaf (by decide) hv
  · intro h
    exact h.mono_tail fun v hv => .alt List.mem_cons_self hv

end First

/-! ## Every name derives something -/

/-- Phrases that cannot be without a derivation: kinds, names and what may be left out. -/
def Phrase.isPlain : Phrase → Bool
  | .kind _ | .name _ | .many _ | .optional _ => true
  | .seq _ | .alt _ => false

/-- Every name of the grammar is spelled by something. -/
theorem exists_spells_name (n : Nonterminal) : ∃ w, Spells [.name n] w := by
  -- The rules are recursive, so the names that the others go through come first.
  have hexpresion : Spells [.name .expresion] [.identifier] :=
    spells_expresion_cons_leaf (by decide) .done
  have htermino : Spells [.name .termino] [.identifier] :=
    spells_termino_cons.mpr (.inr ⟨by decide, .done⟩)
  have hcomparison : Spells [.name .exprRelacional] [.identifier] :=
    spells_exprRelacional.mpr (spells_termino_cons.mpr (.inr ⟨by decide, .absent (.absent .done)⟩))
  have hbloque : Spells [.name .bloque] [.leftBrace, .rightBrace] :=
    .name (.seq (.kind (.skip (.kind .done))))
  have hnames : Spells [.name .identificadorLista] [.identifier] :=
    .name (.seq (.name (.kind (.skip .done))))
  have htype : Spells [.name .tipo] [.ent] := .name (.alt List.mem_cons_self (.kind .done))
  cases n with
  | start => exact ⟨[], .name (.name (.skip .done))⟩
  | programa => exact ⟨[], .name (.skip .done)⟩
  | declaracion =>
    exact ⟨_, .name (.seq (htype.append (hnames.append (.kind .done))))⟩
  | tipo => exact ⟨_, htype⟩
  | identificadorLista => exact ⟨_, hnames⟩
  | sentencia => exact ⟨_, .name (.alt (by simp) hbloque)⟩
  | asignacion => exact ⟨_, .name (.seq (.name (.kind (.kind (hexpresion.append (.kind .done))))))⟩
  | condicional =>
    exact ⟨_,
      .name (.seq (.kind (.kind (hexpresion.append (.kind (hbloque.append (.absent .done)))))))⟩
  | bucleMientras => exact ⟨_, .name (.seq (.kind (.kind (hexpresion.append (.kind hbloque)))))⟩
  | bucleRepetir => exact ⟨_, .name (.seq (.kind (.kind (.name (.kind (.kind hbloque))))))⟩
  | impresion =>
    exact ⟨_, .name (.seq (.kind (.kind (.alt List.mem_cons_self
      (hexpresion.append (.kind (.kind .done)))))))⟩
  | entrada => exact ⟨_, .name (.seq (.kind (.kind (.name (.kind (.kind (.kind .done)))))))⟩
  | bloque => exact ⟨_, hbloque⟩
  | expresion => exact ⟨_, hexpresion⟩
  | exprLogica => exact ⟨_, .name (.seq (hcomparison.append (.skip .done)))⟩
  | exprRelacional => exact ⟨_, hcomparison⟩
  | exprAritmetica => exact ⟨_, .name (.alt List.mem_cons_self htermino)⟩
  | termino => exact ⟨_, htermino⟩
  | factor => exact ⟨_, .name (.alt (by simp) (.name (n := .variable) (.kind .done)))⟩
  | operadorLogico => exact ⟨_, .name (.alt List.mem_cons_self (.kind .done))⟩
  | «variable» | entero | decimal | string | identificador => exact ⟨_, .name (.kind .done)⟩

/-- So are phrases none of which is a sequence or a choice. -/
theorem exists_spells {ps : List Phrase} (h : ∀ p ∈ ps, p.isPlain = true) : ∃ w, Spells ps w := by
  induction ps with
  | nil => exact ⟨[], .done⟩
  | cons p ps ih =>
    obtain ⟨v, hv⟩ := ih fun q hq => h q (List.mem_cons_of_mem _ hq)
    cases p with
    | kind k => exact ⟨k :: v, .kind hv⟩
    | name n =>
      obtain ⟨u, hu⟩ := exists_spells_name n
      exact ⟨u ++ v, hu.append hv⟩
    | seq parts => cases h _ List.mem_cons_self
    | alt choices => cases h _ List.mem_cons_self
    | many p => exact ⟨v, .skip hv⟩
    | optional p => exact ⟨v, .absent hv⟩

end Analizador.Grammar
