import Analizador.Proofs.Analysis.Values

/-! # Kinds of values at every moment of an analysis

At every moment a variable of a numeric type holds a number or nothing, and one of the text type a
text or nothing. An integer variable may hold a decimal, but only if a literal or a quotient of the
integer type does so: sums, differences and products of integers are integers, and all else is taken
over. -/

namespace Analizador

namespace Constant

/-- Whether a constant is an integer. -/
def isInteger : Constant → Bool
  | integer _ => true
  | decimal _ | text _ | truth _ => false

/-- Whether a constant is of the kind of a type; a number is of the kind of both numeric types. -/
def fits : Ty → Constant → Bool
  | .ent, integer _ | .ent, decimal _ | .dec, integer _ | .dec, decimal _ => true
  | .cadena, text _ => true
  | .bool, truth _ => true
  | _, _ => false

variable {a b c : Constant} {op : Operator} {ty l r : Ty}

theorem exists_integer_of_isInteger (h : c.isInteger = true) : ∃ n, c = integer n := by
  cases c with
  | integer n => exact ⟨n, rfl⟩
  | decimal | text | truth => cases h

theorem fits_of_isNumeric (hty : ty.isNumeric = true) : c.fits ty = c.fits .dec := by
  cases ty with
  | ent | dec => cases c <;> rfl
  | cadena | bool => cases hty

/-- A number of numeric kind. -/
theorem exists_number_of_fits (h : c.fits .dec = true) : ∃ n : Number, c = n.toConstant := by
  cases c with
  | integer n => exact ⟨.whole n, rfl⟩
  | decimal d => exact ⟨.real d, rfl⟩
  | text | truth => cases h

theorem fits_toConstant (n : Number) : n.toConstant.fits .dec = true := by
  cases n <;> rfl

theorem number?_toConstant (n : Number) : n.toConstant.number? = some n := by
  cases n <;> rfl

/-- The result of arithmetic on numbers is a number. -/
theorem fits_of_arithmetic {whole : Int → Int → Int} {real : Double → Double → Double}
    {x y : Number} (h : arithmetic whole real x y = .ok c) : c.fits .dec = true := by
  unfold arithmetic at h
  split at h
  next =>
    obtain rfl := Except.ok.inj h
    rfl
  next =>
    obtain ⟨_, -, h⟩ := exists_ok_of_bind h
    obtain ⟨_, -, h⟩ := exists_ok_of_bind h
    obtain rfl := Except.ok.inj h
    rfl

theorem fits_of_quotient (h : quotient a b = .ok c) : c.fits .dec = true := by
  unfold quotient at h
  split at h
  next =>
    split at h
    next => cases h
    next =>
      obtain rfl := Except.ok.inj h
      rfl
  next =>
    obtain ⟨_, -, h⟩ := exists_ok_of_bind h
    obtain ⟨_, -, h⟩ := exists_ok_of_bind h
    obtain rfl := Except.ok.inj h
    rfl
  next => cases h

theorem fits_of_truncate (ha : a.fits .dec = true) (h : a.truncate = .ok c) :
    c.fits .dec = true := by
  unfold truncate at h
  split at h
  next =>
    split at h
    next => cases h
    next => cases h
    next =>
      obtain rfl := Except.ok.inj h
      rfl
  next =>
    obtain rfl := Except.ok.inj h
    exact ha

theorem fits_of_settled (ha : a.fits .dec = true) (h : a.settled = .ok c) : c.fits .dec = true := by
  obtain ⟨whole, hwhole, h⟩ := exists_ok_of_bind h
  obtain rfl := Except.ok.inj h
  split
  next => exact fits_of_truncate ha hwhole
  next => exact ha

end Constant

/-- Arithmetic is defined on numeric types, and addition on texts too. -/
theorem Operator.arithmetic_cases {op : Operator} {l r ty : Ty} (hop : op.family = .arithmetic)
    (h : op.resultType? l r = some ty) :
    (l.isNumeric = true ∧ r.isNumeric = true ∧ ty.isNumeric = true) ∨
      (op = .add ∧ l = .cadena ∧ r = .cadena ∧ ty = .cadena) := by
  simp only [resultType?, hop] at h
  split at h
  next htypes =>
    obtain ⟨rfl, rfl⟩ := htypes
    obtain rfl := Option.some.inj h
    exact .inl ⟨rfl, rfl, rfl⟩
  next =>
    split at h
    next htypes =>
      obtain rfl := Option.some.inj h
      exact .inl ⟨htypes.1, htypes.2, rfl⟩
    next =>
      split at h
      next htypes => exact .inr ⟨htypes.1, htypes.2.1, htypes.2.2, (Option.some.inj h).symm⟩
      next => cases h

namespace Constant

variable {a b c : Constant} {op : Operator} {ty l r : Ty}

/-- Applying an arithmetic operator to numbers gives a number. -/
theorem fits_of_apply_numbers {x y : Number} (hop : op.family = .arithmetic)
    (h : apply op x.toConstant y.toConstant = .ok c) : c.fits .dec = true := by
  cases op with
  | add | sub | mul =>
    simp only [apply, add, sub, mul, number?_toConstant] at h
    exact fits_of_arithmetic h
  | div => exact fits_of_quotient h
  | eq | ne | gt | lt | ge | le | both | either => cases hop

theorem fits_of_apply_relational (hop : op.family = .relational) (h : apply op a b = .ok c) :
    c.fits .bool = true := by
  cases op with
  | eq | ne =>
    obtain rfl := Except.ok.inj h
    rfl
  | gt | lt | ge | le =>
    obtain ⟨holds, -, heq⟩ := exists_ok_of_bind h
    obtain rfl := Except.ok.inj heq
    rfl
  | add | sub | mul | div | both | either => cases hop

/-- The result of an operator is of the kind of its type. -/
theorem fits_of_apply (hty : op.resultType? l r = some ty) (ha : a.fits l = true)
    (hb : b.fits r = true) (h : apply op a b = .ok c) : c.fits ty = true := by
  cases hfamily : op.family with
  | arithmetic =>
    rcases Operator.arithmetic_cases hfamily hty with ⟨hl, hr, hnumeric⟩ | ⟨rfl, rfl, rfl, rfl⟩
    · rw [fits_of_isNumeric hl] at ha
      rw [fits_of_isNumeric hr] at hb
      obtain ⟨x, rfl⟩ := exists_number_of_fits ha
      obtain ⟨y, rfl⟩ := exists_number_of_fits hb
      rw [fits_of_isNumeric hnumeric]
      exact fits_of_apply_numbers hfamily h
    · cases a with
      | text s =>
        cases b with
        | text s' =>
          obtain rfl := Except.ok.inj h
          rfl
        | integer | decimal | truth => cases hb
      | integer | decimal | truth => cases ha
  | relational =>
    obtain rfl := Expr.relational_type hfamily hty
    exact fits_of_apply_relational hfamily h
  | logical =>
    obtain ⟨rfl, rfl, rfl⟩ : l = .bool ∧ r = .bool ∧ ty = .bool := by
      simp only [Operator.resultType?, hfamily] at hty
      split at hty
      next htypes => exact ⟨htypes.1, htypes.2, (Option.some.inj hty).symm⟩
      next => cases hty
    cases op with
    | both | either =>
      obtain rfl := Except.ok.inj h
      split <;> assumption
    | add | sub | mul | div | eq | ne | gt | lt | ge | le => cases hfamily

/-- Sums, differences and products of integers are integers. -/
theorem isInteger_of_apply (hop : op.family = .arithmetic) (hdiv : op ≠ .div) {m n : Int}
    (h : apply op (integer m) (integer n) = .ok c) : c.isInteger = true := by
  cases op with
  | add | sub | mul =>
    obtain rfl := Except.ok.inj h
    rfl
  | div => exact absurd rfl hdiv
  | eq | ne | gt | lt | ge | le | both | either => cases hop

end Constant

/-- Only arithmetic on integers has the integer type. -/
theorem Operator.of_resultType?_ent {op : Operator} {l r : Ty}
    (h : op.resultType? l r = some .ent) :
    op.family = .arithmetic ∧ l = .ent ∧ r = .ent := by
  unfold resultType? at h
  split at h
  next hfamily =>
    refine ⟨hfamily, ?_⟩
    split at h
    next htypes => exact htypes
    next =>
      split at h
      next => cases h
      next => split at h <;> cases h
  next => split at h <;> cases h
  next => split at h <;> cases h

theorem Folding.origin_of_value {op : Operator} {whole : Bool} {a b c : Constant}
    (h : (ofOperation op whole a b).value.getD none = some c) : Origin op a b c := by
  unfold ofOperation at h
  split at h
  next f hf =>
    have hvalue : f.value = some (some c) := by
      cases hf : f.value with
      | none => simp [hf] at h
      | some value => simpa [hf] using h
    exact (origin_of_attempt hf hvalue).1
  next => cases h

/-- An operation that has got a type and a value has operands with both, and its value comes of
theirs. -/
theorem Expr.of_operationMark {op : Operator} {left right : Expr} {old : Option Ty} {ty : Ty}
    {c : Constant} (hty : (operationMark op left right ⟨old, none⟩).ty = some ty)
    (hc : (operationMark op left right ⟨old, none⟩).value = some c) :
    ∃ l r a b, left.site.mark = ⟨some l, some a⟩ ∧ right.site.mark = ⟨some r, some b⟩ ∧
      op.resultType? l r = some ty ∧ Folding.Origin op a b c := by
  cases hleft : left.value with
  | none => simp [operationMark, hleft] at hc
  | some a =>
    cases hright : right.value with
    | none => simp [operationMark, hleft, hright] at hc
    | some b =>
      simp only [operationMark, hleft, hright] at hty hc
      obtain ⟨l, hl, hty⟩ := Option.bind_eq_some_iff.mp hty
      obtain ⟨r, hr, hty⟩ := Option.bind_eq_some_iff.mp hty
      exact ⟨l, r, a,
        b, by simp [site, hl, hleft], by simp [site, hr, hright], hty, Folding.origin_of_value hc⟩

/-! ## Marks -/

theorem Ty.accepts_cases {target source : Ty} (h : target.accepts source = true) :
    source = target ∨ (target = .dec ∧ source = .ent) := by
  cases target <;> cases source <;> simp_all [accepts]

namespace Mark

/-- If the type and the value are known, the value is of the kind of the type. -/
def Fits (k : Mark) : Prop := ∀ ty ∈ k.ty, ∀ c ∈ k.value, c.fits ty = true

/-- If the type is that of integers and the value is known, the value is an integer. -/
def Whole (k : Mark) : Prop := k.ty = some .ent → ∀ c ∈ k.value, c.isInteger = true

instance (k : Mark) : Decidable k.Whole :=
  inferInstanceAs (Decidable (k.ty = some .ent → ∀ c ∈ k.value, c.isInteger = true))

theorem lasting_fits : Lasting Fits := by
  refine ⟨fun ty => by simp [Fits], fun ty source value haccepts h => ?_⟩
  rintro _ ⟨⟩ c hc
  have hsource := h source rfl c hc
  rcases Ty.accepts_cases haccepts with rfl | ⟨rfl, rfl⟩
  · exact hsource
  · rwa [Constant.fits_of_isNumeric rfl] at hsource

theorem lasting_whole : Lasting Whole := by
  refine ⟨fun ty => by simp [Whole], fun ty source value haccepts h => ?_⟩
  rintro ⟨⟩
  rcases Ty.accepts_cases haccepts with rfl | ⟨⟨⟩, -⟩
  exact h rfl

end Mark

namespace Expr

variable {op : Operator} {left right : Expr} {ty : Option Ty}

theorem fits_operationMark (hleft : left.site.mark.Fits) (hright : right.site.mark.Fits) :
    (operationMark op left right ⟨ty, none⟩).Fits := by
  intro ty hty c hc
  obtain ⟨l, r, a, b, hl, hr, hresult, horigin⟩ := of_operationMark hty hc
  rw [hl] at hleft
  rw [hr] at hright
  have ha : a.fits l = true := hleft l rfl a rfl
  have hb : b.fits r = true := hright r rfl b rfl
  rcases horigin with ⟨-, happly⟩ | ⟨rfl, q, hquotient, hsettled⟩
  · exact Constant.fits_of_apply hresult ha hb happly
  · have hq : q.fits ty = true := Constant.fits_of_apply hresult ha hb hquotient
    rcases hsettled with rfl | hsettled
    · exact hq
    · rcases Operator.arithmetic_cases rfl hresult with ⟨-, -, hnumeric⟩ | ⟨⟨⟩, -⟩
      rw [Constant.fits_of_isNumeric hnumeric] at hq ⊢
      exact Constant.fits_of_settled hq hsettled

/-- An operation other than a quotient on integers is an integer, if it has the integer type. -/
theorem whole_operationMark (hdiv : op ≠ .div) (hleft : left.site.mark.Whole)
    (hright : right.site.mark.Whole) :
    (operationMark op left right ⟨ty, none⟩).Whole := by
  intro hty c hc
  obtain ⟨l, r, a, b, hl, hr, hresult, horigin⟩ := of_operationMark hty hc
  obtain ⟨hfamily, rfl, rfl⟩ := Operator.of_resultType?_ent hresult
  rw [hl] at hleft
  rw [hr] at hright
  obtain ⟨m, rfl⟩ := Constant.exists_integer_of_isInteger (hleft rfl a rfl)
  obtain ⟨n, rfl⟩ := Constant.exists_integer_of_isInteger (hright rfl b rfl)
  rcases horigin with ⟨-, happly⟩ | ⟨hop, -⟩
  · exact Constant.isInteger_of_apply hfamily hdiv happly
  · exact absurd hop hdiv

end Expr

theorem Site.Initial.fits {site : Site} (h : site.Initial) : site.mark.Fits := by
  rintro ty hty c hc
  cases h with
  | unvalued => cases hc
  | @number n =>
    obtain rfl := Option.some.inj hty
    obtain rfl := Option.some.inj hc
    have hnumeric : n.literalType.isNumeric = true := by
      unfold Constant.Number.literalType
      split
      next => rfl
      next => split <;> rfl
    rw [Constant.fits_of_isNumeric hnumeric]
    exact Constant.fits_toConstant n
  | text =>
    obtain rfl := Option.some.inj hty
    obtain rfl := Option.some.inj hc
    rfl

/-! ## Tables -/

/-- In the tables of some moments all variables have a property. -/
def Moment.Records (R : Mark → Prop) (ms : List Moment) : Prop :=
  ∀ t, .table t ∈ ms → ∀ symbol ∈ t.entries, R symbol.mark

/-- A lasting property that the program has at first and that all operations get. -/
theorem Program.sound_records {p : Program} {R : Mark → Prop} (hR : Mark.Lasting R)
    (hfirst : ∀ site ∈ p.sites, R site.mark)
    (hop : ∀ (op : Operator) (left right : Expr) (ty : Option Ty),
      .mark ⟨.operation op, Expr.operationMark op left right ⟨ty, none⟩⟩ ∈ p.moments →
        R left.site.mark → R right.site.mark → R (Expr.operationMark op left right ⟨ty, none⟩)) :
    (p.account R (Moment.Records R)).Sound where
  lasting := hR
  first := hfirst
  nil := by simp [account, Moment.Records]
  append := by
    intro ms ms' h h' t ht
    exact (List.mem_append.mp ht).elim (h t) (h' t)
  mark := by simp [account, Moment.Records]
  table := by
    intro t h t' ht'
    obtain rfl : t' = t := by simpa using ht'
    exact h
  calculation := by simp [account, Moment.Records]
  operation := hop

/-- Sites that can bring a value of their own into the integer type: the literals and the quotients.
-/
def Site.Form.isSource : Site.Form → Bool
  | .literal | .operation .div => true
  | .name _ | .operation _ => false

section Reading

variable {p : Program}

theorem Program.sound_fits (hp : ∀ site ∈ p.sites, site.Initial) :
    (p.account Mark.Fits (Moment.Records Mark.Fits)).Sound :=
  sound_records Mark.lasting_fits (fun site hsite => (hp site hsite).fits)
    fun _ _ _ _ _ => Expr.fits_operationMark

/-- If the literals and the quotients of the integer type are integers, all values of that type are.
-/
theorem Program.sound_whole (hp : ∀ site ∈ p.sites, site.Initial)
    (hsource : ∀ site, site ∈ p.sites ∨ .mark site ∈ p.moments → site.form.isSource = true →
      site.mark.Whole) :
    (p.account Mark.Whole (Moment.Records Mark.Whole)).Sound := by
  refine sound_records Mark.lasting_whole (fun site hsite => ?_) fun op left right ty htold => ?_
  · have hform := hsource site (.inl hsite)
    cases hp site hsite with
    | unvalued => exact Mark.lasting_whole.unvalued _
    | number => exact hform rfl
    | text => exact hform rfl
  · by_cases hdiv : op = .div
    · subst hdiv
      exact fun _ _ => hsource _ (.inr htold) rfl
    · exact Expr.whole_operationMark hdiv

end Reading

namespace Session

/-- At every moment of the analysis of a program that was read, what a variable holds is of the kind
of its type, where the integer type counts decimals in. If no literal and no quotient of the integer
type is a decimal, the integer variables hold integers only. -/
theorem analyse_values_fit (s : Session) (code : String) (p : Program)
    (hread : (s.parse [] code).2.program = some p) :
    ∃ q, (s.parse [] code).2.analyse.2.2.program = some q ∧
      (∀ site ∈ q.sites, site ∈ p.sites ∨ .mark site ∈ p.moments) ∧
      (let table := (s.parse [] code).2.analyse.2.2.table
       table = .empty ∨ .table table ∈ p.moments) ∧
      (∀ t, .table t ∈ p.moments → ∀ symbol ∈ t.entries, ∀ c ∈ symbol.value,
        c.fits symbol.ty = true) ∧
      ((∀ site, site ∈ p.sites ∨ .mark site ∈ p.moments → site.form.isSource = true →
          site.mark.Whole) →
        ∀ t, .table t ∈ p.moments → ∀ symbol ∈ t.entries, symbol.ty = .ent →
          ∀ c ∈ symbol.value, c.isInteger = true) := by
  obtain ⟨log, hreading⟩ := reading_of_parse hread
  have hinitial := Reading.initial_sites hreading
  obtain ⟨hfits, hsites, htable⟩ := Reading.keeps_account hreading (p.sound_fits hinitial)
  refine ⟨_, (analyse_of_parse hread).2.1, fun site hsite => (hsites site hsite).told, ?_, ?_, ?_⟩
  · rw [table_of_parse hread]
    exact htable.told
  · intro t ht symbol hsymbol c hc
    exact hfits t ht symbol hsymbol _ rfl c hc
  · intro hsource t ht symbol hsymbol hty
    have hwhole := (Reading.keeps_account hreading (p.sound_whole hinitial hsource)).1
    exact hwhole t ht symbol hsymbol (congrArg some hty)

/-- A quotient without remainder is an integer, also in an integer variable and in a decimal one
after it. -/
theorem analyse_values_fit_exact_quotient :
    let code := "ent x ; dec d ; cadena s ; x = 8 / 2 ; d = x * 3 ; s = \"a\" + \"b\" ;"
    ∃ p q, (empty.parse [] code).2.program = some p ∧
      (empty.parse [] code).2.analyse.2.2.program = some q ∧
      (∀ site ∈ q.sites, site ∈ p.sites ∨ .mark site ∈ p.moments) ∧
      (let table := (empty.parse [] code).2.analyse.2.2.table
       table = .empty ∨ .table table ∈ p.moments) ∧
      (∀ t, .table t ∈ p.moments → ∀ symbol ∈ t.entries, ∀ c ∈ symbol.value,
        c.fits symbol.ty = true) ∧
      ∀ t, .table t ∈ p.moments → ∀ symbol ∈ t.entries, symbol.ty = .ent →
        ∀ c ∈ symbol.value, c.isInteger = true := by
  let name (text : String) (column : Nat) : Name := ⟨text, ⟨1, column⟩, .blank⟩
  let number (n : Nat) (column : Nat) : Expr := .number (.whole n) ⟨1, column⟩
  let p : Program := ⟨[.declaration .ent none [name "x" 5], .declaration .dec none [name "d" 13],
    .declaration .cadena none [name "s" 24],
    .statement (.assign (name "x" 28) (.operation .div (number 8 32) (number 2 36)) none),
    .statement (.assign (name "d" 40) (.operation .mul (.use (name "x" 44)) (number 3 48)) none),
    .statement (.assign (name "s" 52)
      (.operation .add (.text "a" ⟨1, 56⟩) (.text "b" ⟨1, 62⟩)) none)]⟩
  have hread : (empty.parse []
    "ent x ; dec d ; cadena s ; x = 8 / 2 ; d = x * 3 ; s = \"a\" + \"b\" ;").2.program =
    some p := rfl
  have hfirst : ∀ site ∈ p.sites, site.form.isSource = true → site.mark.Whole := by decide +kernel
  have htold : (p.moments.all fun
      | .mark site => decide (site.form.isSource = true → site.mark.Whole)
      | _ => true) = true := by
    decide +kernel
  have hsource (site : Site) (hsite : site ∈ p.sites ∨ .mark site ∈ p.moments) :
      site.form.isSource = true → site.mark.Whole :=
    hsite.elim (hfirst site) fun h => of_decide_eq_true (List.all_eq_true.mp htold (.mark site) h)
  obtain ⟨q, hprogram, hsites, htable, hfits, hwhole⟩ := analyse_values_fit empty _ p hread
  exact ⟨p, q, hread, hprogram, hsites, htable, hfits, hwhole hsource⟩

/-- An integer variable holds the decimal three and a half after a quotient with a remainder. -/
theorem analyse_halved_integer :
    let code := "ent x ; x = 7 / 2 ;"
    (empty.parse [] code).2.analyse.1 = .ok true ∧
      ∃ symbol ∈ (empty.parse [] code).2.analyse.2.2.table.entries, symbol.name = "x" ∧
      symbol.ty = .ent ∧
        ∃ d, symbol.value = some (.decimal d) ∧ d.toText = "3.5" := by
  let x (column : Nat) : Name := ⟨"x", ⟨1, column⟩, .blank⟩
  let number (n : Nat) (column : Nat) : Expr := .number (.whole n) ⟨1, column⟩
  let p : Program := ⟨[.declaration .ent none [x 5],
    .statement (.assign (x 9) (.operation .div (number 7 13) (number 2 17)) none)]⟩
  have hread : (empty.parse [] "ent x ; x = 7 / 2 ;").2.program = some p := rfl
  have hfaults : p.walk.faults.isEmpty = true := by decide +kernel
  have hresult := (analyse_of_parse hread).1
  rw [hfaults] at hresult
  refine ⟨hresult, ?_⟩
  rw [table_of_parse hread]
  let half : Double := .finite false 7881299347898368 (-51)
  have hsymbol : ⟨"x", .ent, some (.decimal half), ⟨1, 5⟩⟩ ∈ p.walk.table.entries := by
    decide +kernel
  exact ⟨_, hsymbol, rfl, rfl, half, rfl, by decide +kernel⟩

end Session

end Analizador
