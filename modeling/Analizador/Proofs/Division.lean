import Analizador.Proofs.Attribution.Operations
import Analizador.Proofs.Number.Quotients

/-! # Division of integers

A division of integers is meant to give an integer exactly if it leaves no remainder, and then the
quotient. The walk over a program and the walk over nodes both round the quotient to a double, so
the value is the right one exactly if rounding leaves it right. Up to 53 bits in the dividend this
is so unless the quotient is rounded to zero. -/

namespace Analizador

variable {a b : Int}

/-! ## Programs -/

namespace Expr

/-- The expression has the type of integers and the value `n`. -/
def IsInteger (e : Expr) (n : Int) : Prop := e.ty = some .ent ∧ e.value = some (.integer n)

theorem exact_operationMark (hb : b ≠ 0) {left right : Expr} (hleft : left.Shows)
    (hright : right.Shows) (ha : left.IsInteger a) (hb' : right.IsInteger b) (mark : Mark) :
    ExactQuotient a b (operationMark .div left right mark).value ↔ RoundsRight a b := by
  obtain ⟨hleftty, hleftvalue⟩ := ha
  obtain ⟨hrightty, hrightvalue⟩ := hb'
  obtain ⟨value, hvalue, hexact⟩ :=
    exists_exactQuotient_iff hb (shows_value hleft _ hleftvalue) (shows_value hright _ hrightvalue)
  have hmark : (operationMark .div left right mark).value = value := by
    simp only [operationMark, hleftvalue, hrightvalue, hleftty, hrightty, decide_true,
      Bool.and_self, hvalue, Option.getD_some]
  rw [hmark]
  exact hexact

end Expr

/-! ## Nodes -/

/-- The integer that a datum is. -/
def Datum.integer? : Datum → Option Int
  | constant (.integer n) => some n
  | _ => Option.none

theorem Datum.eq_ofInt {d : Datum} {n : Int} (h : d.integer? = some n) : d = .ofInt n := by
  unfold integer? at h
  split at h
  next => exact congrArg Datum.ofInt (Option.some.inj h)
  next => cases h

namespace Assembled.Term

/-- The node has the type of integers and the value `n`. -/
def IsInteger (t : Term) (g : Graph) (n : Int) : Prop :=
  t.isWhole g = true ∧ (t.value g).integer? = some n

instance (t : Term) (g : Graph) (n : Int) : Decidable (t.IsInteger g n) :=
  inferInstanceAs (Decidable (_ ∧ _))

theorem outcome_constant {op : String} {sign : Operator} (hop : Operator.ofSign? op = some sign)
    (whole : Bool) (x y : Constant) : outcome op whole (.constant x) (.constant y) =
      (Folding.ofOperation sign whole x y).value.map Datum.ofConstant? := by
  unfold outcome Folding.ofOperation
  simp only [hop, Operator.calculate]
  cases Folding.attempt sign whole x y with
  | ok folding => rfl
  | error f => rfl

theorem exact_valued (hb : b ≠ 0) {g : Graph} {id : Nat} {ty : Option String} {line column : Datum}
    {left right : Term} (h : Valued g (operation id "/" ty line column left right))
    (ha : left.IsInteger g a) (hb' : right.IsInteger g b) :
    ∃ value, g.attr? (.node .binary id) "value" = some (.ofConstant? value) ∧
      (ExactQuotient a b value ↔ RoundsRight a b) := by
  obtain ⟨hleftty, hleftvalue⟩ := ha
  obtain ⟨hrightty, hrightvalue⟩ := hb'
  obtain ⟨⟨hleft, hright⟩, hknown⟩ := h
  rw [Printed, Datum.eq_ofInt hleftvalue] at hleft
  rw [Printed, Datum.eq_ofInt hrightvalue] at hright
  obtain ⟨value, hvalue, hexact⟩ :=
    exists_exactQuotient_iff hb (Datum.prints_constant_iff.mp hleft)
      (Datum.prints_constant_iff.mp hright)
  refine ⟨value, ?_, hexact⟩
  rw [Datum.eq_ofInt hleftvalue, Datum.eq_ofInt hrightvalue] at hknown
  apply hknown rfl rfl
  have hsign : Operator.ofSign? "/" = some .div := rfl
  rw [hleftty, hrightty, Datum.ofInt, Datum.ofInt, outcome_constant hsign, Bool.and_self, hvalue]
  rfl

end Assembled.Term

/-! ## Both walks -/

/-- If the operands of a division get the type of integers and the values `a` and `b`, where `b` is
not zero, the value of the division is the right one exactly if rounding leaves the quotient right.
The walk over a program ends. The walk over nodes fails only if it comes to an integer that is too
long to be printed. -/
theorem division_exact_iff (hb : b ≠ 0) :
    (∀ (s : Findings) (left right : Expr) (mark : Mark), s.table.Shows →
      (Expr.binary .div left right mark).Shows →
      ∃ left' right' mark' s',
        (Analysis.expr (.binary .div left right mark)).run s =
          (.ok (.binary .div left' right' mark'), s') ∧
        (left'.IsInteger a → right'.IsInteger b →
        (ExactQuotient a b mark'.value ↔ RoundsRight a b))) ∧
    (∀ (w : Workshop) (l : Ledger) (id : Nat) (ty : Option String) (line column : Datum)
      (left right : Assembled.Term),
      let t := Assembled.Term.operation id "/" ty line column left right
      t.In w.table w.graph → w.ledger = some l →
        (∀ f v, (Walk.visit .checking t.node).perform w = (.error f, v) →
          f = .longInteger ∧ ¬ t.Legible w.table w.graph) ∧
        ∀ d v, (Walk.visit .checking t.node).perform w = (.ok d, v) → left.IsInteger v.graph a →
          right.IsInteger v.graph b → ∃ value, v.graph.attr? t.node "value" = some
            (.ofConstant? value) ∧ (ExactQuotient a b value ↔ RoundsRight a b)) ∧
    (|a| ≤ 2 ^ 53 → (RoundsRight a b ↔ a = 0 ∨ |b| < |a| * 2 ^ 1075)) := by
  refine ⟨?_, ?_, roundsRight_iff hb⟩
  · intro s left right mark ht he
    obtain ⟨log, hrun⟩ := Analysis.gives_expr ht he s rfl rfl
    refine ⟨_, _, _, _, hrun, ?_⟩
    intro ha hb'
    exact Expr.exact_operationMark hb (Expr.shows_marked ht he.1)
      (Expr.shows_marked ht he.2.1) ha hb' mark
  · intro w l id ty line column left right t hin hledger
    have hvisit := Assembled.Term.leads_visit hin hledger
    refine ⟨fun f v hperform => hvisit.of_failure hperform, ?_⟩
    intro d v hperform ha hb'
    exact Assembled.Term.exact_valued hb (hvisit.of_perform hperform).valued ha hb'

/-! The largest odd dividend of 53 bits cannot be halved. The next odd one can, since its half is
rounded. -/

/-- The dividend, two and their quotient as nodes. -/
def halving : Assembled.Term :=
  .operation 0 "/" none (.ofInt 1) (.ofInt 18) (.leaf .number 1 (some "ent"))
    (.leaf .number 2 (some "ent"))

/-- A workshop with these nodes. -/
def halvingWorkshop : Workshop where
  graph := ⟨#[
    ⟨.binary, [("line", .ofInt 1), ("column", .ofInt 18), ("operator", .ofText "/"),
      ("left", .node .number 1),
      ("right", .node .number 2), ("type", .none), ("value", .none)]⟩,
    ⟨.number, [("value", .ofInt 9007199254740991), ("type", .ofText "ent")]⟩,
    ⟨.number, [("value", .ofInt 2), ("type", .ofText "ent")]⟩], 0⟩
  table := .empty
  ledger := some .empty
  declared := []
  log := []

theorem in_halvingWorkshop : halving.In halvingWorkshop.table halvingWorkshop.graph := by
  exact .operation ⟨rfl, rfl, rfl, rfl, rfl, rfl⟩ (.leaf ⟨rfl, .ofInt 9007199254740991, rfl⟩)
    (.leaf ⟨rfl, .ofInt 2, rfl⟩) (by decide)

theorem division_exact_iff_halved :
    let dividend : Int := 9007199254740991
    (∃ left right mark s,
      (Analysis.expr (.binary .div (.number (.whole dividend) ⟨1, 1⟩) (.number (.whole 2) ⟨1, 20⟩)
        .blank)).run Analysis.start = (.ok (.binary .div left right mark), s) ∧
      left.IsInteger dividend ∧ right.IsInteger 2 ∧ ExactQuotient dividend 2 mark.value) ∧
    halving.In halvingWorkshop.table halvingWorkshop.graph ∧
    ∃ d v value, (Walk.visit .checking halving.node).perform halvingWorkshop = (.ok d, v) ∧
      v.graph.attr? halving.node "value" = some (.ofConstant? value) ∧
      ExactQuotient dividend 2 value := by
  intro dividend
  have hdivision := division_exact_iff (a := dividend) (b := 2) (by decide)
  have hright : RoundsRight dividend 2 := by
    apply (hdivision.2.2 (by decide)).mpr
    have hpower : (1 : Int) < 2 ^ 1075 := one_lt_pow₀ one_lt_two (by decide)
    exact .inr (lt_trans (by decide) (lt_mul_of_one_lt_right (by decide) hpower))
  refine ⟨?_, in_halvingWorkshop, ?_⟩
  · have htable : Analysis.start.table.Shows :=
      fun s hs => absurd hs (by simp [Analysis.start, Table.empty])
    have hshows : (Expr.binary .div (.number (.whole dividend) ⟨1, 1⟩) (.number (.whole 2) ⟨1, 20⟩)
        .blank).Shows := ⟨Constant.shows_integer (by decide +kernel),
        Constant.shows_integer (by decide +kernel), fun _ hc => by cases hc⟩
    obtain ⟨left, right, mark, s, hrun, hexact⟩ := hdivision.1 Analysis.start _ _ _ htable hshows
    obtain ⟨log, hgives⟩ := Analysis.gives_expr htable hshows Analysis.start rfl rfl
    have hmarked := Except.ok.inj (congrArg Prod.fst (hgives.symm.trans hrun))
    rw [Expr.marked] at hmarked
    obtain ⟨-, rfl, rfl, -⟩ := Expr.binary.inj hmarked
    exact ⟨_, _, mark, s, hrun, ⟨rfl, rfl⟩, ⟨rfl, rfl⟩, (hexact ⟨rfl, rfl⟩ ⟨rfl, rfl⟩).mpr hright⟩
  · have hok : ((Walk.visit .checking halving.node).perform halvingWorkshop).1.isOk = true := by
      decide +kernel
    have hleft : (Assembled.Term.leaf .number 1 (some "ent")).IsInteger
        ((Walk.visit .checking halving.node).perform halvingWorkshop).2.graph dividend := by
          decide +kernel
    have hright' : (Assembled.Term.leaf .number 2 (some "ent")).IsInteger
        ((Walk.visit .checking halving.node).perform halvingWorkshop).2.graph 2 := by decide +kernel
    generalize hperform : (Walk.visit .checking halving.node).perform halvingWorkshop =
      run at hok hleft hright'
    obtain ⟨result, v⟩ := run
    cases result with
    | error f => cases hok
    | ok d =>
      obtain ⟨-, hvalue⟩ :=
        hdivision.2.1 halvingWorkshop .empty 0 none _ _ _ _ in_halvingWorkshop rfl
      obtain ⟨value, hattr, hexact⟩ := hvalue d v hperform hleft hright'
      exact ⟨d, v, value, rfl, hattr, hexact.mpr hright⟩

/-- Beyond 53 bits a quotient may be another integer, and there may be an integer in spite of a
remainder. -/
theorem Session.analyse_inexact_quotients :
    let value (code : String) :=
  ((empty.parse [] code).2.analyse.2.2.table.lookup "x").bind Symbol.value
    value "ent x ; x = 9007199254740993 / 1 ;" = some (.integer 9007199254740992) ∧
      ¬ ExactQuotient 9007199254740993 1 (some (.integer 9007199254740992)) ∧
      value "ent x ; x = 9007199254740993 / 2 ;" = some (.integer 4503599627370496) ∧
      ¬ ExactQuotient 9007199254740993 2 (some (.integer 4503599627370496)) := by
  refine ⟨by decide +kernel, ?_, by decide +kernel, ?_⟩
  · intro hexact
    exact absurd (hexact.2 _ rfl) (by decide)
  · intro hexact
    exact absurd (hexact.2 _ rfl) (by decide)

end Analizador
