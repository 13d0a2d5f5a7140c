import Analizador.Proofs.Analysis.Verdict
import Analizador.Proofs.Table.Flat

/-! # The moments of an analysis

The analysis tells every mark and every table that it makes. An account says what has to hold of
them. If it is sound, every step keeps it: one rule for each small step, and one for each part of a
program, up to whole programs that were read. -/

namespace Analizador

/-! ## Sites -/

namespace Expr

/-- The form of the topmost site of an expression. -/
def form : Expr → Site.Form
  | number .. | text .. => .literal
  | use name => .name name.text
  | binary op .. => .operation op

/-- The topmost site of an expression. -/
def site (e : Expr) : Site := ⟨e.form, ⟨e.ty, e.value⟩⟩

/-- The sites of an expression. -/
def sites : Expr → List Site
  | binary op left right mark => ⟨.operation op, mark⟩ :: (left.sites ++ right.sites)
  | e => [e.site]

/-- An expression is one of its own sites. -/
theorem site_mem_sites (e : Expr) : e.site ∈ e.sites := by
  cases e <;> exact List.mem_cons_self

end Expr

mutual

/-- The sites of a statement. -/
def Stmt.sites : Stmt → List Site
  | .assign target value _ => target.site :: value.sites
  | .conditional condition body other => condition.sites ++ (sitesAll body ++ sitesOther other)
  | .whileLoop condition body => condition.sites ++ sitesAll body
  | .repeatLoop count spot body => (Expr.number (.whole count) spot).sites ++ sitesAll body
  | .print value => value.sites
  | .input target => [target.site]
  | .block body => sitesAll body
termination_by structural s => s

/-- The sites of the second block of a conditional. -/
def Stmt.sitesOther : Option (List Stmt) → List Site
  | none => []
  | some body => sitesAll body
termination_by structural other => other

/-- The sites of some statements. -/
def Stmt.sitesAll : List Stmt → List Site
  | [] => []
  | s :: rest => s.sites ++ sitesAll rest
termination_by structural body => body

end

/-- The sites of an item. -/
def Item.sites : Item → List Site
  | .declaration _ _ names => names.map Name.site
  | .statement s => s.sites

/-- The sites of a program. -/
def Program.sites (p : Program) : List Site := p.items.flatMap Item.sites

/-- The sites of a program before its analysis: nothing has a value but the literals. -/
inductive Site.Initial : Site → Prop where
  | unvalued {form ty} : Initial ⟨form, ⟨ty, none⟩⟩
  | number {n : Constant.Number} (hshows : n.toConstant.Shows) :
      Initial ⟨.literal, ⟨some n.literalType, some n.toConstant⟩⟩
  | text {s} : Initial ⟨.literal, ⟨some .cadena, some (.text s)⟩⟩

/-- Only literals have a value from the start. -/
theorem Site.Initial.value_eq {site : Site} (h : site.Initial) (hform : site.form ≠ .literal) :
    site.mark.value = none := by
  cases h with
  | unvalued => rfl
  | number => exact absurd rfl hform
  | text => exact absurd rfl hform

/-- What is known about a variable. -/
def Symbol.mark (s : Symbol) : Mark := ⟨some s.ty, s.value⟩

/-- A property of marks that a mark without value has and that a variable takes over from a value
that it accepts. -/
structure Mark.Lasting (R : Mark → Prop) : Prop where
  unvalued : ∀ ty, R ⟨ty, none⟩
  accepted : ∀ (ty source : Ty) (value : Option Constant), ty.accepts source = true →
    R ⟨some source, value⟩ → R ⟨some ty, value⟩

namespace Analysis

variable {α β : Type} {s s' : Findings}

/-! ## Moments of steps -/

/-- The moments of two steps are those of the first and then those of the second. -/
theorem moments_bind {step : Analysis α} {next : α → Analysis β} {a : α}
    (h : step.run s = (.ok a, s')) :
    (step >>= next).moments s = step.moments s ++ (next a).moments s' := by
  have hbind : (step >>= next).moments s = step.moments s ++
      (ExceptT.bindCont next (step.run s).1 (step.run s).2).trace := rfl
  rw [hbind, h]
  rfl

/-- Where the first step fails, its moments are all. -/
theorem moments_bind_error {step : Analysis α} (next : α → Analysis β) {f : Failure}
    (h : step.run s = (.error f, s')) :
    (step >>= next).moments s = step.moments s ∧ (step >>= next).run s = (.error f, s') := by
  have hbind : (step >>= next).moments s = step.moments s ++
      (ExceptT.bindCont next (step.run s).1 (step.run s).2).trace := rfl
  have hrun : (step >>= next).run s =
      (ExceptT.bindCont next (step.run s).1 (step.run s).2).value := rfl
  rw [hbind, hrun, h]
  exact ⟨List.append_nil _, rfl⟩

/-- The moments and the outcome of a calculation. -/
theorem moments_calculate (op : Operator) (whole : Bool) (a b : Constant) (mark : Mark) :
    let value := (Folding.ofOperation op whole a b).value.getD mark.value
    (calculate op whole a b mark).moments s =
        (Folding.trials op whole a b).map (.trial op) ++
          [.mark ⟨.operation op, { mark with value }⟩] ∧
      ∃ s', s'.table = s.table ∧
        (calculate op whole a b mark).run s = (.ok { mark with value }, s') := by
  have htrials (trials : List Constant) :
      (trials.forM fun c => note (.trial op c)).moments s = trials.map (.trial op) ∧
        (trials.forM fun c => note (.trial op c)).run s = (.ok (), s) := by
    induction trials with
    | nil => exact ⟨rfl, rfl⟩
    | cons c trials ih =>
      have hnote : (note (.trial op c)).run s = (.ok (), s) := rfl
      exact ⟨(moments_bind hnote).trans (congrArg _ ih.1), (run_bind hnote).trans ih.2⟩
  have hlines (lines : List String) : ∀ s : Findings, (lines.forM say).moments s = [] ∧
      ∃ s' : Findings, s'.table = s.table ∧ (lines.forM say).run s = (.ok (), s') := by
    induction lines with
    | nil => exact fun s => ⟨rfl, s, rfl, rfl⟩
    | cons line lines ih =>
      intro s
      obtain ⟨hmoments, s', htable, hrun⟩ := ih { s with log := s.log ++ [line] }
      have hsay : (say line).run s = (.ok (), { s with log := s.log ++ [line] }) := rfl
      exact ⟨(moments_bind hsay).trans hmoments, s', htable, (run_bind hsay).trans hrun⟩
  intro value
  obtain ⟨hmoments, hrun⟩ := htrials (Folding.trials op whole a b)
  obtain ⟨hquiet, s', htable, hrun'⟩ := hlines (Folding.ofOperation op whole a b).lines s
  rw [calculate, moments_bind hrun, moments_bind hrun', run_bind hrun, run_bind hrun', hmoments,
    hquiet]
  exact ⟨rfl, s', htable, rfl⟩

/-! ## Accounts -/

/-- What is to hold of an analysis with the given sites at first and the given moments: of the marks
of sites that are walked and of variables, and of the moments that are told. -/
structure Account where
  settled : Mark → Prop
  tells : List Moment → Prop
  first : List Site
  all : List Moment

namespace Account

/-- An account that every small step of the analysis keeps. -/
structure Sound (A : Account) : Prop where
  lasting : Mark.Lasting A.settled
  first : ∀ site ∈ A.first, A.settled site.mark
  nil : A.tells []
  append : ∀ {ms ms' : List Moment}, A.tells ms → A.tells ms' → A.tells (ms ++ ms')
  mark : ∀ site : Site, A.settled site.mark → A.tells [.mark site]
  table : ∀ t : Table String Symbol, (∀ s ∈ t.entries, A.settled s.mark) → A.tells [.table t]
  calculation : ∀ (op : Operator) (left right : Expr) (a b : Constant) (ty : Option Ty)
    (whole : Bool), A.settled left.site.mark → A.settled right.site.mark → left.value = some a →
      right.value = some b →
      A.tells ((Folding.trials op whole a b).map (.trial op) ++
        [.mark ⟨.operation op, ⟨ty, (Folding.ofOperation op whole a b).value.getD none⟩⟩])
  operation : ∀ (op : Operator) (left right : Expr) (ty : Option Ty),
    .mark ⟨.operation op, Expr.operationMark op left right ⟨ty, none⟩⟩ ∈ A.all →
      A.settled left.site.mark → A.settled right.site.mark →
      A.settled (Expr.operationMark op left right ⟨ty, none⟩)

variable (A : Account)

/-- A site of the given form was there at first. -/
def Formed (form : Site.Form) : Prop := ∃ site ∈ A.first, site.form = form

/-- A site that is settled, and that was there at first or was told with its form unchanged. -/
structure Knows (site : Site) : Prop where
  settled : A.settled site.mark
  told : site ∈ A.first ∨ .mark site ∈ A.all
  formed : A.Formed site.form

/-- A table of settled variables that was there at first or was told. -/
structure Covers (t : Table String Symbol) : Prop where
  symbols : ∀ s ∈ t.entries, A.settled s.mark
  flat : t.Flat
  told : t = .empty ∨ .table t ∈ A.all

/-- A table that is covered, with the given scopes. -/
structure Inside (scope : Bindings String) (outer : List (Bindings String))
    (t : Table String Symbol) : Prop extends A.Covers t where
  scope : t.scope = scope
  outer : t.outer = outer

/-- From a table of which `I` holds, a step whose moments are all in the account tells what it
should. If it ends, `J` holds of its answer and of the table after it. -/
def Keeps (I : Table String Symbol → Prop) (step : Analysis α)
    (J : α → Table String Symbol → Prop) : Prop :=
  ∀ s : Findings, I s.table → (∀ m ∈ step.moments s, m ∈ A.all) →
    A.tells (step.moments s) ∧ ∀ a s', step.run s = (.ok a, s') → J a s'.table

variable {A} {I : Table String Symbol → Prop} {J : α → Table String Symbol → Prop}
  {K : β → Table String Symbol → Prop} {scope : Bindings String} {outer : List (Bindings String)}

/-- What follows a step may rest on less. -/
theorem Keeps.mono {step : Analysis α} {J' : α → Table String Symbol → Prop}
    (hstep : A.Keeps I step J) (h : ∀ a t, J a t → J' a t) : A.Keeps I step J' :=
  fun s hs hall => ⟨(hstep s hs hall).1, fun a s' hrun => h a _ ((hstep s hs hall).2 a s' hrun)⟩

/-- What does not speak of the table may be known beforehand. -/
theorem Keeps.of_and {P : Prop} {step : Analysis α} (h : P → A.Keeps I step J) :
    A.Keeps (fun t => P ∧ I t) step J :=
  fun s hs hall => h hs.1 s hs.2 hall

/-- A step may look at the findings. -/
theorem Keeps.get_bind {next : Findings → Analysis β}
    (hnext : ∀ s : Findings, I s.table → A.Keeps (· = s.table) (next s) K) :
    A.Keeps I (get >>= next) K :=
  fun s hs hall => hnext s hs s rfl hall

section Rules

variable (hA : A.Sound)

include hA

theorem keeps_pure {a : α} (h : ∀ t, I t → J a t) : A.Keeps I (pure a) J := by
  intro s hs _
  refine ⟨hA.nil, fun b s' hrun => ?_⟩
  cases hrun
  exact h _ hs

/-- Invariants handed on from step to step. -/
theorem Keeps.bind {step : Analysis α} {next : α → Analysis β} (hstep : A.Keeps I step J)
    (hnext : ∀ a, A.Keeps (J a) (next a) K) : A.Keeps I (step >>= next) K := by
  intro s hs hall
  cases hrun : step.run s with
  | mk outcome s₁ =>
    cases outcome with
    | error f =>
      obtain ⟨hmoments, hbind⟩ := moments_bind_error next hrun
      rw [hmoments] at hall ⊢
      refine ⟨(hstep s hs hall).1, fun b s' hrun' => ?_⟩
      rw [hbind] at hrun'
      cases hrun'
    | ok a =>
      rw [moments_bind hrun] at hall ⊢
      obtain ⟨hfirst, hsecond⟩ := List.forall_mem_append.mp hall
      obtain ⟨htells, hJ⟩ := hstep s hs hfirst
      obtain ⟨htells', hK⟩ := hnext a s₁ (hJ a s₁ hrun) hsecond
      refine ⟨hA.append htells htells', fun b s' hrun' => hK b s' ?_⟩
      rwa [← run_bind hrun]

theorem Keeps.map {step : Analysis α} {f : α → β} (hstep : A.Keeps I step J)
    (h : ∀ a t, J a t → K (f a) t) : A.Keeps I (do return f (← step)) K :=
  hstep.bind hA fun a => keeps_pure hA (h a)

theorem keeps_say (message : String) : A.Keeps I (say message) fun _ => I := by
  intro s hs _
  refine ⟨hA.nil, fun b s' hrun => ?_⟩
  cases hrun
  exact hs

theorem keeps_report (f : Fault) : A.Keeps I (report f) fun _ => I := by
  intro s hs _
  refine ⟨hA.nil, fun b s' hrun => ?_⟩
  cases hrun
  exact hs

theorem keeps_enroll (name : String) :
    A.Keeps I (modify fun s => { s with declared := s.declared ++ [name] }) fun _ => I := by
  intro s hs _
  refine ⟨hA.nil, fun b s' hrun => ?_⟩
  cases hrun
  exact hs

theorem keeps_lift (x : Except Failure α) : A.Keeps I (liftM x) fun _ => I := by
  intro s hs _
  refine ⟨hA.nil, fun a s' hrun => ?_⟩
  cases hrun
  exact hs

theorem Keeps.say_bind {next : Unit → Analysis β} (message : String)
    (hnext : A.Keeps I (next ()) K) : A.Keeps I (say message >>= next) K :=
  (keeps_say hA message).bind hA fun _ => hnext

theorem Keeps.lift_bind {x : Except Failure α} {next : α → Analysis β}
    (hnext : ∀ a, A.Keeps I (next a) K) : A.Keeps I (liftM x >>= next) K :=
  (keeps_lift hA x).bind hA hnext

/-- A loop that only logs. -/
theorem keeps_forIn {γ : Type} (xs : List γ) {body : γ → Unit → Analysis (ForInStep Unit)}
    (hbody : ∀ x, A.Keeps I (body x ()) fun r t => r = .yield () ∧ I t) :
    A.Keeps I (forIn xs () body) fun _ => I := by
  induction xs with
  | nil => exact keeps_pure hA fun _ ht => ht
  | cons x xs ih =>
    rw [List.forIn_cons]
    refine (hbody x).bind hA fun r => ?_
    intro s hs
    obtain ⟨rfl, hs⟩ := hs
    exact ih s hs

/-! ## Marks and tables -/

/-- A mark of a name that is settled is a moment that is known. -/
theorem Keeps.markName_bind {n : Name} {mark : Mark} {next : Name → Analysis β}
    (h : A.settled mark) (hformed : A.Formed (.name n.text))
    (hnext : A.Knows ⟨.name n.text, mark⟩ → A.Keeps I (next { n with mark }) K) :
    A.Keeps I (markName n mark >>= next) K := by
  have hmark : A.Keeps I (markName n mark)
      fun n' t => (n' = { n with mark } ∧ A.Knows ⟨.name n.text, mark⟩) ∧ I t := by
    intro s hs hall
    refine ⟨hA.mark ⟨.name n.text, mark⟩ h, fun n' s' hrun => ?_⟩
    cases hrun
    exact ⟨⟨rfl, h, .inr (hall _ List.mem_cons_self), hformed⟩, hs⟩
  refine hmark.bind hA fun n' => .of_and ?_
  rintro ⟨rfl, hknows⟩
  exact hnext hknows

/-- A mark of an operation is known once it is settled. -/
theorem keeps_markOperation {op : Operator} {mark : Mark} (hformed : A.Formed (.operation op))
    (h : .mark ⟨.operation op, mark⟩ ∈ A.all → A.settled mark) :
    A.Keeps I (markOperation op mark) fun mark' t => A.Knows ⟨.operation op, mark'⟩ ∧ I t := by
  intro s hs hall
  have htold : .mark ⟨.operation op, mark⟩ ∈ A.all := hall _ List.mem_cons_self
  refine ⟨hA.mark ⟨.operation op, mark⟩ (h htold), fun mark' s' hrun => ?_⟩
  cases hrun
  exact ⟨⟨h htold, .inr htold, hformed⟩, hs⟩

/-- A change of the table that the invariant survives. -/
theorem keeps_turn {change : Table String Symbol → Table String Symbol}
    {J : Table String Symbol → Prop}
    (h : ∀ t, I t → .table (change t) ∈ A.all → A.Covers (change t) ∧ J (change t)) :
    A.Keeps I (turn change) fun _ => J := by
  intro s hs hall
  obtain ⟨hcovers, hJ⟩ := h s.table hs (hall _ List.mem_cons_self)
  refine ⟨hA.table _ hcovers.symbols, fun _ s' hrun => ?_⟩
  cases hrun
  exact hJ

end Rules

/-- What is looked up in a covered table is settled. -/
theorem Covers.mark_of_lookup {t : Table String Symbol} (h : A.Covers t) {name : String}
    {symbol : Symbol} (hlookup : t.lookup name = some symbol) : A.settled symbol.mark :=
  h.symbols symbol (Table.mem_of_lookup hlookup)

/-- A new scope covers nothing new. -/
theorem Covers.enter {t : Table String Symbol} (h : A.Covers t) (htold : .table t.enter ∈ A.all) :
    A.Covers t.enter :=
  ⟨h.symbols, h.flat, .inr htold⟩

/-- Closing an empty scope loses nothing. -/
theorem Covers.exit {t : Table String Symbol} (h : A.Covers t) (hscope : t.scope = [])
    (htold : .table t.exit ∈ A.all) : A.Covers t.exit :=
  ⟨by simpa using h.symbols, h.flat.exit hscope, .inr htold⟩

/-- A settled change of an entry keeps the table covered within its scopes. -/
theorem Inside.modifyLocated {t : Table String Symbol} (h : A.Inside scope outer t) {name : String}
    {symbol : Symbol} {f : Symbol → Symbol} (hlookup : t.lookup name = some symbol)
    (hsettled : A.settled (f symbol).mark) (htold : .table (t.modifyLocated name f) ∈ A.all) :
    A.Inside scope outer (t.modifyLocated name f) := by
  have hsame := Table.sameBindings_modifyLocated t name f
  exact ⟨⟨Table.forall_modifyLocated_of_lookup hlookup h.symbols hsettled,
    h.flat.of_sameBindings hsame, .inr htold⟩, hsame.1.trans h.scope, hsame.2.1.trans h.outer⟩

/-! ## Expressions -/

/-- Sites that are there at first, as a program has them before its analysis. -/
def Awaits (A : Account) (site : Site) : Prop := site.Initial ∧ site ∈ A.first

section Expressions

variable (hA : A.Sound) (hI : ∀ t, I t → A.Covers t)

include hA

/-- A site that is awaited is known. -/
theorem Awaits.knows {site : Site} (h : A.Awaits site) : A.Knows site :=
  ⟨hA.first site h.2, .inl h.2, site, h.2, rfl⟩

/-- A name without value may get any type. -/
theorem Awaits.settled_type {n : Name} (h : A.Awaits n.site) (ty : Ty) :
    A.settled { n.mark with ty := some ty } := by
  have hvalue : n.mark.value = none := h.1.value_eq (by rintro ⟨⟩)
  obtain ⟨_, _, _, value⟩ := n
  obtain rfl : value = none := hvalue
  exact hA.lasting.unvalued _

theorem keeps_visitNumber (n : Constant.Number) : A.Keeps I (visitNumber n) fun _ => I :=
  .lift_bind hA fun _ => keeps_say hA _

/-- The value of a calculation is known from the values of its operands. -/
theorem keeps_calculate {op : Operator} {left right : Expr} {a b : Constant} {ty : Option Ty}
    (whole : Bool) (hleft : A.Knows left.site) (hright : A.Knows right.site)
    (ha : left.value = some a) (hb : right.value = some b) :
    A.Keeps I (calculate op whole a b ⟨ty, none⟩) fun mark t =>
      mark = ⟨ty, (Folding.ofOperation op whole a b).value.getD none⟩ ∧ I t := by
  intro s hs _
  obtain ⟨hmoments, s₁, htable, hrun₁⟩ := moments_calculate (s := s) op whole a b ⟨ty, none⟩
  rw [hmoments]
  refine ⟨hA.calculation op left right a b ty whole hleft.settled hright.settled ha hb,
    fun mark s' hrun => ?_⟩
  rw [hrun₁] at hrun
  cases hrun
  exact ⟨rfl, htable ▸ hs⟩

/-- An operation whose operands are known is known. -/
theorem keeps_operate {op : Operator} {left right : Expr} {mark : Mark}
    (hleft : A.Knows left.site) (hright : A.Knows right.site)
    (hmark : A.Awaits ⟨.operation op, mark⟩) :
    A.Keeps I (operate op left right mark) fun mark' t => A.Knows ⟨.operation op, mark'⟩ ∧ I t := by
  obtain ⟨ty, value⟩ := mark
  obtain rfl : value = none := hmark.1.value_eq (by rintro ⟨⟩)
  refine .lift_bind hA fun _ => .lift_bind hA fun _ => .say_bind hA _ ?_
  cases ha : left.value with
  | none => exact keeps_pure hA fun t ht => ⟨hmark.knows hA, ht⟩
  | some a =>
    cases hb : right.value with
    | none => exact keeps_pure hA fun t ht => ⟨hmark.knows hA, ht⟩
    | some b =>
      refine (keeps_calculate hA _ hleft hright ha hb).bind hA fun mark => .of_and ?_
      rintro rfl
      -- Whatever the types are, the last mark is the one that comes of the operands.
      have hformed := (hmark.knows hA).formed
      have hlast (h : _) := hA.operation op left right ty h hleft.settled hright.settled
      simp only [Expr.operationMark, ha, hb] at hlast
      generalize (Folding.ofOperation _ _ a b).value.getD none = value at hlast ⊢
      revert hlast
      cases left.ty with
      | none => exact fun hlast => keeps_markOperation hA hformed hlast
      | some l =>
        cases right.ty with
        | none => exact fun hlast => keeps_markOperation hA hformed hlast
        | some r =>
          simp only [Option.bind_eq_bind, Option.bind_some]
          cases op.resultType? l r with
          | none =>
            intro hlast
            exact (keeps_report hA _).bind hA fun _ => keeps_markOperation hA hformed hlast
          | some ty => exact fun hlast => keeps_markOperation hA hformed hlast

include hI

/-- A name that is found gets the type and the value of its variable. -/
theorem keeps_useName {n : Name} (hn : A.Awaits n.site) :
    A.Keeps I (useName n) fun n' t => A.Knows n'.site ∧ n'.text = n.text ∧
      (∀ symbol, t.lookup n.text = some symbol → n'.mark = symbol.mark) ∧ I t := by
  refine .say_bind hA _ (.get_bind fun s hs => ?_)
  cases hlookup : s.table.lookup n.text with
  | none =>
    refine (keeps_report hA _).bind hA fun _ => keeps_pure hA ?_
    rintro _ rfl
    exact ⟨hn.knows hA, rfl, by simp [hlookup], hs⟩
  | some symbol =>
    have hformed := (hn.knows hA).formed
    refine .markName_bind hA (hn.settled_type hA symbol.ty) hformed fun _ => ?_
    refine .markName_bind hA ((hI _ hs).mark_of_lookup hlookup) hformed fun hknows => ?_
    refine .say_bind hA _ (keeps_pure hA ?_)
    rintro _ rfl
    refine ⟨hknows, rfl, fun found hfound => ?_, hs⟩
    obtain rfl := Option.some.inj (hlookup.symm.trans hfound)
    rfl

/-- Walking an expression leaves sites that are known. -/
theorem keeps_expr {e : Expr} (he : ∀ site ∈ e.sites, A.Awaits site) :
    A.Keeps I (expr e) fun e' t => (∀ site ∈ e'.sites, A.Knows site) ∧ I t := by
  induction e with
  | number n spot =>
    refine (keeps_visitNumber hA n).bind hA fun _ => keeps_pure hA fun t ht => ⟨?_, ht⟩
    exact fun site hsite => (he site hsite).knows hA
  | text s spot =>
    refine .say_bind hA _ (keeps_pure hA fun t ht => ⟨?_, ht⟩)
    exact fun site hsite => (he site hsite).knows hA
  | use name =>
    refine (keeps_useName hA hI (he _ List.mem_cons_self)).map hA fun n t hn => ⟨?_, hn.2.2.2⟩
    exact List.forall_mem_singleton.mpr hn.1
  | binary op left right mark ihleft ihright =>
    obtain ⟨hmark, hoperands⟩ := List.forall_mem_cons.mp he
    obtain ⟨hleft, hright⟩ := List.forall_mem_append.mp hoperands
    refine .say_bind hA _ ((ihleft hleft).bind hA fun left' => .of_and fun hleft' => ?_)
    refine (ihright hright).bind hA fun right' => .of_and fun hright' => ?_
    have hoperate : A.Keeps I (operate op left' right' mark) _ := keeps_operate hA
      (hleft' _ left'.site_mem_sites) (hright' _ right'.site_mem_sites) hmark
    refine hoperate.map hA fun mark' t hmark' => ⟨?_, hmark'.2⟩
    exact List.forall_mem_cons.mpr ⟨hmark'.1, List.forall_mem_append.mpr ⟨hleft', hright'⟩⟩

omit hI in
/-- An input variable gets the type of its variable. -/
theorem keeps_input {n : Name} (hn : A.Awaits n.site) :
    A.Keeps I (input n) fun n' t => A.Knows n'.site ∧ I t := by
  refine .say_bind hA _ (.get_bind fun s hs => ?_)
  cases s.table.lookup n.text with
  | none =>
    refine (keeps_report hA _).bind hA fun _ => keeps_pure hA ?_
    rintro _ rfl
    exact ⟨hn.knows hA, hs⟩
  | some symbol =>
    dsimp only
    rw [← bind_pure (markName _ _)]
    refine .markName_bind hA (hn.settled_type hA symbol.ty) (hn.knows hA).formed fun hknows =>
      keeps_pure hA ?_
    rintro _ rfl
    exact ⟨hknows, hs⟩

end Expressions

/-! ## Statements -/

section Statements

variable (hA : A.Sound)

include hA

theorem keeps_guarded (guard : Guard) (condition : Expr) :
    A.Keeps I (guarded guard condition) fun _ => I := by
  unfold guarded
  split
  next => exact keeps_pure hA fun _ ht => ht
  next => exact keeps_pure hA fun _ ht => ht
  next => exact (keeps_report hA _).bind hA fun _ => keeps_pure hA fun _ ht => ht

theorem keeps_warnBareVariable (condition : Expr) :
    A.Keeps I (warnBareVariable condition) fun _ => I := by
  unfold warnBareVariable
  split
  next => exact keeps_say hA _
  next => exact keeps_pure hA fun _ ht => ht

theorem keeps_visitSentence : A.Keeps I visitSentence fun _ => I :=
  .say_bind hA _ (keeps_say hA _)

/-- The table of an assignment is covered in between and in the end. -/
theorem keeps_assign {target : Name} {value : Expr} {old : Option Ty}
    (htarget : A.Awaits target.site) (hvalue : A.Knows value.site) :
    A.Keeps (A.Inside scope outer) (assign target value old) fun r t =>
      A.Knows r.1.site ∧ A.Inside scope outer t := by
  refine (keeps_useName hA (fun _ ht => ht.toCovers) htarget).bind hA fun n => .of_and fun hn => ?_
  refine .of_and fun htext => .get_bind fun s hs => ?_
  obtain ⟨hmark, hs⟩ := hs
  rw [htext]
  cases hlookup : s.table.lookup target.text with
  | none =>
    refine (keeps_report hA _).bind hA fun _ => keeps_pure hA ?_
    rintro _ rfl
    exact ⟨hn, hs⟩
  | some symbol =>
    have hsymbol := hs.mark_of_lookup hlookup
    have htype : A.settled { n.mark with ty := some symbol.ty } := by
      rw [hmark symbol hlookup]
      exact hsymbol
    refine .markName_bind hA htype hn.formed fun hknows => ?_
    rw [htext] at hknows
    simp only [htext]
    split
    next =>
      refine keeps_pure hA ?_
      rintro _ rfl
      exact ⟨hknows, hs⟩
    next source hsource =>
      split
      next haccepts =>
        let change (s : Symbol) : Symbol := { s with value := value.value }
        have hchanged : A.settled (change symbol).mark := by
          refine hA.lasting.accepted symbol.ty source _ haccepts ?_
          rw [← hsource]
          exact hvalue.settled
        -- The entry is changed through the scope and then through the index, which is the same one.
        have hlocated : A.Keeps (· = s.table) (turn (·.modifyLocated target.text change)) fun _ t =>
            A.Inside scope outer t ∧ t.lookup target.text = some (change symbol) := by
          refine keeps_turn hA ?_
          rintro _ rfl htold
          have hinside := hs.modifyLocated hlookup hchanged htold
          exact ⟨hinside.toCovers, hinside, Table.lookup_modifyLocated hlookup⟩
        have hindexed : A.Keeps
            (fun t => A.Inside scope outer t ∧ t.lookup target.text = some (change symbol))
            (turn (·.modifyIndexed target.text change)) fun _ => A.Inside scope outer := by
          refine keeps_turn hA ?_
          rintro t ⟨ht, hfound⟩ htold
          rw [ht.flat.modifyIndexed_eq hfound] at htold ⊢
          have hinside := ht.modifyLocated (f := change) hfound hchanged htold
          exact ⟨hinside.toCovers, hinside⟩
        refine .lift_bind hA fun _ => .say_bind hA _ (hlocated.bind hA fun _ => ?_)
        refine .lift_bind hA fun _ => .say_bind hA _ (hindexed.bind hA fun _ => ?_)
        exact .say_bind hA _ (keeps_pure hA fun t ht => ⟨hknows, ht⟩)
      next =>
        refine (keeps_report hA _).bind hA fun _ => keeps_pure hA ?_
        rintro _ rfl
        exact ⟨hknows, hs⟩

/-- A block with a scope of its own leaves the scopes as they were. -/
theorem Keeps.inScope {step : Analysis α} {P : α → Prop}
    (hstep : A.Keeps (A.Inside [] (scope :: outer)) step fun a t =>
      P a ∧ A.Inside [] (scope :: outer) t) :
    A.Keeps (A.Inside scope outer) (Analysis.inScope step) fun a t =>
      P a ∧ A.Inside scope outer t := by
  have henter : A.Keeps (A.Inside scope outer) (turn Table.enter) fun _ =>
      A.Inside [] (scope :: outer) := by
    refine keeps_turn hA fun t ht htold =>
      ⟨ht.toCovers.enter htold, ht.toCovers.enter htold, rfl, ?_⟩
    rw [Table.enter, ht.scope, ht.outer]
  have hexit : A.Keeps (A.Inside [] (scope :: outer)) (turn Table.exit) fun _ =>
      A.Inside scope outer := by
    refine keeps_turn hA fun t ht htold => ?_
    have hcovers := ht.toCovers.exit ht.scope htold
    obtain ⟨entries, inner, around, index⟩ := t
    obtain rfl : around = scope :: outer := ht.outer
    exact ⟨hcovers, hcovers, rfl, rfl⟩
  refine henter.bind hA fun _ => hstep.bind hA fun a => .of_and fun ha => ?_
  exact hexit.bind hA fun _ => keeps_pure hA fun t ht => ⟨ha, ht⟩

/-- A block is walked in an empty scope, which is closed again. -/
theorem Keeps.scopedBlock {body : List Stmt} {P : List Stmt → Prop}
    (hbody : A.Keeps (A.Inside [] (scope :: outer)) (stmts body) fun body' t =>
      P body' ∧ A.Inside [] (scope :: outer) t) :
    A.Keeps (A.Inside scope outer) (Analysis.inScope do visitBlock body; stmts body) fun body' t =>
      P body' ∧ A.Inside scope outer t :=
  .inScope hA (.say_bind hA _ hbody)

mutual

/-- Walking a statement leaves sites that are known, and the scopes as they were. -/
theorem keeps_stmt {scope : Bindings String} {outer : List (Bindings String)} :
    ∀ s : Stmt, (∀ site ∈ s.sites, A.Awaits site) →
      A.Keeps (A.Inside scope outer) (stmt s) fun s' t =>
        (∀ site ∈ s'.sites, A.Knows site) ∧ A.Inside scope outer t
  | .assign target value ty, hs => by
    obtain ⟨htarget, hvalue⟩ := List.forall_mem_cons.mp hs
    refine .say_bind hA _ ((keeps_expr hA (fun _ ht => ht.toCovers) hvalue).bind hA fun value' =>
      .of_and fun hvalue' => ?_)
    refine (keeps_assign hA htarget (hvalue' _ value'.site_mem_sites)).map hA fun r _ hr => ?_
    exact ⟨List.forall_mem_cons.mpr ⟨hr.1, hvalue'⟩, hr.2⟩
  | .conditional condition body other, hs => by
    obtain ⟨hcondition, hblocks⟩ := List.forall_mem_append.mp hs
    obtain ⟨hbody, hother⟩ := List.forall_mem_append.mp hblocks
    refine .say_bind hA _
      (.say_bind hA _ ((keeps_warnBareVariable hA condition).bind hA fun _ => ?_))
    refine (keeps_expr hA (fun _ ht => ht.toCovers) hcondition).bind hA fun condition' =>
      .of_and fun hcondition' => (keeps_guarded hA _ _).bind hA fun passes => ?_
    cases passes with
    | false =>
      refine keeps_pure hA fun t ht => ⟨?_, ht⟩
      exact List.forall_mem_append.mpr
        ⟨hcondition', fun site hsite => (hblocks site hsite).knows hA⟩
    | true =>
      refine (Keeps.scopedBlock hA (keeps_stmts body hbody)).bind hA fun body' =>
        .of_and fun hbody' => (keeps_otherwise other hother).map hA fun other' t hother' => ?_
      exact ⟨List.forall_mem_append.mpr ⟨hcondition',
        List.forall_mem_append.mpr ⟨hbody', hother'.1⟩⟩, hother'.2⟩
  | .whileLoop condition body, hs => by
    obtain ⟨hcondition, hbody⟩ := List.forall_mem_append.mp hs
    refine .say_bind hA _ ((keeps_expr hA (fun _ ht => ht.toCovers) hcondition).bind hA
      fun condition' => .of_and fun hcondition' => (keeps_guarded hA _ _).bind hA fun passes => ?_)
    cases passes with
    | false =>
      refine keeps_pure hA fun t ht => ⟨?_, ht⟩
      exact List.forall_mem_append.mpr ⟨hcondition', fun site hsite => (hbody site hsite).knows hA⟩
    | true =>
      refine (Keeps.scopedBlock hA (keeps_stmts body hbody)).map hA fun body' t hbody' => ?_
      exact ⟨List.forall_mem_append.mpr ⟨hcondition', hbody'.1⟩, hbody'.2⟩
  | .repeatLoop count spot body, hs => by
    obtain ⟨hcount, hbody⟩ := List.forall_mem_append.mp hs
    refine .say_bind hA _ ((keeps_visitNumber hA (.whole count)).bind hA fun _ => ?_)
    refine (Keeps.scopedBlock hA (keeps_stmts body hbody)).map hA fun body' t hbody' => ?_
    exact ⟨List.forall_mem_append.mpr ⟨fun site hsite => (hcount site hsite).knows hA, hbody'.1⟩,
      hbody'.2⟩
  | .print value, hs =>
    .say_bind hA _ ((keeps_expr hA (fun _ ht => ht.toCovers) hs).map hA fun _ _ hvalue => hvalue)
  | .input target, hs => by
    refine (keeps_input hA (hs _ List.mem_cons_self)).map hA fun n t hn => ?_
    exact ⟨List.forall_mem_singleton.mpr hn.1, hn.2⟩
  | .block body, hs => .say_bind hA _ ((keeps_stmts body hs).map hA fun _ _ hbody => hbody)
termination_by structural s => s

theorem keeps_otherwise {scope : Bindings String} {outer : List (Bindings String)} :
    ∀ other : Option (List Stmt), (∀ site ∈ Stmt.sitesOther other, A.Awaits site) →
      A.Keeps (A.Inside scope outer) (otherwise other) fun other' t =>
        (∀ site ∈ Stmt.sitesOther other', A.Knows site) ∧ A.Inside scope outer t
  | none, _ => keeps_pure hA fun _ ht => ⟨List.forall_mem_nil _, ht⟩
  | some body, hs => (Keeps.scopedBlock hA (keeps_stmts body hs)).map hA fun _ _ hbody => hbody
termination_by structural other => other

/-- Statements whose sites are awaited leave sites that are known. -/
theorem keeps_stmts {scope : Bindings String} {outer : List (Bindings String)} :
    ∀ body : List Stmt, (∀ site ∈ Stmt.sitesAll body, A.Awaits site) →
      A.Keeps (A.Inside scope outer) (stmts body) fun body' t =>
        (∀ site ∈ Stmt.sitesAll body', A.Knows site) ∧ A.Inside scope outer t
  | [], _ => keeps_pure hA fun t ht => ⟨List.forall_mem_nil _, ht⟩
  | s :: rest, hs => by
    obtain ⟨hfirst, hrest⟩ := List.forall_mem_append.mp hs
    refine (keeps_visitSentence hA).bind hA fun _ => (keeps_stmt s hfirst).bind hA fun s' =>
      .of_and fun hs' => (keeps_stmts rest hrest).map hA fun rest' t hrest' => ?_
    exact ⟨List.forall_mem_append.mpr ⟨hs', hrest'.1⟩, hrest'.2⟩
termination_by structural body => body

end

end Statements

/-! ## Items and programs -/

section Items

variable (hA : A.Sound)

include hA

/-- A declared name is known. -/
theorem keeps_declare {ty : Ty} {n : Name} (hn : A.Awaits n.site) :
    A.Keeps A.Covers (declare ty n) fun n' t => A.Knows n'.site ∧ A.Covers t := by
  refine .get_bind fun s hs => ?_
  split
  next =>
    refine (keeps_report hA _).bind hA fun _ => keeps_pure hA ?_
    rintro _ rfl
    exact ⟨hn.knows hA, hs⟩
  next =>
    refine .markName_bind hA (hn.settled_type hA ty) (hn.knows hA).formed fun hknows =>
      .get_bind fun s' hs' => ?_
    have hcovers : A.Covers s'.table := hs' ▸ hs
    cases hinsert : s'.table.insert? n.text ⟨n.text, ty, none, n.spot⟩ with
    | none =>
      refine (keeps_enroll hA n.text).bind hA fun _ => keeps_pure hA ?_
      rintro _ rfl
      exact ⟨hknows, hcovers⟩
    | some table =>
      have hturn : A.Keeps (· = s'.table) (turn fun _ => table) fun _ => A.Covers := by
        refine keeps_turn hA ?_
        rintro _ rfl htold
        have hcovers' : A.Covers table := ⟨Table.forall_insert? (P := fun s => A.settled s.mark)
          hcovers.symbols (hA.lasting.unvalued _) hinsert, hcovers.flat.insert hinsert, .inr htold⟩
        exact ⟨hcovers', hcovers'⟩
      refine hturn.bind hA fun _ => .lift_bind hA fun _ => .say_bind hA _ ?_
      exact (keeps_enroll hA n.text).bind hA fun _ => keeps_pure hA fun t ht => ⟨hknows, ht⟩

/-- So are all names of a declaration. -/
theorem keeps_declareAll {ty : Ty} (names : List Name) (hnames : ∀ n ∈ names, A.Awaits n.site) :
    A.Keeps A.Covers (names.mapM (declare ty)) fun names' t =>
      (∀ n ∈ names', A.Knows n.site) ∧ A.Covers t := by
  induction names with
  | nil => exact keeps_pure hA fun t ht => ⟨List.forall_mem_nil _, ht⟩
  | cons n names ih =>
    obtain ⟨hn, hnames⟩ := List.forall_mem_cons.mp hnames
    rw [List.mapM_cons]
    refine (keeps_declare hA hn).bind hA fun n' => .of_and fun hn' => ?_
    refine (ih hnames).map hA fun names' t hnames' => ⟨?_, hnames'.2⟩
    exact List.forall_mem_cons.mpr ⟨hn', hnames'.1⟩

theorem keeps_item (i : Item) (hi : ∀ site ∈ i.sites, A.Awaits site) :
    A.Keeps A.Covers (item i) fun i' t => (∀ site ∈ i'.sites, A.Knows site) ∧ A.Covers t := by
  cases i with
  | declaration ty _ names =>
    refine .say_bind hA _ (.say_bind hA _ ?_)
    refine (keeps_declareAll hA names (List.forall_mem_map.mp hi)).bind hA fun names' =>
      .of_and fun hnames' => .say_bind hA _ (.say_bind hA _ (.say_bind hA _ ?_))
    exact keeps_pure hA fun t ht => ⟨List.forall_mem_map.mpr hnames', ht⟩
  | statement s =>
    refine (keeps_visitSentence hA).bind hA fun _ => ?_
    -- The scopes in which the statement starts are those in which it ends.
    intro f hf
    have hstmt : A.Keeps (A.Inside f.table.scope f.table.outer)
        (do return Item.statement (← stmt s)) fun i' t => (∀ site ∈ i'.sites, A.Knows site) ∧
        A.Covers t := (keeps_stmt hA s hi).map hA fun s' t hs' => ⟨hs'.1, hs'.2.toCovers⟩
    exact hstmt f ⟨hf, rfl, rfl⟩

/-- Items whose sites are awaited leave sites that are known. -/
theorem keeps_items (is : List Item) : ∀ start,
    (∀ site ∈ is.flatMap Item.sites, A.Awaits site) →
      A.Keeps A.Covers (items start is) fun is' t =>
        (∀ site ∈ is'.flatMap Item.sites, A.Knows site) ∧ A.Covers t := by
  induction is with
  | nil => exact fun _ _ => keeps_pure hA fun t ht => ⟨List.forall_mem_nil _, ht⟩
  | cons i is ih =>
    intro start his
    rw [List.flatMap_cons] at his
    obtain ⟨hi, his⟩ := List.forall_mem_append.mp his
    refine .say_bind hA _ ((keeps_item hA i hi).bind hA fun i' => .of_and fun hi' => ?_)
    refine (ih (start + 1) his).map hA fun is' t his' => ⟨?_, his'.2⟩
    rw [List.flatMap_cons]
    exact List.forall_mem_append.mpr ⟨hi', his'.1⟩

theorem keeps_listSymbols : A.Keeps I listSymbols fun _ => I := by
  refine .get_bind fun s hs => .say_bind hA _ ?_
  have hentry (entry : String × Symbol) : A.Keeps (· = s.table)
      (do
        say (← Record.listedLine (.ofText entry.1) (.ofText entry.2.ty.name)
          (.ofConstant? entry.2.value))
        return ForInStep.yield ()) fun r t => r = .yield () ∧ t = s.table :=
    .lift_bind hA fun _ => .say_bind hA _ (keeps_pure hA fun _ ht => ⟨rfl, ht⟩)
  refine (keeps_forIn hA _ hentry).bind hA fun _ => keeps_pure hA ?_
  rintro _ rfl
  exact hs

/-- The analysis of a program leaves sites that are known and a table that is covered. -/
theorem keeps_program {p : Program} (hp : ∀ site ∈ p.sites, A.Awaits site) :
    A.Keeps A.Covers (program p) fun q t => (∀ site ∈ q.1.sites, A.Knows site) ∧ A.Covers t := by
  refine .say_bind hA _ (.say_bind hA _ (.say_bind hA _ ?_))
  refine (keeps_items hA p.items 0 hp).bind hA fun walked => .of_and fun hwalked => ?_
  refine .get_bind fun s hs => .say_bind hA _ ((keeps_listSymbols hA).bind hA fun symbols => ?_)
  refine .say_bind hA _ ((keeps_listSymbols hA).bind hA fun symbols' => ?_)
  refine (keeps_forIn hA _ fun s => ?_).bind hA fun _ => keeps_pure hA ?_
  · exact .say_bind hA _ (keeps_pure hA fun t ht => ⟨rfl, ht⟩)
  · rintro _ rfl
    exact ⟨hwalked, hs⟩

end Items

end Account

end Analysis

/-! ## Programs that are read -/

/-- A property that the sites of a program over given tokens have before the analysis. -/
structure Site.Unwalked (T : Token → Prop) (P : Site → Prop) : Prop where
  name : ∀ t, T t → t.kind = .identifier → P t.toName.site
  leaf : ∀ t e, T t → t.kind ∈ Grammar.leaves → t.toExpr = .ok e → P e.site
  operation : ∀ op ty, P ⟨.operation op, ⟨ty, none⟩⟩

section Unwalked

variable {T : Token → Prop} {P : Site → Prop} (hP : Site.Unwalked T P)

include hP

/-- What holds of every name with a blank mark holds of a name that was built. -/
theorem Name.Built.unwalked {n : Name} (h : n.Built T) : P n.site := by
  obtain ⟨t, ht, hkind, rfl⟩ := h
  exact hP.name t ht hkind

/-- What holds before a walk holds of every site of an expression that was built. -/
theorem Expr.Built.unwalked {e : Expr} (h : e.Built T) : ∀ site ∈ e.sites, P site := by
  induction h with
  | @leaf t e ht hkind he =>
    have hsite := hP.leaf t e ht hkind he
    rcases Token.toExpr_cases he with ⟨n, -, rfl⟩ | ⟨d, rfl⟩ | ⟨s, rfl⟩ | rfl
    all_goals exact List.forall_mem_singleton.mpr hsite
  | operation _ _ _ ihleft ihright =>
    exact List.forall_mem_cons.mpr ⟨hP.operation _ _, List.forall_mem_append.mpr ⟨ihleft, ihright⟩⟩

omit hP in
theorem Stmt.forall_sitesAll {body : List Stmt} (h : ∀ s ∈ body, ∀ site ∈ s.sites, P site) :
    ∀ site ∈ sitesAll body, P site := by
  induction body with
  | nil => simp [sitesAll]
  | cons s rest ih =>
    obtain ⟨hs, hrest⟩ := List.forall_mem_cons.mp h
    exact List.forall_mem_append.mpr ⟨hs, ih hrest⟩

/-- So of a statement. -/
theorem Stmt.Built.unwalked {s : Stmt} (h : s.Built T) : ∀ site ∈ s.sites, P site := by
  induction h with
  | assign htarget hvalue => exact List.forall_mem_cons.mpr ⟨htarget.unwalked hP,
      hvalue.unwalked hP⟩
  | conditional hcondition _ ih =>
    have hbody := List.forall_mem_append.mpr ⟨forall_sitesAll ih, List.forall_mem_nil P⟩
    exact List.forall_mem_append.mpr ⟨hcondition.unwalked hP, hbody⟩
  | alternative hcondition _ _ ih ihother =>
    have hblocks := List.forall_mem_append.mpr ⟨forall_sitesAll ih, forall_sitesAll ihother⟩
    exact List.forall_mem_append.mpr ⟨hcondition.unwalked hP, hblocks⟩
  | whileLoop hcondition _ ih =>
    exact List.forall_mem_append.mpr ⟨hcondition.unwalked hP, forall_sitesAll ih⟩
  | repeatLoop hcount _ ih =>
    exact List.forall_mem_append.mpr ⟨hcount.built.unwalked hP, forall_sitesAll ih⟩
  | print hvalue => exact hvalue.unwalked hP
  | input htarget => exact List.forall_mem_singleton.mpr (htarget.unwalked hP)
  | block _ ih => exact forall_sitesAll ih

/-- So of an item. -/
theorem Item.Built.unwalked {i : Item} (h : i.Built T) : ∀ site ∈ i.sites, P site := by
  cases h with
  | declaration _ _ hnames => exact List.forall_mem_map.mpr fun n hn => (hnames n hn).unwalked hP
  | statement hs => exact hs.unwalked hP

end Unwalked

/-- Tokens give sites without values, except literals. -/
theorem Site.unwalked_initial (T : Token → Prop) : Site.Unwalked T Site.Initial where
  name _ _ _ := .unvalued
  leaf t e _ _ he := by
    have hshows := Token.shows_toExpr he
    rcases Token.toExpr_cases he with ⟨n, -, rfl⟩ | ⟨d, rfl⟩ | ⟨s, rfl⟩ | rfl
    · exact .number hshows
    · exact .number hshows
    · exact .text
    · exact .unvalued
  operation _ _ := .unvalued

section Reading

variable {code : String} {p : Program} {log : List String}

/-- What holds before a walk holds of every site of a program that was read. -/
theorem Reading.unwalked_sites (h : Reading.ofText code = .program p log) {P : Site → Prop}
    (hP : Site.Unwalked (· ∈ (Scan.ofText code).tokens) P) : ∀ site ∈ p.sites, P site := by
  intro site hsite
  obtain ⟨i, hi, hsite⟩ := List.mem_flatMap.mp hsite
  exact (Reading.built_ofText h i hi).unwalked hP site hsite

/-- A program that was read has initial marks only. -/
theorem Reading.initial_sites (h : Reading.ofText code = .program p log) :
    ∀ site ∈ p.sites, site.Initial :=
  unwalked_sites h (Site.unwalked_initial _)

/-- The account of the analysis of a program. -/
def Program.account (p : Program) (settled : Mark → Prop) (tells : List Moment → Prop) :
    Analysis.Account :=
  ⟨settled, tells, p.sites, p.moments⟩

/-- The analysis of a program that is read tells what a sound account says. In the end it knows the
sites and covers the table. -/
theorem Reading.keeps_account (h : Reading.ofText code = .program p log) {settled : Mark → Prop}
    {tells : List Moment → Prop} (hA : (p.account settled tells).Sound) :
    tells p.moments ∧
      (∀ site ∈ (Program.mk p.walk.part).sites, (p.account settled tells).Knows site) ∧
      (p.account settled tells).Covers p.walk.table := by
  have hempty : (p.account settled tells).Covers .empty :=
    ⟨by simp [Table.empty], Table.Flat.empty, .inl rfl⟩
  obtain ⟨htells, hends⟩ := Analysis.Account.keeps_program hA
    (fun site hsite => ⟨initial_sites h site hsite, hsite⟩) Analysis.start hempty fun _ hm => hm
  obtain ⟨lines, hrun⟩ := analyse_eq h
  exact ⟨htells, hends _ _ hrun⟩

end Reading

end Analizador
