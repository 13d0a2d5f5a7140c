import Analizador.Proofs.Walk.Steps

/-! # Outcomes of steps

A step in the workshop ends with an answer, or fails. What it comes to can be told from what its
parts come to, one after the other: there is a rule for each of the small steps that the walks and
the rules for single nodes are made of. -/

namespace Analizador

namespace Work

variable {α β : Type} {w : Workshop} {Q Q' : α → Workshop → Prop} {E : Failure → Prop}

/-- From the given workshop the step ends, and `Q` holds of its answer and of the workshop that it
leaves, or it fails, and `E` holds of the failure. -/
def Leads (step : Work α) (w : Workshop) (Q : α → Workshop → Prop) (E : Failure → Prop) : Prop :=
  match step.perform w with
  | (.ok a, w') => Q a w'
  | (.error f, _) => E f

theorem Leads.mono {step : Work α} (h : Leads step w Q E) (hQ : ∀ a w', Q a w' → Q' a w') :
    Leads step w Q' E := by
  unfold Leads at h ⊢
  split at h
  next _ a w' _ => exact hQ a w' h
  next => exact h

/-- A step that cannot fail ends. -/
theorem Leads.exists_perform {step : Work α} (h : Leads step w Q fun _ => False) :
    ∃ a w', step.perform w = (.ok a, w') ∧ Q a w' := by
  unfold Leads at h
  split at h
  next a w' heq => exact ⟨a, w', heq, h⟩
  next => exact h.elim

/-- What a step comes to holds of an end that it reaches. -/
theorem Leads.of_perform {step : Work α} (h : Leads step w Q E) {a : α} {w' : Workshop}
    (hperform : step.perform w = (.ok a, w')) : Q a w' := by
  unfold Leads at h
  rwa [hperform] at h

theorem Leads.of_failure {step : Work α} (h : Leads step w Q E) {f : Failure} {w' : Workshop}
    (hperform : step.perform w = (.error f, w')) : E f := by
  unfold Leads at h
  rwa [hperform] at h

/-! ## One step after the other -/

@[simp] theorem leads_bind {step : Work α} {next : α → Work β} {R : β → Workshop → Prop} :
    Leads (step >>= next) w R E ↔ Leads step w (fun a w' => Leads (next a) w' R E) E := by
  unfold Leads
  rw [perform_bind]
  cases step.perform w with
  | mk a w' => cases a <;> rfl

@[simp] theorem leads_pure {a : α} : Leads (pure a) w Q E ↔ Q a w := .rfl

@[simp] theorem leads_get {Q : Workshop → Workshop → Prop} : Leads get w Q E ↔ Q w w := .rfl

@[simp] theorem leads_ok {a : α} : Leads (liftM (.ok a : Except Failure α)) w Q E ↔ Q a w := .rfl

theorem leads_liftM {x : Except Failure α} (h : ∀ a, x = .ok a → Q a w)
    (herror : ∀ f, x = .error f → E f) :
    Leads (liftM x) w Q E := by
  cases x with
  | ok a => exact h a rfl
  | error f => exact herror f rfl

/-- A loop over the nodes of some items comes to what a fold over the items gives, if a relation
between its state and the fold's lasts through each step. -/
theorem leads_foldlM {γ σ : Type} {node : γ → α} {f : β → α → Work β} {g : σ → γ → σ}
    {I : β → σ → Workshop → Prop} {items : List γ}
    (hstep : ∀ a ∈ items, ∀ b s w, I b s w →
      Leads (f b (node a)) w (fun b' w' => I b' (g s a) w') E)
    {b : β} {s : σ} (hstart : I b s w) :
    Leads ((items.map node).foldlM f b) w (fun b' w' => I b' (items.foldl g s) w') E := by
  induction items generalizing b s w with
  | nil => exact hstart
  | cons a items ih =>
    rw [List.map_cons, List.foldlM_cons, leads_bind, List.foldl_cons]
    apply (hstep a List.mem_cons_self b s w hstart).mono
    intro b' w' hnext
    exact ih (fun a' ha' => hstep a' (List.mem_cons_of_mem a ha')) hnext

/-- The same for a loop that keeps nothing of its own. -/
theorem leads_forM {γ σ : Type} {node : γ → α} {f : α → Work Unit} {g : σ → γ → σ}
    {I : σ → Workshop → Prop} {items : List γ}
    (hstep : ∀ a ∈ items, ∀ s w, I s w → Leads (f (node a)) w (fun _ w' => I (g s a) w') E) {s : σ}
    (hstart : I s w) :
    Leads ((items.map node).forM f) w (fun _ w' => I (items.foldl g s) w') E := by
  induction items generalizing s w with
  | nil => exact hstart
  | cons a items ih =>
    change Leads (f (node a) >>= fun _ => (items.map node).forM f) w _ E
    rw [leads_bind]
    apply (hstep a List.mem_cons_self s w hstart).mono
    intro _ w' hnext
    exact ih (fun a' ha' => hstep a' (List.mem_cons_of_mem a ha')) hnext

/-! ## The log -/

@[simp] theorem leads_say {message : String} {Q : Unit → Workshop → Prop} :
    Leads (say message) w Q E ↔ Q () { w with log := w.log ++ [message] } := .rfl

theorem leads_sayText {message : Except Failure String} {Q : Unit → Workshop → Prop}
    (h : ∀ line, message = .ok line → Q () { w with log := w.log ++ [line] })
    (herror : ∀ f, message = .error f → E f) :
    Leads (sayText message) w Q E := by
  unfold sayText
  rw [leads_bind]
  exact leads_liftM (fun line hline => h line hline) herror

/-! ## Attributes and reports -/

@[simp] theorem leads_attr? {d : Datum} {name : String} {Q : Option Datum → Workshop → Prop} :
    Leads (attr? d name) w Q E ↔ Q (w.graph.attr? d name) w := .rfl

theorem leads_attr_bind {d value : Datum} {name : String} {next : Datum → Work α}
    (hvalue : w.graph.attr? d name = some value) (h : Leads (next value) w Q E) :
    Leads (attr d name >>= next) w Q E := by
  unfold attr
  rw [leads_bind, leads_bind, leads_get, Graph.attr, hvalue]
  exact h

@[simp] theorem leads_setAttr {cls : NodeClass} {id : Nat} {name : String} {d : Datum}
    {Q : Unit → Workshop → Prop} :
    Leads (setAttr (.node cls id) name d) w Q E ↔
      Q () { w with graph := w.graph.fill id name d } := .rfl

theorem leads_report {d : Diagnostic} {l : Ledger} {Q : Unit → Workshop → Prop}
    (hledger : w.ledger = some l) (h : Q () { w with ledger := some (l.add d) }) :
    Leads (report d) w Q E := by
  unfold report
  rw [leads_bind, leads_get, hledger]
  exact h

/-! ## The table -/

@[simp] theorem leads_lookup {name : String} {Q : Option Record → Workshop → Prop} :
    Leads (lookup (.ofText name)) w Q E ↔ Q (w.table.lookup (.ofText name)) w := .rfl

end Work

theorem Walk.leads_visit {walk : Walk} {d : Datum} {w : Workshop} {Q : Datum → Workshop → Prop}
    {E : Failure → Prop} :
    Work.Leads (visit walk d) w Q E ↔
      Work.Leads (visitWithin walk (w.graph.depthBound d) d) w Q E := by
  unfold visit
  rw [Work.leads_bind, Work.leads_get]

end Analizador
