import Analizador.Proofs.Table

/-! # Tables in which all scopes agree with the index

An assignment changes the entry that the scopes have for a name, and then the one that the flat
index has. Only in a table whose scopes bind no name to another entry than the index does are the
two the same. -/

namespace Analizador

theorem Bindings.find?_put (b : Bindings String) (key : String) (number : Nat) (name : String) :
    (b.put key number).find? name = if name = key then some number else b.find? name := by
  induction b with
  | nil => simp [put, find?_cons]
  | cons entry rest ih =>
    obtain ⟨other, old⟩ := entry
    by_cases hkey : key = other
    · subst hkey
      simp only [put, BEq.rfl, if_true, find?_cons]
      split <;> rfl
    · simp only [put, beq_eq_false_iff_ne.mpr hkey, Bool.false_eq_true, if_false, find?_cons, ih]
      by_cases hname : name = key <;> simp_all

namespace Table

variable {σ : Type} {t t' : Table String σ} {name : String} {entry : σ} {f : σ → σ}

/-- The scopes of a table bind no name to another entry than the flat index does. -/
def Flat (t : Table String σ) : Prop :=
  ∀ name number, t.locate? name = some number → t.index.find? name = some number

/-- What two tables bind is the same. -/
def SameBindings (t t' : Table String σ) : Prop :=
  t'.scope = t.scope ∧ t'.outer = t.outer ∧ t'.index = t.index

theorem sameBindings_modifyLocated (t : Table String σ) (name : String) (f : σ → σ) :
    t.SameBindings (t.modifyLocated name f) := by
  unfold modifyLocated
  split <;> exact ⟨rfl, rfl, rfl⟩

/-- Of all entries, the change of a name that is found changes the one found. -/
theorem forall_modifyLocated_of_lookup {P : σ → Prop} (hlookup : t.lookup name = some entry)
    (hP : ∀ s ∈ t.entries, P s) (hentry : P (f entry)) :
    ∀ s ∈ (t.modifyLocated name f).entries, P s := by
  obtain ⟨number, hlocate, hnumber⟩ := Option.bind_eq_some_iff.mp hlookup
  intro s hs
  simp only [modifyLocated, hlocate, modify] at hs
  obtain ⟨i, hi⟩ := Array.mem_iff_getElem?.mp hs
  rw [Array.getElem?_modify] at hi
  split at hi
  next heq =>
    subst heq
    rw [hnumber] at hi
    obtain rfl := Option.some.inj hi
    exact hentry
  next => exact hP s (Array.mem_of_getElem? hi)

theorem lookup_modifyLocated (hlookup : t.lookup name = some entry) :
    (t.modifyLocated name f).lookup name = some (f entry) := by
  obtain ⟨number, hlocate, hnumber⟩ := Option.bind_eq_some_iff.mp hlookup
  have hlocated : (t.modify number f).locate? name = some number := hlocate
  simp only [lookup, modifyLocated, hlocate, hlocated, Option.bind_eq_bind, Option.bind_some]
  simp [modify, Array.getElem?_modify, hnumber]

namespace Flat

theorem empty : (Table.empty : Table String σ).Flat := by
  intro name number h
  cases h

theorem of_sameBindings (h : t.Flat) (hsame : t.SameBindings t') : t'.Flat := by
  obtain ⟨hscope, houter, hindex⟩ := hsame
  simp only [Flat, locate?, hscope, houter, hindex]
  exact h

theorem exit (h : t.Flat) (hscope : t.scope = []) : t.exit.Flat := by
  obtain ⟨entries, scope, outer, index⟩ := t
  obtain rfl : scope = [] := hscope
  cases outer <;> exact h

theorem insert (h : t.Flat) (hinsert : t.insert? name entry = some t') : t'.Flat := by
  unfold insert? at hinsert
  split at hinsert
  next => cases hinsert
  next =>
    obtain rfl := Option.some.inj hinsert
    intro other number hother
    simp only [locate?, List.findSome?_cons, Bindings.find?_put] at hother ⊢
    by_cases heq : other = name
    · simpa [heq] using hother
    · rw [if_neg heq] at hother ⊢
      exact h other number hother

/-- In a flat table the entry that is found under a name is the one that the index has. -/
theorem modifyIndexed_eq (h : t.Flat) (hlookup : t.lookup name = some entry) :
    t.modifyIndexed name f = t.modifyLocated name f := by
  obtain ⟨number, hlocate, -⟩ := Option.bind_eq_some_iff.mp hlookup
  rw [modifyIndexed, modifyLocated, hlocate, h name number hlocate]

end Flat

end Table

end Analizador
