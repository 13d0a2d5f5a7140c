import Mathlib.Data.List.Nodup
import Analizador.Proofs.Table

/-! # Scopes and the index of a table

The scopes and the flat index of a table share its entries, and drift apart where a name is bound
again in an inner scope and where a scope is closed. Entries are numbered in the order in which they
are made, and a name is bound only in the innermost scope. So of the entries of one name the index
has the latest, and an inner scope a later one than any scope around it: if the entry that the index
has is bound by a scope that is open, it is the one that is found under the name. -/

namespace Analizador

variable {κ σ : Type}

/-- Of some names those that count as equal are the same. -/
def LawfulOn [BEq κ] (K : κ → Prop) : Prop := ∀ a b, K a → K b → ((a == b) = true ↔ a = b)

/-- Bindings of some names, each of them once. -/
structure Bindings.Keyed (K : κ → Prop) (b : Bindings κ) : Prop where
  names : ∀ e ∈ b, K e.1
  nodup : (b.map Prod.fst).Nodup

namespace Bindings.Keyed

variable {K : κ → Prop} {b : Bindings κ} {key name : κ} {number n : Nat}

theorem nil : Keyed K ([] : Bindings κ) := ⟨by simp, by simp⟩

theorem tail {e : κ × Nat} (h : Keyed K (e :: b)) : Keyed K b :=
  ⟨fun e he => h.names e (List.mem_cons_of_mem _ he), (List.nodup_cons.mp h.nodup).2⟩

/-- A name has one number at most. -/
theorem notMem_tail {old : Nat} (h : Keyed K ((key, old) :: b)) : (key, n) ∉ b := by
  intro hmem
  exact (List.nodup_cons.mp h.nodup).1 (List.mem_map.mpr ⟨(key, n), hmem, rfl⟩)

variable [BEq κ]

/-- Binding a name gives it the number and leaves alone what all other names are bound to. -/
theorem mem_put_iff (hK : LawfulOn K) (h : Keyed K b) (hkey : K key) :
    (name, n) ∈ b.put key number ↔ name = key ∧ n = number ∨ name ≠ key ∧ (name, n) ∈ b := by
  induction b with
  | nil => simp [put]
  | cons e b ih =>
    obtain ⟨other, old⟩ := e
    have hother : K other := h.names _ List.mem_cons_self
    by_cases heq : key = other
    · subst heq
      have hbeq : (key == key) = true := (hK key key hkey hkey).mpr rfl
      rw [put, if_pos hbeq, List.mem_cons, List.mem_cons, Prod.mk.injEq, Prod.mk.injEq]
      by_cases hname : name = key
      · subst hname
        simp [h.notMem_tail]
      · simp [hname]
    · have hbeq : ¬ (key == other) = true := mt (hK key other hkey hother).mp heq
      rw [put, if_neg hbeq, List.mem_cons, List.mem_cons, ih h.tail, Prod.mk.injEq]
      by_cases hname : name = key
      · subst hname
        simp [heq]
      · simp [hname]

theorem put (hK : LawfulOn K) (h : Keyed K b) (hkey : K key) (number : Nat) :
    Keyed K (b.put key number) := by
  constructor
  · rintro ⟨name, n⟩ hmem
    rcases (mem_put_iff hK h hkey).mp hmem with ⟨rfl, -⟩ | ⟨-, hmem⟩
    · exact hkey
    · exact h.names _ hmem
  · induction b with
    | nil => simp [Bindings.put]
    | cons e b ih =>
      obtain ⟨other, old⟩ := e
      have hother : K other := h.names _ List.mem_cons_self
      obtain ⟨hfresh, -⟩ := List.nodup_cons.mp h.nodup
      unfold Bindings.put
      split
      next => exact h.nodup
      next hbeq =>
        have hne : other ≠ key := fun heq => hbeq ((hK key other hkey hother).mpr heq.symm)
        refine List.nodup_cons.mpr ⟨fun hmem => ?_, ih h.tail⟩
        obtain ⟨⟨name, n⟩, hput, rfl⟩ := List.mem_map.mp hmem
        rcases (mem_put_iff hK h.tail hkey).mp hput with ⟨heq, -⟩ | ⟨-, hold⟩
        · exact hne heq
        · exact hfresh (List.mem_map.mpr ⟨_, hold, rfl⟩)

end Bindings.Keyed

namespace Table

/-- Some scope that is open binds a name to the entry. -/
def Live (t : Table κ σ) (number : Nat) : Prop := ∃ b ∈ t.scope :: t.outer, ∃ e ∈ b, e.2 = number

/-- The scopes of a table and its index bind names to entries that have these names. A name in a
scope is in the index, where its entry is no earlier one, and is bound to a later entry in an inner
scope than in an outer one. -/
structure Sound (K : κ → Prop) (name : σ → κ) (t : Table κ σ) : Prop where
  keyed : ∀ b ∈ t.index :: t.scope :: t.outer, b.Keyed K
  named : ∀ b ∈ t.index :: t.scope :: t.outer, ∀ key n, (key, n) ∈ b →
    (t.entries[n]?).map name = some key
  indexed : ∀ b ∈ t.scope :: t.outer, ∀ key n, (key, n) ∈ b → ∃ m, (key, m) ∈ t.index ∧ n ≤ m
  nested : (t.scope :: t.outer).Pairwise fun inner outer =>
    ∀ key n m, (key, n) ∈ inner → (key, m) ∈ outer → m < n

namespace Sound

variable {K : κ → Prop} {name : σ → κ} {t t' : Table κ σ} {key : κ} {entry : σ} {n number : Nat}
  {f : σ → σ}

/-! ## Every operation keeps a table sound -/

theorem empty : (Table.empty : Table κ σ).Sound K name := by
  constructor <;> simp [Table.empty, Bindings.Keyed.nil]

theorem enter (h : t.Sound K name) : t.enter.Sound K name := by
  constructor
  · intro b hb
    simp only [Table.enter, List.mem_cons] at hb
    rcases hb with rfl | rfl | hb
    · exact h.keyed _ List.mem_cons_self
    · exact .nil
    · exact h.keyed b (List.mem_cons_of_mem _ (List.mem_cons.mpr hb))
  · intro b hb key n hmem
    simp only [Table.enter, List.mem_cons] at hb
    rcases hb with rfl | rfl | hb
    · exact h.named _ List.mem_cons_self key n hmem
    · cases hmem
    · exact h.named b (List.mem_cons_of_mem _ (List.mem_cons.mpr hb)) key n hmem
  · intro b hb key n hmem
    rcases List.mem_cons.mp hb with rfl | hb
    · cases hmem
    · exact h.indexed b hb key n hmem
  · exact List.pairwise_cons.mpr ⟨fun _ _ _ _ _ hmem => absurd hmem List.not_mem_nil, h.nested⟩

theorem exit (h : t.Sound K name) : t.exit.Sound K name := by
  obtain ⟨entries, scope, outer, index⟩ := t
  cases outer with
  | nil => exact h
  | cons inner outer =>
    have hsub : ∀ b ∈ index :: inner :: outer, b ∈ index :: scope :: inner :: outer := by
      intro b hb
      rcases List.mem_cons.mp hb with rfl | hb
      · exact List.mem_cons_self
      · exact List.mem_cons_of_mem _ (List.mem_cons_of_mem _ hb)
    exact ⟨fun b hb => h.keyed b (hsub b hb), fun b hb => h.named b (hsub b hb),
      fun b hb => h.indexed b (List.mem_cons_of_mem _ hb), (List.pairwise_cons.mp h.nested).2⟩

/-- The numbers that a table binds are those of its entries. -/
theorem lt_size (h : t.Sound K name) {b : Bindings κ} (hb : b ∈ t.index :: t.scope :: t.outer)
    (hmem : (key, n) ∈ b) : n < t.entries.size := by
  obtain ⟨e, he, -⟩ := Option.map_eq_some_iff.mp (h.named b hb key n hmem)
  exact (Array.getElem?_eq_some_iff.mp he).1

theorem modify (h : t.Sound K name) (hf : ∀ e, name (f e) = name e) (number : Nat) :
    (t.modify number f).Sound K name := by
  refine ⟨h.keyed, fun b hb key n hmem => ?_, h.indexed, h.nested⟩
  rw [← h.named b hb key n hmem, Table.modify, Array.getElem?_modify]
  split
  next => cases t.entries[n]? <;> simp [hf]
  next => rfl

/-- A new entry leaves the old ones their names. -/
theorem named_push (h : t.Sound K name) (entry : σ) {b : Bindings κ}
    (hb : b ∈ t.index :: t.scope :: t.outer) (hmem : (key, n) ∈ b) :
    ((t.entries.push entry)[n]?).map name = some key := by
  rw [Array.getElem?_push, if_neg (Nat.ne_of_lt (h.lt_size hb hmem)), h.named b hb key n hmem]

variable [BEq κ]

theorem named_put (hK : LawfulOn K) (h : t.Sound K name) (hkey : K (name entry)) {b : Bindings κ}
    (hb : b ∈ t.index :: t.scope :: t.outer) (hmem : (key, n) ∈ b.put (name entry) t.entries.size) :
    ((t.entries.push entry)[n]?).map name = some key := by
  rcases ((h.keyed b hb).mem_put_iff hK hkey).mp hmem with ⟨rfl, rfl⟩ | ⟨-, hmem⟩
  · simp
  · exact h.named_push entry hb hmem

/-- The new entry of a name, which the index gets, is later than all that open scopes bind to the
name. -/
theorem indexed_put (hK : LawfulOn K) (h : t.Sound K name) (hkey : K (name entry)) {b : Bindings κ}
    (hb : b ∈ t.scope :: t.outer) (hmem : (key, n) ∈ b) :
    ∃ m, (key, m) ∈ t.index.put (name entry) t.entries.size ∧ n ≤ m := by
  have hkeyed : t.index.Keyed K := h.keyed _ List.mem_cons_self
  by_cases heq : key = name entry
  · have hle : n ≤ t.entries.size := Nat.le_of_lt (h.lt_size (List.mem_cons_of_mem _ hb) hmem)
    exact ⟨_, (hkeyed.mem_put_iff hK hkey).mpr (.inl ⟨heq, rfl⟩), hle⟩
  · obtain ⟨m, hm, hle⟩ := h.indexed b hb key n hmem
    exact ⟨m, (hkeyed.mem_put_iff hK hkey).mpr (.inr ⟨heq, hm⟩), hle⟩

theorem insert? (hK : LawfulOn K) (h : t.Sound K name) (hkey : K (name entry))
    (hinsert : t.insert? (name entry) entry = some t') : t'.Sound K name := by
  unfold Table.insert? at hinsert
  split at hinsert
  next => cases hinsert
  next =>
    obtain rfl := Option.some.inj hinsert
    have hindex : t.index ∈ t.index :: t.scope :: t.outer := List.mem_cons_self
    have hscope : t.scope ∈ t.index :: t.scope :: t.outer :=
      List.mem_cons_of_mem _ List.mem_cons_self
    have houter {b : Bindings κ} (hb : b ∈ t.outer) : b ∈ t.index :: t.scope :: t.outer :=
      List.mem_cons_of_mem _ (List.mem_cons_of_mem _ hb)
    constructor
    · intro b hb
      simp only [List.mem_cons] at hb
      rcases hb with rfl | rfl | hb
      · exact (h.keyed _ hindex).put hK hkey _
      · exact (h.keyed _ hscope).put hK hkey _
      · exact h.keyed b (houter hb)
    · intro b hb k n hmem
      simp only [List.mem_cons] at hb
      rcases hb with rfl | rfl | hb
      · exact h.named_put hK hkey hindex hmem
      · exact h.named_put hK hkey hscope hmem
      · exact h.named_push entry (houter hb) hmem
    · intro b hb k n hmem
      rcases List.mem_cons.mp hb with rfl | hb
      · rcases ((h.keyed _ hscope).mem_put_iff hK hkey).mp hmem with ⟨rfl, rfl⟩ | ⟨-, hmem⟩
        · exact ⟨_, ((h.keyed _ hindex).mem_put_iff hK hkey).mpr (.inl ⟨rfl, rfl⟩), Nat.le_refl _⟩
        · exact h.indexed_put hK hkey List.mem_cons_self hmem
      · exact h.indexed_put hK hkey (List.mem_cons_of_mem _ hb) hmem
    · obtain ⟨hinner, hnested⟩ := List.pairwise_cons.mp h.nested
      refine List.pairwise_cons.mpr ⟨fun b hb k n m hn hm => ?_, hnested⟩
      rcases ((h.keyed _ hscope).mem_put_iff hK hkey).mp hn with ⟨rfl, rfl⟩ | ⟨-, hn⟩
      · exact h.lt_size (houter hb) hm
      · exact hinner b hb k n m hn hm

theorem modifyIndexed (h : t.Sound K name) (hf : ∀ e, name (f e) = name e) (key : κ) :
    (t.modifyIndexed key f).Sound K name := by
  unfold Table.modifyIndexed
  split
  next m _ => exact h.modify hf m
  next => exact h

/-! ## What is found under a name -/

end Sound

variable [BEq κ] {t : Table κ σ} {key : κ} {n : Nat} {entry : σ} {f : σ → σ}

theorem bindings_modifyIndexed (t : Table κ σ) (key : κ) (f : σ → σ) :
    (t.modifyIndexed key f).scope = t.scope ∧ (t.modifyIndexed key f).outer = t.outer ∧
      (t.modifyIndexed key f).index = t.index := by
  unfold modifyIndexed
  split <;> exact ⟨rfl, rfl, rfl⟩

end Table

end Analizador
