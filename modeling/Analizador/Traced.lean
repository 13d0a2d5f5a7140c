/-! # Traced values

A value together with what was put down on the way to it, in order. What is put down cannot be read
back, so the value does not depend on it. -/

namespace Analizador

/-- A value with what was put down on the way to it. -/
@[ext]
structure Traced (ω α : Type) where
  value : α
  trace : List ω
  deriving Repr, Inhabited

namespace Traced

variable {ω α β : Type}

/-- Puts one thing down. -/
def put (a : ω) : Traced ω Unit := ⟨(), [a]⟩

instance : Monad (Traced ω) where
  pure a := ⟨a, []⟩
  bind t next := ⟨(next t.value).value, t.trace ++ (next t.value).trace⟩

@[simp] theorem value_pure (a : α) : (pure a : Traced ω α).value = a := rfl

@[simp] theorem trace_pure (a : α) : (pure a : Traced ω α).trace = [] := rfl

@[simp] theorem value_bind (t : Traced ω α) (next : α → Traced ω β) :
    (t >>= next).value = (next t.value).value := rfl

@[simp] theorem trace_bind (t : Traced ω α) (next : α → Traced ω β) :
    (t >>= next).trace = t.trace ++ (next t.value).trace := rfl

instance : LawfulMonad (Traced ω) := .mk' _
  (fun _ => Traced.ext rfl (List.append_nil _))
  (fun _ _ => rfl)
  (fun _ _ _ => Traced.ext rfl (List.append_assoc ..))

end Traced

end Analizador
