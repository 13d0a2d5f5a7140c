import Analizador.Proofs.Scan.Layout

/-! # Scanning typeset tokens

Tokens as they are usually written: a comma, a semicolon and a closing parenthesis stand close to
what is before them, an opening parenthesis to what is after it and to the `sout` or `scan` before
it, and one space stands between all others. No token goes on into one that stands close to it, so
typeset tokens are scanned back. -/

namespace Analizador

/-- Two tokens stand close, without a space between them. -/
def Kind.close (k next : Kind) : Bool :=
  k == leftParen || [comma, semicolon, rightParen].contains next ||
    [sout, scan].contains k && next == leftParen

namespace Scan

/-- What stands between two tokens. -/
def gap (k next : Kind) : List Char := if k.close next then [] else [' ']

/-- The characters of typeset words. -/
def typeset : List Word → List Char
  | [] => []
  | [w] => w.text.toList
  | w :: v :: ws => w.text.toList ++ (gap w.kind v.kind ++ typeset (v :: ws))

theorem exists_typeset_cons (w : Word) (ws : List Word) :
    ∃ rest, typeset (w :: ws) = w.text.toList ++ rest := by
  cases ws with
  | nil => exact ⟨[], by simp [typeset]⟩
  | cons v ws => exact ⟨_, rfl⟩

theorem skipped_gap (k next : Kind) : Skipped (gap k next) := by
  unfold gap
  split
  next => exact fun _ _ _ hscan => hscan
  next => exact skipped_blank rfl

/-- The characters of the tokens that may stand close to what is before them. -/
theorem chars_of_close {cs : List Char} {kind : Kind} (h : kind.Reads cs)
    (hkind : kind ∈ [.comma, .semicolon, .leftParen, .rightParen]) :
    ∃ c ∈ [',', ';', '(', ')'], cs = [c] := by
  have hall : ∀ entry ∈ Kind.spellings, entry.2 ∈ [Kind.comma, .semicolon, .leftParen,
      .rightParen] → [',', ';', '(', ')'].any (entry.1.toList == [·]) = true := by decide
  have hspelling : (String.ofList cs, kind) ∈ Kind.spellings := by
    simp only [List.mem_cons, List.not_mem_nil, or_false] at hkind
    rcases hkind with rfl | rfl | rfl | rfl <;> exact h
  simpa using hall _ hspelling hkind

/-- A token ends before the gap and the token after it. -/
theorem ends_gap (k : Kind) (v : Word) (rest : List Char) :
    Ends k (gap k v.kind ++ (v.text.toList ++ rest)) := by
  unfold gap
  split
  next hclose =>
    by_cases hk : k = .leftParen
    · subst hk
      exact fun _ _ => rfl
    · have hv : v.kind ∈ [.comma, .semicolon, .leftParen, .rightParen] := by
        simp only [Kind.close, Bool.or_eq_true, Bool.and_eq_true, beq_iff_eq, hk, false_or]
          at hclose
        rcases hclose with hnext | ⟨-, hnext⟩
        · have hnext : v.kind = .comma ∨ v.kind = .semicolon ∨ v.kind = .rightParen := by
            simpa using hnext
          rcases hnext with hnext | hnext | hnext <;> simp [hnext]
        · simp [hnext]
      obtain ⟨c, hc, htext⟩ := chars_of_close v.reads hv
      have hends : [',', ';', '(', ')'].all (fun c => !k.goesOn c) = true := by cases k <;> decide
      simpa [Ends, htext] using List.all_eq_true.mp hends c hc
  next =>
    have hparted : Parted ([' '] ++ (v.text.toList ++ rest)) := by simp [Parted, isSpace]
    exact hparted.ends k

/-- Typeset words are scanned back. -/
theorem scans_typeset (ws : List Word) : Scans (typeset ws) ws := by
  induction ws with
  | nil => exact scans_nil
  | cons w ws ih =>
    cases ws with
    | nil => simpa [typeset] using scans_nil.word w (ends_nil _)
    | cons v ws =>
      obtain ⟨rest, hrest⟩ := exists_typeset_cons v ws
      have hends : Ends w.kind (gap w.kind v.kind ++ typeset (v :: ws)) :=
        hrest ▸ ends_gap w.kind v rest
      exact (ih.skip (skipped_gap w.kind v.kind)).word w hends

end Scan

end Analizador
