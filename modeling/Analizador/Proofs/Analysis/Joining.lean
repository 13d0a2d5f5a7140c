import Analizador.Proofs.Analysis.Declared
import Analizador.Proofs.Reader.Joining

/-! # Analysing texts one after the other

The walk of two programs in a row starts with the walk of the first. So the faults of the first come
before all others, and its symbols before those that the second adds. -/

namespace Analizador

/-- The faults of a program come first among those of a program that goes on after it. -/
theorem Program.faults_prefix_append (is js : List Item) :
    (⟨is⟩ : Program).walk.faults <+: (⟨is ++ js⟩ : Program).walk.faults := by
  rw [walk, walk, Item.walkAll_append]
  exact List.prefix_append _ _

/-- The symbols of a program come first among those of a program that goes on after it. -/
theorem Program.named_prefix_append (is js : List Item) :
    (⟨is⟩ : Program).walk.table.named.map (Prod.map id Symbol.forget) <+:
      (⟨is ++ js⟩ : Program).walk.table.named.map (Prod.map id Symbol.forget) := by
  have hfirst := (⟨is⟩ : Program).lists_walk
  have hboth := hfirst.walkAll js
  have htable : (⟨is ++ js⟩ : Program).walk.table =
      (Item.walkAll (⟨is⟩ : Program).walk.table (⟨is⟩ : Program).walk.declared js).table := by
    rw [walk, walk, Item.walkAll_append]
  rw [htable, hfirst.named, hboth.named, List.map_append]
  exact List.prefix_append _ _

namespace Session

/-- Two programs joined by a line end are read as one, with the items of the second as many lines
further down as the first has. Its analysis reports what that of the first reports and then more,
and its table has the symbols of the first, with their types and places, before all others. -/
theorem analyse_newline (s : Session) (a b : String) (p q : Program)
    (ha : (s.parse [] a).2.program = some p) (hb : (s.parse [] b).2.program = some q) :
    let joined := s.parse [] (a ++ "\n" ++ b)
    joined.1 = .ok true ∧
      joined.2.program =
        some ⟨p.items ++ q.items.map (Item.relocate (.down (a.toList.count '\n' + 1)))⟩ ∧
      (∃ result, (s.parse [] a).2.analyse.1 = .ok result) ∧
      (∃ result, joined.2.analyse.1 = .ok result) ∧
      (s.parse [] a).2.analyse.2.2.ledger.semantic <+: joined.2.analyse.2.2.ledger.semantic ∧
      (s.parse [] a).2.analyse.2.2.table.named.map (Prod.map id Symbol.forget) <+:
        joined.2.analyse.2.2.table.named.map (Prod.map id Symbol.forget) := by
  intro joined
  obtain ⟨log, hreading⟩ := reading_of_parse ha
  obtain ⟨log', hreading'⟩ := reading_of_parse hb
  obtain ⟨hread, hprogram⟩ := parse_of_reading s (Reading.ofText_newline hreading hreading')
  obtain ⟨hresult, -, hsemantic⟩ := analyse_of_parse ha
  obtain ⟨hresult', -, hsemantic'⟩ := analyse_of_parse hprogram
  refine ⟨hread, hprogram, ⟨_, hresult⟩, ⟨_, hresult'⟩, ?_, ?_⟩
  · rw [hsemantic, hsemantic']
    exact (Program.faults_prefix_append p.items _).map _
  · rw [table_of_parse ha, table_of_parse hprogram]
    exact Program.named_prefix_append p.items _

/-- The first text ends in a comment and in a conditional that could go on, and the second declares
a name again. -/
theorem analyse_newline_commented :
    let a := "ent x ; y = 1 ;\nsi ( x > 0 ) \x7b x = 2 ; \x7d // oNo"
    let b := "dec x , z ;"
    let joined := empty.parse [] (a ++ "\n" ++ b)
    joined.1 = .ok true ∧ ∃ p, (empty.parse [] a).2.program = some p ∧
      joined.2.program = some ⟨p.items ++
        [.declaration .dec none [⟨"x", ⟨3, 5⟩, .blank⟩, ⟨"z", ⟨3, 9⟩, .blank⟩]]⟩ ∧
      (empty.parse [] a).2.analyse.2.2.ledger.semantic <+:
      joined.2.analyse.2.2.ledger.semantic := by
  obtain ⟨hread, hprogram, -, -, hsemantic, -⟩ := analyse_newline empty
    "ent x ; y = 1 ;\nsi ( x > 0 ) \x7b x = 2 ; \x7d // oNo" "dec x , z ;" _
    ⟨[.declaration .dec none [⟨"x", ⟨1, 5⟩, .blank⟩, ⟨"z", ⟨1, 9⟩, .blank⟩]]⟩ rfl rfl
  exact ⟨hread, _, rfl, hprogram, hsemantic⟩

end Session

end Analizador
