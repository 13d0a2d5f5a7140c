import Analizador.Proofs.Reader.Built
import Analizador.Proofs.Reader.Remainder
import Analizador.Proofs.Reader.RoundTrip
import Analizador.Proofs.Scan.Seam

/-! # Reading texts one after the other

A reader that could stop after a text is between two items, but for a conditional that could still
get a second block. No program starts with the keyword for that block. So the reader goes on with a
second program as from the start, behind the items of the first. The seam is a line end; a comment
that is open there would have to stand in the first text as a slash and a star, and no program has
these two in a row. -/

namespace Analizador

namespace Reader

variable {r m r' : Reader} {t : Token} {ts : List Token} {p q : Program} {log : List String}

/-! ## No comment is open -/

theorem wanting_of_afterOperand {place : Place} {level : Level} {outer : List Level} {x : Operand}
    (h : r.afterOperand place level outer x .slash = .moved m) :
    ∃ place level outer, m.phase = .wanting place level outer := by
  obtain ⟨compared, operand⟩ := level
  simp only [afterOperand, show Kind.slash.followsOperand = true from rfl, if_true] at h
  split at h
  next e _ =>
    cases operand with
    | some left => cases h
    | none =>
      obtain rfl := Step.moved.inj h
      exact ⟨_, _, _, rfl⟩
  next => cases h

/-- After a slash an operand has to come. -/
theorem wanting_of_slash (h : r.look (.token t) = .moved m) (ht : t.kind = .slash) :
    ∃ place level outer, m.phase = .wanting place level outer := by
  obtain ⟨items, frames, phase, log⟩ := r
  obtain ⟨kind, text, spot⟩ := t
  obtain rfl : kind = .slash := ht
  cases phase with
  | ready => cases frames <;> cases h
  | holding place level outer x => exact wanting_of_afterOperand h
  | lone s => exact wanting_of_afterOperand h
  | counting s =>
    simp only [look, show Kind.slash.followsOperand = true from rfl, if_true] at h
    cases hcount : Numeral.readInteger s.text <;> simp [hcount, halt] at h
  | _ => cases h

theorem not_slash_star (h : r.Takes ts r') : ¬ [Kind.slash, .star] <:+: ts.map Token.kind := by
  induction h with
  | nil => simp
  | @cons r m r' t ts hlook htail ih =>
    intro hinfix
    rcases List.infix_cons_iff.mp hinfix with hfront | hinner
    · obtain ⟨ht, hstar⟩ := List.cons_prefix_cons.mp hfront
      obtain ⟨place, level, outer, hphase⟩ := wanting_of_slash hlook ht.symm
      cases htail with
      | nil => simp at hstar
      | cons hnext _ =>
        obtain ⟨hkind, -⟩ := List.cons_prefix_cons.mp hstar
        simp [look, hphase, ← hkind, Kind.startsOperand] at hnext
    · exact ih hinner

/-! ## Going on with a second program -/

/-- A reader that may stop has read the program and no more. -/
theorem settled_of_finish (h : r.look .finish = .accepted p log) :
    r.settled = ⟨p.items, [], .ready, log⟩ := by
  have hready : r.settled.phase = .ready := by
    obtain ⟨items, frames, phase, log⟩ := r
    cases phase with
    | ready => rfl
    | afterThen condition body => exact complete_phase _ _
    | _ => cases h
  rw [look_settled_finish hready] at h
  generalize r.settled = settled at h hready
  obtain ⟨items, frames, phase, log'⟩ := settled
  obtain rfl : phase = .ready := hready
  cases frames with
  | nil =>
    obtain ⟨rfl, rfl⟩ := Step.accepted.inj h
    rfl
  | cons f fs => cases h

theorem followsStatement_of_start (h : start.look (.token t) = .moved m) :
    t.kind.followsStatement = true := by
  obtain ⟨kind, text, spot⟩ := t
  cases kind <;> first | rfl | cases h

/-- A reader that is where a preamble ends reads a program behind the preamble. -/
theorem Takes.resume {a : Preamble} (hr : r.settled = start.behind a) (htakes : start.Takes ts m)
    (hfinish : m.look .finish = .accepted q log) :
    ∃ r', r.Takes (ts.map (Token.relocate a.place)) r' ∧
      r'.look .finish = .accepted (q.behind a) (a.log ++ log) := by
  have hready : r.settled.phase = .ready := by
    rw [hr]
    rfl
  have hend : (m.behind a).look .finish = .accepted (q.behind a) (a.log ++ log) :=
    (look_behind a m .finish).trans (congrArg (Step.behind a) hfinish)
  cases htakes with
  | nil =>
    refine ⟨r, .nil, ?_⟩
    rw [look_settled_finish hready, hr]
    exact hend
  | @cons _ m' _ t ts hlook htail =>
    refine ⟨m.behind a, .cons ?_ (htail.behind a), hend⟩
    have hfollows : t.kind.followsStatement = true := followsStatement_of_start hlook
    have hstep : r.look (.token (t.relocate a.place)) =
        r.settled.ready (.token (t.relocate a.place)) := look_settled hready hfollows
    rw [hstep, hr]
    exact (look_behind a start (.token t)).trans (congrArg (Step.behind a) hlook)

end Reader

/-- Two programs that are joined by a line end are read as one: the items of the first and then
those of the second, further down. -/
theorem Reading.ofText_newline {a b : String} {p q : Program} {log log' : List String}
    (ha : ofText a = .program p log) (hb : ofText b = .program q log') :
    ofText (a ++ "\n" ++ b) =
      .program ⟨p.items ++ q.items.map (Item.relocate (.down (a.toList.count '\n' + 1)))⟩
        (log ++ log') := by
  obtain ⟨hstray, m, htakes, hfinish⟩ := Reader.takes_of_run ha
  obtain ⟨hstray', m', htakes', hfinish'⟩ := Reader.takes_of_run hb
  let before : Preamble := ⟨p.items, log, .down (a.toList.count '\n' + 1)⟩
  have hsettled : m.settled = Reader.start.behind before := by
    rw [Reader.settled_of_finish hfinish]
    simp [Reader.behind, Reader.start, Phase.relocate, before]
  obtain ⟨r, hresumed, hend⟩ := htakes'.resume hsettled hfinish'
  have hscanned : Scan.ofText a = ⟨(Scan.ofText a).tokens, none⟩ := by rw [← hstray]
  have hscanned' : Scan.ofText b = ⟨(Scan.ofText b).tokens, none⟩ := by rw [← hstray']
  have hscan := Scan.ofText_newline hscanned hscanned' (Reader.not_slash_star htakes)
  rw [ofText, ofScan, hscan]
  exact (htakes.append hresumed).run hend _

end Analizador
