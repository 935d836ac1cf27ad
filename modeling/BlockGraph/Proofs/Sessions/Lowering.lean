import BlockGraph.Proofs.Course.Types
import Mathlib.Tactic.IntervalCases

namespace BlockGraph

open Lowering

/-- **One layout to return through for each type of result.** As long as only classes get their fields
later, two types of results have the same layout exactly if they are the same, however often and in
whatever order it was asked for. Every answer is still as it was made: one field, for a continuation
that takes the layout itself and the result. No other layout is one to return through, so there are
as many as there are types that were asked for. All this holds at every point while a program is
lowered, whether lowering comes to its end or fails later. -/
theorem Builder.returnLayout_oneForEach :
    (∀ (qs : List Request) (s : Builder), Request.Disciplined qs →
      Runs (Request.runAll qs) {} () s → OneForEach qs s) ∧
    (∀ (p : Program) {α : Type} (d : Plan α) (s : State), Visits (.call (.program p)) {} d s →
      ∃ qs, Request.Disciplined qs ∧ Runs (Request.runAll qs) {} () s.toBuilder ∧
        OneForEach qs s.toBuilder) ∧
    ∀ (p : Program) (L : Lowered), p.lower.result = .ok L →
      ∃ (qs : List Request) (s : Builder), Request.Disciplined qs ∧
        Runs (Request.runAll qs) {} () s ∧ s.graph = L.graph ∧
        ∀ before, before <+: qs → ∃ t, Runs (Request.runAll before) {} () t ∧ OneForEach before t := by
  refine ⟨fun qs s hd h => oneForEach hd h, fun p α d s h => ?_, fun p L h => ?_⟩
  · obtain ⟨qs, hd, hqs, -⟩ := (sound_of_visits h).session
    exact ⟨qs, hd, hqs, oneForEach hd hqs⟩
  · obtain ⟨⟨entry, s⟩, hrun, hL⟩ := Logged.bind_result_eq_ok.1 h
    obtain rfl := Except.ok.inj hL
    obtain ⟨qs, hd, hqs, -⟩ := ((within_program p).proceeds hrun).sound State.sound_empty |>.session
    refine ⟨qs, s.toBuilder, hd, hqs, rfl, ?_⟩
    rintro before ⟨after, rfl⟩
    obtain ⟨t, hbefore, -⟩ := runAll_append.1 hqs
    exact ⟨t, hbefore, oneForEach (hd.of_prefix (List.prefix_append before after)) hbefore⟩

def Request.knot : List Request :=
  [.act (.returnLayout (.prim .void)), .act (.declareClass "Knot"),
    .act (.returnLayout (.object ⟨1⟩)), .act (.contextLayout [.prim .u8]),
    .act (.returnLayout (.prim .void)), .act (.defineClass ⟨1⟩ [.blockRef [.object ⟨2⟩]]),
    .act (.returnLayout (.object ⟨1⟩))]

theorem Request.disciplined_knot : Request.Disciplined Request.knot := by
  intro earlier l fields later h
  have hat : Request.knot[earlier.length]? = some (.act (.defineClass l fields)) := by
    rw [h]
    simp
  obtain ⟨hlt, -⟩ := List.getElem?_eq_some_iff.1 hat
  have hlen : earlier.length = 5 ∧ l = ⟨1⟩ := by
    have hbound : earlier.length < 7 := hlt
    interval_cases hn : earlier.length <;> simp [Request.knot] at hat
    exact ⟨rfl, hat.1.symm⟩
  obtain rfl : earlier = Request.knot.take 5 := by
    rw [h, List.take_left' hlen.1]
  rw [hlen.2]
  exact ⟨[.act (.returnLayout (.prim .void))], "Knot", _, _, _, rfl, rfl, rfl⟩

def Program.lost : Program := ⟨{
  functions := [Sample.square]
  statements := [
    Sample.define Sample.byte "y" (some (Expr.mkCall Sample.square.reference [Expr.ofU8 3])),
    .expr (Sample.byteVar "x")] }⟩

theorem Program.visits_lost :
    ∃ b s, Visits (.call (.program Program.lost)) {}
        (.call (.stmts none b [.expr (Sample.byteVar "x")])) s ∧
      (s.graph.layouts.map (·.origin)).count .ofReturn = 2 := by
  let call := (lowerScope none ⟨0⟩ ⟨[], Program.lost.body.functions,
    Program.lost.body.statements.take 1⟩).run initial
  have hcount : (call.result.toOption.bind fun a => a.1.map fun _ =>
      (a.2.graph.layouts.map (·.origin)).count .ofReturn) = some 2 := by decide +kernel
  obtain ⟨⟨o, s⟩, hrun⟩ := exists_eq_ok (x := call.result) (by decide +kernel)
  rw [hrun] at hcount
  obtain ⟨b, rfl, hcount⟩ := Option.map_eq_some_iff.1 hcount
  exact ⟨b, s, (visits_body Program.lost).trans (visits_scope [_] hrun), hcount⟩

theorem Builder.returnLayout_oneForEach_of_knot :
    (∃ s, Request.Disciplined Request.knot ∧ Runs (Request.runAll Request.knot) {} () s ∧
      OneForEach Request.knot s ∧ (s.graph.layouts.map (·.origin)).count .ofReturn = 2) ∧
    ((∃ e, Program.lost.lower.result = .error e) ∧
      ∃ b s, Visits (.call (.program Program.lost)) {}
          (.call (.stmts none b [.expr (Sample.byteVar "x")])) s ∧
        (s.graph.layouts.map (·.origin)).count .ofReturn = 2 ∧
        ∃ qs, Request.Disciplined qs ∧ Runs (Request.runAll qs) {} () s.toBuilder ∧
          OneForEach qs s.toBuilder) ∧
    ∃ L, Sample.parity.program.lower.result = .ok L ∧
      ∃ (qs : List Request) (s : Builder), Request.Disciplined qs ∧
        Runs (Request.runAll qs) {} () s ∧ s.graph = L.graph ∧
        ∀ before, before <+: qs → ∃ t, Runs (Request.runAll before) {} () t ∧ OneForEach before t := by
  obtain ⟨⟨u, s⟩, h⟩ :=
    exists_eq_ok (x := ((Request.runAll Request.knot).run {}).result) (by decide +kernel)
  obtain ⟨L, hL⟩ := exists_eq_ok (x := Sample.parity.program.lower.result) (by decide +kernel)
  have hone := returnLayout_oneForEach.1 _ s Request.disciplined_knot h
  have herror : Program.lost.lower.result.toBool = false := by decide +kernel
  obtain ⟨b, s', hvisit, hcount⟩ := Program.visits_lost
  refine ⟨⟨s, Request.disciplined_knot, h, hone, hone.count.trans (by decide)⟩, ⟨?_, b, s', hvisit,
    hcount, returnLayout_oneForEach.2.1 _ _ _ hvisit⟩, L, hL, returnLayout_oneForEach.2.2 _ L hL⟩
  cases hlost : Program.lost.lower.result with
  | ok L => simp [hlost, Except.toBool] at herror
  | error e => exact ⟨e, rfl⟩

end BlockGraph
