import BlockGraph.Proofs.Lowering.Closed
import BlockGraph.Proofs.Totality.Scopes

namespace BlockGraph

namespace Lowering

open Builder Analysis

variable {p : Program}

theorem heapTyped_finish {b : BlockId} : KeepsHeap (finish b) := by
  intro s u s' h hs
  obtain ⟨B, hB, hopen, rfl⟩ := runs_finish.1 h
  exact heapTyped_updateBlock hs hB ⟨rfl, rfl, rfl, List.prefix_rfl, by simp [hopen]⟩
    fun i hi => .inl hi

theorem initial_returning : initial.toBuilder.Returning := by
  intro t l hl
  by_cases ht : t = .prim .void
  · subst ht
    obtain rfl : (⟨0⟩ : LayoutId) = l := by simpa [initial, OrderedMap.get?] using hl
    rfl
  · simp [initial, OrderedMap.get?, List.lookup_cons, beq_false_of_ne ht] at hl

theorem initial_heapTyped : initial.graph.HeapTyped := by
  intro b B hB i hi
  rw [initial_block?] at hB
  split at hB
  · obtain rfl := Option.some.inj hB
    simp at hi
  · simp at hB

theorem standing_initial : Standing ⟨{}, none, none, none⟩ [] initial ⟨0⟩ [] where
  knows := ⟨by simp [Declared.fields?], by simp [Declared.functionType?], initial_returning⟩
  registered := initial_registered
  heap := initial_heapTyped
  frame := .program
  fits := ⟨{ id := ⟨0⟩, parameters := [] }, by rw [initial_block?, if_pos rfl], rfl, .nil, .nil, .nil⟩
  apart := ⟨[], by simpa [initial, waiting] using initial_opens⟩
  loops := .nil
  bases := by simp

theorem fresh_initial (hp : p.Analysed) : Fresh p.body.scopes initial :=
  ⟨hp.functions, hp.classes, by simp [initial], by simp [initial]⟩

theorem exists_runs_lowerProgram (hp : p.Analysed) :
    ∃ entry s, Runs (lowerProgram p) {} entry s ∧ s.graph.HeapTyped := by
  obtain ⟨⟨Δ, ks⟩, hcheck⟩ := Option.isSome_iff_exists.1 hp.body
  obtain ⟨o, s, hrun, hleaves⟩ := succeeds_lowerScope p.body standing_initial (fresh_initial hp) hcheck
  cases hleaves.continues with
  | never => exact ⟨⟨0⟩, s, runs_lowerProgram.2 ⟨rfl, none, s, hrun, rfl⟩, hleaves.heap⟩
  | @past b Γ hfits _ =>
    obtain ⟨B, hB, hopen, -⟩ := hfits
    have hfinish : Runs (finish b) s.toBuilder () _ := runs_finish.2 ⟨B, hB, hopen, rfl⟩
    exact ⟨⟨0⟩, _, runs_lowerProgram.2 ⟨rfl, some b, s, hrun, _, hfinish, rfl⟩,
      heapTyped_finish hfinish hleaves.heap⟩

end Lowering

open Lowering

/-- A program that passes the checks has a graph. -/
theorem Program.lower_total {p : Program} (hp : p.Analysed) : ∃ L, p.lower.result = .ok L := by
  obtain ⟨entry, s, hrun, -⟩ := exists_runs_lowerProgram hp
  exact ⟨_, lower_eq_ok.2 ⟨entry, s, hrun, rfl⟩⟩

theorem Program.lower_total_of_parity :
    Sample.parity.program.Analysed ∧ ∃ L, Sample.parity.program.lower.result = .ok L :=
  ⟨by decide +kernel, lower_total (by decide +kernel)⟩

/-- All accesses to objects and arrays in the graph of a program that passes the checks have the
types that the layouts give. The objects that functions return through and those that callers wait
in agree on their first field. -/
theorem Program.lower_heapTyped {p : Program} (hp : p.Analysed) :
    ∃ L, p.lower.result = .ok L ∧ L.graph.HeapTyped := by
  obtain ⟨entry, s, hrun, hheap⟩ := exists_runs_lowerProgram hp
  exact ⟨_, lower_eq_ok.2 ⟨entry, s, hrun, rfl⟩, hheap⟩

theorem Program.lower_heapTyped_of_calls :
    Sample.calls.program.Analysed ∧
      ∃ L, Sample.calls.program.lower.result = .ok L ∧ L.graph.HeapTyped :=
  ⟨by decide +kernel, lower_heapTyped (by decide +kernel)⟩

end BlockGraph
