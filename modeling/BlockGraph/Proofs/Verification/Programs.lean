import BlockGraph.Proofs.Course.Proceeding
import BlockGraph.Proofs.Graph.Condensation
import BlockGraph.Proofs.Linearity.Programs

namespace BlockGraph

namespace Builder

variable {s s' : Builder}

theorem finish_block? {b c : BlockId} {u : Unit} {B : Block} (h : Runs (finish b) s u s')
    (hB : s'.graph.block? c = some B) : ∃ C, s.graph.block? c = some C ∧
      B = { C with isFinal := B.isFinal } := by
  obtain ⟨B₁, -, -, rfl⟩ := runs_finish.1 h
  rw [updateBlock_block?] at hB
  split at hB
  · obtain ⟨C, hC, rfl⟩ := Option.map_eq_some_iff.1 hB
    exact ⟨C, hC, rfl⟩
  · exact ⟨B, hB, rfl⟩

end Builder

open Builder Lowering

namespace Program

variable {p : Program} {L : Lowered}

theorem lower_block {b : BlockId} {B : Block} (h : p.lower.result = .ok L)
    (hB : L.graph.block? b = some B) :
    B.CopiesTyped ∧ ∃ B' n, B.propagateCopies = .ok (B', n) := by
  obtain ⟨entry, s, hrun, rfl⟩ := lower_eq_ok.1 h
  have hsound := ((within_program p).proceeds hrun).sound State.sound_empty
  obtain ⟨rfl, o, s₁, hbody, hend⟩ := runs_lowerProgram.1 hrun
  obtain ⟨htidy, -, -⟩ := (tidies_lowerScope none ⟨0⟩ p.body initial_tidy).holds hbody
  obtain ⟨C, hC, hBC⟩ : ∃ C, s₁.graph.block? b = some C ∧ B = { C with isFinal := B.isFinal } := by
    cases o with
    | none => exact ⟨B, by rw [← hend]; exact hB, rfl⟩
    | some c =>
      obtain ⟨t, hfinish, rfl⟩ := hend
      exact finish_block? hfinish hB
  have hchecked := (hsound.checked b B hB).2
  have hlive := (htidy.builder.blocks b C hC).live
  have hown : B.NamesOwn := by
    refine ⟨hchecked.operands, fun e he => (hchecked.leaves e he).contains, ?_⟩
    intro r hr
    rw [hBC] at hr ⊢
    obtain ⟨t, ht, -⟩ := hlive r hr
    exact Block.contains_of_typeOf? ht
  exact ⟨hsound.copies b B hB, B.condensed, B.copyCount, hown.propagateCopies⟩

/-- Copy propagation neither breaks a rule of a graph nor hides that one is broken, as long as copies have
the types of what they copy. In the graph of a program they have, and the propagation goes through. -/
theorem lower_violations_iff :
    (∀ (g g' : Graph) (removed : Nat), g.CopiesTyped →
      g.propagateCopies.result = .ok (g', removed) →
      ∀ entries, g'.violations entries = [] ↔ g.violations entries = []) ∧
    ∀ (p : Program) (L : Lowered), p.lower.result = .ok L →
      L.graph.CopiesTyped ∧ ∃ g' removed, L.graph.propagateCopies.result = .ok (g', removed) ∧
        (g'.violations L.entries = [] ↔ L.graph.violations L.entries = []) := by
  constructor
  · intro g g' removed hcopies h entries
    exact Graph.violations_iff_of_propagateCopies h hcopies entries
  · intro p L h
    have hcopies : L.graph.CopiesTyped := fun b B hB => (lower_block h hB).1
    obtain ⟨g', removed, hg'⟩ := Graph.exists_propagateCopies (g := L.graph) fun B hB => by
      obtain ⟨n, hn⟩ := List.mem_iff_getElem?.1 hB
      exact (lower_block (b := ⟨n⟩) h hn).2
    exact ⟨hcopies, g', removed, hg', Graph.violations_iff_of_propagateCopies hg' hcopies L.entries⟩

theorem lower_violations_iff_of_parity :
    (∃ g', Graph.copyChain.CopiesTyped ∧ Graph.copyChain.propagateCopies.result = .ok (g', 2) ∧
      (g'.violations [⟨0⟩] = [] ↔ Graph.copyChain.violations [⟨0⟩] = [])) ∧
    ∃ L, Sample.parity.program.lower.result = .ok L ∧ L.graph.CopiesTyped ∧
      ∃ g' removed, L.graph.propagateCopies.result = .ok (g', removed) ∧
        (g'.violations L.entries = [] ↔ L.graph.violations L.entries = []) := by
  have htyped : Graph.copyChain.CopiesTyped := by
    have hall : ∀ B ∈ Graph.copyChain.blocks, ∀ i ∈ B.instructions, ∀ r ∈ i.operation.copy?,
        B.typeOf? r = some i.type := by decide +kernel
    intro b B hB r type hmem
    exact hall B (List.mem_of_getElem? hB) _ hmem r rfl
  obtain ⟨L, hL⟩ := exists_eq_ok (x := Sample.parity.program.lower.result) (by decide +kernel)
  exact ⟨⟨_, htyped, rfl, lower_violations_iff.1 _ _ 2 htyped rfl [⟨0⟩]⟩,
    L, hL, lower_violations_iff.2 _ L hL⟩

end Program

end BlockGraph
