import BlockGraph.Sample
import BlockGraph.Proofs.Linearity.Statements
import BlockGraph.Proofs.Linearity.Copies
import BlockGraph.Proofs.Lowering.Closed

namespace BlockGraph

open Builder Lowering

theorem Lowering.initial_tidy : initial.Tidy := by
  have hblock {c : BlockId} {B : Block} (hB : initial.graph.block? c = some B) :
      B = { id := ⟨0⟩, parameters := [] } := by
    rw [initial_block?] at hB
    split at hB
    · exact (Option.some.inj hB).symm
    · simp at hB
  have hlayout {l : LayoutId} {L : Layout} (hL : initial.graph.layout? l = some L) :
      L.origin = .ofReturn := by
    have hmem := List.mem_of_getElem? hL
    obtain rfl := List.mem_singleton.1 hmem
    rfl
  have hcode {d : BlockId} {q : Register} {i : Instruction} : ¬initial.graph.InstructionAt d q i := by
    rintro ⟨B, hB, hq⟩
    rw [hblock hB] at hq
    simp [Block.instruction?] at hq
  refine ⟨⟨⟨fun l hl => ?_, fun c R hR hresumes => ?_, fun d q o t hcast => ?_⟩,
    fun c B hB => ?_, fun t l hl => ?_⟩, by simp [initial], by simp [initial], by simp [initial]⟩
  · obtain ⟨L, hL, hcontext⟩ := hl
    simp [hlayout hL] at hcontext
  · exact absurd (congrArg Block.parameters (hblock hR)) hresumes.parameters
  · exact absurd hcast hcode
  · rw [hblock hB]
    exact .of_parameters rfl (by simp [Block.parameterTypes]) (fun r hr => by cases hr)
      (fun e he => by cases he)
  · have hmem : (t, l) ∈ initial.returnLayouts.entries := OrderedMap.mem_of_get? hl
    obtain ⟨-, rfl⟩ := Prod.mk.inj (List.mem_singleton.1 hmem)
    exact ⟨_, rfl, rfl⟩

/-- Continuations are linear. Each context of the graph is made by one instruction and cast to by one,
which is applied to the first parameter of the block where the caller goes on; the one reference to that
block is stored in the context when it is made, and has no other use. The same holds of a caller without
live values, whose continuation is stored in an object to return through. -/
theorem Program.lower_linear {p : Program} {L : Lowered} (h : p.lower.result = .ok L) :
    L.graph.Linear ∧
      ∀ g' removed, L.graph.propagateCopies.result = .ok (g', removed) → g'.Linear := by
  obtain ⟨entry, s, hrun, rfl⟩ := lower_eq_ok.1 h
  obtain ⟨rfl, o, s₁, hbody, hend⟩ := runs_lowerProgram.1 hrun
  obtain ⟨htidy, -, -⟩ := (tidies_lowerScope none ⟨0⟩ p.body initial_tidy).holds hbody
  have hlinear : s.graph.Linear := by
    cases o with
    | none => exact hend ▸ htidy.builder.linear
    | some b =>
      obtain ⟨t, ht, rfl⟩ := hend
      exact ((tidies_finish htidy.builder).holds ht).1.linear
  exact ⟨hlinear, fun g' removed hg' => (Graph.propagates_of_eq_ok hg').linear hlinear⟩

theorem Program.lower_linear_of_parity :
    ∃ L g' removed, Sample.parity.program.lower.result = .ok L ∧
      L.graph.propagateCopies.result = .ok (g', removed) ∧ L.graph.IsContext ⟨2⟩ ∧
      L.graph.Linear ∧ g'.Linear := by
  have hcontext : (Sample.parity.program.lower.result.toOption.bind fun L =>
      (L.graph.layout? ⟨2⟩).map (·.origin)) = some .ofContext := by decide +kernel
  have hcopies : (Sample.parity.program.lower.result.toOption.map fun L =>
      L.graph.propagateCopies.result.isOk) = some true := by decide +kernel
  obtain ⟨L, hL⟩ := exists_eq_ok (x := Sample.parity.program.lower.result) (by decide +kernel)
  simp only [hL, Except.toOption, Option.bind_some, Option.map_some, Option.some.injEq] at hcontext hcopies
  obtain ⟨K, hK, horigin⟩ := Option.map_eq_some_iff.1 hcontext
  obtain ⟨⟨g', removed⟩, hg'⟩ := exists_eq_ok hcopies
  obtain ⟨hlinear, hafter⟩ := lower_linear hL
  exact ⟨L, g', removed, hL, hg', ⟨K, hK, horigin⟩, hlinear, hafter g' removed hg'⟩

end BlockGraph
