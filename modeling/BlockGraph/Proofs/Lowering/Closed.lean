import BlockGraph.Proofs.Lowering.Statements
import BlockGraph.Sample

namespace BlockGraph

namespace Block

variable {b : Block} {g : Graph}

theorem HasTypes.filterMap {rs : List Register} {ts : List ValueType} (h : b.HasTypes rs ts) :
    rs.filterMap b.typeOf? = ts := by
  induction h with
  | nil => rfl
  | cons hr _ ih => rw [List.filterMap_cons_some hr, ih]

theorem Passes.edgeViolations {e : Edge} (h : b.Passes e) : b.edgeViolations e = [] := by
  obtain ⟨ts, ht, ha⟩ := h
  simp [Block.edgeViolations, ht, ha.filterMap]

theorem Passes.contains {e : Edge} (h : b.Passes e) : ∀ r ∈ e.registers, b.contains r = true := by
  obtain ⟨ts, ht, ha⟩ := h
  intro r hr
  rcases List.mem_cons.1 hr with rfl | hr
  · exact contains_of_typeOf? ht
  · exact ha.contains r hr

theorem Leaves.contains {t : Terminator} (h : b.Leaves t) :
    ∀ r ∈ t.registers, b.contains r = true := by
  obtain ⟨hc, he⟩ := h
  cases t with
  | goto e => exact (he e (by simp [Terminator.edges])).contains
  | branch c onTrue onFalse =>
    intro r hr
    simp only [Terminator.registers, List.mem_cons, List.mem_append] at hr
    rcases hr with rfl | hr | hr
    · exact hc r (by simp [Terminator.condition?])
    · exact (he onTrue (by simp [Terminator.edges])).contains r hr
    · exact (he onFalse (by simp [Terminator.edges])).contains r hr

namespace Checked

theorem instructionViolations (h : b.Checked g) : b.instructionViolations g = [] := by
  simp only [Block.instructionViolations, List.flatMap_eq_nil_iff, List.append_eq_nil_iff,
    Prod.forall]
  intro i n hi
  have hget : b.instructions[n]? = some i := List.mem_zipIdx_iff_getElem?.1 hi
  refine ⟨?_, ?_⟩
  · simp only [operandViolations, List.map_eq_nil_iff, List.filter_eq_nil_iff, decide_eq_true_eq]
    intro r hr
    have hlt := h.operands n i hget r hr
    omega
  · unfold referenceViolations
    split
    · rfl
    case h_2 target htarget =>
      obtain ⟨T, hT, ht⟩ := h.references i (List.mem_of_getElem? hget) target htarget
      simp [hT, ht]

theorem terminatorViolations (h : b.Checked g) :
    ∀ v ∈ b.terminatorViolations, ∃ r, v = .conditionType b.id r := by
  unfold Block.terminatorViolations
  split
  · simp
  case h_2 t ht =>
    have hleaves := h.leaves t ht
    have hfind : t.registers.find? (fun r => !b.contains r) = none := by
      simpa using hleaves.contains
    have hedges : t.edges.flatMap b.edgeViolations = [] := by
      rw [List.flatMap_eq_nil_iff]
      exact fun e he => (hleaves.2 e he).edgeViolations
    rw [hfind]
    simp only [hedges, List.append_nil]
    intro v hv
    cases t with
    | goto e => simp [conditionViolations] at hv
    | branch c onTrue onFalse =>
      simp only [conditionViolations] at hv
      split at hv
      · simp at hv
      · exact ⟨c, List.mem_singleton.1 hv⟩

theorem violations (h : b.Checked g) :
    ∀ v ∈ b.violations g, ∃ r, v = .conditionType b.id r := by
  rw [Block.violations, h.instructionViolations, List.nil_append]
  exact h.terminatorViolations

end Checked

end Block

namespace Graph

theorem Checked.violations {g : Graph} (h : g.Checked)
    (hclosed : ∀ b B, g.block? b = some B → B.isTerminated = true) (entries : List BlockId) :
    ∀ v ∈ g.violations entries, ∃ b r, v = .conditionType b r := by
  intro v hv
  rcases List.mem_append.1 hv with hv | hv
  · obtain ⟨B, hB, hv⟩ := List.mem_flatMap.1 hv
    obtain ⟨n, hn⟩ := List.mem_iff_getElem?.1 hB
    obtain ⟨-, hchecked⟩ := h ⟨n⟩ B hn
    obtain ⟨r, rfl⟩ := hchecked.violations v hv
    exact ⟨B.id, r, rfl⟩
  · obtain ⟨b, hb, -⟩ := List.mem_map.1 hv
    have hopen := (List.mem_filter.1 hb).2
    unfold unterminated at hopen
    cases hB : g.block? b with
    | none => simp [hB] at hopen
    | some B => simp [hB, hclosed b B hB] at hopen

end Graph

namespace Lowering

open Builder

variable {p : Program} {s : State} {entry : BlockId}

def initial : State :=
  { graph := { blocks := [{ id := ⟨0⟩, parameters := [] }], layouts := [returning ⟨0⟩ (.prim .void)] }
    returnLayouts := ⟨[(.prim .void, ⟨0⟩)], by simp⟩ }

theorem runs_lowerProgram :
    Runs (lowerProgram p) {} entry s ↔ entry = ⟨0⟩ ∧ ∃ o s₁,
      Runs (lowerScope none ⟨0⟩ p.body) initial o s₁ ∧
      match o with
      | none => s = s₁
      | some b => ∃ t, Runs (finish b) s₁.toBuilder () t ∧ s = { s₁ with toBuilder := t } := by
  have hstart : Runs (do let _ ← returnLayout (.prim .void); addBlock [] : LowerM BlockId) {} ⟨0⟩
      initial := rfl
  have hsplit : lowerProgram p =
      (do let _ ← returnLayout (.prim .void); addBlock [] : LowerM BlockId) >>= _ :=
    (bind_assoc ..).symm
  rw [hsplit, Runs.bind_iff]
  constructor
  · rintro ⟨_, t, h, h'⟩
    obtain ⟨rfl, rfl⟩ := h.unique hstart
    simp only [Runs.bind_iff] at h'
    obtain ⟨o, s₁, hbody, h'⟩ := h'
    cases o with
    | none =>
      simp only [Runs.bind_iff, Runs.get_iff, Runs.lift_build_iff, runs_tell, Runs.pure_iff] at h'
      obtain ⟨_, _, ⟨rfl, rfl⟩, _, _, ⟨_, rfl, rfl⟩, rfl, rfl⟩ := h'
      exact ⟨rfl, none, _, hbody, rfl⟩
    | some b =>
      simp only [Runs.bind_iff, Runs.get_iff, Runs.lift_build_iff, runs_tell, Runs.pure_iff] at h'
      obtain ⟨_, _, ⟨t, hfinish, rfl⟩, _, _, ⟨rfl, rfl⟩, _, _, ⟨_, rfl, rfl⟩, rfl, rfl⟩ := h'
      exact ⟨rfl, some b, s₁, hbody, _, hfinish, rfl⟩
  · rintro ⟨rfl, o, s₁, hbody, h⟩
    refine ⟨_, _, hstart, ?_⟩
    simp only [Runs.bind_iff]
    refine ⟨o, s₁, hbody, ?_⟩
    cases o with
    | none =>
      subst h
      simp only [Runs.bind_iff, Runs.get_iff, Runs.lift_build_iff, runs_tell, Runs.pure_iff]
      exact ⟨s, s, ⟨rfl, rfl⟩, (), s, ⟨_, rfl, rfl⟩, trivial, rfl⟩
    | some b =>
      obtain ⟨t, hfinish, rfl⟩ := h
      simp only [Runs.bind_iff, Runs.get_iff, Runs.lift_build_iff, runs_tell, Runs.pure_iff]
      exact ⟨(), _, ⟨t, hfinish, rfl⟩, _, _, ⟨rfl, rfl⟩, (), _, ⟨_, rfl, rfl⟩, trivial, rfl⟩

theorem shifts_lowerProgram (hp : p.DistinctFunctions) {o : Option BlockId} {s₁ : State}
    (h : Runs (lowerScope none ⟨0⟩ p.body) initial o s₁) :
    ∃ E, Moves E [⟨0⟩] initial.toBuilder o.toList s₁.toBuilder ∧
      ∀ e ∈ E, ∃ (k : Nat) (r : FunctionEntry), s₁.functions[k]? = some r ∧ r.entry = e := by
  have hshift := shifts_lowerScope p.body hp h
  obtain ⟨E, N, hmoves, hwait, hentries⟩ := hshift.moves
  have hloops : s₁.loops = [] := List.forall₂_nil_left_iff.1 hshift.loops
  obtain rfl : N = [] := by simpa [hloops, waiting, initial] using hwait
  refine ⟨E, by simpa using hmoves, fun e he => ?_⟩
  obtain ⟨f, -, r, hr⟩ := hentries e he
  exact ⟨f.index, r, hr⟩

theorem initial_block? (b : BlockId) :
    initial.graph.block? b = if b = ⟨0⟩ then some { id := ⟨0⟩, parameters := [] } else none := by
  obtain ⟨n⟩ := b
  cases n <;> simp [initial, Graph.block?]

theorem initial_opens : initial.graph.Opens [⟨0⟩] := by
  refine ⟨by simp, fun b => ?_⟩
  rw [Graph.IsOpen, initial_block?]
  by_cases hb : b = ⟨0⟩ <;> simp [hb, Block.isTerminated]

theorem initial_checked : initial.graph.Checked := by
  intro b B hB
  rw [initial_block?] at hB
  split at hB
  · obtain rfl := Option.some.inj hB
    rename_i hb
    exact ⟨hb.symm, .of_isEmpty ⟨rfl, rfl, rfl⟩⟩
  · simp at hB

theorem initial_registered : initial.Registered :=
  ⟨by simp [initial], by simp [initial], by simp [initial], by simp [initial]⟩

theorem initial_notFinal : ∀ b B, initial.graph.block? b = some B → B.isFinal = false := by
  intro b B hB
  rw [initial_block?] at hB
  split at hB
  · obtain rfl := Option.some.inj hB
    rfl
  · simp at hB

end Lowering

open Builder Lowering

theorem Program.lower_eq_ok {p : Program} {L : Lowered} :
    p.lower.result = .ok L ↔ ∃ entry s, Runs (lowerProgram p) {} entry s ∧ L =
      { graph := s.graph, entry, functions := s.functions.toList.map fun (n, e) => (⟨n⟩, e),
        classes := s.classes.toList.map fun (n, l) => (⟨n⟩, l), diagnostics := s.diagnostics } := by
  simp only [Program.lower, Logged.bind_result_eq_ok, Logged.pure_result, Except.ok.injEq]
  constructor
  · rintro ⟨⟨entry, s⟩, h, rfl⟩
    exact ⟨entry, s, h, rfl⟩
  · rintro ⟨entry, s, h, rfl⟩
    exact ⟨(entry, s), h, rfl⟩

theorem Builder.finished {s t : Builder} {o : Option BlockId} (hchecked : s.graph.Checked)
    (hopens : s.graph.Opens o.toList)
    (hnot : ∀ b B, s.graph.block? b = some B → B.isFinal = false)
    (h : match o with
      | none => t = s
      | some b => Runs (finish b) s () t) :
    t.graph.Checked ∧ s.graph.Extends t.graph ∧
      (∀ b B, t.graph.block? b = some B → ∃ B', s.graph.block? b = some B') ∧
      ∀ b B, t.graph.block? b = some B → B.isTerminated = true ∧ (B.isFinal = true → o = some b) := by
  have hclosed : ∀ b B, s.graph.block? b = some B → b ∉ o.toList → B.isTerminated = true := by
    intro b B hB hb
    by_contra hopen
    exact hb ((hopens.2 b).1 ⟨B, hB, by simpa using hopen⟩)
  cases o with
  | none =>
    obtain rfl : t = s := h
    exact ⟨hchecked, .refl _, fun b B hB => ⟨B, hB⟩, fun b B hB =>
      ⟨hclosed b B hB (by simp), by simp [hnot b B hB]⟩⟩
  | some c =>
    obtain ⟨C, hC, hopen, rfl⟩ := runs_finish.1 h
    have hext : s.graph.Extends (s.updateBlock c ({ · with isFinal := true })).graph := by
      refine .modifyBlock fun B hB => ?_
      obtain rfl := Option.some.inj (hC.symm.trans hB)
      exact ⟨rfl, rfl, rfl, List.prefix_rfl, by simp [hopen]⟩
    refine ⟨hchecked.modifyBlock hext fun B hB hB' => ?_, hext, fun b B hB => ?_, fun b B hB => ?_⟩
    · obtain rfl := Option.some.inj (hC.symm.trans hB)
      have hnone : C.terminator = none := by simpa [Block.isTerminated, hnot c C hC] using hopen
      exact ⟨rfl, hB'.operands, hB'.references, hB'.leaves, fun _ => hnone⟩
    · rw [updateBlock_block?] at hB
      split at hB
      · obtain ⟨B', hB', -⟩ := Option.map_eq_some_iff.1 hB
        exact ⟨B', hB'⟩
      · exact ⟨B, hB⟩
    · rw [updateBlock_block?] at hB
      split at hB
      case isTrue hb =>
        obtain ⟨B', -, rfl⟩ := Option.map_eq_some_iff.1 hB
        simp [Block.isTerminated, hb]
      case isFalse hb => exact ⟨hclosed b B hB (by simpa using hb), by simp [hnot b B hB]⟩

/-- The graph of a program whose functions are distinct is closed. Every block has a terminator or is
final, but not both, and at most one block is final; every block can be reached from an entry; and
there is no violation but of the type of a branch condition. -/
theorem Program.lower_closed {p : Program} (hp : p.DistinctFunctions) {L : Lowered}
    (h : p.lower.result = .ok L) :
    (∀ B ∈ L.graph.blocks, B.terminator.isSome = !B.isFinal) ∧
    (∀ b c B C, L.graph.block? b = some B → L.graph.block? c = some C → B.isFinal = true →
      C.isFinal = true → b = c) ∧
    (∀ b B, L.graph.block? b = some B → ∃ e ∈ L.entries, L.graph.Reaches e b) ∧
    ∀ v ∈ L.graph.violations L.entries, ∃ b r, v = .conditionType b r := by
  obtain ⟨entry, s, hrun, rfl⟩ := lower_eq_ok.1 h
  obtain ⟨rfl, o, s₁, hbody, hend⟩ := runs_lowerProgram.1 hrun
  obtain ⟨E, hmoves, hentries⟩ := shifts_lowerProgram hp hbody
  have hopens : s₁.graph.Opens o.toList := by
    simpa using hmoves.opens [] (by simpa using initial_opens)
  have hfunctions : s.functions = s₁.functions := by
    cases o with
    | none => rw [hend]
    | some b =>
      obtain ⟨t, -, rfl⟩ := hend
      rfl
  obtain ⟨hchecked, hext, hback, hclosed⟩ := Builder.finished (t := s.toBuilder)
    (hmoves.steps.checked initial_checked) hopens (hmoves.steps.notFinal initial_notFinal) (by
      cases o with
      | none => rw [hend]
      | some b =>
        obtain ⟨t, ht, rfl⟩ := hend
        exact ht)
  refine ⟨fun B hB => ?_, fun b c B C hB hC hb hc => ?_, fun b B hB => ?_,
    hchecked.violations (fun b B hB => (hclosed b B hB).1) _⟩
  · obtain ⟨n, hn⟩ := List.mem_iff_getElem?.1 hB
    have hterm := (hclosed ⟨n⟩ B hn).1
    have hnot := (hchecked ⟨n⟩ B hn).2.notBoth
    cases hf : B.isFinal with
    | true => simp [hnot hf]
    | false => simpa [Block.isTerminated, hf] using hterm
  · have hb' := (hclosed b B hB).2 hb
    have hc' := (hclosed c C hC).2 hc
    exact Option.some.inj (hb'.symm.trans hc')
  · obtain ⟨B', hB'⟩ := hback b B hB
    by_cases hb : b = ⟨0⟩
    · exact ⟨b, by simp [Lowered.entries, hb], .refl⟩
    · obtain ⟨x, hx, hreach⟩ := hmoves.reach b (by simp [initial_block?, hb]) (by simp [hB'])
      refine ⟨x, ?_, hext.reaches hreach⟩
      rcases hx with hx | hx
      · obtain ⟨k, r, hr, rfl⟩ := hentries x hx
        rw [← hfunctions] at hr
        have hmem := Std.TreeMap.mem_toList_iff_getElem?_eq_some.2 hr
        simp only [Lowered.entries, List.map_map, List.mem_cons, List.mem_map]
        exact .inr ⟨(k, r), hmem, rfl⟩
      · simp [Lowered.entries, List.mem_singleton.1 hx]

theorem Program.lower_closed_of_loops :
    ∃ L, Sample.loops.program.lower.result = .ok L ∧
      (∀ B ∈ L.graph.blocks, B.terminator.isSome = !B.isFinal) ∧
      (∀ b c B C, L.graph.block? b = some B → L.graph.block? c = some C → B.isFinal = true →
        C.isFinal = true → b = c) ∧
      (∀ b B, L.graph.block? b = some B → ∃ e ∈ L.entries, L.graph.Reaches e b) ∧
      ∀ v ∈ L.graph.violations L.entries, ∃ b r, v = .conditionType b r := by
  obtain ⟨L, hL⟩ := exists_eq_ok (x := Sample.loops.program.lower.result) (by decide +kernel)
  exact ⟨L, hL, lower_closed (by decide) hL⟩

end BlockGraph
