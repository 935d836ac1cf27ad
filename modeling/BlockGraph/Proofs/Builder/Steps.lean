import BlockGraph.Proofs.Builder.Children
import BlockGraph.Proofs.Builder.Layouts

namespace BlockGraph

def Terminator.condition? : Terminator → Option Register
  | .goto _ => none
  | .branch c _ _ => some c

def Operation.isPlain : Operation → Bool
  | .blockRef _ | .copy _ => false
  | _ => true

namespace Block

def Leaves (b : Block) (t : Terminator) : Prop :=
  (∀ c ∈ t.condition?, b.contains c = true) ∧ ∀ e ∈ t.edges, b.Passes e

structure Admits (b : Block) (g : Graph) (i : Instruction) : Prop where
  operands : ∀ r ∈ i.operation.operands, b.contains r = true
  reference : ∀ c, i.operation.blockRef? = some c →
    ∃ C, g.block? c = some C ∧ i.type = .blockRef C.parameterTypes
  copy : ∀ r, i.operation.copy? = some r → b.typeOf? r = some i.type

theorem Admits.of_isPlain {b : Block} {g : Graph} {op : Operation} {t : ValueType}
    (hop : op.isPlain = true) (hops : ∀ r ∈ op.operands, b.contains r = true) :
    b.Admits g ⟨op, t⟩ := by
  refine ⟨hops, fun c hc => ?_, fun r hr => ?_⟩
  · cases op <;> simp_all [Operation.isPlain, Operation.blockRef?]
  · cases op <;> simp_all [Operation.isPlain, Operation.copy?]

theorem Admits.of_blockRef {b : Block} {g : Graph} {c : BlockId} {C : Block}
    (hC : g.block? c = some C) : b.Admits g ⟨.blockRef c, .blockRef C.parameterTypes⟩ := by
  refine ⟨by simp [Operation.operands], fun d hd => ?_, by simp [Operation.copy?]⟩
  obtain rfl : c = d := by simpa [Operation.blockRef?] using hd
  exact ⟨C, hC, rfl⟩

def IsEmpty (b : Block) : Prop := b.instructions = [] ∧ b.terminator = none ∧ b.isFinal = false

end Block

namespace Builder

inductive Step (s : Builder) : Builder → Prop
  | push {b : BlockId} {B : Block} {i : Instruction} : s.graph.block? b = some B →
      B.isTerminated = false → B.Admits s.graph i → Step s (s.updateBlock b (·.push i))
  | close {b : BlockId} {B : Block} {t : Terminator} : s.graph.block? b = some B →
      B.isTerminated = false → B.Leaves t → Step s (s.updateBlock b (·.close t))
  | relocate (b : BlockId) (l : Locals) : Step s (s.updateBlock b (·.withLocals l))
  | append {new : Block} : new.id = s.graph.nextId → new.IsEmpty → Step s (s.appendBlock new)
  | report (ds : List Diagnostic) : Step s { s with diagnostics := s.diagnostics ++ ds }
  | layout (L : Layout) : Step s (s.appendLayout L)
  | register {result : ValueType} {s' : Builder} : s.Registers result s' → Step s s'
  | setFields (l : LayoutId) (fields : List ValueType) : Step s (s.setFields l fields)

abbrev Steps : Builder → Builder → Prop := Relation.ReflTransGen Step

variable {s s' : Builder}

theorem Step.graph_extends (h : Step s s') : s.graph.Extends s'.graph := by
  cases h with
  | push hB hopen _ =>
    refine .modifyBlock fun B' hB' => ?_
    obtain rfl := Option.some.inj (hB.symm.trans hB')
    exact .push hopen _
  | close hB hopen _ =>
    refine .modifyBlock fun B' hB' => ?_
    obtain rfl := Option.some.inj (hB.symm.trans hB')
    exact .close hopen _
  | relocate b l => exact .modifyBlock fun B _ => .withLocals B l
  | append _ _ => exact .append _ _
  | report ds => exact .refl _
  | layout L => exact fun b B hB => ⟨B, hB, .refl B⟩
  | register h => exact fun b B hB => ⟨B, by rw [h.2.1]; exact hB, .refl B⟩
  | setFields l fields => exact fun b B hB => ⟨B, hB, .refl B⟩

theorem Steps.graph_extends (h : Steps s s') : s.graph.Extends s'.graph := by
  induction h with
  | refl => exact .refl _
  | tail _ hstep ih => exact ih.trans hstep.graph_extends

theorem Steps.diagnostics (h : Steps s s') : s.diagnostics ⊆ s'.diagnostics := by
  induction h with
  | refl => exact List.Subset.refl _
  | tail _ hstep ih =>
    refine List.Subset.trans ih ?_
    cases hstep with
    | report ds => exact List.subset_append_left _ _
    | register h => rw [h.2.2.1]; exact List.Subset.refl _
    | _ => exact List.Subset.refl _

end Builder

namespace Block

structure Checked (b : Block) (g : Graph) : Prop where
  operands : ∀ n i, b.instructions[n]? = some i →
    ∀ r ∈ i.operation.operands, r.index < b.parameters.length + n
  references : ∀ i ∈ b.instructions, ∀ c, i.operation.blockRef? = some c →
    ∃ C, g.block? c = some C ∧ i.type = .blockRef C.parameterTypes
  leaves : ∀ t, b.terminator = some t → b.Leaves t
  notBoth : b.isFinal = true → b.terminator = none

variable {b b' : Block} {g g' : Graph}

namespace Checked

theorem mono (h : b.Checked g) (hg : g.Extends g') : b.Checked g' where
  operands := h.operands
  references i hi c hc := by
    obtain ⟨C, hC, ht⟩ := h.references i hi c hc
    obtain ⟨C', hC', hext⟩ := hg c C hC
    exact ⟨C', hC', by rw [ht, hext.parameterTypes]⟩
  leaves := h.leaves
  notBoth := h.notBoth

theorem push (h : b.Checked g) (hopen : b.isTerminated = false) {i : Instruction}
    (hi : b.Admits g i) : (b.push i).Checked g where
  operands n j hj r hr := by
    rw [push_instructions, List.getElem?_append] at hj
    split at hj
    · exact h.operands n j hj r hr
    · obtain ⟨hn, rfl⟩ : n - b.instructions.length = 0 ∧ i = j := by
        rcases hk : n - b.instructions.length with _ | k <;> simp_all
      have hlt := contains_iff.1 (hi.operands r hr)
      unfold registerCount at hlt
      simp only [push_parameters]
      omega
  references j hj c hc := by
    rw [push_instructions, List.mem_append, List.mem_singleton] at hj
    rcases hj with hj | rfl
    · exact h.references j hj c hc
    · exact hi.reference c hc
  leaves t ht := by
    rw [push_terminator] at ht
    simp [isTerminated, ht] at hopen
  notBoth hf := by
    rw [push_isFinal] at hf
    simp [isTerminated, hf] at hopen

theorem close (h : b.Checked g) (hopen : b.isTerminated = false) {t : Terminator}
    (ht : b.Leaves t) : (b.close t).Checked g where
  operands := h.operands
  references := h.references
  leaves t' ht' := by
    obtain rfl : t = t' := by simpa using ht'
    exact ht
  notBoth hf := by
    rw [close_isFinal] at hf
    simp [isTerminated, hf] at hopen

theorem withLocals (h : b.Checked g) (l : Locals) : (b.withLocals l).Checked g :=
  ⟨h.operands, h.references, h.leaves, h.notBoth⟩

theorem of_isEmpty (h : b.IsEmpty) : b.Checked g where
  operands n i hi := by simp [h.1] at hi
  references i hi := by simp [h.1] at hi
  leaves t ht := by simp [h.2.1] at ht
  notBoth _ := h.2.1

end Checked

end Block

namespace Graph

def Checked (g : Graph) : Prop := ∀ b B, g.block? b = some B → B.id = b ∧ B.Checked g

theorem Checked.modifyBlock {g : Graph} (hg : g.Checked) {b : BlockId} {f : Block → Block}
    (hext : g.Extends (g.modifyBlock b f))
    (hf : ∀ B, g.block? b = some B → B.Checked g → (f B).id = B.id ∧ (f B).Checked g) :
    (g.modifyBlock b f).Checked := by
  intro c C hC
  rw [block?_modifyBlock] at hC
  split at hC
  case isTrue hc =>
    subst hc
    obtain ⟨B, hB, rfl⟩ := Option.map_eq_some_iff.1 hC
    obtain ⟨hid, hB'⟩ := hg _ B hB
    obtain ⟨hid', hchecked⟩ := hf B hB hB'
    exact ⟨hid'.trans hid, hchecked.mono hext⟩
  case isFalse => exact ⟨(hg c C hC).1, (hg c C hC).2.mono hext⟩

end Graph

namespace Builder

variable {s s' : Builder}

theorem Step.checked (h : Step s s') (hs : s.graph.Checked) : s'.graph.Checked := by
  have hext := h.graph_extends
  cases h with
  | push hB hopen hi =>
    refine hs.modifyBlock hext fun B' hB' hchecked => ?_
    obtain rfl := Option.some.inj (hB.symm.trans hB')
    exact ⟨rfl, hchecked.push hopen hi⟩
  | close hB hopen ht =>
    refine hs.modifyBlock hext fun B' hB' hchecked => ?_
    obtain rfl := Option.some.inj (hB.symm.trans hB')
    exact ⟨rfl, hchecked.close hopen ht⟩
  | relocate b l => exact hs.modifyBlock hext fun B _ hchecked => ⟨rfl, hchecked.withLocals l⟩
  | append hid hempty =>
    intro c C hC
    rw [appendBlock_block?] at hC
    split at hC
    case isTrue hc =>
      obtain rfl := Option.some.inj hC
      exact ⟨hid.trans hc.symm, .of_isEmpty hempty⟩
    case isFalse => exact ⟨(hs c C hC).1, (hs c C hC).2.mono hext⟩
  | report ds => exact hs
  | layout L => exact fun c C hC => ⟨(hs c C hC).1, (hs c C hC).2.mono hext⟩
  | register h =>
    intro c C hC
    have hC' : s.graph.block? c = some C := by rwa [h.2.1] at hC
    exact ⟨(hs c C hC').1, (hs c C hC').2.mono hext⟩
  | setFields l fields => exact fun c C hC => ⟨(hs c C hC).1, (hs c C hC).2.mono hext⟩

theorem Steps.checked (h : Steps s s') (hs : s.graph.Checked) : s'.graph.Checked := by
  induction h with
  | refl => exact hs
  | tail _ hstep ih => exact hstep.checked ih

theorem Step.notFinal (h : Step s s')
    (hs : ∀ b B, s.graph.block? b = some B → B.isFinal = false) :
    ∀ b B, s'.graph.block? b = some B → B.isFinal = false := by
  have update (b : BlockId) (f : Block → Block) (hf : ∀ B, (f B).isFinal = B.isFinal) :
      ∀ c C, (s.updateBlock b f).graph.block? c = some C → C.isFinal = false := by
    intro c C hC
    rw [updateBlock_block?] at hC
    split at hC
    · obtain ⟨B, hB, rfl⟩ := Option.map_eq_some_iff.1 hC
      rw [hf, hs _ B hB]
    · exact hs c C hC
  cases h with
  | push _ _ _ => exact update _ _ fun _ => rfl
  | close _ _ _ => exact update _ _ fun _ => rfl
  | relocate b l => exact update _ _ fun _ => rfl
  | append _ hempty =>
    intro c C hC
    rw [appendBlock_block?] at hC
    split at hC
    · obtain rfl := Option.some.inj hC
      exact hempty.2.2
    · exact hs c C hC
  | report ds => exact hs
  | layout L => exact hs
  | register h =>
    rw [h.2.1]
    exact hs
  | setFields l fields => exact hs

theorem Steps.notFinal (h : Steps s s')
    (hs : ∀ b B, s.graph.block? b = some B → B.isFinal = false) :
    ∀ b B, s'.graph.block? b = some B → B.isFinal = false := by
  induction h with
  | refl => exact hs
  | tail _ hstep ih => exact hstep.notFinal ih

end Builder

end BlockGraph
