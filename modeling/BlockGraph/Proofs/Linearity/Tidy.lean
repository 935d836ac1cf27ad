import BlockGraph.Proofs.Linearity.Handover
import BlockGraph.Proofs.Lowering.Calls

namespace BlockGraph

def Operation.isInert : Operation → Bool
  | .new _ | .blockRef _ | .cast .downcast _ => false
  | _ => true

namespace Graph

variable {g g' : Graph} {b : BlockId} {r : Register} {t : ValueType}

def Proper (g : Graph) (t : ValueType) : Prop :=
  ∀ l ts, t = .blockRef (.object l :: ts) → g.IsReturn l

theorem Proper.mono (h : g.Proper t) (hg : g.Preserves g') : g'.Proper t :=
  fun l ts ht => (h l ts ht).mono hg

structure Knows (g : Graph) (i : Instruction) : Prop where
  block : ∀ c, i.operation = .blockRef c → ∃ C, g.block? c = some C
  layout : ∀ l, i.operation = .new l → ∃ L, g.layout? l = some L

theorem Knows.mono {i : Instruction} (h : g.Knows i) (hg : g.Preserves g') : g'.Knows i := by
  refine ⟨fun c hc => ?_, fun l hl => ?_⟩
  · obtain ⟨C, hC⟩ := h.block c hc
    obtain ⟨C', hC', -⟩ := hg.blocks c C hC
    exact ⟨C', hC'⟩
  · obtain ⟨L, hL⟩ := h.layout l hl
    obtain ⟨L', hL', -⟩ := hg.origins l L hL
    exact ⟨L', hL'⟩

structure Plain (g : Graph) (i : Instruction) : Prop extends Spares g i, Knows g i where
  notDowncast : ∀ o, i.operation ≠ .cast .downcast o

theorem Plain.of_inert {op : Operation} (h : op.isInert = true) : g.Plain ⟨op, t⟩ where
  new l _ hi := by
    obtain rfl : op = .new l := congrArg Instruction.operation hi
    simp [Operation.isInert] at h
  refer c _ _ hi := by
    obtain rfl : op = .blockRef c := congrArg Instruction.operation hi
    simp [Operation.isInert] at h
  downcast o _ hi := by
    obtain rfl : op = .cast .downcast o := congrArg Instruction.operation hi
    simp [Operation.isInert] at h
  block c hc := by
    obtain rfl : op = .blockRef c := hc
    simp [Operation.isInert] at h
  layout l hl := by
    obtain rfl : op = .new l := hl
    simp [Operation.isInert] at h
  notDowncast o ho := by
    obtain rfl : op = .cast .downcast o := ho
    simp [Operation.isInert] at h

theorem Plain.of_blockRef {c : BlockId} (h : g.IsTarget c) : g.Plain ⟨.blockRef c, t⟩ where
  new _ _ hi := by simp at hi
  refer c' _ R hi hR := by
    obtain ⟨B, hB, hnot⟩ := h
    simp only [Instruction.mk.injEq, Operation.blockRef.injEq] at hi
    obtain rfl := Option.some.inj ((hi.1 ▸ hR).symm.trans hB)
    exact hnot
  downcast _ _ hi := by simp at hi
  block c' hc := by
    obtain ⟨B, hB, -⟩ := h
    exact ⟨B, Operation.blockRef.inj hc ▸ hB⟩
  layout := nofun
  notDowncast := nofun

theorem Plain.of_new {l : LayoutId} {L : Layout} (hL : g.layout? l = some L)
    (horigin : L.origin ≠ .ofContext) : g.Plain ⟨.new l, t⟩ where
  new l' _ hi := by
    simp only [Instruction.mk.injEq, Operation.new.injEq] at hi
    rintro ⟨L', hL', horigin'⟩
    obtain rfl := Option.some.inj (hL.symm.trans (hi.1 ▸ hL'))
    exact horigin horigin'
  refer _ _ _ hi := by simp at hi
  downcast _ _ hi := by simp at hi
  block := nofun
  layout l' hl := ⟨L, Operation.new.inj hl ▸ hL⟩
  notDowncast := nofun

end Graph

namespace Block

variable {is : List Instruction} {i : Instruction}

structure Tidy (B : Block) (g : Graph) : Prop where
  operands : ∀ q i, B.instruction? q = some i → ∀ o ∈ i.operation.operands, o.index < q.index
  known : ∀ q i, B.instruction? q = some i → g.Knows i
  live : ∀ r ∈ B.locals.liveRegisters, ∃ t, B.typeOf? r = some t ∧ g.Proper t
  symbols : ∀ e ∈ B.locals.symbols.entries, g.Proper e.2.type
  types : B.isTerminated = false → ∀ r t, B.typeOf? r = some t → g.Proper t

variable {B : Block} {g g' : Graph}

theorem Tidy.mono (h : B.Tidy g) (hg : g.Preserves g') : B.Tidy g' where
  operands := h.operands
  known q i hq := (h.known q i hq).mono hg
  live r hr := by
    obtain ⟨t, ht, hproper⟩ := h.live r hr
    exact ⟨t, ht, hproper.mono hg⟩
  symbols e he := (h.symbols e he).mono hg
  types hopen r t ht := (h.types hopen r t ht).mono hg

theorem mem_parameterTypes_of_typeOf? (hcode : B.instructions = []) {r : Register} {t : ValueType}
    (h : B.typeOf? r = some t) : t ∈ B.parameterTypes := by
  simp only [typeOf?, instruction?, hcode] at h
  split at h
  case h_1 p hp =>
    obtain rfl := Option.some.inj h
    exact List.mem_map_of_mem (List.mem_of_getElem? hp)
  case h_2 => simp at h

theorem Tidy.of_parameters (hcode : B.instructions = []) (htypes : ∀ t ∈ B.parameterTypes, g.Proper t)
    (hlive : ∀ r ∈ B.locals.liveRegisters, ∃ t, B.parameterTypes[r.index]? = some t)
    (hsymbols : ∀ e ∈ B.locals.symbols.entries, g.Proper e.2.type) : B.Tidy g where
  operands q i hq := by simp [instruction?, hcode] at hq
  known q i hq := by simp [instruction?, hcode] at hq
  live r hr := by
    obtain ⟨t, ht⟩ := hlive r hr
    exact ⟨t, typeOf?_of_parameterTypes ht, htypes t (List.mem_of_getElem? ht)⟩
  symbols := hsymbols
  types _ _ t ht := htypes t (mem_parameterTypes_of_typeOf? hcode ht)

theorem Tidy.withLocals (h : B.Tidy g) {l : Locals}
    (hlive : ∀ r ∈ l.liveRegisters, ∃ t, B.typeOf? r = some t ∧ g.Proper t)
    (hsymbols : ∀ e ∈ l.symbols.entries, g.Proper e.2.type) : (B.withLocals l).Tidy g :=
  ⟨h.operands, h.known, hlive, hsymbols, h.types⟩

theorem instruction?_pushAll_cases {q : Register} (h : (B.pushAll is).instruction? q = some i) :
    B.instruction? q = some i ∨ ∃ k, q = ⟨B.registerCount + k⟩ ∧ is[k]? = some i := by
  by_cases hq : q.index < B.registerCount
  · left
    unfold instruction? at h ⊢
    rw [pushAll_parameters] at h
    split at h
    · simp at h
    case isFalse hlt =>
      rw [if_neg hlt, ← h, pushAll, List.getElem?_append_left]
      rw [registerCount] at hq
      omega
  · right
    obtain ⟨k, hk⟩ := Nat.exists_eq_add_of_le (Nat.le_of_not_lt hq)
    obtain rfl : q = ⟨B.registerCount + k⟩ := congrArg Register.mk hk
    exact ⟨k, rfl, by rwa [instruction?_pushAll] at h⟩

theorem typeOf?_pushAll_cases {r : Register} {t : ValueType} (h : (B.pushAll is).typeOf? r = some t) :
    B.typeOf? r = some t ∨ ∃ i ∈ is, t = i.type := by
  unfold typeOf? at h ⊢
  rw [pushAll_parameters] at h
  split at h
  · exact .inl h
  · obtain ⟨i, hi, rfl⟩ := Option.map_eq_some_iff.1 h
    rcases instruction?_pushAll_cases hi with hi | ⟨k, -, hk⟩
    · exact .inl (by rw [hi]; rfl)
    · exact .inr ⟨i, List.mem_of_getElem? hk, rfl⟩

def ReadsBack (n : Nat) (is : List Instruction) : Prop :=
  ∀ k i, is[k]? = some i → ∀ o ∈ i.operation.operands, o.index < n + k

theorem Tidy.operands_pushAll (h : B.Tidy g) (his : ReadsBack B.registerCount is) :
    ∀ q i, (B.pushAll is).instruction? q = some i →
      ∀ o ∈ i.operation.operands, o.index < q.index := by
  intro q i hq
  rcases instruction?_pushAll_cases hq with hq | ⟨k, rfl, hk⟩
  · exact h.operands q i hq
  · exact his k i hk

theorem Tidy.known_pushAll (h : B.Tidy g) (his : ∀ i ∈ is, g.Knows i) :
    ∀ q i, (B.pushAll is).instruction? q = some i → g.Knows i := by
  intro q i hq
  rcases instruction?_pushAll_cases hq with hq | ⟨k, rfl, hk⟩
  · exact h.known q i hq
  · exact his i (List.mem_of_getElem? hk)

theorem Tidy.pushAll (h : B.Tidy g) (hopen : B.isTerminated = false)
    (his : ReadsBack B.registerCount is) (hknown : ∀ i ∈ is, g.Knows i)
    (htypes : ∀ i ∈ is, g.Proper i.type) : (B.pushAll is).Tidy g where
  operands := h.operands_pushAll his
  known := h.known_pushAll hknown
  live r hr := by
    obtain ⟨t, ht, hproper⟩ := h.live r hr
    exact ⟨t, (Extends.pushAll hopen is).typeOf? ht, hproper⟩
  symbols := h.symbols
  types _ r t hr := by
    rcases typeOf?_pushAll_cases hr with hr | ⟨i, hi, rfl⟩
    · exact h.types hopen r t hr
    · exact htypes i hi

theorem readsBack_singleton (hi : ∀ o ∈ i.operation.operands, B.contains o = true) :
    ReadsBack B.registerCount [i] := by
  intro k j hj o ho
  obtain ⟨rfl, rfl⟩ : k = 0 ∧ i = j := by
    cases k <;> simp_all
  exact contains_iff.1 (hi o ho)

theorem Tidy.push (h : B.Tidy g) (hopen : B.isTerminated = false)
    (hi : ∀ o ∈ i.operation.operands, B.contains o = true) (hknown : g.Knows i)
    (ht : g.Proper i.type) : (B.push i).Tidy g :=
  h.pushAll hopen (readsBack_singleton hi) (fun _ hj => List.mem_singleton.1 hj ▸ hknown)
    fun _ hj => List.mem_singleton.1 hj ▸ ht

theorem Tidy.leave (h : B.Tidy g) (hopen : B.isTerminated = false)
    (his : ReadsBack B.registerCount is) (hknown : ∀ i ∈ is, g.Knows i) (t : Terminator) :
    ((B.pushAll is).close t).Tidy g where
  operands := h.operands_pushAll his
  known := h.known_pushAll hknown
  live r hr := by
    obtain ⟨t, ht, hproper⟩ := h.live r hr
    exact ⟨t, (Extends.pushAll hopen is).typeOf? ht, hproper⟩
  symbols := h.symbols
  types hopen := by simp at hopen

end Block

namespace Builder

structure Tidy (s : Builder) : Prop where
  linear : s.graph.Linear
  blocks : ∀ c B, s.graph.block? c = some B → B.Tidy s.graph
  returns : ∀ t l, s.returnLayouts.get? t = some l → s.graph.IsReturn l

structure Keeps (s s' : Builder) : Prop where
  tidy : s'.Tidy
  preserves : s.graph.Preserves s'.graph

variable {s s' : Builder} {b : BlockId} {B : Block}

theorem Tidy.grow (h : s.Tidy) (hg : s.graph.Quiet s'.graph)
    (hblocks : ∀ c B, s'.graph.block? c = some B → s.graph.block? c = some B ∨ B.Tidy s'.graph)
    (hreturns : ∀ t l, s'.returnLayouts.get? t = some l →
      s.returnLayouts.get? t = some l ∨ s'.graph.IsReturn l) : Keeps s s' := by
  refine ⟨⟨h.linear.mono hg, fun c B hB => ?_, fun t l hl => ?_⟩, hg.toPreserves⟩
  · rcases hblocks c B hB with hB | htidy
    · exact (h.blocks c B hB).mono hg.toPreserves
    · exact htidy
  · rcases hreturns t l hl with hl | hreturn
    · exact (h.returns t l hl).mono hg.toPreserves
    · exact hreturn

theorem Tidy.update (h : s.Tidy) (hB : s.graph.block? b = some B) {f : Block → Block}
    (hext : B.Extends (f B)) (hslot : (f B).locals.returnSlot = B.locals.returnSlot)
    (hcode : ∀ q i, (f B).instruction? q = some i → B.instruction? q = some i ∨ s.graph.Plain i)
    (htidy : (f B).Tidy s.graph) : Keeps s (s.updateBlock b f) := by
  have hself := updateBlock_self hB f
  have hcases : ∀ d q i, (s.updateBlock b f).graph.InstructionAt d q i →
      s.graph.InstructionAt d q i ∨ s.graph.Plain i := by
    rintro d q i ⟨D, hD, hi⟩
    by_cases hd : d = b
    · obtain rfl := hd
      obtain rfl := Option.some.inj (hself.symm.trans hD)
      exact (hcode q i hi).imp_left fun hi => ⟨B, hB, hi⟩
    · exact .inl ⟨D, (updateBlock_other s hd f).symm.trans hD, hi⟩
  have hg : s.graph.Quiet (s.updateBlock b f).graph := by
    refine ⟨⟨fun c C hC => ?_, fun l L hL => ⟨L, hL, rfl⟩, fun d q i hi => ?_⟩, fun l hl => hl,
      fun c R hR hresumes => ?_, fun d q o t hi => ?_⟩
    · by_cases hc : c = b
      · obtain rfl := hc
        obtain rfl := Option.some.inj (hB.symm.trans hC)
        exact ⟨f B, hself, hext, hslot⟩
      · exact ⟨C, (updateBlock_other s hc f).trans hC, .refl C, rfl⟩
    · exact (hcases d q i hi).imp_right (·.toSpares)
    · by_cases hc : c = b
      · exact ⟨B, hc ▸ hB⟩
      · exact ⟨R, (updateBlock_other s hc f).symm.trans hR⟩
    · rcases hcases d q _ hi with hi | hplain
      · exact hi
      · exact absurd rfl (hplain.notDowncast o)
  refine h.grow hg (fun c C hC => ?_) fun t l hl => .inl hl
  by_cases hc : c = b
  · obtain rfl := hc
    obtain rfl := Option.some.inj (hself.symm.trans hC)
    exact .inr (htidy.mono hg.toPreserves)
  · exact .inl ((updateBlock_other s hc f).symm.trans hC)

theorem Tidy.append (h : s.Tidy) {new : Block} (hcode : new.instructions = [])
    (hnot : ¬new.Resumes) (htidy : new.Tidy s.graph) : Keeps s (s.appendBlock new) := by
  have hold : ∀ c C, s.graph.block? c = some C → (s.appendBlock new).graph.block? c = some C := by
    intro c C hC
    rw [appendBlock_block?, if_neg]
    · exact hC
    · rintro rfl
      simp [Graph.block?_nextId] at hC
  have hcases : ∀ c C, (s.appendBlock new).graph.block? c = some C →
      s.graph.block? c = some C ∨ C = new := by
    intro c C hC
    rw [appendBlock_block?] at hC
    split at hC
    · exact .inr (Option.some.inj hC).symm
    · exact .inl hC
  have hinstr : ∀ d q i, (s.appendBlock new).graph.InstructionAt d q i →
      s.graph.InstructionAt d q i := by
    rintro d q i ⟨D, hD, hi⟩
    rcases hcases d D hD with hD | rfl
    · exact ⟨D, hD, hi⟩
    · simp [Block.instruction?, hcode] at hi
  have hg : s.graph.Quiet (s.appendBlock new).graph := by
    refine ⟨⟨fun c C hC => ⟨C, hold c C hC, .refl C, rfl⟩, fun l L hL => ⟨L, hL, rfl⟩,
      fun d q i hi => .inl (hinstr d q i hi)⟩, fun l hl => hl, fun c R hR hresumes => ?_,
      fun d q o t hi => hinstr d q _ hi⟩
    rcases hcases c R hR with hR | rfl
    · exact ⟨R, hR⟩
    · exact absurd hresumes hnot
  refine h.grow hg (fun c C hC => ?_) fun t l hl => .inl hl
  rcases hcases c C hC with hC | rfl
  · exact .inl hC
  · exact .inr (htidy.mono hg.toPreserves)

theorem Tidy.layouts (h : s.Tidy) (hblocks : s'.graph.blocks = s.graph.blocks)
    (horigins : ∀ l L, s.graph.layout? l = some L →
      ∃ L', s'.graph.layout? l = some L' ∧ L'.origin = L.origin)
    (hcontexts : ∀ l, s'.graph.IsContext l → s.graph.IsContext l)
    (hreturns : ∀ t l, s'.returnLayouts.get? t = some l →
      s.returnLayouts.get? t = some l ∨ s'.graph.IsReturn l) : Keeps s s' := by
  have hsame : ∀ c, s'.graph.block? c = s.graph.block? c := fun c => by
    rw [Graph.block?, Graph.block?, hblocks]
  have hinstr : ∀ d q i, s'.graph.InstructionAt d q i → s.graph.InstructionAt d q i := by
    rintro d q i ⟨D, hD, hi⟩
    exact ⟨D, hsame d ▸ hD, hi⟩
  refine h.grow ⟨⟨fun c C hC => ⟨C, hsame c ▸ hC, .refl C, rfl⟩, horigins,
    fun d q i hi => .inl (hinstr d q i hi)⟩, hcontexts, fun c R hR _ => ⟨R, hsame c ▸ hR⟩,
    fun d q o t hi => hinstr d q _ hi⟩ (fun c C hC => .inl (hsame c ▸ hC)) hreturns

end Builder

end BlockGraph
