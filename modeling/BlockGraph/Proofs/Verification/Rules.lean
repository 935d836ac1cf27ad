import BlockGraph.Graph.Violation
import BlockGraph.Proofs.Builder.Edges
import BlockGraph.Proofs.Graph.Growth

namespace BlockGraph

namespace Block

structure WellFormed (g : Graph) (b : Block) : Prop where
  operands : ∀ n i, b.instructions[n]? = some i →
    ∀ r ∈ i.operation.operands, r.index < b.parameters.length + n
  references : ∀ i ∈ b.instructions, ∀ c, i.operation.blockRef? = some c →
    ∃ C, g.block? c = some C ∧ i.type = .blockRef C.parameterTypes
  registers : ∀ t, b.terminator = some t → ∀ r ∈ t.registers, b.contains r = true
  condition : ∀ c onTrue onFalse, b.terminator = some (.branch c onTrue onFalse) →
    b.typeOf? c = some (.prim .bool)
  edges : ∀ t, b.terminator = some t → ∀ e ∈ t.edges, ∃ ts,
    b.typeOf? e.target = some (.blockRef ts) ∧
      List.Forall₂ (fun r t => b.typeOf? r = some t) e.arguments ts

variable {b : Block} {g : Graph}

theorem exists_typeOf {r : Register} (h : b.contains r = true) :
    ∃ t, b.typeOf r = .ok t ∧ b.typeOf? r = some t := by
  obtain ⟨t, ht⟩ := Option.isSome_iff_exists.1 ((b.typeOf?_isSome r).trans h)
  exact ⟨t, typeOf_eq_ok.2 ht, ht⟩

theorem hasTypes_filterMap {rs : List Register} (h : ∀ r ∈ rs, b.contains r = true) :
    b.HasTypes rs (rs.filterMap b.typeOf?) := by
  induction rs with
  | nil => exact .nil
  | cons r rs ih =>
    obtain ⟨t, -, ht⟩ := exists_typeOf (h r List.mem_cons_self)
    rw [List.filterMap_cons_some ht]
    exact .cons ht (ih fun q hq => h q (List.mem_cons_of_mem r hq))

theorem HasTypes.unique {rs : List Register} {ts us : List ValueType} (h : b.HasTypes rs ts)
    (k : b.HasTypes rs us) : ts = us :=
  List.right_unique_forall₂' (fun _ _ _ ht hu => Option.some.inj (ht.symm.trans hu)) h k

theorem contains_of_mem_edges {t : Terminator} (h : ∀ r ∈ t.registers, b.contains r = true)
    {e : Edge} (he : e ∈ t.edges) : ∀ r ∈ e.registers, b.contains r = true := by
  intro r hr
  apply h r
  cases t with
  | goto e' =>
    obtain rfl := List.mem_singleton.1 he
    exact hr
  | branch c onTrue onFalse =>
    simp only [Terminator.edges, List.mem_cons, List.not_mem_nil, or_false] at he
    simp only [Terminator.registers, List.mem_cons, List.mem_append]
    rcases he with rfl | rfl
    · exact .inr (.inl hr)
    · exact .inr (.inr hr)

theorem find?_registers_eq_none {t : Terminator} :
    t.registers.find? (fun r => !b.contains r) = none ↔ ∀ r ∈ t.registers, b.contains r = true := by
  simp

section Violations

theorem operandViolations_eq_nil {r : Register} {op : Operation} :
    b.operandViolations r op = [] ↔ ∀ o ∈ op.operands, o.index < r.index := by
  simp [operandViolations]

theorem referenceViolations_eq_nil {i : Instruction} :
    b.referenceViolations g i = [] ↔ ∀ c, i.operation.blockRef? = some c →
      ∃ C, g.block? c = some C ∧ i.type = .blockRef C.parameterTypes := by
  unfold referenceViolations
  cases i.operation.blockRef? with
  | none => simp
  | some c => cases hC : g.block? c <;> simp [hC, eq_comm]

theorem instructionViolations_eq_nil :
    b.instructionViolations g = [] ↔
      (∀ n i, b.instructions[n]? = some i →
        ∀ r ∈ i.operation.operands, r.index < b.parameters.length + n) ∧
      ∀ i ∈ b.instructions, ∀ c, i.operation.blockRef? = some c →
        ∃ C, g.block? c = some C ∧ i.type = .blockRef C.parameterTypes := by
  simp only [instructionViolations, List.flatMap_eq_nil_iff, List.append_eq_nil_iff,
    operandViolations_eq_nil, referenceViolations_eq_nil, Prod.forall, List.mem_zipIdx_iff_getElem?]
  constructor
  · intro h
    refine ⟨fun n i hi => (h i n hi).1, fun i hi => ?_⟩
    obtain ⟨n, hn⟩ := List.mem_iff_getElem?.1 hi
    exact (h i n hn).2
  · rintro ⟨hoperands, hreferences⟩ i n hi
    exact ⟨hoperands n i hi, hreferences i (List.mem_of_getElem? hi)⟩

theorem edgeViolations_eq_nil {e : Edge} (h : ∀ r ∈ e.registers, b.contains r = true) :
    b.edgeViolations e = [] ↔ b.Passes e := by
  obtain ⟨t, -, ht⟩ := exists_typeOf (h e.target List.mem_cons_self)
  -- no argument is left out of the comparison, since all of them have types
  have hargs := hasTypes_filterMap fun r hr => h r (List.mem_cons_of_mem _ hr)
  unfold edgeViolations
  rw [ht]
  constructor
  · intro hnil
    cases t with
    | blockRef expected =>
      by_cases heq : expected = e.arguments.filterMap b.typeOf?
      · exact ⟨expected, ht, heq ▸ hargs⟩
      · simp [heq] at hnil
    | _ => simp at hnil
  · rintro ⟨ts, hts, hpass⟩
    obtain rfl := Option.some.inj (ht.symm.trans hts)
    simp [hpass.unique hargs]

theorem conditionViolations_eq_nil {t : Terminator} :
    b.conditionViolations t = [] ↔
      ∀ c onTrue onFalse, t = .branch c onTrue onFalse → b.typeOf? c = some (.prim .bool) := by
  cases t with
  | goto e => simp [conditionViolations]
  | branch c onTrue onFalse =>
    by_cases hc : b.typeOf? c = some (.prim .bool)
    · simp [conditionViolations, hc]
    · simp [conditionViolations, hc]

theorem terminatorViolations_eq_nil :
    b.terminatorViolations = [] ↔ ∀ t, b.terminator = some t →
      (∀ r ∈ t.registers, b.contains r = true) ∧
      (∀ c onTrue onFalse, t = .branch c onTrue onFalse → b.typeOf? c = some (.prim .bool)) ∧
      ∀ e ∈ t.edges, b.Passes e := by
  unfold terminatorViolations
  cases b.terminator with
  | none => simp
  | some t =>
    simp only [Option.some.injEq, forall_eq']
    cases hfind : t.registers.find? (fun r => !b.contains r) with
    | some r =>
      obtain ⟨hr, hmem⟩ : b.contains r = false ∧ r ∈ t.registers :=
        ⟨by simpa using List.find?_some hfind, List.mem_of_find?_eq_some hfind⟩
      simp only [List.cons_ne_nil, false_iff]
      intro h
      simp [h.1 r hmem] at hr
    | none =>
      have hregs := find?_registers_eq_none.1 hfind
      simp only [List.append_eq_nil_iff, List.flatMap_eq_nil_iff, conditionViolations_eq_nil]
      constructor
      · rintro ⟨hcond, hedges⟩
        exact ⟨hregs, hcond, fun e he =>
          (edgeViolations_eq_nil (contains_of_mem_edges hregs he)).1 (hedges e he)⟩
      · rintro ⟨-, hcond, hedges⟩
        exact ⟨hcond, fun e he =>
          (edgeViolations_eq_nil (contains_of_mem_edges hregs he)).2 (hedges e he)⟩

theorem violations_eq_nil : b.violations g = [] ↔ b.WellFormed g := by
  rw [violations, List.append_eq_nil_iff, instructionViolations_eq_nil, terminatorViolations_eq_nil]
  constructor
  · rintro ⟨⟨hoperands, hreferences⟩, hexit⟩
    exact ⟨hoperands, hreferences, fun t ht => (hexit t ht).1,
      fun c onTrue onFalse ht => (hexit _ ht).2.1 c onTrue onFalse rfl, fun t ht => (hexit t ht).2.2⟩
  · intro h
    refine ⟨⟨h.operands, h.references⟩, fun t ht => ⟨h.registers t ht, ?_, h.edges t ht⟩⟩
    rintro c onTrue onFalse rfl
    exact h.condition c onTrue onFalse ht

end Violations

/-! The check once more, in the words of the look-ups that can fail. -/

def verifyEdge (b : Block) (e : Edge) : Except Fault (List Violation) := do
  match ← b.typeOf e.target with
  | .blockRef expected =>
    let found ← e.arguments.mapM b.typeOf
    return if expected = found then []
      else [.argumentMismatch b.id e.target (ValueType.listText expected) (ValueType.listText found)]
  | t => return [.notABlockRef b.id e.target t]

def verifyCondition (b : Block) : Terminator → Except Fault (List Violation)
  | .goto _ => return []
  | .branch c _ _ => do
    return if (← b.typeOf c) = .prim .bool then [] else [.conditionType b.id c]

def verifyExit (b : Block) : Except Fault (List Violation) :=
  match b.terminator with
  | none => return []
  | some t =>
    match t.registers.find? fun r => !b.contains r with
    | some r => return [.undefinedRegister b.id r]
    | none => do
      let condition ← b.verifyCondition t
      let edges ← t.edges.mapM b.verifyEdge
      return condition ++ edges.flatten

def verify (g : Graph) (b : Block) : Except Fault (List Violation) := do
  return b.instructionViolations g ++ (← b.verifyExit)

theorem verifyEdge_eq {e : Edge} (h : ∀ r ∈ e.registers, b.contains r = true) :
    b.verifyEdge e = .ok (b.edgeViolations e) := by
  obtain ⟨t, hok, ht⟩ := exists_typeOf (h e.target List.mem_cons_self)
  have hargs := mapM_typeOf_eq_ok.2
    (hasTypes_filterMap fun r hr => h r (List.mem_cons_of_mem _ hr))
  rw [verifyEdge, edgeViolations, hok, ht]
  cases t with
  | blockRef expected =>
    change (do let found ← e.arguments.mapM b.typeOf; _) = _
    rw [hargs]
    rfl
  | _ => rfl

theorem verifyCondition_eq {t : Terminator} (h : ∀ r ∈ t.registers, b.contains r = true) :
    b.verifyCondition t = .ok (b.conditionViolations t) := by
  cases t with
  | goto e => rfl
  | branch c onTrue onFalse =>
    obtain ⟨type, hok, ht⟩ := exists_typeOf (h c List.mem_cons_self)
    rw [verifyCondition, hok, conditionViolations, ht]
    simp [bind, Except.bind, pure, Except.pure]

theorem verifyExit_eq : b.verifyExit = .ok b.terminatorViolations := by
  unfold verifyExit terminatorViolations
  cases b.terminator with
  | none => rfl
  | some t =>
    dsimp only
    cases hfind : t.registers.find? (fun r => !b.contains r) with
    | some r => rfl
    | none =>
      -- the registers are looked for first, so no later look-up fails
      have hregs := find?_registers_eq_none.1 hfind
      have hedges : t.edges.mapM b.verifyEdge = .ok (t.edges.map b.edgeViolations) := by
        rw [mapM_eq_ok, List.forall₂_map_right_iff, List.forall₂_same]
        exact fun e he => verifyEdge_eq (contains_of_mem_edges hregs he)
      rw [verifyCondition_eq hregs, hedges]
      rfl

theorem verify_eq : b.verify g = .ok (b.violations g) := by
  rw [verify, verifyExit_eq]
  rfl

end Block

namespace Graph

variable {g : Graph} {b c e : BlockId} {fresh pending entries : List BlockId}

section Search

theorem mem_blockIds : b ∈ g.blockIds ↔ ∃ B, g.block? b = some B := by
  constructor
  · intro h
    obtain ⟨n, hn, rfl⟩ := List.mem_map.1 h
    exact ⟨_, List.getElem?_eq_getElem (List.mem_range.1 hn)⟩
  · rintro ⟨B, hB⟩
    obtain ⟨hlt, -⟩ := List.getElem?_eq_some_iff.1 hB
    exact List.mem_map.2 ⟨b.index, List.mem_range.2 hlt, rfl⟩

theorem reaches_of_mem_visit (h : b ∈ g.visit fresh pending) :
    b ∈ fresh ∧ ∃ e ∈ pending, g.Reaches e b := by
  fun_induction visit g fresh pending with
  | case1 fresh => simp at h
  | case2 fresh c rest hc ih =>
    rcases List.mem_cons.1 h with rfl | h
    · exact ⟨hc, b, List.mem_cons_self, .refl⟩
    · obtain ⟨hb, e, he, hreach⟩ := ih h
      refine ⟨List.mem_of_mem_erase hb, ?_⟩
      rcases List.mem_append.1 he with he | he
      · exact ⟨c, List.mem_cons_self, hreach.head (List.mem_reverse.1 he)⟩
      · exact ⟨e, List.mem_cons_of_mem c he, hreach⟩
  | case3 fresh c rest hc ih =>
    obtain ⟨hb, e, he, hreach⟩ := ih h
    exact ⟨hb, e, List.mem_cons_of_mem c he, hreach⟩

theorem visit_closed (g : Graph) (fresh pending : List BlockId) :
    (∀ b ∈ pending, b ∈ fresh → b ∈ g.visit fresh pending) ∧
      ∀ b ∈ g.visit fresh pending, ∀ c ∈ g.references b, c ∈ fresh → c ∈ g.visit fresh pending := by
  fun_induction visit g fresh pending with
  | case1 fresh => simp
  | case2 fresh b rest hb ih =>
    obtain ⟨hpending, hclosed⟩ := ih
    -- A fresh block other than `b` is still fresh in the rest of the search.
    have hfresh {c : BlockId} (hc : c ∈ fresh) (hne : c ≠ b) : c ∈ fresh.erase b :=
      (List.mem_erase_of_ne hne).2 hc
    constructor
    · intro c hc hcf
      by_cases hne : c = b
      · exact hne ▸ List.mem_cons_self
      · apply List.mem_cons_of_mem
        apply hpending c _ (hfresh hcf hne)
        exact List.mem_append_right _ ((List.mem_cons.1 hc).resolve_left hne)
    · intro x hx c hc hcf
      by_cases hne : c = b
      · exact hne ▸ List.mem_cons_self
      · apply List.mem_cons_of_mem
        rcases List.mem_cons.1 hx with rfl | hx
        · apply hpending c _ (hfresh hcf hne)
          exact List.mem_append_left _ (List.mem_reverse.2 hc)
        · exact hclosed x hx c hc (hfresh hcf hne)
  | case3 fresh b rest hb ih =>
    refine ⟨fun c hc hcf => ?_, ih.2⟩
    rcases List.mem_cons.1 hc with rfl | hc
    · exact absurd hcf hb
    · exact ih.1 c hc hcf

theorem mem_reachable : b ∈ g.reachable entries ↔
    (∃ B, g.block? b = some B) ∧ ∃ e ∈ entries, g.Reaches e b := by
  rw [reachable]
  constructor
  · intro h
    obtain ⟨hb, e, he, hreach⟩ := reaches_of_mem_visit h
    exact ⟨mem_blockIds.1 hb, e, List.mem_reverse.1 he, hreach⟩
  · rintro ⟨⟨B, hB⟩, e, he, hreach⟩
    obtain ⟨hpending, hclosed⟩ := g.visit_closed g.blockIds entries.reverse
    -- The induction follows the path; its inner blocks exist because they refer to something.
    induction hreach generalizing B with
    | refl => exact hpending e (List.mem_reverse.2 he) (mem_blockIds.2 ⟨B, hB⟩)
    | @tail x y _ hxy ih =>
      obtain ⟨X, hX, -⟩ := mem_references.1 hxy
      exact hclosed x (ih X hX) y hxy (mem_blockIds.2 ⟨B, hB⟩)

end Search

/-- What a graph has to keep if control may enter it at the given blocks. -/
structure WellFormed (g : Graph) (entries : List BlockId) : Prop where
  blocks : ∀ b B, g.block? b = some B → B.WellFormed g
  ends : ∀ e ∈ entries, ∀ b B, g.Reaches e b → g.block? b = some B →
    B.terminator.isSome = true ∨ B.isFinal = true

theorem unterminated_eq_true : g.unterminated b = true ↔
    ∃ B, g.block? b = some B ∧ ¬(B.terminator.isSome = true ∨ B.isFinal = true) := by
  unfold unterminated
  cases g.block? b <;> simp [Block.isTerminated]

theorem violations_eq_nil : g.violations entries = [] ↔ g.WellFormed entries := by
  simp only [violations, List.append_eq_nil_iff, List.flatMap_eq_nil_iff, Block.violations_eq_nil,
    List.map_eq_nil_iff, List.filter_eq_nil_iff, mem_reachable, unterminated_eq_true]
  constructor
  · rintro ⟨hblocks, hends⟩
    refine ⟨fun b B hB => hblocks B (List.mem_of_getElem? hB), fun e he b B hreach hB => ?_⟩
    by_contra hopen
    exact hends b ⟨⟨B, hB⟩, e, he, hreach⟩ ⟨B, hB, hopen⟩
  · intro h
    constructor
    · intro B hB
      obtain ⟨n, hn⟩ := List.mem_iff_getElem?.1 hB
      exact h.blocks ⟨n⟩ B hn
    · rintro b ⟨-, e, he, hreach⟩ ⟨B, hB, hopen⟩
      exact hopen (h.ends e he b B hreach hB)

def verify (g : Graph) (entries : List BlockId) : Except Fault (List Violation) := do
  let found ← g.blocks.mapM (Block.verify g)
  return found.flatten ++ ((g.reachable entries).filter g.unterminated).map .unterminated

theorem verify_eq : g.verify entries = .ok (g.violations entries) := by
  have hblocks : g.blocks.mapM (Block.verify g) = .ok (g.blocks.map (Block.violations g)) := by
    rw [mapM_eq_ok, List.forall₂_map_right_iff, List.forall₂_same]
    exact fun B _ => Block.verify_eq
  rw [verify, hblocks]
  rfl

/-- The check answers for every graph and all entries, and it finds nothing exactly if the graph is
well-formed. -/
theorem verify_decides (g : Graph) (entries : List BlockId) :
    g.verify entries = .ok (g.violations entries) ∧
      (g.violations entries = [] ↔ g.WellFormed entries) :=
  ⟨verify_eq, violations_eq_nil⟩

end Graph

end BlockGraph
