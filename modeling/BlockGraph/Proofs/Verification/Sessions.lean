import BlockGraph.Proofs.Lowering.Closed
import BlockGraph.Proofs.Verification.Rules

/-!
Graphs that are built by any actions in any order. Live values may be set without a check, so an
action may fail; but as long as none does, the graph keeps all rules except those about conditions of
branches and about blocks without a way out.
-/

namespace BlockGraph

/-- Something that can be done to a graph under construction. Nothing ties the arguments of an action
to the results of earlier ones. -/
inductive Action where
  | addBlock (parameters : List Parameter)
  | newChild (context : BlockId) (preds : List BlockId)
  | jump (source target : BlockId)
  | enter (parent : BlockId)
  | leave (context inner : BlockId)
  | branch (parent : BlockId) (condition : Register)
  | converge (context : BlockId) (preds : List BlockId)
  | convergeBranch (context : BlockId) (preds : List BlockId) (tested : BlockId) (condition : Register)
  | merge (context first second : BlockId)
  | emit (b : BlockId) (operation : Operation) (type : ValueType)
      (plain : operation.blockRef? = none)
  | emitRef (b target : BlockId)
  | copy (b : BlockId) (r : Register)
  | push (b : BlockId) (r : Register)
  | pushLast (b : BlockId)
  | pop (b : BlockId)
  | popMany (b : BlockId) (count : Nat)
  | peek (b : BlockId) (depth : Nat)
  | goto (b : BlockId) (edge : Edge)
  | finish (b : BlockId)
  | declareClass (name : String)
  | defineClass (id : LayoutId) (fields : List ValueType)
  | contextLayout (fields : List ValueType)
  | returnLayout (result : ValueType)
  | define (b : BlockId) (name : String) (symbol : Symbol)
  | rebind (b : BlockId) (name : String) (r : Register)
  | setLocals (b : BlockId) (locals : Locals)
  | report (d : Diagnostic)

def Action.run : Action → BuildM Unit
  | .addBlock parameters => discard <| Builder.addBlock parameters
  | .newChild context preds => discard <| Builder.newChild context preds
  | .jump source target => Builder.jump source target
  | .enter parent => discard <| Builder.enter parent
  | .leave context inner => discard <| Builder.leave context inner
  | .branch parent condition => discard <| Builder.branch parent condition
  | .converge context preds => discard <| Builder.converge context preds
  | .convergeBranch context preds tested condition =>
    discard <| Builder.convergeBranch context preds tested condition
  | .merge context first second => discard <| Builder.merge context first second
  | .emit b operation type _ => discard <| Builder.emit b operation type
  | .emitRef b target => discard <| Builder.emitRef b target
  | .copy b r => discard <| Builder.copy b r
  | .push b r => Builder.push b r
  | .pushLast b => Builder.pushLast b
  | .pop b => discard <| Builder.pop b
  | .popMany b count => discard <| Builder.popMany b count
  | .peek b depth => discard <| Builder.peek b depth
  | .goto b edge => Builder.goto b edge
  | .finish b => Builder.finish b
  | .declareClass name => discard <| Builder.declareClass name
  | .defineClass id fields => Builder.defineClass id fields
  | .contextLayout fields => discard <| Builder.contextLayout fields
  | .returnLayout result => discard <| Builder.returnLayout result
  | .define b name symbol => Builder.define b name symbol
  | .rebind b name r => Builder.rebind b name r
  | .setLocals b locals => Builder.setLocals b locals
  | .report d => Builder.report d

def Action.runAll (actions : List Action) : BuildM Unit := actions.forM Action.run

namespace Block

/-- What one action can do to a block that is there. The condition of a branch is not looked at. -/
inductive Edit (g : Graph) (B : Block) : Block → Prop
  | push {i : Instruction} : B.isTerminated = false →
      (∀ r ∈ i.operation.operands, B.contains r = true) →
      (∀ c, i.operation.blockRef? = some c →
        ∃ C, g.block? c = some C ∧ i.type = .blockRef C.parameterTypes) → Edit g B (B.push i)
  | close {t : Terminator} : B.isTerminated = false → (∀ e ∈ t.edges, B.Passes e) →
      Edit g B (B.close t)
  | finish : B.isTerminated = false → Edit g B { B with isFinal := true }
  | relocate (l : Locals) : Edit g B (B.withLocals l)

structure Sound (g : Graph) (b : Block) : Prop where
  operands : ∀ n i, b.instructions[n]? = some i →
    ∀ r ∈ i.operation.operands, r.index < b.parameters.length + n
  references : ∀ i ∈ b.instructions, ∀ c, i.operation.blockRef? = some c →
    ∃ C, g.block? c = some C ∧ i.type = .blockRef C.parameterTypes
  edges : ∀ t, b.terminator = some t → ∀ e ∈ t.edges, b.Passes e

variable {g g' : Graph} {B B' : Block}

theorem Edit.id_eq (h : B.Edit g B') : B'.id = B.id := by
  cases h <;> rfl

theorem Edit.extends (h : B.Edit g B') : B.Extends B' := by
  cases h with
  | push hopen _ _ => exact .push hopen _
  | close hopen _ => exact .close hopen _
  | finish hopen => exact ⟨rfl, rfl, rfl, List.prefix_rfl, by simp [hopen]⟩
  | relocate l => exact .withLocals B l

namespace Sound

theorem mono (h : B.Sound g) (hg : g.Extends g') : B.Sound g' := by
  refine ⟨h.operands, fun i hi c hc => ?_, h.edges⟩
  obtain ⟨C, hC, ht⟩ := h.references i hi c hc
  obtain ⟨C', hC', hext⟩ := hg c C hC
  exact ⟨C', hC', by rw [ht, hext.parameterTypes]⟩

theorem of_isEmpty (h : B.IsEmpty) : B.Sound g := by
  obtain ⟨hcode, hexit, -⟩ := h
  constructor
  · intro n i hi
    simp [hcode] at hi
  · intro i hi
    simp [hcode] at hi
  · intro t ht
    simp [hexit] at ht

theorem edit (h : B.Sound g) (hB : B.Edit g B') : B'.Sound g := by
  cases hB with
  | @push i hopen hoperands hreference =>
    -- An open block has no way out yet, so no edge can lose its types.
    have hexit : B.terminator = none := by
      by_contra hsome
      simp [isTerminated, Option.isSome_iff_ne_none.2 hsome] at hopen
    refine ⟨fun n j hj r hr => ?_, fun j hj => ?_, fun t ht => ?_⟩
    · rw [push_instructions, List.getElem?_append] at hj
      split at hj
      · exact h.operands n j hj r hr
      case isFalse hn =>
        obtain ⟨-, rfl⟩ : n - B.instructions.length = 0 ∧ i = j := by
          rcases hk : n - B.instructions.length with _ | k <;> simp_all
        have hlt := contains_iff.1 (hoperands r hr)
        rw [registerCount] at hlt
        rw [push_parameters]
        omega
    · rcases List.mem_append.1 hj with hj | hj
      · exact h.references j hj
      · obtain rfl := List.mem_singleton.1 hj
        exact hreference
    · simp [hexit] at ht
  | close hopen hpass =>
    refine ⟨h.operands, h.references, fun t ht => ?_⟩
    obtain rfl := Option.some.inj ht
    exact hpass
  | finish hopen => exact ⟨h.operands, h.references, h.edges⟩
  | relocate l => exact ⟨h.operands, h.references, h.edges⟩

theorem terminatorViolations (h : B.Sound g) : ∀ v ∈ B.terminatorViolations,
    (∃ r, v = .conditionType B.id r) ∨
      ∃ c onTrue onFalse, B.terminator = some (.branch c onTrue onFalse) ∧
        v = .undefinedRegister B.id c := by
  unfold Block.terminatorViolations
  cases hexit : B.terminator with
  | none => simp
  | some t =>
    have hedges := h.edges t hexit
    dsimp only
    cases hfind : t.registers.find? (fun r => !B.contains r) with
    | some r =>
      have hr : B.contains r = false := by simpa using List.find?_some hfind
      have hmem := List.mem_of_find?_eq_some hfind
      -- The registers of the edges have types.
      have hnot (e : Edge) (he : e ∈ t.edges) : r ∉ e.registers := by
        intro hr'
        simp [(hedges e he).contains r hr'] at hr
      intro v hv
      obtain rfl := List.mem_singleton.1 hv
      cases t with
      | goto e => exact absurd hmem (hnot e List.mem_cons_self)
      | branch c onTrue onFalse =>
        simp only [Terminator.edges, List.mem_cons, List.not_mem_nil, or_false, forall_eq_or_imp,
          forall_eq] at hnot
        simp only [Terminator.registers, List.mem_cons, List.mem_append, hnot, or_false] at hmem
        exact .inr ⟨c, onTrue, onFalse, rfl, by rw [hmem]⟩
    | none =>
      have hnil : t.edges.flatMap B.edgeViolations = [] :=
        List.flatMap_eq_nil_iff.2 fun e he => (hedges e he).edgeViolations
      dsimp only
      rw [hnil, List.append_nil]
      intro v hv
      cases t with
      | goto e => simp [conditionViolations] at hv
      | branch c onTrue onFalse =>
        rw [conditionViolations] at hv
        split at hv
        · simp at hv
        · exact .inl ⟨c, List.mem_singleton.1 hv⟩

end Sound

end Block

namespace Graph

inductive Edit (g : Graph) : Graph → Prop
  | block {b : BlockId} {B : Block} {f : Block → Block} : g.block? b = some B → B.Edit g (f B) →
      Edit g (g.modifyBlock b f)
  | append {new : Block} : new.id = g.nextId → new.IsEmpty →
      Edit g { g with blocks := g.blocks ++ [new] }
  | layouts (layouts : List Layout) : Edit g { g with layouts }

abbrev Edits : Graph → Graph → Prop := Relation.ReflTransGen Edit

def Sound (g : Graph) : Prop := ∀ b B, g.block? b = some B → B.id = b ∧ B.Sound g

variable {g g' : Graph}

theorem Edit.extends (h : g.Edit g') : g.Extends g' := by
  cases h with
  | block hB hedit =>
    refine .modifyBlock fun B' hB' => ?_
    obtain rfl := Option.some.inj (hB.symm.trans hB')
    exact hedit.extends
  | append _ _ => exact .append g _
  | layouts _ => exact fun b B hB => ⟨B, hB, .refl B⟩

theorem Sound.edit (h : g.Sound) (hg : g.Edit g') : g'.Sound := by
  have hext := hg.extends
  intro c C hC
  cases hg with
  | @block b B f hB hedit =>
    rw [block?_modifyBlock] at hC
    split at hC
    case isTrue hc =>
      subst hc
      obtain rfl : f B = C := by simpa [hB] using hC
      obtain ⟨hid, hsound⟩ := h c B hB
      exact ⟨hedit.id_eq.trans hid, (hsound.edit hedit).mono hext⟩
    case isFalse => exact ⟨(h c C hC).1, (h c C hC).2.mono hext⟩
  | append hid hempty =>
    rw [block?_append] at hC
    split at hC
    case isTrue hc =>
      obtain rfl := Option.some.inj hC
      exact ⟨hid.trans hc.symm, .of_isEmpty hempty⟩
    case isFalse => exact ⟨(h c C hC).1, (h c C hC).2.mono hext⟩
  | layouts _ => exact ⟨(h c C hC).1, (h c C hC).2.mono hext⟩

theorem Sound.edits (h : g.Sound) (hg : g.Edits g') : g'.Sound := by
  induction hg with
  | refl => exact h
  | tail _ hedit ih => exact ih.edit hedit

theorem Sound.violations (h : g.Sound) (entries : List BlockId) :
    ∀ v ∈ g.violations entries, (∃ b, v = .unterminated b) ∨ (∃ b r, v = .conditionType b r) ∨
      ∃ b B c onTrue onFalse, g.block? b = some B ∧
        B.terminator = some (.branch c onTrue onFalse) ∧ v = .undefinedRegister b c := by
  intro v hv
  rcases List.mem_append.1 hv with hv | hv
  · obtain ⟨B, hB, hv⟩ := List.mem_flatMap.1 hv
    obtain ⟨n, hn⟩ := List.mem_iff_getElem?.1 hB
    obtain ⟨hid, hsound⟩ := h ⟨n⟩ B hn
    rw [Block.violations, Block.instructionViolations_eq_nil.2 ⟨hsound.operands, hsound.references⟩,
      List.nil_append] at hv
    rcases hsound.terminatorViolations v hv with ⟨r, hr⟩ | ⟨c, onTrue, onFalse, hexit, hr⟩
    · exact .inr (.inl ⟨B.id, r, hr⟩)
    · exact .inr (.inr ⟨⟨n⟩, B, c, onTrue, onFalse, hn, hexit, hid ▸ hr⟩)
  · obtain ⟨b, -, rfl⟩ := List.mem_map.1 hv
    exact .inl ⟨b, rfl⟩

end Graph

namespace Builder

variable {s s' : Builder} {b c d : BlockId} {u : Unit} {r : Register} {x : BlockId × BlockId}
  {preds : List BlockId}

theorem Step.edits (h : Step s s') : s.graph.Edits s'.graph := by
  cases h with
  | push hB hopen hi => exact .single (.block hB (.push hopen hi.operands hi.reference))
  | close hB hopen ht => exact .single (.block hB (.close hopen ht.2))
  | relocate b l =>
    cases hB : s.graph.block? b with
    | some B => exact .single (.block hB (.relocate l))
    | none =>
      have hsame : s.graph.modifyBlock b (·.withLocals l) = s.graph := by
        rw [Graph.modifyBlock, List.modify_eq_self (Graph.block?_eq_none_iff.1 hB)]
      exact hsame ▸ .refl
  | append hid hempty => exact .single (.append hid hempty)
  | report ds => exact .refl
  | layout L => exact .single (.layouts _)
  | register h => exact h.2.1 ▸ .single (.layouts _)
  | setFields l fields => exact .single (.layouts _)

theorem Steps.edits (h : Steps s s') : s.graph.Edits s'.graph := by
  induction h with
  | refl => exact .refl
  | tail _ hstep ih => exact ih.trans hstep.edits

theorem edits_branchTo (h : Runs (branchTo b r c d) s u s') : s.graph.Edits s'.graph := by
  simp only [branchTo, Runs.bind_iff, runs_terminate] at h
  obtain ⟨e, t, he, e', t', he', B, hB, hopen, rfl⟩ := h
  obtain ⟨hadv, -, B₁, hB₁, -, hpass⟩ := moves_edge he
  obtain ⟨hadv', -, B₂, hB₂, -, hpass'⟩ := moves_edge he'
  obtain rfl := Option.some.inj (hB.symm.trans hB₂)
  -- The second edge only adds to the block, so the first one still passes.
  obtain ⟨B₂', hB₂', hext⟩ := hadv'.graph_extends b B₁ hB₁
  obtain rfl := Option.some.inj (hB.symm.trans hB₂')
  have hclose : t'.graph.Edit (t'.updateBlock b (·.close (.branch r e e'))).graph := by
    apply Graph.Edit.block hB
    apply Block.Edit.close hopen
    simp only [Terminator.edges, List.mem_cons, List.not_mem_nil, or_false, forall_eq_or_imp, forall_eq]
    exact ⟨hpass.mono fun _ _ => hext.typeOf?, hpass'⟩
  exact (hadv.steps.edits.trans hadv'.steps.edits).tail hclose

theorem edits_branch (h : Runs (branch b r) s x s') : s.graph.Edits s'.graph := by
  simp only [branch, Runs.bind_iff, Runs.pure_iff] at h
  obtain ⟨_, t, hc, _, t', hd, _, _, hbranch, -, rfl⟩ := h
  exact ((moves_newChild hc).steps.edits.trans (moves_newChild hd).steps.edits).trans
    (edits_branchTo hbranch)

theorem edits_convergeBranch (h : Runs (convergeBranch c preds b r) s x s') :
    s.graph.Edits s'.graph := by
  simp only [convergeBranch, Runs.bind_iff, Runs.pure_iff] at h
  obtain ⟨_, t, hc, _, t', hd, _, t'', hjumps, _, _, hbranch, -, rfl⟩ := h
  exact (((moves_newChild hc).steps.edits.trans (moves_newChild hd).steps.edits).trans
    (moves_jumps hjumps).1.steps.edits).trans (edits_branchTo hbranch)

def IsEdit {α : Type} (x : BuildM α) : Prop :=
  ∀ s a s', Runs x s a s' → s.graph.Edits s'.graph

theorem IsEdit.discard {α : Type} {x : BuildM α} (h : IsEdit x) : IsEdit (Functor.discard x) := by
  intro s _ s' hrun
  obtain ⟨a, ha, -⟩ := Runs.map_iff.1 hrun
  exact h s a s' ha

theorem IsEdit.of_stays {α : Type} {x : BuildM α} (h : Stays b x) : IsEdit x :=
  fun _ _ _ hrun => (h hrun).steps.edits

theorem isEdit_converge : IsEdit (converge c preds) :=
  fun _ _ _ h => (moves_converge h).steps.edits

theorem isEdit_addLayout {L : Layout} : IsEdit (addLayout L) := by
  intro s l s' h
  obtain ⟨-, rfl⟩ := runs_addLayout.1 h
  exact (Step.layout L).edits

theorem isEdit_returnLayout {result : ValueType} : IsEdit (returnLayout result) := by
  intro s l s' h
  rcases runs_returnLayout.1 h with ⟨-, rfl⟩ | ⟨-, hregister⟩
  · exact .refl
  · exact (Step.register hregister).edits

theorem isEdit_action (a : Action) : IsEdit a.run := by
  cases a with
  | addBlock parameters =>
    apply IsEdit.discard
    intro s c s' h
    obtain ⟨-, rfl⟩ := runs_addBlock.1 h
    exact .single (.append rfl ⟨rfl, rfl, rfl⟩)
  | newChild context preds =>
    exact IsEdit.discard fun _ _ _ h => (moves_newChild h).steps.edits
  | jump source target => exact fun _ _ _ h => (moves_jump h).1.steps.edits
  | enter parent => exact IsEdit.discard fun _ _ _ h => (moves_enter h).steps.edits
  | leave context inner => exact IsEdit.discard fun _ _ _ h => (moves_leave h).steps.edits
  | branch parent condition => exact IsEdit.discard fun _ _ _ h => edits_branch h
  | converge context preds => exact isEdit_converge.discard
  | convergeBranch context preds tested condition =>
    exact IsEdit.discard fun _ _ _ h => edits_convergeBranch h
  | merge context first second => exact isEdit_converge.discard
  | emit b operation type plain =>
    apply IsEdit.discard
    intro s r s' h
    obtain ⟨B, hB, hopen, hops, -, rfl⟩ := runs_emit.1 h
    exact .single (.block hB (.push hopen hops (by simp [plain])))
  | emitRef b target => exact IsEdit.discard fun _ _ _ h => (moves_emitRef h).steps.edits
  | copy b r => exact (IsEdit.of_stays stays_copy).discard
  | push b r => exact .of_stays stays_push
  | pushLast b => exact .of_stays stays_pushLast
  | pop b => exact (IsEdit.of_stays stays_pop).discard
  | popMany b count => exact (IsEdit.of_stays stays_popMany).discard
  | peek b depth => exact (IsEdit.of_stays (b := b) stays_peek).discard
  | goto b edge => exact fun _ _ _ h => (moves_goto h).steps.edits
  | finish b =>
    intro s _ s' h
    obtain ⟨B, hB, hopen, rfl⟩ := runs_finish.1 h
    exact .single (.block hB (.finish hopen))
  | declareClass name => exact isEdit_addLayout.discard
  | defineClass id fields =>
    intro s _ s' h
    obtain ⟨-, rfl⟩ := runs_defineClass.1 h
    exact (Step.setFields id fields).edits
  | contextLayout fields => exact isEdit_addLayout.discard
  | returnLayout result => exact isEdit_returnLayout.discard
  | define b name symbol => exact .of_stays stays_define
  | rebind b name r => exact .of_stays stays_rebind
  | setLocals b locals => exact fun _ _ _ h => (moves_setLocals h).steps.edits
  | report d =>
    intro s _ s' h
    obtain rfl := runs_report.1 h
    exact .refl

theorem edits_runAll {actions : List Action} (h : Runs (Action.runAll actions) s u s') :
    s.graph.Edits s'.graph := by
  induction actions generalizing s with
  | nil =>
    obtain rfl := Runs.forM_nil.1 h
    exact .refl
  | cons a actions ih =>
    obtain ⟨t, ha, hrest⟩ := Runs.forM_cons.1 h
    exact (isEdit_action a _ _ _ ha).trans (ih hrest)

/-- However a graph is built, only three kinds of violations are ever found in it: a reachable block
has no way out, a condition is not of type `bool`, or the condition of a branch is not there. -/
theorem runAll_violations {actions : List Action} (h : Runs (Action.runAll actions) {} u s)
    (entries : List BlockId) :
    ∀ v ∈ s.graph.violations entries,
      (∃ b, v = .unterminated b) ∨ (∃ b r, v = .conditionType b r) ∨
        ∃ b B c onTrue onFalse, s.graph.block? b = some B ∧
          B.terminator = some (.branch c onTrue onFalse) ∧ v = .undefinedRegister b c := by
  have hempty : ({} : Builder).graph.Sound := fun b B hB => by simp [Graph.block?] at hB
  exact (hempty.edits (edits_runAll h)).violations entries

def unchecked : List Action :=
  [.addBlock [], .addBlock [], .setLocals ⟨1⟩ { returnSlot := some ⟨5⟩ },
    .define ⟨1⟩ "x" ⟨.prim .u8, some ⟨9⟩⟩, .branch ⟨0⟩ ⟨7⟩, .jump ⟨3⟩ ⟨2⟩, .finish ⟨2⟩]

theorem runAll_violations_of_unchecked :
    ∃ s, Runs (Action.runAll unchecked) {} () s ∧
      .undefinedRegister ⟨0⟩ ⟨7⟩ ∈ s.graph.violations [⟨0⟩, ⟨1⟩] ∧
      ∀ v ∈ s.graph.violations [⟨0⟩, ⟨1⟩],
        (∃ b, v = .unterminated b) ∨ (∃ b r, v = .conditionType b r) ∨
          ∃ b B c onTrue onFalse, s.graph.block? b = some B ∧
            B.terminator = some (.branch c onTrue onFalse) ∧ v = .undefinedRegister b c := by
  obtain ⟨⟨u, s⟩, h⟩ :=
    exists_eq_ok (x := ((Action.runAll unchecked).run {}).result) (by decide +kernel)
  have hfound : ((Action.runAll unchecked).run {}).result.toOption.any (fun x =>
      .undefinedRegister ⟨0⟩ ⟨7⟩ ∈ x.2.graph.blocks.flatMap (·.violations x.2.graph)) = true := by
    decide +kernel
  refine ⟨s, h, List.mem_append_left _ ?_, runAll_violations h _⟩
  simpa [h, Except.toOption] using hfound

end Builder

end BlockGraph
