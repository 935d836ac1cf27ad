import BlockGraph.Proofs.Verification.Sessions

namespace BlockGraph

/-- Anything that can be asked of a graph under construction: an action, an instruction with any type,
be it a reference to a block, or a look at the registers of a block. -/
inductive Request where
  | act (a : Action)
  | emit (b : BlockId) (operation : Operation) (type : ValueType)
  | lastRegister (b : BlockId)
  | typeOf (b : BlockId) (r : Register)

def Action.sources : Action → List BlockId
  | .jump b _ | .enter b | .leave _ b | .branch b _ | .goto b _ => [b]
  | .emit b _ _ _ | .emitRef b _ | .copy b _ => [b]
  | .converge _ preds => preds
  | .convergeBranch _ preds tested _ => tested :: preds
  | .merge _ first second => [first, second]
  | _ => []

def Action.onLayouts : Action → Bool
  | .declareClass _ | .defineClass _ _ | .contextLayout _ | .returnLayout _ => true
  | _ => false

namespace Request

def run : Request → BuildM Unit
  | .act a => a.run
  | .emit b operation type => discard <| Builder.emit b operation type
  | .lastRegister b => discard <| Builder.lastRegister b
  | .typeOf b r => discard <| Builder.typeOf b r

def runAll (qs : List Request) : BuildM Unit := qs.forM Request.run

def sources : Request → List BlockId
  | .act a => a.sources
  | .emit b _ _ => [b]
  | .lastRegister _ | .typeOf _ _ => []

def result? : Request → Option ValueType
  | .act (.returnLayout result) => some result
  | _ => none

def Finishes (q : Request) (b : BlockId) : Prop := q = .act (.finish b)

def Defines (q : Request) (l : LayoutId) : Prop := ∃ fields, q = .act (.defineClass l fields)

end Request

namespace Builder

variable {r : Register} {preds : List BlockId} {a : Action} {q : Request}

/-- From `s` to `s'` blocks are only added and added to: code goes to blocks in `W`, and only blocks
in `F` become final. -/
structure Develops (W : List BlockId) (F : BlockId → Prop) (s s' : Builder) : Prop where
  extends_ : s.graph.Extends s'.graph
  code : ∀ b B B', b ∉ W → s.graph.block? b = some B → s'.graph.block? b = some B' →
    B'.instructions = B.instructions ∧ B'.terminator = B.terminator
  final : ∀ b B B', ¬F b → s.graph.block? b = some B → s'.graph.block? b = some B' →
    B'.isFinal = B.isFinal
  fresh : ∀ b B', s.graph.block? b = none → s'.graph.block? b = some B' → B'.id = b

def SameLayouts (s s' : Builder) : Prop :=
  s'.graph.layouts = s.graph.layouts ∧ s'.returnLayouts = s.returnLayouts

variable {W W' : List BlockId} {F : BlockId → Prop} {s s' s'' : Builder} {b c d : BlockId}
  {u : Unit}

theorem SameLayouts.trans (h : SameLayouts s s') (k : SameLayouts s' s'') : SameLayouts s s'' :=
  ⟨k.1.trans h.1, k.2.trans h.2⟩

namespace Develops

theorem of_blocks (h : s'.graph.blocks = s.graph.blocks) : Develops W F s s' := by
  have hblock (b : BlockId) : s'.graph.block? b = s.graph.block? b := by
    simp only [Graph.block?, h]
  refine ⟨fun b B hB => ⟨B, (hblock b).trans hB, .refl B⟩, fun b B B' _ hB hB' => ?_,
    fun b B B' _ hB hB' => ?_, fun b B' hB hB' => ?_⟩
  · obtain rfl := Option.some.inj (hB.symm.trans ((hblock b).symm.trans hB'))
    exact ⟨rfl, rfl⟩
  · obtain rfl := Option.some.inj (hB.symm.trans ((hblock b).symm.trans hB'))
    rfl
  · simp [hblock, hB] at hB'

theorem trans (h : Develops W F s s') (k : Develops W F s' s'') : Develops W F s s'' := by
  refine ⟨h.extends_.trans k.extends_, fun b B B'' hb hB hB'' => ?_,
    fun b B B'' hb hB hB'' => ?_, fun b B'' hB hB'' => ?_⟩
  · obtain ⟨B', hB', -⟩ := h.extends_ b B hB
    obtain ⟨hi, ht⟩ := h.code b B B' hb hB hB'
    obtain ⟨ki, kt⟩ := k.code b B' B'' hb hB' hB''
    exact ⟨ki.trans hi, kt.trans ht⟩
  · obtain ⟨B', hB', -⟩ := h.extends_ b B hB
    exact (k.final b B' B'' hb hB' hB'').trans (h.final b B B' hb hB hB')
  · cases hB' : s'.graph.block? b with
    | none => exact k.fresh b B'' hB' hB''
    | some B' =>
      -- The block is new in `s'`, and keeps its id from there on.
      obtain ⟨C, hC, hext⟩ := k.extends_ b B' hB'
      obtain rfl := Option.some.inj (hB''.symm.trans hC)
      exact hext.id.trans (h.fresh b B' hB hB')

theorem mono {F' : BlockId → Prop} (h : Develops W F s s') (hW : ∀ b ∈ W, b ∈ W')
    (hF : ∀ b, F b → F' b) : Develops W' F' s s' :=
  ⟨h.extends_, fun b B B' hb => h.code b B B' fun hmem => hb (hW b hmem),
    fun b B B' hb => h.final b B B' fun hmem => hb (hF b hmem), h.fresh⟩

theorem update {B : Block} {f : Block → Block} (hB : s.graph.block? b = some B)
    (hext : B.Extends (f B))
    (hcode : b ∉ W → (f B).instructions = B.instructions ∧ (f B).terminator = B.terminator)
    (hfinal : ¬F b → (f B).isFinal = B.isFinal) : Develops W F s (s.updateBlock b f) := by
  refine ⟨.modifyBlock fun C hC => ?_, fun c C C' hc hC hC' => ?_, fun c C C' hc hC hC' => ?_,
    fun c C' hC hC' => ?_⟩
  · obtain rfl := Option.some.inj (hB.symm.trans hC)
    exact hext
  · rw [updateBlock_block?] at hC'
    split at hC'
    case isTrue h =>
      subst h
      obtain rfl := Option.some.inj (hB.symm.trans hC)
      obtain rfl : f B = C' := by simpa [hB] using hC'
      exact hcode hc
    case isFalse =>
      obtain rfl := Option.some.inj (hC.symm.trans hC')
      exact ⟨rfl, rfl⟩
  · rw [updateBlock_block?] at hC'
    split at hC'
    case isTrue h =>
      subst h
      obtain rfl := Option.some.inj (hB.symm.trans hC)
      obtain rfl : f B = C' := by simpa [hB] using hC'
      exact hfinal hc
    case isFalse =>
      obtain rfl := Option.some.inj (hC.symm.trans hC')
      rfl
  · rw [updateBlock_block?, hC] at hC'
    simp at hC'

theorem relocate {B : Block} (hB : s.graph.block? b = some B) (l : Locals) :
    Develops W F s (s.updateBlock b (·.withLocals l)) :=
  .update hB (.withLocals B l) (fun _ => ⟨rfl, rfl⟩) fun _ => rfl

theorem append {new : Block} (hid : new.id = s.graph.nextId) :
    Develops W F s (s.appendBlock new) := by
  have hold {c : BlockId} {C : Block} (hC : s.graph.block? c = some C) :
      (s.appendBlock new).graph.block? c = some C := by
    rw [appendBlock_block?, if_neg]
    · exact hC
    · rintro rfl
      simp [Graph.block?_nextId] at hC
  refine ⟨.append _ _, fun c C C' _ hC hC' => ?_, fun c C C' _ hC hC' => ?_, fun c C' hC hC' => ?_⟩
  · obtain rfl := Option.some.inj ((hold hC).symm.trans hC')
    exact ⟨rfl, rfl⟩
  · obtain rfl := Option.some.inj ((hold hC).symm.trans hC')
    rfl
  · rw [appendBlock_block?] at hC'
    split at hC'
    case isTrue h =>
      obtain rfl := Option.some.inj hC'
      exact hid.trans h.symm
    case isFalse => simp [hC] at hC'

end Develops

def Adds {α : Type} (W : List BlockId) (F : BlockId → Prop) (x : BuildM α) : Prop :=
  ∀ ⦃s a s'⦄, Runs x s a s' → Develops W F s s' ∧ SameLayouts s s'

namespace Adds

variable {α β : Type} {x : BuildM α}

theorem discard (h : Adds W F x) : Adds W F (Functor.discard x) := by
  intro s _ s' hrun
  obtain ⟨a, ha, -⟩ := Runs.map_iff.1 hrun
  exact h ha

theorem mono {F' : BlockId → Prop} (h : Adds W F x) (hW : ∀ b ∈ W, b ∈ W')
    (hF : ∀ b, F b → F' b) : Adds W' F' x :=
  fun _ _ _ hrun => ⟨(h hrun).1.mono hW hF, (h hrun).2⟩

theorem bind {f : α → BuildM β} (hx : Adds W F x) (hf : ∀ a, Adds W F (f a)) :
    Adds W F (x >>= f) := by
  intro s c s' h
  obtain ⟨a, t, ha, hc⟩ := Runs.bind_iff.1 h
  exact ⟨(hx ha).1.trans (hf a hc).1, (hx ha).2.trans (hf a hc).2⟩

theorem of_eq (h : ∀ s a s', Runs x s a s' → s' = s) : Adds W F x := by
  intro s a s' hrun
  obtain rfl := h s a s' hrun
  exact ⟨.of_blocks rfl, rfl, rfl⟩

theorem pure {a : α} : Adds W F (Pure.pure a) := of_eq (by simp)

theorem forM {as : List α} {f : α → BuildM PUnit} (hf : ∀ a ∈ as, Adds W F (f a)) :
    Adds W F (as.forM f) := by
  induction as with
  | nil => exact of_eq fun s u s' h => Runs.forM_nil.1 h
  | cons a as ih =>
    intro s u s' h
    obtain ⟨t, ha, has⟩ := Runs.forM_cons.1 h
    have hhead := hf a (by simp) ha
    have htail := ih (fun a ha => hf a (by simp [ha])) has
    exact ⟨hhead.1.trans htail.1, hhead.2.trans htail.2⟩

end Adds

theorem adds_emit {op : Operation} {t : ValueType} : Adds [b] F (emit b op t) := by
  intro s r s' h
  obtain ⟨B, hB, hopen, -, -, rfl⟩ := runs_emit.1 h
  exact ⟨.update hB (.push hopen _) (by simp) fun _ => rfl, rfl, rfl⟩

theorem adds_emitRef : Adds [b] F (emitRef b c) :=
  Adds.bind (.of_eq (by simp)) fun _ => adds_emit

theorem adds_copy : Adds [b] F (copy b r) :=
  Adds.bind (.of_eq (by simp)) fun _ => adds_emit

theorem adds_setLocals {l : Locals} : Adds W F (setLocals b l) := by
  intro s v s' h
  obtain ⟨⟨B, hB⟩, rfl⟩ := runs_setLocals.1 h
  exact ⟨.relocate hB l, rfl, rfl⟩

theorem adds_popMany {n : Nat} : Adds W F (popMany b n) := by
  intro s rs s' h
  rcases runs_popMany.1 h with ⟨-, -, rfl⟩ | ⟨-, B, rest, hB, -, -, rfl⟩
  · exact ⟨.of_blocks rfl, rfl, rfl⟩
  · exact ⟨.relocate hB _, rfl, rfl⟩

theorem adds_pop : Adds W F (pop b) := by
  intro s r s' h
  obtain ⟨B, rest, hB, -, rfl⟩ := runs_pop.1 h
  exact ⟨.relocate hB _, rfl, rfl⟩

theorem adds_push : Adds W F (push b r) := by
  intro s v s' h
  obtain ⟨B, hB, -, rfl⟩ := runs_push.1 h
  exact ⟨.relocate hB _, rfl, rfl⟩

theorem adds_pushLast : Adds W F (pushLast b) :=
  Adds.bind (.of_eq (by simp)) fun _ => adds_push

theorem adds_define {name : String} {x : Symbol} : Adds W F (define b name x) := by
  intro s v s' h
  obtain ⟨B, t, hB, -, rfl⟩ := runs_define.1 h
  exact ⟨.relocate hB _, rfl, rfl⟩

theorem adds_rebind {name : String} : Adds W F (rebind b name r) := by
  intro s v s' h
  obtain ⟨B, t, hB, -, rfl⟩ := runs_rebind.1 h
  exact ⟨.relocate hB _, rfl, rfl⟩

theorem adds_addBlock {ps : List Parameter} : Adds W F (addBlock ps) := by
  intro s c s' h
  obtain ⟨-, rfl⟩ := runs_addBlock.1 h
  exact ⟨.append rfl, rfl, rfl⟩

theorem adds_report {d : Diagnostic} : Adds W F (report d) := by
  intro s v s' h
  obtain rfl := runs_report.1 h
  exact ⟨.of_blocks rfl, rfl, rfl⟩

theorem adds_newChild : Adds W F (newChild c preds) := by
  intro s child s' h
  obtain ⟨i, -, -, rfl⟩ := runs_newChild.1 h
  have happend : Develops W F s (s.appendBlock (i.block s.graph.nextId)) := .append rfl
  exact ⟨happend.trans (.of_blocks rfl), rfl, rfl⟩

theorem adds_terminate {t : Terminator} : Adds [b] F (terminate b t) := by
  intro s v s' h
  obtain ⟨B, hB, hopen, rfl⟩ := runs_terminate.1 h
  exact ⟨.update hB (.close hopen t) (by simp) fun _ => rfl, rfl, rfl⟩

theorem adds_edge : Adds [b] F (edge b c) := by
  intro s e s' h
  obtain ⟨B, T, args, hB, -, hopen, -, -, -, rfl⟩ := runs_edge.1 h
  exact ⟨.update hB (.push hopen _) (by simp) fun _ => rfl, rfl, rfl⟩

theorem adds_jump : Adds [b] F (jump b c) :=
  adds_edge.bind fun _ => adds_terminate

theorem adds_goto {e : Edge} : Adds [b] F (goto b e) := by
  intro s v s' h
  obtain ⟨B, hB, hopen, -, rfl⟩ := runs_goto.1 h
  exact ⟨.update hB (.close hopen _) (by simp) fun _ => rfl, rfl, rfl⟩

theorem adds_branchTo : Adds [b] F (branchTo b r c d) :=
  adds_edge.bind fun _ => adds_edge.bind fun _ => adds_terminate

theorem adds_branch : Adds [b] F (branch b r) :=
  adds_newChild.bind fun _ => adds_newChild.bind fun _ => adds_branchTo.bind fun _ => .pure

theorem adds_converge : Adds preds F (converge c preds) := by
  refine adds_newChild.bind fun child => Adds.bind (.forM fun p hp => ?_) fun _ => .pure
  exact adds_jump.mono (by simpa using hp) fun _ => id

theorem adds_enter : Adds [b] F (enter b) :=
  adds_newChild.bind fun _ => adds_jump.bind fun _ => .pure

theorem adds_leave : Adds [b] F (leave c b) :=
  adds_newChild.bind fun _ => adds_jump.bind fun _ => .pure

theorem adds_convergeBranch : Adds (b :: preds) F (convergeBranch c preds b r) := by
  refine adds_newChild.bind fun onTrue => adds_newChild.bind fun onFalse =>
    Adds.bind (.forM fun p hp => ?_) fun _ => Adds.bind ?_ fun _ => .pure
  · exact adds_jump.mono (by simpa using .inr hp) fun _ => id
  · exact adds_branchTo.mono (by simp) fun _ => id

theorem adds_finish : Adds W (· = b) (finish b) := by
  intro s v s' h
  obtain ⟨B, hB, hopen, rfl⟩ := runs_finish.1 h
  refine ⟨.update hB ⟨rfl, rfl, rfl, List.prefix_rfl, by simp [hopen]⟩ (fun _ => ⟨rfl, rfl⟩) ?_,
    rfl, rfl⟩
  simp

theorem adds_action (ha : a.onLayouts = false) : Adds a.sources (fun b => a = .finish b) a.run := by
  cases a with
  | addBlock parameters => exact adds_addBlock.discard
  | newChild context preds => exact adds_newChild.discard
  | jump source target => exact adds_jump
  | enter parent => exact adds_enter.discard
  | leave context inner => exact adds_leave.discard
  | branch parent condition => exact adds_branch.discard
  | converge context preds => exact adds_converge.discard
  | convergeBranch context preds tested condition => exact adds_convergeBranch.discard
  | merge context first second => exact adds_converge.discard
  | emit b operation type plain => exact adds_emit.discard
  | emitRef b target => exact adds_emitRef.discard
  | copy b r => exact adds_copy.discard
  | push b r => exact adds_push
  | pushLast b => exact adds_pushLast
  | pop b => exact adds_pop.discard
  | popMany b count => exact adds_popMany.discard
  | peek b depth => exact Adds.discard (.of_eq (by simp))
  | goto b edge => exact adds_goto
  | finish b => exact adds_finish.mono (fun _ => id) fun c hc => by rw [hc]
  | define b name symbol => exact adds_define
  | rebind b name r => exact adds_rebind
  | setLocals b locals => exact adds_setLocals
  | report d => exact adds_report
  | declareClass name => simp [Action.onLayouts] at ha
  | defineClass id fields => simp [Action.onLayouts] at ha
  | contextLayout fields => simp [Action.onLayouts] at ha
  | returnLayout result => simp [Action.onLayouts] at ha

inductive Lays (s : Builder) : Request → Builder → Prop
  | same {q : Request} {s' : Builder} : q.result? = none → SameLayouts s s' → Lays s q s'
  | known {result : ValueType} : result ∈ s.returnLayouts.keys →
      Lays s (.act (.returnLayout result)) s
  | register {result : ValueType} {s' : Builder} : s.Registers result s' →
      Lays s (.act (.returnLayout result)) s'
  | declare (name : String) :
      Lays s (.act (.declareClass name)) (s.appendLayout ⟨[], .ofClass name⟩)
  | keep (fields : List ValueType) :
      Lays s (.act (.contextLayout fields)) (s.appendLayout ⟨fields, .ofContext⟩)
  | define {l : LayoutId} {L : Layout} {fields : List ValueType} : s.graph.layout? l = some L →
      Lays s (.act (.defineClass l fields)) (s.setFields l fields)

theorem lays_action (ha : a.onLayouts = true) (h : Runs a.run s u s') : Lays s (.act a) s' := by
  cases a with
  | declareClass name =>
    obtain ⟨l, hl, -⟩ := Runs.map_iff.1 h
    obtain ⟨-, rfl⟩ := runs_declareClass.1 hl
    exact .declare name
  | defineClass l fields =>
    obtain ⟨⟨L, hL⟩, rfl⟩ := runs_defineClass.1 h
    exact .define hL
  | contextLayout fields =>
    obtain ⟨l, hl, -⟩ := Runs.map_iff.1 h
    obtain ⟨-, rfl⟩ := runs_contextLayout.1 hl
    exact .keep fields
  | returnLayout result =>
    obtain ⟨l, hl, -⟩ := Runs.map_iff.1 h
    rcases runs_returnLayout.1 hl with ⟨hknown, rfl⟩ | ⟨-, hnew⟩
    · exact .known (List.mem_map_of_mem (OrderedMap.mem_of_get? hknown))
    · exact .register hnew
  | _ => simp [Action.onLayouts] at ha

theorem blocks_action (ha : a.onLayouts = true) (h : Runs a.run s u s') :
    s'.graph.blocks = s.graph.blocks := by
  cases a with
  | declareClass name =>
    obtain ⟨l, hl, -⟩ := Runs.map_iff.1 h
    obtain ⟨-, rfl⟩ := runs_declareClass.1 hl
    rfl
  | defineClass l fields =>
    obtain ⟨-, rfl⟩ := runs_defineClass.1 h
    rfl
  | contextLayout fields =>
    obtain ⟨l, hl, -⟩ := Runs.map_iff.1 h
    obtain ⟨-, rfl⟩ := runs_contextLayout.1 hl
    rfl
  | returnLayout result =>
    obtain ⟨l, hl, -⟩ := Runs.map_iff.1 h
    rcases runs_returnLayout.1 hl with ⟨-, rfl⟩ | ⟨-, -, hgraph, -⟩
    · rfl
    · rw [hgraph]
      rfl
  | _ => simp [Action.onLayouts] at ha

theorem develops_request (h : Runs q.run s u s') : Develops q.sources q.Finishes s s' := by
  cases q with
  | act a =>
    cases ha : a.onLayouts with
    | true => exact .of_blocks (blocks_action ha h)
    | false => exact (adds_action ha h).1.mono (fun _ => id) fun b hb => congrArg Request.act hb
  | emit b operation type => exact (adds_emit.discard h).1
  | lastRegister b => exact (Adds.discard (.of_eq (by simp)) h).1
  | typeOf b r => exact (Adds.discard (.of_eq (by simp)) h).1

theorem lays_request (h : Runs q.run s u s') : Lays s q s' := by
  cases q with
  | act a =>
    cases ha : a.onLayouts with
    | true => exact lays_action ha h
    | false =>
      refine .same ?_ (adds_action ha h).2
      cases a <;> simp_all [Action.onLayouts, Request.result?]
  | emit b operation type => exact .same rfl (adds_emit.discard (F := fun _ => False) h).2
  | lastRegister b =>
    exact .same rfl (Adds.discard (W := []) (F := fun _ => False) (.of_eq (by simp)) h).2
  | typeOf b r =>
    exact .same rfl (Adds.discard (W := []) (F := fun _ => False) (.of_eq (by simp)) h).2

theorem runAll_append {qs qs' : List Request} :
    Runs (Request.runAll (qs ++ qs')) s u s'' ↔
      ∃ s', Runs (Request.runAll qs) s () s' ∧ Runs (Request.runAll qs') s' u s'' := by
  induction qs generalizing s with
  | nil =>
    have hnil (t : Builder) : Runs (Request.runAll []) s () t ↔ t = s := Runs.forM_nil
    simp [hnil]
  | cons q qs ih =>
    have hcons {rs : List Request} {v : Unit} {t : Builder} :
        Runs (Request.runAll (q :: rs)) s v t ↔
          ∃ s₁, Runs q.run s ⟨⟩ s₁ ∧ Runs (Request.runAll rs) s₁ v t := Runs.forM_cons
    rw [List.cons_append, hcons]
    simp only [ih, hcons]
    constructor
    · rintro ⟨s₁, hq, s', hqs, hqs'⟩
      exact ⟨s', ⟨s₁, hq, hqs⟩, hqs'⟩
    · rintro ⟨s', ⟨s₁, hq, hqs⟩, hqs'⟩
      exact ⟨s₁, hq, s', hqs, hqs'⟩

theorem runAll_concat {qs : List Request} :
    Runs (Request.runAll (qs ++ [q])) s u s'' ↔
      ∃ s', Runs (Request.runAll qs) s () s' ∧ Runs q.run s' u s'' := by
  rw [runAll_append]
  have hone (t : Builder) : Runs (Request.runAll [q]) t u s'' ↔ Runs q.run t u s'' := by
    simp [Request.runAll]
  simp only [hone]

end Builder

end BlockGraph
