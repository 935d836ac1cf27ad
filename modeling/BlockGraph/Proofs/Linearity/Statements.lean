import BlockGraph.Proofs.Linearity.Expressions
import BlockGraph.Proofs.Lowering.Statements

namespace BlockGraph.Lowering

open Builder

variable {E : Fault → Prop} {s : State} {b c : BlockId} {r : Register} {ls : List LoopFrame}
  {t : Builder} {leaving : List BlockId} {ps : List Parameter}

theorem tidies_modify {f : State → State} (h : s.Tidy → (f s).Tidy) (hg : (f s).graph = s.graph) :
    BlockGraph.Tidies E State.Tidy (·.graph) (modify f) s fun _ s' => s' = f s := by
  refine fun hs => .of_run (a := ⟨⟩) (Runs.modify_iff.2 rfl) ⟨h hs, ?_, rfl⟩
  dsimp only
  rw [hg]
  exact .refl _

theorem tidies_get :
    BlockGraph.Tidies E State.Tidy (·.graph) (get : LowerM State) s fun a s' => a = s ∧ s' = s :=
  fun hs => .of_run (Runs.get_iff.2 ⟨rfl, rfl⟩) ⟨hs, .refl _, rfl, rfl⟩

/-! Loops. -/

def LoopsTarget (g : Graph) (ls : List LoopFrame) : Prop :=
  ∀ f ∈ ls, ∀ test exit, f.targets = .known test exit → g.IsTarget test ∧ g.IsTarget exit

theorem LoopsTarget.mono {g g' : Graph} (h : LoopsTarget g ls) (hg : g.Preserves g') :
    LoopsTarget g' ls := fun f hf test exit heq =>
  ⟨(h f hf test exit heq).1.mono hg, (h f hf test exit heq).2.mono hg⟩

theorem State.Tidy.withLoops (h : s.Tidy) (hls : LoopsTarget s.graph ls) :
    State.Tidy { s with loops := ls } :=
  ⟨h.builder, h.classes, h.functions, hls⟩

theorem tidies_pushLoop {label : Option String} {targets : LoopTargets}
    (h : ∀ test exit, targets = .known test exit → s.graph.IsTarget test ∧ s.graph.IsTarget exit) :
    BlockGraph.Tidies E State.Tidy (·.graph) (pushLoop ⟨label, targets⟩) s fun _ s' =>
      s' = { s with loops := ⟨label, targets⟩ :: s.loops } := by
  refine tidies_modify (fun hs => hs.withLoops fun f hf => ?_) rfl
  rcases List.mem_cons.1 hf with rfl | hf
  · exact h
  · exact hs.loops f hf

theorem tidies_popLoop :
    BlockGraph.Tidies E State.Tidy (·.graph) popLoop s fun _ s' =>
      s' = { s with loops := s.loops.tail } :=
  tidies_modify (fun hs => hs.withLoops fun f hf => hs.loops f (List.mem_of_mem_tail hf)) rfl

theorem tidies_popQueued : Tidies popQueued s fun _ _ => True := by
  refine fun hs => .of_runs fun q s' hrun => ?_
  obtain ⟨label, ls, hloops, rfl⟩ := runs_popQueued.1 hrun
  exact ⟨hs.withLoops fun f hf => hs.loops f (by simp [hloops, hf]), .refl _, trivial⟩

theorem tidies_lowerJump {kind : LoopJump} {label : Option String} :
    Tidies (lowerJump b kind label) s fun _ _ => True := by
  refine fun hs => .of_runs fun _ s' hrun => ?_
  obtain ⟨inner, f, outer, hloops, -, -, h⟩ := runs_lowerJump.1 hrun
  split at h
  case h_1 test exit htargets =>
    obtain ⟨t, ht, rfl⟩ := h
    obtain ⟨htest, hexit⟩ := hs.loops f (by simp [hloops]) test exit htargets
    have hto : s.graph.IsTarget (LoopJump.target test exit kind) := by
      cases kind
      · exact hexit
      · exact htest
    obtain ⟨htidy, hpres, -⟩ := (tidies_jump hto hs.builder).holds ht
    exact ⟨hs.withBuilder htidy hpres, hpres, trivial⟩
  case h_2 leaving repeating htargets =>
    subst h
    refine ⟨hs.withLoops fun f' hf' => ?_, .refl _, trivial⟩
    simp only [List.mem_append, List.mem_cons] at hf'
    rcases hf' with hf' | rfl | hf'
    · exact hs.loops f' (by simp [hloops, hf'])
    · intro test exit heq
      cases kind <;> simp [LoopFrame.enqueue, htargets, LoopTargets.enqueue] at heq
    · exact hs.loops f' (by simp [hloops, hf'])

theorem tidies_exitLoop : Builder.Tidies (exitLoop b leaving) t fun _ _ => True :=
  .ite (fun _ => .pure trivial) fun _ => tidies_converge.bind fun _ _ _ _ => .pure trivial

theorem tidies_closeLoop {inside : BlockId} {condition : Expr} {repeating : List BlockId}
    (hinside : s.graph.IsTarget inside) :
    Tidies (closeLoop b inside condition leaving repeating) s fun _ _ => True := by
  refine .ite (fun _ => .ite (fun _ => ?_) fun _ => ?_) fun _ => .ite (fun _ => ?_) fun _ => ?_
  · exact (tidies_lift tidies_report).bind fun _ _ _ _ => tidies_lift tidies_exitLoop
  · exact tidies_lift tidies_exitLoop
  · refine (tidies_lift tidies_converge).bind fun c _ hpres _ => ?_
    exact (tidies_lift (tidies_jump (hinside.mono hpres))).bind fun _ _ _ _ =>
      tidies_lift tidies_exitLoop
  · refine (tidies_lift tidies_converge).bind fun c _ hpres₁ _ => ?_
    refine (tidies_lowerExpr c condition).bind fun tested _ hpres₂ htested => ?_
    refine (tidies_lift (tidies_lastRegister htested)).bind fun r _ hpres₃ _ => ?_
    refine (tidies_lift tidies_convergeBranch).bind ?_
    rintro ⟨again, exit⟩ _ hpres₄ -
    have hinside := hinside.mono (hpres₁.trans (hpres₂.trans (hpres₃.trans hpres₄)))
    exact (tidies_lift (tidies_jump hinside)).bind fun _ _ _ _ => .pure trivial

/-! Definitions and returns. -/

theorem tidies_clauseType {type : Option ValueType} {c : Clause}
    (htype : ∀ t, type = some t → s.graph.Proper t) :
    Tidies (clauseType type c) s fun t s' => s'.graph.Proper t := by
  unfold clauseType
  split
  · exact .pure (htype _ rfl)
  · exact tidies_lowerType _
  · exact .throw trivial

theorem tidies_lowerClauses {type : Option ValueType} {cs : List Clause}
    (htype : ∀ t, type = some t → s.graph.Proper t) :
    Tidies (lowerClauses type b cs) s fun _ _ => True := by
  induction cs generalizing s b with
  | nil => exact .pure trivial
  | cons c rest ih =>
    obtain ⟨name, value⟩ := c
    have hrest (b' : BlockId) (register : Option Register) (s₁ : State)
        (hpres : s.graph.Preserves s₁.graph)
        (hregister : ∀ r, register = some r → s₁.graph.Typed b' r) :
        Tidies (do
          let t ← clauseType type ⟨name, value⟩
          tell (.symbolDefined name t b')
          define b' name ⟨t, register⟩
          lowerClauses type b' rest) s₁ fun _ _ => True := by
      refine (tidies_clauseType fun t ht => (htype t ht).mono hpres).bind fun t s₂ hpres₂ ht => ?_
      refine (tidies_lift tidies_tell).bind fun _ s₃ _ hs₃ => ?_
      refine (tidies_lift (tidies_define (hs₃ ▸ ht) fun r hr => ?_)).bind fun _ s₄ hpres₄ _ => ?_
      · rw [hs₃]
        exact (hregister r hr).mono hpres₂
      · refine ih fun t ht => (htype t ht).mono (hpres.trans (hpres₂.trans ?_))
        rwa [← hs₃]
    cases value with
    | none => exact hrest b none s (.refl _) nofun
    | some value =>
      refine (tidies_lowerExpr b value).bind fun c s₁ hpres hc => ?_
      refine (tidies_lift (tidies_lastRegister hc)).bind fun r s₂ hpres₂ hr => ?_
      exact hrest c (some r) s₂ (hpres.trans hpres₂) (by rintro _ ⟨⟩; exact hr.2)

theorem tidies_optionType {type : Option SourceType} :
    Tidies (type.mapM lowerType) s fun o s' => ∀ t, o = some t → s'.graph.Proper t := by
  cases type with
  | none => exact .pure (by simp)
  | some type => exact (tidies_lowerType type).bind fun v _ _ hv => .pure (by simpa using hv)

theorem tidies_lowerReturnValue {result : ValueType} {value : Option Expr} :
    Tidies (lowerReturnValue result b value) s fun _ _ => True := by
  cases value with
  | some value =>
    have hvalue {s : State} : Tidies (do
        let b ← lowerExpr b value
        return (b, some (← (lastRegister b : BuildM _)))) s fun _ _ => True :=
      (tidies_lowerExpr b value).bind fun c _ _ hc =>
        (tidies_lift (tidies_lastRegister hc)).bind fun _ _ _ _ => .pure trivial
    exact .ite (fun _ => (BlockGraph.Tidies.throw (Q := fun _ _ => True) trivial).bind fun _ _ _ _ => hvalue)
      fun _ => hvalue
  | none =>
    exact .ite (fun _ => (BlockGraph.Tidies.throw (Q := fun _ _ => True) trivial).bind
      fun _ _ _ _ => .pure trivial) fun _ => .pure trivial

theorem tidies_locals : Builder.Tidies (locals b) t fun _ _ => True := by
  refine .look fun l t' _ hrun => ?_
  obtain ⟨-, -, -, rfl⟩ := runs_locals.1 hrun
  exact ⟨rfl, trivial⟩

theorem tidies_typeOf : Builder.Tidies (typeOf b r) t fun _ _ => True := by
  refine .look fun l t' _ hrun => ?_
  obtain ⟨-, -, -, rfl⟩ := runs_typeOf.1 hrun
  exact ⟨rfl, trivial⟩

theorem tidies_continuationType {type : ValueType} :
    Builder.Tidies (continuationType type) t fun _ _ => True := by
  refine .look fun v t' _ hrun => ⟨?_, trivial⟩
  unfold continuationType at hrun
  split at hrun
  · simp only [Runs.bind_iff, runs_layout] at hrun
    obtain ⟨L, _, ⟨-, rfl⟩, hrun⟩ := hrun
    split at hrun
    · exact (Runs.pure_iff.1 hrun).2
    · simp at hrun
  · simp at hrun

theorem tidies_returned {slot : Register} {type : ValueType} {e : Event} {rs : List Register} :
    Tidies (do
      let target ← emit b (.getField slot 0) type
      tell e
      goto b ⟨target, slot :: rs⟩) s fun _ _ => True := by
  refine fun hs => .of_runs fun _ s' hrun => ?_
  simp only [Runs.bind_iff, Runs.lift_build_iff, runs_emit, runs_tell, runs_goto] at hrun
  obtain ⟨_, _, ⟨_, ⟨B, hB, hopen, hops, rfl, rfl⟩, rfl⟩, _, _, ⟨_, rfl, rfl⟩, _, ⟨B', hB', -, -, rfl⟩,
    rfl⟩ := hrun
  have hkeeps := hs.builder.leave hB hopen [⟨.getField slot 0, type⟩]
    (Block.readsBack_singleton (by simpa using hops))
    (fun i hi => List.mem_singleton.1 hi ▸ .of_inert rfl)
    (.goto ⟨⟨B.registerCount⟩, slot :: rs⟩)
  have hs' := hs.withBuilder hkeeps.tidy hkeeps.preserves
  rw [updateBlock_updateBlock]
  exact ⟨hs', hkeeps.preserves, trivial⟩

theorem tidies_lowerReturn {frame : Option Frame} {value : Option Expr} :
    Tidies (lowerReturn frame b value) s fun _ _ => True := by
  cases frame with
  | none => exact .throw trivial
  | some frame =>
    obtain ⟨name, result⟩ := frame
    refine tidies_lowerReturnValue.bind fun ⟨b', value'⟩ _ _ _ => ?_
    refine (tidies_lift tidies_locals).bind fun l _ _ _ => ?_
    split
    · exact .throw trivial
    · exact (tidies_lift tidies_typeOf).bind fun _ _ _ _ =>
        (tidies_lift tidies_continuationType).bind fun _ _ _ _ => tidies_returned

/-! Declarations. -/

theorem tidies_declare {k : ClassDecl} : Tidies (declare k) s fun _ _ => True := by
  refine (tidies_lift tidies_declareClass).bind fun l s₁ _ hl => ?_
  refine (tidies_modify (fun hs => ⟨hs.builder, fun n l' hl' => ?_, hs.functions, hs.loops⟩) rfl).imp
    fun _ _ _ _ => trivial
  simp only [Std.TreeMap.getElem?_insert, Nat.compare_eq_eq] at hl'
  split at hl'
  · obtain rfl := Option.some.inj hl'
    exact hl
  · exact hs.classes n l' hl'

theorem tidies_defineFields {k : ClassDecl} : Tidies (defineFields k) s fun _ _ => True :=
  (tidies_lowerTypes _).bind fun _ _ _ _ => tidies_classLayout.bind fun _ _ _ _ =>
    tidies_lift tidies_defineClass

theorem tidies_defineParameters {n : Nat}
    (hps : ∀ k p, ps[k]? = some p → t.graph.Proper p.type ∧ t.graph.Typed b ⟨n + k⟩) :
    Builder.Tidies (defineParameters b n ps) t fun _ _ => True := by
  induction ps generalizing t n with
  | nil => exact .pure trivial
  | cons p ps ih =>
    obtain ⟨type, name⟩ := p
    obtain ⟨hproper, htyped⟩ := hps 0 _ rfl
    have hrest {t' : Builder} (hpres : t.graph.Preserves t'.graph) (k : Nat) (p : Parameter)
        (hk : ps[k]? = some p) : t'.graph.Proper p.type ∧ t'.graph.Typed b ⟨n + 1 + k⟩ := by
      obtain ⟨hp, hk⟩ := hps (k + 1) p hk
      rw [Nat.add_right_comm n 1 k]
      exact ⟨hp.mono hpres, hk.mono hpres⟩
    cases name with
    | none => exact ih (hrest (.refl _))
    | some name =>
      exact (tidies_define hproper (by rintro _ ⟨⟩; exact htyped)).bind fun _ _ hpres _ =>
        ih (hrest hpres)

def entryBlock (id : BlockId) (l : LayoutId) (ps : List Parameter) : Block :=
  { id, parameters := ⟨.object l, none⟩ :: ps, locals := { returnSlot := some ⟨0⟩ } }

theorem entryBlock_typeOf? {id : BlockId} {l : LayoutId} {k : Nat} {p : Parameter}
    (hk : ps[k]? = some p) : (entryBlock id l ps).typeOf? ⟨1 + k⟩ = some p.type :=
  Block.typeOf?_of_parameterTypes (by
    rw [Nat.add_comm]
    simp [entryBlock, Block.parameterTypes, hk])

theorem entryBlock_tidy {g : Graph} (hps : ∀ p ∈ ps, g.Proper p.type) (id : BlockId) (l : LayoutId) :
    (entryBlock id l ps).Tidy g := by
  refine .of_parameters rfl (fun t ht => ?_) (fun r hr => ?_) (fun e he => nomatch he)
  · simp only [entryBlock, Block.parameterTypes, List.map_cons, List.mem_cons, List.mem_map] at ht
    rcases ht with rfl | ⟨p, hp, rfl⟩
    · exact proper_object l
    · exact hps p hp
  · have hlive : (entryBlock id l ps).locals.liveRegisters = [⟨0⟩] := rfl
    rw [hlive, List.mem_singleton] at hr
    exact ⟨.object l, by simp [hr, entryBlock, Block.parameterTypes]⟩

theorem tidies_declareFunction {f : FunctionDecl} :
    Tidies (declareFunction f) s fun _ _ => True := by
  refine (tidies_lowerType _).bind fun result _ _ _ => ?_
  refine (tidies_lift tidies_returnLayout).bind fun returns _ _ hreturns => ?_
  refine (tidies_lowerTypes _).bind fun types s₃ hpres₃ htypes => ?_
  let ps := f.parameters.zipWith (fun p t => Parameter.mk t (some p.name)) types
  have hps : ∀ p ∈ ps, s₃.graph.Proper p.type := by
    intro p hp
    obtain ⟨n, hn⟩ := List.mem_iff_getElem?.1 hp
    obtain ⟨_, t, -, ht, rfl⟩ := List.getElem?_zipWith_eq_some.1 hn
    exact htypes t (List.mem_of_getElem? ht)
  refine fun hs => .of_runs fun _ s' hrun => ?_
  simp only [Runs.bind_iff, Runs.lift_build_iff, Runs.modify_iff, runs_addBlock, runs_setLocals,
    runs_tell] at hrun
  obtain ⟨_, _, ⟨_, ⟨rfl, rfl⟩, rfl⟩, _, _, ⟨_, ⟨-, rfl⟩, rfl⟩, _, _, ⟨t, hdefine, rfl⟩, _, _, ⟨_, rfl, rfl⟩,
    rfl⟩ := hrun
  rw [appendBlock_updateBlock] at hdefine
  let entry := s₃.graph.nextId
  let E := entryBlock entry returns ps
  have hkeeps : Keeps s₃.toBuilder (s₃.appendBlock E) := hs.builder.append rfl
    (fun hresumes => hresumes.slot rfl) (entryBlock_tidy hps entry returns)
  have hE : (s₃.appendBlock E).graph.block? entry = some E := by
    rw [appendBlock_block?, if_pos rfl]
  have hparams (k : Nat) (p : Parameter) (hk : ps[k]? = some p) :
      (s₃.appendBlock E).graph.Proper p.type ∧ (s₃.appendBlock E).graph.Typed entry ⟨1 + k⟩ :=
    have hproper := (hps p (List.mem_of_getElem? hk)).mono hkeeps.preserves
    ⟨hproper, E, p.type, hE, entryBlock_typeOf? hk, hproper⟩
  have henters : Enters (s₃.appendBlock E).graph entry := by
    refine ⟨⟨E, hE, fun hresumes => hresumes.slot rfl⟩, fun C hC l ts heq => ?_⟩
    obtain rfl := Option.some.inj (hE.symm.trans hC)
    obtain ⟨rfl, -⟩ : returns = l ∧ _ := by simpa [E, entryBlock, Block.parameterTypes] using heq
    exact hreturns.mono (hpres₃.trans hkeeps.preserves)
  obtain ⟨htidy, hpres, -⟩ := (tidies_defineParameters hparams hkeeps.tidy).holds hdefine
  have hall := hkeeps.preserves.trans hpres
  have hs' := hs.withBuilder htidy hall
  refine ⟨⟨hs'.builder, hs'.classes, fun k e he => ?_, hs'.loops⟩, hall, trivial⟩
  simp only [Std.TreeMap.getElem?_insert, Nat.compare_eq_eq] at he
  split at he
  · obtain rfl := Option.some.inj he
    exact henters.mono hpres
  · exact hs'.functions k e he

/-! Scopes. -/

mutual

theorem tidies_lowerScope {s : State} (frame : Option Frame) (b : BlockId) :
    (body : Scope) → Tidies (lowerScope frame b body) s fun _ _ => True
  | ⟨classes, functions, statements⟩ => by
    rw [lowerScope]
    exact (BlockGraph.Tidies.forM trivial fun _ _ _ _ => tidies_declare).bind fun _ _ _ _ =>
      (BlockGraph.Tidies.forM trivial fun _ _ _ _ => tidies_declareFunction).bind fun _ _ _ _ =>
        (BlockGraph.Tidies.forM trivial fun _ _ _ _ => tidies_defineFields).bind fun _ _ _ _ =>
          (tidies_lowerFunctions functions).bind fun _ _ _ _ => tidies_lowerStmts frame b statements

theorem tidies_lowerFunctions {s : State} :
    (fs : List FunctionDecl) → Tidies (lowerFunctions fs) s fun _ _ => True
  | [] => by
    rw [lowerFunctions]
    exact .pure trivial
  | f :: fs => by
    rw [lowerFunctions]
    exact (tidies_lowerFunction f).bind fun _ _ _ _ => tidies_lowerFunctions fs

theorem tidies_lowerFunction {s : State} :
    (f : FunctionDecl) → Tidies (lowerFunction f) s fun _ _ => True
  | ⟨id, name, result, parameters, body⟩ => by
    rw [lowerFunction]
    refine tidies_functionEntry.bind fun e _ _ _ => (tidies_lowerType result).bind fun type s₁ _ _ => ?_
    refine fun hs => tidies_get.bind (fun s₁ s₁' _ ⟨hget, hs₁⟩ => ?_) hs
    subst s₁ s₁'
    refine (tidies_modify (fun hs => hs.withLoops (by simp [LoopsTarget])) rfl).bind
      fun _ s₂ hpres₂ _ => ?_
    refine (tidies_lowerScope _ e.entry body).bind fun o s₃ hpres₃ _ => ?_
    have hrestore {t : State} (hpres : s₃.graph.Preserves t.graph) :
        Tidies (modify ({ · with loops := s₁.loops })) t fun _ _ => True := by
      have hloops : LoopsTarget t.graph s₁.loops :=
        LoopsTarget.mono hs.loops (hpres₂.trans (hpres₃.trans hpres))
      exact (tidies_modify (fun ht => ht.withLoops hloops) rfl).imp fun _ _ _ _ => trivial
    cases o with
    | none => exact hrestore (.refl _)
    | some c =>
      refine .ite (fun _ => ?_) fun _ => ?_
      · exact tidies_lowerReturn.bind fun _ _ hpres _ => hrestore hpres
      · exact (BlockGraph.Tidies.throw (Q := fun _ _ => True) trivial).bind fun _ _ hpres _ => hrestore hpres

theorem tidies_lowerStmts {s : State} (frame : Option Frame) (b : BlockId) :
    (ss : List Stmt) → Tidies (lowerStmts frame b ss) s fun _ _ => True
  | [] => by
    rw [lowerStmts]
    exact .pure trivial
  | st :: rest => by
    rw [lowerStmts]
    refine (tidies_lowerStmt frame b st).bind fun o _ _ _ => ?_
    cases o with
    | some c => exact tidies_lowerStmts frame c rest
    | none =>
      exact .ite (fun _ => (tidies_lift tidies_report).bind fun _ _ _ _ => .pure trivial)
        fun _ => .pure trivial

theorem tidies_lowerStmt {s : State} (frame : Option Frame) (b : BlockId) :
    (st : Stmt) → Tidies (lowerStmt frame b st) s fun _ _ => True
  | .scope body => by
    rw [lowerStmt]
    refine (tidies_lift tidies_enter).bind fun c _ _ _ => ?_
    refine (tidies_lowerScope frame c body).bind fun o _ _ _ => ?_
    cases o with
    | some inner => exact (tidies_lift tidies_leave).bind fun _ _ _ _ => .pure trivial
    | none => exact .pure trivial
  | .jump kind label => by
    rw [lowerStmt]
    exact tidies_lowerJump.bind fun _ _ _ _ => .pure trivial
  | .define type clauses => by
    rw [lowerStmt]
    exact tidies_optionType.bind fun _ _ _ htype =>
      (tidies_lowerClauses htype).bind fun _ _ _ _ => .pure trivial
  | .loop kind label condition body => by
    rw [lowerStmt]
    refine .ite (fun _ => ?_) fun _ => ?_
    · refine (tidies_lift tidies_enter).bind fun test _ _ htest => ?_
      refine (tidies_lowerExpr test condition).bind fun tested _ hpres₁ htested => ?_
      refine (tidies_lift (tidies_lastRegister htested)).bind fun r _ hpres₂ _ => ?_
      refine (tidies_lift tidies_branch).bind fun ⟨inside, exit⟩ _ hpres₃ hsides => ?_
      have htest := htest.mono (hpres₁.trans (hpres₂.trans hpres₃))
      refine (tidies_pushLoop fun test' exit' heq => ?_).bind fun _ _ hpres₄ _ => ?_
      · obtain ⟨rfl, rfl⟩ : test = test' ∧ exit = exit' := by simpa using heq
        exact ⟨htest, hsides.2⟩
      refine (tidies_lowerScope frame inside body).bind fun bottom _ hpres₅ _ => ?_
      refine tidies_popLoop.bind fun _ _ hpres₆ _ => ?_
      have htest := htest.mono (hpres₄.trans (hpres₅.trans hpres₆))
      cases bottom with
      | none => exact .pure trivial
      | some c => exact (tidies_lift (tidies_jump htest)).bind fun _ _ _ _ => .pure trivial
    · refine (tidies_lift tidies_enter).bind fun inside _ _ hinside => ?_
      refine (tidies_pushLoop fun _ _ heq => by simp at heq).bind fun _ _ hpres₁ _ => ?_
      refine (tidies_lowerScope frame inside body).bind fun bottom _ hpres₂ _ => ?_
      refine tidies_popQueued.bind fun ⟨leaving, repeating⟩ _ hpres₃ _ => ?_
      exact tidies_closeLoop (hinside.mono (hpres₁.trans (hpres₂.trans hpres₃)))
  | .expr value => by
    rw [lowerStmt]
    exact (tidies_lowerExpr b value).bind fun _ _ _ _ => .pure trivial
  | .cond condition first second => by
    rw [lowerStmt]
    refine (tidies_lowerExpr b condition).bind fun c _ _ hc => ?_
    refine (tidies_lift (tidies_lastRegister hc)).bind fun r _ _ _ => ?_
    refine (tidies_lift tidies_branch).bind fun ⟨onTrue, onFalse⟩ _ _ _ => ?_
    refine (tidies_lowerArm frame onTrue first).bind fun o _ _ _ => ?_
    refine (tidies_lowerArm frame onFalse second).bind fun o' _ _ _ => ?_
    cases o <;> cases o'
    · exact .pure trivial
    · exact (tidies_lift tidies_leave).bind fun _ _ _ _ => .pure trivial
    · exact (tidies_lift tidies_leave).bind fun _ _ _ _ => .pure trivial
    · exact (tidies_lift tidies_converge).bind fun _ _ _ _ => .pure trivial
  | .ret value => by
    rw [lowerStmt]
    exact tidies_lowerReturn.bind fun _ _ _ _ => .pure trivial

theorem tidies_lowerArm {s : State} (frame : Option Frame) (b : BlockId) :
    (arm : Option Scope) → Tidies (lowerArm frame b arm) s fun _ _ => True
  | some body => by
    rw [lowerArm]
    exact tidies_lowerScope frame b body
  | none => by
    rw [lowerArm]
    exact .pure trivial

end

end BlockGraph.Lowering
