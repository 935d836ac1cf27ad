import BlockGraph.Proofs.Safety.Loops

namespace BlockGraph.Lowering

open Builder

variable {fs : List FunctionId} {cs : List ClassId} {X Y : List BlockId} {s s' : State}
  {b : BlockId} {σ : Shape} {βs : List Shape} {frame : Option Frame}

/-! Declarations. -/

structure Receives (s : State) (e : FunctionEntry) : Prop where
  shape : s.graph.Open e.entry ⟨some (.object e.returns), [], 0⟩
  returns : ∃ t, s.returnLayouts.get? t = some e.returns

theorem Receives.shift {e : FunctionEntry} (h : Receives s e) (hs : Shifts fs cs X s Y s')
    (he : e.entry ∉ X) : Receives s' e := by
  obtain ⟨t, ht⟩ := h.returns
  obtain ⟨E, N, hmoves, -⟩ := hs.moves
  exact ⟨h.shape.kept fun _ => hs.keeps he, t, hmoves.returns t _ ht⟩

theorem safe_declare {k : ClassDecl} : Safe (declare k) s fun _ s' => s'.loops = s.loops :=
  tidies_declare.guard fun _ => .of_run (a := ()) (runs_declare.2 rfl) rfl

theorem meets_defineParameters {t : Builder} (n : Nat) (ps : List Parameter)
    (hb : t.graph.Open b σ) :
    Meets Fault.Excused (defineParameters b n ps) t fun _ t' => t'.graph.Open b σ := by
  induction ps generalizing t n with
  | nil => exact .pure hb
  | cons p ps ih =>
    obtain ⟨type, name⟩ := p
    cases name with
    | none => exact ih (n + 1) hb
    | some name => exact (meets_define hb).bind fun _ _ _ hb => ih (n + 1) hb

theorem safe_declareFunction {f : FunctionDecl} :
    Safe (declareFunction f) s fun _ s' => s'.loops = s.loops ∧
      ∃ e, s'.functions[f.id.index]? = some e ∧ Receives s' e := by
  refine tidies_declareFunction.guard fun _ => ?_
  refine (meets_lowerType f.result).bind fun result s₁ hresult _ => ?_
  obtain ⟨l, u, hl⟩ := exists_runs_returnLayout s₁.toBuilder result
  refine .run_bind (Runs.lift_build_iff.2 ⟨u, hl, rfl⟩) ?_
  refine (meets_lowerTypes _).bind fun types s₂ htypes _ => ?_
  have hloops : s₂.loops = s.loops :=
    (settles_lowerTypes _ htypes).loops.trans (settles_lowerType _ hresult).loops
  have hreturns : s₂.returnLayouts.get? result = some l :=
    (settles_lowerTypes _ htypes).grows.returns _ _ (returnLayout_get? hl)
  let ps := f.parameters.zipWith (fun p t => Parameter.mk t (some p.name)) types
  let B : Block := { id := s₂.graph.nextId, parameters := ⟨.object l, none⟩ :: ps }
  have hB : (s₂.toBuilder.appendBlock B).graph.block? s₂.graph.nextId = some B := by
    rw [appendBlock_block?, if_pos rfl]
  have hB' := updateBlock_self hB (·.withLocals { returnSlot := some ⟨0⟩ })
  have hparams := meets_defineParameters 1 ps (σ := ⟨some (.object l), [], 0⟩)
    ⟨_, hB', rfl, .cons rfl .nil, by simp, rfl⟩
  refine .run_bind (Runs.lift_build_iff.2 ⟨_, runs_addBlock.2 ⟨rfl, rfl⟩, rfl⟩) ?_
  refine .run_bind (a := ()) (Runs.lift_build_iff.2 ⟨_, runs_setLocals.2 ⟨⟨B, hB⟩, rfl⟩, rfl⟩) ?_
  refine Meets.bind (P := fun _ s' => s'.loops = s₂.loops ∧
    s'.graph.Open s₂.graph.nextId ⟨some (.object l), [], 0⟩ ∧
    s'.returnLayouts.get? result = some l) ?_ ?_
  · exact hparams.lift_build fun _ t hrun h =>
      ⟨rfl, h, (stays_defineParameters hrun).returns _ _ hreturns⟩
  · rintro _ s₃ - ⟨hloops₃, hopen, hreturns₃⟩
    refine .run_bind (a := ()) (Runs.lift_build_iff.2 ⟨_, runs_tell.2 rfl, rfl⟩) ?_
    exact .of_run (a := ()) (Runs.modify_iff.2 rfl)
      ⟨hloops₃.trans hloops, ⟨f.name, s₂.graph.nextId, l⟩, by simp, hopen, result, hreturns₃⟩

theorem safe_declareFunctions {ds : List FunctionDecl} (hnodup : (ds.map (·.id)).Nodup) :
    Safe (ds.forM declareFunction) s fun _ s' => s'.loops = s.loops ∧
      ∀ d ∈ ds, ∃ e, s'.functions[d.id.index]? = some e ∧ Receives s' e := by
  induction ds generalizing s with
  | nil => exact .pure ⟨rfl, by simp⟩
  | cons d ds ih =>
    simp only [List.map_cons, List.nodup_cons] at hnodup
    refine safe_declareFunction.bind ?_
    rintro _ s₁ - ⟨hloops, e, he, hreceives⟩
    refine (ih hnodup.2).run_imp ?_
    rintro _ s₂ hrun - ⟨hloops₂, hrest⟩
    obtain ⟨es, hshift, -⟩ := shifts_declareFunctions hnodup.2 hrun
    refine ⟨hloops₂.trans hloops, fun d' hd' => ?_⟩
    rcases List.mem_cons.1 hd' with rfl | hd'
    · refine ⟨e, ?_, hreceives.shift hshift (by simp)⟩
      rw [hshift.functions _ fun f hf hi => hnodup.1 ?_, he]
      obtain rfl : f = d'.id := by cases f; cases hd : d'.id; simp_all
      exact hf
    · exact hrest d' hd'

theorem safe_defineFields {k : ClassDecl} :
    Safe (defineFields k) s fun _ s' => s'.loops = s.loops ∧ ∀ (n : Nat) (e : FunctionEntry),
      s.functions[n]? = some e → Receives s e → s'.functions[n]? = some e ∧ Receives s' e := by
  refine tidies_defineFields.guard fun hs => ?_
  refine (((tidies_lowerTypes _).guard fun _ => meets_lowerTypes _) hs).bind ?_
  rintro fields s₁ hrun ⟨hs₁, -, -⟩
  have hsettle := settles_lowerTypes _ hrun
  refine (safe_classLayout hs₁).bind ?_
  rintro l s₁ - ⟨-, -, rfl, hl⟩
  obtain ⟨L, hL, -⟩ := hs₁.classes _ l hl
  refine .of_run (a := ()) (Runs.lift_build_iff.2 ⟨_, runs_defineClass.2 ⟨⟨L, hL⟩, rfl⟩, rfl⟩)
    ⟨hsettle.loops, fun n e he hreceives => ?_⟩
  obtain ⟨hshape, hreturns⟩ := hreceives.shift hsettle.shifts (by simp)
  exact ⟨(hsettle.shifts.functions n (by simp)).trans he, hshape, hreturns⟩

theorem safe_hoist {α : Type} {classes : List ClassDecl} {functions : List FunctionDecl}
    {x : LowerM α} {Q : α → State → Prop} (hnodup : (functions.map (·.id)).Nodup)
    (hx : ∀ s' es, s.graph.Preserves s'.graph →
      Shifts (functions.map (·.id)) (classes.map (·.id)) [] s (es.map (·.entry)) s' →
      s'.loops = s.loops →
      List.Forall₂ (fun d e => s'.functions[d.id.index]? = some e) functions es →
      (∀ e ∈ es, Receives s' e) → Safe x s' Q) :
    Safe (do
      classes.forM declare
      functions.forM declareFunction
      classes.forM defineFields
      x) s Q := by
  have hclasses : Safe (classes.forM declare) s fun _ s' => s'.loops = s.loops :=
    .forM rfl fun _ _ t ht => safe_declare.imp fun _ _ _ ht' => ht'.trans ht
  refine hclasses.run_bind fun _ s₁ hrun₁ hpres₁ hloops₁ => ?_
  refine (safe_declareFunctions hnodup).run_bind fun _ s₂ hrun₂ hpres₂ ⟨hloops₂, hentries⟩ => ?_
  have hfields : Safe (classes.forM defineFields) s₂ fun _ s' => s'.loops = s₂.loops ∧
      ∀ d ∈ functions, ∃ e, s'.functions[d.id.index]? = some e ∧ Receives s' e := by
    refine .forM ⟨rfl, hentries⟩ fun _ _ t ⟨ht, hentries⟩ => safe_defineFields.imp ?_
    rintro _ t' - ⟨ht', hkeeps⟩
    refine ⟨ht'.trans ht, fun d hd => ?_⟩
    obtain ⟨e, he, hreceives⟩ := hentries d hd
    exact ⟨e, hkeeps _ e he hreceives⟩
  refine hfields.run_bind fun _ s₃ hrun₃ hpres₃ ⟨hloops₃, hentries⟩ => ?_
  obtain ⟨es, hshift, hes⟩ := shifts_hoist hnodup hrun₁ hrun₂ hrun₃
  refine hx s₃ es (hpres₁.trans (hpres₂.trans hpres₃)) hshift
    (hloops₃.trans (hloops₂.trans hloops₁)) hes fun e he => ?_
  obtain ⟨d, hd, hde⟩ := forall₂_mem_right hes he
  obtain ⟨e', he', hreceives⟩ := hentries d hd
  exact Option.some.inj (he'.symm.trans hde) ▸ hreceives

/-! Branches. -/

theorem Stands.branch {α : Type} (h : Stands frame βs s b σ) {condition : Expr}
    {f : BlockId → BlockId × BlockId → LowerM α} {Q : α → State → Prop}
    (hf : ∀ c onTrue onFalse s' τ, Rebuilds [b] s [onTrue, onFalse] s' →
      s.graph.Preserves s'.graph → σ.Le τ → Stands frame βs s' onTrue τ →
      Stands frame βs s' onFalse τ → s'.graph.IsTarget onFalse → s'.graph.Accepts onFalse τ →
      s'.graph.Shaped c τ → [c, onTrue, onFalse].Nodup → Safe (f c (onTrue, onFalse)) s' Q) :
    Safe (do
      let c ← lowerExpr b condition
      let r ← (lastRegister c : BuildM _)
      let p ← (Builder.branch c r : BuildM _)
      f c p) s Q := by
  refine (safe_lowerExpr h.shape condition).run_bind ?_
  rintro c s₁ hrun₁ hpres₁ ⟨hc, hv⟩
  refine (safe_look (safe_lastRegister hc hv)).run_bind ?_
  rintro r s' hlast - ⟨rfl, -⟩
  refine (tidies_lift (safe_branch hc)).run_bind ?_
  rintro ⟨onTrue, onFalse⟩ s₂ hbranch hpres₂ ⟨hnodup, htarget, τ, hle, htrue, hfalse, hacc, hshaped⟩
  have hs : Rebuilds [b] s [onTrue, onFalse] s₂ := by
    obtain ⟨t, ht, hst⟩ := Runs.lift_build_iff.1 hlast
    obtain ⟨t', ht', rfl⟩ := Runs.lift_build_iff.1 hbranch
    obtain rfl : s'.toBuilder = t := congrArg State.toBuilder hst
    exact (leads_lowerExpr b condition hrun₁).trans (rebuilds_branch ht ht')
  have hpres := hpres₁.trans hpres₂
  exact hf c onTrue onFalse _ τ hs hpres hle (h.move hs hpres htrue hle)
    (h.move (hs.perm .rfl (List.Perm.swap ..)) hpres hfalse hle) htarget hacc hshaped hnodup

theorem safe_rejoin {c : BlockId} {bs : List BlockId} (hloops : LoopsShaped s.graph s.loops βs)
    (hapart : Apart s bs) (hc : s.graph.Shaped c σ) (hbs : ∀ q ∈ bs, s.graph.Open q σ)
    (hne : bs ≠ []) :
    Safe (liftM (converge c bs) : LowerM BlockId) s fun d s' => Ends βs σ s' (some d) := by
  have hnodup : bs.Nodup := (List.nodup_append.1 hapart.nodup).1
  refine (tidies_lift (safe_converge (n := 0) hc hne hnodup (by simpa using hbs))).run_imp ?_
  rintro d s' hrun hpres ⟨-, -, hd, -⟩
  exact ⟨hloops.rebuild hapart (.of_lift hrun moves_converge) hpres, by simpa using hd⟩

theorem Ends.le {τ : Shape} {o : Option BlockId} (h : Ends βs τ s o) (hle : σ.Le τ) : Ends βs σ s o :=
  ⟨h.loops, fun c hc => (h.shape c hc).le hle⟩

theorem safe_cond {condition : Expr} {first second : Option Scope}
    (hnodup : (functionIds (armScopes first ++ armScopes second)).Nodup)
    (h : Stands frame βs s b σ)
    (hfirst : ∀ {s₁ c τ}, Stands frame βs s₁ c τ →
      Safe (lowerArm frame c first) s₁ fun o s₂ => Ends βs τ s₂ o)
    (hsecond : ∀ {s₁ c τ}, Stands frame βs s₁ c τ →
      Safe (lowerArm frame c second) s₁ fun o s₂ => Ends βs τ s₂ o) :
    Safe (lowerStmt frame b (.cond condition first second)) s fun o s' => Ends βs σ s' o := by
  rw [functionIds_append] at hnodup
  obtain ⟨hleft, hright, -⟩ := List.nodup_append.1 hnodup
  rw [lowerStmt]
  refine h.branch fun c onTrue onFalse s₁ τ hs _ hle htrue hfalse _ _ hshaped hne => ?_
  have hapart : Apart s₁ ([onTrue] ++ [onFalse]) := Apart.after (Z := []) h.apart hs.shifts
  obtain ⟨hctrue, hcfalse⟩ : c ∉ [onTrue] ∧ c ∉ [onFalse] := by
    simpa [not_or] using (List.nodup_cons.1 hne).1
  refine (hfirst htrue).run_bind ?_
  rintro o s₂ hrun _ hends
  have hshift := shifts_lowerArm first hleft hrun
  have hapart₂ : Apart s₂ ([onFalse] ++ o.toList) :=
    (hapart.after hshift).perm List.perm_append_comm
  refine (hsecond (hfalse.beside hapart hshift hends.loops)).run_bind ?_
  rintro o' s₃ hrun' _ hends'
  have hshift' := shifts_lowerArm second hright hrun'
  have hapart₃ : Apart s₃ (o.toList ++ o'.toList) :=
    (hapart₂.after hshift').perm List.perm_append_comm
  have hshaped₃ := (hshaped.kept fun _ => hshift.keeps hctrue).kept fun _ => hshift'.keeps hcfalse
  have hopen : ∀ q ∈ o.toList ++ o'.toList, s₃.graph.Open q τ := by
    intro q hq
    rcases List.mem_append.1 hq with hq | hq
    · refine (hends.shape q (Option.mem_toList.1 hq)).kept fun _ => hshift'.keeps fun hmem => ?_
      exact (List.nodup_append.1 (List.nodup_append.1 hapart₂.nodup).1).2.2 q hmem q hq rfl
    · exact hends'.shape q (Option.mem_toList.1 hq)
  have hjoin := safe_rejoin hends'.loops hapart₃ hshaped₃ hopen
  cases o with
  | none =>
    cases o' with
    | none => exact .pure ⟨hends'.loops, by simp⟩
    | some inner =>
      dsimp only
      rw [leave_eq]
      exact (hjoin (by simp)).bind fun _ _ _ hend => .pure (hend.le hle)
  | some inner =>
    cases o' with
    | none =>
      dsimp only
      rw [leave_eq]
      exact (hjoin (by simp)).bind fun _ _ _ hend => .pure (hend.le hle)
    | some inner' => exact (hjoin (by simp)).bind fun _ _ _ hend => .pure (hend.le hle)

/-! Loops. -/

section Loops

variable {kind : LoopKind} {label : Option String} {condition : Expr} {body : Scope}

theorem safe_testedLoop (hnodup : (functionIds body.scopes).Nodup) (h : Stands frame βs s b σ)
    (hkind : (kind = .testFirst && !condition.isTrue) = true)
    (hbody : ∀ {s₁ c τ βs}, Stands frame βs s₁ c τ →
      Safe (lowerScope frame c body) s₁ fun o s₂ => Ends βs τ s₂ o) :
    Safe (lowerStmt frame b (.loop kind label condition body)) s fun o s' => Ends βs σ s' o := by
  rw [lowerStmt, if_pos hkind]
  refine (tidies_lift (safe_enter h.shape)).run_bind ?_
  rintro test s₁ henter hpres₁ ⟨-, htest, τ, hle, hopen, hacc, -⟩
  have hstand := h.move (.of_lift henter moves_enter) hpres₁ hopen hle
  refine hstand.branch fun c inside exit s₂ τ' hs hpres₂ hle' hinside hexit hexit' haccexit _ _ => ?_
  have hapart : Apart s₂ ([inside] ++ [exit]) := Apart.after (Z := []) hstand.apart hs.shifts
  have htest₂ := htest.mono hpres₂
  have hacc₂ := (hacc.mono hpres₂).le hle'
  have hloop : LoopShaped s₂.graph ⟨label, .known test exit⟩ τ' := by
    refine ⟨fun test' exit' heq => ?_, by simp [LoopTargets.waiting]⟩
    obtain ⟨rfl, rfl⟩ : test = test' ∧ exit = exit' := by simpa using heq
    exact ⟨hacc₂, haccexit⟩
  refine (tidies_pushLoop fun test' exit' heq => ?_).bind ?_
  · obtain ⟨rfl, rfl⟩ : test = test' ∧ exit = exit' := by simpa using heq
    exact ⟨htest₂, hexit'⟩
  rintro _ _ - rfl
  refine (hbody (hinside.pushLoop hloop rfl)).run_bind ?_
  rintro bottom s₃ hrun hpres₃ hends
  have hshift := shifts_lowerScope body hnodup hrun
  obtain ⟨f, ls, -, -, hloops⟩ := List.forall₂_cons_left_iff.1 hshift.loops
  have hshaped := hends.loops
  rw [hloops] at hshaped
  obtain ⟨-, hshaped⟩ := List.forall₂_cons.1 hshaped
  -- the blocks at the bottom and at the exit of the loop are apart
  have hapart₃ : Apart { s₃ with loops := ls } (bottom.toList ++ [exit]) :=
    (((hapart.push rfl).after hshift).pop hloops).left
  have hexit₃ : s₃.graph.Open exit σ :=
    (hexit.shape.kept fun _ => hshift.keeps hapart.apart_last).le (hle.trans hle')
  refine tidies_popLoop.bind ?_
  rintro _ _ - rfl
  rw [hloops, List.tail_cons]
  cases bottom with
  | none => exact .pure ⟨hshaped, by simpa using hexit₃⟩
  | some q =>
    refine (tidies_lift (s := { s₃ with loops := ls }) (safe_jump (hends.shape q rfl)
      (hacc₂.mono hpres₃) (htest₂.mono hpres₃))).run_bind ?_
    rintro _ s₄ hjump hpres₄ -
    have hjump : Rebuilds [q] { s₃ with loops := ls } [] s₄ :=
      .of_lift hjump fun hrun => (moves_jump hrun).1
    refine .pure ⟨LoopsShaped.rebuild hshaped hapart₃.left hjump hpres₄, ?_⟩
    simpa using hexit₃.kept fun _ => hjump.keeps hapart₃.apart_last

theorem safe_queuedLoop (hnodup : (functionIds body.scopes).Nodup) (h : Stands frame βs s b σ)
    (hkind : ¬(kind = .testFirst && !condition.isTrue) = true)
    (hbody : ∀ {s₁ c τ βs}, Stands frame βs s₁ c τ →
      Safe (lowerScope frame c body) s₁ fun o s₂ => Ends βs τ s₂ o) :
    Safe (lowerStmt frame b (.loop kind label condition body)) s fun o s' => Ends βs σ s' o := by
  rw [lowerStmt, if_neg hkind]
  refine (tidies_lift (safe_enter h.shape)).run_bind ?_
  rintro inside s₁ henter hpres₁ ⟨hne, htarget, τ, hle, hopen, hacc, hshaped⟩
  have hstand := h.move (.of_lift henter moves_enter) hpres₁ hopen hle
  have hloop : LoopShaped s₁.graph ⟨label, .queued [] []⟩ τ :=
    ⟨by simp, by simp [LoopTargets.waiting]⟩
  refine (tidies_pushLoop (by simp)).bind ?_
  rintro _ _ - rfl
  have hpushed := hstand.pushLoop hloop rfl
  refine (hbody hpushed).run_bind ?_
  rintro bottom s₂ hrun hpres₂ hends
  have hshift := shifts_lowerScope body hnodup hrun
  obtain ⟨f, ls, hf, -, hloops⟩ := List.forall₂_cons_left_iff.1 hshift.loops
  obtain ⟨_, leaving, repeating, rfl⟩ : ∃ label leaving repeating,
      f = ⟨label, .queued leaving repeating⟩ := by
    obtain ⟨-, htargets⟩ := hf
    obtain ⟨label, targets⟩ := f
    cases htargets with
    | queued => exact ⟨_, _, _, rfl⟩
  have hall := hends.loops
  rw [hloops] at hall
  obtain ⟨hqueued, hrest⟩ := List.forall₂_cons.1 hall
  have hapart : Apart { s₂ with loops := ls } (leaving ++ (repeating ++ bottom.toList)) := by
    rw [← List.append_assoc]
    exact ((Apart.after (Z := []) hpushed.apart hshift).left.pop hloops).perm List.perm_append_comm
  have hpop : Safe popQueued s₂ fun q s' =>
      q = (leaving, repeating) ∧ s' = { s₂ with loops := ls } :=
    tidies_popQueued.guard fun _ => .of_run (runs_popQueued.2 ⟨_, ls, hloops, rfl⟩) ⟨rfl, rfl⟩
  refine hpop.bind ?_
  rintro _ _ - ⟨rfl, rfl⟩
  have hwaiting : ∀ q ∈ leaving ++ (repeating ++ bottom.toList), s₂.graph.Open q τ := by
    intro q hq
    rw [← List.append_assoc] at hq
    rcases List.mem_append.1 hq with hq | hq
    · exact hqueued.waiting q hq
    · exact hends.shape q (Option.mem_toList.1 hq)
  refine (safe_closeLoop (s := { s₂ with loops := ls })
    (hshaped.kept fun _ => hshift.keeps (by simpa using hne.symm)) (htarget.mono hpres₂)
    (hacc.mono hpres₂) (List.nodup_append.1 hapart.nodup).1
    (fun q hq => hwaiting q (List.mem_append_left _ hq))
    fun q hq => hwaiting q (List.mem_append_right _ hq)).run_imp ?_
  rintro o s₃ hclose hpres₃ ho
  exact ⟨LoopsShaped.rebuild hrest hapart (rebuilds_closeLoop hclose) hpres₃,
    fun c hc => (ho c hc).le hle⟩

end Loops

/-! Scopes. -/

mutual

theorem safe_lowerScope {frame : Option Frame} {βs : List Shape} {s : State} {b : BlockId}
    {σ : Shape} :
    (S : Scope) → (functionIds S.scopes).Nodup → Stands frame βs s b σ →
      Safe (lowerScope frame b S) s fun o s' => Ends βs σ s' o
  | ⟨classes, functions, statements⟩, hnodup, h => by
    simp only [Scope.scopes, functionIds_cons, functionIds_append] at hnodup
    obtain ⟨hids, hinner, hdisjoint⟩ := List.nodup_append.1 hnodup
    obtain ⟨hfs, hss, -⟩ := List.nodup_append.1 hinner
    have hids' : (functions.map (·.id) ++ functionIds (functionScopes functions)).Nodup :=
      List.nodup_append.2 ⟨hids, hfs, fun f hf f' hf' =>
        hdisjoint f hf f' (List.mem_append_left _ hf')⟩
    rw [lowerScope]
    refine safe_hoist hids fun s₁ es hpres hhoist hloops hes hreceive => ?_
    have hapart : Apart s₁ (es.map (·.entry) ++ [b]) := Apart.after (X := []) h.apart hhoist
    have h₁ : Stands frame βs s₁ b σ := h.beside (X := []) h.apart hhoist
      (hloops ▸ h.loops.mono hpres fun _ _ _ => hhoist.keeps (by simp))
    refine (safe_lowerFunctions functions hids' h₁.returning hes hreceive hapart.left).run_bind
      ?_
    rintro _ s₂ hrun hpres₂ hloops₂
    have hshift := shifts_lowerFunctions functions hids' hes hrun
    exact safe_lowerStmts statements hss (h₁.beside hapart hshift
      (hloops₂ ▸ h₁.loops.mono hpres₂ fun q hq _ => hshift.keeps (hapart.left.notMem hq)))

theorem safe_lowerFunctions {s : State} {es : List FunctionEntry} :
    (ds : List FunctionDecl) → (ds.map (·.id) ++ functionIds (functionScopes ds)).Nodup →
      s.toBuilder.Returning →
      List.Forall₂ (fun d e => s.functions[d.id.index]? = some e) ds es →
      (∀ e ∈ es, Receives s e) → Apart s (es.map (·.entry)) →
      Safe (lowerFunctions ds) s fun _ s' => s'.loops = s.loops
  | [], _, _, _, _, _ => by
    rw [lowerFunctions]
    exact .pure rfl
  | d :: ds, hnodup, hreturning, hes, hreceive, hapart => by
    cases hes with
    | @cons _ e _ es he hes =>
      simp only [functionScopes, functionIds_append] at hnodup
      simp only [List.map_cons, List.cons_append, List.nodup_cons, List.nodup_append,
        List.mem_append] at hnodup
      have hapart : Apart s ([e.entry] ++ es.map (·.entry)) := hapart
      rw [lowerFunctions]
      refine (safe_lowerFunction d (by grind) hreturning he (hreceive e (by simp))
        hapart.left).run_bind ?_
      rintro _ s₁ hrun - hloops
      have hshift := shifts_lowerFunction d (by grind) he hrun
      have hes₁ := hshift.entries (fun d' hd' hf =>
        hnodup.2.2.2 _ (List.mem_map_of_mem hd') _ (.inl hf) rfl) hes
      have hreceive₁ : ∀ e' ∈ es, Receives s₁ e' := by
        refine fun e' he' => (hreceive e' (by simp [he'])).shift hshift fun hmem => ?_
        have hdisjoint := (List.nodup_append.1 (List.nodup_append.1 hapart.nodup).1).2.2
        exact hdisjoint _ hmem _ (List.mem_map_of_mem he') rfl
      refine (safe_lowerFunctions ds (by grind) (hshift.returning hreturning) hes₁ hreceive₁
        (hapart.after hshift)).imp ?_
      rintro _ s₂ - hloops₂
      exact hloops₂.trans hloops

theorem safe_lowerFunction {s : State} {e : FunctionEntry} :
    (d : FunctionDecl) → (functionIds d.scopes).Nodup → s.toBuilder.Returning →
      s.functions[d.id.index]? = some e → Receives s e → Apart s [e.entry] →
      Safe (lowerFunction d) s fun _ s' => s'.loops = s.loops
  | ⟨id, name, result, parameters, body⟩, hnodup, hreturning, he, hreceives, hapart => by
    rw [FunctionDecl.scopes] at hnodup
    refine (tidies_lowerFunction _).guard fun hs => ?_
    rw [lowerFunction]
    refine .run_bind (runs_functionEntry.2 ⟨he, rfl⟩) ?_
    refine (safe_lowerType result hs).bind ?_
    rintro type s₁ hrun ⟨hs₁, -, -, -⟩
    have hsettle := settles_lowerType result hrun
    refine .run_bind (Runs.get_iff.2 ⟨rfl, rfl⟩) ?_
    dsimp only
    refine .run_bind (a := ()) (Runs.modify_iff.2 rfl) ?_
    obtain ⟨hshape, t, ht⟩ := hreceives.shift hsettle.shifts (by simp)
    have hapart₁ : Apart s₁ [e.entry] := Apart.after (X := []) hapart hsettle.shifts
    have h : Stands (some ⟨name, type⟩) [] { s₁ with loops := [] } e.entry _ :=
      { returning := hsettle.shifts.returning hreturning
        returns := fun _ => ⟨e.returns, t, rfl, ht⟩
        shape := hshape
        apart := by
          obtain ⟨R, hR⟩ := hapart₁
          exact ⟨waiting s₁.loops ++ R, by simpa [waiting] using hR⟩
        loops := .nil
        bases := by simp }
    refine (safe_lowerScope body hnodup h (hs₁.withLoops (by simp [LoopsTarget]))).bind ?_
    rintro o s₂ hbody ⟨hs₂, -, hends⟩
    have hrestore {s₃ : State} :
        Meets Fault.Excused (modify ({ · with loops := s₁.loops })) s₃ fun _ s' =>
          s'.loops = s.loops :=
      .of_run (a := ⟨⟩) (Runs.modify_iff.2 rfl) hsettle.loops
    cases o with
    | none => exact hrestore
    | some c =>
      have h₂ := h.next (shifts_lowerScope body hnodup hbody) hends
      dsimp only
      split
      · exact (safe_lowerReturn h₂ hs₂).bind fun _ _ _ _ => hrestore
      · exact .throw rfl

theorem safe_lowerStmts {frame : Option Frame} {βs : List Shape} {s : State} {b : BlockId}
    {σ : Shape} :
    (ss : List Stmt) → (functionIds (stmtScopes ss)).Nodup → Stands frame βs s b σ →
      Safe (lowerStmts frame b ss) s fun o s' => Ends βs σ s' o
  | [], _, h => by
    rw [lowerStmts]
    exact .pure ⟨h.loops, by simpa using h.shape⟩
  | S :: rest, hnodup, h => by
    simp only [stmtScopes, functionIds_append] at hnodup
    obtain ⟨hfirst, hsecond, -⟩ := List.nodup_append.1 hnodup
    rw [lowerStmts]
    refine (safe_lowerStmt S hfirst h).run_bind ?_
    rintro o s₁ hrun _ hends
    cases o with
    | some c => exact safe_lowerStmts rest hsecond (h.next (shifts_lowerStmt S hfirst hrun) hends)
    | none =>
      refine .ite (fun _ => ?_) fun _ => .pure hends
      refine (tidies_lift safe_report).run_bind ?_
      rintro _ s₂ hreport - hgraph
      obtain ⟨t, -, rfl⟩ := Runs.lift_build_iff.1 hreport
      refine .pure ⟨?_, by simp⟩
      have hgraph : t.graph = s₁.graph := hgraph
      rw [hgraph]
      exact hends.loops

theorem safe_lowerStmt {frame : Option Frame} {βs : List Shape} {s : State} {b : BlockId}
    {σ : Shape} :
    (S : Stmt) → (functionIds S.scopes).Nodup → Stands frame βs s b σ →
      Safe (lowerStmt frame b S) s fun o s' => Ends βs σ s' o
  | .scope body, hnodup, h => by
    rw [Stmt.scopes] at hnodup
    rw [lowerStmt]
    refine (tidies_lift (safe_enter h.shape)).run_bind ?_
    rintro c s₁ henter hpres ⟨hne, -, τ, hle, hopen, -, hshaped⟩
    have hstand := h.move (.of_lift henter moves_enter) hpres hopen hle
    refine (safe_lowerScope body hnodup hstand).run_bind ?_
    rintro o s₂ hrun _ hends
    have hshift := shifts_lowerScope body hnodup hrun
    cases o with
    | none => exact .pure (hends.le hle)
    | some inner =>
      dsimp only
      rw [leave_eq]
      refine (safe_rejoin hends.loops (Apart.after (Z := []) hstand.apart hshift).left
        (hshaped.kept fun _ => hshift.keeps (by simpa using hne.symm)) ?_ (by simp)).bind
          fun _ _ _ hend => .pure (hend.le hle)
      simpa using hends.shape inner rfl
  | .jump kind label, _, h => by
    rw [lowerStmt]
    exact (safe_lowerJump h).bind fun _ _ _ hends => .pure hends
  | .define type clauses, _, h => by
    rw [lowerStmt]
    refine safe_optionType.run_bind ?_
    rintro lowered s₁ hrun hpres₁ ⟨htype, hkeeps⟩
    have hsettle : Rebuilds [b] s [b] s₁ := by
      cases type with
      | none =>
        obtain ⟨-, rfl⟩ := Runs.pure_iff.1 hrun
        exact .refl _ _
      | some t =>
        obtain ⟨_, hrun, -⟩ := Runs.map_iff.1 hrun
        exact (settles_lowerType t hrun).frame [b]
    refine (safe_lowerClauses (h.shape.kept (hkeeps b)) htype).run_bind ?_
    rintro c s₂ hrun₂ hpres₂ hc
    exact .pure (h.ends (hsettle.trans (leads_lowerClauses hrun₂)) (hpres₁.trans hpres₂)
      (by simpa using hc))
  | .loop kind label condition body, hnodup, h => by
    rw [Stmt.scopes] at hnodup
    by_cases hkind : (kind = .testFirst && !condition.isTrue) = true
    · exact safe_testedLoop hnodup h hkind (safe_lowerScope body hnodup)
    · exact safe_queuedLoop hnodup h hkind (safe_lowerScope body hnodup)
  | .expr value, _, h => by
    rw [lowerStmt]
    refine (safe_lowerExpr h.shape value).run_bind ?_
    rintro c s₁ hrun hpres ⟨hc, -⟩
    exact .pure (h.ends (leads_lowerExpr b value hrun) hpres (by simpa using hc))
  | .cond condition first second, hnodup, h => by
    rw [Stmt.scopes] at hnodup
    have harms := hnodup
    rw [functionIds_append] at harms
    obtain ⟨hleft, hright, -⟩ := List.nodup_append.1 harms
    exact safe_cond hnodup h (safe_lowerArm first hleft) (safe_lowerArm second hright)
  | .ret value, _, h => by
    rw [lowerStmt]
    exact (safe_lowerReturn h).bind fun _ _ _ hends => .pure hends

theorem safe_lowerArm {frame : Option Frame} {βs : List Shape} {s : State} {b : BlockId}
    {σ : Shape} :
    (S : Option Scope) → (functionIds (armScopes S)).Nodup → Stands frame βs s b σ →
      Safe (lowerArm frame b S) s fun o s' => Ends βs σ s' o
  | some body, hnodup, h => by
    rw [lowerArm]
    exact safe_lowerScope body hnodup h
  | none, _, h => by
    rw [lowerArm]
    exact .pure ⟨h.loops, by simpa using h.shape⟩

end

end BlockGraph.Lowering
