import BlockGraph.Proofs.Totality.Statements

namespace BlockGraph.Lowering

open Builder Analysis

section Joins

variable {D : Declared} {ks ks' : List Loop} {s s' : State} {slot : Option ValueType} {b c : BlockId}
  {Γ : Context}

theorem succeeds_leave {Q : BlockId → State → Prop}
    (h : Succeeds (liftM (converge b [c]) : LowerM BlockId) s Q) :
    Succeeds (liftM (leave b c) : LowerM BlockId) s Q := by
  obtain ⟨d, s', hrun, hQ⟩ := h
  obtain ⟨t, hconverge, rfl⟩ := Runs.lift_build_iff.1 hrun
  exact ⟨d, _, Runs.lift_build_iff.2 ⟨t, runs_leave.2 hconverge, rfl⟩, hQ⟩

theorem succeeds_rejoin (hknows : Knows D s) (hheap : s.graph.HeapTyped)
    (hloops : LoopsFit s slot s.loops ks') (hbases : ks'.map (·.base) = ks.map (·.base))
    {bs : List BlockId} (hapart : Apart s bs) (hcontext : s.graph.Holds (lowered? s) b Γ [] slot)
    {Δs : List Context} (hbs : Waits s slot Γ bs Δs) (hne : bs ≠ []) :
    Succeeds (liftM (converge b bs) : LowerM BlockId) s fun c s' =>
      Leaves slot ks Γ s' (some c) (exitContext Γ Δs) ks' := by
  have hnodup : bs.Nodup := (List.nodup_append.1 hapart.nodup).1
  refine (hknows.converge rfl hcontext hnodup hbs hne).imp ?_
  rintro c s' hrun ⟨h, -⟩
  have hexit : exitContext Γ Δs = some (Γ.meet Δs) := by
    cases hbs with
    | nil => exact absurd rfl hne
    | cons => rfl
  rw [hexit]
  exact ⟨h.grows.heap hheap, hloops.rebuild hapart (.of_lift hrun moves_converge), hbases,
    .past h.ready.fits (Context.le_meet hbs.le)⟩

end Joins

section Branches

variable {A : Around} {ks ks' ks'' : List Loop} {s : State} {b : BlockId} {Γ Γ' : Context}
  {Δ Θ : Option Context}

theorem Standing.exists_branch (h : Standing A ks s b Γ) {condition : Expr}
    (hcond : checkCondition A.declared Γ condition = some Γ') :
    ∃ c s₁ r onTrue onFalse s₂, Runs (lowerExpr b condition) s c s₁ ∧
      Runs (liftM (lastRegister c) : LowerM Register) s₁ r s₁ ∧
      Runs (liftM (branch c r) : LowerM (BlockId × BlockId)) s₁ (onTrue, onFalse) s₂ ∧
      Rebuilds [b] s [onTrue, onFalse] s₂ ∧ Standing A ks s₂ onTrue Γ' ∧
      Standing A ks s₂ onFalse Γ' ∧ s₂.graph.Expects (lowered? s₂) onFalse Γ' [] A.slot ∧
      s₂.graph.Holds (lowered? s₂) c Γ' [] A.slot ∧ onTrue ≠ c ∧ onFalse ≠ c := by
  obtain ⟨hbool, hexpr⟩ := checkCondition_eq_some.1 hcond
  have hle := checkExpr_le condition hexpr
  obtain ⟨c, s₁, hlower, h₁, hyields⟩ := succeeds_lowerExpr condition h.ready hexpr
  rw [hbool] at hyields
  obtain ⟨_, -, hlast⟩ := hyields rfl
  obtain ⟨r, _, hrun, rfl, hr⟩ := Ready.lastRegister hlast
  obtain ⟨⟨onTrue, onFalse⟩, s₂, hbranch, ⟨hne, hne', -⟩, hcontext, h₂, h₂', hexit⟩ :=
    h₁.ready.branch hr
  obtain ⟨B, hB, htype⟩ := hr
  have hs := (leads_lowerExpr b condition hlower).trans
    (.of_lift hbranch fun hrun => moves_branch hrun hB (Block.contains_of_typeOf? htype))
  exact ⟨c, _, r, onTrue, onFalse, _, hlower, hrun, hbranch, hs,
    h.move hs (.trans h₁.grows h₂) hle,
    h.move (hs.perm .rfl (List.Perm.swap ..)) (.trans h₁.grows h₂') hle, hexit, hcontext, hne, hne'⟩

theorem succeeds_cond (h : Standing A ks s b Γ) {condition : Expr} {first second : Option Scope}
    (hfresh : Fresh (armScopes first ++ armScopes second) s)
    (hcond : checkCondition A.declared Γ condition = some Γ')
    (hfirst : ∀ {s₁ c}, Standing A ks s₁ c Γ' → Fresh (armScopes first) s₁ →
      Succeeds (lowerArm A.frame c first) s₁ fun o s₂ => Leaves A.slot ks Γ' s₂ o Δ ks')
    (hsecond : ∀ {s₁ c}, Standing A ks' s₁ c Γ' → Fresh (armScopes second) s₁ →
      Succeeds (lowerArm A.frame c second) s₁ fun o s₂ => Leaves A.slot ks' Γ' s₂ o Θ ks'') :
    Succeeds (lowerStmt A.frame b (.cond condition first second)) s fun o s' =>
      Leaves A.slot ks Γ s' o (exitContext Γ' (Δ.toList ++ Θ.toList)) ks'' := by
  have hle := checkExpr_le condition (checkCondition_eq_some.1 hcond).2
  obtain ⟨c, s₁, r, onTrue, onFalse, s₂, hlower, hlast, hbranch, hs, htrue, hfalse, -, hcontext, hne,
    hne'⟩ := h.exists_branch hcond
  have hapart : Apart s₂ ([onTrue] ++ [onFalse]) := Apart.after (Z := []) h.apart hs.shifts
  have hfresh₂ := hfresh.shift hs.shifts
  rw [lowerStmt]
  refine Succeeds.run_bind hlower (Succeeds.run_bind hlast (Succeeds.run_bind hbranch ?_))
  refine (hfirst htrue hfresh₂.left).bind ?_
  rintro o s₃ hrun hleaves
  have hshift := shifts_lowerArm first hfresh₂.left.functions hrun
  have hgrow := hshift.grows hfresh₂.left.unknown
  have hapart₃ : Apart s₃ ([onFalse] ++ o.toList) :=
    (hapart.after hshift).perm List.perm_append_comm
  have hstand := hfalse.beside hapart hshift hfresh₂.left.unknown hleaves.heap hleaves.loops
    hleaves.bases
  have hfresh₃ := hfresh₂.right hshift
  refine (hsecond hstand hfresh₃).bind ?_
  rintro o' s₄ hrun' hleaves'
  have hshift' := shifts_lowerArm second hfresh₃.functions hrun'
  have hgrow' := hshift'.grows hfresh₃.unknown
  have hapart₄ : Apart s₄ (o.toList ++ o'.toList) :=
    (hapart₃.after hshift').perm List.perm_append_comm
  have hkeep : ∀ q ∈ o.toList, ∀ B, s₃.graph.block? q = some B → s₄.graph.block? q = some B :=
    fun q hq B => hshift'.keeps fun hmem =>
      (List.nodup_append.1 (List.nodup_append.1 hapart₃.nodup).1).2.2 q hmem q hq rfl
  have hwaits : Waits s₄ A.slot Γ' (o.toList ++ o'.toList) (Δ.toList ++ Θ.toList) :=
    List.rel_append (hleaves.continues.waits.mono hgrow' hkeep) hleaves'.continues.waits
  have hcontext₄ : s₄.graph.Holds (lowered? s₄) c Γ' [] A.slot :=
    hcontext.mono (hgrow.trans hgrow').lowered? fun _ hB =>
      hshift'.keeps (by simpa using hne'.symm) (hshift.keeps (by simpa using hne.symm) hB)
  have hbases := hleaves'.bases.trans hleaves.bases
  have hjoin := fun hsome => (succeeds_rejoin (hstand.knows.mono hgrow') hleaves'.heap hleaves'.loops
    hbases hapart₄ hcontext₄ hwaits hsome).imp fun _ _ _ hend => hend.widen rfl hle
  cases hleaves.continues with
  | never =>
    cases hleaves'.continues with
    | never => exact .pure ⟨hleaves'.heap, hleaves'.loops, hbases, .never⟩
    | past => exact (succeeds_leave (hjoin (by simp))).bind fun _ _ _ hend => .pure hend
  | past =>
    cases hleaves'.continues with
    | never => exact (succeeds_leave (hjoin (by simp))).bind fun _ _ _ hend => .pure hend
    | past => exact (hjoin (by simp)).bind fun _ _ _ hend => .pure hend

end Branches

section Loops

variable {A : Around} {ks ks' : List Loop} {s : State} {b : BlockId} {Γ Γ' : Context}
  {Δ Θ : Option Context} {kind : LoopKind} {label : Option String} {condition : Expr} {body : Scope}

theorem succeeds_testedLoop (h : Standing A ks s b Γ) (hfresh : Fresh body.scopes s)
    (hkind : (kind = .testFirst && !condition.isTrue) = true)
    (hcond : checkCondition A.declared Γ condition = some Γ')
    (hbody : ∀ {s₁ c}, Standing A (⟨label, Γ', [], []⟩ :: ks) s₁ c Γ' → Fresh body.scopes s₁ →
      Succeeds (lowerScope A.frame c body) s₁ fun o s₂ =>
        Leaves A.slot (⟨label, Γ', [], []⟩ :: ks) Γ' s₂ o Θ ks') :
    Succeeds (lowerStmt A.frame b (.loop kind label condition body)) s fun o s' =>
      Leaves A.slot ks Γ s' o (some Γ') ks'.tail := by
  have hle := checkExpr_le condition (checkCondition_eq_some.1 hcond).2
  rw [lowerStmt, if_pos hkind]
  refine h.ready.enter.bind ?_
  rintro test s₁ henter ⟨-, -, h₁, htest⟩
  have hstart : Rebuilds [b] s [test] s₁ := .of_lift henter moves_enter
  have hstand := h.move hstart h₁ (.refl Γ)
  obtain ⟨tested, s₂, r, inside, exit, s₃, hlower, hlast, hbranch, hs, hinside, hout, hexit, -⟩ :=
    hstand.exists_branch hcond
  refine Succeeds.run_bind hlower (Succeeds.run_bind hlast (Succeeds.run_bind hbranch ?_))
  have hapart : Apart s₃ ([inside] ++ [exit]) := Apart.after (Z := []) hstand.apart hs.shifts
  have hloop : LoopFits s₃ A.slot ⟨label, .known test exit⟩ ⟨label, Γ', [], []⟩ :=
    .known (l := ⟨label, Γ', [], []⟩) (htest.mono hs.grows.lowered? hs.grows.graph) hle hexit
  -- no block ever waits for this loop
  have hpushed := hinside.pushLoop hloop rfl (.refl Γ')
  have hfresh' := (hfresh.shift (hstart.trans hs).shifts).withLoops
    (⟨label, .known test exit⟩ :: s₃.loops)
  refine Succeeds.run_bind (a := ()) (runs_pushLoop.2 rfl) ?_
  refine (hbody hpushed hfresh').bind ?_
  rintro bottom s₄ hrun hleaves
  have hshift := shifts_lowerScope body hfresh'.functions hrun
  have hgrow := (Grows.withLoops s₃ _).trans (hshift.grows hfresh'.unknown)
  obtain ⟨f, ls, -, -, hloops⟩ := List.forall₂_cons_left_iff.1 hshift.loops
  obtain ⟨hheap, hfits, hbases, hcontinues⟩ := hleaves
  rw [hloops] at hfits
  obtain ⟨k, ks', -, hfits', rfl⟩ := List.forall₂_cons_left_iff.1 hfits
  -- the blocks at the bottom and at the exit of the loop are apart
  have hapart₄ : Apart { s₄ with loops := ls } (bottom.toList ++ [exit]) :=
    (((hapart.push rfl).after hshift).pop hloops).left
  have hkeep : ∀ B, s₃.graph.block? exit = some B → s₄.graph.block? exit = some B := fun _ =>
    hshift.keeps (hapart.apart_last)
  have hgrow' := hgrow.trans (Grows.withLoops s₄ ls)
  have hexit₄ := hout.fits.mono hgrow'.lowered? hkeep
  have hfits₄ : LoopsFit { s₄ with loops := ls } A.slot ls ks' :=
    LoopsFit.mono hfits' (Grows.withLoops s₄ ls) fun _ _ _ hB => hB
  have hbases₄ : ks'.map (·.base) = ks.map (·.base) := (List.cons.inj hbases).2
  refine Succeeds.run_bind (a := ()) (runs_popLoop.2 rfl) ?_
  rw [hloops, List.tail_cons, List.tail_cons]
  cases hcontinues with
  | never =>
    refine Succeeds.run_bind (a := PUnit.unit) (Runs.pure_iff.2 ⟨rfl, rfl⟩) ?_
    exact .pure ⟨hheap, hfits₄, hbases₄, .past hexit₄ hle⟩
  | @past c Δ hbottom hle' =>
    have hready : Ready A.declared ls A.slot { s₄ with loops := ls } c Δ [] :=
      ⟨hinside.knows.mono hgrow', rfl, hbottom.mono (Grows.withLoops s₄ ls).lowered? fun _ hB => hB⟩
    have htest₄ := htest.mono (hs.grows.trans hgrow').lowered? (hs.grows.trans hgrow').graph
    refine (hready.jump htest₄ (hle.trans hle')).bind ?_
    rintro _ s₅ - ⟨hjump, hbuild⟩
    have hexit₅ := hexit₄.mono hbuild.lowered? fun _ => hjump.keeps hapart₄.apart_last
    exact .pure ⟨hbuild.heap hheap, hfits₄.rebuild hapart₄.left hjump, hbases₄, .past hexit₅ hle⟩

theorem succeeds_queuedLoop (h : Standing A ks s b Γ) (hfresh : Fresh body.scopes s)
    (hkind : ¬(kind = .testFirst && !condition.isTrue) = true) {k : Loop}
    (hbody : ∀ {s₁ c}, Standing A (⟨label, Γ, [], []⟩ :: ks) s₁ c Γ → Fresh body.scopes s₁ →
      Succeeds (lowerScope A.frame c body) s₁ fun o s₂ =>
        Leaves A.slot (⟨label, Γ, [], []⟩ :: ks) Γ s₂ o Θ (k :: ks'))
    (hend : checkLoopEnd A.declared Γ condition k.leaving (k.repeating ++ Θ.toList) = some Δ) :
    Succeeds (lowerStmt A.frame b (.loop kind label condition body)) s fun o s' =>
      Leaves A.slot ks Γ s' o Δ ks' := by
  rw [lowerStmt, if_neg hkind]
  refine h.ready.enter.bind ?_
  rintro inside s₁ henter ⟨hne, hcontext, h₁, hinside⟩
  have hstart : Rebuilds [b] s [inside] s₁ := .of_lift henter moves_enter
  have hstand := h.move hstart h₁ (.refl Γ)
  have hclosed := h.apart.closed hstart (by simpa using hne.symm)
  have hloop : LoopFits s₁ A.slot ⟨label, .queued [] []⟩ ⟨label, Γ, [], []⟩ :=
    .queued (l := ⟨label, Γ, [], []⟩) .nil .nil
  have hpushed := hstand.pushLoop hloop rfl (.refl Γ)
  have hfresh' := (hfresh.shift hstart.shifts).withLoops (⟨label, .queued [] []⟩ :: s₁.loops)
  refine Succeeds.run_bind (a := ()) (runs_pushLoop.2 rfl) ?_
  refine (hbody hpushed hfresh').bind ?_
  rintro bottom s₂ hrun hleaves
  have hshift := shifts_lowerScope body hfresh'.functions hrun
  have hgrow := (Grows.withLoops s₁ _).trans (hshift.grows hfresh'.unknown)
  obtain ⟨f, ls, hf, -, hloops⟩ := List.forall₂_cons_left_iff.1 hshift.loops
  obtain ⟨hheap, hfits, hbases, hcontinues⟩ := hleaves
  rw [hloops] at hfits
  obtain ⟨hloop, hfits'⟩ := List.forall₂_cons.1 hfits
  obtain ⟨rfl, hbases'⟩ := List.cons.inj hbases
  obtain ⟨_, leaving, repeating, hqueues⟩ : ∃ label leaving repeating,
      f = ⟨label, .queued leaving repeating⟩ := by
    obtain ⟨-, htargets⟩ := hf
    obtain ⟨label, targets⟩ := f
    cases htargets with
    | queued => exact ⟨_, _, _, rfl⟩
  subst hqueues
  have hwithout := Grows.withLoops s₂ ls
  have hgrow' := hgrow.trans hwithout
  have hapart : Apart { s₂ with loops := ls } (leaving ++ (repeating ++ bottom.toList)) := by
    rw [← List.append_assoc]
    exact ((Apart.after (Z := []) hpushed.apart hshift).left.pop hloops).perm List.perm_append_comm
  have hkeep : ∀ B, s₁.graph.block? b = some B → s₂.graph.block? b = some B := fun _ =>
    hshift.keeps (by simpa using hne.symm)
  have hclosed' : ¬s₂.graph.IsOpen b := by
    rintro ⟨B, hB, hopen⟩
    obtain ⟨C, hC, -⟩ := hcontext
    obtain rfl := Option.some.inj ((hkeep C hC).symm.trans hB)
    exact hclosed ⟨_, hC, hopen⟩
  cases hloop with
  | queued hleaving hrepeating =>
    have hwaits := (List.rel_append hrepeating hcontinues.waits)
    refine Succeeds.run_bind (a := (leaving, repeating)) (runs_popQueued.2 ⟨_, ls, hloops, rfl⟩) ?_
    refine (succeeds_closeLoop (hstand.knows.mono hgrow') (hcontext.mono hgrow'.lowered? hkeep) hclosed'
      (hinside.mono hgrow'.lowered? hgrow'.graph) (List.nodup_append.1 hapart.nodup).1
      (hleaving.mono hwithout fun _ _ _ hB => hB) (Waits.mono hwaits hwithout fun _ _ _ hB => hB)
      hend).imp ?_
    rintro o s₃ hclose ⟨hbuild, hcontinues'⟩
    have hfits'' := LoopsFit.mono hfits' hwithout fun _ _ _ hB => hB
    exact ⟨hbuild.heap hheap, LoopsFit.rebuild hfits'' hapart (rebuilds_closeLoop hclose), hbases',
      hcontinues'⟩

end Loops

mutual

theorem succeeds_lowerScope {A : Around} {ks ks' : List Loop} {s : State} {b : BlockId} {Γ : Context}
    {Δ : Option Context} :
    (S : Scope) → Standing A ks s b Γ → Fresh S.scopes s →
      checkScope A.declared A.result ks Γ S = some (Δ, ks') →
      Succeeds (lowerScope A.frame b S) s fun o s' => Leaves A.slot ks Γ s' o Δ ks'
  | ⟨classes, functions, statements⟩, h, hfresh, hcheck => by
    rw [checkScope] at hcheck
    simp only [↓guard_bind_eq_some, bind_eq_some, List.all_eq_true] at hcheck
    obtain ⟨hclasses, hfunctions, _, hbodies, hstmts⟩ := hcheck
    rw [Scope.scopes] at hfresh
    have hids := hfresh.functions
    simp only [functionIds_cons, functionIds_append, ← List.append_assoc] at hids
    have hnodup : (functions.map (·.id)).Nodup := hids.of_append_left.of_append_left
    have hnodup' : (classes.map (·.id)).Nodup := by
      have hids' := hfresh.classes
      simp only [classIds_cons] at hids'
      exact hids'.of_append_left
    have hnew : Unknown (functions.map (·.id)) (classes.map (·.id)) s :=
      hfresh.unknown.mono (by simp +contextual) (by simp +contextual)
    obtain ⟨s₁, s₂, s₃, hdeclare, hdeclare', hdefine, hloops, hbuild, hknows, hdeclared⟩ :=
      exists_hoist h.knows h.registered hclasses hfunctions hnodup hnodup' hnew
    obtain ⟨es, hhoist, hes⟩ := shifts_hoist hnodup hdeclare hdeclare' hdefine
    have hdeclares : List.Forall₂ (Declares s₃) functions es :=
      forall₂_imp_of_mem hes fun d hd e he => by
        obtain ⟨e', he'⟩ := hdeclared d hd
        exact Option.some.inj (he'.entry.symm.trans he) ▸ he'
    have hapart : Apart s₃ (es.map (·.entry) ++ [b]) := Apart.after (X := []) h.apart hhoist
    have hloops₃ : LoopsFit s₃ A.slot s₃.loops ks :=
      hloops ▸ LoopsFit.mono h.loops hbuild.toGrows fun _ _ _ => hhoist.keeps (by simp)
    let A' : Around := { A with declared := A.declared.enter classes functions }
    have h₃ : Standing A' ks s₃ b Γ :=
      { h.beside (X := []) h.apart hhoist hnew (hbuild.heap h.heap) hloops₃ rfl with knows := hknows }
    have hscopes : Fresh ([⟨classes, functions, statements⟩] ++
        (functionScopes functions ++ stmtScopes statements)) s := hfresh
    have hinner := hscopes.right (by simpa using hhoist)
    rw [lowerScope]
    refine Succeeds.run_bind hdeclare (Succeeds.run_bind hdeclare' (Succeeds.run_bind hdefine ?_))
    refine (succeeds_lowerFunctions functions hknows h₃.registered h₃.heap hdeclares hapart.left
      hinner.left hbodies).bind ?_
    rintro _ s₄ hrun ⟨hloops₄, hheap₄⟩
    have hshift := shifts_lowerFunctions functions hids.of_append_left hes hrun
    have hgrow := hshift.grows hinner.left.unknown
    have h₄ := h₃.beside hapart hshift hinner.left.unknown hheap₄
      (hloops₄ ▸ LoopsFit.mono h₃.loops hgrow fun q hq _ =>
        hshift.keeps (hapart.left.notMem hq)) rfl
    exact succeeds_lowerStmts (A := A') statements h₄ (hinner.right hshift) hstmts

theorem succeeds_lowerFunctions {D : Declared} {s : State} {es : List FunctionEntry} :
    (ds : List FunctionDecl) → Knows D s → s.Registered → s.graph.HeapTyped →
      List.Forall₂ (Declares s) ds es → Apart s (es.map (·.entry)) → Fresh (functionScopes ds) s →
      checkFunctions D ds = some () →
      Succeeds (lowerFunctions ds) s fun _ s' => s'.loops = s.loops ∧ s'.graph.HeapTyped
  | [], _, _, hheap, _, _, _, _ => by
    rw [lowerFunctions]
    exact .pure ⟨rfl, hheap⟩
  | d :: ds, hknows, hregistered, hheap, hes, hapart, hfresh, hcheck => by
    rw [checkFunctions] at hcheck
    simp only [bind_eq_some] at hcheck
    obtain ⟨_, hd, hds⟩ := hcheck
    rw [functionScopes] at hfresh
    cases hes with
    | @cons _ e _ es he hes =>
      have hapart : Apart s ([e.entry] ++ es.map (·.entry)) := hapart
      rw [lowerFunctions]
      refine (succeeds_lowerFunction d hknows hregistered hheap he hapart.left hfresh.left hd).bind ?_
      rintro _ s₁ hrun ⟨hloops, hheap₁⟩
      have hshift := shifts_lowerFunction d hfresh.left.functions he.entry hrun
      have hgrow := hshift.grows hfresh.left.unknown
      have hes₁ : List.Forall₂ (Declares s₁) ds es := by
        refine (forall₂_imp_of_mem hes.flip fun e' he' d' hd' => ?_).flip
        refine Declares.mono hd' hgrow.toRetains fun _ => hshift.keeps fun hmem => ?_
        have hdisjoint := (List.nodup_append.1 (List.nodup_append.1 hapart.nodup).1).2.2
        exact hdisjoint _ hmem _ (List.mem_map_of_mem he') rfl
      refine (succeeds_lowerFunctions ds (hknows.mono hgrow) (hshift.registered hregistered) hheap₁
        hes₁ (hapart.after hshift) (hfresh.right hshift) hds).imp ?_
      rintro _ s₂ - ⟨hloops₂, hheap₂⟩
      exact ⟨hloops₂.trans hloops, hheap₂⟩

theorem succeeds_lowerFunction {D : Declared} {s : State} {e : FunctionEntry} :
    (d : FunctionDecl) → Knows D s → s.Registered → s.graph.HeapTyped → Declares s d e →
      Apart s [e.entry] → Fresh d.scopes s → checkFunction D d = some () →
      Succeeds (lowerFunction d) s fun _ s' => s'.loops = s.loops ∧ s'.graph.HeapTyped
  | ⟨id, name, result, parameters, body⟩, hknows, hregistered, hheap, he, hapart, hfresh, hcheck => by
    rw [checkFunction] at hcheck
    simp only [bind_eq_some] at hcheck
    obtain ⟨⟨Δ, ks⟩, hbody, hend⟩ := hcheck
    obtain ⟨vt, hvt, hl⟩ := he.result
    let A : Around := ⟨D, some (.object e.returns), some ⟨name, vt⟩, some result⟩
    have hgrow := Grows.withLoops s []
    have h : Standing A [] { s with loops := [] } e.entry (parameterContext parameters) :=
      { knows := hknows.mono hgrow
        registered := ⟨hregistered.entry, hregistered.entry_inj, hregistered.layout,
          hregistered.layout_inj⟩
        heap := hheap
        frame := .function (hgrow.lowered? _ vt hvt) hl
        fits := he.fits.mono hgrow.lowered? fun _ hB => hB
        apart := hapart.withoutLoops
        loops := .nil
        bases := by simp }
    have hfresh' : Fresh body.scopes { s with loops := [] } :=
      ⟨hfresh.functions, hfresh.classes, hfresh.unknown.1, hfresh.unknown.2⟩
    rw [lowerFunction]
    refine Succeeds.run_bind (runs_functionEntry.2 ⟨he.entry, rfl⟩) ?_
    refine Succeeds.run_bind (runs_lowerType_of_lowered? result vt hvt) ?_
    refine Succeeds.run_bind (Runs.get_iff.2 ⟨rfl, rfl⟩) ?_
    dsimp only
    refine Succeeds.run_bind (a := ()) (Runs.modify_iff.2 rfl) ?_
    refine (succeeds_lowerScope (A := A) body h hfresh' hbody).bind ?_
    rintro o s₁ hrun hleaves
    cases hleaves.continues with
    | never => exact ⟨(), _, Runs.modify_iff.2 rfl, rfl, hleaves.heap⟩
    | @past c Γ' hfits hle =>
      have hvoid : result.isVoid = true := by
        by_contra hv
        simp [guard, hv, failure] at hend
      have h₁ := h.next (shifts_lowerScope body hfresh'.functions hrun) hfresh'.unknown hleaves
      have hreturn : checkReturn D (some result) Γ' none = some () := by simp [checkReturn, hvoid]
      dsimp only
      rw [if_pos hvoid]
      refine (succeeds_lowerReturn h₁ hreturn).bind ?_
      rintro _ s₂ - hend
      exact ⟨(), _, Runs.modify_iff.2 rfl, rfl, hend.heap⟩

theorem succeeds_lowerStmts {A : Around} {ks ks' : List Loop} {s : State} {b : BlockId} {Γ : Context}
    {Δ : Option Context} :
    (ss : List Stmt) → Standing A ks s b Γ → Fresh (stmtScopes ss) s →
      checkStmts A.declared A.result ks Γ ss = some (Δ, ks') →
      Succeeds (lowerStmts A.frame b ss) s fun o s' => Leaves A.slot ks Γ s' o Δ ks'
  | [], h, _, hcheck => by
    rw [checkStmts] at hcheck
    obtain ⟨rfl, rfl⟩ := Prod.mk.inj (Option.some.inj hcheck)
    rw [lowerStmts]
    exact .pure ⟨h.heap, h.loops, rfl, .past h.fits (.refl Γ)⟩
  | S :: rest, h, hfresh, hcheck => by
    rw [checkStmts] at hcheck
    simp only [bind_eq_some] at hcheck
    obtain ⟨⟨Γ₁, ks₁⟩, hfirst, hrest⟩ := hcheck
    rw [stmtScopes] at hfresh
    rw [lowerStmts]
    refine (succeeds_lowerStmt S h hfresh.left hfirst).bind ?_
    rintro o s₁ hrun hleaves
    have hshift := shifts_lowerStmt S hfresh.left.functions hrun
    cases hleaves.continues with
    | @past c Γ₁ hfits hle =>
      have h₁ := h.next hshift hfresh.left.unknown hleaves
      exact (succeeds_lowerStmts rest h₁ (hfresh.right hshift) hrest).imp fun _ _ _ hend =>
        hleaves.trans hend
    | never =>
      obtain ⟨rfl, rfl⟩ := Prod.mk.inj (Option.some.inj hrest)
      dsimp only
      split
      · refine (succeeds_report _).bind ?_
        rintro _ s₂ - hs
        exact .pure (hleaves.settle hs)
      · exact .pure hleaves

theorem succeeds_lowerStmt {A : Around} {ks ks' : List Loop} {s : State} {b : BlockId} {Γ : Context}
    {Δ : Option Context} :
    (S : Stmt) → Standing A ks s b Γ → Fresh S.scopes s →
      checkStmt A.declared A.result ks Γ S = some (Δ, ks') →
      Succeeds (lowerStmt A.frame b S) s fun o s' => Leaves A.slot ks Γ s' o Δ ks'
  | .scope body, h, hfresh, hcheck => by
    rw [checkStmt] at hcheck
    simp only [bind_eq_some] at hcheck
    obtain ⟨⟨Θ, ks₁⟩, hbody, hend⟩ := hcheck
    obtain ⟨rfl, rfl⟩ := Prod.mk.inj (Option.some.inj hend)
    rw [Stmt.scopes] at hfresh
    rw [lowerStmt]
    refine h.ready.enter.bind ?_
    rintro c s₁ hrun ⟨hne, hcontext, h₁, -⟩
    have henter : Rebuilds [b] s [c] s₁ := .of_lift hrun moves_enter
    have hstand := h.move henter h₁ (.refl Γ)
    have hfresh₁ := hfresh.shift henter.shifts
    refine (succeeds_lowerScope body hstand hfresh₁ hbody).bind ?_
    rintro o s₂ hrun₂ hleaves
    have hshift := shifts_lowerScope body hfresh₁.functions hrun₂
    have hgrow := hshift.grows hfresh₁.unknown
    cases hleaves.continues with
    | never => exact .pure hleaves
    | @past inner Δ hfits hle =>
      have hcontext₂ := hcontext.mono hgrow.lowered? fun _ => hshift.keeps (by simpa using hne.symm)
      refine (succeeds_leave (succeeds_rejoin (hstand.knows.mono hgrow) hleaves.heap hleaves.loops
        hleaves.bases (Apart.after (Z := []) hstand.apart hshift) hcontext₂
        (.cons ⟨hfits, hle⟩ .nil) (by simp))).bind ?_
      rintro d s₃ - hend
      exact .pure hend
  | .jump kind label, h, _, hcheck => by
    rw [checkStmt] at hcheck
    simp only [bind_eq_some] at hcheck
    obtain ⟨ks₁, hjump, hend⟩ := hcheck
    obtain ⟨rfl, rfl⟩ := Prod.mk.inj (Option.some.inj hend)
    rw [lowerStmt]
    refine (succeeds_lowerJump h hjump).bind ?_
    rintro _ s₁ - hleaves
    exact .pure hleaves
  | .define type clauses, h, _, hcheck => by
    rw [checkStmt] at hcheck
    simp only [↓guard_bind_eq_some, bind_eq_some] at hcheck
    obtain ⟨htype, Γ', hclauses, hend⟩ := hcheck
    obtain ⟨rfl, rfl⟩ := Prod.mk.inj (Option.some.inj hend)
    rw [lowerStmt]
    have hlowered : Succeeds (type.mapM lowerType) s fun lowered s' =>
        After A.declared s.loops A.slot s s' b Γ [] ∧ Annotates s' type lowered := by
      cases type with
      | none => exact .pure ⟨⟨.refl s, h.ready⟩, .none⟩
      | some t =>
        obtain ⟨vt, s₁, hrun, h₁, hvt, -⟩ := h.ready.lowerType (.inr (htype t rfl))
        exact ⟨some vt, s₁, Runs.map_iff.2 ⟨vt, hrun, rfl⟩, h₁, .some hvt⟩
    refine hlowered.bind ?_
    rintro lowered s₁ hrun ⟨h₁, hann⟩
    refine (succeeds_lowerClauses hann h₁.ready hclauses).bind ?_
    rintro c s₂ hrun₂ ⟨h₂, hle⟩
    have hsettle : Rebuilds [b] s [b] s₁ := by
      cases type with
      | none =>
        obtain ⟨-, rfl⟩ := Runs.pure_iff.1 hrun
        exact .refl _ _
      | some t =>
        obtain ⟨_, hrun, -⟩ := Runs.map_iff.1 hrun
        exact (settles_lowerType t hrun).frame [b]
    exact .pure (h.leaves (hsettle.trans (leads_lowerClauses hrun₂)) (.trans h₁.grows h₂) hle)
  | .loop kind label condition body, h, hfresh, hcheck => by
    rw [checkStmt] at hcheck
    rw [Stmt.scopes] at hfresh
    split at hcheck
    case isTrue hkind =>
      simp only [bind_eq_some] at hcheck
      obtain ⟨Γ', hcond, ⟨Θ, ks₁⟩, hbody, hend⟩ := hcheck
      obtain ⟨rfl, rfl⟩ := Prod.mk.inj (Option.some.inj hend)
      exact succeeds_testedLoop h hfresh hkind hcond fun hstand hfresh' =>
        succeeds_lowerScope body hstand hfresh' hbody
    case isFalse hkind =>
      simp only [bind_eq_some] at hcheck
      obtain ⟨⟨Θ, ks₁⟩, hbody, hend⟩ := hcheck
      cases ks₁ with
      | nil => simp at hend
      | cons k ks₁ =>
        simp only [bind_eq_some] at hend
        obtain ⟨Δ', hloop, hend⟩ := hend
        obtain ⟨rfl, rfl⟩ := Prod.mk.inj (Option.some.inj hend)
        exact succeeds_queuedLoop h hfresh hkind (fun hstand hfresh' =>
          succeeds_lowerScope body hstand hfresh' hbody) hloop
  | .expr value, h, _, hcheck => by
    rw [checkStmt] at hcheck
    simp only [bind_eq_some] at hcheck
    obtain ⟨Γ', hexpr, hend⟩ := hcheck
    obtain ⟨rfl, rfl⟩ := Prod.mk.inj (Option.some.inj hend)
    rw [lowerStmt]
    refine (succeeds_lowerExpr value h.ready hexpr).bind ?_
    rintro c s₁ hrun ⟨h₁, -⟩
    exact .pure (h.leaves (leads_lowerExpr b value hrun) h₁ (checkExpr_le value hexpr))
  | .cond condition first second, h, hfresh, hcheck => by
    rw [checkStmt] at hcheck
    simp only [bind_eq_some] at hcheck
    obtain ⟨Γ', hcond, ⟨Γ₁, ks₁⟩, hfirst, ⟨Γ₂, ks₂⟩, hsecond, hend⟩ := hcheck
    obtain ⟨rfl, rfl⟩ := Prod.mk.inj (Option.some.inj hend)
    rw [Stmt.scopes] at hfresh
    exact succeeds_cond h hfresh hcond
      (fun hstand hfresh' => succeeds_lowerArm first hstand hfresh' hfirst)
      fun hstand hfresh' => succeeds_lowerArm second hstand hfresh' hsecond
  | .ret value, h, _, hcheck => by
    rw [checkStmt] at hcheck
    simp only [bind_eq_some] at hcheck
    obtain ⟨_, hreturn, hend⟩ := hcheck
    obtain ⟨rfl, rfl⟩ := Prod.mk.inj (Option.some.inj hend)
    rw [lowerStmt]
    refine (succeeds_lowerReturn h hreturn).bind ?_
    rintro _ s₁ - hleaves
    exact .pure hleaves

theorem succeeds_lowerArm {A : Around} {ks ks' : List Loop} {s : State} {b : BlockId} {Γ : Context}
    {Δ : Option Context} :
    (S : Option Scope) → Standing A ks s b Γ → Fresh (armScopes S) s →
      checkArm A.declared A.result ks Γ S = some (Δ, ks') →
      Succeeds (lowerArm A.frame b S) s fun o s' => Leaves A.slot ks Γ s' o Δ ks'
  | some body, h, hfresh, hcheck => by
    rw [lowerArm]
    exact succeeds_lowerScope body h hfresh hcheck
  | none, h, _, hcheck => by
    rw [checkArm] at hcheck
    obtain ⟨rfl, rfl⟩ := Prod.mk.inj (Option.some.inj hcheck)
    rw [lowerArm]
    exact .pure ⟨h.heap, h.loops, rfl, .past h.fits (.refl Γ)⟩

end

end BlockGraph.Lowering
