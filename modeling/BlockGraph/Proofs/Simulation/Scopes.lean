import BlockGraph.Proofs.Lowering.Flow
import BlockGraph.Proofs.Simulation.Functions

namespace BlockGraph.Lowering

open Builder Interpretation

variable {I : Interpretation} {L : Lowered} {s s' s₁ : State} {b c : BlockId} {n : Nat}
  {fs : List FunctionId} {cs : List ClassId} {X Y : List BlockId} {o : Option BlockId}

theorem Performs.inScope {x : I.Eval I.Exit} (h : Performs L n s b x (Exits L s' o)) :
    Performs L n s b (do
      let outer ← visible
      match ← x with
      | .normal =>
        restrict outer
        return .normal
      | exit => return exit) (ExitsScope L s' o) := by
  intro w before σ y hcaller hy
  change Simulates L (n + 1) y ((x >>= _) w.vars σ) _
  refine Simulates.bind (h hcaller hy) fun exit vs σ₁ y₁ hexits => ?_
  cases exit with
  | normal => exact .done ⟨vs, hexits, rfl⟩
  | _ => exact .done ⟨vs, hexits, rfl⟩

structure Site (ss : List Scope) (s : State) (b : BlockId) : Prop where
  fresh : Fresh ss s
  tidy : s.Tidy
  apart : Apart s [b]

namespace Site

variable {ss ss' : List Scope}

theorem left (h : Site (ss ++ ss') s b) : Site ss s b := ⟨h.fresh.left, h.tidy, h.apart⟩

theorem next (h : Site (ss ++ ss') s b) (hs : Shifts (functionIds ss) (classIds ss) [b] s [c] s')
    (htidy : s'.Tidy) : Site ss' s' c :=
  ⟨h.fresh.right hs, htidy, Apart.after (Z := []) h.apart hs⟩

theorem enter (h : Site ss s b) {t : Builder} (henter : Runs (enter b) s.toBuilder c t) :
    Site ss { s with toBuilder := t } c := by
  have hs : Rebuilds [b] s [c] { s with toBuilder := t } := .of_moves (moves_enter henter)
  exact ⟨h.fresh.shift hs.shifts, tidy_lift tidies_enter henter h.tidy,
    Apart.after (Z := []) h.apart hs.shifts⟩

theorem push (h : Site ss s b) {f : LoopFrame} (hwait : f.targets.waiting = [])
    (hf : ∀ test exit, f.targets = .known test exit → s.graph.IsTarget test ∧ s.graph.IsTarget exit) :
    Site ss { s with loops := f :: s.loops } b := by
  refine ⟨h.fresh.withLoops _, h.tidy.withLoops ?_, h.apart.push hwait⟩
  intro k hk
  rcases List.mem_cons.1 hk with rfl | hk
  · exact hf
  · exact h.tidy.loops k hk

end Site

section Branches

variable {e : Expr} {tested onTrue onFalse : BlockId} {r : Register} {t t' : Builder} {ss : List Scope}

theorem Site.branch (h : Site ss s b) (htest : Runs (lowerExpr b e) s tested s₁)
    (hlast : Runs (lastRegister tested) s₁.toBuilder r t)
    (hbranch : Runs (branch tested r) t (onTrue, onFalse) t') :
    Site ss { s₁ with toBuilder := t' } onTrue ∧
      Apart { s₁ with toBuilder := t' } [onTrue, onFalse] ∧
      t'.graph.IsTarget onTrue ∧ t'.graph.IsTarget onFalse ∧ s.graph.Preserves t'.graph := by
  have hs := (leads_lowerExpr b e htest).trans (rebuilds_branch hlast hbranch)
  have hapart : Apart { s₁ with toBuilder := t' } [onTrue, onFalse] :=
    Apart.left (Z := []) (Apart.after h.apart hs.shifts)
  obtain ⟨hs₁, hpres₁, hopen⟩ := (tidies_lowerExpr b e h.tidy).holds htest
  obtain ⟨-, -, -, rfl⟩ := runs_lastRegister.1 hlast
  obtain ⟨htidy, hpres₂, htrue, hfalse⟩ := (tidies_lift tidies_branch hs₁).holds
    (Runs.lift_build_iff.2 ⟨t', hbranch, rfl⟩)
  refine ⟨⟨h.fresh.shift hs.shifts, htidy, ?_⟩, hapart, htrue, hfalse, hpres₁.trans hpres₂⟩
  exact Apart.left (Z := [onFalse]) hapart

end Branches

section Code

variable {q : Program} {call : FunctionDecl → List I.Value → I.Eval (Option I.Value)}

theorem tested_of_isTrue {e : Expr} (h : e.isTrue = true) (round : I.Eval I.Round) (n : Nat) :
    tested (evalCondition q call e) round n = rounds (evalCondition q call e) round n := by
  rw [tested, evalCondition_of_isTrue h]
  rfl

theorem realizes_hasValue (hcalls : CallsSimulate L q n call) {e : Expr} (h : e.HasValue) :
    Realizes L n q call e ∧ e.type.isVoid = false :=
  ⟨realizes_expr hcalls e h.2, h.1⟩

section Loops

variable {frame : Option Frame} {kind : LoopKind} {label : Option String} {condition : Expr}
  {body : Scope}

theorem performs_lowerTested (hcalls : CallsSimulate L q n call) (h : Site body.scopes s b)
    (htests : kind.tests condition = true) (hcondition : condition.HasValue)
    (hrun : Runs (lowerStmt frame b (.loop kind label condition body)) s o s') (hL : Links L s')
    (hbody : ∀ {c s₁ o' s₂}, Site body.scopes s₁ c → Runs (lowerScope frame c body) s₁ o' s₂ →
      Links L s₂ → Performs L n s₁ c (execScope q call n body) (ExitsScope L s₂ o') ∧
        ∀ d ∈ body.live, Enacts L n q call d) :
    Performs L n s b (execStmt q call n (.loop kind label condition body)) (Exits L s' o) ∧
      ∀ d ∈ body.live, Enacts L n q call d := by
  rw [LoopKind.tests] at htests
  obtain ⟨test, t, tested, s₁, r, inside, exit, t₂, bottom, s₂, henter, htest, hlast, hbranch, hlower, hback,
    rfl⟩ := lowerStmt_tested htests hrun
  obtain ⟨hinside, -, -, hexit, hpres⟩ := (h.enter henter).branch htest hlast hbranch
  have htarget := ((tidies_enter h.tidy.builder).holds henter).2.2
  have hsite : Site body.scopes
      { s₁ with toBuilder := t₂, loops := ⟨label, .known test exit⟩ :: s₁.loops } inside := by
    refine hinside.push (f := ⟨label, .known test exit⟩) rfl ?_
    rintro _ _ ⟨⟩
    exact ⟨htarget.mono hpres, hexit⟩
  have hshift := shifts_lowerScope body hsite.fresh.functions hlower
  have hL₂ := (hL.back hback.rebuilds.grows).back (Grows.withLoops s₂ _)
  have hL₁ := ((hL₂.back (hshift.grows hsite.fresh.unknown)).back
    (Grows.withLoops { s₁ with toBuilder := t₂ } _)).back (rebuilds_branch hlast hbranch).grows
  obtain ⟨hperforms, hlive⟩ := hbody hsite hlower hL₂
  obtain ⟨he, hvalue⟩ := realizes_hasValue hcalls hcondition
  obtain ⟨rfl, -⟩ : kind = .testFirst ∧ condition.isTrue = false := by
    simpa using htests
  rw [execStmt]
  exact ⟨performs_testedLoop he hvalue henter htest hlast hbranch hperforms hshift hback h.tidy h.apart
    hL hL₁, hlive⟩

theorem performs_lowerQueued (hcalls : CallsSimulate L q n call) (h : Site body.scopes s b)
    (htests : ¬kind.tests condition = true)
    (hcondition : body.flow.repeats label = true → condition.isTrue = false → condition.HasValue)
    (hrun : Runs (lowerStmt frame b (.loop kind label condition body)) s o s') (hL : Links L s')
    (hbody : ∀ {c s₁ o' s₂}, Site body.scopes s₁ c → Runs (lowerScope frame c body) s₁ o' s₂ →
      Links L s₂ → Performs L n s₁ c (execScope q call n body) (ExitsScope L s₂ o') ∧
        ∀ d ∈ body.live, Enacts L n q call d) :
    Performs L n s b (execStmt q call n (.loop kind label condition body)) (Exits L s' o) ∧
      ∀ d ∈ body.live, Enacts L n q call d := by
  rw [LoopKind.tests] at htests
  obtain ⟨inside, t, bottom, s₂, label', leaving, repeating, ls, henter, hlower, hloops, hclose⟩ :=
    lowerStmt_queued htests hrun
  have hsite : Site body.scopes
      { s with toBuilder := t, loops := ⟨label, .queued [] []⟩ :: s.loops } inside :=
    (h.enter henter).push (f := ⟨label, .queued [] []⟩) rfl (by simp)
  have hshift := shifts_lowerScope body hsite.fresh.functions hlower
  have hs₂ := ((tidies_lowerScope frame inside body hsite.tidy).holds hlower).1
  have hL₂ := (hL.back (rebuilds_closeLoop hclose).grows).back (Grows.withLoops s₂ ls)
  obtain ⟨rfl, -, hrepeats, -⟩ := (follows_lowerScope body hlower).queued rfl hloops
  obtain ⟨hperforms, hlive⟩ := hbody hsite hlower hL₂
  -- the condition is tested only if control comes to the end of the body
  have he : repeating ++ bottom.toList ≠ [] → condition.isTrue = false →
      Realizes L n q call condition ∧ condition.type.isVoid = false := fun hne htrue =>
    realizes_hasValue hcalls (hcondition (by simpa [← hrepeats] using hne) htrue)
  have hloop := performs_queuedLoop henter hperforms hshift hloops hclose he
    (hs₂.withLoops fun k hk => hs₂.loops k (by simp [hloops, hk])) h.apart hL
  refine ⟨?_, hlive⟩
  rw [execStmt]
  cases kind with
  | testLast => exact hloop
  | testFirst =>
    have htrue : condition.isTrue = true := by simpa using htests
    simp only [tested_of_isTrue htrue]
    exact hloop

end Loops

mutual

theorem performs_lowerScope (hcalls : CallsSimulate L q n call) {frame : Option Frame} {b : BlockId}
    {s s' : State} {o : Option BlockId} :
    (S : Scope) → S.Valued → Site S.scopes s b → Runs (lowerScope frame b S) s o s' → Links L s' →
      Performs L n s b (execScope q call n S) (ExitsScope L s' o) ∧ ∀ d ∈ S.live, Enacts L n q call d
  | ⟨classes, functions, statements⟩, hv, h, hrun, hL => by
    have hscopes : Fresh ([⟨classes, functions, statements⟩] ++
        (functionScopes functions ++ stmtScopes statements)) s := h.fresh
    have hids := h.fresh.functions
    simp only [Scope.scopes, functionIds_cons, functionIds_append, ← List.append_assoc] at hids
    have hnodup : (functions.map (·.id)).Nodup := hids.of_append_left.of_append_left
    rw [lowerScope] at hrun
    simp only [Runs.bind_iff] at hrun
    obtain ⟨_, s₁, hclasses, _, s₂, hfunctions, _, s₃, hfields, _, s₄, hbodies, hstmts⟩ := hrun
    obtain ⟨es, hhoist, hes⟩ := shifts_hoist hnodup hclasses hfunctions hfields
    have hprepared : List.Forall₂ (Prepared s₃) functions es :=
      forall₂_imp_of_mem hes fun d hd e he => by
        obtain ⟨e', he'⟩ := prepared_of_declareFunctions hnodup hfunctions d hd
        have he' := he'.defineFields hfields
        exact Option.some.inj (he'.1.symm.trans he) ▸ he'
    have hs₁ := ((Tidies.forM trivial fun _ _ _ _ => tidies_declare) h.tidy).holds hclasses
    have hs₂ := ((Tidies.forM trivial fun _ _ _ _ => tidies_declareFunction) hs₁.1).holds hfunctions
    have hs₃ := ((Tidies.forM trivial fun _ _ _ _ => tidies_defineFields) hs₂.1).holds hfields
    have hs₄ := (tidies_lowerFunctions functions hs₃.1).holds hbodies
    have hinner := hscopes.right (by simpa using hhoist)
    have hapart : Apart s₃ (es.map (·.entry) ++ [b]) := Apart.after (X := []) h.apart hhoist
    have hshift := shifts_lowerFunctions functions hids.of_append_left hes hbodies
    have hsite : Site (stmtScopes statements) s₄ b :=
      ⟨hinner.right hshift, hs₄.1, hapart.after hshift⟩
    have hL₄ : Links L s₄ := hL.back
      ((shifts_lowerStmts statements hsite.fresh.functions hstmts).grows hsite.fresh.unknown)
    have henacts := enacts_lowerFunctions hcalls functions hv.1 hinner.left hs₃.1 hprepared hapart.left
      hids.of_append_left hbodies hL₄
    obtain ⟨hperforms, henacts'⟩ := performs_lowerStmts hcalls statements hv.2 hsite hstmts hL
    refine ⟨?_, List.forall_mem_append.2 ⟨henacts, henacts'⟩⟩
    rw [execScope]
    refine Performs.inScope fun w before σ y hcaller hy => hperforms hcaller (hy.kept fun B hB => ?_)
    exact hshift.keeps hapart.apart_last (hhoist.keeps (by simp) hB)

theorem enacts_lowerFunctions (hcalls : CallsSimulate L q n call) {s s' : State} {u : Unit}
    {es : List FunctionEntry} :
    (ds : List FunctionDecl) → functionsValued ds → Fresh (functionScopes ds) s → s.Tidy →
      List.Forall₂ (Prepared s) ds es → Apart s (es.map (·.entry)) →
      (ds.map (·.id) ++ functionIds (functionScopes ds)).Nodup → Runs (lowerFunctions ds) s u s' →
      Links L s' → ∀ d ∈ ds ++ functionsLive ds, Enacts L n q call d
  | [], _, _, _, _, _, _, _, _ => by
    intro d hd
    exact nomatch hd
  | d :: ds, hv, hfresh, hs, hes, hapart, hids, hrun, hL => by
    rw [functionScopes] at hfresh hids
    rw [functionIds_append] at hids
    rw [lowerFunctions] at hrun
    simp only [Runs.bind_iff] at hrun
    obtain ⟨_, s₁, hd, hds⟩ := hrun
    cases hes with
    | @cons _ e _ es he hes =>
      have hapart : Apart s ([e.entry] ++ es.map (·.entry)) := hapart
      have hshift := shifts_lowerFunction d hfresh.left.functions he.1 hd
      have hfresh₁ := hfresh.right hshift
      have hes₁ : List.Forall₂ (Prepared s₁) ds es := by
        have hentries : List.Forall₂ (fun d' e' => Prepared s d' e' ∧ e'.entry ∉ [e.entry]) ds es := by
          refine (forall₂_imp_of_mem hes.flip fun e' he' d' hd' => ⟨hd', fun hmem => ?_⟩).flip
          exact (List.nodup_append.1 (List.nodup_append.1 hapart.nodup).1).2.2 _ hmem _
            (List.mem_map_of_mem he') rfl
        refine forall₂_imp_of_mem hentries fun d' hd' e' he' => he'.1.shift hshift (fun hmem => ?_) he'.2
        exact (List.nodup_append.1 hids).2.2 d'.id (List.mem_map_of_mem (by simp [hd'])) d'.id
          (List.mem_append_left _ hmem) rfl
      have hids₁ : (ds.map (·.id) ++ functionIds (functionScopes ds)).Nodup :=
        hids.sublist ((List.sublist_cons_self ..).append (List.sublist_append_right ..))
      have hL₁ : Links L s₁ := hL.back ((shifts_lowerFunctions ds hids₁
        (hes₁.imp fun _ _ h => h.1) hds).grows hfresh₁.unknown)
      obtain ⟨henacts, hlive⟩ := enacts_lowerFunction hcalls d hv.1 hfresh.left hs he hapart.left hd hL₁
      have hrest := enacts_lowerFunctions hcalls ds hv.2 hfresh₁ ((tidies_lowerFunction d hs).holds hd).1
        hes₁ (hapart.after hshift) hids₁ hds hL
      obtain ⟨hrest, hlive'⟩ := List.forall_mem_append.1 hrest
      exact List.forall_mem_append.2 ⟨List.forall_mem_cons.2 ⟨henacts, hrest⟩,
        List.forall_mem_append.2 ⟨hlive, hlive'⟩⟩

theorem enacts_lowerFunction (hcalls : CallsSimulate L q n call) {s s' : State} {u : Unit}
    {e : FunctionEntry} :
    (d : FunctionDecl) → d.Valued → Fresh d.scopes s → s.Tidy → Prepared s d e → Apart s [e.entry] →
      Runs (lowerFunction d) s u s' → Links L s' →
      Enacts L n q call d ∧ ∀ d' ∈ d.live, Enacts L n q call d'
  | ⟨id, name, result, parameters, body⟩, hv, hfresh, hs, he, hapart, hrun, hL => by
    obtain ⟨e', type, s₁, o, s₂, s₃, he', htype, hbody, h, rfl⟩ := lowerFunction_body hrun
    obtain rfl := Option.some.inj (he.1.symm.trans he')
    have hsettle := (settles_lowerType result htype).shifts
    have hs₁ := ((tidies_lowerType result hs).holds htype).1
    have hsite : Site body.scopes { s₁ with loops := [] } e.entry :=
      ⟨(hfresh.shift hsettle).withLoops [], hs₁.withLoops (by simp [LoopsTarget]),
        (Apart.after (X := []) hapart hsettle).withoutLoops⟩
    have hshift := shifts_lowerScope body hsite.fresh.functions hbody
    have hL₃ : Links L s₃ := hL.back (Grows.withLoops s₃ _)
    have hL₂ := hL₃.back h.rebuilds.grows
    have hend : ∀ b ∈ o, ∃ u s₃, Runs (lowerReturn (some ⟨name, type⟩) b none) s₂ u s₃ ∧ Links L s₃ := by
      rcases h with ⟨rfl, rfl⟩ | ⟨b, rfl, hreturn⟩
      · simp
      · rintro _ ⟨⟩
        exact ⟨_, s₃, hreturn, hL₃⟩
    obtain ⟨hperforms, hlive⟩ := performs_lowerScope hcalls body hv hsite hbody hL₂
    refine ⟨?_, hlive⟩
    have hprepared : Prepared s₁ ⟨id, name, result, parameters, body⟩ e :=
      he.shift hsettle (by simp) (by simp)
    have hprepared : Prepared { s₁ with loops := [] } ⟨id, name, result, parameters, body⟩ e := hprepared
    exact enacts_of_performs hprepared hperforms hend (List.forall₂_nil_left_iff.1 hshift.loops)
      (hL₂.back (hshift.grows hsite.fresh.unknown))

theorem performs_lowerStmts (hcalls : CallsSimulate L q n call) {frame : Option Frame} {b : BlockId}
    {s s' : State} {o : Option BlockId} :
    (ss : List Stmt) → stmtsValued ss → Site (stmtScopes ss) s b → Runs (lowerStmts frame b ss) s o s' →
      Links L s' →
      Performs L n s b (execStmts q call n ss) (Exits L s' o) ∧ ∀ d ∈ stmtsLive ss, Enacts L n q call d
  | [], _, _, hrun, _ => by
    rw [lowerStmts] at hrun
    obtain ⟨rfl, rfl⟩ := Runs.pure_iff.1 hrun
    refine ⟨fun w before σ y _ hy => ?_, fun d hd => nomatch hd⟩
    rw [execStmts]
    exact .done ⟨.refl _, b, rfl, hy⟩
  | S :: rest, hv, h, hrun, hL => by
    rw [stmtScopes] at h
    rw [lowerStmts] at hrun
    simp only [Runs.bind_iff] at hrun
    obtain ⟨o', s₁, hS, hrest⟩ := hrun
    have hpast : S.flow.past = o'.isSome := (follows_lowerStmt S hS).past.symm
    have hshift := shifts_lowerStmt S h.fresh.left.functions hS
    have htidy := ((tidies_lowerStmt frame b S h.tidy).holds hS).1
    rw [execStmts, stmtsLive]
    cases o' with
    | some c =>
      have hsite := h.next hshift htidy
      have hshift' := shifts_lowerStmts rest hsite.fresh.functions hrest
      have hL₁ := hL.back (hshift'.grows hsite.fresh.unknown)
      obtain ⟨hfirst, hlive⟩ := performs_lowerStmt hcalls S hv.1 h.left hS hL₁
      obtain ⟨hsecond, hlive'⟩ := performs_lowerStmts hcalls rest (hv.2 hpast) hsite hrest hL
      rw [if_pos (by simpa using hpast)]
      exact ⟨hfirst.andThen hsecond hsite.apart hshift', List.forall_mem_append.2 ⟨hlive, hlive'⟩⟩
    | none =>
      obtain ⟨rfl, hquiet⟩ := rebuilds_unreachable hrest
      obtain ⟨hfirst, hlive⟩ := performs_lowerStmt hcalls S hv.1 h.left hS (hL.back hquiet.grows)
      rw [if_neg (by simpa using hpast), List.append_nil]
      exact ⟨hfirst.andNever hquiet (Apart.after (Z := []) h.apart hshift), hlive⟩

theorem performs_lowerStmt (hcalls : CallsSimulate L q n call) {frame : Option Frame} {b : BlockId}
    {s s' : State} {o : Option BlockId} :
    (S : Stmt) → S.Valued → Site S.scopes s b → Runs (lowerStmt frame b S) s o s' → Links L s' →
      Performs L n s b (execStmt q call n S) (Exits L s' o) ∧ ∀ d ∈ S.live, Enacts L n q call d
  | .scope body, hv, h, hrun, hL => by
    obtain ⟨inner, t, o', s₁, henter, hbody, hjoin⟩ := lowerStmt_scope hrun
    have hsite : Site body.scopes { s with toBuilder := t } inner := h.enter henter
    obtain ⟨hperforms, hlive⟩ := performs_lowerScope hcalls body hv hsite hbody
      (hL.back hjoin.rebuilds.grows)
    rw [execStmt]
    exact ⟨performs_scope henter hperforms (shifts_lowerScope body hsite.fresh.functions hbody) h.apart
      hjoin hL, hlive⟩
  | .jump kind label, _, _, hrun, hL => by
    obtain ⟨rfl, hjump⟩ := lowerStmt_jump hrun
    rw [execStmt]
    exact ⟨performs_jump hjump hL, fun d hd => nomatch hd⟩
  | .define type clauses, hv, h, hrun, hL => by
    obtain ⟨lowered, s₁, c, htype, hclauses, rfl⟩ := lowerStmt_define hrun
    rw [execStmt]
    refine ⟨performs_define (fun k hk e he => ?_) htype hclauses h.tidy hL, fun d hd => nomatch hd⟩
    exact realizes_hasValue hcalls (hv k hk e he)
  | .loop kind label condition body, ⟨hv, hcondition⟩, h, hrun, hL => by
    by_cases htests : kind.tests condition = true
    · exact performs_lowerTested hcalls h htests (hcondition (.inl htests)) hrun hL fun hsite hbody hL =>
        performs_lowerScope hcalls body hv hsite hbody hL
    · exact performs_lowerQueued hcalls h htests (fun hrepeats htrue => hcondition (.inr ⟨hrepeats, htrue⟩))
        hrun hL fun hsite hbody hL => performs_lowerScope hcalls body hv hsite hbody hL
  | .expr value, hv, h, hrun, hL => by
    obtain ⟨c, hvalue, rfl⟩ := lowerStmt_expr hrun
    rw [execStmt]
    exact ⟨performs_expr (realizes_expr hcalls value hv) hvalue h.tidy hL, fun d hd => nomatch hd⟩
  | .cond condition first second, ⟨hcondition, hv, hv'⟩, h, hrun, hL => by
    obtain ⟨c, s₁, r, onTrue, onFalse, t, first', s₂, second', s₃, hcond, hlast, hbranch, hfirst, hsecond,
      hjoin⟩ := lowerStmt_cond hrun
    obtain ⟨hsite, hapart, -⟩ := h.branch hcond hlast hbranch
    have hshift := shifts_lowerArm first hsite.fresh.left.functions hfirst
    have hapart₂ : Apart s₂ (first'.toList ++ [onFalse]) := Apart.after (Z := [onFalse]) hapart hshift
    have hsite₂ : Site (armScopes second) s₂ onFalse :=
      ⟨hsite.fresh.right hshift, ((tidies_lowerArm frame onTrue first hsite.tidy).holds hfirst).1,
        hapart₂.right⟩
    have hshift' := shifts_lowerArm second hsite₂.fresh.functions hsecond
    have hL₃ := hL.back hjoin.rebuilds.grows
    have hL₂ := hL₃.back (hshift'.grows hsite₂.fresh.unknown)
    have hL₁ := (hL₂.back (hshift.grows hsite.fresh.left.unknown)).back
      (rebuilds_branch hlast hbranch).grows
    obtain ⟨hperforms, hlive⟩ := performs_lowerArm hcalls first hv hsite.left hfirst hL₂
    obtain ⟨hperforms', hlive'⟩ := performs_lowerArm hcalls second hv' hsite₂ hsecond hL₃
    obtain ⟨he, hvalue⟩ := realizes_hasValue hcalls hcondition
    rw [execStmt]
    exact ⟨performs_cond he hvalue hcond hlast hbranch hperforms hperforms' hshift hshift' hjoin h.tidy
      h.apart hL hL₁, List.forall_mem_append.2 ⟨hlive, hlive'⟩⟩
  | .ret value, hv, h, hrun, hL => by
    obtain ⟨rfl, hreturn⟩ := lowerStmt_ret hrun
    rw [execStmt]
    exact ⟨performs_ret (fun e he => realizes_hasValue hcalls (hv e he)) hreturn h.tidy hL,
      fun d hd => nomatch hd⟩

theorem performs_lowerArm (hcalls : CallsSimulate L q n call) {frame : Option Frame} {b : BlockId}
    {s s' : State} {o : Option BlockId} :
    (S : Option Scope) → armValued S → Site (armScopes S) s b → Runs (lowerArm frame b S) s o s' →
      Links L s' →
      Performs L n s b (execArm q call n S) (ExitsScope L s' o) ∧ ∀ d ∈ armLive S, Enacts L n q call d
  | some body, hv, h, hrun, hL => by
    rw [lowerArm] at hrun
    rw [execArm]
    exact performs_lowerScope hcalls body hv h hrun hL
  | none, _, _, hrun, _ => by
    rw [lowerArm] at hrun
    obtain ⟨rfl, rfl⟩ := Runs.pure_iff.1 hrun
    refine ⟨fun w before σ y _ hy => ?_, fun d hd => nomatch hd⟩
    rw [execArm]
    exact .done (Exits.inScope ⟨.refl _, b, rfl, hy⟩)

end

end Code

end BlockGraph.Lowering
