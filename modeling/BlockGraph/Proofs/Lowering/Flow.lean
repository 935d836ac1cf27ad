import BlockGraph.Proofs.Lowering.Statements
import BlockGraph.Proofs.Source.Flow

namespace BlockGraph.Lowering

open Builder Tally

def LoopTargets.noted : LoopTargets → Option (Bool × Bool)
  | .known _ _ => none
  | .queued leaving repeating => some (!leaving.isEmpty, !repeating.isEmpty)

def LoopFrame.tally (f : LoopFrame) : Tally := ⟨f.label, f.targets.noted⟩

def Introduces (ds : List FunctionDecl) (s s' : State) : Prop :=
  ∀ k : Nat, k ∈ s'.functions ↔ k ∈ s.functions ∨ ∃ d ∈ ds, d.id.index = k

structure Adds (ds : List FunctionDecl) (s s' : State) : Prop where
  loops : s'.loops = s.loops
  functions : Introduces ds s s'

structure Follows (f : Flow) (ds : List FunctionDecl) (s : State) (o : Option BlockId) (s' : State) :
    Prop where
  past : o.isSome = f.past
  noted : s'.loops.map LoopFrame.tally = noteJumps f.jumps (s.loops.map LoopFrame.tally)
  functions : Introduces ds s s'

section Follows

variable {f g : Flow} {ds ds' : List FunctionDecl} {s s' s'' : State} {b c : BlockId}
  {o : Option BlockId} {X Y : List BlockId}

theorem Introduces.trans (h : Introduces ds s s') (k : Introduces ds' s' s'') :
    Introduces (ds ++ ds') s s'' := by
  intro n
  rw [k n, h n, or_assoc]
  simp only [List.mem_append, or_and_right, exists_or]

theorem Introduces.of_eq (h : s'.functions = s.functions) : Introduces [] s s' := by
  intro n
  simp [h]

theorem Adds.trans (h : Adds ds s s') (k : Adds ds' s' s'') : Adds (ds ++ ds') s s'' :=
  ⟨k.loops.trans h.loops, h.functions.trans k.functions⟩

theorem Rebuilds.adds (h : Rebuilds X s Y s') : Adds [] s s' := by
  obtain ⟨t, -, rfl⟩ := h
  exact ⟨rfl, .of_eq rfl⟩

theorem Adds.follows (h : Adds ds s s') (c : BlockId) : Follows .through ds s (some c) s' :=
  ⟨rfl, by rw [h.loops]; rfl, h.functions⟩

theorem Rebuilds.follows (h : Rebuilds X s Y s') (c : BlockId) : Follows .through [] s (some c) s' :=
  h.adds.follows c

theorem Adds.andThen (h : Adds ds s s') (k : Follows g ds' s' o s'') :
    Follows g (ds ++ ds') s o s'' where
  past := k.past
  noted := by rw [k.noted, h.loops]
  functions := h.functions.trans k.functions

theorem Follows.andThen (h : Follows f ds s (some c) s') (k : Follows g ds' s' o s'') :
    Follows (f.andThen g) (ds ++ ds') s o s'' where
  past := by
    have hpast : f.past = true := h.past.symm
    rw [Flow.andThen, if_pos hpast]
    exact k.past
  noted := by
    have hpast : f.past = true := h.past.symm
    rw [Flow.andThen, if_pos hpast, k.noted, h.noted, noteJumps_append]
  functions := h.functions.trans k.functions

theorem Follows.close (h : Follows f ds s o s') (k : Rebuilds X s' Y s'') {o' : Option BlockId}
    (ho : o'.isSome = o.isSome) : Follows f ds s o' s'' := by
  obtain ⟨t, -, rfl⟩ := k
  exact ⟨ho.trans h.past, h.noted, h.functions⟩

theorem Follows.queued {label label' : Option String} {leaving repeating : List BlockId}
    {ls ls' : List LoopFrame} (h : Follows f ds s o s')
    (hs : s.loops = ⟨label, .queued [] []⟩ :: ls)
    (hs' : s'.loops = ⟨label', .queued leaving repeating⟩ :: ls') :
    label' = label ∧ (!leaving.isEmpty) = f.leaves label ∧
      (!(repeating ++ o.toList).isEmpty) = f.repeats label ∧
      ls'.map LoopFrame.tally =
        noteJumps (f.jumps.filter (!·.means label)) (ls.map LoopFrame.tally) := by
  obtain ⟨again, hnoted, hrepeats⟩ := noteJumps_innermost f label (ls.map LoopFrame.tally)
  have htallies := h.noted
  rw [hs, hs'] at htallies
  have htallies := htallies.trans hnoted
  simp only [List.map_cons, List.cons.injEq, LoopFrame.tally, Tally.mk.injEq, LoopTargets.noted,
    Option.some.injEq, Prod.mk.injEq] at htallies
  obtain ⟨⟨hlabel, hleft, hagain⟩, hrest⟩ := htallies
  refine ⟨hlabel, hleft, ?_, hrest⟩
  rw [hrepeats, ← h.past, ← hagain]
  cases o <;> cases repeating <;> simp

end Follows

section Declarations

variable {s s' : State} {u : Unit}

theorem adds_declareFunction {d : FunctionDecl} (h : Runs (declareFunction d) s u s') :
    Adds [d] s s' := by
  obtain ⟨result, t₁, returns, t₂, types, t₃, entry, t₄, t₅, t₆, hresult, hreturns, htypes, -, -, -,
    rfl⟩ := declareFunction_cases h
  obtain ⟨u, -, rfl⟩ := ((settles_lowerType _ hresult).trans
    (settles_returnLayout hreturns)).trans (settles_lowerTypes _ htypes)
  refine ⟨rfl, fun k => ?_⟩
  simp [Std.TreeMap.mem_insert, or_comm]

theorem adds_forM {α : Type} {f : α → LowerM PUnit} {g : α → List FunctionDecl}
    (hf : ∀ {a s v s'}, Runs (f a) s v s' → Adds (g a) s s') {as : List α} {u : PUnit}
    (h : Runs (as.forM f) s u s') : Adds (as.flatMap g) s s' := by
  induction as generalizing s with
  | nil =>
    obtain rfl := Runs.forM_nil.1 h
    exact ⟨rfl, .of_eq rfl⟩
  | cons a as ih =>
    obtain ⟨s₁, ha, has⟩ := Runs.forM_cons.1 h
    rw [List.flatMap_cons]
    exact (hf ha).trans (ih has)

theorem adds_declare {c : ClassDecl} (h : Runs (declare c) s u s') : Adds [] s s' := by
  obtain rfl := runs_declare.1 h
  exact ⟨rfl, .of_eq rfl⟩

theorem adds_defineFields {c : ClassDecl} (h : Runs (defineFields c) s u s') : Adds [] s s' := by
  simp only [defineFields, Runs.bind_iff, Runs.lift_build_iff] at h
  obtain ⟨fields, s₁, htypes, l, s₂, hlayout, t, -, rfl⟩ := h
  obtain ⟨u, -, rfl⟩ := (settles_lowerTypes _ htypes).trans (settles_classLayout hlayout)
  exact ⟨rfl, .of_eq rfl⟩

theorem adds_hoist {classes : List ClassDecl} {functions : List FunctionDecl} {s₁ s₂ : State}
    {u v w : PUnit} (hclasses : Runs (classes.forM declare) s u s₁)
    (hfunctions : Runs (functions.forM declareFunction) s₁ v s₂)
    (hfields : Runs (classes.forM defineFields) s₂ w s') : Adds functions s s' := by
  have h := ((adds_forM (g := fun _ => []) adds_declare hclasses).trans
    (adds_forM (g := fun d => [d]) adds_declareFunction hfunctions)).trans
    (adds_forM (g := fun _ => []) adds_defineFields hfields)
  have hnil : (classes.flatMap fun _ => ([] : List FunctionDecl)) = [] := by simp [List.flatMap_eq_nil_iff]
  simpa [hnil] using h

end Declarations

section Loops

variable {s s' : State} {b : BlockId}

theorem follows_lowerJump {kind : LoopJump} {label : Option String} {u : Unit}
    (h : Runs (lowerJump b kind label) s u s') : Follows ⟨false, [⟨kind, label⟩]⟩ [] s none s' := by
  obtain ⟨inner, f, outer, hloops, hmatch, hinner, h⟩ := runs_lowerJump.1 h
  have hnote : noteJumps [⟨kind, label⟩] (s.loops.map LoopFrame.tally) =
      inner.map LoopFrame.tally ++ f.tally.note kind :: outer.map LoopFrame.tally := by
    have hskip (ts : List Tally) : noteJump ⟨kind, label⟩ (inner.map LoopFrame.tally ++ ts) =
        inner.map LoopFrame.tally ++ noteJump ⟨kind, label⟩ ts := by
      clear hloops h
      induction inner with
      | nil => rfl
      | cons g inner ih =>
        have hg : Jump.means ⟨kind, label⟩ g.tally.label = false := hinner g (by simp)
        rw [List.map_cons, List.cons_append, noteJump, hg, ih fun g' hg' => hinner g' (by simp [hg'])]
        simp
    have hf : Jump.means ⟨kind, label⟩ f.tally.label = true := hmatch
    rw [hloops, List.map_append, List.map_cons]
    change noteJump ⟨kind, label⟩ _ = _
    rw [hskip, noteJump, if_pos hf]
  refine ⟨rfl, hnote.symm ▸ ?_, .of_eq ?_⟩
  · split at h
    case h_1 test exit htargets =>
      obtain ⟨t, -, rfl⟩ := h
      simp [hloops, LoopFrame.tally, LoopTargets.noted, htargets, Tally.note]
    case h_2 leaving repeating htargets =>
      subst h
      cases kind <;> simp [LoopFrame.tally, LoopTargets.noted, htargets, Tally.note, LoopFrame.enqueue,
        LoopTargets.enqueue]
  · split at h
    · obtain ⟨t, -, rfl⟩ := h
      rfl
    · subst h
      rfl

theorem isSome_closeLoop {inside : BlockId} {condition : Expr} {leaving repeating : List BlockId}
    {exit : Option BlockId} (h : Runs (closeLoop b inside condition leaving repeating) s exit s') :
    exit.isSome = (!leaving.isEmpty || (!repeating.isEmpty && !condition.isTrue)) := by
  rcases closeLoop_cases h with ⟨rfl, _, -, hjoin⟩ | ⟨-, htrue, _, _, _, -, -, hjoin⟩ |
    ⟨hmore, htrue, _, _, _, _, _, _, _, _, _, -, -, -, -, -, rfl, -⟩
  · simp [hjoin.isSome]
  · simp [htrue, hjoin.isSome]
  · simp [hmore, htrue]

end Loops

mutual

theorem follows_lowerScope {frame : Option Frame} {b : BlockId} {s s' : State} {o : Option BlockId} :
    (S : Scope) → Runs (lowerScope frame b S) s o s' → Follows S.flow S.live s o s'
  | ⟨classes, functions, statements⟩, h => by
    rw [lowerScope] at h
    simp only [Runs.bind_iff] at h
    obtain ⟨_, s₁, hclasses, _, s₂, hfunctions, _, s₃, hfields, _, s₄, hbodies, hstmts⟩ := h
    have hhoist := adds_hoist hclasses hfunctions hfields
    exact (hhoist.trans (adds_lowerFunctions functions hbodies)).andThen
      (follows_lowerStmts statements hstmts)

theorem adds_lowerFunctions {s s' : State} {u : Unit} :
    (ds : List FunctionDecl) → Runs (lowerFunctions ds) s u s' → Adds (functionsLive ds) s s'
  | [], h => by
    rw [lowerFunctions] at h
    obtain ⟨-, rfl⟩ := Runs.pure_iff.1 h
    exact ⟨rfl, .of_eq rfl⟩
  | d :: ds, h => by
    rw [lowerFunctions] at h
    simp only [Runs.bind_iff] at h
    obtain ⟨_, s₁, hd, hds⟩ := h
    exact (adds_lowerFunction d hd).trans (adds_lowerFunctions ds hds)

theorem adds_lowerFunction {s s' : State} {u : Unit} :
    (d : FunctionDecl) → Runs (lowerFunction d) s u s' → Adds d.live s s'
  | ⟨id, name, result, parameters, body⟩, h => by
    obtain ⟨e, type, s₁, o, s₂, s₃, -, htype, hbody, hend, rfl⟩ := lowerFunction_body h
    have hsettle := (settles_lowerType result htype).adds
    obtain ⟨t, -, rfl⟩ := hend.rebuilds
    exact ⟨hsettle.loops, hsettle.functions.trans (follows_lowerScope body hbody).functions⟩

theorem follows_lowerStmts {frame : Option Frame} {b : BlockId} {s s' : State} {o : Option BlockId} :
    (ss : List Stmt) → Runs (lowerStmts frame b ss) s o s' →
      Follows (stmtsFlow ss) (stmtsLive ss) s o s'
  | [], h => by
    rw [lowerStmts] at h
    obtain ⟨rfl, rfl⟩ := Runs.pure_iff.1 h
    exact (Rebuilds.refl [] _).follows b
  | S :: rest, h => by
    rw [lowerStmts] at h
    simp only [Runs.bind_iff] at h
    obtain ⟨o', s₁, hS, h⟩ := h
    have hfirst := follows_lowerStmt S hS
    cases o' with
    | some c =>
      have hpast : S.flow.past = true := hfirst.past.symm
      rw [stmtsFlow, stmtsLive, if_pos hpast]
      exact hfirst.andThen (follows_lowerStmts rest h)
    | none =>
      have hpast : S.flow.past = false := hfirst.past.symm
      rw [stmtsFlow, stmtsLive, Flow.andThen, hpast]
      obtain ⟨rfl, hquiet⟩ := rebuilds_unreachable h
      simpa using hfirst.close hquiet rfl

theorem follows_lowerStmt {frame : Option Frame} {b : BlockId} {s s' : State} {o : Option BlockId} :
    (S : Stmt) → Runs (lowerStmt frame b S) s o s' → Follows S.flow S.live s o s'
  | .scope body, h => by
    obtain ⟨inner, t, o', s₁, henter, hbody, hjoin⟩ := lowerStmt_scope h
    have hstart := (Rebuilds.of_moves (moves_enter henter)).adds
    refine (hstart.andThen (follows_lowerScope body hbody)).close hjoin.rebuilds ?_
    rw [hjoin.isSome]
    cases o' <;> rfl
  | .jump kind label, h => by
    obtain ⟨rfl, hjump⟩ := lowerStmt_jump h
    exact follows_lowerJump hjump
  | .define type clauses, h => by
    obtain ⟨t, s₁, c, htype, hclauses, rfl⟩ := lowerStmt_define h
    exact (settles_mapM htype).adds.andThen ((leads_lowerClauses hclauses).follows c)
  | .loop kind label condition body, h => by
    by_cases htests : kind.tests condition = true
    · obtain ⟨test, t, tested, s₁, r, inside, exit, t', bottom, s₂, henter, htest, hlast, hbranch, hbody,
        hend, rfl⟩ := lowerStmt_tested htests h
      have hstart := (((Rebuilds.of_moves (moves_enter henter)).trans
        (leads_lowerExpr test condition htest)).trans (rebuilds_branch hlast hbranch)).adds
      have hfollows := follows_lowerScope body hbody
      have hnoted : s₂.loops.tail.map LoopFrame.tally =
          noteJumps (body.flow.jumps.filter (!·.means label)) (s.loops.map LoopFrame.tally) := by
        rw [List.map_tail, hfollows.noted, List.map_cons]
        refine (congrArg List.tail (noteJumps_tested _ _ _)).trans ?_
        rw [List.tail_cons]
        exact congrArg (fun ls => noteJumps _ (ls.map LoopFrame.tally)) hstart.loops
      have hpopped : Follows (Stmt.flow (.loop kind label condition body)) body.live s (some exit)
          { s₂ with loops := s₂.loops.tail } :=
        ⟨by simp [Stmt.flow, Flow.loop, htests], hnoted, hstart.functions.trans hfollows.functions⟩
      exact hpopped.close hend.rebuilds rfl
    · obtain ⟨inside, t, bottom, s₂, label', leaving, repeating, ls, henter, hbody, hloops, hclose⟩ :=
        lowerStmt_queued htests h
      have hfollows := follows_lowerScope body hbody
      obtain ⟨-, hleaves, hrepeats, hrest⟩ := hfollows.queued rfl hloops
      have hpast : o.isSome = (Stmt.flow (.loop kind label condition body)).past := by
        simp [isSome_closeLoop hclose, Stmt.flow, Flow.loop, htests, hleaves, hrepeats]
      have hpopped : Follows (Stmt.flow (.loop kind label condition body)) body.live s o
          { s₂ with loops := ls } := ⟨hpast, hrest, hfollows.functions⟩
      exact hpopped.close (rebuilds_closeLoop hclose) rfl
  | .expr value, h => by
    obtain ⟨c, hvalue, rfl⟩ := lowerStmt_expr h
    exact (leads_lowerExpr b value hvalue).follows c
  | .cond condition first second, h => by
    obtain ⟨c, s₁, r, onTrue, onFalse, t, first', s₂, second', s₃, hcond, hlast, hbranch, hfirst, hsecond,
      hjoin⟩ := lowerStmt_cond h
    have hsplit := ((leads_lowerExpr b condition hcond).trans (rebuilds_branch hlast hbranch)).adds
    have harm := hsplit.andThen (follows_lowerArm first hfirst)
    have harm' := follows_lowerArm second hsecond
    have hboth : Follows (Stmt.flow (.cond condition first second))
        (Stmt.live (.cond condition first second)) s (first' <|> second') s₃ := by
      refine ⟨?_, ?_, harm.functions.trans harm'.functions⟩
      · rw [Stmt.flow, Flow.either, ← harm.past, ← harm'.past]
        cases first' <;> simp
      · rw [harm'.noted, harm.noted]
        exact (noteJumps_append ..).symm
    refine hboth.close hjoin.rebuilds ?_
    rw [hjoin.isSome]
    cases first' <;> cases second' <;> rfl
  | .ret value, h => by
    obtain ⟨rfl, hreturn⟩ := lowerStmt_ret h
    obtain ⟨t, -, rfl⟩ := rebuilds_lowerReturn hreturn
    exact ⟨rfl, rfl, .of_eq rfl⟩

theorem follows_lowerArm {frame : Option Frame} {b : BlockId} {s s' : State} {o : Option BlockId} :
    (S : Option Scope) → Runs (lowerArm frame b S) s o s' → Follows (armFlow S) (armLive S) s o s'
  | some body, h => by
    rw [lowerArm] at h
    exact follows_lowerScope body h
  | none, h => by
    rw [lowerArm] at h
    obtain ⟨rfl, rfl⟩ := Runs.pure_iff.1 h
    exact (Rebuilds.refl [] _).follows b

end

end BlockGraph.Lowering
