import BlockGraph.Proofs.Lowering.Forms

namespace BlockGraph.Lowering

open Builder

variable {b : BlockId} {s s' : State} {u : Unit} {fs : List FunctionId} {X Y : List BlockId}

theorem leads_lowerClauses {type : Option ValueType} {cs : List Clause} :
    Leads Advances b id (lowerClauses type b cs) :=
  traces_lowerClauses

theorem leads_lowerReturnValue {result : ValueType} {value : Option Expr} :
    Leads Advances b Prod.fst (lowerReturnValue result b value) :=
  traces_lowerReturnValue

theorem rebuilds_handBack {name : String} {value : Option Register}
    (h : Runs (handBack name b value) s u s') : Rebuilds [b] s [] s' := by
  obtain ⟨B, slot, type, target, t, t', -, -, hload, hgoto, rfl⟩ := handBack_cases h
  exact .of_moves ((stays_emit rfl hload).toMoves.trans (moves_goto hgoto))

theorem rebuilds_lowerReturn {frame : Option Frame} {value : Option Expr}
    (h : Runs (lowerReturn frame b value) s u s') : Rebuilds [b] s [] s' := by
  obtain ⟨name, result, c, r, s₁, -, hvalue, h⟩ := runs_lowerReturn.1 h
  exact (leads_lowerReturnValue hvalue).trans (rebuilds_handBack h)

theorem Completes.rebuilds {frame : Frame} {o : Option BlockId} (h : Completes frame o s s') :
    Rebuilds o.toList s [] s' := by
  rcases h with ⟨rfl, rfl⟩ | ⟨c, rfl, hreturn⟩
  · exact .refl _ _
  · exact rebuilds_lowerReturn hreturn

theorem rebuilds_unreachable {rest : List Stmt} {o : Option BlockId}
    (h : Runs (do
      if !rest.isEmpty then report .unreachableCode
      return none : LowerM (Option BlockId)) s o s') : o = none ∧ Rebuilds [] s [] s' := by
  simp only [Runs.ite_iff, Runs.bind_iff, Runs.pure_iff, Runs.lift_build_iff, runs_report] at h
  rcases h with ⟨-, _, _, ⟨_, rfl, rfl⟩, rfl, rfl⟩ | ⟨-, rfl, rfl⟩
  · exact ⟨rfl, .of_moves (.report _ _)⟩
  · exact ⟨rfl, .refl _ _⟩

theorem Shifts.restore {cs : List ClassId} (h : Shifts fs cs X { s with loops := [] } Y s') :
    Shifts fs cs X s Y { s' with loops := s.loops } := by
  obtain ⟨E, N, hmoves, hwait, hentries⟩ := h.moves
  have hloops : s'.loops = [] := List.forall₂_nil_left_iff.1 h.loops
  obtain rfl : N = [] := by simpa [hloops, waiting] using hwait
  refine ⟨⟨E, [], hmoves, by simp, hentries⟩, .refl _, h.functions, h.classes, fun hs => ?_⟩
  have hs' := h.registered ⟨hs.entry, hs.entry_inj, hs.layout, hs.layout_inj⟩
  exact ⟨hs'.entry, hs'.entry_inj, hs'.layout, hs'.layout_inj⟩

theorem Shifts.entries {cs : List ClassId} (h : Shifts fs cs X s Y s') {ds : List FunctionDecl}
    {es : List FunctionEntry} (hnew : ∀ d ∈ ds, d.id ∉ fs)
    (hes : List.Forall₂ (fun d e => s.functions[d.id.index]? = some e) ds es) :
    List.Forall₂ (fun d e => s'.functions[d.id.index]? = some e) ds es := by
  refine forall₂_imp_of_mem hes fun d hd e he => ?_
  rw [h.functions d.id.index fun f hf hi => hnew d hd (FunctionId.index_inj.1 hi ▸ hf), he]

theorem shifts_hoist {classes : List ClassDecl} {functions : List FunctionDecl}
    (hnodup : (functions.map (·.id)).Nodup) {s₁ s₂ : State} {u v w : PUnit}
    (hclasses : Runs (classes.forM declare) s u s₁)
    (hfunctions : Runs (functions.forM declareFunction) s₁ v s₂)
    (hfields : Runs (classes.forM defineFields) s₂ w s') :
    ∃ es : List FunctionEntry,
      Shifts (functions.map (·.id)) (classes.map (·.id)) [] s (es.map (·.entry)) s' ∧
      List.Forall₂ (fun d e => s'.functions[d.id.index]? = some e) functions es := by
  obtain ⟨hdeclared, hnew⟩ := shifts_declares hclasses
  obtain ⟨es, hentries, hes⟩ := shifts_declareFunctions hnodup hfunctions
  have hboth : Shifts (functions.map (·.id)) (classes.map (·.id)) [] s (es.map (·.entry)) s₂ :=
    (hdeclared.trans hentries (by simp)).mono (by simp) (by simp)
  have hnew' : ∀ d ∈ classes, ∃ l, s₂.HasClass s.graph.layouts.length d.id l := by
    intro d hd
    obtain ⟨l, hl, hle, L, name, hL, horigin⟩ := hnew d hd
    obtain ⟨E, N, hmoves, -⟩ := hentries.moves
    exact ⟨l, (hentries.classes _ (by simp)).trans hl, hle, L, name, hmoves.layouts _ _ hL, horigin⟩
  obtain ⟨hshift, hsame, -⟩ := shifts_defineFields hboth hnew' hfields
  exact ⟨es, hshift, hes.imp fun d e he => (hsame _).trans he⟩

mutual

theorem shifts_lowerScope {frame : Option Frame} {b : BlockId} {s s' : State} {o : Option BlockId} :
    (S : Scope) → (functionIds S.scopes).Nodup → Runs (lowerScope frame b S) s o s' →
      Shifts (functionIds S.scopes) (classIds S.scopes) [b] s o.toList s'
  | ⟨classes, functions, statements⟩, hnodup, h => by
    rw [lowerScope] at h
    simp only [Runs.bind_iff] at h
    obtain ⟨_, s₁, hclasses, _, s₂, hfunctions, _, s₃, hfields, _, s₄, hbodies, hstmts⟩ := h
    simp only [Scope.scopes, functionIds_cons, functionIds_append, classIds_cons,
      classIds_append] at hnodup ⊢
    obtain ⟨hids, hinner, hdisjoint⟩ := List.nodup_append.1 hnodup
    obtain ⟨hfs, hss, hdisjoint'⟩ := List.nodup_append.1 hinner
    obtain ⟨es, hhoist, hes⟩ := shifts_hoist hids hclasses hfunctions hfields
    have hbody := shifts_lowerFunctions functions (List.nodup_append.2 ⟨hids, hfs, fun f hf f' hf' =>
      hdisjoint f hf f' (List.mem_append_left _ hf')⟩) hes hbodies
    have hrest := shifts_lowerStmts statements hss hstmts
    have hstart := (hhoist.frame [b]).trans (hbody.frame [b]) fun f hf f' hf' =>
      hdisjoint f hf f' (List.mem_append_left _ hf')
    refine (hstart.trans hrest fun f hf f' hf' => ?_).mono (by simp) (by simp)
    rcases List.mem_append.1 hf with hf | hf
    · exact hdisjoint f hf f' (List.mem_append_right _ hf')
    · exact hdisjoint' f hf f' hf'

theorem shifts_lowerFunctions {s s' : State} {u : Unit} {es : List FunctionEntry} :
    (ds : List FunctionDecl) → (ds.map (·.id) ++ functionIds (functionScopes ds)).Nodup →
      List.Forall₂ (fun d e => s.functions[d.id.index]? = some e) ds es →
      Runs (lowerFunctions ds) s u s' →
      Shifts (functionIds (functionScopes ds)) (classIds (functionScopes ds)) (es.map (·.entry)) s []
        s'
  | [], _, hes, h => by
    rw [lowerFunctions] at h
    obtain ⟨-, rfl⟩ := Runs.pure_iff.1 h
    cases hes
    exact .refl _ _
  | d :: ds, hnodup, hes, h => by
    rw [lowerFunctions] at h
    simp only [Runs.bind_iff] at h
    obtain ⟨_, s₁, hd, hds⟩ := h
    cases hes with
    | @cons _ e _ es he hes =>
      simp only [functionScopes, functionIds_append, classIds_append] at hnodup ⊢
      simp only [List.map_cons, List.cons_append, List.nodup_cons, List.nodup_append,
        List.mem_append] at hnodup
      have hfirst := shifts_lowerFunction d (by grind) he hd
      have hes' := hfirst.entries (fun d' hd' hf =>
        hnodup.2.2.2 _ (List.mem_map_of_mem hd') _ (.inl hf) rfl) hes
      have hrest := shifts_lowerFunctions ds (by grind) hes' hds
      exact (hfirst.frame _).trans hrest (by grind)

theorem shifts_lowerFunction {s s' : State} {u : Unit} {e : FunctionEntry} :
    (d : FunctionDecl) → (functionIds d.scopes).Nodup → s.functions[d.id.index]? = some e →
      Runs (lowerFunction d) s u s' →
      Shifts (functionIds d.scopes) (classIds d.scopes) [e.entry] s [] s'
  | ⟨id, name, result, parameters, body⟩, hnodup, he, h => by
    obtain ⟨e', type, s₁, o, s₂, s₃, he', htype, hbody, hend, rfl⟩ := lowerFunction_body h
    obtain rfl : e = e' := Option.some.inj (he.symm.trans he')
    simp only [FunctionDecl.scopes] at hnodup ⊢
    have hshift := shifts_lowerScope body hnodup hbody
    have hsettle := (settles_lowerType _ htype).shifts.frame [e.entry]
    exact (hsettle.trans (hshift.andThen hend.rebuilds.shifts).restore (by simp)).mono (by simp) (by simp)

theorem shifts_lowerStmts {frame : Option Frame} {b : BlockId} {s s' : State} {o : Option BlockId} :
    (ss : List Stmt) → (functionIds (stmtScopes ss)).Nodup → Runs (lowerStmts frame b ss) s o s' →
      Shifts (functionIds (stmtScopes ss)) (classIds (stmtScopes ss)) [b] s o.toList s'
  | [], _, h => by
    rw [lowerStmts] at h
    obtain ⟨rfl, rfl⟩ := Runs.pure_iff.1 h
    exact .refl _ _
  | S :: rest, hnodup, h => by
    rw [lowerStmts] at h
    simp only [Runs.bind_iff] at h
    obtain ⟨o', s₁, hS, h⟩ := h
    simp only [stmtScopes, functionIds_append, classIds_append] at hnodup ⊢
    obtain ⟨hfirst, hsecond, hdisjoint⟩ := List.nodup_append.1 hnodup
    have hshift := shifts_lowerStmt S hfirst hS
    cases o' with
    | some c => exact hshift.trans (shifts_lowerStmts rest hsecond h) hdisjoint
    | none =>
      obtain ⟨rfl, hquiet⟩ := rebuilds_unreachable h
      exact (hshift.andThen hquiet.shifts).mono (by simp +contextual) (by simp +contextual)

theorem shifts_lowerStmt {frame : Option Frame} {b : BlockId} {s s' : State} {o : Option BlockId} :
    (S : Stmt) → (functionIds S.scopes).Nodup → Runs (lowerStmt frame b S) s o s' →
      Shifts (functionIds S.scopes) (classIds S.scopes) [b] s o.toList s'
  | .scope body, hnodup, h => by
    obtain ⟨inner, t, o', s₁, henter, hbody, hjoin⟩ := lowerStmt_scope h
    rw [Stmt.scopes] at hnodup ⊢
    have hstart : Shifts [] [] [b] s [inner] { s with toBuilder := t } := .of_moves (moves_enter henter)
    exact (hstart.trans (shifts_lowerScope body hnodup hbody) (by simp)).andThen hjoin.rebuilds.shifts
  | .jump kind label, _, h => by
    obtain ⟨rfl, hjump⟩ := lowerStmt_jump h
    exact shifts_lowerJump hjump
  | .define type clauses, _, h => by
    obtain ⟨t, s₁, c, htype, hclauses, rfl⟩ := lowerStmt_define h
    exact ((settles_mapM htype).shifts.frame [b]).andThen (leads_lowerClauses hclauses).shifts
  | .loop kind label condition body, hnodup, h => by
    rw [Stmt.scopes] at hnodup ⊢
    by_cases hkind : (kind = .testFirst && !condition.isTrue) = true
    · obtain ⟨test, t, tested, s₁, r, inside, exit, t', bottom, s₂, henter, htest, hlast, hbranch, hbody,
        hend, rfl⟩ := lowerStmt_tested hkind h
      have hstart : Shifts [] [] [b] s [inside, exit] _ :=
        (((Rebuilds.of_moves (moves_enter henter)).trans (leads_lowerExpr test condition htest)).trans
          (rebuilds_branch hlast hbranch)).shifts
      obtain ⟨f', ls, hloops, hgrow, hshift⟩ := (shifts_lowerScope body hnodup hbody).pop rfl
      have hwait : f'.targets.waiting = [] := by
        obtain ⟨-, htargets⟩ := hgrow
        cases hf : f'.targets with
        | known _ _ => rfl
        | queued _ _ =>
          rw [hf] at htargets
          cases htargets
      rw [hwait, List.append_nil] at hshift
      rw [hloops, List.tail_cons] at hend
      exact (hstart.trans (hshift.frame [exit]) (by simp)).andThen (hend.rebuilds.shifts.frame [exit])
    · obtain ⟨inside, t, bottom, s₂, label', leaving, repeating, ls', henter, hbody, hloops', hclose⟩ :=
        lowerStmt_queued hkind h
      obtain ⟨f', ls, hloops, -, hshift⟩ := (shifts_lowerScope body hnodup hbody).pop rfl
      obtain ⟨rfl, rfl⟩ := List.cons.inj (hloops.symm.trans hloops')
      have hstart : Shifts [] [] [b] s [inside] _ := .of_moves (moves_enter henter)
      refine (hstart.trans hshift (by simp)).andThen ((rebuilds_closeLoop hclose).shifts.perm ?_ .rfl)
      simp only [LoopTargets.waiting]
      grind
  | .expr value, _, h => by
    obtain ⟨c, hvalue, rfl⟩ := lowerStmt_expr h
    exact (leads_lowerExpr b value hvalue).shifts
  | .cond condition first second, hnodup, h => by
    obtain ⟨c, s₁, r, onTrue, onFalse, t, first', s₂, second', s₃, hcond, hlast, hbranch, hfirst, hsecond,
      hjoin⟩ := lowerStmt_cond h
    rw [Stmt.scopes, functionIds_append] at hnodup
    rw [Stmt.scopes, functionIds_append, classIds_append]
    obtain ⟨hleft, hright, hdisjoint⟩ := List.nodup_append.1 hnodup
    have hsplit : Shifts [] [] [b] s [onTrue, onFalse] _ :=
      ((leads_lowerExpr b condition hcond).trans (rebuilds_branch hlast hbranch)).shifts
    have harm := (shifts_lowerArm first hleft hfirst).frame [onFalse]
    have harm' := (shifts_lowerArm second hright hsecond).frame first'.toList
    have harms := (hsplit.trans harm (by simp)).trans (harm'.perm List.perm_append_comm .rfl) hdisjoint
    exact harms.andThen (hjoin.rebuilds.shifts.perm List.perm_append_comm .rfl)
  | .ret value, _, h => by
    obtain ⟨rfl, hreturn⟩ := lowerStmt_ret h
    exact (rebuilds_lowerReturn hreturn).shifts

theorem shifts_lowerArm {frame : Option Frame} {b : BlockId} {s s' : State} {o : Option BlockId} :
    (S : Option Scope) → (functionIds (armScopes S)).Nodup → Runs (lowerArm frame b S) s o s' →
      Shifts (functionIds (armScopes S)) (classIds (armScopes S)) [b] s o.toList s'
  | some body, hnodup, h => by
    rw [lowerArm] at h
    exact shifts_lowerScope body hnodup h
  | none, _, h => by
    rw [lowerArm] at h
    obtain ⟨rfl, rfl⟩ := Runs.pure_iff.1 h
    exact .refl _ _

end

end BlockGraph.Lowering
