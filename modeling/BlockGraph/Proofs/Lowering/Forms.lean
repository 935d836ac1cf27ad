import BlockGraph.Proofs.Lowering.Declarations
import BlockGraph.Proofs.Lowering.Loops

namespace BlockGraph.Lowering

open Builder

variable {b inside : BlockId} {s s' : State} {o : Option BlockId} {t : Builder} {u : Unit}
  {preds leaving repeating : List BlockId}

def Joins (b : BlockId) (preds : List BlockId) (s : State) (o : Option BlockId) (s' : State) : Prop :=
  preds = [] ∧ o = none ∧ s' = s ∨
    preds ≠ [] ∧ ∃ c t, Runs (converge b preds) s.toBuilder c t ∧ o = some c ∧
      s' = { s with toBuilder := t }

theorem joins_leave (inner : Option BlockId) (h : Runs (match inner with
      | some inner => do return some (← leave b inner)
      | none => return none : LowerM (Option BlockId)) s o s') : Joins b inner.toList s o s' := by
  cases inner with
  | none => exact .inl ⟨rfl, Runs.pure_iff.1 h⟩
  | some c =>
    simp only [Runs.bind_iff, Runs.lift_build_iff, Runs.pure_iff] at h
    obtain ⟨d, _, ⟨t, hleave, rfl⟩, rfl, rfl⟩ := h
    exact .inr ⟨by simp, d, t, runs_leave.1 hleave, rfl, rfl⟩

theorem joins_arms {first second : Option BlockId} (h : Runs (match first, second with
      | some first, some second => do return some (← merge b first second)
      | some inner, none | none, some inner => do return some (← leave b inner)
      | none, none => return none : LowerM (Option BlockId)) s o s') :
    Joins b (first.toList ++ second.toList) s o s' := by
  cases first with
  | none =>
    cases second with
    | none => exact joins_leave none h
    | some d => exact joins_leave (some d) h
  | some c =>
    cases second with
    | none => exact joins_leave (some c) h
    | some d =>
      simp only [Runs.bind_iff, Runs.lift_build_iff, Runs.pure_iff] at h
      obtain ⟨e, _, ⟨t, hmerge, rfl⟩, rfl, rfl⟩ := h
      exact .inr ⟨by simp, e, t, hmerge, rfl, rfl⟩

theorem joins_exitLoop (h : Runs (exitLoop b leaving) s.toBuilder o t) :
    Joins b leaving s o { s with toBuilder := t } := by
  simp only [exitLoop, Runs.ite_iff, Runs.bind_iff, Runs.pure_iff] at h
  rcases h with ⟨hempty, rfl, rfl⟩ | ⟨hmore, c, _, hconverge, rfl, rfl⟩
  · exact .inl ⟨List.isEmpty_iff.1 hempty, rfl, rfl⟩
  · exact .inr ⟨by simpa using hmore, c, _, hconverge, rfl, rfl⟩

theorem Joins.rebuilds (h : Joins b preds s o s') : Rebuilds preds s o.toList s' := by
  rcases h with ⟨rfl, rfl, rfl⟩ | ⟨-, c, t, hconverge, rfl, rfl⟩
  · exact .refl _ _
  · exact .of_moves (moves_converge hconverge)

theorem Joins.isSome (h : Joins b preds s o s') : o.isSome = !preds.isEmpty := by
  rcases h with ⟨rfl, rfl, -⟩ | ⟨hmore, c, t, -, rfl, -⟩
  · rfl
  · simpa using hmore

def Repeats (test : BlockId) (bottom : Option BlockId) (s s' : State) : Prop :=
  bottom = none ∧ s' = s ∨ ∃ c t, bottom = some c ∧ Runs (jump c test) s.toBuilder () t ∧
    s' = { s with toBuilder := t }

theorem Repeats.rebuilds {bottom : Option BlockId} (h : Repeats b bottom s s') :
    Rebuilds bottom.toList s [] s' := by
  rcases h with ⟨rfl, rfl⟩ | ⟨c, t, rfl, hjump, rfl⟩
  · exact .refl _ _
  · exact .of_moves (moves_jump hjump).1

theorem continuationType_state {s s' : Builder} {t t' : ValueType}
    (h : Runs (continuationType t) s t' s') : s' = s := by
  cases t with
  | object l =>
    simp only [continuationType, Runs.bind_iff, runs_layout] at h
    obtain ⟨L, _, ⟨-, rfl⟩, h⟩ := h
    split at h <;> simp at h
    exact h.2
  | _ => simp [continuationType] at h

def handBack (name : String) (b : BlockId) (value : Option Register) : LowerM Unit := do
  match (← locals b).returnSlot with
  | none => throw (.missingReturnSlot b)
  | some slot =>
    let type ← continuationType (← typeOf b slot)
    let target ← emit b (.getField slot 0) type
    tell (.returned name b)
    goto b ⟨target, slot :: value.toList⟩

theorem runs_lowerReturn {frame : Option Frame} {value : Option Expr} :
    Runs (lowerReturn frame b value) s u s' ↔
      ∃ name result c r s₁, frame = some ⟨name, result⟩ ∧
        Runs (lowerReturnValue result b value) s (c, r) s₁ ∧ Runs (handBack name c r) s₁ u s' := by
  cases frame with
  | none => simp [lowerReturn]
  | some frame =>
    obtain ⟨name, result⟩ := frame
    constructor
    · intro h
      obtain ⟨⟨c, r⟩, s₁, hvalue, h⟩ := Runs.bind_iff.1 h
      exact ⟨name, result, c, r, s₁, rfl, hvalue, h⟩
    · rintro ⟨_, _, c, r, s₁, ⟨⟩, hvalue, h⟩
      exact Runs.bind_iff.2 ⟨(c, r), s₁, hvalue, h⟩

theorem handBack_cases {name : String} {value : Option Register}
    (h : Runs (handBack name b value) s u s') :
    ∃ B slot type target t t', s.graph.block? b = some B ∧ B.locals.returnSlot = some slot ∧
      Runs (emit b (.getField slot 0) type) s.toBuilder target t ∧
      Runs (goto b ⟨target, slot :: value.toList⟩) t () t' ∧ s' = { s with toBuilder := t' } := by
  simp only [handBack, Runs.bind_iff, Runs.lift_build_iff, runs_locals] at h
  obtain ⟨_, _, ⟨_, ⟨B, hB, rfl, rfl⟩, rfl⟩, h⟩ := h
  split at h
  case h_1 => simp at h
  case h_2 slot hslot =>
    simp only [Runs.bind_iff, Runs.lift_build_iff, runs_tell, runs_typeOf] at h
    obtain ⟨t, _, ⟨_, ⟨_, -, -, rfl⟩, rfl⟩, type, _, ⟨t₂, hcont, rfl⟩, target, _, ⟨_, hload, rfl⟩, _, _,
      ⟨t₃, rfl, rfl⟩, t₄, hgoto, rfl⟩ := h
    obtain rfl := continuationType_state hcont
    exact ⟨B, slot, type, target, t₃, t₄, hB, hslot, hload, hgoto, rfl⟩

def Completes (frame : Frame) (o : Option BlockId) (s s' : State) : Prop :=
  o = none ∧ s' = s ∨ ∃ c, o = some c ∧ Runs (lowerReturn (some frame) c none) s () s'

theorem closeLoop_cases {condition : Expr}
    (h : Runs (closeLoop b inside condition leaving repeating) s o s') :
    (repeating = [] ∧ ∃ t, (t = s.toBuilder ∨ Runs (report .unreachableLoopCondition) s.toBuilder () t) ∧
      Joins b leaving { s with toBuilder := t } o s') ∨
    (repeating ≠ [] ∧ condition.isTrue = true ∧ ∃ c t t', Runs (converge b repeating) s.toBuilder c t ∧
      Runs (jump c inside) t () t' ∧ Joins b leaving { s with toBuilder := t' } o s') ∨
    (repeating ≠ [] ∧ condition.isTrue = false ∧ ∃ c t tested s₁ r again exit t₁ t₂,
      Runs (converge b repeating) s.toBuilder c t ∧
      Runs (lowerExpr c condition) { s with toBuilder := t } tested s₁ ∧
      Runs (lastRegister tested) s₁.toBuilder r s₁.toBuilder ∧
      Runs (convergeBranch b leaving tested r) s₁.toBuilder (again, exit) t₁ ∧
      Runs (jump again inside) t₁ () t₂ ∧ o = some exit ∧ s' = { s₁ with toBuilder := t₂ }) := by
  simp only [closeLoop, Runs.ite_iff, Runs.bind_iff, Runs.lift_build_iff] at h
  rcases h with ⟨hempty, h⟩ | ⟨hmore, ⟨htrue, c, _, ⟨t, hconverge, rfl⟩, _, _, ⟨t', hjump, rfl⟩, t'', hexit,
    rfl⟩ | ⟨htrue, c, _, ⟨t, hconverge, rfl⟩, tested, s₁, htest, r, _, ⟨t', hlast, rfl⟩, ⟨again, exit⟩, _,
      ⟨t'', hbranch, rfl⟩, h⟩⟩
  · refine .inl ⟨List.isEmpty_iff.1 hempty, ?_⟩
    rcases h with ⟨-, _, _, ⟨t, hreport, rfl⟩, t', hexit, rfl⟩ | ⟨-, t', hexit, rfl⟩
    · exact ⟨t, .inr hreport, joins_exitLoop (s := { s with toBuilder := t }) hexit⟩
    · exact ⟨_, .inl rfl, joins_exitLoop hexit⟩
  · exact .inr (.inl ⟨by simpa using hmore, htrue, c, t, t', hconverge, hjump,
      joins_exitLoop (s := { s with toBuilder := t' }) hexit⟩)
  · obtain ⟨-, -, -, rfl⟩ := runs_lastRegister.1 hlast
    simp only [Runs.pure_iff] at h
    obtain ⟨_, _, ⟨t₃, hjump, rfl⟩, rfl, rfl⟩ := h
    exact .inr (.inr ⟨by simpa using hmore, by simpa using htrue, c, t, tested, s₁, r, again, exit, t'', t₃,
      hconverge, htest, hlast, hbranch, hjump, rfl, rfl⟩)

theorem rebuilds_closeLoop {condition : Expr}
    (h : Runs (closeLoop b inside condition leaving repeating) s o s') :
    Rebuilds (leaving ++ repeating) s o.toList s' := by
  rcases closeLoop_cases h with ⟨rfl, t, ht, hjoin⟩ | ⟨-, -, c, t, t', hconverge, hjump, hjoin⟩ |
    ⟨-, -, c, t, tested, s₁, r, again, out, t₁, t₂, hconverge, htest, hlast, hbranch, hjump, rfl, rfl⟩
  · rw [List.append_nil]
    rcases ht with rfl | ht
    · exact hjoin.rebuilds
    · obtain rfl := runs_report.1 ht
      exact (Rebuilds.of_moves ((Moves.report _ _).frame leaving)).trans hjoin.rebuilds
  · refine Rebuilds.perm ?_ List.perm_append_comm .rfl
    exact (Rebuilds.of_moves (((moves_converge hconverge).trans (moves_jump hjump).1).frame leaving)).trans
      hjoin.rebuilds
  · obtain ⟨B, hB, hr, -⟩ := runs_lastRegister.1 hlast
    have hend := (moves_convergeBranch hbranch hB (Block.contains_of_lastRegister? hr)).trans
      ((moves_jump hjump).1.frame [out])
    have htested : Rebuilds [c] _ [tested] s₁ := leads_lowerExpr c condition htest
    refine Rebuilds.perm ?_ List.perm_append_comm .rfl
    refine Rebuilds.trans (Y := tested :: leaving) ?_ (.of_moves hend)
    exact (Rebuilds.of_moves ((moves_converge hconverge).frame leaving)).trans (htested.frame leaving)

section Stmt

variable {frame : Option Frame} {condition : Expr} {body : Scope}

theorem lowerStmt_scope (h : Runs (lowerStmt frame b (.scope body)) s o s') :
    ∃ inner t o' s₁, Runs (enter b) s.toBuilder inner t ∧
      Runs (lowerScope frame inner body) { s with toBuilder := t } o' s₁ ∧ Joins b o'.toList s₁ o s' := by
  rw [lowerStmt] at h
  simp only [Runs.bind_iff, Runs.lift_build_iff] at h
  obtain ⟨inner, _, ⟨t, henter, rfl⟩, o', s₁, hbody, h⟩ := h
  exact ⟨inner, t, o', s₁, henter, hbody, joins_leave o' h⟩

theorem lowerStmt_jump {kind : LoopJump} {label : Option String}
    (h : Runs (lowerStmt frame b (.jump kind label)) s o s') :
    o = none ∧ Runs (lowerJump b kind label) s () s' := by
  rw [lowerStmt] at h
  simp only [Runs.bind_iff, Runs.pure_iff] at h
  obtain ⟨_, _, hjump, rfl, rfl⟩ := h
  exact ⟨rfl, hjump⟩

theorem lowerStmt_define {type : Option SourceType} {clauses : List Clause}
    (h : Runs (lowerStmt frame b (.define type clauses)) s o s') :
    ∃ t s₁ c, Runs (type.mapM lowerType) s t s₁ ∧ Runs (lowerClauses t b clauses) s₁ c s' ∧
      o = some c := by
  rw [lowerStmt] at h
  simp only [Runs.bind_iff, Runs.pure_iff] at h
  obtain ⟨t, s₁, htype, c, _, hclauses, rfl, rfl⟩ := h
  exact ⟨t, s₁, c, htype, hclauses, rfl⟩

theorem settles_mapM {type : Option SourceType} {v : Option ValueType}
    (h : Runs (type.mapM lowerType) s v s') : Rebuilds [] s [] s' := by
  cases type with
  | none =>
    obtain ⟨-, rfl⟩ := Runs.pure_iff.1 h
    exact .refl _ _
  | some type =>
    obtain ⟨_, htype, -⟩ := Runs.map_iff.1 h
    exact settles_lowerType type htype

theorem lowerStmt_expr {value : Expr} (h : Runs (lowerStmt frame b (.expr value)) s o s') :
    ∃ c, Runs (lowerExpr b value) s c s' ∧ o = some c := by
  rw [lowerStmt] at h
  simp only [Runs.bind_iff, Runs.pure_iff] at h
  obtain ⟨c, _, hvalue, rfl, rfl⟩ := h
  exact ⟨c, hvalue, rfl⟩

theorem lowerStmt_ret {value : Option Expr} (h : Runs (lowerStmt frame b (.ret value)) s o s') :
    o = none ∧ Runs (lowerReturn frame b value) s () s' := by
  rw [lowerStmt] at h
  simp only [Runs.bind_iff, Runs.pure_iff] at h
  obtain ⟨_, _, hreturn, rfl, rfl⟩ := h
  exact ⟨rfl, hreturn⟩

theorem lowerStmt_cond {first second : Option Scope}
    (h : Runs (lowerStmt frame b (.cond condition first second)) s o s') :
    ∃ c s₁ r onTrue onFalse t first' s₂ second' s₃, Runs (lowerExpr b condition) s c s₁ ∧
      Runs (lastRegister c) s₁.toBuilder r s₁.toBuilder ∧
      Runs (branch c r) s₁.toBuilder (onTrue, onFalse) t ∧
      Runs (lowerArm frame onTrue first) { s₁ with toBuilder := t } first' s₂ ∧
      Runs (lowerArm frame onFalse second) s₂ second' s₃ ∧
      Joins c (first'.toList ++ second'.toList) s₃ o s' := by
  rw [lowerStmt] at h
  simp only [Runs.bind_iff, Runs.lift_build_iff] at h
  obtain ⟨c, s₁, hcond, r, _, ⟨t, hlast, rfl⟩, ⟨onTrue, onFalse⟩, _, ⟨t', hbranch, rfl⟩, first', s₂,
    hfirst, second', s₃, hsecond, h⟩ := h
  obtain ⟨-, -, -, rfl⟩ := runs_lastRegister.1 hlast
  exact ⟨c, s₁, r, onTrue, onFalse, t', first', s₂, second', s₃, hcond, hlast, hbranch, hfirst, hsecond,
    joins_arms h⟩

section Loop

variable {kind : LoopKind} {label : Option String}

theorem lowerStmt_tested (hkind : (kind = .testFirst && !condition.isTrue) = true)
    (h : Runs (lowerStmt frame b (.loop kind label condition body)) s o s') :
    ∃ test t tested s₁ r inside exit t' bottom s₂, Runs (enter b) s.toBuilder test t ∧
      Runs (lowerExpr test condition) { s with toBuilder := t } tested s₁ ∧
      Runs (lastRegister tested) s₁.toBuilder r s₁.toBuilder ∧
      Runs (branch tested r) s₁.toBuilder (inside, exit) t' ∧
      Runs (lowerScope frame inside body)
        { ({ s₁ with toBuilder := t' } : State) with loops := ⟨label, .known test exit⟩ :: s₁.loops } bottom
        s₂ ∧
      Repeats test bottom { s₂ with loops := s₂.loops.tail } s' ∧ o = some exit := by
  rw [lowerStmt, if_pos hkind] at h
  simp only [Runs.bind_iff, Runs.lift_build_iff] at h
  obtain ⟨test, _, ⟨t, henter, rfl⟩, tested, s₁, htest, r, _, ⟨t', hlast, rfl⟩, ⟨inside, exit⟩, _,
    ⟨t'', hbranch, rfl⟩, _, _, hpush, bottom, s₂, hbody, _, _, hpop, h⟩ := h
  obtain rfl := runs_pushLoop.1 hpush
  obtain rfl := runs_popLoop.1 hpop
  obtain ⟨-, -, -, rfl⟩ := runs_lastRegister.1 hlast
  simp only [Runs.pure_iff] at h
  obtain ⟨_, s₃, hjump, rfl, rfl⟩ := h
  refine ⟨test, t, tested, s₁, r, inside, exit, t'', bottom, s₂, henter, htest, hlast, hbranch, hbody, ?_,
    rfl⟩
  cases bottom with
  | none => exact .inl ⟨rfl, (Runs.pure_iff.1 hjump).2⟩
  | some c =>
    obtain ⟨t₃, hback, rfl⟩ := Runs.lift_build_iff.1 hjump
    exact .inr ⟨c, t₃, rfl, hback, rfl⟩

theorem lowerStmt_queued (hkind : ¬(kind = .testFirst && !condition.isTrue) = true)
    (h : Runs (lowerStmt frame b (.loop kind label condition body)) s o s') :
    ∃ inside t bottom s₂ label' leaving repeating ls, Runs (enter b) s.toBuilder inside t ∧
      Runs (lowerScope frame inside body)
        { ({ s with toBuilder := t } : State) with loops := ⟨label, .queued [] []⟩ :: s.loops } bottom s₂ ∧
      s₂.loops = ⟨label', .queued leaving repeating⟩ :: ls ∧
      Runs (closeLoop b inside condition leaving (repeating ++ bottom.toList)) { s₂ with loops := ls } o
        s' := by
  rw [lowerStmt, if_neg hkind] at h
  simp only [Runs.bind_iff, Runs.lift_build_iff] at h
  obtain ⟨inside, _, ⟨t, henter, rfl⟩, _, _, hpush, bottom, s₂, hbody, ⟨leaving, repeating⟩, _, hpop,
    hclose⟩ := h
  obtain rfl := runs_pushLoop.1 hpush
  obtain ⟨label', ls, hloops, rfl⟩ := runs_popQueued.1 hpop
  exact ⟨inside, t, bottom, s₂, label', leaving, repeating, ls, henter, hbody, hloops, hclose⟩

end Loop

theorem lowerFunction_body {id : FunctionId} {name : String} {result : SourceType}
    {parameters : List Slot}
    (h : Runs (lowerFunction ⟨id, name, result, parameters, body⟩) s u s') :
    ∃ e type s₁ o s₂ s₃, s.functions[id.index]? = some e ∧ Runs (lowerType result) s type s₁ ∧
      Runs (lowerScope (some ⟨name, type⟩) e.entry body) { s₁ with loops := [] } o s₂ ∧
      Completes ⟨name, type⟩ o s₂ s₃ ∧ s' = { s₃ with loops := s₁.loops } := by
  rw [lowerFunction] at h
  simp only [Runs.bind_iff, runs_functionEntry, Runs.get_iff, Runs.modify_iff] at h
  obtain ⟨e, s, ⟨he, rfl⟩, type, _, htype, _, s₁, ⟨rfl, rfl⟩, _, _, rfl, o, s₂, hbody, h⟩ := h
  cases o with
  | none =>
    obtain rfl := Runs.modify_iff.1 h
    exact ⟨e, type, s₁, none, s₂, s₂, he, htype, hbody, .inl ⟨rfl, rfl⟩, rfl⟩
  | some c =>
    simp only [Runs.ite_iff, Runs.bind_iff, Runs.modify_iff, Runs.throw_iff, false_and,
      exists_false, and_false, or_false] at h
    obtain ⟨-, _, s₃, hreturn, rfl⟩ := h
    exact ⟨e, type, s₁, some c, s₂, s₃, he, htype, hbody, .inr ⟨c, rfl, hreturn⟩, rfl⟩

end Stmt

end BlockGraph.Lowering
