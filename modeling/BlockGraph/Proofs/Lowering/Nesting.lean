import BlockGraph.Proofs.Lowering.Zones

namespace BlockGraph.Lowering

open Builder

variable {z : Zone} {X : List BlockId} {b c : BlockId} {s s' : State} {t : Builder} {u : Unit}
  {ls : List LoopFrame} {leaving repeating : List BlockId} {exit bottom : Option BlockId}
  {inside context : BlockId} {condition : Expr} {t₀ t₁ t₂ : Builder}

theorem confines_jump (hc : c ≠ z.entry) (h : Runs (jump b c) s.toBuilder u t) :
    Confines z [b, c] s [] { s with toBuilder := t } := by
  refine Confines.mono (Y := [c]) (.of_moves ((moves_jump h).1.frame [c]) fun hs hX => ?_)
    (by simp) (by simp)
  have hinner := hX c (by simp)
  exact ⟨zoned_jump hs (hX b (by simp)) ⟨hinner, hc⟩ h, by simpa using hinner⟩

theorem confines_loops (h : ∀ ω, Encloses s.graph ω z s.loops → (∀ b ∈ X, s.graph.Inside ω z b) →
      Encloses s.graph ω z ls) : Confines z X s X { s with loops := ls } :=
  fun ω hs hX => ⟨ω, fun _ _ h => h, ⟨hs.graph, hs.entries, h ω hs.loops hX⟩, hX⟩

theorem confines_lowerJump {kind : LoopJump} {label : Option String}
    (h : Runs (lowerJump b kind label) s u s') : Confines z [b] s [] s' := by
  obtain ⟨inner, f, outer, hloops, -, -, h⟩ := runs_lowerJump.1 h
  split at h
  case h_1 test exit htargets =>
    obtain ⟨t, ht, rfl⟩ := h
    intro ω hs hX
    have hgoal : LoopJump.target test exit kind ∈ f.targets.goals := by
      rw [htargets]
      cases kind <;> simp [LoopTargets.goals, LoopJump.target]
    obtain ⟨hin, hne⟩ := hs.loops.goals f (by simp [hloops]) _ hgoal
    exact confines_jump hne ht hs (by simpa using ⟨hX b (by simp), hin⟩)
  case h_2 leaving repeating htargets =>
    subst h
    refine Confines.mono (confines_loops (X := [b]) fun ω hs hb => ⟨fun d hd => ?_, fun g hg => ?_⟩)
      (by simp) (by simp)
    · have hwait := LoopTargets.enqueue_waiting leaving repeating kind b
      simp only [waiting_append, waiting_cons, List.mem_append, LoopFrame.enqueue, htargets,
        hwait.mem_iff] at hd
      have hold : d = b ∨ d ∈ waiting s.loops := by
        simp only [hloops, waiting_append, waiting_cons, List.mem_append, htargets,
          LoopTargets.waiting]
        grind
      rcases hold with rfl | hold
      · exact hb d (by simp)
      · exact hs.waiting d hold
    · have hcases : g = f.enqueue kind b ∨ g ∈ s.loops := by
        rw [hloops]
        grind
      rcases hcases with rfl | hg
      · cases kind <;> simp [LoopFrame.enqueue, htargets, LoopTargets.enqueue, LoopTargets.goals]
      · exact hs.goals g hg

theorem confines_joins (h : Joins b leaving s exit s') :
    Confines z (b :: leaving) s exit.toList s' := by
  rcases h with ⟨-, rfl, rfl⟩ | ⟨-, c, t, hconverge, rfl, rfl⟩
  · exact (Confines.refl _ _).mono (fun _ h => h) (by simp)
  · exact confines_converge hconverge

theorem confines_report {d : Diagnostic} (h : Runs (report d) s.toBuilder u t) :
    Confines z X s X { s with toBuilder := t } := by
  obtain rfl := runs_report.1 h
  exact .of_blocks (fun _ => rfl) rfl rfl

theorem confines_closeLoop (hinside : inside ≠ z.entry)
    (h : Runs (closeLoop b inside condition leaving repeating) s exit s') :
    Confines z (b :: inside :: (leaving ++ repeating)) s exit.toList s' := by
  rcases closeLoop_cases h with ⟨-, t, ht, hjoin⟩ | ⟨-, -, c, t, t', hconverge, hjump, hjoin⟩ |
    ⟨-, -, c, t, tested, s₁, r, again, out, t₁, t₂, hconverge, htest, hlast, hbranch, hjump, rfl, rfl⟩
  · rcases ht with rfl | ht
    · exact (confines_joins hjoin).mono (by grind) (by simp)
    · exact ((confines_report ht).trans (confines_joins hjoin)).mono (by grind) (by simp)
  · have hstart := ((confines_converge (z := z) hconverge).frame (b :: inside :: leaving)).mono
      (A := b :: inside :: (leaving ++ repeating)) (D := [c, inside] ++ (b :: leaving))
      (by grind) (by grind)
    have hback := (confines_jump (s := { s with toBuilder := t }) hinside hjump).frame (b :: leaving)
    exact (hstart.trans hback).trans (confines_joins hjoin)
  · have hstart := ((confines_converge (z := z) hconverge).frame (b :: inside :: leaving)).mono
      (A := b :: inside :: (leaving ++ repeating)) (D := [c] ++ (b :: inside :: leaving))
      (by grind) (by grind)
    have hcond := confines_lowerExpr (z := z) htest
    have hsplit := ((confines_convergeBranch (z := z) hlast hbranch).frame [inside]).mono
      (A := [tested] ++ (b :: inside :: leaving)) (D := [again, inside] ++ [out])
      (by grind) (by grind)
    have hback := (confines_jump (s := { s₁ with toBuilder := t₁ }) hinside hjump).frame [out]
    exact ((hstart.trans (hcond.frame (b :: inside :: leaving))).trans hsplit).trans hback

theorem confines_lowerReturn {frame : Option Frame} {value : Option Expr}
    (h : Runs (lowerReturn frame b value) s u s') : Confines z [b] s [] s' := by
  obtain ⟨name, result, c, r, s₁, -, hvalue, h⟩ := runs_lowerReturn.1 h
  have hstart : Confines z [b] s [c] s₁ :=
    traces_lowerReturnValue (R := fun b s c s' => Confines z [b] s [c] s') hvalue
  obtain ⟨B, slot, type, target, t, t', -, -, hload, hgoto, rfl⟩ := handBack_cases h
  refine (hstart.trans (confines_writes (stays_emit rfl hload))).trans
    (.of_moves (moves_goto hgoto) fun hs hX => ?_)
  exact ⟨zoned_goto hs (hX c (by simp)) hgoto, by simp⟩

theorem exists_entry {l : LayoutId} {ps : List Parameter} {entry : BlockId} {n : Nat} {v : Unit}
    {t₃ : Builder} (hadd : Runs (addBlock (⟨.object l, none⟩ :: ps)) t₀ entry t₁)
    (hset : Runs (setLocals entry { returnSlot := some ⟨0⟩ }) t₁ u t₂)
    (hdefine : Runs (defineParameters entry n ps) t₂ v t₃) :
    t₀.graph.block? entry = none ∧ (∀ c, c ≠ entry → t₃.graph.block? c = t₀.graph.block? c) ∧
      ∃ B, t₃.graph.block? entry = some B ∧ B.signature = {} ∧ B.parameters ≠ [] ∧
        B.HasSlot (some (.object l)) ∧ B.referenced = [] := by
  obtain ⟨rfl, rfl⟩ := runs_addBlock.1 hadd
  obtain ⟨-, rfl⟩ := runs_setLocals.1 hset
  have hwrite := stays_defineParameters hdefine
  let B : Block := { id := t₀.graph.nextId, parameters := ⟨.object l, none⟩ :: ps }
  have hB : (t₀.appendBlock B).graph.block? t₀.graph.nextId = some B := by
    rw [appendBlock_block?, if_pos rfl]
  obtain ⟨B', hB', hext⟩ := hwrite.graph_extends _ _ (updateBlock_self hB _)
  obtain ⟨B'', hB'', hrefs, hslot, -⟩ := hwrite.plain _ B' hB'
  obtain rfl := Option.some.inj ((updateBlock_self hB _).symm.trans hB'')
  refine ⟨t₀.graph.block?_nextId, fun c hc => ?_, B', hB', hext.signature, ?_, ?_, hrefs⟩
  · rw [hwrite.other hc, updateBlock_other _ hc, appendBlock_block?, if_neg hc]
  · rw [hext.parameters]
    simp [B]
  · have hfirst : (B.withLocals { returnSlot := some ⟨0⟩ }).HasSlot (some (.object l)) :=
      List.Forall₂.cons rfl .nil
    exact hfirst.mono hext hslot

theorem functions_insert_eq_some {f : FunctionId} {e : FunctionEntry} {s : State}
    (hnew : s.functions[f.index]? = none) (k : Nat) (e' : FunctionEntry) :
    (s.functions.insert f.index e)[k]? = some e' ↔
      (f.index = k ∧ e = e') ∨ s.functions[k]? = some e' := by
  rw [Std.TreeMap.getElem?_insert]
  split
  case isTrue hk =>
    obtain rfl := Nat.compare_eq_eq.1 hk
    simp [hnew]
  case isFalse hk => simp_all

theorem confines_declareFunction {f : FunctionDecl} (hnew : s.functions[f.id.index]? = none)
    (h : Runs (declareFunction f) s u s') : Confines z X s X s' := by
  obtain ⟨result, t₁, returns, t₂, types, t₃, entry, t₄, t₅, t₆, hresult, hreturns, htypes, hadd, hset,
    hdefine, rfl⟩ := declareFunction_cases h
  have hsettle : Rebuilds [] s [] t₃ := ((settles_lowerType _ hresult).trans
    (settles_returnLayout hreturns)).trans (settles_lowerTypes _ htypes)
  obtain ⟨hfresh, hother, B, hB, hsig, hparams, hslot, hrefs⟩ := exists_entry hadd hset hdefine
  have hnew' : t₃.functions[f.id.index]? = none :=
    (hsettle.shifts.functions _ (by simp)).trans hnew
  refine (Confines.of_rebuilds hsettle).trans fun ω hs hX => ?_
  let e : FunctionEntry := ⟨f.name, entry, returns⟩
  let ω' := Function.update ω entry ⟨entry, some (.object returns)⟩
  have hlookup := functions_insert_eq_some (e := e) hnew'
  have hkept {z : Zone} {b : BlockId} (hb : t₃.graph.Inside ω z b) : t₆.graph.Inside ω' z b := by
    obtain ⟨hz, C, hC⟩ := hb
    have hbe : b ≠ entry := by
      rintro rfl
      simp [hfresh] at hC
    exact ⟨(Function.update_of_ne hbe ..).trans hz, C, (hother b hbe).trans hC⟩
  refine ⟨ω', fun b z hb => hkept hb, ⟨?_, ?_, ?_⟩, fun b hb => hkept (hX b hb)⟩
  · refine hs.graph.begin hfresh hother hB hslot hrefs ?_
    rintro c ⟨k, e', he', rfl⟩
    exact ⟨k, e', (hlookup k e').2 (.inr he'), rfl⟩
  · intro k e' he'
    rcases (hlookup k e').1 he' with ⟨-, rfl⟩ | he'
    · exact ⟨Function.update_self .., B, hB, hsig, hparams⟩
    · obtain ⟨hzone, C, hC, hsig', hparams'⟩ := hs.entries k e' he'
      obtain ⟨hzone', -⟩ := hkept ⟨hzone, C, hC⟩
      have hbe : e'.entry ≠ entry := by
        intro heq
        simp [heq, hfresh] at hC
      exact ⟨hzone', C, (hother _ hbe).trans hC, hsig', hparams'⟩
  · exact hs.loops.mono fun b hb => hkept hb

theorem confines_declareFunctions {ds : List FunctionDecl} {u : PUnit}
    (hnodup : (ds.map (·.id)).Nodup) (hnew : Unknown (ds.map (·.id)) [] s)
    (h : Runs (ds.forM declareFunction) s u s') : Confines z X s X s' := by
  induction ds generalizing s with
  | nil =>
    obtain rfl := Runs.forM_nil.1 h
    exact .refl _ _
  | cons d ds ih =>
    obtain ⟨s₁, hd, hds⟩ := Runs.forM_cons.1 h
    simp only [List.map_cons, List.nodup_cons] at hnodup hnew
    obtain ⟨e, hshift, -⟩ := shifts_declareFunction hd
    have hrest : Unknown (ds.map (·.id)) [] s₁ :=
      (hnew.mono (by simp +contextual) (by simp)).after hshift (by grind) (by simp)
    exact (confines_declareFunction (hnew.functions _ (by simp)) hd).trans (ih hnodup.2 hrest hds)

theorem confines_forM {α : Type} {f : α → LowerM PUnit} {as : List α} {u : PUnit}
    (hf : ∀ {a s v s'}, Runs (f a) s v s' → Confines z X s X s') (h : Runs (as.forM f) s u s') :
    Confines z X s X s' := by
  induction as generalizing s with
  | nil =>
    obtain rfl := Runs.forM_nil.1 h
    exact .refl _ _
  | cons a as ih =>
    obtain ⟨s₁, ha, has⟩ := Runs.forM_cons.1 h
    exact (hf ha).trans (ih has)

theorem confines_declare {d : ClassDecl} (h : Runs (declare d) s u s') : Confines z X s X s' := by
  obtain rfl := runs_declare.1 h
  exact .of_blocks (fun _ => rfl) rfl rfl

theorem confines_defineFields {d : ClassDecl} (h : Runs (defineFields d) s u s') :
    Confines z X s X s' := by
  simp only [defineFields, Runs.bind_iff, Runs.lift_build_iff] at h
  obtain ⟨fields, s₁, htypes, l, s₂, hlayout, t, hdefine, rfl⟩ := h
  obtain ⟨-, rfl⟩ := runs_defineClass.1 hdefine
  refine ((Confines.of_rebuilds (settles_lowerTypes _ htypes)).trans
    (.of_rebuilds (settles_classLayout hlayout))).trans ?_
  exact .of_blocks (fun _ => rfl) rfl rfl

theorem confines_body {e : FunctionEntry} {k : Nat} (he : s.functions[k]? = some e)
    (h : Confines ⟨e.entry, some (.object e.returns)⟩ [e.entry] { s with loops := [] } [] s') :
    Confines z X s X { s' with loops := s.loops } := by
  intro ω hs hX
  let f : Zone := ⟨e.entry, some (.object e.returns)⟩
  obtain ⟨hzone, B, hB, -⟩ := hs.entries k e he
  have hentry : s.graph.Inside ω f e.entry := ⟨hzone, B, hB⟩
  have hstart : ({ s with loops := [] } : State).Zoned (s.graph.refill ω f) f := by
    refine ⟨hs.graph.refill ⟨B, hB⟩, fun k' e' he' => ?_, by simp [waiting], by simp⟩
    obtain ⟨hzone', B', hB', hentry'⟩ := hs.entries k' e' he'
    exact ⟨(Graph.refill_of_some hB').trans hzone', B', hB', hentry'⟩
  obtain ⟨ω₁, hw, hs', -⟩ := h hstart (by simpa using hentry.refill f)
  have hback {z' : Zone} {b : BlockId} (hb : s.graph.Inside ω z' b) :
      s'.graph.Inside (s'.graph.refill ω₁ z) z' b := (hw b z' (hb.refill f)).refill z
  obtain ⟨C, hC⟩ := hs.graph.entry
  obtain ⟨-, hC'⟩ := hback ⟨rfl, C, hC⟩
  refine ⟨s'.graph.refill ω₁ z, fun b z' hb => hback hb,
    ⟨hs'.graph.refill hC', fun k' e' he' => ?_, hs.loops.mono fun b hb => hback hb⟩,
    fun b hb => hback (hX b hb)⟩
  obtain ⟨hzone', B', hB', hentry'⟩ := hs'.entries k' e' he'
  exact ⟨(Graph.refill_of_some hB').trans hzone', B', hB', hentry'⟩

theorem converge_fresh {preds : List BlockId} (h : Runs (converge context preds) t₀ c t) :
    t₀.graph.block? c = none := by
  simp only [converge, Runs.bind_iff, Runs.pure_iff] at h
  obtain ⟨_, t₁, hchild, _, _, -, rfl, -⟩ := h
  obtain ⟨i, -, rfl, -⟩ := runs_newChild.1 hchild
  exact t₀.graph.block?_nextId

theorem branch_fresh {d : BlockId} {r : Register} (h : Runs (branch b r) t₀ (c, d) t) :
    t₀.graph.block? d = none := by
  simp only [branch, Runs.bind_iff, Runs.pure_iff, Prod.mk.injEq] at h
  obtain ⟨_, t₁, hc, _, t₂, hd, _, _, -, ⟨-, rfl⟩, -⟩ := h
  have hext := (moves_newChild hc).graph_extends
  obtain ⟨i, -, rfl, -⟩ := runs_newChild.1 hd
  by_contra hsome
  obtain ⟨B, hB⟩ := Option.ne_none_iff_exists'.1 hsome
  obtain ⟨B', hB', -⟩ := hext _ B hB
  simp [Graph.block?_nextId] at hB'

theorem ne_of_fresh {g : Graph} {e : BlockId} (he : ∃ B, g.block? e = some B)
    (hc : g.block? c = none) : c ≠ e := by
  rintro rfl
  simp [hc] at he

theorem confines_enter (h : Runs (enter b) s.toBuilder c t) :
    Confines z [b] s [c] { s with toBuilder := t } :=
  (confines_converge (runs_enter.1 h)).mono (by simp) (by simp)

theorem confines_testedLoop {label : Option String} {test tested exit : BlockId} {r : Register}
    {s₁ s₂ : State} (henter : Runs (enter b) s.toBuilder test t₁)
    (htest : Runs (lowerExpr test condition) { s with toBuilder := t₁ } tested s₁)
    (hlast : Runs (lastRegister tested) s₁.toBuilder r s₁.toBuilder)
    (hbranch : Runs (branch tested r) s₁.toBuilder (inside, exit) t₂) (hbody : Confines z [inside]
      { s₁ with toBuilder := t₂, loops := ⟨label, .known test exit⟩ :: s₁.loops } bottom.toList s₂)
    (hend : Repeats test bottom { s₂ with loops := s₂.loops.tail } s') : Confines z [b] s [exit] s' := by
  apply Confines.of_entry
  rintro ⟨B, hB⟩
  have hstart : Rebuilds [b] s [tested] s₁ :=
    (Rebuilds.of_moves (moves_enter henter)).trans (leads_lowerExpr test condition htest)
  have hne : test ≠ z.entry := ne_of_fresh ⟨B, hB⟩ (converge_fresh (runs_enter.1 henter))
  have hne' : exit ≠ z.entry := by
    obtain ⟨B', hB', -⟩ := hstart.shifts.graph_extends _ B hB
    exact ne_of_fresh ⟨B', hB'⟩ (branch_fresh hbranch)
  have hcond := confines_lowerExpr (z := z) htest
  have hsplit := (confines_enter henter).trans (hcond.keep.trans
    ((confines_branch (z := z) hlast hbranch).frame [test]))
  have hpush : Confines z [inside, exit, test] { s₁ with toBuilder := t₂ } [inside, exit, test]
      { s₁ with toBuilder := t₂, loops := ⟨label, .known test exit⟩ :: s₁.loops } := by
    refine confines_loops fun ω hs hX => ⟨by simpa [LoopTargets.waiting] using hs.waiting, ?_⟩
    simp only [List.forall_mem_cons]
    refine ⟨?_, hs.goals⟩
    simpa [LoopTargets.goals, hne, hne'] using ⟨hX test (by simp), hX exit (by simp)⟩
  have hpop {X : List BlockId} : Confines z X s₂ X { s₂ with loops := s₂.loops.tail } :=
    confines_loops fun ω hs _ => by
      cases hloops : s₂.loops with
      | nil => simpa [hloops] using hs
      | cons f ls =>
        rw [hloops] at hs
        exact hs.tail
  have hrun := ((hsplit.trans hpush).trans (hbody.frame [exit, test])).trans hpop
  refine hrun.trans ?_
  rcases hend with ⟨rfl, rfl⟩ | ⟨c, t₃, rfl, hback, rfl⟩
  · exact (Confines.refl _ _).mono (fun _ h => h) (by simp)
  · exact ((confines_jump (s := { s₂ with loops := s₂.loops.tail }) hne hback).frame [exit]).mono
      (by grind) (by simp)

theorem confines_queuedLoop {label label' : Option String} {s₂ : State}
    (henter : Runs (enter b) s.toBuilder inside t) (hbody : Confines z [inside]
      { s with toBuilder := t, loops := ⟨label, .queued [] []⟩ :: s.loops } bottom.toList s₂)
    (hloops : s₂.loops = ⟨label', .queued leaving repeating⟩ :: ls)
    (hclose : Runs (closeLoop b inside condition leaving (repeating ++ bottom.toList))
      { s₂ with loops := ls } exit s') : Confines z [b] s exit.toList s' := by
  apply Confines.of_entry
  intro hz
  have hne : inside ≠ z.entry := ne_of_fresh hz (converge_fresh (runs_enter.1 henter))
  have hpush : Confines z [inside, b] { s with toBuilder := t } [inside, b]
      { s with toBuilder := t, loops := ⟨label, .queued [] []⟩ :: s.loops } := by
    refine confines_loops fun ω hs hX => ⟨by simpa [LoopTargets.waiting] using hs.waiting, ?_⟩
    simpa [LoopTargets.goals] using hs.goals
  -- the blocks that wait in the loop are in the zone
  have hpop : Confines z (bottom.toList ++ [inside, b]) s₂
      (b :: inside :: (leaving ++ (repeating ++ bottom.toList))) { s₂ with loops := ls } := by
    intro ω hs hX
    have hwait := hs.loops.waiting
    rw [hloops] at hwait
    have htail := hs.loops
    rw [hloops] at htail
    refine ⟨ω, fun _ _ h => h, ⟨hs.graph, hs.entries, htail.tail⟩, fun c hc => ?_⟩
    have hcases : c ∈ bottom.toList ++ [inside, b] ∨ c ∈ leaving ++ repeating := by grind
    rcases hcases with hc | hc
    · exact hX c hc
    · exact hwait c (by rw [waiting_cons]; exact List.mem_append_left _ hc)
  have hstart := (confines_enter (z := z) henter).keep.trans hpush
  have hinner := ((hbody.frame [b]).keep).mono (A := [inside, b])
    (D := bottom.toList ++ [inside, b]) (by simp) (by simp; grind)
  exact ((hstart.trans hinner).trans hpop).trans (confines_closeLoop hne hclose)

mutual

theorem confines_lowerScope {frame : Option Frame} {z : Zone} {b : BlockId} {s s' : State}
    {o : Option BlockId} :
    (S : Scope) → (functionIds S.scopes).Nodup → Unknown (functionIds S.scopes) [] s →
      Runs (lowerScope frame b S) s o s' → Confines z [b] s o.toList s'
  | ⟨classes, functions, statements⟩, hnodup, hnew, h => by
    rw [lowerScope] at h
    simp only [Runs.bind_iff] at h
    obtain ⟨_, s₁, hclasses, _, s₂, hfunctions, _, s₃, hfields, _, s₄, hbodies, hstmts⟩ := h
    simp only [Scope.scopes, functionIds_cons, functionIds_append] at hnodup hnew
    obtain ⟨hids, hinner, hdisjoint⟩ := List.nodup_append.1 hnodup
    obtain ⟨hfs, hss, hdisjoint'⟩ := List.nodup_append.1 hinner
    obtain ⟨hdeclared, -⟩ := shifts_declares hclasses
    obtain ⟨es, hhoist, hes⟩ := shifts_hoist hids hclasses hfunctions hfields
    have hnodup' : (functions.map (·.id) ++ functionIds (functionScopes functions)).Nodup :=
      List.nodup_append.2 ⟨hids, hfs, fun f hf f' hf' => hdisjoint f hf f' (List.mem_append_left _ hf')⟩
    have hbody := shifts_lowerFunctions functions hnodup' hes hbodies
    have hnew₁ : Unknown (functions.map (·.id)) [] s₁ :=
      (hnew.mono (by simp +contextual) (by simp)).after hdeclared (by simp) (by simp)
    have hnew₃ : Unknown (functionIds (functionScopes functions)) [] s₃ :=
      (hnew.mono (by simp +contextual) (by simp)).after hhoist
        (fun f hf f' hf' => hdisjoint f hf f' (List.mem_append_left _ hf')) (by simp)
    have hnew₄ : Unknown (functionIds (stmtScopes statements)) [] s₄ :=
      ((hnew.mono (by simp +contextual) (by simp)).after hhoist
        (fun f hf f' hf' => hdisjoint f hf f' (List.mem_append_right _ hf')) (by simp)).after hbody
          hdisjoint' (by simp)
    have hstart : Confines z [b] s [b] s₃ := ((confines_forM confines_declare hclasses).trans
      (confines_declareFunctions hids hnew₁ hfunctions)).trans
        (confines_forM confines_defineFields hfields)
    exact (hstart.trans (confines_lowerFunctions functions hnodup' hnew₃ hes hbodies)).trans
      (confines_lowerStmts statements hss hnew₄ hstmts)

theorem confines_lowerFunctions {z : Zone} {X : List BlockId} {s s' : State} {u : Unit}
    {es : List FunctionEntry} :
    (ds : List FunctionDecl) → (ds.map (·.id) ++ functionIds (functionScopes ds)).Nodup →
      Unknown (functionIds (functionScopes ds)) [] s →
      List.Forall₂ (fun d e => s.functions[d.id.index]? = some e) ds es →
      Runs (lowerFunctions ds) s u s' → Confines z X s X s'
  | [], _, _, _, h => by
    rw [lowerFunctions] at h
    obtain ⟨-, rfl⟩ := Runs.pure_iff.1 h
    exact .refl _ _
  | d :: ds, hnodup, hnew, hes, h => by
    rw [lowerFunctions] at h
    simp only [Runs.bind_iff] at h
    obtain ⟨_, s₁, hd, hds⟩ := h
    cases hes with
    | @cons _ e _ es he hes =>
      simp only [functionScopes, functionIds_append] at hnodup hnew
      simp only [List.map_cons, List.cons_append, List.nodup_cons, List.nodup_append,
        List.mem_append] at hnodup
      have hfirst := shifts_lowerFunction d (by grind) he hd
      have hes' := hfirst.entries (fun d' hd' hf =>
        hnodup.2.2.2 _ (List.mem_map_of_mem hd') _ (.inl hf) rfl) hes
      have hnew₁ : Unknown (functionIds (functionScopes ds)) [] s₁ :=
        (hnew.mono (by simp +contextual) (by simp)).after hfirst (by grind) (by simp)
      have hnew₀ : Unknown (functionIds d.scopes) [] s := hnew.mono (by simp +contextual) (by simp)
      exact (confines_lowerFunction d (by grind) hnew₀ he hd).trans
        (confines_lowerFunctions ds (by grind) hnew₁ hes' hds)

theorem confines_lowerFunction {z : Zone} {X : List BlockId} {s s' : State} {u : Unit}
    {e : FunctionEntry} :
    (d : FunctionDecl) → (functionIds d.scopes).Nodup → Unknown (functionIds d.scopes) [] s →
      s.functions[d.id.index]? = some e → Runs (lowerFunction d) s u s' → Confines z X s X s'
  | ⟨id, name, result, parameters, body⟩, hnodup, hnew, he, h => by
    obtain ⟨e', type, s₁, o, s₂, s₃, he', htype, hbody, hend, rfl⟩ := lowerFunction_body h
    obtain rfl : e = e' := Option.some.inj (he.symm.trans he')
    simp only [FunctionDecl.scopes] at hnodup hnew
    have hsettle := settles_lowerType _ htype
    have he₁ : s₁.functions[id.index]? = some e := (hsettle.shifts.functions _ (by simp)).trans he
    have hnew₁ : Unknown (functionIds body.scopes) [] s₁ := hnew.after hsettle.shifts (by simp) (by simp)
    have hscope : Confines ⟨e.entry, some (.object e.returns)⟩ [e.entry] { s₁ with loops := [] }
        o.toList s₂ := confines_lowerScope body hnodup ⟨hnew₁.functions, by simp⟩ hbody
    refine (Confines.of_rebuilds hsettle).trans (confines_body he₁ ?_)
    rcases hend with ⟨rfl, rfl⟩ | ⟨c, rfl, hreturn⟩
    · exact hscope
    · exact hscope.trans (confines_lowerReturn hreturn)

theorem confines_lowerStmts {frame : Option Frame} {z : Zone} {b : BlockId} {s s' : State}
    {o : Option BlockId} :
    (ss : List Stmt) → (functionIds (stmtScopes ss)).Nodup → Unknown (functionIds (stmtScopes ss)) [] s →
      Runs (lowerStmts frame b ss) s o s' → Confines z [b] s o.toList s'
  | [], _, _, h => by
    rw [lowerStmts] at h
    obtain ⟨rfl, rfl⟩ := Runs.pure_iff.1 h
    exact .refl _ _
  | S :: rest, hnodup, hnew, h => by
    rw [lowerStmts] at h
    simp only [Runs.bind_iff] at h
    obtain ⟨o', s₁, hS, h⟩ := h
    simp only [stmtScopes, functionIds_append] at hnodup hnew
    obtain ⟨hfirst, hsecond, hdisjoint⟩ := List.nodup_append.1 hnodup
    have hnew₁ : Unknown (functionIds (stmtScopes rest)) [] s₁ :=
      (hnew.mono (by simp +contextual) (by simp)).after (shifts_lowerStmt S hfirst hS) hdisjoint (by simp)
    have hstmt := confines_lowerStmt (z := z) S hfirst (hnew.mono (by simp +contextual) (by simp)) hS
    cases o' with
    | some c => exact hstmt.trans (confines_lowerStmts rest hsecond hnew₁ h)
    | none =>
      refine hstmt.trans ?_
      simp only [Runs.ite_iff, Runs.bind_iff, Runs.pure_iff, Runs.lift_build_iff] at h
      rcases h with ⟨-, _, _, ⟨_, hreport, rfl⟩, rfl, rfl⟩ | ⟨-, rfl, rfl⟩
      · exact confines_report hreport
      · exact .refl _ _

theorem confines_lowerStmt {frame : Option Frame} {z : Zone} {b : BlockId} {s s' : State}
    {o : Option BlockId} :
    (S : Stmt) → (functionIds S.scopes).Nodup → Unknown (functionIds S.scopes) [] s →
      Runs (lowerStmt frame b S) s o s' → Confines z [b] s o.toList s'
  | .scope body, hnodup, hnew, h => by
    obtain ⟨inner, t, o', s₁, henter, hbody, hjoin⟩ := lowerStmt_scope h
    rw [Stmt.scopes] at hnodup hnew
    have hscope : Confines z [inner] { s with toBuilder := t } o'.toList s₁ :=
      confines_lowerScope body hnodup ⟨hnew.functions, by simp⟩ hbody
    have hstart := (confines_enter (z := z) henter).keep.trans (hscope.frame [b])
    exact hstart.trans ((confines_joins hjoin).mono (by grind) (fun _ h => h))
  | .jump kind label, _, _, h => by
    obtain ⟨rfl, hjump⟩ := lowerStmt_jump h
    exact confines_lowerJump hjump
  | .define type clauses, _, _, h => by
    obtain ⟨t, s₁, c, htype, hclauses, rfl⟩ := lowerStmt_define h
    have hdefine : Confines z [b] s₁ [c] _ :=
      traces_lowerClauses (R := fun b s c s' => Confines z [b] s [c] s') hclauses
    exact (Confines.of_rebuilds (settles_mapM htype)).trans hdefine
  | .loop kind label condition body, hnodup, hnew, h => by
    rw [Stmt.scopes] at hnodup hnew
    by_cases hkind : (kind = .testFirst && !condition.isTrue) = true
    · obtain ⟨test, t, tested, s₁, r, inside, exit, t', bottom, s₂, henter, htest, hlast, hbranch, hbody,
        hend, rfl⟩ := lowerStmt_tested hkind h
      have hnew₁ : Unknown (functionIds body.scopes) [] s₁ :=
        hnew.after ((Rebuilds.of_moves (moves_enter henter)).trans
          (leads_lowerExpr test condition htest)).shifts (by simp) (by simp)
      have hscope : Confines z [inside]
          { s₁ with toBuilder := t', loops := ⟨label, .known test exit⟩ :: s₁.loops }
          bottom.toList s₂ := confines_lowerScope body hnodup ⟨hnew₁.functions, by simp⟩ hbody
      exact confines_testedLoop henter htest hlast hbranch hscope hend
    · obtain ⟨inside, t, bottom, s₂, label', leaving, repeating, ls, henter, hbody, hloops, hclose⟩ :=
        lowerStmt_queued hkind h
      have hscope : Confines z [inside]
          { s with toBuilder := t, loops := ⟨label, .queued [] []⟩ :: s.loops } bottom.toList s₂ :=
        confines_lowerScope body hnodup ⟨hnew.functions, by simp⟩ hbody
      exact confines_queuedLoop henter hscope hloops hclose
  | .expr value, _, _, h => by
    obtain ⟨c, hvalue, rfl⟩ := lowerStmt_expr h
    exact confines_lowerExpr hvalue
  | .cond condition first second, hnodup, hnew, h => by
    obtain ⟨c, s₁, r, onTrue, onFalse, t, first', s₂, second', s₃, hcond, hlast, hbranch, hfirst, hsecond,
      hjoin⟩ := lowerStmt_cond h
    rw [Stmt.scopes, functionIds_append] at hnodup hnew
    obtain ⟨hleft, hright, hdisjoint⟩ := List.nodup_append.1 hnodup
    have hsplit := (leads_lowerExpr b condition hcond).trans (rebuilds_branch hlast hbranch)
    have hnew₁ : Unknown _ [] _ := hnew.after hsplit.shifts (by simp) (by simp)
    have hnew₂ : Unknown (functionIds (armScopes second)) [] s₂ :=
      (hnew₁.mono (by simp +contextual) (by simp)).after (shifts_lowerArm first hleft hfirst) hdisjoint
        (by simp)
    have htest := confines_lowerExpr (z := z) hcond
    have harm := (confines_lowerArm (z := z) first hleft (hnew₁.mono (by simp +contextual) (by simp))
      hfirst).frame [onFalse, c]
    have harm' := ((confines_lowerArm (z := z) second hright hnew₂ hsecond).frame
      (first'.toList ++ [c])).mono (A := first'.toList ++ [onFalse, c]) (by grind) (fun _ h => h)
    have harms := ((htest.trans (confines_branch hlast hbranch).keep).trans harm).trans harm'
    exact harms.trans ((confines_joins hjoin).mono (by grind) (fun _ h => h))
  | .ret value, _, _, h => by
    obtain ⟨rfl, hreturn⟩ := lowerStmt_ret h
    exact confines_lowerReturn hreturn

theorem confines_lowerArm {frame : Option Frame} {z : Zone} {b : BlockId} {s s' : State}
    {o : Option BlockId} :
    (S : Option Scope) → (functionIds (armScopes S)).Nodup → Unknown (functionIds (armScopes S)) [] s →
      Runs (lowerArm frame b S) s o s' → Confines z [b] s o.toList s'
  | some body, hnodup, hnew, h => by
    rw [lowerArm] at h
    exact confines_lowerScope body hnodup hnew h
  | none, _, _, h => by
    rw [lowerArm] at h
    obtain ⟨rfl, rfl⟩ := Runs.pure_iff.1 h
    exact .refl _ _

end

end BlockGraph.Lowering
