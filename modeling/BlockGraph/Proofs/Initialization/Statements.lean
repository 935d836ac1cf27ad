import BlockGraph.Proofs.Initialization.Loops

namespace BlockGraph.Lowering

open Builder

variable {p : Program} {s s' : State} {O : Origins} {ps : List Parameter} {u : Unit} {b : BlockId}
  {Γs : List (List Binding)} {fs : List FunctionId}

/-! Declarations. -/

structure SameCode (s s' : State) : Prop where
  blocks : s'.graph.blocks = s.graph.blocks
  functions : s'.functions = s.functions
  loops : s'.loops = s.loops

theorem SameCode.trans {s'' : State} (h : SameCode s s') (k : SameCode s' s'') : SameCode s s'' :=
  ⟨k.blocks.trans h.blocks, k.functions.trans h.functions, k.loops.trans h.loops⟩

instance : TracesTypes fun _ s _ s' => SameCode s s' where
  refl _ _ := ⟨rfl, rfl, rfl⟩
  trans := .trans
  returnLayout {b t} s l s' h := by
    obtain ⟨u, hu, rfl⟩ := Runs.lift_build_iff.1 h
    refine ⟨?_, rfl, rfl⟩
    rcases runs_returnLayout.1 hu with ⟨-, rfl⟩ | ⟨-, -, hgraph, -⟩
    · rfl
    · rw [hgraph]
      rfl

theorem sameCode_lowerType {t : SourceType} {v : ValueType} (h : Runs (lowerType t) s v s') :
    SameCode s s' :=
  traces_lowerType (R := fun _ s _ s' => SameCode s s') (b := ⟨0⟩) t h

theorem sameCode_lowerTypes {ts : List SourceType} {vs : List ValueType}
    (h : Runs (lowerTypes ts) s vs s') : SameCode s s' :=
  traces_lowerTypes (R := fun _ s _ s' => SameCode s s') (b := ⟨0⟩) ts h

structure Carries (p : Program) (s s' : State) : Prop where
  loops : s'.loops = s.loops
  records : ∀ O, Tracks p O s → ∃ O', Records p O s O' s'

section Carries

variable {s s' s'' : State}

theorem Carries.refl (s : State) : Carries p s s := ⟨rfl, fun O hO => ⟨O, .refl hO⟩⟩

theorem Carries.trans (h : Carries p s s') (k : Carries p s' s'') : Carries p s s'' := by
  refine ⟨k.loops.trans h.loops, fun O hO => ?_⟩
  obtain ⟨O', hrec⟩ := h.records O hO
  obtain ⟨O'', hrec'⟩ := k.records O' hrec.after
  exact ⟨O'', hrec.trans hrec'⟩

theorem Carries.lands (h : Carries p s s') (b : BlockId) : Lands p b s [b] s' := by
  intro Γs O hb
  obtain ⟨O', hrec⟩ := h.records O hb.tracks
  obtain ⟨B, hB, -⟩ := hb.isOpen
  exact ⟨O', hb.reaches hrec h.loops (by simpa using hrec.scope hB)⟩

theorem SameCode.carries (h : SameCode s s') : Carries p s s' := by
  have hblock (b : BlockId) : s'.graph.block? b = s.graph.block? b := by
    rw [Graph.block?, h.blocks, Graph.block?]
  refine ⟨h.loops, fun O hO => ⟨O, hO, ⟨.quiet hO.chronicle h.blocks, ?_, ?_, ?_⟩,
    fun b B hB => ⟨B, (hblock b).trans hB, .refl B⟩, fun _ _ _ => rfl, fun _ _ _ _ hd => hd,
    fun _ _ _ _ hd => hd⟩⟩
  · rw [h.functions]
    exact hO.roots
  · simp only [hblock]
    exact hO.made
  · simp only [h.functions, hblock]
    exact hO.parameters

theorem carries_forM {α : Type} {f : α → LowerM PUnit} {as : List α} {u : PUnit}
    (hf : ∀ {a s v s'}, Runs (f a) s v s' → Carries p s s') (h : Runs (as.forM f) s u s') :
    Carries p s s' := by
  induction as generalizing s with
  | nil =>
    obtain rfl := Runs.forM_nil.1 h
    exact .refl _
  | cons a as ih =>
    obtain ⟨s₁, ha, has⟩ := Runs.forM_cons.1 h
    exact (hf ha).trans (ih has)

theorem carries_declare {d : ClassDecl} {u : Unit} (h : Runs (declare d) s u s') : Carries p s s' := by
  obtain rfl := runs_declare.1 h
  exact SameCode.carries ⟨rfl, rfl, rfl⟩

theorem carries_defineFields {d : ClassDecl} {u : Unit} (h : Runs (defineFields d) s u s') :
    Carries p s s' := by
  simp only [defineFields, Runs.bind_iff, Runs.lift_build_iff] at h
  obtain ⟨fields, s₁, htypes, l, s₂, hlayout, t, hdefine, rfl⟩ := h
  obtain ⟨-, rfl⟩ := runs_defineClass.1 hdefine
  obtain ⟨-, rfl⟩ := runs_classLayout.1 hlayout
  exact (sameCode_lowerTypes htypes).carries.trans (SameCode.carries ⟨rfl, rfl, rfl⟩)

end Carries

theorem chronicle_defineParameters {s s' : Builder} {entry : BlockId} {n : Nat} (h : Chronicle O s)
    (hopen : s.graph.IsOpen entry) (hrun : Runs (defineParameters entry n ps) s u s') :
    ∃ O', Chronicle O' s' ∧ O'.roots = O.roots ∧ O'.start = O.start ∧ O'.outer = O.outer ∧
      (∀ c, O.declared c ⊆ O'.declared c) ∧ (∀ c, O.given c ⊆ O'.given c) ∧
      ∀ q ∈ ps, ∀ n ∈ q.name, n ∈ O'.given entry := by
  induction ps generalizing n s O with
  | nil =>
    obtain ⟨-, rfl⟩ := Runs.pure_iff.1 hrun
    exact ⟨O, h, rfl, rfl, rfl, fun _ _ hn => hn, fun _ _ hn => hn, by simp⟩
  | cons p ps ih =>
    obtain ⟨t, name⟩ := p
    cases name with
    | none => simpa using ih h hopen hrun
    | some name =>
      obtain ⟨_, s₁, hdefine, hrest⟩ := Runs.bind_iff.1 hrun
      have hopen' : s₁.graph.IsOpen entry := by
        obtain ⟨B, t, hB, -, rfl⟩ := runs_define.1 hdefine
        have hB' := hopen.isTerminated hB
        exact (isOpen_updateBlock hB entry).2 (.inl ⟨rfl, hB'⟩)
      obtain ⟨O', hO', hroots, hstart, houter, hdeclared, hgiven, hparams⟩ :=
        ih (h.declare hopen hdefine) hopen' hrest
      refine ⟨O', hO', hroots, hstart, houter,
        fun c m hm => hdeclared c (Origins.mem_declare_declared.2 (.inl hm)),
        fun c m hm => hgiven c (Origins.mem_declare_given.2 (.inl hm)), List.forall_mem_cons.2 ⟨?_, hparams⟩⟩
      rintro m hm
      obtain rfl : name = m := by simpa using hm
      exact hgiven entry (Origins.mem_declare_given.2 (.inr ⟨rfl, rfl, rfl⟩))

theorem exists_chronicle_entry {t₀ t₁ t₂ t₃ : Builder} {l : LayoutId} {entry : BlockId} {n : Nat}
    {v : Unit} (h : Chronicle O t₀) (hadd : Runs (addBlock (⟨.object l, none⟩ :: ps)) t₀ entry t₁)
    (hset : Runs (setLocals entry { returnSlot := some ⟨0⟩ }) t₁ u t₂)
    (hdefine : Runs (defineParameters entry n ps) t₂ v t₃) :
    ∃ O', Chronicle O' t₃ ∧ O'.roots = O.roots ++ [entry] ∧ (∀ c, c ≠ entry → O'.start c = O.start c) ∧
      (∀ c, c ≠ entry → O'.outer c = O.outer c) ∧
      (∀ c, c ≠ entry → O.declared c ⊆ O'.declared c) ∧ (∀ c, c ≠ entry → O.given c ⊆ O'.given c) ∧
      ∃ B, t₃.graph.block? entry = some B ∧ ∀ q ∈ B.parameters, ∀ n ∈ q.name, n ∈ O'.given entry := by
  have hroot := h.root hadd
  obtain ⟨hentry, ht₁⟩ := runs_addBlock.1 hadd
  obtain ⟨⟨B, hB⟩, rfl⟩ := runs_setLocals.1 hset
  obtain rfl : { id := entry, parameters := ⟨.object l, none⟩ :: ps } = B := by
    subst hentry ht₁
    rwa [appendBlock_block?, if_pos rfl, Option.some.injEq] at hB
  have hslot := hroot.amend (.relocate (l := { returnSlot := some ⟨0⟩ }) hB rfl rfl)
  obtain ⟨O', hO', hroots, hstart, houter, hdeclared, hgiven, hparams⟩ := chronicle_defineParameters hslot
    ((isOpen_updateBlock hB entry).2 (.inl ⟨rfl, rfl⟩)) hdefine
  change O'.start = (O.begin entry ∅ []).start at hstart
  change O'.outer = (O.begin entry ∅ []).outer at houter
  change ∀ c, (O.begin entry ∅ []).declared c ⊆ O'.declared c at hdeclared
  change ∀ c, (O.begin entry ∅ []).given c ⊆ O'.given c at hgiven
  obtain ⟨B', hB', hext⟩ := (stays_defineParameters hdefine).graph_extends _ _ (updateBlock_self hB _)
  refine ⟨O', hO', hroots, fun c hc => ?_, fun c hc => ?_, fun c hc => ?_, fun c hc => ?_, B', hB', ?_⟩
  · rw [hstart, Origins.begin_start hc]
  · rw [houter, Origins.begin_outer hc]
  · rw [← Origins.begin_declared hc]
    exact hdeclared c
  · rw [← Origins.begin_given hc]
    exact hgiven c
  · rw [hext.parameters]
    exact List.forall_mem_cons.2 ⟨by simp, hparams⟩

theorem carries_declareFunction {f : FunctionDecl} (hnew : s.functions[f.id.index]? = none)
    (h : Runs (declareFunction f) s u s') : Carries p s s' := by
  obtain ⟨result, t₁, returns, t₂, types, t₃, entry, t₄, t₅, t₆, hresult, hreturns, htypes, hadd, hset,
    hdefine, rfl⟩ := declareFunction_cases h
  have hlayout := TracesTypes.returnLayout (R := fun _ s _ s' => SameCode s s') (b := ⟨0⟩) hreturns
  have hsame : SameCode s t₃ :=
    ((sameCode_lowerType hresult).trans hlayout).trans (sameCode_lowerTypes htypes)
  refine hsame.carries.trans ⟨rfl, fun O hO => ?_⟩
  obtain ⟨hfresh, hother, -⟩ := exists_entry hadd hset hdefine
  obtain ⟨O', hO', hroots, hstart, houter, hdeclared, hgiven, hparams⟩ :=
    exists_chronicle_entry hO.chronicle hadd hset hdefine
  have hne {c : BlockId} {C : Block} (hC : t₃.graph.block? c = some C) : c ≠ entry := by
    rintro rfl
    simp [hfresh] at hC
  let e : FunctionEntry := ⟨f.name, entry, returns⟩
  have hlookup := functions_insert_eq_some (e := e) (hsame.functions ▸ hnew)
  refine ⟨O', hO, ⟨hO', fun b => ?_, fun b hb hroot => ?_, fun k e' he' => ?_⟩,
    fun c C hC => ⟨C, (hother c (hne hC)).trans hC, .refl C⟩, fun c C hC => houter c (hne hC),
    fun c C hC => hdeclared c (hne hC), fun c C hC => hgiven c (hne hC)⟩
  · rw [hroots, List.mem_append, List.mem_singleton, hO.roots b, or_assoc]
    refine or_congr_right ⟨?_, ?_⟩
    · rintro (⟨k, e', he', hb⟩ | rfl)
      · exact ⟨k, e', (hlookup k e').2 (.inr he'), hb⟩
      · exact ⟨f.id.index, e, (hlookup _ _).2 (.inl ⟨rfl, rfl⟩), rfl⟩
    · rintro ⟨k, e', he', rfl⟩
      rcases (hlookup k e').1 he' with ⟨-, rfl⟩ | he'
      · exact .inr rfl
      · exact .inl ⟨k, e', he', rfl⟩
  · rw [hroots, List.mem_append, List.mem_singleton, not_or] at hroot
    rw [hstart b hroot.2]
    exact hO.made b (by rwa [← hother b hroot.2]) hroot.1
  · rcases (hlookup k e').1 he' with ⟨-, rfl⟩ | he'
    · exact hparams
    · obtain ⟨C, hC, hheld⟩ := hO.parameters k e' he'
      exact ⟨C, (hother _ (hne hC)).trans hC, fun q hq n hn => hgiven _ (hne hC) (hheld q hq n hn)⟩

theorem carries_declareFunctions {ds : List FunctionDecl} {u : PUnit}
    (hnodup : (ds.map (·.id)).Nodup) (hnew : Unknown (ds.map (·.id)) [] s)
    (h : Runs (ds.forM declareFunction) s u s') : Carries p s s' := by
  induction ds generalizing s with
  | nil =>
    obtain rfl := Runs.forM_nil.1 h
    exact .refl _
  | cons d ds ih =>
    obtain ⟨s₁, hd, hds⟩ := Runs.forM_cons.1 h
    simp only [List.map_cons, List.nodup_cons] at hnodup hnew
    obtain ⟨e, hshift, -⟩ := shifts_declareFunction hd
    have hrest : Unknown (ds.map (·.id)) [] s₁ :=
      (hnew.mono (by simp +contextual) (by simp)).after hshift (by grind) (by simp)
    exact (carries_declareFunction (hnew.functions _ (by simp)) hd).trans (ih hnodup.2 hrest hds)

/-! Statements. -/

theorem Inherits.handBack {c : BlockId} {s₁ : State} {name : String} {r : Option Register}
    (h : Inherits p b s c s₁) (hrun : Runs (handBack name c r) s₁ u s') : Lands p b s [] s' := by
  refine h.lands.trans h.1.shifts fun Γs O hc => ?_
  obtain ⟨B, slot, type, target, t, t', -, -, hload, hgoto, rfl⟩ := handBack_cases hrun
  have hload' := Records.amend hc.tracks (amends_emit hload rfl)
  have hgoto' := Records.amend hload'.after (amends_goto hgoto)
  exact ⟨O, hc.reaches (hload'.trans hgoto') rfl (by simp)⟩

theorem lands_completes {frame : Frame} {o : Option BlockId} {s₁ : State} {cs : List ClassId}
    (h : Lands p b s o.toList s₁) (hshift : Shifts fs cs [b] s o.toList s₁)
    (hend : Completes frame o s₁ s') : Lands p b s [] s' := by
  rcases hend with ⟨rfl, rfl⟩ | ⟨c, rfl, hreturn⟩
  · exact h
  · obtain ⟨name, result, d, r, s₂, -, hvalue, hback⟩ := runs_lowerReturn.1 hreturn
    obtain ⟨rfl, rfl⟩ : d = c ∧ s₂ = s₁ := by
      simp only [lowerReturnValue, Runs.ite_iff, Runs.bind_iff, Runs.throw_iff, Runs.pure_iff] at hvalue
      grind
    exact h.trans hshift (Inherits.handBack (Chains.refl d s₂) hback)

theorem Reaches.joins {Γs : List (List Binding)} {O O' : Origins} {s s' s'' : State} {b : BlockId}
    {preds : List BlockId} {o : Option BlockId} (h : Reaches p Γs O s b O' s' preds)
    (hb : O'.scope b = O.scope b) (hjoin : Joins b preds s' o s'')
    (hmade : ∀ c ∈ o, p.Makes c (s''.graph.symbols c)) : ∃ O'', Reaches p Γs O s b O'' s'' o.toList := by
  rcases hjoin with ⟨rfl, rfl, rfl⟩ | ⟨-, c, t, hrun, rfl, rfl⟩
  · exact ⟨O', h⟩
  · obtain ⟨O'', hrec, -, hc, -⟩ := Records.converge h.records.after (by rw [hb]; exact h.scope) hrun
      (hmade c rfl)
    exact ⟨O'', h.records.trans hrec, LoopsBound.mono h.loops hrec, by simp [hc, hb]⟩

theorem exists_reaches_inner {inner : BlockId} {Y : List BlockId} {t : Builder} {cs : List ClassId}
    (hb : Places p Γs O s b) (henter : Runs (enter b) s.toBuilder inner t)
    (hmade : p.Makes inner (t.graph.symbols inner))
    (hbody : Lands p inner { s with toBuilder := t } Y s')
    (hshift : Shifts fs cs [inner] { s with toBuilder := t } Y s') :
    ∃ O', Reaches p Γs O s b O' s' Y ∧ O'.scope b = O.scope b := by
  have hopen := (Rebuilds.of_moves (moves_enter henter)).isOpen hb.isOpen
  obtain ⟨O₁, hrec, -, hscope, hkept⟩ := Records.converge hb.tracks (by simp) (runs_enter.1 henter) hmade
  have hreach : Reaches p Γs O s b O₁ { s with toBuilder := t } [inner] :=
    hb.reaches hrec rfl (by simp [hscope])
  obtain ⟨O₂, hreach₂⟩ := hbody (hreach.places hb (by simp) hopen)
  refine ⟨O₂, hreach.trans hreach₂, ?_⟩
  obtain ⟨B, hB, -⟩ := hb.isOpen
  obtain ⟨B', hB', -⟩ := hrec.grows b B hB
  have hne := ne_of_fresh ⟨B, hB⟩ (converge_fresh (runs_enter.1 henter))
  rw [hreach₂.records.scope_eq hB' (hshift.keeps (by simpa using hne.symm) hB'), hkept b (by simp [hB])]

theorem exists_reaches_arms {s₁ s₂ : State} {c onTrue onFalse : BlockId} {r : Register}
    {X Y : List BlockId} {t : Builder} {fs' : List FunctionId} {cs cs' : List ClassId}
    (hc : Places p Γs O s c) (hlast : Runs (lastRegister c) s.toBuilder r s.toBuilder)
    (hbranch : Runs (branch c r) s.toBuilder (onTrue, onFalse) t)
    (hmades : p.Makes onTrue (t.graph.symbols onTrue) ∧ p.Makes onFalse (t.graph.symbols onFalse))
    (hfirst : Lands p onTrue { s with toBuilder := t } X s₁)
    (hshift : Shifts fs cs [onTrue] { s with toBuilder := t } X s₁)
    (hsecond : Lands p onFalse s₁ Y s₂) (hshift' : Shifts fs' cs' [onFalse] s₁ Y s₂) :
    ∃ O', Reaches p Γs O s c O' s₂ (X ++ Y) ∧ O'.scope c = O.scope c := by
  have hsplit := rebuilds_branch hlast hbranch
  obtain ⟨O₁, hrec, -, hscopeT, hscopeF, hkept⟩ := Records.convergeBranch hc.tracks (by simp)
    (runs_branch.1 hbranch) hsplit.shifts.graph_extends hmades.1 hmades.2
  have hopen := hsplit.shifts.allOpen (allOpen_singleton.2 hc.isOpen)
  have hopen' := (hshift.frame [onFalse]).allOpen hopen
  have hsplit' : Reaches p Γs O s c O₁ { s with toBuilder := t } [onTrue, onFalse] :=
    hc.reaches hrec rfl (by simp [hscopeT, hscopeF])
  obtain ⟨O₂, hreach₂⟩ := hfirst (hsplit'.places hc (by simp) (hopen.isOpen (by simp)))
  obtain ⟨F, hF, -⟩ := hopen.isOpen (b := onFalse) (by simp)
  have hplaceF : Places p Γs O₂ s₁ onFalse := by
    refine ⟨hreach₂.records.after, hopen'.isOpen (by simp), hreach₂.loops, fun Γ hΓ v hv => ?_⟩
    exact hreach₂.records.scope hF (hscopeF ▸ hc.inside Γ hΓ hv)
  obtain ⟨O₃, hreach₃⟩ := hsecond hplaceF
  refine ⟨O₃, ⟨(hrec.trans hreach₂.records).trans hreach₃.records, hreach₃.loops, fun p hp v hv => ?_⟩, ?_⟩
  · rcases List.mem_append.1 hp with hp | hp
    · obtain ⟨P, hP, -⟩ := hopen'.isOpen (b := p) (List.mem_append_left _ hp)
      exact hreach₃.records.scope hP (hreach₂.scope p hp (hscopeT ▸ hv))
    · exact hreach₃.scope p hp (hreach₂.records.scope hF (hscopeF ▸ hv))
  · obtain ⟨C, hC, -⟩ := hc.isOpen
    obtain ⟨C', hC', -⟩ := hrec.grows c C hC
    have hC₂ := keeps_arms hC hbranch hshift hshift' hC'
    rw [(hreach₂.records.trans hreach₃.records).scope_eq hC' hC₂, hkept c (by simp [hC])]

theorem carries_body (hb : s.graph.IsOpen b) (h : Lands p b { s with loops := [] } [] s') :
    Carries p s { s' with loops := s.loops } := by
  refine ⟨rfl, fun O hO => ?_⟩
  have hplace : Places p [] O { s with loops := [] } b :=
    ⟨⟨hO.chronicle, hO.roots, hO.made, hO.parameters⟩, hb, .nil, by simp⟩
  obtain ⟨O', hrec, -, -⟩ := h hplace
  exact ⟨O', hO, (hrec.withLoops _).after, hrec.grows, hrec.outer, hrec.declared, hrec.given⟩

structure Unseen (ss : List Scope) (s : State) : Prop where
  nodup : (functionIds ss).Nodup
  unknown : Unknown (functionIds ss) [] s

namespace Unseen

variable {ss ss' : List Scope} {s s' : State} {X Y : List BlockId} {cs : List ClassId}

theorem left (h : Unseen (ss ++ ss') s) : Unseen ss s := by
  obtain ⟨hnodup, hunknown⟩ := h
  rw [functionIds_append] at hnodup hunknown
  exact ⟨hnodup.of_append_left, hunknown.mono (fun _ => List.mem_append_left _) (by simp)⟩

theorem right (h : Unseen (ss ++ ss') s) (hs : Shifts (functionIds ss) cs X s Y s') :
    Unseen ss' s' := by
  obtain ⟨hnodup, hunknown⟩ := h
  rw [functionIds_append] at hnodup hunknown
  exact ⟨hnodup.of_append_right, (hunknown.mono (fun _ => List.mem_append_right _) (by simp)).after hs
    (List.nodup_append.1 hnodup).2.2 (by simp)⟩

theorem shift (h : Unseen ss s) (hs : Shifts [] cs X s Y s') : Unseen ss s' :=
  ⟨h.nodup, h.unknown.after hs (by simp) (by simp)⟩

theorem withLoops (h : Unseen ss s) (ls : List LoopFrame) : Unseen ss { s with loops := ls } :=
  ⟨h.nodup, h.unknown.1, h.unknown.2⟩

end Unseen

theorem makes_leave {o o' : Option BlockId} (hs : p.ComesTo (match o' with
      | some inner => do return some (← leave b inner)
      | none => return none : Plan (Option BlockId)) s) (hjoin : Joins b o'.toList s o s') :
    ∀ c ∈ o, p.Makes c (s'.graph.symbols c) := by
  rcases hjoin with ⟨-, rfl, rfl⟩ | ⟨hne, c, t, hconverge, rfl, rfl⟩
  · simp
  · cases o' with
    | none => simp at hne
    | some inner => simpa using makes_converge hs.first (runs_leave.2 hconverge) hconverge

theorem makes_arms {o first second : Option BlockId} (hs : p.ComesTo (match first, second with
      | some first, some second => do return some (← merge b first second)
      | some inner, none | none, some inner => do return some (← leave b inner)
      | none, none => return none : Plan (Option BlockId)) s)
    (hjoin : Joins b (first.toList ++ second.toList) s o s') :
    ∀ c ∈ o, p.Makes c (s'.graph.symbols c) := by
  rcases hjoin with ⟨-, rfl, rfl⟩ | ⟨hne, c, t, hconverge, rfl, rfl⟩
  · simp
  · cases first with
    | none =>
      cases second with
      | none => simp at hne
      | some inner => simpa using makes_converge hs.first (runs_leave.2 hconverge) hconverge
    | some first =>
      cases second with
      | none => simpa using makes_converge hs.first (runs_leave.2 hconverge) hconverge
      | some second => simpa using makes_converge hs.first hconverge hconverge

mutual

theorem lands_lowerScope {frame : Option Frame} {b : BlockId} {s s' : State} {o : Option BlockId} :
    (S : Scope) → p.ComesTo (.call (.scope frame b S)) s → Unseen S.scopes s →
      Runs (lowerScope frame b S) s o s' → Lands p b s o.toList s'
  | ⟨classes, functions, statements⟩, hs, hnew, h => by
    rw [lowerScope] at h
    simp only [Runs.bind_iff] at h
    obtain ⟨_, s₁, hclasses, _, s₂, hfunctions, _, s₃, hfields, _, s₄, hbodies, hstmts⟩ := h
    obtain ⟨hnodup, hnew⟩ := hnew
    simp only [Scope.scopes, functionIds_cons, functionIds_append] at hnodup hnew
    obtain ⟨hids, hinner, hdisjoint⟩ := List.nodup_append.1 hnodup
    obtain ⟨hfs, hss, hdisjoint'⟩ := List.nodup_append.1 hinner
    have hleft : ∀ f ∈ functions.map (·.id), ∀ f' ∈ functionIds (functionScopes functions), f ≠ f' :=
      fun f hf f' hf' => hdisjoint f hf f' (List.mem_append_left _ hf')
    obtain ⟨hdeclared, -⟩ := shifts_declares hclasses
    obtain ⟨es, hhoist, hes⟩ := shifts_hoist hids hclasses hfunctions hfields
    have hnodup' : (functions.map (·.id) ++ functionIds (functionScopes functions)).Nodup :=
      List.nodup_append.2 ⟨hids, hfs, hleft⟩
    have hbody := shifts_lowerFunctions functions hnodup' hes hbodies
    have hnew₁ : Unknown (functions.map (·.id)) [] s₁ :=
      (hnew.mono (by simp +contextual) (by simp)).after hdeclared (by simp) (by simp)
    have hnew₃ : Unknown (functionIds (functionScopes functions)) [] s₃ :=
      (hnew.mono (by simp +contextual) (by simp)).after hhoist hleft (by simp)
    have hnew₄ : Unknown (functionIds (stmtScopes statements)) [] s₄ :=
      ((hnew.mono (by simp +contextual) (by simp)).after hhoist
        (fun f hf f' hf' => hdisjoint f hf f' (List.mem_append_right _ hf')) (by simp)).after hbody
          hdisjoint' (by simp)
    have hs₃ : p.ComesTo (do
        Plan.call (.functions functions)
        Plan.call (.stmts frame b statements)) s₃ := hs.trans (visits_hoisted hclasses hfunctions hfields)
    have hopen : s.AllOpen [] := s.graph.exists_opens
    have hstart : Carries p s s₄ := (((carries_forM carries_declare hclasses).trans
      (carries_declareFunctions hids hnew₁ hfunctions)).trans (carries_forM carries_defineFields hfields)).trans
        (carries_lowerFunctions functions hs₃.first hnodup' hnew₃ hes (hhoist.allOpen hopen) hbodies)
    have hshift : Shifts _ _ [b] s [b] s₄ := (hhoist.frame [b]).trans (hbody.frame [b]) hleft
    exact (hstart.lands b).trans hshift (lands_lowerStmts statements (hs₃.after hbodies) ⟨hss, hnew₄⟩ hstmts)

theorem carries_lowerFunctions {s s' : State} {u : Unit} {es : List FunctionEntry} :
    (ds : List FunctionDecl) → p.ComesTo (.call (.functions ds)) s →
      (ds.map (·.id) ++ functionIds (functionScopes ds)).Nodup →
      Unknown (functionIds (functionScopes ds)) [] s →
      List.Forall₂ (fun d e => s.functions[d.id.index]? = some e) ds es → s.AllOpen (es.map (·.entry)) →
      Runs (lowerFunctions ds) s u s' → Carries p s s'
  | [], _, _, _, _, _, h => by
    rw [lowerFunctions] at h
    obtain ⟨-, rfl⟩ := Runs.pure_iff.1 h
    exact .refl _
  | d :: ds, hs, hnodup, hnew, hes, hopen, h => by
    rw [lowerFunctions] at h
    simp only [Runs.bind_iff] at h
    obtain ⟨_, s₁, hd, hds⟩ := h
    cases hes with
    | @cons _ e _ es he hes =>
      simp only [functionScopes, functionIds_append] at hnodup hnew
      simp only [List.map_cons, List.cons_append, List.nodup_cons, List.nodup_append,
        List.mem_append] at hnodup
      have hfirst := shifts_lowerFunction d (by grind) he hd
      have hes' := hfirst.entries (fun d' hd' hf =>
        hnodup.2.2.2 _ (List.mem_map_of_mem hd') _ (.inl hf) rfl) hes
      have hnew₁ : Unknown (functionIds (functionScopes ds)) [] s₁ :=
        (hnew.mono (by simp +contextual) (by simp)).after hfirst (by grind) (by simp)
      have hnew₀ : Unseen d.scopes s := ⟨by grind, hnew.mono (by simp +contextual) (by simp)⟩
      exact (carries_lowerFunction d hs.enter.first hnew₀ he (hopen.isOpen (by simp)) hd).trans
        (carries_lowerFunctions ds (hs.enter.after hd) (by grind) hnew₁ hes'
          ((hfirst.frame _).allOpen hopen) hds)

theorem carries_lowerFunction {s s' : State} {u : Unit} {e : FunctionEntry} :
    (d : FunctionDecl) → p.ComesTo (.call (.function d)) s → Unseen d.scopes s →
      s.functions[d.id.index]? = some e → s.graph.IsOpen e.entry → Runs (lowerFunction d) s u s' →
      Carries p s s'
  | ⟨id, name, result, parameters, body⟩, hs, hnew, he, hopen, h => by
    obtain ⟨e', type, s₁, o, s₂, s₃, he', htype, hbody, hend, rfl⟩ := lowerFunction_body h
    obtain rfl : e = e' := Option.some.inj (he.symm.trans he')
    simp only [FunctionDecl.scopes] at hnew
    have hsame := sameCode_lowerType htype
    have hopen₁ : s₁.graph.IsOpen e.entry := by
      unfold Graph.IsOpen Graph.block?
      rw [hsame.blocks]
      exact hopen
    have hnew₁ := (hnew.shift (settles_lowerType _ htype).shifts).withLoops []
    have hs₁ := (((hs.enter.after (a := e) (runs_functionEntry.2 ⟨he, rfl⟩)).after htype).after (a := s₁)
      (Runs.get_iff.2 ⟨rfl, rfl⟩)).after (a := ()) (Runs.modify_iff.2 rfl)
    have hscope : Lands p e.entry { s₁ with loops := [] } o.toList s₂ :=
      lands_lowerScope body hs₁.first hnew₁ hbody
    exact hsame.carries.trans (carries_body hopen₁
      (lands_completes hscope (shifts_lowerScope body hnew₁.nodup hbody) hend))

theorem lands_lowerStmts {frame : Option Frame} {b : BlockId} {s s' : State} {o : Option BlockId} :
    (ss : List Stmt) → p.ComesTo (.call (.stmts frame b ss)) s → Unseen (stmtScopes ss) s →
      Runs (lowerStmts frame b ss) s o s' → Lands p b s o.toList s'
  | [], _, _, h => by
    rw [lowerStmts] at h
    obtain ⟨rfl, rfl⟩ := Runs.pure_iff.1 h
    exact .refl _ _
  | S :: rest, hs, hnew, h => by
    rw [lowerStmts] at h
    simp only [Runs.bind_iff] at h
    obtain ⟨o', s₁, hS, h⟩ := h
    rw [stmtScopes] at hnew
    have hshift := shifts_lowerStmt S hnew.left.nodup hS
    have hstmt := lands_lowerStmt S hs.enter.first hnew.left hS
    cases o' with
    | some c => exact hstmt.trans hshift (lands_lowerStmts rest (hs.enter.after hS) (hnew.right hshift) h)
    | none =>
      simp only [Runs.ite_iff, Runs.bind_iff, Runs.pure_iff, Runs.lift_build_iff] at h
      rcases h with ⟨-, _, _, ⟨_, hreport, rfl⟩, rfl, rfl⟩ | ⟨-, rfl, rfl⟩
      · intro Γs O hb
        obtain ⟨O', hrec, hloops, -⟩ := hstmt hb
        have hquiet := Records.report hrec.after hreport
        exact ⟨O', hrec.trans hquiet, LoopsBound.mono hloops hquiet, by simp⟩
      · exact hstmt

theorem lands_lowerStmt {frame : Option Frame} {b : BlockId} {s s' : State} {o : Option BlockId} :
    (S : Stmt) → p.ComesTo (.call (.stmt frame b S)) s → Unseen S.scopes s →
      Runs (lowerStmt frame b S) s o s' → Lands p b s o.toList s'
  | .scope body, hs, hnew, h => by
    obtain ⟨inner, t, o', s₁, henter, hbody, hjoin⟩ := lowerStmt_scope h
    rw [Stmt.scopes] at hnew
    have hstart : Shifts [] [] [b] s [inner] { s with toBuilder := t } := .of_moves (moves_enter henter)
    have hnew₁ := hnew.shift hstart
    have hs₁ := hs.enter.after (Runs.lift_build_iff.2 ⟨t, henter, rfl⟩)
    intro Γs O hb
    obtain ⟨O', hreach, hkept⟩ := exists_reaches_inner hb henter
      (makes_converge hs.enter.first henter (runs_enter.1 henter))
      (lands_lowerScope body hs₁.first hnew₁ hbody) (shifts_lowerScope body hnew₁.nodup hbody)
    exact hreach.joins hkept hjoin (makes_leave (hs₁.after hbody) hjoin)
  | .jump kind label, _, _, h => by
    obtain ⟨rfl, hjump⟩ := lowerStmt_jump h
    exact lands_lowerJump hjump
  | .define type clauses, hs, _, h => by
    obtain ⟨t, s₁, c, htype, hclauses, rfl⟩ := lowerStmt_define h
    cases type with
    | none =>
      obtain ⟨rfl, rfl⟩ := Runs.pure_iff.1 htype
      have hs₁ := hs.enter.after (a := none) (Runs.pure_iff.2 ⟨rfl, rfl⟩)
      exact (passesOn_clauses hs₁.first hclauses).lands
    | some type =>
      obtain ⟨v, hv, rfl⟩ := Runs.map_iff.1 htype
      have hs₁ := (hs.enter.after hv).after (a := some v) (Runs.pure_iff.2 ⟨rfl, rfl⟩)
      exact ((sameCode_lowerType hv).carries.lands b).trans ((settles_lowerType type hv).shifts.frame [b])
        (passesOn_clauses hs₁.first hclauses).lands
  | .loop kind label condition body, hs, hnew, h => by
    rw [Stmt.scopes] at hnew
    have hs₀ := hs.enter
    rw [Task.plan, stmtPlan] at hs₀
    by_cases hkind : (kind = .testFirst && !condition.isTrue) = true
    · obtain ⟨test, t, tested, s₁, r, inside, exit, t', bottom, s₂, henter, htest, hlast, hbranch, hbody,
        hend, rfl⟩ := lowerStmt_tested hkind h
      rw [if_pos hkind] at hs₀
      have hstart : Rebuilds [b] s [inside, exit] { s₁ with toBuilder := t' } :=
        ((Rebuilds.of_moves (moves_enter henter)).trans (leads_lowerExpr test condition htest)).trans
          (rebuilds_branch hlast hbranch)
      have hs₁ := hs₀.after (Runs.lift_build_iff.2 ⟨t, henter, rfl⟩)
      have hs₂ := hs₁.after htest
      have hs₃ := (hs₂.after (runs_split hlast hbranch)).after (a := ()) (runs_pushLoop.2 rfl)
      have hscope := lands_lowerScope body hs₃.first ((hnew.shift hstart.shifts).withLoops _) hbody
      exact lands_testedLoop henter (makes_converge hs₀.first henter (runs_enter.1 henter))
        (passesOn_expr test condition hs₁.first htest) hlast hbranch (makes_branch hs₂.first hlast hbranch)
        hscope hend
    · obtain ⟨inside, t, bottom, s₂, label', leaving, repeating, ls, henter, hbody, hloops, hclose⟩ :=
        lowerStmt_queued hkind h
      rw [if_neg hkind] at hs₀
      have hstart : Rebuilds [b] s [inside] { s with toBuilder := t } := .of_moves (moves_enter henter)
      have hnew₁ := (hnew.shift hstart.shifts).withLoops (⟨label, .queued [] []⟩ :: s.loops)
      have hs₁ := (hs₀.after (Runs.lift_build_iff.2 ⟨t, henter, rfl⟩)).after (a := ()) (runs_pushLoop.2 rfl)
      have hs₂ := (hs₁.after hbody).after (a := (leaving, repeating))
        (runs_popQueued.2 ⟨label', ls, hloops, rfl⟩)
      exact lands_queuedLoop henter (makes_converge hs₀.first henter (runs_enter.1 henter))
        (shifts_lowerScope body hnew₁.nodup hbody) (lands_lowerScope body hs₁.first hnew₁ hbody) hloops hs₂
        hclose
  | .expr value, hs, _, h => by
    obtain ⟨c, hvalue, rfl⟩ := lowerStmt_expr h
    exact (passesOn_expr b value hs.enter.first hvalue).lands
  | .cond condition first second, hs, hnew, h => by
    obtain ⟨c, s₁, r, onTrue, onFalse, t, first', s₂, second', s₃, hcond, hlast, hbranch, hfirst, hsecond,
      hjoin⟩ := lowerStmt_cond h
    rw [Stmt.scopes] at hnew
    have htest := passesOn_expr b condition hs.enter.first hcond
    have hs₁ := hs.enter.after hcond
    have hs₂ := hs₁.after (runs_split hlast hbranch)
    have hs₃ := hs₂.after hfirst
    have hnew₁ := hnew.shift (htest.1.trans (rebuilds_branch hlast hbranch)).shifts
    have hshift := shifts_lowerArm first hnew₁.left.nodup hfirst
    have hnew₂ := hnew₁.right hshift
    refine htest.lands.trans htest.1.shifts fun Γs O hc => ?_
    obtain ⟨O', hreach, hkept⟩ := exists_reaches_arms hc hlast hbranch
      (makes_branch hs₁.first hlast hbranch) (lands_lowerArm first hs₂.first hnew₁.left hfirst) hshift
      (lands_lowerArm second hs₃.first hnew₂ hsecond) (shifts_lowerArm second hnew₂.nodup hsecond)
    exact hreach.joins hkept hjoin (makes_arms (hs₃.after hsecond) hjoin)
  | .ret value, hs, _, h => by
    obtain ⟨rfl, hreturn⟩ := lowerStmt_ret h
    obtain ⟨name, result, c, r, s₁, rfl, hvalue, hback⟩ := runs_lowerReturn.1 hreturn
    rw [← run_returnValuePlan] at hvalue
    exact (passesOn_returnValue hs.enter.first.first hvalue).handBack hback

theorem lands_lowerArm {frame : Option Frame} {b : BlockId} {s s' : State} {o : Option BlockId} :
    (S : Option Scope) → p.ComesTo (.call (.arm frame b S)) s → Unseen (armScopes S) s →
      Runs (lowerArm frame b S) s o s' → Lands p b s o.toList s'
  | some body, hs, hnew, h => by
    rw [lowerArm] at h
    exact lands_lowerScope body hs.enter hnew h
  | none, _, _, h => by
    rw [lowerArm] at h
    obtain ⟨rfl, rfl⟩ := Runs.pure_iff.1 h
    exact .refl _ _

end

end BlockGraph.Lowering
