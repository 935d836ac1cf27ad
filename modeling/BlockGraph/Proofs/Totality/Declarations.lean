import BlockGraph.Proofs.Totality.Loops

namespace BlockGraph.Lowering

open Builder Analysis

variable {D : Declared} {s s' : State} {f : FunctionDecl} {low : SourceType → Option ValueType}
  {ts : List ValueType} {functions : List FunctionDecl}

structure Declares (s : State) (f : FunctionDecl) (e : FunctionEntry) : Prop where
  entry : s.functions[f.id.index]? = some e
  result : ∃ vt, lowered? s f.result = some vt ∧ s.returnLayouts.get? vt = some e.returns
  type : ∃ E, s.graph.block? e.entry = some E ∧ lowered? s f.type = some (.blockRef E.parameterTypes)
  fits : s.graph.Fits (lowered? s) e.entry (parameterContext f.parameters) []
    (some (.object e.returns))

theorem Declares.mono {e : FunctionEntry} (h : Declares s f e) (hs : Retains s s')
    (hkeep : ∀ B, s.graph.block? e.entry = some B → s'.graph.block? e.entry = some B) :
    Declares s' f e := by
  obtain ⟨vt, hvt, hl⟩ := h.result
  obtain ⟨E, hE, htype⟩ := h.type
  exact ⟨hs.functions _ e h.entry, ⟨vt, hs.lowered? _ vt hvt, hs.returns _ _ hl⟩,
    ⟨E, hkeep E hE, hs.lowered? _ _ htype⟩, h.fits.mono hs.lowered? hkeep⟩

theorem exists_runs_defineParameters {s : Builder} {b : BlockId} {slot : Option ValueType}
    {Γ : Context} {ps : List Slot} {n : Nat}
    (hps : List.Forall₂ (fun p t => low p.type = some t) ps ts) (hnodup : (ps.map (·.name)).Nodup)
    (hnew : ∀ p ∈ ps, ∀ v ∈ Γ, v.name ≠ p.name) (hb : s.graph.Fits low b Γ [] slot)
    (hregisters : ∀ k t, ts[k]? = some t → s.graph.HasType b ⟨n + k⟩ t) :
    ∃ s', Runs (defineParameters b n (ps.zipWith (fun p t => Parameter.mk t (some p.name)) ts)) s ()
      s' ∧ s'.graph.Fits low b (Γ ++ parameterContext ps) [] slot := by
  induction hps generalizing s Γ n with
  | nil => exact ⟨s, Runs.pure_iff.2 ⟨rfl, rfl⟩, by simpa [parameterContext] using hb⟩
  | @cons p t ps ts ht _ ih =>
    simp only [List.map_cons, List.nodup_cons, List.mem_map, not_exists, not_and] at hnodup
    obtain ⟨B, hB, hopen, hholds⟩ := hb
    have hr : B.typeOf? ⟨n⟩ = some t := (hregisters 0 t rfl).typeOf? hB
    obtain ⟨symbols, hdefine, hholds'⟩ := hholds.define (hnew p (by simp)) ht (r := some ⟨n⟩)
      fun r' hr' => Option.some.inj hr' ▸ hr
    have hrun : Runs (define b p.name ⟨t, some ⟨n⟩⟩) s () _ :=
      runs_define.2 ⟨B, symbols, hB, hdefine, rfl⟩
    have hnew' : ∀ q ∈ ps, ∀ v ∈ Γ ++ [⟨p.name, p.type, true⟩], v.name ≠ q.name := by
      intro q hq v hv
      rcases List.mem_append.1 hv with hv | hv
      · exact hnew q (by simp [hq]) v hv
      · obtain rfl := List.mem_singleton.1 hv
        exact fun heq => hnodup.1 q hq heq.symm
    have hregisters' : ∀ k u, ts[k]? = some u →
        (s.updateBlock b (·.withLocals { B.locals with symbols })).graph.HasType b ⟨n + 1 + k⟩ u := by
      intro k u hk
      rw [show n + 1 + k = n + (k + 1) by omega]
      exact (hregisters (k + 1) u hk).extend (stays_define hrun).graph_extends
    obtain ⟨s', hrest, hfits⟩ := ih hnodup.2 hnew' ⟨_, updateBlock_self hB _, hopen, hholds'⟩ hregisters'
    refine ⟨s', Runs.bind_iff.2 ⟨(), _, hrun, hrest⟩, ?_⟩
    simpa [parameterContext] using hfits

theorem exists_runs_entry (s : Builder) {ps : List Slot} (l : LayoutId)
    (hps : List.Forall₂ (fun p t => low p.type = some t) ps ts) (hnodup : (ps.map (·.name)).Nodup) :
    let parameters := ps.zipWith (fun p t => Parameter.mk t (some p.name)) ts
    ∃ b s₁ s₂ s₃ E, Runs (addBlock (⟨.object l, none⟩ :: parameters)) s b s₁ ∧
      Runs (setLocals b { returnSlot := some ⟨0⟩ }) s₁ () s₂ ∧
      Runs (defineParameters b 1 parameters) s₂ () s₃ ∧ s₃.graph.block? b = some E ∧
      E.parameterTypes = .object l :: ts ∧
      s₃.graph.Fits low b (parameterContext ps) [] (some (.object l)) := by
  intro parameters
  let B : Block := { id := s.graph.nextId, parameters := ⟨.object l, none⟩ :: parameters }
  have hB : (s.appendBlock B).graph.block? s.graph.nextId = some B := by simp [B]
  have htypes : B.parameterTypes = .object l :: ts := by
    suffices h : parameters.map (·.type) = ts by simp [Block.parameterTypes, B, h]
    clear hnodup hB
    induction hps with
    | nil => rfl
    | cons _ _ ih => exact congrArg _ ih
  have hset : Runs (setLocals s.graph.nextId { returnSlot := some ⟨0⟩ }) (s.appendBlock B) () _ :=
    runs_setLocals.2 ⟨⟨B, hB⟩, rfl⟩
  have hB' := updateBlock_self hB (·.withLocals { returnSlot := some ⟨0⟩ })
  have hregister (k : Nat) (t : ValueType) (hk : (ValueType.object l :: ts)[k]? = some t) :
      (B.withLocals { returnSlot := some ⟨0⟩ }).typeOf? ⟨k⟩ = some t :=
    Block.typeOf?_of_parameterTypes (hk ▸ congrArg (·[k]?) htypes)
  have hfits : ((s.appendBlock B).updateBlock s.graph.nextId
      (·.withLocals { returnSlot := some ⟨0⟩ })).graph.Fits low s.graph.nextId [] []
        (some (.object l)) :=
    ⟨_, hB', rfl, .nil, .nil, .cons (hregister 0 _ rfl) .nil⟩
  obtain ⟨s₃, hdefine, hfits'⟩ := exists_runs_defineParameters (n := 1) hps hnodup (by simp) hfits
    fun k t hk => ⟨_, hB', hregister _ _ (by rw [Nat.add_comm]; exact hk)⟩
  obtain ⟨E, hE, hext⟩ := (stays_defineParameters hdefine).graph_extends _ _ hB'
  exact ⟨_, _, _, s₃, E, runs_addBlock.2 ⟨rfl, rfl⟩, hset, hdefine, hE,
    hext.parameterTypes.trans htypes, by simpa using hfits'⟩

theorem isSignature_iff : isSignature D f = true ↔
    (f.result.isVoid = true ∨ isValueType D f.result = true) ∧
      areValueTypes D (f.parameters.map (·.type)) = true ∧ (f.parameters.map (·.name)).Nodup := by
  simp [isSignature, FunctionDecl.type, isValueType, and_assoc]

theorem succeeds_declareFunction
    (hD : ∀ c, (D.fields? c).isSome = true → ∃ l, s.classes[c.index]? = some l)
    (hf : isSignature D f = true) (hnew : Unknown [f.id] [] s) :
    Succeeds (declareFunction f) s fun _ s' => s'.loops = s.loops ∧ ∃ e, Declares s' f e := by
  obtain ⟨hresult, hparameters, hnodup⟩ := isSignature_iff.1 hf
  have known {t : State} (hs : Rebuilds [] s [] t) (c : ClassId) (hc : (D.fields? c).isSome = true) :
      ∃ l, t.classes[c.index]? = some l := by
    obtain ⟨l, hl⟩ := hD c hc
    exact ⟨l, hs.grows.classes _ l hl⟩
  obtain ⟨vt, s₁, hvt⟩ := exists_runs_lowerType hD f.result hresult
  have h₁ := settles_lowerType _ hvt
  obtain ⟨l, u, hl⟩ := exists_runs_returnLayout s₁.toBuilder vt
  have hreturn : Runs (liftM (returnLayout vt) : LowerM LayoutId) s₁ l { s₁ with toBuilder := u } :=
    Runs.lift_build_iff.2 ⟨u, hl, rfl⟩
  have h₂ := h₁.trans (settles_returnLayout hreturn)
  obtain ⟨ts, s₃, hts⟩ := exists_runs_lowerTypes (known h₂) _ hparameters
  have h₂₃ := settles_lowerTypes _ hts
  have h₃ := h₂.trans h₂₃
  have hfits := (loweredAll?_eq_some.1 (loweredAll?_of_runs _ ts hts))
  rw [List.forall₂_map_left_iff] at hfits
  obtain ⟨b, u₁, u₂, u₃, E, hadd, hset, hdefine, hE, htypes, hfits⟩ :=
    exists_runs_entry s₃.toBuilder l hfits hnodup
  let e : FunctionEntry := ⟨f.name, b, l⟩
  let s₄ : State := { s₃ with toBuilder := u₃, functions := s₃.functions.insert f.id.index e }
  have hmove : Moves [b] [] s₃.toBuilder [b] u₃ :=
    ((moves_addBlock hadd).trans (moves_setLocals hset)).trans
      (stays_defineParameters hdefine).toMoves
  have hgrow : Grows s₃ s₄ := (Shifts.insert hmove f.id rfl).grows
    (hnew.after h₃.shifts (by simp) (by simp))
  have hvt' : lowered? s₃ f.result = some vt :=
    ((settles_returnLayout hreturn).trans h₂₃).grows.lowered? _ _ (lowered?_of_runs _ _ hvt)
  have hl' : s₃.returnLayouts.get? vt = some l := h₂₃.grows.returns _ _ (returnLayout_get? hl)
  refine ⟨(), s₄, ?_, h₃.loops, e, ?_, ⟨vt, hgrow.lowered? _ _ hvt', hgrow.returns _ _ hl'⟩, ⟨E, hE, ?_⟩,
    hfits.mono hgrow.lowered? fun _ h => h⟩
  · simp only [declareFunction, Runs.bind_iff, Runs.modify_iff, Runs.lift_build_iff, runs_tell]
    exact ⟨vt, s₁, hvt, l, _, ⟨u, hl, rfl⟩, ts, s₃, hts, b, _, ⟨u₁, hadd, rfl⟩, (), _,
      ⟨u₂, hset, rfl⟩, (), _, ⟨u₃, hdefine, rfl⟩, (), _, ⟨u₃, rfl, rfl⟩, rfl⟩
  · simp [s₄]
  · refine hgrow.lowered? _ _ ?_
    rw [htypes, FunctionDecl.type]
    simp only [lowered?, Option.bind_eq_some_iff, Option.map_eq_some_iff]
    exact ⟨vt, hvt', l, hl', ts, loweredAll?_of_runs _ ts hts, rfl⟩

theorem succeeds_declareFunctions {fs : List FunctionDecl}
    (hD : ∀ c, (D.fields? c).isSome = true → ∃ l, s.classes[c.index]? = some l)
    (hfs : ∀ f ∈ fs, isSignature D f = true) (hnodup : (fs.map (·.id)).Nodup)
    (hnew : Unknown (fs.map (·.id)) [] s) :
    Succeeds (fs.forM declareFunction) s fun _ s' =>
      s'.loops = s.loops ∧ ∀ f ∈ fs, ∃ e, Declares s' f e := by
  induction fs generalizing s with
  | nil => exact .pure ⟨rfl, by simp⟩
  | cons f fs ih =>
    simp only [List.map_cons, List.nodup_cons] at hnodup
    have hfirst : Unknown [f.id] [] s := hnew.mono (by simp) (by simp)
    refine (succeeds_declareFunction hD (hfs f (by simp)) hfirst).bind ?_
    rintro _ s₁ hrun ⟨hloops, e, he⟩
    obtain ⟨_, hshift, -⟩ := shifts_declareFunction hrun
    have hne : ∀ g ∈ [f.id], ∀ g' ∈ fs.map (·.id), g ≠ g' := by
      rintro g hg g' hg' rfl
      exact hnodup.1 (List.mem_singleton.1 hg ▸ hg')
    have hnew' : Unknown (fs.map (·.id)) [] s₁ :=
      (hnew.mono (fun _ h => List.mem_cons_of_mem _ h) (by simp)).after hshift hne (by simp)
    have hD' : ∀ c, (D.fields? c).isSome = true → ∃ l, s₁.classes[c.index]? = some l := by
      intro c hc
      obtain ⟨l, hl⟩ := hD c hc
      exact ⟨l, (hshift.grows hfirst).classes _ l hl⟩
    refine (ih hD' (fun g hg => hfs g (by simp [hg])) hnodup.2 hnew').imp ?_
    rintro _ s₂ hrest ⟨hloops', hdeclared⟩
    refine ⟨hloops'.trans hloops, fun g hg => ?_⟩
    rcases List.mem_cons.1 hg with rfl | hg
    · obtain ⟨es, hshifts, -⟩ := shifts_declareFunctions hnodup.2 hrest
      exact ⟨e, he.mono (hshifts.grows hnew').toRetains fun _ => hshifts.keeps (by simp)⟩
    · exact hdeclared g hg

theorem succeeds_declares (cs : List ClassDecl) :
    Succeeds (cs.forM declare) s fun _ s' => s'.loops = s.loops := by
  induction cs generalizing s with
  | nil => exact .pure rfl
  | cons c cs ih =>
    obtain ⟨_, s', hrun, hloops⟩ := ih
    exact ⟨_, s', Runs.forM_cons.2 ⟨_, runs_declare.2 rfl, hrun⟩, hloops⟩

structure Fills (cs : List ClassDecl) (s s' : State) : Prop where
  retains : Retains s s'
  keeps : ∀ b B, s.graph.block? b = some B → s'.graph.block? b = some B
  loops : s'.loops = s.loops
  others : ∀ l L, s.graph.layout? l = some L → (∀ c ∈ cs, s.classes[c.id.index]? ≠ some l) →
    s'.graph.layout? l = some L
  defined : ∀ c ∈ cs, ∃ l L, s'.classes[c.id.index]? = some l ∧ s'.graph.layout? l = some L ∧
    loweredAll? s' (c.fields.map (·.type)) = some L.fields

theorem succeeds_defineFields {cs : List ClassDecl}
    (hD : ∀ c, (D.fields? c).isSome = true → ∃ l, s.classes[c.index]? = some l)
    (hcs : ∀ c ∈ cs, areValueTypes D (c.fields.map (·.type)) = true)
    (hlayouts : ∀ c ∈ cs, ∃ l L, s.classes[c.id.index]? = some l ∧ s.graph.layout? l = some L)
    (hinj : ∀ (k k' : Nat) (l : LayoutId), s.classes[k]? = some l → s.classes[k']? = some l → k = k')
    (hnodup : (cs.map (·.id)).Nodup) :
    Succeeds (cs.forM defineFields) s fun _ s' => Fills cs s s' := by
  induction cs generalizing s with
  | nil => exact .pure ⟨.refl s, fun _ _ h => h, rfl, fun _ _ h _ => h, by simp⟩
  | cons c cs ih =>
    simp only [List.map_cons, List.nodup_cons] at hnodup
    obtain ⟨ts, s₁, hts⟩ := exists_runs_lowerTypes hD _ (hcs c (by simp))
    have h₁ := settles_lowerTypes _ hts
    have hclasses (k : Nat) : s₁.classes[k]? = s.classes[k]? := h₁.shifts.classes k (by simp)
    obtain ⟨l, L, hl, hL⟩ := hlayouts c (by simp)
    have hL₁ := h₁.grows.layouts l L hL
    let s₂ : State := { s₁ with toBuilder := s₁.toBuilder.setFields l ts }
    have hretain : Retains s₁ s₂ := ⟨.refl _, fun _ _ h => h, fun _ _ h => h, fun _ _ h => h⟩
    have hrun : Runs (defineFields c) s () s₂ := by
      simp only [defineFields, Runs.bind_iff, runs_classLayout, Runs.lift_build_iff, runs_defineClass]
      exact ⟨ts, s₁, hts, l, s₁, ⟨(hclasses _).trans hl, rfl⟩, _, ⟨⟨L, hL₁⟩, rfl⟩, rfl⟩
    have hother {k : LayoutId} {K : Layout} (hk : s.graph.layout? k = some K) (hne : k ≠ l) :
        s₂.graph.layout? k = some K := by
      simp [s₂, setFields_layout?, h₁.grows.layouts k K hk, hne]
    have hlayouts' : ∀ d ∈ cs, ∃ l L, s₂.classes[d.id.index]? = some l ∧
        s₂.graph.layout? l = some L := by
      intro d hd
      obtain ⟨k, K, hk, hK⟩ := hlayouts d (by simp [hd])
      exact ⟨k, _, (hclasses _).trans hk, by simp [s₂, setFields_layout?, h₁.grows.layouts k K hK]; rfl⟩
    have hapart : ∀ d ∈ cs, s₂.classes[d.id.index]? ≠ some l := by
      intro d hd hdl
      have hid : d.id.index = c.id.index := hinj _ _ l ((hclasses _).symm.trans hdl) hl
      exact hnodup.1 (List.mem_map.2 ⟨d, hd, by cases hd : d.id; cases hc : c.id; simp_all⟩)
    obtain ⟨_, s', hrest, hfill⟩ := ih (s := s₂)
      (fun d hd => by
        obtain ⟨k, hk⟩ := hD d hd
        exact ⟨k, (hclasses _).trans hk⟩)
      (fun d hd => hcs d (by simp [hd])) hlayouts'
      (fun k k' m hm hm' => hinj k k' m ((hclasses k).symm.trans hm) ((hclasses k').symm.trans hm'))
      hnodup.2
    refine ⟨_, s', Runs.forM_cons.2 ⟨s₂, hrun, hrest⟩,
      (h₁.grows.toRetains.trans hretain).trans hfill.retains, fun b B hB => ?_,
      hfill.loops.trans h₁.loops, fun k K hk hne => ?_, ?_⟩
    · exact hfill.keeps b B (h₁.keeps (by simp) hB)
    · refine hfill.others k K (hother hk ?_) fun d hd hdk => ?_
      · rintro rfl
        exact hne c (by simp) hl
      · exact hne d (by simp [hd]) ((hclasses _).symm.trans hdk)
    · intro d hd
      rcases List.mem_cons.1 hd with rfl | hd
      · refine ⟨l, { L with fields := ts }, hfill.retains.classes _ l ((hclasses _).trans hl),
          hfill.others l _ (by simp [s₂, setFields_layout?, hL₁]) hapart, ?_⟩
        exact (hretain.trans hfill.retains).loweredAll? _ ts (loweredAll?_of_runs _ ts hts)
      · exact hfill.defined d hd

theorem Knows.enter {classes : List ClassDecl} (h : Knows D s)
    (hclasses : ∀ c ∈ classes, ∃ l L, s.classes[c.id.index]? = some l ∧
      s.graph.layout? l = some L ∧ loweredAll? s (c.fields.map (·.type)) = some L.fields)
    (hfunctions : ∀ f ∈ functions, ∃ e, Declares s f e) : Knows (D.enter classes functions) s := by
  refine ⟨fun c ts hc => ?_, fun f t hf => ?_, h.returning⟩
  · simp only [Declared.fields?, Declared.enter, List.find?_append, Option.map_or,
      Option.or_eq_some_iff, Option.map_eq_some_iff] at hc
    rcases hc with ⟨d, hd, rfl⟩ | ⟨-, hc⟩
    · obtain rfl : d.id = c := by simpa using List.find?_some hd
      exact hclasses d (List.mem_of_find?_eq_some hd)
    · exact h.fields c ts (Option.map_eq_some_iff.2 hc)
  · simp only [Declared.functionType?, Declared.enter, List.find?_append, Option.map_or,
      Option.or_eq_some_iff, Option.map_eq_some_iff] at hf
    rcases hf with ⟨d, hd, rfl⟩ | ⟨-, hf⟩
    · obtain rfl : d.id = f := by simpa using List.find?_some hd
      obtain ⟨e, he⟩ := hfunctions d (List.mem_of_find?_eq_some hd)
      obtain ⟨E, hE, htype⟩ := he.type
      exact ⟨e, E, he.entry, hE, htype⟩
    · exact h.functions f t (Option.map_eq_some_iff.2 hf)

theorem Knows.classes_enter {classes : List ClassDecl} (functions : List FunctionDecl)
    (h : Knows D s) {n : Nat} (hclasses : ∀ c ∈ classes, ∃ l, s.HasClass n c.id l) (c : ClassId)
    (hc : ((D.enter classes functions).fields? c).isSome = true) :
    ∃ l, s.classes[c.index]? = some l := by
  obtain ⟨ts, hc⟩ := Option.isSome_iff_exists.1 hc
  simp only [Declared.fields?, Declared.enter, List.find?_append, Option.map_or,
    Option.or_eq_some_iff, Option.map_eq_some_iff] at hc
  rcases hc with ⟨d, hd, -⟩ | ⟨-, hc⟩
  · obtain rfl : d.id = c := by simpa using List.find?_some hd
    obtain ⟨l, hl, -⟩ := hclasses d (List.mem_of_find?_eq_some hd)
    exact ⟨l, hl⟩
  · obtain ⟨l, -, hl, -⟩ := h.fields c ts (Option.map_eq_some_iff.2 hc)
    exact ⟨l, hl⟩

structure Fresh (ss : List Scope) (s : State) : Prop where
  functions : (functionIds ss).Nodup
  classes : (classIds ss).Nodup
  unknown : Unknown (functionIds ss) (classIds ss) s

namespace Fresh

variable {ss ss' : List Scope} {X Y : List BlockId}

theorem left (h : Fresh (ss ++ ss') s) : Fresh ss s := by
  obtain ⟨hfunctions, hclasses, hunknown⟩ := h
  rw [functionIds_append] at hfunctions hunknown
  rw [classIds_append] at hclasses hunknown
  exact ⟨hfunctions.of_append_left, hclasses.of_append_left,
    hunknown.mono (fun _ => List.mem_append_left _) fun _ => List.mem_append_left _⟩

theorem right (h : Fresh (ss ++ ss') s) (hs : Shifts (functionIds ss) (classIds ss) X s Y s') :
    Fresh ss' s' := by
  obtain ⟨hfunctions, hclasses, hunknown⟩ := h
  rw [functionIds_append] at hfunctions hunknown
  rw [classIds_append] at hclasses hunknown
  have hmono := hunknown.mono (fun _ => List.mem_append_right _) fun _ => List.mem_append_right _
  exact ⟨hfunctions.of_append_right, hclasses.of_append_right,
    hmono.after hs (List.nodup_append.1 hfunctions).2.2 (List.nodup_append.1 hclasses).2.2⟩

theorem shift (h : Fresh ss s) (hs : Shifts [] [] X s Y s') : Fresh ss s' :=
  ⟨h.functions, h.classes, h.unknown.after hs (by simp) (by simp)⟩

theorem withLoops (h : Fresh ss s) (ls : List LoopFrame) : Fresh ss { s with loops := ls } :=
  ⟨h.functions, h.classes, h.unknown.1, h.unknown.2⟩

end Fresh

section Code

theorem addsNoCode_defineParameters {s s' : Builder} {entry : BlockId} {n : Nat}
    {ps : List Parameter} {u : Unit} (h : Runs (defineParameters entry n ps) s u s') :
    s.graph.AddsNoCode s'.graph := by
  induction ps generalizing s n with
  | nil =>
    obtain ⟨-, rfl⟩ := Runs.pure_iff.1 h
    exact .of_blocks fun _ => rfl
  | cons p ps ih =>
    obtain ⟨t, name⟩ := p
    cases name with
    | none => exact ih h
    | some name =>
      obtain ⟨_, s₁, hdefine, hrest⟩ := Runs.bind_iff.1 h
      obtain ⟨B, symbols, -, -, rfl⟩ := runs_define.1 hdefine
      exact (addsNoCode_withLocals _).trans (ih hrest)

theorem addsNoCode_declareFunction {f : FunctionDecl} {u : Unit}
    (h : Runs (declareFunction f) s u s') : s.graph.AddsNoCode s'.graph := by
  obtain ⟨result, t₁, returns, t₂, types, t₃, entry, t₄, t₅, t₆, hresult, hreturns, htypes, hadd, hset,
    hdefine, rfl⟩ := declareFunction_cases h
  have hsettle : Rebuilds [] s [] t₃ := ((settles_lowerType _ hresult).trans
    (settles_returnLayout hreturns)).trans (settles_lowerTypes _ htypes)
  obtain ⟨-, rfl⟩ := runs_addBlock.1 hadd
  obtain ⟨-, rfl⟩ := runs_setLocals.1 hset
  exact ((hsettle.addsNoCode.trans (addsNoCode_appendBlock rfl)).trans
    (addsNoCode_withLocals _)).trans (addsNoCode_defineParameters hdefine)

theorem addsNoCode_forM {α : Type} {f : α → LowerM Unit}
    (hf : ∀ {a s u s'}, Runs (f a) s u s' → s.graph.AddsNoCode s'.graph) {as : List α} {u : PUnit}
    (h : Runs (as.forM f) s u s') : s.graph.AddsNoCode s'.graph := by
  induction as generalizing s with
  | nil =>
    obtain rfl := Runs.forM_nil.1 h
    exact .of_blocks fun _ => rfl
  | cons a as ih =>
    obtain ⟨t, ha, has⟩ := Runs.forM_cons.1 h
    exact (hf ha).trans (ih has)

theorem addsNoCode_hoist {classes : List ClassDecl} {functions : List FunctionDecl}
    {s₁ s₂ : State} {u v w : PUnit} (hclasses : Runs (classes.forM declare) s u s₁)
    (hfunctions : Runs (functions.forM declareFunction) s₁ v s₂)
    (hfields : Runs (classes.forM defineFields) s₂ w s') : s.graph.AddsNoCode s'.graph := by
  refine ((addsNoCode_forM ?_ hclasses).trans
    (addsNoCode_forM addsNoCode_declareFunction hfunctions)).trans (addsNoCode_forM ?_ hfields)
  · rintro c s u s' h
    obtain rfl := runs_declare.1 h
    exact .of_blocks fun _ => rfl
  · rintro c s u s' h
    simp only [defineFields, Runs.bind_iff, runs_classLayout, Runs.lift_build_iff,
      runs_defineClass] at h
    obtain ⟨fields, t₁, htypes, l, _, ⟨-, rfl⟩, _, ⟨-, rfl⟩, rfl⟩ := h
    exact (settles_lowerTypes _ htypes).addsNoCode.trans (.of_blocks fun _ => rfl)

end Code

theorem exists_hoist {classes : List ClassDecl} (h : Knows D s) (hregistered : s.Registered)
    (hclasses : ∀ c ∈ classes,
      areValueTypes (D.enter classes functions) (c.fields.map (·.type)) = true)
    (hfunctions : ∀ f ∈ functions, isSignature (D.enter classes functions) f = true)
    (hnodup : (functions.map (·.id)).Nodup) (hnodup' : (classes.map (·.id)).Nodup)
    (hnew : Unknown (functions.map (·.id)) (classes.map (·.id)) s) :
    ∃ s₁ s₂ s₃, Runs (classes.forM declare) s ⟨⟩ s₁ ∧
      Runs (functions.forM declareFunction) s₁ ⟨⟩ s₂ ∧ Runs (classes.forM defineFields) s₂ ⟨⟩ s₃ ∧
      s₃.loops = s.loops ∧ Builds s s₃ ∧ Knows (D.enter classes functions) s₃ ∧
      ∀ f ∈ functions, ∃ e, Declares s₃ f e := by
  obtain ⟨_, s₁, hdeclare, hloops₁⟩ := succeeds_declares (s := s) classes
  obtain ⟨hshift₁, hnew₁⟩ := shifts_declares hdeclare
  have hgrow₁ := hshift₁.grows (hnew.mono (by simp) fun _ h => h)
  have hknown₁ := (h.mono hgrow₁).classes_enter functions hnew₁
  have hunknown₁ : Unknown (functions.map (·.id)) [] s₁ :=
    (hnew.mono (fun _ h => h) (by simp)).after hshift₁ (by simp) (by simp)
  obtain ⟨_, s₂, hdeclare', hloops₂, hdeclared⟩ :=
    succeeds_declareFunctions hknown₁ hfunctions hnodup hunknown₁
  obtain ⟨es, hshift₂, -⟩ := shifts_declareFunctions hnodup hdeclare'
  have hgrow₂ := hshift₂.grows hunknown₁
  have hregistered₂ := hshift₂.registered (hshift₁.registered hregistered)
  have hknown₂ : ∀ c, ((D.enter classes functions).fields? c).isSome = true →
      ∃ l, s₂.classes[c.index]? = some l := by
    intro c hc
    obtain ⟨l, hl⟩ := hknown₁ c hc
    exact ⟨l, hgrow₂.classes _ l hl⟩
  have hlayouts : ∀ c ∈ classes, ∃ l L, s₂.classes[c.id.index]? = some l ∧
      s₂.graph.layout? l = some L := by
    intro c hc
    obtain ⟨l, hl, -, L, -, hL, -⟩ := hnew₁ c hc
    exact ⟨l, L, hgrow₂.classes _ l hl, hgrow₂.layouts l L hL⟩
  obtain ⟨_, s₃, hdefine, hfill⟩ :=
    succeeds_defineFields hknown₂ hclasses hlayouts hregistered₂.layout_inj hnodup'
  obtain ⟨_, hshift, -⟩ := shifts_hoist hnodup hdeclare hdeclare' hdefine
  have hgrow := hshift.grows hnew
  have hcode := addsNoCode_hoist hdeclare hdeclare' hdefine
  have hdeclared' : ∀ f ∈ functions, ∃ e, Declares s₃ f e := by
    intro f hf
    obtain ⟨e, he⟩ := hdeclared f hf
    exact ⟨e, he.mono hfill.retains (hfill.keeps _)⟩
  exact ⟨s₁, s₂, s₃, hdeclare, hdeclare', hdefine, hfill.loops.trans (hloops₂.trans hloops₁),
    ⟨hgrow, fun hheap => hheap.same hgrow.graph hgrow.layouts hcode⟩,
    (h.mono hgrow).enter hfill.defined hdeclared', hdeclared'⟩

end BlockGraph.Lowering
