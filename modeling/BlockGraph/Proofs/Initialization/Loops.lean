import BlockGraph.Proofs.Initialization.Expressions

namespace BlockGraph.Lowering

open Builder

variable {p : Program}

structure Bounds (O : Origins) (g : Graph) (f : LoopFrame) (Γ : List Binding) : Prop where
  waiting : ∀ q ∈ f.targets.waiting, (∃ Q, g.block? q = some Q) ∧ Γ ⊆ O.scope q
  goals : ∀ c ∈ f.targets.goals, (∃ C, g.block? c = some C) ∧ O.outer c ⊆ Γ

abbrev LoopsBound (O : Origins) (g : Graph) : List LoopFrame → List (List Binding) → Prop :=
  List.Forall₂ (Bounds O g)

section Bounds

variable {O O' : Origins} {s s' : State} {f : LoopFrame} {Γ : List Binding}
  {Γs : List (List Binding)}

theorem Bounds.mono (h : Bounds O s.graph f Γ) (hrec : Records p O s O' s') : Bounds O' s'.graph f Γ where
  waiting q hq := by
    obtain ⟨⟨Q, hQ⟩, hscope⟩ := h.waiting q hq
    obtain ⟨Q', hQ', -⟩ := hrec.grows q Q hQ
    exact ⟨⟨Q', hQ'⟩, fun _ hv => hrec.scope hQ (hscope hv)⟩
  goals c hc := by
    obtain ⟨⟨C, hC⟩, houter⟩ := h.goals c hc
    obtain ⟨C', hC', -⟩ := hrec.grows c C hC
    exact ⟨⟨C', hC'⟩, by rwa [hrec.outer c C hC]⟩

theorem LoopsBound.mono {ls : List LoopFrame} (h : LoopsBound O s.graph ls Γs)
    (hrec : Records p O s O' s') : LoopsBound O' s'.graph ls Γs :=
  h.imp fun _ _ hf => hf.mono hrec

theorem Records.withLoops (h : Records p O s O' s') (ls : List LoopFrame) :
    Records p O s O' { s' with loops := ls } :=
  ⟨h.before, ⟨h.after.chronicle, h.after.roots, h.after.made, h.after.parameters⟩, h.grows,
    h.outer, h.declared, h.given⟩

theorem LoopsBound.exists_bounds {inner outer : List LoopFrame} {g : Graph}
    (h : LoopsBound O g (inner ++ f :: outer) Γs) :
    ∃ Γ ∈ Γs, Bounds O g f Γ ∧ ∀ f', Bounds O g f' Γ → LoopsBound O g (inner ++ f' :: outer) Γs := by
  induction inner generalizing Γs with
  | nil =>
    obtain ⟨Γ, Γs, hf, houter, rfl⟩ := List.forall₂_cons_left_iff.1 h
    exact ⟨Γ, by simp, hf, fun f' hf' => .cons hf' houter⟩
  | cons f₀ inner ih =>
    obtain ⟨Γ₀, Γs, hf₀, hrest, rfl⟩ := List.forall₂_cons_left_iff.1 h
    obtain ⟨Γ, hΓ, hf, hreplace⟩ := ih hrest
    exact ⟨Γ, by simp [hΓ], hf, fun f' hf' => .cons hf₀ (hreplace f' hf')⟩

theorem Bounds.enqueue {b : BlockId} (h : Bounds O s.graph f Γ) (kind : LoopJump)
    (hb : s.graph.IsOpen b) (hscope : Γ ⊆ O.scope b) : Bounds O s.graph (f.enqueue kind b) Γ := by
  obtain ⟨B, hB, -⟩ := hb
  obtain ⟨label, targets⟩ := f
  cases targets with
  | known test exit => exact h
  | queued leaving repeating =>
    refine ⟨fun q hq => ?_, by cases kind <;> simp [LoopFrame.enqueue, LoopTargets.enqueue, LoopTargets.goals]⟩
    have hmem := (LoopTargets.enqueue_waiting leaving repeating kind b).mem_iff.1 hq
    rcases List.mem_append.1 hmem with hq | hq
    · exact h.waiting q hq
    · obtain rfl := List.mem_singleton.1 hq
      exact ⟨⟨B, hB⟩, hscope⟩

end Bounds

structure Places (p : Program) (Γs : List (List Binding)) (O : Origins) (s : State) (b : BlockId) : Prop where
  tracks : Tracks p O s
  isOpen : s.graph.IsOpen b
  loops : LoopsBound O s.graph s.loops Γs
  inside : ∀ Γ ∈ Γs, Γ ⊆ O.scope b

structure Reaches (p : Program) (Γs : List (List Binding)) (O : Origins) (s : State) (b : BlockId)
    (O' : Origins) (s' : State) (Y : List BlockId) : Prop where
  records : Records p O s O' s'
  loops : LoopsBound O' s'.graph s'.loops Γs
  scope : ∀ c ∈ Y, O.scope b ⊆ O'.scope c

section Places

variable {Γs : List (List Binding)} {O O' O'' : Origins} {s s' s'' : State} {b c : BlockId}
  {Y : List BlockId}

theorem Reaches.trans (h : Reaches p Γs O s b O' s' [c]) (k : Reaches p Γs O' s' c O'' s'' Y) :
    Reaches p Γs O s b O'' s'' Y :=
  ⟨h.records.trans k.records, k.loops, fun d hd v hv => k.scope d hd (h.scope c (by simp) hv)⟩

theorem Reaches.places (h : Reaches p Γs O s b O' s' Y) (hb : Places p Γs O s b) (hc : c ∈ Y)
    (hopen : s'.graph.IsOpen c) : Places p Γs O' s' c :=
  ⟨h.records.after, hopen, h.loops, fun Γ hΓ _ hv => h.scope c hc (hb.inside Γ hΓ hv)⟩

theorem Places.reaches (h : Places p Γs O s b) (hrec : Records p O s O' s') (hloops : s'.loops = s.loops)
    (hscope : ∀ c ∈ Y, O.scope b ⊆ O'.scope c) : Reaches p Γs O s b O' s' Y :=
  ⟨hrec, hloops ▸ h.loops.mono hrec, hscope⟩

end Places

def Lands (p : Program) (b : BlockId) (s : State) (Y : List BlockId) (s' : State) : Prop :=
  ∀ ⦃Γs O⦄, Places p Γs O s b → ∃ O', Reaches p Γs O s b O' s' Y

section Lands

variable {b c : BlockId} {s s' s'' : State} {Y : List BlockId} {fs : List FunctionId} {cs : List ClassId}

theorem Lands.refl (b : BlockId) (s : State) : Lands p b s [b] s :=
  fun _ O h => ⟨O, .refl h.tracks, h.loops, by simp⟩

theorem Lands.trans (h : Lands p b s [c] s') (hs : Shifts fs cs [b] s [c] s') (k : Lands p c s' Y s'') :
    Lands p b s Y s'' := by
  intro Γs O hb
  obtain ⟨O', hreach⟩ := h hb
  have hopen := allOpen_singleton.1 (hs.allOpen (allOpen_singleton.2 hb.isOpen))
  obtain ⟨O'', hreach'⟩ := k (hreach.places hb (by simp) hopen)
  exact ⟨O'', hreach.trans hreach'⟩

theorem Inherits.lands (h : Inherits p b s c s') : Lands p b s [c] s' := by
  intro Γs O hb
  obtain ⟨O', hrec, hscope⟩ := h.2 O hb.tracks hb.isOpen
  exact ⟨O', hb.reaches hrec h.1.loops (by simpa using hscope)⟩

end Lands

/-! Jumps. -/

theorem Records.jump {O : Origins} {s : State} {b c : BlockId} {t : Builder} {u : Unit}
    (h : Tracks p O s) (hscope : O.outer c ⊆ O.scope b) (hrun : Runs (jump b c) s.toBuilder u t) :
    Records p O s O { s with toBuilder := t } := by
  refine .keep h (.jump h.chronicle hscope hrun) (moves_jump hrun).1.graph_extends ?_
  exact newBlocks_jump hrun

theorem Records.report {O : Origins} {s : State} {d : Diagnostic} {t : Builder} {u : Unit} (h : Tracks p O s)
    (hrun : Runs (report d) s.toBuilder u t) : Records p O s O { s with toBuilder := t } := by
  obtain rfl := runs_report.1 hrun
  exact .quiet h rfl

theorem lands_lowerJump {b : BlockId} {s s' : State} {kind : LoopJump} {label : Option String} {u : Unit}
    (h : Runs (lowerJump b kind label) s u s') : Lands p b s [] s' := by
  intro Γs O hb
  obtain ⟨inner, f, outer, hloops, -, -, h⟩ := runs_lowerJump.1 h
  have hbound := hb.loops
  rw [hloops] at hbound
  obtain ⟨Γ, hΓ, hf, hreplace⟩ := hbound.exists_bounds
  have hinside := hb.inside Γ hΓ
  split at h
  case h_1 test exit htargets =>
    obtain ⟨t, ht, rfl⟩ := h
    have hgoal : LoopJump.target test exit kind ∈ f.targets.goals := by
      rw [htargets]
      cases kind <;> simp [LoopTargets.goals, LoopJump.target]
    obtain ⟨-, houter⟩ := hf.goals _ hgoal
    exact ⟨O, hb.reaches (.jump hb.tracks (fun v hv => hinside (houter hv)) ht) rfl (by simp)⟩
  case h_2 leaving repeating htargets =>
    subst h
    exact ⟨O, (Records.refl hb.tracks).withLoops _, hreplace _ (hf.enqueue kind hb.isOpen hinside), by simp⟩

/-! The end of a loop. -/

section Close

variable {O : Origins} {s s' : State} {b : BlockId} {leaving repeating : List BlockId}
  {exit : Option BlockId} {t : Builder}

theorem records_joins (h : Tracks p O s) (hscope : ∀ p ∈ leaving, O.scope b ⊆ O.scope p)
    (hjoin : Joins b leaving s exit s') (hmade : ∀ c ∈ exit, p.Makes c (s'.graph.symbols c)) :
    ∃ O', Records p O s O' s' ∧ ∀ c ∈ exit.toList, O.scope b ⊆ O'.scope c := by
  rcases hjoin with ⟨-, rfl, rfl⟩ | ⟨-, c, t, hconverge, rfl, rfl⟩
  · exact ⟨O, .refl h, by simp⟩
  · obtain ⟨O', hrec, -, hc, -⟩ := Records.converge h hscope hconverge (hmade c rfl)
    exact ⟨O', hrec, by simp [hc]⟩

theorem records_retest {inside c tested again out : BlockId} {r : Register} {s₁ : State} {t₁ t₂ : Builder}
    {I : Block} (h : Tracks p O s) (hopen : s.AllOpen repeating)
    (hb : s.graph.block? b ≠ none) (hI : s.graph.block? inside = some I)
    (hinside : O.outer inside ⊆ O.scope b)
    (hscope : ∀ p ∈ leaving ++ repeating, s.graph.block? p ≠ none ∧ O.scope b ⊆ O.scope p)
    (hconverge : Runs (converge b repeating) s.toBuilder c t) (hmade : p.Makes c (t.graph.symbols c))
    (hexpr : Inherits p c { s with toBuilder := t } tested s₁)
    (hlast : Runs (lastRegister tested) s₁.toBuilder r s₁.toBuilder)
    (hbranch : Runs (convergeBranch b leaving tested r) s₁.toBuilder (again, out) t₁)
    (hmades : p.Makes again (t₁.graph.symbols again) ∧ p.Makes out (t₁.graph.symbols out))
    (hjump : Runs (jump again inside) t₁ () t₂) :
    ∃ O', Records p O s O' { s₁ with toBuilder := t₂ } ∧ O.scope b ⊆ O'.scope out := by
  obtain ⟨T, hT, hr, -⟩ := runs_lastRegister.1 hlast
  obtain ⟨O₁, hrec₁, -, hc, hkept⟩ := Records.converge h
    (fun p hp => (hscope p (List.mem_append_right _ hp)).2) hconverge hmade
  have hopenC := (Shifts.of_moves (moves_converge hconverge)).allOpen hopen
  obtain ⟨O₂, hrec₂, htested⟩ := hexpr.2 O₁ hrec₁.after (allOpen_singleton.1 hopenC)
  obtain ⟨B, hB⟩ := Option.ne_none_iff_exists'.1 hb
  obtain ⟨B', hB', -⟩ := hrec₁.grows b B hB
  have hbc : b ∉ [c] := by simpa using (ne_of_fresh ⟨B, hB⟩ (converge_fresh hconverge)).symm
  -- the condition does not touch the block before the loop
  have hbefore : O₂.scope b = O.scope b :=
    (hrec₂.scope_eq hB' (hexpr.1.keeps hbc hB')).trans (hkept b hb)
  have hpreds : ∀ p ∈ tested :: leaving, O₂.scope b ⊆ O₂.scope p := by
    rw [hbefore]
    refine List.forall_mem_cons.2 ⟨by rwa [hc] at htested, fun p hp => ?_⟩
    obtain ⟨hpborn, hpscope⟩ := hscope p (List.mem_append_left _ hp)
    obtain ⟨P, hP⟩ := Option.ne_none_iff_exists'.1 hpborn
    exact fun v hv => (hrec₁.trans hrec₂).scope hP (hpscope hv)
  obtain ⟨O₃, hrec₃, -, hagain, hout, -⟩ := Records.convergeBranch hrec₂.after hpreds hbranch
    (moves_convergeBranch hbranch hT (Block.contains_of_lastRegister? hr)).graph_extends hmades.1 hmades.2
  have hrec := (hrec₁.trans hrec₂).trans hrec₃
  refine ⟨O₃, hrec.trans (.jump hrec₃.after ?_ hjump), by rw [hout, hbefore]; exact fun _ hv => hv⟩
  rwa [hrec.outer _ I hI, hagain, hbefore]

theorem newBlocks_joins {preds : List BlockId} (h : Joins b preds s exit s') :
    NewBlocks s.toBuilder exit.toList s'.toBuilder := by
  rcases h with ⟨-, rfl, rfl⟩ | ⟨-, c, t, hconverge, rfl, rfl⟩
  · exact .of_blocks rfl
  · exact newBlocks_converge hconverge

theorem symbols_joins {preds : List BlockId} {d : BlockId} (h : Joins b preds s exit s')
    (hd : s.graph.block? d ≠ none) : s'.graph.symbols d = s.graph.symbols d := by
  rcases h with ⟨-, rfl, rfl⟩ | ⟨-, c, t, hconverge, rfl, rfl⟩
  · rfl
  · simp only [converge, Runs.bind_iff, Runs.pure_iff] at hconverge
    obtain ⟨_, u, hchild, _, _, hjumps, rfl, rfl⟩ := hconverge
    obtain ⟨-, -, hother, -⟩ := Origins.Fits.newChild_new hchild
    have hdc : d ≠ c := by
      rintro rfl
      exact hd ((newBlocks_newChild hchild).fresh d (by simp))
    exact (Origins.Fits.symbols_jumps hjumps d).trans (Graph.symbols_congr (hother d hdc))

theorem records_closeLoop {inside : BlockId} {condition : Expr} (h : Tracks p O s)
    (hs : p.ComesTo (closePlan b inside condition leaving repeating) s)
    (hopen : s.AllOpen repeating) (hb : s.graph.block? b ≠ none) (hin : s.graph.block? inside ≠ none)
    (hinside : O.outer inside ⊆ O.scope b)
    (hscope : ∀ p ∈ leaving ++ repeating, s.graph.block? p ≠ none ∧ O.scope b ⊆ O.scope p)
    (hrun : Runs (closeLoop b inside condition leaving repeating) s exit s') :
    ∃ O', Records p O s O' s' ∧ ∀ c ∈ exit.toList, O.scope b ⊆ O'.scope c := by
  have hleaving (p) (hp : p ∈ leaving) := hscope p (List.mem_append_left _ hp)
  obtain ⟨I, hI⟩ := Option.ne_none_iff_exists'.1 hin
  have hplan := hrun
  rw [← run_closePlan] at hplan
  unfold closePlan at hs hplan
  rcases closeLoop_cases hrun with ⟨rfl, t, ht, hjoin⟩ | ⟨hne, htrue, c, t, t', hconverge, hjump, hjoin⟩ |
    ⟨hne, htrue, c, t, tested, s₁, r, again, out, t₁, t₂, hconverge, htest, hlast, hbranch, hjump, rfl, rfl⟩
  · rw [if_pos List.isEmpty_nil] at hs hplan
    have hreport : t.graph.blocks = s.graph.blocks := by
      rcases ht with rfl | ht
      · rfl
      · obtain rfl := runs_report.1 ht
        rfl
    have hquiet := Records.quiet h hreport
    have hnew := (NewBlocks.of_blocks (s := s.toBuilder) hreport).trans (newBlocks_joins hjoin)
    obtain ⟨O', hrec, hc⟩ := records_joins hquiet.after (fun p hp => (hleaving p hp).2) hjoin fun c hc =>
      makes_act hs hplan hnew (by simpa using hc)
    exact ⟨O', hquiet.trans hrec, hc⟩
  · rw [if_neg (by simpa using hne), if_pos htrue] at hs hplan
    have hhead := (newBlocks_converge hconverge).trans (newBlocks_jump hjump)
    have hnew := hhead.trans (newBlocks_joins hjoin)
    have htable : s'.graph.symbols c = t.graph.symbols c :=
      (symbols_joins hjoin ((hhead.born c).2 (by simp))).trans (Origins.Fits.symbols_jump hjump c)
    obtain ⟨O₁, hrec₁, -, hc, hkept⟩ := Records.converge h
      (fun p hp => (hscope p (List.mem_append_right _ hp)).2) hconverge
      (htable ▸ makes_act hs hplan hnew (by simp))
    have houter : O₁.outer inside ⊆ O₁.scope c := by rwa [hrec₁.outer _ I hI, hc]
    have hrec₂ := Records.jump hrec₁.after houter hjump
    obtain ⟨O₂, hrec₃, hout⟩ := records_joins (b := b) hrec₂.after (fun p hp => by
      rw [hkept b hb, hkept p (hleaving p hp).1]
      exact (hleaving p hp).2) hjoin fun d hd => makes_act hs hplan hnew (by simpa using .inr hd)
    exact ⟨O₂, (hrec₁.trans hrec₂).trans hrec₃, by rwa [hkept b hb] at hout⟩
  · rw [if_neg (by simpa using hne), if_neg (by simpa using htrue)] at hs
    have hlift := Runs.lift_build_iff.2 ⟨t, hconverge, rfl⟩
    have hs₁ := hs.after hlift
    have hsplit : Runs (do convergeBranch b leaving tested (← lastRegister tested) : LowerM _) s₁
        (again, out) { s₁ with toBuilder := t₁ } :=
      Runs.bind_iff.2 ⟨r, s₁, Runs.lift_build_iff.2 ⟨_, hlast, rfl⟩, Runs.lift_build_iff.2 ⟨t₁, hbranch, rfl⟩⟩
    have hs₂ := (hs₁.after htest).first
    have hnew := newBlocks_convergeBranch hbranch
    obtain ⟨O', hrec, hout⟩ := records_retest h hopen hb hI hinside hscope hconverge
      (makes_converge hs.first hconverge hconverge) (passesOn_expr c condition hs₁.first htest) hlast
      hbranch ⟨makes_act hs₂ hsplit hnew (by simp), makes_act hs₂ hsplit hnew (by simp)⟩ hjump
    exact ⟨O', hrec, by simpa using hout⟩

end Close

section Loops

variable {b : BlockId} {s s' : State} {t : Builder} {condition : Expr} {test inside exit : BlockId}
  {s₁ s₂ : State} {t₁ t₂ : Builder} {bottom : Option BlockId}

theorem exists_places_tested {label : Option String} {tested : BlockId} {r : Register}
    {Γs : List (List Binding)} {O : Origins} (hb : Places p Γs O s b)
    (henter : Runs (enter b) s.toBuilder test t₁) (hmade : p.Makes test (t₁.graph.symbols test))
    (hexpr : Inherits p test { s with toBuilder := t₁ } tested s₁)
    (hlast : Runs (lastRegister tested) s₁.toBuilder r s₁.toBuilder)
    (hbranch : Runs (branch tested r) s₁.toBuilder (inside, exit) t₂)
    (hmades : p.Makes inside (t₂.graph.symbols inside) ∧ p.Makes exit (t₂.graph.symbols exit)) :
    ∃ O' Γ, Records p O s O' { s₁ with toBuilder := t₂ } ∧ O'.outer test = O.scope b ∧ O.scope b ⊆ Γ ∧
      O'.scope exit = Γ ∧ O'.scope inside = Γ ∧
      Places p (Γ :: Γs) O'
        { s₁ with toBuilder := t₂, loops := ⟨label, .known test exit⟩ :: s₁.loops } inside := by
  obtain ⟨O₁, hrec₁, houter₁, hscope₁, -⟩ := Records.converge hb.tracks (by simp) (runs_enter.1 henter) hmade
  have hplace₁ : Places p Γs O₁ { s with toBuilder := t₁ } test := (hb.reaches (Y := [test]) hrec₁ rfl
    (by simp [hscope₁])).places hb (by simp) ((Rebuilds.of_moves (moves_enter henter)).isOpen hb.isOpen)
  obtain ⟨O₂, hreach₂⟩ := hexpr.lands hplace₁
  have hplace₂ := hreach₂.places hplace₁ (c := tested) (by simp) (hexpr.1.isOpen hplace₁.isOpen)
  have hbefore : O.scope b ⊆ O₂.scope tested := by
    rw [← hscope₁]
    exact hreach₂.scope tested (by simp)
  have hsplit := rebuilds_branch hlast hbranch
  have hopen := hsplit.shifts.allOpen (allOpen_singleton.2 hplace₂.isOpen)
  obtain ⟨O₃, hrec₃, houter₃, hscopeI, hscopeE, -⟩ := Records.convergeBranch hplace₂.tracks (by simp)
    (runs_branch.1 hbranch) hsplit.shifts.graph_extends hmades.1 hmades.2
  have hrec := hreach₂.records.trans hrec₃
  obtain ⟨T, hT, -⟩ := hplace₁.isOpen
  obtain ⟨T', hT', -⟩ := hrec.grows test T hT
  obtain ⟨E, hE, -⟩ := hopen.isOpen (b := exit) (by simp)
  have houterT : O₃.outer test = O.scope b := (hrec.outer test T hT).trans houter₁
  refine ⟨O₃, O₂.scope tested, hrec₁.trans hrec, houterT, hbefore, hscopeE, hscopeI,
    (hrec₃.withLoops _).after, hopen.isOpen (by simp),
    .cons ⟨by simp [LoopTargets.waiting], ?_⟩ (hplace₂.loops.mono (hrec₃.withLoops _)), ?_⟩
  · simp only [LoopTargets.goals, List.forall_mem_cons]
    exact ⟨⟨⟨T', hT'⟩, by rwa [houterT]⟩, ⟨⟨E, hE⟩, by rw [houter₃]; exact fun _ hv => hv⟩, by simp⟩
  · rw [hscopeI]
    exact List.forall_mem_cons.2 ⟨fun _ hv => hv, hplace₂.inside⟩

theorem lands_testedLoop {label : Option String} {tested : BlockId} {r : Register}
    (henter : Runs (enter b) s.toBuilder test t₁) (hmade : p.Makes test (t₁.graph.symbols test))
    (hexpr : Inherits p test { s with toBuilder := t₁ } tested s₁)
    (hlast : Runs (lastRegister tested) s₁.toBuilder r s₁.toBuilder)
    (hbranch : Runs (branch tested r) s₁.toBuilder (inside, exit) t₂)
    (hmades : p.Makes inside (t₂.graph.symbols inside) ∧ p.Makes exit (t₂.graph.symbols exit))
    (hbody : Lands p inside
      { s₁ with toBuilder := t₂, loops := ⟨label, .known test exit⟩ :: s₁.loops } bottom.toList s₂)
    (hend : Repeats test bottom { s₂ with loops := s₂.loops.tail } s') : Lands p b s [exit] s' := by
  intro Γs O hb
  obtain ⟨O₁, Γ, hrec₁, houter, hΓ, hexit, hinside, hplace⟩ :=
    exists_places_tested hb henter hmade hexpr hlast hbranch hmades
  obtain ⟨O₂, hrec₂, hloops₂, hscope₂⟩ := hbody hplace
  have hbound := (List.forall₂_cons.1 hplace.loops).1
  obtain ⟨⟨T, hT⟩, -⟩ := hbound.goals test (by simp [LoopTargets.goals])
  obtain ⟨⟨E, hE⟩, -⟩ := hbound.goals exit (by simp [LoopTargets.goals])
  obtain ⟨f', ls, -, hrest, hloops⟩ := List.forall₂_cons_right_iff.1 hloops₂
  rw [hloops, List.tail_cons] at hend
  have hrec : Records p O s O₂ { s₂ with loops := ls } :=
    ((hrec₁.withLoops _).trans hrec₂).withLoops ls
  have hout : O.scope b ⊆ O₂.scope exit := fun v hv => hrec₂.scope hE (hexit ▸ hΓ hv)
  rcases hend with ⟨rfl, rfl⟩ | ⟨c, t₃, rfl, hback, rfl⟩
  · exact ⟨O₂, hrec, hrest, by simpa using hout⟩
  · have hbottom : O₂.outer test ⊆ O₂.scope c := by
      rw [hrec₂.outer test T hT, houter]
      exact fun v hv => hscope₂ c (by simp) (hinside ▸ hΓ hv)
    have hrec₃ := Records.jump hrec.after hbottom hback
    exact ⟨O₂, hrec.trans hrec₃, LoopsBound.mono (s := { s₂ with loops := ls }) hrest hrec₃,
      by simpa using hout⟩

theorem lands_queuedLoop {label label' : Option String} {exit : Option BlockId}
    {leaving repeating : List BlockId} {ls : List LoopFrame} {fs : List FunctionId}
    {cs : List ClassId} (henter : Runs (enter b) s.toBuilder inside t)
    (hmade : p.Makes inside (t.graph.symbols inside))
    (hshift : Shifts fs cs [inside]
      { s with toBuilder := t, loops := ⟨label, .queued [] []⟩ :: s.loops } bottom.toList s₂)
    (hbody : Lands p inside
      { s with toBuilder := t, loops := ⟨label, .queued [] []⟩ :: s.loops } bottom.toList s₂)
    (hloops : s₂.loops = ⟨label', .queued leaving repeating⟩ :: ls)
    (hs : p.ComesTo (closePlan b inside condition leaving (repeating ++ bottom.toList))
      { s₂ with loops := ls })
    (hclose : Runs (closeLoop b inside condition leaving (repeating ++ bottom.toList))
      { s₂ with loops := ls } exit s') : Lands p b s exit.toList s' := by
  intro Γs O hb
  obtain ⟨O₁, hrec₁, houter, hscope₁, hkept⟩ :=
    Records.converge hb.tracks (by simp) (runs_enter.1 henter) hmade
  have hopen := (Rebuilds.of_moves (moves_enter henter)).isOpen hb.isOpen
  have hplace : Places p (O.scope b :: Γs) O₁
      { s with toBuilder := t, loops := ⟨label, .queued [] []⟩ :: s.loops } inside :=
    ⟨(hrec₁.withLoops _).after, hopen,
      .cons ⟨by simp [LoopTargets.waiting], by simp [LoopTargets.goals]⟩
        (hb.loops.mono (hrec₁.withLoops _)), by
      rw [hscope₁]
      exact List.forall_mem_cons.2 ⟨fun _ hv => hv, hb.inside⟩⟩
  obtain ⟨O₂, hrec₂, hloops₂, hscope₂⟩ := hbody hplace
  rw [hloops] at hloops₂
  obtain ⟨hbound, hrest⟩ := List.forall₂_cons.1 hloops₂
  obtain ⟨B, hB, -⟩ := hb.isOpen
  obtain ⟨B', hB', -⟩ := hrec₁.grows b B hB
  have hne : b ∉ [inside] := by simpa using (ne_of_fresh ⟨B, hB⟩ (converge_fresh (runs_enter.1 henter))).symm
  have hB₂ := hshift.keeps hne hB'
  -- the body does not touch the block before the loop, which is still to be continued
  have hbefore : O₂.scope b = O.scope b := (hrec₂.scope_eq hB' hB₂).trans (hkept b (by simp [hB]))
  have hrec : Records p O s O₂ { s₂ with loops := ls } :=
    ((hrec₁.withLoops _).trans hrec₂).withLoops ls
  obtain ⟨f', ls', hpop, -, hpopped⟩ := Shifts.pop (s := { s with toBuilder := t }) hshift rfl
  obtain ⟨rfl, rfl⟩ := List.cons.inj (hpop.symm.trans hloops)
  have hwait := (hpopped.allOpen (allOpen_singleton.2 hopen)).perm (Y := repeating ++ bottom.toList ++ leaving)
    (by simp only [LoopTargets.waiting]; grind)
  obtain ⟨I, hI, -⟩ := hopen
  obtain ⟨I', hI', -⟩ := hrec₂.grows inside I hI
  have hinside : O₂.outer inside ⊆ O₂.scope b := by
    rw [hrec₂.outer inside I hI, houter, hbefore]
    exact fun _ hv => hv
  have hscope : ∀ p ∈ leaving ++ (repeating ++ bottom.toList),
      s₂.graph.block? p ≠ none ∧ O₂.scope b ⊆ O₂.scope p := by
    intro p hp
    obtain ⟨P, hP, -⟩ := hwait.isOpen (b := p) (by grind)
    refine ⟨by simp [hP], ?_⟩
    rw [hbefore]
    rcases List.mem_append.1 (show p ∈ (leaving ++ repeating) ++ bottom.toList by grind) with hp | hp
    · exact (hbound.waiting p hp).2
    · exact hscope₁ ▸ hscope₂ p hp
  obtain ⟨O₃, hrec₃, hexit⟩ := records_closeLoop hrec.after hs (State.AllOpen.left hwait) (by simp [hB₂])
    (by simp [hI']) hinside hscope hclose
  refine ⟨O₃, hrec.trans hrec₃, ?_, by rwa [hbefore] at hexit⟩
  rw [(rebuilds_closeLoop hclose).loops]
  exact LoopsBound.mono (s := { s₂ with loops := ls' }) hrest hrec₃

end Loops

end BlockGraph.Lowering
