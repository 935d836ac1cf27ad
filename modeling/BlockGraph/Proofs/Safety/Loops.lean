import BlockGraph.Proofs.Linearity.Statements
import BlockGraph.Proofs.Safety.Expressions
import BlockGraph.Proofs.Totality.Loops

namespace BlockGraph.Lowering

open Builder

variable {fs : List FunctionId} {cs : List ClassId} {X Y Z : List BlockId} {s s' : State}
  {b c : BlockId} {σ τ β : Shape} {βs : List Shape} {frame : Option Frame} {g g' : Graph}
  {leaving repeating : List BlockId}

structure LoopShaped (g : Graph) (f : LoopFrame) (β : Shape) : Prop where
  known : ∀ test exit, f.targets = .known test exit → g.Accepts test β ∧ g.Accepts exit β
  waiting : ∀ q ∈ f.targets.waiting, g.Open q β

theorem LoopShaped.mono {f : LoopFrame} (h : LoopShaped g f β) (hg : g.Preserves g')
    (hkeep : ∀ q ∈ f.targets.waiting, ∀ B, g.block? q = some B → g'.block? q = some B) :
    LoopShaped g' f β :=
  ⟨fun test exit heq => ⟨(h.known test exit heq).1.mono hg, (h.known test exit heq).2.mono hg⟩,
    fun q hq => (h.waiting q hq).kept (hkeep q hq)⟩

abbrev LoopsShaped (g : Graph) : List LoopFrame → List Shape → Prop := List.Forall₂ (LoopShaped g)

theorem LoopsShaped.mono {ls : List LoopFrame} (h : LoopsShaped g ls βs) (hg : g.Preserves g')
    (hkeep : ∀ q ∈ waiting ls, ∀ B, g.block? q = some B → g'.block? q = some B) :
    LoopsShaped g' ls βs :=
  forall₂_imp_of_mem h fun f hf _ hshaped =>
    hshaped.mono hg fun q hq => hkeep q (List.mem_flatMap.2 ⟨f, hf, hq⟩)

theorem LoopsShaped.rebuild (h : LoopsShaped s.graph s.loops βs) (hX : Apart s X)
    (hs : Rebuilds X s Y s') (hpres : s.graph.Preserves s'.graph) :
    LoopsShaped s'.graph s'.loops βs := by
  rw [hs.loops]
  exact h.mono hpres fun q hq _ => hs.keeps (hX.notMem hq)

def Returns (s : State) (frame : Option Frame) (slot : Option ValueType) : Prop :=
  frame.isSome = true → ∃ l t, slot = some (.object l) ∧ s.returnLayouts.get? t = some l

theorem Returns.shift {slot : Option ValueType} (h : Returns s frame slot)
    (hs : Shifts fs cs X s Y s') : Returns s' frame slot := by
  intro hframe
  obtain ⟨l, t, hslot, ht⟩ := h hframe
  obtain ⟨E, N, hmoves, -⟩ := hs.moves
  exact ⟨l, t, hslot, hmoves.returns t l ht⟩

structure Stands (frame : Option Frame) (βs : List Shape) (s : State) (b : BlockId) (σ : Shape) :
    Prop where
  returning : s.toBuilder.Returning
  returns : Returns s frame σ.slot
  shape : s.graph.Open b σ
  apart : Apart s [b]
  loops : LoopsShaped s.graph s.loops βs
  bases : ∀ β ∈ βs, β.Le σ

structure Ends (βs : List Shape) (σ : Shape) (s : State) (o : Option BlockId) : Prop where
  loops : LoopsShaped s.graph s.loops βs
  shape : ∀ c ∈ o, s.graph.Open c σ

theorem Shifts.returning (hs : Shifts fs cs X s Y s') (h : s.toBuilder.Returning) :
    s'.toBuilder.Returning := by
  obtain ⟨E, N, hmoves, -⟩ := hs.moves
  exact hmoves.returning h

namespace Stands

theorem next (h : Stands frame βs s b σ) (hs : Shifts fs cs [b] s [c] s')
    (hends : Ends βs σ s' (some c)) : Stands frame βs s' c σ where
  returning := hs.returning h.returning
  returns := h.returns.shift hs
  shape := hends.shape c rfl
  apart := Apart.after (Z := []) h.apart hs
  loops := hends.loops
  bases := h.bases

theorem move (h : Stands frame βs s b σ) (hs : Rebuilds [b] s (c :: Z) s')
    (hpres : s.graph.Preserves s'.graph) (hc : s'.graph.Open c τ) (hle : σ.Le τ) :
    Stands frame βs s' c τ where
  returning := hs.shifts.returning h.returning
  returns := by
    rw [hle.slot]
    exact h.returns.shift hs.shifts
  shape := hc
  apart := Apart.left (X := [c]) (Apart.after (Z := []) h.apart hs.shifts).left
  loops := h.loops.rebuild h.apart hs hpres
  bases β hβ := (h.bases β hβ).trans hle

theorem beside (h : Stands frame βs s b σ) (hX : Apart s (X ++ [b])) (hs : Shifts fs cs X s Y s')
    (hloops : LoopsShaped s'.graph s'.loops βs) : Stands frame βs s' b σ where
  returning := hs.returning h.returning
  returns := h.returns.shift hs
  shape := h.shape.kept fun _ => hs.keeps hX.apart_last
  apart := (hX.after hs).right
  loops := hloops
  bases := h.bases

theorem pushLoop (h : Stands frame βs s b σ) {f : LoopFrame} (hf : LoopShaped s.graph f σ)
    (hwait : f.targets.waiting = []) :
    Stands frame (σ :: βs) { s with loops := f :: s.loops } b σ :=
  { h with
    apart := h.apart.push hwait
    loops := .cons hf h.loops
    bases := by
      rintro β (_ | ⟨_, hβ⟩)
      · exact .refl σ
      · exact h.bases β hβ }

theorem ends (h : Stands frame βs s b σ) (hs : Rebuilds [b] s Y s')
    (hpres : s.graph.Preserves s'.graph) {o : Option BlockId}
    (ho : ∀ c ∈ o, s'.graph.Open c σ) : Ends βs σ s' o :=
  ⟨h.loops.rebuild h.apart hs hpres, ho⟩

end Stands

/-! Jumps. -/

theorem LoopShaped.enqueue {f : LoopFrame} (h : LoopShaped g f β)
    (hf : f.targets = .queued leaving repeating) (hb : g.Open b β) (kind : LoopJump) :
    LoopShaped g (f.enqueue kind b) β := by
  obtain ⟨label, targets⟩ := f
  subst hf
  refine ⟨fun test exit heq => ?_, fun q hq => ?_⟩
  · cases kind <;> simp [LoopFrame.enqueue, LoopTargets.enqueue] at heq
  · have hmem := (LoopTargets.enqueue_waiting leaving repeating kind b).mem_iff.1 hq
    rcases List.mem_append.1 hmem with hmem | hmem
    · exact h.waiting q hmem
    · rwa [List.mem_singleton.1 hmem]

theorem meets_lowerJump {kind : LoopJump} {label : Option String} (hs : s.Tidy)
    (h : Stands frame βs s b σ) : Meets Fault.Excused (lowerJump b kind label) s fun _ _ => True := by
  refine .run_bind (Runs.get_iff.2 ⟨rfl, rfl⟩) ?_
  dsimp only
  split
  case h_1 =>
    cases label with
    | none => exact .throw rfl
    | some label => exact .throw rfl
  case h_2 label' test exit hfind =>
    have hmem := List.mem_of_find?_eq_some hfind
    obtain ⟨htest, hexit⟩ := hs.loops _ hmem test exit rfl
    obtain ⟨β, hβ, hshaped⟩ := forall₂_mem_left h.loops hmem
    obtain ⟨hacc, hacc'⟩ := hshaped.known test exit rfl
    have hle := h.bases β hβ
    cases kind with
    | leave =>
      exact (safe_jump h.shape (hacc'.le hle) hexit hs.builder).lift_build fun _ _ _ _ => trivial
    | again =>
      exact (safe_jump h.shape (hacc.le hle) htest hs.builder).lift_build fun _ _ _ _ => trivial
  case h_3 =>
    exact .of_run (a := ()) (Runs.modify_iff.2 rfl) trivial

theorem safe_lowerJump {kind : LoopJump} {label : Option String} (h : Stands frame βs s b σ) :
    Safe (lowerJump b kind label) s fun _ s' => Ends βs σ s' none := by
  refine (tidies_lowerJump.guard fun hs => meets_lowerJump hs h).run_imp ?_
  rintro _ s' hrun hpres -
  obtain ⟨inner, f, outer, hloops, -, -, hjump⟩ := runs_lowerJump.1 hrun
  refine ⟨?_, by simp⟩
  split at hjump
  case h_1 =>
    obtain ⟨t, ht, rfl⟩ := hjump
    exact h.loops.rebuild h.apart (.of_moves (moves_jump ht).1) hpres
  case h_2 leaving repeating htargets =>
    subst hjump
    have hshaped := h.loops
    rw [hloops] at hshaped
    obtain ⟨βs₁, rest, rfl, hinner, hrest⟩ := forall₂_append_right hshaped.flip
    obtain ⟨β, βs₂, hf, houter, rfl⟩ := List.forall₂_cons_right_iff.1 hrest
    have hb := h.shape.le (h.bases β (by simp))
    exact List.rel_append hinner.flip (.cons (hf.enqueue htargets hb kind) houter.flip)

/-! The ends of loops. -/

theorem safe_exitLoop {s : Builder} (hb : s.graph.Shaped b σ) (hnodup : leaving.Nodup)
    (hleaving : ∀ q ∈ leaving, s.graph.Open q σ) :
    Builder.Safe (exitLoop b leaving) s fun o s' => ∀ c ∈ o, s'.graph.Open c σ := by
  refine .ite (fun _ => .pure (by simp)) fun hne => ?_
  have hne : leaving ≠ [] := fun h => hne (by simp [h])
  refine (safe_converge (n := 0) hb hne hnodup (by simpa using hleaving)).bind ?_
  rintro c s' - ⟨-, -, hc, -⟩
  exact .pure (by simpa using hc)

theorem safe_report {s : Builder} {d : Diagnostic} :
    Builder.Safe (report d) s fun _ s' => s'.graph = s.graph :=
  tidies_report.guard fun _ => .of_run (a := ()) (runs_report.2 rfl) rfl

theorem safe_closeLoop {inside : BlockId} {condition : Expr} (hb : s.graph.Shaped b σ)
    (hinside : s.graph.IsTarget inside) (hacc : s.graph.Accepts inside σ)
    (hnodup : (leaving ++ repeating).Nodup) (hleaving : ∀ q ∈ leaving, s.graph.Open q σ)
    (hrepeating : ∀ q ∈ repeating, s.graph.Open q σ) :
    Safe (closeLoop b inside condition leaving repeating) s fun o s' =>
      ∀ c ∈ o, s'.graph.Open c σ := by
  obtain ⟨hnodup, hnodup', hdisjoint⟩ := List.nodup_append.1 hnodup
  have hexit := tidies_lift (safe_exitLoop hb hnodup hleaving)
  -- what is there before the blocks that repeat the loop come together
  have hfirst (hne : ¬repeating.isEmpty = true) :
      Safe (liftM (converge b repeating) : LowerM BlockId) s fun c s' => s'.graph.Open c σ ∧
        s'.graph.Shaped b σ ∧ c ≠ b ∧ c ∉ leaving ∧ ∀ q ∈ leaving, s'.graph.Open q σ := by
    have hne : repeating ≠ [] := fun h => hne (by simp [h])
    refine (tidies_lift (safe_converge (n := 0) hb hne hnodup' (by simpa using hrepeating))).run_imp ?_
    rintro c s' hrun - ⟨hnew, -, hc, -⟩
    obtain ⟨t, ht, rfl⟩ := Runs.lift_build_iff.1 hrun
    have hkeeps := (moves_converge ht).keeps
    refine ⟨hc, converge_shaped ht hb, ?_, fun hmem => ?_, fun q hq => ?_⟩
    · rintro rfl
      obtain ⟨B, hB, -⟩ := hb
      simp [hB] at hnew
    · obtain ⟨B, hB, -⟩ := hleaving c hmem
      simp [hB] at hnew
    · exact (hleaving q hq).kept fun Q => hkeeps q Q fun hmem => hdisjoint q hq q hmem rfl
  refine .ite (fun _ => .ite (fun _ => ?_) fun _ => hexit) fun hne => .ite (fun _ => ?_) fun _ => ?_
  · refine (tidies_lift safe_report).bind fun _ s₁ _ hs₁ => ?_
    exact tidies_lift (safe_exitLoop (hs₁ ▸ hb) hnodup (hs₁ ▸ hleaving))
  · refine (hfirst hne).bind ?_
    rintro c s₁ hpres ⟨hc, hb, hcb, hcl, hleaving⟩
    refine (tidies_lift (safe_jump hc (hacc.mono hpres) (hinside.mono hpres))).run_bind ?_
    rintro _ s₂ hrun - -
    obtain ⟨t, ht, rfl⟩ := Runs.lift_build_iff.1 hrun
    refine tidies_lift (safe_exitLoop (jump_shaped ht hb) hnodup fun q hq => ?_)
    exact (hleaving q hq).kept fun Q => (moves_jump ht).1.keeps q Q fun hmem =>
      hcl (List.mem_singleton.1 hmem ▸ hq)
  · refine (hfirst hne).bind ?_
    rintro c s₁ hpres₁ ⟨hc, hb, hcb, hcl, hleaving⟩
    refine (safe_lowerExpr hc condition).run_bind ?_
    rintro tested s₂ hrun hpres₂ ⟨htested, hv⟩
    have hmove : Rebuilds [c] s₁ [tested] s₂ := leads_lowerExpr c condition hrun
    have hother {q : BlockId} (hq : q ∈ leaving) : q ∉ [c] := fun hmem =>
      hcl (List.mem_singleton.1 hmem ▸ hq)
    have hnew : tested ∉ leaving := by
      intro hmem
      obtain ⟨Q, hQ, -⟩ := hleaving tested hmem
      exact hmove.apart (hother hmem) hQ (by simp)
    refine (safe_look (safe_lastRegister htested hv)).bind ?_
    rintro r s' - ⟨rfl, -⟩
    refine (tidies_lift (safe_convergeBranch (hb.kept fun _ => hmove.keeps (by simpa using hcb.symm))
      (List.nodup_cons.2 ⟨hnew, hnodup⟩) htested fun q hq =>
        (hleaving q hq).kept fun _ => hmove.keeps (hother hq))).run_bind ?_
    rintro ⟨again, exit⟩ s₃ hrun₃ hpres₃ ⟨hne, hagain, hexit⟩
    have hall := hpres₁.trans (hpres₂.trans hpres₃)
    refine (tidies_lift (safe_jump hagain (hacc.mono hall) (hinside.mono hall))).run_bind ?_
    rintro _ s₄ hrun₄ - -
    obtain ⟨t, ht, rfl⟩ := Runs.lift_build_iff.1 hrun₄
    refine .pure fun d hd => ?_
    obtain rfl : exit = d := by simpa using hd
    exact hexit.kept fun D => (moves_jump ht).1.keeps exit D (by simpa using hne.symm)

/-! Definitions and returns. -/

theorem safe_clauseType {type : Option ValueType} {c : Clause}
    (htype : ∀ t, type = some t → s.graph.Proper t) :
    Safe (clauseType type c) s fun t s' => s'.graph.Proper t ∧ KeepsBlocks s s' := by
  unfold clauseType
  split
  · exact .pure ⟨htype _ rfl, fun _ _ h => h⟩
  · exact safe_lowerType _
  · exact .throw rfl

theorem safe_lowerClauses {type : Option ValueType} {cs : List Clause} (hb : s.graph.Open b σ)
    (htype : ∀ t, type = some t → s.graph.Proper t) :
    Safe (lowerClauses type b cs) s fun c s' => s'.graph.Open c σ := by
  induction cs generalizing s b with
  | nil => exact .pure hb
  | cons c rest ih =>
    obtain ⟨name, value⟩ := c
    have hrest (b' : BlockId) (register : Option Register) (s₁ : State)
        (hpres : s.graph.Preserves s₁.graph) (hb' : s₁.graph.Open b' σ)
        (hregister : ∀ r, register = some r → s₁.graph.Typed b' r) :
        Safe (do
          let t ← clauseType type ⟨name, value⟩
          tell (.symbolDefined name t b')
          define b' name ⟨t, register⟩
          lowerClauses type b' rest) s₁ fun c s' => s'.graph.Open c σ := by
      refine (safe_clauseType fun t ht => (htype t ht).mono hpres).bind ?_
      rintro t s₂ hpres₂ ⟨ht, hkeeps⟩
      have htell : Builder.Safe (tell (.symbolDefined name t b')) s₂.toBuilder fun _ s' =>
          s' = s₂.toBuilder ∧ True := safe_read fun _ => ⟨(), runs_tell.2 rfl, trivial⟩
      refine (safe_look htell).bind ?_
      rintro _ s' - ⟨rfl, -⟩
      refine (tidies_lift (safe_define (hb'.kept (hkeeps b')) ht fun r hr =>
        (hregister r hr).mono hpres₂)).bind fun _ s₄ hpres₄ hb' => ?_
      exact ih hb' fun t ht => (htype t ht).mono (hpres.trans (hpres₂.trans hpres₄))
    cases value with
    | none => exact hrest b none s (.refl _) hb nofun
    | some value =>
      refine (safe_lowerExpr hb value).bind ?_
      rintro c s₁ hpres ⟨hc, hv⟩
      refine (safe_look (safe_lastRegister hc hv)).bind ?_
      rintro r s' - ⟨rfl, hr⟩
      exact hrest c (some r) _ hpres hc (by rintro _ ⟨⟩; exact hr)

theorem safe_optionType {type : Option SourceType} :
    Safe (type.mapM lowerType) s fun o s' => (∀ t, o = some t → s'.graph.Proper t) ∧
      KeepsBlocks s s' := by
  cases type with
  | none => exact .pure ⟨by simp, fun _ _ h => h⟩
  | some type =>
    exact (safe_lowerType type).bind fun v _ _ h => .pure ⟨by simpa using h.1, h.2⟩

theorem safe_lowerReturnValue {result : ValueType} {value : Option Expr} (hb : s.graph.Open b σ) :
    Safe (lowerReturnValue result b value) s fun p s' => s'.graph.Open p.1 σ ∧
      ∀ r ∈ p.2, s'.graph.Typed p.1 r := by
  cases value with
  | some value =>
    refine .ite (fun _ => ?_) fun _ => ?_
    · exact BlockGraph.Tidies.bind (P := fun _ _ => False) (.throw rfl) fun _ _ _ h => h.elim
    · refine (safe_lowerExpr hb value).bind ?_
      rintro c s₁ - ⟨hc, hv⟩
      refine (safe_look (safe_lastRegister hc hv)).bind ?_
      rintro r s' - ⟨rfl, hr⟩
      exact .pure ⟨hc, by simpa using hr⟩
  | none =>
    refine .ite (fun _ => ?_) fun _ => .pure ⟨hb, by simp⟩
    exact BlockGraph.Tidies.bind (P := fun _ _ => False) (.throw rfl) fun _ _ _ h => h.elim

theorem safe_returned {slot : Register} {type : ValueType} {e : Event} {rs : List Register}
    (hb : s.graph.Open b σ) (hslot : s.graph.Typed b slot) (hrs : ∀ r ∈ rs, s.graph.Typed b r) :
    Safe (do
      let target ← emit b (.getField slot 0) type
      tell e
      goto b ⟨target, slot :: rs⟩) s fun _ _ => True := by
  refine tidies_returned.guard fun _ => ?_
  obtain ⟨B, hB, hopen, -⟩ := hb
  have hload : Runs (emit b (.getField slot 0) type) s.toBuilder ⟨B.registerCount⟩
      (s.toBuilder.updateBlock b (·.push ⟨.getField slot 0, type⟩)) :=
    runs_emit.2 ⟨B, hB, hopen, by simpa [Operation.operands] using hslot.contains hB, rfl, rfl⟩
  refine .run_bind (Runs.lift_build_iff.2 ⟨_, hload, rfl⟩) ?_
  refine .run_bind (a := ()) (Runs.lift_build_iff.2 ⟨_, runs_tell.2 rfl, rfl⟩) ?_
  have hgrow {r : Register} (hr : s.graph.Typed b r) :
      (B.push ⟨.getField slot 0, type⟩).contains r = true :=
    (Block.Extends.push hopen _).contains (hr.contains hB)
  refine (meets_goto (updateBlock_self hB _) hopen ?_ fun r hr => ?_).lift_build
    fun _ _ _ _ => trivial
  · simp [Block.contains, Block.push, Block.registerCount]
  · rcases List.mem_cons.1 hr with rfl | hr
    · exact hgrow hslot
    · exact hgrow (hrs r hr)

theorem safe_lowerReturn {value : Option Expr} (h : Stands frame βs s b σ) :
    Safe (lowerReturn frame b value) s fun _ s' => Ends βs σ s' none := by
  suffices hsafe : Safe (lowerReturn frame b value) s fun _ _ => True from
    hsafe.run_imp fun _ s' hrun hpres _ => h.ends (rebuilds_lowerReturn hrun) hpres (by simp)
  cases frame with
  | none => exact .throw rfl
  | some frame =>
    obtain ⟨name, result⟩ := frame
    obtain ⟨l, t, hslot, ht⟩ := h.returns rfl
    refine (safe_lowerReturnValue h.shape).run_bind ?_
    rintro ⟨c, value'⟩ s₁ hrun - ⟨hc, hvalue⟩
    have hlead : Rebuilds [b] s [c] s₁ := leads_lowerReturnValue hrun
    have hl : s₁.graph.layout? l = some (Builder.returning l t) := by
      obtain ⟨u, hmoves, rfl⟩ := hlead
      exact hmoves.returning h.returning t l (hmoves.returns t l ht)
    refine (safe_look (safe_locals hc.shaped)).bind ?_
    rintro _ s' - ⟨rfl, C, hC, rfl⟩
    obtain ⟨C', hC', hopen, hhas⟩ := hc
    obtain rfl := Option.some.inj (hC.symm.trans hC')
    obtain ⟨r, hr, htype⟩ := Option.bind_eq_some_iff.1 (hhas.slot_eq.trans hslot)
    have htyped : s'.graph.Typed c r := ⟨C, .object l, hC, htype, proper_object l⟩
    rw [hr]
    refine (safe_look (safe_typeOf htyped)).bind ?_
    rintro u s' - ⟨rfl, -, B, hB, hu⟩
    obtain rfl := Option.some.inj (hC.symm.trans hB)
    obtain rfl := Option.some.inj (htype.symm.trans hu)
    have hread : Builder.Safe (continuationType (.object l)) s'.toBuilder fun _ u =>
        u = s'.toBuilder ∧ True := by
      refine safe_read fun _ => ⟨.blockRef (continuation l t), ?_, trivial⟩
      exact Runs.bind_iff.2 ⟨_, _, runs_layout.2 ⟨hl, rfl⟩, Runs.pure_iff.2 ⟨rfl, rfl⟩⟩
    refine (safe_look hread).bind ?_
    rintro type s' - ⟨rfl, -⟩
    exact safe_returned ⟨C, hC, hopen, hhas⟩ htyped (by simpa using hvalue)

end BlockGraph.Lowering
