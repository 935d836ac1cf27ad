import BlockGraph.Proofs.Safety.Places

namespace BlockGraph

theorem Block.Has.renames {B C : Block} {σ : Shape} {R : Register → Register → Prop} (h : B.Has σ)
    (hl : B.locals.Renames R C.locals)
    (hR : ∀ r r', R r r' → ∃ t, B.typeOf? r = some t ∧ C.typeOf? r' = some t) : C.Has σ := by
  refine ⟨forall₂_join hl.slot h.slot fun r r' t hr ht => ?_, fun n hn => ?_,
    hl.stack.length_eq.symm.trans h.depth⟩
  · obtain ⟨t', ht', hr'⟩ := hR r r' hr
    rwa [Option.some.inj (ht.symm.trans ht')]
  · obtain ⟨e, he, rfl, hsome⟩ := Locals.holds_iff.1 (h.held n hn)
    obtain ⟨e', he', hname, -, hreg⟩ := forall₂_mem_left hl.symbols he
    refine Locals.holds_iff.2 ⟨e', he', hname, ?_⟩
    obtain ⟨r, hr⟩ := Option.isSome_iff_exists.1 hsome
    cases hr' : e'.2.register with
    | none => simp [hr, hr'] at hreg
    | some r' => rfl

namespace Lowering

open Builder

abbrev Safe {α : Type} (x : LowerM α) (s : State) (Q : α → State → Prop) : Prop :=
  BlockGraph.Tidies Fault.Excused State.Tidy (·.graph) x s Q

variable {s : State} {b : BlockId} {σ : Shape}

theorem safe_look {α : Type} {x : BuildM α} {Q : α → Prop}
    (hx : Builder.Safe x s.toBuilder fun a t => t = s.toBuilder ∧ Q a) :
    Safe (liftM x : LowerM α) s fun a s' => s' = s ∧ Q a := by
  intro hs
  refine (hx hs.builder).lift_build ?_
  rintro a t - ⟨-, -, rfl, hQ⟩
  exact ⟨hs, .refl _, rfl, hQ⟩

theorem safe_except {α : Type} {x : Except Fault α} (hx : ∀ e, x = .error e → e.Excused) :
    Safe (liftM x : LowerM α) s fun a s' => s' = s ∧ x = .ok a := by
  intro hs
  refine (Meets.lift_except_lower hx).imp ?_
  rintro a t - ⟨ha, rfl⟩
  exact ⟨hs, .refl _, rfl, ha⟩

theorem safe_classLayout {k : ClassId} :
    Safe (classLayout k) s fun l s' => s' = s ∧ s.classes[k.index]? = some l := by
  intro hs
  refine .run_bind (Runs.get_iff.2 ⟨rfl, rfl⟩) ?_
  split
  case h_1 l hl => exact .pure ⟨hs, .refl _, rfl, hl⟩
  case h_2 => exact .throw rfl

theorem safe_functionEntry {f : FunctionId} :
    Safe (functionEntry f) s fun e s' => s' = s ∧ s.functions[f.index]? = some e := by
  intro hs
  refine .run_bind (Runs.get_iff.2 ⟨rfl, rfl⟩) ?_
  split
  case h_1 e he => exact .pure ⟨hs, .refl _, rfl, he⟩
  case h_2 => exact .throw rfl

theorem meets_returnLayout {E : Fault → Prop} (result : ValueType) :
    Meets E (liftM (returnLayout result) : LowerM LayoutId) s fun _ _ => True := by
  obtain ⟨l, u, hl⟩ := exists_runs_returnLayout s.toBuilder result
  exact .of_run (Runs.lift_build_iff.2 ⟨u, hl, rfl⟩) trivial

mutual

theorem meets_lowerType {s : State} :
    (t : SourceType) → Meets Fault.Excused (lowerType t) s fun _ _ => True
  | .prim p => by
    rw [lowerType]
    exact .pure trivial
  | .object c => by
    rw [lowerType, classLayout]
    refine Meets.bind (P := fun _ _ => True) ?_ fun _ _ _ _ => .pure trivial
    refine .run_bind (Runs.get_iff.2 ⟨rfl, rfl⟩) ?_
    split
    · exact .pure trivial
    · exact .throw rfl
  | .array element => by
    rw [lowerType]
    exact (meets_lowerType element).bind fun _ _ _ _ => .pure trivial
  | .function result parameters => by
    rw [lowerType]
    exact (meets_lowerType result).bind fun _ _ _ _ => (meets_returnLayout _).bind fun _ _ _ _ =>
      (meets_lowerTypes parameters).bind fun _ _ _ _ => .pure trivial

theorem meets_lowerTypes {s : State} :
    (ts : List SourceType) → Meets Fault.Excused (lowerTypes ts) s fun _ _ => True
  | [] => by
    rw [lowerTypes]
    exact .pure trivial
  | t :: ts => by
    rw [lowerTypes]
    exact (meets_lowerType t).bind fun _ _ _ _ => (meets_lowerTypes ts).bind fun _ _ _ _ =>
      .pure trivial

end

def KeepsBlocks (s s' : State) : Prop :=
  ∀ c C, s.graph.block? c = some C → s'.graph.block? c = some C

theorem safe_lowerType (t : SourceType) :
    Safe (lowerType t) s fun v s' => s'.graph.Proper v ∧ KeepsBlocks s s' := by
  refine ((tidies_lowerType t).guard_and fun _ => meets_lowerType t).run_imp fun v s' hrun _ h => ?_
  exact ⟨h.1, fun c C => (settles_lowerType t hrun).keeps (by simp)⟩

variable {k : Call} {p : Packing} {layout : LayoutId} {resume : BlockId}

theorem Call.Packs.has (hp : k.Packs layout resume p) (h : k.caller.Has σ) :
    (k.resumed resume p).Has σ :=
  h.renames hp.retypes fun _ _ h => h

theorem Call.Packs.contains_context (hp : k.Packs layout resume p) :
    (k.caller.pushAll p.code).contains p.context = true := by
  rw [Block.contains_iff, Block.pushAll_registerCount]
  cases hp with
  | plain => simp [Call.plain, capturing_length]
  | captured hlive htypes =>
    have := htypes.length_eq
    simp only [Call.captured, List.length_append, capturing_length, List.length_singleton]
    omega

theorem exists_runs_packContext_of_live {s : Builder} {b c : BlockId} {B C : Block} (l : LayoutId)
    (hB : s.graph.block? b = some B) (hopen : B.isTerminated = false)
    (hlive : ∀ r ∈ B.locals.liveRegisters, B.contains r = true) (hC : s.graph.block? c = some C)
    (hopen' : C.isTerminated = false) (hC0 : 0 < C.registerCount) (hne : c ≠ b) :
    ∃ r s', Runs (packContext b c l) s r s' := by
  by_cases hnil : B.locals.liveRegisters = []
  · exact ⟨_, _, runs_packContext_nil hB hopen hC hne hnil⟩
  · obtain ⟨types, htypes⟩ := Block.exists_hasTypes hlive
    obtain ⟨l', hrun, -⟩ := runs_packContext (l := l) hB hopen hC hopen' hC0 hne hnil htypes
    exact ⟨_, _, hrun⟩

theorem meets_callJump {B : Block} {callee : Register} {args : List Register} {l : LayoutId}
    {result : ValueType} (hB : s.graph.block? b = some B) (hopen : B.isTerminated = false)
    (hlive : ∀ r ∈ B.locals.liveRegisters, B.contains r = true) (hcallee : B.contains callee = true)
    (hargs : ∀ r ∈ args, B.contains r = true) :
    Meets Fault.Excused (do
      let resume ← addBlock ((continuation l result).map (⟨·, none⟩))
      let context ← packContext b resume l
      goto b ⟨callee, context :: args⟩
      if !result.isVoid && (← lastRegister resume) ≠ ⟨1⟩ then
        let _ ← copy resume ⟨1⟩
      return resume : LowerM BlockId) s fun _ _ => True := by
  let k : Call := ⟨B, callee, args, l, result⟩
  let c := s.graph.nextId
  have hne : c ≠ b := by
    rintro rfl
    simp [c, Graph.block?_nextId] at hB
  let s₁ := s.toBuilder.appendBlock (k.bare c)
  have hadd : Runs (addBlock ((continuation l result).map (⟨·, none⟩))) s.toBuilder c s₁ :=
    runs_addBlock.2 ⟨rfl, rfl⟩
  have hB₁ : s₁.graph.block? b = some k.caller := by
    rw [appendBlock_block?, if_neg hne.symm]
    exact hB
  have hC₁ : s₁.graph.block? c = some (k.bare c) := by
    rw [appendBlock_block?, if_pos rfl]
  obtain ⟨r, s₂, hpack⟩ := exists_runs_packContext_of_live l hB₁ hopen hlive hC₁ rfl
    (by simp [bare_registerCount, Call.parameterTypes, continuation]) hne
  obtain ⟨-, p, hp, rfl, hprep⟩ := prepares_of_packContext (k := k) hB₁ hC₁ hne hpack
  have hgrow {r : Register} (hr : B.contains r = true) : (B.pushAll p.code).contains r = true :=
    (Block.Extends.pushAll hopen p.code).contains hr
  refine .run_bind (Runs.lift_build_iff.2 ⟨_, hadd, rfl⟩) ?_
  refine .run_bind (Runs.lift_build_iff.2 ⟨_, hpack, rfl⟩) ?_
  refine Meets.bind (P := fun _ u => u.toBuilder =
    s₂.updateBlock b (·.close (.goto ⟨callee, p.context :: args⟩))) ?_ ?_
  · refine (meets_goto hprep.caller hopen (hgrow hcallee) fun r hr => ?_).lift_build
      fun _ _ _ h => h
    rcases List.mem_cons.1 hr with rfl | hr
    · exact hp.contains_context
    · exact hgrow (hargs r hr)
  rintro _ s₃ - hs₃
  let C := ((k.bare c).pushAll p.unpacking).withLocals p.locals
  have hC : s₃.graph.block? c = some C := by
    rw [hs₃, updateBlock_other _ hne]
    exact hprep.resumed
  have hcount : C.registerCount = k.parameterTypes.length + p.unpacking.length := by
    simp [C, bare_registerCount]
  have hlast : C.lastRegister? = some ⟨C.registerCount - 1⟩ := by
    rw [Block.lastRegister?, if_neg (by rw [hcount]; simp [Call.parameterTypes, continuation])]
  refine .run_bind (Runs.lift_build_iff.2 ⟨_, runs_lastRegister.2 ⟨C, hC, hlast, rfl⟩, rfl⟩) ?_
  split
  case isFalse => exact .pure trivial
  case isTrue h =>
    have hvoid : result.isVoid = false := by
      simp only [Bool.and_eq_true, Bool.not_eq_true'] at h
      exact h.1
    have hone : C.contains ⟨1⟩ = true := by
      rw [Block.contains_iff, hcount]
      simp [k, Call.parameterTypes, continuation, hvoid]
      omega
    obtain ⟨t, ht⟩ := Option.isSome_iff_exists.1 ((C.typeOf?_isSome _).trans hone)
    exact .run_bind (Runs.lift_build_iff.2 ⟨_, runs_copy.2 ⟨C, t, hC, rfl, ht, rfl, rfl⟩, rfl⟩)
      (.pure trivial)

theorem returnsThrough_error {t : ValueType} {e : Fault} (h : returnsThrough t = .error e) :
    e.Excused := by
  unfold returnsThrough at h
  split at h
  · simp at h
  · exact Except.error.inj h ▸ rfl

theorem meets_lowerCall {n : Nat} {t : SourceType} (hs : s.Tidy)
    (hb : s.graph.Open b ((σ.deeper 1).deeper n)) :
    Meets Fault.Excused (lowerCall b n t) s fun _ _ => True := by
  refine (tidies_lift (safe_popMany hb) hs).bind ?_
  rintro args s₁ - ⟨hs₁, -, hb₁, -, hargs⟩
  refine (tidies_lift (safe_pop hb₁) hs₁).bind ?_
  rintro callee s₂ - ⟨hs₂, hpres₂, hb₂, hcallee⟩
  refine (safe_look (safe_typeOf hcallee) hs₂).bind ?_
  rintro type s' - ⟨-, -, rfl, -⟩
  refine (safe_except (fun e he => returnsThrough_error he) hs₂).bind ?_
  rintro l s' - ⟨-, -, rfl, -⟩
  refine (safe_lowerType t hs₂).bind ?_
  rintro result s₃ - ⟨hs₃, hpres₃, -, hkeeps⟩
  obtain ⟨B, hB, hopen, -⟩ := hb₂
  have hB₃ := hkeeps b B hB
  refine meets_callJump hB₃ hopen (hs₃.builder.contains hB₃)
    ((hcallee.mono hpres₃).contains hB₃) fun r hr => ?_
  exact (((hargs r hr).mono hpres₂).mono hpres₃).contains hB₃

theorem safe_lowerCall {n : Nat} {t : SourceType} (hb : s.graph.Open b ((σ.deeper 1).deeper n)) :
    Safe (lowerCall b n t) s fun c s' => s'.graph.Open c σ ∧ s'.graph.Valued c := by
  refine (tidies_lowerCall.guard_and fun hs => meets_lowerCall hs hb).run_imp ?_
  rintro c s' hrun hpres -
  obtain ⟨k, p, t, hbegins, rfl, hp, hsus, -⟩ := runs_lowerCall hrun
  obtain ⟨B, rest, hB, hstack, hcaller⟩ := hbegins.block
  obtain ⟨B', hB', hopen, hhas⟩ := hb
  obtain rfl := Option.some.inj (hB.symm.trans hB')
  have hdepth : B.locals.stack.length = σ.depth + 1 + n := hhas.depth
  have hcount := hbegins.count
  have hcallerHas : k.caller.Has σ := by
    rw [hcaller]
    refine hhas.withStack rfl rfl ?_
    simp only [hstack, List.length_append, List.length_cons] at hdepth
    omega
  refine ⟨⟨_, hsus.resumed, rfl, hp.has hcallerHas⟩, ⟨0⟩, _, .object k.returns, hsus.resumed, ?_,
    proper_object _⟩
  exact Block.typeOf?_of_parameterTypes (by
    change (k.bare t.graph.nextId).parameterTypes[0]? = _
    rw [bare_parameterTypes]
    rfl)

end Lowering

end BlockGraph
