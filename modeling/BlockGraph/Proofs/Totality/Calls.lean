import BlockGraph.Proofs.Lowering.Captures
import BlockGraph.Proofs.Totality.Places

namespace BlockGraph

open Analysis

variable {low : SourceType → Option ValueType} {B C : Block} {Γ : Context} {σ : List ValueType}
  {slot : Option ValueType}

theorem Block.Holds.renames (h : B.Holds low Γ σ slot) {R : Register → Register → Prop} {l : Locals}
    (hl : B.locals.Renames R l)
    (hR : ∀ r r' t, R r r' → B.typeOf? r = some t → C.typeOf? r' = some t) :
    (C.withLocals l).Holds low Γ σ slot := by
  have htypes {rs rs' : List Register} {ts : List ValueType} (hrs : List.Forall₂ R rs rs')
      (hts : B.HasTypes rs ts) : C.HasTypes rs' ts :=
    forall₂_join hrs hts fun r r' t => hR r r' t
  refine ⟨?_, htypes hl.stack h.stack, htypes hl.slot h.slot⟩
  refine forall₂_join hl.symbols h.symbols fun e e' v ⟨hname, htype, hreg⟩ hrep => ?_
  refine ⟨hname.trans hrep.name, hrep.type.trans (by rw [htype]), ?_, fun r' hr' => ?_⟩
  · rw [← hrep.assigned]
    have hlen := hreg.length_eq
    cases he : e.2.register <;> cases he' : e'.2.register <;> simp [he, he'] at hlen ⊢
  · rw [hr'] at hreg
    obtain ⟨r, _, hr, -, hlist⟩ := List.forall₂_cons_right_iff.1 hreg
    have hsome : e.2.register = some r := by
      cases he : e.2.register with
      | none => simp [he] at hlist
      | some x =>
        simp [he] at hlist
        rw [hlist.1]
    rw [htype]
    exact hR r r' _ hr (hrep.register r hsome)

theorem Block.Holds.live (h : B.Holds low Γ σ slot) :
    ∀ r ∈ B.locals.liveRegisters, ∃ t, B.typeOf? r = some t := by
  intro r hr
  have hcontains : B.contains r = true := by
    rcases List.mem_append.1 hr with hr | hr
    · rcases List.mem_append.1 hr with hr | hr
      · exact h.slot.contains r hr
      · obtain ⟨x, hx, hxr⟩ := List.mem_filterMap.1 hr
        obtain ⟨e, he, rfl⟩ := List.mem_map.1 hx
        obtain ⟨n, hn, rfl⟩ := List.mem_iff_getElem.1 he
        have hrep := h.symbols.get hn (h.symbols.length_eq ▸ hn)
        exact contains_of_typeOf? (hrep.register r hxr)
    · exact h.stack.contains r hr
  exact Option.isSome_iff_exists.1 ((B.typeOf?_isSome r).trans hcontains)

namespace Lowering

open Builder

theorem hasTypes_resuming (C : Block) (l : LayoutId) (types : List ValueType) :
    (C.pushAll (resuming C.registerCount l types)).HasTypes
      (registersFrom (C.registerCount + 1) types.length) types := by
  refine List.forall₂_iff_get.2 ⟨by simp [registersFrom], fun k hk hk' => ?_⟩
  have htype := C.typeOf?_pushAll (resuming C.registerCount l types) (1 + k)
  simp only [registersFrom, List.get_eq_getElem, List.getElem_map, List.getElem_range', Nat.one_mul,
    Nat.add_assoc]
  rw [htype, resuming, Nat.add_comm 1 k, List.getElem?_cons_succ, loading_getElem?,
    List.getElem?_eq_getElem hk']
  rfl

section Heap

variable {g : Graph} {b : BlockId} {o : Register} {l : LayoutId} {ts : List ValueType}

theorem accesses_storing {n : Nat} {rs : List Register} (ho : g.HasType b o (.object l))
    (hrs : List.Forall₂ (g.HasType b) rs ts)
    (hfields : ∀ k t, ts[k]? = some t → g.HasField l (n + k) t) :
    ∀ i ∈ storing o n rs, g.Accesses b i := by
  induction hrs generalizing n with
  | nil => simp [storing]
  | @cons r t _ _ hr _ ih =>
    intro i hi
    rcases List.mem_cons.1 hi with rfl | hi
    · exact ⟨l, t, ho, hfields 0 t rfl, hr⟩
    · refine ih (fun k u hk => ?_) i hi
      rw [Nat.add_right_comm]
      exact hfields (k + 1) u hk

theorem accesses_loading {n : Nat} (ho : g.HasType b o (.object l))
    (hfields : ∀ k t, ts[k]? = some t → g.HasField l (n + k) t) :
    ∀ i ∈ loading o n ts, g.Accesses b i := by
  induction ts generalizing n with
  | nil => simp [loading]
  | cons t ts ih =>
    intro i hi
    rcases List.mem_cons.1 hi with rfl | hi
    · exact ⟨l, ho, hfields 0 t rfl⟩
    · refine ih (fun k u hk => ?_) i hi
      rw [Nat.add_right_comm]
      exact hfields (k + 1) u hk

theorem accesses_capturing {c : BlockId} {ps : List ValueType} {L : Layout} {rs : List Register}
    (rest : List Instruction) (hL : g.layout? l = some L) (hfields : L.fields = .blockRef ps :: ts)
    (hrs : B.HasTypes rs ts) (hopen : B.isTerminated = false)
    (hB : g.block? b = some (B.pushAll (capturing B.registerCount c ps l rs ++ rest))) :
    ∀ i ∈ capturing B.registerCount c ps l rs, g.Accesses b i := by
  have hobject : g.HasType b ⟨B.registerCount⟩ (.object l) := ⟨_, hB, B.typeOf?_pushAll _ 0⟩
  have hrs' : List.Forall₂ (g.HasType b) rs ts :=
    hrs.imp fun r t hr => ⟨_, hB, (Block.Extends.pushAll hopen _).typeOf? hr⟩
  have hfield (k : Nat) (t : ValueType) (hk : (ValueType.blockRef ps :: ts)[k]? = some t) :
      g.HasField l k t := ⟨L, hL, by rwa [hfields]⟩
  intro i hi
  rcases List.mem_append.1 hi with hi | hi
  · simp only [List.mem_cons, List.not_mem_nil, or_false] at hi
    rcases hi with rfl | rfl | rfl
    · exact ⟨rfl, L, hL⟩
    · trivial
    · exact ⟨l, _, hobject, hfield 0 _ rfl, _, hB, B.typeOf?_pushAll _ 1⟩
  · refine accesses_storing hobject hrs' (fun k t hk => hfield _ t ?_) i hi
    rwa [Nat.add_comm, List.getElem?_cons_succ]

theorem heapTyped_pushAll {s : Builder} (h : s.graph.HeapTyped) (hB : s.graph.block? b = some B)
    (hopen : B.isTerminated = false) (is : List Instruction)
    (his : ∀ i ∈ is, (s.updateBlock b (·.pushAll is)).graph.Accesses b i) :
    (s.updateBlock b (·.pushAll is)).graph.HeapTyped :=
  heapTyped_updateBlock h hB (.pushAll hopen is) fun i hi =>
    (List.mem_append.1 hi).imp id (his i)

theorem heapTyped_appendLayout {s : Builder} (h : s.graph.HeapTyped) (L : Layout) :
    (s.appendLayout L).graph.HeapTyped :=
  h.grow (.refl _) (fun _ _ hL => appendLayout_layout?_of_some hL) fun _ C hC _ hi =>
    .inl ⟨C, hC, hi⟩

end Heap

def ReturnsTo (g : Graph) (l : LayoutId) (ps : List ValueType) : Prop :=
  g.layout? l = some ⟨[.blockRef ps], .ofReturn⟩

theorem exists_runs_packContext {s : Builder} {b c : BlockId} {l : LayoutId}
    (hB : s.graph.block? b = some B) (hopen : B.isTerminated = false)
    (hholds : B.Holds low Γ σ slot) (hC : s.graph.block? c = some C)
    (hopen' : C.isTerminated = false) (hC0 : 0 < C.registerCount) (hne : c ≠ b)
    (hl : ReturnsTo s.graph l C.parameterTypes) :
    ∃ r s', Runs (packContext b c l) s r s' ∧ (s.graph.HeapTyped → s'.graph.HeapTyped) ∧
      (∃ B', s'.graph.block? b = some B' ∧ B'.isTerminated = false ∧ B.Extends B' ∧
        B'.typeOf? r = some (.object l)) ∧
      ∃ C', s'.graph.block? c = some C' ∧ C'.isTerminated = false ∧ C.Extends C' ∧
        C'.Holds low Γ σ slot := by
  by_cases hlive : B.locals.liveRegisters = []
  · refine ⟨_, _, runs_packContext_nil hB hopen hC hne hlive, fun hs => ?_, ?_, ?_⟩
    · have hB' := updateBlock_self hB
        (·.pushAll (capturing B.registerCount c C.parameterTypes l []))
      refine heapTyped_withLocals (heapTyped_pushAll hs hB hopen _
        (accesses_capturing [] hl rfl .nil hopen ?_))
        ((updateBlock_other _ hne _).trans hC) _
      rw [List.append_nil]
      exact hB'
    · exact ⟨B.pushAll (capturing B.registerCount c C.parameterTypes l []),
        (updateBlock_other _ hne.symm _).trans (updateBlock_self hB _), hopen, .pushAll hopen _,
        B.typeOf?_pushAll _ 0⟩
    · exact ⟨C.withLocals B.locals, updateBlock_self ((updateBlock_other _ hne _).trans hC) _, hopen',
        .withLocals C _, hholds.renames (.of_nil hlive fun _ _ => False) fun _ _ _ h => h.elim⟩
  · obtain ⟨types, htypes⟩ := exists_forall₂ hholds.live
    obtain ⟨l', hrun, -, hrenames⟩ :=
      runs_packContext (l := l) hB hopen hC hopen' hC0 hne hlive htypes
    refine ⟨_, _, hrun, fun hs => ?_, ?_, ?_⟩
    · let L : Layout := ⟨.blockRef C.parameterTypes :: types, .ofContext⟩
      let up : Instruction := ⟨.cast .upcast ⟨B.registerCount⟩, .object l⟩
      let is := capturing B.registerCount c C.parameterTypes s.layoutId B.locals.liveRegisters ++ [up]
      have hL : ((s.appendLayout L).updateBlock b (·.pushAll is)).graph.layout? s.layoutId = some L := by
        simpa [Builder.updateBlock, Graph.layout?, Graph.modifyBlock] using
          (appendLayout_layout? s L s.layoutId).trans (if_pos rfl)
      have hB' : ((s.appendLayout L).updateBlock b (·.pushAll is)).graph.block? b =
          some (B.pushAll is) := updateBlock_self hB _
      have hC' : ((s.appendLayout L).updateBlock b (·.pushAll is)).graph.block? c = some C :=
        (updateBlock_other _ hne _).trans hC
      have hstored := heapTyped_pushAll (heapTyped_appendLayout hs L) hB hopen is fun i hi => ?_
      · refine heapTyped_withLocals (heapTyped_pushAll hstored hC' hopen' _ fun i hi => ?_)
          (updateBlock_self hC' _) _
        rcases List.mem_cons.1 hi with rfl | hi
        · trivial
        · refine accesses_loading ⟨_, updateBlock_self hC' _, C.typeOf?_pushAll _ 0⟩
            (fun k t hk => ⟨L, hL, ?_⟩) i hi
          rwa [Nat.add_comm, List.getElem?_cons_succ]
      · rcases List.mem_append.1 hi with hi | hi
        · exact accesses_capturing [up] hL rfl htypes hopen hB' i hi
        · obtain rfl := List.mem_singleton.1 hi
          exact ⟨s.layoutId, l, ⟨_, hB', B.typeOf?_pushAll is 0⟩, rfl, L, _, _, hL, rfl,
            appendLayout_layout?_of_some hl, rfl, rfl, rfl⟩
    · refine ⟨B.pushAll (capturing B.registerCount c C.parameterTypes s.layoutId
        B.locals.liveRegisters ++ [⟨.cast .upcast ⟨B.registerCount⟩, .object l⟩]), ?_, hopen,
        .pushAll hopen _, ?_⟩
      · rw [updateBlock_other _ hne.symm, updateBlock_other _ hne.symm]
        exact updateBlock_self hB _
      · have hlen : types.length = B.locals.liveRegisters.length := htypes.length_eq.symm
        rw [Nat.add_assoc, Block.typeOf?_pushAll, hlen, ← capturing_length B.registerCount c
          C.parameterTypes s.layoutId B.locals.liveRegisters, List.getElem?_concat_length]
        rfl
    · refine ⟨(C.pushAll (resuming C.registerCount s.layoutId types)).withLocals l',
        updateBlock_self (updateBlock_self ((updateBlock_other _ hne _).trans hC) _) _, hopen',
        .trans (.pushAll hopen' _) (.withLocals _ _), ?_⟩
      have hloaded := hasTypes_resuming C s.layoutId types
      refine hholds.renames (hrenames (fun r r' => ∃ t, B.typeOf? r = some t ∧
        (C.pushAll (resuming C.registerCount s.layoutId types)).typeOf? r' = some t) ?_) ?_
      · exact forall₂_join (List.Forall₂.flip htypes) (List.Forall₂.flip hloaded)
          fun t r r' hr hr' => ⟨t, hr, hr'⟩
      · rintro r r' t ⟨t', ht', hr'⟩ hr
        obtain rfl := Option.some.inj (hr.symm.trans ht')
        exact hr'

theorem lowered?_isVoid {s : State} {t : SourceType} {vt : ValueType} (h : lowered? s t = some vt) :
    vt.isVoid = t.isVoid := by
  cases t with
  | prim p =>
    obtain rfl : ValueType.prim p = vt := by simpa [lowered?] using h
    cases p <;> rfl
  | object c =>
    simp only [lowered?, Option.map_eq_some_iff] at h
    obtain ⟨l, -, rfl⟩ := h
    rfl
  | array element =>
    simp only [lowered?, Option.map_eq_some_iff] at h
    obtain ⟨l, -, rfl⟩ := h
    rfl
  | function result parameters =>
    simp only [lowered?, Option.bind_eq_some_iff, Option.map_eq_some_iff] at h
    obtain ⟨-, -, -, -, -, -, rfl⟩ := h
    rfl

theorem exists_runs_callJump {s : Builder} {b : BlockId} {l : LayoutId} {vt : ValueType}
    {callee : Register} {args : List Register} {τ : List ValueType}
    (hB : s.graph.block? b = some B) (hopen : B.isTerminated = false)
    (hholds : B.Holds low Γ σ slot) (hcallee : B.typeOf? callee = some (.blockRef (.object l :: τ)))
    (hargs : B.HasTypes args τ) (hl : s.graph.layout? l = some (returning l vt)) :
    ∃ c s₁ r s₂ s₃, Runs (addBlock ((continuation l vt).map (⟨·, none⟩))) s c s₁ ∧
      Runs (packContext b c l) s₁ r s₂ ∧ Runs (goto b ⟨callee, r :: args⟩) s₂ () s₃ ∧
      (s.graph.HeapTyped → s₃.graph.HeapTyped) ∧ ∃ C, s₃.graph.block? c = some C ∧
        C.isTerminated = false ∧ C.Holds low Γ σ slot ∧ C.parameterTypes = continuation l vt := by
  let C : Block := { id := s.graph.nextId, parameters := (continuation l vt).map (⟨·, none⟩) }
  have hne : s.graph.nextId ≠ b := by
    rintro rfl
    simp [Graph.block?_nextId] at hB
  have hB₁ : (s.appendBlock C).graph.block? b = some B := by
    rw [appendBlock_block?, if_neg hne.symm]
    exact hB
  have hC₁ : (s.appendBlock C).graph.block? s.graph.nextId = some C := by
    rw [appendBlock_block?, if_pos rfl]
  have hparams : C.parameterTypes = continuation l vt := by
    simp [C, Block.parameterTypes, Function.comp_def]
  obtain ⟨r, s₂, hpack, hheap, ⟨B', hB', hopen', hext, hr⟩, C', hC', hopenC, hextC, hholdsC⟩ :=
    exists_runs_packContext (l := l) hB₁ hopen hholds hC₁ rfl
      (by simp [C, Block.registerCount, continuation]) hne (by rw [ReturnsTo, hparams]; exact hl)
  have hpass : B'.Passes ⟨callee, r :: args⟩ :=
    ⟨_, hext.typeOf? hcallee, .cons hr (hargs.mono fun _ _ => hext.typeOf?)⟩
  refine ⟨_, _, r, s₂, _, runs_addBlock.2 ⟨rfl, rfl⟩, hpack,
    runs_goto.2 ⟨B', hB', hopen', hpass, rfl⟩, fun hs => ?_, C',
    (updateBlock_other _ hne _).trans hC', hopenC, hholdsC, hextC.parameterTypes.trans hparams⟩
  exact heapTyped_close (hheap (heapTyped_appendBlock hs rfl)) hB' hopen' _

variable {D : Declared} {ls : List LoopFrame} {s s' : State} {b : BlockId} {τ : List ValueType}
  {t : SourceType} {vt : ValueType} {l : LayoutId}

theorem Ready.lowerCall (h : Ready D ls slot s b Γ (σ ++ [.blockRef (.object l :: τ)] ++ τ)) {n : Nat}
    (hn : τ.length = n) (ht : lowered? s t = some vt) (hl : s.returnLayouts.get? vt = some l) :
    Succeeds (lowerCall b n t) s fun c s' => After D ls slot s s' c Γ σ ∧
      (t.isVoid = false → Yields s' c t) := by
  refine (h.popMany hn).bind ?_
  rintro args s₁ - ⟨h₁, hargs⟩
  refine h₁.ready.pop.bind ?_
  rintro callee s₂ - ⟨h₂, hcallee⟩
  obtain ⟨B, hB, hopen, hholds⟩ := h₂.ready.fits
  have hargs : B.HasTypes args τ := hargs.imp fun _ _ hr => (hr.extend h₂.grows.graph).typeOf? hB
  have hgrow := h₁.grows.trans h₂.grows
  have ht₂ := hgrow.lowered? t vt ht
  obtain ⟨c, u₁, r, u₂, u₃, hadd, hpack, hgoto, hheap, C, hC, hopenC, hholdsC, hparams⟩ :=
    exists_runs_callJump hB hopen hholds (hcallee.typeOf? hB) hargs
      (h₂.ready.knows.returning vt l (hgrow.returns vt l hl))
  -- the first parameter is the context, and the second one the result
  obtain ⟨last, hlast⟩ : ∃ last, C.lastRegister? = some last := by
    have hpos : C.registerCount ≠ 0 := by
      have hlen : C.parameters.length = (continuation l vt).length := by
        rw [← hparams, Block.parameterTypes, List.length_map]
      simp only [Block.registerCount, hlen, continuation, List.length_cons]
      omega
    exact ⟨_, by rw [Block.lastRegister?, if_neg hpos]⟩
  have hresult (hv : t.isVoid = false) : C.typeOf? ⟨1⟩ = some vt := by
    refine Block.typeOf?_of_parameterTypes ?_
    rw [hparams, continuation, lowered?_isVoid ht, hv]
    rfl
  let s₃ : State := { s₂ with toBuilder := u₃ }
  have hmoves : Rebuilds [b] s₂ [c] s₃ := .of_moves (moves_callJump hadd hpack hgoto)
  have h₃ : After D ls slot s s₃ c Γ σ := by
    have hgrow₃ := hmoves.grows
    exact ⟨hgrow.trans ⟨hgrow₃, hheap⟩, h₂.ready.knows.mono hgrow₃, h₂.ready.loops, C, hC, hopenC,
      hholdsC.mono hgrow₃.lowered? (fun _ _ h => h) rfl⟩
  have ht₃ := h₃.grows.lowered? t vt ht
  have hend : Succeeds (do
      if !vt.isVoid && (← (Builder.lastRegister c : BuildM _)) ≠ ⟨1⟩ then
        let _ ← Builder.copy c ⟨1⟩
      return c : LowerM BlockId) s₃ fun c s' => After D ls slot s s' c Γ σ ∧
        (t.isVoid = false → Yields s' c t) := by
    refine Succeeds.bind (P := fun r s' => r = last ∧ s' = s₃) ⟨last, s₃, Runs.lift_build_iff.2
      ⟨u₃, runs_lastRegister.2 ⟨C, hC, hlast, rfl⟩, rfl⟩, rfl, rfl⟩ ?_
    rintro _ _ - ⟨rfl, rfl⟩
    split
    case isTrue hcond =>
      have hv : t.isVoid = false := by
        rw [← lowered?_isVoid ht]
        simpa using (Bool.and_eq_true_iff.1 hcond).1
      refine (h₃.ready.copy ⟨C, hC, hresult hv⟩).bind ?_
      rintro _ s₄ - ⟨h₄, hlast⟩
      exact .pure ⟨.trans h₃.grows h₄, fun _ => ⟨vt, h₄.grows.lowered? t vt ht₃, hlast⟩⟩
    case isFalse hcond =>
      refine .pure ⟨h₃, fun hv => ⟨vt, ht₃, C, ⟨1⟩, hC, ?_, hresult hv⟩⟩
      rw [hlast]
      simpa [lowered?_isVoid ht, hv] using hcond
  obtain ⟨c', s', hrun, hpost⟩ := hend
  refine ⟨c', s', ?_, hpost⟩
  simp only [Runs.bind_iff, Runs.lift_build_iff, runs_typeOf, Runs.lift_except_lower_iff]
  exact ⟨_, s₂, ⟨_, ⟨B, hB, hcallee.typeOf? hB, rfl⟩, rfl⟩, l, s₂, ⟨rfl, rfl⟩, vt, s₂,
    runs_lowerType_of_lowered? t vt ht₂, c, _, ⟨u₁, hadd, rfl⟩, r, _, ⟨u₂, hpack, rfl⟩, (), s₃,
    ⟨u₃, hgoto, rfl⟩, by simpa only [Runs.bind_iff, Runs.lift_build_iff] using hrun⟩

end Lowering

end BlockGraph
