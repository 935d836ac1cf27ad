import BlockGraph.Proofs.Linearity.Tidy

namespace BlockGraph

namespace Lowering

open Builder

variable {i : Instruction}

theorem mem_storing {object : Register} {n : Nat} {rs : List Register} (h : i ∈ storing object n rs) :
    ∃ m, ∃ r ∈ rs, i = ⟨.setField object m r, .prim .void⟩ := by
  induction rs generalizing n with
  | nil => simp [storing] at h
  | cons r rs ih =>
    rcases List.mem_cons.1 h with rfl | h
    · exact ⟨n, r, by simp, rfl⟩
    · obtain ⟨m, r', hr', rfl⟩ := ih h
      exact ⟨m, r', by simp [hr'], rfl⟩

theorem mem_loading {object : Register} {n : Nat} {ts : List ValueType}
    (h : i ∈ loading object n ts) : ∃ m, ∃ t ∈ ts, i = ⟨.getField object m, t⟩ := by
  induction ts generalizing n with
  | nil => simp [loading] at h
  | cons t ts ih =>
    rcases List.mem_cons.1 h with rfl | h
    · exact ⟨n, t, by simp, rfl⟩
    · obtain ⟨m, t', ht', rfl⟩ := ih h
      exact ⟨m, t', by simp [ht'], rfl⟩

def handing (n : Nat) (l : LayoutId) (c : BlockId) (ps : List ValueType) (rest : List Instruction) :
    List Instruction :=
  ⟨.new l, .object l⟩ :: ⟨.blockRef c, .blockRef ps⟩ ::
    ⟨.setField ⟨n⟩ 0 ⟨n + 1⟩, .prim .void⟩ :: rest

variable {B : Block} {g : Graph} {n : Nat} {l : LayoutId} {c : BlockId} {ps : List ValueType}
  {rest : List Instruction}

theorem readsBack_handing (hrest : ∀ i ∈ rest, ∀ o ∈ i.operation.operands, o.index ≤ n) :
    Block.ReadsBack n (handing n l c ps rest) := by
  intro k i hk o ho
  match k with
  | 0 | 1 =>
    obtain rfl := Option.some.inj hk
    simp [Operation.operands] at ho
  | 2 =>
    obtain rfl := Option.some.inj hk
    simp only [Operation.operands, List.mem_cons, List.not_mem_nil, or_false] at ho
    rcases ho with rfl | rfl <;> simp
  | k + 3 =>
    have := hrest i (List.mem_of_getElem? hk) o ho
    omega

theorem lt_of_instruction? {q : Register} (h : B.instruction? q = some i) :
    q.index < B.registerCount := by
  unfold Block.instruction? at h
  split at h
  · simp at h
  · have := (List.getElem?_eq_some_iff.1 h).1
    rw [Block.registerCount]
    omega

theorem handsOver_handing (h : B.Tidy g)
    (hrest : ∀ i ∈ rest, ∀ o ∈ i.operation.operands, o.index ≤ B.registerCount) {e : Edge}
    (he : ⟨B.registerCount + 1⟩ ∉ e.registers) :
    ((B.pushAll (handing B.registerCount l c ps rest)).close (.goto e)).HandsOver
      B.registerCount l c where
  new := B.instruction?_pushAll _ 0
  refer := ⟨_, B.instruction?_pushAll _ 1⟩
  store := ⟨_, B.instruction?_pushAll _ 2⟩
  once q i hq ho := by
    rcases Block.instruction?_pushAll_cases (B := B) hq with hq | ⟨k, rfl, hk⟩
    · have hread : B.registerCount + 1 < q.index := h.operands q i hq _ ho
      have hlt := lt_of_instruction? hq
      omega
    · match k with
      | 0 | 1 =>
        obtain rfl := Option.some.inj hk
        simp [Operation.operands] at ho
      | 2 => rfl
      | k + 3 =>
        have hread : B.registerCount + 1 ≤ B.registerCount :=
          hrest i (List.mem_of_getElem? hk) _ ho
        omega
  exit t ht := by
    obtain rfl := Option.some.inj ht
    exact he

variable {k : Call} {p : Packing} {layout : LayoutId}

theorem Call.Packs.exists_handing (hp : k.Packs layout c p)
    (hlive : ∀ r ∈ k.caller.locals.liveRegisters, r.index < k.caller.registerCount) :
    ∃ l rest, p.code = handing k.caller.registerCount l c k.parameterTypes rest ∧
      (∀ i ∈ rest, i.operation.isInert = true ∧ ∀ o ∈ i.operation.operands, o.index ≤ k.caller.registerCount) ∧
      p.context.index ≠ k.caller.registerCount + 1 ∧
      (l = k.returns ∧ p.layouts = [] ∧ p.unpacking = [] ∨
        l = layout ∧ (∃ fields, p.layouts = [⟨fields, .ofContext⟩]) ∧
          ∃ types, p.unpacking = resuming k.parameterTypes.length layout types) := by
  cases hp with
  | plain => exact ⟨_, [], rfl, by simp, by simp [Call.plain], .inl ⟨rfl, rfl, rfl⟩⟩
  | captured =>
    refine ⟨_, _, rfl, fun i hi => ?_, by simp only [Call.captured]; omega,
      .inr ⟨rfl, ⟨_, rfl⟩, _, rfl⟩⟩
    rcases List.mem_append.1 hi with hi | hi
    · obtain ⟨m, r, hr, rfl⟩ := mem_storing hi
      refine ⟨rfl, ?_⟩
      simpa [Operation.operands] using Nat.le_of_lt (hlive r hr)
    · obtain rfl := List.mem_singleton.1 hi
      exact ⟨rfl, by simp [Operation.operands]⟩

theorem proper_object (l : LayoutId) : g.Proper (.object l) := nofun

theorem bare_tidy (hresult : g.Proper k.result) : (k.bare c).Tidy g := by
  refine .of_parameters rfl (fun t ht => ?_) (fun r hr => ?_) (fun e he => nomatch he)
  · rw [bare_parameterTypes] at ht
    simp only [Call.parameterTypes, continuation, List.mem_cons] at ht
    rcases ht with rfl | ht
    · exact proper_object _
    · split at ht
      · simp at ht
      · obtain rfl := List.mem_singleton.1 ht
        exact hresult
  · have hnil : (k.bare c).locals.liveRegisters = [] := rfl
    simp [hnil] at hr

theorem Call.Packs.resumed_tidy (hp : k.Packs layout c p) (hcaller : k.caller.Tidy g)
    (hresult : g.Proper k.result) : (k.resumed c p).Tidy g := by
  have hsymbols : ∀ e ∈ p.locals.symbols.entries, g.Proper e.2.type := by
    intro e he
    obtain ⟨e', he', -, htype, -⟩ := forall₂_mem_right hp.sameShape.symbols he
    exact htype ▸ hcaller.symbols e' he'
  cases hp with
  | plain hlive =>
    refine ((bare_tidy hresult).pushAll rfl ?_ ?_ ?_).withLocals ?_ hsymbols
    · simp [Call.plain, Call.yielding, Block.ReadsBack]
    · simp [Call.plain, Call.yielding]
    · simp [Call.plain, Call.yielding]
    · simp [Call.plain, hlive]
  | captured hlive htypes hnew hrenames =>
    rename_i types locals
    have hpos : 0 < k.parameterTypes.length := by simp [Call.parameterTypes, continuation]
    have hproper : ∀ t ∈ types, g.Proper t := by
      intro t ht
      obtain ⟨r, hr, hrt⟩ := forall₂_mem_right htypes ht
      obtain ⟨t', ht', hproper⟩ := hcaller.live r hr
      exact Option.some.inj (hrt.symm.trans ht') ▸ hproper
    -- what comes after the cast down loads from the object that was cast, or copies the result
    have hafter : ∀ i ∈ loading ⟨k.parameterTypes.length⟩ 1 types ++
        k.yielding (k.captured c layout types locals), i.operation.isInert = true ∧ g.Proper i.type ∧
          ∀ o ∈ i.operation.operands, o.index ≤ k.parameterTypes.length := by
      intro i hi
      rcases List.mem_append.1 hi with hi | hi
      · obtain ⟨m, t, ht, rfl⟩ := mem_loading hi
        exact ⟨rfl, hproper t ht, by simp [Operation.operands]⟩
      · rw [Call.yielding] at hi
        split at hi
        · simp at hi
        · obtain rfl := List.mem_singleton.1 hi
          exact ⟨rfl, hresult, by
            simpa [Operation.operands] using Nat.succ_le_of_lt hpos⟩
    refine ((bare_tidy (c := c) hresult).pushAll rfl ?_ ?_ ?_).withLocals ?_ hsymbols
    · rw [bare_registerCount]
      intro j i hj o ho
      cases j with
      | zero =>
        obtain rfl := Option.some.inj hj
        obtain rfl : o = ⟨0⟩ := by simpa [Operation.operands] using ho
        exact hpos
      | succ j =>
        have hle := (hafter i (List.mem_of_getElem? hj)).2.2 o ho
        omega
    · intro i hi
      rcases List.mem_cons.1 hi with rfl | hi
      · exact ⟨by simp, by simp⟩
      · exact (Graph.Plain.of_inert (hafter i hi).1).toKnows
    · intro i hi
      rcases List.mem_cons.1 hi with rfl | hi
      · exact proper_object layout
      · exact (hafter i hi).2.1
    · intro r hr
      rw [Call.captured, hnew] at hr
      obtain ⟨j, hj, rfl⟩ := mem_registersFrom.1 hr
      refine ⟨types[j], ?_, hproper _ (List.getElem_mem hj)⟩
      rw [Nat.add_assoc, Nat.add_comm 1, ← bare_registerCount k c, Block.typeOf?_pushAll, Call.captured,
        resuming, List.cons_append, List.getElem?_cons_succ,
        List.getElem?_append_left (by rwa [loading_length]), loading_getElem?]
      simp [hj]

section Suspends

variable {t s' : Builder} {b : BlockId} {i : Instruction} {ts : List ValueType}

theorem Call.Suspends.instructionAt (hsus : k.Suspends b p t s')
    (hB : t.graph.block? b = some k.caller) {d : BlockId} {q : Register}
    (h : s'.graph.InstructionAt d q i) :
    t.graph.InstructionAt d q i ∨
      (d = b ∧ ∃ j, q = ⟨k.caller.registerCount + j⟩ ∧ p.code[j]? = some i) ∨
      (d = t.graph.nextId ∧ ∃ j, q = ⟨k.parameterTypes.length + j⟩ ∧
        (p.unpacking ++ k.yielding p)[j]? = some i) := by
  obtain ⟨D, hD, hi⟩ := h
  by_cases hb : d = b
  · obtain rfl := hb
    obtain rfl := Option.some.inj (hsus.caller.symm.trans hD)
    rcases Block.instruction?_pushAll_cases (B := k.caller) hi with hi | hj
    · exact .inl ⟨k.caller, hB, hi⟩
    · exact .inr (.inl ⟨rfl, hj⟩)
  · by_cases hc : d = t.graph.nextId
    · obtain rfl := hc
      obtain rfl := Option.some.inj (hsus.resumed.symm.trans hD)
      rcases Block.instruction?_pushAll_cases (B := k.bare t.graph.nextId) hi with hi | ⟨j, hq, hj⟩
      · simp [Call.bare, Block.instruction?] at hi
      · exact .inr (.inr ⟨rfl, j, by rw [hq, bare_registerCount], hj⟩)
    · exact .inl ⟨D, (hsus.others d hb hc).symm.trans hD, hi⟩

theorem handing_cases (hrest : ∀ i ∈ rest, i.operation.isInert = true) {j : Nat}
    (h : (handing n l c ps rest)[j]? = some i) :
    j = 0 ∧ i = ⟨.new l, .object l⟩ ∨ j = 1 ∧ i = ⟨.blockRef c, .blockRef ps⟩ ∨ i.operation.isInert = true := by
  match j with
  | 0 => exact .inl ⟨rfl, (Option.some.inj h).symm⟩
  | 1 => exact .inr (.inl ⟨rfl, (Option.some.inj h).symm⟩)
  | 2 =>
    obtain rfl := Option.some.inj h
    exact .inr (.inr rfl)
  | j + 3 => exact .inr (.inr (hrest i (List.mem_of_getElem? h)))

theorem resuming_cases {types : List ValueType} {j : Nat}
    (hp : p.unpacking = resuming n layout types) (h : (p.unpacking ++ k.yielding p)[j]? = some i) :
    j = 0 ∧ i = ⟨.cast .downcast ⟨0⟩, .object layout⟩ ∨ i.operation.isInert = true := by
  rw [hp, resuming, List.cons_append] at h
  cases j with
  | zero => exact .inl ⟨rfl, (Option.some.inj h).symm⟩
  | succ j =>
    right
    rcases List.mem_append.1 (List.mem_of_getElem? h) with hi | hi
    · obtain ⟨m, type, -, rfl⟩ := mem_loading hi
      exact rfl
    · rw [Call.yielding] at hi
      split at hi
      · simp at hi
      · obtain rfl := List.mem_singleton.1 hi
        exact rfl

structure Call.Hands (k : Call) (b : BlockId) (p : Packing) (l : LayoutId) (t s' : Builder) :
    Prop where
  code : ∃ rest, p.code = handing k.caller.registerCount l t.graph.nextId k.parameterTypes rest ∧
    ∀ i ∈ rest, i.operation.isInert = true ∧ ∀ o ∈ i.operation.operands, o.index ≤ k.caller.registerCount
  context : p.context.index ≠ k.caller.registerCount + 1
  added : ∀ d q i, s'.graph.InstructionAt d q i → t.graph.InstructionAt d q i ∨ i.operation.isInert = true ∨
    (d = b ∧ q = ⟨k.caller.registerCount⟩ ∧ i = ⟨.new l, .object l⟩) ∨
    (d = b ∧ q = ⟨k.caller.registerCount + 1⟩ ∧
      i = ⟨.blockRef t.graph.nextId, .blockRef k.parameterTypes⟩) ∨
    (d = t.graph.nextId ∧ q = ⟨k.parameterTypes.length⟩ ∧
      i = ⟨.cast .downcast ⟨0⟩, .object l⟩ ∧ l = t.layoutId)
  known : ∀ l' L, t.graph.layout? l' = some L → s'.graph.layout? l' = some L
  layouts : ∀ l' L, s'.graph.layout? l' = some L → t.graph.layout? l' = some L ∨
    l' = l ∧ l = t.layoutId ∧ L.origin = .ofContext
  layout : l = k.returns ∨
    l = t.layoutId ∧ s'.graph.IsContext l ∧ (k.resumed t.graph.nextId p).Unpacks l

theorem Call.Suspends.exists_hands (hsus : k.Suspends b p t s')
    (hB : t.graph.block? b = some k.caller)
    (hlive : ∀ r ∈ k.caller.locals.liveRegisters, r.index < k.caller.registerCount)
    (hp : k.Packs t.layoutId t.graph.nextId p) : ∃ l, k.Hands b p l t s' := by
  obtain ⟨l, rest, hcode, hrest, hcontext, hl⟩ := hp.exists_handing hlive
  have hunpack : ∀ j i, (p.unpacking ++ k.yielding p)[j]? = some i →
      j = 0 ∧ i = ⟨.cast .downcast ⟨0⟩, .object l⟩ ∧ l = t.layoutId ∨ i.operation.isInert = true := by
    intro j i hj
    rcases hl with ⟨-, -, hnil⟩ | ⟨rfl, -, types, hresuming⟩
    · simp [hnil, Call.yielding] at hj
    · exact (resuming_cases hresuming hj).imp_left fun h => ⟨h.1, h.2, rfl⟩
  refine ⟨l, ⟨rest, hcode, hrest⟩, hcontext, fun d q i hi => ?_, fun l' L hL => ?_, fun l' L hL => ?_, ?_⟩
  · rcases hsus.instructionAt hB hi with hi | ⟨rfl, j, rfl, hj⟩ | ⟨rfl, j, rfl, hj⟩
    · exact .inl hi
    · rw [hcode] at hj
      rcases handing_cases (fun i hi => (hrest i hi).1) hj with ⟨rfl, rfl⟩ | ⟨rfl, rfl⟩ | hinert
      · exact .inr (.inr (.inl ⟨rfl, rfl, rfl⟩))
      · exact .inr (.inr (.inr (.inl ⟨rfl, rfl, rfl⟩)))
      · exact .inr (.inl hinert)
    · rcases hunpack j i hj with ⟨rfl, rfl, hl⟩ | hinert
      · exact .inr (.inr (.inr (.inr ⟨rfl, rfl, rfl, hl⟩)))
      · exact .inr (.inl hinert)
  · rw [Graph.layout?, hsus.layouts, List.getElem?_append_left (lt_of_layout? hL)]
    exact hL
  · rw [Graph.layout?, hsus.layouts] at hL
    rcases hl with ⟨-, hnil, -⟩ | ⟨rfl, ⟨fields, hfields⟩, -⟩
    · rw [hnil, List.append_nil] at hL
      exact .inl hL
    · rw [hfields] at hL
      have hcases := appendLayout_layout? t ⟨fields, .ofContext⟩ l'
      split at hcases
      case isTrue heq =>
        obtain rfl := Option.some.inj (hcases.symm.trans hL)
        exact .inr ⟨heq, rfl, rfl⟩
      case isFalse => exact .inl (hcases.symm.trans hL)
  · rcases hl with ⟨hreturns, -⟩ | ⟨rfl, ⟨fields, hfields⟩, types, hresuming⟩
    · exact .inl hreturns
    · refine .inr ⟨rfl, ⟨⟨fields, .ofContext⟩, ?_, rfl⟩, ?_⟩
      · rw [Graph.layout?, hsus.layouts, hfields]
        exact (appendLayout_layout? t ⟨fields, .ofContext⟩ t.layoutId).trans (if_pos rfl)
      · have hfirst := (k.bare t.graph.nextId).instruction?_pushAll (p.unpacking ++ k.yielding p) 0
        rw [hresuming] at hfirst
        rw [Block.Unpacks, Call.resumed, hresuming, Block.withLocals_parameters,
          Block.pushAll_parameters]
        exact hfirst

variable {l : LayoutId}

theorem layout?_layoutId (s : Builder) : s.graph.layout? s.layoutId = none :=
  List.getElem?_eq_none (Nat.le_refl _)

theorem not_isContext_layoutId (s : Builder) : ¬s.graph.IsContext s.layoutId := by
  rintro ⟨L, hL, -⟩
  simp [layout?_layoutId] at hL

theorem Call.Hands.preserves (hh : k.Hands b p l t s') (hsus : k.Suspends b p t s')
    (hB : t.graph.block? b = some k.caller) (hreturn : t.graph.IsReturn k.returns) :
    t.graph.Preserves s'.graph := by
  have hl : ¬t.graph.IsContext l := by
    rcases hh.layout with rfl | ⟨rfl, -⟩
    · exact hreturn.not_isContext
    · exact not_isContext_layoutId t
  refine ⟨fun d D hD => ?_, fun l' L hL => ⟨L, hh.known l' L hL, rfl⟩, fun d q i hi => ?_⟩
  · by_cases hb : d = b
    · obtain rfl := hb
      obtain rfl := Option.some.inj (hB.symm.trans hD)
      refine ⟨_, hsus.caller, (Block.Extends.pushAll hsus.open_ p.code).trans ?_, rfl⟩
      exact .close (b := k.caller.pushAll p.code) hsus.open_ _
    · refine ⟨D, (hsus.others d hb ?_).trans hD, .refl D, rfl⟩
      rintro rfl
      simp [Graph.block?_nextId] at hD
  · rcases hh.added d q i hi with hi | hinert | ⟨-, -, rfl⟩ | ⟨-, -, rfl⟩ | ⟨-, -, rfl, -⟩
    · exact .inl hi
    · exact .inr (Graph.Plain.of_inert hinert).toSpares
    · refine .inr ⟨fun l' _ h => ?_, fun _ _ _ h => by simp at h, fun _ _ h => by simp at h⟩
      simp only [Instruction.mk.injEq, Operation.new.injEq] at h
      exact h.1 ▸ hl
    · refine .inr ⟨fun _ _ h => by simp at h, fun c' _ R h hR => ?_, fun _ _ h => by simp at h⟩
      simp only [Instruction.mk.injEq, Operation.blockRef.injEq] at h
      simp [← h.1, Graph.block?_nextId] at hR
    · refine .inr ⟨fun _ _ h => by simp at h, fun _ _ _ h => by simp at h, fun _ l' h => ?_⟩
      simp only [Instruction.mk.injEq, ValueType.object.injEq] at h
      exact h.2 ▸ hl

theorem Call.Packs.loadsSlot (hp : k.Packs layout c p) : (k.resumed c p).LoadsSlot := by
  intro r' hr'
  have hslot : p.locals.returnSlot = some r' := hr'
  have hsame := hp.sameShape.slot
  rw [hslot, Option.toList_some] at hsame
  obtain ⟨r, hr⟩ : ∃ r, k.caller.locals.returnSlot = some r := by
    cases hr : k.caller.locals.returnSlot with
    | none => simp [hr] at hsame
    | some r => exact ⟨r, rfl⟩
  have hlive : k.caller.locals.liveRegisters[0]? = some r := by simp [Locals.liveRegisters, hr]
  have hlive' : p.locals.liveRegisters[0]? = some r' := by simp [Locals.liveRegisters, hslot]
  obtain ⟨t, -, hi⟩ := hp.instruction? hlive hlive'
  exact ⟨_, _, t, hi⟩

theorem Call.Packs.resumes (hp : k.Packs layout c p) : (k.resumed c p).Resumes := by
  have hpos : (k.resumed c p).parameters ≠ [] := by
    simp [Call.resumed, Call.bare, Call.parameterTypes, continuation]
  refine ⟨hpos, rfl, fun hslot => ?_⟩
  obtain ⟨o, n, t, hi⟩ := hp.loadsSlot _ hslot
  simp [Block.instruction?, List.length_pos_iff.2 hpos] at hi

theorem Call.Hands.handover (hh : k.Hands b p l t s') (hsus : k.Suspends b p t s') (h : t.Tidy)
    (hB : t.graph.block? b = some k.caller)
    (hcallee : k.caller.typeOf? k.callee = some (.blockRef (.object k.returns :: ts)))
    (hargs : ∀ r ∈ k.arguments, r.index < k.caller.registerCount)
    (hp : k.Packs t.layoutId t.graph.nextId p) (hreturn : s'.graph.IsReturn k.returns) :
    s'.graph.Handover b k.caller.registerCount l t.graph.nextId := by
  obtain ⟨rest, hcode, hrest⟩ := hh.code
  refine ⟨⟨_, hsus.caller, rfl, ?_⟩, ⟨_, hsus.resumed, hp.resumes, hp.loadsSlot, ?_⟩, fun d q type hi => ?_,
    fun hcontext d q type hi => ?_⟩
  · rw [Call.suspended, hcode]
    refine handsOver_handing (h.blocks b _ hB) (fun i hi => (hrest i hi).2) ?_
    have hlt := Block.lt_of_typeOf? hcallee
    simp only [Edge.registers, List.mem_cons, not_or]
    refine ⟨fun he => ?_, fun he => hh.context (congrArg Register.index he.symm), fun he => ?_⟩
    · rw [← he] at hlt
      dsimp only at hlt
      omega
    · have := hargs _ he
      dsimp only at this
      omega
  · rcases hh.layout with rfl | ⟨rfl, hcontext, hunpacks⟩
    · exact .inl hreturn
    · refine .inr ⟨hcontext, hunpacks, fun d q o hi => ?_⟩
      rcases hh.added d q _ hi with hi | hinert | ⟨-, -, hi⟩ | ⟨-, -, hi⟩ | ⟨rfl, rfl, -⟩
      · obtain ⟨l', hl', hcontext'⟩ := h.linear.downcasts d q o _ hi
        obtain rfl := ValueType.object.inj hl'
        exact absurd hcontext' (not_isContext_layoutId t)
      · exact absurd hinert Bool.false_ne_true
      · simp at hi
      · simp at hi
      · exact ⟨rfl, by simp [Call.resumed, Call.bare]⟩
  · rcases hh.added d q _ hi with ⟨D, hD, hi⟩ | hinert | ⟨-, -, hi⟩ | ⟨rfl, rfl, -⟩ | ⟨-, -, hi, -⟩
    · obtain ⟨C, hC⟩ := ((h.blocks d D hD).known q _ hi).block _ rfl
      simp [Graph.block?_nextId] at hC
    · exact absurd hinert Bool.false_ne_true
    · simp at hi
    · exact ⟨rfl, rfl⟩
    · simp at hi
  · have hl : l = t.layoutId := by
      rcases hh.layout with rfl | ⟨hl, -⟩
      · exact absurd hcontext hreturn.not_isContext
      · exact hl
    rcases hh.added d q _ hi with ⟨D, hD, hi⟩ | hinert | ⟨rfl, rfl, -⟩ | ⟨-, -, hi⟩ | ⟨-, -, hi, -⟩
    · obtain ⟨L, hL⟩ := ((h.blocks d D hD).known q _ hi).layout _ rfl
      simp [hl, layout?_layoutId] at hL
    · exact absurd hinert Bool.false_ne_true
    · exact ⟨rfl, rfl⟩
    · simp at hi
    · simp at hi

theorem Call.Suspends.keeps (hsus : k.Suspends b p t s') (h : t.Tidy)
    (hB : t.graph.block? b = some k.caller)
    (hcallee : k.caller.typeOf? k.callee = some (.blockRef (.object k.returns :: ts)))
    (hargs : ∀ r ∈ k.arguments, r.index < k.caller.registerCount)
    (hresult : t.graph.Proper k.result) (hp : k.Packs t.layoutId t.graph.nextId p) :
    Keeps t s' := by
  have hcaller := h.blocks b _ hB
  have hreturn : t.graph.IsReturn k.returns := hcaller.types hsus.open_ _ _ hcallee _ _ rfl
  obtain ⟨l, hh⟩ := hsus.exists_hands hB (fun r hr => by
    obtain ⟨type, htype, -⟩ := hcaller.live r hr
    exact Block.lt_of_typeOf? htype) hp
  have hpres := hh.preserves hsus hB hreturn
  have hhand := hh.handover hsus h hB hcallee hargs hp (hreturn.mono hpres)
  have htidy := hcaller.mono hpres
  have hlayout : ∃ L, s'.graph.layout? l = some L := by
    rcases hh.layout with rfl | ⟨-, ⟨L, hL, -⟩, -⟩
    · obtain ⟨L, hL, -⟩ := hreturn.mono hpres
      exact ⟨L, hL⟩
    · exact ⟨L, hL⟩
  refine ⟨⟨h.linear.extend hpres (P := True) (fun _ => hhand) (fun l' hl' => ?_) (fun d R hR _ => ?_)
    (fun d q o type hi => ?_), fun d D hD => ?_, fun type l' hl' => ?_⟩, hpres⟩
  · obtain ⟨L, hL, horigin⟩ := hl'
    rcases hh.layouts l' L hL with hL | ⟨rfl, -⟩
    · exact .inl ⟨L, hL, horigin⟩
    · exact .inr ⟨trivial, rfl⟩
  · by_cases hb : d = b
    · exact .inl ⟨_, hb ▸ hB⟩
    · by_cases hc : d = t.graph.nextId
      · exact .inr ⟨trivial, hc⟩
      · exact .inl ⟨R, (hsus.others d hb hc).symm.trans hR⟩
  · rcases hh.added d q _ hi with hi | hinert | ⟨-, -, hi⟩ | ⟨-, -, hi⟩ | ⟨-, -, hi, rfl⟩
    · exact .inl hi
    · exact absurd hinert Bool.false_ne_true
    · simp at hi
    · simp at hi
    · refine .inr ⟨t.layoutId, congrArg Instruction.type hi, ?_⟩
      obtain ⟨L, hL⟩ := hlayout
      rcases hh.layouts _ L hL with hL' | ⟨-, -, horigin⟩
      · simp [layout?_layoutId] at hL'
      · exact ⟨L, hL, horigin⟩
  · by_cases hb : d = b
    · obtain rfl := hb
      obtain rfl := Option.some.inj (hsus.caller.symm.trans hD)
      obtain ⟨rest, hcode, hrest⟩ := hh.code
      rw [Call.suspended, hcode]
      refine htidy.leave hsus.open_ (readsBack_handing fun i hi => (hrest i hi).2) (fun i hi => ?_) _
      obtain ⟨j, hj⟩ := List.mem_iff_getElem?.1 hi
      rcases handing_cases (fun i hi => (hrest i hi).1) hj with ⟨-, rfl⟩ | ⟨-, rfl⟩ | hinert
      · exact ⟨nofun, fun l' hl' => Operation.new.inj hl' ▸ hlayout⟩
      · exact ⟨fun c' hc' => ⟨_, Operation.blockRef.inj hc' ▸ hsus.resumed⟩, nofun⟩
      · exact (Graph.Plain.of_inert hinert).toKnows
    · by_cases hc : d = t.graph.nextId
      · obtain rfl := hc
        obtain rfl := Option.some.inj (hsus.resumed.symm.trans hD)
        exact hp.resumed_tidy htidy (hresult.mono hpres)
      · exact (h.blocks d D ((hsus.others d hb hc).symm.trans hD)).mono hpres
  · rw [hsus.returnLayouts] at hl'
    exact (h.returns type l' hl').mono hpres

end Suspends

end Lowering

end BlockGraph
