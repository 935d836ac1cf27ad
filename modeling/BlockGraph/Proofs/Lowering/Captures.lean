import BlockGraph.Proofs.Lowering.Expressions

namespace BlockGraph

namespace Block

def pushAll (b : Block) (is : List Instruction) : Block :=
  { b with instructions := b.instructions ++ is }

variable (b : Block) (i : Instruction) (is js : List Instruction)

@[simp] theorem pushAll_nil : b.pushAll [] = b := by simp [pushAll]

@[simp] theorem pushAll_registerCount : (b.pushAll is).registerCount = b.registerCount + is.length := by
  simp [pushAll, registerCount, Nat.add_assoc]

@[simp] theorem pushAll_isTerminated : (b.pushAll is).isTerminated = b.isTerminated := rfl

@[simp] theorem pushAll_parameters : (b.pushAll is).parameters = b.parameters := rfl

@[simp] theorem pushAll_locals : (b.pushAll is).locals = b.locals := rfl

theorem pushAll_push : (b.pushAll is).push i = b.pushAll (is ++ [i]) := by
  simp [pushAll, push]

theorem pushAll_append : (b.pushAll is).pushAll js = b.pushAll (is ++ js) := by
  simp [pushAll]

theorem instruction?_pushAll (k : Nat) :
    (b.pushAll is).instruction? ⟨b.registerCount + k⟩ = is[k]? := by
  have hlt : ¬(Register.mk (b.registerCount + k)).index < (b.pushAll is).parameters.length := by
    simp only [registerCount, pushAll_parameters]
    omega
  rw [instruction?, if_neg hlt, pushAll]
  simp only [registerCount]
  rw [List.getElem?_append_right (by omega)]
  congr 1
  omega

theorem typeOf?_pushAll (k : Nat) :
    (b.pushAll is).typeOf? ⟨b.registerCount + k⟩ = (is[k]?).map (·.type) := by
  have hnone : (b.pushAll is).parameters[(Register.mk (b.registerCount + k)).index]? = none := by
    simp only [registerCount, pushAll_parameters, List.getElem?_eq_none_iff]
    omega
  rw [typeOf?, hnone, instruction?_pushAll]

theorem typeOf?_of_instruction? {B : Block} {r : Register} {i : Instruction}
    (h : B.instruction? r = some i) : B.typeOf? r = some i.type := by
  have hr : B.parameters.length ≤ r.index := by
    unfold instruction? at h
    split at h
    · simp at h
    · omega
  rw [typeOf?, List.getElem?_eq_none hr, h]
  rfl

theorem Extends.pushAll {b : Block} (h : b.isTerminated = false) (is : List Instruction) :
    b.Extends (b.pushAll is) :=
  ⟨rfl, rfl, rfl, List.prefix_append _ _, fun hb => by simp [h] at hb⟩

end Block

namespace Locals

structure Renames (R : Register → Register → Prop) (l l' : Locals) : Prop where
  slot : List.Forall₂ R l.returnSlot.toList l'.returnSlot.toList
  symbols : List.Forall₂ (fun e e' => e'.1 = e.1 ∧ e'.2.type = e.2.type ∧
    List.Forall₂ R e.2.register.toList e'.2.register.toList) l.symbols.entries l'.symbols.entries
  stack : List.Forall₂ R l.stack l'.stack

theorem Renames.of_nil {l : Locals} (h : l.liveRegisters = [])
    (R : Register → Register → Prop) : l.Renames R l := by
  simp only [liveRegisters, List.append_eq_nil_iff] at h
  obtain ⟨⟨hslot, hsymbols⟩, hstack⟩ := h
  refine ⟨by rw [hslot]; exact .nil, List.forall₂_same.2 fun e he => ⟨rfl, rfl, ?_⟩,
    by rw [hstack]; exact .nil⟩
  have hnone : e.2.register = none :=
    List.filterMap_eq_nil_iff.1 hsymbols e.2 (List.mem_map_of_mem he)
  rw [hnone]
  exact .nil

end Locals

theorem forall₂_append {α β : Type} {R : α → β → Prop} {as as' : List α} {bs bs' : List β}
    (hlen : as.length = bs.length) :
    List.Forall₂ R (as ++ as') (bs ++ bs') ↔ List.Forall₂ R as bs ∧ List.Forall₂ R as' bs' := by
  constructor
  · intro h
    obtain ⟨cs, cs', hcs, h₁, h₂⟩ := forall₂_append_right h
    obtain ⟨rfl, rfl⟩ := List.append_inj hcs (hlen.trans h₁.length_eq.symm)
    exact ⟨h₁, h₂⟩
  · rintro ⟨h₁, h₂⟩
    exact List.rel_append h₁ h₂

theorem forall₂_zip_keys {κ α β : Type} {P : α → β → Prop} {es : List (κ × α)} {vs : List β}
    (h : List.Forall₂ P (es.map Prod.snd) vs) :
    List.Forall₂ (fun e e' => e'.1 = e.1 ∧ P e.2 e'.2) es ((es.map Prod.fst).zip vs) := by
  induction es generalizing vs with
  | nil => exact .nil
  | cons e es ih =>
    obtain ⟨v, vs, hv, hvs, rfl⟩ := List.forall₂_cons_left_iff.1 h
    exact .cons ⟨rfl, hv⟩ (ih hvs)

namespace Lowering

open Builder

section Loaded

variable {α β : Type} {c : BlockId} {xs : List Register}

def Takes (x : StateT (List Register) (Except Fault) α) (xs : List Register) (a : α) : Prop :=
  ∀ rest, x.run (xs ++ rest) = .ok (a, rest)

theorem Takes.pure (a : α) : Takes (pure a) [] a := fun _ => rfl

theorem Takes.bind {x : StateT (List Register) (Except Fault) α}
    {f : α → StateT (List Register) (Except Fault) β} {ys : List Register} {a : α} {b : β}
    (hx : Takes x xs a) (hf : Takes (f a) ys b) : Takes (x >>= f) (xs ++ ys) b := by
  intro rest
  rw [StateT.run_bind, List.append_assoc, hx]
  exact hf rest

theorem Takes.map {x : StateT (List Register) (Except Fault) α} {a : α} (hx : Takes x xs a)
    (f : α → β) : Takes (do return f (← x)) xs (f a) := by
  simpa using hx.bind (f := fun a => Pure.pure (f a)) (Takes.pure (f a))

theorem takes_nextLoaded (r x : Register) : Takes (nextLoaded c r) [x] x := fun _ => rfl

theorem takes_option (o : Option Register) (hlen : xs.length = o.toList.length) :
    ∃ o' : Option Register, o'.toList = xs ∧ Takes (o.mapM (nextLoaded c)) xs o' := by
  cases o with
  | none =>
    obtain rfl := List.length_eq_zero_iff.1 hlen
    exact ⟨none, rfl, fun _ => rfl⟩
  | some r =>
    obtain ⟨x, rfl⟩ := List.length_eq_one_iff.1 hlen
    exact ⟨some x, rfl, fun _ => rfl⟩

theorem takes_list (rs : List Register) (hlen : xs.length = rs.length) :
    Takes (rs.mapM (nextLoaded c)) xs xs := by
  induction rs generalizing xs with
  | nil =>
    obtain rfl := List.length_eq_zero_iff.1 hlen
    exact .pure _
  | cons r rs ih =>
    obtain ⟨x, xs, rfl⟩ := List.exists_cons_of_length_eq_add_one hlen
    rw [List.mapM_cons]
    exact (takes_nextLoaded r x).bind ((ih (by simpa using hlen)).map _)

theorem takes_symbols (vs : List Symbol) (hlen : xs.length = (vs.filterMap (·.register)).length) :
    ∃ vs', Takes (vs.mapM fun v => return { v with register := ← v.register.mapM (nextLoaded c) })
        xs vs' ∧ vs'.length = vs.length ∧ vs'.filterMap (·.register) = xs ∧
      ∀ R : Register → Register → Prop, List.Forall₂ R (vs.filterMap (·.register)) xs →
        List.Forall₂ (fun v v' => v'.type = v.type ∧
          List.Forall₂ R v.register.toList v'.register.toList) vs vs' := by
  induction vs generalizing xs with
  | nil =>
    obtain rfl := List.length_eq_zero_iff.1 hlen
    exact ⟨[], .pure _, rfl, rfl, fun _ _ => .nil⟩
  | cons v vs ih =>
    have hsplit (v : Symbol) (vs : List Symbol) : (v :: vs).filterMap (·.register) =
        v.register.toList ++ vs.filterMap (·.register) := by
      cases hv : v.register <;> simp [hv]
    rw [hsplit, List.length_append] at hlen
    obtain ⟨ys, zs, rfl, hys⟩ : ∃ ys zs, xs = ys ++ zs ∧ ys.length = v.register.toList.length :=
      ⟨_, _, (List.take_append_drop v.register.toList.length xs).symm, by
        rw [List.length_take]; omega⟩
    rw [List.length_append] at hlen
    obtain ⟨o', rfl, ho⟩ := takes_option (c := c) v.register hys
    obtain ⟨vs', hvs, hlen', hlive, hR⟩ := @ih zs (by omega)
    refine ⟨{ v with register := o' } :: vs', ?_, by simp [hlen'], by rw [hsplit, hlive],
      fun R h => ?_⟩
    · rw [List.mapM_cons]
      exact (ho.map _).bind (hvs.map _)
    · rw [hsplit, forall₂_append hys.symm] at h
      exact .cons ⟨rfl, h.1⟩ (hR R h.2)

theorem takes_locals (l : Locals) (xs : List Register) (hlen : xs.length = l.liveRegisters.length) :
    ∃ l', Takes (l.mapM (nextLoaded c)) xs l' ∧ l'.liveRegisters = xs ∧
      ∀ R : Register → Register → Prop, List.Forall₂ R l.liveRegisters xs → l.Renames R l' := by
  simp only [Locals.liveRegisters, List.append_assoc, List.length_append] at hlen
  obtain ⟨ys, zs, rfl, hys⟩ : ∃ ys zs, xs = ys ++ zs ∧ ys.length = l.returnSlot.toList.length :=
    ⟨_, _, (List.take_append_drop l.returnSlot.toList.length xs).symm, by
      rw [List.length_take]; omega⟩
  rw [List.length_append] at hlen
  obtain ⟨zs, ws, rfl, hzs⟩ : ∃ zs' ws, zs = zs' ++ ws ∧
      zs'.length = (l.symbols.values.filterMap (·.register)).length :=
    ⟨_, _, (List.take_append_drop (l.symbols.values.filterMap (·.register)).length zs).symm, by
      rw [List.length_take]; omega⟩
  rw [List.length_append] at hlen
  obtain ⟨slot, rfl, hslot⟩ := takes_option (c := c) l.returnSlot hys
  obtain ⟨vs, hvs, hlen', hlive, hR⟩ := takes_symbols (c := c) l.symbols.values hzs
  have hstack : Takes (l.stack.mapM (nextLoaded c)) ws ws := takes_list l.stack (by omega)
  refine ⟨⟨slot, l.symbols.withValues vs, ws⟩, ?_, ?_, fun R h => ?_⟩
  · exact hslot.bind ((hvs.map _).bind (hstack.map _))
  · have hvalues : (l.symbols.withValues vs).values = vs :=
      List.map_snd_zip (by simpa [OrderedMap.keys, OrderedMap.values] using Nat.le_of_eq hlen')
    rw [Locals.liveRegisters, hvalues, hlive, List.append_assoc]
  · rw [Locals.liveRegisters, List.append_assoc, forall₂_append hys.symm,
      forall₂_append hzs.symm] at h
    exact ⟨h.1, forall₂_zip_keys (hR R h.2.1), h.2.2⟩

end Loaded

def storing (object : Register) : Nat → List Register → List Instruction
  | _, [] => []
  | n, r :: rs => ⟨.setField object n r, .prim .void⟩ :: storing object (n + 1) rs

def loading (object : Register) : Nat → List ValueType → List Instruction
  | _, [] => []
  | n, t :: ts => ⟨.getField object n, t⟩ :: loading object (n + 1) ts

theorem storing_length (object : Register) (n : Nat) (rs : List Register) :
    (storing object n rs).length = rs.length := by
  induction rs generalizing n with
  | nil => rfl
  | cons r rs ih => simp [storing, ih]

theorem loading_length (object : Register) (n : Nat) (ts : List ValueType) :
    (loading object n ts).length = ts.length := by
  induction ts generalizing n with
  | nil => rfl
  | cons t ts ih => simp [loading, ih]

def registersFrom (k n : Nat) : List Register := (List.range' k n).map Register.mk

theorem mem_registersFrom {k n : Nat} {r : Register} :
    r ∈ registersFrom k n ↔ ∃ j < n, r = ⟨k + j⟩ := by
  simp only [registersFrom, List.mem_map, List.mem_range'_1]
  constructor
  · rintro ⟨m, ⟨hle, hlt⟩, rfl⟩
    exact ⟨m - k, by omega, congrArg Register.mk (by omega)⟩
  · rintro ⟨j, hj, rfl⟩
    exact ⟨k + j, by omega, rfl⟩

theorem loading_getElem? (object : Register) (n : Nat) (ts : List ValueType) (k : Nat) :
    (loading object n ts)[k]? = ts[k]?.map fun t => ⟨.getField object (n + k), t⟩ := by
  induction ts generalizing n k with
  | nil => simp [loading]
  | cons t ts ih =>
    cases k with
    | zero => simp [loading]
    | succ k => simp [loading, ih, Nat.add_assoc, Nat.add_comm 1 k]

section Runs

variable {s : Builder} {b c : BlockId} {B C : Block} {is : List Instruction} {object : Register}

theorem updateBlock_pushAll (hB : s.graph.block? b = some B) (is : List Instruction) :
    (s.updateBlock b (·.pushAll is)).graph.block? b = some (B.pushAll is) := updateBlock_self hB _

theorem updateBlock_pushAll_push (s : Builder) (b : BlockId) (is : List Instruction)
    (i : Instruction) : (s.updateBlock b (·.pushAll is)).updateBlock b (·.push i) =
      s.updateBlock b (·.pushAll (is ++ [i])) := by
  rw [updateBlock_updateBlock]
  congr 1
  funext B
  exact B.pushAll_push i is

theorem updateBlock_pushAll_nil (s : Builder) (b : BlockId) :
    s.updateBlock b (·.pushAll []) = s := by
  have hid : (fun B : Block => B.pushAll []) = id := funext fun B => B.pushAll_nil
  rw [hid]
  simp [updateBlock, Graph.modifyBlock]

theorem runs_emit_pushAll (hB : s.graph.block? b = some B) (hopen : B.isTerminated = false)
    (is : List Instruction) (op : Operation) (t : ValueType)
    (hops : ∀ o ∈ op.operands, o.index < B.registerCount + is.length) :
    Runs (emit b op t) (s.updateBlock b (·.pushAll is)) ⟨B.registerCount + is.length⟩
      (s.updateBlock b (·.pushAll (is ++ [⟨op, t⟩]))) := by
  refine runs_emit.2 ⟨_, updateBlock_pushAll hB is, hopen, fun o ho => ?_, by simp,
    (updateBlock_pushAll_push s b is _).symm⟩
  rw [Block.contains_iff, Block.pushAll_registerCount]
  exact hops o ho

theorem runs_storeFields (hB : s.graph.block? b = some B) (hopen : B.isTerminated = false)
    (ho : object.index < B.registerCount + is.length) {rs : List Register}
    (hrs : ∀ r ∈ rs, r.index < B.registerCount + is.length) (n : Nat) :
    Runs (storeFields b object n rs) (s.updateBlock b (·.pushAll is)) ()
      (s.updateBlock b (·.pushAll (is ++ storing object n rs))) := by
  induction rs generalizing is n with
  | nil => simp [storeFields, storing]
  | cons r rs ih =>
    have hr : ∀ o ∈ (Operation.setField object n r).operands, o.index < B.registerCount + is.length := by
      simpa [Operation.operands] using ⟨ho, hrs r (by simp)⟩
    have hrest := @ih (is ++ [⟨.setField object n r, .prim .void⟩])
      (by rw [List.length_append]; omega)
      (fun r' hr' => by have := hrs r' (by simp [hr']); rw [List.length_append]; omega) (n + 1)
    rw [List.append_assoc] at hrest
    exact Runs.bind_iff.2 ⟨_, _, runs_emit_pushAll hB hopen is _ _ hr, hrest⟩

theorem runs_loadFields (hB : s.graph.block? b = some B) (hopen : B.isTerminated = false)
    (ho : object.index < B.registerCount + is.length) (n : Nat) (ts : List ValueType) :
    Runs (loadFields b object n ts) (s.updateBlock b (·.pushAll is))
      (registersFrom (B.registerCount + is.length) ts.length)
      (s.updateBlock b (·.pushAll (is ++ loading object n ts))) := by
  induction ts generalizing is n with
  | nil => simp [loadFields, loading, registersFrom]
  | cons t ts ih =>
    have hr : ∀ o ∈ (Operation.getField object n).operands, o.index < B.registerCount + is.length := by
      simpa [Operation.operands] using ho
    have hrest := @ih (is ++ [⟨.getField object n, t⟩])
      (by rw [List.length_append]; omega) (n + 1)
    rw [List.append_assoc] at hrest
    simp only [loadFields, Runs.bind_iff, Runs.pure_iff]
    exact ⟨_, _, runs_emit_pushAll hB hopen is _ _ hr, _, _, hrest, by
      simp [registersFrom, List.range'_succ, Nat.add_assoc], rfl⟩

theorem runs_storeContinuation (hB : s.graph.block? b = some B) (hopen : B.isTerminated = false)
    (hC : s.graph.block? c = some C) (hne : c ≠ b) (is : List Instruction)
    (ho : object.index < B.registerCount + is.length) :
    Runs (storeContinuation b object c) (s.updateBlock b (·.pushAll is)) ()
      (s.updateBlock b (·.pushAll (is ++ [⟨.blockRef c, .blockRef C.parameterTypes⟩,
        ⟨.setField object 0 ⟨B.registerCount + is.length⟩, .prim .void⟩]))) := by
  have hC' : (s.updateBlock b (·.pushAll is)).graph.block? c = some C := by
    rw [updateBlock_block?, if_neg hne]
    exact hC
  have href : Runs (emitRef b c) (s.updateBlock b (·.pushAll is)) ⟨B.registerCount + is.length⟩ _ :=
    runs_emitRef.2 ⟨C, _, hC', updateBlock_pushAll hB is, hopen, by simp,
      (updateBlock_pushAll_push s b is _).symm⟩
  have hstore := runs_emit_pushAll hB hopen (is ++ [⟨.blockRef c, .blockRef C.parameterTypes⟩])
    (.setField object 0 ⟨B.registerCount + is.length⟩) (.prim .void) (by
      simp only [Operation.operands, List.mem_cons, List.not_mem_nil, or_false, forall_eq_or_imp,
        forall_eq, List.length_append, List.length_singleton]
      omega)
  simp only [storeContinuation, Runs.bind_iff, Runs.pure_iff]
  refine ⟨_, _, href, _, _, hstore, trivial, ?_⟩
  rw [List.append_assoc]
  rfl

def capturing (n : Nat) (c : BlockId) (ps : List ValueType) (layout : LayoutId)
    (captured : List Register) : List Instruction :=
  [⟨.new layout, .object layout⟩, ⟨.blockRef c, .blockRef ps⟩,
    ⟨.setField ⟨n⟩ 0 ⟨n + 1⟩, .prim .void⟩] ++ storing ⟨n⟩ 1 captured

theorem capturing_length (n : Nat) (c : BlockId) (ps : List ValueType) (layout : LayoutId)
    (captured : List Register) :
    (capturing n c ps layout captured).length = 3 + captured.length := by
  simp only [capturing, List.length_append, List.length_cons, List.length_nil, storing_length]

def resuming (n : Nat) (layout : LayoutId) (types : List ValueType) : List Instruction :=
  ⟨.cast .downcast ⟨0⟩, .object layout⟩ :: loading ⟨n⟩ 1 types

variable {l : LayoutId}

theorem runs_packContext_nil (hB : s.graph.block? b = some B) (hopen : B.isTerminated = false)
    (hC : s.graph.block? c = some C) (hne : c ≠ b) (hlive : B.locals.liveRegisters = []) :
    Runs (packContext b c l) s ⟨B.registerCount⟩
      ((s.updateBlock b (·.pushAll (capturing B.registerCount c C.parameterTypes l []))).updateBlock
        c (·.withLocals B.locals)) := by
  have hnew := runs_emit_pushAll hB hopen [] (.new l) (.object l)
    (by simp [Operation.operands])
  rw [updateBlock_pushAll_nil] at hnew
  have hstore : Runs (storeContinuation b ⟨B.registerCount⟩ c) _ _ _ :=
    runs_storeContinuation hB hopen hC hne [⟨.new l, .object l⟩] (by simp)
  simp only [packContext, Runs.bind_iff, runs_locals]
  refine ⟨_, _, ⟨B, hB, rfl, rfl⟩, ?_⟩
  rw [hlive]
  simp only [Runs.bind_iff, runs_setLocals, Runs.pure_iff]
  refine ⟨_, _, hnew, (), _, hstore, (), _, ⟨⟨C, ?_⟩, rfl⟩, rfl, rfl⟩
  rw [updateBlock_block?, if_neg hne]
  exact hC

theorem runs_packContext (hB : s.graph.block? b = some B) (hopen : B.isTerminated = false)
    (hC : s.graph.block? c = some C) (hopen' : C.isTerminated = false) (hC0 : 0 < C.registerCount)
    (hne : c ≠ b) (hlive : B.locals.liveRegisters ≠ []) {types : List ValueType}
    (htypes : B.HasTypes B.locals.liveRegisters types) :
    ∃ l', Runs (packContext b c l) s ⟨B.registerCount + 3 + types.length⟩
      ((((s.appendLayout ⟨.blockRef C.parameterTypes :: types, .ofContext⟩).updateBlock b
        (·.pushAll (capturing B.registerCount c C.parameterTypes s.layoutId B.locals.liveRegisters ++
          [⟨.cast .upcast ⟨B.registerCount⟩, .object l⟩]))).updateBlock c
        (·.pushAll (resuming C.registerCount s.layoutId types))).updateBlock c (·.withLocals l')) ∧
      l'.liveRegisters = registersFrom (C.registerCount + 1) types.length ∧
      ∀ R : Register → Register → Prop, List.Forall₂ R B.locals.liveRegisters
        (registersFrom (C.registerCount + 1) types.length) → B.locals.Renames R l' := by
  have hlen : types.length = B.locals.liveRegisters.length := htypes.length_eq.symm
  obtain ⟨l', hl', hlive', hrenames⟩ := takes_locals (c := c) B.locals
    (registersFrom (C.registerCount + 1) types.length) (by simp [registersFrom, hlen])
  refine ⟨l', ?_, hlive', hrenames⟩
  let t := s.appendLayout ⟨.blockRef C.parameterTypes :: types, .ofContext⟩
  have hB' : t.graph.block? b = some B := hB
  have hC' : t.graph.block? c = some C := hC
  have hnew := runs_emit_pushAll hB' hopen [] (.new s.layoutId) (.object s.layoutId)
    (by simp [Operation.operands])
  rw [updateBlock_pushAll_nil] at hnew
  have hstore : Runs (storeContinuation b ⟨B.registerCount⟩ c) _ _ _ :=
    runs_storeContinuation hB' hopen hC' hne [⟨.new s.layoutId, .object s.layoutId⟩] (by simp)
  have hfields : Runs (storeFields b ⟨B.registerCount⟩ 1 B.locals.liveRegisters)
      (t.updateBlock b (·.pushAll _)) () (t.updateBlock b (·.pushAll
        (capturing B.registerCount c C.parameterTypes s.layoutId B.locals.liveRegisters))) :=
    runs_storeFields hB' hopen (by simp) (fun r hr => by
      have := Block.contains_iff.1 (htypes.contains r hr)
      omega) 1
  have hup := runs_emit_pushAll hB' hopen
    (capturing B.registerCount c C.parameterTypes s.layoutId B.locals.liveRegisters)
    (.cast .upcast ⟨B.registerCount⟩) (.object l) (by simp [Operation.operands, capturing])
  have hC'' : (t.updateBlock b (·.pushAll (capturing B.registerCount c C.parameterTypes s.layoutId
      B.locals.liveRegisters ++ [⟨.cast .upcast ⟨B.registerCount⟩, .object l⟩]))).graph.block? c =
      some C := by
    rw [updateBlock_block?, if_neg hne]
    exact hC'
  have hdown := runs_emit_pushAll hC'' hopen' [] (.cast .downcast ⟨0⟩) (.object s.layoutId)
    (by simpa [Operation.operands] using hC0)
  rw [updateBlock_pushAll_nil] at hdown
  have hload : Runs (loadFields c ⟨C.registerCount⟩ 1 types) (Builder.updateBlock _ c (·.pushAll
      [⟨.cast .downcast ⟨0⟩, .object s.layoutId⟩])) _ _ :=
    runs_loadFields hC'' hopen' (by simp) 1 types
  have hregister : B.registerCount + (capturing B.registerCount c C.parameterTypes s.layoutId
      B.locals.liveRegisters).length = B.registerCount + 3 + types.length := by
    rw [capturing_length, hlen, Nat.add_assoc]
  rw [hregister] at hup
  simp only [packContext, Runs.bind_iff, runs_locals]
  refine ⟨_, _, ⟨B, hB, rfl, rfl⟩, ?_⟩
  split
  case h_1 hnil => exact absurd hnil hlive
  case h_2 =>
    simp only [Runs.bind_iff, runs_block, runs_contextLayout, runs_tell, Runs.lift_except_iff,
      runs_setLocals, Runs.pure_iff]
    refine ⟨C, s, ⟨hC, rfl⟩, types, s, (runs_typesOf hB).2 ⟨htypes, rfl⟩, _, t, ⟨rfl, rfl⟩, (), t, rfl,
      _, _, hnew, (), _, hstore, (), _, hfields, _, _, hup, _, _, hdown, _, _, hload, (l', []), _,
      ⟨?_, rfl⟩, (), _, ⟨⟨_, updateBlock_self hC'' _⟩, rfl⟩, rfl, rfl⟩
    simpa using hl' []

end Runs

end Lowering

end BlockGraph
