import BlockGraph.Proofs.Execution
import BlockGraph.Proofs.Lowering.Captures
import BlockGraph.Proofs.Lowering.Types

namespace BlockGraph

namespace Lowering

open Builder

structure Call where
  caller : Block
  callee : Register
  arguments : List Register
  returns : LayoutId
  result : ValueType

/-- How the live values of a caller get across a call. -/
structure Packing where
  layouts : List Layout
  code : List Instruction
  context : Register
  unpacking : List Instruction
  locals : Locals

namespace Call

variable (k : Call)

def parameterTypes : List ValueType := continuation k.returns k.result

def plain (resume : BlockId) : Packing where
  layouts := []
  code := capturing k.caller.registerCount resume k.parameterTypes k.returns []
  context := ⟨k.caller.registerCount⟩
  unpacking := []
  locals := k.caller.locals

def captured (resume : BlockId) (layout : LayoutId) (types : List ValueType) (locals : Locals) :
    Packing where
  layouts := [⟨.blockRef k.parameterTypes :: types, .ofContext⟩]
  code := capturing k.caller.registerCount resume k.parameterTypes layout
    k.caller.locals.liveRegisters ++ [⟨.cast .upcast ⟨k.caller.registerCount⟩, .object k.returns⟩]
  context := ⟨k.caller.registerCount + 3 + types.length⟩
  unpacking := resuming k.parameterTypes.length layout types
  locals

inductive Packs (layout : LayoutId) (resume : BlockId) : Packing → Prop
  | plain (hlive : k.caller.locals.liveRegisters = []) : Packs layout resume (k.plain resume)
  | captured {types : List ValueType} {locals : Locals} (hlive : k.caller.locals.liveRegisters ≠ [])
      (htypes : k.caller.HasTypes k.caller.locals.liveRegisters types)
      (hnew : locals.liveRegisters = registersFrom (k.parameterTypes.length + 1) types.length)
      (hrenames : ∀ R : Register → Register → Prop,
        List.Forall₂ R k.caller.locals.liveRegisters locals.liveRegisters →
          k.caller.locals.Renames R locals) :
      Packs layout resume (k.captured resume layout types locals)

def bare (resume : BlockId) : Block := { id := resume, parameters := k.parameterTypes.map (⟨·, none⟩) }

def yielding (p : Packing) : List Instruction :=
  if k.result.isVoid || p.unpacking.isEmpty then [] else [⟨.copy ⟨1⟩, k.result⟩]

def resumed (resume : BlockId) (p : Packing) : Block :=
  ((k.bare resume).pushAll (p.unpacking ++ k.yielding p)).withLocals p.locals

def suspended (p : Packing) : Block :=
  (k.caller.pushAll p.code).close (.goto ⟨k.callee, p.context :: k.arguments⟩)

structure Suspends (b : BlockId) (p : Packing) (s s' : Builder) : Prop where
  open_ : k.caller.isTerminated = false
  passes : (k.caller.pushAll p.code).Passes ⟨k.callee, p.context :: k.arguments⟩
  caller : s'.graph.block? b = some (k.suspended p)
  resumed : s'.graph.block? s.graph.nextId = some (k.resumed s.graph.nextId p)
  others : ∀ c, c ≠ b → c ≠ s.graph.nextId → s'.graph.block? c = s.graph.block? c
  layouts : s'.graph.layouts = s.graph.layouts ++ p.layouts
  returnLayouts : s'.returnLayouts = s.returnLayouts

end Call

section Inversion

variable {s s' : Builder} {b c : BlockId} {B C : Block} {r : Register} {l : LayoutId}

theorem packContext_inv (hB : s.graph.block? b = some B) (h : Runs (packContext b c l) s r s') :
    B.isTerminated = false ∧ ∃ types, B.HasTypes B.locals.liveRegisters types := by
  simp only [packContext, Runs.bind_iff, runs_locals] at h
  obtain ⟨_, _, ⟨B', hB', rfl, rfl⟩, h⟩ := h
  obtain rfl := Option.some.inj (hB.symm.trans hB')
  split at h
  case h_1 hlive =>
    simp only [Runs.bind_iff, runs_emit] at h
    obtain ⟨_, _, ⟨B', hB', hopen, -⟩, -⟩ := h
    obtain rfl := Option.some.inj (hB.symm.trans hB')
    exact ⟨hopen, [], by rw [hlive]; exact .nil⟩
  case h_2 =>
    simp only [Runs.bind_iff, runs_block, runs_contextLayout, runs_tell, runs_emit] at h
    obtain ⟨C, _, ⟨-, rfl⟩, types, _, htypes, _, _, ⟨rfl, rfl⟩, -, _, rfl, _, _, ⟨B', hB'', hopen, -⟩,
      -⟩ := h
    obtain ⟨htyped, rfl⟩ := (runs_typesOf hB).1 htypes
    obtain rfl := Option.some.inj (hB.symm.trans hB'')
    exact ⟨hopen, types, htyped⟩

variable {k : Call} {p : Packing}

structure Call.Prepares (k : Call) (b c : BlockId) (p : Packing) (s s' : Builder) : Prop where
  caller : s'.graph.block? b = some (k.caller.pushAll p.code)
  resumed : s'.graph.block? c = some (((k.bare c).pushAll p.unpacking).withLocals p.locals)
  others : ∀ d, d ≠ b → d ≠ c → s'.graph.block? d = s.graph.block? d
  layouts : s'.graph.layouts = s.graph.layouts ++ p.layouts
  returnLayouts : s'.returnLayouts = s.returnLayouts

theorem bare_parameterTypes (k : Call) (c : BlockId) :
    (k.bare c).parameterTypes = k.parameterTypes := by
  simp [Call.bare, Block.parameterTypes, Function.comp_def]

theorem bare_registerCount (k : Call) (c : BlockId) :
    (k.bare c).registerCount = k.parameterTypes.length := by
  simp [Call.bare, Block.registerCount]

theorem prepares_of_packContext (hB : s.graph.block? b = some k.caller)
    (hC : s.graph.block? c = some (k.bare c)) (hne : c ≠ b)
    (h : Runs (packContext b c k.returns) s r s') :
    k.caller.isTerminated = false ∧
      ∃ p, k.Packs s.layoutId c p ∧ r = p.context ∧ k.Prepares b c p s s' := by
  have hpos : 0 < (k.bare c).registerCount := by
    rw [bare_registerCount, Call.parameterTypes, continuation]
    simp
  obtain ⟨hopen, types, htypes⟩ := packContext_inv hB h
  refine ⟨hopen, ?_⟩
  by_cases hlive : k.caller.locals.liveRegisters = []
  · obtain ⟨rfl, rfl⟩ := h.unique (runs_packContext_nil hB hopen hC hne hlive)
    refine ⟨k.plain c, .plain hlive, rfl, ?_, ?_, fun d hb hc => ?_, by simp [Call.plain], rfl⟩
    · rw [updateBlock_other _ hne.symm, updateBlock_self hB, bare_parameterTypes]
      rfl
    · rw [updateBlock_self ((updateBlock_other _ hne _).trans hC)]
      simp [Call.plain]
    · rw [updateBlock_other _ hc, updateBlock_other _ hb]
  · obtain ⟨l', hrun, hnew, hrenames⟩ :=
      runs_packContext (l := k.returns) hB hopen hC rfl hpos hne hlive htypes
    obtain ⟨rfl, rfl⟩ := h.unique hrun
    rw [bare_registerCount] at hnew
    rw [bare_parameterTypes, bare_registerCount]
    let t := s.appendLayout ⟨.blockRef k.parameterTypes :: types, .ofContext⟩
    have hB' : t.graph.block? b = some k.caller := hB
    have hC' : t.graph.block? c = some (k.bare c) := hC
    refine ⟨k.captured c s.layoutId types l', .captured hlive htypes hnew ?_, rfl, ?_, ?_,
      fun d hb hc => ?_, rfl, rfl⟩
    · intro R hR
      rw [hnew, ← bare_registerCount k c] at hR
      exact hrenames R hR
    · rw [updateBlock_other _ hne.symm, updateBlock_other _ hne.symm, updateBlock_self hB']
      rfl
    · rw [updateBlock_updateBlock, updateBlock_self ((updateBlock_other _ hne _).trans hC')]
      rfl
    · rw [updateBlock_other _ hc, updateBlock_other _ hc, updateBlock_other _ hb]
      rfl

theorem typeOf?_result {is : List Instruction} {l : Locals} {t : ValueType}
    (hresult : k.result.isVoid = false)
    (h : (((k.bare c).pushAll is).withLocals l).typeOf? ⟨1⟩ = some t) : t = k.result := by
  simpa [Block.typeOf?, Block.withLocals, Block.pushAll, Call.bare, Call.parameterTypes,
    continuation, hresult, eq_comm] using h

theorem yielding_eq
    (hr : (((k.bare c).pushAll p.unpacking).withLocals p.locals).lastRegister? = some r) :
    k.yielding p =
      if !k.result.isVoid && decide (r ≠ ⟨1⟩) then [⟨.copy ⟨1⟩, k.result⟩] else [] := by
  have hcount : (((k.bare c).pushAll p.unpacking).withLocals p.locals).registerCount =
      k.parameterTypes.length + p.unpacking.length := by
    rw [← bare_registerCount k c, ← Block.pushAll_registerCount]
    rfl
  rw [Block.lastRegister?, hcount, Call.parameterTypes, continuation] at hr
  cases hresult : k.result.isVoid with
  | true => simp [Call.yielding, hresult]
  | false =>
    obtain rfl : (⟨1 + p.unpacking.length⟩ : Register) = r := by
      simpa [hresult, Nat.add_comm] using hr
    cases hp : p.unpacking with
    | nil => simp [Call.yielding, hp]
    | cons i is => simp [Call.yielding, hresult, hp]

theorem suspends_of_prepares {t u : Builder} (hopen : k.caller.isTerminated = false)
    (hne : t.graph.nextId ≠ b)
    (hprep : k.Prepares b t.graph.nextId p (t.appendBlock (k.bare t.graph.nextId)) s)
    (hgoto : Runs (goto b ⟨k.callee, p.context :: k.arguments⟩) s () u)
    (hlast : Runs (lastRegister t.graph.nextId) u r u)
    (hcopy : (!k.result.isVoid && decide (r ≠ ⟨1⟩)) = true ∧
        (∃ r', Runs (copy t.graph.nextId ⟨1⟩) u r' s') ∨
      (!k.result.isVoid && decide (r ≠ ⟨1⟩)) = false ∧ s' = u) : k.Suspends b p t s' := by
  obtain ⟨B, hB, -, hpasses, rfl⟩ := runs_goto.1 hgoto
  obtain rfl := Option.some.inj (hprep.caller.symm.trans hB)
  have hR : (s.updateBlock b (·.close (.goto ⟨k.callee, p.context :: k.arguments⟩))).graph.block?
      t.graph.nextId = _ := (updateBlock_other _ hne _).trans hprep.resumed
  obtain ⟨R, hR', hr, -⟩ := runs_lastRegister.1 hlast
  obtain rfl := Option.some.inj (hR.symm.trans hR')
  have hothers : ∀ d, d ≠ b → d ≠ t.graph.nextId → s.graph.block? d = t.graph.block? d :=
    fun d hb hc => (hprep.others d hb hc).trans (by rw [appendBlock_block?, if_neg hc])
  have hyield := yielding_eq hr
  rcases hcopy with ⟨hc, _, hcopy⟩ | ⟨hc, rfl⟩
  · rw [if_pos hc] at hyield
    obtain ⟨R, type, hR', -, htype, -, rfl⟩ := runs_copy.1 hcopy
    obtain rfl := Option.some.inj (hR.symm.trans hR')
    obtain rfl := typeOf?_result (by simpa using (Bool.and_eq_true_iff.1 hc).1) htype
    refine ⟨hopen, hpasses, ?_, ?_, fun d hb hc => ?_, hprep.layouts, hprep.returnLayouts⟩
    · rw [updateBlock_other _ hne.symm, updateBlock_self hB]
      rfl
    · rw [updateBlock_self hR, Call.resumed, hyield, ← Block.pushAll_append]
      rfl
    · rw [updateBlock_other _ hc, updateBlock_other _ hb, hothers d hb hc]
  · rw [if_neg (by simpa using hc)] at hyield
    refine ⟨hopen, hpasses, updateBlock_self hB _, ?_, fun d hb hc => ?_, hprep.layouts,
      hprep.returnLayouts⟩
    · rw [hR, Call.resumed, hyield, List.append_nil]
    · rw [updateBlock_other _ hb, hothers d hb hc]

theorem runs_popCallee {args : List Register} {callee : Register} {n : Nat} {t : Builder}
    (hargs : Runs (popMany b n) s args t) (hcallee : Runs (pop b) t callee s') :
    ∃ B rest, s.graph.block? b = some B ∧ B.locals.stack = rest ++ callee :: args ∧
      args.length = n ∧ s' = s.updateBlock b (·.withLocals { B.locals with stack := rest }) := by
  obtain ⟨C, rest, hC, hstack, rfl⟩ := runs_pop.1 hcallee
  rcases runs_popMany.1 hargs with ⟨rfl, rfl, rfl⟩ | ⟨-, B, rest', hB, hstack', hlen, rfl⟩
  · exact ⟨C, rest, hC, hstack, rfl, rfl⟩
  · obtain rfl := Option.some.inj ((updateBlock_self hB _).symm.trans hC)
    obtain rfl : rest' = rest ++ [callee] := hstack
    refine ⟨B, rest, hB, by rw [hstack', List.append_assoc]; rfl, hlen, ?_⟩
    rw [updateBlock_updateBlock]
    rfl

end Inversion

structure Call.Begins (k : Call) (b : BlockId) (count : Nat) (result : SourceType) (s t : State) :
    Prop where
  block : ∃ B rest, s.graph.block? b = some B ∧ B.locals.stack = rest ++ k.callee :: k.arguments ∧
    k.caller = B.withLocals { B.locals with stack := rest }
  count : k.arguments.length = count
  callee : ∃ ts, k.caller.typeOf? k.callee = some (.blockRef (.object k.returns :: ts))
  result : Runs (lowerType result)
    { s with toBuilder := s.toBuilder.updateBlock b (·.withLocals k.caller.locals) } k.result t

theorem returnsThrough_eq_ok {t : ValueType} {l : LayoutId} (h : returnsThrough t = .ok l) :
    ∃ ts, t = .blockRef (.object l :: ts) := by
  unfold returnsThrough at h
  split at h
  · obtain rfl := Except.ok.inj h
    exact ⟨_, rfl⟩
  · simp at h

theorem runs_lowerCall {s s' : State} {b c : BlockId} {count : Nat} {result : SourceType}
    (h : Runs (lowerCall b count result) s c s') :
    ∃ k p t, Call.Begins k b count result s t ∧ c = t.graph.nextId ∧ k.Packs t.layoutId c p ∧
      k.Suspends b p t.toBuilder s'.toBuilder ∧ s' = { t with toBuilder := s'.toBuilder } := by
  simp only [lowerCall, Runs.bind_iff, Runs.lift_build_iff, Runs.lift_except_lower_iff,
    Runs.ite_iff, Runs.pure_iff] at h
  obtain ⟨args, _, ⟨t₁, hargs, rfl⟩, callee, _, ⟨t₂, hcallee, rfl⟩, type, _, ⟨t₃, htype, rfl⟩,
    returns, _, ⟨hreturns, rfl⟩, value, t, hvalue, new, _, ⟨t₄, hadd, rfl⟩, context, _,
    ⟨t₅, hpack, rfl⟩, _, _, ⟨t₆, hgoto, rfl⟩, last, _, ⟨t₇, hlast, rfl⟩, h⟩ := h
  dsimp only at hcallee htype hvalue hadd hpack hgoto hlast h
  obtain ⟨B, rest, hB, hstack, hlen, rfl⟩ := runs_popCallee hargs hcallee
  have hB' := updateBlock_self hB (·.withLocals { B.locals with stack := rest })
  obtain ⟨C, hC, htype, rfl⟩ := runs_typeOf.1 htype
  obtain rfl := Option.some.inj (hB'.symm.trans hC)
  obtain ⟨ts, rfl⟩ := returnsThrough_eq_ok hreturns
  let k : Call := ⟨B.withLocals { B.locals with stack := rest }, callee, args, returns, value⟩
  obtain ⟨rfl, rfl⟩ := runs_addBlock.1 hadd
  obtain ⟨-, -, -, rfl⟩ := runs_lastRegister.1 hlast
  -- the type of the result may add layouts, but leaves the caller as it is
  have hcaller : t.graph.block? b = some k.caller := by
    rw [Graph.block?, lowerType_blocks hvalue]
    exact hB'
  have hne : t.graph.nextId ≠ b := by
    rintro rfl
    simp [Graph.block?_nextId] at hcaller
  obtain ⟨hopen, p, hp, rfl, hprep⟩ := prepares_of_packContext (k := k)
    (by rw [appendBlock_block?, if_neg hne.symm]; exact hcaller)
    (by rw [appendBlock_block?, if_pos rfl]; rfl) hne hpack
  have hbegins : k.Begins b count result s t := ⟨⟨B, rest, hB, hstack, rfl⟩, hlen, ⟨ts, htype⟩, hvalue⟩
  rcases h with ⟨hc, r', _, ⟨t₈, hcopy, rfl⟩, rfl, rfl⟩ | ⟨hc, rfl, rfl⟩
  · exact ⟨k, p, t, hbegins, rfl, hp,
      suspends_of_prepares hopen hne hprep hgoto hlast (.inl ⟨hc, r', hcopy⟩), rfl⟩
  · exact ⟨k, p, t, hbegins, rfl, hp,
      suspends_of_prepares hopen hne hprep hgoto hlast (.inr ⟨by simpa using hc, rfl⟩), rfl⟩

end Lowering

/-! What a context does when the graph is executed. -/

namespace Machine

variable {M : Machine}

/-- The value is an object: a field holds what was stored in it last, and casts between layouts do
not change it. -/
structure IsObject (field : M.State → Nat → Option M.Value) (o : M.Value) : Prop where
  store : ∀ {n t v σ u σ'}, M.perform (.setField ⟨0⟩ n ⟨0⟩) t [o, v] σ = some (u, σ') →
    field σ' n = some v ∧ ∀ m, m ≠ n → field σ' m = field σ m
  load : ∀ {n t σ v σ'}, M.perform (.getField ⟨0⟩ n) t [o] σ = some (v, σ') →
    field σ n = some v ∧ σ' = σ
  upcast : ∀ {t σ v σ'}, M.perform (.cast .upcast ⟨0⟩) t [o] σ = some (v, σ') → v = o ∧ σ' = σ
  downcast : ∀ {t σ v σ'}, M.perform (.cast .downcast ⟨0⟩) t [o] σ = some (v, σ') → v = o ∧ σ' = σ

variable {field : M.State → Nat → Option M.Value} {o : M.Value} {regs regs' : M.Registers}
  {σ σ' : M.State} {object r : Register} {n : Nat} {t : ValueType} {v : M.Value}

theorem value_new {l : LayoutId} :
    value ⟨.new l, t⟩ regs σ = some (v, σ') ↔ M.perform (.new l) t [] σ = some (v, σ') := by
  simp [value, Operation.copy?, Operation.operands, Operation.form, Operation.mapM, readAll]

theorem value_setField :
    value ⟨.setField object n r, t⟩ regs σ = some (v, σ') ↔ ∃ w u, read regs object = some w ∧
      read regs r = some u ∧ M.perform (.setField ⟨0⟩ n ⟨0⟩) t [w, u] σ = some (v, σ') := by
  simp [value, Operation.copy?, Operation.operands, Operation.form, Operation.mapM, readAll,
    Option.bind_eq_some_iff]

theorem value_getField :
    value ⟨.getField object n, t⟩ regs σ = some (v, σ') ↔ ∃ w, read regs object = some w ∧
      M.perform (.getField ⟨0⟩ n) t [w] σ = some (v, σ') := by
  simp [value, Operation.copy?, Operation.operands, Operation.form, Operation.mapM, readAll,
    Option.bind_eq_some_iff]

theorem value_cast {op : CastOp} :
    value ⟨.cast op object, t⟩ regs σ = some (v, σ') ↔ ∃ w, read regs object = some w ∧
      M.perform (.cast op ⟨0⟩) t [w] σ = some (v, σ') := by
  simp [value, Operation.copy?, Operation.operands, Operation.form, Operation.mapM, readAll,
    Option.bind_eq_some_iff]

open Lowering

theorem carryOut_storing (ho : M.IsObject field o) {rs : List Register}
    (hobject : read regs object = some o)
    (h : carryOut (storing object n rs) regs σ = .ok (regs', σ')) :
    (∀ m < n, field σ' m = field σ m) ∧
      ∀ i r, rs[i]? = some r → ∃ v, read regs' r = some v ∧ field σ' (n + i) = some v := by
  induction rs generalizing n regs σ with
  | nil =>
    obtain ⟨-, rfl⟩ : regs = regs' ∧ σ = σ' := by simpa [storing, carryOut] using h
    exact ⟨fun _ _ => rfl, by simp⟩
  | cons r rs ih =>
    simp only [storing, carryOut_cons_eq_ok, value_setField] at h
    obtain ⟨u, σ₁, ⟨w, v, hw, hv, hperform⟩, hrest⟩ := h
    obtain rfl := Option.some.inj (hobject.symm.trans hw)
    obtain ⟨hstored, hkept⟩ := ho.store hperform
    obtain ⟨hbefore, hfields⟩ := ih (read_append hobject _) hrest
    refine ⟨fun m hm => ?_, fun i r' hr' => ?_⟩
    · rw [hbefore m (by omega), hkept m (by omega)]
    · cases i with
      | zero =>
        obtain rfl : r = r' := by simpa using hr'
        obtain ⟨vs, rfl, -⟩ := carryOut_registers hrest
        exact ⟨v, read_append (read_append hv _) _, (hbefore n (by omega)).trans hstored⟩
      | succ i =>
        obtain ⟨v', hv', hfield⟩ := hfields i r' (by simpa using hr')
        exact ⟨v', hv', by rwa [Nat.add_right_comm] at hfield⟩

theorem carryOut_loading (ho : M.IsObject field o) {ts : List ValueType}
    (hobject : read regs object = some o)
    (h : carryOut (loading object n ts) regs σ = .ok (regs', σ')) :
    σ' = σ ∧ ∀ i < ts.length, ∃ v, read regs' ⟨regs.length + i⟩ = some v ∧
      field σ (n + i) = some v := by
  induction ts generalizing n regs with
  | nil =>
    obtain ⟨-, rfl⟩ : regs = regs' ∧ σ = σ' := by simpa [loading, carryOut] using h
    exact ⟨rfl, by simp⟩
  | cons t ts ih =>
    simp only [loading, carryOut_cons_eq_ok, value_getField] at h
    obtain ⟨v, σ₁, ⟨w, hw, hperform⟩, hrest⟩ := h
    obtain rfl := Option.some.inj (hobject.symm.trans hw)
    obtain ⟨hloaded, rfl⟩ := ho.load hperform
    obtain ⟨rfl, hfields⟩ := ih (read_append hobject _) hrest
    refine ⟨rfl, fun i hi => ?_⟩
    cases i with
    | zero =>
      obtain ⟨vs, rfl, -⟩ := carryOut_registers hrest
      refine ⟨v, ?_, hloaded⟩
      rw [List.append_assoc]
      simp [read]
    | succ i =>
      obtain ⟨v', hv', hfield⟩ := hfields i (by simpa using hi)
      refine ⟨v', ?_, by rwa [Nat.add_right_comm] at hfield⟩
      rwa [List.length_append, List.length_singleton, Nat.add_right_comm] at hv'

def HasObjects (M : Machine) (field : M.State → M.Value → Nat → Option M.Value) : Prop :=
  ∀ {l t σ o σ'}, M.perform (.new l) t [] σ = some (o, σ') → M.IsObject (field · o) o

theorem carryOut_capturing {field : M.State → M.Value → Nat → Option M.Value}
    (hM : M.HasObjects field) {c : BlockId} {ps : List ValueType} {layout : LayoutId}
    {captured : List Register}
    (h : carryOut (capturing regs.length c ps layout captured) regs σ = .ok (regs', σ')) :
    ∃ o, read regs' ⟨regs.length⟩ = some o ∧ M.IsObject (field · o) o ∧
      ∀ i r, captured[i]? = some r → ∃ v, read regs' r = some v ∧ field σ' o (1 + i) = some v := by
  simp only [capturing, List.cons_append, List.nil_append, carryOut_cons_eq_ok] at h
  obtain ⟨o, σ₁, hnew, v₁, σ₂, -, v₂, σ₃, -, hrest⟩ := h
  have ho := hM (value_new.1 hnew)
  have hobject : read (regs ++ [o] ++ [v₁] ++ [v₂]) ⟨regs.length⟩ = some o := by simp [read]
  obtain ⟨-, hstored⟩ := carryOut_storing ho hobject hrest
  obtain ⟨vs, rfl, -⟩ := carryOut_registers hrest
  exact ⟨o, read_append hobject vs, ho, hstored⟩

theorem carryOut_resuming {args : List M.Value} {τ τ' : M.State} {vs : M.Registers}
    (ho : M.IsObject field o) {layout : LayoutId} {types : List ValueType}
    (h : carryOut (resuming (o :: args).length layout types) (o :: args) τ = .ok (vs, τ')) :
    ∀ i < types.length, ∃ v, read vs ⟨(o :: args).length + 1 + i⟩ = some v ∧
      field τ (1 + i) = some v := by
  simp only [resuming, carryOut_cons_eq_ok, value_cast] at h
  obtain ⟨o', τ₁, ⟨w, hw, hperform⟩, hrest⟩ := h
  obtain rfl : o = w := by simpa [read] using hw
  obtain ⟨rfl, rfl⟩ := ho.downcast hperform
  obtain ⟨-, hloaded⟩ := carryOut_loading ho (by simp [read]) hrest
  simpa using hloaded

end Machine

namespace Lowering

open Machine

variable {k : Call} {p : Packing} {layout : LayoutId} {resume : BlockId}

theorem Call.Packs.restores (hp : k.Packs layout resume p) {M : Machine}
    {field : M.State → M.Value → Nat → Option M.Value} (hM : M.HasObjects field)
    {regs regs' : M.Registers} {σ σ' : M.State} (hregs : regs.length = k.caller.registerCount)
    (h : carryOut p.code regs σ = .ok (regs', σ')) :
    ∃ o, read regs' p.context = some o ∧
      ∀ (args : List M.Value) (τ τ' : M.State) (more : List Instruction) (vs : M.Registers),
        (o :: args).length = k.parameterTypes.length → (∀ n, field τ o n = field σ' o n) →
        carryOut (p.unpacking ++ more) (o :: args) τ = .ok (vs, τ') →
        k.caller.locals.Renames (fun r r' => ∃ v, read regs' r = some v ∧ read vs r' = some v)
          p.locals := by
  cases hp with
  | plain hlive =>
    rw [Call.plain, ← hregs] at h
    obtain ⟨o, ho, -⟩ := carryOut_capturing hM h
    refine ⟨o, ?_, fun _ _ _ _ _ _ _ _ => .of_nil hlive _⟩
    rw [Call.plain, ← hregs]
    exact ho
  | captured hlive htypes hnew hrenames =>
    rename_i types locals
    rw [Call.captured, ← hregs] at h
    obtain ⟨regs₁, σ₁, hcapture, hup⟩ := carryOut_append_eq_ok.1 h
    obtain ⟨o, ho, hobject, hstored⟩ := carryOut_capturing hM hcapture
    simp only [carryOut_cons_eq_ok, value_cast] at hup
    obtain ⟨v, σ₂, ⟨w, hw, hperform⟩, hend⟩ := hup
    obtain rfl := Option.some.inj (ho.symm.trans hw)
    obtain ⟨rfl, rfl⟩ := hobject.upcast hperform
    obtain ⟨rfl, rfl⟩ : regs₁ ++ [v] = regs' ∧ σ₂ = σ' := by simpa [carryOut] using hend
    obtain ⟨added, rfl, hadded⟩ := carryOut_registers hcapture
    refine ⟨v, ?_, fun args τ τ' more vs hlen hfields hresume => ?_⟩
    · have hcount : k.caller.registerCount + 3 + types.length = (regs ++ added).length := by
        rw [List.length_append, hadded, capturing_length, hregs, htypes.length_eq, Nat.add_assoc]
      simp [Call.captured, Machine.read, hcount]
    · obtain ⟨vs₁, τ₁, hload, hmore⟩ := carryOut_append_eq_ok.1 hresume
      rw [Call.captured, ← hlen] at hload
      have hloaded := carryOut_resuming hobject hload
      obtain ⟨more', rfl, -⟩ := carryOut_registers hmore
      refine hrenames _ (List.forall₂_iff_get.2 ⟨by simp [hnew, registersFrom, htypes.length_eq],
        fun i hi hi' => ?_⟩)
      obtain ⟨v₁, hv₁, hfield₁⟩ := hstored i _ (List.getElem?_eq_getElem hi)
      obtain ⟨v₂, hv₂, hfield₂⟩ := hloaded i (htypes.length_eq ▸ hi)
      obtain rfl : v₁ = v₂ := Option.some.inj (by rw [← hfield₁, ← hfields, hfield₂])
      have hnext : locals.liveRegisters.get ⟨i, hi'⟩ = ⟨(v :: args).length + 1 + i⟩ := by
        simp [hnew, registersFrom, hlen]
      exact ⟨v₁, read_append hv₁ _, by rw [hnext]; exact read_append hv₂ _⟩

theorem Call.Packs.sameShape (hp : k.Packs layout resume p) :
    k.caller.locals.Renames (fun _ _ => True) p.locals := by
  cases hp with
  | plain hlive => exact .of_nil hlive _
  | captured hlive htypes hnew hrenames =>
    refine hrenames _ (List.forall₂_iff_get.2 ⟨?_, fun _ _ _ => trivial⟩)
    simp [hnew, registersFrom, htypes.length_eq]

theorem Call.Packs.instruction? (hp : k.Packs layout resume p) {i : Nat} {r r' : Register}
    (hr : k.caller.locals.liveRegisters[i]? = some r) (hr' : p.locals.liveRegisters[i]? = some r') :
    ∃ type, k.caller.typeOf? r = some type ∧ (k.resumed resume p).instruction? r' =
      some ⟨.getField ⟨k.parameterTypes.length⟩ (i + 1), type⟩ := by
  cases hp with
  | plain hlive => simp [hlive] at hr
  | captured hlive htypes hnew hrenames =>
    rename_i types locals
    obtain ⟨hi, rfl⟩ := List.getElem?_eq_some_iff.1 hr
    have hi' : i < types.length := htypes.length_eq ▸ hi
    obtain rfl : r' = ⟨(k.bare resume).registerCount + (i + 1)⟩ := by
      rw [Call.captured, hnew] at hr'
      simpa [registersFrom, hi', bare_registerCount, Nat.add_assoc, Nat.add_comm 1, eq_comm]
        using hr'
    refine ⟨types[i], (List.forall₂_iff_get.1 htypes).2 i hi hi', ?_⟩
    refine ((k.bare resume).instruction?_pushAll _ (i + 1)).trans ?_
    rw [List.getElem?_append_left (by simp [Call.captured, resuming, loading_length, hi'])]
    simp [Call.captured, resuming, loading_getElem?, hi', Nat.add_comm]

theorem Call.Packs.retypes (hp : k.Packs layout resume p) :
    k.caller.locals.Renames (fun r r' => ∃ t, k.caller.typeOf? r = some t ∧
      (k.resumed resume p).typeOf? r' = some t) p.locals := by
  have hloads := @hp.instruction?
  cases hp with
  | plain hlive => exact .of_nil hlive _
  | captured hlive htypes hnew hrenames =>
    refine hrenames _ (List.forall₂_iff_get.2 ⟨?_, fun i hi hi' => ?_⟩)
    · simp [hnew, registersFrom, htypes.length_eq]
    · obtain ⟨t, ht, hi⟩ := hloads (List.getElem?_eq_getElem hi) (List.getElem?_eq_getElem hi')
      exact ⟨t, ht, Block.typeOf?_of_instruction? hi⟩

/-- The caller goes on as it stopped. -/
structure Call.Restores (k : Call) (resume : BlockId) (p : Packing) : Prop where
  shape : k.caller.locals.Renames (fun _ _ => True) p.locals
  loads : ∀ (i : Nat) (r r' : Register), k.caller.locals.liveRegisters[i]? = some r →
    p.locals.liveRegisters[i]? = some r' → ∃ type, k.caller.typeOf? r = some type ∧
      (k.resumed resume p).instruction? r' =
        some ⟨.getField ⟨k.parameterTypes.length⟩ (i + 1), type⟩
  values : ∀ (M : Machine) (field : M.State → M.Value → Nat → Option M.Value), M.HasObjects field →
    ∀ (args passed : List M.Value) (σ σ' : M.State) (side : Option Bool) (target : M.Value),
      (k.suspended p).exec args σ = .jumped side target passed σ' →
      ∃ (context : M.Value) (rest : List M.Value) (regs : M.Registers), passed = context :: rest ∧
        carryOut (k.suspended p).instructions args σ = .ok (regs, σ') ∧
        ∀ (R : Block) (results : List M.Value) (τ τ' : M.State) (regs' : M.Registers),
          (k.resumed resume p).Extends R → (context :: results).length = R.parameters.length →
          (∀ n, field τ context n = field σ' context n) →
          carryOut R.instructions (context :: results) τ = .ok (regs', τ') →
          k.caller.locals.Renames
            (fun r r' => ∃ v, Machine.read regs r = some v ∧ Machine.read regs' r' = some v) p.locals

theorem Call.Packs.toRestores (hp : k.Packs layout resume p) : k.Restores resume p := by
  refine ⟨hp.sameShape, fun _ _ _ => hp.instruction?, fun M field hM args passed σ σ' side target h =>
    ?_⟩
  obtain ⟨hlen, -, regs, hcarry, -, hpassed⟩ := (Block.exec_eq_jumped rfl).1 h
  obtain ⟨regs₁, σ₁, hbefore, hcode⟩ := carryOut_append_eq_ok.1 hcarry
  obtain ⟨added, rfl, hadded⟩ := carryOut_registers hbefore
  obtain ⟨o, ho, hrestores⟩ := hp.restores hM (by
    rw [List.length_append, hadded, hlen]
    rfl) hcode
  obtain ⟨rest, -, rfl⟩ : ∃ rest, readAll regs k.arguments = some rest ∧ o :: rest = passed := by
    simpa [readAll, ho, Option.bind_eq_some_iff] using hpassed
  refine ⟨o, rest, regs, rfl, hcarry, fun R results τ τ' regs' hR hlen' hfields hrun => ?_⟩
  obtain ⟨more, hmore⟩ := hR.instructions
  refine hrestores results τ τ' (k.yielding p ++ more) regs' ?_ hfields ?_
  · rw [hlen', hR.parameters]
    exact List.length_map ..
  · rw [← List.append_assoc]
    exact hmore ▸ hrun

/-- **Calls and returns mirror each other.** Whatever is live in the block that a call was made from
is stored once in a new object, in a layout of its own or, if there is nothing to store, in that of
the callee; the block where the caller goes on loads each of the values again, to the place where it
was. -/
theorem lowerCall_restores_caller {s s' : State} {b resume : BlockId} {count : Nat}
    {result : SourceType} (h : Runs (lowerCall b count result) s resume s') :
    ∃ (k : Call) (p : Packing) (t : State), k.Begins b count result s t ∧
      resume = t.graph.nextId ∧ k.Packs t.layoutId resume p ∧
      k.Suspends b p t.toBuilder s'.toBuilder ∧ k.Restores resume p := by
  obtain ⟨k, p, t, hbegins, hresume, hpacks, hsuspends, -⟩ := runs_lowerCall h
  exact ⟨k, p, t, hbegins, hresume, hpacks, hsuspends, hpacks.toRestores⟩

def callSite : State where
  graph := {
    blocks := [
      { id := ⟨0⟩
        parameters := [⟨.object ⟨0⟩, none⟩, ⟨.prim .u8, some "n"⟩,
          ⟨.blockRef [.object ⟨1⟩, .prim .u8], none⟩]
        locals := {
          returnSlot := some ⟨0⟩
          symbols := ⟨[("n", ⟨.prim .u8, some ⟨1⟩⟩), ("m", ⟨.prim .u8, none⟩)], by decide⟩
          stack := [⟨1⟩, ⟨2⟩, ⟨1⟩] } }]
    layouts := [
      ⟨[.blockRef [.object ⟨0⟩]], .ofReturn⟩,
      ⟨[.blockRef [.object ⟨1⟩, .prim .u8]], .ofReturn⟩] }

theorem lowerCall_restores_caller_of_callSite :
    ∃ (resume : BlockId) (s' : State), Runs (lowerCall ⟨0⟩ 1 (.prim .u8)) callSite resume s' ∧
      ∃ (k : Call) (p : Packing) (t : State), k.Begins ⟨0⟩ 1 (.prim .u8) callSite t ∧
        resume = t.graph.nextId ∧ k.Packs t.layoutId resume p ∧
        k.Suspends ⟨0⟩ p t.toBuilder s'.toBuilder ∧ k.Restores resume p := by
  obtain ⟨⟨resume, s'⟩, h⟩ :=
    exists_eq_ok (x := ((lowerCall ⟨0⟩ 1 (.prim .u8)).run callSite).result) (by decide +kernel)
  exact ⟨resume, s', h, lowerCall_restores_caller h⟩

end Lowering

end BlockGraph
