import BlockGraph.Proofs.Linearity.Expressions
import BlockGraph.Proofs.Simulation.Blocks

namespace BlockGraph

open Interpretation Lowering

variable {I : Interpretation} {L : Lowered}

def Word.write (f : Nat → Option (Word I)) : Nat → List (Word I) → Nat → Option (Word I)
  | _, [] => f
  | n, w :: ws => write (Function.update f n (some w)) (n + 1) ws

theorem Word.write_of_lt (f : Nat → Option (Word I)) {n i : Nat} (h : i < n) (ws : List (Word I)) :
    write f n ws i = f i := by
  induction ws generalizing f n with
  | nil => rfl
  | cons w ws ih =>
    rw [write, ih _ (by omega), Function.update_of_ne (by omega)]

theorem Word.write_head (f : Nat → Option (Word I)) (n : Nat) (w : Word I) (ws : List (Word I)) :
    write f n (w :: ws) n = some w := by
  rw [write, write_of_lt _ (by omega), Function.update_self]

theorem Word.write_add (f : Nat → Option (Word I)) (n : Nat) (ws : List (Word I)) {i : Nat}
    (h : i < ws.length) : write f n ws (n + i) = ws[i]? := by
  induction ws generalizing f n i with
  | nil => simp at h
  | cons w ws ih =>
    cases i with
    | zero => exact write_head f n w ws
    | succ i =>
      rw [write, ← Nat.add_assoc, Nat.add_right_comm, ih _ _ (by simpa using h)]
      simp

section Contexts

variable {regs ws : List (Word I)} {rs : List Register} {object : Register} {σ : I.State}
  {cs : Contexts I} {m : Memory I} {a : Nat}

theorem carryOut_storing_context (hobject : regs[object.index]? = some (.context cs.length))
    (hrs : Reads regs rs ws) (f : Nat → Option (Word I)) (n : Nat) :
    Machine.carryOut (M := I.machine L) (storing object n rs) regs ⟨σ, cs ++ [f]⟩ =
      .ok (regs ++ List.replicate rs.length .nothing, ⟨σ, cs ++ [Word.write f n ws]⟩) := by
  induction rs generalizing ws regs f n with
  | nil =>
    cases hrs
    simp [storing, Machine.carryOut, Word.write]
  | cons r rs ih =>
    obtain ⟨w, ws, hr, hrest, rfl⟩ := List.forall₂_cons_left_iff.1 hrs
    have hreads : Reads regs (Operation.setField object n r).operands [.context cs.length, w] :=
      .cons hobject (.cons hr .nil)
    have hvalue : Machine.value (M := I.machine L) ⟨.setField object n r, .prim .void⟩ regs
        ⟨σ, cs ++ [f]⟩ = some (.nothing, ⟨σ, cs ++ [Function.update f n (some w)]⟩) := by
      have hset : (cs ++ [f]).modify cs.length (fun f => Function.update f n (some w)) =
          cs ++ [Function.update f n (some w)] := by
        rw [List.modify_eq_take_cons_drop (by simp)]
        simp
      rw [hreads.value rfl, execute_setField_context, Memory.setField, hset]
    rw [storing, Machine.carryOut, hvalue]
    dsimp only
    rw [ih (getElem?_append_of_some hobject _) (Reads.append hrest _)]
    simp [Word.write, List.replicate_succ]

theorem carryOut_capturing_context {layout : LayoutId} (hclass : L.class? layout = none)
    {captured : List Register} (hrs : Reads regs captured ws) (c : BlockId) (ps : List ValueType)
    (σ : I.State) (cs : Contexts I) :
    Machine.carryOut (M := I.machine L) (capturing regs.length c ps layout captured) regs ⟨σ, cs⟩ =
      .ok (regs ++ (.context cs.length :: I.reference L c :: .nothing ::
          List.replicate captured.length .nothing),
        ⟨σ, cs ++ [Word.write (fun _ => none) 0 (I.reference L c :: ws)]⟩) := by
  have hnew : Machine.value (M := I.machine L) ⟨.new layout, .object layout⟩ regs ⟨σ, cs⟩ =
      some (.context cs.length, ⟨σ, cs ++ [fun _ => none]⟩) := by
    rw [Reads.value .nil rfl, execute_new_context hclass]
  have hreads : Reads (regs ++ [.context cs.length] ++ [I.reference L c])
      (⟨regs.length + 1⟩ :: captured) (I.reference L c :: ws) :=
    .cons (by simp) ((hrs.append _).append _)
  have hobject : (regs ++ [.context cs.length] ++ [I.reference L c])[
      (Register.mk regs.length).index]? = some (.context cs.length) := by simp
  have hstores := carryOut_storing_context (L := L) (σ := σ) hobject hreads (fun _ => none) 0
  calc Machine.carryOut (M := I.machine L) (capturing regs.length c ps layout captured) regs ⟨σ, cs⟩
    _ = Machine.carryOut (M := I.machine L) (⟨.blockRef c, .blockRef ps⟩ ::
          storing ⟨regs.length⟩ 0 (⟨regs.length + 1⟩ :: captured))
          (regs ++ [.context cs.length]) ⟨σ, cs ++ [fun _ => none]⟩ := by
      rw [capturing, List.cons_append, Machine.carryOut, hnew]
      rfl
    _ = Machine.carryOut (M := I.machine L)
          (storing ⟨regs.length⟩ 0 (⟨regs.length + 1⟩ :: captured))
          (regs ++ [.context cs.length] ++ [I.reference L c]) ⟨σ, cs ++ [fun _ => none]⟩ := rfl
    _ = _ := by
      rw [hstores]
      simp [List.replicate_succ]

theorem carryOut_loading_context (hobject : regs[object.index]? = some (.context a)) (n : Nat)
    {ts : List ValueType} (hlen : ws.length = ts.length)
    (hfields : ∀ i < ws.length, m.field? a (n + i) = ws[i]?) :
    Machine.carryOut (M := I.machine L) (loading object n ts) regs m = .ok (regs ++ ws, m) := by
  induction ts generalizing ws regs n with
  | nil =>
    obtain rfl := List.length_eq_zero_iff.1 hlen
    simp [loading, Machine.carryOut]
  | cons t ts ih =>
    obtain ⟨w, ws, rfl⟩ := List.exists_cons_of_length_eq_add_one hlen
    have hreads : Reads regs (Operation.getField object n).operands [.context a] :=
      .cons hobject .nil
    have hvalue : Machine.value (M := I.machine L) ⟨.getField object n, t⟩ regs m = some (w, m) := by
      have hfield : m.field? a n = some w := hfields 0 (by simp)
      rw [hreads.value rfl, execute_getField_context, hfield]
      rfl
    have hrest : ∀ i < ws.length, m.field? a (n + 1 + i) = ws[i]? := by
      intro i hi
      rw [Nat.add_right_comm]
      exact hfields (i + 1) (by simpa using hi)
    rw [loading, Machine.carryOut, hvalue]
    dsimp only
    rw [ih (getElem?_append_of_some hobject _) _ (by simpa using hlen) hrest]
    simp

theorem carryOut_resuming_context (rest : List (Word I)) (layout : LayoutId) {ts : List ValueType}
    (hlen : ws.length = ts.length) (hfields : ∀ i < ws.length, m.field? a (1 + i) = ws[i]?) :
    Machine.carryOut (M := I.machine L) (resuming (.context a :: rest).length layout ts)
      (.context a :: rest) m = .ok (.context a :: rest ++ .context a :: ws, m) := by
  have hobject : (Word.context (I := I) a :: rest ++ [.context a])[
      (Register.mk (Word.context (I := I) a :: rest).length).index]? = some (.context a) := by simp
  have hloads := carryOut_loading_context (L := L) hobject 1 hlen hfields
  calc Machine.carryOut (M := I.machine L) (resuming (.context a :: rest).length layout ts)
        (.context a :: rest) m
    _ = Machine.carryOut (M := I.machine L) (loading ⟨(Word.context (I := I) a :: rest).length⟩ 1 ts)
          (.context a :: rest ++ [.context a]) m := rfl
    _ = _ := by
      rw [hloads]
      simp

end Contexts

theorem Block.Mirrors.rename {B B' : Block} {regs regs' : List (Word I)} {w : View I}
    (h : B.Mirrors regs w) (hlen : regs'.length = B'.registerCount)
    (hlocals : B.locals.Renames (fun r r' => ∀ x, regs[r.index]? = some x →
      regs'[r'.index]? = some x) B'.locals) : B'.Mirrors regs' w where
  length := hlen
  symbols e' he' := by
    obtain ⟨e, he, hname, -, hreg⟩ := forall₂_mem_right hlocals.symbols he'
    obtain ⟨y, hy, hvalue⟩ := h.symbols e he
    refine ⟨y, by rw [hname, hy], fun r' hr' => ?_⟩
    rw [hr'] at hreg
    obtain ⟨r, hr, hR⟩ := forall₂_mem_right hreg (List.mem_singleton_self r')
    obtain ⟨v, rfl, hv⟩ := hvalue r (by simpa using hr)
    exact ⟨v, rfl, hR _ hv⟩
  stack := forall₂_join hlocals.stack h.stack fun _ _ x hR hx => hR x hx
  slot := forall₂_join hlocals.slot h.slot fun _ _ x hR hx => hR x hx

namespace Lowering

variable {k : Call} {p : Packing} {layout : LayoutId} {resume : BlockId} {regs : List (Word I)}
  {w : View I}

variable (k p resume L) in
def Call.GetsBack (a : Nat) (f : Nat → Option (Word I)) (w : View I) : Prop :=
  ∀ (rest : List (Word I)) (m : Memory I),
    (.context a :: rest : List (Word I)).length = k.parameterTypes.length →
    (∀ n, m.field? a n = f n) →
    ∃ loaded, Machine.carryOut (M := I.machine L) p.unpacking (.context a :: rest) m =
        .ok (.context a :: rest ++ loaded, m) ∧
      (((k.bare resume).pushAll p.unpacking).withLocals p.locals).Mirrors
        (.context a :: rest ++ loaded) w

variable (k p resume L) in
def Call.Captures (regs : List (Word I)) (w : View I) (σ : I.State) (cs : Contexts I) : Prop :=
  ∃ more f, Machine.carryOut (M := I.machine L) p.code regs ⟨σ, cs⟩ =
      .ok (regs ++ more, ⟨σ, cs ++ [f]⟩) ∧
    (regs ++ more)[p.context.index]? = some (.context cs.length) ∧
    f 0 = some (I.reference L resume) ∧ k.GetsBack L p resume cs.length f w

theorem Call.captures_plain (hlive : k.caller.locals.liveRegisters = [])
    (hreturns : L.class? k.returns = none) (hw : k.caller.Mirrors regs w) (σ : I.State)
    (cs : Contexts I) : k.Captures L (k.plain resume) resume regs w σ cs := by
  have hcode := carryOut_capturing_context (L := L) hreturns (.nil : Reads regs [] []) resume
    k.parameterTypes σ cs
  rw [hw.length] at hcode
  refine ⟨_, _, hcode, by simp [Call.plain, ← hw.length], Word.write_head _ _ _ _,
    fun rest m hlen hfields => ⟨[], by simp [Call.plain, Machine.carryOut], ?_⟩⟩
  refine hw.rename ?_ (.of_nil hlive _)
  simpa [Call.plain, bare_registerCount] using hlen

theorem Call.captures_captured {types : List ValueType} {locals : Locals}
    (htypes : k.caller.HasTypes k.caller.locals.liveRegisters types)
    (hnew : locals.liveRegisters = registersFrom (k.parameterTypes.length + 1) types.length)
    (hrenames : ∀ R : Register → Register → Prop,
      List.Forall₂ R k.caller.locals.liveRegisters locals.liveRegisters →
        k.caller.locals.Renames R locals)
    (hlayout : L.class? layout = none) (hw : k.caller.Mirrors regs w) (σ : I.State)
    (cs : Contexts I) :
    k.Captures L (k.captured resume layout types locals) resume regs w σ cs := by
  obtain ⟨ws, hws⟩ : ∃ ws, Reads regs k.caller.locals.liveRegisters ws := by
    refine exists_forall₂ fun r hr => ?_
    have hlt := Block.contains_iff.1 (htypes.contains r hr)
    exact ⟨_, List.getElem?_eq_getElem (hw.length ▸ hlt)⟩
  have hlen : ws.length = types.length := hws.length_eq.symm.trans htypes.length_eq
  have hcode := carryOut_capturing_context (L := L) hlayout hws resume k.parameterTypes σ cs
  rw [hw.length] at hcode
  have hcast : Machine.carryOut (M := I.machine L)
      [⟨.cast .upcast ⟨k.caller.registerCount⟩, .object k.returns⟩]
      (regs ++ (.context cs.length :: I.reference L resume :: .nothing ::
        List.replicate k.caller.locals.liveRegisters.length .nothing))
      ⟨σ, cs ++ [Word.write (fun _ => none) 0 (I.reference L resume :: ws)]⟩ =
      .ok (regs ++ (.context cs.length :: I.reference L resume :: .nothing ::
        List.replicate k.caller.locals.liveRegisters.length .nothing) ++ [.context cs.length],
        ⟨σ, cs ++ [Word.write (fun _ => none) 0 (I.reference L resume :: ws)]⟩) := by
    have hreads : Reads (regs ++ (.context cs.length :: I.reference L resume :: .nothing ::
        List.replicate k.caller.locals.liveRegisters.length .nothing))
        (Operation.cast .upcast ⟨k.caller.registerCount⟩).operands [.context cs.length] :=
      .cons (by simp [← hw.length]) .nil
    rw [Machine.carryOut, hreads.value rfl]
    rfl
  have hall := Machine.carryOut_append_eq_ok.2 ⟨_, _, hcode, hcast⟩
  rw [List.append_assoc] at hall
  refine ⟨_, _, hall, ?_, Word.write_head _ _ _ _, fun rest m hrest hfields => ?_⟩
  · have hindex : k.caller.registerCount + 3 + types.length = (regs ++ (Word.context cs.length ::
        I.reference L resume :: .nothing ::
        List.replicate k.caller.locals.liveRegisters.length .nothing)).length := by
      simp [hw.length, htypes.length_eq]
      omega
    rw [← List.append_assoc]
    simp [Call.captured, hindex]
  · have hloads : ∀ i < ws.length, m.field? cs.length (1 + i) = ws[i]? := by
      intro i hi
      rw [hfields]
      have hwrite := Word.write_add (fun _ => none) 0 (I.reference L resume :: ws) (i := 1 + i)
        (by simp; omega)
      simpa [Nat.add_comm 1 i] using hwrite
    have hload := carryOut_resuming_context (L := L) rest layout hlen hloads
    rw [hrest] at hload
    refine ⟨_, hload, hw.rename ?_ (hrenames _ ?_)⟩
    · simp [Call.captured, bare_registerCount, resuming, loading_length, ← hrest, hlen]
      omega
    · rw [hnew, ← hrest]
      refine List.forall₂_iff_get.2 ⟨by simp [registersFrom, htypes.length_eq],
        fun i hi hi' x hx => ?_⟩
      have hi'' : i < ws.length := hws.length_eq ▸ hi
      have hread := (List.forall₂_iff_get.1 hws).2 i hi hi''
      obtain rfl := Option.some.inj (hread.symm.trans hx)
      have hregister : (registersFrom ((Word.context (I := I) cs.length :: rest).length + 1)
          types.length).get ⟨i, hi'⟩ = ⟨(Word.context (I := I) cs.length :: rest).length + 1 + i⟩ := by
        simp [registersFrom]
      have hsub : (Word.context (I := I) cs.length :: rest).length + 1 + i -
          (Word.context (I := I) cs.length :: rest).length = i + 1 := by omega
      rw [hregister]
      dsimp only
      rw [List.getElem?_append_right (by omega), hsub, List.getElem?_cons_succ]
      exact List.getElem?_eq_getElem hi''

theorem Call.Packs.captures (hp : k.Packs layout resume p) (hreturns : L.class? k.returns = none)
    (hlayout : k.caller.locals.liveRegisters ≠ [] → L.class? layout = none)
    (hw : k.caller.Mirrors regs w) (σ : I.State) (cs : Contexts I) :
    k.Captures L p resume regs w σ cs := by
  cases hp with
  | plain hlive => exact captures_plain hlive hreturns hw σ cs
  | captured hlive htypes hnew hrenames =>
    exact captures_captured htypes hnew hrenames (hlayout hlive) hw σ cs

theorem Call.length_arguments (k : Call) {a : Nat} {r : Option I.Value} :
    (.context a :: r.toList.map .plain : List (Word I)).length = k.parameterTypes.length ↔
      r.isSome = !k.result.isVoid := by
  simp only [Call.parameterTypes, Builder.continuation]
  cases r <;> cases k.result.isVoid <;> simp

theorem Call.GetsBack.resumed {a : Nat} {f : Nat → Option (Word I)}
    (h : k.GetsBack L p resume a f w) {r : Option I.Value}
    (hr : r.isSome = !k.result.isVoid) {m : Memory I} (hm : ∀ n, m.field? a n = f n) :
    ∃ more, Machine.carryOut (M := I.machine L) (p.unpacking ++ k.yielding p)
        (.context a :: r.toList.map .plain) m =
          .ok (.context a :: r.toList.map .plain ++ more, m) ∧
      (k.resumed resume p).Mirrors (.context a :: r.toList.map .plain ++ more) w ∧
      ∀ v, r = some v → (.context a :: r.toList.map .plain ++ more).getLast? = some (.plain v) := by
  obtain ⟨loaded, hload, hw⟩ := h _ m (k.length_arguments.2 hr) hm
  obtain ⟨added, hadded, hcount⟩ := Machine.carryOut_registers hload
  obtain rfl := List.append_cancel_left hadded
  by_cases hyield : k.result.isVoid || p.unpacking.isEmpty
  · have hnil : k.yielding p = [] := by rw [Call.yielding, if_pos hyield]
    rw [Call.resumed, hnil, List.append_nil]
    refine ⟨loaded, hload, hw, ?_⟩
    rintro v rfl
    have hvoid : k.result.isVoid = false := by simpa using hr
    have hempty : loaded = [] := by
      rw [← List.length_eq_zero_iff, hcount]
      simpa [hvoid] using hyield
    simp [hempty]
  · have hcopy : k.yielding p = [⟨.copy ⟨1⟩, k.result⟩] := by rw [Call.yielding, if_neg hyield]
    obtain ⟨v, rfl⟩ : ∃ v, r = some v := by
      rw [← Option.isSome_iff_exists, hr]
      simp_all
    refine ⟨loaded ++ [.plain v], ?_, ?_, ?_⟩
    · rw [hcopy, ← List.append_assoc]
      exact Machine.carryOut_append_eq_ok.2 ⟨_, _, hload, rfl⟩
    · rw [← List.append_assoc]
      exact hw.more rfl (by simp [Call.resumed, hcopy, Nat.add_assoc])
    · rintro v' hv'
      obtain rfl := Option.some.inj hv'
      rw [← List.append_assoc]
      exact List.getLast?_concat

variable (L) in
/-- From the entry of a function a run does what a call of it does. It ends where the context says,
with the context and the result. -/
def CallsSimulate (q : Program) (n : Nat)
    (call : FunctionDecl → List I.Value → I.Eval (Option I.Value)) : Prop :=
  ∀ f, match q.function? f with
  | none => L.entry? f = none
  | some d => ∃ e, L.entry? f = some e ∧
      ∀ (args : List I.Value) (vs : I.Variables) (σ : I.State) (cs : Contexts I) (a : Nat) (x : Word I)
        (c : BlockId), (Memory.mk σ cs).field? a 0 = some x → (I.machine L).target x = some c →
        Simulates L n (.entry e (.context a :: args.map .plain) ⟨σ, cs⟩) (call d args vs σ)
          fun r vs' σ' y => vs' = vs ∧ ∃ cs', cs <+: cs' ∧
            y = .entry c (.context a :: r.toList.map .plain) ⟨σ', cs'⟩

theorem field?_of_prefix {σ σ' : I.State} {cs cs' : Contexts I} (h : cs <+: cs') {a : Nat}
    (ha : a < cs.length) (n : Nat) :
    (Memory.mk σ' cs').field? a n = (Memory.mk σ cs).field? a n := by
  obtain ⟨more, rfl⟩ := h
  simp [Memory.field?, List.getElem?_append_left ha]

theorem Call.Begins.returns {b : BlockId} {count : Nat} {t : SourceType} {s s' : State}
    (h : k.Begins b count t s s') (hs : s.Tidy) (hopen : k.caller.isTerminated = false)
    (hL : Links L s) : L.class? k.returns = none := by
  obtain ⟨B, rest, hB, -, hcaller⟩ := h.block
  obtain ⟨ts, hcallee⟩ := h.callee
  rw [hcaller] at hcallee hopen
  obtain ⟨T, hT, horigin⟩ := (hs.builder.blocks b B hB).types hopen _ _ hcallee _ _ rfl
  exact hL.noClass _ T hT (by simp [horigin])

theorem Call.Suspends.noClass {b : BlockId} {s s' : State} (h : k.Suspends b p s.toBuilder s'.toBuilder)
    (hp : k.Packs s.layoutId resume p) (hL : Links L s')
    (hlive : k.caller.locals.liveRegisters ≠ []) : L.class? s.layoutId = none := by
  have hlayouts := h.layouts
  cases hp with
  | plain hnil => exact absurd hnil hlive
  | captured =>
    refine hL.noClass _ _ (Option.eq_some_of_isSome ?_) ?_
    all_goals simp [Graph.layout?, hlayouts, Builder.layoutId, Call.captured]

def callResult (q : Program) (call : FunctionDecl → List I.Value → I.Eval (Option I.Value))
    (t : SourceType) (v : I.Value) (args : List I.Value) : I.Eval I.Value :=
  match (I.callee v).bind q.function? with
  | none => fail
  | some d => do resultOf t (← call d args)

section Resume

variable {s s' : State} {b c : BlockId}

theorem Call.Suspends.simulates_result (h : k.Suspends b p s.toBuilder s'.toBuilder)
    (hL : Links L s') {t : SourceType} (ht : k.result.isVoid = t.isVoid) {a : Nat}
    {f : Nat → Option (Word I)} (hback : k.GetsBack L p s.graph.nextId a f w) {n : Nat}
    {before cs : Contexts I} (hcs : before <+: cs) {σ : I.State}
    (hf : ∀ i, (Memory.mk σ cs).field? a i = f i) (r : Option I.Value) (vs : I.Variables) :
    Simulates L n (.entry s.graph.nextId (.context a :: r.toList.map .plain) ⟨σ, cs⟩)
      (resultOf t r vs σ) fun v vs' σ' y => vs' = vs ∧
        s'.graph.Yields s.graph.nextId w before σ' (if t.isVoid then none else some v) y := by
  obtain ⟨R, hR, hext⟩ := hL.graph _ _ h.resumed
  have hparams : R.parameters.length = k.parameterTypes.length := by
    rw [hext.parameters]
    simp [Call.resumed, Call.bare]
  by_cases hr : r.isSome = !k.result.isVoid
  · obtain ⟨more, hcarry, hw, hlast⟩ := hback.resumed hr hf
    have hlen := (k.length_arguments (a := a)).2 hr
    have hwithin : [] ++ (p.unpacking ++ k.yielding p) <+: R.instructions := hext.instructions
    have hgoes := Graph.goes_carryOut (M := I.machine L) hR hwithin
      (.context a :: r.toList.map .plain) ⟨σ, cs⟩ (hlen.trans hparams.symm)
    rw [hcarry] at hgoes
    have hresult : ∃ v, resultOf t r vs σ = .done v vs σ ∧ (t.isVoid = false → r = some v) := by
      rw [ht] at hr
      cases r with
      | none => exact ⟨I.void, by simp_all [resultOf, pure], by simp_all⟩
      | some v => exact ⟨v, by simp_all [resultOf, pure], by simp⟩
    obtain ⟨v, hv, hrv⟩ := hresult
    rw [hv]
    refine ⟨0, _, .enter hR (hlen.trans hparams.symm) hgoes, rfl, _, cs, rfl, ⟨_, h.resumed, hw⟩, hcs,
      fun v' hv' => ?_⟩
    cases hvoid : t.isVoid with
    | true => simp [hvoid] at hv'
    | false =>
      obtain rfl : v = v' := by simpa [hvoid] using hv'
      exact hlast v (hrv hvoid)
  · have hfail : resultOf t r vs σ = .failed σ := by
      rw [ht] at hr
      cases r <;> simp_all [resultOf, fail]
    rw [hfail]
    exact ⟨0, _, cs, .refl _, .arguments hR fun hlen =>
      hr (k.length_arguments.1 (hlen.trans hparams))⟩

theorem simulates_lowerCall {q : Program} {n : Nat}
    {call : FunctionDecl → List I.Value → I.Eval (Option I.Value)} (hcalls : CallsSimulate L q n call)
    {t : SourceType} {args : List I.Value} (h : Runs (lowerCall b args.length t) s c s')
    (hs : s.Tidy) (hL : Links L s') {ops : List I.Value} {v : I.Value} {vs : I.Variables}
    {slot : Option Nat} (hb : s.graph.Mirrors b regs ⟨vs, ops ++ v :: args, slot⟩) {σ : I.State}
    {cs : Contexts I} :
    Simulates L (n + 1) (.inside b regs ⟨σ, cs⟩) (callResult q call t v args vs σ)
      fun r vs' σ' y => vs' = vs ∧
        s'.graph.Yields c ⟨vs, ops, slot⟩ cs σ' (if t.isVoid then none else some r) y := by
  have hgrows := (leads_lowerCall h).grows
  obtain ⟨k, p, u, hbegins, rfl, hp, hsus, hs'⟩ := runs_lowerCall h
  obtain ⟨B, rest, hB, hstack, hcaller⟩ := hbegins.block
  obtain ⟨B', hB', hw⟩ := hb
  obtain rfl := Option.some.inj (hB.symm.trans hB')
  have hreads := hw.stack
  rw [hstack, List.map_append] at hreads
  obtain ⟨hrest, hoperands⟩ := hreads.split (by simp [hbegins.count])
  have hw' : k.caller.Mirrors regs ⟨vs, ops, slot⟩ := by
    rw [hcaller]
    exact ⟨hw.length, hw.symbols, hrest, hw.slot⟩
  have hreturns := hbegins.returns hs hsus.open_ (hL.back hgrows)
  obtain ⟨more, f, hcode, hcontext, hf, hback⟩ :=
    hp.captures hreturns (hsus.noClass hp hL) hw' σ cs
  obtain ⟨C, hC, hlen, hterm, hgoes⟩ := Builder.goes_close (L := L) hL.graph hsus.caller
    (by simp [Call.suspended]) rfl hw'.length hcode
  obtain ⟨hcallee, hargs⟩ := List.forall₂_cons.1 hoperands
  have hpassed : Reads (regs ++ more) (p.context :: k.arguments)
      (.context cs.length :: args.map .plain) := .cons hcontext (Reads.append hargs more)
  have hleave : Machine.leave (M := I.machine L) (.goto ⟨k.callee, p.context :: k.arguments⟩)
      (regs ++ more) ⟨σ, cs ++ [f]⟩ =
      .jumped none (.plain v) (.context cs.length :: args.map .plain) ⟨σ, cs ++ [f]⟩ := by
    rw [Machine.leave, Machine.jump, hpassed.readAll, Machine.read,
      getElem?_append_of_some hcallee more]
  unfold callResult
  cases hfunction : (I.callee v).bind q.function? with
  | none =>
    -- there is nothing to jump to either
    refine ⟨0, _, _, hgoes, .target hC hlen hterm hleave ?_⟩
    cases hv : I.callee v with
    | none => simp [hv]
    | some g =>
      have hcall := hcalls g
      rw [hv, Option.bind_some] at hfunction
      simpa [hfunction, hv] using hcall
  | some d =>
    obtain ⟨g, hg, hd⟩ := Option.bind_eq_some_iff.1 hfunction
    have hcall := hcalls g
    rw [hd] at hcall
    obtain ⟨e, he, hcall⟩ := hcall
    have hjump : L.graph.Goes (M := I.machine L) 1 (.inside b regs ⟨σ, cs⟩)
        (.entry e (.context cs.length :: args.map .plain) ⟨σ, cs ++ [f]⟩) :=
      hgoes.trans (.jump hC hlen hterm hleave (by simp [hg, he]) (.refl _))
    have hfield : ∀ i, (Memory.mk σ (cs ++ [f])).field? cs.length i = f i := by
      simp [Memory.field?]
    refine Simulates.bind ((hcall args vs σ (cs ++ [f]) cs.length _ _ ((hfield 0).trans hf)
      (I.target_reference L _)).goes hjump) ?_
    rintro r _ σ' _ ⟨rfl, cs', hwithin, rfl⟩
    refine hsus.simulates_result hL (isVoid_eq_of_runs hbegins.result) hback
      ((List.prefix_append cs [f]).trans hwithin) (fun i => ?_) r _
    rw [← hfield, field?_of_prefix (σ := σ) hwithin (by simp)]

end Resume

end Lowering

end BlockGraph
