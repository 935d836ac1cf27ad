import BlockGraph.Proofs.Safety.Blocks
import BlockGraph.Proofs.Sessions.History

namespace BlockGraph

namespace Graph

def HasValue (g : Graph) (b : BlockId) (name : String) : Prop :=
  ∃ B, g.block? b = some B ∧ B.locals.holds name = true

variable {g : Graph} {bs : List BlockId} {name : String}

theorem any_holds_iff {b : BlockId} : (g.block? b).any (·.locals.holds name) = true ↔ g.HasValue b name := by
  rw [Option.any_eq_true]
  exact Iff.rfl

theorem allHold_iff : g.allHold bs name = true ↔ ∀ b ∈ bs, g.HasValue b name := by
  simp only [allHold, List.all_eq_true, any_holds_iff]

theorem someHold_iff : g.someHold bs name = true ↔ ∃ b ∈ bs, g.HasValue b name := by
  simp only [someHold, List.any_eq_true, any_holds_iff]

end Graph

/-- The arguments are what `l` holds for the live values `k` of the target: for the return slot, for
each variable with a value, and for each place of the stack. -/
structure Locals.Passes (l k : Locals) (args : List Register) : Prop where
  slot : ∀ r : Register, k.returnSlot = some r →
    ∃ q, l.returnSlot = some q ∧ args[r.index]? = some q
  symbols : ∀ (name : String) (r : Register), k.symbols.register? name = some r →
    ∃ q, l.symbols.register? name = some q ∧ args[r.index]? = some q
  stack : ∀ (n : Nat) (r : Register), k.stack[n]? = some r →
    ∃ q, l.stack[n]? = some q ∧ args[r.index]? = some q

namespace Inflow

variable (i : Inflow)

theorem length_numberFrom (held : String → Bool) :
    ∀ (n : Nat) (entries : List (String × Symbol)), (numberFrom held n entries).length = entries.length
  | _, [] => rfl
  | n, (name, x) :: entries => by
    rw [numberFrom]
    split <;> simp [length_numberFrom held _ entries]

theorem registers_numberFrom (held : String → Bool) :
    ∀ (n : Nat) (entries : List (String × Symbol)),
      (numberFrom held n entries).filterMap (·.register) =
        (List.range' n (entries.filter (held ·.1)).length).map Register.mk
  | _, [] => rfl
  | n, (name, x) :: entries => by
    rw [numberFrom]
    by_cases hname : held name = true
    · simp [hname, registers_numberFrom held (n + 1) entries, List.range'_succ]
    · simp [hname, registers_numberFrom held n entries]

theorem locals_entries :
    i.locals.symbols.entries =
      i.symbols.keys.zip (numberFrom i.held i.slot.toList.length i.symbols.entries) := rfl

theorem locals_keys : i.locals.symbols.keys = i.symbols.keys := by
  rw [OrderedMap.keys, locals_entries]
  exact List.map_fst_zip (by simp [length_numberFrom, OrderedMap.keys])

theorem locals_values :
    i.locals.symbols.values = numberFrom i.held i.slot.toList.length i.symbols.entries := by
  rw [OrderedMap.values, locals_entries]
  exact List.map_snd_zip (by simp [length_numberFrom, OrderedMap.keys])

theorem liveRegisters_eq :
    i.locals.liveRegisters = (List.range i.parameters.length).map Register.mk := by
  have hslot : i.locals.returnSlot.toList = (List.range' 0 i.slot.toList.length).map Register.mk := by
    cases h : i.slot <;> simp [locals, h]
  have hstack : i.locals.stack = (List.range' (i.slot.toList.length + i.carried.length)
      i.stack.length).map Register.mk := by
    simp [locals, List.range'_eq_map_range, Function.comp_def]
  have hlength : i.parameters.length =
      i.slot.toList.length + (i.carried.length + i.stack.length) := by
    simp [parameters]
  have hrange : List.range i.parameters.length = List.range' 0 i.slot.toList.length ++
      (List.range' i.slot.toList.length i.carried.length ++
        List.range' (i.slot.toList.length + i.carried.length) i.stack.length) := by
    have h₁ := List.range'_append_1 (s := i.slot.toList.length) (m := i.carried.length)
      (n := i.stack.length)
    have h₂ := List.range'_append_1 (s := 0) (m := i.slot.toList.length)
      (n := i.carried.length + i.stack.length)
    rw [Nat.zero_add] at h₂
    rw [h₁, h₂, hlength, List.range_eq_range']
  have hcarried : (i.symbols.entries.filter (i.held ·.1)).length = i.carried.length := rfl
  rw [Locals.liveRegisters, hslot, locals_values, registers_numberFrom, hstack, hrange, hcarried,
    List.map_append, List.map_append, List.append_assoc]

theorem locals_holds {name : String} (hname : name ∈ i.symbols.keys) :
    i.locals.holds name = i.held name := by
  have hslot : (i.slot.toList.map fun _ => ()).length = i.slot.toList.length := by simp
  have hall := i.forall₂_symbols (fun _ => ()) [] hslot
  obtain ⟨⟨m, x⟩, he, rfl⟩ := List.mem_map.1 hname
  obtain ⟨⟨m', x'⟩, he', rfl, -, hheld, -⟩ := forall₂_mem_left hall he
  rw [Bool.eq_iff_iff, Locals.holds_iff, ← hheld]
  constructor
  · rintro ⟨⟨k, y⟩, hy, rfl, hsome⟩
    have hsame := (OrderedMap.get?_of_mem hy).symm.trans (OrderedMap.get?_of_mem he')
    obtain rfl := Option.some.inj hsame
    exact hsome
  · intro hsome
    exact ⟨(m', x'), he', rfl, hsome⟩

theorem passes {l : Locals} {args : List Register} {source target : BlockId}
    (hargs : i.signature.arguments l source target = .ok args) :
    args.length = i.parameters.length ∧ l.Passes i.locals args := by
  obtain ⟨slot, regs, rfl, hslot, hregs, hdepth⟩ := Signature.arguments_eq_ok.1 hargs
  have hslot' : slot.length = i.slot.toList.length ∧ ∀ q ∈ slot, l.returnSlot = some q := by
    cases h : i.slot with
    | none =>
      obtain rfl : slot = [] := by simpa [signature, h] using hslot
      simp
    | some t =>
      obtain ⟨r, hr, rfl⟩ : ∃ r, l.returnSlot = some r ∧ slot = [r] := by
        simpa [signature, h] using hslot
      simp [hr]
  -- One list holds an argument for each parameter, so the registers of the new block point into it.
  let value (e : String × Symbol) : Register := (l.symbols.register? e.1).getD ⟨0⟩
  have hcarried : regs = i.carried.map value := by
    have h := map_eq_map_of_forall₂ (f := fun name => (l.symbols.register? name).getD ⟨0⟩) (g := id)
      hregs fun name r hr => by simp [hr]
    simpa [signature, Function.comp_def, value] using h.symm
  have hreturn : List.Forall₂
      (fun r q => (slot ++ i.carried.map value ++ l.stack)[r.index]? = some q)
      i.locals.returnSlot.toList slot := i.forall₂_slot value hslot'.1
  have hsymbols := i.forall₂_symbols value l.stack hslot'.1
  have hstack := i.forall₂_stack value hslot'.1 hdepth
  rw [← hcarried] at hreturn hsymbols hstack
  refine ⟨?_, fun r hr => ?_, fun name r hr => ?_, fun n r hr => ?_⟩
  · have hdepth' : l.stack.length = i.stack.length := hdepth
    simp [hcarried, parameters, hslot'.1, hdepth']
  · obtain ⟨q, hq, hget⟩ := forall₂_mem_left hreturn (a := r) (by simp [hr])
    exact ⟨q, hslot'.2 q hq, hget⟩
  · obtain ⟨x, hx, hxr⟩ := Option.bind_eq_some_iff.1 hr
    obtain ⟨e, he, rfl, -, hheld, hget⟩ := forall₂_mem_right hsymbols (OrderedMap.mem_of_get? hx)
    -- A variable with a register is carried, so the arguments have a place for it.
    have hmem : e.1 ∈ i.signature.carried := by
      refine List.mem_map_of_mem (List.mem_filter.2 ⟨he, ?_⟩)
      rw [← hheld, hxr]
      rfl
    obtain ⟨q, -, hq⟩ := forall₂_mem_left hregs hmem
    refine ⟨q, hq, ?_⟩
    rw [hget r hxr]
    simp [value, hq]
  · obtain ⟨hlt, rfl⟩ := List.getElem?_eq_some_iff.1 hr
    have hlt' : n < l.stack.length := hstack.length_eq ▸ hlt
    exact ⟨l.stack[n], List.getElem?_eq_getElem hlt', hstack.get hlt hlt'⟩

end Inflow

def Fault.Elsewhere (e : Fault) : Prop :=
  (∀ b c, e ≠ .shapeMismatch b c) ∧ ∀ b, e ≠ .missingReturnSlot b

theorem mapM_eq_error {α β : Type} {f : α → Except Fault β} {as : List α} {e : Fault}
    (h : as.mapM f = .error e) : ∃ a ∈ as, f a = .error e := by
  induction as with
  | nil => simp [pure, Except.pure] at h
  | cons a as ih =>
    rw [List.mapM_cons] at h
    cases ha : f a with
    | error e' =>
      obtain rfl : e' = e := by simpa [ha, bind, Except.bind] using h
      exact ⟨a, by simp, ha⟩
    | ok b =>
      cases has : as.mapM f with
      | error e' =>
        obtain rfl : e' = e := by simpa [ha, has, bind, Except.bind] using h
        obtain ⟨c, hc, hce⟩ := ih has
        exact ⟨c, by simp [hc], hce⟩
      | ok bs => simp [ha, has, bind, Except.bind, pure, Except.pure] at h

namespace Block

variable {B : Block} {e : Fault}

theorem typeOf_elsewhere {r : Register} (h : B.typeOf r = .error e) : e.Elsewhere := by
  unfold typeOf at h
  split at h
  · simp at h
  · obtain rfl := Except.error.inj h
    exact ⟨by simp, by simp⟩

theorem staticTarget?_refer (B : Block) (c : BlockId) (ts : List ValueType) :
    (B.refer c ts).staticTarget? ⟨B.registerCount⟩ = some c := by
  have hle : ¬B.parameters.length + B.instructions.length < B.parameters.length := by omega
  simp [staticTarget?, instruction?, refer, registerCount, hle, Operation.blockRef?]

theorem checkEdge_elsewhere {edge : Edge} (h : B.checkEdge edge = .error e) : e.Elsewhere := by
  unfold checkEdge at h
  cases ht : B.typeOf edge.target with
  | error e' =>
    obtain rfl : e' = e := by simpa [ht, bind, Except.bind] using h
    exact typeOf_elsewhere ht
  | ok t =>
    rw [ht] at h
    cases t with
    | blockRef expected =>
      cases hfound : edge.arguments.mapM B.typeOf with
      | error e' =>
        obtain rfl : e' = e := by simpa [hfound, bind, Except.bind] using h
        obtain ⟨r, -, hr⟩ := mapM_eq_error hfound
        exact typeOf_elsewhere hr
      | ok found =>
        simp only [bind, Except.bind, hfound] at h
        split at h
        · cases h
          exact ⟨by simp, by simp⟩
        · cases h
    | prim | object | array =>
      cases h
      exact ⟨by simp, by simp⟩

end Block

namespace Builder

variable {s t t' : Builder} {b c : BlockId} {B C : Block}

theorem meets_emitRef (hB : s.graph.block? b = some B) (hC : s.graph.block? c = some C) :
    Meets Fault.Elsewhere (emitRef b c) s fun _ s' => ∃ B', s'.graph.block? b = some B' := by
  cases hopen : B.isTerminated with
  | false =>
    exact .of_run (runs_emitRef.2 ⟨C, B, hC, hB, hopen, rfl, rfl⟩) ⟨_, updateBlock_self hB _⟩
  | true =>
    refine Meets.run_bind (runs_block.2 ⟨hC, rfl⟩) (Meets.run_bind (runs_block.2 ⟨hB, rfl⟩) ?_)
    rw [if_pos hopen]
    exact ⟨by simp, by simp⟩

theorem meets_terminate {x : Terminator} (hB : s.graph.block? b = some B) :
    Meets Fault.Elsewhere (terminate b x) s fun _ _ => True := by
  cases hopen : B.isTerminated with
  | false => exact .of_run (a := ()) (runs_terminate.2 ⟨B, hB, hopen, rfl⟩) trivial
  | true =>
    refine Meets.run_bind (runs_block.2 ⟨hB, rfl⟩) ?_
    rw [if_pos hopen]
    exact ⟨by simp, by simp⟩

section Arguments

variable (hB : s.graph.block? b = some B) (hC : s.graph.block? c = some C)

include hB hC

theorem meets_jump {args : List Register} (h : C.signature.arguments B.locals b c = .ok args) :
    Meets Fault.Elsewhere (jump b c) s fun _ _ => True := by
  have hedge : Meets Fault.Elsewhere (edge b c) s fun _ s' => ∃ B', s'.graph.block? b = some B' := by
    refine Meets.run_bind (runs_block.2 ⟨hC, rfl⟩) (Meets.run_bind (runs_locals.2 ⟨B, hB, rfl, rfl⟩)
      (Meets.run_bind (Runs.lift_except_iff.2 ⟨h, rfl⟩) ?_))
    refine (meets_emitRef hB hC).bind fun r s' _ ⟨B', hB'⟩ => Meets.run_bind (runs_block.2 ⟨hB', rfl⟩) ?_
    refine (Meets.lift_except fun e he => Block.checkEdge_elsewhere he).bind ?_
    rintro u s'' - ⟨-, rfl⟩
    exact .pure ⟨B', hB'⟩
  exact hedge.bind fun e s' _ ⟨B', hB'⟩ => meets_terminate hB'

theorem jump_error {e : Fault} (h : C.signature.arguments B.locals b c = .error e) :
    ((jump b c).run s).result = .error e := by
  have hedge : Meets (· = e) (edge b c) s fun _ _ => False := by
    refine Meets.run_bind (runs_block.2 ⟨hC, rfl⟩) (Meets.run_bind (runs_locals.2 ⟨B, hB, rfl, rfl⟩) ?_)
    refine (Meets.lift_except fun e' he' => Except.error.inj (he'.symm.trans h)).bind ?_
    rintro args s' - ⟨hargs, -⟩
    rw [h] at hargs
    cases hargs
  have hjump : Meets (· = e) (jump b c) s fun _ _ => False := hedge.bind fun _ _ _ => False.elim
  cases hresult : ((jump b c).run s).result with
  | ok x => exact (hjump.holds hresult).elim
  | error e' => rw [hjump.error hresult]

end Arguments

theorem arguments_of_gathers {i : Inflow} {g : Graph} {context p : BlockId} {preds : List BlockId}
    (h : i.Gathers g context preds) (hp : p ∈ preds) {P : Block} (hP : g.block? p = some P)
    (child : BlockId) :
    (i.slot.isSome = true ∧ P.locals.returnSlot = none ∧
      i.signature.arguments P.locals p child = .error (.missingReturnSlot p)) ∨
    (¬(i.slot.isSome = true ∧ P.locals.returnSlot = none) ∧
      ∃ args, i.signature.arguments P.locals p child = .ok args) := by
  by_cases hmissing : i.slot.isSome = true ∧ P.locals.returnSlot = none
  · refine .inl ⟨hmissing.1, hmissing.2, ?_⟩
    simp [Signature.arguments, Inflow.signature, hmissing, bind, Except.bind, throw, throwThe,
      MonadExceptOf.throw]
  · have hfits : i.signature.Fits P.locals := by
      refine h.fits hp hP fun hslot => ?_
      by_contra hnone
      exact hmissing ⟨hslot, by simpa using hnone⟩
    obtain ⟨args, hargs, -⟩ := hfits.arguments p child
    exact .inr ⟨hmissing, args, hargs⟩

theorem isSome_slot_of_gathers {i : Inflow} {C : Block}
    (h : C.HasTypes C.locals.returnSlot.toList i.slot.toList) :
    i.slot.isSome = C.locals.returnSlot.isSome := by
  have hlength := h.length_eq
  cases hi : i.slot <;> cases hC : C.locals.returnSlot <;> simp_all

/-- A new block and the jumps to it agree on what its parameters stand for. The live values of the
new block are its parameters; a variable of the context has a value there if all predecessors have
one, and a warning is reported if only some have. A predecessor whose live values have not changed
since then passes its own values of just these things, or fails since it has no return slot. -/
theorem newChild_agrees_jump {s' : Builder} {context child : BlockId} {preds : List BlockId}
    (h : Runs (newChild context preds) s child s') :
    ∃ C K, s.graph.block? context = some C ∧ s'.graph.block? child = some K ∧
      K.locals.liveRegisters = (List.range K.parameters.length).map Register.mk ∧
      K.locals.symbols.keys = C.locals.symbols.keys ∧
      (∀ name ∈ C.locals.symbols.keys,
        K.locals.holds name = true ↔ ∀ p ∈ preds, s.graph.HasValue p name) ∧
      (∃ lost : List String, s'.diagnostics = s.diagnostics ++ lost.map .lossOfValue ∧
        lost.Nodup ∧ lost.Sublist C.locals.symbols.keys ∧
        ∀ name ∈ C.locals.symbols.keys, name ∈ lost ↔
          (∃ p ∈ preds, s.graph.HasValue p name) ∧ ∃ p ∈ preds, ¬s.graph.HasValue p name) ∧
      ∀ p ∈ preds, ∀ P, s.graph.block? p = some P →
        ∀ (qs : List Request) (t : Builder), Runs (Request.runAll qs) s' () t →
          (∃ P', t.graph.block? p = some P' ∧ P'.locals = P.locals) →
          (∀ b c, ((jump p child).run t).result ≠ .error (.shapeMismatch b c)) ∧
          ((∃ b, ((jump p child).run t).result = .error (.missingReturnSlot b)) ↔
            C.locals.returnSlot.isSome = true ∧ P.locals.returnSlot = none) ∧
          ∀ u t', Runs (jump p child) t u t' → ∃ Q r args, t'.graph.block? p = some Q ∧
            Q.terminator = some (.goto ⟨r, args⟩) ∧ Q.staticTarget? r = some child ∧
            args.length = K.parameters.length ∧ P.locals.Passes K.locals args := by
  obtain ⟨i, hgather, rfl, rfl⟩ := runs_newChild.1 h
  obtain ⟨C, hC, hsymbols, hslot⟩ := hgather.context
  have hchild : (s.addChild preds i).graph.block? s.graph.nextId = some (i.block s.graph.nextId) := by
    simp
  refine ⟨C, i.block s.graph.nextId, hC, hchild, i.liveRegisters_eq,
    hsymbols ▸ i.locals_keys, fun name hname => ?_, ⟨_, rfl, ?_, ?_, fun name hname => ?_⟩,
    fun p hp P hP qs t hqs hkept => ?_⟩
  · rw [← hsymbols] at hname
    change i.locals.holds name = true ↔ _
    rw [i.locals_holds hname, hgather.held, Graph.allHold_iff]
  · exact i.symbols.nodup.filter _
  · exact hsymbols ▸ List.filter_sublist
  · rw [← hsymbols] at hname
    rw [List.mem_filter, Bool.and_eq_true, Bool.not_eq_true', ← Bool.not_eq_true, hgather.held,
      Graph.someHold_iff, Graph.allHold_iff]
    simp only [hname, true_and, not_forall, exists_prop]
  · -- Parameters and signature of the new block are the same at any later time.
    obtain ⟨P', hP', hlocals⟩ := hkept
    obtain ⟨K, hK, hext⟩ := (develops_runAll hqs).extends_ _ _ hchild
    have hsignature : K.signature = i.signature := hext.signature
    rw [← isSome_slot_of_gathers hslot]
    rcases arguments_of_gathers hgather hp hP s.graph.nextId with
      ⟨hsome, hnone, hargs⟩ | ⟨hnot, args, hargs⟩
    · rw [← hlocals, ← hsignature] at hargs
      have hfails := jump_error hP' hK hargs
      refine ⟨by simp [hfails], by simp [hfails, hsome, hnone], fun u t' hrun => ?_⟩
      rw [Runs, hfails] at hrun
      cases hrun
    · have hargs' := hargs
      rw [← hlocals, ← hsignature] at hargs'
      have hmeets := meets_jump hP' hK hargs'
      refine ⟨fun b c hfails => (hmeets.error hfails).1 b c rfl, ⟨?_, fun hmissing => (hnot hmissing).elim⟩,
        fun u t' hrun => ?_⟩
      · rintro ⟨b, hfails⟩
        exact ((hmeets.error hfails).2 b rfl).elim
      obtain ⟨Q, T, args₁, hQ, hT, -, hargs₁, -, rfl⟩ := runs_jump.1 hrun
      obtain rfl := Option.some.inj (hP'.symm.trans hQ)
      obtain rfl := Option.some.inj (hK.symm.trans hT)
      obtain rfl := Except.ok.inj (hargs'.symm.trans hargs₁)
      exact ⟨_, _, args, updateBlock_self hP' _, rfl, P'.staticTarget?_refer _ _, i.passes hargs⟩

def diverging : List Request :=
  [.act (.addBlock []), .emit ⟨0⟩ (.literal (.bool true)) (.prim .bool),
    .act (.define ⟨0⟩ "x" ⟨.prim .bool, some ⟨0⟩⟩), .act (.define ⟨0⟩ "y" ⟨.prim .u8, none⟩),
    .act (.branch ⟨0⟩ ⟨0⟩), .emit ⟨1⟩ (.literal (.u8 7)) (.prim .u8), .act (.rebind ⟨1⟩ "y" ⟨1⟩),
    .act (.define ⟨1⟩ "z" ⟨.prim .u8, some ⟨1⟩⟩)]

theorem newChild_agrees_jump_of_diverging :
    ∃ s child s' t, Runs (Request.runAll diverging) {} () s ∧
      Runs (newChild ⟨0⟩ [⟨1⟩, ⟨2⟩]) s child s' ∧ Runs (jump ⟨1⟩ child) s' () t ∧
      ∃ P K Q r args, s.graph.block? ⟨1⟩ = some P ∧ s'.graph.block? child = some K ∧
        t.graph.block? ⟨1⟩ = some Q ∧ Q.terminator = some (.goto ⟨r, args⟩) ∧
        args.length = K.parameters.length ∧ P.locals.Passes K.locals args := by
  obtain ⟨⟨u, t⟩, h⟩ := exists_eq_ok (x := (StateT.run (do
    Request.runAll diverging
    jump ⟨1⟩ (← newChild ⟨0⟩ [⟨1⟩, ⟨2⟩])) {}).result) (by decide +kernel)
  obtain ⟨_, s, hs, child, s', hchild, hjump⟩ : ∃ v s, Runs (Request.runAll diverging) {} v s ∧
      ∃ child s', Runs (newChild ⟨0⟩ [⟨1⟩, ⟨2⟩]) s child s' ∧ Runs (jump ⟨1⟩ child) s' u t := by
    simpa only [Runs.bind_iff] using (show Runs _ _ _ _ from h)
  obtain ⟨C, K, -, hK, -, -, -, -, hjoins⟩ := newChild_agrees_jump hchild
  obtain ⟨i, hgather, -, rfl⟩ := runs_newChild.1 hchild
  obtain ⟨P, hP, -⟩ := hgather.depth ⟨1⟩ (by simp)
  have hkept : (s.addChild [⟨1⟩, ⟨2⟩] i).graph.block? ⟨1⟩ = some P :=
    (moves_newChild hchild).keeps _ P (by simp) hP
  obtain ⟨-, -, hpass⟩ := hjoins ⟨1⟩ (by simp) P hP [] _ (Runs.forM_nil.2 rfl) ⟨P, hkept, rfl⟩
  obtain ⟨Q, r, args, hQ, hexit, -, hlength, hargs⟩ := hpass u t hjump
  exact ⟨s, child, _, t, hs, hchild, hjump, P, K, Q, r, args, hP, hK, hQ, hexit, hlength, hargs⟩

end Builder

end BlockGraph
