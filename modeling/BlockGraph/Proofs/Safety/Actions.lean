import BlockGraph.Proofs.Safety.Shapes

namespace BlockGraph

abbrev Fault.Excused (e : Fault) : Prop := e.isInternal = false

namespace SymbolTable

variable {t : SymbolTable} {name : String} {e : Fault}

theorem define_error {x : Symbol} (h : t.define name x = .error e) : e = .duplicateSymbol name := by
  unfold define at h
  split at h
  · simp at h
  · exact (Except.error.inj h).symm

theorem rebind_error {r : Register} (h : t.rebind name r = .error e) : e = .unknownSymbol name := by
  unfold rebind at h
  split at h
  · simp at h
  · exact (Except.error.inj h).symm

end SymbolTable

namespace Block

variable {B : Block} {σ τ : Shape} {rs : List Register}

theorem Has.withSymbols (h : B.Has σ) {symbols : SymbolTable}
    (hs : ∀ e ∈ B.locals.symbols.entries, e.2.register.isSome = true →
      ∃ e' ∈ symbols.entries, e'.1 = e.1 ∧ e'.2.register.isSome = true) :
    (B.withLocals { B.locals with symbols }).Has σ := by
  refine ⟨h.slot, fun n hn => ?_, h.depth⟩
  obtain ⟨e, he, rfl, hsome⟩ := Locals.holds_iff.1 (h.held n hn)
  exact Locals.holds_iff.2 (hs e he hsome)

theorem Has.withStack (h : B.Has σ) (hslot : τ.slot = σ.slot) (hheld : τ.held = σ.held)
    (hdepth : rs.length = τ.depth) : (B.withLocals { B.locals with stack := rs }).Has τ :=
  ⟨hslot ▸ h.slot, hheld ▸ h.held, hdepth⟩

theorem exists_hasTypes (h : ∀ r ∈ rs, B.contains r = true) : ∃ ts, B.HasTypes rs ts :=
  exists_forall₂ fun r hr => Option.isSome_iff_exists.1 ((B.typeOf?_isSome r).trans (h r hr))

theorem checkEdge_error {e : Edge} {f : Fault} (ht : B.contains e.target = true)
    (hargs : ∀ r ∈ e.arguments, B.contains r = true) (h : B.checkEdge e = .error f) : f.Excused := by
  obtain ⟨t, ht⟩ := Option.isSome_iff_exists.1 ((B.typeOf?_isSome _).trans ht)
  obtain ⟨ts, hts⟩ := exists_hasTypes hargs
  have hfound := mapM_typeOf_eq_ok.2 hts
  have htype : B.typeOf e.target = .ok t := by simp [typeOf, ht]
  unfold checkEdge at h
  rw [htype] at h
  cases t with
  | blockRef expected =>
    simp only [Bind.bind, Except.bind, hfound] at h
    split at h
    · cases h
      rfl
    · cases h
  | prim | object | array =>
    cases h
    rfl

end Block

namespace Builder

variable {B : Block} {name : String}

abbrev Safe {α : Type} (x : BuildM α) (s : Builder) (Q : α → Builder → Prop) : Prop :=
  BlockGraph.Tidies Fault.Excused Tidy (·.graph) x s Q

variable {s : Builder} {b c : BlockId} {r : Register} {t : ValueType} {σ τ : Shape}

theorem safe_read {α : Type} {x : BuildM α} {Q : α → Prop}
    (h : s.Tidy → ∃ a, Runs x s a s ∧ Q a) : Safe x s fun a s' => s' = s ∧ Q a := by
  intro hs
  obtain ⟨a, hrun, hQ⟩ := h hs
  exact .of_run hrun ⟨hs, .refl _, rfl, hQ⟩

theorem typed_of_live (hs : s.Tidy) (hB : s.graph.block? b = some B)
    (hr : r ∈ B.locals.liveRegisters) : s.graph.Typed b r := by
  obtain ⟨t, ht, hproper⟩ := (hs.blocks b B hB).live r hr
  exact ⟨B, t, hB, ht, hproper⟩

theorem safe_locals (hb : s.graph.Shaped b σ) :
    Safe (locals b) s fun l s' => s' = s ∧ ∃ B, s.graph.block? b = some B ∧ l = B.locals := by
  obtain ⟨B, hB, -⟩ := hb
  exact safe_read fun _ => ⟨B.locals, runs_locals.2 ⟨B, hB, rfl, rfl⟩, B, hB, rfl⟩

theorem safe_typeOf (hr : s.graph.Typed b r) :
    Safe (typeOf b r) s fun t s' => s' = s ∧ s.graph.Proper t ∧
      ∃ B, s.graph.block? b = some B ∧ B.typeOf? r = some t := by
  obtain ⟨B, t, hB, ht, hproper⟩ := hr
  exact safe_read fun _ => ⟨t, runs_typeOf.2 ⟨B, hB, ht, rfl⟩, hproper, B, hB, ht⟩

theorem safe_lastRegister (hb : s.graph.Open b σ) (hv : s.graph.Valued b) :
    Safe (lastRegister b) s fun r s' => s' = s ∧ s.graph.Typed b r := by
  obtain ⟨r, hr⟩ := hv
  obtain ⟨B, hB, hopen, -⟩ := hb
  refine safe_read fun hs => ?_
  have hcount : B.registerCount ≠ 0 := by
    have := Block.contains_iff.1 (hr.contains hB)
    omega
  have hlast : B.lastRegister? = some ⟨B.registerCount - 1⟩ := by
    rw [Block.lastRegister?, if_neg hcount]
  exact ⟨_, runs_lastRegister.2 ⟨B, hB, hlast, rfl⟩,
    typed_of_isOpen hs ⟨B, hB, hopen⟩ hB (Block.contains_of_lastRegister? hlast)⟩

theorem safe_peek {n k : Nat} (hb : s.graph.Open b (σ.deeper n)) (hk : k < n) :
    Safe (peek b k) s fun r s' => s' = s ∧ s.graph.Typed b r := by
  obtain ⟨B, hB, -, hhas⟩ := hb
  refine safe_read fun hs => ?_
  have hlen : k < B.locals.stack.reverse.length := by
    have hdepth : B.locals.stack.length = σ.depth + n := hhas.depth
    rw [List.length_reverse]
    omega
  have hget := List.getElem?_eq_getElem hlen
  refine ⟨_, runs_peek.2 ⟨B, hB, hget, rfl⟩, typed_of_live hs hB ?_⟩
  exact Locals.mem_liveRegisters.2 (.inr (.inr (List.mem_reverse.1 (List.getElem_mem hlen))))

theorem safe_emit {op : Operation} (hb : s.graph.Open b σ)
    (hops : ∀ o ∈ op.operands, s.graph.Typed b o) (hplain : s.graph.Plain ⟨op, t⟩)
    (ht : s.graph.Proper t) :
    Safe (emit b op t) s fun r s' => s'.graph.Open b σ ∧ s'.graph.Typed b r := by
  refine ((tidies_emit hplain ht).guard_and fun _ => ?_).imp fun r s' _ h => ⟨h.2, h.1.2⟩
  obtain ⟨B, hB, hopen, hhas⟩ := hb
  exact .of_run (runs_emit.2 ⟨B, hB, hopen, fun o ho => (hops o ho).contains hB, rfl, rfl⟩)
    ⟨_, updateBlock_self hB _, hopen, hhas.push _⟩

theorem safe_inert {op : Operation} (hb : s.graph.Open b σ)
    (hops : ∀ o ∈ op.operands, s.graph.Typed b o) (hop : op.isInert = true)
    (ht : s.graph.Proper t) :
    Safe (emit b op t) s fun r s' => s'.graph.Open b σ ∧ s'.graph.Typed b r :=
  safe_emit hb hops (.of_inert hop) ht

theorem safe_copy (hb : s.graph.Open b σ) (hr : s.graph.Typed b r) :
    Safe (copy b r) s fun r' s' => s'.graph.Open b σ ∧ s'.graph.Typed b r' := by
  refine (safe_typeOf hr).bind ?_
  rintro t s' - ⟨rfl, ht, -⟩
  exact safe_inert hb (by simpa [Operation.operands] using hr) rfl ht

theorem safe_emitRef (hb : s.graph.Open b σ) (hc : s.graph.IsTarget c)
    (ht : ∀ C, s.graph.block? c = some C → s.graph.Proper (.blockRef C.parameterTypes)) :
    Safe (emitRef b c) s fun r s' => s'.graph.Open b σ ∧ s'.graph.Typed b r := by
  have ⟨C, hC, _⟩ := hc
  have hread : Safe (block c) s fun C' s' => s' = s ∧ C' = C :=
    safe_read fun _ => ⟨C, runs_block.2 ⟨hC, rfl⟩, rfl⟩
  refine hread.bind ?_
  rintro C' s' - ⟨rfl, rfl⟩
  exact safe_emit hb (by simp [Operation.operands]) (.of_blockRef hc) (ht _ hC)

theorem meets_define {x : Symbol} (hb : s.graph.Open b σ) :
    Meets Fault.Excused (define b name x) s fun _ s' => s'.graph.Open b σ := by
  obtain ⟨B, hB, hopen, hhas⟩ := hb
  refine .run_bind (runs_locals.2 ⟨B, hB, rfl, rfl⟩) ?_
  refine (Meets.lift_except fun e he => SymbolTable.define_error he ▸ rfl).bind ?_
  rintro symbols s' - ⟨hdef, rfl⟩
  refine .of_run (a := ()) (runs_setLocals.2 ⟨⟨B, hB⟩, rfl⟩) ⟨_, updateBlock_self hB _, hopen, ?_⟩
  refine hhas.withSymbols fun e he hsome => ⟨e, ?_, rfl, hsome⟩
  rw [SymbolTable.define_entries hdef]
  exact List.mem_append_left _ he

theorem safe_define {x : Symbol} (hb : s.graph.Open b σ) (ht : s.graph.Proper x.type)
    (hr : ∀ r, x.register = some r → s.graph.Typed b r) :
    Safe (define b name x) s fun _ s' => s'.graph.Open b σ :=
  (tidies_define ht hr).guard fun _ => meets_define hb

theorem safe_rebind (hb : s.graph.Open b σ) (hr : s.graph.Typed b r) :
    Safe (rebind b name r) s fun _ s' => s'.graph.Open b σ := by
  refine (tidies_rebind hb.isOpen hr).guard fun _ => ?_
  obtain ⟨B, hB, hopen, hhas⟩ := hb
  refine .run_bind (runs_locals.2 ⟨B, hB, rfl, rfl⟩) ?_
  refine (Meets.lift_except fun e he => SymbolTable.rebind_error he ▸ rfl).bind ?_
  rintro symbols s' - ⟨hbind, rfl⟩
  refine .of_run (a := ()) (runs_setLocals.2 ⟨⟨B, hB⟩, rfl⟩) ⟨_, updateBlock_self hB _, hopen, ?_⟩
  refine hhas.withSymbols fun e he hsome => ?_
  rw [SymbolTable.rebind_entries hbind]
  refine ⟨_, List.mem_map_of_mem he, ?_, ?_⟩ <;> split <;> simp [hsome]

theorem safe_pushLast (hb : s.graph.Open b σ) (hv : s.graph.Valued b) :
    Safe (pushLast b) s fun _ s' => s'.graph.Open b (σ.deeper 1) := by
  refine (tidies_pushLast hb.isOpen).guard fun hs => ?_
  refine ((safe_lastRegister hb hv) hs).bind ?_
  rintro r s' - ⟨-, -, rfl, hr⟩
  obtain ⟨B, hB, hopen, hhas⟩ := hb
  refine .of_run (a := ()) (runs_push.2 ⟨B, hB, hr.contains hB, rfl⟩) ⟨_, updateBlock_self hB _, hopen, ?_⟩
  exact hhas.withStack rfl rfl (by simp [Shape.deeper, hhas.depth])

theorem safe_popMany {n : Nat} (hb : s.graph.Open b (σ.deeper n)) :
    Safe (popMany b n) s fun rs s' => s'.graph.Open b σ ∧ rs.length = n ∧
      ∀ r ∈ rs, s'.graph.Typed b r := by
  intro hs
  by_cases hn : n = 0
  · subst hn
    exact .of_run (runs_popMany.2 (.inl ⟨rfl, rfl, rfl⟩)) ⟨hs, .refl _, hb, rfl, by simp⟩
  obtain ⟨B, hB, hopen, hhas⟩ := hb
  have hdepth : B.locals.stack.length = σ.depth + n := hhas.depth
  have hrun : Runs (popMany b n) s (B.locals.stack.drop σ.depth) _ :=
    runs_popMany.2 (.inr ⟨hn, B, B.locals.stack.take σ.depth, hB, (List.take_append_drop ..).symm,
      by simp [hdepth], rfl⟩)
  obtain ⟨hs', hpres, -⟩ := (tidies_popMany hs).holds hrun
  refine .of_run hrun ⟨hs', hpres, ⟨_, updateBlock_self hB _, hopen, ?_⟩, by simp [hdepth], ?_⟩
  · exact hhas.withStack rfl rfl (by simp [hdepth])
  · intro r hr
    have hlive : r ∈ B.locals.liveRegisters :=
      Locals.mem_liveRegisters.2 (.inr (.inr (List.mem_of_mem_drop hr)))
    exact (typed_of_live hs hB hlive).mono hpres

theorem safe_pop (hb : s.graph.Open b (σ.deeper 1)) :
    Safe (pop b) s fun r s' => s'.graph.Open b σ ∧ s'.graph.Typed b r := by
  refine (safe_popMany hb).bind ?_
  rintro rs s' - ⟨hb, hlen, hrs⟩
  obtain ⟨r, rfl⟩ := List.length_eq_one_iff.1 hlen
  exact .pure ⟨hb, hrs r (by simp)⟩

theorem meets_edge {C : Block} (hB : s.graph.block? b = some B) (hopen : B.isTerminated = false)
    (hC : s.graph.block? c = some C) (hfits : C.signature.Fits B.locals)
    (hlive : ∀ r ∈ B.locals.liveRegisters, B.contains r = true) :
    Meets Fault.Excused (edge b c) s fun _ s' =>
      s' = s.updateBlock b (·.refer c C.parameterTypes) := by
  obtain ⟨args, hargs, hmem⟩ := hfits.arguments b c
  refine .run_bind (runs_block.2 ⟨hC, rfl⟩) (.run_bind (runs_locals.2 ⟨B, hB, rfl, rfl⟩) ?_)
  refine .run_bind (Runs.lift_except_iff.2 ⟨hargs, rfl⟩) ?_
  refine .run_bind (runs_emitRef.2 ⟨C, B, hC, hB, hopen, rfl, rfl⟩) ?_
  refine .run_bind (runs_block.2 ⟨updateBlock_self hB _, rfl⟩) ?_
  have hcontains {r : Register} (hr : B.contains r = true) :
      (B.refer c C.parameterTypes).contains r = true := (Block.Extends.push hopen _).contains hr
  refine (Meets.lift_except fun e he => ?_).bind ?_
  · exact Block.checkEdge_error (by simp [Block.contains, Block.refer, Block.push, Block.registerCount])
      (fun r hr => hcontains (hlive r (hmem r hr))) he
  · rintro _ s' - ⟨-, rfl⟩
    exact .pure rfl

theorem Tidy.contains (hs : s.Tidy) (hB : s.graph.block? b = some B) :
    ∀ r ∈ B.locals.liveRegisters, B.contains r = true := fun _ hr =>
  (typed_of_live hs hB hr).contains hB

theorem safe_jump (hb : s.graph.Open b σ) (hacc : s.graph.Accepts c σ) (hc : s.graph.IsTarget c) :
    Safe (jump b c) s fun _ _ => True := by
  refine (tidies_jump hc).guard fun hs => ?_
  obtain ⟨B, hB, hopen, hhas⟩ := hb
  obtain ⟨C, hC, hacc⟩ := hacc
  refine (meets_edge hB hopen hC (hhas.fits hacc) (hs.contains hB)).bind ?_
  rintro e s' - rfl
  exact .of_run (a := ()) (runs_terminate.2 ⟨_, updateBlock_self hB _, hopen, rfl⟩) trivial

theorem safe_branchTo {d : BlockId} (hb : s.graph.Open b σ) (haccc : s.graph.Accepts c σ)
    (haccd : s.graph.Accepts d σ) (hc : s.graph.IsTarget c) (hd : s.graph.IsTarget d) (hbd : d ≠ b) :
    Safe (branchTo b r c d) s fun _ _ => True := by
  refine (tidies_branchTo hc hd).guard fun hs => ?_
  obtain ⟨B, hB, hopen, hhas⟩ := hb
  obtain ⟨C, hC, haccc⟩ := haccc
  obtain ⟨D, hD, haccd⟩ := haccd
  refine (meets_edge hB hopen hC (hhas.fits haccc) (hs.contains hB)).bind ?_
  rintro e s' - rfl
  have hB₁ := updateBlock_self hB (·.refer c C.parameterTypes)
  have hlive : ∀ r ∈ B.locals.liveRegisters, (B.refer c C.parameterTypes).contains r = true :=
    fun r hr => (Block.Extends.push hopen _).contains (hs.contains hB r hr)
  refine (meets_edge hB₁ hopen ((updateBlock_other _ hbd _).trans hD) (hhas.fits haccd) hlive).bind ?_
  rintro e' s' - rfl
  exact .of_run (a := ()) (runs_terminate.2 ⟨_, updateBlock_self hB₁ _, hopen, rfl⟩) trivial

theorem meets_goto {e : Edge} (hB : s.graph.block? b = some B) (hopen : B.isTerminated = false)
    (ht : B.contains e.target = true) (hargs : ∀ r ∈ e.arguments, B.contains r = true) :
    Meets Fault.Excused (goto b e) s fun _ s' => s' = s.updateBlock b (·.close (.goto e)) := by
  refine .run_bind (runs_block.2 ⟨hB, rfl⟩) ?_
  refine (Meets.lift_except fun f hf => Block.checkEdge_error ht hargs hf).bind ?_
  rintro _ s' - ⟨-, rfl⟩
  exact .of_run (a := ()) (runs_terminate.2 ⟨B, hB, hopen, rfl⟩) rfl

theorem safe_finish (hb : s.graph.Open b σ) : Safe (finish b) s fun _ _ => True := by
  refine tidies_finish.guard fun _ => ?_
  obtain ⟨B, hB, hopen, -⟩ := hb
  exact .of_run (a := ()) (runs_finish.2 ⟨B, hB, hopen, rfl⟩) trivial

end Builder

end BlockGraph
