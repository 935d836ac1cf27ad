import BlockGraph.Proofs.Linearity.Calls

namespace BlockGraph

def Tidies {σ α : Type} (E : Fault → Prop) (ok : σ → Prop) (graph : σ → Graph)
    (x : StateT σ Logged α) (s : σ) (Q : α → σ → Prop) : Prop :=
  ok s → Meets E x s fun a s' => ok s' ∧ (graph s).Preserves (graph s') ∧ Q a s'

namespace Tidies

variable {σ α β : Type} {E : Fault → Prop} {ok : σ → Prop} {graph : σ → Graph} {s : σ}
  {x : StateT σ Logged α} {P Q : α → σ → Prop}

theorem run_bind {f : α → StateT σ Logged β} {R : β → σ → Prop} (hx : Tidies E ok graph x s P)
    (hf : ∀ a t, Runs x s a t → (graph s).Preserves (graph t) → P a t →
      Tidies E ok graph (f a) t R) : Tidies E ok graph (x >>= f) s R := by
  intro hs
  refine (hx hs).bind fun a t hrun ⟨ht, hpres, hP⟩ => (hf a t hrun hpres hP ht).imp ?_
  rintro b u - ⟨hu, hpres', hR⟩
  exact ⟨hu, hpres.trans hpres', hR⟩

theorem bind {f : α → StateT σ Logged β} {R : β → σ → Prop} (hx : Tidies E ok graph x s P)
    (hf : ∀ a t, (graph s).Preserves (graph t) → P a t → Tidies E ok graph (f a) t R) :
    Tidies E ok graph (x >>= f) s R :=
  hx.run_bind fun a t _ => hf a t

theorem pure {a : α} (h : Q a s) : Tidies E ok graph (Pure.pure a) s Q :=
  fun hs => .pure ⟨hs, .refl _, h⟩

theorem throw {e : Fault} (h : E e) :
    Tidies E ok graph (MonadExcept.throw e : StateT σ Logged α) s Q :=
  fun _ => .throw h

theorem run_imp (hx : Tidies E ok graph x s P)
    (h : ∀ a t, Runs x s a t → (graph s).Preserves (graph t) → P a t → Q a t) :
    Tidies E ok graph x s Q := by
  intro hs
  refine (hx hs).imp ?_
  rintro a t hrun ⟨ht, hpres, hP⟩
  exact ⟨ht, hpres, h a t hrun hpres hP⟩

theorem imp (hx : Tidies E ok graph x s P)
    (h : ∀ a t, (graph s).Preserves (graph t) → P a t → Q a t) : Tidies E ok graph x s Q :=
  hx.run_imp fun a t _ => h a t

theorem look (h : ∀ a s', ok s → Runs x s a s' → s' = s ∧ Q a s) :
    Tidies (fun _ => True) ok graph x s Q := by
  refine fun hs => .of_runs fun a s' hrun => ?_
  obtain ⟨rfl, hQ⟩ := h a s' hs hrun
  exact ⟨hs, .refl _, hQ⟩

theorem guard_and (hx : Tidies (fun _ => True) ok graph x s P) (h : ok s → Meets E x s Q) :
    Tidies E ok graph x s fun a t => P a t ∧ Q a t := by
  intro hs
  refine (h hs).imp fun a t hrun hQ => ?_
  obtain ⟨ht, hpres, hP⟩ := (hx hs).holds hrun
  exact ⟨ht, hpres, hP, hQ⟩

theorem guard (hx : Tidies (fun _ => True) ok graph x s P) (h : ok s → Meets E x s Q) :
    Tidies E ok graph x s Q :=
  (hx.guard_and h).imp fun _ _ _ h => h.2

theorem ite {c : Prop} [Decidable c] {y : StateT σ Logged α} (hx : c → Tidies E ok graph x s Q)
    (hy : ¬c → Tidies E ok graph y s Q) : Tidies E ok graph (if c then x else y) s Q := by
  split
  case isTrue h => exact hx h
  case isFalse h => exact hy h

theorem forM {f : α → StateT σ Logged PUnit} {as : List α} {I : σ → Prop} (hs : I s)
    (h : ∀ a ∈ as, ∀ t, I t → Tidies E ok graph (f a) t fun _ t' => I t') :
    Tidies E ok graph (as.forM f) s fun _ t => I t := by
  induction as generalizing s with
  | nil => exact .pure hs
  | cons a as ih =>
    exact (h a (by simp) s hs).bind fun _ _ _ ht => ih ht fun a' ha' => h a' (by simp [ha'])

end Tidies

namespace Graph

variable {g g' : Graph} {b : BlockId} {r : Register}

def Typed (g : Graph) (b : BlockId) (r : Register) : Prop :=
  ∃ B t, g.block? b = some B ∧ B.typeOf? r = some t ∧ g.Proper t

theorem Typed.mono (h : g.Typed b r) (hg : g.Preserves g') : g'.Typed b r := by
  obtain ⟨B, t, hB, ht, hproper⟩ := h
  obtain ⟨B', hB', hext, -⟩ := hg.blocks b B hB
  exact ⟨B', t, hB', hext.typeOf? ht, hproper.mono hg⟩

end Graph

namespace Builder

abbrev Tidies {α : Type} (x : BuildM α) (s : Builder) (Q : α → Builder → Prop) : Prop :=
  BlockGraph.Tidies (fun _ => True) Tidy (·.graph) x s Q

variable {s : Builder} {b c : BlockId} {r : Register} {t : ValueType}

theorem tidies_emit {op : Operation} (hplain : s.graph.Plain ⟨op, t⟩) (ht : s.graph.Proper t) :
    Tidies (emit b op t) s fun r s' => s'.graph.IsOpen b ∧ s'.graph.Typed b r := by
  refine fun hs => .of_runs fun r s' hrun => ?_
  obtain ⟨B, hB, hopen, hops, rfl, rfl⟩ := runs_emit.1 hrun
  have hself := updateBlock_self hB (·.push ⟨op, t⟩)
  have hkeeps := hs.update hB (f := (·.push ⟨op, t⟩)) (.push hopen _) rfl (fun q i hq => ?_)
    ((hs.blocks b B hB).push hopen hops hplain.toKnows ht)
  · exact ⟨hkeeps.tidy, hkeeps.preserves, ⟨_, hself, hopen⟩, _, t, hself, B.typeOf?_push_last _,
      ht.mono hkeeps.preserves⟩
  · rcases Block.instruction?_pushAll_cases (B := B) hq with hq | ⟨k, -, hk⟩
    · exact .inl hq
    · exact .inr (List.mem_singleton.1 (List.mem_of_getElem? hk) ▸ hplain)

theorem tidies_copy : Tidies (copy b r) s fun r' s' => s'.graph.IsOpen b ∧ s'.graph.Typed b r' := by
  refine fun hs => .of_runs fun r' s' hrun => ?_
  obtain ⟨B, t, hB, hopen, ht, rfl, rfl⟩ := runs_copy.1 hrun
  refine (tidies_emit (b := b) (t := t) (.of_inert rfl)
    ((hs.blocks b B hB).types hopen r t ht) hs).holds (runs_emit.2 ⟨B, hB, hopen, ?_, rfl, rfl⟩)
  simpa [Operation.operands] using Block.contains_of_typeOf? ht

theorem tidies_emitRef (hc : s.graph.IsTarget c)
    (ht : ∀ C, s.graph.block? c = some C → s.graph.Proper (.blockRef C.parameterTypes)) :
    Tidies (emitRef b c) s fun _ s' => s'.graph.IsOpen b := by
  refine fun hs => .of_runs fun r' s' hrun => ?_
  obtain ⟨C, B, hC, hB, hopen, rfl, rfl⟩ := runs_emitRef.1 hrun
  obtain ⟨htidy, hpres, hb, -⟩ := (tidies_emit (b := b) (.of_blockRef hc) (ht C hC) hs).holds
    (runs_emit.2 ⟨B, hB, hopen, by simp [Operation.operands], rfl, rfl⟩)
  exact ⟨htidy, hpres, hb⟩

theorem Tidy.relocate (hs : s.Tidy) {B : Block} (hB : s.graph.block? b = some B) {l : Locals}
    (hslot : l.returnSlot = B.locals.returnSlot)
    (hlive : ∀ r ∈ l.liveRegisters, r ∈ B.locals.liveRegisters ∨ s.graph.Typed b r)
    (hsymbols : ∀ e ∈ l.symbols.entries, s.graph.Proper e.2.type) :
    Keeps s (s.updateBlock b (·.withLocals l)) := by
  refine hs.update hB (.withLocals B l) hslot (fun q i hq => .inl hq)
    ((hs.blocks b B hB).withLocals (fun r hr => ?_) hsymbols)
  rcases hlive r hr with hr | ⟨B', t, hB', ht, hproper⟩
  · exact (hs.blocks b B hB).live r hr
  · obtain rfl := Option.some.inj (hB.symm.trans hB')
    exact ⟨t, ht, hproper⟩

theorem isOpen_withLocals (h : s.graph.IsOpen b) (l : Locals) :
    (s.updateBlock b (·.withLocals l)).graph.IsOpen b := by
  obtain ⟨B, hB, hopen⟩ := h
  exact ⟨_, updateBlock_self hB _, hopen⟩

theorem tidies_define {name : String} {x : Symbol} (ht : s.graph.Proper x.type)
    (hr : ∀ r, x.register = some r → s.graph.Typed b r) :
    Tidies (define b name x) s fun _ _ => True := by
  refine fun hs => .of_runs fun _ s' hrun => ?_
  obtain ⟨B, symbols, hB, hdefine, rfl⟩ := runs_define.1 hrun
  have hentries := SymbolTable.define_entries hdefine
  have hkeeps := hs.relocate hB (l := { B.locals with symbols }) rfl (fun r hlive => ?_) fun e he => ?_
  · exact ⟨hkeeps.tidy, hkeeps.preserves, trivial⟩
  · simp only [Locals.mem_liveRegisters, hentries, List.mem_append, List.mem_singleton] at hlive ⊢
    rcases hlive with hslot | ⟨e, he | rfl, hreg⟩ | hstack
    · exact .inl (.inl hslot)
    · exact .inl (.inr (.inl ⟨e, he, hreg⟩))
    · exact .inr (hr r hreg)
    · exact .inl (.inr (.inr hstack))
  · simp only [hentries, List.mem_append, List.mem_singleton] at he
    rcases he with he | rfl
    · exact (hs.blocks b B hB).symbols e he
    · exact ht

theorem tidies_rebind {name : String} (hopen : s.graph.IsOpen b) (hr : s.graph.Typed b r) :
    Tidies (rebind b name r) s fun _ s' => s'.graph.IsOpen b := by
  refine fun hs => .of_runs fun _ s' hrun => ?_
  obtain ⟨B, symbols, hB, hrebind, rfl⟩ := runs_rebind.1 hrun
  have hentries := SymbolTable.rebind_entries hrebind
  have hkeeps := hs.relocate hB (l := { B.locals with symbols }) rfl (fun r' hlive => ?_) fun e he => ?_
  · exact ⟨hkeeps.tidy, hkeeps.preserves, isOpen_withLocals hopen _⟩
  · simp only [Locals.mem_liveRegisters, hentries, List.mem_map] at hlive ⊢
    rcases hlive with hslot | ⟨_, ⟨e, he, rfl⟩, hreg⟩ | hstack
    · exact .inl (.inl hslot)
    · split at hreg
      · obtain rfl := Option.some.inj hreg
        exact .inr hr
      · exact .inl (.inr (.inl ⟨e, he, hreg⟩))
    · exact .inl (.inr (.inr hstack))
  · simp only [hentries, List.mem_map] at he
    obtain ⟨e', he', rfl⟩ := he
    have hproper := (hs.blocks b B hB).symbols e' he'
    split <;> exact hproper

theorem typed_of_isOpen (hs : s.Tidy) (hopen : s.graph.IsOpen b) {B : Block}
    (hB : s.graph.block? b = some B) (hr : B.contains r = true) : s.graph.Typed b r := by
  obtain ⟨t, ht⟩ := Option.isSome_iff_exists.1 ((B.typeOf?_isSome r).trans hr)
  exact ⟨B, t, hB, ht, (hs.blocks b B hB).types (hopen.isTerminated hB) r t ht⟩

theorem tidies_lastRegister (hopen : s.graph.IsOpen b) :
    Tidies (lastRegister b) s fun r s' => s'.graph.IsOpen b ∧ s'.graph.Typed b r := by
  refine .look fun r s' hs hrun => ?_
  obtain ⟨B, hB, hlast, rfl⟩ := runs_lastRegister.1 hrun
  exact ⟨rfl, hopen, typed_of_isOpen hs hopen hB (Block.contains_of_lastRegister? hlast)⟩

theorem tidies_pushLast (hopen : s.graph.IsOpen b) :
    Tidies (pushLast b) s fun _ s' => s'.graph.IsOpen b := by
  refine fun hs => .of_runs fun _ s' hrun => ?_
  obtain ⟨B, r, hB, hlast, rfl⟩ := runs_pushLast.1 hrun
  have hr := typed_of_isOpen hs hopen hB (Block.contains_of_lastRegister? hlast)
  have hkeeps := hs.relocate hB (l := { B.locals with stack := B.locals.stack ++ [r] }) rfl
    (fun r' hlive => ?_) (hs.blocks b B hB).symbols
  · exact ⟨hkeeps.tidy, hkeeps.preserves, isOpen_withLocals hopen _⟩
  · simp only [Locals.mem_liveRegisters, List.mem_append, List.mem_singleton] at hlive ⊢
    rcases hlive with hslot | hsymbol | hstack | rfl
    · exact .inl (.inl hslot)
    · exact .inl (.inr (.inl hsymbol))
    · exact .inl (.inr (.inr hstack))
    · exact .inr hr

theorem tidies_popMany {n : Nat} : Tidies (popMany b n) s fun _ _ => True := by
  refine fun hs => .of_runs fun rs s' hrun => ?_
  rcases runs_popMany.1 hrun with ⟨-, -, rfl⟩ | ⟨-, B, rest, hB, hstack, -, rfl⟩
  · exact ⟨hs, .refl _, trivial⟩
  · have hkeeps := hs.relocate hB (l := { B.locals with stack := rest }) rfl (fun r hlive => ?_)
      (hs.blocks b B hB).symbols
    · exact ⟨hkeeps.tidy, hkeeps.preserves, trivial⟩
    · simp only [Locals.mem_liveRegisters, hstack, List.mem_append] at hlive ⊢
      exact .inl (hlive.imp_right (.imp_right .inl))

theorem tidies_pop : Tidies (pop b) s fun _ _ => True := by
  refine tidies_popMany.bind fun rs t _ _ => ?_
  split
  · exact .pure trivial
  · exact .throw trivial

end Builder

namespace Inflow

variable {i : Inflow} {g : Graph} {context : BlockId} {preds : List BlockId}

theorem block_not_resumes (i : Inflow) (id : BlockId) : ¬(i.block id).Resumes := by
  intro h
  have hsignature : i.signature = {} := h.signature
  simp only [signature, Signature.mk.injEq, Option.isSome_eq_false_iff, Option.isNone_iff_eq_none,
    List.map_eq_nil_iff, List.length_eq_zero_iff] at hsignature
  obtain ⟨hslot, hcarried, hstack⟩ := hsignature
  exact h.parameters (by simp [block, parameters, hslot, hcarried, hstack])

theorem Gathers.proper (h : i.Gathers g context preds)
    (hg : ∀ c B, g.block? c = some B → B.Tidy g) {id : BlockId} {t : ValueType}
    (ht : t ∈ (i.block id).parameterTypes) : g.Proper t := by
  obtain ⟨C, hC, hsymbols, hslot⟩ := h.context
  obtain ⟨p, P, -, hP, hstack⟩ := h.first
  have hlive {B : Block} {c : BlockId} {rs : List Register} {ts : List ValueType}
      (hB : g.block? c = some B) (hrs : ∀ r ∈ rs, r ∈ B.locals.liveRegisters)
      (hts : B.HasTypes rs ts) (ht : t ∈ ts) : g.Proper t := by
    obtain ⟨r, hr, hrt⟩ := forall₂_mem_right hts ht
    obtain ⟨t', ht', hproper⟩ := (hg c B hB).live r (hrs r hr)
    exact Option.some.inj (hrt.symm.trans ht') ▸ hproper
  rw [block_parameterTypes, List.mem_append, List.mem_append] at ht
  rcases ht with (ht | ht) | ht
  · exact hlive hC (fun r hr => Locals.mem_liveRegisters.2 (.inl (Option.mem_toList.1 hr))) hslot ht
  · obtain ⟨e, he, rfl⟩ := List.mem_map.1 ht
    exact (hg context C hC).symbols e (hsymbols ▸ (List.mem_filter.1 he).1)
  · exact hlive hP (fun r hr => Locals.mem_liveRegisters.2 (.inr (.inr hr))) hstack ht

theorem Gathers.block_tidy (h : i.Gathers g context preds)
    (hg : ∀ c B, g.block? c = some B → B.Tidy g) (id : BlockId) : (i.block id).Tidy g := by
  have htypes (r : Register) (t : ValueType)
      (hr : (i.slot.toList ++ i.carried.map (·.2.type) ++ i.stack)[r.index]? = some t) :
      ∃ t, (i.block id).parameterTypes[r.index]? = some t :=
    ⟨t, by rw [block_parameterTypes i id, hr]⟩
  refine .of_parameters rfl (fun t ht => h.proper hg ht) (fun r hr => ?_) fun e he => ?_
  · rcases Locals.mem_liveRegisters.1 hr with hslot | ⟨e, he, hreg⟩ | hstack
    · obtain ⟨t, -, ht⟩ := forall₂_mem_left
        (i.forall₂_slot (·.2.type) rfl) (Option.mem_toList.2 hslot)
      exact htypes r _ ht
    · obtain ⟨e', -, -, -, -, ht⟩ := forall₂_mem_right
        (i.forall₂_symbols (·.2.type) i.stack rfl) he
      exact htypes r _ (ht r hreg)
    · obtain ⟨t, -, ht⟩ := forall₂_mem_left (i.forall₂_stack (·.2.type) rfl rfl) hstack
      exact htypes r _ ht
  · obtain ⟨C, hC, hsymbols, -⟩ := h.context
    obtain ⟨e', he', -, htype, -⟩ := forall₂_mem_right
      (i.forall₂_symbols (·.2.type) i.stack rfl) he
    rw [htype]
    exact (hg context C hC).symbols e' (hsymbols ▸ he')

end Inflow

namespace Builder

variable {s : Builder} {b c : BlockId} {r : Register} {context : BlockId} {preds : List BlockId}

theorem tidies_newChild : Tidies (newChild context preds) s fun child s' =>
    s'.graph.IsTarget child := by
  refine fun hs => .of_runs fun child s' hrun => ?_
  obtain ⟨i, hi, rfl, rfl⟩ := runs_newChild.1 hrun
  have hkeeps := hs.append rfl (i.block_not_resumes s.graph.nextId) (hi.block_tidy hs.blocks _)
  have hchild : (s.addChild preds i).graph.block? s.graph.nextId = some (i.block s.graph.nextId) := by
    rw [addChild_block?, if_pos rfl]
  exact ⟨⟨hkeeps.tidy.linear, hkeeps.tidy.blocks, hkeeps.tidy.returns⟩, hkeeps.preserves,
    _, hchild, i.block_not_resumes _⟩

theorem Tidy.leave (hs : s.Tidy) {B : Block} (hB : s.graph.block? b = some B)
    (hopen : B.isTerminated = false) (is : List Instruction)
    (his : Block.ReadsBack B.registerCount is) (hplain : ∀ i ∈ is, s.graph.Plain i) (t : Terminator) :
    Keeps s (s.updateBlock b fun B => (B.pushAll is).close t) := by
  refine hs.update hB (f := fun B => (B.pushAll is).close t)
    ((Block.Extends.pushAll hopen is).trans (.close (b := B.pushAll is) hopen t)) rfl
    (fun q i hq => ?_) ((hs.blocks b B hB).leave hopen his (fun i hi => (hplain i hi).toKnows) t)
  rcases Block.instruction?_pushAll_cases (B := B) hq with hq | ⟨k, -, hk⟩
  · exact .inl hq
  · exact .inr (hplain i (List.mem_of_getElem? hk))

theorem tidies_jump (hc : s.graph.IsTarget c) : Tidies (jump b c) s fun _ _ => True := by
  refine fun hs => .of_runs fun _ s' hrun => ?_
  obtain ⟨B, C, args, hB, hC, hopen, -, -, rfl⟩ := runs_jump.1 hrun
  have hkeeps := hs.leave hB hopen [⟨.blockRef c, .blockRef C.parameterTypes⟩]
    (Block.readsBack_singleton (by simp [Operation.operands]))
    (fun i hi => List.mem_singleton.1 hi ▸ .of_blockRef hc) (.goto ⟨⟨B.registerCount⟩, args⟩)
  rw [updateBlock_congr hB (g := fun B' => (B'.pushAll [⟨.blockRef c,
    .blockRef C.parameterTypes⟩]).close (.goto ⟨⟨B.registerCount⟩, args⟩)) rfl]
  exact ⟨hkeeps.tidy, hkeeps.preserves, trivial⟩

theorem tidies_branchTo {d : BlockId} (hc : s.graph.IsTarget c) (hd : s.graph.IsTarget d) :
    Tidies (branchTo b r c d) s fun _ _ => True := by
  refine fun hs => .of_runs fun _ s' hrun => ?_
  obtain ⟨B, C, D, ts, fs, hB, hC, hD, hopen, -, -, -, -, rfl⟩ := runs_branchTo.1 hrun
  let is : List Instruction :=
    [⟨.blockRef c, .blockRef C.parameterTypes⟩, ⟨.blockRef d, .blockRef D.parameterTypes⟩]
  let exit : Terminator := .branch r ⟨⟨B.registerCount⟩, ts⟩ ⟨⟨B.registerCount + 1⟩, fs⟩
  have hkeeps := hs.leave hB hopen is (fun k i hk o ho => ?_) (fun i hi => ?_) exit
  · rw [updateBlock_congr hB (g := fun B' => (B'.pushAll is).close exit) (by
      simp [is, exit, Block.refer, Block.push, Block.pushAll])]
    exact ⟨hkeeps.tidy, hkeeps.preserves, trivial⟩
  · have hi := List.mem_of_getElem? hk
    simp only [is, List.mem_cons, List.not_mem_nil, or_false] at hi
    rcases hi with rfl | rfl <;> simp [Operation.operands] at ho
  · simp only [is, List.mem_cons, List.not_mem_nil, or_false] at hi
    rcases hi with rfl | rfl
    · exact .of_blockRef hc
    · exact .of_blockRef hd

theorem tidies_jumps {bs : List BlockId} (hc : s.graph.IsTarget c) :
    Tidies (bs.forM (jump · c)) s fun _ _ => True := by
  induction bs generalizing s with
  | nil => exact .pure trivial
  | cons b bs ih => exact (tidies_jump hc).bind fun _ t hpres _ => ih (hc.mono hpres)

theorem tidies_converge : Tidies (converge context preds) s fun child s' => s'.graph.IsTarget child :=
  tidies_newChild.bind fun _ _ _ hchild => (tidies_jumps hchild).bind fun _ _ hpres _ =>
    .pure (hchild.mono hpres)

theorem tidies_enter : Tidies (enter b) s fun child s' => s'.graph.IsTarget child :=
  tidies_newChild.bind fun _ _ _ hchild => (tidies_jump hchild).bind fun _ _ hpres _ =>
    .pure (hchild.mono hpres)

theorem tidies_leave : Tidies (leave context b) s fun child s' => s'.graph.IsTarget child :=
  tidies_newChild.bind fun _ _ _ hchild => (tidies_jump hchild).bind fun _ _ hpres _ =>
    .pure (hchild.mono hpres)

theorem tidies_branch : Tidies (branch b r) s fun p s' =>
    s'.graph.IsTarget p.1 ∧ s'.graph.IsTarget p.2 :=
  tidies_newChild.bind fun _ _ _ hc => tidies_newChild.bind fun _ _ hpres hd =>
    (tidies_branchTo (hc.mono hpres) hd).bind fun _ _ hpres' _ =>
      .pure ⟨(hc.mono hpres).mono hpres', hd.mono hpres'⟩

theorem tidies_convergeBranch : Tidies (convergeBranch context preds b r) s fun p s' =>
    s'.graph.IsTarget p.1 ∧ s'.graph.IsTarget p.2 :=
  tidies_newChild.bind fun _ _ _ hc => tidies_newChild.bind fun _ _ hpres hd =>
    (tidies_jumps hd).bind fun _ _ hpres' _ =>
      (tidies_branchTo ((hc.mono hpres).mono hpres') (hd.mono hpres')).bind fun _ _ hpres'' _ =>
        .pure ⟨((hc.mono hpres).mono hpres').mono hpres'', (hd.mono hpres').mono hpres''⟩

theorem tidies_report {d : Diagnostic} : Tidies (report d) s fun _ _ => True := by
  refine fun hs => .of_runs fun _ s' hrun => ?_
  obtain rfl := runs_report.1 hrun
  exact ⟨⟨hs.linear, hs.blocks, hs.returns⟩, .refl _, trivial⟩

theorem tidies_tell {e : Event} : Tidies (tell e) s fun _ s' => s' = s :=
  .look fun _ _ _ hrun => ⟨runs_tell.1 hrun, rfl⟩

theorem tidies_finish : Tidies (finish b) s fun _ _ => True := by
  refine fun hs => .of_runs fun _ s' hrun => ?_
  obtain ⟨B, hB, hopen, rfl⟩ := runs_finish.1 hrun
  have htidy := hs.blocks b B hB
  have hkeeps := hs.update hB (f := ({ · with isFinal := true }))
    ⟨rfl, rfl, rfl, List.prefix_rfl, fun h => by simp [hopen] at h⟩ rfl (fun _ _ hq => .inl hq)
    ⟨htidy.operands, htidy.known, htidy.live, htidy.symbols, fun h => by simp [Block.isTerminated] at h⟩
  exact ⟨hkeeps.tidy, hkeeps.preserves, trivial⟩

theorem Tidy.appendLayout (hs : s.Tidy) {L : Layout} (hL : L.origin ≠ .ofContext) :
    Keeps s (s.appendLayout L) := by
  refine hs.layouts rfl (fun l L' hL' => ⟨L', appendLayout_layout?_of_some hL', rfl⟩) ?_
    fun _ _ hl => .inl hl
  rintro l ⟨L', hL', horigin⟩
  rw [appendLayout_layout?] at hL'
  split at hL'
  · obtain rfl := Option.some.inj hL'
    exact absurd horigin hL
  · exact ⟨L', hL', horigin⟩

theorem tidies_returnLayout {result : ValueType} :
    Tidies (returnLayout result) s fun l s' => s'.graph.IsReturn l := by
  refine fun hs => .of_runs fun l s' hrun => ?_
  rcases runs_returnLayout.1 hrun with ⟨hl, rfl⟩ | ⟨rfl, hnew, hgraph, -, hentries⟩
  · exact ⟨hs, .refl _, hs.returns _ _ hl⟩
  · have hkeeps := hs.appendLayout (L := returning s.layoutId result) nofun
    have hreturn : (s.appendLayout (returning s.layoutId result)).graph.IsReturn s.layoutId :=
      ⟨_, (appendLayout_layout? ..).trans (if_pos rfl), rfl⟩
    rw [← hgraph] at hreturn
    have hpres : s.graph.Preserves s'.graph := hgraph ▸ hkeeps.preserves
    refine ⟨⟨hgraph ▸ hkeeps.tidy.linear, hgraph ▸ hkeeps.tidy.blocks, fun t l hl => ?_⟩, hpres,
      hreturn⟩
    rw [OrderedMap.get?_of_entries hentries hnew] at hl
    split at hl
    · exact Option.some.inj hl ▸ hreturn
    · exact (hs.returns t l hl).mono hpres

theorem tidies_declareClass {name : String} : Tidies (declareClass name) s fun l s' =>
    ∃ L, s'.graph.layout? l = some L ∧ ∃ name, L.origin = .ofClass name := by
  refine fun hs => .of_runs fun l s' hrun => ?_
  obtain ⟨rfl, rfl⟩ := runs_declareClass.1 hrun
  have hkeeps := hs.appendLayout (L := ⟨[], .ofClass name⟩) nofun
  exact ⟨hkeeps.tidy, hkeeps.preserves, _, (appendLayout_layout? ..).trans (if_pos rfl), name, rfl⟩

theorem tidies_defineClass {l : LayoutId} {fields : List ValueType} :
    Tidies (defineClass l fields) s fun _ _ => True := by
  refine fun hs => .of_runs fun _ s' hrun => ?_
  obtain ⟨-, rfl⟩ := runs_defineClass.1 hrun
  have hkeeps : Keeps s (s.setFields l fields) := hs.layouts rfl (fun k L hL => ?_) ?_
    fun _ _ hl => .inl hl
  · exact ⟨hkeeps.tidy, hkeeps.preserves, trivial⟩
  · refine ⟨_, by rw [setFields_layout?, hL]; rfl, ?_⟩
    split <;> rfl
  · rintro k ⟨L', hL', horigin⟩
    rw [setFields_layout?] at hL'
    obtain ⟨L, hL, rfl⟩ := Option.map_eq_some_iff.1 hL'
    refine ⟨L, hL, ?_⟩
    split at horigin <;> exact horigin

end Builder

end BlockGraph
