import BlockGraph.Proofs.Initialization.Paths

namespace BlockGraph

theorem Graph.exists_opens (g : Graph) : ∃ bs, g.Opens bs := by
  classical
  refine ⟨((List.range g.blocks.length).map BlockId.mk).filter fun b => decide (g.IsOpen b), ?_, fun b => ?_⟩
  · refine List.Nodup.filter _ (List.Nodup.map (fun m n h => ?_) List.nodup_range)
    simpa using h
  · simp only [List.mem_filter, List.mem_map, List.mem_range, decide_eq_true_eq]
    refine ⟨fun h => ⟨⟨b.index, ?_, rfl⟩, h⟩, And.right⟩
    obtain ⟨B, hB, -⟩ := h
    exact (List.getElem?_eq_some_iff.1 hB).1

namespace Lowering

open Builder

variable {p : Program} {s : State} {b c d : BlockId} {r : Register}

def State.AllOpen (s : State) (X : List BlockId) : Prop := ∃ R, s.graph.Opens (X ++ R)

section Open

variable {X Y Z : List BlockId} {b : BlockId} {s s' : State}

theorem allOpen_singleton : s.AllOpen [b] ↔ s.graph.IsOpen b := by
  constructor
  · rintro ⟨R, hR⟩
    exact (hR.2 b).2 (by simp)
  · intro hb
    obtain ⟨bs, hbs⟩ := s.graph.exists_opens
    exact ⟨bs.erase b, hbs.perm (List.perm_cons_erase ((hbs.2 b).1 hb))⟩

theorem State.AllOpen.isOpen (h : s.AllOpen X) (hb : b ∈ X) : s.graph.IsOpen b := by
  obtain ⟨R, hR⟩ := h
  exact (hR.2 b).2 (List.mem_append_left R hb)

theorem State.AllOpen.perm (h : s.AllOpen X) (hp : X.Perm Y) : s.AllOpen Y := by
  obtain ⟨R, hR⟩ := h
  exact ⟨R, hR.perm (hp.append_right R)⟩

theorem State.AllOpen.left (h : s.AllOpen (X ++ Y)) : s.AllOpen X := by
  obtain ⟨R, hR⟩ := h
  exact ⟨Y ++ R, by rwa [← List.append_assoc]⟩

theorem Shifts.allOpen {fs : List FunctionId} {cs : List ClassId} (h : Shifts fs cs X s Y s')
    (hX : s.AllOpen X) : s'.AllOpen Y := by
  obtain ⟨E, N, hmoves, -⟩ := h.moves
  obtain ⟨R, hR⟩ := hX
  have hY := hmoves.opens R hR
  rw [List.append_assoc] at hY
  exact ⟨N ++ R, hY⟩

end Open

/-! New blocks. -/

structure NewBlocks (s : Builder) (bs : List BlockId) (s' : Builder) : Prop where
  fresh : ∀ b ∈ bs, s.graph.block? b = none
  born : ∀ b, s'.graph.block? b ≠ none ↔ s.graph.block? b ≠ none ∨ b ∈ bs

section NewBlocks

variable {s s' s'' : Builder} {bs cs : List BlockId}

theorem NewBlocks.of_blocks (h : s'.graph.blocks = s.graph.blocks) : NewBlocks s [] s' :=
  ⟨by simp, fun b => by rw [Graph.block?, h, Graph.block?]; simp⟩

theorem NewBlocks.updateBlock (s : Builder) (b : BlockId) (f : Block → Block) :
    NewBlocks s [] (s.updateBlock b f) := by
  refine ⟨by simp, fun c => ?_⟩
  rw [updateBlock_block?]
  split <;> simp

theorem NewBlocks.trans (h : NewBlocks s bs s') (k : NewBlocks s' cs s'') : NewBlocks s (bs ++ cs) s'' := by
  refine ⟨fun b hb => ?_, fun b => ?_⟩
  · rcases List.mem_append.1 hb with hb | hb
    · exact h.fresh b hb
    · by_contra hold
      exact (h.born b).2 (.inl hold) (k.fresh b hb)
  · rw [k.born, h.born, List.mem_append, or_assoc]

theorem newBlocks_newChild {context : BlockId} {preds : List BlockId}
    (h : Runs (newChild context preds) s c s') : NewBlocks s [c] s' := by
  obtain ⟨-, -, hother, hc⟩ := Origins.Fits.newChild_new h
  have hfresh : s.graph.block? c = none := by
    obtain ⟨i, -, rfl, -⟩ := runs_newChild.1 h
    exact s.graph.block?_nextId
  refine ⟨by simpa using hfresh, fun b => ?_⟩
  by_cases hb : b = c
  · subst hb
    simp [hc]
  · simp [hother b hb, hb]

theorem newBlocks_jump {u : Unit} (h : Runs (jump b c) s u s') : NewBlocks s [] s' := by
  obtain ⟨B, C, args, -, -, -, -, -, rfl⟩ := runs_jump.1 h
  exact .updateBlock s b _

theorem newBlocks_jumps {preds : List BlockId} {u : PUnit} (h : Runs (preds.forM (jump · c)) s u s') :
    NewBlocks s [] s' := by
  induction preds generalizing s with
  | nil =>
    obtain rfl := Runs.forM_nil.1 h
    exact .of_blocks rfl
  | cons b bs ih =>
    obtain ⟨t, hb, hbs⟩ := Runs.forM_cons.1 h
    exact (newBlocks_jump hb).trans (ih hbs)

theorem newBlocks_converge {context : BlockId} {preds : List BlockId}
    (h : Runs (converge context preds) s c s') : NewBlocks s [c] s' := by
  simp only [converge, Runs.bind_iff, Runs.pure_iff] at h
  obtain ⟨_, t, hchild, _, _, hjumps, rfl, rfl⟩ := h
  exact (newBlocks_newChild hchild).trans (newBlocks_jumps hjumps)

theorem newBlocks_convergeBranch {context : BlockId} {preds : List BlockId}
    (h : Runs (convergeBranch context preds b r) s (c, d) s') : NewBlocks s [c, d] s' := by
  simp only [convergeBranch, Runs.bind_iff, Runs.pure_iff, Prod.mk.injEq] at h
  obtain ⟨_, t, hc, _, t', hd, _, t'', hjumps, _, _, hbranch, ⟨rfl, rfl⟩, rfl⟩ := h
  obtain ⟨_, _, _, _, _, -, -, -, -, -, -, -, -, rfl⟩ := runs_branchTo.1 hbranch
  exact ((newBlocks_newChild hc).trans (newBlocks_newChild hd)).trans
    ((newBlocks_jumps hjumps).trans (.updateBlock _ _ _))

theorem newBlocks_lowerCall {s s' : State} {n : Nat} {t : SourceType} (h : Runs (lowerCall b n t) s c s') :
    NewBlocks s.toBuilder [c] s'.toBuilder := by
  obtain ⟨k, q, t', hbegins, rfl, -, hsuspends, -⟩ := runs_lowerCall h
  have hbefore : NewBlocks s.toBuilder [] t'.toBuilder := by
    refine (NewBlocks.updateBlock s.toBuilder b (·.withLocals k.caller.locals)).trans (.of_blocks ?_)
    exact lowerType_blocks hbegins.result
  refine hbefore.trans ⟨by simp [Graph.block?_nextId], fun d => ?_⟩
  by_cases hd : d = t'.graph.nextId
  · subst hd
    simp [hsuspends.resumed]
  · by_cases hb : d = b
    · obtain ⟨B, rest, hB, -⟩ := hbegins.block
      subst hb
      simp [hsuspends.caller, (hbefore.born d).2 (.inl (by simp [hB]))]
    · simp [hsuspends.others d hb hd, hd]

end NewBlocks

theorem runs_branch {s s' : Builder} :
    Runs (branch b r) s (c, d) s' ↔ Runs (convergeBranch b [] b r) s (c, d) s' := by
  simp only [branch, convergeBranch, Runs.bind_iff, Runs.forM_nil]
  simp

/-! What the run makes. -/

section Makes

variable {α : Type} {a : α} {s s' : State} {t : Builder}

theorem makes_act {x : LowerM α} {bs : List BlockId} (h : p.ComesTo (.act x) s) (hx : Runs x s a s')
    (hnew : NewBlocks s.toBuilder bs s'.toBuilder) (hb : b ∈ bs) : p.Makes b (s'.graph.symbols b) :=
  ⟨α, x, s, a, s', h, hx, hnew.fresh b hb, (hnew.born b).2 (.inr hb), rfl⟩

theorem makes_converge {x : BuildM α} {context : BlockId} {preds : List BlockId}
    (h : p.ComesTo (liftM x) s) (hx : Runs x s.toBuilder a t)
    (hrun : Runs (converge context preds) s.toBuilder c t) : p.Makes c (t.graph.symbols c) :=
  makes_act h (Runs.lift_build_iff.2 ⟨t, hx, rfl⟩) (newBlocks_converge hrun) (by simp)

theorem runs_split (hlast : Runs (lastRegister b) s.toBuilder r s.toBuilder)
    (hbranch : Runs (branch b r) s.toBuilder (c, d) t) :
    Runs (do branch b (← lastRegister b) : LowerM (BlockId × BlockId)) s (c, d)
      { s with toBuilder := t } :=
  Runs.bind_iff.2 ⟨r, s, Runs.lift_build_iff.2 ⟨_, hlast, rfl⟩, Runs.lift_build_iff.2 ⟨t, hbranch, rfl⟩⟩

theorem makes_branch (h : p.ComesTo (.act do branch b (← lastRegister b)) s)
    (hlast : Runs (lastRegister b) s.toBuilder r s.toBuilder)
    (hbranch : Runs (branch b r) s.toBuilder (c, d) t) :
    p.Makes c (t.graph.symbols c) ∧ p.Makes d (t.graph.symbols d) := by
  have hnew := newBlocks_convergeBranch (runs_branch.1 hbranch)
  have hrun := runs_split hlast hbranch
  exact ⟨makes_act h hrun hnew (by simp), makes_act h hrun hnew (by simp)⟩

end Makes

theorem convergeBranch_fresh {s s' : Builder} {context : BlockId} {preds : List BlockId}
    (h : Runs (convergeBranch context preds b r) s (c, d) s') :
    s.graph.block? c = none ∧ s.graph.block? d = none ∧ c ≠ d := by
  simp only [convergeBranch, Runs.bind_iff, Runs.pure_iff, Prod.mk.injEq] at h
  obtain ⟨_, t, hc, _, t', hd, _, _, -, _, _, -, ⟨rfl, rfl⟩, -⟩ := h
  obtain ⟨i, -, rfl, rfl⟩ := runs_newChild.1 hc
  obtain ⟨j, -, rfl, -⟩ := runs_newChild.1 hd
  simp [Graph.block?_eq_none_iff, Graph.nextId, addChild_graph, appendBlock]

section Amends

variable {roots : List BlockId} {b c : BlockId} {s : Builder} {B : Block}

theorem Amends.update {f : Block → Block} (hB : s.graph.block? b = some B)
    (hopen : B.isTerminated = false) (hext : B.Extends (f B))
    (hkeys : (f B).locals.symbols.keys = B.locals.symbols.keys)
    (hholds : ∀ n, B.locals.holds n = true → (f B).locals.holds n = true)
    (hrefs : ∀ c ∈ (f B).referenced, c ∈ B.referenced ∨ c ∈ roots) :
    Amends roots b s (s.updateBlock b f) :=
  ⟨⟨B, f B, hB, hopen, updateBlock_self hB f, hext, hkeys, hholds, hrefs⟩,
    fun _ hc => updateBlock_other s hc f⟩

theorem Amends.push {i : Instruction} (hB : s.graph.block? b = some B)
    (hopen : B.isTerminated = false) (hi : ∀ c, i.operation.blockRef? = some c → c ∈ roots) :
    Amends roots b s (s.updateBlock b (·.push i)) := by
  refine .update hB hopen (.push hopen i) rfl (fun _ hn => hn) fun c hc => ?_
  simp only [Block.referenced, Block.push_instructions, List.filterMap_append, List.mem_append,
    List.mem_filterMap, List.mem_singleton, exists_eq_left] at hc ⊢
  exact hc.imp_right (hi c)

theorem amends_emit {s' : Builder} {op : Operation} {t : ValueType} {r : Register}
    (h : Runs (emit b op t) s r s') (hop : op.isPlain = true) : Amends roots b s s' := by
  obtain ⟨B, hB, hopen, -, -, rfl⟩ := runs_emit.1 h
  refine .push hB hopen fun c hc => ?_
  cases op <;> simp_all [Operation.isPlain, Operation.blockRef?]

theorem amends_goto {s' : Builder} {e : Edge} {u : Unit} (h : Runs (goto b e) s u s') :
    Amends roots b s s' := by
  obtain ⟨B, hB, hopen, -, rfl⟩ := runs_goto.1 h
  exact .update hB hopen (.close hopen _) rfl (fun _ hn => hn) fun _ hc => .inl hc

theorem Amends.relocate {l : Locals} (hB : s.graph.block? b = some B) (hopen : B.isTerminated = false)
    (hl : l.symbols = B.locals.symbols) : Amends roots b s (s.updateBlock b (·.withLocals l)) :=
  .update hB hopen (.withLocals B l) (by rw [Block.withLocals_locals, hl])
    (fun n hn => by rw [Locals.holds, Block.withLocals_locals, hl]; exact hn) fun _ hc => .inl hc

end Amends

/-- The chronicle of the graph. Its roots are the entries of the program and of the functions known,
every other block starts with the variables that the run made it with, and a function has values for its
parameters. -/
structure Tracks (p : Program) (O : Origins) (s : State) : Prop where
  chronicle : Chronicle O s.toBuilder
  roots : ∀ b, b ∈ O.roots ↔ b = ⟨0⟩ ∨ ∃ (k : Nat) (e : FunctionEntry), s.functions[k]? = some e ∧ e.entry = b
  made : ∀ b, s.graph.block? b ≠ none → b ∉ O.roots → p.Makes b (O.start b)
  parameters : ∀ (k : Nat) (e : FunctionEntry), s.functions[k]? = some e → ∃ B,
    s.graph.block? e.entry = some B ∧ ∀ q ∈ B.parameters, ∀ n ∈ q.name, n ∈ O.given e.entry

theorem Tracks.fits {O : Origins} (h : Tracks p O s) : O.Fits (fun _ _ => False) s.graph :=
  Origins.fits_of_chronicle h.chronicle

structure Records (p : Program) (O : Origins) (s : State) (O' : Origins) (s' : State) : Prop where
  before : Tracks p O s
  after : Tracks p O' s'
  grows : s.graph.Extends s'.graph
  outer : ∀ b B, s.graph.block? b = some B → O'.outer b = O.outer b
  declared : ∀ b B, s.graph.block? b = some B → O.declared b ⊆ O'.declared b
  given : ∀ b B, s.graph.block? b = some B → O.given b ⊆ O'.given b

namespace Records

variable {O O' O'' : Origins} {s s' s'' : State} {t : Builder} {b c : BlockId} {B : Block}

theorem refl (h : Tracks p O s) : Records p O s O s :=
  ⟨h, h, .refl _, fun _ _ _ => rfl, fun _ _ _ _ hd => hd, fun _ _ _ _ hd => hd⟩

theorem trans (h : Records p O s O' s') (k : Records p O' s' O'' s'') : Records p O s O'' s'' where
  before := h.before
  after := k.after
  grows := h.grows.trans k.grows
  outer b B hB := by
    obtain ⟨B', hB', -⟩ := h.grows b B hB
    rw [k.outer b B' hB', h.outer b B hB]
  declared b B hB _ hd := by
    obtain ⟨B', hB', -⟩ := h.grows b B hB
    exact k.declared b B' hB' (h.declared b B hB hd)
  given b B hB _ hd := by
    obtain ⟨B', hB', -⟩ := h.grows b B hB
    exact k.given b B' hB' (h.given b B hB hd)

theorem scope (h : Records p O s O' s') (hB : s.graph.block? b = some B) : O.scope b ⊆ O'.scope b := by
  rw [Origins.scope, Origins.scope, h.outer b B hB]
  refine List.append_subset.2 ⟨List.subset_append_left _ _, List.subset_append_of_subset_right _ ?_⟩
  exact List.map_subset _ (h.declared b B hB)

theorem scope_eq (h : Records p O s O' s') (hB : s.graph.block? b = some B)
    (hB' : s'.graph.block? b = some B) : O'.scope b = O.scope b := by
  have hnames := (h.after.fits.names b B hB').symm.trans (h.before.fits.names b B hB)
  rw [Origins.scope_names, Origins.scope_names, h.outer b B hB] at hnames
  rw [Origins.scope, Origins.scope, h.outer b B hB, List.append_cancel_left hnames]

theorem lift {bs : List BlockId} (h : Tracks p O s) (ht : Chronicle O' t) (hroots : O'.roots = O.roots)
    (hext : s.graph.Extends t.graph) (hnew : NewBlocks s.toBuilder bs t)
    (hmade : ∀ b ∈ bs, p.Makes b (O'.start b))
    (hstart : ∀ b B, s.graph.block? b = some B → O'.start b = O.start b)
    (houter : ∀ b B, s.graph.block? b = some B → O'.outer b = O.outer b)
    (hdeclared : ∀ b B, s.graph.block? b = some B → O.declared b ⊆ O'.declared b)
    (hgiven : ∀ b B, s.graph.block? b = some B → O.given b ⊆ O'.given b) :
    Records p O s O' { s with toBuilder := t } := by
  refine ⟨h, ⟨ht, hroots ▸ h.roots, fun b hb hroot => ?_, fun k e he => ?_⟩, hext, houter, hdeclared, hgiven⟩
  · rcases (hnew.born b).1 hb with hold | hnew
    · obtain ⟨B, hB⟩ := Option.ne_none_iff_exists'.1 hold
      rw [hstart b B hB]
      exact h.made b hold (hroots ▸ hroot)
    · exact hmade b hnew
  · obtain ⟨B, hB, hparams⟩ := h.parameters k e he
    obtain ⟨B', hB', hB'ext⟩ := hext _ B hB
    exact ⟨B', hB', fun q hq n hn => hgiven _ B hB (hparams q (hB'ext.parameters ▸ hq) n hn)⟩

theorem keep (h : Tracks p O s) (ht : Chronicle O t) (hext : s.graph.Extends t.graph)
    (hnew : NewBlocks s.toBuilder [] t) : Records p O s O { s with toBuilder := t } :=
  lift h ht rfl hext hnew (by simp) (fun _ _ _ => rfl) (fun _ _ _ => rfl) (fun _ _ _ _ hd => hd)
    fun _ _ _ _ hd => hd

theorem amend (h : Tracks p O s) (hb : Amends O.roots b s.toBuilder t) :
    Records p O s O { s with toBuilder := t } := by
  obtain ⟨B, B', hB, -, hB', hext, -⟩ := hb.block
  refine keep h (.amend h.chronicle hb) (fun d D hD => ?_) ⟨by simp, fun d => ?_⟩ <;> by_cases hd : d = b
  · subst hd
    obtain rfl := Option.some.inj (hB.symm.trans hD)
    exact ⟨B', hB', hext⟩
  · exact ⟨D, (hb.others d hd).trans hD, .refl D⟩
  · subst hd
    simp [hB, hB']
  · simp [hb.others d hd]

theorem quiet (h : Tracks p O s) (hblocks : t.graph.blocks = s.graph.blocks) :
    Records p O s O { s with toBuilder := t } := by
  refine keep h (.quiet h.chronicle hblocks) (fun d D hD => ⟨D, ?_, .refl D⟩) (.of_blocks hblocks)
  rw [Graph.block?, hblocks]
  exact hD

theorem begin (h : Tracks p O s) {T : SymbolTable} {vs : List Binding} (hnew : NewBlocks s.toBuilder [c] t)
    (ht : Chronicle (O.begin c T vs) t) (hext : s.graph.Extends t.graph) (hmade : p.Makes c T) :
    Records p O s (O.begin c T vs) { s with toBuilder := t } := by
  have hne {d : BlockId} {D : Block} (hD : s.graph.block? d = some D) : d ≠ c := by
    rintro rfl
    simp [hnew.fresh d (by simp)] at hD
  refine lift h ht rfl hext hnew (by simpa using hmade) (fun d D hD => Origins.begin_start (hne hD))
    (fun d D hD => Origins.begin_outer (hne hD)) (fun d D hD => ?_) fun d D hD => ?_
  · rw [Origins.begin_declared (hne hD)]
    exact fun _ hd => hd
  · rw [Origins.begin_given (hne hD)]
    exact fun _ hd => hd

theorem converge {context : BlockId} {preds : List BlockId} (h : Tracks p O s)
    (hscope : ∀ p ∈ preds, O.scope context ⊆ O.scope p)
    (hrun : Runs (converge context preds) s.toBuilder c t) (hmade : p.Makes c (t.graph.symbols c)) :
    ∃ O', Records p O s O' { s with toBuilder := t } ∧ O'.outer c = O.scope context ∧
      O'.scope c = O.scope context ∧ ∀ e, s.graph.block? e ≠ none → O'.scope e = O.scope e := by
  refine ⟨_, begin h (newBlocks_converge hrun) (.converge h.chronicle hscope hrun)
    (moves_converge hrun).graph_extends hmade, Origins.begin_outer_self, Origins.begin_scope_self,
    fun e he => Origins.begin_scope ?_⟩
  rintro rfl
  exact he (converge_fresh hrun)

theorem convergeBranch {context d : BlockId} {preds : List BlockId} {r : Register} (h : Tracks p O s)
    (hscope : ∀ p ∈ b :: preds, O.scope context ⊆ O.scope p)
    (hrun : Runs (convergeBranch context preds b r) s.toBuilder (c, d) t)
    (hext : s.graph.Extends t.graph) (hmade : p.Makes c (t.graph.symbols c))
    (hmade' : p.Makes d (t.graph.symbols d)) :
    ∃ O', Records p O s O' { s with toBuilder := t } ∧ O'.outer d = O.scope context ∧
      O'.scope c = O.scope context ∧ O'.scope d = O.scope context ∧
      ∀ e, s.graph.block? e ≠ none → O'.scope e = O.scope e := by
  obtain ⟨hc, hd, hcd⟩ := convergeBranch_fresh hrun
  have hne {e : BlockId} (he : s.graph.block? e ≠ none) : e ≠ c ∧ e ≠ d :=
    ⟨by rintro rfl; exact he hc, by rintro rfl; exact he hd⟩
  refine ⟨_, lift h (.convergeBranch h.chronicle hscope hrun) rfl hext (newBlocks_convergeBranch hrun) ?_
    (fun e E hE => ?_) (fun e E hE => ?_) (fun e E hE => ?_) (fun e E hE => ?_), Origins.begin_outer_self,
    ?_, Origins.begin_scope_self, fun e he => ?_⟩
  · simp only [List.forall_mem_cons, Origins.begin_start hcd, Origins.begin_start_self]
    exact ⟨hmade, hmade', by simp⟩
  · obtain ⟨hec, hed⟩ := hne (e := e) (by simp [hE])
    rw [Origins.begin_start hed, Origins.begin_start hec]
  · obtain ⟨hec, hed⟩ := hne (e := e) (by simp [hE])
    rw [Origins.begin_outer hed, Origins.begin_outer hec]
  · obtain ⟨hec, hed⟩ := hne (e := e) (by simp [hE])
    rw [Origins.begin_declared hed, Origins.begin_declared hec]
    exact fun _ hn => hn
  · obtain ⟨hec, hed⟩ := hne (e := e) (by simp [hE])
    rw [Origins.begin_given hed, Origins.begin_given hec]
    exact fun _ hn => hn
  · rw [Origins.begin_scope hcd, Origins.begin_scope_self]
  · rw [Origins.begin_scope (hne he).2, Origins.begin_scope (hne he).1]

theorem rejoin {context : BlockId} {preds : List BlockId} (h : Records p O s O' s')
    (hB : s.graph.block? context = some B) (hB' : s'.graph.block? context = some B)
    (hscope : ∀ p ∈ preds, O.scope context ⊆ O'.scope p)
    (hrun : Runs (Builder.converge context preds) s'.toBuilder c t)
    (hmade : p.Makes c (t.graph.symbols c)) :
    ∃ O'', Records p O s O'' { s' with toBuilder := t } ∧ O''.scope c = O.scope context := by
  have hsame := h.scope_eq hB hB'
  obtain ⟨O'', hrec, -, hc, -⟩ := converge h.after (fun p hp => by rw [hsame]; exact hscope p hp) hrun hmade
  exact ⟨O'', h.trans hrec, hc.trans hsame⟩

end Records

def Inherits (p : Program) (b : BlockId) (s : State) (c : BlockId) (s' : State) : Prop :=
  Advances b s c s' ∧ ∀ O, Tracks p O s → s.graph.IsOpen b →
    ∃ O', Records p O s O' s' ∧ O.scope b ⊆ O'.scope c

theorem Rebuilds.isOpen {s' : State} (h : Rebuilds [b] s [c] s') (hb : s.graph.IsOpen b) :
    s'.graph.IsOpen c :=
  allOpen_singleton.1 (h.shifts.allOpen (allOpen_singleton.2 hb))

instance : Chains (Inherits p) where
  refl b s := ⟨.refl _ _, fun O hO _ => ⟨O, .refl hO, fun _ hv => hv⟩⟩
  trans h k := by
    refine ⟨h.1.trans k.1, fun O hO hb => ?_⟩
    obtain ⟨O₁, hrec₁, hscope₁⟩ := h.2 O hO hb
    obtain ⟨O₂, hrec₂, hscope₂⟩ := k.2 O₁ hrec₁.after (h.1.isOpen hb)
    exact ⟨O₂, hrec₁.trans hrec₂, fun v hv => hscope₂ (hscope₁ hv)⟩

section Edits

variable {α : Type} {b : BlockId} {x : BuildM α}

theorem inherits_amend (hx : Stays b x)
    (h : ∀ {s a t roots}, Runs x s a t → s.graph.IsOpen b → t = s ∨ Amends roots b s t) :
    Leads (Inherits p) b (fun _ => b) (liftM x : LowerM α) := by
  intro s a s' hrun
  obtain ⟨t, ht, rfl⟩ := Runs.lift_build_iff.1 hrun
  refine ⟨.of_moves (hx ht).toMoves, fun O hO hb => ?_⟩
  rcases h ht hb with rfl | hamend
  · exact ⟨O, .refl hO, fun _ hv => hv⟩
  · exact ⟨O, .amend hO hamend, fun _ hv => hv⟩

end Edits

theorem inherits_rebind {name : String} :
    Leads (Inherits p) b (fun _ => b) (liftM (rebind b name r) : LowerM Unit) := by
  refine inherits_amend stays_rebind fun {s a t roots} h hopen => .inr ?_
  obtain ⟨B, u, hB, hu, rfl⟩ := runs_rebind.1 h
  have hentries := SymbolTable.rebind_entries hu
  refine .update hB (hopen.isTerminated hB) (.withLocals _ _) ?_ (fun n hn => ?_) fun _ hc => .inl hc
  · simp only [Block.withLocals_locals, OrderedMap.keys, hentries, List.map_map]
    refine List.map_congr_left fun e _ => ?_
    simp only [Function.comp_apply]
    split <;> rfl
  · obtain ⟨e, he, rfl, hr⟩ := Locals.holds_iff.1 hn
    have hmem : (if e.1 = name then (e.1, { e.2 with register := some r }) else e) ∈ u.entries := by
      rw [hentries]
      exact List.mem_map_of_mem (f := fun e => if e.1 = name then (e.1, _) else e) he
    refine Locals.holds_iff.2 ⟨_, hmem, ?_⟩
    split
    · exact ⟨rfl, rfl⟩
    · exact ⟨rfl, hr⟩

theorem inherits_define {name : String} {x : Symbol} :
    Leads (Inherits p) b (fun _ => b) (liftM (define b name x) : LowerM Unit) := by
  intro s a s' h
  obtain ⟨t, ht, rfl⟩ := Runs.lift_build_iff.1 h
  have hmoves := (stays_define ht).toMoves
  have hnew : NewBlocks s.toBuilder [] t := by
    obtain ⟨B, u, -, -, rfl⟩ := runs_define.1 ht
    exact .updateBlock _ _ _
  refine ⟨.of_moves hmoves, fun O hO hb => ⟨O.declare b name x, ?_, ?_⟩⟩
  · refine .lift hO (.declare hO.chronicle hb ht) rfl hmoves.graph_extends hnew (by simp)
      (fun _ _ _ => rfl) (fun _ _ _ => rfl) (fun d _ _ n hn => ?_)
      fun d _ _ n hn => Origins.mem_declare_given.2 (.inl hn)
    exact Origins.mem_declare_declared.2 (.inl hn)
  · exact Origins.scope_subset_withDeclared (List.subset_append_left _ _) b

instance : TracesTypes (Inherits p) where
  returnLayout {b t} s l s' h := by
    obtain ⟨u, hu, rfl⟩ := Runs.lift_build_iff.1 h
    refine ⟨(settles_returnLayout h).frame [b], fun O hO _ => ⟨O, .quiet hO ?_, fun _ hv => hv⟩⟩
    rcases runs_returnLayout.1 hu with ⟨-, rfl⟩ | ⟨-, -, hgraph, -⟩
    · rfl
    · rw [hgraph]
      rfl

theorem inherits_edits {α : Type} {x : BuildM α} (h : Edits b x) :
    Leads (Inherits p) b (fun _ => b) (liftM x : LowerM α) := by
  induction h with
  | look h =>
    refine traces_look fun s a s' hrun => ?_
    obtain ⟨t, ht, rfl⟩ := Runs.lift_build_iff.1 hrun
    rw [h _ _ _ ht]
  | emit t hop => exact inherits_amend (stays_emit hop) fun h _ => .inr (amends_emit h hop)
  | copy r =>
    refine inherits_amend stays_copy fun h _ => .inr ?_
    obtain ⟨B, t, hB, hopen, -, -, rfl⟩ := runs_copy.1 h
    exact .push hB hopen (by simp [Operation.blockRef?])
  | push r =>
    refine inherits_amend stays_push fun h hopen => .inr ?_
    obtain ⟨B, hB, -, rfl⟩ := runs_push.1 h
    exact .relocate hB (hopen.isTerminated hB) rfl
  | popMany n =>
    refine inherits_amend stays_popMany fun h hopen => ?_
    rcases runs_popMany.1 h with ⟨-, -, rfl⟩ | ⟨-, B, rest, hB, -, -, rfl⟩
    · exact .inl rfl
    · exact .inr (.relocate hB (hopen.isTerminated hB) rfl)
  | rebind name r => exact inherits_rebind
  | seq P _ hP _ ihx ihf =>
    intro s c s' hrun
    obtain ⟨u, hu, rfl⟩ := Runs.lift_build_iff.1 hrun
    obtain ⟨a, t, ha, hc⟩ := Runs.bind_iff.1 hu
    exact Chains.trans (ihx (Runs.lift_build_iff.2 ⟨t, ha, rfl⟩))
      (ihf a (hP _ _ _ ha) (Runs.lift_build_iff.2 ⟨u, hc, rfl⟩))

theorem inherits_emitRef {k : Nat} {e : FunctionEntry} {t : Builder} (he : s.functions[k]? = some e)
    (h : Runs (emitRef b e.entry) s.toBuilder r t) : Inherits p b s b { s with toBuilder := t } := by
  refine ⟨.of_moves (moves_emitRef h), fun O hO _ => ⟨O, .amend (b := b) hO ?_, fun _ hv => hv⟩⟩
  obtain ⟨T, B, -, hB, hopen, -, rfl⟩ := runs_emitRef.1 h
  refine .push hB hopen fun c hc => ?_
  obtain rfl : e.entry = c := by simpa [Operation.blockRef?] using hc
  exact (hO.roots _).2 (.inr ⟨k, e, he, rfl⟩)

theorem inherits_lowerCall {s' : State} {n : Nat} {t : SourceType} (h : Runs (lowerCall b n t) s c s')
    (hmade : p.Makes c (s'.graph.symbols c)) : Inherits p b s c s' := by
  have hadvance := leads_lowerCall h
  have hnew := newBlocks_lowerCall h
  refine ⟨hadvance, fun O hO _ => ⟨O.begin c (s'.graph.symbols c) (O.scope b), ?_, fun v hv => ?_⟩⟩
  · obtain ⟨u, hmoves, hu⟩ := hadvance
    have hchronicle := hO.chronicle.call h
    subst hu
    exact .begin hO hnew hchronicle hmoves.graph_extends hmade
  · rw [Origins.begin_scope_self]
    exact hv

theorem keeps_arms {onTrue onFalse : BlockId} {B B' : Block} {s₁ s₂ : State} {t : Builder}
    {fs fs' : List FunctionId} {cs cs' : List ClassId} {X Y : List BlockId}
    (hB : s.graph.block? b = some B) (hbranch : Runs (branch b r) s.toBuilder (onTrue, onFalse) t)
    (hfirst : Shifts fs cs [onTrue] { s with toBuilder := t } X s₁)
    (hsecond : Shifts fs' cs' [onFalse] s₁ Y s₂) (hB' : t.graph.block? b = some B') :
    s₂.graph.block? b = some B' := by
  -- the arms begin in new blocks, so neither of them takes the block before them over
  obtain ⟨hfreshT, hfreshF, -⟩ := convergeBranch_fresh (runs_branch.1 hbranch)
  have hB₁ := hfirst.keeps (c := b) (by simpa using (ne_of_fresh ⟨B, hB⟩ hfreshT).symm) hB'
  exact hsecond.keeps (by simpa using (ne_of_fresh ⟨B, hB⟩ hfreshF).symm) hB₁

theorem inherits_choose {onTrue onFalse first second merged : BlockId} {s₁ s₂ : State}
    {t u : Builder} (hlast : Runs (lastRegister b) s.toBuilder r s.toBuilder)
    (hbranch : Runs (branch b r) s.toBuilder (onTrue, onFalse) t)
    (hmadeT : p.Makes onTrue (t.graph.symbols onTrue)) (hmadeF : p.Makes onFalse (t.graph.symbols onFalse))
    (hfirst : Inherits p onTrue { s with toBuilder := t } first s₁)
    (hsecond : Inherits p onFalse s₁ second s₂)
    (hmerge : Runs (converge b [first, second]) s₂.toBuilder merged u)
    (hmade : p.Makes merged (u.graph.symbols merged)) :
    Inherits p b s merged { s₂ with toBuilder := u } := by
  have hsplit := rebuilds_branch hlast hbranch
  have harm := hfirst.1.frame [onFalse]
  have harm' := (hsecond.1.frame [first]).perm (List.Perm.swap ..) (List.Perm.swap ..)
  refine ⟨((hsplit.trans harm).trans harm').trans (.of_moves (moves_converge hmerge)), fun O hO hb => ?_⟩
  obtain ⟨O₁, hrec, -, hscopeT, hscopeF, hkept⟩ := Records.convergeBranch hO (by simp)
    (runs_branch.1 hbranch) hsplit.shifts.graph_extends hmadeT hmadeF
  have hopen := hsplit.shifts.allOpen (allOpen_singleton.2 hb)
  have hopen' := harm.shifts.allOpen hopen
  obtain ⟨O₂, hrec₁, hscope₁⟩ := hfirst.2 O₁ hrec.after (hopen.isOpen (by simp))
  obtain ⟨O₃, hrec₂, hscope₂⟩ := hsecond.2 O₂ hrec₁.after (hopen'.isOpen (by simp))
  obtain ⟨B, hB, -⟩ := hb
  have hcontext : O₁.scope b = O.scope b := hkept b (by simp [hB])
  obtain ⟨B', hB', -⟩ := hsplit.shifts.graph_extends b B hB
  have hB₂ := keeps_arms hB hbranch hfirst.1.shifts hsecond.1.shifts hB'
  obtain ⟨F, hF, -⟩ := hopen.isOpen (b := onFalse) (by simp)
  obtain ⟨P, hP, -⟩ := hopen'.isOpen (b := first) (by simp)
  obtain ⟨O₄, hrec₃, hmerged⟩ := (hrec₁.trans hrec₂).rejoin hB' hB₂ (by
    simp only [List.forall_mem_cons, hcontext]
    refine ⟨fun v hv => hrec₂.scope hP (hscope₁ ?_), fun v hv => hscope₂ (hrec₁.scope hF ?_), by simp⟩
    · rwa [hscopeT]
    · rwa [hscopeF]) hmerge hmade
  exact ⟨O₄, hrec.trans hrec₃, by rw [hmerged, hcontext]; exact fun _ hv => hv⟩

/-! Plans. -/

def Plan.PassesOn (p : Program) {α : Type} (c : Plan α) (b : BlockId) (result : α → BlockId) : Prop :=
  ∀ ⦃s a s'⦄, p.ComesTo c s → Runs c.run s a s' → Inherits p b s (result a) s'

namespace Plan.PassesOn

variable {α β : Type} {b : BlockId} {c : Plan α} {f : α → Plan β} {o : α → BlockId} {q : β → BlockId}

theorem of_leads (h : Leads (Inherits p) b o c.run) : c.PassesOn p b o := fun _ _ _ _ hrun => h hrun

theorem seq (hc : c.PassesOn p b o) (hf : ∀ a, (f a).PassesOn p (o a) q) : (c >>= f).PassesOn p b q := by
  intro s d s' hs hrun
  obtain ⟨a, t, ha, hd⟩ := Runs.bind_iff.1 hrun
  exact Chains.trans (hc hs.first ha) (hf a (hs.after ha) hd)

theorem enter {x : Task α} (h : x.plan.PassesOn p b o) : (Plan.call x).PassesOn p b o :=
  fun _ _ _ hs hrun => h hs.enter (by rwa [Task.run_plan])

theorem pure {a : α} (h : o a = b) : (Pure.pure a : Plan α).PassesOn p b o := of_leads (.pure h)

theorem look {x : LowerM α} (h : ∀ s a s', Runs x s a s' → s' = s) :
    (Plan.act x).PassesOn p b (fun _ => b) := of_leads (traces_look h)

theorem throw {e : Fault} : (Plan.act (MonadExcept.throw e) : Plan α).PassesOn p b o := of_leads .throw

theorem except {x : Except Fault α} : (liftM x : Plan α).PassesOn p b (fun _ => b) :=
  look fun _ _ _ h => (Runs.lift_except_lower_iff.1 h).2

theorem edits {x : BuildM α} (h : Edits b x) : (liftM x : Plan α).PassesOn p b (fun _ => b) :=
  of_leads (inherits_edits h)

theorem type (t : SourceType) : (Plan.call (.type t)).PassesOn p b (fun _ => b) :=
  of_leads (traces_lowerType t)

end Plan.PassesOn

theorem passesOn_linear {op : LinearOp} {t : SourceType} :
    (linearPlan b op t).PassesOn p b (fun _ => b) := by
  refine .seq (.edits (.popMany _)) fun rs => .seq (.type t) fun v => .of_leads ?_
  refine Leads.look (P := fun o => o.isPlain = true) (fun s o s' h => ?_) fun o ho =>
    (inherits_edits (.emit v ho)).bind fun _ => .pure rfl
  obtain ⟨ho, rfl⟩ := Runs.lift_except_lower_iff.1 h
  exact ⟨linear_isPlain ho, rfl⟩

theorem passesOn_call {n : Nat} {t : SourceType} : (Plan.call (.call b n t)).PassesOn p b id := by
  intro s c s' hs h
  have hborn := ((newBlocks_lowerCall h).born c).2 (.inr (by simp))
  refine inherits_lowerCall h ?_
  rw [Plan.run_call, ← Task.run_plan] at h
  obtain ⟨args, s₁, hargs, h⟩ := Runs.bind_iff.1 h
  obtain ⟨callee, s₂, hcallee, h⟩ := Runs.bind_iff.1 h
  obtain ⟨type, s₃, htype, h⟩ := Runs.bind_iff.1 h
  obtain ⟨returns, s₄, hreturns, h⟩ := Runs.bind_iff.1 h
  obtain ⟨result, s₅, hresult, h⟩ := Runs.bind_iff.1 h
  refine ⟨_, _, s₅, c, s', ((((hs.enter.after hargs).after hcallee).after htype).after hreturns).after
    hresult, h, ?_, hborn, rfl⟩
  obtain ⟨resume, s₆, hadd, h⟩ := Runs.bind_iff.1 h
  obtain ⟨u, hadd, -⟩ := Runs.lift_build_iff.1 hadd
  obtain rfl : resume = c := by
    simp only [Runs.bind_iff, Runs.ite_iff, Runs.pure_iff] at h
    grind
  rw [(runs_addBlock.1 hadd).1]
  exact s₅.graph.block?_nextId

theorem passesOn_choose {first second : Expr} (hfirst : ∀ b, (Plan.call (.expr b first)).PassesOn p b id)
    (hsecond : ∀ b, (Plan.call (.expr b second)).PassesOn p b id) : (do
      let (onTrue, onFalse) ← Plan.act do branch b (← lastRegister b)
      let onTrue ← Plan.call (.expr onTrue first)
      pushLast onTrue
      let onFalse ← Plan.call (.expr onFalse second)
      pushLast onFalse
      let merged ← merge b onTrue onFalse
      let _ ← copy merged (← pop merged)
      return merged : Plan BlockId).PassesOn p b id := by
  intro s merged s' hs h
  obtain ⟨⟨onTrue, onFalse⟩, s₁, hsplit, h⟩ := Runs.bind_iff.1 h
  obtain ⟨first', s₂, harm, h⟩ := Runs.bind_iff.1 h
  obtain ⟨_, s₃, hpush, h⟩ := Runs.bind_iff.1 h
  obtain ⟨second', s₄, harm', h⟩ := Runs.bind_iff.1 h
  obtain ⟨_, s₅, hpush', h⟩ := Runs.bind_iff.1 h
  obtain ⟨merged', s₆, hmerge, hcopy⟩ := Runs.bind_iff.1 h
  have hs₁ := hs.after hsplit
  have hs₃ := (hs₁.after harm).after hpush
  have hs₅ := (hs₃.after harm').after hpush'
  simp only [Plan.run_act, Runs.bind_iff, Runs.lift_build_iff] at hsplit
  obtain ⟨r, _, ⟨t, hlast, rfl⟩, t₁, hbranch, rfl⟩ := hsplit
  obtain ⟨-, -, -, rfl⟩ := runs_lastRegister.1 hlast
  obtain ⟨hmadeT, hmadeF⟩ := makes_branch hs.first hlast hbranch
  have htrue := Chains.trans (hfirst onTrue hs₁.first harm) (inherits_edits .pushLast hpush)
  have hfalse := Chains.trans (hsecond onFalse hs₃.first harm') (inherits_edits .pushLast hpush')
  have hrest : (do
      let _ ← copy merged' (← pop merged')
      return merged' : Plan BlockId).PassesOn p merged' id :=
    .seq (.edits .pop) fun _ => .seq (.edits (.copy _)) fun _ => .pure rfl
  have hend := hrest (hs₅.after hmerge) hcopy
  obtain ⟨u, hconverge, rfl⟩ := Runs.lift_build_iff.1 hmerge
  exact Chains.trans (inherits_choose hlast hbranch hmadeT hmadeF htrue hfalse hconverge
    (makes_converge hs₅.first hconverge hconverge)) hend

mutual

theorem passesOn_expr (b : BlockId) : (e : Expr) → (Plan.call (.expr b e)).PassesOn p b id
  | .literal value type =>
    .enter (.seq (.type type) fun _ => .seq (.edits (.emit _ rfl)) fun _ => .pure rfl)
  | .var name type =>
    .enter (.seq (.edits edits_readSymbol) fun _ => .seq (.edits (.copy _)) fun _ => .pure rfl)
  | .function f type => .enter (.of_leads fun s c s' h => by
      simp only [Task.plan, exprPlan, Plan.run_act, Runs.bind_iff, runs_functionEntry,
        Runs.lift_build_iff, Runs.pure_iff] at h
      obtain ⟨e, _, ⟨he, rfl⟩, r, _, ⟨t, href, rfl⟩, rfl, rfl⟩ := h
      exact inherits_emitRef he href)
  | .unary op operand type =>
    .enter (.seq (passesOn_expr b operand) fun _ => .seq (.edits .pushLast) fun _ =>
      .seq passesOn_linear fun _ => .pure rfl)
  | .binary op left right type =>
    .enter (.seq (passesOn_expr b left) fun c => .seq (.edits .pushLast) fun _ =>
      .seq (passesOn_expr c right) fun _ => .seq (.edits .pushLast) fun _ =>
      .seq passesOn_linear fun _ => .pure rfl)
  | .logic op left right type => .enter .throw
  | .cast op operand type =>
    .enter (.seq .except fun _ => .seq (passesOn_expr b operand) fun _ =>
      .seq (.edits .lastRegister) fun _ => .seq (.type type) fun _ =>
      .seq (.edits (.emit _ rfl)) fun _ => .pure rfl)
  | .field object index type =>
    .enter (.seq (passesOn_expr b object) fun _ => .seq (.edits .lastRegister) fun _ =>
      .seq (.edits edits_expectObject) fun _ => .seq (.type type) fun _ =>
      .seq (.edits (.emit _ rfl)) fun _ => .pure rfl)
  | .assign target value type =>
    .enter (.seq (passesOn_address b target) fun (c, place) => .seq (passesOn_expr c value) fun d =>
      .seq (.edits .lastRegister) fun r => .seq (.edits edits_store) fun _ => .of_leads (by
        cases place with
        | var name => exact .pure rfl
        | field index => exact (inherits_edits (.copy r)).bind fun _ => .pure rfl
        | element => exact (inherits_edits (.copy r)).bind fun _ => .pure rfl))
  | .compound op target value type =>
    .enter (.seq (.type type) fun _ => .seq (passesOn_address b target) fun (c, place) =>
      .seq (.edits edits_load) fun _ => .seq (.edits .pushLast) fun _ =>
      .seq (passesOn_expr c value) fun _ => .seq (.edits .pushLast) fun _ =>
      .seq (.edits edits_update) fun _ => .pure rfl)
  | .step op target type =>
    .enter (.seq (.type type) fun _ => .seq (passesOn_address b target) fun (c, place) =>
      .seq (.edits edits_load) fun _ => .seq (.edits .pushLast) fun _ =>
      .seq (.edits edits_emitOne) fun _ => .seq (.edits .pushLast) fun _ =>
      .seq (.edits edits_update) fun _ => .pure rfl)
  | .conditional condition first second type =>
    .enter (.seq (passesOn_expr b condition) fun _ =>
      passesOn_choose (passesOn_expr · first) (passesOn_expr · second))
  | .call callee arguments type =>
    .enter (.seq (passesOn_expr b callee) fun c => .seq (.edits .pushLast) fun _ =>
      .seq (passesOn_operands c arguments) fun _ => passesOn_call)
  | .new k arguments type =>
    .enter (.seq (.look fun _ _ _ h => (constructed_inv h).2) fun _ =>
      .seq (passesOn_operands b arguments) fun _ => .seq (.edits edits_construct) fun _ => .pure rfl)
  | .newArray length type =>
    .enter (.seq (passesOn_expr b length) fun _ => .seq (.edits .lastRegister) fun _ =>
      .seq (.type type) fun _ => .seq (.edits (.emit _ rfl)) fun _ => .pure rfl)
  | .native name arguments type =>
    .enter (.seq (passesOn_operands b arguments) fun _ => .seq (.edits (.popMany _)) fun _ =>
      .seq (.type type) fun _ => .seq (.edits (.emit _ rfl)) fun _ => .pure rfl)

theorem passesOn_operands (b : BlockId) : (es : List Expr) → (Plan.call (.operands b es)).PassesOn p b id
  | [] => .enter (.pure rfl)
  | e :: es =>
    .enter (.seq (passesOn_expr b e) fun c => .seq (.edits .pushLast) fun _ => passesOn_operands c es)

theorem passesOn_address (b : BlockId) :
    (e : Expr) → (Plan.call (.address b e)).PassesOn p b Prod.fst
  | .var .. => .enter (.pure rfl)
  | .field object .. =>
    .enter (.seq (passesOn_expr b object) fun _ => .seq (.edits .lastRegister) fun _ =>
      .seq (.edits edits_expectObject) fun _ => .seq (.edits .pushLast) fun _ => .pure rfl)
  | .binary .index array index _ =>
    .enter (.seq (passesOn_expr b array) fun c => .seq (.edits .pushLast) fun _ =>
      .seq (passesOn_expr c index) fun _ => .seq (.edits .pushLast) fun _ => .pure rfl)
  | .literal .. | .function .. | .unary .. | .logic .. | .cast .. | .assign .. | .compound ..
  | .step .. | .conditional .. | .call .. | .new .. | .newArray .. | .native ..
  | .binary (.compare _) .. | .binary (.numeric _) .. | .binary (.shift _) .. | .binary .concat ..
  | .binary .identity .. => .enter .throw

end

/-! Definitions and the values of returns. -/

theorem passesOn_clauses {type : Option ValueType} {cs : List Clause} :
    (Plan.call (.clauses type b cs)).PassesOn p b id := by
  induction cs generalizing b with
  | nil => exact .enter (.pure rfl)
  | cons c rest ih =>
    have htype (b : BlockId) : (clauseTypePlan type c).PassesOn p b (fun _ => b) := by
      unfold clauseTypePlan
      split
      · exact .pure rfl
      · exact .type _
      · exact .throw
    have hdefine (b : BlockId) (r : Option Register) : (do
        let t ← clauseTypePlan type c
        tell (.symbolDefined c.name t b)
        define b c.name ⟨t, r⟩
        Plan.call (.clauses type b rest)).PassesOn p b id :=
      .seq (htype b) fun _ => .seq (.edits (.look (by simp))) fun _ =>
        .seq (.of_leads inherits_define) fun _ => ih
    refine .enter ?_
    rw [Task.plan, clausesPlan]
    cases c.value with
    | none => exact .seq (o := Prod.fst) (.pure rfl) fun _ => hdefine _ _
    | some value =>
      exact .seq (passesOn_expr b value) fun _ => .seq (.edits .lastRegister) fun _ =>
        .seq (o := Prod.fst) (.pure rfl) fun _ => hdefine _ _

theorem passesOn_returnValue {result : ValueType} {value : Option Expr} :
    (returnValuePlan result b value).PassesOn p b Prod.fst := by
  cases value with
  | none => exact .of_leads (.ite (Leads.throw.bind fun _ => .pure rfl) (.pure rfl))
  | some value =>
    exact .seq (o := fun _ => b) (.of_leads (.ite .throw (.pure rfl))) fun _ =>
      .seq (passesOn_expr b value) fun _ => .seq (.edits .lastRegister) fun _ => .pure rfl

end Lowering

end BlockGraph
