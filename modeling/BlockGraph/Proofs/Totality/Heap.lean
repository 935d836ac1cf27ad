import BlockGraph.Proofs.Builder.Advances

namespace BlockGraph

namespace Graph

variable {g g' : Graph} {b : BlockId} {r : Register} {t : ValueType}

def HasType (g : Graph) (b : BlockId) (r : Register) (t : ValueType) : Prop :=
  ∃ B, g.block? b = some B ∧ B.typeOf? r = some t

theorem HasType.typeOf? {B : Block} (h : g.HasType b r t) (hB : g.block? b = some B) :
    B.typeOf? r = some t := by
  obtain ⟨B', hB', hr⟩ := h
  rwa [Option.some.inj (hB.symm.trans hB')]

theorem HasType.extend (h : g.HasType b r t) (hg : g.Extends g') : g'.HasType b r t := by
  obtain ⟨B, hB, hr⟩ := h
  obtain ⟨B', hB', hext⟩ := hg b B hB
  exact ⟨B', hB', hext.typeOf? hr⟩

def HasField (g : Graph) (l : LayoutId) (n : Nat) (t : ValueType) : Prop :=
  ∃ L, g.layout? l = some L ∧ L.fields[n]? = some t

def KeepsLayouts (g g' : Graph) : Prop := ∀ l L, g.layout? l = some L → g'.layout? l = some L

theorem HasField.keep {l : LayoutId} {n : Nat} (h : g.HasField l n t) (hg : g.KeepsLayouts g') :
    g'.HasField l n t := by
  obtain ⟨L, hL, ht⟩ := h
  exact ⟨L, hg l L hL, ht⟩

def Upcasts (g : Graph) (l k : LayoutId) : Prop :=
  ∃ L K ps, g.layout? l = some L ∧ L.origin = .ofContext ∧ g.layout? k = some K ∧
    K.origin = .ofReturn ∧ L.fields[0]? = some (.blockRef ps) ∧ K.fields[0]? = some (.blockRef ps)

theorem Upcasts.keep {l k : LayoutId} (h : g.Upcasts l k) (hg : g.KeepsLayouts g') :
    g'.Upcasts l k := by
  obtain ⟨L, K, ps, hL, hl, hK, hk⟩ := h
  exact ⟨L, K, ps, hg l L hL, hl, hg k K hK, hk⟩

/-- What the instruction of the block does to the heap fits the types of its registers and the
layouts of the objects. -/
def Accesses (g : Graph) (b : BlockId) (i : Instruction) : Prop :=
  match i.operation with
  | .getField object n => ∃ l, g.HasType b object (.object l) ∧ g.HasField l n i.type
  | .setField object n value =>
    ∃ l t, g.HasType b object (.object l) ∧ g.HasField l n t ∧ g.HasType b value t
  | .getIndex array _ => g.HasType b array (.array i.type)
  | .setIndex array _ value => ∃ t, g.HasType b array (.array t) ∧ g.HasType b value t
  | .new l => i.type = .object l ∧ ∃ L, g.layout? l = some L
  | .cast .upcast object =>
    ∃ l k, g.HasType b object (.object l) ∧ i.type = .object k ∧ g.Upcasts l k
  | _ => True

def HeapTyped (g : Graph) : Prop :=
  ∀ b B, g.block? b = some B → ∀ i ∈ B.instructions, g.Accesses b i

theorem Accesses.mono {i : Instruction} (h : g.Accesses b i) (hg : g.Extends g')
    (hl : g.KeepsLayouts g') : g'.Accesses b i := by
  obtain ⟨op, t⟩ := i
  cases op with
  | getField object n =>
    obtain ⟨l, ho, hf⟩ := h
    exact ⟨l, ho.extend hg, hf.keep hl⟩
  | setField object n value =>
    obtain ⟨l, u, ho, hf, hv⟩ := h
    exact ⟨l, u, ho.extend hg, hf.keep hl, hv.extend hg⟩
  | getIndex array index => exact HasType.extend h hg
  | setIndex array index value =>
    obtain ⟨u, ha, hv⟩ := h
    exact ⟨u, ha.extend hg, hv.extend hg⟩
  | new l =>
    obtain ⟨ht, L, hL⟩ := h
    exact ⟨ht, L, hl l L hL⟩
  | cast op object =>
    cases op with
    | upcast =>
      obtain ⟨l, k, ho, ht, hup⟩ := h
      exact ⟨l, k, ho.extend hg, ht, hup.keep hl⟩
    | _ => trivial
  | _ => trivial

theorem HeapTyped.grow (h : g.HeapTyped) (hg : g.Extends g') (hl : g.KeepsLayouts g')
    (hnew : ∀ b B', g'.block? b = some B' → ∀ i ∈ B'.instructions,
      (∃ B, g.block? b = some B ∧ i ∈ B.instructions) ∨ g'.Accesses b i) : g'.HeapTyped := by
  intro b B' hB' i hi
  rcases hnew b B' hB' i hi with ⟨B, hB, hi⟩ | hi
  · exact (h b B hB i hi).mono hg hl
  · exact hi

def AddsNoCode (g g' : Graph) : Prop :=
  ∀ b B', g'.block? b = some B' → ∀ i ∈ B'.instructions,
    ∃ B, g.block? b = some B ∧ i ∈ B.instructions

theorem AddsNoCode.trans {g'' : Graph} (h : g.AddsNoCode g') (k : g'.AddsNoCode g'') :
    g.AddsNoCode g'' := by
  intro b B'' hB'' i hi
  obtain ⟨B', hB', hi⟩ := k b B'' hB'' i hi
  exact h b B' hB' i hi

theorem AddsNoCode.of_blocks (h : ∀ b, g'.block? b = g.block? b) : g.AddsNoCode g' :=
  fun b B' hB' _ hi => ⟨B', h b ▸ hB', hi⟩

theorem HeapTyped.same (h : g.HeapTyped) (hg : g.Extends g') (hl : g.KeepsLayouts g')
    (hcode : g.AddsNoCode g') : g'.HeapTyped :=
  h.grow hg hl fun b B' hB' i hi => .inl (hcode b B' hB' i hi)

end Graph

namespace Builder

variable {context : BlockId} {r : Register} {preds : List BlockId}

def KeepsHeap {α : Type} (x : BuildM α) : Prop :=
  ∀ ⦃s a s'⦄, Runs x s a s' → s.graph.HeapTyped → s'.graph.HeapTyped

theorem KeepsHeap.pure {α : Type} (a : α) : KeepsHeap (Pure.pure a) := by
  intro s b s' h hs
  obtain ⟨-, rfl⟩ := Runs.pure_iff.1 h
  exact hs

theorem KeepsHeap.bind {α β : Type} {x : BuildM α} {f : α → BuildM β} (hx : KeepsHeap x)
    (hf : ∀ a, KeepsHeap (f a)) : KeepsHeap (x >>= f) := by
  intro s b s' h hs
  obtain ⟨a, t, ha, hb⟩ := Runs.bind_iff.1 h
  exact hf a hb (hx ha hs)

variable {s s' : Builder} {b c : BlockId} {B : Block}

theorem heapTyped_updateBlock (h : s.graph.HeapTyped) (hB : s.graph.block? b = some B)
    {f : Block → Block} (hext : B.Extends (f B))
    (hnew : ∀ i ∈ (f B).instructions,
      i ∈ B.instructions ∨ (s.updateBlock b f).graph.Accesses b i) :
    (s.updateBlock b f).graph.HeapTyped := by
  refine h.grow (.modifyBlock fun C hC => ?_) (fun l L hL => hL) fun c C hC i hi => ?_
  · obtain rfl := Option.some.inj (hB.symm.trans hC)
    exact hext
  · by_cases hc : c = b
    · subst hc
      obtain rfl := Option.some.inj ((updateBlock_self hB f).symm.trans hC)
      exact (hnew i hi).imp_left fun hi => ⟨B, hB, hi⟩
    · rw [updateBlock_other s hc] at hC
      exact .inl ⟨C, hC, hi⟩

theorem heapTyped_push (h : s.graph.HeapTyped) (hB : s.graph.block? b = some B)
    (hopen : B.isTerminated = false) {i : Instruction} (hi : s.graph.Accesses b i) :
    (s.updateBlock b (·.push i)).graph.HeapTyped := by
  have hext : s.graph.Extends (s.updateBlock b (·.push i)).graph := .modifyBlock fun C hC => by
    obtain rfl := Option.some.inj (hB.symm.trans hC)
    exact .push hopen i
  refine heapTyped_updateBlock h hB (.push hopen i) fun j hj => ?_
  rcases List.mem_append.1 hj with hj | hj
  · exact .inl hj
  · obtain rfl := List.mem_singleton.1 hj
    exact .inr (hi.mono hext fun _ _ hL => hL)

theorem heapTyped_withLocals (h : s.graph.HeapTyped) (hB : s.graph.block? b = some B) (l : Locals) :
    (s.updateBlock b (·.withLocals l)).graph.HeapTyped :=
  heapTyped_updateBlock h hB (.withLocals B l) fun _ hi => .inl hi

theorem heapTyped_close (h : s.graph.HeapTyped) (hB : s.graph.block? b = some B)
    (hopen : B.isTerminated = false) (t : Terminator) :
    (s.updateBlock b (·.close t)).graph.HeapTyped :=
  heapTyped_updateBlock h hB (.close hopen t) fun _ hi => .inl hi

theorem addsNoCode_withLocals (l : Locals) :
    s.graph.AddsNoCode (s.updateBlock b (·.withLocals l)).graph := by
  intro c C hC i hi
  rw [updateBlock_block?] at hC
  split at hC
  · obtain ⟨B, hB, rfl⟩ := Option.map_eq_some_iff.1 hC
    exact ⟨B, hB, hi⟩
  · exact ⟨C, hC, hi⟩

theorem addsNoCode_appendBlock {new : Block} (hnew : new.instructions = []) :
    s.graph.AddsNoCode (s.appendBlock new).graph := by
  intro c C hC i hi
  rw [appendBlock_block?] at hC
  split at hC
  · obtain rfl := Option.some.inj hC
    simp [hnew] at hi
  · exact ⟨C, hC, hi⟩

theorem heapTyped_appendBlock (h : s.graph.HeapTyped) {new : Block} (hnew : new.instructions = []) :
    (s.appendBlock new).graph.HeapTyped :=
  h.same (.append s.graph new) (fun _ _ hL => hL) (addsNoCode_appendBlock hnew)

theorem keepsHeap_jump : KeepsHeap (jump b c) := by
  intro s u s' h hs
  obtain ⟨B, T, args, hB, -, hopen, -, -, rfl⟩ := runs_jump.1 h
  have hext : (B.refer c T.parameterTypes).Extends
      ((B.refer c T.parameterTypes).close (.goto ⟨⟨B.registerCount⟩, args⟩)) :=
    .close (by exact hopen) _
  refine heapTyped_updateBlock hs hB (.trans (.push hopen _) hext) fun i hi => ?_
  rcases List.mem_append.1 hi with hi | hi
  · exact .inl hi
  · obtain rfl := List.mem_singleton.1 hi
    exact .inr trivial

theorem keepsHeap_branchTo {d : BlockId} : KeepsHeap (branchTo b r c d) := by
  intro s u s' h hs
  obtain ⟨B, T, F, ts, fs, hB, -, -, hopen, -, -, -, -, rfl⟩ := runs_branchTo.1 h
  let C := B.refer c T.parameterTypes
  have hsecond : C.Extends (C.refer d F.parameterTypes) := .push (by exact hopen) _
  have hclosed : (C.refer d F.parameterTypes).Extends ((C.refer d F.parameterTypes).close
      (.branch r ⟨⟨B.registerCount⟩, ts⟩ ⟨⟨B.registerCount + 1⟩, fs⟩)) :=
    .close (by exact hopen) _
  refine heapTyped_updateBlock hs hB (.trans (.push hopen _) (hsecond.trans hclosed)) fun i hi => ?_
  rcases List.mem_append.1 hi with hi | hi
  · rcases List.mem_append.1 hi with hi | hi
    · exact .inl hi
    · obtain rfl := List.mem_singleton.1 hi
      exact .inr trivial
  · obtain rfl := List.mem_singleton.1 hi
    exact .inr trivial

theorem keepsHeap_newChild : KeepsHeap (newChild context preds) := by
  intro s child s' h hs
  obtain ⟨i, -, rfl, rfl⟩ := runs_newChild.1 h
  exact heapTyped_appendBlock hs rfl

theorem keepsHeap_jumps {bs : List BlockId} : KeepsHeap (bs.forM (jump · c)) := by
  induction bs with
  | nil => exact .pure _
  | cons d bs ih => exact keepsHeap_jump.bind fun _ => ih

theorem keepsHeap_converge : KeepsHeap (converge context preds) :=
  keepsHeap_newChild.bind fun _ => keepsHeap_jumps.bind fun _ => .pure _

theorem keepsHeap_branch : KeepsHeap (branch b r) :=
  keepsHeap_newChild.bind fun _ => keepsHeap_newChild.bind fun _ =>
    keepsHeap_branchTo.bind fun _ => .pure _

theorem keepsHeap_convergeBranch : KeepsHeap (convergeBranch context preds b r) :=
  keepsHeap_newChild.bind fun _ => keepsHeap_newChild.bind fun _ =>
    keepsHeap_jumps.bind fun _ => keepsHeap_branchTo.bind fun _ => .pure _

end Builder

end BlockGraph
