import BlockGraph.Proofs.Verification.Copies

namespace BlockGraph

def Operation.map (f : Register → Register) (op : Operation) : Operation :=
  Id.run (op.mapM fun r => pure (f r))

def Edge.map (f : Register → Register) (e : Edge) : Edge := ⟨f e.target, e.arguments.map f⟩

def Terminator.map (f : Register → Register) : Terminator → Terminator
  | .goto e => .goto (e.map f)
  | .branch c onTrue onFalse => .branch (f c) (onTrue.map f) (onFalse.map f)

def Symbol.map (f : Register → Register) (s : Symbol) : Symbol :=
  { s with register := s.register.map f }

def Locals.map (f : Register → Register) (l : Locals) : Locals where
  returnSlot := l.returnSlot.map f
  symbols := l.symbols.withValues (l.symbols.values.map (·.map f))
  stack := l.stack.map f

section Rewriting

variable {ε : Type} {f : Register → Except ε Register} {h : Register → Register}

theorem option_mapM_eq_ok_map {α β : Type} {f : α → Except ε β} {h : α → β} {o : Option α}
    (ho : ∀ a ∈ o, f a = .ok (h a)) : o.mapM f = .ok (o.map h) := by
  cases o with
  | none => rfl
  | some a => exact option_mapM_some_eq_ok.2 ⟨h a, ho a rfl, rfl⟩

theorem Operation.mapM_eq_ok_map {op : Operation} (hop : ∀ r ∈ op.operands, f r = .ok (h r)) :
    op.mapM f = .ok (op.map h) :=
  Operation.covers.rewrite_eq_ok hop

theorem Terminator.map_eq_mapM (e : Terminator) : e.map h = Id.run (e.mapM fun r => pure (h r)) := by
  cases e <;> simp [Terminator.map, Terminator.mapM, Edge.map, Edge.mapM]

theorem Terminator.mapM_eq_ok_map {e : Terminator} (he : ∀ r ∈ e.registers, f r = .ok (h r)) :
    e.mapM f = .ok (e.map h) := by
  rw [Terminator.map_eq_mapM]
  exact Terminator.covers.rewrite_eq_ok he

theorem Symbol.mapM_eq_ok_map {s : Symbol} (hs : ∀ r ∈ s.register, f r = .ok (h r)) :
    (do return { s with register := ← s.register.mapM f } : Except ε Symbol) = .ok (s.map h) :=
  bind_eq_ok.2 ⟨_, option_mapM_eq_ok_map hs, rfl⟩

theorem Locals.mapM_eq_ok_map {l : Locals} (hl : ∀ r ∈ l.liveRegisters, f r = .ok (h r)) :
    l.mapM f = .ok (l.map h) := by
  simp only [mem_liveRegisters] at hl
  have hvalues := BlockGraph.mapM_eq_ok_map (l := l.symbols.values) fun s hs =>
    Symbol.mapM_eq_ok_map (f := f) (h := h) (s := s) fun r hr => by
      obtain ⟨e, he, rfl⟩ := List.mem_map.1 hs
      exact hl r (.inr (.inl ⟨e, he, hr⟩))
  simp only [Locals.mapM, OrderedMap.mapM, bind_eq_ok, pure_eq_ok]
  exact ⟨l.returnSlot.map h, option_mapM_eq_ok_map fun r hr => hl r (.inl hr),
    _, ⟨_, hvalues, rfl⟩, l.stack.map h,
    BlockGraph.mapM_eq_ok_map fun r hr => hl r (.inr (.inr hr)), rfl⟩

theorem Locals.exists_of_mapM {l l' : Locals} (hl : l.mapM f = .ok l') {r : Register}
    (hr : r ∈ l.liveRegisters) : ∃ r', f r = .ok r' := by
  simp only [Locals.mapM, OrderedMap.mapM, bind_eq_ok, pure_eq_ok] at hl
  obtain ⟨slot, hslot, _, ⟨values, hvalues, rfl⟩, stack, hstack, rfl⟩ := hl
  rcases mem_liveRegisters.1 hr with hr | ⟨e, he, hr⟩ | hr
  · obtain ⟨r', -, hr'⟩ := forall₂_mem_left (option_mapM_eq_ok hslot) (Option.mem_toList.2 hr)
    exact ⟨r', hr'⟩
  · obtain ⟨s', -, hs'⟩ := forall₂_mem_left (mapM_eq_ok.1 hvalues) (List.mem_map_of_mem he)
    obtain ⟨o, ho, -⟩ := bind_eq_ok.1 hs'
    obtain ⟨r', -, hr'⟩ := forall₂_mem_left (option_mapM_eq_ok ho) (Option.mem_toList.2 hr)
    exact ⟨r', hr'⟩
  · obtain ⟨r', -, hr'⟩ := forall₂_mem_left (mapM_eq_ok.1 hstack) hr
    exact ⟨r', hr'⟩

end Rewriting

section Mapping

variable {f : Register → Register}

@[simp]
theorem Operation.copy?_map (op : Operation) : (op.map f).copy? = op.copy?.map f := by
  cases op <;> simp [Operation.map, Operation.mapM, copy?]

theorem Terminator.registers_map (e : Terminator) : (e.map f).registers = e.registers.map f := by
  rw [Terminator.map_eq_mapM]
  exact (Terminator.covers.rewrite_map e f).2

theorem Locals.mem_liveRegisters_map {l : Locals} {r : Register} :
    r ∈ (l.map f).liveRegisters ↔ ∃ q ∈ l.liveRegisters, f q = r := by
  have hentries : (l.map f).symbols.entries = l.symbols.entries.map fun e => (e.1, e.2.map f) := by
    simp [Locals.map, OrderedMap.withValues, OrderedMap.keys, OrderedMap.values, List.zip_map']
  simp only [mem_liveRegisters, hentries]
  simp [Locals.map, Symbol.map]
  grind

theorem Operation.map_id (op : Operation) : op.map (fun r => r) = op := by
  cases op <;> simp [Operation.map, Operation.mapM]

theorem Terminator.map_id (e : Terminator) : e.map (fun r => r) = e := by
  cases e <;> simp [Terminator.map, Edge.map]

theorem OrderedMap.withValues_values {κ α : Type} (m : OrderedMap κ α) : m.withValues m.values = m := by
  obtain ⟨entries, _⟩ := m
  simp [withValues, keys, values, List.zip_map']

theorem Locals.map_id (l : Locals) : l.map (fun r => r) = l := by
  have hsymbols : l.symbols.values.map (·.map fun r => r) = l.symbols.values := by
    simp [Symbol.map]
  rw [Locals.map, hsymbols, OrderedMap.withValues_values]
  simp

end Mapping

namespace Block

def copied? (B : Block) (r : Register) : Option Register :=
  (B.instruction? r).bind (·.operation.copy?)

/-- Where the chain of copies that ends in `r` begins. A copy of a later register leads nowhere. -/
def source (B : Block) (r : Register) : Register :=
  match B.copied? r with
  | some s => if s.index < r.index then B.source s else r
  | none => r
termination_by r.index

def copiesBefore (B : Block) (r : Register) : Nat :=
  (B.instructions.take (r.index - B.parameters.length)).countP (!·.stays)

def condensedRegister (B : Block) (r : Register) : Register :=
  ⟨(B.source r).index - B.copiesBefore (B.source r)⟩

def condense (B : Block) (is : List Instruction) : List Instruction :=
  (is.filter (·.stays)).map fun i => { i with operation := i.operation.map B.condensedRegister }

def condensed (B : Block) : Block :=
  { B with
    instructions := B.condense B.instructions
    terminator := B.terminator.map (·.map B.condensedRegister)
    locals := B.locals.map B.condensedRegister }

def copyCount (B : Block) : Nat := B.instructions.countP (!·.stays)

/-- Instructions read only registers before their own, and all else that the block names is there. -/
structure NamesOwn (B : Block) : Prop where
  operands : ∀ n i, B.instructions[n]? = some i →
    ∀ r ∈ i.operation.operands, r.index < B.parameters.length + n
  exit : ∀ e, B.terminator = some e → ∀ r ∈ e.registers, B.contains r = true
  live : ∀ r ∈ B.locals.liveRegisters, B.contains r = true

variable {B : Block} {r : Register}

theorem condensedRegister_of_copied {s : Register} (hr : B.copied? r = some s)
    (hlt : s.index < r.index) : B.condensedRegister r = B.condensedRegister s := by
  rw [condensedRegister, source, hr]
  simp only [hlt, if_true, condensedRegister]

theorem condensedRegister_of_copied?_eq_none (hr : B.copied? r = none) :
    B.condensedRegister r = ⟨r.index - B.copiesBefore r⟩ := by
  rw [condensedRegister, source, hr]

theorem condensedRegister_parameter (hr : r.index < B.parameters.length) :
    B.condensedRegister r = r := by
  have hnone : B.copied? r = none := by simp [copied?, instruction?, hr]
  have hzero : r.index - B.parameters.length = 0 := by omega
  rw [condensedRegister_of_copied?_eq_none hnone, copiesBefore, hzero]
  rfl

theorem countP_not_stays (is : List Instruction) :
    is.countP (!·.stays) + (is.filter (·.stays)).length = is.length := by
  have hsplit := List.length_eq_countP_add_countP (·.stays) (l := is)
  simp only [Bool.not_eq_true, Bool.decide_eq_false] at hsplit
  rw [← List.countP_eq_length_filter]
  omega

def condensing (B : Block) (n : Nat) : Renaming :=
  (List.range n).map fun k => B.condensedRegister ⟨k⟩

theorem condensing_succ (n : Nat) :
    B.condensing (n + 1) = B.condensing n ++ [B.condensedRegister ⟨n⟩] := by
  simp [condensing, List.range_succ]

theorem apply_condensing {n : Nat} (hr : r.index < n) (b : BlockId) :
    (B.condensing n).apply b r = .ok (B.condensedRegister r) :=
  Renaming.apply_eq_ok.2 (by simp [condensing, hr])

theorem dropCopies_eq_ok (hB : ∀ n i, B.instructions[n]? = some i →
      ∀ r ∈ i.operation.operands, r.index < B.parameters.length + n)
    (done : List Instruction) {rest : List Instruction} (h : B.instructions = done ++ rest) :
    B.dropCopies (B.condensing (B.parameters.length + done.length)) (B.condense done) rest =
      .ok (B.condensing B.registerCount, B.condense B.instructions) := by
  -- what the loop has found after the instructions in `done` is what the chains say about them
  induction rest generalizing done with
  | nil =>
    rw [List.append_nil] at h
    rw [dropCopies, registerCount, h]
  | cons i rest ih =>
    have hi : B.instructions[done.length]? = some i := by simp [h]
    have hinstruction : B.instruction? ⟨B.parameters.length + done.length⟩ = some i :=
      instruction?_eq_some.2 ⟨done.length, rfl, hi⟩
    have hop : i.operation.mapM ((B.condensing (B.parameters.length + done.length)).apply B.id) =
        .ok (i.operation.map B.condensedRegister) :=
      Operation.mapM_eq_ok_map fun r hr => apply_condensing (hB _ i hi r hr) B.id
    have hrest := ih (done ++ [i]) (by simp [h])
    rw [List.length_append, List.length_singleton, ← Nat.add_assoc, condensing_succ] at hrest
    simp only [dropCopies, bind_eq_ok]
    refine ⟨_, hop, ?_⟩
    rw [Operation.copy?_map]
    cases hcopy : i.operation.copy? with
    | some s =>
      have hlt : s.index < B.parameters.length + done.length := by
        apply hB _ i hi s
        cases hop : i.operation <;> simp_all [Operation.copy?, Operation.operands]
      have hcopied : B.copied? ⟨B.parameters.length + done.length⟩ = some s := by
        rw [copied?, hinstruction, Option.bind_some, hcopy]
      rw [condensedRegister_of_copied hcopied hlt] at hrest
      simpa [condense, Instruction.stays, hcopy] using hrest
    | none =>
      have hnone : B.copied? ⟨B.parameters.length + done.length⟩ = none := by
        rw [copied?, hinstruction, Option.bind_some, hcopy]
      have hcount := countP_not_stays done
      have hlength : (B.condense done).length = (done.filter (·.stays)).length := by simp [condense]
      have hbefore : B.copiesBefore ⟨B.parameters.length + done.length⟩ = done.countP (!·.stays) := by
        rw [copiesBefore, Nat.add_sub_cancel_left, h, List.take_left]
      rw [condensedRegister_of_copied?_eq_none hnone, hbefore] at hrest
      have hindex : B.parameters.length + done.length - done.countP (!·.stays) =
          B.parameters.length + (B.condense done).length := by omega
      rw [hindex] at hrest
      simpa [condense, Instruction.stays, hcopy] using hrest

theorem condensing_parameters :
    B.condensing B.parameters.length = (List.range B.parameters.length).map Register.mk := by
  apply List.map_congr_left
  intro k hk
  exact condensedRegister_parameter (List.mem_range.1 hk)

theorem NamesOwn.dropCopies (h : B.NamesOwn) :
    B.dropCopies ((List.range B.parameters.length).map Register.mk) [] B.instructions =
      .ok (B.condensing B.registerCount, B.condense B.instructions) := by
  rw [← condensing_parameters]
  exact dropCopies_eq_ok h.operands [] rfl

theorem NamesOwn.propagateCopies (h : B.NamesOwn) :
    B.propagateCopies = .ok (B.condensed, B.copyCount) := by
  have happly (r : Register) (hr : B.contains r = true) :
      (B.condensing B.registerCount).apply B.id r = .ok (B.condensedRegister r) :=
    apply_condensing (contains_iff.1 hr) B.id
  have hexit := option_mapM_eq_ok_map (o := B.terminator) fun e he =>
    Terminator.mapM_eq_ok_map fun r hr => happly r (h.exit e he r hr)
  have hlive := Locals.mapM_eq_ok_map fun r hr => happly r (h.live r hr)
  have hcount : B.instructions.length - (B.condense B.instructions).length = B.copyCount := by
    have := countP_not_stays B.instructions
    rw [condense, List.length_map, copyCount]
    omega
  simp only [Block.propagateCopies, bind_eq_ok, pure_eq_ok]
  exact ⟨_, h.dropCopies, _, hexit, _, hlive, by rw [hcount]; rfl⟩

theorem namesOwn_of_propagateCopies {p : Block × Nat} (h : B.propagateCopies = .ok p) :
    B.NamesOwn := by
  simp only [Block.propagateCopies, bind_eq_ok, pure_eq_ok] at h
  obtain ⟨⟨t, ks⟩, hdrop, exit, hexit, l, hl, -⟩ := h
  have hdrops := B.dropCopies_drops hdrop .nil
  have hcontains {r r' : Register} (hr : t.apply B.id r = .ok r') : B.contains r = true := by
    rw [contains_iff, registerCount, ← List.nil_append B.instructions, ← hdrops.length]
    exact (List.getElem?_eq_some_iff.1 (Renaming.apply_eq_ok.1 hr)).1
  refine ⟨hdrops.operands_lt, ?_, ?_⟩
  · intro e he r hr
    rw [he] at hexit
    obtain ⟨e', he', -⟩ := option_mapM_some_eq_ok.1 hexit
    obtain ⟨r', -, hr'⟩ := forall₂_mem_left (Terminator.registers_of_mapM he') hr
    exact hcontains hr'
  · intro r hr
    obtain ⟨r', hr'⟩ := Locals.exists_of_mapM hl hr
    exact hcontains hr'

theorem copyCount_condensed (B : Block) : B.condensed.copyCount = 0 := by
  simp only [copyCount, condensed, condense, List.countP_map, List.countP_eq_zero, List.mem_filter]
  rintro i ⟨-, hi⟩
  simpa [Instruction.stays] using hi

theorem contains_condensed (h : B.NamesOwn) (hr : B.contains r = true) :
    B.condensed.contains (B.condensedRegister r) = true := by
  have hdrops := B.dropCopies_drops h.dropCopies .nil
  rw [contains_iff] at hr ⊢
  exact hdrops.lt (r := r.index) (by simp [condensing, hr])

theorem NamesOwn.condensed (h : B.NamesOwn) : B.condensed.NamesOwn := by
  refine ⟨(B.dropCopies_drops h.dropCopies .nil).kept_operands_lt, ?_, ?_⟩
  · intro e' he' r' hr'
    obtain ⟨e, he, rfl⟩ := Option.map_eq_some_iff.1 he'
    rw [Terminator.registers_map] at hr'
    obtain ⟨r, hr, rfl⟩ := List.mem_map.1 hr'
    exact contains_condensed h (h.exit e he r hr)
  · intro r' hr'
    obtain ⟨r, hr, rfl⟩ := Locals.mem_liveRegisters_map.1 hr'
    exact contains_condensed h (h.live r hr)

theorem condensedRegister_of_copyCount_eq_zero (h : B.copyCount = 0) : B.condensedRegister = fun r => r := by
  rw [copyCount, List.countP_eq_zero] at h
  funext r
  have hnone : B.copied? r = none := by
    rw [copied?, Option.bind_eq_none_iff]
    intro i hi
    obtain ⟨k, -, hk⟩ := instruction?_eq_some.1 hi
    simpa [Instruction.stays] using h i (List.mem_of_getElem? hk)
  have hzero : B.copiesBefore r = 0 :=
    List.countP_eq_zero.2 fun i hi => h i (List.mem_of_mem_take hi)
  rw [condensedRegister_of_copied?_eq_none hnone, hzero]
  rfl

theorem condensed_of_copyCount_eq_zero (h : B.copyCount = 0) : B.condensed = B := by
  have hfilter : B.instructions.filter (·.stays) = B.instructions := by
    rw [copyCount, List.countP_eq_zero] at h
    rw [List.filter_eq_self]
    intro i hi
    simpa using h i hi
  simp only [condensed, condense, condensedRegister_of_copyCount_eq_zero h, hfilter,
    Operation.map_id, Terminator.map_id, Locals.map_id, List.map_id', Option.map_id']

end Block

namespace Graph

def condensed (g : Graph) : Graph := { g with blocks := g.blocks.map Block.condensed }

def copyCount (g : Graph) : Nat := (g.blocks.flatMap (·.instructions)).countP (!·.stays)

theorem propagateCopiesIn_of_namesOwn {bs : List Block} (h : ∀ B ∈ bs, B.NamesOwn) :
    (propagateCopiesIn bs).result =
      .ok (bs.map Block.condensed, (bs.flatMap (·.instructions)).countP (!·.stays)) := by
  induction bs with
  | nil => rfl
  | cons B bs ih =>
    rw [List.forall_mem_cons] at h
    rw [List.flatMap_cons, List.countP_append]
    simp only [propagateCopiesIn, Logged.bind_result_eq_ok]
    refine ⟨_, h.1.propagateCopies, ?_⟩
    split
    · simpa only [Logged.bind_result_eq_ok, Logged.tell_result, exists_const, true_and] using
        ⟨_, ih h.2, rfl⟩
    · exact Logged.bind_result_eq_ok.2 ⟨_, ih h.2, rfl⟩

variable {g : Graph}

theorem propagateCopies_of_namesOwn (h : ∀ B ∈ g.blocks, B.NamesOwn) :
    g.propagateCopies.result = .ok (g.condensed, g.copyCount) := by
  simp only [propagateCopies, Logged.bind_result_eq_ok]
  exact ⟨_, propagateCopiesIn_of_namesOwn h, (), rfl, rfl⟩

theorem namesOwn_of_propagateCopies {p : Graph × Nat} (h : g.propagateCopies.result = .ok p) :
    ∀ B ∈ g.blocks, B.NamesOwn := by
  intro B hB
  obtain ⟨B', -, k, hk⟩ := forall₂_mem_left (propagateCopies_eq_ok h) hB
  exact Block.namesOwn_of_propagateCopies hk

theorem exists_propagateCopies (h : ∀ B ∈ g.blocks, ∃ B' n, B.propagateCopies = .ok (B', n)) :
    ∃ g' n, g.propagateCopies.result = .ok (g', n) := by
  refine ⟨_, _, propagateCopies_of_namesOwn fun B hB => ?_⟩
  obtain ⟨B', n, hB'⟩ := h B hB
  exact Block.namesOwn_of_propagateCopies hB'

theorem propagateCopies_condensed (h : ∀ B ∈ g.blocks, B.NamesOwn) :
    g.condensed.propagateCopies.result = .ok (g.condensed, 0) := by
  have hown : ∀ B ∈ g.condensed.blocks, B.NamesOwn := by
    intro B' hB'
    obtain ⟨B, hB, rfl⟩ := List.mem_map.1 hB'
    exact (h B hB).condensed
  have hblocks : g.condensed.condensed = g.condensed := by
    simp [condensed, Block.condensed_of_copyCount_eq_zero (Block.copyCount_condensed _)]
  have hcount : g.condensed.copyCount = 0 := by
    rw [copyCount, List.countP_eq_zero]
    intro i hi
    obtain ⟨B', hB', hi⟩ := List.mem_flatMap.1 hi
    obtain ⟨B, -, rfl⟩ := List.mem_map.1 hB'
    exact List.countP_eq_zero.1 (Block.copyCount_condensed B) i hi
  rw [propagateCopies_of_namesOwn hown, hblocks, hcount]

/-- Copy propagation fails exactly on the graphs in which some block names a register that is not there
in time. Otherwise it takes out all copies and counts them, follows every register to the source of its
copies and closes the gaps, and leaves nothing for a second time. -/
theorem propagateCopies_exact (g : Graph) :
    ((∃ fault, g.propagateCopies.result = .error fault) ↔ ∃ B ∈ g.blocks, ¬ B.NamesOwn) ∧
      ∀ g' removed, g.propagateCopies.result = .ok (g', removed) →
        g' = g.condensed ∧ removed = g.copyCount ∧ g'.propagateCopies.result = .ok (g', 0) := by
  by_cases h : ∀ B ∈ g.blocks, B.NamesOwn
  · have hok := propagateCopies_of_namesOwn h
    constructor
    · simpa [hok] using h
    · intro g' removed hg'
      obtain ⟨rfl, rfl⟩ := Prod.mk.inj (Except.ok.inj (hok.symm.trans hg'))
      exact ⟨rfl, rfl, propagateCopies_condensed h⟩
  · have hnone : ∀ p, g.propagateCopies.result ≠ .ok p := fun p hp => h (namesOwn_of_propagateCopies hp)
    refine ⟨?_, fun g' removed hg' => (hnone _ hg').elim⟩
    have hbad : ∃ B ∈ g.blocks, ¬ B.NamesOwn := by simpa using h
    refine iff_of_true ?_ hbad
    cases hresult : g.propagateCopies.result with
    | error fault => exact ⟨fault, rfl⟩
    | ok p => exact (hnone p hresult).elim

theorem propagateCopies_exact_of_copyChain :
    ∃ g', copyChain.propagateCopies.result = .ok (g', 2) ∧
      g' = copyChain.condensed ∧ 2 = copyChain.copyCount ∧ g'.propagateCopies.result = .ok (g', 0) :=
  ⟨_, rfl, (propagateCopies_exact copyChain).2 _ _ rfl⟩

end Graph

end BlockGraph
