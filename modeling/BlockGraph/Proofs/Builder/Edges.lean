import BlockGraph.Builder.Child
import BlockGraph.Proofs.Builder.Actions

namespace BlockGraph

namespace Block

def HasTypes (b : Block) (rs : List Register) (ts : List ValueType) : Prop :=
  List.Forall₂ (fun r t => b.typeOf? r = some t) rs ts

def Passes (b : Block) (e : Edge) : Prop :=
  ∃ ts, b.typeOf? e.target = some (.blockRef ts) ∧ b.HasTypes e.arguments ts

def refer (b : Block) (c : BlockId) (ts : List ValueType) : Block :=
  b.push ⟨.blockRef c, .blockRef ts⟩

variable {b b' : Block} {rs : List Register} {ts : List ValueType}

theorem mapM_typeOf_eq_ok : rs.mapM b.typeOf = .ok ts ↔ b.HasTypes rs ts := by
  simp only [mapM_eq_ok, typeOf_eq_ok, HasTypes]

theorem HasTypes.mono (h : b.HasTypes rs ts)
    (hb : ∀ r t, b.typeOf? r = some t → b'.typeOf? r = some t) : b'.HasTypes rs ts :=
  List.Forall₂.imp (fun r t => hb r t) h

theorem HasTypes.push (h : b.HasTypes rs ts) (i : Instruction) : (b.push i).HasTypes rs ts :=
  h.mono fun _ _ => typeOf?_push

theorem HasTypes.contains (h : b.HasTypes rs ts) : ∀ r ∈ rs, b.contains r = true := by
  intro r hr
  obtain ⟨n, hn, rfl⟩ := List.mem_iff_getElem.1 hr
  have ht := h.get hn (h.length_eq ▸ hn)
  exact contains_of_typeOf? ht

theorem HasTypes.append {rs' : List Register} {ts' : List ValueType} (h : b.HasTypes rs ts)
    (h' : b.HasTypes rs' ts') : b.HasTypes (rs ++ rs') (ts ++ ts') :=
  List.rel_append h h'

theorem Passes.mono {e : Edge} (h : b.Passes e)
    (hb : ∀ r t, b.typeOf? r = some t → b'.typeOf? r = some t) : b'.Passes e := by
  obtain ⟨ts, ht, ha⟩ := h
  exact ⟨ts, hb _ _ ht, ha.mono hb⟩

theorem checkEdge_eq_ok {e : Edge} {u : Unit} : b.checkEdge e = .ok u ↔ b.Passes e := by
  simp only [checkEdge, bind_eq_ok, typeOf_eq_ok, Passes]
  constructor
  · rintro ⟨t, ht, h⟩
    cases t with
    | blockRef expected =>
      simp only [bind_eq_ok, mapM_typeOf_eq_ok] at h
      obtain ⟨found, hfound, h⟩ := h
      by_cases heq : expected = found
      · subst heq
        exact ⟨expected, ht, hfound⟩
      · simp [heq, throw, throwThe, MonadExceptOf.throw] at h
    | _ => simp [throw, throwThe, MonadExceptOf.throw] at h
  · rintro ⟨ts, ht, ha⟩
    refine ⟨_, ht, ?_⟩
    simp only [bind_eq_ok, mapM_typeOf_eq_ok]
    refine ⟨ts, ha, ?_⟩
    simp [pure, Except.pure]

end Block

theorem mapM_then_eq_ok {f : String → Except Fault Register} {P : String → Register → Prop}
    (hf : ∀ n r, f n = .ok r ↔ P n r) (names : List String) (slot stack : List Register)
    (depth : Nat) (e : Fault) (args : List Register) :
    (do
      let carried ← names.mapM f
      if stack.length ≠ depth then throw e
      return slot ++ carried ++ stack : Except Fault (List Register)) = .ok args ↔
      ∃ carried, args = slot ++ carried ++ stack ∧ List.Forall₂ P names carried ∧
        stack.length = depth := by
  simp only [bind_eq_ok, mapM_eq_ok, hf]
  constructor
  · rintro ⟨carried, hc, h⟩
    by_cases hdepth : stack.length = depth
    · rw [if_neg (by simpa using hdepth)] at h
      exact ⟨carried, (pure_eq_ok.1 h).symm, hc, hdepth⟩
    · rw [if_pos hdepth] at h
      simp [throw, throwThe, MonadExceptOf.throw, bind, Except.bind] at h
  · rintro ⟨carried, rfl, hc, hdepth⟩
    exact ⟨carried, hc, by rw [if_neg (by simpa using hdepth)]; rfl⟩

theorem Signature.arguments_eq_ok {sig : Signature} {l : Locals} {source target : BlockId}
    {args : List Register} :
    sig.arguments l source target = .ok args ↔
      ∃ slot carried, args = slot ++ carried ++ l.stack ∧
        (if sig.acceptsReturn then ∃ r, l.returnSlot = some r ∧ slot = [r] else slot = []) ∧
        List.Forall₂ (fun name r => l.symbols.register? name = some r) sig.carried carried ∧
        l.stack.length = sig.stackDepth := by
  obtain ⟨accepts, names, depth⟩ := sig
  cases accepts with
  | false =>
    simp only [Bool.false_eq_true, if_false]
    refine (mapM_then_eq_ok (P := fun name r => l.symbols.register? name = some r)
      (fun name r => ?_) names [] ..).trans ?_
    · cases l.symbols.register? name <;>
        simp [pure, Except.pure, throw, throwThe, MonadExceptOf.throw]
    · simp
  | true =>
    cases hslot : l.returnSlot with
    | none => simp [arguments, hslot, throw, throwThe, MonadExceptOf.throw, bind, Except.bind]
    | some r =>
      simp only [arguments, hslot]
      refine (mapM_then_eq_ok (P := fun name r => l.symbols.register? name = some r)
        (fun name r => ?_) names [r] ..).trans ?_
      · cases l.symbols.register? name <;>
          simp [pure, Except.pure, throw, throwThe, MonadExceptOf.throw]
      · simp

namespace Builder

variable {s s' : Builder} {b target : BlockId} {u : Unit}

theorem updateBlock_updateBlock (s : Builder) (b : BlockId) (f g : Block → Block) :
    (s.updateBlock b f).updateBlock b g = s.updateBlock b (g ∘ f) := by
  simp [updateBlock, Graph.modifyBlock, List.modify_modify_eq]

theorem updateBlock_congr {f g : Block → Block} {B : Block} (hB : s.graph.block? b = some B)
    (h : f B = g B) : s.updateBlock b f = s.updateBlock b g := by
  have hb : s.graph.blocks.modify b.index f = s.graph.blocks.modify b.index g := by
    apply List.ext_getElem?
    intro n
    rw [List.getElem?_modify, List.getElem?_modify]
    split
    case isTrue hn =>
      subst hn
      have : s.graph.blocks[b.index]? = some B := hB
      simp [this, h]
    case isFalse => rfl
  simp [updateBlock, Graph.modifyBlock, hb]

@[simp] theorem runs_terminate {t : Terminator} :
    Runs (terminate b t) s u s' ↔
      ∃ B, s.graph.block? b = some B ∧ B.isTerminated = false ∧
        s' = s.updateBlock b (·.close t) := by
  simp only [terminate, Runs.bind_iff, runs_block, Runs.ite_iff, Runs.throw_iff, false_and,
    exists_false, and_false, false_or, Bool.not_eq_true, runs_tell, runs_modifyBlock]
  constructor
  · rintro ⟨B, _, ⟨hB, rfl⟩, hopen, -, _, rfl, -, rfl⟩
    exact ⟨B, hB, hopen, rfl⟩
  · rintro ⟨B, hB, hopen, rfl⟩
    exact ⟨B, s, ⟨hB, rfl⟩, hopen, (), s, rfl, ⟨B, hB⟩, rfl⟩

@[simp] theorem runs_finish :
    Runs (finish b) s u s' ↔
      ∃ B, s.graph.block? b = some B ∧ B.isTerminated = false ∧
        s' = s.updateBlock b ({ · with isFinal := true }) := by
  simp only [finish, Runs.bind_iff, runs_block, Runs.ite_iff, Runs.throw_iff, false_and,
    exists_false, and_false, false_or, Bool.not_eq_true, runs_tell, runs_modifyBlock]
  constructor
  · rintro ⟨B, _, ⟨hB, rfl⟩, hopen, -, _, rfl, -, rfl⟩
    exact ⟨B, hB, hopen, rfl⟩
  · rintro ⟨B, hB, hopen, rfl⟩
    exact ⟨B, s, ⟨hB, rfl⟩, hopen, (), s, rfl, ⟨B, hB⟩, rfl⟩

@[simp] theorem runs_goto {e : Edge} :
    Runs (goto b e) s u s' ↔
      ∃ B, s.graph.block? b = some B ∧ B.isTerminated = false ∧ B.Passes e ∧
        s' = s.updateBlock b (·.close (.goto e)) := by
  simp only [goto, Runs.bind_iff, runs_block, Runs.lift_except_iff, Block.checkEdge_eq_ok,
    runs_terminate]
  constructor
  · rintro ⟨B, _, ⟨hB, rfl⟩, -, _, ⟨hpass, rfl⟩, B', hB', hopen, rfl⟩
    obtain rfl := Option.some.inj (hB.symm.trans hB')
    exact ⟨B, hB, hopen, hpass, rfl⟩
  · rintro ⟨B, hB, hopen, hpass, rfl⟩
    exact ⟨B, s, ⟨hB, rfl⟩, (), s, ⟨hpass, rfl⟩, B, hB, hopen, rfl⟩

@[simp] theorem runs_edge {e : Edge} :
    Runs (edge b target) s e s' ↔
      ∃ B T args, s.graph.block? b = some B ∧ s.graph.block? target = some T ∧
        B.isTerminated = false ∧ T.signature.arguments B.locals b target = .ok args ∧
        (B.refer target T.parameterTypes).HasTypes args T.parameterTypes ∧
        e = ⟨⟨B.registerCount⟩, args⟩ ∧
        s' = s.updateBlock b (·.refer target T.parameterTypes) := by
  simp only [edge, Runs.bind_iff, runs_block, runs_locals, Runs.lift_except_iff, runs_emitRef,
    Runs.pure_iff, Block.checkEdge_eq_ok]
  constructor
  · rintro ⟨T, _, ⟨hT, rfl⟩, _, _, ⟨B, hB, rfl, rfl⟩, args, _, ⟨hargs, rfl⟩, r, _,
      ⟨T', B', hT', hB', hopen, rfl, rfl⟩, P, _, ⟨hP, rfl⟩, -, _, ⟨hpass, rfl⟩, rfl, rfl⟩
    obtain rfl := Option.some.inj (hB.symm.trans hB')
    obtain rfl := Option.some.inj (hT.symm.trans hT')
    obtain rfl : B.push _ = P := by simpa [hB] using hP
    obtain ⟨ts, hts, hargs'⟩ := hpass
    obtain rfl : T.parameterTypes = ts := by simpa using hts
    exact ⟨B, T, args, hB, hT, hopen, hargs, hargs', rfl, rfl⟩
  · rintro ⟨B, T, args, hB, hT, hopen, hargs, htypes, rfl, rfl⟩
    refine ⟨T, s, ⟨hT, rfl⟩, _, s, ⟨B, hB, rfl, rfl⟩, args, s, ⟨hargs, rfl⟩, _, _,
      ⟨T, B, hT, hB, hopen, rfl, rfl⟩, B.refer target T.parameterTypes, _, ⟨?_, rfl⟩, (), _,
      ⟨⟨_, ?_, htypes⟩, rfl⟩, rfl, rfl⟩
    · simp [hB, Block.refer]
    · exact Block.typeOf?_push_last _ _

@[simp] theorem runs_jump :
    Runs (jump b target) s u s' ↔
      ∃ B T args, s.graph.block? b = some B ∧ s.graph.block? target = some T ∧
        B.isTerminated = false ∧ T.signature.arguments B.locals b target = .ok args ∧
        (B.refer target T.parameterTypes).HasTypes args T.parameterTypes ∧
        s' = s.updateBlock b fun B =>
          (B.refer target T.parameterTypes).close (.goto ⟨⟨B.registerCount⟩, args⟩) := by
  simp only [jump, Runs.bind_iff, runs_edge, runs_terminate]
  constructor
  · rintro ⟨e, _, ⟨B, T, args, hB, hT, hopen, hargs, htypes, rfl, rfl⟩, -, -, -, rfl⟩
    refine ⟨B, T, args, hB, hT, hopen, hargs, htypes, ?_⟩
    rw [updateBlock_updateBlock]
    exact updateBlock_congr hB rfl
  · rintro ⟨B, T, args, hB, hT, hopen, hargs, htypes, rfl⟩
    refine ⟨_, _, ⟨B, T, args, hB, hT, hopen, hargs, htypes, rfl, rfl⟩,
      B.refer target T.parameterTypes, by simp [hB], hopen, ?_⟩
    rw [updateBlock_updateBlock]
    exact updateBlock_congr hB rfl

@[simp] theorem runs_branchTo {c : Register} {onFalse : BlockId} :
    Runs (branchTo b c target onFalse) s u s' ↔
      ∃ B T F ts fs, s.graph.block? b = some B ∧ s.graph.block? target = some T ∧
        s.graph.block? onFalse = some F ∧ B.isTerminated = false ∧
        T.signature.arguments B.locals b target = .ok ts ∧
        F.signature.arguments B.locals b onFalse = .ok fs ∧
        (B.refer target T.parameterTypes).HasTypes ts T.parameterTypes ∧
        ((B.refer target T.parameterTypes).refer onFalse F.parameterTypes).HasTypes fs
          F.parameterTypes ∧
        s' = s.updateBlock b fun B =>
          ((B.refer target T.parameterTypes).refer onFalse F.parameterTypes).close
            (.branch c ⟨⟨B.registerCount⟩, ts⟩ ⟨⟨B.registerCount + 1⟩, fs⟩) := by
  simp only [branchTo, Runs.bind_iff, runs_edge, runs_terminate]
  constructor
  · rintro ⟨e, _, ⟨B, T, ts, hB, hT, hopen, hts, htypes, rfl, rfl⟩, e', _,
      ⟨B', F', fs, hB', hF', -, hfs, ftypes, rfl, rfl⟩, -, -, -, rfl⟩
    obtain rfl : B.refer target T.parameterTypes = B' := by simpa [hB] using hB'
    obtain ⟨F, hF, hsig, hps⟩ : ∃ F, s.graph.block? onFalse = some F ∧
        F'.signature = F.signature ∧ F'.parameterTypes = F.parameterTypes := by
      by_cases hfb : onFalse = b
      · subst hfb
        obtain rfl : B.refer target T.parameterTypes = F' := by simpa [hB] using hF'
        exact ⟨B, hB, rfl, rfl⟩
      · exact ⟨F', by simpa [hfb] using hF', rfl, rfl⟩
    rw [hsig] at hfs
    rw [hps] at ftypes ⊢
    refine ⟨B, T, F, ts, fs, hB, hT, hF, hopen, hts, hfs, htypes, ftypes, ?_⟩
    rw [updateBlock_updateBlock, updateBlock_updateBlock]
    refine updateBlock_congr hB ?_
    simp [Block.refer]
  · rintro ⟨B, T, F, ts, fs, hB, hT, hF, hopen, hts, hfs, htypes, ftypes, rfl⟩
    obtain ⟨F', hF', hsig, hps⟩ : ∃ F',
        (s.updateBlock b (·.refer target T.parameterTypes)).graph.block? onFalse = some F' ∧
          F'.signature = F.signature ∧ F'.parameterTypes = F.parameterTypes := by
      by_cases hfb : onFalse = b
      · subst hfb
        exact ⟨F.refer target T.parameterTypes, by simp [hF], rfl, rfl⟩
      · exact ⟨F, by simpa [hfb] using hF, rfl, rfl⟩
    refine ⟨_, _, ⟨B, T, ts, hB, hT, hopen, hts, htypes, rfl, rfl⟩, _, _,
      ⟨B.refer target T.parameterTypes, F', fs, by simp [hB], hF', hopen, hsig ▸ hfs,
        hps ▸ ftypes, rfl, rfl⟩, (B.refer target T.parameterTypes).refer onFalse F.parameterTypes,
      by simp [hB, hps], hopen, ?_⟩
    rw [updateBlock_updateBlock, updateBlock_updateBlock]
    refine updateBlock_congr hB ?_
    simp [Block.refer, hps]

end Builder

end BlockGraph
