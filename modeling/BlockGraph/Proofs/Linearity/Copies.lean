import BlockGraph.Proofs.CopyPropagation
import BlockGraph.Proofs.Linearity.Handover

namespace BlockGraph

section Rewriting

variable {ε α β : Type}

theorem option_mapM_eq_ok {f : α → Except ε β} {o : Option α} {o' : Option β}
    (h : o.mapM f = .ok o') : List.Forall₂ (fun a b => f a = .ok b) o.toList o'.toList := by
  cases o with
  | none =>
    obtain rfl := pure_eq_ok.1 h
    exact .nil
  | some a =>
    obtain ⟨b, hb, rfl⟩ := option_mapM_some_eq_ok.1 h
    exact .cons hb .nil

theorem Terminator.registers_of_mapM {f : Register → Except ε Register} {e e' : Terminator}
    (h : e.mapM f = .ok e') : List.Forall₂ (fun r r' => f r = .ok r') e.registers e'.registers :=
  (Terminator.covers.of_rewrite_eq_ok h).2

end Rewriting

namespace Operation

variable {op op' : Operation} (h : op'.form = op.form)

include h

theorem eq_new_of_form {l : LayoutId} (hop : op = .new l) : op' = .new l := by
  subst hop
  cases op' <;> simp_all [form, Operation.mapM]

theorem eq_blockRef_of_form {b : BlockId} (hop : op = .blockRef b) : op' = .blockRef b := by
  subst hop
  cases op' <;> simp_all [form, Operation.mapM]

theorem eq_cast_of_form {c : CastOp} {o : Register} (hop : op = .cast c o) : ∃ o', op' = .cast c o' := by
  subst hop
  cases op' <;> simp_all [form, Operation.mapM]

theorem eq_getField_of_form {o : Register} {n : Nat} (hop : op = .getField o n) :
    ∃ o', op' = .getField o' n := by
  subst hop
  cases op' <;> simp_all [form, Operation.mapM]

theorem eq_setField_of_form {o v : Register} {n : Nat} (hop : op = .setField o n v) :
    ∃ o' v', op' = .setField o' n v' := by
  subst hop
  cases op' <;> simp_all [form, Operation.mapM]

end Operation

namespace Instruction

def stays (i : Instruction) : Bool := i.operation.copy?.isNone

structure Renamed (t : Renaming) (i i' : Instruction) : Prop where
  type : i'.type = i.type
  form : i'.operation.form = i.operation.form
  operands : List.Forall₂ (fun r r' => t[r.index]? = some r') i.operation.operands
    i'.operation.operands

theorem Renamed.append {t : Renaming} {i i' : Instruction} (h : i.Renamed t i') (more : Renaming) :
    i.Renamed (t ++ more) i' :=
  ⟨h.type, h.form, h.operands.imp fun _ _ hr => by
    rw [List.getElem?_append_left (List.getElem?_eq_some_iff.1 hr).1, hr]⟩

end Instruction

inductive Drops (n : Nat) : List Instruction → Renaming → List Instruction → Prop
  | nil : Drops n [] ((List.range n).map Register.mk) []
  | copy {is ks : List Instruction} {t : Renaming} {r r' : Register} {type : ValueType} (h : Drops n is t ks)
      (hr : t[r.index]? = some r') : Drops n (is ++ [⟨.copy r, type⟩]) (t ++ [r']) ks
  | keep {is ks : List Instruction} {t : Renaming} {i i' : Instruction} (h : Drops n is t ks)
      (hi : i.Renamed t i') (hstays : i.stays = true) :
      Drops n (is ++ [i]) (t ++ [⟨n + ks.length⟩]) (ks ++ [i'])

theorem getElem?_concat_eq_some {α : Type} {l : List α} {a x : α} {i : Nat} :
    (l ++ [a])[i]? = some x ↔ l[i]? = some x ∨ i = l.length ∧ x = a := by
  grind

theorem Block.dropCopies_drops (b : Block) {rest is ks ks' : List Instruction} {t t' : Renaming}
    (h : b.dropCopies t ks rest = .ok (t', ks')) (hd : Drops b.parameters.length is t ks) :
    Drops b.parameters.length (is ++ rest) t' ks' := by
  induction rest generalizing is t ks with
  | nil =>
    obtain ⟨rfl, rfl⟩ : t = t' ∧ ks = ks' := by simpa [dropCopies] using h
    simpa using hd
  | cons i rest ih =>
    simp only [dropCopies, bind_eq_ok] at h
    obtain ⟨op, hop, h⟩ := h
    rw [List.append_cons]
    rcases Operation.copy?_of_mapM_eq_ok hop with ⟨hnone, hstays⟩ | ⟨r, r', hr, rfl, hrr⟩
    · rw [hnone] at h
      obtain ⟨hform, hoperands⟩ := Operation.mapM_eq_ok hop
      refine ih h (.keep hd ⟨rfl, hform, ?_⟩ (by simp [Instruction.stays, hstays]))
      exact (mapM_eq_ok.1 hoperands).imp fun _ _ hr => Renaming.apply_eq_ok.1 hr
    · obtain ⟨op, type⟩ := i
      obtain rfl := hr
      exact ih h (.copy hd (Renaming.apply_eq_ok.1 hrr))

namespace Drops

variable {n : Nat} {is ks : List Instruction} {t : Renaming} {i i' : Instruction} {k : Nat}

theorem length (h : Drops n is t ks) : t.length = n + is.length := by
  induction h with
  | nil => simp
  | copy _ _ ih => simp [ih, Nat.add_assoc]
  | keep _ _ _ ih => simp [ih, Nat.add_assoc]

theorem parameter (h : Drops n is t ks) {r : Nat} (hr : r < n) : t[r]? = some ⟨r⟩ := by
  induction h with
  | nil => simp [hr]
  | copy _ _ ih => exact getElem?_concat_eq_some.2 (.inl ih)
  | keep _ _ _ ih => exact getElem?_concat_eq_some.2 (.inl ih)

theorem lt (h : Drops n is t ks) {r : Nat} {r' : Register} (hr : t[r]? = some r') :
    r'.index < n + ks.length := by
  induction h generalizing r r' with
  | nil =>
    obtain ⟨m, hm, rfl⟩ : ∃ m, (List.range n)[r]? = some m ∧ Register.mk m = r' := by simpa using hr
    exact List.mem_range.1 (List.mem_of_getElem? hm)
  | copy h hs ih =>
    rcases getElem?_concat_eq_some.1 hr with hr | ⟨-, rfl⟩
    · exact ih hr
    · exact ih hs
  | keep h _ _ ih =>
    rw [List.length_append, List.length_singleton]
    rcases getElem?_concat_eq_some.1 hr with hr | ⟨-, rfl⟩
    · have := ih hr
      omega
    · dsimp only
      omega

def rank (is : List Instruction) (k : Nat) : Nat := (is.take k).countP (·.stays)

theorem rank_append (hk : is[k]? = some i) (more : List Instruction) :
    rank (is ++ more) k = rank is k := by
  have hlt := (List.getElem?_eq_some_iff.1 hk).1
  rw [rank, List.take_append_of_le_length (by omega), rank]

theorem rank_length (more : List Instruction) :
    rank (is ++ more) is.length = is.countP (·.stays) := by
  rw [rank, List.take_append_of_le_length (Nat.le_refl _), List.take_length]

theorem rank_succ (hk : is[k]? = some i) (hi : i.stays = true) : rank is (k + 1) = rank is k + 1 := by
  simp [rank, List.take_add_one, hk, List.countP_append, hi]

theorem length_kept (h : Drops n is t ks) : ks.length = is.countP (·.stays) := by
  induction h with
  | nil => rfl
  | copy _ _ ih => simp [ih, Instruction.stays, Operation.copy?]
  | keep _ _ hstays ih => simp [ih, hstays]

theorem kept (h : Drops n is t ks) (hk : is[k]? = some i) (hi : i.stays = true) :
    t[n + k]? = some ⟨n + rank is k⟩ ∧ ∃ i', ks[rank is k]? = some i' ∧ i.Renamed t i' := by
  induction h with
  | nil => simp at hk
  | copy h hr ih =>
    rcases getElem?_concat_eq_some.1 hk with hk | ⟨-, rfl⟩
    · obtain ⟨hreg, i', hi', hrenamed⟩ := ih hk
      rw [rank_append hk]
      exact ⟨getElem?_concat_eq_some.2 (.inl hreg), i', hi', hrenamed.append _⟩
    · simp [Instruction.stays, Operation.copy?] at hi
  | keep h hrenamed hstays ih =>
    rcases getElem?_concat_eq_some.1 hk with hk | ⟨rfl, rfl⟩
    · obtain ⟨hreg, i', hi', hrenamed⟩ := ih hk
      rw [rank_append hk]
      exact ⟨getElem?_concat_eq_some.2 (.inl hreg), i', getElem?_concat_eq_some.2 (.inl hi'),
        hrenamed.append _⟩
    · rw [rank_length, ← h.length_kept, ← h.length]
      exact ⟨List.getElem?_concat_length, _, List.getElem?_concat_length, hrenamed.append _⟩

theorem origin (h : Drops n is t ks) {m : Nat} (hm : ks[m]? = some i') :
    ∃ k i, is[k]? = some i ∧ i.stays = true ∧ rank is k = m ∧ i.Renamed t i' := by
  induction h with
  | nil => simp at hm
  | copy h hr ih =>
    obtain ⟨k, i, hk, hi, hrank, hrenamed⟩ := ih hm
    exact ⟨k, i, getElem?_concat_eq_some.2 (.inl hk), hi, (rank_append hk _).trans hrank,
      hrenamed.append _⟩
  | keep h hrenamed hstays ih =>
    rcases getElem?_concat_eq_some.1 hm with hm | ⟨rfl, rfl⟩
    · obtain ⟨k, i, hk, hi, hrank, hrenamed⟩ := ih hm
      exact ⟨k, i, getElem?_concat_eq_some.2 (.inl hk), hi, (rank_append hk _).trans hrank,
        hrenamed.append _⟩
    · exact ⟨_, _, List.getElem?_concat_length, hstays, (rank_length _).trans h.length_kept.symm,
        hrenamed.append _⟩

theorem unique (h : Drops n is t ks) (hk : is[k]? = some i) (hi : i.stays = true) {r : Nat}
    (hr : t[r]? = some ⟨n + rank is k⟩) :
    r = n + k ∨ ∃ type, (⟨.copy ⟨n + k⟩, type⟩ : Instruction) ∈ is := by
  induction h generalizing r with
  | nil => simp at hk
  | @copy is ks t c c' type h hc ih =>
    rcases getElem?_concat_eq_some.1 hk with hk | ⟨-, rfl⟩
    · rw [rank_append hk] at hr
      rcases getElem?_concat_eq_some.1 hr with hr | ⟨rfl, rfl⟩
      · exact (ih hk hr).imp_right fun ⟨ty, hmem⟩ => ⟨ty, List.mem_append_left _ hmem⟩
      -- the new register is that of the source, so this copy or an earlier one leads to it
      · rcases ih hk hc with hc | ⟨ty, hmem⟩
        · exact .inr ⟨type, by simp [← hc]⟩
        · exact .inr ⟨ty, List.mem_append_left _ hmem⟩
    · simp [Instruction.stays, Operation.copy?] at hi
  | @keep is ks t j j' h hrenamed hstays ih =>
    rcases getElem?_concat_eq_some.1 hk with hk | ⟨rfl, rfl⟩
    · rw [rank_append hk] at hr
      rcases getElem?_concat_eq_some.1 hr with hr | ⟨-, hr⟩
      · exact (ih hk hr).imp_right fun ⟨ty, hmem⟩ => ⟨ty, List.mem_append_left _ hmem⟩
      · obtain ⟨-, i', hi', -⟩ := h.kept hk hi
        have hlt := (List.getElem?_eq_some_iff.1 hi').1
        have heq : rank is k = ks.length := by simpa using hr
        omega
    · rw [rank_length, ← h.length_kept] at hr
      rcases getElem?_concat_eq_some.1 hr with hr | ⟨rfl, -⟩
      · have hlt := h.lt hr
        dsimp only at hlt
        omega
      · exact .inl h.length

end Drops

namespace Block

structure Propagates (t : Renaming) (B B' : Block) : Prop where
  parameters : B'.parameters = B.parameters
  signature : B'.signature = B.signature
  isFinal : B'.isFinal = B.isFinal
  drops : Drops B.parameters.length B.instructions t B'.instructions
  slot : List.Forall₂ (fun r r' => t[r.index]? = some r') B.locals.returnSlot.toList
    B'.locals.returnSlot.toList
  exit : List.Forall₂ (fun e e' : Terminator => List.Forall₂ (fun r r' => t[r.index]? = some r')
    e.registers e'.registers) B.terminator.toList B'.terminator.toList

theorem propagates_of_eq_ok {B B' : Block} {n : Nat} (h : B.propagateCopies = .ok (B', n)) :
    ∃ t, Propagates t B B' := by
  simp only [propagateCopies, bind_eq_ok, pure_eq_ok, Prod.mk.injEq] at h
  obtain ⟨⟨t, ks⟩, hdrop, exit, hexit, l, hl, rfl, -⟩ := h
  refine ⟨t, rfl, rfl, rfl, B.dropCopies_drops hdrop .nil, ?_, ?_⟩
  · simp only [Locals.mapM, bind_eq_ok, pure_eq_ok] at hl
    obtain ⟨slot, hslot, -, -, -, -, rfl⟩ := hl
    exact (option_mapM_eq_ok hslot).imp fun _ _ hr => Renaming.apply_eq_ok.1 hr
  · refine (option_mapM_eq_ok hexit).imp fun e e' he => ?_
    exact (Terminator.registers_of_mapM he).imp fun _ _ hr => Renaming.apply_eq_ok.1 hr

variable {B B' : Block} {t : Renaming} {k : Nat} {i i' : Instruction}

theorem instruction?_eq_some {r : Register} : B.instruction? r = some i ↔
    ∃ k, r = ⟨B.parameters.length + k⟩ ∧ B.instructions[k]? = some i := by
  unfold instruction?
  constructor
  · intro h
    split at h
    · simp at h
    case isFalse hle =>
      refine ⟨r.index - B.parameters.length, ?_, h⟩
      rw [Nat.add_sub_cancel' (Nat.le_of_not_lt hle)]
  · rintro ⟨k, rfl, hk⟩
    simpa using hk

theorem Propagates.kept (h : Propagates t B B')
    (hk : B.instruction? ⟨B.parameters.length + k⟩ = some i) (hi : i.stays = true) :
    t[B.parameters.length + k]? = some ⟨B.parameters.length + Drops.rank B.instructions k⟩ ∧
      ∃ i', B'.instruction? ⟨B.parameters.length + Drops.rank B.instructions k⟩ = some i' ∧
        i.Renamed t i' := by
  obtain ⟨k', hk', hi'⟩ := instruction?_eq_some.1 hk
  obtain rfl : k = k' := by simpa using hk'
  obtain ⟨hreg, j, hj, hrenamed⟩ := h.drops.kept hi' hi
  exact ⟨hreg, j, instruction?_eq_some.2 ⟨_, by rw [h.parameters], hj⟩, hrenamed⟩

theorem Propagates.origin (h : Propagates t B B') {q : Register} (hq : B'.instruction? q = some i') :
    ∃ k i, B.instruction? ⟨B.parameters.length + k⟩ = some i ∧ i.stays = true ∧
      q = ⟨B.parameters.length + Drops.rank B.instructions k⟩ ∧ i.Renamed t i' := by
  obtain ⟨m, rfl, hm⟩ := instruction?_eq_some.1 hq
  obtain ⟨k, i, hk, hi, rfl, hrenamed⟩ := h.drops.origin hm
  exact ⟨k, i, instruction?_eq_some.2 ⟨k, rfl, hk⟩, hi, by rw [h.parameters], hrenamed⟩

theorem Propagates.unique (h : Propagates t B B')
    (hk : B.instruction? ⟨B.parameters.length + k⟩ = some i) (hi : i.stays = true)
    (hcopy : ∀ q type, B.instruction? q ≠ some ⟨.copy ⟨B.parameters.length + k⟩, type⟩)
    {r : Register} (hr : t[r.index]? = some ⟨B.parameters.length + Drops.rank B.instructions k⟩) :
    r = ⟨B.parameters.length + k⟩ := by
  obtain ⟨k', hk', hi'⟩ := instruction?_eq_some.1 hk
  obtain rfl : k = k' := by simpa using hk'
  rcases h.drops.unique hi' hi hr with hr | ⟨type, hmem⟩
  · rw [← hr]
  · obtain ⟨q, hq⟩ := List.mem_iff_getElem?.1 hmem
    exact absurd (instruction?_eq_some.2 ⟨q, rfl, hq⟩) (hcopy _ type)

theorem Propagates.isTerminated (h : Propagates t B B') : B'.isTerminated = B.isTerminated := by
  have hexit : B'.terminator.isSome = B.terminator.isSome := by
    have hlen := h.exit.length_eq
    cases hB : B.terminator <;> cases hB' : B'.terminator <;> simp [hB, hB'] at hlen ⊢
  rw [Block.isTerminated, Block.isTerminated, hexit, h.isFinal]

theorem Propagates.resumes_of (h : Propagates t B B') (hresumes : B'.Resumes) : B.Resumes := by
  refine ⟨h.parameters ▸ hresumes.parameters, h.signature ▸ hresumes.signature, fun hslot => ?_⟩
  have hpos : 0 < B.parameters.length := List.length_pos_iff.2 (h.parameters ▸ hresumes.parameters)
  have hslots := h.slot
  rw [hslot, Option.toList_some] at hslots
  obtain ⟨r', rs, hr', -, hB'⟩ := List.forall₂_cons_left_iff.1 hslots
  obtain rfl := Option.some.inj (hr'.symm.trans (h.drops.parameter hpos))
  refine hresumes.slot ?_
  cases hB : B'.locals.returnSlot with
  | none => simp [hB] at hB'
  | some r => simp_all

theorem Propagates.loadsSlot (h : Propagates t B B') (hloads : B.LoadsSlot) : B'.LoadsSlot := by
  intro r' hr'
  have hslots := h.slot
  rw [hr', Option.toList_some] at hslots
  obtain ⟨r, hr, htr⟩ := forall₂_mem_right hslots (List.mem_singleton_self r')
  obtain ⟨o, n, type, hi⟩ := hloads r (Option.mem_toList.1 hr)
  obtain ⟨k, rfl, -⟩ := instruction?_eq_some.1 hi
  obtain ⟨hreg, i', hi', hrenamed⟩ := h.kept hi rfl
  obtain rfl := Option.some.inj (htr.symm.trans hreg)
  obtain ⟨o', ho'⟩ := Operation.eq_getField_of_form hrenamed.form rfl
  exact ⟨o', n, i'.type, hi'.trans (by rw [← ho'])⟩

theorem Propagates.resumes (h : Propagates t B B') (hresumes : B.Resumes) (hloads : B.LoadsSlot) :
    B'.Resumes := by
  refine ⟨h.parameters ▸ hresumes.parameters, h.signature ▸ hresumes.signature, fun hslot => ?_⟩
  obtain ⟨o, n, type, hi⟩ := h.loadsSlot hloads _ hslot
  have hpos : 0 < B'.parameters.length := List.length_pos_iff.2 (h.parameters ▸ hresumes.parameters)
  simp [instruction?, hpos] at hi

theorem Propagates.unpacks (h : Propagates t B B') {l : LayoutId} (hunpacks : B.Unpacks l)
    (hpos : B.parameters ≠ []) : B'.Unpacks l := by
  obtain ⟨-, ⟨op, type⟩, hi', hrenamed⟩ := h.kept (k := 0) hunpacks rfl
  obtain ⟨o, rfl⟩ := Operation.eq_cast_of_form hrenamed.form rfl
  obtain ⟨ho, -⟩ := List.forall₂_cons.1 hrenamed.operands
  obtain rfl := Option.some.inj (ho.symm.trans (h.drops.parameter (List.length_pos_iff.2 hpos)))
  obtain rfl := hrenamed.type
  rw [Unpacks, h.parameters]
  exact hi'

theorem Propagates.handsOver (h : Propagates t B B') {l : LayoutId} {c : BlockId}
    (hhands : B.HandsOver (B.parameters.length + k) l c) :
    B'.HandsOver (B.parameters.length + Drops.rank B.instructions k) l c := by
  obtain ⟨tref, href⟩ := hhands.refer
  obtain ⟨tstore, hstore⟩ := hhands.store
  obtain ⟨hreg₀, ⟨op₀, type₀⟩, hi₀, hrenamed₀⟩ := h.kept hhands.new rfl
  obtain ⟨hreg₁, ⟨op₁, type₁⟩, hi₁, hrenamed₁⟩ := h.kept (k := k + 1) href rfl
  obtain ⟨hreg₂, ⟨op₂, type₂⟩, hi₂, hrenamed₂⟩ := h.kept (k := k + 2) hstore rfl
  obtain ⟨k', hk', hcode⟩ := instruction?_eq_some.1 hhands.new
  obtain rfl : k = k' := by simpa using hk'
  obtain ⟨k₁, hk₁, hcode₁⟩ := instruction?_eq_some.1 href
  obtain rfl : k + 1 = k₁ := by simpa [Nat.add_assoc] using hk₁
  have hrank₁ := Drops.rank_succ hcode rfl
  have hrank₂ : Drops.rank B.instructions (k + 2) = _ := Drops.rank_succ hcode₁ rfl
  rw [hrank₁] at hrank₂ hreg₁ hi₁
  rw [hrank₂] at hreg₂ hi₂
  have hunique {r : Register}
      (hr : t[r.index]? = some ⟨B.parameters.length + Drops.rank B.instructions k + 1⟩) :
      r = ⟨B.parameters.length + k + 1⟩ := by
    refine h.unique (k := k + 1) href rfl (fun q type hq => ?_) (by rw [hrank₁]; exact hr)
    obtain rfl := hhands.once q _ hq (List.mem_singleton_self _)
    simp [hstore] at hq
  obtain rfl := Operation.eq_new_of_form hrenamed₀.form rfl
  obtain rfl := Operation.eq_blockRef_of_form hrenamed₁.form rfl
  obtain ⟨o, v, rfl⟩ := Operation.eq_setField_of_form hrenamed₂.form rfl
  obtain ⟨ho, hv⟩ := List.forall₂_cons.1 hrenamed₂.operands
  obtain ⟨hv, -⟩ := List.forall₂_cons.1 hv
  obtain rfl := Option.some.inj (ho.symm.trans hreg₀)
  obtain rfl := Option.some.inj (hv.symm.trans hreg₁)
  refine ⟨?_, ⟨type₁, hi₁⟩, ⟨type₂, hi₂⟩, fun q i' hq hmem => ?_, fun e' he' hmem => ?_⟩
  · obtain rfl := hrenamed₀.type
    exact hi₀
  · obtain ⟨m, i, hi, -, rfl, hrenamed⟩ := h.origin hq
    obtain ⟨r, hr, htr⟩ := forall₂_mem_right hrenamed.operands hmem
    obtain rfl := hunique htr
    have hm := hhands.once _ i hi hr
    obtain rfl : m = k + 2 := by simpa [Nat.add_assoc] using hm
    rw [hrank₂]
    rfl
  · have hexit := h.exit
    rw [he', Option.toList_some] at hexit
    obtain ⟨e, he, hregs⟩ := forall₂_mem_right hexit (List.mem_singleton_self e')
    obtain ⟨r, hr, htr⟩ := forall₂_mem_right hregs hmem
    obtain rfl := hunique htr
    exact hhands.exit e (Option.mem_toList.1 he) hr

end Block

namespace Graph

variable {g g' : Graph} {b c : BlockId} {l : LayoutId} {r : Nat} {removed : Nat}

structure Propagates (g g' : Graph) : Prop where
  layouts : g'.layouts = g.layouts
  blocks : List.Forall₂ (fun B B' => ∃ t, Block.Propagates t B B') g.blocks g'.blocks

theorem propagates_of_eq_ok (h : g.propagateCopies.result = .ok (g', removed)) : g.Propagates g' := by
  refine ⟨?_, (propagateCopies_eq_ok h).imp fun _ _ ⟨_, hB⟩ => Block.propagates_of_eq_ok hB⟩
  simp only [propagateCopies, Logged.bind_result_eq_ok] at h
  obtain ⟨⟨blocks, _⟩, -, -, -, h⟩ := h
  obtain ⟨rfl, -⟩ := Prod.mk.inj (Except.ok.inj h)
  rfl

namespace Propagates

variable (h : g.Propagates g')

include h

theorem layout? (l : LayoutId) : g'.layout? l = g.layout? l := by
  rw [Graph.layout?, h.layouts, Graph.layout?]

theorem isContext : g'.IsContext l ↔ g.IsContext l := by
  rw [IsContext, IsContext, h.layout?]

theorem isReturn : g'.IsReturn l ↔ g.IsReturn l := by
  rw [IsReturn, IsReturn, h.layout?]

theorem block {B : Block} (hB : g.block? b = some B) :
    ∃ B' t, g'.block? b = some B' ∧ Block.Propagates t B B' := by
  obtain ⟨hlen, hget⟩ := List.forall₂_iff_get.1 h.blocks
  obtain ⟨hlt, rfl⟩ := List.getElem?_eq_some_iff.1 hB
  have hlt' : b.index < g'.blocks.length := hlen ▸ hlt
  obtain ⟨t, ht⟩ := hget b.index hlt hlt'
  exact ⟨_, t, List.getElem?_eq_getElem hlt', ht⟩

theorem block_of {B' : Block} (hB' : g'.block? b = some B') :
    ∃ B t, g.block? b = some B ∧ Block.Propagates t B B' := by
  obtain ⟨hlt', -⟩ := List.getElem?_eq_some_iff.1 hB'
  have hlt : b.index < g.blocks.length := h.blocks.length_eq ▸ hlt'
  have hB : g.block? b = some g.blocks[b.index] := List.getElem?_eq_getElem hlt
  obtain ⟨B'', t, hB'', ht⟩ := h.block hB
  obtain rfl := Option.some.inj (hB'.symm.trans hB'')
  exact ⟨_, t, hB, ht⟩

theorem instructionAt {q : Register} {i' : Instruction} (hi' : g'.InstructionAt b q i') :
    ∃ B t k i, g.block? b = some B ∧ g.InstructionAt b ⟨B.parameters.length + k⟩ i ∧ i.Renamed t i' ∧
      q = ⟨B.parameters.length + Drops.rank B.instructions k⟩ := by
  obtain ⟨B', hB', hq⟩ := hi'
  obtain ⟨B, t, hB, hp⟩ := h.block_of hB'
  obtain ⟨k, i, hi, -, hq, hrenamed⟩ := hp.origin hq
  exact ⟨B, t, k, i, hB, ⟨B, hB, hi⟩, hrenamed, hq⟩

theorem handover (hh : g.Handover b r l c) : ∃ r', g'.Handover b r' l c := by
  obtain ⟨B, hB, hclosed, hhands⟩ := hh.caller
  obtain ⟨R, hR, hresumes, hloads, hunpacks⟩ := hh.resumed
  obtain ⟨B', t, hB', hp⟩ := h.block hB
  obtain ⟨R', u, hR', hpR⟩ := h.block hR
  obtain ⟨k, hk, hcode⟩ := Block.instruction?_eq_some.1 hhands.new
  obtain rfl : r = B.parameters.length + k := by simpa using hk
  refine ⟨_, ⟨B', hB', by rw [hp.isTerminated, hclosed], hp.handsOver hhands⟩,
    ⟨R', hR', hpR.resumes hresumes hloads, hpR.loadsSlot hloads, ?_⟩, fun d q type href => ?_,
    fun hcontext d q type hnew => ?_⟩
  · rw [h.isReturn, h.isContext]
    refine hunpacks.imp_right fun ⟨hcontext, hunpacks, honly⟩ =>
      ⟨hcontext, hpR.unpacks hunpacks hresumes.parameters, fun d q o hcast => ?_⟩
    obtain ⟨D, v, m, ⟨op, type⟩, hD, hi, hrenamed, rfl⟩ := h.instructionAt hcast
    obtain ⟨o', rfl⟩ := Operation.eq_cast_of_form hrenamed.form.symm rfl
    obtain rfl := hrenamed.type
    obtain ⟨rfl, hm⟩ := honly d _ o' hi
    obtain rfl := Option.some.inj (hD.symm.trans hR)
    obtain rfl : m = 0 := by simpa using hm
    rw [hpR.parameters]
    exact ⟨rfl, rfl⟩
  · obtain ⟨D, v, m, ⟨op, type'⟩, hD, hi, hrenamed, rfl⟩ := h.instructionAt href
    obtain rfl := Operation.eq_blockRef_of_form hrenamed.form.symm rfl
    obtain ⟨rfl, hm⟩ := hh.reference d _ _ hi
    obtain rfl := Option.some.inj (hD.symm.trans hB)
    obtain rfl : m = k + 1 := by simpa [Nat.add_assoc] using hm
    rw [Drops.rank_succ hcode rfl]
    exact ⟨rfl, rfl⟩
  · obtain ⟨D, v, m, ⟨op, type'⟩, hD, hi, hrenamed, rfl⟩ := h.instructionAt hnew
    obtain rfl := Operation.eq_new_of_form hrenamed.form.symm rfl
    obtain ⟨rfl, hm⟩ := hh.allocation (h.isContext.1 hcontext) d _ _ hi
    obtain rfl := Option.some.inj (hD.symm.trans hB)
    obtain rfl : m = k := by simpa using hm
    exact ⟨rfl, rfl⟩

theorem linear (hg : g.Linear) : g'.Linear := by
  refine ⟨fun l hl => ?_, fun c R' hR' hresumes => ?_, fun d q o type hcast => ?_⟩
  · obtain ⟨b, r, c, hh⟩ := hg.contexts l (h.isContext.1 hl)
    exact ⟨b, _, c, (h.handover hh).choose_spec⟩
  · obtain ⟨R, t, hR, hp⟩ := h.block_of hR'
    obtain ⟨b, r, l, hh⟩ := hg.resumptions c R hR (hp.resumes_of hresumes)
    exact ⟨b, _, l, (h.handover hh).choose_spec⟩
  · obtain ⟨D, v, m, ⟨op, type'⟩, hD, hi, hrenamed, rfl⟩ := h.instructionAt hcast
    obtain ⟨o', rfl⟩ := Operation.eq_cast_of_form hrenamed.form.symm rfl
    obtain rfl := hrenamed.type
    obtain ⟨l, rfl, hl⟩ := hg.downcasts d _ o' _ hi
    exact ⟨l, rfl, h.isContext.2 hl⟩

end Propagates

end Graph

end BlockGraph
