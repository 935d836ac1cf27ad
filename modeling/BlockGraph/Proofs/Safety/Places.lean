import BlockGraph.Proofs.Linearity.Expressions
import BlockGraph.Proofs.Safety.Blocks
import BlockGraph.Proofs.Totality.Calls
import BlockGraph.Proofs.Totality.Places

namespace BlockGraph.Lowering

open Builder

def Place.depth : Place → Nat
  | .var _ => 0
  | .field _ => 1
  | .element => 2

section Places

variable {s : Builder} {b : BlockId} {r : Register} {t : ValueType} {σ : Shape} {place : Place}

theorem safe_readSymbol {name : String} (hb : s.graph.Open b σ) :
    Builder.Safe (readSymbol b name) s fun r s' => s' = s ∧ s.graph.Typed b r := by
  intro hs
  refine (safe_locals hb.shaped hs).bind ?_
  rintro l s' - ⟨-, -, rfl, B, hB, rfl⟩
  split
  case h_1 t r hget =>
    refine .pure ⟨hs, .refl _, rfl, typed_of_live hs hB ?_⟩
    exact Locals.mem_liveRegisters.2 (.inr (.inl ⟨_, OrderedMap.mem_of_get? hget, rfl⟩))
  case h_2 => exact .throw rfl
  case h_3 => exact .throw rfl

theorem safe_expectObject (hr : s.graph.Typed b r) :
    Builder.Safe (expectObject b r) s fun _ s' => s' = s ∧ True := by
  refine (safe_typeOf hr).bind ?_
  rintro t s' - ⟨rfl, -⟩
  split
  · exact .pure ⟨rfl, trivial⟩
  · exact .throw rfl

theorem safe_load (hb : s.graph.Open b (σ.deeper place.depth)) (ht : s.graph.Proper t) :
    Builder.Safe (load b place t) s fun _ s' => s'.graph.Open b (σ.deeper place.depth) ∧
      s'.graph.Valued b := by
  cases place with
  | var name =>
    refine (safe_readSymbol hb).bind ?_
    rintro r s' - ⟨rfl, hr⟩
    exact (safe_copy hb hr).bind fun r _ _ h => .pure ⟨h.1, r, h.2⟩
  | field index =>
    refine (safe_peek hb Nat.zero_lt_one).bind ?_
    rintro object s' - ⟨rfl, ho⟩
    exact (safe_inert hb (by simpa [Operation.operands] using ho) rfl ht).bind fun r _ _ h =>
      .pure ⟨h.1, r, h.2⟩
  | element =>
    refine (safe_peek hb (by decide)).bind ?_
    rintro array s' - ⟨rfl, ha⟩
    refine (safe_peek hb (by decide)).bind ?_
    rintro index s' - ⟨rfl, hi⟩
    exact (safe_inert hb (by simpa [Operation.operands] using ⟨ha, hi⟩) rfl ht).bind fun r _ _ h =>
      .pure ⟨h.1, r, h.2⟩

theorem safe_store (hb : s.graph.Open b (σ.deeper place.depth)) (hr : s.graph.Typed b r) :
    Builder.Safe (store b place r) s fun _ s' => s'.graph.Open b σ := by
  cases place with
  | var name => exact safe_rebind hb hr
  | field index =>
    refine (safe_pop hb).bind ?_
    rintro object s₁ hpres ⟨hb, ho⟩
    exact (safe_inert hb (by simpa [Operation.operands] using ⟨ho, hr.mono hpres⟩) rfl
      (proper_prim _)).bind fun _ _ _ h => .pure h.1
  | element =>
    refine (safe_popMany hb).bind ?_
    rintro rs s₁ hpres ⟨hb, hlen, hrs⟩
    obtain ⟨array, index, rfl⟩ := List.length_eq_two.1 hlen
    have hops : ∀ o ∈ (Operation.setIndex array index r).operands, s₁.graph.Typed b o := by
      simpa [Operation.operands, hr.mono hpres] using hrs
    exact (safe_inert hb hops rfl (proper_prim _)).bind fun _ _ _ h => .pure h.1

theorem oneCast_error {e : Fault} (h : oneCast t = .error e) : e.Excused := by
  unfold oneCast at h
  split at h <;> simp at h
  subst h
  rfl

theorem safe_emitOne (hb : s.graph.Open b σ) (ht : s.graph.Proper t) :
    Builder.Safe (emitOne b t) s fun _ s' => s'.graph.Open b σ ∧ s'.graph.Valued b := by
  refine (safe_inert hb (by simp [Operation.operands]) rfl (proper_prim _)).bind ?_
  rintro one s₁ hpres ⟨hb, hone⟩
  intro hs₁
  refine (Meets.lift_except fun e he => oneCast_error he).bind ?_
  rintro op s' - ⟨hop, rfl⟩
  cases op with
  | none => exact .pure ⟨hs₁, .refl _, hb, one, hone⟩
  | some op =>
    exact (safe_inert hb (by simpa [Operation.operands] using hone) (oneCast_isInert hop)
      (ht.mono hpres)).bind (fun r _ _ h => .pure ⟨h.1, r, h.2⟩) hs₁

theorem safe_update {op : BinaryOp} {old : Bool}
    (hb : s.graph.Open b ((σ.deeper place.depth).deeper 2)) (ht : s.graph.Proper t) :
    Builder.Safe (update b place op t old) s fun _ s' => s'.graph.Open b σ ∧ s'.graph.Valued b := by
  refine (safe_popMany hb).bind fun rs s₁ hpres ⟨hb, hlen, hrs⟩ => ?_
  obtain ⟨a, c, rfl⟩ := List.length_eq_two.1 hlen
  obtain ⟨o, ho, hops⟩ : ∃ o, Operation.linear (.binary op) [a, c] = .ok o ∧ o.operands = [a, c] :=
    Operation.linear_eq_ok hlen
  intro hs₁
  refine .run_bind (Runs.lift_except_iff.2 ⟨ho, rfl⟩) ?_
  refine BlockGraph.Tidies.bind (safe_inert hb (hops ▸ hrs) (linear_isInert ho) (ht.mono hpres)) ?_ hs₁
  rintro new s₂ hpres₂ ⟨hb, hnew⟩
  refine (safe_store hb hnew).bind fun _ s₃ hpres₃ hb => ?_
  have hr : s₃.graph.Typed b (if old then a else new) := by
    split
    · exact ((hrs a (by simp)).mono hpres₂).mono hpres₃
    · exact hnew.mono hpres₃
  exact (safe_copy hb hr).bind fun r _ _ h => .pure ⟨h.1, r, h.2⟩

theorem safe_storeFields {n : Nat} {rs : List Register} (hb : s.graph.Open b σ)
    (hr : s.graph.Typed b r) (hrs : ∀ v ∈ rs, s.graph.Typed b v) :
    Builder.Safe (storeFields b r n rs) s fun _ s' => s'.graph.Open b σ := by
  induction rs generalizing s n with
  | nil => exact .pure hb
  | cons v vs ih =>
    refine (safe_inert hb (by simpa [Operation.operands] using ⟨hr, hrs v (by simp)⟩) rfl
      (proper_prim _)).bind fun _ _ hpres ⟨hb, _⟩ => ?_
    exact ih hb (hr.mono hpres) fun w hw => (hrs w (by simp [hw])).mono hpres

theorem safe_construct {l : LayoutId} {n : Nat} (hb : s.graph.Open b (σ.deeper n))
    (hl : IsClass s.graph l) :
    Builder.Safe (construct b l n) s fun _ s' => s'.graph.Open b σ ∧ s'.graph.Valued b := by
  refine (safe_popMany hb).bind fun rs s₁ hpres ⟨hb, _, hrs⟩ => ?_
  obtain ⟨L, hL, name, horigin⟩ := hl.mono hpres
  refine (safe_emit hb (by simp [Operation.operands]) (.of_new hL (by simp [horigin]))
    (proper_object l)).bind fun object s₂ hpres ⟨hb, ho⟩ => ?_
  refine (safe_storeFields hb ho fun v hv => (hrs v hv).mono hpres).bind fun _ s₃ hpres hb => ?_
  exact (safe_copy hb (ho.mono hpres)).bind fun r _ _ h => .pure ⟨h.1, r, h.2⟩

end Places

end BlockGraph.Lowering
