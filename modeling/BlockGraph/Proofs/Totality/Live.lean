import BlockGraph.Proofs.Builder.Advances
import BlockGraph.Proofs.Source.Contexts

namespace BlockGraph

open Analysis

namespace Block

variable {low low' : SourceType → Option ValueType} {B B' T : Block} {Γ Δ : Context}
  {σ τ : List ValueType} {slot : Option ValueType}

structure Represents (B : Block) (low : SourceType → Option ValueType) (e : String × Symbol)
    (v : Variable) : Prop where
  name : e.1 = v.name
  type : low v.type = some e.2.type
  assigned : e.2.register.isSome = v.assigned
  register : ∀ r, e.2.register = some r → B.typeOf? r = some e.2.type

structure Holds (B : Block) (low : SourceType → Option ValueType) (Γ : Context)
    (σ : List ValueType) (slot : Option ValueType) : Prop where
  symbols : List.Forall₂ (B.Represents low) B.locals.symbols.entries Γ
  stack : B.HasTypes B.locals.stack σ
  slot : B.HasTypes B.locals.returnSlot.toList slot.toList

structure Expects (T : Block) (low : SourceType → Option ValueType) (Γ : Context)
    (σ : List ValueType) (slot : Option ValueType) : Prop where
  signature : T.signature = ⟨slot.isSome, (Γ.filter (·.assigned)).map (·.name), σ.length⟩
  parameters : ∃ ts, List.Forall₂ (fun v t => low v.type = some t) (Γ.filter (·.assigned)) ts ∧
    T.parameterTypes = slot.toList ++ ts ++ σ

theorem Represents.mono {e : String × Symbol} {v : Variable} (h : B.Represents low e v)
    (hlow : ∀ t vt, low t = some vt → low' t = some vt)
    (hB : ∀ r t, B.typeOf? r = some t → B'.typeOf? r = some t) : B'.Represents low' e v :=
  ⟨h.name, hlow _ _ h.type, h.assigned, fun r hr => hB _ _ (h.register r hr)⟩

theorem Holds.mono (h : B.Holds low Γ σ slot) (hlow : ∀ t vt, low t = some vt → low' t = some vt)
    (hB : ∀ r t, B.typeOf? r = some t → B'.typeOf? r = some t) (hlocals : B'.locals = B.locals) :
    B'.Holds low' Γ σ slot := by
  constructor <;> rw [hlocals]
  · exact h.symbols.imp fun _ _ hv => hv.mono hlow hB
  · exact h.stack.mono hB
  · exact h.slot.mono hB

theorem Expects.mono (h : T.Expects low Γ σ slot) (hlow : ∀ t vt, low t = some vt → low' t = some vt)
    (hT : T.Extends B') : B'.Expects low' Γ σ slot := by
  obtain ⟨ts, hts, hps⟩ := h.parameters
  exact ⟨hT.signature.trans h.signature, ts, hts.imp fun _ _ => hlow _ _,
    hT.parameterTypes.trans hps⟩

theorem Holds.push (h : B.Holds low Γ σ slot) (i : Instruction) : (B.push i).Holds low Γ σ slot :=
  h.mono (fun _ _ h => h) (fun _ _ => typeOf?_push) rfl

theorem Holds.close (h : B.Holds low Γ σ slot) (t : Terminator) : (B.close t).Holds low Γ σ slot :=
  h.mono (fun _ _ h => h) (fun _ _ h => h) rfl

theorem Holds.withStack (h : B.Holds low Γ σ slot) {rs : List Register} (hrs : B.HasTypes rs τ) :
    (B.withLocals { B.locals with stack := rs }).Holds low Γ τ slot :=
  ⟨h.symbols.imp fun _ _ hv => hv.mono (fun _ _ h => h) fun _ _ h => h, hrs, h.slot⟩

theorem Holds.names (h : B.Holds low Γ σ slot) : B.locals.symbols.keys = Γ.map (·.name) :=
  map_eq_map_of_forall₂ h.symbols fun _ _ hv => hv.name

theorem Holds.distinct (h : B.Holds low Γ σ slot) : Γ.Distinct := by
  rw [Context.Distinct, ← h.names]
  exact B.locals.symbols.nodup

theorem Holds.exists_entry (h : B.Holds low Γ σ slot) {v : Variable} (hv : v ∈ Γ) :
    ∃ e ∈ B.locals.symbols.entries, B.Represents low e v :=
  forall₂_mem_right h.symbols hv

theorem Holds.get? (h : B.Holds low Γ σ slot) {v : Variable} (hv : v ∈ Γ) :
    ∃ x, B.locals.symbols.get? v.name = some x ∧ B.Represents low (v.name, x) v := by
  obtain ⟨⟨name, x⟩, he, hrep⟩ := h.exists_entry hv
  obtain rfl : name = v.name := hrep.name
  exact ⟨x, OrderedMap.get?_of_mem he, hrep⟩

theorem Holds.register? (h : B.Holds low Γ σ slot) {n : String} {t : SourceType}
    (hv : ⟨n, t, true⟩ ∈ Γ) :
    ∃ r vt, B.locals.symbols.get? n = some ⟨vt, some r⟩ ∧ low t = some vt ∧
      B.typeOf? r = some vt := by
  obtain ⟨⟨vt, r⟩, hx, hrep⟩ := h.get? hv
  obtain ⟨r, rfl⟩ := Option.isSome_iff_exists.1 hrep.assigned
  exact ⟨r, vt, hx, hrep.type, hrep.register r rfl⟩

theorem Holds.holds (h : B.Holds low Γ σ slot) (n : String) : B.locals.holds n = Γ.holds n := by
  rw [Bool.eq_iff_iff, Context.holds_iff, Locals.holds, SymbolTable.register?]
  constructor
  · intro hn
    cases hx : B.locals.symbols.get? n with
    | none => simp [hx] at hn
    | some x =>
      obtain ⟨k, hk, he⟩ := List.mem_iff_getElem.1 (OrderedMap.mem_of_get? hx)
      have hlen := h.symbols.length_eq
      have hrep := h.symbols.get hk (by omega)
      simp only [List.get_eq_getElem, he] at hrep
      refine ⟨(Γ[k]).type, ?_⟩
      have hv : (⟨n, (Γ[k]).type, true⟩ : Variable) = Γ[k] := by
        obtain ⟨hname, -, hassigned, -⟩ := hrep
        cases hG : Γ[k]
        simp_all
      rw [hv]
      exact List.getElem_mem _
  · rintro ⟨t, ht⟩
    obtain ⟨r, vt, hx, -⟩ := h.register? ht
    simp [hx]

theorem Holds.arguments (h : B.Holds low Δ σ slot) (hT : T.Expects low Γ σ slot) (hle : Γ.Le Δ)
    (b c : BlockId) :
    ∃ args, T.signature.arguments B.locals b c = .ok args ∧ B.HasTypes args T.parameterTypes := by
  obtain ⟨ts, hts, hps⟩ := hT.parameters
  have hcarried : ∃ rs, List.Forall₂ (fun n r => B.locals.symbols.register? n = some r)
      ((Γ.filter (·.assigned)).map (·.name)) rs ∧ B.HasTypes rs ts := by
    have hmem : ∀ v ∈ Γ.filter (·.assigned), ⟨v.name, v.type, true⟩ ∈ Δ := by
      intro v hv
      obtain ⟨hv, ha⟩ := List.mem_filter.1 hv
      refine hle.mem ?_
      rw [← ha]
      exact hv
    clear hps hT
    generalize Γ.filter (·.assigned) = vs at hts hmem
    induction hts with
    | nil => exact ⟨[], .nil, .nil⟩
    | @cons v t _ _ ht _ ih =>
      obtain ⟨rs, hrs, htypes⟩ := ih fun w hw => hmem w (by simp [hw])
      obtain ⟨r, vt, hx, hlow, hr⟩ := h.register? (hmem v (by simp))
      obtain rfl := Option.some.inj (ht.symm.trans hlow)
      exact ⟨r :: rs, .cons (by simp [SymbolTable.register?, hx]) hrs, .cons hr htypes⟩
  obtain ⟨rs, hrs, htypes⟩ := hcarried
  refine ⟨B.locals.returnSlot.toList ++ rs ++ B.locals.stack, Signature.arguments_eq_ok.2
    ⟨_, rs, rfl, ?_, ?_, ?_⟩, ?_⟩
  · rw [hT.signature]
    have hslot := h.slot.length_eq
    cases hs : slot <;> cases hr : B.locals.returnSlot <;> simp [hs, hr] at hslot ⊢
  · rw [hT.signature]
    exact hrs
  · rw [hT.signature]
    exact h.stack.length_eq
  · rw [hps]
    exact (h.slot.append htypes).append h.stack

theorem Holds.rebind (h : B.Holds low Γ σ slot) {v : Variable} (hv : v ∈ Γ) {r : Register}
    {vt : ValueType} (hvt : low v.type = some vt) (hr : B.typeOf? r = some vt) :
    ∃ t, B.locals.symbols.rebind v.name r = .ok t ∧
      (B.withLocals { B.locals with symbols := t }).Holds low (Γ.assign v.name) σ slot := by
  obtain ⟨x, hx, -⟩ := h.get? hv
  have hrebind : B.locals.symbols.rebind v.name r =
      .ok (B.locals.symbols.modify v.name fun x => { x with register := some r }) := by
    rw [SymbolTable.rebind, hx]
  refine ⟨_, hrebind, ?_, h.stack, h.slot⟩
  simp only [withLocals_locals, OrderedMap.modify, Context.assign, List.forall₂_map_left_iff,
    List.forall₂_map_right_iff]
  have hdistinct := h.distinct
  refine List.forall₂_iff_get.2 ⟨h.symbols.length_eq, fun k hk hk' => ?_⟩
  have hrep := h.symbols.get hk hk'
  have hmem : Γ.get ⟨k, hk'⟩ ∈ Γ := List.getElem_mem _
  generalize B.locals.symbols.entries.get ⟨k, hk⟩ = e at hrep
  generalize Γ.get ⟨k, hk'⟩ = w at hrep hmem
  by_cases hname : w.name = v.name
  · obtain rfl := hdistinct.eq hmem hv hname
    rw [if_pos hrep.name, if_pos rfl]
    obtain rfl := Option.some.inj (hvt.symm.trans hrep.type)
    refine ⟨hrep.name, hrep.type, rfl, fun r' hr' => ?_⟩
    obtain rfl := Option.some.inj hr'
    exact hr
  · rw [if_neg (by rw [hrep.name]; exact hname), if_neg hname]
    exact hrep.mono (fun _ _ h => h) fun _ _ h => h

theorem Holds.define (h : B.Holds low Γ σ slot) {n : String} (hn : ∀ v ∈ Γ, v.name ≠ n)
    {t : SourceType} {vt : ValueType} (hvt : low t = some vt) {r : Option Register}
    (hr : ∀ r', r = some r' → B.typeOf? r' = some vt) :
    ∃ symbols, B.locals.symbols.define n ⟨vt, r⟩ = .ok symbols ∧
      (B.withLocals { B.locals with symbols }).Holds low (Γ ++ [⟨n, t, r.isSome⟩]) σ slot := by
  have hnew : n ∉ B.locals.symbols.keys := by
    rw [h.names, List.mem_map]
    rintro ⟨v, hv, hname⟩
    exact hn v hv hname
  obtain ⟨m, hm, he⟩ := OrderedMap.insertNew_of_notMem (a := (⟨vt, r⟩ : Symbol)) hnew
  refine ⟨m, by rw [SymbolTable.define, hm], ?_, h.stack, h.slot⟩
  simp only [withLocals_locals, he]
  refine List.rel_append (h.symbols.imp fun _ _ hv => hv.mono (fun _ _ h => h) fun _ _ h => h)
    (.cons ⟨rfl, hvt, rfl, hr⟩ .nil)

end Block

namespace Inflow

variable {low : SourceType → Option ValueType} {i : Inflow} {C : Block} {Γ : Context}
  {τ : List ValueType} {slot : Option ValueType}

theorem block_holds (h : C.Holds low Γ τ slot) (hi : i.symbols = C.locals.symbols) (id : BlockId) :
    (i.block id).Holds low (Γ.keep i.held) i.stack i.slot := by
  refine ⟨?_, ?_, i.block_slot id⟩
  · have hnum := i.forall₂_symbols (·.2.type) i.stack rfl
    have hsymbols := h.symbols
    rw [← hi] at hsymbols
    rw [Context.keep, List.forall₂_map_right_iff]
    refine forall₂_join hnum hsymbols fun e e' v ⟨hname, htype', hsome, hreg⟩ hrep => ?_
    refine ⟨hname.trans hrep.name, hrep.type.trans (by rw [htype']), ?_, fun r hr => ?_⟩
    · rw [← hrep.name]
      exact hsome
    · rw [htype']
      exact block_typeOf? (hreg r hr)
  · exact (i.forall₂_stack (·.2.type) rfl rfl).imp fun r t hr => block_typeOf? hr

theorem block_expects (h : C.Holds low Γ τ slot) (hi : i.symbols = C.locals.symbols) (id : BlockId) :
    (i.block id).Expects low (Γ.keep i.held) i.stack i.slot := by
  have hcarried : List.Forall₂ (fun (e : String × Symbol) (v : Variable) =>
      e.1 = v.name ∧ low v.type = some e.2.type) i.carried ((Γ.keep i.held).filter (·.assigned)) := by
    have hsymbols := h.symbols
    rw [← hi] at hsymbols
    unfold carried
    generalize i.symbols.entries = es at hsymbols
    clear h
    induction hsymbols with
    | nil => exact .nil
    | @cons e v _ _ hv _ ih =>
      rw [Context.keep, List.map_cons, List.filter_cons, List.filter_cons]
      simp only [hv.name]
      cases i.held v.name with
      | true => exact .cons ⟨hv.name, hv.type⟩ ih
      | false => exact ih
  refine ⟨?_, _, ?_, block_parameterTypes i id⟩
  · have hnames : i.carried.map Prod.fst = ((Γ.keep i.held).filter (·.assigned)).map (·.name) :=
      map_eq_map_of_forall₂ hcarried fun _ _ hv => hv.1
    simp only [block, signature, hnames]
  · rw [List.forall₂_map_right_iff]
    exact hcarried.flip.imp fun _ _ hv => hv.2

end Inflow

end BlockGraph
