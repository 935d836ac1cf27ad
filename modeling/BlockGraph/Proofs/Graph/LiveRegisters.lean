import BlockGraph.Proofs.Runs

namespace BlockGraph

variable {σ ε α β : Type}

/-- Called in turn with the first components, from the state `s` on, `f` answers with the second
ones and leaves the state `s'`. -/
inductive Answers (f : Register → StateT σ (Except ε) Register) :
    σ → List (Register × Register) → σ → Prop
  | nil (s : σ) : Answers f s [] s
  | cons {s t s' : σ} {r r' : Register} {calls : List (Register × Register)}
      (call : (f r).run s = .ok (r', t)) (rest : Answers f t calls s') :
      Answers f s ((r, r') :: calls) s'

def noting (f : Register → StateT σ (Except ε) Register) (r : Register) :
    StateT (σ × List (Register × Register)) (Except ε) Register := fun (s, calls) => do
  let (r', s') ← (f r).run s
  return (r', s', calls ++ [(r, r')])

namespace Answers

variable {f : Register → StateT σ (Except ε) Register} {s s' t : σ}
  {calls later noted : List (Register × Register)}

theorem nil_iff : Answers f s [] s' ↔ s' = s := by
  constructor
  · rintro ⟨⟩
    rfl
  · rintro rfl
    exact .nil s'

theorem cons_iff {r r' : Register} :
    Answers f s ((r, r') :: calls) s' ↔
      ∃ t, (f r).run s = .ok (r', t) ∧ Answers f t calls s' := by
  constructor
  · rintro (_ | ⟨hcall, hrest⟩)
    exact ⟨_, hcall, hrest⟩
  · rintro ⟨t, hcall, hrest⟩
    exact .cons hcall hrest

theorem append_iff : Answers f s (calls ++ later) s' ↔
    ∃ t, Answers f s calls t ∧ Answers f t later s' := by
  induction calls generalizing s with
  | nil => simp [nil_iff]
  | cons c calls ih =>
    obtain ⟨r, r'⟩ := c
    simp only [List.cons_append, cons_iff, ih]
    constructor
    · rintro ⟨t, hc, u, hcalls, hlater⟩
      exact ⟨u, ⟨t, hc, hcalls⟩, hlater⟩
    · rintro ⟨u, ⟨t, hc, hcalls⟩, hlater⟩
      exact ⟨t, hc, u, hcalls, hlater⟩

theorem run_noting {r r' : Register} {noted' : List (Register × Register)} :
    (noting f r).run (s, noted) = .ok (r', s', noted') ↔
      (f r).run s = .ok (r', s') ∧ noted' = noted ++ [(r, r')] := by
  change ((f r).run s >>= fun x => pure (x.1, x.2, noted ++ [(r, x.1)])) = _ ↔ _
  simp only [bind_eq_ok, pure_eq_ok, Prod.mk.injEq, Prod.exists]
  constructor
  · rintro ⟨_, _, hf, rfl, rfl, rfl⟩
    exact ⟨hf, rfl⟩
  · rintro ⟨hf, rfl⟩
    exact ⟨_, _, hf, rfl, rfl, rfl⟩

theorem noting_iff {noted' : List (Register × Register)} :
    Answers (noting f) (s, noted) calls (s', noted') ↔
      Answers f s calls s' ∧ noted' = noted ++ calls := by
  induction calls generalizing s noted with
  | nil => simp [nil_iff]
  | cons c calls ih =>
    obtain ⟨r, r'⟩ := c
    simp only [cons_iff, Prod.exists, run_noting]
    constructor
    · rintro ⟨t, _, ⟨hc, rfl⟩, hcalls⟩
      obtain ⟨hrest, rfl⟩ := ih.1 hcalls
      exact ⟨⟨t, hc, hrest⟩, by simp⟩
    · rintro ⟨⟨t, hc, hcalls⟩, rfl⟩
      exact ⟨t, _, ⟨hc, rfl⟩, ih.2 ⟨hcalls, by simp⟩⟩

end Answers

def Enumerates (f : Register → StateT σ (Except ε) Register) (x : StateT σ (Except ε) α)
    (P : List (Register × Register) → α → Prop) : Prop :=
  ∀ s a s', x.run s = .ok (a, s') ↔ ∃ calls, Answers f s calls s' ∧ P calls a

namespace Enumerates

variable {f : Register → StateT σ (Except ε) Register} {x : StateT σ (Except ε) α}
  {P : List (Register × Register) → α → Prop}

theorem pure (a : α) : Enumerates f (pure a) fun calls a' => calls = [] ∧ a' = a := by
  intro s a' s'
  rw [StateT.run_pure, pure_eq_ok, Prod.mk.injEq]
  constructor
  · rintro ⟨rfl, rfl⟩
    exact ⟨[], .nil _, rfl, rfl⟩
  · rintro ⟨_, h, rfl, rfl⟩
    exact ⟨rfl, (Answers.nil_iff.1 h).symm⟩

theorem call (r : Register) : Enumerates f (f r) fun calls r' => calls = [(r, r')] := by
  intro s r' s'
  simp only [exists_eq_right, Answers.cons_iff, Answers.nil_iff]
  exact ⟨fun h => ⟨s', h, rfl⟩, fun ⟨_, h, ht⟩ => ht ▸ h⟩

theorem bind {g : α → StateT σ (Except ε) β} {Q : α → List (Register × Register) → β → Prop}
    (hx : Enumerates f x P) (hg : ∀ a, Enumerates f (g a) (Q a)) :
    Enumerates f (x >>= g) fun calls b =>
      ∃ a c₁ c₂, calls = c₁ ++ c₂ ∧ P c₁ a ∧ Q a c₂ b := by
  intro s b s'
  simp only [StateT.run_bind, bind_eq_ok, Prod.exists, hx _ _ _, hg _ _ _ _]
  constructor
  · rintro ⟨a, t, ⟨c₁, h₁, hP⟩, c₂, h₂, hQ⟩
    exact ⟨c₁ ++ c₂, Answers.append_iff.2 ⟨t, h₁, h₂⟩, a, c₁, c₂, rfl, hP, hQ⟩
  · rintro ⟨_, h, a, c₁, c₂, rfl, hP, hQ⟩
    obtain ⟨t, h₁, h₂⟩ := Answers.append_iff.1 h
    exact ⟨a, t, ⟨c₁, h₁, hP⟩, c₂, h₂, hQ⟩

theorem map (hx : Enumerates f x P) (g : α → β) :
    Enumerates f (do return g (← x)) fun calls b => ∃ a, P calls a ∧ b = g a := by
  intro s b s'
  rw [(hx.bind fun a => Enumerates.pure (g a)) s b s']
  simp

theorem congr {Q : List (Register × Register) → α → Prop} (hx : Enumerates f x P)
    (h : ∀ calls a, P calls a ↔ Q calls a) : Enumerates f x Q :=
  fun s a s' => (hx s a s').trans <| exists_congr fun calls => and_congr_right fun _ => h calls a

end Enumerates

section Parts

variable (f : Register → StateT σ (Except ε) Register)

theorem enumerates_option (o : Option Register) :
    Enumerates f (o.mapM f) fun calls o' =>
      calls.map Prod.fst = o.toList ∧ calls.map Prod.snd = o'.toList := by
  cases o with
  | none =>
    refine (Enumerates.pure (none : Option Register)).congr fun calls o' => ?_
    cases o' <;> simp +contextual
  | some r =>
    refine ((Enumerates.call r).map some).congr fun calls o' => ?_
    constructor
    · rintro ⟨r', rfl, rfl⟩
      exact ⟨rfl, rfl⟩
    · rintro ⟨hfst, hsnd⟩
      obtain ⟨⟨_, r'⟩, rfl, rfl⟩ := List.map_eq_singleton_iff.1 hfst
      obtain rfl : o' = some r' := by simpa using hsnd.symm
      exact ⟨r', rfl, rfl⟩

theorem enumerates_list (rs : List Register) :
    Enumerates f (rs.mapM f) fun calls rs' =>
      calls.map Prod.fst = rs ∧ calls.map Prod.snd = rs' := by
  induction rs with
  | nil =>
    refine (Enumerates.pure ([] : List Register)).congr fun calls rs' => ?_
    cases calls <;> cases rs' <;> simp
  | cons r rs ih =>
    rw [List.mapM_cons]
    refine ((Enumerates.call r).bind fun r' => ih.map (r' :: ·)).congr fun calls rs' => ?_
    constructor
    · rintro ⟨r', _, c₂, rfl, rfl, _, ⟨rfl, rfl⟩, rfl⟩
      exact ⟨rfl, rfl⟩
    · rintro ⟨hfst, rfl⟩
      obtain ⟨⟨_, r'⟩, c₂, rfl, rfl, rfl⟩ := List.map_eq_cons_iff.1 hfst
      exact ⟨r', _, c₂, rfl, rfl, _, ⟨rfl, rfl⟩, rfl⟩

def Symbol.shape (v : Symbol) : ValueType × Bool := (v.type, v.register.isSome)

theorem enumerates_symbol (v : Symbol) :
    Enumerates f (do return { v with register := ← v.register.mapM f }) fun calls v' =>
      calls.map Prod.fst = v.register.toList ∧ calls.map Prod.snd = v'.register.toList ∧
        v'.type = v.type := by
  refine ((enumerates_option f v.register).map fun o => { v with register := o }).congr
    fun calls v' => ?_
  constructor
  · rintro ⟨o, ⟨hfst, hsnd⟩, rfl⟩
    exact ⟨hfst, hsnd, rfl⟩
  · rintro ⟨hfst, hsnd, htype⟩
    exact ⟨v'.register, ⟨hfst, hsnd⟩, by rw [← htype]⟩

theorem filterMap_register_cons (v : Symbol) (vs : List Symbol) :
    (v :: vs).filterMap (·.register) = v.register.toList ++ vs.filterMap (·.register) := by
  cases h : v.register <;> simp [h]

theorem enumerates_symbols (vs : List Symbol) :
    Enumerates f (vs.mapM fun v => do return { v with register := ← v.register.mapM f })
      fun calls vs' =>
        calls.map Prod.fst = vs.filterMap (·.register) ∧
        calls.map Prod.snd = vs'.filterMap (·.register) ∧
        vs'.map Symbol.shape = vs.map Symbol.shape := by
  induction vs with
  | nil =>
    refine (Enumerates.pure ([] : List Symbol)).congr fun calls vs' => ?_
    cases calls <;> simp +contextual
  | cons v vs ih =>
    rw [List.mapM_cons]
    refine ((enumerates_symbol f v).bind fun v' => ih.map (v' :: ·)).congr fun calls vs' => ?_
    simp only [filterMap_register_cons]
    constructor
    · rintro ⟨v', c₁, c₂, rfl, ⟨hfst, hsnd, htype⟩, vs', ⟨hfst', hsnd', hshape⟩, rfl⟩
      have hsome : v'.register.isSome = v.register.isSome := by
        have hlen : v'.register.toList.length = v.register.toList.length := by
          rw [← hfst, ← hsnd, List.length_map, List.length_map]
        cases hv : v.register <;> cases hv' : v'.register <;> simp_all
      refine ⟨by rw [List.map_append, hfst, hfst'], ?_, ?_⟩
      · rw [List.map_append, hsnd, hsnd', filterMap_register_cons]
      · simp [hshape, Symbol.shape, htype, hsome]
    · rintro ⟨hfst, hsnd, hshape⟩
      rw [List.map_cons, List.map_eq_cons_iff] at hshape
      obtain ⟨v', vs', rfl, hv', hvs'⟩ := hshape
      rw [Symbol.shape, Symbol.shape, Prod.mk.injEq] at hv'
      rw [filterMap_register_cons] at hsnd
      obtain ⟨c₁, c₂, rfl, h₁, h₂⟩ := List.map_eq_append_iff.1 hfst
      rw [List.map_append] at hsnd
      have hlen : (c₁.map Prod.snd).length = v'.register.toList.length := by
        rw [List.length_map, ← List.length_map Prod.fst, h₁]
        have := hv'.2
        cases hv : v.register <;> cases hw : v'.register <;> simp_all
      obtain ⟨k₁, k₂⟩ := List.append_inj hsnd hlen
      exact ⟨v', c₁, c₂, rfl, ⟨h₁, k₁, hv'.1⟩, vs', ⟨h₂, k₂, hvs'⟩, rfl⟩

end Parts

namespace OrderedMap

theorem eq_withValues {κ : Type} {m m' : OrderedMap κ α} (h : m'.keys = m.keys) :
    m' = m.withValues m'.values := by
  have hentries : m'.entries = m.keys.zip m'.values := h ▸ List.zip_of_prod rfl rfl
  obtain ⟨entries, nodup⟩ := m'
  simpa [withValues] using hentries

theorem values_withValues {κ : Type} {m : OrderedMap κ α} {vs : List β}
    (h : vs.length = m.entries.length) : (m.withValues vs).values = vs :=
  List.map_snd_zip (by simp [keys, h])

theorem keys_withValues {κ : Type} {m : OrderedMap κ α} {vs : List β}
    (h : vs.length = m.entries.length) : (m.withValues vs).keys = m.keys :=
  List.map_fst_zip (by simp [keys, h])

end OrderedMap

namespace Locals

structure SameShape (l l' : Locals) : Prop where
  names : l'.symbols.keys = l.symbols.keys
  types : l'.symbols.values.map Symbol.shape = l.symbols.values.map Symbol.shape
  slot : l'.returnSlot.isSome = l.returnSlot.isSome
  depth : l'.stack.length = l.stack.length

theorem enumerates_mapM (f : Register → StateT σ (Except ε) Register) (l : Locals) :
    Enumerates f (l.mapM f) fun calls l' =>
      calls.map Prod.fst = l.liveRegisters ∧ calls.map Prod.snd = l'.liveRegisters ∧
        l.SameShape l' := by
  refine (((enumerates_option f l.returnSlot).bind fun slot =>
    (((enumerates_symbols f l.symbols.values).map l.symbols.withValues).bind fun symbols =>
      ((enumerates_list f l.stack).map fun stack => Locals.mk slot symbols stack)))).congr
    fun calls l' => ?_
  constructor
  · rintro ⟨slot, c₁, _, rfl, ⟨hslot, hslot'⟩, _, c₂, c₃, rfl, ⟨vs, ⟨hvs, hvs', hshape⟩, rfl⟩,
      stack, ⟨hstack, rfl⟩, rfl⟩
    have hlen : vs.length = l.symbols.entries.length := by
      simpa [OrderedMap.values] using congrArg List.length hshape
    refine ⟨?_, ?_, ?_⟩
    · rw [List.map_append, List.map_append, hslot, hvs, hstack, liveRegisters, List.append_assoc]
    · rw [List.map_append, List.map_append, hslot', hvs', liveRegisters,
        OrderedMap.values_withValues hlen, List.append_assoc]
    · refine ⟨OrderedMap.keys_withValues hlen, ?_, ?_, ?_⟩
      · rw [OrderedMap.values_withValues hlen, hshape]
      · have hlen : slot.toList.length = l.returnSlot.toList.length := by
          rw [← hslot, ← hslot', List.length_map, List.length_map]
        cases hs : l.returnSlot <;> cases hs' : slot <;> simp_all
      · rw [List.length_map, ← hstack, List.length_map]
  · rintro ⟨hfst, hsnd, hnames, htypes, hslot, hdepth⟩
    rw [liveRegisters, List.append_assoc] at hfst hsnd
    obtain ⟨c₁, _, rfl, h₁, h⟩ := List.map_eq_append_iff.1 hfst
    obtain ⟨c₂, c₃, rfl, h₂, h₃⟩ := List.map_eq_append_iff.1 h
    rw [List.map_append, List.map_append] at hsnd
    have hlen₁ : (c₁.map Prod.snd).length = l'.returnSlot.toList.length := by
      rw [List.length_map, ← List.length_map Prod.fst, h₁]
      cases hs : l.returnSlot <;> cases hs' : l'.returnSlot <;> simp_all
    have hlen₃ : (c₃.map Prod.snd).length = l'.stack.length := by
      rw [List.length_map, ← List.length_map Prod.fst, h₃, hdepth]
    obtain ⟨k₁, k⟩ := List.append_inj hsnd hlen₁
    obtain ⟨k₂, k₃⟩ := List.append_inj' k hlen₃
    exact ⟨l'.returnSlot, c₁, _, rfl, ⟨h₁, k₁⟩, l'.symbols, c₂, c₃, rfl,
      ⟨l'.symbols.values, ⟨h₂, k₂, htypes⟩, OrderedMap.eq_withValues hnames⟩,
      l'.stack, ⟨h₃, k₃⟩, rfl⟩

/-- Replacing the live registers calls the action on exactly the live registers, in their order and
once for each occurrence, and its answers in the order of the calls are the live registers of the
result. It ends without a fault just if all of those calls do. -/
theorem mapM_enumerates (f : Register → StateT σ (Except ε) Register) (l l' : Locals) (s s' : σ) :
    ((l.mapM f).run s = .ok (l', s') ↔
      ∃ calls, (l.mapM (noting f)).run (s, []) = .ok (l', s', calls)) ∧
    ∀ calls, (l.mapM (noting f)).run (s, []) = .ok (l', s', calls) ↔
      Answers f s calls s' ∧ calls.map Prod.fst = l.liveRegisters ∧
        calls.map Prod.snd = l'.liveRegisters ∧ l.SameShape l' := by
  have hnoting : ∀ calls, (l.mapM (noting f)).run (s, []) = .ok (l', s', calls) ↔
      Answers f s calls s' ∧ calls.map Prod.fst = l.liveRegisters ∧
        calls.map Prod.snd = l'.liveRegisters ∧ l.SameShape l' := by
    intro calls
    rw [enumerates_mapM (noting f) l (s, []) l' (s', calls)]
    simp only [Answers.noting_iff, List.nil_append]
    constructor
    · rintro ⟨_, ⟨h, rfl⟩, hl⟩
      exact ⟨h, hl⟩
    · rintro ⟨h, hl⟩
      exact ⟨calls, ⟨h, rfl⟩, hl⟩
  refine ⟨?_, hnoting⟩
  rw [enumerates_mapM f l s l' s']
  simp only [hnoting]

end Locals

end BlockGraph
