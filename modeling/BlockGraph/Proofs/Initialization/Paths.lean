import BlockGraph.Proofs.Initialization.Chronicle
import BlockGraph.Proofs.Linearity.Handover
import BlockGraph.Proofs.Lowering.Partition

/-!
What is known when a block is made agrees with what the paths of the finished graph show. The proof
keeps up two facts while the graph grows: a block starts with a value only if all blocks that lead to
it have one, and if it starts without one then some block made before it, and closed by now, leads to
it without one.
-/

namespace BlockGraph

theorem SymbolTable.mem_keys_of_holds {t : SymbolTable} {n : String} (h : t.holds n = true) :
    n ∈ t.keys := by
  obtain ⟨e, he, rfl, -⟩ := (Locals.holds_iff (l := { symbols := t })).1 h
  exact List.mem_map_of_mem he

theorem Graph.symbols_congr {g g' : Graph} {b : BlockId} (h : g'.block? b = g.block? b) :
    g'.symbols b = g.symbols b := by
  rw [Graph.symbols, Graph.symbols, h]

namespace Locals.Renames

variable {R : Register → Register → Prop} {l l' : Locals}

theorem keys_eq (h : l.Renames R l') : l'.symbols.keys = l.symbols.keys :=
  map_eq_map_of_forall₂ h.symbols.flip fun _ _ he => he.1

theorem holds_eq (h : l.Renames R l') (n : String) : l'.holds n = l.holds n := by
  rw [Bool.eq_iff_iff, holds_iff, holds_iff]
  have hsome {o o' : Option Register} (ho : List.Forall₂ R o.toList o'.toList) :
      o'.isSome = o.isSome := by
    cases o <;> cases o' <;> simp_all
  constructor
  · rintro ⟨e', he', rfl, hr⟩
    obtain ⟨e, he, hname, -, hreg⟩ := forall₂_mem_right h.symbols he'
    exact ⟨e, he, hname.symm, hsome hreg ▸ hr⟩
  · rintro ⟨e, he, rfl, hr⟩
    obtain ⟨e', he', hname, -, hreg⟩ := forall₂_mem_left h.symbols he
    exact ⟨e', he', hname, (hsome hreg).trans hr⟩

end Locals.Renames

namespace Block

variable {B B' : Block} {b c : BlockId} {r : Register}

theorem mem_referenced_of_staticTarget? (h : B.staticTarget? r = some c) : c ∈ B.referenced := by
  obtain ⟨i, hi, hc⟩ := Option.bind_eq_some_iff.1 h
  exact List.mem_filterMap.2 ⟨i, mem_of_instruction? hi, hc⟩

theorem mem_referenced_of_successors (h : c ∈ B.successors) : c ∈ B.referenced := by
  rcases List.mem_append.1 h with h | h
  · obtain ⟨e, -, he⟩ := List.mem_filterMap.1 h
    exact mem_referenced_of_staticTarget? he
  · obtain ⟨i, -, hi⟩ := List.mem_filterMap.1 h
    split at hi
    · exact mem_referenced_of_staticTarget? hi
    · simp at hi

theorem mem_successors_of_edge {t : Terminator} {e : Edge} (ht : B.terminator = some t)
    (he : e ∈ t.edges) (hc : B.staticTarget? e.target = some c) : c ∈ B.successors :=
  List.mem_append_left _ (List.mem_filterMap.2 ⟨e, by simpa [ht] using he, hc⟩)

theorem mem_successors_of_setField {i : Instruction} {o : Register} (hi : i ∈ B.instructions)
    (hop : i.operation = .setField o 0 r) (hc : B.staticTarget? r = some c) : c ∈ B.successors :=
  List.mem_append_right _ (List.mem_filterMap.2 ⟨i, hi, by simp [hop, hc]⟩)

theorem Extends.staticTarget? (h : B.Extends B') (hc : B.staticTarget? r = some c) :
    B'.staticTarget? r = some c := by
  obtain ⟨i, hi, hc⟩ := Option.bind_eq_some_iff.1 hc
  exact Option.bind_eq_some_iff.2 ⟨i, h.instruction? hi, hc⟩

theorem Extends.refer (h : B.isTerminated = false) (c : BlockId) (ts : List ValueType) :
    B.Extends (B.refer c ts) := .push h _

theorem mem_referenced_refer {ts : List ValueType} {d : BlockId} :
    d ∈ (B.refer c ts).referenced ↔ d ∈ B.referenced ∨ d = c := by
  simp [referenced, refer, Operation.blockRef?]

end Block

namespace Origins

variable {O : Origins} {b c : BlockId} {t : SymbolTable} {vs : List Binding}

@[simp] theorem begin_start_self : (O.begin b t vs).start b = t := Function.update_self ..

@[simp] theorem begin_outer_self : (O.begin b t vs).outer b = vs := Function.update_self ..

@[simp] theorem begin_scope_self : (O.begin b t vs).scope b = vs := by
  simp [scope, begin]

theorem begin_start (h : c ≠ b) : (O.begin b t vs).start c = O.start c := Function.update_of_ne h ..

theorem begin_outer (h : c ≠ b) : (O.begin b t vs).outer c = O.outer c := Function.update_of_ne h ..

theorem begin_declared (h : c ≠ b) : (O.begin b t vs).declared c = O.declared c :=
  Function.update_of_ne h ..

@[simp] theorem begin_given_self : (O.begin b t vs).given b = [] := Function.update_self ..

theorem begin_given (h : c ≠ b) : (O.begin b t vs).given c = O.given c := Function.update_of_ne h ..

theorem begin_scope (h : c ≠ b) : (O.begin b t vs).scope c = O.scope c := by
  simp [scope, begin, Function.update_of_ne h]

theorem scope_names (O : Origins) (b : BlockId) :
    (O.scope b).map (·.name) = (O.outer b).map (·.name) ++ O.declared b := by
  simp [scope, Function.comp_def]

theorem withDeclared_self (O : Origins) (b : BlockId) : O.withDeclared b (O.declared b) = O := by
  simp [withDeclared]

theorem withDeclared_declared (O : Origins) (b : BlockId) (ds : List String) :
    (O.withDeclared b ds).declared b = ds := Function.update_self ..

theorem withDeclared_scope {ds : List String} (h : c ≠ b) : (O.withDeclared b ds).scope c = O.scope c := by
  simp [scope, withDeclared, Function.update_of_ne h]

theorem scope_subset_withDeclared {ds : List String} (h : O.declared b ⊆ ds) (c : BlockId) :
    O.scope c ⊆ (O.withDeclared b ds).scope c := by
  by_cases hc : c = b
  · subst hc
    refine List.append_subset.2 ⟨List.subset_append_left _ _, List.subset_append_of_subset_right _ ?_⟩
    rw [withDeclared_declared]
    exact List.map_subset _ h
  · rw [withDeclared_scope hc]
    exact fun _ hv => hv

theorem mem_declare_declared {name n : String} {x : Symbol} :
    n ∈ (O.declare b name x).declared c ↔ n ∈ O.declared c ∨ c = b ∧ n = name := by
  by_cases hc : c = b
  · subst hc
    simp [declare, withDeclared]
  · simp [declare, withDeclared, hc]

theorem mem_declare_given {name n : String} {x : Symbol} :
    n ∈ (O.declare b name x).given c ↔ n ∈ O.given c ∨ c = b ∧ n = name ∧ x.register.isSome = true := by
  unfold declare
  split
  case isTrue hx =>
    by_cases hc : c = b
    · subst hc
      simp [hx]
    · simp [hc]
  case isFalse hx => simp [hx]

theorem outer_subset_scope (O : Origins) (b : BlockId) : O.outer b ⊆ O.scope b :=
  List.subset_append_left _ _

theorem mem_scope {v : Binding} :
    v ∈ O.scope b ↔ v ∈ O.outer b ∨ v.name ∈ O.declared b ∧ v.home = b := by
  obtain ⟨name, home⟩ := v
  simp only [scope, List.mem_append, List.mem_map, Binding.mk.injEq]
  grind

def Enters (O : Origins) (b : BlockId) (B : Block) (c : BlockId) : Prop :=
  O.outer c ⊆ O.scope b ∧ ∀ n, (O.start c).holds n = true → B.locals.holds n = true

/-- What the origins say about a graph. The blocks that `owed` relates are about to be joined by an
edge. -/
structure Fits (O : Origins) (owed : BlockId → BlockId → Prop) (g : Graph) : Prop where
  roots : ∀ b ∈ O.roots, (∃ B, g.block? b = some B) ∧ O.outer b = []
  names : ∀ b B, g.block? b = some B → B.locals.symbols.keys = (O.scope b).map (·.name)
  starts : ∀ b B, g.block? b = some B → (O.start b).keys = (O.outer b).map (·.name)
  homes : ∀ b B v, g.block? b = some B → v ∈ O.outer b →
    v.home.index < b.index ∧ v.name ∈ O.declared v.home
  keeps : ∀ b B n, g.block? b = some B → (O.start b).holds n = true ∨ n ∈ O.given b →
    B.locals.holds n = true
  enters : ∀ b B c, g.block? b = some B → c ∈ B.referenced → c ∉ O.roots →
    (∃ C, g.block? c = some C) ∧ O.Enters b B c
  lacks : ∀ c C v, g.block? c = some C → v ∈ O.outer c → (O.start c).holds v.name = false →
    ∃ q Q, g.block? q = some Q ∧ q.index < c.index ∧ v ∈ O.scope q ∧
      Q.locals.holds v.name = false ∧ (owed q c ∨ Q.isTerminated = true ∧ c ∈ Q.successors)
  carries : ∀ c C, g.block? c = some C → C.signature = {} ∧ C.parameters ≠ [] ∨
    ∀ n, (O.start c).holds n = true → n ∈ C.signature.carried

namespace Fits

variable {owed owed' : BlockId → BlockId → Prop} {g g' : Graph} {B C B' : Block}

theorem mono (h : O.Fits owed g) (howed : ∀ q c, owed q c → owed' q c) : O.Fits owed' g :=
  { h with
    lacks := fun c C v hC hv hstart => by
      obtain ⟨q, Q, hQ, hlt, hscope, hholds, hpaid⟩ := h.lacks c C v hC hv hstart
      exact ⟨q, Q, hQ, hlt, hscope, hholds, hpaid.imp_left (howed q c)⟩ }

theorem congr (h : O.Fits owed g) (hg : ∀ c, g'.block? c = g.block? c) : O.Fits owed g' := by
  obtain ⟨h₁, h₂, h₃, h₄, h₅, h₆, h₇, h₈⟩ := h
  refine ⟨?_, ?_, ?_, ?_, ?_, ?_, ?_, ?_⟩ <;> simp only [hg] <;> assumption

theorem binding_eq (h : O.Fits owed g) (hB : g.block? b = some B) {v w : Binding}
    (hv : v ∈ O.scope b) (hw : w ∈ O.scope b) (hname : v.name = w.name) : v = w := by
  have hnodup : ((O.scope b).map (·.name)).Nodup := h.names b B hB ▸ B.locals.symbols.nodup
  exact List.inj_on_of_nodup_map hnodup hv hw hname

theorem mem_outer (h : O.Fits owed g) (hB : g.block? b = some B) {v : Binding} (hv : v ∈ O.scope b)
    (hstart : (O.start b).holds v.name = true) : v ∈ O.outer b := by
  have hkey := SymbolTable.mem_keys_of_holds hstart
  rw [h.starts b B hB] at hkey
  obtain ⟨w, hw, hname⟩ := List.mem_map.1 hkey
  rwa [← h.binding_eq hB (O.outer_subset_scope b hw) hv hname]

theorem begin (h : O.Fits owed g) (hnew : g.block? c = none) (hC : g'.block? c = some C)
    (hother : ∀ d, d ≠ c → g'.block? d = g.block? d) (hrefs : C.referenced = [])
    (hnames : C.locals.symbols.keys = vs.map (·.name))
    (hhomes : ∀ v ∈ vs, v.home.index < c.index ∧ v.name ∈ O.declared v.home)
    (hcarries : C.signature = {} ∧ C.parameters ≠ [] ∨
      ∀ n, C.locals.holds n = true → n ∈ C.signature.carried)
    (hlacks : ∀ v ∈ vs, C.locals.holds v.name = false → ∃ q Q, g.block? q = some Q ∧
      q.index < c.index ∧ v ∈ O.scope q ∧ Q.locals.holds v.name = false ∧ owed' q c)
    (howed : ∀ q d, owed q d → owed' q d) : (O.begin c C.locals.symbols vs).Fits owed' g' := by
  have hne {d : BlockId} {D : Block} (hD : g.block? d = some D) : d ≠ c := by
    rintro rfl
    simp [hnew] at hD
  have hback {d : BlockId} {D : Block} (hd : d ≠ c) (hD : g'.block? d = some D) :
      g.block? d = some D := (hother d hd).symm.trans hD
  have hforth {d : BlockId} {D : Block} (hD : g.block? d = some D) : g'.block? d = some D :=
    (hother d (hne hD)).trans hD
  constructor
  case roots =>
    intro d hd
    obtain ⟨⟨D, hD⟩, hout⟩ := h.roots d hd
    exact ⟨⟨D, hforth hD⟩, by rw [begin_outer (hne hD), hout]⟩
  case names =>
    intro d D hD
    by_cases hd : d = c
    · subst hd
      obtain rfl := Option.some.inj (hC.symm.trans hD)
      rw [begin_scope_self, hnames]
    · rw [begin_scope hd]
      exact h.names d D (hback hd hD)
  case starts =>
    intro d D hD
    by_cases hd : d = c
    · subst hd
      rw [begin_start_self, begin_outer_self, hnames]
    · rw [begin_start hd, begin_outer hd]
      exact h.starts d D (hback hd hD)
  case homes =>
    intro d D v hD hv
    have hdeclared (hlt : v.home.index < c.index) (hn : v.name ∈ O.declared v.home) :
        v.name ∈ (O.begin c C.locals.symbols vs).declared v.home := by
      rwa [begin_declared (by rintro rfl; exact Nat.lt_irrefl _ hlt)]
    by_cases hd : d = c
    · subst hd
      obtain ⟨hlt, hn⟩ := hhomes v (by simpa using hv)
      exact ⟨hlt, hdeclared hlt hn⟩
    · obtain ⟨hlt, hn⟩ := h.homes d D v (hback hd hD) (by rwa [begin_outer hd] at hv)
      have hold : d.index < g.blocks.length := (List.getElem?_eq_some_iff.1 (hback hd hD)).1
      have hlast := Graph.block?_eq_none_iff.1 hnew
      exact ⟨hlt, hdeclared (by omega) hn⟩
  case keeps =>
    intro d D n hD hn
    by_cases hd : d = c
    · subst hd
      obtain rfl := Option.some.inj (hC.symm.trans hD)
      rcases hn with hn | hn
      · rwa [begin_start_self] at hn
      · simp at hn
    · exact h.keeps d D n (hback hd hD) (by rwa [begin_start hd, begin_given hd] at hn)
  case enters =>
    intro d D e hD he hroot
    by_cases hd : d = c
    · subst hd
      obtain rfl := Option.some.inj (hC.symm.trans hD)
      simp [hrefs] at he
    · obtain ⟨⟨E, hE⟩, hent⟩ := h.enters d D e (hback hd hD) he hroot
      refine ⟨⟨E, hforth hE⟩, ?_⟩
      rwa [Enters, begin_outer (hne hE), begin_scope hd, begin_start (hne hE)]
  case lacks =>
    intro d D v hD hv hstart
    by_cases hd : d = c
    · subst hd
      obtain rfl := Option.some.inj (hC.symm.trans hD)
      rw [begin_outer_self] at hv
      rw [begin_start_self] at hstart
      obtain ⟨q, Q, hQ, hlt, hscope, hholds, hq⟩ := hlacks v hv hstart
      exact ⟨q, Q, hforth hQ, hlt, by rwa [begin_scope (hne hQ)], hholds, .inl hq⟩
    · rw [begin_outer hd] at hv
      rw [begin_start hd] at hstart
      obtain ⟨q, Q, hQ, hlt, hscope, hholds, hq⟩ := h.lacks d D v (hback hd hD) hv hstart
      exact ⟨q, Q, hforth hQ, hlt, by rwa [begin_scope (hne hQ)], hholds, hq.imp_left (howed q d)⟩
  case carries =>
    intro d D hD
    by_cases hd : d = c
    · subst hd
      obtain rfl := Option.some.inj (hC.symm.trans hD)
      rw [begin_start_self]
      exact hcarries
    · rw [begin_start hd]
      exact h.carries d D (hback hd hD)

theorem root (h : O.Fits owed g) (hnew : g.block? c = none) (hC : g'.block? c = some C)
    (hother : ∀ d, d ≠ c → g'.block? d = g.block? d) (hrefs : C.referenced = [])
    (hsymbols : C.locals.symbols = ∅) : (O.root c).Fits owed g' := by
  have hholds (n : String) : C.locals.holds n = false := by
    rw [Locals.holds, hsymbols]
    rfl
  have hbegin : (O.begin c ∅ []).Fits owed g' := by
    rw [← hsymbols]
    exact h.begin hnew hC hother hrefs (by rw [hsymbols]; rfl) (by simp) (.inr (by simp [hholds]))
      (by simp) fun _ _ hq => hq
  refine { hbegin with
    roots := fun d hd => ?_
    enters := fun d D e hD he hroot =>
      hbegin.enters d D e hD he fun hr => hroot (List.mem_append_left _ hr) }
  rcases List.mem_append.1 hd with hd | hd
  · exact hbegin.roots d hd
  · obtain rfl := List.mem_singleton.1 hd
    exact ⟨⟨C, hC⟩, begin_outer_self (t := ∅)⟩

theorem revise (h : O.Fits owed g) {ds : List String} (hB : g.block? b = some B)
    (hB' : g'.block? b = some B') (hother : ∀ d, d ≠ b → g'.block? d = g.block? d)
    (hext : B.Extends B') (hds : O.declared b ⊆ ds)
    (hnames : B'.locals.symbols.keys = (O.outer b).map (·.name) ++ ds)
    (hholds : ∀ n, B.locals.holds n = true → B'.locals.holds n = true)
    (hrefs : ∀ c ∈ B'.referenced, c ∉ O.roots →
      c ∈ B.referenced ∨ (∃ C, g.block? c = some C) ∧ O.Enters b B' c)
    (hpaid : ∀ c, owed b c ∨ B.isTerminated = true ∧ c ∈ B.successors →
      (∀ n, B'.locals.holds n = true → B.locals.holds n = true) ∧
        (owed' b c ∨ B'.isTerminated = true ∧ c ∈ B'.successors))
    (howed : ∀ q c, q ≠ b → owed q c → owed' q c) : (O.withDeclared b ds).Fits owed' g' := by
  have hback {d : BlockId} {D : Block} (hd : d ≠ b) (hD : g'.block? d = some D) :
      g.block? d = some D := (hother d hd).symm.trans hD
  have hforth {d : BlockId} (hD : ∃ D, g.block? d = some D) : ∃ D, g'.block? d = some D := by
    obtain ⟨D, hD⟩ := hD
    by_cases hd : d = b
    · exact ⟨B', hd ▸ hB'⟩
    · exact ⟨D, (hother d hd).trans hD⟩
  -- What does not change for a block is read off the block that it was before.
  have hbefore {d : BlockId} {D : Block} (hD : g'.block? d = some D) : ∃ D₀, g.block? d = some D₀ := by
    by_cases hd : d = b
    · exact ⟨B, hd ▸ hB⟩
    · exact ⟨D, hback hd hD⟩
  constructor
  case roots =>
    intro d hd
    obtain ⟨hD, hout⟩ := h.roots d hd
    exact ⟨hforth hD, hout⟩
  case names =>
    intro d D hD
    by_cases hd : d = b
    · subst hd
      obtain rfl := Option.some.inj (hB'.symm.trans hD)
      rw [scope_names, withDeclared_declared, hnames]
      rfl
    · rw [withDeclared_scope hd]
      exact h.names d D (hback hd hD)
  case starts =>
    intro d D hD
    obtain ⟨D₀, hD₀⟩ := hbefore hD
    exact h.starts d D₀ hD₀
  case homes =>
    intro d D v hD hv
    obtain ⟨D₀, hD₀⟩ := hbefore hD
    obtain ⟨hlt, hn⟩ := h.homes d D₀ v hD₀ hv
    refine ⟨hlt, ?_⟩
    by_cases hhome : v.home = b
    · rw [hhome, withDeclared_declared]
      exact hds (hhome ▸ hn)
    · simpa [withDeclared, Function.update_of_ne hhome] using hn
  case keeps =>
    intro d D n hD hn
    by_cases hd : d = b
    · subst hd
      obtain rfl := Option.some.inj (hB'.symm.trans hD)
      exact hholds n (h.keeps d B n hB hn)
    · exact h.keeps d D n (hback hd hD) hn
  case enters =>
    intro d D e hD he hroot
    have hold {D₀ : Block} (hD₀ : g.block? d = some D₀) (he : e ∈ D₀.referenced)
        (hmore : ∀ n, D₀.locals.holds n = true → D.locals.holds n = true) :
        (∃ E, g'.block? e = some E) ∧
          (O.withDeclared b ds).Enters d D e := by
      obtain ⟨hE, hsub, hval⟩ := h.enters d D₀ e hD₀ he hroot
      exact ⟨hforth hE, fun v hv => scope_subset_withDeclared hds d (hsub hv), fun n hn => hmore n (hval n hn)⟩
    by_cases hd : d = b
    · subst hd
      obtain rfl := Option.some.inj (hB'.symm.trans hD)
      rcases hrefs e he hroot with he | ⟨hE, hsub, hval⟩
      · exact hold hB he hholds
      · exact ⟨hforth hE, fun v hv => scope_subset_withDeclared hds d (hsub hv), hval⟩
    · exact hold (hback hd hD) he fun _ hn => hn
  case lacks =>
    intro c C v hC hv hstart
    obtain ⟨C₀, hC₀⟩ := hbefore hC
    obtain ⟨q, Q, hQ, hlt, hvar, hval, hq⟩ := h.lacks c C₀ v hC₀ hv hstart
    by_cases hqb : q = b
    · subst hqb
      obtain rfl := Option.some.inj (hB.symm.trans hQ)
      obtain ⟨hsame, hpaid⟩ := hpaid c hq
      exact ⟨q, B', hB', hlt, scope_subset_withDeclared hds q hvar, Bool.eq_false_iff.2 fun hn =>
        absurd (hsame _ hn) (by simp [hval]), hpaid⟩
    · exact ⟨q, Q, (hother q hqb).trans hQ, hlt, scope_subset_withDeclared hds q hvar, hval,
        hq.imp_left (howed q c hqb)⟩
  case carries =>
    intro d D hD
    by_cases hd : d = b
    · subst hd
      obtain rfl := Option.some.inj (hB'.symm.trans hD)
      rw [hext.signature, hext.parameters]
      exact h.carries d B hB
    · exact h.carries d D (hback hd hD)

theorem rewrite (h : O.Fits owed g) (hB : g.block? b = some B) (hB' : g'.block? b = some B')
    (hother : ∀ d, d ≠ b → g'.block? d = g.block? d) (hext : B.Extends B')
    (hkeys : B'.locals.symbols.keys = B.locals.symbols.keys)
    (hholds : ∀ n, B.locals.holds n = true → B'.locals.holds n = true)
    (hrefs : ∀ c ∈ B'.referenced, c ∉ O.roots →
      c ∈ B.referenced ∨ (∃ C, g.block? c = some C) ∧ O.Enters b B' c)
    (hpaid : ∀ c, owed b c ∨ B.isTerminated = true ∧ c ∈ B.successors →
      (∀ n, B'.locals.holds n = true → B.locals.holds n = true) ∧
        (owed' b c ∨ B'.isTerminated = true ∧ c ∈ B'.successors))
    (howed : ∀ q c, q ≠ b → owed q c → owed' q c) : O.Fits owed' g' := by
  have hfits := h.revise hB hB' hother hext (fun _ hd => hd)
    (by rw [hkeys, h.names b B hB, scope_names]) hholds hrefs hpaid howed
  rwa [withDeclared_self] at hfits

theorem enters_of_arguments (h : O.Fits owed g) {args : List Register} (hC : g.block? c = some C)
    (hscope : O.outer c ⊆ O.scope b) (hargs : C.signature.arguments B.locals b c = .ok args)
    (hlen : args.length = C.parameterTypes.length) : O.Enters b B c := by
  obtain ⟨slot, carried, rfl, hslot, hcarried, hdepth⟩ := Signature.arguments_eq_ok.1 hargs
  refine ⟨hscope, fun n hn => ?_⟩
  rcases h.carries c C hC with ⟨hsig, hparams⟩ | hcarries
  · -- the block after a call cannot be jumped to, since nothing would be passed
    rw [hsig] at hslot hcarried hdepth
    obtain rfl : slot = [] := by simpa using hslot
    obtain rfl := List.forall₂_nil_left_iff.1 hcarried
    have hnone : C.parameters.length = 0 := by
      simpa [List.eq_nil_of_length_eq_zero hdepth, Block.parameterTypes] using hlen.symm
    exact absurd (List.eq_nil_of_length_eq_zero hnone) hparams
  · obtain ⟨r, -, hr⟩ := forall₂_mem_left hcarried (hcarries n hn)
    simp [Locals.holds, hr]

end Fits

open Builder Lowering

section Call

variable {k : Call} {p : Packing} {layout : LayoutId} {resume : BlockId}

theorem mem_successors_suspended (hp : k.Packs layout resume p) :
    resume ∈ (k.suspended p).successors := by
  obtain ⟨ps, l, rest, hcode⟩ : ∃ ps l rest, p.code =
      ⟨.new l, .object l⟩ :: ⟨.blockRef resume, .blockRef ps⟩ ::
        ⟨.setField ⟨k.caller.registerCount⟩ 0 ⟨k.caller.registerCount + 1⟩, .prim .void⟩ :: rest := by
    cases hp with
    | plain => exact ⟨_, _, _, rfl⟩
    | captured => exact ⟨_, _, _, rfl⟩
  refine Block.mem_successors_of_setField (o := ⟨k.caller.registerCount⟩)
    (r := ⟨k.caller.registerCount + 1⟩) (i := ⟨.setField _ 0 _, .prim .void⟩) ?_ rfl ?_
  · exact List.mem_append_right _ (by simp [hcode])
  · have hi : p.code[1]? = some ⟨.blockRef resume, .blockRef ps⟩ := by rw [hcode]; rfl
    exact Option.bind_eq_some_iff.2 ⟨_, (k.caller.instruction?_pushAll p.code 1).trans hi, rfl⟩

end Call

namespace Fits

variable {owed : BlockId → BlockId → Prop} {s s' : Builder} {u : Unit}

theorem jump (h : O.Fits owed s.graph) (hscope : O.outer c ⊆ O.scope b)
    (hrun : Runs (jump b c) s u s') :
    O.Fits (fun q d => owed q d ∧ ¬(q = b ∧ d = c)) s'.graph := by
  obtain ⟨B, C, args, hB, hC, hopen, hargs, htypes, rfl⟩ := runs_jump.1 hrun
  have hext := Block.Extends.refer hopen c C.parameterTypes
  refine h.rewrite hB (updateBlock_self hB _) (fun d hd => updateBlock_other s hd _)
    (hext.trans (.close (b := B.refer c C.parameterTypes) hopen _)) rfl (fun n hn => hn)
    (fun d hd _ => ?_) (fun d hd => ⟨fun n hn => hn, ?_⟩) fun q d hq hd => ⟨hd, fun hqb => hq hqb.1⟩
  · rcases Block.mem_referenced_refer.1 hd with hd | rfl
    · exact .inl hd
    · exact .inr ⟨⟨C, hC⟩, h.enters_of_arguments hC hscope hargs htypes.length_eq⟩
  · by_cases hdc : d = c
    · subst hdc
      exact .inr ⟨rfl, Block.mem_successors_of_edge (e := ⟨⟨B.registerCount⟩, args⟩) rfl
        (by simp [Terminator.edges]) (Block.staticTarget?_refer B d C.parameterTypes)⟩
    · rcases hd with hd | ⟨hd, -⟩
      · exact .inl ⟨hd, fun hbd => hdc hbd.2⟩
      · simp [hopen] at hd

theorem branchTo {d : BlockId} {r : Register} (h : O.Fits owed s.graph)
    (hc : O.outer c ⊆ O.scope b) (hd : O.outer d ⊆ O.scope b)
    (hrun : Runs (branchTo b r c d) s u s') :
    O.Fits (fun q e => owed q e ∧ ¬(q = b ∧ (e = c ∨ e = d))) s'.graph := by
  obtain ⟨B, C, D, ts, fs, hB, hC, hD, hopen, hts, hfs, htypes, ftypes, rfl⟩ := runs_branchTo.1 hrun
  let B₁ := B.refer c C.parameterTypes
  let B₂ := B₁.refer d D.parameterTypes
  have hext₁ : B.Extends B₁ := .refer hopen ..
  have hext₂ : B₁.Extends B₂ := .refer (B := B₁) hopen ..
  refine h.rewrite hB (updateBlock_self hB _) (fun e he => updateBlock_other s he _)
    ((hext₁.trans hext₂).trans (.close (b := B₂) hopen _)) rfl (fun n hn => hn) (fun e he _ => ?_)
    (fun e he => ⟨fun n hn => hn, ?_⟩) fun q e hq he => ⟨he, fun hqb => hq hqb.1⟩
  · rcases Block.mem_referenced_refer.1 he with he | rfl
    · rcases Block.mem_referenced_refer.1 he with he | rfl
      · exact .inl he
      · exact .inr ⟨⟨C, hC⟩, h.enters_of_arguments hC hc hts htypes.length_eq⟩
    · exact .inr ⟨⟨D, hD⟩, h.enters_of_arguments hD hd hfs ftypes.length_eq⟩
  · by_cases hec : e = c ∨ e = d
    · refine .inr ⟨rfl, ?_⟩
      rcases hec with rfl | rfl
      · exact Block.mem_successors_of_edge (e := ⟨⟨B.registerCount⟩, ts⟩) rfl
          (by simp [Terminator.edges])
          (hext₂.staticTarget? (Block.staticTarget?_refer B e C.parameterTypes))
      · have hlast : B₂.staticTarget? ⟨B.registerCount + 1⟩ = some e := by
          simpa [B₂, B₁, Block.refer] using B₁.staticTarget?_refer e D.parameterTypes
        exact Block.mem_successors_of_edge (e := ⟨⟨B.registerCount + 1⟩, fs⟩) rfl
          (by simp [Terminator.edges]) hlast
    · rcases he with he | ⟨he, -⟩
      · exact .inl ⟨he, fun hbe => hec hbe.2⟩
      · simp [hopen] at he

theorem symbols_updateBlock {f : Block → Block}
    (hf : ∀ B, s.graph.block? b = some B → (f B).locals.symbols = B.locals.symbols) (d : BlockId) :
    (s.updateBlock b f).graph.symbols d = s.graph.symbols d := by
  simp only [Graph.symbols, updateBlock_block?]
  split
  case isTrue hd =>
    subst hd
    cases hB : s.graph.block? d <;> simp [hf, hB]
  case isFalse => rfl

theorem symbols_jump (hrun : Runs (Builder.jump b c) s u s') (d : BlockId) :
    s'.graph.symbols d = s.graph.symbols d := by
  obtain ⟨B, C, args, -, -, -, -, -, rfl⟩ := runs_jump.1 hrun
  exact symbols_updateBlock (fun B _ => by rfl) d

theorem symbols_jumps {bs : List BlockId} {u : PUnit}
    (hrun : Runs (bs.forM (Builder.jump · c)) s u s') (d : BlockId) :
    s'.graph.symbols d = s.graph.symbols d := by
  induction bs generalizing s with
  | nil =>
    obtain rfl := Runs.forM_nil.1 hrun
    rfl
  | cons b bs ih =>
    obtain ⟨t, hb, hbs⟩ := Runs.forM_cons.1 hrun
    rw [ih hbs]
    exact symbols_jump hb d

theorem jumps {bs : List BlockId} {u : PUnit} (h : O.Fits owed s.graph)
    (hscope : ∀ b ∈ bs, O.outer c ⊆ O.scope b) (hrun : Runs (bs.forM (Builder.jump · c)) s u s') :
    O.Fits (fun q d => owed q d ∧ ¬(q ∈ bs ∧ d = c)) s'.graph := by
  induction bs generalizing s owed with
  | nil =>
    obtain rfl := Runs.forM_nil.1 hrun
    exact h.mono fun q d hq => ⟨hq, by simp⟩
  | cons b bs ih =>
    obtain ⟨t, hb, hbs⟩ := Runs.forM_cons.1 hrun
    have hrest := ih (h.jump (hscope b List.mem_cons_self) hb)
      (fun q hq => hscope q (List.mem_cons_of_mem b hq)) hbs
    refine hrest.mono fun q d hq => ⟨hq.1.1, ?_⟩
    rintro ⟨hmem, rfl⟩
    rcases List.mem_cons.1 hmem with rfl | hmem
    · exact hq.1.2 ⟨rfl, rfl⟩
    · exact hq.2 ⟨hmem, rfl⟩

theorem newChild_new {context : BlockId} {preds : List BlockId}
    (hrun : Runs (newChild context preds) s c s') :
    context ≠ c ∧ (∀ p ∈ preds, p ≠ c) ∧ (∀ d, d ≠ c → s'.graph.block? d = s.graph.block? d) ∧
      s'.graph.block? c ≠ none := by
  obtain ⟨i, hgather, rfl, rfl⟩ := runs_newChild.1 hrun
  have hne {d : BlockId} {D : Block} (hD : s.graph.block? d = some D) : d ≠ s.graph.nextId := by
    rintro rfl
    simp [Graph.block?_nextId] at hD
  obtain ⟨K, hK, -⟩ := hgather.context
  refine ⟨hne hK, fun p hp => ?_, fun d hd => by simp [hd], by simp⟩
  obtain ⟨P, hP, -⟩ := hgather.depth p hp
  exact hne hP

theorem newChild {context : BlockId} {preds : List BlockId} (h : O.Fits owed s.graph)
    (hscope : ∀ p ∈ preds, O.scope context ⊆ O.scope p)
    (hrun : Runs (newChild context preds) s c s') :
    (O.begin c (s'.graph.symbols c) (O.scope context)).Fits
      (fun q d => owed q d ∨ q ∈ preds ∧ d = c) s'.graph := by
  obtain ⟨i, hgather, rfl, rfl⟩ := runs_newChild.1 hrun
  obtain ⟨K, hK, hsymbols, -⟩ := hgather.context
  have hnew : (s.addChild preds i).graph.block? s.graph.nextId = some (i.block s.graph.nextId) := by
    simp
  have htable : (s.addChild preds i).graph.symbols s.graph.nextId =
      (i.block s.graph.nextId).locals.symbols := by
    simp [Graph.symbols]
  have hkeys : i.symbols.keys = (O.scope context).map (·.name) := by
    rw [hsymbols]
    exact h.names context K hK
  have hbefore {d : BlockId} {D : Block} (hD : s.graph.block? d = some D) :
      d.index < s.graph.nextId.index := by
    have hlt : d.index < s.graph.blocks.length := (List.getElem?_eq_some_iff.1 hD).1
    exact hlt
  rw [htable]
  refine h.begin s.graph.block?_nextId hnew (fun d hd => by simp [hd]) rfl
    (i.locals_keys.trans hkeys) (fun v hv => ?_) (.inr fun n hn => ?_) (fun v hv hn => ?_)
    fun q d hq => .inl hq
  · rcases mem_scope.1 hv with hv | ⟨hn, rfl⟩
    · exact (h.homes context K v hK hv).imp_left (Nat.lt_trans · (hbefore hK))
    · exact ⟨hbefore hK, hn⟩
  · have hkey : n ∈ i.symbols.keys := by
      have hmem := SymbolTable.mem_keys_of_holds (t := i.locals.symbols) hn
      rwa [i.locals_keys] at hmem
    obtain ⟨e, he, rfl⟩ := List.mem_map.1 hkey
    refine List.mem_map_of_mem (List.mem_filter.2 ⟨he, ?_⟩)
    exact (i.locals_holds hkey).symm.trans hn
  · have hkey : v.name ∈ i.symbols.keys := hkeys ▸ List.mem_map_of_mem hv
    have hheld : s.graph.allHold preds v.name = false := by
      rw [← hgather.held, ← i.locals_holds hkey]
      exact hn
    obtain ⟨q, hq, hvalue⟩ : ∃ q ∈ preds, ¬s.graph.HasValue q v.name := by
      by_contra hall
      have hall' : s.graph.allHold preds v.name = true :=
        Graph.allHold_iff.2 fun q hq => by_contra fun hvalue => hall ⟨q, hq, hvalue⟩
      simp [hheld] at hall'
    obtain ⟨Q, hQ, -⟩ := hgather.depth q hq
    refine ⟨q, Q, hQ, hbefore hQ, hscope q hq hv, ?_, .inr ⟨hq, rfl⟩⟩
    exact Bool.eq_false_iff.2 fun hholds => hvalue ⟨Q, hQ, hholds⟩

theorem converge {context : BlockId} {preds : List BlockId} (h : O.Fits (fun _ _ => False) s.graph)
    (hscope : ∀ p ∈ preds, O.scope context ⊆ O.scope p)
    (hrun : Runs (converge context preds) s c s') :
    (O.begin c (s'.graph.symbols c) (O.scope context)).Fits (fun _ _ => False) s'.graph := by
  simp only [Builder.converge, Runs.bind_iff, Runs.pure_iff] at hrun
  obtain ⟨_, t, hchild, _, _, hjumps, rfl, rfl⟩ := hrun
  obtain ⟨-, hne, -⟩ := newChild_new hchild
  rw [symbols_jumps hjumps]
  refine ((h.newChild hscope hchild).jumps (fun p hp => ?_) hjumps).mono ?_
  · rw [begin_outer_self, begin_scope (hne p hp)]
    exact hscope p hp
  · rintro q d ⟨hq | hq, hpaid⟩
    · exact hq
    · exact hpaid hq

theorem convergeBranch {context d : BlockId} {preds : List BlockId} {r : Register}
    (h : O.Fits (fun _ _ => False) s.graph)
    (hscope : ∀ p ∈ b :: preds, O.scope context ⊆ O.scope p)
    (hrun : Runs (convergeBranch context preds b r) s (c, d) s') :
    ((O.begin c (s'.graph.symbols c) (O.scope context)).begin d (s'.graph.symbols d)
      (O.scope context)).Fits (fun _ _ => False) s'.graph := by
  simp only [Builder.convergeBranch, Runs.bind_iff, Runs.pure_iff, Prod.mk.injEq] at hrun
  obtain ⟨_, t, hc, _, t', hd, _, t'', hjumps, _, _, hbranch, ⟨rfl, rfl⟩, rfl⟩ := hrun
  obtain ⟨hcontext, -, -, hC⟩ := newChild_new hc
  obtain ⟨-, hpreds, hkept, -⟩ := newChild_new hd
  have hcd : c ≠ d := by
    rintro rfl
    obtain ⟨i, -, rfl, -⟩ := runs_newChild.1 hd
    exact hC t.graph.block?_nextId
  have hsymbols (e : BlockId) : s'.graph.symbols e = t'.graph.symbols e := by
    obtain ⟨_, _, _, _, _, -, -, -, -, -, -, -, -, rfl⟩ := runs_branchTo.1 hbranch
    rw [← symbols_jumps hjumps e]
    exact symbols_updateBlock (fun B _ => by rfl) e
  rw [hsymbols c, hsymbols d, Graph.symbols_congr (hkept c hcd)]
  let O₁ := O.begin c (t.graph.symbols c) (O.scope context)
  let O₂ := O₁.begin d (t'.graph.symbols d) (O.scope context)
  have hscope₁ : ∀ p ∈ b :: preds, O.scope context ⊆ O₁.scope p := by
    intro p hp
    by_cases hpc : p = c
    · rw [hpc, begin_scope_self]
      exact fun _ hv => hv
    · rw [begin_scope hpc]
      exact hscope p hp
  have hscope₂ : ∀ p ∈ b :: preds, O.scope context ⊆ O₂.scope p := by
    intro p hp
    rw [begin_scope (hpreds p hp)]
    exact hscope₁ p hp
  have hfirst := h.newChild (fun p hp => hscope p (by simp_all)) hc
  have hsecond := hfirst.newChild (fun p hp => by rw [begin_scope hcontext]; exact hscope₁ p hp) hd
  rw [begin_scope hcontext] at hsecond
  have hjumped := hsecond.jumps (fun p hp => by
    rw [begin_outer_self]
    exact hscope₂ p (List.mem_cons_of_mem b hp)) hjumps
  refine (hjumped.branchTo ?_ ?_ hbranch).mono ?_
  · rw [begin_outer hcd, begin_outer_self]
    exact hscope₂ b List.mem_cons_self
  · rw [begin_outer_self]
    exact hscope₂ b List.mem_cons_self
  · rintro q e ⟨⟨(hq | ⟨hq, rfl⟩) | ⟨hq, rfl⟩, hpaid⟩, hpaid'⟩
    · exact hq
    · exact hpaid' ⟨by simpa using hq, .inl rfl⟩
    · rcases List.mem_cons.1 hq with rfl | hq
      · exact hpaid' ⟨rfl, .inr rfl⟩
      · exact hpaid ⟨hq, rfl⟩

theorem suspend {k : Call} {p : Packing} {layout : LayoutId} (h : O.Fits (fun _ _ => False) s.graph)
    (hB : s.graph.block? b = some k.caller) (hp : k.Packs layout s.graph.nextId p)
    (hsus : k.Suspends b p s s') :
    (O.begin s.graph.nextId (s'.graph.symbols s.graph.nextId) (O.scope b)).Fits (fun _ _ => False)
      s'.graph := by
  let c := s.graph.nextId
  let C := k.resumed c p
  have hsame := hp.sameShape
  have hne : b ≠ c := by
    rintro rfl
    simp [c, Graph.block?_nextId] at hB
  have hlt : b.index < c.index := (List.getElem?_eq_some_iff.1 hB).1
  have hC : (s.appendBlock C).graph.block? c = some C := by simp [c]
  have hnew : (O.begin c C.locals.symbols (O.scope b)).Fits (fun q d => q = b ∧ d = c)
      (s.appendBlock C).graph := by
    refine h.begin s.graph.block?_nextId hC (fun d hd => by simp [hd, c]) hp.referenced_resumed
      (hsame.keys_eq.trans (h.names b _ hB)) (fun v hv => ?_) (.inl ⟨rfl, ?_⟩) (fun v hv hn => ?_)
      (by simp)
    · rcases mem_scope.1 hv with hv | ⟨hn, rfl⟩
      · exact (h.homes b _ v hB hv).imp_left (Nat.lt_trans · hlt)
      · exact ⟨hlt, hn⟩
    · simp [C, Call.resumed, Call.bare, Call.parameterTypes, continuation]
    · exact ⟨b, k.caller, hB, hlt, hv, (hsame.holds_eq v.name).symm.trans hn, rfl, rfl⟩
  have htable : s'.graph.symbols c = C.locals.symbols := by
    simp only [Graph.symbols, c, hsus.resumed]
    rfl
  rw [htable]
  refine hnew.rewrite (B := k.caller) ?_ hsus.caller (fun d hd => ?_)
    ((Block.Extends.pushAll hsus.open_ p.code).trans (.close (b := k.caller.pushAll p.code) hsus.open_ _))
    rfl (fun n hn => hn) (fun d hd _ => ?_) (fun d hd => ⟨fun n hn => hn, ?_⟩) (by simp +contextual)
  · rw [appendBlock_block?, if_neg hne, hB]
  · by_cases hdc : d = c
    · rw [hdc, hC]
      exact hsus.resumed
    · simp [hsus.others d hd hdc, hdc, c]
  · rcases hp.mem_referenced_suspended hd with hd | rfl
    · exact .inl hd
    · refine .inr ⟨⟨C, hC⟩, ?_, fun n hn => ?_⟩
      · rw [begin_outer_self, begin_scope hne]
        exact fun _ hv => hv
      · rw [begin_start_self] at hn
        exact (hsame.holds_eq n).symm.trans hn
  · refine .inr ⟨rfl, ?_⟩
    rcases hd with ⟨-, rfl⟩ | ⟨hclosed, -⟩
    · exact mem_successors_suspended hp
    · simp [hsus.open_] at hclosed

theorem call {s s' : State} {n : Nat} {type : SourceType}
    (h : O.Fits (fun _ _ => False) s.graph) (hrun : Runs (lowerCall b n type) s c s') :
    (O.begin c (s'.graph.symbols c) (O.scope b)).Fits (fun _ _ => False) s'.graph := by
  obtain ⟨k, p, t, hbegins, rfl, hp, hsus, -⟩ := runs_lowerCall hrun
  obtain ⟨B, rest, hB, -, hcaller⟩ := hbegins.block
  -- the operands come off the stack, and the type of the result may add layouts
  have hblock (d : BlockId) : t.graph.block? d =
      (s.toBuilder.updateBlock b (·.withLocals k.caller.locals)).graph.block? d := by
    rw [Graph.block?, lowerType_blocks hbegins.result]
    rfl
  have hB' : t.graph.block? b = some k.caller := by
    rw [hblock, updateBlock_self hB, hcaller]
    rfl
  have hopen : B.isTerminated = false := by
    have hclosed := hsus.open_
    rw [hcaller] at hclosed
    exact hclosed
  have ht : O.Fits (fun _ _ => False) t.graph := by
    refine h.rewrite hB hB' (fun d hd => (hblock d).trans (updateBlock_other _ hd _))
      (by rw [hcaller]; exact .withLocals _ _) (by rw [hcaller]; rfl) (fun n hn => by rw [hcaller]; exact hn)
      (fun d hd _ => .inl (by rw [hcaller] at hd; exact hd)) (by simp [hopen]) (by simp)
  exact ht.suspend hB' hp hsus

theorem amend (h : O.Fits (fun _ _ => False) s.graph) (hb : Amends O.roots b s s') :
    O.Fits (fun _ _ => False) s'.graph := by
  obtain ⟨B, B', hB, hopen, hB', hext, hkeys, hholds, hrefs⟩ := hb.block
  refine h.rewrite hB hB' hb.others hext hkeys hholds (fun c hc hroot => ?_) (by simp [hopen]) (by simp)
  exact .inl ((hrefs c hc).resolve_right hroot)

theorem declare {name : String} {x : Symbol} (h : O.Fits (fun _ _ => False) s.graph)
    (hb : s.graph.IsOpen b) (hrun : Runs (define b name x) s u s') :
    (O.declare b name x).Fits (fun _ _ => False) s'.graph := by
  obtain ⟨B, t, hB, ht, rfl⟩ := runs_define.1 hrun
  have hentries := SymbolTable.define_entries ht
  have hfits : (O.withDeclared b (O.declared b ++ [name])).Fits (fun _ _ => False)
      (s.updateBlock b (·.withLocals { B.locals with symbols := t })).graph := by
    refine h.revise hB (updateBlock_self hB _) (fun d hd => updateBlock_other s hd _)
      (.withLocals _ _) (List.subset_append_left _ _) ?_ (fun n hn => ?_) (fun c hc _ => .inl hc)
      (by simp [hb.isTerminated hB]) (by simp)
    · have hkeys : t.keys = B.locals.symbols.keys ++ [name] := by simp [OrderedMap.keys, hentries]
      rw [← List.append_assoc, ← scope_names, ← h.names b B hB]
      exact hkeys
    · obtain ⟨e, he, hname, hr⟩ := Locals.holds_iff.1 hn
      exact Locals.holds_iff.2 ⟨e, by simp [hentries, he], hname, hr⟩
  refine { hfits with keeps := fun d D n hD hn => ?_ }
  rw [mem_declare_given, ← or_assoc] at hn
  rcases hn with hn | ⟨rfl, rfl, hx⟩
  · exact hfits.keeps d D n hD hn
  · obtain rfl := Option.some.inj ((updateBlock_self hB _).symm.trans hD)
    exact Locals.holds_iff.2 ⟨(n, x), by simp [hentries], rfl, hx⟩

end Fits

theorem fits_of_chronicle {s : Builder} (h : Chronicle O s) : O.Fits (fun _ _ => False) s.graph := by
  induction h with
  | empty => constructor <;> simp [Graph.block?]
  | root _ hrun ih =>
    obtain ⟨rfl, rfl⟩ := runs_addBlock.1 hrun
    exact ih.root (Graph.block?_nextId _) ((appendBlock_block? _ _ _).trans (if_pos rfl))
      (fun d hd => by simp [hd]) rfl rfl
  | quiet _ hblocks ih => exact ih.congr fun c => by rw [Graph.block?, hblocks, Graph.block?]
  | amend _ hb ih => exact ih.amend hb
  | declare _ hb hrun ih => exact ih.declare hb hrun
  | call _ hrun ih => exact ih.call hrun
  | converge _ hscope hrun ih => exact ih.converge hscope hrun
  | convergeBranch _ hscope hrun ih => exact ih.convergeBranch hscope hrun
  | jump _ hscope hrun ih => exact (ih.jump hscope hrun).mono fun _ _ hq => hq.1

namespace Fits

variable {owed : BlockId → BlockId → Prop} {g : Graph} {v : Binding}

theorem assigned (h : O.Fits owed g) {C : Block} (hC : g.block? c = some C) (hv : v ∈ O.outer c)
    (hstart : (O.start c).holds v.name = true) : O.Assigned g O.roots v c := by
  intro xs hpath
  -- going back along the path, the first block that does not start with the value gives it
  induction hpath generalizing C with
  | here => exact absurd (h.homes v.home C v hC hv).1 (Nat.lt_irrefl _)
  | @step x d xs _ hflow ih =>
    obtain ⟨hroot, X, hX, hd⟩ := hflow
    obtain ⟨-, hscope, hvalue⟩ := h.enters x X d hX (Block.mem_referenced_of_successors hd) hroot
    by_cases hx : (O.start x).holds v.name = true
    · obtain ⟨y, hy, hgives⟩ := ih hX (h.mem_outer hX (hscope hv) hx) hx
      exact ⟨y, List.mem_cons_of_mem x hy, hgives⟩
    · exact ⟨x, List.mem_cons_self, hscope hv, ⟨X, hX, hvalue v.name hstart⟩, by simpa using hx⟩

theorem exists_path (h : O.Fits (fun _ _ => False) g) (n : Nat) :
    ∀ {c C}, c.index < n → g.block? c = some C → v ∈ O.outer c →
      (O.start c).holds v.name = false →
      ∃ xs, g.Path O.roots v.home c xs ∧ ∀ x ∈ xs, ¬g.HasValue x v.name := by
  -- the path goes back through blocks that were made earlier, so the induction is on the number of a block
  induction n with
  | zero => simp
  | succ n ih =>
    intro c C hlt hC hv hstart
    obtain ⟨q, Q, hQ, hqc, hscope, hholds, hpaid⟩ := h.lacks c C v hC hv hstart
    obtain ⟨-, hsucc⟩ := hpaid.resolve_left id
    have hroot : c ∉ O.roots := fun hr => by simp [(h.roots c hr).2] at hv
    have hflow : g.Flows O.roots q c := ⟨hroot, Q, hQ, hsucc⟩
    have hvalue : ¬g.HasValue q v.name := by
      rintro ⟨Q', hQ', hn⟩
      obtain rfl := Option.some.inj (hQ.symm.trans hQ')
      simp [hholds] at hn
    rcases mem_scope.1 hscope with hq | ⟨-, rfl⟩
    · have hnone : (O.start q).holds v.name = false :=
        Bool.eq_false_iff.2 fun hn => hvalue ⟨Q, hQ, h.keeps q Q v.name hQ (.inl hn)⟩
      obtain ⟨xs, hpath, hxs⟩ := ih (by omega) hQ hq hnone
      exact ⟨q :: xs, hpath.step hflow, List.forall_mem_cons.2 ⟨hvalue, hxs⟩⟩
    · exact ⟨[v.home], .step .here hflow, by simpa using hvalue⟩

theorem exact (h : O.Fits (fun _ _ => False) g) : O.Exact g O.roots where
  names := h.starts
  holds_iff c C v hC hv := by
    refine ⟨h.assigned hC hv, fun hassigned => ?_⟩
    by_contra hstart
    obtain ⟨xs, hpath, hxs⟩ := h.exists_path (c.index + 1) (Nat.lt_succ_self _) hC hv (by simpa using hstart)
    obtain ⟨x, hx, -, hvalue, -⟩ := hassigned xs hpath
    exact hxs x hx hvalue

end Fits

end Origins

end BlockGraph
