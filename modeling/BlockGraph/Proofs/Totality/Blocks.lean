import BlockGraph.Proofs.Totality.Live

namespace BlockGraph

open Analysis

variable {low low' : SourceType → Option ValueType} {b c : BlockId} {Γ Δ : Context}
  {Δs : List Context} {σ τ : List ValueType} {slot : Option ValueType}

namespace Graph

variable {g g' : Graph}

def Holds (g : Graph) (low : SourceType → Option ValueType) (b : BlockId) (Γ : Context)
    (σ : List ValueType) (slot : Option ValueType) : Prop :=
  ∃ B, g.block? b = some B ∧ B.Holds low Γ σ slot

def Fits (g : Graph) (low : SourceType → Option ValueType) (b : BlockId) (Γ : Context)
    (σ : List ValueType) (slot : Option ValueType) : Prop :=
  ∃ B, g.block? b = some B ∧ B.isTerminated = false ∧ B.Holds low Γ σ slot

def Expects (g : Graph) (low : SourceType → Option ValueType) (b : BlockId) (Γ : Context)
    (σ : List ValueType) (slot : Option ValueType) : Prop :=
  ∃ B, g.block? b = some B ∧ B.Expects low Γ σ slot

theorem Fits.holds (h : g.Fits low b Γ σ slot) : g.Holds low b Γ σ slot := by
  obtain ⟨B, hB, -, hfits⟩ := h
  exact ⟨B, hB, hfits⟩

theorem Holds.distinct (h : g.Holds low b Γ σ slot) : Γ.Distinct := by
  obtain ⟨B, -, hB⟩ := h
  exact hB.distinct

theorem Holds.mono (h : g.Holds low b Γ σ slot)
    (hlow : ∀ t vt, low t = some vt → low' t = some vt)
    (hb : ∀ B, g.block? b = some B → g'.block? b = some B) : g'.Holds low' b Γ σ slot := by
  obtain ⟨B, hB, hholds⟩ := h
  exact ⟨B, hb B hB, hholds.mono hlow (fun _ _ h => h) rfl⟩

theorem Fits.mono (h : g.Fits low b Γ σ slot)
    (hlow : ∀ t vt, low t = some vt → low' t = some vt)
    (hb : ∀ B, g.block? b = some B → g'.block? b = some B) : g'.Fits low' b Γ σ slot := by
  obtain ⟨B, hB, hopen, hholds⟩ := h
  exact ⟨B, hb B hB, hopen, hholds.mono hlow (fun _ _ h => h) rfl⟩

theorem Expects.mono (h : g.Expects low b Γ σ slot)
    (hlow : ∀ t vt, low t = some vt → low' t = some vt) (hg : g.Extends g') :
    g'.Expects low' b Γ σ slot := by
  obtain ⟨B, hB, hexp⟩ := h
  obtain ⟨B', hB', hext⟩ := hg b B hB
  exact ⟨B', hB', hexp.mono hlow hext⟩

theorem Holds.kept (h : g.Holds low b Γ σ slot)
    (hb : ∀ B, g.block? b = some B → g'.block? b = some B) : g'.Holds low b Γ σ slot :=
  h.mono (fun _ _ h => h) hb

theorem Fits.kept (h : g.Fits low b Γ σ slot)
    (hb : ∀ B, g.block? b = some B → g'.block? b = some B) : g'.Fits low b Γ σ slot :=
  h.mono (fun _ _ h => h) hb

theorem Expects.kept (h : g.Expects low b Γ σ slot)
    (hb : ∀ B, g.block? b = some B → g'.block? b = some B) : g'.Expects low b Γ σ slot := by
  obtain ⟨B, hB, hexp⟩ := h
  exact ⟨B, hb B hB, hexp⟩

theorem Expects.extend (h : g.Expects low b Γ σ slot) (hg : g.Extends g') :
    g'.Expects low b Γ σ slot :=
  h.mono (fun _ _ h => h) hg

theorem allHold_eq {bs : List BlockId}
    (h : List.Forall₂ (fun b Δ => g.Holds low b Δ σ slot) bs Δs) (n : String) :
    g.allHold bs n = Δs.all (·.holds n) := by
  induction h with
  | nil => rfl
  | cons hb _ ih =>
    obtain ⟨B, hB, hholds⟩ := hb
    simp only [allHold, List.all_cons, hB, Option.any_some, hholds.holds] at ih ⊢
    rw [ih]

end Graph

namespace Builder

variable {s : Builder} {bs : List BlockId} {context : BlockId} {r : Register}

theorem succeeds_jump (hb : s.graph.Fits low b Δ σ slot) (hc : s.graph.Expects low c Γ σ slot)
    (hle : Γ.Le Δ) : ∃ s', Runs (jump b c) s () s' ∧ s'.graph.Holds low b Δ σ slot := by
  obtain ⟨B, hB, hopen, hholds⟩ := hb
  obtain ⟨C, hC, hexp⟩ := hc
  obtain ⟨args, hargs, htypes⟩ := hholds.arguments hexp hle b c
  exact ⟨_, runs_jump.2 ⟨B, C, args, hB, hC, hopen, hargs, htypes.push _, rfl⟩,
    _, updateBlock_self hB _, (hholds.push _).close _⟩

theorem succeeds_jumps (hnodup : bs.Nodup)
    (hbs : ∀ b ∈ bs, ∃ Δ, s.graph.Fits low b Δ σ slot ∧ Γ.Le Δ)
    (hc : s.graph.Expects low c Γ σ slot) : ∃ s', Runs (bs.forM (jump · c)) s ⟨⟩ s' := by
  induction bs generalizing s with
  | nil => exact ⟨s, Runs.forM_nil.2 rfl⟩
  | cons b bs ih =>
    obtain ⟨hnew, hnodup⟩ := List.nodup_cons.1 hnodup
    obtain ⟨Δ, hb, hle⟩ := hbs b (by simp)
    obtain ⟨t, hjump, -⟩ := succeeds_jump hb hc hle
    have hmoves := (moves_jump hjump).1
    have hrest : ∀ b' ∈ bs, ∃ Δ, t.graph.Fits low b' Δ σ slot ∧ Γ.Le Δ := by
      intro b' hb'
      obtain ⟨Δ', hfits, hle'⟩ := hbs b' (by simp [hb'])
      refine ⟨Δ', hfits.kept (hmoves.keeps b' · ?_), hle'⟩
      rintro hmem
      obtain rfl := List.mem_singleton.1 hmem
      exact hnew hb'
    obtain ⟨s', hjumps⟩ := ih hnodup hrest (hc.extend hmoves.graph_extends)
    exact ⟨s', Runs.forM_cons.2 ⟨t, hjump, hjumps⟩⟩

theorem succeeds_newChild (hcontext : s.graph.Holds low context Γ τ slot)
    (hbs : List.Forall₂ (fun b Δ => s.graph.Holds low b Δ σ slot) bs Δs) (hne : bs ≠ []) :
    Succeeds (newChild context bs) s fun child s' =>
      s'.graph.Fits low child (Γ.meet Δs) σ slot ∧
        s'.graph.Expects low child (Γ.meet Δs) σ slot := by
  obtain ⟨C, hC, hholds⟩ := hcontext
  let i : Inflow := ⟨slot, C.locals.symbols, s.graph.allHold bs, σ⟩
  have hall : ∀ p ∈ bs, ∃ P, s.graph.block? p = some P ∧ P.HasTypes P.locals.stack σ := by
    intro p hp
    obtain ⟨n, hn, rfl⟩ := List.mem_iff_getElem.1 hp
    obtain ⟨P, hP, hholds⟩ := hbs.get hn (hbs.length_eq ▸ hn)
    exact ⟨P, hP, hholds.stack⟩
  have hgather : i.Gathers s.graph context bs := by
    refine ⟨⟨C, hC, rfl, hholds.slot⟩, ?_, fun p hp => ?_, rfl⟩
    · cases bs with
      | nil => exact absurd rfl hne
      | cons p bs =>
        obtain ⟨P, hP, hstack⟩ := hall p (by simp)
        exact ⟨p, P, rfl, hP, hstack⟩
    · obtain ⟨P, hP, hstack⟩ := hall p hp
      exact ⟨P, hP, hstack.length_eq⟩
  have hkeep : Γ.keep i.held = Γ.meet Δs := by
    rw [Context.meet]
    exact congrArg Γ.keep (funext (Graph.allHold_eq hbs))
  refine ⟨_, _, runs_newChild.2 ⟨i, hgather, rfl, rfl⟩, ?_, ?_⟩
  · exact ⟨i.block s.graph.nextId, by simp, rfl, hkeep ▸ Inflow.block_holds hholds rfl _⟩
  · exact ⟨i.block s.graph.nextId, by simp, hkeep ▸ Inflow.block_expects hholds rfl _⟩

theorem newChild_keeps {child : BlockId} {s' : Builder} (h : Runs (newChild context bs) s child s') :
    (∀ b B, s.graph.block? b = some B → s'.graph.block? b = some B) ∧
      s.graph.block? child = none := by
  obtain ⟨i, -, rfl, rfl⟩ := runs_newChild.1 h
  refine ⟨fun b B hB => ?_, s.graph.block?_nextId⟩
  rw [addChild_block?, if_neg]
  · exact hB
  · rintro rfl
    simp [Graph.block?_nextId] at hB

theorem succeeds_converge (hcontext : s.graph.Holds low context Γ τ slot) (hnodup : bs.Nodup)
    (hbs : List.Forall₂ (fun b Δ => s.graph.Fits low b Δ σ slot ∧ Γ.Le Δ) bs Δs) (hne : bs ≠ []) :
    Succeeds (converge context bs) s fun child s' =>
      s'.graph.Fits low child (Γ.meet Δs) σ slot ∧
        s'.graph.Expects low child (Γ.meet Δs) σ slot := by
  refine (succeeds_newChild hcontext (hbs.imp fun _ _ h => h.1.holds) hne).bind ?_
  rintro child t hrun ⟨hfits, hexp⟩
  obtain ⟨hkeeps, hnew⟩ := newChild_keeps hrun
  have hle : ∀ b ∈ bs, ∃ Δ, t.graph.Fits low b Δ σ slot ∧ (Γ.meet Δs).Le Δ := by
    intro b hb
    obtain ⟨n, hn, rfl⟩ := List.mem_iff_getElem.1 hb
    have hn' : n < Δs.length := hbs.length_eq ▸ hn
    obtain ⟨hfits, hle⟩ := hbs.get hn hn'
    exact ⟨Δs[n], hfits.kept (hkeeps _),
      Context.meet_le hle hfits.holds.distinct (List.getElem_mem _)⟩
  obtain ⟨s', hjumps⟩ := succeeds_jumps hnodup hle hexp
  have hmoves := (moves_jumps hjumps).1
  have hchild : child ∉ bs := by
    intro hmem
    obtain ⟨n, hn, rfl⟩ := List.mem_iff_getElem.1 hmem
    obtain ⟨⟨B, hB, -⟩, -⟩ := hbs.get hn (hbs.length_eq ▸ hn)
    simp only [List.get_eq_getElem] at hB
    simp [hB] at hnew
  exact ⟨child, s', Runs.bind_iff.2 ⟨_, _, hjumps, Runs.pure_iff.2 ⟨rfl, rfl⟩⟩,
    hfits.kept (hmoves.keeps child · hchild),
    hexp.extend hmoves.graph_extends⟩

theorem succeeds_enter (hb : s.graph.Fits low b Γ σ slot) :
    Succeeds (enter b) s fun child s' => child ≠ b ∧ s'.graph.Holds low b Γ σ slot ∧
      s'.graph.Fits low child Γ σ slot ∧ s'.graph.Expects low child Γ σ slot := by
  refine (succeeds_newChild hb.holds (.cons hb.holds .nil) (by simp)).bind ?_
  rintro child t hrun ⟨hfits, hexp⟩
  rw [Context.meet_self hb.holds.distinct] at hfits hexp
  obtain ⟨hkeeps, hnew⟩ := newChild_keeps hrun
  obtain ⟨s', hjump, hholds⟩ := succeeds_jump (hb.kept (hkeeps b)) hexp (.refl Γ)
  have hmoves := (moves_jump hjump).1
  have hne : child ≠ b := by
    rintro rfl
    obtain ⟨B, hB, -⟩ := hb
    simp [hB] at hnew
  exact ⟨child, s', Runs.bind_iff.2 ⟨_, _, hjump, Runs.pure_iff.2 ⟨rfl, rfl⟩⟩, hne, hholds,
    hfits.kept (hmoves.keeps child · (by simpa using hne)), hexp.extend hmoves.graph_extends⟩

theorem succeeds_branchTo {d : BlockId} {Γ' : Context} (hb : s.graph.Fits low b Δ σ slot)
    (hc : s.graph.Expects low c Γ σ slot) (hle : Γ.Le Δ) (hd : s.graph.Expects low d Γ' σ slot)
    (hle' : Γ'.Le Δ) :
    ∃ s', Runs (branchTo b r c d) s () s' ∧ s'.graph.Holds low b Δ σ slot ∧
      ∀ x, x ≠ b → s'.graph.block? x = s.graph.block? x := by
  obtain ⟨B, hB, hopen, hholds⟩ := hb
  obtain ⟨C, hC, hexp⟩ := hc
  obtain ⟨D, hD, hexp'⟩ := hd
  obtain ⟨args, hargs, htypes⟩ := hholds.arguments hexp hle b c
  obtain ⟨args', hargs', htypes'⟩ := hholds.arguments hexp' hle' b d
  exact ⟨_, runs_branchTo.2 ⟨B, C, D, args, args', hB, hC, hD, hopen, hargs, hargs', htypes.push _,
    (htypes'.push _).push _, rfl⟩, ⟨_, updateBlock_self hB _, ((hholds.push _).push _).close _⟩,
    fun x hx => updateBlock_other _ hx _⟩

theorem succeeds_branch (hb : s.graph.Fits low b Γ σ slot) :
    Succeeds (branch b r) s fun p s' => (p.1 ≠ b ∧ p.2 ≠ b ∧ p.1 ≠ p.2) ∧
      s'.graph.Holds low b Γ σ slot ∧ s'.graph.Fits low p.1 Γ σ slot ∧
      s'.graph.Fits low p.2 Γ σ slot ∧ s'.graph.Expects low p.2 Γ σ slot := by
  have hmeet := Context.meet_self hb.holds.distinct
  refine (succeeds_newChild hb.holds (.cons hb.holds .nil) (by simp)).bind ?_
  rintro c t hrun ⟨hfits, hexp⟩
  obtain ⟨hkeeps, hnew⟩ := newChild_keeps hrun
  have hb' := hb.kept (hkeeps b)
  refine (succeeds_newChild hb'.holds (.cons hb'.holds .nil) (by simp)).bind ?_
  rintro d t' hrun' ⟨hfits', hexp'⟩
  obtain ⟨hkeeps', hnew'⟩ := newChild_keeps hrun'
  rw [hmeet] at hfits hexp hfits' hexp'
  have hb'' := hb'.kept (hkeeps' b)
  have hfits := hfits.kept (hkeeps' c)
  have hexp := hexp.kept (hkeeps' c)
  obtain ⟨s', hbranch, hholds, hother⟩ := succeeds_branchTo (r := r) hb'' hexp (.refl Γ) hexp' (.refl Γ)
  have hne {x : BlockId} (hx : ∀ B, s.graph.block? x ≠ some B) : x ≠ b := by
    rintro rfl
    obtain ⟨B, hB, -⟩ := hb
    exact hx B hB
  have hcb : c ≠ b := hne (by simp [hnew])
  have hdb : d ≠ b := hne fun B hB => by simp [hkeeps d B hB] at hnew'
  have hcd : c ≠ d := by
    rintro rfl
    obtain ⟨C, hC, -⟩ := hexp
    obtain ⟨i, -, rfl, rfl⟩ := runs_newChild.1 hrun
    simp at hnew'
  have keep {x : BlockId} (hx : x ≠ b) (B : Block) (hB : t'.graph.block? x = some B) :
      s'.graph.block? x = some B := (hother x hx).trans hB
  refine ⟨(c, d), _, Runs.bind_iff.2 ⟨_, _, hbranch, Runs.pure_iff.2 ⟨rfl, rfl⟩⟩,
    ⟨hcb, hdb, hcd⟩, hholds,
    hfits.kept (keep hcb), hfits'.kept (keep hdb), hexp'.kept (keep hdb)⟩

theorem succeeds_convergeBranch (hcontext : s.graph.Holds low context Γ τ slot)
    (hnodup : (b :: bs).Nodup) (hb : s.graph.Fits low b Δ σ slot) (hle : Γ.Le Δ)
    (hbs : List.Forall₂ (fun b Δ => s.graph.Fits low b Δ σ slot ∧ Γ.Le Δ) bs Δs) :
    Succeeds (convergeBranch context bs b r) s fun p s' => p.1 ≠ p.2 ∧
      s'.graph.Fits low p.1 (Γ.meet [Δ]) σ slot ∧ s'.graph.Fits low p.2 (Γ.meet (Δ :: Δs)) σ slot := by
  obtain ⟨hbnew, hnodup⟩ := List.nodup_cons.1 hnodup
  refine (succeeds_newChild hcontext (.cons hb.holds .nil) (by simp)).bind ?_
  rintro c t hrun ⟨hfits, hexp⟩
  obtain ⟨hkeeps, hnew⟩ := newChild_keeps hrun
  have hb' := hb.kept (hkeeps b)
  have hcontext' := hcontext.kept (hkeeps context)
  have hbs' : List.Forall₂ (fun b Δ => t.graph.Fits low b Δ σ slot ∧ Γ.Le Δ) bs Δs :=
    hbs.imp fun b _ h => ⟨h.1.kept (hkeeps b), h.2⟩
  refine (succeeds_newChild hcontext' (.cons hb'.holds (hbs'.imp fun _ _ h => h.1.holds))
    (by simp)).bind ?_
  rintro d t' hrun' ⟨hfits', hexp'⟩
  obtain ⟨hkeeps', hnew'⟩ := newChild_keeps hrun'
  have hjumps : ∀ b ∈ bs, ∃ Θ, t'.graph.Fits low b Θ σ slot ∧ (Γ.meet (Δ :: Δs)).Le Θ := by
    intro x hx
    obtain ⟨n, hn, rfl⟩ := List.mem_iff_getElem.1 hx
    have hn' : n < Δs.length := hbs'.length_eq ▸ hn
    obtain ⟨hfits, hle⟩ := hbs'.get hn hn'
    exact ⟨Δs[n], hfits.kept (hkeeps' _),
      Context.meet_le hle hfits.holds.distinct (List.mem_cons_of_mem _ (List.getElem_mem _))⟩
  obtain ⟨t'', hjumps⟩ := succeeds_jumps hnodup hjumps hexp'
  have hmoves := (moves_jumps hjumps).1
  -- the new blocks are none of those that jump or branch
  have hold : ∀ x ∈ b :: bs, ∃ B, s.graph.block? x = some B := by
    intro x hx
    rcases List.mem_cons.1 hx with rfl | hx
    · obtain ⟨B, hB, -⟩ := hb
      exact ⟨B, hB⟩
    · obtain ⟨n, hn, rfl⟩ := List.mem_iff_getElem.1 hx
      obtain ⟨⟨B, hB, -⟩, -⟩ := hbs.get hn (hbs.length_eq ▸ hn)
      exact ⟨B, hB⟩
  have hc : c ∉ b :: bs := by
    intro hmem
    obtain ⟨B, hB⟩ := hold c hmem
    simp [hB] at hnew
  have hd : d ∉ b :: bs := by
    intro hmem
    obtain ⟨B, hB⟩ := hold d hmem
    simp [hkeeps d B hB] at hnew'
  simp only [List.mem_cons, not_or] at hc hd
  have hext := hmoves.graph_extends
  have hexp := (hexp.kept (hkeeps' c)).extend hext
  have hmeet (Θs : List Context) (h : Δ ∈ Θs) : (Γ.meet Θs).Le Δ :=
    Context.meet_le hle hb.holds.distinct h
  have hb'' : t''.graph.Fits low b Δ σ slot :=
    (hb'.kept (hkeeps' b)).kept (hmoves.keeps b · hbnew)
  obtain ⟨s', hbranch, -, hother⟩ := succeeds_branchTo (r := r) hb'' hexp (hmeet [Δ] (by simp))
    (hexp'.extend hext) (hmeet (Δ :: Δs) (by simp))
  have keep {x : BlockId} (hx : x ≠ b ∧ x ∉ bs) (B : Block) (hB : t'.graph.block? x = some B) :
      s'.graph.block? x = some B := (hother x hx.1).trans (hmoves.keeps x B hx.2 hB)
  refine ⟨(c, d), s', ?_, ?_, ?_, hfits'.kept (keep hd)⟩
  · simp only [Runs.bind_iff, Runs.pure_iff]
    exact ⟨_, _, hjumps, _, _, hbranch, trivial, rfl⟩
  · rintro heq
    obtain rfl : c = d := heq
    obtain ⟨C, hC, -⟩ := hfits
    simp [hC] at hnew'
  · exact (hfits.kept (hkeeps' c)).kept (keep hc)

end Builder

end BlockGraph
