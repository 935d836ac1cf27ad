import BlockGraph.Proofs.Safety.Actions
import BlockGraph.Proofs.Totality.Blocks

namespace BlockGraph

variable {σ τ : Shape}

namespace Inflow

variable {i : Inflow}

theorem block_has (hslot : i.slot = σ.slot)
    (hheld : ∀ n ∈ σ.held, i.held n = true ∧ ∃ e ∈ i.symbols.entries, e.1 = n)
    (hdepth : i.stack.length = σ.depth) (id : BlockId) : (i.block id).Has σ := by
  refine ⟨hslot ▸ i.block_slot id, fun n hn => ?_, by simpa [block, locals] using hdepth⟩
  obtain ⟨hn, e, he, rfl⟩ := hheld n hn
  obtain ⟨e', he', hname, -, hsome, -⟩ :=
    forall₂_mem_left (i.forall₂_symbols (·.2.type) i.stack rfl) he
  exact Locals.holds_iff.2 ⟨e', he', hname, hsome.trans hn⟩

theorem Gathers.fits {g : Graph} {context p : BlockId} {preds : List BlockId}
    (h : i.Gathers g context preds) (hp : p ∈ preds) {P : Block} (hP : g.block? p = some P)
    (hslot : i.slot.isSome = true → P.locals.returnSlot.isSome = true) :
    i.signature.Fits P.locals := by
  obtain ⟨P', hP', hdepth⟩ := h.depth p hp
  obtain rfl := Option.some.inj (hP.symm.trans hP')
  refine ⟨hslot, fun n hn => ?_, hdepth⟩
  obtain ⟨e, he, rfl⟩ := List.mem_map.1 hn
  have hheld : i.held e.1 = true := (List.mem_filter.1 he).2
  rw [h.held, Graph.allHold, List.all_eq_true] at hheld
  simpa [hP] using hheld p hp

end Inflow

namespace Builder

variable {s s' : Builder} {b c x context : BlockId} {preds : List BlockId} {r : Register} {n : Nat}

theorem newChild_shaped (h : Runs (newChild context preds) s c s') (hx : s.graph.Shaped x σ) :
    s'.graph.Shaped x σ :=
  hx.kept ((newChild_keeps h).1 x)

theorem jump_shaped {u : Unit} (h : Runs (jump b c) s u s') (hx : s.graph.Shaped x σ) :
    s'.graph.Shaped x σ := by
  obtain ⟨B, C, args, hB, -, -, -, -, rfl⟩ := runs_jump.1 h
  by_cases hxb : x = b
  · subst hxb
    obtain ⟨X, hX, hhas⟩ := hx
    exact ⟨_, updateBlock_self hX _, (hhas.push _).mono (fun _ _ h => h) rfl⟩
  · exact hx.kept fun X hX => (updateBlock_other _ hxb _).trans hX

theorem jumps_shaped {u : PUnit} (h : Runs (preds.forM (jump · c)) s u s')
    (hx : s.graph.Shaped x σ) : s'.graph.Shaped x σ := by
  induction preds generalizing s with
  | nil =>
    obtain rfl := Runs.forM_nil.1 h
    exact hx
  | cons p preds ih =>
    obtain ⟨t, hjump, hrest⟩ := Runs.forM_cons.1 h
    exact ih hrest (jump_shaped hjump hx)

theorem converge_shaped (h : Runs (converge context preds) s c s') (hx : s.graph.Shaped x σ) :
    s'.graph.Shaped x σ := by
  simp only [converge, Runs.bind_iff, Runs.pure_iff] at h
  obtain ⟨child, t, hnew, _, t', hjumps, -, rfl⟩ := h
  exact jumps_shaped hjumps (newChild_shaped hnew hx)

theorem branchTo_shaped {d : BlockId} {u : Unit} (h : Runs (branchTo b r c d) s u s')
    (hx : s.graph.Shaped x σ) : s'.graph.Shaped x σ := by
  obtain ⟨B, C, D, ts, fs, hB, -, -, -, -, -, -, -, rfl⟩ := runs_branchTo.1 h
  by_cases hxb : x = b
  · subst hxb
    obtain ⟨X, hX, hhas⟩ := hx
    exact ⟨_, updateBlock_self hX _, ((hhas.push _).push _).mono (fun _ _ h => h) rfl⟩
  · exact hx.kept fun X hX => (updateBlock_other _ hxb _).trans hX

theorem branchTo_keeps {d : BlockId} {u : Unit} (h : Runs (branchTo b r c d) s u s') (hx : x ≠ b) :
    s'.graph.block? x = s.graph.block? x := by
  obtain ⟨B, C, D, ts, fs, hB, -, -, -, -, -, -, -, rfl⟩ := runs_branchTo.1 h
  exact updateBlock_other _ hx _

theorem safe_newChild (hcontext : s.graph.Shaped context σ) (hne : preds ≠ [])
    (hpreds : ∀ p ∈ preds, s.graph.Shaped p (σ.deeper n)) :
    Safe (newChild context preds) s fun child s' => s'.graph.IsTarget child ∧
      s'.graph.Open child (σ.deeper n) ∧
      ∀ p ∈ preds, ∀ P, s.graph.block? p = some P → s'.graph.Accepts child P.shape := by
  refine tidies_newChild.guard_and fun hs => ?_
  obtain ⟨C, hC, hhas⟩ := hcontext
  obtain ⟨p, rest, rfl⟩ := List.exists_cons_of_ne_nil hne
  obtain ⟨P, hP, hPhas⟩ := hpreds p (by simp)
  obtain ⟨stack, hstack⟩ : ∃ stack, P.HasTypes P.locals.stack stack :=
    Block.exists_hasTypes fun r hr =>
      hs.contains hP r (Locals.mem_liveRegisters.2 (.inr (.inr hr)))
  let i : Inflow := ⟨σ.slot, C.locals.symbols, s.graph.allHold (p :: rest), stack⟩
  have hdepth : i.stack.length = (σ.deeper n).depth := hstack.length_eq.symm.trans hPhas.depth
  have hgather : i.Gathers s.graph context (p :: rest) := by
    refine ⟨⟨C, hC, rfl, hhas.slot⟩, ⟨p, P, rfl, hP, hstack⟩, fun q hq => ?_, rfl⟩
    obtain ⟨Q, hQ, hQhas⟩ := hpreds q hq
    exact ⟨Q, hQ, hQhas.depth.trans hdepth.symm⟩
  have hheld : ∀ n ∈ σ.held, i.held n = true ∧ ∃ e ∈ i.symbols.entries, e.1 = n := by
    intro n hn
    refine ⟨List.all_eq_true.2 fun q hq => ?_, ?_⟩
    · obtain ⟨Q, hQ, hQhas⟩ := hpreds q hq
      simpa [hQ] using hQhas.held n hn
    · obtain ⟨e, he, hname, -⟩ := Locals.holds_iff.1 (hhas.held n hn)
      exact ⟨e, he, hname⟩
  have hchild : (s.addChild (p :: rest) i).graph.block? s.graph.nextId =
      some (i.block s.graph.nextId) := by rw [addChild_block?, if_pos rfl]
  refine .of_run (runs_newChild.2 ⟨i, hgather, rfl, rfl⟩) ⟨?_, fun q hq Q hQ => ?_⟩
  · exact ⟨_, hchild, rfl, Inflow.block_has (σ := σ.deeper n) rfl hheld hdepth _⟩
  · obtain ⟨Q', hQ', hQhas⟩ := hpreds q hq
    obtain rfl := Option.some.inj (hQ.symm.trans hQ')
    refine ⟨_, hchild, hQhas.accepts (hgather.fits hq hQ fun hslot => ?_)⟩
    obtain ⟨t, ht⟩ := Option.isSome_iff_exists.1 hslot
    obtain ⟨r, hr, -⟩ := Option.bind_eq_some_iff.1 (hQhas.slot_eq.trans ht)
    simp [hr]

theorem safe_jumps (hnodup : preds.Nodup)
    (hpreds : ∀ p ∈ preds, ∃ σ, s.graph.Open p σ ∧ s.graph.Accepts c σ) (hc : s.graph.IsTarget c) :
    Safe (preds.forM (jump · c)) s fun _ _ => True := by
  induction preds generalizing s with
  | nil => exact .pure trivial
  | cons p preds ih =>
    obtain ⟨hnew, hnodup⟩ := List.nodup_cons.1 hnodup
    obtain ⟨σ, hp, hacc⟩ := hpreds p (by simp)
    refine (safe_jump hp hacc hc).run_bind fun _ t hrun hpres _ => ?_
    refine ih hnodup (fun q hq => ?_) (hc.mono hpres)
    obtain ⟨σ, hopen, hacc⟩ := hpreds q (by simp [hq])
    refine ⟨σ, hopen.kept fun Q => (moves_jump hrun).1.keeps q Q ?_, hacc.mono hpres⟩
    rintro hmem
    obtain rfl := List.mem_singleton.1 hmem
    exact hnew hq

theorem safe_converge (hcontext : s.graph.Shaped context σ) (hne : preds ≠ [])
    (hnodup : preds.Nodup) (hpreds : ∀ p ∈ preds, s.graph.Open p (σ.deeper n)) :
    Safe (converge context preds) s fun child s' => s.graph.block? child = none ∧
      s'.graph.IsTarget child ∧ s'.graph.Open child (σ.deeper n) ∧
      ∀ p ∈ preds, ∀ P, s.graph.block? p = some P → s'.graph.Accepts child P.shape := by
  refine (safe_newChild hcontext hne fun p hp => (hpreds p hp).shaped).run_bind ?_
  rintro child t hrun - ⟨htarget, hopen, hacc⟩
  obtain ⟨hkeeps, hnew⟩ := newChild_keeps hrun
  have hjoin : ∀ p ∈ preds, ∃ σ, t.graph.Open p σ ∧ t.graph.Accepts child σ := by
    intro p hp
    obtain ⟨P, hP, hopen, -⟩ := (hpreds p hp).exact
    exact ⟨P.shape, hopen.kept (hkeeps p), hacc p hp P hP⟩
  refine (safe_jumps hnodup hjoin htarget).run_bind fun _ s' hjumps hpres _ => ?_
  have hchild : child ∉ preds := by
    intro hmem
    obtain ⟨B, hB, -⟩ := hpreds child hmem
    simp [hB] at hnew
  exact .pure ⟨hnew, htarget.mono hpres,
    hopen.kept fun B => (moves_jumps hjumps).1.keeps child B hchild,
    fun p hp P hP => (hacc p hp P hP).mono hpres⟩

theorem enter_eq (b : BlockId) : enter b = converge b [b] := by
  simp [enter, converge]

theorem leave_eq (context b : BlockId) : leave context b = converge context [b] := by
  simp [leave, converge]

theorem safe_enter (hb : s.graph.Open b σ) :
    Safe (enter b) s fun child s' => child ≠ b ∧ s'.graph.IsTarget child ∧ ∃ τ, σ.Le τ ∧
      s'.graph.Open child τ ∧ s'.graph.Accepts child τ ∧ s'.graph.Shaped b τ := by
  obtain ⟨B, hB, hopen, hle⟩ := hb.exact
  rw [enter_eq]
  refine (safe_converge (n := 0) hopen.shaped (by simp) (List.nodup_singleton b)
    (by simpa using hopen)).run_imp ?_
  rintro child s' hrun - ⟨hnew, htarget, hchild, hacc⟩
  refine ⟨?_, htarget, B.shape, hle, hchild, hacc b (by simp) B hB, converge_shaped hrun hopen.shaped⟩
  rintro rfl
  simp [hB] at hnew

theorem safe_branch (hb : s.graph.Open b σ) :
    Safe (branch b r) s fun p s' => [b, p.1, p.2].Nodup ∧ s'.graph.IsTarget p.2 ∧
      ∃ τ, σ.Le τ ∧ s'.graph.Open p.1 τ ∧ s'.graph.Open p.2 τ ∧ s'.graph.Accepts p.2 τ ∧
        s'.graph.Shaped b τ := by
  obtain ⟨B, hB, hopen, hle⟩ := hb.exact
  refine (safe_newChild (n := 0) hopen.shaped (by simp) (by simpa using hopen.shaped)).run_bind ?_
  rintro c t hrun - ⟨hc, hopenc, haccc⟩
  obtain ⟨hkeeps, hnew⟩ := newChild_keeps hrun
  have hopen := hopen.kept (hkeeps b)
  refine (safe_newChild (n := 0) hopen.shaped (by simp) (by simpa using hopen.shaped)).run_bind ?_
  rintro d t' hrun' hpres' ⟨hd, hopend, haccd⟩
  obtain ⟨hkeeps', hnew'⟩ := newChild_keeps hrun'
  have hcb : c ≠ b := by
    rintro rfl
    simp [hB] at hnew
  have hdb : d ≠ b := by
    rintro rfl
    simp [hkeeps _ _ hB] at hnew'
  have hdc : d ≠ c := by
    rintro rfl
    obtain ⟨C, hC, -⟩ := hopenc
    simp [hC] at hnew'
  have haccc := (haccc b (by simp) B hB).mono hpres'
  have haccd := haccd b (by simp) B (hkeeps b B hB)
  have hopen := hopen.kept (hkeeps' b)
  refine (safe_branchTo hopen haccc haccd (hc.mono hpres') hd hdb).run_bind ?_
  rintro _ s' hbranch hpres -
  refine .pure ⟨by simp [hcb.symm, hdb.symm, hdc.symm], hd.mono hpres, B.shape, hle, ?_, ?_,
    haccd.mono hpres, branchTo_shaped hbranch hopen.shaped⟩
  · exact (hopenc.kept (hkeeps' c)).kept fun C hC => (branchTo_keeps hbranch hcb).trans hC
  · exact hopend.kept fun D hD => (branchTo_keeps hbranch hdb).trans hD

theorem safe_convergeBranch (hcontext : s.graph.Shaped context σ) (hnodup : (b :: preds).Nodup)
    (hb : s.graph.Open b σ) (hpreds : ∀ p ∈ preds, s.graph.Open p σ) :
    Safe (convergeBranch context preds b r) s fun p s' => p.1 ≠ p.2 ∧ s'.graph.Open p.1 σ ∧
      s'.graph.Open p.2 σ := by
  have hall : ∀ p ∈ b :: preds, s.graph.Open p σ := by
    simpa using ⟨hb, hpreds⟩
  obtain ⟨B, hB, hopen, hle⟩ := hb.exact
  refine (safe_newChild (n := 0) hcontext (by simp) (by simpa using hb.shaped)).run_bind ?_
  rintro c t hrun - ⟨hc, hopenc, haccc⟩
  obtain ⟨hkeeps, hnew⟩ := newChild_keeps hrun
  refine (safe_newChild (n := 0) (hcontext.kept (hkeeps context)) (by simp)
    fun p hp => ((hall p hp).kept (hkeeps p)).shaped).run_bind ?_
  rintro d t' hrun' hpres' ⟨hd, hopend, haccd⟩
  obtain ⟨hkeeps', hnew'⟩ := newChild_keeps hrun'
  have hjoin : ∀ p ∈ b :: preds, ∃ P, s.graph.block? p = some P ∧ t'.graph.Open p P.shape ∧
      t'.graph.Accepts d P.shape := by
    intro p hp
    obtain ⟨P, hP, hopen, -⟩ := (hall p hp).exact
    exact ⟨P, hP, (hopen.kept (hkeeps p)).kept (hkeeps' p), haccd p hp P (hkeeps p P hP)⟩
  obtain ⟨hbpreds, hnodup⟩ := List.nodup_cons.1 hnodup
  refine (safe_jumps hnodup (fun p hp => ?_) hd).run_bind ?_
  · obtain ⟨P, -, hopen, hacc⟩ := hjoin p (by simp [hp])
    exact ⟨P.shape, hopen, hacc⟩
  rintro _ u hjumps hpres -
  have hmoves := (moves_jumps hjumps).1
  have hcnew : c ∉ b :: preds := by
    intro hmem
    obtain ⟨X, hX, -⟩ := hall c hmem
    simp [hX] at hnew
  have hdnew : d ∉ b :: preds := by
    intro hmem
    obtain ⟨X, hX, -⟩ := hall d hmem
    simp [hkeeps d X hX] at hnew'
  have hopen := ((hopen.kept (hkeeps b)).kept (hkeeps' b)).kept fun X => hmoves.keeps b X hbpreds
  have haccc := ((haccc b (by simp) B hB).mono hpres').mono hpres
  have haccd := (haccd b (by simp) B (hkeeps b B hB)).mono hpres
  refine (safe_branchTo hopen haccc haccd ((hc.mono hpres').mono hpres) (hd.mono hpres)
    (List.ne_of_not_mem_cons hdnew)).run_bind ?_
  rintro _ s' hbranch - -
  have hkept {x : BlockId} (hx : x ∉ b :: preds) (hopen : t'.graph.Open x σ) : s'.graph.Open x σ := by
    refine hopen.kept fun X hX => ?_
    rw [branchTo_keeps hbranch (List.ne_of_not_mem_cons hx)]
    exact hmoves.keeps x X (List.not_mem_of_not_mem_cons hx) hX
  have hcd : c ≠ d := by
    rintro rfl
    obtain ⟨C, hC, -⟩ := hopenc
    simp [hC] at hnew'
  exact .pure ⟨hcd, hkept hcnew (hopenc.kept (hkeeps' c)), hkept hdnew hopend⟩

end Builder

end BlockGraph
