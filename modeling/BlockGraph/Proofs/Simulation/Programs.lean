import BlockGraph.Proofs.Linearity.Programs
import BlockGraph.Proofs.Lowering.Partition
import BlockGraph.Proofs.Simulation.Scopes
import BlockGraph.Proofs.Totality.Programs

/-!
The graph of a program does what the program does. Evaluation with more fuel for calls and loops is
followed by a longer run of the graph, so that a program without an end has a run without one.
-/

namespace BlockGraph

open Interpretation

namespace Graph

variable {M : Machine} {g : Graph} {b : BlockId} {args : List M.Value} {m : M.State} {n k : Nat}

theorem run_of_le (h : ∀ c vs m', g.run n b args m ≠ .running c vs m') (hk : n ≤ k) :
    g.run k b args m = g.run n b args m := by
  induction n generalizing k b args m with
  | zero => exact absurd rfl (h b args m)
  | succ n ih =>
    obtain ⟨k, rfl⟩ : ∃ j, k = j + 1 := ⟨k - 1, by omega⟩
    rw [run] at h ⊢
    rw [run]
    cases hexec : g.exec b args m with
    | halted | trapped => rfl
    | jumped side v vs m' =>
      simp only [hexec, follow] at h ⊢
      cases hv : M.target v with
      | none => rfl
      | some c =>
        rw [hv] at h
        exact ih h (by omega)

end Graph

namespace Lowering

open Builder

section Links

variable {L : Lowered} {s : State}

theorem find?_toList {α : Type} {m : Std.TreeMap Nat α} {P : Nat × α → Bool} {k : Nat} {a : α}
    (hk : m[k]? = some a) (hP : P (k, a) = true)
    (hunique : ∀ k' a', m[k']? = some a' → P (k', a') = true → k' = k) :
    m.toList.find? P = some (k, a) := by
  have hmem : (k, a) ∈ m.toList := Std.TreeMap.mem_toList_iff_getElem?_eq_some.2 hk
  cases hfind : m.toList.find? P with
  | none => exact absurd hP (List.find?_eq_none.1 hfind _ hmem)
  | some e =>
    have he := Std.TreeMap.mem_toList_iff_getElem?_eq_some.1 (List.mem_of_find?_eq_some hfind)
    obtain rfl := hunique _ _ he (List.find?_some hfind)
    rw [Option.some.inj (hk.symm.trans he)]

theorem entry?_eq (h : L.functions = s.functions.toList.map fun e => (⟨e.1⟩, e.2)) (f : FunctionId) :
    L.entry? f = s.functions[f.index]?.map (·.entry) := by
  rw [Lowered.entry?, h, List.find?_map, Option.map_map]
  cases hf : s.functions[f.index]? with
  | none =>
    rw [List.find?_eq_none.2]
    · rfl
    · intro e he heq
      have he := Std.TreeMap.mem_toList_iff_getElem?_eq_some.1 he
      have hk : e.1 = f.index := FunctionId.index_inj.2 (by simpa using heq)
      simp [hk, hf] at he
  | some e =>
    rw [find?_toList hf (by simp) fun k e _ hk => FunctionId.index_inj.2 (by simpa using hk)]
    rfl

theorem links_final (hg : s.graph.Extends L.graph) (hs : s.Registered)
    (hfunctions : L.functions = s.functions.toList.map fun e => (⟨e.1⟩, e.2))
    (hclasses : L.classes = s.classes.toList.map fun e => (⟨e.1⟩, e.2)) : Links L s where
  graph := hg
  entry k e he := by simp [entry?_eq hfunctions, he]
  function k e he := by
    rw [Lowered.function?, hfunctions, List.find?_map, Option.map_map, find?_toList he]
    · rfl
    · simp [entry?_eq hfunctions, he]
    · intro k' e' he' heq
      have heq : e'.entry = e.entry := by simpa [entry?_eq hfunctions, he'] using heq
      exact hs.entry_inj _ _ _ _ he' he heq
  class_ k l hl := by
    rw [Lowered.class?, hclasses, List.find?_map, Option.map_map, find?_toList hl]
    · rfl
    · simp
    · intro k' l' hl' heq
      obtain rfl : l' = l := by simpa using heq
      exact hs.layout_inj _ _ _ hl' hl
  noClass l T hT horigin := by
    rw [Lowered.class?, hclasses, List.find?_map, Option.map_map, List.find?_eq_none.2]
    · rfl
    · intro e he heq
      have he := Std.TreeMap.mem_toList_iff_getElem?_eq_some.1 he
      obtain rfl : e.2 = l := by simpa using heq
      obtain ⟨T', name, hT', horigin'⟩ := hs.layout _ _ he
      obtain rfl := Option.some.inj (hT.symm.trans hT')
      exact horigin name horigin'

end Links

section Programs

variable {I : Interpretation} {L : Lowered} {p q : Program} {s : State}

theorem callsSimulate_invoke (hknown : ∀ d ∈ q.body.live, ∃ e, L.entry? d.id = some e)
    (hunknown : ∀ f, q.function? f = none → L.entry? f = none)
    (henacts : ∀ (n : Nat) (call : FunctionDecl → List I.Value → I.Eval (Option I.Value)),
      CallsSimulate L q n call → ∀ d ∈ q.body.live, Enacts L n q call d) (n : Nat) :
    CallsSimulate (I := I) L q n (invoke q n) := by
  have hlive {f : FunctionId} {d : FunctionDecl} (hf : q.function? f = some d) :
      d ∈ q.body.live ∧ d.id = f :=
    ⟨List.mem_of_find?_eq_some hf, by simpa using List.find?_some hf⟩
  -- a call uses up fuel, and the calls inside of it have the rest
  induction n with
  | zero =>
    intro f
    cases hf : q.function? f with
    | none => exact hunknown f hf
    | some d =>
      obtain ⟨hd, rfl⟩ := hlive hf
      obtain ⟨e, he⟩ := hknown d hd
      refine ⟨e, he, fun args vs σ cs a x c _ _ => ?_⟩
      exact ⟨0, e, _, cs, Nat.le_refl 0, .refl _⟩
  | succ n ih =>
    intro f
    cases hf : q.function? f with
    | none => exact hunknown f hf
    | some d =>
      obtain ⟨hd, rfl⟩ := hlive hf
      exact henacts n (invoke q n) ih d hd

theorem halts_of_yields {t : Builder} {b : BlockId} {u : Unit} (h : Runs (finish b) s.toBuilder u t)
    (hL : L.graph = t.graph) {w : View I} {before : Contexts I} {σ : I.State}
    {y : (I.machine L).Point} (hy : s.graph.Yields b w before σ none y) :
    ∃ cs, L.graph.after 0 y = .halted ⟨σ, cs⟩ := by
  obtain ⟨regs, cs, rfl, ⟨B, hB, hw⟩, -, -⟩ := hy
  obtain ⟨B', hB', hopen, rfl⟩ := runs_finish.1 h
  obtain rfl := Option.some.inj (hB.symm.trans hB')
  have hB' : L.graph.block? b = some { B with isFinal := true } := hL ▸ updateBlock_self hB _
  have hterm : B.terminator = none := by
    cases ht : B.terminator with
    | none => rfl
    | some t => simp [Block.isTerminated, ht] at hopen
  refine ⟨cs, ?_⟩
  rw [Graph.after_inside hB', Graph.complete_of_end (B := { B with isFinal := true }) hw.length]
  simp [hterm, Graph.follow]

theorem receives_initial : initial.graph.Receives (I := I) ⟨0⟩ [] ⟨fun _ => none, [], none⟩ := by
  refine ⟨{ id := ⟨0⟩, parameters := [] }, by rw [initial_block?, if_pos rfl], rfl, rfl, ?_, .nil, .nil⟩
  intro e he
  exact nomatch he

theorem simulates_evaluate (hp : p.Analysed) (h : p.lower.result = .ok L) (n : Nat) (σ : I.State) :
    Simulates L (n + 1) (.entry L.entry [] ⟨σ, []⟩) (p.evaluate I n σ) fun _ _ σ' y =>
      ∃ cs, L.graph.after 0 y = .halted ⟨σ', cs⟩ := by
  obtain ⟨o, s, t, hbody, hend, hgraph, hentry, hfunctions, hclasses⟩ := Program.exists_tables h
  have hext : s.graph.Extends L.graph :=
    hgraph ▸ Program.extends_end (o := o) (by cases o <;> exact hend)
  have hshift := shifts_lowerScope p.body hp.functions hbody
  have hL : Links L s := links_final hext (hshift.registered initial_registered) hfunctions hclasses
  have hsite : Site p.body.scopes initial ⟨0⟩ :=
    ⟨fresh_initial hp, initial_tidy, [], by simpa [initial, waiting] using initial_opens⟩
  have hperforms (n : Nat) (call : FunctionDecl → List I.Value → I.Eval (Option I.Value))
      (hcalls : CallsSimulate L p n call) :=
    performs_lowerScope hcalls p.body hp.valued hsite hbody hL
  have hentries (f : FunctionId) : (L.entry? f).isSome = true ↔ ∃ d ∈ p.body.live, d.id = f := by
    rw [entry?_eq hfunctions, Option.isSome_map, ← Std.TreeMap.mem_iff_isSome_getElem?,
      (follows_lowerScope p.body hbody).functions]
    simp [initial, FunctionId.index_inj]
  have hcalls : CallsSimulate (I := I) L p n (invoke p n) := by
    refine callsSimulate_invoke (fun d hd => ?_) (fun f hf => ?_)
      (fun n call hcalls => (hperforms n call hcalls).2) n
    · exact Option.isSome_iff_exists.1 ((hentries d.id).2 ⟨d, hd, rfl⟩)
    · rw [Option.eq_none_iff_forall_ne_some]
      intro e he
      obtain ⟨d, hd, hid⟩ := (hentries f).1 (by simp [he])
      exact List.find?_eq_none.1 hf d hd (by simpa using hid)
  have hloops : s.loops = [] := List.forall₂_nil_left_iff.1 hshift.loops
  rw [Program.evaluate, hentry]
  refine Simulates.bind ((hperforms n _ hcalls).1.entry (hshift.graph_extends.trans hext)
    (by simp [HasCaller]) receives_initial List.prefix_rfl) ?_
  rintro exit vs σ' y ⟨vs', ⟨-, hexit⟩, -⟩
  cases exit with
  | normal =>
    obtain ⟨b, rfl, hy⟩ := hexit
    exact .done (halts_of_yields hend hgraph hy)
  | jump j =>
    rw [hloops] at hexit
    exact hexit.elim
  | ret v =>
    obtain ⟨a, _, _, _, ha, -⟩ := hexit
    simp at ha

end Programs

end Lowering

open Lowering

/-- What comes of the program after `n` blocks. No caller waits at the start. -/
def Lowered.run (L : Lowered) (I : Interpretation) (n : Nat) (σ : I.State) : (I.machine L).Progress :=
  L.graph.run n L.entry [] ⟨σ, []⟩

theorem Program.run_of_evaluate {p : Program} {L : Lowered} (hp : p.Analysed)
    (h : p.lower.result = .ok L) (I : Interpretation) (n : Nat) (σ : I.State) :
    match p.evaluate I n σ with
    | .done _ _ σ' => ∃ k cs, L.run I k σ = .halted ⟨σ', cs⟩
    | .failed σ' => ∃ k cs, L.run I k σ = .trapped ⟨σ', cs⟩
    | .unfinished σ' => ∃ k b args cs, n ≤ k ∧ L.run I k σ = .running b args ⟨σ', cs⟩ := by
  have hsimulates := simulates_evaluate (I := I) hp h n σ
  cases heval : p.evaluate I n σ with
  | done a vs σ' =>
    rw [heval] at hsimulates
    obtain ⟨k, y, hgoes, cs, hy⟩ := hsimulates
    exact ⟨0 + k + 1, cs, (hgoes.after 0).trans hy⟩
  | failed σ' =>
    rw [heval] at hsimulates
    obtain ⟨k, y, cs, hgoes, htraps⟩ := hsimulates
    exact ⟨0 + k + 1, cs, (hgoes.after 0).trans (htraps.after 0)⟩
  | unfinished σ' =>
    rw [heval] at hsimulates
    obtain ⟨k, b, args, cs, hk, hgoes⟩ := hsimulates
    exact ⟨k, b, args, cs, by omega, hgoes.running⟩

theorem Program.evaluate_of_run {p : Program} {L : Lowered} (hp : p.Analysed)
    (h : p.lower.result = .ok L) (I : Interpretation) (n : Nat) (σ : I.State)
    (hend : ∀ b args m, L.run I n σ ≠ .running b args m) :
    (∃ vs σ' cs, p.evaluate I n σ = .done () vs σ' ∧ L.run I n σ = .halted ⟨σ', cs⟩) ∨
      ∃ σ' cs, p.evaluate I n σ = .failed σ' ∧ L.run I n σ = .trapped ⟨σ', cs⟩ := by
  -- two counts at which the run has ended leave the same
  have hsame {k : Nat} (hk : ∀ b args m, L.run I k σ ≠ .running b args m) :
      L.run I n σ = L.run I k σ := by
    rcases Nat.le_total n k with hle | hle
    · exact (Graph.run_of_le hend hle).symm
    · exact Graph.run_of_le hk hle
  have hrun := run_of_evaluate hp h I n σ
  cases heval : p.evaluate I n σ with
  | done _ vs σ' =>
    rw [heval] at hrun
    obtain ⟨k, cs, hk⟩ := hrun
    exact .inl ⟨vs, σ', cs, rfl, (hsame (by simp [hk])).trans hk⟩
  | failed σ' =>
    rw [heval] at hrun
    obtain ⟨k, cs, hk⟩ := hrun
    exact .inr ⟨σ', cs, rfl, (hsame (by simp [hk])).trans hk⟩
  | unfinished σ' =>
    rw [heval] at hrun
    obtain ⟨k, b, args, cs, hle, hk⟩ := hrun
    exact absurd ((Graph.run_of_le hend hle).symm.trans hk) (hend b args _)

/-- **Lowering keeps the meaning of a program.** A program that passes the checks has a graph, and over
any meaning of literals, operators and native routines the graph does what the program does, from any
state. It halts exactly if the program comes to its end, and in the same state; it fails exactly if the
program fails, in the same state; and it runs forever exactly if no fuel is enough for the program.
It then passes through every state where the program runs out of fuel. -/
theorem Program.lower_preserves_meaning {p : Program} (hp : p.Analysed) :
    ∃ L, p.lower.result = .ok L ∧ ∀ (I : Interpretation) (σ : I.State),
      (∀ σ', (∃ n vs, p.evaluate I n σ = .done () vs σ') ↔
        ∃ n cs, L.run I n σ = .halted ⟨σ', cs⟩) ∧
      (∀ σ', (∃ n, p.evaluate I n σ = .failed σ') ↔ ∃ n cs, L.run I n σ = .trapped ⟨σ', cs⟩) ∧
      ((∀ n, ∃ σ', p.evaluate I n σ = .unfinished σ') ↔
        ∀ n, ∃ b args m, L.run I n σ = .running b args m) ∧
      ∀ n σ', p.evaluate I n σ = .unfinished σ' →
        ∃ k b args cs, n ≤ k ∧ L.run I k σ = .running b args ⟨σ', cs⟩ := by
  obtain ⟨entry, s, hrun, -⟩ := exists_runs_lowerProgram hp
  obtain ⟨L, h⟩ : ∃ L, p.lower.result = .ok L := ⟨_, lower_eq_ok.2 ⟨entry, s, hrun, rfl⟩⟩
  refine ⟨L, h, fun I σ => ?_⟩
  have hevaluates := fun n => run_of_evaluate hp h I n σ
  refine ⟨fun σ' => ⟨?_, ?_⟩, fun σ' => ⟨?_, ?_⟩, ⟨?_, ?_⟩, ?_⟩
  · rintro ⟨n, vs, heval⟩
    simpa [heval] using hevaluates n
  · rintro ⟨n, cs, hn⟩
    rcases evaluate_of_run hp h I n σ (by simp [hn]) with ⟨vs, _, _, heval, hn'⟩ | ⟨_, _, -, hn'⟩
    · obtain ⟨⟨⟩⟩ := hn.symm.trans hn'
      exact ⟨n, vs, heval⟩
    · simp [hn] at hn'
  · rintro ⟨n, heval⟩
    simpa [heval] using hevaluates n
  · rintro ⟨n, cs, hn⟩
    rcases evaluate_of_run hp h I n σ (by simp [hn]) with ⟨_, _, _, -, hn'⟩ | ⟨_, _, heval, hn'⟩
    · simp [hn] at hn'
    · obtain ⟨⟨⟩⟩ := hn.symm.trans hn'
      exact ⟨n, heval⟩
  · intro hforever n
    obtain ⟨σ', hn⟩ := hforever n
    by_contra hend
    rcases evaluate_of_run hp h I n σ (by simpa using hend) with
      ⟨_, _, _, heval, -⟩ | ⟨_, _, heval, -⟩ <;> simp [hn] at heval
  · intro hforever n
    have hn := hevaluates n
    cases heval : p.evaluate I n σ with
    | unfinished σ' => exact ⟨σ', rfl⟩
    | done _ _ _ =>
      rw [heval] at hn
      obtain ⟨k, cs, hk⟩ := hn
      obtain ⟨b, args, m, hk'⟩ := hforever k
      simp [hk] at hk'
    | failed _ =>
      rw [heval] at hn
      obtain ⟨k, cs, hk⟩ := hn
      obtain ⟨b, args, m, hk'⟩ := hforever k
      simp [hk] at hk'
  · intro n σ' heval
    simpa [heval] using hevaluates n

def Interpretation.printing : Interpretation where
  Value := Literal ⊕ FunctionId
  State := List Literal
  literal := .inl
  function := .inr
  void := .inl .null
  unary _ _ _ _ := none
  binary
    | .compare .eq, _, .inl v, .inl w, σ => some (.inl (.bool (v = w)), σ)
    | .numeric .sub, _, .inl (.u8 v), .inl (.u8 w), σ => some (.inl (.u8 (v - w)), σ)
    | _, _, _, _, _ => none
  cast _ _ _ _ := none
  getField _ _ _ _ := none
  setField _ _ _ _ := none
  setElement _ _ _ _ := none
  new _ _ := none
  newArray _ _ _ := none
  native
    | _, _, [.inl v], σ => some (.inl .null, σ ++ [v])
    | _, _, _, _ => none
  truth
    | .inl (.bool side) => some side
    | _ => none
  callee
    | .inr f => some f
    | _ => none
  truth_literal _ := rfl
  callee_function _ := rfl

theorem Program.lower_preserves_meaning_of_parity :
    Sample.parity.program.Analysed ∧ ∃ L, Sample.parity.program.lower.result = .ok L ∧
      ∃ n cs, L.run .printing n [] = .halted ⟨[.bool false], cs⟩ := by
  have hp : Sample.parity.program.Analysed := by decide +kernel
  obtain ⟨L, hL, hmeaning⟩ := lower_preserves_meaning hp
  obtain ⟨hhalts, -⟩ := hmeaning .printing []
  exact ⟨hp, L, hL, (hhalts [.bool false]).1 ⟨9, _, rfl⟩⟩

end BlockGraph
