import BlockGraph.Proofs.Course.Proceeding
import BlockGraph.Proofs.Verification.Reachability

namespace BlockGraph

theorem Program.tellsApart_of_lower {p : Program} {e : Fault} (h : p.lower.result = .error e) :
    e.TellsApart := by
  cases hrun : ((Lowering.lowerProgram p).run {}).result with
  | error e' =>
    obtain rfl : e' = e := by simpa [Program.lower, bind, hrun] using h
    exact (Lowering.within_program p).discerns.fault {} e' hrun
  | ok a => simp [Program.lower, bind, hrun, pure] at h

theorem Request.discerns_run (q : Request) : Discerns q.run := by
  cases q with
  | act a => cases a <;> simp [Request.run, Action.run]
  | _ => simp [Request.run]

theorem Graph.ne_of_argumentMismatch {g : Graph} {entries : List BlockId} {b : BlockId}
    {r : Register} {expected found : String}
    (h : .argumentMismatch b r expected found ∈ g.violations entries) : expected ≠ found := by
  rcases List.mem_append.1 h with h | h
  · obtain ⟨B, -, h⟩ := List.mem_flatMap.1 h
    obtain ⟨ts, us, hne, -, rfl, rfl⟩ : ∃ ts us, ts ≠ us ∧ b = B.id ∧
        expected = ValueType.listText ts ∧ found = ValueType.listText us := by
      simpa using Block.violations_cases h
    exact fun htext => hne (ValueType.listText_inj htext)
  · simp at h

/-- **The texts of types can be read in one way only.** Types with the same text are the same, and so
are lists of types with the same text, in a graph as well as in a program. Hence a fault or a violation
about an edge, which comes up only if two lists of types differ, always shows two different texts: the
faults of a single check, of any request to a graph under construction in any state, and of lowering
any program; and the violations that are found in any graph. -/
theorem typeTexts_tellApart :
    (∀ s t : ValueType, s.text = t.text → s = t) ∧
    (∀ ss ts : List ValueType, ValueType.listText ss = ValueType.listText ts → ss = ts) ∧
    (∀ s t : SourceType, s.text = t.text → s = t) ∧
    (∀ ss ts : List SourceType,
      Text.commaSep (SourceType.texts ss) = Text.commaSep (SourceType.texts ts) → ss = ts) ∧
    (∀ (B : Block) (e : Edge) (b : BlockId) (expected found : String),
      B.checkEdge e = .error (.edgeMismatch b expected found) → expected ≠ found) ∧
    (∀ (q : Request) (s : Builder) (b : BlockId) (expected found : String),
      (q.run.run s).result = .error (.edgeMismatch b expected found) → expected ≠ found) ∧
    (∀ (p : Program) (b : BlockId) (expected found : String),
      p.lower.result = .error (.edgeMismatch b expected found) → expected ≠ found) ∧
    ∀ (g : Graph) (entries : List BlockId) (b : BlockId) (r : Register) (expected found : String),
      .argumentMismatch b r expected found ∈ g.violations entries → expected ≠ found :=
  ⟨fun _ _ => ValueType.text_inj, fun _ _ => ValueType.listText_inj,
    fun _ _ => SourceType.text_inj, fun _ _ => SourceType.commaSep_texts_inj,
    fun _ _ _ _ _ h => sincere_checkEdge.fault _ h,
    fun q s _ _ _ h => q.discerns_run.fault s _ h,
    fun _ _ _ _ h => Program.tellsApart_of_lower h,
    fun _ _ _ _ _ _ h => Graph.ne_of_argumentMismatch h⟩

def misapplied : Program := ⟨{
  functions := [Sample.square]
  statements := [Sample.print (Expr.mkCall Sample.square.reference [Expr.ofBool true])] }⟩

theorem typeTexts_tellApart_of_misapplied :
    misapplied.lower.result = .error (.edgeMismatch ⟨0⟩ "S1, u8" "S1, bool") ∧
      "S1, u8" ≠ "S1, bool" := by
  have hdecide : (match misapplied.lower.result with
      | .error e => decide (e = .edgeMismatch ⟨0⟩ "S1, u8" "S1, bool")
      | .ok _ => false) = true := by decide +kernel
  have hfault : misapplied.lower.result = .error (.edgeMismatch ⟨0⟩ "S1, u8" "S1, bool") := by
    split at hdecide
    · next e he => rw [he, of_decide_eq_true hdecide]
    · simp at hdecide
  exact ⟨hfault, typeTexts_tellApart.2.2.2.2.2.2.1 misapplied ⟨0⟩ _ _ hfault⟩

end BlockGraph
