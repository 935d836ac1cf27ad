import BlockGraph.Proofs.Linearity.Actions
import BlockGraph.Proofs.Totality.Live

/-!
The shape of a block: whether it can return, which variables have a value in it, and how many
operands wait. Jumps and operations ask for a shape, never for more.
-/

namespace BlockGraph

/-- The fault is one of the construction and not one of the program that the graph is made from. -/
def Fault.isInternal : Fault → Bool
  | .shapeMismatch .. | .missingReturnSlot .. | .noSuchRegister .. | .noSuchBlock .. => true
  | .noSuchLayout .. | .linearArity .. | .emptyStack .. | .terminated .. => true
  | _ => false

structure Shape where
  slot : Option ValueType
  held : List String
  depth : Nat

namespace Shape

variable {σ τ υ : Shape}

def deeper (σ : Shape) (n : Nat) : Shape := { σ with depth := σ.depth + n }

@[simp] theorem deeper_zero (σ : Shape) : σ.deeper 0 = σ := rfl

@[simp] theorem deeper_deeper (σ : Shape) (m n : Nat) : (σ.deeper m).deeper n = σ.deeper (m + n) := by
  simp [deeper, Nat.add_assoc]

structure Le (σ τ : Shape) : Prop where
  slot : τ.slot = σ.slot
  held : ∀ n ∈ σ.held, n ∈ τ.held
  depth : τ.depth = σ.depth

theorem Le.refl (σ : Shape) : σ.Le σ := ⟨rfl, fun _ h => h, rfl⟩

theorem Le.trans (h : σ.Le τ) (k : τ.Le υ) : σ.Le υ :=
  ⟨k.slot.trans h.slot, fun n hn => k.held n (h.held n hn), k.depth.trans h.depth⟩

end Shape

theorem Locals.holds_iff {l : Locals} {n : String} :
    l.holds n = true ↔ ∃ e ∈ l.symbols.entries, e.1 = n ∧ e.2.register.isSome = true := by
  rw [holds, SymbolTable.register?, Option.isSome_iff_exists]
  constructor
  · rintro ⟨r, hr⟩
    obtain ⟨x, hx, hxr⟩ := Option.bind_eq_some_iff.1 hr
    exact ⟨(n, x), OrderedMap.mem_of_get? hx, rfl, by simp [hxr]⟩
  · rintro ⟨⟨m, x⟩, hmem, rfl, hx⟩
    obtain ⟨r, hr⟩ := Option.isSome_iff_exists.1 hx
    exact ⟨r, by simpa [OrderedMap.get?_of_mem hmem] using hr⟩

namespace Signature

structure Fits (sig : Signature) (l : Locals) : Prop where
  slot : sig.acceptsReturn = true → l.returnSlot.isSome = true
  carried : ∀ n ∈ sig.carried, l.holds n = true
  depth : l.stack.length = sig.stackDepth

structure Accepts (sig : Signature) (σ : Shape) : Prop where
  slot : sig.acceptsReturn = true → σ.slot.isSome = true
  carried : ∀ n ∈ sig.carried, n ∈ σ.held
  depth : sig.stackDepth = σ.depth

variable {sig : Signature}

theorem Accepts.mono {σ τ : Shape} (h : sig.Accepts σ) (hle : σ.Le τ) : sig.Accepts τ :=
  ⟨fun hs => by rw [hle.slot]; exact h.slot hs, fun n hn => hle.held n (h.carried n hn),
    h.depth.trans hle.depth.symm⟩

theorem Fits.arguments {l : Locals} (h : sig.Fits l) (b c : BlockId) :
    ∃ args, sig.arguments l b c = .ok args ∧ ∀ r ∈ args, r ∈ l.liveRegisters := by
  have hslot : ∃ slot, (if sig.acceptsReturn then ∃ r, l.returnSlot = some r ∧ slot = [r]
      else slot = []) ∧ ∀ r ∈ slot, l.returnSlot = some r := by
    cases hs : sig.acceptsReturn with
    | false => exact ⟨[], by simp⟩
    | true =>
      obtain ⟨r, hr⟩ := Option.isSome_iff_exists.1 (h.slot hs)
      exact ⟨[r], by simp [hr]⟩
  obtain ⟨slot, hslot, hlive⟩ := hslot
  obtain ⟨carried, hcarried⟩ := exists_forall₂ (R := fun n r => l.symbols.register? n = some r)
    fun n hn => Option.isSome_iff_exists.1 (h.carried n hn)
  refine ⟨_, arguments_eq_ok.2 ⟨slot, carried, rfl, hslot, hcarried, h.depth⟩, fun r hr => ?_⟩
  rw [Locals.mem_liveRegisters]
  rcases List.mem_append.1 hr with hr | hr
  · rcases List.mem_append.1 hr with hr | hr
    · exact .inl (hlive r hr)
    · obtain ⟨n, -, hn⟩ := forall₂_mem_right hcarried hr
      obtain ⟨x, hx, hxr⟩ := Option.bind_eq_some_iff.1 hn
      exact .inr (.inl ⟨(n, x), OrderedMap.mem_of_get? hx, hxr⟩)
  · exact .inr (.inr hr)

end Signature

namespace Block

variable {B B' : Block} {σ τ : Shape}

structure Has (B : Block) (σ : Shape) : Prop where
  slot : B.HasTypes B.locals.returnSlot.toList σ.slot.toList
  held : ∀ n ∈ σ.held, B.locals.holds n = true
  depth : B.locals.stack.length = σ.depth

theorem Has.mono (h : B.Has σ) (htypes : ∀ r t, B.typeOf? r = some t → B'.typeOf? r = some t)
    (hlocals : B'.locals = B.locals) : B'.Has σ := by
  refine ⟨?_, ?_, ?_⟩
  · rw [hlocals]
    exact h.slot.mono htypes
  · rw [hlocals]
    exact h.held
  · rw [hlocals]
    exact h.depth

theorem Has.push (h : B.Has σ) (i : Instruction) : (B.push i).Has σ :=
  h.mono (fun _ _ => typeOf?_push) rfl

theorem Has.le (h : B.Has τ) (hle : σ.Le τ) : B.Has σ :=
  ⟨hle.slot ▸ h.slot, fun n hn => h.held n (hle.held n hn), h.depth.trans hle.depth⟩

def shape (B : Block) : Shape where
  slot := B.locals.returnSlot.bind B.typeOf?
  held := B.locals.symbols.keys.filter B.locals.holds
  depth := B.locals.stack.length

theorem Has.slot_eq (h : B.Has σ) : B.locals.returnSlot.bind B.typeOf? = σ.slot := by
  have hslot := h.slot
  cases hr : B.locals.returnSlot with
  | none =>
    rw [hr] at hslot
    cases ht : σ.slot with
    | none => rfl
    | some t => simp [ht, HasTypes] at hslot
  | some r =>
    rw [hr] at hslot
    cases ht : σ.slot with
    | none => simp [ht, HasTypes] at hslot
    | some t => simpa [ht, HasTypes] using hslot

theorem Has.le_shape (h : B.Has σ) : σ.Le B.shape := by
  refine ⟨h.slot_eq, fun n hn => List.mem_filter.2 ⟨?_, h.held n hn⟩, h.depth⟩
  obtain ⟨e, he, rfl, -⟩ := Locals.holds_iff.1 (h.held n hn)
  exact List.mem_map_of_mem he

theorem Has.self (h : B.Has σ) : B.Has B.shape :=
  ⟨by rw [shape, h.slot_eq]; exact h.slot, fun _ hn => (List.mem_filter.1 hn).2, rfl⟩

theorem Has.fits {sig : Signature} (h : B.Has σ) (hsig : sig.Accepts σ) : sig.Fits B.locals := by
  refine ⟨fun hs => ?_, fun n hn => h.held n (hsig.carried n hn), h.depth.trans hsig.depth.symm⟩
  obtain ⟨t, ht⟩ := Option.isSome_iff_exists.1 (hsig.slot hs)
  obtain ⟨r, hr, -⟩ := Option.bind_eq_some_iff.1 (h.slot_eq.trans ht)
  simp [hr]

theorem Has.accepts {sig : Signature} (h : B.Has σ) (hsig : sig.Fits B.locals) :
    sig.Accepts B.shape := by
  refine ⟨fun hs => ?_, fun n hn => ?_, hsig.depth.symm⟩
  · obtain ⟨r, hr⟩ := Option.isSome_iff_exists.1 (hsig.slot hs)
    obtain ⟨t, -, ht⟩ := forall₂_mem_left h.slot (Option.mem_toList.2 hr)
    simp [shape, hr, ht]
  · have hholds := hsig.carried n hn
    obtain ⟨e, he, rfl, -⟩ := Locals.holds_iff.1 hholds
    exact List.mem_filter.2 ⟨List.mem_map_of_mem he, hholds⟩

end Block

namespace Graph

variable {g g' : Graph} {b c : BlockId} {σ τ : Shape} {r : Register}

def Shaped (g : Graph) (b : BlockId) (σ : Shape) : Prop := ∃ B, g.block? b = some B ∧ B.Has σ

def Open (g : Graph) (b : BlockId) (σ : Shape) : Prop :=
  ∃ B, g.block? b = some B ∧ B.isTerminated = false ∧ B.Has σ

def Accepts (g : Graph) (c : BlockId) (σ : Shape) : Prop :=
  ∃ C, g.block? c = some C ∧ C.signature.Accepts σ

def Valued (g : Graph) (b : BlockId) : Prop := ∃ r, g.Typed b r

theorem Open.shaped (h : g.Open b σ) : g.Shaped b σ := by
  obtain ⟨B, hB, -, hhas⟩ := h
  exact ⟨B, hB, hhas⟩

theorem Open.isOpen (h : g.Open b σ) : g.IsOpen b := by
  obtain ⟨B, hB, hopen, -⟩ := h
  exact ⟨B, hB, hopen⟩

theorem Open.le (h : g.Open b τ) (hle : σ.Le τ) : g.Open b σ := by
  obtain ⟨B, hB, hopen, hhas⟩ := h
  exact ⟨B, hB, hopen, hhas.le hle⟩

theorem Shaped.kept (h : g.Shaped b σ) (hb : ∀ B, g.block? b = some B → g'.block? b = some B) :
    g'.Shaped b σ := by
  obtain ⟨B, hB, hhas⟩ := h
  exact ⟨B, hb B hB, hhas⟩

theorem Open.kept (h : g.Open b σ) (hb : ∀ B, g.block? b = some B → g'.block? b = some B) :
    g'.Open b σ := by
  obtain ⟨B, hB, hhas⟩ := h
  exact ⟨B, hb B hB, hhas⟩

theorem Accepts.mono (h : g.Accepts c σ) (hg : g.Preserves g') : g'.Accepts c σ := by
  obtain ⟨C, hC, hacc⟩ := h
  obtain ⟨C', hC', hext, -⟩ := hg.blocks c C hC
  exact ⟨C', hC', hext.signature ▸ hacc⟩

theorem Accepts.le (h : g.Accepts c σ) (hle : σ.Le τ) : g.Accepts c τ := by
  obtain ⟨C, hC, hacc⟩ := h
  exact ⟨C, hC, hacc.mono hle⟩

theorem Open.exact (h : g.Open b σ) :
    ∃ B, g.block? b = some B ∧ g.Open b B.shape ∧ σ.Le B.shape := by
  obtain ⟨B, hB, hopen, hhas⟩ := h
  exact ⟨B, hB, ⟨B, hB, hopen, hhas.self⟩, hhas.le_shape⟩

theorem Typed.contains {B : Block} (h : g.Typed b r) (hB : g.block? b = some B) :
    B.contains r = true := by
  obtain ⟨B', t, hB', ht, -⟩ := h
  obtain rfl := Option.some.inj (hB.symm.trans hB')
  exact Block.contains_of_typeOf? ht

end Graph

end BlockGraph
