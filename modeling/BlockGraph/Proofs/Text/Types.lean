import BlockGraph.Graph.Type
import Mathlib.Data.List.Basic

/-!
The texts of types can be read in one way only. A text is read from the front: first the letters and
digits it begins with, then what follows them. Types of a program are written with what is applied to
them behind them, so their texts are read from the back.
-/

namespace BlockGraph

namespace Text

section Words

variable {P : Char → Bool} {u v w x : List Char}

def Leaves (P : Char → Bool) (u : List Char) : Prop := ∀ c ∈ u.head?, P c = false

@[simp] theorem leaves_nil : Leaves P [] := by simp [Leaves]

@[simp] theorem leaves_cons {c : Char} : Leaves P (c :: u) ↔ P c = false := by simp [Leaves]

theorem takeWhile_word (hw : ∀ c ∈ w, P c = true) (hu : Leaves P u) :
    (w ++ u).takeWhile P = w := by
  rw [List.takeWhile_append_of_pos hw]
  cases u with
  | nil => simp
  | cons c u => simp [leaves_cons.1 hu]

theorem word_unique (hw : ∀ c ∈ w, P c = true) (hx : ∀ c ∈ x, P c = true) (hu : Leaves P u)
    (hv : Leaves P v) (h : w ++ u = x ++ v) : w = x ∧ u = v := by
  have hwords : w = x := by
    rw [← takeWhile_word hw hu, h, takeWhile_word hx hv]
  exact ⟨hwords, List.append_cancel_left (hwords ▸ h)⟩

theorem isAlphanum_of_mem_toDigits {n : Nat} {c : Char} (h : c ∈ Nat.toDigits 10 n) :
    c.isAlphanum = true := by
  simp [Char.isAlphanum, Nat.isDigit_of_mem_toDigits (by decide) (by decide) h]

theorem toDigits_inj {m n : Nat} (h : Nat.toDigits 10 m = Nat.toDigits 10 n) : m = n := by
  have hread := congrArg (fun ds => Nat.ofDigitChars 10 ds 0) h
  simpa using hread

end Words

section Joined

variable {α : Type} {code : α → List Char} {Stops Ends : List Char → Prop} {sep u v : List Char}

def joined (sep : List Char) (code : α → List Char) : List α → List Char
  | [] => []
  | [a] => code a
  | a :: b :: rest => code a ++ sep ++ joined sep code (b :: rest)

theorem joined_cons (a : α) (as : List α) :
    joined sep code (a :: as) = code a ++ as.flatMap fun b => sep ++ code b := by
  induction as generalizing a with
  | nil => simp [joined]
  | cons b as ih => rw [joined, ih b, List.flatMap_cons, List.append_assoc, List.append_assoc]

theorem joined_concat (as : List α) (b a : α) :
    joined sep code ((b :: as) ++ [a]) = joined sep code (b :: as) ++ sep ++ code a := by
  rw [List.cons_append, joined_cons, joined_cons]
  simp

theorem reverse_joined (as : List α) :
    (joined sep code as).reverse = joined sep.reverse (fun a => (code a).reverse) as.reverse := by
  induction as with
  | nil => rfl
  | cons a as ih =>
    cases as with
    | nil => rfl
    | cons b rest =>
      obtain ⟨c, cs, hcs⟩ : ∃ c cs, (b :: rest).reverse = c :: cs :=
        List.exists_cons_of_ne_nil (by simp)
      rw [joined, List.reverse_append, List.reverse_append, ih, List.reverse_cons (a := a), hcs,
        joined_concat, List.append_assoc]

def Unique (code : α → List Char) (Stops : List Char → Prop) (a : α) : Prop :=
  ∀ b u v, Stops u → Stops v → code a ++ u = code b ++ v → a = b ∧ u = v

structure Separates (sep : List Char) (code : α → List Char) (Stops Ends : List Char → Prop) :
    Prop where
  stops_sep : ∀ u, Stops (sep ++ u)
  stops_end : ∀ u, Ends u → Stops u
  sep_not_end : ∀ u, ¬Ends (sep ++ u)
  code_not_end : ∀ a u, ¬Ends (code a ++ u)

namespace Separates

variable (hsep : Separates sep code Stops Ends)

include hsep

theorem stops_rest (as : List α) (hu : Ends u) :
    Stops ((as.flatMap fun b => sep ++ code b) ++ u) := by
  cases as with
  | nil => exact hsep.stops_end u hu
  | cons a as =>
    rw [List.flatMap_cons, List.append_assoc, List.append_assoc]
    exact hsep.stops_sep _

theorem rest_unique {as bs : List α} (has : ∀ a ∈ as, Unique code Stops a) (hu : Ends u)
    (hv : Ends v) (h : (as.flatMap fun b => sep ++ code b) ++ u =
      (bs.flatMap fun b => sep ++ code b) ++ v) : as = bs ∧ u = v := by
  induction as generalizing bs with
  | nil =>
    cases bs with
    | nil => exact ⟨rfl, h⟩
    | cons b bs =>
      rw [List.flatMap_nil, List.nil_append, List.flatMap_cons, List.append_assoc,
        List.append_assoc] at h
      exact absurd (h ▸ hu) (hsep.sep_not_end _)
  | cons a as ih =>
    cases bs with
    | nil =>
      rw [List.flatMap_nil, List.nil_append, List.flatMap_cons, List.append_assoc,
        List.append_assoc] at h
      exact absurd (h ▸ hv) (hsep.sep_not_end _)
    | cons b bs =>
      simp only [List.flatMap_cons, List.append_assoc, List.append_cancel_left_eq] at h
      obtain ⟨rfl, hrest⟩ := has a List.mem_cons_self b _ _ (hsep.stops_rest as hu)
        (hsep.stops_rest bs hv) (by simpa using h)
      obtain ⟨rfl, rfl⟩ := ih (fun c hc => has c (List.mem_cons_of_mem a hc)) hrest
      exact ⟨rfl, rfl⟩

theorem joined_unique (as bs : List α) (has : ∀ a ∈ as, Unique code Stops a) (hu : Ends u)
    (hv : Ends v) (h : joined sep code as ++ u = joined sep code bs ++ v) : as = bs ∧ u = v := by
  cases as with
  | nil =>
    cases bs with
    | nil => exact ⟨rfl, h⟩
    | cons b bs =>
      rw [joined, List.nil_append, joined_cons, List.append_assoc] at h
      exact absurd (h ▸ hu) (hsep.code_not_end b _)
  | cons a as =>
    cases bs with
    | nil =>
      rw [joined, List.nil_append, joined_cons, List.append_assoc] at h
      exact absurd (h ▸ hv) (hsep.code_not_end a _)
    | cons b bs =>
      rw [joined_cons, joined_cons, List.append_assoc, List.append_assoc] at h
      -- what follows the first word is a separator or the end of the list
      obtain ⟨rfl, hrest⟩ := has a List.mem_cons_self b _ _ (hsep.stops_rest as hu)
        (hsep.stops_rest bs hv) h
      obtain ⟨rfl, rfl⟩ :=
        hsep.rest_unique (fun c hc => has c (List.mem_cons_of_mem a hc)) hu hv hrest
      exact ⟨rfl, rfl⟩

end Separates

structure Spelled (P : Char → Bool) (code word after : α → List Char) : Prop where
  code_eq : ∀ a, code a = word a ++ after a
  mem_word : ∀ a, ∀ c ∈ word a, P c = true
  leaves_after : ∀ a u, Leaves P u → Leaves P (after a ++ u)

def Closed (d : Char) (u : List Char) : Prop := ∀ c ∈ u.head?, c = d

@[simp] theorem closed_nil {d : Char} : Closed d [] := by simp [Closed]

@[simp] theorem closed_cons {c d : Char} : Closed d (c :: u) ↔ c = d := by simp [Closed]

namespace Spelled

variable {P : Char → Bool} {word after : α → List Char} (h : Spelled P code word after)

include h

theorem word_eq {a b : α} (hu : Leaves P u) (hv : Leaves P v) (heq : code a ++ u = code b ++ v) :
    word b = word a ∧ after a ++ u = after b ++ v := by
  rw [h.code_eq, h.code_eq, List.append_assoc, List.append_assoc] at heq
  obtain ⟨hword, hafter⟩ := word_unique (h.mem_word a) (h.mem_word b) (h.leaves_after a u hu)
    (h.leaves_after b v hv) heq
  exact ⟨hword.symm, hafter⟩

theorem separates {c d : Char} (hc : P c = false) (hd : P d = false) (hne : c ≠ d)
    (hafter : ∀ a, word a = [] → ∃ e w, after a = e :: w ∧ e ≠ d) :
    Separates (c :: sep) code (Leaves P) (Closed d) where
  stops_sep u := by simpa using hc
  stops_end u hu := by
    intro e he
    rwa [hu e he]
  sep_not_end u hu := hne (by simpa using hu)
  code_not_end a u hu := by
    rw [h.code_eq] at hu
    cases hw : word a with
    | nil =>
      obtain ⟨e, w, he, hed⟩ := hafter a hw
      rw [hw, he] at hu
      exact hed (by simpa using hu)
    | cons e w =>
      obtain rfl : e = d := by
        rw [hw] at hu
        simpa using hu
      simp [h.mem_word a e (hw ▸ List.mem_cons_self)] at hd

end Spelled

theorem commaSep_map (text : α → String) (as : List α) :
    (commaSep (as.map text)).toList = joined [',', ' '] (fun a => (text a).toList) as := by
  induction as with
  | nil => rfl
  | cons a as ih =>
    cases as with
    | nil => rfl
    | cons b rest =>
      rw [List.map_cons, List.map_cons, commaSep, joined, ← ih]
      simp

end Joined

end Text

open Text

namespace Primitive

def all : List Primitive :=
  [.void, .bool, .u8, .u16, .u32, .u64, .s8, .s16, .s32, .s64, .f32, .f64, .str]

theorem mem_all (p : Primitive) : p ∈ all := by cases p <;> decide

theorem text_inj {p q : Primitive} (h : p.text.toList = q.text.toList) : p = q := by
  have hall : ∀ p ∈ all, ∀ q ∈ all, p.text.toList = q.text.toList → p = q := by decide +kernel
  exact hall p (mem_all p) q (mem_all q) h

theorem sourceText_inj {p q : Primitive} (h : p.sourceText.toList = q.sourceText.toList) :
    p = q := by
  have hall : ∀ p ∈ all, ∀ q ∈ all, p.sourceText.toList = q.sourceText.toList → p = q := by
    decide +kernel
  exact hall p (mem_all p) q (mem_all q) h

theorem text_word (p : Primitive) : (∀ c ∈ p.text.toList, c.isAlphanum = true) ∧
    p.text.toList ≠ [] ∧ p.text.toList.head? ≠ some 'S' ∧ p.text.toList ≠ "func".toList := by
  have hall : ∀ p ∈ all, p.text.toList.all Char.isAlphanum = true ∧ p.text.toList ≠ [] ∧
      p.text.toList.head? ≠ some 'S' ∧ p.text.toList ≠ "func".toList := by decide +kernel
  simpa only [List.all_eq_true] using hall p (mem_all p)

theorem sourceText_word (p : Primitive) :
    (∀ c ∈ p.sourceText.toList, c.isAlphanum = true) ∧ p.sourceText.toList ≠ [] := by
  have hall : ∀ p ∈ all, p.sourceText.toList.all Char.isAlphanum = true ∧
      p.sourceText.toList ≠ [] := by decide +kernel
  simpa only [List.all_eq_true] using hall p (mem_all p)

end Primitive

namespace ValueType

variable {t s : ValueType}

theorem texts_eq_map (ts : List ValueType) : texts ts = ts.map text := by
  induction ts with
  | nil => rfl
  | cons t ts ih => rw [texts, ih, List.map_cons]

def chars (t : ValueType) : List Char := t.text.toList

theorem listText_toList (ts : List ValueType) :
    (listText ts).toList = joined [',', ' '] chars ts := by
  rw [listText, texts_eq_map, commaSep_map]
  rfl

def word : ValueType → List Char
  | .prim p => p.text.toList
  | .object l => 'S' :: Nat.toDigits 10 l.index
  | .array _ => []
  | .blockRef _ => "func".toList

def afterWord : ValueType → List Char
  | .prim _ => []
  | .object _ => []
  | .array element => '[' :: (element.chars ++ [']'])
  | .blockRef parameters => '(' :: (joined [',', ' '] chars parameters ++ [')'])

theorem chars_eq (t : ValueType) : t.chars = t.word ++ t.afterWord := by
  cases t with
  | prim p => simp [chars, text, word, afterWord]
  | object l => simp [chars, text, word, afterWord, LayoutId.text]
  | array t => simp [chars, text, word, afterWord]
  | blockRef ts =>
    have hlist := listText_toList ts
    rw [listText] at hlist
    simp [chars, text, word, afterWord, ← hlist]

theorem isAlphanum_of_mem_word : ∀ c ∈ t.word, c.isAlphanum = true := by
  cases t with
  | prim p => exact p.text_word.1
  | object l =>
    intro c hc
    rcases List.mem_cons.1 hc with rfl | hc
    · decide
    · exact isAlphanum_of_mem_toDigits hc
  | array t => simp [word]
  | blockRef ts => simp [word]

theorem spelled : Spelled Char.isAlphanum chars word afterWord where
  code_eq := chars_eq
  mem_word _ := isAlphanum_of_mem_word
  leaves_after t u hu := by
    cases t with
    | prim p => exact hu
    | object l => exact hu
    | array t => simp [afterWord]
    | blockRef ts => simp [afterWord]

theorem separates : Separates [',', ' '] chars (Leaves Char.isAlphanum) (Closed ')') := by
  refine spelled.separates (by decide) (by decide) (by decide) fun t hw => ?_
  cases t with
  | prim p => exact absurd hw p.text_word.2.1
  | array t => exact ⟨'[', _, rfl, by decide⟩
  | object l => simp [word] at hw
  | blockRef ts => simp [word] at hw

/-! The first word of a type tells how the type is made. -/

theorem eq_prim_of_word {p : Primitive} (h : t.word = p.text.toList) : t = .prim p := by
  cases t with
  | prim q => rw [Primitive.text_inj h]
  | object l => exact absurd (congrArg List.head? h.symm) p.text_word.2.2.1
  | array t => exact absurd h.symm p.text_word.2.1
  | blockRef ts => exact absurd h.symm p.text_word.2.2.2

theorem eq_object_of_word {l : LayoutId} (h : t.word = 'S' :: Nat.toDigits 10 l.index) :
    t = .object l := by
  cases t with
  | prim p => exact absurd (congrArg List.head? h) p.text_word.2.2.1
  | object k =>
    have hindex : k.index = l.index := toDigits_inj (List.cons.inj h).2
    cases k
    cases l
    simpa using hindex
  | array t => simp [word] at h
  | blockRef ts => simp [word] at h

theorem exists_eq_array_of_word (h : t.word = []) : ∃ e, t = .array e := by
  cases t with
  | prim p => exact absurd h p.text_word.2.1
  | object l => simp [word] at h
  | array e => exact ⟨e, rfl⟩
  | blockRef ts => simp [word] at h

theorem exists_eq_blockRef_of_word (h : t.word = "func".toList) : ∃ ts, t = .blockRef ts := by
  cases t with
  | prim p => exact absurd h p.text_word.2.2.2
  | object l => simp [word] at h
  | array e => simp [word] at h
  | blockRef ts => exact ⟨ts, rfl⟩

mutual

theorem unique_chars : (t : ValueType) → Unique chars (Leaves Char.isAlphanum) t
  | .prim p => by
    intro t u v hu hv h
    obtain ⟨hword, hafter⟩ := spelled.word_eq hu hv h
    obtain rfl := eq_prim_of_word hword
    exact ⟨rfl, hafter⟩
  | .object l => by
    intro t u v hu hv h
    obtain ⟨hword, hafter⟩ := spelled.word_eq hu hv h
    obtain rfl := eq_object_of_word hword
    exact ⟨rfl, hafter⟩
  | .array element => by
    intro t u v hu hv h
    obtain ⟨hword, hafter⟩ := spelled.word_eq hu hv h
    obtain ⟨e, rfl⟩ := exists_eq_array_of_word hword
    obtain ⟨rfl, hrest⟩ := unique_chars element e (']' :: u) (']' :: v) (by simp) (by simp)
      (by simpa [afterWord] using hafter)
    exact ⟨rfl, by simpa using hrest⟩
  | .blockRef parameters => by
    intro t u v hu hv h
    obtain ⟨hword, hafter⟩ := spelled.word_eq hu hv h
    obtain ⟨ts, rfl⟩ := exists_eq_blockRef_of_word hword
    obtain ⟨rfl, hrest⟩ := separates.joined_unique (u := ')' :: u) (v := ')' :: v) parameters
      ts (unique_chars_of_mem parameters) (by simp) (by simp) (by simpa [afterWord] using hafter)
    exact ⟨rfl, by simpa using hrest⟩

theorem unique_chars_of_mem : (ts : List ValueType) →
    ∀ t ∈ ts, Unique chars (Leaves Char.isAlphanum) t
  | [] => by simp
  | t :: ts => List.forall_mem_cons.2 ⟨unique_chars t, unique_chars_of_mem ts⟩

end

theorem text_inj (h : s.text = t.text) : s = t :=
  (unique_chars s t [] [] leaves_nil leaves_nil (by simp [chars, h])).1

theorem listText_inj {ss ts : List ValueType} (h : listText ss = listText ts) : ss = ts := by
  have hjoined : joined [',', ' '] chars ss ++ [] = joined [',', ' '] chars ts ++ [] := by
    rw [← listText_toList, ← listText_toList, h]
  exact (separates.joined_unique ss ts (unique_chars_of_mem ss) (by simp) (by simp) hjoined).1

end ValueType

namespace SourceType

variable {t s : SourceType} {u v : List Char}

theorem texts_eq_map (ts : List SourceType) : texts ts = ts.map text := by
  induction ts with
  | nil => rfl
  | cons t ts ih => rw [texts, ih, List.map_cons]

def chars (t : SourceType) : List Char := t.text.toList.reverse

theorem commaSep_texts (ts : List SourceType) :
    (commaSep (texts ts)).toList.reverse = joined [' ', ','] chars ts.reverse := by
  rw [texts_eq_map, commaSep_map, reverse_joined]
  rfl

def isName (c : Char) : Bool := c.isAlphanum || c == '#'

def word : SourceType → List Char
  | .prim p => p.sourceText.toList.reverse
  | .object c => ("class#".toList ++ Nat.toDigits 10 c.index).reverse
  | .array _ => []
  | .function _ _ => []

def afterWord : SourceType → List Char
  | .prim _ => []
  | .object _ => []
  | .array element => ']' :: '[' :: element.chars
  | .function result parameters =>
    ')' :: (joined [' ', ','] chars parameters.reverse ++ '(' :: result.chars)

theorem chars_eq (t : SourceType) : t.chars = t.word ++ t.afterWord := by
  cases t with
  | prim p => simp [chars, text, word, afterWord]
  | object c => simp [chars, text, word, afterWord]
  | array t => simp [chars, text, word, afterWord]
  | function t ts => simp [chars, text, word, afterWord, ← commaSep_texts]

theorem isName_of_mem_word : ∀ c ∈ t.word, isName c = true := by
  intro c hc
  cases t with
  | prim p => simp [isName, p.sourceText_word.1 c (by simpa [word] using hc)]
  | object k =>
    rw [word, List.mem_reverse, List.mem_append] at hc
    rcases hc with hc | hc
    · have hclass : "class#".toList.all isName = true := by decide
      exact List.all_eq_true.1 hclass c hc
    · simp [isName, isAlphanum_of_mem_toDigits hc]
  | array t => simp [word] at hc
  | function t ts => simp [word] at hc

theorem spelled : Spelled isName chars word afterWord where
  code_eq := chars_eq
  mem_word _ := isName_of_mem_word
  leaves_after t u hu := by
    cases t with
    | prim p => exact hu
    | object c => exact hu
    | array t => simp [afterWord, isName]
    | function t ts => simp [afterWord, isName]

theorem separates : Separates [' ', ','] chars (Leaves isName) (Closed '(') := by
  refine spelled.separates (by decide) (by decide) (by decide) fun t hw => ?_
  cases t with
  | prim p => exact absurd (by simpa [word] using hw) p.sourceText_word.2
  | array t => exact ⟨']', _, rfl, by decide⟩
  | object c => simp [word] at hw
  | function t ts => exact ⟨')', _, rfl, by decide⟩

/-! The last name of a type tells which primitive type or class it is. Of the other types, the last
character tells how they are made. -/

theorem hash_notMem_sourceText (p : Primitive) : '#' ∉ p.sourceText.toList := fun h =>
  absurd (p.sourceText_word.1 '#' h) (by decide)

theorem eq_prim_of_word {p : Primitive} (h : t.word = p.sourceText.toList.reverse) :
    t = .prim p := by
  cases t with
  | prim q => rw [Primitive.sourceText_inj (List.reverse_injective h)]
  | object c =>
    have hhash : '#' ∈ p.sourceText.toList.reverse := h ▸ by simp [word]
    exact absurd (List.mem_reverse.1 hhash) (hash_notMem_sourceText p)
  | array t => exact absurd (List.reverse_eq_nil_iff.1 h.symm) p.sourceText_word.2
  | function t ts => exact absurd (List.reverse_eq_nil_iff.1 h.symm) p.sourceText_word.2

theorem eq_object_of_word {c : ClassId}
    (h : t.word = ("class#".toList ++ Nat.toDigits 10 c.index).reverse) : t = .object c := by
  cases t with
  | prim p =>
    have hhash : '#' ∈ (SourceType.prim p).word := h ▸ by simp
    exact absurd (List.mem_reverse.1 hhash) (hash_notMem_sourceText p)
  | object k =>
    have hindex : k.index = c.index :=
      toDigits_inj (List.append_cancel_left (List.reverse_injective h))
    cases k
    cases c
    simpa using hindex
  | array t => simp [word] at h
  | function t ts => simp [word] at h

theorem exists_eq_array_of_afterWord (hword : t.word = []) (h : ']' :: u = t.afterWord ++ v) :
    ∃ e, t = .array e := by
  cases t with
  | prim p => exact absurd (List.reverse_eq_nil_iff.1 hword) p.sourceText_word.2
  | object c => simp [word] at hword
  | array e => exact ⟨e, rfl⟩
  | function t ts => simp [afterWord] at h

theorem exists_eq_function_of_afterWord {t : SourceType} {u v : List Char} (hword : t.word = [])
    (h : ')' :: u = t.afterWord ++ v) : ∃ r ps, t = .function r ps := by
  cases t with
  | prim p => exact absurd (List.reverse_eq_nil_iff.1 hword) p.sourceText_word.2
  | object c => simp [word] at hword
  | array e => simp [afterWord] at h
  | function r ps => exact ⟨r, ps, rfl⟩

mutual

theorem unique_chars : (t : SourceType) → Unique chars (Leaves isName) t
  | .prim p => by
    intro t u v hu hv h
    obtain ⟨hword, hafter⟩ := spelled.word_eq hu hv h
    obtain rfl := eq_prim_of_word hword
    exact ⟨rfl, hafter⟩
  | .object c => by
    intro t u v hu hv h
    obtain ⟨hword, hafter⟩ := spelled.word_eq hu hv h
    obtain rfl := eq_object_of_word hword
    exact ⟨rfl, hafter⟩
  | .array element => by
    intro t u v hu hv h
    obtain ⟨hword, hafter⟩ := spelled.word_eq hu hv h
    obtain ⟨e, rfl⟩ := exists_eq_array_of_afterWord hword hafter
    obtain ⟨rfl, rfl⟩ := unique_chars element e u v hu hv (by simpa [afterWord] using hafter)
    exact ⟨rfl, rfl⟩
  | .function result parameters => by
    intro t u v hu hv h
    obtain ⟨hword, hafter⟩ := spelled.word_eq hu hv h
    obtain ⟨r, ps, rfl⟩ := exists_eq_function_of_afterWord hword hafter
    obtain ⟨hps, hrest⟩ := separates.joined_unique parameters.reverse ps.reverse
      (u := '(' :: (result.chars ++ u)) (v := '(' :: (r.chars ++ v))
      (fun t ht => unique_chars_of_mem parameters t (List.mem_reverse.1 ht)) (by simp) (by simp)
      (by simpa [afterWord] using hafter)
    obtain rfl := List.reverse_injective hps
    obtain ⟨rfl, rfl⟩ := unique_chars result r u v hu hv (List.cons.inj hrest).2
    exact ⟨rfl, rfl⟩

theorem unique_chars_of_mem : (ts : List SourceType) →
    ∀ t ∈ ts, Unique chars (Leaves isName) t
  | [] => by simp
  | t :: ts => List.forall_mem_cons.2 ⟨unique_chars t, unique_chars_of_mem ts⟩

end

theorem text_inj (h : s.text = t.text) : s = t :=
  (unique_chars s t [] [] leaves_nil leaves_nil (by simp [chars, h])).1

theorem commaSep_texts_inj {ss ts : List SourceType}
    (h : commaSep (texts ss) = commaSep (texts ts)) : ss = ts := by
  have hjoined : joined [' ', ','] chars ss.reverse ++ [] =
      joined [' ', ','] chars ts.reverse ++ [] := by
    rw [← commaSep_texts, ← commaSep_texts, h]
  have hmem : ∀ t ∈ ss.reverse, Unique chars (Leaves isName) t := fun t ht =>
    unique_chars_of_mem ss t (List.mem_reverse.1 ht)
  exact List.reverse_injective (separates.joined_unique _ _ hmem (by simp) (by simp) hjoined).1

end SourceType

end BlockGraph
