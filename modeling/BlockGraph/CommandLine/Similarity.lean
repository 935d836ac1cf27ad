namespace BlockGraph.CommandLine

structure Common where
  taken : List Nat := []
  count : Nat := 0
  swapped : Nat := 0
  last : Nat := 0

def Common.add (range : Nat) (second : List Char) (m : Common) (i : Nat) (c : Char) : Common :=
  let fits (j : Nat) (d : Char) : Bool :=
    i - range ≤ j && j ≤ i + range && c = d && !m.taken.contains j
  match second.zipIdx.find? fun (d, j) => fits j d with
  | none => m
  | some (_, j) =>
    { taken := j :: m.taken
      count := m.count + 1
      swapped := if j < m.last then m.swapped + 1 else m.swapped
      last := j }

def overlap (first second : List Char) : Float :=
  match first, second with
  | [], [] => 1.0
  | [], _ | _, [] => 0.0
  | [a], [b] => if a = b then 1.0 else 0.0
  | _, _ =>
    let range := max first.length second.length / 2 - 1
    let m := first.zipIdx.foldl (fun m (c, i) => m.add range second i c) ({} : Common)
    if m.count = 0 then 0.0
    else
      let count := m.count.toFloat
      (1.0 / 3.0) * (count / first.length.toFloat + count / second.length.toFloat +
        (count - m.swapped.toFloat) / count)

def commonStart : List Char → List Char → Nat
  | a :: as, b :: bs => if a = b then commonStart as bs + 1 else 0
  | _, _ => 0

def similarity (first second : String) : Float :=
  let j := overlap first.toList second.toList
  let s := j + 0.1 * (commonStart first.toList second.toList).toFloat * (1.0 - j)
  if s ≤ 1.0 then s else 1.0

def similar (first second : String) : Bool := 0.8 < similarity first second

end BlockGraph.CommandLine
