namespace BlockGraph.Text

def commaSep : List String → String
  | [] => ""
  | [s] => s
  | s :: t :: rest => s ++ ", " ++ commaSep (t :: rest)

def padRight (width : Nat) (s : String) : String :=
  s ++ String.ofList (List.replicate (width - s.length) ' ')

def unlines (lines : List String) : String :=
  String.join (lines.map (· ++ "\n"))

end BlockGraph.Text
