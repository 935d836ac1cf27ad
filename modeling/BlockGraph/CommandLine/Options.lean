import BlockGraph.CommandLine.Similarity

/-!
The arguments of the command line:

    [-v LEVEL] list
    [-v LEVEL] build [--no-optimise] [--no-verify] SAMPLE

Every level of the line knows `-h` and `--help`, and `help` stands for a task. After `--` there are no
more options.
-/

namespace BlockGraph.CommandLine

inductive Task where
  | list
  | build (sample : String) (optimise verify : Bool)
  deriving DecidableEq

structure Options where
  task : Task
  verbose : Nat
  deriving DecidableEq

inductive UsageError where
  | help
  | missingTask
  | unknownTask
  | mistypedTask
  | missingArgument
  | unknownArgument
  | missingValue
  | unwantedValue
  | invalidValue
  | repeated
  deriving DecidableEq

inductive Argument where
  | escape
  | long (name : String) (value : Option String)
  | short (first : Char) (rest : List Char)
  | plain (text : String)

def Argument.ofString (s : String) : Argument :=
  match s.toList with
  | ['-', '-'] => .escape
  | '-' :: '-' :: cs =>
    match cs.span (· ≠ '=') with
    | (name, _ :: value) => .long (String.ofList name) (some (String.ofList value))
    | (name, []) => .long (String.ofList name) none
  | '-' :: c :: cs => .short c cs
  | _ => .plain s

/-- A number of at most 64 bits, in decimal digits after an optional plus sign. -/
def parseLevel (s : String) : Option Nat :=
  let digits := match s.toList with
    | '+' :: cs => cs
    | cs => cs
  if digits.isEmpty || !digits.all Char.isDigit then none
  else
    let n := digits.foldl (fun n c => 10 * n + (c.toNat - '0'.toNat)) 0
    if n < UInt64.size then some n else none

def taskNames : List String := ["list", "build", "help"]

def misplaced (s : String) : UsageError :=
  if taskNames.any (similar s) then .mistypedTask else .unknownArgument

def otherLong (name : String) (value : Option String) : UsageError :=
  if name = "help" then
    if value.isSome then .unwantedValue else .help
  else .unknownArgument

def otherShort (c : Char) : UsageError := if c = 'h' then .help else .unknownArgument

structure BuildArguments where
  sample : Option String := none
  noOptimise : Nat := 0
  noVerify : Nat := 0

namespace BuildArguments

def addSample (a : BuildArguments) (s : String) : Except UsageError BuildArguments :=
  match a.sample with
  | none => .ok { a with sample := some s }
  | some _ => .error .unknownArgument

def addArgument (a : BuildArguments) (s : String) : Except UsageError BuildArguments :=
  match Argument.ofString s with
  | .long "no-optimise" none => .ok { a with noOptimise := a.noOptimise + 1 }
  | .long "no-verify" none => .ok { a with noVerify := a.noVerify + 1 }
  | .long "no-optimise" (some _) | .long "no-verify" (some _) => .error .unwantedValue
  | .long name value => .error (otherLong name value)
  | .short c _ => .error (otherShort c)
  | .escape | .plain _ => a.addSample s

def task (a : BuildArguments) : Except UsageError Task :=
  match a.sample with
  | none => .error .missingArgument
  | some sample =>
    if 1 < a.noOptimise || 1 < a.noVerify then .error .repeated
    else .ok (.build sample (a.noOptimise = 0) (a.noVerify = 0))

end BuildArguments

def parseBuild (a : BuildArguments) : List String → Except UsageError Task
  | [] => a.task
  | "--" :: rest => do (← rest.foldlM BuildArguments.addSample a).task
  | s :: rest => do parseBuild (← a.addArgument s) rest

def parseList : List String → Except UsageError Task
  | [] | ["--"] => .ok .list
  | s :: _ =>
    match Argument.ofString s with
    | .long name value => .error (otherLong name value)
    | .short c _ => .error (otherShort c)
    | .escape | .plain _ => .error .unknownArgument

def parseHelp : List String → UsageError
  | [] => .help
  | [s] => if taskNames.contains s then .help else .unknownTask
  | _ :: _ :: _ => .unknownTask

abbrev Levels := List (Option String)

def Levels.verbose (vs : Levels) : Except UsageError Nat :=
  match vs.filterMap id with
  | [] => .ok 1
  | given =>
    match given.mapM parseLevel with
    | none => .error .invalidValue
    | some levels =>
      match levels, vs with
      | [n], [_] => .ok n
      | _, _ => .error .repeated

/-- The line ends without a task. That matters less than a `-v` that never got a value. -/
def Levels.noTask (vs : Levels) : UsageError :=
  if !vs.isEmpty && vs.all Option.isNone then .missingValue
  else .missingTask

def attached : List Char → Option String
  | [] => none
  | '=' :: cs => some (String.ofList cs)
  | cs => some (String.ofList cs)

/-- A task is complete before the options in front of it are looked at. -/
def finish (vs : Levels) (task : Except UsageError Task) : Except UsageError Options := do
  let task ← task
  return { task, verbose := ← vs.verbose }

def parseFrom (vs : Levels) : List String → Except UsageError Options
  | [] => .error vs.noTask
  | s :: rest =>
    match vs, Argument.ofString s with
    | vs, .escape =>
      match rest with
      | [] => .error vs.noTask
      | t :: _ => .error (if taskNames.contains t then .unknownArgument else misplaced t)
    | vs, .long "verbose" value => parseFrom (value :: vs) rest
    | _, .long name value => .error (otherLong name value)
    | vs, .short 'v' cs => parseFrom (attached cs :: vs) rest
    | _, .short c _ => .error (otherShort c)
    | none :: vs, .plain value => parseFrom (some value :: vs) rest
    | vs, .plain "list" => finish vs (parseList rest)
    | vs, .plain "build" => finish vs (parseBuild {} rest)
    | _, .plain "help" => .error (parseHelp rest)
    | _, .plain s => .error (misplaced s)

def Options.parse (args : List String) : Except UsageError Options := parseFrom [] args

end BlockGraph.CommandLine
