import BlockGraph.Event

namespace BlockGraph

structure Logged (α : Type) where
  events : List Event
  result : Except Fault α

namespace Logged

variable {α β : Type}

instance : Monad Logged where
  pure a := ⟨[], .ok a⟩
  bind x f :=
    match x.result with
    | .ok a =>
      let y := f a
      ⟨x.events ++ y.events, y.result⟩
    | .error e => ⟨x.events, .error e⟩

instance : MonadExceptOf Fault Logged where
  throw e := ⟨[], .error e⟩
  tryCatch x f :=
    match x.result with
    | .ok _ => x
    | .error e =>
      let y := f e
      ⟨x.events ++ y.events, y.result⟩

instance : MonadLift (Except Fault) Logged where
  monadLift x := ⟨[], x⟩

def tell (e : Event) : Logged Unit := ⟨[e], .ok ()⟩

def log (x : Logged α) : List Event :=
  match x.result with
  | .ok _ => x.events
  | .error e => x.events ++ [.fault e]

end Logged

end BlockGraph
