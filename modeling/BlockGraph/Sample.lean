import BlockGraph.Source.Program

namespace BlockGraph

structure Sample where
  name : String
  description : String
  program : Program

namespace Sample

open BlockGraph.Expr

def byte : SourceType := .prim .u8

def byteVar (name : String) : Expr := .var name byte

def define (type : SourceType) (name : String) (value : Option Expr) : Stmt :=
  .define (some type) [⟨name, value⟩]

def print (value : Expr) : Stmt := .expr (.native "print" [value] (.prim .void))

def whileLoop (condition : Expr) (body : List Stmt) : Stmt :=
  .loop .testFirst none condition { statements := body }

def square : FunctionDecl where
  id := ⟨0⟩
  name := "square"
  result := byte
  parameters := [⟨"n", byte⟩]
  body := { statements := [.ret (some (mkNumeric .mul (byteVar "n") (byteVar "n")))] }

def calls : Sample where
  name := "calls"
  description := "a call in the middle of an expression, capturing live variables"
  program := ⟨{
    functions := [square]
    statements := [
      define byte "y" (some (ofU8 3)),
      define byte "z"
        (some (mkNumeric .add (byteVar "y") (mkCall square.reference [byteVar "y"]))),
      print (mkNumeric .add (byteVar "z") (byteVar "y"))] }⟩

def counter : Sample where
  name := "counter"
  description := "do-while and while loops over a counter"
  program :=
    let short : SourceType := .prim .u16
    let total : Expr := .var "total" short
    ⟨{ statements := [
      define byte "x" (some (ofU8 0)),
      .loop .testLast none (mkCompare .lt (byteVar "x") (ofU8 10))
        { statements := [.expr (mkStep .increment (byteVar "x"))] },
      define short "total" none,
      .expr (mkAssign total (.literal (.u16 0) short)),
      whileLoop (mkCompare .gt (byteVar "x") (ofU8 0)) [
        .expr (mkCompound (.numeric .add) total (.cast .zeroExtend (byteVar "x") short)),
        .expr (mkStep .decrement (byteVar "x"))],
      print total] }⟩

def loops : Sample where
  name := "loops"
  description := "labeled loops with break and continue"
  program :=
    let done : Expr := .var "done" (.prim .bool)
    let i := byteVar "i"
    ⟨{ statements := [
      define byte "i" (some (ofU8 0)),
      define (.prim .bool) "done" (some (ofBool false)),
      .labeled "outer" (whileLoop (ofBool true) [
        .expr (mkStep .increment i),
        whileLoop (mkCompare .lt i (ofU8 100)) [
          .cond done (some { statements := [.jump .leave (some "outer")] }) none,
          .expr (mkAssign done (mkCompare .eq (mkNumeric .mod i (ofU8 7)) (ofU8 0))),
          .expr (mkCompound (.numeric .mul) i (ofU8 2))],
        .jump .again none]),
      print (mkConditional done i (ofU8 0))] }⟩

def objects : Sample where
  name := "objects"
  description := "class instances and arrays"
  program :=
    let point : ClassDecl := ⟨⟨0⟩, "Point", [⟨"x", byte⟩, ⟨"y", byte⟩]⟩
    let type : SourceType := .object point.id
    let p : Expr := .var "p" type
    let points : Expr := .var "points" (.array type)
    ⟨{
      classes := [point]
      statements := [
        define type "p" (some (mkNew point.id [ofU8 1, ofU8 2])),
        .expr (mkCompound (.numeric .add) (.field p 0 byte) (.field p 1 byte)),
        define (.array type) "points" (some (.newArray (ofU8 4) (.array type))),
        .expr (mkAssign (mkIndex points (ofU8 0)) p),
        .expr (mkStep .increment (.field (mkIndex points (ofU8 0)) 1 byte)),
        print (.field p 1 byte)] }⟩

def parityStep (name : String) (self other : FunctionId) (atZero : Bool) : FunctionDecl where
  id := self
  name := name
  result := .prim .bool
  parameters := [⟨"n", byte⟩]
  body := { statements := [
    .cond (mkCompare .eq (byteVar "n") (ofU8 0))
      (some { statements := [.ret (some (ofBool atZero))] })
      (some { statements := [.ret (some (mkCall (.function other (.function (.prim .bool) [byte]))
        [mkNumeric .sub (byteVar "n") (ofU8 1)]))] })] }

def parity : Sample where
  name := "parity"
  description := "mutually recursive functions returning from both branches"
  program :=
    let even := parityStep "even" ⟨0⟩ ⟨1⟩ true
    let odd := parityStep "odd" ⟨1⟩ ⟨0⟩ false
    ⟨{ functions := [even, odd], statements := [print (mkCall even.reference [ofU8 7])] }⟩

def all : List Sample := [calls, counter, loops, objects, parity]

def find? (name : String) : Option Sample := all.find? (·.name = name)

def unknown (name : String) : String :=
  "Unknown demo '" ++ name ++ "', use `list` to see the available programs"

end Sample

end BlockGraph
