import MiniC.Program
import MiniC.Text.Printable

/-!
# Programs as indented outlines

An outline shows every node of a tree on a line of its own, with four more spaces for each level
and a comma after every part. It names all parts, also those that are missing or empty.
-/

namespace MiniC

/-- What an outline is made of: a word, or parts between an opening and a closing text, each with
a label before it. -/
inductive Outline where
  | word (text : String)
  | group (opening : String) (parts : List (String × Outline)) (closing : String)

namespace Outline

mutual

def render (indent : Nat) : Outline → String
  | .word text => text
  | .group opening parts closing =>
    opening ++ "\n" ++ renderParts (indent + 4) parts ++ String.ofList (List.replicate indent ' ')
      ++ closing

def renderParts (indent : Nat) : List (String × Outline) → String
  | [] => ""
  | (label, part) :: rest =>
    String.ofList (List.replicate indent ' ') ++ label ++ part.render indent ++ ",\n"
      ++ renderParts indent rest

end

def node (name : String) (fields : List (String × Outline)) : Outline :=
  .group (name ++ " \x7b") (fields.map fun (label, part) => (label ++ ": ", part)) "\x7d"

def wrap (name : String) (part : Outline) : Outline :=
  .group (name ++ "(") [("", part)] ")"

def list : List Outline → Outline
  | [] => .word "[]"
  | parts => .group "[" (parts.map fun part => ("", part)) "]"

def option : Option Outline → Outline
  | none => .word "None"
  | some part => wrap "Some" part

/-- A character within quotes. One that is not printable is named by its code point. -/
def quotedChar (c : Char) : String :=
  match c with
  | '"' => "\\\""
  | '\\' => "\\\\"
  | '\n' => "\\n"
  | '\t' => "\\t"
  | '\r' => "\\r"
  | '\x00' => "\\0"
  | c =>
    if Text.isPrintable c then c.toString
    else "\\u\x7b" ++ String.ofList (Nat.toDigits 16 c.toNat) ++ "\x7d"

def quoted (s : String) : Outline :=
  .word ("\"" ++ String.join (s.toList.map quotedChar) ++ "\"")

end Outline

def TypeName.outline : TypeName → Outline
  | int => .word "Int"
  | float => .word "Float"
  | char => .word "Char"
  | bool => .word "Bool"
  | void => .word "Void"

def BinaryOp.outline : BinaryOp → Outline
  | add => .word "Add"
  | sub => .word "Sub"
  | mul => .word "Mul"
  | div => .word "Div"
  | mod => .word "Mod"
  | equal => .word "Equal"
  | notEqual => .word "NotEqual"
  | less => .word "Less"
  | greater => .word "Greater"
  | lessEqual => .word "LessEqual"
  | greaterEqual => .word "GreaterEqual"
  | and => .word "And"
  | or => .word "Or"

def UnaryOp.outline : UnaryOp → Outline
  | negate => .word "Negate"
  | not => .word "Not"
  | increment => .word "Increment"
  | decrement => .word "Decrement"

def Side.outline : Side → Outline
  | before => .word "true"
  | after => .word "false"

def Value.outline (v : Value) : Outline :=
  match v with
  | int _ => .wrap "Integer" (.word v.text)
  | real _ => .wrap "Real" (.word v.text)
  | bool _ => .wrap "Bool" (.word v.text)
  | str s => .wrap "Str" (.quoted s)

mutual

def Expr.outline : Expr → Outline
  | .literal v => .node "Literal" [("value", v.outline)]
  | .var x => .node "Variable" [("name", .quoted x)]
  | .binary op a b =>
    .node "BinaryOp" [("left", a.outline), ("op", op.outline), ("right", b.outline)]
  | .unary op side a =>
    .node "UnaryOp" [("op", op.outline), ("expr", a.outline), ("prefix", side.outline)]
  | .assign x a => .node "Assignment" [("var", .quoted x), ("expr", a.outline)]
  | .call f args => .node "FunctionCall" [("name", .quoted f), ("args", .list (Expr.outlines args))]

def Expr.outlines : List Expr → List Outline
  | [] => []
  | e :: es => e.outline :: Expr.outlines es

end

def Decl.outline (d : Decl) : Outline :=
  .node "VarDecl"
    [("ty", d.type.outline), ("name", .quoted d.name), ("init", .option (d.init.map Expr.outline))]

def Outline.body (statements : List Outline) : Outline :=
  .node "Block" [("statements", .list statements)]

mutual

def Stmt.outline : Stmt → Outline
  | .expr e => .node "Expression" [("expr", e.outline)]
  | .decl d => .wrap "VarDecl" d.outline
  | .block body => .wrap "Block" (.body (Stmt.outlines body))
  | .ifElse c yes no =>
    .node "If"
      [("condition", c.outline), ("then_branch", yes.outline),
        ("else_branch", .option (Stmt.outlineIfAny no))]
  | .whileLoop c body => .node "While" [("condition", c.outline), ("body", body.outline)]
  | .forLoop init c step body =>
    .node "For"
      [("init", .option (Stmt.outlineIfAny init)), ("condition", c.outline),
        ("increment", .option (step.map Expr.outline)), ("body", body.outline)]
  | .ret value => .node "Return" [("value", .option (value.map Expr.outline))]
  | .print e => .node "Print" [("expr", e.outline)]

def Stmt.outlineIfAny : Option Stmt → Option Outline
  | none => none
  | some s => some s.outline

def Stmt.outlines : List Stmt → List Outline
  | [] => []
  | s :: ss => s.outline :: Stmt.outlines ss

end

def Function.outline (f : Function) : Outline :=
  .node "Function"
    [("return_type", f.type.outline), ("name", .quoted f.name),
      ("params", .list (f.params.map Decl.outline)), ("body", .body (Stmt.outlines f.body))]

def Program.outline (p : Program) : Outline :=
  .node "Program"
    [("functions", .list (p.functions.map Function.outline)),
      ("global_vars", .list (p.globals.map Decl.outline))]

def Program.dump (p : Program) : String :=
  p.outline.render 0

end MiniC
