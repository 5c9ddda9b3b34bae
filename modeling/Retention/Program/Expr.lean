import Retention.Value
import Retention.Program.Operation
/-!
# Expr — programs and their expressions

An expression comes as a `Form`, a tree of words and numbers, and is read into an `Expr`.  A text that begins with a
dollar sign is a variable; a group is an operation or a special form, by its first word.  A group that is neither is
kept as `unreadable` and fails when it is evaluated.

A program is what its functions are: a body for each name, and whether the function has a name to show.
-/
namespace Retention

/-- An expression as it is written. -/
inductive Form where
  | null
  | bool (b : Bool)
  | int (n : Int)
  | text (s : String)
  | group (items : List Form)
deriving Repr, Inhabited

/-- An expression. -/
inductive Expr where
  | constant (v : Value)
  | lookup (name : String)
  /-- Evaluates, stores under a name, and hands the value on. -/
  | assign (name : String) (e : Expr)
  /-- An argument of the function that is being run, counted from the end if the index is negative. -/
  | argument (i : Int)
  /-- An argument at what is no index, by the name of its type. -/
  | argumentAt (type : String)
  | choose (condition yes no : Expr)
  /-- The value of the first expression, or of the second if the first raises an error. -/
  | recover (e handler : Expr)
  /-- The error that an expression raises. -/
  | caught (e : Expr)
  /-- Evaluates the expression as many times as the first one says, with the variable `i` counting from 0. -/
  | times (count e : Expr)
  | apply (o : Operation) (args : List Expr)
  | unreadable (word : String)
deriving Repr, Inhabited

namespace Expr

/-- A text as an expression: a variable if it begins with a dollar sign. -/
def ofText (s : String) : Expr :=
  match s.toList with
  | '$' :: name => .lookup (String.ofList name)
  | _ => .constant (.str s)

/-- The argument at an index as it is written. -/
def argumentOf : Form → Expr
  | .int i => .argument i
  | .bool b => .argument (if b then 1 else 0)
  | .null => .argumentAt "NoneType"
  | .text _ => .argumentAt "str"
  | .group _ => .argumentAt "list"

mutual
/-- Reads an expression. -/
def ofForm : Form → Expr
  | .null => .constant .null
  | .bool b => .constant (.bool b)
  | .int n => .constant (.int n)
  | .text s => ofText s
  | .group [.text "let", .text name, e] => .assign name (ofForm e)
  | .group [.text "arg", i] => argumentOf i
  | .group [.text "str", .text s] => .constant (.str s)
  | .group [.text "if", c, a, b] => .choose (ofForm c) (ofForm a) (ofForm b)
  | .group [.text "try", e, h] => .recover (ofForm e) (ofForm h)
  | .group [.text "catch", e] => .caught (ofForm e)
  | .group [.text "repeat", n, e] => .times (ofForm n) (ofForm e)
  | .group (.text w :: items) =>
    match Operation.ofWord? w with
    | some o => .apply o (ofForms items)
    | none => .unreadable w
  | .group _ => .unreadable ""
/-- Reads expressions. -/
def ofForms : List Form → List Expr
  | [] => []
  | f :: fs => ofForm f :: ofForms fs
end

end Expr

/-- A function of a program. -/
structure Definition where
  body : Expr
  anonymous : Bool
deriving Repr, Inhabited

/-- The functions of a program by name. -/
abbrev Program := List (String × Definition)

namespace Program

/-- The definition of a name. -/
def definition? (p : Program) (name : String) : Option Definition := (p.find? (·.1 == name)).map (·.2)

/-- The function of a name: one of the program's own, or else a builtin. -/
def function? (p : Program) (name : String) : Option Function :=
  match p.definition? name with
  | some d => some (.defined name d.anonymous)
  | none => (Builtin.ofWord? name).map .builtin

end Program
end Retention
