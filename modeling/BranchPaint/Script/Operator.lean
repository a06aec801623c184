/-!
# Operators and declaring words

The closed vocabularies of the language. Each has a written form `text` and, where the grammar reads
it back, a partial inverse `ofText?`.
-/

namespace BranchPaint

/-- The word that opens a declaration. -/
inductive DeclareWord where
  | letWord
  | constWord
  | varWord
deriving Repr, DecidableEq

namespace DeclareWord

/-- The word as written. -/
def text : DeclareWord → String
  | letWord => "let"
  | constWord => "const"
  | varWord => "var"

/-- The declaring word that is written `t`. -/
def ofText? (t : String) : Option DeclareWord :=
  match t with
  | "let" => some letWord
  | "const" => some constWord
  | "var" => some varWord
  | _ => none

end DeclareWord

/-- Arithmetic, comparison and equality. -/
inductive BinaryOp where
  | add
  | sub
  | mul
  | div
  | rem
  | lt
  | le
  | gt
  | ge
  | eq
  | ne
  | strictEq
  | strictNe
deriving Repr, DecidableEq

namespace BinaryOp

/-- The operator as written. -/
def text : BinaryOp → String
  | add => "+"
  | sub => "-"
  | mul => "*"
  | div => "/"
  | rem => "%"
  | lt => "<"
  | le => "<="
  | gt => ">"
  | ge => ">="
  | eq => "=="
  | ne => "!="
  | strictEq => "==="
  | strictNe => "!=="

/-- The operator that is written `t`. -/
def ofText? (t : String) : Option BinaryOp :=
  match t with
  | "+" => some add
  | "-" => some sub
  | "*" => some mul
  | "/" => some div
  | "%" => some rem
  | "<" => some lt
  | "<=" => some le
  | ">" => some gt
  | ">=" => some ge
  | "==" => some eq
  | "!=" => some ne
  | "===" => some strictEq
  | "!==" => some strictNe
  | _ => none

end BinaryOp

/-- The operators that evaluate their right operand only if the left one does not decide. -/
inductive LogicalOp where
  | and
  | or
deriving Repr, DecidableEq

namespace LogicalOp

/-- The operator as written. -/
def text : LogicalOp → String
  | and => "&&"
  | or => "||"

end LogicalOp

/-- The operators with one operand that store nothing. -/
inductive UnaryOp where
  | not
  | neg
  | plus
  | bitNot
  | typeOf
deriving Repr, DecidableEq

namespace UnaryOp

/-- The operator as written. -/
def text : UnaryOp → String
  | not => "!"
  | neg => "-"
  | plus => "+"
  | bitNot => "~"
  | typeOf => "typeof"

/-- The operator that is written `t`. -/
def ofText? (t : String) : Option UnaryOp :=
  match t with
  | "!" => some not
  | "-" => some neg
  | "+" => some plus
  | "~" => some bitNot
  | "typeof" => some typeOf
  | _ => none

end UnaryOp

/-- Steps by one. -/
inductive UpdateOp where
  | increment
  | decrement
deriving Repr, DecidableEq

namespace UpdateOp

/-- The operator as written. -/
def text : UpdateOp → String
  | increment => "++"
  | decrement => "--"

end UpdateOp

/-- Plain assignment, or the assignment that first combines the target with the value. -/
inductive AssignOp where
  | assign
  | compound (op : BinaryOp)
deriving Repr, DecidableEq

namespace AssignOp

/-- The operator as written. Only the five arithmetic operators have a compound form; a compound
assignment with any other is written as a plain one. -/
def text : AssignOp → String
  | assign => "="
  | compound .add => "+="
  | compound .sub => "-="
  | compound .mul => "*="
  | compound .div => "/="
  | compound .rem => "%="
  | compound _ => "="

/-- The operator that is written `t`. -/
def ofText? (t : String) : Option AssignOp :=
  match t with
  | "=" => some assign
  | "+=" => some (compound .add)
  | "-=" => some (compound .sub)
  | "*=" => some (compound .mul)
  | "/=" => some (compound .div)
  | "%=" => some (compound .rem)
  | _ => none

end AssignOp

end BranchPaint
