import Ownership.Text.Quoted
import Ownership.Types.Table

/-! # Errors of a listing

A listing is refused for its form, or because it does not describe one program. A builtin type that
is needed after its name has gone to a declared type is refused by the type table itself.
-/

namespace Ownership.Listing

inductive Problem
  | unexpectedToken (text : String)
  | unexpectedCharacter (c : Char)
  | unexpectedEnd
  | duplicateType (name : String)
  | duplicateMember (member type : String)
  | duplicateArm (arm type : String)
  | unknownType (name : String)
  | staticParameter
  | duplicateFunction (name : String)
  | duplicateScope (name : String)
  | duplicateLabel (label : String)
  | conflictingDeclarations (name : String)
deriving DecidableEq, Repr

def Problem.message : Problem → String
  | unexpectedToken text => "unexpected token " ++ quoted text
  | unexpectedCharacter c => "unexpected character " ++ quoted c.toString
  | unexpectedEnd => "unexpected end of input"
  | duplicateType name => s!"duplicate type '{name}'"
  | duplicateMember member type => s!"duplicate member '{member}' in struct '{type}'"
  | duplicateArm arm type => s!"duplicate arm '{arm}' in variant '{type}'"
  | unknownType name => s!"unknown type '{name}'"
  | staticParameter => "'static cannot be declared as a lifetime parameter"
  | duplicateFunction name => s!"duplicate function '{name}'"
  | duplicateScope name => s!"duplicate scope '{name}'"
  | duplicateLabel label => s!"duplicate block label '{label}'"
  | conflictingDeclarations name => s!"conflicting declarations of '{name}'"

inductive Error
  | at (problem : Problem) (span : Span)
  | clash (clash : NameClash)
deriving DecidableEq, Repr

def Error.message : Error → String
  | .at problem _ => problem.message
  | .clash c => c.message

end Ownership.Listing
