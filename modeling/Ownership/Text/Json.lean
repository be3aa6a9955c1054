import Ownership.Text.Quoted

/-! # JSON text

Values with members in a fixed order, and their text: on one line, with a space behind commas and
colons, and in ASCII only.
-/

namespace Ownership

inductive Json
  | null
  | bool (value : Bool)
  | int (value : Int)
  | str (value : String)
  | arr (elements : List Json)
  | obj (members : List (String × Json))
deriving Repr, Inhabited

namespace Json

/-- A code unit of sixteen bits as an escape. -/
def escapeUnit (n : Nat) : String := "\\u" ++ hexDigits 4 n

/-- A character inside a string. Above sixteen bits it is written as two units. -/
def escape (c : Char) : String :=
  if c = '"' then "\\\""
  else if c = '\\' then "\\\\"
  else if c = '\n' then "\\n"
  else if c = '\r' then "\\r"
  else if c = '\t' then "\\t"
  else if c = '\x08' then "\\b"
  else if c = '\x0c' then "\\f"
  else if 0x20 ≤ c.toNat ∧ c.toNat ≤ 0x7e then c.toString
  else if c.toNat < 0x10000 then escapeUnit c.toNat
  else
    let n := c.toNat - 0x10000
    escapeUnit (0xd800 + n / 0x400) ++ escapeUnit (0xdc00 + n % 0x400)

def string (s : String) : String := "\"" ++ String.join (s.toList.map escape) ++ "\""

mutual

def render : Json → String
  | null => "null"
  | bool b => if b then "true" else "false"
  | int n => toString n
  | str s => string s
  | arr elements => "[" ++ ", ".intercalate (renderAll elements) ++ "]"
  | obj members => "\x7b" ++ ", ".intercalate (renderMembers members) ++ "\x7d"

def renderAll : List Json → List String
  | [] => []
  | j :: js => j.render :: renderAll js

def renderMembers : List (String × Json) → List String
  | [] => []
  | (k, j) :: rest => (string k ++ ": " ++ j.render) :: renderMembers rest

end

/-- A value that may be missing. -/
def optional {α : Type} (f : α → Json) : Option α → Json
  | none => null
  | some a => f a

end Json

end Ownership
