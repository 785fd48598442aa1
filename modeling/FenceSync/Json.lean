import FenceSync.Text.Basic
/-!
# JSON

Values without fractions, and their compact text. Object fields are written in the order given.
-/
namespace FenceSync

inductive Json
  | null
  | boolean (value : Bool)
  | number (value : Nat)
  | string (text : Text)
  | array (elements : List Json)
  | object (fields : List (String × Json))

namespace Json

def hexDigits (n : Nat) : Text :=
  let digits := Nat.toDigits 16 n
  List.replicate (4 - digits.length) '0' ++ digits

/-- A character inside a string. Only quotes, backslashes and control characters are escaped. -/
def escaped (c : Char) : Text :=
  match c with
  | '"' => ['\\', '"']
  | '\\' => ['\\', '\\']
  | '\n' => ['\\', 'n']
  | '\r' => ['\\', 'r']
  | '\t' => ['\\', 't']
  | '\x08' => ['\\', 'b']
  | '\x0c' => ['\\', 'f']
  | c => if c.toNat < 0x20 then ['\\', 'u'] ++ hexDigits c.toNat else [c]

def quoted (t : Text) : Text := '"' :: t.flatMap escaped ++ ['"']

mutual

def render : Json → Text
  | .null => "null".toList
  | .boolean true => "true".toList
  | .boolean false => "false".toList
  | .number n => Text.ofNat n
  | .string t => quoted t
  | .array elements => '[' :: renderElements elements ++ [']']
  | .object fields => '{' :: renderFields fields ++ ['}']

def renderElements : List Json → Text
  | [] => []
  | [j] => render j
  | j :: js => render j ++ ',' :: renderElements js

def renderFields : List (String × Json) → Text
  | [] => []
  | [(key, j)] => quoted key.toList ++ ':' :: render j
  | (key, j) :: fields => quoted key.toList ++ ':' :: render j ++ ',' :: renderFields fields

end

def ofOption {α : Type} (f : α → Json) : Option α → Json
  | none => .null
  | some a => f a

end Json
end FenceSync
