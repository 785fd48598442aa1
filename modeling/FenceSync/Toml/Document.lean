import FenceSync.Toml.Quoted
import FenceSync.Toml.Scalar
/-!
# TOML texts

A text is a sequence of lines with a setting or a header. `parse` answers `none` for a text that is
no TOML; what exactly is wrong with it is not said. Arrays and tables in braces may lie in each
other `depthLimit` deep, and a key may have as many parts.
-/
namespace FenceSync.Toml

def depthLimit : Nat := 80

def skipBlanks (t : Text) : Text := t.dropWhile Text.isIndent

/-- The rest after a comment that begins here, up to the end of its line; the text itself when no
comment begins here. -/
def skipComment? (t : Text) : Option Text :=
  match t with
  | '#' :: t =>
    let rest := t.dropWhile fun c => !isControl c
    match rest with
    | [] | '\n' :: _ | '\r' :: '\n' :: _ => some rest
    | _ => none
  | t => some t

/-- The rest after the end of a line. -/
def lineEnd? (t : Text) : Option Text :=
  match skipComment? (skipBlanks t) with
  | some [] => some []
  | some ('\n' :: t) | some ('\r' :: '\n' :: t) => some t
  | _ => none

/-- The rest after blanks, comments and line endings. -/
def skipLines? (t : Text) : Option Text :=
  match skipComment? (skipBlanks t) with
  | some ('\n' :: rest) | some ('\r' :: '\n' :: rest) =>
    if _shorter : rest.length < t.length then skipLines? rest else none
  | other => other
termination_by t.length

def isBareChar (c : Char) : Bool := c.isAlphanum || c = '_' || c = '-'

/-- One part of a key. -/
def keyPart? (t : Text) : Option (Text × Text) :=
  match t with
  | '"' :: t => basicString? t
  | '\'' :: t => literalString? t
  | t =>
    let word := t.takeWhile isBareChar
    if word.isEmpty then none else some (word, t.dropWhile isBareChar)

/-- The parts of a key, which dots divide, with blanks around each. -/
def keyParts? (t : Text) : Option (Key × Text) :=
  match keyPart? (skipBlanks t) with
  | none => none
  | some (part, rest) =>
    match skipBlanks rest with
    | '.' :: rest =>
      if _shorter : rest.length < t.length then
        (keyParts? rest).map fun (key, r) => (part :: key, r)
      else none
    | rest => some ([part], rest)
termination_by t.length

def key? (t : Text) : Option (Key × Text) :=
  (keyParts? t).filter fun (key, _) => key.length ≤ depthLimit

/-- The values of an array after its opening bracket. -/
def elements? (value? : Text → Option (Value × Text)) (t : Text) : Option (List Value × Text) :=
  match skipLines? t with
  | none => none
  | some (']' :: rest) => some ([], rest)
  | some t' =>
    match value? t' with
    | none => none
    | some (v, rest) =>
      match skipLines? rest with
      | some (']' :: rest) => some ([v], rest)
      | some (',' :: rest) =>
        if _shorter : rest.length < t.length then
          (elements? value? rest).map fun (vs, r) => (v :: vs, r)
        else none
      | _ => none
termination_by t.length

/-- A setting: a key, an equals sign and a value; `skip?` passes over what may lie between them. -/
def setting? (skip? : Text → Option Text) (value? : Text → Option (Value × Text)) (t : Text) :
    Option (Key × Value × Text) :=
  (key? t).bind fun (key, rest) =>
    match skip? rest with
    | some ('=' :: rest) => ((skip? rest).bind value?).map fun (v, rest) => (key, v, rest)
    | _ => none

/-- Adds a setting to a table. -/
def define? (key : Key) (v : Value) (origin : Origin) (entries : Entries) : Option Entries :=
  key.getLast?.bind fun last => define key.dropLast last v origin entries

/-- The settings of a table in braces after the opening one. -/
def settings? (value? : Text → Option (Value × Text)) (entries : Entries) (t : Text) :
    Option (Entries × Text) :=
  match skipLines? t with
  | none => none
  | some ('}' :: rest) => some (entries, rest)
  | some t' =>
    match setting? skipLines? value? t' with
    | none => none
    | some (key, v, rest) =>
      match define? key v .inline entries, skipLines? rest with
      | some entries, some ('}' :: rest) => some (entries, rest)
      | some entries, some (',' :: rest) =>
        if _shorter : rest.length < t.length then settings? value? entries rest else none
      | _, _ => none
termination_by t.length

/-- A value in which arrays and tables lie at most `depth` deep. -/
def value? : Nat → Text → Option (Value × Text)
  | 0, t =>
    match t with
    | '"' :: _ | '\'' :: _ => (string? t).map fun (s, r) => (.string s, r)
    | _ => scalar? t
  | depth + 1, t =>
    match t with
    | '"' :: _ | '\'' :: _ => (string? t).map fun (s, r) => (.string s, r)
    | '[' :: t => (elements? (value? depth) t).map fun (vs, r) => (.array vs, r)
    | '{' :: t => (settings? (value? depth) [] t).map fun (es, r) => (.table .inline es, r)
    | _ => scalar? t

/-- A text that has been read in part. -/
structure Reading where
  root : Entries
  /-- The table that settings belong to. -/
  header : Key

/-- Reads a header or a setting, without the end of its line. -/
def line? (r : Reading) (t : Text) : Option (Reading × Text) :=
  match t with
  | '[' :: '[' :: t =>
    match key? t with
    | some (key, ']' :: ']' :: rest) =>
      (atHeader openElement key r.root).map fun root => (⟨root, key⟩, rest)
    | _ => none
  | '[' :: t =>
    match key? t with
    | some (key, ']' :: rest) =>
      (atHeader openTable key r.root).map fun root => (⟨root, key⟩, rest)
    | _ => none
  | t =>
    match setting? (fun t => some (skipBlanks t)) (value? depthLimit) t with
    | some (key, v, rest) =>
      (alter false (define? key v) r.header .header r.root).map fun root => (⟨root, r.header⟩, rest)
    | none => none

def readLines? (r : Reading) (t : Text) : Option Entries :=
  match skipLines? t with
  | none => none
  | some [] => some r.root
  | some t' =>
    match line? r t' with
    | none => none
    | some (r, rest) =>
      match lineEnd? rest with
      | none => none
      | some rest => if _shorter : rest.length < t.length then readLines? r rest else none
termination_by t.length

/-- Reads a text, with or without a byte order mark. -/
def parse (t : Text) : Option Entries := readLines? ⟨[], []⟩ (Text.dropStart ['\uFEFF'] t)

end FenceSync.Toml
