import FenceSync.Text.Basic
/-!
# TOML values

What a TOML text says. Tables remember how they came about, since that decides what may still be
added to them. Nothing here looks at the value of a number or a moment.
-/
namespace FenceSync.Toml

/-- How a table came about. -/
inductive Origin
  /-- By its own header, or as the whole text. -/
  | header
  /-- By the header of a table inside it. -/
  | implied
  /-- By a dotted key. -/
  | dotted
  /-- Between braces. -/
  | inline
deriving DecidableEq, Repr

inductive Value
  | string (text : Text)
  | boolean (value : Bool)
  /-- An integer or a float; `fits` tells whether it can be held. -/
  | number (fits : Bool)
  /-- A date, a time or both. -/
  | moment
  | array (values : List Value)
  /-- Tables with one header each, the newest first. -/
  | tables (elements : List Value)
  | table (origin : Origin) (entries : List (Text × Value))
deriving Repr

abbrev Entries := List (Text × Value)

abbrev Key := List Text

mutual

/-- Whether every number in the value fits. -/
def Value.isReadable : Value → Bool
  | .number fits => fits
  | .array values | .tables values => allReadable values
  | .table _ entries => entriesReadable entries
  | .string _ | .boolean _ | .moment => true

def allReadable : List Value → Bool
  | [] => true
  | v :: vs => v.isReadable && allReadable vs

def entriesReadable : List (Text × Value) → Bool
  | [] => true
  | (_, v) :: rest => v.isReadable && entriesReadable rest

end

namespace Entries

/-- Puts a value under a key, in place of the one that is there. -/
def put (key : Text) (v : Value) : Entries → Entries
  | [] => [(key, v)]
  | (k, w) :: rest => if k = key then (key, v) :: rest else (k, w) :: put key v rest

end Entries

/-- Changes the table at the end of a way of keys, making the tables that are missing. A way of
dotted keys does not enter a table that has its own header, and one that it enters counts as made by
a dotted key from then on. No way enters a table in braces. -/
def alter (isDotted : Bool) (change : Origin → Entries → Option Entries) :
    Key → Origin → Entries → Option Entries
  | [], origin, entries => change origin entries
  | key :: way, _, entries =>
    match entries.lookup key with
    | none =>
      let origin := if isDotted then .dotted else .implied
      (alter isDotted change way origin []).map fun inner =>
        Entries.put key (.table origin inner) entries
    | some (.table origin inner) =>
      if origin = .inline || (isDotted && origin = .header) then none
      else
        let origin := if isDotted then .dotted else origin
        (alter isDotted change way origin inner).map fun inner =>
          Entries.put key (.table origin inner) entries
    | some (.tables (.table origin inner :: older)) =>
      (alter isDotted change way origin inner).map fun inner =>
        Entries.put key (.tables (.table origin inner :: older)) entries
    | some _ => none

/-- Begins the table of a header. -/
def openTable (key : Text) (_ : Origin) (entries : Entries) : Option Entries :=
  match entries.lookup key with
  | none => some (Entries.put key (.table .header []) entries)
  | some (.table .implied inner) => some (Entries.put key (.table .header inner) entries)
  | some _ => none

/-- Begins the next table of a list of tables. -/
def openElement (key : Text) (_ : Origin) (entries : Entries) : Option Entries :=
  match entries.lookup key with
  | none => some (Entries.put key (.tables [.table .header []]) entries)
  | some (.tables elements) =>
    some (Entries.put key (.tables (.table .header [] :: elements)) entries)
  | some _ => none

/-- Sets a new key in the table that the keys before it lead to. Those must be dotted keys' own. -/
def define (before : Key) (key : Text) (v : Value) : Origin → Entries → Option Entries :=
  alter true
    (fun origin entries =>
      if (origin = .dotted) = before.isEmpty then none
      else if (entries.lookup key).isSome then none
      else some (Entries.put key v entries))
    before

/-- Applies a change at a header. -/
def atHeader (change : Text → Origin → Entries → Option Entries) (header : Key) (root : Entries) :
    Option Entries :=
  match header.getLast? with
  | none => none
  | some key => alter false (change key) header.dropLast .header root

end FenceSync.Toml
