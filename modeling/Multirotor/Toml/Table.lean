/-!
# Tables

A table keeps its entries in the order in which they are made. How a table
came to be decides what may be added to it later: a table between braces is
closed, one that was opened by a header is not opened again, and one that
was made by a dotted key grows by dotted keys only.
-/

namespace Multirotor.Toml

inductive Origin where
  /-- Opened by a header. -/
  | header
  /-- On the way of a header. -/
  | passed
  /-- On the way of a dotted key. -/
  | dotted
  /-- Between braces. -/
  | inline
deriving DecidableEq

inductive Value where
  | text (s : String)
  | integer (n : Int)
  | float (x : Float)
  | boolean (b : Bool)
  /-- A date or a time; which one is not kept. -/
  | moment
  | array (items : List Value)
  | table (origin : Origin) (entries : List (String × Value))
  /-- Tables that headers in double brackets add one by one. -/
  | tables (items : List (List (String × Value)))

abbrev Entries := List (String × Value)

namespace Entries

def set (entries : Entries) (key : String) (value : Value) : Entries :=
  entries.map fun (k, v) => if k == key then (k, value) else (k, v)

def erase (entries : Entries) (key : String) : Entries := entries.filter fun (k, _) => k != key

/-- Changes the table at the end of a path of keys; tables that are missing on the way are made.
A table between braces is closed, and a dotted key does not enter a table with a header; of tables
in an array the last one is meant. -/
def within (via : Origin) (change : Origin → Entries → Option Entries) :
    List String → Origin → Entries → Option Entries
  | [], here, entries => change here entries
  | key :: path, _, entries =>
    match entries.lookup key with
    | none => do return entries ++ [(key, .table via (← within via change path via []))]
    | some (.table origin inner) =>
      if origin = .inline ∨ (via = .dotted ∧ origin = .header) then none
      else do return set entries key (.table origin (← within via change path origin inner))
    | some (.tables items) => do
      let last ← within via change path .header (← items.getLast?)
      return set entries key (.tables (items.dropLast ++ [last]))
    | some _ => none

/-- Gives a value to a dotted key that has none yet. The table it lies in was made by dotted keys
itself if there is more than one part. -/
def assign (path : List String) (key : String) (value : Value) : Origin → Entries → Option Entries :=
  within .dotted (fun here entries =>
    if decide (here = .dotted) = path.isEmpty ∨ (entries.lookup key).isSome then none
    else some (entries ++ [(key, value)])) path

/-- Opens a table by its header. A table that lay on the way of earlier headers is opened once, and
takes the last place. -/
def open? (path : List String) (key : String) (root : Entries) : Option Entries :=
  within .passed (fun _ entries =>
    match entries.lookup key with
    | none => some (entries ++ [(key, .table .header [])])
    | some (.table .passed inner) => some (erase entries key ++ [(key, .table .header inner)])
    | some _ => none) path .header root

def extend? (path : List String) (key : String) (root : Entries) : Option Entries :=
  within .passed (fun _ entries =>
    match entries.lookup key with
    | none => some (entries ++ [(key, .tables [[]])])
    | some (.tables items) => some (set entries key (.tables (items ++ [[]])))
    | some _ => none) path .header root

end Entries

end Multirotor.Toml
