import DocComment.Toml.Moment
import DocComment.Toml.Number

/-!
# TOML values

Values and the tables that hold them.  A table remembers how it came to be,
because that decides what may still be added to it: a table is defined once,
by its header or by dotted keys, and an inline table is complete as it stands.
-/

namespace DocComment

namespace Toml

/-- How a table came to be. -/
inductive Origin where
  /-- It was written between braces. -/
  | inline
  /-- It has a header of its own. -/
  | header
  /-- It stands in front of another one in a header. -/
  | path
  /-- It stands in front of a dot in a key. -/
  | dotted
deriving DecidableEq, Repr

/-- A value. -/
inductive Value where
  | string (text : Text)
  | number (number : Number)
  | moment (moment : Moment)
  | boolean (value : Bool)
  /-- A list; one that headers have made can grow. -/
  | array (grows : Bool) (items : List Value)
  | table (origin : Origin) (entries : List (Text × Value))
deriving Repr, Inhabited

/-- The entries of a table in their order. -/
abbrev Entries := List (Text × Value)

namespace Value

/-- The value that a word means, if it means anything. -/
def ofWord? (word : Text) : Option Value :=
  if word == "true".toList then some (.boolean true)
  else if word == "false".toList then some (.boolean false)
  else
    match Number.ofWord? word with
    | some n => some (.number n)
    | none => (Moment.ofWord? word).map .moment

mutual

/-- Whether every number in a value can be held. -/
def isBounded : Value → Bool
  | .number n => n.isBounded
  | .array _ items => areBounded items
  | .table _ entries => haveBounds entries
  | .string _ | .moment _ | .boolean _ => true

/-- Whether every number in a list of values can be held. -/
def areBounded : List Value → Bool
  | [] => true
  | value :: values => isBounded value && areBounded values

/-- Whether every number in the entries of a table can be held. -/
def haveBounds : List (Text × Value) → Bool
  | [] => true
  | (_, value) :: entries => isBounded value && haveBounds entries

end

end Value

namespace Entries

/-- The entry of a key. -/
def get? (entries : Entries) (key : Text) : Option Value :=
  List.lookup key entries

/-- Add an entry at the end. -/
def add (entries : Entries) (key : Text) (value : Value) : Entries :=
  entries ++ [(key, value)]

/-- Give a key that is there another value. -/
def put (entries : Entries) (key : Text) (value : Value) : Entries :=
  entries.map fun entry => if entry.1 = key then (key, value) else entry

/--
Change the table at the end of a path.  Tables that are missing on the way
arise with the given origin.  A path leads into the last item of a list that
can grow, but into no inline table, and a dotted path into no table that has
a header of its own.  A dotted path defines the tables that it leads into.
-/
def changeAt (arising : Origin) (change : Origin → Entries → Option Entries) :
    List Text → Origin → Entries → Option Entries
  | [], origin, entries => change origin entries
  | key :: path, _, entries =>
      match get? entries key with
      | none => do
          let inner ← changeAt arising change path arising []
          return entries.add key (.table arising inner)
      | some (.table origin inner) =>
          if origin = .inline ∨ (arising = .dotted ∧ origin = .header) then none
          else do
            let reached := if arising = .dotted then .dotted else origin
            let inner ← changeAt arising change path reached inner
            return entries.put key (.table reached inner)
      | some (.array true items) =>
          match items.getLast? with
          | some (.table origin inner) => do
              let inner ← changeAt arising change path origin inner
              return entries.put key (.array true (items.dropLast ++ [.table origin inner]))
          | _ => none
      | some _ => none

/-- Split a path into its last key and those in front of it. -/
def splitPath (path : List Text) : Option (List Text × Text) :=
  path.getLast?.map fun key => (path.dropLast, key)

/-- Set the value of a dotted key, which must not have one. -/
def assign (path : List Text) (value : Value) (origin : Origin) (entries : Entries) :
    Option Entries := do
  let (parents, key) ← splitPath path
  let set (reached : Origin) (inner : Entries) : Option Entries :=
    if (reached == .dotted) == parents.isEmpty then none
    else if (inner.get? key).isSome then none
    else some (inner.add key value)
  changeAt .dotted set parents origin entries

/-- Set a value in the table with the given header. -/
def assignIn (table path : List Text) (value : Value) (entries : Entries) : Option Entries :=
  changeAt .path (assign path value) table .header entries

/-- Open the table with the given header, which must not have had one. -/
def openTable (path : List Text) (entries : Entries) : Option Entries := do
  let (parents, key) ← splitPath path
  let start (_ : Origin) (inner : Entries) : Option Entries :=
    match inner.get? key with
    | none => some (inner.add key (.table .header []))
    | some (.table .path known) => some (inner.put key (.table .header known))
    | some _ => none
  changeAt .path start parents .header entries

/-- Open a further item of the list with the given header. -/
def openItem (path : List Text) (entries : Entries) : Option Entries := do
  let (parents, key) ← splitPath path
  let start (_ : Origin) (inner : Entries) : Option Entries :=
    match inner.get? key with
    | none => some (inner.add key (.array true [.table .header []]))
    | some (.array true items) => some (inner.put key (.array true (items ++ [.table .header []])))
    | some _ => none
  changeAt .path start parents .header entries

end Entries

end Toml

end DocComment
