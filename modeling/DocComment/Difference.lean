import DocComment.Text.Basic

/-!
# Differences

The difference of two lists as a shortest script of deletions and insertions.
The table holds, for every pair of suffixes, the length of a longest common
sublist; the script follows it from the front and deletes before it inserts.
-/

namespace DocComment

namespace Difference

/-- A step of a script. -/
inductive Change (α : Type) where
  | keep (item : α)
  | delete (item : α)
  | insert (item : α)
deriving DecidableEq, Repr

variable {α : Type} [DecidableEq α]

/-- The row of a table for an item in front of the suffix that the row below belongs to. -/
def row (item : α) : List α → List Nat → List Nat
  | other :: others, below :: belows =>
      let right := row item others belows
      let length := if item = other then belows.headD 0 + 1 else max below (right.headD 0)
      length :: right
  | _, _ => [0]

/-- The rows for all suffixes of a list, the row of the whole list first. -/
def table : List α → List α → List (List Nat)
  | [], second => [List.replicate (second.length + 1) 0]
  | item :: first, second =>
      let rows := table first second
      row item second (rows.headD []) :: rows

/--
The script from one list to another.  The rows belong to the suffixes of the
first list, and every row starts where the second list does.
-/
def script : Nat → List α → List α → List (List Nat) → List (Change α)
  | 0, _, _, _ => []
  | _ + 1, [], second, _ => second.map .insert
  | _ + 1, first, [], _ => first.map .delete
  | bound + 1, item :: first, other :: second, rows =>
      if item = other then
        .keep item :: script bound first second (rows.tail.map List.tail)
      else if ((rows.headD []).tail.headD 0) ≤ ((rows.tail.headD []).headD 0) then
        .delete item :: script bound first (other :: second) rows.tail
      else .insert other :: script bound (item :: first) second (rows.map List.tail)

/-- A shortest script from one list to another. -/
def between (first second : List α) : List (Change α) :=
  script (first.length + second.length + 1) first second (table first second)

/-! ## Lines -/

/-- The lines of a text, each with the line break that ends it. -/
def linesOf : Text → List Text
  | [] => []
  | '\r' :: '\n' :: rest => ['\r', '\n'] :: linesOf rest
  | c :: rest =>
      if c = '\n' || c = '\r' then [c] :: linesOf rest
      else
        match linesOf rest with
        | [] => [[c]]
        | line :: lines => (c :: line) :: lines

/-- The written form of a step between lines. -/
def Change.renderLine (change : Change Text) : Text :=
  let (mark, line) := match change with
    | .keep line => (' ', line)
    | .delete line => ('-', line)
    | .insert line => ('+', line)
  mark :: (if line.getLast? = some '\n' then line.dropLast else line) ++ ['\n']

/-- The difference of two texts, one line for each of their lines. -/
def render (first second : Text) : Text :=
  (between (linesOf first) (linesOf second)).flatMap Change.renderLine

end Difference

end DocComment
