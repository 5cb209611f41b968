import DocComment.Read
import DocComment.Token.Scan
import DocComment.TypeExpr.Basic

/-!
# Reading type expressions

The grammar of types.  Only `atom` calls itself; it does so behind at least
one token, so the count of the remaining tokens bounds its depth.  All other
parts of the grammar take the reader of atoms as a parameter.

A union or an intersection holds postfix types, a postfix type is an atom with
bracket pairs, and an atom is a name, a literal, a nullable atom or a type in
parentheses.
-/

namespace DocComment

namespace TypeExpr

namespace Grammar

/-! ## Postfix types, unions and intersections -/

/-- Whether a pair of square brackets stands here, glued to what is in front. -/
def isAtBrackets (cursor : Cursor) : Bool :=
  cursor.isAt .squareOpen && !cursor.isAfterPadding && cursor.nextKind? == some .squareClose

/-- Take bracket pairs, each of which makes the type an array. -/
def brackets : Nat → TypeExpr → Read TypeExpr
  | 0, type => return type
  | bound + 1, type => do
      if isAtBrackets (← get) then
        Read.step
        Read.advance
        brackets bound (.array type)
      else return type

/-- An atom with the bracket pairs behind it. -/
def postfixType (atom : Read TypeExpr) : Read TypeExpr := do
  let type ← atom
  brackets (← get).rest.length type

/--
Whether an ampersand joins two types here.  In front of a variable, an
ellipsis or the end it marks a parameter that is passed by reference.
-/
def isAtIntersection (cursor : Cursor) : Bool :=
  cursor.isAt .ampersand &&
    match cursor.advance.kind? with
    | none | some .varName | some .ellipsis => false
    | _ => true

/-- Take an ampersand that joins two types, and tell whether one did. -/
def acceptIntersection : Read Bool := do
  if isAtIntersection (← get) then
    Read.advance
    return true
  else return false

/-- A whole type. -/
def typeWith (atom : Read TypeExpr) : Read TypeExpr := do
  let first ← postfixType atom
  if (← get).isAt .bar then
    return .union (first :: (← Read.allFurther (Read.accept .bar) (postfixType atom)))
  else if isAtIntersection (← get) then
    return .intersection (first :: (← Read.allFurther acceptIntersection (postfixType atom)))
  else return first

/-! ## Callables and shapes -/

/-- The names that may open the signature of a callable. -/
def isCallableName (name : Text) : Bool :=
  let lower := Text.lowerAscii name
  lower == "callable".toList || lower == "closure".toList || lower == "\\closure".toList ||
    lower == "pure-callable".toList

/-- The names that may open a shape. -/
def isShapeName (name : Text) : Bool :=
  let lower := Text.lowerAscii name
  lower == "array".toList || lower == "list".toList || lower == "object".toList

/-- Take a variable, if one stands here. -/
def acceptVariable : Read (Option Text) := do
  if (← get).isAt .varName then
    return some (← Read.takeText)
  else return none

/-- A parameter of a callable. -/
def callableParam (type : Read TypeExpr) : Read (CallableParam TypeExpr) := do
  let type ← type
  let byReference ← Read.accept .ampersand
  let variadic ← Read.accept .ellipsis
  let name ← acceptVariable
  return ⟨type, byReference, variadic, name⟩

/-- The parameters of a callable. -/
def callableParams (type : Read TypeExpr) : Read (List (CallableParam TypeExpr)) := do
  if (← get).isAt .roundClose then
    return []
  else
    let first ← callableParam type
    return first :: (← Read.allFurther (Read.accept .comma) (callableParam type))

/-- Whether a key with its colon stands here. -/
def isAtKey (cursor : Cursor) : Bool :=
  (match cursor.kind? with
    | some .name | some .quoted | some .number => true
    | _ => false) &&
    (cursor.advance.accept .question).isAt .colon

/-- An item of a shape. -/
def shapeItem (type : Read TypeExpr) : Read (ShapeItem TypeExpr) := do
  if isAtKey (← get) then
    let key ← Read.takeText
    let optional ← Read.accept .question
    let _ ← Read.expect .colon
    let value ← type
    return ⟨some key, optional, value⟩
  else
    let value ← type
    return ⟨none, false, value⟩

/-- The items of a shape; a comma may stand behind the last one. -/
def shapeItems (type : Read TypeExpr) : Nat → Read (List (ShapeItem TypeExpr))
  | 0 => return []
  | bound + 1 => do
      let cursor ← get
      if cursor.isAt .curlyClose || cursor.isAtEnd then
        return []
      else
        let item ← shapeItem type
        if ← Read.accept .comma then
          return item :: (← shapeItems type bound)
        else return [item]

/-! ## Atoms -/

/-- A type that starts with a name. -/
def namedType (atom : Read TypeExpr) : Read TypeExpr := do
  let name := (← get).text
  Read.step
  let cursor ← get
  if cursor.isAt .angleOpen then
    Read.advance
    let first ← typeWith atom
    let others ← Read.allFurther (Read.accept .comma) (typeWith atom)
    let _ ← Read.expect .angleClose
    return .generic name (first :: others)
  else if cursor.isAt .roundOpen && isCallableName name then
    Read.advance
    let params ← callableParams (typeWith atom)
    let _ ← Read.expect .roundClose
    let _ ← Read.expect .colon
    let result ← postfixType atom
    return .callable name params result
  else if cursor.isAt .curlyOpen && isShapeName name then
    Read.advance
    let items ← shapeItems (typeWith atom) (cursor.rest.length + 1)
    let _ ← Read.expect .curlyClose
    return .shape name items
  else
    Read.move Cursor.skipPadding
    return .named name

/-- The variable that stands for the type of the object itself. -/
def selfVariable : Text :=
  "$this".toList

/-- An atom, read to the given depth. -/
def atom : Nat → Read TypeExpr
  | 0 => Read.failExpecting .name
  | depth + 1 => do
      let cursor ← get
      match cursor.kind? with
      | some .question =>
          Read.advance
          return .nullable (← atom depth)
      | some .roundOpen =>
          Read.advance
          let inner ← typeWith (atom depth)
          let _ ← Read.expect .roundClose
          return inner
      | some .quoted | some .number => return .constant (← Read.takeText)
      | some .varName =>
          if cursor.text = selfVariable then return .named (← Read.takeText)
          else Read.failExpecting .name
      | some .name => namedType (atom depth)
      | _ => Read.failExpecting .name

end Grammar

/-- Read a type at the cursor. -/
def read : Read TypeExpr := do
  Grammar.typeWith (Grammar.atom ((← get).rest.length + 1))

/-- A type and nothing behind it. -/
def readWhole : Read TypeExpr := do
  let type ← read
  if (← get).isAtEnd then return type
  else Read.failExpecting .lineBreak

/-- The type that a text describes. -/
def ofText (text : Text) : Except Failure TypeExpr :=
  readWhole.valueAt (Cursor.ofTokens (Token.scan text))

end TypeExpr

end DocComment
