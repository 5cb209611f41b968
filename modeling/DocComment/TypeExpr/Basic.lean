import DocComment.Text.Basic

/-!
# Type expressions

The types that a tag may carry, as trees, and their written form.  The
parameters of a callable and the items of a shape are records over the type of
their members, so that lists of them are plain lists.
-/

namespace DocComment

/-- A parameter of a callable type. -/
structure CallableParam (τ : Type) where
  type : τ
  byReference : Bool
  variadic : Bool
  name : Option Text
deriving DecidableEq, Repr

/-- An item of a shape type. -/
structure ShapeItem (τ : Type) where
  key : Option Text
  optional : Bool
  value : τ
deriving DecidableEq, Repr

/-- A type expression. -/
inductive TypeExpr where
  /-- A named type, or the variable that stands for the object itself. -/
  | named (text : Text)
  /-- A literal used as a type. -/
  | constant (text : Text)
  | nullable (inner : TypeExpr)
  | union (members : List TypeExpr)
  | intersection (members : List TypeExpr)
  | array (element : TypeExpr)
  | generic (base : Text) (arguments : List TypeExpr)
  | callable (name : Text) (params : List (CallableParam TypeExpr)) (result : TypeExpr)
  | shape (name : Text) (items : List (ShapeItem TypeExpr))
deriving Repr, Inhabited

namespace TypeExpr

/-! ## Written form -/

/-- Whether the type stands in parentheses when brackets follow it. -/
def isCompound : TypeExpr → Bool
  | .union _ | .intersection _ | .nullable _ | .callable .. => true
  | _ => false

/-- The reference mark, the ellipsis and the name of a callable's parameter. -/
def markersOf (byReference variadic : Bool) (name : Option Text) : Text :=
  (if byReference || variadic || name.isSome then [' '] else []) ++
    (if byReference then ['&'] else []) ++
    (if variadic then ['.', '.', '.'] else []) ++
    name.getD []

/-- The key of a shape item with the mark of an optional one. -/
def keyOf (key : Option Text) (optional : Bool) : Text :=
  match key with
  | none => []
  | some key => key ++ (if optional then ['?'] else []) ++ [':', ' ']

mutual

/-- The written form of a type. -/
def render : TypeExpr → Text
  | .named text => text
  | .constant text => text
  | .nullable inner => '?' :: render inner
  | .union members => Text.join ['|'] (renderAll members)
  | .intersection members => Text.join ['&'] (renderAll members)
  | .array element =>
      if element.isCompound then '(' :: render element ++ [')', '[', ']']
      else render element ++ ['[', ']']
  | .generic base arguments =>
      base ++ ['<'] ++ Text.join [',', ' '] (renderAll arguments) ++ ['>']
  | .callable name params result =>
      name ++ ['('] ++ Text.join [',', ' '] (renderParams params) ++ [')', ':', ' '] ++ render result
  | .shape name items =>
      name ++ ['{'] ++ Text.join [',', ' '] (renderItems items) ++ ['}']

/-- The written forms of several types. -/
def renderAll : List TypeExpr → List Text
  | [] => []
  | type :: types => render type :: renderAll types

/-- The written forms of a callable's parameters. -/
def renderParams : List (CallableParam TypeExpr) → List Text
  | [] => []
  | ⟨type, byReference, variadic, name⟩ :: params =>
      (render type ++ markersOf byReference variadic name) :: renderParams params

/-- The written forms of a shape's items. -/
def renderItems : List (ShapeItem TypeExpr) → List Text
  | [] => []
  | ⟨key, optional, value⟩ :: items => (keyOf key optional ++ render value) :: renderItems items

end

/-! ## Equality -/

mutual

/-- Whether two types are the same tree. -/
def same : TypeExpr → TypeExpr → Bool
  | .named a, .named b => a == b
  | .constant a, .constant b => a == b
  | .nullable a, .nullable b => same a b
  | .union a, .union b => sameAll a b
  | .intersection a, .intersection b => sameAll a b
  | .array a, .array b => same a b
  | .generic base a, .generic base' b => base == base' && sameAll a b
  | .callable name a result, .callable name' b result' =>
      name == name' && sameParams a b && same result result'
  | .shape name a, .shape name' b => name == name' && sameItems a b
  | _, _ => false

/-- Whether two lists hold the same types. -/
def sameAll : List TypeExpr → List TypeExpr → Bool
  | [], [] => true
  | a :: as, b :: bs => same a b && sameAll as bs
  | _, _ => false

/-- Whether two lists hold the same parameters. -/
def sameParams : List (CallableParam TypeExpr) → List (CallableParam TypeExpr) → Bool
  | [], [] => true
  | ⟨a, reference, variadic, name⟩ :: as, ⟨b, reference', variadic', name'⟩ :: bs =>
      same a b && reference == reference' && variadic == variadic' && name == name' &&
        sameParams as bs
  | _, _ => false

/-- Whether two lists hold the same items. -/
def sameItems : List (ShapeItem TypeExpr) → List (ShapeItem TypeExpr) → Bool
  | [], [] => true
  | ⟨key, optional, a⟩ :: as, ⟨key', optional', b⟩ :: bs =>
      key == key' && optional == optional' && same a b && sameItems as bs
  | _, _ => false

end

mutual

theorem same_iff : ∀ a b : TypeExpr, same a b = true ↔ a = b
  | .named _, b => by cases b <;> simp [same]
  | .constant _, b => by cases b <;> simp [same]
  | .nullable a, b => by
      cases b <;> simp [same]
      exact same_iff a _
  | .union a, b => by
      cases b <;> simp [same]
      exact sameAll_iff a _
  | .intersection a, b => by
      cases b <;> simp [same]
      exact sameAll_iff a _
  | .array a, b => by
      cases b <;> simp [same]
      exact same_iff a _
  | .generic _ a, b => by
      cases b <;> simp [same]
      intro _
      exact sameAll_iff a _
  | .callable _ a result, b => by
      cases b <;> simp [same, sameParams_iff a, same_iff result, and_assoc]
  | .shape _ a, b => by
      cases b <;> simp [same]
      intro _
      exact sameItems_iff a _

theorem sameAll_iff : ∀ a b : List TypeExpr, sameAll a b = true ↔ a = b
  | [], b => by cases b <;> simp [sameAll]
  | a :: as, b => by cases b <;> simp [sameAll, same_iff a, sameAll_iff as]

theorem sameParams_iff :
    ∀ a b : List (CallableParam TypeExpr), sameParams a b = true ↔ a = b
  | [], b => by cases b <;> simp [sameParams]
  | ⟨a, _, _, _⟩ :: as, b => by
      cases b with
      | nil => simp [sameParams]
      | cons b bs =>
          cases b
          simp [sameParams, same_iff a, sameParams_iff as, and_assoc]

theorem sameItems_iff :
    ∀ a b : List (ShapeItem TypeExpr), sameItems a b = true ↔ a = b
  | [], b => by cases b <;> simp [sameItems]
  | ⟨_, _, a⟩ :: as, b => by
      cases b with
      | nil => simp [sameItems]
      | cons b bs =>
          cases b
          simp [sameItems, same_iff a, sameItems_iff as, and_assoc]

end

instance : DecidableEq TypeExpr := fun a b =>
  decidable_of_iff (same a b = true) (same_iff a b)

end TypeExpr

end DocComment
