import DocComment.Text.Quoted

/-!
# Annotations

An annotation is a call: the name of a class and the arguments between
parentheses.  A call is a record over the type of its argument values, and an
argument value may again hold a call.
-/

namespace DocComment

/-- An argument of a call. -/
structure Argument (ν : Type) where
  key : Text
  value : ν
  /-- Whether the argument was written without its key. -/
  positional : Bool
deriving DecidableEq, Repr, Inhabited

/-- A named call. -/
structure Call (ν : Type) where
  /-- The full name of the class. -/
  name : Text
  /-- The name as it stands in the payload, if it is not the tag itself. -/
  writtenName : Option Text
  /-- The call as it stood in the comment. -/
  raw : Text
  arguments : List (Argument ν)
  /-- The key configured for positional arguments. -/
  silentKey : Option Text
  /-- Whether parentheses are written even around no arguments. -/
  parenthesised : Bool
deriving DecidableEq, Repr, Inhabited

/-- The value of an argument. -/
inductive ArgumentValue where
  /-- A quoted text, held without its escapes. -/
  | quoted (value : Text) (quote : Char)
  /-- Any other value, as it was written. -/
  | literal (text : Text)
  /-- A call inside the arguments of another one. -/
  | nested (call : Call ArgumentValue)
deriving Repr, Inhabited

/-- An annotation. -/
abbrev Annotation := Call ArgumentValue

namespace Call

variable {ν : Type}

/-- The call of a class without arguments or parentheses. -/
def ofName (name : Text) (silentKey : Option Text) : Call ν :=
  ⟨name, none, [], [], silentKey, false⟩

/-- The key of the first positional argument. -/
def defaultKey (call : Call ν) : Text :=
  call.silentKey.getD "value".toList

/-- The value of the first argument with the given key. -/
def get? (call : Call ν) (key : Text) : Option ν :=
  (call.arguments.find? fun argument => argument.key == key).map Argument.value

/-- Give the first argument with the key a new value, or add such an argument at the end. -/
def setArgument (key : Text) (value : ν) : List (Argument ν) → List (Argument ν)
  | [] => [⟨key, value, false⟩]
  | argument :: arguments =>
      if argument.key = key then { argument with value } :: arguments
      else argument :: setArgument key value arguments

/-- Store a value under a key. -/
def set (call : Call ν) (key : Text) (value : ν) : Call ν :=
  { call with parenthesised := true, arguments := setArgument key value call.arguments }

end Call

namespace ArgumentValue

/-- The text of a value that is not a call. -/
def text? : ArgumentValue → Option Text
  | .quoted value _ => some value
  | .literal text => some text
  | .nested _ => none

/-! ## Written form -/

/-- The parentheses around the written arguments of a call. -/
def parenthesise (parenthesised : Bool) (arguments : List Text) : Text :=
  if !parenthesised && arguments.isEmpty then []
  else '(' :: Text.join [',', ' '] arguments ++ [')']

mutual

/-- The written form of a value. -/
def render : ArgumentValue → Text
  | .quoted value quote => Text.Quoted.encode quote value
  | .literal text => text
  | .nested call => renderCall call

/-- The written form of a call. -/
def renderCall : Call ArgumentValue → Text
  | ⟨_, writtenName, _, arguments, _, parenthesised⟩ =>
      writtenName.getD [] ++ parenthesise parenthesised (renderArguments arguments)

/-- The written forms of arguments. -/
def renderArguments : List (Argument ArgumentValue) → List Text
  | [] => []
  | ⟨key, value, positional⟩ :: arguments =>
      (if positional then render value else key ++ '=' :: render value) ::
        renderArguments arguments

end

/-! ## Equality -/

mutual

/-- Whether two values are the same. -/
def same : ArgumentValue → ArgumentValue → Bool
  | .quoted a quote, .quoted b quote' => a == b && quote == quote'
  | .literal a, .literal b => a == b
  | .nested a, .nested b => sameCall a b
  | _, _ => false

/-- Whether two calls are the same. -/
def sameCall : Call ArgumentValue → Call ArgumentValue → Bool
  | ⟨name, writtenName, raw, as, silentKey, parenthesised⟩,
    ⟨name', writtenName', raw', bs, silentKey', parenthesised'⟩ =>
      name == name' && writtenName == writtenName' && raw == raw' && sameArguments as bs &&
        silentKey == silentKey' && parenthesised == parenthesised'

/-- Whether two lists hold the same arguments. -/
def sameArguments : List (Argument ArgumentValue) → List (Argument ArgumentValue) → Bool
  | [], [] => true
  | ⟨key, a, positional⟩ :: as, ⟨key', b, positional'⟩ :: bs =>
      key == key' && same a b && positional == positional' && sameArguments as bs
  | _, _ => false

end

mutual

theorem same_iff : ∀ a b : ArgumentValue, same a b = true ↔ a = b
  | .quoted _ _, b => by cases b <;> simp [same]
  | .literal _, b => by cases b <;> simp [same]
  | .nested a, b => by cases b <;> simp [same, sameCall_iff a]

theorem sameCall_iff : ∀ a b : Call ArgumentValue, sameCall a b = true ↔ a = b
  | ⟨_, _, _, as, _, _⟩, b => by
      cases b
      simp [sameCall, sameArguments_iff as, and_assoc]

theorem sameArguments_iff :
    ∀ a b : List (Argument ArgumentValue), sameArguments a b = true ↔ a = b
  | [], b => by cases b <;> simp [sameArguments]
  | ⟨_, a, _⟩ :: as, b => by
      cases b with
      | nil => simp [sameArguments]
      | cons b bs =>
          cases b
          simp [sameArguments, same_iff a, sameArguments_iff as, and_assoc]

end

instance : DecidableEq ArgumentValue := fun a b =>
  decidable_of_iff (same a b = true) (same_iff a b)

end ArgumentValue

namespace Call

/-- The written form of an annotation. -/
def render (call : Annotation) : Text :=
  ArgumentValue.renderCall call

end Call

end DocComment
