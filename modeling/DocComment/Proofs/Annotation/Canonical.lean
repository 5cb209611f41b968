import DocComment.Proofs.Annotation.Rules
import DocComment.Proofs.Text.Quoted
import DocComment.Proofs.Token.OneLine

/-!
# Canonical annotations

The values of arguments whose written form is read as the same value (`ArgumentValue.IsCanonical`).
A value has the shape that its first token announces, a positional value is not taken for one with a
key, and keys and full names are those that reading gives at that place.  Only the texts that calls
were read from are left out of account (`ArgumentValue.withoutRaw`).
-/

namespace DocComment

open Token

namespace ArgumentValue

/-! ## Texts that calls were read from -/

mutual

/-- The value without the texts that its calls were read from. -/
def withoutRaw : ArgumentValue → ArgumentValue
  | .quoted value quote => .quoted value quote
  | .literal text => .literal text
  | .nested call => .nested (callWithoutRaw call)

/-- The call without the texts that it and the calls in it were read from. -/
def callWithoutRaw : Call ArgumentValue → Call ArgumentValue
  | ⟨name, writtenName, _, arguments, silentKey, parenthesised⟩ =>
      ⟨name, writtenName, [], argumentsWithoutRaw arguments, silentKey, parenthesised⟩

/-- The arguments without the texts that their calls were read from. -/
def argumentsWithoutRaw : List (Argument ArgumentValue) → List (Argument ArgumentValue)
  | [] => []
  | ⟨key, value, positional⟩ :: arguments => ⟨key, withoutRaw value, positional⟩ :: argumentsWithoutRaw arguments

end

theorem callWithoutRaw_eq (call : Annotation) :
    callWithoutRaw call =
      { call with raw := [], arguments := argumentsWithoutRaw call.arguments } := by
  obtain ⟨_, _, _, _, _, _⟩ := call
  rw [callWithoutRaw]

theorem argumentsWithoutRaw_append (before others : List (Argument ArgumentValue)) :
    argumentsWithoutRaw (before ++ others) =
      argumentsWithoutRaw before ++ argumentsWithoutRaw others := by
  induction before with
  | nil => rfl
  | cons argument before ih =>
      obtain ⟨key, value, positional⟩ := argument
      simp [argumentsWithoutRaw, ih]

open Annotation Grammar

/-! ## Canonical values -/

/-- The quote around a value is one token that is read as the value. -/
structure IsQuote (value : Text) (quote : Char) : Prop where
  sole : isSole .quoted (Text.Quoted.encode quote value) = true
  decoded : Text.Quoted.decode (Text.Quoted.encode quote value) = value

/-- A text that is read as a literal, in front of whatever ends its argument. -/
structure IsLiteral (text : Text) : Prop where
  trimmed : Text.trim text = text
  unbroken : '\n' ∉ text
  quoteless : Quoteless (scan text)
  closed : depthBehindAll? 0 (scan text) = some 0
  unquoted : firstKind? text ≠ some .quoted
  uncalled : Grammar.opensCall (scan text) = false

/-- How the name of a nested call is written: as a tag, or as a name if parentheses
stand behind it. -/
def IsCallName (parenthesised : Bool) (written : Text) : Prop :=
  let kinds := (scan written).map Token.kind
  kinds = [.tag] ∨ kinds = [.tag, .name] ∨ kinds = [.name] ∧ parenthesised = true

/-- Whether an argument with this value and without a key could not be read as one. -/
def needsKey : ArgumentValue → Bool
  | .literal text => text.isEmpty || Grammar.opensKey (scan text)
  | _ => false

mutual

/-- A value that its written form stands for, but for the texts that its calls were read from. -/
inductive IsCanonical (naming : Naming) : ArgumentValue → Prop where
  | quoted {value : Text} {quote : Char} (isQuote : IsQuote value quote) : IsCanonical naming (.quoted value quote)
  | literal {text : Text} (isLiteral : IsLiteral text) : IsCanonical naming (.literal text)
  | nested {call : Annotation} {written : Text} (named : call.writtenName = some written)
      (isName : IsCallName call.parenthesised written) (isCall : IsCall naming (fullName naming written) call) :
      IsCanonical naming (.nested call)

/-- A call of the class of the given name, however its name is written. -/
inductive IsCall (naming : Naming) : Text → Annotation → Prop where
  | bare {name raw : Text} {written : Option Text} :
      IsCall naming name { naming.callOf name with writtenName := written, raw }
  | parenthesised {name raw : Text} {written : Option Text} {arguments : List (Argument ArgumentValue)}
      (canonical : AreCanonical naming (naming.callOf name).defaultKey [] arguments) :
      IsCall naming name { naming.callOf name with writtenName := written, raw, arguments, parenthesised := true }

/-- Arguments of a call, with its default key, behind the given ones. -/
inductive AreCanonical (naming : Naming) : Text → List (Argument ArgumentValue) → List (Argument ArgumentValue) → Prop where
  | nil {defaultKey : Text} {before : List (Argument ArgumentValue)} : AreCanonical naming defaultKey before []
  | keyed {defaultKey key : Text} {value : ArgumentValue} {before others : List (Argument ArgumentValue)}
      (sole : isSole .name key = true) (canonical : IsCanonical naming value)
      (later : AreCanonical naming defaultKey (before ++ [⟨key, value, false⟩]) others) :
      AreCanonical naming defaultKey before (⟨key, value, false⟩ :: others)
  | positional {defaultKey : Text} {value : ArgumentValue} {before others : List (Argument ArgumentValue)}
      (keyless : value.needsKey = false) (canonical : IsCanonical naming value)
      (later : AreCanonical naming defaultKey (before ++ [⟨positionalKey defaultKey before, value, true⟩]) others) :
      AreCanonical naming defaultKey before (⟨positionalKey defaultKey before, value, true⟩ :: others)

end

theorem IsCall.rename {naming : Naming} {name raw : Text} {written : Option Text}
    {call : Annotation} (isCall : IsCall naming name call) :
    IsCall naming name { call with writtenName := written, raw } := by
  cases isCall with
  | bare => exact .bare
  | parenthesised canonical => exact .parenthesised canonical

end ArgumentValue

/-- An annotation that its written form, as a payload, stands for. -/
structure Annotation.IsPayload (naming : Naming) (name : Text) (written : Annotation) : Prop where
  isCall : ArgumentValue.IsCall naming name written
  named : ∀ text, written.writtenName = some text → isSole .name text = true ∧ written.parenthesised = true

end DocComment
