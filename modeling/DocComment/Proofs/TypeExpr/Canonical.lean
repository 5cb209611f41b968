import DocComment.Proofs.Reading.Taking
import DocComment.TypeExpr.Reader

/-!
# Canonical types

The types whose written form is read as the same type.  Each name is one token, lists that the
grammar cannot write are excluded, and so are the members that another
nesting would be read from.  The first token of a written canonical type tells
that a type begins there (`opensType_render`), and never that a key of a shape does
(`isAtKey_eq_false`).
-/

namespace DocComment

open Token

namespace TypeExpr

/-- Whether the type joins several ones. -/
def isJoined : TypeExpr → Bool
  | .union _ | .intersection _ => true
  | _ => false

/-- Whether the type is an array of another one. -/
def isArray : TypeExpr → Bool
  | .array _ => true
  | _ => false

/-- Whether a text is written as the key of a shape item. -/
def isKey (text : Text) : Bool :=
  isSole .name text || isSole .quoted text || isSole .number text

mutual

/-- Whether a type is one that its written form stands for. -/
def isCanonical : TypeExpr → Bool
  | .named text => text == Grammar.selfVariable || isSole .name text
  | .constant text => isSole .quoted text || isSole .number text
  | .nullable inner => !inner.isJoined && !inner.isArray && isCanonical inner
  | .union members => 2 ≤ members.length && !members.any isJoined && areCanonical members
  | .intersection members =>
      2 ≤ members.length && !members.any isJoined && areCanonical members &&
        members.tail.all fun member => member.render.head? != some '$'
  | .array element => isCanonical element
  | .generic base arguments => isSole .name base && !arguments.isEmpty && areCanonical arguments
  | .callable name params result =>
      Grammar.isCallableName name && paramsAreCanonical params && !result.isJoined &&
        isCanonical result
  | .shape name items => Grammar.isShapeName name && itemsAreCanonical items

/-- Whether all types of a list are canonical. -/
def areCanonical : List TypeExpr → Bool
  | [] => true
  | type :: types => isCanonical type && areCanonical types

/-- Whether all parameters are canonical; one that is passed by reference is variadic or named. -/
def paramsAreCanonical : List (CallableParam TypeExpr) → Bool
  | [] => true
  | ⟨type, byReference, variadic, name⟩ :: params =>
      isCanonical type && name.all (isSole .varName) && (!byReference || variadic || name.isSome) &&
        paramsAreCanonical params

/-- Whether all items are canonical; an optional one has a key. -/
def itemsAreCanonical : List (ShapeItem TypeExpr) → Bool
  | [] => true
  | ⟨key, optional, value⟩ :: items =>
      key.all isKey && (!optional || key.isSome) && isCanonical value && itemsAreCanonical items

end

/-- What a parameter of a canonical callable is. -/
structure ParamIsCanonical (param : CallableParam TypeExpr) : Prop where
  type : param.type.isCanonical = true
  name : ∀ name, param.name = some name → isSole .varName name = true
  byReference : param.byReference = true → param.variadic = true ∨ param.name.isSome = true

/-- What an item of a canonical shape is. -/
structure ItemIsCanonical (item : ShapeItem TypeExpr) : Prop where
  key : ∀ key, item.key = some key → isKey key = true
  optional : item.optional = true → item.key.isSome = true
  value : item.value.isCanonical = true

theorem areCanonical_iff {types : List TypeExpr} :
    areCanonical types = true ↔ ∀ type ∈ types, type.isCanonical = true := by
  induction types with
  | nil => simp [areCanonical]
  | cons type types ih => rw [areCanonical, Bool.and_eq_true, ih, List.forall_mem_cons]

theorem paramsAreCanonical_iff {params : List (CallableParam TypeExpr)} :
    paramsAreCanonical params = true ↔ ∀ param ∈ params, ParamIsCanonical param := by
  induction params with
  | nil => simp [paramsAreCanonical]
  | cons param params ih =>
      obtain ⟨type, byReference, variadic, name⟩ := param
      rw [paramsAreCanonical, Bool.and_eq_true, ih, List.forall_mem_cons]
      refine and_congr_left fun _ => ?_
      rw [Bool.and_eq_true, Bool.and_eq_true, Option.all_eq_true]
      constructor
      · rintro ⟨⟨canonical, sole⟩, referenced⟩
        refine ⟨canonical, sole, fun reference => ?_⟩
        simpa [show byReference = true from reference] using referenced
      · rintro ⟨canonical, sole, referenced⟩
        refine ⟨⟨canonical, sole⟩, ?_⟩
        cases byReference with
        | false => rfl
        | true => simpa using referenced rfl

theorem itemsAreCanonical_iff {items : List (ShapeItem TypeExpr)} :
    itemsAreCanonical items = true ↔ ∀ item ∈ items, ItemIsCanonical item := by
  induction items with
  | nil => simp [itemsAreCanonical]
  | cons item items ih =>
      obtain ⟨key, optional, value⟩ := item
      rw [itemsAreCanonical, Bool.and_eq_true, ih, List.forall_mem_cons]
      refine and_congr_left fun _ => ?_
      rw [Bool.and_eq_true, Bool.and_eq_true, Option.all_eq_true]
      constructor
      · rintro ⟨⟨keyed, optioned⟩, canonical⟩
        refine ⟨keyed, fun marked => ?_, canonical⟩
        simpa [show optional = true from marked] using optioned
      · rintro ⟨keyed, optioned, canonical⟩
        refine ⟨⟨keyed, ?_⟩, canonical⟩
        cases optional with
        | false => rfl
        | true => simpa using optioned rfl

/-! ## Names -/

theorem isSole_name_of_isCallableName {name : Text}
    (callable : Grammar.isCallableName name = true) :
    isSole .name name = true := by
  apply isSole_name_of_lowerAscii
  simp only [Grammar.isCallableName, Bool.or_eq_true, beq_iff_eq] at callable
  rcases callable with ((lower | lower) | lower) | lower <;> rw [lower] <;> decide

theorem isSole_name_of_isShapeName {name : Text} (shape : Grammar.isShapeName name = true) :
    isSole .name name = true := by
  apply isSole_name_of_lowerAscii
  simp only [Grammar.isShapeName, Bool.or_eq_true, beq_iff_eq] at shape
  rcases shape with (lower | lower) | lower <;> rw [lower] <;> decide

/-! ## The first token -/

/-- Whether a type may begin with a token of a kind. -/
def opensType : Kind → Bool
  | .name | .varName | .quoted | .number | .question | .roundOpen => true
  | _ => false

/-- Whether a text begins with a token that opens a type, whatever stands behind it. -/
def OpensType (text : Text) : Prop :=
  ∃ kind, StartsWith kind text ∧ opensType kind = true ∧ (kind = .varName → text.head? = some '$')

theorem OpensType.append {text : Text} (opens : OpensType text) (more : Text) :
    OpensType (text ++ more) := by
  obtain ⟨kind, starts, opens, dollar⟩ := opens
  refine ⟨kind, starts.append more, opens, fun named => ?_⟩
  rw [List.head?_append_of_ne_nil _ starts.proper, dollar named]

theorem opensType_of_isSole {kind : Kind} {text : Text} (sole : isSole kind text = true)
    (word : kind.isWord = true) (opens : opensType kind = true) (other : kind ≠ .varName) :
    OpensType text :=
  ⟨kind, startsWith_of_isSole sole word, opens, fun same => absurd same other⟩

theorem opensType_mark {c : Char} {kind : Kind} (marks : markKind? c = some kind)
    (opens : opensType kind = true) (other : kind ≠ .varName) (more : Text) :
    OpensType (c :: more) :=
  ⟨kind, startsWith_mark marks more, opens, fun same => absurd same other⟩

theorem opensType_selfVariable : OpensType Grammar.selfVariable :=
  ⟨.varName, startsWith_of_isSole (by decide) rfl, rfl, fun _ => rfl⟩

/-- The written form of a canonical type begins with a token that opens a type. -/
theorem opensType_render : ∀ {type : TypeExpr}, type.isCanonical = true → OpensType type.render
  | .named text, canonical => by
      rw [isCanonical, Bool.or_eq_true, beq_iff_eq] at canonical
      rw [render]
      rcases canonical with rfl | sole
      · exact opensType_selfVariable
      · exact opensType_of_isSole sole rfl rfl (by decide)
  | .constant text, canonical => by
      rw [isCanonical, Bool.or_eq_true] at canonical
      rw [render]
      rcases canonical with sole | sole
      · exact opensType_of_isSole sole rfl rfl (by decide)
      · exact opensType_of_isSole sole rfl rfl (by decide)
  | .nullable inner, _ => by
      rw [render]
      exact opensType_mark rfl rfl (by decide) _
  | .union [], canonical | .intersection [], canonical => by simp [isCanonical] at canonical
  | .union (first :: others), canonical => by
      simp only [isCanonical, areCanonical, Bool.and_eq_true] at canonical
      rw [render, renderAll, Text.join_cons]
      exact (opensType_render canonical.2.1).append _
  | .intersection (first :: others), canonical => by
      simp only [isCanonical, areCanonical, Bool.and_eq_true] at canonical
      rw [render, renderAll, Text.join_cons]
      exact (opensType_render canonical.1.2.1).append _
  | .array element, canonical => by
      rw [isCanonical] at canonical
      rw [render]
      split
      next => exact opensType_mark rfl rfl (by decide) _
      next => exact (opensType_render canonical).append _
  | .generic base arguments, canonical => by
      simp only [isCanonical, Bool.and_eq_true] at canonical
      rw [render, List.append_assoc, List.append_assoc]
      exact (opensType_of_isSole canonical.1.1 rfl rfl (by decide)).append _
  | .callable name params result, canonical => by
      simp only [isCanonical, Bool.and_eq_true] at canonical
      have sole := isSole_name_of_isCallableName canonical.1.1.1
      rw [render, List.append_assoc, List.append_assoc, List.append_assoc]
      exact (opensType_of_isSole sole rfl rfl (by decide)).append _
  | .shape name items, canonical => by
      simp only [isCanonical, Bool.and_eq_true] at canonical
      have sole := isSole_name_of_isShapeName canonical.1
      rw [render, List.append_assoc, List.append_assoc]
      exact (opensType_of_isSole sole rfl rfl (by decide)).append _

section Opening

variable {text : Text} (opens : OpensType text) (rest : Text)
include opens

theorem OpensType.exists_kind? {cursor : Cursor} (stands : cursor.rest = scan (text ++ rest)) :
    ∃ kind, cursor.kind? = some kind ∧ opensType kind = true ∧
      (kind = .varName → text.head? = some '$') := by
  obtain ⟨kind, starts, opens, dollar⟩ := opens
  exact ⟨kind, (Cursor.kind?_of_rest stands).trans (starts.kind? rest), opens, dollar⟩

theorem OpensType.isAt_eq_false {cursor : Cursor} (stands : cursor.rest = scan (text ++ rest))
    {kind : Kind} (other : opensType kind = false) : cursor.isAt kind = false := by
  obtain ⟨found, here, opens, _⟩ := opens.exists_kind? rest stands
  rw [Cursor.isAt, here, beq_eq_false_iff_ne]
  rintro ⟨⟩
  rw [other] at opens
  cases opens

/-- No padding stands in front of a type. -/
theorem OpensType.dropWhile : (text ++ rest).dropWhile isPadding = text ++ rest := by
  obtain ⟨kind, starts, opens, _⟩ := opens
  refine dropWhile_of_firstKind? ?_
  rw [starts.kind?]
  rintro ⟨⟩
  cases opens

end Opening

/-! ## Types that are no keys -/

/-- A text that goes on with a mark other than those behind a key. -/
def PartsFromKey (text : Text) : Prop :=
  ∃ c rest kind, text = c :: rest ∧ markKind? c = some kind ∧ kind ≠ .question ∧ kind ≠ .colon

theorem isAtKey_of_isSole {kind : Kind} {text rest : Text} (sole : isSole kind text = true)
    (word : kind.isWord = true) (parts : PartsFromKey rest) {cursor : Cursor}
    (stands : cursor.rest = scan (text ++ rest)) : Grammar.isAtKey cursor = false := by
  obtain ⟨c, rest, mark, rfl, marks, question, colon⟩ := parts
  have known : kind ≠ .padding := by
    rintro rfl
    cases word
  have outside := isPadding_of_mark marks
  rw [scan_append_of_isSole sole word (endsWord_of_mark marks rest)] at stands
  have behind : cursor.advance.rest = scan (c :: rest) :=
    (Cursor.reaches_advance stands known).rest_eq (List.dropWhile_cons_of_neg (by simp [outside]))
  have here : cursor.advance.kind? = some mark := by
    rw [Cursor.kind?_of_scan behind, piece_mark marks]
  rw [Grammar.isAtKey, Cursor.accept_of_not_isAt, Bool.and_eq_false_iff]
  · right
    rw [Cursor.isAt, here]
    simpa using colon
  · rw [Cursor.isAt, here]
    simpa using question

theorem partsFromKey_mark {c : Char} {kind : Kind} (marks : markKind? c = some kind)
    (question : kind ≠ .question) (colon : kind ≠ .colon) (rest : Text) :
    PartsFromKey (c :: rest) :=
  ⟨c, rest, kind, rfl, marks, question, colon⟩

theorem PartsFromKey.further {rest : Text} (parts : PartsFromKey rest) {c : Char} {kind : Kind}
    (marks : markKind? c = some kind) (question : kind ≠ .question) (colon : kind ≠ .colon)
    (others : List Text) : PartsFromKey ((others.flatMap fun text => [c] ++ text) ++ rest) := by
  cases others with
  | nil => exact parts
  | cons text others => exact partsFromKey_mark marks question colon _

theorem isAtKey_of_kind? {cursor : Cursor} {kind : Kind} (stands : cursor.kind? = some kind)
    (name : kind ≠ .name) (quoted : kind ≠ .quoted) (number : kind ≠ .number) :
    Grammar.isAtKey cursor = false := by
  rw [Grammar.isAtKey, stands, Bool.and_eq_false_iff]
  left
  cases kind <;> first | rfl | contradiction

/-- A canonical type that a mark follows is not taken for a key. -/
theorem isAtKey_eq_false : ∀ {type : TypeExpr}, type.isCanonical = true → ∀ {rest : Text},
    PartsFromKey rest → ∀ {cursor : Cursor}, cursor.rest = scan (type.render ++ rest) →
      Grammar.isAtKey cursor = false
  | .named text, canonical, rest, parts, cursor, stands => by
      rw [isCanonical, Bool.or_eq_true, beq_iff_eq] at canonical
      rw [render] at stands
      rcases canonical with rfl | sole
      · have here : cursor.kind? = some .varName := by
          rw [Cursor.kind?_of_rest stands]
          exact (startsWith_of_isSole (by decide) rfl).kind? rest
        exact isAtKey_of_kind? here (by decide) (by decide) (by decide)
      · exact isAtKey_of_isSole sole rfl parts stands
  | .constant text, canonical, rest, parts, cursor, stands => by
      rw [isCanonical, Bool.or_eq_true] at canonical
      rw [render] at stands
      rcases canonical with sole | sole
      · exact isAtKey_of_isSole sole rfl parts stands
      · exact isAtKey_of_isSole sole rfl parts stands
  | .nullable inner, _, rest, _, cursor, stands => by
      have here : cursor.kind? = some .question := Cursor.kind?_of_scan stands
      exact isAtKey_of_kind? here (by decide) (by decide) (by decide)
  | .union [], canonical, _, _, _, _ | .intersection [], canonical, _, _, _, _ => by
      simp [isCanonical] at canonical
  | .union (first :: others), canonical, rest, parts, cursor, stands => by
      simp only [isCanonical, areCanonical, Bool.and_eq_true] at canonical
      rw [render, renderAll, Text.join_cons, List.append_assoc] at stands
      exact isAtKey_eq_false canonical.2.1 (parts.further rfl (by decide) (by decide) _) stands
  | .intersection (first :: others), canonical, rest, parts, cursor, stands => by
      simp only [isCanonical, areCanonical, Bool.and_eq_true] at canonical
      rw [render, renderAll, Text.join_cons, List.append_assoc] at stands
      exact isAtKey_eq_false canonical.1.2.1 (parts.further rfl (by decide) (by decide) _) stands
  | .array element, canonical, rest, parts, cursor, stands => by
      rw [isCanonical] at canonical
      rw [render] at stands
      split at stands
      next =>
        have here : cursor.kind? = some .roundOpen := Cursor.kind?_of_scan stands
        exact isAtKey_of_kind? here (by decide) (by decide) (by decide)
      next =>
        rw [List.append_assoc] at stands
        exact isAtKey_eq_false canonical (partsFromKey_mark rfl (by decide) (by decide) _) stands
  | .generic base arguments, canonical, rest, _, cursor, stands => by
      simp only [isCanonical, Bool.and_eq_true] at canonical
      rw [render, List.append_assoc, List.append_assoc, List.append_assoc] at stands
      exact isAtKey_of_isSole canonical.1.1 rfl
        (partsFromKey_mark rfl (by decide) (by decide) _) stands
  | .callable name params result, canonical, rest, _, cursor, stands => by
      simp only [isCanonical, Bool.and_eq_true] at canonical
      have sole := isSole_name_of_isCallableName canonical.1.1.1
      rw [render, List.append_assoc, List.append_assoc, List.append_assoc,
        List.append_assoc] at stands
      exact isAtKey_of_isSole sole rfl (partsFromKey_mark rfl (by decide) (by decide) _) stands
  | .shape name items, canonical, rest, _, cursor, stands => by
      simp only [isCanonical, Bool.and_eq_true] at canonical
      have sole := isSole_name_of_isShapeName canonical.1
      rw [render, List.append_assoc, List.append_assoc, List.append_assoc] at stands
      exact isAtKey_of_isSole sole rfl (partsFromKey_mark rfl (by decide) (by decide) _) stands

end TypeExpr

end DocComment
