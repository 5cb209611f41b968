import DocComment.Proofs.Reading.Crossing
import DocComment.TypeExpr.Reader

/-!
# A type stays on its line

The grammar of types never moves over a line break, a marker, a tag, an equals
sign or unknown text, whether the type can be read or not (`staysWithin_read`).
-/

namespace DocComment

/-- The kinds of token that may stand inside a type. -/
def Token.Kind.isWithinType : Kind → Bool
  | .lineBreak | .closing | .opening | .tag | .equals | .other => false
  | _ => true

theorem Token.Kind.ne_closing_of_isWithinType {kind : Token.Kind}
    (inside : kind.isWithinType = true) : kind ≠ .closing := by
  rintro rfl
  cases inside

namespace TypeExpr

namespace Grammar

open Read

/-- A reader that only crosses tokens of types, wherever it starts. -/
def StaysWithin {α : Type} (read : Read α) : Prop :=
  ∀ cursor, Crosses (fun kind => kind.isWithinType = true) read cursor

theorem padding_isWithinType : (fun kind => Token.Kind.isWithinType kind = true) .padding :=
  rfl

/-! ## Single tokens -/

theorem staysWithin_accept {kind : Token.Kind} (inside : kind.isWithinType = true) :
    StaysWithin (accept kind) :=
  fun cursor => crosses_accept padding_isWithinType inside cursor

theorem staysWithin_expect {kind : Token.Kind} (inside : kind.isWithinType = true) :
    StaysWithin (expect kind) :=
  fun cursor => crosses_expect padding_isWithinType inside cursor

section Looking

variable {cursor : Cursor} {kind : Token.Kind}

/-- A test for a kind that belongs to types settles what a move from there crosses. -/
theorem isWithinType_of_kind? (stands : cursor.kind? = some kind)
    (inside : kind.isWithinType = true) :
    ∀ found, cursor.kind? = some found → found.isWithinType = true := by
  intro found here
  rw [stands] at here
  cases here
  exact inside

theorem isWithinType_of_isAt (stands : cursor.isAt kind = true)
    (inside : kind.isWithinType = true) :
    ∀ found, cursor.kind? = some found → found.isWithinType = true :=
  isWithinType_of_kind? (beq_iff_eq.mp stands) inside

end Looking

/-! ## Postfix types, unions and intersections -/

theorem staysWithin_brackets (bound : Nat) (inner : TypeExpr) :
    StaysWithin (brackets bound inner) := by
  induction bound generalizing inner with
  | zero => exact fun cursor => crosses_pure _ cursor
  | succ bound ih =>
      intro cursor
      apply crosses_get_bind
      split
      next stands =>
        simp only [isAtBrackets, Bool.and_eq_true] at stands
        refine crosses_bind (crosses_step (isWithinType_of_isAt stands.1.1 rfl)) ?_
        intro _ middle moved
        cases moved
        have closes : cursor.step.kind? = some .squareClose := by
          rw [Cursor.kind?_step]
          exact beq_iff_eq.mp stands.2
        refine crosses_bind (crosses_advance padding_isWithinType
          (isWithinType_of_kind? closes rfl)) ?_
        exact fun _ behind _ => ih _ behind
      next => exact crosses_pure _ cursor

theorem staysWithin_acceptIntersection : StaysWithin acceptIntersection := by
  intro cursor
  apply crosses_get_bind
  split
  next stands =>
    simp only [isAtIntersection, Bool.and_eq_true] at stands
    refine crosses_bind (crosses_advance padding_isWithinType
      (isWithinType_of_isAt stands.1 rfl)) ?_
    exact fun _ _ _ => crosses_pure _ _
  next => exact crosses_pure _ cursor

theorem staysWithin_acceptVariable : StaysWithin acceptVariable := by
  intro cursor
  apply crosses_get_bind
  split
  next stands =>
    refine crosses_bind (crosses_takeText padding_isWithinType
      (isWithinType_of_isAt stands rfl)) ?_
    exact fun _ _ _ => crosses_pure _ _
  next => exact crosses_pure _ cursor

section Parts

variable {atom type : Read TypeExpr}

theorem staysWithin_postfixType (atoms : StaysWithin atom) : StaysWithin (postfixType atom) := by
  intro cursor
  refine crosses_bind (atoms cursor) fun inner middle _ => ?_
  exact crosses_get_bind (staysWithin_brackets _ inner middle)

theorem staysWithin_typeWith (atoms : StaysWithin atom) : StaysWithin (typeWith atom) := by
  have members := staysWithin_postfixType atoms
  intro cursor
  refine crosses_bind (members cursor) fun first middle _ => ?_
  apply crosses_get_bind
  split
  next =>
    refine crosses_bind ?_ fun _ _ _ => crosses_pure _ _
    exact crosses_allFurther (staysWithin_accept rfl) members middle
  next =>
    apply crosses_get_bind
    split
    next =>
      refine crosses_bind ?_ fun _ _ _ => crosses_pure _ _
      exact crosses_allFurther staysWithin_acceptIntersection members middle
    next => exact crosses_pure _ _

/-! ## Callables and shapes -/

theorem staysWithin_callableParam (types : StaysWithin type) :
    StaysWithin (callableParam type) := by
  intro cursor
  refine crosses_bind (types cursor) fun _ typed _ => ?_
  refine crosses_bind (staysWithin_accept rfl typed) fun _ marked _ => ?_
  refine crosses_bind (staysWithin_accept rfl marked) fun _ spread _ => ?_
  refine crosses_bind (staysWithin_acceptVariable spread) fun _ _ _ => ?_
  exact crosses_pure _ _

theorem staysWithin_callableParams (types : StaysWithin type) :
    StaysWithin (callableParams type) := by
  intro cursor
  apply crosses_get_bind
  split
  next => exact crosses_pure _ _
  next =>
    refine crosses_bind (staysWithin_callableParam types cursor) fun _ middle _ => ?_
    refine crosses_bind ?_ fun _ _ _ => crosses_pure _ _
    exact crosses_allFurther (staysWithin_accept rfl) (staysWithin_callableParam types) middle

theorem staysWithin_shapeItem (types : StaysWithin type) : StaysWithin (shapeItem type) := by
  intro cursor
  apply crosses_get_bind
  split
  next stands =>
    have inside : ∀ found, cursor.kind? = some found → found.isWithinType = true := by
      intro found here
      simp only [isAtKey, here, Bool.and_eq_true] at stands
      cases found <;> first | rfl | exact absurd stands.1 Bool.false_ne_true
    refine crosses_bind (crosses_takeText padding_isWithinType inside) fun _ keyed _ => ?_
    refine crosses_bind (staysWithin_accept rfl keyed) fun _ marked _ => ?_
    refine crosses_bind (staysWithin_expect rfl marked) fun _ parted _ => ?_
    refine crosses_bind (types parted) fun _ _ _ => ?_
    exact crosses_pure _ _
  next =>
    refine crosses_bind (types cursor) fun _ _ _ => ?_
    exact crosses_pure _ _

theorem staysWithin_shapeItems (types : StaysWithin type) (bound : Nat) :
    StaysWithin (shapeItems type bound) := by
  induction bound with
  | zero => exact fun cursor => crosses_pure _ cursor
  | succ bound ih =>
      intro cursor
      apply crosses_get_bind
      split
      next => exact crosses_pure _ _
      next =>
        refine crosses_bind (staysWithin_shapeItem types cursor) fun _ middle _ => ?_
        refine crosses_bind (staysWithin_accept rfl middle) fun comma behind _ => ?_
        cases comma with
        | false => exact crosses_pure _ _
        | true => exact crosses_bind (ih behind) fun _ _ _ => crosses_pure _ _

/-! ## Atoms -/

theorem crosses_namedType (atoms : StaysWithin atom) {cursor : Cursor}
    (stands : cursor.kind? = some .name) :
    Crosses (fun kind => kind.isWithinType = true) (namedType atom) cursor := by
  have types := staysWithin_typeWith atoms
  apply crosses_get_bind
  refine crosses_bind (crosses_step (isWithinType_of_kind? stands rfl)) fun _ named _ => ?_
  apply crosses_get_bind
  split
  next opens =>
    refine crosses_bind (crosses_advance padding_isWithinType (isWithinType_of_isAt opens rfl))
      fun _ opened _ => ?_
    refine crosses_bind (types opened) fun _ middle _ => ?_
    refine crosses_bind (crosses_allFurther (staysWithin_accept rfl) types middle)
      fun _ behind _ => ?_
    refine crosses_bind (staysWithin_expect rfl behind) fun _ _ _ => ?_
    exact crosses_pure _ _
  split
  next opens =>
    rw [Bool.and_eq_true] at opens
    refine crosses_bind (crosses_advance padding_isWithinType (isWithinType_of_isAt opens.1 rfl))
      fun _ opened _ => ?_
    refine crosses_bind (staysWithin_callableParams types opened) fun _ params _ => ?_
    refine crosses_bind (staysWithin_expect rfl params) fun _ closed _ => ?_
    refine crosses_bind (staysWithin_expect rfl closed) fun _ parted _ => ?_
    refine crosses_bind (staysWithin_postfixType atoms parted) fun _ _ _ => ?_
    exact crosses_pure _ _
  split
  next opens =>
    rw [Bool.and_eq_true] at opens
    refine crosses_bind (crosses_advance padding_isWithinType (isWithinType_of_isAt opens.1 rfl))
      fun _ opened _ => ?_
    refine crosses_bind (staysWithin_shapeItems types _ opened) fun _ items _ => ?_
    refine crosses_bind (staysWithin_expect rfl items) fun _ _ _ => ?_
    exact crosses_pure _ _
  next =>
    refine crosses_bind (crosses_skipPadding padding_isWithinType named) fun _ _ _ => ?_
    exact crosses_pure _ _

end Parts

theorem staysWithin_atom (depth : Nat) : StaysWithin (atom depth) := by
  induction depth with
  | zero => exact fun cursor => crosses_failExpecting _ cursor
  | succ depth ih =>
      intro cursor
      apply crosses_get_bind
      split
      next stands =>
        refine crosses_bind (crosses_advance padding_isWithinType
          (isWithinType_of_kind? stands rfl)) fun _ middle _ => ?_
        exact crosses_bind (ih middle) fun _ _ _ => crosses_pure _ _
      next stands =>
        refine crosses_bind (crosses_advance padding_isWithinType
          (isWithinType_of_kind? stands rfl)) fun _ middle _ => ?_
        refine crosses_bind (staysWithin_typeWith ih middle) fun _ behind _ => ?_
        exact crosses_bind (staysWithin_expect rfl behind) fun _ _ _ => crosses_pure _ _
      next stands =>
        refine crosses_bind (crosses_takeText padding_isWithinType
          (isWithinType_of_kind? stands rfl)) fun _ _ _ => ?_
        exact crosses_pure _ _
      next stands =>
        refine crosses_bind (crosses_takeText padding_isWithinType
          (isWithinType_of_kind? stands rfl)) fun _ _ _ => ?_
        exact crosses_pure _ _
      next stands =>
        split
        next =>
          refine crosses_bind (crosses_takeText padding_isWithinType
            (isWithinType_of_kind? stands rfl)) fun _ _ _ => ?_
          exact crosses_pure _ _
        next => exact crosses_failExpecting _ _
      next stands => exact crosses_namedType ih stands
      next => exact crosses_failExpecting _ _

end Grammar

/-- Reading a type only crosses tokens that may stand inside a type. -/
theorem staysWithin_read : Grammar.StaysWithin read := by
  intro cursor
  exact Read.crosses_get_bind (Grammar.staysWithin_typeWith (Grammar.staysWithin_atom _) cursor)

end TypeExpr

end DocComment
