import DocComment.Payload.Reader
import DocComment.Proofs.Reading.TypeExpr
import DocComment.Proofs.Token.Hiding

/-!
# What a type is made of

The names, literals and variables of a type that was read are the texts of
tokens that its reader moved over, so they have every property that all such
tokens in front of the closing marker have (`gives_read`).
-/

namespace DocComment

namespace TypeExpr

mutual

/-- The texts that a type takes over from its tokens. -/
def pieces : TypeExpr → List Text
  | .named text => [text]
  | .constant text => [text]
  | .nullable inner => pieces inner
  | .union members => piecesOfAll members
  | .intersection members => piecesOfAll members
  | .array element => pieces element
  | .generic base arguments => base :: piecesOfAll arguments
  | .callable name params result => name :: (piecesOfParams params ++ pieces result)
  | .shape name items => name :: piecesOfItems items

/-- The texts that several types take over. -/
def piecesOfAll : List TypeExpr → List Text
  | [] => []
  | type :: types => pieces type ++ piecesOfAll types

/-- The texts that the parameters of a callable take over. -/
def piecesOfParams : List (CallableParam TypeExpr) → List Text
  | [] => []
  | ⟨type, _, _, name⟩ :: params => pieces type ++ name.toList ++ piecesOfParams params

/-- The texts that the items of a shape take over. -/
def piecesOfItems : List (ShapeItem TypeExpr) → List Text
  | [] => []
  | ⟨key, _, value⟩ :: items => key.toList ++ pieces value ++ piecesOfItems items

end

/-- All texts that a type takes over belong to a class. -/
def MadeOf (p : Text → Prop) (type : TypeExpr) : Prop :=
  ∀ text ∈ type.pieces, p text

theorem mem_piecesOfAll {text : Text} {types : List TypeExpr} :
    text ∈ piecesOfAll types ↔ ∃ type ∈ types, text ∈ type.pieces := by
  induction types with
  | nil => simp [piecesOfAll]
  | cons type types ih => simp [piecesOfAll, ih]

theorem mem_piecesOfParams {text : Text} {params : List (CallableParam TypeExpr)} :
    text ∈ piecesOfParams params ↔
      ∃ param ∈ params, text ∈ param.type.pieces ∨ param.name = some text := by
  induction params with
  | nil => simp [piecesOfParams]
  | cons param params ih =>
      obtain ⟨type, byReference, variadic, name⟩ := param
      simp [piecesOfParams, ih, or_assoc]

theorem mem_piecesOfItems {text : Text} {items : List (ShapeItem TypeExpr)} :
    text ∈ piecesOfItems items ↔
      ∃ item ∈ items, item.key = some text ∨ text ∈ item.value.pieces := by
  induction items with
  | nil => simp [piecesOfItems]
  | cons item items ih =>
      obtain ⟨key, optional, value⟩ := item
      simp [piecesOfItems, ih, or_assoc]

end TypeExpr

/-! ## Readers that give such values -/

namespace Cursor

variable {p : Text → Prop} {cursor after : Cursor}

theorem Crosses.exists_crossed {q : Token.Kind → Prop} (crosses : cursor.Crosses q after) :
    ∃ crossed, cursor.rest = crossed ++ after.rest ∧ ∀ token ∈ crossed, q token.kind := by
  obtain ⟨count, index⟩ := Nat.exists_eq_add_of_le crosses.index_le
  refine ⟨cursor.rest.take count, ?_, fun token mem => ?_⟩
  · rw [after.rest_eq_drop, crosses.tokens, index, ← List.drop_drop, ← rest_eq_drop,
      List.take_append_drop]
  · obtain ⟨place, near, rfl⟩ := List.mem_iff_getElem.mp mem
    rw [List.length_take] at near
    refine crosses.kinds (cursor.index + place) _ (Nat.le_add_right _ _) (by omega) ?_
    rw [kindAt?_add, List.getElem_take, List.getElem?_eq_getElem (by omega)]
    rfl

/-- All texts that may become part of a type in front of the closing marker belong to a class. -/
def Shows (p : Text → Prop) (cursor : Cursor) : Prop :=
  ∀ token ∈ cursor.rest.takeWhile fun token => token.kind != .closing,
    token.kind.isPiece = true → p token.text

theorem Shows.of_crosses (showing : cursor.Shows p)
    (crosses : cursor.Crosses (· ≠ .closing) after) : after.Shows p := by
  obtain ⟨crossed, split, kinds⟩ := crosses.exists_crossed
  intro token mem piece
  refine showing token ?_ piece
  rw [split, List.takeWhile_append_of_pos fun token mem => by simpa using kinds token mem]
  exact List.mem_append_right _ mem

theorem Shows.text {kind : Token.Kind} (showing : cursor.Shows p)
    (stands : cursor.kind? = some kind) (piece : kind.isPiece = true) : p cursor.text := by
  obtain ⟨token, found, rfl⟩ := Option.map_eq_some_iff.mp stands
  obtain ⟨rest, whole⟩ := List.head?_eq_some_iff.mp found
  have goesOn : token.kind ≠ .closing := fun closing => by
    rw [closing] at piece
    cases piece
  rw [Cursor.text, whole]
  refine showing token ?_ piece
  rw [whole, List.takeWhile_cons, if_pos (bne_iff_ne.mpr goesOn)]
  exact List.mem_cons_self

end Cursor

namespace Read

variable {α β : Type} {p : Text → Prop} {post mid : α → Prop} {cursor : Cursor}

/-- Where all texts ahead belong to a class, they still do behind the reader, and
its value has a property. -/
def Gives (p : Text → Prop) (post : α → Prop) (read : Read α) (cursor : Cursor) : Prop :=
  cursor.Shows p → ∀ value after, read cursor = .ok value after → after.Shows p ∧ post value

theorem gives_pure {value : α} (holds : post value) : Gives p post (pure value) cursor := by
  intro showing _ _ run
  cases run
  exact ⟨showing, holds⟩

theorem gives_failExpecting (kind : Token.Kind) : Gives p post (failExpecting kind) cursor := by
  intro _ _ _ run
  cases run

theorem gives_get_bind {next : Cursor → Read α} (back : Gives p post (next cursor) cursor) :
    Gives p post (get >>= next) cursor :=
  back

theorem gives_bind {read : Read α} {next : α → Read β} {final : β → Prop}
    (front : Gives p mid read cursor)
    (back : ∀ value middle, mid value → Gives p final (next value) middle) :
    Gives p final (read >>= next) cursor := by
  intro showing result after run
  obtain ⟨value, middle, ran, run⟩ := bind_eq_ok.mp run
  obtain ⟨still, holds⟩ := front showing value middle ran
  exact back value middle holds still result after run

/-- A reader that does not pass the closing marker keeps what is ahead. -/
theorem gives_of_crosses {read : Read α} (crosses : Crosses (· ≠ .closing) read cursor) :
    Gives p (fun _ => True) read cursor := by
  intro showing value after run
  exact ⟨showing.of_crosses (crosses.of_ok run), trivial⟩

theorem gives_advance {kind : Token.Kind} (stands : cursor.kind? = some kind)
    (goesOn : kind ≠ .closing) : Gives p (fun _ => True) advance cursor := by
  refine gives_of_crosses (crosses_advance (by decide) fun found here => ?_)
  rw [stands] at here
  exact Option.some.inj here ▸ goesOn

theorem gives_takeText {kind : Token.Kind} (stands : cursor.kind? = some kind)
    (piece : kind.isPiece = true) : Gives p p takeText cursor := by
  intro showing value after run
  refine ⟨showing.of_crosses ((crosses_takeText (by decide) fun found here => ?_).of_ok run), ?_⟩
  · rw [stands] at here
    cases here
    rintro rfl
    cases piece
  · cases run
    exact showing.text stands piece

theorem gives_further {separator : Read Bool} {item : Read α}
    (separates : ∀ cursor, Crosses (· ≠ .closing) separator cursor)
    (items : ∀ cursor, Gives p post item cursor) (bound : Nat) (cursor : Cursor) :
    Gives p (fun found => ∀ value ∈ found, post value) (further separator item bound) cursor := by
  induction bound generalizing cursor with
  | zero => exact gives_pure (by simp)
  | succ bound ih =>
      refine gives_bind (gives_of_crosses (separates cursor)) fun more middle _ => ?_
      cases more with
      | false => exact gives_pure (by simp)
      | true =>
          refine gives_bind (items middle) fun first behind holds => ?_
          refine gives_bind (ih behind) fun others _ all => ?_
          exact gives_pure (List.forall_mem_cons.mpr ⟨holds, all⟩)

theorem gives_allFurther {separator : Read Bool} {item : Read α}
    (separates : ∀ cursor, Crosses (· ≠ .closing) separator cursor)
    (items : ∀ cursor, Gives p post item cursor) (cursor : Cursor) :
    Gives p (fun found => ∀ value ∈ found, post value) (allFurther separator item) cursor :=
  gives_get_bind (gives_further separates items _ cursor)

end Read

namespace TypeExpr

namespace Grammar

open Read

variable {p : Text → Prop}

theorem StaysWithin.gives {α : Type} {read : Read α} (stays : StaysWithin read) (cursor : Cursor) :
    Gives p (fun _ => True) read cursor :=
  gives_of_crosses ((stays cursor).mono fun _ => Token.Kind.ne_closing_of_isWithinType)

theorem gives_brackets (bound : Nat) {type : TypeExpr} (made : type.MadeOf p) (cursor : Cursor) :
    Gives p (MadeOf p) (brackets bound type) cursor := by
  intro showing value after run
  have crossed := (staysWithin_brackets bound type).gives cursor showing value after run
  refine ⟨crossed.1, ?_⟩
  clear crossed showing
  induction bound generalizing type cursor with
  | zero =>
      cases run
      exact made
  | succ bound ih =>
      unfold brackets at run
      rw [run_get_bind] at run
      split at run
      next =>
        obtain ⟨_, _, _, run⟩ := bind_eq_ok.mp run
        obtain ⟨_, _, _, run⟩ := bind_eq_ok.mp run
        exact ih (show MadeOf p (.array type) from made) _ run
      next =>
        cases run
        exact made

theorem gives_acceptVariable (cursor : Cursor) :
    Gives p (fun name => ∀ text, name = some text → p text) acceptVariable cursor := by
  apply gives_get_bind
  split
  next stands =>
    refine gives_bind (gives_takeText (beq_iff_eq.mp stands) rfl) fun text _ holds => ?_
    exact gives_pure fun other same => Option.some.inj same ▸ holds
  next => exact gives_pure fun _ none => nomatch none

section Parts

variable {atom : Read TypeExpr} (atoms : ∀ cursor, Gives p (MadeOf p) atom cursor)
include atoms

theorem gives_postfixType (cursor : Cursor) : Gives p (MadeOf p) (postfixType atom) cursor := by
  refine gives_bind (atoms cursor) fun type middle made => ?_
  exact gives_get_bind (gives_brackets _ made middle)

theorem gives_typeWith (cursor : Cursor) : Gives p (MadeOf p) (typeWith atom) cursor := by
  have members := gives_postfixType atoms
  have together {first : TypeExpr} {others : List TypeExpr} (made : first.MadeOf p)
      (all : ∀ type ∈ others, type.MadeOf p) : ∀ text ∈ piecesOfAll (first :: others), p text := by
    intro text mem
    obtain ⟨type, among, inside⟩ := mem_piecesOfAll.mp mem
    exact List.forall_mem_cons.mpr ⟨made, all⟩ type among text inside
  refine gives_bind (members cursor) fun first middle made => ?_
  apply gives_get_bind
  split
  next =>
    refine gives_bind (gives_allFurther (crosses_accept (by decide) (by decide)) members middle)
      fun others _ all => ?_
    exact gives_pure (together made all)
  next =>
    apply gives_get_bind
    split
    next =>
      have separates (cursor : Cursor) : Crosses (· ≠ .closing) acceptIntersection cursor :=
        (staysWithin_acceptIntersection cursor).mono fun _ => Token.Kind.ne_closing_of_isWithinType
      refine gives_bind (gives_allFurther separates members middle) fun others _ all => ?_
      exact gives_pure (together made all)
    next => exact gives_pure made

/-- What a parameter of a callable takes over belongs to a class. -/
def ParamMadeOf (p : Text → Prop) (param : CallableParam TypeExpr) : Prop :=
  param.type.MadeOf p ∧ ∀ text, param.name = some text → p text

/-- What an item of a shape takes over belongs to a class. -/
def ItemMadeOf (p : Text → Prop) (item : ShapeItem TypeExpr) : Prop :=
  item.value.MadeOf p ∧ ∀ text, item.key = some text → p text

theorem gives_callableParams (cursor : Cursor) :
    Gives p (fun params => ∀ param ∈ params, ParamMadeOf p param)
      (callableParams (typeWith atom)) cursor := by
  have single (cursor : Cursor) :
      Gives p (ParamMadeOf p) (callableParam (typeWith atom)) cursor := by
    refine gives_bind (gives_typeWith atoms cursor) fun type typed made => ?_
    refine gives_bind ((staysWithin_accept rfl).gives typed) fun _ marked _ => ?_
    refine gives_bind ((staysWithin_accept rfl).gives marked) fun _ spread _ => ?_
    refine gives_bind (gives_acceptVariable spread) fun name _ named => ?_
    exact gives_pure ⟨made, named⟩
  apply gives_get_bind
  split
  next => exact gives_pure (by simp)
  next =>
    refine gives_bind (single cursor) fun first middle made => ?_
    refine gives_bind (gives_allFurther (crosses_accept (by decide) (by decide)) single middle)
      fun others _ all => ?_
    exact gives_pure (List.forall_mem_cons.mpr ⟨made, all⟩)

omit atoms in
/-- A key is a piece. -/
theorem exists_isPiece_of_isAtKey {cursor : Cursor} (keyed : isAtKey cursor = true) :
    ∃ kind, cursor.kind? = some kind ∧ kind.isPiece = true := by
  rw [isAtKey, Bool.and_eq_true] at keyed
  have stands := keyed.1
  split at stands
  next here => exact ⟨.name, here, rfl⟩
  next here => exact ⟨.quoted, here, rfl⟩
  next here => exact ⟨.number, here, rfl⟩
  next => cases stands

theorem gives_shapeItem (cursor : Cursor) :
    Gives p (ItemMadeOf p) (shapeItem (typeWith atom)) cursor := by
  apply gives_get_bind
  split
  next keyed =>
    obtain ⟨kind, stands, piece⟩ := exists_isPiece_of_isAtKey keyed
    refine gives_bind (gives_takeText stands piece) fun key behind holds => ?_
    refine gives_bind ((staysWithin_accept rfl).gives behind) fun _ marked _ => ?_
    refine gives_bind ((staysWithin_expect rfl).gives marked) fun _ parted _ => ?_
    refine gives_bind (gives_typeWith atoms parted) fun value _ made => ?_
    exact gives_pure ⟨made, fun _ same => Option.some.inj same ▸ holds⟩
  next =>
    refine gives_bind (gives_typeWith atoms cursor) fun value _ made => gives_pure ⟨made, ?_⟩
    rintro _ ⟨⟩

theorem gives_shapeItems (bound : Nat) (cursor : Cursor) :
    Gives p (fun items => ∀ item ∈ items, ItemMadeOf p item)
      (shapeItems (typeWith atom) bound) cursor := by
  induction bound generalizing cursor with
  | zero => exact gives_pure (by simp)
  | succ bound ih =>
      apply gives_get_bind
      split
      next => exact gives_pure (by simp)
      next =>
        refine gives_bind (gives_shapeItem atoms cursor) fun item middle made => ?_
        refine gives_bind ((staysWithin_accept rfl).gives middle) fun comma behind _ => ?_
        cases comma with
        | false => exact gives_pure (List.forall_mem_singleton.mpr made)
        | true =>
            refine gives_bind (ih behind) fun others _ all => ?_
            exact gives_pure (List.forall_mem_cons.mpr ⟨made, all⟩)

theorem gives_namedType {cursor : Cursor} (stands : cursor.kind? = some .name) :
    Gives p (MadeOf p) (namedType atom) cursor := by
  intro showing
  have named : p cursor.text := showing.text stands rfl
  revert showing
  apply gives_get_bind
  refine gives_bind (gives_of_crosses (crosses_step fun kind here => ?_)) fun _ stepped _ => ?_
  · rw [stands] at here
    cases here
    decide
  apply gives_get_bind
  split
  next opens =>
    refine gives_bind (gives_advance (beq_iff_eq.mp opens) (by decide)) fun _ opened _ => ?_
    refine gives_bind (gives_typeWith atoms opened) fun first middle made => ?_
    refine gives_bind (gives_allFurther (crosses_accept (by decide) (by decide))
      (gives_typeWith atoms) middle) fun others behind all => ?_
    refine gives_bind ((staysWithin_expect rfl).gives behind) fun _ _ _ => ?_
    refine gives_pure (List.forall_mem_cons.mpr ⟨named, fun text mem => ?_⟩)
    obtain ⟨type, among, inside⟩ := mem_piecesOfAll.mp mem
    exact List.forall_mem_cons.mpr ⟨made, all⟩ type among text inside
  split
  next opens =>
    rw [Bool.and_eq_true] at opens
    refine gives_bind (gives_advance (beq_iff_eq.mp opens.1) (by decide)) fun _ opened _ => ?_
    refine gives_bind (gives_callableParams atoms opened) fun params behind all => ?_
    refine gives_bind ((staysWithin_expect rfl).gives behind) fun _ closed _ => ?_
    refine gives_bind ((staysWithin_expect rfl).gives closed) fun _ parted _ => ?_
    refine gives_bind (gives_postfixType atoms parted) fun result _ made => ?_
    refine gives_pure (List.forall_mem_cons.mpr ⟨named, fun text mem => ?_⟩)
    rcases List.mem_append.mp mem with mem | mem
    · obtain ⟨param, among, inside | same⟩ := mem_piecesOfParams.mp mem
      · exact (all param among).1 text inside
      · exact (all param among).2 text same
    · exact made text mem
  split
  next opens =>
    rw [Bool.and_eq_true] at opens
    refine gives_bind (gives_advance (beq_iff_eq.mp opens.1) (by decide)) fun _ opened _ => ?_
    refine gives_bind (gives_shapeItems atoms _ opened) fun items behind all => ?_
    refine gives_bind ((staysWithin_expect rfl).gives behind) fun _ _ _ => ?_
    refine gives_pure (List.forall_mem_cons.mpr ⟨named, fun text mem => ?_⟩)
    obtain ⟨item, among, same | inside⟩ := mem_piecesOfItems.mp mem
    · exact (all item among).2 text same
    · exact (all item among).1 text inside
  next =>
    refine gives_bind (gives_of_crosses (crosses_skipPadding (by decide) stepped))
      fun _ _ _ => ?_
    exact gives_pure (List.forall_mem_singleton.mpr named)

end Parts

theorem gives_atom (depth : Nat) (cursor : Cursor) : Gives p (MadeOf p) (atom depth) cursor := by
  induction depth generalizing cursor with
  | zero => exact gives_failExpecting _
  | succ depth ih =>
      apply gives_get_bind
      split
      next stands =>
        refine gives_bind (gives_advance stands (by decide)) fun _ middle _ => ?_
        exact gives_bind (ih middle) fun inner _ made => gives_pure made
      next stands =>
        refine gives_bind (gives_advance stands (by decide)) fun _ middle _ => ?_
        refine gives_bind (gives_typeWith ih middle) fun inner behind made => ?_
        exact gives_bind ((staysWithin_expect rfl).gives behind) fun _ _ _ => gives_pure made
      next stands =>
        refine gives_bind (gives_takeText stands rfl) fun text _ holds => ?_
        exact gives_pure (List.forall_mem_singleton.mpr holds)
      next stands =>
        refine gives_bind (gives_takeText stands rfl) fun text _ holds => ?_
        exact gives_pure (List.forall_mem_singleton.mpr holds)
      next stands =>
        split
        next =>
          refine gives_bind (gives_takeText stands rfl) fun text _ holds => ?_
          exact gives_pure (List.forall_mem_singleton.mpr holds)
        next => exact gives_failExpecting _
      next stands => exact gives_namedType ih stands
      next => exact gives_failExpecting _

end Grammar

/-- A type is made of texts of tokens that stand in front of the closing marker. -/
theorem gives_read {p : Text → Prop} (cursor : Cursor) : Read.Gives p (MadeOf p) read cursor :=
  Read.gives_get_bind (Grammar.gives_typeWith (Grammar.gives_atom _) cursor)

end TypeExpr

end DocComment
