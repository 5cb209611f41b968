import DocComment.Proofs.Rendering.Normal
import DocComment.Proofs.Text.Closer
import DocComment.Proofs.TypeExpr.Canonical

/-!
# Canonical types stand on one line

A word has no line feed and does not end in padding, and neither does the
written form of a canonical type (`solid_render`).
-/

namespace DocComment

open Token

namespace Text

/-- The text has no line feed and does not end in padding. -/
structure Solid (text : Text) : Prop where
  unbroken : '\n' ∉ text
  last : ∃ c, text.getLast? = some c ∧ isPadding c = false

variable {first second text : Text}

theorem Solid.proper (solid : text.Solid) : text ≠ [] := by
  rintro rfl
  obtain ⟨_, last, _⟩ := solid.last
  cases last

theorem solid_of_forall (proper : text ≠ []) (all : ∀ c ∈ text, c ≠ '\n' ∧ isPadding c = false) :
    text.Solid where
  unbroken feed := (all '\n' feed).1 rfl
  last :=
    ⟨text.getLast proper, List.getLast?_eq_some_getLast proper, (all _ (List.getLast_mem proper)).2⟩

theorem solid_cons {c : Char} (first : c ≠ '\n' ∧ isPadding c = false)
    (others : ∀ d ∈ text, d ≠ '\n' ∧ isPadding d = false) : Solid (c :: text) :=
  solid_of_forall (List.cons_ne_nil _ _) (List.forall_mem_cons.mpr ⟨first, others⟩)

theorem Solid.append_left (front : '\n' ∉ first) (solid : second.Solid) :
    (first ++ second).Solid where
  unbroken feed := (List.mem_append.mp feed).elim front solid.unbroken
  last := by rw [List.getLast?_append_of_ne_nil _ solid.proper]; exact solid.last

theorem solid_mark {c : Char} (feed : c ≠ '\n') (padding : isPadding c = false) : Solid [c] where
  unbroken mem := feed (List.mem_singleton.mp mem).symm
  last := ⟨c, rfl, padding⟩

/-- A solid text has no line with padding at its end. -/
theorem Solid.tidy (solid : text.Solid) : text.Tidy := by
  rintro front c back rfl pads
  cases back with
  | nil =>
      obtain ⟨d, last, firm⟩ := solid.last
      rw [List.getLast?_concat] at last
      cases last
      rw [firm] at pads
      cases pads
  | cons d more =>
      have other : d ≠ '\n' := fun same => solid.unbroken (by simp [same])
      simpa [Cleanup.isLineEnd] using other

/-- A tidy text behind a solid one is tidy. -/
theorem Solid.tidy_append (solid : first.Solid) (tidy : second.Tidy) : (first ++ second).Tidy := by
  refine Tidy.append (fun front c back split pads _ => solid.tidy front c back split pads) ?_ tidy
  intro front c split pads
  cases solid.tidy front c [] split pads

section Join

variable {separator : Text} (bare : '\n' ∉ separator) {texts : List Text}
include bare

theorem unbroken_join (unbroken : ∀ text ∈ texts, '\n' ∉ text) : '\n' ∉ join separator texts := by
  induction texts with
  | nil => exact List.not_mem_nil
  | cons text texts ih =>
      obtain ⟨here, later⟩ := List.forall_mem_cons.mp unbroken
      cases texts with
      | nil => exact here
      | cons next texts =>
          rw [join_cons_cons, List.append_assoc, List.mem_append, List.mem_append]
          exact not_or.mpr ⟨here, not_or.mpr ⟨bare, ih later⟩⟩

theorem solid_join (proper : texts ≠ []) (solid : ∀ text ∈ texts, text.Solid) :
    (join separator texts).Solid := by
  induction texts with
  | nil => exact absurd rfl proper
  | cons text texts ih =>
      obtain ⟨here, later⟩ := List.forall_mem_cons.mp solid
      cases texts with
      | nil => exact here
      | cons next texts =>
          rw [join_cons_cons]
          refine (ih (List.cons_ne_nil _ _) later).append_left ?_
          exact fun feed => (List.mem_append.mp feed).elim here.unbroken bare

end Join

end Text

open Text

/-! ## Words -/

namespace Token

theorem not_blank_of_class {p : Char → Bool} {c : Char} (feed : p '\n' = false)
    (space : p ' ' = false)
    (tab : p '\t' = false) (inside : p c = true) : c ≠ '\n' ∧ isPadding c = false :=
  ⟨ne_of_class feed inside, isPadding_eq_false space tab inside⟩

theorem unbroken_of_closed {quote : Char} {text : Text} {length : Nat}
    (closed : quotedLength quote text = (true, length)) : '\n' ∉ text.take length := by
  fun_induction quotedLength quote text generalizing length with
  | case1 => cases closed
  | case2 => cases closed
  | case3 c feed =>
      rw [Prod.mk.injEq] at closed
      rw [← closed.2, List.take_succ_cons, List.take_zero, List.mem_singleton]
      exact Ne.symm feed
  | case4 => cases closed
  | case5 d rest feed =>
      cases closed
      rw [List.take_succ_cons, List.take_zero, List.mem_singleton]
      exact Ne.symm feed
  | case6 => cases closed
  | case7 d rest other found more cut feed _ ih =>
      cases closed
      rw [List.take_succ_cons, List.take_succ_cons, List.mem_cons, List.mem_cons, not_or, not_or]
      exact ⟨Ne.symm feed, Ne.symm other, ih cut⟩
  | case8 c d rest feed _ _ found more cut ih =>
      cases closed
      rw [List.take_succ_cons, List.mem_cons, not_or]
      exact ⟨Ne.symm feed, ih cut⟩

theorem Cut.solid {c : Char} {rest : Text} {kind : Kind} {length : Nat}
    (cut : Cut c rest kind length) (word : kind.isWord = true) : Solid (c :: rest.take length) := by
  have name {c : Char} (inside : isNameChar c = true) : c ≠ '\n' ∧ isPadding c = false :=
    not_blank_of_class (by decide) (by decide) (by decide) inside
  have digits {c : Char} (inside : c.isDigit = true) : c ≠ '\n' ∧ isPadding c = false :=
    not_blank_of_class (by decide) (by decide) (by decide) inside
  have starting {c : Char} (starts : isNameStart c = true) : c ≠ '\n' ∧ isPadding c = false :=
    name (isNameChar_of_isNameStart starts)
  have backslash : '\\' ≠ '\n' ∧ isPadding '\\' = false := by decide
  have marked {mark c : Char} {rest : Text} (black : mark ≠ '\n' ∧ isPadding mark = false)
      (first : c ≠ '\n' ∧ isPadding c = false)
      (others : ∀ d ∈ rest, d ≠ '\n' ∧ isPadding d = false) : Solid (mark :: c :: rest) :=
    solid_cons black (List.forall_mem_cons.mpr ⟨first, others⟩)
  cases cut with
  | tag more starts =>
      rw [List.take_succ_cons]
      exact marked (by decide) (starting starts) fun d mem =>
        name (mem_take_runLength _ _ d mem)
  | varName more starts =>
      rw [List.take_succ_cons]
      exact marked (by decide) (starting starts) fun d mem =>
        not_blank_of_class (by decide) (by decide) (by decide) (mem_take_runLength _ _ d mem)
  | rooted more starts =>
      rw [List.take_succ_cons]
      exact marked backslash (starting starts) fun d mem =>
        (mem_take_segmentsLength d mem).elim name fun same => same ▸ backslash
  | name _ starts =>
      exact solid_cons (starting starts) fun d mem =>
        (mem_take_segmentsLength d mem).elim name fun same => same ▸ backslash
  | number _ digit =>
      exact solid_cons (digits digit) fun d mem =>
        (mem_take_numberLength d mem).elim digits fun same => same ▸ by decide
  | negative more digit =>
      rw [List.take_succ_cons]
      exact marked (by decide) (digits digit) fun d mem =>
        (mem_take_numberLength d mem).elim digits fun same => same ▸ by decide
  | quoted quote closed =>
      have marks : c ≠ '\n' ∧ isPadding c = false := by rcases quote with rfl | rfl <;> decide
      refine ⟨?_, c, ?_, marks.2⟩
      · rw [List.mem_cons, not_or]
        exact ⟨Ne.symm marks.1, unbroken_of_closed closed⟩
      · rw [List.getLast?_cons, getLast?_of_closed closed]
        rfl
  | mark _ marks =>
      have mark := Kind.isMark_of_markKind? marks
      rw [Kind.isWord, Kind.isPiece_eq_false_of_isMark mark, Bool.false_or, beq_iff_eq] at word
      subst word
      cases mark
  | _ => cases word

/-- A word has no line feed and does not end in padding. -/
theorem solid_of_isSole {kind : Kind} {text : Text} (sole : isSole kind text = true)
    (word : kind.isWord = true) : text.Solid := by
  obtain ⟨c, front, rfl, cut⟩ := exists_cut_of_isSole sole word
  have solid := cut.solid word
  rwa [List.take_length] at solid

end Token

/-! ## Types -/

namespace TypeExpr

theorem unbroken_markersOf {byReference variadic : Bool} {name : Option Text}
    (sole : ∀ text, name = some text → isSole .varName text = true) :
    '\n' ∉ markersOf byReference variadic name := by
  have marks : '\n' ∉ (if byReference || variadic || name.isSome then [' '] else []) ++
      (if byReference then ['&'] else []) ++ (if variadic then ['.', '.', '.'] else []) := by
    cases byReference <;> cases variadic <;> cases name <;> simp
  intro feed
  rcases List.mem_append.mp feed with feed | feed
  · exact marks feed
  · cases name with
    | none => cases feed
    | some text => exact (solid_of_isSole (sole text rfl) rfl).unbroken feed

theorem solid_of_isKey {key : Text} (keyed : isKey key = true) : key.Solid := by
  rw [isKey, Bool.or_eq_true, Bool.or_eq_true] at keyed
  rcases keyed with (sole | sole) | sole <;> exact solid_of_isSole sole rfl

theorem unbroken_keyOf {key : Option Text} (optional : Bool)
    (keyed : ∀ text, key = some text → isKey text = true) : '\n' ∉ keyOf key optional := by
  cases key with
  | none => exact List.not_mem_nil
  | some text =>
      have marks : '\n' ∉ (if optional then ['?'] else []) ++ [':', ' '] := by
        cases optional <;> simp
      rw [keyOf, List.append_assoc]
      exact fun feed =>
        (List.mem_append.mp feed).elim (solid_of_isKey (keyed text rfl)).unbroken marks

/-- Between a solid front and a closing mark the text stays on one line. -/
theorem solid_enclosed {front inside : Text} {opening : Text} {c : Char} (solid : front.Solid)
    (bare : '\n' ∉ opening) (unbroken : '\n' ∉ inside) (feed : c ≠ '\n')
    (padding : isPadding c = false) :
    Solid (front ++ opening ++ inside ++ [c]) := by
  refine (solid_mark feed padding).append_left fun mem => ?_
  simp only [List.mem_append] at mem
  rcases mem with (mem | mem) | mem
  · exact solid.unbroken mem
  · exact bare mem
  · exact unbroken mem

theorem renderAll_ne_nil {types : List TypeExpr} (many : 2 ≤ types.length) :
    renderAll types ≠ [] := by
  cases types with
  | nil => simp at many
  | cons type types => simp [renderAll]

mutual

/-- A canonical type is written without line feeds, and not with padding at its end. -/
theorem solid_render : ∀ {type : TypeExpr}, type.isCanonical = true → Solid type.render
  | .named text, canonical => by
      rw [isCanonical, Bool.or_eq_true, beq_iff_eq] at canonical
      rcases canonical with rfl | sole
      · exact solid_of_forall (by decide) (by simp [render, Grammar.selfVariable, isPadding])
      · exact solid_of_isSole sole rfl
  | .constant text, canonical => by
      rw [isCanonical, Bool.or_eq_true] at canonical
      rcases canonical with sole | sole <;> exact solid_of_isSole sole rfl
  | .nullable inner, canonical => by
      rw [isCanonical, Bool.and_eq_true] at canonical
      have mark : '\n' ∉ ['?'] := by decide
      exact (solid_render canonical.2).append_left mark
  | .union members, canonical => by
      simp only [isCanonical, Bool.and_eq_true, decide_eq_true_eq] at canonical
      exact solid_join (by decide) (renderAll_ne_nil canonical.1.1) (solid_renderAll canonical.2)
  | .intersection members, canonical => by
      simp only [isCanonical, Bool.and_eq_true, decide_eq_true_eq] at canonical
      exact solid_join (by decide) (renderAll_ne_nil canonical.1.1.1)
        (solid_renderAll canonical.1.2)
  | .array element, canonical => by
      rw [isCanonical] at canonical
      have inner := solid_render canonical
      have brackets : Solid ['[', ']'] := solid_of_forall (by decide) (by simp [isPadding])
      have parenthesis : Solid [')', '[', ']'] := solid_of_forall (by decide) (by simp [isPadding])
      have opening : '\n' ∉ ['('] := by decide
      rw [render]
      split
      next => exact parenthesis.append_left (inner.append_left opening).unbroken
      next => exact brackets.append_left inner.unbroken
  | .generic base arguments, canonical => by
      simp only [isCanonical, Bool.and_eq_true] at canonical
      exact solid_enclosed (solid_of_isSole canonical.1.1 rfl) (by decide)
        (unbroken_join (by decide) fun text mem => (solid_renderAll canonical.2 text mem).unbroken)
        (by decide) (by decide)
  | .callable name params result, canonical => by
      simp only [isCanonical, Bool.and_eq_true] at canonical
      have inside : '\n' ∉ join [',', ' '] (renderParams params) :=
        unbroken_join (by decide) (unbroken_renderParams canonical.1.1.2)
      have named := solid_of_isSole (isSole_name_of_isCallableName canonical.1.1.1) rfl
      have closed : Solid (name ++ ['('] ++ join [',', ' '] (renderParams params) ++ [')']) :=
        solid_enclosed named (by decide) inside (by decide) (by decide)
      have parted : '\n' ∉ [':', ' '] := by decide
      have behind : Solid ([':', ' '] ++ result.render) :=
        (solid_render canonical.2).append_left parted
      rw [render]
      simpa only [List.append_assoc, List.cons_append, List.nil_append] using
        behind.append_left closed.unbroken
  | .shape name items, canonical => by
      simp only [isCanonical, Bool.and_eq_true] at canonical
      exact solid_enclosed (solid_of_isSole (isSole_name_of_isShapeName canonical.1) rfl)
        (by decide)
        (unbroken_join (by decide) (unbroken_renderItems canonical.2)) (by decide) (by decide)

theorem solid_renderAll : ∀ {types : List TypeExpr}, areCanonical types = true →
    ∀ text ∈ renderAll types, Solid text
  | [], _ => by simp [renderAll]
  | _ :: _, canonical => by
      rw [areCanonical, Bool.and_eq_true] at canonical
      exact List.forall_mem_cons.mpr ⟨solid_render canonical.1, solid_renderAll canonical.2⟩

theorem unbroken_renderParams : ∀ {params : List (CallableParam TypeExpr)},
    paramsAreCanonical params = true → ∀ text ∈ renderParams params, '\n' ∉ text
  | [], _ => by simp [renderParams]
  | ⟨type, byReference, variadic, name⟩ :: _, canonical => by
      simp only [paramsAreCanonical, Bool.and_eq_true, Option.all_eq_true] at canonical
      refine List.forall_mem_cons.mpr ⟨fun feed => ?_, unbroken_renderParams canonical.2⟩
      exact (List.mem_append.mp feed).elim (solid_render canonical.1.1.1).unbroken
        (unbroken_markersOf canonical.1.1.2)

theorem unbroken_renderItems : ∀ {items : List (ShapeItem TypeExpr)},
    itemsAreCanonical items = true → ∀ text ∈ renderItems items, '\n' ∉ text
  | [], _ => by simp [renderItems]
  | ⟨key, optional, value⟩ :: _, canonical => by
      simp only [itemsAreCanonical, Bool.and_eq_true, Option.all_eq_true] at canonical
      refine List.forall_mem_cons.mpr ⟨fun feed => ?_, unbroken_renderItems canonical.2⟩
      exact (List.mem_append.mp feed).elim (unbroken_keyOf optional canonical.1.1.1)
        (solid_render canonical.1.2).unbroken

end

end TypeExpr

end DocComment
