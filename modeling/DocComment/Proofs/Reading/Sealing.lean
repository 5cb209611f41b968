import DocComment.Proofs.Reading.Gathering
import DocComment.Proofs.Reading.Payload
import DocComment.Proofs.Token.Slices

/-!
# Payloads hold no closing marker

When no closing marker stands between two places, none gets into a payload that
was read there.  The parts of a type are sealed, so none arises where they are
written one behind the other; words and lines are joined by blanks.
-/

namespace DocComment

open Text

/-! ## Types -/

namespace TypeExpr

theorem sealed_mark {c : Char} (star : c ≠ '*') (slash : c ≠ '/') : Sealed [c] :=
  sealed_of_ne fun d mem => by
    rw [List.mem_singleton.mp mem]
    exact ⟨star, slash⟩

theorem sealed_markersOf {byReference variadic : Bool} {name : Option Text}
    (named : ∀ text, name = some text → Sealed text) :
    Sealed (markersOf byReference variadic name) := by
  have marks : Sealed ((if byReference || variadic || name.isSome then [' '] else []) ++
      (if byReference then ['&'] else []) ++ (if variadic then ['.', '.', '.'] else [])) := by
    apply sealed_of_ne
    cases byReference <;> cases variadic <;> cases name <;> simp
  refine marks.append ?_
  cases name with
  | none => exact sealed_nil
  | some text => exact named text rfl

theorem sealed_keyOf {key : Option Text} (optional : Bool)
    (keyed : ∀ text, key = some text → Sealed text) : Sealed (keyOf key optional) := by
  cases key with
  | none => exact sealed_nil
  | some text =>
      have marks : Sealed ((if optional then ['?'] else []) ++ [':', ' ']) := by
        apply sealed_of_ne
        cases optional <;> simp
      rw [keyOf, List.append_assoc]
      exact (keyed text rfl).append marks

mutual

/-- A type made of sealed texts is written as a sealed text. -/
theorem sealed_render : ∀ {type : TypeExpr}, type.MadeOf Sealed → Sealed type.render
  | .named text, made => made text List.mem_cons_self
  | .constant text, made => made text List.mem_cons_self
  | .nullable inner, made => by
      have mark : Sealed ['?'] := sealed_mark (by decide) (by decide)
      exact mark.append (sealed_render made)
  | .union members, made =>
      sealed_join (sealed_mark (by decide) (by decide)) (sealed_renderAll made)
  | .intersection members, made =>
      sealed_join (sealed_mark (by decide) (by decide)) (sealed_renderAll made)
  | .array element, made => by
      have inner : Sealed element.render := sealed_render made
      have left : Sealed ['('] := sealed_mark (by decide) (by decide)
      rw [render]
      split
      next => exact left.append (inner.append (sealed_of_ne (by simp)))
      next => exact inner.append (sealed_of_ne (by simp))
  | .generic base arguments, made => by
      obtain ⟨name, others⟩ := List.forall_mem_cons.mp made
      have inside : Sealed (join [',', ' '] (renderAll arguments)) :=
        sealed_join (sealed_of_ne (by simp)) (sealed_renderAll others)
      exact ((name.append (sealed_of_ne (by simp))).append inside).append
        (sealed_of_ne (by simp))
  | .callable name params result, made => by
      obtain ⟨name, others⟩ := List.forall_mem_cons.mp made
      obtain ⟨first, last⟩ := List.forall_mem_append.mp others
      have inside : Sealed (join [',', ' '] (renderParams params)) :=
        sealed_join (sealed_of_ne (by simp)) (sealed_renderParams first)
      exact ((((name.append (sealed_of_ne (by simp))).append inside).append
        (sealed_of_ne (by simp)))).append (sealed_render last)
  | .shape name items, made => by
      obtain ⟨name, others⟩ := List.forall_mem_cons.mp made
      have inside : Sealed (join [',', ' '] (renderItems items)) :=
        sealed_join (sealed_of_ne (by simp)) (sealed_renderItems others)
      exact ((name.append (sealed_of_ne (by simp))).append inside).append
        (sealed_of_ne (by simp))

theorem sealed_renderAll : ∀ {types : List TypeExpr},
    (∀ text ∈ piecesOfAll types, Sealed text) → ∀ text ∈ renderAll types, Sealed text
  | [], _ => by simp [renderAll]
  | _ :: _, made => by
      obtain ⟨first, others⟩ := List.forall_mem_append.mp made
      exact List.forall_mem_cons.mpr ⟨sealed_render first, sealed_renderAll others⟩

theorem sealed_renderParams : ∀ {params : List (CallableParam TypeExpr)},
    (∀ text ∈ piecesOfParams params, Sealed text) → ∀ text ∈ renderParams params, Sealed text
  | [], _ => by simp [renderParams]
  | ⟨type, _, _, name⟩ :: _, made => by
      obtain ⟨first, others⟩ := List.forall_mem_append.mp made
      obtain ⟨type, name⟩ := List.forall_mem_append.mp first
      refine List.forall_mem_cons.mpr ⟨?_, sealed_renderParams others⟩
      exact (sealed_render type).append (sealed_markersOf fun text same =>
        name text (Option.mem_toList.mpr same))

theorem sealed_renderItems : ∀ {items : List (ShapeItem TypeExpr)},
    (∀ text ∈ piecesOfItems items, Sealed text) → ∀ text ∈ renderItems items, Sealed text
  | [], _ => by simp [renderItems]
  | ⟨key, optional, value⟩ :: _, made => by
      obtain ⟨first, others⟩ := List.forall_mem_append.mp made
      obtain ⟨key, value⟩ := List.forall_mem_append.mp first
      refine List.forall_mem_cons.mpr ⟨?_, sealed_renderItems others⟩
      exact (sealed_keyOf optional fun text same => key text (Option.mem_toList.mpr same)).append
        (sealed_render value)

end

end TypeExpr

/-! ## Payloads -/

namespace Payload

namespace Grammar

open Read Token

variable {cursor after : Cursor}

theorem gives_expect {p : Text → Prop} {kind : Token.Kind} (piece : kind.isPiece = true) :
    Gives p (fun token => p token.text) (expect kind) cursor := by
  intro showing token after run
  obtain ⟨stands, text, rfl⟩ := expect_eq_ok run
  refine ⟨showing.of_crosses (cursor.crosses_advance (by decide) fun found here => ?_),
    show p token.text from text ▸ showing.text stands piece⟩
  rw [stands] at here
  cases here
  rintro rfl
  cases piece

theorem gives_typeUnless {p : Text → Prop} (absent : Bool) :
    Gives p (fun type => ∀ found, type = some found → found.MadeOf p)
      (typeUnless absent) cursor := by
  unfold typeUnless
  split
  next => exact gives_pure fun _ none => nomatch none
  next =>
    refine gives_bind (TypeExpr.gives_read cursor) fun type _ made => ?_
    exact gives_pure fun _ same => Option.some.inj same ▸ made

theorem sealed_typeText {type : Option TypeExpr}
    (made : ∀ found, type = some found → found.MadeOf Sealed) : Sealed (Subject.typeText type) := by
  cases type with
  | none => exact sealed_nil
  | some type => exact TypeExpr.sealed_render (made type rfl)

/-- Every part of a subject is written as a sealed text when its tokens are sealed. -/
theorem gives_subject (kind : Subject.Kind) (cursor : Cursor) :
    Gives Sealed (fun subject => ∀ part ∈ subject.parts, Sealed part) (subject kind) cursor := by
  have accepted (kind : Token.Kind) (cursor : Cursor) (inside : kind.isWithinType = true) :
      Gives Sealed (fun _ => True) (accept kind) cursor :=
    (TypeExpr.Grammar.staysWithin_accept inside).gives cursor
  have separated (cursor : Cursor) : Gives Sealed (fun _ => True) expectSeparated cursor :=
    staysWithin_expectSeparated.gives cursor
  cases kind with
  | param =>
      refine gives_get_bind (gives_bind (gives_typeUnless _) fun type _ made => ?_)
      refine gives_bind (accepted _ _ rfl) fun byReference _ _ => ?_
      refine gives_bind (accepted _ _ rfl) fun variadic _ _ => ?_
      refine gives_bind (gives_expect rfl) fun name _ named => ?_
      refine gives_bind (separated _) fun _ _ _ => gives_pure ?_
      have marks : Sealed ((if byReference then ['&'] else []) ++
          (if variadic then ['.', '.', '.'] else [])) := by
        apply sealed_of_ne
        cases byReference <;> cases variadic <;> simp
      exact List.forall_mem_cons.mpr ⟨sealed_typeText made,
        List.forall_mem_singleton.mpr (marks.append named)⟩
  | returned =>
      refine gives_bind (TypeExpr.gives_read _) fun type _ made => ?_
      refine gives_bind (separated _) fun _ _ _ => gives_pure ?_
      exact List.forall_mem_singleton.mpr (TypeExpr.sealed_render made)
  | var =>
      refine gives_get_bind (gives_bind (gives_typeUnless _) fun type _ made => ?_)
      refine gives_bind (TypeExpr.Grammar.gives_acceptVariable _) fun name _ named => ?_
      refine gives_bind (separated _) fun _ _ _ => gives_pure ?_
      refine List.forall_mem_cons.mpr ⟨sealed_typeText made, List.forall_mem_singleton.mpr ?_⟩
      cases name with
      | none => exact sealed_nil
      | some name => exact named name rfl
  | thrown =>
      refine gives_bind (TypeExpr.gives_read _) fun type _ made => ?_
      refine gives_bind (separated _) fun _ _ _ => gives_pure ?_
      exact List.forall_mem_singleton.mpr (TypeExpr.sealed_render made)

theorem unclosed_of_furtherLines {bound : Nat} {lines : List Text}
    (run : furtherLines bound cursor = .ok lines after)
    (unclosed : Unclosed (textBetween cursor.tokens cursor.index after.index)) :
    ∀ line ∈ lines, line.Unclosed := by
  induction bound generalizing cursor lines with
  | zero =>
      cases run
      simp
  | succ bound ih =>
      unfold furtherLines at run
      rw [run_get_bind] at run
      split at run
      next more =>
        have stands := isAt_lineBreak_of_continues more
        obtain ⟨_, _, stepped, run⟩ := bind_eq_ok.mp run
        cases stepped
        obtain ⟨_, _, moved, run⟩ := bind_eq_ok.mp run
        cases moved
        rw [run_get_bind, bind_eq_ok] at run
        obtain ⟨_, middle, ran, finished⟩ := run
        cases finished
        have first := Cursor.index_step stands
        have toEnd := cursor.step.crosses_toLineEnd
        have later := (crosses_furtherLines bound _).of_ok ran
        have tokens := toEnd.tokens
        rw [Cursor.tokens_step] at tokens
        have near := toEnd.index_le
        have far := later.index_le
        refine List.forall_mem_cons.mpr ⟨?_, ih ran ?_⟩
        · refine unclosed.of_isInfix ?_
          refine (trimEnd_isPrefix _).isInfix.trans ((dropSpace_suffix _).isInfix.trans ?_)
          rw [Cursor.textSince_eq, tokens]
          exact textBetween_isInfix (by omega) (by omega) far
        · refine unclosed.of_isInfix ?_
          rw [tokens]
          exact textBetween_isInfix (by omega) far (Nat.le_refl _)
      next =>
        cases run
        simp

/-- The words of a description and the description as it was written have no closing marker. -/
theorem unclosed_of_description {found : Text × Option Text}
    (run : description cursor = .ok found after)
    (unclosed : Unclosed (textBetween cursor.tokens cursor.index after.index)) :
    found.1.Unclosed ∧ ∀ wording, found.2 = some wording → wording.Unclosed := by
  unfold description at run
  obtain ⟨first, middle, taken, run⟩ := bind_eq_ok.mp run
  cases taken
  have toEnd := cursor.crosses_toLineEnd
  split at run
  next =>
    cases run
    exact ⟨unclosed_nil, fun _ none => nomatch none⟩
  next =>
    rw [run_get_bind, bind_eq_ok] at run
    obtain ⟨others, _, ran, finished⟩ := run
    cases finished
    have far := ((crosses_furtherLines _ _).of_ok ran).index_le
    have near := toEnd.index_le
    have line : Unclosed (trim (cursor.toLineEnd.textSince cursor.index)) := by
      refine unclosed.of_isInfix ((trim_isInfix _).trans ?_)
      rw [Cursor.textSince_eq, toEnd.tokens]
      exact textBetween_isInfix (Nat.le_refl _) near far
    have all :=
      List.forall_mem_cons.mpr ⟨line, unclosed_of_furtherLines ran (unclosed.of_isInfix (by
      rw [toEnd.tokens]
      exact textBetween_isInfix near far (Nat.le_refl _)))⟩
    refine ⟨unclosed_join (by decide) (by decide) fun word mem => ?_, fun wording same => ?_⟩
    · obtain ⟨text, among, inside⟩ := List.mem_flatMap.mp mem
      exact (all text among).of_isInfix (infix_of_mem_words inside)
    · dsimp only at same
      split at same
      next => cases same
      next =>
        cases same
        exact unclosed_join (by decide) (by decide) all

/-- A text without its decoration begins like the tokens do, or with a line feed. -/
theorem head?_undecorated (tokens : List Token) :
    (undecorated false tokens).head? = some '\n' ∨
      (undecorated false tokens).head? = (textOf tokens).head? := by
  induction tokens with
  | nil => exact Or.inr rfl
  | cons token rest ih =>
      rw [undecorated]
      split
      next => exact Or.inl rfl
      next =>
        rw [Bool.false_and, if_neg Bool.false_ne_true, textOf_cons]
        cases token.text with
        | nil => exact ih
        | cons c text => exact Or.inr rfl

theorem unclosed_undecorated {tokens : List Token} (unclosed : Unclosed (textOf tokens))
    (afterBreak : Bool) : Unclosed (undecorated afterBreak tokens) := by
  induction tokens generalizing afterBreak with
  | nil => exact unclosed_nil
  | cons token rest ih =>
      obtain ⟨here, later, apart⟩ := unclosed_append_iff.mp unclosed
      rw [undecorated]
      split
      next => exact (ih later true).cons (by decide)
      next =>
        have behind {text : Text} (ends : text <:+ token.text) :
            ¬ MeetInCloser text (undecorated false rest) := by
          rintro ⟨last, head⟩
          rcases head?_undecorated rest with feed | same
          · rw [feed] at head
            cases head
          · obtain ⟨front, whole⟩ := ends
            refine apart ⟨?_, same ▸ head⟩
            rw [← whole, List.getLast?_append, last]
            rfl
        split
        next =>
          have short := dropSpace_suffix token.text
          exact (here.of_isInfix short.isInfix).append (ih later false) (behind short)
        next => exact here.append (ih later false) (behind (List.suffix_refl _))

end Grammar

end Payload

end DocComment
