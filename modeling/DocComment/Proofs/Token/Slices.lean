import DocComment.Proofs.Token.Crossing

/-!
# Slices

The text between two places is divided by every place that lies between them.
What a cursor has taken since a place is such a slice.
-/

namespace DocComment

namespace Token

variable {tokens : List Token} {start middle stop place : Nat}

theorem textBetween_eq (tokens : List Token) (start stop : Nat) :
    textBetween tokens start stop = textOf ((tokens.drop start).take (stop - start)) := by
  rw [textBetween, List.drop_take]

theorem textBetween_append (low : start ≤ middle) (high : middle ≤ stop) :
    textBetween tokens start stop =
      textBetween tokens start middle ++ textBetween tokens middle stop := by
  have lengths : stop - start = (middle - start) + (stop - middle) := by omega
  rw [textBetween_eq, textBetween_eq, textBetween_eq, ← textOf_append, lengths, List.take_add,
    List.drop_drop, Nat.add_sub_cancel' low]

theorem textBetween_isPrefix (low : start ≤ middle) (high : middle ≤ stop) :
    textBetween tokens start middle <+: textBetween tokens start stop := by
  rw [textBetween_append low high]
  exact List.prefix_append _ _

/-- The slice between two places holds every slice between places within. -/
theorem textBetween_isInfix {first last : Nat} (low : start ≤ first) (within : first ≤ last)
    (high : last ≤ stop) : textBetween tokens first last <:+: textBetween tokens start stop := by
  rw [textBetween_append low (Nat.le_trans within high), textBetween_append within high,
    ← List.append_assoc]
  exact List.infix_append _ _ _

theorem textBetween_self (tokens : List Token) (place : Nat) :
    textBetween tokens place place = [] := by
  rw [textBetween_eq, Nat.sub_self]
  rfl

theorem textBetween_succ {token : Token} (stands : tokens[place]? = some token) :
    textBetween tokens place (place + 1) = token.text := by
  obtain ⟨within, here⟩ := List.getElem?_eq_some_iff.mp stands
  rw [textBetween_eq, Nat.add_sub_cancel_left, List.drop_eq_getElem_cons within, here]
  simp

theorem textBetween_cons {token : Token} (stands : tokens[start]? = some token)
    (proper : start < stop) :
    textBetween tokens start stop = token.text ++ textBetween tokens (start + 1) stop := by
  rw [textBetween_append (Nat.le_succ start) proper, textBetween_succ stands]

/-- A slice begins what remains of the text. -/
theorem textBetween_prefix_textOf (tokens : List Token) (start stop : Nat) :
    textBetween tokens start stop <+: textOf (tokens.drop start) := by
  refine ⟨textOf ((tokens.drop start).drop (stop - start)), ?_⟩
  rw [textBetween_eq, ← textOf_append, List.take_append_drop]

theorem textBetween_isInfix_textOf (tokens : List Token) (start stop : Nat) :
    textBetween tokens start stop <:+: textOf tokens := by
  have behind : textOf (tokens.drop start) <:+ textOf tokens :=
    ⟨textOf (tokens.take start), by rw [← textOf_append, List.take_append_drop]⟩
  exact (textBetween_prefix_textOf tokens start stop).isInfix.trans behind.isInfix

theorem textOf_eq_append (tokens : List Token) (place : Nat) :
    textOf tokens = textBetween tokens 0 place ++ textOf (tokens.drop place) := by
  rw [textBetween, List.drop_zero, ← textOf_append, List.take_append_drop]

theorem length_textBetween_le (low : start ≤ middle) (high : middle ≤ stop) :
    (textBetween tokens start middle).length ≤ (textBetween tokens start stop).length :=
  (textBetween_isPrefix low high).length_le

theorem textBetween_of_length_le (beyond : tokens.length ≤ start) :
    textBetween tokens start stop = [] := by
  rw [textBetween_eq, List.drop_eq_nil_iff.mpr beyond, List.take_nil]
  rfl

end Token

namespace Cursor

theorem text_eq_textBetween {cursor : Cursor} {kind : Token.Kind}
    (stands : cursor.kind? = some kind) :
    cursor.text = Token.textBetween cursor.tokens cursor.index (cursor.index + 1) := by
  obtain ⟨token, found, _⟩ := Option.map_eq_some_iff.mp stands
  obtain ⟨rest, whole⟩ := List.head?_eq_some_iff.mp found
  have here : cursor.tokens[cursor.index]? = some token := by
    rw [← List.head?_drop, ← rest_eq_drop, found]
  rw [Token.textBetween_succ here, text, whole]

/-- What a cursor has passed since a place is the slice from there. -/
theorem textSince_eq (start : Nat) (cursor : Cursor) :
    cursor.textSince start = Token.textBetween cursor.tokens start cursor.index := by
  have taken : cursor.tokens.take cursor.index = cursor.passed.reverse := by
    rw [tokens, List.take_append_of_le_length (by simp [index]), index,
      List.take_of_length_le (by simp)]
  rw [textSince, Token.textBetween, taken, List.drop_reverse, index]

/-- The tokens that a cursor takes next are the slice that it passes. -/
theorem textOf_take_rest (count : Nat) (cursor : Cursor) :
    Token.textOf (cursor.rest.take count) =
      Token.textBetween cursor.tokens cursor.index (cursor.forward count).index := by
  have moved : (cursor.forward count).index = cursor.index + min count cursor.rest.length := by
    simp [forward, index, Nat.add_comm]
  rw [Token.textBetween_eq, ← rest_eq_drop, moved, Nat.add_sub_cancel_left, List.take_eq_take_min]

end Cursor

end DocComment
