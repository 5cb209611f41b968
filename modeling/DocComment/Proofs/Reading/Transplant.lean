import DocComment.Proofs.Reading.Gathering
import DocComment.Proofs.Reading.Total
import DocComment.Proofs.Text.Trim
import DocComment.Proofs.TypeExpr.Abreast

/-!
# Payloads elsewhere

What a payload says is settled by the tokens that it takes up.  Wherever the
same tokens stand and their line ends in a way that goes on with no payload,
the same payload is read (`run_plainText_of_sharing`, `follows_typedWithWording`).
The one exception is a description that is a last ampersand, which elsewhere is
taken for a part of the type.
-/

namespace DocComment

open Token

/-! ## Texts behind which padding stands -/

namespace Text

variable {first second : Text}

theorem trimEnd_dropSpace_append (blank : ∀ c ∈ second, isBlank c = true) :
    trimEnd (dropSpace (first ++ second)) = trimEnd (dropSpace first) := by
  cases first with
  | nil =>
      have inside : ∀ c ∈ dropSpace second, isBlank c = true := by
        intro c mem
        refine blank c ?_
        cases second with
        | nil => exact mem
        | cons d rest =>
            by_cases space : d = ' '
            · subst space
              exact List.mem_cons_of_mem _ mem
            · have same : dropSpace (d :: rest) = d :: rest := by simp [dropSpace, space]
              rwa [same] at mem
      exact trimEnd_eq_nil inside
  | cons d rest =>
      by_cases space : d = ' '
      · subst space
        exact trimEnd_append_of_blank blank
      · have same (text : Text) : dropSpace (d :: text) = d :: text := by simp [dropSpace, space]
        rw [List.cons_append, same, same, ← List.cons_append]
        exact trimEnd_append_of_blank blank

end Text

namespace Token

theorem ArePadding.blank {padding : List Token} (soft : ArePadding padding) :
    ∀ c ∈ textOf padding, isBlank c = true := by
  intro c mem
  obtain ⟨token, held, within⟩ := List.mem_flatMap.mp mem
  exact isBlank_of_isPadding ((soft token held).2 c within)

end Token

/-! ## Lines -/

namespace Cursor

variable {back back' shared : List Token} {here there : Cursor}

/-- The kinds of token that stand within a line. -/
def isInLine (kind : Kind) : Bool :=
  kind != .lineBreak && kind != .closing

theorem textSince_skipWhile (p : Kind → Bool) (cursor : Cursor) :
    (cursor.skipWhile p).textSince cursor.index =
      textOf (cursor.rest.takeWhile fun token => p token.kind) := by
  have taken (passed : List Token) (more : List Token) :
    (passed ++ more).take passed.length = passed := List.take_left
  rw [skipWhile, textSince, index, index, List.length_append, Nat.add_sub_cancel, taken,
    List.reverse_reverse]

theorem toLineEnd_eq (cursor : Cursor) : cursor.toLineEnd = cursor.skipWhile isInLine :=
  rfl

theorem isInLine_eq_false_iff {kind : Kind} :
    isInLine kind = false ↔ kind = .lineBreak ∨ kind = .closing := by
  cases kind <;> decide

section Line

variable {cursor : Cursor} {line padding rest : List Token} {stop : Token}

/-- A line that ends at a token takes all tokens in front of it. -/
theorem takeWhile_line (stands : cursor.rest = line ++ stop :: rest)
    (all : ∀ token ∈ line, isInLine token.kind = true) (stops : isInLine stop.kind = false) :
    (cursor.rest.takeWhile fun token => isInLine token.kind) = line := by
  rw [stands, List.takeWhile_append_of_pos all, List.takeWhile_cons, stops]
  exact List.append_nil line

/-- A line of shared tokens takes the padding behind them, too. -/
theorem takeWhile_shared (stands : cursor.rest = line ++ (padding ++ rest))
    (soft : ArePadding padding)
    (ends : EndLine rest) (all : ∀ token ∈ line, isInLine token.kind = true) :
    (cursor.rest.takeWhile fun token => isInLine token.kind) = line ++ padding ∧
      cursor.toLineEnd.rest = rest := by
  have inside : ∀ token ∈ line ++ padding, isInLine token.kind = true := by
    intro token mem
    rcases List.mem_append.mp mem with mem | mem
    · exact all token mem
    · rw [(soft token mem).1]
      rfl
  have moved : cursor.toLineEnd.rest = cursor.rest.dropWhile fun token => isInLine token.kind := rfl
  rw [← List.append_assoc] at stands
  rw [moved, stands, List.takeWhile_append_of_pos inside, List.dropWhile_append_of_pos inside]
  cases rest with
  | nil => exact ⟨List.append_nil _, rfl⟩
  | cons first rest =>
      have stops : isInLine first.kind = false := isInLine_eq_false_iff.mpr (ends first rfl)
      rw [List.takeWhile_cons, List.dropWhile_cons, stops]
      exact ⟨List.append_nil _, rfl⟩

end Line

/-- Up to the end of a line two cursors take the same tokens, and perhaps padding. -/
theorem Beside.toLineEnd (ends : Ends back back') (beside : Beside back back' shared here there) :
    ∃ line more padding padding', more.length ≤ shared.length ∧
      Abreast back back' more here.toLineEnd there.toLineEnd ∧
      ArePadding padding ∧ (here.rest.takeWhile fun token => isInLine token.kind) =
        line ++ padding ∧
      ArePadding padding' ∧ (there.rest.takeWhile fun token => isInLine token.kind) =
        line ++ padding' := by
  obtain ⟨padding, soft, rest⟩ := beside.near
  obtain ⟨padding', soft', rest'⟩ := beside.far
  cases known : shared.dropWhile fun token => isInLine token.kind with
  | nil =>
      have all := List.dropWhile_eq_nil_iff.mp known
      obtain ⟨taken, near⟩ := takeWhile_shared rest soft ends.near all
      obtain ⟨taken', far⟩ := takeWhile_shared rest' soft' ends.far all
      exact ⟨shared, [], padding, padding', Nat.zero_le _, Abreast.of_rest near far, soft, taken,
        soft', taken'⟩
  | cons stop more =>
      obtain ⟨line, rfl, all, halts⟩ := exists_of_dropWhile known
      rw [List.append_assoc] at rest rest'
      refine ⟨line, stop :: more, [], [], ?_, (beside.skipWhile all halts).abreast, nofun,
        ?_, nofun, ?_⟩
      · rw [List.length_append]
        exact Nat.le_add_left _ _
      · rw [takeWhile_line rest all halts, List.append_nil]
      · rw [takeWhile_line rest' all halts, List.append_nil]

end Cursor

/-! ## Subjects -/

namespace Payload

/-- The payload has a description that is not empty. -/
def IsDescribed (payload : Payload) : Prop :=
  ∃ description, payload.description? = some description ∧ description ≠ []

namespace Grammar

open Read Cursor TypeExpr.Grammar

variable {back back' shared : List Token} {first : Token} {here there : Cursor} {limit : Nat}

theorem isAtParameter_eq (ends : Ends back back') (abreast : Abreast back back' shared here there) :
    isAtParameter here = isAtParameter there := by
  obtain ⟨more, -, marked⟩ := abreast.accept ends .ampersand rfl
  obtain ⟨rest, -, spread⟩ := marked.accept ends .ellipsis rfl
  exact spread.isAt_eq ends .varName rfl

theorem agree_typeUnless (ends : Ends back back') (absent : Bool)
    (abreast : Abreast back back' shared here there) :
    Agree back back' (fun _ => Stranded) shared.length (typeUnless absent here)
      (typeUnless absent there) := by
  cases absent with
  | true => exact .ok (Nat.le_refl _) abreast
  | false =>
      refine (TypeExpr.alike_read ends shared here there (Nat.le_refl _) abreast).bind ?_ ?_
      · exact fun type more here there le abreast => .ok le abreast
      · exact fun _ _ _ stops => stops

theorem isAtLineEnd_of_endLine {cursor : Cursor} (ends : EndLine cursor.rest) :
    cursor.isAtLineEnd = true := by
  rw [isAtLineEnd_iff]
  intro kind stands
  obtain ⟨token, head, rfl⟩ := Option.map_eq_some_iff.mp stands
  exact ends token head

theorem isAtLineEnd_eq (ends : Ends back back') (abreast : Abreast back back' shared here there) :
    here.isAtLineEnd = there.isAtLineEnd := by
  cases shared with
  | nil =>
      obtain ⟨ended, ended'⟩ := abreast.ended rfl
      rw [isAtLineEnd_of_endLine (ended ▸ ends.near), isAtLineEnd_of_endLine (ended' ▸ ends.far)]
  | cons first more =>
      rw [Cursor.isAtLineEnd, Cursor.isAtLineEnd, abreast.kind?_eq.1, abreast.kind?_eq.2]

theorem agree_expectSeparated (ends : Ends back back')
    (abreast : Abreast back back' shared here there) :
    Agree back back' (fun _ _ => False) shared.length (expectSeparated here)
      (expectSeparated there) := by
  have same : (here.isAtLineEnd || here.isAfterPadding) =
      (there.isAtLineEnd || there.isAfterPadding) := by
    cases shared with
    | nil =>
        obtain ⟨ended, ended'⟩ := abreast.ended rfl
        rw [isAtLineEnd_of_endLine (ended ▸ ends.near), isAtLineEnd_of_endLine (ended' ▸ ends.far)]
        rfl
    | cons first more => rw [isAtLineEnd_eq ends abreast, abreast.padded (List.cons_ne_nil _ _)]
  rw [expectSeparated, run_get_bind, run_get_bind, same]
  split
  next => exact .ok (Nat.le_refl _) abreast
  next => exact .error _ _ _ _

/-- The test for a separation leaves the cursor where it is. -/
theorem leaves_expectSeparated {α : Type} {p : α → Cursor → Prop} {next : Unit → Read α}
    (behind : Leaves p (next () here)) : Leaves p ((expectSeparated >>= next) here) := by
  cases separated : here.isAtLineEnd || here.isAfterPadding with
  | true =>
      have run : expectSeparated here = .ok () here := by
        rw [expectSeparated, run_get_bind, separated]
        rfl
      rw [run_bind_of_ok run]
      exact behind
  | false =>
      have run : ∃ failure, expectSeparated here = .error failure here := by
        rw [expectSeparated, run_get_bind, separated]
        exact run_failExpecting _ _
      obtain ⟨failure, run⟩ := run
      rw [run_bind_of_error run]
      trivial

/-- A subject that names no variable was read up to a last ampersand. -/
def Dangles (subject : Subject) (after : Cursor) : Prop :=
  subject.variableName? = none ∧ after.Stranded

theorem alike_subject (ends : Ends back back') (kind : Subject.Kind) :
    Alike back back' Dangles limit (subject kind) (subject kind) := by
  have typed {kind : TypeExpr → Subject} (unnamed : ∀ type, (kind type).variableName? = none) :
      Alike back back' Dangles limit (do
        let type ← TypeExpr.read
        expectSeparated
        return kind type) (do
        let type ← TypeExpr.read
        expectSeparated
        return kind type) := by
    intro shared here there within abreast
    refine (TypeExpr.alike_read ends shared here there (Nat.le_refl _) abreast).bind ?_ ?_
    · intro type more here there short abreast
      refine (agree_expectSeparated ends abreast).bind_of_sure short ?_
      exact fun _ more here there le abreast => .ok le abreast
    · exact fun _ type here stranded => leaves_expectSeparated ⟨unnamed type, stranded⟩
  cases kind with
  | returned => exact typed fun _ => rfl
  | thrown => exact typed fun _ => rfl
  | param =>
      intro shared here there within abreast
      rw [subject, run_get_bind, run_get_bind, isAtParameter_eq ends abreast]
      refine (agree_typeUnless ends _ abreast).bind ?_ ?_
      · intro type more here there short abreast
        refine (agree_accept ends abreast rfl).bind_of_sure short ?_
        intro byReference more here there short abreast
        refine (agree_accept ends abreast rfl).bind_of_sure short ?_
        intro variadic more here there short abreast
        refine (agree_expect ends abreast rfl).bind_of_sure short ?_
        intro name more here there short abreast
        refine (agree_expectSeparated ends abreast).bind_of_sure short ?_
        exact fun _ more here there le abreast => .ok le abreast
      · intro _ type here stranded
        have marked := stranded.spent.accept .ampersand
        rw [run_bind_of_ok (run_accept _ _), run_bind_of_ok (run_accept _ _)]
        exact leaves_expect (marked.accept .ellipsis) rfl (by decide) _ _
  | var =>
      intro shared here there within abreast
      rw [subject, run_get_bind, run_get_bind, abreast.isAt_eq ends _ rfl]
      refine (agree_typeUnless ends _ abreast).bind ?_ ?_
      · intro type more here there short abreast
        refine (agree_acceptVariable ends abreast).bind_of_sure short ?_
        intro name more here there short abreast
        refine (agree_expectSeparated ends abreast).bind_of_sure short ?_
        exact fun _ more here there le abreast => .ok le abreast
      · intro _ type here stranded
        rw [run_bind_of_ok (run_acceptVariable_of_spent stranded.spent)]
        exact leaves_expectSeparated ⟨rfl, stranded⟩

/-! ## Plain payloads -/

theorem plainLength_cons (depth : Nat) (token : Token) (rest : List Token) :
    plainLength depth (token :: rest) =
      if token.kind = .closing ∨ token.kind = .lineBreak ∧ depth = 0 then 0
      else plainLength (roundsBehind depth token.kind) rest + 1 := by
  rw [plainLength]
  cases token.kind with
  | lineBreak =>
      by_cases flat : depth = 0
      · simp [flat]
      · simp [flat, roundsBehind]
  | _ => simp [roundsBehind]

theorem plainLength_le (depth : Nat) (tokens : List Token) :
    plainLength depth tokens ≤ tokens.length := by
  induction tokens generalizing depth with
  | nil => exact Nat.le_refl _
  | cons token rest ih =>
      rw [plainLength_cons]
      split
      · exact Nat.zero_le _
      · exact Nat.succ_le_succ (ih _)

/-- A payload that reaches the end of some tokens goes on from there with the
parentheses that they leave open. -/
theorem plainLength_append_of_le {depth : Nat} {shared rest : List Token}
    (within : shared.length ≤ plainLength depth (shared ++ rest)) (other : List Token) :
    plainLength depth (shared ++ other) =
      shared.length + plainLength (openRounds depth shared) other := by
  induction shared generalizing depth with
  | nil => exact (Nat.zero_add _).symm
  | cons token shared ih =>
      rw [List.cons_append, plainLength_cons] at within ⊢
      split at within
      next => cases within
      next goesOn =>
        rw [if_neg goesOn, ih (Nat.le_of_succ_le_succ within), List.length_cons, Nat.add_right_comm]
        rfl

theorem plainLength_padding {padding : List Token} (soft : ArePadding padding) (depth : Nat)
    (rest : List Token) :
    plainLength depth (padding ++ rest) = padding.length + plainLength depth rest := by
  induction padding with
  | nil => exact (Nat.zero_add _).symm
  | cons token padding ih =>
      have pads := (soft token List.mem_cons_self).1
      rw [List.cons_append, plainLength_cons, pads, if_neg (by simp), List.length_cons,
        Nat.add_right_comm]
      exact congrArg Nat.succ (ih fun token mem => soft token (List.mem_cons_of_mem _ mem))

/-- Line breaks and padding. -/
def AreBlank (tokens : List Token) : Prop :=
  ∀ token ∈ tokens, token.kind = .lineBreak ∨ ∀ c ∈ token.text, isBlank c = true

theorem blank_undecorated {tokens : List Token} (blank : AreBlank tokens) (after : Bool) :
    ∀ c ∈ undecorated after tokens, isBlank c = true := by
  induction tokens generalizing after with
  | nil => exact nofun
  | cons token tokens ih =>
      obtain ⟨one, others⟩ := List.forall_mem_cons.mp blank
      intro c mem
      rw [undecorated] at mem
      split at mem
      next =>
        rcases List.mem_cons.mp mem with rfl | mem
        · decide
        · exact ih others true c mem
      next other =>
        have text := one.resolve_left other
        have dropped : ∀ c ∈ Text.dropSpace token.text, c ∈ token.text := by
          intro c mem
          cases known : token.text with
          | nil => rwa [known] at mem
          | cons d rest =>
              rw [known] at mem
              by_cases space : d = ' '
              · subst space
                exact List.mem_cons_of_mem _ mem
              · have same : Text.dropSpace (d :: rest) = d :: rest := by
                  simp [Text.dropSpace, space]
                rwa [same] at mem
        split at mem
        next =>
          rcases List.mem_append.mp mem with mem | mem
          · exact text c (dropped c mem)
          · exact ih others false c mem
        next =>
          rcases List.mem_append.mp mem with mem | mem
          · exact text c mem
          · exact ih others false c mem

/-- Blank tokens at the end of a payload are trimmed. -/
theorem trimEnd_undecorated_append {tail : List Token} (blank : AreBlank tail)
    (tokens : List Token) :
    Text.trimEnd (undecorated false (tokens ++ tail)) =
      Text.trimEnd (undecorated false tokens) := by
  have split (after : Bool) : ∃ more, (∀ c ∈ more, isBlank c = true) ∧
      undecorated after (tokens ++ tail) = undecorated after tokens ++ more := by
    induction tokens generalizing after with
    | nil => exact ⟨undecorated after tail, blank_undecorated blank after, rfl⟩
    | cons token tokens ih =>
        rw [List.cons_append, undecorated, undecorated]
        split
        next =>
          obtain ⟨more, soft, same⟩ := ih true
          exact ⟨more, soft, by rw [same]; rfl⟩
        next =>
          obtain ⟨more, soft, same⟩ := ih false
          split
          · exact ⟨more, soft, by rw [same, List.append_assoc]⟩
          · exact ⟨more, soft, by rw [same, List.append_assoc]⟩
  obtain ⟨more, soft, same⟩ := split false
  rw [same, Text.trimEnd_append_of_blank soft]

theorem plainText_eq (cursor : Cursor) :
    plainText cursor =
      .ok (Text.trimEnd (undecorated false (cursor.rest.take (plainLength 0 cursor.rest))))
      (cursor.forward (plainLength 0 cursor.rest)) :=
  rfl

/-- What may stand behind an entry elsewhere: the end of a line behind which no
plain payload goes on. -/
structure Closes (back back' : List Token) : Prop extends Ends back back' where
  encloses : (∃ token, back.head? = some token ∧ token.kind = .lineBreak) ∨
    (∃ token, back'.head? = some token ∧ token.kind = .closing) ∨
      ∃ broken rest, back' = broken :: rest ∧ broken.kind = .lineBreak ∧
        ∃ token, rest.head? = some token ∧ token.kind = .closing

/-- Where an entry elsewhere stops: where its line ends, or behind that line in
front of the closing marker. -/
def Reached (back back' : List Token) (after : Cursor) : Prop :=
  after.rest = back' ∨ ((∀ token, back.head? = some token → token.kind ≠ .lineBreak) ∧
    ∃ broken, back' = broken :: after.rest ∧ broken.kind = .lineBreak ∧
      ∃ token, after.rest.head? = some token ∧ token.kind = .closing)

theorem AreBlank.of_arePadding {padding : List Token} (soft : ArePadding padding) :
    AreBlank padding :=
  fun token mem => Or.inr fun c within => isBlank_of_isPadding ((soft token mem).2 c within)

/-- How far a plain payload reaches into what ends its line elsewhere. -/
theorem plainLength_back (closes : Closes back back') {depth : Nat}
    (stopped : plainLength depth back = 0) :
    plainLength depth back' = 0 ∨ (plainLength depth back' = 1 ∧
      (∀ token, back.head? = some token → token.kind ≠ .lineBreak) ∧
        ∃ broken rest, back' = broken :: rest ∧ broken.kind = .lineBreak ∧
          ∃ token, rest.head? = some token ∧ token.kind = .closing) := by
  by_cases flat : depth = 0
  · left
    cases stands : back' with
    | nil => exact absurd stands closes.proper
    | cons first rest =>
        rcases closes.far first (by rw [stands]; rfl) with broken | closed
        · rw [plainLength_cons, if_pos (Or.inr ⟨broken, flat⟩)]
        · rw [plainLength_cons, if_pos (Or.inl closed)]
  · have unbroken : ∀ token, back.head? = some token → token.kind ≠ .lineBreak := by
      intro token head broken
      obtain ⟨rest, rfl⟩ := List.head?_eq_some_iff.mp head
      rw [plainLength_cons, if_neg (by simp [broken, flat])] at stopped
      cases stopped
    rcases closes.encloses with ⟨token, head, broken⟩ | ⟨token, head, closed⟩ |
      ⟨broken, rest, rfl, kind, closer⟩
    · exact absurd broken (unbroken token head)
    · left
      obtain ⟨rest, rfl⟩ := List.head?_eq_some_iff.mp head
      rw [plainLength_cons, if_pos (Or.inl closed)]
    · right
      obtain ⟨token, head, closed⟩ := closer
      obtain ⟨last, rfl⟩ := List.head?_eq_some_iff.mp head
      refine ⟨?_, unbroken, broken, token :: last, rfl, kind, token, rfl, closed⟩
      rw [plainLength_cons, if_neg (by simp [kind, flat]), plainLength_cons, if_pos (Or.inl closed)]

/-- A plain payload that ends in front of what differs takes up all that is shared. -/
theorem plainLength_of_ended {padding : List Token} (soft : ArePadding padding)
    (rest : here.rest = shared ++ (padding ++ back))
    (ended : (here.forward (plainLength 0 here.rest)).rest = back) :
    plainLength 0 here.rest = (shared ++ padding).length ∧
      shared.length ≤ plainLength 0 (shared ++ (padding ++ back)) ∧
      plainLength (openRounds 0 shared) back = 0 := by
  have reaches : plainLength 0 here.rest = (shared ++ padding).length := by
    have short := plainLength_le 0 here.rest
    have lengths := congrArg List.length ended
    rw [forward, List.length_drop] at lengths
    rw [rest, List.length_append, List.length_append] at lengths short
    rw [rest, List.length_append]
    omega
  have within : shared.length ≤ plainLength 0 (shared ++ (padding ++ back)) := by
    rw [← rest, reaches, List.length_append]
    exact Nat.le_add_right _ _
  have whole := plainLength_append_of_le within (padding ++ back)
  rw [← rest, reaches, List.length_append, plainLength_padding soft] at whole
  exact ⟨reaches, within, by omega⟩

/-- A plain payload is settled by the tokens that it takes up. -/
theorem run_plainText_of_sharing (closes : Closes back back')
    (sharing : Sharing back back' shared here there)
    {text : Text} {after : Cursor} (run : plainText here = .ok text after)
    (ended : after.rest = back) :
    ∃ after', plainText there = .ok text after' ∧ Reached back back' after' := by
  obtain ⟨padding, soft, rest⟩ := sharing.near
  obtain ⟨padding', soft', rest'⟩ := sharing.far
  rw [plainText_eq] at run
  cases run
  obtain ⟨reaches, within, stopped⟩ := plainLength_of_ended soft rest ended
  have length : plainLength 0 there.rest =
      (shared ++ padding').length + plainLength (openRounds 0 shared) back' := by
    rw [rest', plainLength_append_of_le within, plainLength_padding soft', List.length_append,
      Nat.add_assoc]
  have taken : here.rest.take (plainLength 0 here.rest) = shared ++ padding := by
    rw [reaches, rest, ← List.append_assoc, List.take_left]
  have text : Text.trimEnd (undecorated false (shared ++ padding)) =
      Text.trimEnd (undecorated false shared) :=
    trimEnd_undecorated_append (.of_arePadding soft) shared
  rw [plainText_eq there, length, taken, text]
  rw [← List.append_assoc] at rest'
  rcases plainLength_back closes stopped with none |
    ⟨one, unbroken, broken, last, rfl, kind, closer⟩
  · rw [none, Nat.add_zero]
    refine ⟨_, ?_, Or.inl (?_ : (there.forward (shared ++ padding').length).rest = back')⟩
    · rw [rest', List.take_left, trimEnd_undecorated_append (.of_arePadding soft')]
    · rw [forward, rest', List.drop_left]
  · have split : there.rest = (shared ++ (padding' ++ [broken])) ++ last := by
      rw [rest']
      simp only [List.append_assoc, List.cons_append, List.nil_append]
    have count : (shared ++ padding').length + 1 = (shared ++ (padding' ++ [broken])).length := by
      simp only [List.length_append, List.length_cons, List.length_nil, Nat.add_assoc]
    have blank : AreBlank (padding' ++ [broken]) := by
      intro token mem
      rcases List.mem_append.mp mem with mem | mem
      · exact AreBlank.of_arePadding soft' token mem
      · exact Or.inl (List.mem_singleton.mp mem ▸ kind)
    rw [one, count]
    have moved : (there.forward (shared ++ (padding' ++ [broken])).length).rest = last := by
      rw [forward, split, List.drop_left]
    refine ⟨there.forward (shared ++ (padding' ++ [broken])).length, ?_,
      Or.inr ⟨unbroken, broken, ?_, kind, ?_⟩⟩
    · rw [split, List.take_left, trimEnd_undecorated_append blank]
    · rw [moved]
    · rw [moved]
      exact closer

/-! ## Descriptions -/

theorem restOfLine_eq (cursor : Cursor) :
    restOfLine cursor =
      .ok (Text.trim (textOf (cursor.rest.takeWhile fun token => isInLine token.kind)))
        cursor.toLineEnd := by
  rw [← textSince_skipWhile]
  rfl

theorem run_furtherLines_of_not {cursor : Cursor} (bound : Nat)
    (stopped : continues cursor = false) :
    furtherLines bound cursor = .ok [] cursor := by
  cases bound with
  | zero => rfl
  | succ bound =>
      rw [furtherLines, run_get_bind, stopped]
      rfl

/-- A line that continues a description is taken behind its line break. -/
theorem run_furtherLines_of_continues {cursor : Cursor} (bound : Nat)
    (more : continues cursor = true) :
    furtherLines (bound + 1) cursor = (do
      let others ← furtherLines bound
      return Text.trimEnd (Text.dropSpace (textOf
        (cursor.step.rest.takeWhile fun token => isInLine token.kind))) :: others :
        Read (List Text))
      cursor.step.toLineEnd := by
  have place := index_step (isAt_lineBreak_of_continues more)
  rw [← textSince_skipWhile, ← toLineEnd_eq, place, furtherLines, run_get_bind, more]
  rfl

/-- The loop over the lines of a description stops, or takes the line behind the line break. -/
theorem furtherLines_eq_ok {cursor after : Cursor} {bound : Nat} {lines : List Text}
    (run : furtherLines (bound + 1) cursor = .ok lines after) :
    continues cursor = false ∧ lines = [] ∧ after = cursor ∨
      continues cursor = true ∧ ∃ others, furtherLines bound cursor.step.toLineEnd =
        .ok others after ∧
        lines = Text.trimEnd (Text.dropSpace (textOf
          (cursor.step.rest.takeWhile fun token => isInLine token.kind))) :: others := by
  cases more : continues cursor with
  | false =>
      rw [run_furtherLines_of_not _ more] at run
      cases run
      exact .inl ⟨rfl, rfl, rfl⟩
  | true =>
      rw [run_furtherLines_of_continues _ more] at run
      obtain ⟨others, _, ran, finished⟩ := bind_eq_ok.mp run
      cases finished
      exact .inr ⟨rfl, others, ran, rfl⟩

theorem continues_of_endLine {cursor : Cursor} (ends : EndLine cursor.advance.rest) :
    continues cursor = false := by
  cases behind : cursor.advance.rest with
  | nil =>
      have kind : cursor.advance.kind? = none := by rw [kind?, behind]; rfl
      rw [continues, kind, Bool.and_false]
  | cons first rest =>
      have kind : cursor.advance.kind? = some first.kind := by rw [kind?, behind]; rfl
      rcases ends first (by rw [behind]; rfl) with broken | closed
      · rw [continues, kind, broken, Bool.and_false]
      · rw [continues, kind, closed, Bool.and_false]

/-- What stands behind a line break among shared tokens settles whether a description goes on. -/
theorem continues_eq (ends : Ends back back')
    (abreast : Abreast back back' (first :: shared) here there) :
    continues here = continues there := by
  have behind := abreast.advance ends
  cases shown : shared.dropWhile (fun token => token.kind == .padding) with
  | nil =>
      rw [shown] at behind
      obtain ⟨ended, ended'⟩ := behind.ended rfl
      rw [continues_of_endLine (ended ▸ ends.near), continues_of_endLine (ended' ▸ ends.far)]
  | cons next rest =>
      rw [shown] at behind
      have same : here.isAt .lineBreak = there.isAt .lineBreak := by
        rw [isAt, isAt, abreast.kind?_eq.1, abreast.kind?_eq.2]
      rw [continues, continues, same, behind.kind?_eq.1, behind.kind?_eq.2]

theorem length_le_of_furtherLines {cursor after : Cursor} {bound : Nat} {lines : List Text}
    (run : furtherLines bound cursor = .ok lines after) :
    after.rest.length ≤ cursor.rest.length := by
  have crossed := (crosses_furtherLines bound cursor).of_ok run
  have ahead := crossed.index_le
  rw [length_rest, length_rest, crossed.tokens]
  omega

theorem succeeds_furtherLines (bound : Nat) (cursor : Cursor) :
    Succeeds (furtherLines bound) cursor := by
  induction bound generalizing cursor with
  | zero => exact succeeds_pure _ _
  | succ bound ih =>
      rw [furtherLines]
      refine succeeds_get_bind ?_
      split
      · refine succeeds_bind (succeeds_move _ _) fun _ _ =>
          succeeds_bind (succeeds_move _ _) fun _ after => ?_
        exact succeeds_get_bind (succeeds_bind (ih after) fun _ _ => succeeds_pure _ _)
      · exact succeeds_pure _ _

/-- Between two ends of lines every line goes on with a description. -/
inductive GoesOn : Cursor → Cursor → Prop
  | stays (cursor : Cursor) : GoesOn cursor cursor
  | line {cursor after : Cursor} (more : continues cursor = true) (later : GoesOn cursor.step.toLineEnd after) :
      GoesOn cursor after

theorem goesOn_of_furtherLines {cursor after : Cursor} {bound : Nat} {lines : List Text}
    (run : furtherLines bound cursor = .ok lines after) : GoesOn cursor after := by
  induction bound generalizing cursor lines with
  | zero =>
      cases run
      exact .stays _
  | succ bound ih =>
      rcases furtherLines_eq_ok run with ⟨-, -, rfl⟩ | ⟨more, others, ran, -⟩
      · exact .stays _
      · exact .line more (ih ran)

/-- Where no description goes on behind a line here, none does elsewhere. -/
def Halts (back back' : List Token) : Prop :=
  ∀ cursor cursor' : Cursor, cursor.rest = back → cursor'.rest = back' →
    continues cursor = false → continues cursor' = false

/-- The given lines are taken elsewhere, and perhaps more lines behind them. -/
def TakesLines (back back' : List Token) (bound : Nat) (there : Cursor) (lines : List Text) : Prop :=
  ∃ others middle after, furtherLines bound there = .ok (lines ++ others) after ∧ middle.rest = back' ∧
    GoesOn middle after ∧ (Halts back back' → others = [] ∧ after = middle)

/-- Where a description does not go on here, what it does elsewhere is behind all shared tokens. -/
theorem takesLines_of_not_continues (abreast : Abreast back back' shared here there)
    (none : continues here = false)
    (ended : here.rest = back) (bound : Nat) : TakesLines back back' bound there [] := by
  obtain rfl := abreast.nil_of_rest ended
  have far := (abreast.ended rfl).2
  obtain ⟨others, after, ran⟩ := succeeds_furtherLines bound there
  refine ⟨others, there, after, ran, far, goesOn_of_furtherLines ran, fun halts => ?_⟩
  rw [run_furtherLines_of_not _ (halts here there ended far none)] at ran
  cases ran
  exact ⟨rfl, rfl⟩

/--
The lines that continue a description are taken elsewhere, too, and perhaps
more lines behind them.
-/
theorem takesLines_of_abreast (ends : Ends back back') {bound bound' : Nat} {lines : List Text}
    {after : Cursor} (abreast : Abreast back back' shared here there)
    (run : furtherLines bound here = .ok lines after) (ended : after.rest = back)
    (full : here.rest.length ≤ bound) (enough : shared.length ≤ bound') :
    TakesLines back back' bound' there lines := by
  induction bound generalizing shared here there bound' lines with
  | zero =>
      cases run
      refine takesLines_of_not_continues abreast ?_ ended bound'
      have none := List.length_eq_zero_iff.mp (Nat.le_zero.mp full)
      rw [continues, isAt, kind?, none]
      rfl
  | succ bound ih =>
      rcases furtherLines_eq_ok run with ⟨none, rfl, rfl⟩ | ⟨more, others, ran, rfl⟩
      · exact takesLines_of_not_continues abreast none ended bound'
      · obtain ⟨first, rest, stands, -⟩ := exists_cons_of_kind? (isAt_lineBreak_of_continues more)
        have fewer : here.step.toLineEnd.rest.length ≤ rest.length := by
          rw [← rest_step stands]
          exact List.length_dropWhile_le _ _
        rw [stands, List.length_cons] at full
        cases shared with
        | nil =>
            have near := (abreast.ended rfl).1
            have short := length_le_of_furtherLines ran
            rw [ended, ← near, stands, List.length_cons] at short
            omega
        | cons broken shared =>
            rw [List.length_cons] at enough
            obtain ⟨bound', rfl⟩ := Nat.exists_eq_add_one_of_ne_zero (n := bound') (by omega)
            obtain ⟨line, later, padding, padding', few, behind, soft, taken, soft', taken'⟩ :=
              abreast.step.toLineEnd ends
            obtain ⟨added, middle, after', run', ended', goesOn, still⟩ := ih behind ran (by omega)
              (Nat.le_trans few (Nat.le_of_succ_le_succ enough))
            refine ⟨added, middle, after', ?_, ended', goesOn, still⟩
            rw [run_furtherLines_of_continues bound' (continues_eq ends abreast ▸ more),
              run_bind_of_ok run', taken, taken', textOf_append, textOf_append,
              Text.trimEnd_dropSpace_append soft.blank, Text.trimEnd_dropSpace_append soft'.blank]
            rfl

/-- A description that has a first line is not empty. -/
theorem collapsed_ne_nil {line first : Text} (proper : ¬ first.isEmpty = true)
    (trimmed : first = Text.trim line)
    (others : List Text) : Text.join [' '] ((first :: others).flatMap Text.words) ≠ [] := by
  cases first with
  | nil => exact absurd rfl proper
  | cons c rest =>
      have black := @Text.head?_trim line c (by rw [← trimmed]; rfl)
      obtain ⟨word, words, split, begins⟩ := @Text.exists_words (c :: rest) c rfl black
      rw [List.flatMap_cons, split, List.cons_append]
      intro empty
      have head := @Text.head?_join [' '] word c begins (words ++ others.flatMap Text.words)
      rw [empty] at head
      cases head

/--
A run elsewhere that stops where its line ends, or goes on with a description
from there on.  Where no description goes on, it gives one of the given values.
-/
def Follows {α : Type} (back back' : List Token) (halts : Prop) (same : α → Prop)
    (result : EStateM.Result Failure Cursor α) : Prop :=
  ∃ found middle after, result = .ok found after ∧ Reached back back' middle ∧ GoesOn middle after ∧
    (halts → same found ∧ after = middle)

theorem Follows.of_reached {α : Type} {halts : Prop} {same : α → Prop}
    {result : EStateM.Result Failure Cursor α}
    {found : α} {after : Cursor} (run : result = .ok found after)
    (reached : Reached back back' after)
    (holds : same found) : Follows back back' halts same result :=
  ⟨found, after, after, run, reached, .stays after, fun _ => ⟨holds, rfl⟩⟩

/-- A description is settled by the tokens that it takes up, and perhaps goes on behind them. -/
theorem follows_description (ends : Ends back back') {found : Text × Option Text} {after : Cursor}
    (abreast : Abreast back back' shared here there)
    (run : description here = .ok found after) (ended : after.rest = back) :
    Follows back back' (found.1 ≠ [] → Halts back back') (· = found) (description there) := by
  obtain ⟨line, more, padding, padding', few, behind, soft, taken, soft', taken'⟩ :=
    abreast.toLineEnd ends
  have first : Text.trim (textOf (line ++ padding)) = Text.trim (textOf (line ++ padding')) := by
    rw [textOf_append, textOf_append, Text.trim_append_of_blank soft.blank,
      Text.trim_append_of_blank soft'.blank]
  rw [description, run_bind_of_ok (restOfLine_eq here), taken] at run
  rw [description, run_bind_of_ok (restOfLine_eq there), taken', ← first]
  split at run
  next none =>
    cases run
    obtain rfl := behind.nil_of_rest ended
    rw [if_pos none]
    exact .of_reached rfl (.inl (behind.ended rfl).2) rfl
  next some =>
    rw [run_get_bind] at run
    obtain ⟨others, middle, ran, same⟩ := bind_eq_ok.mp run
    cases same
    obtain ⟨added, middle', after', ran', ended', goesOn, still⟩ :=
      takesLines_of_abreast ends behind ran ended (Nat.le_refl _) behind.length_le.2
    rw [if_neg some, run_get_bind, run_bind_of_ok ran']
    refine ⟨_, middle', after', rfl, .inl ended', goesOn, fun halts => ?_⟩
    obtain ⟨rfl, stopped⟩ := still (halts (collapsed_ne_nil some rfl others))
    rw [List.append_nil]
    exact ⟨rfl, stopped⟩

/-- There is always a description, at least an empty one. -/
theorem succeeds_description (cursor : Cursor) : Succeeds description cursor := by
  rw [description]
  refine succeeds_bind ⟨_, _, restOfLine_eq cursor⟩ fun first after => ?_
  split
  · exact succeeds_pure _ _
  · exact succeeds_get_bind (succeeds_bind (succeeds_furtherLines _ _) fun _ _ => succeeds_pure _ _)

/-! ## Typed payloads -/

/-- A typed payload that names no variable and has a last ampersand for its description. -/
def EndsDangling (payload : Payload) : Prop :=
  ∃ subject, payload = .typed subject ['&'] ∧ subject.variableName? = none

/-- Where an ampersand remains, it is the description. -/
theorem run_description_of_stranded {cursor : Cursor} (stranded : cursor.Stranded)
    (marks : ∀ token ∈ cursor.rest, token.kind = .ampersand → token.text = ['&']) :
    ∃ after, description cursor = .ok (['&'], none) after := by
  obtain ⟨mark, padding, rest, kind, soft⟩ := stranded
  have line : (cursor.rest.takeWhile fun token => isInLine token.kind) = mark :: padding := by
    rw [rest, List.takeWhile_eq_self_iff]
    intro token mem
    rcases List.mem_cons.mp mem with rfl | mem
    · rw [kind]
      rfl
    · rw [(soft token mem).1]
      rfl
  have ended : cursor.toLineEnd.rest = [] := by
    have taken :=
      List.takeWhile_append_dropWhile (p := fun token => isInLine token.kind) (l := cursor.rest)
    rw [line, ← rest] at taken
    exact List.append_right_eq_self.mp taken
  have text : Text.trim (textOf (mark :: padding)) = ['&'] := by
    rw [textOf_cons, marks mark (rest ▸ List.mem_cons_self) kind,
      Text.trim_append_of_blank soft.blank]
    decide
  have stopped : continues cursor.toLineEnd = false := by
    have none : cursor.toLineEnd.isAt .lineBreak = false := by
      rw [isAt, kind?, ended]
      rfl
    rw [continues, none, Bool.false_and]
  refine ⟨cursor.toLineEnd, ?_⟩
  rw [description, run_bind_of_ok (restOfLine_eq cursor), line, text, if_neg (by decide),
    run_get_bind, run_bind_of_ok (run_furtherLines_of_not _ stopped)]
  rfl

/-- A typed payload is settled by the tokens that it takes up, unless its
description is a last ampersand. -/
theorem follows_typedWithWording (ends : Ends back back') (kind : Subject.Kind)
    (abreast : Abreast back back' shared here there)
    (marks : ∀ token ∈ here.rest, token.kind = .ampersand → token.text = ['&'])
    {found : Payload × Option Text} {after : Cursor}
    (run : typedWithWording kind here = .ok found after) (ended : after.rest = back) :
    Follows back back' (found.1.IsDescribed → Halts back back') (· = found)
      (typedWithWording kind there) ∨
      back = [] ∧ EndsDangling found.1 := by
  obtain ⟨name, middle, ran, run⟩ := bind_eq_ok.mp run
  obtain ⟨words, last, ran', finished⟩ := bind_eq_ok.mp run
  cases finished
  have agree := alike_subject ends kind shared here there (Nat.le_refl _) abreast
  rw [ran] at agree
  cases far : subject kind there with
  | ok name' middle' =>
      rw [far] at agree
      cases agree with
      | ok within behind =>
          obtain ⟨words', stop, after', ran', reached, goesOn, still⟩ :=
            follows_description ends behind ran' ended
          left
          rw [typedWithWording, run_bind_of_ok far, run_bind_of_ok ran']
          refine ⟨_, stop, after', rfl, reached, goesOn, fun halts => ?_⟩
          obtain ⟨rfl, stopped⟩ := still fun proper => halts ⟨words.1, rfl, proper⟩
          exact ⟨rfl, stopped⟩
  | error failure stop =>
      rw [far] at agree
      cases agree with
      | stuck _ _ empty stops =>
          obtain ⟨unnamed, stranded⟩ := stops
          have crossed := (crosses_subject kind here).of_ok ran
          obtain ⟨taken, split, -⟩ := crossed.exists_crossed
          have still : ∀ token ∈ middle.rest, token.kind = .ampersand → token.text = ['&'] :=
            fun token mem => marks token (split ▸ List.mem_append_right taken mem)
          obtain ⟨last', ran''⟩ := run_description_of_stranded stranded still
          rw [ran''] at ran'
          cases ran'
          exact Or.inr ⟨empty, name, rfl, unnamed⟩

/-- Where a typed payload cannot be read, it cannot be read elsewhere. -/
theorem run_typedWithWording_error (ends : Ends back back') (kind : Subject.Kind)
    (abreast : Abreast back back' shared here there) {failure : Failure} {after : Cursor}
    (run : typedWithWording kind here = .error failure after) :
    ∃ failure' after', typedWithWording kind there = .error failure' after' := by
  have agree := alike_subject ends kind shared here there (Nat.le_refl _) abreast
  cases near : subject kind here with
  | ok name middle =>
      obtain ⟨words, last, ran⟩ := succeeds_description middle
      rw [typedWithWording, run_bind_of_ok near, run_bind_of_ok ran] at run
      cases run
  | error failure stop =>
      cases far : subject kind there with
      | ok name' middle' =>
          rw [near, far] at agree
          cases agree
      | error failure' stop' =>
          rw [typedWithWording, run_bind_of_error far]
          exact ⟨_, _, rfl⟩

end Grammar

end Payload

end DocComment
