import DocComment.Proofs.Reading.Ahead
import DocComment.Proofs.Token.Following

/-!
# Reading a tag from a text on one line

What stands behind the subject of a tag and what stands there on the one line are a prospect for the
subject (`Following.faces`).
-/

namespace DocComment

open Token

namespace Token

variable {first : Token} {tokens near far : List Token}

theorem head?_dropWhile_joined (tokens : List Token) :
    ((joined tokens).dropWhile fun token => token.kind == .padding).head?.map Token.kind =
      (tokens.dropWhile fun token => token.kind == .padding).head?.map Token.kind := by
  induction tokens with
  | nil => rfl
  | cons token tokens ih =>
      by_cases pads : token.kind = .padding
      · have known : token.kind ≠ .other := by
          rw [pads]
          decide
        rw [joined_cons, prepend_of_known known, List.dropWhile_cons, List.dropWhile_cons,
          beq_iff_eq.mpr pads, if_pos rfl, if_pos rfl, ih]
      · have head := head?_joined (token :: tokens)
        have hard : (token.kind == Kind.padding) = false := beq_eq_false_iff_ne.mpr pads
        cases whole : joined (token :: tokens) with
        | nil =>
            rw [whole] at head
            cases head
        | cons next others =>
            rw [whole] at head
            have same : next.kind = token.kind := Option.some.inj head
            rw [List.dropWhile_cons, List.dropWhile_cons, same, hard, if_neg Bool.false_ne_true,
              if_neg Bool.false_ne_true]
            exact head

end Token

namespace Prospect

open Cursor

variable {gap : List Token} {first : Token} {near far : List Token}

theorem isAt_joined (first : Token) (tokens : List Token) (kind : Kind) :
    (Cursor.mk [] (joined (first :: tokens))).isAt kind = (first.kind == kind) := by
  rw [isAt, kind?, head?_joined]
  rfl

theorem nextKind?_joined (known : first.kind ≠ .other) (tokens : List Token) :
    (Cursor.mk [] (joined (first :: tokens))).nextKind? = tokens.head?.map Token.kind := by
  rw [nextKind?, joined_cons, prepend_of_known known, List.tail_cons, head?_joined]

theorem joined_cons_ne_nil (first : Token) (tokens : List Token) :
    joined (first :: tokens) ≠ [] := by
  intro none
  have head := head?_joined (first :: tokens)
  rw [none] at head
  cases head

theorem isAtIntersection_joined (first : Token) (tokens : List Token) :
    TypeExpr.Grammar.isAtIntersection ⟨[], joined (first :: tokens)⟩ =
      (first.kind == .ampersand &&
        match (tokens.dropWhile fun token => token.kind == .padding).head?.map Token.kind with
        | none | some .varName | some .ellipsis => false
        | _ => true) := by
  rw [TypeExpr.Grammar.isAtIntersection, isAt_joined]
  by_cases and : first.kind = .ampersand
  · have known : first.kind ≠ .other := by
      rw [and]
      decide
    have behind : (Cursor.mk [] (joined (first :: tokens))).advance.kind? =
        (tokens.dropWhile fun token => token.kind == .padding).head?.map Token.kind := by
      rw [kind?, rest_advance_eq, joined_cons, prepend_of_known known, List.tail_cons,
        head?_dropWhile_joined]
    exact congrArg (fun found => first.kind == .ampersand &&
      match found with
      | none | some .varName | some .ellipsis => false
      | _ => true) behind
  · rw [beq_eq_false_iff_ne.mpr and, Bool.false_and, Bool.false_and]

/-- Continuations that begin with the same token. -/
def ofFirst (soft : ArePadding gap) (first : Token) (hard : first.kind ≠ .padding) (near far : List Token)
    (pairs : first.kind = .squareOpen →
      near.head?.map Token.kind = far.head?.map Token.kind ∨ far.head?.map Token.kind = some .padding)
    (joins : first.kind = .ampersand →
      (near.dropWhile fun token => token.kind == .padding).head?.map Token.kind =
        (far.dropWhile fun token => token.kind == .padding).head?.map Token.kind ∨
      (near.dropWhile fun token => token.kind == .padding).head?.map Token.kind = some .other ∨
        (near.dropWhile fun token => token.kind == .padding).head?.map Token.kind = some .lineBreak) : Prospect where
  gap := gap
  near := joined (first :: near)
  gap' := gap
  far := joined (first :: far)
  soft := soft
  soft' := soft
  proper := joined_cons_ne_nil first near
  proper' := joined_cons_ne_nil first far
  firm := by
    rw [isAt_joined]
    exact beq_eq_false_iff_ne.mpr hard
  alike kind _ := by rw [isAt_joined, isAt_joined]
  spaced := id
  glued none proper := absurd none proper
  paired opens closes := by
    rw [isAt_joined, beq_iff_eq] at opens
    have known : first.kind ≠ .other := by
      rw [opens]
      decide
    rw [nextKind?_joined known] at closes ⊢
    rcases pairs opens with same | pads
    · exact same.trans closes
    · cases pads.symm.trans closes
  alone apart := by
    rw [isAtIntersection_joined] at apart ⊢
    cases and : first.kind == .ampersand with
    | false => rfl
    | true =>
        rw [and, Bool.true_and] at apart
        rcases joins (beq_iff_eq.mp and) with same | other | broken
        · rw [Bool.true_and, ← same, apart]
        · rw [other] at apart
          cases apart
        · rw [broken] at apart
          cases apart
  ended _ _ ends := by
    have same : (Cursor.mk [] (joined (first :: near))).kind? = (Cursor.mk [] (joined (first :: far))).kind? := by
      rw [kind?, kind?, head?_joined, head?_joined]
      rfl
    rw [← Payload.Grammar.isAtLineEnd_congr same]
    exact ends

theorem isAt_of_outside {kind : Kind} (outside : first.kind.isWithinType = false)
    (inside : kind.isWithinType = true)
    (tokens : List Token) : (Cursor.mk [] (joined (first :: tokens))).isAt kind = false := by
  rw [isAt_joined]
  refine beq_eq_false_iff_ne.mpr fun same => ?_
  rw [same, inside] at outside
  cases outside

/-- The end of a line, and a closing marker behind a space. -/
def ofEnd (soft : ArePadding gap) (outside : first.kind.isWithinType = false) (near far : List Token) : Prospect where
  gap := gap
  near := joined (first :: near)
  gap' := [⟨.padding, [' ']⟩]
  far := joined (⟨.closing, Cleanup.closer⟩ :: far)
  soft := soft
  soft' := List.forall_mem_singleton.mpr ⟨rfl, List.forall_mem_singleton.mpr rfl⟩
  proper := joined_cons_ne_nil first near
  proper' := joined_cons_ne_nil _ far
  firm := isAt_of_outside outside rfl near
  alike kind inside := by rw [isAt_of_outside outside inside, isAt_of_outside rfl inside]
  spaced _ := List.cons_ne_nil _ _
  glued _ _ kind inside := isAt_of_outside outside inside near
  paired opens := by
    rw [isAt_of_outside outside rfl] at opens
    cases opens
  alone _ := by
    rw [isAtIntersection_joined]
    rfl
  ended _ none := by cases none

end Prospect

/-! ## What stands behind a subject -/

namespace Token

open Cursor Text Cleanup

variable {lost : Bool} {own gap near line whole kept behind rest rest' : List Token}

theorem firm_of_ends {core : List Token} (pieces : ∀ token ∈ core, token.IsPiece)
    (ends : ∀ c, (textOf core).getLast? = some c → isBlank c = false) :
    ∀ token, core.getLast? = some token → token.kind ≠ .padding := by
  intro token last pads
  obtain ⟨front, rfl⟩ := List.getLast?_eq_some_iff.mp last
  have piece := pieces token (List.mem_append_right _ List.mem_cons_self)
  have soft := piece.text_of_padding pads
  obtain ⟨c, more, length, -, written⟩ := piece
  have proper : token.text ≠ [] := by
    rw [written]
    exact List.cons_ne_nil _ _
  have final := List.getLast?_eq_some_getLast proper
  have dark := ends (token.text.getLast proper) (by
    rw [textOf_append, List.getLast?_append, textOf_cons, textOf_nil, List.append_nil, final]
    rfl)
  rw [isBlank_of_isPadding (soft _ (List.getLast_mem proper))] at dark
  cases dark

/-- Behind tokens that are not all padding it does not matter what comes next. -/
theorem head?_dropWhile_append {tokens : List Token}
    (some? : ∃ token ∈ tokens, token.kind ≠ .padding) (more more' : List Token) :
    ((tokens ++ more).dropWhile fun token => token.kind == .padding).head? =
      ((tokens ++ more').dropWhile fun token => token.kind == .padding).head? := by
  obtain ⟨token, mem, hard⟩ := some?
  have proper : (tokens.dropWhile fun token => token.kind == .padding) ≠ [] := fun none =>
    hard (beq_iff_eq.mp (List.dropWhile_eq_nil_iff.mp none token mem))
  obtain ⟨first, others, stands⟩ := List.exists_cons_of_ne_nil proper
  rw [List.dropWhile_append, List.dropWhile_append, stands]
  rfl

/-- Behind the padding at the end of a line stand other blanks or its line break. -/
theorem head?_dropWhile_back {back : List Token} {broken : Token} (blank : AreSoft back)
    (breaks : broken.kind = .lineBreak) (more : List Token) :
    ((back ++ broken :: more).dropWhile fun token => token.kind == .padding).head?.map Token.kind =
      some .other ∨
      ((back ++ broken :: more).dropWhile fun token => token.kind == .padding).head?.map
        Token.kind = some .lineBreak := by
  induction back with
  | nil =>
      rw [List.nil_append, List.dropWhile_cons, breaks]
      exact Or.inr (congrArg some breaks)
  | cons first back ih =>
      obtain ⟨⟨kind, -⟩, others⟩ := List.forall_mem_cons.mp blank
      rw [List.cons_append, List.dropWhile_cons]
      rcases kind with kind | kind
      · rw [kind]
        exact ih others
      · rw [kind]
        exact Or.inl (congrArg some kind)

/-- What a subject is read in front of, among the lines and on the one line,
whatever follows the closing markers. -/
def Faces (lost : Bool) (own gap near behind : List Token) : Prop :=
  ∀ rest rest', ∃ p : Prospect, ∃ far, p.gap = gap ∧ p.near = joined (near ++ ⟨.closing, closer⟩ :: rest) ∧
    p.far = joined (far ++ ⟨.closing, closer⟩ :: rest') ∧ behind = own ++ (p.gap' ++ far) ∧
      Loses lost (runningText near) (textOf far)

/-- The closing marker stands on the line of the subject. -/
theorem faces_of_line (soft : ArePadding gap)
    (begins : ∀ token, near.head? = some token → token.kind ≠ .padding)
    (inLine : ∀ token ∈ near, isInLine token.kind = true) :
    Faces false own gap near (own ++ (gap ++ near)) := by
  intro rest rest'
  have same : Loses false (runningText near) (textOf near) := by
    rw [runningText_of_inLine inLine]
    rfl
  cases near with
  | nil =>
    exact ⟨.ofFirst soft ⟨.closing, closer⟩ nofun rest rest' nofun nofun, [], rfl, rfl,
        rfl, rfl, same⟩
  | cons first near =>
      refine ⟨.ofFirst soft first (begins first rfl) (near ++ ⟨.closing, closer⟩ :: rest)
        (near ++ ⟨.closing, closer⟩ :: rest')
        (fun _ => Or.inl ?_) (fun _ => Or.inl ?_), first :: near, rfl, rfl, rfl, rfl, same⟩
      · cases near with
        | nil => rfl
        | cons next near => rfl
      · have closes : ∃ token ∈ near ++ [(⟨.closing, closer⟩ : Token)], token.kind ≠ .padding :=
          ⟨⟨.closing, closer⟩, List.mem_append_right _ List.mem_cons_self, nofun⟩
        rw [List.append_cons near, List.append_cons near _ rest', head?_dropWhile_append closes]

/-- The line of the subject goes on behind it, and the closing marker stands on a further line. -/
theorem faces_of_wrapped {first broken : Token} {shared back before : List Token}
    (soft : ArePadding gap)
    (hard : first.kind ≠ .padding) (inLine : ∀ token ∈ first :: shared, isInLine token.kind = true)
    (firm : ∀ token, shared.getLast? = some token → token.kind ≠ .padding)
    (blank : AreSoft back) (breaks : broken.kind = .lineBreak)
    (later : Flattened lost before kept) :
    Faces lost own gap (first :: shared ++ (back ++ broken :: before))
      (own ++ (gap ++ (first :: shared ++ ⟨.padding, [' ']⟩ :: kept))) := by
  intro rest rest'
  refine ⟨.ofFirst soft first hard
    (shared ++ (back ++ broken :: before) ++ ⟨.closing, closer⟩ :: rest)
    (shared ++ ⟨.padding, [' ']⟩ :: kept ++ ⟨.closing, closer⟩ :: rest') (fun _ => ?_)
    (fun _ => ?_),
    first :: shared ++ ⟨.padding, [' ']⟩ :: kept, rfl, rfl, rfl, rfl, ?_⟩
  · cases shared with
    | nil => exact Or.inr rfl
    | cons next shared => exact Or.inl rfl
  · cases last : shared.getLast? with
    | some token =>
        have some? : ∃ token ∈ shared, token.kind ≠ .padding :=
          ⟨token, List.mem_of_getLast? last, firm token last⟩
        refine Or.inl ?_
        rw [List.append_assoc shared, List.append_assoc shared, head?_dropWhile_append some?]
    | none =>
        rw [List.getLast?_eq_none_iff.mp last, List.nil_append, List.append_assoc]
        exact Or.inr (head?_dropWhile_back blank breaks _)
  · have here : Loses false (textOf (first :: shared)) (textOf (first :: shared)) := rfl
    have whole := (here.append_blank blank.blank).append later.loses
    rw [Bool.false_or] at whole
    rw [runningText_append, runningText_append, runningText_of_lineBreak breaks,
      runningText_of_inLine inLine, runningText_of_inLine blank.inLine, textOf_append,
      ← List.append_assoc]
    exact whole

/-- The subject ends its line, and only blanks follow up to the closing marker. -/
theorem faces_of_end {back before : List Token} {broken : Token} (soft : ArePadding gap)
    (begins : ∀ token, (back ++ broken :: before).head? = some token → token.kind ≠ .padding)
    (blank : AreSoft back) (breaks : broken.kind = .lineBreak) (later : Flattened lost before kept)
    (still : ∀ c ∈ runningText (back ++ broken :: before), isBlank c = true) :
    Faces lost own gap (back ++ broken :: before) (own ++ ⟨.padding, [' ']⟩ :: kept) := by
  intro rest rest'
  have none : Loses false (runningText (back ++ broken :: before)) (textOf []) :=
    (words_eq_nil still).symm
  rw [runningText_append, runningText_of_lineBreak breaks] at still
  obtain ⟨rfl, rfl⟩ := later.eq_nil (List.forall_mem_cons.mp (List.forall_mem_append.mp still).2).2
  cases back with
  | nil =>
    exact ⟨.ofEnd soft (by rw [breaks]; rfl) (before ++ ⟨.closing, closer⟩ :: rest) rest', [], rfl,
        rfl, rfl, rfl, none⟩
  | cons first back =>
      have outside : first.kind.isWithinType = false := by
        rcases (blank first List.mem_cons_self).1 with pads | kind
        · exact absurd pads (begins first rfl)
        · rw [kind]
          rfl
      exact ⟨.ofEnd soft outside (back ++ broken :: before ++ ⟨.closing, closer⟩ :: rest) rest', [],
        rfl, rfl, rfl, rfl, none⟩

/-- Tokens of types do not reach over the end of their line. -/
theorem exists_of_within {core back before others : List Token} {broken : Token}
    (soft : AreSoft back)
    (breaks : broken.kind = .lineBreak) (known : ∀ token ∈ own, token.kind.isWithinType = true)
    (firm : ∀ token, own.getLast? = some token → token.kind ≠ .padding)
    (split : core ++ (back ++ broken :: before) = own ++ others) :
    ∃ more, core = own ++ more ∧ others = more ++ (back ++ broken :: before) := by
  rcases List.append_eq_append_iff.mp split with ⟨beyond, rfl, rest⟩ | both
  · cases last : beyond.getLast? with
    | none =>
        rw [List.getLast?_eq_none_iff] at last
        subst last
        exact ⟨[], by rw [List.append_nil, List.append_nil], rest.symm⟩
    | some token =>
        exfalso
        have within := known token (List.mem_append_right _ (List.mem_of_getLast? last))
        have hard := firm token (by rw [List.getLast?_append, last]; rfl)
        have outside (held : token ∈ back) : False := by
          rcases (soft token held).1 with kind | kind
          · exact hard kind
          · rw [kind] at within
            cases within
        rcases List.append_eq_append_iff.mp rest with ⟨after, rfl, rest'⟩ | ⟨more, rfl, -⟩
        · cases after with
          | nil => exact outside (List.append_nil back ▸ List.mem_of_getLast? last)
          | cons first after =>
              obtain ⟨rfl, -⟩ := List.cons.inj rest'
              have inside :=
                known broken (List.mem_append_right _ (List.mem_append_right _ List.mem_cons_self))
              rw [breaks] at inside
              cases inside
        · exact outside (List.mem_append_left _ (List.mem_of_getLast? last))
  · exact both

/-- Behind padding at the end of a line stand further blanks and its line break. -/
theorem exists_of_gap {back before : List Token} {broken : Token} (soft : ArePadding gap)
    (blank : AreSoft back)
    (breaks : broken.kind = .lineBreak) (split : back ++ broken :: before = gap ++ near) :
    ∃ more, AreSoft more ∧ near = more ++ broken :: before := by
  rcases List.append_eq_append_iff.mp split with ⟨others, rfl, rest⟩ | ⟨others, rfl, rest⟩
  · cases others with
    | nil => exact ⟨[], nofun, rest.symm⟩
    | cons first others =>
        obtain ⟨rfl, -⟩ := List.cons.inj rest
        cases breaks.symm.trans (soft broken (List.mem_append_right _ List.mem_cons_self)).1
  · exact ⟨others, fun token mem => blank token (List.mem_append_right _ mem), rest⟩

/-- What ends in no padding reaches beyond padding in front of it. -/
theorem exists_beyond {more others : List Token} {token : Token} (soft : ArePadding gap)
    (last : more.getLast? = some token)
    (hard : token.kind ≠ .padding) (split : gap ++ near = more ++ others) :
    ∃ first shared, more = gap ++ first :: shared ∧ near = first :: shared ++ others := by
  have within {others : List Token} (same : gap = more ++ others) : False :=
    hard (soft token (same ▸ List.mem_append_left _ (List.mem_of_getLast? last))).1
  rcases List.append_eq_append_iff.mp split with ⟨shared, rfl, rest⟩ | ⟨others, same, -⟩
  · cases shared with
    | nil =>
        have same : gap = gap ++ [] ++ [] := by rw [List.append_nil, List.append_nil]
        exact (within same).elim
    | cons first shared => exact ⟨first, shared, rfl, rest⟩
  · exact (within same).elim

/-- Behind a subject a prospect opens, if what follows it is blank as soon as the
rest of its line is. -/
theorem Following.faces (following : Following lost whole behind)
    (inLine : ∀ token ∈ behind, isInLine token.kind = true)
    (pieces : ∀ token ∈ behind, token.IsPiece) (split : whole = own ++ (gap ++ near))
    (known : ∀ token ∈ own, token.kind.isWithinType = true)
    (firm : ∀ token, own.getLast? = some token → token.kind ≠ .padding)
    (soft : ArePadding gap) (begins : ∀ token, near.head? = some token → token.kind ≠ .padding)
    (still : (∀ c ∈ textOf (near.takeWhile fun token => isInLine token.kind), isBlank c = true) →
      ∀ c ∈ runningText near, isBlank c = true) : Faces lost own gap near behind := by
  cases following with
  | last =>
      rw [split] at inLine ⊢
      exact faces_of_line soft begins fun token mem =>
        inLine token (List.mem_append_right _ (List.mem_append_right _ mem))
  | @line _ core back before kept broken ends blank breaks later =>
      -- The subject stands on one line, and either something is said behind it there or nothing at
      -- all.
      obtain ⟨more, rfl, rest⟩ := exists_of_within blank breaks known firm split
      have hard := firm_of_ends (fun token mem => pieces token (List.mem_append_left _ mem)) ends
      cases last : more.getLast? with
      | none =>
          rw [List.getLast?_eq_none_iff] at last
          subst last
          obtain ⟨back', blank', rfl⟩ := exists_of_gap soft blank breaks rest.symm
          rw [List.append_nil]
          refine faces_of_end soft begins blank' breaks later (still ?_)
          have line : ((back' ++ broken :: before).takeWhile fun token => isInLine token.kind) =
              back' := by
            rw [List.takeWhile_append_of_pos blank'.inLine, List.takeWhile_cons, breaks]
            exact List.append_nil back'
          rw [line]
          exact blank'.blank
      | some token =>
          have firm' : token.kind ≠ .padding := hard token (by rw [List.getLast?_append, last]; rfl)
          obtain ⟨first, shared, rfl, rfl⟩ := exists_beyond soft last firm' rest
          have inLine' := (List.forall_mem_append.mp (List.forall_mem_append.mp inLine).1).2
          rw [List.append_assoc, List.append_assoc]
          refine faces_of_wrapped soft (begins first rfl) (List.forall_mem_append.mp inLine').2
            (fun token' last' => ?_) blank
            breaks later
          refine hard token' ?_
          rw [List.getLast?_append, List.getLast?_append, List.getLast?_cons, last']
          rfl

end Token

end DocComment
