import DocComment.Proofs.Reading.Prospect

/-!
# Types in front of other text

A type ends where it does whatever stands behind it, as long as that neither goes on with the type
nor changes what its last token means (`keeps_read`).  The longest look ahead is for the key of a
shape, which is told from a type by the colon behind it.
-/

namespace DocComment

open Token

namespace Cursor

variable {here there : Cursor} {kind : Kind}

theorem rest_advance_eq (cursor : Cursor) :
    cursor.advance.rest = cursor.rest.tail.dropWhile fun token => token.kind == .padding := by
  obtain ⟨passed, rest⟩ := cursor
  cases rest with
  | nil => rfl
  | cons first rest => rfl

theorem kind?_congr (same : here.rest = there.rest) : here.kind? = there.kind? := by
  rw [kind?, kind?, same]

end Cursor

namespace Read

open Cursor

variable {α β : Type}

/-- The reader takes a token or fails. -/
def Consumes (read : Read α) : Prop :=
  ∀ cursor value after, read cursor = .ok value after → after.rest.length < cursor.rest.length

theorem Consumes.bind {read : Read α} {next : α → Read β} (consumes : Consumes read)
    (forward : ∀ value, GoesForward (next value)) : Consumes (read >>= next) := by
  intro cursor result after run
  obtain ⟨value, middle, first, second⟩ := bind_eq_ok.mp run
  exact Nat.lt_of_le_of_lt ((forward value).length_le second) (consumes cursor value middle first)

section Standing

variable {cursor after : Cursor} {kind : Kind} (stands : cursor.kind? = some kind)
include stands

theorem consumes_takeText {text : Text} (run : takeText cursor = .ok text after) :
    after.rest.length < cursor.rest.length := by
  cases run
  exact remaining_advance_lt stands

theorem consumes_advance {next : Unit → Read α} {value : α}
    (forward : ∀ taken, GoesForward (next taken))
    (run : (advance >>= next) cursor = .ok value after) : after.rest.length < cursor.rest.length :=
  Nat.lt_of_le_of_lt ((forward ()).length_le run) (remaining_advance_lt stands)

end Standing

end Read

namespace TypeExpr

namespace Grammar

open Read Cursor

variable {p : Prospect} {shared : List Token} {first : Token} {here there : Cursor} {limit : Nat}

/-! ## Types take a token -/

theorem consumes_namedType {atom : Read TypeExpr} (atoms : GoesForward atom) {cursor after : Cursor}
    {type : TypeExpr}
    (stands : cursor.kind? = some .name) (run : namedType atom cursor = .ok type after) :
    after.rest.length < cursor.rest.length := by
  have types : GoesForward (typeWith atom) :=
    (coincide_typeWith (@coincide_refl _ 0 _ atoms)).forward
  have all : GoesForward (allFurther (accept .comma) (typeWith atom)) :=
    (coincide_allFurther (goesForward_accept _) (@coincide_refl _ 0 _ types)).forward
  rw [namedType, run_get_bind, run_bind_of_ok (run_step _)] at run
  refine Nat.lt_of_le_of_lt (GoesForward.length_le ?_ run) (remaining_step_lt stands)
  refine goesForward_get_bind fun _ => ?_
  split
  · refine goesForward_bind goesForward_advance fun _ => goesForward_bind types fun _ =>
      goesForward_bind all fun _ => ?_
    exact goesForward_bind (goesForward_expect _) fun _ => goesForward_pure _
  split
  · refine goesForward_bind goesForward_advance fun _ => ?_
    refine goesForward_bind (coincide_callableParams (@coincide_refl _ 0 _ types)).forward fun _ => ?_
    refine goesForward_bind (goesForward_expect _) fun _ =>
      goesForward_bind (goesForward_expect _) fun _ => ?_
    exact goesForward_bind (coincide_postfixType (@coincide_refl _ 0 _ atoms)).forward fun _ =>
      goesForward_pure _
  split
  · refine goesForward_bind goesForward_advance fun _ => ?_
    refine goesForward_bind (coincide_shapeItems (@coincide_refl _ 0 _ types) _).forward fun _ => ?_
    exact goesForward_bind (goesForward_expect _) fun _ => goesForward_pure _
  · exact goesForward_bind (goesForward_skipWhile _) fun _ => goesForward_pure _

theorem consumes_atom (depth : Nat) : Consumes (atom depth) := by
  intro cursor type after run
  cases depth with
  | zero => cases run
  | succ depth =>
      have atoms := (staysWithin_atom depth).goesForward
      rw [atom, run_get_bind] at run
      cases stands : cursor.kind? with
      | none =>
          rw [stands] at run
          cases run
      | some kind =>
          rw [stands] at run
          cases kind with
          | question =>
              refine consumes_advance stands (fun _ => ?_) run
              exact goesForward_bind atoms fun _ => goesForward_pure _
          | roundOpen =>
              refine consumes_advance stands (fun _ => ?_) run
              refine goesForward_bind (coincide_typeWith (@coincide_refl _ 0 _ atoms)).forward
                fun _ => ?_
              exact goesForward_bind (goesForward_expect _) fun _ => goesForward_pure _
          | quoted | number =>
              obtain ⟨text, middle, taken, rest⟩ := bind_eq_ok.mp run
              cases rest
              exact consumes_takeText stands taken
          | varName =>
              dsimp only at run
              split at run
              · obtain ⟨text, middle, taken, rest⟩ := bind_eq_ok.mp run
                cases rest
                exact consumes_takeText stands taken
              · cases run
          | name => exact consumes_namedType atoms stands run
          | _ => cases run

theorem consumes_typeWith {atom : Read TypeExpr} (atoms : GoesForward atom)
    (consumes : Consumes atom) :
    Consumes (typeWith atom) := by
  have members : GoesForward (postfixType atom) :=
    (coincide_postfixType (@coincide_refl _ 0 _ atoms)).forward
  refine Consumes.bind (Consumes.bind consumes fun _ => ?_) fun _ => ?_
  · exact goesForward_get_bind fun _ => (staysWithin_brackets _ _).goesForward
  · refine goesForward_get_bind fun _ => ?_
    split
    · refine goesForward_bind ?_ fun _ => goesForward_pure _
      exact (coincide_allFurther (goesForward_accept _) (@coincide_refl _ 0 _ members)).forward
    · refine goesForward_get_bind fun _ => ?_
      split
      · refine goesForward_bind ?_ fun _ => goesForward_pure _
        exact (coincide_allFurther isSeparator_acceptIntersection.goesForward
          (@coincide_refl _ 0 _ members)).forward
      · exact goesForward_pure _

/-! ## Postfix types -/

/-- Brackets are there for both cursors or for none, or for the first one where it
leaves what is shared. -/
theorem isAtBrackets_or (level : p.Level shared here there) :
    (isAtBrackets here = false ∧ isAtBrackets there = false) ∨
      (isAtBrackets here = true ∧ isAtBrackets there = true ∧
        ∃ more, more.length < shared.length ∧ p.Level more here.step.advance there.step.advance) ∨
      (isAtBrackets here = true ∧ here.step.advance.rest.length < p.near.length) := by
  have marked : here.isAt .squareOpen = there.isAt .squareOpen := level.isAt_eq rfl
  cases level with
  | @within first shared _ _ beside =>
      have closed : here.step.isAt .squareClose = there.step.isAt .squareClose :=
        beside.step.isAt_eq rfl (by decide)
      have same : isAtBrackets here = isAtBrackets there := by
        rw [Cursor.isAt, Cursor.isAt, kind?_step, kind?_step] at closed
        rw [isAtBrackets, isAtBrackets, marked, beside.padded, closed]
      cases known : isAtBrackets here with
      | false => exact Or.inl ⟨rfl, same ▸ known⟩
      | true =>
          have stands : here.step.isAt .squareClose = true := by
            rw [isAtBrackets, Bool.and_eq_true] at known
            rw [Cursor.isAt, kind?_step]
            exact known.2
          rcases beside.step.advance_or stands (by decide) with ⟨more, fewer, behind⟩ | lost
          · exact Or.inr (Or.inl ⟨rfl, same ▸ known, more, Nat.lt_succ_of_lt fewer, behind⟩)
          · exact Or.inr (Or.inr ⟨rfl, lost⟩)
  | ended near far padded padded' =>
      cases known : isAtBrackets here with
      | true =>
          refine Or.inr (Or.inr ⟨rfl, ?_⟩)
          have stands := known
          rw [isAtBrackets, Bool.and_eq_true, Bool.and_eq_true] at stands
          have shorter := remaining_step_lt (beq_iff_eq.mp stands.1.1)
          have nearer := goesForward_advance.length_le (run_advance here.step)
          rw [Read.remaining, Read.remaining, near] at shorter
          omega
      | false =>
          refine Or.inl ⟨rfl, Bool.eq_false_iff.mpr fun known' => ?_⟩
          rw [isAtBrackets, Bool.and_eq_true, Bool.and_eq_true, padded', Bool.not_not,
            List.isEmpty_iff] at known'
          obtain ⟨⟨opens', spaced'⟩, closes'⟩ := known'
          have spaced : p.gap = [] := by_contra fun proper => p.spaced proper spaced'
          have opens := marked.trans opens'
          have next : ∀ {cursor : Cursor} {tokens : List Token}, cursor.rest = tokens →
              cursor.nextKind? = (Cursor.mk [] tokens).nextKind? := by
            rintro cursor _ rfl
            rfl
          rw [next far, beq_iff_eq] at closes'
          have closes := p.paired (isAt_of_rest_eq near _ ▸ opens) closes'
          rw [isAtBrackets, opens, padded, spaced, next near, closes] at known
          cases known

theorem run_brackets_of_false {cursor : Cursor} (apart : isAtBrackets cursor = false) (bound : Nat)
    (type : TypeExpr) :
    brackets bound type cursor = .ok type cursor := by
  cases bound with
  | zero => rfl
  | succ bound =>
      rw [brackets, run_get_bind, apart]
      rfl

theorem carried_brackets {bound bound' : Nat} (enough : shared.length < bound)
    (enough' : shared.length ≤ bound') (type : TypeExpr) (level : p.Level shared here there) :
    Carried p shared.length (brackets bound type here) (brackets bound' type there) := by
  induction known : shared.length using Nat.strong_induction_on generalizing shared here there bound bound' type with
  | _ length ih =>
    rcases isAtBrackets_or level with ⟨apart, apart'⟩ | ⟨stands, stands', more, fewer, behind⟩ |
      ⟨stands, lost⟩
    · rw [run_brackets_of_false apart, run_brackets_of_false apart']
      rintro _ _ ⟨⟩ -
      exact ⟨shared, there, Nat.le_of_eq known, rfl, level⟩
    · obtain ⟨bound, rfl⟩ := Nat.exists_eq_add_one_of_ne_zero (n := bound) (by omega)
      obtain ⟨bound', rfl⟩ := Nat.exists_eq_add_one_of_ne_zero (n := bound') (by omega)
      rw [brackets, brackets, run_get_bind, run_get_bind, stands, stands']
      exact (ih _ (by omega) (by omega) (by omega) (.array type) behind rfl).mono (by omega)
    · obtain ⟨bound, rfl⟩ := Nat.exists_eq_add_one_of_ne_zero (n := bound) (by omega)
      rw [brackets, run_get_bind, stands]
      exact carried_of_lost (staysWithin_brackets bound (.array type)).goesForward lost

section Parts

variable {atom atom' type type' : Read TypeExpr}

theorem keeps_postfixType (atoms : Keeps p limit atom atom') :
    Keeps p limit (postfixType atom) (postfixType atom') := by
  refine atoms.bind fun type => ⟨?_, fun shared here there _ level => ?_⟩
  · exact goesForward_get_bind fun _ => (staysWithin_brackets _ type).goesForward
  · exact carried_brackets level.length_le.1 level.length_le.2 type level

/-! ## Unions and intersections -/

theorem isAtIntersection_eq (cursor : Cursor) :
    isAtIntersection cursor = (cursor.isAt .ampersand &&
      !(cursor.advance.isAtEnd || cursor.advance.isAt .varName || cursor.advance.isAt .ellipsis)) := by
  rw [isAtIntersection]
  congr 1
  obtain ⟨passed, rest⟩ := cursor.advance
  cases rest with
  | nil => rfl
  | cons first rest =>
      obtain ⟨kind, text⟩ := first
      cases kind <;> rfl

theorem isAtIntersection_congr (same : here.rest = there.rest) :
    isAtIntersection here = isAtIntersection there := by
  have behind : here.advance.rest = there.advance.rest := by
    rw [rest_advance_eq, rest_advance_eq, same]
  rw [isAtIntersection, isAtIntersection, Cursor.isAt, Cursor.isAt, kind?_congr same,
    kind?_congr behind]

theorem isAtEnd_eq_false (level : p.Level shared here there) :
    here.isAtEnd = false ∧ there.isAtEnd = false := by
  rw [Cursor.isAtEnd, Cursor.isAtEnd, List.isEmpty_eq_false_iff, List.isEmpty_eq_false_iff]
  cases level with
  | within beside =>
      rw [beside.near, beside.far]
      exact ⟨List.cons_ne_nil _ _, List.cons_ne_nil _ _⟩
  | ended near far =>
      rw [near, far]
      exact ⟨p.proper, p.proper'⟩

theorem divides_acceptIntersection : Divides p acceptIntersection := by
  intro shared here there level
  cases level with
  | @within first shared _ _ beside =>
      have behind := beside.advance
      have same : isAtIntersection here = isAtIntersection there := by
        rw [isAtIntersection_eq, isAtIntersection_eq, (Prospect.Level.within beside).isAt_eq rfl,
          (isAtEnd_eq_false behind).1, (isAtEnd_eq_false behind).2, behind.isAt_eq rfl,
          behind.isAt_eq rfl]
      cases known : isAtIntersection here with
      | false =>
        exact Or.inl ⟨run_acceptIntersection_of_not known,
            run_acceptIntersection_of_not (same ▸ known)⟩
      | true =>
          refine Or.inr (Or.inl ⟨_, _, _, Nat.lt_succ_of_le (List.length_dropWhile_le _ _),
            run_acceptIntersection known, run_acceptIntersection (same ▸ known), behind⟩)
  | ended near far padded padded' =>
      cases known : isAtIntersection here with
      | false =>
          have apart : isAtIntersection there = false := by
            rw [@isAtIntersection_congr there ⟨[], p.far⟩ far]
            refine p.alone ?_
            rw [← @isAtIntersection_congr here ⟨[], p.near⟩ near]
            exact known
          exact Or.inl ⟨run_acceptIntersection_of_not known, run_acceptIntersection_of_not apart⟩
      | true =>
          rcases (Prospect.Level.ended near far padded padded').advance_or with ⟨more, fewer, -⟩ | lost
          · cases fewer
          · exact Or.inr (Or.inr ⟨_, run_acceptIntersection known, lost⟩)

theorem isAtIntersection_of_run {cursor after : Cursor} {found : Bool}
    (run : acceptIntersection cursor = .ok found after) :
    isAtIntersection cursor = found := by
  cases known : isAtIntersection cursor with
  | false =>
      cases (run_acceptIntersection_of_not known).symm.trans run
      rfl
  | true =>
      cases (run_acceptIntersection known).symm.trans run
      rfl

/-- A type that has no bar behind its first member. -/
theorem keeps_intersection (members : Keeps p limit type type') (first : TypeExpr) :
    Keeps p limit
      (do
        if isAtIntersection (← get) then
          return .intersection (first :: (← allFurther acceptIntersection type))
        else return first : Read TypeExpr)
      (do
        if isAtIntersection (← get) then
          return .intersection (first :: (← allFurther acceptIntersection type'))
        else return first : Read TypeExpr) := by
  have separates : GoesForward acceptIntersection := isSeparator_acceptIntersection.goesForward
  have list := (Keeps.allFurther separates divides_acceptIntersection members).bind fun others =>
    Keeps.pure (TypeExpr.intersection (first :: others))
  refine ⟨?_, fun shared here there few level => ?_⟩
  · refine goesForward_get_bind fun _ => ?_
    split
    · exact list.forward
    · exact goesForward_pure _
  rw [run_get_bind, run_get_bind]
  rcases divides_acceptIntersection shared here there level with
    ⟨stays, stays'⟩ | ⟨more, middle, middle', fewer, moves, moves', -⟩ | ⟨middle, moves, lost⟩
  · rw [isAtIntersection_of_run stays, isAtIntersection_of_run stays']
    exact (Keeps.pure first).carried shared here there few level
  · rw [isAtIntersection_of_run moves, isAtIntersection_of_run moves']
    exact list.carried shared here there few level
  · rw [isAtIntersection_of_run moves, if_pos rfl]
    obtain ⟨bound, known⟩ :=
      Nat.exists_eq_add_one_of_ne_zero (Nat.ne_of_gt (Nat.zero_lt_of_lt level.length_le.1))
    intro value after run within
    obtain ⟨others, behind, ran, rest⟩ := bind_eq_ok.mp run
    cases rest
    rw [Read.allFurther, run_get_bind, known, further, run_bind_of_ok moves, if_pos rfl] at ran
    have onward : GoesForward (further acceptIntersection type bound) := fun cursor =>
      crosses_further separates members.forward bound cursor
    have nearer := GoesForward.length_le (goesForward_bind members.forward fun _ =>
      goesForward_bind onward fun _ => goesForward_pure _) ran
    omega

theorem keeps_typeWith (atoms : Keeps p limit atom atom') :
    Keeps p limit (typeWith atom) (typeWith atom') := by
  have members := keeps_postfixType atoms
  refine members.bind fun first =>
    Keeps.test (fun _ _ _ level => level.isAt_eq rfl) ?_ (keeps_intersection members first)
  exact (Keeps.allFurther (goesForward_accept _) (divides_accept rfl) members).bind fun others =>
    Keeps.pure _

/-! ## Callables and shapes -/

theorem keeps_acceptVariable : Keeps p limit acceptVariable acceptVariable :=
  Keeps.test (fun _ _ _ level => level.isAt_eq rfl) (Keeps.takeText.bind fun _ => Keeps.pure _)
    (Keeps.pure _)

theorem keeps_callableParam (types : Keeps p limit type type') :
    Keeps p limit (callableParam type) (callableParam type') := by
  refine types.bind fun _ => (Keeps.accept rfl).bind fun _ => (Keeps.accept rfl).bind fun _ => ?_
  exact keeps_acceptVariable.bind fun _ => Keeps.pure _

theorem keeps_callableParams (types : Keeps p limit type type') :
    Keeps p limit (callableParams type) (callableParams type') := by
  have params := keeps_callableParam types
  refine Keeps.test (fun _ _ _ level => level.isAt_eq rfl) (Keeps.pure _)
    (params.bind fun first => ?_)
  exact (Keeps.allFurther (goesForward_accept _) (divides_accept rfl) params).bind fun _ =>
    Keeps.pure _

/-- An item of a shape with its key. -/
theorem keeps_keyed (types : Keeps p limit type type') :
    Keeps p limit
      (do
        let key ← takeText
        let optional ← accept .question
        let _ ← expect .colon
        let value ← type
        return ⟨some key, optional, value⟩ : Read (ShapeItem TypeExpr))
      (do
        let key ← takeText
        let optional ← accept .question
        let _ ← expect .colon
        let value ← type'
        return ⟨some key, optional, value⟩ : Read (ShapeItem TypeExpr)) := by
  refine Keeps.takeText.bind fun _ => (Keeps.accept rfl).bind fun _ =>
    (Keeps.expect _).bind fun _ => ?_
  exact types.bind fun _ => Keeps.pure _

theorem consumes_shapeItem (forward : GoesForward type) (consumes : Consumes type) :
    Consumes (shapeItem type) := by
  intro cursor item after run
  rw [shapeItem, run_get_bind] at run
  split at run
  next keyed =>
    obtain ⟨key, middle, taken, behind⟩ := bind_eq_ok.mp run
    have stands : ∃ kind, cursor.kind? = some kind := by
      cases known : cursor.kind? with
      | none =>
          rw [isAtKey, known] at keyed
          cases keyed
      | some kind => exact ⟨kind, rfl⟩
    obtain ⟨kind, stands⟩ := stands
    refine Nat.lt_of_le_of_lt (GoesForward.length_le ?_ behind) (consumes_takeText stands taken)
    refine goesForward_bind (goesForward_accept _) fun _ =>
      goesForward_bind (goesForward_expect _) fun _ => ?_
    exact goesForward_bind forward fun _ => goesForward_pure _
  next =>
    obtain ⟨value, middle, taken, behind⟩ := bind_eq_ok.mp run
    cases behind
    exact consumes cursor value _ taken

/-- A key is there for both cursors or for none, unless one question mark remains
in front of what is not shared. -/
theorem isAtKey_or (beside : p.Beside (first :: shared) here there) :
    isAtKey here = isAtKey there ∨
      (shared = [] ∧ here.advance.rest = p.near ∧ here.advance.isAt .question = true) := by
  have behind := beside.advance
  have kinds : here.kind? = there.kind? := by
    rw [kind?, kind?, beside.near, beside.far]
    rfl
  have marked : here.advance.isAt .question = there.advance.isAt .question := behind.isAt_eq rfl
  cases known : here.advance.isAt .question with
  | false =>
      refine Or.inl ?_
      rw [isAtKey, isAtKey, accept_of_not_isAt known, accept_of_not_isAt (marked ▸ known), kinds,
        behind.isAt_eq rfl]
  | true =>
      rcases behind.advance_or with ⟨more, -, level⟩ | lost
      · refine Or.inl ?_
        rw [isAtKey, isAtKey, accept_of_isAt known, accept_of_isAt (marked ▸ known), kinds,
          level.isAt_eq rfl]
      · refine Or.inr ?_
        cases shown : shared.dropWhile (fun token => token.kind == .padding) with
        | nil =>
            rw [shown] at behind
            cases behind with
            | ended near =>
                refine ⟨by_contra fun proper => ?_, near, rfl⟩
                have last := List.getLast?_eq_some_getLast proper
                have pads := List.dropWhile_eq_nil_iff.mp shown _ (List.getLast_mem proper)
                refine beside.firm (shared.getLast proper) ?_ (beq_iff_eq.mp pads)
                rw [List.getLast?_cons, last]
                rfl
        | cons stop more =>
            rw [shown] at behind
            cases behind with
            | within beside' =>
                have within := beside'.advance.length_near_le
                omega

/-- An item of a shape ends where it does unless a question mark follows, which a key may have. -/
theorem carried_shapeItem (types : Keeps p limit type type') (consumes : Consumes type)
    (few : shared.length ≤ limit)
    (level : p.Level shared here there) {item : ShapeItem TypeExpr} {after : Cursor}
    (run : shapeItem type here = .ok item after) (within : p.near.length ≤ after.rest.length)
    (other : after.isAt .question = false) :
    ∃ more after', more.length ≤ shared.length ∧ shapeItem type' there = .ok item after' ∧
      p.Level more after after' := by
  cases level with
  | ended near far =>
      have shorter := consumes_shapeItem types.forward consumes here item after run
      rw [near] at shorter
      omega
  | @within first shared _ _ beside =>
      have plain := types.bind fun value => Keeps.pure (ShapeItem.mk none false value)
      have level := Prospect.Level.within beside
      rw [shapeItem, run_get_bind] at run
      rcases isAtKey_or beside with same | ⟨rfl, ended, marked⟩
      · rw [shapeItem, run_get_bind, ← same]
        split at run
        next keyed =>
          rw [if_pos keyed]
          exact (keeps_keyed types).carried _ here there few level item after run within
        next keyed =>
          rw [if_neg keyed]
          exact plain.carried _ here there few level item after run within
      · exfalso
        split at run
        next keyed =>
          obtain ⟨key, middle, taken, behind⟩ := bind_eq_ok.mp run
          cases taken
          obtain ⟨optional, middle, accepted, rest⟩ := bind_eq_ok.mp behind
          rw [run_accept, accept_of_isAt marked] at accepted
          cases accepted
          have shorter := remaining_advance_lt (beq_iff_eq.mp marked)
          rw [Read.remaining, Read.remaining, ended] at shorter
          have nearer := GoesForward.length_le (goesForward_bind (goesForward_expect _) fun _ =>
            goesForward_bind types.forward fun _ => goesForward_pure _) rest
          omega
        next keyed =>
          obtain ⟨value, middle, taken, rest⟩ := bind_eq_ok.mp run
          cases rest
          obtain ⟨more, after', fewer, -, level'⟩ :=
            types.carried _ here there few level value after taken within
          have shorter := consumes here value after taken
          cases level' with
          | within beside' =>
              rw [beside.near, beside'.near] at shorter
              simp only [List.length_append, List.length_cons, List.length_nil] at shorter fewer
              omega
          | ended near =>
              rw [isAt_of_rest_eq near, ← isAt_of_rest_eq ended, marked] at other
              cases other

theorem carried_shapeItems (types : Keeps p limit type type') (consumes : Consumes type)
    {bound bound' : Nat} (few : shared.length ≤ limit) (enough : shared.length < bound)
    (enough' : shared.length < bound')
    (level : p.Level shared here there) {items : List (ShapeItem TypeExpr)} {after : Cursor}
    (run : shapeItems type bound here = .ok items after)
    (within : p.near.length ≤ after.rest.length) (other : after.isAt .question = false) :
    ∃ more after', more.length ≤ shared.length ∧ shapeItems type' bound' there = .ok items after' ∧
      p.Level more after after' := by
  induction known : shared.length using Nat.strong_induction_on
    generalizing shared here there bound bound' items with
  | _ length ih =>
    obtain ⟨bound, rfl⟩ := Nat.exists_eq_add_one_of_ne_zero (n := bound) (by omega)
    obtain ⟨bound', rfl⟩ := Nat.exists_eq_add_one_of_ne_zero (n := bound') (by omega)
    have ends := isAtEnd_eq_false level
    rw [shapeItems, run_get_bind, ends.1, level.isAt_eq rfl] at run
    rw [shapeItems, run_get_bind, ends.2]
    split at run
    next closed =>
      cases run
      rw [if_pos closed]
      exact ⟨shared, there, Nat.le_of_eq known, rfl, level⟩
    next opened =>
      rw [if_neg opened]
      obtain ⟨item, middle, first, later⟩ := bind_eq_ok.mp run
      have onward (bound : Nat) : GoesForward (shapeItems type bound) :=
        (coincide_shapeItems (@coincide_refl _ 0 _ types.forward) bound).forward
      cases comma : middle.isAt .comma with
      | false =>
          rw [run_bind_of_ok (run_accept_of_not_isAt comma)] at later
          cases later
          obtain ⟨more, after', fewer, first', level'⟩ :=
            carried_shapeItem types consumes few level first within other
          have comma' : after'.isAt .comma = false := (level'.isAt_eq rfl).symm.trans comma
          refine ⟨more, after', by omega, ?_, level'⟩
          rw [run_bind_of_ok first', run_bind_of_ok (run_accept_of_not_isAt comma')]
          rfl
      | true =>
          rw [run_bind_of_ok (run_accept _ _), comma, accept_of_isAt comma, if_pos rfl] at later
          obtain ⟨others, behind, second, last⟩ := bind_eq_ok.mp later
          cases last
          have nearer := (onward bound).length_le second
          have shorter := remaining_advance_lt (beq_iff_eq.mp comma)
          rw [Read.remaining, Read.remaining] at shorter
          have apart : middle.isAt .question = false := by
            rw [Cursor.isAt, beq_iff_eq.mp comma]
            rfl
          obtain ⟨more, middle', fewer, first', level'⟩ :=
            carried_shapeItem types consumes few level first (by omega) apart
          have comma' : middle'.isAt .comma = true := (level'.isAt_eq rfl).symm.trans comma
          rcases level'.advance_or with ⟨less, fewest, level''⟩ | lost
          · obtain ⟨least, after', count, second', ends'⟩ :=
              @ih _ (by omega) _ _ _ bound bound' (by omega) (by omega)
              (by omega) level'' _ second rfl
            refine ⟨least, after', by omega, ?_, ends'⟩
            rw [run_bind_of_ok first', run_bind_of_ok (run_accept _ _), comma',
              accept_of_isAt comma', if_pos rfl, run_bind_of_ok second']
            rfl
          · omega

/-! ## Atoms -/

/-- A shape, from the first of its items on. -/
theorem carried_shape (types : Keeps p limit type type') (consumes : Consumes type) (name : Text)
    {bound bound' : Nat} (few : shared.length ≤ limit) (enough : shared.length < bound)
    (enough' : shared.length < bound') (level : p.Level shared here there) :
    Carried p shared.length
      ((do
        let items ← shapeItems type bound
        let _ ← expect .curlyClose
        return shape name items : Read TypeExpr) here)
      ((do
        let items ← shapeItems type' bound'
        let _ ← expect .curlyClose
        return shape name items : Read TypeExpr) there) := by
  intro value after run within
  obtain ⟨items, middle, first, later⟩ := bind_eq_ok.mp run
  obtain ⟨token, behind, closed, rest⟩ := bind_eq_ok.mp later
  cases rest
  have nearer := (goesForward_expect _).length_le closed
  have apart : middle.isAt .question = false := by
    rw [Cursor.isAt, (expect_eq_ok closed).1]
    rfl
  obtain ⟨more, middle', fewer, first', level'⟩ :=
    carried_shapeItems types consumes few enough enough' level first (by omega) apart
  obtain ⟨least, after', fewest, closed', level''⟩ :=
    (Keeps.expect .curlyClose).carried more middle middle'
      (Nat.le_refl _) level' token _ closed within
  refine ⟨least, after', by omega, ?_, level''⟩
  rw [run_bind_of_ok first', run_bind_of_ok closed']
  rfl

/-- The arguments of a generic type, behind the bracket that opens them. -/
theorem keeps_arguments (types : Keeps p limit type type') (name : Text) :
    Keeps p limit
      (do
        let first ← type
        let others ← allFurther (accept .comma) type
        let _ ← expect .angleClose
        return generic name (first :: others) : Read TypeExpr)
      (do
        let first ← type'
        let others ← allFurther (accept .comma) type'
        let _ ← expect .angleClose
        return generic name (first :: others) : Read TypeExpr) := by
  refine types.bind fun first => ?_
  refine (Keeps.allFurther (goesForward_accept _) (divides_accept rfl) types).bind fun others => ?_
  exact (Keeps.expect _).bind fun _ => Keeps.pure _

/-- The signature of a callable, behind the parenthesis that opens it. -/
theorem keeps_signature (types : Keeps p limit type type') (results : Keeps p limit atom atom')
    (name : Text) :
    Keeps p limit
      (do
        let params ← callableParams type
        let _ ← expect .roundClose
        let _ ← expect .colon
        let result ← atom
        return callable name params result : Read TypeExpr)
      (do
        let params ← callableParams type'
        let _ ← expect .roundClose
        let _ ← expect .colon
        let result ← atom'
        return callable name params result : Read TypeExpr) := by
  refine (keeps_callableParams types).bind fun params => ?_
  refine (Keeps.expect _).bind fun _ => (Keeps.expect _).bind fun _ => ?_
  exact results.bind fun _ => Keeps.pure _

theorem carried_namedType (atoms : Keeps p shared.length atom atom') (consumes : Consumes atom)
    (beside : p.Beside (first :: shared) here there) :
    Carried p shared.length (namedType atom here) (namedType atom' there) := by
  have types := keeps_typeWith atoms
  have taking := consumes_typeWith atoms.forward consumes
  have behind := beside.step
  rw [namedType, namedType, run_get_bind, run_get_bind, text_of_rest beside.near,
    text_of_rest beside.far, run_bind_of_ok (run_step _), run_bind_of_ok (run_step _), run_get_bind,
    run_get_bind]
  rw [behind.isAt_eq rfl (by decide), behind.isAt_eq rfl (by decide),
    behind.isAt_eq rfl (by decide)]
  split
  next opens =>
    have arguments := keeps_arguments types first.text
    rw [← behind.isAt_eq rfl (by decide)] at opens
    rcases behind.advance_or opens (by decide) with ⟨more, fewer, level⟩ | lost
    · exact (arguments.carried more _ _ (Nat.le_of_lt fewer) level).mono (Nat.le_of_lt fewer)
    · exact carried_of_lost arguments.forward lost
  split
  next opens =>
    have signature := keeps_signature types (keeps_postfixType atoms) first.text
    rw [← behind.isAt_eq rfl (by decide), Bool.and_eq_true] at opens
    rcases behind.advance_or opens.1 (by decide) with ⟨more, fewer, level⟩ | lost
    · exact (signature.carried more _ _ (Nat.le_of_lt fewer) level).mono (Nat.le_of_lt fewer)
    · exact carried_of_lost signature.forward lost
  split
  next opens =>
    rw [← behind.isAt_eq rfl (by decide), Bool.and_eq_true] at opens
    rcases behind.advance_or opens.1 (by decide) with ⟨more, fewer, level⟩ | lost
    · have enough : shared.length ≤ here.step.rest.length ∧
          shared.length ≤ there.step.rest.length := by
        rw [behind.near, behind.far, List.length_append, @List.length_append _ shared]
        exact ⟨Nat.le_add_right _ _, Nat.le_add_right _ _⟩
      exact (carried_shape types taking first.text (Nat.le_of_lt fewer) (by omega)
        (by omega) level).mono
        (Nat.le_of_lt fewer)
    · refine carried_of_lost (goesForward_bind ?_ fun _ => ?_) lost
      · exact (coincide_shapeItems (@coincide_refl _ 0 _ types.forward) _).forward
      · exact goesForward_bind (goesForward_expect _) fun _ => goesForward_pure _
  next =>
    rintro _ _ ⟨⟩ -
    exact ⟨_, _, List.length_dropWhile_le _ _, rfl, behind.skipPadding⟩

end Parts

theorem keeps_takeText (make : Text → TypeExpr) :
    Keeps p limit (do return make (← takeText)) (do return make (← takeText)) :=
  Keeps.takeText.bind fun _ => Keeps.pure _

/-- Atoms are kept when they may be read as deep as two cursors share tokens. -/
theorem keeps_atom {depth depth' : Nat} (deep : limit < depth) (deep' : limit < depth') :
    Keeps p limit (atom depth) (atom depth') := by
  induction limit generalizing depth depth' with
  | zero =>
      refine ⟨(staysWithin_atom depth).goesForward, fun shared here there few level => ?_⟩
      intro type after run within
      have shorter := consumes_atom depth here type after run
      cases level with
      | within beside => cases few
      | ended near =>
          rw [near] at shorter
          omega
  | succ limit ih =>
      obtain ⟨depth, rfl⟩ := Nat.exists_eq_add_one_of_ne_zero (n := depth) (by omega)
      obtain ⟨depth', rfl⟩ := Nat.exists_eq_add_one_of_ne_zero (n := depth') (by omega)
      have atoms := ih (Nat.lt_of_succ_lt_succ deep) (Nat.lt_of_succ_lt_succ deep')
      refine ⟨(staysWithin_atom (depth + 1)).goesForward, fun shared here there few level => ?_⟩
      cases level with
      | ended near =>
          intro type after run within
          have shorter := consumes_atom (depth + 1) here type after run
          rw [near] at shorter
          omega
      | @within first shared _ _ beside =>
          have short := List.length_dropWhile_le (fun token => token.kind == Kind.padding) shared
          rw [List.length_cons] at few ⊢
          have behind := beside.advance
          have kinds : here.kind? = some first.kind ∧ there.kind? = some first.kind := by
            rw [kind?, kind?, beside.near, beside.far]
            exact ⟨rfl, rfl⟩
          rw [atom, atom, run_get_bind, run_get_bind, kinds.1, kinds.2]
          cases kind : first.kind with
          | question =>
              have nullable := atoms.bind fun type => Keeps.pure (TypeExpr.nullable type)
              exact (nullable.carried _ _ _ (by omega) behind).mono (by omega)
          | roundOpen =>
              have inner :=
                (keeps_typeWith atoms).bind fun type => (Keeps.expect .roundClose).bind fun _ =>
                  Keeps.pure type
              exact (inner.carried _ _ _ (by omega) behind).mono (by omega)
          | quoted | number =>
              exact (keeps_takeText .constant).carried _ here there few
                (Prospect.Level.within beside)
          | varName =>
              dsimp only
              rw [text_of_rest beside.near, text_of_rest beside.far]
              split
              next =>
                exact (keeps_takeText .named).carried _ here there few
                  (Prospect.Level.within beside)
              next => exact carried_error
          | name =>
              exact (carried_namedType (atoms.mono (by omega)) (consumes_atom depth) beside).mono
                (by omega)
          | _ => exact carried_error

end Grammar

/-- A type that is read in front of the one continuation is read in front of the other. -/
theorem keeps_read {p : Prospect} {limit : Nat} : Read.Keeps p limit read read where
  forward := Grammar.StaysWithin.goesForward staysWithin_read
  carried shared here there _ level := by
    have atoms : Read.Keeps p shared.length (Grammar.atom (here.rest.length + 1))
        (Grammar.atom (there.rest.length + 1)) :=
      Grammar.keeps_atom (Nat.lt_succ_of_lt level.length_le.1) (Nat.lt_succ_of_le level.length_le.2)
    rw [read, Read.run_get_bind, Read.run_get_bind]
    exact (Grammar.keeps_typeWith atoms).carried shared here there (Nat.le_refl _) level

end TypeExpr

end DocComment
