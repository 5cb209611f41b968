import DocComment.Proofs.Reading.Abreast
import DocComment.TypeExpr.Reader

/-!
# Types read side by side

The grammar of types gives the same on two cursors that are abreast
(`alike_read`), except in front of a last ampersand: where nothing follows it
a type may end there, and where a line break follows no type can be read.
-/

namespace DocComment

open Token

namespace Cursor

/-- Only an ampersand remains, and perhaps padding. -/
def Stranded (cursor : Cursor) : Prop :=
  ∃ mark padding, cursor.rest = mark :: padding ∧ mark.kind = .ampersand ∧ ArePadding padding

/-- Nothing remains but ampersands and padding. -/
def Spent (cursor : Cursor) : Prop :=
  ∀ token ∈ cursor.rest, token.kind = .ampersand ∨ token.kind = .padding

variable {cursor : Cursor} {kind : Kind}

theorem Stranded.spent (stranded : cursor.Stranded) : cursor.Spent := by
  obtain ⟨mark, padding, rest, marks, soft⟩ := stranded
  intro token mem
  rw [rest] at mem
  rcases List.mem_cons.mp mem with rfl | mem
  · exact Or.inl marks
  · exact Or.inr (soft token mem).1

theorem Spent.isAt (spent : cursor.Spent) (content : kind.isContent = true)
    (other : kind ≠ .ampersand) :
    cursor.isAt kind = false := by
  cases stands : cursor.rest with
  | nil =>
      rw [Cursor.isAt, kind?, stands]
      rfl
  | cons first rest =>
      rw [isAt_of_rest stands]
      refine beq_eq_false_iff_ne.mpr fun same => ?_
      rcases spent first (by rw [stands]; exact List.mem_cons_self) with marks | pads
      · exact other (same.symm.trans marks)
      · rw [← same, pads] at content
        cases content

theorem Stranded.isAt (stranded : cursor.Stranded) (content : kind.isContent = true)
    (other : kind ≠ .ampersand) : cursor.isAt kind = false :=
  stranded.spent.isAt content other

theorem Spent.advance (spent : cursor.Spent) : cursor.advance.Spent := by
  intro token mem
  refine spent token ?_
  have skipped : cursor.advance.rest = cursor.step.rest.dropWhile fun token =>
    token.kind == .padding := rfl
  rw [skipped] at mem
  have behind := (List.dropWhile_suffix _).subset mem
  cases stands : cursor.rest with
  | nil =>
      rw [step, stands] at behind
      rwa [stands] at behind
  | cons first rest =>
      rw [rest_step stands] at behind
      exact List.mem_cons_of_mem _ behind

theorem Spent.accept (spent : cursor.Spent) (kind : Kind) : (cursor.accept kind).Spent := by
  rw [Cursor.accept]
  split
  · exact spent.advance
  · exact spent

end Cursor

namespace TypeExpr

namespace Grammar

open Read Cursor

variable {back back' shared : List Token} {first : Token} {here there : Cursor} {limit : Nat}

/-! ## Postfix types -/

theorem isAtBrackets_eq (ends : Ends back back') (abreast : Abreast back back' shared here there) :
    isAtBrackets here = isAtBrackets there := by
  rw [isAtBrackets, isAtBrackets]
  rcases abreast.isAt_or ends .squareOpen rfl with ⟨near, far⟩ | ⟨first, more, rfl, -, near, far⟩
  · rw [near, far]
    rfl
  · have next := abreast.step.isAt_eq ends .squareClose rfl
    rw [Cursor.isAt, Cursor.isAt, kind?_step, kind?_step] at next
    rw [near, far, abreast.padded (List.cons_ne_nil _ _), next]

theorem exists_of_isAtBrackets (ends : Ends back back')
    (abreast : Abreast back back' shared here there) (stands : isAtBrackets here = true) :
    ∃ more, more.length < shared.length ∧
      Abreast back back' more here.step.advance there.step.advance := by
  rw [isAtBrackets, Bool.and_eq_true, Bool.and_eq_true] at stands
  rcases abreast.isAt_or ends .squareOpen rfl with ⟨near, far⟩ | ⟨first, more, rfl, -, near, far⟩
  · rw [near] at stands
    cases stands.1.1
  · have closes : here.step.isAt .squareClose = true := by
      rw [Cursor.isAt, kind?_step]
      exact stands.2
    rcases abreast.step.isAt_or ends .squareClose rfl with ⟨apart, -⟩ | ⟨second, more, rfl, -⟩
    · rw [apart] at closes
      cases closes
    · refine ⟨_, ?_, abreast.step.advance ends⟩
      have short := List.length_dropWhile_le (fun token => token.kind == Kind.padding) more
      rw [List.length_cons, List.length_cons]
      omega

theorem agree_brackets (ends : Ends back back') {bound bound' : Nat}
    (enough : shared.length ≤ bound)
    (enough' : shared.length ≤ bound') (type : TypeExpr) {p : TypeExpr → Cursor → Prop}
    (abreast : Abreast back back' shared here there) :
    Agree back back' p shared.length (brackets bound type here) (brackets bound' type there) := by
  induction known : shared.length using Nat.strong_induction_on
    generalizing shared here there bound bound' type with
  | _ length ih =>
    have apart {cursor : Cursor} (bound : Nat) (other : isAtBrackets cursor = false) :
        brackets bound type cursor = .ok type cursor := by
      cases bound with
      | zero => rfl
      | succ bound =>
          rw [brackets, run_get_bind, other]
          rfl
    have same := isAtBrackets_eq ends abreast
    cases stands : isAtBrackets here with
    | false =>
        rw [apart bound stands, apart bound' (same ▸ stands)]
        exact .ok (Nat.le_of_eq known) abreast
    | true =>
        obtain ⟨more, shorter, behind⟩ := exists_of_isAtBrackets ends abreast stands
        obtain ⟨bound, rfl⟩ := Nat.exists_eq_add_one_of_ne_zero (n := bound) (by omega)
        obtain ⟨bound', rfl⟩ := Nat.exists_eq_add_one_of_ne_zero (n := bound') (by omega)
        rw [brackets, brackets, run_get_bind, run_get_bind, ← same, stands]
        exact (ih _ (by omega) (by omega) (by omega) (.array type) behind rfl).mono (by omega)
          fun _ _ => id

theorem run_brackets_of_stranded (stranded : here.Stranded) (bound : Nat) (type : TypeExpr) :
    brackets bound type here = .ok type here := by
  have other : isAtBrackets here = false := by
    rw [isAtBrackets, @Stranded.isAt here .squareOpen stranded rfl (by decide)]
    rfl
  cases bound with
  | zero => rfl
  | succ bound =>
      rw [brackets, run_get_bind, other]
      rfl

section Parts

variable {atom atom' type type' : Read TypeExpr}

theorem alike_postfixType (ends : Ends back back')
    (atoms : Alike back back' (fun _ => Stranded) limit atom atom') :
    Alike back back' (fun _ => Stranded) limit (postfixType atom) (postfixType atom') := by
  intro shared here there within abreast
  refine (atoms shared here there within abreast).bind ?_ ?_
  · intro value more here there short abreast
    have enough := abreast.length_le
    exact (agree_brackets ends enough.1 enough.2 value abreast).mono short fun _ _ => id
  · intro _ value here stranded
    rw [run_get_bind, run_brackets_of_stranded stranded]
    exact stranded

/-! ## Unions and intersections -/

theorem isAtIntersection_of_stranded (stranded : here.Stranded) :
    isAtIntersection here = false := by
  obtain ⟨mark, padding, rest, -, soft⟩ := stranded
  have empty : here.advance.rest = [] := by
    have skipped : here.advance.rest = here.step.rest.dropWhile fun token =>
      token.kind == .padding := rfl
    rw [skipped, rest_step rest, List.dropWhile_eq_nil_iff]
    exact fun token mem => beq_iff_eq.mpr (soft token mem).1
  have ended : here.advance.kind? = none := by
    rw [kind?, empty]
    rfl
  rw [isAtIntersection, ended, Bool.and_false]

/-- A line break or a closing marker does not keep an ampersand from joining. -/
theorem isAtIntersection_of_endLine {cursor : Cursor} (stands : cursor.isAt .ampersand = true)
    (ends : EndLine cursor.advance.rest) (proper : cursor.advance.rest ≠ []) :
    isAtIntersection cursor = true := by
  obtain ⟨next, rest, behind⟩ := List.exists_cons_of_ne_nil proper
  have kind : cursor.advance.kind? = some next.kind := by
    rw [kind?, behind]
    rfl
  rw [isAtIntersection, stands, kind, Bool.true_and]
  rcases ends next (by rw [behind]; rfl) with broken | closed
  · rw [broken]
  · rw [closed]

/-- Both sides see an ampersand that joins, unless it is the last token and the
first side ends there. -/
theorem isAtIntersection_or (ends : Ends back back')
    (abreast : Abreast back back' shared here there) :
    isAtIntersection here = isAtIntersection there ∨
      (shared ≠ [] ∧ back = [] ∧ here.Stranded ∧ isAtIntersection there = true ∧
        there.advance.rest = back') := by
  rcases abreast.isAt_or ends .ampersand rfl with ⟨near, far⟩ | ⟨first, more, rfl, mark, near, far⟩
  · rw [isAtIntersection, isAtIntersection, near, far]
    exact Or.inl rfl
  have behind := abreast.advance ends
  cases shown : more.dropWhile (fun token => token.kind == .padding) with
  | cons next rest =>
      rw [shown] at behind
      rw [isAtIntersection, isAtIntersection, near, far, behind.kind?_eq.1, behind.kind?_eq.2]
      exact Or.inl rfl
  | nil =>
      rw [shown] at behind
      obtain ⟨ended, ended'⟩ := behind.ended rfl
      have joins' := isAtIntersection_of_endLine far (ended' ▸ ends.far) (ended' ▸ ends.proper)
      cases back with
      | cons next rest =>
          have joins := isAtIntersection_of_endLine near (ended ▸ ends.near)
            (ended ▸ List.cons_ne_nil next rest)
          exact Or.inl (joins.trans joins'.symm)
      | nil =>
          obtain ⟨padding, soft, rest⟩ := abreast.near
          obtain rfl := abreast.nil_of_dropWhile shown
          rw [List.append_nil] at rest
          exact Or.inr ⟨List.cons_ne_nil _ _, rfl, ⟨first, padding, rest, mark, soft⟩,
            joins', ended'⟩

theorem run_acceptIntersection {cursor : Cursor} (stands : isAtIntersection cursor = true) :
    acceptIntersection cursor = .ok true cursor.advance := by
  rw [acceptIntersection, run_get_bind, stands]
  rfl

theorem run_acceptIntersection_of_not {cursor : Cursor} (other : isAtIntersection cursor = false) :
    acceptIntersection cursor = .ok false cursor := by
  rw [acceptIntersection, run_get_bind, other]
  rfl

theorem run_furtherIntersection_of_not {cursor : Cursor} (item : Read TypeExpr) (bound : Nat)
    (other : isAtIntersection cursor = false) :
    further acceptIntersection item bound cursor = .ok [] cursor := by
  cases bound with
  | zero => rfl
  | succ bound =>
      rw [further, run_bind_of_ok (run_acceptIntersection_of_not other)]
      rfl

/-- The reader fails in front of the given tokens. -/
def FailsAt {α : Type} (tokens : List Token) (read : Read α) : Prop :=
  ∀ cursor : Cursor, cursor.rest = tokens → ∃ failure after, read cursor = .error failure after

/-- Where no tokens are shared and neither side can be read, both fail. -/
theorem agree_of_fails {α : Type} {read read' : Read α} {stuck : α → Cursor → Prop}
    (fails : FailsAt back read)
    (fails' : FailsAt back' read') (abreast : Abreast back back' [] here there) :
    Agree back back' stuck limit (read here) (read' there) := by
  obtain ⟨ended, ended'⟩ := abreast.ended rfl
  obtain ⟨failure, after, run⟩ := fails here ended
  obtain ⟨failure', after', run'⟩ := fails' there ended'
  rw [run, run']
  exact .error _ _ _ _

theorem FailsAt.bind {α β : Type} {tokens : List Token} {read : Read α}
    (fails : FailsAt tokens read) (next : α → Read β) : FailsAt tokens (read >>= next) := by
  intro cursor stands
  obtain ⟨failure, after, run⟩ := fails cursor stands
  exact ⟨failure, after, run_bind_of_error run⟩

theorem run_furtherIntersection_of_fails {cursor : Cursor} (joins : isAtIntersection cursor = true)
    (fails : FailsAt cursor.advance.rest type) {bound : Nat} (enough : 0 < bound) :
    ∃ failure after, further acceptIntersection type bound cursor = .error failure after := by
  obtain ⟨bound, rfl⟩ := Nat.exists_eq_add_one_of_ne_zero (Nat.ne_of_gt enough)
  rw [further, run_bind_of_ok (run_acceptIntersection joins)]
  exact fails.bind _ cursor.advance rfl

theorem agree_furtherIntersection (ends : Ends back back')
    (items : Alike back back' (fun _ => Stranded) limit type type') (fails : FailsAt back' type')
    {bound bound' : Nat} (within : shared.length ≤ limit) (enough : shared.length ≤ bound)
    (enough' : shared.length ≤ bound') (abreast : Abreast back back' shared here there) :
    Agree back back' (fun _ => Stranded) shared.length (further acceptIntersection type bound here)
      (further acceptIntersection type' bound' there) := by
  induction known : shared.length using Nat.strong_induction_on
    generalizing shared here there bound bound' with
  | _ length ih =>
    rcases isAtIntersection_or ends abreast with same | ⟨proper, empty, stranded, joins, behind⟩
    · cases joins : isAtIntersection here with
      | false =>
          rw [run_furtherIntersection_of_not type bound joins,
            run_furtherIntersection_of_not type' bound' (same ▸ joins)]
          exact .ok (Nat.le_of_eq known) abreast
      | true =>
          have stands := joins
          rw [isAtIntersection, Bool.and_eq_true] at stands
          rcases abreast.isAt_or ends .ampersand rfl with ⟨near, -⟩ | ⟨first, more, rfl, -⟩
          · rw [near] at stands
            cases stands.1
          rw [List.length_cons] at known enough enough' within
          obtain ⟨bound, rfl⟩ := Nat.exists_eq_add_one_of_ne_zero (n := bound) (by omega)
          obtain ⟨bound', rfl⟩ := Nat.exists_eq_add_one_of_ne_zero (n := bound') (by omega)
          rw [further, further, run_bind_of_ok (run_acceptIntersection joins),
            run_bind_of_ok (run_acceptIntersection (same ▸ joins))]
          have short := List.length_dropWhile_le (fun token => token.kind == Kind.padding) more
          refine ((items _ _ _ (by omega) (abreast.advance ends)).bind ?_ ?_).mono (by omega)
            fun _ _ => id
          · intro value shared here there le abreast
            refine ((ih _ (by omega) (by omega) (by omega) (by omega) abreast rfl).bind ?_ ?_).mono le
              fun _ _ => id
            · exact fun others shared here there le abreast => .ok le abreast
            · exact fun _ _ _ stops => stops
          · intro _ value here stops
            rw [run_bind_of_ok
              (run_furtherIntersection_of_not type bound (isAtIntersection_of_stranded stops))]
            exact stops
    · rw [run_furtherIntersection_of_not type bound (isAtIntersection_of_stranded stranded)]
      have many := List.length_pos_iff.mpr proper
      obtain ⟨failure, after, lost⟩ := run_furtherIntersection_of_fails joins (behind ▸ fails)
        (Nat.lt_of_lt_of_le many enough')
      rw [lost]
      exact .stuck _ _ empty stranded

/-! ## Whole types -/

theorem alike_typeWith (ends : Ends back back')
    (atoms : Alike back back' (fun _ => Stranded) limit atom atom') (fails : FailsAt back' atom') :
    Alike back back' (fun _ => Stranded) limit (typeWith atom) (typeWith atom') := by
  have members := alike_postfixType ends atoms
  have missing : FailsAt back' (postfixType atom') := fails.bind _
  intro shared here there within abreast
  refine (members shared here there within abreast).bind ?_ ?_
  · intro value more here there short abreast
    rw [run_get_bind, run_get_bind, abreast.isAt_eq ends _ rfl]
    have enough := abreast.length_le
    split
    next =>
      refine Agree.bind (p := fun _ => Stranded) ?_ ?_ ?_
      · rw [allFurther, allFurther, run_get_bind, run_get_bind]
        exact (agree_further ends rfl (fun _ stops => stops.isAt rfl (by decide)) members
          (Nat.le_trans short within) enough.1 enough.2 abreast).mono short fun _ _ => id
      · exact fun others more here there le abreast => .ok le abreast
      · exact fun _ _ _ stops => stops
    next =>
      rw [run_get_bind, run_get_bind]
      have others := agree_furtherIntersection ends members missing (Nat.le_trans short within)
        enough.1 enough.2 abreast
      rcases isAtIntersection_or ends abreast with same | ⟨proper, empty, stranded, joins, behind⟩
      · rw [same]
        split
        next =>
          refine Agree.bind (p := fun _ => Stranded) (others.mono short fun _ _ => id) ?_ ?_
          · exact fun others more here there le abreast => .ok le abreast
          · exact fun _ _ _ stops => stops
        next => exact .ok short abreast
      · obtain ⟨failure, after, lost⟩ := run_furtherIntersection_of_fails joins (behind ▸ missing)
          (Nat.lt_of_lt_of_le (List.length_pos_iff.mpr proper) enough.2)
        rw [isAtIntersection_of_stranded stranded, joins, if_pos rfl, if_neg Bool.false_ne_true,
          run_bind_of_error (show allFurther acceptIntersection (postfixType atom') there =
            _ from lost)]
        exact .stuck _ _ empty stranded
  · intro _ value here stranded
    rw [run_get_bind, stranded.isAt rfl (by decide), if_neg Bool.false_ne_true, run_get_bind,
      isAtIntersection_of_stranded stranded, if_neg Bool.false_ne_true]
    exact stranded

/-! ## Callables and shapes -/

theorem agree_acceptVariable (ends : Ends back back') {p : Option Text → Cursor → Prop}
    (abreast : Abreast back back' shared here there) :
    Agree back back' p shared.length (acceptVariable here) (acceptVariable there) := by
  rw [acceptVariable, run_get_bind, run_get_bind]
  rcases abreast.isAt_or ends .varName rfl with ⟨near, far⟩ | ⟨first, more, rfl, -, near, far⟩
  · rw [near, far]
    exact .ok (Nat.le_refl _) abreast
  · rw [near, far, if_pos rfl]
    refine (agree_takeText ends abreast).bind_of_sure (Nat.le_succ _) ?_
    exact fun text shared here there le abreast => .ok le abreast

theorem run_acceptVariable_of_spent (spent : here.Spent) : acceptVariable here = .ok none here := by
  rw [acceptVariable, run_get_bind, spent.isAt rfl (by decide)]
  rfl

theorem alike_callableParam (ends : Ends back back')
    (types : Alike back back' (fun _ => Stranded) limit type type') :
    Alike back back' (fun _ => Spent) limit (callableParam type) (callableParam type') := by
  intro shared here there within abreast
  refine (types shared here there within abreast).bind ?_ ?_
  · intro value more here there short abreast
    refine (agree_accept ends abreast rfl).bind_of_sure short ?_
    intro byReference more here there short abreast
    refine (agree_accept ends abreast rfl).bind_of_sure short ?_
    intro variadic more here there short abreast
    refine (agree_acceptVariable ends abreast).bind_of_sure short ?_
    exact fun name more here there le abreast => .ok le abreast
  · intro _ value here stranded
    have marked := stranded.spent.accept .ampersand
    have spread := marked.accept .ellipsis
    rw [run_bind_of_ok (run_accept _ _), run_bind_of_ok (run_accept _ _),
      run_bind_of_ok (run_acceptVariable_of_spent spread)]
    exact spread

theorem alike_callableParams (ends : Ends back back')
    (types : Alike back back' (fun _ => Stranded) limit type type') :
    Alike back back' (fun _ => Spent) limit (callableParams type) (callableParams type') := by
  have params := alike_callableParam ends types
  intro shared here there within abreast
  rw [callableParams, callableParams, run_get_bind, run_get_bind, abreast.isAt_eq ends _ rfl]
  split
  next => exact .ok (Nat.le_refl _) abreast
  next =>
    refine (params shared here there within abreast).bind ?_ ?_
    · intro first more here there short abreast
      have enough := abreast.length_le
      refine Agree.bind (p := fun _ => Spent) ?_ ?_ ?_
      · rw [allFurther, allFurther, run_get_bind, run_get_bind]
        exact (agree_further ends rfl (fun _ spent => spent.isAt rfl (by decide)) params
          (Nat.le_trans short within) enough.1 enough.2 abreast).mono short fun _ _ => id
      · exact fun others more here there le abreast => .ok le abreast
      · exact fun _ _ _ stops => stops
    · intro _ first here spent
      rw [run_bind_of_ok (run_allFurther_of_not_isAt _ (spent.isAt rfl (by decide)))]
      exact spent

/-- No key stands where a line ends. -/
theorem isAtKey_of_endLine {cursor : Cursor} (ends : EndLine cursor.rest) :
    isAtKey cursor = false := by
  cases stands : cursor.rest with
  | nil =>
      have kind : cursor.kind? = none := by
        rw [kind?, stands]
        rfl
      rw [isAtKey, kind]
      rfl
  | cons first rest =>
      have kind : cursor.kind? = some first.kind := by
        rw [kind?, stands]
        rfl
      rw [isAtKey, kind]
      rcases ends first (by rw [stands]; rfl) with broken | closed
      · rw [broken]
        rfl
      · rw [closed]
        rfl

theorem isAtKey_eq (ends : Ends back back') (abreast : Abreast back back' shared here there) :
    isAtKey here = isAtKey there := by
  cases shared with
  | cons first more =>
      obtain ⟨rest, -, behind⟩ := (abreast.advance ends).accept ends .question rfl
      rw [isAtKey, isAtKey, abreast.kind?_eq.1, abreast.kind?_eq.2, behind.isAt_eq ends _ rfl]
  | nil =>
      obtain ⟨ended, ended'⟩ := abreast.ended rfl
      rw [isAtKey_of_endLine (ended ▸ ends.near), isAtKey_of_endLine (ended' ▸ ends.far)]

theorem alike_shapeItem (ends : Ends back back')
    (types : Alike back back' (fun _ => Stranded) limit type type') :
    Alike back back' (fun _ => Stranded) limit (shapeItem type) (shapeItem type') := by
  intro shared here there within abreast
  rw [shapeItem, shapeItem, run_get_bind, run_get_bind, isAtKey_eq ends abreast]
  split
  next keyed =>
    cases shared with
    | nil =>
        rw [isAtKey_of_endLine ((abreast.ended rfl).2 ▸ ends.far)] at keyed
        cases keyed
    | cons first more =>
        refine (agree_takeText ends abreast).bind_of_sure (Nat.le_succ _) ?_
        intro key more here there short abreast
        refine (agree_accept ends abreast rfl).bind_of_sure short ?_
        intro optional more here there short abreast
        refine (agree_expect ends abreast rfl).bind_of_sure short ?_
        intro _ more here there short abreast
        refine ((types more here there (Nat.le_trans short within) abreast).mono short fun _ _ =>
          id).bind ?_ ?_
        · exact fun value more here there le abreast => .ok le abreast
        · exact fun _ _ _ stops => stops
  next =>
    refine (types shared here there within abreast).bind ?_ ?_
    · exact fun value more here there le abreast => .ok le abreast
    · exact fun _ _ _ stops => stops

theorem fails_shapeItem (ends : EndLine back) (fails : FailsAt back type) :
    FailsAt back (shapeItem type) := by
  intro cursor stands
  rw [shapeItem, run_get_bind, isAtKey_of_endLine (stands ▸ ends), if_neg Bool.false_ne_true]
  exact fails.bind _ cursor stands

/-- Where a line ends and tokens remain, the items of a shape cannot be read. -/
theorem run_shapeItems_of_endLine (ends : EndLine back) (proper : back ≠ [])
    (fails : FailsAt back type) {cursor : Cursor} (stands : cursor.rest = back) (bound : Nat) :
    ∃ failure after, shapeItems type (bound + 1) cursor = .error failure after := by
  have open? : cursor.isAt .curlyClose = false := isAt_eq_false_of_head?
    (fun token head => isContent_of_endLine ends (stands ▸ head)) rfl
  have more : cursor.isAtEnd = false := by
    rw [isAtEnd, stands]
    exact List.isEmpty_eq_false_iff.mpr proper
  rw [shapeItems, run_get_bind, open?, more, if_neg (by decide)]
  exact (fails_shapeItem ends fails).bind _ cursor stands

theorem agree_shapeItems (ends : Ends back back')
    (types : Alike back back' (fun _ => Stranded) limit type type')
    (fails : FailsAt back type) (fails' : FailsAt back' type') {bound bound' : Nat}
    (within : shared.length ≤ limit) (enough : shared.length < bound)
    (enough' : shared.length < bound') (abreast : Abreast back back' shared here there) :
    Agree back back' (fun _ => Spent) shared.length (shapeItems type bound here)
      (shapeItems type' bound' there) := by
  induction known : shared.length using Nat.strong_induction_on
    generalizing shared here there bound bound' with
  | _ length ih =>
    obtain ⟨bound, rfl⟩ := Nat.exists_eq_add_one_of_ne_zero (n := bound) (by omega)
    obtain ⟨bound', rfl⟩ := Nat.exists_eq_add_one_of_ne_zero (n := bound') (by omega)
    cases shared with
    | nil =>
        obtain ⟨ended, ended'⟩ := abreast.ended rfl
        obtain ⟨failure', after', run'⟩ :=
          run_shapeItems_of_endLine ends.far ends.proper fails' ended' bound'
        rw [run']
        cases back with
        | nil =>
            have stopped : here.isAtEnd = true := by rw [isAtEnd, ended]; rfl
            rw [shapeItems, run_get_bind, stopped, Bool.or_true, if_pos rfl]
            refine .stuck _ _ rfl fun token mem => ?_
            rw [ended] at mem
            cases mem
        | cons next rest =>
            obtain ⟨failure, after, run⟩ :=
              run_shapeItems_of_endLine ends.near (List.cons_ne_nil _ _) fails ended bound
            rw [run]
            exact .error _ _ _ _
    | cons first more =>
        obtain ⟨padding, -, rest⟩ := abreast.near
        obtain ⟨padding', -, rest'⟩ := abreast.far
        have more? : here.isAtEnd = false ∧ there.isAtEnd = false := by
          rw [isAtEnd, isAtEnd, rest, rest']
          exact ⟨rfl, rfl⟩
        rw [shapeItems, shapeItems, run_get_bind, run_get_bind, abreast.isAt_eq ends _ rfl,
          more?.1, more?.2]
        split
        next => exact .ok (Nat.le_of_eq known) abreast
        next =>
          have items := alike_shapeItem ends types _ here there within abreast
          refine (items.mono (Nat.le_of_eq known) fun _ _ => id).bind ?_ ?_
          · intro item more here there short abreast
            rcases abreast.isAt_or ends .comma rfl with
              ⟨near, far⟩ | ⟨comma, others, rfl, -, near, far⟩
            · rw [run_bind_of_ok (run_accept_of_not_isAt near),
                run_bind_of_ok (run_accept_of_not_isAt far)]
              exact .ok short abreast
            · rw [run_bind_of_ok (run_accept _ _), run_bind_of_ok (run_accept _ _), near, far,
                if_pos rfl, if_pos rfl, accept_of_isAt near, accept_of_isAt far]
              rw [List.length_cons] at short
              have fewer :=
                List.length_dropWhile_le (fun token => token.kind == Kind.padding) others
              have later := @ih _ (by omega) _ _ _ bound bound' (by omega) (by omega) (by omega)
                (abreast.advance ends) rfl
              refine (later.mono (Nat.le_trans fewer (by omega)) fun _ _ => id).bind ?_ ?_
              · exact fun items more here there le abreast => .ok le abreast
              · exact fun _ _ _ stops => stops
          · intro _ item here stranded
            rw [run_bind_of_ok (run_accept_of_not_isAt (stranded.isAt rfl (by decide))),
              if_neg Bool.false_ne_true]
            exact stranded.spent

/-! ## Atoms -/

/-- What a name opens is closed: nothing is stuck in front of a bracket. -/
theorem leaves_expect {α : Type} {kind : Kind} (spent : here.Spent)
    (content : kind.isContent = true)
    (other : kind ≠ .ampersand) (next : Token → Read α) (p : α → Cursor → Prop) :
    Leaves p ((expect kind >>= next) here) := by
  obtain ⟨failure, run⟩ := run_expect_of_not_isAt (spent.isAt content other)
  rw [run_bind_of_error run]
  trivial

section Named

variable (ends : Ends back back') (atoms : Alike back back' (fun _ => Stranded) limit atom atom')
  (fails' : FailsAt back' atom') (name : Text) (within : shared.length ≤ limit)
  (abreast : Abreast back back' shared here there)

include ends atoms fails' within abreast

/-- The arguments of a generic type, behind the bracket that opens them. -/
theorem agree_arguments :
    Agree back back' (fun _ => Stranded) shared.length
      ((do
        let first ← typeWith atom
        let others ← allFurther (accept .comma) (typeWith atom)
        let _ ← expect .angleClose
        return generic name (first :: others) : Read TypeExpr) here)
      ((do
        let first ← typeWith atom'
        let others ← allFurther (accept .comma) (typeWith atom')
        let _ ← expect .angleClose
        return generic name (first :: others) : Read TypeExpr) there) := by
  have types := alike_typeWith ends atoms fails'
  refine (types shared here there within abreast).bind ?_ ?_
  · intro first more here there short abreast
    have enough := abreast.length_le
    refine Agree.bind (p := fun _ => Stranded) ?_ ?_ ?_
    · exact (agree_further ends rfl (fun _ stops => stops.isAt rfl (by decide)) types
        (Nat.le_trans short within) enough.1 enough.2 abreast).mono short fun _ _ => id
    · intro others more here there short abreast
      refine (agree_expect ends abreast rfl).bind_of_sure short ?_
      exact fun _ more here there le abreast => .ok le abreast
    · exact fun _ others here stranded => leaves_expect stranded.spent rfl (by decide) _ _
  · intro _ first here stranded
    rw [run_bind_of_ok (run_allFurther_of_not_isAt _ (stranded.isAt rfl (by decide)))]
    exact leaves_expect stranded.spent rfl (by decide) _ _

/-- The signature of a callable, behind the parenthesis that opens it. -/
theorem agree_signature :
    Agree back back' (fun _ => Stranded) shared.length
      ((do
        let params ← callableParams (typeWith atom)
        let _ ← expect .roundClose
        let _ ← expect .colon
        let result ← postfixType atom
        return callable name params result : Read TypeExpr) here)
      ((do
        let params ← callableParams (typeWith atom')
        let _ ← expect .roundClose
        let _ ← expect .colon
        let result ← postfixType atom'
        return callable name params result : Read TypeExpr) there) := by
  have types := alike_typeWith ends atoms fails'
  refine (alike_callableParams ends types shared here there within abreast).bind ?_ ?_
  · intro params more here there short abreast
    refine (agree_expect ends abreast rfl).bind_of_sure short ?_
    intro _ more here there short abreast
    refine (agree_expect ends abreast rfl).bind_of_sure short ?_
    intro _ more here there short abreast
    have results := alike_postfixType ends atoms more here there (Nat.le_trans short within) abreast
    refine (results.mono short fun _ _ => id).bind ?_ ?_
    · exact fun result more here there le abreast => .ok le abreast
    · exact fun _ _ _ stops => stops
  · exact fun _ params here spent => leaves_expect spent rfl (by decide) _ _

/-- The items of a shape, behind the brace that opens them. -/
theorem agree_items (fails : FailsAt back atom) {bound bound' : Nat}
    (enough : shared.length < bound) (enough' : shared.length < bound') :
    Agree back back' (fun _ => Stranded) shared.length
      ((do
        let items ← shapeItems (typeWith atom) bound
        let _ ← expect .curlyClose
        return shape name items : Read TypeExpr) here)
      ((do
        let items ← shapeItems (typeWith atom') bound'
        let _ ← expect .curlyClose
        return shape name items : Read TypeExpr) there) := by
  have types := alike_typeWith ends atoms fails'
  have missing : FailsAt back (typeWith atom) := (fails.bind _).bind _
  have missing' : FailsAt back' (typeWith atom') := (fails'.bind _).bind _
  refine (agree_shapeItems ends types missing missing' within enough enough' abreast).bind ?_ ?_
  · intro items more here there short abreast
    refine (agree_expect ends abreast rfl).bind_of_sure short ?_
    exact fun _ more here there le abreast => .ok le abreast
  · exact fun _ items here spent => leaves_expect spent rfl (by decide) _ _

end Named

theorem agree_namedType (ends : Ends back back')
    (atoms : Alike back back' (fun _ => Stranded) shared.length atom atom')
    (fails : FailsAt back atom) (fails' : FailsAt back' atom')
    (abreast : Abreast back back' (first :: shared) here there) :
    Agree back back' (fun _ => Stranded) shared.length (namedType atom here)
      (namedType atom' there) := by
  obtain ⟨padding, -, rest⟩ := abreast.near
  obtain ⟨padding', -, rest'⟩ := abreast.far
  have beside := abreast.step
  have enough := beside.length_le
  rw [namedType, namedType, run_get_bind, run_get_bind, text_of_rest rest, text_of_rest rest',
    run_bind_of_ok (run_step _), run_bind_of_ok (run_step _), run_get_bind, run_get_bind]
  rw [beside.isAt_eq ends _ rfl, beside.isAt_eq ends _ rfl, beside.isAt_eq ends _ rfl]
  split
  next stands =>
    obtain ⟨more, short, behind⟩ := beside.advance_of_isAt ends rfl stands
    exact (agree_arguments ends atoms fails' first.text (Nat.le_of_lt short) behind).mono
      (Nat.le_of_lt short) fun _ _ => id
  split
  next stands =>
    rw [Bool.and_eq_true] at stands
    obtain ⟨more, short, behind⟩ := beside.advance_of_isAt ends rfl stands.1
    exact (agree_signature ends atoms fails' first.text (Nat.le_of_lt short) behind).mono
      (Nat.le_of_lt short) fun _ _ => id
  split
  next stands =>
    rw [Bool.and_eq_true] at stands
    obtain ⟨more, short, behind⟩ := beside.advance_of_isAt ends rfl stands.1
    exact (agree_items ends atoms fails' first.text (Nat.le_of_lt short) behind fails (by omega)
      (by omega)).mono (Nat.le_of_lt short) fun _ _ => id
  next => exact .ok (List.length_dropWhile_le _ _) (beside.skipPadding ends)

end Parts

/-- No atom stands where a line ends. -/
theorem fails_atom (ends : EndLine back) (depth : Nat) : FailsAt back (atom depth) := by
  intro cursor stands
  cases depth with
  | zero => exact ⟨_, _, rfl⟩
  | succ depth =>
      rw [atom, run_get_bind]
      cases shown : back with
      | nil =>
          have kind : cursor.kind? = none := by rw [kind?, stands, shown]; rfl
          rw [kind]
          exact ⟨_, _, rfl⟩
      | cons first rest =>
          have kind : cursor.kind? = some first.kind := by rw [kind?, stands, shown]; rfl
          rw [kind]
          rcases ends first (by rw [shown]; rfl) with broken | closed
          · rw [broken]
            exact ⟨_, _, rfl⟩
          · rw [closed]
            exact ⟨_, _, rfl⟩

/-- Atoms agree when they may be read as deep as two cursors share tokens. -/
theorem alike_atom (ends : Ends back back') {depth depth' : Nat} (deep : limit < depth)
    (deep' : limit < depth') :
    Alike back back' (fun _ => Stranded) limit (atom depth) (atom depth') := by
  induction limit generalizing depth depth' with
  | zero =>
      intro shared here there within abreast
      obtain rfl := List.length_eq_zero_iff.mp (Nat.le_zero.mp within)
      exact agree_of_fails (fails_atom ends.near depth) (fails_atom ends.far depth') abreast
  | succ limit ih =>
      obtain ⟨depth, rfl⟩ := Nat.exists_eq_add_one_of_ne_zero (n := depth) (by omega)
      obtain ⟨depth', rfl⟩ := Nat.exists_eq_add_one_of_ne_zero (n := depth') (by omega)
      have atoms := ih (Nat.lt_of_succ_lt_succ deep) (Nat.lt_of_succ_lt_succ deep')
      have fails' := fails_atom ends.far depth'
      intro shared here there within abreast
      cases shared with
      | nil => exact agree_of_fails (fails_atom ends.near _) (fails_atom ends.far _) abreast
      | cons first more =>
          have short := List.length_dropWhile_le (fun token => token.kind == Kind.padding) more
          rw [List.length_cons] at within
          have behind := abreast.advance ends
          rw [atom, atom, run_get_bind, run_get_bind, abreast.kind?_eq.1, abreast.kind?_eq.2]
          cases kind : first.kind with
          | question =>
              simp only []
              rw [run_bind_of_ok (run_advance _), run_bind_of_ok (run_advance _)]
              refine ((atoms _ _ _ (by omega) behind).mono (Nat.le_succ_of_le short) fun _ _ =>
                id).bind ?_ ?_
              · exact fun inner more here there le abreast => .ok le abreast
              · exact fun _ _ _ stops => stops
          | roundOpen =>
              simp only []
              rw [run_bind_of_ok (run_advance _), run_bind_of_ok (run_advance _)]
              have types := alike_typeWith ends atoms fails' _ _ _ (by omega) behind
              refine (types.mono (Nat.le_succ_of_le short) fun _ _ => id).bind ?_ ?_
              · intro inner more here there le abreast
                refine (agree_expect ends abreast rfl).bind_of_sure le ?_
                exact fun _ more here there le abreast => .ok le abreast
              · exact fun _ inner here stranded => leaves_expect stranded.spent rfl (by decide) _ _
          | quoted | number =>
              refine (agree_takeText ends abreast).bind_of_sure (Nat.le_succ _) ?_
              exact fun _ more here there le abreast => .ok le abreast
          | varName =>
              obtain ⟨padding, -, rest⟩ := abreast.near
              obtain ⟨padding', -, rest'⟩ := abreast.far
              simp only []
              rw [text_of_rest rest, text_of_rest rest']
              split
              next =>
                refine (agree_takeText ends abreast).bind_of_sure (Nat.le_succ _) ?_
                exact fun _ more here there le abreast => .ok le abreast
              next => exact .error _ _ _ _
          | name =>
              have fails := fails_atom ends.near depth
              have few : Alike back back' (fun _ => Stranded) more.length (atom depth)
                  (atom depth') :=
                fun shared here there le abreast => atoms shared here there (by omega) abreast
              exact (agree_namedType ends few fails fails' abreast).mono (Nat.le_succ _)
                fun _ _ => id
          | _ => exact .error _ _ _ _

end Grammar

theorem alike_read {back back' : List Token} {limit : Nat} (ends : Cursor.Ends back back') :
    Read.Alike back back' (fun _ => Cursor.Stranded) limit read read := by
  intro shared here there within abreast
  have enough := abreast.length_le
  rw [read, Read.run_get_bind, Read.run_get_bind]
  exact Grammar.alike_typeWith ends
    (Grammar.alike_atom ends (Nat.lt_succ_of_le enough.1) (Nat.lt_succ_of_le enough.2))
    (Grammar.fails_atom ends.far _) shared here there (Nat.le_refl _) abreast

end TypeExpr

end DocComment
