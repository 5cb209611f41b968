import DocComment.Proofs.TypeExpr.Prospect

/-!
# Subjects in front of other text

A subject ends where it does whatever stands behind it, as long as that keeps it separated
(`run_subject_of_level`).
-/

namespace DocComment

open Token Read Cursor

namespace Prospect

variable {p : Prospect} {shared : List Token} {here there : Cursor}

/-- Both cursors accept a token of a kind or neither does, or the first one leaves
what is shared with it. -/
theorem Level.accept_or (level : p.Level shared here there) {kind : Kind}
    (inside : kind.isWithinType = true) :
    (∃ more, p.Level more (here.accept kind) (there.accept kind)) ∨
      (here.isAt kind = true ∧ (here.accept kind).rest.length < p.near.length) := by
  have same : here.isAt kind = there.isAt kind := level.isAt_eq inside
  cases stands : here.isAt kind with
  | false =>
      rw [accept_of_not_isAt stands, accept_of_not_isAt (same ▸ stands)]
      exact Or.inl ⟨shared, level⟩
  | true =>
      rw [accept_of_isAt stands, accept_of_isAt (same ▸ stands)]
      rcases level.advance_or with ⟨more, -, behind⟩ | lost
      · exact Or.inl ⟨more, behind⟩
      · exact Or.inr ⟨rfl, lost⟩

end Prospect

namespace TypeExpr

/-- No type begins with a mark of a parameter. -/
theorem fails_read_of_mark {cursor : Cursor}
    (marked : cursor.isAt .ampersand = true ∨ cursor.isAt .ellipsis = true) :
    ∃ failure after, read cursor = .error failure after := by
  have fails : ∃ failure after, Grammar.atom (cursor.rest.length + 1) cursor =
      .error failure after := by
    rw [Grammar.atom, run_get_bind]
    rcases marked with marked | marked
    · rw [beq_iff_eq.mp marked]
      exact ⟨_, _, rfl⟩
    · rw [beq_iff_eq.mp marked]
      exact ⟨_, _, rfl⟩
  obtain ⟨failure, after, run⟩ := fails
  rw [read, run_get_bind]
  exact ⟨failure, after, run_bind_of_error (run_bind_of_error run)⟩

end TypeExpr

namespace Payload

namespace Grammar

variable {p : Prospect} {shared : List Token} {here there : Cursor} {limit : Nat}

theorem keeps_typeUnless (absent : Bool) :
    Keeps p limit (typeUnless absent) (typeUnless absent) := by
  cases absent with
  | true => exact Keeps.pure none
  | false => exact TypeExpr.keeps_read.bind fun type => Keeps.pure (some type)

theorem goesForward_expectSeparated : GoesForward expectSeparated := by
  refine goesForward_get_bind fun cursor => ?_
  split
  · exact goesForward_pure ()
  · exact goesForward_failExpecting _

theorem isAtLineEnd_congr (same : here.kind? = there.kind?) :
    here.isAtLineEnd = there.isAtLineEnd := by
  rw [isAtLineEnd, isAtLineEnd, same]

theorem keeps_expectSeparated : Keeps p limit expectSeparated expectSeparated := by
  refine ⟨goesForward_expectSeparated, fun shared here there _ level => ?_⟩
  intro value after run _
  rw [expectSeparated, run_get_bind] at run ⊢
  split at run
  next separated =>
    cases run
    refine ⟨shared, there, Nat.le_refl _, ?_, level⟩
    rw [if_pos]
    · rfl
    cases level with
    | within beside =>
        have kinds : here.kind? = there.kind? := by
          rw [kind?, kind?, beside.near, beside.far]
          rfl
        rw [← isAtLineEnd_congr kinds, ← beside.padded]
        exact separated
    | ended near far padded padded' =>
        rw [Bool.or_eq_true, padded', Bool.not_eq_true', List.isEmpty_eq_false_iff]
        by_cases spaced' : p.gap' = []
        · refine Or.inl ?_
          have spaced : p.gap = [] := by_contra fun proper => p.spaced proper spaced'
          have closes : here.isAtLineEnd = (Cursor.mk [] p.near).isAtLineEnd :=
            isAtLineEnd_congr (kind?_congr near)
          have closes' : there.isAtLineEnd = (Cursor.mk [] p.far).isAtLineEnd :=
            isAtLineEnd_congr (kind?_congr far)
          rw [padded, spaced, closes] at separated
          rw [closes']
          exact p.ended spaced spaced' ((Bool.or_false _).symm.trans separated)
        · exact Or.inr spaced'
  next => cases run

/-! ## Parameters -/

/-- What the reader of a parameter takes behind its type. -/
theorem keeps_parameter (type : Option TypeExpr) :
    Keeps p limit
      (do
        let byReference ← accept .ampersand
        let variadic ← accept .ellipsis
        let name ← expect .varName
        expectSeparated
        return .param type byReference variadic name.text : Read Subject)
      (do
        let byReference ← accept .ampersand
        let variadic ← accept .ellipsis
        let name ← expect .varName
        expectSeparated
        return .param type byReference variadic name.text : Read Subject) := by
  refine (Keeps.accept rfl).bind fun _ => (Keeps.accept rfl).bind fun _ =>
    (Keeps.expect _).bind fun _ => ?_
  exact keeps_expectSeparated.bind fun _ => Keeps.pure _

theorem isAtParameter_or (level : p.Level shared here there) :
    isAtParameter here = isAtParameter there ∨
      ((here.isAt .ampersand = true ∨ here.isAt .ellipsis = true) ∧
        ((here.accept .ampersand).accept .ellipsis).rest.length < p.near.length) := by
  rcases level.accept_or (show Kind.isWithinType .ampersand = true from rfl) with ⟨more, behind⟩ |
    ⟨marked, lost⟩
  · rcases behind.accept_or (show Kind.isWithinType .ellipsis = true from rfl)
      with ⟨less, behind'⟩ | ⟨spread, lost⟩
    · exact Or.inl (behind'.isAt_eq rfl)
    · refine Or.inr ⟨?_, lost⟩
      cases marked : here.isAt .ampersand with
      | true => exact Or.inl rfl
      | false => exact Or.inr (accept_of_not_isAt marked ▸ spread)
  · exact Or.inr ⟨Or.inl marked, Nat.lt_of_le_of_lt
      ((goesForward_accept .ellipsis).length_le (run_accept .ellipsis (here.accept .ampersand))) lost⟩

/-- A type stands in front of a parameter only if the parameter itself does not stand there. -/
theorem carried_param (level : p.Level shared here there) :
    Carried p shared.length (subject .param here) (subject .param there) := by
  have whole (absent : Bool) :
      Keeps p shared.length (typeUnless absent >>= _) (typeUnless absent >>= _) :=
    (keeps_typeUnless absent).bind keeps_parameter
  rw [subject, run_get_bind, run_get_bind]
  rcases isAtParameter_or level with same | ⟨marked, lost⟩
  · rw [same]
    exact (whole (isAtParameter there)).carried shared here there (Nat.le_refl _) level
  · intro value after run within
    exfalso
    cases absent : isAtParameter here with
    | false =>
        rw [absent] at run
        obtain ⟨type, middle, taken, -⟩ := bind_eq_ok.mp run
        obtain ⟨found, behind, read, -⟩ := bind_eq_ok.mp taken
        obtain ⟨failure, stopped, fails⟩ := TypeExpr.fails_read_of_mark marked
        cases fails.symm.trans read
    | true =>
        rw [absent, typeUnless, if_pos rfl, pure_bind, run_bind_of_ok (run_accept _ _),
          run_bind_of_ok (run_accept _ _)] at run
        have nearer := GoesForward.length_le (goesForward_bind (goesForward_expect _) fun _ =>
          goesForward_bind goesForward_expectSeparated fun _ => goesForward_pure _) run
        omega

/-! ## Subjects -/

/-- A subject that is read in front of the one continuation is read in front of the other. -/
theorem keeps_subject (kind : Subject.Kind) : Keeps p limit (subject kind) (subject kind) := by
  cases kind with
  | param =>
      refine ⟨goesForward_get_bind fun cursor => ?_,
        fun shared here there _ level => carried_param level⟩
      have whole : Keeps p limit (typeUnless (isAtParameter cursor) >>= _)
          (typeUnless (isAtParameter cursor) >>= _) :=
        (keeps_typeUnless _).bind keeps_parameter
      exact whole.forward
  | returned =>
    exact TypeExpr.keeps_read.bind fun _ => keeps_expectSeparated.bind fun _ => Keeps.pure _
  | thrown =>
    exact TypeExpr.keeps_read.bind fun _ => keeps_expectSeparated.bind fun _ => Keeps.pure _
  | var =>
      have whole (absent : Bool) : Keeps p limit
          (do
            let type ← typeUnless absent
            let name ← TypeExpr.Grammar.acceptVariable
            expectSeparated
            return .var type name : Read Subject)
          (do
            let type ← typeUnless absent
            let name ← TypeExpr.Grammar.acceptVariable
            expectSeparated
            return .var type name : Read Subject) := by
        refine (keeps_typeUnless absent).bind fun type => TypeExpr.Grammar.keeps_acceptVariable.bind
          fun name => ?_
        exact keeps_expectSeparated.bind fun _ => Keeps.pure _
      refine ⟨goesForward_get_bind fun cursor => (whole _).forward,
        fun shared here there few level => ?_⟩
      rw [subject, run_get_bind, run_get_bind, level.isAt_eq rfl]
      exact (whole _).carried shared here there few level

/-- A subject that ends in front of the one continuation ends in front of the other. -/
theorem run_subject_of_level {kind : Subject.Kind} {found : Subject} {after : Cursor}
    (level : p.Level shared here there) (run : subject kind here = .ok found after)
    (ends : after.rest = p.near) :
    ∃ after', subject kind there = .ok found after' ∧ after'.rest = p.far := by
  have kept : Carried p shared.length _ _ :=
    (keeps_subject kind).carried shared here there (Nat.le_refl _) level
  obtain ⟨more, after', -, run', level'⟩ :=
    kept found after run (Nat.le_of_eq (congrArg List.length ends.symm))
  refine ⟨after', run', ?_⟩
  cases level' with
  | within beside =>
      have longer := congrArg List.length (ends.symm.trans beside.near)
      simp only [List.length_append, List.length_cons] at longer
      omega
  | ended near far => exact far

end Grammar

end Payload

end DocComment
