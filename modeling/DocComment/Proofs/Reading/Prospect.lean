import DocComment.Proofs.Reading.Bounds

/-!
# What a reader stops in front of

A reader that stops in front of some tokens finds the same in front of others that give
it no cause to go on.  A `Prospect` is what stands behind the tokens that two cursors share, once
for each of them.  `Read.Keeps` says that whatever a reader finds in front of the one it finds in
front of the other, and each combinator of readers has its lemma.
-/

namespace DocComment

open Token

/-- What stands behind the tokens that two cursors share: padding, and what a reader may stop at. -/
structure Prospect where
  gap : List Token
  near : List Token
  gap' : List Token
  far : List Token
  soft : ArePadding gap
  soft' : ArePadding gap'
  proper : near ≠ []
  proper' : far ≠ []
  firm : (Cursor.mk [] near).isAt .padding = false
  /-- Both begin with the same token, as far as types know it. -/
  alike : ∀ kind, kind.isWithinType = true → (Cursor.mk [] near).isAt kind = (Cursor.mk [] far).isAt kind
  spaced : gap ≠ [] → gap' ≠ []
  /-- Padding comes in only where no type could go on. -/
  glued : gap = [] → gap' ≠ [] → ∀ kind, kind.isWithinType = true → (Cursor.mk [] near).isAt kind = false
  paired : (Cursor.mk [] near).isAt .squareOpen = true → (Cursor.mk [] far).nextKind? = some .squareClose →
    (Cursor.mk [] near).nextKind? = some .squareClose
  alone : TypeExpr.Grammar.isAtIntersection ⟨[], near⟩ = false → TypeExpr.Grammar.isAtIntersection ⟨[], far⟩ = false
  ended : gap = [] → gap' = [] → (Cursor.mk [] near).isAtLineEnd = true → (Cursor.mk [] far).isAtLineEnd = true

namespace Cursor

variable {cursor : Cursor} {tokens : List Token}

theorem isAt_of_rest_eq (stands : cursor.rest = tokens) (kind : Kind) :
    cursor.isAt kind = (Cursor.mk [] tokens).isAt kind := by
  rw [isAt, kind?, stands]
  rfl

theorem isAt_padding_append {gap : List Token} (soft : ArePadding gap) (proper : gap ≠ [])
    (stands : cursor.rest = gap ++ tokens) {kind : Kind} (other : kind ≠ .padding) :
    cursor.isAt kind = false := by
  obtain ⟨first, gap, rfl⟩ := List.exists_cons_of_ne_nil proper
  rw [isAt_of_rest stands, (soft first List.mem_cons_self).1]
  exact beq_eq_false_iff_ne.mpr other.symm

/-- Behind skipped padding a cursor is behind padding, and else it is where it was. -/
theorem skipPadding_of_gap {gap : List Token} (soft : ArePadding gap) (proper : tokens ≠ [])
    (firm : (Cursor.mk [] tokens).isAt .padding = false) (stands : cursor.rest = gap ++ tokens)
    (bare : cursor.isAfterPadding = false) :
    cursor.skipPadding.rest = tokens ∧ cursor.skipPadding.isAfterPadding = !gap.isEmpty := by
  obtain ⟨stop, tokens, rfl⟩ := List.exists_cons_of_ne_nil proper
  have all : ∀ token ∈ gap, (token.kind == Kind.padding) = true :=
    fun token mem => beq_iff_eq.mpr (soft token mem).1
  rw [Cursor.skipPadding, skipWhile_eq stands all firm]
  refine ⟨rfl, ?_⟩
  rw [isAfterPadding_eq, List.head?_append]
  cases known : gap.reverse with
  | nil =>
      rw [List.reverse_eq_nil_iff.mp known, List.head?_nil, Option.none_or, ← isAfterPadding_eq]
      exact bare
  | cons last others =>
      have mem : last ∈ gap := List.mem_reverse.mp (known ▸ List.mem_cons_self)
      rw [List.isEmpty_eq_false_iff.mpr (List.ne_nil_of_mem mem)]
      exact all last mem

end Cursor

namespace Prospect

open Cursor

variable (p : Prospect)

/-- Two cursors in front of the same tokens and then of the two continuations. -/
structure Beside (shared : List Token) (here there : Cursor) : Prop where
  near : here.rest = shared ++ (p.gap ++ p.near)
  far : there.rest = shared ++ (p.gap' ++ p.far)
  firm : ∀ token, shared.getLast? = some token → token.kind ≠ .padding
  padded : here.isAfterPadding = there.isAfterPadding
  bare : shared = [] → here.isAfterPadding = false

/-- Two cursors behind all padding: they share further tokens, or they are at the continuations. -/
inductive Level : List Token → Cursor → Cursor → Prop
  | within {first : Token} {shared : List Token} {here there : Cursor}
      (beside : p.Beside (first :: shared) here there) : Level (first :: shared) here there
  | ended {here there : Cursor} (near : here.rest = p.near) (far : there.rest = p.far)
      (padded : here.isAfterPadding = !p.gap.isEmpty) (padded' : there.isAfterPadding = !p.gap'.isEmpty) :
      Level [] here there

variable {p} {shared : List Token} {first : Token} {here there : Cursor} {kind : Kind}

theorem firm' (p : Prospect) : (Cursor.mk [] p.far).isAt .padding = false :=
  (p.alike .padding rfl).symm.trans p.firm

namespace Beside

theorem isAt_eq (beside : p.Beside shared here there) (inside : kind.isWithinType = true)
    (other : kind ≠ .padding) :
    here.isAt kind = there.isAt kind := by
  have near := beside.near
  have far := beside.far
  cases shared with
  | cons first shared => rw [isAt_of_rest near, isAt_of_rest far]
  | nil =>
      rw [List.nil_append] at near far
      by_cases spaced : p.gap = []
      · rw [spaced, List.nil_append] at near
        rw [isAt_of_rest_eq near]
        by_cases spaced' : p.gap' = []
        · rw [spaced', List.nil_append] at far
          rw [isAt_of_rest_eq far, p.alike kind inside]
        · rw [isAt_padding_append p.soft' spaced' far other, p.glued spaced spaced' kind inside]
      · rw [isAt_padding_append p.soft spaced near other,
          isAt_padding_append p.soft' (p.spaced spaced) far other]

/-- Behind a shared token two cursors are still beside each other. -/
theorem step (beside : p.Beside (first :: shared) here there) :
    p.Beside shared here.step there.step := by
  have near : here.step = ⟨first :: here.passed, shared ++ (p.gap ++ p.near)⟩ := by
    rw [Cursor.step, beside.near]
    rfl
  have far : there.step = ⟨first :: there.passed, shared ++ (p.gap' ++ p.far)⟩ := by
    rw [Cursor.step, beside.far]
    rfl
  rw [near, far]
  refine { near := rfl, far := rfl, firm := ?firm, padded := rfl, bare := ?bare }
  case firm =>
    intro token last
    refine beside.firm token ?_
    rw [List.getLast?_cons, last]
    rfl
  case bare =>
    rintro rfl
    exact beq_eq_false_iff_ne.mpr (beside.firm first rfl)

/-- Behind all padding that comes first two cursors are level. -/
theorem skipPadding (beside : p.Beside shared here there) :
    p.Level (shared.dropWhile fun token => token.kind == .padding) here.skipPadding
      there.skipPadding := by
  cases known : shared.dropWhile fun token => token.kind == .padding with
  | nil =>
      cases shared with
      | nil =>
          have bare := beside.bare rfl
          obtain ⟨near, padded⟩ := skipPadding_of_gap p.soft p.proper p.firm beside.near bare
          obtain ⟨far, padded'⟩ :=
            skipPadding_of_gap p.soft' p.proper' p.firm' beside.far (beside.padded ▸ bare)
          exact .ended near far padded padded'
      | cons first shared =>
          have mem := List.getLast_mem (List.cons_ne_nil first shared)
          have last := beside.firm _ (List.getLast?_eq_some_getLast (List.cons_ne_nil first shared))
          exact absurd (beq_iff_eq.mp (List.dropWhile_eq_nil_iff.mp known _ mem)) last
  | cons stop more =>
      obtain ⟨taken, rfl, all, stops⟩ := exists_of_dropWhile (p := (· == .padding)) known
      have near := beside.near
      have far := beside.far
      rw [List.append_assoc] at near far
      rw [Cursor.skipPadding, Cursor.skipPadding, skipWhile_eq near all stops,
        skipWhile_eq far all stops]
      refine .within { near := rfl, far := rfl, firm := ?firm, padded := ?padded, bare := ?bare }
      case firm =>
        intro token last
        refine beside.firm token ?_
        rw [List.getLast?_append, last]
        rfl
      case padded =>
        rw [isAfterPadding_eq, isAfterPadding_eq, List.head?_append, List.head?_append]
        cases taken.reverse with
        | nil =>
            rw [List.head?_nil, Option.none_or, Option.none_or, ← isAfterPadding_eq,
              ← isAfterPadding_eq]
            exact beside.padded
        | cons last others => rfl
      case bare => exact fun none => absurd none (List.cons_ne_nil _ _)

theorem advance (beside : p.Beside (first :: shared) here there) :
    p.Level (shared.dropWhile fun token => token.kind == .padding) here.advance there.advance :=
  beside.step.skipPadding

/-- A token that is there for the first cursor is shared, or the first cursor is
about to leave what is shared. -/
theorem advance_or (beside : p.Beside shared here there) (stands : here.isAt kind = true)
    (other : kind ≠ .padding) :
    (∃ more, more.length < shared.length ∧ p.Level more here.advance there.advance) ∨
      here.advance.rest.length < p.near.length := by
  cases shared with
  | cons first shared =>
      exact Or.inl ⟨_, Nat.lt_succ_of_le (List.length_dropWhile_le _ _), beside.advance⟩
  | nil =>
      have near := beside.near
      rw [List.nil_append] at near
      by_cases spaced : p.gap = []
      · rw [spaced, List.nil_append] at near
        have shorter := Read.remaining_advance_lt (beq_iff_eq.mp stands)
        rw [Read.remaining, Read.remaining, near] at shorter
        exact Or.inr shorter
      · rw [isAt_padding_append p.soft spaced near other] at stands
        cases stands

end Beside

namespace Level

theorem isAt_eq (level : p.Level shared here there) (inside : kind.isWithinType = true) :
    here.isAt kind = there.isAt kind := by
  cases level with
  | within beside => rw [isAt_of_rest beside.near, isAt_of_rest beside.far]
  | ended near far => rw [isAt_of_rest_eq near, isAt_of_rest_eq far, p.alike kind inside]

/-- Both cursors move over a shared token, or the first one leaves what is shared. -/
theorem advance_or (level : p.Level shared here there) :
    (∃ more, more.length < shared.length ∧ p.Level more here.advance there.advance) ∨
      here.advance.rest.length < p.near.length := by
  cases level with
  | within beside =>
    exact Or.inl ⟨_, Nat.lt_succ_of_le (List.length_dropWhile_le _ _), beside.advance⟩
  | ended near far =>
      obtain ⟨stop, rest, known⟩ := List.exists_cons_of_ne_nil p.proper
      have stands : here.kind? = some stop.kind := by
        rw [kind?, near, known]
        rfl
      have shorter := Read.remaining_advance_lt stands
      rw [Read.remaining, Read.remaining, near] at shorter
      exact Or.inr shorter

theorem length_le (level : p.Level shared here there) :
    shared.length < here.rest.length ∧ shared.length ≤ there.rest.length := by
  have enough := List.length_pos_iff.mpr p.proper
  cases level with
  | within beside =>
      rw [beside.near, beside.far]
      simp only [List.length_append]
      omega
  | ended near far =>
      rw [near]
      exact ⟨enough, Nat.zero_le _⟩

theorem length_near_le (level : p.Level shared here there) : p.near.length ≤ here.rest.length := by
  cases level with
  | within beside =>
      rw [beside.near]
      simp only [List.length_append]
      omega
  | ended near => rw [near]

end Level

end Prospect

namespace Read

open Cursor

variable {α β : Type} {p : Prospect} {limit more : Nat}

/-- What the first run finds in front of the one continuation the second one finds
in front of the other. -/
def Carried (p : Prospect) (limit : Nat) (near far : EStateM.Result Failure Cursor α) : Prop :=
  ∀ value after, near = .ok value after → p.near.length ≤ after.rest.length →
    ∃ shared after', shared.length ≤ limit ∧ far = .ok value after' ∧ p.Level shared after after'

/-- Wherever two cursors share no more tokens than a limit, what the first reader
finds the second one finds. -/
structure Keeps (p : Prospect) (limit : Nat) (read read' : Read α) : Prop where
  forward : GoesForward read
  carried : ∀ shared here there, shared.length ≤ limit → p.Level shared here there →
    Carried p shared.length (read here) (read' there)

theorem Carried.mono {near far : EStateM.Result Failure Cursor α}
    (carried : Carried p limit near far) (le : limit ≤ more) : Carried p more near far := by
  intro value after run within
  obtain ⟨shared, after', few, run', level⟩ := carried value after run within
  exact ⟨shared, after', Nat.le_trans few le, run', level⟩

/-- A reader that has left what is shared does not come back. -/
theorem carried_of_lost {read : Read α} (forward : GoesForward read) {here : Cursor}
    (lost : here.rest.length < p.near.length) {far : EStateM.Result Failure Cursor α} :
    Carried p limit (read here) far := by
  intro value after run within
  have nearer := forward.length_le run
  omega

theorem carried_error {failure : Failure} {after : Cursor} {far : EStateM.Result Failure Cursor α} :
    Carried p limit (.error failure after) far :=
  nofun

namespace Keeps

variable {read read' : Read α} {next next' : α → Read β}

theorem mono (keeps : Keeps p more read read') (le : limit ≤ more) : Keeps p limit read read' where
  forward := keeps.forward
  carried shared here there within := keeps.carried shared here there (Nat.le_trans within le)

theorem pure (value : α) : Keeps p limit (Pure.pure value : Read α) (Pure.pure value) where
  forward := goesForward_pure value
  carried shared here there _ level := by
    rintro _ _ ⟨⟩ -
    exact ⟨shared, there, Nat.le_refl _, rfl, level⟩

theorem bind (front : Keeps p limit read read')
    (back : ∀ value, Keeps p limit (next value) (next' value)) :
    Keeps p limit (read >>= next) (read' >>= next') where
  forward := goesForward_bind front.forward fun value => (back value).forward
  carried shared here there few level := by
    intro result after run within
    obtain ⟨value, middle, first, second⟩ := bind_eq_ok.mp run
    have nearer := (back value).forward.length_le second
    obtain ⟨between, middle', fewer, first', level'⟩ :=
      front.carried shared here there few level value middle first (by omega)
    obtain ⟨last, after', least, second', level''⟩ :=
      (back value).carried between middle middle' (by omega) level' result after second within
    exact ⟨last, after', by omega, bind_eq_ok.mpr ⟨value, middle', first', second'⟩, level''⟩

/-- A test that gives the same on both sides. -/
theorem test {choose : Cursor → Bool} {yes yes' no no' : Read α}
    (same : ∀ shared here there, p.Level shared here there → choose here = choose there)
    (one : Keeps p limit yes yes') (other : Keeps p limit no no') :
    Keeps p limit (do if choose (← get) then yes else no)
      (do if choose (← get) then yes' else no') where
  forward := goesForward_get_bind fun cursor => by
    split
    · exact one.forward
    · exact other.forward
  carried shared here there few level := by
    rw [run_get_bind, run_get_bind, same shared here there level]
    split
    · exact one.carried shared here there few level
    · exact other.carried shared here there few level

theorem advance : Keeps p limit Read.advance Read.advance where
  forward := goesForward_advance
  carried shared here there _ level := by
    rcases level.advance_or with ⟨more, fewer, level⟩ | lost
    · rintro _ _ ⟨⟩ -
      exact ⟨more, there.advance, Nat.le_of_lt fewer, rfl, level⟩
    · rintro _ _ ⟨⟩ within
      omega

theorem accept {kind : Kind} (inside : kind.isWithinType = true) :
    Keeps p limit (Read.accept kind) (Read.accept kind) :=
  test (fun _ _ _ level => level.isAt_eq inside) (advance.bind fun _ => pure _) (pure _)

theorem takeText : Keeps p limit Read.takeText Read.takeText where
  forward := goesForward_takeText
  carried shared here there few level := by
    cases level with
    | within beside =>
        rw [run_takeText beside.near, run_takeText beside.far]
        rintro _ _ ⟨⟩ -
        exact ⟨_, _, Nat.le_succ_of_le (List.length_dropWhile_le _ _), rfl, beside.advance⟩
    | ended near far padded padded' =>
        rcases (Prospect.Level.ended near far padded padded').advance_or with ⟨more, fewer, -⟩ | lost
        · cases fewer
        · rintro _ _ ⟨⟩ within
          omega

theorem expect (kind : Kind) : Keeps p limit (Read.expect kind) (Read.expect kind) where
  forward := goesForward_expect kind
  carried shared here there few level := by
    intro token after run within
    obtain ⟨stands, -, rfl⟩ := expect_eq_ok run
    cases level with
    | within beside =>
        have same : here.isAt kind = true := beq_iff_eq.mpr stands
        rw [isAt_of_rest beside.near, beq_iff_eq] at same
        rw [run_expect beside.near same] at run
        cases run
        exact ⟨_, _, Nat.le_succ_of_le (List.length_dropWhile_le _ _), run_expect beside.far same,
          beside.advance⟩
    | ended near far padded padded' =>
        rcases (Prospect.Level.ended near far padded padded').advance_or with ⟨more, fewer, -⟩ | lost
        · cases fewer
        · omega

end Keeps

/-! ## Lists -/

/-- A separator is found by both cursors or by none, or by the first one where it
leaves what is shared. -/
def Divides (p : Prospect) (separator : Read Bool) : Prop :=
  ∀ shared here there, p.Level shared here there →
    (separator here = .ok false here ∧ separator there = .ok false there) ∨
      (∃ more after after', more.length < shared.length ∧ separator here = .ok true after ∧
        separator there = .ok true after' ∧ p.Level more after after') ∨
      ∃ after, separator here = .ok true after ∧ after.rest.length < p.near.length

theorem divides_accept {kind : Kind} (inside : kind.isWithinType = true) :
    Divides p (accept kind) := by
  intro shared here there level
  have same := level.isAt_eq inside
  rw [run_accept, run_accept, ← same, Cursor.accept, Cursor.accept, ← same]
  cases here.isAt kind with
  | false => exact Or.inl ⟨rfl, rfl⟩
  | true =>
      rcases level.advance_or with ⟨more, fewer, behind⟩ | lost
      · exact Or.inr (Or.inl ⟨more, _, _, fewer, rfl, rfl, behind⟩)
      · exact Or.inr (Or.inr ⟨_, rfl, lost⟩)

theorem run_further_of_false {separator : Read Bool} {item : Read α} {cursor : Cursor}
    (stays : separator cursor = .ok false cursor) (bound : Nat) :
    further separator item bound cursor = .ok [] cursor := by
  cases bound with
  | zero => rfl
  | succ bound =>
      rw [further, run_bind_of_ok stays]
      rfl

theorem carried_further {separator : Read Bool} {item item' : Read α}
    (forward : GoesForward separator)
    (divides : Divides p separator) (items : Keeps p limit item item') {shared : List Token}
    {here there : Cursor}
    {bound bound' : Nat} (few : shared.length ≤ limit) (enough : shared.length < bound)
    (enough' : shared.length ≤ bound') (level : p.Level shared here there) :
    Carried p shared.length (further separator item bound here)
      (further separator item' bound' there) := by
  induction known :
    shared.length using Nat.strong_induction_on generalizing shared here there bound bound' with
  | _ length ih =>
    have onward (bound : Nat) : GoesForward (further separator item bound) := fun cursor =>
      crosses_further forward items.forward bound cursor
    rcases divides shared here there level with
      ⟨stays, stays'⟩ | ⟨more, middle, middle', fewer, moves, moves', behind⟩ |
      ⟨middle, moves, lost⟩
    · rw [run_further_of_false stays, run_further_of_false stays']
      rintro _ _ ⟨⟩ -
      exact ⟨shared, there, Nat.le_of_eq known, rfl, level⟩
    · obtain ⟨bound, rfl⟩ := Nat.exists_eq_add_one_of_ne_zero (n := bound) (by omega)
      obtain ⟨bound', rfl⟩ := Nat.exists_eq_add_one_of_ne_zero (n := bound') (by omega)
      rw [further, further, run_bind_of_ok moves, run_bind_of_ok moves', if_pos rfl, if_pos rfl]
      have others : Keeps p more.length (further separator item bound)
          (further separator item' bound') :=
        ⟨onward bound, fun _ _ _ le level =>
          ih _ (by omega) (by omega) (by omega) (by omega) level rfl⟩
      have items : Keeps p more.length item item' := items.mono (by omega)
      have list := items.bind fun first =>
        others.bind fun others => Keeps.pure (first :: others)
      exact (list.carried more middle middle' (Nat.le_refl _) behind).mono (by omega)
    · obtain ⟨bound, rfl⟩ := Nat.exists_eq_add_one_of_ne_zero (n := bound) (by omega)
      rw [further, run_bind_of_ok moves, if_pos rfl]
      refine carried_of_lost (goesForward_bind items.forward fun first => ?_) lost
      exact goesForward_bind (onward bound) fun others => goesForward_pure _

theorem Keeps.allFurther {separator : Read Bool} {item item' : Read α}
    (forward : GoesForward separator)
    (divides : Divides p separator) (items : Keeps p limit item item') :
    Keeps p limit (allFurther separator item) (allFurther separator item') where
  forward := goesForward_get_bind fun _ cursor => crosses_further forward items.forward _ cursor
  carried _ _ _ few level :=
    carried_further forward divides items few level.length_le.1 level.length_le.2 level

end Read

end DocComment
