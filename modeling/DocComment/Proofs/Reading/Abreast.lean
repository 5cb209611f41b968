import DocComment.Proofs.Reading.Taking
import Mathlib.Data.List.TakeWhile

/-!
# Reading side by side

The same reader runs on two cursors.  Both stand in front of the same tokens;
behind these and some padding a line ends for both, each in its own way
(`Cursor.Abreast`).  Readers see the same on both sides, with one exception: at
the end of the tokens an ampersand joins nothing, while in front of a line
break it does.  `Read.Agree` says how two runs compare, and leaves room for
that exception.
-/

namespace DocComment

open Token

/-- The kinds of token that may stand within a line other than padding. -/
def Token.Kind.isContent : Kind → Bool
  | .padding | .lineBreak | .closing => false
  | _ => true

namespace Token

/-- A line ends in front of the tokens. -/
def EndLine (tokens : List Token) : Prop :=
  ∀ token, tokens.head? = some token → token.kind = .lineBreak ∨ token.kind = .closing

/-- The tokens are padding. -/
def ArePadding (tokens : List Token) : Prop :=
  ∀ token ∈ tokens, token.kind = .padding ∧ ∀ c ∈ token.text, isPadding c = true

variable {padding back : List Token}

theorem isContent_of_endLine (ends : EndLine back) {token : Token}
    (head : back.head? = some token) :
    token.kind.isContent = false := by
  rcases ends token head with kind | kind
  · rw [kind]
    rfl
  · rw [kind]
    rfl

theorem kind_of_head? (soft : ArePadding padding) (ends : EndLine back) {token : Token}
    (head : (padding ++ back).head? = some token) : token.kind.isContent = false := by
  cases padding with
  | nil => exact isContent_of_endLine ends head
  | cons first padding =>
      cases head
      rw [(soft _ List.mem_cons_self).1]
      rfl

theorem exists_of_dropWhile {p : Kind → Bool} {tokens more : List Token} {stop : Token}
    (known : (tokens.dropWhile fun token => p token.kind) = stop :: more) :
    ∃ taken, tokens = taken ++ stop :: more ∧ (∀ token ∈ taken, p token.kind = true) ∧
      p stop.kind = false := by
  have stops := List.head?_dropWhile_not (fun token : Token => p token.kind) tokens
  rw [known] at stops
  refine ⟨tokens.takeWhile fun token => p token.kind, ?_, fun token mem => ?_, stops⟩
  · rw [← known, List.takeWhile_append_dropWhile]
  · exact List.mem_takeWhile_imp (p := fun token : Token => p token.kind) mem

theorem dropWhile_padding (soft : ArePadding padding) (ends : EndLine back) :
    (padding ++ back).dropWhile (fun token => token.kind == .padding) = back := by
  rw [List.dropWhile_append_of_pos fun token mem => beq_iff_eq.mpr (soft token mem).1]
  cases back with
  | nil => rfl
  | cons first back =>
      refine List.dropWhile_cons_of_neg fun pads => ?_
      rw [beq_iff_eq] at pads
      rcases ends first rfl with kind | kind
      · rw [kind] at pads
        cases pads
      · rw [kind] at pads
        cases pads

end Token

namespace Cursor

/-! ## Cursors side by side -/

theorem isAfterPadding_eq (cursor : Cursor) :
    cursor.isAfterPadding = cursor.passed.head?.any fun token => token.kind == .padding := by
  obtain ⟨passed, rest⟩ := cursor
  cases passed with
  | nil => rfl
  | cons first passed => rfl

theorem skipWhile_eq {p : Kind → Bool} {cursor : Cursor} {taken rest : List Token} {stop : Token}
    (stands : cursor.rest = taken ++ stop :: rest) (all : ∀ token ∈ taken, p token.kind = true)
    (stops : p stop.kind = false) :
    cursor.skipWhile p = ⟨taken.reverse ++ cursor.passed, stop :: rest⟩ := by
  rw [skipWhile, stands, List.takeWhile_append_of_pos all, List.dropWhile_append_of_pos all,
    List.takeWhile_cons, List.dropWhile_cons, stops]
  exact congrArg (fun tokens => (⟨List.reverse tokens ++ cursor.passed, stop :: rest⟩ : Cursor))
    (List.append_nil taken)

/-- Two cursors in front of the same tokens; behind them stands padding, and a line ends. -/
structure Sharing (back back' shared : List Token) (here there : Cursor) : Prop where
  near : ∃ padding, ArePadding padding ∧ here.rest = shared ++ (padding ++ back)
  far : ∃ padding, ArePadding padding ∧ there.rest = shared ++ (padding ++ back')
  firm : ∀ token, shared.getLast? = some token → token.kind ≠ .padding

/-- Two cursors in front of the same tokens and both behind padding or both not. -/
structure Beside (back back' shared : List Token) (here there : Cursor) : Prop
    extends Sharing back back' shared here there where
  padded : shared ≠ [] → here.isAfterPadding = there.isAfterPadding

/-- Two cursors in front of the same tokens and behind all padding that comes first. -/
structure Abreast (back back' shared : List Token) (here there : Cursor) : Prop
    extends Beside back back' shared here there where
  ended : shared = [] → here.rest = back ∧ there.rest = back'

/-- What stands behind the tokens that two cursors share. -/
structure Ends (back back' : List Token) : Prop where
  near : EndLine back
  far : EndLine back'
  proper : back' ≠ []

theorem isAt_eq_false_of_head? {cursor : Cursor} (other : ∀ token, cursor.rest.head? = some token →
    token.kind.isContent = false) {kind : Kind} (content : kind.isContent = true) :
    cursor.isAt kind = false := by
  cases stands : cursor.rest with
  | nil =>
      rw [isAt, kind?, stands]
      rfl
  | cons first tokens =>
      rw [isAt_of_rest stands]
      refine beq_eq_false_iff_ne.mpr fun same => ?_
      have dark := other first (by rw [stands]; rfl)
      rw [same, content] at dark
      cases dark

variable {back back' shared : List Token} {first : Token} {here there : Cursor}

theorem Abreast.of_rest (near : here.rest = back) (far : there.rest = back') :
    Abreast back back' [] here there where
  near := ⟨[], nofun, near⟩
  far := ⟨[], nofun, far⟩
  firm := nofun
  padded proper := absurd rfl proper
  ended _ := ⟨near, far⟩

namespace Sharing

theorem isAt_eq (ends : Ends back back') (sharing : Sharing back back' shared here there)
    (kind : Kind) (content : kind.isContent = true) : here.isAt kind = there.isAt kind := by
  obtain ⟨padding, soft, rest⟩ := sharing.near
  obtain ⟨padding', soft', rest'⟩ := sharing.far
  cases shared with
  | nil =>
      rw [isAt_eq_false_of_head? (rest ▸ fun _ => kind_of_head? soft ends.near) content,
        isAt_eq_false_of_head? (rest' ▸ fun _ => kind_of_head? soft' ends.far) content]
  | cons first shared => rw [isAt_of_rest rest, isAt_of_rest rest']

/-- Behind a shared token two cursors are beside each other. -/
theorem step (sharing : Sharing back back' (first :: shared) here there) :
    Beside back back' shared here.step there.step := by
  obtain ⟨padding, soft, rest⟩ := sharing.near
  obtain ⟨padding', soft', rest'⟩ := sharing.far
  have near : here.step = ⟨first :: here.passed, shared ++ (padding ++ back)⟩ := by
    rw [Cursor.step, rest]
    rfl
  have far : there.step = ⟨first :: there.passed, shared ++ (padding' ++ back')⟩ := by
    rw [Cursor.step, rest']
    rfl
  rw [near, far]
  refine { near := ⟨padding, soft, rfl⟩, far := ⟨padding', soft', rfl⟩, firm := ?firm, padded := ?padded }
  case firm =>
    intro token last
    refine sharing.firm token ?_
    rw [List.getLast?_cons, last]
    rfl
  case padded => exact fun _ => rfl

end Sharing

namespace Beside

theorem exists_content (beside : Beside back back' (first :: shared) here there) :
    ∃ token ∈ first :: shared, token.kind ≠ .padding :=
  ⟨_, List.getLast_mem (List.cons_ne_nil _ _),
    beside.firm _ (List.getLast?_eq_some_getLast (List.cons_ne_nil _ _))⟩

theorem nil_of_dropWhile (beside : Beside back back' (first :: shared) here there)
    (all : (shared.dropWhile fun token => token.kind == .padding) = []) : shared = [] := by
  by_contra proper
  have last := List.getLast?_eq_some_getLast proper
  have ends : (first :: shared).getLast? = some (shared.getLast proper) := by
    rw [List.getLast?_cons, last]
    rfl
  have pads := List.dropWhile_eq_nil_iff.mp all _ (List.getLast_mem proper)
  exact beside.firm _ ends (beq_iff_eq.mp pads)

/-- Two cursors that skip the same tokens and stop within them are beside each other. -/
theorem skipWhile {p : Kind → Bool} {taken more : List Token} {stop : Token}
    (beside : Beside back back' (taken ++ stop :: more) here there)
    (all : ∀ token ∈ taken, p token.kind = true) (stops : p stop.kind = false) :
    Beside back back' (stop :: more) (here.skipWhile p) (there.skipWhile p) := by
  obtain ⟨padding, soft, rest⟩ := beside.near
  obtain ⟨padding', soft', rest'⟩ := beside.far
  rw [List.append_assoc] at rest rest'
  rw [skipWhile_eq rest all stops, skipWhile_eq rest' all stops]
  refine { near := ⟨padding, soft, rfl⟩, far := ⟨padding', soft', rfl⟩, firm := ?firm, padded := ?padded }
  case firm =>
    intro token last
    refine beside.firm token ?_
    rw [List.getLast?_append, last]
    rfl
  case padded =>
    intro _
    rw [isAfterPadding_eq, isAfterPadding_eq]
    cases taken with
    | nil =>
        rw [← isAfterPadding_eq, ← isAfterPadding_eq]
        exact beside.padded (List.cons_ne_nil _ _)
    | cons first taken =>
        rw [List.reverse_cons, List.append_assoc, List.append_assoc, List.head?_append,
          List.head?_append]
        cases taken.reverse with
        | nil => rfl
        | cons last taken => rfl

/-- Behind all padding that comes first two cursors are abreast. -/
theorem skipPadding (ends : Ends back back') (beside : Beside back back' shared here there) :
    Abreast back back' (shared.dropWhile fun token => token.kind == .padding)
      here.skipPadding there.skipPadding := by
  cases known : shared.dropWhile fun token => token.kind == .padding with
  | nil =>
      cases shared with
      | nil =>
          obtain ⟨padding, soft, rest⟩ := beside.near
          obtain ⟨padding', soft', rest'⟩ := beside.far
          have near : here.skipPadding.rest = here.rest.dropWhile fun token =>
            token.kind == .padding := rfl
          have far : there.skipPadding.rest = there.rest.dropWhile fun token =>
            token.kind == .padding := rfl
          rw [rest, List.nil_append, dropWhile_padding soft ends.near] at near
          rw [rest', List.nil_append, dropWhile_padding soft' ends.far] at far
          exact Abreast.of_rest near far
      | cons first shared =>
          obtain ⟨token, mem, content⟩ := beside.exists_content
          exact absurd (beq_iff_eq.mp (List.dropWhile_eq_nil_iff.mp known token mem)) content
  | cons stop more =>
      obtain ⟨taken, rfl, all, stops⟩ := exists_of_dropWhile (p := (· == .padding)) known
      exact { toBeside := beside.skipWhile all stops, ended := nofun }

theorem advance (ends : Ends back back') (beside : Beside back back' (first :: shared) here there) :
    Abreast back back' (shared.dropWhile fun token => token.kind == .padding)
      here.advance there.advance :=
  beside.step.skipPadding ends

/-- Both cursors are at a token of a kind, which they share, or neither is. -/
theorem isAt_or (ends : Ends back back') (beside : Beside back back' shared here there)
    (kind : Kind) (content : kind.isContent = true) :
    (here.isAt kind = false ∧ there.isAt kind = false) ∨
      ∃ first more, shared = first :: more ∧ first.kind = kind ∧
        here.isAt kind = true ∧ there.isAt kind = true := by
  have same := beside.isAt_eq ends kind content
  cases known : here.isAt kind with
  | false => exact Or.inl ⟨rfl, same ▸ known⟩
  | true =>
      obtain ⟨padding, soft, rest⟩ := beside.near
      cases shared with
      | nil =>
          have apart :=
            isAt_eq_false_of_head? (rest ▸ fun _ => kind_of_head? soft ends.near) content
          rw [apart] at known
          cases known
      | cons first more =>
          have stands := known
          rw [isAt_of_rest rest, beq_iff_eq] at stands
          exact Or.inr ⟨first, more, rfl, stands, rfl, same ▸ known⟩

/-- At a token both cursors go on from abreast behind it, and share fewer tokens. -/
theorem advance_of_isAt (ends : Ends back back') (beside : Beside back back' shared here there)
    {kind : Kind} (content : kind.isContent = true) (stands : there.isAt kind = true) :
    ∃ more, more.length < shared.length ∧ Abreast back back' more here.advance there.advance := by
  rcases beside.isAt_or ends kind content with ⟨-, far⟩ | ⟨first, more, rfl, -⟩
  · rw [far] at stands
    cases stands
  · exact ⟨_, Nat.lt_succ_of_le (List.length_dropWhile_le _ _), beside.advance ends⟩

theorem length_le (beside : Beside back back' shared here there) :
    shared.length ≤ here.rest.length ∧ shared.length ≤ there.rest.length := by
  obtain ⟨padding, -, rest⟩ := beside.near
  obtain ⟨padding', -, rest'⟩ := beside.far
  rw [rest, rest', List.length_append, @List.length_append _ shared (padding' ++ back')]
  exact ⟨Nat.le_add_right _ _, Nat.le_add_right _ _⟩

theorem kind?_eq (beside : Beside back back' (first :: shared) here there) :
    here.kind? = some first.kind ∧ there.kind? = some first.kind := by
  obtain ⟨padding, -, rest⟩ := beside.near
  obtain ⟨padding', -, rest'⟩ := beside.far
  rw [kind?, kind?, rest, rest']
  exact ⟨rfl, rfl⟩

theorem nil_of_rest (beside : Beside back back' shared here there) (ended : here.rest = back) :
    shared = [] := by
  obtain ⟨padding, -, rest⟩ := beside.near
  have lengths := congrArg List.length (ended.symm.trans rest)
  rw [List.length_append, List.length_append] at lengths
  exact List.length_eq_zero_iff.mp (by omega)

/-- In front of a shared token two cursors are abreast. -/
theorem abreast (beside : Beside back back' (first :: shared) here there) :
    Abreast back back' (first :: shared) here there where
  toBeside := beside
  ended := nofun

end Beside

namespace Abreast

theorem accept (ends : Ends back back') (abreast : Abreast back back' shared here there)
    (kind : Kind) (content : kind.isContent = true) :
    ∃ more, more.length ≤ shared.length ∧
      Abreast back back' more (here.accept kind) (there.accept kind) := by
  rcases abreast.isAt_or ends kind content with ⟨near, far⟩ | ⟨first, more, rfl, -, near, far⟩
  · rw [accept_of_not_isAt near, accept_of_not_isAt far]
    exact ⟨shared, Nat.le_refl _, abreast⟩
  · rw [accept_of_isAt near, accept_of_isAt far]
    exact ⟨_, Nat.le_succ_of_le (List.length_dropWhile_le _ _), abreast.advance ends⟩

end Abreast

end Cursor

namespace Read

open Cursor

/-! ## Runs side by side -/

variable {α β : Type} {back back' : List Token} {p p' : α → Cursor → Prop} {q : β → Cursor → Prop}
  {limit : Nat}

/--
How two runs of a reader compare: both give the same value and stop abreast, or
both fail.  Where nothing follows the tokens of the first run, it may also give
a value and be stuck, and the second one fails.
-/
inductive Agree (back back' : List Token) (stuck : α → Cursor → Prop) (limit : Nat) :
    EStateM.Result Failure Cursor α → EStateM.Result Failure Cursor α → Prop
  | ok {value : α} {shared : List Token} {here there : Cursor} (within : shared.length ≤ limit)
      (abreast : Abreast back back' shared here there) :
      Agree back back' stuck limit (.ok value here) (.ok value there)
  | error (near far : Failure) (here there : Cursor) :
      Agree back back' stuck limit (.error near here) (.error far there)
  | stuck {value : α} {here : Cursor} (far : Failure) (there : Cursor) (empty : back = [])
      (stops : stuck value here) : Agree back back' stuck limit (.ok value here) (.error far there)

/-- What holds of the cursor behind a run, if the run gives a value. -/
def Leaves (p : α → Cursor → Prop) : EStateM.Result Failure Cursor α → Prop
  | .ok value after => p value after
  | .error _ _ => True

/-- Two readers agree wherever two cursors share no more tokens than a limit. -/
def Alike (back back' : List Token) (stuck : α → Cursor → Prop) (limit : Nat) (read read' : Read α) : Prop :=
  ∀ shared here there, shared.length ≤ limit → Abreast back back' shared here there →
    Agree back back' stuck shared.length (read here) (read' there)

namespace Agree

theorem mono {near far : EStateM.Result Failure Cursor α}
    (agree : Agree back back' p limit near far)
    {more : Nat} (le : limit ≤ more) (weaker : ∀ value cursor, p value cursor → p' value cursor) :
    Agree back back' p' more near far := by
  cases agree with
  | ok within abreast => exact .ok (Nat.le_trans within le) abreast
  | error => exact .error _ _ _ _
  | stuck _ _ empty stops => exact .stuck _ _ empty (weaker _ _ stops)

/-- A sequence agrees when its parts do, and what was stuck stays so. -/
theorem bind {read read' : Read α} {next next' : α → Read β} {here there : Cursor}
    (front : Agree back back' p limit (read here) (read' there))
    (behind : ∀ value shared here there, shared.length ≤ limit →
      Abreast back back' shared here there →
        Agree back back' q limit (next value here) (next' value there))
    (lost : back = [] → ∀ value here, p value here → Leaves q (next value here)) :
    Agree back back' q limit ((read >>= next) here) ((read' >>= next') there) := by
  cases near : read here with
  | error failure after =>
      rw [run_bind_of_error near]
      cases far : read' there with
      | error failure' after' =>
          rw [run_bind_of_error far]
          exact .error _ _ _ _
      | ok value after' =>
          rw [near, far] at front
          cases front
  | ok value after =>
      rw [run_bind_of_ok near]
      cases far : read' there with
      | ok value' after' =>
          rw [run_bind_of_ok far]
          rw [near, far] at front
          cases front with
          | ok within abreast => exact behind value _ after after' within abreast
      | error failure' after' =>
          rw [run_bind_of_error far]
          rw [near, far] at front
          cases front with
          | stuck _ _ empty stops =>
              have leaves := lost empty value after stops
              cases last : next value after with
              | ok result ended =>
                  rw [last] at leaves
                  exact .stuck _ _ empty leaves
              | error => exact .error _ _ _ _

/-- A sequence agrees when its parts do and the first one is never stuck. -/
theorem bind_of_sure {read read' : Read α} {next next' : α → Read β}
    {here there : Cursor} {few : Nat}
    (front : Agree back back' (fun _ _ => False) few (read here) (read' there)) (le : few ≤ limit)
    (behind : ∀ value shared here there, shared.length ≤ limit →
      Abreast back back' shared here there →
        Agree back back' q limit (next value here) (next' value there)) :
    Agree back back' q limit ((read >>= next) here) ((read' >>= next') there) :=
  (front.mono le fun _ _ => id).bind behind fun _ _ _ stuck => stuck.elim

end Agree

variable {shared : List Token} {first : Token} {here there : Cursor} {kind : Kind}

theorem agree_accept {p : Bool → Cursor → Prop} (ends : Ends back back')
    (abreast : Abreast back back' shared here there) (content : kind.isContent = true) :
    Agree back back' p shared.length (accept kind here) (accept kind there) := by
  obtain ⟨more, within, behind⟩ := abreast.accept ends kind content
  rw [run_accept, run_accept, abreast.isAt_eq ends kind content]
  exact .ok within behind

theorem run_failExpecting (kind : Kind) (cursor : Cursor) :
    ∃ failure, (failExpecting kind : Read α) cursor = .error failure cursor :=
  ⟨_, rfl⟩

theorem run_expect_of_not_isAt {cursor : Cursor} (other : cursor.isAt kind = false) :
    ∃ failure, expect kind cursor = .error failure cursor := by
  rw [expect, run_get_bind]
  cases stands : cursor.rest with
  | nil => exact run_failExpecting kind cursor
  | cons first rest =>
      rw [isAt_of_rest stands, beq_eq_false_iff_ne] at other
      dsimp only
      rw [if_neg other]
      exact run_failExpecting kind cursor

theorem agree_expect {p : Token → Cursor → Prop} (ends : Ends back back')
    (abreast : Abreast back back' shared here there) (content : kind.isContent = true) :
    Agree back back' p shared.length (expect kind here) (expect kind there) := by
  rcases abreast.isAt_or ends kind content with ⟨near, far⟩ | ⟨first, more, rfl, same, -, -⟩
  · obtain ⟨failure, run⟩ := run_expect_of_not_isAt near
    obtain ⟨failure', run'⟩ := run_expect_of_not_isAt far
    rw [run, run']
    exact .error _ _ _ _
  · obtain ⟨padding, -, rest⟩ := abreast.near
    obtain ⟨padding', -, rest'⟩ := abreast.far
    rw [run_expect rest same, run_expect rest' same]
    exact .ok (Nat.le_succ_of_le (List.length_dropWhile_le _ _)) (abreast.advance ends)

/-- The text of a shared token is taken on both sides. -/
theorem agree_takeText {p : Text → Cursor → Prop} (ends : Ends back back')
    (abreast : Abreast back back' (first :: shared) here there) :
    Agree back back' p shared.length (takeText here) (takeText there) := by
  obtain ⟨padding, -, rest⟩ := abreast.near
  obtain ⟨padding', -, rest'⟩ := abreast.far
  rw [run_takeText rest, run_takeText rest']
  exact .ok (List.length_dropWhile_le _ _) (abreast.advance ends)

theorem run_further_of_not_isAt {cursor : Cursor} (item : Read α) (bound : Nat)
    (other : cursor.isAt kind = false) :
    further (accept kind) item bound cursor = .ok [] cursor := by
  cases bound with
  | zero => rfl
  | succ bound =>
      rw [further, run_bind_of_ok (run_accept_of_not_isAt other)]
      rfl

theorem run_allFurther_of_not_isAt {cursor : Cursor} (item : Read α)
    (other : cursor.isAt kind = false) :
    allFurther (accept kind) item cursor = .ok [] cursor :=
  run_further_of_not_isAt item _ other

/-- Further items agree when single ones do, and what was stuck is at no separator. -/
theorem agree_further {item item' : Read α} {p : Cursor → Prop} (ends : Ends back back')
    (content : kind.isContent = true) (passes : ∀ cursor, p cursor → cursor.isAt kind = false)
    (items : Alike back back' (fun _ => p) limit item item') {bound bound' : Nat}
    (within : shared.length ≤ limit)
    (enough : shared.length ≤ bound) (enough' : shared.length ≤ bound')
    (abreast : Abreast back back' shared here there) :
    Agree back back' (fun _ => p) shared.length (further (accept kind) item bound here)
      (further (accept kind) item' bound' there) := by
  induction known : shared.length using Nat.strong_induction_on
    generalizing shared here there bound bound' with
  | _ length ih =>
    rcases abreast.isAt_or ends kind content with ⟨near, far⟩ | ⟨first, more, rfl, same, near, far⟩
    · rw [run_further_of_not_isAt item bound near, run_further_of_not_isAt item' bound' far]
      exact .ok (Nat.le_of_eq known) abreast
    · obtain ⟨padding, -, rest⟩ := abreast.near
      obtain ⟨padding', -, rest'⟩ := abreast.far
      obtain ⟨bound, rfl⟩ :=
        Nat.exists_eq_add_one_of_ne_zero (Nat.ne_of_gt (Nat.lt_of_lt_of_le (Nat.succ_pos _) enough))
      obtain ⟨bound', rfl⟩ :=
        Nat.exists_eq_add_one_of_ne_zero
          (Nat.ne_of_gt (Nat.lt_of_lt_of_le (Nat.succ_pos _) enough'))
      rw [further, further, run_bind_of_ok (run_accept_of_rest rest same),
        run_bind_of_ok (run_accept_of_rest rest' same)]
      have shorter : (more.dropWhile fun token => token.kind == .padding).length < length := by
        rw [← known]
        exact Nat.lt_succ_of_le (List.length_dropWhile_le _ _)
      have behind := abreast.advance ends
      refine ((items _ _ _ (by omega) behind).bind ?_ ?_).mono (Nat.le_of_lt shorter) fun _ _ => id
      · intro value shared here there short abreast
        refine ((ih _ (by omega) (by omega) (by omega) (by omega) abreast rfl).bind ?_ ?_).mono short
          fun _ _ => id
        · exact fun others shared here there le abreast => .ok le abreast
        · exact fun _ _ _ stops => stops
      · intro _ value here stops
        rw [run_bind_of_ok (run_further_of_not_isAt item bound (passes here stops))]
        exact stops

end Read

end DocComment
