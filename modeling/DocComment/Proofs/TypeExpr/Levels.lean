import DocComment.Proofs.TypeExpr.Canonical

/-!
# Written types at the levels of the grammar

A type is read back from its written form, whatever text follows that does not
go on with it.  The statement is made three times, for the three levels of the
grammar: an atom, an atom with brackets, and a whole type.  One lemma for each
form derives it from the same statement about the parts.
-/

namespace DocComment

open Token

namespace TypeExpr

namespace Grammar

/-! ## What may follow -/

/-- The characters with which a text goes on behind an atom. -/
def endsAtom (c : Char) : Bool :=
  isPadding c || c == '\n' || [',', '>', ')', '}', '|', '&', '['].contains c

/-- The text starts with nothing that an atom could take up. -/
def EndsAtom (text : Text) : Prop :=
  ∀ c, text.head? = some c → endsAtom c = true

/-- The text starts with nothing that an atom with brackets could take up. -/
def EndsPostfix (text : Text) : Prop :=
  ∀ c, text.head? = some c → endsAtom c = true ∧ c ≠ '['

/-- The text starts with nothing that a type could take up. -/
structure EndsType (text : Text) : Prop where
  endsPostfix : EndsPostfix text
  bar : ∀ cursor : Cursor, cursor.rest = scan (text.dropWhile isPadding) → cursor.isAt .bar = false
  ampersand : ∀ cursor : Cursor, cursor.rest = scan (text.dropWhile isPadding) →
    isAtIntersection cursor = false

theorem EndsPostfix.endsAtom {text : Text} (ends : EndsPostfix text) : EndsAtom text :=
  fun c head => (ends c head).1

theorem mem_of_endsAtom {c : Char} (ends : endsAtom c = true) :
    c ∈ [' ', '\t', '\n', ',', '>', ')', '}', '|', '&', '['] := by
  simpa [endsAtom, isPadding, or_assoc] using ends

theorem EndsAtom.endsWord {text : Text} (ends : EndsAtom text) : text.EndsWord := by
  intro c head
  have mem := mem_of_endsAtom (ends c head)
  simp only [List.mem_cons, List.not_mem_nil, or_false] at mem
  rcases mem with rfl | rfl | rfl | rfl | rfl | rfl | rfl | rfl | rfl | rfl <;> decide

/-- No bracket that a name could open stands behind an atom. -/
theorem EndsAtom.isAt_eq_false {text : Text} (ends : EndsAtom text) {cursor : Cursor}
    (stands : cursor.rest = scan text) :
    cursor.isAt .angleOpen = false ∧ cursor.isAt .roundOpen = false ∧
      cursor.isAt .curlyOpen = false := by
  cases text with
  | nil => rw [Cursor.isAt, Cursor.isAt, Cursor.isAt, Cursor.kind?, stands]; exact ⟨rfl, rfl, rfl⟩
  | cons c rest =>
      rw [Cursor.isAt, Cursor.isAt, Cursor.isAt, Cursor.kind?_of_scan stands]
      have mem := mem_of_endsAtom (ends c rfl)
      simp only [List.mem_cons, List.not_mem_nil, or_false] at mem
      rcases mem with rfl | rfl | rfl | rfl | rfl | rfl | rfl | rfl | rfl | rfl <;>
        exact ⟨rfl, rfl, rfl⟩

/-! ## The three levels -/

/-- The type is read back as an atom. -/
def TakenAsAtom (type : TypeExpr) : Prop :=
  ∀ depth rest, EndsAtom rest → (type.isCompound = true → EndsPostfix rest) →
    Read.Takes depth (atom depth) type type.render rest

/-- Reading an atom and brackets comes to the brackets that follow the type. -/
def TakenWithBrackets (depth : Nat) (type : TypeExpr) (written rest : Text) : Prop :=
  ∀ cursor : Cursor, cursor.rest = scan (written ++ rest) → cursor.rest.length ≤ depth →
    ∃ after bound, postfixType (atom depth) cursor = brackets bound type after ∧
      cursor.Reaches rest after ∧ after.rest.length ≤ bound

/-- The type is read back as an atom with brackets. -/
def TakenAsPostfix (type : TypeExpr) : Prop :=
  ∀ depth rest, EndsAtom rest → (type.isCompound = true → EndsPostfix rest) →
    TakenWithBrackets depth type type.render rest

/-- The type is read back as a whole. -/
def TakenAsType (type : TypeExpr) : Prop :=
  ∀ depth rest, EndsType rest → Read.Takes depth (typeWith (atom depth)) type type.render rest

/-! ## Brackets -/

theorem takenWithBrackets_of_atom {depth : Nat} {type : TypeExpr} {written rest : Text}
    (takes : Read.Takes depth (atom depth) type written rest) :
    TakenWithBrackets depth type written rest := by
  intro cursor stands within
  obtain ⟨after, run, reaches⟩ := takes cursor stands within
  refine ⟨after, after.rest.length, ?_, reaches, Nat.le_refl _⟩
  rw [postfixType, Read.run_bind_of_ok run]
  rfl

theorem takenWithBrackets_array {depth : Nat} {element : TypeExpr} {written rest : Text}
    (taken : TakenWithBrackets depth element written ('[' :: ']' :: rest)) :
    TakenWithBrackets depth (.array element) (written ++ ['[', ']']) rest := by
  intro cursor stands within
  rw [List.append_assoc] at stands
  obtain ⟨middle, bound, run, reaches, enough⟩ := taken cursor stands within
  have opens : middle.rest = ⟨.squareOpen, ['[']⟩ :: ⟨.squareClose, [']']⟩ :: scan rest := by
    rw [reaches.rest_eq (List.dropWhile_cons_of_neg (by decide)), scan_mark rfl, scan_mark rfl]
  have here : isAtBrackets middle = true := by
    rw [isAtBrackets, Cursor.isAt_of_rest opens, reaches.padded, Cursor.nextKind?, opens]
    rfl
  have closes : middle.step.rest = ⟨.squareClose, [']']⟩ :: scan rest := Cursor.rest_step opens
  have reached := Cursor.reaches_advance closes (by decide)
  have shorter := reached.shorter
  have lengths : middle.rest.length = middle.step.rest.length + 1 := by rw [opens, closes]; rfl
  cases bound with
  | zero => omega
  | succ bound =>
      refine ⟨middle.step.advance, bound, ?_, reached.of_le ?_, by omega⟩
      · rw [run, brackets, Read.run_get_bind, here, if_pos rfl]
        rfl
      · have := reaches.shorter
        omega

theorem EndsPostfix.isAtBrackets_eq_false {before after : Cursor} {text : Text}
    (ends : EndsPostfix text) (reaches : before.Reaches text after) :
    isAtBrackets after = false := by
  rw [isAtBrackets, reaches.padded]
  cases text with
  | nil =>
      have none : after.rest = [] := reaches.rest
      rw [Cursor.isAt, Cursor.kind?, none]
      rfl
  | cons c rest =>
      obtain ⟨inside, other⟩ := ends c rfl
      cases pads : isPadding c with
      | true =>
        rw [List.head?_cons, Option.any_some, pads, Bool.not_true, Bool.and_false, Bool.false_and]
      | false =>
          have stands := reaches.rest_eq (List.dropWhile_cons_of_neg (by simp [pads]))
          have mem := mem_of_endsAtom inside
          rw [Cursor.isAt, Cursor.kind?_of_scan stands]
          simp only [List.mem_cons, List.not_mem_nil, or_false] at mem
          rcases mem with rfl | rfl | rfl | rfl | rfl | rfl | rfl | rfl | rfl | rfl <;>
            first | rfl | exact absurd rfl other

/-- Where no brackets follow, the type is complete. -/
theorem TakenWithBrackets.takes {depth : Nat} {type : TypeExpr} {written rest : Text}
    (taken : TakenWithBrackets depth type written rest) (ends : EndsPostfix rest) :
    Read.Takes depth (postfixType (atom depth)) type written rest := by
  intro cursor stands within
  obtain ⟨after, bound, run, reaches, _⟩ := taken cursor stands within
  have none := ends.isAtBrackets_eq_false reaches
  refine ⟨after, ?_, reaches⟩
  rw [run]
  cases bound with
  | zero => rfl
  | succ bound =>
      rw [brackets, Read.run_get_bind, none, if_neg Bool.false_ne_true]
      rfl

theorem TakenAsPostfix.takes {type : TypeExpr} (taken : TakenAsPostfix type) (depth : Nat)
    {rest : Text}
    (ends : EndsPostfix rest) : Read.Takes depth (postfixType (atom depth)) type type.render rest :=
  (taken depth rest ends.endsAtom fun _ => ends).takes ends

/-! ## Unions and intersections -/

theorem TakenAsPostfix.type {type : TypeExpr} (taken : TakenAsPostfix type) : TakenAsType type := by
  intro depth rest ends cursor stands within
  obtain ⟨after, run, reaches⟩ := taken.takes depth ends.endsPostfix cursor stands within
  refine ⟨after, ?_, reaches⟩
  rw [typeWith, Read.run_bind_of_ok run, Read.run_get_bind, ends.bar after reaches.rest,
    if_neg Bool.false_ne_true, Read.run_get_bind, ends.ampersand after reaches.rest,
    if_neg Bool.false_ne_true]
  rfl

theorem renderAll_eq (types : List TypeExpr) : renderAll types = types.map render := by
  induction types with
  | nil => rfl
  | cons type types ih => rw [renderAll, ih, List.map_cons]

theorem join_renderAll (separator : Text) (first : TypeExpr) (others : List TypeExpr) :
    Text.join separator (renderAll (first :: others)) =
      first.render ++ others.flatMap fun type => separator ++ type.render := by
  rw [renderAll, Text.join_cons, renderAll_eq, List.flatMap_map]

theorem endsPostfix_mark {c : Char} (ends : endsAtom c = true) (other : c ≠ '[') (rest : Text) :
    EndsPostfix (c :: rest) := by
  rintro d ⟨⟩
  exact ⟨ends, other⟩

section Joined

variable {first second : TypeExpr} {others : List TypeExpr}
  (opens : ∀ member ∈ second :: others, OpensType member.render)
  (taken : ∀ member ∈ first :: second :: others, TakenAsPostfix member)
include opens taken

theorem takenAsType_union : TakenAsType (.union (first :: second :: others)) := by
  intro depth rest ends cursor stands within
  obtain ⟨leading, further⟩ := List.forall_mem_cons.mp taken
  have listed : Read.Listed depth (Read.accept .bar) (postfixType (atom depth))
      ['|'] render EndsPostfix
      (second :: others) rest := {
    firm := fun _ => List.dropWhile_cons_of_neg (by decide)
    separates := fun member mem text =>
      Read.separates_accept rfl (by simp) ((opens member mem).dropWhile text)
    takes := fun member mem text follows => (further member mem).takes depth follows
    marked := fun _ => endsPostfix_mark rfl (by decide) _
    ends := ends.endsPostfix
    stops := fun cursor stands => Read.run_accept_of_not_isAt (ends.bar cursor stands) }
  rw [render, join_renderAll, List.append_assoc] at stands
  obtain ⟨middle, run, reaches⟩ := leading.takes depth listed.follows cursor stands within
  have here : middle.isAt .bar = true := by
    have marked := reaches.rest
    rw [List.flatMap_cons, List.append_assoc, List.append_assoc, listed.firm] at marked
    rw [Cursor.isAt, Cursor.kind?_of_scan marked]
    rfl
  have shorter := reaches.shorter
  obtain ⟨after, ran, reached⟩ := listed.run_allFurther reaches (by omega)
  refine ⟨after, ?_, reached⟩
  rw [typeWith, Read.run_bind_of_ok run, Read.run_get_bind, here, if_pos rfl,
    Read.run_bind_of_ok ran]
  rfl

/-- In front of a type that does not begin with a dollar sign an ampersand joins. -/
theorem takenAsType_intersection
    (dollar : ∀ member ∈ second :: others, member.render.head? ≠ some '$') :
    TakenAsType (.intersection (first :: second :: others)) := by
  intro depth rest ends cursor stands within
  obtain ⟨leading, further⟩ := List.forall_mem_cons.mp taken
  have joins (member) (mem : member ∈ second :: others) (text : Text) (cursor : Cursor)
      (stands : cursor.rest = scan (['&'] ++ (member.render ++ text))) :
      isAtIntersection cursor = true ∧ cursor.Reaches (member.render ++ text) cursor.advance := by
    have marked : cursor.rest = ⟨.ampersand, ['&']⟩ :: scan (member.render ++ text) :=
      stands.trans (scan_mark rfl _)
    have reached := Cursor.reaches_advance marked (by decide)
    obtain ⟨kind, here, opening, named⟩ :=
      (opens member mem).exists_kind? text (reached.rest_eq ((opens member mem).dropWhile text))
    refine ⟨?_, reached⟩
    rw [isAtIntersection, Cursor.isAt_of_rest marked, here]
    cases kind <;> first | rfl | exact absurd (named rfl) (dollar member mem) | cases opening
  have listed : Read.Listed depth acceptIntersection (postfixType (atom depth))
      ['&'] render EndsPostfix
      (second :: others) rest := {
    firm := fun _ => List.dropWhile_cons_of_neg (by decide)
    separates := fun member mem text cursor stands => by
      obtain ⟨here, reached⟩ := joins member mem text cursor stands
      refine ⟨cursor.advance, ?_, reached.rest_eq ((opens member mem).dropWhile text),
        reached.shorter⟩
      rw [acceptIntersection, Read.run_get_bind, here, if_pos rfl]
      rfl
    takes := fun member mem text follows => (further member mem).takes depth follows
    marked := fun _ => endsPostfix_mark rfl (by decide) _
    ends := ends.endsPostfix
    stops := fun cursor stands => by
      rw [acceptIntersection, Read.run_get_bind, ends.ampersand cursor stands,
        if_neg Bool.false_ne_true]
      rfl }
  rw [render, join_renderAll, List.append_assoc] at stands
  obtain ⟨middle, run, reaches⟩ := leading.takes depth listed.follows cursor stands within
  have marked := reaches.rest
  rw [List.flatMap_cons, List.append_assoc, List.append_assoc, listed.firm] at marked
  have bar : middle.isAt .bar = false := by
    rw [Cursor.isAt, Cursor.kind?_of_scan marked]
    rfl
  have here := (joins second List.mem_cons_self _ middle marked).1
  have shorter := reaches.shorter
  obtain ⟨after, ran, reached⟩ := listed.run_allFurther reaches (by omega)
  refine ⟨after, ?_, reached⟩
  rw [typeWith, Read.run_bind_of_ok run, Read.run_get_bind, bar, if_neg Bool.false_ne_true,
    Read.run_get_bind, here, if_pos rfl, Read.run_bind_of_ok ran]
  rfl

end Joined

/-! ## Atoms -/

variable {depth : Nat} {cursor : Cursor}

theorem run_atom_name (here : cursor.kind? = some .name) :
    atom (depth + 1) cursor = namedType (atom depth) cursor := by
  rw [atom, Read.run_get_bind, here]

theorem run_atom_question (here : cursor.kind? = some .question) :
    atom (depth + 1) cursor =
      (atom depth >>= fun inner => pure (.nullable inner)) cursor.advance := by
  rw [atom, Read.run_get_bind, here]
  rfl

theorem run_atom_round (here : cursor.kind? = some .roundOpen) :
    atom (depth + 1) cursor = (do
      let inner ← typeWith (atom depth)
      let _ ← Read.expect .roundClose
      return inner : Read TypeExpr) cursor.advance := by
  rw [atom, Read.run_get_bind, here]
  rfl

theorem run_atom_constant (here : cursor.kind? = some .quoted ∨ cursor.kind? = some .number) :
    atom (depth + 1) cursor = .ok (.constant cursor.text) cursor.advance := by
  rw [atom, Read.run_get_bind]
  rcases here with here | here <;> rw [here] <;> rfl

theorem run_atom_self (here : cursor.kind? = some .varName) (self : cursor.text = selfVariable) :
    atom (depth + 1) cursor = .ok (.named cursor.text) cursor.advance := by
  rw [atom, Read.run_get_bind, here]
  dsimp only
  rw [if_pos self]
  rfl

/-- An atom takes a token at least, so the depth that it is read to is never nought. -/
theorem takes_atom {type : TypeExpr} {written rest : Text} (proper : written ≠ [])
    (takes : ∀ depth (cursor : Cursor), cursor.rest = scan (written ++ rest) →
      cursor.rest.length ≤ depth + 1 →
        ∃ after, atom (depth + 1) cursor = .ok type after ∧ cursor.Reaches rest after) :
    Read.Takes depth (atom depth) type written rest := by
  intro cursor stands within
  cases depth with
  | zero =>
      have none := List.eq_nil_of_length_eq_zero (Nat.le_zero.mp within)
      have whole := textOf_scan (written ++ rest)
      rw [← stands, none, textOf_nil, eq_comm, List.append_eq_nil_iff] at whole
      exact absurd whole.1 proper
  | succ depth => exact takes depth cursor stands within

/-- A cursor stands at a name with a mark right behind it, and a text stands behind the mark. -/
structure MarkedName (cursor : Cursor) (base : Text) (mark : Kind) (more : Text) : Prop where
  here : cursor.kind? = some .name
  named : cursor.text = base
  marked : ∀ kind, cursor.step.isAt kind = (mark == kind)
  reached : cursor.step.Reaches more cursor.step.advance
  lengths : cursor.rest.length = cursor.step.rest.length + 1

theorem markedName_of_scan {base more : Text} {c : Char} {mark : Kind}
    (sole : isSole .name base = true)
    (marks : markKind? c = some mark) (stands : cursor.rest = scan (base ++ c :: more)) :
    MarkedName cursor base mark more := by
  rw [scan_append_of_isSole sole rfl (endsWord_of_mark marks _)] at stands
  have stepped := Cursor.rest_step stands
  rw [scan_mark marks] at stepped
  refine ⟨by rw [Cursor.kind?, stands]; rfl, Cursor.text_of_rest stands,
    Cursor.isAt_of_rest stepped,
    Cursor.reaches_advance stepped ?_, by rw [stands, stepped, scan_mark marks, List.length_cons]⟩
  rintro rfl
  cases Kind.isMark_of_markKind? marks

theorem takenAsAtom_of_isSole {text : Text} (sole : isSole .name text = true) :
    TakenAsAtom (.named text) := by
  intro depth rest ends _
  rw [render]
  refine takes_atom (startsWith_of_isSole sole rfl).proper fun depth cursor stands _ => ?_
  rw [scan_append_of_isSole sole rfl ends.endsWord] at stands
  have here : cursor.kind? = some .name := by rw [Cursor.kind?, stands]; rfl
  obtain ⟨angle, round, curly⟩ := ends.isAt_eq_false (Cursor.rest_step stands)
  refine ⟨cursor.step.skipPadding, ?_, Cursor.reaches_skipPadding stands (by simp)⟩
  rw [run_atom_name here, namedType, Read.run_get_bind, Cursor.text_of_rest stands,
    Read.run_bind_of_ok (Read.run_step cursor), Read.run_get_bind, angle, if_neg Bool.false_ne_true,
    round, Bool.false_and,
    if_neg Bool.false_ne_true, curly, Bool.false_and, if_neg Bool.false_ne_true]
  rfl

theorem takenAsAtom_self : TakenAsAtom (.named selfVariable) := by
  intro depth rest ends _
  rw [render]
  refine takes_atom (List.cons_ne_nil _ _) fun depth cursor stands _ => ?_
  have sole : isSole .varName selfVariable = true := by decide
  rw [scan_append_of_isSole sole rfl ends.endsWord] at stands
  have here : cursor.kind? = some .varName := by rw [Cursor.kind?, stands]; rfl
  have self := Cursor.text_of_rest stands
  refine ⟨cursor.advance, ?_, Cursor.reaches_advance stands (by simp)⟩
  rw [run_atom_self here self, self]

theorem takenAsAtom_constant {text : Text} {kind : Kind} (sole : isSole kind text = true)
    (literal : kind = .quoted ∨ kind = .number) : TakenAsAtom (.constant text) := by
  intro depth rest ends _
  have word : kind.isWord = true := by rcases literal with rfl | rfl <;> rfl
  rw [render]
  refine takes_atom (startsWith_of_isSole sole word).proper fun depth cursor stands _ => ?_
  rw [scan_append_of_isSole sole word ends.endsWord] at stands
  have here : cursor.kind? = some kind := by rw [Cursor.kind?, stands]; rfl
  refine ⟨cursor.advance, ?_,
    Cursor.reaches_advance stands (by rcases literal with rfl | rfl <;> simp)⟩
  rw [run_atom_constant (literal.imp (fun same => same ▸ here) fun same => same ▸ here),
    Cursor.text_of_rest stands]

theorem takenAsAtom_nullable {inner : TypeExpr} (opens : OpensType inner.render)
    (taken : TakenAsAtom inner) : TakenAsAtom (.nullable inner) := by
  intro depth rest ends compound
  have final := compound rfl
  rw [render]
  refine takes_atom (List.cons_ne_nil _ _) fun depth cursor stands within => ?_
  have marked : cursor.rest = ⟨.question, ['?']⟩ :: scan (inner.render ++ rest) :=
    stands.trans (scan_mark rfl _)
  have here : cursor.kind? = some .question := by rw [Cursor.kind?, marked]; rfl
  have reached := Cursor.reaches_advance marked (by simp)
  have shorter := reached.shorter
  obtain ⟨after, run, reaches⟩ := taken depth rest ends (fun _ => final) cursor.advance
    (reached.rest_eq (opens.dropWhile rest)) (by omega)
  refine ⟨after, ?_, reached.trans reaches⟩
  rw [run_atom_question here, Read.run_bind_of_ok run]
  rfl

theorem EndsPostfix.endsType {text : Text} (ends : EndsPostfix text)
    (bar : firstKind? (text.dropWhile isPadding) ≠ some .bar)
    (ampersand : firstKind? (text.dropWhile isPadding) ≠ some .ampersand) : EndsType text where
  endsPostfix := ends
  bar cursor stands := by
    rw [Cursor.isAt, Cursor.kind?_of_rest stands]
    exact beq_eq_false_iff_ne.mpr bar
  ampersand cursor stands := by
    rw [isAtIntersection, Cursor.isAt, Cursor.kind?_of_rest stands,
      beq_eq_false_iff_ne.mpr ampersand, Bool.false_and]

/-- A closing bracket or a comma ends a type. -/
theorem endsType_mark {c : Char} {kind : Kind} (marks : markKind? c = some kind)
    (ends : endsAtom c = true) (square : c ≠ '[') (bar : kind ≠ .bar)
    (ampersand : kind ≠ .ampersand) (rest : Text) : EndsType (c :: rest) := by
  have first : firstKind? ((c :: rest).dropWhile isPadding) = some kind := by
    rw [List.dropWhile_cons_of_neg (by simp [isPadding_of_mark marks]), firstKind?_cons,
      piece_mark marks]
  refine (endsPostfix_mark ends square rest).endsType ?_ ?_ <;> rw [first] <;>
    simpa only [ne_eq, Option.some.injEq]

/-- A space ends a type unless a bar or an ampersand follows. -/
theorem endsType_space {text : Text} {kind : Kind} (first : firstKind? text = some kind)
    (padding : kind ≠ .padding) (bar : kind ≠ .bar) (ampersand : kind ≠ .ampersand) :
    EndsType (' ' :: text) := by
  have skipped : firstKind? ((' ' :: text).dropWhile isPadding) = some kind := by
    rw [List.dropWhile_cons_of_pos rfl,
      dropWhile_of_firstKind? (by simpa [first] using padding), first]
  refine (endsPostfix_mark rfl (by decide) text).endsType ?_ ?_ <;> rw [skipped] <;>
    simpa only [ne_eq, Option.some.injEq]

/-- A type in parentheses is read back with anything behind it. -/
theorem takes_parenthesised {type : TypeExpr} (opens : OpensType type.render)
    (taken : TakenAsType type) (depth : Nat) (rest : Text) :
    Read.Takes depth (atom depth) type ('(' :: type.render ++ [')']) rest := by
  refine takes_atom (List.cons_ne_nil _ _) fun depth cursor stands within => ?_
  have marked : cursor.rest = ⟨.roundOpen, ['(']⟩ :: scan (type.render ++ ')' :: rest) := by
    rw [stands, ← scan_mark rfl]
    simp
  have here : cursor.kind? = some .roundOpen := by rw [Cursor.kind?, marked]; rfl
  have reached := Cursor.reaches_advance marked (by simp)
  have shorter := reached.shorter
  obtain ⟨middle, run, reaches⟩ := taken depth (')' :: rest)
    (endsType_mark rfl rfl (by decide) (by decide) (by decide) rest) cursor.advance
    (reached.rest_eq (opens.dropWhile _)) (by omega)
  have closes : middle.rest = ⟨.roundClose, [')']⟩ :: scan rest := by
    rw [reaches.rest_eq (List.dropWhile_cons_of_neg (by decide)), scan_mark rfl]
  refine ⟨middle.advance, ?_,
    (reached.trans reaches).trans (Cursor.reaches_advance closes (by simp))⟩
  rw [run_atom_round here, Read.run_bind_of_ok run,
    Read.run_bind_of_ok (Read.run_expect closes rfl)]
  rfl

/-! ## Generic types -/

theorem takenAsAtom_generic {base : Text} {first : TypeExpr} {others : List TypeExpr}
    (sole : isSole .name base = true) (opens : ∀ type ∈ first :: others, OpensType type.render)
    (taken : ∀ type ∈ first :: others, TakenAsType type) :
    TakenAsAtom (.generic base (first :: others)) := by
  intro depth rest _ _
  have written : render (.generic base (first :: others)) ++ rest = base ++ '<' :: (first.render ++
      (others.flatMap (fun type => [',', ' '] ++ type.render) ++ '>' :: rest)) := by
    rw [render, join_renderAll]
    simp
  obtain ⟨opening, next⟩ := List.forall_mem_cons.mp opens
  obtain ⟨leading, further⟩ := List.forall_mem_cons.mp taken
  refine takes_atom (by simp [render]) fun depth cursor stands within => ?_
  have opened := markedName_of_scan sole rfl (written ▸ stands)
  have reached := opened.reached
  have lengths := opened.lengths
  have shorter := reached.shorter
  have listed : Read.Listed depth (Read.accept .comma) (typeWith (atom depth))
      [',', ' '] render EndsType
      others ('>' :: rest) := {
    firm := fun _ => List.dropWhile_cons_of_neg (by decide)
    separates := fun type mem text =>
      Read.separates_accept rfl (by simp [isPadding]) ((next type mem).dropWhile text)
    takes := fun type mem text follows => further type mem depth text follows
    marked := fun _ => endsType_mark rfl rfl (by decide) (by decide) (by decide) _
    ends := endsType_mark rfl rfl (by decide) (by decide) (by decide) rest
    stops := fun cursor stands => Read.run_accept_of_not_isAt (by
      rw [Cursor.isAt, Cursor.kind?_of_scan stands]
      rfl) }
  obtain ⟨second, run, reaches⟩ := leading depth _ listed.follows cursor.step.advance
    (reached.rest_eq (opening.dropWhile _)) (by omega)
  have forward := reaches.shorter
  obtain ⟨third, ran, closes⟩ := listed.run_allFurther reaches (by omega)
  have close : third.rest = ⟨.angleClose, ['>']⟩ :: scan rest := by
    rw [closes.rest_eq (List.dropWhile_cons_of_neg (by decide)), scan_mark rfl]
  have final := Cursor.reaches_advance close (by simp)
  refine ⟨third.advance, ?_, (final.of_le (Nat.le_of_lt closes.shorter)).of_le (by omega)⟩
  rw [run_atom_name opened.here, namedType, Read.run_get_bind, opened.named,
    Read.run_bind_of_ok (Read.run_step cursor), Read.run_get_bind, opened.marked,
    if_pos (by rfl), Read.run_bind_of_ok (Read.run_advance _), Read.run_bind_of_ok run,
    Read.run_bind_of_ok ran, Read.run_bind_of_ok (Read.run_expect close rfl)]
  rfl

end Grammar

end TypeExpr

end DocComment
