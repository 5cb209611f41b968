import DocComment.Proofs.TypeExpr.Members

/-!
# What a type says

Padding, parentheses and a comma behind the last item of a shape can be put into
the text of a type or left out.  The other tokens are its essentials.  A text
says some words if these are its essentials in front of everything that does not
go on with its last word (`Spells`), and one lemma for each form of type tells what
its written form says if it is known of the parts.
-/

namespace DocComment

namespace Token

/-! ## Essentials -/

/-- The kinds of token that always say something in a type. -/
def Kind.speaks : Kind → Bool
  | .padding | .roundOpen | .roundClose | .comma => false
  | _ => true

/--
Whether a token in front of others says nothing in a type: padding, a
parenthesis, or a comma that a closing brace follows.
-/
def isSilent (token : Token) (behind : List Token) : Bool :=
  match token.kind with
  | .padding | .roundOpen | .roundClose => true
  | .comma =>
      (behind.dropWhile fun token => token.kind == .padding).head?.map Token.kind == some .curlyClose
  | _ => false

/-- The texts of the tokens that say something in a type. -/
def essentials : List Token → List Text
  | [] => []
  | token :: tokens =>
      if token.isSilent tokens then essentials tokens else token.text :: essentials tokens

variable {token : Token} {tokens : List Token} {text rest : Text}

theorem isSilent_of_speaks (speaks : token.kind.speaks = true) (tokens : List Token) :
    token.isSilent tokens = false := by
  unfold isSilent
  cases kind : token.kind <;> first | rfl | (rw [kind] at speaks; cases speaks)

theorem essentials_cons_of_speaks (speaks : token.kind.speaks = true) (tokens : List Token) :
    essentials (token :: tokens) = token.text :: essentials tokens := by
  rw [essentials, isSilent_of_speaks speaks, if_neg Bool.false_ne_true]

theorem essentials_cons_of_isSilent (silent : token.isSilent tokens = true) :
    essentials (token :: tokens) = essentials tokens :=
  if_pos silent

/-- Padding in front says nothing. -/
theorem essentials_dropWhile (tokens : List Token) :
    essentials (tokens.dropWhile fun token => token.kind == .padding) = essentials tokens := by
  induction tokens with
  | nil => rfl
  | cons token tokens ih =>
      cases pads : token.kind == Kind.padding with
      | false => rw [List.dropWhile_cons_of_neg (by simp [pads])]
      | true =>
          have silent : token.isSilent tokens = true := by rw [isSilent, beq_iff_eq.mp pads]
          rw [@List.dropWhile_cons_of_pos _ (fun token : Token => token.kind == .padding) _ _ pads, ih,
            essentials_cons_of_isSilent silent]

/-! ## Texts -/

/-- In front of every text that does not go on with its last word the text says the
words and no more. -/
def Spells (text : Text) (words : List Text) : Prop :=
  ∀ rest, rest.EndsWord → essentials (scan (text ++ rest)) = words ++ essentials (scan rest)

theorem essentials_space (rest : Text) :
    essentials (scan (' ' :: rest)) = essentials (scan rest) := by
  rw [← essentials_dropWhile (scan (' ' :: rest)), dropWhile_scan, List.dropWhile_cons_of_pos rfl,
    ← dropWhile_scan, essentials_dropWhile]

theorem essentials_mark {c : Char} {kind : Kind} (marks : markKind? c = some kind)
    (speaks : kind.speaks = true)
    (rest : Text) : essentials (scan (c :: rest)) = [c] :: essentials (scan rest) := by
  rw [scan_mark marks, essentials_cons_of_speaks speaks]

theorem essentials_round {c : Char} {kind : Kind} (marks : markKind? c = some kind)
    (round : kind = .roundOpen ∨ kind = .roundClose) (rest : Text) :
    essentials (scan (c :: rest)) = essentials (scan rest) := by
  rw [scan_mark marks, essentials_cons_of_isSilent]
  rcases round with rfl | rfl <;> rfl

/-- A comma in front of a type says that one follows. -/
theorem essentials_comma (opens : TypeExpr.OpensType text) (rest : Text) :
    essentials (scan ([',', ' '] ++ (text ++ rest))) =
      [','] :: essentials (scan (text ++ rest)) := by
  have behind : (scan (' ' :: (text ++ rest))).dropWhile (fun token => token.kind == .padding) =
      scan (text ++ rest) := by
    rw [dropWhile_scan, List.dropWhile_cons_of_pos rfl, opens.dropWhile]
  have heard : isSilent ⟨.comma, [',']⟩ (scan (' ' :: (text ++ rest))) = false := by
    obtain ⟨kind, starts, opening, -⟩ := opens
    have first := starts.kind? rest
    rw [firstKind?] at first
    rw [isSilent]
    dsimp only
    rw [behind, first, beq_eq_false_iff_ne]
    rintro ⟨⟩
    cases opening
  have marked : scan ([',', ' '] ++ (text ++ rest)) =
      ⟨.comma, [',']⟩ :: scan (' ' :: (text ++ rest)) :=
    scan_mark rfl _
  rw [marked, essentials, heard, if_neg Bool.false_ne_true, essentials_space]

theorem endsWord_nil : Text.EndsWord [] :=
  nofun

theorem spells_nil : Spells [] [] :=
  fun _ _ => rfl

theorem spells_of_isSole {kind : Kind} (sole : isSole kind text = true) (word : kind.isWord = true)
    (speaks : kind.speaks = true) : Spells text [text] := by
  intro rest ends
  rw [scan_append_of_isSole sole word ends, essentials_cons_of_speaks speaks]
  rfl

theorem spells_mark {c : Char} {kind : Kind} (marks : markKind? c = some kind)
    (speaks : kind.speaks = true) :
    Spells [c] [[c]] :=
  fun rest _ => essentials_mark marks speaks rest

section Append

variable {front back : Text} {first second : List Text}

/-- One text behind another says both, if it does not go on with the last word of that one. -/
theorem Spells.append (spelled : Spells front first) (behind : Spells back second)
    (ends : ∀ rest, rest.EndsWord → (back ++ rest).EndsWord) :
    Spells (front ++ back) (first ++ second) := by
  intro rest parted
  rw [List.append_assoc, spelled _ (ends rest parted), behind rest parted, List.append_assoc]

/-- Parentheses say nothing. -/
theorem Spells.behind_round {c : Char} {kind : Kind} (marks : markKind? c = some kind)
    (round : kind = .roundOpen ∨ kind = .roundClose) (behind : Spells back second) :
    Spells (c :: back) second := by
  intro rest parted
  rw [List.cons_append, essentials_round marks round, behind rest parted]

/-- Behind a mark every text can stand. -/
theorem Spells.behind_mark {c : Char} {kind : Kind} (marks : markKind? c = some kind)
    (speaks : kind.speaks = true)
    (behind : Spells back second) : Spells (c :: back) ([c] :: second) := by
  intro rest parted
  rw [List.cons_append, essentials_mark marks speaks, behind rest parted]
  rfl

end Append

/-- A space says nothing. -/
theorem Spells.behind_space (behind : Spells back second) : Spells (' ' :: back) second := by
  intro rest parted
  rw [List.cons_append, essentials_space, behind rest parted]

/-- A name and a text in brackets behind it. -/
theorem spells_enclosed {name : Text} {c d : Char} {left right : Kind}
    (sole : isSole .name name = true)
    (opens : markKind? c = some left) (closes : markKind? d = some right)
    (inside : Spells back second) (heard : left.speaks = true ∧ right.speaks = true) :
    Spells (name ++ [c] ++ back ++ [d]) (name :: [c] :: (second ++ [[d]])) := by
  have closed : Spells (back ++ [d]) (second ++ [[d]]) :=
    inside.append (spells_mark closes heard.2) fun rest _ => endsWord_of_mark closes _
  have whole := (spells_of_isSole sole rfl rfl).append (closed.behind_mark opens heard.1)
    fun rest _ => endsWord_of_mark opens _
  simpa only [List.append_assoc, List.cons_append, List.nil_append] using whole

/-! ## Lists -/

/-- The text begins as a type and spells some words. -/
structure IsSpelled (text : Text) (words : List Text) : Prop where
  opens : TypeExpr.OpensType text
  spells : Spells text words

/-- Texts spell some words, and in front of each one a mark says one word more. -/
inductive Enumerates (mark word : Text) : List Text → List Text → Prop
  | nil : Enumerates mark word [] []
  | cons {text : Text} {texts words others : List Text}
      (marked : ∀ rest, essentials (scan (mark ++ (text ++ rest))) = word :: essentials (scan (text ++ rest)))
      (spelled : Spells text words) (later : Enumerates mark word texts others) :
      Enumerates mark word (text :: texts) (word :: (words ++ others))

section Lists

variable {mark word first : Text} {texts words others : List Text}
  (parts : ∀ rest, (mark ++ rest).EndsWord)
  (enumerates : Enumerates mark word texts others)
include parts

theorem endsWord_flatMap (texts : List Text) (rest : Text) (ends : rest.EndsWord) :
    Text.EndsWord (texts.flatMap (fun text => mark ++ text) ++ rest) := by
  cases texts with
  | nil => exact ends
  | cons text texts =>
      rw [List.flatMap_cons, List.append_assoc, List.append_assoc]
      exact parts _

include enumerates

theorem Enumerates.spells_flatMap : Spells (texts.flatMap fun text => mark ++ text) others := by
  induction enumerates with
  | nil => exact spells_nil
  | @cons text texts words others marked spelled later ih =>
      intro rest ends
      rw [List.flatMap_cons, List.append_assoc, List.append_assoc, marked,
        spelled _ (endsWord_flatMap parts texts rest ends), ih rest ends]
      simp only [List.cons_append, List.append_assoc]

/-- A list with marks between its texts. -/
theorem Enumerates.spells_join (spelled : Spells first words) :
    Spells (Text.join mark (first :: texts)) (words ++ others) := by
  rw [Text.join_cons]
  exact spelled.append (enumerates.spells_flatMap parts) (endsWord_flatMap parts texts)

end Lists

/-- Texts in a list say what each one says, with a comma in front of all but the first. -/
inductive Lists : List Text → List Text → Prop
  | nil : Lists [] []
  | cons {text : Text} {texts words others : List Text} (spelled : IsSpelled text words)
      (later : Enumerates [',', ' '] [','] texts others) : Lists (text :: texts) (words ++ others)

theorem Lists.spells {texts words : List Text} (lists : Lists texts words) :
    Spells (Text.join [',', ' '] texts) words := by
  cases lists with
  | nil => exact spells_nil
  | cons spelled later => exact later.spells_join (fun _ => endsWord_of_mark rfl _) spelled.spells

/-- One more text in front of a list. -/
theorem Lists.cons_comma {text : Text} {texts words others : List Text} (lists : Lists texts others)
    (proper : texts ≠ []) (spelled : IsSpelled text words) :
    Lists (text :: texts) (words ++ [','] :: others) := by
  cases lists with
  | nil => exact absurd rfl proper
  | cons following later =>
      exact .cons spelled (.cons (essentials_comma following.opens) following.spells later)

end Token

namespace TypeExpr

open Token Grammar

/-! ## Types -/

section Forms

variable {text : Text} {inner : TypeExpr} {words : List Text}

/-- One token that begins a type. -/
theorem isSpelled_word {kind : Kind} (sole : isSole kind text = true)
    (leads : kind = .name ∨ kind = .quoted ∨ kind = .number) : IsSpelled text [text] := by
  have word : kind.isWord = true ∧ kind.speaks = true ∧ opensType kind = true ∧
      kind ≠ .varName := by
    rcases leads with rfl | rfl | rfl <;> decide
  exact ⟨opensType_of_isSole sole word.1 word.2.2.1 word.2.2.2,
    spells_of_isSole sole word.1 word.2.1⟩

theorem isSpelled_self : IsSpelled selfVariable [selfVariable] where
  opens := opensType_selfVariable
  spells := spells_of_isSole (show isSole .varName selfVariable = true by decide) rfl rfl

theorem isSpelled_nullable (spelled : IsSpelled inner.render words) :
    IsSpelled (TypeExpr.nullable inner).render (['?'] :: words) where
  opens := opensType_mark rfl rfl (by decide) _
  spells := spelled.spells.behind_mark rfl rfl

/-- The parentheses in front of the brackets say nothing. -/
theorem isSpelled_array (spelled : IsSpelled inner.render words) :
    IsSpelled (TypeExpr.array inner).render (words ++ [['['], [']']]) := by
  have brackets : Spells ['[', ']'] [['['], [']']] := (spells_mark rfl rfl).behind_mark rfl rfl
  constructor
  case opens =>
    rw [render]
    split
    next => exact opensType_mark rfl rfl (by decide) _
    next => exact spelled.opens.append _
  case spells =>
    rw [render]
    split
    next =>
      have inside : Spells (inner.render ++ [')', '[', ']']) (words ++ [['['], [']']]) :=
        spelled.spells.append (brackets.behind_round rfl (.inr rfl)) fun rest _ =>
          endsWord_of_mark rfl _
      exact inside.behind_round rfl (.inl rfl)
    next => exact spelled.spells.append brackets fun rest _ => endsWord_of_mark rfl _

/-! ## Lists of types -/

variable {first : TypeExpr} {others : List TypeExpr} {more : List Text}

/-- Types with marks between them. -/
theorem isSpelled_join {mark word : Text} (parts : ∀ rest, (mark ++ rest).EndsWord)
    (spelled : IsSpelled first.render words)
    (enumerates : Enumerates mark word (others.map render) more) :
    IsSpelled (Text.join mark (renderAll (first :: others))) (words ++ more) := by
  rw [renderAll_eq, List.map_cons]
  constructor
  case opens =>
    rw [Text.join_cons]
    exact spelled.opens.append _
  case spells => exact enumerates.spells_join parts spelled.spells

theorem isSpelled_generic {base : Text} (sole : isSole .name base = true)
    (spelled : IsSpelled first.render words)
    (enumerates : Enumerates [',', ' '] [','] (others.map render) more) :
    IsSpelled (TypeExpr.generic base (first :: others)).render
      (base :: ['<'] :: (words ++ more ++ [['>']])) := by
  have inside := isSpelled_join (fun _ => endsWord_of_mark rfl _) spelled enumerates
  constructor <;> rw [render]
  case opens =>
    rw [List.append_assoc, List.append_assoc]
    exact (isSpelled_word sole (.inl rfl)).opens.append _
  case spells => exact spells_enclosed sole rfl rfl inside.spells ⟨rfl, rfl⟩

/-! ## Callables and shapes -/

/-- What the marks of a parameter say. -/
def wordsOfMarks (byReference variadic : Bool) (name : Option Text) : List Text :=
  (if byReference then [['&']] else []) ++ ((if variadic then [['.', '.', '.']] else []) ++ name.toList)

theorem spells_marks {byReference variadic : Bool} {name : Option Text}
    (sole : ∀ text, name = some text → isSole .varName text = true) :
    Spells (markersOf byReference variadic name) (wordsOfMarks byReference variadic name) := by
  have named : Spells (name.getD []) name.toList := by
    cases name with
    | none => exact spells_nil
    | some text => exact spells_of_isSole (sole text rfl) rfl rfl
  have spread : Spells ((if variadic then ['.', '.', '.'] else []) ++ name.getD [])
      ((if variadic then [['.', '.', '.']] else []) ++ name.toList) := by
    cases variadic with
    | false => exact named
    | true =>
        intro rest ends
        have dots := scan_ellipsis (name.getD [] ++ rest)
        rw [if_pos rfl, List.append_assoc, dots, essentials_cons_of_speaks rfl, named rest ends]
        rfl
  have marked : Spells (marksOf byReference variadic name)
      (wordsOfMarks byReference variadic name) := by
    cases byReference with
    | false => exact spread
    | true => exact spread.behind_mark rfl rfl
  rw [markersOf_eq]
  split
  next => exact marked.behind_space
  next => exact marked

theorem endsWord_markers {byReference variadic : Bool} {name : Option Text} (rest : Text)
    (ends : rest.EndsWord) :
    Text.EndsWord (markersOf byReference variadic name ++ rest) := by
  have space (more : Text) : Text.EndsWord (' ' :: more) := by
    rintro c ⟨⟩
    decide
  cases byReference with
  | true => exact space _
  | false =>
      cases variadic with
      | true => exact space _
      | false =>
          cases name with
          | some text => exact space _
          | none => exact ends

theorem isSpelled_param {param : CallableParam TypeExpr}
    (spelled : IsSpelled param.type.render words)
    (sole : ∀ text, param.name = some text → isSole .varName text = true) :
    IsSpelled (paramText param)
      (words ++ wordsOfMarks param.byReference param.variadic param.name) where
  opens := spelled.opens.append _
  spells := spelled.spells.append (spells_marks sole) endsWord_markers

theorem isSpelled_callable {name : Text} {params : List (CallableParam TypeExpr)}
    {result : TypeExpr}
    (sole : isSole .name name = true) (lists : Lists (params.map paramText) words)
    (spelled : IsSpelled result.render more) :
    IsSpelled (TypeExpr.callable name params result).render (name :: (words ++ [':'] :: more)) := by
  constructor <;> rw [render, renderParams_eq]
  case opens =>
    rw [List.append_assoc, List.append_assoc, List.append_assoc]
    exact (isSpelled_word sole (.inl rfl)).opens.append _
  case spells =>
    have final : Spells (')' :: ':' :: ' ' :: result.render) ([':'] :: more) :=
      (spelled.spells.behind_space.behind_mark rfl rfl).behind_round rfl (.inr rfl)
    have inside := (lists.spells.append final fun rest _ => endsWord_of_mark rfl _).behind_round
      (c := '(') rfl (.inl rfl)
    have whole := (spells_of_isSole sole rfl rfl).append inside fun rest _ => endsWord_of_mark rfl _
    simpa only [List.append_assoc, List.cons_append, List.nil_append] using whole

/-- What the key of an item says. -/
def wordsOfKey (key : Option Text) (optional : Bool) : List Text :=
  match key with
  | none => []
  | some key => key :: ((if optional then [['?']] else []) ++ [[':']])

theorem isSpelled_item {item : ShapeItem TypeExpr} (spelled : IsSpelled item.value.render words)
    (keyed : ∀ text, item.key = some text → isKey text = true) :
    IsSpelled (itemText item) (wordsOfKey item.key item.optional ++ words) := by
  obtain ⟨key, optional, value⟩ := item
  cases key with
  | none => exact spelled
  | some key =>
      obtain ⟨kind, sole, other⟩ := exists_kind_of_isKey (keyed key rfl)
      have front := isSpelled_word sole other
      have colon : Spells (':' :: ' ' :: value.render) ([':'] :: words) :=
        spelled.spells.behind_space.behind_mark rfl rfl
      constructor
      case opens =>
        rw [itemText, keyOf, List.append_assoc, List.append_assoc]
        exact front.opens.append _
      case spells =>
        cases optional with
        | false =>
            have whole := front.spells.append colon fun rest _ => endsWord_of_mark rfl _
            simpa [itemText, keyOf, wordsOfKey] using whole
        | true =>
            have marked : Spells ('?' :: ':' :: ' ' :: value.render) (['?'] :: [':'] :: words) :=
              colon.behind_mark rfl rfl
            have whole := front.spells.append marked fun rest _ => endsWord_of_mark rfl _
            simpa [itemText, keyOf, wordsOfKey] using whole

theorem isSpelled_shape {name : Text} {items : List (ShapeItem TypeExpr)}
    (sole : isSole .name name = true) (lists : Lists (items.map itemText) words) :
    IsSpelled (TypeExpr.shape name items).render (name :: ['{'] :: (words ++ [['}']])) := by
  constructor <;> rw [render]
  case opens =>
    rw [List.append_assoc, List.append_assoc]
    exact (isSpelled_word sole (.inl rfl)).opens.append _
  case spells =>
    rw [renderItems_eq]
    exact spells_enclosed sole rfl rfl lists.spells ⟨rfl, rfl⟩

end Forms

end TypeExpr

end DocComment
