import DocComment.Proofs.Token.Stops

/-!
# Seams

Tokens that end at a seam are cut without regard to what stands behind it, so
another text can take its place if the tokens end in front of that one, too
(`scan_append_of_seam`).  From the seam on the scanner works as at the start of
a text (`scan_textOf_drop`).
-/

namespace DocComment

namespace Token

/-! ## Joined tokens -/

theorem prepend_append {token : Token} {front rest : List Token}
    (known : ∀ next, rest.head? = some next → next.kind ≠ .other) :
    prepend token (front ++ rest) = prepend token front ++ rest := by
  cases front with
  | nil =>
      cases rest with
      | nil => rfl
      | cons next rest => exact if_neg fun both => known next rfl both.2
  | cons next front =>
      rw [List.cons_append, prepend, prepend]
      split
      next => rfl
      next => rfl

/-- What a first token was joined with lies within the text that the tokens cover. -/
theorem exists_of_prepend {token : Token} {found tokens back : List Token} {text : Text}
    (cut : prepend token found = tokens ++ back) (covers : textOf tokens = token.text ++ text)
    (proper : token.text ≠ []) :
    ∃ inner, found = inner ++ back ∧ textOf inner = text ∧ prepend token inner = tokens := by
  cases tokens with
  | nil => exact absurd (List.append_eq_nil_iff.mp covers.symm).1 proper
  | cons first tokens =>
      cases found with
      | nil =>
          obtain ⟨rfl, same⟩ := List.cons.inj cut
          obtain ⟨rfl, rfl⟩ := List.append_eq_nil_iff.mp same.symm
          refine ⟨[], rfl, ?_, rfl⟩
          rw [textOf_cons] at covers
          exact List.append_cancel_left covers
      | cons next found =>
          rw [prepend] at cut
          split at cut
          next both =>
            obtain ⟨rfl, rfl⟩ := List.cons.inj cut
            rw [textOf_cons, List.append_assoc] at covers
            exact ⟨next :: tokens, rfl, List.append_cancel_left covers, if_pos both⟩
          next apart =>
            obtain ⟨rfl, same⟩ := List.cons.inj cut
            rw [textOf_cons] at covers
            refine ⟨tokens, same, List.append_cancel_left covers, ?_⟩
            cases tokens with
            | nil => rfl
            | cons second tokens =>
                obtain ⟨rfl, -⟩ := List.cons.inj same
                exact if_neg apart

/-- A token that is put in front of others, or joined with the first one, lies
within a token of its kind. -/
theorem exists_mem_prepend {first token : Token} {inner : List Token}
    (mem : token = first ∨ token ∈ inner) :
    ∃ whole ∈ prepend first inner, whole.kind = token.kind ∧ token.text ⊆ whole.text := by
  cases inner with
  | nil =>
      rcases mem with rfl | mem
      · exact ⟨token, List.mem_singleton_self _, rfl, List.Subset.refl _⟩
      · cases mem
  | cons next inner =>
      rw [prepend]
      split
      next both =>
        rcases mem with rfl | mem
        · exact ⟨_, List.mem_cons_self, both.1.symm, List.subset_append_left _ _⟩
        rcases List.mem_cons.mp mem with rfl | mem
        · exact ⟨_, List.mem_cons_self, both.2.symm, List.subset_append_right _ _⟩
        · exact ⟨token, List.mem_cons_of_mem _ mem, rfl, List.Subset.refl _⟩
      next => exact ⟨token, List.mem_cons.mpr mem, rfl, List.Subset.refl _⟩

theorem prefix_of_prepend {token first : Token} {found back : List Token}
    (cut : prepend token found = first :: back) : token.text <+: first.text := by
  cases found with
  | nil =>
      cases cut
      exact List.prefix_rfl
  | cons next found =>
      rw [prepend] at cut
      split at cut
      next =>
        cases cut
        exact List.prefix_append _ _
      next =>
        cases cut
        exact List.prefix_rfl

/-- The kind of the first token of a text. -/
def firstKind? (text : Text) : Option Kind :=
  (scan text).head?.map Token.kind

/-- The first token has the kind of the first piece. -/
theorem firstKind?_cons (c : Char) (rest : Text) :
    firstKind? (c :: rest) = some (piece c rest).1 := by
  rw [firstKind?, scan_cons]
  cases scan (rest.drop (piece c rest).2) with
  | nil => rfl
  | cons next tokens =>
      rw [prepend]
      split
      next joined => exact congrArg some joined.1.symm
      next => rfl

/-! ## Exchanging what stands behind a seam -/

/-- Whatever ends in front of `rest` also ends in front of `other`. -/
structure Seam (front : Text) (tokens : List Token) (rest other : Text) : Prop where
  parted : other.Parted
  known : firstKind? other ≠ some .other
  padding : ∀ c, other.head? = some c → isPadding c = true →
    ∀ d, front.getLast? = some d → isPadding d = false ∧ d ≠ '\n'
  star : other.head? = some '*' → front.getLast? ≠ some '/' ∧ ¬ ['/', '*'] <:+ front
  carriage : other.head? = some '\n' → rest.head? = some '\n' ∨ front.getLast? ≠ some '\r'
  quote : (rest = [] ∨ rest.head? = some '\n') → (other = [] ∨ other.head? = some '\n') ∨
    ∀ token ∈ tokens, token.kind = .other → '"' ∉ token.text ∧ '\'' ∉ token.text

namespace Seam

variable {c : Char} {front rest other : Text} {tokens : List Token}

theorem decorationLength_eq_zero (seam : Seam front tokens rest other)
    (open? : ∃ d, front.getLast? = some d ∧ (isPadding d = true ∨ d = '\n')) :
    decorationLength other = 0 := by
  obtain ⟨last, ends, kind⟩ := open?
  cases unread : other with
  | nil => rfl
  | cons d behind =>
      rw [decorationLength_cons]
      have dark : ¬ isPadding d = true := fun pads => by
        obtain ⟨firm, unbroken⟩ := seam.padding d (by rw [unread]; rfl) pads last ends
        rcases kind with soft | broken
        · rw [firm] at soft
          cases soft
        · exact unbroken broken
      rw [if_neg dark]
      refine if_neg fun both => seam.known ?_
      obtain ⟨rfl, slash⟩ := both
      rw [unread, firstKind?_cons]
      cases behind with
      | nil => rfl
      | cons e behind =>
          have unclosed : e ≠ '/' := fun same => slash (congrArg some same)
          simp [piece, unclosed, isPadding]

theorem runLength_eq_zero (seam : Seam front tokens rest other)
    (open? : ∃ d, front.getLast? = some d ∧ isPadding d = true) :
    runLength isPadding other = 0 := by
  obtain ⟨last, ends, soft⟩ := open?
  cases unread : other with
  | nil => rfl
  | cons d behind =>
      have dark : ¬ isPadding d = true := fun pads => by
        rw [(seam.padding d (by rw [unread]; rfl) pads last ends).1] at soft
        cases soft
      rw [runLength, List.takeWhile_cons_of_neg dark]
      rfl

/-- A last character of a class, if all characters of a text that is not empty belong to it. -/
theorem exists_getLast? {p : Char → Prop} (head : p c) (all : ∀ d ∈ front, p d) :
    ∃ d, (c :: front).getLast? = some d ∧ p d := by
  refine ⟨_, List.getLast?_eq_some_getLast (List.cons_ne_nil c front), ?_⟩
  rcases List.mem_cons.mp (List.getLast_mem (List.cons_ne_nil c front)) with same | mem
  · rw [same]
    exact head
  · exact all _ mem

theorem first_known (seam : Seam front tokens rest other) :
    ∀ next, (scan other).head? = some next → next.kind ≠ .other := by
  intro next head kind
  apply seam.known
  rw [firstKind?, head, ← kind]
  rfl

/-- The text behind a seam stops the piece that reaches up to it. -/
theorem stops (seam : Seam (c :: front) tokens rest other) (stops : Stops c front rest)
    (held : (piece c front).1 = .other → ∃ token ∈ tokens, token.kind = .other ∧ c ∈ token.text) :
    Stops c front other where
  indented more stands pads := by
    refine seam.decorationLength_eq_zero ?_
    rcases stands with stands | stands
    · cases stands
      exact exists_getLast? (Or.inr rfl) fun d mem => Or.inl (pads d mem)
    · cases stands
      rw [List.getLast?_cons_cons]
      exact exists_getLast? (Or.inr rfl) fun d mem => Or.inl (pads d mem)
  padded pads all := seam.runLength_eq_zero (exists_getLast? pads all)
  carriage here empty broken := by
    subst here empty
    rcases seam.carriage broken with before | other
    · exact stops.carriage rfl rfl before
    · exact other rfl
  slash here few star := by
    subst here
    obtain ⟨firm, open?⟩ := seam.star star
    rcases few with rfl | rfl
    · exact firm rfl
    · exact open? (List.suffix_refl _)
  quote here whole := by
    rcases seam.quote (stops.quote here whole) with ends | quoteless
    · exact ends
    · have unknown : (piece c front).1 = .other := by
        have cut : piece c front = (if (quotedLength c front).1 then .quoted else .other,
            (quotedLength c front).2) := by
          rcases here with rfl | rfl <;> rfl
        rw [cut, whole]
        rfl
      obtain ⟨token, mem, kind, within⟩ := held unknown
      obtain ⟨double, single⟩ := quoteless token mem kind
      rcases here with rfl | rfl
      · exact absurd within double
      · exact absurd within single

/-- Behind the first piece the seam is the same. -/
theorem behind {first : Token} {inner : List Token} {back : Text}
    (seam : Seam front tokens rest other)
    (suffix : back <:+ front) (joined : prepend first inner = tokens) :
    Seam back inner rest other where
  parted := seam.parted
  known := seam.known
  padding c head pads d last := seam.padding c head pads d (Text.getLast?_of_suffix suffix last)
  star head := by
    obtain ⟨firm, open?⟩ := seam.star head
    exact ⟨fun last => firm (Text.getLast?_of_suffix suffix last),
      fun ends => open? (ends.trans suffix)⟩
  carriage head :=
    (seam.carriage head).imp_right fun firm last => firm (Text.getLast?_of_suffix suffix last)
  quote ends := (seam.quote ends).imp_right fun quoteless token mem kind => by
    obtain ⟨whole, within, same, inside⟩ := @exists_mem_prepend first _ _ (Or.inr mem)
    obtain ⟨double, single⟩ := quoteless whole (joined ▸ within) (same.trans kind)
    exact ⟨fun held => double (inside held), fun held => single (inside held)⟩

end Seam

theorem textOf_ne_nil {text : Text} {tokens : List Token} (proper : tokens ≠ [])
    (within : ∀ token ∈ tokens, token ∈ scan text) : textOf tokens ≠ [] := by
  obtain ⟨token, tokens, rfl⟩ := List.exists_cons_of_ne_nil proper
  exact fun empty => text_ne_nil_of_mem_scan (within token List.mem_cons_self)
    (List.append_eq_nil_iff.mp empty).1

/-- Tokens that cover nothing are none. -/
theorem eq_nil_of_cut {text : Text} {tokens rest : List Token} (cut : scan text = tokens ++ rest)
    (covers : textOf tokens = []) : tokens = [] :=
  by_contra fun proper =>
    textOf_ne_nil proper (fun _ mem => cut ▸ List.mem_append_left _ mem) covers

/-- The first piece of tokens that end in front of a text ends there or before, and the tokens
behind it end there, too. -/
theorem exists_inner_of_cut {c : Char} {more rest : Text} {tokens : List Token}
    (cut : scan (c :: (more ++ rest)) = tokens ++ scan rest) (covers : textOf tokens = c :: more)
    (parted : rest.Parted) :
    Stops c more rest ∧ piece c (more ++ rest) = piece c more ∧ (piece c more).2 ≤ more.length ∧
      ∃ inner, scan (more.drop (piece c more).2 ++ rest) = inner ++ scan rest ∧
        textOf inner = more.drop (piece c more).2 ∧
          prepend ⟨(piece c more).1, c :: more.take (piece c more).2⟩ inner = tokens := by
  rw [scan_cons] at cut
  have within : (piece c (more ++ rest)).2 ≤ more.length := by
    cases tokens with
    | nil => cases covers
    | cons first tokens =>
        have long := (prefix_of_prepend cut).length_le
        have whole := congrArg List.length covers
        have short := piece_le c (more ++ rest)
        rw [textOf_cons, List.length_append, List.length_cons] at whole
        rw [List.length_cons, List.length_take, Nat.min_eq_left short] at long
        omega
  have stops := stops_of_le within
  have same := piece_append stops parted
  rw [same] at cut within
  rw [List.drop_append_of_le_length within, List.take_append_of_le_length within] at cut
  have split : textOf tokens = (c :: more.take (piece c more).2) ++ more.drop (piece c more).2 := by
    rw [covers, List.cons_append, List.take_append_drop]
  exact ⟨stops, same, within, exists_of_prepend cut split (List.cons_ne_nil _ _)⟩

/--
Tokens that end in front of a text are cut in the same way in front of any
other text that lets them end.
-/
theorem scan_append_of_seam {front rest other : Text} {tokens : List Token}
    (cut : scan (front ++ rest) = tokens ++ scan rest) (covers : textOf tokens = front)
    (parted : rest.Parted) (seam : Seam front tokens rest other) :
    scan (front ++ other) = tokens ++ scan other := by
  induction front using piecewise generalizing tokens with
  | nil =>
      rw [eq_nil_of_cut cut covers]
      rfl
  | cons c more ih =>
      obtain ⟨stops, -, within, inner, behind, covered, joined⟩ :=
        exists_inner_of_cut cut covers parted
      have back : more.drop (piece c more).2 <:+ c :: more :=
        (List.drop_suffix _ _).trans (List.suffix_cons _ _)
      have later := ih behind covered (seam.behind back joined)
      have held (unknown : (piece c more).1 = .other) :
          ∃ token ∈ tokens, token.kind = .other ∧ c ∈ token.text := by
        obtain ⟨whole, mem, kind, inside⟩ := @exists_mem_prepend _ _ inner (Or.inl rfl)
        exact ⟨whole, joined ▸ mem, kind.trans unknown, inside List.mem_cons_self⟩
      have kept := piece_append (seam.stops stops held) seam.parted
      rw [List.cons_append, scan_cons, kept, List.drop_append_of_le_length within,
        List.take_append_of_le_length within, later, prepend_append seam.first_known, joined]

theorem parted_nil : Text.Parted [] where
  word _ head := nomatch head
  slash head := nomatch head

theorem parted_feed (rest : Text) : Text.Parted ('\n' :: rest) :=
  parted_of_head? fun _ head => .inr (.inl (Option.some.inj head).symm)

/-- A text is scanned as it is by itself in front of another one that lets its tokens end. -/
theorem scan_append_of_ends {front other : Text} (seam : Seam front (scan front) [] other) :
    scan (front ++ other) = scan front ++ scan other := by
  refine scan_append_of_seam ?_ (textOf_scan front) parted_nil seam
  rw [List.append_nil]
  exact (List.append_nil _).symm

/-- Tokens that end in front of a text are those of the text that they cover. -/
theorem scan_of_append {front rest : Text} {tokens : List Token}
    (cut : scan (front ++ rest) = tokens ++ scan rest) (covers : textOf tokens = front)
    (parted : rest.Parted) : scan front = tokens := by
  have alone : Seam front tokens rest [] :=
    { parted := parted_nil
      known := nofun
      padding := nofun
      star := nofun
      carriage := nofun
      quote := fun _ => Or.inl (Or.inl rfl) }
  have same := scan_append_of_seam cut covers parted alone
  have empty : scan [] = [] := rfl
  rwa [List.append_nil, empty, List.append_nil] at same

/-! ## Scanning from a token on -/

/-- From the second token on a text is scanned as it was behind the first one. -/
theorem scan_textOf_of_cons {text : Text} {first : Token} {tokens : List Token}
    (cut : scan text = first :: tokens) : scan (textOf tokens) = tokens := by
  induction text using piecewise generalizing first tokens with
  | nil => cases cut
  | cons c rest ih =>
      rw [scan_cons] at cut
      cases found : scan (rest.drop (piece c rest).2) with
      | nil =>
          rw [found] at cut
          cases cut
          rfl
      | cons next more =>
          rw [found, prepend] at cut
          split at cut
          next =>
            cases cut
            exact ih found
          next =>
            cases cut
            rw [← found, textOf_scan]

/-- Every rest of the tokens is what the text from there on is scanned as. -/
theorem scan_textOf_drop (text : Text) (place : Nat) :
    scan (textOf ((scan text).drop place)) = (scan text).drop place := by
  induction place with
  | zero => rw [List.drop_zero, textOf_scan]
  | succ place ih =>
      cases found : (scan text).drop place with
      | nil =>
          rw [← List.drop_drop, found]
          rfl
      | cons first tokens =>
          have behind : (scan text).drop (place + 1) = tokens := by
            rw [← List.drop_drop, found]
            rfl
          rw [behind]
          rw [found] at ih
          exact scan_textOf_of_cons ih

end Token

end DocComment
