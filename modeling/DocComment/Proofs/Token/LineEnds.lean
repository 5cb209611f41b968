import DocComment.Proofs.Reading.LineEnd
import DocComment.Proofs.Token.Normalised

/-!
# Tokens in front of the end of a line

The tokens in front of a line feed stay as they are when padding is put between them
and the line feed, when the line feed gets or loses its carriage return, or when other
lines follow, but for the last one: padding grows, a line break takes up padding behind
it, and a quote that is left open takes up whatever stands on its line
(`exists_scan_of_cut`).
-/

namespace DocComment

namespace Token

/-! ## Quotes that are left open -/

theorem quotedLength_of_plain {quote : Char} {text : Text}
    (plain : ∀ c ∈ text, c ≠ quote ∧ c ≠ '\n' ∧ c ≠ '\\') :
    quotedLength quote text = (false, text.length) := by
  induction text with
  | nil => rfl
  | cons c text ih =>
      obtain ⟨⟨other, unbroken, dark⟩, more⟩ := List.forall_mem_cons.mp plain
      cases text with
      | nil =>
          rw [quotedLength, if_neg unbroken, beq_eq_false_iff_ne.mpr other]
          rfl
      | cons d text =>
          rw [quotedLength, if_neg unbroken, if_neg other, if_neg dark, ih more]
          rfl

/-- A quote that is left open goes on up to the end of its line. -/
theorem quotedLength_append_of_open {quote : Char} {front middle rest : Text}
    (whole : quotedLength quote front = (false, front.length))
    (plain : ∀ c ∈ middle, c ≠ quote ∧ c ≠ '\n' ∧ c ≠ '\\')
    (ends : rest = [] ∨ rest.head? = some '\n') :
    quotedLength quote (front ++ (middle ++ rest)) = (false, (front ++ middle).length) := by
  rw [← List.append_assoc]
  have longer : quotedLength quote (front ++ middle) = (false, (front ++ middle).length) := by
    fun_induction quotedLength quote front with
    | case1 => exact quotedLength_of_plain plain
    | case2 | case4 | case5 | case6 => cases whole
    | case3 c unbroken =>
        have other : c ≠ quote := beq_eq_false_iff_ne.mp (congrArg Prod.fst whole)
        cases middle with
        | nil => exact (if_neg unbroken).trans whole
        | cons d middle =>
            obtain ⟨⟨-, feed, -⟩, more⟩ := List.forall_mem_cons.mp plain
            rw [List.singleton_append, quotedLength, if_neg unbroken, if_neg other, if_neg feed,
              quotedLength_of_plain more, quotedLength_of_plain plain]
            exact ite_self _
    | case7 d more unbroken found count cut feed plain' ih =>
        rw [List.cons_append, List.cons_append, quotedLength, if_neg feed, if_neg plain',
          if_pos rfl, if_neg unbroken, ih (by rw [cut]; cases whole; rfl)]
        rfl
    | case8 c d more feed plain' dark found count cut ih =>
        rw [List.cons_append] at ih
        rw [List.cons_append, List.cons_append, quotedLength, if_neg feed, if_neg plain',
          if_neg dark, ih (by rw [cut]; cases whole; rfl)]
        rfl
  rw [quotedLength_append_eq fun _ => ends, longer]

/-! ## Lists of tokens with other last ones -/

/-- Padding, and single tokens whose text does not matter. -/
inductive EndsAlike : List Token → List Token → Prop
  | padding {last last' : List Token} (soft : ∀ token ∈ last, token.kind = .padding)
      (soft' : ∀ token ∈ last', token.kind = .padding) : EndsAlike last last'
  | other (text text' : Text) : EndsAlike [⟨.other, text⟩] [⟨.other, text'⟩]
  | lineBreak (text text' : Text) : EndsAlike [⟨.lineBreak, text⟩] [⟨.lineBreak, text'⟩]

/-- Two lists of tokens differ in their last ones only, and these do not matter. -/
def SameButLast (tokens tokens' : List Token) : Prop :=
  ∃ core last last', tokens = core ++ last ∧ tokens' = core ++ last' ∧ EndsAlike last last'

theorem EndsAlike.sameButLast {last last' : List Token} (alike : EndsAlike last last') :
    SameButLast last last' :=
  ⟨[], last, last', rfl, rfl, alike⟩

theorem SameButLast.prepend {tokens tokens' : List Token} (same : SameButLast tokens tokens')
    (token : Token) :
    SameButLast (prepend token tokens) (Token.prepend token tokens') := by
  obtain ⟨core, last, last', rfl, rfl, alike⟩ := same
  have parted {tokens : List Token}
      (known : ∀ next, tokens.head? = some next → next.kind ≠ .other) :
      Token.prepend token tokens = [token] ++ tokens :=
    @prepend_append token [] tokens known
  cases core with
  | cons first core =>
      have proper (last : List Token) :
          ∃ front, Token.prepend token (first :: core ++ last) = front ++ last ∧
            front = Token.prepend token (first :: core) := by
        refine ⟨_, ?_, rfl⟩
        rw [List.cons_append, Token.prepend, Token.prepend]
        split <;> rfl
      obtain ⟨front, whole, rfl⟩ := proper last
      obtain ⟨_, whole', rfl⟩ := proper last'
      exact ⟨_, last, last', whole, whole', alike⟩
  | nil =>
      cases alike with
      | padding soft soft' =>
          have known {last : List Token} (soft : ∀ token ∈ last, token.kind = .padding) :
              ∀ next, last.head? = some next → next.kind ≠ .other := fun next head unknown => by
            rw [soft next (List.mem_of_head? head)] at unknown
            cases unknown
          exact ⟨[token], _, _, parted (known soft), parted (known soft'), .padding soft soft'⟩
      | other text text' =>
          by_cases unknown : token.kind = .other
          · refine ⟨[], [⟨.other, token.text ++ text⟩], [⟨.other, token.text ++ text'⟩], ?_,
              ?_, .other _ _⟩
            · exact if_pos ⟨unknown, rfl⟩
            · exact if_pos ⟨unknown, rfl⟩
          · exact ⟨[token], _, _, if_neg fun both => unknown both.1,
              if_neg fun both => unknown both.1, .other _ _⟩
      | lineBreak text text' =>
          refine ⟨[token], _, _, if_neg fun both => ?_, if_neg fun both => ?_, .lineBreak _ _⟩
          · cases both.2
          · cases both.2

/-! ## Pieces that reach the end of a line -/

theorem head?_padded_feed {padding feed rest : Text} (pads : ∀ c ∈ padding, isPadding c = true)
    (isFeed : IsFeed feed) {c : Char} (head : (padding ++ (feed ++ rest)).head? = some c) :
    isPadding c = true ∨ c = '\r' ∨ c = '\n' := by
  cases padding with
  | cons d padding =>
      cases head
      exact .inl (pads c List.mem_cons_self)
  | nil =>
      rcases isFeed with rfl | rfl
      · cases head
        exact .inr (.inr rfl)
      · cases head
        exact .inr (.inl rfl)

theorem parted_padded_feed {padding feed : Text} (pads : ∀ c ∈ padding, isPadding c = true)
    (isFeed : IsFeed feed) (rest : Text) : (padding ++ (feed ++ rest)).Parted := by
  refine parted_of_head? fun c head => ?_
  rcases head?_padded_feed pads isFeed head with soft | returns | broken
  · exact .inl soft
  · exact .inr (.inr (.inl returns))
  · exact .inr (.inl broken)

section Reaching

variable {c : Char} {more padding feed feed' rest rest' : Text}

/-- A piece that goes up to the end of its line takes up what stands in front of
the line feed there. -/
structure ReachesEnd (c : Char) (more behind rest : Text) (kind : Kind) (taken broken : Text) : Prop where
  split : behind = taken ++ (broken ++ rest)
  isFeed : IsFeed broken
  whole : piece c more = (kind, more.length)
  longer : piece c (more ++ behind) = (kind, (more ++ taken).length)
  ends : kind = .other ∨ kind = .padding ∨ kind = .lineBreak

theorem isPadding_of_head?_feed (isFeed : IsFeed feed) {d : Char}
    (head : (feed ++ rest).head? = some d) :
    isPadding d = false := by
  rcases isFeed with rfl | rfl
  · cases head
    rfl
  · cases head
    rfl

/-- An open quote goes on up to the line feed. -/
theorem exists_reachesEnd_of_quote (isFeed : IsFeed feed) (pads : ∀ d ∈ padding, isPadding d = true)
    (quote : c = '"' ∨ c = '\'') (whole : quotedLength c more = (false, more.length)) :
    ∃ taken broken, ReachesEnd c more (padding ++ (feed ++ rest)) rest .other taken broken := by
  obtain ⟨carriage, rfl, plain⟩ :
      ∃ carriage, feed = carriage ++ ['\n'] ∧ (carriage = [] ∨ carriage = ['\r']) := by
    rcases isFeed with rfl | rfl
    · exact ⟨[], rfl, .inl rfl⟩
    · exact ⟨['\r'], rfl, .inr rfl⟩
  have kind (text : Text) : piece c text =
      (if (quotedLength c text).1 then .quoted else .other, (quotedLength c text).2) := by
    rcases quote with rfl | rfl <;> rfl
  have middle : ∀ d ∈ padding ++ carriage, d ≠ c ∧ d ≠ '\n' ∧ d ≠ '\\' := by
    refine List.forall_mem_append.mpr ⟨fun d mem => ?_, fun d mem => ?_⟩
    · have soft : d = ' ' ∨ d = '\t' := by simpa [isPadding] using pads d mem
      rcases quote with rfl | rfl <;> rcases soft with rfl | rfl <;> decide
    · rcases plain with rfl | rfl
      · cases mem
      · cases List.mem_singleton.mp mem
        rcases quote with rfl | rfl <;> decide
  have longer := @quotedLength_append_of_open c more _ (['\n'] ++ rest) whole middle (.inr rfl)
  have split : padding ++ (carriage ++ ['\n'] ++ rest) =
      (padding ++ carriage) ++ (['\n'] ++ rest) := by
    simp only [List.append_assoc]
  refine ⟨padding ++ carriage, ['\n'], split, .inl rfl, ?_, ?_, .inl rfl⟩
  · rw [kind, whole]
    rfl
  · rw [split, kind, longer]
    rfl

theorem reachesEnd_of_padding (isFeed : IsFeed feed) (pads : ∀ d ∈ padding, isPadding d = true)
    (first : isPadding c = true) (others : ∀ d ∈ more, isPadding d = true) :
    ReachesEnd c more (padding ++ (feed ++ rest)) rest .padding padding feed := by
  refine ⟨rfl, isFeed, ?_, ?_, .inr (.inl rfl)⟩
  · have all := @runLength_append isPadding more [] others (by rintro _ ⟨⟩)
    rw [List.append_nil] at all
    rw [piece_padding first, all]
  · rw [piece_padding first, ← List.append_assoc,
      runLength_append (List.forall_mem_append.mpr ⟨others, pads⟩) fun _ =>
      isPadding_of_head?_feed isFeed]

/-- The indentation behind a line break goes on up to the end of the line. -/
theorem decorationLength_of_indented (isFeed : IsFeed feed)
    (pads : ∀ d ∈ padding, isPadding d = true)
    (inside : ∀ d ∈ more, isPadding d = true) : decorationLength more = more.length ∧
      decorationLength (more ++ (padding ++ (feed ++ rest))) = (more ++ padding).length := by
  have none : decorationLength (feed ++ rest) = 0 := by
    rcases isFeed with rfl | rfl <;> rfl
  constructor
  · rw [← List.append_nil more, decorationLength_append_of_padding inside, List.append_nil]
    rfl
  · rw [decorationLength_append_of_padding inside, decorationLength_append_of_padding pads, none,
      List.length_append, Nat.add_zero]

theorem reachesEnd_of_feed (isFeed : IsFeed feed) (pads : ∀ d ∈ padding, isPadding d = true)
    (inside : ∀ d ∈ more, isPadding d = true) :
    ReachesEnd '\n' more (padding ++ (feed ++ rest)) rest .lineBreak padding feed :=
  have ⟨short, long⟩ := decorationLength_of_indented isFeed pads inside
  ⟨rfl, isFeed, congrArg (Prod.mk _) short, congrArg (Prod.mk _) long, .inr (.inr rfl)⟩

theorem reachesEnd_of_carriage (isFeed : IsFeed feed) (pads : ∀ d ∈ padding, isPadding d = true)
    (inside : ∀ d ∈ more, isPadding d = true) :
    ReachesEnd '\r' ('\n' :: more) (padding ++ (feed ++ rest)) rest .lineBreak padding feed :=
  have ⟨short, long⟩ := decorationLength_of_indented isFeed pads inside
  ⟨rfl, isFeed, congrArg (fun length => (Kind.lineBreak, length + 1)) short,
    congrArg (fun length => (Kind.lineBreak, length + 1)) long, .inr (.inr rfl)⟩

/--
A piece in front of the end of a line ends where it did in front of another one, or it
is the last one of its line and takes up what stands in front of the line feed.
-/
theorem stops_or_reaches (isFeed' : IsFeed feed') (pads : ∀ d ∈ padding, isPadding d = true)
    (within : (piece c (more ++ (feed ++ rest))).2 ≤ more.length)
    (lone : (c :: more).getLast? = some '\r' → feed = ['\n']) :
    Stops c more (padding ++ (feed' ++ rest')) ∨
      ∃ kind taken broken, ReachesEnd c more
        (padding ++ (feed' ++ rest')) rest' kind taken broken := by
  by_cases quoted : (c = '"' ∨ c = '\'') ∧ quotedLength c more = (false, more.length)
  · exact .inr ⟨_, exists_reachesEnd_of_quote isFeed' pads quoted.1 quoted.2⟩
  by_cases soft : isPadding c = true ∧ ∀ d ∈ more, isPadding d = true
  · exact .inr ⟨_, _, _, reachesEnd_of_padding isFeed' pads soft.1 soft.2⟩
  by_cases broken : c = '\n' ∧ ∀ d ∈ more, isPadding d = true
  · obtain ⟨rfl, inside⟩ := broken
    exact .inr ⟨_, _, _, reachesEnd_of_feed isFeed' pads inside⟩
  by_cases broken' : c = '\r' ∧ ∃ front, more = '\n' :: front ∧ ∀ d ∈ front, isPadding d = true
  · obtain ⟨rfl, front, rfl, inside⟩ := broken'
    exact .inr ⟨_, _, _, reachesEnd_of_carriage isFeed' pads inside⟩
  refine .inl ⟨fun front stands inside => ?_,
    fun first others => absurd ⟨first, others⟩ soft, ?_, ?_,
    fun quote whole => absurd ⟨quote, whole⟩ quoted⟩
  · rcases stands with stands | stands
    · cases stands
      exact absurd ⟨rfl, inside⟩ broken
    · cases stands
      exact absurd ⟨rfl, front, rfl, inside⟩ broken'
  · rintro rfl rfl -
    cases lone rfl
    exact absurd within (Nat.not_succ_le_zero _)
  · rintro - - star
    rcases head?_padded_feed pads isFeed' star with other | other | other <;> cases other

end Reaching

/-! ## Tokens in front of the end of a line -/

section Ending

variable {padding feed feed' rest rest' : Text} (isFeed : IsFeed feed) (isFeed' : IsFeed feed')
  (pads : ∀ c ∈ padding, isPadding c = true)
include isFeed'

theorem scan_padded_feed (pads : ∀ c ∈ padding, isPadding c = true) (rest' : Text) :
    ∃ soft taken, scan (padding ++ (feed' ++ rest')) =
        soft ++ ⟨.lineBreak, taken⟩ :: scan (rest'.drop (decorationLength rest')) ∧
      ∀ token ∈ soft, token.kind = .padding := by
  obtain ⟨taken, broken⟩ := scan_feed_append isFeed' rest'
  cases padding with
  | nil => exact ⟨[], taken, broken, List.forall_mem_nil _⟩
  | cons c padding =>
      refine ⟨[⟨.padding, c :: padding⟩], taken, ?_, List.forall_mem_singleton.mpr rfl⟩
      rw [List.cons_append, scan_padding pads fun _ => isPadding_of_head?_feed isFeed', broken]
      rfl

include isFeed pads

/--
The tokens in front of the end of a line are the same but for the last one when another
line follows, with padding in front of the line feed.  The last character in front of it
is no carriage return that the line feed could take up.
-/
theorem exists_scan_of_cut {front : Text} {tokens : List Token}
    (cut : scan (front ++ (feed ++ rest)) = tokens ++ scan (feed ++ rest))
    (covers : textOf tokens = front)
    (lone : front.getLast? = some '\r' → feed = ['\n']) (rest' : Text) :
    ∃ tokens' taken, scan (front ++ (padding ++ (feed' ++ rest'))) =
        tokens' ++ ⟨.lineBreak, taken⟩ :: scan (rest'.drop (decorationLength rest')) ∧
      SameButLast tokens tokens' := by
  induction front using piecewise generalizing tokens with
  | nil =>
      cases eq_nil_of_cut cut covers
      obtain ⟨soft, taken, whole, all⟩ := scan_padded_feed isFeed' pads rest'
      exact ⟨soft, taken, whole, (EndsAlike.padding (List.forall_mem_nil _) all).sameButLast⟩
  | cons c more ih =>
      have parted : (feed ++ rest).Parted :=
        @parted_padded_feed [] feed (List.forall_mem_nil _) isFeed rest
      obtain ⟨-, same, within, inner, behind, covered, joined⟩ :=
        exists_inner_of_cut cut covers parted
      rcases stops_or_reaches isFeed' pads (same.symm ▸ within) lone with stops |
        ⟨kind, taken, broken, reaches⟩
      · -- The piece stays as it is.
        have last : (more.drop (piece c more).2).getLast? = some '\r' → feed = ['\n'] := fun last =>
          lone (by
            obtain ⟨before, suffix⟩ :=
              (List.drop_suffix (piece c more).2 more).trans (List.suffix_cons c more)
            rw [← suffix, List.getLast?_append, last]
            rfl)
        obtain ⟨tokens', taken, later, alike⟩ := ih behind covered last
        refine ⟨prepend ⟨(piece c more).1, c :: more.take (piece c more).2⟩ tokens', taken, ?_,
          joined ▸ alike.prepend _⟩
        have kept := piece_append stops (parted_padded_feed pads isFeed' rest')
        rw [List.cons_append, scan_cons, kept, List.drop_append_of_le_length within,
          List.take_append_of_le_length within, later, prepend_append]
        rintro next ⟨⟩ ⟨⟩
      · -- The piece is the last one of its line.
        obtain ⟨fed, last⟩ := scan_feed_append reaches.isFeed rest'
        rw [reaches.whole, List.drop_length] at covered behind
        cases eq_nil_of_cut behind covered
        refine ⟨[⟨kind, c :: (more ++ taken)⟩], fed, ?_, joined ▸ ?_⟩
        · rw [List.cons_append, scan_cons, reaches.longer, reaches.split, ← List.append_assoc,
            List.drop_left, List.take_left, last]
          refine if_neg fun both => ?_
          cases both.2
        · rw [reaches.whole]
          rcases reaches.ends with rfl | rfl | rfl
          · exact (EndsAlike.other _ _).sameButLast
          · exact (EndsAlike.padding (List.forall_mem_singleton.mpr rfl)
              (List.forall_mem_singleton.mpr rfl)).sameButLast
          · exact (EndsAlike.lineBreak _ _).sameButLast

end Ending

end Token

end DocComment
