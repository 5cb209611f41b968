import DocComment.Proofs.Reading.Failing
import DocComment.Proofs.Reading.Origin

/-!
# Tags that are named by imports

The resolver by aliases and imports names a class for every tag that it claims, but for one case: a
tag stands for an import as a whole, and what the import gives is blank, empty or nothing but
backslashes (`Resolver.imports_nameless_iff`).  Names of tags begin with a letter or an underscore
and end in no backslash (`Token.namesTag_of_tagName`), so a full name, an alias, the rest behind an
imported segment and a name in the namespace always leave something.
-/

namespace DocComment

open Token

/-! ## Names of tags -/

namespace Token

/-- A text that the name of a tag can be: the marker and a name that ends in no backslash. -/
def NamesTag (tag : Text) : Prop :=
  ∃ first body, tag = '@' :: first :: body ∧ isNameStart first = true ∧
    ∀ last, (first :: body).getLast? = some last → isNameChar last = true

/-- Every segment of a name ends in a character of a name. -/
theorem isNameChar_of_getLast?_segments {text : Text} {last : Char}
    (found : (text.take (segmentsLength text)).getLast? = some last) : isNameChar last = true := by
  fun_induction segmentsLength text with
  | case1 | case3 | case6 => cases found
  | case2 c inside =>
      cases found
      exact inside
  | case4 c d rest inside ih =>
      rw [List.take_succ_cons, List.getLast?_cons] at found
      cases later : ((d :: rest).take (segmentsLength (d :: rest))).getLast? with
      | none =>
          rw [later] at found
          cases found
          exact inside
      | some other =>
          rw [later] at found
          cases found
          exact ih later
  | case5 c d rest _ slash ih =>
      rw [List.take_succ_cons, List.take_succ_cons, List.getLast?_cons_cons,
        List.getLast?_cons] at found
      cases later : (rest.take (segmentsLength rest)).getLast? with
      | none =>
          rw [later] at found
          cases found
          exact isNameChar_of_isNameStart (Bool.and_eq_true_iff.mp slash).2
      | some other =>
          rw [later] at found
          cases found
          exact ih later

theorem isNameChar_of_getLast?_name {token : Token} (cut : token.IsPiece)
    (kind : token.kind = .name) {last : Char}
    (found : token.text.getLast? = some last) : isNameChar last = true := by
  obtain ⟨c, rest, length, cut, written⟩ := cut.exists_cut kind
  rw [written, List.getLast?_cons] at found
  have behind (text : Text) (first : Char) (starts : isNameStart first = true)
      (found : (text.take (segmentsLength text)).getLast?.getD first = last) :
      isNameChar last = true := by
    cases later : (text.take (segmentsLength text)).getLast? with
    | none =>
        rw [later] at found
        exact found ▸ isNameChar_of_isNameStart starts
    | some other =>
        rw [later] at found
        exact found ▸ isNameChar_of_getLast?_segments later
  cases cut with
  | rooted more starts =>
      rw [List.take_succ_cons, List.getLast?_cons] at found
      exact behind more _ starts (Option.some.inj found)
  | name _ starts => exact behind rest c starts (Option.some.inj found)
  | mark _ marks => cases Kind.isMark_of_markKind? marks

theorem namesTag_of_isPiece {token : Token} (cut : token.IsPiece) (kind : token.kind = .tag) :
    NamesTag token.text := by
  obtain ⟨c, rest, length, cut, written⟩ := cut.exists_cut kind
  cases cut with
  | @tag d more starts =>
      refine ⟨d, _, written.trans (congrArg _ (List.take_succ_cons)), starts, fun last found => ?_⟩
      rcases List.mem_cons.mp (List.mem_of_getLast? found) with rfl | mem
      · exact isNameChar_of_isNameStart starts
      · exact mem_take_runLength isNameChar more last mem
  | mark _ marks => cases Kind.isMark_of_markKind? marks

theorem NamesTag.append {tag name : Text} (names : NamesTag tag)
    (ends : ∀ last, name.getLast? = some last → isNameChar last = true) :
    NamesTag (tag ++ name) := by
  obtain ⟨first, body, rfl, starts, own⟩ := names
  refine ⟨first, body ++ name, rfl, starts, fun last found => ?_⟩
  rw [← List.cons_append, List.getLast?_append] at found
  cases later : name.getLast? with
  | none => exact own last (by rwa [later] at found)
  | some c =>
      rw [later] at found
      cases found
      exact ends _ later

theorem namesTag_of_tagName {dialect : Dialect} {text tag : Text} {place behind : Cursor}
    (tokens : place.tokens = scan text)
    (marked : place.isAt .tag = true) (named : Dialect.tagName dialect place = .ok tag behind) :
    NamesTag tag := by
  have own : NamesTag place.text :=
    namesTag_of_isPiece (Cursor.isPiece_of_kind? tokens (beq_iff_eq.mp marked) (by decide)) rfl
  rcases Dialect.tagName_eq_ok named with ⟨rfl, -⟩ | ⟨glued, rfl, -⟩
  · exact own
  · have tokens' := (Cursor.tokens_step place).trans tokens
    exact own.append fun last found =>
      isNameChar_of_getLast?_name
        (Cursor.isPiece_of_kind? tokens' (beq_iff_eq.mp glued) (by decide)) rfl found

end Token

/-! ## The resolver by imports -/

/-- An import stands for a name, with no alias in front of it, and what it gives is blank. -/
structure Scope.ImportsBlank (aliases : Table) (scope : Scope) (name : Text) : Prop where
  whole : '\\' ∉ name
  unaliased : aliases.get? name = none
  blank : ∃ target, scope.imports.get? name = some target ∧ target.all (· == '\\') = true

namespace Resolver

theorem dropBackslashes_eq_nil_iff {name : Text} :
    dropBackslashes name = [] ↔ name.all (· == '\\') = true := by
  simp [dropBackslashes]

theorem unlessEmpty_eq_some_iff {text name : Text} :
    unlessEmpty text = some name ↔ text = name ∧ name ≠ [] := by
  unfold unlessEmpty
  cases text with
  | nil => simp
  | cons c rest =>
      simp only [List.isEmpty_cons, Bool.false_eq_true, if_false, Option.some_inj]
      constructor
      · rintro rfl
        exact ⟨rfl, List.cons_ne_nil _ _⟩
      · exact And.left

/-- Where no backslash stands in front, a name that is not empty is not blank. -/
theorem eq_nil_of_all {name : Text} (bare : name.head? ≠ some '\\')
    (blank : name.all (· == '\\') = true) : name = [] := by
  cases name with
  | nil => rfl
  | cons c rest =>
      have slash : c = '\\' := beq_iff_eq.mp (Bool.and_eq_true_iff.mp blank).1
      exact absurd (congrArg some slash) bare

theorem head?_dropBackslashes (name : Text) : (dropBackslashes name).head? ≠ some '\\' := by
  intro slash
  have front := List.head?_dropWhile_not (· == '\\') name
  rw [dropBackslashes] at slash
  rw [slash] at front
  cases front

theorem eq_append_of_splitFirst? {c : Char} {text segment others : Text}
    (divided : Text.splitFirst? [c] text = some (segment, others)) :
    text = segment ++ c :: others := by
  obtain ⟨fitting, rfl, fits⟩ := Text.eq_append_of_splitFirstBy? divided
  exact congrArg (segment ++ ·) (Text.eq_append_of_after? fits)

theorem not_mem_of_splitFirst? {c : Char} {text : Text} (whole : Text.splitFirst? [c] text = none) :
    c ∉ text := by
  intro mem
  obtain ⟨front, behind, rfl⟩ := List.append_of_mem mem
  have found :=
    Text.isSome_splitFirstBy?_after?.mpr (⟨front, behind, by simp⟩ : [c] <:+: front ++ c :: behind)
  rw [← Text.splitFirst?, whole] at found
  cases found

variable {aliases : Table} {inNamespace : Bool} {scope : Scope} {tag name : Text}

/-- A name that ends as the name of a tag is not blank. -/
theorem not_blank_of_suffix {front tail : Text}
    (ends : ∀ last, name.getLast? = some last → isNameChar last = true)
    (suffix : tail <:+ name) (proper : tail ≠ []) : ¬(front ++ tail).all (· == '\\') = true := by
  intro blank
  have found := List.getLast?_eq_some_getLast proper
  have slash :=
    List.all_eq_true.mp blank _ (List.mem_append_right front (List.mem_of_getLast? found))
  have named := ends _ (Text.getLast?_of_suffix suffix found)
  rw [beq_iff_eq.mp slash] at named
  cases named

/-- The resolver names no class for a tag just where it stands for an import with a blank name. -/
theorem imports_nameless_iff (names : NamesTag tag) :
    imports aliases inNamespace scope tag = some name ∧ name.all (· == '\\') = true ↔
      scope.ImportsBlank aliases (tag.dropWhile (· == '@')) ∧ name = [] := by
  obtain ⟨first, body, rfl, starts, ends⟩ := names
  have slash : first ≠ '\\' := ne_of_class (by decide) starts
  have marker : (first == '@') = false := beq_eq_false_iff_ne.mpr (ne_of_class (by decide) starts)
  have bare : ('@' :: first :: body).dropWhile (· == '@') = first :: body := by
    rw [List.dropWhile_cons_of_pos (by decide), List.dropWhile_cons_of_neg (by simp [marker])]
  rw [bare]
  simp only [imports, bare]
  cases aliased : aliases.get? (first :: body) with
  | some target =>
      -- An alias gives what is left of its target, or nothing.
      constructor
      · rintro ⟨given, blank⟩
        obtain ⟨rfl, proper⟩ := unlessEmpty_eq_some_iff.mp given
        exact absurd (eq_nil_of_all (head?_dropBackslashes target) blank) proper
      · rintro ⟨blank, -⟩
        cases aliased.symm.trans blank.unaliased
  | none =>
      dsimp only
      cases divided : Text.splitFirst? ['\\'] (first :: body) with
      | none =>
          have whole : '\\' ∉ first :: body := not_mem_of_splitFirst? divided
          dsimp only
          cases imported : scope.imports.get? (first :: body) with
          | some target =>
              simp only [Option.map_none, Option.getD_none, List.append_nil, Option.some_inj]
              constructor
              · rintro ⟨rfl, blank⟩
                have nothing := eq_nil_of_all (head?_dropBackslashes target) blank
                exact ⟨⟨whole, aliased, target, imported, dropBackslashes_eq_nil_iff.mp nothing⟩,
                  nothing⟩
              · rintro ⟨⟨-, -, other, found, blank⟩, rfl⟩
                cases imported.symm.trans found
                exact ⟨dropBackslashes_eq_nil_iff.mpr blank, rfl⟩
          | none =>
              -- A name in the namespace ends in the name of the tag.
              constructor
              · rintro ⟨given, blank⟩
                dsimp only at given
                split at given
                next =>
                  obtain ⟨space, -, rfl⟩ := Option.map_eq_some_iff.mp given
                  rw [List.append_cons] at blank
                  exact absurd blank
                    (not_blank_of_suffix ends List.suffix_rfl (List.cons_ne_nil _ _))
                next => cases given
              · rintro ⟨⟨-, -, other, found, -⟩, -⟩
                cases imported.symm.trans found
      | some found =>
          obtain ⟨segment, others⟩ := found
          have split := eq_append_of_splitFirst? divided
          constructor
          · rintro ⟨given, blank⟩
            dsimp only at given
            split at given
            next target =>
              -- The rest behind the imported segment does not end in a backslash.
              cases given
              exact absurd blank
                (not_blank_of_suffix ends (split ▸ List.suffix_append _ _) (List.cons_ne_nil _ _))
            next => simp at given
          · rintro ⟨⟨whole, -, -⟩, -⟩
            exact absurd (split ▸ List.mem_append_right segment List.mem_cons_self) whole

end Resolver

/-! ## Comments -/

namespace Dialect

variable {dialect : Dialect}

/-- The reader of a text stands on its tokens wherever an entry starts. -/
theorem tokens_of_startsAt (forward : dialect.MovesForward) {text : Text} {place : Cursor}
    (starts : dialect.StartsAt text place) : place.tokens = scan text := by
  have later {cursor place : Cursor} (comes : dialect.ComesTo cursor place) :
      place.tokens = cursor.tokens := by
    induction comes with
    | here => exact Cursor.tokens_advance _
    | line _ _ run _ ih =>
        obtain ⟨_, stands⟩ := stands_of_entry forward run
        exact ih.trans (stands.tokens.trans (Cursor.tokens_advance _))
    | rest _ run _ ih =>
        obtain ⟨_, stands⟩ := stands_of_prose run
        exact ih.trans stands.tokens
  have first : (firstPlace text).tokens = scan text := by
    rw [firstPlace, Cursor.tokens_accept, Cursor.tokens_advance, Cursor.ofTokens,
      Cursor.tokens_placed]
  cases starts with
  | first => exact first
  | later _ run comes =>
      obtain ⟨_, stands⟩ := stands_of_entry forward run
      exact (later comes).trans (stands.tokens.trans first)

/-- The dialect without rules, in which aliases and imports make annotations of tags. -/
def byImports (aliases : Table) (inNamespace : Bool) (scope : Scope) (keys : SilentKeys) : Dialect :=
  ⟨[], ⟨.imports aliases inNamespace, scope, keys⟩⟩

/--
A text that opens is not read just where a tag, for which there is no grammar or none that
fits, stands for an import with a blank name.  So every such text is read where no import
has a blank name, or only imports that an alias stands in front of.
-/
theorem read_byImports_iff {aliases : Table} {inNamespace : Bool} {scope : Scope} {keys : SilentKeys} {text : Text}
    (opens : text.Opens) :
    let dialect := byImports aliases inNamespace scope keys
    (∀ failure, dialect.read text = .error failure ↔
      ∃ place tag behind, dialect.StartsAt text place ∧ place.isAt .tag = true ∧
        tagName dialect place = .ok tag behind ∧ dialect.Unfit tag behind ∧
        scope.ImportsBlank aliases (tag.dropWhile (· == '@')) ∧ failure = .unresolved tag []) ∧
    ((∀ name target, aliases.get? name = none → scope.imports.get? name = some target →
      target.all (· == '\\') = false) → ∃ document, dialect.read text = .ok document) := by
  intro dialect
  have forward : dialect.MovesForward := fun _ mem => nomatch mem
  have fails (failure : Failure) : dialect.read text = .error failure ↔
      ∃ place tag behind, dialect.StartsAt text place ∧ place.isAt .tag = true ∧
        tagName dialect place = .ok tag behind ∧ dialect.Unfit tag behind ∧
        scope.ImportsBlank aliases (tag.dropWhile (· == '@')) ∧ failure = .unresolved tag [] := by
    rw [read_eq_error_iff_of_opens forward opens]
    constructor
    · rintro ⟨place, starts, failed⟩
      obtain ⟨tag, name, ⟨marked, ⟨behind, named, unfit⟩, nameless⟩, rfl⟩ := fails_entry_iff.mp failed
      have names := namesTag_of_tagName (tokens_of_startsAt forward starts) marked named
      obtain ⟨blank, rfl⟩ := (Resolver.imports_nameless_iff names).mp ⟨nameless.claimed, nameless.nameless⟩
      exact ⟨place, tag, behind, starts, marked, named, unfit, blank, rfl⟩
    · rintro ⟨place, tag, behind, starts, marked, named, unfit, blank, rfl⟩
      have names := namesTag_of_tagName (tokens_of_startsAt forward starts) marked named
      obtain ⟨claimed, nameless⟩ := (Resolver.imports_nameless_iff names).mpr ⟨blank, rfl⟩
      exact ⟨place, starts, fails_entry_iff.mpr ⟨tag, [], ⟨marked, ⟨behind, named, unfit⟩, claimed, nameless⟩, rfl⟩⟩
  refine ⟨fails, fun proper => ?_⟩
  cases run : dialect.read text with
  | ok document => exact ⟨document, rfl⟩
  | error failure =>
      obtain ⟨_, tag, _, -, -, -, -, ⟨-, unaliased, target, imported, blank⟩, -⟩ := (fails failure).mp run
      rw [proper _ target unaliased imported] at blank
      cases blank

/-- A blank target is never asked for where an alias stands in front of it. -/
theorem read_byImports_aliased :
    let aliases : Table := [("A".toList, "X\\Y".toList)]
    let scope : Scope := ⟨some ['\\'], [("A".toList, ['\\']), ("ORM".toList, "\\Mapping".toList)]⟩
    let text : Text := "/**\n * @A(1)\n * @ORM\\Column\n * @B */".toList
    text.Opens ∧
      (∀ name target, aliases.get? name = none → scope.imports.get? name = some target →
        target.all (· == '\\') = false) ∧
      ∃ document, (byImports aliases true scope .empty).read text = .ok document := by
  intro aliases scope text
  have opens : text.Opens := ⟨[], "\n * @A(1)\n * @ORM\\Column\n * @B */".toList, nofun, rfl⟩
  have proper : ∀ name target, aliases.get? name = none → scope.imports.get? name = some target →
      target.all (· == '\\') = false := by
    intro name target unaliased imported
    rw [Table.get?, List.lookup_cons] at unaliased imported
    split at unaliased
    next => cases unaliased
    next other =>
      rw [other] at imported
      obtain ⟨_, _, same, -⟩ := List.lookup_eq_some_iff.mp imported
      have mem : (name, target) ∈ [("ORM".toList, "\\Mapping".toList)] := same ▸ by simp
      rw [(Prod.mk.inj (List.mem_singleton.mp mem)).2]
      decide
  exact ⟨opens, proper, (read_byImports_iff opens).2 proper⟩

/-- A tag that is imported under an empty name keeps its whole comment from being read. -/
theorem not_read_byImports_blank :
    Text.Opens "/** @ORM */".toList ∧
      (byImports [] false ⟨none, [("ORM".toList, [])]⟩ .empty).read "/** @ORM */".toList =
        .error (.unresolved "@ORM".toList []) :=
  ⟨⟨[], " @ORM */".toList, nofun, rfl⟩, by decide +kernel⟩

end Dialect

end DocComment
