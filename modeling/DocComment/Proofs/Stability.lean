import DocComment.Comment.Edit
import DocComment.Proofs.Reading.Total
import DocComment.Proofs.Rendering.Opening
import DocComment.Proofs.Rendering.Retyped
import DocComment.Proofs.RoundTrip
import Mathlib.Logic.Relation

/-!
# What is written can be read again

A comment that was read and then edited step by step is written as a comment:
it has both markers, so it is read again, and written back as it is
(`stable_of_edited`).  The invariant of the edits is `Entry.Derived`: an entry
is new, or it was read as it is, or it is a tag that was read and has another
type now.
-/

namespace DocComment

open Token

namespace Comment

/-- One edit of a comment. -/
inductive Edited : Comment → Comment → Prop
  | remove (comment : Comment) (place : Nat) : Edited comment (comment.remove place)
  | keep (comment : Comment) (p : Entry → Bool) : Edited comment (comment.keep p)
  | swap {comment result : Comment} {first second : Nat}
      (swapped : comment.swap? first second = some result) : Edited comment result
  | move {comment result : Comment} {source target : Nat}
      (moved : comment.move? source target = some result) : Edited comment result
  | copy {comment result : Comment} {source target : Nat}
      (copied : comment.copy? source target = some result) : Edited comment result
  | addProse (comment : Comment) (place : Nat) (text : Text) :
      Edited comment (comment.insert place (.freshProse text))
  | addTag (comment : Comment) (place : Nat) (name : Text) (payload : Payload) :
      Edited comment (comment.insert place (.freshTag name payload))
  | retype {comment result : Comment} {place : Nat} {type : TypeExpr}
      (changed : comment.changeTag? place (Tag.changePayload? (Payload.withType? type)) =
        some result) : Edited comment result
  | setOneLine (comment : Comment) (onOneLine : Bool) : Edited comment { comment with onOneLine }

end Comment

/-! ## What editing makes of entries -/

/-- An entry as editing may leave it. -/
inductive Entry.Derived (asRead : Comment) : Entry → Prop
  | fresh {entry : Entry} (fresh : entry.span? = none) : Derived asRead entry
  | kept {entry : Entry} (mem : entry ∈ asRead.entries) : Derived asRead entry
  | retyped {tag original : Tag} (mem : .tag original ∈ asRead.entries)
      (span : tag.span = original.span) (name : tag.name = original.name)
      (wording : tag.wording = original.wording)
      (description : tag.payload.description? = original.payload.description?) :
      Derived asRead (.tag tag)

namespace Entry.Derived

variable {asRead : Comment} {entry : Entry}

/-- A derived tag that gets another type is derived. -/
theorem withType {tag changed : Tag} {type : TypeExpr} (derived : Derived asRead (.tag tag))
    (change : Tag.changePayload? (Payload.withType? type) tag = some changed) :
    Derived asRead (.tag changed) := by
  obtain ⟨payload, typed, rfl⟩ := Option.map_eq_some_iff.mp change
  have description : payload.description? = tag.payload.description? := by
    cases content : tag.payload with
    | typed subject description =>
        rw [content] at typed
        cases typed
        rfl
    | plain | call | cleared =>
        rw [content] at typed
        cases typed
  cases derived with
  | fresh fresh => exact .fresh fresh
  | kept mem => exact .retyped mem rfl rfl rfl description
  | retyped mem span name wording same =>
    exact .retyped mem span name wording (description.trans same)

/-- A derived entry has the span of one that was read, or none. -/
theorem span?_mem (derived : Derived asRead entry) {span : Span}
    (stands : entry.span? = some span) :
    span ∈ asRead.entries.filterMap Entry.span? := by
  cases derived with
  | fresh fresh =>
      rw [fresh] at stands
      cases stands
  | kept mem => exact List.mem_filterMap.mpr ⟨entry, mem, stands⟩
  | retyped mem same => exact List.mem_filterMap.mpr ⟨_, mem, same.symm.trans stands⟩

end Entry.Derived

namespace Comment

variable {asRead comment result : Comment}

theorem forall_mem_insert {p : Entry → Prop} (all : ∀ entry ∈ comment.entries, p entry)
    {new : Entry}
    (added : p new) (place : Nat) : ∀ entry ∈ (comment.insert place new).entries, p entry := by
  intro entry mem
  rcases List.mem_append.mp mem with front | back
  · exact all entry (List.mem_of_mem_take front)
  · rcases List.mem_cons.mp back with rfl | back
    · exact added
    · exact all entry (List.mem_of_mem_drop back)

theorem forall_mem_replace {p : Entry → Prop} (all : ∀ entry ∈ comment.entries, p entry)
    {new : Entry} (put : p new) (place : Nat) :
    ∀ entry ∈ (comment.replace place new).entries, p entry := by
  intro entry mem
  rcases List.mem_or_eq_of_mem_set mem with old | rfl
  · exact all entry old
  · exact put

theorem mem_of_entryAt {place : Nat} {entry : Entry} (stands : comment.entry? place = some entry) :
    entry ∈ comment.entries :=
  List.mem_of_getElem? stands

/-- Every edit leaves derived entries. -/
theorem Edited.derived (edited : Edited comment result)
    (derived : ∀ entry ∈ comment.entries, Entry.Derived asRead entry) :
    ∀ entry ∈ result.entries, Entry.Derived asRead entry := by
  cases edited with
  | remove place => exact fun entry mem => derived entry (List.mem_of_mem_eraseIdx mem)
  | keep p => exact fun entry mem => derived entry (List.mem_of_mem_filter mem)
  | swap swapped =>
      obtain ⟨one, first, swapped⟩ := Option.bind_eq_some_iff.mp swapped
      obtain ⟨other, second, finished⟩ := Option.bind_eq_some_iff.mp swapped
      cases finished
      have half := forall_mem_replace derived (derived other (mem_of_entryAt second))
      exact forall_mem_replace (half _) (derived one (mem_of_entryAt first)) _
  | move moved =>
      obtain ⟨entry, stands, finished⟩ := Option.bind_eq_some_iff.mp moved
      cases finished
      refine forall_mem_insert (fun other mem => ?_) (derived entry (mem_of_entryAt stands)) _
      exact derived other (List.mem_of_mem_eraseIdx mem)
  | copy copied =>
      obtain ⟨entry, stands, finished⟩ := Option.bind_eq_some_iff.mp copied
      cases finished
      exact forall_mem_insert derived (derived entry (mem_of_entryAt stands)) _
  | addProse place text => exact forall_mem_insert derived (.fresh rfl) place
  | addTag place name payload => exact forall_mem_insert derived (.fresh rfl) place
  | retype changed =>
      obtain ⟨entry, stands, changed⟩ := Option.bind_eq_some_iff.mp changed
      obtain ⟨tag, tagged, changed⟩ := Option.bind_eq_some_iff.mp changed
      obtain ⟨other, change, finished⟩ := Option.bind_eq_some_iff.mp changed
      cases finished
      cases entry with
      | prose => cases tagged
      | tag =>
          cases tagged
          exact forall_mem_replace derived ((derived _ (mem_of_entryAt stands)).withType change) _
  | setOneLine onOneLine => exact derived

/-- Whatever was edited, every entry is derived from those that were read. -/
theorem derived_of_edited (edits : Relation.ReflTransGen Edited asRead comment) :
    ∀ entry ∈ comment.entries, Entry.Derived asRead entry := by
  induction edits with
  | refl => exact fun entry mem => .kept mem
  | tail _ edited ih => exact edited.derived ih

end Comment

/-! ## Reading again -/

/-- A derived tag is written with its marker in front, and any other entry as before. -/
theorem Layout.settled_of_derived {dialect : Dialect} {text : Text} {document : Document}
    (forward : dialect.MovesForward) (run : dialect.read text = .ok document) {entry : Entry}
    (derived : Entry.Derived document.asRead entry) (comment : Comment) :
    Settled (document.withComment comment) entry := by
  intro span stands
  cases derived with
  | fresh fresh =>
      rw [fresh] at stands
      cases stands
  | kept mem => exact Or.inl mem
  | @retyped tag original mem _ name wording description =>
      by_cases read : .tag tag ∈ document.asRead.entries
      · exact Or.inl read
      · rw [← Dialect.comment_of_read run] at mem
        have found := Dialect.wasRead_of_read forward run _ mem
        rw [Dialect.tokens_of_read run] at found
        obtain ⟨marker, worded⟩ := Dialect.written_of_wasRead found
        have kept : tag.Worded := by
          unfold Tag.Worded
          rw [wording, description]
          exact worded
        have begins := tag.head?_renderChanged document.source kept (name ▸ marker)
        have rendered : (document.withComment comment).rendering (.tag tag) =
            decorate (tag.renderChanged document.source) := by
          unfold Document.rendering
          rw [stands]
          exact if_neg read
        refine Or.inr ?_
        rw [Text.Unslashed, rendered, Text.head?_decorate begins (by decide)]
        decide

/-- A comment that has both markers is read, and written back as it is. -/
theorem Dialect.render_of_marked {dialect : Dialect} {text : Text} (forward : dialect.MovesForward)
    (names : dialect.naming.NamesClasses) (marked : text.Marked) :
    ∃ document, dialect.read text = .ok document ∧ document.render = .ok text := by
  obtain ⟨document, run⟩ := exists_read_of_opens names marked.opens
  obtain ⟨opens, rendered⟩ := render_of_read_eq forward run
  refine ⟨document, run, ?_⟩
  rw [rendered, Cleanup.completeMarkers_of_closes opens marked.closes]

/--
A comment that was read and edited is written, as nothing exactly when all its
content was taken away, and what is written is read again and written back
unchanged.
-/
theorem stable_of_edited {dialect : Dialect} {text : Text} (verbatim : dialect.OnlyVerbatim)
    (names : dialect.naming.NamesClasses) (begins : text.Begins) :
    ∃ document, dialect.read text = .ok document ∧
      ∀ comment, Relation.ReflTransGen Comment.Edited document.comment comment →
        ∃ output, (document.withComment comment).render = .ok output ∧
          (output = [] ↔ document.asRead.isVoid = false ∧ comment.isVoid = true) ∧
          (output ≠ [] →
            ∃ printed, dialect.read output = .ok printed ∧ printed.render = .ok output) := by
  obtain ⟨document, run⟩ := Dialect.exists_read_of_opens names begins.opens
  refine ⟨document, run, fun comment edits => ?_⟩
  have forward := verbatim.movesForward
  obtain ⟨opening, close, spans, spans?, tiles, opened⟩ := Dialect.opened_of_read verbatim run
  have nonempty : document.tokens ≠ [] :=
    List.ne_nil_of_length_pos (Nat.zero_lt_of_lt (lt_length_of_kindAt? tiles.opens))
  have tokens := Dialect.tokens_of_read run
  rw [Dialect.comment_of_read run] at edits
  let edited := document.withComment comment
  by_cases void : (!edited.asRead.isVoid && edited.comment.isVoid) = true
  · refine ⟨[], Document.render_of_void nonempty void, iff_of_true rfl ?_, fun none => absurd rfl none⟩
    rwa [Bool.and_eq_true, Bool.not_eq_true'] at void
  · have derived := Comment.derived_of_edited edits
    have known : ∀ span ∈ comment.entries.filterMap Entry.span?, span ∈ spans := by
      intro span mem
      obtain ⟨entry, among, stands⟩ := List.mem_filterMap.mp mem
      rw [← Layout.filterMap_span? spans?]
      exact (derived entry among).span?_mem stands
    have laidOut : (edited.laidOut (Layout.leftOut edited spans)).1.Begins :=
      Layout.begins_laidOut tokens tiles opened begins spans? known fun entry mem =>
        Layout.settled_of_derived forward run (derived entry mem) comment
    have marked := Cleanup.marked_finish laidOut
      (edited.laidOut (Layout.leftOut edited spans)).2 comment.onOneLine
    refine ⟨_, Document.render_of_present nonempty ((Bool.not_eq_true _).mp void)
      (Layout.removedSpans_eq spans? tiles.precede), ?_, fun _ => ?_⟩
    · refine iff_of_false marked.opens.ne_nil fun emptied => void ?_
      rwa [Bool.and_eq_true, Bool.not_eq_true']
    · exact Dialect.render_of_marked forward names marked

/-- A type changed, a tag removed, prose with a closing marker added, and all put on one line. -/
theorem stable_of_edited_oneLine :
    let dialect : Dialect :=
      ⟨[.verbatim ["@raw".toList]], ⟨.constant "Data".toList, ⟨none, []⟩, .empty⟩⟩
    let comment : Comment := ⟨[.freshProse "*/ more".toList, .tag ⟨"@param".toList,
      .typed (.param (some (.named "string".toList)) false false "$x".toList) "one".toList,
        some ⟨2, 7⟩, none⟩], true⟩
    ∃ document printed,
      dialect.read "/** @param int $x one\n * @raw (1)\n */".toList = .ok document ∧
        Relation.ReflTransGen Comment.Edited document.comment comment ∧
        (document.withComment comment).render = .ok "/** */ more @param string $x one */".toList ∧
        dialect.read "/** */ more @param string $x one */".toList = .ok printed ∧
        printed.render = .ok "/** */ more @param string $x one */".toList := by
  intro dialect comment
  have verbatim : dialect.OnlyVerbatim := fun rule mem =>
    ⟨["@raw".toList], List.mem_singleton.mp mem⟩
  have names : dialect.naming.NamesClasses := by
    rintro _ _ ⟨⟩
    decide
  have begins : Text.Begins "/** @param int $x one\n * @raw (1)\n */".toList :=
    ⟨[], _, by simp, rfl, by decide⟩
  obtain ⟨document, run, stable⟩ := stable_of_edited verbatim names begins
  have read : document.comment = .ofEntries [.tag ⟨"@param".toList, .typed (.param
      (some (.named "int".toList)) false false "$x".toList) "one".toList, some ⟨2, 7⟩, none⟩,
      .tag ⟨"@raw".toList, .plain "(1)".toList, some ⟨11, 5⟩, none⟩] := by
    cases run
    rfl
  have edits : Relation.ReflTransGen Comment.Edited document.comment comment := by
    rw [read]
    exact (((Relation.ReflTransGen.refl.tail (.remove _ 1)).tail (.addProse _ 0 "*/ more".toList)).tail
      (.setOneLine _ true)).tail (@Comment.Edited.retype _ _ 1 (.named "string".toList) rfl)
  obtain ⟨output, rendered, _, again⟩ := stable comment edits
  have written : output = "/** */ more @param string $x one */".toList := by
    refine Except.ok.inj (rendered.symm.trans ?_)
    cases run
    decide +kernel
  subst written
  obtain ⟨printed, reread, same⟩ := again (by decide)
  exact ⟨document, printed, run, edits, rendered, reread, same⟩

end DocComment
