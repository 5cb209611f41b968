import DocComment.Proofs.Reading.Order
import DocComment.Proofs.Rendering.Markers
import DocComment.Proofs.Token.Forward

/-!
# Reading succeeds

A failed rule or grammar only makes a payload plain, so a comment that opens is
read unless the resolver claims a tag and names no class for it
(`exists_read_of_opens`).
-/

namespace DocComment

open Token

namespace Token

/-- The first token behind padding is the opening marker with which a text begins. -/
theorem kind?_ofTokens_of_opens {text : Text} (opens : text.Opens) :
    (Cursor.ofTokens (scan text)).kind? = some .opening := by
  obtain ⟨padding, rest, pads, rfl⟩ := opens
  cases padding with
  | nil =>
      rw [List.nil_append, scan_opener]
      rfl
  | cons c padding =>
      rw [List.cons_append, scan_padding pads (by simp [Cleanup.opener, isPadding]), scan_opener]
      rfl

end Token

/-- Whether every tag that is an annotation has the name of a class. -/
def Naming.NamesClasses (naming : Naming) : Prop :=
  ∀ tag name, naming.resolve tag = some name → (name.all (· == '\\')) = false

namespace Read

variable {α β : Type}

/-- The reader does not fail at the cursor. -/
def Succeeds (read : Read α) (cursor : Cursor) : Prop :=
  ∃ value after, read cursor = .ok value after

theorem succeeds_pure (value : α) (cursor : Cursor) : Succeeds (pure value) cursor :=
  ⟨value, cursor, rfl⟩

theorem succeeds_bind {read : Read α} {next : α → Read β} {cursor : Cursor}
    (front : Succeeds read cursor) (back : ∀ value after, Succeeds (next value) after) :
    Succeeds (read >>= next) cursor := by
  obtain ⟨value, middle, run⟩ := front
  obtain ⟨result, after, ran⟩ := back value middle
  exact ⟨result, after, (run_bind_of_ok run).trans ran⟩

theorem succeeds_get_bind {next : Cursor → Read α} {cursor : Cursor}
    (back : Succeeds (next cursor) cursor) : Succeeds (get >>= next) cursor :=
  back

theorem succeeds_move (f : Cursor → Cursor) (cursor : Cursor) : Succeeds (move f) cursor :=
  ⟨(), f cursor, rfl⟩

theorem succeeds_accept (kind : Kind) (cursor : Cursor) : Succeeds (accept kind) cursor :=
  ⟨_, _, run_accept kind cursor⟩

theorem succeeds_attempt (read : Read α) (cursor : Cursor) : Succeeds (attempt read) cursor := by
  unfold Succeeds attempt
  cases read cursor with
  | ok value after => exact ⟨_, _, rfl⟩
  | error failure after => exact ⟨_, _, rfl⟩

theorem succeeds_expect {kind : Kind} {cursor : Cursor} (stands : cursor.kind? = some kind) :
    Succeeds (expect kind) cursor := by
  obtain ⟨token, found, same⟩ := Option.map_eq_some_iff.mp stands
  obtain ⟨rest, whole⟩ := List.head?_eq_some_iff.mp found
  refine ⟨token, cursor.advance, ?_⟩
  unfold expect
  rw [run_get_bind, whole]
  dsimp only
  rw [if_pos same]
  rfl

end Read

namespace Dialect

open Read

variable {dialect : Dialect}

theorem succeeds_tagName (cursor : Cursor) : Succeeds (tagName dialect) cursor := by
  refine succeeds_get_bind (succeeds_bind (succeeds_move _ _) fun _ _ => succeeds_get_bind ?_)
  split
  next => exact succeeds_bind (succeeds_move _ _) fun _ _ => succeeds_pure _ _
  next => exact succeeds_bind (succeeds_move _ _) fun _ _ => succeeds_pure _ _

theorem succeeds_specificPayload (tag : Text) (cursor : Cursor) :
    Succeeds (specificPayload dialect tag) cursor := by
  unfold specificPayload
  split
  next => exact succeeds_bind (succeeds_attempt _ _) fun _ _ => succeeds_pure _ _
  next =>
    split
    next => exact succeeds_attempt _ _
    next => exact succeeds_pure _ _

theorem succeeds_prose (cursor : Cursor) : Succeeds prose cursor :=
  ⟨_, _, rfl⟩

section Naming

variable (names : dialect.naming.NamesClasses)
include names

theorem exists_plainOrAnnotation (tag text : Text) :
    ∃ payload, dialect.plainOrAnnotation tag text = .ok payload := by
  unfold plainOrAnnotation
  split
  next => exact ⟨_, rfl⟩
  next name claimed =>
    rw [names tag name claimed, if_neg Bool.false_ne_true]
    split
    next => exact ⟨_, rfl⟩
    next => exact ⟨_, rfl⟩
    next => exact ⟨_, rfl⟩

theorem succeeds_payload (tag : Text) (cursor : Cursor) :
    Succeeds (payload dialect tag) cursor := by
  refine succeeds_bind (succeeds_specificPayload tag cursor) fun result middle => ?_
  cases result with
  | some result => exact succeeds_pure _ _
  | none =>
      refine succeeds_bind (succeeds_bind ⟨_, _, rfl⟩ fun text _ => ?_) fun _ _ => succeeds_pure _ _
      obtain ⟨payload, kept⟩ := exists_plainOrAnnotation names tag text
      rw [kept]
      exact succeeds_pure _ _

theorem succeeds_entry (cursor : Cursor) : Succeeds (entry dialect) cursor := by
  apply succeeds_get_bind
  split
  next =>
    apply succeeds_get_bind
    refine succeeds_bind (succeeds_tagName _) fun name _ => ?_
    refine succeeds_bind (succeeds_payload names name _) fun content _ => succeeds_get_bind ?_
    dsimp only
    split
    next => exact succeeds_bind (succeeds_move _ _) fun _ _ => succeeds_pure _ _
    next => exact succeeds_pure _ _
  next => exact succeeds_prose cursor

theorem succeeds_furtherEntries (bound : Nat) (cursor : Cursor) :
    Succeeds (furtherEntries dialect bound) cursor := by
  induction bound generalizing cursor with
  | zero => exact succeeds_pure _ _
  | succ bound ih =>
      apply succeeds_get_bind
      split
      next => exact succeeds_pure _ _
      next =>
        refine succeeds_bind (succeeds_accept _ _) fun broken _ => ?_
        split
        next =>
          apply succeeds_get_bind
          split
          next => exact succeeds_pure _ _
          next =>
            refine succeeds_bind (succeeds_entry names _) fun _ middle => ?_
            exact succeeds_bind (ih middle) fun _ _ => succeeds_pure _ _
        next =>
          refine succeeds_bind (succeeds_prose _) fun _ middle => ?_
          exact succeeds_bind (ih middle) fun _ _ => succeeds_pure _ _

theorem succeeds_entries (cursor : Cursor) : Succeeds (entries dialect) cursor := by
  apply succeeds_get_bind
  split
  next => exact succeeds_pure _ _
  next =>
    refine succeeds_bind (succeeds_entry names _) fun _ _ => succeeds_get_bind ?_
    exact succeeds_bind (succeeds_furtherEntries names _ _) fun _ _ => succeeds_pure _ _

/-- A comment that opens is read when every annotation has the name of a class. -/
theorem exists_read_of_opens {text : Text} (opens : text.Opens) :
    ∃ document, dialect.read text = .ok document := by
  have whole : Succeeds (comment dialect) (Cursor.ofTokens (scan text)) := by
    refine succeeds_bind (succeeds_expect (kind?_ofTokens_of_opens opens)) fun _ _ => ?_
    refine succeeds_bind (succeeds_accept _ _) fun _ _ => ?_
    refine succeeds_bind (succeeds_entries names _) fun _ _ => ?_
    exact succeeds_bind (succeeds_accept _ _) fun _ _ => succeeds_pure _ _
  obtain ⟨found, after, run⟩ := whole
  refine ⟨Document.ofComment found (scan text), ?_⟩
  unfold Dialect.read Read.valueAt
  dsimp only
  rw [run]
  rfl

end Naming

end Dialect

end DocComment
