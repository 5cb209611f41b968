import DocComment.Dialect.Reader
import DocComment.Settings
import Mathlib.Data.List.DropRight
import Mathlib.Data.List.Induction
import Mathlib.Data.List.Nodup

/-!
# Keys of positional arguments

A key can be set in two ways, by insertion and by a table of the settings.  Insertion drops the
backslashes in front of a name and the table does not, while every look-up drops them
(`get?_ofList_eq_some_iff`, `get?_eq_some_iff_mem`).  So the two answer alike just where no name is
written with a backslash in front (`alike_ofList_iff`).  Reading looks at keys through
look-ups alone: namings that answer alike read every payload and every comment alike
(`Naming.Alike.ofPayload`, `Naming.Alike.read`).
-/

namespace DocComment

/-! ## Tables -/

namespace Table

theorem get?_insert (table : Table) (name text other : Text) :
    (table.insert name text).get? other = if other = name then some text else table.get? other := by
  have kept : other ≠ name →
      List.lookup other (table.filter fun entry => entry.1 != name) = List.lookup other table := by
    intro differs
    induction table with
    | nil => rfl
    | cons entry table ih =>
        by_cases here : entry.1 = name
        · have passed : (other == entry.1) = false := beq_eq_false_iff_ne.mpr (here ▸ differs)
          rw [List.filter_cons_of_neg (by simp [here]), List.lookup_cons, passed]
          exact ih
        · rw [List.filter_cons_of_pos (by simpa using here), List.lookup_cons, List.lookup_cons, ih]
  rw [get?, insert, List.lookup_cons]
  by_cases same : other = name
  · rw [if_pos same, beq_iff_eq.mpr same]
  · rw [if_neg same, beq_eq_false_iff_ne.mpr same]
    exact kept same

/-- In a table without repeated names every entry counts. -/
theorem get?_eq_some_iff_mem {table : Table} (distinct : (table.map Prod.fst).Nodup)
    {name text : Text} :
    table.get? name = some text ↔ (name, text) ∈ table := by
  induction table with
  | nil => simp [get?]
  | cons entry table ih =>
      obtain ⟨fresh, distinct⟩ := List.nodup_cons.mp distinct
      have later := ih distinct
      rw [get?, List.lookup_cons, List.mem_cons]
      by_cases here : name = entry.1
      · subst here
        have absent : (entry.1, text) ∉ table := fun mem => fresh (List.mem_map.mpr ⟨_, mem, rfl⟩)
        simp [absent, Prod.ext_iff, eq_comm]
      · rw [beq_eq_false_iff_ne.mpr here]
        have other : (name, text) ≠ entry := fun same => here (congrArg Prod.fst same)
        simpa [other, get?] using later

end Table

/-! ## Backslashes -/

theorem dropBackslashes_eq_self_iff {name : Text} :
    dropBackslashes name = name ↔ Text.startsWith ['\\'] name = false := by
  cases name with
  | nil => simp [dropBackslashes, Text.startsWith, Text.after?]
  | cons c rest =>
      by_cases slash : c = '\\'
      · subst slash
        have shorter : (dropBackslashes rest).length ≤ rest.length :=
          (List.dropWhile_suffix _).length_le
        have unequal : dropBackslashes ('\\' :: rest) ≠ '\\' :: rest := by
          intro same
          have lengths := congrArg List.length same
          rw [dropBackslashes, List.dropWhile_cons_of_pos (by simp)] at lengths
          rw [dropBackslashes] at shorter
          rw [List.length_cons] at lengths
          omega
        simp [unequal, Text.startsWith, Text.after?]
      · simp [dropBackslashes, Text.startsWith, Text.after?, slash, Ne.symm slash]

theorem dropBackslashes_dropBackslashes (name : Text) :
    dropBackslashes (dropBackslashes name) = dropBackslashes name :=
  List.dropWhile_idempotent _ _

namespace SilentKeys

/-! ## Two ways to set keys -/

variable {pairs written given : List (Text × Text)} {name key : Text}

theorem get?_insert (keys : SilentKeys) (name key other : Text) :
    (keys.insert name key).get? other =
      if dropBackslashes other = dropBackslashes name then some key else keys.get? other :=
  Table.get?_insert _ _ _ _

/-- Among inserted names without repetition, however they are written, every one has its key. -/
theorem get?_ofList_eq_some_iff (distinct : (pairs.map fun pair => dropBackslashes pair.1).Nodup) :
    (ofList pairs).get? name = some key ↔
      ∃ pair ∈ pairs, dropBackslashes pair.1 = dropBackslashes name ∧ pair.2 = key := by
  induction pairs using List.reverseRecOn with
  | nil => simp [ofList, empty, get?, Table.get?]
  | append_singleton pairs last ih =>
      rw [List.map_append, List.nodup_append] at distinct
      obtain ⟨distinct, -, fresh⟩ := distinct
      have step : ofList (pairs ++ [last]) = (ofList pairs).insert last.1 last.2 := by
        simp [ofList, List.foldl_append]
      rw [step, get?_insert]
      by_cases here : dropBackslashes name = dropBackslashes last.1
      · have absent : ¬ ∃ pair ∈ pairs, dropBackslashes pair.1 = dropBackslashes name ∧
            pair.2 = key := by
          rintro ⟨pair, mem, same, -⟩
          exact fresh _ (List.mem_map.mpr ⟨pair, mem, rfl⟩) _ (by simp) (same.trans here)
        rw [if_pos here, Option.some_inj]
        constructor
        · rintro rfl
          exact ⟨last, by simp, here.symm, rfl⟩
        · rintro ⟨pair, mem, same, found⟩
          rcases List.mem_append.mp mem with mem | mem
          · exact absurd ⟨pair, mem, same, found⟩ absent
          · rw [List.mem_singleton.mp mem] at found
            exact found
      · rw [if_neg here, ih distinct]
        constructor
        · rintro ⟨pair, mem, found⟩
          exact ⟨pair, List.mem_append_left _ mem, found⟩
        · rintro ⟨pair, mem, same, found⟩
          rcases List.mem_append.mp mem with mem | mem
          · exact ⟨pair, mem, same, found⟩
          · rw [List.mem_singleton.mp mem] at same
            exact absurd same.symm here

/--
A table of keys and the insertion of the same pairs give every name the same
key just where no pair is written with a backslash in front.
-/
theorem alike_ofList_iff (distinct : (given.map fun pair => dropBackslashes pair.1).Nodup)
    (same : written.Perm given) :
    (∀ name, get? ⟨written⟩ name = (ofList given).get? name) ↔
      ∀ pair ∈ given, Text.startsWith ['\\'] pair.1 = false := by
  have once : (written.map Prod.fst).Nodup := by
    refine List.Nodup.of_map dropBackslashes ?_
    rw [List.map_map]
    exact (same.map _).nodup_iff.mpr distinct
  have looked (name key : Text) :
      get? ⟨written⟩ name = some key ↔ (dropBackslashes name, key) ∈ given :=
    (Table.get?_eq_some_iff_mem once).trans same.mem_iff
  constructor
  · intro alike pair mem
    -- The inserted name has its key, so the table has one for the name without backslashes.
    have inserted : (ofList given).get? pair.1 = some pair.2 :=
      (get?_ofList_eq_some_iff distinct).mpr ⟨pair, mem, rfl, rfl⟩
    have bare := (looked _ _).mp ((alike pair.1).trans inserted)
    have equal : (dropBackslashes pair.1, pair.2) = pair :=
      List.inj_on_of_nodup_map distinct bare mem (dropBackslashes_dropBackslashes pair.1)
    exact dropBackslashes_eq_self_iff.mp (congrArg Prod.fst equal)
  · intro plain name
    refine Option.ext fun key => ?_
    rw [looked, get?_ofList_eq_some_iff distinct]
    constructor
    · intro mem
      exact ⟨_, mem, dropBackslashes_dropBackslashes name, rfl⟩
    · rintro ⟨pair, mem, found, rfl⟩
      rw [← found, dropBackslashes_eq_self_iff.mpr (plain pair mem)]
      exact mem

end SilentKeys

/-! ## Namings that answer alike -/

/-- Two namings that resolve every tag alike and give every name the same key. -/
structure Naming.Alike (first second : Naming) : Prop where
  resolve : ∀ tag, first.resolve tag = second.resolve tag
  key : ∀ name, first.silentKeys.get? name = second.silentKeys.get? name

namespace Annotation

namespace Grammar

variable {first second : Naming}

theorem value_congr (alike : first.Alike second) (call : Text → Read Annotation) :
    value first call = value second call := by
  have nested : nestedCall first call = nestedCall second call := by
    simp only [nestedCall, alike.resolve]
  simp only [value, nested]

theorem argument_congr (alike : first.Alike second) (call : Text → Read Annotation) :
    argument first call = argument second call := by
  funext defaultKey before
  simp only [argument, value_congr alike]

theorem arguments_congr (alike : first.Alike second) (call : Text → Read Annotation)
    (defaultKey : Text) (bound : Nat) (before : List (Argument ArgumentValue)) :
    arguments first call defaultKey bound before =
      arguments second call defaultKey bound before := by
  induction bound generalizing before with
  | zero => rfl
  | succ bound ih => simp only [arguments, argument_congr alike, ih]

theorem call_congr (alike : first.Alike second) (depth : Nat) :
    call first depth = call second depth := by
  induction depth with
  | zero => rfl
  | succ depth ih =>
      funext name
      have bare : first.callOf name = second.callOf name :=
        congrArg (Call.ofName name) (alike.key name)
      simp only [call, bare, ih, arguments_congr alike]

end Grammar

end Annotation

namespace Naming

open Annotation

variable {first second : Naming}

/-- Namings that answer alike find the same annotation in a payload, with the same keys. -/
theorem Alike.ofPayload (alike : first.Alike second) (name payload : Text) :
    ofPayload first name payload = ofPayload second name payload := by
  have bare : first.callOf name = second.callOf name := congrArg (Call.ofName name) (alike.key name)
  have same : Grammar.payloadCall first name payload = Grammar.payloadCall second name payload := by
    simp only [Grammar.payloadCall, bare, Grammar.call_congr alike]
  unfold Annotation.ofPayload
  rw [same]

end Naming

namespace Dialect

variable {first second : Naming}

theorem entry_congr (alike : first.Alike second) (rules : List TagRule) :
    entry ⟨rules, first⟩ = entry ⟨rules, second⟩ := by
  have plain (tag text : Text) :
      plainOrAnnotation ⟨rules, first⟩ tag text = plainOrAnnotation ⟨rules, second⟩ tag text := by
    unfold plainOrAnnotation
    simp only [alike.resolve, alike.ofPayload]
  have generic (tag : Text) :
      genericPayload ⟨rules, first⟩ tag = genericPayload ⟨rules, second⟩ tag := by
    simp only [genericPayload, plain]
  have whole (tag : Text) : payload ⟨rules, first⟩ tag = payload ⟨rules, second⟩ tag := by
    simp only [payload, generic]
    rfl
  have named : tagName ⟨rules, first⟩ = tagName ⟨rules, second⟩ := by
    simp only [tagName, claims, alike.resolve]
    rfl
  simp only [entry, tag, named, whole]

end Dialect

/-- Dialects with the same rules whose namings answer alike read every comment alike. -/
theorem Naming.Alike.read {first second : Naming} (alike : first.Alike second)
    (rules : List TagRule) (text : Text) :
    Dialect.read ⟨rules, first⟩ text = Dialect.read ⟨rules, second⟩ text := by
  have further (bound : Nat) :
      Dialect.furtherEntries ⟨rules, first⟩ bound =
        Dialect.furtherEntries ⟨rules, second⟩ bound := by
    induction bound with
    | zero => rfl
    | succ bound ih => simp only [Dialect.furtherEntries, Dialect.entry_congr alike, ih]
  simp only [Dialect.read, Dialect.comment, Dialect.entries, Dialect.entry_congr alike, further]

/-! ## Keys of settings -/

namespace Settings

/-- The keys of settings are the entries of their table as they are written. -/
theorem silentKeys_of_ofEntries? {entries : Toml.Entries} {settings : Settings}
    {origin : Toml.Origin} {written : Table}
    (table : entries.get? "silent_keys".toList =
      some (.table origin (written.map fun pair => (pair.1, .string pair.2))))
    (described : ofEntries? entries = some settings) : settings.silentKeys = ⟨written⟩ := by
  have read : tableOf? (.table origin (written.map fun pair => (pair.1, .string pair.2))) =
      some written := by
    simp only [tableOf?, List.mapM_map, Function.comp_def, textOf?]
    exact (List.mapM_pure).trans (congrArg some (List.map_id _))
  obtain ⟨_, _, bounded⟩ := Option.bind_eq_some_iff.mp described
  obtain ⟨_, _, aliased⟩ := Option.bind_eq_some_iff.mp bounded
  obtain ⟨keys, found, keyed⟩ := Option.bind_eq_some_iff.mp aliased
  obtain ⟨_, _, hosted⟩ := Option.bind_eq_some_iff.mp keyed
  obtain ⟨_, _, placed⟩ := Option.bind_eq_some_iff.mp hosted
  obtain ⟨_, _, whole⟩ := Option.bind_eq_some_iff.mp placed
  cases whole
  rw [table] at found
  exact congrArg SilentKeys.mk (Option.some.inj (found.symm.trans read))

/--
Settings hold the pairs of a list, whose names differ even without the backslashes in front.
They give every name the key that insertion of the pairs gives it just when no
name is written with a backslash in front.  Then the arguments of every payload have the same keys
either way, and every comment is read alike.
-/
theorem keyed_as_inserted_iff {entries : Toml.Entries} {settings : Settings} {origin : Toml.Origin}
    {written given : List (Text × Text)} (distinct : (given.map fun pair => dropBackslashes pair.1).Nodup)
    (same : written.Perm given)
    (table : entries.get? "silent_keys".toList = some (.table origin (written.map fun pair => (pair.1, .string pair.2))))
    (described : ofEntries? entries = some settings) :
    ((∀ name, settings.silentKeys.get? name = (SilentKeys.ofList given).get? name) ↔
        ∀ pair ∈ given, Text.startsWith ['\\'] pair.1 = false) ∧
      ((∀ pair ∈ given, Text.startsWith ['\\'] pair.1 = false) → ∀ resolver scope,
        (∀ name payload, Annotation.ofPayload ⟨resolver, scope, settings.silentKeys⟩ name payload =
          Annotation.ofPayload ⟨resolver, scope, .ofList given⟩ name payload) ∧
        ∀ rules comment, Dialect.read ⟨rules, ⟨resolver, scope, settings.silentKeys⟩⟩ comment =
          Dialect.read ⟨rules, ⟨resolver, scope, .ofList given⟩⟩ comment) := by
  have answers := silentKeys_of_ofEntries? table described ▸ SilentKeys.alike_ofList_iff distinct same
  refine ⟨answers, fun plain resolver scope => ?_⟩
  have alike : Naming.Alike ⟨resolver, scope, settings.silentKeys⟩ ⟨resolver, scope, .ofList given⟩ :=
    ⟨fun _ => rfl, answers.mpr plain⟩
  exact ⟨alike.ofPayload, alike.read⟩

/-- Two names, one of which has a backslash within, keep the keys they are given. -/
theorem keyed_as_inserted_two :
    let given := [("Foo\\Bar".toList, "path".toList), ("Baz".toList, "name".toList)]
    let entries : Toml.Entries := [("silent_keys".toList, .table .header
      [("Baz".toList, .string "name".toList), ("Foo\\Bar".toList, .string "path".toList)])]
    ∃ settings, ofEntries? entries = some settings ∧ (∀ pair ∈ given, Text.startsWith ['\\'] pair.1 = false) ∧
      (∀ name, settings.silentKeys.get? name = (SilentKeys.ofList given).get? name) ∧
      ∀ comment, Dialect.read ⟨[], ⟨.constant "Foo\\Bar".toList, ⟨none, []⟩, settings.silentKeys⟩⟩ comment =
        Dialect.read ⟨[], ⟨.constant "Foo\\Bar".toList, ⟨none, []⟩, .ofList given⟩⟩ comment := by
  intro given entries
  let written := [("Baz".toList, "name".toList), ("Foo\\Bar".toList, "path".toList)]
  have plain : ∀ pair ∈ given, Text.startsWith ['\\'] pair.1 = false := by decide
  have described : ofEntries? entries = some ⟨[], ⟨written⟩, ⟨none, []⟩, false, []⟩ := rfl
  have kept := keyed_as_inserted_iff (by decide) (List.Perm.swap _ _ _ : written.Perm given) rfl described
  exact ⟨_, described, plain, kept.1.mpr plain, (kept.2 plain _ _).2 []⟩

/-- A key whose name is written as a full one is never found, while insertion makes
it the key of the class. -/
theorem not_keyed_as_inserted_full :
    ∃ settings, ofText "[silent_keys]\n'\\Foo' = 'path'\n".toList = .ok settings ∧
      ¬ (∀ name, settings.silentKeys.get? name =
        (SilentKeys.ofList [("\\Foo".toList, "path".toList)]).get? name) ∧
      settings.silentKeys.get? "Foo".toList = none ∧ settings.silentKeys.get? "\\Foo".toList = none ∧
      (SilentKeys.ofList [("\\Foo".toList, "path".toList)]).get? "Foo".toList = some "path".toList := by
  have described : ofText "[silent_keys]\n'\\Foo' = 'path'\n".toList =
      .ok ⟨[], ⟨[("\\Foo".toList, "path".toList)]⟩, ⟨none, []⟩, false, []⟩ := by
    decide +kernel
  exact ⟨_, described, (nomatch · "Foo".toList), rfl, rfl, rfl⟩

end Settings

end DocComment
