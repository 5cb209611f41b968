import DocComment.Proofs.TypeExpr.Members

/-!
# Reading written types

A canonical type is read back from its written form, whatever text follows
that does not go on with it (`read_render`).  The induction is on the type: at
every level of the grammar the lemma for its form applies to its parts.
-/

namespace DocComment

open Token

namespace TypeExpr

namespace Grammar

/-- The type is read back at every level that its form belongs to. -/
structure Taken (type : TypeExpr) : Prop where
  asAtom : type.isJoined = false → type.isArray = false → TakenAsAtom type
  asPostfix : type.isJoined = false → TakenAsPostfix type
  asType : TakenAsType type

theorem TakenAsPostfix.taken {type : TypeExpr} (taken : TakenAsPostfix type)
    (array : type.isArray = true) :
    Taken type where
  asAtom _ other := by rw [array] at other; cases other
  asPostfix _ := taken
  asType := taken.type

theorem TakenAsAtom.taken {type : TypeExpr} (taken : TakenAsAtom type) : Taken type := by
  have behind : TakenAsPostfix type := fun depth rest ends compound =>
    takenWithBrackets_of_atom (taken depth rest ends compound)
  exact ⟨fun _ _ => taken, fun _ => behind, behind.type⟩

theorem TakenAsType.taken {type : TypeExpr} (taken : TakenAsType type)
    (joined : type.isJoined = true) :
    Taken type where
  asAtom other := by rw [joined] at other; cases other
  asPostfix other := by rw [joined] at other; cases other
  asType := taken

/-- An array is read back from its element with brackets, or from that in parentheses. -/
theorem takenAsPostfix_array {element : TypeExpr} (opens : OpensType element.render)
    (taken : Taken element) : TakenAsPostfix (.array element) := by
  intro depth rest _ _
  rw [render]
  split
  next =>
    have inner := takes_parenthesised opens taken.asType depth ('[' :: ']' :: rest)
    have whole := takenWithBrackets_array (takenWithBrackets_of_atom inner)
    simpa using whole
  next compound =>
    have single : element.isJoined = false := by
      cases element <;> first | rfl | exact absurd rfl compound
    have ends : EndsAtom ('[' :: ']' :: rest) := by
      rintro c ⟨⟩
      rfl
    exact takenWithBrackets_array
      (taken.asPostfix single depth _ ends fun same => absurd same compound)

/-- No member of a joined type is a joined type itself. -/
theorem asPostfix_of_members {members : List TypeExpr} (single : members.any isJoined = false)
    (taken : ∀ member ∈ members, Taken member) : ∀ member ∈ members, TakenAsPostfix member := by
  rw [List.any_eq_false] at single
  exact fun member mem => (taken member mem).asPostfix (by simpa using single member mem)

mutual

/-- A canonical type is read back at every level that its form belongs to. -/
theorem taken_of_isCanonical : ∀ {type : TypeExpr}, type.isCanonical = true → Taken type
  | .named text, canonical => by
      rw [isCanonical, Bool.or_eq_true, beq_iff_eq] at canonical
      rcases canonical with rfl | sole
      · exact takenAsAtom_self.taken
      · exact (takenAsAtom_of_isSole sole).taken
  | .constant text, canonical => by
      rw [isCanonical, Bool.or_eq_true] at canonical
      rcases canonical with sole | sole
      · exact (takenAsAtom_constant sole (Or.inl rfl)).taken
      · exact (takenAsAtom_constant sole (Or.inr rfl)).taken
  | .nullable inner, canonical => by
      simp only [isCanonical, Bool.and_eq_true, Bool.not_eq_true'] at canonical
      obtain ⟨⟨single, array⟩, canonical⟩ := canonical
      exact (takenAsAtom_nullable (opensType_render canonical)
        ((taken_of_isCanonical canonical).asAtom single array)).taken
  | .array element, canonical => by
      rw [isCanonical] at canonical
      exact (takenAsPostfix_array (opensType_render canonical)
        (taken_of_isCanonical canonical)).taken rfl
  | .union members, canonical => by
      simp only [isCanonical, Bool.and_eq_true, Bool.not_eq_true'] at canonical
      obtain ⟨⟨many, single⟩, canonical⟩ := canonical
      have taken := asPostfix_of_members single (taken_of_areCanonical canonical)
      rw [areCanonical_iff] at canonical
      match members, many with
      | first :: second :: others, _ =>
          exact (takenAsType_union (fun member mem =>
            opensType_render (canonical member (List.mem_cons_of_mem _ mem))) taken).taken rfl
  | .intersection members, canonical => by
      simp only [isCanonical, Bool.and_eq_true, Bool.not_eq_true'] at canonical
      obtain ⟨⟨⟨many, single⟩, canonical⟩, dollar⟩ := canonical
      have taken := asPostfix_of_members single (taken_of_areCanonical canonical)
      rw [areCanonical_iff] at canonical
      match members, many with
      | first :: second :: others, _ =>
          refine (takenAsType_intersection (fun member mem =>
            opensType_render (canonical member (List.mem_cons_of_mem _ mem))) taken ?_).taken rfl
          intro member mem
          simpa using List.all_eq_true.mp dollar member mem
  | .generic base arguments, canonical => by
      simp only [isCanonical, Bool.and_eq_true] at canonical
      obtain ⟨⟨sole, proper⟩, canonical⟩ := canonical
      have taken := taken_of_areCanonical canonical
      rw [areCanonical_iff] at canonical
      cases arguments with
      | nil => cases proper
      | cons first others =>
          exact (takenAsAtom_generic sole (fun type mem => opensType_render (canonical type mem))
            fun type mem => (taken type mem).asType).taken
  | .callable name params result, canonical => by
      simp only [isCanonical, Bool.and_eq_true, Bool.not_eq_true'] at canonical
      obtain ⟨⟨⟨callable, canonical⟩, single⟩, final⟩ := canonical
      have taken := taken_of_paramsAreCanonical canonical
      exact (takenAsAtom_callable callable (paramsAreCanonical_iff.mp canonical)
        (fun param mem => (taken param mem).asType) (opensType_render final)
        ((taken_of_isCanonical final).asPostfix single)).taken
  | .shape name items, canonical => by
      simp only [isCanonical, Bool.and_eq_true] at canonical
      have taken := taken_of_itemsAreCanonical canonical.2
      exact (takenAsAtom_shape canonical.1 (itemsAreCanonical_iff.mp canonical.2)
        fun item mem => (taken item mem).asType).taken

theorem taken_of_areCanonical : ∀ {types : List TypeExpr}, areCanonical types = true →
    ∀ type ∈ types, Taken type
  | [], _ => List.forall_mem_nil _
  | type :: types, canonical => by
      rw [areCanonical, Bool.and_eq_true] at canonical
      exact List.forall_mem_cons.mpr
        ⟨taken_of_isCanonical canonical.1, taken_of_areCanonical canonical.2⟩

theorem taken_of_paramsAreCanonical : ∀ {params : List (CallableParam TypeExpr)},
    paramsAreCanonical params = true → ∀ param ∈ params, Taken param.type
  | [], _ => List.forall_mem_nil _
  | ⟨type, byReference, variadic, name⟩ :: params, canonical => by
      simp only [paramsAreCanonical, Bool.and_eq_true] at canonical
      exact List.forall_mem_cons.mpr
        ⟨taken_of_isCanonical canonical.1.1.1, taken_of_paramsAreCanonical canonical.2⟩

theorem taken_of_itemsAreCanonical : ∀ {items : List (ShapeItem TypeExpr)},
    itemsAreCanonical items = true → ∀ item ∈ items, Taken item.value
  | [], _ => List.forall_mem_nil _
  | ⟨key, optional, value⟩ :: items, canonical => by
      simp only [itemsAreCanonical, Bool.and_eq_true] at canonical
      exact List.forall_mem_cons.mpr
        ⟨taken_of_isCanonical canonical.1.2, taken_of_itemsAreCanonical canonical.2⟩

end

end Grammar

/-- A canonical type is read back from its written form in front of a text that ends it. -/
theorem read_render {type : TypeExpr} (canonical : type.isCanonical = true) {rest : Text}
    (ends : Grammar.EndsType rest) {cursor : Cursor}
    (stands : cursor.rest = scan (type.render ++ rest)) :
    ∃ after, read cursor = .ok type after ∧ cursor.Reaches rest after :=
  (Grammar.taken_of_isCanonical canonical).asType (cursor.rest.length + 1) rest ends cursor stands
    (Nat.le_succ _)

theorem Grammar.endsType_nil : Grammar.EndsType [] where
  endsPostfix := nofun
  bar cursor stands := by
    rw [Cursor.isAt, Cursor.kind?_of_rest stands]
    rfl
  ampersand cursor stands := by
    rw [Grammar.isAtIntersection, Cursor.isAt, Cursor.kind?_of_rest stands]
    rfl

/-- The written form of a canonical type, as a text by itself, describes that type. -/
theorem ofText_render {type : TypeExpr} (canonical : type.isCanonical = true) :
    ofText type.render = .ok type := by
  have firm := (opensType_render canonical).dropWhile []
  have stands : (Cursor.ofTokens (scan type.render)).rest = scan (type.render ++ []) := by
    rw [← firm, List.append_nil]
    exact dropWhile_scan type.render
  obtain ⟨after, run, reaches⟩ := read_render canonical Grammar.endsType_nil stands
  have final : after.isAtEnd = true := by
    rw [Cursor.isAtEnd, reaches.rest]
    rfl
  rw [ofText, Read.valueAt, readWhole, Read.run_bind_of_ok run, Read.run_get_bind, final, if_pos rfl]
  rfl

/--
References, optional keys, keyless items that look like keys, and brackets behind
parentheses and behind a result are told apart.
-/
theorem ofText_render_nested :
    let type : TypeExpr := .union [
      .nullable (.callable "Closure".toList
        [⟨.union [.named "int".toList, .constant "-1.5".toList], true, true, some "$x".toList⟩,
          ⟨.shape "array".toList
            [⟨some "a".toList, true, .intersection [.named "A".toList, .named "\\B".toList]⟩,
              ⟨none, false, .constant "'k'".toList⟩], false, false, none⟩]
        (.array (.generic "list".toList [.named "int".toList]))),
      .array (.nullable (.named "$this".toList))]
    type.isCanonical = true ∧
      type.render = "?Closure(int|-1.5 &...$x, array\x7ba?: A&\\B, 'k'\x7d): list<int>[]|(?$this)[]".toList ∧
      ofText type.render = .ok type :=
  ⟨by decide, by decide, ofText_render (by decide)⟩

end TypeExpr

end DocComment
