import DocComment.Proofs.TypeExpr.Levels

/-!
# Written callables and shapes

The parameters of a callable and the items of a shape are read back from their
written forms, and with them the types that they belong to.
-/

namespace DocComment

open Token

namespace TypeExpr

namespace Grammar

/-! ## Marks of parameters -/

/-- The reference mark, the ellipsis and the name of a parameter. -/
def marksOf (byReference variadic : Bool) (name : Option Text) : Text :=
  (if byReference then ['&'] else []) ++ ((if variadic then ['.', '.', '.'] else []) ++ name.getD [])

theorem markersOf_eq (byReference variadic : Bool) (name : Option Text) :
    markersOf byReference variadic name =
      (if byReference || variadic || name.isSome then [' '] else []) ++
        marksOf byReference variadic name := by
  rw [markersOf, marksOf, List.append_assoc, List.append_assoc]

theorem firstKind?_varName {name : Text} (sole : isSole .varName name = true) (rest : Text) :
    firstKind? (name ++ rest) = some .varName :=
  (startsWith_of_isSole sole rfl).kind? rest

theorem scan_ellipsis (rest : Text) :
    scan (['.', '.', '.'] ++ rest) = ⟨.ellipsis, ['.', '.', '.']⟩ :: scan rest :=
  @scan_append '.' ['.', '.'] rest .ellipsis rfl (by decide)

section Marks

variable {byReference variadic : Bool} {name : Option Text}
  (sole : ∀ text, name = some text → isSole .varName text = true)
include sole

theorem firstKind?_marksOf (rest : Text) :
    firstKind? (marksOf byReference variadic name ++ rest) =
      if byReference then some .ampersand
      else if variadic then some .ellipsis
      else if name.isSome then some .varName
      else firstKind? rest := by
  unfold marksOf
  cases byReference with
  | true => exact firstKind?_cons _ _
  | false =>
      cases variadic with
      | true => exact firstKind?_cons _ _
      | false =>
          cases name with
          | none => rfl
          | some text => exact (startsWith_of_isSole (sole text rfl) rfl).kind? rest

/-- In front of the marks of a parameter its type ends; the ampersand there joins no types. -/
theorem endsType_marks (referenced : byReference = true → variadic = true ∨ name.isSome = true)
    (marked : (byReference || variadic || name.isSome) = true) (rest : Text) :
    EndsType (' ' :: (marksOf byReference variadic name ++ rest)) := by
  have first := @firstKind?_marksOf byReference variadic name sole rest
  cases byReference with
  | false =>
      cases variadic with
      | true => exact endsType_space first (by decide) (by decide) (by decide)
      | false =>
          rw [show name.isSome = true from marked] at first
          exact endsType_space first (by decide) (by decide) (by decide)
  | true =>
      have behind := @firstKind?_marksOf false variadic name sole rest
      refine ⟨endsPostfix_mark rfl (by decide) _, fun cursor stands => ?_, fun cursor stands => ?_⟩
      · have stands : cursor.rest = scan ('&' :: (marksOf false variadic name ++ rest)) := stands
        rw [Cursor.isAt, Cursor.kind?_of_scan stands]
        rfl
      · have stands : cursor.rest =
            ⟨.ampersand, ['&']⟩ :: scan (marksOf false variadic name ++ rest) :=
          stands.trans (scan_mark rfl _)
        have reached := Cursor.reaches_advance stands (by simp)
        have known : firstKind? (marksOf false variadic name ++ rest) = some .ellipsis ∨
            firstKind? (marksOf false variadic name ++ rest) = some .varName := by
          cases variadic with
          | true => exact Or.inl behind
          | false =>
              have named : name.isSome = true := by simpa using referenced rfl
              rw [named] at behind
              exact Or.inr behind
        have firm : (marksOf false variadic name ++ rest).dropWhile isPadding =
            marksOf false variadic name ++ rest :=
          dropWhile_of_firstKind? (by rcases known with known | known <;> rw [known] <;> decide)
        rw [isAtIntersection, Cursor.kind?_of_rest (reached.rest_eq firm), Bool.and_eq_false_iff]
        right
        rcases known with known | known <;> rw [known]

end Marks

/-! ## Parameters of callables -/

/-- The written form of a parameter. -/
def paramText (param : CallableParam TypeExpr) : Text :=
  param.type.render ++ markersOf param.byReference param.variadic param.name

theorem renderParams_eq (params : List (CallableParam TypeExpr)) :
    renderParams params = params.map paramText := by
  induction params with
  | nil => rfl
  | cons param params ih =>
      obtain ⟨type, byReference, variadic, name⟩ := param
      rw [renderParams, ih]
      rfl

/-- Behind a parameter stands a comma or the closing parenthesis. -/
def EndsParam (text : Text) : Prop :=
  ∃ rest, text = ',' :: rest ∨ text = ')' :: rest

theorem EndsParam.endsType {text : Text} (ends : EndsParam text) : EndsType text := by
  obtain ⟨rest, rfl | rfl⟩ := ends
  · exact endsType_mark rfl rfl (by decide) (by decide) (by decide) rest
  · exact endsType_mark rfl rfl (by decide) (by decide) (by decide) rest

theorem EndsParam.endsWord {text : Text} (ends : EndsParam text) : text.EndsWord :=
  ends.endsType.endsPostfix.endsAtom.endsWord

theorem EndsParam.exists_firstKind? {text : Text} (ends : EndsParam text) :
    ∃ kind, firstKind? text = some kind ∧ (kind = .comma ∨ kind = .roundClose) := by
  obtain ⟨rest, rfl | rfl⟩ := ends
  · exact ⟨_, firstKind?_cons _ _, Or.inl rfl⟩
  · exact ⟨_, firstKind?_cons _ _, Or.inr rfl⟩

theorem EndsParam.isAt_eq_false {text : Text} (ends : EndsParam text) {cursor : Cursor}
    (stands : cursor.rest = scan text) {kind : Kind} (comma : kind ≠ .comma)
    (close : kind ≠ .roundClose) : cursor.isAt kind = false := by
  obtain ⟨found, first, other⟩ := ends.exists_firstKind?
  rw [Cursor.isAt, Cursor.kind?_of_rest stands, first, beq_eq_false_iff_ne]
  rintro ⟨⟩
  exact other.elim comma close

theorem EndsParam.dropWhile {text : Text} (ends : EndsParam text) :
    text.dropWhile isPadding = text := by
  obtain ⟨kind, first, other⟩ := ends.exists_firstKind?
  refine dropWhile_of_firstKind? ?_
  rcases other with rfl | rfl <;> rw [first] <;> decide

/-- The reference mark and the ellipsis are taken in front of what follows them. -/
theorem run_marks {byReference variadic : Bool} {name : Option Text} {rest : Text} {kind : Kind}
    (first : firstKind? (name.getD [] ++ rest) = some kind) (ampersand : kind ≠ .ampersand)
    (ellipsis : kind ≠ .ellipsis) (padding : kind ≠ .padding) {before : Cursor}
    (stands : before.rest = scan (marksOf byReference variadic name ++ rest)) :
    ∃ middle after, Read.accept .ampersand before = .ok byReference middle ∧
      Read.accept .ellipsis middle = .ok variadic after ∧
      after.rest = scan (name.getD [] ++ rest) ∧ after.rest.length ≤ before.rest.length ∧
      (variadic = true → before.Reaches (name.getD [] ++ rest) after) := by
  have inner : firstKind? ((if variadic then ['.', '.', '.'] else []) ++ (name.getD [] ++ rest)) =
      some (if variadic then .ellipsis else kind) := by
    cases variadic with
    | true => exact firstKind?_cons _ _
    | false => exact first
  rw [marksOf, List.append_assoc, List.append_assoc] at stands
  obtain ⟨middle, ran, behind, short, _⟩ := Read.run_accept_optional (by decide) (scan_mark rfl _)
    (by rw [inner]; cases variadic <;> simp [ampersand])
    (by rw [inner]; cases variadic <;> simp [padding]) stands
  obtain ⟨after, run, final, shorter, reaches⟩ :=
    Read.run_accept_optional (by decide) (scan_ellipsis _)
    (by simp [first, ellipsis]) (by simp [first, padding]) behind
  exact ⟨middle, after, ran, run, final, Nat.le_trans shorter short, fun present =>
    (reaches present).of_le short⟩

theorem run_acceptVariable {text rest : Text} (sole : isSole .varName text = true)
    (ends : rest.EndsWord) {cursor : Cursor} (stands : cursor.rest = scan (text ++ rest)) :
    acceptVariable cursor = .ok (some text) cursor.advance ∧
    cursor.Reaches rest cursor.advance := by
  rw [scan_append_of_isSole sole rfl ends] at stands
  refine ⟨?_, Cursor.reaches_advance stands (by simp)⟩
  rw [acceptVariable, Read.run_get_bind, Cursor.isAt_of_rest stands, if_pos (by rfl),
    Read.run_bind_of_ok (Read.run_takeText stands)]
  rfl

theorem run_acceptVariable_of_not_isAt {cursor : Cursor} (other : cursor.isAt .varName = false) :
    acceptVariable cursor = .ok none cursor := by
  rw [acceptVariable, Read.run_get_bind, other, if_neg Bool.false_ne_true]
  rfl

theorem takes_callableParam {param : CallableParam TypeExpr} (canonical : ParamIsCanonical param)
    (taken : TakenAsType param.type) (depth : Nat) {rest : Text} (ends : EndsParam rest) :
    Read.Takes depth (callableParam (typeWith (atom depth))) param (paramText param) rest := by
  obtain ⟨type, byReference, variadic, name⟩ := param
  intro cursor stands within
  rw [paramText, List.append_assoc, markersOf_eq] at stands
  cases marked : byReference || variadic || name.isSome with
  | false =>
      -- Nothing stands behind the type.
      simp only [Bool.or_eq_false_iff, Option.isSome_eq_false_iff,
        Option.isNone_iff_eq_none] at marked
      obtain ⟨⟨rfl, rfl⟩, rfl⟩ := marked
      obtain ⟨after, run, reaches⟩ := taken depth rest ends.endsType cursor stands within
      have absent {kind : Kind} (comma : kind ≠ .comma) (close : kind ≠ .roundClose) :
          after.isAt kind = false :=
        ends.isAt_eq_false (reaches.rest_eq ends.dropWhile) comma close
      refine ⟨after, ?_, reaches⟩
      rw [callableParam, Read.run_bind_of_ok run,
        Read.run_bind_of_ok (Read.run_accept_of_not_isAt (absent (by decide) (by decide))),
        Read.run_bind_of_ok (Read.run_accept_of_not_isAt (absent (by decide) (by decide))),
        Read.run_bind_of_ok (run_acceptVariable_of_not_isAt (absent (by decide) (by decide)))]
      rfl
  | true =>
      rw [marked, if_pos rfl] at stands
      obtain ⟨middle, run, reaches⟩ := taken depth _
        (endsType_marks canonical.name canonical.byReference marked rest) cursor stands within
      have firm : firstKind? (marksOf byReference variadic name ++ rest) ≠ some .padding := by
        rw [firstKind?_marksOf canonical.name]
        cases byReference <;> cases variadic <;> cases name <;> simp at marked ⊢
      have behind : middle.rest = scan (marksOf byReference variadic name ++ rest) := by
        refine reaches.rest_eq ?_
        rw [List.dropWhile_cons_of_pos rfl, dropWhile_of_firstKind? firm]
      cases name with
      | some text =>
          have sole := canonical.name text rfl
          obtain ⟨second, third, ran, variadic, named, short, _⟩ :=
            run_marks (firstKind?_varName sole rest) (by decide) (by decide) (by decide) behind
          obtain ⟨took, final⟩ := run_acceptVariable sole ends.endsWord named
          refine ⟨third.advance, ?_, reaches.trans (final.of_le short)⟩
          rw [callableParam, Read.run_bind_of_ok run, Read.run_bind_of_ok ran,
            Read.run_bind_of_ok variadic, Read.run_bind_of_ok took]
          rfl
      | none =>
          have dots : variadic = true := by
            cases variadic with
            | true => rfl
            | false =>
                have referenced : byReference = true := by simpa using marked
                simpa using canonical.byReference referenced
          obtain ⟨kind, first, other⟩ := ends.exists_firstKind?
          have first : firstKind? ((none : Option Text).getD [] ++ rest) = some kind := first
          obtain ⟨second, third, ran, took, named, _, final⟩ :=
            run_marks first (by rcases other with rfl | rfl <;> decide)
              (by rcases other with rfl | rfl <;> decide)
              (by rcases other with rfl | rfl <;> decide) behind
          refine ⟨third, ?_, reaches.trans (final dots)⟩
          rw [callableParam, Read.run_bind_of_ok run, Read.run_bind_of_ok ran,
              Read.run_bind_of_ok took, Read.run_bind_of_ok (run_acceptVariable_of_not_isAt
              (ends.isAt_eq_false named (by decide) (by decide)))]
          rfl

/-- The parameters between the parentheses are taken up to the closing one. -/
theorem run_callableParams {params : List (CallableParam TypeExpr)}
    (canonical : ∀ param ∈ params, ParamIsCanonical param)
    (taken : ∀ param ∈ params, TakenAsType param.type) (depth : Nat) {rest : Text}
    {before cursor : Cursor}
    (reaches : before.Reaches (Text.join [',', ' '] (renderParams params) ++ ')' :: rest) cursor)
    (within : cursor.rest.length ≤ depth) :
    ∃ after, callableParams (typeWith (atom depth)) cursor = .ok params after ∧
      before.Reaches (')' :: rest) after := by
  have opens (param) (mem : param ∈ params) : OpensType (paramText param) :=
    (opensType_render (canonical param mem).type).append _
  have final : EndsParam (')' :: rest) := ⟨rest, Or.inr rfl⟩
  cases params with
  | nil =>
      have here : cursor.isAt .roundClose = true := by
        rw [Cursor.isAt, Cursor.kind?_of_rest (reaches.rest_eq final.dropWhile), firstKind?_cons]
        rfl
      refine ⟨cursor, ?_, reaches⟩
      rw [callableParams, Read.run_get_bind, here, if_pos rfl]
      rfl
  | cons first others =>
      have listed : Read.Listed depth (Read.accept .comma)
          (callableParam (typeWith (atom depth))) [',', ' ']
          paramText EndsParam others (')' :: rest) := {
        firm := fun _ => List.dropWhile_cons_of_neg (by decide)
        separates := fun param mem text =>
          Read.separates_accept rfl (by simp [isPadding])
            ((opens param (List.mem_cons_of_mem _ mem)).dropWhile text)
        takes := fun param mem text follows =>
          takes_callableParam (canonical param (List.mem_cons_of_mem _ mem))
            (taken param (List.mem_cons_of_mem _ mem)) depth follows
        marked := fun _ => ⟨_, Or.inl rfl⟩
        ends := final
        stops := fun cursor stands => Read.run_accept_of_not_isAt (by
          rw [Cursor.isAt, Cursor.kind?_of_scan stands]
          rfl) }
      rw [renderParams_eq, List.map_cons, Text.join_cons, List.flatMap_map,
        List.append_assoc] at reaches
      have opening := opens first List.mem_cons_self
      have stands := reaches.rest_eq (opening.dropWhile _)
      have here : cursor.isAt .roundClose = false := opening.isAt_eq_false _ stands rfl
      obtain ⟨middle, run, reached⟩ := takes_callableParam (canonical first List.mem_cons_self)
        (taken first List.mem_cons_self) depth listed.follows cursor stands within
      have shorter := reached.shorter
      obtain ⟨after, ran, stops⟩ := listed.run_allFurther reached (by omega)
      refine ⟨after, ?_, reaches.trans stops⟩
      rw [callableParams, Read.run_get_bind, here, if_neg Bool.false_ne_true,
        Read.run_bind_of_ok run, Read.run_bind_of_ok ran]
      rfl

theorem takenAsAtom_callable {name : Text} {params : List (CallableParam TypeExpr)}
    {result : TypeExpr}
    (callable : isCallableName name = true) (canonical : ∀ param ∈ params, ParamIsCanonical param)
    (taken : ∀ param ∈ params, TakenAsType param.type) (opens : OpensType result.render)
    (result_taken : TakenAsPostfix result) : TakenAsAtom (.callable name params result) := by
  intro depth rest _ compound
  have sole := isSole_name_of_isCallableName callable
  have written : render (.callable name params result) ++ rest =
      name ++ '(' :: (Text.join [',', ' '] (renderParams params) ++
        ')' :: ':' :: ' ' :: (result.render ++ rest)) := by
    rw [render]
    simp
  refine takes_atom (by simp [render]) fun depth cursor stands within => ?_
  have opened := markedName_of_scan sole rfl (written ▸ stands)
  have reached := opened.reached
  have lengths := opened.lengths
  have shorter := reached.shorter
  obtain ⟨second, ran, closes⟩ := run_callableParams canonical taken depth reached (by omega)
  have close : second.rest =
      ⟨.roundClose, [')']⟩ :: scan (':' :: ' ' :: (result.render ++ rest)) := by
    rw [closes.rest_eq (List.dropWhile_cons_of_neg (by decide)), scan_mark rfl]
  have behind := Cursor.reaches_advance close (by simp)
  have colon : second.advance.rest = ⟨.colon, [':']⟩ :: scan (' ' :: (result.render ++ rest)) := by
    rw [behind.rest_eq (List.dropWhile_cons_of_neg (by decide)), scan_mark rfl]
  have marked := Cursor.reaches_advance colon (by simp)
  have front : cursor.step.Reaches (' ' :: (result.render ++ rest)) second.advance.advance :=
    (closes.trans behind).trans marked
  have short := front.shorter
  obtain ⟨after, run, reaches⟩ := result_taken.takes depth (compound rfl) second.advance.advance
    (front.rest_eq ((List.dropWhile_cons_of_pos rfl).trans (opens.dropWhile rest))) (by omega)
  refine ⟨after, ?_, (front.trans reaches).of_le (by omega)⟩
  rw [run_atom_name opened.here, namedType, Read.run_get_bind, opened.named,
    Read.run_bind_of_ok (Read.run_step cursor), Read.run_get_bind, opened.marked,
    if_neg (by simp), opened.marked, callable, if_pos (by rfl),
    Read.run_bind_of_ok (Read.run_advance _), Read.run_bind_of_ok ran,
    Read.run_bind_of_ok (Read.run_expect close rfl),
    Read.run_bind_of_ok (Read.run_expect colon rfl),
    Read.run_bind_of_ok run]
  rfl

/-! ## Items of shapes -/

/-- The written form of an item. -/
def itemText (item : ShapeItem TypeExpr) : Text :=
  keyOf item.key item.optional ++ item.value.render

theorem renderItems_eq (items : List (ShapeItem TypeExpr)) :
    renderItems items = items.map itemText := by
  induction items with
  | nil => rfl
  | cons item items ih =>
      obtain ⟨key, optional, value⟩ := item
      rw [renderItems, ih]
      rfl

/-- Behind an item stands a comma or the closing brace. -/
def EndsItem (text : Text) : Prop :=
  ∃ rest, text = ',' :: rest ∨ text = '}' :: rest

theorem EndsItem.endsType {text : Text} (ends : EndsItem text) : EndsType text := by
  obtain ⟨rest, rfl | rfl⟩ := ends
  · exact endsType_mark rfl rfl (by decide) (by decide) (by decide) rest
  · exact endsType_mark rfl rfl (by decide) (by decide) (by decide) rest

theorem EndsItem.partsFromKey {text : Text} (ends : EndsItem text) : PartsFromKey text := by
  obtain ⟨rest, rfl | rfl⟩ := ends
  · exact partsFromKey_mark rfl (by decide) (by decide) rest
  · exact partsFromKey_mark rfl (by decide) (by decide) rest

theorem exists_kind_of_isKey {text : Text} (key : isKey text = true) :
    ∃ kind, isSole kind text = true ∧ (kind = .name ∨ kind = .quoted ∨ kind = .number) := by
  simp only [isKey, Bool.or_eq_true] at key
  rcases key with (sole | sole) | sole
  · exact ⟨_, sole, Or.inl rfl⟩
  · exact ⟨_, sole, Or.inr (Or.inl rfl)⟩
  · exact ⟨_, sole, Or.inr (Or.inr rfl)⟩

theorem opensType_itemText {item : ShapeItem TypeExpr} (canonical : ItemIsCanonical item) :
    OpensType (itemText item) := by
  obtain ⟨key, optional, value⟩ := item
  cases key with
  | none => exact opensType_render canonical.value
  | some key =>
      obtain ⟨kind, sole, other⟩ := exists_kind_of_isKey (canonical.key key rfl)
      rw [itemText, keyOf, List.append_assoc, List.append_assoc]
      refine (opensType_of_isSole sole ?_ ?_ ?_).append _ <;> rcases other with rfl | rfl |
        rfl <;> decide

theorem takes_shapeItem {item : ShapeItem TypeExpr} (canonical : ItemIsCanonical item)
    (taken : TakenAsType item.value) (depth : Nat) {rest : Text} (ends : EndsItem rest) :
    Read.Takes depth (shapeItem (typeWith (atom depth))) item (itemText item) rest := by
  obtain ⟨key, optional, value⟩ := item
  intro cursor stands within
  cases key with
  | none =>
      have plain : optional = false := by
        cases optional with
        | false => rfl
        | true => cases canonical.optional rfl
      subst plain
      obtain ⟨after, run, reaches⟩ := taken depth rest ends.endsType cursor stands within
      refine ⟨after, ?_, reaches⟩
      rw [shapeItem, Read.run_get_bind, isAtKey_eq_false canonical.value ends.partsFromKey stands,
        if_neg Bool.false_ne_true, Read.run_bind_of_ok run]
      rfl
  | some key =>
      obtain ⟨kind, sole, other⟩ := exists_kind_of_isKey (canonical.key key rfl)
      have word : kind.isWord = true := by rcases other with rfl | rfl | rfl <;> rfl
      have known : kind ≠ .padding := by rcases other with rfl | rfl | rfl <;> decide
      have opens := opensType_render canonical.value
      have colon : firstKind? (':' :: ' ' :: (value.render ++ rest)) = some .colon :=
        firstKind?_cons _ _
      have written : itemText ⟨some key, optional, value⟩ ++ rest =
          key ++ ((if optional then ['?'] else []) ++ ':' :: ' ' :: (value.render ++ rest)) := by
        rw [itemText, keyOf]
        simp
      have partition : Text.EndsWord ((if optional then ['?'] else []) ++
          ':' :: ' ' :: (value.render ++ rest)) := by
        cases optional with
        | false => exact endsWord_of_mark rfl _
        | true => exact endsWord_of_mark rfl _
      rw [written, scan_append_of_isSole sole word partition] at stands
      have reached := Cursor.reaches_advance stands known
      have firm :
          ((if optional then ['?'] else []) ++ ':' :: ' ' :: (value.render ++ rest)).dropWhile
          isPadding = (if optional then ['?'] else []) ++ ':' :: ' ' :: (value.render ++ rest) := by
        cases optional <;> exact List.dropWhile_cons_of_neg (by decide)
      obtain ⟨second, ran, marked, short, _⟩ :=
        Read.run_accept_optional (by decide) (scan_mark rfl _)
        (by rw [colon]; decide) (by rw [colon]; decide) (reached.rest_eq firm)
      rw [scan_mark rfl] at marked
      have behind := Cursor.reaches_advance marked (by simp)
      have shorter := reached.shorter
      have forward := behind.shorter
      obtain ⟨after, run, reaches⟩ := taken depth rest ends.endsType second.advance
        (behind.rest_eq ((List.dropWhile_cons_of_pos rfl).trans (opens.dropWhile rest))) (by omega)
      have here : isAtKey cursor = true := by
        have same : cursor.advance.accept .question = second := by
          rw [Read.run_accept] at ran
          cases ran
          rfl
        rw [isAtKey, Cursor.kind?, stands, same, Cursor.isAt_of_rest marked]
        rcases other with rfl | rfl | rfl <;> rfl
      refine ⟨after, ?_, (behind.trans reaches).of_le (by omega)⟩
      rw [shapeItem, Read.run_get_bind, here, if_pos rfl,
        Read.run_bind_of_ok (Read.run_takeText stands), Read.run_bind_of_ok ran,
        Read.run_bind_of_ok (Read.run_expect marked rfl), Read.run_bind_of_ok run]
      rfl

section Items

variable {type : Read TypeExpr} {item : ShapeItem TypeExpr} {cursor middle after : Cursor}

theorem run_shapeItems_of_closed (closed : cursor.isAt .curlyClose = true) (bound : Nat) :
    shapeItems type bound cursor = .ok [] cursor := by
  cases bound with
  | zero => rfl
  | succ bound =>
      rw [shapeItems, Read.run_get_bind, closed, Bool.true_or, if_pos rfl]
      rfl

variable (opened : (cursor.isAt .curlyClose || cursor.isAtEnd) = false)
  (run : shapeItem type cursor = .ok item middle)
include opened run

/-- Without a comma behind it an item is the last one. -/
theorem run_shapeItems_of_last (last : middle.isAt .comma = false) (bound : Nat) :
    shapeItems type (bound + 1) cursor = .ok [item] middle := by
  rw [shapeItems, Read.run_get_bind, opened, if_neg Bool.false_ne_true, Read.run_bind_of_ok run,
    Read.run_bind_of_ok (Read.run_accept_of_not_isAt last), if_neg Bool.false_ne_true]
  rfl

/-- Behind a comma the other items are taken. -/
theorem run_shapeItems_of_comma {third : Cursor} {items : List (ShapeItem TypeExpr)} {bound : Nat}
    (separated : Read.accept .comma middle = .ok true third)
    (ran : shapeItems type bound third = .ok items after) :
    shapeItems type (bound + 1) cursor = .ok (item :: items) after := by
  rw [shapeItems, Read.run_get_bind, opened, if_neg Bool.false_ne_true, Read.run_bind_of_ok run,
    Read.run_bind_of_ok separated, if_pos rfl, Read.run_bind_of_ok ran]
  rfl

end Items

/-- The items between the braces are taken up to the closing one. -/
theorem run_shapeItems {items : List (ShapeItem TypeExpr)}
    (canonical : ∀ item ∈ items, ItemIsCanonical item)
    (taken : ∀ item ∈ items, TakenAsType item.value)
    (depth : Nat) {rest : Text} {bound : Nat} {cursor : Cursor}
    (stands : cursor.rest = scan (Text.join [',', ' '] (items.map itemText) ++ '}' :: rest))
    (enough : cursor.rest.length ≤ bound) (within : cursor.rest.length ≤ depth) :
    ∃ after, shapeItems (typeWith (atom depth)) bound cursor = .ok items after ∧
      after.rest = scan ('}' :: rest) ∧ after.rest.length ≤ cursor.rest.length := by
  induction items generalizing bound cursor with
  | nil =>
      have closed : cursor.isAt .curlyClose = true := by
        rw [Cursor.isAt, Cursor.kind?_of_scan stands]
        rfl
      exact ⟨cursor, run_shapeItems_of_closed closed bound, stands, Nat.le_refl _⟩
  | cons item items ih =>
      obtain ⟨here, others⟩ := List.forall_mem_cons.mp canonical
      obtain ⟨first, more⟩ := List.forall_mem_cons.mp taken
      have opens := opensType_itemText here
      rw [List.map_cons, Text.join_cons, List.append_assoc] at stands
      have opened : (cursor.isAt .curlyClose || cursor.isAtEnd) = false := by
        obtain ⟨kind, known, -⟩ := opens.exists_kind? _ stands
        obtain ⟨token, tokens, proper, -⟩ := Cursor.exists_cons_of_kind? known
        rw [opens.isAt_eq_false _ stands rfl, Bool.false_or, Cursor.isAtEnd, proper]
        rfl
      have follows :
          EndsItem (((items.map itemText).flatMap fun text => [',', ' '] ++ text) ++
            '}' :: rest) := by
        cases items with
        | nil => exact ⟨rest, Or.inr rfl⟩
        | cons next items => exact ⟨_, Or.inl rfl⟩
      obtain ⟨middle, run, reaches⟩ := takes_shapeItem here first depth follows cursor stands within
      have shorter := reaches.shorter
      have behind := reaches.rest
      obtain ⟨bound, rfl⟩ := Nat.exists_eq_add_one_of_ne_zero (n := bound) (by omega)
      cases items with
      | nil =>
          have last : middle.isAt .comma = false := by
            rw [Cursor.isAt, Cursor.kind?_of_scan behind]
            rfl
          exact ⟨middle, run_shapeItems_of_last opened run last bound, behind, Nat.le_of_lt shorter⟩
      | cons next items =>
          have opening := (opensType_itemText (List.forall_mem_cons.mp others).1).append
            (((items.map itemText).flatMap fun text => [',', ' '] ++ text))
          have separates : Read.Separates (Read.accept .comma) [',', ' '] _ :=
            Read.separates_accept rfl (by simp [isPadding]) (opening.dropWhile ('}' :: rest))
          obtain ⟨third, separated, stands, short⟩ := separates middle (by
            rw [behind, List.map_cons, List.flatMap_cons]
            simp [isPadding])
          obtain ⟨after, ran, final, bounded⟩ := @ih others more bound third (by
            rw [stands, List.map_cons, Text.join_cons]) (by omega) (by omega)
          exact ⟨after, run_shapeItems_of_comma opened run separated ran, final, by omega⟩

theorem takenAsAtom_shape {name : Text} {items : List (ShapeItem TypeExpr)}
    (shape : isShapeName name = true) (canonical : ∀ item ∈ items, ItemIsCanonical item)
    (taken : ∀ item ∈ items, TakenAsType item.value) : TakenAsAtom (.shape name items) := by
  intro depth rest _ _
  have sole := isSole_name_of_isShapeName shape
  have written : render (.shape name items) ++ rest =
      name ++ '{' :: (Text.join [',', ' '] (items.map itemText) ++ '}' :: rest) := by
    rw [render, renderItems_eq]
    simp
  have firm : (Text.join [',', ' '] (items.map itemText) ++ '}' :: rest).dropWhile isPadding =
      Text.join [',', ' '] (items.map itemText) ++ '}' :: rest := by
    cases items with
    | nil => exact List.dropWhile_cons_of_neg (by decide)
    | cons item items =>
        rw [List.map_cons, Text.join_cons, List.append_assoc]
        exact (opensType_itemText (canonical item List.mem_cons_self)).dropWhile _
  refine takes_atom (by simp [render]) fun depth cursor stands within => ?_
  have opened := markedName_of_scan sole rfl (written ▸ stands)
  have reached := opened.reached
  have lengths := opened.lengths
  have shorter := reached.shorter
  obtain ⟨second, ran, closes, short⟩ := @run_shapeItems items canonical taken depth rest
    (cursor.step.rest.length + 1) cursor.step.advance (reached.rest_eq firm) (by omega) (by omega)
  rw [scan_mark rfl] at closes
  have final := Cursor.reaches_advance closes (by simp)
  refine ⟨second.advance, ?_, final.of_le (by omega)⟩
  rw [run_atom_name opened.here, namedType, Read.run_get_bind, opened.named,
    Read.run_bind_of_ok (Read.run_step cursor), Read.run_get_bind, opened.marked,
    if_neg (by simp), opened.marked, if_neg (by simp), opened.marked, shape,
    if_pos (by rfl), Read.run_bind_of_ok (Read.run_advance _), Read.run_bind_of_ok ran,
    Read.run_bind_of_ok (Read.run_expect closes rfl)]
  rfl

end Grammar

end TypeExpr

end DocComment
