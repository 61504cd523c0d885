import RuleLang.Proofs.Optimizer.Settled
import RuleLang.Proofs.Sql.Completeness

/-!
# Elements of compiled arrays

An array compiles to a list of items. What an element is written as depends on the element alone, but
whether it may stand in the array does not: an array among plain constants has no form, while next to a
verbatim literal it is written as a list inside the list.

* `Sql.WrittenAs`: what a validated element is written as.
* `Sql.IsPlainList`: the validated elements that depend on their neighbours.
* `Sql.literalText_array_iff`: what an array of validated elements compiles to.
* `Sql.compileToSql_array_iff`: what an array compiles to.
* `Sql.FoldsToList`, `Sql.array_next_to_column_iff`: an element alone and next to a column.
-/

namespace RuleLang

namespace Sql

variable {c : Compiler} {w : Weight} {r : Reduced Fragment} {rs : List (Reduced Fragment)}
  {item sql : String} {items : List String} {value : Value}

/-- A validated element is written as an item of a list, whatever the other items are. -/
def WrittenAs (r : Reduced Fragment) (item : String) : Prop :=
  ∃ value verbatim f, r.node.literal? = some (value, verbatim) ∧
    renderElement value verbatim = .ok f ∧ f.toSql = item

/-- A validated element is an array of plain constants. -/
def IsPlainList (r : Reduced Fragment) : Prop :=
  ∃ items, r.node.constant? = some (.array items)

/-! ### Single elements -/

/-- A constant whose value is known is a literal without a mark. -/
theorem literal?_of_constant? (h : r.node.constant? = some value) :
    r.node.literal? = some (value, false) := by
  unfold Node.constant? at h
  split at h
  · rename_i hnode
    cases h
    rw [hnode]
    rfl
  · cases h

/-- A plain item is written as it is next to a verbatim one, unless it is an array. -/
theorem listItem_eq_ok_iff : listItem value = .ok item ↔
    (∀ items, value ≠ .array items) ∧ ∃ f, renderElement value false = .ok f ∧ f.toSql = item := by
  cases value with
  | array items => simp [listItem, scalar]
  | number x => simp [listItem, renderElement, Except.map, Fragment.toSql]
  | undefined | null | bool b | string s | object members =>
      simp [listItem, renderElement, renderLiteral, map_eq_ok_iff, Fragment.toSql]

/-- A plain constant of an array of constants is written as it would be next to a verbatim literal; only
an array is not. -/
theorem constant_written_iff (h : r.node.constant?.isSome) :
    (∃ value, r.node.constant? = some value ∧ listItem value = .ok item) ↔
      ¬ IsPlainList r ∧ WrittenAs r item := by
  obtain ⟨value, hvalue⟩ := Option.isSome_iff_exists.mp h
  simp [IsPlainList, WrittenAs, hvalue, literal?_of_constant? hvalue, listItem_eq_ok_iff]

/-- An element that is folded in the domain is written so. -/
theorem element_eq_ok_iff (hdomain : c.domain = domain) {node : Node} {f : Fragment} :
    c.element node = .ok f ↔ ∃ value verbatim, node.literal? = some (value, verbatim) ∧
      renderElement value verbatim = .ok f := by
  unfold Optimizer.element
  rw [hdomain]
  cases node.literal? with
  | none => simp
  | some literal =>
      obtain ⟨value, verbatim⟩ := literal
      simp only [Option.some.injEq, Prod.mk.injEq, and_assoc, exists_and_left, exists_eq_left', domain]

/-- An element is written as the text of its fragment. -/
theorem writtenAs_iff (hdomain : c.domain = domain) :
    WrittenAs r item ↔ ∃ f, c.element r.node = .ok f ∧ f.toSql = item := by
  simp only [WrittenAs, element_eq_ok_iff hdomain]
  constructor
  · rintro ⟨value, verbatim, f, hliteral, hf, hitem⟩
    exact ⟨f, ⟨value, verbatim, hliteral, hf⟩, hitem⟩
  · rintro ⟨f, ⟨value, verbatim, hliteral, hf⟩, hitem⟩
    exact ⟨value, verbatim, f, hliteral, hf, hitem⟩

/-- Only literals are written as elements. -/
theorem isLiteral_of_writtenAs (h : WrittenAs r item) : r.node.isLiteral := by
  obtain ⟨value, verbatim, f, hliteral, -⟩ := h
  unfold Node.literal? at hliteral
  split at hliteral
  · rename_i hnode
    rw [hnode]
    rfl
  · cases hliteral

/-! ### Arrays -/

/-- The constants of constant elements, one by one. -/
theorem forall₂_constants_iff {R : Value → String → Prop}
    (h : ∀ r ∈ rs, r.node.constant?.isSome) :
    List.Forall₂ R ((rs.map Reduced.node).filterMap Node.constant?) items ↔
      List.Forall₂ (fun r item => ∃ value, r.node.constant? = some value ∧ R value item) rs items := by
  induction rs generalizing items with
  | nil => simp
  | cons r rs ih =>
      rw [List.forall_mem_cons] at h
      obtain ⟨value, hvalue⟩ := Option.isSome_iff_exists.mp h.1
      rw [List.map_cons, List.filterMap_cons_some hvalue]
      simp only [List.forall₂_cons_left_iff, hvalue, Option.some.injEq, exists_eq_left', ih h.2]

/-- Items that are each made from an answer are made from a list of answers. -/
theorem forall₂_exists_map_iff {α β γ : Type} {R : α → β → Prop} {f : β → γ} {xs : List α} {zs : List γ} :
    List.Forall₂ (fun x z => ∃ y, R x y ∧ f y = z) xs zs ↔
      ∃ ys, List.Forall₂ R xs ys ∧ ys.map f = zs := by
  constructor
  · intro h
    induction h with
    | nil => exact ⟨[], .nil, rfl⟩
    | cons head tail ih =>
        obtain ⟨y, hy, rfl⟩ := head
        obtain ⟨ys, hys, rfl⟩ := ih
        exact ⟨y :: ys, .cons hy hys, rfl⟩
  · rintro ⟨ys, hys, rfl⟩
    rw [List.forall₂_map_right_iff]
    exact hys.imp fun _ y hy => ⟨y, hy, rfl⟩

/-- The text of a validated literal is that of its fragment. -/
theorem literalText_literal_iff (hdomain : c.domain = domain) {verbatim : Bool} :
    (∃ r, c.literal value verbatim = .ok r ∧ literalText r.node = .ok sql) ↔
      ∃ f, renderLiteral value verbatim = .ok f ∧ f.toSql = sql := by
  simp only [Optimizer.literal_eq_ok_iff, hdomain]
  constructor
  · rintro ⟨r, ⟨f, -, rfl⟩, htext⟩
    exact map_eq_ok_iff.mp htext
  · rintro ⟨f, hf, hsql⟩
    exact ⟨_, ⟨f, hf, rfl⟩, map_eq_ok_iff.mpr ⟨f, hf, hsql⟩⟩

/-- The text of what folds is that of its fragment. -/
theorem literalText_fold_iff (hdomain : c.domain = domain) {f : Fragment} :
    (∃ r, c.fold f = .ok r ∧ literalText r.node = .ok sql) ↔ f.toSql = sql := by
  rw [Optimizer.fold, literalText_literal_iff hdomain, hdomain]
  have hstored : renderLiteral (store f).1 (store f).2 = .ok f := by
    cases f <;> exact renderLiteral_store _
  simp [domain, hstored]

/-- What an array of plain constants compiles to. -/
theorem literalText_constants_iff (hdomain : c.domain = domain)
    (h : ∀ r ∈ rs, r.node.constant?.isSome) :
    (∃ r, c.array w rs = .ok r ∧ literalText r.node = .ok sql) ↔
      ∃ items, ((∀ r ∈ rs, ¬ IsPlainList r) ∧ List.Forall₂ WrittenAs rs items) ∧
        (Fragment.list items).toSql = sql := by
  have hconstants : (rs.map Reduced.node).all fun node => node.constant?.isSome := by
    simpa using h
  have hitems (items : List String) :
      List.Forall₂ (fun value item => listItem value = .ok item)
        ((rs.map Reduced.node).filterMap Node.constant?) items ↔
      (∀ r ∈ rs, ¬ IsPlainList r) ∧ List.Forall₂ WrittenAs rs items := by
    rw [forall₂_constants_iff h, ← List.forall₂_and_left]
    exact ⟨fun hall => forall₂_imp_of_mem hall fun r hr _ => (constant_written_iff (h r hr)).mp,
      fun hall => forall₂_imp_of_mem hall fun r hr _ => (constant_written_iff (h r hr)).mpr⟩
  rw [Optimizer.array, if_pos hconstants, literalText_literal_iff hdomain]
  simp only [renderLiteral, map_eq_ok_iff, mapM_eq_ok_iff, hitems]
  constructor
  · rintro ⟨f, ⟨items, hwritten, rfl⟩, hsql⟩
    exact ⟨items, hwritten, hsql⟩
  · rintro ⟨items, hwritten, hsql⟩
    exact ⟨_, ⟨items, hwritten, rfl⟩, hsql⟩

/-- What an array compiles to of which not all elements are plain constants. -/
theorem literalText_elements_iff (hdomain : c.domain = domain)
    (h : ¬ ∀ r ∈ rs, r.node.constant?.isSome) :
    (∃ r, c.array w rs = .ok r ∧ literalText r.node = .ok sql) ↔
      ∃ items, List.Forall₂ WrittenAs rs items ∧ (Fragment.list items).toSql = sql := by
  have hconstants : ¬ (rs.map Reduced.node).all fun node => node.constant?.isSome := by
    simpa using h
  rw [Optimizer.array, if_neg hconstants]
  by_cases hliterals : (rs.map Reduced.node).all Node.isLiteral
  · have hwritten (items : List String) : List.Forall₂ WrittenAs rs items ↔
        ∃ fs, (rs.map Reduced.node).mapM c.element = .ok fs ∧ fs.map Fragment.toSql = items := by
      have written_eq : WrittenAs = fun r item => ∃ f, c.element r.node = .ok f ∧ f.toSql = item :=
        funext₂ fun _ _ => propext (writtenAs_iff hdomain)
      simp only [mapM_eq_ok_iff, List.forall₂_map_left_iff, ← forall₂_exists_map_iff, written_eq]
    simp only [hwritten]
    rw [if_pos hliterals]
    cases (rs.map Reduced.node).mapM c.element with
    | error e => simp [Optimizer.fault]
    | ok fs =>
        dsimp only
        rw [literalText_fold_iff hdomain, hdomain]
        simp [domain]
  · rw [if_neg hliterals]
    refine iff_of_false ?_ ?_
    · rintro ⟨r, hr, htext⟩
      cases hr
      cases htext
    · rintro ⟨items, hwritten, -⟩
      refine hliterals (List.all_eq_true.mpr (List.forall_mem_map.mpr fun r hr => ?_))
      obtain ⟨item, -, hitem⟩ := exists_of_mem_forall₂ hwritten.flip hr
      exact isLiteral_of_writtenAs hitem

/-- What an array of validated elements compiles to: all of them are written in a row, each one as it is
written anywhere. If all of them are plain constants, none may be an array. -/
theorem literalText_array_iff (hdomain : c.domain = domain) :
    (∃ r, c.array w rs = .ok r ∧ literalText r.node = .ok sql) ↔
      ∃ items, List.Forall₂ WrittenAs rs items ∧
        ((∀ r ∈ rs, r.node.constant?.isSome) → ∀ r ∈ rs, ¬ IsPlainList r) ∧
        (Fragment.list items).toSql = sql := by
  by_cases h : ∀ r ∈ rs, r.node.constant?.isSome
  · rw [literalText_constants_iff hdomain h]
    simp only [forall_prop_of_true h, and_assoc, and_left_comm]
  · rw [literalText_elements_iff hdomain h]
    simp only [forall_prop_of_false h, true_and]

/-- What an array compiles to. -/
theorem compileToSql_array_iff (hdomain : c.domain = domain) {elements : List Node} :
    compileToSql c (.array w elements) = .ok sql ↔
      ∃ rs, List.Forall₂ (fun n r => c.reduceAt 1 n = .ok r) elements rs ∧
        ∃ items, List.Forall₂ WrittenAs rs items ∧
          ((∀ r ∈ rs, r.node.constant?.isSome) → ∀ r ∈ rs, ¬ IsPlainList r) ∧
          (Fragment.list items).toSql = sql := by
  simp only [compileToSql_eq_ok_iff, Optimizer.reduceAt_array_iff]
  constructor
  · rintro ⟨r, ⟨-, rs, hrs, hr⟩, htext⟩
    exact ⟨rs, hrs, (literalText_array_iff hdomain).mp ⟨r, hr, htext⟩⟩
  · rintro ⟨rs, hrs, hitems⟩
    obtain ⟨r, hr, htext⟩ := (literalText_array_iff hdomain).mpr hitems
    exact ⟨r, ⟨Nat.zero_le _, rs, hrs, hr⟩, htext⟩

/-! ### One element and a column -/

/-- The value of a list of plain constants is known. -/
theorem isSome_of_isPlainList (h : IsPlainList r) : r.node.constant?.isSome := by
  obtain ⟨items, hitems⟩ := h
  rw [hitems]
  rfl

/-- An element by itself compiles when it has a form and is no plain array. -/
theorem compileToSql_single_iff (hdomain : c.domain = domain) {e : Node} :
    compileToSql c (.array w [e]) = .ok sql ↔
      ∃ r item, c.reduceAt 1 e = .ok r ∧ WrittenAs r item ∧ ¬ IsPlainList r ∧
        "(" ++ item ++ ")" = sql := by
  rw [compileToSql_array_iff hdomain]
  constructor
  · rintro ⟨rs, hrs, items, hitems, hplain, rfl⟩
    obtain _ | ⟨hr, _ | _⟩ := hrs
    obtain _ | ⟨hitem, _ | _⟩ := hitems
    refine ⟨_, _, hr, hitem, fun hlist => ?_, by simp [Fragment.toSql]⟩
    exact hplain (List.forall_mem_singleton.mpr (isSome_of_isPlainList hlist)) _
      (List.mem_singleton_self _) hlist
  · rintro ⟨r, item, hr, hitem, hplain, rfl⟩
    exact ⟨[r], .cons hr .nil, [item], .cons hitem .nil,
      fun _ => List.forall_mem_singleton.mpr hplain, by simp [Fragment.toSql]⟩

/-- A compiled text is written as it is. -/
theorem writtenAs_compiled {text : String} : WrittenAs (compiled text) item ↔ text = item := by
  constructor
  · rintro ⟨value, verbatim, f, hliteral, hf, rfl⟩
    cases hliteral
    cases hf
    rfl
  · rintro rfl
    exact ⟨.string text, true, .text text, rfl, rfl, rfl⟩

/-- Next to a column an element compiles when it has a form. -/
theorem compileToSql_pair_iff (hdomain : c.domain = domain) {e x : Node} {text : String}
    (hx : c.reduceAt 1 x = .ok (compiled text)) :
    compileToSql c (.array w [e, x]) = .ok sql ↔
      ∃ r item, c.reduceAt 1 e = .ok r ∧ WrittenAs r item ∧
        "(" ++ item ++ "," ++ text ++ ")" = sql := by
  rw [compileToSql_array_iff hdomain]
  have toSql_pair (item : String) :
      (Fragment.list [item, text]).toSql = "(" ++ item ++ "," ++ text ++ ")" := by
    simp [Fragment.toSql, String.append_assoc]
  constructor
  · rintro ⟨rs, hrs, items, hitems, -, rfl⟩
    obtain _ | ⟨hr, _ | ⟨hcolumn, _ | _⟩⟩ := hrs
    obtain _ | ⟨hitem, _ | ⟨htext, _ | _⟩⟩ := hitems
    cases hx.symm.trans hcolumn
    obtain rfl := writtenAs_compiled.mp htext
    exact ⟨_, _, hr, hitem, (toSql_pair _).symm⟩
  · rintro ⟨r, item, hr, hitem, rfl⟩
    refine ⟨[r, compiled text], .cons hr (.cons hx .nil), [item, text],
      .cons hitem (.cons (writtenAs_compiled.mpr rfl) .nil), fun hconstants => ?_, toSql_pair item⟩
    cases hconstants (compiled text) (List.mem_cons_of_mem _ (List.mem_singleton_self _))

/-- What is validated to a plain array has a form next to verbatim literals. -/
theorem exists_writtenAs (hdomain : c.domain = domain) {level : Nat} {node : Node}
    (h : c.reduceAt level node = .ok r) (hlist : IsPlainList r) : ∃ item, WrittenAs r item := by
  obtain ⟨items, hitems⟩ := hlist
  cases Optimizer.settled_of_reduceAt h with
  | constant hconstant =>
      obtain ⟨value, verbatim, f, hrendered, rfl⟩ := hconstant
      rw [hdomain] at hrendered
      cases verbatim with
      | true => cases hitems
      | false =>
          cases hitems
          exact ⟨f.toSql, .array items, false, f, rfl, hrendered, rfl⟩
  | _ => cases hitems

/-- An element is written in one way. -/
theorem WrittenAs.unique {other : String} (h : WrittenAs r item) (h' : WrittenAs r other) :
    item = other := by
  obtain ⟨value, verbatim, f, hliteral, hf, rfl⟩ := h
  obtain ⟨value', verbatim', g, hliteral', hg, rfl⟩ := h'
  cases hliteral.symm.trans hliteral'
  cases hf.symm.trans hg
  rfl

/-- A tree is validated to an array of plain constants where it stands in an array. -/
def FoldsToList (c : Compiler) (e : Node) : Prop :=
  ∃ r, c.reduceAt 1 e = .ok r ∧ IsPlainList r

/-- **An element by itself and next to a column.** An element that compiles in both arrays is written in
the same way in both. It compiles in one exactly when it does in the other, unless it folds to an array
of plain constants: those compile next to a column only. -/
theorem array_next_to_column_iff (hdomain : c.domain = domain) {e x : Node} {text : String}
    (refers : Refers c.schema x text) (free : ∀ name ∈ x.names, c.feature? name = none)
    (hfits : c.Fits 1 x) (w w' : Weight) :
    (((∃ sql, compileToSql c (.array w [e]) = .ok sql) ↔
        ∃ sql, compileToSql c (.array w' [e, x]) = .ok sql) ↔ ¬ FoldsToList c e) ∧
      ∀ sql sql', compileToSql c (.array w [e]) = .ok sql →
        compileToSql c (.array w' [e, x]) = .ok sql' →
          ∃ item, sql = "(" ++ item ++ ")" ∧ sql' = "(" ++ item ++ "," ++ text ++ ")" := by
  have hx := reduceAt_of_refers hdomain refers free hfits
  simp only [compileToSql_single_iff hdomain, compileToSql_pair_iff hdomain hx]
  refine ⟨⟨?_, ?_⟩, ?_⟩
  · rintro hiff ⟨r, hr, hlist⟩
    obtain ⟨item, hitem⟩ := exists_writtenAs hdomain hr hlist
    obtain ⟨_, r', _, hr', _, hplain, _⟩ := hiff.mpr ⟨_, r, item, hr, hitem, rfl⟩
    cases hr.symm.trans hr'
    exact hplain hlist
  · intro hfolds
    constructor
    · rintro ⟨_, r, item, hr, hitem, -, -⟩
      exact ⟨_, r, item, hr, hitem, rfl⟩
    · rintro ⟨_, r, item, hr, hitem, -⟩
      exact ⟨_, r, item, hr, hitem, fun hlist => hfolds ⟨r, hr, hlist⟩, rfl⟩
  · rintro _ _ ⟨r, item, hr, hitem, -, rfl⟩ ⟨r', item', hr', hitem', rfl⟩
    cases hr.symm.trans hr'
    exact ⟨item, rfl, by rw [hitem.unique hitem']⟩

end Sql

namespace Sample

open Sql

/-- A constant string is written in the same way by itself and next to a parameter. -/
theorem array_next_to_column_country :
    Refers compiler.schema (memberOf "trx" "country") ":country" ∧
      (∀ name ∈ (memberOf "trx" "country").names, compiler.feature? name = none) ∧
      compiler.Fits 1 (memberOf "trx" "country") ∧
      ∃ item, "('DE')" = "(" ++ item ++ ")" ∧
        "('DE',:country)" = "(" ++ item ++ "," ++ ":country" ++ ")" := by
  have refers : Refers compiler.schema (memberOf "trx" "country") ":country" := .member 0 0 rfl rfl rfl
  have free : ∀ name ∈ (memberOf "trx" "country").names, compiler.feature? name = none := by
    refine List.forall_mem_singleton.mpr ?_
    rfl
  have hfits : compiler.Fits 1 (memberOf "trx" "country") := by
    unfold Optimizer.Fits
    decide
  have hboth := array_next_to_column_iff (e := .ofValue (.string "DE") false) rfl refers free hfits 0 0
  exact ⟨refers, free, hfits, hboth.2 _ _ rfl rfl⟩

/-- A list of two countries. -/
def countries : Node :=
  .array 0 [.ofValue (.string "DE") false, .ofValue (.string "FR") false]

/-- A list of two countries compiles next to a parameter, but not by itself. -/
theorem not_array_next_to_column_countries :
    Refers compiler.schema (memberOf "trx" "country") ":country" ∧
      ¬ ((∃ sql, compileToSql compiler (.array 0 [countries]) = .ok sql) ↔
        ∃ sql, compileToSql compiler (.array 0 [countries, memberOf "trx" "country"]) = .ok sql) := by
  refine ⟨.member 0 0 rfl rfl rfl, fun hiff => ?_⟩
  have hpair : compileToSql compiler (.array 0 [countries, memberOf "trx" "country"]) =
      .ok "(('DE','FR'),:country)" := rfl
  have halone : ∃ err, compileToSql compiler (.array 0 [countries]) = .error err := ⟨_, rfl⟩
  obtain ⟨err, halone⟩ := halone
  obtain ⟨sql, hsql⟩ := hiff.mpr ⟨_, hpair⟩
  cases halone.symm.trans hsql

end Sample

end RuleLang
