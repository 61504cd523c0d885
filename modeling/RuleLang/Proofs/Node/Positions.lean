import RuleLang.Proofs.Node.Induction

/-!
# Where names and chains stand in a tree

* `Node.valueNames`: the names that stand elsewhere than as the callee of a call.
* `Node.hasChain`: whether a tree contains a chain.
* `Node.chainsInTests`: whether chains stand only where a truth value is asked for.
-/

namespace RuleLang.Node

mutual

/-- The names that stand elsewhere than as the callee of a call. -/
def valueNames : Node → List String
  | literal _ _ _ => []
  | identifier _ name => [name]
  | unary _ _ operand => valueNames operand
  | binary _ _ left right => valueNames left ++ valueNames right
  | logical _ _ operands => valueNamesOfAll operands
  | array _ elements => valueNamesOfAll elements
  | conditional _ test consequent alternate =>
    valueNames test ++ valueNames consequent ++ valueNames alternate
  | sequence _ expressions => valueNamesOfAll expressions
  | call _ callee arguments =>
    (if callee.identifier?.isSome then [] else valueNames callee) ++ valueNamesOfAll arguments
  | member _ object _ => valueNames object

/-- The names that stand in trees elsewhere than as the callee of a call. -/
def valueNamesOfAll : List Node → List String
  | [] => []
  | node :: rest => valueNames node ++ valueNamesOfAll rest

end

mutual

/-- Whether a tree contains a chain. -/
def hasChain : Node → Bool
  | literal _ _ _ => false
  | identifier _ _ => false
  | unary _ _ operand => hasChain operand
  | binary _ _ left right => hasChain left || hasChain right
  | logical _ _ _ => true
  | array _ elements => anyHasChain elements
  | conditional _ test consequent alternate =>
    hasChain test || hasChain consequent || hasChain alternate
  | sequence _ expressions => anyHasChain expressions
  | call _ callee arguments => hasChain callee || anyHasChain arguments
  | member _ object _ => hasChain object

/-- Whether one of some trees contains a chain. -/
def anyHasChain : List Node → Bool
  | [] => false
  | node :: rest => hasChain node || anyHasChain rest

end

mutual

/-- Whether chains stand only where a truth value is asked for: as an operand of `!` or of a chain, as
the test of a conditional, and, if the truth value of the tree is asked for, as the tree itself, as a
branch of a conditional or at the end of a sequence. -/
def chainsInTests (asked : Bool) : Node → Bool
  | literal _ _ _ => true
  | identifier _ _ => true
  | unary _ op operand => chainsInTests (op = .not) operand
  | binary _ _ left right => chainsInTests false left && chainsInTests false right
  | logical _ _ operands => asked && allChainsInTests true operands
  | array _ elements => allChainsInTests false elements
  | conditional _ test consequent alternate =>
    chainsInTests true test && chainsInTests asked consequent && chainsInTests asked alternate
  | sequence _ expressions => lastChainsInTests asked expressions
  | call _ callee arguments => chainsInTests false callee && allChainsInTests false arguments
  | member _ object _ => chainsInTests false object

/-- Whether chains stand only where a truth value is asked for, in each of some trees. -/
def allChainsInTests (asked : Bool) : List Node → Bool
  | [] => true
  | node :: rest => chainsInTests asked node && allChainsInTests asked rest

/-- Whether chains stand only where a truth value is asked for, in trees of which only the last may be
asked for one. -/
def lastChainsInTests (asked : Bool) : List Node → Bool
  | [] => true
  | node :: rest => chainsInTests (asked && rest.isEmpty) node && lastChainsInTests asked rest

end

/-! ### Lists of trees -/

/-- The names for values in trees are those in each tree. -/
@[simp] theorem mem_valueNamesOfAll {name : String} {nodes : List Node} :
    name ∈ valueNamesOfAll nodes ↔ ∃ node ∈ nodes, name ∈ valueNames node := by
  induction nodes with
  | nil => simp [valueNamesOfAll]
  | cons node rest ih => simp [valueNamesOfAll, ih]

/-- What holds of the names of all trees of a list holds of the names of each of them. -/
theorem forall_valueNames_of_mem {p : String → Prop} {node : Node} {nodes : List Node}
    (h : ∀ name ∈ valueNamesOfAll nodes, p name) (mem : node ∈ nodes) :
    ∀ name ∈ node.valueNames, p name :=
  fun name hname => h name (mem_valueNamesOfAll.mpr ⟨node, mem, hname⟩)

/-- No tree has a chain if each of them has none. -/
@[simp] theorem anyHasChain_eq_false_iff {nodes : List Node} :
    anyHasChain nodes = false ↔ ∀ node ∈ nodes, hasChain node = false := by
  induction nodes with
  | nil => simp [anyHasChain]
  | cons node rest ih => simp [anyHasChain, ih]

/-- The chains in trees stand in tests if those in each tree do. -/
@[simp] theorem allChainsInTests_iff {asked : Bool} {nodes : List Node} :
    allChainsInTests asked nodes ↔ ∀ node ∈ nodes, chainsInTests asked node := by
  induction nodes with
  | nil => simp [allChainsInTests]
  | cons node rest ih => simp [allChainsInTests, ih]

/-- Every tree of a list is asked for its truth value or not at all. -/
theorem chainsInTests_of_mem_last {asked : Bool} {nodes : List Node}
    (h : lastChainsInTests asked nodes) {node : Node} (hnode : node ∈ nodes) :
    chainsInTests asked node ∨ chainsInTests false node := by
  induction nodes with
  | nil => exact absurd hnode List.not_mem_nil
  | cons head rest ih =>
      rw [lastChainsInTests, Bool.and_eq_true] at h
      rcases List.mem_cons.mp hnode with rfl | hnode
      · cases hempty : rest.isEmpty with
        | true => exact .inl (by simpa [hempty] using h.1)
        | false => exact .inr (by simpa [hempty] using h.1)
      · exact ih h.2 hnode

/-- Trees without chains in a wrong place may come one after the other. -/
theorem lastChainsInTests_of_forall {asked : Bool} {nodes : List Node}
    (h : ∀ node ∈ nodes, ∀ asked, chainsInTests asked node) : lastChainsInTests asked nodes := by
  induction nodes with
  | nil => rfl
  | cons head rest ih =>
      rw [List.forall_mem_cons] at h
      rw [lastChainsInTests, Bool.and_eq_true]
      exact ⟨h.1 _, ih h.2⟩

/-- A tree without chains has none in a wrong place. -/
theorem chainsInTests_of_hasChain {node : Node} (asked : Bool) (h : node.hasChain = false) :
    node.chainsInTests asked := by
  induction node generalizing asked with
  | literal w value verbatim => rfl
  | identifier w name => rfl
  | unary w op operand ih => exact ih _ h
  | binary w op left right ihLeft ihRight =>
      rw [hasChain, Bool.or_eq_false_iff] at h
      rw [chainsInTests, Bool.and_eq_true]
      exact ⟨ihLeft _ h.1, ihRight _ h.2⟩
  | logical w op operands ih => cases h
  | array w elements ih =>
      rw [hasChain, anyHasChain_eq_false_iff] at h
      rw [chainsInTests, allChainsInTests_iff]
      intro node hnode
      exact ih node hnode _ (h node hnode)
  | conditional w test consequent alternate ihTest ihConsequent ihAlternate =>
      rw [hasChain, Bool.or_eq_false_iff, Bool.or_eq_false_iff] at h
      rw [chainsInTests, Bool.and_eq_true, Bool.and_eq_true]
      exact ⟨⟨ihTest _ h.1.1, ihConsequent _ h.1.2⟩, ihAlternate _ h.2⟩
  | sequence w expressions ih =>
      rw [hasChain, anyHasChain_eq_false_iff] at h
      rw [chainsInTests]
      exact lastChainsInTests_of_forall fun node hnode asked => ih node hnode asked (h node hnode)
  | call w callee arguments ihCallee ih =>
      rw [hasChain, Bool.or_eq_false_iff, anyHasChain_eq_false_iff] at h
      rw [chainsInTests, Bool.and_eq_true, allChainsInTests_iff]
      exact ⟨ihCallee _ h.1, fun node hnode => ih node hnode _ (h.2 node hnode)⟩
  | member w object path ih => exact ih _ h

end RuleLang.Node
