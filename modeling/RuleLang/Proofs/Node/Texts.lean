import RuleLang.Proofs.Node.Unmarked
import RuleLang.Proofs.Value.Texts

/-!
# Texts inside trees

Trees with the same outline differ only in the contents of the texts inside their literals.

* `Node.strings`: the texts inside the literals of a tree, from left to right.
* `Node.outline`: a tree without the contents of these texts.
* `Node.Alike`: trees that differ in texts only, with related texts in each place.
* `Node.alike_of_outline_eq`: trees with the same outline are alike when their texts are related in
  order.
* `Node.transparent_of_ofJson?`: a tree that was read has no verbatim literal.
-/

namespace RuleLang.Node

/-! ### Outlines -/

/-- The texts inside the literals of a tree, from left to right. -/
def strings (node : Node) : List String :=
  node.literals.flatMap fun x => x.1.strings

mutual

/-- A tree without the contents of the texts inside its literals. -/
def outline : Node → Node
  | literal w value verbatim => literal w value.outline verbatim
  | identifier w name => identifier w name
  | unary w op operand => unary w op (outline operand)
  | binary w op left right => binary w op (outline left) (outline right)
  | logical w op operands => logical w op (outlines operands)
  | array w elements => array w (outlines elements)
  | conditional w test consequent alternate =>
    conditional w (outline test) (outline consequent) (outline alternate)
  | sequence w expressions => sequence w (outlines expressions)
  | call w callee arguments => call w (outline callee) (outlines arguments)
  | member w object path => member w (outline object) path

/-- Trees without the contents of the texts inside their literals. -/
def outlines : List Node → List Node
  | [] => []
  | node :: rest => outline node :: outlines rest

end

/-- The outlines of trees are those of each tree. -/
theorem outlines_eq_map (nodes : List Node) : outlines nodes = nodes.map outline := by
  induction nodes with
  | nil => rw [outlines, List.map_nil]
  | cons node rest ih => rw [outlines, ih, List.map_cons]

/-- The literals of trees are those of each tree. -/
theorem literalsOfAll_eq_flatMap (nodes : List Node) :
    literalsOfAll nodes = nodes.flatMap literals := by
  induction nodes with
  | nil => rw [literalsOfAll, List.flatMap_nil]
  | cons node rest ih => rw [literalsOfAll, ih, List.flatMap_cons]

/-- The outline has the outlines of the literals. -/
theorem literals_outline (node : Node) :
    node.outline.literals = node.literals.map fun x => (x.1.outline, x.2) := by
  induction node with
  | literal w value verbatim => rfl
  | identifier w name => rfl
  | unary w op operand ih => exact ih
  | binary w op left right ihl ihr => rw [outline, literals, literals, ihl, ihr, List.map_append]
  | conditional w test consequent alternate iht ihc iha =>
      rw [outline, literals, literals, iht, ihc, iha, List.map_append, List.map_append]
  | member w object path ih => exact ih
  | call w callee arguments ihc ih =>
      rw [outline, literals, literals, outlines_eq_map, literalsOfAll_eq_flatMap,
        literalsOfAll_eq_flatMap, ihc, List.map_append, List.flatMap_map, List.map_flatMap,
        List.flatMap_congr ih]
  | logical w op nodes ih | array w nodes ih | sequence w nodes ih =>
      rw [outline, literals, literals, outlines_eq_map, literalsOfAll_eq_flatMap,
        literalsOfAll_eq_flatMap, List.flatMap_map, List.map_flatMap]
      exact List.flatMap_congr ih

/-- Trees with the same outline have as many texts. -/
theorem length_strings_eq {a b : Node} (h : a.outline = b.outline) :
    a.strings.length = b.strings.length := by
  have hcount (node : Node) : node.outline.strings.length = node.strings.length := by
    rw [strings, strings, literals_outline, List.flatMap_map, List.length_flatMap, List.length_flatMap]
    simp only [Value.strings_outline, List.length_map]
  rw [← hcount a, ← hcount b, h]

/-- The texts in trees are those in each tree. -/
theorem strings_of_children {nodes : List Node} :
    ((literalsOfAll nodes).flatMap fun x => x.1.strings) = nodes.flatMap strings := by
  rw [literalsOfAll_eq_flatMap, List.flatMap_assoc]
  rfl

/-! ### Alike trees -/

/-- Trees without verbatim literals that differ in texts only, with related texts in each place. -/
inductive Alike (R : String → String → Prop) : Node → Node → Prop
  | literal {w w' : Weight} {v v' : Value} (h : v.Alike R v') :
      Alike R (.literal w v false) (.literal w' v' false)
  | identifier {w w' : Weight} (name : String) : Alike R (.identifier w name) (.identifier w' name)
  | unary {w w' : Weight} (op : UnaryOp) {a b : Node} (h : Alike R a b) :
      Alike R (.unary w op a) (.unary w' op b)
  | binary {w w' : Weight} (op : BinaryOp) {a b c d : Node} (left : Alike R a b) (right : Alike R c d) :
      Alike R (.binary w op a c) (.binary w' op b d)
  | logical {w w' : Weight} (op : LogicalOp) {as bs : List Node} (h : List.Forall₂ (Alike R) as bs) :
      Alike R (.logical w op as) (.logical w' op bs)
  | array {w w' : Weight} {as bs : List Node} (h : List.Forall₂ (Alike R) as bs) :
      Alike R (.array w as) (.array w' bs)
  | conditional {w w' : Weight} {a b c d e f : Node} (test : Alike R a b) (consequent : Alike R c d)
      (alternate : Alike R e f) : Alike R (.conditional w a c e) (.conditional w' b d f)
  | sequence {w w' : Weight} {as bs : List Node} (h : List.Forall₂ (Alike R) as bs) :
      Alike R (.sequence w as) (.sequence w' bs)
  | call {w w' : Weight} {a b : Node} {as bs : List Node} (callee : Alike R a b)
      (arguments : List.Forall₂ (Alike R) as bs) : Alike R (.call w a as) (.call w' b bs)
  | member {w w' : Weight} {a b : Node} (h : Alike R a b) (path : Path) :
      Alike R (.member w a path) (.member w' b path)

/-- Whether no literal of a tree is verbatim. -/
def Transparent (node : Node) : Prop :=
  ∀ x ∈ node.literals, x.2 = false

variable {R : String → String → Prop}

/-- Lists of trees with the same outlines are alike when this holds of each two of them. -/
theorem alike_of_outlines_eq {as bs : List Node}
    (ih : ∀ a ∈ as, ∀ {b}, a.Transparent → a.outline = b.outline → List.Forall₂ R a.strings b.strings →
      Alike R a b) (hplain : ∀ x ∈ literalsOfAll as, x.2 = false) (h : outlines as = outlines bs)
    (hstrings : List.Forall₂ R (as.flatMap strings) (bs.flatMap strings)) :
    List.Forall₂ (Alike R) as bs := by
  rw [outlines_eq_map, outlines_eq_map] at h
  refine forall₂_of_flatMap (fun _ _ => length_strings_eq) (fun a ha b => ih a ha ?_) h hstrings
  intro x hx
  rw [literalsOfAll_eq_flatMap] at hplain
  exact hplain x (List.mem_flatMap.mpr ⟨a, ha, hx⟩)

/-- Trees with the same outline are alike when their texts are related in order. -/
theorem alike_of_outline_eq {a b : Node} (hplain : a.Transparent) (h : a.outline = b.outline)
    (hstrings : List.Forall₂ R a.strings b.strings) : Alike R a b := by
  -- Equal outlines have equally many texts in each subtree, so the lists of texts split in the same places.
  induction a generalizing b with
  | literal w value verbatim =>
      cases b with
      | literal w' value' verbatim' =>
          have hverbatim : verbatim = false := hplain (value, verbatim) List.mem_cons_self
          rw [outline, outline, Node.literal.injEq] at h
          rw [← h.2.2, hverbatim]
          rw [strings, strings, literals, literals, List.flatMap_singleton, List.flatMap_singleton]
            at hstrings
          exact .literal (Value.alike_of_outline_eq h.2.1 hstrings)
      | _ => cases h
  | identifier w name =>
      cases b with
      | identifier w' name' => cases h; exact .identifier name
      | _ => cases h
  | unary w op operand ih =>
      cases b with
      | unary w' op' operand' =>
          rw [outline, outline, Node.unary.injEq] at h
          rw [← h.2.1]
          exact .unary op (ih hplain h.2.2 hstrings)
      | _ => cases h
  | member w object path ih =>
      cases b with
      | member w' object' path' =>
          rw [outline, outline, Node.member.injEq] at h
          rw [← h.2.2]
          exact .member (ih hplain h.2.1 hstrings) path
      | _ => cases h
  | binary w op left right ihl ihr =>
      cases b with
      | binary w' op' left' right' =>
          rw [outline, outline, Node.binary.injEq] at h
          rw [Transparent, literals, List.forall_mem_append] at hplain
          rw [strings, strings, literals, literals, List.flatMap_append, List.flatMap_append]
            at hstrings
          obtain ⟨hl, hr⟩ := forall₂_append_of_length hstrings (length_strings_eq h.2.2.1)
          rw [← h.2.1]
          exact .binary op (ihl hplain.1 h.2.2.1 hl) (ihr hplain.2 h.2.2.2 hr)
      | _ => cases h
  | conditional w test consequent alternate iht ihc iha =>
      cases b with
      | conditional w' test' consequent' alternate' =>
          rw [outline, outline, Node.conditional.injEq] at h
          rw [Transparent, literals, List.forall_mem_append, List.forall_mem_append] at hplain
          rw [strings, strings, literals, literals, List.append_assoc, List.append_assoc,
            List.flatMap_append, List.flatMap_append, List.flatMap_append, List.flatMap_append]
            at hstrings
          obtain ⟨ht, hstrings⟩ := forall₂_append_of_length hstrings (length_strings_eq h.2.1)
          obtain ⟨hc, ha⟩ := forall₂_append_of_length hstrings (length_strings_eq h.2.2.1)
          exact .conditional (iht hplain.1.1 h.2.1 ht) (ihc hplain.1.2 h.2.2.1 hc)
            (iha hplain.2 h.2.2.2 ha)
      | _ => cases h
  | logical w op operands ih =>
      cases b with
      | logical w' op' operands' =>
          rw [outline, outline, Node.logical.injEq] at h
          rw [strings, strings, literals, literals, strings_of_children, strings_of_children]
            at hstrings
          rw [← h.2.1]
          exact .logical op (alike_of_outlines_eq ih hplain h.2.2 hstrings)
      | _ => cases h
  | array w elements ih =>
      cases b with
      | array w' elements' =>
          rw [outline, outline, Node.array.injEq] at h
          rw [strings, strings, literals, literals, strings_of_children, strings_of_children]
            at hstrings
          exact .array (alike_of_outlines_eq ih hplain h.2 hstrings)
      | _ => cases h
  | sequence w expressions ih =>
      cases b with
      | sequence w' expressions' =>
          rw [outline, outline, Node.sequence.injEq] at h
          rw [strings, strings, literals, literals, strings_of_children, strings_of_children]
            at hstrings
          exact .sequence (alike_of_outlines_eq ih hplain h.2 hstrings)
      | _ => cases h
  | call w callee arguments ihc ih =>
      cases b with
      | call w' callee' arguments' =>
          rw [outline, outline, Node.call.injEq] at h
          rw [Transparent, literals, List.forall_mem_append] at hplain
          rw [strings, strings, literals, literals, List.flatMap_append, List.flatMap_append,
            strings_of_children, strings_of_children] at hstrings
          obtain ⟨hc, ha⟩ := forall₂_append_of_length hstrings (length_strings_eq h.2.1)
          exact .call (ihc hplain.1 h.2.1 hc) (alike_of_outlines_eq ih hplain.2 h.2.2 ha)
      | _ => cases h

/-! ### Trees that were read -/

/-- A tree without marks has no verbatim literal. -/
theorem Unmarked.transparent {node : Node} (h : node.Unmarked) : node.Transparent := by
  have hall {nodes : List Node} (hnodes : ∀ n ∈ nodes, n.Transparent) :
      ∀ x ∈ literalsOfAll nodes, x.2 = false := by
    rw [literalsOfAll_eq_flatMap]
    intro x hx
    obtain ⟨n, hn, hx⟩ := List.mem_flatMap.mp hx
    exact hnodes n hn x hx
  have hchild {child node : Node} (h : node.Unmarked) (mem : child ∈ node.children) :
      child.Unmarked := fun part hpart => h part (.child mem hpart)
  induction node with
  | literal w value verbatim => exact List.forall_mem_singleton.mpr ((h _ .root).2 value verbatim rfl)
  | identifier w name => exact List.forall_mem_nil _
  | unary w op operand ih => exact ih (hchild h List.mem_cons_self)
  | binary w op left right ihl ihr =>
      refine List.forall_mem_append.mpr ⟨ihl (hchild h ?_), ihr (hchild h ?_)⟩
      all_goals simp [children]
  | conditional w test consequent alternate iht ihc iha =>
      refine List.forall_mem_append.mpr ⟨List.forall_mem_append.mpr ⟨iht (hchild h ?_), ihc (hchild h ?_)⟩,
        iha (hchild h ?_)⟩
      all_goals simp [children]
  | call w callee arguments ihc ih =>
      refine List.forall_mem_append.mpr ⟨ihc (hchild h List.mem_cons_self), hall fun n hn => ?_⟩
      exact ih n hn (hchild h (List.mem_cons_of_mem _ hn))
  | member w object path ih => exact ih (hchild h List.mem_cons_self)
  | logical w op nodes ih | array w nodes ih | sequence w nodes ih =>
      exact hall fun n hn => ih n hn (hchild h hn)

/-- A tree that was read has no verbatim literal. -/
theorem transparent_of_ofJson? {json : Json} {node : Node} (h : ofJson? json = some node) :
    node.Transparent :=
  (unmarked_of_ofJson? h).transparent

end RuleLang.Node
