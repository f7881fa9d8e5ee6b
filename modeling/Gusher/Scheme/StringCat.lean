import Gusher.Scheme.JsonRoundTrip

/-!
# Joining nested lists of texts

`string_cat` joins the texts of a list, and those of each list in it first, with the same glue.  So
it gives the same on a nested list as on the flat list of its texts, in which a list that has no text
is an empty one.
-/

namespace Gusher

variable {α : Type}

/-! ### Joins of joins -/

/-- The join of two lists of texts that are not empty. -/
theorem intercalate_append {glue : List α} {xs ys : List (List α)} (hxs : xs ≠ []) (hys : ys ≠ []) :
  glue.intercalate (xs ++ ys) = glue.intercalate xs ++ glue ++ glue.intercalate ys
  := by
  induction xs with
  | nil => exact absurd rfl hxs
  | cons x xs ih =>
      cases xs with
      | nil =>
          obtain ⟨y, ys, rfl⟩ := List.exists_cons_of_ne_nil hys
          simp
      | cons x' xs =>
          rw [List.cons_append, List.cons_append, List.intercalate_cons_cons, ← List.cons_append,
            ih (List.cons_ne_nil x' xs), List.intercalate_cons_cons]
          simp

/-- The join of the joins of blocks is the join of what is in the blocks. -/
theorem intercalate_flatten {glue : List α} {blocks : List (List (List α))}
    (h : ∀ b ∈ blocks, b ≠ []) :
  glue.intercalate (blocks.map glue.intercalate) = glue.intercalate blocks.flatten
  := by
  induction blocks with
  | nil => rfl
  | cons b blocks ih =>
      have hb := h b List.mem_cons_self
      have hrest := ih (fun b' hb' => h b' (List.mem_cons_of_mem b hb'))
      cases blocks with
      | nil => simp
      | cons b' blocks =>
          have hne : (b' :: blocks).flatten ≠ [] := by
            rw [List.flatten_cons]
            exact List.append_ne_nil_of_left_ne_nil (h b' (by simp)) _
          rw [List.map_cons, List.map_cons, List.intercalate_cons_cons, ← List.map_cons, hrest,
            List.flatten_cons (l := b), intercalate_append hb hne]

/-! ### The function -/

/-- The text of a string, a number or a symbol. -/
def Scm.leafText : Scm → Option Text
  | .str s => some s
  | .int z => some (numberText z)
  | .number digits => some digits
  | .symbol name => some name
  | _ => none

/-- The loop of `string_cat`, with the texts before in reverse. -/
def catLoop (glue : Text) : Scm → List Text → List Text
  | .pair item node, list =>
      catLoop glue node
        (match item.leafText with
        | some s => s :: list
        | none =>
            if item.isList then glue.intercalate (catLoop glue item []).reverse :: list else list)
  | _, list => list

def stringCat (glue : Text) (items : Scm) : Text :=
  glue.intercalate (catLoop glue items []).reverse

/-- The texts of the strings, numbers and symbols of a nested list, from left to right; all other
leaves are dropped. -/
def leaves : Scm → List Text
  | .pair item node =>
      (match item.leafText with
        | some s => [s]
        | none => if item.isList then leaves item else []) ++ leaves node
  | _ => []

/-- The texts of a nested list, when a list in it that has no text counts as an empty text. -/
def texts : Scm → List Text
  | .pair item node =>
      (match item.leafText with
        | some s => [s]
        | none =>
            if item.isList then if texts item = [] then [[]] else texts item else []) ++ texts node
  | _ => []

/-- A list in the nested list has no text. -/
def hasBlank : Scm → Bool
  | .pair item node =>
      (item.leafText.isNone && item.isList && (leaves item == [] || hasBlank item)) || hasBlank node
  | _ => false

/-! ### Blocks -/

/-- The texts of an item, when a list that has no text counts as an empty text. -/
def itemTexts (item : Scm) : List (List Text) :=
  match item.leafText with
  | some s => [[s]]
  | none => if item.isList then [if texts item = [] then [[]] else texts item] else []

/-- The texts of a list, item by item. -/
def blocks : Scm → List (List Text)
  | .pair item node => itemTexts item ++ blocks node
  | _ => []

theorem ne_nil_of_mem_itemTexts {item : Scm} {b : List Text} (hb : b ∈ itemTexts item) :
  b ≠ []
  := by
  unfold itemTexts at hb
  split at hb
  case h_1 s _ =>
      rw [List.mem_singleton.mp hb]
      apply List.cons_ne_nil s []
  case h_2 =>
      split at hb
      case isFalse => cases hb
      case isTrue =>
          rw [List.mem_singleton.mp hb]
          split
          case isTrue => exact List.cons_ne_nil [] []
          case isFalse hne => exact hne

/-- What is in the blocks are the texts. -/
theorem flatten_blocks (items : Scm) :
  (blocks items).flatten = texts items ∧ ∀ b ∈ blocks items, b ≠ []
  := by
  induction items with
  | pair item node _ ih =>
      obtain ⟨hflatten, hne⟩ := ih
      constructor
      · rw [blocks, List.flatten_append, hflatten, texts, itemTexts]
        congr 1
        split
        · rfl
        · split
          · simp
          · rfl
      · intro b hb
        obtain hb | hb := List.mem_append.mp hb
        · apply ne_nil_of_mem_itemTexts hb
        · apply hne b hb
  | _ => simp [blocks, texts]

/-- The loop joins each block. -/
theorem catLoop_eq (glue : Text) (items : Scm) (list : List Text) :
  catLoop glue items list = ((blocks items).map glue.intercalate).reverse ++ list
  := by
  induction items generalizing list with
  | pair item node ihItem ihNode =>
      rw [catLoop, ihNode, blocks, List.map_append, List.reverse_append, List.append_assoc]
      congr 1
      unfold itemTexts
      split
      · simp
      · split
        · obtain ⟨hflatten, hne⟩ := flatten_blocks item
          rw [ihItem, List.append_nil, List.reverse_reverse, intercalate_flatten hne, hflatten]
          split
          case isTrue hnil => simp [hnil]
          case isFalse => simp
        · rfl
  | _ => simp [catLoop, blocks]

theorem stringCat_eq (glue : Text) (items : Scm) :
  stringCat glue items = glue.intercalate (texts items)
  := by
  obtain ⟨hflatten, hne⟩ := flatten_blocks items
  rw [stringCat, catLoop_eq, List.append_nil, List.reverse_reverse, intercalate_flatten hne,
    hflatten]

/-! ### Nested lists -/

theorem texts_map_str (ts : List Text) :
  texts (.ofList (ts.map .str)) = ts
  := by
  induction ts with
  | nil => rfl
  | cons t ts ih =>
      rw [List.map_cons, Scm.ofList_cons, texts, ih]
      rfl

/-- When each list in a nested list has a text, the texts are those of the leaves. -/
theorem texts_eq_leaves {items : Scm} (h : hasBlank items = false) :
  texts items = leaves items
  := by
  induction items with
  | pair item node ihItem ihNode =>
      rw [hasBlank, Bool.or_eq_false_iff] at h
      obtain ⟨hitem, hnode⟩ := h
      rw [texts, leaves, ihNode hnode]
      congr 1
      cases hleaf : item.leafText with
      | some s => rfl
      | none =>
          cases hlist : item.isList with
          | false => rfl
          | true =>
              simp only [hleaf, hlist, Option.isNone_none, Bool.true_and,
                Bool.or_eq_false_iff] at hitem
              obtain ⟨hne, hblank⟩ := hitem
              have hleaves : leaves item ≠ [] := by simpa using hne
              simp only [if_true, ihItem hblank, if_neg hleaves]
  | _ => rfl

/-- **Joining nested lists.**  The result is the join of the texts of the strings, numbers and
symbols, from left to right, where a list in the nested list that has no text counts as an empty
text.  So a nested list gives the same as the flat list of these texts, and when each list in it has
a text, the join of its leaves. -/
theorem stringCat_nested (glue : Text) (items : List Scm) :
  stringCat glue (.ofList items) = glue.intercalate (texts (.ofList items)) ∧
    stringCat glue (.ofList items) = stringCat glue (.ofList ((texts (.ofList items)).map .str)) ∧
    (hasBlank (.ofList items) = false →
      stringCat glue (.ofList items) = glue.intercalate (leaves (.ofList items)))
  := by
  have hjoin := stringCat_eq glue (.ofList items)
  refine ⟨hjoin, ?_, ?_⟩
  · rw [hjoin, stringCat_eq, texts_map_str]
  · intro h
    rw [hjoin, texts_eq_leaves h]

/-- An empty list between two strings gives the glue twice. -/
theorem stringCat_empty_list :
  stringCat ", ".toList (.ofList [.str ['a'], .nil, .str ['b']]) = "a, , b".toList ∧
    (", ".toList).intercalate (leaves (.ofList [.str ['a'], .nil, .str ['b']])) = "a, b".toList
  := by
  constructor
  · decide
  · decide

end Gusher
