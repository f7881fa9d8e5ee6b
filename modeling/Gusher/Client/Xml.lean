import Gusher.Scheme.Object
import Gusher.Store.TrimCat
import Mathlib.Logic.Relation

/-!
# The Scheme value of an XML document

`walk_tree` makes a list of the name, the attributes and the content of an element; the content is its
text, or the elements in it if there are any.  `XmlEdit` collects the changes of a document that the value
does not show: they are all of them (`walkTree_eq_iff`), when the value exists at all.  There is none, as
`trim_cat` reads before the string and `walk_tree` follows a null pointer, when an element has neither
text nor elements in it, or an attribute has no value (`walkTree_ne_none_iff`).
-/

namespace Gusher

open CString Relation

/-- `xmlNode`: an element has attributes, each with the contents of the nodes of its value, and
children; other types of nodes are those that `walk_tree` prints. -/
inductive XmlNode where
  | element (name : Option Text) (properties : List (Text × List Text)) (children : List XmlNode)
  | text (content : Text)
  | cdata (content : Text)
  | comment
  | other (type : ℕ)

/-- The loop over the attributes; the content of the first node of a value is taken. -/
def walkProperties : List (Text × List Text) → Scm → Option Scm
  | [], attribs => some attribs
  | (_, []) :: _, _ => none
  | (name, value :: _) :: properties, attribs =>
      walkProperties properties (.pair (.pair (.symbol name) (.str value)) attribs)

mutual

/-- `walk_tree`; `none` stands for an access outside an object, and for an exception.  A node that is no
element has neither children nor text in them. -/
def walkTree : XmlNode → Option Scm
  | .element name properties children =>
      (walkChildren children [] []).bind (fun (text, elements) =>
        (if elements.isEmpty then (trimCat text.reverse).map .str
          else some (.ofList elements.reverse)).bind (fun content =>
          (walkProperties properties .nil).map (fun attribs =>
            .ofList [.symbol (name.getD "no-name".toList), attribs, content])))
  | _ => none

/-- The loop over the children. -/
def walkChildren : List XmlNode → List Text → List Scm → Option (List Text × List Scm)
  | [], text, elements => some (text, elements)
  | .element name properties children :: nodes, text, elements =>
      (walkTree (.element name properties children)).bind (fun element =>
        walkChildren nodes text (element :: elements))
  | .text content :: nodes, text, elements => walkChildren nodes (content :: text) elements
  | .cdata content :: nodes, text, elements => walkChildren nodes (content :: text) elements
  | .comment :: nodes, text, elements => walkChildren nodes text elements
  | .other _ :: nodes, text, elements => walkChildren nodes text elements

end

/-- `parse_xml`, for a reader of documents that gives the root element; `none` stands for an exception
and for an access outside an object. -/
def parseXml (xmlReadMemory : List UInt8 → Option XmlNode) (doc : Scm) : Option Scm :=
  (toUtf8String doc).bind (fun buf =>
    match xmlReadMemory buf with
    | none => some (.bool false)
    | some root => walkTree root)

/-! ### What the value is made of -/

/-- The elements among nodes. -/
def elementsOf (nodes : List XmlNode) : List XmlNode :=
  nodes.filter (fun
    | .element _ _ _ => true
    | _ => false)

/-- The pieces of text among nodes. -/
def textOf (nodes : List XmlNode) : List Text :=
  nodes.filterMap (fun
    | .text content | .cdata content => some content
    | _ => none)

@[simp]
theorem elementsOf_nil :
  elementsOf [] = []
  := rfl

@[simp]
theorem textOf_nil :
  textOf [] = []
  := rfl

@[simp]
theorem elementsOf_append (nodes nodes' : List XmlNode) :
  elementsOf (nodes ++ nodes') = elementsOf nodes ++ elementsOf nodes'
  := List.filter_append _ _

@[simp]
theorem textOf_append (nodes nodes' : List XmlNode) :
  textOf (nodes ++ nodes') = textOf nodes ++ textOf nodes'
  := List.filterMap_append

section

variable (nodes : List XmlNode)

@[simp]
theorem elementsOf_element (name : Option Text) (properties : List (Text × List Text))
    (children : List XmlNode) :
  elementsOf (.element name properties children :: nodes)
    = .element name properties children :: elementsOf nodes
  := rfl

@[simp]
theorem elementsOf_text (t : Text) :
  elementsOf (.text t :: nodes) = elementsOf nodes
  := rfl

@[simp]
theorem elementsOf_cdata (t : Text) :
  elementsOf (.cdata t :: nodes) = elementsOf nodes
  := rfl

@[simp]
theorem elementsOf_comment :
  elementsOf (.comment :: nodes) = elementsOf nodes
  := rfl

@[simp]
theorem elementsOf_other (type : ℕ) :
  elementsOf (.other type :: nodes) = elementsOf nodes
  := rfl

@[simp]
theorem textOf_element (name : Option Text) (properties : List (Text × List Text))
    (children : List XmlNode) :
  textOf (.element name properties children :: nodes) = textOf nodes
  := rfl

@[simp]
theorem textOf_text (t : Text) :
  textOf (.text t :: nodes) = t :: textOf nodes
  := rfl

@[simp]
theorem textOf_cdata (t : Text) :
  textOf (.cdata t :: nodes) = t :: textOf nodes
  := rfl

@[simp]
theorem textOf_comment :
  textOf (.comment :: nodes) = textOf nodes
  := rfl

@[simp]
theorem textOf_other (type : ℕ) :
  textOf (.other type :: nodes) = textOf nodes
  := rfl

end

def valuesOf (properties : List (Text × List Text)) : Option (List (Text × Text)) :=
  properties.mapM (fun p => p.2.head?.map (p.1, ·))

def contentOf (nodes : List XmlNode) : Option Scm :=
  if elementsOf nodes = [] then (trimCat (textOf nodes)).map .str
  else ((elementsOf nodes).mapM walkTree).map .ofList

theorem walkProperties_eq (properties : List (Text × List Text)) (attribs : List (Text × Scm)) :
  walkProperties properties (.alist attribs)
    = (valuesOf properties).map (fun values =>
      .alist ((values.map (fun v => (v.1, .str v.2))).reverse ++ attribs))
  := by
  induction properties generalizing attribs with
  | nil => rfl
  | cons p properties ih =>
      obtain ⟨name, values⟩ := p
      rw [valuesOf, List.mapM_cons]
      cases values with
      | nil => rfl
      | cons value values =>
          have hnext := ih ((name, .str value) :: attribs)
          rw [Scm.alist_cons] at hnext
          rw [walkProperties, hnext, valuesOf]
          simp only [List.head?_cons, Option.map_some, Option.bind_eq_bind, Option.bind_some,
            Option.pure_def]
          cases properties.mapM (fun p : Text × List Text => p.2.head?.map (p.1, ·)) with
          | none => rfl
          | some values' => simp

theorem walkChildren_eq (nodes : List XmlNode) (text : List Text) (elements : List Scm) :
  walkChildren nodes text elements
    = ((elementsOf nodes).mapM walkTree).map (fun es =>
      ((textOf nodes).reverse ++ text, es.reverse ++ elements))
  := by
  induction nodes generalizing text elements with
  | nil => simp [walkChildren, elementsOf, textOf]
  | cons node nodes ih =>
      cases node with
      | element name properties children =>
          rw [walkChildren, elementsOf_element, textOf_element, List.mapM_cons]
          cases walkTree (.element name properties children) with
          | none => rfl
          | some e =>
              rw [Option.bind_some, ih]
              cases (elementsOf nodes).mapM walkTree with
              | none => rfl
              | some es => simp
      | text content =>
          rw [walkChildren, ih]
          simp
      | cdata content =>
          rw [walkChildren, ih]
          simp
      | comment =>
          rw [walkChildren, ih]
          simp
      | other type =>
          rw [walkChildren, ih]
          simp

/-- The value of an element. -/
theorem walkTree_element (name : Option Text) (properties : List (Text × List Text))
    (children : List XmlNode) :
  walkTree (.element name properties children)
    = (contentOf children).bind (fun content => (valuesOf properties).map (fun values =>
      .ofList [.symbol (name.getD "no-name".toList),
        .alist (values.map (fun v => (v.1, .str v.2))).reverse, content]))
  := by
  have hproperties := walkProperties_eq properties []
  rw [Scm.alist_nil] at hproperties
  rw [walkTree, walkChildren_eq, hproperties, contentOf]
  split
  case isTrue hnone =>
      rw [hnone]
      simp [Function.comp_def]
  case isFalse hsome =>
      cases hes : (elementsOf children).mapM walkTree with
      | none => rfl
      | some es =>
          have hne : es ≠ [] := by
            rintro rfl
            cases hchildren : elementsOf children with
            | nil => exact hsome hchildren
            | cons node nodes =>
                rw [hchildren, List.mapM_cons] at hes
                obtain ⟨e, -, hrest⟩ := Option.bind_eq_some_iff.mp hes
                obtain ⟨es, -, hcons⟩ := Option.bind_eq_some_iff.mp hrest
                cases hcons
          simp [hne, Function.comp_def]

/-! ### Elements with a value -/

/-- An element has a text other than white space or elements in it, and so on for these; and each
attribute has a value. -/
inductive Readable : XmlNode → Prop where
  | leaf {name properties children} (hvalues : ∀ p ∈ properties, p.2 ≠ [])
      (hnone : elementsOf children = []) (hnul : Char.ofNat 0 ∉ (textOf children).flatten)
      (htext : ∃ c ∈ (textOf children).flatten, isBlank c = false) :
      Readable (.element name properties children)
  | branch {name properties children} (hvalues : ∀ p ∈ properties, p.2 ≠ [])
      (hsome : elementsOf children ≠ []) (helements : ∀ node ∈ elementsOf children, Readable node) :
      Readable (.element name properties children)

/-- `trim_cat` of a text other than white space, with no NUL in it. -/
theorem trimJoined_of_exists {joined : Text} (hnul : Char.ofNat 0 ∉ joined)
    (h : ∃ c ∈ joined, isBlank c = false) :
  trimJoined joined = some (trim joined)
  := by
  have hutf8 : toUtf8String (.str joined) = some (encodeUtf8 joined) := if_neg hnul
  have hback : (0 : UInt8) ∉ (encodeUtf8 joined).rdropWhile isspace :=
    fun hmem => zero_notMem_encodeUtf8 hnul (( List.rdropWhile_prefix _ _).subset hmem)
  have hfront : (0 : UInt8) ∉ ((encodeUtf8 joined).rdropWhile isspace).dropWhile isspace :=
    fun hmem => hback ((List.dropWhile_suffix _).subset hmem)
  obtain ⟨r, back, htrimBack⟩ := trimBack_eq (exists_not_isspace h) []
  obtain ⟨front, htrimFront, hsame⟩ := trimFront_eq hback r
  rw [trimJoined, hutf8]
  simp only [Option.bind_some, htrimBack, htrimFront]
  rw [fromUtf8_eq_some_iff, encodeUtf8_trim]
  cases hmoved : (back || front) with
  | true =>
      rw [if_pos rfl, cstr_append_zero, cstr_of_not_mem hfront]
  | false =>
      rw [if_neg Bool.false_ne_true, cstr_append_zero, cstr_of_not_mem hback,
        hsame (Bool.or_eq_false_iff.mp hmoved).2]

/-- `trim_cat` of white space, and of a text with a NUL in it. -/
theorem trimJoined_eq_none {joined : Text}
    (h : Char.ofNat 0 ∈ joined ∨ ∀ c ∈ joined, isBlank c = true) :
  trimJoined joined = none
  := by
  rw [trimJoined]
  by_cases hnul : Char.ofNat 0 ∈ joined
  · have hutf8 : toUtf8String (.str joined) = none := if_pos hnul
    rw [hutf8, Option.bind_none]
  · have hutf8 : toUtf8String (.str joined) = some (encodeUtf8 joined) := if_neg hnul
    rw [hutf8, Option.bind_some, trimBack_of_blank (isspace_encodeUtf8 (h.resolve_left hnul)),
      Option.bind_none]

theorem exists_valuesOf {properties : List (Text × List Text)} :
  (∃ values, valuesOf properties = some values) ↔ ∀ p ∈ properties, p.2 ≠ []
  := by
  induction properties with
  | nil => simp [valuesOf]
  | cons p properties ih =>
      rw [List.forall_mem_cons, ← ih, valuesOf, List.mapM_cons, ← valuesOf]
      cases hp : p.2 with
      | nil => simp
      | cons value values =>
          simp only [List.head?_cons, Option.map_some, Option.bind_eq_bind, Option.bind_some]
          cases valuesOf properties with
          | none => simp
          | some values' => simp

/-- Each element has a value when they all have. -/
theorem exists_mapM {nodes : List XmlNode} :
  (∃ es, nodes.mapM walkTree = some es) ↔ ∀ node ∈ nodes, walkTree node ≠ none
  := by
  induction nodes with
  | nil => simp
  | cons node nodes ih =>
      rw [List.forall_mem_cons, ← ih, List.mapM_cons]
      cases walkTree node with
      | none => simp
      | some e =>
          simp only [Option.bind_eq_bind, Option.bind_some]
          cases nodes.mapM walkTree with
          | none => simp
          | some es => simp

theorem sizeOf_lt_of_mem {node : XmlNode} {name : Option Text} {properties : List (Text × List Text)}
    {children : List XmlNode} (h : node ∈ elementsOf children) :
  sizeOf node < sizeOf (XmlNode.element name properties children)
  := by
  have hlt := List.sizeOf_lt_of_mem (List.mem_of_mem_filter h)
  rw [XmlNode.element.sizeOf_spec]
  omega

/-- An element that has a value. -/
theorem readable_of_ne_none : ∀ {node : XmlNode}, walkTree node ≠ none → Readable node
  | .element name properties children, h => by
      rw [walkTree_element] at h
      have hcontent : contentOf children ≠ none := by
        intro hnone
        rw [hnone] at h
        exact h rfl
      have hvalues : ∀ p ∈ properties, p.2 ≠ [] := by
        apply exists_valuesOf.mp
        apply Option.ne_none_iff_exists'.mp
        intro hnone
        rw [hnone] at h
        apply h
        cases contentOf children <;> rfl
      rw [contentOf] at hcontent
      split at hcontent
      case isTrue hnone =>
          have hgood : ¬ (Char.ofNat 0 ∈ (textOf children).flatten ∨
              ∀ c ∈ (textOf children).flatten, isBlank c = true) := by
            intro hbad
            rw [trimCat, trimJoined_eq_none hbad] at hcontent
            exact hcontent rfl
          obtain ⟨hnul, htext⟩ := not_or.mp hgood
          refine .leaf hvalues hnone hnul ?_
          by_contra hblank
          apply htext
          intro c hc
          by_contra hfalse
          exact hblank ⟨c, hc, Bool.not_eq_true _ ▸ hfalse⟩
      case isFalse hsome =>
          refine .branch hvalues hsome ?_
          intro node hnode
          have hes : (elementsOf children).mapM walkTree ≠ none := by
            intro hnone
            rw [hnone] at hcontent
            exact hcontent rfl
          have : sizeOf node < sizeOf (XmlNode.element name properties children) := sizeOf_lt_of_mem hnode
          exact readable_of_ne_none (exists_mapM.mp (Option.ne_none_iff_exists'.mp hes) node hnode)
  | .text _, h | .cdata _, h | .comment, h | .other _, h => by
      rw [walkTree] at h
      exact absurd rfl h
      all_goals simp
termination_by node => sizeOf node
decreasing_by assumption

/-- Exactly the elements with text or elements in them, and with values for their attributes, and so on,
have a value. -/
theorem walkTree_ne_none_iff {node : XmlNode} :
  walkTree node ≠ none ↔ Readable node
  := by
  constructor
  · exact readable_of_ne_none
  · intro h
    induction h with
    | @leaf name properties children hvalues hnone hnul htext =>
        obtain ⟨values, hvalues⟩ := exists_valuesOf.mpr hvalues
        rw [walkTree_element, contentOf, if_pos hnone, trimCat, trimJoined_of_exists hnul htext, hvalues]
        rintro ⟨⟩
    | @branch name properties children hvalues hsome _ ih =>
        obtain ⟨values, hvalues⟩ := exists_valuesOf.mpr hvalues
        obtain ⟨es, hes⟩ := exists_mapM.mpr ih
        rw [walkTree_element, contentOf, if_neg hsome, hes, hvalues]
        rintro ⟨⟩

/-! ### Changes that the value does not show -/

/-- A change of a document: the default name is given; of the nodes of a value only the first is kept; a
child is changed; a comment or a node of another type is left out; a CDATA section becomes text; two
neighbouring pieces of text are joined; text beside elements is left out; and white space is left out at
the start and at the end of a text that is all there is. -/
inductive XmlEdit : XmlNode → XmlNode → Prop where
  | unnamed (properties children) :
      XmlEdit (.element none properties children) (.element (some "no-name".toList) properties children)
  | value (name children before after key value values) :
      XmlEdit (.element name (before ++ (key, value :: values) :: after) children)
        (.element name (before ++ (key, [value]) :: after) children)
  | child (name properties before after) {node node' : XmlNode} (h : XmlEdit node node') :
      XmlEdit (.element name properties (before ++ node :: after))
        (.element name properties (before ++ node' :: after))
  | comment (name properties before after) :
      XmlEdit (.element name properties (before ++ .comment :: after))
        (.element name properties (before ++ after))
  | other (name properties before after type) :
      XmlEdit (.element name properties (before ++ .other type :: after))
        (.element name properties (before ++ after))
  | cdata (name properties before after t) :
      XmlEdit (.element name properties (before ++ .cdata t :: after))
        (.element name properties (before ++ .text t :: after))
  | join (name properties before after s t) :
      XmlEdit (.element name properties (before ++ .text s :: .text t :: after))
        (.element name properties (before ++ .text (s ++ t) :: after))
  | between (name properties before after t) (h : elementsOf (before ++ after) ≠ []) :
      XmlEdit (.element name properties (before ++ .text t :: after))
        (.element name properties (before ++ after))
  | front (name properties w t) (hw : ∀ c ∈ w, isBlank c = true) :
      XmlEdit (.element name properties [.text (w ++ t)]) (.element name properties [.text t])
  | back (name properties t w) (hw : ∀ c ∈ w, isBlank c = true) :
      XmlEdit (.element name properties [.text (t ++ w)]) (.element name properties [.text t])

theorem mapM_eq_some_iff {nodes : List XmlNode} {es : List Scm} :
  nodes.mapM walkTree = some es ↔ nodes.map walkTree = es.map some
  := by
  induction nodes generalizing es with
  | nil => cases es <;> simp
  | cons node nodes ih =>
      rw [List.mapM_cons, List.map_cons]
      cases es with
      | nil =>
          cases walkTree node with
          | none => simp
          | some e => cases nodes.mapM walkTree <;> simp
      | cons e es =>
          rw [List.map_cons, List.cons.injEq, ← ih]
          cases walkTree node with
          | none => simp
          | some e' => cases nodes.mapM walkTree <;> simp

/-- The content depends on the values of the elements, and on the text when there are none. -/
theorem contentOf_congr {nodes nodes' : List XmlNode}
    (helements : (elementsOf nodes).map walkTree = (elementsOf nodes').map walkTree)
    (htext : elementsOf nodes = [] → trimCat (textOf nodes) = trimCat (textOf nodes')) :
  contentOf nodes = contentOf nodes'
  := by
  have hempty : elementsOf nodes = [] ↔ elementsOf nodes' = [] := by
    rw [← List.map_eq_nil_iff (f := walkTree), helements, List.map_eq_nil_iff]
  have hmapM : (elementsOf nodes).mapM walkTree = (elementsOf nodes').mapM walkTree := by
    apply Option.ext
    intro es
    rw [mapM_eq_some_iff, mapM_eq_some_iff, helements]
  rw [contentOf, contentOf, hmapM]
  by_cases hnone : elementsOf nodes = []
  · rw [if_pos hnone, if_pos (hempty.mp hnone), htext hnone]
  · rw [if_neg hnone, if_neg (hempty.not.mp hnone)]

/-- White space at the start of a text does not matter. -/
theorem trim_blank_append {w t : Text} (hw : ∀ c ∈ w, isBlank c = true)
    (ht : ∃ c ∈ t, isBlank c = false) :
  trim (w ++ t) = trim t
  := by
  have hne : (t.reverse.dropWhile isBlank).isEmpty = false := by
    rw [List.isEmpty_eq_false_iff, Ne, List.dropWhile_eq_nil_iff]
    obtain ⟨c, hc, hblank⟩ := ht
    intro hall
    rw [hall c (List.mem_reverse.mpr hc)] at hblank
    cases hblank
  have hback : (w ++ t).rdropWhile isBlank = w ++ t.rdropWhile isBlank := by
    rw [List.rdropWhile, List.reverse_append, List.dropWhile_append, hne, if_neg Bool.false_ne_true,
      List.reverse_append, List.reverse_reverse]
    rfl
  rw [trim, hback, List.dropWhile_append_of_pos hw]
  rfl

/-- White space at the end of a text does not matter. -/
theorem trim_append_blank {t w : Text} (hw : ∀ c ∈ w, isBlank c = true) :
  trim (t ++ w) = trim t
  := by
  have hback : (t ++ w).rdropWhile isBlank = t.rdropWhile isBlank := by
    rw [List.rdropWhile, List.reverse_append,
      List.dropWhile_append_of_pos (fun c hc => hw c (List.mem_reverse.mp hc))]
    rfl
  rw [trim, hback]
  rfl

/-- `trim_cat` of a text with white space at its ends. -/
theorem trimJoined_surrounded {w t w' : Text} (hw : ∀ c ∈ w, isBlank c = true)
    (hw' : ∀ c ∈ w', isBlank c = true) :
  trimJoined (w ++ t ++ w') = trimJoined t
  := by
  have hblank : ∀ v : Text, (∀ c ∈ v, isBlank c = true) → Char.ofNat 0 ∉ v := by
    intro v hv hmem
    exact absurd (hv _ hmem) (by decide)
  by_cases hnul : Char.ofNat 0 ∈ t
  · rw [trimJoined_eq_none (Or.inl hnul), trimJoined_eq_none (Or.inl (by simp [hnul]))]
  by_cases hexists : ∃ c ∈ t, isBlank c = false
  · obtain ⟨c, hc, hfalse⟩ := hexists
    rw [trimJoined_of_exists hnul ⟨c, hc, hfalse⟩, trimJoined_of_exists _ ⟨c, by simp [hc], hfalse⟩,
      List.append_assoc, trim_blank_append hw ⟨c, List.mem_append_left w' hc, hfalse⟩,
      trim_append_blank hw']
    simp [hnul, hblank w hw, hblank w' hw']
  · have hall : ∀ c ∈ t, isBlank c = true := by
      intro c hc
      by_contra hfalse
      exact hexists ⟨c, hc, Bool.not_eq_true _ ▸ hfalse⟩
    rw [trimJoined_eq_none (Or.inr hall), trimJoined_eq_none]
    right
    simp only [List.mem_append]
    rintro c ((hc | hc) | hc)
    · exact hw c hc
    · exact hall c hc
    · exact hw' c hc

theorem XmlEdit.exists_element {node node' : XmlNode} (h : XmlEdit node node') :
  ∃ name properties children name' properties' children',
    node = .element name properties children ∧ node' = .element name' properties' children'
  := by
  cases h <;> exact ⟨_, _, _, _, _, _, rfl, rfl⟩

/-- A change of a document does not change its value. -/
theorem XmlEdit.walkTree_eq {node node' : XmlNode} (h : XmlEdit node node') :
  walkTree node = walkTree node'
  := by
  have hcontent : ∀ {name properties children children'}, contentOf children = contentOf children' →
      walkTree (.element name properties children) = walkTree (.element name properties children') := by
    intro name properties children children' h
    rw [walkTree_element, walkTree_element, h]
  induction h with
  | unnamed properties children =>
      rw [walkTree_element, walkTree_element]
      rfl
  | value name children before after key value values =>
      have hvalues : valuesOf (before ++ (key, value :: values) :: after)
          = valuesOf (before ++ (key, [value]) :: after) := by
        simp [valuesOf]
      rw [walkTree_element, walkTree_element, hvalues]
  | @child name properties before after node node' h ih =>
      obtain ⟨_, _, _, _, _, _, rfl, rfl⟩ := h.exists_element
      apply hcontent
      apply contentOf_congr
      · simp [ih]
      · simp
  | comment name properties before after =>
      apply hcontent
      apply contentOf_congr <;> simp
  | other name properties before after type =>
      apply hcontent
      apply contentOf_congr <;> simp
  | cdata name properties before after t =>
      apply hcontent
      apply contentOf_congr <;> simp
  | join name properties before after s t =>
      apply hcontent
      apply contentOf_congr
      · simp
      · intro _
        simp [trimCat]
  | between name properties before after t h =>
      apply hcontent
      apply contentOf_congr
      · simp
      · intro hnone
        exact absurd (by simpa using hnone) h
  | front name properties w t hw =>
      apply hcontent
      apply contentOf_congr
      · rfl
      · intro _
        have htrim := trimJoined_surrounded (t := t) hw (List.forall_mem_nil _)
        simpa [trimCat] using htrim
  | back name properties t w hw =>
      apply hcontent
      apply contentOf_congr
      · rfl
      · intro _
        have htrim := trimJoined_surrounded (t := t) (List.forall_mem_nil _) hw
        simpa [trimCat] using htrim

/-! ### Documents with one value -/

section

variable {name : Option Text} {properties : List (Text × List Text)} {children : List XmlNode}

/-- A chain of changes of a child. -/
theorem edits_child {node node' : XmlNode} (h : EqvGen XmlEdit node node') (before after : List XmlNode) :
  EqvGen XmlEdit (.element name properties (before ++ node :: after))
    (.element name properties (before ++ node' :: after))
  := by
  induction h with
  | rel node node' h => exact .rel _ _ (.child name properties before after h)
  | refl node => exact .refl _
  | symm node node' _ ih => exact .symm _ _ ih
  | trans node₁ node₂ node₃ _ _ ih₁ ih₂ => exact .trans _ _ _ ih₁ ih₂

/-- Without elements, what is left is the pieces of text. -/
theorem edits_pieces (before : List XmlNode) (hnone : elementsOf children = []) :
  EqvGen XmlEdit (.element name properties (before ++ children))
    (.element name properties (before ++ (textOf children).map .text))
  := by
  induction children generalizing before with
  | nil => exact .refl _
  | cons node nodes ih =>
      have hnext : ∀ t, elementsOf nodes = [] →
          EqvGen XmlEdit (.element name properties (before ++ .text t :: nodes))
            (.element name properties (before ++ ((t :: textOf nodes).map .text))) := by
        intro t hnodes
        have h := ih (before ++ [.text t]) hnodes
        rwa [List.append_assoc, List.append_assoc] at h
      cases node with
      | element name properties children => cases hnone
      | text t => exact hnext t hnone
      | cdata t => exact .trans _ _ _ (.rel _ _ (.cdata name properties before nodes t)) (hnext t hnone)
      | comment => exact .trans _ _ _ (.rel _ _ (.comment name properties before nodes)) (ih before hnone)
      | other type =>
          exact .trans _ _ _ (.rel _ _ (.other name properties before nodes type)) (ih before hnone)

/-- Pieces of text are joined. -/
theorem edits_join (t : Text) (ts : List Text) :
  EqvGen XmlEdit (.element name properties ((t :: ts).map .text))
    (.element name properties [.text (t ++ ts.flatten)])
  := by
  induction ts generalizing t with
  | nil =>
      rw [List.flatten_nil, List.append_nil]
      exact .refl _
  | cons t' ts ih =>
      have h := ih (t ++ t')
      rw [List.append_assoc, ← List.flatten_cons] at h
      exact .trans _ _ _ (.rel _ _ (.join name properties [] (ts.map .text) t t')) h

/-- A text is trimmed. -/
theorem edits_trim (t : Text) :
  EqvGen XmlEdit (.element name properties [.text t]) (.element name properties [.text (trim t)])
  := by
  have hback : EqvGen XmlEdit (.element name properties [.text t])
      (.element name properties [.text (t.rdropWhile isBlank)]) := by
    have h := XmlEdit.back name properties (t.rdropWhile isBlank) (t.rtakeWhile isBlank)
      (fun c hc => List.mem_rtakeWhile_imp hc)
    rw [List.rdropWhile_append_rtakeWhile] at h
    exact .rel _ _ h
  have hfront : EqvGen XmlEdit (.element name properties [.text (t.rdropWhile isBlank)])
      (.element name properties [.text (trim t)]) := by
    have h := XmlEdit.front name properties ((t.rdropWhile isBlank).takeWhile isBlank) (trim t)
      (fun c hc => List.mem_takeWhile_imp hc)
    rw [trim, List.takeWhile_append_dropWhile] at h
    exact .rel _ _ h
  exact .trans _ _ _ hback hfront

/-- An element with a text and no elements in it. -/
theorem edits_leaf (hnone : elementsOf children = []) (htext : textOf children ≠ []) :
  EqvGen XmlEdit (.element name properties children)
    (.element name properties [.text (trim (textOf children).flatten)])
  := by
  have hpieces : EqvGen XmlEdit (.element name properties children)
      (.element name properties ((textOf children).map .text)) := edits_pieces [] hnone
  cases hts : textOf children with
  | nil => exact absurd hts htext
  | cons t ts =>
      rw [hts] at hpieces
      exact .trans _ _ _ hpieces (.trans _ _ _ (edits_join t ts) (edits_trim _))

/-- An element with elements in it: only these are left. -/
theorem edits_branch (before : List XmlNode) (hsome : elementsOf (before ++ children) ≠ []) :
  EqvGen XmlEdit (.element name properties (before ++ children))
    (.element name properties (before ++ elementsOf children))
  := by
  induction children generalizing before with
  | nil => exact .refl _
  | cons node nodes ih =>
      cases node with
      | element name' properties' children' =>
          have h := ih (before ++ [.element name' properties' children']) (by simp)
          rw [List.append_assoc, List.append_assoc] at h
          exact h
      | text t =>
          have hrest : elementsOf (before ++ nodes) ≠ [] := by simpa using hsome
          exact .trans _ _ _ (.rel _ _ (.between name properties before nodes t hrest)) (ih before hrest)
      | cdata t =>
          have hrest : elementsOf (before ++ nodes) ≠ [] := by simpa using hsome
          exact .trans _ _ _ (.rel _ _ (.cdata name properties before nodes t))
            (.trans _ _ _ (.rel _ _ (.between name properties before nodes t hrest)) (ih before hrest))
      | comment =>
          have hrest : elementsOf (before ++ nodes) ≠ [] := by simpa using hsome
          exact .trans _ _ _ (.rel _ _ (.comment name properties before nodes)) (ih before hrest)
      | other type =>
          have hrest : elementsOf (before ++ nodes) ≠ [] := by simpa using hsome
          exact .trans _ _ _ (.rel _ _ (.other name properties before nodes type)) (ih before hrest)

/-- Children are changed one after the other. -/
theorem edits_children {nodes nodes' : List XmlNode} (before : List XmlNode)
    (hvalue : nodes.map walkTree = nodes'.map walkTree)
    (h : ∀ node ∈ nodes, ∀ node', walkTree node = walkTree node' → EqvGen XmlEdit node node') :
  EqvGen XmlEdit (.element name properties (before ++ nodes)) (.element name properties (before ++ nodes'))
  := by
  induction nodes generalizing nodes' before with
  | nil =>
      rw [List.map_nil, eq_comm, List.map_eq_nil_iff] at hvalue
      rw [hvalue]
      exact .refl _
  | cons node nodes ih =>
      cases nodes' with
      | nil => cases hvalue
      | cons node' nodes' =>
          obtain ⟨hfirst, hrest⟩ := List.cons.inj hvalue
          obtain ⟨hnode, hnodes⟩ := List.forall_mem_cons.mp h
          have hlast := ih (before ++ [node']) hrest hnodes
          rw [List.append_assoc, List.append_assoc] at hlast
          exact .trans _ _ _ (edits_child (hnode node' hfirst) before nodes) hlast

/-- Of the values of attributes only the first nodes are left. -/
theorem edits_values {values : List (Text × Text)} (before : List (Text × List Text))
    (h : valuesOf properties = some values) :
  EqvGen XmlEdit (.element name (before ++ properties) children)
    (.element name (before ++ values.map (fun v => (v.1, [v.2]))) children)
  := by
  induction properties generalizing values before with
  | nil =>
      obtain rfl := Option.some.inj h
      exact .refl _
  | cons p properties ih =>
      obtain ⟨key, vs⟩ := p
      rw [valuesOf, List.mapM_cons] at h
      obtain ⟨first, hfirst, hrest⟩ := Option.bind_eq_some_iff.mp h
      obtain ⟨values', hvalues, hcons⟩ := Option.bind_eq_some_iff.mp hrest
      obtain rfl := Option.some.inj hcons
      cases vs with
      | nil => cases hfirst
      | cons v vs =>
          obtain rfl := Option.some.inj hfirst
          have hlast := ih (before ++ [(key, [v])]) hvalues
          rw [List.append_assoc, List.append_assoc] at hlast
          exact .trans _ _ _ (.rel _ _ (.value name children before properties key v vs)) hlast

theorem edits_name :
  EqvGen XmlEdit (.element name properties children)
    (.element (some (name.getD "no-name".toList)) properties children)
  := by
  cases name with
  | none => exact .rel _ _ (.unnamed properties children)
  | some name => exact .refl _

theorem edits_named {values : List (Text × Text)} (h : valuesOf properties = some values) :
  EqvGen XmlEdit (.element name properties children)
    (.element (some (name.getD "no-name".toList)) (values.map (fun v => (v.1, [v.2]))) children)
  := .trans _ _ _ edits_name (edits_values [] h)

end

/-- The parts of a value. -/
theorem exists_of_walkTree {node : XmlNode} {v : Scm} (h : walkTree node = some v) :
  ∃ name properties children content values, node = .element name properties children
    ∧ contentOf children = some content ∧ valuesOf properties = some values
    ∧ v = .ofList [.symbol (name.getD "no-name".toList),
      .alist (values.map (fun v => (v.1, .str v.2))).reverse, content]
  := by
  cases node with
  | element name properties children =>
      rw [walkTree_element] at h
      obtain ⟨content, hcontent, hrest⟩ := Option.bind_eq_some_iff.mp h
      obtain ⟨values, hvalues, rfl⟩ := Option.map_eq_some_iff.mp hrest
      exact ⟨name, properties, children, content, values, rfl, hcontent, hvalues, rfl⟩
  | _ =>
      rw [walkTree] at h
      cases h
      all_goals simp

/-- Elements with one value have the same content, and may be given the same name and attributes. -/
theorem exists_named {node node' : XmlNode} {v : Scm} (h : walkTree node = some v)
    (h' : walkTree node' = some v) :
  ∃ name properties children name' properties' children' first values,
    node = .element name properties children ∧ node' = .element name' properties' children'
    ∧ contentOf children = contentOf children'
    ∧ (EqvGen XmlEdit (.element first values children) (.element first values children') →
      EqvGen XmlEdit node node')
  := by
  obtain ⟨name, properties, children, content, values, rfl, hcontent, hvalues, rfl⟩ :=
    exists_of_walkTree h
  obtain ⟨name', properties', children', content', values', rfl, hcontent', hvalues', heq⟩ :=
    exists_of_walkTree h'
  obtain ⟨hname, hrest⟩ := List.cons.inj (Scm.ofList_inj.mp heq)
  obtain ⟨hattribs, hrest⟩ := List.cons.inj hrest
  obtain ⟨rfl, -⟩ := List.cons.inj hrest
  have hinjective : Function.Injective (fun v : Text × Text => (v.1, Scm.str v.2)) := by
    rintro ⟨k, v⟩ ⟨k', v'⟩ h
    obtain ⟨hk, hv⟩ := Prod.mk.inj h
    exact Prod.ext hk (Scm.str.inj hv)
  have hsame : values = values' :=
    List.map_injective_iff.mpr hinjective (List.reverse_injective (Scm.alist_inj.mp hattribs))
  refine ⟨_, _, _, _, _, _, some (name.getD "no-name".toList), values.map (fun v => (v.1, [v.2])), rfl, rfl,
    hcontent.trans hcontent'.symm, ?_⟩
  intro hedits
  have hnode' : EqvGen XmlEdit (.element name' properties' children') _ := edits_named hvalues'
  rw [← Scm.symbol.inj hname, ← hsame] at hnode'
  exact .trans _ _ _ (edits_named hvalues) (.trans _ _ _ hedits (.symm _ _ hnode'))

/-- **What a value shows of a document**: documents of which the first has a value have the same value
exactly if the one is made from the other by changes of the kinds of `XmlEdit`. -/
theorem walkTree_eq_iff {node : XmlNode} (h : Readable node) (node' : XmlNode) :
  walkTree node = walkTree node' ↔ EqvGen XmlEdit node node'
  := by
  constructor
  · intro heq
    induction h generalizing node' with
    | @leaf name properties children hvalues hnone hnul htext =>
        have hself : Readable (.element name properties children) := .leaf hvalues hnone hnul htext
        obtain ⟨v, hv⟩ := Option.ne_none_iff_exists'.mp (walkTree_ne_none_iff.mpr hself)
        obtain ⟨_, _, _, name', properties', children', first, values, hnode, rfl, hcontent, hedits⟩ :=
          exists_named hv (heq.symm.trans hv)
        obtain ⟨-, -, rfl⟩ := XmlNode.element.inj hnode
        apply hedits
        rw [contentOf, if_pos hnone, trimCat, trimJoined_of_exists hnul htext] at hcontent
        have hpieces : ∀ nodes, (∃ c ∈ (textOf nodes).flatten, isBlank c = false) → textOf nodes ≠ [] := by
          rintro nodes ⟨c, hc, -⟩ hnil
          rw [hnil] at hc
          cases hc
        have hreadable : Readable (.element name' properties' children') := by
          apply readable_of_ne_none
          rw [← heq, hv]
          rintro ⟨⟩
        cases hreadable with
        | leaf hvalues' hnone' hnul' htext' =>
            rw [contentOf, if_pos hnone', trimCat, trimJoined_of_exists hnul' htext'] at hcontent
            have htrim := Scm.str.inj (Option.some.inj hcontent)
            have hother : EqvGen XmlEdit (.element first values children') _ :=
              edits_leaf hnone' (hpieces children' htext')
            rw [← htrim] at hother
            exact .trans _ _ _ (edits_leaf hnone (hpieces children htext)) (.symm _ _ hother)
        | branch hvalues' hsome' helements' =>
            rw [contentOf, if_neg hsome'] at hcontent
            obtain ⟨es, -, hes⟩ := Option.map_eq_some_iff.mp hcontent.symm
            cases es <;> cases hes
    | @branch name properties children hvalues hsome helements ih =>
        have hself : Readable (.element name properties children) := .branch hvalues hsome helements
        obtain ⟨v, hv⟩ := Option.ne_none_iff_exists'.mp (walkTree_ne_none_iff.mpr hself)
        obtain ⟨_, _, _, name', properties', children', first, values, hnode, rfl, hcontent, hedits⟩ :=
          exists_named hv (heq.symm.trans hv)
        obtain ⟨-, -, rfl⟩ := XmlNode.element.inj hnode
        apply hedits
        obtain ⟨es, hes⟩ := exists_mapM.mpr (fun node hnode => walkTree_ne_none_iff.mpr (helements node hnode))
        rw [contentOf, if_neg hsome, hes, Option.map_some] at hcontent
        by_cases hsome' : elementsOf children' = []
        · rw [contentOf, if_pos hsome'] at hcontent
          obtain ⟨t, -, ht⟩ := Option.map_eq_some_iff.mp hcontent.symm
          cases es <;> cases ht
        · rw [contentOf, if_neg hsome'] at hcontent
          obtain ⟨es', hes', hlist⟩ := Option.map_eq_some_iff.mp hcontent.symm
          obtain rfl := Scm.ofList_inj.mp hlist
          have hmap := (mapM_eq_some_iff.mp hes).trans (mapM_eq_some_iff.mp hes').symm
          have hchildren : EqvGen XmlEdit (.element first values (elementsOf children))
              (.element first values (elementsOf children')) := edits_children [] hmap ih
          exact .trans _ _ _ (edits_branch [] hsome)
            (.trans _ _ _ hchildren (.symm _ _ (edits_branch [] hsome')))
  · intro hedits
    clear h
    induction hedits with
    | rel node node' h => exact h.walkTree_eq
    | refl node => rfl
    | symm node node' _ ih => exact ih.symm
    | trans node₁ node₂ node₃ _ _ ih₁ ih₂ => exact ih₁.trans ih₂

/-- **Parsing XML**: exactly for a document in which each element has text or elements in it, and each
attribute a value, there is a value, with no access outside an object; and another document has the same
value exactly if it is made from the one by changes of the kinds of `XmlEdit`. -/
theorem parseXml_shows {xmlReadMemory : List UInt8 → Option XmlNode} {doc doc' : Scm}
    {buf buf' : List UInt8} {root root' : XmlNode} (hdoc : toUtf8String doc = some buf)
    (hroot : xmlReadMemory buf = some root) (hdoc' : toUtf8String doc' = some buf')
    (hroot' : xmlReadMemory buf' = some root') :
  (parseXml xmlReadMemory doc ≠ none ↔ Readable root)
    ∧ (Readable root → (parseXml xmlReadMemory doc = parseXml xmlReadMemory doc'
      ↔ EqvGen XmlEdit root root'))
  := by
  have hparse : parseXml xmlReadMemory doc = walkTree root := by
    rw [parseXml, hdoc, Option.bind_some, hroot]
  have hparse' : parseXml xmlReadMemory doc' = walkTree root' := by
    rw [parseXml, hdoc', Option.bind_some, hroot']
  rw [hparse, hparse']
  exact ⟨walkTree_ne_none_iff, fun h => walkTree_eq_iff h root'⟩

/-- Two documents with one value: in the second there are blanks, a comment and a CDATA section. -/
theorem parseXml_shows_blanks :
  EqvGen XmlEdit
    (.element (some ['a']) [(['x'], [['1']])] [.element (some ['b']) [] [.text "hi".toList]])
    (.element (some ['a']) [(['x'], [['1']])] [.text "  ".toList, .comment,
      .element (some ['b']) [] [.text " h".toList, .cdata ['i']]])
  := by
  let root := XmlNode.element (some ['a']) [(['x'], [['1']])]
    [.element (some ['b']) [] [.text "hi".toList]]
  let root' := XmlNode.element (some ['a']) [(['x'], [['1']])] [.text "  ".toList, .comment,
    .element (some ['b']) [] [.text " h".toList, .cdata ['i']]]
  let doc := "<a x='1'><b>hi</b></a>"
  let doc' := "<a x='1'>  <!-- b --><b> h<![CDATA[i]]></b></a>"
  let reader := fun buf => if buf = ascii doc then some root else some root'
  have hroot : reader (ascii doc) = some root := if_pos rfl
  have hroot' : reader (ascii doc') = some root' := if_neg (by decide)
  have hdoc : toUtf8String (.str doc.toList) = some (ascii doc) := by decide
  have hdoc' : toUtf8String (.str doc'.toList) = some (ascii doc') := by decide
  obtain ⟨hvalue, hsame⟩ := parseXml_shows hdoc hroot hdoc' hroot'
  have hparse : parseXml reader (.str doc.toList) = walkTree root := by
    rw [parseXml, hdoc, Option.bind_some, hroot]
  have hparse' : parseXml reader (.str doc'.toList) = walkTree root' := by
    rw [parseXml, hdoc', Option.bind_some, hroot']
  rw [hparse] at hvalue
  rw [hparse, hparse'] at hsame
  exact (hsame (hvalue.mp (by decide))).mp (by decide)

end Gusher
