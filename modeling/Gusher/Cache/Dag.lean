import Gusher.Cache.Coherence

/-!
# Data and documents made from them

A cache that has been made by calls of `make-doc` for data and for documents with recipes.  When the
recipes fetch their ingredients only, and their results depend on what they fetch only, each
document has a value for every choice of the values of the data (`Cache.valueOf`).
-/

namespace Gusher

open Run

/-- A recipe that raises no exception, and fetches documents in `S` only. -/
def Recipe.Fetches (S : ℕ → Prop) : Recipe → Prop
  | .ret _ => True
  | .raise _ => False
  | .fetch doc _ cont => S doc ∧ ∀ v, (cont (.ok v)).Fetches S
  | .touch _ _ _ => False

theorem Recipe.Fetches.within {S : ℕ → Prop} {recipe : Recipe} (h : recipe.Fetches S) :
  recipe.formula.Within S
  := by
  induction recipe with
  | ret v => trivial
  | raise e => cases h
  | fetch doc args cont ih => exact ⟨h.1, fun v => ih _ (h.2 v)⟩
  | touch doc args cont => cases h

/-- A recipe that fetches documents in `S` fetches documents in a larger set. -/
theorem Recipe.Fetches.mono {S T : ℕ → Prop} (hST : ∀ doc, S doc → T doc) {recipe : Recipe}
    (h : recipe.Fetches S) :
  recipe.Fetches T
  := by
  induction recipe with
  | ret v => trivial
  | raise e => cases h
  | fetch doc args cont ih => exact ⟨hST doc h.1, fun v => ih _ (h.2 v)⟩
  | touch doc args cont => cases h

section Procedures

variable (loc : Locale) (apply : Scm → List Scm → Recipe)

/-- A procedure that fetches documents in `S` only, raises no exception, and whose result depends
on the fetched values only. -/
structure CooksFrom (callback : Scm) (S : ℕ → Prop) : Prop where
  fetches : ∀ args, (apply callback args).Fetches S
  result : ∀ args f, (apply callback args).formula.eval f = (apply callback []).formula.eval f

/-- A call of `make-doc` for a datum, or for a document whose recipe fetches its ingredients
only. -/
def PureMake : CacheAction → Prop
  | .make (.symbol name) _ => name ≠ "file".toList
  | .make (.docs docs) recipe => CooksFrom apply recipe (· ∈ docs)
  | _ => False

namespace Cache

/-- A cache of data and documents that nobody has used. -/
structure Built (c : Cache) : Prop where
  formed : c.Formed
  unlocked : ∀ i, (c.node i).locked = false
  type : ∀ i, (c.node i).type ≠ .file
  dirty : ∀ i, (c.node i).type = .chain → (c.node i).dirty = true
  cooks : ∀ i, (c.node i).type = .chain →
    CooksFrom apply (c.node i).callback (fun j => i ∈ (c.node j).ascendants)

/-- A datum that is below a document. -/
def Feeds (c : Cache) (datum doc : ℕ) : Prop :=
  (c.node datum).type = .datum ∧ c.Above datum doc

/-- How the value of a document is computed when the values of the data are given. -/
def formulaWith (c : Cache) (g : ℕ → Scm) (doc : ℕ) : Formula ℕ Scm :=
  match (c.node doc).type with
  | .datum => .ret (g doc)
  | _ => c.formula loc apply doc

/-- The value of a document when the values of the data are given. -/
noncomputable def valueOf (c : Cache) (g : ℕ → Scm) : ℕ → Scm :=
  Formula.value (c.formulaWith loc apply g)

variable {loc apply} {c : Cache}

theorem valueOf_datum (g : ℕ → Scm) {doc : ℕ} (htype : (c.node doc).type = .datum) :
  c.valueOf loc apply g doc = g doc
  := by
  have hformula : c.formulaWith loc apply g doc = .ret (g doc) := by
    rw [formulaWith, htype]
  rw [valueOf, Formula.value_eq (by rw [hformula]; trivial), hformula]
  rfl

/-- The value of a document is what its recipe makes of the values of its ingredients. -/
theorem Built.valueOf_chain (hc : c.Built apply) (g : ℕ → Scm) {doc : ℕ}
    (htype : (c.node doc).type = .chain) (args : List Scm) :
  c.valueOf loc apply g doc
    = (apply (c.node doc).callback args).formula.eval (c.valueOf loc apply g)
  := by
  have hformula : c.formulaWith loc apply g doc = (apply (c.node doc).callback []).formula := by
    rw [formulaWith, htype]
    simp only [formula, htype]
  have hwithin : (c.formulaWith loc apply g doc).Within (· < doc) := by
    rw [hformula]
    apply ((hc.cooks doc htype).fetches []).within.mono
    intro j hj
    exact (hc.formed.layered j doc hj).1
  rw [(hc.cooks doc htype).result args, valueOf, Formula.value_eq hwithin, hformula]

/-- The values recomputed from scratch are the values for the data as they are. -/
theorem Built.recompute_eq (hc : c.Built apply) {s : Cache} (hfrozen : c.Frozen s) :
  s.recompute loc apply = c.valueOf loc apply (fun i => (s.node i).payload)
  := by
  rw [recompute, valueOf]
  congr 1
  funext i
  rw [formulaWith, formula, hfrozen.type i, formula, hfrozen.callback i]
  cases htype : (c.node i).type with
  | datum => rfl
  | file => exact absurd htype (hc.type i)
  | chain => rfl

/-- A cache with one more node, which may be an ascendant of others. -/
theorem Built.extend (hc : c.Built apply) {t : Cache} (hformed : t.Formed)
    (hold : ∀ i, i ≠ c.count → ∃ ascendants, t.node i = { c.node i with ascendants := ascendants })
    (hascendants : ∀ j, ∀ i ∈ (c.node j).ascendants, i ∈ (t.node j).ascendants)
    (hunlocked : (t.node c.count).locked = false) (htype : (t.node c.count).type ≠ .file)
    (hdirty : (t.node c.count).type = .chain → (t.node c.count).dirty = true)
    (hcooks : (t.node c.count).type = .chain →
      CooksFrom apply (t.node c.count).callback (fun j => c.count ∈ (t.node j).ascendants)) :
  t.Built apply
  where
  formed := hformed
  unlocked i := by
    by_cases hi : i = c.count
    · rw [hi, hunlocked]
    · obtain ⟨ascendants, h⟩ := hold i hi
      rw [h, hc.unlocked]
  type i := by
    by_cases hi : i = c.count
    · rw [hi]
      exact htype
    · obtain ⟨ascendants, h⟩ := hold i hi
      rw [h]
      exact hc.type i
  dirty i := by
    by_cases hi : i = c.count
    · rw [hi]
      exact hdirty
    · obtain ⟨ascendants, h⟩ := hold i hi
      rw [h]
      exact hc.dirty i
  cooks i := by
    by_cases hi : i = c.count
    · rw [hi]
      exact hcooks
    · obtain ⟨ascendants, h⟩ := hold i hi
      rw [h]
      intro hchain
      obtain ⟨hfetches, hresult⟩ := hc.cooks i hchain
      exact ⟨fun args => (hfetches args).mono (fun j hj => hascendants j i hj), hresult⟩

/-- What `make-doc` makes from a cache of data and documents. -/
theorem Built.make (hc : c.Built apply) {ingredients : Ingredients} {recipe : Scm} {t : Cache}
    (hmake : PureMake apply (.make ingredients recipe))
    (hdocs : ∀ docs, ingredients = .docs docs → ∀ doc ∈ docs, doc < c.count)
    (hmade : Made loc c ingredients recipe t) :
  t.Built apply
  := by
  have hformed := hmade.formed hc.formed hdocs
  have hlt : ∀ j, ∀ i ∈ (c.node j).ascendants, j ≠ c.count := by
    intro j i hi
    obtain ⟨hj, hcount⟩ := hc.formed.layered j i hi
    omega
  cases hmade with
  | datum name recipe hname =>
      have hself : (c.addNode { makeNode .datum false with payload := recipe }).node c.count
          = { makeNode .datum false with payload := recipe } := by
        rw [addNode_node, if_pos rfl]
      apply hc.extend hformed
      · intro i hi
        exact ⟨_, by rw [addNode_node, if_neg hi]⟩
      · intro j i hi
        rwa [addNode_node, if_neg (hlt j i hi)]
      · rw [hself]
        rfl
      · rw [hself]
        exact NodeType.noConfusion
      · rw [hself]
        exact NodeType.noConfusion
      · rw [hself]
        exact NodeType.noConfusion
  | file => exact absurd rfl hmake
  | noPath => exact absurd rfl hmake
  | chain docs recipe done hdone hall =>
      obtain rfl := hall (fun doc hdoc => ⟨hdocs docs rfl doc hdoc, hc.unlocked doc⟩)
      apply hc.extend hformed
      · intro i hi
        exact ⟨_, by rw [withAscendant_node, addNode_node, if_neg hi]⟩
      · intro j i hi
        rw [withAscendant_node, addNode_node, if_neg (hlt j i hi)]
        split
        case isTrue => exact List.mem_cons_of_mem _ hi
        case isFalse => exact hi
      · rw [withAscendant_node, addNode_node, if_pos rfl]
        rfl
      · rw [withAscendant_node, addNode_node, if_pos rfl]
        exact NodeType.noConfusion
      · intro _
        rw [withAscendant_node, addNode_node, if_pos rfl]
        rfl
      · intro _
        have hcallback : (((c.addNode { makeNode .chain true with callback := recipe }).withAscendant
            c.count done).node c.count).callback = recipe := by
          rw [withAscendant_node, addNode_node, if_pos rfl]
        rw [hcallback]
        refine ⟨fun args => (hmake.fetches args).mono ?_, hmake.result⟩
        intro j hj
        rw [withAscendant_node]
        split
        case isTrue => exact List.mem_cons_self
        case isFalse hnot =>
            by_contra hmem
            exact hnot ⟨hj, hmem⟩

variable {files : List UInt8 → Option File} {newest : ℕ}

/-- What calls of `make-doc` for data and documents make. -/
theorem built_of_run {makes : List CacheAction} (hmakes : ∀ a ∈ makes, PureMake apply a)
    (hrun : run (cacheStep loc apply) (startCache files newest) makes = some c) :
  c.Built apply
  := by
  have hstep : ∀ s a t, Built apply s → PureMake apply a → cacheStep loc apply s a = some t →
      t.Built apply := by
    intro s a t hs hmake hstep
    cases cacheStep_cases hs.formed hstep with
    | make ingredients recipe t hdocs hmade => exact hs.make hmake hdocs hmade
    | touch | fetch | write | delete | police => cases hmake
  apply run_invariant_of_meets hstep ?_ (meets_of_forall (fun _ => hmakes)) hrun
  refine ⟨formed_startCache files newest, fun _ => rfl, fun _ => ?_, fun _ => ?_, fun _ => ?_⟩
  · exact NodeType.noConfusion
  · exact NodeType.noConfusion
  · exact NodeType.noConfusion

end Cache

end Procedures

end Gusher
