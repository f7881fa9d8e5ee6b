import Gusher.Cache.Changes
import Gusher.Library.Formula

/-!
# Coherence of the cache

A recipe that only fetches documents and returns a value is a formula over the documents, so that
every document has a value which is recomputed from scratch, from the data and the files as they
are.  In a cache whose recipes fetch ingredients only, and while the files stay as they are, a
node that is clean and not being regenerated has this value as its payload (`Sound`), because a
change makes all nodes above the changed one dirty.  So what a fetch returns is the recomputed
value (`fetchDoc_eq_recompute`).
-/

namespace Gusher

open Run

/-- A recipe that fetches documents in `S` without extra arguments, and returns a value. -/
def Recipe.Pure (S : ℕ → Prop) : Recipe → Prop
  | .ret _ => True
  | .raise _ => False
  | .fetch doc args cont => S doc ∧ args = [] ∧ ∀ v, (cont (.ok v)).Pure S
  | .touch _ _ _ => False

/-- The value of a recipe as a function of the values that it fetches.  This is meant for pure
recipes only. -/
def Recipe.formula : Recipe → Formula ℕ Scm
  | .ret v => .ret v
  | .raise _ => .ret (.bool false)
  | .fetch doc _ cont => .need doc (fun v => (cont (.ok v)).formula)
  | .touch _ _ _ => .ret (.bool false)

theorem Recipe.Pure.within {S : ℕ → Prop} {recipe : Recipe} (h : recipe.Pure S) :
  recipe.formula.Within S
  := by
  induction recipe with
  | ret v => trivial
  | raise e => cases h
  | fetch doc args cont ih => exact ⟨h.1, fun v => ih _ (h.2.2 v)⟩
  | touch doc args cont => cases h

/-- A recipe that fetches documents in `S` fetches documents in a larger set. -/
theorem Recipe.Pure.mono {S T : ℕ → Prop} (hST : ∀ doc, S doc → T doc) {recipe : Recipe}
    (h : recipe.Pure S) :
  recipe.Pure T
  := by
  induction recipe with
  | ret v => trivial
  | raise e => cases h
  | fetch doc args cont ih => exact ⟨hST doc h.1, h.2.1, fun v => ih _ (h.2.2 v)⟩
  | touch doc args cont => cases h

section Procedures

variable (loc : Locale) (apply : Scm → List Scm → Recipe)

/-- How the value of a document is computed from the data, the files, and the values of other
documents.  Dirty flags play no role in it, nor does the payload of a node that is not a datum. -/
def Cache.formula (s : Cache) (doc : ℕ) : Formula ℕ Scm :=
  match (s.node doc).type with
  | .datum => .ret (s.node doc).payload
  | .file => .ret ((s.node doc).filepath.elim (.bool false) (filePayload loc s))
  | .chain => (apply (s.node doc).callback []).formula

/-- The value of a document, recomputed from scratch. -/
noncomputable def Cache.recompute (s : Cache) : ℕ → Scm :=
  Formula.value (s.formula loc apply)

/-- The recipe of a chain node ignores its arguments and fetches ingredients only, and every clean
node that is not being regenerated has the recomputed value as its payload. -/
structure Cache.Sound (s : Cache) : Prop where
  formed : s.Formed
  path : ∀ i < s.count, (s.node i).type = .file → (s.node i).filepath.isSome
  arguments : ∀ i < s.count, (s.node i).type = .chain →
    ∀ args, apply (s.node i).callback args = apply (s.node i).callback []
  pure : ∀ i < s.count, (s.node i).type = .chain →
    (apply (s.node i).callback []).Pure (fun j => j < i ∧ i ∈ (s.node j).ascendants)
  payload : ∀ i < s.count, (s.node i).locked = false → (s.node i).dirty = false →
    (s.node i).payload = s.recompute loc apply i

/-- What a fetch leaves as it is: the graph, the mutexes, the paths, and how the values are
computed. -/
structure Cache.Refreshed (s s' : Cache) : Prop where
  frozen : s.Frozen s'
  locked : ∀ i, (s'.node i).locked = (s.node i).locked
  path : ∀ i, (s'.node i).filepath = (s.node i).filepath
  formula : s'.formula loc apply = s.formula loc apply

variable {loc apply}

namespace Cache

theorem Refreshed.refl (s : Cache) :
  s.Refreshed loc apply s
  := ⟨.refl s, fun _ => rfl, fun _ => rfl, rfl⟩

theorem Refreshed.trans {s s' s'' : Cache} (h : s.Refreshed loc apply s')
    (h' : s'.Refreshed loc apply s'') :
  s.Refreshed loc apply s''
  where
  frozen := h.frozen.trans h'.frozen
  locked i := (h'.locked i).trans (h.locked i)
  path i := (h'.path i).trans (h.path i)
  formula := h'.formula.trans h.formula

theorem Refreshed.recompute {s s' : Cache} (h : s.Refreshed loc apply s') :
  s'.recompute loc apply = s.recompute loc apply
  := by
  rw [Cache.recompute, Cache.recompute, h.formula]

/-- What the formula of a document depends on: its flag plays no role, nor does its payload if
it is not a datum. -/
theorem formula_eq {s s' : Cache} {i : ℕ} (hfiles : s'.files = s.files)
    (htype : (s'.node i).type = (s.node i).type)
    (hcallback : (s'.node i).callback = (s.node i).callback)
    (hpath : (s'.node i).filepath = (s.node i).filepath)
    (hpayload : (s.node i).type = .datum → (s'.node i).payload = (s.node i).payload) :
  s'.formula loc apply i = s.formula loc apply i
  := by
  have hfile : filePayload loc s' = filePayload loc s := by
    funext path
    rw [filePayload, filePayload, loadFromFile, loadFromFile, hfiles]
  rw [formula, formula, htype, hcallback, hpath, hfile]
  cases hdatum : (s.node i).type with
  | datum => rw [hpayload hdatum]
  | file => rfl
  | chain => rfl

theorem Sound.within {s : Cache} (hs : s.Sound loc apply) {i : ℕ} (hi : i < s.count) :
  (s.formula loc apply i).Within (fun j => j < i ∧ i ∈ (s.node j).ascendants)
  := by
  rw [formula]
  cases htype : (s.node i).type with
  | datum => trivial
  | file => trivial
  | chain => exact (hs.pure i hi htype).within

theorem Sound.recompute_eq {s : Cache} (hs : s.Sound loc apply) {i : ℕ} (hi : i < s.count) :
  s.recompute loc apply i = (s.formula loc apply i).eval (s.recompute loc apply)
  := Formula.value_eq ((hs.within hi).mono (fun _ h => h.1))

/-- A change that leaves the graph and the formulas as they are keeps the cache sound, when it
keeps the clean nodes right. -/
theorem Sound.of_frozen {s s' : Cache} (hs : s.Sound loc apply) (hfrozen : s.Frozen s')
    (hpath : ∀ i < s.count, (s.node i).type = .file → (s'.node i).filepath.isSome)
    (hpayload : ∀ i < s.count, (s'.node i).locked = false → (s'.node i).dirty = false →
      (s'.node i).payload = s'.recompute loc apply i) :
  s'.Sound loc apply
  := by
  constructor
  case formed => exact hfrozen.formed hs.formed
  case path =>
      intro i hi htype
      rw [hfrozen.count] at hi
      rw [hfrozen.type] at htype
      exact hpath i hi htype
  case arguments =>
      intro i hi htype
      rw [hfrozen.count] at hi
      rw [hfrozen.type] at htype
      rw [hfrozen.callback]
      exact hs.arguments i hi htype
  case pure =>
      intro i hi htype
      rw [hfrozen.count] at hi
      rw [hfrozen.type] at htype
      rw [hfrozen.callback]
      apply (hs.pure i hi htype).mono
      rintro j ⟨hlt, hmem⟩
      rw [hfrozen.ascendants]
      exact ⟨hlt, hmem⟩
  case payload =>
      intro i hi
      rw [hfrozen.count] at hi
      exact hpayload i hi

/-- A change of one node that keeps everything the formulas look at. -/
theorem formula_modify {s : Cache} {doc : ℕ} {f : MakeNode → MakeNode}
    (hfrozen : s.Frozen (s.modify doc f))
    (hpath : (f (s.node doc)).filepath = (s.node doc).filepath)
    (hpayload : (s.node doc).type = .datum → (f (s.node doc)).payload = (s.node doc).payload) :
  (s.modify doc f).formula loc apply = s.formula loc apply
  := by
  funext i
  apply formula_eq hfrozen.files (hfrozen.type i) (hfrozen.callback i)
    (modify_field MakeNode.filepath hpath i)
  intro htype
  rw [modify_node]
  split
  case isTrue h =>
      subst h
      apply hpayload htype
  case isFalse => rfl

theorem Refreshed.modify {s : Cache} {doc : ℕ} {f : MakeNode → MakeNode}
    (hfrozen : s.Frozen (s.modify doc f))
    (hlocked : (f (s.node doc)).locked = (s.node doc).locked)
    (hpath : (f (s.node doc)).filepath = (s.node doc).filepath)
    (hpayload : (s.node doc).type = .datum → (f (s.node doc)).payload = (s.node doc).payload) :
  s.Refreshed loc apply (s.modify doc f)
  where
  frozen := hfrozen
  locked := modify_field MakeNode.locked hlocked
  path := modify_field MakeNode.filepath hpath
  formula := formula_modify hfrozen hpath hpayload

theorem formula_regenerate (s : Cache) (doc : ℕ) :
  (s.regenerate doc).formula loc apply = s.formula loc apply
  := formula_modify (.regenerate s doc) rfl (fun _ => rfl)

/-- A regeneration of a node that is not a datum, from its beginning to its end. -/
theorem Refreshed.done {s s₁ : Cache} {doc : ℕ} (hlocked : (s.node doc).locked = false)
    (htype : (s.node doc).type ≠ .datum) (h : (s.regenerate doc).Refreshed loc apply s₁)
    (payload : Scm) :
  s.Refreshed loc apply
    (s₁.modify doc (fun node => { node with payload := payload, locked := false }))
  := by
  have hfrozen : s₁.Frozen
      (s₁.modify doc (fun node => { node with payload := payload, locked := false })) :=
    .modify _ _ rfl rfl rfl
  have hfrozen₁ : s.Frozen s₁ := (Frozen.regenerate s doc).trans h.frozen
  constructor
  case frozen => exact hfrozen₁.trans hfrozen
  case locked =>
      intro i
      rw [modify_node]
      split
      case isTrue hi => rw [hi, hlocked]
      case isFalse hi => rw [h.locked, regenerate, modify_node, if_neg hi]
  case path =>
      intro i
      rw [modify_field MakeNode.filepath rfl, h.path, regenerate,
        modify_field MakeNode.filepath rfl]
  case formula =>
      rw [formula_modify hfrozen rfl, h.formula, formula_regenerate]
      intro hdatum
      rw [hfrozen₁.type] at hdatum
      exact absurd hdatum htype

/-- A change of one node that gives it the recomputed value, or holds its mutex. -/
theorem Sound.modify {s : Cache} (hs : s.Sound loc apply) {doc : ℕ} {f : MakeNode → MakeNode}
    (hfrozen : s.Frozen (s.modify doc f))
    (hpath : (f (s.node doc)).filepath = (s.node doc).filepath)
    (hdatum : (s.node doc).type = .datum → (f (s.node doc)).payload = (s.node doc).payload)
    (hpayload : (f (s.node doc)).locked = false →
      (f (s.node doc)).payload = s.recompute loc apply doc) :
  (s.modify doc f).Sound loc apply
  := by
  apply hs.of_frozen hfrozen
  · intro i hi htype
    rw [modify_field MakeNode.filepath hpath]
    exact hs.path i hi htype
  · intro i hi hlocked hclean
    rw [Cache.recompute, formula_modify hfrozen hpath hdatum]
    rw [modify_node] at hlocked hclean ⊢
    split
    case isTrue h =>
        subst h
        rw [if_pos rfl] at hlocked
        exact hpayload hlocked
    case isFalse h =>
        rw [if_neg h] at hlocked hclean
        exact hs.payload i hi hlocked hclean

end Cache

/-- A pure recipe returns what its formula computes from the recomputed values, when every fetch
in it returns the recomputed value. -/
theorem runRecipe_sound {fetch : Cache → ℕ → List Scm → Option (Outcome × Cache)} {n : ℕ}
    (hfetch : ∀ {s doc}, s.Sound loc apply → doc < s.count → doc < n →
      (∀ i < n, (s.node i).locked = false) →
      ∃ s', fetch s doc [] = some (.ok (s.recompute loc apply doc), s')
        ∧ s'.Sound loc apply ∧ s.Refreshed loc apply s')
    {recipe : Recipe} (hpure : recipe.Pure (· < n)) {s : Cache} (hs : s.Sound loc apply)
    (hn : n ≤ s.count) (hlocked : ∀ i < n, (s.node i).locked = false) :
  ∃ s', runRecipe loc fetch s recipe
      = some (.ok (recipe.formula.eval (s.recompute loc apply)), s')
    ∧ s'.Sound loc apply ∧ s.Refreshed loc apply s'
  := by
  induction recipe generalizing s with
  | ret v => exact ⟨s, rfl, hs, .refl s⟩
  | raise e => cases hpure
  | fetch doc args cont ih =>
      obtain ⟨hdoc, rfl, hcont⟩ := hpure
      have hcount : doc < s.count := Nat.lt_of_lt_of_le hdoc hn
      obtain ⟨s₁, hf, hs₁, hrefreshed⟩ := hfetch hs hcount hdoc hlocked
      obtain ⟨s₂, hr, hs₂, hrefreshed'⟩ := ih _ (hcont _) hs₁
        (by rwa [hrefreshed.frozen.count])
        (fun i hi => (hrefreshed.locked i).trans (hlocked i hi))
      refine ⟨s₂, ?_, hs₂, hrefreshed.trans hrefreshed'⟩
      rw [runRecipe, if_pos hcount, hf]
      rw [hrefreshed.recompute] at hr
      exact hr
  | touch doc args cont => cases hpure

/-- In a sound cache, a fetch of a document such that no older one is being regenerated returns
the recomputed value, and keeps the cache sound. -/
theorem fetchNode_sound {fuel : ℕ} {s : Cache} (hs : s.Sound loc apply) {doc : ℕ}
    (hdoc : doc < s.count) (hlocked : ∀ i ≤ doc, (s.node i).locked = false) (hfuel : doc < fuel)
    (args : List Scm) :
  ∃ s', fetchNode loc apply fuel s doc args = some (.ok (s.recompute loc apply doc), s')
    ∧ s'.Sound loc apply ∧ s.Refreshed loc apply s'
  := by
  induction fuel generalizing s doc args with
  | zero => cases hfuel
  | succ fuel ih =>
      have hfree := hlocked doc (Nat.le_refl doc)
      have hvalue := hs.recompute_eq hdoc
      cases hdirty : (s.node doc).dirty with
      | false =>
          use s
          rw [fetchNode_clean loc apply fuel args hfree hdirty, hs.payload doc hdoc hfree hdirty]
          exact ⟨rfl, hs, .refl s⟩
      | true =>
          rw [Cache.formula] at hvalue
          cases htype : (s.node doc).type with
          | datum =>
              rw [htype] at hvalue
              rw [fetchNode_datum loc apply fuel args hfree hdirty htype, hvalue]
              refine ⟨_, rfl, ?_, ?_⟩
              · apply hs.modify (.modify _ _ rfl rfl rfl) rfl (fun _ => rfl)
                exact fun _ => hvalue.symm
              · exact .modify (.modify _ _ rfl rfl rfl) rfl rfl (fun _ => rfl)
          | file =>
              obtain ⟨path, hpath⟩ := Option.isSome_iff_exists.mp (hs.path doc hdoc htype)
              have hnot : (s.node doc).type ≠ .datum := by
                rw [htype]
                rintro ⟨⟩
              rw [htype, hpath] at hvalue
              rw [fetchNode_file loc apply fuel args hfree hdirty htype, hpath, hvalue]
              refine ⟨_, rfl, ?_, ?_⟩
              · apply hs.modify (.modify _ _ rfl rfl rfl) rfl (fun h => absurd h hnot)
                exact fun _ => hvalue.symm
              · exact .modify (.modify _ _ rfl rfl rfl) rfl rfl (fun h => absurd h hnot)
          | chain =>
              have hnot : (s.node doc).type ≠ .datum := by
                rw [htype]
                rintro ⟨⟩
              rw [htype] at hvalue
              rw [fetchNode_chain loc apply fuel args hfree hdirty htype,
                hs.arguments doc hdoc htype args]
              -- while the recipe runs, the node itself is locked, and counts as not clean
              have hregenerate : (s.regenerate doc).Sound loc apply := by
                apply hs.modify (.regenerate s doc) rfl (fun _ => rfl)
                rintro ⟨⟩
              have hbelow : ∀ i < doc, ((s.regenerate doc).node i).locked = false := by
                intro i hi
                rw [Cache.regenerate, Cache.modify_node, if_neg (Nat.ne_of_lt hi)]
                exact hlocked i (Nat.le_of_lt hi)
              obtain ⟨s₁, hrun, hs₁, hrefreshed⟩ := runRecipe_sound
                (fun hs hd hlt hl => ih hs hd
                  (fun i hi => hl i (Nat.lt_of_le_of_lt hi hlt))
                  (Nat.lt_of_lt_of_le hlt (Nat.le_of_lt_succ hfuel)) [])
                ((hs.pure doc hdoc htype).mono (fun _ h => h.1)) hregenerate
                (Nat.le_of_lt hdoc) hbelow
              have hrecompute : (s.regenerate doc).recompute loc apply
                  = s.recompute loc apply := by
                rw [Cache.recompute, Cache.recompute, Cache.formula_regenerate]
              rw [hrecompute, ← hvalue] at hrun
              rw [hrun]
              refine ⟨_, rfl, ?_, .done hfree hnot hrefreshed _⟩
              apply hs₁.modify (.modify _ _ rfl rfl rfl) rfl
              · intro hdatum
                rw [hrefreshed.frozen.type, (Cache.Frozen.regenerate s doc).type] at hdatum
                exact absurd hdatum hnot
              · intro _
                rw [hrefreshed.recompute, hrecompute]

/-! ### Touching and making documents -/

namespace Cache

/-- What is recomputed of a document that is not above a changed one stays as it is. -/
theorem Sound.recompute_eq_of_not_above {s s' : Cache} (hs : s.Sound loc apply) {doc : ℕ}
    (hformula : ∀ i, i ≠ doc → s'.formula loc apply i = s.formula loc apply i) {i : ℕ}
    (hi : i < s.count) (habove : ¬ s.Above doc i) :
  s'.recompute loc apply i = s.recompute loc apply i
  := by
  apply Formula.value_congr (S := fun k => k < s.count ∧ ¬ s.Above doc k)
  · rintro k ⟨hk, hnot⟩
    apply (hs.within hk).mono
    rintro j ⟨hlt, hmem⟩
    refine ⟨⟨Nat.lt_trans hlt hk, ?_⟩, hlt⟩
    intro hj
    exact hnot (hj.tail hmem)
  · rintro k ⟨-, hnot⟩
    apply hformula
    rintro rfl
    exact hnot .refl
  · exact ⟨hi, habove⟩

/-- A change of one node keeps the cache sound when all nodes above it become dirty. -/
theorem Sound.dirtied {s : Cache} (hs : s.Sound loc apply) {doc : ℕ} {d : ℕ → Bool}
    (hd : s.Dirtied doc d) {f : MakeNode → MakeNode}
    (hfrozen : s.Frozen ((s.setDirty d).modify doc f))
    (hdirty : (f ((s.setDirty d).node doc)).dirty = d doc)
    (hpath : (s.node doc).type = .file → (f ((s.setDirty d).node doc)).filepath.isSome) :
  ((s.setDirty d).modify doc f).Sound loc apply
  := by
  have hother : ∀ i, i ≠ doc → ((s.setDirty d).modify doc f).node i
      = { s.node i with dirty := d i } := by
    intro i hi
    rw [modify_node, if_neg hi]
    rfl
  apply hs.of_frozen hfrozen
  · intro i hi htype
    rw [modify_node]
    split
    case isTrue h =>
        subst h
        exact hpath htype
    case isFalse => exact hs.path i hi htype
  · intro i hi hlocked hclean
    have hclean' : d i = false := by
      rw [modify_node] at hclean
      split at hclean
      case isTrue h => rwa [hdirty, ← h] at hclean
      case isFalse => exact hclean
    have hnot : ¬ ((s.node i).dirty = true ∨ s.Above doc i) := by
      rw [← hd i, hclean']
      exact Bool.false_ne_true
    have hne : i ≠ doc := by
      rintro rfl
      exact hnot (Or.inr .refl)
    rw [hother i hne] at hlocked ⊢
    rw [hs.recompute_eq_of_not_above _ hi (fun h => hnot (Or.inr h))]
    · exact hs.payload i hi hlocked (Bool.eq_false_iff.mpr (fun h => hnot (Or.inl h)))
    · intro k hk
      apply formula_eq hfrozen.files <;> simp [hother k hk]

/-- A new node keeps the cache sound, when it is sound itself. -/
theorem Sound.extend {s s' : Cache} (hs : s.Sound loc apply) (hformed : s'.Formed)
    (hcount : s'.count = s.count + 1) (hfiles : s'.files = s.files)
    (hold : ∀ i < s.count, ∃ ascendants, s'.node i = { s.node i with ascendants := ascendants }
      ∧ ∀ j ∈ (s.node i).ascendants, j ∈ ascendants)
    (hpath : (s'.node s.count).type = .file → (s'.node s.count).filepath.isSome)
    (harguments : (s'.node s.count).type = .chain →
      ∀ args, apply (s'.node s.count).callback args = apply (s'.node s.count).callback [])
    (hpure : (s'.node s.count).type = .chain → (apply (s'.node s.count).callback []).Pure
      (fun j => j < s.count ∧ s.count ∈ (s'.node j).ascendants))
    (hpayload : (s'.node s.count).dirty = false →
      (s'.node s.count).payload = s'.recompute loc apply s.count) :
  s'.Sound loc apply
  := by
  have hcases : ∀ i < s'.count, i < s.count ∨ i = s.count := by
    intro i hi
    omega
  have hformula : ∀ i < s.count, s'.formula loc apply i = s.formula loc apply i := by
    intro i hi
    obtain ⟨ascendants, hnode, -⟩ := hold i hi
    apply formula_eq hfiles <;> simp [hnode]
  constructor
  case formed => exact hformed
  case path =>
      intro i hi
      rcases hcases i hi with hi | rfl
      · obtain ⟨ascendants, hnode, -⟩ := hold i hi
        rw [hnode]
        exact hs.path i hi
      · exact hpath
  case arguments =>
      intro i hi
      rcases hcases i hi with hi | rfl
      · obtain ⟨ascendants, hnode, -⟩ := hold i hi
        rw [hnode]
        exact hs.arguments i hi
      · exact harguments
  case pure =>
      intro i hi htype
      rcases hcases i hi with hi | rfl
      · obtain ⟨ascendants, hnode, -⟩ := hold i hi
        rw [hnode] at htype ⊢
        apply (hs.pure i hi htype).mono
        rintro j ⟨hlt, hmem⟩
        obtain ⟨ascendants', hnode', hsub⟩ := hold j (Nat.lt_trans hlt hi)
        rw [hnode']
        exact ⟨hlt, hsub i hmem⟩
      · exact hpure htype
  case payload =>
      intro i hi hlocked hclean
      rcases hcases i hi with hi | rfl
      · obtain ⟨ascendants, hnode, -⟩ := hold i hi
        rw [hnode] at hlocked hclean ⊢
        have hrecompute : s'.recompute loc apply i = s.recompute loc apply i := by
          apply Formula.value_congr (S := (· < s.count)) _ hformula hi
          intro k hk
          apply (hs.within hk).mono
          rintro j ⟨hlt, -⟩
          exact ⟨Nat.lt_trans hlt hk, hlt⟩
        rw [hrecompute]
        exact hs.payload i hi hlocked hclean
      · exact hpayload hclean

end Cache

/-- Touching a document keeps a sound cache sound.  The new path of a file has to be a path. -/
theorem Touched.sound {s s' : Cache} {doc : ℕ} {args : List Scm} {o : Outcome}
    (h : Touched loc s doc args o s') (hs : s.Sound loc apply) (hdoc : doc < s.count)
    (hargs : (s.node doc).type = .file → ∀ arg, args.head? = some arg →
      (loc.toLocaleString arg).isSome) :
  s'.Sound loc apply
  := by
  have hfrozen := h.frozen
  cases h with
  | locked => exact hs
  | plain d hlocked hd =>
      have hid : (s.setDirty d).modify doc id = s.setDirty d := Cache.modify_eq_self rfl
      rw [← hid]
      exact hs.dirtied hd (by rwa [hid]) rfl (hs.path doc hdoc)
  | datum d arg hlocked hd => exact hs.dirtied hd hfrozen rfl (hs.path doc hdoc)
  | file d arg path hlocked hd => exact hs.dirtied hd hfrozen rfl (fun _ => rfl)
  | freed d arg hlocked hd htype hhead hpath =>
      have hsome := hargs htype arg hhead
      rw [hpath] at hsome
      cases hsome

/-- Making a document keeps a sound cache sound.  A recipe has to ignore its arguments and to
fetch ingredients only. -/
theorem Made.sound {s s' : Cache} {ingredients : Ingredients} {recipe : Scm}
    (h : Made loc s ingredients recipe s') (hs : s.Sound loc apply)
    (hlocked : ∀ i, (s.node i).locked = false)
    (hrecipe : ∀ docs, ingredients = .docs docs → (∀ doc ∈ docs, doc < s.count)
      ∧ (∀ args, apply recipe args = apply recipe []) ∧ (apply recipe []).Pure (· ∈ docs)) :
  s'.Sound loc apply
  := by
  have hformed := h.formed hs.formed (fun docs hdocs => (hrecipe docs hdocs).1)
  have hold : ∀ node, ∀ i < s.count, (s.addNode node).node i = s.node i := by
    intro node i hi
    rw [Cache.addNode_node, if_neg (Nat.ne_of_lt hi)]
  have hnew : ∀ node, (s.addNode node).node s.count = node := by
    intro node
    rw [Cache.addNode_node, if_pos rfl]
  cases h with
  | datum name =>
      apply hs.extend hformed rfl rfl
      · exact fun i hi => ⟨_, hold _ i hi, fun _ h => h⟩
      · rw [hnew]
        rintro ⟨⟩
      · rw [hnew]
        rintro ⟨⟩
      · rw [hnew]
        rintro ⟨⟩
      · intro _
        have hformula : (s.addNode { makeNode .datum false with payload := recipe }).formula loc
            apply s.count = .ret recipe := by
          rw [Cache.formula, hnew]
          rfl
        rw [Cache.recompute, Formula.value_eq, hformula, hnew]
        · rfl
        · rw [hformula]
          trivial
  | file _ path =>
      have hnew' := hnew { makeNode .file true with filepath := some path }
      apply hs.extend hformed rfl rfl
      · exact fun i hi => ⟨_, hold _ i hi, fun _ h => h⟩
      · intro _
        dsimp only
        rw [hnew']
        rfl
      · dsimp only
        rw [hnew']
        rintro ⟨⟩
      · dsimp only
        rw [hnew']
        rintro ⟨⟩
      · dsimp only
        rw [hnew']
        rintro ⟨⟩
  | noPath => exact hs
  | chain docs _ done hdone hall =>
      obtain ⟨hdocs, harguments, hpure⟩ := hrecipe docs rfl
      obtain rfl := hall (fun doc hdoc => ⟨hdocs doc hdoc, hlocked doc⟩)
      apply hs.extend hformed rfl rfl
      · intro i hi
        rw [Cache.withAscendant_node, hold _ i hi]
        refine ⟨_, rfl, ?_⟩
        intro j hj
        split
        · exact List.mem_cons_of_mem _ hj
        · exact hj
      · rw [Cache.withAscendant_node, hnew]
        rintro ⟨⟩
      · intro _
        rw [Cache.withAscendant_node, hnew]
        exact harguments
      · intro _
        rw [Cache.withAscendant_node, hnew]
        apply hpure.mono
        intro j hj
        refine ⟨hdocs j hj, ?_⟩
        rw [Cache.withAscendant_node, hold _ j (hdocs j hj)]
        split
        case isTrue => apply List.mem_cons_self
        case isFalse h =>
            by_contra hnot
            exact h ⟨hj, hnot⟩
      · rw [Cache.withAscendant_node, hnew]
        rintro ⟨⟩

/-- Touching a document leaves no mutex locked, when the new path of a file is a path. -/
theorem Touched.unlocked {s s' : Cache} {doc : ℕ} {args : List Scm} {o : Outcome}
    (h : Touched loc s doc args o s') (hlocked : ∀ i, (s.node i).locked = false)
    (hargs : (s.node doc).type = .file → ∀ arg, args.head? = some arg →
      (loc.toLocaleString arg).isSome) (i : ℕ) :
  (s'.node i).locked = false
  := by
  cases h with
  | locked => apply hlocked
  | plain d => apply hlocked
  | datum d => exact (Cache.modify_field MakeNode.locked rfl i).trans (hlocked i)
  | file d => exact (Cache.modify_field MakeNode.locked rfl i).trans (hlocked i)
  | freed d arg _ _ htype hhead hpath =>
      have hsome := hargs htype arg hhead
      rw [hpath] at hsome
      cases hsome

/-- Making a document leaves no mutex locked. -/
theorem Made.unlocked {s s' : Cache} {ingredients : Ingredients} {recipe : Scm}
    (h : Made loc s ingredients recipe s') (hlocked : ∀ i, (s.node i).locked = false) (i : ℕ) :
  (s'.node i).locked = false
  := by
  have hadd : ∀ node : MakeNode, node.locked = false →
      ((s.addNode node).node i).locked = false := by
    intro node hnode
    rw [Cache.addNode_node]
    split
    case isTrue => exact hnode
    case isFalse => exact hlocked i
  cases h with
  | datum => exact hadd _ rfl
  | file => exact hadd _ rfl
  | noPath => exact hlocked i
  | chain => exact hadd _ rfl

/-- The actions of an application whose recipes are pure: a recipe ignores its arguments and
fetches ingredients only, what a file node is touched with is a path, and the files stay as they
are. -/
def PureAction (loc : Locale) (apply : Scm → List Scm → Recipe) (s : Cache) :
    CacheAction → Prop
  | .make (.docs docs) recipe =>
      (∀ args, apply recipe args = apply recipe []) ∧ (apply recipe []).Pure (· ∈ docs)
  | .make (.symbol _) _ => True
  | .touch doc args => (s.node doc).type = .file → ∀ arg, args.head? = some arg →
      (loc.toLocaleString arg).isSome
  | .fetch _ _ => True
  | _ => False

variable {files : List UInt8 → Option File} {newest : ℕ}

/-- A pure action keeps a cache sound, and no mutex locked. -/
theorem sound_of_cacheStep {s s' : Cache} {action : CacheAction}
    (hs : s.Sound loc apply ∧ ∀ i, (s.node i).locked = false)
    (hpure : PureAction loc apply s action) (h : cacheStep loc apply s action = some s') :
  s'.Sound loc apply ∧ ∀ i, (s'.node i).locked = false
  := by
  obtain ⟨hs, hlocked⟩ := hs
  cases cacheStep_cases hs.formed h with
  | make ingredients recipe _ hdocs hmade =>
      constructor
      · apply hmade.sound hs hlocked
        rintro docs rfl
        exact ⟨hdocs docs rfl, hpure⟩
      · exact hmade.unlocked hlocked
  | touch doc args o _ hdoc htouched =>
      exact ⟨htouched.sound hs hdoc hpure, htouched.unlocked hlocked hpure⟩
  | fetch doc args o _ hdoc hfetch =>
      obtain ⟨s₁, hf, hs₁, hrefreshed⟩ := fetchNode_sound hs hdoc (fun i _ => hlocked i)
        (Nat.lt_succ_of_lt hdoc) args
      rw [fetchDoc, hf] at hfetch
      cases hfetch
      exact ⟨hs₁, fun i => (hrefreshed.locked i).trans (hlocked i)⟩
  | write => cases hpure
  | delete => cases hpure
  | police => cases hpure

/-- In every run of pure actions, fetching a document comes to an end, and returns what is
recomputed from scratch. -/
theorem fetchDoc_eq_recompute {actions : List CacheAction} {s : Cache}
    (hrun : run (cacheStep loc apply) (startCache files newest) actions = some s)
    (hpure : Meets (cacheStep loc apply) (PureAction loc apply) (startCache files newest) actions)
    {doc : ℕ} (hdoc : doc < s.count) (args : List Scm) :
  ∃ s', fetchDoc loc apply s doc args = some (.ok (s.recompute loc apply doc), s')
  := by
  have hsound := run_invariant_of_meets
    (I := fun s : Cache => s.Sound loc apply ∧ ∀ i, (s.node i).locked = false)
    (fun _ _ _ hs hpure h => sound_of_cacheStep hs hpure h) ?_ hpure hrun
  · obtain ⟨hs, hlocked⟩ := hsound
    obtain ⟨s', hf, -, -⟩ := fetchNode_sound hs hdoc (fun i _ => hlocked i)
      (Nat.lt_succ_of_lt hdoc) args
    exact ⟨s', hf⟩
  · refine ⟨⟨formed_startCache files newest, ?_, ?_, ?_, ?_⟩, fun _ => rfl⟩
    all_goals
      intro i hi
      exact absurd hi (Nat.not_lt_zero i)

end Procedures

/-- An application whose only recipe returns the value of the first document. -/
def returnsFirst (_ : Scm) (_ : List Scm) : Recipe :=
  .fetch 0 [] (fun o =>
    match o with
    | .ok v => .ret v
    | .error e => .raise e)

/-- A datum, and a node above it that is fetched before and after the datum is touched. -/
def touchDatum : List CacheAction :=
  [.make (.symbol "data".toList) (.str "a".toList), .make (.docs [0]) (.bool true), .fetch 1 [],
    .touch 0 [.str "b".toList]]

/-- The fetch of a node whose datum has been touched returns the new value. -/
theorem fetchDoc_eq_recompute_touchDatum :
  ∃ s s', run (cacheStep latin1 returnsFirst) (startCache (fun _ => none) 0) touchDatum = some s
    ∧ fetchDoc latin1 returnsFirst s 1 [] = some (.ok (s.recompute latin1 returnsFirst 1), s')
    ∧ s.recompute latin1 returnsFirst 1 = .str "b".toList
  := by
  have hpure : Meets (cacheStep latin1 returnsFirst) (PureAction latin1 returnsFirst)
      (startCache (fun _ => none) 0) touchDatum := by
    refine ⟨trivial, fun s₁ h₁ => ⟨⟨fun _ => rfl, ?_⟩, fun s₂ h₂ => ⟨trivial, fun s₃ h₃ => ?_⟩⟩⟩
    · exact ⟨List.mem_singleton.mpr rfl, rfl, fun _ => trivial⟩
    · obtain rfl := Option.some.inj h₁
      obtain rfl := Option.some.inj h₂
      obtain rfl := Option.some.inj h₃
      refine ⟨?_, fun _ _ => trivial⟩
      rintro ⟨⟩
  have hvalue : ∃ s s',
      run (cacheStep latin1 returnsFirst) (startCache (fun _ => none) 0) touchDatum = some s
        ∧ 1 < s.count
        ∧ fetchDoc latin1 returnsFirst s 1 [] = some (.ok (.str "b".toList), s') :=
    ⟨_, _, rfl, Nat.lt_succ_self 1, rfl⟩
  obtain ⟨s, s', hrun, hdoc, hfetch⟩ := hvalue
  obtain ⟨s'', hrecompute⟩ := fetchDoc_eq_recompute hrun hpure hdoc []
  refine ⟨s, s'', hrun, hrecompute, ?_⟩
  rw [hfetch] at hrecompute
  obtain ⟨hvalue, -⟩ := Prod.mk.inj (Option.some.inj hrecompute)
  exact (Except.ok.inj hvalue).symm

end Gusher
