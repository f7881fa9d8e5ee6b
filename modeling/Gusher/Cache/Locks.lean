import Gusher.Cache.Changes
import Mathlib.Data.Finset.Card
import Mathlib.Order.Interval.Finset.Nat

/-!
# Locks and exceptions

Fetching and touching never unlock a mutex that was locked before.  So a regeneration that nests
in another one takes a new mutex, and regenerations nest at most as deep as there are nodes
(`fetchNode_eq_fetchDoc`).  An exception that leaves a recipe also leaves `fetch_node`, and the
node stays locked (`abandoned_not_retryable`): it is never ready to be fetched again.
-/

namespace Gusher

open Run

namespace Cache

/-- The mutexes that were locked are still locked, and so are those of the nodes that an exception
has left since; they were free before. -/
structure Held (s s' : Cache) : Prop where
  frozen : s.Frozen s'
  locked : ∀ i, (s.node i).locked = true → (s'.node i).locked = true
  abandoned : ∃ left, s'.abandoned = left ++ s.abandoned
    ∧ ∀ i ∈ left, (s.node i).locked = false ∧ (s'.node i).locked = true

theorem Held.refl (s : Cache) :
  s.Held s
  := ⟨.refl s, fun _ h => h, [], rfl, fun _ h => absurd h List.not_mem_nil⟩

theorem Held.trans {s s' s'' : Cache} (h : s.Held s') (h' : s'.Held s'') :
  s.Held s''
  := by
  obtain ⟨left, hleft, hfree⟩ := h.abandoned
  obtain ⟨left', hleft', hfree'⟩ := h'.abandoned
  refine ⟨h.frozen.trans h'.frozen, fun i hi => h'.locked i (h.locked i hi), left' ++ left, ?_, ?_⟩
  · rw [hleft', hleft, List.append_assoc]
  · intro i hi
    rcases List.mem_append.mp hi with hi | hi
    · obtain ⟨hunlocked, hlocked⟩ := hfree' i hi
      refine ⟨?_, hlocked⟩
      rw [← Bool.not_eq_true]
      intro hbefore
      rw [h.locked i hbefore] at hunlocked
      cases hunlocked
    · obtain ⟨hunlocked, hlocked⟩ := hfree i hi
      exact ⟨hunlocked, h'.locked i hlocked⟩

/-- A change that keeps a locked mutex locked. -/
theorem Held.modify (s : Cache) (doc : ℕ) {f : MakeNode → MakeNode}
    (hfrozen : s.Frozen (s.modify doc f))
    (hlocked : (s.node doc).locked = true → (f (s.node doc)).locked = true) :
  s.Held (s.modify doc f)
  := by
  refine ⟨hfrozen, ?_, [], rfl, fun _ h => absurd h List.not_mem_nil⟩
  intro i hi
  rw [modify_node]
  split
  case isTrue h =>
      subst h
      exact hlocked hi
  case isFalse => exact hi

/-- The nodes that an exception has left since. -/
def abandonedSince (s s' : Cache) : List ℕ :=
  s'.abandoned.take (s'.abandoned.length - s.abandoned.length)

/-- What a node needs so that it can be fetched again after its regeneration has failed: it is
dirty, has its old payload, and its mutex is free. -/
structure Retryable (s s' : Cache) (doc : ℕ) : Prop where
  dirty : (s'.node doc).dirty = true
  payload : (s'.node doc).payload = (s.node doc).payload
  unlocked : (s'.node doc).locked = false

/-- The nodes that an exception has left are locked. -/
theorem Held.abandonedSince {s s' : Cache} (h : s.Held s') {i : ℕ}
    (hi : i ∈ s.abandonedSince s') :
  (s'.node i).locked = true
  := by
  obtain ⟨left, hleft, hfree⟩ := h.abandoned
  have heq : s.abandonedSince s' = left := by
    rw [Cache.abandonedSince, hleft, List.length_append, Nat.add_sub_cancel, List.take_left]
  rw [heq] at hi
  exact (hfree i hi).2

end Cache

/-- Touching unlocks no mutex that was locked. -/
theorem Touched.held {loc : Locale} {s s' : Cache} {doc : ℕ} {args : List Scm} {o : Outcome}
    (h : Touched loc s doc args o s') :
  s.Held s'
  := by
  have hdirty : ∀ d, s.Held (s.setDirty d) :=
    fun d => ⟨.setDirty s d, fun _ h => h, [], rfl, fun _ h => absurd h List.not_mem_nil⟩
  cases h with
  | locked => exact .refl s
  | plain d => exact hdirty d
  | datum d => exact (hdirty d).trans (.modify _ _ (.modify _ _ rfl rfl rfl) id)
  | file d => exact (hdirty d).trans (.modify _ _ (.modify _ _ rfl rfl rfl) id)
  | freed d => exact (hdirty d).trans (.modify _ _ (.modify _ _ rfl rfl rfl) (fun _ => rfl))

section Procedures

variable {loc : Locale} {apply : Scm → List Scm → Recipe}

/-- A run of a recipe unlocks no mutex that was locked, when the fetches in it do not. -/
theorem runRecipe_held {fetch : Cache → ℕ → List Scm → Option (Outcome × Cache)}
    (hfetch : ∀ {s s' doc args o}, s.Layered → doc < s.count →
      fetch s doc args = some (o, s') → s.Held s')
    {recipe : Recipe} {s s' : Cache} {o : Outcome} (hlayered : s.Layered)
    (h : runRecipe loc fetch s recipe = some (o, s')) :
  s.Held s'
  := by
  revert hlayered
  apply runRecipe_rel (R := fun s s' => s.Layered → s.Held s') _ _ _ _ h
  · exact fun s _ => .refl s
  · intro s₁ s₂ s₃ h₁ h₂ hlayered
    exact (h₁ hlayered).trans (h₂ ((h₁ hlayered).frozen.layered hlayered))
  · exact fun hdoc hf hlayered => hfetch hlayered hdoc hf
  · exact fun hdoc ht hlayered => (touched_of_eq hlayered hdoc ht).held

/-- A regeneration that comes to an end gives back the mutex that it has taken. -/
theorem Cache.Held.done {s s₁ : Cache} {doc : ℕ} (hlocked : (s.node doc).locked = false)
    (h : (s.regenerate doc).Held s₁) (payload : Scm) :
  s.Held (s₁.modify doc (fun node => { node with payload := payload, locked := false }))
  := by
  obtain ⟨left, hleft, hfree⟩ := h.abandoned
  refine ⟨?_, ?_, left, hleft, ?_⟩
  · apply (Cache.Frozen.regenerate s doc).trans
    exact h.frozen.trans (.modify _ _ rfl rfl rfl)
  · intro i hi
    have hne : i ≠ doc := by
      rintro rfl
      rw [hlocked] at hi
      cases hi
    rw [Cache.modify_node, if_neg hne]
    apply h.locked
    rwa [Cache.regenerate, Cache.modify_node, if_neg hne]
  · intro i hi
    obtain ⟨hunlocked, hheld⟩ := hfree i hi
    have hne : i ≠ doc := by
      rintro rfl
      rw [Cache.regenerate, Cache.modify_node, if_pos rfl] at hunlocked
      cases hunlocked
    rw [Cache.regenerate, Cache.modify_node, if_neg hne] at hunlocked
    rw [Cache.modify_node, if_neg hne]
    exact ⟨hunlocked, hheld⟩

/-- A regeneration that an exception ends keeps the mutex that it has taken. -/
theorem Cache.Held.raised {s s₁ : Cache} {doc : ℕ} (hlocked : (s.node doc).locked = false)
    (h : (s.regenerate doc).Held s₁) :
  s.Held { s₁ with abandoned := doc :: s₁.abandoned }
  := by
  have hregenerate : s.Held (s.regenerate doc) :=
    .modify _ _ (.regenerate s doc) (fun _ => rfl)
  obtain ⟨hfrozen, hheld, left, hleft, hfree⟩ := hregenerate.trans h
  refine ⟨hfrozen.trans ⟨rfl, rfl, rfl, rfl, fun _ => rfl, fun _ => rfl, fun _ => rfl⟩, hheld,
    doc :: left, ?_, ?_⟩
  · rw [hleft, List.cons_append]
  · intro i hi
    rcases List.mem_cons.mp hi with rfl | hi
    · refine ⟨hlocked, h.locked i ?_⟩
      rw [Cache.regenerate, Cache.modify_node, if_pos rfl]
    · exact hfree i hi

/-- Fetching unlocks no mutex that was locked, and the nodes that an exception leaves stay
locked. -/
theorem fetchNode_held {fuel : ℕ} {s s' : Cache} (hlayered : s.Layered) {doc : ℕ}
    (hdoc : doc < s.count) {args : List Scm} {o : Outcome}
    (h : fetchNode loc apply fuel s doc args = some (o, s')) :
  s.Held s'
  := by
  induction fuel generalizing s s' doc args o with
  | zero => cases h
  | succ fuel ih =>
      cases fetchNode_cases h with
      | locked => exact .refl s
      | clean => exact .refl s
      | datum => exact .modify _ _ (.modify _ _ rfl rfl rfl) id
      | file => exact .modify _ _ (.modify _ _ rfl rfl rfl) id
      | done payload s₁ hlocked _ _ hrun =>
          apply Cache.Held.done hlocked
          apply runRecipe_held (fun hs hd h => ih hs hd h) _ hrun
          exact (Cache.Frozen.regenerate s doc).layered hlayered
      | raised e s₁ hlocked _ _ hrun =>
          apply Cache.Held.raised hlocked
          apply runRecipe_held (fun hs hd h => ih hs hd h) _ hrun
          exact (Cache.Frozen.regenerate s doc).layered hlayered

/-! ### Nesting -/

/-- The number of nodes whose mutex is free. -/
def Cache.free (s : Cache) : ℕ :=
  ((Finset.range s.count).filter (fun i => (s.node i).locked = false)).card

/-- Holding mutexes leaves at most as many free ones. -/
theorem Cache.Held.free_le {s s' : Cache} (h : s.Held s') :
  s'.free ≤ s.free
  := by
  unfold Cache.free
  rw [h.frozen.count]
  apply Finset.card_le_card
  intro i hi
  obtain ⟨hcount, hfree⟩ := Finset.mem_filter.mp hi
  apply Finset.mem_filter.mpr
  refine ⟨hcount, ?_⟩
  rw [← Bool.not_eq_true]
  intro hlocked
  rw [h.locked i hlocked] at hfree
  cases hfree

/-- A regeneration takes one of the free mutexes. -/
theorem Cache.free_regenerate_lt {s : Cache} {doc : ℕ} (hdoc : doc < s.count)
    (hlocked : (s.node doc).locked = false) :
  (s.regenerate doc).free < s.free
  := by
  apply Finset.card_lt_card
  rw [Finset.ssubset_iff_of_subset]
  · use doc
    refine ⟨Finset.mem_filter.mpr ⟨Finset.mem_range.mpr hdoc, hlocked⟩, ?_⟩
    intro h
    have hregenerate := (Finset.mem_filter.mp h).2
    rw [Cache.regenerate, Cache.modify_node, if_pos rfl] at hregenerate
    cases hregenerate
  · intro i hi
    obtain ⟨hcount, hfree⟩ := Finset.mem_filter.mp hi
    refine Finset.mem_filter.mpr ⟨hcount, ?_⟩
    rw [Cache.regenerate, Cache.modify_node] at hfree
    split at hfree
    case isTrue h => cases hfree
    case isFalse => exact hfree

/-- Two ways of fetching that agree as long as few mutexes are free run a recipe alike. -/
theorem runRecipe_congr {fetch fetch' : Cache → ℕ → List Scm → Option (Outcome × Cache)} {n : ℕ}
    (hfetch : ∀ {s s' doc args o}, s.Layered → doc < s.count →
      fetch s doc args = some (o, s') → s.Held s')
    (heq : ∀ {s doc args}, s.Layered → s.free < n → doc < s.count →
      fetch' s doc args = fetch s doc args)
    {recipe : Recipe} {s : Cache} (hlayered : s.Layered) (hfree : s.free < n) :
  runRecipe loc fetch' s recipe = runRecipe loc fetch s recipe
  := by
  induction recipe generalizing s with
  | ret v => rfl
  | raise e => rfl
  | fetch doc args cont ih =>
      rw [runRecipe, runRecipe]
      split
      case isFalse => rfl
      case isTrue hdoc =>
          rw [heq hlayered hfree hdoc]
          cases hf : fetch s doc args with
          | none => rfl
          | some r =>
              have hheld := hfetch hlayered hdoc hf
              apply ih _ (hheld.frozen.layered hlayered)
              exact Nat.lt_of_le_of_lt hheld.free_le hfree
  | touch doc args cont ih =>
      rw [runRecipe, runRecipe]
      split
      case isFalse => rfl
      case isTrue hdoc =>
          cases ht : touchNode loc s doc args with
          | none => rfl
          | some r =>
              have hheld := (touched_of_eq hlayered hdoc ht).held
              apply ih _ (hheld.frozen.layered hlayered)
              exact Nat.lt_of_le_of_lt hheld.free_le hfree

/-- With more fuel than there are free mutexes, more fuel makes no difference. -/
theorem fetchNode_congr {fuel fuel' : ℕ} {s : Cache} (hlayered : s.Layered) {doc : ℕ}
    (hdoc : doc < s.count) (args : List Scm) (hfuel : s.free < fuel) (hfuel' : s.free < fuel') :
  fetchNode loc apply fuel' s doc args = fetchNode loc apply fuel s doc args
  := by
  induction fuel generalizing fuel' s doc args with
  | zero => cases hfuel
  | succ fuel ih =>
      obtain ⟨fuel', rfl⟩ := Nat.exists_eq_succ_of_ne_zero (Nat.ne_of_gt (Nat.zero_lt_of_lt hfuel'))
      cases hlocked : (s.node doc).locked with
      | true =>
          rw [fetchNode_locked loc apply fuel args hlocked,
            fetchNode_locked loc apply fuel' args hlocked]
      | false =>
          cases hdirty : (s.node doc).dirty with
          | false =>
              rw [fetchNode_clean loc apply fuel args hlocked hdirty,
                fetchNode_clean loc apply fuel' args hlocked hdirty]
          | true =>
              have hlt := Cache.free_regenerate_lt hdoc hlocked
              have hrun : runRecipe loc (fetchNode loc apply fuel') (s.regenerate doc)
                    (apply (s.node doc).callback args)
                  = runRecipe loc (fetchNode loc apply fuel) (s.regenerate doc)
                    (apply (s.node doc).callback args) := by
                apply runRecipe_congr (n := min fuel fuel')
                · exact fun hs hd h => fetchNode_held hs hd h
                · intro s doc args hlayered hfree hdoc
                  apply ih hlayered hdoc
                  · omega
                  · omega
                · exact (Cache.Frozen.regenerate s doc).layered hlayered
                · omega
              rw [fetchNode_dirty loc apply fuel args hlocked hdirty,
                fetchNode_dirty loc apply fuel' args hlocked hdirty, hrun]

/-- Regenerations nest at most as deep as there are nodes: more fuel than `fetchDoc` has makes no
difference. -/
theorem fetchNode_eq_fetchDoc {fuel : ℕ} {s : Cache} (hlayered : s.Layered) {doc : ℕ}
    (hdoc : doc < s.count) (args : List Scm) (hfuel : s.count < fuel) :
  fetchNode loc apply fuel s doc args = fetchDoc loc apply s doc args
  := by
  have hfree : s.free ≤ s.count := by
    apply le_trans (Finset.card_filter_le _ _)
    rw [Finset.card_range]
  apply fetchNode_congr hlayered hdoc
  · omega
  · omega

/-! ### Exceptions -/

/-- A node that an exception has left is never regenerated again: fetching it raises. -/
theorem fetchDoc_abandoned {s s' : Cache} (hlayered : s.Layered) {doc : ℕ} (hdoc : doc < s.count)
    {args : List Scm} {o : Outcome} (h : fetchDoc loc apply s doc args = some (o, s')) {i : ℕ}
    (hi : i ∈ s.abandonedSince s') (args' : List Scm) :
  fetchDoc loc apply s' i args' = some (.error mutexError, s')
  := by
  apply fetchNode_locked
  apply (fetchNode_held hlayered hdoc h).abandonedSince hi

/-- After a fetch in which a recipe has raised, the nodes that the exception has left are locked,
so that none of them is as it was before. -/
theorem abandoned_not_retryable {files : List UInt8 → Option File} {newest : ℕ} {s s' : Cache}
    (hs : Reaches (cacheStep loc apply) (startCache files newest) s) {doc : ℕ}
    (hdoc : doc < s.count) {args : List Scm} {o : Outcome}
    (h : fetchDoc loc apply s doc args = some (o, s'))
    (hraised : s.abandonedSince s' ≠ []) :
  ¬ ∀ i ∈ s.abandonedSince s', s.Retryable s' i
  := by
  intro hall
  obtain ⟨i, hi⟩ := List.exists_mem_of_ne_nil _ hraised
  have hlocked := (fetchNode_held (formed_of_reaches hs).layered hdoc h).abandonedSince hi
  rw [(hall i hi).unlocked] at hlocked
  cases hlocked

end Procedures

/-- An application whose recipes raise. -/
def raises (_ : Scm) (_ : List Scm) : Recipe :=
  .raise (.symbol "misc-error".toList)

/-- The fetch of a node without ingredients whose recipe raises. -/
theorem abandoned_not_retryable_raises :
  ∃ s s' o, run (cacheStep latin1 raises) (startCache (fun _ => none) 0)
        [.make (.docs []) (.bool true)] = some s
    ∧ fetchDoc latin1 raises s 0 [] = some (o, s')
    ∧ ¬ ∀ i ∈ s.abandonedSince s', s.Retryable s' i
  := by
  refine ⟨_, _, _, rfl, rfl, ?_⟩
  apply @abandoned_not_retryable latin1 raises (fun _ => none) 0 _ _
    ⟨[.make (.docs []) (.bool true)], rfl⟩ 0 (Nat.zero_lt_succ 0) [] _ rfl
  decide

/-- The node is left clean and locked, with an exception. -/
theorem raises_not_retryable :
  ∃ s s' o, run (cacheStep latin1 raises) (startCache (fun _ => none) 0)
        [.make (.docs []) (.bool true)] = some s
    ∧ fetchDoc latin1 raises s 0 [] = some (o, s')
    ∧ o = .error (.symbol "misc-error".toList)
    ∧ s.abandonedSince s' = [0]
    ∧ (s'.node 0).dirty = false
    ∧ (s'.node 0).locked = true
    ∧ ¬ ∀ i ∈ s.abandonedSince s', s.Retryable s' i
  := by
  refine ⟨_, _, _, rfl, rfl, rfl, rfl, rfl, rfl, ?_⟩
  intro hall
  have hdirty := (hall 0 (by decide)).dirty
  revert hdirty
  decide

end Gusher
