import Gusher.Template.Faithful

/-!
# Filling in two stages

A partial filling leaves a template for the slots that have no value yet.  When neither the text
of the template nor the values of the first stage have an opening bracket, filling what is left
gives the same as filling once with both tables.
-/

namespace Gusher

open Search

/-- The text has no opening bracket; this says nothing of a slot. -/
def Segment.Unbracketed : Segment → Prop
  | .text t => '[' ∉ t
  | .slot _ => True

/-- A template whose text has no opening bracket is regular. -/
theorem regular_of_unbracketed {segments : List Segment} (h : ∀ s ∈ segments, s.Unbracketed) :
  Regular segments
  := by
  fun_induction Regular segments with
  | case1 => trivial
  | case2 t =>
      have ht : '[' ∉ t := h (.text t) List.mem_cons_self
      have hnone : strstr (encodeUtf8 t) slotMark = none := by
        rw [slotMark_eq, strstr_encodeUtf8 ascii_slotMark (List.cons_ne_nil _ _),
          Option.map_eq_none_iff, strstr_eq_none_iff]
        intro hmark
        exact ht (hmark.subset List.mem_cons_self)
      intro x hx
      rw [hnone] at hx
      cases hx
  | case3 t s segments ih =>
      have ht : '[' ∉ t := h (.text t) List.mem_cons_self
      constructor
      · rintro a b rfl
        simp at ht
      · apply ih
        intro s' hs'
        exact h s' (List.mem_cons_of_mem _ hs')
  | case4 name segments ih =>
      apply ih
      intro s' hs'
      exact h s' (List.mem_cons_of_mem _ hs')

/-- The text of a template of tame pieces has no opening bracket. -/
theorem unbracketed_of_tame {segments : List Segment} (h : ∀ s ∈ segments, s.Tame) :
  ∀ s ∈ parse (segments.flatMap Segment.source), s.Unbracketed
  := by
  induction segments with
  | nil =>
      rw [List.flatMap_nil, parse_of_none rfl]
      simp [Segment.Unbracketed]
  | cons s segments ih =>
      have hs := h s List.mem_cons_self
      have hrest := ih (fun s' hs' => h s' (List.mem_cons_of_mem s hs'))
      rw [List.flatMap_cons]
      generalize segments.flatMap Segment.source = t at hrest ⊢
      cases s with
      | text a =>
          have ha : '[' ∉ a := hs
          cases hnext : nextSlot t with
          | none =>
              have hnext' : nextSlot (a ++ t) = none := by simp [nextSlot_append ha, hnext]
              rw [parse_of_none hnext] at hrest
              rw [Segment.source, parse_of_none hnext']
              simpa [Segment.Unbracketed, ha] using hrest
          | some x =>
              obtain ⟨lit, name, after⟩ := x
              have hnext' : nextSlot (a ++ t) = some (a ++ lit, name, after) := by
                simp [nextSlot_append ha, hnext]
              rw [parse_of_some hnext] at hrest
              rw [Segment.source, parse_of_some hnext']
              simpa [Segment.Unbracketed, ha] using hrest
      | slot name =>
          rw [parse_of_some (nextSlot_slot hs t)]
          simpa [Segment.Unbracketed] using hrest

theorem fillTemplate_of_tame {segments : List Segment} {slots : List (Text × Scm)}
    (isPartial : Scm) (h : ∀ s ∈ segments, s.Tame)
    (hnul : Char.ofNat 0 ∉ segments.flatMap Segment.source) (hslots : Convertible slots) :
  fillTemplate (.str (segments.flatMap Segment.source)) isPartial slots
    = some (fillSlots (isPartial = .bool true) (lookupSlot slots)
        (segments.flatMap Segment.source))
  := fillTemplate_of_regular isPartial hnul hslots
    (regular_of_unbracketed (unbracketed_of_tame h))

theorem lookupSlot_append (slots slots' : List (Text × Scm)) (name : Text) :
  lookupSlot (slots ++ slots') name = (lookupSlot slots name).or (lookupSlot slots' name)
  := by
  rw [lookupSlot, List.find?_append, Option.map_or]
  rfl

theorem mem_of_lookupSlot {slots : List (Text × Scm)} {name value : Text}
    (h : lookupSlot slots name = some value) :
  ∃ pair ∈ slots, payloadText pair.2 = value
  := by
  obtain ⟨pair, hpair, hvalue⟩ := Option.map_eq_some_iff.mp h
  exact ⟨pair, List.mem_of_find?_eq_some hpair, hvalue⟩

/-- A template without a NUL, filled partially with values without a NUL, has none. -/
theorem nul_notMem_stage {segments : List Segment} {slots : List (Text × Scm)}
    (hnul : Char.ofNat 0 ∉ segments.flatMap Segment.source) (hslots : Convertible slots) :
  Char.ofNat 0 ∉ (segments.map (Segment.stage (lookupSlot slots))).flatMap Segment.source
  := by
  intro hmem
  obtain ⟨s', hs', hsource⟩ := List.mem_flatMap.mp hmem
  obtain ⟨s, hs, rfl⟩ := List.mem_map.mp hs'
  apply hnul
  rw [List.mem_flatMap]
  use s, hs
  cases s with
  | text t => exact hsource
  | slot name =>
      cases hlook : lookupSlot slots name with
      | none => simpa [Segment.stage, hlook] using hsource
      | some value =>
          obtain ⟨pair, hpair, rfl⟩ := mem_of_lookupSlot hlook
          exfalso
          apply (hslots pair hpair).2
          simpa [Segment.stage, hlook, Segment.source] using hsource

theorem convertible_append {slots slots' : List (Text × Scm)} :
  Convertible (slots ++ slots') ↔ Convertible slots ∧ Convertible slots'
  := List.forall_mem_append

end Gusher
