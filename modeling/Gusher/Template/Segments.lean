import Gusher.Library.Search
import Gusher.Scheme.Object

/-!
# Templates

A template is literal text with slots in it.  A slot is `[[` immediately followed by an uppercase
letter, and extends to the next `]]`; everything else is literal.  Filling replaces each slot that
has a value, and keeps or removes the others.
-/

namespace Gusher

open Search

/-- A piece of a template. -/
inductive Segment where
  | text (t : Text)
  | slot (name : Text)
  deriving DecidableEq

namespace Segment

/-- How a piece is written in a template. -/
def source : Segment → Text
  | text t => t
  | slot name => '[' :: '[' :: (name ++ [']', ']'])

/-- A piece with the values of the slots filled in.  A slot without a value is kept when the
filling is partial, and removed otherwise. -/
def fill (isPartial : Bool) (look : Text → Option Text) : Segment → Text
  | text t => t
  | slot name => (look name).getD (if isPartial then (slot name).source else [])

end Segment

/-- A slot starts here, if it is terminated. -/
def opens : Text → Bool
  | '[' :: '[' :: c :: _ => c.isUpper
  | _ => false

/-- The text before the next slot, the name of the slot, and the text after it. -/
def nextSlot (t : Text) : Option (Text × Text × Text) :=
  (first opens t).bind (fun x =>
    (strstr (x.2.drop 2) [']', ']']).map (fun y => (x.1, y.1, y.2.drop 2)))

/-- What `opens` tests. -/
theorem opens_iff {t : Text} :
  opens t = true ↔ ∃ c s, t = '[' :: '[' :: c :: s ∧ c.isUpper
  := by
  constructor
  · intro h
    unfold opens at h
    split at h
    case h_1 c s => exact ⟨c, s, rfl, h⟩
    case h_2 => cases h
  · rintro ⟨c, s, rfl, hc⟩
    exact hc

/-- The place of the next slot. -/
theorem nextSlot_eq_some_iff {t lit name after : Text} :
  nextSlot t = some (lit, name, after)
    ↔ first opens t = some (lit, (Segment.slot name).source ++ after) ∧
      strstr (name ++ ']' :: ']' :: after) [']', ']'] = some (name, ']' :: ']' :: after)
  := by
  unfold nextSlot
  simp only [Option.bind_eq_some_iff, Option.map_eq_some_iff, Prod.exists, Prod.mk.injEq]
  constructor
  · rintro ⟨a, mark, hmark, n, close, hclose, rfl, rfl, rfl⟩
    obtain ⟨-, hopens, -⟩ := first_eq_some_iff.mp hmark
    obtain ⟨c, s, rfl, -⟩ := opens_iff.mp hopens
    obtain ⟨hsplit, ⟨rest, rfl⟩, -⟩ := strstr_eq_some_iff.mp hclose
    simp only [List.drop_succ_cons, List.drop_zero] at hsplit hclose ⊢
    rw [hsplit] at hclose
    rw [hmark]
    simp only [Segment.source, hsplit]
    constructor
    · simp
    · exact hclose
  · rintro ⟨hmark, hclose⟩
    refine ⟨_, _, hmark, name, ']' :: ']' :: after, ?_, rfl, rfl, rfl⟩
    simpa [Segment.source] using hclose

/-- The template is the text before the slot, the slot, and the text after it. -/
theorem eq_of_nextSlot {t lit name after : Text} (h : nextSlot t = some (lit, name, after)) :
  t = lit ++ ((Segment.slot name).source ++ after)
  := (first_eq_some_iff.mp (nextSlot_eq_some_iff.mp h).1).1

/-- The pieces of a template, found by scanning from left to right. -/
def parse (t : Text) : List Segment :=
  match _h : nextSlot t with
  | none => [.text t]
  | some (lit, name, after) => .text lit :: .slot name :: parse after
  termination_by t.length
  decreasing_by
    rw [eq_of_nextSlot _h]
    simp [Segment.source]
    omega

theorem parse_of_none {t : Text} (h : nextSlot t = none) :
  parse t = [.text t]
  := by
  rw [parse]
  split
  case h_1 => rfl
  case h_2 h' =>
      rw [h] at h'
      cases h'

theorem parse_of_some {t lit name after : Text} (h : nextSlot t = some (lit, name, after)) :
  parse t = .text lit :: .slot name :: parse after
  := by
  rw [parse]
  split
  case h_1 h' =>
      rw [h] at h'
      cases h'
  case h_2 h' =>
      rw [h] at h'
      obtain ⟨rfl, rfl, rfl⟩ := Option.some.inj h'
      rfl

/-- The pieces of a template, written one after the other, are the template. -/
theorem flatMap_source_parse (t : Text) :
  (parse t).flatMap Segment.source = t
  := by
  fun_induction parse t with
  | case1 t _ => simp [Segment.source]
  | case2 t lit name after h ih =>
      rw [List.flatMap_cons, List.flatMap_cons, ih, eq_of_nextSlot h]
      rfl

def fillSlots (isPartial : Bool) (look : Text → Option Text) (t : Text) : Text :=
  (parse t).flatMap (Segment.fill isPartial look)

theorem fillSlots_of_none {isPartial : Bool} {look : Text → Option Text} {t : Text}
    (h : nextSlot t = none) :
  fillSlots isPartial look t = t
  := by
  simp [fillSlots, parse_of_none h, Segment.fill]

theorem fillSlots_of_some {isPartial : Bool} {look : Text → Option Text}
    {t lit name after : Text} (h : nextSlot t = some (lit, name, after)) :
  fillSlots isPartial look t
    = lit ++ (Segment.fill isPartial look (.slot name) ++ fillSlots isPartial look after)
  := by
  simp [fillSlots, parse_of_some h, Segment.fill]

/-- A partial filling without values leaves the template as it is. -/
theorem fillSlots_none (t : Text) :
  fillSlots true (fun _ => none) t = t
  := by
  have hfill : Segment.fill true (fun _ => none) = Segment.source := by
    funext s
    cases s with
    | text t => rfl
    | slot name => rfl
  rw [fillSlots, hfill, flatMap_source_parse]

/-! ### Templates without brackets in the text -/

/-- Text without an opening bracket, or a slot whose name has no brackets. -/
def Segment.Tame : Segment → Prop
  | .text t => '[' ∉ t
  | .slot name => (∃ c n, name = c :: n ∧ c.isUpper) ∧ '[' ∉ name ∧ ']' ∉ name

/-- No slot starts in text without an opening bracket. -/
theorem nextSlot_append {a : Text} (ha : '[' ∉ a) (t : Text) :
  nextSlot (a ++ t) = (nextSlot t).map (fun x => (a ++ x.1, x.2))
  := by
  have hfirst : first opens (a ++ t) = (first opens t).map (fun x => (a ++ x.1, x.2)) := by
    apply first_append
    intro x y hxy hy
    rw [Bool.eq_false_iff]
    intro hopens
    obtain ⟨c, s, hstart, -⟩ := opens_iff.mp hopens
    cases y with
    | nil => exact hy rfl
    | cons d y =>
        obtain ⟨rfl, -⟩ := List.cons.inj hstart
        apply ha
        rw [hxy]
        simp
  rw [nextSlot, nextSlot, hfirst]
  cases first opens t with
  | none => rfl
  | some x => simp [Function.comp_def]

/-- A slot whose name has no closing bracket extends to the brackets that close it. -/
theorem nextSlot_slot {name : Text} (h : (Segment.slot name).Tame) (t : Text) :
  nextSlot ((Segment.slot name).source ++ t) = some ([], name, t)
  := by
  obtain ⟨⟨c, n, rfl, hc⟩, -, hclose⟩ := h
  rw [nextSlot_eq_some_iff]
  constructor
  · apply first_of_pos
    exact hc
  · have happend := first_append (p := fun y => [']', ']'].isPrefixOf y) (a := c :: n)
      (s := ']' :: ']' :: t)
    rw [strstr, happend, first_of_pos (by simp)]
    · simp
    · intro x y hxy hy
      cases y with
      | nil => exact absurd rfl hy
      | cons d y =>
          rw [Bool.eq_false_iff]
          intro hstart
          have hd : ']' = d := by
            simp at hstart
            exact hstart.1
          apply hclose
          rw [hxy, hd]
          simp

variable {isPartial : Bool} {look : Text → Option Text}

theorem fillSlots_text_append {a : Text} (ha : '[' ∉ a) (t : Text) :
  fillSlots isPartial look (a ++ t) = a ++ fillSlots isPartial look t
  := by
  cases h : nextSlot t with
  | none =>
      have h' : nextSlot (a ++ t) = none := by simp [nextSlot_append ha, h]
      rw [fillSlots_of_none h, fillSlots_of_none h']
  | some x =>
      obtain ⟨lit, name, after⟩ := x
      have h' : nextSlot (a ++ t) = some (a ++ lit, name, after) := by
        simp [nextSlot_append ha, h]
      rw [fillSlots_of_some h, fillSlots_of_some h', List.append_assoc]

theorem fillSlots_slot_append {name : Text} (h : (Segment.slot name).Tame) (t : Text) :
  fillSlots isPartial look ((Segment.slot name).source ++ t)
    = Segment.fill isPartial look (.slot name) ++ fillSlots isPartial look t
  := by
  rw [fillSlots_of_some (nextSlot_slot h t), List.nil_append]

/-- Such pieces are found again in the template that they make. -/
theorem fillSlots_flatMap_source {segments : List Segment} (h : ∀ s ∈ segments, s.Tame) :
  fillSlots isPartial look (segments.flatMap Segment.source)
    = segments.flatMap (Segment.fill isPartial look)
  := by
  induction segments with
  | nil => apply fillSlots_of_none rfl
  | cons s segments ih =>
      have hs := h s List.mem_cons_self
      have hrest := ih (fun s' hs' => h s' (List.mem_cons_of_mem s hs'))
      rw [List.flatMap_cons, List.flatMap_cons, ← hrest]
      cases s with
      | text t => exact fillSlots_text_append hs _
      | slot name => exact fillSlots_slot_append hs _

/-! ### Two stages -/

/-- What a partial filling leaves of a piece. -/
def Segment.stage (look : Text → Option Text) : Segment → Segment
  | .text t => .text t
  | .slot name => ((look name).map Segment.text).getD (.slot name)

theorem Segment.source_stage (look : Text → Option Text) (s : Segment) :
  (s.stage look).source = s.fill true look
  := by
  cases s with
  | text t => rfl
  | slot name =>
      cases h : look name with
      | none => simp [Segment.stage, Segment.fill, h]
      | some value => simp [Segment.stage, Segment.fill, Segment.source, h]

theorem Segment.tame_stage {look : Text → Option Text} {s : Segment} (h : s.Tame)
    (hlook : ∀ name value, look name = some value → '[' ∉ value) :
  (s.stage look).Tame
  := by
  cases s with
  | text t => exact h
  | slot name =>
      cases hname : look name with
      | none => simpa [Segment.stage, hname] using h
      | some value => simpa [Segment.stage, hname, Segment.Tame] using hlook name value hname

/-- Filling what a partial filling has left takes the remaining values from the second
table. -/
theorem Segment.fill_stage (look look' : Text → Option Text) (s : Segment) :
  (s.stage look).fill isPartial look' = s.fill isPartial (fun name => (look name).or (look' name))
  := by
  cases s with
  | text t => rfl
  | slot name =>
      cases h : look name with
      | none => simp [Segment.stage, Segment.fill, h]
      | some value => simp [Segment.stage, Segment.fill, h]

theorem fillSlots_eq_stage {segments : List Segment} (h : ∀ s ∈ segments, s.Tame) :
  fillSlots true look (segments.flatMap Segment.source)
    = (segments.map (Segment.stage look)).flatMap Segment.source
  := by
  rw [fillSlots_flatMap_source h, List.flatMap_map]
  simp only [Segment.source_stage]

theorem tame_map_stage {segments : List Segment} (h : ∀ s ∈ segments, s.Tame)
    (hlook : ∀ name value, look name = some value → '[' ∉ value) :
  ∀ s ∈ segments.map (Segment.stage look), s.Tame
  := by
  intro s hs
  obtain ⟨s', hs', rfl⟩ := List.mem_map.mp hs
  exact Segment.tame_stage (h s' hs') hlook

/-- Filling in two stages fills with the values of both tables, the first one first. -/
theorem fillSlots_stage {look' : Text → Option Text} {segments : List Segment}
    (h : ∀ s ∈ segments, s.Tame)
    (hlook : ∀ name value, look name = some value → '[' ∉ value) :
  fillSlots isPartial look' ((segments.map (Segment.stage look)).flatMap Segment.source)
    = fillSlots isPartial (fun name => (look name).or (look' name))
        (segments.flatMap Segment.source)
  := by
  rw [fillSlots_flatMap_source (tame_map_stage h hlook), fillSlots_flatMap_source h,
    List.flatMap_map]
  simp only [Segment.fill_stage]

end Gusher
