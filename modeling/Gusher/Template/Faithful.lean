import Gusher.Template.Fill

/-!
# When filling is faithful

The loop of `fill_template` skips from `[[` to the next uppercase letter.  It arrives at a slot
when no uppercase letter stands between; where it arrives elsewhere, the two characters before the
letter are taken for the mark of a slot.
-/

namespace Gusher

open CString Search

/-- After `[[` in the text there is no uppercase letter. -/
def Plain (t : Text) : Prop :=
  ∀ a b, t = a ++ '[' :: '[' :: b → ∀ c ∈ b, c.isUpper = false

/-- After the last slot: if there is a `[[`, then no `]]` comes from two bytes before the next
uppercase letter on, or from two bytes before the end, and a character starts there. -/
def PlainEnd (t : Text) : Prop :=
  ∀ x, strstr (encodeUtf8 t) slotMark = some x →
    ¬ slotEnd <:+: (skip x.2).2 ∧ ∀ b ∈ (skip x.2).2.head?, isContinuation b = false

/-- In the text before each slot no uppercase letter comes after a `[[`, and the text after the
last slot is `PlainEnd`. -/
def Regular : List Segment → Prop
  | [] => True
  | [.text t] => PlainEnd t
  | .text t :: s :: segments => Plain t ∧ Regular (s :: segments)
  | .slot _ :: segments => Regular segments

/-- The keys and the payloads have no NUL. -/
def Convertible (slots : List (Text × Scm)) : Prop :=
  ∀ pair ∈ slots, Char.ofNat 0 ∉ pair.1 ∧ Char.ofNat 0 ∉ payloadText pair.2

theorem slotMark_eq :
  slotMark = encodeUtf8 ['[', '[']
  := by decide

theorem slotEnd_eq :
  slotEnd = encodeUtf8 [']', ']']
  := by decide

theorem ascii_slotMark :
  ∀ c ∈ ['[', '['], c.toNat < 128
  := by simp

theorem ascii_slotEnd :
  ∀ c ∈ [']', ']'], c.toNat < 128
  := by simp

/-! ### The scan -/

/-- Where the skip stops: before an uppercase letter two bytes later, or two bytes before the
end. -/
def stops : List UInt8 → Bool
  | _ :: _ :: c :: _ => isupper c
  | _ => true

/-- The skip stops at the first place where it may. -/
theorem first_stops (s : List UInt8) :
  first stops s = some (skip s)
  := by
  fun_induction skip s with
  | case1 a b c s hc => exact first_of_pos hc
  | case2 a b c s hc ih =>
      have hneg : stops (a :: b :: c :: s) = false := by simpa [stops] using hc
      rw [first_cons_of_neg hneg, ih]
      rfl
  | case3 s hs =>
      apply first_of_pos
      unfold stops
      split
      case h_1 a b c r => exact absurd rfl (hs a b c r)
      case h_2 => rfl

/-- A place after the first `[[`, two bytes before an uppercase letter, is not passed. -/
theorem length_le_of_isupper {s lit mark x y : List UInt8} {a b c : UInt8}
    (hmark : strstr s slotMark = some (lit, mark)) (hs : s = x ++ a :: b :: c :: y)
    (hc : isupper c = true) (hx : lit.length ≤ x.length) :
  (lit ++ (skip mark).1).length ≤ x.length
  := by
  obtain ⟨hlit, -, -⟩ := strstr_eq_some_iff.mp hmark
  have hprefix : lit <+: x := by
    have hmarked : lit <+: s := by
      rw [hlit]
      apply List.prefix_append
    have hplace : x <+: s := by
      rw [hs]
      apply List.prefix_append
    exact List.prefix_of_prefix_length_le hmarked hplace hx
  obtain ⟨z, rfl⟩ := hprefix
  have hz : mark = z ++ a :: b :: c :: y := by
    apply (List.append_right_inj lit).mp
    rw [← hlit, hs, List.append_assoc]
  obtain ⟨-, -, hfirst⟩ := first_eq_some_iff.mp (first_stops mark)
  have hle := hfirst z _ hz hc
  rw [List.length_append, List.length_append]
  omega

/-- The skip arrives at the place where a slot starts, when it does not pass it and there is no
uppercase letter before. -/
theorem skip_of_plain {lit : List UInt8} (rest : List UInt8) {c : UInt8}
    (hc : isupper c = true) (hlit : lit = [] ∨ lit = [91] ∨
      ∃ w, lit = 91 :: 91 :: w ∧ ∀ b ∈ w, isupper b = false) :
  skip (lit ++ 91 :: 91 :: c :: rest) = (lit, 91 :: 91 :: c :: rest)
  := by
  apply Option.some.inj
  rw [← first_stops, first_eq_some_iff]
  refine ⟨rfl, hc, ?_⟩
  intro x y hxy hstops
  by_contra hlt
  have hprefix : x <+: lit := by
    apply List.prefix_of_prefix_length_le (List.prefix_append x y) _ (by omega)
    rw [← hxy]
    apply List.prefix_append
  obtain ⟨z, rfl⟩ := hprefix
  have hy : y = z ++ 91 :: 91 :: c :: rest := by
    apply (List.append_right_inj x).mp
    rw [← hxy, List.append_assoc]
  -- the letter two bytes later is one of the brackets, or stands between
  subst hy
  obtain _ | ⟨d, _ | ⟨e, _ | ⟨f, z⟩⟩⟩ := z
  · simp at hlt
  · simp [stops, isupper] at hstops
  · simp [stops, isupper] at hstops
  · obtain hnil | hone | ⟨w, hw, hplain⟩ := hlit
    · simp at hnil
    · have hlen := congrArg List.length hone
      simp at hlen
      omega
    · have hmem : f ∈ w := by
        have hdrop : (x ++ d :: e :: f :: z).drop 2 = w := by rw [hw]; rfl
        rw [← hdrop, List.drop_append]
        apply List.mem_append_right
        obtain h | h | h : 2 - x.length = 0 ∨ 2 - x.length = 1 ∨ 2 - x.length = 2 := by omega
        all_goals simp [h]
      have hf : isupper f = true := hstops
      rw [hplain f hmem] at hf
      cases hf

/-! ### Slots in the bytes -/

/-- Two opening brackets, an uppercase letter and two closing brackets after it are a slot, when
no slot starts before. -/
theorem nextSlot_of_append {lit name after : Text} {c : Char} (hc : c.isUpper = true)
    (hfirst : ∀ x d y, lit ++ '[' :: '[' :: c :: name ++ ']' :: ']' :: after
      = x ++ '[' :: '[' :: d :: y → d.isUpper = true → lit.length ≤ x.length)
    (hend : strstr (c :: name ++ ']' :: ']' :: after) [']', ']']
      = some (c :: name, ']' :: ']' :: after)) :
  nextSlot (lit ++ '[' :: '[' :: c :: name ++ ']' :: ']' :: after) = some (lit, c :: name, after)
  := by
  rw [nextSlot_eq_some_iff]
  refine ⟨?_, hend⟩
  rw [first_eq_some_iff]
  refine ⟨by simp [Segment.source], ?_, ?_⟩
  · rw [opens_iff]
    exact ⟨c, _, rfl, hc⟩
  · intro x y hxy hopens
    obtain ⟨d, s, rfl, hd⟩ := opens_iff.mp hopens
    exact hfirst x d s hxy hd

/-- No end mark starts in a mark. -/
theorem strstr_slotMark_append (s : List UInt8) :
  strstr (slotMark ++ s) slotEnd = (strstr s slotEnd).map (fun x => (slotMark ++ x.1, x.2))
  := by
  apply first_append
  intro x y hxy hy
  match x, y with
  | [], y =>
      rw [List.nil_append] at hxy
      rw [← hxy]
      rfl
  | [_], y =>
      obtain ⟨-, rfl⟩ := List.cons.inj hxy
      rfl
  | _ :: _ :: x, y =>
      obtain ⟨-, htail⟩ := List.cons.inj hxy
      obtain ⟨-, hnil⟩ := List.cons.inj htail
      exact absurd (List.append_eq_nil_iff.mp hnil.symm).2 hy

theorem strstr_slotEnd (t : Text) :
  strstr (encodeUtf8 t) slotEnd
    = (strstr t [']', ']']).map (fun x => (encodeUtf8 x.1, encodeUtf8 x.2))
  := by
  rw [slotEnd_eq]
  exact strstr_encodeUtf8 ascii_slotEnd (List.cons_ne_nil _ _)

/-- A place where a slot starts is not passed by the skip. -/
theorem length_le_of_slot {t x y : Text} {lit mark : List UInt8} {d : Char}
    (hmark : strstr (encodeUtf8 t) slotMark = some (lit, mark))
    (ht : t = x ++ '[' :: '[' :: d :: y) (hd : d.isUpper = true) :
  (lit ++ (skip mark).1).length ≤ (encodeUtf8 x).length
  := by
  have hascii : d.toNat < 128 := by
    have hcode := isUpper_iff.mp hd
    omega
  have hbytes : encodeUtf8 t = encodeUtf8 x ++ 91 :: 91 :: d.toNat.toUInt8 :: encodeUtf8 y := by
    rw [ht, encodeUtf8_append, encodeUtf8_cons, encodeUtf8_cons, encodeUtf8_cons,
      utf8EncodeChar_of_ascii hascii]
    rfl
  apply length_le_of_isupper hmark hbytes (isupper_iff.mpr ⟨d, hd, rfl⟩)
  obtain ⟨-, -, hfirst⟩ := strstr_eq_some_iff.mp hmark
  exact hfirst _ _ hbytes ⟨d.toNat.toUInt8 :: encodeUtf8 y, rfl⟩

/-- When the skip arrives at `[[`, and `]]` comes later, a slot of the template is there. -/
theorem nextSlot_of_scan {t : Text} {lit mark before close : List UInt8}
    (hmark : strstr (encodeUtf8 t) slotMark = some (lit, mark))
    (hsense : slotMark <+: (skip mark).2)
    (hend : strstr (skip mark).2 slotEnd = some (before, close)) :
  ∃ text name after, nextSlot t = some (text, name, after) ∧
    encodeUtf8 text = lit ++ (skip mark).1 ∧ before = slotMark ++ encodeUtf8 name ∧
    close = slotEnd ++ encodeUtf8 after
  := by
  obtain ⟨hlit, -, -⟩ := strstr_eq_some_iff.mp hmark
  obtain ⟨-, hstops, -⟩ := first_eq_some_iff.mp (first_stops mark)
  have hbytes : encodeUtf8 t = (lit ++ (skip mark).1) ++ (skip mark).2 := by
    rw [hlit, List.append_assoc, append_skip]
  obtain ⟨text, u, ht, htext, hu⟩ :=
    exists_of_ascii_prefix ascii_slotMark (List.cons_ne_nil _ _) hbytes hsense
  have hsplit : (skip mark).2 = slotMark ++ encodeUtf8 u := by
    rw [← hu, encodeUtf8_append]
    rfl
  rw [hsplit, strstr_slotMark_append, strstr_slotEnd, Option.map_map] at hend
  obtain ⟨⟨name, closing⟩, hclosing, hpair⟩ := Option.map_eq_some_iff.mp hend
  obtain ⟨rfl, rfl⟩ := Prod.mk.inj hpair
  obtain ⟨hname, ⟨after, rfl⟩, -⟩ := strstr_eq_some_iff.mp hclosing
  -- the skip stopped before an uppercase letter, which is the first one of the name
  obtain ⟨c, n, rfl, hc⟩ : ∃ c n, name = c :: n ∧ c.isUpper = true := by
    cases u with
    | nil =>
        have hlen := congrArg List.length hname
        simp at hlen
    | cons d u =>
        obtain ⟨b, s, hcode, -⟩ := utf8EncodeChar_eq_cons d
        rw [hsplit, encodeUtf8_cons, hcode] at hstops
        obtain ⟨c, hc, rfl⟩ := isupper_iff.mp (show isupper b = true from hstops)
        have hascii : c.toNat < 128 := by
          have hrange := isUpper_iff.mp hc
          omega
        obtain ⟨v, hv, -⟩ := exists_of_encodeUtf8_eq_cons hascii
          (show encodeUtf8 (d :: u) = c.toNat.toUInt8 :: (s ++ encodeUtf8 u) by
            rw [encodeUtf8_cons, hcode]; rfl)
        obtain ⟨rfl, -⟩ := List.cons.inj hv
        cases name with
        | nil =>
            obtain ⟨rfl, -⟩ := List.cons.inj hname
            cases hc
        | cons e n =>
            obtain ⟨rfl, -⟩ := List.cons.inj hname
            exact ⟨d, n, rfl, hc⟩
  refine ⟨text, c :: n, after, ?_, htext, rfl, encodeUtf8_append [']', ']'] after⟩
  have hwhole : t = text ++ '[' :: '[' :: c :: n ++ ']' :: ']' :: after := by
    rw [ht, hname]
    simp
  rw [hwhole]
  apply nextSlot_of_append hc
  · intro x d y hxy hd
    rw [← hwhole] at hxy
    have hle := length_le_of_slot hmark hxy hd
    rw [← htext] at hle
    apply length_le_of_encodeUtf8 (v := t) _ _ hle
    · exact ⟨_, ht.symm⟩
    · exact ⟨_, hxy.symm⟩
  · rw [hname] at hclosing
    exact hclosing

/-! ### The slot table -/

theorem toUtf8_eq {t : Text} (h : Char.ofNat 0 ∉ t) :
  toUtf8 t = some (encodeUtf8 t)
  := if_neg h

/-- The entry of the table for a slot. -/
def templateSlot (pair : Text × Scm) : TemplateSlot where
  token := encodeUtf8 (pair.1.map Char.toUpper)
  payload := encodeUtf8 (payloadText pair.2)

/-- The table of slots whose keys and payloads are converted. -/
theorem slotTable_eq {slots : List (Text × Scm)} (h : Convertible slots) :
  slotTable slots = some (slots.map templateSlot)
  := by
  induction slots with
  | nil => rfl
  | cons pair slots ih =>
      obtain ⟨hpair, hslots⟩ := List.forall_mem_cons.mp h
      have hrest := ih hslots
      unfold slotTable at hrest ⊢
      rw [List.mapM_cons, hrest, toUtf8_eq hpair.1, toUtf8_eq hpair.2]
      simp [templateSlot, upcase, map_toupper_encodeUtf8]

/-- A key or a payload with a NUL makes the conversion raise. -/
theorem slotTable_eq_none {slots : List (Text × Scm)} (h : ¬ Convertible slots) :
  slotTable slots = none
  := by
  induction slots with
  | nil => exact absurd (fun _ hmem => absurd hmem List.not_mem_nil) h
  | cons pair slots ih =>
      unfold slotTable at ih ⊢
      rw [List.mapM_cons]
      by_cases hpair : Char.ofNat 0 ∉ pair.1 ∧ Char.ofNat 0 ∉ payloadText pair.2
      · have hslots : ¬ Convertible slots := by
          intro hslots
          apply h
          exact List.forall_mem_cons.mpr ⟨hpair, hslots⟩
        rw [ih hslots]
        simp [toUtf8_eq hpair.1, toUtf8_eq hpair.2]
      · rw [not_and_or, not_not, not_not] at hpair
        obtain hkey | hpayload := hpair
        · simp [toUtf8, hkey]
        · by_cases hkey : Char.ofNat 0 ∈ pair.1
          · simp [toUtf8, hkey]
          · simp [toUtf8, hkey, hpayload]

/-- The first entry of the table for a name is that of the first slot with this name. -/
theorem find_templateSlot (slots : List (Text × Scm)) (name : Text) :
  ((slots.map templateSlot).find? (fun slot => slot.token = encodeUtf8 name)).map
      TemplateSlot.payload
    = (lookupSlot slots name).map encodeUtf8
  := by
  induction slots with
  | nil => rfl
  | cons pair slots ih =>
      unfold lookupSlot at ih ⊢
      rw [List.map_cons, List.find?_cons, List.find?_cons]
      by_cases hname : pair.1.map Char.toUpper = name
      · simp [hname, templateSlot]
      · have htoken : (templateSlot pair).token ≠ encodeUtf8 name := by
          intro heq
          exact hname (encodeUtf8_inj.mp heq)
        simp only [hname, htoken, decide_false]
        exact ih

/-- The pieces of a slot are those of its value, or of the slot itself. -/
theorem slotParts_eq (slots : List (Text × Scm)) (isPartial : Bool) (name : Text) :
  ∃ parts : List Text, slotParts (slots.map templateSlot) isPartial (encodeUtf8 name)
      = parts.map encodeUtf8 ∧
    parts.flatten = Segment.fill isPartial (lookupSlot slots) (.slot name)
  := by
  have hfind := find_templateSlot slots name
  rw [slotParts, Segment.fill]
  cases hlook : lookupSlot slots name with
  | none =>
      rw [hlook, Option.map_none, Option.map_eq_none_iff] at hfind
      rw [hfind]
      cases isPartial with
      | false => exact ⟨[], rfl, rfl⟩
      | true =>
          refine ⟨[['[', '['], name, [']', ']']], ?_, ?_⟩
          · simp [slotMark_eq, slotEnd_eq]
          · simp [Segment.source]
  | some value =>
      rw [hlook, Option.map_some] at hfind
      obtain ⟨slot, hslot, hpayload⟩ := Option.map_eq_some_iff.mp hfind
      rw [hslot]
      exact ⟨[value], by simp [hpayload], by simp⟩

/-! ### The loop -/

section

variable {table : List TemplateSlot} {isPartial : Bool} {pin : List UInt8}

theorem fillLoop_of_none (h : strstr pin slotMark = none) :
  fillLoop table isPartial pin = [pin]
  := by
  rw [fillLoop]
  split
  case h_1 => rfl
  case h_2 h' =>
      rw [h] at h'
      cases h'

variable {lit mark before close : List UInt8}

theorem fillLoop_of_mark (h : strstr pin slotMark = some (lit, mark))
    (hend : strstr (skip mark).2 slotEnd = none) :
  fillLoop table isPartial pin = [lit ++ (skip mark).1, (skip mark).2]
  := by
  rw [fillLoop]
  split
  case h_1 h' =>
      rw [h] at h'
      cases h'
  case h_2 h' =>
      rw [h] at h'
      obtain ⟨rfl, rfl⟩ := Prod.mk.inj (Option.some.inj h')
      dsimp only
      split
      case h_1 => rfl
      case h_2 hend' =>
          rw [hend] at hend'
          cases hend'

theorem fillLoop_of_slot (h : strstr pin slotMark = some (lit, mark))
    (hend : strstr (skip mark).2 slotEnd = some (before, close)) :
  fillLoop table isPartial pin
    = (lit ++ (skip mark).1) ::
        slotParts table isPartial (cstr (((skip mark).2.set before.length 0).drop 2)) ++
        fillLoop table isPartial (close.drop 2)
  := by
  rw [fillLoop]
  split
  case h_1 h' =>
      rw [h] at h'
      cases h'
  case h_2 h' =>
      rw [h] at h'
      obtain ⟨rfl, rfl⟩ := Prod.mk.inj (Option.some.inj h')
      dsimp only
      split
      case h_1 hend' =>
          rw [hend] at hend'
          cases hend'
      case h_2 hend' =>
          rw [hend] at hend'
          obtain ⟨rfl, rfl⟩ := Prod.mk.inj (Option.some.inj hend')
          rfl

/-- The name of a slot is the string between its marks. -/
theorem cstr_name {name after : List UInt8} (hname : (0 : UInt8) ∉ name) :
  cstr (((slotMark ++ name ++ (slotEnd ++ after)).set (slotMark ++ name).length 0).drop 2) = name
  := by
  have hset : (slotMark ++ name ++ (slotEnd ++ after)).set (slotMark ++ name).length 0
      = slotMark ++ (name ++ 0 :: 93 :: after) := by
    rw [List.set_append_right _ _ (Nat.le_refl _), Nat.sub_self, List.append_assoc]
    rfl
  have hdrop : (slotMark ++ (name ++ 0 :: 93 :: after)).drop 2 = name ++ 0 :: 93 :: after := rfl
  rw [hset, hdrop, cstr_append hname]
  simp [cstr]

end

/-- A template with a slot has a `[[`. -/
theorem exists_strstr {t text name after : Text} (h : nextSlot t = some (text, name, after)) :
  ∃ lit mark, strstr (encodeUtf8 t) slotMark = some (lit, mark)
  := by
  cases hmark : strstr (encodeUtf8 t) slotMark with
  | none =>
      exfalso
      apply strstr_eq_none_iff.mp hmark
      rw [eq_of_nextSlot h]
      refine ⟨encodeUtf8 text, encodeUtf8 (name ++ [']', ']'] ++ after), ?_⟩
      rw [slotMark_eq, ← encodeUtf8_append, ← encodeUtf8_append]
      simp [Segment.source]
  | some x => exact ⟨x.1, x.2, rfl⟩

/-- The next slot starts with an uppercase letter. -/
theorem isUpper_of_nextSlot {t text name after : Text}
    (h : nextSlot t = some (text, name, after)) :
  ∃ c n, name = c :: n ∧ c.isUpper = true
  := by
  obtain ⟨hfirst, hend⟩ := nextSlot_eq_some_iff.mp h
  obtain ⟨-, hopens, -⟩ := first_eq_some_iff.mp hfirst
  obtain ⟨c, s, hsource, hc⟩ := opens_iff.mp hopens
  cases name with
  | nil =>
      simp [Segment.source] at hsource
      obtain ⟨rfl, -⟩ := hsource
      cases hc
  | cons d n =>
      simp [Segment.source] at hsource
      obtain ⟨rfl, -⟩ := hsource
      exact ⟨d, n, rfl, hc⟩

theorem encodeUtf8_of_nextSlot {t text name after : Text}
    (h : nextSlot t = some (text, name, after)) :
  encodeUtf8 t
    = encodeUtf8 text ++ (slotMark ++ encodeUtf8 name ++ (slotEnd ++ encodeUtf8 after))
  := by
  rw [eq_of_nextSlot h, slotMark_eq, slotEnd_eq, ← encodeUtf8_append, ← encodeUtf8_append,
    ← encodeUtf8_append, ← encodeUtf8_append]
  simp [Segment.source]

/-- Before a slot the skip does not arrive after the start of the slot. -/
theorem scan_le_of_nextSlot {t text name after : Text} {lit mark : List UInt8}
    (h : nextSlot t = some (text, name, after))
    (hmark : strstr (encodeUtf8 t) slotMark = some (lit, mark)) :
  (lit ++ (skip mark).1).length ≤ (encodeUtf8 text).length
  := by
  obtain ⟨c, n, rfl, hc⟩ := isUpper_of_nextSlot h
  apply length_le_of_slot hmark _ hc (y := n ++ [']', ']'] ++ after)
  rw [eq_of_nextSlot h]
  simp [Segment.source]

/-- With plain text before the slot the skip arrives at the slot. -/
theorem scan_of_plain {t text name after : Text} {lit mark : List UInt8}
    (h : nextSlot t = some (text, name, after)) (hplain : Plain text)
    (hmark : strstr (encodeUtf8 t) slotMark = some (lit, mark)) :
  lit ++ (skip mark).1 = encodeUtf8 text ∧
    (skip mark).2 = slotMark ++ encodeUtf8 name ++ (slotEnd ++ encodeUtf8 after)
  := by
  obtain ⟨c, n, rfl, hc⟩ := isUpper_of_nextSlot h
  have hascii : c.toNat < 128 := by
    have hrange := isUpper_iff.mp hc
    omega
  obtain ⟨hlit, ⟨m, hm⟩, -⟩ := strstr_eq_some_iff.mp hmark
  have hbytes : encodeUtf8 t = encodeUtf8 text ++ 91 :: 91 :: c.toNat.toUInt8 ::
      (encodeUtf8 n ++ (slotEnd ++ encodeUtf8 after)) := by
    rw [eq_of_nextSlot h, Segment.source, slotEnd_eq, ← encodeUtf8_append, ← encodeUtf8_append,
      encodeUtf8_append]
    simp [utf8EncodeChar_of_ascii hascii]
    rfl
  have hprefix : lit <+: encodeUtf8 text := by
    have hle := scan_le_of_nextSlot h hmark
    rw [List.length_append] at hle
    have hmarked : lit <+: encodeUtf8 t := by
      rw [hlit]
      apply List.prefix_append
    have hplace : encodeUtf8 text <+: encodeUtf8 t := by
      rw [hbytes]
      apply List.prefix_append
    exact List.prefix_of_prefix_length_le hmarked hplace (by omega)
  obtain ⟨z, hz⟩ := hprefix
  have hmarkz : mark = z ++ 91 :: 91 :: c.toNat.toUInt8 ::
      (encodeUtf8 n ++ (slotEnd ++ encodeUtf8 after)) := by
    apply (List.append_right_inj lit).mp
    rw [← hlit, hbytes, ← hz, List.append_assoc]
  have hplainz : z = [] ∨ z = [91] ∨ ∃ w, z = 91 :: 91 :: w ∧ ∀ b ∈ w, isupper b = false := by
    obtain _ | ⟨d, _ | ⟨e, w⟩⟩ := z
    · exact Or.inl rfl
    · right
      left
      rw [hmarkz] at hm
      obtain ⟨hd, -⟩ := List.cons.inj hm
      rw [← hd]
    · right
      right
      rw [hmarkz] at hm
      obtain ⟨hd, htail⟩ := List.cons.inj hm
      obtain ⟨he, -⟩ := List.cons.inj htail
      use w
      rw [← hd, ← he]
      refine ⟨rfl, ?_⟩
      intro b hb
      by_contra hupper
      have hupper' : isupper b = true := by simpa using hupper
      -- the letter stands in the text after `[[`
      rw [← hd, ← he] at hz
      obtain ⟨t₁, t₂, ht, -, hw⟩ := exists_of_ascii_prefix ascii_slotMark
        (List.cons_ne_nil _ _) hz.symm ⟨w, rfl⟩
      rw [encodeUtf8_append] at hw
      have hw' : encodeUtf8 t₂ = w := (List.append_right_inj slotMark).mp hw
      rw [← hw'] at hb
      obtain ⟨d, hd, hdupper, -⟩ := isUpper_of_mem_encodeUtf8 hb hupper'
      rw [hplain t₁ t₂ ht d hd] at hdupper
      cases hdupper
  rw [hmarkz, skip_of_plain _ (isupper_iff.mpr ⟨c, hc, rfl⟩) hplainz]
  refine ⟨hz, ?_⟩
  rw [encodeUtf8_cons, utf8EncodeChar_of_ascii hascii]
  rfl

/-- After `[[` and an uppercase letter the end mark is found where the next slot ends. -/
theorem strstr_end_of_nextSlot {t text name after : Text}
    (h : nextSlot t = some (text, name, after)) :
  strstr (slotMark ++ encodeUtf8 name ++ (slotEnd ++ encodeUtf8 after)) slotEnd
    = some (slotMark ++ encodeUtf8 name, slotEnd ++ encodeUtf8 after)
  := by
  have hend := strstr_slotEnd (name ++ ']' :: ']' :: after)
  rw [(nextSlot_eq_some_iff.mp h).2, Option.map_some] at hend
  have hclose : encodeUtf8 (']' :: ']' :: after) = slotEnd ++ encodeUtf8 after :=
    encodeUtf8_append [']', ']'] after
  rw [encodeUtf8_append, hclose] at hend
  rw [List.append_assoc, strstr_slotMark_append, hend, Option.map_some]

/-- The pieces of a regular template are those of the filled template. -/
theorem fillLoop_of_regular (slots : List (Text × Scm)) (isPartial : Bool) (t : Text)
    (hnul : Char.ofNat 0 ∉ t) (h : Regular (parse t)) :
  ∃ parts : List Text, fillLoop (slots.map templateSlot) isPartial (encodeUtf8 t)
      = parts.map encodeUtf8 ∧
    parts.flatten = fillSlots isPartial (lookupSlot slots) t
  := by
  induction t using parse.induct with
  | case1 t hnone =>
      rw [parse_of_none hnone] at h
      rw [fillSlots_of_none hnone]
      cases hmark : strstr (encodeUtf8 t) slotMark with
      | none =>
          rw [fillLoop_of_none hmark]
          exact ⟨[t], rfl, List.append_nil t⟩
      | some x =>
          obtain ⟨lit, mark⟩ := x
          obtain ⟨hend, hboundary⟩ := h (lit, mark) hmark
          rw [fillLoop_of_mark hmark (strstr_eq_none_iff.mpr hend)]
          obtain ⟨hlit, -, -⟩ := strstr_eq_some_iff.mp hmark
          have hbytes : encodeUtf8 t = (lit ++ (skip mark).1) ++ (skip mark).2 := by
            rw [hlit, List.append_assoc, append_skip]
          obtain ⟨t₁, t₂, rfl, ht₁, ht₂⟩ := exists_of_encodeUtf8_eq_append hbytes hboundary
          exact ⟨[t₁, t₂], by simp [ht₁, ht₂], by simp⟩
  | case2 t text name after hsome ih =>
      rw [parse_of_some hsome] at h
      obtain ⟨hplain, hrest⟩ := h
      obtain ⟨lit, mark, hmark⟩ := exists_strstr hsome
      obtain ⟨htext, hsense⟩ := scan_of_plain hsome hplain hmark
      rw [eq_of_nextSlot hsome] at hnul
      simp only [Segment.source, List.mem_append, List.mem_cons, not_or] at hnul
      obtain ⟨-, ⟨-, -, hname, -⟩, hafter⟩ := hnul
      obtain ⟨parts, hparts, hflatten⟩ := ih hafter hrest
      obtain ⟨parts', hparts', hflatten'⟩ := slotParts_eq slots isPartial name
      have hend := strstr_end_of_nextSlot hsome
      rw [← hsense] at hend
      rw [fillLoop_of_slot hmark hend, fillSlots_of_some hsome, hsense,
        cstr_name (zero_notMem_encodeUtf8 hname), htext, hparts']
      use text :: parts' ++ parts
      constructor
      · rw [List.map_append, List.map_cons, ← hparts]
        rfl
      · rw [List.flatten_append, List.flatten_cons, hflatten, hflatten', List.append_assoc]

/-- When the partial filling without slots leaves the template as it is, and the skip arrives
before a `]]`, then it arrives at a slot, and the rest of the template is left as it is. -/
theorem nextSlot_of_flatten {t : Text} {lit mark before close : List UInt8}
    (hmark : strstr (encodeUtf8 t) slotMark = some (lit, mark))
    (hend : strstr (skip mark).2 slotEnd = some (before, close))
    (hflatten : (fillLoop [] true (encodeUtf8 t)).flatten = encodeUtf8 t) :
  ∃ text name after, nextSlot t = some (text, name, after) ∧
    encodeUtf8 text = lit ++ (skip mark).1 ∧ before = slotMark ++ encodeUtf8 name ∧
    close = slotEnd ++ encodeUtf8 after
  := by
  obtain ⟨hlit, -, -⟩ := strstr_eq_some_iff.mp hmark
  have hbytes : encodeUtf8 t = (lit ++ (skip mark).1) ++ (skip mark).2 := by
    rw [hlit, List.append_assoc, append_skip]
  have hsense : slotMark <+: (skip mark).2 := by
    rw [fillLoop_of_slot hmark hend, hbytes, slotParts] at hflatten
    simp only [List.find?_nil, if_true, List.cons_append, List.nil_append,
      List.flatten_cons] at hflatten
    have htail := List.append_cancel_left hflatten
    rw [← htail]
    apply List.prefix_append
  exact nextSlot_of_scan hmark hsense hend

/-- The last two elements of a list. -/
theorem exists_append_pair {s : List UInt8} (h : 2 ≤ s.length) :
  ∃ x d e, s = x ++ [d, e]
  := by
  have hlen : (s.drop (s.length - 2)).length = 2 := by
    rw [List.length_drop]
    omega
  obtain ⟨d, e, hde⟩ := List.length_eq_two.mp hlen
  use s.take (s.length - 2), d, e
  rw [← hde, List.take_append_drop]

/-- When the skip does not pass the text before a slot, the text is plain. -/
theorem plain_of_scan {t text name after : Text} {lit mark : List UInt8}
    (h : nextSlot t = some (text, name, after))
    (hmark : strstr (encodeUtf8 t) slotMark = some (lit, mark))
    (htext : encodeUtf8 text = lit ++ (skip mark).1) :
  Plain text
  := by
  rintro a b hab c hc
  by_contra hupper
  have hc' : c.isUpper = true := by simpa using hupper
  obtain ⟨b₁, b₂, rfl⟩ := List.append_of_mem hc
  have hascii : c.toNat < 128 := by
    have hrange := isUpper_iff.mp hc'
    omega
  obtain ⟨-, -, hfirst⟩ := strstr_eq_some_iff.mp hmark
  -- the place two bytes before the letter, after the first `[[`
  obtain ⟨x, d, e, hx⟩ := exists_append_pair (s := encodeUtf8 a ++ 91 :: 91 :: encodeUtf8 b₁)
    (by simp; omega)
  have hlen : x.length = (encodeUtf8 a).length + (encodeUtf8 b₁).length := by
    have hboth := congrArg List.length hx
    simp at hboth
    omega
  have hbefore : encodeUtf8 t = encodeUtf8 a ++ 91 :: 91 :: encodeUtf8 b₁ ++
      c.toNat.toUInt8 :: (encodeUtf8 b₂ ++ encodeUtf8 ((Segment.slot name).source ++ after)) := by
    rw [eq_of_nextSlot h, hab]
    simp [utf8EncodeChar_of_ascii hascii]
    rfl
  have hle : lit.length ≤ x.length := by
    have hmark' := hfirst (encodeUtf8 a) _ (hbefore.trans (List.append_assoc _ _ _))
      ⟨_, List.append_assoc slotMark _ _⟩
    omega
  have hbytes := hbefore
  rw [hx, List.append_assoc] at hbytes
  have hscan := length_le_of_isupper hmark hbytes (isupper_iff.mpr ⟨c, hc', rfl⟩) hle
  rw [← htext, hab] at hscan
  simp [encodeUtf8_append, utf8EncodeChar_of_ascii hascii] at hscan
  omega

/-- When the pieces of the partial filling without slots are strings that make the template, it
is regular. -/
theorem regular_of_fillLoop (t : Text) (parts : List Text) (hnul : Char.ofNat 0 ∉ t)
    (hparts : fillLoop [] true (encodeUtf8 t) = parts.map encodeUtf8)
    (hflatten : (fillLoop [] true (encodeUtf8 t)).flatten = encodeUtf8 t) :
  Regular (parse t)
  := by
  induction t using parse.induct generalizing parts with
  | case1 t hnone =>
      rw [parse_of_none hnone]
      rintro ⟨lit, mark⟩ hmark
      cases hend : strstr (skip mark).2 slotEnd with
      | none =>
          refine ⟨strstr_eq_none_iff.mp hend, ?_⟩
          rw [fillLoop_of_mark hmark hend] at hparts
          -- the second piece is a string
          match parts with
          | [p, q] =>
              obtain ⟨-, htail⟩ := List.cons.inj hparts
              obtain ⟨hq, -⟩ := List.cons.inj htail
              intro b hb
              obtain ⟨s, hs⟩ := List.head?_eq_some_iff.mp hb
              exact isContinuation_of_encodeUtf8_eq_cons (hq.symm.trans hs)
          | [] => cases hparts
          | [_] => simp at hparts
          | _ :: _ :: _ :: _ => simp at hparts
      | some x =>
          obtain ⟨before, close⟩ := x
          obtain ⟨text, name, after, hsome, -⟩ := nextSlot_of_flatten hmark hend hflatten
          rw [hnone] at hsome
          cases hsome
  | case2 t text name after hsome ih =>
      rw [parse_of_some hsome]
      obtain ⟨lit, mark, hmark⟩ := exists_strstr hsome
      cases hend : strstr (skip mark).2 slotEnd with
      | none =>
          exfalso
          obtain ⟨hlit, -, -⟩ := strstr_eq_some_iff.mp hmark
          have hbytes : encodeUtf8 t = (lit ++ (skip mark).1) ++ (skip mark).2 := by
            rw [hlit, List.append_assoc, append_skip]
          -- the end mark of the slot comes after the place where the skip arrives
          have hsource := encodeUtf8_of_nextSlot hsome
          have hle := scan_le_of_nextSlot hsome hmark
          have hsuffix : slotMark ++ encodeUtf8 name ++ (slotEnd ++ encodeUtf8 after)
              <:+ (skip mark).2 := by
            have hslot : slotMark ++ encodeUtf8 name ++ (slotEnd ++ encodeUtf8 after)
                <:+ encodeUtf8 t := by
              rw [hsource]
              apply List.suffix_append
            have hskip : (skip mark).2 <:+ encodeUtf8 t := by
              rw [hbytes]
              apply List.suffix_append
            apply List.suffix_of_suffix_length_le hslot hskip
            have hlen := congrArg List.length (hbytes.symm.trans hsource)
            simp only [List.length_append] at hlen hle ⊢
            omega
          apply strstr_eq_none_iff.mp hend
          apply List.IsInfix.trans _ hsuffix.isInfix
          exact ⟨slotMark ++ encodeUtf8 name, encodeUtf8 after, List.append_assoc _ _ _⟩
      | some x =>
          obtain ⟨before, close⟩ := x
          obtain ⟨text', name', after', hnext, htext, rfl, rfl⟩ :=
            nextSlot_of_flatten hmark hend hflatten
          rw [hsome] at hnext
          obtain ⟨rfl, rfl, rfl⟩ := Option.some.inj hnext
          refine ⟨plain_of_scan hsome hmark htext, ?_⟩
          have hsense : (skip mark).2
              = slotMark ++ encodeUtf8 name ++ (slotEnd ++ encodeUtf8 after) :=
            (strstr_eq_some_iff.mp hend).1
          rw [eq_of_nextSlot hsome] at hnul
          simp only [Segment.source, List.mem_append, List.mem_cons, not_or] at hnul
          obtain ⟨-, ⟨-, -, hname, -⟩, hafter⟩ := hnul
          have hloop : fillLoop [] true (encodeUtf8 t) = [encodeUtf8 text, slotMark,
              encodeUtf8 name, slotEnd] ++ fillLoop [] true (encodeUtf8 after) := by
            rw [fillLoop_of_slot hmark hend, hsense, cstr_name (zero_notMem_encodeUtf8 hname),
              htext]
            rfl
          rw [hloop] at hparts hflatten
          apply ih (parts.drop 4) hafter
          · have hdrop := congrArg (List.drop 4) hparts
            rw [List.map_drop, ← hdrop]
            rfl
          · rw [List.flatten_append, encodeUtf8_of_nextSlot hsome] at hflatten
            apply (List.append_right_inj
              (encodeUtf8 text ++ (slotMark ++ encodeUtf8 name ++ slotEnd))).mp
            simpa using hflatten

/-! ### The whole function -/

theorem fillTemplate_eq {t : Text} {slots : List (Text × Scm)} (isPartial : Scm)
    (ht : Char.ofNat 0 ∉ t) (hslots : Convertible slots) :
  fillTemplate (.str t) isPartial slots
    = ((fillLoop (slots.map templateSlot) (isPartial = .bool true) (encodeUtf8 t)).mapM
        fromUtf8).map List.flatten
  := by
  simp only [fillTemplate, toUtf8_eq ht, slotTable_eq hslots, Option.bind_some]

/-- Pieces that are strings are converted. -/
theorem mapM_fromUtf8_iff {pieces : List (List UInt8)} {parts : List Text} :
  pieces.mapM fromUtf8 = some parts ↔ pieces = parts.map encodeUtf8
  := by
  induction pieces generalizing parts with
  | nil => cases parts <;> simp
  | cons p pieces ih =>
      rw [List.mapM_cons]
      simp only [Option.bind_eq_bind, Option.bind_eq_some_iff, fromUtf8_eq_some_iff, ih,
        Option.pure_def, Option.some.injEq]
      constructor
      · rintro ⟨q, rfl, qs, rfl, rfl⟩
        rfl
      · intro h
        cases parts with
        | nil => cases h
        | cons q qs =>
            obtain ⟨hq, hqs⟩ := List.cons.inj h
            exact ⟨q, hq, qs, hqs, rfl⟩

/-- A regular template is filled as its pieces say. -/
theorem fillTemplate_of_regular {t : Text} {slots : List (Text × Scm)} (isPartial : Scm)
    (ht : Char.ofNat 0 ∉ t) (hslots : Convertible slots) (h : Regular (parse t)) :
  fillTemplate (.str t) isPartial slots
    = some (fillSlots (isPartial = .bool true) (lookupSlot slots) t)
  := by
  obtain ⟨parts, hparts, hflatten⟩ :=
    fillLoop_of_regular slots (isPartial = .bool true) t ht h
  rw [fillTemplate_eq isPartial ht hslots, mapM_fromUtf8_iff.mpr hparts, Option.map_some,
    hflatten]

theorem fillTemplate_eq_none {t : Text} {slots : List (Text × Scm)} (isPartial : Scm)
    (hslots : ¬ Convertible slots) :
  fillTemplate (.str t) isPartial slots = none
  := by
  cases ht : toUtf8 t with
  | none => simp [fillTemplate, ht]
  | some master => simp [fillTemplate, ht, slotTable_eq_none hslots]

/-- A template is filled as its pieces say, whatever the slots without a NUL and the mode, exactly
when it has no NUL and is regular. -/
theorem fill_faithful_iff (t : Text) :
  (∀ isPartial slots, fillTemplate (.str t) isPartial slots
      = some (fillSlots (isPartial = .bool true) (lookupSlot slots) t) ↔ Convertible slots)
    ↔ Char.ofNat 0 ∉ t ∧ Regular (parse t)
  := by
  constructor
  · intro h
    have hempty : Convertible [] := by
      intro pair hpair
      cases hpair
    have hfill := (h (.bool true) []).mpr hempty
    have ht : Char.ofNat 0 ∉ t := by
      intro hnul
      simp [fillTemplate, toUtf8, hnul] at hfill
    refine ⟨ht, ?_⟩
    have hlook : lookupSlot [] = fun _ => none := rfl
    rw [fillTemplate_eq _ ht hempty, hlook] at hfill
    simp only [decide_true, List.map_nil, fillSlots_none] at hfill
    obtain ⟨parts, hparts, hflatten⟩ := Option.map_eq_some_iff.mp hfill
    have hpieces := mapM_fromUtf8_iff.mp hparts
    apply regular_of_fillLoop t parts ht hpieces
    rw [hpieces, ← encodeUtf8_flatten, hflatten]
  · rintro ⟨ht, hregular⟩ isPartial slots
    constructor
    · intro hfill
      by_contra hslots
      rw [fillTemplate_eq_none isPartial hslots] at hfill
      cases hfill
    · intro hslots
      exact fillTemplate_of_regular isPartial ht hslots hregular

/-- The text `[[a]]X` has no slot, but its last letter is taken for the name of one. -/
theorem fillTemplate_bracketed_lowercase :
  fillTemplate (.str "[[a]]X".toList) (.bool false) [("x".toList, .str "1".toList)]
    ≠ some (fillSlots false (lookupSlot [("x".toList, .str "1".toList)]) "[[a]]X".toList)
  := by
  have hslots : Convertible [("x".toList, .str "1".toList)] := by
    intro pair hpair
    rw [List.mem_singleton.mp hpair]
    decide
  have hloop : fillLoop ([("x".toList, Scm.str "1".toList)].map templateSlot) false
      (encodeUtf8 "[[a]]X".toList)
        = ["[[a".toList, "1".toList, "X".toList].map encodeUtf8 := by
    have hmark : strstr (encodeUtf8 "[[a]]X".toList) slotMark
        = some ([], [91, 91, 97, 93, 93, 88]) := by decide
    have hend : strstr (skip [91, 91, 97, 93, 93, 88]).2 slotEnd = some ([], [93, 93, 88]) := by
      decide
    rw [fillLoop_of_slot hmark hend]
    have hrest : fillLoop ([("x".toList, Scm.str "1".toList)].map templateSlot) false [88]
        = [[88]] := fillLoop_of_none (by decide)
    have hdrop : List.drop 2 [93, 93, 88] = ([88] : List UInt8) := rfl
    rw [hdrop, hrest]
    decide
  rw [fillTemplate_eq _ (by decide) hslots]
  simp only [Scm.bool.injEq, Bool.false_eq_true, decide_false]
  rw [hloop, mapM_fromUtf8_iff.mpr rfl, fillSlots_of_none (by decide)]
  decide

end Gusher
