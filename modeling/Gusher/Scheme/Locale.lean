import Gusher.Scheme.Utf8

/-!
# Locales that encode character by character

In most locales, UTF-8 among them, a string is encoded character by character, and no code is the
beginning of another.  In these the prefixes of a string are the encoded strings that its encoding
starts with.
-/

namespace Gusher

/-- The locale encodes character by character, with codes that are not prefixes of one another,
and decodes what it encodes. -/
structure Locale.Charwise (loc : Locale) (code : Char → Option (List UInt8)) : Prop where
  encode_nil : loc.encode [] = some []
  encode_cons : ∀ c t, loc.encode (c :: t)
    = (code c).bind (fun x => (loc.encode t).map (x ++ ·))
  prefix_free : ∀ {c d x y}, code c = some x → code d = some y → x <+: y → c = d
  /-- A string with a NUL is not converted. -/
  no_nul : ∀ {c x}, code c = some x → (0 : UInt8) ∉ x
  code_ne_nil : ∀ {c x}, code c = some x → x ≠ []
  decode_encode : ∀ {t s}, loc.encode t = some s → loc.decode s = t
  /-- What cannot be decoded is replaced, not removed. -/
  decode_ne_nil : ∀ {s}, s ≠ [] → loc.decode s ≠ []

namespace Locale.Charwise

variable {loc : Locale} {code : Char → Option (List UInt8)} {t u : Text} {p s : List UInt8}

/-- A string is encoded when each of its characters is. -/
theorem encode_cons_eq_some (h : loc.Charwise code) {c : Char} :
  loc.encode (c :: t) = some s
    ↔ ∃ x y, code c = some x ∧ loc.encode t = some y ∧ s = x ++ y
  := by
  rw [h.encode_cons]
  simp only [Option.bind_eq_some_iff, Option.map_eq_some_iff]
  constructor
  · rintro ⟨x, hx, y, hy, rfl⟩
    exact ⟨x, y, hx, hy, rfl⟩
  · rintro ⟨x, y, hx, hy, rfl⟩
    exact ⟨x, hx, y, hy, rfl⟩

/-- The encoding of a string followed by another. -/
theorem encode_append (h : loc.Charwise code) (ht : loc.encode t = some p) :
  loc.encode (t ++ u) = (loc.encode u).map (p ++ ·)
  := by
  induction t generalizing p with
  | nil =>
      rw [h.encode_nil] at ht
      obtain rfl := Option.some.inj ht
      simp
  | cons c t ih =>
      obtain ⟨x, y, hx, hy, rfl⟩ := h.encode_cons_eq_some.mp ht
      rw [List.cons_append, h.encode_cons, hx, ih hy]
      simp [Function.comp_def]

/-- The parts of a string that is encoded are encoded. -/
theorem of_append (h : loc.Charwise code) (hs : loc.encode (t ++ u) = some s) :
  ∃ x y, loc.encode t = some x ∧ loc.encode u = some y ∧ s = x ++ y
  := by
  induction t generalizing s with
  | nil => exact ⟨[], s, h.encode_nil, hs, rfl⟩
  | cons c t ih =>
      obtain ⟨x, y, hx, hy, rfl⟩ := h.encode_cons_eq_some.mp hs
      obtain ⟨z, w, hz, hw, rfl⟩ := ih hy
      use x ++ z, w
      refine ⟨h.encode_cons_eq_some.mpr ⟨x, z, hx, hz, rfl⟩, hw, ?_⟩
      rw [List.append_assoc]

/-- A string whose encoding starts another encoding is a prefix of the other string. -/
theorem exists_append (h : loc.Charwise code) (ht : loc.encode t = some p)
    (hu : loc.encode u = some s) (hps : p <+: s) :
  ∃ rest, u = t ++ rest ∧ loc.encode rest = some (s.drop p.length)
  := by
  induction t generalizing u p s with
  | nil =>
      rw [h.encode_nil] at ht
      obtain rfl := Option.some.inj ht
      exact ⟨u, rfl, hu⟩
  | cons c t ih =>
      obtain ⟨x, y, hx, hy, rfl⟩ := h.encode_cons_eq_some.mp ht
      cases u with
      | nil =>
          rw [h.encode_nil] at hu
          obtain rfl := Option.some.inj hu
          have hnil := List.append_eq_nil_iff.mp (List.prefix_nil.mp hps)
          exact absurd hnil.1 (h.code_ne_nil hx)
      | cons d u =>
          obtain ⟨z, w, hz, hw, rfl⟩ := h.encode_cons_eq_some.mp hu
          have hxz : x <+: z ∨ z <+: x :=
            List.prefix_or_prefix_of_prefix ((List.prefix_append x y).trans hps)
              (List.prefix_append z w)
          have hcd : c = d := by
            obtain hxz | hzx := hxz
            · exact h.prefix_free hx hz hxz
            · exact (h.prefix_free hz hx hzx).symm
          subst hcd
          obtain rfl := Option.some.inj (hx.symm.trans hz)
          obtain ⟨rest, rfl, hrest⟩ := ih hy hw ((List.prefix_append_right_inj x).mp hps)
          use rest, rfl
          rw [hrest, List.length_append, ← List.drop_drop, List.drop_left]

/-- The prefixes of a string are the strings whose encodings start its encoding. -/
theorem prefix_iff (h : loc.Charwise code) (ht : loc.encode t = some p)
    (hu : loc.encode u = some s) :
  t <+: u ↔ p <+: s
  := by
  constructor
  · rintro ⟨rest, rfl⟩
    obtain ⟨x, y, hx, -, rfl⟩ := h.of_append hu
    obtain rfl := Option.some.inj (hx.symm.trans ht)
    apply List.prefix_append
  · intro hps
    obtain ⟨rest, rfl, -⟩ := h.exists_append ht hu hps
    apply List.prefix_append

theorem eq_nil (h : loc.Charwise code) (ht : loc.encode t = some []) :
  t = []
  := by
  cases t with
  | nil => rfl
  | cons c t =>
      obtain ⟨x, y, hx, -, hnil⟩ := h.encode_cons_eq_some.mp ht
      exact absurd (List.append_eq_nil_iff.mp hnil.symm).1 (h.code_ne_nil hx)

/-- A string is not longer than its encoding. -/
theorem length_le_encode (h : loc.Charwise code) (ht : loc.encode t = some p) :
  t.length ≤ p.length
  := by
  induction t generalizing p with
  | nil => apply Nat.zero_le
  | cons c t ih =>
      obtain ⟨x, y, hx, hy, rfl⟩ := h.encode_cons_eq_some.mp ht
      have hpos := List.length_pos_iff.mpr (h.code_ne_nil hx)
      have hle := ih hy
      rw [List.length_cons, List.length_append]
      omega

/-- Of two prefixes of a string the longer one has the longer encoding. -/
theorem length_le (h : loc.Charwise code) {t' : Text} {p' : List UInt8} (ht : t <+: u)
    (ht' : t' <+: u) (hp : loc.encode t = some p) (hp' : loc.encode t' = some p')
    (hle : p'.length ≤ p.length) :
  t'.length ≤ t.length
  := by
  obtain ⟨rest, rfl⟩ | htt' := List.prefix_or_prefix_of_prefix ht ht'
  · obtain ⟨x, y, hx, hy, rfl⟩ := h.of_append hp'
    obtain rfl := Option.some.inj (hx.symm.trans hp)
    rw [List.length_append] at hle
    have hnil : y = [] := List.eq_nil_of_length_eq_zero (by omega)
    rw [hnil] at hy
    rw [h.eq_nil hy, List.append_nil]
  · exact htt'.length_le

end Locale.Charwise

/-- The code of a character in UTF-8; a NUL has none. -/
def utf8Code (c : Char) : Option (List UInt8) :=
  if c = Char.ofNat 0 then none else some (String.utf8EncodeChar c)

/-- The locale whose encoding is UTF-8. -/
def utf8 : Locale where
  decode := safeFromUtf8
  encode := toUtf8

/-- UTF-8 encodes character by character. -/
theorem charwise_utf8 :
  utf8.Charwise utf8Code
  where
  encode_nil := rfl
  encode_cons := by
    intro c t
    simp only [utf8, toUtf8, utf8Code, List.mem_cons, List.flatMap_cons]
    by_cases hc : c = Char.ofNat 0
    · simp [hc]
    · by_cases ht : Char.ofNat 0 ∈ t
      · simp [hc, ht]
      · simp [hc, ht, Ne.symm hc]
  prefix_free := by
    intro c d x y hx hy hxy
    simp only [utf8Code, Option.ite_none_left_eq_some, Option.some.injEq] at hx hy
    obtain ⟨-, rfl⟩ := hx
    obtain ⟨-, rfl⟩ := hy
    have hc := utf8DecodeChar_of_prefix hxy
    have hd := utf8DecodeChar_of_prefix (List.prefix_refl (String.utf8EncodeChar d))
    exact Option.some.inj (hc.symm.trans hd)
  no_nul := by
    intro c x hx
    simp only [utf8Code, Option.ite_none_left_eq_some, Option.some.injEq] at hx
    obtain ⟨hc, rfl⟩ := hx
    apply zero_notMem_utf8EncodeChar hc
  code_ne_nil := by
    intro c x hx
    simp only [utf8Code, Option.ite_none_left_eq_some, Option.some.injEq] at hx
    obtain ⟨-, rfl⟩ := hx
    intro hnil
    have hlen := String.length_utf8EncodeChar c
    rw [hnil] at hlen
    exact absurd hlen.symm (Nat.ne_of_gt c.utf8Size_pos)
  decode_encode := by
    intro t s hs
    simp only [utf8, toUtf8, Option.ite_none_left_eq_some, Option.some.injEq] at hs
    obtain ⟨-, rfl⟩ := hs
    apply safeFromUtf8_flatMap
  decode_ne_nil := by
    intro s hs
    cases s with
    | nil => exact absurd rfl hs
    | cons b s =>
        simp only [utf8, safeFromUtf8, List.length_cons, decodeUtf8]
        split
        · simp
        · simp

end Gusher
