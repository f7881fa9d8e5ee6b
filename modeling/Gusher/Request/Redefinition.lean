import Gusher.Request.Handlers

/-!
# Redefining handlers

A path may be registered again, with another handler.  The new entry is put in front of the list,
but the entries for one path have the same length, and `qsort` may leave them in any order.
-/

namespace Gusher

open LinkedList Sorting

/-- The last call of `set_handler` for the path `t` was with the handler `h`. -/
def Latest (paths : List (Text × Scm)) (t : Text) (h : Scm) : Prop :=
  ∃ before after, paths = before ++ (t, h) :: after ∧ ∀ e ∈ after, e.1 ≠ t

/-- A request goes to the handler that was given last for its longest registered prefix. -/
def TakesEffect (loc : Locale) (s : Handlers) (paths : List (Text × Scm)) : Prop :=
  ∀ request t h rest, request.assqRef "url-path".toList = .str (t ++ rest) →
    (loc.encode (t ++ rest)).isSome → Longest paths (t ++ rest) t → Latest paths t h →
    s.findHandler loc request = some (.pair h (.str rest))

/-- A path that is registered has a last call. -/
theorem exists_latest {paths : List (Text × Scm)} {t : Text} {h : Scm} (ht : (t, h) ∈ paths) :
  ∃ h', Latest paths t h'
  := by
  induction paths generalizing h with
  | nil => cases ht
  | cons e paths ih =>
      by_cases hlater : ∃ h', (t, h') ∈ paths
      · obtain ⟨h', hmem⟩ := hlater
        obtain ⟨h'', before, after, rfl, hafter⟩ := ih hmem
        exact ⟨h'', e :: before, after, rfl, hafter⟩
      · obtain rfl | hmem := List.mem_cons.mp ht
        · refine ⟨h, [], paths, rfl, ?_⟩
          rintro ⟨t', h'⟩ he rfl
          exact hlater ⟨h', he⟩
        · exact absurd ⟨h, hmem⟩ hlater

theorem Latest.mem {paths : List (Text × Scm)} {t : Text} {h : Scm} (hlatest : Latest paths t h) :
  (t, h) ∈ paths
  := by
  obtain ⟨before, after, rfl, -⟩ := hlatest
  exact List.mem_append_right before List.mem_cons_self

/-- There is one longest registered prefix. -/
theorem Longest.unique {paths : List (Text × Scm)} {u t t' : Text} {h h' : Scm}
    (ht : Longest paths u t) (ht' : Longest paths u t') (hmem : (t, h) ∈ paths)
    (hmem' : (t', h') ∈ paths) :
  t = t'
  := by
  have hle := ht.longest _ hmem' ht'.is_prefix
  have hle' := ht'.longest _ hmem ht.is_prefix
  exact List.prefix_of_prefix_length_le ht.is_prefix ht'.is_prefix hle' |>.eq_of_length
    (Nat.le_antisymm hle' hle)

section

variable {loc : Locale} {code : Char → Option (List UInt8)} {calls : List (Scm × Scm)}
  {s : Handlers} {l : List ℕ}

/-- A path that was always registered with the same handler goes to it. -/
theorem Routes.takesEffect {paths : List (Text × Scm)} (hroutes : Routes loc s paths)
    (hsame : ∀ e ∈ paths, ∀ e' ∈ paths, e.1 = e'.1 → e.2 = e'.2) :
  TakesEffect loc s paths
  := by
  intro request t h rest hpath hencode hlongest hlatest
  obtain ⟨r, hr, hfalse, hfound⟩ := hroutes.lookup request (t ++ rest) hpath hencode
  have hmem := hlatest.mem
  have hne : r ≠ .bool false := by
    intro heq
    exact hfalse.mp heq (t, h) hmem (List.prefix_append t rest)
  obtain ⟨t', h', rest', hmem', hlongest', hsplit, rfl⟩ := hfound hne
  obtain rfl := hlongest.unique hlongest' hmem hmem'
  have heq : h' = h := hsame _ hmem' _ hmem rfl
  rw [hr, heq, List.append_cancel_left hsplit]

theorem Handlers.entry_eq {e : Text × Scm} {i : ℕ}
    (hentries : s.entries = (registered loc calls).map (handlerEntry loc))
    (hi : (registered loc calls)[i]? = some e) :
  s.entry i = handlerEntry loc e
  := by
  rw [Handlers.entry, hentries, List.getElem?_map, hi]
  rfl

/-- A `qsort` that prefers the entry of a call makes the requests for its path go to its handler. -/
theorem Handlers.Holds.findHandler_prefer (h : s.Holds l) (hloc : loc.Charwise code)
    (hentries : s.entries = (registered loc calls).map (handlerEntry loc))
    (hshort : ∀ e ∈ s.entries, e.path.length < 2 ^ 31) {e : Text × Scm} {i : ℕ}
    (hi : (registered loc calls)[i]? = some e) (hsort : s.Resorted (prefer i) l) :
  s.findHandler loc (.acons "url-path" (.str e.1) .nil) = some (.pair e.2 (.str []))
  := by
  have hentry := Handlers.entry_eq hentries hi
  have hpath := encode_of_registered (List.mem_of_getElem? hi)
  have hrequest : (Scm.acons "url-path" (.str e.1) .nil).assqRef "url-path".toList = .str e.1 := by
    simp
  have hmem : ∀ a, a ∈ l ↔ a < s.entries.length := by
    intro a
    rw [h.perm.mem_iff, List.mem_range]
  have hil : i ∈ l := by
    obtain ⟨hlt, -⟩ := List.getElem?_eq_some_iff.mp hi
    rw [hmem, hentries, List.length_map]
    exact hlt
  have hstarts : decide ((s.entry i).path <+: (handlerEntry loc e).path) = true := by
    rw [hentry, decide_eq_true_iff]
  have hfind : l.find? (fun a => (s.entry a).path <+: (handlerEntry loc e).path) = some i := by
    have hsome : (l.find? (fun a => (s.entry a).path <+: (handlerEntry loc e).path)).isSome := by
      rw [List.find?_isSome]
      exact ⟨i, hil, hstarts⟩
    obtain ⟨b, hb⟩ := Option.isSome_iff_exists.mp hsome
    by_cases hbi : b = i
    · rw [hb, hbi]
    · -- the entry that is found first is not longer, so the preferred one comes before it
      have hprefix := List.find?_some hb
      rw [decide_eq_true_iff] at hprefix
      have hle : s.sorter i b ≤ 0 := by
        have hlen := hprefix.length_le
        rw [sorter_eq hshort, hentry]
        omega
      obtain ⟨l₀, hperm, rfl⟩ := hsort
      have hmem' : ∀ a, a ∈ l₀ ↔ a ∈ prefer i s.sorter l₀ :=
        fun a => (qsort_prefer i s.sorter l₀).perm.mem_iff.symm
      have hsub := pair_sublist_prefer (consistent_of_measure (sorter_eq hshort))
        ((hmem' i).mpr hil) ((hmem' b).mpr (List.mem_of_find?_eq_some hb)) hbi hle
      have hnodup : (prefer i s.sorter l₀).Nodup := by
        rw [h.perm.nodup_iff]
        exact List.nodup_range
      exact absurd hb (find_ne_of_pair_sublist hnodup hsub hstarts)
  have hdecode : loc.decode [] = [] := hloc.decode_encode hloc.encode_nil
  rw [h.findHandler_eq hshort, Gusher.findHandler, hrequest, if_neg (by simp),
    Locale.toLocaleString, hpath, Option.map_some, Handlers.firstHandler_eq, List.find?_map]
  have hcomp : ((fun e' : HandlerEntry => decide (e'.path <+: (handlerEntry loc e).path)) ∘ s.entry)
      = (fun a => decide ((s.entry a).path <+: (handlerEntry loc e).path)) := rfl
  rw [hcomp, hfind, Option.map_some]
  dsimp only
  rw [hentry, List.drop_length, hdecode]
  rfl

end

/-- Whatever `qsort` does with entries of equal length, the last call of `set_handler` for a path
takes effect exactly when each path was always registered with the same handler, the number of
entries is an `int`, and the paths are shorter than 2³¹ bytes. -/
theorem takesEffect_iff {loc : Locale} {code : Char → Option (List UInt8)}
    (hloc : loc.Charwise code) (calls : List (Scm × Scm)) :
  (∀ qsort : (ℕ → ℕ → ℤ) → List ℕ → List ℕ, (∀ cmp l, QSort cmp l (qsort cmp l)) →
      ∃ s, Handlers.empty.setHandlers loc qsort calls = some s ∧
        TakesEffect loc s (registered loc calls))
    ↔ ((registered loc calls).length < 2 ^ 31 ∧
        ∀ e ∈ registered loc calls, (handlerEntry loc e).path.length < 2 ^ 31) ∧
      ∀ e ∈ registered loc calls, ∀ e' ∈ registered loc calls, e.1 = e'.1 → e.2 = e'.2
  := by
  constructor
  · intro heffect
    obtain ⟨s, hs, htakes⟩ := heffect mergeSort qsort_mergeSort
    have hcount := length_registered_lt qsort_mergeSort hs
    have hrequest : ∀ t : Text,
        (Scm.acons "url-path" (.str t) .nil).assqRef "url-path".toList = .str (t ++ []) := by
      intro t
      simp
    have hlongest : ∀ t : Text, Longest (registered loc calls) (t ++ []) t := by
      intro t
      rw [List.append_nil]
      exact ⟨List.prefix_refl t, fun e _ he => he.length_le⟩
    have hencode : ∀ e ∈ registered loc calls, (loc.encode (e.1 ++ [])).isSome := by
      intro e he
      rw [List.append_nil, encode_of_registered he]
      rfl
    have hshort : ∀ e ∈ registered loc calls, (handlerEntry loc e).path.length < 2 ^ 31 := by
      intro e he
      by_contra hlong
      obtain ⟨s', l, hs', hholds, -⟩ := exists_setHandlers qsort_mergeSort hcount
      obtain rfl := Option.some.inj (hs.symm.trans hs')
      obtain ⟨h, hlatest⟩ := exists_latest he
      exact hholds.findHandler_ne hloc he (Nat.le_of_not_lt hlong) h
        (htakes _ e.1 h [] (hrequest e.1) (hencode e he) (hlongest e.1) hlatest)
    refine ⟨⟨hcount, hshort⟩, ?_⟩
    -- each handler of a path is the last one, as the `qsort` that prefers it shows
    have hlast : ∀ e ∈ registered loc calls, ∀ h, Latest (registered loc calls) e.1 h → e.2 = h := by
      intro e he h hlatest
      obtain ⟨i, hi⟩ := List.mem_iff_getElem?.mp he
      obtain ⟨s, hs, htakes⟩ := heffect (prefer i) (qsort_prefer i)
      obtain ⟨s', l, hs', hholds, hentries, hsort⟩ := exists_setHandlers (qsort_prefer i) hcount
      obtain rfl := Option.some.inj (hs.symm.trans hs')
      have hshort' : ∀ d ∈ s.entries, d.path.length < 2 ^ 31 := by
        rw [hentries]
        intro d hd
        obtain ⟨d', hd', rfl⟩ := List.mem_map.mp hd
        exact hshort d' hd'
      have hfound := hholds.findHandler_prefer hloc hentries hshort' hi
        (hsort (List.ne_nil_of_mem he))
      rw [htakes _ e.1 h [] (hrequest e.1) (hencode e he) (hlongest e.1) hlatest] at hfound
      exact (Scm.pair.inj (Option.some.inj hfound)).1.symm
    intro e he e' he' heq
    obtain ⟨h, hlatest⟩ := exists_latest he
    rw [hlast e he h hlatest, hlast e' he' h (heq ▸ hlatest)]
  · rintro ⟨⟨hcount, hshort⟩, hsame⟩ qsort hqsort
    obtain ⟨s, l, hs, hholds, hentries, -⟩ := exists_setHandlers hqsort hcount
    refine ⟨s, hs, Routes.takesEffect (hholds.routes hloc hentries ?_) hsame⟩
    rw [hentries]
    intro e he
    obtain ⟨e', he', rfl⟩ := List.mem_map.mp he
    exact hshort e' he'

theorem takesEffect_iff_status :
  ∃ s, Handlers.empty.setHandlers utf8 mergeSort
      [(.str "/".toList, .other 0), (.str "/status".toList, .other 1)] = some s ∧
    TakesEffect utf8 s (registered utf8
      [(.str "/".toList, .other 0), (.str "/status".toList, .other 1)])
  := by
  have hregistered : registered utf8 [(.str "/".toList, .other 0), (.str "/status".toList, .other 1)]
      = [("/".toList, .other 0), ("/status".toList, .other 1)] := by decide
  refine (takesEffect_iff charwise_utf8 _).mpr ?_ mergeSort qsort_mergeSort
  rw [hregistered]
  exact ⟨⟨by decide, by decide⟩, by decide⟩

/-- A path is registered twice, and `qsort` puts the older entry first. -/
theorem older_handler_found :
  (∀ cmp l, QSort cmp l (prefer 0 cmp l)) ∧
  ∃ s, Handlers.empty.setHandlers utf8 (prefer 0)
      [(.str "/a".toList, .other 0), (.str "/a".toList, .other 1)] = some s ∧
    s.findHandler utf8 (.acons "url-path" (.str "/a".toList) .nil)
      = some (.pair (.other 0) (.str []))
  := by
  refine ⟨qsort_prefer 0, ?_⟩
  have hregistered : registered utf8 [(.str "/a".toList, .other 0), (.str "/a".toList, .other 1)]
      = [("/a".toList, .other 0), ("/a".toList, .other 1)] := by decide
  obtain ⟨s, l, hs, hholds, hentries, hsort⟩ := @exists_setHandlers utf8 _ (qsort_prefer 0)
    [(.str "/a".toList, .other 0), (.str "/a".toList, .other 1)] (by rw [hregistered]; decide)
  refine ⟨s, hs, ?_⟩
  rw [hregistered] at hsort
  apply @Handlers.Holds.findHandler_prefer utf8 _ _ _ _ hholds charwise_utf8 hentries _
    ("/a".toList, .other 0) 0 (by rw [hregistered]; rfl) (hsort (List.cons_ne_nil _ _))
  rw [hentries, hregistered]
  intro e he
  simp only [List.map_cons, List.map_nil, List.mem_cons, List.not_mem_nil, or_false] at he
  obtain rfl | rfl := he
  · decide
  · decide

end Gusher
