import Gusher.Library.Linearizable
import Mathlib.Data.List.Sort

/-!
# Calls that take effect at one statement

A call takes effect at one of its queries, and is complete then; until it does, its queries leave what
the server stands for.  The calls are linearizable in the order in which they take effect
(`AtOnce.linearizes`).  What a call knows of the server in between may be spoilt by another call;
two calls in conflict must not be under way at the same time (`Apart`).
-/

namespace Concurrent

variable {S σ ρ κ α ι M : Type}

/-- Calls in conflict are not under way at the same time. -/
def Apart (conflict : κ → κ → Prop) (h : List (Event κ α)) : Prop :=
  ∀ a b c d, a < b → h[a]? = some (.call c) → h[b]? = some (.call d) → conflict c d →
    Precedes h a b

/-- Each call takes effect at one of its queries, or does nothing and ends.  `R` relates the states of
the server and of a specification; `P s c p` says that the call `c` has not taken effect and has `p` left
to do. -/
structure AtOnce (serve : S → σ → ρ → Option S) (proc : κ → Proc σ ρ α) (spec : Spec κ α M)
    (R : S → M → Prop) (P : S → κ → Proc σ ρ α → Prop) (ok : κ → Prop) (conflict : κ → κ → Prop) :
    Prop where
  symm : ∀ c d, conflict c d → conflict d c
  begins : ∀ s c, ok c → P s c (proc c)
  serves : ∀ s m c q next r t, R s m → P s c (.query q next) → serve s q r = some t →
    (P t c (next r) ∧ R t m)
      ∨ ∃ out, (next r).result = some out ∧ spec.allows m c out ∧ R t (spec.next m c)
  stays : ∀ s m c p d q next r t, R s m → P s c p → P s d (.query q next) → ¬ conflict c d →
    serve s q r = some t → P t c p
  ends : ∀ s m c p out, R s m → P s c p → p.result = some out →
    spec.allows m c out ∧ spec.next m c = m

/-! ### Histories -/

/-- What is apart in a history is apart in its beginning. -/
theorem Apart.of_append {conflict : κ → κ → Prop} {h h' : List (Event κ α)}
    (hapart : Apart conflict (h ++ h')) :
  Apart conflict h
  := by
  intro a b c d hlt ha hb hcd
  have hb' := lt_length_of_called hb
  have hat : ∀ {p : ℕ} {e : Event κ α}, h[p]? = some e → (h ++ h')[p]? = some e := by
    intro p e hp
    rw [List.getElem?_append_left (List.getElem?_eq_some_iff.mp hp).1, hp]
  obtain ⟨p, out, hp, hpb⟩ := hapart a b c d hlt (hat ha) (hat hb) hcd
  rw [List.getElem?_append_left (Nat.lt_trans hpb hb')] at hp
  exact ⟨p, out, hp, hpb⟩

variable {serve : S → σ → ρ → Option S} {proc : κ → Proc σ ρ α}

theorem Stepped.exists_append [DecidableEq ι] {s t : State S σ ρ κ α ι} (h : Stepped serve proc s t) :
  ∃ events, t.history = s.history ++ events
  := by
  cases h with
  | call i c hi => exact ⟨[.call c], rfl⟩
  | serve i a q next r u hi hproc hserve => exact ⟨[], (List.append_nil _).symm⟩
  | ret i a out hi hout => exact ⟨[.ret a.id out], rfl⟩

/-- Two calls in progress are not in conflict. -/
theorem Apart.not_conflict {conflict : κ → κ → Prop} (hsymm : ∀ c d, conflict c d → conflict d c)
    {s : State S σ ρ κ α ι} (hapart : Apart conflict s.history) (hwf : s.WellFormed) {i j : ι}
    {a b : Active σ ρ κ α} (ha : s.clients i = some a) (hb : s.clients j = some b) (hij : i ≠ j) :
  ¬ conflict a.call b.call
  := by
  intro hconflict
  have ha' := hwf.called i a ha
  have hb' := hwf.called j b hb
  rcases Nat.lt_trichotomy a.id b.id with hlt | heq | hlt
  · exact not_precedes_of_pending (hwf.pending i a ha) (hapart _ _ _ _ hlt ha' hb' hconflict)
  · exact hij (hwf.distinct i j a b ha hb heq)
  · exact not_precedes_of_pending (hwf.pending j b hb)
      (hapart _ _ _ _ hlt hb' ha' (hsymm _ _ hconflict))

/-! ### The calls in progress -/

/-- A call in progress has not taken effect, or it has its place in the order. -/
inductive Progressed (P : S → κ → Proc σ ρ α → Prop) (s : S) (order : List (Entry κ α))
    (a : Active σ ρ κ α) : Prop where
  | waiting (hp : P s a.call a.proc) (hnew : a.id ∉ order.map Entry.id)
  | placed (out : Option α) (hresult : a.proc.result = some out) (hmem : ⟨a.id, a.call, out⟩ ∈ order)

/-- The calls that have taken effect are in the order. -/
structure Tracks (spec : Spec κ α M) (R : S → M → Prop) (P : S → κ → Proc σ ρ α → Prop) (m₀ : M)
    (s : State S σ ρ κ α ι) (order : List (Entry κ α)) (m : M) : Prop where
  wellFormed : s.WellFormed
  rel : R s.server m
  linearizes : Linearizes spec m₀ s.history order m
  active : ∀ i a, s.clients i = some a → Progressed P s.server order a
  known : ∀ e ∈ order,
    (∃ out, .ret e.id out ∈ s.history) ∨ ∃ i a, s.clients i = some a ∧ a.id = e.id

section

variable {spec : Spec κ α M} {R : S → M → Prop} {P : S → κ → Proc σ ρ α → Prop} {ok : κ → Prop}
  {conflict : κ → κ → Prop} {m₀ m m' : M} {s : State S σ ρ κ α ι} {order : List (Entry κ α)} {i : ι}
  {a : Active σ ρ κ α}

theorem tracks_start {s₀ : S} (hR : R s₀ m₀) :
  Tracks spec R P m₀ (start s₀ : State S σ ρ κ α ι) [] m₀
  where
  wellFormed := wellFormed_start s₀
  rel := hR
  linearizes := .nil
  active _ _ h := by cases h
  known _ he := by cases he

/-- Another call takes its place behind the others. -/
theorem Progressed.append {u u' : S} {b : Active σ ρ κ α} (h : Progressed P u order b)
    (hstays : P u b.call b.proc → P u' b.call b.proc) {e : Entry κ α} (hne : b.id ≠ e.id) :
  Progressed P u' (order ++ [e]) b
  := by
  cases h with
  | waiting hp hnew =>
      apply Progressed.waiting (hstays hp)
      rw [List.map_append, List.mem_append, not_or]
      exact ⟨hnew, by simpa using hne⟩
  | placed out hresult hmem => exact .placed out hresult (List.mem_append_left _ hmem)

theorem Progressed.stays {u u' : S} {b : Active σ ρ κ α} (h : Progressed P u order b)
    (hstays : P u b.call b.proc → P u' b.call b.proc) :
  Progressed P u' order b
  := by
  cases h with
  | waiting hp hnew => exact .waiting (hstays hp) hnew
  | placed out hresult hmem => exact .placed out hresult hmem

variable [DecidableEq ι]

/-- A client that moves goes on with its call. -/
theorem exists_client_update {clients : ι → Option (Active σ ρ κ α)} (hi : clients i = some a)
    {p : Proc σ ρ α} {id : ℕ} (h : ∃ j b, clients j = some b ∧ b.id = id) :
  ∃ j b, Function.update clients i (some { a with proc := p }) j = some b ∧ b.id = id
  := by
  obtain ⟨j, b, hb, hid⟩ := h
  by_cases hj : j = i
  · subst hj
    obtain rfl := Option.some.inj (hi.symm.trans hb)
    exact ⟨j, _, Function.update_self .., hid⟩
  · exact ⟨j, b, (Function.update_of_ne hj ..).trans hb, hid⟩

/-- A call is made. -/
theorem Tracks.call (h : Tracks spec R P m₀ s order m) (hi : s.clients i = none) {c : κ}
    (hp : P s.server c (proc c))
    (hwf : State.WellFormed { s with
      clients := Function.update s.clients i (some ⟨s.history.length, c, proc c⟩)
      history := s.history ++ [.call c] }) :
  Tracks spec R P m₀
    { s with
      clients := Function.update s.clients i (some ⟨s.history.length, c, proc c⟩)
      history := s.history ++ [.call c] } order m
  where
  wellFormed := hwf
  rel := h.rel
  linearizes := h.linearizes.call c
  active := by
    intro j b hb
    rcases update_eq_some hb with ⟨-, hb⟩ | ⟨-, hb⟩
    · obtain rfl := Option.some.inj hb
      apply Progressed.waiting hp
      intro hmem
      obtain ⟨e, he, hid⟩ := List.mem_map.mp hmem
      have hlt := lt_length_of_called (h.linearizes.called e he)
      rw [hid] at hlt
      exact Nat.lt_irrefl _ hlt
    · exact h.active j b hb
  known := by
    intro e he
    rcases h.known e he with ⟨out, hret⟩ | ⟨j, b, hb, hid⟩
    · exact Or.inl ⟨out, List.mem_append_left _ hret⟩
    · have hj : j ≠ i := by
        rintro rfl
        rw [hi] at hb
        cases hb
      exact Or.inr ⟨j, b, (Function.update_of_ne hj ..).trans hb, hid⟩

/-- A call in progress goes on, and the others stay as they are. -/
theorem Tracks.goOn (h : Tracks spec R P m₀ s order m) (hi : s.clients i = some a)
    {p : Proc σ ρ α} {u : S} (hR : R u m) (hp : P u a.call p) (hnew : a.id ∉ order.map Entry.id)
    (hstays : ∀ j b, j ≠ i → s.clients j = some b → P s.server b.call b.proc → P u b.call b.proc)
    (hwf : State.WellFormed { s with
      server := u
      clients := Function.update s.clients i (some { a with proc := p }) }) :
  Tracks spec R P m₀
    { s with
      server := u
      clients := Function.update s.clients i (some { a with proc := p }) } order m
  where
  wellFormed := hwf
  rel := hR
  linearizes := h.linearizes
  active := by
    intro j b hb
    rcases update_eq_some hb with ⟨-, hb⟩ | ⟨hj, hb⟩
    · obtain rfl := Option.some.inj hb
      exact .waiting hp hnew
    · exact (h.active j b hb).stays (hstays j b hj hb)
  known := by
    intro e he
    exact (h.known e he).imp_right (exists_client_update hi)

/-- A call in progress takes effect. -/
theorem Tracks.place (h : Tracks spec R P m₀ s order m) (hi : s.clients i = some a)
    {p : Proc σ ρ α} {out : Option α} (hout : p.result = some out)
    (hallows : spec.allows m a.call out) {u : S} (hR : R u (spec.next m a.call))
    (hnew : a.id ∉ order.map Entry.id)
    (hstays : ∀ j b, j ≠ i → s.clients j = some b → P s.server b.call b.proc → P u b.call b.proc)
    (hwf : State.WellFormed { s with
      server := u
      clients := Function.update s.clients i (some { a with proc := p }) }) :
  Tracks spec R P m₀
    { s with
      server := u
      clients := Function.update s.clients i (some { a with proc := p }) }
    (order ++ [⟨a.id, a.call, out⟩]) (spec.next m a.call)
  where
  wellFormed := hwf
  rel := hR
  linearizes :=
    h.linearizes.append (h.wellFormed.called i a hi) (h.wellFormed.pending i a hi) hnew hallows
  active := by
    intro j b hb
    rcases update_eq_some hb with ⟨-, hb⟩ | ⟨hj, hb⟩
    · obtain rfl := Option.some.inj hb
      exact .placed out hout (List.mem_append_right _ List.mem_cons_self)
    · apply (h.active j b hb).append (hstays j b hj hb)
      intro hid
      exact hj (h.wellFormed.distinct j i b a hb hi hid)
  known := by
    intro e he
    rcases List.mem_append.mp he with he | he
    · exact (h.known e he).imp_right (exists_client_update hi)
    · obtain rfl := List.mem_singleton.mp he
      exact Or.inr ⟨i, _, Function.update_self .., rfl⟩

/-- A call in the order returns. -/
theorem Tracks.ret (h : Tracks spec R P m₀ s order m) (hi : s.clients i = some a) {out : Option α}
    (hmem : ⟨a.id, a.call, out⟩ ∈ order)
    (hwf : State.WellFormed { s with
      clients := Function.update s.clients i none
      history := s.history ++ [.ret a.id out] }) :
  Tracks spec R P m₀
    { s with
      clients := Function.update s.clients i none
      history := s.history ++ [.ret a.id out] } order m
  where
  wellFormed := hwf
  rel := h.rel
  linearizes := h.linearizes.ret hmem
  active := by
    intro j b hb
    rcases update_eq_some hb with ⟨-, hb⟩ | ⟨-, hb⟩
    · cases hb
    · exact h.active j b hb
  known := by
    intro e he
    rcases h.known e he with ⟨out', hret⟩ | ⟨j, b, hb, hid⟩
    · exact Or.inl ⟨out', List.mem_append_left _ hret⟩
    · by_cases hj : j = i
      · subst hj
        obtain rfl := Option.some.inj (hi.symm.trans hb)
        left
        use out
        rw [← hid]
        exact List.mem_append_right _ List.mem_cons_self
      · exact Or.inr ⟨j, b, (Function.update_of_ne hj ..).trans hb, hid⟩

/-- One step. -/
theorem Tracks.step (honce : AtOnce serve proc spec R P ok conflict)
    (h : Tracks spec R P m₀ s order m) {t : State S σ ρ κ α ι}
    (hok : ∀ c, .call c ∈ t.history → ok c) (hapart : Apart conflict t.history)
    (hstep : Stepped serve proc s t) :
  ∃ order' m', Tracks spec R P m₀ t order' m'
  := by
  have hwf := h.wellFormed.step hstep
  cases hstep with
  | call i c hi =>
      have hc : ok c := hok c (List.mem_append_right _ List.mem_cons_self)
      exact ⟨order, m, h.call hi (honce.begins _ _ hc) hwf⟩
  | serve i a q next r u hi hproc hserve =>
      cases h.active i a hi with
      | placed out hresult hmem =>
          rw [hproc] at hresult
          cases hresult
      | waiting hp hnew =>
          rw [hproc] at hp
          have hapart : Apart conflict s.history := hapart
          have hstays : ∀ j b, j ≠ i → s.clients j = some b → P s.server b.call b.proc →
              P u b.call b.proc := by
            intro j b hj hb hpb
            have hnot := hapart.not_conflict honce.symm h.wellFormed hb hi hj
            exact honce.stays _ m _ _ _ _ _ _ _ h.rel hpb hp hnot hserve
          rcases honce.serves _ m _ _ _ _ _ h.rel hp hserve with
            ⟨hp', hR⟩ | ⟨out, hout, hallows, hR⟩
          · exact ⟨order, m, h.goOn hi hR hp' hnew hstays hwf⟩
          · exact ⟨_, _, h.place hi hout hallows hR hnew hstays hwf⟩
  | ret i a out hi hout =>
      cases h.active i a hi with
      | placed out' hresult hmem =>
          obtain rfl := Option.some.inj (hout.symm.trans hresult)
          exact ⟨order, m, h.ret hi hmem hwf⟩
      | waiting hp hnew =>
          obtain ⟨hallows, hnext⟩ := honce.ends _ m _ _ _ h.rel hp hout
          -- the call takes effect as it returns, and nothing changes
          have hself : ({ s with
              server := s.server
              clients := Function.update s.clients i (some { a with proc := a.proc }) } :
                State S σ ρ κ α ι) = s := by
            rw [← hi, Function.update_eq_self]
          have hplaced := h.place hi (p := a.proc) hout hallows (hnext.symm ▸ h.rel) hnew
            (fun _ _ _ _ hpb => hpb) (by rw [hself]; exact h.wellFormed)
          rw [hself] at hplaced
          exact ⟨_, _, hplaced.ret hi (List.mem_append_right _ List.mem_cons_self) hwf⟩

/-- Calls that take effect at one query are linearizable, when calls in conflict are not under way at the
same time. -/
theorem AtOnce.linearizes (honce : AtOnce serve proc spec R P ok conflict) {s₀ : S}
    (hR : R s₀ m₀) (h : Run.Reaches (step serve proc) (start s₀) s)
    (hok : ∀ c, .call c ∈ s.history → ok c) (hapart : Apart conflict s.history) :
  ∃ order m, Linearizes spec m₀ s.history order m ∧ R s.server m
    ∧ ∀ e ∈ order, (∃ out, .ret e.id out ∈ s.history) ∨ ∃ i a, s.clients i = some a ∧ a.id = e.id
  := by
  have hinvariant : (∀ c, .call c ∈ s.history → ok c) → Apart conflict s.history →
      ∃ order m, Tracks spec R P m₀ s order m := by
    apply Run.Reaches.invariant (I := fun s => (∀ c, .call c ∈ s.history → ok c) →
      Apart conflict s.history → ∃ order m, Tracks spec R P m₀ s order m) _
      (fun _ _ => ⟨[], m₀, tracks_start hR⟩) h
    intro s l t ih hstep hok hapart
    obtain ⟨events, hevents⟩ := (stepped hstep).exists_append
    have hok' : ∀ c, .call c ∈ s.history → ok c := by
      intro c hc
      apply hok c
      rw [hevents]
      exact List.mem_append_left _ hc
    have hapart' : Apart conflict s.history := by
      rw [hevents] at hapart
      exact hapart.of_append
    obtain ⟨order, m, htracks⟩ := ih hok' hapart'
    exact htracks.step honce hok hapart (stepped hstep)
  obtain ⟨order, m, htracks⟩ := hinvariant hok hapart
  exact ⟨order, m, htracks.linearizes, htracks.rel, htracks.known⟩

end

/-! ### What was called before -/

/-- The call that is made at a place of the history. -/
def callAt (h : List (Event κ α)) (id : ℕ) : Option κ :=
  h[id]?.bind (fun
    | .call c => some c
    | .ret _ _ => none)

/-- The calls that are made before a place of the history. -/
def madeBefore (h : List (Event κ α)) (id : ℕ) : List κ :=
  (List.range id).filterMap (callAt h)

/-- None of these calls is under way at the same time as the call with the given place. -/
def ApartFrom (p : κ → Prop) (h : List (Event κ α)) (id : ℕ) : Prop :=
  ∀ j c, h[j]? = some (.call c) → p c → (j < id → Precedes h j id) ∧ (id < j → Precedes h id j)

theorem callAt_eq_some {h : List (Event κ α)} {id : ℕ} {c : κ} :
  callAt h id = some c ↔ h[id]? = some (.call c)
  := by
  rw [callAt, Option.bind_eq_some_iff]
  constructor
  · rintro ⟨e, he, hc⟩
    cases e with
    | call d => rw [he, Option.some.inj hc]
    | ret id out => cases hc
  · intro hid
    exact ⟨_, hid, rfl⟩

section

variable {spec : Spec κ α M} {m₀ m : M} {h : List (Event κ α)} {before behind : List (Entry κ α)}
  {e : Entry κ α} {p : κ → Bool}

theorem Linearizes.call_eq {order : List (Entry κ α)} (hlin : Linearizes spec m₀ h order m)
    (he : e ∈ order) {c : κ} (hc : h[e.id]? = some (.call c)) :
  e.call = c
  := by
  rw [hlin.called e he] at hc
  exact Event.call.inj (Option.some.inj hc)

/-- Which calls come before another one in the order, when they are apart from it. -/
theorem Linearizes.mem_before_iff (hlin : Linearizes spec m₀ h (before ++ e :: behind) m)
    (he : ApartFrom (p · = true) h e.id) {id : ℕ} :
  (∃ d ∈ before, p d.call = true ∧ d.id = id) ↔ id < e.id ∧ (callAt h id).any p = true
  := by
  obtain ⟨hbefore, hbehind, hacross⟩ := List.pairwise_append.mp hlin.realTime
  constructor
  · rintro ⟨d, hd, hp, rfl⟩
    have hcalled := hlin.called d (List.mem_append_left _ hd)
    refine ⟨?_, ?_⟩
    · rcases Nat.lt_trichotomy d.id e.id with hlt | heq | hlt
      · exact hlt
      · have hnodup := hlin.nodup
        rw [List.map_append, List.map_cons] at hnodup
        have hmem : d.id ∈ before.map Entry.id := List.mem_map_of_mem hd
        rw [heq] at hmem
        exact absurd (List.mem_cons_self ..) ((List.nodup_append.mp hnodup).2.2 _ hmem _ · rfl)
      · exact absurd ((he d.id d.call hcalled hp).2 hlt) (hacross d hd e List.mem_cons_self)
    · rw [callAt_eq_some.mpr hcalled]
      exact hp
  · rintro ⟨hlt, hany⟩
    obtain ⟨c, hc, hp⟩ := (Option.any_eq_true _ _).mp hany
    have hcalled := callAt_eq_some.mp hc
    have hprecedes := (he id c hcalled hp).1 hlt
    have ⟨q, out, hq, _⟩ := hprecedes
    obtain ⟨call, hmem⟩ := hlin.returned id out (List.mem_of_getElem? hq)
    obtain rfl : call = c := hlin.call_eq hmem hcalled
    rcases List.mem_append.mp hmem with hmem | hmem
    · exact ⟨_, hmem, hp, rfl⟩
    · rcases List.mem_cons.mp hmem with heq | hmem
      · rw [← heq] at hlt
        exact absurd hlt (Nat.lt_irrefl _)
      · exact absurd hprecedes (List.rel_of_pairwise_cons hbehind hmem)

/-- Calls that are apart from each other come in the order as they were made. -/
theorem Linearizes.pairwise_ids {order : List (Entry κ α)} (hlin : Linearizes spec m₀ h order m)
    (hapart : Apart (fun c d => p c = true ∧ p d = true) h) :
  ((order.filter (fun d => p d.call)).map Entry.id).Pairwise (· < ·)
  := by
  have hboth := (hlin.realTime.and (List.pairwise_map.mp hlin.nodup)).filter (fun d => p d.call)
  rw [List.pairwise_map]
  apply hboth.imp_of_mem
  rintro a b ha hb ⟨hnot, hne⟩
  obtain ⟨ha, hpa⟩ := List.mem_filter.mp ha
  obtain ⟨hb, hpb⟩ := List.mem_filter.mp hb
  rcases Nat.lt_trichotomy a.id b.id with hlt | heq | hlt
  · exact hlt
  · exact absurd heq hne
  · exact absurd (hapart _ _ _ _ hlt (hlin.called b hb) (hlin.called a ha) ⟨hpb, hpa⟩) hnot

/-- Some of the calls that are made before a place. -/
theorem filter_madeBefore (h : List (Event κ α)) (id : ℕ) (p : κ → Bool) :
  (madeBefore h id).filter p
    = ((List.range id).filter (fun j => (callAt h j).any p)).filterMap (callAt h)
  := by
  rw [madeBefore, List.filter_filterMap, List.filterMap_filter]
  apply List.filterMap_congr
  intro j _
  cases callAt h j with
  | none => rfl
  | some c => rfl

/-- Calls that are apart from each other and from another one come before it in the order as they do in
the history. -/
theorem Linearizes.filter_eq (hlin : Linearizes spec m₀ h (before ++ e :: behind) m)
    (hapart : Apart (fun c d => p c = true ∧ p d = true) h) (he : ApartFrom (p · = true) h e.id) :
  (before.map Entry.call).filter p = (madeBefore h e.id).filter p
  := by
  have hsorted : ((before.filter (fun d => p d.call)).map Entry.id).Pairwise (· < ·) := by
    have hall := hlin.pairwise_ids hapart
    rw [List.filter_append, List.map_append] at hall
    exact (List.pairwise_append.mp hall).1
  have hids : (before.filter (fun d => p d.call)).map Entry.id
      = (List.range e.id).filter (fun id => (callAt h id).any p) := by
    apply hsorted.eq_of_mem_iff (List.pairwise_lt_range.filter _)
    intro id
    rw [List.mem_map, List.mem_filter, List.mem_range, ← hlin.mem_before_iff he]
    simp only [List.mem_filter, and_assoc]
  have hcalls : ((before.filter (fun d => p d.call)).map Entry.id).filterMap (callAt h)
      = (before.filter (fun d => p d.call)).map Entry.call := by
    rw [List.filterMap_map, ← List.filterMap_eq_map]
    apply List.filterMap_congr
    intro d hd
    have hmem : d ∈ before ++ e :: behind := List.mem_append_left _ (List.mem_filter.mp hd).1
    exact callAt_eq_some.mpr (hlin.called d hmem)
  rw [filter_madeBefore, ← hids, hcalls, List.filter_map]
  rfl

end

end Concurrent
