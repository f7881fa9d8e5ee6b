import Gusher.Library.Run
import Gusher.Library.Splice
import Gusher.Request.Handlers

/-!
# Registering a handler while requests are served

Threads that look for a handler follow the list without a lock, while a thread that registers a handler
puts the new entry in front of the list, sorts an array of the entries, and writes the links of all of
them.  A step is one access to `handlers` or to the link of an entry.

Between its two writes of `handlers` a registration has the new entry in front, whatever its length is;
a lookup that starts then may miss any other entry (`lookup_missed`).  Any other lookup finds the longest
prefix, or a longer one, of those that had been registered when it started (`lookup_finds`), although it
may go through some entries again.  Registrations do not exclude each other: of two that overlap an entry
may be lost, and it is supposed that no two do.
-/

namespace Gusher

open CString LinkedList Sorting Run

/-- Where a call of `set_handler` is. -/
inductive Stage where
  | linking
  | heading
  | headed
  | counting (pt : Option ℕ) (count : ℕ)
  | counted (count : ℕ)
  | collecting (pt : Option ℕ) (count : ℕ) (list : List ℕ)
  | sorted (list : List ℕ)
  | relinking (list : List ℕ)
  deriving DecidableEq

/-- The new entry is in front of the list, which is not sorted. -/
def Stage.opened : Stage → Bool
  | .headed | .counting _ _ | .counted _ | .collecting _ _ _ | .sorted _ => true
  | _ => false

/-- A thread: between its calls, in `find_handler`, or in `set_handler` with the entry at `a`. -/
inductive Routine where
  | idle
  | looking (spath : List UInt8) (pt : Option ℕ)
  | found (spath : List UInt8) (pair : Option (Scm × List UInt8))
  | registering (a : ℕ) (stage : Stage)
  deriving DecidableEq

namespace Routine

/-- The thread may start a call. -/
def free : Routine → Bool
  | .idle | .found _ _ => true
  | _ => false

def registers : Routine → Bool
  | .registering _ _ => true
  | _ => false

/-- The entry that is being registered. -/
def cell : Routine → Option ℕ
  | .registering a _ => some a
  | _ => none

/-- The thread is between its two writes of `handlers`. -/
def opened : Routine → Bool
  | .registering _ stage => stage.opened
  | _ => false

end Routine

/-- The list of handlers and the threads. -/
structure Routing (τ : Type*) where
  handlers : Handlers
  threads : τ → Routine

/-- A call is started, or a thread goes on. -/
inductive RoutingAction (τ : Type*) where
  | find (t : τ) (spath : List UInt8)
  | register (t : τ) (e : HandlerEntry)
  | advance (t : τ)

/-- A thread starts a call. -/
def RoutingAction.calls {τ : Type*} [DecidableEq τ] (t : τ) : RoutingAction τ → Bool
  | .find t' _ | .register t' _ => t' = t
  | .advance _ => false

section

variable (qsort : (ℕ → ℕ → ℤ) → List ℕ → List ℕ)

/-- A step of `set_handler`. -/
def Handlers.registerStep (h : Handlers) (a : ℕ) : Stage → Option (Handlers × Routine)
  | .linking => some ({ h with link := Function.update h.link a h.head }, .registering a .heading)
  | .heading => some ({ h with head := some a }, .registering a .headed)
  | .headed => some (h, .registering a (.counting h.head 0))
  | .counting (some p) count =>
      if count + 1 < 2 ^ 31 then some (h, .registering a (.counting (h.link p) (count + 1))) else none
  | .counting none count => some (h, .registering a (.counted count))
  | .counted count => some (h, .registering a (.collecting h.head count []))
  | .collecting (some p) count list =>
      if list.length < count then
        some (h, .registering a (.collecting (h.link p) count (list ++ [p])))
      else none
  | .collecting none count list =>
      if list.length = count then some (h, .registering a (.sorted (qsort h.sorter list))) else none
  | .sorted [] => none
  | .sorted (b :: list) => some ({ h with head := some b }, .registering a (.relinking (b :: list)))
  | .relinking (b :: list) =>
      some ({ h with link := Function.update h.link b list.head? }, .registering a (.relinking list))
  | .relinking [] => some (h, .idle)

/-- A step of `find_handler`. -/
def Handlers.lookupStep (h : Handlers) (spath : List UInt8) : Option ℕ → Option Routine
  | none => some (.found spath none)
  | some p =>
      if startsPath spath (h.entry p) then
        (handlerPair (h.entry p) spath).map (fun pair => .found spath (some pair))
      else some (.looking spath (h.link p))

namespace Routing

variable {τ : Type*} [DecidableEq τ]

def initial : Routing τ where
  handlers := .empty
  threads _ := .idle

/-- A step of a thread. -/
def advance (s : Routing τ) (t : τ) : Option (Routing τ) :=
  match s.threads t with
  | .looking spath pt =>
      (s.handlers.lookupStep spath pt).map (fun r =>
        { s with threads := Function.update s.threads t r })
  | .registering a stage =>
      (s.handlers.registerStep qsort a stage).map (fun (h, r) =>
        { handlers := h, threads := Function.update s.threads t r })
  | _ => none

/-- A step; `none` when the action is not possible, and for undefined behaviour. -/
def step (s : Routing τ) : RoutingAction τ → Option (Routing τ)
  | .find t spath =>
      if (s.threads t).free then
        some { s with threads := Function.update s.threads t (.looking spath s.handlers.head) }
      else none
  | .register t e =>
      if (s.threads t).free then
        some
          { handlers := { s.handlers with entries := s.handlers.entries ++ [e] }
            threads := Function.update s.threads t (.registering s.handlers.entries.length .linking) }
      else none
  | .advance t => s.advance qsort t

/-- No registration is under way. -/
def Quiet (s : Routing τ) : Prop :=
  ∀ t, (s.threads t).registers = false

/-- No registration is between its two writes of `handlers`. -/
def Closed (s : Routing τ) : Prop :=
  ∀ t, (s.threads t).opened = false

/-- What is supposed of a step: no registration starts while another is under way, the length of a path
is an `int`, and a sort leaves the other entries in their order. -/
def Orderly (s : Routing τ) : RoutingAction τ → Prop
  | .find _ _ => True
  | .register _ e => s.Quiet ∧ e.path.length < 2 ^ 31
  | .advance t =>
      match s.threads t with
      | .registering _ (.collecting none _ (b :: list)) =>
          list.Sublist (qsort s.handlers.sorter (b :: list))
      | _ => True

instance decidableQuiet {n : ℕ} (s : Routing (Fin n)) : Decidable s.Quiet :=
  inferInstanceAs (Decidable (∀ t, (s.threads t).registers = false))

instance decidableClosed {n : ℕ} (s : Routing (Fin n)) : Decidable s.Closed :=
  inferInstanceAs (Decidable (∀ t, (s.threads t).opened = false))

instance decidableOrderly {n : ℕ} (s : Routing (Fin n)) : ∀ act, Decidable (s.Orderly qsort act)
  | .find _ _ => isTrue trivial
  | .register _ e => inferInstanceAs (Decidable (s.Quiet ∧ e.path.length < 2 ^ 31))
  | .advance t =>
      match h : s.threads t with
      | .registering _ (.collecting none _ (b :: list)) =>
          decidable_of_iff (list.Sublist (qsort s.handlers.sorter (b :: list))) (by simp [Orderly, h])
      | .registering _ (.collecting none _ []) | .registering _ (.collecting (some _) _ _)
      | .registering _ .linking | .registering _ .heading | .registering _ .headed
      | .registering _ (.counting _ _) | .registering _ (.counted _) | .registering _ (.sorted _)
      | .registering _ (.relinking _) | .idle | .looking _ _ | .found _ _ =>
          isTrue (by simp [Orderly, h])

/-- The entry at `a` is there, and its registration has returned. -/
def Registered (s : Routing τ) (a : ℕ) : Prop :=
  a < s.handlers.entries.length ∧ ∀ t, (s.threads t).cell ≠ some a

instance decidableRegistered {n : ℕ} (s : Routing (Fin n)) (a : ℕ) : Decidable (s.Registered a) :=
  inferInstanceAs (Decidable (_ ∧ ∀ t, (s.threads t).cell ≠ some a))

end Routing

end

/-! ### The list during a registration -/

/-- The longest paths are first. -/
def Handlers.Ordered (h : Handlers) (l : List ℕ) : Prop :=
  l.Pairwise (fun a b => (h.entry b).path.length ≤ (h.entry a).path.length)

/-- The new entry `a` is in front of the list `l`. -/
structure Handlers.InFront (h : Handlers) (a : ℕ) (l : List ℕ) : Prop where
  head : h.head = some a
  link : h.link a = l.head?
  linked : Linked h.link l.head? l

/-- What holds at a stage of the registration of `a`, when the list was `l`; `target` is the list that
readers see. -/
def Stage.Holds (h : Handlers) (a : ℕ) (l target : List ℕ) : Stage → Prop
  | .linking => target = l ∧ Linked h.link h.head l
  | .heading => target = l ∧ Linked h.link h.head l ∧ h.link a = h.head
  | .headed | .counting _ _ | .counted _ => target = l ∧ h.InFront a l
  | .collecting pt _ list => target = l ∧ h.InFront a l ∧ ∃ v, a :: l = list ++ v ∧ pt = v.head?
  | .sorted list =>
      target = l ∧ h.InFront a l ∧ ∃ l₁ l₂, l = l₁ ++ l₂ ∧ list = l₁ ++ a :: l₂ ∧ h.Ordered list
  | .relinking rest =>
      ∃ l₁ l₂, l = l₁ ++ l₂ ∧ target = l₁ ++ a :: l₂ ∧ h.Ordered target ∧ h.head = target.head? ∧
        Splice h.link l₁ a l₂ rest

namespace Routing

variable {τ : Type*}

/-- The cells that have been registered are `l`, and readers see `target`. -/
structure Holds (s : Routing τ) (l target : List ℕ) : Prop where
  short : ∀ e ∈ s.handlers.entries, e.path.length < 2 ^ 31
  ordered : s.handlers.Ordered l
  arranged :
    (s.Quiet ∧ Linked s.handlers.link s.handlers.head l ∧ target = l ∧
      l.Perm (List.range s.handlers.entries.length)) ∨
    ∃ t a stage, s.threads t = .registering a stage ∧
      (∀ t', t' ≠ t → (s.threads t').registers = false) ∧
      s.handlers.entries.length = a + 1 ∧ l.Perm (List.range a) ∧ stage.Holds s.handlers a l target

end Routing

/-! ### A step of a registration -/

theorem Handlers.entry_append {h h' : Handlers} (hbegin : h.entries <+: h'.entries) {a : ℕ}
    (ha : a < h.entries.length) :
  h'.entry a = h.entry a
  := by
  obtain ⟨es, hes⟩ := hbegin
  rw [Handlers.entry, Handlers.entry, ← hes, List.getElem?_append_left ha]

theorem Handlers.Ordered.append {h h' : Handlers} {l : List ℕ} (hordered : h.Ordered l)
    (hbegin : h.entries <+: h'.entries) (hl : ∀ a ∈ l, a < h.entries.length) :
  h'.Ordered l
  := by
  apply hordered.imp_of_mem
  intro a b ha hb hab
  rwa [entry_append hbegin (hl a ha), entry_append hbegin (hl b hb)]

/-- What is left after the sort of the array. -/
theorem Handlers.exists_sorted {h : Handlers} {qsort : (ℕ → ℕ → ℤ) → List ℕ → List ℕ}
    (hqsort : ∀ cmp l, QSort cmp l (qsort cmp l)) (hshort : ∀ e ∈ h.entries, e.path.length < 2 ^ 31)
    {a : ℕ} {l : List ℕ} (hkept : l.Sublist (qsort h.sorter (a :: l))) :
  ∃ l₁ l₂, l = l₁ ++ l₂ ∧ qsort h.sorter (a :: l) = l₁ ++ a :: l₂ ∧
    h.Ordered (qsort h.sorter (a :: l))
  := by
  have hq := hqsort h.sorter (a :: l)
  obtain ⟨l₁, l₂, hl, hlist⟩ := exists_insert hq.perm hkept
  refine ⟨l₁, l₂, hl, hlist, ?_⟩
  apply (hq.sorted (consistent_of_measure (sorter_eq hshort))).imp
  intro x y hxy
  rw [sorter_eq hshort] at hxy
  omega

/-- What is left to be read of one list is also left to be read of another. -/
def Keeps (target target' : List ℕ) : Prop :=
  ∀ pt v, At target pt v → ∃ v', At target' pt v' ∧ v ⊆ v'

theorem keeps_refl (target : List ℕ) :
  Keeps target target
  := fun _ v hv => ⟨v, hv, List.Subset.refl v⟩

/-- A step of a registration: it goes on, and readers miss nothing; or it is at its end. -/
theorem Stage.Holds.step {h h' : Handlers} {qsort : (ℕ → ℕ → ℤ) → List ℕ → List ℕ}
    (hqsort : ∀ cmp l, QSort cmp l (qsort cmp l)) (hshort : ∀ e ∈ h.entries, e.path.length < 2 ^ 31)
    {a : ℕ} {l target : List ℕ} {stage : Stage} {r : Routine} (hholds : stage.Holds h a l target)
    (hnodup : (a :: l).Nodup)
    (hkept : ∀ count b list, stage = .collecting none count (b :: list) →
      list.Sublist (qsort h.sorter (b :: list)))
    (hstep : h.registerStep qsort a stage = some (h', r)) :
  h'.entries = h.entries ∧
    ((∃ stage' target', r = .registering a stage' ∧ stage'.Holds h' a l target' ∧
        Keeps target target') ∨
      r = .idle ∧ Linked h'.link h'.head target ∧ h'.Ordered target ∧ target.Perm (a :: l))
  := by
  have ha : a ∉ l := (List.nodup_cons.mp hnodup).1
  revert hstep
  fun_cases Handlers.registerStep qsort h a stage
  case case1 =>
      rintro ⟨⟩
      obtain ⟨rfl, hlinked⟩ := hholds
      refine ⟨rfl, Or.inl ⟨.heading, _, rfl, ⟨rfl, ?_, ?_⟩, keeps_refl _⟩⟩
      · exact hlinked.update ha _
      · exact Function.update_self ..
  case case2 =>
      rintro ⟨⟩
      obtain ⟨rfl, hlinked, hlink⟩ := hholds
      refine ⟨rfl, Or.inl ⟨.headed, _, rfl, ⟨rfl, rfl, ?_, ?_⟩, keeps_refl _⟩⟩
      · rw [hlink, hlinked.eq_head?]
      · rwa [← hlinked.eq_head?]
  case case3 =>
      rintro ⟨⟩
      exact ⟨rfl, Or.inl ⟨_, _, rfl, hholds, keeps_refl _⟩⟩
  case case4 =>
      rintro ⟨⟩
      exact ⟨rfl, Or.inl ⟨_, _, rfl, hholds, keeps_refl _⟩⟩
  case case5 => rintro ⟨⟩
  case case6 =>
      rintro ⟨⟩
      exact ⟨rfl, Or.inl ⟨_, _, rfl, hholds, keeps_refl _⟩⟩
  case case7 count =>
      rintro ⟨⟩
      obtain ⟨rfl, hfront⟩ := hholds
      exact ⟨rfl, Or.inl ⟨_, _, rfl, ⟨rfl, hfront, a :: target, rfl, hfront.head⟩, keeps_refl _⟩⟩
  case case8 p count list _ =>
      rintro ⟨⟩
      obtain ⟨rfl, hfront, v, hv, hp⟩ := hholds
      refine ⟨rfl, Or.inl ⟨_, _, rfl, ⟨rfl, hfront, v.tail, ?_, ?_⟩, keeps_refl _⟩⟩
      · cases v with
        | nil => cases hp
        | cons q v =>
            obtain rfl := Option.some.inj hp
            simpa using hv
      · -- the cells behind the new one are linked as before
        have hlinked : Linked h.link (some a) (a :: target) := by
          use rfl
          rw [hfront.link]
          exact hfront.linked
        have hsuffix := hlinked.suffix ⟨list, hv.symm⟩
        rw [← hp] at hsuffix
        obtain ⟨v', rfl, hnext⟩ := hsuffix.of_some
        exact hnext.eq_head?
  case case9 => rintro ⟨⟩
  case case10 list =>
      rintro ⟨⟩
      obtain ⟨rfl, hfront, v, hv, hp⟩ := hholds
      obtain rfl : v = [] := List.head?_eq_none_iff.mp hp.symm
      rw [List.append_nil] at hv
      subst hv
      obtain ⟨l₁, l₂, hl, hlist, hordered⟩ :=
        Handlers.exists_sorted hqsort hshort (hkept _ a target rfl)
      exact ⟨rfl, Or.inl ⟨_, _, rfl, ⟨rfl, hfront, l₁, l₂, hl, hlist, hordered⟩, keeps_refl _⟩⟩
  case case11 => rintro ⟨⟩
  case case12 => rintro ⟨⟩
  case case13 b list =>
      rintro ⟨⟩
      obtain ⟨rfl, hfront, l₁, l₂, rfl, hlist, hordered⟩ := hholds
      have hperm : (l₁ ++ a :: l₂).Nodup := List.nodup_middle.mpr hnodup
      refine ⟨rfl, Or.inl ⟨_, l₁ ++ a :: l₂, rfl, ⟨l₁, l₂, rfl, rfl, ?_, ?_, ?_⟩, ?_⟩⟩
      · rwa [← hlist]
      · rw [← hlist]
        rfl
      · rw [hlist]
        exact hfront.linked.splice hfront.link hperm
      · intro pt v hv
        exact hv.insert
  case case14 b list =>
      rintro ⟨⟩
      obtain ⟨l₁, l₂, rfl, rfl, hordered, hhead, hsplice⟩ := hholds
      exact ⟨rfl, Or.inl ⟨_, _, rfl, ⟨l₁, l₂, rfl, rfl, hordered, hhead, hsplice.write⟩, keeps_refl _⟩⟩
  case case15 =>
      rintro ⟨⟩
      obtain ⟨l₁, l₂, rfl, rfl, hordered, hhead, hsplice⟩ := hholds
      refine ⟨rfl, Or.inr ⟨rfl, ?_, hordered, List.perm_middle⟩⟩
      rw [hhead]
      exact hsplice.linked

/-! ### A step of the threads -/

namespace Routing

variable {τ : Type*} [DecidableEq τ] {qsort : (ℕ → ℕ → ℤ) → List ℕ → List ℕ} {s u : Routing τ}
  {l target : List ℕ} {t : τ} {act : RoutingAction τ}

omit [DecidableEq τ] in
theorem Holds.lt_length (h : s.Holds l target) {a : ℕ} (ha : a ∈ l) :
  a < s.handlers.entries.length
  := by
  obtain ⟨-, -, -, hperm⟩ | ⟨_, b, _, -, -, hlen, hperm, -⟩ := h.arranged
  · exact List.mem_range.mp (hperm.mem_iff.mp ha)
  · have hlt := List.mem_range.mp (hperm.mem_iff.mp ha)
    omega

/-- A thread that does not register a handler moves. -/
theorem Holds.move (h : s.Holds l target) {r : Routine} (ht : (s.threads t).registers = false)
    (hr : r.registers = false) :
  Holds { s with threads := Function.update s.threads t r } l target
  where
  short := h.short
  ordered := h.ordered
  arranged := by
    have hkept : ∀ t', (s.threads t').registers = false →
        (Function.update s.threads t r t').registers = false := by
      intro t' ht'
      by_cases heq : t' = t
      · rw [heq, Function.update_self]
        exact hr
      · rwa [Function.update_of_ne heq]
    obtain ⟨hquiet, hrest⟩ | ⟨t₀, a, stage, ht₀, hothers, hrest⟩ := h.arranged
    · exact Or.inl ⟨fun t' => hkept t' (hquiet t'), hrest⟩
    · right
      have hne : t₀ ≠ t := by
        rintro rfl
        rw [ht₀] at ht
        cases ht
      refine ⟨t₀, a, stage, ?_, fun t' ht' => hkept t' (hothers t' ht'), hrest⟩
      exact (Function.update_of_ne hne _ _).trans ht₀

/-- A step of a registration. -/
theorem Holds.registering (hqsort : ∀ cmp l, QSort cmp l (qsort cmp l)) (h : s.Holds l target)
    {a : ℕ} {stage : Stage} (ht : s.threads t = .registering a stage)
    (hkept : s.Orderly qsort (.advance t)) {h' : Handlers} {r : Routine}
    (hstep : s.handlers.registerStep qsort a stage = some (h', r)) :
  ∃ l' target', Holds ⟨h', Function.update s.threads t r⟩ l' target' ∧ l ⊆ l' ∧ Keeps target target' ∧
    h'.entries = s.handlers.entries
  := by
  obtain ⟨hquiet, -⟩ | ⟨t₀, a₀, stage₀, ht₀, hothers, hlen, hperm, hholds⟩ := h.arranged
  · have hnot := hquiet t
    rw [ht] at hnot
    cases hnot
  have htt : t = t₀ := by
    by_contra hne
    have hnot := hothers t hne
    rw [ht] at hnot
    cases hnot
  obtain rfl := htt
  rw [ht] at ht₀
  obtain ⟨rfl, rfl⟩ := Routine.registering.inj ht₀
  have hcells : (a :: l).Perm (List.range (a + 1)) := by
    rw [List.range_succ]
    exact (hperm.cons a).trans (List.perm_append_singleton a _).symm
  obtain ⟨hentries, hgo⟩ := hholds.step hqsort h.short (hcells.nodup_iff.mpr List.nodup_range)
    (by
      rintro count b list rfl
      rw [Orderly, ht] at hkept
      exact hkept) hstep
  have hbegin : s.handlers.entries <+: h'.entries := by rw [hentries]
  have hshort : ∀ e ∈ h'.entries, e.path.length < 2 ^ 31 := by
    rw [hentries]
    exact h.short
  have hquiet : ∀ t', t' ≠ t → (Function.update s.threads t r t').registers = false := by
    intro t' hne
    rw [Function.update_of_ne hne]
    exact hothers t' hne
  obtain ⟨stage', target', rfl, hholds', hkeeps⟩ | ⟨rfl, hlinked, hordered, htarget⟩ := hgo
  · refine ⟨l, target', ⟨hshort, ?_, ?_⟩, List.Subset.refl l, hkeeps, hentries⟩
    · exact h.ordered.append hbegin (fun b hb => h.lt_length hb)
    · refine Or.inr ⟨t, a, stage', Function.update_self .., hquiet, ?_, hperm, hholds'⟩
      rw [hentries]
      exact hlen
  · refine ⟨target, target, ⟨hshort, hordered, ?_⟩, ?_, keeps_refl target, hentries⟩
    · refine Or.inl ⟨?_, hlinked, rfl, ?_⟩
      · intro t'
        by_cases heq : t' = t
        · rw [heq]
          simp only [Function.update_self]
          rfl
        · exact hquiet t' heq
      · simp only [hentries, hlen]
        exact htarget.trans hcells
    · exact fun b hb => htarget.symm.subset (List.mem_cons_of_mem a hb)

/-- **A step**: the cells that have been registered stay registered, and readers miss nothing. -/
theorem Holds.step (hqsort : ∀ cmp l, QSort cmp l (qsort cmp l)) (h : s.Holds l target)
    (horderly : s.Orderly qsort act) (hstep : s.step qsort act = some u) :
  ∃ l' target', u.Holds l' target' ∧ l ⊆ l' ∧ Keeps target target' ∧
    s.handlers.entries <+: u.handlers.entries
  := by
  cases act with
  | find t spath =>
      rw [Routing.step, Option.ite_none_right_eq_some] at hstep
      obtain ⟨hfree, hu⟩ := hstep
      obtain rfl := Option.some.inj hu
      have ht : (s.threads t).registers = false := by
        cases hr : s.threads t with
        | registering a stage =>
            rw [hr] at hfree
            cases hfree
        | _ => rfl
      exact ⟨l, target, h.move ht rfl, List.Subset.refl l, keeps_refl target, List.prefix_rfl⟩
  | register t e =>
      obtain ⟨hquiet, he⟩ := horderly
      rw [Routing.step, Option.ite_none_right_eq_some] at hstep
      obtain ⟨-, hu⟩ := hstep
      obtain rfl := Option.some.inj hu
      have hbegin : s.handlers.entries <+: s.handlers.entries ++ [e] := List.prefix_append _ _
      obtain ⟨-, hlinked, rfl, hperm⟩ | ⟨t₀, a, stage, ht₀, -⟩ := h.arranged
      · refine ⟨target, target, ⟨?_, ?_, ?_⟩, List.Subset.refl target, keeps_refl target, hbegin⟩
        · intro e' he'
          rcases List.mem_append.mp he' with he' | he'
          · exact h.short e' he'
          · rw [List.mem_singleton.mp he']
            exact he
        · exact h.ordered.append hbegin (fun b hb => h.lt_length hb)
        · refine Or.inr ⟨t, _, .linking, Function.update_self .., ?_, ?_, hperm, rfl, hlinked⟩
          · intro t' hne
            simp only [Function.update_of_ne hne]
            exact hquiet t'
          · simp
      · have hnot := hquiet t₀
        rw [ht₀] at hnot
        cases hnot
  | advance t =>
      rw [Routing.step, advance] at hstep
      cases ht : s.threads t with
      | looking spath pt =>
          rw [ht] at hstep
          obtain ⟨r, hr, rfl⟩ := Option.map_eq_some_iff.mp hstep
          have hnot : r.registers = false := by
            revert hr
            fun_cases Handlers.lookupStep s.handlers spath pt
            · rintro ⟨⟩
              rfl
            · intro hr
              obtain ⟨pair, -, rfl⟩ := Option.map_eq_some_iff.mp hr
              rfl
            · rintro ⟨⟩
              rfl
          refine ⟨l, target, h.move ?_ hnot, List.Subset.refl l, keeps_refl target, List.prefix_rfl⟩
          rw [ht]
          rfl
      | registering a stage =>
          rw [ht] at hstep
          obtain ⟨⟨h', r⟩, hr, rfl⟩ := Option.map_eq_some_iff.mp hstep
          obtain ⟨l', target', hholds, hsub, hkeeps, hentries⟩ := h.registering hqsort ht horderly hr
          refine ⟨l', target', hholds, hsub, hkeeps, ?_⟩
          simp only [hentries, List.prefix_rfl]
      | idle =>
          rw [ht] at hstep
          cases hstep
      | found spath pair =>
          rw [ht] at hstep
          cases hstep

/-! ### A lookup -/

omit [DecidableEq τ] in
/-- The list that readers see: it has each registered cell, and the longest paths are first. -/
theorem Holds.seen (h : s.Holds l target) :
  l ⊆ target ∧ s.handlers.Ordered target ∧ ∀ a ∈ target, a < s.handlers.entries.length
  := by
  have hself : l ⊆ l ∧ s.handlers.Ordered l ∧ ∀ a ∈ l, a < s.handlers.entries.length :=
    ⟨List.Subset.refl l, h.ordered, fun a ha => h.lt_length ha⟩
  obtain ⟨-, -, rfl, -⟩ | ⟨t, a, stage, -, -, hlen, -, hholds⟩ := h.arranged
  · exact hself
  cases stage with
  | relinking rest =>
      obtain ⟨l₁, l₂, rfl, rfl, hordered, -⟩ := hholds
      have hperm : (l₁ ++ a :: l₂).Perm (a :: (l₁ ++ l₂)) := List.perm_middle
      refine ⟨fun b hb => hperm.symm.subset (List.mem_cons_of_mem a hb), hordered, ?_⟩
      intro b hb
      rcases List.mem_cons.mp (hperm.subset hb) with rfl | hb
      · omega
      · exact h.lt_length hb
  | _ =>
      obtain rfl := hholds.1
      exact hself

omit [DecidableEq τ] in
/-- A lookup that starts while `handlers` is the start of a sorted list has that list before it. -/
theorem Holds.at_head (h : s.Holds l target) (hclosed : s.Closed) :
  At target s.handlers.head target
  := by
  obtain ⟨-, hlinked, rfl, -⟩ | ⟨t, a, stage, ht, -, -, -, hholds⟩ := h.arranged
  · rw [hlinked.eq_head?]
    exact LinkedList.at_head
  have hopened := hclosed t
  rw [ht] at hopened
  cases stage with
  | linking =>
      obtain ⟨rfl, hlinked⟩ := hholds
      rw [hlinked.eq_head?]
      exact LinkedList.at_head
  | heading =>
      obtain ⟨rfl, hlinked, -⟩ := hholds
      rw [hlinked.eq_head?]
      exact LinkedList.at_head
  | relinking rest =>
      obtain ⟨l₁, l₂, -, rfl, -, hhead, -⟩ := hholds
      rw [hhead]
      exact LinkedList.at_head
  | _ => cases hopened

omit [DecidableEq τ] in
/-- A reader that follows a link misses no registered cell. -/
theorem Holds.next (h : s.Holds l target) {p : ℕ} {v : List ℕ} (hv : At target (some p) v) :
  ∃ v', At target (s.handlers.link p) v' ∧ ∀ m ∈ v, m ∈ l → m ≠ p → m ∈ v'
  := by
  have hp : p ∈ target := by
    apply hv.suffix.mem
    apply List.mem_of_mem_head?
    rw [← hv.head, Option.mem_some_iff]
  have hplain : ∀ q, Linked s.handlers.link q target → target.Nodup →
      ∃ v', At target (s.handlers.link p) v' ∧ ∀ m ∈ v, m ∈ l → m ≠ p → m ∈ v' := by
    intro q hlinked hnodup
    obtain ⟨v', rfl, hv'⟩ := hv.follow hnodup (hlinked.follows hp)
    exact ⟨v', hv', fun m hm _ hne => (List.mem_cons.mp hm).resolve_left hne⟩
  obtain ⟨-, hlinked, rfl, hperm⟩ | ⟨t, a, stage, -, -, -, hperm, hholds⟩ := h.arranged
  · exact hplain _ hlinked (hperm.nodup_iff.mpr List.nodup_range)
  have hnodup : l.Nodup := hperm.nodup_iff.mpr List.nodup_range
  have ha : a ∉ l := by
    rw [hperm.mem_iff, List.mem_range]
    exact Nat.lt_irrefl a
  cases stage with
  | linking =>
      obtain ⟨rfl, hlinked⟩ := hholds
      exact hplain _ hlinked hnodup
  | heading =>
      obtain ⟨rfl, hlinked, -⟩ := hholds
      exact hplain _ hlinked hnodup
  | relinking rest =>
      obtain ⟨l₁, l₂, rfl, rfl, -, -, hsplice⟩ := hholds
      obtain ⟨v', hv', hkept⟩ := hsplice.exists_suffix hv
      refine ⟨v', hv', ?_⟩
      intro m hm hml hne
      apply hkept m hm hne
      rintro rfl
      exact ha hml
  | collecting pt count list | sorted list =>
      obtain ⟨rfl, hfront, -⟩ := hholds
      exact hplain _ hfront.linked hnodup
  | _ =>
      obtain ⟨rfl, hfront⟩ := hholds
      exact hplain _ hfront.linked hnodup

/-- What is found is the entry of a prefix, and none of the entries at `K` has a longer path. -/
def Answers (h : Handlers) (spath : List UInt8) (K : ℕ → Prop)
    (pair : Option (Scm × List UInt8)) : Prop :=
  (pair = none ∧ ∀ m, ¬ K m) ∨
    ∃ best ∈ h.entries, best.path <+: spath ∧
      pair = some (best.handler, spath.drop best.path.length) ∧
      ∀ m, K m → (h.entry m).path.length ≤ best.path.length

/-- The thread `t` looks for the path, and the cells `K`, all of which match, are before it; or it has
found an answer. -/
structure Sees (s : Routing τ) (t : τ) (spath : List UInt8) (K : ℕ → Prop) (l target : List ℕ) : Prop where
  holds : s.Holds l target
  known : ∀ m, K m → m ∈ l ∧ (s.handlers.entry m).path <+: spath
  thread : (∃ pt v, s.threads t = .looking spath pt ∧ At target pt v ∧ ∀ m, K m → m ∈ v) ∨
    ∃ pair, s.threads t = .found spath pair ∧ Answers s.handlers spath K pair

variable {spath : List UInt8} {K : ℕ → Prop}

/-- A step of the thread that looks for the path. -/
theorem Sees.advance (h : s.Sees t spath K l target) (hstep : s.advance qsort t = some u) :
  ∃ l' target', u.Sees t spath K l' target'
  := by
  rw [Routing.advance] at hstep
  obtain ⟨pt, v, ht, hv, hK⟩ | ⟨pair, ht, -⟩ := h.thread
  case inr =>
    rw [ht] at hstep
    cases hstep
  rw [ht] at hstep
  obtain ⟨r, hr, rfl⟩ := Option.map_eq_some_iff.mp hstep
  have hmove : ∀ r : Routine, r.registers = false →
      Holds { s with threads := Function.update s.threads t r } l target := by
    intro r hr
    apply h.holds.move _ hr
    rw [ht]
    rfl
  use l, target
  cases pt with
  | none =>
      obtain rfl := Option.some.inj hr
      refine ⟨hmove _ rfl, h.known, Or.inr ⟨none, Function.update_self .., Or.inl ⟨rfl, ?_⟩⟩⟩
      intro m hm
      have hmem := hK m hm
      rw [List.head?_eq_none_iff.mp hv.head.symm] at hmem
      cases hmem
  | some p =>
      obtain ⟨-, hordered, hcells⟩ := h.holds.seen
      have hp : p ∈ v := by
        apply List.mem_of_mem_head?
        rw [← hv.head, Option.mem_some_iff]
      have hentry : s.handlers.entry p ∈ s.handlers.entries := by
        have hlt := hcells p (hv.suffix.mem hp)
        rw [Handlers.entry, List.getElem?_eq_getElem hlt]
        exact List.getElem_mem hlt
      have hshort := h.holds.short _ hentry
      rw [Handlers.lookupStep] at hr
      split at hr
      case isTrue hstarts =>
          have hint : Handlers.intLength (s.handlers.entry p).path = (s.handlers.entry p).path.length :=
            (bmod_natCast_eq_iff _).mpr hshort
          rw [Handlers.handlerPair, hint, if_pos (Int.natCast_nonneg _)] at hr
          obtain rfl := Option.some.inj hr
          refine ⟨hmove _ rfl, h.known, Or.inr ⟨_, Function.update_self .., Or.inr ⟨_, hentry, ?_, ?_, ?_⟩⟩⟩
          · exact (Handlers.startsPath_iff hshort).mp hstarts
          · rfl
          · -- what is behind the cell is not longer
            intro m hm
            have hpairwise := hordered.sublist hv.suffix.sublist
            have hhead := hv.head
            have hmem := hK m hm
            cases v with
            | nil => cases hhead
            | cons q v =>
                obtain rfl := Option.some.inj hhead
                rcases List.mem_cons.mp hmem with rfl | hmem
                · exact Nat.le_refl _
                · exact (List.pairwise_cons.mp hpairwise).1 m hmem
      case isFalse hstarts =>
          obtain rfl := Option.some.inj hr
          obtain ⟨v', hv', hkept⟩ := h.holds.next hv
          refine ⟨hmove _ rfl, h.known, Or.inl ⟨_, v', Function.update_self .., hv', ?_⟩⟩
          intro m hm
          obtain ⟨hml, hmatch⟩ := h.known m hm
          apply hkept m (hK m hm) hml
          rintro rfl
          exact hstarts ((Handlers.startsPath_iff hshort).mpr hmatch)

/-- A step of another thread leaves this one where it is. -/
theorem step_threads (hstep : s.step qsort act = some u) (hcalls : act.calls t = false)
    (hadvance : act ≠ .advance t) :
  u.threads t = s.threads t
  := by
  cases act with
  | find t' spath =>
      rw [Routing.step, Option.ite_none_right_eq_some] at hstep
      obtain rfl := Option.some.inj hstep.2
      apply Function.update_of_ne
      rintro rfl
      simp [RoutingAction.calls] at hcalls
  | register t' e =>
      rw [Routing.step, Option.ite_none_right_eq_some] at hstep
      obtain rfl := Option.some.inj hstep.2
      apply Function.update_of_ne
      rintro rfl
      simp [RoutingAction.calls] at hcalls
  | advance t' =>
      have hne : t ≠ t' := fun heq => hadvance (congrArg RoutingAction.advance heq.symm)
      rw [Routing.step, Routing.advance] at hstep
      split at hstep
      · obtain ⟨r, -, rfl⟩ := Option.map_eq_some_iff.mp hstep
        exact Function.update_of_ne hne _ _
      · obtain ⟨r, -, rfl⟩ := Option.map_eq_some_iff.mp hstep
        exact Function.update_of_ne hne _ _
      · cases hstep

/-- Any step. -/
theorem Sees.step (hqsort : ∀ cmp l, QSort cmp l (qsort cmp l)) (h : s.Sees t spath K l target)
    (horderly : s.Orderly qsort act) (hcalls : act.calls t = false)
    (hstep : s.step qsort act = some u) :
  ∃ l' target', u.Sees t spath K l' target'
  := by
  by_cases hadvance : act = .advance t
  · obtain rfl := hadvance
    exact h.advance hstep
  obtain ⟨l', target', hholds, hsub, hkeeps, hbegin⟩ := h.holds.step hqsort horderly hstep
  have ht := step_threads hstep hcalls hadvance
  have hentry : ∀ m, K m → u.handlers.entry m = s.handlers.entry m :=
    fun m hm => Handlers.entry_append hbegin (h.holds.lt_length (h.known m hm).1)
  refine ⟨l', target', hholds, ?_, ?_⟩
  · intro m hm
    rw [hentry m hm]
    exact ⟨hsub (h.known m hm).1, (h.known m hm).2⟩
  rw [ht]
  obtain ⟨pt, v, hpt, hv, hK⟩ | ⟨pair, hpair, hanswer⟩ := h.thread
  · obtain ⟨v', hv', hvv⟩ := hkeeps pt v hv
    exact Or.inl ⟨pt, v', hpt, hv', fun m hm => hvv (hK m hm)⟩
  · refine Or.inr ⟨pair, hpair, ?_⟩
    obtain hnone | ⟨best, hbest, hpath, hpair, hlongest⟩ := hanswer
    · exact Or.inl hnone
    · refine Or.inr ⟨best, hbegin.subset hbest, hpath, hpair, ?_⟩
      intro m hm
      rw [hentry m hm]
      exact hlongest m hm

omit [DecidableEq τ] in
theorem holds_initial :
  (initial : Routing τ).Holds [] []
  where
  short := by nofun
  ordered := List.Pairwise.nil
  arranged := Or.inl ⟨fun _ => rfl, rfl, rfl, List.Perm.refl _⟩

/-! ### Calls that run alone -/

section

variable {θ : τ → Routine} {h h' h'' : Handlers} {r r' r'' : Routine}

/-- A thread that runs alone goes from one place to another. -/
def Goes (qsort : (ℕ → ℕ → ℤ) → List ℕ → List ℕ) (θ : τ → Routine) (t : τ) (h : Handlers) (r : Routine)
    (h' : Handlers) (r' : Routine) : Prop :=
  ∃ n, run (Routing.step qsort) ⟨h, Function.update θ t r⟩ (List.replicate n (.advance t))
    = some ⟨h', Function.update θ t r'⟩

theorem Goes.trans (hgo : Goes qsort θ t h r h' r') (hgo' : Goes qsort θ t h' r' h'' r'') :
  Goes qsort θ t h r h'' r''
  := by
  obtain ⟨n, hn⟩ := hgo
  obtain ⟨m, hm⟩ := hgo'
  use n + m
  rw [List.replicate_add]
  exact run_append.mpr ⟨_, hn, hm⟩

theorem goes_register {a : ℕ} {stage : Stage} (hstep : h.registerStep qsort a stage = some (h', r)) :
  Goes qsort θ t h (.registering a stage) h' r
  := by
  use 1
  simp [run, Routing.step, Routing.advance, hstep]

/-- The list is counted. -/
theorem goes_count {a n : ℕ} {pt : Option ℕ} (hlinked : Linked h.link pt l)
    (hcount : n + l.length < 2 ^ 31) :
  Goes qsort θ t h (.registering a (.counting pt n)) h (.registering a (.counted (n + l.length)))
  := by
  induction l generalizing pt n with
  | nil =>
      obtain rfl := linked_nil.mp hlinked
      exact goes_register rfl
  | cons b l ih =>
      obtain ⟨rfl, hrest⟩ := hlinked
      rw [List.length_cons] at hcount
      have hgo := ih (n := n + 1) hrest (by omega)
      rw [Nat.add_right_comm, Nat.add_assoc, ← List.length_cons (a := b)] at hgo
      apply Goes.trans _ hgo
      apply goes_register
      rw [Handlers.registerStep, if_pos (by omega)]

/-- The list is collected. -/
theorem goes_collect {a : ℕ} {pt : Option ℕ} (hlinked : Linked h.link pt l) (c : List ℕ) :
  Goes qsort θ t h (.registering a (.collecting pt (c.length + l.length) c)) h
    (.registering a (.sorted (qsort h.sorter (c ++ l))))
  := by
  induction l generalizing pt c with
  | nil =>
      obtain rfl := linked_nil.mp hlinked
      apply goes_register
      rw [Handlers.registerStep, List.length_nil, Nat.add_zero, if_pos rfl, List.append_nil]
  | cons b l ih =>
      obtain ⟨rfl, hrest⟩ := hlinked
      have hgo := ih hrest (c ++ [b])
      rw [List.append_assoc, List.length_append, List.length_singleton, Nat.add_right_comm,
        Nat.add_assoc, ← List.length_cons (a := b)] at hgo
      apply Goes.trans _ hgo
      apply goes_register
      rw [Handlers.registerStep, if_pos (by simp)]

/-- The links are written. -/
theorem goes_relink {a : ℕ} :
  Goes qsort θ t h (.registering a (.relinking l)) { h with link := relink h.link l } .idle
  := by
  induction l generalizing h with
  | nil => exact goes_register rfl
  | cons b l ih =>
      have hstep : Goes qsort θ t h (.registering a (.relinking (b :: l)))
          { h with link := Function.update h.link b l.head? } (.registering a (.relinking l)) :=
        goes_register rfl
      have hgo := hstep.trans ih
      cases l with
      | nil => exact hgo
      | cons c l => exact hgo

/-- A lookup that runs alone does what `findLoop` does. -/
theorem goes_lookup {k : ℕ} {pt : Option ℕ} {pair : Option (Scm × List UInt8)}
    (hloop : h.findLoop spath k pt = some pair) :
  Goes qsort θ t h (.looking spath pt) h (.found spath pair)
  := by
  have hstep : ∀ {r}, h.lookupStep spath pt = some r → Goes qsort θ t h (.looking spath pt) h r := by
    intro r hr
    use 1
    simp [run, Routing.step, Routing.advance, hr]
  revert hloop
  fun_induction Handlers.findLoop h spath k pt with
  | case1 =>
      rintro ⟨⟩
      exact hstep rfl
  | case2 => rintro ⟨⟩
  | case3 k a hstarts =>
      intro hloop
      obtain ⟨found, hfound, rfl⟩ := Option.map_eq_some_iff.mp hloop
      apply hstep
      rw [Handlers.lookupStep, if_pos hstarts, hfound, Option.map_some]
  | case4 k a hstarts ih =>
      intro hloop
      refine Goes.trans (hstep ?_) (ih ?_ hloop)
      · rw [Handlers.lookupStep, if_neg hstarts]
      · intro r hr
        use 1
        simp [run, Routing.step, Routing.advance, hr]

/-- A lookup that goes on alone ends, when no registration is under way. -/
theorem Sees.ends (hsees : s.Sees t spath K l target) (hquiet : s.Quiet) :
  ∃ n v pair, run (Routing.step qsort) s (List.replicate n (.advance t)) = some v
    ∧ v.threads t = .found spath pair
  := by
  obtain ⟨pt, v, ht, hv, -⟩ | ⟨pair, ht, -⟩ := hsees.thread
  case inr => exact ⟨0, s, pair, rfl, ht⟩
  have hlinked : Linked s.handlers.link pt v := by
    obtain ⟨-, hlinked, rfl, -⟩ | ⟨t₀, a, stage, ht₀, -⟩ := hsees.holds.arranged
    · rw [hv.head]
      exact hlinked.suffix hv.suffix
    · have hnot := hquiet t₀
      rw [ht₀] at hnot
      cases hnot
  have hloop : ∃ pair, s.handlers.findLoop spath v.length pt = some pair := by
    rw [Handlers.findLoop_eq spath hlinked (Nat.le_refl _)]
    split
    · exact ⟨none, rfl⟩
    case h_2 e he =>
        obtain ⟨a, -, rfl⟩ := List.mem_map.mp (List.mem_of_find?_eq_some he)
        have hint : Handlers.intLength (s.handlers.entry a).path = (s.handlers.entry a).path.length :=
          (bmod_natCast_eq_iff _).mpr (Handlers.length_entry_lt hsees.holds.short a)
        rw [Handlers.handlerPair, hint, if_pos (Int.natCast_nonneg _)]
        exact ⟨_, rfl⟩
  obtain ⟨pair, hpair⟩ := hloop
  obtain ⟨n, hn⟩ : Goes qsort s.threads t s.handlers (.looking spath pt) s.handlers
      (.found spath pair) := goes_lookup hpair
  rw [← ht, Function.update_eq_self] at hn
  exact ⟨n, _, pair, hn, Function.update_self ..⟩

/-- A call of `set_handler` that runs alone does what `insert` does. -/
theorem run_register {s : Routing τ} {l : List ℕ} (hholds : s.handlers.Holds l)
    (hfree : (s.threads t).free = true) (hcount : s.handlers.entries.length + 1 < 2 ^ 31)
    (hqsort : ∀ cmp l, QSort cmp l (qsort cmp l)) (e : HandlerEntry) :
  ∃ n u, run (Routing.step qsort) s (.register t e :: List.replicate n (.advance t)) = some u
    ∧ u.threads = Function.update s.threads t .idle ∧ s.handlers.insert qsort e = some u.handlers
  := by
  have hlinked := hholds.linked_push e
  have hlen : (s.handlers.entries.length :: l).length = s.handlers.entries.length + 1 := by
    rw [List.length_cons, hholds.length_eq]
  have hcollect := hholds.collect_push e
  rw [if_pos hcount] at hcollect
  have hpushed : Goes qsort s.threads t { s.handlers with entries := s.handlers.entries ++ [e] }
      (.registering s.handlers.entries.length .linking) (s.handlers.push e)
      (.registering s.handlers.entries.length .headed) :=
    (goes_register rfl).trans (goes_register rfl)
  have hcounted : Goes qsort s.threads t (s.handlers.push e)
      (.registering s.handlers.entries.length (.counting (s.handlers.push e).head 0))
      (s.handlers.push e) (.registering s.handlers.entries.length (.counted (0 + _))) :=
    goes_count hlinked (by omega)
  have hcollected : Goes qsort s.threads t (s.handlers.push e)
      (.registering s.handlers.entries.length (.collecting (s.handlers.push e).head (0 + _) []))
      (s.handlers.push e) (.registering s.handlers.entries.length (.sorted (qsort _ ([] ++ _)))) :=
    goes_collect hlinked []
  rw [List.nil_append] at hcollected
  cases hsort : qsort (s.handlers.push e).sorter (s.handlers.entries.length :: l) with
  | nil =>
      have hperm := (hqsort (s.handlers.push e).sorter (s.handlers.entries.length :: l)).perm
      rw [hsort] at hperm
      exact absurd hperm.length_eq (by simp)
  | cons b list =>
      rw [hsort] at hcollected
      obtain ⟨n, hn⟩ := (((((hpushed.trans (goes_register rfl)).trans hcounted).trans
        (goes_register rfl)).trans hcollected).trans (goes_register rfl)).trans goes_relink
      refine ⟨n, ⟨{ s.handlers.push e with
        link := relink (s.handlers.push e).link (b :: list), head := some b }, _⟩, ?_, rfl, ?_⟩
      · rw [run, Routing.step, if_pos hfree]
        exact hn
      · rw [Handlers.insert, hcollect, Option.map_some, hsort]
        rfl

end

/-! ### Lookups among registrations -/

/-- Steps of any threads, none of which is a new call of this thread. -/
theorem Sees.run (hqsort : ∀ cmp l, QSort cmp l (qsort cmp l)) {acts : List (RoutingAction τ)}
    (h : s.Sees t spath K l target) (horderly : Meets (Routing.step qsort) (Orderly qsort) s acts)
    (hown : ∀ act ∈ acts, act.calls t = false) (hrun : Run.run (Routing.step qsort) s acts = some u) :
  (∃ l' target', u.Sees t spath K l' target') ∧ ∀ m, K m → u.handlers.entry m = s.handlers.entry m
  := by
  induction acts generalizing s l target with
  | nil =>
      obtain rfl := Option.some.inj hrun
      exact ⟨⟨l, target, h⟩, fun _ _ => rfl⟩
  | cons act acts ih =>
      obtain ⟨v, hv, hrest⟩ := run_cons.mp hrun
      obtain ⟨hact, hacts⟩ := List.forall_mem_cons.mp hown
      obtain ⟨l', target', hsees⟩ := h.step hqsort horderly.1 hact hv
      obtain ⟨-, -, -, -, -, hbegin⟩ := h.holds.step hqsort horderly.1 hv
      obtain ⟨hend, hkept⟩ := ih hsees (horderly.2 v hv) hacts hrest
      refine ⟨hend, ?_⟩
      intro m hm
      rw [hkept m hm, Handlers.entry_append hbegin (h.holds.lt_length (h.known m hm).1)]

/-- The start of a lookup. -/
theorem Holds.sees (h : s.Holds l target) (hclosed : s.Closed)
    (hstep : s.step qsort (.find t spath) = some u) :
  u.Sees t spath (fun a => s.Registered a ∧ (s.handlers.entry a).path <+: spath) l target
    ∧ u.handlers = s.handlers
  := by
  rw [Routing.step, Option.ite_none_right_eq_some] at hstep
  obtain ⟨hfree, hu⟩ := hstep
  obtain rfl := Option.some.inj hu
  have hregisters : (s.threads t).registers = false := by
    cases hr : s.threads t with
    | registering a stage =>
        rw [hr] at hfree
        cases hfree
    | _ => rfl
  have hcell : ∀ a, s.Registered a → a ∈ l := by
    rintro a ⟨hlt, hnot⟩
    obtain ⟨-, -, -, hperm⟩ | ⟨t₀, b, stage, ht₀, -, hlen, hperm, -⟩ := h.arranged
    · exact hperm.mem_iff.mpr (List.mem_range.mpr hlt)
    · rw [hperm.mem_iff, List.mem_range]
      have hne : a ≠ b := by
        rintro rfl
        apply hnot t₀
        rw [ht₀]
        rfl
      omega
  refine ⟨⟨h.move hregisters rfl, ?_, ?_⟩, rfl⟩
  · rintro a ⟨ha, hpath⟩
    exact ⟨hcell a ha, hpath⟩
  · refine Or.inl ⟨_, target, Function.update_self .., h.at_head hclosed, ?_⟩
    rintro a ⟨ha, -⟩
    exact h.seen.1 (hcell a ha)

/-- **A lookup among registrations** that come one after the other, and that does not start while an
unsorted entry is in front of the list: what it finds is the handler of a prefix of the path and the rest of the path, and none of the
prefixes that had been registered when it started is longer; when it finds nothing, there was none.  And
unless a registration is under way it ends. -/
theorem lookup_finds (hqsort : ∀ cmp l, QSort cmp l (qsort cmp l))
    {before after : List (RoutingAction τ)}
    (hbefore : Run.run (step qsort) initial before = some s)
    (hafter : Run.run (step qsort) s (.find t spath :: after) = some u)
    (horderly : Meets (step qsort) (Orderly qsort) initial (before ++ .find t spath :: after))
    (hclosed : s.Closed) (hown : ∀ act ∈ after, act.calls t = false) :
  (∀ pair, u.threads t = .found spath pair →
    (pair = none ∧ ∀ a, s.Registered a → ¬ (s.handlers.entry a).path <+: spath) ∨
      ∃ best ∈ u.handlers.entries, best.path <+: spath ∧
        pair = some (best.handler, spath.drop best.path.length) ∧
        ∀ a, s.Registered a → (s.handlers.entry a).path <+: spath →
          (s.handlers.entry a).path.length ≤ best.path.length)
    ∧ (u.Quiet → ∃ n v pair, Run.run (step qsort) u (List.replicate n (.advance t)) = some v
      ∧ v.threads t = .found spath pair)
  := by
  obtain ⟨hbeforeOrderly, hrest⟩ := meets_append.mp horderly
  have hI : ∃ l target, s.Holds l target := by
    apply run_invariant_of_meets (I := fun s : Routing τ => ∃ l target, s.Holds l target) _
      ⟨[], [], holds_initial⟩ hbeforeOrderly hbefore
    rintro s act u ⟨l, target, h⟩ horderly hstep
    obtain ⟨l', target', hholds, -⟩ := h.step hqsort horderly hstep
    exact ⟨l', target', hholds⟩
  obtain ⟨l, target, hholds⟩ := hI
  obtain ⟨v, hv, hrun⟩ := run_cons.mp hafter
  obtain ⟨hsees, hsame⟩ := hholds.sees hclosed hv
  obtain ⟨⟨l', target', hend⟩, hkept⟩ := hsees.run hqsort ((hrest s hbefore).2 v hv) hown hrun
  refine ⟨?_, hend.ends⟩
  intro pair hpair
  obtain ⟨pt, w, ht, -⟩ | ⟨pair', ht, hanswer⟩ := hend.thread
  · rw [hpair] at ht
    cases ht
  rw [hpair] at ht
  obtain ⟨-, rfl⟩ := Routine.found.inj ht
  obtain ⟨rfl, hnone⟩ | ⟨best, hbest, hpath, hfound, hlongest⟩ := hanswer
  · exact Or.inl ⟨rfl, fun a ha hbegin => hnone a ⟨ha, hbegin⟩⟩
  · refine Or.inr ⟨best, hbest, hpath, hfound, ?_⟩
    intro a ha hbegin
    rw [← hsame, ← hkept a ⟨ha, hbegin⟩]
    exact hlongest a ⟨ha, hbegin⟩

/-- A thread registers a path, and goes on for some steps. -/
def registration (t : τ) (path : String) (n : ℕ) : List (RoutingAction τ) :=
  .register t ⟨ascii path, .int path.length⟩ :: List.replicate n (.advance t)

/-- A request is looked for while the links are written for a third path. -/
theorem lookup_finds_root :
  ∃ u : Routing (Fin 2), ∃ best ∈ u.handlers.entries, best.path <+: ascii "/x" ∧ 1 ≤ best.path.length
    ∧ Run.run (step insertionSort) initial (registration 0 "/" 11 ++ registration 0 "/a" 14
      ++ registration 0 "/b" 13 ++ [.find 1 (ascii "/x"), .advance 1, .advance 0, .advance 1,
        .advance 0, .advance 1]) = some u
    ∧ u.threads 1 = .found (ascii "/x") (some (best.handler, (ascii "/x").drop best.path.length))
  := by
  have hrun : (Run.run (step insertionSort) initial (registration (0 : Fin 2) "/" 11
      ++ registration 0 "/a" 14 ++ registration 0 "/b" 13)).any (fun s => decide (s.Closed ∧ s.Registered 0
        ∧ (s.handlers.entry 0).path = ascii "/")
      && (Run.run (step insertionSort) s [.find 1 (ascii "/x"), .advance 1, .advance 0, .advance 1,
        .advance 0, .advance 1]).any (fun u =>
          decide (u.threads 1 = .found (ascii "/x") (some (.int 1, ascii "x"))))) = true := by
    decide
  have horderly : Meets (step insertionSort) (Orderly insertionSort) initial (registration (0 : Fin 2) "/" 11
      ++ registration 0 "/a" 14 ++ registration 0 "/b" 13 ++ [.find 1 (ascii "/x"), .advance 1,
        .advance 0, .advance 1, .advance 0, .advance 1]) := by
    decide
  obtain ⟨s, hs, hrest⟩ := (Option.any_eq_true _ _).mp hrun
  rw [Bool.and_eq_true, decide_eq_true_iff] at hrest
  obtain ⟨⟨hclosed, hregistered, hroot⟩, hrest⟩ := hrest
  obtain ⟨u, hu, hfound⟩ := (Option.any_eq_true _ _).mp hrest
  have hfound := of_decide_eq_true hfound
  have hown : ∀ act ∈ [RoutingAction.advance (1 : Fin 2), .advance 0, .advance 1, .advance 0, .advance 1],
      act.calls 1 = false := by decide
  obtain hnone | ⟨best, hbest, hpath, hpair, hlongest⟩ :=
    (lookup_finds qsort_insertionSort hs hu horderly hclosed hown).1 _ hfound
  · cases hnone.1
  · refine ⟨u, best, hbest, hpath, ?_, run_append.mpr ⟨s, hs, hu⟩, ?_⟩
    · have hlen := hlongest 0 hregistered (by rw [hroot]; decide)
      rwa [hroot] at hlen
    · rw [hfound, hpair]

/-- A request is looked for while the entry of `/b` is in front of the list: that of `/aa` is missed. -/
theorem lookup_missed :
  ∃ s u : Routing (Fin 2), Run.run (step insertionSort) initial (registration 0 "/aa" 11
      ++ registration 0 "/b" 2) = some s
    ∧ Run.run (step insertionSort) s (.find 1 (ascii "/aax") :: List.replicate 12 (.advance 0)
      ++ [.advance 1, .advance 1]) = some u
    ∧ s.Registered 0 ∧ (s.handlers.entry 0).path <+: ascii "/aax"
    ∧ u.threads 1 = .found (ascii "/aax") none
  := by
  have hrun : (Run.run (step insertionSort) initial (registration (0 : Fin 2) "/aa" 11
      ++ registration 0 "/b" 2)).any (fun s => decide (s.Registered 0
        ∧ (s.handlers.entry 0).path <+: ascii "/aax")
      && (Run.run (step insertionSort) s (.find 1 (ascii "/aax") :: List.replicate 12 (.advance 0)
        ++ [.advance 1, .advance 1])).any (fun u =>
          decide (u.threads 1 = .found (ascii "/aax") none))) = true := by
    decide
  obtain ⟨s, hs, hrest⟩ := (Option.any_eq_true _ _).mp hrun
  rw [Bool.and_eq_true, decide_eq_true_iff] at hrest
  obtain ⟨⟨hregistered, hpath⟩, hrest⟩ := hrest
  obtain ⟨u, hu, hfound⟩ := (Option.any_eq_true _ _).mp hrest
  exact ⟨s, u, hs, hu, hregistered, hpath, of_decide_eq_true hfound⟩

end Routing

end Gusher
