import Gusher.Library.LinkedList
import Gusher.Library.Sorting
import Gusher.Request.Query
import Gusher.Scheme.Locale

/-!
# The list of handlers

`set_handler` links a new entry into the list of handlers and sorts the list, the longest paths
first; `find_handler` takes the first entry whose path is a prefix of the path of the request.
Here the list is linked in the heap, and lengths are kept in variables of type `int`.
-/

namespace Gusher

open LinkedList Sorting

instance : Inhabited HandlerEntry := ⟨⟨[], .nil⟩⟩

/-- The entries that have been allocated, the links between them, and `handlers`. -/
structure Handlers where
  entries : List HandlerEntry
  link : ℕ → Option ℕ
  head : Option ℕ

namespace Handlers

/-- No handler is registered. -/
def empty : Handlers where
  entries := []
  link _ := none
  head := none

def entry (s : Handlers) (a : ℕ) : HandlerEntry :=
  s.entries[a]?.getD default

/-- A length as an `int`. -/
def intLength (path : List UInt8) : ℤ :=
  Int.bmod path.length (2 ^ 32)

/-- `sorter`: the difference of two lengths, as an `int`. -/
def sorter (s : Handlers) (a b : ℕ) : ℤ :=
  Int.bmod ((s.entry b).path.length - (s.entry a).path.length) (2 ^ 32)

/-- `malloc` of an entry, and its push on the list. -/
def push (s : Handlers) (e : HandlerEntry) : Handlers where
  entries := s.entries ++ [e]
  link := Function.update s.link s.entries.length s.head
  head := some s.entries.length

/-- Collects the list into an array; the number of elements is counted by an `int`. -/
def collect (s : Handlers) : Option (List ℕ) :=
  (walk s.link s.entries.length s.head).filter (fun l => l.length < 2 ^ 31)

section

variable (loc : Locale) (qsort : (ℕ → ℕ → ℤ) → List ℕ → List ℕ)

/-- `set_handler`, of a path that is converted; `none` stands for undefined behaviour. -/
def insert (s : Handlers) (e : HandlerEntry) : Option Handlers :=
  let s := s.push e
  s.collect.map (fun l =>
    { s with
      link := relink s.link (qsort s.sorter l)
      head := (qsort s.sorter l).head? })

/-- `set_handler`: an exception in the conversion of the path leaves the list as it is. -/
def setHandler (s : Handlers) (path lambda : Scm) : Option Handlers :=
  match loc.toLocaleString path with
  | none => some s
  | some path => s.insert qsort ⟨path, lambda⟩

/-- Calls of `set_handler`, one after the other. -/
def setHandlers (s : Handlers) : List (Scm × Scm) → Option Handlers
  | [] => some s
  | (path, lambda) :: calls => (s.setHandler loc qsort path lambda).bind (·.setHandlers calls)

/-- `strncmp(a, b, n) == 0`, where `n` becomes a `size_t`. -/
def strncmpEq (a b : List UInt8) (n : ℤ) : Bool :=
  a.take (n % 2 ^ 64).toNat = b.take (n % 2 ^ 64).toNat

/-- The test of `find_handler`. -/
def startsPath (spath : List UInt8) (e : HandlerEntry) : Bool :=
  strncmpEq e.path spath (intLength e.path)

/-- The handler of an entry, and `&spath[n]` for the length `n` of its path; there is nothing
before the start of `spath`. -/
def handlerPair (e : HandlerEntry) (spath : List UInt8) : Option (Scm × List UInt8) :=
  if 0 ≤ intLength e.path then some (e.handler, spath.drop (intLength e.path).toNat) else none

/-- The loop of `find_handler`, which gives the handler and what is left of the path; an outer
`none` stands for a loop that does not end, and for a read before the start of the path. -/
def findLoop (s : Handlers) (spath : List UInt8) :
    ℕ → Option ℕ → Option (Option (Scm × List UInt8))
  | _, none => some none
  | 0, some _ => none
  | k + 1, some a =>
      if startsPath spath (s.entry a) then (handlerPair (s.entry a) spath).map some
      else findLoop s spath k (s.link a)

/-- `find_handler`; `none` stands for an exception and for undefined behaviour. -/
def findHandler (s : Handlers) (request : Scm) : Option Scm :=
  let path := request.assqRef "url-path".toList
  if path = .bool false then some (.bool false)
  else (loc.toLocaleString path).bind (fun spath =>
    (s.findLoop spath s.entries.length s.head).map (fun found =>
      match found with
      | none => .bool false
      | some (handler, rest) => .pair handler (.str (loc.decode rest))))

end

end Handlers

/-- The paths and handlers of the calls of `set_handler` that return. -/
def registered (loc : Locale) (calls : List (Scm × Scm)) : List (Text × Scm) :=
  calls.filterMap (fun call =>
    match call.1 with
    | .str t => if (loc.encode t).isSome then some (t, call.2) else none
    | _ => none)

def handlerEntry (loc : Locale) (e : Text × Scm) : HandlerEntry where
  path := (loc.encode e.1).getD []
  handler := e.2

/-- The longest registered path that is a prefix of a path. -/
structure Longest (paths : List (Text × Scm)) (u t : Text) : Prop where
  is_prefix : t <+: u
  longest : ∀ e ∈ paths, e.1 <+: u → e.1.length ≤ t.length

/-- The list of handlers is finite, has the registered entries, and is sorted; and the longest
registered prefix is found. -/
structure Routes (loc : Locale) (s : Handlers) (paths : List (Text × Scm)) : Prop where
  list : ∃ l, Linked s.link s.head l ∧
    (l.map s.entry).Perm (paths.map (handlerEntry loc)) ∧
    (l.map s.entry).Pairwise (fun e e' => e'.path.length ≤ e.path.length)
  lookup : ∀ request u, request.assqRef "url-path".toList = .str u → (loc.encode u).isSome →
    ∃ r, s.findHandler loc request = some r ∧
      (r = .bool false ↔ ∀ e ∈ paths, ¬ e.1 <+: u) ∧
      (r ≠ .bool false → ∃ t h rest, (t, h) ∈ paths ∧ Longest paths u t ∧ u = t ++ rest ∧
        r = .pair h (.str rest))

/-! ### The list -/

namespace Handlers

/-- The cells of the list are `l`: each entry that has been allocated, sorted by the comparator
if it is a consistent one. -/
structure Holds (s : Handlers) (l : List ℕ) : Prop where
  linked : Linked s.link s.head l
  perm : l.Perm (List.range s.entries.length)
  sorted : Consistent s.sorter → l.Pairwise (fun a b => s.sorter a b ≤ 0)

theorem holds_empty :
  empty.Holds []
  where
  linked := rfl
  perm := List.Perm.refl _
  sorted _ := List.Pairwise.nil

theorem Holds.length_eq {s : Handlers} {l : List ℕ} (h : s.Holds l) :
  l.length = s.entries.length
  := by
  rw [h.perm.length_eq, List.length_range]

variable {s : Handlers} {l : List ℕ} {qsort : (ℕ → ℕ → ℤ) → List ℕ → List ℕ}

theorem Holds.linked_push (h : s.Holds l) (e : HandlerEntry) :
  Linked (s.push e).link (s.push e).head (s.entries.length :: l)
  := by
  apply h.linked.push
  rw [h.perm.mem_iff, List.mem_range]
  apply Nat.lt_irrefl

/-- The array has the new cell and the old ones, unless their number is no `int`. -/
theorem Holds.collect_push (h : s.Holds l) (e : HandlerEntry) :
  (s.push e).collect
    = if s.entries.length + 1 < 2 ^ 31 then some (s.entries.length :: l) else none
  := by
  have hlen : (s.push e).entries.length = s.entries.length + 1 := by simp [push]
  have hwalk : walk (s.push e).link (s.push e).entries.length (s.push e).head
      = some (s.entries.length :: l) := by
    apply (h.linked_push e).walk
    rw [hlen, List.length_cons, h.length_eq]
  rw [collect, hwalk, Option.filter_some, List.length_cons, h.length_eq]
  simp only [decide_eq_true_eq]

/-- The cells `l` are in the order in which a call of `qsort` has left them. -/
def Resorted (qsort : (ℕ → ℕ → ℤ) → List ℕ → List ℕ) (s : Handlers) (l : List ℕ) : Prop :=
  ∃ l₀ : List ℕ, l₀.Perm (List.range s.entries.length) ∧ l = qsort s.sorter l₀

/-- What `set_handler` does with a new entry. -/
theorem Holds.insert (h : s.Holds l) (hqsort : ∀ cmp l, QSort cmp l (qsort cmp l))
    (e : HandlerEntry) (hcount : s.entries.length + 1 < 2 ^ 31) :
  ∃ s' l', s.insert qsort e = some s' ∧ s'.entries = s.entries ++ [e] ∧ s'.Holds l' ∧
    s'.Resorted qsort l'
  := by
  have hq := hqsort (s.push e).sorter (s.entries.length :: l)
  have hnodup : (s.entries.length :: l).Nodup := by
    rw [List.nodup_cons, h.perm.mem_iff, List.mem_range, h.perm.nodup_iff]
    exact ⟨Nat.lt_irrefl _, List.nodup_range⟩
  have hrange : (s.entries.length :: l).Perm (List.range (s.entries.length + 1)) := by
    rw [List.range_succ]
    exact (h.perm.cons _).trans (List.perm_append_singleton _ _).symm
  rw [Handlers.insert, h.collect_push e, if_pos hcount]
  cases hsort : qsort (s.push e).sorter (s.entries.length :: l) with
  | nil =>
      rw [hsort] at hq
      exact absurd hq.perm.nil_eq (by simp)
  | cons a l' =>
      rw [hsort] at hq
      have hlen : (s.push e).entries.length = s.entries.length + 1 := by
        simp only [push, List.length_append, List.length_singleton]
      refine ⟨_, a :: l', rfl, rfl, ?_, _, ?_, hsort.symm⟩
      · constructor
        · simp only [hsort]
          apply linked_relink
          rw [hq.perm.nodup_iff]
          exact hnodup
        · rw [hlen]
          exact hq.perm.trans hrange
        · exact hq.sorted
      · rw [hlen]
        exact hrange

/-- When the number of entries is no `int`, the behaviour is undefined. -/
theorem Holds.insert_eq_none (h : s.Holds l) (e : HandlerEntry)
    (hcount : ¬ s.entries.length + 1 < 2 ^ 31) :
  s.insert qsort e = none
  := by
  rw [Handlers.insert, h.collect_push e, if_neg hcount]
  rfl

end Handlers

/-- A call of `set_handler` either registers its path, and then makes an entry of it, or leaves
the list as it is. -/
theorem setHandler_cases (loc : Locale) (qsort : (ℕ → ℕ → ℤ) → List ℕ → List ℕ) (s : Handlers)
    (path lambda : Scm) (calls : List (Scm × Scm)) :
  (registered loc ((path, lambda) :: calls) = registered loc calls ∧
    s.setHandler loc qsort path lambda = some s) ∨
  (∃ t, registered loc ((path, lambda) :: calls) = (t, lambda) :: registered loc calls ∧
    s.setHandler loc qsort path lambda = s.insert qsort (handlerEntry loc (t, lambda)))
  := by
  cases path with
  | str t =>
      cases henc : loc.encode t with
      | none =>
          left
          simp [registered, Handlers.setHandler, Locale.toLocaleString, henc]
      | some p =>
          right
          use t
          simp [registered, Handlers.setHandler, Locale.toLocaleString, handlerEntry, henc]
  | _ =>
      left
      simp [registered, Handlers.setHandler, Locale.toLocaleString]

namespace Handlers

variable {loc : Locale} {s : Handlers} {l : List ℕ} {qsort : (ℕ → ℕ → ℤ) → List ℕ → List ℕ}

/-- After the calls of `set_handler` the list has an entry for each that returned; unless there was
none, it is in the order in which `qsort` has left it. -/
theorem Holds.setHandlers (hqsort : ∀ cmp l, QSort cmp l (qsort cmp l)) (h : s.Holds l)
    (calls : List (Scm × Scm))
    (hcount : s.entries.length + (registered loc calls).length < 2 ^ 31) :
  ∃ s' l', s.setHandlers loc qsort calls = some s' ∧ s'.Holds l' ∧
    s'.entries = s.entries ++ (registered loc calls).map (handlerEntry loc) ∧
    (s' = s ∧ l' = l ∨ s'.Resorted qsort l')
  := by
  induction calls generalizing s l with
  | nil => exact ⟨s, l, rfl, h, by simp [registered], Or.inl ⟨rfl, rfl⟩⟩
  | cons call calls ih =>
      obtain ⟨path, lambda⟩ := call
      rw [Handlers.setHandlers]
      obtain ⟨hreg, hset⟩ | ⟨t, hreg, hset⟩ :=
        setHandler_cases loc qsort s path lambda calls
      · rw [hreg] at hcount ⊢
        rw [hset]
        exact ih h hcount
      · rw [hreg] at hcount ⊢
        simp only [List.length_cons] at hcount
        obtain ⟨s', l', hinsert, hentries, hs', hsort⟩ :=
          h.insert hqsort (handlerEntry loc (t, lambda)) (by omega)
        have hlen : s'.entries.length = s.entries.length + 1 := by simp [hentries]
        obtain ⟨s'', l'', hrun, hs'', hall, hlast⟩ := ih hs' (by omega)
        refine ⟨s'', l'', ?_, hs'', ?_, Or.inr ?_⟩
        · rw [hset, hinsert]
          exact hrun
        · rw [hall, hentries, List.append_assoc]
          rfl
        · obtain ⟨rfl, rfl⟩ | hlast := hlast
          · exact hsort
          · exact hlast

/-- Too many calls of `set_handler` run into undefined behaviour. -/
theorem Holds.setHandlers_eq_none (hqsort : ∀ cmp l, QSort cmp l (qsort cmp l)) (h : s.Holds l)
    (calls : List (Scm × Scm)) (hfew : s.entries.length < 2 ^ 31)
    (hcount : ¬ s.entries.length + (registered loc calls).length < 2 ^ 31) :
  s.setHandlers loc qsort calls = none
  := by
  induction calls generalizing s l with
  | nil => exact absurd hfew hcount
  | cons call calls ih =>
      obtain ⟨path, lambda⟩ := call
      rw [Handlers.setHandlers]
      obtain ⟨hreg, hset⟩ | ⟨t, hreg, hset⟩ :=
        setHandler_cases loc qsort s path lambda calls
      · rw [hreg] at hcount
        rw [hset]
        exact ih h hfew hcount
      · rw [hset]
        by_cases hmore : s.entries.length + 1 < 2 ^ 31
        · obtain ⟨s', l', hinsert, hentries, hs', -⟩ :=
            h.insert hqsort (handlerEntry loc (t, lambda)) hmore
          have hlen : s'.entries.length = s.entries.length + 1 := by simp [hentries]
          rw [hinsert]
          rw [hreg, List.length_cons] at hcount
          apply ih hs'
          · omega
          · omega
        · rw [h.insert_eq_none _ hmore]
          rfl

end Handlers

/-! ### The search -/

namespace Handlers

variable {loc : Locale} {s : Handlers} {l : List ℕ}

/-- What holds of the length of the paths of all entries also holds of the entry at any
address. -/
theorem length_entry_lt (h : ∀ e ∈ s.entries, e.path.length < 2 ^ 31) (a : ℕ) :
  (s.entry a).path.length < 2 ^ 31
  := by
  rw [entry]
  cases ha : s.entries[a]? with
  | none =>
      apply Nat.pow_pos
      apply Nat.two_pos
  | some e => exact h e (List.mem_of_getElem? ha)

theorem sorter_eq (h : ∀ e ∈ s.entries, e.path.length < 2 ^ 31) (a b : ℕ) :
  s.sorter a b = ((s.entry b).path.length : ℤ) - (s.entry a).path.length
  := by
  unfold sorter
  exact bmod_sub_eq (length_entry_lt h b) (length_entry_lt h a)

/-- The entries on the list are those that have been allocated. -/
theorem Holds.map_entry_perm (h : s.Holds l) :
  (l.map s.entry).Perm s.entries
  := by
  have hrange : (List.range s.entries.length).map s.entry = s.entries := by
    apply List.ext_getElem
    · simp
    · intro i hi _
      simp at hi
      simp [entry, hi]
  rw [← hrange]
  apply h.perm.map

/-- The list is sorted when the paths are shorter than 2³¹ bytes. -/
theorem Holds.sorted_map_entry (h : s.Holds l)
    (hshort : ∀ e ∈ s.entries, e.path.length < 2 ^ 31) :
  (l.map s.entry).Pairwise (fun e e' => e'.path.length ≤ e.path.length)
  := by
  rw [List.pairwise_map]
  apply (h.sorted (consistent_of_measure (sorter_eq hshort))).imp
  intro a b hab
  rw [sorter_eq hshort] at hab
  omega

/-- The loop of `find_handler` stops at the first entry of the list whose path, up to its length
as an `int`, starts the path of the request. -/
theorem findLoop_eq {p : Option ℕ} {n : ℕ} (spath : List UInt8) (hl : Linked s.link p l)
    (hn : l.length ≤ n) :
  s.findLoop spath n p =
    match (l.map s.entry).find? (startsPath spath) with
    | none => some none
    | some e => (handlerPair e spath).map some
  := by
  induction l generalizing p n with
  | nil =>
      obtain rfl := linked_nil.mp hl
      cases n with
      | zero => rfl
      | succ n => rfl
  | cons a l ih =>
      obtain ⟨rfl, hl⟩ := hl
      cases n with
      | zero => simp at hn
      | succ n =>
          rw [findLoop, List.map_cons, List.find?_cons]
          cases hcmp : startsPath spath (s.entry a) with
          | true => rfl
          | false =>
              simp only [Bool.false_eq_true, if_false]
              exact ih hl (Nat.le_of_succ_le_succ hn)

/-- The first entry that matches decides the search of `firstHandler` too. -/
theorem firstHandler_eq (loc : Locale) (spath : List UInt8) (entries : List HandlerEntry) :
  firstHandler loc spath entries =
    match entries.find? (fun e => e.path <+: spath) with
    | none => .bool false
    | some e => .pair e.handler (.str (loc.decode (spath.drop e.path.length)))
  := by
  induction entries with
  | nil => rfl
  | cons e entries ih =>
      rw [firstHandler, List.find?_cons]
      by_cases he : e.path <+: spath
      · simp [he]
      · simp [he, ih]

/-- For a path shorter than 2³¹ bytes `strncmp` finds out whether it is a prefix. -/
theorem startsPath_iff {spath : List UInt8} {e : HandlerEntry} (h : e.path.length < 2 ^ 31) :
  startsPath spath e = true ↔ e.path <+: spath
  := by
  have hint : intLength e.path = e.path.length := (bmod_natCast_eq_iff _).mpr h
  have hsize : ((e.path.length : ℤ) % 2 ^ 64).toNat = e.path.length := by
    rw [Int.emod_eq_of_lt (by omega) (by omega), Int.toNat_natCast]
  rw [startsPath, strncmpEq, hint, hsize, decide_eq_true_iff, List.take_length,
    List.prefix_iff_eq_take]

/-- When the paths are shorter than 2³¹ bytes, the search goes through the entries of the
list. -/
theorem Holds.findHandler_eq (h : s.Holds l)
    (hshort : ∀ e ∈ s.entries, e.path.length < 2 ^ 31) (request : Scm) :
  s.findHandler loc request = Gusher.findHandler loc (l.map s.entry) request
  := by
  have hfind : ∀ spath,
      (l.map s.entry).find? (startsPath spath)
        = (l.map s.entry).find? (fun e => e.path <+: spath) := by
    intro spath
    apply find_congr
    intro e he
    rw [Bool.eq_iff_iff, startsPath_iff (hshort e (h.map_entry_perm.mem_iff.mp he)),
      decide_eq_true_iff]
  simp only [findHandler, Gusher.findHandler]
  split
  case isTrue => rfl
  case isFalse =>
      cases loc.toLocaleString (request.assqRef "url-path".toList) with
      | none => rfl
      | some spath =>
          rw [Option.bind_some, Option.map_some,
            findLoop_eq spath h.linked (Nat.le_of_eq h.length_eq), hfind, firstHandler_eq]
          cases hfound : (l.map s.entry).find? (fun e => e.path <+: spath) with
          | none => rfl
          | some e =>
              have hmem := h.map_entry_perm.mem_iff.mp (List.mem_of_find?_eq_some hfound)
              have hint : intLength e.path = e.path.length :=
                (bmod_natCast_eq_iff _).mpr (hshort e hmem)
              simp only [handlerPair, hint, Int.natCast_nonneg, if_true, Int.toNat_natCast,
                Option.map_some]

end Handlers

/-! ### Longest prefixes -/

/-- The calls that return are those whose path is encoded. -/
theorem encode_of_registered {loc : Locale} {calls : List (Scm × Scm)} {e : Text × Scm}
    (he : e ∈ registered loc calls) :
  loc.encode e.1 = some (handlerEntry loc e).path
  := by
  obtain ⟨call, -, hcall⟩ := List.mem_filterMap.mp he
  split at hcall
  case h_1 t _ =>
      split at hcall
      case isTrue hsome =>
          obtain rfl := Option.some.inj hcall
          obtain ⟨p, hp⟩ := Option.isSome_iff_exists.mp hsome
          simp [handlerEntry, hp]
      case isFalse => cases hcall
  case h_2 => cases hcall

theorem mem_registered {loc : Locale} {calls : List (Scm × Scm)} {t : Text} {h : Scm}
    (hmem : (.str t, h) ∈ calls) (hencode : (loc.encode t).isSome) :
  (t, h) ∈ registered loc calls
  := by
  apply List.mem_filterMap.mpr
  use (.str t, h), hmem
  simp [hencode]

section

variable {loc : Locale} {code : Char → Option (List UInt8)} {calls : List (Scm × Scm)}
  {s : Handlers} {l : List ℕ}

/-- In a sorted list the first path that starts the path of the request is the longest one. -/
theorem longest_of_find (hloc : loc.Charwise code) {u t : Text} {h : Scm} {spath : List UInt8}
    {entries : List HandlerEntry}
    (hperm : entries.Perm ((registered loc calls).map (handlerEntry loc)))
    (hsorted : entries.Pairwise (fun e e' => e'.path.length ≤ e.path.length))
    (hu : loc.encode u = some spath) (hth : (t, h) ∈ registered loc calls)
    (hfound : entries.find? (fun e => e.path <+: spath) = some (handlerEntry loc (t, h))) :
  Longest (registered loc calls) u t
  := by
  have ht := encode_of_registered hth
  have hstarts : (handlerEntry loc (t, h)).path <+: spath := by
    simpa using List.find?_some hfound
  have htu : t <+: u := (hloc.prefix_iff ht hu).mpr hstarts
  constructor
  · exact htu
  · intro e he heu
    have hp := encode_of_registered he
    apply hloc.length_le htu heu ht hp
    have hmem : handlerEntry loc e ∈ entries := by
      rw [hperm.mem_iff]
      apply List.mem_map_of_mem he
    have hstarts' : decide ((handlerEntry loc e).path <+: spath) = true := by
      simpa using (hloc.prefix_iff hp hu).mp heu
    obtain heq | hle := rel_of_find hsorted hfound hmem hstarts'
    · rw [heq]
    · exact hle

/-- When the paths are shorter than 2³¹ bytes, the requests go to the longest prefixes. -/
theorem Handlers.Holds.routes (h : s.Holds l) (hloc : loc.Charwise code)
    (hentries : s.entries = (registered loc calls).map (handlerEntry loc))
    (hshort : ∀ e ∈ s.entries, e.path.length < 2 ^ 31) :
  Routes loc s (registered loc calls)
  := by
  have hperm : (l.map s.entry).Perm ((registered loc calls).map (handlerEntry loc)) := by
    rw [← hentries]
    exact h.map_entry_perm
  have hsorted := h.sorted_map_entry hshort
  constructor
  case list => exact ⟨l, h.linked, hperm, hsorted⟩
  case lookup =>
      intro request u hpath hu
      obtain ⟨spath, hspath⟩ := Option.isSome_iff_exists.mp hu
      have hrun : s.findHandler loc request = some (firstHandler loc spath (l.map s.entry)) := by
        rw [h.findHandler_eq hshort, Gusher.findHandler, hpath, if_neg (by simp),
          Locale.toLocaleString, hspath, Option.map_some]
      refine ⟨_, hrun, ?_⟩
      rw [Handlers.firstHandler_eq]
      cases hfound : (l.map s.entry).find? (fun e => e.path <+: spath) with
      | none =>
          refine ⟨?_, fun hne => absurd rfl hne⟩
          simp only [true_iff]
          intro e he heu
          have hnot := List.find?_eq_none.mp hfound (handlerEntry loc e)
            (hperm.mem_iff.mpr (List.mem_map_of_mem he))
          apply hnot
          simpa using (hloc.prefix_iff (encode_of_registered he) hspath).mp heu
      | some e =>
          have hmem := hperm.mem_iff.mp (List.mem_of_find?_eq_some hfound)
          obtain ⟨⟨t, lambda⟩, hreg, rfl⟩ := List.mem_map.mp hmem
          have ht := encode_of_registered hreg
          have hstarts : (handlerEntry loc (t, lambda)).path <+: spath := by
            simpa using List.find?_some hfound
          obtain ⟨rest, rfl, hrest⟩ := hloc.exists_append ht hspath hstarts
          constructor
          · simp only [reduceCtorEq, false_iff, not_forall]
            exact ⟨(t, lambda), hreg, not_not.mpr (List.prefix_append t rest)⟩
          · intro _
            refine ⟨t, lambda, rest, hreg,
              longest_of_find hloc hperm hsorted hspath hreg hfound, rfl, ?_⟩
            simp only [hloc.decode_encode hrest]
            rfl

/-- A path of 2³¹ bytes or more is not what is left out of the path of its own request. -/
theorem Handlers.Holds.findHandler_ne (h : s.Holds l) (hloc : loc.Charwise code) {e : Text × Scm}
    (he : e ∈ registered loc calls)
    (hlong : 2 ^ 31 ≤ (handlerEntry loc e).path.length) (lambda : Scm) :
  s.findHandler loc (.acons "url-path" (.str e.1) .nil) ≠ some (.pair lambda (.str []))
  := by
  intro hr
  have hpath := encode_of_registered he
  have hrequest : (Scm.acons "url-path" (.str e.1) .nil).assqRef "url-path".toList = .str e.1 := by
    simp
  rw [Handlers.findHandler, hrequest, if_neg (by simp), Locale.toLocaleString, hpath,
    Option.bind_some, Handlers.findLoop_eq _ h.linked (Nat.le_of_eq h.length_eq)] at hr
  split at hr
  case h_1 => cases hr
  case h_2 first _ =>
      have hint : Handlers.intLength first.path < 2 ^ 31 := bmod_lt _
      rw [Handlers.handlerPair] at hr
      split at hr
      case isTrue hnonneg =>
          obtain ⟨-, hdecode⟩ := Scm.pair.inj (Option.some.inj hr)
          have hdrop := hloc.decode_ne_nil
            (s := (handlerEntry loc e).path.drop (Handlers.intLength first.path).toNat)
          rw [Scm.str.inj hdecode] at hdrop
          apply absurd rfl (hdrop _)
          rw [Ne, List.drop_eq_nil_iff]
          omega
      case isFalse => cases hr

/-- A path of 2³¹ bytes or more makes the routing fail. -/
theorem Handlers.Holds.not_routes (h : s.Holds l) (hloc : loc.Charwise code) {e : Text × Scm}
    (he : e ∈ registered loc calls)
    (hlong : 2 ^ 31 ≤ (handlerEntry loc e).path.length) :
  ¬ Routes loc s (registered loc calls)
  := by
  intro hroutes
  have hpath := encode_of_registered he
  have hrequest : (Scm.acons "url-path" (.str e.1) .nil).assqRef "url-path".toList = .str e.1 := by
    simp
  obtain ⟨r, hr, hfalse, hfound⟩ := hroutes.lookup _ e.1 hrequest (by rw [hpath]; rfl)
  have hne : r ≠ .bool false := by
    intro heq
    exact hfalse.mp heq e he (List.prefix_refl _)
  obtain ⟨t, lambda, rest, -, hlongest, hsplit, rfl⟩ := hfound hne
  -- the longest prefix is the path itself, and nothing is left
  have hrest : rest = [] := by
    have hle := hlongest.longest e he (List.prefix_refl _)
    rw [hsplit, List.length_append] at hle
    exact List.eq_nil_of_length_eq_zero (by omega)
  rw [hrest] at hr
  exact h.findHandler_ne hloc he hlong lambda hr

end

/-- When the number of entries is an `int`, the calls of `set_handler` leave a list of their
entries. -/
theorem exists_setHandlers {loc : Locale} {qsort : (ℕ → ℕ → ℤ) → List ℕ → List ℕ}
    (hqsort : ∀ cmp l, QSort cmp l (qsort cmp l)) {calls : List (Scm × Scm)}
    (hcount : (registered loc calls).length < 2 ^ 31) :
  ∃ s l, Handlers.empty.setHandlers loc qsort calls = some s ∧ s.Holds l ∧
    s.entries = (registered loc calls).map (handlerEntry loc) ∧
    (registered loc calls ≠ [] → s.Resorted qsort l)
  := by
  obtain ⟨s, l, hs, hholds, hentries, hlast⟩ := Handlers.holds_empty.setHandlers hqsort calls
    (by simpa [Handlers.empty] using hcount)
  refine ⟨s, l, hs, hholds, hentries, fun hne => ?_⟩
  obtain ⟨rfl, -⟩ | hsort := hlast
  · exact absurd (List.map_eq_nil_iff.mp hentries.symm) hne
  · exact hsort

/-- Calls of `set_handler` that return leave fewer than 2³¹ entries. -/
theorem length_registered_lt {loc : Locale} {qsort : (ℕ → ℕ → ℤ) → List ℕ → List ℕ}
    (hqsort : ∀ cmp l, QSort cmp l (qsort cmp l)) {calls : List (Scm × Scm)} {s : Handlers}
    (hs : Handlers.empty.setHandlers loc qsort calls = some s) :
  (registered loc calls).length < 2 ^ 31
  := by
  by_contra hmany
  rw [Handlers.holds_empty.setHandlers_eq_none hqsort calls (by decide)
    (by simpa [Handlers.empty] using hmany)] at hs
  cases hs

/-- A call with a path of 2³¹ characters or more makes the routing fail. -/
theorem not_routes_of_long {calls : List (Scm × Scm)} {t : Text} {h : Scm}
    (hmem : (.str t, h) ∈ calls) (hencode : (utf8.encode t).isSome) (hlong : 2 ^ 31 ≤ t.length) :
  ¬ ∃ s, Handlers.empty.setHandlers utf8 mergeSort calls = some s ∧
    Routes utf8 s (registered utf8 calls)
  := by
  rintro ⟨s, hs, hroutes⟩
  have hreg := mem_registered hmem hencode
  obtain ⟨s', l, hs', hholds, -⟩ := exists_setHandlers qsort_mergeSort
    (length_registered_lt qsort_mergeSort hs)
  obtain rfl := Option.some.inj (hs.symm.trans hs')
  apply hholds.not_routes charwise_utf8 hreg _ hroutes
  exact hlong.trans (charwise_utf8.length_le_encode (encode_of_registered hreg))

/-- A string of `a`s is encoded. -/
theorem utf8_encode_replicate (n : ℕ) :
  (utf8.encode (List.replicate n 'a')).isSome
  := by
  have hnul : Char.ofNat 0 ∉ List.replicate n 'a' := by
    intro hmem
    exact absurd (List.eq_of_mem_replicate hmem) (by decide)
  simp only [utf8, toUtf8, if_neg hnul, Option.isSome_some]

/-- The list of handlers routes each request to the longest registered prefix, whatever the calls
of `set_handler` and their order, exactly when the number of entries is an `int` and the paths
are shorter than 2³¹ bytes. -/
theorem routes_iff {loc : Locale} {code : Char → Option (List UInt8)} (hloc : loc.Charwise code)
    {qsort : (ℕ → ℕ → ℤ) → List ℕ → List ℕ} (hqsort : ∀ cmp l, QSort cmp l (qsort cmp l))
    (calls : List (Scm × Scm)) :
  (∃ s, Handlers.empty.setHandlers loc qsort calls = some s ∧ Routes loc s (registered loc calls))
    ↔ (registered loc calls).length < 2 ^ 31 ∧
      ∀ e ∈ registered loc calls, (handlerEntry loc e).path.length < 2 ^ 31
  := by
  constructor
  · rintro ⟨s, hs, hroutes⟩
    have hcount := length_registered_lt hqsort hs
    refine ⟨hcount, ?_⟩
    intro e he
    by_contra hlong
    obtain ⟨s', l, hs', hholds, -⟩ := exists_setHandlers hqsort hcount
    obtain rfl := Option.some.inj (hs.symm.trans hs')
    exact hholds.not_routes hloc he (Nat.le_of_not_lt hlong) hroutes
  · rintro ⟨hcount, hshort⟩
    obtain ⟨s, l, hs, hholds, hentries, -⟩ := exists_setHandlers hqsort hcount
    refine ⟨s, hs, hholds.routes hloc hentries ?_⟩
    rw [hentries]
    intro e he
    obtain ⟨e', he', rfl⟩ := List.mem_map.mp he
    exact hshort e' he'

theorem routes_root_and_status :
  ∃ s, Handlers.empty.setHandlers utf8 mergeSort
      [(.str "/".toList, .other 0), (.str "/status".toList, .other 1)] = some s ∧
    Routes utf8 s (registered utf8
      [(.str "/".toList, .other 0), (.str "/status".toList, .other 1)])
  := (routes_iff charwise_utf8 qsort_mergeSort _).mpr ⟨by decide, by decide⟩

/-- A path of 2³¹ + 2 bytes and one of one byte: the difference of the lengths is a negative
`int`. -/
theorem not_routes_long_path :
  ¬ ∃ s, Handlers.empty.setHandlers utf8 mergeSort
      [(.str (List.replicate (2 ^ 31 + 2) 'a'), .other 0), (.str ['b'], .other 1)] = some s ∧
    Routes utf8 s (registered utf8
      [(.str (List.replicate (2 ^ 31 + 2) 'a'), .other 0), (.str ['b'], .other 1)])
  := not_routes_of_long List.mem_cons_self (utf8_encode_replicate _)
    (by rw [List.length_replicate]; omega)

end Gusher
