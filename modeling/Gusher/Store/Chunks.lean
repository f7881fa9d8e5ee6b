import Gusher.Library.LinkedList
import Gusher.Library.Loop
import Gusher.Library.Memory
import Mathlib.Algebra.GroupWithZero.Nat

/-!
# The body of a response

`write_handler` pushes each piece of data that arrives on a list.  At the end `http_get_master` adds
up the sizes and fills a block from its end to its start, while it goes down the list and frees the
nodes.  A node that is not allocated, or is no longer, is not read and not freed: that is a fault.
-/

namespace Gusher

open LinkedList Memory

structure CNode where
  next : Option ℕ
  size : ℕ
  content : List UInt8

/-- The nodes that are allocated, at their addresses. -/
abbrev Nodes := ℕ → Option CNode

/-- The data of a call of `write_handler`: `n` pieces of `size` bytes. -/
structure Delivery where
  buffer : List UInt8
  size : ℕ
  n : ℕ
  length_eq : buffer.length = size * n

/-- `write_handler`, with the node that `malloc` gives: the nodes, the head of the list, and what is
returned; `none` when it reads beyond the data. -/
def writeHandler (heap : Nodes) (node : ℕ) (userp : Option ℕ) (d : Delivery) :
    Option (Nodes × Option ℕ × ℕ) :=
  let rsize := d.size * d.n
  (bytes d.buffer 0 rsize).map (fun content =>
    (Function.update heap node (some ⟨userp, rsize, content⟩), some node, rsize))

/-- The calls of `write_handler` in a transfer: `malloc` gives any address that is not in use. -/
inductive Transfer : Nodes → Option ℕ → List Delivery → Nodes → Option ℕ → Prop where
  | done (heap : Nodes) (chunks : Option ℕ) : Transfer heap chunks [] heap chunks
  | write {heap heap₁ heap₂ : Nodes} {chunks chunks₁ chunks₂ : Option ℕ} {d : Delivery}
      {ds : List Delivery} {node rsize : ℕ} (hmalloc : heap node = none)
      (hwrite : writeHandler heap node chunks d = some (heap₁, chunks₁, rsize))
      (hrest : Transfer heap₁ chunks₁ ds heap₂ chunks₂) :
      Transfer heap chunks (d :: ds) heap₂ chunks₂

/-- A round of the loop that adds up the sizes. -/
def sizeRound (heap : Nodes) : Option ℕ × ℕ → Round (Option ℕ × ℕ) ℕ
  | (none, tsize) => .stop tsize
  | (some p, tsize) =>
      match heap p with
      | none => .fault
      | some node => .next (node.next, tsize + node.size)

/-- Where the loop that fills the block stands: the nodes, those that have been freed, the block,
the place in it, and what is left of the list. -/
structure Filling where
  heap : Nodes
  freed : List ℕ
  bag : List UInt8
  pt : ℤ
  chunks : Option ℕ

def fillRound (s : Filling) : Round Filling Filling :=
  match s.chunks with
  | none => .stop s
  | some p =>
      match s.heap p with
      | none => .fault
      | some node =>
          match (bytes node.content 0 node.size).bind (copy s.bag (s.pt - node.size)) with
          | none => .fault
          | some bag =>
              .next {
                heap := Function.update s.heap p none
                freed := s.freed ++ [p]
                bag := bag
                pt := s.pt - node.size
                chunks := node.next }

/-- The end of `http_get_master` after a transfer: the total size, and where the loop that fills the
block ends.  Each loop makes at most the given number of rounds. -/
def assemble (malloc : ℕ → List UInt8) (fuel : ℕ) (heap : Nodes) (chunks : Option ℕ) :
    Progress (ℕ × Filling) :=
  match Loop.run (sizeRound heap) fuel (chunks, 0) with
  | .running => .running
  | .fault => .fault
  | .done tsize =>
      match Loop.run fillRound fuel ⟨heap, [], malloc (tsize + 1), tsize, chunks⟩ with
      | .running => .running
      | .fault => .fault
      | .done s => .done (tsize, s)

/-! ### The list of the nodes -/

/-- The link of a node. -/
def nextOf (heap : Nodes) (p : ℕ) : Option ℕ :=
  (heap p).bind CNode.next

/-- The list from a node on: the addresses of the nodes, and what they hold. -/
structure ChunkList (heap : Nodes) (chunks : Option ℕ) (l : List (ℕ × List UInt8)) : Prop where
  linked : Linked (nextOf heap) chunks (l.map Prod.fst)
  nodup : (l.map Prod.fst).Nodup
  content : ∀ x ∈ l, ∃ next, heap x.1 = some ⟨next, x.2.length, x.2⟩

/-- The nodes without those at some addresses. -/
def erase (heap : Nodes) (ps : List ℕ) : Nodes :=
  fun p => if p ∈ ps then none else heap p

@[simp]
theorem erase_nil (heap : Nodes) :
  erase heap [] = heap
  := by
  funext p
  apply if_neg List.not_mem_nil

theorem erase_cons (heap : Nodes) (p : ℕ) (ps : List ℕ) :
  erase heap (p :: ps) = erase (Function.update heap p none) ps
  := by
  funext q
  by_cases hq : q = p
  · subst hq
    simp [erase]
  · simp [erase, hq]

section ChunkList

variable {heap : Nodes} {chunks : Option ℕ} {l : List (ℕ × List UInt8)} {p node : ℕ}
  {s : List UInt8}

theorem nextOf_update (c : Option CNode) :
  nextOf (Function.update heap node c) = Function.update (nextOf heap) node (c.bind CNode.next)
  := by
  funext p
  by_cases hp : p = node
  · subst hp
    simp [nextOf]
  · simp [nextOf, hp]

/-- A node is pushed. -/
theorem ChunkList.push (h : ChunkList heap chunks l) (hnode : heap node = none) :
  ChunkList (Function.update heap node (some ⟨chunks, s.length, s⟩)) (some node) ((node, s) :: l)
  := by
  have hnew : node ∉ l.map Prod.fst := by
    intro hmem
    obtain ⟨x, hx, rfl⟩ := List.mem_map.mp hmem
    obtain ⟨next, hsome⟩ := h.content x hx
    rw [hnode] at hsome
    cases hsome
  exact {
    linked := by
      rw [nextOf_update]
      apply h.linked.push hnew
    nodup := List.nodup_cons.mpr ⟨hnew, h.nodup⟩
    content := by
      intro x hx
      obtain rfl | hx := List.mem_cons.mp hx
      · exact ⟨chunks, Function.update_self node _ heap⟩
      · have hmem : x.1 ∈ l.map Prod.fst := List.mem_map_of_mem hx
        have hne : x.1 ≠ node := fun heq => hnew (heq ▸ hmem)
        rw [Function.update_of_ne hne]
        apply h.content x hx }

/-- The first node of the list, and the rest of the list without it. -/
theorem ChunkList.pop (h : ChunkList heap chunks ((p, s) :: l)) :
  ∃ next, chunks = some p ∧ heap p = some ⟨next, s.length, s⟩ ∧ ChunkList heap next l
    ∧ ChunkList (Function.update heap p none) next l
  := by
  obtain ⟨next, hp⟩ := h.content (p, s) List.mem_cons_self
  obtain ⟨rfl, hlinked⟩ := linked_cons.mp h.linked
  obtain ⟨hnotMem, hnodup⟩ := List.nodup_cons.mp h.nodup
  have hnext : nextOf heap p = next := by rw [nextOf, hp, Option.bind_some]
  rw [hnext] at hlinked
  refine ⟨next, rfl, hp, ⟨hlinked, hnodup, fun x hx => h.content x (List.mem_cons_of_mem _ hx)⟩, ?_⟩
  exact {
    linked := by
      rw [nextOf_update]
      apply hlinked.update hnotMem _
    nodup := hnodup
    content := by
      intro x hx
      have hmem : x.1 ∈ l.map Prod.fst := List.mem_map_of_mem hx
      have hne : x.1 ≠ p := fun heq => hnotMem (heq ▸ hmem)
      rw [Function.update_of_ne hne]
      apply h.content x (List.mem_cons_of_mem _ hx) }

end ChunkList

/-! ### The transfer -/

/-- The data of a call is copied into a node. -/
theorem writeHandler_eq (heap : Nodes) (node : ℕ) (chunks : Option ℕ) (d : Delivery) :
  writeHandler heap node chunks d
    = some (Function.update heap node (some ⟨chunks, d.buffer.length, d.buffer⟩), some node,
        d.buffer.length)
  := by
  have hbytes : bytes d.buffer 0 d.buffer.length = some d.buffer :=
    bytes_eq (a := []) (s := d.buffer) (b := []) (by simp) rfl rfl
  rw [writeHandler, ← d.length_eq, hbytes]
  rfl

/-- In a transfer the data are pushed one after the other, in nodes that were not in use. -/
theorem exists_of_transfer {heap heap' : Nodes} {chunks chunks' : Option ℕ} {ds : List Delivery}
    (h : Transfer heap chunks ds heap' chunks') {l : List (ℕ × List UInt8)}
    (hl : ChunkList heap chunks l) :
  ∃ l', ChunkList heap' chunks' (l' ++ l) ∧ l'.reverse.map Prod.snd = ds.map Delivery.buffer ∧
    l'.length = ds.length ∧ erase heap' (l'.map Prod.fst) = heap ∧
    ∀ p ∈ l'.map Prod.fst, heap p = none
  := by
  induction h generalizing l with
  | done heap chunks => exact ⟨[], hl, rfl, rfl, erase_nil heap, by simp⟩
  | @write heap heap₁ heap₂ chunks chunks₁ chunks₂ d ds node rsize hmalloc hwrite _ ih =>
      rw [writeHandler_eq] at hwrite
      obtain ⟨rfl, rfl, rfl⟩ : Function.update heap node
          (some ⟨chunks, d.buffer.length, d.buffer⟩) = heap₁ ∧ some node = chunks₁ ∧
          d.buffer.length = rsize := by simpa using hwrite
      obtain ⟨l', hholds, hdata, hlen, herase, hnew⟩ := ih (hl.push hmalloc)
      refine ⟨l' ++ [(node, d.buffer)], ?_, ?_, ?_, ?_, ?_⟩
      · rw [List.append_assoc]
        apply hholds
      · rw [List.reverse_append, List.map_append, hdata]
        rfl
      · rw [List.length_append, hlen]
        rfl
      · funext p
        have hp := congrFun herase p
        by_cases hnode : p = node
        · subst hnode
          simp [erase, hmalloc]
        · rw [Function.update_of_ne hnode] at hp
          simp only [erase] at hp ⊢
          rw [← hp]
          congr 1
          simp [hnode]
      · intro p hp
        rw [List.map_append, List.mem_append] at hp
        obtain hp | hp := hp
        · have hnone := hnew p hp
          by_cases hnode : p = node
          · subst hnode
            apply hmalloc
          · rwa [Function.update_of_ne hnode] at hnone
        · rw [List.map_singleton, List.mem_singleton] at hp
          rw [hp]
          apply hmalloc

/-! ### The loops -/

/-- The loop adds up the sizes of the nodes. -/
theorem run_sizeRound {heap : Nodes} {chunks : Option ℕ} {l : List (ℕ × List UInt8)}
    (h : ChunkList heap chunks l) (tsize : ℕ) :
  Loop.run (sizeRound heap) (l.length + 1) (chunks, tsize)
    = .done (tsize + (l.map (fun x => x.2.length)).sum)
  := by
  induction l generalizing chunks tsize with
  | nil =>
      obtain rfl := linked_nil.mp h.linked
      rfl
  | cons x l ih =>
      obtain ⟨p, s⟩ := x
      obtain ⟨next, rfl, hp, hrest, -⟩ := h.pop
      have hround : sizeRound heap (some p, tsize) = .next (next, tsize + s.length) := by
        simp [sizeRound, hp]
      rw [List.length_cons, Loop.run_next hround, ih hrest, List.map_cons, List.sum_cons,
        Nat.add_assoc]

/-- The loop fills the part `a` of the block that is left with the data of the nodes, the last node
first, and frees them. -/
theorem run_fillRound {heap : Nodes} {chunks : Option ℕ} {l : List (ℕ × List UInt8)}
    (h : ChunkList heap chunks l) (freed : List ℕ) {a : List UInt8} (b : List UInt8)
    (ha : a.length = (l.map (fun x => x.2.length)).sum) :
  Loop.run fillRound (l.length + 1) ⟨heap, freed, a ++ b, a.length, chunks⟩
    = .done ⟨erase heap (l.map Prod.fst), freed ++ l.map Prod.fst,
        (l.reverse.map Prod.snd).flatten ++ b, 0, none⟩
  := by
  induction l generalizing heap chunks freed a b with
  | nil =>
      obtain rfl := linked_nil.mp h.linked
      obtain rfl := List.eq_nil_of_length_eq_zero ha
      simp [Loop.run, fillRound]
  | cons x l ih =>
      obtain ⟨p, s⟩ := x
      obtain ⟨next, rfl, hp, -, hfree⟩ := h.pop
      have ha : a.length = s.length + (l.map (fun x => x.2.length)).sum := ha
      -- the end of what is left has the size of the node
      obtain ⟨a₁, a₂, rfl, hlen⟩ : ∃ a₁ a₂, a = a₁ ++ a₂ ∧ a₂.length = s.length := by
        refine ⟨a.take (a.length - s.length), a.drop (a.length - s.length), ?_, ?_⟩
        · rw [List.take_append_drop]
        · rw [List.length_drop]
          omega
      have hlen₁ : a₁.length = (l.map (fun x => x.2.length)).sum := by
        rw [List.length_append] at ha
        omega
      have hbytes : bytes s 0 s.length = some s :=
        bytes_eq (a := []) (s := s) (b := []) (by simp) rfl rfl
      have hpt : ((a₁ ++ a₂).length : ℤ) - s.length = a₁.length := by
        rw [List.length_append, hlen]
        push_cast
        omega
      have hcopy : copy (a₁ ++ a₂ ++ b) a₁.length s = some (a₁ ++ s ++ b) :=
        copy_eq (s := a₂) (by rw [List.append_assoc]) rfl hlen.symm
      have hround : fillRound ⟨heap, freed, a₁ ++ a₂ ++ b, ((a₁ ++ a₂).length : ℕ), some p⟩
          = .next ⟨Function.update heap p none, freed ++ [p], a₁ ++ s ++ b, a₁.length, next⟩ := by
        simp only [fillRound, hp, hbytes, Option.bind_some, hpt, hcopy]
      rw [List.length_cons, Loop.run_next hround, List.append_assoc a₁ s b,
        ih hfree (freed ++ [p]) (s ++ b) hlen₁, List.map_cons, erase_cons]
      simp

/-! ### The whole response -/

/-- **Reassembly of a body.**  From the data of a transfer, whatever the sizes, both loops come to
their end.  The block has one byte more than the total size and starts with the data in the order in
which they arrived; the loop stops at its start, every node of the transfer has been freed once, and
no other one. -/
theorem body_assembled {heap heap' : Nodes} {chunks : Option ℕ} {ds : List Delivery}
    {malloc : ℕ → List UInt8} (htransfer : Transfer heap none ds heap' chunks)
    (hmalloc : ∀ n, (malloc n).length = n) :
  ∃ fuel tsize s, assemble malloc fuel heap' chunks = .done (tsize, s) ∧
    tsize = (ds.map (fun d => d.size * d.n)).sum ∧ s.bag.length = tsize + 1 ∧
    s.bag.take tsize = (ds.map Delivery.buffer).flatten ∧ s.pt = 0 ∧
    s.freed.Nodup ∧ (∀ p, p ∈ s.freed ↔ heap p = none ∧ heap' p ≠ none) ∧ s.heap = heap
  := by
  have hempty : ChunkList heap none [] := ⟨rfl, List.nodup_nil, by simp⟩
  obtain ⟨l, hholds, hdata, -, herase, hnew⟩ := exists_of_transfer htransfer hempty
  rw [List.append_nil] at hholds
  -- the total size is the length of the data
  have hsum : (l.map (fun x => x.2.length)).sum = ((ds.map Delivery.buffer).flatten).length := by
    rw [← hdata, List.length_flatten, List.map_map, List.map_reverse, List.sum_reverse]
    rfl
  have htsize : ((ds.map Delivery.buffer).flatten).length
      = (ds.map (fun d => d.size * d.n)).sum := by
    rw [List.length_flatten, List.map_map]
    congr 1
    apply List.map_congr_left
    intro d _
    apply d.length_eq
  have hsize := run_sizeRound hholds 0
  rw [Nat.zero_add, hsum] at hsize
  -- the block, and its last byte
  obtain ⟨a, last, hblock, hlen⟩ : ∃ a last,
      malloc (((ds.map Delivery.buffer).flatten).length + 1) = a ++ [last] ∧
        a.length = ((ds.map Delivery.buffer).flatten).length := by
    have hne : malloc (((ds.map Delivery.buffer).flatten).length + 1) ≠ [] := by
      intro hnil
      have hlen := hmalloc (((ds.map Delivery.buffer).flatten).length + 1)
      rw [hnil] at hlen
      cases hlen
    refine ⟨_, _, (List.dropLast_append_getLast hne).symm, ?_⟩
    rw [List.length_dropLast, hmalloc, Nat.add_sub_cancel]
  have hfill := run_fillRound hholds [] [last] (hlen.trans hsum.symm)
  rw [hdata, herase, List.nil_append, hlen] at hfill
  refine ⟨l.length + 1, ((ds.map Delivery.buffer).flatten).length,
    ⟨heap, l.map Prod.fst, (ds.map Delivery.buffer).flatten ++ [last], 0, none⟩,
    ?_, htsize, ?_, ?_, rfl, hholds.nodup, ?_, rfl⟩
  · rw [assemble, hsize]
    simp only
    rw [hblock, hfill]
  · rw [List.length_append]
    rfl
  · apply List.take_left
  · intro p
    constructor
    · intro hp
      refine ⟨hnew p hp, ?_⟩
      obtain ⟨x, hx, rfl⟩ := List.mem_map.mp hp
      obtain ⟨next, hsome⟩ := hholds.content x hx
      rw [hsome]
      apply Option.some_ne_none _
    · rintro ⟨hnone, hsome⟩
      by_contra hp
      have heq := congrFun herase p
      rw [erase, if_neg hp, hnone] at heq
      apply hsome heq

/-- Three pieces of data, the second one empty. -/
theorem body_assembled_three :
  ∃ fuel tsize s, assemble (fun n => List.replicate n 0) fuel
      (Function.update (Function.update (Function.update (fun _ => none) 8 (some ⟨none, 2, [71, 85]⟩))
        3 (some ⟨some 8, 0, []⟩)) 5 (some ⟨some 3, 1, [83]⟩)) (some 5) = .done (tsize, s) ∧
    s.bag.take tsize = [71, 85, 83]
  := by
  let d₁ : Delivery := ⟨[71, 85], 1, 2, rfl⟩
  let d₂ : Delivery := ⟨[], 1, 0, rfl⟩
  let d₃ : Delivery := ⟨[83], 1, 1, rfl⟩
  have htransfer : Transfer (fun _ => none) none [d₁, d₂, d₃]
      (Function.update (Function.update (Function.update (fun _ => none) 8
        (some ⟨none, 2, [71, 85]⟩)) 3 (some ⟨some 8, 0, []⟩)) 5 (some ⟨some 3, 1, [83]⟩))
      (some 5) :=
    .write rfl rfl (.write rfl rfl (.write rfl rfl (.done _ _)))
  obtain ⟨fuel, tsize, s, hrun, -, -, hbody, -⟩ :=
    @body_assembled _ _ _ _ (fun n => List.replicate n 0) htransfer
      (fun _ => List.length_replicate)
  exact ⟨fuel, tsize, s, hrun, hbody⟩

end Gusher
