import Gusher.Library.Loop
import Gusher.Library.Memory
import Gusher.Library.Urlencoded
import Gusher.Reply.Send
import Gusher.Scheme.Utf8
import Mathlib.Algebra.GroupWithZero.Nat

/-!
# The buffer of a post

`post_data` adds up the sizes of the pairs in one loop and writes the pairs in another, into a block
of just the size that it needs.  The terminator of each copy is overwritten by what comes next.
Without pairs the block is empty, and there is no room for the terminator.
-/

namespace Gusher

open CString Memory Urlencoded

/-- What `post_data` calls: `curl_easy_escape`, which makes a string of a string, and `malloc`. -/
structure PostLibrary where
  escape : List UInt8 → List UInt8
  zero_notMem_escape : ∀ s, (0 : UInt8) ∉ escape s
  malloc : ℕ → List UInt8
  length_malloc : ∀ n, (malloc n).length = n

/-- What the code relies on: every byte is escaped except letters, digits and four marks. -/
def PostLibrary.Percent (lib : PostLibrary) : Prop :=
  ∀ s, (0 : UInt8) ∉ s → lib.escape s = percentEncode s

/-- A library that escapes these bytes, with memory that is clear. -/
def curlLibrary : PostLibrary where
  escape := percentEncode
  zero_notMem_escape _ hmem := (of_mem_percentEncode hmem).1 rfl
  malloc n := List.replicate n 0
  length_malloc _ := List.length_replicate

theorem percent_curlLibrary :
  curlLibrary.Percent
  := fun _ _ => rfl

section

variable (lib : PostLibrary)

/-- The first loop of `post_data`: the duples, their number, and the sum of their sizes; `none`
stands for an exception. -/
def collectDuples : Scm → List (List UInt8 × List UInt8) → ℕ → ℕ →
    Option (List (List UInt8 × List UInt8) × ℕ × ℕ)
  | .nil, duples, nduples, len => some (duples, nduples, len)
  | .pair (.pair key value) node, duples, nduples, len =>
      (toUtf8String key).bind (fun key =>
        (toUtf8String value).bind (fun value =>
          let value := lib.escape value
          collectDuples node ((key, value) :: duples) (nduples + 1)
            (len + (key.length + value.length + 1))))
  | _, _, _, _ => none

/-- What the second loop of `post_data` writes of a duple at `cpt`. -/
def writeDuple (buf : List UInt8) (cpt : ℕ) (pt : List UInt8 × List UInt8) :
    Option (List UInt8) :=
  (strcpy buf cpt pt.1).bind (fun buf =>
    (store buf (cpt + pt.1.length) 61).bind (fun buf =>
      strcpy buf (cpt + pt.1.length + 1) pt.2))

/-- The second loop of `post_data`, and the terminator. -/
def writeDuples (buf : List UInt8) (cpt : ℕ) (first : Bool) :
    List (List UInt8 × List UInt8) → Option (List UInt8)
  | [] => store buf cpt 0
  | pt :: duples =>
      if first then
        (writeDuple buf cpt pt).bind (fun buf =>
          writeDuples buf (cpt + pt.1.length + 1 + pt.2.length) false duples)
      else
        (store buf cpt 38).bind (fun buf =>
          (writeDuple buf (cpt + 1) pt).bind (fun buf =>
            writeDuples buf (cpt + 1 + pt.1.length + 1 + pt.2.length) false duples))

/-- `post_data` for the value of `post`, with checked accesses: `none` stands for an exception, and
`some none` for an access outside the block. -/
def postBuffer (post : Scm) : Option (Option (List UInt8)) :=
  (collectDuples lib post [] 0 0).map (fun (duples, nduples, len) =>
    writeDuples (lib.malloc (len + nduples)) 0 true duples)

/-- `post_data`: `.done none` stands for an exception, and `.done (some none)` for the null
pointer. -/
def postData (args : Scm) : Progress (Option (Option (List UInt8))) :=
  let post := args.assqRef "post".toList
  if args = .nil ∨ post = .bool false then .done (some none)
  else
    match postBuffer lib post with
    | none => .done none
    | some none => .fault
    | some (some buf) => .done (some (some buf))

end

def duple (d : List UInt8 × List UInt8) : List UInt8 :=
  d.1 ++ 61 :: d.2

/-- The texts of the duples with separators in between. -/
def joinDuples : List (List UInt8 × List UInt8) → List UInt8
  | [] => []
  | [d] => duple d
  | d :: e :: ds => duple d ++ 38 :: joinDuples (e :: ds)

def duplesSize (ds : List (List UInt8 × List UInt8)) : ℕ :=
  (ds.map (fun d => d.1.length + d.2.length + 1)).sum

/-- The texts of the duples after the first one. -/
def restDuples (ds : List (List UInt8 × List UInt8)) : List UInt8 :=
  ds.flatMap (fun d => 38 :: duple d)

/-- The value of `post`: a list of pairs of strings. -/
def postPairs (ps : List (Text × Text)) : Scm :=
  .ofList (ps.map (fun p => .pair (.str p.1) (.str p.2)))

/-- No string of the pairs has a NUL, which `scm_to_utf8_string` does not convert. -/
def NulFreePairs (ps : List (Text × Text)) : Prop :=
  ∀ p ∈ ps, Char.ofNat 0 ∉ p.1 ∧ Char.ofNat 0 ∉ p.2

/-- The duple that `post_data` makes of a pair. -/
def PostLibrary.qduple (lib : PostLibrary) (p : Text × Text) : List UInt8 × List UInt8 :=
  (encodeUtf8 p.1, lib.escape (encodeUtf8 p.2))

/-- The text of a pair: the key, and the escaped value. -/
def PostLibrary.pairText (lib : PostLibrary) (p : Text × Text) : List UInt8 :=
  encodeUtf8 p.1 ++ 61 :: lib.escape (encodeUtf8 p.2)

/-- Whatever is in the block that is allocated: every byte that `post_data` writes lies inside, and
the pairs are there in reverse order, with separators in between; a string that is not converted
raises an exception before. -/
def FitsBuffer (ps : List (Text × Text)) : Prop :=
  ∀ lib : PostLibrary,
    (NulFreePairs ps → postBuffer lib (postPairs ps)
      = some (some ([38].intercalate (ps.reverse.map lib.pairText) ++ [0]))) ∧
    (¬ NulFreePairs ps → postBuffer lib (postPairs ps) = none)

/-! ### Sizes -/

theorem duplesSize_cons (d : List UInt8 × List UInt8) (ds : List (List UInt8 × List UInt8)) :
  duplesSize (d :: ds) = d.1.length + d.2.length + 1 + duplesSize ds
  := by simp [duplesSize]

theorem length_duple (d : List UInt8 × List UInt8) :
  (duple d).length = d.1.length + d.2.length + 1
  := by
  rw [duple, List.length_append, List.length_cons]
  omega

/-- Each duple after the first one takes its size and a separator. -/
theorem length_restDuples (ds : List (List UInt8 × List UInt8)) :
  (restDuples ds).length = duplesSize ds + ds.length
  := by
  induction ds with
  | nil => rfl
  | cons d ds ih =>
      have hlen : (restDuples (d :: ds)).length = (duple d).length + 1 + (restDuples ds).length := by
        rw [restDuples, List.flatMap_cons, List.length_append, List.length_cons]
        rfl
      rw [hlen, length_duple, ih, duplesSize_cons, List.length_cons]
      omega

/-- The loop over the duples writes the first one, and the others each with a separator. -/
theorem joinDuples_cons (d : List UInt8 × List UInt8) (ds : List (List UInt8 × List UInt8)) :
  joinDuples (d :: ds) = duple d ++ restDuples ds
  := by
  induction ds generalizing d with
  | nil => simp [joinDuples, restDuples]
  | cons e ds ih =>
      rw [joinDuples, ih, restDuples, restDuples, List.flatMap_cons]
      rfl

section

variable (lib : PostLibrary)

/-- The loop over the pairs turns them around, and adds up their sizes. -/
theorem collectDuples_postPairs {ps : List (Text × Text)} (hps : NulFreePairs ps)
    (duples : List (List UInt8 × List UInt8)) :
  collectDuples lib (postPairs ps) duples duples.length (duplesSize duples)
    = some ((ps.map lib.qduple).reverse ++ duples,
      ((ps.map lib.qduple).reverse ++ duples).length,
      duplesSize ((ps.map lib.qduple).reverse ++ duples))
  := by
  induction ps generalizing duples with
  | nil => rfl
  | cons p ps ih =>
      obtain ⟨hkey, hvalue⟩ := hps p List.mem_cons_self
      have hkey' : toUtf8String (.str p.1) = some (encodeUtf8 p.1) := if_neg hkey
      have hvalue' : toUtf8String (.str p.2) = some (encodeUtf8 p.2) := if_neg hvalue
      have hcons : postPairs (p :: ps) = .pair (.pair (.str p.1) (.str p.2)) (postPairs ps) := rfl
      have hrest := ih (fun q hq => hps q (List.mem_cons_of_mem p hq)) (lib.qduple p :: duples)
      rw [duplesSize_cons, List.length_cons, Nat.add_comm _ (duplesSize duples)] at hrest
      rw [hcons, collectDuples, hkey', Option.bind_some, hvalue', Option.bind_some, List.map_cons,
        List.reverse_cons, List.append_assoc]
      exact hrest

/-- A string with a NUL raises an exception. -/
theorem collectDuples_of_nul {ps : List (Text × Text)} (h : ¬ NulFreePairs ps)
    (duples : List (List UInt8 × List UInt8)) (nduples len : ℕ) :
  collectDuples lib (postPairs ps) duples nduples len = none
  := by
  induction ps generalizing duples nduples len with
  | nil => exact absurd (by simp [NulFreePairs]) h
  | cons p ps ih =>
      have hcons : postPairs (p :: ps) = .pair (.pair (.str p.1) (.str p.2)) (postPairs ps) := rfl
      rw [hcons, collectDuples]
      by_cases hkey : Char.ofNat 0 ∈ p.1
      · have hnone : toUtf8String (.str p.1) = none := if_pos hkey
        rw [hnone, Option.bind_none]
      · by_cases hvalue : Char.ofNat 0 ∈ p.2
        · have hnone : toUtf8String (.str p.2) = none := if_pos hvalue
          simp [hnone]
        · have hrest : ¬ NulFreePairs ps := by
            intro hps
            apply h
            intro q hq
            obtain rfl | hq := List.mem_cons.mp hq
            · exact ⟨hkey, hvalue⟩
            · apply hps q hq
          simp [ih hrest]

end

/-! ### Writing -/

/-- A duple that fits is written. -/
theorem writeDuple_eq (a : List UInt8) {b : List UInt8} {d : List UInt8 × List UInt8}
    (h : (duple d).length < b.length) :
  ∃ b', writeDuple (a ++ b) a.length d = some (a ++ duple d ++ b') ∧
    b'.length + (duple d).length = b.length
  := by
  rw [length_duple] at h
  have hkey := strcpy_append (b := b) (s := d.1) (z := a.length) (a := a) rfl (by omega)
  have hequals : store (a ++ d.1 ++ 0 :: b.drop (d.1.length + 1)) (a.length + d.1.length) 61
      = some (a ++ d.1 ++ 61 :: b.drop (d.1.length + 1)) := by
    apply store_eq rfl
    rw [List.length_append, Int.natCast_add]
  have hvalue : strcpy (a ++ d.1 ++ [61] ++ b.drop (d.1.length + 1)) (a.length + d.1.length + 1) d.2
      = some (a ++ d.1 ++ [61] ++ d.2 ++ 0 :: (b.drop (d.1.length + 1)).drop (d.2.length + 1)) := by
    apply strcpy_append
    · simp [Int.add_assoc]
    · rw [List.length_drop]
      omega
  refine ⟨0 :: (b.drop (d.1.length + 1)).drop (d.2.length + 1), ?_, ?_⟩
  · rw [writeDuple, hkey, Option.bind_some, hequals, Option.bind_some, List.append_cons, hvalue]
    simp [duple]
  · rw [length_duple, List.length_cons, List.length_drop, List.length_drop]
    omega

/-- The duples after the first one fill the block up to the terminator. -/
theorem writeDuples_rest (a : List UInt8) {b : List UInt8} {ds : List (List UInt8 × List UInt8)}
    (h : b.length = (restDuples ds).length + 1) :
  writeDuples (a ++ b) a.length false ds = some (a ++ restDuples ds ++ [0])
  := by
  induction ds generalizing a b with
  | nil =>
      obtain ⟨c, rfl⟩ := List.length_eq_one_iff.mp h
      rw [writeDuples, store_eq rfl rfl, restDuples, List.flatMap_nil, List.append_nil]
  | cons d ds ih =>
      have hsplit : restDuples (d :: ds) = 38 :: duple d ++ restDuples ds := rfl
      rw [hsplit, List.length_append, List.length_cons] at h
      cases b with
      | nil => cases h
      | cons c b =>
          rw [List.length_cons] at h
          obtain ⟨b', hwrite, hlen⟩ :=
            writeDuple_eq (a ++ [38]) (b := b) (d := d) (by omega)
          have hrest := ih (a ++ [38] ++ duple d) (b := b') (by omega)
          have hnext : a.length + 1 = (a ++ [38]).length := by simp
          have hend : a.length + 1 + d.1.length + 1 + d.2.length
              = (a ++ [38] ++ duple d).length := by
            simp only [List.length_append, List.length_singleton, length_duple]
            omega
          rw [writeDuples, if_neg (by decide), store_eq rfl rfl, Option.bind_some, List.append_cons,
            hend, hnext, hwrite, Option.bind_some, hrest, hsplit]
          simp

/-- The duples fill a block of the sum of their sizes and their number. -/
theorem writeDuples_cons {b : List UInt8} {d : List UInt8 × List UInt8}
    {ds : List (List UInt8 × List UInt8)} (h : b.length = duplesSize (d :: ds) + (d :: ds).length) :
  writeDuples b 0 true (d :: ds) = some (joinDuples (d :: ds) ++ [0])
  := by
  rw [duplesSize_cons, List.length_cons] at h
  have hlen := length_duple d
  have hrest := length_restDuples ds
  obtain ⟨b', hwrite, hlen'⟩ := writeDuple_eq [] (b := b) (d := d) (by omega)
  have hend : 0 + d.1.length + 1 + d.2.length = (duple d).length := by omega
  rw [List.nil_append, List.nil_append, List.length_nil] at hwrite
  rw [writeDuples, if_pos rfl, hwrite, Option.bind_some, hend,
    writeDuples_rest (duple d) (by omega), joinDuples_cons]

theorem writeDuples_nil {b : List UInt8} (h : b.length = 0) :
  writeDuples b 0 true [] = none
  := by
  rw [List.eq_nil_of_length_eq_zero h]
  rfl

/-! ### The result -/

section

variable (lib : PostLibrary)

/-- The block has room for the sizes of the duples and a byte for each. -/
theorem postBuffer_postPairs {ps : List (Text × Text)} (hps : NulFreePairs ps) :
  postBuffer lib (postPairs ps)
    = some (if ps = [] then none else some (joinDuples (ps.map lib.qduple).reverse ++ [0]))
  := by
  have hcollect := collectDuples_postPairs lib hps []
  rw [List.append_nil, List.length_nil, duplesSize, List.map_nil, List.sum_nil] at hcollect
  rw [postBuffer, hcollect, Option.map_some]
  dsimp only
  cases hds : (ps.map lib.qduple).reverse with
  | nil =>
      rw [List.reverse_eq_nil_iff, List.map_eq_nil_iff] at hds
      rw [if_pos hds]
      exact congrArg some (writeDuples_nil (lib.length_malloc 0))
  | cons d ds =>
      have hne : ps ≠ [] := by
        rintro rfl
        cases hds
      rw [if_neg hne, writeDuples_cons (lib.length_malloc _)]

/-- What `post_data` returns for pairs of strings. -/
theorem postData_postPairs {ps : List (Text × Text)} (hps : NulFreePairs ps) {args : Scm}
    (hargs : args.assqRef "post".toList = postPairs ps) :
  postData lib args
    = if ps = [] then .fault else .done (some (some (joinDuples (ps.map lib.qduple).reverse ++ [0])))
  := by
  have hpost : ¬ (args = .nil ∨ postPairs ps = .bool false) := by
    rintro (rfl | hfalse)
    · cases ps <;> cases hargs
    · cases ps <;> cases hfalse
  rw [postData, hargs, if_neg hpost, postBuffer_postPairs lib hps]
  split
  case h_1 h => cases h
  case h_2 h =>
      split at h
      case isTrue hnil => rw [if_pos hnil]
      case isFalse => cases h
  case h_3 h =>
      split at h
      case isTrue => cases h
      case isFalse hne =>
          rw [if_neg hne, Option.some.inj (Option.some.inj h)]

/-- The texts with separators in between. -/
theorem joinDuples_map (ps : List (Text × Text)) :
  joinDuples (ps.map lib.qduple) = [38].intercalate (ps.map lib.pairText)
  := by
  induction ps with
  | nil => rfl
  | cons p ps ih =>
      cases ps with
      | nil =>
          simp [joinDuples, duple, PostLibrary.pairText, PostLibrary.qduple, List.intercalate]
      | cons q ps =>
          rw [List.map_cons, List.map_cons, joinDuples, ← List.map_cons, ih]
          simp [duple, PostLibrary.pairText, PostLibrary.qduple, List.intercalate]

end

/-- **The buffer of a post.**  Every byte that is written lies inside the block, and the pairs are
there in reverse order, exactly if there are pairs. -/
theorem fits_buffer_iff (ps : List (Text × Text)) :
  FitsBuffer ps ↔ ps ≠ []
  := by
  constructor
  · rintro h rfl
    have hempty := (h curlLibrary).1 (by simp [NulFreePairs])
    cases hempty
  · intro hne lib
    constructor
    · intro hnul
      rw [postBuffer_postPairs lib hnul, if_neg hne, ← List.map_reverse, joinDuples_map]
    · intro hnul
      rw [postBuffer, collectDuples_of_nul lib hnul]
      rfl

/-- For the empty list a block of no bytes is allocated, and the terminator is written behind it. -/
theorem empty_post_overflows :
  postBuffer curlLibrary (postPairs []) = some none ∧ ¬ FitsBuffer []
  := by
  have hrun : postBuffer curlLibrary (postPairs []) = some none := rfl
  use hrun
  intro h
  have htext := (h curlLibrary).1 (by simp [NulFreePairs])
  rw [hrun] at htext
  cases htext

end Gusher
