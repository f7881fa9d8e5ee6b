import Gusher.Scheme.Utf8
import Gusher.Template.Segments

/-!
# Filling a template

`fill_template` scans the UTF-8 bytes of the template, and conses the pieces of the result.  The
end mark of a slot is overwritten with a NUL, so that the name of the slot is a string in the
buffer.
-/

namespace Gusher

open CString Search

def slotMark : List UInt8 := [91, 91]

def slotEnd : List UInt8 := [93, 93]

structure TemplateSlot where
  token : List UInt8
  payload : List UInt8

def upcase (src : List UInt8) : List UInt8 :=
  src.map toupper

/-- The payload of a slot as a string. -/
def payloadText : Scm → Text
  | .str s => s
  | .int z => numberText z
  | .number digits => digits
  | .symbol name => name
  | _ => []

/-- The table of the slots; `none` stands for the exception in a conversion. -/
def slotTable (slots : List (Text × Scm)) : Option (List TemplateSlot) :=
  slots.mapM (fun pair =>
    (toUtf8 pair.1).bind (fun token =>
      (toUtf8 (payloadText pair.2)).map (fun payload => ⟨upcase token, payload⟩)))

/-- `while (sense[2] && !isupper(sense[2])) sense++`: what is passed, and where `sense` stops. -/
def skip : List UInt8 → List UInt8 × List UInt8
  | a :: b :: c :: s =>
      if isupper c then ([], a :: b :: c :: s)
      else (a :: (skip (b :: c :: s)).1, (skip (b :: c :: s)).2)
  | s => ([], s)

/-- The pieces that stand for the slot whose name is at `pin`. -/
def slotParts (table : List TemplateSlot) (isPartial : Bool) (pin : List UInt8) :
    List (List UInt8) :=
  match table.find? (fun slot => slot.token = pin) with
  | some slot => [slot.payload]
  | none => if isPartial then [slotMark, pin, slotEnd] else []

/-- What is passed is put before where `sense` stops. -/
theorem append_skip (s : List UInt8) :
  (skip s).1 ++ (skip s).2 = s
  := by
  fun_induction skip s with
  | case1 => rfl
  | case2 a b c s _ ih => rw [List.cons_append, ih]
  | case3 => rfl

/-- The loop of `fill_template` from `pin` on: the bytes of the pieces, in order. -/
def fillLoop (table : List TemplateSlot) (isPartial : Bool) (pin : List UInt8) :
    List (List UInt8) :=
  match _hmark : strstr pin slotMark with
  | none => [pin]
  | some (lit, mark) =>
      let sense := (skip mark).2
      match _hend : strstr sense slotEnd with
      | none => [lit ++ (skip mark).1, sense]
      | some (before, close) =>
          -- the NUL stands where the end mark was found, which may be at `pin` itself
          let name := cstr ((sense.set before.length 0).drop slotMark.length)
          (lit ++ (skip mark).1) :: slotParts table isPartial name ++
            fillLoop table isPartial (close.drop slotMark.length)
  termination_by pin.length
  decreasing_by
    obtain ⟨hpin, ⟨rest, rfl⟩, -⟩ := strstr_eq_some_iff.mp _hmark
    obtain ⟨hsense, ⟨rest', rfl⟩, -⟩ := strstr_eq_some_iff.mp _hend
    have hskip := congrArg List.length (append_skip (slotMark ++ rest))
    have hlen := congrArg List.length hsense
    rw [hpin]
    simp [slotMark, slotEnd, sense] at hskip hlen ⊢
    omega

/-- `fill_template`; `none` stands for an exception. -/
def fillTemplate (template : Scm) (isPartial : Scm) (slots : List (Text × Scm)) : Option Text :=
  match template with
  | .str t =>
      (toUtf8 t).bind (fun master =>
        (slotTable slots).bind (fun table =>
          ((fillLoop table (isPartial = .bool true) master).mapM fromUtf8).map List.flatten))
  | _ => none

/-- The payload of the first entry whose upcased key is the name of the slot. -/
def lookupSlot (slots : List (Text × Scm)) (name : Text) : Option Text :=
  (slots.find? (fun pair => pair.1.map Char.toUpper = name)).map (fun pair => payloadText pair.2)

end Gusher
