import WaiNative.Browser.JsText

/-!
# The blocks of the collectors

Both collectors build the same object and store its JSON text under an address of the
text. The text determines the block (`stringify_injective`).
-/

namespace WaiNative

/-- The object that `writeBlock` builds. -/
structure BlockObject where
  prev : JsString
  group : JsString
  size : ℕ
  resource : List JsString
deriving DecidableEq

namespace BlockObject

/-- `JSON.stringify(block, undefined, gap)`. -/
def stringify (gap : Option ℕ) (block : BlockObject) : JsString :=
  jsonObject gap 0
    [(units "prev", quote block.prev), (units "group", quote block.group),
     (units "size", decimal block.size),
     (units "resource", jsonArray gap 1 (block.resource.map quote))]

/-- **Different blocks have different texts.** -/
theorem stringify_injective (gap : Option ℕ) : Function.Injective (stringify gap) := by
  rintro ⟨prev, group, size, resource⟩ ⟨prev', group', size', resource'⟩ heq
  simp only [stringify, jsonObject, bracket, List.map_cons, List.map_nil,
    List.flatMap_cons, List.flatMap_nil, List.append_assoc, List.cons_append,
    List.append_nil, List.cons.injEq, true_and, List.append_cancel_left_eq] at heq
  obtain ⟨rfl, heq⟩ := quote_prefixFree _ _ _ _ heq
  simp only [List.cons.injEq, true_and, List.append_cancel_left_eq] at heq
  obtain ⟨rfl, heq⟩ := quote_prefixFree _ _ _ _ heq
  simp only [List.cons.injEq, true_and, List.append_cancel_left_eq] at heq
  -- a comma follows the number
  obtain ⟨rfl, heq⟩ := decimal_append_inj (by simp [isDigitUnit]) (by simp [isDigitUnit]) heq
  simp only [List.cons.injEq, true_and, List.append_cancel_left_eq] at heq
  obtain ⟨rfl, -⟩ := quotes_prefixFree gap 1 _ _ _ _ heq
  rfl

end BlockObject

end WaiNative
