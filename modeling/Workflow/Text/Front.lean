/-!
What stands at the front of a text.
-/

namespace Workflow.Text

/-- The rest behind a given text. -/
def after? : (text : List Char) → List Char → Option (List Char)
  | [], cs => some cs
  | t :: ts, c :: cs => if t = c then after? ts cs else none
  | _ :: _, [] => none

theorem after?_eq_some_iff {text cs rest : List Char} :
    after? text cs = some rest ↔ cs = text ++ rest := by
  induction text generalizing cs with
  | nil => simp [after?, eq_comm]
  | cons t ts ih =>
    cases cs with
    | nil => simp [after?]
    | cons c cs => by_cases h : t = c <;> simp [after?, h, ih, eq_comm]

end Workflow.Text
