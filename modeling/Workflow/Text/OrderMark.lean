/-!
The mark of the order of bytes, which may stand in front of a file and is no part of its text.
-/

namespace Workflow.Text

def skipOrderMark : List Char → List Char
  | '\ufeff' :: rest => rest
  | cs => cs

end Workflow.Text
