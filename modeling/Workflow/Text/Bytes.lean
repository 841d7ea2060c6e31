/-!
Texts cut by the bytes of their characters in UTF-8. A cut that falls into a character is moved
behind it.
-/

namespace Workflow.Text

/-- How many bytes characters take. -/
def utf8Length (cs : List Char) : Nat := cs.foldr (fun c n => c.utf8Size + n) 0

def takeBytes (n : Nat) : List Char → List Char
  | [] => []
  | c :: cs => if n = 0 then [] else c :: takeBytes (n - c.utf8Size) cs

def dropBytes (n : Nat) : List Char → List Char
  | [] => []
  | c :: cs => if n = 0 then c :: cs else dropBytes (n - c.utf8Size) cs

theorem takeBytes_append_dropBytes (n : Nat) (cs : List Char) :
    takeBytes n cs ++ dropBytes n cs = cs := by
  induction cs generalizing n with
  | nil => rfl
  | cons c cs ih => by_cases h : n = 0 <;> simp [takeBytes, dropBytes, h, ih]

theorem takeBytes_utf8Length_append (cs ds : List Char) :
    takeBytes (utf8Length cs) (cs ++ ds) = cs := by
  induction cs with
  | nil => cases ds <;> simp [utf8Length, takeBytes]
  | cons c cs ih =>
    have hc : utf8Length (c :: cs) = c.utf8Size + utf8Length cs := rfl
    have := c.utf8Size_pos
    rw [List.cons_append, takeBytes, if_neg (by omega), hc, Nat.add_sub_cancel_left, ih]

end Workflow.Text
