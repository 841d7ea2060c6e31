import Workflow.Proofs.Surface.Words
import Workflow.Proofs.Surface.Writing

/-!
Every token is told from what stands behind it, which is a blank, the beginning of a comment, or
nothing.
-/

namespace Workflow.Surface

open Syntax (head?_dropWhile keyword_eq_some_iff keyword_eq_none_iff identifier_cons
  isIdentChar_of_isIdentStart isKeyword_iff minus number_eq)

/-- What a gap can begin with. -/
def gapStarts : List Char := [' ', '\t', '\r', '\n', '#']

/-- A gap stands here, or the end of the text. -/
def Boundary (rest : List Char) : Prop := ∀ c ∈ rest.head?, c ∈ gapStarts

theorem boundary_nil : Boundary [] := by simp [Boundary]

theorem Boundary.head {rest : List Char} (h : Boundary rest) {p : Char → Bool}
    (hp : gapStarts.any p = false) : ∀ c ∈ rest.head?, p c = false := by
  intro c hc
  simpa using List.any_eq_false.mp hp c (h c hc)

/-- A boundary does not begin with another character. -/
theorem Boundary.ne_cons {rest : List Char} (h : Boundary rest) {c : Char} {cs : List Char}
    (hc : c ∉ gapStarts) : rest ≠ c :: cs := by
  rintro rfl
  exact hc (h c rfl)

theorem run_append {p : Char → Bool} {w rest : List Char} (hw : ∀ c ∈ w, p c = true)
    (hr : ∀ c ∈ rest.head?, p c = false) :
    (w ++ rest).takeWhile p = w ∧ (w ++ rest).dropWhile p = rest := by
  rw [List.takeWhile_append_of_pos hw, List.dropWhile_append_of_pos hw]
  cases rest with
  | nil => simp
  | cons c rest => simp [hr c rfl]

/-! ### Names -/

section

variable {w n rest : List Char}

theorem IsIdentifier.chars (h : IsIdentifier w) : ∀ c ∈ w, isIdentChar c = true := by
  obtain ⟨c, cs, rfl, hstart, hcs, -⟩ := h
  exact List.forall_mem_cons.mpr ⟨isIdentChar_of_isIdentStart hstart, hcs⟩

theorem identifier_append (h : IsIdentifier w) (hr : ∀ c ∈ rest.head?, isIdentChar c = false) :
    identifier (w ++ rest) = some (w, rest) := by
  have hrun := run_append h.chars hr
  obtain ⟨c, cs, rfl, hstart, -, hkey⟩ := h
  rw [List.cons_append] at hrun ⊢
  rw [identifier_cons, hrun.1, hrun.2, hstart, hkey]
  rfl

theorem key_append (h : IsIdentifier w) (hr : Boundary rest) :
    key (w ++ ':' :: rest) = some (w, rest) := by
  have hi : identifier (w ++ ':' :: rest) = some (w, ':' :: rest) :=
    identifier_append h (by rintro c ⟨⟩; rfl)
  rw [key, hi]
  split
  · rename_i heq
    cases heq
    exact absurd rfl (hr.ne_cons (by decide))
  · rename_i heq
    cases heq
    rfl
  · rename_i hno
    exact absurd rfl (hno w rest)

theorem segments_boundary (hr : Boundary rest) (fuel : Nat) : segments fuel rest = ([], rest) := by
  unfold segments
  split
  · rfl
  · split
    · exact absurd rfl (hr.ne_cons (by decide))
    · rfl

/-- A name is its first segment `w`, and the further ones in `tail`. -/
structure NameSplit (n rest w tail : List Char) : Prop where
  first : IsIdentifier w
  whole : n = w ++ tail
  shape : tail = [] ∨ ∃ more, tail = ':' :: ':' :: more
  stop : ∀ c ∈ (tail ++ rest).head?, isIdentChar c = false
  segments : ∀ fuel, tail.length ≤ fuel → segments fuel (tail ++ rest) = (tail, rest)

theorem NameSplit.identifier {tail : List Char} (h : NameSplit n rest w tail) :
    identifier (n ++ rest) = some (w, tail ++ rest) := by
  rw [h.whole, List.append_assoc]
  exact identifier_append h.first h.stop

theorem IsName.split (h : IsName n) (hr : Boundary rest) : ∃ w tail, NameSplit n rest w tail := by
  induction h with
  | @one w h =>
    exact ⟨w, [], h, by simp, .inl rfl, hr.head (by decide),
      fun fuel _ => segments_boundary hr fuel⟩
  | @cons w n h hn ih =>
    obtain ⟨w', tail, ih⟩ := ih
    refine ⟨w, ':' :: ':' :: n, h, rfl, .inr ⟨n, rfl⟩, by rintro c ⟨⟩; rfl, fun fuel hf => ?_⟩
    match fuel with
    | 0 => simp at hf
    | fuel + 1 =>
      have hlen : tail.length ≤ n.length := by simp [ih.whole]
      rw [List.cons_append, List.cons_append, Surface.segments, ih.identifier]
      simp only [List.length_cons] at hf
      simp [ih.segments fuel (by omega), ih.whole]

theorem name_append (h : IsName n) (hr : Boundary rest) : name (n ++ rest) = some (n, rest) := by
  obtain ⟨w, tail, hs⟩ := h.split hr
  have htail := hs.segments (tail ++ rest).length (by simp)
  rw [name, hs.identifier]
  simp only [htail, hs.whole]

theorem key_name (h : IsName n) (hr : Boundary rest) : key (n ++ rest) = none := by
  obtain ⟨w, tail, hs⟩ := h.split hr
  rw [key, hs.identifier]
  rcases hs.shape with rfl | ⟨more, rfl⟩
  · split
    · rfl
    · rename_i heq
      exact absurd (Prod.mk.inj (Option.some.inj heq)).2 (hr.ne_cons (by decide))
    · rfl
  · rfl

theorem keyword_name (h : IsName n) (hr : Boundary rest) {k : String} (hk : k ∈ keywords) :
    keyword k (n ++ rest) = none := by
  obtain ⟨w, tail, hs⟩ := h.split hr
  rw [keyword_eq_none_iff, hs.whole, List.append_assoc, (run_append hs.first.chars hs.stop).1]
  rintro rfl
  obtain ⟨c, cs, -, -, -, hkey⟩ := hs.first
  rw [isKeyword_iff.mpr ⟨k, hk, rfl⟩] at hkey
  cases hkey

end

/-! ### Keywords -/

section

variable {k : String} {rest : List Char}

theorem run_keyword (hk : k ∈ keywords) (hr : Boundary rest) :
    (k.toList ++ rest).takeWhile isIdentChar = k.toList ∧
      (k.toList ++ rest).dropWhile isIdentChar = rest :=
  run_append (List.all_eq_true.mp
    ((by decide : ∀ k ∈ keywords, k.toList.all isIdentChar = true) k hk)) (hr.head (by decide))

theorem keyword_append (hk : k ∈ keywords) (hr : Boundary rest) :
    keyword k (k.toList ++ rest) = some (k.toList, rest) := by
  have h := run_keyword hk hr
  exact keyword_eq_some_iff.mpr ⟨h.1.symm, h.1.symm, h.2.symm⟩

theorem keyword_ne (hk : k ∈ keywords) (hr : Boundary rest) {j : String} (hj : j ≠ k) :
    keyword j (k.toList ++ rest) = none := by
  rw [keyword_eq_none_iff, (run_keyword hk hr).1]
  exact fun h => hj (String.toList_injective h)

theorem identifier_keyword (hk : k ∈ keywords) (hr : Boundary rest) :
    identifier (k.toList ++ rest) = none := by
  have hrun := (run_keyword hk hr).1
  match hc : k.toList ++ rest with
  | [] => rfl
  | c :: cs =>
    rw [hc] at hrun
    rw [identifier_cons, hrun, isKeyword_iff.mpr ⟨k, hk, rfl⟩, Bool.not_true, Bool.and_false]
    rfl

end

/-! ### Numbers -/

section

variable {rest : List Char}

theorem number_digits {ds : List Char} (hne : ds ≠ []) (hd : ∀ c ∈ ds, c.isDigit = true)
    (hr : Boundary rest) {cs s : List Char} (hs : minus cs = (s, ds ++ rest)) :
    number cs = some (s ++ ds, rest) := by
  have hrun := run_append hd (hr.head (p := Char.isDigit) (by decide))
  have hdigits : digits (ds ++ rest) = some (ds, rest) := by
    simp [digits, run, hrun.1, hrun.2, hne]
  have hfraction : fraction rest = none := by
    unfold fraction
    split
    · exact absurd rfl (hr.ne_cons (by decide))
    · rfl
  have hexponent : exponent rest = none := by
    cases rest with
    | nil => rfl
    | cons c cs =>
      have hc : decide (c = 'e' ∨ c = 'E') = false :=
        hr.head (p := fun c => decide (c = 'e' ∨ c = 'E')) (by decide) c rfl
      rw [Syntax.exponent_cons, if_neg (of_decide_eq_false hc)]
  rw [number_eq, hs]
  simp [hdigits, Surface.optional, hfraction, hexponent]

theorem digit_toDigits {n : Nat} : ∀ c ∈ Nat.toDigits 10 n, c.isDigit = true :=
  fun _ hc => Nat.isDigit_of_mem_toDigits (by decide) (by decide) hc

theorem toDigits_cons (n : Nat) : ∃ d ds, Nat.toDigits 10 n = d :: ds ∧ d ≠ '-' := by
  obtain ⟨d, ds, hds⟩ := List.exists_cons_of_ne_nil (Nat.toDigits_ne_nil (n := n) (b := 10))
  refine ⟨d, ds, hds, ?_⟩
  rintro rfl
  exact absurd (digit_toDigits '-' (hds ▸ List.mem_cons_self)) (by decide)

theorem decimal_cons (z : Int) : ∃ d ds, decimal z = d :: ds ∧ (d = '-' ∨ d.isDigit = true) := by
  obtain ⟨d, ds, hds, -⟩ := toDigits_cons z.natAbs
  rw [decimal]
  split
  · exact ⟨_, _, rfl, .inl rfl⟩
  · exact ⟨d, ds, hds, .inr (digit_toDigits d (hds ▸ List.mem_cons_self))⟩

theorem number_decimal (z : Int) (hr : Boundary rest) :
    number (decimal z ++ rest) = some (decimal z, rest) := by
  rw [decimal]
  split
  · exact number_digits Nat.toDigits_ne_nil digit_toDigits hr (s := ['-']) rfl
  · refine number_digits Nat.toDigits_ne_nil digit_toDigits hr (s := []) ?_
    obtain ⟨d, ds, hds, hd⟩ := toDigits_cons z.natAbs
    rw [hds, List.cons_append]
    unfold minus
    split
    · rename_i heq
      exact absurd (List.cons.inj heq).1 hd
    · rfl

end

/-! ### Strings -/

/-- Within a string a text is taken as a whole. -/
def Quoted (t : List Char) : Prop :=
  ∀ cs, quoted (t ++ cs) = (quoted cs).map fun x => (t ++ x.1, x.2)

theorem string_append {t rest : List Char} (h : Quoted t) :
    string ('"' :: t ++ ['"'] ++ rest) = some ('"' :: t ++ ['"'], rest) := by
  have hq := h ('"' :: rest)
  simp only [quoted, Option.map_some, List.append_nil] at hq
  simp [string, hq]

theorem quoted_nil : Quoted [] := fun cs => by
  rw [List.nil_append]
  cases quoted cs <;> rfl

theorem Quoted.append {t t' : List Char} (h : Quoted t) (h' : Quoted t') : Quoted (t ++ t') := by
  intro cs
  rw [List.append_assoc, h, h', Option.map_map]
  congr 1
  funext x
  simp

theorem quoted_plain {c : Char} (hq : c ≠ '"') (hb : c ≠ '\\') : Quoted [c] := by
  intro cs
  rw [List.singleton_append, quoted]
  · rfl
  · exact hq
  · exact fun _ _ h => absurd h hb
  · exact fun h => absurd h hb

theorem quoted_escape (x : Char) : Quoted ['\\', x] := fun _ => rfl

/-- The four digits of a unit, and their values. -/
theorem IsUnit.digits {n : Nat} {t : List Char} (h : IsUnit n t) :
    ∃ a b c d, t = ['\\', 'u', a, b, c, d] ∧
      (∀ x ∈ [a, b, c, d], (Hexadecimal.digit? x).isSome) ∧
      ∀ cs, Json.hexUnit (a :: b :: c :: d :: cs) = some (n, cs) := by
  obtain ⟨ds, hlen, hv, rfl⟩ := h
  match ds with
  | [a, b, c, d] =>
    simp only [Hexadecimal.value?, List.foldlM_cons, List.foldlM_nil, Option.bind_eq_bind,
      Option.bind_eq_some_iff, Option.map_eq_some_iff, Option.pure_def, Option.some.injEq] at hv
    obtain ⟨_, ⟨va, ha, rfl⟩, _, ⟨vb, hb, rfl⟩, _, ⟨vc, hc, rfl⟩, _, ⟨vd, hd, rfl⟩, rfl⟩ := hv
    refine ⟨a, b, c, d, rfl, by simp [ha, hb, hc, hd], fun cs => ?_⟩
    simp [Json.hexUnit, ha, hb, hc, hd]
    omega

theorem quoted_digits {ds : List Char} (h : ∀ x ∈ ds, (Hexadecimal.digit? x).isSome) :
    Quoted ds := by
  induction ds with
  | nil => exact quoted_nil
  | cons d ds ih =>
    obtain ⟨hd, hds⟩ := List.forall_mem_cons.mp h
    refine Quoted.append (quoted_plain ?_ ?_) (ih hds)
    · rintro rfl
      cases hd
    · rintro rfl
      cases hd

theorem IsUnit.quoted {n : Nat} {t : List Char} (h : IsUnit n t) : Quoted t := by
  obtain ⟨a, b, c, d, rfl, hd, -⟩ := h.digits
  exact (quoted_escape 'u').append (quoted_digits hd)

theorem Row.quoted {α : Type} {W : α → List Char → Prop} {xs : List α} {t : List Char}
    (h : Row W xs t) (hW : ∀ x t, W x t → Quoted t) : Quoted t := by
  induction h with
  | nil => exact quoted_nil
  | cons hx _ ih => exact (hW _ _ hx).append ih

theorem Escapes.quoted {c : Char} {t : List Char} (h : Escapes c t) : Quoted t := by
  cases h with
  | plain _ hq hb => exact quoted_plain hq hb
  | short => exact quoted_escape _
  | unicode h => exact h.quoted fun _ _ hu => hu.quoted

end Workflow.Surface
