import Workflow.Proofs.Surface.Tokens

/-!
What the JSON reader makes of the tokens of a literal: a number from its digits, and a string from
its characters, each of which may be escaped in several ways.
-/

namespace Workflow.Surface

/-! ### Numbers -/

theorem le_ofDigitChars (ds : List Char) (m : Nat) : m ≤ Nat.ofDigitChars 10 ds m := by
  induction ds generalizing m with
  | nil => exact Nat.le_refl m
  | cons d ds ih =>
    rw [Nat.ofDigitChars_cons]
    have := ih (10 * m + (d.toNat - '0'.toNat))
    omega

/-- Digits that stand for a number of 64 bits are all taken. -/
theorem absorb_eq {ds : List Char} {m : Nat}
    (h : Nat.ofDigitChars 10 ds m ≤ Json.maxUnsigned) :
    Json.absorb m ds = (Nat.ofDigitChars 10 ds m, []) := by
  induction ds generalizing m with
  | nil => rfl
  | cons d ds ih =>
    rw [Nat.ofDigitChars_cons, Nat.mul_comm] at h ⊢
    have hm := Nat.le_trans (le_ofDigitChars ds _) h
    rw [Json.absorb, if_neg (by exact Nat.not_lt.mpr hm)]
    exact ih h

/-- Only zero is written with a zero in front. -/
theorem eq_zero_of_toDigits {n : Nat} (h : (Nat.toDigits 10 n).head? = some '0') : n = 0 := by
  by_cases hn : n < 10
  · rw [Nat.toDigits_of_lt_base hn, List.head?_singleton, Option.some.injEq] at h
    exact (by decide : ∀ k < 10, Nat.digitChar k = '0' → k = 0) n hn h
  · rw [Nat.toDigits_of_base_le (by decide) (Nat.not_lt.mp hn), List.head?_append,
      List.head?_eq_some_head Nat.toDigits_ne_nil, Option.some_or,
      ← List.head?_eq_some_head] at h
    have := eq_zero_of_toDigits h
    omega
termination_by n

/-- The digits of a number, with a minus in front or not. -/
theorem readNumber_digits {text : List Char} {n : Nat} (negative : Bool) {z : Number}
    (ht : text = if negative then '-' :: Nat.toDigits 10 n else Nat.toDigits 10 n)
    (hn : n ≤ Json.maxUnsigned) (hz : Json.integer negative n = some z) :
    Json.readNumber text = .ok (z, []) := by
  have hrun : (Nat.toDigits 10 n ++ []).takeWhile Char.isDigit = Nat.toDigits 10 n ∧
      (Nat.toDigits 10 n ++ []).dropWhile Char.isDigit = [] := run_append digit_toDigits (by simp)
  rw [List.append_nil] at hrun
  have habsorb : Json.absorb 0 (Nat.toDigits 10 n) = (n, []) := by
    rw [absorb_eq (by rwa [Nat.ofDigitChars_ten_toDigits]), Nat.ofDigitChars_ten_toDigits]
  obtain ⟨d, ds, hds, hd⟩ := toDigits_cons n
  have hzero : d = '0' → ds = [] := by
    rintro rfl
    obtain rfl := eq_zero_of_toDigits (n := n) (by rw [hds]; rfl)
    simpa using hds
  rw [hds] at ht hrun habsorb
  subst ht
  cases negative with
  | true =>
    unfold Json.readNumber
    simpa [hrun, habsorb, Json.exponentPart, hz] using hzero
  | false =>
    unfold Json.readNumber
    simpa [hd, hrun, habsorb, Json.exponentPart, hz] using hzero

theorem readNumber_decimal {z : Int} (hz : HasBits z) :
    Json.readNumber (decimal z) = .ok (.integer z, []) := by
  obtain ⟨hlow, hhigh⟩ := hz
  refine readNumber_digits (n := z.natAbs) (decide (z < 0)) ?_ ?_ ?_
  · simp [decimal]
  · rw [Json.maxUnsigned]
    omega
  · by_cases hz : z < 0
    · have hne : ¬(z.natAbs = 0 ∨ 9223372036854775808 < z.natAbs) := by omega
      have habs : -(z.natAbs : Int) = z := by omega
      simp only [Json.integer, hz, decide_true, Bool.not_true, if_neg hne, habs]
      rfl
    · have habs : (z.natAbs : Int) = z := by omega
      simp [Json.integer, hz, habs]

theorem readToken_decimal {z : Int} (hz : HasBits z) :
    readToken (decimal z) = .ok (.number (.integer z)) := by
  have hread := readNumber_decimal hz
  obtain ⟨d, ds, hds, hd⟩ := decimal_cons z
  rw [hds] at hread ⊢
  unfold readToken
  split
  · rename_i heq
    obtain rfl := (List.cons.inj heq).1
    rcases hd with hd | hd <;> cases hd
  · rw [hread]
    rfl

/-! ### Strings -/

/-- The JSON reader takes a text for a character. -/
def ReadsChar (c : Char) (t : List Char) : Prop :=
  ∀ pos read cs, ∃ pos', Json.stringBody pos read (t ++ cs) = Json.stringBody pos' (c :: read) cs

theorem char_toNat_cases (c : Char) : c.toNat < 0xD800 ∨ 0xDFFF < c.toNat ∧ c.toNat < 0x110000 :=
  c.valid

theorem isLeading_iff {n : Nat} : Json.isLeading n = true ↔ 0xD800 ≤ n ∧ n ≤ 0xDBFF := by
  simp [Json.isLeading]

theorem isTrailing_iff {n : Nat} : Json.isTrailing n = true ↔ 0xDC00 ≤ n ∧ n ≤ 0xDFFF := by
  simp [Json.isTrailing]

theorem Row.one {α β : Type} {W : α → List β → Prop} {x : α} {t : List β} (h : Row W [x] t) :
    W x t := by
  cases h with
  | cons hx hs =>
    cases hs
    rwa [List.append_nil]

theorem Row.two {α β : Type} {W : α → List β → Prop} {x y : α} {t : List β} (h : Row W [x, y] t) :
    ∃ t₁ t₂, t = t₁ ++ t₂ ∧ W x t₁ ∧ W y t₂ := by
  cases h with
  | cons hx hs => exact ⟨_, _, rfl, hx, hs.one⟩

/-- The escape of a character by its units. -/
theorem unicodeEscape_units {c : Char} {t : List Char} (h : Row IsUnit (units c) t) :
    ∃ ds, t = '\\' :: 'u' :: ds ∧ ∀ pos cs, ∃ pos',
      Json.unicodeEscape pos (ds ++ cs) = .ok (c, pos', cs) := by
  have hc := char_toNat_cases c
  rw [units] at h
  split at h
  -- One unit is no surrogate; two are a pair of them.
  · obtain ⟨x, y, z, w, rfl, -, hunit⟩ := h.one.digits
    refine ⟨[x, y, z, w], rfl, fun pos cs => ⟨pos + 4, ?_⟩⟩
    have hlead : ¬Json.isLeading c.toNat = true := by
      rw [isLeading_iff]
      omega
    have htrail : ¬Json.isTrailing c.toNat = true := by
      rw [isTrailing_iff]
      omega
    simp [Json.unicodeEscape, hunit, hlead, htrail]
  · obtain ⟨_, _, rfl, hu, hu'⟩ := h.two
    obtain ⟨x, y, z, w, rfl, -, hunit⟩ := hu.digits
    obtain ⟨x', y', z', w', rfl, -, hunit'⟩ := hu'.digits
    refine ⟨[x, y, z, w, '\\', 'u', x', y', z', w'], rfl, fun pos cs => ⟨pos + 4 + 6, ?_⟩⟩
    have hlead : Json.isLeading (0xD800 + (c.toNat - 0x10000) / 0x400) = true := by
      rw [isLeading_iff]
      omega
    have hlead' : ¬Json.isTrailing (0xD800 + (c.toNat - 0x10000) / 0x400) = true := by
      rw [isTrailing_iff]
      omega
    have htrail : Json.isTrailing (0xDC00 + (c.toNat - 0x10000) % 0x400) = true := by
      rw [isTrailing_iff]
      omega
    have hjoin : Json.joinSurrogates (0xD800 + (c.toNat - 0x10000) / 0x400)
        (0xDC00 + (c.toNat - 0x10000) % 0x400) = c := by
      have hsum : 0x10000 + (0xD800 + (c.toNat - 0x10000) / 0x400 - 0xD800) * 0x400 +
          (0xDC00 + (c.toNat - 0x10000) % 0x400 - 0xDC00) = c.toNat := by omega
      rw [Json.joinSurrogates, hsum, Char.ofNat_toNat]
    simp only [Json.unicodeEscape, List.cons_append, List.nil_append, hunit, hunit', hlead, hlead',
      htrail, hjoin]
    simp

theorem Escapes.reads {c : Char} {t : List Char} (h : Escapes c t) : ReadsChar c t := by
  intro pos read cs
  cases h with
  | plain h hq hb =>
    refine ⟨pos + c.utf8Size, ?_⟩
    rw [List.singleton_append, Json.stringBody, if_neg (Char.not_lt.mpr h)]
    · exact hq
    · exact fun h => absurd h hb
    · exact fun _ h => absurd h hb
    · exact fun _ _ h => absurd h hb
  | @short x _ h =>
    refine ⟨pos + 2, ?_⟩
    have hx : x ≠ 'u' ∧ Json.shortEscape x = some c := by
      revert h
      simp only [shortEscapes, List.mem_cons, Prod.mk.injEq, List.not_mem_nil, or_false]
      rintro (⟨rfl, rfl⟩ | ⟨rfl, rfl⟩ | ⟨rfl, rfl⟩ | ⟨rfl, rfl⟩ | ⟨rfl, rfl⟩ | ⟨rfl, rfl⟩ |
        ⟨rfl, rfl⟩ | ⟨rfl, rfl⟩) <;> exact ⟨by decide, rfl⟩
    rw [List.cons_append, List.singleton_append, Json.stringBody]
    · rw [hx.2]
    · exact hx.1
  | unicode h =>
    obtain ⟨ds, rfl, hds⟩ := unicodeEscape_units h
    obtain ⟨pos', he⟩ := hds (pos + 2) cs
    refine ⟨pos', ?_⟩
    rw [List.cons_append, List.cons_append, Json.stringBody]
    split
    · rename_i he'
      rw [he] at he'
      cases he'
    · rename_i he'
      rw [he] at he'
      cases he'
      rfl

theorem stringBody_row {cs t : List Char} (h : Row Escapes cs t) (pos : Nat)
    (read rest : List Char) : ∃ pos', Json.stringBody pos read (t ++ rest) =
      Json.stringBody pos' (cs.reverse ++ read) rest := by
  induction h generalizing pos read with
  | nil => exact ⟨pos, rfl⟩
  | cons hx _ ih =>
    rw [List.append_assoc]
    obtain ⟨pos', he⟩ := hx.reads pos read _
    obtain ⟨pos'', he'⟩ := ih pos' (_ :: read)
    exact ⟨pos'', by rw [he, he', List.reverse_cons, List.append_assoc, List.singleton_append]⟩

theorem readToken_string {s : String} {t : List Char} (h : Row Escapes s.toList t) :
    readToken ('"' :: t ++ ['"']) = .ok (.string s) := by
  obtain ⟨pos, he⟩ := stringBody_row h 1 [] ['"']
  have hend : Json.stringBody pos (s.toList.reverse ++ []) ['"'] = .ok (s.toList, []) := by
    rw [Json.stringBody, List.append_nil, List.reverse_reverse]
  rw [hend] at he
  simp [readToken, Json.readString, he, Except.map]

end Workflow.Surface
