import Workflow.Proofs.Surface.ReadPhrases

/-!
What is written for a legible tree are solid tokens; and there is a way to write every one.
-/

namespace Workflow

namespace Surface

/-! ### Tokens are solid -/

section

variable {α β : Type} {P : β → Prop} {xs : List α}

theorem Row.forall_mem {W : α → List β → Prop} {ts : List β} (h : Row W xs ts)
    (hW : ∀ x ∈ xs, ∀ ts, W x ts → ∀ t ∈ ts, P t) : ∀ t ∈ ts, P t := by
  induction h with
  | nil => simp
  | cons h _ ih =>
    rw [List.forall_mem_append]
    exact ⟨hW _ List.mem_cons_self _ h, ih fun y hy => hW y (List.mem_cons_of_mem _ hy)⟩

variable {W : α → List Token → Prop} {ts : List Token}

theorem Commas.solid (h : Commas W xs ts) (hW : ∀ x ∈ xs, ∀ ts, W x ts → ∀ t ∈ ts, Solid t) :
    ∀ t ∈ ts, Solid t := by
  induction h with
  | one h => exact hW _ List.mem_cons_self _ h
  | cons h _ ih =>
    rw [List.forall_mem_append, List.forall_mem_cons]
    exact ⟨hW _ List.mem_cons_self _ h, ⟨',', [], rfl, rfl, by decide⟩,
      ih fun y hy => hW y (List.mem_cons_of_mem _ hy)⟩

theorem Optional.solid (h : Optional W xs ts) (hW : ∀ x ∈ xs, ∀ ts, W x ts → ∀ t ∈ ts, Solid t) :
    ∀ t ∈ ts, Solid t := by
  cases h with
  | none => simp
  | some h => exact h.solid hW

end

theorem solid_cons {p : Char → Bool} (hp : gapStarts.any p = false) {x : Char} {xs : List Char}
    (hx : p x = true) : Solid (x :: xs) := by
  have hgap : x ∉ gapStarts := fun h => List.any_eq_false.mp hp x h hx
  simp only [gapStarts, List.mem_cons, List.not_mem_nil, or_false, not_or] at hgap
  refine ⟨x, xs, rfl, ?_, hgap.2.2.2.2⟩
  simp [isBlank, hgap]

theorem IsWord.solid {t : Token} (h : IsWord t) : Solid t := by
  obtain ⟨x, xs, rfl, hx⟩ := h.start
  exact solid_cons (by decide) hx

theorem solid_keyword {k : String} (hk : k ∈ keywords) : Solid k.toList :=
  IsWord.solid (.inr ⟨k, hk, rfl⟩)

theorem solid_decimal (z : Int) : Solid (decimal z) := by
  obtain ⟨d, ds, hds, hd⟩ := decimal_cons z
  rw [hds]
  exact solid_cons (p := fun c => decide (c = '-' ∨ c.isDigit = true)) (by decide)
    (by simpa using hd)

theorem solid_symbol (name : String) : Solid (symbolToken name) := ⟨':', _, rfl, rfl, by decide⟩

theorem solid_key {key : String} (h : IsIdentifier key.toList) : Solid (keyToken key) := by
  obtain ⟨x, xs, hx, hstart, -⟩ := h
  rw [keyToken, hx]
  exact solid_cons (by decide) hstart

theorem WritesValue.solid {v : Value} (hv : IsLiteral v) {ts : List Token} (h : WritesValue v ts) :
    ∀ t ∈ ts, Solid t := by
  induction hv generalizing ts with
  | null =>
    cases h
    exact List.forall_mem_singleton.mpr (solid_keyword (by decide))
  | bool =>
    cases h with
    | true => exact List.forall_mem_singleton.mpr (solid_keyword (by decide))
    | false => exact List.forall_mem_singleton.mpr (solid_keyword (by decide))
  | integer =>
    cases h
    exact List.forall_mem_singleton.mpr (solid_decimal _)
  | string =>
    cases h
    exact List.forall_mem_singleton.mpr ⟨'"', _, rfl, rfl, by decide⟩
  | array hvs ih =>
    cases h with
    | array h =>
      have hitems := h.solid fun v hv ts hw => ih v hv hw
      rw [List.cons_append, List.forall_mem_cons, List.forall_mem_append, List.forall_mem_singleton]
      exact ⟨⟨'[', [], rfl, rfl, by decide⟩, hitems, ⟨']', [], rfl, rfl, by decide⟩⟩

theorem WritesArg.solid {args : List Arg} (ha : ArgsLegible args) {a : Arg} (hmem : a ∈ args)
    {ts : List Token} (h : WritesArg a ts) : ∀ t ∈ ts, Solid t := by
  have hkey := ha.keys a hmem
  cases h with
  | shorthand => exact List.forall_mem_singleton.mpr (solid_symbol _)
  | keyed => exact List.forall_mem_cons.mpr ⟨solid_key hkey,
      List.forall_mem_singleton.mpr (solid_symbol _)⟩
  | literal h => exact List.forall_mem_cons.mpr ⟨solid_key hkey, h.solid (ha.literals _ hmem _ rfl)⟩

theorem WritesBinding.solid {bindings : List Binding} (hl : BindingsLegible bindings) {b : Binding}
    (hmem : b ∈ bindings) {ts : List Token} (h : WritesBinding b ts) : ∀ t ∈ ts, Solid t := by
  rw [h]
  exact List.forall_mem_cons.mpr ⟨solid_key (hl.lists b hmem),
    List.forall_mem_singleton.mpr (solid_symbol _)⟩

theorem solid_blockTokens {ts : List Token} (h : ∀ t ∈ ts, Solid t) :
    ∀ t ∈ blockTokens ts, Solid t := by
  rw [blockTokens, List.cons_append, List.forall_mem_cons, List.forall_mem_append,
    List.forall_mem_singleton]
  exact ⟨solid_keyword (by decide), h, solid_keyword (by decide)⟩

theorem Sentence.Writes.solid {s : Sentence} (hl : s.Legible) {ts : List Token} (h : s.Writes ts) :
    ∀ t ∈ ts, Solid t := by
  induction hl generalizing ts with
  | call hn ha =>
    cases h with
    | call h =>
      have hargs := h.solid fun a hmem ts hw => hw.solid ha hmem
      exact List.forall_mem_cons.mpr ⟨IsWord.solid (.inl hn), hargs⟩
  | nest hn ha _ _ ih =>
    cases h with
    | nest h hrow =>
      have hargs := h.solid fun a hmem ts hw => hw.solid ha hmem
      have hblock := hrow.forall_mem fun s hs ts hw => ih s hs hw
      rw [List.cons_append, List.forall_mem_cons, List.forall_mem_append]
      exact ⟨IsWord.solid (.inl hn), hargs, solid_blockTokens hblock⟩
  | batch hbs _ _ ih =>
    cases h with
    | batch h hrow =>
      have hbindings := h.solid fun b hmem ts hw => WritesBinding.solid hbs hmem hw
      have hblock := hrow.forall_mem fun s hs ts hw => ih s hs hw
      rw [List.cons_append, List.forall_mem_cons, List.forall_mem_append]
      exact ⟨solid_keyword (by decide), hbindings, solid_blockTokens hblock⟩

theorem Declaration.Writes.solid {d : Declaration} (hl : d.Legible) {ts : List Token}
    (h : d.Writes ts) : ∀ t ∈ ts, Solid t := by
  cases hl with
  | workers _ hn =>
    cases h with
    | workers h =>
      have hnames := h.solid fun n hmem ts hw => by
        rw [hw]
        exact List.forall_mem_singleton.mpr (IsWord.solid (.inl (hn n hmem)))
      exact List.forall_mem_cons.mpr ⟨solid_keyword (by decide), hnames⟩
  | definition hn hps _ _ hb =>
    cases h with
    | definition hp hrow =>
      have hparameters := hp.solid fun p hmem ts hw => by
        rw [hw]
        exact List.forall_mem_singleton.mpr (solid_symbol p)
      have hblock := hrow.forall_mem fun s hs ts hw => hw.solid (hb s hs)
      rw [List.cons_append, List.cons_append, List.forall_mem_cons, List.forall_mem_cons,
        List.forall_mem_append]
      exact ⟨solid_keyword (by decide), IsWord.solid (.inl hn), hparameters,
        solid_blockTokens hblock⟩

/-! ### There is a way to write it -/

section

variable {α β : Type}

theorem exists_row {W : α → List β → Prop} {xs : List α} (h : ∀ x ∈ xs, ∃ ts, W x ts) :
    ∃ ts, Row W xs ts := by
  induction xs with
  | nil => exact ⟨[], .nil⟩
  | cons x xs ih =>
    obtain ⟨hx, hxs⟩ := List.forall_mem_cons.mp h
    obtain ⟨ts, hw⟩ := hx
    obtain ⟨ts', hrow⟩ := ih hxs
    exact ⟨ts ++ ts', .cons hw hrow⟩

variable {W : α → List Token → Prop}

theorem exists_commas {xs : List α} (hne : xs ≠ []) (h : ∀ x ∈ xs, ∃ ts, W x ts) :
    ∃ ts, Commas W xs ts := by
  induction xs with
  | nil => exact absurd rfl hne
  | cons x xs ih =>
    obtain ⟨⟨ts, hw⟩, hxs⟩ := List.forall_mem_cons.mp h
    match xs with
    | [] => exact ⟨ts, .one hw⟩
    | y :: xs =>
      obtain ⟨ts', hcommas⟩ := ih (List.cons_ne_nil _ _) hxs
      exact ⟨ts ++ [','] :: ts', .cons hw hcommas⟩

theorem exists_optional {xs : List α} (h : ∀ x ∈ xs, ∃ ts, W x ts) : ∃ ts, Optional W xs ts := by
  by_cases hne : xs = []
  · exact ⟨[], hne ▸ .none⟩
  · obtain ⟨ts, hcommas⟩ := exists_commas hne h
    exact ⟨ts, .some hcommas⟩

end

/-- Control characters are escaped by their numbers. -/
theorem exists_escape (c : Char) : ∃ t, Escapes c t := by
  by_cases hquote : c = '"'
  · exact ⟨_, .short (x := '"') (by rw [hquote]; decide)⟩
  by_cases hslash : c = '\\'
  · exact ⟨_, .short (x := '\\') (by rw [hslash]; decide)⟩
  by_cases hspace : ' ' ≤ c
  · exact ⟨_, .plain hspace hquote hslash⟩
  have hlow : c.toNat < 32 := Char.not_le.mp hspace
  have hunit : IsUnit c.toNat ['\\', 'u', '0', '0', Nat.digitChar (c.toNat / 16),
      Nat.digitChar (c.toNat % 16)] :=
    ⟨_, rfl, (by decide : ∀ n < 32, Hexadecimal.value? ['0', '0', Nat.digitChar (n / 16),
      Nat.digitChar (n % 16)] = some n) _ hlow, rfl⟩
  obtain ⟨t, hrow⟩ : ∃ t, Row IsUnit (units c) t := by
    rw [units, if_pos (by omega)]
    exact ⟨_, .cons hunit .nil⟩
  exact ⟨t, .unicode hrow⟩

theorem IsLiteral.exists_writes {v : Value} (h : IsLiteral v) : ∃ ts, WritesValue v ts := by
  induction h with
  | null => exact ⟨_, .null⟩
  | @bool b =>
    cases b
    · exact ⟨_, .false⟩
    · exact ⟨_, .true⟩
  | integer hz => exact ⟨_, .integer hz⟩
  | @string s =>
    have hrow : ∃ t, Row Escapes s.toList t := exists_row fun c _ => exists_escape c
    obtain ⟨t, ht⟩ := hrow
    exact ⟨_, .string ht⟩
  | array _ ih =>
    obtain ⟨ts, hts⟩ := exists_optional ih
    exact ⟨_, .array hts⟩

theorem ArgsLegible.exists_writes {args : List Arg} (ha : ArgsLegible args) :
    ∃ ts, Optional WritesArg args ts := by
  refine exists_optional fun a hmem => ?_
  match a with
  | ⟨key, .param name⟩ => exact ⟨_, .keyed⟩
  | ⟨key, .literal v⟩ =>
    obtain ⟨ts, hts⟩ := (ha.literals _ hmem v rfl).exists_writes
    exact ⟨_, .literal hts⟩

theorem BindingsLegible.exists_writes {bindings : List Binding} (hl : BindingsLegible bindings) :
    ∃ ts, Commas WritesBinding bindings ts :=
  exists_commas hl.some fun _ _ => ⟨_, rfl⟩

theorem Sentence.Legible.exists_writes {s : Sentence} (hl : s.Legible) : ∃ ts, s.Writes ts := by
  induction hl with
  | call _ ha =>
    obtain ⟨ts, hts⟩ := ha.exists_writes
    exact ⟨_, .call hts⟩
  | nest _ ha _ _ ih =>
    obtain ⟨ts, hts⟩ := ha.exists_writes
    obtain ⟨ts', hrow⟩ := exists_row ih
    exact ⟨_, .nest hts hrow⟩
  | batch hbs _ _ ih =>
    obtain ⟨ts, hts⟩ := hbs.exists_writes
    obtain ⟨ts', hrow⟩ := exists_row ih
    exact ⟨_, .batch hts hrow⟩

theorem Declaration.Legible.exists_writes {d : Declaration} (hl : d.Legible) :
    ∃ ts, d.Writes ts := by
  cases hl with
  | @workers names hne =>
    have hcommas : ∃ ts, Commas WritesName names ts := exists_commas hne fun _ _ => ⟨_, rfl⟩
    obtain ⟨ts, hts⟩ := hcommas
    exact ⟨_, .workers hts⟩
  | @definition _ parameters _ _ _ _ _ hb =>
    have hoptional : ∃ ts, Optional WritesSymbol parameters ts :=
      exists_optional fun _ _ => ⟨_, rfl⟩
    obtain ⟨ts, hts⟩ := hoptional
    obtain ⟨ts', hrow⟩ := exists_row fun s hs => (hb s hs).exists_writes
    exact ⟨_, .definition hts hrow⟩

theorem Spaced.space {t : Token} {ts : List Token} {cs : List Char} (h : Spaced ts cs) :
    Spaced (t :: ts) (t ++ ([' '] ++ cs)) :=
  .cons (.blank rfl .nil) (fun _ => List.cons_ne_nil _ _) h

/-- Tokens with a space behind each. -/
theorem exists_laid (ts : List Token) : ∃ text, Laid ts text := by
  have hspaced : ∃ cs, Spaced ts cs := by
    induction ts with
    | nil => exact ⟨[], .nil⟩
    | cons t ts ih =>
      obtain ⟨cs, hcs⟩ := ih
      exact ⟨_, hcs.space⟩
  obtain ⟨cs, hcs⟩ := hspaced
  exact ⟨String.ofList cs, [], cs, .nil, hcs, String.toList_ofList⟩

end Surface

end Workflow
