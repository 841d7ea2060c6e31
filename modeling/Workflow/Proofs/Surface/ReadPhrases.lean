import Workflow.Proofs.Surface.ReadLiterals

/-!
Arguments, statements and declarations are read back from what was written for them. A call takes
no argument and no block from what follows it: a word that is no key ends its arguments, and one
that is not `do` opens no block.
-/

namespace Workflow.Surface

/-! ### Symbols and keys -/

section

variable {name : String} {c : Cursor} {b : Nat} {us : List Token}

theorem reads_symbol (hn : IsIdentifier name.toList) (hs : Stands (symbolToken name :: us) c)
    (hb : c.rest.length ≤ b + 1) : Reads symbol c b us (· = name.toList) := by
  obtain ⟨rest, hr, hrest, -, hs⟩ := hs.split
  have hi := identifier_append hn (hrest.head (p := isIdentChar) (by decide))
  refine .named ⟨name.toList, Cursor.moveTo ⟨c.offset + ':'.utf8Size, name.toList ++ rest⟩ rest, ?_,
    rfl, hs _ rfl, ?_⟩
  · simp [Rule.found_char (c := c) hr, hi]
  · simp only [hr, symbolToken, List.length_append, List.length_cons] at hb
    rw [Cursor.moveTo_rest]
    omega

theorem symbol_none (h : StartsNot ':' us) (hs : Stands us c) : (symbol c).found = none := by
  simp [symbol, h.char hs]

theorem reads_key (hn : IsIdentifier name.toList) (hs : Stands (keyToken name :: us) c)
    (hb : c.rest.length ≤ b + 1) : Reads (Rule.lexeme key) c b us (· = name.toList) := by
  refine .lexeme hs hb fun rest hr => ?_
  rw [keyToken, List.append_assoc]
  exact key_append hn hr

end

/-! ### Words that may follow -/

/-- A name or a keyword. -/
def IsWord (t : Token) : Prop := IsName t ∨ ∃ k ∈ keywords, k.toList = t

section

variable {t : Token} {us : List Token} {c : Cursor} {rest : List Char}

theorem IsName.start (h : IsName t) : ∃ x xs, t = x :: xs ∧ isIdentStart x = true := by
  cases h with
  | one h =>
    obtain ⟨x, xs, hx, hstart, -⟩ := h
    exact ⟨x, xs, hx, hstart⟩
  | cons h _ =>
    obtain ⟨x, xs, rfl, hstart, -⟩ := h
    exact ⟨x, _, rfl, hstart⟩

theorem IsWord.start (h : IsWord t) : ∃ x xs, t = x :: xs ∧ isIdentStart x = true := by
  rcases h with h | ⟨k, hk, rfl⟩
  · exact h.start
  · simp only [keywords, List.mem_cons, List.not_mem_nil, or_false] at hk
    rcases hk with rfl | rfl | rfl | rfl | rfl | rfl | rfl | rfl <;> exact ⟨_, _, rfl, rfl⟩

theorem IsWord.startsNot (h : ∀ t ∈ us.head?, IsWord t) {x : Char} (hx : isIdentStart x = false) :
    StartsNot x us := by
  intro t ht cs hcs
  obtain ⟨y, ys, rfl, hy⟩ := (h t ht).start
  rw [(List.cons.inj hcs).1, hx] at hy
  cases hy

theorem IsWord.keyword_none (h : IsWord t) (hr : Boundary rest) {k : String} (hk : k ∈ keywords)
    (hne : t ≠ k.toList) : keyword k (t ++ rest) = none := by
  rcases h with h | ⟨j, hj, rfl⟩
  · exact keyword_name h hr hk
  · exact keyword_ne hj hr fun h => hne (h ▸ rfl)

theorem IsWord.key_none (h : IsWord t) (hr : Boundary rest) : key (t ++ rest) = none := by
  rcases h with h | ⟨k, hk, rfl⟩
  · exact key_name h hr
  · rw [key, identifier_keyword hk hr]

/-- Arguments end where a word follows that is no key. -/
theorem argument_none (h : ∀ t ∈ us.head?, IsWord t) (hs : Stands us c) :
    (argument c).found = none := by
  have hkey : key c.rest = none := by
    match us with
    | [] =>
      rw [hs.rest_nil]
      rfl
    | t :: us =>
      obtain ⟨rest, hr, hrest, -⟩ := hs.split
      rw [hr]
      exact (h t rfl).key_none hrest
  simp [argument, keyed, hkey, symbol_none (IsWord.startsNot h rfl) hs]

/-- What may follow a statement: it is no block of the statement. -/
structure Opens (t : Token) : Prop where
  word : IsWord t
  ne_do : t ≠ "do".toList

theorem IsName.opens (h : IsName t) : Opens t := by
  refine ⟨.inl h, ?_⟩
  rintro rfl
  have hk : "do" ∈ keywords := by decide
  have hname := keyword_name h boundary_nil hk
  rw [keyword_append hk boundary_nil] at hname
  cases hname

theorem opens_keyword {k : String} (hk : k ∈ keywords) (hne : k ≠ "do") : Opens k.toList :=
  ⟨.inr ⟨k, hk, rfl⟩, fun h => hne (String.toList_injective h)⟩

theorem keyword_do_none (h : ∀ t ∈ us.head?, Opens t) (hs : Stands us c) :
    keyword "do" c.rest = none := by
  match us with
  | [] =>
    rw [hs.rest_nil]
    rfl
  | t :: us =>
    obtain ⟨rest, hr, hrest, -⟩ := hs.split
    rw [hr]
    exact (h t rfl).word.keyword_none hrest (by decide) (h t rfl).ne_do

end

/-! ### Arguments and bindings -/

/-- What stands for a thing in that `f` gives the thing back. -/
def Gives {α β : Type} (f : β → α) (x : α) (y : β) : Prop := f y = x

theorem Gives.all {α β : Type} {f : β → α} {xs : List α} {ys : List β}
    (h : List.Forall₂ (Gives f) xs ys) : ys.map f = xs := by
  induction h with
  | nil => rfl
  | cons h _ ih => rw [List.map_cons, h, ih]

/-- A value does not begin like a symbol. -/
theorem WritesValue.startsNot {v : Value} {ts us : List Token} (h : WritesValue v ts) :
    StartsNot ':' (ts ++ us) := by
  cases h with
  | @integer z =>
    obtain ⟨d, ds, hds, hd⟩ := decimal_cons z
    rintro _ ⟨⟩ cs hcs
    rw [hds] at hcs
    obtain rfl := (List.cons.inj hcs).1
    rcases hd with hd | hd <;> cases hd
  | _ =>
    rintro _ ⟨⟩ _ hcs
    exact absurd (List.cons.inj hcs).1 (by decide)

def IsArg (x : Arg) (a : Argument) : Prop := a.Accepted ∧ a.arg = x

section

variable {key : String} {c : Cursor} {b : Nat} {us : List Token}

theorem reads_shorthand (hkey : IsIdentifier key.toList) (hs : Stands (symbolToken key :: us) c)
    (hb : c.rest.length ≤ b + 1) : Reads argument c b us (IsArg (.param key)) := by
  have hkeyed : (keyed c).found = none := by
    obtain ⟨rest, hr, -⟩ := hs.split
    have hnone : Surface.key c.rest = none := by
      rw [hr]
      rfl
    simp [keyed, hnone]
  refine .orElse_right hkeyed (.located (reads_symbol hkey hs hb) ?_)
  rintro _ e rfl
  exact ⟨trivial, by rw [Argument.arg, String.ofList_toList]⟩

/-- A key, and what is read behind it. -/
theorem reads_keyed {P : ArgValue → Prop} {a : Arg} {vs : List Token}
    (hkey : IsIdentifier key.toList) (hs : Stands (keyToken key :: vs) c)
    (hb : c.rest.length ≤ b + 1)
    (hvalue : ∀ d, Stands vs d → d.rest.length < c.rest.length →
      Reads (Rule.orElse (do pure (.symbol (← symbol))) (do pure (.literal (← literal)))) d
        (c.rest.length - 1) us P)
    (hP : ∀ v e, P v → IsArg a (.keyed key.toList v e)) : Reads argument c b us (IsArg a) := by
  have hpos := hs.length_pos
  refine .orElse (.weaken (b := c.rest.length - 1)
    (.located (P := fun x => x.1 = key.toList ∧ P x.2) ?_ ?_) (by omega))
  · exact .seq (reads_key hkey hs (by omega)) fun k d hk hd hdb =>
      .map (hvalue d hd (by omega)) fun v hv => ⟨hk, hv⟩
  · rintro ⟨_, v⟩ e ⟨rfl, hv⟩
    exact hP v e hv

end

theorem reads_argument {args : List Arg} (ha : ArgsLegible args) (n : Nat) :
    ReadsAll argument WritesArg IsArg args n := by
  intro x hx ts us c b h hs _ hb
  have hkey := ha.keys x hx
  cases h with
  | shorthand => exact reads_shorthand hkey hs hb
  | @keyed key name =>
    have hname := ha.names _ hx name rfl
    refine reads_keyed (P := (· = .symbol name.toList)) hkey hs hb (fun d hd hdb =>
      .orElse (.map (reads_symbol hname hd (by omega)) fun w hw => by rw [hw])) ?_
    rintro _ e rfl
    exact ⟨trivial, by simp [Argument.arg, Arg.keyed]⟩
  | @literal key v ts h =>
    have hv := ha.literals _ hx v rfl
    refine reads_keyed (P := fun a => ∃ l, a = .literal l ∧ IsFor v l) hkey hs hb
      (fun d hd hdb => .orElse_right (by simp [symbol_none h.startsNot hd])
        (.map (reads_literalUpTo hv h hd (Nat.le_refl _) (by omega)) fun l hl => ⟨l, rfl, hl⟩)) ?_
    rintro _ e ⟨l, rfl, hl⟩
    exact ⟨hl.1, by simp [Argument.arg, Arg.literal, hl.2]⟩

theorem isArg_all {args : List Arg} {as : List Argument} (h : List.Forall₂ IsArg args as) :
    (∀ a ∈ as, a.Accepted) ∧ as.map Argument.arg = args := by
  induction h with
  | nil => simp
  | cons h _ ih => exact ⟨List.forall_mem_cons.mpr ⟨h.1, ih.1⟩, by rw [List.map_cons, h.2, ih.2]⟩

theorem ArgsLegible.sound {args : List Arg} {as : List Argument} (ha : ArgsLegible args)
    (h : List.Forall₂ IsArg args as) : ArgsSound as := by
  obtain ⟨haccepted, rfl⟩ := isArg_all h
  refine ⟨haccepted, ?_⟩
  have hkeys := ha.distinct
  rwa [List.map_map] at hkeys

theorem reads_binding {bindings : List Binding} (hl : BindingsLegible bindings) (n : Nat) :
    ReadsAll binding WritesBinding (Gives BindingPhrase.binding) bindings n := by
  intro x hx ts us c b h hs _ hb
  subst h
  refine .located (P := fun le => le = (x.list.toList, x.element.toList)) ?_ ?_
  · refine .seq (reads_key (hl.lists x hx) hs hb) fun k d hk hd hdb =>
      .map (reads_symbol (hl.elements x hx) hd (by omega)) ?_
    rintro _ rfl
    rw [hk]
  · rintro _ e rfl
    simp [Gives, BindingPhrase.binding]

theorem BindingsLegible.sound {bindings : List Binding} {ps : List BindingPhrase}
    (hl : BindingsLegible bindings) (h : List.Forall₂ (Gives BindingPhrase.binding) bindings ps) :
    ps ≠ [] ∧ BindingsSound ps := by
  obtain rfl := Gives.all h
  have hlists := hl.distinctLists
  have helements := hl.distinctElements
  rw [List.map_map] at hlists helements
  exact ⟨fun hnil => hl.some (by rw [hnil, List.map_nil]), hlists, helements⟩

/-! ### Statements -/

def IsNode (s : Sentence) (st : Statement) : Prop :=
  st.Sound ∧ ∀ lines, (st.node lines).bare = s.node

def IsTree (steps : List Sentence) (b : Block) : Prop :=
  b.Sound ∧ ∀ lines, (b.node lines).bare = Sentence.tree steps

theorem bare_joined (span : Span) (ns : List Node) :
    (joined span ns).bare = joined Span.zero (Node.bareOf ns) := by
  match ns with
  | [] => rfl
  | [n] => rfl
  | n :: m :: rest => rfl

theorem isTree_mk {steps : List Sentence} {sts : List Statement} {e : Extent} (hne : steps ≠ [])
    (h : List.Forall₂ IsNode steps sts) : IsTree steps (.mk sts e) := by
  have hall : AllSound sts ∧ ∀ lines, Node.bareOf (nodesOf lines sts) = Sentence.nodes steps := by
    clear hne
    induction h with
    | nil => exact ⟨trivial, fun _ => rfl⟩
    | cons h _ ih =>
      exact ⟨⟨h.1, ih.1⟩, fun lines => by rw [nodesOf, Node.bareOf, Sentence.nodes, h.2, ih.2]⟩
  refine ⟨⟨?_, hall.1⟩, fun lines => ?_⟩
  · rintro rfl
    cases h
    exact hne rfl
  · rw [Block.node, bare_joined, hall.2, Sentence.tree]

section

variable {blk : Rule Block} {n : Nat} {c : Cursor}

/-- A rule for blocks reads the statements of a block on a text that is not too long. -/
def ReadsBlock (blk : Rule Block) (n : Nat) (steps : List Sentence) : Prop :=
  ∀ ts us c b, Row Sentence.Writes steps ts → Stands (blockTokens ts ++ us) c → c.rest.length ≤ n →
    c.rest.length ≤ b + 1 → Reads blk c b us (IsTree steps)

/-- The same for one statement, before what may follow it. -/
def ReadsStatement (blk : Rule Block) (n : Nat) (s : Sentence) : Prop :=
  ∀ ts us c b, s.Writes ts → (∀ t ∈ us.head?, Opens t) → Stands (ts ++ us) c →
    c.rest.length ≤ n → c.rest.length ≤ b + 1 → Reads (statement blk) c b us (IsNode s)

/-- A rule for blocks refuses where there is no `do`. -/
def RefusesBlock (blk : Rule Block) : Prop :=
  ∀ c : Cursor, keyword "do" c.rest = none → (blk c).found = none

theorem refusesBlock_blockUpTo (depth : Nat) : RefusesBlock (blockUpTo depth) := by
  intro c h
  match depth with
  | 0 => rfl
  | depth + 1 => simp [blockUpTo, h]

theorem refusesBlock_block : RefusesBlock block := fun c => refusesBlock_blockUpTo _ c

theorem statement_none_of_words (hbatch : keyword "batch" c.rest = none)
    (hi : identifier c.rest = none) : (statement blk c).found = none := by
  have hn : name c.rest = none := by rw [name, hi]
  simp [statement, batch, call, hbatch, hn]

theorem statement_none {us : List Token} (h : ∀ t ∈ us.head?, t = "end".toList)
    (hs : Stands us c) : (statement blk c).found = none := by
  match us with
  | [] =>
    refine statement_none_of_words ?_ ?_ <;> rw [hs.rest_nil]
    · decide
    · rfl
  | t :: us =>
    obtain ⟨rest, hr, hrest, -⟩ := hs.split
    obtain rfl := h t rfl
    have hend : "end" ∈ keywords := by decide
    refine statement_none_of_words ?_ ?_ <;> rw [hr]
    · exact keyword_ne hend hrest (by decide)
    · exact identifier_keyword hend hrest

/-- A call up to its block, which may be missing. -/
theorem reads_invocation {nm : String} {args : List Arg} {ts us vs : List Token} {b : Nat}
    {Q : Option Block → Prop} (hn : IsName nm.toList) (ha : ArgsLegible args)
    (h : Optional WritesArg args ts) (hus : ∀ t ∈ us.head?, IsWord t)
    (hs : Stands (nm.toList :: (ts ++ us)) c) (hb : c.rest.length ≤ b + 1)
    (hblk : ∀ d, Stands us d → d.rest.length < c.rest.length →
      Reads (Rule.optional blk) d (c.rest.length - 1) vs Q) :
    Reads (statement blk) c b vs fun st =>
      ∃ as o e, List.Forall₂ IsArg args as ∧ Q o ∧ st = .call nm.toList as o e := by
  have hpos := hs.length_pos
  have hbatch : keyword "batch" c.rest = none := by
    obtain ⟨rest, hr, hrest, -⟩ := hs.split
    rw [hr]
    exact keyword_name hn hrest (by decide)
  refine .orElse_right (by simp [batch, hbatch]) (.weaken (b := c.rest.length - 1) (.located
    (P := fun x => List.Forall₂ IsArg args x.2.1 ∧ Q x.2.2 ∧ x.1 = nm.toList) ?_ ?_) (by omega))
  · refine .seq (.lexeme hs (by omega) fun _ => name_append hn) fun w d hw hd hdb =>
      .seq (reads_optional h (reads_argument ha _) (IsWord.startsNot hus rfl)
        (fun _ => argument_none hus) hd hdb) fun as d' has hd' hdb' =>
          .map (hblk d' hd' (by omega)) fun o ho => ⟨has, ho, hw⟩
  · rintro ⟨_, as, o⟩ e ⟨has, ho, rfl⟩
    exact ⟨as, o, e, has, ho, rfl⟩

theorem reads_call {nm : String} {args : List Arg} (hn : IsName nm.toList) (ha : ArgsLegible args)
    (hrefuse : RefusesBlock blk) : ReadsStatement blk n (.call nm args) := by
  intro ts us c b h hus hs _ hb
  cases h with
  | call h =>
    refine (reads_invocation hn ha h (fun t ht => (hus t ht).word) hs hb fun d hd hdb =>
      .absent (Q := (· = none)) (hrefuse d (keyword_do_none hus hd)) hd (by omega) rfl).mono ?_
    rintro _ ⟨as, _, e, has, rfl, rfl⟩
    refine ⟨ha.sound has, fun lines => ?_⟩
    rw [Statement.node, (isArg_all has).2, String.ofList_toList]
    rfl

theorem reads_nest {nm : String} {args : List Arg} {steps : List Sentence} (hn : IsName nm.toList)
    (ha : ArgsLegible args) (hblk : ReadsBlock blk n steps) :
    ReadsStatement blk n (.nest nm args steps) := by
  intro ts us c b h _ hs hc hb
  cases h with
  | @nest _ _ _ ts ts' h hrow =>
    replace hs : Stands (nm.toList :: (ts ++ (blockTokens ts' ++ us))) c := by simpa using hs
    have hdo : ∀ t ∈ (blockTokens ts' ++ us).head?, IsWord t := by
      rintro _ ⟨⟩
      exact .inr ⟨"do", by decide, rfl⟩
    refine (reads_invocation hn ha h hdo hs hb fun d hd hdb =>
      .optional (Q := fun o => ∃ body, o = some body ∧ IsTree steps body)
        (hblk ts' us d _ hrow hd (by omega) (by omega))
          fun body hbody => ⟨body, rfl, hbody⟩).mono ?_
    rintro _ ⟨as, _, e, has, ⟨body, rfl, hbody⟩, rfl⟩
    refine ⟨⟨ha.sound has, hbody.1⟩, fun lines => ?_⟩
    rw [Statement.node, (isArg_all has).2, String.ofList_toList, Node.bare, hbody.2]
    rfl

theorem reads_batch {bindings : List Binding} {steps : List Sentence} (hl : BindingsLegible bindings)
    (hblk : ReadsBlock blk n steps) : ReadsStatement blk n (.batch bindings steps) := by
  intro ts us c b h _ hs hc hb
  cases h with
  | @batch _ _ ts ts' h hrow =>
    replace hs : Stands ("batch".toList :: (ts ++ (blockTokens ts' ++ us))) c := by simpa using hs
    have hpos := hs.length_pos
    have hcomma : StartsNot ',' (blockTokens ts' ++ us) := by
      rintro _ ⟨⟩ _ ⟨⟩
    refine .orElse (.weaken (b := c.rest.length - 1) (.located (P := fun x =>
      List.Forall₂ (Gives BindingPhrase.binding) bindings x.1 ∧ IsTree steps x.2) ?_ ?_) (by omega))
    · refine .seq (.lexeme hs (by omega) fun _ => keyword_append (by decide)) fun _ d _ hd hdb =>
        .seq (.optional
          (Q := fun ps => List.Forall₂ (Gives BindingPhrase.binding) bindings (ps.getD []))
          (reads_commas h (reads_binding hl _) hcomma hd hdb) fun _ hps => hps)
          fun ps d' hps hd' hdb' =>
            .map (hblk ts' us d' _ hrow hd' (by omega) (by omega)) fun body hbody => ⟨hps, hbody⟩
    · rintro ⟨ps, body⟩ e ⟨hps, hbody⟩
      have hsound := hl.sound hps
      refine ⟨⟨hsound.1, hsound.2, hbody.1⟩, fun lines => ?_⟩
      rw [Statement.node, Gives.all hps, Node.bare, hbody.2]
      rfl

/-- A block of statements that are read each. -/
theorem reads_blockUpTo {depth : Nat} {steps : List Sentence} (hne : steps ≠ [])
    (hopens : ∀ s ∈ steps, ∀ ts, s.Writes ts → ∃ t ts', ts = t :: ts' ∧ Opens t)
    (h : ∀ s ∈ steps, ReadsStatement (blockUpTo depth) depth s) :
    ReadsBlock (blockUpTo (depth + 1)) (depth + 1) steps := by
  intro ts us c b hrow hs hc hb
  replace hs : Stands ("do".toList :: (ts ++ ("end".toList :: us))) c := by
    simpa [blockTokens] using hs
  have hpos := hs.length_pos
  have hend : ∀ t ∈ ("end".toList :: us).head?, t = "end".toList := by
    rintro _ ⟨⟩
    rfl
  refine .weaken (b := c.rest.length - 1) (.located (P := List.Forall₂ IsNode steps) ?_
    fun sts e => isTree_mk hne) (by omega)
  refine .seq (.lexeme hs (by omega) fun _ => keyword_append (by decide)) fun _ d _ hd hdb =>
    .seq (P := List.Forall₂ IsNode steps) ?_ fun sts d' hsts hd' hdb' =>
      .map (.lexeme hd' (by omega) fun _ => keyword_append (by decide)) fun _ _ => hsts
  rw [← hd.skipped] at hd
  -- Behind `do` the rest is shorter, so one level less is deep enough.
  refine reads_row hrow hopens (fun s hs ts us d b' hw hus hd hdb hb' =>
    h s hs ts us d b' hw hus hd (by omega) hb') (fun t ht => ?_) (fun _ => statement_none hend)
      hd hdb
  rw [hend t ht]
  exact opens_keyword (by decide) (by decide)

end

/-- A statement begins with a word that may follow another statement. -/
theorem Sentence.Writes.opens {s : Sentence} {ts : List Token} (h : s.Writes ts) (hl : s.Legible) :
    ∃ t ts', ts = t :: ts' ∧ Opens t := by
  cases hl with
  | call hn =>
    cases h
    exact ⟨_, _, rfl, hn.opens⟩
  | nest hn =>
    cases h
    exact ⟨_, _, rfl, hn.opens⟩
  | batch =>
    cases h
    exact ⟨_, _, rfl, opens_keyword (by decide) (by decide)⟩

theorem readsBlock_blockUpTo {steps : List Sentence} (hne : steps ≠ [])
    (hl : ∀ s ∈ steps, s.Legible)
    (h : ∀ s ∈ steps, ∀ depth, ReadsStatement (blockUpTo depth) depth s) (depth : Nat) :
    ReadsBlock (blockUpTo depth) depth steps := by
  match depth with
  | 0 =>
    intro ts us c b _ hs hc
    have hpos := Stands.length_pos (t := "do".toList) hs
    omega
  | depth + 1 =>
    exact reads_blockUpTo hne (fun s hs ts hw => hw.opens (hl s hs)) fun s hs => h s hs depth

/-- Statements at any depth, the blocks within being read first. -/
theorem Sentence.Legible.reads {s : Sentence} (hl : s.Legible) (depth : Nat) :
    ReadsStatement (blockUpTo depth) depth s := by
  -- On the statement and not on the depth: a text is never shorter than its blocks are deep.
  induction hl generalizing depth with
  | call hn ha => exact reads_call hn ha (refusesBlock_blockUpTo depth)
  | nest hn ha hne hb ih => exact reads_nest hn ha (readsBlock_blockUpTo hne hb ih depth)
  | batch hbs hne hb ih => exact reads_batch hbs (readsBlock_blockUpTo hne hb ih depth)

theorem readsBlock_block {steps : List Sentence} (hne : steps ≠ []) (hl : ∀ s ∈ steps, s.Legible)
    (n : Nat) : ReadsBlock block n steps :=
  fun ts us c b hrow hs _ => readsBlock_blockUpTo hne hl (fun s hs => (hl s hs).reads)
    c.rest.length ts us c b hrow hs (Nat.le_refl _)

theorem Sentence.Legible.readsStatement {s : Sentence} (hl : s.Legible) (n : Nat) :
    ReadsStatement block n s := by
  cases hl with
  | call hn ha => exact reads_call hn ha refusesBlock_block
  | nest hn ha hne hb => exact reads_nest hn ha (readsBlock_block hne hb n)
  | batch hbs hne hb => exact reads_batch hbs (readsBlock_block hne hb n)

/-! ### Declarations -/

theorem fileOf_cons (lines : Lines) (item : Item) (items : List Item) :
    (fileOf lines (item :: items)).bare =
      ⟨(fileOf lines [item]).bare.workers ++ (fileOf lines items).bare.workers,
        (fileOf lines [item]).bare.definitions ++ (fileOf lines items).bare.definitions⟩ := by
  cases item <;> simp [fileOf, DefinitionFile.bare]

def IsItem (d : Declaration) (item : Item) : Prop :=
  item.Sound ∧ ∀ lines, (fileOf lines [item]).bare = Declaration.file [d]

theorem isItem_all {ds : List Declaration} {items : List Item} (h : List.Forall₂ IsItem ds items) :
    (∀ item ∈ items, item.Sound) ∧ ∀ lines, (fileOf lines items).bare = Declaration.file ds := by
  induction h with
  | nil => exact ⟨by simp, fun _ => rfl⟩
  | @cons d item ds items h _ ih =>
    refine ⟨List.forall_mem_cons.mpr ⟨h.1, ih.1⟩, fun lines => ?_⟩
    rw [fileOf_cons, h.2, ih.2]
    cases d <;> simp [Declaration.file, Declaration.workers?, Declaration.definition?,
      List.filterMap_cons]

theorem reads_names {names : List String} (hn : ∀ n ∈ names, IsName n.toList) (n : Nat) :
    ReadsAll (Rule.lexeme name) WritesName (Gives String.ofList) names n := by
  rintro x hx _ us c b rfl hs _ hb
  refine (Reads.lexeme hs hb fun _ => name_append (hn x hx)).mono ?_
  rintro _ rfl
  exact String.ofList_toList

theorem reads_parameter {parameters : List String} (hp : ∀ p ∈ parameters, IsIdentifier p.toList)
    (n : Nat) :
    ReadsAll parameter WritesSymbol (Gives fun p => String.ofList p.name) parameters n := by
  rintro x hx _ us c b rfl hs _ hb
  refine .located (reads_symbol (hp x hx) hs hb) ?_
  rintro _ e rfl
  exact String.ofList_toList

section

variable {c : Cursor} {b : Nat} {ts us : List Token}

theorem reads_workers {names : List String} (hn : ∀ n ∈ names, IsName n.toList)
    (h : Commas WritesName names ts) (hus : ∀ t ∈ us.head?, IsWord t)
    (hs : Stands ("workers".toList :: (ts ++ us)) c) (hb : c.rest.length ≤ b + 1) :
    Reads workers c b us (IsItem (.workers names)) := by
  refine .seq (.lexeme hs hb fun _ => keyword_append (by decide)) fun _ d _ hd hdb =>
    .map (reads_commas h (reads_names hn _) (IsWord.startsNot hus rfl) hd hdb) fun ws hws => ?_
  have hnames := Gives.all hws
  refine ⟨trivial, fun lines => ?_⟩
  simp [fileOf, hnames, DefinitionFile.bare, Declaration.file, Declaration.workers?,
    Declaration.definition?]

theorem parameter_none (hs : Stands us c) (h : StartsNot ':' us) : (parameter c).found = none := by
  simp [parameter, symbol_none h hs]

theorem reads_definition {nm : String} {parameters : List String} {steps : List Sentence}
    {ts' : List Token} (hl : Declaration.Legible (.definition nm parameters steps))
    (hp : Optional WritesSymbol parameters ts)
    (hrow : Row Sentence.Writes steps ts')
    (hs : Stands ("superworker".toList :: nm.toList :: (ts ++ (blockTokens ts' ++ us))) c)
    (hb : c.rest.length ≤ b + 1) :
    Reads definition c b us (IsItem (.definition nm parameters steps)) := by
  cases hl with
  | definition hn hps hd hne hsteps =>
  have hcomma : StartsNot ',' (blockTokens ts' ++ us) := by
    rintro _ ⟨⟩ _ ⟨⟩
  have hcolon : StartsNot ':' (blockTokens ts' ++ us) := by
    rintro _ ⟨⟩ _ ⟨⟩
  refine .located (P := fun x => x.1 = nm.toList ∧ 
    List.Forall₂ (Gives fun p => String.ofList p.name) parameters x.2.1 ∧ IsTree steps x.2.2) ?_ ?_
  · refine .seq (.lexeme hs hb fun _ => keyword_append (by decide)) fun _ d _ hd hdb =>
      .seq (.lexeme hd (by omega) fun _ => name_append hn) fun w d' hw hd' hdb' =>
        .seq (reads_optional hp (reads_parameter hps _) hcomma
          (fun d hd => parameter_none hd hcolon) hd' hdb') fun ps d'' hps' hd'' hdb'' =>
            .map (readsBlock_block hne hsteps _ ts' us d'' _ hrow hd'' (Nat.le_refl _) (by omega))
              fun body hbody => ⟨hw, hps', hbody⟩
  · rintro ⟨_, ps, body⟩ e ⟨rfl, hps', hbody⟩
    have hparameters := Gives.all hps'
    refine ⟨⟨by rw [hparameters]; exact hd, hbody.1⟩, fun lines => ?_⟩
    simp [fileOf, DefinitionPhrase.definition, Definition.bare, hparameters, hbody.2 lines,
      DefinitionFile.bare, Declaration.file, Declaration.workers?, Declaration.definition?]

end

theorem Declaration.Writes.opens {d : Declaration} {ts : List Token} (h : d.Writes ts) :
    ∃ t ts', ts = t :: ts' ∧ IsWord t := by
  cases h with
  | workers => exact ⟨_, _, rfl, .inr ⟨"workers", by decide, rfl⟩⟩
  | definition => exact ⟨_, _, rfl, .inr ⟨"superworker", by decide, rfl⟩⟩

theorem reads_item {d : Declaration} (hl : d.Legible) {ts us : List Token} {c : Cursor} {b : Nat}
    (h : d.Writes ts) (hus : ∀ t ∈ us.head?, IsWord t) (hs : Stands (ts ++ us) c)
    (hb : c.rest.length ≤ b + 1) :
    Reads (Rule.orElse workers definition) c b us (IsItem d) := by
  cases h with
  | workers h =>
    cases hl with
    | workers _ hn => exact .orElse (reads_workers hn h hus hs hb)
  | @definition nm _ _ ts ts' hp hrow =>
    replace hs :
        Stands ("superworker".toList :: nm.toList :: (ts ++ (blockTokens ts' ++ us))) c := by
      simpa using hs
    have hnone : keyword "workers" c.rest = none := by
      obtain ⟨rest, hr, hrest, -⟩ := hs.split
      rw [hr]
      exact keyword_ne (by decide) hrest (by decide)
    exact .orElse_right (by simp [workers, hnone]) (reads_definition hl hp hrow hs hb)

theorem item_none {c : Cursor} (hs : Stands [] c) :
    (Rule.orElse workers definition c).found = none := by
  have hkeyword : ∀ k ∈ keywords, keyword k c.rest = none := by
    rw [hs.rest_nil]
    decide
  have hworkers := hkeyword "workers" (by decide)
  have hsuperworker := hkeyword "superworker" (by decide)
  simp [workers, definition, hworkers, hsuperworker]

end Workflow.Surface
