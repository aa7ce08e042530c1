import Mathlib.Data.List.TakeWhile
import Partwise.Proofs.Markup.Grammar

/-!
# Markup · Blanking: which declarations are overwritten from end to end

`blankDoctype` takes the end of a declaration from its first `[`, its first `>` and the first `]>`
of all that follows. The grammar lets these characters stand in literals, comments and
instructions, and lets blanks stand between the bracket that closes a subset and the last `>`.
`DocumentType.EndsAtMark` says when the guess is right nevertheless, and `DocumentType.blanked_iff`
that exactly then the declaration is overwritten and nothing else.

A search for a mark is described by what it finds: the text through a mark ends in it and does not
hold it before (`lengthThrough_append_eq_iff`). So the length computed for a declaration is its own
just when its text ends in the mark and holds no earlier one, which the pieces of the grammar decide
one by one.
-/

namespace Partwise.Markup

open Grammar

/-! ## Where a mark first stands -/

/-- All but the last character of a mark opens what the mark opens. -/
theorem dropLast_prefix_append (mark tail : List Char) : mark.dropLast <+: mark ++ tail := by
  have opens := List.dropLast_prefix mark
  exact opens.trans (List.prefix_append mark tail)

/-- Text is cut before the first occurrence of the mark: up to the last character of that
occurrence the text holds no other. -/
theorem splitAtFirst_eq_some_iff {mark : List Char} (marked : mark ≠ [])
    {cs before rest : List Char} :
    splitAtFirst mark cs = some (before, rest) ↔
      before ++ rest = cs ∧ mark <+: rest ∧ ¬ mark <:+: before ++ mark.dropLast := by
  have shorter : mark.dropLast.length < mark.length := by
    have := List.length_pos_of_ne_nil marked
    simp only [List.length_dropLast]
    omega
  induction cs generalizing before rest with
  | nil =>
    have nothing : splitAtFirst mark [] = none := by simp [splitAtFirst, marked]
    rw [nothing]
    constructor
    · intro h
      cases h
    · rintro ⟨whole, opens, -⟩
      rw [(List.append_eq_nil_iff.mp whole).2, List.prefix_nil] at opens
      exact absurd opens marked
  | cons c cs ih =>
    by_cases here : mark <+: c :: cs
    · have cut : splitAtFirst mark (c :: cs) = some ([], c :: cs) := by
        rw [splitAtFirst, if_pos (by simpa using here)]
      rw [cut]
      constructor
      · intro h
        cases h
        exact ⟨rfl, here, fun inside => by have := inside.length_le; simp at this; omega⟩
      · rintro ⟨whole, opens, first⟩
        cases before with
        | nil => simpa using whole.symm
        | cons b before =>
          refine absurd (List.IsPrefix.isInfix ?_) first
          obtain ⟨tail, rfl⟩ := opens
          refine List.prefix_of_prefix_length_le here ?_ (by simp; omega)
          rw [← whole]
          exact (List.prefix_append_right_inj _).mpr (dropLast_prefix_append mark tail)
    · have cut : splitAtFirst mark (c :: cs) =
          (splitAtFirst mark cs).map fun found => (c :: found.1, found.2) := by
        rw [splitAtFirst, if_neg (by simpa using here)]
      rw [cut]
      constructor
      · intro h
        obtain ⟨⟨b, r⟩, found, same⟩ := Option.map_eq_some_iff.mp h
        cases same
        obtain ⟨whole, opens, first⟩ := ih.mp found
        refine ⟨by simp [whole], opens, ?_⟩
        rw [List.cons_append, List.infix_cons_iff]
        rintro (atStart | later)
        · refine here (atStart.trans ?_)
          obtain ⟨tail, rfl⟩ := opens
          rw [← whole, ← List.cons_append, ← List.cons_append]
          exact (List.prefix_append_right_inj _).mpr (dropLast_prefix_append mark tail)
        · exact first later
      · rintro ⟨whole, opens, first⟩
        cases before with
        | nil =>
          rw [List.nil_append] at whole
          exact absurd (whole ▸ opens) here
        | cons b before =>
          simp only [List.cons_append, List.cons.injEq] at whole
          obtain ⟨rfl, whole⟩ := whole
          have later : splitAtFirst mark cs = some (before, rest) :=
            ih.mpr ⟨whole, opens, fun inside =>
              first (inside.trans (List.suffix_cons b _).isInfix)⟩
          rw [later]
          rfl

/-- Just a text that the mark does not stand in is not cut. -/
theorem splitAtFirst_eq_none_iff {mark : List Char} (marked : mark ≠ []) {cs : List Char} :
    splitAtFirst mark cs = none ↔ ¬ mark <:+: cs := by
  induction cs with
  | nil => simp [splitAtFirst, marked]
  | cons c cs ih =>
    rw [splitAtFirst, List.infix_cons_iff, ← List.isPrefixOf_iff_prefix]
    by_cases here : mark.isPrefixOf (c :: cs) = true
    · simp [here]
    · simp [here, ih]

/-- The text through the first occurrence of the mark. -/
theorem lengthThrough_eq_some_iff {mark : List Char} (marked : mark ≠ []) {cs : List Char}
    {n : Nat} :
    lengthThrough mark cs = some n ↔ ∃ before rest, before ++ mark ++ rest = cs ∧
      (before ++ mark).length = n ∧ ¬ mark <:+: before ++ mark.dropLast := by
  constructor
  · intro h
    obtain ⟨⟨before, rest⟩, found, length⟩ := Option.map_eq_some_iff.mp h
    obtain ⟨whole, ⟨tail, rfl⟩, first⟩ := (splitAtFirst_eq_some_iff marked).mp found
    exact ⟨before, tail, by rw [← whole, List.append_assoc], by simpa using length, first⟩
  · rintro ⟨before, rest, whole, rfl, first⟩
    have found : splitAtFirst mark cs = some (before, mark ++ rest) :=
      (splitAtFirst_eq_some_iff marked).mpr
        ⟨by rw [← whole, List.append_assoc], List.prefix_append _ _, first⟩
    rw [lengthThrough, found, List.length_append]
    rfl

/-- The first occurrence of the mark ends where the first part of the text ends just when that part
ends in the mark and does not hold it before. -/
theorem lengthThrough_append_eq_iff {mark : List Char} (marked : mark ≠ []) (cs ds : List Char) :
    lengthThrough mark (cs ++ ds) = some cs.length ↔ mark <:+ cs ∧ ¬ mark <:+: cs.dropLast := by
  rw [lengthThrough_eq_some_iff marked]
  constructor
  · rintro ⟨before, rest, whole, length, first⟩
    have same : before ++ mark = cs := (List.append_inj whole length).1
    rw [← same, List.dropLast_append_of_ne_nil marked]
    exact ⟨List.suffix_append _ _, first⟩
  · rintro ⟨⟨before, rfl⟩, first⟩
    rw [List.dropLast_append_of_ne_nil marked] at first
    exact ⟨before, ds, rfl, rfl, first⟩

/-- The first occurrence of the mark ends with the last character of the mark. -/
theorem getElem?_of_lengthThrough {mark : List Char} {c : Char} (last : mark.getLast? = some c)
    {cs : List Char} {n : Nat} (h : lengthThrough mark cs = some n) :
    0 < n ∧ cs[n - 1]? = some c := by
  have marked : mark ≠ [] := by
    rintro rfl
    cases last
  obtain ⟨before, rest, rfl, rfl, -⟩ := (lengthThrough_eq_some_iff marked).mp h
  have positive : 0 < (before ++ mark).length :=
    List.length_pos_of_ne_nil (List.append_ne_nil_of_right_ne_nil before marked)
  refine ⟨positive, ?_⟩
  rw [List.getElem?_append_left (by omega), ← List.getLast?_eq_getElem?, List.getLast?_append, last]
  rfl

/-- A text that ends in `>` is what is read through the first `>` if it holds no other. -/
theorem lengthThrough_close_iff (cs ds : List Char) :
    lengthThrough ['>'] (cs ++ ['>'] ++ ds) = some (cs ++ ['>']).length ↔ '>' ∉ cs := by
  rw [lengthThrough_append_eq_iff (by decide), List.dropLast_concat,
    and_iff_right (List.suffix_append _ _)]
  refine not_congr ⟨fun inside => inside.subset List.mem_cons_self, fun inside => ?_⟩
  obtain ⟨front, back, rfl⟩ := List.append_of_mem inside
  exact ⟨front, back, by simp⟩

/-- A text that ends in `>` is what is read through the first mark if its `>` follows a bracket and
it does not hold the mark before. -/
theorem lengthThrough_endMark_iff (cs ds : List Char) :
    lengthThrough endMark (cs ++ ['>'] ++ ds) = some (cs ++ ['>']).length ↔
      cs.getLast? = some ']' ∧ ¬ endMark <:+: cs := by
  rw [lengthThrough_append_eq_iff (by decide), List.dropLast_concat]
  refine and_congr_left' ?_
  constructor
  · rintro ⟨front, whole⟩
    have whole : front ++ [']'] ++ ['>'] = cs ++ ['>'] := by simpa [endMark] using whole
    have same : front ++ [']'] = cs := List.append_cancel_right whole
    simp [← same]
  · intro last
    obtain ⟨front, rfl⟩ := List.getLast?_eq_some_iff.mp last
    exact ⟨front, by simp [endMark]⟩

/-- One character at a time, when the mark is one character. -/
theorem lengthThrough_cons (mark c : Char) (cs : List Char) :
    lengthThrough [mark] (c :: cs) =
      if c = mark then some 1 else (lengthThrough [mark] cs).map (· + 1) := by
  by_cases same : c = mark
  · simp [lengthThrough, splitAtFirst, same]
  · have differs : (mark == c) = false := by simpa using fun e => same e.symm
    simp only [lengthThrough, splitAtFirst, List.isPrefixOf, differs, Bool.false_and, if_neg same,
      Bool.false_eq_true, if_false, Option.map_map]
    rfl

/-- A mark of one character that the text holds is found. -/
theorem isSome_lengthThrough_iff (mark : Char) (cs : List Char) :
    (lengthThrough [mark] cs).isSome = true ↔ mark ∈ cs := by
  induction cs with
  | nil => simp [lengthThrough, splitAtFirst]
  | cons c cs ih =>
    rw [lengthThrough_cons]
    by_cases same : c = mark
    · simp [same]
    · simp [same, ih, Ne.symm same]

/-- A declaration is taken for one with a subset when it holds a `[` before its first `>`. -/
theorem hasInternalSubset_iff (cs : List Char) :
    hasInternalSubset cs = true ↔ '>' ∈ cs ∧ '[' ∈ cs.takeWhile (· != '>') := by
  induction cs with
  | nil => simp [hasInternalSubset, lengthThrough, splitAtFirst]
  | cons c cs ih =>
    have found := isSome_lengthThrough_iff '>' cs
    unfold hasInternalSubset at ih ⊢
    rw [lengthThrough_cons, lengthThrough_cons]
    by_cases opens : c = '['
    · subst opens
      cases close : lengthThrough ['>'] cs with
      | none => simpa [close] using found
      | some n =>
        have positive : 0 < n := (getElem?_of_lengthThrough (c := '>') rfl close).1
        rw [close] at found
        simpa [positive] using found.mp rfl
    · by_cases closes : c = '>'
      · subst closes
        cases lengthThrough ['['] cs <;> simp
      · rw [if_neg opens, if_neg closes, List.takeWhile_cons_of_pos (by simpa using closes)]
        cases first : lengthThrough ['['] cs <;> cases last : lengthThrough ['>'] cs <;>
          simp only [first, last] at ih <;> simp [Ne.symm opens, Ne.symm closes, ← ih]

/-! ## What is overwritten -/

/-- A text with its first characters overwritten, character by character. -/
theorem getElem?_overwritten (cs : List Char) (n i : Nat) :
    ((cs.take n).map blanked ++ cs.drop n)[i]? =
      if i < n then (cs[i]?).map blanked else cs[i]? := by
  induction cs generalizing n i with
  | nil => simp
  | cons c cs ih =>
    cases n with
    | zero => simp
    | succ n =>
      cases i with
      | zero => simp
      | succ i => simpa using ih n i

/-- The `>` at which an overwritten stretch ends tells its length. -/
theorem overwritten_injective {cs : List Char} {n m : Nat} (hn : 0 < n ∧ cs[n - 1]? = some '>')
    (hm : 0 < m ∧ cs[m - 1]? = some '>')
    (same : (cs.take n).map blanked ++ cs.drop n = (cs.take m).map blanked ++ cs.drop m) :
    n = m := by
  have apart : ∀ i, (if i < n then (cs[i]?).map blanked else cs[i]?) =
      if i < m then (cs[i]?).map blanked else cs[i]? := by
    intro i
    rw [← getElem?_overwritten, ← getElem?_overwritten, same]
  have atFirst := apart (n - 1)
  have atSecond := apart (m - 1)
  rw [hn.2] at atFirst
  rw [hm.2] at atSecond
  rcases Nat.lt_trichotomy n m with less | equal | more
  · rw [if_neg (by omega), if_pos (by omega)] at atSecond
    exact absurd atSecond (by decide)
  · exact equal
  · rw [if_pos (by omega), if_neg (by omega)] at atFirst
    exact absurd atFirst (by decide)

/-- The length that is computed for a declaration, with the mark by its name. -/
theorem doctypeLength?_eq (cs : List Char) :
    doctypeLength? cs =
      if hasInternalSubset cs = true then lengthThrough endMark cs else lengthThrough ['>'] cs :=
  rfl

/-- The length that is computed for a declaration is that of a text with a `>` at its end. -/
theorem getElem?_of_doctypeLength {cs : List Char} {n : Nat} (h : doctypeLength? cs = some n) :
    0 < n ∧ cs[n - 1]? = some '>' := by
  unfold doctypeLength? at h
  split at h
  · exact getElem?_of_lengthThrough rfl h
  · exact getElem?_of_lengthThrough rfl h

/-- The opening of a declaration begins with the one `<` it holds, so that it does not begin in one
text and end in another that opens a declaration. -/
theorem doctypeOpening_absent_append {before : List Char} (absent : ¬ doctypeOpening <:+: before) :
    ¬ doctypeOpening <:+: before ++ doctypeOpening.dropLast := by
  intro inside
  obtain first | second | ⟨left, right, parted, ends, begins⟩ := List.infix_append_iff.mp inside
  · exact absent first
  · exact absurd second.length_le (by decide)
  · cases right with
    | nil =>
      rw [List.append_nil] at parted
      exact absent (parted ▸ ends.isInfix)
    | cons c right =>
      cases left with
      | nil =>
        rw [List.nil_append] at parted
        have short := begins.length_le
        rw [← parted] at short
        exact absurd short (by decide)
      | cons c' left =>
        have again : c = '<' := by
          obtain ⟨tail, whole⟩ := begins
          exact (List.cons.inj whole).1
        have inner : '<' ∈ doctypeOpening.tail := by
          rw [parted, again]
          simp
        exact absurd inner (by decide)

/-- A mark stands behind all leading characters that it does not hold. -/
theorem infix_of_foreign {mark cs ds : List Char} (foreign : ∀ c ∈ cs, c ∉ mark)
    (inside : mark <:+: cs ++ ds) : mark <:+: ds := by
  induction cs with
  | nil => exact inside
  | cons c cs ih =>
    rw [List.cons_append, List.infix_cons_iff] at inside
    rcases inside with opens | later
    · cases mark with
      | nil => exact List.nil_infix
      | cons c' mark =>
        obtain ⟨tail, whole⟩ := opens
        have same : c' = c := (List.cons.inj whole).1
        exact absurd (same ▸ List.mem_cons_self) (foreign c List.mem_cons_self)
    · exact ih (fun d hd => foreign d (List.mem_cons_of_mem c hd)) later

/-- Characters that a mark does not hold part the texts before and behind them. -/
theorem infix_or_of_foreign {mark cs before after : List Char} (some : cs ≠ [])
    (foreign : ∀ c ∈ cs, c ∉ mark) (inside : mark <:+: before ++ cs ++ after) :
    mark <:+: before ∨ mark <:+: after := by
  rw [List.append_assoc] at inside
  obtain first | second | ⟨left, right, parted, ends, begins⟩ := List.infix_append_iff.mp inside
  · exact .inl first
  · exact .inr (infix_of_foreign foreign second)
  · cases right with
    | nil =>
      rw [List.append_nil] at parted
      exact .inl (parted ▸ ends.isInfix)
    | cons c right =>
      cases cs with
      | nil => exact absurd rfl some
      | cons c' cs =>
        obtain ⟨tail, whole⟩ := begins
        have same : c = c' := (List.cons.inj whole).1
        refine absurd ?_ (foreign c' List.mem_cons_self)
        rw [parted, same]
        simp

/-- A text in which no declaration opens stands as it is. -/
theorem blankDoctype_of_absent {cs : List Char} (absent : ¬ doctypeOpening <:+: cs) :
    blankDoctype cs = cs := by
  rw [blankDoctype, (splitAtFirst_eq_none_iff (by decide)).mpr absent]

/-! ## Declarations -/

/-- What is read as the end of a declaration is its end. Without a subset the system identifier
holds no `[` and no `>`. With one, the system identifier holds no `>` before its first `[` and not
the mark `]>`, no literal, comment or instruction of the subset holds that mark, and no blank stands
behind the bracket that closes the subset. -/
def DocumentType.EndsAtMark (d : DocumentType) : Prop :=
  match d.subset? with
  | none => '[' ∉ d.system ∧ '>' ∉ d.system
  | some s =>
    '>' ∉ d.system.takeWhile (· != '[') ∧ ¬ endMark <:+: d.system ∧
      (∀ e ∈ s.enclosures, ¬ endMark <:+: e) ∧ s.after.chars = []

/-- A class of characters tells which characters are not among them. -/
theorem not_mem_of_all {p : Char → Bool} {cs : List Char} (h : cs.all p = true) {c : Char}
    (hc : p c = false) : c ∉ cs := by
  intro inside
  simp [List.all_eq_true.mp h c inside] at hc

/-- A `[` stands before the first `>` just when no `>` stands before the first `[`. -/
theorem bracket_mem_takeWhile (cs ds : List Char) :
    '[' ∈ (cs ++ '[' :: ds).takeWhile (· != '>') ↔ '>' ∉ cs.takeWhile (· != '[') := by
  induction cs with
  | nil => simp
  | cons c cs ih =>
    by_cases opens : c = '['
    · simp [opens]
    · by_cases closes : c = '>'
      · simp [closes]
      · simp only [List.cons_append, List.takeWhile_cons, bne_iff_ne, ne_eq, closes, opens,
          not_false_eq_true, if_true, List.mem_cons, Ne.symm opens, Ne.symm closes, false_or]
        exact ih

/-- Characters other than the marks of a declaration. -/
def Markless (cs : List Char) : Prop := '[' ∉ cs ∧ ']' ∉ cs ∧ '>' ∉ cs

/-- No mark comes about where two texts without marks meet. -/
theorem Markless.append {cs ds : List Char} (hc : Markless cs) (hd : Markless ds) :
    Markless (cs ++ ds) := by
  obtain ⟨opening, closing, ending⟩ := hc
  obtain ⟨opening', closing', ending'⟩ := hd
  simp only [Markless, List.mem_append, not_or]
  exact ⟨⟨opening, opening'⟩, ⟨closing, closing'⟩, ending, ending'⟩

/-- A class of characters that leaves out the marks gives texts without marks. -/
theorem Markless.of_all {p : Char → Bool} {cs : List Char} (h : cs.all p = true)
    (opening : p '[' = false) (closing : p ']' = false) (ending : p '>' = false) : Markless cs :=
  ⟨not_mem_of_all h opening, not_mem_of_all h closing, not_mem_of_all h ending⟩

/-- Spaces have no marks. -/
theorem Grammar.Spaces.markless (s : Spaces) : Markless s.chars :=
  .of_all s.blank (by decide) (by decide) (by decide)

/-- Gaps have no marks. -/
theorem Grammar.Gap.markless (g : Gap) : Markless g.chars :=
  .of_all g.blank (by decide) (by decide) (by decide)

/-- Names have no marks. -/
theorem Grammar.Name.markless (n : Name) : Markless n.chars :=
  .of_all n.named (by decide) (by decide) (by decide)

/-- A quote is no mark. -/
theorem markless_quote (q : Quote) : Markless [q.char] := by
  cases q <;> exact ⟨by decide, by decide, by decide⟩

/-- Public literals have no marks, since none of them is a public character. -/
theorem Grammar.PublicLiteral.markless (q : PublicLiteral) : Markless q.chars := by
  have text : Markless q.text := by
    refine .of_all (p := fun c => isPublic c && c != q.quote.char) q.fit ?_ ?_ ?_
    · simp [show isPublic '[' = false by decide]
    · simp [show isPublic ']' = false by decide]
    · simp [show isPublic '>' = false by decide]
  exact ((markless_quote q.quote).append text).append (markless_quote q.quote)

/-- An external identifier has no mark before its system literal. -/
theorem Grammar.ExternalId.markless_lead (e : ExternalId) : Markless e.lead := by
  unfold ExternalId.lead
  split
  · exact Markless.append ⟨by decide, by decide, by decide⟩ e.gap.markless
  · next gap id _ =>
    exact ((Markless.append ⟨by decide, by decide, by decide⟩ gap.markless).append
      (PublicLiteral.markless id)).append e.gap.markless

namespace DocumentType

variable (d : DocumentType)

/-- All marks of a head stand in the system identifier, which is quoted. -/
theorem head_eq : ∃ lead tail, d.head = lead ++ d.system ++ tail ∧ Markless lead ∧ Markless tail ∧
    (tail = [] → d.system = []) := by
  have opening : Markless (doctypeOpening ++ d.beforeName.chars ++ d.name.chars) :=
    (Markless.append ⟨by decide, by decide, by decide⟩ d.beforeName.markless).append
      d.name.markless
  unfold head system
  cases d.external? with
  | none =>
    exact ⟨_, d.afterHead.chars, by simp, opening, d.afterHead.markless, fun _ => rfl⟩
  | some named =>
    obtain ⟨gap, id⟩ := named
    refine ⟨doctypeOpening ++ d.beforeName.chars ++ d.name.chars ++ gap.chars ++ id.lead ++
      [id.system.quote.char], id.system.quote.char :: d.afterHead.chars, ?_, ?_, ?_, ?_⟩
    · simp [ExternalId.chars, Quotation.chars]
    · exact ((opening.append gap.markless).append id.markless_lead).append (markless_quote _)
    · exact (markless_quote _).append d.afterHead.markless
    · intro h
      cases h

/-- The head of a declaration has a closing angle bracket only in its system literal. -/
theorem close_mem_head : '>' ∈ d.head ↔ '>' ∈ d.system := by
  obtain ⟨lead, tail, whole, before, behind, -⟩ := d.head_eq
  simp [whole, before.2.2, behind.2.2]

/-- The head of a declaration has an opening bracket only in its system literal. -/
theorem open_mem_head : '[' ∈ d.head ↔ '[' ∈ d.system := by
  obtain ⟨lead, tail, whole, before, behind, -⟩ := d.head_eq
  simp [whole, before.1, behind.1]

/-- The head has a closing angle bracket before any opening bracket only if its system literal has.
-/
theorem close_mem_takeWhile_head :
    '>' ∈ d.head.takeWhile (· != '[') ↔ '>' ∈ d.system.takeWhile (· != '[') := by
  obtain ⟨lead, tail, whole, before, behind, -⟩ := d.head_eq
  have leading : ∀ c ∈ lead, (c != '[') = true := by
    intro c hc
    rw [bne_iff_ne]
    rintro rfl
    exact before.1 hc
  have inTail : '>' ∉ tail.takeWhile (· != '[') :=
    fun inside => behind.2.2 ((List.takeWhile_sublist _).subset inside)
  rw [whole, List.append_assoc, List.takeWhile_append_of_pos leading, List.mem_append,
    or_iff_right before.2.2, List.takeWhile_append]
  split
  · next all =>
    have same : d.system.takeWhile (· != '[') = d.system :=
      (List.takeWhile_sublist _).eq_of_length all
    rw [List.mem_append, or_iff_left inTail, same]
  · rfl

/-- The mark that ends a declaration stands in the head only if it stands in the system literal. -/
theorem endMark_infix_head : endMark <:+: d.head ↔ endMark <:+: d.system := by
  obtain ⟨lead, tail, whole, before, behind, -⟩ := d.head_eq
  constructor
  · intro inside
    rw [whole, List.append_assoc] at inside
    obtain inLead | inRest :=
      (endMark_infix_append (getLast?_ne_bracket before.2.1) _).mp inside
    · exact absurd inLead (endMark_absent before.2.1)
    · by_cases nothing : tail = []
      · simpa [nothing] using inRest
      · have foreign : ∀ c ∈ tail, c ∉ endMark := by
          intro c hc
          simp only [endMark, List.mem_cons, List.not_mem_nil, or_false, not_or]
          constructor
          · rintro rfl
            exact behind.2.1 hc
          · rintro rfl
            exact behind.2.2 hc
        rw [← List.append_nil (d.system ++ tail)] at inRest
        exact (infix_or_of_foreign nothing foreign inRest).resolve_right (by decide)
  · intro inside
    rw [whole]
    exact inside.trans ⟨lead, tail, rfl⟩

/-- The head of a declaration does not end with a closing bracket. -/
theorem getLast?_head : d.head.getLast? ≠ some ']' := by
  obtain ⟨lead, tail, whole, before, behind, quoted⟩ := d.head_eq
  by_cases nothing : tail = []
  · rw [whole, nothing, quoted nothing, List.append_nil, List.append_nil]
    exact getLast?_ne_bracket before.2.1
  · intro last
    rw [whole, List.getLast?_append_of_ne_nil _ nothing] at last
    exact behind.2.1 (List.mem_of_getLast? last)

/-- Whether a `[` stands before the first `>`, if there is no subset. -/
theorem hasInternalSubset_of_none (none : d.subset? = none) (after : List Char) :
    hasInternalSubset (d.chars ++ after) = true ↔ '[' ∈ d.head.takeWhile (· != '>') := by
  have whole : d.chars ++ after = d.head ++ '>' :: after := by simp [chars, body, none]
  rw [whole, hasInternalSubset_iff, and_iff_right (by simp), List.takeWhile_append]
  split
  · next all => simp [(List.takeWhile_sublist _).eq_of_length all]
  · rfl

/-- Whether a `[` stands before the first `>`, if there is a subset. -/
theorem hasInternalSubset_of_some {s : Subset} (some : d.subset? = some s) (after : List Char) :
    hasInternalSubset (d.chars ++ after) = true ↔ '>' ∉ d.system.takeWhile (· != '[') := by
  have whole : d.chars ++ after =
      d.head ++ '[' :: (s.text ++ ']' :: s.after.chars ++ ['>'] ++ after) := by
    simp [chars, body, some]
  rw [whole, hasInternalSubset_iff, and_iff_right (by simp), bracket_mem_takeWhile,
    close_mem_takeWhile_head]

/-- The length that is computed for a declaration without a subset. -/
theorem doctypeLength?_of_none (none : d.subset? = none) (after : List Char) :
    doctypeLength? (d.chars ++ after) = some d.chars.length ↔ '[' ∉ d.system ∧ '>' ∉ d.system := by
  have whole : d.chars = d.head ++ ['>'] := by simp [chars, body, none]
  have opened := d.hasInternalSubset_of_none none after
  rw [← open_mem_head, ← close_mem_head, doctypeLength?_eq]
  by_cases taken : hasInternalSubset (d.chars ++ after) = true
  · have bracket : '[' ∈ d.head := (List.takeWhile_sublist _).subset (opened.mp taken)
    rw [if_pos taken, whole, lengthThrough_endMark_iff]
    exact iff_of_false (fun h => d.getLast?_head h.1) (fun h => h.1 bracket)
  · rw [if_neg taken, whole, lengthThrough_close_iff]
    constructor
    · intro closed
      have all : d.head.takeWhile (· != '>') = d.head := by
        refine List.takeWhile_eq_self_iff.mpr fun c hc => ?_
        rw [bne_iff_ne]
        rintro rfl
        exact closed hc
      rw [all] at opened
      exact ⟨fun inside => taken (opened.mpr inside), closed⟩
    · exact And.right

/-- What is before the last `>`, if there is a subset with no blank behind it, holds the mark just
when the system identifier does or something enclosed in the subset. -/
theorem endMark_infix_body (s : Subset) :
    endMark <:+: d.head ++ '[' :: s.text ++ [']'] ↔
      endMark <:+: d.system ∨ ∃ e ∈ s.enclosures, endMark <:+: e := by
  have opening : ['['].getLast? ≠ some ']' := by decide
  have notOpening : ¬ endMark <:+: ['['] := by decide
  have notLast : ¬ endMark <:+ d.head ++ '[' :: s.text ++ [']'] := by
    rw [List.suffix_concat_iff]
    rintro (nothing | ⟨front, whole, -⟩)
    · cases nothing
    · have whole : [']'] ++ ['>'] = front ++ [']'] := whole
      exact absurd (List.append_inj_right' whole rfl) (by decide)
  rw [List.infix_concat_iff, or_iff_right notLast, endMark_infix_append d.getLast?_head,
    ← List.singleton_append, endMark_infix_append opening, or_iff_right notOpening,
    endMark_infix_head, s.endMark_infix_iff]

/-- The length that is computed for a declaration with a subset. -/
theorem doctypeLength?_of_some {s : Subset} (some : d.subset? = some s) (after : List Char) :
    doctypeLength? (d.chars ++ after) = .some d.chars.length ↔
      '>' ∉ d.system.takeWhile (· != '[') ∧ ¬ endMark <:+: d.system ∧
        (∀ e ∈ s.enclosures, ¬ endMark <:+: e) ∧ s.after.chars = [] := by
  have whole : d.chars = d.head ++ '[' :: s.text ++ ']' :: s.after.chars ++ ['>'] := by
    simp [chars, body, some]
  rw [doctypeLength?_eq]
  by_cases taken : hasInternalSubset (d.chars ++ after) = true
  · rw [if_pos taken, and_iff_right ((d.hasInternalSubset_of_some some after).mp taken), whole,
      lengthThrough_endMark_iff]
    by_cases tight : s.after.chars = []
    · rw [tight, List.getLast?_concat, and_iff_right rfl, endMark_infix_body]
      simp
    · have loose : (d.head ++ '[' :: s.text ++ ']' :: s.after.chars).getLast? ≠ .some ']' := by
        rw [List.append_cons, List.getLast?_append_of_ne_nil _ tight]
        exact getLast?_ne_bracket s.after.markless.2.1
      exact iff_of_false (fun h => loose h.1) (fun h => tight h.2.2)
  · have early : '>' ∈ d.system.takeWhile (· != '[') :=
      not_not.mp fun h => taken ((d.hasInternalSubset_of_some some after).mpr h)
    have inside : '>' ∈ d.head ++ '[' :: s.text ++ ']' :: s.after.chars := by
      have inHead := d.close_mem_head.mpr ((List.takeWhile_sublist _).subset early)
      simp [inHead]
    rw [if_neg taken, whole, lengthThrough_close_iff]
    exact iff_of_false (fun h => h inside) (fun h => h.1 early)

/-- The length that is computed for a declaration is its length just when it ends at its mark. -/
theorem doctypeLength?_eq_iff (after : List Char) :
    doctypeLength? (d.chars ++ after) = some d.chars.length ↔ d.EndsAtMark := by
  unfold EndsAtMark
  cases h : d.subset? with
  | none => exact d.doctypeLength?_of_none h after
  | some s => exact d.doctypeLength?_of_some h after

/-- A declaration begins with the text that is looked for, whatever follows on it. -/
theorem opens_chars_append (after : List Char) : doctypeOpening <+: d.chars ++ after := by
  simp only [chars, head, List.append_assoc]
  exact List.prefix_append _ _

/-- A declaration is overwritten and nothing else just when its length is the one computed. -/
theorem blankDoctype_eq_iff {before : List Char} (absent : ¬ doctypeOpening <:+: before)
    (after : List Char) :
    blankDoctype (before ++ d.chars ++ after) = before ++ d.chars.map blanked ++ after ↔
      doctypeLength? (d.chars ++ after) = some d.chars.length := by
  have cut : splitAtFirst doctypeOpening (before ++ d.chars ++ after) =
      some (before, d.chars ++ after) := by
    rw [List.append_assoc]
    exact (splitAtFirst_eq_some_iff (by decide)).mpr
      ⟨rfl, d.opens_chars_append after, doctypeOpening_absent_append absent⟩
  have overwritten : d.chars.map blanked ++ after =
      ((d.chars ++ after).take d.chars.length).map blanked ++
        (d.chars ++ after).drop d.chars.length := by
    rw [List.take_left, List.drop_left]
  have ends : 0 < d.chars.length ∧ (d.chars ++ after)[d.chars.length - 1]? = some '>' := by
    constructor
    · simp only [chars, List.length_append, List.length_singleton]
      omega
    · simp [chars]
  simp only [blankDoctype, cut]
  rw [List.append_assoc before (d.chars.map blanked), overwritten]
  cases computed : doctypeLength? (d.chars ++ after) with
  | none =>
    simp only [List.append_assoc, List.append_cancel_left_eq]
    refine iff_of_false (fun same => ?_) (fun h => by cases h)
    have last := congrArg (·[d.chars.length - 1]?) same
    simp only [getElem?_overwritten] at last
    rw [ends.2, if_pos (by omega)] at last
    exact absurd last (by decide)
  | some n =>
    simp only [List.append_assoc, List.append_cancel_left_eq, Option.some.injEq]
    constructor
    · exact overwritten_injective (getElem?_of_doctypeLength computed) ends
    · rintro rfl
      rfl

/-- Of a declaration behind a text that opens none, exactly the characters of the declaration are
overwritten if and only if what is read as its end is its end. Then, if no other declaration opens
in the document, it is read as the one that has blanks for the declaration: the same elements on the
same lines. -/
theorem blanked_iff {before : List Char} (absent : ¬ doctypeOpening <:+: before)
    (after : List Char) :
    (blankDoctype (before ++ d.chars ++ after) = before ++ d.chars.map blanked ++ after ↔
      d.EndsAtMark) ∧
    (d.EndsAtMark → ¬ doctypeOpening <:+: after →
      Element.ofChars? (before ++ d.chars ++ after) =
        Element.ofChars? (before ++ d.chars.map blanked ++ after)) := by
  have exactly : blankDoctype (before ++ d.chars ++ after) =
      before ++ d.chars.map blanked ++ after ↔ d.EndsAtMark :=
    (d.blankDoctype_eq_iff absent after).trans (d.doctypeLength?_eq_iff after)
  refine ⟨exactly, fun ends single => ?_⟩
  have blanks : ∀ c ∈ d.chars.map blanked, c ∉ doctypeOpening := by
    intro c hc
    obtain ⟨old, -, rfl⟩ := List.mem_map.mp hc
    unfold blanked
    split
    · decide
    · decide
  have some : d.chars.map blanked ≠ [] := by simp [chars]
  have none : ¬ doctypeOpening <:+: before ++ d.chars.map blanked ++ after := fun inside =>
    (infix_or_of_foreign some blanks inside).elim absent single
  unfold Element.ofChars?
  rw [exactly.mpr ends, blankDoctype_of_absent none]

end DocumentType

/-- The declaration of an element `a` and of one entity, with the blanks behind its subset. -/
def oneEntity (after : Spaces) : DocumentType where
  beforeName := ⟨[' '], by decide, by decide⟩
  name := ⟨['a'], by decide, by decide⟩
  external? := none
  afterHead := ⟨[' '], by decide⟩
  subset? := some
    { declarations :=
        [.blank ⟨['\n'], by decide, by decide⟩,
          .entity ⟨[' '], by decide, by decide⟩ ⟨['x'], by decide, by decide⟩
            ⟨[' '], by decide, by decide⟩ (.value ⟨.double, [.char 'y'], by decide⟩) ⟨[], rfl⟩,
          .blank ⟨['\n'], by decide, by decide⟩]
      after }

/-- Without blanks behind the subset, the declaration of `oneEntity` is overwritten as a whole. -/
theorem DocumentType.blanked_oneEntity :
    ¬ doctypeOpening <:+: "<?xml version=\"1.0\"?>\n".toList ∧ (oneEntity ⟨[], rfl⟩).EndsAtMark ∧
    blankDoctype
      ("<?xml version=\"1.0\"?>\n".toList ++ (oneEntity ⟨[], rfl⟩).chars ++ "\n<a/>".toList) =
      "<?xml version=\"1.0\"?>\n".toList ++ (oneEntity ⟨[], rfl⟩).chars.map blanked ++
        "\n<a/>".toList := by
  have absent : ¬ doctypeOpening <:+: "<?xml version=\"1.0\"?>\n".toList :=
    (splitAtFirst_eq_none_iff (by decide)).mp (by decide)
  have ends : (oneEntity ⟨[], rfl⟩).EndsAtMark := ⟨by decide, by decide, by decide, rfl⟩
  exact ⟨absent, ends, ((oneEntity ⟨[], rfl⟩).blanked_iff absent "\n<a/>".toList).1.mpr ends⟩

/-- A blank behind the subset: nothing is overwritten, and the document is refused. -/
theorem DocumentType.unblanked_oneEntity :
    (oneEntity ⟨[' '], by decide⟩).chars = "<!DOCTYPE a [\n<!ENTITY x \"y\">\n] >".toList ∧
    blankDoctype ((oneEntity ⟨[' '], by decide⟩).chars ++ "\n<a/>".toList) ≠
      (oneEntity ⟨[' '], by decide⟩).chars.map blanked ++ "\n<a/>".toList ∧
    (Element.ofChars? ((oneEntity ⟨[' '], by decide⟩).chars ++ "\n<a/>".toList)).isSome = false ∧
    (Element.ofChars?
      ((oneEntity ⟨[' '], by decide⟩).chars.map blanked ++ "\n<a/>".toList)).isSome = true := by
  refine ⟨by decide, by decide, by decide, by decide⟩

end Partwise.Markup
