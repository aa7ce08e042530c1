import Mathlib.Tactic.IntervalCases
import Partwise.Proofs.Writing.Numerals

/-!
# Writing · Tokens: a value that is written is cut into its tokens

A word ends only with the character behind it, so the state after a text is not fixed by the text
alone: `Lexer.Cuts` says that the word that is still being read would complete the tokens. Marks end
words, which is why texts that are cut may be put together with marks between them
(`Lexer.Cuts.mark`), and that is all that `Json.render` does.

* `Lexer.cuts_word`, `Lexer.cuts_string`: words and strings are one token;
* `Json.cuts_render`: the text of a legible value is cut into its tokens.
-/

namespace Partwise.Json

open Text

/-! ## Words -/

/-- A digit may stand in a word. -/
theorem isWordChar_of_isDigit {c : Char} (hc : c.isDigit = true) : isWordChar c = true := by
  simp [isWordChar, Char.isAlphanum, hc]

/-- All that stands in a numeral may stand in a word. -/
theorem isWordChar_of_isNumeral {cs : List Char} (h : isNumeral cs = true) :
    ∀ c ∈ cs, isWordChar c = true :=
  fun c hc => isWordChar_of_isDigit (List.all_eq_true.mp (Bool.and_eq_true_iff.mp h).2 c hc)

/-- All that stands in a fraction may stand in a word. -/
theorem isWordChar_of_isFraction {cs : List Char} (h : isFraction cs = true) :
    ∀ c ∈ cs, isWordChar c = true := by
  unfold isFraction at h
  split at h
  · exact fun c hc => nomatch hc
  · exact List.forall_mem_cons.mpr ⟨by decide, isWordChar_of_isNumeral h⟩
  · exact nomatch h

/-- All that stands in an exponent may stand in a word, if what marks it may. -/
theorem isWordChar_of_isExponent {cs : List Char} (h : isExponent cs = true)
    (hmark : ∀ c ∈ cs.head?, isWordChar c = true) : ∀ c ∈ cs, isWordChar c = true := by
  unfold isExponent at h
  split at h
  · exact fun c hc => nomatch hc
  · refine List.forall_mem_cons.mpr ⟨hmark _ rfl, List.forall_mem_cons.mpr ⟨by decide, ?_⟩⟩
    exact isWordChar_of_isNumeral h
  · refine List.forall_mem_cons.mpr ⟨hmark _ rfl, List.forall_mem_cons.mpr ⟨by decide, ?_⟩⟩
    exact isWordChar_of_isNumeral h
  · exact List.forall_mem_cons.mpr ⟨hmark _ rfl, isWordChar_of_isNumeral h⟩

/-- A word that writes a number has only characters of words. -/
theorem isWordChar_of_number {word : List Char} {j : Json} (h : numberOfWord? word = some j) :
    ∀ c ∈ word, isWordChar c = true := by
  unfold numberOfWord? at h
  dsimp only at h
  set body := if word.head? == some '-' then word.drop 1 else word with hbody
  set tail := body.dropWhile Char.isDigit
  set mark := fun c : Char => !(c == 'e' || c == 'E')
  split at h
  · next hall =>
    rw [Bool.and_eq_true, Bool.and_eq_true] at hall
    obtain ⟨⟨hwhole, hfraction⟩, hexponent⟩ := hall
    have hmark : ∀ c ∈ (tail.dropWhile mark).head?, isWordChar c = true := by
      intro c hc
      have hstops := List.head?_dropWhile_not mark tail
      rw [hc] at hstops
      have hraised : c = 'e' ∨ c = 'E' := by simpa [mark, or_iff_not_imp_left] using hstops
      rcases hraised with rfl | rfl <;> decide
    have hparts : ∀ c ∈ body, isWordChar c = true := by
      intro c hc
      rw [← List.takeWhile_append_dropWhile (l := body) (p := Char.isDigit), List.mem_append] at hc
      rcases hc with hdigit | htail
      · exact isWordChar_of_isDigit (List.mem_takeWhile_imp hdigit)
      rw [← List.takeWhile_append_dropWhile (l := body.dropWhile _) (p := mark),
        List.mem_append] at htail
      rcases htail with hpoint | hraised
      · exact isWordChar_of_isFraction hfraction c hpoint
      · exact isWordChar_of_isExponent hexponent hmark c hraised
    intro c hc
    rw [hbody] at hparts
    split at hparts
    · next hminus =>
      obtain ⟨rest, hrest⟩ := List.head?_eq_some_iff.mp (beq_iff_eq.mp hminus)
      rw [hrest] at hparts hc
      exact (List.mem_cons.mp hc).elim (fun hfirst => hfirst ▸ by decide) (hparts c)
    · exact hparts c hc
  · exact nomatch h

/-- A word that writes a number is none of the other words. -/
theorem valueOfWord?_of_number {word : List Char} {j : Json} (h : numberOfWord? word = some j) :
    valueOfWord? word = some j := by
  have hother : ∀ w : String, numberOfWord? w.toList = none → String.ofList word ≠ w := by
    rintro w hw rfl
    rw [String.toList_ofList, h] at hw
    exact nomatch hw
  unfold valueOfWord?
  split
  · next hw => exact absurd hw (hother _ (by decide))
  · next hw => exact absurd hw (hother _ (by decide))
  · next hw => exact absurd hw (hother _ (by decide))
  · exact h

/-! ## Cutting -/

namespace Lexer

variable {c : Char} {cs ds : List Char} {new rest ts : List Token}

/-- A text is cut into tokens once the word at its end is complete. -/
def Cuts (cs : List Char) (new : List Token) : Prop :=
  ∀ ts, ∃ s, cs.foldlM step? ⟨.between, ts⟩ = some s ∧
    s.endWord? = some ⟨.between, new.reverse ++ ts⟩

/-- No characters are cut into no tokens. -/
theorem cuts_nil : Cuts [] [] := fun ts => ⟨⟨.between, ts⟩, rfl, rfl⟩

/-- A character that ends words is read as if no word were before it. -/
theorem step?_of_endWord? {s : Lexer} (hs : s.endWord? = some ⟨.between, ts⟩)
    (hc : isWordChar c = false) : s.step? c = stepBetween? ⟨.between, ts⟩ c := by
  obtain ⟨mode, tokens⟩ := s
  cases mode with
  | word held => simp [step?, hc, hs]
  | between =>
    cases hs
    rfl
  | _ => exact nomatch hs

/-- Brackets, braces, colons and commas. -/
def isMark (c : Char) : Bool := "[]\x7b\x7d:,".toList.contains c

/-- A mark is a bracket, a brace, a colon or a comma. -/
theorem eq_of_isMark (hc : isMark c = true) :
    c = '[' ∨ c = ']' ∨ c = '\x7b' ∨ c = '\x7d' ∨ c = ':' ∨ c = ',' := by
  simpa [isMark] using hc

/-- Between tokens a mark is cut off at once. -/
theorem stepBetween?_mark (hc : isMark c = true) :
    stepBetween? ⟨.between, ts⟩ c = some ⟨.between, .mark c :: ts⟩ := by
  rcases eq_of_isMark hc with rfl | rfl | rfl | rfl | rfl | rfl <;> rfl

/-- A mark ends a word. -/
theorem isWordChar_of_isMark (hc : isMark c = true) : isWordChar c = false := by
  rcases eq_of_isMark hc with rfl | rfl | rfl | rfl | rfl | rfl <;> rfl

/-- Texts that are cut are put together with a mark between them. -/
theorem Cuts.mark (hcs : Cuts cs new) (hc : isMark c = true) (hds : Cuts ds rest) :
    Cuts (cs ++ c :: ds) (new ++ .mark c :: rest) := by
  intro ts
  obtain ⟨s, hread, hend⟩ := hcs ts
  obtain ⟨s', hread', hend'⟩ := hds (.mark c :: (new.reverse ++ ts))
  refine ⟨s', ?_, ?_⟩
  · rw [List.foldlM_append, hread]
    show (s.step? c).bind _ = _
    rw [step?_of_endWord? hend (isWordChar_of_isMark hc), stepBetween?_mark hc]
    exact hread'
  · rw [hend']
    simp

/-- The rest of a word. -/
theorem foldlM_word (hword : ∀ c ∈ cs, isWordChar c = true) (held : List Char) :
    cs.foldlM step? ⟨.word held, ts⟩ = some ⟨.word (cs.reverse ++ held), ts⟩ := by
  induction cs generalizing held with
  | nil => rfl
  | cons c cs ih =>
    obtain ⟨hc, hcs⟩ := List.forall_mem_cons.mp hword
    have hstep : step? ⟨.word held, ts⟩ c = some ⟨.word (c :: held), ts⟩ := if_pos hc
    rw [List.foldlM_cons, hstep, List.reverse_cons, List.append_assoc, List.singleton_append]
    exact ih hcs (c :: held)

/-- A word is one token. -/
theorem cuts_word {j : Json} (hcs : cs ≠ []) (hword : ∀ c ∈ cs, isWordChar c = true)
    (hvalue : valueOfWord? cs = some j) : Cuts cs [.value j] := by
  intro ts
  obtain ⟨c, cs, rfl⟩ := List.exists_cons_of_ne_nil hcs
  obtain ⟨hc, hrest⟩ := List.forall_mem_cons.mp hword
  have hstart : step? ⟨.between, ts⟩ c = some ⟨.word [c], ts⟩ := by
    have hgap : isGap c = false := by
      rw [Bool.eq_false_iff]
      intro hblank
      have hall : ((c = ' ' ∨ c = '\t') ∨ c = '\n') ∨ c = '\r' := by simpa [isGap] using hblank
      rcases hall with ((rfl | rfl) | rfl) | rfl <;> exact absurd hc (by decide)
    have hquote : c ≠ '"' := by
      rintro rfl
      exact absurd hc (by decide)
    simp [step?, stepBetween?, hgap, hquote, hc]
  refine ⟨⟨.word (cs.reverse ++ [c]), ts⟩, ?_, ?_⟩
  · rw [List.foldlM_cons, hstart]
    exact foldlM_word hrest [c]
  · simp [endWord?, hvalue]

/-- A number is one token. -/
theorem cuts_number {j : Json} (h : numberOfWord? cs = some j) : Cuts cs [.value j] := by
  refine cuts_word ?_ (isWordChar_of_number h) (valueOfWord?_of_number h)
  rintro rfl
  exact nomatch h

/-! ## Strings -/

/-- A character is read from the way it is written in a string. -/
theorem foldlM_escaped (c : Char) (held : List Nat) :
    (escaped c).toList.foldlM step? ⟨.string held, ts⟩ =
      some ⟨.string (c.toNat :: held), ts⟩ := by
  by_cases hcontrol : c.toNat < 0x20
  · obtain ⟨n, hn⟩ : ∃ n, c.toNat = n := ⟨_, rfl⟩
    obtain rfl : c = Char.ofNat n := by rw [← hn, Char.ofNat_toNat]
    rw [hn] at hcontrol
    interval_cases n <;> rfl
  · by_cases hquote : c = '"'
    · rw [hquote]
      rfl
    by_cases hback : c = '\\'
    · rw [hback]
      rfl
    have hplain : escaped c = c.toString := by
      unfold escaped
      split <;> first
        | contradiction
        | exact absurd (by decide) hcontrol
        | rw [if_neg (by omega), if_neg hcontrol]
    have hstep : step? ⟨.string held, ts⟩ c = some ⟨.string (c.toNat :: held), ts⟩ := by
      simp [step?, hquote, hback, hcontrol]
    rw [hplain, show c.toString.toList = [c] from String.toList_singleton c, List.foldlM_cons, hstep]
    rfl

/-- Characters are read from the way they are written in a string. -/
theorem foldlM_escaped_all (cs : List Char) (held : List Nat) :
    (cs.flatMap fun c => (escaped c).toList).foldlM step? ⟨.string held, ts⟩ =
      some ⟨.string ((cs.map Char.toNat).reverse ++ held), ts⟩ := by
  induction cs generalizing held with
  | nil => rfl
  | cons c cs ih =>
    rw [List.flatMap_cons, List.foldlM_append, foldlM_escaped, List.map_cons, List.reverse_cons,
      List.append_assoc, List.singleton_append]
    exact ih (c.toNat :: held)

/-- A text is the one that the code points of its characters write. -/
theorem textOfUnits?_toNat (cs : List Char) : textOfUnits? (cs.map Char.toNat) = some cs := by
  have hvalid : ∀ c : Char, c.toNat.isValidChar := fun c => c.valid
  induction cs with
  | nil => rfl
  | cons high cs ih =>
    cases cs with
    | nil => simp [textOfUnits?, hvalid]
    | cons low cs =>
      have hwhole : ¬(0xD800 ≤ high.toNat ∧ high.toNat < 0xDC00 ∧ 0xDC00 ≤ low.toNat ∧
          low.toNat < 0xE000) := by
        have hhigh := hvalid high
        rw [Nat.isValidChar] at hhigh
        omega
      rw [List.map_cons, List.map_cons, textOfUnits?, if_neg hwhole, if_pos (hvalid high)]
      rw [List.map_cons] at ih
      rw [ih, Option.map_some, Char.ofNat_toNat]

/-- A string is one token. -/
theorem cuts_string (s : String) : Cuts (renderString s).toList [.string (some s)] := by
  intro ts
  have htext : (renderString s).toList =
      '"' :: ((s.toList.flatMap fun c => (escaped c).toList) ++ ['"']) := by
    rw [renderString, String.toList_append, String.toList_append, String.toList_join,
      List.flatMap_map]
    rfl
  refine ⟨⟨.between, .string (some s) :: ts⟩, ?_, rfl⟩
  rw [htext, List.foldlM_cons]
  show (List.foldlM step? (⟨.string [], ts⟩ : Lexer) _) = _
  rw [List.foldlM_append, foldlM_escaped_all, List.append_nil]
  show some (⟨.between, .string ((textOfUnits? _).map String.ofList) :: ts⟩ : Lexer) = _
  rw [List.reverse_reverse, textOfUnits?_toNat, Option.map_some, String.ofList_toList]

end Lexer

/-! ## Values -/

mutual

/-- The tokens of a value. -/
def tokens : Json → List Token
  | string s => [.string (some s)]
  | array items => .mark '[' :: (tokensOfItems items ++ [.mark ']'])
  | object members => .mark '\x7b' :: (tokensOfMembers members ++ [.mark '\x7d'])
  | j => [.value j]

/-- The tokens of the items of an array. -/
def tokensOfItems : List Json → List Token
  | [] => []
  | [item] => item.tokens
  | item :: items => item.tokens ++ .mark ',' :: tokensOfItems items

/-- The tokens of the members of an object. -/
def tokensOfMembers : List (String × Json) → List Token
  | [] => []
  | [(name, value)] => .string (some name) :: .mark ':' :: value.tokens
  | (name, value) :: members =>
    .string (some name) :: .mark ':' :: value.tokens ++ .mark ',' :: tokensOfMembers members

end

mutual

/-- The text of the value says all of it: it has no number that is not finite, and nothing in it
cannot be read. -/
def isLegible : Json → Bool
  | number x => x.isFinite
  | array items => areLegible items
  | object members => haveLegible members
  | unreadable => false
  | _ => true

/-- All items are legible. -/
def areLegible : List Json → Bool
  | [] => true
  | item :: items => item.isLegible && areLegible items

/-- All values of members are legible. -/
def haveLegible : List (String × Json) → Bool
  | [] => true
  | (_, value) :: members => value.isLegible && haveLegible members

end

mutual

/-- **The text of a value** is cut into its tokens. -/
theorem cuts_render (j : Json) (hj : j.isLegible = true) :
    Lexer.Cuts j.render.toList j.tokens := by
  match j with
  | null => exact Lexer.cuts_word (by decide) (List.all_eq_true.mp (by decide)) rfl
  | bool true => exact Lexer.cuts_word (by decide) (List.all_eq_true.mp (by decide)) rfl
  | bool false => exact Lexer.cuts_word (by decide) (List.all_eq_true.mp (by decide)) rfl
  | whole n => exact Lexer.cuts_number (numberOfWord?_whole n)
  | number x => exact Lexer.cuts_number (Layout.numberOfWord?_text hj)
  | string s => exact Lexer.cuts_string s
  | array items =>
    rw [render, String.toList_append, String.toList_append]
    exact Lexer.cuts_nil.mark rfl ((cuts_items items hj).mark rfl Lexer.cuts_nil)
  | object members =>
    rw [render, String.toList_append, String.toList_append]
    exact Lexer.cuts_nil.mark rfl ((cuts_members members hj).mark rfl Lexer.cuts_nil)
  | unreadable => exact nomatch hj

/-- The text of the items of an array is cut into their tokens. -/
theorem cuts_items (items : List Json) (hitems : areLegible items = true) :
    Lexer.Cuts (renderItems items).toList (tokensOfItems items) := by
  match items with
  | [] => exact Lexer.cuts_nil
  | [item] => exact cuts_render item (Bool.and_eq_true_iff.mp hitems).1
  | item :: next :: items =>
    obtain ⟨hitem, hrest⟩ := Bool.and_eq_true_iff.mp hitems
    rw [renderItems, String.toList_append, String.toList_append, List.append_assoc]
    · exact (cuts_render item hitem).mark rfl (cuts_items (next :: items) hrest)
    · exact fun h => nomatch h

/-- The text of the members of an object is cut into their tokens. -/
theorem cuts_members (members : List (String × Json)) (hmembers : haveLegible members = true) :
    Lexer.Cuts (renderMembers members).toList (tokensOfMembers members) := by
  match members with
  | [] => exact Lexer.cuts_nil
  | [(name, value)] =>
    rw [renderMembers, String.toList_append, String.toList_append, List.append_assoc]
    exact (Lexer.cuts_string name).mark rfl (cuts_render value (Bool.and_eq_true_iff.mp hmembers).1)
  | (name, value) :: next :: members =>
    obtain ⟨hvalue, hrest⟩ := Bool.and_eq_true_iff.mp hmembers
    have hmember := (Lexer.cuts_string name).mark (c := ':') rfl (cuts_render value hvalue)
    rw [renderMembers, String.toList_append, String.toList_append, String.toList_append,
      String.toList_append, List.append_assoc, List.append_assoc (renderString name).toList]
    · exact hmember.mark rfl (cuts_members (next :: members) hrest)
    · exact fun h => nomatch h

end

end Partwise.Json
