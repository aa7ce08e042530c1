import Partwise.Proofs.Writing.Tokens

/-!
# Writing · Values: a value that is written is read again

The tokens of a value take the builder from a state where a value may come to the one where it is
complete, whatever is open around it (`Builder.foldlM_tokens`); within an array and an object the
same is said of all items and all members. With the cutting of the text into tokens this makes
`Json.ofText?` the inverse of `Json.render` on legible values.

* `Json.ofText?_render`: a legible value is read from its text.
-/

namespace Partwise.Json

namespace Builder

variable {expect : Expect} {frames outer : List Frame} {result : Json}

/-- A value may come next. -/
def StartsValue (expect : Expect) : Prop := expect = .value ∨ expect = .itemOrEnd

/-- What was expected is forgotten with a value that is complete. -/
theorem complete_eq (e : Expect) (fs : List Frame) (j : Json) :
    complete ⟨expect, frames, result⟩ outer j = complete ⟨e, fs, result⟩ outer j := by
  rcases outer with _ | ⟨_ | _, _⟩ <;> rfl

/-- A value that stands by itself is taken where a value may start. -/
theorem step?_value (h : StartsValue expect) (j : Json) :
    step? ⟨expect, frames, result⟩ (.value j) = some (complete ⟨expect, frames, result⟩ frames j) :=
  if_pos h

/-- A string is taken where a value may start. -/
theorem step?_string (h : StartsValue expect) (s : String) :
    step? ⟨expect, frames, result⟩ (.string (some s)) =
      some (complete ⟨expect, frames, result⟩ frames (.string s)) :=
  if_pos h

/-- An array opens where a value may start. -/
theorem step?_openArray (h : StartsValue expect) :
    step? ⟨expect, frames, result⟩ (.mark '[') =
      some ⟨.itemOrEnd, .array [] :: frames, result⟩ :=
  if_pos h

/-- An object opens where a value may start. -/
theorem step?_openObject (h : StartsValue expect) :
    step? ⟨expect, frames, result⟩ (.mark '\x7b') =
      some ⟨.memberOrEnd, .object "" [] true :: frames, result⟩ :=
  if_pos h

/-- A value of one token is read by that token. -/
theorem foldlM_value (h : StartsValue expect) (j : Json) :
    [Token.value j].foldlM step? ⟨expect, frames, result⟩ =
      some (complete ⟨expect, frames, result⟩ frames j) := by
  rw [List.foldlM_cons, step?_value h]
  rfl

/-- A name and a colon before a value. -/
theorem foldlM_name {done : List (String × Json)} {last : String}
    (h : expect = .member ∨ expect = .memberOrEnd) (name : String) (tokens : List Token) :
    (Token.string (some name) :: .mark ':' :: tokens).foldlM step?
        ⟨expect, .object last done true :: outer, result⟩ =
      tokens.foldlM step? ⟨.value, .object name done true :: outer, result⟩ := by
  rcases h with rfl | rfl <;> rfl

mutual

/-- **The tokens of a value** complete it. -/
theorem foldlM_tokens (j : Json) {expect : Expect} (h : StartsValue expect) (frames : List Frame)
    (result : Json) : j.tokens.foldlM step? ⟨expect, frames, result⟩ =
      some (complete ⟨expect, frames, result⟩ frames j) := by
  match j with
  | null | bool _ | whole _ | number _ | unreadable => exact foldlM_value h _
  | string s =>
    rw [tokens, List.foldlM_cons, step?_string h]
    rfl
  | array items =>
    rw [tokens, List.foldlM_cons, step?_openArray h, complete_eq .commaOrEnd []]
    refine (List.foldlM_append ..).trans ?_
    cases items with
    | nil => exact congrArg some (complete_eq .commaOrEnd [] _)
    | cons item items =>
      rw [foldlM_items item items [] (Or.inr rfl) frames result, List.append_nil]
      refine congrArg some ?_
      rw [List.reverse_reverse]
      exact complete_eq .commaOrEnd [] _
  | object members =>
    rw [tokens, List.foldlM_cons, step?_openObject h, complete_eq .commaOrEnd []]
    refine (List.foldlM_append ..).trans ?_
    cases members with
    | nil => exact congrArg some (complete_eq .commaOrEnd [] _)
    | cons member members =>
      obtain ⟨name, value⟩ := member
      obtain ⟨last, hmembers⟩ :=
        foldlM_members name value members [] (Or.inr rfl) "" frames result
      rw [hmembers, List.append_nil]
      refine congrArg some ?_
      rw [if_pos rfl, List.reverse_reverse]
      exact complete_eq .commaOrEnd [] _
termination_by sizeOf j

/-- The tokens of the items of an array add them. -/
theorem foldlM_items (item : Json) (items done : List Json) {expect : Expect}
    (h : StartsValue expect) (outer : List Frame) (result : Json) :
    (tokensOfItems (item :: items)).foldlM step? ⟨expect, .array done :: outer, result⟩ =
      some ⟨.commaOrEnd, .array ((item :: items).reverse ++ done) :: outer, result⟩ := by
  match items with
  | [] => exact foldlM_tokens item h (.array done :: outer) result
  | next :: items =>
    rw [tokensOfItems, List.foldlM_append, foldlM_tokens item h (.array done :: outer) result]
    · refine (foldlM_items next items (item :: done) (Or.inl rfl) outer result).trans ?_
      rw [List.reverse_cons (a := item), List.append_assoc]
      rfl
    · exact fun h => nomatch h
termination_by sizeOf (item :: items)

/-- The tokens of the members of an object add them. -/
theorem foldlM_members (name : String) (value : Json) (members done : List (String × Json))
    {expect : Expect} (h : expect = .member ∨ expect = .memberOrEnd) (last : String)
    (outer : List Frame) (result : Json) : ∃ last',
    (tokensOfMembers ((name, value) :: members)).foldlM step?
        ⟨expect, .object last done true :: outer, result⟩ =
      some ⟨.commaOrEnd,
        .object last' (((name, value) :: members).reverse ++ done) true :: outer, result⟩ := by
  match members with
  | [] =>
    refine ⟨name, (foldlM_name h name value.tokens).trans ?_⟩
    exact foldlM_tokens value (Or.inl rfl) (.object name done true :: outer) result
  | (next, other) :: members =>
    obtain ⟨last', hmembers⟩ :=
      foldlM_members next other members ((name, value) :: done) (Or.inl rfl) name outer result
    refine ⟨last', ?_⟩
    rw [tokensOfMembers, List.cons_append, List.cons_append, foldlM_name h]
    · rw [List.foldlM_append, foldlM_tokens value (Or.inl rfl) (.object name done true :: outer)]
      refine hmembers.trans ?_
      rw [List.reverse_cons (a := (name, value)), List.append_assoc]
      rfl
    · exact fun h => nomatch h
termination_by sizeOf ((name, value) :: members)

end

end Builder

/-- **A legible value** is read from its text. -/
theorem ofText?_render (j : Json) (hj : j.isLegible = true) : ofText? j.render = some j := by
  obtain ⟨s, hread, hend⟩ := cuts_render j hj []
  have htokens : tokens? j.render.toList = some j.tokens := by
    rw [tokens?, hread]
    show s.endWord?.bind _ = _
    rw [hend]
    simp
  have hbuilt := Builder.foldlM_tokens j (Or.inl rfl) [] .null
  rw [ofText?, htokens]
  show (j.tokens.foldlM Builder.step? {}).bind _ = _
  rw [hbuilt]
  rfl

end Partwise.Json
