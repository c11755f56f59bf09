import HdrGain.Proofs.Json.Scanning

namespace HdrGain.Json

/-- The tokens of a phrase, where white space is gone. -/
inductive Lists : Phrase → List Token → Prop
  | null : Lists (.value .null) [.null]
  | bool {value : Bool} : Lists (.value (.bool value)) [.bool value]
  | number {numeral : Numeral} : Lists (.value (.number numeral)) [.number numeral]
  | text {pieces : List Piece} : Lists (.value (.text pieces)) [.text pieces]
  | emptyArray : Lists (.value (.array [])) [.openArray, .closeArray]
  | array {items : List Json} {body : List Token} (listed : Lists (.items items) body) :
      Lists (.value (.array items)) (.openArray :: (body ++ [.closeArray]))
  | emptyObject : Lists (.value (.object [])) [.openObject, .closeObject]
  | object {members : List (List Piece × Json)} {body : List Token}
      (listed : Lists (.members members) body) :
      Lists (.value (.object members)) (.openObject :: (body ++ [.closeObject]))
  | element {value : Json} {tokens : List Token} (listed : Lists (.value value) tokens) :
      Lists (.element value) tokens
  | lastItem {value : Json} {tokens : List Token} (listed : Lists (.element value) tokens) :
      Lists (.items [value]) tokens
  | items {value : Json} {items : List Json} {tokens body : List Token}
      (listed : Lists (.element value) tokens) (others : Lists (.items items) body) :
      Lists (.items (value :: items)) (tokens ++ .comma :: body)
  | member {key : List Piece} {value : Json} {tokens : List Token}
      (listed : Lists (.element value) tokens) :
      Lists (.member key value) (.text key :: .colon :: tokens)
  | lastMember {key : List Piece} {value : Json} {tokens : List Token}
      (listed : Lists (.member key value) tokens) : Lists (.members [(key, value)]) tokens
  | members {key : List Piece} {value : Json} {members : List (List Piece × Json)}
      {tokens body : List Token} (listed : Lists (.member key value) tokens)
      (others : Lists (.members members) body) :
      Lists (.members ((key, value) :: members)) (tokens ++ .comma :: body)

theorem endsNumeral_blank {space rest : List Char} (blank : Blank space)
    (ends : EndsNumeral rest) : EndsNumeral (space ++ rest) := by
  cases space with
  | nil => exact ends
  | cons c space =>
      rcases blank c List.mem_cons_self with rfl | rfl | rfl | rfl <;>
        exact endsNumeral_cons rfl (by decide) (by decide) (by decide)

theorem endsNumeral_comma (rest : List Char) : EndsNumeral (',' :: rest) :=
  endsNumeral_cons rfl (by decide) (by decide) (by decide)

/-- The tokens of a phrase are found wherever it is spelled. -/
theorem exists_lists_of_spells {phrase : Phrase} {text : List Char} (spelled : Spells phrase text) :
    ∃ tokens, Lists phrase tokens ∧ ∀ rest others, EndsNumeral rest → Scanned rest others →
      Scanned (text ++ rest) (tokens ++ others) := by
  induction spelled with
  | null =>
      exact ⟨_, .null, fun rest others _ scanned => .token ['u', 'l', 'l'] rfl rfl scanned⟩
  | true =>
      exact ⟨_, .bool, fun rest others _ scanned => .token ['r', 'u', 'e'] rfl rfl scanned⟩
  | false =>
      exact ⟨_, .bool, fun rest others _ scanned => .token ['a', 'l', 's', 'e'] rfl rfl scanned⟩
  | number spelled =>
      exact ⟨_, .number, fun rest others ends scanned => .number spelled ends scanned⟩
  | text quoted =>
      exact ⟨_, .text, fun rest others _ scanned => .quoted quoted scanned⟩
  | emptyArray blank =>
      refine ⟨_, .emptyArray, fun rest others _ scanned => ?_⟩
      rw [List.cons_append, List.append_assoc]
      exact .token [] rfl rfl (.blank blank (.token [] rfl rfl scanned))
  | array _ ih =>
      obtain ⟨tokens, listed, found⟩ := ih
      refine ⟨_, .array listed, fun rest others _ scanned => ?_⟩
      simp only [List.cons_append, List.append_assoc]
      exact .token [] rfl rfl (found (']' :: rest) (.closeArray :: others)
        (endsNumeral_cons rfl (by decide) (by decide) (by decide)) (.token [] rfl rfl scanned))
  | emptyObject blank =>
      refine ⟨_, .emptyObject, fun rest others _ scanned => ?_⟩
      rw [List.cons_append, List.append_assoc]
      exact .token [] rfl rfl (.blank blank (.token [] rfl rfl scanned))
  | object _ ih =>
      obtain ⟨tokens, listed, found⟩ := ih
      refine ⟨_, .object listed, fun rest others _ scanned => ?_⟩
      simp only [List.cons_append, List.append_assoc]
      exact .token [] rfl rfl (found ('}' :: rest) (.closeObject :: others)
        (endsNumeral_cons rfl (by decide) (by decide) (by decide)) (.token [] rfl rfl scanned))
  | element blankBefore _ blankAfter ih =>
      obtain ⟨tokens, listed, found⟩ := ih
      refine ⟨_, .element listed, fun rest others ends scanned => ?_⟩
      simp only [List.append_assoc]
      exact .blank blankBefore
        (found _ others (endsNumeral_blank blankAfter ends) (.blank blankAfter scanned))
  | lastItem _ ih =>
      obtain ⟨tokens, listed, found⟩ := ih
      exact ⟨_, .lastItem listed, found⟩
  | items _ _ ih othersIH =>
      obtain ⟨tokens, listed, found⟩ := ih
      obtain ⟨body, othersListed, othersFound⟩ := othersIH
      refine ⟨_, .items listed othersListed, fun rest others ends scanned => ?_⟩
      simp only [List.append_assoc, List.cons_append]
      exact found _ _ (endsNumeral_comma _)
        (.token [] rfl rfl (othersFound rest others ends scanned))
  | member blankBefore quoted blankAfter _ ih =>
      obtain ⟨tokens, listed, found⟩ := ih
      refine ⟨_, .member listed, fun rest others ends scanned => ?_⟩
      simp only [List.append_assoc, List.cons_append]
      exact .blank blankBefore (.quoted quoted
        (.blank blankAfter (.token [] rfl rfl (found rest others ends scanned))))
  | lastMember _ ih =>
      obtain ⟨tokens, listed, found⟩ := ih
      exact ⟨_, .lastMember listed, found⟩
  | members _ _ ih othersIH =>
      obtain ⟨tokens, listed, found⟩ := ih
      obtain ⟨body, othersListed, othersFound⟩ := othersIH
      refine ⟨_, .members listed othersListed, fun rest others ends scanned => ?_⟩
      simp only [List.append_assoc, List.cons_append]
      exact found _ _ (endsNumeral_comma _)
        (.token [] rfl rfl (othersFound rest others ends scanned))

section Reading

variable {phrase : Phrase} {tokens : List Token}

theorem Lists.opens (listed : Lists phrase tokens) :
    ∃ first more, tokens = first :: more ∧ first ≠ .closeArray ∧ first ≠ .closeObject := by
  induction listed with
  | element _ ih | lastItem _ ih | lastMember _ ih => exact ih
  | items _ _ ih _ | members _ _ ih _ =>
      obtain ⟨first, more, rfl, array, object⟩ := ih
      exact ⟨first, _, rfl, array, object⟩
  | _ => exact ⟨_, _, rfl, nofun, nofun⟩

/-- `tokens` are read as the phrase, up to the bracket that ends it. -/
def Phrase.ReadFrom (tokens : List Token) (limit : Nat) (rest : List Token) : Phrase → Prop
  | .value json | .element json =>
      tokens.length ≤ limit → readValue limit (tokens ++ rest) = some (json, rest)
  | .items values =>
      tokens.length < limit → readItems limit (tokens ++ .closeArray :: rest) = some (values, rest)
  | .member key json =>
      ∃ more, tokens = .text key :: .colon :: more ∧
        (more.length ≤ limit → readValue limit (more ++ rest) = some (json, rest))
  | .members named =>
      tokens.length < limit →
        readMembers limit (tokens ++ .closeObject :: rest) = some (named, rest)

/-- Every bracket and every comma takes one from the limit, and they are tokens themselves. -/
theorem Lists.readFrom (listed : Lists phrase tokens) (limit : Nat) (rest : List Token) :
    phrase.ReadFrom tokens limit rest := by
  induction listed generalizing limit rest with
  | null | bool | number | text | emptyArray | emptyObject =>
      intro room
      cases limit with
      | zero => cases room
      | succ limit => rfl
  | @array items body listed ih =>
      intro room
      cases limit with
      | zero => cases room
      | succ limit =>
          obtain ⟨first, more, rfl, opens, _⟩ := listed.opens
          have items := ih limit rest (by
            simp only [List.length_cons, List.length_append] at *
            omega)
          simp only [List.cons_append, List.append_assoc, List.nil_append] at items ⊢
          rw [readValue, items]
          · rfl
          · intro _ closes
            cases closes
            exact opens rfl
  | object listed ih =>
      intro room
      cases limit with
      | zero => cases room
      | succ limit =>
          obtain ⟨first, more, rfl, _, opens⟩ := listed.opens
          have members := ih limit rest
            (by simp only [List.length_cons, List.length_append] at *; omega)
          simp only [List.cons_append, List.append_assoc, List.nil_append] at members ⊢
          rw [readValue, members]
          · rfl
          · intro _ closes
            cases closes
            exact opens rfl
  | element _ ih => exact ih limit rest
  | lastItem _ ih =>
      intro room
      cases limit with
      | zero => cases room
      | succ limit =>
          rw [readItems, ih limit (.closeArray :: rest) (by omega)]
          rfl
  | items _ _ ih othersIH =>
      intro room
      rw [List.length_append, List.length_cons] at room
      cases limit with
      | zero => cases room
      | succ limit =>
          simp only [List.append_assoc, List.cons_append]
          rw [readItems, ih limit _ (by omega)]
          simp only [Option.bind_eq_bind, Option.bind_some, othersIH limit rest (by omega)]
          rfl
  | member _ ih => exact ⟨_, rfl, ih limit rest⟩
  | lastMember _ ih =>
      intro room
      cases limit with
      | zero => cases room
      | succ limit =>
          obtain ⟨more, rfl, read⟩ := ih limit (.closeObject :: rest)
          simp only [List.length_cons] at room
          simp only [List.cons_append]
          rw [readMembers, read (by omega)]
          rfl
  | members _ _ ih othersIH =>
      intro room
      rw [List.length_append, List.length_cons] at room
      cases limit with
      | zero => cases room
      | succ limit =>
          obtain ⟨more, rfl, read⟩ := ih limit (.comma :: (_ ++ .closeObject :: rest))
          simp only [List.length_cons] at room
          simp only [List.append_assoc, List.cons_append]
          rw [readMembers, read (by omega)]
          simp only [Option.bind_eq_bind, Option.bind_some, othersIH limit rest (by omega)]
          rfl

end Reading

/-- Every document of the grammar is read, and as its value. -/
theorem parse?_of_isDocument {value : Json} {document : String}
    (spelled : IsDocument value document) : parse? document = some value := by
  obtain ⟨tokens, listed, found⟩ := exists_lists_of_spells spelled
  have scanned := found [] [] endsNumeral_nil scanned_nil
  rw [List.append_nil, List.append_nil] at scanned
  have read := listed.readFrom tokens.length [] (Nat.le_refl _)
  rw [List.append_nil] at read
  have tokenised : tokens? document = some tokens := scanned _ (Nat.le_refl _)
  simp only [parse?, tokenised, Option.bind_eq_bind, Option.bind_some, read]
  rfl

end HdrGain.Json
