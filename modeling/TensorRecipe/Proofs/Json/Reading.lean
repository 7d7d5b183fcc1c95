import TensorRecipe.Json.Value
import TensorRecipe.Proofs.Json.Lexing

/-!
# JSON values are read as they are written

From the tokens of a value the reader gets that value, whatever it is inside of
(`Json.foldlM_tokens`), and no two of these tokens run into each other (`Json.isChain_tokens`).  So a
text of a value, whose numbers must be such that a text can write them, is read as that value
(`Json.IsWritten.read?_eq`).
-/

namespace TensorRecipe

namespace Json

theorem induct {motive : Json → Prop} (null : motive .null) (bool : ∀ b, motive (.bool b))
    (num : ∀ n, motive (.num n)) (str : ∀ s, motive (.str s))
    (arr : ∀ items, (∀ j ∈ items, motive j) → motive (.arr items))
    (obj : ∀ members, (∀ m ∈ members, motive m.2) → motive (.obj members)) : ∀ j, motive j := by
  intro j
  refine Json.rec (motive_1 := motive) (motive_2 := fun js => ∀ j ∈ js, motive j)
    (motive_3 := fun ms => ∀ m ∈ ms, motive m.2) (motive_4 := fun m => motive m.2)
    null bool num str arr obj ?_ ?_ ?_ ?_ ?_ j
  · simp
  · intro j js hj hjs
    exact List.forall_mem_cons.2 ⟨hj, hjs⟩
  · simp
  · intro m ms hm hms
    exact List.forall_mem_cons.2 ⟨hm, hms⟩
  · exact fun _ _ hm => hm

/-! ### Lists of tokens -/

theorem itemTokens_eq : ∀ items : List Json,
    itemTokens items = [Token.comma].intercalate (items.map tokens)
  | [] => by simp [itemTokens]
  | [item] => by simp [itemTokens]
  | item :: next :: items => by
    rw [itemTokens, itemTokens_eq (next :: items)]
    · simp [List.intercalate_cons_cons]
    · simp

theorem memberTokens_eq : ∀ members : List (Option String × Json),
    memberTokens members =
      [Token.comma].intercalate (members.map fun m => .str m.1 :: .colon :: m.2.tokens)
  | [] => by simp [memberTokens]
  | [(key, value)] => by simp [memberTokens]
  | (key, value) :: next :: members => by
    rw [memberTokens, memberTokens_eq (next :: members)]
    · simp [List.intercalate_cons_cons]
    · simp

theorem mem_of_mem_intercalate {α : Type} {separator : List α} {x : α} : ∀ {parts : List (List α)},
    x ∈ separator.intercalate parts → x ∈ separator ∨ ∃ xs ∈ parts, x ∈ xs
  | [], h => by simp at h
  | [xs], h => by
    rw [List.intercalate_singleton] at h
    exact .inr ⟨xs, by simp, h⟩
  | xs :: next :: parts, h => by
    rw [List.intercalate_cons_cons, List.mem_append, List.mem_append] at h
    rcases h with (h | h) | h
    · exact .inr ⟨xs, by simp, h⟩
    · exact .inl h
    · refine (mem_of_mem_intercalate h).imp_right ?_
      rintro ⟨ys, hys, h⟩
      exact ⟨ys, List.mem_cons_of_mem xs hys, h⟩

/-! ### The reader -/

/-- The reader gets the value from its tokens. -/
def IsRead (json : Json) : Prop :=
  ∀ outer, json.tokens.foldlM Reader.step (.value outer) = some (.after json outer)

theorem foldlM_itemTokens (outer : List Frame) : ∀ {item : Json} {items : List Json}
    (before : List Json), (∀ j ∈ item :: items, j.IsRead) →
      (itemTokens (item :: items) ++ [Token.closeArray]).foldlM Reader.step
        (.value (.array before :: outer)) = some (.after (.arr (before.reverse ++ item :: items)) outer)
  | item, [], before, h => by
    rw [itemTokens, List.foldlM_append, h item (by simp)]
    show some (Reader.after (.arr (item :: before).reverse) outer) = _
    rw [List.reverse_cons]
  | item, next :: items, before, h => by
    have hrest := foldlM_itemTokens outer (item :: before)
      fun j hj => h j (List.mem_cons_of_mem item hj)
    rw [List.reverse_cons, List.append_assoc] at hrest
    have htokens : itemTokens (item :: next :: items) =
        item.tokens ++ .comma :: itemTokens (next :: items) := by
      simp [itemTokens]
    rw [htokens, List.append_assoc, List.foldlM_append, h item (by simp)]
    exact hrest

theorem foldlM_memberTokens (outer : List Frame) : ∀ {member : Option String × Json}
    {members : List (Option String × Json)} (before : List (Option String × Json)),
    (∀ m ∈ member :: members, m.2.IsRead) →
      (memberTokens (member :: members) ++ [Token.closeObject]).foldlM Reader.step
        (.key before outer) = some (.after (.obj (before.reverse ++ member :: members)) outer)
  | (key, value), [], before, h => by
    have hvalue := h (key, value) (by simp) (.object before key :: outer)
    rw [memberTokens]
    show (value.tokens ++ [Token.closeObject]).foldlM Reader.step
      (.value (.object before key :: outer)) = _
    rw [List.foldlM_append, hvalue]
    show some (Reader.after (.obj ((key, value) :: before).reverse) outer) = _
    rw [List.reverse_cons]
  | (key, value), next :: members, before, h => by
    have hvalue := h (key, value) (by simp) (.object before key :: outer)
    have hrest := foldlM_memberTokens outer ((key, value) :: before)
      fun m hm => h m (List.mem_cons_of_mem _ hm)
    rw [List.reverse_cons, List.append_assoc] at hrest
    have htokens : memberTokens ((key, value) :: next :: members) =
        .str key :: .colon :: (value.tokens ++ .comma :: memberTokens (next :: members)) := by
      simp [memberTokens]
    rw [htokens]
    show (value.tokens ++ .comma :: memberTokens (next :: members) ++
      [Token.closeObject]).foldlM Reader.step (.value (.object before key :: outer)) = _
    rw [List.append_assoc, List.foldlM_append, hvalue]
    exact hrest

/-- No value begins with the end of an array, so the first item of an array is read like others. -/
theorem foldlM_item (item : Json) (rest : List Token) (outer : List Frame) :
    (item.tokens ++ rest).foldlM Reader.step (.item outer) =
      (item.tokens ++ rest).foldlM Reader.step (.value (.array [] :: outer)) := by
  cases item <;> rfl

/-- From the tokens of a value, the reader gets that value. -/
theorem foldlM_tokens (json : Json) : json.IsRead := by
  induction json using induct with
  | null => exact fun _ => rfl
  | bool b => exact fun _ => rfl
  | num n => exact fun _ => rfl
  | str s => exact fun _ => rfl
  | arr items ih =>
    intro outer
    cases items with
    | nil => rfl
    | cons item items =>
      obtain ⟨rest, hrest⟩ : ∃ rest, itemTokens (item :: items) = item.tokens ++ rest := by
        cases items with
        | nil => exact ⟨[], by rw [itemTokens, List.append_nil]⟩
        | cons next items => exact ⟨_, by rw [itemTokens]; simp⟩
      show (itemTokens (item :: items) ++ [Token.closeArray]).foldlM Reader.step (.item outer) = _
      rw [hrest, List.append_assoc, foldlM_item, ← List.append_assoc, ← hrest]
      exact foldlM_itemTokens outer [] ih
  | obj members ih =>
    intro outer
    cases members with
    | nil => rfl
    | cons member members =>
      -- the first key is read like others
      have hread := foldlM_memberTokens outer [] ih
      obtain ⟨key, value⟩ := member
      cases members <;> exact hread

theorem ofTokens?_tokens (json : Json) : ofTokens? json.tokens = some json := by
  simp [ofTokens?, foldlM_tokens json [], Reader.result?]

/-! ### Tokens side by side -/

theorem isChain_intercalate : ∀ {parts : List (List Token)},
    (∀ ts ∈ parts, ts.IsChain Token.Separate) →
      ([Token.comma].intercalate parts).IsChain Token.Separate
  | [], _ => by simp
  | [ts], h => by
    rw [List.intercalate_singleton]
    exact h ts (by simp)
  | ts :: next :: parts, h => by
    have hrest := isChain_intercalate fun us hus => h us (List.mem_cons_of_mem ts hus)
    rw [List.intercalate_cons_cons, List.append_assoc]
    refine List.isChain_append.2 ⟨h ts (by simp), List.isChain_cons.2
      ⟨fun _ _ => .of_left rfl, hrest⟩, fun _ _ t ht => ?_⟩
    obtain rfl : Token.comma = t := by simpa using ht
    exact .of_right rfl

/-- Between brackets, which no token runs into. -/
theorem isChain_bracketed {first last : Token} {ts : List Token} (hfirst : first.isBare = false)
    (hlast : last.isBare = false) (h : ts.IsChain Token.Separate) :
    (first :: ts ++ [last]).IsChain Token.Separate := by
  refine List.isChain_append.2 ⟨List.isChain_cons.2 ⟨fun _ _ => .of_left hfirst, h⟩,
    List.isChain_singleton _, fun _ _ t ht => ?_⟩
  obtain rfl : last = t := by simpa using ht
  exact .of_right hlast

/-- No token of a value runs into the next one. -/
theorem isChain_tokens (json : Json) : json.tokens.IsChain Token.Separate := by
  induction json using induct with
  | null => exact List.isChain_singleton _
  | bool b => exact List.isChain_singleton _
  | num n => exact List.isChain_singleton _
  | str s => exact List.isChain_singleton _
  | arr items ih =>
    rw [tokens, itemTokens_eq]
    exact isChain_bracketed rfl rfl (isChain_intercalate (by simpa using ih))
  | obj members ih =>
    rw [tokens, memberTokens_eq]
    refine isChain_bracketed rfl rfl (isChain_intercalate ?_)
    rintro _ hts
    obtain ⟨m, hm, rfl⟩ := List.mem_map.1 hts
    exact List.isChain_cons.2 ⟨fun _ _ => .of_left rfl, List.isChain_cons.2
      ⟨fun _ _ => .of_left rfl, ih m hm⟩⟩

/-! ### Texts of values -/

/-- All numbers in the value are such that a text can write them. -/
def Writable (json : Json) : Prop := ∀ t ∈ json.tokens, t.WellFormed

theorem writable_null : Json.null.Writable := by simp [Writable, tokens, Token.WellFormed]

theorem writable_text (s : String) : (Json.text s).Writable := by
  simp [Writable, Json.text, tokens, Token.WellFormed]

theorem writable_num {n : Numeral} (h : n.WellFormed) : (Json.num n).Writable := by
  simpa [Writable, tokens, Token.WellFormed] using h

theorem writable_nat (n : Nat) : (Json.nat n).Writable := writable_num (Numeral.wellFormed_ofNat n)

theorem wellFormed_bracketed {first last : Token} (hfirst : first.isBare = false)
    (hlast : last.isBare = false) {parts : List (List Token)} (h : ∀ ts ∈ parts, ∀ t ∈ ts, t.WellFormed) :
    ∀ t ∈ first :: [Token.comma].intercalate parts ++ [last], t.WellFormed := by
  intro t ht
  rw [List.cons_append, List.mem_cons, List.mem_append, List.mem_singleton] at ht
  rcases ht with rfl | ht | rfl
  · exact .of_isBare hfirst
  · rcases mem_of_mem_intercalate ht with ht | ⟨ts, hts, ht⟩
    · obtain rfl := List.mem_singleton.1 ht
      exact .of_isBare rfl
    · exact h ts hts t ht
  · exact .of_isBare hlast

theorem writable_arr {items : List Json} (h : ∀ j ∈ items, j.Writable) :
    (Json.arr items).Writable := by
  rw [Writable, tokens, itemTokens_eq]
  refine wellFormed_bracketed rfl rfl fun ts hts => ?_
  obtain ⟨j, hj, rfl⟩ := List.mem_map.1 hts
  exact h j hj

theorem writable_object {members : List (String × Json)} (h : ∀ m ∈ members, m.2.Writable) :
    (Json.object members).Writable := by
  rw [Writable, Json.object, tokens, memberTokens_eq]
  refine wellFormed_bracketed rfl rfl fun ts hts t ht => ?_
  obtain ⟨m, hm, rfl⟩ := List.mem_map.1 hts
  obtain ⟨n, hn, rfl⟩ := List.mem_map.1 hm
  rcases List.mem_cons.1 ht with rfl | ht
  · trivial
  rcases List.mem_cons.1 ht with rfl | ht
  · trivial
  · exact h n hn t ht

/-- The text writes the value: its tokens, each spelled in some way, with or without white space
between them. -/
structure IsWritten (json : Json) (text : String) : Prop where
  writable : json.Writable
  spelled : Token.Spelled json.tokens text.toList

theorem IsWritten.read?_eq {json : Json} {text : String} (h : json.IsWritten text) :
    read? text = some json := by
  simp [read?, Token.lex_of_spelled h.spelled h.writable json.isChain_tokens, ofTokens?_tokens]

theorem isWritten_write {json : Json} (h : json.Writable) : json.IsWritten json.write := by
  refine ⟨h, ?_⟩
  rw [write, String.toList_ofList]
  exact Token.spelled_flatMap _

theorem IsWritten.cons_blank {json : Json} {text : String} (h : json.IsWritten text) {c : Char}
    (hc : Lexer.isBlank c) : json.IsWritten (String.ofList (c :: text.toList)) := by
  obtain ⟨hwritable, hspelled⟩ := h
  refine ⟨hwritable, ?_⟩
  rw [String.toList_ofList]
  generalize json.tokens = tokens at hspelled
  generalize text.toList = cs at hspelled
  cases hspelled with
  | nil blank => exact .nil (List.forall_mem_cons.2 ⟨hc, blank⟩)
  | @cons blanks cs text t ts blank spelling rest =>
    exact @Token.Spelled.cons (c :: blanks) _ _ _ _ (List.forall_mem_cons.2 ⟨hc, blank⟩) spelling rest

theorem read?_write {json : Json} (h : json.Writable) : read? json.write = some json :=
  (isWritten_write h).read?_eq

end Json

end TensorRecipe
