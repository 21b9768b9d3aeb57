import StepMatch.Proofs.Expression.Printing

/-!
# Tokens decode the expression

Only a backslash with nothing left to escape keeps an expression from being cut into tokens: that is so
if it closes with an odd number of backslashes. Else the tokens are read from stretches that cover the
expression without a gap, each one the spelling of its symbol or text that decodes to its payload. The
tokens can be written again, and then they are read as the same symbols: a brace that was read alone is
not followed by another one.
-/

namespace StepMatch

open Token (unescape symbolOf? joinText scanFrom scan)

namespace Text

/-- The number of backslashes that the text closes with. -/
def closingSlashes (t : Text) : Nat := (t.reverse.takeWhile (· == '\\')).length

/-- The literal text that a stretch of an expression spells, read from left to right: a backslash is
dropped where it stands in front of a structural character. -/
def decoded : Text → Text
  | '\\' :: c :: t => if isStructural c then c :: decoded t else '\\' :: c :: decoded t
  | c :: t => c :: decoded t
  | [] => []

variable {c : Char} {t : Text}

theorem closingSlashes_le (t : Text) : closingSlashes t ≤ t.length := by
  have := (List.takeWhile_sublist (· == '\\') (l := t.reverse)).length_le
  rwa [List.length_reverse] at this

/-- A character in front counts only if it is a backslash and no other character comes after it. -/
theorem closingSlashes_cons (c : Char) (t : Text) : closingSlashes (c :: t) =
    if closingSlashes t = t.length then t.length + (if c = '\\' then 1 else 0)
    else closingSlashes t := by
  rw [closingSlashes, List.reverse_cons, List.takeWhile_append, ← t.length_reverse]
  change List.length (if closingSlashes t = t.reverse.length then _ else _) = _
  split
  · by_cases slash : c = '\\' <;> simp [slash]
  · rfl

theorem closingSlashes_of_ne (other : c ≠ '\\') (t : Text) :
    closingSlashes (c :: t) = closingSlashes t := by
  rw [closingSlashes_cons, if_neg other]
  split
  · rename_i all
    exact all.symm
  · rfl

/-- A backslash takes the character after it out of the count, or is counted with it. -/
theorem closingSlashes_escape (c : Char) (t : Text) :
    closingSlashes ('\\' :: c :: t) % 2 = closingSlashes t % 2 := by
  have bound := closingSlashes_le t
  rw [closingSlashes_cons, List.length_cons, if_pos rfl]
  by_cases slash : c = '\\'
  · rw [slash, closingSlashes_cons, if_pos rfl]
    split <;> split <;> omega
  · rw [closingSlashes_of_ne slash, if_neg (by omega)]

end Text

namespace Token

variable {pos : Nat} {t : Text} {fault : Fault} {tokens : List Token}

/-- A text is refused as the rest of it is, after a stretch that makes no difference to the backslashes
that it closes with. -/
theorem refused_of_rest {rest : Text} {stop : Nat} {f : List Token → List Token}
    (ih : scanFrom stop rest = .error fault ↔ rest.closingSlashes % 2 = 1 ∧
      fault = ⟨.trailingEscape, stop + rest.byteLength - 1, some ['\\']⟩)
    (count : t.closingSlashes % 2 = rest.closingSlashes % 2)
    (length : pos + t.byteLength = stop + rest.byteLength) :
    (scanFrom stop rest).map f = .error fault ↔ t.closingSlashes % 2 = 1 ∧
      fault = ⟨.trailingEscape, pos + t.byteLength - 1, some ['\\']⟩ := by
  rw [count, length]
  exact map_eq_error_iff.trans ih

/-- A text is refused exactly if it closes with an odd number of backslashes, and for the last one. -/
theorem scanFrom_eq_error_iff : scanFrom pos t = .error fault ↔
    t.closingSlashes % 2 = 1 ∧
      fault = ⟨.trailingEscape, pos + t.byteLength - 1, some ['\\']⟩ := by
  have slash : '\\'.utf8Size = 1 := rfl
  fun_induction scanFrom pos t with
  | case1 pos => simp [Text.closingSlashes]
  | case2 pos => simp [Text.closingSlashes, slash, eq_comm]
  | case3 pos c rest stop ih =>
    refine refused_of_rest ih (Text.closingSlashes_escape c rest) ?_
    simp only [stop, Text.byteLength_cons, slash, Nat.add_assoc]
  | case4 pos rest ih | case5 pos rest ih =>
    refine refused_of_rest ih ?_ ?_
    · rw [Text.closingSlashes_of_ne (by decide), Text.closingSlashes_of_ne (by decide)]
    · simp only [Text.byteLength_cons, ← Nat.add_assoc]
      rfl
  | case6 pos c rest lone escape _ _ stop symbol found ih
  | case7 pos c rest lone escape _ _ stop none ih =>
    have other : c ≠ '\\' := by
      intro e
      cases rest with
      | nil => exact lone e rfl
      | cons d rest => exact escape d rest e rfl
    refine refused_of_rest ih (congrArg (· % 2) (Text.closingSlashes_of_ne other rest)) ?_
    rw [Text.byteLength_cons, Nat.add_assoc]

end Token

/-! ### What the tokens cover -/

variable {pos : Nat} {source t rest before : Text} {tokens : List Token}

/-- What text spells is what it decodes to. -/
theorem Spells.decoded_eq (h : Spells source t) : source.decoded = t := by
  induction h with
  | nil => rfl
  | escaped c _ ih =>
    rw [Text.decoded, ih, unescape]
    split <;> rfl
  | @plain c source t own _ ih =>
    rw [Text.decoded.eq_def]
    split
    · rename_i e
      obtain ⟨rfl, -⟩ := List.cons.inj e
      cases own
    · rename_i e
      obtain ⟨rfl, rfl⟩ := List.cons.inj e
      rw [ih]
    · rename_i e
      cases e

theorem Symbol.IsReadFrom.ne_nil {symbol : Symbol} (h : symbol.IsReadFrom source) : source ≠ [] := by
  cases symbol with
  | text t => exact h.1
  | _ =>
    rw [h]
    exact List.cons_ne_nil _ _

/-- The token is cut out of the expression at its bytes, between whole characters: it is the spelling of
its symbol, or a stretch that decodes to its text. -/
def Token.IsCutFrom (expression : Text) (token : Token) : Prop :=
  ∃ before source after, expression = before ++ source ++ after ∧ source ≠ [] ∧
    before.byteLength = token.start ∧ token.stop = token.start + source.byteLength ∧
    match token.symbol with
    | .text t => source.decoded = t
    | symbol => source = symbol.describe

/-- Tokens that tile a text are cut out of it, and each one starts where the one before it stops. -/
theorem Tiled.isCutFrom (tiled : Tiled pos rest tokens) (start : before.byteLength = pos) :
    ∀ token ∈ tokens, token.IsCutFrom (before ++ rest) := by
  induction tiled generalizing before with
  | nil => simp
  | @cons pos symbol source rest later own others ih =>
    refine List.forall_mem_cons.2 ⟨⟨before, source, rest, by simp, own.ne_nil, start, rfl, ?_⟩, ?_⟩
    · cases symbol with
      | text t => exact own.2.decoded_eq
      | _ => exact own
    · rw [← List.append_assoc]
      exact ih (by simp [start])

theorem Tiled.contiguous (tiled : Tiled pos rest tokens) :
    (∀ token ∈ tokens.head?, token.start = pos) ∧
      tokens.IsChain (fun token next => next.start = token.stop) ∧
      (tokens.getLast?.map Token.stop).getD pos = pos + rest.byteLength := by
  induction tiled with
  | nil => simp
  | @cons pos symbol source rest later own others ih =>
    obtain ⟨first, joined, last⟩ := ih
    refine ⟨by simp, List.isChain_cons.2 ⟨first, joined⟩, ?_⟩
    rw [Text.byteLength_append, ← Nat.add_assoc, ← last, List.getLast?_cons]
    cases later.getLast? <;> rfl

/-- A stretch that is not empty takes up bytes. -/
theorem Token.IsCutFrom.start_lt_stop {expression : Text} {token : Token}
    (h : token.IsCutFrom expression) : token.start < token.stop := by
  obtain ⟨before, source, after, -, ne, -, stop, -⟩ := h
  obtain ⟨c, source, rfl⟩ := List.exists_cons_of_ne_nil ne
  have := c.utf8Size_pos
  rw [stop, Text.byteLength_cons]
  omega

/-! ### Writing the tokens again -/

namespace Token

/-- Text in front of tokens can be told from what comes after it. -/
theorem isChain_joinText (apart : (tokens.map symbol).IsChain Symbol.Apart) (start stop : Nat)
    (piece : Text) : ((joinText start stop piece tokens).map symbol).IsChain Symbol.Apart := by
  rw [joinText.eq_def]
  split
  · rw [List.map_cons, List.isChain_cons] at apart ⊢
    refine ⟨fun next mem => ?_, apart.2⟩
    have := apart.1 next mem
    cases next <;> exact this
  · rename_i other
    refine List.isChain_cons.2 ⟨fun next mem => ?_, apart⟩
    obtain _ | ⟨⟨symbol, start', stop'⟩, later⟩ := tokens
    · cases mem
    · cases mem
      cases symbol <;> first | exact absurd rfl (other _ _ _ later) | trivial

/-- The first token is read from what the text opens with. -/
theorem head?_of_scanFrom (scanned : scanFrom pos rest = .ok tokens) :
    ∀ next ∈ (tokens.map symbol).head?, (∀ t, next ≠ .text t) → rest.head? = next.describe.head? := by
  cases tiled_of_scanFrom scanned with
  | nil => simp
  | @cons _ symbol source rest later own _ =>
    intro next mem other
    cases mem
    cases symbol with
    | text t => exact absurd rfl (other t)
    | _ =>
      rw [show source = _ from own]
      rfl

/-- A brace that is read alone has no brace of its kind after it. -/
theorem apart_of_alone {c : Char} {own next : Symbol} (found : symbolOf? c = some own)
    (alone : c = '{' ∨ c = '}' → rest.head? ≠ some c)
    (head : (∀ t, next ≠ .text t) → rest.head? = next.describe.head?) : own.Apart next := by
  unfold symbolOf? at found
  split at found <;> cases found
  case h_7 | h_8 =>
    have alone := alone (by simp)
    cases next <;> first | trivial | exact absurd (head (by simp)) alone
  all_goals cases next <;> trivial

/-- Symbols that are read next to each other can be told apart where they are written so. -/
theorem isChain_apart_of_scanFrom (h : scanFrom pos rest = .ok tokens) :
    (tokens.map symbol).IsChain Symbol.Apart := by
  fun_induction scanFrom pos rest generalizing tokens with
  | case1 pos =>
    cases h
    exact .nil
  | case2 => cases h
  | case3 pos c rest stop =>
    rename_i ih
    obtain ⟨later, scanned, rfl⟩ := ok_of_map h
    exact isChain_joinText (ih scanned) pos stop _
  | case4 pos rest ih | case5 pos rest ih =>
    obtain ⟨later, scanned, rfl⟩ := ok_of_map h
    exact List.isChain_cons.2 ⟨fun next _ => by cases next <;> trivial, ih scanned⟩
  | case6 pos c rest _ _ opens closes stop own found =>
    rename_i ih
    obtain ⟨later, scanned, rfl⟩ := ok_of_map h
    refine List.isChain_cons.2 ⟨fun next mem => ?_, ih scanned⟩
    refine apart_of_alone found (fun brace first => ?_) (head?_of_scanFrom scanned next mem)
    obtain ⟨rest, rfl⟩ := List.head?_eq_some_iff.1 first
    rcases brace with rfl | rfl
    · exact opens rest rfl rfl
    · exact closes rest rfl rfl
  | case7 pos c rest _ _ _ _ stop none =>
    rename_i ih
    obtain ⟨later, scanned, rfl⟩ := ok_of_map h
    exact isChain_joinText (ih scanned) pos stop _

/-- Tokens that can be told apart are read again, as the same symbols, from what they are written as. -/
theorem exists_scan_write (scanned : scan rest = .ok tokens) :
    ∃ again, scan (tokens.flatMap fun token => token.symbol.write) = .ok again ∧
      again.map symbol = tokens.map symbol := by
  have texts : .text [] ∉ tokens.map symbol := by
    intro mem
    obtain ⟨token, mem, empty⟩ := List.mem_map.1 mem
    exact texts_of_tiled (tiled_of_scanFrom scanned) token mem empty
  have written := exists_scanFrom_write texts (isChain_apart_of_scanFrom scanned) 0
  rwa [List.flatMap_map] at written

/-- Tokens that cover an expression from its first byte to its last. -/
structure Cover (expression : Text) (tokens : List Token) : Prop where
  cut : ∀ token ∈ tokens, token.start < token.stop ∧ token.IsCutFrom expression
  first : ∀ token ∈ tokens.head?, token.start = 0
  joined : tokens.IsChain fun token next => next.start = token.stop
  last : (tokens.getLast?.map Token.stop).getD 0 = expression.byteLength
  apart : TextsApart tokens

/-- An expression is refused exactly if it closes with an odd number of backslashes, at the last of
them. Otherwise its tokens cover it, and written one after the other they are read as the same symbols
again. -/
theorem scan_covers (expression : Text) :
    (∀ fault, scan expression = .error fault ↔ expression.closingSlashes % 2 = 1 ∧
      fault = ⟨.trailingEscape, expression.byteLength - 1, some ['\\']⟩) ∧
    (expression.closingSlashes % 2 = 0 → ∃ tokens, scan expression = .ok tokens ∧
      Cover expression tokens ∧
      ∃ again, scan (tokens.flatMap fun token => token.symbol.write) = .ok again ∧
        again.map symbol = tokens.map symbol) := by
  have refused (fault : Fault) : scan expression = .error fault ↔ expression.closingSlashes % 2 = 1 ∧
      fault = ⟨.trailingEscape, expression.byteLength - 1, some ['\\']⟩ := by
    rw [scan, scanFrom_eq_error_iff, Nat.zero_add]
  refine ⟨refused, fun even => ?_⟩
  cases scanned : scan expression with
  | error fault =>
    have odd := ((refused fault).1 scanned).1
    omega
  | ok tokens =>
    have tiled := tiled_of_scanFrom scanned
    obtain ⟨first, joined, last⟩ := tiled.contiguous
    have cut : ∀ token ∈ tokens, token.IsCutFrom ([] ++ expression) := tiled.isCutFrom rfl
    rw [Nat.zero_add] at last
    exact ⟨tokens, rfl, ⟨fun token mem => ⟨(cut token mem).start_lt_stop, cut token mem⟩, first, joined,
      last, textsApart_of_scanFrom scanned⟩, exists_scan_write scanned⟩

/-- With escapes, three braces in a row on either side and a character of two bytes. -/
theorem scan_covers_of_braces :
    Text.closingSlashes "\\^\\é {{{ n }}} \\\\".toList % 2 = 0 ∧
    ∃ tokens, scan "\\^\\é {{{ n }}} \\\\".toList = .ok tokens ∧
      Cover "\\^\\é {{{ n }}} \\\\".toList tokens ∧
      ∃ again, scan (tokens.flatMap fun token => token.symbol.write) = .ok again ∧
        again.map symbol = tokens.map symbol :=
  ⟨by decide, (scan_covers _).2 (by decide)⟩

end Token
end StepMatch
