import Pathologist.Preproc.Readers

/-!
# Raw string literals

In C++ a raw string literal is read as written from its opening quote on. Its encoding is
read like any other text, past line splices, and so is a suffix. A text that only begins
like one is read as if raw strings did not exist.
-/
open List Option
namespace Pathologist.Preproc

def rawPrefixes : List Text := ["R", "u8R", "uR", "UR", "LR"].map String.toList

/-- A text begins with the body of a raw string literal: the opening quote, a delimiter, a
parenthesis, and everything up to the end of the first closing sequence. -/
def RawBody (text body after : Text) : Prop :=
  ∃ delim inner : Text, delim.length ≤ 16 ∧ delim.all isDChar = true ∧
    body = '\x22' :: delim ++ '(' :: inner ++ (')' :: delim ++ ['\x22']) ∧ text = body ++ after ∧
    ∀ other, '\x22' :: delim ++ '(' :: other ++ (')' :: delim ++ ['\x22']) <+: text →
      inner.length ≤ other.length

/-- A raw string literal starts at a position: one of the prefixes, read past line splices, and
then a body as written. -/
structure RawLiteral (l enc body after : Text) : Prop where
  known : enc ∈ rawPrefixes
  opens : lookahead enc.length l = enc
  body : RawBody (advanceBy enc.length l) body after

/-- The token of a raw string literal: the prefix, the body as written and a suffix. -/
def rawToken (enc body after : Text) : TokenKind × Text :=
  let r := readUdSuffix .cpp (enc ++ body) (settle after)
  (.string r.1, r.2)

variable {l : Text}

/-- The first occurrence is found, whichever there is. -/
lemma exists_splitAfter {sought other : Text} (ho : other ++ sought <+: l) :
    ∃ r, splitAfter sought l = some r ∧ r.1.length ≤ (other ++ sought).length := by
  induction l generalizing other with
  | nil => simp_all [splitAfter]
  | cons c l ih =>
    simp only [splitAfter]
    split_ifs with hpre
    · exact ⟨_, rfl, by simp⟩
    cases other with
    | nil => exact hpre.elim <| isPrefixOf_iff_prefix.mpr ho
    | cons d other =>
      obtain ⟨r, hr, hle⟩ := ih (cons_prefix_cons.mp ho).2
      exact ⟨(c :: r.1, r.2), by rw [hr]; rfl, Nat.succ_le_succ hle⟩

/-- What is read as a body is one. -/
lemma rawBody_sound {body after : Text} (h : rawBody ('\x22' :: l) = some (body, after)) :
    RawBody ('\x22' :: l) body after := by
  simp only [rawBody] at h
  split_ifs at h with hd
  simp only [Bool.and_eq_true, contains_eq_mem, decide_eq_true_eq] at hd
  have hwhole := takeWhile_ne_append hd.1
  have hlen : ((l.take 17).takeWhile (· != '(')).length ≠ 17 := by
    intro hlen
    have hall := (takeWhile_sublist (· != '(') (l := l.take 17)).eq_of_length_le (by simp [hlen])
    have := all_eq_true.mp (all_takeWhile (p := (· != '(')) (l := l.take 17)) '('
      (by rw [hall]; exact hd.1)
    simp at this
  have hle := (takeWhile_sublist (· != '(') (l := l.take 17)).length_le
  set delim := (l.take 17).takeWhile (· != '(')
  obtain ⟨⟨a, b⟩, hs, heq⟩ := map_eq_some_iff.mp h
  obtain ⟨rfl, rfl⟩ := Prod.mk.inj heq
  obtain ⟨inner, rfl, hrest⟩ := splitAfter_eq_some hs
  refine ⟨delim, inner, by simp at hle; omega, hd.2, by simp, ?_, fun other ho => ?_⟩
  · conv_lhs => rw [hwhole, hrest]
    simp
  · rw [hwhole] at ho
    have hother : other ++ (')' :: delim ++ ['\x22']) <+: l.drop (delim.length + 1) := by
      simpa using ho
    obtain ⟨r, hr, hle⟩ := exists_splitAfter hother
    cases hs.symm.trans hr
    simpa using hle

lemma rawBody_isSome {text body after : Text} (h : RawBody text body after) :
    (rawBody text).isSome = true := by
  obtain ⟨delim, inner, hlen, hall, rfl, rfl, -⟩ := h
  set rest := inner ++ (')' :: delim ++ ['\x22']) ++ after with hr
  have htext : '\x22' :: delim ++ '(' :: inner ++ (')' :: delim ++ ['\x22']) ++ after =
      '\x22' :: (delim ++ '(' :: rest) := by simp [hr]
  have htake : (delim ++ '(' :: rest).take 17 = delim ++ '(' :: rest.take (16 - delim.length) := by
    rw [take_append, take_of_length_le (by omega), Nat.succ_sub hlen, take_succ_cons]
  have hdelim : (delim ++ '(' :: rest.take (16 - delim.length)).takeWhile (· != '(') = delim := by
    rw [takeWhile_append_of_pos, takeWhile_cons_of_neg (by simp), append_nil]
    intro c hc
    have hc := all_eq_true.mp hall c hc
    simp only [isDChar, Bool.and_eq_true] at hc
    exact hc.1.1.2
  have hdrop : (delim ++ '(' :: rest).drop (delim.length + 1) = rest := by
    rw [← drop_drop, drop_left]
    rfl
  obtain ⟨r, hs, -⟩ := exists_splitAfter (prefix_append (inner ++ (')' :: delim ++ ['\x22'])) after)
  rw [htext]
  simp only [rawBody]
  rw [htake, hdelim, if_pos (by simp [hall]), hdrop, hs]
  rfl

lemma peekAt_eq_headD (n : ℕ) : peekAt n l = (advanceBy n l).headD '\x00' := by
  induction n generalizing l with
  | zero => rfl
  | succ n ih => exact ih

lemma lookahead_eq_cons {n : ℕ} {c : Char} {s : Text} (hc : c ≠ '\x00') :
    lookahead (n + 1) l = c :: s ↔ peekAt 0 l = c ∧ lookahead n (advance l) = s := by
  cases l with
  | nil => simp [lookahead, peekAt, hc.symm]
  | cons d l => simp [lookahead, peekAt]

lemma opensRawString_iff : opensRawString l = true ↔ ∃ enc ∈ rawPrefixes,
    encodingLength l + 1 = enc.length ∧ lookahead enc.length l = enc ∧
      peekAt enc.length l = '\x22' := by
  unfold opensRawString encodingLength
  -- The three lengths of an encoding, against each prefix.
  split_ifs with hu8 hone <;>
    simp [rawPrefixes, lookahead_eq_cons, lookahead, peekAt] at * <;> grind

lemma encodingLength_of_lookahead {enc : Text} (hk : enc ∈ rawPrefixes)
    (hl : lookahead enc.length l = enc) : encodingLength l + 1 = enc.length := by
  simp only [rawPrefixes, map_cons, map_nil, mem_cons, not_mem_nil, or_false] at hk
  rcases hk with rfl | rfl | rfl | rfl | rfl <;>
    simp [lookahead_eq_cons, peekAt] at hl <;> simp [encodingLength, peekAt, hl]

lemma RawLiteral.attempt {enc body after : Text} (h : RawLiteral l enc body after) :
    opensRawString l = true ∧ (readRawString .cpp (encodingLength l) l).isSome = true := by
  have hlen := encodingLength_of_lookahead h.known h.opens
  refine ⟨opensRawString_iff.mpr ⟨enc, h.known, hlen, h.opens, ?_⟩, ?_⟩
  · obtain ⟨delim, inner, -, -, rfl, ht, -⟩ := h.body
    rw [peekAt_eq_headD, ht]
    rfl
  · rw [readRawString, hlen, isSome_map]
    exact rawBody_isSome h.body

lemma exists_rawLiteral (ho : opensRawString l = true) {r}
    (h : readRawString .cpp (encodingLength l) l = some r) :
    ∃ enc body after, RawLiteral l enc body after ∧ r = rawToken enc body after := by
  obtain ⟨enc, hk, hlen, hl, hq⟩ := opensRawString_iff.mp ho
  obtain ⟨⟨body, after⟩, hb, rfl⟩ := map_eq_some_iff.mp h
  rw [hlen] at hb ⊢
  refine ⟨enc, body, after, ⟨hk, hl, ?_⟩, by rw [hl]; rfl⟩
  rw [peekAt_eq_headD] at hq
  cases ht : advanceBy enc.length l with
  | nil => simp [ht] at hq
  | cons quote m =>
    obtain rfl : quote = '\x22' := by simpa [ht] using hq
    exact rawBody_sound (ht ▸ hb)

lemma lexToken_of_readRawString (ho : opensRawString l = true) {r}
    (h : readRawString .cpp (encodingLength l) l = some r) : lexToken .cpp l = some r := by
  have hread : readPrefixedLiteral .cpp l = some r := by
    rw [Lexer.readPrefixedLiteral_eq, if_pos ⟨rfl, ho⟩, h]
    rfl
  cases l with
  | nil => cases ho
  | cons c m =>
    have hc : c = 'R' ∨ c = 'u' ∨ c = 'U' ∨ c = 'L' := by
      by_contra hc
      simp only [not_or] at hc
      simp [opensRawString, encodingLength, peekAt, hc] at ho
    have hlex : lexToken .cpp (c :: m) =
        some ((readPrefixedLiteral .cpp (c :: m)).getD (readIdentifier (c :: m))) := by
      rcases hc with rfl | rfl | rfl | rfl <;> rfl
    rw [hlex, hread]
    rfl

namespace Lexer
variable {lx : Lexer}

/-- The token at a character that may begin an encoding, where there are no raw strings. -/
def lexWord (lx : Lexer) : TokenKind × Lexer :=
  match lx.readEncodedLiteral with
  | (some kind, lx) => (kind, lx)
  | (none, lx) => lx.readIdentifier

lemma lexToken_eq_lexWord {c : Char} {m : Text} (hrest : lx.rest = c :: m)
    (hc : c = 'R' ∨ c = 'u' ∨ c = 'U' ∨ c = 'L')
    (h : lx.readPrefixedLiteral lx.line lx.col = lx.readEncodedLiteral) :
    lx.lexToken lx.line lx.col = some lx.lexWord := by
  have hlex : lx.lexToken lx.line lx.col =
      match lx.readPrefixedLiteral lx.line lx.col with
      | (some kind, lx) => some (kind, lx)
      | (none, lx) => some lx.readIdentifier := by
    unfold lexToken
    rw [hrest]
    rcases hc with rfl | rfl | rfl | rfl <;> rfl
  rw [hlex, h, lexWord]
  rcases lx.readEncodedLiteral with ⟨_ | kind, next⟩ <;> rfl

/-- A raw string literal is read where there is one. Elsewhere an attempt to read one leaves the
lexer as it was, offset, line, column and splice index, and the text is read as if there were no
such literals. -/
theorem lexToken_raw (lx : Lexer) (hvalid : lx.Valid) (hcpp : lx.language = .cpp) :
    (∃ enc body after next, RawLiteral lx.rest enc body after ∧
      lx.lexToken lx.line lx.col = some ((rawToken enc body after).1, next) ∧
      Stands lx next (rawToken enc body after).2) ∨
    (¬ ∃ enc body after, RawLiteral lx.rest enc body after) ∧
      (opensRawString lx.rest = true →
        lx.readRawString (encodingLength lx.rest) lx.line lx.col = (none, lx)) ∧
      ∀ c m, lx.rest = c :: m → c = 'R' ∨ c = 'u' ∨ c = 'U' ∨ c = 'L' →
        lx.lexToken lx.line lx.col = some lx.lexWord := by
  by_cases hraw : opensRawString lx.rest = true ∧
      (Preproc.readRawString .cpp (encodingLength lx.rest) lx.rest).isSome = true
  · obtain ⟨hopens, hsome⟩ := hraw
    obtain ⟨r, hr⟩ := isSome_iff_exists.mp hsome
    obtain ⟨enc, body, after, hlit, rfl⟩ := exists_rawLiteral hopens hr
    have htoken := hvalid.lexToken
    rw [hcpp, lexToken_of_readRawString hopens hr] at htoken
    cases hlexer : lx.lexToken lx.line lx.col with
    | none => rw [hlexer] at htoken; cases htoken
    | some read =>
      rw [hlexer] at htoken
      cases htoken
      next hgives =>
      exact .inl ⟨enc, body, after, read.2, hlit, by rw [← hgives.value], hgives.stands⟩
  · have hattempt : opensRawString lx.rest = true →
        lx.readRawString (encodingLength lx.rest) lx.line lx.col = (none, lx) := by
      intro hopens
      have hread := hvalid.readRawString (encodingLength lx.rest)
      rw [hcpp, show Preproc.readRawString .cpp (encodingLength lx.rest) lx.rest = none by
        simpa [hopens] using hraw] at hread
      exact hread
    refine .inr ⟨?_, hattempt, fun c m hrest hc => lexToken_eq_lexWord hrest hc ?_⟩
    · rintro ⟨enc, body, after, hlit⟩
      exact hraw hlit.attempt
    · unfold readPrefixedLiteral
      split_ifs with hopens
      · rw [hattempt hopens.2]
      · rfl

/-- An attempt that fails past a splice, for want of a parenthesis. -/
theorem readRawString_restores :
    (new "R\\\n\"ab\"".toList .cpp).readRawString 0 1 1 =
      (none, new "R\\\n\"ab\"".toList .cpp) := by
  obtain ⟨hafter, -⟩ := after_new "R\\\n\"ab\"".toList .cpp
  rcases lexToken_raw _ hafter.valid rfl with ⟨enc, body, after, next, -, htoken, -⟩ | ⟨-, h, -⟩
  · have hkind : ((new "R\\\n\"ab\"".toList .cpp).lexToken 1 1).map Prod.fst =
        some (.identifier ['R']) := by decide +kernel
    cases (congrArg (Option.map Prod.fst) htoken).symm.trans hkind
  · exact h (by decide +kernel)

/-- The splice inside the prefix is not part of the spelling. -/
theorem lexToken_spliced_encoding :
    ((new "R\\\n\"(x)\"".toList .cpp).lexToken 1 1).map Prod.fst =
      some (.string "R\"(x)\"".toList) := by
  decide +kernel

end Lexer
end Pathologist.Preproc
