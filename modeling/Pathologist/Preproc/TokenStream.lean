import Pathologist.Preproc.Scanners

/-!
# The token stream of a text

Line splices put into a text, or taken out of it, leave its tokens and their adjacency as they
are, unless they stand inside another splice or inside a raw string literal.
-/
open List
namespace Pathologist.Preproc
open Token
open Expansion (Language)
open Lib.Loop (run)

/-- No splice of the text `a ++ b` has one part in `a` and the other in `b`. -/
def NoSpliceAcross (a b : Text) : Prop :=
  ∀ a₁ a₂ b₁ b₂, a = a₁ ++ a₂ → b = b₁ ++ b₂ → a₂ ≠ [] → b₁ ≠ [] → ¬ IsSplice (a₂ ++ b₁)

/-- One splice is put into a text, not inside another one. -/
inductive SpliceInserted : Text → Text → Prop
  | intro (a b s : Text) (hs : IsSplice s) (h : NoSpliceAcross a b) :
      SpliceInserted (a ++ b) (a ++ s ++ b)

lemma NoSpliceAcross.of_append {t a b : Text} (h : NoSpliceAcross (t ++ a) b) :
    NoSpliceAcross a b := by
  intro a₁ a₂ b₁ b₂ ha
  exact h (t ++ a₁) a₂ b₁ b₂ (by rw [ha, append_assoc])

/-- A splice at the start of a text ends before any later backslash. -/
lemma isSplice_of_append_backslash {t rest a b : Text} (ht : IsSplice t) (hne : a ≠ [])
    (h : t ++ rest = a ++ '\\' :: b) : ∃ k, a = t ++ k := by
  rcases append_eq_append_iff.mp h with ⟨k, hk, -⟩ | ⟨k, hk, hb⟩
  · exact ⟨k, hk⟩
  cases k with
  | nil => exact ⟨[], by simpa using hk.symm⟩
  | cons c k =>
    -- the splice would have a second backslash
    obtain rfl : '\\' = c := (cons.inj hb).1
    obtain ⟨x, a, rfl⟩ := exists_cons_of_ne_nil hne
    obtain ⟨blanks, cr, hblanks, hcr, rfl⟩ := ht
    have hmem : '\\' ∈ blanks ++ cr ++ ['\n'] := by
      have htail : blanks ++ cr ++ ['\n'] = a ++ '\\' :: k := (cons.inj hk).2
      rw [htail]
      simp
    simp only [mem_append] at hmem
    rcases hmem with (hmem | hmem) | hmem
    · exact absurd (hblanks _ hmem) (by decide)
    · rcases hcr with rfl | rfl
      · exact absurd hmem (by simp)
      · exact absurd hmem (by decide)
    · exact absurd hmem (by decide)

lemma stripSplices_insert {s : Text} (hs : IsSplice s) (a b : Text) (h : NoSpliceAcross a b) :
    stripSplices (a ++ s ++ b) = stripSplices (a ++ b) := by
  induction hn : a.length using Nat.strong_induction_on generalizing a with
  | _ n ih =>
  subst hn
  cases a with
  | nil => exact stripSplices_of_splice (spliceRest_append hs b)
  | cons c a =>
    cases hsplice : spliceRest (c :: a ++ b) with
    | some rest =>
      obtain ⟨t, ht, hab⟩ := spliceRest_eq_some hsplice
      have hinside : ∃ k, c :: a = t ++ k := by
        rcases append_eq_append_iff.mp hab with ⟨k, hk, hb⟩ | ⟨k, hk, -⟩
        · cases k with
          | nil => exact ⟨[], by simpa using hk.symm⟩
          | cons x k =>
            exact absurd (hk ▸ ht) (h [] (c :: a) (x :: k) rest rfl hb (by simp) (by simp))
        · exact ⟨k, hk⟩
      obtain ⟨k, hk⟩ := hinside
      rw [hk] at h ⊢
      have hlt : k.length < (c :: a).length := by
        obtain ⟨blanks, cr, -, -, rfl⟩ := ht
        rw [hk]
        simp only [length_append, length_cons]
        omega
      have ih := ih k.length hlt k h.of_append rfl
      rw [append_assoc t k s, append_assoc t (k ++ s) b, append_assoc t k b,
        stripSplices_of_splice (spliceRest_append ht _),
        stripSplices_of_splice (spliceRest_append ht _), ih]
    | none =>
      have hnone : spliceRest (c :: (a ++ s ++ b)) = none := by
        by_contra hsome
        obtain ⟨rest, hr⟩ := Option.ne_none_iff_exists'.mp hsome
        obtain ⟨t, ht, hab⟩ := spliceRest_eq_some hr
        obtain ⟨k, hk⟩ : ∃ k, c :: a = t ++ k := by
          obtain ⟨blanks, cr, -, -, rfl⟩ := hs
          have hat : t ++ rest = c :: a ++ '\\' :: (blanks ++ (cr ++ '\n' :: b)) := by
            rw [← hab]
            simp
          exact isSplice_of_append_backslash ht (cons_ne_nil c a) hat
        rw [hk, append_assoc, spliceRest_append ht] at hsplice
        exact absurd hsplice (by simp)
      have ih := ih a.length (Nat.lt_succ_self _) a (h.of_append (t := [c])) rfl
      rw [cons_append] at hsplice
      rw [cons_append, cons_append, cons_append, stripSplices_cons hnone,
        stripSplices_cons hsplice, ih]

lemma stripSplices_eq_of_inserted {l l' : Text} (h : Relation.EqvGen SpliceInserted l l') :
    stripSplices l = stripSplices l' := by
  induction h with
  | rel l l' h =>
    obtain ⟨a, b, s, hs, h⟩ := h
    exact (stripSplices_insert hs a b h).symm
  | refl => rfl
  | symm _ _ _ ih => exact ih.symm
  | trans _ _ _ _ _ ih ih' => exact ih.trans ih'

/-- A state the lexer comes to on a text. -/
inductive LexState.Reached (language : Language) (input : Text) : LexState → Prop
  | start : Reached language input { rest := settle input }
  | next {s t : LexState} (hs : Reached language input s) (h : s.next language input = some t) :
      Reached language input t

/-- Where the lexer comes to a raw string literal in both texts, with the same text to come, the
literal is written the same in both. -/
def RawStringsAgree (l l' : Text) : Prop :=
  ∀ s s', LexState.Reached .cpp l s → LexState.Reached .cpp l' s' →
    Same (tokenStart .cpp s.rest) (tokenStart .cpp s'.rest) →
    rawLiteral (tokenStart .cpp s.rest) = rawLiteral (tokenStart .cpp s'.rest)

/-- What a token is, and whether it touches the one before. -/
def Token.face (t : Token) : TokenKind × Bool := (t.kind, t.adjacentBefore)

/-- States of the lexer over two texts that differ in splices. -/
structure LexState.Alike (language : Language) (l l' : Text) (s s' : LexState) : Prop where
  reached : s.Reached language l
  reached' : s'.Reached language l'
  faces : s.tokens.map face = s'.tokens.map face
  rest : Same s.rest s'.rest
  afterNewline : s.afterNewline = s'.afterNewline

namespace LexState
variable {language : Language} {l l' : Text} {s s' : LexState}

lemma ended_eq (h : s.tokens.map face = s'.tokens.map face) :
    s.tokens.getLast?.any isEof = s'.tokens.getLast?.any isEof := by
  have hlast := congrArg (fun faces => faces.getLast?.any fun f => f.1 == .eof) h
  simp only [getLast?_map, Option.any_map] at hlast
  exact hlast

/-- The tokens left to read: the end of the text is one. -/
def left (s : LexState) : ℕ :=
  if s.tokens.getLast?.any isEof then 0 else s.rest.length + 1

lemma next_left {t : LexState} (h : s.next language l = some t) : t.left < s.left := by
  unfold next at h
  split at h
  · exact absurd h (by simp)
  next hl =>
  obtain ⟨r, hr, rfl⟩ := Option.map_eq_some_iff.mp h
  have hstart := (reads_tokenStart language s.rest).length_le
  rw [left, left]
  split
  · omega
  next heof =>
  have hlt := lexToken_lt hr fun heq => heof (by simp [isEof, new, heq])
  simp only
  omega

/-- One token is read the same over both texts. -/
lemma Alike.next (hraw : language = .cpp → RawStringsAgree l l') (h : Alike language l l' s s') :
    Option.Rel (Alike language l l') (s.next language l) (s'.next language l') := by
  have hstart := @tokenStart_same language _ _ h.rest
  have htoken : Option.Rel SameRead (lexToken language (tokenStart language s.rest))
      (lexToken language (tokenStart language s'.rest)) := by
    refine lexToken_same hstart fun hcpp => ?_
    subst hcpp
    exact hraw rfl s s' h.reached h.reached' hstart
  have hadjacent : ((tokenStart language s.rest).length == s.rest.length) =
      ((tokenStart language s'.rest).length == s'.rest.length) := by
    rw [Bool.eq_iff_iff, beq_iff_eq, beq_iff_eq,
      (reads_tokenStart language s.rest).length_eq_iff h.rest.left,
      (reads_tokenStart language s'.rest).length_eq_iff h.rest.right, hstart.view, h.rest.view]
  have hreach := fun t => LexState.Reached.next (t := t) h.reached
  have hrea' := fun t => LexState.Reached.next (t := t) h.reached'
  simp only [LexState.next, ended_eq h.faces] at hreach hrea' ⊢
  split
  · exact .none
  next hl =>
  simp only [hl, Bool.false_eq_true] at hreach hrea'
  cases hr : lexToken language (tokenStart language s.rest) with
  | none =>
    rw [hr] at htoken
    rw [Lib.Loop.eq_none_of_rel htoken]
    exact .none
  | some r =>
    cases hr' : lexToken language (tokenStart language s'.rest) with
    | none => rw [hr, hr'] at htoken; cases htoken
    | some r' =>
      rw [hr, hr'] at htoken
      simp only [hr, hr'] at hreach hrea' ⊢
      cases htoken with
      | some hread =>
        refine .some ⟨hreach _ rfl, hrea' _ rfl, ?_, hread.rest, ?_⟩
        · simp [h.faces, face, new, hread.value, hadjacent, h.afterNewline]
        · simp [isNewline, new, hread.value]

/-- The lexer stays at positions that reading a token does not leave. -/
lemma Reached.rest_mem {rests : List Text} (hstart : settle l ∈ rests)
    (hread : ∀ rest ∈ rests, ∀ r ∈ lexToken language (tokenStart language rest), r.2 ∈ rests)
    (h : s.Reached language l) : s.rest ∈ rests := by
  induction h with
  | start => exact hstart
  | next hs h ih =>
    unfold LexState.next at h
    split at h
    · exact absurd h (by simp)
    · obtain ⟨r, hr, rfl⟩ := Option.map_eq_some_iff.mp h
      exact hread _ ih r hr

end LexState

/-- Splices put in and taken out, none inside another and none inside a raw string literal, leave
the tokens and their adjacency as they are. -/
theorem tokenize_respliced (language : Language) {l l' : Text}
    (h : Relation.EqvGen SpliceInserted l l') (hraw : language = .cpp → RawStringsAgree l l') :
    (tokenize language l).map Token.face = (tokenize language l').map Token.face := by
  have hstart : LexState.Alike language l l' { rest := settle l } { rest := settle l' } :=
    ⟨.start, .start, rfl, same_settle (stripSplices_eq_of_inserted h), rfl⟩
  have hfuel (l : Text) : LexState.left { rest := settle l } ≤ l.length + 1 :=
    Nat.succ_le_succ (length_settle_le l)
  exact (Lib.Loop.run_rel (fun _ _ => LexState.next_left) (fun _ _ => LexState.next_left)
    (fun _ _ => LexState.Alike.next hraw) (hfuel l) (hfuel l') hstart).faces

/-- A splice in an identifier before a raw string literal in C++. -/
theorem tokenize_respliced_identifier : (tokenize .cpp "in\\\nt R\"(x)\"".toList).map Token.face =
      (tokenize .cpp "int R\"(x)\"".toList).map Token.face := by
  refine tokenize_respliced .cpp (.symm _ _ (.rel _ _ (SpliceInserted.intro "in".toList
    "t R\"(x)\"".toList "\\\n".toList ⟨[], [], by simp, .inl rfl, rfl⟩ ?_))) fun _ => ?_
  · rintro a₁ a₂ b₁ b₂ ha - hne - ⟨blanks, cr, -, -, hsplice⟩
    obtain ⟨c, a₂, rfl⟩ := exists_cons_of_ne_nil hne
    have hc : c ∈ "in".toList := ha ▸ mem_append_right a₁ mem_cons_self
    obtain rfl : c = '\\' := (cons.inj hsplice).1
    exact absurd hc (by decide)
  intro s s' hs hs' hsame
  have hrest : s.rest ∈ ["in\\\nt R\"(x)\"".toList, " R\"(x)\"".toList, []] :=
    hs.rest_mem (by decide +kernel) (by decide +kernel)
  have hrest' : s'.rest ∈ ["int R\"(x)\"".toList, " R\"(x)\"".toList, []] :=
    hs'.rest_mem (by decide +kernel) (by decide +kernel)
  have hraw : ∀ p ∈ ["in\\\nt R\"(x)\"".toList, " R\"(x)\"".toList, []],
      ∀ p' ∈ ["int R\"(x)\"".toList, " R\"(x)\"".toList, []],
      stripSplices (tokenStart .cpp p) = stripSplices (tokenStart .cpp p') →
      rawLiteral (tokenStart .cpp p) = rawLiteral (tokenStart .cpp p') := by
    decide +kernel
  exact hraw _ hrest _ hrest' hsame.view

/-- A splice put between the backslash and the newline of another breaks it. -/
theorem tokenize_splice_in_splice : IsSplice "\\\n".toList ∧
    (tokenize .c ("a\\".toList ++ "\nb".toList)).map Token.face ≠
      (tokenize .c ("a\\".toList ++ "\\\n".toList ++ "\nb".toList)).map Token.face :=
  ⟨⟨[], [], by simp, .inl rfl, rfl⟩, by decide +kernel⟩

end Pathologist.Preproc
