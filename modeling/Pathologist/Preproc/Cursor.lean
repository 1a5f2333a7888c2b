import Pathologist.Preproc.Splices

/-!
# Where the lexer stands

The lexer keeps an offset into its input, the line and column there, and an index into the list
of all line splices, which is found once up front, so that it need not look at the text to know
where the next splice is. The offset is never on a splice, the index is that of the first splice
at or after it, and line and column are those of the text before it. What is read is then what
the rest of the text gives, and a lexer that is put back where it was is the lexer it was.

Offsets count characters.
-/
open List
namespace Pathologist.Preproc
open Expansion (Language)
open Lib.Loop (run)

/-- The length of the line splice at an offset, 0 if there is none. -/
def spliceLen (input : Text) (pos : ℕ) : ℕ :=
  match spliceRest (input.drop pos) with
  | some rest => (input.drop pos).length - rest.length
  | none => 0

/-- The offsets of the line splices from an offset on, ascending. -/
def splicesFrom (input : Text) (pos : ℕ) : List ℕ :=
  (range' pos (input.length - pos)).filter fun i => 0 < spliceLen input i

def findSplices (input : Text) : List ℕ := splicesFrom input 0

/-- How many of the ascending offsets lie before `pos`. -/
def partitionPoint (offsets : List ℕ) (pos : ℕ) : ℕ := (offsets.takeWhile (· < pos)).length

structure Lexer where
  input : Text
  pos : ℕ := 0
  line : ℕ := 1
  col : ℕ := 1
  splices : List ℕ
  /-- The splice that the index names, absent once they are used up. -/
  nextSplice : Option ℕ := none
  spliceIdx : ℕ := 0
  afterNewline : Bool := true
  language : Language
  deriving DecidableEq

namespace Lexer

/-- The text from the current position on. -/
def rest (lx : Lexer) : Text := lx.input.drop lx.pos

/-- Consume `ch`, the character at the current position. -/
def step (ch : Char) (lx : Lexer) : Lexer :=
  { lx with
    pos := lx.pos + 1
    line := if ch = '\n' then lx.line + 1 else lx.line
    col := if ch = '\n' then 1 else lx.col + 1 }

def aimNextSplice (lx : Lexer) : Lexer := { lx with nextSplice := lx.splices[lx.spliceIdx]? }

def skipStep (lx : Lexer) : Option Lexer :=
  if lx.nextSplice = some lx.pos then
    some { lx with
      pos := lx.pos + spliceLen lx.input lx.pos, line := lx.line + 1, col := 1
      spliceIdx := lx.spliceIdx + 1 }.aimNextSplice
  else none

/-- Delete the splices at the current position. Each has a character at least. -/
def skipSplices (lx : Lexer) : Lexer := run skipStep lx.rest.length lx

/-- Aim at the next splice after the position has been moved, and delete those found there. -/
def resyncSplices (lx : Lexer) : Lexer :=
  { lx with spliceIdx := partitionPoint lx.splices lx.pos }.aimNextSplice.skipSplices

def advanceChar (lx : Lexer) : Lexer :=
  match lx.rest with
  | [] => lx
  | ch :: _ =>
    let next := lx.step ch
    if next.nextSplice = some next.pos then next.skipSplices else next

/-- Go back to `pos`, a position that was left from this line and column. -/
def rewind (pos line col : ℕ) (lx : Lexer) : Lexer := { lx with pos, line, col }.resyncSplices

def stepBy : ℕ → Lexer → Lexer
  | 0, lx => lx
  | n + 1, lx => stepBy n (lx.step (lx.rest.headD '\x00'))

/-- Step over text as written, splices included. -/
def advancePhysical (n : ℕ) (lx : Lexer) : Lexer := (lx.stepBy n).resyncSplices

def new (input : Text) (language : Language) : Lexer :=
  { input, splices := findSplices input, language : Lexer }.resyncSplices

end Lexer

/-! ## The splices of a text -/

section Splices
variable {input rest : Text} {pos : ℕ}

lemma spliceLen_pos_iff : 0 < spliceLen input pos ↔ spliceRest (input.drop pos) ≠ none := by
  unfold spliceLen
  cases h : spliceRest (input.drop pos) with
  | none => simp
  | some rest =>
    have := length_spliceRest h
    simp only [ne_eq, reduceCtorEq, not_false_iff, iff_true]
    omega

lemma lt_length_of_spliceRest (h : spliceRest (input.drop pos) ≠ none) : pos < input.length := by
  by_contra hpos
  rw [drop_eq_nil_of_le (by omega)] at h
  exact h rfl

lemma splicesFrom_of_none (h : spliceRest (input.drop pos) = none) :
    splicesFrom input pos = splicesFrom input (pos + 1) := by
  by_cases hpos : pos < input.length
  · rw [splicesFrom, show input.length - pos = input.length - (pos + 1) + 1 by omega, range'_succ,
      filter_cons_of_neg]
    · rfl
    · simpa [spliceLen_pos_iff] using h
  · rw [splicesFrom, splicesFrom, show input.length - pos = 0 by omega,
      show input.length - (pos + 1) = 0 by omega]
    rfl

/-- No splice starts where there is no backslash. -/
lemma splicesFrom_of_append {plain : Text} (h : input.drop pos = plain ++ rest)
    (hplain : '\\' ∉ plain) : splicesFrom input pos = splicesFrom input (pos + plain.length) := by
  induction plain generalizing pos with
  | nil => rfl
  | cons c plain ih =>
    have hc : c ≠ '\\' := fun hc => hplain (hc ▸ mem_cons_self)
    have hnone : spliceRest (input.drop pos) = none := by rw [h]; simp [spliceRest, hc]
    have htail : input.drop (pos + 1) = plain ++ rest := by rw [← drop_drop, h]; rfl
    rw [splicesFrom_of_none hnone, ih htail fun hm => hplain (mem_cons_of_mem c hm), length_cons]
    congr 1
    omega

lemma spliceLen_of_append {s : Text} (h : spliceRest (input.drop pos) = some rest)
    (heq : input.drop pos = s ++ rest) : spliceLen input pos = s.length := by
  rw [spliceLen, h, heq]
  simp

lemma drop_spliceLen (h : spliceRest (input.drop pos) = some rest) :
    input.drop (pos + spliceLen input pos) = rest := by
  obtain ⟨s, -, heq⟩ := spliceRest_eq_some h
  rw [← drop_drop, heq, spliceLen_of_append h heq, drop_left]

lemma splicesFrom_of_splice (h : spliceRest (input.drop pos) = some rest) :
    splicesFrom input pos = pos :: splicesFrom input (pos + spliceLen input pos) := by
  obtain ⟨s, ⟨blanks, cr, hblanks, hcr, rfl⟩, heq⟩ := spliceRest_eq_some h
  have hpos : pos < input.length := lt_length_of_spliceRest (by simp [h])
  have hhead : splicesFrom input pos = pos :: splicesFrom input (pos + 1) := by
    rw [splicesFrom, show input.length - pos = input.length - (pos + 1) + 1 by omega, range'_succ,
      filter_cons_of_pos]
    · rfl
    · simp [spliceLen_pos_iff, h]
  have hlen : spliceLen input pos = 1 + (blanks ++ cr ++ ['\n']).length := by
    rw [spliceLen_of_append h heq]
    simp
    omega
  have htail : input.drop (pos + 1) = (blanks ++ cr ++ ['\n']) ++ rest := by
    rw [← drop_drop, heq]
    simp
  -- the backslash is the first character of a splice and no other
  have hplain : '\\' ∉ blanks ++ cr ++ ['\n'] := by
    have hmem : '\\' ∉ blanks := fun hm => absurd (hblanks _ hm) (by decide)
    rcases hcr with rfl | rfl <;> simp [hmem]
  rw [hhead, splicesFrom_of_append htail hplain, hlen, Nat.add_assoc]

lemma le_of_mem_splicesFrom {i : ℕ} (h : i ∈ splicesFrom input pos) : pos ≤ i :=
  (mem_range'_1.mp (mem_of_mem_filter h)).1

lemma head?_splicesFrom :
    (splicesFrom input pos).head? = some pos ↔ spliceRest (input.drop pos) ≠ none := by
  cases h : spliceRest (input.drop pos) with
  | some rest => simp [splicesFrom_of_splice h]
  | none =>
    rw [splicesFrom_of_none h]
    simp only [ne_eq, not_true_eq_false, iff_false]
    intro hhead
    have := le_of_mem_splicesFrom (mem_of_mem_head? hhead)
    omega

lemma drop_partitionPoint (h : pos ≤ input.length) :
    (findSplices input).drop (partitionPoint (findSplices input) pos) = splicesFrom input pos := by
  have hsplit : findSplices input =
      ((range' 0 pos).filter fun i => 0 < spliceLen input i) ++ splicesFrom input pos := by
    rw [findSplices, splicesFrom, splicesFrom, ← filter_append]
    congr 1
    have := range'_append_1 (s := 0) (m := pos) (n := input.length - pos)
    rw [Nat.zero_add] at this
    rw [this]
    congr 1
    omega
  have htake : (splicesFrom input pos).takeWhile (· < pos) = [] := by
    cases hs : splicesFrom input pos with
    | nil => rfl
    | cons i l =>
      have := le_of_mem_splicesFrom (hs ▸ mem_cons_self : i ∈ splicesFrom input pos)
      rw [takeWhile_cons_of_neg (by simpa using this)]
  rw [hsplit, partitionPoint, takeWhile_append_of_pos, htake, append_nil, drop_left]
  intro i hi
  have := mem_range'_1.mp (mem_of_mem_filter hi)
  simpa using this.2

lemma partitionPoint_le (offsets : List ℕ) : partitionPoint offsets pos ≤ offsets.length :=
  (takeWhile_sublist _).length_le

/-- The index that goes with the splices from an offset on. -/
lemma partitionPoint_add_length (h : pos ≤ input.length) :
    partitionPoint (findSplices input) pos + (splicesFrom input pos).length =
      (findSplices input).length := by
  have hle : partitionPoint (findSplices input) pos ≤ (findSplices input).length :=
    partitionPoint_le _
  rw [← drop_partitionPoint h, length_drop]
  omega

end Splices

/-! ## The lexer's invariant -/

namespace Lexer

/-- The offset is one of the input, and line and column are those of the text before it. -/
structure Placed (lx : Lexer) : Prop where
  le : lx.pos ≤ lx.input.length
  splices : lx.splices = findSplices lx.input
  place : (lx.line, lx.col) = placeOf lx.input lx.rest

/-- The index names the first splice at or after the current position. -/
structure Aimed (lx : Lexer) : Prop extends Placed lx where
  index : lx.spliceIdx = partitionPoint lx.splices lx.pos
  next : lx.nextSplice = lx.splices[lx.spliceIdx]?

structure Valid (lx : Lexer) : Prop extends Aimed lx where
  settled : spliceRest lx.rest = none

/-- The same lexer at the same position or further on. -/
structure Ahead (lx lx' : Lexer) : Prop where
  input : lx'.input = lx.input
  splices : lx'.splices = lx.splices
  afterNewline : lx'.afterNewline = lx.afterNewline
  language : lx'.language = lx.language
  le : lx.pos ≤ lx'.pos

/-- What reading on gives. -/
structure After (lx lx' : Lexer) : Prop extends Ahead lx lx' where
  valid : lx'.Valid

variable {lx lx' : Lexer} {ch : Char} {m : Text}

lemma Ahead.refl (lx : Lexer) : Ahead lx lx := ⟨rfl, rfl, rfl, rfl, le_rfl⟩

lemma Ahead.trans {lx'' : Lexer} (h : Ahead lx lx') (h' : Ahead lx' lx'') : Ahead lx lx'' where
  input := h'.input.trans h.input
  splices := h'.splices.trans h.splices
  afterNewline := h'.afterNewline.trans h.afterNewline
  language := h'.language.trans h.language
  le := h.le.trans h'.le

lemma Valid.after (h : lx.Valid) : After lx lx := ⟨.refl lx, h⟩

lemma After.trans {lx'' : Lexer} (h : After lx lx') (h' : After lx' lx'') : After lx lx'' :=
  ⟨h.toAhead.trans h'.toAhead, h'.valid⟩

lemma Aimed.drop_splices (h : lx.Aimed) :
    lx.splices.drop lx.spliceIdx = splicesFrom lx.input lx.pos := by
  rw [h.index, h.splices, drop_partitionPoint h.le]

lemma Aimed.nextSplice_eq (h : lx.Aimed) :
    lx.nextSplice = (splicesFrom lx.input lx.pos).head? := by
  rw [h.next, ← h.drop_splices, head?_drop]

lemma Aimed.nextSplice_iff (h : lx.Aimed) :
    lx.nextSplice = some lx.pos ↔ spliceRest lx.rest ≠ none := by
  rw [h.nextSplice_eq, head?_splicesFrom]
  rfl

lemma Aimed.valid (h : lx.Aimed) (hne : lx.nextSplice ≠ some lx.pos) : lx.Valid :=
  ⟨h, by by_contra hs; exact hne (h.nextSplice_iff.mpr hs)⟩

lemma placeOf_rest (h : lx.pos ≤ lx.input.length) : placeOf lx.input lx.rest =
    ((lx.input.take lx.pos).count '\n' + 1,
      ((lx.input.take lx.pos).reverse.takeWhile (· != '\n')).length + 1) := by
  have hslice : slice lx.input lx.rest = lx.input.take lx.pos := by
    rw [slice, rest, length_drop]
    congr 1
    omega
  rw [placeOf, hslice]

/-- Line and column after a text without newlines and a newline. -/
lemma place_append_newline (before line : Text) (h : '\n' ∉ line) :
    ((before ++ (line ++ ['\n'])).count '\n' + 1,
      ((before ++ (line ++ ['\n'])).reverse.takeWhile (· != '\n')).length + 1) =
      (before.count '\n' + 1 + 1, 1) := by
  simp [count_eq_zero.mpr h]

lemma take_of_rest {text : Text} (h : lx.rest = text ++ m) :
    lx.input.take (lx.pos + text.length) = lx.input.take lx.pos ++ text := by
  rw [take_add, ← rest, h, take_left]

lemma Placed.step (h : lx.Placed) (hrest : lx.rest = ch :: m) :
    (lx.step ch).Placed ∧ (lx.step ch).rest = m := by
  have hlt : lx.pos < lx.input.length := by
    by_contra hpos
    rw [rest, drop_eq_nil_of_le (by omega)] at hrest
    cases hrest
  have hdrop : lx.input.drop (lx.pos + 1) = m := by rw [← drop_drop, ← rest, hrest]; rfl
  have htake : lx.input.take (lx.pos + [ch].length) = lx.input.take lx.pos ++ [ch] :=
    take_of_rest hrest
  obtain ⟨hline, hcol⟩ := Prod.mk.inj (h.place.trans (placeOf_rest h.le))
  refine ⟨⟨hlt, h.splices, ?_⟩, hdrop⟩
  rw [placeOf_rest (by exact hlt)]
  change (if ch = '\n' then lx.line + 1 else lx.line, if ch = '\n' then 1 else lx.col + 1) =
    ((lx.input.take (lx.pos + 1)).count '\n' + 1, _)
  rw [show lx.pos + 1 = lx.pos + [ch].length from rfl]
  dsimp only [Lexer.step]
  rw [show lx.pos + 1 = lx.pos + [ch].length from rfl, htake, hline, hcol]
  split_ifs with hnl
  · rw [hnl]
    exact (place_append_newline (lx.input.take lx.pos) [] not_mem_nil).symm
  · simp [hnl]

lemma ahead_step (ch : Char) (lx : Lexer) : Ahead lx (lx.step ch) :=
  ⟨rfl, rfl, rfl, rfl, Nat.le_succ _⟩

lemma Valid.aimed_step (h : lx.Valid) (hrest : lx.rest = ch :: m) : (lx.step ch).Aimed := by
  have hplaced := (h.toPlaced.step hrest).1
  have hadd := partitionPoint_add_length h.le
  have hadd' := partitionPoint_add_length hplaced.le
  change partitionPoint (findSplices lx.input) (lx.pos + 1) +
    (splicesFrom lx.input (lx.pos + 1)).length = _ at hadd'
  have hindex : partitionPoint lx.splices lx.pos = partitionPoint lx.splices (lx.pos + 1) := by
    rw [h.splices]
    rw [splicesFrom_of_none h.settled] at hadd
    exact Nat.add_right_cancel (hadd.trans hadd'.symm)
  exact ⟨hplaced, h.index.trans hindex, h.next⟩

lemma Aimed.skipStep_some (h : lx.Aimed) {rest' : Text} (hrest : spliceRest lx.rest = some rest') :
    ∃ next, lx.skipStep = some next ∧ next.Aimed ∧ next.rest = rest' := by
  have hnext : lx.nextSplice = some lx.pos := h.nextSplice_iff.mpr (by simp [hrest])
  obtain ⟨s, ⟨blanks, cr, hblanks, hcr, rfl⟩, heq⟩ := spliceRest_eq_some hrest
  have hlen : spliceLen lx.input lx.pos = ('\\' :: blanks ++ cr ++ ['\n']).length :=
    spliceLen_of_append hrest heq
  have hdrop : lx.input.drop (lx.pos + spliceLen lx.input lx.pos) = rest' := drop_spliceLen hrest
  have hle : lx.pos + spliceLen lx.input lx.pos ≤ lx.input.length := by
    have hlength := congrArg List.length heq
    have := h.le
    rw [rest, length_drop, length_append, ← hlen] at hlength
    omega
  refine ⟨_, if_pos hnext, ⟨⟨hle, h.splices, ?_⟩, ?_, rfl⟩, hdrop⟩
  · -- a splice has one newline, its last character
    obtain ⟨hline, -⟩ := Prod.mk.inj (h.place.trans (placeOf_rest h.le))
    rw [placeOf_rest (by exact hle)]
    change (lx.line + 1, 1) = ((lx.input.take (lx.pos + spliceLen lx.input lx.pos)).count '\n' + 1,
      ((lx.input.take (lx.pos + spliceLen lx.input lx.pos)).reverse.takeWhile _).length + 1)
    rw [hlen, take_of_rest heq, hline]
    refine (place_append_newline _ ('\\' :: blanks ++ cr) ?_).symm
    have hmem : '\n' ∉ blanks := fun hm => absurd (hblanks _ hm) (by decide)
    rcases hcr with rfl | rfl <;> simp [hmem]
  · change lx.spliceIdx + 1 = partitionPoint lx.splices (lx.pos + spliceLen lx.input lx.pos)
    have hadd := partitionPoint_add_length h.le
    have hadd' := partitionPoint_add_length hle
    rw [splicesFrom_of_splice hrest, length_cons] at hadd
    rw [h.index, h.splices]
    omega

lemma Aimed.skipStep_map (h : lx.Aimed) : lx.skipStep.map rest = spliceRest lx.rest := by
  cases hrest : spliceRest lx.rest with
  | none =>
    have hnext : lx.nextSplice ≠ some lx.pos := fun hn => h.nextSplice_iff.mp hn hrest
    rw [skipStep, if_neg hnext]
    rfl
  | some rest' =>
    obtain ⟨next, hskip, -, hnext⟩ := h.skipStep_some hrest
    rw [hskip, Option.map_some, hnext]

/-- The splices at the current position are deleted. -/
lemma Aimed.skipSplices (h : lx.Aimed) :
    After lx lx.skipSplices ∧ lx.skipSplices.rest = settle lx.rest := by
  have hstep : ∀ s t, s.Aimed ∧ Ahead lx s → s.skipStep = some t → t.Aimed ∧ Ahead lx t := by
    rintro s t ⟨hs, hahead⟩ ht
    obtain ⟨r, hr⟩ : ∃ r, spliceRest s.rest = some r :=
      ⟨t.rest, by rw [← hs.skipStep_map, ht]; rfl⟩
    obtain ⟨next, hskip, haimed, -⟩ := hs.skipStep_some hr
    obtain rfl : next = t := Option.some.inj (hskip.symm.trans ht)
    refine ⟨haimed, hahead.trans ?_⟩
    rw [skipStep] at hskip
    split_ifs at hskip
    cases hskip
    exact ⟨rfl, rfl, rfl, rfl, Nat.le_add_right _ _⟩
  have hend : lx.skipSplices.Aimed ∧ Ahead lx lx.skipSplices :=
    Lib.Loop.run_invariant hstep _ ⟨h, .refl lx⟩
  have hrest : lx.skipSplices.rest = settle lx.rest := by
    rw [settle, skipSplices_eq]
    exact Lib.Loop.run_map hstep (fun s hs => hs.1.skipStep_map) _ ⟨h, .refl lx⟩
  exact ⟨⟨hend.2, hend.1, by rw [hrest, spliceRest_settle]⟩, hrest⟩

lemma settle_of_none {l : Text} (h : spliceRest l = none) : settle l = l := by
  unfold settle
  cases l with
  | nil => rfl
  | cons c l => simp [Preproc.skipSplices, h]

/-- One character is consumed. -/
lemma Valid.advanceChar (h : lx.Valid) :
    After lx lx.advanceChar ∧ lx.advanceChar.rest = advance lx.rest := by
  unfold Lexer.advanceChar
  cases hrest : lx.rest with
  | nil => exact ⟨h.after, hrest⟩
  | cons ch m =>
    have haimed := h.aimed_step hrest
    have hm : (lx.step ch).rest = m := (h.toPlaced.step hrest).2
    have hahead := ahead_step ch lx
    dsimp only [advance]
    split_ifs with hnext
    · obtain ⟨hafter, hsettle⟩ := haimed.skipSplices
      exact ⟨⟨hahead.trans hafter.toAhead, hafter.valid⟩, by rw [hsettle, hm]⟩
    · have hvalid := haimed.valid hnext
      exact ⟨⟨hahead, hvalid⟩, by rw [hm, settle_of_none (hm ▸ hvalid.settled)]⟩

/-- From wherever it was put, the lexer aims at the next splice again. -/
lemma Placed.resyncSplices (h : lx.Placed) :
    After lx lx.resyncSplices ∧ lx.resyncSplices.rest = settle lx.rest := by
  have haimed : { lx with spliceIdx := partitionPoint lx.splices lx.pos }.aimNextSplice.Aimed :=
    ⟨⟨h.le, h.splices, h.place⟩, rfl, rfl⟩
  obtain ⟨hafter, hrest⟩ := haimed.skipSplices
  exact ⟨⟨⟨hafter.input, hafter.splices, hafter.afterNewline, hafter.language, hafter.le⟩,
    hafter.valid⟩, hrest⟩

/-- A lexer that is put back where it was is the lexer it was. -/
lemma Valid.rewind (h : lx.Valid) (hahead : Ahead lx lx') :
    lx'.rewind lx.pos lx.line lx.col = lx := by
  have hstay : lx.skipStep = none := if_neg fun hn => h.nextSplice_iff.mp hn h.settled
  have hskip : lx.skipSplices = lx := by
    unfold Lexer.skipSplices
    cases lx.rest.length with
    | zero => rfl
    | succ n => rw [run, hstay]
  unfold Lexer.rewind Lexer.resyncSplices aimNextSplice
  dsimp only
  rw [hahead.input, hahead.splices, hahead.afterNewline, hahead.language, ← h.index, ← h.next]
  exact hskip

/-- Text is stepped over as written. -/
lemma Placed.stepBy {text : Text} (h : lx.Placed) (hrest : lx.rest = text ++ m) :
    (lx.stepBy text.length).Placed ∧ Ahead lx (lx.stepBy text.length) ∧
      (lx.stepBy text.length).rest = m := by
  induction text generalizing lx with
  | nil => exact ⟨h, .refl lx, hrest⟩
  | cons ch text ih =>
    have hhead : lx.rest.headD '\x00' = ch := by rw [hrest]; rfl
    obtain ⟨hplaced, htail⟩ := h.step hrest
    rw [length_cons, Lexer.stepBy, hhead]
    obtain ⟨hend, hahead, hm⟩ := ih hplaced htail
    exact ⟨hend, (ahead_step ch lx).trans hahead, hm⟩

lemma Placed.advancePhysical {text : Text} (h : lx.Placed) (hrest : lx.rest = text ++ m) :
    After lx (lx.advancePhysical text.length) ∧
      (lx.advancePhysical text.length).rest = settle m := by
  obtain ⟨hplaced, hahead, hm⟩ := h.stepBy hrest
  obtain ⟨hafter, hsettle⟩ := hplaced.resyncSplices
  exact ⟨⟨hahead.trans hafter.toAhead, hafter.valid⟩, by rw [← hm]; exact hsettle⟩

lemma after_new (input : Text) (language : Language) :
    After { input, splices := findSplices input, language } (new input language) ∧
      (new input language).rest = settle input := by
  have hplaced : ({ input, splices := findSplices input, language : Lexer }).Placed :=
    ⟨Nat.zero_le _, rfl, by rw [placeOf_rest (Nat.zero_le _)]; rfl⟩
  exact hplaced.resyncSplices

end Lexer
end Pathologist.Preproc
