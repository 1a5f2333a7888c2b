import Pathologist.Lib.Directory
import Pathologist.PointsTo.Program

/-!
# Bit mirrors of location sets

A numbering of the locations that some large set holds, and for each such set its bits over the
numbering, in blocks of which only those with a bit are stored. A mirror that is set bit by bit
answers exactly for the locations it was set for, whatever is numbered later.
-/
open Function Option
namespace Pathologist.Worklist

open Pathologist.Lib (Directory)
open PointsTo (LocId)

def blockWords : ℕ := 8

abbrev Block := Fin blockWords → BitVec 64

/-- One set's bits over a numbering. -/
structure Mirror where
  /-- Block number to its index in `blocks`. -/
  dir : Directory
  blocks : List Block
  blocks_length : blocks.length = dir.count

namespace Mirror

def empty : Mirror := ⟨.empty, [], rfl⟩

def blockOf (n : ℕ) : ℕ := n / 64 / blockWords

def wordOf (n : ℕ) : Fin blockWords := ⟨n / 64 % blockWords, Nat.mod_lt _ (by decide)⟩

def bitOf (n : ℕ) : BitVec 64 := 1#64 <<< (n % 64)

def test (m : Mirror) (n : ℕ) : Bool :=
  ((m.dir.find (blockOf n)).bind (m.blocks[·]?)).any fun block => block (wordOf n) &&& bitOf n ≠ 0

/-- Store an empty block for a number, unless there is one. -/
def ensureBlock (m : Mirror) (n : ℕ) : Mirror where
  dir := m.dir.ensure (blockOf n)
  blocks := if (m.dir.find (blockOf n)).isSome then m.blocks else m.blocks ++ [fun _ => 0]
  blocks_length := by
    rw [Directory.count_ensure, ← m.blocks_length]
    split <;> simp

/-- Set a bit in the block with this index. -/
def setIn (m : Mirror) (n slot : ℕ) : Mirror where
  dir := m.dir
  blocks := m.blocks.modify slot fun block =>
    update block (wordOf n) (block (wordOf n) ||| bitOf n)
  blocks_length := by rw [List.length_modify, m.blocks_length]

def set (m : Mirror) (n : ℕ) : Mirror :=
  let m := m.ensureBlock n
  (m.dir.find (blockOf n)).elim m (m.setIn n)

lemma and_bitOf_ne_zero (w : BitVec 64) (n : ℕ) :
    (w &&& bitOf n ≠ 0) ↔ w.getLsbD (n % 64) = true := by
  have hlt : n % 64 < 64 := Nat.mod_lt _ (by decide)
  unfold bitOf
  rw [← BitVec.twoPow_eq, BitVec.and_twoPow]
  split
  · next h =>
    simp only [h, iff_true]
    intro hz
    have := congrArg (BitVec.getLsbD · (n % 64)) hz
    simp [hlt] at this
  · next h => simp [h]

lemma getLsbD_bitOf (n k : ℕ) : (bitOf n).getLsbD (k % 64) = decide (k % 64 = n % 64) := by
  have hlt : n % 64 < 64 := Nat.mod_lt _ (by decide)
  unfold bitOf
  rw [← BitVec.twoPow_eq]
  simp [hlt, eq_comm]

@[simp] lemma test_empty (k : ℕ) : empty.test k = false := rfl

variable (m : Mirror) (n k : ℕ)

lemma test_ensureBlock : (m.ensureBlock n).test k = m.test k := by
  unfold test ensureBlock
  dsimp only
  rcases eq_or_ne (blockOf k) (blockOf n) with heq | hne
  · rw [heq, Directory.find_ensure_self]
    cases hf : m.dir.find (blockOf n) with
    | some slot => simp
    | none => simp [← m.blocks_length]
  rw [Directory.find_ensure_of_ne hne]
  cases hf : m.dir.find (blockOf k) with
  | none => rfl
  | some slot =>
    have hlt : slot < m.blocks.length := m.blocks_length ▸ Directory.find_lt hf
    split
    · rfl
    · simp [List.getElem?_append_left hlt]

lemma test_setIn {slot : ℕ} (hs : m.dir.find (blockOf n) = some slot) :
    (m.setIn n slot).test k = (decide (k = n) || m.test k) := by
  have hlt : slot < m.blocks.length := m.blocks_length ▸ Directory.find_lt hs
  unfold test setIn
  by_cases hblock : blockOf k = blockOf n
  · rw [hblock, hs]
    simp only [bind_some, List.getElem?_modify_eq, List.getElem?_eq_getElem hlt,
      map_eq_map, map_some, any_some]
    rw [Bool.eq_iff_iff]
    simp only [Bool.or_eq_true, decide_eq_true_eq, and_bitOf_ne_zero]
    by_cases hword : wordOf k = wordOf n
    · rw [hword, update_self, BitVec.getLsbD_or, getLsbD_bitOf, Bool.or_eq_true, or_comm]
      refine or_congr_left ?_
      rw [decide_eq_true_eq]
      have hwo' : k / 64 % 8 = n / 64 % 8 := congrArg Fin.val hword
      have hblo' : k / 64 / 8 = n / 64 / 8 := hblock
      omega
    · rw [update_of_ne hword]
      have hne : k ≠ n := fun h => hword (by rw [h])
      simp [hne]
  · have hne : k ≠ n := fun h => hblock (by rw [h])
    simp only [hne, decide_false]
    cases hf : m.dir.find (blockOf k) with
    | none => rfl
    | some other =>
      have hother : slot ≠ other := fun h => hblock (Directory.find_inj (h ▸ hf) hs)
      simp [List.getElem?_modify_ne _ _ hother]

lemma test_set : (m.set n).test k = (decide (k = n) || m.test k) := by
  unfold set
  dsimp only
  have hfind :
      (m.ensureBlock n).dir.find (blockOf n) = some ((m.dir.find (blockOf n)).getD m.dir.count) :=
    Directory.find_ensure_self
  rw [hfind, elim_some, test_setIn _ _ _ hfind, test_ensureBlock]

end Mirror

/-- The numbers of the locations that some mirror holds. -/
structure LocBits where
  number : Directory

namespace LocBits

def empty : LocBits := ⟨.empty⟩

def test (nb : LocBits) (bits : Mirror) (loc : LocId) : Bool := (nb.number.find loc).any bits.test

/-- Set a location's bit, numbering the location first if it has no number. -/
def set (nb : LocBits) (bits : Mirror) (loc : LocId) : LocBits × Mirror :=
  let number := nb.number.ensure loc
  (⟨number⟩, (number.find loc).elim bits bits.set)

/-- Set the bits of these locations, in order. -/
def setAll (nb : LocBits) (bits : Mirror) (locs : List LocId) : LocBits × Mirror :=
  locs.foldl (fun acc loc => acc.1.set acc.2 loc) (nb, bits)

def mirror (nb : LocBits) (set : List LocId) : LocBits × Mirror := nb.setAll .empty set

/-- A numbering keeps every number of an earlier one. -/
def Extends (nb nb' : LocBits) : Prop :=
  ∀ loc n, nb.number.find loc = some n → nb'.number.find loc = some n

/-- A mirror has the bits of just these locations. -/
structure Mirrors (nb : LocBits) (bits : Mirror) (held : Set LocId) : Prop where
  sound : ∀ n, bits.test n = true → ∃ loc ∈ held, nb.number.find loc = some n
  complete : ∀ loc ∈ held, ∃ n, nb.number.find loc = some n ∧ bits.test n = true

variable {nb nb' : LocBits} {bits : Mirror} {held : Set LocId}

lemma Extends.refl (nb : LocBits) : Extends nb nb := fun _ _ h => h

lemma Extends.trans {nb'' : LocBits} (h : Extends nb nb') (h' : Extends nb' nb'') :
    Extends nb nb'' :=
  fun loc n hn => h' loc n (h loc n hn)

/-- A mirror answers alike under a later numbering. -/
lemma Mirrors.extends (h : nb.Mirrors bits held) (hext : Extends nb nb') :
    nb'.Mirrors bits held where
  sound n hn := by
    obtain ⟨loc, hloc, hf⟩ := h.sound n hn
    exact ⟨loc, hloc, hext loc n hf⟩
  complete loc hloc := by
    obtain ⟨n, hf, hn⟩ := h.complete loc hloc
    exact ⟨n, hext loc n hf, hn⟩

lemma Mirrors.test_iff (h : nb.Mirrors bits held) {loc : LocId} :
    nb.test bits loc = true ↔ loc ∈ held := by
  unfold test
  rw [any_eq_true]
  constructor
  · rintro ⟨n, hf, hn⟩
    obtain ⟨other, ho, hf'⟩ := h.sound n hn
    rwa [Directory.find_inj hf hf']
  · exact h.complete loc

@[simp] lemma test_empty (nb : LocBits) (loc : LocId) : nb.test .empty loc = false := by
  unfold test
  cases nb.number.find loc <;> rfl

lemma mirrors_empty (nb : LocBits) : nb.Mirrors .empty ∅ :=
  ⟨fun _ hn => absurd hn (by simp), fun _ hloc => absurd hloc (Set.notMem_empty _)⟩

lemma extends_set (nb : LocBits) (bits : Mirror) (loc : LocId) : Extends nb (nb.set bits loc).1 :=
  fun _ _ h => Directory.find_ensure h

lemma Mirrors.set (h : nb.Mirrors bits held) (loc : LocId) :
    (nb.set bits loc).1.Mirrors (nb.set bits loc).2 (insert loc held) := by
  have hext := nb.extends_set bits loc
  obtain ⟨n, hn⟩ : ∃ n, (nb.number.ensure loc).find loc = some n := ⟨_, Directory.find_ensure_self⟩
  have hbits : (nb.set bits loc).2 = bits.set n := by simp [LocBits.set, hn]
  rw [hbits]
  constructor
  · intro k hk
    rw [Mirror.test_set, Bool.or_eq_true, decide_eq_true_eq] at hk
    rcases hk with rfl | hk
    · exact ⟨loc, Set.mem_insert _ _, hn⟩
    · obtain ⟨other, ho, hf⟩ := h.sound k hk
      exact ⟨other, Set.mem_insert_of_mem _ ho, hext other k hf⟩
  · rintro other (rfl | ho)
    · exact ⟨n, hn, by simp [Mirror.test_set]⟩
    · obtain ⟨k, hf, hk⟩ := h.complete other ho
      exact ⟨k, hext other k hf, by simp [Mirror.test_set, hk]⟩

lemma test_set_of_ne {loc other : LocId} (nb : LocBits) (bits : Mirror) (hne : other ≠ loc) :
    (nb.set bits loc).1.test (nb.set bits loc).2 other = nb.test bits other := by
  obtain ⟨n, hn⟩ : ∃ n, (nb.number.ensure loc).find loc = some n := ⟨_, Directory.find_ensure_self⟩
  simp only [LocBits.set, test, hn, Directory.find_ensure_of_ne hne]
  cases ho : nb.number.find other with
  | none => rfl
  | some k =>
    have hfind : (nb.number.ensure loc).find other = some k := Directory.find_ensure ho
    have hk : k ≠ n := fun h => hne (Directory.find_inj hfind (h ▸ hn))
    simp [Mirror.test_set, hk]

lemma test_setAll_of_notMem {locs : List LocId} {other : LocId} (nb : LocBits) (bits : Mirror)
    (hnot : other ∉ locs) :
    (nb.setAll bits locs).1.test (nb.setAll bits locs).2 other = nb.test bits other := by
  induction locs generalizing nb bits with
  | nil => rfl
  | cons loc locs ih =>
    obtain ⟨hne, hr⟩ : other ≠ loc ∧ other ∉ locs := by simpa using hnot
    exact (ih _ _ hr).trans (nb.test_set_of_ne bits hne)

lemma extends_setAll (nb : LocBits) (bits : Mirror) (locs : List LocId) :
    Extends nb (nb.setAll bits locs).1 := by
  induction locs generalizing nb bits with
  | nil => exact .refl nb
  | cons loc locs ih => exact (nb.extends_set bits loc).trans (ih _ _)

lemma Mirrors.setAll (h : nb.Mirrors bits held) (locs : List LocId) :
    (nb.setAll bits locs).1.Mirrors (nb.setAll bits locs).2 (held ∪ {loc | loc ∈ locs}) := by
  unfold LocBits.setAll
  induction locs generalizing nb bits held with
  | nil => simpa using h
  | cons loc locs ih =>
    have hset : insert loc held ∪ {l | l ∈ locs} = held ∪ {l | l ∈ loc :: locs} := by
      ext l
      simp only [Set.mem_union, Set.mem_insert_iff, Set.mem_ofPred_eq, List.mem_cons]
      tauto
    exact hset ▸ ih (h.set loc)

lemma mirrors_mirror (nb : LocBits) (locs : List LocId) :
    (nb.mirror locs).1.Mirrors (nb.mirror locs).2 {loc | loc ∈ locs} := by
  have h := nb.mirrors_empty.setAll locs
  rwa [Set.empty_union] at h

end LocBits
end Pathologist.Worklist
