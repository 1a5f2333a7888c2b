import Pathologist.Lib.LittleEndian
import Mathlib.Data.Nat.ModEq

/-!
# The file of a spilled source

The text goes first, then the line map in blocks of 4096 entries: a bit for each entry that has an
expansion, the positions, and after each position its expansion if it has one. The names of files
and macros stay in memory, as does all else that is known of the source. What a reader makes of the
bytes that were written is the text and the line map.
-/
open List
namespace Pathologist.Sources

open Lib (toLE readLE)

@[ext]
structure LineMapEntry where
  expansionId : UInt64
  outputOffset : UInt32
  file : UInt32
  line : UInt32
  col : UInt32
  expansionFile : UInt32
  expansionLine : UInt32
  expansionCol : UInt32
  expansionMacro : UInt32
  deriving DecidableEq

structure LineMap (P : Type) where
  files : List P := []
  macros : List String := []
  entries : List LineMapEntry := []

/-- Preprocessed text with its origin map; `M` is what the provenance queries read. -/
structure PreprocessedSource (P M : Type) where
  text : String
  lineMap : LineMap P
  /-- The entries that the line map has reserved. -/
  capacity : ℕ
  metadata : M

variable {P M : Type}

def lineMapEntryBytes : ℕ := 40

def payloadBytes (src : PreprocessedSource P M) : ℕ :=
  src.text.utf8ByteSize + src.capacity * lineMapEntryBytes

def withoutText (src : PreprocessedSource P M) : PreprocessedSource P M :=
  { src with text := "", lineMap := {}, capacity := 0 }

def mapBlockEntries : ℕ := 4096
def mapPositionBytes : ℕ := 16
def mapExpansionBytes : ℕ := 24

def noIndex : UInt32 := 0xFFFFFFFF

def LineMapEntry.expanded (e : LineMapEntry) : Bool :=
  e.expansionFile != noIndex || e.expansionLine != 0 || e.expansionCol != 0 || e.expansionId != 0 ||
    e.expansionMacro != noIndex

def le32 (value : UInt32) : List UInt8 := toLE 4 value.toNat

def le64 (value : UInt64) : List UInt8 := toLE 8 value.toNat

def LineMapEntry.position (e : LineMapEntry) : List UInt8 :=
  le32 e.outputOffset ++ (le32 e.file ++ (le32 e.line ++ le32 e.col))

def LineMapEntry.expansion (e : LineMapEntry) : List UInt8 :=
  le32 e.expansionFile ++ (le32 e.expansionLine ++ (le32 e.expansionCol ++
    (le64 e.expansionId ++ le32 e.expansionMacro)))

def LineMapEntry.written (e : LineMapEntry) : List UInt8 :=
  e.position ++ if e.expanded then e.expansion else []

def divCeil (n d : ℕ) : ℕ := (n + (d - 1)) / d

def bit (i : ℕ) : UInt8 := 1 <<< UInt8.ofNat (i % 8)

/-- Sets the bits of the entries that have an expansion. -/
def setBits (mask : List UInt8) (block : List (LineMapEntry × ℕ)) : List UInt8 :=
  block.foldl (fun mask e => if e.1.expanded then mask.modify (e.2 / 8) (· ||| bit e.2) else mask)
    mask

def blockMask (block : List LineMapEntry) : List UInt8 :=
  (setBits (List.replicate (mapBlockEntries / 8) 0) block.zipIdx).take (divCeil block.length 8)

/-- The blocks of the entries; there are at most as many as entries. -/
def writeBlocks : ℕ → List LineMapEntry → List UInt8
  | 0, _ => []
  | fuel + 1, entries =>
    if entries.isEmpty then []
    else
      let block := entries.take mapBlockEntries
      blockMask block ++ block.flatMap LineMapEntry.written ++
        writeBlocks fuel (entries.drop mapBlockEntries)

structure SpilledSource (P M : Type) where
  metadata : PreprocessedSource P M
  file : List UInt8
  textLen : ℕ
  entryCount : ℕ
  originFiles : List P
  originMacros : List String

def SpilledSource.store (src : PreprocessedSource P M) : SpilledSource P M where
  metadata := withoutText src
  file := src.text.toUTF8.data.toList ++ writeBlocks src.lineMap.entries.length src.lineMap.entries
  textLen := src.text.utf8ByteSize
  entryCount := src.lineMap.entries.length
  originFiles := src.lineMap.files
  originMacros := src.lineMap.macros

inductive LoadError
  | unexpectedEof
  | invalidData
  deriving DecidableEq

def readExact (n : ℕ) (bytes : List UInt8) : Except LoadError (List UInt8 × List UInt8) :=
  if n ≤ bytes.length then .ok (bytes.take n, bytes.drop n) else .error .unexpectedEof

def marked (mask : List UInt8) (i : ℕ) : Bool := mask.getD (i / 8) 0 &&& bit i != 0

def value (chunk : List UInt8) (offset : ℕ) : UInt32 := UInt32.ofNat (readLE 4 chunk offset)

/-- One entry at `offset`, and where the next one starts. -/
def decodeEntry (chunk : List UInt8) (offset : ℕ) (expanded : Bool) : LineMapEntry × ℕ :=
  let entry : LineMapEntry :=
    { outputOffset := value chunk offset
      file := value chunk (offset + 4)
      line := value chunk (offset + 8)
      col := value chunk (offset + 12)
      expansionFile := noIndex
      expansionLine := 0
      expansionCol := 0
      expansionId := 0
      expansionMacro := noIndex }
  let offset := offset + mapPositionBytes
  if expanded then
    ({ entry with
      expansionFile := value chunk offset
      expansionLine := value chunk (offset + 4)
      expansionCol := value chunk (offset + 8)
      expansionId := UInt64.ofNat (readLE 8 chunk (offset + 12))
      expansionMacro := value chunk (offset + 20) }, offset + mapExpansionBytes)
  else (entry, offset)

/-- The next `n` entries of a block, from the `i`-th one on. -/
def decodeEntries (mask chunk : List UInt8) : ℕ → ℕ → ℕ → List LineMapEntry
  | 0, _, _ => []
  | n + 1, i, offset =>
    let (entry, offset) := decodeEntry chunk offset (marked mask i)
    entry :: decodeEntries mask chunk n (i + 1) offset

def readBlocks : ℕ → ℕ → List UInt8 → Except LoadError (List LineMapEntry)
  | 0, _, _ => .ok []
  | fuel + 1, remaining, bytes =>
    if remaining = 0 then .ok []
    else do
      let n := min remaining mapBlockEntries
      let mask ← readExact (divCeil n 8) bytes
      let expandedCount := (List.range n).countP (marked mask.1)
      let chunk ← readExact (n * mapPositionBytes + expandedCount * mapExpansionBytes) mask.2
      let entries ← readBlocks fuel (remaining - n) chunk.2
      .ok (decodeEntries mask.1 chunk.1 n 0 0 ++ entries)

def SpilledSource.load (src : SpilledSource P M) : Except LoadError (PreprocessedSource P M) := do
  let text ← readExact src.textLen src.file
  let string ← (String.fromUTF8? ⟨text.1.toArray⟩).elim (.error .invalidData) .ok
  let entries ← readBlocks src.entryCount src.entryCount text.2
  .ok { src.metadata with
    text := string
    lineMap := ⟨src.originFiles, src.originMacros, entries⟩
    capacity := src.entryCount }

lemma or_and_bit (byte : UInt8) (i j : ℕ) :
    ((byte ||| bit i) &&& bit j != 0) = ((byte &&& bit j != 0) || decide (i % 8 = j % 8)) := by
  have hdistrib : (byte ||| bit i) &&& bit j = byte &&& bit j ||| bit i &&& bit j := by
    apply UInt8.toBitVec_inj.mp
    ext k hk
    simp [Bool.and_or_distrib_right]
  have hbits : ∀ a b : Fin 8,
      ((1 : UInt8) <<< UInt8.ofNat a.val &&& (1 <<< UInt8.ofNat b.val) != 0) =
        decide (a.val = b.val) := by
    decide
  have hbit : (bit i &&& bit j != 0) = decide (i % 8 = j % 8) :=
    hbits ⟨i % 8, Nat.mod_lt _ (by decide)⟩ ⟨j % 8, Nat.mod_lt _ (by decide)⟩
  rw [hdistrib, ← hbit, Bool.eq_iff_iff]
  simp only [bne_iff_ne, ne_eq, UInt8.or_eq_zero_iff, Bool.or_eq_true]
  tauto

lemma marked_modify {mask : List UInt8} {i : ℕ} (h : i / 8 < mask.length) (j : ℕ) :
    marked (mask.modify (i / 8) (· ||| bit i)) j = (marked mask j || decide (i = j)) := by
  by_cases hij : i / 8 = j / 8
  · have hmod : decide (i % 8 = j % 8) = decide (i = j) := decide_eq_decide.mpr (by omega)
    rw [marked, marked, ← hij, getD_eq_getElem?_getD, getD_eq_getElem?_getD,
      getElem?_modify_eq, getElem?_eq_getElem h, Option.map_eq_map, Option.map_some,
      Option.getD_some, Option.getD_some, or_and_bit, hmod]
  · have hne : decide (i = j) = false := decide_eq_false fun heq => hij (by rw [heq])
    rw [marked, marked, getD_eq_getElem?_getD, getD_eq_getElem?_getD,
      getElem?_modify_ne _ _ hij, hne, Bool.or_false]

@[simp] lemma length_setBits (mask : List UInt8) (block : List (LineMapEntry × ℕ)) :
    (setBits mask block).length = mask.length := by
  induction block generalizing mask with
  | nil => rfl
  | cons e block ih =>
    rw [setBits, foldl_cons, ← setBits, ih]
    split
    · exact length_modify _ _ _
    · rfl

lemma marked_setBits (block : List LineMapEntry) (mask : List UInt8) (k j : ℕ)
    (h : k + block.length ≤ 8 * mask.length) : marked (setBits mask (block.zipIdx k)) j =
      (marked mask j || decide (k ≤ j) && block[j - k]?.any LineMapEntry.expanded) := by
  induction block generalizing mask k with
  | nil => simp [setBits]
  | cons e block ih =>
    rw [length_cons] at h
    have hfirst :
        marked (setBits mask [(e, k)]) j = (marked mask j || decide (k = j) && e.expanded) := by
      simp only [setBits, foldl_cons]
      cases e.expanded with
      | false => simp
      | true => simp [marked_modify (show k / 8 < mask.length by omega) j]
    have hrest : setBits mask ((e :: block).zipIdx k) =
        setBits (setBits mask [(e, k)]) (block.zipIdx (k + 1)) := by
      simp [setBits]
    rw [hrest, ih _ (k + 1) (by rw [length_setBits]; omega), hfirst]
    obtain hlt | rfl | hlt := Nat.lt_trichotomy j k
    · simp [hlt.ne', Nat.not_le.mpr hlt, Nat.not_le.mpr (Nat.lt_succ_of_lt hlt)]
    · simp
    · have hsub : j - k = j - (k + 1) + 1 := by omega
      rw [hsub]
      simp [hlt.ne, hlt.le, Nat.succ_le_of_lt hlt]

lemma marked_take {mask : List UInt8} {n j : ℕ} (h : j / 8 < n) :
    marked (mask.take n) j = marked mask j := by
  rw [marked, marked, getD_eq_getElem?_getD, getD_eq_getElem?_getD, getElem?_take_of_lt h]

variable {block : List LineMapEntry}

lemma marked_blockMask (h : block.length ≤ mapBlockEntries) {j : ℕ} (hj : j < block.length) :
    marked (blockMask block) j = block[j].expanded := by
  have hbyte : j / 8 < divCeil block.length 8 := by
    unfold divCeil
    omega
  have hclear : marked (List.replicate (mapBlockEntries / 8) 0) j = false := by
    rw [marked, getD_eq_getElem?_getD]
    cases hz : (List.replicate (mapBlockEntries / 8) (0 : UInt8))[j / 8]? with
    | none => simp
    | some byte => simp [eq_of_mem_replicate (mem_of_getElem? hz)]
  rw [blockMask, marked_take hbyte, marked_setBits _ _ _ _ ?_, hclear, Nat.sub_zero,
    getElem?_eq_getElem hj]
  · simp
  · rw [length_replicate]
    unfold mapBlockEntries at h ⊢
    omega

lemma length_blockMask (h : block.length ≤ mapBlockEntries) :
    (blockMask block).length = divCeil block.length 8 := by
  unfold mapBlockEntries at h
  rw [blockMask, length_take, length_setBits, length_replicate, divCeil, mapBlockEntries]
  omega

lemma length_le32 (n : UInt32) : (le32 n).length = 4 := Lib.length_toLE _ _

lemma length_le64 (n : UInt64) : (le64 n).length = 8 := Lib.length_toLE _ _

variable {chunk rest : List UInt8} {offset : ℕ}

lemma value_of_drop {n : UInt32} (h : chunk.drop offset = le32 n ++ rest) :
    value chunk offset = n := by
  rw [value, Lib.readLE_of_drop n.toNat_lt h, UInt32.ofNat_toNat]

lemma length_position (e : LineMapEntry) : e.position.length = mapPositionBytes := by
  simp [LineMapEntry.position, length_le32, mapPositionBytes]

lemma length_expansion (e : LineMapEntry) : e.expansion.length = mapExpansionBytes := by
  simp [LineMapEntry.expansion, length_le32, length_le64, mapExpansionBytes]

variable {e : LineMapEntry}

/-- An entry without an expansion has the values that the reader fills in. -/
lemma eq_of_not_expanded (h : e.expanded = false) :
    e.expansionFile = noIndex ∧ e.expansionLine = 0 ∧ e.expansionCol = 0 ∧ e.expansionId = 0 ∧
      e.expansionMacro = noIndex := by
  simp only [LineMapEntry.expanded, Bool.or_eq_false_iff, bne_eq_false_iff_eq] at h
  obtain ⟨⟨⟨⟨hf, hl⟩, hcol⟩, hid⟩, hm⟩ := h
  exact ⟨hf, hl, hcol, hid, hm⟩

lemma value_position (h : chunk.drop offset = e.position ++ rest) :
    value chunk offset = e.outputOffset ∧ value chunk (offset + 4) = e.file ∧
      value chunk (offset + 8) = e.line ∧ value chunk (offset + 12) = e.col := by
  rw [LineMapEntry.position] at h
  simp only [append_assoc] at h
  have h₄ := Lib.drop_add_of_drop h (length_le32 _)
  have h₈ := Lib.drop_add_of_drop h₄ (length_le32 _)
  have h₁₂ := Lib.drop_add_of_drop h₈ (length_le32 _)
  exact ⟨value_of_drop h, value_of_drop h₄, value_of_drop h₈, value_of_drop h₁₂⟩

lemma value_expansion (h : chunk.drop offset = e.expansion ++ rest) :
    value chunk offset = e.expansionFile ∧ value chunk (offset + 4) = e.expansionLine ∧
      value chunk (offset + 8) = e.expansionCol ∧
      UInt64.ofNat (readLE 8 chunk (offset + 12)) = e.expansionId ∧
      value chunk (offset + 20) = e.expansionMacro := by
  rw [LineMapEntry.expansion] at h
  simp only [append_assoc] at h
  have h₄ := Lib.drop_add_of_drop h (length_le32 _)
  have h₈ := Lib.drop_add_of_drop h₄ (length_le32 _)
  have h₁₂ := Lib.drop_add_of_drop h₈ (length_le32 _)
  have h₂₀ := Lib.drop_add_of_drop h₁₂ (length_le64 _)
  refine ⟨value_of_drop h, value_of_drop h₄, value_of_drop h₈, ?_, value_of_drop h₂₀⟩
  rw [Lib.readLE_of_drop (UInt64.toNat_lt _) h₁₂, UInt64.ofNat_toNat]

lemma length_written (e : LineMapEntry) :
    e.written.length = mapPositionBytes + if e.expanded then mapExpansionBytes else 0 := by
  rw [LineMapEntry.written, length_append, length_position]
  split
  · rw [length_expansion]
  · rfl

lemma decodeEntry_written (h : chunk.drop offset = e.written ++ rest) :
    decodeEntry chunk offset e.expanded = (e, offset + e.written.length) := by
  rw [LineMapEntry.written, append_assoc] at h
  obtain ⟨ho, hf, hl, hcol⟩ := value_position h
  have hafter := Lib.drop_add_of_drop h (length_position e)
  rw [length_written, decodeEntry]
  cases he : e.expanded with
  | false =>
    obtain ⟨hexFile, hexL, hexC, hid, hm⟩ := eq_of_not_expanded he
    refine Prod.ext (LineMapEntry.ext ?_ ?_ ?_ ?_ ?_ ?_ ?_ ?_ ?_) rfl <;> simp [*]
  | true =>
    rw [he] at hafter
    obtain ⟨hexFile, hexL, hexC, hid, hm⟩ := value_expansion hafter
    refine Prod.ext (LineMapEntry.ext ?_ ?_ ?_ ?_ ?_ ?_ ?_ ?_ ?_) rfl <;> simp [*]

lemma decodeEntries_written (mask : List UInt8) (entries : List LineMapEntry) {i : ℕ}
    (hm : ∀ j (hj : j < entries.length), marked mask (i + j) = entries[j].expanded)
    (hd : chunk.drop offset = entries.flatMap LineMapEntry.written ++ rest) :
    decodeEntries mask chunk entries.length i offset = entries := by
  induction entries generalizing i offset with
  | nil => rfl
  | cons e entries ih =>
    rw [flatMap_cons, append_assoc] at hd
    have hfirst : marked mask i = e.expanded := hm 0 (Nat.zero_lt_succ _)
    have hrest := ih (i := i + 1) (fun j hj => ?_) (Lib.drop_add_of_drop hd rfl)
    · rw [length_cons, decodeEntries, hfirst, decodeEntry_written hd]
      dsimp only
      rw [hrest]
    · rw [Nat.add_right_comm]
      exact hm (j + 1) (Nat.succ_lt_succ hj)

lemma readExact_append {n : ℕ} {xs : List UInt8} (h : xs.length = n) (ys : List UInt8) :
    readExact n (xs ++ ys) = .ok (xs, ys) := by
  subst h
  rw [readExact, if_pos (by simp), take_left, drop_left]

lemma length_flatMap_written (block : List LineMapEntry) :
    (block.flatMap LineMapEntry.written).length =
      block.length * mapPositionBytes + block.countP LineMapEntry.expanded * mapExpansionBytes := by
  induction block with
  | nil => rfl
  | cons e block ih =>
    rw [flatMap_cons, length_append, ih, length_written, length_cons, countP_cons]
    split <;> ring

lemma countP_marked_blockMask (h : block.length ≤ mapBlockEntries) :
    (List.range block.length).countP (marked (blockMask block)) =
      block.countP LineMapEntry.expanded := by
  have hmap : (List.range block.length).map (marked (blockMask block)) =
      block.map LineMapEntry.expanded := by
    refine ext_getElem (by simp) fun j hj _ => ?_
    rw [length_map, length_range] at hj
    rw [getElem_map, getElem_range, getElem_map, marked_blockMask h hj]
  calc (List.range block.length).countP (marked (blockMask block))
      = ((List.range block.length).map (marked (blockMask block))).countP id := by
        rw [countP_map, Function.id_comp]
    _ = block.countP LineMapEntry.expanded := by rw [hmap, countP_map, Function.id_comp]

lemma readBlocks_writeBlocks {fuel : ℕ} {entries} (h : entries.length ≤ fuel) (rest : List UInt8) :
    readBlocks fuel entries.length (writeBlocks fuel entries ++ rest) = .ok entries := by
  induction fuel generalizing entries with
  | zero =>
    obtain rfl := length_eq_zero_iff.mp (Nat.le_zero.mp h)
    rfl
  | succ fuel ih =>
    cases entries with
    | nil => rfl
    | cons e entries =>
      -- The first block is read as it was written, and the rest by induction.
      generalize he : e :: entries = all at h ⊢
      have hne : all ≠ [] := by simp [← he]
      have hpos : all.length ≠ 0 := fun h => hne (length_eq_zero_iff.mp h)
      have hlength : (all.take mapBlockEntries).length = min all.length mapBlockEntries := by
        rw [length_take, Nat.min_comm]
      have hblock : (all.take mapBlockEntries).length ≤ mapBlockEntries := by
        rw [hlength]
        exact Nat.min_le_right _ _
      have hdrop :
          (all.drop mapBlockEntries).length = all.length - min all.length mapBlockEntries := by
        rw [length_drop]
        omega
      have hfuel : (all.drop mapBlockEntries).length ≤ fuel := by
        have : 0 < mapBlockEntries := by decide
        omega
      have hempty : all.isEmpty = false := by simpa using hne
      rw [writeBlocks, hempty, if_neg Bool.false_ne_true, readBlocks, if_neg hpos]
      dsimp only
      rw [← hlength, append_assoc, append_assoc, readExact_append (length_blockMask hblock)]
      simp only [bind, Except.bind]
      rw [countP_marked_blockMask hblock, readExact_append (length_flatMap_written _), hlength,
        ← hdrop]
      dsimp only
      rw [ih hfuel, ← hlength]
      dsimp only
      have hmask : ∀ j (hj : j < (all.take mapBlockEntries).length),
          marked (blockMask (all.take mapBlockEntries)) (0 + j) =
            (all.take mapBlockEntries)[j].expanded :=
        fun j hj => by rw [Nat.zero_add, marked_blockMask hblock hj]
      have hchunk : ((all.take mapBlockEntries).flatMap LineMapEntry.written).drop 0 =
          (all.take mapBlockEntries).flatMap LineMapEntry.written ++ [] := by
        rw [drop_zero, append_nil]
      rw [decodeEntries_written _ _ hmask hchunk, take_append_drop]

lemma fromUTF8?_toUTF8 (text : String) :
    String.fromUTF8? ⟨text.toUTF8.data.toList.toArray⟩ = some text := by
  have hvalid : (⟨text.toUTF8.data⟩ : ByteArray).IsValidUTF8 := text.isValidUTF8
  rw [String.fromUTF8?, dif_pos hvalid]
  rfl

lemma load_store (src : PreprocessedSource P M) :
    (SpilledSource.store src).load = .ok { src with capacity := src.lineMap.entries.length } := by
  have htext : src.text.toUTF8.data.toList.length = src.text.utf8ByteSize := Array.length_toList
  have hblocks := readBlocks_writeBlocks (le_refl src.lineMap.entries.length) []
  rw [append_nil] at hblocks
  simp only [SpilledSource.load, SpilledSource.store, readExact_append htext, bind, Except.bind,
    fromUTF8?_toUTF8, hblocks]
  rfl

/-- A spilled source reads back as its text and line map, with all else that is known of it. -/
theorem load_restores (src : PreprocessedSource P M) :
    ∃ loaded, (SpilledSource.store src).load = .ok loaded ∧ loaded.text = src.text ∧
      loaded.lineMap = src.lineMap ∧ loaded.metadata = src.metadata :=
  ⟨_, load_store src, rfl, rfl, rfl⟩

end Pathologist.Sources
