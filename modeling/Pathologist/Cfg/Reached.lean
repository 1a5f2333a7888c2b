import Pathologist.Cfg
import Pathologist.Lib.Digraph

/-!
# Which blocks the builder has reached

The graph builder keeps a flag for each block that says whether the edges made so
far lead to it from the entry. A block that is reached late hands the flag on along
its only edge, and over all edges where it has several.
-/
namespace Pathologist.Cfg
open Relation Lib.Digraph Function

/-- What `reach` reads of the builder. -/
structure Builder where
  edges : List CfgEdge
  reached : List Bool
  outDegree : ℕ → ℕ
  lastSuccessor : ℕ → ℕ

namespace Builder

def newBlock (b : Builder) : Builder := { b with reached := b.reached ++ [false] }

/-- A builder starts with its entry, block 0, reached, and with its exit. -/
def new : Builder := ⟨[], [true, false], fun _ => 0, id⟩

/-- The first loop of `reach`, and whether it was left at a block with several edges. It marks a
block in each round. -/
def follow (b : Builder) : ℕ → ℕ → List Bool → List Bool × Bool
  | 0, _, reached => (reached, false)
  | fuel + 1, at_, reached =>
    if marked reached at_ then (reached, false)
    else match b.outDegree at_ with
      | 0 => (reached.set at_ true, false)
      | 1 => follow b fuel (b.lastSuccessor at_) (reached.set at_ true)
      | _ => (reached.set at_ true, true)

/-- One round of the second loop at an edge: the flags, and whether one has changed. -/
def passEdge (acc : List Bool × Bool) (e : CfgEdge) : List Bool × Bool :=
  if marked acc.1 e.src && !marked acc.1 e.dst then (acc.1.set e.dst true, true) else acc

def pass (b : Builder) (reached : List Bool) : List Bool × Bool :=
  b.edges.foldl passEdge (reached, false)

def spread (b : Builder) : ℕ → List Bool → List Bool
  | 0, reached => reached
  | fuel + 1, reached =>
    if (b.pass reached).2 then spread b fuel (b.pass reached).1 else (b.pass reached).1

def reach (b : Builder) (at_ : ℕ) : Builder :=
  let followed := b.follow (b.reached.length + 1) at_ b.reached
  { b with
    reached := if followed.2 then b.spread (b.reached.length + 1) followed.1 else followed.1 }

def addEdge (b : Builder) (e : CfgEdge) : Builder :=
  { b with
    edges := b.edges ++ [e]
    outDegree := update b.outDegree e.src (b.outDegree e.src + 1)
    lastSuccessor := update b.lastSuccessor e.src e.dst }

/-- A block that was not made is an index out of bounds. -/
def edge (b : Builder) (e : CfgEdge) : Option Builder :=
  if e.src < b.reached.length ∧ e.dst < b.reached.length then
    some (if marked b.reached e.src then (b.addEdge e).reach e.dst else b.addEdge e)
  else none

/-- What calls of `new_block` and `edge` make, in any order. -/
inductive Made : Builder → Prop
  | new : Made new
  | newBlock {b : Builder} : Made b → Made b.newBlock
  | edge {b b' : Builder} {e : CfgEdge} : Made b → b.edge e = some b' → Made b'

def Leads (b : Builder) (x y : ℕ) : Prop := ∃ e ∈ b.edges, e.src = x ∧ e.dst = y

/-- The ends of the edges out of a block, in the order they were made. -/
def successors (b : Builder) (x : ℕ) : List ℕ := (b.edges.filter (·.src = x)).map CfgEdge.dst

lemma mem_successors {b : Builder} {x y : ℕ} : y ∈ b.successors x ↔ b.Leads x y := by
  simp [successors, Leads, and_assoc]

/-- What the tables say of the edges. -/
structure Tables (b : Builder) : Prop where
  inRange : ∀ {x y}, b.Leads x y → y < b.reached.length
  degree : ∀ x, b.outDegree x = (b.successors x).length
  last : ∀ x, ∀ y ∈ (b.successors x).getLast?, b.lastSuccessor x = y

/-- Flags of the blocks, the entry's set, and those of blocks of `R` only. -/
structure Within (b : Builder) (R : ℕ → Prop) (seen : List Bool) : Prop where
  size : seen.length = b.reached.length
  entry : marked seen 0 = true
  only : ∀ x, marked seen x = true → R x

/-- No edge leads from a marked block to one that is not. -/
def Closed (b : Builder) (seen : List Bool) : Prop :=
  ∀ x y, b.Leads x y → marked seen x = true → marked seen y = true

variable {b : Builder} {seen : List Bool} {R : ℕ → Prop}

lemma Within.set (h : Within b R seen) {x : ℕ} (hx : x < seen.length) (hR : R x) :
    Within b R (seen.set x true) := by
  refine ⟨List.length_set.trans h.size, by simp [marked_set hx, h.entry], fun y hy => ?_⟩
  rcases marked_of_marked_set hy with rfl | hy
  · exact hR
  · exact h.only y hy

section Spread
variable (hb : b.Tables) (hR : ∀ {x y}, R x → b.Leads x y → R y)
include hb hR

/-- A pass finds nothing to mark, or marks a block. -/
lemma foldl_passEdge (edges : List CfgEdge) (hedges : ∀ e ∈ edges, e ∈ b.edges)
    (acc : List Bool × Bool) (h : Within b R acc.1) : (edges.foldl passEdge acc = acc ∧
      ∀ e ∈ edges, marked acc.1 e.src = true → marked acc.1 e.dst = true) ∨
    (edges.foldl passEdge acc).2 = true ∧ Within b R (edges.foldl passEdge acc).1 ∧
      (edges.foldl passEdge acc).1.count false < acc.1.count false := by
  induction edges generalizing acc with
  | nil => exact .inl ⟨rfl, by simp⟩
  | cons e edges ih =>
    obtain ⟨he, hr⟩ := List.forall_mem_cons.mp hedges
    have hlead : b.Leads e.src e.dst := ⟨e, he, rfl, rfl⟩
    have hdst : e.dst < acc.1.length := h.size ▸ hb.inRange hlead
    rw [List.foldl_cons]
    by_cases hnew : (marked acc.1 e.src && !marked acc.1 e.dst) = true
    · have hmarks : marked acc.1 e.src = true ∧ marked acc.1 e.dst = false := by simpa using hnew
      have hset := h.set hdst (hR (h.only _ hmarks.1) hlead)
      have hcount := count_set hdst hmarks.2
      rw [passEdge, if_pos hnew]
      rcases ih hr (acc.1.set e.dst true, true) hset with ⟨hs, -⟩ | ⟨ht, hm, hlt⟩
      · rw [hs]
        exact .inr ⟨rfl, hset, by simp only; omega⟩
      · exact .inr ⟨ht, hm, by simp only at hlt; omega⟩
    · rw [passEdge, if_neg hnew]
      refine (ih hr acc h).imp_left fun ⟨hs, hall⟩ =>
        ⟨hs, List.forall_mem_cons.mpr ⟨fun hsrc => ?_, hall⟩⟩
      simpa [hsrc] using hnew

lemma spread_spec {fuel : ℕ} (hf : seen.count false < fuel) (h : Within b R seen) :
    Within b R (b.spread fuel seen) ∧ b.Closed (b.spread fuel seen) := by
  induction fuel generalizing seen with
  | zero => omega
  | succ fuel ih =>
    unfold spread
    rcases foldl_passEdge hb hR b.edges (fun _ => id) (seen, false) h with
      ⟨hs, hc⟩ | ⟨hm, hw, hcount⟩
    · rw [pass, hs]
      exact ⟨h, fun x y ⟨e, he, hx, hy⟩ => hx ▸ hy ▸ hc e he⟩
    · rw [show (b.pass seen).2 = true from hm]
      exact ih (Nat.lt_of_lt_of_le hcount (Nat.le_of_lt_succ hf)) hw

/-- The first loop marks what it passes; if it is not left early, no flag is missing. -/
lemma follow_spec {fuel x : ℕ} (hf : seen.count false < fuel) (hx : x < seen.length)
    (h : Within b R seen) (hRx : R x)
    (hopen : ∀ y z, b.Leads y z → marked seen y = true → marked seen z = true ∨ z = x) :
    Within b R (b.follow fuel x seen).1 ∧
      ((b.follow fuel x seen).2 = false → b.Closed (b.follow fuel x seen).1) := by
  induction fuel generalizing seen x with
  | zero => omega
  | succ fuel ih =>
    unfold follow
    split_ifs with hm
    · refine ⟨h, fun _ y z hyz hy => ?_⟩
      rcases hopen y z hyz hy with hz | rfl
      · exact hz
      · exact hm
    have hmark := h.set hx hRx
    have hop' : ∀ y z, b.Leads y z → marked (seen.set x true) y = true →
        marked (seen.set x true) z = true ∨ z ∈ b.successors x := by
      intro y z hyz hy
      rcases marked_of_marked_set hy with rfl | hy
      · exact .inr (mem_successors.mpr hyz)
      rcases hopen y z hyz hy with hz | rfl
      · exact .inl (by simp [marked_set hx, hz])
      · exact .inl (by simp [marked_set hx])
    have hdegree := hb.degree x
    split
    · rename_i hzero
      have hnil : b.successors x = [] := List.length_eq_zero_iff.mp (hdegree.symm.trans hzero)
      exact ⟨hmark, fun _ y z hyz hy => by simpa [hnil] using hop' y z hyz hy⟩
    · rename_i hone
      obtain ⟨y, hy⟩ := List.length_eq_one_iff.mp (hdegree.symm.trans hone)
      obtain rfl : b.lastSuccessor x = y := hb.last x y (by simp [hy])
      have hlead : b.Leads x (b.lastSuccessor x) := mem_successors.mp (by simp [hy])
      have hcount := count_set hx (by simpa using hm)
      exact ih (by omega) (hmark.size ▸ hb.inRange hlead) hmark (hR hRx hlead)
        fun y z hyz hy' => by simpa [hy] using hop' y z hyz hy'
    · exact ⟨hmark, nofun⟩

lemma reach_spec {x : ℕ} (hx : x < b.reached.length) (h : Within b R b.reached) (hRx : R x)
    (ho : ∀ y z, b.Leads y z → marked b.reached y = true → marked b.reached z = true ∨ z = x) :
    Within b R (b.reach x).reached ∧ b.Closed (b.reach x).reached := by
  obtain ⟨hw, hc⟩ :=
    follow_spec hb hR (Nat.lt_succ_of_le List.count_le_length) hx h hRx ho
  unfold reach
  dsimp only
  split_ifs with hl
  · refine spread_spec hb hR ?_ hw
    exact Nat.lt_succ_of_le (Nat.le_trans List.count_le_length (Nat.le_of_eq hw.size))
  · exact ⟨hw, hc (Bool.eq_false_iff.mpr hl)⟩

end Spread

/-- The flags are those of the blocks that the edges lead to. -/
structure Sound (b : Builder) : Prop extends Tables b where
  entry : marked b.reached 0 = true
  closed : b.Closed b.reached
  reachable : ∀ x, marked b.reached x = true → ReflTransGen b.Leads 0 x

lemma sound_new : new.Sound where
  inRange := by simp [new, Leads]
  degree := by simp [new, successors]
  last := by simp [new, successors]
  entry := rfl
  closed := by simp [new, Leads, Closed]
  reachable x hx := by
    obtain rfl : x = 0 := by
      rcases x with _ | _ | x
      · rfl
      · cases hx
      · cases hx
    exact .refl

lemma Sound.newBlock (h : b.Sound) : b.newBlock.Sound := by
  have hmarked : ∀ x, marked b.newBlock.reached x = marked b.reached x := by
    intro x
    simp only [Builder.newBlock, marked, List.getD_eq_getElem?_getD, List.getElem?_append]
    split_ifs with hx
    · rfl
    · cases x - b.reached.length <;> simp [Nat.le_of_not_lt hx]
  refine ⟨⟨fun hl => ?_, h.degree, h.last⟩, ?_, fun x y hl hx => ?_, fun x hx => ?_⟩
  · exact Nat.lt_of_lt_of_le (h.inRange hl) (by simp [Builder.newBlock])
  · exact (hmarked 0).trans h.entry
  · rw [hmarked] at hx ⊢
    exact h.closed x y hl hx
  · exact h.reachable x (hmarked x ▸ hx)

lemma leads_addEdge {e : CfgEdge} {x y : ℕ} :
    (b.addEdge e).Leads x y ↔ b.Leads x y ∨ e.src = x ∧ e.dst = y := by
  simp [addEdge, Leads, or_and_right, exists_or]

lemma Tables.addEdge (h : b.Tables) {e : CfgEdge} (hdst : e.dst < b.reached.length) :
    (b.addEdge e).Tables := by
  have hsucc : ∀ x, (b.addEdge e).successors x =
      b.successors x ++ if e.src = x then [e.dst] else [] := by
    intro x
    by_cases hx : e.src = x
    · simp [Builder.addEdge, successors, hx]
    · simp [Builder.addEdge, successors, hx]
  refine ⟨fun {x y} hl => ?_, fun x => ?_, fun x y hy => ?_⟩
  · rcases leads_addEdge.mp hl with hl | ⟨-, rfl⟩
    · exact h.inRange hl
    · exact hdst
  · rw [hsucc]
    by_cases hx : x = e.src
    · simp [Builder.addEdge, hx, h.degree]
    · simp [Builder.addEdge, hx, h.degree, Ne.symm hx]
  · rw [hsucc] at hy
    by_cases hx : x = e.src
    · simpa [Builder.addEdge, hx] using hy
    · simpa [Builder.addEdge, hx] using h.last x y (by simpa [Ne.symm hx] using hy)

lemma Sound.edge {b' : Builder} {e : CfgEdge} (h : b.Sound) (he : b.edge e = some b') :
    b'.Sound := by
  unfold Builder.edge at he
  split_ifs at he with hr hm
  · obtain rfl : (b.addEdge e).reach e.dst = b' := Option.some.inj he
    have htables := h.toTables.addEdge hr.2
    have hreachable : ∀ x, marked b.reached x = true → ReflTransGen (b.addEdge e).Leads 0 x :=
      fun x hx => (h.reachable x hx).lift id fun y z hl => leads_addEdge.mpr (.inl hl)
    obtain ⟨hw, hc⟩ := reach_spec htables .tail hr.2 ⟨rfl, h.entry, hreachable⟩
      ((hreachable _ hm).tail (leads_addEdge.mpr (.inr ⟨rfl, rfl⟩))) fun y z hl hy => by
        rcases leads_addEdge.mp hl with hl | ⟨-, rfl⟩
        · exact .inl (h.closed y z hl hy)
        · exact .inr rfl
    refine ⟨⟨fun hl => ?_, htables.degree, htables.last⟩, hw.entry, hc, hw.only⟩
    exact Nat.lt_of_lt_of_le (htables.inRange hl) (Nat.le_of_eq hw.size.symm)
  · obtain rfl : b.addEdge e = b' := Option.some.inj he
    refine ⟨h.toTables.addEdge hr.2, h.entry, fun x y hl hx => ?_, fun x hx => ?_⟩
    · rcases leads_addEdge.mp hl with hl | ⟨rfl, -⟩
      · exact h.closed x y hl hx
      · exact absurd hx hm
    · exact (h.reachable x hx).lift id fun y z hl => leads_addEdge.mpr (.inl hl)

lemma Made.sound (h : Made b) : b.Sound := by
  induction h with
  | new => exact sound_new
  | newBlock _ ih => exact ih.newBlock
  | edge _ he ih => exact ih.edge he

/-- After any calls a block is flagged exactly if the edges lead to it from the entry. -/
theorem reached_iff {b : Builder} (h : Made b) (x : ℕ) :
    marked b.reached x = true ↔ ReflTransGen b.Leads 0 x := by
  refine ⟨h.sound.reachable x, fun hx => ?_⟩
  induction hx with
  | refl => exact h.sound.entry
  | tail _ hyz ih => exact h.sound.closed _ _ hyz ih

theorem reached_iff_of_late_edge : ∃ b, Made b ∧ marked b.reached 3 = true ∧
    (marked b.reached 3 = true ↔ ReflTransGen b.Leads 0 3) := by
  -- Block 2 has an edge to itself and one to block 3 before the entry leads to it.
  have h := Made.new.newBlock.newBlock
  have h₂ := h.edge (e := ⟨2, 2, .fallthrough⟩) rfl
  have h₃ := h₂.edge (e := ⟨2, 3, .fallthrough⟩) rfl
  have h₄ := h₃.edge (e := ⟨0, 2, .fallthrough⟩) rfl
  exact ⟨_, h₄, by decide, reached_iff h₄ 3⟩

end Builder
end Pathologist.Cfg
