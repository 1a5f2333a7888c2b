import Mathlib.Algebra.Order.BigOperators.Group.Finset
import Pathologist.Lib.Digraph
import Pathologist.Lib.Loop

/-!
# Strongly connected components

Tarjan's search over the call graph, with the frames of the recursion on an explicit stack. A
component is closed when its root is left, and gets the next id. The stack of open nodes falls
into segments, one for each frame: the node of the frame, below the nodes that were left since
it was entered. The invariant is stated segment by segment, so that entering a node starts a
segment, leaving a root removes one, and leaving any other node joins its segment to the next.
-/
namespace Pathologist.Contexts
open Lib.Digraph Relation List Function Lib.Loop

/-- The variables of the search; a node that is not seen has no number in `order`. -/
structure Search where
  order : ℕ → Option ℕ := fun _ => none
  low : ℕ → ℕ := fun _ => 0
  onStack : ℕ → Bool := fun _ => false
  component : ℕ → Option ℕ := fun _ => none
  stack : List ℕ := []
  next : ℕ := 0
  components : ℕ := 0
  /-- The nodes being visited, the last one first, with the position of the next successor. -/
  frames : List (ℕ × ℕ) := []

namespace Search

def enter (s : Search) (v : ℕ) : Search :=
  { s with
    order := update s.order v (some s.next)
    low := update s.low v s.next
    next := s.next + 1
    stack := v :: s.stack
    onStack := update s.onStack v true
    frames := (v, 0) :: s.frames }

def lowerTo (s : Search) (v bound : ℕ) : Search :=
  { s with low := update s.low v (min (s.low v) bound) }

/-- Pops the stack down to `v` into the component that is open. -/
def popTo (s : Search) (v : ℕ) : List ℕ → Search
  | [] => { s with stack := [] }
  | w :: rest =>
    let s := { s with
      onStack := update s.onStack w false
      component := update s.component w (some s.components) }
    if w = v then { s with stack := rest } else popTo s v rest

def closeComponent (s : Search) (v : ℕ) : Search :=
  let s := s.popTo v s.stack
  { s with components := s.components + 1 }

/-- One round of the loop over the frames. -/
def step (g : Adjacency) (s : Search) : Option Search :=
  match s.frames with
  | [] => none
  | (v, pos) :: rest =>
    match (Lib.Digraph.next g v)[pos]? with
    | some w =>
      let s := { s with frames := (v, pos + 1) :: rest }
      match s.order w with
      | none => some (s.enter w)
      | some number => some (if s.onStack w then s.lowerTo v number else s)
    | none =>
      let s := { s with frames := rest }
      let s := match rest with
        | [] => s
        | (parent, _) :: _ => s.lowerTo parent (s.low v)
      some (if s.order v = some (s.low v) then s.closeComponent v else s)

/-- The search from a root; it fails if the fuel does not suffice. -/
def searchFrom (g : Adjacency) (fuel : ℕ) (s : Search) (root : ℕ) : Option Search :=
  match s.order root with
  | some _ => some s
  | none =>
    let s := run (step g) fuel (s.enter root)
    if s.frames = [] then some s else none

end Search

/-- The component of each node; `none` stands for a node that was not seen. -/
def stronglyConnectedComponents (fuel : ℕ) (succ : Adjacency) : Option (List (Option ℕ)) := do
  let s ← (List.range succ.length).foldlM (Search.searchFrom succ fuel) {}
  pure ((List.range succ.length).map s.component)

/-- A node leads to another along calls. -/
abbrev Reach (g : Adjacency) : ℕ → ℕ → Prop := ReflTransGen (Edge g)

namespace Search
variable {g : Adjacency} {s s' : Search} {v w : ℕ}

/-- The number of a node that is seen. -/
def num (s : Search) (x : ℕ) : ℕ := (s.order x).getD 0

/-- The targets are seen, and `low` of `v` accounts for those on the stack. -/
def Covers (s : Search) (v : ℕ) (targets : List ℕ) : Prop :=
  ∀ w ∈ targets, (s.order w).isSome = true ∧ (w ∈ s.stack → s.low v ≤ s.num w)

/-- The stack in segments: above the node of each frame lie the nodes that were left since, all
of which it leads to and none of which is the root of a component. -/
def Segmented (g : Adjacency) (s : Search) : List (ℕ × ℕ) → List ℕ → Prop
  | [], stack => stack = []
  | (v, pos) :: rest, stack => ∃ left below, stack = left ++ v :: below ∧
      s.Covers v ((Lib.Digraph.next g v).take pos) ∧
      (∀ x ∈ left, Reach g v x ∧ s.low x < s.num x ∧ s.Covers v (Lib.Digraph.next g x)) ∧
      (∀ frame ∈ rest.head?, Reach g frame.1 v) ∧ Segmented g s rest below

/-- A later state of the search as far as the nodes that were seen before are concerned. -/
structure Later (s s' : Search) : Prop where
  order : ∀ {x}, (s.order x).isSome = true → s'.order x = s.order x
  stack : ∀ {x}, (s.order x).isSome = true → x ∈ s'.stack → x ∈ s.stack
  low : ∀ {x}, (s.order x).isSome = true → s'.low x ≤ s.low x

variable {x : ℕ}

lemma Later.num (h : Later s s') (hx : (s.order x).isSome = true) : s'.num x = s.num x := by
  rw [Search.num, Search.num, h.order hx]

lemma Later.covers (h : Later s s') {targets : List ℕ} (hv : (s.order v).isSome = true)
    (hc : s.Covers v targets) : s'.Covers v targets := by
  intro w hw
  obtain ⟨hseen, hlow⟩ := hc w hw
  refine ⟨by rw [h.order hseen]; exact hseen, fun hs => ?_⟩
  rw [h.num hseen]
  exact (h.low hv).trans (hlow (h.stack hseen hs))

lemma Segmented.later (h : Later s s') : ∀ {frames : List (ℕ × ℕ)} {stack : List ℕ},
    (∀ x ∈ stack, (s.order x).isSome = true) → s.Segmented g frames stack →
      s'.Segmented g frames stack
  | [], _, _, hs => hs
  | (v, pos) :: rest, stack, hseen, hs => by
    obtain ⟨left, below, rfl, hc, hl, hp, hrest⟩ := hs
    have hv : (s.order v).isSome = true := hseen v (mem_append_right _ mem_cons_self)
    refine ⟨left, below, rfl, h.covers hv hc, fun x hx => ?_, hp, hrest.later h ?_⟩
    · obtain ⟨hr, hlow, hc⟩ := hl x hx
      have hx' : (s.order x).isSome = true := hseen x (mem_append_left _ hx)
      refine ⟨hr, ?_, h.covers hv hc⟩
      rw [h.num hx']
      exact (h.low hx').trans_lt hlow
    · exact fun x hx => hseen x (mem_append_right _ (mem_cons_of_mem _ hx))

variable {pos : ℕ} {rest : List (ℕ × ℕ)}

/-- The next successor of the node on top is accounted for. -/
lemma Segmented.advance {stack : List ℕ} (h : s.Segmented g ((v, pos) :: rest) stack)
    (hw : (Lib.Digraph.next g v)[pos]? = some w) (hc : s.Covers v [w]) :
    s.Segmented g ((v, pos + 1) :: rest) stack := by
  obtain ⟨left, below, hstack, hs, hr⟩ := h
  refine ⟨left, below, hstack, ?_, hr⟩
  rw [take_add_one, hw]
  intro x hx
  exact (mem_append.mp hx).elim (hs x) (hc x)

/-- A node that is left joins the segment of the frame below. -/
lemma Segmented.join {pos' p : ℕ} {stack : List ℕ}
    (h : s.Segmented g ((v, pos) :: (p, pos') :: rest) stack)
    (hend : (Lib.Digraph.next g v)[pos]? = none) (hlow : s.low p ≤ s.low v)
    (hv : s.low v < s.num v) : s.Segmented g ((p, pos') :: rest) stack := by
  obtain ⟨left, _, rfl, hs, hl, hp, left', below, rfl, hs', hl', hrest⟩ := h
  have hpv : Reach g p v := hp (p, pos') rfl
  have hcovers {targets : List ℕ} (hc : s.Covers v targets) : s.Covers p targets :=
    fun w hw => ⟨(hc w hw).1, fun hstack => hlow.trans ((hc w hw).2 hstack)⟩
  rw [take_of_length_le (getElem?_eq_none_iff.mp hend)] at hs
  refine ⟨left ++ v :: left', below, by simp, hs', fun x hx => ?_, hrest⟩
  rcases mem_append.mp hx with hx | hx
  · obtain ⟨hr, hless, hc⟩ := hl x hx
    exact ⟨hpv.trans hr, hless, hcovers hc⟩
  · rcases mem_cons.mp hx with rfl | hx
    · exact ⟨hpv, hv, hcovers hs⟩
    · exact hl' x hx

/-- Components that are closed: their ids are dense, calls lead to no larger id, and two nodes
have one id exactly if each leads to the other. -/
structure Closed (g : Adjacency) (component : ℕ → Option ℕ) (components : ℕ) : Prop where
  below : ∀ {x c}, component x = some c → c < components
  dense : ∀ {c}, c < components → ∃ x, component x = some c
  calls : ∀ {x c w}, component x = some c → Edge g x w → ∃ d, component w = some d ∧ d ≤ c
  same : ∀ {x y c d}, component x = some c → component y = some d →
    (c = d ↔ Reach g x y ∧ Reach g y x)

structure Inv (g : Adjacency) (s : Search) : Prop where
  range : ∀ {x}, (s.order x).isSome = true → x < g.length
  numbered : ∀ {x i}, s.order x = some i → i < s.next
  sorted : s.stack.Pairwise fun a b => s.num b < s.num a
  onStack : ∀ {x}, s.onStack x = true ↔ x ∈ s.stack
  seen : ∀ {x}, (s.order x).isSome = true ↔ x ∈ s.stack ∨ (s.component x).isSome = true
  opened : ∀ {x}, x ∈ s.stack → s.component x = none
  low_le : ∀ {x}, x ∈ s.stack → s.low x ≤ s.num x
  low_eq : ∀ {x}, x ∈ s.stack → ∃ y ∈ s.stack, s.num y = s.low x ∧ Reach g x y
  segmented : s.Segmented g s.frames s.stack
  closed : Closed g s.component s.components

namespace Inv

section
variable (h : Inv g s)
include h

lemma seen_of_mem (hx : x ∈ s.stack) : (s.order x).isSome = true :=
  h.seen.mpr (.inl hx)

lemma num_lt (hx : x ∈ s.stack) : s.num x < s.next := by
  obtain ⟨i, hi⟩ := Option.isSome_iff_exists.mp (h.seen_of_mem hx)
  rw [num, hi]
  exact h.numbered hi

lemma closed_of_reach {y : ℕ} (hx : (s.component x).isSome = true) (hxy : Reach g x y) :
    (s.component y).isSome = true := by
  induction hxy with
  | refl => exact hx
  | tail _ he ih =>
    obtain ⟨c, hc⟩ := Option.isSome_iff_exists.mp ih
    obtain ⟨d, hd, -⟩ := h.closed.calls hc he
    rw [hd]
    rfl

/-- The frames do not matter but for the segments. -/
lemma withFrames {frames} (hs : s.Segmented g frames s.stack) :
    Inv g { s with frames := frames } := by
  have hlater : Later s { s with frames := frames } :=
    ⟨fun _ => rfl, fun _ hx => hx, fun _ => le_rfl⟩
  exact ⟨h.range, h.numbered, h.sorted, h.onStack, h.seen, h.opened, h.low_le, h.low_eq,
    hs.later hlater fun _ => h.seen_of_mem, h.closed⟩

/-- The bound of a node is lowered to the number of an open node that it leads to. -/
lemma lowerTo {y : ℕ} (hy : y ∈ s.stack) (hr : Reach g v y) : Inv g (s.lowerTo v (s.num y)) := by
  have hle (x : ℕ) : (s.lowerTo v (s.num y)).low x ≤ s.low x := by
    by_cases hx : x = v
    · subst hx
      simp only [Search.lowerTo, update_self]
      exact min_le_left _ _
    · simp [Search.lowerTo, update_of_ne hx]
  have hlater : Later s (s.lowerTo v (s.num y)) :=
    ⟨fun _ => rfl, fun _ hx => hx, fun {x} _ => hle x⟩
  refine ⟨h.range, h.numbered, h.sorted, h.onStack, h.seen, h.opened,
    fun {x} hx => (hle x).trans (h.low_le hx), fun {x} hx => ?_,
    h.segmented.later hlater fun _ => h.seen_of_mem, h.closed⟩
  by_cases hxv : x = v
  · subst hxv
    simp only [Search.lowerTo, update_self]
    rcases min_choice (s.low x) (s.num y) with hmin | hmin
    · rw [hmin]
      exact h.low_eq hx
    · rw [hmin]
      exact ⟨y, hy, rfl, hr⟩
  · simp only [Search.lowerTo, update_of_ne hxv]
    exact h.low_eq hx

end

lemma later_enter (hw : s.order w = none) : Later s (s.enter w) := by
  have hne {x : ℕ} (hx : (s.order x).isSome = true) : x ≠ w := by
    rintro rfl
    rw [hw] at hx
    cases hx
  refine ⟨fun hx => update_of_ne (hne hx) _ _, fun hx hmem => ?_, fun hx => ?_⟩
  · exact (mem_cons.mp hmem).resolve_left (hne hx)
  · exact (update_of_ne (hne hx) _ _).le

lemma enter (h : Inv g s) (hw : s.order w = none) (hlt : w < g.length) {frames}
    (hp : ∀ frame ∈ frames.head?, Reach g frame.1 w) (hs : (s.enter w).Segmented g frames s.stack) :
    Inv g { s.enter w with frames := (w, 0) :: frames } := by
  have hlater := later_enter hw
  have hself : (s.enter w).order w = some s.next := update_self _ _ _
  have hother {x : ℕ} (hx : x ≠ w) : (s.enter w).order x = s.order x := update_of_ne hx _ _
  have hnumself : (s.enter w).num w = s.next := by rw [num, hself, Option.getD_some]
  have hlowself : (s.enter w).low w = s.next := update_self _ _ _
  have hne {x : ℕ} (hx : x ∈ s.stack) : x ≠ w := by
    rintro rfl
    have hseen := h.seen_of_mem hx
    rw [hw] at hseen
    cases hseen
  have hnum {x : ℕ} (hx : x ∈ s.stack) : (s.enter w).num x = s.num x :=
    hlater.num (h.seen_of_mem hx)
  have hlow {x : ℕ} (hx : x ∈ s.stack) : (s.enter w).low x = s.low x :=
    update_of_ne (hne hx) _ _
  have hunseen : ¬ (w ∈ s.stack ∨ (s.component w).isSome = true) := by
    rw [← h.seen, hw]
    exact nofun
  refine ⟨fun {x} hx => ?_, fun {x i} hx => ?_, ?_, fun {x} => ?_, fun {x} => ?_, fun {x} hx => ?_,
    fun {x} hx => ?_, fun {x} hx => ?_, ?_, h.closed⟩
  · by_cases hxw : x = w
    · exact hxw ▸ hlt
    · exact h.range (hother hxw ▸ hx)
  · by_cases hxw : x = w
    · subst hxw
      cases hself.symm.trans hx
      exact Nat.lt_succ_self _
    · exact (h.numbered (hother hxw ▸ hx)).trans (Nat.lt_succ_self _)
  · refine pairwise_cons.mpr ⟨fun x hx => ?_, h.sorted.imp_of_mem fun {a b} ha hb hab => ?_⟩
    · exact (hnum hx).trans_lt ((h.num_lt hx).trans_eq hnumself.symm)
    · exact (hnum hb).trans_lt (hab.trans_eq (hnum ha).symm)
  · by_cases hxw : x = w
    · subst hxw
      simp [Search.enter]
    · simp only [Search.enter, update_of_ne hxw, mem_cons, hxw, false_or]
      exact h.onStack
  · by_cases hxw : x = w
    · subst hxw
      exact iff_of_true (by rw [hself]; rfl) (.inl mem_cons_self)
    · change ((s.enter w).order x).isSome = true ↔ x ∈ w :: s.stack ∨ _
      rw [hother hxw, mem_cons, or_iff_right hxw]
      exact h.seen
  · rcases mem_cons.mp hx with rfl | hx
    · exact Option.not_isSome_iff_eq_none.mp fun hsome => hunseen (.inr hsome)
    · exact h.opened hx
  · rcases mem_cons.mp hx with rfl | hx
    · exact (hlowself.trans hnumself.symm).le
    · exact (hlow hx).trans_le ((h.low_le hx).trans_eq (hnum hx).symm)
  · rcases mem_cons.mp hx with rfl | hx
    · exact ⟨x, mem_cons_self, hnumself.trans hlowself.symm, .refl⟩
    · obtain ⟨y, hy, hn, hr⟩ := h.low_eq hx
      refine ⟨y, mem_cons_of_mem w hy, ?_, hr⟩
      exact (hnum hy).trans (hn.trans (hlow hx).symm)
  have hframes : Later (s.enter w) { s.enter w with frames := (w, 0) :: frames } :=
    ⟨fun _ => rfl, fun _ hx => hx, fun _ => le_rfl⟩
  refine ⟨[], s.stack, rfl, nofun, nofun, hp, hs.later hframes fun x hx => ?_⟩
  rw [hlater.order (h.seen_of_mem hx)]
  exact h.seen_of_mem hx

end Inv

/-! ## Closing a component -/

/-- The nodes down to `v` leave the stack for the component that is open. -/
lemma popTo_append {left below : List ℕ} (hv : v ∉ left) : s.popTo v (left ++ v :: below) = { s with
      onStack := fun x => if x ∈ left ∨ x = v then false else s.onStack x
      component := fun x => if x ∈ left ∨ x = v then some s.components else s.component x
      stack := below } := by
  induction left generalizing s with
  | nil =>
    simp only [nil_append, popTo, if_true, not_mem_nil]
    congr 1 <;> funext x <;> by_cases hx : x = v <;> simp [hx]
  | cons w left ih =>
    have hwv : w ≠ v := fun heq => hv (heq ▸ mem_cons_self)
    rw [cons_append, popTo]
    simp only [hwv, if_false]
    rw [ih fun hmem => hv (mem_cons_of_mem w hmem)]
    congr 1 <;> funext x <;> by_cases hx : x = w <;> by_cases hmem : x ∈ left ∨ x = v <;> simp [hx]

section Close
variable {left below : List ℕ}

/-- A component that is about to be closed: the top segment, whose frame has scanned all of its
successors and is a root. -/
structure Root (g : Adjacency) (s : Search) (v : ℕ) (left below : List ℕ) : Prop where
  inv : Inv g s
  stack : s.stack = left ++ v :: below
  covers : ∀ x, x ∈ left ∨ x = v → s.Covers v (Lib.Digraph.next g x)
  reach : ∀ x ∈ left, Reach g v x
  lower : ∀ x ∈ left, s.low x < s.num x
  root : s.low v = s.num v

namespace Root
variable (h : Root g s v left below)
include h

lemma mem_stack : x ∈ s.stack ↔ (x ∈ left ∨ x = v) ∨ x ∈ below := by
  rw [h.stack, mem_append, mem_cons, or_assoc]

lemma num_lt_of_below (hx : x ∈ below) : s.num x < s.num v := by
  have hsorted := h.inv.sorted
  rw [h.stack] at hsorted
  exact (pairwise_cons.mp (pairwise_append.mp hsorted).2.1).1 x hx

lemma num_lt_of_left (hx : x ∈ left) : s.num v < s.num x := by
  have hsorted := h.inv.sorted
  rw [h.stack] at hsorted
  exact (pairwise_append.mp hsorted).2.2 x hx v mem_cons_self

section
variable (hx : x ∈ left ∨ x = v)
include hx

lemma not_below : x ∉ below := by
  intro hb
  have hlt := h.num_lt_of_below hb
  rcases hx with hx | rfl
  · exact (h.num_lt_of_left hx).asymm hlt
  · exact hlt.false

lemma not_closed : s.component x = none :=
  h.inv.opened (h.mem_stack.mpr (.inl hx))

/-- The nodes of the component lead to one another and to closed nodes. -/
lemma leads {y : ℕ} (hxy : Reach g x y) : (y ∈ left ∨ y = v) ∨ (s.component y).isSome = true := by
  induction hxy with
  | refl => exact .inl hx
  | @tail y z _ he ih =>
    rcases ih with hy | hy
    · obtain ⟨hs, hlow⟩ := h.covers y hy z he
      refine (h.inv.seen.mp hs).imp_left fun hz => ?_
      refine (h.mem_stack.mp hz).resolve_right fun hb => ?_
      have hle := hlow hz
      rw [h.root] at hle
      exact (h.num_lt_of_below hb).not_ge hle
    · exact .inr (h.inv.closed_of_reach hy (.single he))

/-- Each of them leads to the root: to a node with a smaller number, and so on. -/
lemma reach_root : Reach g x v := by
  induction hnum : s.num x using Nat.strong_induction_on generalizing x with
  | _ number ih =>
    rcases hx with hl | rfl
    swap
    · exact .refl
    obtain ⟨y, hy, hlow, hr⟩ := h.inv.low_eq (h.mem_stack.mpr (.inl (.inl hl)))
    have hlt : s.num y < number := by
      rw [hlow, ← hnum]
      exact h.lower x hl
    have hmem : y ∈ left ∨ y = v := by
      refine (h.leads (.inl hl) hr).resolve_right fun hc => ?_
      rw [h.inv.opened hy] at hc
      cases hc
    exact hr.trans (ih _ hlt hmem rfl)

lemma root_reach : Reach g v x := by
  rcases hx with hx | rfl
  · exact h.reach x hx
  · exact .refl

end

lemma closed : Closed g (fun x => if x ∈ left ∨ x = v then some s.components else s.component x)
    (s.components + 1) := by
  have hold {x c : ℕ} (hc : s.component x = some c) : ¬ (x ∈ left ∨ x = v) := by
    intro hx
    rw [h.not_closed hx] at hc
    cases hc
  -- a node that is closed already does not lead to the component
  have hapart {x y : ℕ} (hx : x ∈ left ∨ x = v) (hy : (s.component y).isSome = true) :
      ¬ Reach g y x := by
    intro hyx
    have hclosed := h.inv.closed_of_reach hy hyx
    rw [h.not_closed hx] at hclosed
    cases hclosed
  have hcases {x c : ℕ}
      (hc : (if x ∈ left ∨ x = v then some s.components else s.component x) = some c) :
      (x ∈ left ∨ x = v) ∧ c = s.components ∨ s.component x = some c := by
    split at hc
    · exact .inl ⟨‹_›, (Option.some.inj hc).symm⟩
    · exact .inr hc
  refine ⟨fun hc => ?_, fun {c} hc => ?_, fun {x c w} hc he => ?_, fun {x y c d} hc hd => ?_⟩
  · obtain ⟨-, rfl⟩ | hc := hcases hc
    · exact Nat.lt_succ_self _
    · exact (h.inv.closed.below hc).trans (Nat.lt_succ_self _)
  · rcases Nat.lt_succ_iff_lt_or_eq.mp hc with hlt | rfl
    · obtain ⟨x, hx⟩ := h.inv.closed.dense hlt
      exact ⟨x, (if_neg (hold hx)).trans hx⟩
    · exact ⟨v, if_pos (.inr rfl)⟩
  · obtain ⟨hx, rfl⟩ | hc := hcases hc
    · rcases h.leads hx (.single he) with hw | hw
      · exact ⟨_, if_pos hw, le_rfl⟩
      · obtain ⟨d, hd⟩ := Option.isSome_iff_exists.mp hw
        exact ⟨d, (if_neg (hold hd)).trans hd, (h.inv.closed.below hd).le⟩
    · obtain ⟨d, hd, hle⟩ := h.inv.closed.calls hc he
      exact ⟨d, (if_neg (hold hd)).trans hd, hle⟩
  obtain ⟨hx, rfl⟩ | hc := hcases hc <;> obtain ⟨hy, rfl⟩ | hd := hcases hd
  · exact iff_of_true rfl ⟨(h.reach_root hx).trans (h.root_reach hy),
      (h.reach_root hy).trans (h.root_reach hx)⟩
  · refine iff_of_false (h.inv.closed.below hd).ne' fun hr => ?_
    exact hapart hx (by rw [hd]; rfl) hr.2
  · refine iff_of_false (h.inv.closed.below hc).ne fun hr => ?_
    exact hapart hy (by rw [hc]; rfl) hr.1
  · exact h.inv.closed.same hc hd

lemma not_left : v ∉ left := fun hv => (h.num_lt_of_left hv).false

lemma closeComponent (hrest : s.Segmented g rest below) :
    Inv g ({ s with frames := rest }.closeComponent v) := by
  have hclose : { s with frames := rest }.closeComponent v = { s with
      frames := rest
      onStack := fun x => if x ∈ left ∨ x = v then false else s.onStack x
      component := fun x => if x ∈ left ∨ x = v then some s.components else s.component x
      stack := below
      components := s.components + 1 } := by
    unfold Search.closeComponent
    rw [h.stack, popTo_append h.not_left]
  have hmem {x : ℕ} (hx : x ∈ below) : x ∈ s.stack := h.mem_stack.mpr (.inr hx)
  have hkept {x : ℕ} (hx : ¬ (x ∈ left ∨ x = v)) : x ∈ below ↔ x ∈ s.stack := by
    rw [h.mem_stack, or_iff_right hx]
  have hlater : Later s ({ s with frames := rest }.closeComponent v) := by
    rw [hclose]
    exact ⟨fun _ => rfl, fun _ hx => hmem hx, fun _ => le_rfl⟩
  rw [hclose] at hlater ⊢
  refine ⟨h.inv.range, h.inv.numbered, ?_, fun {x} => ?_, fun {x} => ?_, fun {x} hx => ?_,
    fun hx => h.inv.low_le (hmem hx), fun {x} hx => ?_, ?_, h.closed⟩
  · have hsorted := h.inv.sorted
    rw [h.stack] at hsorted
    exact (pairwise_cons.mp (pairwise_append.mp hsorted).2.1).2
  · dsimp only
    by_cases hx : x ∈ left ∨ x = v
    · rw [if_pos hx]
      exact iff_of_false nofun (h.not_below hx)
    · rw [if_neg hx, h.inv.onStack, hkept hx]
  · dsimp only
    by_cases hx : x ∈ left ∨ x = v
    · rw [if_pos hx]
      exact iff_of_true (h.inv.seen_of_mem (h.mem_stack.mpr (.inl hx))) (.inr rfl)
    · rw [if_neg hx, h.inv.seen, hkept hx]
  · have hopen : ¬ (x ∈ left ∨ x = v) := fun hl => h.not_below hl hx
    dsimp only
    rw [if_neg hopen]
    exact h.inv.opened (hmem hx)
  · obtain ⟨y, hy, hnum, hr⟩ := h.inv.low_eq (hmem hx)
    refine ⟨y, (hkept fun hl => ?_).mpr hy, hnum, hr⟩
    -- the bound of a node below is below the root
    have hlt : s.num y < s.num v := by
      rw [hnum]
      exact (h.inv.low_le (hmem hx)).trans_lt (h.num_lt_of_below hx)
    rcases hl with hl | rfl
    · exact (h.num_lt_of_left hl).asymm hlt
    · exact hlt.false
  · exact hrest.later hlater fun x hx => h.inv.seen_of_mem (hmem hx)

end Root

end Close

lemma Inv.leave (h : Inv g s) (hf : s.frames = (v, pos) :: rest)
    (hend : (Lib.Digraph.next g v)[pos]? = none)
    (hlow : ∀ frame ∈ rest.head?, s.low frame.1 ≤ s.low v) :
    Inv g (if s.order v = some (s.low v) then { s with frames := rest }.closeComponent v
      else { s with frames := rest }) := by
  have hsegments := h.segmented
  rw [hf] at hsegments
  obtain ⟨left, below, hs, hscanned, hl, hp, hr⟩ := id hsegments
  have hv : v ∈ s.stack := by
    rw [hs]
    exact mem_append_right _ mem_cons_self
  have hnum : s.order v = some (s.num v) := by
    obtain ⟨i, hi⟩ := Option.isSome_iff_exists.mp (h.seen_of_mem hv)
    rw [num, hi, Option.getD_some]
  rw [take_of_length_le (getElem?_eq_none_iff.mp hend)] at hscanned
  split
  · have hroot : Root g s v left below := by
      refine ⟨h, hs, fun x hx => ?_, fun x hx => (hl x hx).1, fun x hx => (hl x hx).2.1, ?_⟩
      · rcases hx with hx | rfl
        · exact (hl x hx).2.2
        · exact hscanned
      · exact (Option.some.inj (hnum.symm.trans ‹_›)).symm
    exact hroot.closeComponent hr
  have hless : s.low v < s.num v := by
    refine lt_of_le_of_ne (h.low_le hv) fun heq => ?_
    exact ‹¬ s.order v = some (s.low v)› (heq ▸ hnum)
  refine h.withFrames ?_
  cases rest with
  | cons frame rest => exact hsegments.join hend (hlow frame rfl) hless
  | nil =>
    -- without a frame below, the bound would be the number of a node above
    obtain ⟨y, hy, hylow, -⟩ := h.low_eq hv
    have hsorted := h.sorted
    obtain rfl : below = [] := hr
    rw [hs] at hy hsorted
    rw [← hylow] at hless
    rcases mem_append.mp hy with hy | hy
    · exact absurd ((pairwise_append.mp hsorted).2.2 y hy v mem_cons_self) hless.asymm
    · exact absurd (mem_singleton.mp hy ▸ hless) (lt_irrefl _)

/-- What a round does: it enters a node, accounts for one that is seen, or leaves the node on
top. -/
lemma step_cases (hs : s.step g = some s') : ∃ v pos rest, s.frames = (v, pos) :: rest ∧
    ((∃ w, (Lib.Digraph.next g v)[pos]? = some w ∧ s.order w = none ∧
        s' = { s.enter w with frames := (w, 0) :: (v, pos + 1) :: rest }) ∨
      (∃ w number, (Lib.Digraph.next g v)[pos]? = some w ∧ s.order w = some number ∧
        s' = { (if s.onStack w then s.lowerTo v number else s) with
          frames := (v, pos + 1) :: rest }) ∨
      ((Lib.Digraph.next g v)[pos]? = none ∧ ∃ s₁,
        (rest = [] ∧ s₁ = s ∨ ∃ parent rest', rest = parent :: rest' ∧
          s₁ = s.lowerTo parent.1 (s.low v)) ∧
        s' = if s₁.order v = some (s₁.low v) then { s₁ with frames := rest }.closeComponent v
          else { s₁ with frames := rest })) := by
  unfold Search.step at hs
  cases hf : s.frames with
  | nil =>
    rw [hf] at hs
    cases hs
  | cons frame rest =>
    obtain ⟨v, pos⟩ := frame
    rw [hf] at hs
    dsimp only at hs
    refine ⟨v, pos, rest, rfl, ?_⟩
    cases hw : (Lib.Digraph.next g v)[pos]? with
    | none =>
      rw [hw] at hs
      cases hs
      refine .inr (.inr ⟨rfl, ?_⟩)
      cases rest with
      | nil => exact ⟨s, .inl ⟨rfl, rfl⟩, rfl⟩
      | cons parent rest => exact ⟨_, .inr ⟨parent, rest, rfl, rfl⟩, rfl⟩
    | some w =>
      rw [hw] at hs
      dsimp only at hs
      cases hn : s.order w with
      | none =>
        rw [hn] at hs
        exact .inl ⟨w, rfl, hn, (Option.some.inj hs).symm⟩
      | some number =>
        rw [hn] at hs
        cases hs
        refine .inr (.inl ⟨w, number, rfl, hn, ?_⟩)
        split <;> rfl

lemma Inv.step (hr : InRange g) (h : Inv g s) (hstep : s.step g = some s') : Inv g s' := by
  obtain ⟨v, pos, rest, hf, hc⟩ := step_cases hstep
  have hsegments := h.segmented
  rw [hf] at hsegments
  have hv : v ∈ s.stack := by
    obtain ⟨left, below, hs, -⟩ := hsegments
    rw [hs]
    exact mem_append_right _ mem_cons_self
  obtain ⟨w, hw, hu, rfl⟩ | ⟨w, number, hw, hn, rfl⟩ | ⟨hend, s₁, hl, rfl⟩ := hc
  · have hedge : Edge g v w := mem_of_getElem? hw
    have hlater := later_enter hu
    have hseg := hsegments.later hlater fun _ => h.seen_of_mem
    refine h.enter hu (hr v w hedge) ?_ (hseg.advance hw ?_)
    · rintro _ ⟨⟩
      exact .single hedge
    rintro _ (_ | ⟨_, ⟨⟩⟩)
    have hself : (s.enter w).order w = some s.next := update_self _ _ _
    refine ⟨by rw [hself]; rfl, fun _ => ?_⟩
    rw [num, hself]
    exact (hlater.low (h.seen_of_mem hv)).trans ((h.low_le hv).trans (h.num_lt hv).le)
  · have hedge : Edge g v w := mem_of_getElem? hw
    have hnum : s.num w = number := by rw [num, hn, Option.getD_some]
    have hseen : (s.order w).isSome = true := by rw [hn]; rfl
    split
    · have hmem : w ∈ s.stack := h.onStack.mp ‹_›
      have hlower := h.lowerTo hmem (.single hedge)
      rw [hnum] at hlower
      refine hlower.withFrames (hf ▸ hlower.segmented |>.advance hw ?_)
      rintro _ (_ | ⟨_, ⟨⟩⟩)
      refine ⟨hseen, fun _ => ?_⟩
      simp only [Search.lowerTo, update_self]
      exact (min_le_right _ _).trans_eq hnum.symm
    · refine h.withFrames (hsegments.advance hw ?_)
      rintro _ (_ | ⟨_, ⟨⟩⟩)
      exact ⟨hseen, fun hmem => absurd (h.onStack.mpr hmem) ‹_›⟩
  obtain ⟨rfl, rfl⟩ | ⟨parent, rest', rfl, rfl⟩ := hl
  · exact h.leave hf hend nofun
  obtain ⟨y, hy, hnum, hreach⟩ := h.low_eq hv
  obtain ⟨left, _, hs, -, -, hp, left', below, rfl, -⟩ := hsegments
  have hlower := h.lowerTo hy ((hp parent rfl).trans hreach)
  rw [hnum] at hlower
  have hne : v ≠ parent.1 := by
    have hsorted := h.sorted
    rw [hs] at hsorted
    have hless := (pairwise_cons.mp (pairwise_append.mp hsorted).2.1).1 parent.1
      (mem_append_right _ mem_cons_self)
    exact fun heq => (heq ▸ hless).false
  have hlow : (s.lowerTo parent.1 (s.low v)).low v = s.low v := update_of_ne hne _ _
  refine hlower.leave hf hend fun frame hframe => ?_
  cases hframe
  rw [hlow]
  simp only [Search.lowerTo, update_self]
  exact min_le_right _ _

/-- The rounds that are left: one for each successor that is not scanned, and one to leave. -/
def remaining (g : Adjacency) (s : Search) : ℕ :=
  (∑ v ∈ Finset.range g.length, if s.order v = none then (Lib.Digraph.next g v).length + 1 else 0) +
    (s.frames.map fun frame => (Lib.Digraph.next g frame.1).length - frame.2 + 1).sum

lemma unseen_enter (hw : s.order w = none) (hlt : w < g.length) : (∑ v ∈ Finset.range g.length,
      if (s.enter w).order v = none then (Lib.Digraph.next g v).length + 1 else 0) +
        ((Lib.Digraph.next g w).length + 1) =
      ∑ v ∈ Finset.range g.length, if s.order v = none then (Lib.Digraph.next g v).length + 1
        else 0 := by
  have hmem : w ∈ Finset.range g.length := Finset.mem_range.mpr hlt
  rw [← Finset.sum_erase_add _ _ hmem, ← Finset.sum_erase_add _ _ hmem, hw,
    show (s.enter w).order w = some s.next from update_self _ _ _, if_neg nofun, add_zero]
  congr 1
  refine Finset.sum_congr rfl fun x hx => ?_
  rw [show (s.enter w).order x = s.order x from update_of_ne (Finset.ne_of_mem_erase hx) _ _]

lemma popTo_frame (v : ℕ) (stack : List ℕ) :
    (s.popTo v stack).order = s.order ∧ (s.popTo v stack).frames = s.frames := by
  induction stack generalizing s with
  | nil => exact ⟨rfl, rfl⟩
  | cons w rest ih =>
    rw [popTo]
    split
    · exact ⟨rfl, rfl⟩
    · exact ih

lemma leave_frame (s : Search) (v : ℕ) (rest : List (ℕ × ℕ)) :
    (if s.order v = some (s.low v) then { s with frames := rest }.closeComponent v
      else { s with frames := rest }).order = s.order ∧
    (if s.order v = some (s.low v) then { s with frames := rest }.closeComponent v
      else { s with frames := rest }).frames = rest := by
  split
  · exact popTo_frame (s := { s with frames := rest }) v s.stack
  · exact ⟨rfl, rfl⟩

lemma remaining_step (hr : InRange g) (hs : s.step g = some s') :
    s'.remaining g < s.remaining g := by
  obtain ⟨v, pos, rest, hf, hc⟩ := step_cases hs
  have hscan {w : ℕ} (hw : (Lib.Digraph.next g v)[pos]? = some w) :
      pos < (Lib.Digraph.next g v).length := (List.getElem?_eq_some_iff.mp hw).1
  unfold remaining
  rw [hf]
  obtain ⟨w, hw, hu, rfl⟩ | ⟨w, number, hw, hn, rfl⟩ | ⟨hend, s₁, hlowered, rfl⟩ := hc
  · have hlt := hr v w (mem_of_getElem? hw)
    have hpos := hscan hw
    have hsum := unseen_enter (g := g) hu hlt
    simp only [map_cons, sum_cons]
    omega
  · have hpos := hscan hw
    have horder : (if s.onStack w then s.lowerTo v number else s).order = s.order := by
      split <;> rfl
    simp only [horder, map_cons, sum_cons]
    omega
  have horder : s₁.order = s.order := by
    obtain ⟨-, rfl⟩ | ⟨parent, rest', -, rfl⟩ := hlowered <;> rfl
  obtain ⟨hleft, hl⟩ := leave_frame s₁ v rest
  rw [hleft, hl, horder]
  simp only [map_cons, sum_cons]
  omega

lemma frames_of_step_eq_none (h : s.step g = none) : s.frames = [] := by
  cases hf : s.frames with
  | nil => rfl
  | cons frame rest =>
    unfold Search.step at h
    rw [hf] at h
    dsimp only at h
    split at h
    · split at h <;> cases h
    · cases h

lemma seen_of_step (hs : s.step g = some s') (hx : (s.order x).isSome = true) :
    (s'.order x).isSome = true := by
  obtain ⟨v, pos, rest, -, hc⟩ := step_cases hs
  obtain ⟨w, -, hu, rfl⟩ | ⟨w, number, -, -, rfl⟩ | ⟨-, s₁, hl, rfl⟩ := hc
  · exact ((Inv.later_enter hu).order hx).symm ▸ hx
  · split <;> exact hx
  · rw [(leave_frame s₁ v rest).1]
    obtain ⟨-, rfl⟩ | ⟨parent, rest', -, rfl⟩ := hl <;> exact hx

/-! ## All roots -/

lemma sum_length_next (g : Adjacency) :
    ∑ v ∈ Finset.range g.length, (Lib.Digraph.next g v).length = (g.map List.length).sum := by
  induction g with
  | nil => rfl
  | cons targets g ih =>
    rw [length_cons, Finset.sum_range_succ', map_cons, sum_cons, ← ih, add_comm]
    rfl

lemma remaining_le (hf : s.frames = []) : s.remaining g ≤ g.length + (g.map List.length).sum := by
  have hsum : ∑ v ∈ Finset.range g.length, ((Lib.Digraph.next g v).length + 1) =
      (g.map List.length).sum + g.length := by
    rw [Finset.sum_add_distrib, sum_length_next, Finset.sum_const]
    simp
  rw [remaining, hf, map_nil, sum_nil, add_zero, add_comm, ← hsum]
  refine Finset.sum_le_sum fun v _ => ?_
  split
  · exact le_rfl
  · exact Nat.zero_le _

/-- Between two roots nothing is open. -/
structure Settled (g : Adjacency) (s : Search) : Prop where
  inv : Inv g s
  frames : s.frames = []

lemma Settled.stack (h : Settled g s) : s.stack = [] := by
  have hsegments := h.inv.segmented
  rwa [h.frames] at hsegments

lemma Settled.component (h : Settled g s) (hx : (s.order x).isSome = true) :
    (s.component x).isSome = true := by
  refine (h.inv.seen.mp hx).resolve_left ?_
  rw [h.stack]
  exact nofun

lemma settled_searchFrom (hr : InRange g) (h : Settled g s) {fuel root : ℕ}
    (hf : g.length + (g.map List.length).sum ≤ fuel) (hroot : root < g.length) :
    ∃ s', s.searchFrom g fuel root = some s' ∧ Settled g s' ∧ (s'.order root).isSome = true ∧
      ∀ x, (s.order x).isSome = true → (s'.order x).isSome = true := by
  unfold searchFrom
  cases hs : s.order root with
  | some number => exact ⟨s, rfl, h, by rw [hs]; rfl, fun _ hx => hx⟩
  | none =>
    have henter : Inv g (s.enter root) := by
      have hinv : Inv g { s.enter root with frames := [(root, 0)] } :=
        h.inv.enter hs hroot nofun h.stack
      rwa [show { s.enter root with frames := [(root, 0)] } = s.enter root by
        rw [Search.enter, h.frames]] at hinv
    have hremaining : (s.enter root).remaining g ≤ fuel := by
      have hsum := unseen_enter (g := g) hs hroot
      have hle := (remaining_le (g := g) h.frames).trans hf
      unfold remaining at hle ⊢
      rw [show (s.enter root).frames = (root, 0) :: s.frames from rfl, h.frames]
      simp only [map_cons, sum_cons, map_nil, sum_nil] at hle ⊢
      omega
    have hends : (run (step g) fuel (s.enter root)).frames = [] :=
      frames_of_step_eq_none (run_ends (fun _ _ => remaining_step hr) hremaining)
    obtain ⟨hinv, hk⟩ : Inv g (run (step g) fuel (s.enter root)) ∧
        ∀ x, ((s.enter root).order x).isSome = true →
          ((run (step g) fuel (s.enter root)).order x).isSome = true :=
      run_invariant
        (I := fun u => Inv g u ∧ ∀ x, ((s.enter root).order x).isSome = true →
          (u.order x).isSome = true)
        (fun u u' hu hstep => ⟨hu.1.step hr hstep, fun x hx => seen_of_step hstep (hu.2 x hx)⟩)
        fuel ⟨henter, fun _ hx => hx⟩
    refine ⟨_, if_pos hends, ⟨hinv, hends⟩, hk root ?_, fun x hx => hk x ?_⟩
    · rw [show (s.enter root).order root = some s.next from update_self _ _ _]
      rfl
    · rw [(Inv.later_enter hs).order hx]
      exact hx

/-- Every node is seen from some root, and nothing is left open. -/
lemma settled_searches (hr : InRange g) {fuel : ℕ} (hf : g.length + (g.map List.length).sum ≤ fuel)
    {k : ℕ} (hk : k ≤ g.length) :
    ∃ s, (List.range k).foldlM (searchFrom g fuel) {} = some s ∧ Settled g s ∧
      ∀ x < k, (s.order x).isSome = true := by
  induction k with
  | zero =>
    refine ⟨{}, rfl, ⟨⟨nofun, nofun, .nil, ?_, ?_, nofun, nofun, nofun, rfl, nofun, nofun, nofun,
      nofun⟩,
      rfl⟩, nofun⟩
    · exact iff_of_false nofun nofun
    · exact iff_of_false nofun fun h => h.elim nofun nofun
  | succ k ih =>
    obtain ⟨s, hrun, hs, hseen⟩ := ih (Nat.le_of_succ_le hk)
    obtain ⟨s', hroot, hs', hself, hkept⟩ := settled_searchFrom hr hs hf hk
    refine ⟨s', ?_, hs', fun x hx => ?_⟩
    · rw [range_succ, foldlM_append, hrun]
      change (searchFrom g fuel s k >>= fun s => pure s) = some s'
      rw [hroot]
      rfl
    · rcases Nat.lt_succ_iff_lt_or_eq.mp hx with hlt | rfl
      · exact hkept x (hseen x hlt)
      · exact hself

end Search

/-- The components of a call graph: two functions have one id exactly if each leads to the other,
the ids are dense from zero, and a call into another component leads to a smaller id. -/
theorem stronglyConnectedComponents_spec {succ : Adjacency} (hrange : InRange succ) {fuel : ℕ}
    (hfuel : succ.length + (succ.map List.length).sum ≤ fuel) :
    ∃ component : List ℕ, stronglyConnectedComponents fuel succ = some (component.map some) ∧
      component.length = succ.length ∧ (∀ u v, u < succ.length → v < succ.length →
        (component[u]? = component[v]? ↔ Reach succ u v ∧ Reach succ v u)) ∧
      (∃ count, ∀ c, c ∈ component ↔ c < count) ∧
      ∀ {u v i j}, component[u]? = some i → component[v]? = some j → Edge succ u v → i ≠ j →
        j < i := by
  obtain ⟨s, hrun, hsettled, hseen⟩ := Search.settled_searches hrange hfuel le_rfl
  obtain ⟨hinv, -⟩ := id hsettled
  have hcomponent {x : ℕ} (hx : x < succ.length) :
      s.component x = some ((s.component x).getD 0) := by
    obtain ⟨c, hc⟩ := Option.isSome_iff_exists.mp (hsettled.component (hseen x hx))
    rw [hc, Option.getD_some]
  -- a node that has a component was seen
  have hnode {x c : ℕ} (hc : s.component x = some c) : x < succ.length :=
    hinv.range (hinv.seen.mpr (.inr (by rw [hc]; rfl)))
  have hget (x : ℕ) : ((List.range succ.length).map fun x => (s.component x).getD 0)[x]? =
      s.component x := by
    by_cases hx : x < succ.length
    · rw [getElem?_map, getElem?_range hx, Option.map_some, ← hcomponent hx]
    rw [getElem?_eq_none (by simpa using hx)]
    cases hc : s.component x with
    | none => rfl
    | some c => exact absurd (hnode hc) hx
  refine ⟨(List.range succ.length).map fun x => (s.component x).getD 0, ?_, by simp,
    fun u v hu hv => ?_, ⟨s.components, fun c => ?_⟩, fun {u v i j} hi hj hedge hne => ?_⟩
  · rw [stronglyConnectedComponents, hrun]
    refine congrArg some ?_
    rw [List.map_map]
    exact map_congr_left fun x hx => hcomponent (mem_range.mp hx)
  · rw [hget, hget]
    have hsame := hinv.closed.same (hcomponent hu) (hcomponent hv)
    rw [← hsame, hcomponent hu, hcomponent hv]
    simp
  · rw [mem_map]
    constructor
    · rintro ⟨x, hx, rfl⟩
      exact hinv.closed.below (hcomponent (mem_range.mp hx))
    · intro hc
      obtain ⟨x, hx⟩ := hinv.closed.dense hc
      exact ⟨x, mem_range.mpr (hnode hx), by rw [hx, Option.getD_some]⟩
  · rw [hget] at hi hj
    obtain ⟨d, hd, hle⟩ := hinv.closed.calls hi hedge
    cases hj.symm.trans hd
    exact lt_of_le_of_ne hle hne.symm

/-- Two functions that call each other, below one that calls them. -/
theorem stronglyConnectedComponents_of_mutual_calls : ∃ component : List ℕ,
    stronglyConnectedComponents 7 [[1], [2], [1], []] = some (component.map some) ∧
      component[1]? = component[2]? := by
  have hrange : InRange [[1], [2], [1], []] := by
    intro x y hxy
    match x with
    | 0 | 1 | 2 =>
      obtain rfl := mem_singleton.mp hxy
      decide
    | 3 | x + 4 => cases hxy
  obtain ⟨component, hrun, -, hsame, -⟩ :=
    stronglyConnectedComponents_spec hrange (by decide : _ ≤ 7)
  refine ⟨component, hrun, (hsame 1 2 (by decide) (by decide)).mpr ⟨.single ?_, .single ?_⟩⟩
  · exact mem_singleton_self 2
  · exact mem_singleton_self 1

end Pathologist.Contexts
