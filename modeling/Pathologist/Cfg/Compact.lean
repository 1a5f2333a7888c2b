import Pathologist.Cfg
import Pathologist.Lib.Distinct
import Pathologist.Lib.Forwarding
import Pathologist.Lib.Numbering

/-!
# Removing blocks that only fall through

`FunctionCfg.compact` removes event-free ordinary blocks whose one way out falls
through, and sends what led to them to the block that follows. A cycle of such
blocks keeps the block the walk met it at.
-/
namespace Pathologist.Cfg
open Relation Lib.Distinct Lib.Forwarding Lib.Numbering Option
variable (edges : List CfgEdge)

def FunctionCfg.outDegree (g : FunctionCfg) (b : ℕ) : ℕ := g.edges.countP (·.src = b)

/-- The edge is the one way out of an event-free ordinary block, and falls through. -/
def FunctionCfg.forwards (g : FunctionCfg) (e : CfgEdge) : Bool :=
  e.kind = .fallthrough && e.dst ≠ e.src && g.outDegree e.src = 1 &&
    (g.blocks[e.src]?).any fun b => b.kind = .ordinary && b.events.isEmpty

/-- The one successor of each removable block. -/
def FunctionCfg.forwardTable (g : FunctionCfg) : Forward :=
  g.edges.foldl (fun f e => if g.forwards e then f.set e.src (some e.dst) else f)
    (List.replicate g.blocks.length none)

/-- `a` is an event-free ordinary block whose one way out falls through to `b`. -/
def FunctionCfg.FallsTo (g : FunctionCfg) (a b : ℕ) : Prop :=
  (∃ blk, g.blocks[a]? = some blk ∧ blk.kind = .ordinary ∧ blk.events = []) ∧ b ≠ a ∧
    g.edges.filter (fun e => e.src = a) = [⟨a, b, .fallthrough⟩]

namespace FunctionCfg
variable {g : FunctionCfg}

lemma forwards_iff {e : CfgEdge} (he : e ∈ g.edges) :
    g.forwards e = true ↔ g.FallsTo e.src e.dst ∧ e.kind = .fallthrough := by
  have hdeg : g.outDegree e.src = 1 ↔ g.edges.filter (fun x => x.src = e.src) = [e] := by
    rw [outDegree, List.countP_eq_length_filter, List.length_eq_one_iff]
    constructor
    · rintro ⟨x, hx⟩
      have hmem : e ∈ g.edges.filter (fun y => y.src = e.src) := by simp [he]
      rw [hx, List.mem_singleton] at hmem
      rw [hx, hmem]
    · exact fun h => ⟨e, h⟩
  have hedge : e.kind = .fallthrough → ([e] : List CfgEdge) = [⟨e.src, e.dst, .fallthrough⟩] := by
    intro hk
    rw [← hk]
  simp only [forwards, Bool.and_eq_true, decide_eq_true_eq, hdeg, any_eq_true,
    List.isEmpty_iff]
  constructor
  · rintro ⟨⟨⟨hk, hne⟩, hone⟩, blk, hblk, hord, hev⟩
    exact ⟨⟨⟨blk, hblk, hord, hev⟩, hne, by rw [hone, hedge hk]⟩, hk⟩
  · rintro ⟨⟨⟨blk, hblk, hord, hev⟩, hne, hone⟩, hk⟩
    exact ⟨⟨⟨hk, hne⟩, by rw [hone, hedge hk]⟩, blk, hblk, hord, hev⟩

lemma FallsTo.mem {a b : ℕ} (h : g.FallsTo a b) : ⟨a, b, .fallthrough⟩ ∈ g.edges := by
  have hmem : (⟨a, b, .fallthrough⟩ : CfgEdge) ∈ g.edges.filter (fun e => e.src = a) := by
    simp [h.2.2]
  exact (List.mem_filter.mp hmem).1

lemma FallsTo.lt {a b : ℕ} (h : g.FallsTo a b) : a < g.blocks.length := by
  obtain ⟨⟨blk, hblk, -⟩, -⟩ := h
  exact (List.getElem?_eq_some_iff.mp hblk).1

lemma FallsTo.unique {a b c : ℕ} (hb : g.FallsTo a b) (hc : g.FallsTo a c) : b = c := by
  simpa using hb.2.2.symm.trans hc.2.2

end FunctionCfg

/-- The table after entering the edges `P` picks, one for each source. -/
lemma step_foldl_set {P : CfgEdge → Bool} (f : Forward) (hlt : ∀ e ∈ edges, P e → e.src < f.length)
    (huniq : ∀ e ∈ edges, ∀ e' ∈ edges, P e → P e' → e.src = e'.src → e.dst = e'.dst) (a b : ℕ) :
    Step (edges.foldl (fun f e => if P e then f.set e.src (some e.dst) else f) f) a b ↔
      (∃ e ∈ edges, P e ∧ e.src = a ∧ e.dst = b) ∨ (∀ e ∈ edges, P e → e.src ≠ a) ∧ Step f a b := by
  induction edges generalizing f with
  | nil => simp
  | cons e rest ih =>
    obtain ⟨he, hr⟩ := List.forall_mem_cons.mp hlt
    have hun' : ∀ x ∈ rest, ∀ y ∈ rest, P x → P y → x.src = y.src → x.dst = y.dst :=
      fun x hx y hy => huniq x (List.mem_cons_of_mem _ hx) y (List.mem_cons_of_mem _ hy)
    rw [List.foldl_cons]
    by_cases hP : P e
    · have hset : ∀ x y, Step (f.set e.src (some e.dst)) x y ↔
          e.src = x ∧ e.dst = y ∨ e.src ≠ x ∧ Step f x y := by
        intro x y
        unfold Step next
        by_cases hx : e.src = x
        · subst hx
          simp [he hP]
        · simp [hx]
      rw [if_pos hP, ih _ (by simpa using hr) hun', hset]
      by_cases hea : e.src = a
      · -- the other edges out of `a` lead where `e` does
        have hsame : ∀ x ∈ rest, P x → x.src = a → x.dst = e.dst := fun x hx hPx hxa =>
          huniq x (List.mem_cons_of_mem _ hx) e List.mem_cons_self hPx hP (hxa.trans hea.symm)
        simp only [List.mem_cons, exists_eq_or_imp, forall_eq_or_imp, hP, hea, true_and, ne_eq,
          not_true_eq_false, false_and, or_false, forall_const]
        constructor
        · rintro (⟨x, hx, hPx, rfl, rfl⟩ | ⟨-, rfl⟩)
          · exact .inr ⟨x, hx, hPx, rfl, rfl⟩
          · exact .inl rfl
        rintro (rfl | ⟨x, hx, hPx, hxa, hxb⟩)
        · by_cases hex : ∃ x ∈ rest, P x ∧ x.src = a
          · obtain ⟨x, hx, hPx, hxa⟩ := hex
            exact .inl ⟨x, hx, hPx, hxa, hsame x hx hPx hxa⟩
          · push Not at hex
            exact .inr ⟨hex, rfl⟩
        · exact .inl ⟨x, hx, hPx, hxa, hxb⟩
      · simp [hea]
    · rw [if_neg hP, ih _ hr hun']
      simp [hP]

namespace FunctionCfg
variable {g : FunctionCfg}

lemma length_forwardTable (g : FunctionCfg) : g.forwardTable.length = g.blocks.length := by
  have hfold : ∀ (edges : List CfgEdge) (f : Forward), (edges.foldl
      (fun f e => if g.forwards e then f.set e.src (some e.dst) else f) f).length = f.length := by
    intro edges
    induction edges with
    | nil => simp
    | cons e rest ih =>
      intro f
      rw [List.foldl_cons, ih]
      split
      · rw [List.length_set]
      · rfl
  rw [forwardTable, hfold, List.length_replicate]

lemma step_forwardTable {a b : ℕ} : Step g.forwardTable a b ↔ g.FallsTo a b := by
  have hnone : ¬ Step (List.replicate g.blocks.length none) a b := by
    unfold Step next
    by_cases ha : a < g.blocks.length <;> simp [ha]
  rw [forwardTable, step_foldl_set g.edges]
  · constructor
    · rintro (⟨e, he, hP, rfl, rfl⟩ | ⟨-, h⟩)
      · exact ((forwards_iff he).mp hP).1
      · exact absurd h hnone
    · intro h
      exact .inl ⟨_, h.mem, (forwards_iff h.mem).mpr ⟨h, rfl⟩, rfl, rfl⟩
  · intro e he hP
    rw [List.length_replicate]
    exact ((forwards_iff he).mp hP).1.lt
  intro e he e' he' hP hP' hsrc
  exact ((forwards_iff he).mp hP).1.unique (hsrc ▸ ((forwards_iff he').mp hP').1)

lemma fallsTo_eq : g.FallsTo = Step g.forwardTable := by
  funext a b
  exact propext step_forwardTable.symm

/-- The table once every cycle is cut. -/
def cutTable (g : FunctionCfg) : Forward :=
  ((resolve g.forwardTable).map Prod.fst).getD g.forwardTable

def Removed (g : FunctionCfg) (b : ℕ) : Prop := (next g.cutTable b).isSome

def KeptBlock (g : FunctionCfg) (b : ℕ) : Prop := b < g.blocks.length ∧ ¬ g.Removed b

/-- `v` is the kept block that follows `b`, over removed blocks only. -/
def Follows (g : FunctionCfg) (b v : ℕ) : Prop :=
  ReflTransGen (fun a c => g.Removed a ∧ g.FallsTo a c) b v ∧ g.KeptBlock v

/-- The position of a kept block in the new graph. -/
def newBlock (g : FunctionCfg) (b : ℕ) : Option ℕ := position Option.isNone g.cutTable b

/-- The table is resolved as the graph's own. -/
structure Settled (g : FunctionCfg) (forward : Forward) (target : List Slot) : Prop where
  resolved : Resolved g.forwardTable forward target
  cut : g.cutTable = forward

section Settled
variable {forward : Forward} {target : List Slot} (h : g.Settled forward target)
include h

lemma Settled.next_eq_none {b : ℕ} : next forward b = none ↔ ¬ g.Removed b := by
  rw [Removed, h.cut, not_isSome_iff_eq_none]

end Settled

end FunctionCfg

namespace FunctionCfg
variable {g : FunctionCfg}

section Settled
variable {forward : Forward} {target : List Slot} (h : g.Settled forward target)
include h

/-- Cycles of removable blocks, once the table is cut. -/
lemma Settled.cycle {a : ℕ} (hcycle : TransGen g.FallsTo a a) :
    ∃! b, ReflTransGen g.FallsTo a b ∧ g.KeptBlock b := by
  rw [fallsTo_eq] at hcycle ⊢
  have hlt : ∀ b, ReflTransGen (Step g.forwardTable) a b → b < g.blocks.length := by
    intro b hb
    obtain ⟨c, hc⟩ := ne_none_iff_exists'.mp (forwards_of_cycle hcycle hb)
    exact (step_forwardTable.mp hc).lt
  have hkept : ∀ b, ReflTransGen (Step g.forwardTable) a b ∧ g.KeptBlock b ↔
      ReflTransGen (Step g.forwardTable) a b ∧ next forward b = none := by
    intro b
    refine and_congr_right fun hb => ?_
    rw [KeptBlock, h.next_eq_none, and_iff_right (hlt b hb)]
  simp only [hkept]
  refine h.resolved.existsUnique_cut ?_ hcycle
  rw [length_forwardTable]
  exact hlt a .refl

end Settled

end FunctionCfg

end Pathologist.Cfg
