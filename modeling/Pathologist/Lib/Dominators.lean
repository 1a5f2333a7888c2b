import Pathologist.Lib.Digraph

/-!
# Iterative dominators

The dominator tree of a graph from one entry, computed by repeated passes over
the reverse postorder until a pass changes nothing. A node's entry in the table
is its immediate dominator; the entry node is its own.

Only the fixpoint matters for soundness. When a pass changes nothing, the entry
of every listed node is an ancestor of each of its predecessors that has one, so
a walk from the entry meets every ancestor of the node it ends at.
-/
namespace Pathologist.Lib.Dominators
open Relation Pathologist.Lib.Digraph List

abbrev Idom := List (Option ℕ)

/-- The entry of `x`; `none` outside the table. -/
def parent (idom : Idom) (x : ℕ) : Option ℕ := idom.getD x none

/-- `x` climbs to `y` in the table, over any number of entries. -/
def Climbs (idom : Idom) : ℕ → ℕ → Prop :=
  ReflTransGen (fun a b => parent idom a = some b)

/-- `while post[a] < post[b] { a = idom[a].unwrap() }`; `none` when an entry is
missing or the fuel is spent. -/
def climb (idom : Idom) (post : List ℕ) : ℕ → ℕ → ℕ → Option ℕ
  | 0, _, _ => none
  | fuel + 1, a, b =>
    if post.getD a 0 < post.getD b 0 then
      match parent idom a with
      | some up => climb idom post fuel up b
      | none => none
    else some a

/-- The meeting point of two nodes, each climbing while its number is lower. -/
def intersect (idom : Idom) (post : List ℕ) : ℕ → ℕ → ℕ → Option ℕ
  | 0, _, _ => none
  | fuel + 1, a, b =>
    if a = b then some a
    else
      match climb idom post fuel a b with
      | none => none
      | some a' =>
        match climb idom post fuel b a' with
        | none => none
        | some b' => intersect idom post fuel a' b'

/-- The candidate of a node: the meeting point of its predecessors that have an
entry, taken in order. -/
def candidate (idom : Idom) (post : List ℕ) (fuel : ℕ) : List ℕ → Option ℕ → Option (Option ℕ)
  | [], new => some new
  | p :: ps, new =>
    if (parent idom p).isSome then
      match new with
      | none => candidate idom post fuel ps (some p)
      | some q =>
        match intersect idom post fuel p q with
        | none => none
        | some m => candidate idom post fuel ps (some m)
    else candidate idom post fuel ps new

/-- One pass over the listed nodes, and whether it changed an entry. -/
def pass (pred : Adjacency) (post : List ℕ) (fuel : ℕ) : List ℕ → Idom → Bool → Option (Idom × Bool)
  | [], idom, changed => some (idom, changed)
  | b :: bs, idom, changed =>
    match candidate idom post fuel (next pred b) none with
    | none => none
    | some new =>
      if new.isSome ∧ parent idom b ≠ new then
        pass pred post fuel bs (idom.set b new) true
      else pass pred post fuel bs idom changed

/-- Passes until one changes nothing. -/
def passes (pred : Adjacency) (post order : List ℕ) (fuel : ℕ) : ℕ → Idom → Option Idom
  | 0, _ => none
  | k + 1, idom =>
    match pass pred post fuel order idom false with
    | none => none
    | some (idom', true) => passes pred post order fuel k idom'
    | some (idom', false) => some idom'

/-- Each listed node's place in the list; `n` for the nodes outside it. -/
def numbering (n : ℕ) (order : List ℕ) : List ℕ :=
  (List.range n).map fun b => (order.idxOf? b).getD n

/-- The immediate dominators of the nodes `entry` reaches. -/
def dominators (fuel entry : ℕ) (succ pred : Adjacency) : Option Idom :=
  match postorder fuel entry succ with
  | none => none
  | some (post, _) =>
    passes pred (numbering succ.length post) post.reverse.tail fuel fuel
      ((List.replicate succ.length none).set entry (some entry))

/-- Whether `a` dominates `b` under a table of immediate dominators. -/
def dominatesLoop (idom : Idom) (a : ℕ) : ℕ → ℕ → Bool
  | 0, _ => false
  | fuel + 1, at_ =>
    if at_ = a then true
    else
      match parent idom at_ with
      | some up => if up = at_ then false else dominatesLoop idom a fuel up
      | none => false

/-- A chain of entries that ends visits each node at most once. -/
def dominates (idom : Idom) (a b : ℕ) : Bool := dominatesLoop idom a (idom.length + 1) b

variable {idom idom' : Idom} {post : List ℕ} {fuel a b m : ℕ}

lemma climbs_of_climb (h : climb idom post fuel a b = some m) : Climbs idom a m := by
  induction fuel generalizing a with
  | zero => simp [climb] at h
  | succ fuel ih =>
    unfold climb at h
    split at h
    · cases hp : parent idom a with
      | none => simp [hp] at h
      | some up =>
        simp only [hp] at h
        exact ReflTransGen.head hp (ih h)
    · obtain rfl : a = m := by simpa using h
      exact ReflTransGen.refl

lemma climbs_of_intersect (h : intersect idom post fuel a b = some m) :
    Climbs idom a m ∧ Climbs idom b m := by
  induction fuel generalizing a b with
  | zero => simp [intersect] at h
  | succ fuel ih =>
    unfold intersect at h
    split at h
    · rename_i hab
      subst hab
      obtain rfl : a = m := by simpa using h
      exact ⟨ReflTransGen.refl, ReflTransGen.refl⟩
    cases ha : climb idom post fuel a b with
    | none => simp [ha] at h
    | some a' =>
      simp only [ha] at h
      cases hb : climb idom post fuel b a' with
      | none => simp [hb] at h
      | some b' =>
        simp only [hb] at h
        obtain ⟨ha', hb'⟩ := ih h
        exact ⟨(climbs_of_climb ha).trans ha', (climbs_of_climb hb).trans hb'⟩

/-- Every predecessor with an entry climbs to the candidate, and one exists as
soon as some predecessor has an entry. -/
lemma candidate_spec {ps new r} (h : candidate idom post fuel ps new = some r) :
    (∀ q, new = some q → ∃ m, r = some m ∧ Climbs idom q m) ∧
      (∀ p ∈ ps, (parent idom p).isSome → ∃ m, r = some m ∧ Climbs idom p m) := by
  induction ps generalizing new with
  | nil =>
    obtain rfl : new = r := by simpa [candidate] using h
    refine ⟨?_, by simp⟩
    intro q hq
    exact ⟨q, hq, ReflTransGen.refl⟩
  | cons p ps ih =>
    unfold candidate at h
    by_cases hp : (parent idom p).isSome
    · rw [if_pos hp] at h
      cases new with
      | none =>
        obtain ⟨hstart, hrest⟩ := ih h
        refine ⟨by simp, ?_⟩
        intro z hz hs
        rcases mem_cons.mp hz with rfl | hz
        · exact hstart z rfl
        · exact hrest z hz hs
      | some q =>
        cases hm : intersect idom post fuel p q with
        | none => simp [hm] at h
        | some m =>
          simp only [hm] at h
          obtain ⟨hstart, hrest⟩ := ih h
          obtain ⟨r', hr, hc⟩ := hstart m rfl
          obtain ⟨hpm, hqm⟩ := climbs_of_intersect hm
          refine ⟨?_, ?_⟩
          · intro q' hq'
            obtain rfl : q = q' := by simpa using hq'
            exact ⟨r', hr, hqm.trans hc⟩
          intro z hz hs
          rcases mem_cons.mp hz with rfl | hz
          · exact ⟨r', hr, hpm.trans hc⟩
          · exact hrest z hz hs
    · rw [if_neg hp] at h
      obtain ⟨hstart, hrest⟩ := ih h
      refine ⟨hstart, ?_⟩
      intro z hz hs
      rcases mem_cons.mp hz with rfl | hz
      · exact absurd hs hp
      · exact hrest z hz hs

lemma parent_set_ne {x y : ℕ} {v} (hxy : x ≠ y) : parent (idom.set x v) y = parent idom y := by
  simp [parent, hxy]

variable {pred : Adjacency} {bs : List ℕ}

/-- A pass looks for the candidate of its first node, enters it if it is another, and goes on. -/
lemma pass_cons {b : ℕ} {changed : Bool} {r}
    (h : pass pred post fuel (b :: bs) idom changed = some r) :
    ∃ new, candidate idom post fuel (next pred b) none = some new ∧
      (pass pred post fuel bs (idom.set b new) true = some r ∨
        (new.isSome → parent idom b = new) ∧ pass pred post fuel bs idom changed = some r) := by
  unfold pass at h
  cases hc : candidate idom post fuel (next pred b) none with
  | none => simp [hc] at h
  | some new =>
    simp only [hc] at h
    refine ⟨new, rfl, ?_⟩
    split at h
    · exact .inl h
    · rename_i hsame
      exact .inr ⟨fun hs => by_contra fun hne => hsame ⟨hs, hne⟩, h⟩

lemma pass_parent {changed changed' : Bool} {x : ℕ} (hx : x ∉ bs)
    (h : pass pred post fuel bs idom changed = some (idom', changed')) :
    parent idom' x = parent idom x := by
  induction bs generalizing idom changed with
  | nil =>
    obtain ⟨rfl, -⟩ : idom = idom' ∧ changed = changed' := by simpa [pass] using h
    rfl
  | cons b bs ih =>
    obtain ⟨hxb, hxbs⟩ : x ≠ b ∧ x ∉ bs := by simpa using hx
    obtain ⟨new, -, h | ⟨-, h⟩⟩ := pass_cons h
    · rw [ih hxbs h, parent_set_ne (Ne.symm hxb)]
    · exact ih hxbs h

lemma pass_changed {changed' : Bool}
    (h : pass pred post fuel bs idom true = some (idom', changed')) : changed' = true := by
  induction bs generalizing idom with
  | nil =>
    obtain ⟨-, hc⟩ : idom = idom' ∧ true = changed' := by simpa [pass] using h
    exact hc.symm
  | cons b bs ih =>
    obtain ⟨new, -, h | ⟨-, h⟩⟩ := pass_cons h
    · exact ih h
    · exact ih h

/-- A pass that changed nothing found every listed node's candidate in place. -/
lemma pass_unchanged (h : pass pred post fuel bs idom false = some (idom', false)) :
    idom' = idom ∧ ∀ b ∈ bs, ∃ new, candidate idom post fuel (next pred b) none = some new ∧
      (new.isSome → parent idom b = new) := by
  induction bs with
  | nil =>
    obtain rfl : idom = idom' := by simpa [pass] using h
    exact ⟨rfl, by simp⟩
  | cons b bs ih =>
    obtain ⟨new, hc, h | ⟨hs, h⟩⟩ := pass_cons h
    · exact absurd (pass_changed h) (by simp)
    · obtain ⟨hidom, hr⟩ := ih h
      exact ⟨hidom, forall_mem_cons.mpr ⟨⟨new, hc, hs⟩, hr⟩⟩

/-- A settled table: a pass over `order` finds nothing to change. -/
def Settled (pred : Adjacency) (order : List ℕ) (idom : Idom) : Prop :=
  ∀ b ∈ order, ∀ p ∈ next pred b, (parent idom p).isSome →
    ∃ m, parent idom b = some m ∧ Climbs idom p m

lemma passes_spec {order} {k x : ℕ} (hx : x ∉ order)
    (h : passes pred post order fuel k idom = some idom') :
    Settled pred order idom' ∧ parent idom' x = parent idom x := by
  induction k generalizing idom with
  | zero => simp [passes] at h
  | succ k ih =>
    unfold passes at h
    cases hp : pass pred post fuel order idom false with
    | none => simp [hp] at h
    | some r =>
      obtain ⟨mid, changed⟩ := r
      rw [hp] at h
      cases changed with
      | true =>
        obtain ⟨hsettled, hk⟩ := ih h
        exact ⟨hsettled, hk.trans (pass_parent hx hp)⟩
      | false =>
        obtain rfl : mid = idom' := by simpa using h
        obtain ⟨rfl, hall⟩ := pass_unchanged hp
        refine ⟨?_, rfl⟩
        intro b hb p hpm hs
        obtain ⟨new, hnew, hin⟩ := hall b hb
        obtain ⟨m, rfl, hc⟩ := (candidate_spec hnew).2 p hpm hs
        exact ⟨m, hin rfl, hc⟩

lemma climbs_of_dominates (h : dominates idom a b = true) : Climbs idom b a := by
  unfold dominates at h
  generalize idom.length + 1 = k at h
  induction k generalizing b with
  | zero => simp [dominatesLoop] at h
  | succ k ih =>
    unfold dominatesLoop at h
    split at h
    · rename_i hba
      subst hba
      exact ReflTransGen.refl
    cases hp : parent idom b with
    | none => simp [hp] at h
    | some up =>
      simp only [hp] at h
      split at h
      · simp at h
      · exact ReflTransGen.head hp (ih h)

/-- A walk from `entry` to `c` none of whose nodes is `v`. -/
def AvoidingWalk (succ : Adjacency) (entry v c : ℕ) : Prop :=
  entry ≠ v ∧ ReflTransGen (fun x y => Edge succ x y ∧ y ≠ v) entry c

variable {succ : Adjacency}

lemma AvoidingWalk.ne {entry v c : ℕ} (h : AvoidingWalk succ entry v c) : c ≠ v := by
  obtain ⟨hev, hw⟩ := h
  cases hw with
  | refl => exact hev
  | tail _ hs => exact hs.2

lemma AvoidingWalk.step {entry v c d : ℕ} (h : AvoidingWalk succ entry v c) (he : Edge succ c d)
    (hd : d ≠ v) : AvoidingWalk succ entry v d :=
  ⟨h.1, h.2.tail ⟨he, hd⟩⟩

/-- The computed table is sound: every walk from the entry to a node meets each
of the nodes said to dominate it. -/
lemma not_avoiding_of_dominates {entry v c : ℕ} (hrange : InRange succ) (he : entry < succ.length)
    (hpred : ∀ x y, Edge succ x y → x ∈ next pred y)
    (hidom : dominators fuel entry succ pred = some idom) (hdom : dominates idom v c = true) :
    ¬ AvoidingWalk succ entry v c := by
  unfold dominators at hidom
  cases hp : postorder fuel entry succ with
  | none => simp [hp] at hidom
  | some r =>
    obtain ⟨order, visited⟩ := r
    simp only [hp] at hidom
    obtain ⟨hnodup, hl, hclosed⟩ := postorder_spec hrange he hp
    have hrev : order.reverse = entry :: order.reverse.tail := by
      cases hr : order.reverse with
      | nil => simp [getLast?_eq_head?_reverse, hr] at hl
      | cons z zs =>
        obtain rfl : z = entry := by
          simpa [getLast?_eq_head?_reverse, hr] using hl
        rfl
    have hmem : ∀ x, x ∈ order ↔ x = entry ∨ x ∈ order.reverse.tail := by
      intro x
      rw [← mem_reverse, hrev]
      simp
    have hfresh : entry ∉ order.reverse.tail := by
      have hn := nodup_reverse.mpr hnodup
      rw [hrev] at hn
      exact (nodup_cons.mp hn).1
    obtain ⟨hs, hentry⟩ := passes_spec hfresh hidom
    have hroot : parent idom entry = some entry := by
      rw [hentry]
      simp [parent, he]
    have hrootClimb : ∀ x, Climbs idom entry x → x = entry := by
      intro x hx
      induction hx with
      | refl => rfl
      | tail _ hstep ih =>
        subst ih
        exact (Option.some.inj (hroot.symm.trans hstep)).symm
    rintro ⟨hev, hw⟩
    -- along the walk: the node is listed, has an entry, and does not climb to `v`
    have hwalk : c ∈ order ∧ (parent idom c).isSome ∧ ¬ Climbs idom c v := by
      clear hdom
      induction hw with
      | refl =>
        refine ⟨(hmem entry).mpr (.inl rfl), by simp [hroot], ?_⟩
        intro hc
        exact hev (hrootClimb v hc).symm
      | @tail x y _ hstep ih =>
        obtain ⟨hx, hsome, hnot⟩ := ih
        have hy : y ∈ order := hclosed x hx y hstep.1
        rcases (hmem y).mp hy with rfl | ht
        · refine ⟨hy, by simp [hroot], ?_⟩
          intro hc
          exact hstep.2 (hrootClimb v hc).symm
        obtain ⟨up, hup, hc⟩ := hs y ht x (hpred x y hstep.1) hsome
        refine ⟨hy, by simp [hup], ?_⟩
        intro hyv
        rcases ReflTransGen.cases_head hyv with rfl | ⟨z, hz, hzv⟩
        · exact hstep.2 rfl
        · obtain rfl : up = z := Option.some.inj (hup.symm.trans hz)
          exact hnot (hc.trans hzv)
    exact hwalk.2.2 (climbs_of_dominates hdom)

end Pathologist.Lib.Dominators
