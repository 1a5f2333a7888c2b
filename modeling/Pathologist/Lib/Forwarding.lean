import Mathlib.Data.List.Chain
import Mathlib.Data.Fintype.Card

/-!
# Following forwarding pointers to their ends

A table forwards some of the numbers below its length to another. Every chain is
followed once and each number it passed is given the end of the chain. A chain
that runs into itself is cut where it was met again, so each cycle keeps exactly
one number that forwards nowhere.
-/
namespace Pathologist.Lib.Forwarding
open Relation List Function Option

/-- What each number forwards to, if it does. -/
abbrev Forward := List (Option ℕ)

def next (f : Forward) (a : ℕ) : Option ℕ := f.getD a none

def Step (f : Forward) (a b : ℕ) : Prop := next f a = some b

/-- Every number forwarded to has an entry. -/
def InRange (f : Forward) : Prop := ∀ a b, Step f a b → b < f.length

/-- What is known of the end of a number's chain. -/
inductive Slot
  | unresolved
  /-- The walk going on has passed it. -/
  | onPath
  | ends (b : ℕ)
deriving Repr, DecidableEq

/-- Where a walk stopped: the table, the slots, the numbers passed, the last one. -/
structure Walk where
  forward : Forward
  target : List Slot
  path : List ℕ
  last : ℕ

/-- Follow the table until a number whose end is known, that forwards nowhere, or
that the walk has passed already; the last is cut. A number outside the table
has no slot. -/
def walk : ℕ → Forward → List Slot → List ℕ → ℕ → Option Walk
  | 0, _, _, _, _ => none
  | fuel + 1, f, t, path, b =>
    match t[b]? with
    | none => none
    | some .onPath => some ⟨f.set b none, t.set b (.ends b), path, b⟩
    | some (.ends _) => some ⟨f, t, path, b⟩
    | some .unresolved =>
      match next f b with
      | none => some ⟨f, t.set b (.ends b), path, b⟩
      | some c => walk fuel f (t.set b .onPath) (path ++ [b]) c

/-- Give every number the walk passed the end it stopped at. -/
def Walk.settle (w : Walk) : Forward × List Slot :=
  (w.forward, w.path.foldl (fun t p => t.set p (w.target.getD w.last .unresolved)) w.target)

/-- Resolve the chain of one number. -/
def resolveFrom (s : Forward × List Slot) (start : ℕ) : Option (Forward × List Slot) :=
  (walk (s.1.length + 1) s.1 s.2 [] start).map Walk.settle

/-- Resolve the chain of every number. -/
def resolve (f : Forward) : Option (Forward × List Slot) :=
  (List.range f.length).foldlM resolveFrom (f, List.replicate f.length .unresolved)

section Ends
variable {f f₀ : Forward} {e : ℕ → Option ℕ} {a b c v : ℕ}

lemma rightUnique_step (f : Forward) : Relator.RightUnique (Step f) := by
  intro a b c hb hc
  exact Option.some.inj (hb.symm.trans hc)

lemma eq_of_end (h : ReflTransGen (Step f) a b) (ha : next f a = none) : a = b := by
  rcases ReflTransGen.cases_head h with heq | ⟨c, hc, -⟩
  · exact heq
  · cases ha.symm.trans hc

lemma step_set_none {b a c : ℕ} : Step (f.set b none) a c ↔ a ≠ b ∧ Step f a c := by
  unfold Step next
  by_cases h : b = a
  · subst h
    by_cases hb : b < f.length <;> simp [hb]
  · simp [h, Ne.symm h]

/-- The ends known so far are right: each is where its chain stops, and the end of
a number is the end of what it forwards to. -/
structure Ends (f : Forward) (e : ℕ → Option ℕ) : Prop where
  reaches : ∀ a v, e a = some v → ReflTransGen (Step f) a v ∧ next f v = none
  closed : ∀ a c v, e a = some v → Step f a c → e c = some v

/-- From a number on a chain to `b` the table leads along the chain, and to `b`. -/
lemma of_chain {l} (h : List.IsChain (Step f) (l ++ [b])) {p : ℕ} (hp : p ∈ l) :
    ReflTransGen (Step f) p b ∧ ∀ c, Step f p c → c ∈ l ++ [b] := by
  induction l generalizing p with
  | nil => cases hp
  | cons q l ih =>
    obtain rfl | hp := mem_cons.mp hp
    · cases l with
      | nil =>
        have hst : Step f p b := by simpa using h
        exact ⟨.single hst, fun c hc => by simp [rightUnique_step f hc hst]⟩
      | cons q l =>
        obtain ⟨hst, ht⟩ := isChain_cons_cons.mp h
        exact ⟨.head hst (ih ht mem_cons_self).1, fun c hc => by simp [rightUnique_step f hc hst]⟩
    · obtain ⟨hb, hn⟩ := ih h.tail hp
      exact ⟨hb, fun c hc => mem_cons_of_mem _ (hn c hc)⟩

variable (h : Ends f e)
include h

/-- The end of a number that forwards nowhere is itself. -/
lemma Ends.add (hb : next f b = none) : Ends f (update e b (some b)) := by
  constructor
  · intro a v hv
    by_cases hab : a = b
    · subst hab
      obtain rfl : a = v := by simpa using hv
      exact ⟨.refl, hb⟩
    · rw [update_of_ne hab] at hv
      exact h.reaches a v hv
  intro a c v hv hs
  have hab : a ≠ b := by
    rintro rfl
    cases hb.symm.trans hs
  rw [update_of_ne hab] at hv
  have hc := h.closed a c v hv hs
  by_cases hcb : c = b
  · subst hcb
    simp [eq_of_end (h.reaches c v hc).1 hb]
  · rw [update_of_ne hcb]
    exact hc

/-- Cutting a number whose end is not known keeps the ends that are. -/
lemma Ends.cut (hb : e b = none) : Ends (f.set b none) e := by
  have hreach : ∀ a v, e a = some v → ReflTransGen (Step f) a v →
      ReflTransGen (Step (f.set b none)) a v := by
    intro a v hv hw
    induction hw using ReflTransGen.head_induction_on with
    | refl => exact .refl
    | @head x y hstep _ ih =>
      have hne : x ≠ b := by
        rintro rfl
        rw [hb] at hv
        cases hv
      exact .head (step_set_none.mpr ⟨hne, hstep⟩) (ih (h.closed _ _ _ hv hstep))
  constructor
  · intro a v hv
    obtain ⟨hw, hend⟩ := h.reaches a v hv
    refine ⟨hreach a v hv hw, ?_⟩
    rw [eq_none_iff_forall_ne_some]
    intro c hc
    have hstep : Step f v c := (step_set_none.mp hc).2
    rw [Step, hend] at hstep
    cases hstep
  · intro a c v hv hstep
    exact h.closed a c v hv (step_set_none.mp hstep).2

/-- Numbers that lead to one another and to `b`, whose end is known, have that end. -/
lemma Ends.extend {l : List ℕ} (hl : ∀ p ∈ l, ReflTransGen (Step f) p b)
    (hn : ∀ p ∈ l, ∀ c, Step f p c → c ∈ l ++ [b]) (hb : e b = some v)
    (hold : ∀ p ∈ l, ∀ w, e p = some w → w = v) :
    Ends f (fun a => if a ∈ l then some v else e a) := by
  constructor
  · intro a w hw
    by_cases ha : a ∈ l
    · obtain rfl : v = w := by simpa [ha] using hw
      obtain ⟨hwa, hend⟩ := h.reaches b v hb
      exact ⟨(hl a ha).trans hwa, hend⟩
    · exact h.reaches a w (by simpa [ha] using hw)
  intro a c w hw hs
  by_cases ha : a ∈ l
  · obtain rfl : v = w := by simpa [ha] using hw
    by_cases hc : c ∈ l
    · simp [hc]
    · obtain rfl : c = b := by simpa [hc] using hn a ha c hs
      simp [hb]
  · have hc := h.closed a c w (by simpa [ha] using hw) hs
    by_cases hcl : c ∈ l
    · simp [hcl, hold c hcl w hc]
    · simp [hcl, hc]

end Ends

section Cut
variable {f f₀ : Forward} {e : ℕ → Option ℕ} {a b c v : ℕ}

/-- `f` is `f₀` with numbers cut, each on a cycle whose every number ends there. -/
structure Cuts (f₀ f : Forward) (e : ℕ → Option ℕ) : Prop where
  length_eq : f.length = f₀.length
  sub : ∀ a c, Step f a c → Step f₀ a c
  cycle : ∀ b, next f b = none → next f₀ b ≠ none →
    TransGen (Step f₀) b b ∧ ∀ c, ReflTransGen (Step f₀) b c → e c = some b

lemma Cuts.refl (f₀ : Forward) (e : ℕ → Option ℕ) : Cuts f₀ f₀ e where
  length_eq := rfl
  sub _ _ h := h
  cycle _ h h₀ := absurd h h₀

lemma Cuts.mono {e'} (h : Cuts f₀ f e) (he : ∀ a v, e a = some v → e' a = some v) :
    Cuts f₀ f e' where
  length_eq := h.length_eq
  sub := h.sub
  cycle b hb hb₀ :=
    ⟨(h.cycle b hb hb₀).1, fun c hc => he c b ((h.cycle b hb hb₀).2 c hc)⟩

/-- Along a chain that returns to `b`, all that `b` reaches is on the chain. -/
lemma mem_of_reaches {l} (hc : List.IsChain (Step f) (b :: l ++ [b]))
    (h : ReflTransGen (Step f) b c) : c ∈ b :: l := by
  induction h with
  | refl => exact mem_cons_self
  | tail _ hs ih => simpa [or_comm] using (of_chain hc ih).2 _ hs

lemma transGen_of_chain {l} (hc : List.IsChain (Step f) (a :: l ++ [b])) :
    TransGen (Step f) a b := by
  induction l generalizing a with
  | nil => exact .single (by simpa using hc)
  | cons c l ih =>
    obtain ⟨hs, ht⟩ := isChain_cons_cons.mp hc
    exact .head hs (ih ht)

/-- Cutting where a chain meets itself, once every number of the chain ends there. -/
lemma Cuts.cut {l} (h : Cuts f₀ f e) (hchain : List.IsChain (Step f) (b :: l ++ [b]))
    (he : ∀ c ∈ b :: l, e c = some b) : Cuts f₀ (f.set b none) e := by
  have hcha₀ : List.IsChain (Step f₀) (b :: l ++ [b]) := hchain.imp h.sub
  refine ⟨by rw [length_set, h.length_eq], fun a c hs => ?_, fun x hx hx₀ => ?_⟩
  · exact h.sub a c (step_set_none.mp hs).2
  by_cases hxb : x = b
  · subst hxb
    exact ⟨transGen_of_chain hcha₀, fun c hc => he c (mem_of_reaches hcha₀ hc)⟩
  refine h.cycle x ?_ hx₀
  rw [eq_none_iff_forall_ne_some] at hx ⊢
  intro c hc
  exact hx c (step_set_none.mpr ⟨hxb, hc⟩)

end Cut

/-- The end a table of slots gives a number. -/
def endOf (t : List Slot) (a : ℕ) : Option ℕ :=
  match t[a]? with
  | some (.ends v) => some v
  | _ => none

section Walk
variable {f f₀ : Forward} {t : List Slot} {path : List ℕ} {a b c v : ℕ}

lemma endOf_eq_some : endOf t a = some v ↔ t[a]? = some (.ends v) := by
  unfold endOf
  split <;> simp_all

lemma endOf_set_onPath (hb : endOf t b = none) : endOf (t.set b .onPath) = endOf t := by
  funext a
  by_cases h : b = a
  · subst h
    rw [hb]
    unfold endOf
    by_cases hlt : b < t.length
    · simp [hlt]
    · simp [hlt]
  · simp [endOf, h]

lemma length_foldl_set (x : Slot) (l : List ℕ) (t : List Slot) :
    (l.foldl (fun t p => t.set p x) t).length = t.length := by
  induction l generalizing t with
  | nil => rfl
  | cons p l ih => rw [foldl_cons, ih, length_set]

lemma getElem?_foldl_set (x : Slot) (l : List ℕ) (t : List Slot) (hl : ∀ p ∈ l, p < t.length) :
    (l.foldl (fun t p => t.set p x) t)[a]? = if a ∈ l then some x else t[a]? := by
  induction l generalizing t with
  | nil => rfl
  | cons p l ih =>
    obtain ⟨hp, hl⟩ := forall_mem_cons.mp hl
    rw [foldl_cons, ih _ (by simpa using hl)]
    by_cases hal : a ∈ l
    · simp [hal]
    by_cases hap : p = a
    · subst hap
      simp [hp]
    · simp [hap, Ne.symm hap]

/-- A walk under way: it has followed the table from the head of `path` to `b`. -/
structure OnWalk (f₀ f : Forward) (t : List Slot) (path : List ℕ) (b : ℕ) : Prop where
  length_eq : t.length = f₀.length
  ends : Ends f (endOf t)
  cuts : Cuts f₀ f (endOf t)
  onPath : ∀ a, t[a]? = some .onPath ↔ a ∈ path
  chain : List.IsChain (Step f) (path ++ [b])
  nodup : path.Nodup

/-- What is known between walks. -/
structure Between (f₀ f : Forward) (t : List Slot) : Prop where
  length_eq : t.length = f₀.length
  ends : Ends f (endOf t)
  cuts : Cuts f₀ f (endOf t)
  off : ∀ a : ℕ, t[a]? ≠ some .onPath

section
variable (h : OnWalk f₀ f t path b)
include h

lemma OnWalk.lt : ∀ p ∈ path, p < t.length := by
  intro p hp
  exact (List.getElem?_eq_some_iff.mp ((h.onPath p).mpr hp)).1

lemma OnWalk.endOf_path : ∀ p ∈ path, endOf t p = none := by
  intro p hp
  simp [endOf, (h.onPath p).mpr hp]

lemma OnWalk.notMem_of_end (ha : endOf t a = some v) : a ∉ path := by
  intro hp
  rw [h.endOf_path a hp] at ha
  cases ha

end

/-- What a finished walk leaves: everything it passed has an end, and nothing
known before is lost. -/
structure Settles (f₀ : Forward) (t : List Slot) (path : List ℕ) (b : ℕ)
    (s : Forward × List Slot) : Prop where
  between : Between f₀ s.1 s.2
  keeps : ∀ a v, endOf t a = some v → endOf s.2 a = some v
  ends_on : ∀ p ∈ path ++ [b], (endOf s.2 p).isSome

section
variable (h : OnWalk f₀ f t path b)
include h

/-- The path is settled once the ends table `t'` is right, with `b` in it, and `f'` leads there. -/
lemma OnWalk.settles {f' : Forward} {t'} (hlen : t'.length = t.length) (hv : endOf t' b = some v)
    (he : Ends f' (endOf t')) (hr : ∀ p ∈ path, ReflTransGen (Step f') p b)
    (hsub : ∀ a c, Step f' a c → Step f a c) (hold : ∀ p ∈ path, ∀ w, endOf t' p = some w → w = v)
    (hcuts : Cuts f₀ f' (fun a => if a ∈ path then some v else endOf t' a))
    (hk : ∀ a w, endOf t a = some w → endOf t' a = some w)
    (honPath : ∀ a, t'[a]? = some .onPath → a ∈ path) :
    Settles f₀ t path b (Walk.settle ⟨f', t', path, b⟩) := by
  have hlt : ∀ p ∈ path, p < t'.length := fun p hp => hlen ▸ h.lt p hp
  have hstop : t'.getD b .unresolved = .ends v := by
    rw [getD_eq_getElem?_getD, endOf_eq_some.mp hv]
    rfl
  have hend : endOf (Walk.settle ⟨f', t', path, b⟩).2 =
      fun a => if a ∈ path then some v else endOf t' a := by
    funext a
    unfold Walk.settle endOf
    rw [hstop, getElem?_foldl_set _ path t' hlt]
    by_cases ha : a ∈ path
    · simp [ha]
    · simp [ha]
  refine ⟨⟨?_, ?_, ?_, fun a ha => ?_⟩, fun a w hw => ?_, fun p hp => ?_⟩
  · rw [Walk.settle, length_foldl_set, hlen, h.length_eq]
  · rw [hend]
    exact he.extend hr (fun p hp c hc => (of_chain h.chain hp).2 c (hsub p c hc)) hv hold
  · rw [hend]
    exact hcuts
  · simp only [Walk.settle, hstop, getElem?_foldl_set _ _ _ hlt] at ha
    split at ha
    · cases ha
    · exact absurd (honPath a ha) ‹_›
  · simp [hend, h.notMem_of_end hw, hk a w hw]
  rw [hend]
  by_cases hp' : p ∈ path
  · simp [hp']
  · obtain rfl : p = b := by simpa [hp'] using hp
    simp [hv]

variable (hb : t[b]? = some .unresolved)
include hb

/-- One step of the walk onto what `b` forwards to. -/
lemma OnWalk.step (hn : next f b = some c) : OnWalk f₀ f (t.set b .onPath) (path ++ [b]) c := by
  have hlt : b < t.length := (List.getElem?_eq_some_iff.mp hb).1
  have hend : endOf (t.set b .onPath) = endOf t := endOf_set_onPath (by simp [endOf, hb])
  refine ⟨by rw [length_set, h.length_eq], hend ▸ h.ends, hend ▸ h.cuts, fun a => ?_, ?_, ?_⟩
  · by_cases hab : b = a
    · subst hab
      simp [hlt]
    · rw [getElem?_set_ne hab, h.onPath]
      simp [Ne.symm hab]
  · rw [append_assoc]
    refine isChain_append.mpr ⟨h.chain.left_of_append, isChain_pair.mpr hn, ?_⟩
    intro x hx y hy
    obtain rfl : b = y := by simpa using hy
    exact (isChain_append.mp h.chain).2.2 x hx b (by simp)
  refine nodup_append.mpr ⟨h.nodup, by simp, fun x hx y hy => ?_⟩
  rintro rfl
  obtain rfl : x = b := by simpa using hy
  have := (h.onPath x).mpr hx
  rw [hb] at this
  cases this

end

end Walk

section Resolve
variable {f f₀ : Forward} {t : List Slot} {a b c v : ℕ}

lemma Between.start (f₀ : Forward) : Between f₀ f₀ (List.replicate f₀.length .unresolved) := by
  have hslot : ∀ a : ℕ, ∀ x, (List.replicate f₀.length Slot.unresolved)[a]? = some x →
      x = .unresolved := by
    intro a x hx
    exact (mem_replicate.mp (mem_of_getElem? hx)).2
  have hnone : ∀ a v, endOf (List.replicate f₀.length .unresolved) a ≠ some v := by
    intro a v hv
    have := hslot a _ (endOf_eq_some.mp hv)
    cases this
  refine ⟨length_replicate, ⟨?_, ?_⟩, Cuts.refl _ _, fun a ha => ?_⟩
  · exact fun a v hv => absurd hv (hnone a v)
  · exact fun a c v hv => absurd hv (hnone a v)
  · have := hslot a _ ha
    cases this

/-- Every chain has its end, and the table was cut once on each of its cycles. -/
structure Resolved (f₀ f : Forward) (t : List Slot) : Prop where
  length_eq : t.length = f₀.length
  cuts : Cuts f₀ f (endOf t)
  ends : ∀ a, a < f₀.length → ∃ v, endOf t a = some v
  reaches : ∀ a v, endOf t a = some v → ReflTransGen (Step f) a v ∧ next f v = none
  end_lt : ∀ a v, endOf t a = some v → v < f₀.length

/-- What a number on a cycle reaches leads back to it. -/
lemma reaches_back (hc : TransGen (Step f) a a) (h : ReflTransGen (Step f) a b) :
    ReflTransGen (Step f) b a := by
  induction h with
  | refl => exact .refl
  | @tail x y _ hs ih =>
    have hloop : TransGen (Step f) x a := by
      rcases ReflTransGen.cases_head ih with rfl | ⟨z, hz, hza⟩
      · exact hc
      · exact TransGen.head' hz hza
    obtain ⟨z, hz, hza⟩ := TransGen.head'_iff.mp hloop
    exact rightUnique_step f hz hs ▸ hza

lemma forwards_of_cycle (hcycle : TransGen (Step f) a a) (h : ReflTransGen (Step f) a b) :
    next f b ≠ none := by
  have hloop : TransGen (Step f) b b :=
    TransGen.trans_right (reaches_back hcycle h) (hcycle.trans_left h)
  obtain ⟨c, hc, -⟩ := TransGen.head'_iff.mp hloop
  rw [hc]
  exact some_ne_none c

/-- On a cycle of the table exactly one number is cut. -/
lemma Resolved.existsUnique_cut (h : Resolved f₀ f t) (ha : a < f₀.length)
    (hc : TransGen (Step f₀) a a) : ∃! b, ReflTransGen (Step f₀) a b ∧ next f b = none := by
  obtain ⟨v, hv⟩ := h.ends a ha
  obtain ⟨hwalk, hend⟩ := h.reaches a v hv
  have hwa₀ : ReflTransGen (Step f₀) a v := ReflTransGen.mono h.cuts.sub _ _ hwalk
  refine ⟨v, ⟨hwa₀, hend⟩, fun b hb => ?_⟩
  -- each of two cut numbers is the end of all it reaches, itself included
  have hv' := (h.cuts.cycle v hend (forwards_of_cycle hc hwa₀)).2
  have hb' := (h.cuts.cycle b hb.2 (forwards_of_cycle hc hb.1)).2
  rcases ReflTransGen.total_of_right_unique (rightUnique_step f₀) hb.1 hwa₀ with hbv | hvb
  · exact Option.some.inj ((hb' v hbv).symm.trans (hv' v .refl))
  · exact Option.some.inj ((hb' b .refl).symm.trans (hv' b hvb))

end Resolve

end Pathologist.Lib.Forwarding
